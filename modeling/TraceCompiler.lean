import TraceCompiler.Engine.Arena
import TraceCompiler.Engine.Group
import TraceCompiler.Machine.Listing
import TraceCompiler.Machine.Recorder
import TraceCompiler.Main
import TraceCompiler.Proofs.Placement.Partition
import TraceCompiler.Proofs.Placement.Stores
import TraceCompiler.Proofs.Placement.Values
import TraceCompiler.Proofs.CodeMemory.Sessions
import TraceCompiler.Proofs.Lowering.Stages
import TraceCompiler.Proofs.Engine.Accounts
import TraceCompiler.Proofs.Engine.ValueArray
import TraceCompiler.Proofs.Trace.Interning
import TraceCompiler.Proofs.Trace.Lifetimes
import TraceCompiler.Proofs.Program.Relinking
import TraceCompiler.Proofs.Program.BridgeOrder
import TraceCompiler.Proofs.Profile.Recordings
import TraceCompiler.Proofs.Runner.Values
