import TraceCompiler.Placement.Location

/-! # Parallel moves

A list of moves is meant to happen at once: every destination gets the value its source held before.
-/

namespace TraceCompiler

structure Move where
  src : Location
  dst : Location
  kind : Kind
  deriving DecidableEq

inductive MoveError where
  | intoImmediate (dst : Location)
  | writtenTwice (dst : Location)
  | noScratch (kind : Kind)
  | scratchInUse (scratch : Location)
  deriving DecidableEq

def MoveError.message : MoveError → String
  | intoImmediate dst => "regalloc: move into immediate " ++ dst.text
  | writtenTwice dst => "regalloc: destination " ++ dst.text ++ " written twice"
  | noScratch kind => "regalloc: no scratch location for " ++ kind.text
  | scratchInUse scratch => "regalloc: scratch " ++ scratch.text ++ " is part of the move set"

instance : ToString MoveError := ⟨MoveError.message⟩

namespace Move

def text (m : Move) : String :=
  m.dst.text ++ " <- " ++ m.src.text ++ " (" ++ m.kind.text ++ ")"

def isMemToMem (m : Move) : Bool := m.src.isMemory && m.dst.isMemory

def checkDestinations (seen : List Location) : List Move → Except MoveError Unit
  | [] => .ok ()
  | m :: rest =>
    if m.dst.isImm then .error (.intoImmediate m.dst)
    else if m.dst ∈ seen then .error (.writtenTwice m.dst)
    else checkDestinations (m.dst :: seen) rest

/-- Go once through the pending moves, taking out every move whose destination no pending move
reads. -/
def takeReady (kept : List Move) : List Move → List Move × List Move
  | [] => ([], kept)
  | m :: rest =>
    if (kept ++ m :: rest).any fun o => o.src = m.dst then takeReady (kept ++ [m]) rest
    else
      let (ready, left) := takeReady kept rest
      (m :: ready, left)

def redirect (parked scratch : Location) (m : Move) : Move :=
  if m.src = parked then { m with src := scratch } else m

/-- Order moves between places. `dsts` are the destinations of the whole list. -/
def order (scratch : Kind → Location) (dsts : List Location) (pending : List Move) :
    Except MoveError (List Move) :=
  match pending with
  | [] => .ok []
  | m :: rest =>
    let (ready, left) := takeReady [] (m :: rest)
    if left.length < (m :: rest).length then (ready ++ ·) <$> order scratch dsts left
    else
      match (m :: rest).find? fun o => o.src = m.dst with
      | none => (m :: ·) <$> order scratch dsts rest
      | some reader =>
        let tmp := scratch reader.kind
        if tmp = .unset then .error (.noScratch reader.kind)
        else if tmp ∈ dsts ∨ (m :: rest).any (fun o => o.src = tmp) then
          .error (.scratchInUse tmp)
        else
          (fun out => ⟨m.dst, tmp, reader.kind⟩ :: m :: out) <$>
            order scratch dsts (rest.map (redirect m.dst tmp))
termination_by pending.length
decreasing_by all_goals simp only [List.length_cons, List.length_map, List.length_attach] at *; omega

/-- An order in which moves that are meant to happen at once can be done one by one. -/
def sequence (moves : List Move) (scratch : Kind → Location) : Except MoveError (List Move) := do
  checkDestinations [] moves
  let proper := moves.filter fun m => m.src ≠ m.dst
  let out ← order scratch (moves.map Move.dst) (proper.filter fun m => !m.src.isImm)
  return out ++ proper.filter fun m => m.src.isImm

end Move

end TraceCompiler
