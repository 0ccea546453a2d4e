import TraceCompiler.Proofs.Eval.Progress
import TraceCompiler.Proofs.Lowering.Simulation

/-! # Loops

A compiled loop, from its entry to its return, against runs of its trace (`compile_refines`): the
bootstrap brings the inputs to their places, the body follows the run, and the way out hands the
registers back.
-/

namespace TraceCompiler.Lowering

open Machine (Cpu Setting Falls Fragment Instr Section Reaches labelsOf seek seek_of_nodup)
open CompileM List Eval
open Machine.Fragment (pieces piecesAll)
open Machine.Reg (rax rdi rsp)

variable {ω : Type} {u : Setup ω} {r : Request} {t : Trace} {bs : List Box} {ops : List Op}
  {supply supply' : BoxSupply} {res : Result} {s s1 s0 fin : State} {locs : List Location}
  {env : Setting ω} {c : Cpu ω} {pos : Nat} {op : Op}

/-! ## The exits of a trace -/

theorem exits_getElem? (hos : t.ops = ops.map some) (hop : ops[pos]? = some op)
    (he : op.opcode.exitsTrace = true) : t.exits[exitCount (ops.take pos)]? = some (pos, op) := by
  have hg (k : Nat) : (((ops.map some).zipIdx k).filterMap fun p =>
      p.1.bind fun op => if op.opcode.exitsTrace then some (p.2, op) else none)[
        exitCount (ops.take pos)]? = some (k + pos, op) := by
    clear hos
    induction ops generalizing pos k with
    | nil => cases hop
    | cons o ops ih =>
      cases pos with
      | zero =>
        cases hop
        simp [exitCount, he]
      | succ pos =>
        have hr := ih hop (k + 1)
        rw [Nat.add_assoc, Nat.add_comm 1] at hr
        cases ho : o.opcode.exitsTrace with
        | false => simpa [exitCount, ho] using hr
        | true => simpa [exitCount, ho] using hr
  have := hg 0
  rwa [Nat.zero_add, ← hos] at this

/-! ## The program -/

/-- What stands behind the label of the way out. -/
def wayOut : List Fragment := piecesAll .cold .cold epilogue.tail

theorem layout_closed (s : State) : ∃ mid, s.closed.fragment.layout = s.code ++ (mid ++
    (piecesAll .cold .cold s.cold.toList ++ .label exitLabel :: wayOut)) := by
  refine ⟨piecesAll .main .cold s.closed.cold.toList ++ .instr .hlt ::
    piecesAll .cold .main (s.main.toList.map Item.fragment), ?_⟩
  have hc : s.closed.cold.toList = s.cold.toList ++ epilogue := by simp [State.closed]
  have he : piecesAll .cold .cold epilogue = .label exitLabel :: wayOut := rfl
  simp only [Fragment.layout, State.fragment, pieces, piecesAll, append_nil]
  rw [← he, ← Fragment.piecesAll_append, ← hc]
  simp [State.code, State.closed]

namespace Compiled

theorem laid (h : Compiled r t bs ops supply s0 fin res) : Laid fin fin.closed.fragment.layout wayOut := by
  have hla := Machine.Program.nodup_labels h.assembled.program
  obtain ⟨mid, hl⟩ := layout_closed fin
  refine ⟨hla, ⟨_, hl⟩, ⟨fin.code ++ mid, .label exitLabel :: wayOut, by simp [hl]⟩, ?_⟩
  refine seek_of_nodup hla (?_ : _ = (fin.code ++ (mid ++
    piecesAll .cold .cold fin.cold.toList)) ++ .label exitLabel :: wayOut)
  rw [hl]
  simp only [append_assoc]

theorem embedded (h : Compiled u.req t bs ops supply s0 fin res) (hs : supply.made = u.made)
    (hm : Made t supply) (hsh : u.shared = if u.req.entry.isBridge then bs else [])
    (hf : u.frame.Extends fin.frame) (hn : Numbered u.req t)
    (hd : res.frameDepth ≤ 0xFFFFFFB) (hea : ∀ op, some op ∈ t.ops → Exact op) : ∃ locs s1 start,
      Embedded u t bs ops supply locs s1 s0 fin start fin.closed.fragment.layout wayOut := by
  obtain ⟨locs, s1, he, ht⟩ := h.trail hs hm hsh
  obtain ⟨start, ho⟩ := framed he ht h hn
  exact ⟨locs, s1, start, h.laid, h.inputs, h.ops_eq, h.nodup, he, ht, hf,
    ⟨ho.ample, h.assembled.depth ▸ hd⟩, fun op hop => hea op (h.ops_eq ▸ mem_map_of_mem hop)⟩

end Compiled

def Holds (ws : List Word) (c : Cpu ω) : Prop :=
  ∀ (j : Nat) w, ws[j]? = some w → c.values (valueOffset j) = w

namespace Embedded

variable {prog out : List Fragment} {start : Frame}

theorem exists_bootstrap (h : Embedded u t bs ops supply locs s1 s0 fin start prog out)
    (hl : u.req.entry = .loop) :
    ∃ pre rest, prog = pre ++ piecesAll .cold .cold (bootstrap locs) ++ rest := by
  obtain ⟨pre, rest, hp⟩ := h.cold
  obtain ⟨items, hie⟩ := h.trail.grows.cold
  have hc : s0.cold.toList = bootstrap locs := by
    rw [h.entered.cold_eq, hl, Entry.isBridge, if_neg Bool.false_ne_true]
  refine ⟨pre, piecesAll .cold .cold items ++ rest, ?_⟩
  rw [hp, ← hie, hc, Fragment.piecesAll_append]
  simp only [append_assoc]

theorem reaches_body (h : Embedded u t bs ops supply locs s1 s0 fin start prog out)
    (hlo : u.req.entry = .loop) (hs : u.shared = []) (hen : Enters u.env c)
    (hst : u.stack = savedStack c) (ha : Holds args c) (hle : args.length = bs.length) :
    ∃ start rest c', seek entryLabel prog = some start ∧ prog = s0.code ++ rest ∧
      Reaches u.env prog (start, c) (rest, c') ∧ c'.world = c.world ∧
        Good u s0 c' fun b => (bindInputs t.inputs args).getD b 0 := by
  obtain ⟨pre, after, hp⟩ := h.exists_bootstrap hlo
  obtain ⟨body, hse, hbd⟩ := h.seek_body
  obtain ⟨c', hf, hba, hh, hsa, hwo, hpl⟩ := falls_bootstrap .cold hen
    (fun l hl => h.entered.writable h.extends_start hl)
    (h.entered.nodup h.extends_start h.nodup fun b _ => by simp [hs])
  have hsp (code : List Fragment) : piecesAll .cold .cold
      ([.label entryLabel] ++ code ++ [.jump bodyLabel]) =
        .label entryLabel :: (piecesAll .cold .cold code ++ [.jump bodyLabel]) := by
    rw [Fragment.piecesAll_append]
    rfl
  have hbo := hsp (calleeSaved.map (fun r => .instr (.push (.wide r))) ++
    [.instr (.aluImm .add (.wide rsp) (-8)), .instr (.mov framePointer (.wide rdi)), loadValues] ++
    locs.zipIdx.flatMap loadSlotInput ++ locs.zipIdx.flatMap loadRegInput)
  generalize hc : calleeSaved.map (fun r => Fragment.instr (.push (.wide r))) ++ _ ++ _ ++ _ = code
    at hf hbo
  have hsr : bootstrap locs = [.label entryLabel] ++ code ++ [.jump bodyLabel] := by
    rw [← hc, bootstrap]
    simp only [append_assoc]
  rw [hsr, hbo] at hp
  have he : prog = pre ++ .label entryLabel :: (piecesAll .cold .cold code ++
      .jump bodyLabel :: after) := by
    rw [hp]
    simp
  refine ⟨_, body, c', seek_of_nodup h.labels he, hbd, ?_, hwo, ?_⟩
  · have hr := hf prog (pre ++ [.label entryLabel]) (.jump bodyLabel :: after)
      (by rw [he]; simp) h.labels
    exact hr.trans (.single (.jump hse))
  · refine h.entered.good hba hh (hsa.trans hst.symm) fun j b l hb hl => ?_
    obtain ⟨hj, -⟩ := List.getElem_of_getElem? hb
    have hw : args[j]? = some args[j] := getElem?_eq_getElem (hle ▸ hj)
    rw [hpl j l hl, ha j _ hw, h.inputs, bindInputs_getD h.nodup hle hb hw]

end Embedded

/-! ## From the entry to the return -/

/-- What the caller of compiled code finds behind the return: the number of the exit, the values, and
its own registers and stack. -/
structure Returned (c0 : Cpu ω) (k : Int) (ws : List Word) (c : Cpu ω) : Prop where
  rax : c.gp rax = Word.ofInt k
  exit : c.frame HeaderWord.exit.offset = Word.ofInt k
  values : Holds ws c
  saved : ∀ r ∈ calleeSaved, c.gp r = c0.gp r
  stack : c.stack = c0.stack

/-- The number under which the caller sees an exit: `rax` has the low half of it, and the header of the
frame the low half with its sign. -/
def SeenAs (k j : Int) : Prop :=
  Word.ofInt k &&& 0xFFFFFFFF = Word.ofInt j ∧ Word.ofInt (wrap32 k) = Word.ofInt j

theorem seenAs_self (hk : 0 ≤ k ∧ k < 0x80000000) : SeenAs k k := by
  constructor
  · rw [← UInt64.toNat_inj, UInt64.toNat_and]
    have hn := Word.toNat_ofInt k
    rw [show (0xFFFFFFFF : Word).toNat = 2 ^ 32 - 1 from rfl, Nat.and_two_pow_sub_one_eq_mod]
    omega
  · rw [wrap32_of_fits (by simp [fitsInt32]; omega)]

theorem Left.returns (h : Left k ws (savedStack c0) c) (env : Setting ω)
    (hp : prog = pre ++ wayOut) (hnd : (labelsOf prog).Nodup) (hse : SeenAs k j) :
    ∃ c' rest, Reaches env prog (wayOut, c) (.instr .ret :: rest, c') ∧ Returned c0 j ws c' := by
  obtain ⟨gp, hf, hin, ho⟩ := falls_epilogue .cold h.stack
  have hs : wayOut = piecesAll .cold .cold
      ([.instr (.aluImm .add (.wide rsp) 8)] ++
        calleeSaved.reverse.map (fun r => .instr (.pop (.wide r)))) ++ [.instr .ret] := rfl
  have hr := hf prog pre [.instr .ret] (by rw [hp, hs, append_assoc]) hnd
  rw [← hs] at hr
  refine ⟨_, [], hr, ?_, h.exit.trans hse.2, h.values, hin, rfl⟩
  exact (ho _ (by decide)).trans (h.rax.trans hse.1)

/-- A compiled loop returns through the exit at which the run of its trace ends, under the number that
the caller sees. -/
theorem compile_returns (htr : r.trace = some t) (hva : t.validate = .ok ())
    (hl : r.entry = .loop) (hco : compile r supply = (.ok res, supply'))
    (hm : Made t supply) (him : Implements env r.hooks)
    (hea : ∀ op, some op ∈ t.ops → Exact op) (hs : 0 ≤ r.frameStart)
    (hde : r.frameStart + slotDemand t < 0x4000000000000000)
    (hd : res.frameDepth ≤ 0xFFFFFFB) (hv : res.maxValues ≤ 0x10000000) :
    ∃ code e, Machine.Program.ofFragment code = .ok res.program ∧ res.entry = some e ∧
      res.program.labels.get? entryLabel = some e ∧
      ∀ (c : Cpu ω) (args : List Word) (maxSteps : Int) (o : Outcome) (world : ω),
        Enters env c → Holds args c →
        run (Looped.linked r t) env.host maxSteps 0 args c.world = (.ok o, world) →
        ∃ (n : Nat) (op : Op), t.exits[n]? = some (o.pos, op) ∧ ∀ j, SeenAs (wrap64 (r.firstExit + n)) j →
            ∃ (start : List Fragment) (c' : Cpu ω) (rest : List Fragment),
              seek entryLabel code.layout = some start ∧
              Reaches env code.layout (start, c) (.instr .ret :: rest, c') ∧ Returned c j o.values c' := by
  obtain ⟨bs, ops, s0, fin, hc⟩ := compile_ok htr hva hco
  obtain ⟨e, hlb, het⟩ := hc.assembled.entry (by rw [hl]; rfl)
  refine ⟨fin.closed.fragment, e, hc.assembled.program, het, hlb,
    fun c args maxSteps o world hen ha hru => ?_⟩
  have hn : Numbered r t := ⟨hs, hde, by simp [hl]⟩
  have hf : fin.frame.Fine [] := by
    have := hc.fine hm hn hd (by simp [hl])
    rwa [hl] at this
  let u : Setup ω :=
    { env, req := r, implements := him, made := supply.made, shared := [], frame := fin.frame,
      fine := hf, stack := savedStack c }
  have hu : Compiled u.req t bs ops supply s0 fin res := hc
  obtain ⟨locs, s1, start, he⟩ := hu.embedded rfl hm (by simp [u, hl, Entry.isBridge])
    (fun _ _ h => h) hn hd hea
  obtain ⟨max, t', m', ht, hln, hgo⟩ := run_ok hru
  cases ht
  rw [hc.inputs, length_map] at hln
  obtain ⟨start, rest, c1, hse, hrs, hre, hw, hg⟩ := he.reaches_body hl rfl hen rfl ha hln
  rw [hc.ops_eq] at hgo
  obtain ⟨_, _, _, _, _, _, _, _, op, hab, hra, hop, hq⟩ := he.arrives max
    (he.abreast hg (he.inStep ⟨bindInputs t.inputs args, false, c.world⟩ hw.symm) hrs) hgo
  obtain ⟨hei, c2, hrc, hle⟩ := he.leaves (hc.assembled.values ▸ hv) hab hop hq
  refine ⟨_, op, exits_getElem? hc.ops_eq hop hei, fun j hsn => ?_⟩
  obtain ⟨mid, hla⟩ := layout_closed fin
  have ho : fin.closed.fragment.layout = (fin.code ++ (mid ++
      (piecesAll .cold .cold fin.cold.toList ++ [.label exitLabel]))) ++ wayOut := by
    rw [hla]
    simp
  obtain ⟨c3, rest', hrh, hr⟩ := hle.returns env ho he.labels hsn
  exact ⟨start, c3, rest', hse, ((hre.trans hra).trans hrc).trans hrh, hr⟩

/-- The numbers of a compiled loop fit into its code: slots and entries of the value array have
displacements of 32 bits, and exits have positive numbers of 32 bits. -/
structure Fits (r : Request) (t : Trace) (res : Result) : Prop where
  start : 0 ≤ r.frameStart
  demand : r.frameStart + slotDemand t < 0x4000000000000000
  depth : res.frameDepth ≤ 0xFFFFFFB
  values : res.maxValues ≤ 0x10000000
  firstExit : 0 ≤ r.firstExit
  exits : r.firstExit + t.exits.length ≤ 0x80000000

/-- **Compiled loops do what their traces do.** From the entry, with the inputs in the value array,
the code returns through the exit at which the run of the trace ends, and with its values. -/
theorem compile_refines (htrace : r.trace = some t) (hvalid : t.validate = .ok ())
    (hloop : r.entry = .loop) (hcompile : compile r supply = (.ok res, supply'))
    (hmade : Made t supply) (himpl : Implements env r.hooks)
    (hexact : ∀ op, some op ∈ t.ops → Exact op) (hfits : Fits r t res) :
    ∃ code e, Machine.Program.ofFragment code = .ok res.program ∧ res.entry = some e ∧
      res.program.labels.get? entryLabel = some e ∧
      ∀ (c : Cpu ω) (args : List Word) (maxSteps : Int) (o : Eval.Outcome) (world : ω),
        Enters env c → Holds args c →
        Eval.run (Looped.linked r t) env.host maxSteps 0 args c.world = (.ok o, world) →
        ∃ (n : Nat) (op : Op) (start : List Fragment) (c' : Cpu ω) (rest : List Fragment),
          t.exits[n]? = some (o.pos, op) ∧
          seek entryLabel code.layout = some start ∧
          Reaches env code.layout (start, c) (.instr .ret :: rest, c') ∧
            Returned c (r.firstExit + n) o.values c' := by
  obtain ⟨code, e, hcode, hentry, hlabel, hreturns⟩ := compile_returns htrace hvalid hloop hcompile hmade
    himpl hexact hfits.start hfits.demand hfits.depth hfits.values
  refine ⟨code, e, hcode, hentry, hlabel, fun c args maxSteps o world henters hargs hrun => ?_⟩
  obtain ⟨n, op, hnth, hseen⟩ := hreturns c args maxSteps o world henters hargs hrun
  obtain ⟨hn, -⟩ := List.getElem?_eq_some_iff.mp hnth
  have hk : 0 ≤ r.firstExit + n ∧ r.firstExit + n < 0x80000000 := by
    have := hfits.firstExit
    have := hfits.exits
    omega
  have hnumber : wrap64 (r.firstExit + n) = r.firstExit + n := wrap64_of_lt (by omega) (by omega)
  obtain ⟨start, c', rest, hseek, hreach, hreturned⟩ := hseen (r.firstExit + n) (by
    rw [hnumber]
    exact seenAs_self hk)
  exact ⟨n, op, start, c', rest, hnth, hseek, hreach, hreturned⟩

theorem Exact.of_no_descr (hd : op.descr = none) (ha : op.opcode ≠ .floatAdd)
    (hm : op.opcode ≠ .floatMul) : Exact op where
  sum h := absurd h (not_or.mpr ⟨ha, hm⟩)
  field s hs := by
    rw [hd] at hs
    cases hs
  array s hs := by
    rw [hd] at hs
    cases hs

def cpuWith (w : Word) : Cpu Unit where
  gp _ := 0
  xmm _ := 0
  flags := default
  frame _ := 0
  values _ := w
  stack := []
  world := ()

/-- A loop that counts down to zero. -/
def countdown : Trace :=
  let n : Box := ⟨1, .int⟩
  let more : Box := ⟨2, .int⟩
  let less : Box := ⟨3, .int⟩
  ⟨"countdown", [some n], [
    some ⟨.intGt, [some (.box n), some (.const ⟨.int, 0⟩)], some more, none, []⟩,
    some ⟨.guardTrue, [some (.box more)], none, none, [some (.box n)]⟩,
    some ⟨.intSub, [some (.box n), some (.const ⟨.int, 1⟩)], some less, none, []⟩,
    some ⟨.jump, [some (.box less)], none, none, []⟩]⟩

def countdownRequest : Request := { trace := some countdown, firstExit := 7 }

theorem compile_countdown : ∃ res supply', compile countdownRequest ⟨3⟩ = (.ok res, supply') ∧
    Fits countdownRequest countdown res := by
  obtain ⟨res, supply', hc, hr⟩ := exists_ok_of_map (x := compile countdownRequest ⟨3⟩)
    (f := fun res => (res.frameDepth, res.maxValues)) (v := (1, 1)) (by decide +kernel)
  obtain ⟨hd, hv⟩ := Prod.mk.inj hr
  exact ⟨res, supply', hc, by decide, by decide, by rw [hd]; decide, by rw [hv]; decide,
    by decide, by decide⟩

theorem run_countdown : run (Looped.linked countdownRequest countdown)
    (Setup.idle countdownRequest 3 []).env.host 100 0 [1] () =
      (.ok ⟨0, 1, .guardTrue, [0], [.int], 6⟩, ()) := by
  have hgo : ∃ m, go (Looped.linked countdownRequest countdown)
      (Setup.idle countdownRequest 3 []).env.host 100 100
      ⟨0, countdown, 0, countdown.ops, 0, false⟩ ⟨bindInputs countdown.inputs [1], false, ()⟩ =
        (.ok ⟨0, 1, .guardTrue, [0], [.int], 6⟩, m) := by
    -- once around, and out at the guard
    rw [go_next rfl rfl, go_next rfl (control_holds rfl (run_guardTrue rfl rfl ?_)),
      go_next rfl rfl, go_transfer rfl rfl rfl, go_next rfl rfl,
      go_leave rfl (control_fails rfl (run_guardTrue rfl rfl ?_) rfl rfl)]
    all_goals simp [countdown, bindInputs, Machine.word, Machine.argWord, Std.HashMap.getD_insert]
    all_goals decide
  obtain ⟨m, hm⟩ := hgo
  have he : enter (Looped.linked countdownRequest countdown) 0 0 false [1]
      (⟨∅, false, ()⟩ : Machine Unit) = (.ok ⟨0, countdown, 0, countdown.ops, 0, false⟩,
        ⟨bindInputs countdown.inputs [1], false, ()⟩) := rfl
  unfold run
  rw [he]
  dsimp only
  rw [if_neg (by decide), show Int.toNat 100 = 100 from rfl, hm]

theorem compile_refines_countdown : ∃ res supply' code start c' rest,
    compile countdownRequest ⟨3⟩ = (.ok res, supply') ∧
    Machine.Program.ofFragment code = .ok res.program ∧
    seek entryLabel code.layout = some start ∧
    Reaches (Setup.idle countdownRequest 3 []).env code.layout (start, cpuWith 1)
      (.instr .ret :: rest, c') ∧
    Returned (cpuWith 1) 7 [0] c' := by
  obtain ⟨res, supply', hcompile, hfits⟩ := compile_countdown
  have hmade : Made countdown ⟨3⟩ := ⟨by simp [countdown], by simp [countdown]⟩
  have hplain : ∀ o ∈ countdown.ops, ∀ op ∈ o, op.descr = none ∧ op.opcode ≠ .floatAdd ∧
      op.opcode ≠ .floatMul := by decide
  have hexact : ∀ op, some op ∈ countdown.ops → Exact op := fun op hop =>
    have ⟨hd, hadd, hmul⟩ := hplain _ hop op rfl
    .of_no_descr hd hadd hmul
  obtain ⟨code, e, hcode, -, -, hruns⟩ := compile_refines rfl (by decide : countdown.validate = .ok ()) rfl
    hcompile hmade (Setup.idle countdownRequest 3 []).implements hexact hfits
  have hargs : Holds [1] (cpuWith 1) := by
    intro j w hw
    rw [List.eq_of_mem_singleton (List.mem_of_getElem? hw)]
    rfl
  obtain ⟨n, op, start, c', rest, hn, hseek, hreach, hreturned⟩ :=
    hruns (cpuWith 1) [1] 100 _ () ⟨rfl, rfl⟩ hargs run_countdown
  obtain rfl : n = 0 := Nat.lt_one_iff.mp (List.getElem?_eq_some_iff.mp hn).1
  exact ⟨res, supply', code, start, c', rest, hcompile, hcode, hseek, hreach, hreturned⟩

def nothing : Trace := ⟨"nothing", [], [some ⟨.finish, [], none, none, []⟩]⟩

def nothingRequest : Request := { trace := some nothing, firstExit := 0x100000000 }

/-- An exit number that has more than 32 bits is lost: the code leaves through exit zero. -/
theorem compile_wraps_exit : ∃ res supply' code start c' rest,
    compile nothingRequest {} = (.ok res, supply') ∧ res.exits.map (·.index) = [0x100000000] ∧
    Eval.run (Looped.linked nothingRequest nothing) (Setup.idle nothingRequest 0 []).env.host 100 0 [] () =
      (.ok ⟨0, 0, .finish, [], [], 1⟩, ()) ∧
    Machine.Program.ofFragment code = .ok res.program ∧
    seek entryLabel code.layout = some start ∧
    Reaches (Setup.idle nothingRequest 0 []).env code.layout (start, cpuWith 0)
      (.instr .ret :: rest, c') ∧
    Returned (cpuWith 0) 0 [] c' := by
  obtain ⟨res, supply', hcompile, hres⟩ := exists_ok_of_map (x := compile nothingRequest {})
    (f := fun res => (res.frameDepth, res.maxValues, res.exits.map (·.index)))
    (v := (0, 0, [0x100000000])) (by decide +kernel)
  obtain ⟨hdepth, hres⟩ := Prod.mk.inj hres
  obtain ⟨hvalues, hindex⟩ := Prod.mk.inj hres
  have hexact : ∀ op, some op ∈ nothing.ops → Exact op := by
    rintro op (_ | ⟨_, ⟨⟩⟩)
    exact .of_no_descr rfl nofun nofun
  obtain ⟨code, e, hcode, -, -, hruns⟩ := compile_returns (t := nothing) rfl (by decide) rfl hcompile
    ⟨by simp [nothing], by simp [nothing]⟩ (Setup.idle nothingRequest 0 []).implements hexact (by decide)
    (by decide) (by rw [hdepth]; decide) (by rw [hvalues]; decide)
  have hrun : Eval.run (Looped.linked nothingRequest nothing) (Setup.idle nothingRequest 0 []).env.host 100 0 []
      () = (.ok ⟨0, 0, .finish, [], [], 1⟩, ()) := rfl
  obtain ⟨n, op, hn, hseen⟩ := hruns (cpuWith 0) [] 100 _ () ⟨rfl, rfl⟩ nofun hrun
  obtain rfl : n = 0 := Nat.lt_one_iff.mp (List.getElem?_eq_some_iff.mp hn).1
  obtain ⟨start, c', rest, hseek, hreach, hreturned⟩ := hseen 0 ⟨by decide, by decide⟩
  exact ⟨res, supply', code, start, c', rest, hcompile, hindex, hrun, hcode, hseek, hreach, hreturned⟩

def fieldLoop (offset : Int) : Trace :=
  ⟨"far", [some ⟨1, .ref⟩], [some ⟨.getfieldI, [some (.box ⟨1, .ref⟩)], some ⟨2, .int⟩,
    some (.interned ⟨.field ⟨offset, 8, .int, false⟩, "d", 0⟩), []⟩,
    some ⟨.finish, [some (.box ⟨2, .int⟩)], none, none, []⟩]⟩

def fieldCode (offset : Int) : Option (List UInt8) :=
  (compile { trace := some (fieldLoop offset) } ⟨2⟩).1.toOption.map (·.program.code.toList)

/-- A field offset that has more than 32 bits is lost: the code is that of offset zero, where the
interpreter reads elsewhere. -/
theorem compile_wraps_offset : (fieldLoop 0x100000000).validate = .ok () ∧
    (fieldCode 0x100000000).isSome ∧ fieldCode 0x100000000 = fieldCode 0 ∧
    Word.ofInt 0x100000000 ≠ Word.ofInt 0 ∧
    ∀ (h : Host Unit) (m : Eval.Machine Unit) (offset : Int),
      ∀ op ∈ (fieldLoop offset).ops.head?.join, (Eval.runOp h op).run m =
        (Eval.load h (m.word (some (.box ⟨1, .ref⟩)) + Word.ofInt offset) 8 false).run m := by
  refine ⟨by decide +kernel, by decide +kernel, by decide +kernel, by decide, ?_⟩
  intro h m offset op hop
  cases hop
  rfl

def difference : Trace :=
  ⟨"difference", [some ⟨1, .float⟩], [some ⟨.floatSub, [some (.box ⟨1, .float⟩), some (.const ⟨.float, 1⟩)],
    some ⟨2, .float⟩, none, []⟩, some ⟨.finish, [some (.box ⟨1, .float⟩), some (.box ⟨2, .float⟩)], none, none, []⟩]⟩

/-- Two float registers do not serve a constant, the result and an operand that outlives it. -/
theorem compile_lacks_float : difference.validate = .ok () ∧
    (compile { trace := some difference, limits.maxFloats := 2 } ⟨2⟩).1.toOption.isNone ∧
    (compile { trace := some difference, limits.maxFloats := 3 } ⟨2⟩).1.toOption.isSome := by
  decide +kernel

end TraceCompiler.Lowering
