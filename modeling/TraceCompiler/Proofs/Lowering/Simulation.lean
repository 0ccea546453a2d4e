import TraceCompiler.Proofs.Lowering.Compiled

/-! # Compiled code and runs

One lemma for each way in which an operation of a run succeeds: the code of an operation that stays on
the trace (`Does.inStep`), a guard that holds (`Guarded.step`), a guard that fails
(`Guarded.reaches_patch`), a finish and a jump back.
-/

namespace TraceCompiler.Lowering

open Machine (Cpu Setting Falls Fragment Quiet Instr Mem Section Reaches labelsOf seek seek_of_nodup)
open CompileM List Eval
open Machine.Fragment (pieces piecesAll)

variable {ω : Type} {u : Setup ω} {ks : List Box} {pos n : Nat} {s s' s1 fin s2 s3 : State}
  {c c' : Cpu ω} {v v' : Box → Word} {op : Op} {ops : List Op} {next : Option Op}
  {m m' : Eval.Machine ω} {w : Word} {l : Lifetimes} {prev : Option Op} {f start : Frame}
  {br : Branch} {kinds : List Kind} {vals : List Value} {fails : List (Slot × List Fragment)}
  {prog pre rest out after : List Fragment}

/-! ## Operations that stay on the trace -/

theorem getD_record (m : Machine ω) (r : Option Box) (w : Word) (b : Box) :
    (m.record r w).values.getD b 0 = if r = some b then w else m.values.getD b 0 := by
  cases r with
  | none => simp [Machine.record]
  | some b' =>
    rw [Machine.record, Std.HashMap.getD_insert]
    simp [beq_iff_eq]

theorem Does.inStep (hd : Does u pos op s1 v w m' c' v') (hl : Lowered u ks pos op next s s1)
    (hsilent : Silent u (op.result.toList ++ ks) pos s1 s') (hm : ∀ b ∈ op.result, b.id ≤ u.made)
    (ha : Agrees u m v) (hra : Ran u.env.host op m w m') :
    InStep u (pos + 1) s' c' v' (m'.record op.result w) := by
  refine ⟨fun b hb => ?_, ?_, fun hfl => ?_, fun f hf b hb => ?_⟩
  · rw [getD_record, hd.values b hb, hra.values_eq, ha b hb]
  · rw [hd.world]
    cases op.result <;> rfl
  · rw [hsilent.plain.flagsFrom] at hfl
    rw [hd.overflow (by push_cast at hfl; omega)]
    cases op.result <;> rfl
  · rw [hsilent.plain.fused] at hf
    have hr : op.result = some b := (hl.fused f hf).result.symm.trans hb
    rw [hd.fused f hf, hd.values b (hm b hr), if_pos hr]

theorem InStep.silent (hin : InStep u pos s c v m) (hsilent : Silent u ks pos' s s') :
    InStep u pos s' c v m := { hin with
    overflow := hsilent.plain.flagsFrom ▸ hin.overflow
    fused := hsilent.plain.fused ▸ hin.fused }

/-! ## Guards -/

theorem Good.unfused (h : Good u s c v) : Good u { s with fused := none } c v :=
  { h with
    holds
      | .gp => h.holds .gp
      | .float => h.holds .float }

namespace Guarded

variable (hg : Guarded u ks pos op s br s1 kinds vals fails f s')
include hg

theorem checks (he : u.frame.Extends s1.frame) (hgo : Good u s c v)
    (hin : InStep u pos s c v m) (hh : Held u.env.host op m holds) :
    ∃ c' v', Run u.env s s1 c c' ∧ Good u s1 c' v' ∧ br.fails c'.flags = !holds ∧
      c'.world = c.world ∧ ∀ b, b.id ≤ u.made → v' b = v b := by
  obtain ⟨c', v', hr, hgo', hbr, hw, hs⟩ := hg.check.sim he c v hgo.unfused ⟨m, holds, hin, hh⟩
  exact ⟨c', v', hr, hgo', hbr m holds hin hh, hw, hs⟩

theorem code_eq : s'.code = s1.code ++ br.code (stubLabel (s.nextExit u.req)) := by
  have hc : piecesAll .main .main (br.code (stubLabel (s.nextExit u.req))) =
      br.code (stubLabel (s.nextExit u.req)) := by
    cases br <;> simp [Branch.code, piecesAll, pieces]
  have he := code_emitted s1 (br.code (stubLabel (s.nextExit u.req)))
  rw [hc] at he
  rw [hg.eq]
  exact he

theorem good (hgo : Good u s1 c v) : Good u s' c v := by
  obtain ⟨hist, hh, _⟩ := hg.recovered.history
  have h := hgo.with_frame hh.keeps
  refine { h with holds := fun cls => ?_ }
  rw [hg.alloc_eq]
  exact h.holds cls

theorem step (hfl : s.flagsFrom < pos) (he : u.frame.Extends s1.frame) (hgo : Good u s c v)
    (hin : InStep u pos s c v m) (hh : Held u.env.host op m true) :
    ∃ c' v', Run u.env s s' c c' ∧ Good u s' c' v' ∧ InStep u (pos + 1) s' c' v' m := by
  obtain ⟨c', v', hr, hgo', hbr, hw, hs⟩ := hg.checks he hgo hin hh
  have hp : Run u.env s1 s' c' c' := by
    refine ⟨_, hg.code_eq, ?_⟩
    cases br with
    | never => exact .nil
    | always => cases hbr
    | when cond => exact fun _ _ _ _ _ => .single (.passed hbr)
  refine ⟨c', v', hr.trans hp, hg.good hgo', fun b hb => ?_, ?_, fun h => ?_, fun f hf => ?_⟩
  · rw [hin.agrees b hb, hs b hb]
  · rw [hin.world, hw]
  · rw [hg.flagsFrom_eq] at h
    push_cast at h
    omega
  · rw [hg.fused_eq] at hf
    cases hf

end Guarded

def siteCode (k : Int) (hook : Word) (fails : List (Slot × List Fragment)) (after : List Fragment) :
    List Fragment :=
  .jumpSite (failLabel k) (siteLabel k) :: .label (failLabel k) ::
    (piecesAll .cold .cold (reportCode k hook (fails.map Prod.fst)) ++ after)

theorem Guarded.reaches_patch (hg : Guarded u ks pos op s br s1 kinds vals fails f s')
    (his : ∀ b, some (.box b) ∈ op.failArgs → b.id ≤ u.made) (he : u.frame.Extends f)
    (hr : Roomy s1.frame f vals.length) (hg0 : Good u s c v) (hin : InStep u pos s c v m)
    (hh : Held u.env.host op m false) (hnd : (labelsOf prog).Nodup)
    (hm : prog = s'.code ++ rest) (hco : prog = pre ++ piecesAll .cold .cold
      (stubCode (s.nextExit u.req) u.req.hooks.failure fails) ++ after) :
    ∃ code, s'.code = s.code ++ code ∧ ∃ c' v', Reaches u.env prog (code ++ rest, c)
        (siteCode (s.nextExit u.req) u.req.hooks.failure fails after, c') ∧ Good u s1 c' v' ∧
      (fails.map Prod.fst).map (fun slot => c'.frame slot.offset) = op.failArgs.map m.word := by
  obtain ⟨hist, hhi, -⟩ := hg.recovered.history
  obtain ⟨c1, v1, ⟨code, hc, hf⟩, hgo, hbr, -, hsa⟩ := hg.checks (he.trans hhi.keeps) hg0 hin hh
  let k := s.nextExit u.req
  refine ⟨code ++ br.code (stubLabel k), by rw [hg.code_eq, hc, append_assoc], ?_⟩
  have hch := hf prog s.code (br.code (stubLabel k) ++ rest) (by
    rw [hm, hg.code_eq, hc]
    simp only [append_assoc, k]) hnd
  obtain ⟨c2, hsi, hq, hgd, hs⟩ := hg.reaches_site hgo he hr hbr hnd rest hco
  refine ⟨c2, v1, ?_, hgd, ?_⟩
  · rw [append_assoc]
    exact hch.trans hsi
  · rw [hg.failArgs, map_map, map_map]
    refine ext_getElem (by simp [hg.recovered.length_eq]) fun j hj hj' => ?_
    rw [getElem_map, getElem_map]
    have hjf : j < fails.length := by simpa using hj
    have hjv : j < vals.length := by simpa using hj'
    have hsl := hs (vals[j], fails[j]) (by
      refine mem_of_getElem? (i := j) (getElem?_zip_eq_some.mpr ⟨?_, ?_⟩)
      · exact getElem?_eq_getElem hjv
      · exact getElem?_eq_getElem hjf)
    have hid (b : Box) (hb : vals[j] = .box b) : b.id ≤ u.made := by
      refine his b ?_
      rw [hg.failArgs, ← hb]
      exact mem_map_of_mem (getElem_mem hjv)
    refine hsl.trans ?_
    rw [Function.comp_apply, hin.agrees.word hid]
    exact word_congr fun b hb => hsa b (hid b hb)

theorem reaches_out (hgo : Good u s c v) (hln : fails.length ≤ 0x10000000)
    (hnd : (labelsOf prog).Nodup) (ho : seek exitLabel prog = some out)
    (hc : prog = pre ++ piecesAll .cold .cold (stubCode k u.req.hooks.failure fails) ++ after) :
    ∃ c', Reaches u.env prog (siteCode k u.req.hooks.failure fails after, c) (out, c') ∧
      Left k ((fails.map Prod.fst).map fun slot => c.frame slot.offset) u.stack c' := by
  have hf : prog = (pre ++ .label (stubLabel k) :: (piecesAll .cold .cold (fails.flatMap Prod.snd) ++
        [.jumpSite (failLabel k) (siteLabel k)])) ++ .label (failLabel k) ::
      (piecesAll .cold .cold (reportCode k u.req.hooks.failure (fails.map Prod.fst)) ++ after) := by
    rw [hc, pieces_stubCode]
    simp
  have hr : prog = (pre ++ .label (stubLabel k) :: (piecesAll .cold .cold (fails.flatMap Prod.snd) ++
        [.jumpSite (failLabel k) (siteLabel k), .label (failLabel k)])) ++
      piecesAll .cold .cold (reportCode k u.req.hooks.failure (fails.map Prod.fst)) ++ after := by
    rw [hf]
    simp
  obtain ⟨c', hl, hle⟩ := reaches_report u.implements.failure hr hnd ho hgo.base
    hgo.header (by rwa [length_map])
  have hj : Reaches u.env prog (siteCode k u.req.hooks.failure fails after, c)
      (piecesAll .cold .cold (reportCode k u.req.hooks.failure (fails.map Prod.fst)) ++
        after, c) := .single (.site (seek_of_nodup hnd hf))
  exact ⟨c', hj.trans hl, hgo.stack ▸ hle⟩

/-! ## Room -/

/-- There is room for the slots of the operations `ops` and of those before, and displacements are not
wrapped. -/
structure Room (start : Frame) (fin : State) (ks : List Box) (n : Nat) (ops : List Op) (f : Frame) :
    Prop extends Ample start ks n ops f where
  limit : fin.frame.next ≤ 0xFFFFFFB

namespace Room

section

variable (h : Room start fin ks n (op :: ops) s.frame)
include h

theorem lowered (hl : Lowered u ks pos op next s s1)
    (hsilent : Silent u (op.result.toList ++ ks) pos s1 s') :
    Room start fin (op.result.toList ++ ks) n ops s'.frame := ⟨h.toAmple.lowered hl hsilent, h.limit⟩

theorem guarded (hg : Guarded u ks pos op s br s1 kinds vals fails f s')
    (hfails : ∀ b, some (.box b) ∈ op.failArgs → b ∈ ks) :
    Room start fin (op.result.toList ++ ks) (n + op.failArgs.length) ops f :=
  ⟨h.toAmple.guarded hg hfails, h.limit⟩

theorem roomy (hg : Guarded u ks pos op s br s1 kinds vals fails f s')
    (hl : f.next ≤ 0xFFFFFFB) : Roomy s1.frame f vals.length := by
  obtain ⟨hlo, hhi, hlw⟩ := h.checked hg
  have := h.nonneg
  exact ⟨by omega, by omega, hlw, hl⟩

end

end Room

/-! ## Positions -/

def exitCount (ops : List Op) : Nat := ops.countP (·.opcode.exitsTrace)

def exitNumber (req : Request) (ops : List Op) (pos : Nat) : Int :=
  wrap64 (req.firstExit + exitCount (ops.take pos))

theorem exitCount_take_succ (hop : ops[pos]? = some op) : exitCount (ops.take (pos + 1)) =
      exitCount (ops.take pos) + if op.opcode.exitsTrace = true then 1 else 0 := by
  rw [take_add_one, hop, exitCount, countP_append]
  simp [exitCount, countP_cons]

theorem drop_cons {rest : List Op} (h : op :: rest = ops.drop pos) :
    ops[pos]? = some op ∧ rest = ops.drop (pos + 1) := by
  constructor
  · have := congrArg (·[0]?) h
    simpa using this.symm
  · rw [← drop_drop, ← h]
    rfl

theorem rest_eq_append (hc : s'.code = s.code ++ code) (hr : prog = s.code ++ rest)
    (hr' : prog = s'.code ++ rest') : rest = code ++ rest' := by
  have heq : s.code ++ rest = s.code ++ (code ++ rest') := by
    rw [← hr, hr', hc, append_assoc]
  exact append_cancel_left heq

theorem nextExit_eq (hs : s.exits.size = exitCount (ops.take pos)) :
    s.nextExit u.req = exitNumber u.req ops pos := by
  rw [State.nextExit, exitNumber, hs]

/-! ## Traces in programs -/

/-- The code that there is in the state `fin` is part of the program `prog`. -/
structure Laid (fin : State) (prog out : List Fragment) : Prop where
  labels : (labelsOf prog).Nodup
  main : ∃ rest, prog = fin.code ++ rest
  cold : ∃ pre rest, prog = pre ++ piecesAll .cold .cold fin.cold.toList ++ rest
  out : seek exitLabel prog = some out

section

variable (h : Laid fin prog out)
include h

theorem Laid.exists_rest (hgr : Grows s fin) : ∃ rest, prog = s.code ++ rest := by
  obtain ⟨rest, hr⟩ := h.main
  obtain ⟨code, hc⟩ := hgr.exists_code
  exact ⟨code ++ rest, by rw [hr, hc, append_assoc]⟩

theorem Laid.exists_stub (hg : Guarded u ks pos op s br s2 kinds vals fails f s3)
    (hgr : Grows s3 fin) : ∃ pre after, prog = pre ++ piecesAll .cold .cold
      (stubCode (s.nextExit u.req) u.req.hooks.failure fails) ++ after := by
  obtain ⟨pre, after, hp⟩ := h.cold
  obtain ⟨items, hie⟩ := hgr.cold
  have hc : fin.cold.toList = s2.cold.toList ++
      stubCode (s.nextExit u.req) u.req.hooks.failure fails ++ items := by
    rw [← hie, hg.eq]
    simp
  refine ⟨pre ++ piecesAll .cold .cold s2.cold.toList, piecesAll .cold .cold items ++ after, ?_⟩
  rw [hp, hc, Fragment.piecesAll_append, Fragment.piecesAll_append]
  simp only [append_assoc]

end

/-- A trace was compiled, and its code is part of the program `prog`. -/
structure Embedded (u : Setup ω) (t : Trace) (bs : List Box) (ops : List Op) (supply : BoxSupply)
    (locs : List Location) (s1 s0 fin : State) (start : Frame) (prog out : List Fragment) : Prop
    extends Laid fin prog out where
  inputs : t.inputs = bs.map some
  ops_eq : t.ops = ops.map some
  nodup : bs.Nodup
  entered : Entered u bs ops supply locs s1 s0
  trail : Trail u fin ((bs.map some).foldl Lifetimes.addInput {}) bs.reverse 0 ops s0
  frame : u.frame.Extends fin.frame
  room : Room start fin bs.reverse 0 ops s0.frame
  exact : ∀ op ∈ ops, Exact op

def Looped.linked (req : Request) (t : Trace) : Linked where
  traces := [t]
  targets := req.self.toList.map (·, 0)

open Looped (linked)

namespace Embedded

variable {t : Trace} {bs : List Box} {supply : BoxSupply} {locs : List Location} {s0 : State}

section

variable (h : Embedded u t bs ops supply locs s1 s0 fin start prog out)
include h

theorem seek_body : ∃ rest, seek bodyLabel prog = some rest ∧ prog = s0.code ++ rest := by
  obtain ⟨rest, hr⟩ := h.exists_rest h.trail.grows
  have hp : prog = [] ++ .label bodyLabel :: rest := by
    rw [hr, h.entered.code_eq]
    rfl
  exact ⟨rest, seek_of_nodup h.labels hp, hr⟩

theorem extends_start : u.frame.Extends s0.frame := h.frame.trans h.trail.grows.frame

theorem body_inputs : s0.inputs = locs := h.entered.silent.plain.inputs

theorem inStep (m : Machine ω) (hw : m.world = c.world) :
    InStep u 0 s0 c (fun b => m.values.getD b 0) m := by
  have hfl : s0.flagsFrom = -2 :=
    h.entered.silent.plain.flagsFrom.trans h.entered.placed.settles.flagsFrom
  have hfu : s0.fused = none := h.entered.silent.plain.fused.trans h.entered.placed.settles.fused
  refine ⟨fun _ _ => rfl, hw, fun hf => ?_, fun f hf => ?_⟩
  · rw [hfl] at hf
    cases hf
  · rw [hfu] at hf
    cases hf

theorem jump_back (hj : Jumped u op s vals ls locs none moves fin) (hok : Ok u ks s)
    (hid : ∀ b, some (.box b) ∈ op.args → b.id ≤ u.made) (hgo : Good u s c v)
    (hin : InStep u pos s c v m) (hr : prog = s.code ++ rest) :
    ∃ rest' c' v', prog = s0.code ++ rest' ∧ Reaches u.env prog (rest, c) (rest', c') ∧
      Good u s0 c' v' ∧ InStep u 0 s0 c' v'
        { m with values := bindInputs t.inputs (op.args.map m.word) } := by
  have he : u.frame.Extends s.frame := by
    have hframe : fin.frame = s.frame := by
      rw [hj.eq]
      rfl
    exact hframe ▸ h.frame
  have hlo (l : Location) (hl : l ∈ locs) := h.entered.writable h.extends_start hl
  obtain ⟨c', hf, hq, hm⟩ := hj.falls hok he hgo
    fun l hl => ⟨(hlo l hl).1, (hlo l hl).2.1⟩
  obtain ⟨tail, ht⟩ := h.main
  have hc : fin.code = s.code ++ piecesAll .main .main (moves.map moveCode) ++ [.jump bodyLabel] := by
    rw [hj.eq, code_emitted, code_moved]
    simp [jumpTail, piecesAll, pieces]
  have hs : rest = piecesAll .main .main (moves.map moveCode) ++ .jump bodyLabel :: tail := by
    have heq : s.code ++ rest = s.code ++ (piecesAll .main .main (moves.map moveCode) ++
        .jump bodyLabel :: tail) := by
      rw [← hr, ht, hc]
      simp
    exact append_cancel_left heq
  obtain ⟨body, hse, hbo⟩ := h.seek_body
  have hru := hf prog s.code (.jump bodyLabel :: tail) (by rw [hr, hs, append_assoc])
    h.labels
  have hle : (op.args.map m.word).length = bs.length := by
    rw [length_map, hj.args, length_map, ← hj.length_eq, h.entered.length_eq]
  refine ⟨body, c', fun b => (bindInputs t.inputs (op.args.map m.word)).getD b 0, hbo, ?_, ?_, ?_⟩
  · rw [hs]
    exact hru.trans (.single (.jump hse))
  · refine h.entered.good (hq.base.trans hgo.base) ((hq.header .values).trans hgo.header)
      (hq.stack.trans hgo.stack) fun j b l hb hl => ?_
    obtain ⟨hjl, -⟩ := List.getElem_of_getElem? hl
    have hjv : j < vals.length := hj.length_eq ▸ hjl
    have hx := getElem?_eq_getElem hjv
    have hw : (op.args.map m.word)[j]? = some (m.word (some vals[j])) := by
      rw [hj.args, map_map, getElem?_map, hx]
      rfl
    rw [hm j _ l hx hl, h.inputs, bindInputs_getD h.nodup hle hb hw]
    refine (hin.agrees.word fun b' hb' => hid b' ?_).symm
    rw [hj.args, ← hb']
    exact mem_map_of_mem (getElem_mem hjv)
  · exact h.inStep { m with values := bindInputs t.inputs (op.args.map m.word) }
      (hin.world.trans hq.world.symm)

end

theorem follow_own (hp : p.loop = 0) (hb : p.inBridge = false) (hde : op.descr = none ∧ dest = none ∨
      ∃ d i, op.descr = some d ∧ (linked u.req t).target? d = some i ∧ dest = some (i, false))
    (hf : follow (linked u.req t) p dest args m = (.ok p', m')) :
    (op.descr = none ∨ op.descr = u.req.self) ∧
      p' = { id := 0, trace := t, rest := t.ops, loop := 0, inBridge := false } ∧
      m' = { m with values := bindInputs t.inputs args } := by
  have he : (op.descr = none ∨ op.descr = u.req.self) ∧
      enter (linked u.req t) 0 0 false args m = (.ok p', m') := by
    rcases hde with ⟨hn, rfl⟩ | ⟨d, i, hd, hta, rfl⟩
    · rw [follow, hb, if_neg Bool.false_ne_true, hp] at hf
      exact ⟨.inl hn, hf⟩
    · have hl : (u.req.self.toList.map (·, 0)).lookup d = some i := hta
      cases hs : u.req.self with
      | none =>
        rw [hs] at hl
        cases hl
      | some d' =>
        rw [hs, Option.toList_some, map_cons, map_nil, lookup_cons] at hl
        cases heq : d == d' with
        | false =>
          rw [heq] at hl
          cases hl
        | true =>
          rw [heq] at hl
          cases hl
          exact ⟨.inr (by rw [hd, eq_of_beq heq]), hf⟩
  obtain ⟨hs, he⟩ := he
  obtain ⟨_, ht, -, rfl, rfl⟩ := enter_ok he
  cases ht
  exact ⟨hs, rfl, rfl⟩

end Embedded

/-! ## Whole runs -/

/-- The code has come to a position of the trace, in step with a run of it. -/
structure Abreast (u : Setup ω) (fin : State) (start : Frame) (ops : List Op) (locs : List Location)
    (prog : List Fragment) (pos : Nat) (ks : List Box) (l : Lifetimes) (n : Nat) (s : State)
    (v : Box → Word) (m : Machine ω) (rest : List Fragment) (c : Cpu ω) : Prop where
  trail : Trail u fin l ks pos (ops.drop pos) s
  exits : s.exits.size = exitCount (ops.take pos)
  inputs : s.inputs = locs
  room : Room start fin ks n (ops.drop pos) s.frame
  good : Good u s c v
  inStep : InStep u pos s c v m
  code : prog = s.code ++ rest

/-- How a run ends at an operation: a guard fails or the trace finishes. -/
inductive Quits (host : Host ω) (op : Op) (m : Machine ω) (values : List Word) : Prop
  | guard (h : op.opcode.isGuard = true) (held : Held host op m false)
      (eq : values = op.failArgs.map m.word)
  | finish (h : op.opcode = .finish) (eq : values = op.args.map m.word)

namespace Embedded

variable {t : Trace} {bs : List Box} {supply : BoxSupply} {locs : List Location} {s0 : State}
  (h : Embedded u t bs ops supply locs s1 s0 fin start prog out)
include h

theorem abreast (hgo : Good u s0 c v) (hin : InStep u 0 s0 c v m) (hc : prog = s0.code ++ rest) :
    Abreast u fin start ops locs prog 0 bs.reverse ((bs.map some).foldl Lifetimes.addInput {}) 0 s0 v m
      rest c := by
  have hs : s0.exits.size = 0 := by
    rw [h.entered.silent.plain.exits]
    exact congrArg Array.size h.entered.placed.settles.exits
  exact ⟨h.trail, hs, h.body_inputs, h.room, hgo, hin, hc⟩

theorem stays (hab : Abreast u fin start ops locs prog pos ks l n s v m rest c)
    (htodo : op :: todo = ops.drop pos) (hbetween : Between u l ks pos (op :: todo) s)
    (hgu : op.opcode.isGuard = false) (hf : op.opcode.isFinal = false)
    (hl : Lowered u ks pos op todo.head? s s2) (hsilent : Silent u (op.result.toList ++ ks) pos s2 s3)
    (htrail : Trail u fin (l.addOp pos op) (op.result.toList ++ ks) (pos + 1) todo s3)
    (hra : Ran u.env.host op m w m') : ∃ v' rest' c', Reaches u.env prog (rest, c) (rest', c') ∧
      Abreast u fin start ops locs prog (pos + 1) (op.result.toList ++ ks) (l.addOp pos op) n s3 v'
        (m'.record op.result w) rest' c' := by
  obtain ⟨hop, hn⟩ := drop_cons htodo
  have hr := hab.room
  rw [← htodo] at hr
  obtain ⟨c', v', ⟨code, hc, hfa⟩, hgo, hd⟩ := hl.sim
    (fun _ => h.exact op (mem_of_getElem? hop))
    (h.frame.trans (hsilent.grows.trans htrail.grows).frame) c v m w m' hab.good hab.inStep.agrees
    hab.inStep.world hra
  obtain ⟨rest', hre'⟩ := h.exists_rest htrail.grows
  have hs : rest = code ++ rest' := rest_eq_append (hsilent.code.trans hc) hab.code hre'
  refine ⟨v', rest', c', ?_, hn ▸ htrail, ?_, ?_, hn ▸ hr.lowered hl hsilent,
    hsilent.good hgo, hd.inStep hl hsilent (hbetween.made op mem_cons_self)
      hab.inStep.agrees hra, hre'⟩
  · rw [hs]
    exact hfa prog s.code rest' (by rw [hab.code, hs, append_assoc]) h.labels
  · rw [hsilent.plain.exits, hl.exits, hab.exits, exitCount_take_succ hop, exitsTrace_eq_false hgu hf]
    rfl
  · rw [hsilent.plain.inputs, hl.inputs, hab.inputs]

section

variable {todo : List Op} {s4 : State}
  (hab : Abreast u fin start ops locs prog pos ks l n s v m rest c)
  (htodo : op :: todo = ops.drop pos) (hbetween : Between u l ks pos (op :: todo) s)
  (hfails : ∀ b, some (.box b) ∈ op.failArgs → b ∈ ks)
  (hg : Guarded u ks pos op s br s2 kinds vals fails f s3) (hframe : s4.frame = f)
  (hsilent : Silent u (op.result.toList ++ ks) pos s3 s4)
  (htrail : Trail u fin (l.addOp pos op) (op.result.toList ++ ks) (pos + 1) todo s4)

include hg hframe htrail

theorem extends_guard : u.frame.Extends f ∧ u.frame.Extends s2.frame := by
  obtain ⟨hist, hh, -⟩ := hg.recovered.history
  have he : u.frame.Extends f := hframe ▸ h.frame.trans htrail.grows.frame
  exact ⟨he, he.trans hh.keeps⟩

include hab htodo hbetween hfails hsilent

theorem passes (hgu : op.opcode.isGuard = true) (hh : Held u.env.host op m true) :
    ∃ v' rest' c', Reaches u.env prog (rest, c) (rest', c') ∧
      Abreast u fin start ops locs prog (pos + 1) (op.result.toList ++ ks) (l.addOp pos op)
        (n + op.failArgs.length) s4 v' m rest' c' := by
  obtain ⟨hop, hn⟩ := drop_cons htodo
  have hr := hab.room
  rw [← htodo] at hr
  have hr' := hr.guarded hg hfails
  rw [← hframe] at hr'
  obtain ⟨rest', hre'⟩ := h.exists_rest htrail.grows
  obtain ⟨c', v', ⟨code, hc, hf⟩, hgo, hin⟩ := hg.step hbetween.flagsFrom
    (h.extends_guard hg hframe htrail).2 hab.good hab.inStep hh
  have hs : rest = code ++ rest' := rest_eq_append (hsilent.code.trans hc) hab.code hre'
  refine ⟨v', rest', c', ?_, hn ▸ htrail, ?_, ?_, hn ▸ hr', hsilent.good hgo, hin.silent hsilent, hre'⟩
  · rw [hs]
    exact hf prog s.code rest' (by rw [hab.code, hs, append_assoc]) h.labels
  · have he : s2.exits = s.exits := hg.check.plain.exits
    rw [hsilent.plain.exits, hg.eq, exitCount_take_succ hop, Opcode.exitsTrace, hgu]
    simp [he, hab.exits]
  · have hip : s2.inputs = s.inputs := hg.check.plain.inputs
    rw [hsilent.plain.inputs, hg.eq]
    exact hip.trans hab.inputs

theorem reaches_patch (hh : Held u.env.host op m false) :
    ∃ pre after c' v', prog = pre ++ piecesAll .cold .cold
        (stubCode (exitNumber u.req ops pos) u.req.hooks.failure fails) ++ after ∧
      Reaches u.env prog (rest, c)
        (siteCode (exitNumber u.req ops pos) u.req.hooks.failure fails after, c') ∧ Good u s2 c' v' ∧
      (fails.map Prod.fst).map (fun slot => c'.frame slot.offset) = op.failArgs.map m.word := by
  have hr := hab.room
  rw [← htodo] at hr
  have hr' := hr.guarded hg hfails
  rw [← hframe] at hr'
  have hl : f.next ≤ 0xFFFFFFB := hframe ▸ (hr'.rest htrail).1.2.trans hr.limit
  obtain ⟨pre, after, hc⟩ := h.exists_stub hg (hsilent.grows.trans htrail.grows)
  obtain ⟨rest', hrs'⟩ := h.exists_rest htrail.grows
  rw [hsilent.code] at hrs'
  obtain ⟨code, hco, c', v', hre, hgo, hs⟩ := hg.reaches_patch
    (fun b hb => hbetween.ok.ids b (hfails b hb)) (h.extends_guard hg hframe htrail).1
    (hr.roomy hg hl) hab.good hab.inStep hh h.labels hrs' hc
  rw [← rest_eq_append hco hab.code hrs'] at hre
  rw [nextExit_eq hab.exits] at hc hre
  exact ⟨pre, after, c', v', hc, hre, hgo, hs⟩

end

/-- **The code follows a run of its trace** up to the operation at which the run ends. The induction is
on the steps of the run. -/
theorem arrives {max : Nat} (left : Nat) :
    ∀ {pos : Nat} {ks : List Box} {l : Lifetimes} {n : Nat} {s : State} {v : Box → Word}
      {m m' : Machine ω} {rest : List Fragment} {c : Cpu ω} {o : Outcome},
      Abreast u fin start ops locs prog pos ks l n s v m rest c → go (linked u.req t) u.env.host max left
        { id := 0, trace := t, pos, rest := (ops.drop pos).map some, loop := 0, inBridge := false } m =
          (.ok o, m') →
      ∃ ks l n s v m rest' c' op, Abreast u fin start ops locs prog o.pos ks l n s v m rest' c' ∧
        Reaches u.env prog (rest, c) (rest', c') ∧ ops[o.pos]? = some op ∧
          Quits u.env.host op m o.values := by
  induction left with
  | zero =>
    intro pos ks l n s v m m' rest c o hab hgo
    have htrail := hab.trail
    generalize ops.drop pos = todo at htrail hgo
    cases htrail <;> cases hgo
  | succ left ih =>
    intro pos ks l n s v m m' rest c o hab hgo
    have htrail := hab.trail
    generalize htodo : ops.drop pos = todo at htrail hgo
    cases htrail with
    | @step _ _ _ _ op todo _ _ between _ stage trail =>
      obtain ⟨r, m1, ha, hc⟩ := go_succ_ok rfl hgo
      cases stage with
      | stay _ noGuard notFinal _ lowered silent =>
        obtain ⟨w, m2, hra, rfl, rfl⟩ := ha.stay_inv noGuard notFinal
        obtain ⟨v', rest', c', hr, hab'⟩ :=
          h.stays hab htodo.symm between noGuard notFinal lowered silent trail hra
        rw [(drop_cons htodo.symm).2] at hc
        obtain ⟨ks', l', n', s', v'', m', rest'', c'', op', hab'', hr', he⟩ := ih hab' hc
        exact ⟨ks', l', n', s', v'', m', rest'', c'', op', hab'', hr.trans hr', he⟩
      | guard _ isGuard _ hfails guarded hframe silent =>
        obtain ⟨rfl, ⟨hh, rfl⟩ | ⟨hh, kinds', rfl⟩⟩ := ha.guard_inv isGuard rfl
        · obtain ⟨v', rest', c', hr, hab'⟩ :=
            h.passes hab htodo.symm between hfails guarded hframe silent trail isGuard hh
          rw [(drop_cons htodo.symm).2] at hc
          obtain ⟨ks', l', n', s', v'', m', rest'', c'', op', hab'', hr', he⟩ := ih hab' hc
          exact ⟨ks', l', n', s', v'', m', rest'', c'', op', hab'', hr.trans hr', he⟩
        · obtain ⟨rfl, rfl⟩ := hc
          exact ⟨ks, l, n, s, v, _, rest, c, op, hab, .refl, (drop_cons htodo.symm).1,
            .guard isGuard hh rfl⟩
    | @final _ _ prev _ op _ between checks isFinal yields =>
      obtain ⟨r, m1, ha, hc⟩ := go_succ_ok rfl hgo
      cases lower_ends between.ok checks isFinal yields with
      | finish ho _ =>
        obtain ⟨rfl, kinds', rfl⟩ := ha.finish_inv ho
        obtain ⟨rfl, -⟩ := hc
        exact ⟨ks, l, n, s, v, _, rest, c, op, hab, .refl, (drop_cons htodo.symm).1, .finish ho rfl⟩
      | @jump ho vals ls locs' address moves hj =>
        have hid : ∀ b, some (.box b) ∈ op.args → b.id ≤ u.made := by
          cases checks with
          | cons hch _ => exact fun b hb => between.ok.ids b (hch.args b hb)
        obtain ⟨rfl, dest, rfl, hd⟩ := ha.jump_inv ho
        obtain ⟨p', m2, hf, hgo'⟩ := hc
        obtain ⟨hs, rfl, rfl⟩ := follow_own rfl rfl hd hf
        have how : locs' = locs ∧ address = none := by
          cases hj.target with
          | own => exact ⟨hab.inputs, rfl⟩
          | other hoh hne => exact (hs.elim hoh hne).elim
        obtain ⟨rfl, rfl⟩ := how
        obtain ⟨rest1, c1, v1, hre, hr, hgd, hin⟩ :=
          h.jump_back hj between.ok hid hab.good hab.inStep hab.code
        rw [h.ops_eq] at hgo'
        obtain ⟨ks', l', n', s', v'', m', rest'', c'', op', hab'', hr', hop, hq⟩ :=
          ih (h.abreast hgd hin hre) hgo'
        exact ⟨ks', l', n', s', v'', m', rest'', c'', op', hab'', hr.trans hr', hop, hq⟩

theorem leaves (hv : fin.maxValues ≤ 0x10000000)
    (hab : Abreast u fin start ops locs prog pos ks l n s v m rest c) (hop : ops[pos]? = some op)
    (hq : Quits u.env.host op m values) :
    op.opcode.exitsTrace = true ∧ ∃ c', Reaches u.env prog (rest, c) (out, c') ∧
      Left (exitNumber u.req ops pos) values u.stack c' := by
  have htrail := hab.trail
  generalize htodo : ops.drop pos = todo at htrail
  cases htrail with
  | step between _ stage trail =>
    cases (drop_cons htodo.symm).1.symm.trans hop
    cases hq with
    | finish ho =>
      cases stage with
      | stay _ _ hno | guard _ hno =>
        rw [ho] at hno
        cases hno
    | guard hgu hh heq =>
      cases stage with
      | stay _ noGuard => cases noGuard.symm.trans hgu
      | @guard _ _ _ _ vals fails _ _ _ _ hfails guarded hframe silent =>
        obtain ⟨pre, after, c1, v1, hco, hr, hgo, hs⟩ :=
          h.reaches_patch hab htodo.symm between hfails guarded hframe silent trail hh
        have hle : fails.length ≤ 0x10000000 :=
          guarded.fails_le.trans (silent.plain.maxValues ▸ trail.maxValues_le.trans hv)
        obtain ⟨c', hr', hl⟩ := reaches_out hgo hle h.labels h.out hco
        rw [hs, ← heq] at hl
        exact ⟨by rw [Opcode.exitsTrace, hgu, Bool.true_or], c', hr.trans hr', hl⟩
  | final between checks isFinal yields =>
    cases (drop_cons htodo.symm).1.symm.trans hop
    cases hq with
    | guard isGuard =>
      cases lower_ends between.ok checks isFinal yields with
      | finish ho _ | jump ho _ =>
        rw [ho] at isGuard
        cases isGuard
    | finish ho heq =>
      cases lower_ends between.ok checks isFinal yields with
      | jump ho' _ => cases ho.symm.trans ho'
      | @finish _ vals ls kinds hf =>
        have hle : vals.length ≤ 0x10000000 := by
          rw [hf.eq, hf.args, length_map] at hv
          exact (le_max_right ..).trans hv
        obtain ⟨tail, ht⟩ := h.main
        have hp : prog = s.code ++ piecesAll .main .main
            (finishCode (s.nextExit u.req) vals ls) ++ tail := by
          rw [ht, code_finished hf]
        obtain ⟨c', hr, hl⟩ := hf.reaches_exit between.ok hab.good hle h.out hp h.labels
        refine ⟨by rw [ho]; rfl, c', ?_, ?_⟩
        · rw [rest_eq_append (code_finished hf) hab.code ht]
          exact hr
        · have hid : ∀ b, some (.box b) ∈ op.args → b.id ≤ u.made := by
            cases checks with
            | cons hc _ => exact fun b hb => between.ok.ids b (hc.args b hb)
          have hw : vals.map (·.word v) = values := by
            rw [heq, hf.args, map_map]
            refine map_congr_left fun x hx => (hab.inStep.agrees.word fun b hb => hid b ?_).symm
            rw [hf.args, ← hb]
            exact mem_map_of_mem hx
          rw [hw, hab.good.stack, nextExit_eq hab.exits] at hl
          exact hl

end Embedded

end TraceCompiler.Lowering
