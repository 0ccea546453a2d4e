import TraceCompiler.Proofs.Lowering.Entry

/-! # What a compilation keeps account of

While the operations of a trace are compiled, code, slots and exits are only added.
-/

namespace TraceCompiler.Lowering

open Machine (Cpu Setting Falls Fragment Quiet Instr Mem Section Reaches)
open CompileM

variable {ω : Type} {u : Setup ω} {ks : List Box} {pos n : Nat} {s fin s1 : State} {op : Op}
  {ops : List Op} {next : Option Op} {f start : Frame} {b : Box} {br : Branch} {kinds : List Kind}
  {vals : List Value} {fails : List (Slot × List Fragment)}

/-! ## The last operation -/

/-- The last operation of a trace is a finish or a jump. -/
inductive Ends (u : Setup ω) (op : Op) (s fin : State) : Prop
  | finish (ho : op.opcode = .finish) {vals : List Value} {ls : List Location} {kinds : List Kind}
      (h : Finished u op s vals ls kinds fin)
  | jump (ho : op.opcode = .jump) {vals : List Value} {ls locs : List Location}
      {address : Option Word} {out : List Move} (h : Jumped u op s vals ls locs address out fin)

theorem lower_ends (hok : Ok u ks s) (hc : Checks ks prev (op :: ops))
    (hf : op.opcode.isFinal = true) (hy : Yields (lower pos op next) u.req s t fin) : Ends u op s fin := by
  cases hc with
  | cons hop _ =>
    obtain ⟨vals, ha, -⟩ := hop.typed
    cases ho : op.opcode <;> rw [ho] at hf <;> cases hf
    · simp only [lower, ho] at hy
      obtain ⟨ls, locs, address, out, h⟩ := jump_ok hok ha hy
      exact .jump ho h
    · simp only [lower, ho] at hy
      obtain ⟨ls, kinds, h⟩ := finish_ok hok ha hy
      exact .finish ho h

theorem Ends.grows (h : Ends u op s fin) : Grows s fin ∧ fin.frame = s.frame ∧ fin.cold = s.cold ∧
    fin.inputs = s.inputs := by
  cases h with
  | finish _ h =>
    rw [h.eq]
    exact ⟨⟨by simp, List.prefix_rfl, .refl _, le_rfl⟩, rfl, rfl, rfl⟩
  | jump _ h =>
    rw [h.eq]
    exact ⟨⟨by simp [State.moved, State.emitted], List.prefix_rfl, .refl _, le_rfl⟩, rfl, rfl, rfl⟩

theorem Guarded.grows (hg : Guarded u ks pos op s br s1 kinds vals fails f s') : Grows s s' := by
  obtain ⟨hist, hh, _⟩ := hg.recovered.history
  have hc := hg.check.grows
  rw [hg.eq]
  refine ⟨hc.main.trans (by simp), hc.cold.trans (by simp), ?_, hc.made⟩
  exact hh.keeps.trans hc.frame

theorem Stage.grows (h : Stage u ks pos op next s s') : Grows s s' := by
  cases h with
  | stay _ _ _ _ lowered silent => exact lowered.grows.trans silent.grows
  | guard _ _ _ _ guarded _ silent => exact guarded.grows.trans silent.grows

theorem Trail.grows (h : Trail u fin l ks pos ops s) : Grows s fin := by
  induction h with
  | step _ _ stage _ ih => exact stage.grows.trans ih
  | final between checks isFinal yields => exact (lower_ends between.ok checks isFinal yields).grows.1

/-! ## Slots -/

/-- The slots that were handed out since `start`: one at most for each of `boxes`, and `n` at most that
belong to no box. -/
def Front (start : Frame) (boxes : List Box) (n : Nat) (f : Frame) : Prop :=
  ∃ hist, start.History hist f ∧ (∀ b, some b ∈ hist → b ∈ boxes) ∧
    (hist.filter Option.isNone).length ≤ n

namespace Front

variable {boxes : List Box}

theorem refl (start : Frame) (boxes : List Box) (n : Nat) : Front start boxes n start :=
  ⟨[], .refl start, by simp, by simp⟩

section

variable (h : Front start boxes n f)
include h

theorem trans (hh : f.History hist f') (hs : ∀ b ∈ boxes, b ∈ boxes')
    (hbo : ∀ b, (f'.get? b).isSome → b ∈ boxes') :
    Front start boxes' (n + (hist.filter Option.isNone).length) f' := by
  obtain ⟨his, hhi, hm, hle⟩ := h
  refine ⟨his ++ hist, hhi.trans hh, fun b hb => ?_, ?_⟩
  · rcases List.mem_append.mp hb with hb | hb
    · exact hs b (hm b hb)
    · exact hbo b (hh.isSome hb)
  · rw [List.filter_append, List.length_append]
    omega

theorem trans_boxes {bs : List Box} (hh : f.History (bs.map some) f')
    (hs : ∀ b ∈ boxes, b ∈ boxes') (hb : ∀ b, (f'.get? b).isSome → b ∈ boxes') :
    Front start boxes' n f' := by
  have := h.trans hh hs hb
  rwa [show ((bs.map some).filter Option.isNone).length = 0 by
    simp [List.filter_eq_nil_iff]] at this

theorem mono (hn : n ≤ n') : Front start boxes n' f := by
  obtain ⟨hist, hh, hm, hle⟩ := h
  exact ⟨hist, hh, hm, hle.trans hn⟩

theorem sub (hs : ∀ b ∈ boxes, b ∈ boxes') : Front start boxes' n f := by
  obtain ⟨hist, hh, hm, hle⟩ := h
  exact ⟨hist, hh, fun b hb => hs b (hm b hb), hle⟩

theorem keeps : f.Extends start := by
  obtain ⟨_, hh, _⟩ := h
  exact hh.keeps

theorem length_le : ∃ hist, start.History hist f ∧ hist.length ≤ boxes.length + n := by
  obtain ⟨hist, hh, hm, hle⟩ := h
  refine ⟨hist, hh, ?_⟩
  have := hh.length_le hm
  omega

end

section

variable (h : Front start boxes n f) (h0 : 0 ≤ start.next)
  (h1 : start.next + boxes.length + n < 0x8000000000000000)

include h h0 h1

theorem next_bounds : start.next ≤ f.next ∧ f.next ≤ start.next + boxes.length + n := by
  obtain ⟨hist, hh, hle⟩ := h.length_le
  rw [hh.next_eq (by omega) (by omega)]
  omega

theorem below (hl : start.Below) : f.Below := by
  obtain ⟨hist, hh, hle⟩ := h.length_le
  exact hh.below (by omega) (by omega) hl

theorem own (hl : start.Below) (hb : start.get? b = none) (hs : f.get? b = some slot)
    (hs' : f.get? b' = some slot) : b = b' := by
  obtain ⟨hist, hh, hle⟩ := h.length_le
  exact hh.own (by omega) (by omega) hl hb hs hs'

theorem index (hb : start.get? b = none) (hs : f.get? b = some slot) :
    start.next ≤ slot.index ∧ slot.index < f.next := by
  obtain ⟨hist, hh, hle⟩ := h.length_le
  rw [hh.next_eq (by omega) (by omega)]
  rcases hh.index (by omega) (by omega) hs with hold | ⟨i, _, hid, hlt⟩
  · rw [hb] at hold
    cases hold
  · omega

end

end Front

def definedBy (ks : List Box) (ops : List Op) : List Box :=
  ops.foldl (fun ks op => op.result.toList ++ ks) ks

theorem length_definedBy (ks : List Box) (ops : List Op) :
    (definedBy ks ops).length ≤ ks.length + ops.length := by
  induction ops generalizing ks with
  | nil => exact le_rfl
  | cons op ops ih =>
    refine (ih (op.result.toList ++ ks)).trans ?_
    have : op.result.toList.length ≤ 1 := by cases op.result <;> simp
    rw [List.length_append, List.length_cons]
    omega

theorem mem_definedBy (hb : b ∈ ks) (ops : List Op) : b ∈ definedBy ks ops := by
  induction ops generalizing ks with
  | nil => exact hb
  | cons op ops ih => exact ih (List.mem_append_right _ hb)

def failCount (ops : List Op) : Nat := (ops.map fun op => op.failArgs.length).sum

@[simp] theorem failCount_cons (op : Op) (ops : List Op) :
    failCount (op :: ops) = op.failArgs.length + failCount ops := rfl

theorem Ok.mem_of_slot (hok : Ok u ks s) (hb : (s.frame.get? b).isSome) : b ∈ ks := by
  obtain ⟨slot, hs⟩ := Option.isSome_iff_exists.mp hb
  exact hok.slots b slot hs

theorem Front.lowered (h : Front start ks n s.frame) (hl : Lowered u ks pos op next s s1)
    (hs : Silent u (op.result.toList ++ ks) pos s1 s') :
    Front start (op.result.toList ++ ks) n s'.frame := by
  obtain ⟨bs, hbs⟩ := hl.slots
  rw [hs.frame]
  exact h.trans_boxes hbs (fun b hb => List.mem_append_right _ hb) fun b hb => hl.ok.mem_of_slot hb

section

variable (h : Front start ks n s.frame) (hg : Guarded u ks pos op s br s1 kinds vals fails f s')
include h hg

theorem Front.checked : Front start ks n s1.frame := by
  obtain ⟨bs, hbs⟩ := hg.check.plain.slots
  exact h.trans_boxes hbs (fun b hb => hb) fun b hb => hg.check.ok.mem_of_slot hb

theorem Front.guarded
    (hf : ∀ b, some (.box b) ∈ op.failArgs → b ∈ ks) : Front start ks (n + op.failArgs.length) f := by
  obtain ⟨hist, hh, hl, _⟩ := hg.recovered.history
  have hfr : s'.frame = f := by rw [hg.eq]
  have hok : Ok u ks s' := hg.ok hf
  refine ((h.checked hg).trans hh (fun b hb => hb) fun b hb => ?_).mono ?_
  · exact hok.mem_of_slot (hfr ▸ hb)
  · have := List.length_filter_le Option.isNone hist
    rw [hg.failArgs, List.length_map]
    omega

end

theorem Trail.front (h : Trail u fin l ks pos ops s) (hs : Front start ks n s.frame) :
    Front start (definedBy ks ops) (n + failCount ops) fin.frame := by
  induction h generalizing n with
  | @step _ ks _ _ op ops _ _ _ _ stage _ ih =>
    rw [failCount_cons, ← Nat.add_assoc]
    cases stage with
    | stay _ _ _ _ lowered silent =>
      exact (ih (hs.lowered lowered silent)).mono (by omega)
    | guard _ _ _ hfa guarded hf _ =>
      exact ih (hf ▸ (hs.guarded guarded hfa).sub fun b hb => List.mem_append_right op.result.toList hb)
  | final between checks isFinal yields =>
    obtain ⟨-, hf, -⟩ := (lower_ends between.ok checks isFinal yields).grows
    rw [hf]
    exact (hs.sub fun b hb => mem_definedBy hb _).mono (Nat.le_add_right ..)

theorem length_le_definedBy (ks : List Box) (ops : List Op) : ks.length ≤ (definedBy ks ops).length := by
  induction ops generalizing ks with
  | nil => exact le_rfl
  | cons op ops ih =>
    refine le_trans ?_ (ih (op.result.toList ++ ks))
    simp

/-- There are numbers for the slots of the operations `ops` and of those before. -/
structure Ample (start : Frame) (ks : List Box) (n : Nat) (ops : List Op) (f : Frame) : Prop where
  front : Front start ks n f
  nonneg : 0 ≤ start.next
  below : start.Below
  count : start.next + (definedBy ks ops).length + n + failCount ops < 0x4000000000000000

namespace Ample

theorem step (h : Ample start ks n (op :: ops) f) (hf : Front start (op.result.toList ++ ks) n' f')
    (hn : n' ≤ n + op.failArgs.length) : Ample start (op.result.toList ++ ks) n' ops f' := by
  refine ⟨hf, h.nonneg, h.below, ?_⟩
  have := h.count
  rw [failCount_cons] at this
  change start.next + (definedBy (op.result.toList ++ ks) ops).length + n + _ < _ at this
  omega

theorem lowered (h : Ample start ks n (op :: ops) s.frame) (hl : Lowered u ks pos op next s s1)
    (hs : Silent u (op.result.toList ++ ks) pos s1 s') :
    Ample start (op.result.toList ++ ks) n ops s'.frame :=
  h.step (h.front.lowered hl hs) (Nat.le_add_right ..)

theorem guarded (h : Ample start ks n (op :: ops) s.frame)
    (hg : Guarded u ks pos op s br s1 kinds vals fails f s')
    (hf : ∀ b, some (.box b) ∈ op.failArgs → b ∈ ks) :
    Ample start (op.result.toList ++ ks) (n + op.failArgs.length) ops f :=
  h.step ((h.front.guarded hg hf).sub fun _ hb => List.mem_append_right _ hb) le_rfl

theorem next_bounds (h : Ample start ks n ops f) :
    start.next ≤ f.next ∧ f.next < 0x4000000000000000 ∧ f.Below := by
  have hk := length_le_definedBy ks ops
  have hc := h.count
  obtain ⟨hlo, hhi⟩ := h.front.next_bounds h.nonneg (by omega)
  exact ⟨hlo, by omega, h.front.below h.nonneg (by omega) h.below⟩

theorem ahead (h : Ample start ks n ops f) (hr : Front f boxes k f')
    (hle : boxes.length + k ≤ (definedBy ks ops).length + failCount ops) :
    (0 ≤ f.next ∧ f.next ≤ f'.next) ∧
      ∀ b slot, f.get? b = none → f'.get? b = some slot → f.next ≤ slot.index := by
  have hc := h.count
  have hn := h.nonneg
  obtain ⟨hlo, hhi, -⟩ := h.next_bounds
  have hro : f.next + boxes.length + k < 0x8000000000000000 := by omega
  exact ⟨⟨by omega, (hr.next_bounds (by omega) hro).1⟩, fun b slot hold hb =>
    (hr.index (by omega) hro hold hb).1⟩

theorem rest (h : Ample start ks n ops s.frame) (ht : Trail u fin l ks pos ops s) :
    (0 ≤ s.frame.next ∧ s.frame.next ≤ fin.frame.next) ∧
      ∀ b slot, s.frame.get? b = none → fin.frame.get? b = some slot → s.frame.next ≤ slot.index :=
  h.ahead (ht.front (.refl s.frame ks 0)) (by omega)

theorem checked (h : Ample start ks n (op :: ops) s.frame)
    (hg : Guarded u ks pos op s br s1 kinds vals fails f s') :
    start.next ≤ s1.frame.next ∧ s1.frame.next + vals.length < 0x4000000000000000 ∧ s1.frame.Below := by
  have hk := length_le_definedBy ks (op :: ops)
  have hc := h.count
  rw [failCount_cons, hg.failArgs, List.length_map] at hc
  have hf := h.front.checked hg
  obtain ⟨hlo, hhi⟩ := hf.next_bounds h.nonneg (by omega)
  exact ⟨hlo, by omega, hf.below h.nonneg (by omega) h.below⟩

end Ample

/-! ## Entries of the value array -/

theorem Ends.maxValues_le (h : Ends u op s fin) : s.maxValues ≤ fin.maxValues := by
  cases h with
  | finish _ h =>
    rw [h.eq]
    exact le_max_left ..
  | jump _ h =>
    rw [h.eq]
    exact le_rfl

theorem Guarded.fails_le (hg : Guarded u ks pos op s br s1 kinds vals fails f s') :
    fails.length ≤ s'.maxValues := by
  rw [hg.eq, hg.failArgs, List.length_map, hg.recovered.length_eq]
  exact le_max_right ..

theorem Trail.maxValues_le (h : Trail u fin l ks pos ops s) : s.maxValues ≤ fin.maxValues := by
  induction h with
  | @step _ _ _ _ _ _ s _ _ _ stage _ ih =>
    cases stage with
    | stay _ _ _ _ lowered silent => rwa [silent.plain.maxValues, lowered.maxValues] at ih
    | @guard s1 _ _ _ _ _ _ _ _ _ _ guarded _ silent =>
      have hc := guarded.check.plain.maxValues
      rw [silent.plain.maxValues, guarded.eq] at ih
      exact hc.ge.trans ((le_max_left ..).trans ih)
  | final between checks isFinal yields =>
    exact (lower_ends between.ok checks isFinal yields).maxValues_le

end TraceCompiler.Lowering

/-! ## Compiled traces -/

namespace TraceCompiler

open List

@[simp] theorem Frame.get?_startingAt (n : Int) (b : Box) : (Frame.startingAt n).get? b = none :=
  Table.get?_empty b

theorem Frame.below_startingAt (n : Int) : (Frame.startingAt n).Below := by
  intro b s hb
  rw [get?_startingAt] at hb
  cases hb

theorem Frame.Fine.startingAt (n : Int) (shared : List Box) : (Frame.startingAt n).Fine shared := by
  constructor
  · intro b _ s _ hb
    rw [get?_startingAt] at hb
    cases hb
  · intro b s hb
    rw [get?_startingAt] at hb
    cases hb

namespace Lowering

open Machine (Cpu Setting Fragment Section Program)
open CompileM

variable {ω : Type} {u : Setup ω} {r : Request} {t : Trace} {bs : List Box} {ops : List Op}
  {supply supply' : BoxSupply} {res : Result} {s s' s0 fin : State} {p : Program}

/-! ## Assembly -/

/-- An exit of the result: the place of the patch site of a guard is known. -/
inductive Located (p : Program) : Exit → Exit → Prop
  | finish {e : Exit} (h : e.opcode = .finish) : Located p e e
  | guard {e : Exit} {n : Nat} (h : e.opcode ≠ .finish)
      (hsite : p.labels.get? (siteLabel e.index) = some n) : Located p e { e with patch := some n }

theorem yields_labelOffset :
    Yields (labelOffset p label what) r s n s' ↔ p.labels.get? label = some n ∧ s' = s := by
  rw [labelOffset]
  cases p.labels.get? label with
  | none => simp
  | some m => simp [eq_comm]

theorem locateExit_ok (h : Yields (locateExit p e) r s e' s') : Located p e e' ∧ s' = s := by
  unfold locateExit at h
  by_cases hf : e.opcode = .finish
  · rw [if_pos hf] at h
    cases h
    exact ⟨.finish hf, rfl⟩
  · rw [if_neg hf] at h
    obtain ⟨n, s1, hl, hy⟩ := h.bind
    obtain ⟨hs, rfl⟩ := yields_labelOffset.mp hl
    cases hy
    exact ⟨.guard hf hs, rfl⟩

theorem locateExits_ok (h : Yields (es.mapM (locateExit p)) r s es' s') :
    Forall₂ (Located p) es es' ∧ s' = s := by
  induction es generalizing es' s with
  | nil =>
    rw [mapM_nil] at h
    cases h
    exact ⟨.nil, rfl⟩
  | cons e es ih =>
    rw [mapM_cons] at h
    obtain ⟨e', s1, he, hy⟩ := h.bind
    obtain ⟨es', s2, hes, hy⟩ := hy.bind
    cases hy
    obtain ⟨hlo, rfl⟩ := locateExit_ok he
    obtain ⟨hl, rfl⟩ := ih hes
    exact ⟨.cons hlo hl, rfl⟩

structure Assembled (r : Request) (s : State) (res : Result) : Prop where
  program : Program.ofFragment s.fragment = .ok res.program
  body : res.program.labels.get? bodyLabel = some res.body
  entry : r.entry.isBridge = false →
    ∃ n, res.program.labels.get? entryLabel = some n ∧ res.entry = some n
  inputs : res.inputs = s.inputs
  depth : res.frameDepth = s.frame.next
  values : res.maxValues = s.maxValues
  exits : Forall₂ (Located res.program) s.exits.toList res.exits

theorem assemble_ok (h : Yields assemble r s res s') : Assembled r s res := by
  unfold assemble at h
  rw [yields_get_bind] at h
  cases hp : Program.ofFragment s.fragment with
  | error e =>
    rw [hp] at h
    cases h
  | ok p =>
    rw [hp] at h
    obtain ⟨body, s1, hl, hy⟩ := h.bind
    obtain ⟨hbo, rfl⟩ := yields_labelOffset.mp hl
    rw [yields_read_bind] at hy
    dsimp only at hy
    rw [yields_ite_bind] at hy
    obtain ⟨entry, s2, he, hy⟩ := hy
    obtain ⟨exits, s3, hei, hy⟩ := hy.bind
    cases hy
    have hs : s2 = s1 ∧ (r.entry.isBridge = false →
        ∃ n, p.labels.get? entryLabel = some n ∧ entry = some n) := by
      by_cases hb : r.entry.isBridge = true
      · rw [if_pos hb] at he
        exact ⟨(yields_pure.mp he).2, fun h => absurd (h.symm.trans hb) Bool.false_ne_true⟩
      · rw [if_neg hb] at he
        obtain ⟨n, hl, rfl⟩ := yields_map.mp he
        obtain ⟨hn, rfl⟩ := yields_labelOffset.mp hl
        exact ⟨rfl, fun _ => ⟨n, hn, rfl⟩⟩
    obtain ⟨rfl, hs⟩ := hs
    exact ⟨hp, hbo, hs, rfl, rfl, rfl, (locateExits_ok hei).1⟩

/-! ## Whole compilations -/

def State.closed (s : State) : State := { s with cold := s.cold ++ epilogue }

/-- A well-formed trace with the inputs `bs` and the operations `ops` was compiled: `s0` is the state
in front of the first operation, and `fin` the one behind the last. -/
structure Compiled (r : Request) (t : Trace) (bs : List Box) (ops : List Op) (supply : BoxSupply)
    (s0 fin : State) (res : Result) : Prop where
  inputs : t.inputs = bs.map some
  ops_eq : t.ops = ops.map some
  nodup : bs.Nodup
  nonempty : ops ≠ []
  checks : Checks bs.reverse none ops
  slots : (r.entry.slots bs.length).length = bs.length
  enters : Yields (Lowering.inputs t) r (State.start r (.ofOps t.inputs ops) supply) () s0
  runs : (compileOps t.name 0 ops r).run s0 = (.ok (), fin)
  assembled : Assembled r fin.closed res

theorem run_compileTrace (t : Trace) (ops : List Op) (r : Request) :
    (compileTrace t ops).run r = (do
      locate t.name none (Lowering.inputs t) r
      compileOps t.name 0 ops r
      locate t.name none (emitCold epilogue) r
      locate t.name none assemble r) := rfl

theorem compile_ok (ht : r.trace = some t) (hv : t.validate = .ok ())
    (h : compile r supply = (.ok res, supply')) :
    ∃ bs ops s0 fin, Compiled r t bs ops supply s0 fin res := by
  obtain ⟨bs, ops, hin, ho, hnd, -, hne, hch⟩ := Trace.validate_ok hv
  unfold compile at h
  rw [ht] at h
  dsimp only at h
  cases hm : slotMismatch r t with
  | some c =>
    rw [hm] at h
    cases h
  | none =>
    rw [hm, ho, mapM_id_map_some] at h
    dsimp only at h
    cases hr : ((compileTrace t ops).run r).run (State.start r (.ofOps t.inputs ops) supply) with
    | mk x s =>
      rw [hr] at h
      cases h
      rw [run_compileTrace] at hr
      obtain ⟨_, s0, hen, hr⟩ := run_bind_ok hr
      obtain ⟨_, fin, ho', hr⟩ := run_bind_ok hr
      obtain ⟨_, s1, hc, ha⟩ := run_bind_ok hr
      rw [run_locate] at hen hc ha
      obtain ⟨-, rfl⟩ := yields_modify.mp hc
      refine ⟨bs, ops, s0, fin, hin, ho, hnd, hne, hch, ?_, hen, ho', assemble_ok ha⟩
      unfold slotMismatch at hm
      cases he : r.entry with
      | loop => simp [Entry.slots]
      | bridge slots =>
        rw [he] at hm
        dsimp only at hm
        split at hm
        · rename_i hl
          rw [Entry.slots, length_map, hl, hin, length_map]
        · cases hm

structure Made (t : Trace) (supply : BoxSupply) : Prop where
  inputs : ∀ b, some b ∈ t.inputs → b.id ≤ supply.made
  results : ∀ op, some op ∈ t.ops → ∀ b ∈ op.result, b.id ≤ supply.made

theorem Compiled.trail (h : Compiled u.req t bs ops supply s0 fin res) (hs : supply.made = u.made)
    (hm : Made t supply) (hsh : u.shared = if u.req.entry.isBridge then bs else []) :
    ∃ locs s1, Entered u bs ops supply locs s1 s0 ∧
      Trail u fin ((bs.map some).foldl Lifetimes.addInput {}) bs.reverse 0 ops s0 := by
  obtain ⟨locs, s1, he⟩ := inputs_entered h.inputs h.nodup h.slots hs
    (fun b hb => hs ▸ hm.inputs b (h.inputs ▸ mem_map_of_mem hb))
    (fun op hop b hb => hs ▸ hm.results op (h.ops_eq ▸ mem_map_of_mem hop) b hb)
    hsh h.enters
  exact ⟨locs, s1, he, compileOps_trail h.checks h.nonempty he.between h.runs⟩

/-! ## The frame of a trace -/

/-- A host without memory, whose functions all answer with zero. -/
def Setup.idle (r : Request) (made : Nat) (shared : List Box) : Setup Unit where
  env :=
    { host :=
        { read := fun _ _ _ => none
          write := fun _ _ _ => none
          malloc := some fun _ w => (0, w)
          barrier := if r.hooks.barrier = 0 then none else some fun _ w => w
          call := fun _ _ _ w => (.error .missing, w) }
      frameBase := 0
      valuesBase := 0
      native := fun _ _ _ w => some (0, 0, w)
      junk := fun c => (c.gp, c.xmm, c.flags) }
  req := r
  implements :=
    { failure := fun _ _ _ w => ⟨0, w, rfl⟩
      malloc := fun _ => ⟨_, rfl, fun _ _ _ _ => ⟨0, rfl⟩⟩
      barrier := fun h => ⟨_, if_neg h, fun _ _ _ _ => ⟨0, 0, rfl⟩⟩
      noBarrier := fun h => if_pos h
      call := fun _ _ _ _ _ _ h => by cases h }
  made := made
  shared := shared
  frame := .startingAt 0
  fine := .startingAt 0 shared
  stack := []

/-- A bound on the slots that a trace can ask for. -/
def slotDemand (t : Trace) : Nat :=
  t.inputs.length + t.ops.length + failCount t.ops.reduceOption

/-- The slots that a trace is given with its request, and those that it can ask for, have numbers. -/
structure Numbered (r : Request) (t : Trace) : Prop where
  start : 0 ≤ r.frameStart
  demand : r.frameStart + slotDemand t < 0x4000000000000000
  given : ∀ slots, r.entry = .bridge slots → ∀ slot ∈ slots,
    slot.index + 1 + slotDemand t < 0x4000000000000000

structure Opened (r : Request) (t : Trace) (bs : List Box) (start : Frame) : Prop where
  le : r.frameStart ≤ start.next
  count : start.next + slotDemand t < 0x4000000000000000
  below : start.Below
  slots : ∀ b slot, start.get? b = some slot ↔
    ∃ j : Nat, bs[j]? = some b ∧ (r.entry.slots bs.length)[j]? = some (some slot)

def givenSlots (r : Request) : List Slot :=
  match r.entry with
  | .loop => []
  | .bridge slots => slots

theorem mem_givenSlots : slot ∈ givenSlots r ↔ some slot ∈ r.entry.slots n := by
  unfold givenSlots
  cases r.entry with
  | loop => simp [Entry.slots]
  | bridge slots => simp [Entry.slots]

theorem Opened.given (h : Opened r t bs start) (hb : start.get? b = some slot) :
    b ∈ (if r.entry.isBridge then bs else []) ∧ slot ∈ givenSlots r := by
  obtain ⟨j, hj, hs⟩ := (h.slots b slot).mp hb
  refine ⟨?_, mem_givenSlots.mpr (mem_of_getElem? hs)⟩
  cases he : r.entry with
  | loop =>
    rw [he] at hs
    simp [Entry.slots, getElem?_replicate] at hs
  | bridge slots => exact mem_of_getElem? hj

/-- There are numbers for all the slots that a compiled trace has handed out since `start`. -/
structure Framed (r : Request) (t : Trace) (bs : List Box) (ops : List Op) (s0 fin : State)
    (start : Frame) : Prop extends Opened r t bs start where
  ample : Ample start bs.reverse 0 ops s0.frame
  front : Front start (definedBy bs.reverse ops) (failCount ops) fin.frame

section

variable {locs : List Location} {s1 : State} (h : Entered u bs ops supply locs s1 s)

include h

theorem Entered.code_eq : s.code = [.label bodyLabel] := by
  have hm : s1.main = #[] := h.placed.settles.main
  rw [h.silent.code]
  simp [State.body, State.code, hm, Item.fragment, Fragment.piecesAll, Fragment.pieces]

theorem Entered.stray_eq : s.stray = [] := by
  have hm : s1.main = #[] := h.placed.settles.main
  rw [h.silent.plain.stray]
  simp [State.body, State.stray, hm, Item.fragment, Fragment.piecesAll, Fragment.pieces,
    show ¬ Section.cold = Section.main by decide]

theorem Entered.cold_eq : s.cold.toList = if u.req.entry.isBridge then [] else bootstrap locs := by
  have he : s1.cold = #[] := h.placed.settles.cold
  have hb := h.silent.plain.cold
  rw [hb, State.body, he]
  simp

end

theorem Entered.opened (h : Entered u bs ops supply locs s1 s) (hn : Numbered u.req t) :
    ∃ start, Opened u.req t bs start ∧ Front start bs.reverse 0 s.frame := by
  have hf : s.frame = s1.frame := h.silent.frame
  rw [hf]
  cases he : u.req.entry with
  | loop =>
    obtain ⟨hist, hh, -⟩ := h.placed.history (by simp [he, Entry.slots])
    refine ⟨.startingAt u.req.frameStart, ⟨le_rfl, hn.demand, Frame.below_startingAt _, ?_⟩, ?_⟩
    · simp [he, Entry.slots, getElem?_replicate]
    · exact (Front.refl _ _ 0).trans_boxes hh (fun _ hb => hb) fun b hb =>
        h.ok.mem_of_slot (s := s1.body u.req locs) hb
  | bridge slots =>
    have hs : u.req.entry.slots bs.length = slots.map some := by rw [he, Entry.slots]
    have hd := hn.demand
    obtain ⟨hl, hle, hhi⟩ := h.placed.bounds (0x3FFFFFFFFFFFFFFF - slotDemand t) (by omega)
      (fun slot hso => by
        rw [hs] at hso
        obtain ⟨sl, hsl, rfl⟩ := mem_map.mp hso
        have := hn.given slots he sl hsl
        exact ⟨sl, rfl, by omega⟩) hn.start (Frame.below_startingAt _) (by
          change u.req.frameStart ≤ _
          omega)
    refine ⟨s1.frame, ⟨hle, by omega, hl, fun b slot => ⟨fun hb => ?_, ?_⟩⟩, .refl _ _ 0⟩
    · have hm : b ∈ bs := by simpa using h.placed.placing.slots b slot hb
      obtain ⟨j, hj, rfl⟩ := getElem_of_mem hm
      have hjs : j < (u.req.entry.slots bs.length).length := by
        rw [h.placed.given.length_eq, ← h.placed.spots.length_eq]
        exact hj
      obtain ⟨sl, hsl⟩ : ∃ sl, (u.req.entry.slots bs.length)[j]? = some (some sl) := by
        rw [hs, getElem?_map]
        rw [hs, length_map] at hjs
        exact ⟨_, by rw [getElem?_eq_getElem hjs]; rfl⟩
      have hb' := h.placed.get?_given (getElem?_eq_getElem hj) hsl
      exact ⟨j, getElem?_eq_getElem hj, hsl.trans (congrArg some (hb'.symm.trans hb))⟩
    · rintro ⟨j, hj, hsl⟩
      exact h.placed.get?_given hj hsl

namespace Compiled

variable (h : Compiled r t bs ops supply s0 fin res)

include h

theorem demand_le : (definedBy bs.reverse ops).length + failCount ops ≤ slotDemand t := by
  have hl := length_definedBy bs.reverse ops
  have hf : t.ops.reduceOption = ops := by
    rw [h.ops_eq, reduceOption, filterMap_map]
    exact filterMap_some
  rw [slotDemand, hf, h.inputs, h.ops_eq, length_map, length_map]
  rw [length_reverse] at hl
  omega

theorem idle_trail (hm : Made t supply) :
    let u := Setup.idle r supply.made (if r.entry.isBridge then bs else [])
    ∃ locs s1, Entered u bs ops supply locs s1 s0 ∧
      Trail u fin ((bs.map some).foldl Lifetimes.addInput {}) bs.reverse 0 ops s0 := by
  intro u
  have hu : Compiled u.req t bs ops supply s0 fin res := h
  exact hu.trail rfl hm rfl

omit h in
theorem framed (he : Entered u bs ops supply locs s1 s0) (ht : Trail u fin l bs.reverse 0 ops s0)
    (h : Compiled u.req t bs ops supply s0 fin res) (hn : Numbered u.req t) :
    ∃ start, Framed u.req t bs ops s0 fin start := by
  obtain ⟨start, ho, hf⟩ := he.opened hn
  have hle := h.demand_le
  have hc := ho.count
  exact ⟨start, ho, ⟨hf, hn.start.trans ho.le, ho.below, by omega⟩,
    Nat.zero_add (failCount ops) ▸ ht.front hf⟩

/-- In the frame of a trace every box has a slot of its own, but for inputs that were given slots, and
offsets fit. -/
theorem fine (hm : Made t supply) (hnu : Numbered r t) (hd : res.frameDepth ≤ 0xFFFFFFB)
    (hg : ∀ slots, r.entry = .bridge slots → ∀ slot ∈ slots, 0 ≤ slot.index) :
    fin.frame.Fine (if r.entry.isBridge then bs else []) := by
  obtain ⟨_, _, he, ht⟩ := h.idle_trail hm
  obtain ⟨start, ho⟩ := framed he ht h hnu
  have hf := ho.front
  have hc := ho.ample.count
  have h0 := ho.ample.nonneg
  have h1 : start.next + (definedBy bs.reverse ops).length + failCount ops < 0x8000000000000000 := by
    omega
  have hn : fin.frame.next ≤ 0xFFFFFFB := h.assembled.depth ▸ hd
  refine ⟨fun b b' slot hsh hb hb' => ?_, fun b slot hb => ?_⟩
  · exact hf.own h0 h1 ho.below
      (Option.eq_none_iff_forall_ne_some.mpr fun _ hs => hsh (ho.given hs).1) hb hb'
  · cases hold : start.get? b with
    | none =>
      obtain ⟨hlo, hhi⟩ := hf.index h0 h1 hold hb
      exact ⟨by omega, by omega⟩
    | some sl =>
      cases (hf.keeps b sl hold).symm.trans hb
      have hbe := ho.below b slot hold
      obtain ⟨hlo, -⟩ := hf.next_bounds h0 h1
      refine ⟨?_, by omega⟩
      have hs : slot ∈ givenSlots r := (ho.given hold).2
      unfold givenSlots at hs
      cases he : r.entry with
      | loop => simp [he] at hs
      | bridge slots => exact hg slots he slot (by simpa [he] using hs)

end Compiled

end Lowering

end TraceCompiler

/-! ## Tables of exits -/

namespace TraceCompiler.Lowering

open Machine (Fragment)
open CompileM List

variable {ω : Type} {u : Setup ω} {pos n : Nat} {fin : State} {op : Op} {ops : List Op}
  {start last : Frame} {kinds : List Kind} {vals : List Value} {fails : List (Slot × List Fragment)}

/-! ## Fail values -/

/-- Where an exit has the fail values `vals`, in a frame that was `start` at first and is `last` in the
end. -/
structure Saves (start last : Frame) (vals : List Value) (e : Exit) : Prop where
  length_eq : e.slots.length = vals.length
  below : ∀ slot ∈ e.slots, slot.index < e.frameDepth
  fresh : ∀ slot ∈ e.slots, start.next ≤ slot.index ∨ ∃ b, start.get? b = some slot
  box : ∀ (j : Nat) b slot, vals[j]? = some (.box b) → e.slots[j]? = some slot →
    last.get? b = some slot
  const : ∀ (j : Nat) q slot, vals[j]? = some (.const q) → e.slots[j]? = some slot →
    (∀ b, last.get? b ≠ some slot) ∧ ∀ i : Nat, e.slots[i]? = some slot → i = j

theorem Saves.nil (h : e.slots = []) : Saves start last [] e := by
  constructor <;> simp [h]

section

variable (hg : Guarded u ks pos op s br s1 kinds vals fails f s') (h : Ample start ks n (op :: ops) s.frame)
  (het : last.Extends f)
include hg h het

theorem Guarded.saves (hl : ∀ b slot, f.get? b = none → last.get? b = some slot → f.next ≤ slot.index) :
    Saves start last vals ⟨k, op.opcode, kinds, fails.map Prod.fst, none, f.depth⟩ := by
  obtain ⟨hlo, hhi, hlw⟩ := h.checked hg
  have hn := h.nonneg
  have hf := h.front.checked hg
  have hc := h.count
  have hk := length_le_definedBy ks (op :: ops)
  have hr := hg.recovered
  refine ⟨by simp [hr.length_eq], fun slot hs => ?_, fun slot hs => ?_, fun j b slot hj hs => ?_,
    fun j q slot hj hs => ?_⟩
  · obtain ⟨e, he, rfl⟩ := mem_map.mp hs
    exact (hr.bounds (by omega) (by omega) hlw e he).1
  · obtain ⟨e, he, rfl⟩ := mem_map.mp hs
    rcases (hr.bounds (by omega) (by omega) hlw e he).2 with hid | ⟨b, hb⟩
    · exact .inl (hlo.trans hid)
    · cases hold : start.get? b with
      | none => exact .inl (hf.index hn (by omega) hold hb).1
      | some slot =>
        cases (hf.keeps b slot hold).symm.trans hb
        exact .inr ⟨b, hold⟩
  · obtain ⟨e, he, rfl⟩ := Option.map_eq_some_iff.mp (getElem?_map.symm.trans hs)
    exact het b _ (hr.get?_box (mem_of_getElem? (getElem?_zip_eq_some.mpr ⟨hj, he⟩)))
  · obtain ⟨e, he, rfl⟩ := Option.map_eq_some_iff.mp (getElem?_map.symm.trans hs)
    have ho {i : Nat} {e' : Slot × List Fragment} (he' : fails[i]? = some e') :=
      hr.const_own (by omega) (by omega) hlw hj he he'
    refine ⟨fun b hb => ?_, fun i hi => ?_⟩
    · cases hold : f.get? b with
      | none =>
        have hfr := hl b e.1 hold hb
        have hbe := (hr.bounds (by omega) (by omega) hlw e (mem_of_getElem? he)).1
        omega
      | some slot =>
        cases (het b slot hold).symm.trans hb
        exact (ho he).1 b hold
    obtain ⟨e', he', heq⟩ := Option.map_eq_some_iff.mp (getElem?_map.symm.trans hi)
    exact (ho he').2 heq

/-! ## All exits -/

theorem Guarded.fresh_or_box :
    ∀ slot ∈ fails.map Prod.fst, s.frame.next ≤ slot.index ∨ ∃ b, last.get? b = some slot := by
  intro slot hs
  obtain ⟨e, he, rfl⟩ := mem_map.mp hs
  obtain ⟨hlo, hhi, hl⟩ := h.checked hg
  have hk := length_le_definedBy ks (op :: ops)
  have hle := (h.ahead ((Front.refl s.frame ks 0).checked hg) (by omega)).1.2
  have hn := h.nonneg
  rcases (hg.recovered.bounds (by omega) (by omega) hl e he).2 with hid | ⟨b, hb⟩
  · exact .inl (hle.trans hid)
  · exact .inr ⟨b, het b _ (hg.recovered.ext b _ hb)⟩

end

theorem exitsTrace_eq_false (hg : op.opcode.isGuard = false) (hf : op.opcode.isFinal = false) :
    op.opcode.exitsTrace = false := by
  unfold Opcode.exitsTrace
  rw [hg, Bool.false_or, decide_eq_false_iff_not]
  intro ho
  rw [ho] at hf
  cases hf

structure Recorded (r : Request) (start : Frame) (fin : State) (op : Op) (e : Exit) : Prop where
  opcode : e.opcode = op.opcode
  kinds : op.exitKinds? = some e.kinds
  patch : e.patch = none
  saves : ∃ vals, op.failArgs = vals.map some ∧ Saves start fin.frame vals e
  stub : op.opcode.isGuard = true → ∃ pre fails post, e.slots = fails.map Prod.fst ∧
    fin.cold.toList = pre ++ stubCode e.index r.hooks.failure fails ++ post

/-- The exits `es` were recorded for the operations `ops`, with numbers from `k` on and depths from
`lo` to that of the last frame. -/
structure Table (r : Request) (start : Frame) (fin : State) (k lo : Int) (ops : List Op)
    (es : List Exit) : Prop where
  recorded : Forall₂ (Recorded r start fin) (ops.filter (·.opcode.exitsTrace)) es
  index : ∀ (i : Nat) e, es[i]? = some e → e.index = wrap64 (k + i)
  sorted : es.Pairwise (·.frameDepth ≤ ·.frameDepth)
  depth : ∀ e ∈ es, lo ≤ e.frameDepth ∧ e.frameDepth ≤ fin.frame.next
  slots : ∀ e ∈ es, ∀ slot ∈ e.slots, lo ≤ slot.index ∨ ∃ b, fin.frame.get? b = some slot
  apart : es.Pairwise fun e e' =>
    ∀ slot ∈ e.slots, slot ∈ e'.slots → ∃ b, fin.frame.get? b = some slot

namespace Table

variable {k lo lo' : Int}

theorem skip (h : Table r start fin k lo ops es) (hop : op.opcode.exitsTrace = false)
    (hlo : lo' ≤ lo) : Table r start fin k lo' (op :: ops) es where
  recorded := by
    rw [filter_cons_of_neg (by simp [hop])]
    exact h.recorded
  index := h.index
  sorted := h.sorted
  depth e he := ⟨hlo.trans (h.depth e he).1, (h.depth e he).2⟩
  slots e he slot hs := (h.slots e he slot hs).imp_left hlo.trans
  apart := h.apart

theorem cons (h : Table r start fin (k + 1) e.frameDepth ops es) (hop : op.opcode.exitsTrace = true)
    (he : Recorded r start fin op e) (hin : e.index = wrap64 k) (hlo : lo ≤ e.frameDepth)
    (hhi : e.frameDepth ≤ fin.frame.next)
    (hsl : ∀ slot ∈ e.slots, lo ≤ slot.index ∨ ∃ b, fin.frame.get? b = some slot) :
    Table r start fin k lo (op :: ops) (e :: es) where
  recorded := by
    rw [filter_cons_of_pos (by exact hop)]
    exact .cons he h.recorded
  index
    | 0, _, rfl => by rw [hin, Int.natCast_zero, Int.add_zero]
    | i + 1, e', he' => by
      rw [h.index i e' he']
      congr 1
      push_cast
      omega
  sorted := pairwise_cons.mpr ⟨fun e' he' => (h.depth e' he').1, h.sorted⟩
  depth := forall_mem_cons.mpr
    ⟨⟨hlo, hhi⟩, fun e' he' => ⟨hlo.trans (h.depth e' he').1, (h.depth e' he').2⟩⟩
  slots := forall_mem_cons.mpr
    ⟨hsl, fun e' he' slot hs => (h.slots e' he' slot hs).imp_left hlo.trans⟩
  apart := pairwise_cons.mpr ⟨fun e' he' slot hs hs' => by
    obtain ⟨_, _, hsa⟩ := he.saves
    exact (h.slots e' he' slot hs').resolve_left (hsa.below slot hs).not_ge, h.apart⟩

theorem nil : Table r start fin k lo [] [] := ⟨.nil, nofun, .nil, nofun, nofun, .nil⟩

end Table

/-- **A trace has one exit for each guard and each finish**, in order, with growing depths. -/
theorem Trail.exits (h : Trail u fin l ks pos ops s) (ha : Ample start ks n ops s.frame) :
    ∃ es, fin.exits.toList = s.exits.toList ++ es ∧
      Table u.req start fin (u.req.firstExit + s.exits.size) s.frame.next ops es := by
  induction h generalizing n with
  | @step _ ks _ pos op ops s s' _ _ stage trail ih =>
    cases stage with
    | stay _ noGuard notFinal _ lowered silent =>
      obtain ⟨es, he, ht⟩ := ih (ha.lowered lowered silent)
      rw [silent.plain.exits, lowered.exits] at he ht
      have hk := length_le_definedBy (op.result.toList ++ ks) ops
      have hle := ha.ahead ((Front.refl s.frame ks 0).lowered lowered silent)
        (hk.trans (Nat.le_add_right ..))
      exact ⟨es, he, ht.skip (exitsTrace_eq_false noGuard notFinal) hle.1.2⟩
    | @guard s1 s2 br kinds vals fails f _ isGuard _ hfa guarded hf silent =>
      have ha' := hf ▸ ha.guarded guarded hfa
      obtain ⟨es, he, ht⟩ := ih ha'
      have hs1 : s1.exits = s.exits := guarded.check.plain.exits
      have hp : s'.exits = s.exits.push ⟨s.nextExit u.req, op.opcode, kinds, fails.map Prod.fst,
          none, f.depth⟩ := by
        rw [silent.plain.exits, guarded.eq, ← hs1]
      rw [hp] at he ht
      refine ⟨⟨s.nextExit u.req, op.opcode, kinds, fails.map Prod.fst, none, f.depth⟩ :: es,
        he.trans (by simp), ?_⟩
      have hl : fin.frame.Extends f := hf ▸ trail.grows.frame
      have hla (b : Box) (slot : Slot) (hold : f.get? b = none)
          (hb : fin.frame.get? b = some slot) : f.next ≤ slot.index := by
        rw [← hf] at hold ⊢
        exact (ha'.rest trail).2 b slot hold hb
      refine Table.cons ?_ (by rw [Opcode.exitsTrace, isGuard, Bool.true_or])
        ⟨rfl, guarded.exitKinds, rfl, ⟨vals, guarded.failArgs, guarded.saves ha hl hla⟩,
          fun _ => ?_⟩ rfl ?_ (hf ▸ (ha'.rest trail).1.2) (guarded.fresh_or_box ha hl)
      · rw [Array.size_push, hf] at ht
        push_cast at ht
        rw [← Int.add_assoc] at ht
        exact ht
      · obtain ⟨post, hpo⟩ := (silent.grows.trans trail.grows).cold
        refine ⟨s1.cold.toList, fails, post, rfl, ?_⟩
        rw [← hpo, guarded.eq]
        simp
      · have hk := length_le_definedBy ks (op :: ops)
        refine (ha.ahead ((Front.refl s.frame ks 0).guarded guarded hfa) ?_).1.2
        rw [failCount_cons]
        omega
  | @final _ _ _ pos op s between checks isFinal yields =>
    have hen := lower_ends between.ok checks isFinal yields
    have hf : fin.frame = s.frame := hen.grows.2.1
    cases hen with
    | @finish ho vals ls kinds hfi =>
      refine ⟨[⟨s.nextExit u.req, .finish, kinds, [], none, s.frame.depth⟩], by rw [hfi.eq]; simp, ?_⟩
      have hn : op.failArgs = [] := by
        cases checks with
        | cons hop _ => exact hop.noFails (by rw [ho]; rfl)
      refine Table.cons .nil (by rw [ho]; rfl) ⟨ho.symm, hfi.exitKinds, rfl, ⟨[], hn, .nil rfl⟩, fun h => ?_⟩
        rfl le_rfl (congrArg Frame.next hf).ge nofun
      rw [ho] at h
      cases h
    | jump ho hj =>
      exact ⟨[], by rw [hj.eq]; simp [State.moved, State.emitted],
        Table.nil.skip (by rw [ho]; rfl) le_rfl⟩

end TraceCompiler.Lowering
