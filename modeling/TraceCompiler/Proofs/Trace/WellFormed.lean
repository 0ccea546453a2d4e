import Mathlib.Data.List.Nodup
import Mathlib.Data.Option.Basic
import TraceCompiler.Proofs.Trace.Validity

/-! # Well-formed traces

`Trace.WellFormed` says what a well-formed trace is without going through it: every condition is about
the places of the trace.
-/

namespace TraceCompiler

open List

variable {op : Op} {vals : List Value} {defined inputs : List Box} {prev next : Option Op}
  {ops : List Op} {i : Nat} {name : String}

theorem exists_map_some {α : Type} {vs : List (Option α)} (h : ∀ v ∈ vs, ∃ x, v = some x) :
    ∃ xs : List α, vs = xs.map some := by
  induction vs with
  | nil => exact ⟨[], rfl⟩
  | cons v vs ih =>
    obtain ⟨x, rfl⟩ := h v mem_cons_self
    obtain ⟨xs, rfl⟩ := ih fun w hw => h w (mem_cons_of_mem _ hw)
    exact ⟨x :: xs, rfl⟩

namespace Op

/-! ## Signatures -/

theorem Typed.checkSignature (h : op.Typed vals) : op.checkSignature vals = .ok () := by
  have hc (ho : op.opcode ∈ [.callI, .callR, .callF, .callN]) : op.checkCall vals = .ok () :=
    checkCall_eq_ok.mpr (h.call ho)
  have ha (ho : op.opcode.isVariadic = false) : op.checkArgs vals = .ok () :=
    checkArgs_eq_ok.mpr (h.args ho)
  unfold Op.checkSignature
  split
  iterate 2 rfl
  iterate 4
    rename_i ho
    exact hc (by simp [ho])
  rename_i hj hfn hi hr hf hn
  have hfi : op.opcode.isVariadic = false := by
    cases ho : op.opcode <;> simp_all [Opcode.isVariadic]
  refine bind_eq_ok.mpr ⟨(), ha hfi, ?_⟩
  have hl := (h.args hfi).1
  split
  · rename_i a b ho
    obtain ⟨x, k, hv, hk⟩ := h.guardValue ho
    cases hv
    exact guard_bind_eq_ok.mpr ⟨not_not.mpr hk, guard_eq_ok.mpr (by simp [Value.box?])⟩
  iterate 4
    rename_i ho
    exact (checkField_eq_ok hl).mpr (h.field (by simp [ho]))
  iterate 6
    rename_i ho
    exact (checkArray_eq_ok hl).mpr (h.array (by simp [ho]))
  iterate 2
    rename_i ho
    obtain ⟨n, hn⟩ := h.size (by simp [ho])
    exact guard_eq_ok.mpr (by simp [hn])
  · rfl

/-! ## Operations between their neighbours -/

theorem checkUses_of (hbo : ∀ b, some (.box b) ∈ vals.map some → b ∈ defined) :
    checkUses defined (vals.map some) = .ok vals := by
  induction vals with
  | nil => rfl
  | cons v vals ih =>
    have hr := ih fun b hb => hbo b (mem_cons_of_mem _ hb)
    have hc : (do
        let vs ← checkUses defined (vals.map some)
        return v :: vs : Except Flaw (List Value)) = .ok (v :: vals) :=
      bind_eq_ok.mpr ⟨vals, hr, rfl⟩
    cases v with
    | const k => exact hc
    | box b =>
      exact guard_bind_eq_ok.mpr ⟨not_not.mpr (hbo b mem_cons_self), hc⟩

theorem Checked.check_eq (h : op.Checked defined prev next) (after : Option (Option Op)) :
    op.check defined prev after = (do
      op.checkOverflow after
      if op.opcode.isFinal && after.isSome then throw (.error .earlyFinal)
      if !op.opcode.isFinal && after.isNone then throw (.error .noFinal)
      return op.result.toList ++ defined) := by
  obtain ⟨vals, hv, ht, hj⟩ := h.typed
  obtain ⟨fails, hf⟩ := h.fails
  have hu : checkUses defined op.args = .ok vals := by
    rw [hv]
    exact checkUses_of fun b hb => h.args b (hv ▸ hb)
  have hfa : checkUses defined op.failArgs = .ok fails := by
    rw [hf]
    exact checkUses_of fun b hb => h.failArgs b (hf ▸ hb)
  have ha : ¬ (op.opcode.isOverflowGuard && !(prev.map (·.opcode.isOverflow)).getD false) = true := by
    cases hg : op.opcode.isOverflowGuard with
    | false => simp
    | true =>
      obtain ⟨o, rfl, ho⟩ := h.overflowGuard hg
      simp [ho]
  refine (if_neg (by simp [h.valid])).trans <| (bind_of_ok (mapError_eq_ok.mpr hu)).trans <|
    (bind_of_ok (mapError_eq_ok.mpr (mapError_eq_ok.mpr ht.checkSignature))).trans ?_
  -- What is left once the fail values have passed.
  have hr : (do
      let d ← (op.checkResult defined).mapError Abort.error
      op.checkOverflow after
      if op.opcode.isOverflowGuard && !(prev.map (·.opcode.isOverflow)).getD false then
        throw (.error .overflowGuardAlone)
      if op.opcode.isFinal && after.isSome then throw (.error .earlyFinal)
      if !op.opcode.isFinal && after.isNone then throw (.error .noFinal)
      (op.checkJump vals).mapError Abort.error
      return d) = (do
      op.checkOverflow after
      if op.opcode.isFinal && after.isSome then throw (.error .earlyFinal)
      if !op.opcode.isFinal && after.isNone then throw (.error .noFinal)
      return op.result.toList ++ defined : Except (Abort Flaw) (List Box)) := by
    refine (bind_of_ok (mapError_eq_ok.mpr (checkResult_eq_ok.mpr ⟨h.noResult, h.result, rfl⟩))).trans ?_
    refine bind_congr fun _ => (if_neg ha).trans ?_
    rw [checkJump_eq_ok.mpr hj]
    rfl
  refine Eq.trans ?_ hr
  cases hg : op.opcode.isGuard with
  | true => exact bind_of_ok (bind_eq_ok.mpr ⟨fails, mapError_eq_ok.mpr hfa, rfl⟩)
  | false =>
    rw [h.noFails hg]
    rfl

/-- **An operation that fits between its neighbours passes.** -/
theorem Checked.check (h : op.Checked defined prev next) :
    op.check defined prev (next.map some) = .ok (op.result.toList ++ defined) := by
  have hf := h.final
  rw [h.check_eq]
  refine bind_eq_ok.mpr ⟨(), checkOverflow_eq_ok.mpr h.overflow, guard_bind_eq_ok.mpr ⟨?_,
    guard_bind_eq_ok.mpr ⟨?_, rfl⟩⟩⟩
  · cases next <;> simp_all
  · cases next <;> simp_all

end Op

/-! ## Operations place by place -/

/-- The boxes that are defined in front of a place: by operations before it, or before all of them. -/
def definedAt (defined : List Box) (ops : List Op) (i : Nat) : List Box :=
  ((ops.take i).filterMap (·.result)).reverse ++ defined

theorem definedAt_succ (defined : List Box) (op : Op) (ops : List Op) (i : Nat) :
    definedAt defined (op :: ops) (i + 1) = definedAt (op.result.toList ++ defined) ops i := by
  cases hr : op.result <;> simp [definedAt, hr]

theorem mem_definedAt : b ∈ definedAt defined ops i ↔
    (∃ j o, j < i ∧ ops[j]? = some o ∧ o.result = some b) ∨ b ∈ defined := by
  simp only [definedAt, mem_append, mem_reverse, mem_filterMap, mem_take_iff_getElem]
  refine or_congr_left ⟨?_, ?_⟩
  · rintro ⟨o, ⟨j, hj, rfl⟩, hr⟩
    exact ⟨j, _, by omega, getElem?_eq_getElem (by omega), hr⟩
  · rintro ⟨j, o, hj, ho, hr⟩
    obtain ⟨hlt, rfl⟩ := List.getElem_of_getElem? ho
    exact ⟨_, ⟨j, by omega, rfl⟩, hr⟩

def opBefore (prev : Option Op) (ops : List Op) : Nat → Option Op
  | 0 => prev
  | i + 1 => ops[i]?

theorem checks_iff : Checks defined prev ops ↔ ∀ (i : Nat) (op : Op), ops[i]? = some op →
    op.Checked (definedAt defined ops i) (opBefore prev ops i) ops[i + 1]? := by
  induction ops generalizing defined prev with
  | nil => exact ⟨fun _ _ _ h => (nomatch h), fun _ => .nil⟩
  | cons o ops ih =>
    have hb (i : Nat) : opBefore prev (o :: ops) (i + 1) = opBefore (some o) ops i := by
      cases i <;> rfl
    constructor
    · rintro (_ | ⟨hop, hr⟩) i op hi
      cases i with
      | zero =>
        cases hi
        rwa [head?_eq_getElem?] at hop
      | succ i =>
        rw [definedAt_succ, hb]
        exact ih.mp hr i op hi
    · intro h
      refine .cons ?_ (ih.mpr fun i op hi => ?_)
      · rw [head?_eq_getElem?]
        exact h 0 o rfl
      · rw [← definedAt_succ, ← hb]
        exact h (i + 1) op hi

namespace Trace

/-! ## Going through a trace -/

theorem checkInputs_of (hn : inputs.Nodup) (hne : ∀ b ∈ inputs, b ∉ seen ∧ b.kind ≠ .void) :
    checkInputs seen (inputs.map some) = .ok (inputs.reverse ++ seen) := by
  induction inputs generalizing seen with
  | nil => rfl
  | cons b inputs ih =>
    obtain ⟨hb, hn⟩ := nodup_cons.mp hn
    obtain ⟨hs, hv⟩ := hne b mem_cons_self
    have hr : checkInputs (b :: seen) (inputs.map some) = .ok (inputs.reverse ++ b :: seen) :=
      ih hn fun b' hb' => by
        obtain ⟨hs', hv'⟩ := hne b' (mem_cons_of_mem _ hb')
        refine ⟨not_mem_cons_of_ne_of_not_mem ?_ hs', hv'⟩
        rintro rfl
        exact hb hb'
    rw [map_cons, checkInputs, if_neg hv, if_neg hs, hr]
    simp

theorem checkOps_of (h : Checks defined prev ops) :
    checkOps name i defined prev (ops.map some) = .ok () := by
  induction h generalizing i with
  | nil => rfl
  | cons hop _ ih =>
    have hc := hop.check
    rw [← head?_map] at hc
    rw [map_cons, checkOps, hc]
    exact ih

theorem validate_eq (hn : inputs.Nodup) (hk : ∀ b ∈ inputs, b.kind ≠ .void) (hne : os ≠ []) :
    (⟨name, inputs.map some, os⟩ : Trace).validate = checkOps name 0 inputs.reverse none os := by
  have hin : checkInputs [] (inputs.map some) = .ok inputs.reverse := by
    rw [checkInputs_of hn fun b hb => ⟨not_mem_nil, hk b hb⟩, append_nil]
  unfold validate
  rw [hin]
  exact if_neg (by simpa using hne)

/-! ## Well-formed traces -/

/-- A box is an input, or the result of an operation before a place. -/
def DefinedBefore (t : Trace) (i : Nat) (b : Box) : Prop :=
  some b ∈ t.inputs ∨ ∃ j op, j < i ∧ t.ops[j]? = some (some op) ∧ op.result = some b

structure WellFormed (t : Trace) : Prop where
  /-- Inputs are there, have a kind and are distinct. -/
  inputs : ∀ b ∈ t.inputs, ∃ x, b = some x ∧ x.kind ≠ .void
  nodup : t.inputs.Nodup
  present : none ∉ t.ops
  nonempty : t.ops ≠ []
  /-- The last operation, and no other, is a jump or a finish. -/
  final : ∀ (i : Nat) op, t.ops[i]? = some (some op) →
    (op.opcode = .jump ∨ op.opcode = .finish ↔ i + 1 = t.ops.length)
  valid : ∀ op, some op ∈ t.ops → op.opcode.isValid = true
  /-- Arguments and fail values are constants, or boxes that are defined before. -/
  uses : ∀ (i : Nat) op, t.ops[i]? = some (some op) → ∀ v ∈ op.args ++ op.failArgs,
    ∃ x, v = some x ∧ ∀ b, x = .box b → t.DefinedBefore i b
  /-- Operations with a result kind, and no others, have a result, which is of that kind. -/
  result : ∀ op, some op ∈ t.ops → (op.result.isSome = true ↔ op.opcode.resultKind ≠ .void) ∧
    ∀ b, op.result = some b → b.kind = op.opcode.resultKind
  /-- Results are distinct from each other and from the inputs. -/
  single : ∀ (i j : Nat) o o' b, t.ops[i]? = some (some o) → t.ops[j]? = some (some o') →
    o.result = some b → o'.result = some b → i = j
  fresh : ∀ op, some op ∈ t.ops → ∀ b, op.result = some b → some b ∉ t.inputs
  fails : ∀ op, some op ∈ t.ops → op.failArgs ≠ [] → op.opcode.isGuard = true
  /-- Arguments and descriptor are those of the opcode's signature. -/
  typed : ∀ op, some op ∈ t.ops → ∃ vals, op.args = vals.map some ∧ op.Typed vals
  overflow : ∀ (i : Nat) op, t.ops[i]? = some (some op) → op.opcode.isOverflow = true →
    ∃ g, t.ops[i + 1]? = some (some g) ∧ g.opcode.isOverflowGuard = true
  overflowGuard : ∀ (i : Nat) op, t.ops[i]? = some (some op) → op.opcode.isOverflowGuard = true →
    ∃ j o, i = j + 1 ∧ t.ops[j]? = some (some o) ∧ o.opcode.isOverflow = true
  jump : ∀ op, some op ∈ t.ops → op.opcode = .jump → ∀ target,
    op.descr.bind Descr.target? = some target →
      op.args.map (Option.map Value.kind) = target.kinds.map some

section

variable {b : Box}

theorem getElem?_ops : (⟨name, inputs.map some, ops.map some⟩ : Trace).ops[i]? = some (some op) ↔
    ops[i]? = some op := by
  simp

theorem definedBefore_iff : (⟨name, inputs.map some, ops.map some⟩ : Trace).DefinedBefore i b ↔
    b ∈ definedAt inputs.reverse ops i := by
  simp [DefinedBefore, mem_definedAt, or_comm]

theorem isFinal_iff {o : Opcode} : o.isFinal = true ↔ o = .jump ∨ o = .finish := by
  cases o <;> simp [Opcode.isFinal]

theorem wellFormed_of (hn : inputs.Nodup) (hk : ∀ b ∈ inputs, b.kind ≠ .void) (hne : ops ≠ [])
    (hos : ∀ (i : Nat) (op : Op), ops[i]? = some op →
      op.Checked (definedAt inputs.reverse ops i) (opBefore none ops i) ops[i + 1]?) :
    WellFormed ⟨name, inputs.map some, ops.map some⟩ := by
  have hm {op : Op} (h : some op ∈ ops.map some) : ∃ i : Nat, ops[i]? = some op := by
    rw [mem_map_of_injective (Option.some_injective _)] at h
    exact mem_iff_getElem?.mp h
  refine
    { inputs := ?_, nodup := hn.map (Option.some_injective _), present := by simp,
      nonempty := by simpa using hne, final := fun i op hi => ?_, valid := fun op hop => ?_,
      uses := fun i op hi v hv => ?_, result := fun op hop => ?_,
      single := fun i j o o' b hi hj hb hb' => ?_, fresh := fun op hop b hb hin => ?_,
      fails := fun op hop hf => ?_, typed := fun op hop => ?_, overflow := fun i op hi ho => ?_,
      overflowGuard := fun i op hi ho => ?_, jump := fun op hop ho target ht => ?_ }
  · intro x hx
    obtain ⟨b, hb, rfl⟩ := mem_map.mp hx
    exact ⟨b, rfl, hk b hb⟩
  · have hi := getElem?_ops.mp hi
    obtain ⟨hlt, -⟩ := List.getElem_of_getElem? hi
    rw [← isFinal_iff, (hos i op hi).final, getElem?_eq_none_iff, length_map]
    omega
  · obtain ⟨i, hi⟩ := hm hop
    exact (hos i op hi).valid
  · have hc := hos i op (getElem?_ops.mp hi)
    obtain ⟨vals, hva, -⟩ := hc.typed
    obtain ⟨fails, hf⟩ := hc.fails
    have hx : ∃ x, v = some x := by
      rw [hva, hf, ← map_append] at hv
      obtain ⟨x, -, rfl⟩ := mem_map.mp hv
      exact ⟨x, rfl⟩
    obtain ⟨x, rfl⟩ := hx
    refine ⟨x, rfl, ?_⟩
    rintro b rfl
    exact definedBefore_iff.mpr ((mem_append.mp hv).elim (hc.args b) (hc.failArgs b))
  · obtain ⟨i, hi⟩ := hm hop
    have hc := hos i op hi
    refine ⟨⟨fun hr => ?_, fun hvo => ?_⟩, fun b hb => (hc.result b hb).2.1⟩
    · obtain ⟨b, hb⟩ := Option.isSome_iff_exists.mp hr
      exact (hc.result b hb).2.2
    · rw [Option.isSome_iff_ne_none]
      exact fun hr => hvo (hc.noResult hr)
  · -- The later of two results would be defined already.
    have hl {i j : Nat} {o o' : Op} (hi : ops[i]? = some o) (hj : ops[j]? = some o')
        (hb : o.result = some b) (hb' : o'.result = some b) : ¬ i < j := fun hlt =>
      ((hos j o' hj).result b hb').1 (mem_definedAt.mpr (.inl ⟨i, o, hlt, hi, hb⟩))
    have hi := getElem?_ops.mp hi
    have hj := getElem?_ops.mp hj
    have := hl hi hj hb hb'
    have := hl hj hi hb' hb
    omega
  · obtain ⟨i, hi⟩ := hm hop
    refine ((hos i op hi).result b hb).1 (mem_definedAt.mpr (.inr ?_))
    simpa using hin
  · obtain ⟨i, hi⟩ := hm hop
    by_contra hno
    exact hf ((hos i op hi).noFails (Bool.eq_false_iff.mpr hno))
  · obtain ⟨i, hi⟩ := hm hop
    obtain ⟨vals, hva, hty, -⟩ := (hos i op hi).typed
    exact ⟨vals, hva, hty⟩
  · obtain ⟨g, hg, hgu⟩ := (hos i op (getElem?_ops.mp hi)).overflow ho
    exact ⟨g, getElem?_ops.mpr hg, hgu⟩
  · obtain ⟨o, hp, hov⟩ := (hos i op (getElem?_ops.mp hi)).overflowGuard ho
    cases i with
    | zero => cases hp
    | succ j => exact ⟨j, o, rfl, getElem?_ops.mpr hp, hov⟩
  · obtain ⟨i, hi⟩ := hm hop
    obtain ⟨vals, hva, -, hju⟩ := (hos i op hi).typed
    rw [hva, hju ho target ht]
    simp

theorem WellFormed.checked (h : WellFormed ⟨name, inputs.map some, ops.map some⟩)
    (hi : ops[i]? = some op) :
    op.Checked (definedAt inputs.reverse ops i) (opBefore none ops i) ops[i + 1]? := by
  have hat : (⟨name, inputs.map some, ops.map some⟩ : Trace).ops[i]? = some (some op) :=
    getElem?_ops.mpr hi
  have hm := mem_of_getElem? hat
  have hu := h.uses i op hat
  have hbo {vs : List (Option Value)} (hs : ∀ v ∈ vs, v ∈ op.args ++ op.failArgs) {b : Box}
      (hb : some (.box b) ∈ vs) : b ∈ definedAt inputs.reverse ops i := by
    obtain ⟨x, hx, hd⟩ := hu _ (hs _ hb)
    cases hx
    exact definedBefore_iff.mp (hd b rfl)
  obtain ⟨vals, hva, hty⟩ := h.typed op hm
  obtain ⟨hre, hki⟩ := h.result op hm
  refine
    { valid := h.valid op hm, typed := ⟨vals, hva, hty, fun ho t ht => ?_⟩,
      args := fun b hb => hbo (fun v hv => mem_append_left _ hv) hb, fails := ?_,
      failArgs := fun b hb => hbo (fun v hv => mem_append_right _ hv) hb,
      noFails := fun hno => ?_, noResult := fun hr => ?_, result := fun b hb => ⟨fun hd => ?_, ?_, ?_⟩,
      overflow := fun ho => ?_, overflowGuard := fun ho => ?_, final := ?_ }
  · have hk := h.jump op hm ho t ht
    rw [hva, map_map] at hk
    have hc : Option.map Value.kind ∘ some = some ∘ Value.kind := rfl
    rw [hc, ← map_map] at hk
    exact (map_injective_iff.mpr (Option.some_injective _) hk).symm
  · refine exists_map_some fun v hv => ?_
    obtain ⟨x, hx, -⟩ := hu v (mem_append_right _ hv)
    exact ⟨x, hx⟩
  · by_contra hf
    rw [h.fails op hm hf] at hno
    cases hno
  · by_contra hvo
    exact Option.isSome_iff_ne_none.mp (hre.mpr hvo) hr
  · rcases mem_definedAt.mp hd with ⟨j, o, hlt, hj, hr⟩ | hin
    · exact Nat.ne_of_lt hlt (h.single j i o op b (getElem?_ops.mpr hj) hat hr hb)
    · exact h.fresh op hm b hb (by simpa using hin)
  · exact hki b hb
  · exact hre.mp (by simp [hb])
  · obtain ⟨g, hg, hgu⟩ := h.overflow i op hat ho
    exact ⟨g, getElem?_ops.mp hg, hgu⟩
  · obtain ⟨j, o, rfl, hj, hov⟩ := h.overflowGuard i op hat ho
    exact ⟨o, getElem?_ops.mp hj, hov⟩
  · obtain ⟨hlt, -⟩ := List.getElem_of_getElem? hi
    rw [isFinal_iff, h.final i op hat, getElem?_eq_none_iff, length_map]
    omega

end

/-- **Validation finds no flaw exactly in well-formed traces.** -/
theorem validate_eq_ok_iff (t : Trace) : t.validate = .ok () ↔ t.WellFormed := by
  obtain ⟨name, ins, os⟩ := t
  constructor
  · intro h
    obtain ⟨inputs, ops, rfl, rfl, hnodup, hkinds, hne, hchecks⟩ := validate_ok h
    exact wellFormed_of hnodup hkinds hne (checks_iff.mp hchecks)
  · intro h
    obtain ⟨inputs, rfl⟩ := exists_map_some fun v hv => (h.inputs v hv).imp fun _ => And.left
    obtain ⟨ops, rfl⟩ := exists_map_some fun v hv =>
      Option.ne_none_iff_exists'.mp fun hnone => h.present (hnone ▸ hv)
    rw [validate_eq (List.Nodup.of_map some h.nodup) (fun b hb => ?_) h.nonempty]
    · exact checkOps_of (checks_iff.mpr fun i op hi => h.checked hi)
    · obtain ⟨x, hx, hvoid⟩ := h.inputs _ (List.mem_map_of_mem hb)
      cases hx
      exact hvoid

end Trace

/-! ## Faults of validation -/

variable {g : Op} {defined' : List Box} {after : Option (Option Op)} {m : Option String}

section

variable {α β : Type} {e : Flaw} {x : Except Flaw α}

theorem guard_bind_eq_fault {p : Prop} [Decidable p] {k : β → Except (Abort Flaw) α}
    {y : Except (Abort Flaw) α} :
    (if p then throw (.error e) >>= k else y) = .error (.fault m) ↔ ¬ p ∧ y = .error (.fault m) := by
  by_cases h : p
  · rw [if_pos h]
    exact ⟨nofun, fun h' => absurd h h'.1⟩
  · rw [if_neg h]
    exact ⟨fun h' => ⟨h, h'⟩, And.right⟩

theorem flaw_bind_eq_fault {f : α → Except (Abort Flaw) β} :
    (x.mapError Abort.error >>= f) = .error (.fault m) ↔ ∃ a, x = .ok a ∧ f a = .error (.fault m) := by
  rw [bind_eq_error]
  constructor
  · rintro (h | ⟨a, ha, hf⟩)
    · cases x <;> cases h
    · exact ⟨a, mapError_eq_ok.mp ha, hf⟩
  · rintro ⟨a, ha, hf⟩
    exact .inr ⟨a, mapError_eq_ok.mpr ha, hf⟩

end

theorem Opcode.isOverflow_inv {o : Opcode} (h : o.isOverflow = true) :
    o.isOverflowGuard = false ∧ o.isFinal = false := by
  cases o <;> simp_all [isOverflow, isOverflowGuard, isFinal]

namespace Op

theorem checkOverflow_eq_fault (h : op.checkOverflow after = .error (.fault m)) :
    op.opcode.isOverflow = true ∧ after = some none ∧ m = none := by
  unfold checkOverflow at h
  split at h
  · rename_i ho
    split at h
    · cases h
    · cases h
      exact ⟨ho, rfl, rfl⟩
    · split at h <;> cases h
  · cases h

/-- **A fault at an operation**: with an overflow guard in the place of the missing operation it would
pass. -/
theorem check_fault (h : op.check defined prev after = .error (.fault m))
    (hg : g.opcode.isOverflowGuard = true) : op.opcode.isOverflow = true ∧ after = some none ∧ m = none ∧
      op.Checked defined prev (some g) := by
  obtain ⟨hv, h1⟩ := guard_bind_eq_fault.mp h
  obtain ⟨vals, hu, h2⟩ := flaw_bind_eq_fault.mp h1
  obtain ⟨har, hd⟩ := checkUses_ok hu
  obtain ⟨_, hsi, h3⟩ := flaw_bind_eq_fault.mp h2
  have ht := checkSignature_ok (mapError_eq_ok.mp hsi)
  obtain ⟨hfa, hf, hn, h4⟩ := checkFails_eq h3 nofun
  obtain ⟨_, hr, h5⟩ := flaw_bind_eq_fault.mp h4
  obtain ⟨hno, hs, -⟩ := checkResult_eq_ok.mp hr
  have hl : op.checkOverflow after = .error (.fault m) := by
    rcases bind_eq_error.mp h5 with h6 | ⟨_, -, h6⟩
    · exact h6
    · obtain ⟨-, h7⟩ := guard_bind_eq_fault.mp h6
      obtain ⟨-, h8⟩ := guard_bind_eq_fault.mp h7
      obtain ⟨-, h9⟩ := guard_bind_eq_fault.mp h8
      obtain ⟨_, -, h10⟩ := flaw_bind_eq_fault.mp h9
      cases h10
  obtain ⟨ho, ha, hm⟩ := checkOverflow_eq_fault hl
  refine ⟨ho, ha, hm,
    { valid := by simpa using hv, typed := ⟨vals, har, ht, fun hj => ?_⟩, args := hd,
      fails := hfa, failArgs := hf, noFails := hn, noResult := hno, result := hs,
      overflow := fun _ => ⟨g, rfl, hg⟩, overflowGuard := fun hgu => ?_, final := ?_ }⟩
  · rw [hj] at ho
    cases ho
  · rw [(Opcode.isOverflow_inv ho).1] at hgu
    cases hgu
  · rw [(Opcode.isOverflow_inv ho).2]
    exact ⟨nofun, nofun⟩

theorem Checked.check_missing (h : op.Checked defined prev next) (ho : op.opcode.isOverflow = true) :
    op.check defined prev (some none) = .error .missing := by
  rw [h.check_eq]
  refine bind_eq_error.mpr (.inl ?_)
  unfold checkOverflow
  rw [if_pos ho]

end Op

/-! ## Traces -/

def plainGuard : Op := { opcode := .guardNoOverflow }

def plainFinish : Op := { opcode := .finish }

theorem checks_plain (ho : op.opcode.isOverflow = true) :
    Checks defined (some op) [plainGuard, plainFinish] := by
  have hg : plainGuard.check defined (some op) ((some plainFinish).map some) = .ok defined := by
    simp [Op.check, plainGuard, ho]
    rfl
  have hf : plainFinish.check defined (some plainGuard) (none.map some) = .ok defined := rfl
  exact .cons (Op.check_ok hg).1 (.cons (Op.check_ok hf).1 .nil)

namespace Trace

theorem checkOps_fault {ops : List (Option Op)}
    (h : checkOps name i defined prev ops = .error (.fault m)) : m = none ∧
      ∃ (pre : List Op) (op : Op) (rest : List (Option Op)),
        ops = pre.map some ++ some op :: none :: rest ∧ op.opcode.isOverflow = true ∧
          Checks defined prev (pre ++ [op, plainGuard, plainFinish]) := by
  induction ops generalizing i defined prev with
  | nil => cases h
  | cons o ops ih =>
    cases o with
    | none => cases h
    | some op =>
      unfold checkOps at h
      split at h
      · rename_i e hc
        cases e with
        | error f => cases h
        | fault m' =>
          cases h
          obtain ⟨ho, hn, hm, hch⟩ := Op.check_fault hc (g := plainGuard) rfl
          obtain ⟨rest, rfl⟩ : ∃ rest, ops = none :: rest := List.head?_eq_some_iff.mp hn
          exact ⟨hm, [], op, rest, rfl, ho, .cons hch (checks_plain ho)⟩
      · rename_i defined' hc
        obtain ⟨hm, pre, op', rest, rfl, ho, hce⟩ := ih h
        have hh : (pre.map some ++ some op' :: none :: rest).head? =
            (pre ++ [op', plainGuard, plainFinish]).head?.map some := by
          cases pre <;> rfl
        rw [hh] at hc
        obtain ⟨hop, rfl⟩ := Op.check_ok hc
        exact ⟨hm, op :: pre, op', rest, rfl, ho, .cons hop hce⟩

theorem checkOps_missing {pre ops : List Op} {rest : List (Option Op)}
    (h : Checks defined prev (pre ++ op :: g :: ops)) (ho : op.opcode.isOverflow = true) :
    checkOps name i defined prev (pre.map some ++ some op :: none :: rest) = .error .missing := by
  induction pre generalizing i defined prev with
  | nil =>
    cases h with
    | cons hop _ =>
      rw [List.map_nil, List.nil_append, checkOps, List.head?_cons, hop.check_missing ho]
      rfl
  | cons p pre ih =>
    rw [List.cons_append] at h
    cases h with
    | cons hop hr =>
      have hh : (pre ++ op :: g :: ops).head?.map some =
          (pre.map some ++ some op :: none :: rest).head? := by
        cases pre <;> rfl
      have hc := hop.check
      rw [hh] at hc
      rw [List.map_cons, List.cons_append, checkOps, hc]
      exact ih hr

def closedAfter (t : Trace) (i : Nat) : Trace :=
  { t with ops := t.ops.take (i + 1) ++ [some plainGuard, some plainFinish] }

/-- **Validation faults exactly at a missing operation after an overflow operation**, if all is well
up to there: the trace would be well formed if it went on with an overflow guard and a finish. -/
theorem validate_eq_fault_iff (t : Trace) (m : Option String) : t.validate = .error (.fault m) ↔
    m = none ∧ ∃ i op, t.ops[i]? = some (some op) ∧ op.opcode.isOverflow = true ∧
      t.ops[i + 1]? = some none ∧ (t.closedAfter i).validate = .ok () := by
  obtain ⟨name, ins, os⟩ := t
  constructor
  · intro h
    unfold validate at h
    split at h
    · cases h
    · rename_i defined hinputs
      obtain ⟨inputs, rfl, hnodup, hkinds, rfl⟩ := checkInputs_ok hinputs
      split at h
      · cases h
      · obtain ⟨hm, pre, op, rest, rfl, ho, hchecks⟩ := checkOps_fault h
        rw [List.append_nil] at hchecks
        have htake : (pre.map some ++ some op :: none :: rest).take (pre.length + 1) =
            (pre ++ [op]).map some := by
          simp [List.take_append, List.take_of_length_le]
        refine ⟨hm, pre.length, op, by simp, ho, by simp, ?_⟩
        rw [closedAfter, htake, validate_eq hnodup (fun b hb => (hkinds b hb).2) (by simp)]
        have hclosed : checkOps name 0 inputs.reverse none _ = .ok () := checkOps_of hchecks
        simpa using hclosed
  · rintro ⟨rfl, i, op, hop, ho, hnext, hvalid⟩
    obtain ⟨inputs, ops, rfl, hops, hnodup, hkinds, -, hchecks⟩ := validate_ok hvalid
    obtain ⟨hi, hop⟩ := List.getElem?_eq_some_iff.mp hop
    obtain ⟨hi', hnext⟩ := List.getElem?_eq_some_iff.mp hnext
    have hsplit : os = os.take i ++ some op :: none :: os.drop (i + 2) := by
      rw [← hop, ← hnext, List.getElem_cons_drop, List.getElem_cons_drop, List.take_append_drop]
    have htake : os.take (i + 1) = os.take i ++ [some op] := by
      rw [List.take_add_one, List.getElem?_eq_getElem hi, ← hop]
      rfl
    change os.take (i + 1) ++ [some plainGuard, some plainFinish] = ops.map some at hops
    rw [htake, List.append_assoc, eq_comm, List.map_eq_append_iff] at hops
    obtain ⟨pre, last, rfl, hpre, hlast⟩ := hops
    obtain rfl : last = [op, plainGuard, plainFinish] :=
      List.map_injective_iff.mpr (Option.some_injective _) hlast
    rw [hsplit, ← hpre]
    exact (validate_eq hnodup hkinds (by simp)).trans (checkOps_missing hchecks ho)

/-- A sum that may overflow, and nothing where its guard should be. -/
theorem validate_fault_unguarded_sum :
    let x : Box := ⟨1, .int⟩
    let sum : Op := ⟨.intAddOvf, [some (.box x), some (.box x)], some ⟨2, .int⟩, none, []⟩
    (⟨"t", [some x], [some sum, none]⟩ : Trace).validate = .error .missing := by
  decide

end Trace

end TraceCompiler
