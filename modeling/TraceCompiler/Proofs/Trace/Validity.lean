import Mathlib.Data.Int.Order.Basic
import Mathlib.Data.List.Basic
import Mathlib.Order.Lattice
import Mathlib.Tactic.ByContra
import TraceCompiler.Proofs.Computation
import TraceCompiler.Trace.Lifetime
import TraceCompiler.Trace.Validity

/-! # What well-formed traces are like

`Op.Typed` says what a successful look at the signature of an operation establishes, `Op.Checked` what
holds of an operation between its neighbours, and `Checks` what holds of the operations of a
well-formed trace one by one (`Trace.validate_ok`).
-/

namespace TraceCompiler

open List

variable {op : Op} {vals : List Value} {defined defined' : List Box} {prev next : Option Op}

theorem find?_zip_eq_none {α β : Type} {xs : List α} {ys : List β} {p : (α × β) × Nat → Bool} :
    (xs.zip ys).zipIdx.find? p = none ↔
      ∀ i x y, xs[i]? = some x → ys[i]? = some y → p ((x, y), i) = false := by
  rw [find?_eq_none]
  constructor
  · intro h i x y hx hy
    have := h ((x, y), i) (mem_zipIdx_iff_getElem?.mpr (getElem?_zip_eq_some.mpr ⟨hx, hy⟩))
    simpa using this
  · rintro h ⟨⟨x, y⟩, i⟩ hm
    obtain ⟨hx, hy⟩ := getElem?_zip_eq_some.mp (mem_zipIdx_iff_getElem?.mp hm)
    simp [h i x y hx hy]

theorem firstMismatch_eq_none (hl : got.length = want.length) :
    firstMismatch got want = none ↔ got = want := by
  unfold firstMismatch
  rw [Option.map_eq_none_iff, find?_zip_eq_none]
  constructor
  · intro h
    apply ext_getElem hl
    intro i hi hi'
    have := h i got[i] want[i] (getElem?_eq_getElem hi) (getElem?_eq_getElem hi')
    simpa using this
  · rintro rfl i x y hx hy
    cases hx.symm.trans hy
    simp

/-! ## Signatures -/

/-- The arguments of an operation are what its opcode and its descriptor want. -/
structure Op.Typed (op : Op) (vals : List Value) : Prop where
  args : op.opcode.isVariadic = false → vals.length = op.opcode.argKinds.length ∧
    ∀ (i : Nat) v k, vals[i]? = some v → op.opcode.argKinds[i]? = some k → k = .any ∨ v.kind = k
  call : op.opcode ∈ [.callI, .callR, .callF, .callN] → ∃ sig fn rest,
    op.descr.bind Descr.call? = some sig ∧ vals = fn :: rest ∧ (fn.kind = .int ∨ fn.kind = .ref) ∧
      rest.map Value.kind = sig.args ∧
      (op.opcode = .callN ∨ sig.result = op.opcode.resultKind)
  field : op.opcode ∈ [.getfieldI, .getfieldR, .getfieldF, .setfield] → ∃ s,
    op.descr.bind Descr.field? = some s ∧ accessOk s.kind s.size = true ∧
      (op.opcode ≠ .setfield → s.kind = op.opcode.resultKind) ∧
      (op.opcode = .setfield → ∀ v, vals[1]? = some v → v.kind = s.kind)
  array : op.opcode ∈ [.getarrayitemI, .getarrayitemR, .getarrayitemF, .setarrayitem, .arraylen,
    .newArray] → ∃ s, op.descr.bind Descr.array? = some s ∧ accessOk s.kind s.item = true ∧
      (op.opcode ∈ [.getarrayitemI, .getarrayitemR, .getarrayitemF] →
        s.kind = op.opcode.resultKind) ∧
      (op.opcode = .setarrayitem → ∀ v, vals[2]? = some v → v.kind = s.kind)
  size : op.opcode ∈ [.new, .newWithVtable] → ∃ n, op.descr.bind Descr.size? = some n
  guardValue : op.opcode = .guardValue → ∃ a k, vals = [a, .const k] ∧ a.kind = k.kind

namespace Op

theorem checkArgs_eq_ok : op.checkArgs vals = .ok () ↔ vals.length = op.opcode.argKinds.length ∧
    ∀ (i : Nat) v k, vals[i]? = some v → op.opcode.argKinds[i]? = some k → k = .any ∨ v.kind = k := by
  unfold checkArgs
  rw [guard_bind_eq_ok, not_not]
  refine and_congr_right fun _ => ?_
  have hk : (vals.zip op.opcode.argKinds).zipIdx.find?
      (fun p => p.1.2 ≠ .any ∧ p.1.1.kind ≠ p.1.2) = none ↔ _ := find?_zip_eq_none
  simp only [ne_eq, decide_eq_false_iff_not, not_and_or, not_not] at hk
  rw [← hk]
  split
  · rename_i hf
    exact ⟨fun h => (by cases h), fun h => (by cases h.symm.trans hf)⟩
  · rename_i hf
    exact ⟨fun _ => hf, fun _ => rfl⟩

theorem checkCall_eq_ok : op.checkCall vals = .ok () ↔ ∃ sig fn rest,
    op.descr.bind Descr.call? = some sig ∧ vals = fn :: rest ∧ (fn.kind = .int ∨ fn.kind = .ref) ∧
      rest.map Value.kind = sig.args ∧ (op.opcode = .callN ∨ sig.result = op.opcode.resultKind) := by
  unfold checkCall
  cases op.descr.bind Descr.call? with
  | none => exact ⟨nofun, fun ⟨_, _, _, h, _⟩ => nomatch h⟩
  | some sig =>
    cases vals with
    | nil => exact ⟨nofun, fun ⟨_, _, _, _, h, _⟩ => nomatch h⟩
    | cons fn rest =>
      dsimp only
      rw [guard_bind_eq_ok, guard_bind_eq_ok, not_not, not_and_or, not_not, not_not]
      constructor
      · rintro ⟨hl, hfn, h⟩
        split at h
        · cases h
        · rename_i hk
          rw [guard_eq_ok, not_and_or, not_not, not_not] at h
          exact ⟨sig, fn, rest, rfl, rfl, hfn, (firstMismatch_eq_none (by simpa using hl)).mp hk, h⟩
      · rintro ⟨_, _, _, ⟨⟩, ⟨⟩, hfn, ha, hr⟩
        have hl : (rest.map Value.kind).length = sig.args.length := by rw [ha]
        refine ⟨by simpa using hl, hfn, ?_⟩
        rw [(firstMismatch_eq_none hl).mpr ha]
        exact guard_eq_ok.mpr (not_and_or.mpr (hr.imp not_not.mpr not_not.mpr))

theorem checkField_eq_ok (hl : vals.length = op.opcode.argKinds.length) :
    op.checkField vals = .ok () ↔ ∃ s, op.descr.bind Descr.field? = some s ∧
      accessOk s.kind s.size = true ∧ (op.opcode ≠ .setfield → s.kind = op.opcode.resultKind) ∧
      (op.opcode = .setfield → ∀ v, vals[1]? = some v → v.kind = s.kind) := by
  unfold checkField
  cases op.descr.bind Descr.field? with
  | none => exact ⟨nofun, fun ⟨_, h, _⟩ => nomatch h⟩
  | some s =>
    simp only [Option.some.injEq, exists_eq_left']
    rw [guard_bind_eq_ok]
    refine and_congr (by simp) ?_
    by_cases ho : op.opcode = .setfield
    · rw [ho] at hl ⊢
      obtain ⟨a, b, rfl⟩ := length_eq_two.mp hl
      exact (guard_eq_ok.trans not_not).trans (by simp)
    · split
      · exact absurd ‹_› ho
      · exact (guard_eq_ok.trans not_not).trans (by simp [ho])

theorem checkArray_eq_ok (hl : vals.length = op.opcode.argKinds.length) :
    op.checkArray vals = .ok () ↔ ∃ s, op.descr.bind Descr.array? = some s ∧
      accessOk s.kind s.item = true ∧ (op.opcode ∈ [.getarrayitemI, .getarrayitemR, .getarrayitemF] →
        s.kind = op.opcode.resultKind) ∧
      (op.opcode = .setarrayitem → ∀ v, vals[2]? = some v → v.kind = s.kind) := by
  unfold checkArray
  cases op.descr.bind Descr.array? with
  | none => exact ⟨nofun, fun ⟨_, h, _⟩ => nomatch h⟩
  | some s =>
    simp only [Option.some.injEq, exists_eq_left']
    rw [guard_bind_eq_ok]
    refine and_congr (by simp) ?_
    by_cases ho : op.opcode = .setarrayitem
    · rw [ho] at hl ⊢
      obtain ⟨a, b, c, rfl⟩ := length_eq_three.mp hl
      exact (guard_eq_ok.trans not_not).trans (by simp)
    · split
      · exact absurd ‹_› ho
      iterate 3
        rename_i ho'
        exact (guard_eq_ok.trans not_not).trans (by simp [ho'])
      · exact ⟨fun _ => by simp_all, fun _ => rfl⟩

/-- **What a successful look at a signature establishes.** -/
theorem checkSignature_ok (h : op.checkSignature vals = .ok ()) : op.Typed vals := by
  unfold checkSignature at h
  split at h
  iterate 2
    rename_i ho
    constructor <;> simp [ho, Opcode.isVariadic]
  iterate 4
    rename_i ho
    have hca := checkCall_eq_ok.mp h
    refine ⟨?_, fun _ => hca, ?_, ?_, ?_, ?_⟩ <;> simp [ho, Opcode.isVariadic]
  · rename_i hj hfi hi hr hf hn
    obtain ⟨_, ha, hre⟩ := bind_eq_ok.mp h
    clear h
    have ha := checkArgs_eq_ok.mp ha
    have hno : op.opcode ∉ [Opcode.callI, .callR, .callF, .callN] := by
      simp only [mem_cons, not_mem_nil, or_false, not_or]
      exact ⟨hi, hr, hf, hn⟩
    refine ⟨fun _ => ha, fun hc => absurd hc hno, fun ho => ?_, fun ho => ?_,
      fun ho => ?_, fun ho => ?_⟩
    · refine (checkField_eq_ok ha.1).mp ?_
      simp only [mem_cons, not_mem_nil, or_false] at ho
      rcases ho with ho | ho | ho | ho <;> rw [ho] at hre <;> exact hre
    · refine (checkArray_eq_ok ha.1).mp ?_
      simp only [mem_cons, not_mem_nil, or_false] at ho
      rcases ho with ho | ho | ho | ho | ho | ho <;> rw [ho] at hre <;> exact hre
    · have hs : ¬ (op.descr.bind Descr.size?).isNone := by
        simp only [mem_cons, not_mem_nil, or_false] at ho
        rcases ho with ho | ho <;> rw [ho] at hre <;> exact guard_eq_ok.mp hre
      exact Option.ne_none_iff_exists'.mp (by simpa using hs)
    · obtain ⟨hl, -⟩ := ha
      rw [ho] at hl hre
      obtain ⟨a, b, rfl⟩ := length_eq_two.mp hl
      obtain ⟨hk, hre⟩ := guard_bind_eq_ok.mp hre
      have hco := guard_eq_ok.mp hre
      cases b with
      | box b => exact absurd rfl hco
      | const k => exact ⟨a, k, rfl, not_not.mp hk⟩

/-! ## Operations between their neighbours -/

structure Checked (defined : List Box) (prev : Option Op) (op : Op) (next : Option Op) : Prop where
  valid : op.opcode.isValid = true
  typed : ∃ vals : List Value, op.args = vals.map some ∧ op.Typed vals ∧
    (op.opcode = .jump → ∀ t, op.descr.bind Descr.target? = some t → t.kinds = vals.map Value.kind)
  args : ∀ b, some (.box b) ∈ op.args → b ∈ defined
  fails : ∃ vals : List Value, op.failArgs = vals.map some
  failArgs : ∀ b, some (.box b) ∈ op.failArgs → b ∈ defined
  noFails : op.opcode.isGuard = false → op.failArgs = []
  noResult : op.result = none → op.opcode.resultKind = .void
  result : ∀ b, op.result = some b →
    b ∉ defined ∧ b.kind = op.opcode.resultKind ∧ op.opcode.resultKind ≠ .void
  overflow : op.opcode.isOverflow = true →
    ∃ g, next = some g ∧ g.opcode.isOverflowGuard = true
  overflowGuard : op.opcode.isOverflowGuard = true →
    ∃ o, prev = some o ∧ o.opcode.isOverflow = true
  final : op.opcode.isFinal = true ↔ next = none

theorem checkUses_ok (h : checkUses defined xs = .ok vals) :
    xs = vals.map some ∧ ∀ b, some (.box b) ∈ xs → b ∈ defined := by
  induction xs generalizing vals with
  | nil =>
    cases h
    exact ⟨rfl, nofun⟩
  | cons x xs ih =>
    have hc {v : Value} (h : (do
        let vs ← checkUses defined xs
        return v :: vs : Except Flaw (List Value)) = .ok vals)
        (hv : ∀ b, v = .box b → b ∈ defined) : some v :: xs = vals.map some ∧
          ∀ b, some (.box b) ∈ some v :: xs → b ∈ defined := by
      obtain ⟨vs, hvs, hr⟩ := bind_eq_ok.mp h
      cases hr
      obtain ⟨rfl, hm⟩ := ih hvs
      refine ⟨rfl, fun b hb => ?_⟩
      rcases mem_cons.mp hb with heq | hb
      · exact hv b (Option.some.inj heq).symm
      · exact hm b hb
    match x with
    | none => cases h
    | some (.const k) => exact hc h nofun
    | some (.box b) =>
      obtain ⟨hd, hr⟩ := guard_bind_eq_ok.mp h
      refine hc hr ?_
      rintro _ ⟨⟩
      exact not_not.mp hd

theorem checkResult_eq_ok : op.checkResult defined = .ok defined' ↔
    (op.result = none → op.opcode.resultKind = .void) ∧ (∀ b, op.result = some b →
        b ∉ defined ∧ b.kind = op.opcode.resultKind ∧ op.opcode.resultKind ≠ .void) ∧
      defined' = op.result.toList ++ defined := by
  unfold checkResult
  cases op.result with
  | none => by_cases hv : op.opcode.resultKind = .void <;> simp [hv, pure, Except.pure, eq_comm]
  | some b =>
    dsimp only
    rw [guard_bind_eq_ok, guard_bind_eq_ok, guard_bind_eq_ok, not_not]
    constructor
    · rintro ⟨hv, hk, hn, ⟨⟩⟩
      refine ⟨nofun, ?_, rfl⟩
      rintro _ ⟨⟩
      exact ⟨hn, hk, hv⟩
    · rintro ⟨-, hb, rfl⟩
      obtain ⟨hn, hk, hv⟩ := hb b rfl
      exact ⟨hv, hk, hn, rfl⟩

theorem checkJump_eq_ok : op.checkJump vals = .ok () ↔ (op.opcode = .jump →
    ∀ t, op.descr.bind Descr.target? = some t → t.kinds = vals.map Value.kind) := by
  unfold checkJump
  by_cases ho : op.opcode = .jump
  · rw [if_pos ho]
    cases op.descr.bind Descr.target? with
    | none => exact ⟨nofun, fun _ => rfl⟩
    | some t =>
      simp only [ho, Option.some.injEq, forall_eq', forall_const]
      rw [guard_bind_eq_ok, not_not, eq_comm (a := t.kinds)]
      constructor
      · rintro ⟨hl, h⟩
        refine (firstMismatch_eq_none (by simpa using hl.symm)).mp ?_
        split at h
        · cases h
        · rename_i hn
          exact Option.eq_none_iff_forall_ne_some.mpr fun p hp => hn p.1 p.2.1 p.2.2 hp
      · intro hk
        have hl : (vals.map Value.kind).length = t.kinds.length := by rw [hk]
        refine ⟨by simpa using hl.symm, ?_⟩
        rw [(firstMismatch_eq_none hl).mpr hk]
        rfl
  · exact ⟨fun _ h => absurd h ho, fun _ => if_neg ho⟩

theorem checkOverflow_eq_ok : op.checkOverflow (next.map some) = .ok () ↔
    (op.opcode.isOverflow = true → ∃ g, next = some g ∧ g.opcode.isOverflowGuard = true) := by
  unfold checkOverflow
  cases next <;> simp

theorem checkFails_eq (h : (if op.opcode.isGuard = true then
        discard ((checkUses defined op.failArgs).mapError Abort.error) >>= k
      else if (!op.failArgs.isEmpty) = true then throw (.error .failValues) >>= k
      else k ⟨⟩) = r) (hr : ∀ f, r ≠ .error (.error f)) :
    (∃ vals : List Value, op.failArgs = vals.map some) ∧ (∀ b, some (.box b) ∈ op.failArgs → b ∈ defined) ∧
      (op.opcode.isGuard = false → op.failArgs = []) ∧ k ⟨⟩ = r := by
  by_cases hg : op.opcode.isGuard = true
  · rw [if_pos hg] at h
    cases hu : checkUses defined op.failArgs with
    | error f =>
      rw [hu] at h
      exact absurd h.symm (hr f)
    | ok vals =>
      rw [hu] at h
      obtain ⟨ha, hd⟩ := checkUses_ok hu
      exact ⟨⟨vals, ha⟩, hd, fun hno => by simp [hg] at hno, h⟩
  · rw [if_neg hg] at h
    by_cases he : (!op.failArgs.isEmpty) = true
    · rw [if_pos he] at h
      exact absurd h.symm (hr _)
    · rw [if_neg he] at h
      have hn : op.failArgs = [] := by simpa using he
      exact ⟨⟨[], hn⟩, by simp [hn], fun _ => hn, h⟩

/-- **What a successful look at an operation establishes.** -/
theorem check_ok (h : op.check defined prev (next.map some) = .ok defined') :
    op.Checked defined prev next ∧ defined' = op.result.toList ++ defined := by
  obtain ⟨hv, h1⟩ := guard_bind_eq_ok.mp h
  obtain ⟨vals, hu, h2⟩ := bind_eq_ok.mp h1
  obtain ⟨ha, hd⟩ := checkUses_ok (mapError_eq_ok.mp hu)
  obtain ⟨_, hsi, h3⟩ := bind_eq_ok.mp h2
  have hty := checkSignature_ok (mapError_eq_ok.mp (mapError_eq_ok.mp hsi))
  obtain ⟨hfa, hf, hn, h4⟩ := checkFails_eq h3 nofun
  obtain ⟨defined1, hr, h5⟩ := bind_eq_ok.mp h4
  obtain ⟨hno, hs, rfl⟩ := checkResult_eq_ok.mp (mapError_eq_ok.mp hr)
  obtain ⟨_, hov, h6⟩ := bind_eq_ok.mp h5
  obtain ⟨hg, h7⟩ := guard_bind_eq_ok.mp h6
  obtain ⟨he, h8⟩ := guard_bind_eq_ok.mp h7
  obtain ⟨hl, h9⟩ := guard_bind_eq_ok.mp h8
  obtain ⟨_, hj, h10⟩ := bind_eq_ok.mp h9
  cases h10
  refine ⟨⟨by simpa using hv, ⟨vals, ha, hty, fun ho t ht =>
    checkJump_eq_ok.mp (mapError_eq_ok.mp hj) ho t ht⟩, hd, hfa, hf, hn, hno,
    hs, checkOverflow_eq_ok.mp hov, fun ho => ?_, ?_⟩, rfl⟩
  · cases prev with
    | none => simp [ho] at hg
    | some o => exact ⟨o, rfl, by simpa [ho] using hg⟩
  · cases next <;> simp_all

end Op

/-! ## Traces -/

/-- Every operation fits between its neighbours. -/
inductive Checks : List Box → Option Op → List Op → Prop
  | nil {defined : List Box} {prev : Option Op} : Checks defined prev []
  | cons {defined : List Box} {prev : Option Op} {op : Op} {ops : List Op}
      (h : op.Checked defined prev ops.head?)
      (hrest : Checks (op.result.toList ++ defined) (some op) ops) :
      Checks defined prev (op :: ops)

namespace Trace

theorem checkInputs_ok (h : checkInputs seen bs = .ok defined) :
    ∃ inputs : List Box, bs = inputs.map some ∧
      inputs.Nodup ∧ (∀ b ∈ inputs, b ∉ seen ∧ b.kind ≠ .void) ∧ defined = inputs.reverse ++ seen := by
  induction bs generalizing seen with
  | nil =>
    cases h
    exact ⟨[], rfl, .nil, nofun, rfl⟩
  | cons b bs ih =>
    cases b with
    | none => cases h
    | some b =>
      unfold checkInputs at h
      split at h
      · cases h
      · split at h
        · cases h
        · rename_i hv hse
          obtain ⟨inputs, rfl, hn, hne, rfl⟩ := ih h
          refine ⟨b :: inputs, rfl, nodup_cons.mpr ⟨fun hb => ?_, hn⟩, fun b' hb' => ?_, by simp⟩
          · exact (hne b hb).1 mem_cons_self
          · rcases mem_cons.mp hb' with rfl | hb'
            · exact ⟨hse, hv⟩
            · exact ⟨fun hs => (hne b' hb').1 (mem_cons_of_mem _ hs), (hne b' hb').2⟩

theorem checkOps_ok {name : String} {i : Nat} {ops : List (Option Op)}
    (h : checkOps name i defined prev ops = .ok ()) :
    ∃ ops' : List Op, ops = ops'.map some ∧ Checks defined prev ops' := by
  induction ops generalizing i defined prev with
  | nil => exact ⟨[], rfl, .nil⟩
  | cons op ops ih =>
    cases op with
    | none => cases h
    | some op =>
      unfold checkOps at h
      split at h
      · cases h
      · rename_i defined' hc
        obtain ⟨ops', rfl, hr⟩ := ih h
        rw [head?_map] at hc
        obtain ⟨hop, rfl⟩ := Op.check_ok hc
        exact ⟨op :: ops', rfl, .cons hop hr⟩

/-- **What well-formed traces are like**: inputs are distinct, there is an operation, and each one
fits. -/
theorem validate_ok {t : Trace} (h : t.validate = .ok ()) : ∃ (inputs : List Box) (ops : List Op),
    t.inputs = inputs.map some ∧ t.ops = ops.map some ∧ inputs.Nodup ∧
      (∀ b ∈ inputs, b.kind ≠ .void) ∧ ops ≠ [] ∧ Checks inputs.reverse none ops := by
  unfold validate at h
  split at h
  · cases h
  · rename_i defined hip
    obtain ⟨inputs, hin, hn, hk, rfl⟩ := checkInputs_ok hip
    split at h
    · cases h
    · rename_i hne
      obtain ⟨ops, ho, hc⟩ := checkOps_ok h
      rw [append_nil] at hc
      refine ⟨inputs, ops, hin, ho, hn, fun b hb => (hk b hb).2, ?_, hc⟩
      rintro rfl
      simp [ho] at hne

end Trace

/-! ## Last uses -/

theorem mapM_id_map_some {α : Type} (xs : List α) : (xs.map some).mapM id = some xs := by
  induction xs with
  | nil => rfl
  | cons x xs ih => simp [ih]

def Op.reads (op : Op) : List Box := boxesOf op.args ++ boxesOf op.failArgs

theorem mem_boxesOf : b ∈ boxesOf vs ↔ some (.box b) ∈ vs := by
  unfold boxesOf
  rw [mem_filterMap]
  constructor
  · rintro ⟨_ | _ | _, hv, hb⟩
    · cases hb
    · cases hb
      exact hv
    · cases hb
  · exact fun h => ⟨_, h, rfl⟩

theorem Op.mem_reads {b : Box} : b ∈ op.reads ↔ some (.box b) ∈ op.args ∨ some (.box b) ∈ op.failArgs := by
  rw [reads, mem_append, mem_boxesOf, mem_boxesOf]

namespace Lifetimes

variable {b : Box} {pos : Int} {ops : List Op}

theorem get?_put (l : Lifetimes) (b b' : Box) (s : Lifetime) :
    (l.put b s).get? b' = if b' = b then some s else l.get? b' := Table.get?_insert ..

def upTo (pos : Int) : Option Lifetime → Lifetime
  | none => ⟨pos, pos⟩
  | some s => { s with last := max s.last pos }

theorem get?_foldl_addUse (pos : Int) (bs : List Box) (l : Lifetimes) (b : Box) :
    (bs.foldl (addUse pos) l).get? b = if b ∈ bs then some (upTo pos (l.get? b)) else l.get? b := by
  induction bs generalizing l with
  | nil => simp
  | cons b' bs ih =>
    have hu : l.addUse pos b' = l.put b' (upTo pos (l.get? b')) := by
      unfold addUse
      cases l.get? b' <;> rfl
    rw [foldl_cons, ih, hu, get?_put]
    by_cases he : b = b'
    · subst he
      cases l.get? b <;> simp [upTo]
    · simp [he]

theorem get?_addOp (l : Lifetimes) (pos : Int) (op : Op) (b : Box) :
    (l.addOp pos op).get? b = if op.result = some b then some ⟨pos, pos⟩
      else if b ∈ op.reads then some (upTo pos (l.get? b)) else l.get? b := by
  have hre := get?_foldl_addUse pos op.reads l b
  unfold addOp
  cases hr : op.result with
  | none =>
    rw [if_neg (by simp)]
    exact hre
  | some r =>
    refine (get?_put ..).trans ?_
    by_cases he : b = r
    · simp [he]
    · rw [if_neg he, if_neg (by simpa [eq_comm] using he)]
      exact hre

theorem lastUse_addOp (hp : -1 ≤ pos) (l : Lifetimes) (op : Op) (b : Box) :
    (l.addOp pos op).lastUse b = if op.result = some b then pos
      else if b ∈ op.reads then max (l.lastUse b) pos else l.lastUse b := by
  unfold lastUse
  rw [get?_addOp]
  cases l.get? b <;> grind [upTo]

/-- A box that is not defined again is not used for the last time before it was. -/
theorem lastUse_le_addOps (hp : -1 ≤ pos) (hb : ∀ op ∈ ops, op.result ≠ some b) (l : Lifetimes) :
    l.lastUse b ≤ (l.addOps pos ops).lastUse b := by
  induction ops generalizing pos l with
  | nil => exact le_rfl
  | cons op ops ih =>
    obtain ⟨hop, ho⟩ := forall_mem_cons.mp hb
    refine le_trans ?_ (ih (by omega) ho _)
    rw [lastUse_addOp hp, if_neg hop]
    split
    · exact le_max_left ..
    · exact le_rfl

end Lifetimes

theorem Checks.result_ne (h : Checks defined prev ops) (hb : b ∈ defined) :
    ∀ op ∈ ops, op.result ≠ some b := by
  induction h with
  | nil => exact fun _ h => absurd h not_mem_nil
  | cons hop _ ih =>
    intro op' hop'
    rcases mem_cons.mp hop' with rfl | hop'
    · exact fun hr => (hop.result b hr).1 hb
    · exact ih (mem_append_right _ hb) op' hop'

/-- **What an operation reads is not used for the last time before it.** -/
theorem Checks.le_lastUse {pos : Int} (hp : -1 ≤ pos) (h : Checks defined prev (op :: ops))
    (hb : b ∈ op.reads) (l : Lifetimes) : pos ≤ (l.addOps pos (op :: ops)).lastUse b := by
  cases h with
  | cons hop hre =>
    have hd : b ∈ defined := (Op.mem_reads.mp hb).elim (hop.args b) (hop.failArgs b)
    refine le_trans ?_ (Lifetimes.lastUse_le_addOps (by omega)
      (hre.result_ne (mem_append_right _ hd)) (l.addOp pos op))
    rw [Lifetimes.lastUse_addOp hp, if_neg fun hr => (hop.result b hr).1 hd, if_pos hb]
    exact le_max_right ..

end TraceCompiler
