import Mathlib.Data.List.Induction
import TraceCompiler.Machine.PatchSite
import TraceCompiler.Proofs.Machine.Stream
import TraceCompiler.Proofs.Number.Bytes

/-! # Program layout and jump resolution

Assembled code is the bytes of the main section, padding, and the bytes of the cold section.
-/

namespace TraceCompiler.Machine

open List

def bytesIn (cold : Bool) (st : List (Bool × Fragment)) : List UInt8 :=
  st.flatMap fun e => if e.1 = cold then e.2.raw else []

@[simp] theorem bytesIn_append (cold : Bool) (st st' : List (Bool × Fragment)) :
    bytesIn cold (st ++ st') = bytesIn cold st ++ bytesIn cold st' := flatMap_append

theorem bytesIn_singleton (cold : Bool) (e : Bool × Fragment) :
    bytesIn cold [e] = if e.1 = cold then e.2.raw else [] := by
  simp [bytesIn]

/-- What `find` gives of some piece stands at a position: after the bytes that were written to the
same section before the piece, and further as far as it stands in the piece. -/
def Stands (find : Fragment → Option (Nat × String)) (st : List (Bool × Fragment)) (name : String)
    (pos : Position) : Prop :=
  ∃ before g after o, st = before ++ (pos.cold, g) :: after ∧ find g = some (o, name) ∧
    pos.offset = (bytesIn pos.cold before).length + o

section

variable {find : Fragment → Option (Nat × String)} {st : List (Bool × Fragment)}
  {e : Bool × Fragment} {name : String} {pos : Position}

theorem Stands.mem (h : Stands find st name pos) : name ∈ namesIn find st := by
  obtain ⟨before, g, after, o, rfl, hg, -⟩ := h
  exact mem_filterMap.mpr ⟨(pos.cold, g), by simp, by simp [hg]⟩

theorem exists_stands_of_mem (h : name ∈ namesIn find st) : ∃ pos, Stands find st name pos := by
  obtain ⟨e, he, hn⟩ := mem_filterMap.mp h
  obtain ⟨m, hm, rfl⟩ := Option.map_eq_some_iff.mp hn
  obtain ⟨before, after, rfl⟩ := append_of_mem he
  exact ⟨⟨e.1, (bytesIn e.1 before).length + m.1⟩, before, e.2, after, m.1, rfl, hm, rfl⟩

theorem stands_concat : Stands find (st ++ [e]) name pos ↔ Stands find st name pos ∨
    ∃ o, find e.2 = some (o, name) ∧ pos = ⟨e.1, (bytesIn e.1 st).length + o⟩ := by
  constructor
  · rintro ⟨before, g, after, o, hst, hg, hp⟩
    rcases eq_nil_or_concat after with rfl | ⟨after, e', rfl⟩
    · obtain ⟨rfl, he⟩ := append_inj' hst rfl
      cases he
      exact .inr ⟨o, hg, congrArg (Position.mk _) hp⟩
    · rw [concat_eq_append, ← cons_append, ← append_assoc] at hst
      obtain ⟨rfl, -⟩ := append_inj' hst rfl
      exact .inl ⟨before, g, after, o, rfl, hg, hp⟩
  · rintro (⟨before, g, after, o, rfl, hg, hp⟩ | ⟨o, ho, rfl⟩)
    · exact ⟨before, g, after ++ [e], o, by simp, hg, hp⟩
    · exact ⟨st, e.2, [], o, rfl, ho, rfl⟩

theorem Stands.field_le (h : Stands Fragment.field? st name pos) :
    pos.offset + 4 ≤ (bytesIn pos.cold st).length := by
  obtain ⟨before, g, after, o, rfl, hg, hp⟩ := h
  have hr := Fragment.length_raw_of_field? hg
  rw [bytesIn_append, ← singleton_append, bytesIn_append, bytesIn_singleton, if_pos rfl]
  simp only [length_append]
  omega

theorem Stands.mark_le (h : Stands Fragment.mark? st name pos) :
    pos.offset ≤ (bytesIn pos.cold st).length := by
  obtain ⟨before, g, after, o, rfl, hg, hp⟩ := h
  have hr := Fragment.le_length_raw_of_mark? hg
  rw [bytesIn_append, ← singleton_append, bytesIn_append, bytesIn_singleton, if_pos rfl]
  simp only [length_append]
  omega

end

namespace Assembler

structure Holds (a : Assembler) (st : List (Bool × Fragment)) : Prop where
  main : a.main.toList = bytesIn false st
  cold : a.cold.toList = bytesIn true st
  labels : ∀ l pos, a.labels.get? l = some pos ↔ Stands Fragment.mark? st l pos
  jumps : ∀ t pos, (t, pos) ∈ a.jumps.toList ↔ Stands Fragment.field? st t pos
  /-- The displacements of a section stand one after the other. -/
  apart : a.jumps.toList.Pairwise fun j k => j.2.cold = k.2.cold → j.2.offset + 4 ≤ k.2.offset

theorem Holds.endOf (h : Holds a st) (cold : Bool) : a.endOf cold = (bytesIn cold st).length := by
  cases cold
  · rw [← h.main]
    rfl
  · rw [← h.cold]
    rfl

theorem holds_nil : Holds {} [] where
  main := rfl
  cold := rfl
  labels l pos := by
    refine ⟨fun h => (Option.some_ne_none pos h.symm).elim, ?_⟩
    rintro ⟨before, g, after, o, hst, -⟩
    simp at hst
  jumps t pos := by
    refine ⟨fun h => (not_mem_nil h).elim, ?_⟩
    rintro ⟨before, g, after, o, hst, -⟩
    simp at hst
  apart := Pairwise.nil

theorem Holds.put (h : Holds a st) (hne : ∀ o l, e.2.mark? = some (o, l) → l ∉ namesIn Fragment.mark? st) :
    Holds (a.put e) (st ++ [e]) where
  main := by
    rw [bytesIn_append, bytesIn_singleton, ← h.main]
    unfold Assembler.put
    cases e.1 <;> simp
  cold := by
    rw [bytesIn_append, bytesIn_singleton, ← h.cold]
    unfold Assembler.put
    cases e.1 <;> simp
  labels l pos := by
    rw [stands_concat, ← h.labels]
    unfold Assembler.put
    cases he : e.2.mark? with
    | none => simp
    | some m =>
      change (a.labels.insert m.2 _).get? l = _ ↔ _
      rw [Table.get?_insert, h.endOf]
      by_cases hl : l = m.2
      · have hn : ¬ a.labels.get? l = some pos := by
          rw [h.labels, hl]
          exact fun hs => hne m.1 m.2 he hs.mem
        rw [if_pos hl, or_iff_right hn]
        constructor
        · intro hp
          exact ⟨m.1, by rw [hl], (Option.some.inj hp).symm⟩
        · rintro ⟨o, ho, rfl⟩
          cases ho
          rfl
      · rw [if_neg hl]
        refine (or_iff_left ?_).symm
        rintro ⟨o, ho, -⟩
        exact hl (congrArg Prod.snd (Option.some.inj ho)).symm
  jumps t pos := by
    rw [stands_concat, ← h.jumps]
    unfold Assembler.put
    cases he : e.2.field? with
    | none => simp
    | some m =>
      change (t, pos) ∈ (a.jumps.push (m.2, _)).toList ↔ _
      rw [Array.toList_push, mem_append, mem_singleton, h.endOf]
      refine or_congr_right ⟨?_, ?_⟩
      · intro hj
        cases hj
        exact ⟨m.1, rfl, rfl⟩
      · rintro ⟨o, ho, rfl⟩
        cases ho
        rfl
  apart := by
    unfold Assembler.put
    cases he : e.2.field? with
    | none => exact h.apart
    | some m =>
      change (a.jumps.push (m.2, _)).toList.Pairwise _
      rw [Array.toList_push, pairwise_append]
      refine ⟨h.apart, pairwise_singleton _ _, ?_⟩
      rintro ⟨t, pos⟩ hj _ hk hc
      cases mem_singleton.mp hk
      have hle := ((h.jumps t pos).mp hj).field_le
      change pos.cold = e.1 at hc
      rw [hc] at hle
      change pos.offset + 4 ≤ a.endOf e.1 + m.1
      rw [h.endOf]
      omega

theorem holds_stream (h : (namesIn Fragment.mark? st).Nodup) : Holds (st.foldl Assembler.put {}) st := by
  induction st using reverseRecOn with
  | nil => exact holds_nil
  | append_singleton st e ih =>
    rw [namesIn_append, nodup_append] at h
    rw [foldl_append]
    refine (ih h.1).put fun o l he hm => ?_
    exact h.2.2 l hm l (mem_filterMap.mpr ⟨e, mem_singleton_self e, by simp [he]⟩) rfl

/-! ## Filling in -/

@[simp] theorem size_overwrite (code : Array UInt8) (pos : Nat) (bs : List UInt8) :
    (overwrite code pos bs).size = code.size := by
  unfold overwrite
  generalize 0 = i
  induction bs generalizing code i with
  | nil => rfl
  | cons b bs ih => rw [zipIdx_cons, foldl_cons, ih, Array.size_setIfInBounds]

theorem getElem?_overwrite (code : Array UInt8) (pos : Nat) (bs : List UInt8) (k : Nat)
    (hf : pos + bs.length ≤ code.size) : (overwrite code pos bs)[k]? =
      if pos ≤ k ∧ k < pos + bs.length then bs[k - pos]? else code[k]? := by
  suffices h : ∀ (bs : List UInt8) (i : Nat) (code : Array UInt8),
      pos + i + bs.length ≤ code.size →
      ((bs.zipIdx i).foldl (fun code p => code.setIfInBounds (pos + p.2) p.1) code)[k]? =
        if pos + i ≤ k ∧ k < pos + i + bs.length then bs[k - (pos + i)]? else code[k]? from
    h bs 0 code hf
  intro bs
  induction bs with
  | nil =>
    intro i code hf
    rw [if_neg (by simp only [length_nil]; omega)]
    rfl
  | cons b bs ih =>
    intro i code hf
    rw [length_cons] at hf ⊢
    rw [zipIdx_cons, foldl_cons, ih (i + 1) _ (by rw [Array.size_setIfInBounds]; omega)]
    by_cases hl : pos + (i + 1) ≤ k ∧ k < pos + (i + 1) + bs.length
    · rw [if_pos hl, if_pos (by omega)]
      have : k - (pos + i) = k - (pos + (i + 1)) + 1 := by omega
      rw [this, getElem?_cons_succ]
    · rw [if_neg hl, Array.getElem?_setIfInBounds]
      by_cases hk : pos + i = k
      · rw [if_pos hk, if_pos (by omega), if_pos (by omega), ← hk, Nat.sub_self]
        rfl
      · rw [if_neg hk, if_neg (by omega)]

end Assembler

def fieldAt (code : Array UInt8) (pos : Nat) : List UInt8 := (code.toList.drop pos).take 4

theorem getElem?_fieldAt (code : Array UInt8) (pos k : Nat) :
    (fieldAt code pos)[k]? = if k < 4 then code[pos + k]? else none := by
  unfold fieldAt
  rw [getElem?_take]
  split
  · rw [getElem?_drop, Array.getElem?_toList]
  · rfl

/-- Where a position comes to stand when the cold section begins at `base`. -/
def Position.from (base : Nat) (pos : Position) : Nat := pos.offset + if pos.cold then base else 0

namespace Assembler

variable {base : Nat} {labels : Table String Nat} {code code' : Array UInt8}
  {j : String × Position} {js : List (String × Position)}

theorem resolve_ok (h : resolve base labels code j = .ok code') :
    ∃ target, labels.get? j.1 = some target ∧ fitsInt32 (target - (j.2.from base + 4)) ∧
      code' = overwrite code (j.2.from base) (imm32 (target - (j.2.from base + 4))) := by
  unfold resolve at h
  cases ht : labels.get? j.1 with
  | none =>
    rw [ht] at h
    cases h
  | some target =>
    rw [ht] at h
    change (if fitsInt32 (target - (j.2.from base + 4)) = true then _ else _) = _ at h
    by_cases hf : fitsInt32 (target - (j.2.from base + 4)) = true
    · rw [if_pos hf] at h
      cases h
      exact ⟨target, rfl, hf, rfl⟩
    · rw [if_neg hf] at h
      cases h

structure Resolved (base : Nat) (labels : Table String Nat) (js : List (String × Position))
    (code code' : Array UInt8) : Prop where
  size : code'.size = code.size
  fields : ∀ j ∈ js, ∃ target, labels.get? j.1 = some target ∧
    fitsInt32 (target - (j.2.from base + 4)) ∧
    fieldAt code' (j.2.from base) = imm32 (target - (j.2.from base + 4))
  others : ∀ k, (∀ j ∈ js, k < j.2.from base ∨ j.2.from base + 4 ≤ k) → code'[k]? = code[k]?

theorem resolved_of_foldlM (hf : ∀ j ∈ js, j.2.from base + 4 ≤ code.size) (ha : js.Pairwise fun j k =>
      j.2.from base + 4 ≤ k.2.from base ∨ k.2.from base + 4 ≤ j.2.from base)
    (h : js.foldlM (resolve base labels) code = .ok code') : Resolved base labels js code code' := by
  induction js generalizing code with
  | nil =>
    cases h
    exact ⟨rfl, fun j hj => (not_mem_nil hj).elim, fun _ _ => rfl⟩
  | cons j js ih =>
    obtain ⟨hj, ha⟩ := pairwise_cons.mp ha
    rw [foldlM_cons] at h
    cases ho : resolve base labels code j with
    | error e =>
      rw [ho] at h
      cases h
    | ok code1 =>
      rw [ho] at h
      obtain ⟨target, ht, hra, rfl⟩ := resolve_ok ho
      have hs := size_overwrite code (j.2.from base) (imm32 (target - (j.2.from base + 4)))
      have hl : (imm32 (target - (j.2.from base + 4))).length = 4 := length_bytesOfInt ..
      have hin : j.2.from base + (imm32 (target - (j.2.from base + 4))).length ≤ code.size :=
        hl ▸ hf j mem_cons_self
      have hr := ih (fun k hk => hs ▸ hf k (mem_cons_of_mem _ hk)) ha h
      refine ⟨hr.size.trans hs, ?_, ?_⟩
      · intro k hk
        rcases mem_cons.mp hk with rfl | hk
        · refine ⟨target, ht, hra, ext_getElem? fun i => ?_⟩
          rw [getElem?_fieldAt]
          split
          · -- the later displacements lie elsewhere
            rw [hr.others _ fun j' hj' => by have := hj j' hj'; omega,
              getElem?_overwrite _ _ _ _ hin, if_pos (by omega), Nat.add_sub_cancel_left]
          · rw [getElem?_eq_none (by omega)]
        · exact hr.fields k hk
      · intro k hk
        rw [hr.others k fun j' hj' => hk j' (mem_cons_of_mem _ hj'),
          getElem?_overwrite _ _ _ _ hin, if_neg]
        have := hk j mem_cons_self
        omega

theorem foldlM_resolve_cases (code : Array UInt8) (hr : ∀ j ∈ js, ∀ target,
    labels.get? j.1 = some target → fitsInt32 (target - (j.2.from base + 4))) :
    ((∀ j ∈ js, (labels.get? j.1).isSome) ∧
      ∃ code', js.foldlM (resolve base labels) code = .ok code') ∨ ∃ j ∈ js, labels.get? j.1 = none ∧
      js.foldlM (resolve base labels) code = .error (.undefined j.1) := by
  induction js generalizing code with
  | nil => exact .inl ⟨fun j hj => (not_mem_nil hj).elim, code, rfl⟩
  | cons j js ih =>
    rw [foldlM_cons]
    cases ht : labels.get? j.1 with
    | none =>
      refine .inr ⟨j, mem_cons_self, ht, ?_⟩
      unfold resolve
      rw [ht]
      rfl
    | some target =>
      have ho : resolve base labels code j =
          .ok (overwrite code (j.2.from base) (imm32 (target - (j.2.from base + 4)))) := by
        unfold resolve
        rw [ht]
        exact if_pos (hr j mem_cons_self target ht)
      rw [ho]
      rcases ih (overwrite code (j.2.from base) (imm32 (target - (j.2.from base + 4))))
          (fun k hk => hr k (mem_cons_of_mem _ hk)) with ⟨ha, hok⟩ | ⟨k, hk, hn, he⟩
      · refine .inl ⟨fun k hk => ?_, hok⟩
        rcases mem_cons.mp hk with rfl | hk
        · rw [ht]
          rfl
        · exact ha k hk
      · exact .inr ⟨k, mem_cons_of_mem _ hk, hn, he⟩

end Assembler

/-! ## Programs -/

namespace Fragment

def labels (f : Fragment) : List String := namesIn mark? (f.stream false)

def targets (f : Fragment) : List String := namesIn field? (f.stream false)

/-- Where the cold section begins: the main section is brought up to a multiple of sixteen. -/
def coldBase (f : Fragment) : Nat := ((bytesIn false (f.stream false)).length + 15) / 16 * 16

/-- The bytes as they are written, with padding between the sections. -/
def emitted (f : Fragment) : List UInt8 :=
  bytesIn false (f.stream false) ++
    replicate (f.coldBase - (bytesIn false (f.stream false)).length) 0xCC ++
    bytesIn true (f.stream false)

structure LaidOut (f : Fragment) (p : Program) : Prop where
  coldOffset : p.coldOffset = f.coldBase
  size : p.code.size = f.emitted.length
  /-- A label is where the bytes before it in its section end. -/
  labels : ∀ l n, p.labels.get? l = some n ↔
    ∃ pos, Stands mark? (f.stream false) l pos ∧ n = pos.from f.coldBase
  /-- A displacement leads from its end to its label. -/
  fields : ∀ t pos, Stands field? (f.stream false) t pos →
    ∃ target, p.labels.get? t = some target ∧ pos.from f.coldBase + 4 ≤ p.code.size ∧
      (pos.from f.coldBase + 4 : Int) + signedOfBytes (fieldAt p.code (pos.from f.coldBase)) = target
  /-- All other bytes are as they were written. -/
  others : ∀ k, (∀ t pos, Stands field? (f.stream false) t pos →
    k < pos.from f.coldBase ∨ pos.from f.coldBase + 4 ≤ k) → p.code[k]? = f.emitted[k]?

/-- Every displacement to a label of the fragment is a signed 32-bit number. -/
def InRange (f : Fragment) : Prop :=
  ∀ t pos pos', Stands field? (f.stream false) t pos → Stands mark? (f.stream false) t pos' →
    fitsInt32 (pos'.from f.coldBase - (pos.from f.coldBase + 4))

theorem length_emitted (f : Fragment) :
    f.emitted.length = f.coldBase + (bytesIn true (f.stream false)).length := by
  unfold emitted
  rw [length_append, length_append, length_replicate]
  unfold coldBase
  omega

theorem from_le_length {f : Fragment} {pos : Position} {n : Nat}
    (h : pos.offset + n ≤ (bytesIn pos.cold (f.stream false)).length) :
    pos.from f.coldBase + n ≤ f.emitted.length := by
  rw [length_emitted]
  unfold Position.from coldBase
  cases hc : pos.cold <;> rw [hc] at h <;> simp <;> omega

theorem inRange_of_length {f : Fragment} (h : f.emitted.length < 0x80000000) : f.InRange := by
  intro t pos pos' hf hm
  have hle := from_le_length hf.field_le
  have hle' := from_le_length (n := 0) hm.mark_le
  simp only [fitsInt32, decide_eq_true_eq]
  omega

end Fragment

namespace Assembler

variable {a : Assembler} {f : Fragment}

theorem add_padding (n : Nat) : n + padding n = (n + 15) / 16 * 16 := by
  unfold padding
  omega

def offsets (a : Assembler) (base : Nat) : Table String Nat :=
  a.labels.mapValues (Position.from base)

def joined (a : Assembler) : Array UInt8 :=
  a.main ++ replicate (padding a.main.size) (0xCC : UInt8) ++ a.cold

theorem finish_eq (hb : a.main.size + padding a.main.size = base) :
    a.finish = (a.jumps.toList.foldlM (resolve base (a.offsets base)) a.joined).map
      fun code => ⟨code, base, a.offsets base⟩ := by
  have hs : (a.main ++ replicate (padding a.main.size) (0xCC : UInt8)).size = base := by
    rw [← hb, ← Array.length_toList, Array.toList_appendList, length_append, length_replicate]
    rfl
  unfold finish
  simp only [hs]
  rfl

section

variable (h : Holds a (f.stream false))

include h

theorem Holds.main_size : a.main.size = (bytesIn false (f.stream false)).length := h.endOf false

theorem Holds.base : a.main.size + padding a.main.size = f.coldBase := by
  rw [add_padding, h.main_size]
  rfl

theorem Holds.toList_joined : a.joined.toList = f.emitted := by
  have hp : padding a.main.size = f.coldBase - (bytesIn false (f.stream false)).length := by
    rw [← h.main_size, ← h.base, Nat.add_sub_cancel_left]
  unfold joined Fragment.emitted
  rw [Array.toList_append, Array.toList_appendList, h.main, h.cold, hp]

theorem Holds.size_joined : a.joined.size = f.emitted.length := by
  rw [← h.toList_joined]
  rfl

theorem Holds.get?_offsets (l : String) (n : Nat) : (a.offsets f.coldBase).get? l = some n ↔
    ∃ pos, Stands Fragment.mark? (f.stream false) l pos ∧ n = pos.from f.coldBase := by
  unfold offsets
  rw [Table.get?_mapValues, Option.map_eq_some_iff]
  refine exists_congr fun pos => ?_
  rw [h.labels, eq_comm]

theorem Holds.fits (hj : j ∈ a.jumps.toList) : j.2.from f.coldBase + 4 ≤ a.joined.size := by
  rw [h.size_joined]
  exact Fragment.from_le_length ((h.jumps j.1 j.2).mp hj).field_le

theorem Holds.apart_from : a.jumps.toList.Pairwise fun j k =>
    j.2.from f.coldBase + 4 ≤ k.2.from f.coldBase ∨ k.2.from f.coldBase + 4 ≤ j.2.from f.coldBase := by
  have hb : (bytesIn false (f.stream false)).length ≤ f.coldBase := by
    unfold Fragment.coldBase
    omega
  refine Pairwise.imp_of_mem ?_ h.apart
  intro j k hj hk hjk
  have hl := ((h.jumps j.1 j.2).mp hj).field_le
  have hle := ((h.jumps k.1 k.2).mp hk).field_le
  unfold Position.from
  cases hcj : j.2.cold <;> cases hck : k.2.cold <;> rw [hcj] at hl <;> rw [hck] at hle <;>
    simp [hcj, hck] at hjk ⊢ <;> omega

end

theorem Holds.laidOut (h : Holds a (f.stream false)) (hp : a.finish = .ok p) : f.LaidOut p := by
  rw [finish_eq h.base] at hp
  cases hc : a.jumps.toList.foldlM (resolve f.coldBase (a.offsets f.coldBase)) a.joined with
  | error e =>
    rw [hc] at hp
    cases hp
  | ok code =>
    rw [hc] at hp
    cases hp
    have hr := resolved_of_foldlM (fun j hj => h.fits hj) h.apart_from hc
    refine ⟨rfl, hr.size.trans h.size_joined, h.get?_offsets, ?_, ?_⟩
    · intro t pos hpo
      have hm := (h.jumps t pos).mpr hpo
      obtain ⟨target, ht, hra, hf⟩ := hr.fields (t, pos) hm
      refine ⟨target, ht, hr.size ▸ h.fits hm, ?_⟩
      dsimp only at hf hra ⊢
      have hb : ∀ i : Int, fitsInt32 i = true → Int.bmod i (256 ^ 4) = i := by
        intro i hi
        simp only [fitsInt32, decide_eq_true_eq] at hi
        rw [Int.bmod_def]
        omega
      rw [hf, imm32, signedOfBytes_bytesOfInt (by decide), hb _ hra]
      omega
    · intro k hk
      rw [hr.others k fun j hj => hk j.1 j.2 ((h.jumps j.1 j.2).mp hj), ← h.toList_joined,
        Array.getElem?_toList]

end Assembler

namespace Program

variable {f : Fragment}

theorem ofFragment_cases (h : f.Plain) : (f.labels.Nodup ∧
      ofFragment f = ((f.stream false).foldl Assembler.put {}).finish.mapError .error) ∨
    ∃ l, 2 ≤ f.labels.count l ∧ ofFragment f = .error (.error (.redefined l)) := by
  have hu : ∀ l, ({} : Assembler).uses (f.stream false) l = f.labels.count l := fun l => Nat.zero_add _
  unfold ofFragment
  rcases f.emits h {} with ⟨ho, hr⟩ | ⟨l, b, ht, hr⟩
  · refine .inl ⟨nodup_iff_count_le_one.mpr fun l => hu l ▸ ho l, ?_⟩
    rw [hr]
  · refine .inr ⟨l, hu l ▸ ht, ?_⟩
    rw [hr]

theorem laidOut_of_ok (h : ofFragment f = .ok p) : f.LaidOut p := by
  have hp : f.Plain := by
    unfold ofFragment at h
    split at h
    · cases h
    · rename_i hr
      exact f.plain_of_run_ok hr
  rcases ofFragment_cases hp with ⟨hn, heq⟩ | ⟨l, -, heq⟩
  · rw [heq] at h
    cases hf : ((f.stream false).foldl Assembler.put {}).finish with
    | error e =>
      rw [hf] at h
      cases h
    | ok q =>
      rw [hf] at h
      cases h
      exact (Assembler.holds_stream hn).laidOut hf
  · rw [heq] at h
    cases h

theorem ofFragment_outcome (hp : f.Plain) (hr : f.InRange) :
    (f.labels.Nodup ∧ (∀ t ∈ f.targets, t ∈ f.labels) ∧ ∃ p, ofFragment f = .ok p) ∨
    (∃ l, 2 ≤ f.labels.count l ∧ ofFragment f = .error (.error (.redefined l))) ∨
    ∃ t ∈ f.targets, t ∉ f.labels ∧ ofFragment f = .error (.error (.undefined t)) := by
  rcases ofFragment_cases hp with ⟨hno, heq⟩ | htw
  swap
  · exact .inr (.inl htw)
  have h := Assembler.holds_stream hno
  generalize (f.stream false).foldl Assembler.put {} = a at h heq
  have hf : ∀ j ∈ a.jumps.toList, ∀ target, (a.offsets f.coldBase).get? j.1 = some target →
      fitsInt32 (target - (j.2.from f.coldBase + 4)) := by
    intro j hj target hta
    obtain ⟨pos, hpo, rfl⟩ := (h.get?_offsets _ _).mp hta
    exact hr j.1 j.2 pos ((h.jumps j.1 j.2).mp hj) hpo
  rw [Assembler.finish_eq h.base] at heq
  rcases Assembler.foldlM_resolve_cases a.joined hf with ⟨ha, code, hc⟩ | ⟨j, hj, hnn, he⟩
  · rw [hc] at heq
    refine .inl ⟨hno, fun t ht => ?_, _, heq⟩
    obtain ⟨pos, hpo⟩ := exists_stands_of_mem ht
    obtain ⟨n, hn⟩ := Option.isSome_iff_exists.mp (ha (t, pos) ((h.jumps t pos).mpr hpo))
    obtain ⟨pos', hpo', -⟩ := (h.get?_offsets t n).mp hn
    exact hpo'.mem
  · rw [he] at heq
    refine .inr (.inr ⟨j.1, ((h.jumps j.1 j.2).mp hj).mem, fun hm => ?_, heq⟩)
    obtain ⟨pos, hpo⟩ := exists_stands_of_mem hm
    rw [(h.get?_offsets j.1 _).mpr ⟨pos, hpo, rfl⟩] at hnn
    cases hnn

/-- Program layout and jump resolution. -/
theorem ofFragment_layout (f : Fragment) :
    (∀ p, ofFragment f = .ok p → f.LaidOut p) ∧
    (f.Plain → f.InRange →
      ((∃ e, ofFragment f = .error (.error e)) ↔
        ¬ f.labels.Nodup ∨ ∃ t ∈ f.targets, t ∉ f.labels) ∧
      ((∃ p, ofFragment f = .ok p) ↔
        f.labels.Nodup ∧ ∀ t ∈ f.targets, t ∈ f.labels)) := by
  refine ⟨fun p hp => laidOut_of_ok hp, fun hplain hrange => ?_⟩
  rcases ofFragment_outcome hplain hrange with
    ⟨hnodup, hall, p, hp⟩ | ⟨l, htwo, herr⟩ | ⟨t, ht, hnot, herr⟩
  · refine ⟨⟨?_, ?_⟩, ⟨fun _ => ⟨hnodup, hall⟩, fun _ => ⟨p, hp⟩⟩⟩
    · rintro ⟨e, he⟩
      rw [hp] at he
      cases he
    · rintro (hn | ⟨t, ht, hnot⟩)
      · exact (hn hnodup).elim
      · exact (hnot (hall t ht)).elim
  · have hdup : ¬ f.labels.Nodup := fun hn => by
      have := nodup_iff_count_le_one.mp hn l
      omega
    refine ⟨⟨fun _ => .inl hdup, fun _ => ⟨_, herr⟩⟩, ⟨?_, fun hn => (hdup hn.1).elim⟩⟩
    rintro ⟨p, hp⟩
    rw [herr] at hp
    cases hp
  · refine ⟨⟨fun _ => .inr ⟨t, ht, hnot⟩, fun _ => ⟨_, herr⟩⟩, ⟨?_, fun hn => (hnot (hn.2 t ht)).elim⟩⟩
    rintro ⟨p, hp⟩
    rw [herr] at hp
    cases hp

/-- A jump to the cold section, which leads back and has a piece of the main section inside. -/
def crossing : Fragment :=
  .group [.label "top", .jump "far",
    .inSection .cold (.group [.label "far", .inSection .main (.instr .ret), .jumpSite "top" "site"])]

theorem ofFragment_layout_crossing : crossing.Plain ∧ crossing.InRange ∧
    ∃ p, ofFragment crossing = .ok p ∧ crossing.LaidOut p ∧ p.code.size = 21 ∧
      p.labels.get? "site" = some 17 := by
  have hplain : crossing.Plain := by
    simp only [crossing, Fragment.Plain, Fragment.PlainAll, and_true, true_and, or_true, true_or]
    exact ⟨[0xC3], by decide⟩
  have hrange : crossing.InRange := Fragment.inRange_of_length (by decide +kernel)
  obtain ⟨p, hp⟩ := ((ofFragment_layout crossing).2 hplain hrange).2.mpr (by decide +kernel)
  have hlaid := (ofFragment_layout crossing).1 p hp
  refine ⟨hplain, hrange, p, hp, hlaid, ?_, ?_⟩
  · rw [hlaid.size]
    decide +kernel
  · exact (hlaid.labels "site" 17).mpr ⟨⟨true, 1⟩, ⟨(crossing.stream false).take 4,
      .jumpSite "top" "site", [], 1, rfl, rfl, by decide +kernel⟩, by decide +kernel⟩

end Program

/-! ## Patch sites -/

/-- At `n` stands the displacement of a jump of the cold section, which leads to the label `target`. -/
structure Patchable (p : Program) (target : String) (n : Nat) : Prop where
  opcode : p.code[n - 1]? = some 0xE9
  cold : p.coldOffset < n
  size : n + 4 ≤ p.code.size
  leads : ∃ m, p.labels.get? target = some m ∧ (n + 4 : Int) + signedOfBytes (fieldAt p.code n) = m

namespace Fragment

variable {f : Fragment} {p : Program} {before after before' after' : List (Bool × Fragment)}
  {t s t' s' : String}

theorem pieces_cases (h : before ++ e :: after = before' ++ e' :: after') :
    (∃ mid, before' = before ++ e :: mid) ∨ (before = before' ∧ e = e') ∨
      ∃ mid, before = before' ++ e' :: mid := by
  rcases append_eq_append_iff.mp h with ⟨mid, hb, hr⟩ | ⟨mid, hb, hr⟩
  · cases mid with
    | nil =>
      cases hr
      exact .inr (.inl ⟨by simpa using hb.symm, rfl⟩)
    | cons x mid =>
      cases hr
      exact .inl ⟨mid, hb⟩
  · cases mid with
    | nil =>
      cases hr
      exact .inr (.inl ⟨by simpa using hb, rfl⟩)
    | cons x mid =>
      cases hr
      exact .inr (.inr ⟨mid, hb⟩)

theorem length_bytesIn_le (cold : Bool) (before : List (Bool × Fragment)) (g : Fragment)
    (mid : List (Bool × Fragment)) :
    (bytesIn cold before).length + g.raw.length ≤ (bytesIn cold (before ++ (cold, g) :: mid)).length := by
  rw [bytesIn_append, ← singleton_append, bytesIn_append, bytesIn_singleton, if_pos rfl]
  simp only [length_append]
  omega

theorem le_coldBase (f : Fragment) : (bytesIn false (f.stream false)).length ≤ f.coldBase := by
  unfold coldBase
  omega

theorem field_misses (hst : f.stream false = before ++ (true, .jumpSite t s) :: after)
    (hp : Stands field? (f.stream false) name pos) :
    f.coldBase + (bytesIn true before).length < pos.from f.coldBase ∨
      pos.from f.coldBase + 4 ≤ f.coldBase + (bytesIn true before).length := by
  have hle := hp.field_le
  obtain ⟨cold, offset⟩ := pos
  cases cold with
  | false =>
    have hba := f.le_coldBase
    simp only [Position.from, Bool.false_eq_true, if_false] at hle ⊢
    omega
  | true =>
    obtain ⟨before', g, after', o, hst', hg, ho⟩ := hp
    simp only [Position.from, if_true] at hst' ho ⊢
    have hl := length_raw_of_field? hg
    rcases pieces_cases (hst.symm.trans hst') with ⟨mid, rfl⟩ | ⟨rfl, heq⟩ | ⟨mid, rfl⟩
    · have hb := length_bytesIn_le true before (.jumpSite t s) mid
      simp only [raw, length_cons] at hb
      omega
    · cases heq
      cases hg
      omega
    · have hb := length_bytesIn_le true before' g mid
      omega

namespace LaidOut

variable (h : f.LaidOut p) (hst : f.stream false = before ++ (true, .jumpSite t s) :: after)

include h hst

theorem site : p.labels.get? s = some (f.coldBase + (bytesIn true before).length + 1) := by
  refine (h.labels s _).mpr ⟨⟨true, (bytesIn true before).length + 1⟩,
    ⟨before, _, after, 1, hst, rfl, rfl⟩, ?_⟩
  simp only [Position.from, if_true]
  omega

theorem patchable (hn : p.labels.get? s = some n) : Patchable p t n := by
  cases (h.site hst).symm.trans hn
  obtain ⟨m, hm, hs, hl⟩ := h.fields t ⟨true, (bytesIn true before).length + 1⟩
    ⟨before, _, after, 1, hst, rfl, rfl⟩
  have hf : Position.from f.coldBase ⟨true, (bytesIn true before).length + 1⟩ =
      f.coldBase + (bytesIn true before).length + 1 := by
    simp only [Position.from, if_true]
    omega
  rw [hf] at hs hl
  refine ⟨?_, by rw [h.coldOffset]; omega, hs, m, hm, hl⟩
  rw [Nat.add_sub_cancel, h.others _ fun t' pos hp => field_misses hst hp]
  have hb := f.le_coldBase
  have hpa : (bytesIn false (f.stream false) ++
      replicate (f.coldBase - (bytesIn false (f.stream false)).length) (0xCC : UInt8)).length =
        f.coldBase := by
    rw [length_append, length_replicate]
    omega
  rw [emitted, getElem?_append_right (by omega), hpa, hst, bytesIn_append,
    getElem?_append_right (by omega), Nat.add_sub_cancel_left, Nat.sub_self,
    ← singleton_append, bytesIn_append, bytesIn_singleton]
  rfl

theorem site_ne (hst' : f.stream false = before' ++ (true, .jumpSite t' s') :: after') (hne : s ≠ s') (hn : p.labels.get? s = some n) (hn' : p.labels.get? s' = some n') : n ≠ n' := by
  cases (h.site hst).symm.trans hn
  cases (h.site hst').symm.trans hn'
  rcases pieces_cases (hst.symm.trans hst') with ⟨mid, rfl⟩ | ⟨-, heq⟩ | ⟨mid, rfl⟩
  · have := length_bytesIn_le true before (.jumpSite t s) mid
    simp only [raw, length_cons] at this
    omega
  · cases heq
    exact absurd rfl hne
  · have := length_bytesIn_le true before' (.jumpSite t' s') mid
    simp only [raw, length_cons] at this
    omega

end LaidOut

theorem exists_streamAll (hg : g ∈ fs) (he : stream cold g = [e]) :
    ∃ before after, streamAll cold fs = before ++ e :: after := by
  induction fs with
  | nil => cases hg
  | cons f fs ih =>
    rcases mem_cons.mp hg with rfl | hg
    · exact ⟨[], streamAll cold fs, by rw [streamAll, he]; rfl⟩
    · obtain ⟨before, after, heq⟩ := ih hg
      exact ⟨stream cold f ++ before, after, by rw [streamAll, heq, append_assoc]⟩

end Fragment

variable {ε : Type} {site target addr : Word} {d : Int} {p : PatchSite}

/-- A signed 32-bit displacement that leads from the end of its field to a target. -/
def Leads (site : Word) (d : Int) (target : Word) : Prop :=
  -0x80000000 ≤ d ∧ d < 0x80000000 ∧ site + 4 + Word.ofInt d = target

theorem signed_ofInt (h0 : -0x80000000 ≤ d) (h1 : d < 0x80000000) : Word.signed (Word.ofInt d) = d := by
  unfold Word.signed Word.ofInt
  rw [BitVec.toInt_ofInt, Int.bmod_def]
  omega

theorem displacement_eq_ok :
    (displacement site target : Except (PatchError ε) Int) = .ok d ↔ Leads site d target := by
  have hs {w : Word} : target - (site + 4) = w ↔ site + 4 + w = target := by
    rw [UInt64.sub_eq_iff_eq_add, UInt64.add_comm w, eq_comm]
  unfold displacement Leads
  dsimp only
  constructor
  · intro h
    split at h
    · rename_i hf
      cases h
      obtain ⟨h0, h1⟩ := of_decide_eq_true hf
      exact ⟨h0, h1, hs.mp (Word.ofInt_signed _).symm⟩
    · cases h
  · rintro ⟨h0, h1, hl⟩
    have hf : fitsInt32 d = true := decide_eq_true ⟨h0, h1⟩
    rw [hs.mpr hl, signed_ofInt h0 h1, if_pos hf]

theorem displacement_eq_error (h : displacement site target = .error e) :
    e = .outOfRange target site ∧ ∀ d, ¬ Leads site d target := by
  refine ⟨?_, fun d hd => ?_⟩
  · unfold displacement at h
    dsimp only at h
    split at h <;> cases h
    rfl
  · rw [displacement_eq_ok.mpr hd] at h
    cases h

structure Write (ε : Type) where
  addr : Word
  data : List UInt8
  answer : Except ε Unit

/-- A writer accepts or refuses each write, with regard to those before. -/
abbrev Writer (ε : Type) := List (Write ε) → Word → List UInt8 → Except ε Unit

def Writer.write (w : Writer ε) (addr : Word) (data : List UInt8) (log : List (Write ε)) :
    Except ε Unit × List (Write ε) :=
  (w log addr data, log ++ [⟨addr, data, w log addr data⟩])

def PatchSite.patchAll (w : Writer ε) (p : PatchSite) (targets : List Word) (log : List (Write ε)) :
    List (Except (PatchError ε) Unit) × PatchSite × List (Write ε) :=
  match targets with
  | [] => ([], p, log)
  | target :: targets =>
    let (r, p, log) := p.patch target w.write log
    let (rs, p, log) := p.patchAll w targets log
    (r :: rs, p, log)

variable {w : Writer ε} {log log' : List (Write ε)} {p' : PatchSite} {targets : List Word}
  {r : Except (PatchError ε) Unit} {rs : List (Except (PatchError ε) Unit)}

/-- A call of an unused site finds no displacement, or its write is refused or accepted. -/
inductive Patched (w : Writer ε) (p : PatchSite) (target : Word) (log : List (Write ε)) :
    Except (PatchError ε) Unit → PatchSite → List (Write ε) → Prop
  | far (hfar : ∀ d, ¬ Leads p.addr d target) :
      Patched w p target log (.error (.outOfRange target p.addr)) p log
  | refused {d : Int} {e : ε} (hd : Leads p.addr d target)
      (hw : w log p.addr (bytesOfInt 4 d) = .error e) :
      Patched w p target log (.error (.write p.addr e)) p
        (log ++ [⟨p.addr, bytesOfInt 4 d, .error e⟩])
  | done {d : Int} (hd : Leads p.addr d target) (hw : w log p.addr (bytesOfInt 4 d) = .ok ()) :
      Patched w p target log (.ok ()) { p with used := true }
        (log ++ [⟨p.addr, bytesOfInt 4 d, .ok ()⟩])

theorem patch_cases (hp : p.used = false) (hr : p.patch target w.write log = (r, p', log')) :
    Patched w p target log r p' log' := by
  unfold PatchSite.patch at hr
  rw [if_neg (by simp [hp])] at hr
  split at hr
  · rename_i hre
    obtain ⟨rfl, hf⟩ := displacement_eq_error hre
    cases hr
    exact .far hf
  · rename_i d hre
    have hd := displacement_eq_ok.mp hre
    unfold Writer.write at hr
    cases hw : w log p.addr (bytesOfInt 4 d) with
    | error e =>
      rw [hw] at hr
      cases hr
      exact .refused hd hw
    | ok =>
      rw [hw] at hr
      cases hr
      exact .done hd hw

theorem patch_eq_ok (hp : p.used = false) : (p.patch target w.write log).1 = .ok () ↔
    ∃ d, Leads p.addr d target ∧ w log p.addr (bytesOfInt 4 d) = .ok () := by
  constructor
  · intro h
    rcases hr : p.patch target w.write log with ⟨r, p', log'⟩
    rw [hr] at h
    cases patch_cases hp hr with
    | far | refused => cases h
    | done hd hw => exact ⟨_, hd, hw⟩
  · rintro ⟨d, hd, hw⟩
    unfold PatchSite.patch Writer.write
    rw [if_neg (by simp [hp]), displacement_eq_ok.mpr hd]
    dsimp only
    rw [hw]

theorem patchAll_used (hp : p.used = true) (targets : List Word) :
    p.patchAll w targets log = (replicate targets.length (.error .used), p, log) := by
  induction targets with
  | nil => rfl
  | cons target targets ih =>
    have hr : p.patch target w.write log = (.error .used, p, log) := by
      unfold PatchSite.patch
      rw [if_pos hp]
    unfold PatchSite.patchAll
    rw [hr]
    dsimp only
    rw [ih]
    rfl

def Retryable (r : Except (PatchError ε) Unit) : Prop :=
  (∃ target site, r = .error (.outOfRange target site)) ∨ ∃ site e, r = .error (.write site e)

structure Failed (targets : List Word) (rs : List (Except (PatchError ε) Unit))
    (refused : List (Write ε)) : Prop where
  length : rs.length = targets.length
  answers : ∀ r ∈ rs, Retryable r
  writes : ∀ x ∈ refused, ∃ e, x.answer = .error e

theorem Failed.cons (h : Failed targets rs refused) (target : Word)
    (hr : Retryable r) (hw : ∀ x ∈ refused', ∃ e, x.answer = .error e) :
    Failed (target :: targets) (r :: rs) (refused' ++ refused) where
  length := congrArg Nat.succ h.length
  answers := forall_mem_cons.mpr ⟨hr, h.answers⟩
  writes := fun x hx => (mem_append.mp hx).elim (hw x) (h.writes x)

/-- How a series of calls ends: none succeeded, or one did, and those behind it were refused. -/
inductive Series (p : PatchSite) (targets : List Word) (log : List (Write ε)) :
    List (Except (PatchError ε) Unit) → PatchSite → List (Write ε) → Prop
  | unused {rs : List (Except (PatchError ε) Unit)} {refused : List (Write ε)}
      (hfailed : Failed targets rs refused) : Series p targets log rs p (log ++ refused)
  | used {before after : List Word} {target : Word} {rs : List (Except (PatchError ε) Unit)}
      {refused : List (Write ε)} {data : List UInt8} (htargets : targets = before ++ target :: after)
      (hfailed : Failed before rs refused) (hlen : data.length = 4)
      (hleads : Leads p.addr (signedOfBytes data) target) :
      Series p targets log (rs ++ .ok () :: replicate after.length (.error .used))
        { p with used := true } (log ++ refused ++ [⟨p.addr, data, .ok ()⟩])

theorem Series.cons (target : Word) (hr : Retryable r) (hw : ∀ x ∈ refused, ∃ e, x.answer = .error e)
    (h : Series p targets (log ++ refused) rs p' log') :
    Series p (target :: targets) log (r :: rs) p' log' := by
  cases h with
  | unused hf =>
    rw [append_assoc]
    exact .unused (hf.cons target hr hw)
  | used ht hf hle hl =>
    rw [append_assoc log]
    exact .used (congrArg (target :: ·) ht) (hf.cons target hr hw) hle hl

theorem patchAll_cases (hp : p.used = false) (hr : p.patchAll w targets log = (rs, p', log')) :
    Series p targets log rs p' log' := by
  induction targets generalizing log rs with
  | nil =>
    cases hr
    have hf : Failed [] [] ([] : List (Write ε)) := ⟨rfl, by simp, by simp⟩
    simpa using Series.unused (p := p) hf
  | cons target targets ih =>
    unfold PatchSite.patchAll at hr
    rcases hfi : p.patch target w.write log with ⟨r, p1, log1⟩
    rw [hfi] at hr
    dsimp only at hr
    rcases hm : p1.patchAll w targets log1 with ⟨rs', p2, log2⟩
    rw [hm] at hr
    cases hr
    cases patch_cases hp hfi with
    | far =>
      exact Series.cons target (.inl ⟨_, _, rfl⟩) (forall_mem_nil _) (by simpa using ih hm)
    | refused => exact Series.cons target (.inr ⟨_, _, rfl⟩) (by simp) (ih hm)
    | @done d hd =>
      rw [patchAll_used rfl] at hm
      cases hm
      have hb : signedOfBytes (bytesOfInt 4 d) = d := by
        rw [signedOfBytes_bytesOfInt (by decide), Int.bmod_def]
        obtain ⟨h0, h1, -⟩ := hd
        omega
      have hf : Failed [] [] ([] : List (Write ε)) := ⟨rfl, by simp, by simp⟩
      simpa using Series.used (p := p) rfl hf (length_bytesOfInt 4 d) (hb.symm ▸ hd)

/-- **Patch sites are redirected once.** A displacement is found if and only if a signed 32-bit one
leads to the target. A call of an unused site succeeds exactly if it has a displacement and its write is
accepted. Of any series of calls of a new site, with any targets and any writer, all fail and leave the
site unused; or one succeeds after failed ones, with its own four bytes as the only accepted write, and
all calls behind it are refused without a write. -/
theorem patches_redirect_once {ε : Type} (addr : Word) :
    (∀ (target : Word) (d : Int),
      (displacement addr target : Except (PatchError ε) Int) = .ok d ↔ Leads addr d target) ∧
    ∀ w : Writer ε, (∀ target log, (PatchSite.patch { addr } target w.write log).1 = .ok () ↔
        ∃ d, Leads addr d target ∧ w log addr (bytesOfInt 4 d) = .ok ()) ∧
      ∀ targets log, let (rs, p, log') := PatchSite.patchAll w { addr } targets log
        Series { addr } targets log rs p log' :=
  ⟨fun _ _ => displacement_eq_ok, fun _ => ⟨fun _ _ => patch_eq_ok rfl,
    fun _ _ => patchAll_cases rfl rfl⟩⟩

/-- The first target is too far away, the first write is refused, and the site wraps around. -/
theorem patches_redirect_once_retried :
    let w : Writer Unit := fun log _ _ => if log.isEmpty then .error () else .ok ()
    let calls := PatchSite.patchAll w { addr := 0xFFFFFFFFFFFFFFF0 } [0x80000000, 4, 4, 8] []
    calls.1 = [.error (.outOfRange 0x80000000 0xFFFFFFFFFFFFFFF0),
      .error (.write 0xFFFFFFFFFFFFFFF0 ()), .ok (), .error .used] ∧
    Series { addr := 0xFFFFFFFFFFFFFFF0 } [0x80000000, 4, 4, 8] [] calls.1 calls.2.1 calls.2.2 :=
  ⟨rfl, ((patches_redirect_once _).2 _).2 _ _⟩

end TraceCompiler.Machine
