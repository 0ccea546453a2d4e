import Mathlib.Data.List.Forall2
import TraceCompiler.Proofs.Computation
import TraceCompiler.Proofs.Machine.Execution
import TraceCompiler.Runner.Options
import TraceCompiler.Text.ByteSize

/-! # Values on the command line

The text of a value reads as the value again, with blanks around it or not; that of a size need not.
-/

namespace TraceCompiler

open List

/-! ## Digits -/

theorem mem_toDigits (hb : 1 < b) (hc : c ∈ Nat.toDigits b n) : ∃ m < b, c = m.digitChar := by
  induction n using Nat.strongRecOn with
  | ind n ih =>
    rw [Nat.toDigits_eq_if hb] at hc
    split at hc
    · exact ⟨n, ‹_›, mem_singleton.mp hc⟩
    · rcases mem_append.mp hc with hc | hc
      · exact ih _ (Nat.div_lt_self (by omega) hb) hc
      · exact ⟨_, Nat.mod_lt _ (by omega), mem_singleton.mp hc⟩

theorem toDigits_head (hn : 0 < n) : (Nat.toDigits 10 n).head? ≠ some '0' := by
  induction n using Nat.strongRecOn with
  | ind n ih =>
    rw [Nat.toDigits_eq_if (by decide)]
    split
    · have : ∀ m < 10, 0 < m → [m.digitChar].head? ≠ some '0' := by decide
      exact this n ‹_› hn
    · rw [head?_append_of_ne_nil _ (Nat.toDigits_ne_nil)]
      exact ih _ (by omega) (by omega)

namespace Literal

theorem readDigits_append (b : Nat) (u : Bool) (a : Nat) (cs ds : List Char) :
    readDigits b u a (cs ++ ds) = readDigits b u a cs >>= (readDigits b u · ds) := by
  induction cs generalizing a with
  | nil => rfl
  | cons c cs ih =>
    simp only [cons_append, readDigits]
    split
    · exact ih a
    · split
      · rfl
      · split
        · exact ih _
        · rfl

theorem digitChar_facts : ∀ m < 16, Text.digitValue? 16 m.digitChar = some m ∧
    m.digitChar ∉ ['_', '-', '+'] := by decide

theorem readDigits_toDigits (hb : 1 < b) (hb' : b ≤ 16) (hn : n < 0x10000000000000000) :
    readDigits b u 0 (Nat.toDigits b n) = .ok n := by
  have hd (a m : Nat) (hm : m < b) (hlt : a * b + m < 0x10000000000000000) :
      readDigits b u a [m.digitChar] = .ok (a * b + m) := by
    obtain ⟨hv, hu⟩ := digitChar_facts m (by omega)
    have hv : Text.digitValue? b m.digitChar = some m := by
      unfold Text.digitValue? at hv ⊢
      grind
    simp_all [readDigits]
  induction n using Nat.strongRecOn with
  | ind n ih =>
    have hdm := Nat.div_add_mod' n b
    rw [Nat.toDigits_eq_if hb]
    split
    · simpa using hd 0 n ‹_› (by simpa using hn)
    · rw [readDigits_append, ih _ (Nat.div_lt_self (by omega) hb) (Nat.lt_of_le_of_lt (Nat.div_le_self n b) hn)]
      refine (hd _ _ (Nat.mod_lt _ (by omega)) ?_).trans ?_
      · omega
      · rw [hdm]

theorem notMem_toDigits (hb : 1 < b) (hb' : b ≤ 16) (hc : c ∈ ['_', '-', '+']) : c ∉ Nat.toDigits b n := by
  intro hm
  obtain ⟨m, hm, rfl⟩ := mem_toDigits hb hm
  exact (digitChar_facts m (by omega)).2 hc

theorem readMarked_decimal (hn : n < 0x10000000000000000) : readMarked (Nat.toDigits 10 n) = .ok n := by
  rcases Nat.eq_zero_or_pos n with rfl | hp
  · decide
  · have hrd : readDigits 10 true 0 _ = _ := readDigits_toDigits (by decide) (by decide) hn
    have hu : '_' ∉ Nat.toDigits 10 n := notMem_toDigits (by decide) (by decide) (by decide)
    have hh := toDigits_head hp
    have hne := Nat.toDigits_ne_nil (n := n) (b := 10)
    unfold readMarked
    split
    · simp_all
    · split <;> simp_all
      rfl

theorem readMarked_hex (hn : n < 0x10000000000000000) :
    readMarked ('0' :: 'x' :: Nat.toDigits 16 n) = .ok n := by
  have hrd : readDigits 16 true 0 _ = _ := readDigits_toDigits (by decide) (by decide) hn
  have hu : '_' ∉ Nat.toDigits 16 n := notMem_toDigits (by decide) (by decide) (by decide)
  cases hd : Nat.toDigits 16 n with
  | nil => exact absurd hd Nat.toDigits_ne_nil
  | cons d r =>
    rw [hd] at hrd hu
    unfold readMarked
    simp_all [lower]
    rfl

theorem readSigned_toString (hl : -0x8000000000000000 ≤ i) (hh : i < 0x8000000000000000) :
    readSigned (toString i) = .ok i := by
  have hs (n : Nat) : splitSign (Nat.toDigits 10 n) = (false, Nat.toDigits 10 n) := by
    have hm : '-' ∉ Nat.toDigits 10 n := notMem_toDigits (by decide) (by decide) (by decide)
    have hp : '+' ∉ Nat.toDigits 10 n := notMem_toDigits (by decide) (by decide) (by decide)
    unfold splitSign
    split <;> simp_all
  unfold readSigned withSign
  rw [Int.toString_eq_repr]
  cases i with
  | ofNat n =>
    have ht : (Int.ofNat n).repr.toList = Nat.toDigits 10 n := by simp [Int.repr]
    have hn : n < 0x8000000000000000 := Int.ofNat_lt.mp hh
    rw [ht, hs]
    dsimp only
    rw [readMarked_decimal (by omega)]
    simp only [Bool.false_eq_true, if_false, if_pos hn]
    rfl
  | negSucc n =>
    have ht : (Int.negSucc n).repr.toList = '-' :: Nat.toDigits 10 (n + 1) := by simp [Int.repr]
    rw [ht, splitSign]
    dsimp only
    rw [readMarked_decimal (by omega)]
    simp only [if_true, if_pos (by omega : n + 1 ≤ 0x8000000000000000)]
    rfl

end Literal

namespace Runner

theorem readValue_text (k : Kind) (w : Word)
    (hf : k = .float → Literal.readReal (Decimal.general.text w) = .ok w) :
    readValue k (valueText k w) = .ok w := by
  have hu : (Literal.readUnsigned (Text.hex w.toNat)).map (fun n => Word.ofInt n) = .ok w := by
    have ht : (Text.hex w.toNat).toList = '0' :: 'x' :: Nat.toDigits 16 w.toNat := by
      simp [Text.hex, Text.hexDigits]
    rw [Literal.readUnsigned, ht, Literal.readMarked_hex w.toNat_lt]
    change Except.ok (Word.ofInt w.toNat) = _
    refine congrArg Except.ok (UInt64.toNat_inj.mp ?_)
    have := Word.toNat_ofInt w.toNat
    have := w.toNat_lt
    omega
  have hs : (Literal.readSigned (toString w.signed)).map Word.ofInt = .ok w := by
    obtain ⟨hl, hh⟩ := Word.signed_range w
    rw [Literal.readSigned_toString hl hh]
    exact congrArg Except.ok (Word.ofInt_signed w)
  cases k with
  | float => exact hf rfl
  | ref => exact hu
  | _ => exact hs

/-! ## The characters of a value -/

def Solid (s : String) : Prop := ∀ c ∈ s.toList, c ≠ ',' ∧ Text.isSpace c = false

instance (s : String) : Decidable (Solid s) := decidableBAll _ _

@[simp] theorem solid_append : Solid (s ++ t) ↔ Solid s ∧ Solid t := by
  rw [Solid, String.toList_append, forall_mem_append]
  rfl

theorem solid_ite {p : Prop} [Decidable p] (hs : Solid s) (ht : Solid t) : Solid (if p then s else t) := by
  split <;> assumption

theorem solid_digitChar : ∀ m < 16, m.digitChar ≠ ',' ∧ Text.isSpace m.digitChar = false := by decide

theorem solid_toDigits (hb : 1 < b) (hb' : b ≤ 16) : Solid (String.ofList (Nat.toDigits b n)) := by
  intro c hc
  rw [String.toList_ofList] at hc
  obtain ⟨m, hm, rfl⟩ := mem_toDigits hb hc
  exact solid_digitChar m (by omega)

theorem solid_repr (n : Nat) : Solid n.repr := by
  rw [Nat.repr_eq_ofList_toDigits]
  exact solid_toDigits (by decide) (by decide)

theorem solid_digitsText (ds : List Nat) : Solid (Decimal.digitsText ds) := by
  intro c hc
  rw [Decimal.digitsText, String.toList_ofList] at hc
  obtain ⟨d, -, rfl⟩ := mem_map.mp hc
  by_cases hd : d < 16
  · exact solid_digitChar d hd
  · have he : d.digitChar = '*' := by
      unfold Nat.digitChar
      repeat rw [if_neg (by omega)]
    rw [he]
    decide

theorem solid_valueText (k : Kind) (w : Word) : Solid (valueText k w) := by
  have hs : Solid (toString w.signed) := by
    rw [Int.toString_eq_repr]
    cases w.signed with
    | ofNat n => exact solid_repr n
    | negSucc n => exact solid_append.mpr ⟨by decide, solid_repr _⟩
  have hp (n : Nat) : Solid (Text.padLeft 2 '0' n.repr) := by
    refine solid_append.mpr ⟨fun c hc => ?_, solid_repr n⟩
    rw [String.toList_ofList] at hc
    rw [eq_of_mem_replicate hc]
    decide
  have hfr (n : Nat) (d : Decimal.Digits) : Solid (if (d.digits.drop n).isEmpty then "" else
      "." ++ Decimal.digitsText (d.digits.drop n)) :=
    solid_ite (by decide) (solid_append.mpr ⟨by decide, solid_digitsText _⟩)
  have hsc (d : Decimal.Digits) : Solid d.scientific := by
    simp only [Decimal.Digits.scientific, solid_append]
    exact ⟨⟨⟨⟨solid_digitsText _, hfr 1 d⟩, by decide⟩, solid_ite (by decide) (by decide)⟩, hp _⟩
  have hpo (d : Decimal.Digits) : Solid d.positional := by
    refine solid_ite ?_ (solid_append.mpr ⟨solid_digitsText _, hfr _ d⟩)
    exact solid_append.mpr ⟨solid_append.mpr ⟨by decide, solid_digitsText _⟩, solid_digitsText _⟩
  have hf : Solid (Decimal.general.text w) :=
    solid_ite (by decide) <| solid_ite (solid_ite (by decide) (by decide)) <|
      solid_append.mpr ⟨solid_ite (by decide) (by decide), solid_ite (hsc _) (hpo _)⟩
  cases k with
  | float => exact hf
  | ref => exact solid_append.mpr ⟨by decide, solid_toDigits (by decide) (by decide)⟩
  | _ => exact hs

/-! ## Lists of values -/

theorem trimmed_solid (hs : Solid s) (hb : ∀ c ∈ pre ++ post, Text.isSpace c) :
    Text.trimmed (String.ofList (pre ++ s.toList ++ post)) = s := by
  obtain ⟨hpr, hpo⟩ := forall_mem_append.mp hb
  have hd {cs : List Char} (h : ∀ c ∈ cs, Text.isSpace c = false) : cs.dropWhile Text.isSpace = cs := by
    cases cs <;> simp_all
  have hr : (post.reverse ++ s.toList.reverse).dropWhile Text.isSpace = s.toList.reverse := by
    rw [dropWhile_append_of_pos (by simpa using hpo), hd fun c hc => (hs c (mem_reverse.mp hc)).2]
  unfold Text.trimmed
  rw [String.toList_ofList, append_assoc, dropWhile_append_of_pos hpr]
  cases hl : s.toList with
  | nil =>
    rw [nil_append, ← append_nil post, dropWhile_append_of_pos hpo]
    exact String.toList_inj.mp (by simp [hl])
  | cons c cs =>
    rw [cons_append, dropWhile_cons_of_neg (by simp [(hs c (by simp [hl])).2]), ← cons_append, ← hl,
      reverse_append, hr, reverse_reverse, String.ofList_toList]

theorem length_splitOn (cs : List Char) : (cs.splitOn ',').length = cs.count ',' + 1 := by
  induction cs with
  | nil => rfl
  | cons c cs ih =>
    rw [splitOn_cons_eq_if_modifyHead]
    split <;> simp_all

def Padded (v : Kind × Word) (s : String) : Prop :=
  ∃ pre post, (∀ c ∈ pre ++ post, Text.isSpace c) ∧ s = String.ofList (pre ++ (valueText v.1 v.2).toList ++ post)

theorem notMem_padded (h : Padded v s) : ',' ∉ s.toList := by
  obtain ⟨pre, post, hb, rfl⟩ := h
  have hc : ¬ Text.isSpace ',' := by decide
  have hs := solid_valueText v.1 v.2 ','
  grind [String.toList_ofList]

theorem padded_ne_empty (h : Padded v s) (hf : readValue v.1 (valueText v.1 v.2) = .ok v.2) : s ≠ "" := by
  rintro rfl
  obtain ⟨pre, post, -, he⟩ := h
  have ht : (valueText v.1 v.2).toList = [] := by simp_all
  rw [String.toList_eq_nil_iff.mp ht] at hf
  have hr : Literal.readReal "" = .error ⟨.real, "", .malformed⟩ := by decide
  generalize v.1 = k at hf
  cases k with
  | float => cases hr.symm.trans hf
  | _ => cases hf

theorem readValuesFrom_padded (h : Forall₂ Padded vs fields)
    (hf : ∀ v ∈ vs, v.1 = .float → Literal.readReal (Decimal.general.text v.2) = .ok v.2) :
    readValuesFrom i ((vs.map (·.1)).zip fields) = .ok (vs.map (·.2)) := by
  induction h generalizing i with
  | nil => rfl
  | cons hp _ ih =>
    obtain ⟨pre, post, hb, rfl⟩ := hp
    obtain ⟨hv, hf⟩ := forall_mem_cons.mp hf
    rw [map_cons, zip_cons_cons, readValuesFrom, trimmed_solid (solid_valueText _ _) hb,
      readValue_text _ _ hv]
    exact bind_eq_ok.mpr ⟨_, rfl, bind_eq_ok.mpr ⟨_, ih hf, rfl⟩⟩

/-- **Values written with commas between them read back**, with blanks around them or not, if the texts of
the floats among them do, and a text with another number of fields is refused. -/
theorem readValues_joined :
    (∀ (vs : List (Kind × Word)) (fields : List String), Forall₂ Padded vs fields →
      (∀ v ∈ vs, v.1 = .float → Literal.readReal (Decimal.general.text v.2) = .ok v.2) →
        readValues (vs.map (·.1)) (Text.joined "," fields) = .ok (vs.map (·.2))) ∧
      ∀ (kinds : List Kind) (s : String),
        (if s = "" then 0 else s.toList.count ',' + 1) ≠ kinds.length → ∃ e, readValues kinds s = .error e := by
  constructor
  · intro vs fields h hf
    have hl := h.length_eq
    have hread := readValuesFrom_padded (i := 0) h hf
    have hc : ∀ l ∈ fields.map String.toList, ',' ∉ l := by
      clear hf hl hread
      induction h with
      | nil => simp
      | cons hp _ ih => simpa using ⟨notMem_padded hp, by simpa using ih⟩
    have ht : (Text.joined "," fields).toList = [','].intercalate (fields.map String.toList) :=
      String.toList_intercalate
    unfold readValues
    cases h with
    | nil => rfl
    | @cons v s vs fields hp hr =>
      have hsp := splitOn_intercalate ',' hc (by simp)
      have hne : (Text.joined "," (s :: fields)).isEmpty = false := by
        refine Bool.eq_false_iff.mpr fun he => padded_ne_empty hp (readValue_text _ _ (hf v mem_cons_self)) ?_
        rw [String.isEmpty_iff] at he
        rw [← ht, he] at hsp
        simp_all
      have hid : String.ofList ∘ String.toList = id := funext fun s => String.ofList_toList
      rw [hne, ht, hsp, map_map, hid, map_id]
      simpa [hr.length_eq] using hread
  · intro kinds s h
    unfold readValues
    refine ⟨_, if_pos ?_⟩
    by_cases hs : s = ""
    · simp_all
    · simp_all [length_splitOn]

theorem readValues_joined_extremes :
    readValues [.int, .ref, .float] (Text.joined "," ["-9223372036854775808 ", " 0x0", "-0"]) =
        .ok [0x8000000000000000, 0, 0x8000000000000000] ∧
      ∃ e, readValues [.int] "" = .error e :=
  ⟨readValues_joined.1 [(.int, 0x8000000000000000), (.ref, 0), (.float, 0x8000000000000000)] _
      (.cons ⟨[], [' '], forall_mem_singleton.mpr rfl, by decide⟩
        (.cons ⟨[' '], [], forall_mem_singleton.mpr rfl, by decide⟩
          (.cons ⟨[], [], by simp, by decide⟩ .nil))) (by decide),
    readValues_joined.2 [.int] "" (by decide)⟩

end Runner

theorem ByteSize.parse_text_rounds : (parse (text 10239)).toOption ≠ some 10239 := by decide +kernel

end TraceCompiler
