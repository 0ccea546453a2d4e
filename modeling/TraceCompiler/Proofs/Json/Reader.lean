import TraceCompiler.Json.Reader
import TraceCompiler.Proofs.Computation

/-! # Reading with more input

A value that has been read stays what it is when more input follows, unless it is a number that the
input ends with (`value_append`).
-/

namespace TraceCompiler.Json

open List

variable {α : Type} {cs rest ds : List Char} {fuel n : Nat} {v : Value} {a : α}

theorem span_append (h : cs.dropWhile p ≠ []) (q : List Char) :
    (cs ++ q).takeWhile p = cs.takeWhile p ∧ (cs ++ q).dropWhile p = cs.dropWhile p ++ q := by
  induction cs with
  | nil => exact absurd rfl h
  | cons c cs ih =>
    rw [dropWhile_cons] at h
    rw [cons_append, takeWhile_cons, takeWhile_cons, dropWhile_cons, dropWhile_cons]
    split at h
    · rw [if_pos ‹_›, if_pos ‹_›, if_pos ‹_›, if_pos ‹_›, (ih h).1, (ih h).2]
      exact ⟨rfl, rfl⟩
    · rw [if_neg ‹_›, if_neg ‹_›, if_neg ‹_›, if_neg ‹_›]
      exact ⟨rfl, rfl⟩

theorem next_append (h : next cs = .ok (c, rest)) (q : List Char) :
    cs ≠ [] ∧ next (cs ++ q) = .ok (c, rest ++ q) := by
  unfold next at h ⊢
  split at h
  · cases h
  · rename_i hd
    cases h
    have hne : cs.dropWhile isBlank ≠ [] := hd ▸ cons_ne_nil _ _
    refine ⟨fun hn => ?_, ?_⟩
    · rw [hn] at hne
      exact hne rfl
    · rw [(span_append hne q).2, hd]
      rfl

/-! ## Numbers -/

theorem digits_append (h : digits cs = .ok (ds, rest)) (hne : rest ≠ []) (q : List Char) :
    digits (cs ++ q) = .ok (ds, rest ++ q) := by
  cases cs with
  | nil => cases h
  | cons c cs =>
    unfold digits at h
    dsimp only at h
    split at h
    · cases h
      obtain ⟨ht, hd⟩ := span_append hne q
      rw [← ht, ← hd]
      exact if_pos ‹_›
    · cases h

theorem wholePart_append (h : wholePart cs = .ok (ds, rest)) (hne : rest ≠ []) (q : List Char) :
    wholePart (cs ++ q) = .ok (ds, rest ++ q) := by
  unfold wholePart at h
  split at h
  · cases h
    rfl
  · rename_i hz
    have hd := digits_append h hne q
    unfold wholePart
    split
    · rename_i r heq
      cases cs with
      | nil => cases h
      | cons c cs =>
        cases heq
        exact absurd rfl (hz cs)
    · exact hd

theorem fraction_append (h : fraction cs = .ok (ds, rest)) (hne : rest ≠ []) (q : List Char) :
    cs ≠ [] ∧ fraction (cs ++ q) = .ok (ds, rest ++ q) := by
  unfold fraction at h
  split at h
  · obtain ⟨⟨ds', rest'⟩, hd, h⟩ := bind_eq_ok.mp h
    cases h
    refine ⟨cons_ne_nil _ _, ?_⟩
    exact bind_eq_ok.mpr ⟨_, digits_append hd hne q, rfl⟩
  · rename_i hp
    cases h
    cases cs with
    | nil => exact absurd rfl hne
    | cons c cs =>
      refine ⟨hne, ?_⟩
      unfold fraction
      split
      · rename_i r heq
        cases heq
        exact absurd rfl (hp cs)
      · rfl

theorem optional_append (p : Char → Bool) (h : cs ≠ []) (q : List Char) :
    optional p (cs ++ q) = ((optional p cs).1, (optional p cs).2 ++ q) := by
  cases cs with
  | nil => exact absurd rfl h
  | cons c cs =>
    rw [cons_append, optional, optional]
    split <;> rfl

theorem exponent_append (h : exponent cs = .ok (ds, rest)) (hne : rest ≠ []) (q : List Char) :
    cs ≠ [] ∧ exponent (cs ++ q) = .ok (ds, rest ++ q) := by
  cases cs with
  | nil =>
    cases h
    exact absurd rfl hne
  | cons e cs =>
    refine ⟨cons_ne_nil _ _, ?_⟩
    unfold exponent at h
    dsimp only at h
    split at h
    · rename_i he
      obtain ⟨⟨ds', rest'⟩, hd, h⟩ := bind_eq_ok.mp h
      cases h
      have hcs : cs ≠ [] := by
        rintro rfl
        cases hd
      rw [cons_append, exponent, if_pos he, optional_append _ hcs]
      exact bind_eq_ok.mpr ⟨_, digits_append hd hne q, rfl⟩
    · cases h
      exact if_neg ‹_›

theorem number_append (h : number cs = .ok (v, rest)) (hne : rest ≠ []) (q : List Char) :
    number (cs ++ q) = .ok (v, rest ++ q) := by
  unfold number at h
  have hcs : cs ≠ [] := by
    rintro rfl
    cases h
  dsimp only at h
  obtain ⟨⟨whole, cs1⟩, hw, h⟩ := bind_eq_ok.mp h
  obtain ⟨⟨frac, cs2⟩, hf, h⟩ := bind_eq_ok.mp h
  obtain ⟨⟨exp, cs3⟩, he, h⟩ := bind_eq_ok.mp h
  cases h
  obtain ⟨hn, he'⟩ := exponent_append he hne q
  obtain ⟨hn1, hf'⟩ := fraction_append hf hn q
  unfold number
  rw [optional_append _ hcs]
  dsimp only
  rw [bind_of_ok (wholePart_append hw hn1 q)]
  dsimp only
  rw [bind_of_ok hf']
  dsimp only
  rw [bind_of_ok he']
  rfl

/-! ## Strings -/

theorem word_append (h : word a ws cs = .ok (b, rest)) (q : List Char) :
    word a ws (cs ++ q) = .ok (b, rest ++ q) := by
  induction ws generalizing cs with
  | nil =>
    cases h
    rw [word]
  | cons w ws ih =>
    cases cs with
    | nil => cases h
    | cons c cs =>
      rw [word] at h
      rw [cons_append, word]
      split at h
      · rw [if_pos ‹_›]
        exact ih h
      · cases h

theorem fourDigits_append (h : fourDigits left n cs = .ok (m, rest)) (q : List Char) :
    fourDigits left n (cs ++ q) = .ok (m, rest ++ q) := by
  induction left generalizing n cs with
  | zero =>
    cases h
    rw [fourDigits]
  | succ left ih =>
    cases cs with
    | nil => cases h
    | cons c cs =>
      rw [fourDigits] at h
      rw [cons_append, fourDigits]
      split at h
      · exact ih h
      · cases h

theorem pieces_append (h : pieces fuel cs = .ok (ps, rest)) (hf : fuel ≤ fuel')
    (q : List Char) : pieces fuel' (cs ++ q) = .ok (ps, rest ++ q) := by
  induction fuel generalizing fuel' cs ps with
  | zero => cases h
  | succ fuel ih =>
    obtain ⟨fuel', rfl⟩ := Nat.exists_eq_add_one.mpr (Nat.zero_lt_of_lt hf)
    have hf := Nat.le_of_succ_le_succ hf
    cases cs with
    | nil => cases h
    | cons c cs =>
      unfold pieces at h ⊢
      dsimp only [cons_append] at h ⊢
      by_cases hq : c = '"'
      · rw [if_pos hq] at h ⊢
        cases h
        rfl
      rw [if_neg hq] at h ⊢
      by_cases hs : c = '\\'
      · rw [if_pos hs] at h ⊢
        split at h
        · cases h
        · obtain ⟨⟨n, cs1⟩, hfo, h⟩ := bind_eq_ok.mp h
          obtain ⟨⟨ps', cs2⟩, hps, h⟩ := bind_eq_ok.mp h
          cases h
          exact bind_eq_ok.mpr ⟨_, fourDigits_append hfo q, bind_eq_ok.mpr ⟨_, ih hps hf, rfl⟩⟩
        · rename_i l cs hu
          rw [cons_append]
          split
          · cases ‹_›
          · cases ‹l :: (cs ++ q) = _›
            exact absurd rfl hu
          · cases ‹l :: (cs ++ q) = _›
            split at h
            · cases h
            · obtain ⟨⟨ps', cs2⟩, hps, h⟩ := bind_eq_ok.mp h
              cases h
              exact bind_eq_ok.mpr ⟨_, ih hps hf, rfl⟩
      · rw [if_neg hs] at h ⊢
        split at h
        · cases h
        · rw [if_neg ‹_›]
          obtain ⟨⟨ps', cs2⟩, hps, h⟩ := bind_eq_ok.mp h
          cases h
          exact bind_eq_ok.mpr ⟨_, ih hps hf, rfl⟩

theorem string_append (h : string cs = .ok (s, rest)) (q : List Char) :
    string (cs ++ q) = .ok (s, rest ++ q) := by
  obtain ⟨⟨ps, cs1⟩, hps, h⟩ := bind_eq_ok.mp h
  cases h
  exact bind_eq_ok.mpr ⟨_, pieces_append hps (by simp) q, rfl⟩

/-! ## Values -/

/-- What a reader reads with some fuel stays the same with more fuel and more input, where `P` holds of
what it read and what is left. -/
def Extends (p : Nat → Nat → List Char → Except Error (α × List Char)) (P : α → List Char → Prop)
    (fuel : Nat) : Prop :=
  ∀ {depth : Nat} {cs : List Char} {a : α} {rest : List Char} {fuel' : Nat} (q : List Char),
    p fuel depth cs = .ok (a, rest) → P a rest → fuel ≤ fuel' → p fuel' depth (cs ++ q) = .ok (a, rest ++ q)

/-- Values show their end, or something follows. -/
def Ended (v : Value) (rest : List Char) : Prop := v.isDelimited = true ∨ rest ≠ []

theorem expected_append (h : expected e cs = .ok rest) (q : List Char) :
    expected e (cs ++ q) = .ok (rest ++ q) := by
  obtain ⟨⟨c, cs1⟩, hn, h⟩ := bind_eq_ok.mp h
  refine bind_eq_ok.mpr ⟨_, (next_append hn q).2, ?_⟩
  dsimp only at h ⊢
  split at h <;> cases h
  exact if_pos ‹_›

section

variable {p p' : List Char → Except Error (List α × List Char)} {close : Char} {as : List α}

theorem enclosed_append (h : enclosed close p cs = .ok (as, rest)) (q : List Char)
    (hp : ∀ cs as rest, p cs = .ok (as, rest) → p' (cs ++ q) = .ok (as, rest ++ q)) :
    enclosed close p' (cs ++ q) = .ok (as, rest ++ q) := by
  obtain ⟨⟨c, cs1⟩, hn, h⟩ := bind_eq_ok.mp h
  refine bind_eq_ok.mpr ⟨_, (next_append hn q).2, ?_⟩
  dsimp only at h ⊢
  split at h
  · cases h
    exact if_pos ‹_›
  · rw [if_neg ‹_›]
    exact hp _ _ _ h

theorem continued_append (h : continued close p a cs = .ok (as, rest)) (q : List Char)
    (hp : ∀ cs as rest, p cs = .ok (as, rest) → p' (cs ++ q) = .ok (as, rest ++ q)) :
    cs ≠ [] ∧ continued close p' a (cs ++ q) = .ok (as, rest ++ q) := by
  obtain ⟨⟨c, cs1⟩, hn, h⟩ := bind_eq_ok.mp h
  obtain ⟨hne, hn'⟩ := next_append hn q
  refine ⟨hne, bind_eq_ok.mpr ⟨_, hn', ?_⟩⟩
  dsimp only at h ⊢
  split at h
  · cases h
    exact if_pos ‹_›
  rw [if_neg ‹_›]
  split at h
  · rw [if_pos ‹_›]
    obtain ⟨⟨as', cs2⟩, has, h⟩ := bind_eq_ok.mp h
    cases h
    exact bind_eq_ok.mpr ⟨_, hp _ _ _ has, rfl⟩
  · cases h

end

theorem number_isDelimited (h : number cs = .ok (v, rest)) : v.isDelimited = false := by
  obtain ⟨_, -, h⟩ := bind_eq_ok.mp h
  obtain ⟨_, -, h⟩ := bind_eq_ok.mp h
  obtain ⟨_, -, h⟩ := bind_eq_ok.mp h
  cases h
  rfl

theorem value_extends (hi : Extends items (fun _ _ => True) fuel)
    (hf : Extends fields (fun _ _ => True) fuel) : Extends value Ended (fuel + 1) := by
  intro depth cs v rest fuel' q h he hfu
  obtain ⟨fuel', rfl⟩ := Nat.exists_eq_add_one.mpr (Nat.zero_lt_of_lt hfu)
  have hfu := Nat.le_of_succ_le_succ hfu
  rw [value] at h ⊢
  obtain ⟨⟨c, cs1⟩, hn, h⟩ := bind_eq_ok.mp h
  rw [bind_of_ok (next_append hn q).2]
  dsimp only at h ⊢
  split at h
  · obtain ⟨⟨s, cs2⟩, hs, h⟩ := bind_eq_ok.mp h
    cases h
    rw [if_pos ‹_›]
    exact bind_eq_ok.mpr ⟨_, string_append hs q, rfl⟩
  rw [if_neg ‹_›]
  split at h
  · rw [if_pos ‹_›]
    exact word_append h q
  rw [if_neg ‹_›]
  split at h
  · rw [if_pos ‹_›]
    exact word_append h q
  rw [if_neg ‹_›]
  split at h
  · rw [if_pos ‹_›]
    exact word_append h q
  rw [if_neg ‹_›]
  split at h
  · rw [if_pos ‹_›]
    refine number_append h (he.resolve_left ?_) q
    rw [number_isDelimited h]
    exact Bool.false_ne_true
  rw [if_neg ‹_›]
  split at h
  · cases h
  rw [if_neg ‹_›]
  split at h
  · obtain ⟨⟨vs, cs2⟩, hvs, h⟩ := bind_eq_ok.mp h
    cases h
    rw [if_pos ‹_›]
    exact bind_eq_ok.mpr ⟨_, enclosed_append hvs q fun _ _ _ h => hi q h trivial hfu, rfl⟩
  rw [if_neg ‹_›]
  split at h
  · obtain ⟨⟨fs, cs2⟩, hfs, h⟩ := bind_eq_ok.mp h
    cases h
    rw [if_pos ‹_›]
    exact bind_eq_ok.mpr ⟨_, enclosed_append hfs q fun _ _ _ h => hf q h trivial hfu, rfl⟩
  · cases h

theorem items_extends (hv : Extends value Ended fuel) (hi : Extends items (fun _ _ => True) fuel) :
    Extends items (fun _ _ => True) (fuel + 1) := by
  intro depth cs vs rest fuel' q h _ hf
  obtain ⟨fuel', rfl⟩ := Nat.exists_eq_add_one.mpr (Nat.zero_lt_of_lt hf)
  have hf := Nat.le_of_succ_le_succ hf
  obtain ⟨⟨v, cs1⟩, hva, h⟩ := bind_eq_ok.mp h
  obtain ⟨hne, h'⟩ := continued_append h q fun _ _ _ h => hi q h trivial hf
  exact bind_eq_ok.mpr ⟨_, hv q hva (.inr hne) hf, h'⟩

theorem fields_extends (hv : Extends value Ended fuel) (hf : Extends fields (fun _ _ => True) fuel) :
    Extends fields (fun _ _ => True) (fuel + 1) := by
  intro depth cs vs rest fuel' q h _ hfu
  obtain ⟨fuel', rfl⟩ := Nat.exists_eq_add_one.mpr (Nat.zero_lt_of_lt hfu)
  have hfu := Nat.le_of_succ_le_succ hfu
  obtain ⟨cs1, hq, h⟩ := bind_eq_ok.mp h
  obtain ⟨⟨k, cs2⟩, hk, h⟩ := bind_eq_ok.mp h
  obtain ⟨cs3, hc, h⟩ := bind_eq_ok.mp h
  obtain ⟨⟨v, cs4⟩, hva, h⟩ := bind_eq_ok.mp h
  obtain ⟨hne, h'⟩ := continued_append h q fun _ _ _ h => hf q h trivial hfu
  exact bind_eq_ok.mpr ⟨_, expected_append hq q, bind_eq_ok.mpr ⟨_, string_append hk q,
    bind_eq_ok.mpr ⟨_, expected_append hc q, bind_eq_ok.mpr ⟨_, hv q hva (.inr hne) hfu, h'⟩⟩⟩⟩

theorem value_append (fuel : Nat) : Extends value Ended fuel ∧ Extends items (fun _ _ => True) fuel ∧
    Extends fields (fun _ _ => True) fuel := by
  induction fuel with
  | zero =>
    refine ⟨?_, ?_, ?_⟩
    all_goals
      intro _ _ _ _ _ _ h
      cases h
  | succ fuel ih =>
    obtain ⟨hv, hi, hf⟩ := ih
    exact ⟨value_extends hi hf, items_extends hv hi, fields_extends hv hf⟩

theorem value_brace (h : value (fuel + 1) depth ('{' :: cs) = .ok (v, rest)) : v.isDelimited = true := by
  have hn : next ('{' :: cs) = .ok ('{', cs) := rfl
  rw [value, bind_of_ok hn] at h
  dsimp only at h
  rw [if_neg (by decide), if_neg (by decide), if_neg (by decide), if_neg (by decide),
    if_neg (by decide)] at h
  split at h
  · cases h
  · rw [if_neg (by decide), if_pos rfl] at h
    obtain ⟨_, -, h⟩ := bind_eq_ok.mp h
    cases h
    rfl

theorem read_take (h : read (123 :: bs) = .ok (v, bs.length + 1)) (hn : n ≤ bs.length) :
    ∃ e, read ((123 :: bs).take n) = .error e := by
  cases n with
  | zero => exact ⟨.nothing, rfl⟩
  | succ n =>
    cases hr : read ((123 :: bs).take (n + 1)) with
    | error e => exact ⟨e, rfl⟩
    | ok r =>
      have hs := congrArg (map fun b : UInt8 => Char.ofNat b.toNat)
        (take_append_drop (n + 1) (123 :: bs))
      rw [map_append] at hs
      unfold read at h hr
      dsimp only at h hr
      split at h
      · cases h
      split at hr
      · cases hr
      obtain ⟨⟨v1, rest1⟩, hva, h⟩ := bind_eq_ok.mp h
      obtain ⟨⟨v2, rest2⟩, hv, -⟩ := bind_eq_ok.mp hr
      -- the same value is read from the whole text, and leaves what was cut off
      have hw := (value_append _).1 (map (fun b : UInt8 => Char.ofNat b.toNat)
        ((123 :: bs).drop (n + 1))) hv (.inl (value_brace hv)) (Nat.succ_le_succ (Nat.le.intro
          ((length_append ..).symm.trans (congrArg length hs))))
      rw [hs, hva] at hw
      cases hw
      have hu := congrArg Prod.snd (Except.ok.inj h)
      dsimp only at hu
      rw [if_pos (value_brace hv)] at hu
      simp only [length_map, length_cons, length_append, length_drop] at hu
      omega

end TraceCompiler.Json
