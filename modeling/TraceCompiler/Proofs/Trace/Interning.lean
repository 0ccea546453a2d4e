import Mathlib.Data.List.Dedup
import Mathlib.Data.List.Induction
import TraceCompiler.Proofs.Number.Bytes
import TraceCompiler.Trace.Descriptor

/-! # Interned descriptors

A store files signatures under their texts.
-/

namespace TraceCompiler

open List

namespace Kind

theorem text_ne_nil (k : Kind) : k.text.toList ≠ [] := by
  cases k <;> simp [text]

theorem notMem_text (hc : c = ',' ∨ c = '>') (k : Kind) : c ∉ k.text.toList := by
  cases k with
  | other n =>
    have hn : c ∉ Nat.toDigits 10 (n.val + 4) := by
      intro hm
      have hd := Nat.isDigit_of_mem_toDigits (by decide) (by decide) hm
      rcases hc with rfl | rfl <;> cases hd
    rcases hc with rfl | rfl <;> simpa [text] using hn
  | _ => rcases hc with rfl | rfl <;> simp [text]

theorem text_injective : Function.Injective text := by
  intro k k' h
  have hl := congrArg String.toList h
  cases k with
  | other n =>
    cases k' with
    | other n' =>
      have hr : (n.val + 4).repr = (n'.val + 4).repr := by simpa [text] using h
      rw [Fin.ext (Nat.add_right_cancel (repr_injective hr))]
    | _ => simp [text] at hl
  | _ => cases k' <;> simp [text] at hl ⊢

end Kind

namespace Signature

theorem toList_text (s : Signature) : s.text.toList =
    ('(' :: [','].intercalate (s.args.map (·.text.toList)) ++ [')', '-']) ++
      '>' :: s.result.text.toList := by
  simp [text, Text.joined, String.toList_intercalate, Function.comp_def]

theorem notMem_args (ks : List Kind) : '>' ∉ [','].intercalate (ks.map (·.text.toList)) := by
  induction ks with
  | nil => simp
  | cons k ks ih =>
    cases ks with
    | nil => simpa using k.notMem_text (.inr rfl)
    | cons k' ks =>
      simp only [map_cons, intercalate_cons_cons, mem_append, not_or] at ih ⊢
      exact ⟨⟨k.notMem_text (.inr rfl), by decide⟩, ih⟩

/-- No argument's text is empty or has a comma, so the joined texts tell the arguments. -/
theorem args_injective {ks ks' : List Kind}
    (h : [','].intercalate (ks.map (·.text.toList)) = [','].intercalate (ks'.map (·.text.toList))) :
    ks = ks' := by
  have hs {ks : List Kind} (hne : ks ≠ []) :
      ([','].intercalate (ks.map (·.text.toList))).splitOn ',' = ks.map (·.text.toList) := by
    refine splitOn_intercalate ',' (fun l hl => ?_) (by simpa using hne)
    obtain ⟨k, -, rfl⟩ := mem_map.mp hl
    exact k.notMem_text (.inl rfl)
  have he {ks : List Kind} (hks : [','].intercalate (ks.map (·.text.toList)) = []) : ks = [] := by
    cases ks with
    | nil => rfl
    | cons k ks => cases ks <;> simp [intercalate_cons_cons, k.text_ne_nil] at hks
  by_cases hks : ks = []
  · subst hks
    exact (he (h.symm.trans rfl)).symm
  by_cases hks' : ks' = []
  · subst hks'
    exact he (h.trans rfl)
  have hm := (hs hks).symm.trans ((congrArg _ h).trans (hs hks'))
  exact map_injective_iff.mpr (fun _ _ hk => Kind.text_injective (String.toList_inj.mp hk)) hm

theorem text_injective : Function.Injective text := by
  rintro ⟨args, result⟩ ⟨args', result'⟩ h
  have hl := congrArg String.toList h
  rw [toList_text, toList_text] at hl
  have ha : '>' ∉ '(' :: [','].intercalate (args.map (·.text.toList)) ++ [')', '-'] := by
    simpa using notMem_args args
  obtain ⟨hin, -, hr⟩ := (append_cons_inj_of_notMem ha (result.notMem_text (.inr rfl))).mp hl
  have hin := append_cancel_right (cons.inj hin).2
  rw [args_injective hin, Kind.text_injective (String.toList_inj.mp hr)]

end Signature

theorem Shape.key_injective : Function.Injective Shape.key := by
  intro s s' h
  cases s with
  | call sig =>
    cases s' with
    | call sig' => rw [Signature.text_injective (Key.call.inj h)]
    | _ => cases h
  | _ =>
    cases s' <;> cases h
    rfl

namespace Descriptors

variable {c : Descriptors} {s : Shape} {d : Interned} {shapes : List Shape} {name : String}
  {rs : List (Shape × String)}

def after (rs : List (Shape × String)) : Descriptors :=
  rs.foldl (fun c r => (c.intern r.1 r.2).2) {}

def answer (rs : List (Shape × String)) (r : Shape × String) : Interned :=
  ((after rs).intern r.1 r.2).1

def shapeCount (rs : List (Shape × String)) : Nat := (rs.map Prod.fst).dedup.length

structure Filed (c : Descriptors) (shapes : List Shape) : Prop where
  nodup : (c.all.map (·.shape)).Nodup
  mem : ∀ s, s ∈ c.all.map (·.shape) ↔ s ∈ shapes
  indexed : ∀ (i : Nat) (d : Interned), c.all[i]? = some d → d.index = i

@[simp] theorem after_concat (rs : List (Shape × String)) (r : Shape × String) :
    after (rs ++ [r]) = ((after rs).intern r.1 r.2).2 := by
  simp [after]

theorem find?_eq_none : c.find? s = none ↔ s ∉ c.all.map (·.shape) := by
  simp [find?, Shape.key_injective.eq_iff]

theorem Filed.find?_of_mem (hc : c.Filed shapes) (hd : d ∈ c.all) : c.find? d.shape = some d := by
  cases hf : c.find? d.shape with
  | none => exact absurd (mem_map_of_mem hd) (find?_eq_none.mp hf)
  | some d' =>
    have hk : d'.shape = d.shape := Shape.key_injective (by simpa using find?_some hf)
    rw [inj_on_of_nodup_map hc.nodup (mem_of_find?_eq_some hf) hd hk]

theorem intern_cases (c : Descriptors) (s : Shape) (name : String) :
    (∃ d ∈ c.all, d.shape = s ∧ c.intern s name = (d, c)) ∨ s ∉ c.all.map (·.shape) ∧
        c.intern s name = (⟨s, name, c.size⟩, ⟨c.all ++ [⟨s, name, c.size⟩]⟩) := by
  unfold intern
  cases hf : c.find? s with
  | none => exact .inr ⟨find?_eq_none.mp hf, rfl⟩
  | some d =>
    exact .inl ⟨d, mem_of_find?_eq_some hf, Shape.key_injective (by simpa using find?_some hf), rfl⟩

theorem Filed.intern (hc : c.Filed shapes) (s : Shape) (name : String) :
    (c.intern s name).2.Filed (shapes ++ [s]) := by
  rcases c.intern_cases s name with ⟨d, hd, rfl, heq⟩ | ⟨hn, heq⟩
  · rw [heq]
    refine ⟨hc.nodup, fun s' => ?_, hc.indexed⟩
    rw [hc.mem, mem_append, mem_singleton]
    refine ⟨.inl, fun h => h.elim id ?_⟩
    rintro rfl
    exact (hc.mem _).mp (mem_map_of_mem hd)
  · rw [heq]
    refine ⟨?_, fun s' => ?_, fun i d hi => ?_⟩
    · rw [map_append]
      exact Nodup.append hc.nodup (nodup_singleton s) (by simpa using hn)
    · simp only [map_append, mem_append, hc.mem, map_cons, map_nil]
    · rw [getElem?_append] at hi
      split at hi
      · exact hc.indexed i d hi
      · obtain ⟨hl, rfl⟩ := List.getElem_of_getElem? hi
        rw [length_singleton] at hl
        have hi : i = c.all.length := by omega
        simp [hi, size]

theorem filed_after (rs : List (Shape × String)) : (after rs).Filed (rs.map Prod.fst) := by
  induction rs using reverseRecOn with
  | nil => exact ⟨nodup_nil, fun _ => .rfl, by simp [after]⟩
  | append_singleton rs r ih =>
    rw [after_concat, map_append]
    exact ih.intern r.1 r.2

theorem after_append (rs more : List (Shape × String)) : (after rs).all <+: (after (rs ++ more)).all := by
  induction more using reverseRecOn with
  | nil => simp
  | append_singleton more r ih =>
    refine ih.trans ?_
    rw [← append_assoc, after_concat]
    rcases (after (rs ++ more)).intern_cases r.1 r.2 with ⟨d, -, -, heq⟩ | ⟨-, heq⟩
    · simp only [heq, prefix_rfl]
    · rw [heq]
      exact prefix_append ..

theorem answer_mem (rs more : List (Shape × String)) (r : Shape × String) :
    answer rs r ∈ (after (rs ++ r :: more)).all ∧ (answer rs r).shape = r.1 := by
  have hn : answer rs r ∈ (after (rs ++ [r])).all ∧ (answer rs r).shape = r.1 := by
    rw [answer, after_concat]
    rcases (after rs).intern_cases r.1 r.2 with ⟨d, hd, hs, heq⟩ | ⟨-, heq⟩
    · rw [heq]
      exact ⟨hd, hs⟩
    · rw [heq]
      exact ⟨mem_append_right _ mem_cons_self, rfl⟩
  have hl := (after_append (rs ++ [r]) more).subset hn.1
  rw [append_assoc] at hl
  exact ⟨hl, hn.2⟩

theorem answer_of_mem (hd : d ∈ (after rs).all) (name : String) : answer rs (d.shape, name) = d := by
  simp only [answer, intern, (filed_after rs).find?_of_mem hd]

theorem answer_of_new (hn : r.1 ∉ rs.map Prod.fst) : answer rs r = ⟨r.1, r.2, (after rs).size⟩ := by
  rcases (after rs).intern_cases r.1 r.2 with ⟨d, hd, hs, -⟩ | ⟨-, heq⟩
  · exact absurd (((filed_after rs).mem _).mp (hs ▸ mem_map_of_mem hd)) hn
  · rw [answer, heq]

theorem size_after (rs : List (Shape × String)) : (after rs).size = shapeCount rs := by
  have hf := filed_after rs
  have hp : ((after rs).all.map (·.shape)).Perm (rs.map Prod.fst).dedup :=
    (perm_ext_iff_of_nodup hf.nodup (nodup_dedup _)).mpr fun s => by
      rw [hf.mem, mem_dedup]
  rw [size, shapeCount, ← hp.length_eq, length_map]

theorem lookup_index (hd : d ∈ (after rs).all) : (after rs).lookup d.index = some d := by
  obtain ⟨i, hi⟩ := mem_iff_getElem?.mp hd
  rw [lookup, if_neg (by omega), (filed_after rs).indexed i d hi]
  simpa using hi

theorem index_answer (rs : List (Shape × String)) (r : Shape × String) :
    (answer rs r).index = shapeCount (rs.takeWhile (·.1 ≠ r.1)) := by
  have hpr {pre : List (Shape × String)} (hn : r.1 ∉ pre.map Prod.fst) (post) :
      (pre ++ post).takeWhile (·.1 ≠ r.1) = pre ++ post.takeWhile (·.1 ≠ r.1) := by
    refine takeWhile_append_of_pos fun r' hr' => decide_eq_true fun he => hn ?_
    exact he ▸ mem_map_of_mem hr'
  by_cases hn : r.1 ∈ rs.map Prod.fst
  · obtain ⟨as, bs, hs, has⟩ := eq_append_cons_of_mem hn
    obtain ⟨pre, post, rfl, rfl, hp⟩ := map_eq_append_iff.mp hs
    obtain ⟨r0, post, rfl, hr0, -⟩ := map_eq_cons_iff.mp hp
    obtain ⟨hm, hsh⟩ := answer_mem pre post r0
    have hsa : answer (pre ++ r0 :: post) r = answer pre r0 := by
      have := answer_of_mem hm r.2
      rwa [hsh, hr0] at this
    rw [hsa, answer_of_new (hr0 ▸ has), size_after, hpr has]
    simp [hr0]
  · have ha := hpr hn []
    rw [append_nil, takeWhile_nil, append_nil] at ha
    rw [answer_of_new hn, size_after, ha]

/-- Whatever requests are made: there is one descriptor per shape, numbered in the order of the first
requests, and it stays what it was made. -/
theorem intern_once (rs : List (Shape × String)) :
    (after rs).size = shapeCount rs ∧
      (∀ i, (after rs).lookup i = none ↔ i < 0 ∨ (after rs).size ≤ i) ∧
      ∀ r, (answer rs r).shape = r.1 ∧
        (answer rs r).index = shapeCount (rs.takeWhile (·.1 ≠ r.1)) ∧
        ∀ more,
          (after (rs ++ r :: more)).lookup (answer rs r).index = some (answer rs r) ∧
          ∀ r', answer (rs ++ r :: more) r' = answer rs r ↔ r'.1 = r.1 := by
  refine ⟨size_after rs, fun i => ?_, fun r => ⟨(answer_mem rs [] r).2, index_answer rs r,
    fun more => ?_⟩⟩
  · unfold lookup
    split
    · simp_all
    · rw [List.getElem?_eq_none_iff, size]
      omega
  · obtain ⟨hmem, hshape⟩ := answer_mem rs more r
    refine ⟨lookup_index hmem, fun r' => ⟨fun he => ?_, fun he => ?_⟩⟩
    · rw [← hshape, ← he, (answer_mem (rs ++ r :: more) [] r').2]
    · have := answer_of_mem hmem r'.2
      rwa [hshape, ← he] at this

end Descriptors

end TraceCompiler
