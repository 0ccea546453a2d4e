/-! # Finite tables

A `Table` is an association list in which every key stands at most once, in the order in which
the keys were first inserted.
-/

namespace TraceCompiler

/-- A finite map kept in insertion order. -/
structure Table (α : Type) (β : Type) where
  entries : List (α × β)
  nodup : (entries.map Prod.fst).Nodup

namespace Table

variable {α β : Type}

def empty : Table α β := ⟨[], List.nodup_nil⟩

instance : EmptyCollection (Table α β) := ⟨empty⟩

instance : Inhabited (Table α β) := ⟨empty⟩

def size (t : Table α β) : Nat := t.entries.length

def keys (t : Table α β) : List α := t.entries.map Prod.fst

variable [DecidableEq α]

def get? (t : Table α β) (a : α) : Option β :=
  (t.entries.find? fun e => e.1 = a).map Prod.snd

def getD (t : Table α β) (a : α) (b : β) : β := (t.get? a).getD b

def contains (t : Table α β) (a : α) : Bool := (t.get? a).isSome

/-- Store a value under a key; an old value of that key is replaced where it stands. -/
def insert (t : Table α β) (a : α) (b : β) : Table α β :=
  if h : a ∈ t.keys then
    ⟨t.entries.map fun e => if e.1 = a then (a, b) else e, by
      have hfst : (Prod.fst ∘ fun e : α × β => if e.1 = a then (a, b) else e) = Prod.fst := by
        funext e
        by_cases he : e.1 = a <;> simp [he]
      rw [List.map_map, hfst]
      exact t.nodup⟩
  else
    ⟨t.entries ++ [(a, b)], by
      rw [List.map_append, List.nodup_append]
      refine ⟨t.nodup, by simp, ?_⟩
      intro x hx y hy hxy
      simp only [List.map_cons, List.map_nil, List.mem_singleton] at hy
      subst hy
      subst hxy
      exact h hx⟩

def erase (t : Table α β) (a : α) : Table α β :=
  ⟨t.entries.filter fun e => e.1 ≠ a,
    List.Nodup.sublist ((List.filter_sublist).map _) t.nodup⟩

def mapValues {γ : Type} (f : β → γ) (t : Table α β) : Table α γ :=
  ⟨t.entries.map fun e => (e.1, f e.2), by
    have hfst : (Prod.fst ∘ fun e : α × β => (e.1, f e.2)) = Prod.fst := rfl
    rw [List.map_map, hfst]
    exact t.nodup⟩

/-- A table from pairs, later ones replacing earlier ones of the same key. -/
def ofList (l : List (α × β)) : Table α β :=
  l.foldl (fun t e => t.insert e.1 e.2) empty

@[simp] theorem get?_empty (a : α) : (empty : Table α β).get? a = none := rfl

theorem get?_mapValues {γ : Type} (f : β → γ) (t : Table α β) (a : α) :
    (t.mapValues f).get? a = (t.get? a).map f := by
  unfold mapValues get?
  rw [List.find?_map, Option.map_map, Option.map_map]
  rfl

theorem find?_map_replace (l : List (α × β)) (a c : α) (b : β) :
    ((l.map fun e => if e.1 = a then (a, b) else e).find? fun e => e.1 = c).map Prod.snd =
      if c = a ∧ a ∈ l.map Prod.fst then some b
      else (l.find? fun e => e.1 = c).map Prod.snd := by
  induction l with
  | nil => simp
  | cons e l ih =>
    rw [List.map_cons, List.find?_cons, List.find?_cons]
    by_cases hea : e.1 = a
    · subst hea
      by_cases hca : c = e.1
      · simp [hca]
      · have hec : ¬ e.1 = c := fun h => hca h.symm
        simpa [hec, hca] using ih
    · by_cases hec : e.1 = c
      · subst hec
        simp [hea]
      · have hae : ¬ a = e.1 := fun h => hea h.symm
        simp only [hea, hec, hae, if_false, decide_false, List.map_cons, List.mem_cons, false_or]
        exact ih

theorem get?_insert (t : Table α β) (a c : α) (b : β) :
    (t.insert a b).get? c = if c = a then some b else t.get? c := by
  unfold insert get?
  split
  case isTrue h =>
    rw [find?_map_replace]
    have h' : a ∈ t.entries.map Prod.fst := h
    by_cases hca : c = a <;> simp [hca, h']
  case isFalse h =>
    have h' : ∀ e ∈ t.entries, e.1 ≠ a := by
      intro e he hea
      exact h (List.mem_map.mpr ⟨e, he, hea⟩)
    rw [List.find?_append]
    by_cases hca : c = a
    · subst hca
      have hnone : t.entries.find? (fun e => e.1 = c) = none :=
        List.find?_eq_none.mpr fun e he => by simpa using h' e he
      simp [hnone]
    · have hac : ¬ a = c := fun h => hca h.symm
      cases t.entries.find? (fun e => e.1 = c) <;> simp [hac, hca]

theorem get?_erase (t : Table α β) (a c : α) :
    (t.erase a).get? c = if c = a then none else t.get? c := by
  unfold erase get?
  by_cases hca : c = a
  · subst hca
    have hnone : (t.entries.filter fun e => e.1 ≠ c).find? (fun e => e.1 = c) = none := by
      rw [List.find?_eq_none]
      intro e he
      simpa using (List.mem_filter.mp he).2
    simp only [hnone, if_true, Option.map_none]
  · rw [if_neg hca, List.find?_filter]
    congr 2
    funext e
    by_cases hec : e.1 = c
    · subst hec
      simp [hca]
    · simp [hec]

end Table

end TraceCompiler
