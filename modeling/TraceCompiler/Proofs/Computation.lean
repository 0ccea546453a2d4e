/-! # Computations that keep their state when they fail

Running `ExceptT ε (StateM σ)` gives a result and a state, also on failure.
-/

namespace TraceCompiler

section

variable {ε σ α β : Type} {x : ExceptT ε (StateM σ) α} {f : α → ExceptT ε (StateM σ) β} {a b c : σ}
  {v : α} {e : ε} {g : ε → ExceptT ε (StateM σ) α}

theorem run_seq (h : x.run a = (.ok v, b)) : (x >>= f).run a = (f v).run b := by
  change (StateT.bind x (ExceptT.bindCont f)) a = _
  change x a = _ at h
  rw [StateT.bind, h]
  rfl

theorem run_bind_of_error (h : x.run a = (.error e, b)) : (x >>= f).run a = (.error e, b) := by
  change (StateT.bind x (ExceptT.bindCont f)) a = _
  change x a = _ at h
  rw [StateT.bind, h]
  rfl

theorem run_bind_ok (h : (x >>= f).run a = (.ok w, c)) :
    ∃ v b, x.run a = (.ok v, b) ∧ (f v).run b = (.ok w, c) := by
  rcases hx : x.run a with ⟨e | v, b⟩
  · rw [run_bind_of_error hx] at h
    cases h
  · rw [run_seq hx] at h
    exact ⟨v, b, rfl, h⟩

theorem run_bind_error (h : (x >>= f).run a = (.error e, c)) :
    x.run a = (.error e, c) ∨ ∃ v b, x.run a = (.ok v, b) ∧ (f v).run b = (.error e, c) := by
  rcases hx : x.run a with ⟨e' | v, b⟩
  · rw [run_bind_of_error hx] at h
    cases h
    exact .inl rfl
  · rw [run_seq hx] at h
    exact .inr ⟨v, b, rfl, h⟩

theorem run_bind_cases (h : (x >>= f).run a = (w, c)) : (∃ e, x.run a = (.error e, c) ∧ w = .error e) ∨
      ∃ v b, x.run a = (.ok v, b) ∧ (f v).run b = (w, c) := by
  cases w with
  | error e =>
    rcases run_bind_error h with h | h
    · exact .inl ⟨e, h, rfl⟩
    · exact .inr h
  | ok w => exact .inr (run_bind_ok h)

theorem run_tryCatch_of_ok (h : x.run a = (.ok v, b)) : (tryCatch x g).run a = (.ok v, b) := by
  change StateT.bind x (fun r => match r with
    | .ok v => pure (.ok v)
    | .error e => g e) a = _
  change x a = _ at h
  rw [StateT.bind, h]
  rfl

theorem run_tryCatch_of_error (h : x.run a = (.error e, b)) : (tryCatch x g).run a = (g e).run b := by
  change StateT.bind x (fun r => match r with
    | .ok v => pure (.ok v)
    | .error e => g e) a = _
  change x a = _ at h
  rw [StateT.bind, h]
  rfl

theorem run_eq_of_fst {v : Except ε α} (h : (x.run a).1 = v) : x.run a = (v, (x.run a).2) :=
  Prod.ext h rfl

@[simp] theorem run_pure (v : α) : (pure v : ExceptT ε (StateM σ) α).run a = (.ok v, a) := rfl

@[simp] theorem run_get : (get : ExceptT ε (StateM σ) σ).run a = (.ok a, a) := rfl

@[simp] theorem run_modify (f : σ → σ) :
    (modify f : ExceptT ε (StateM σ) Unit).run a = (.ok (), f a) := rfl

@[simp] theorem run_modifyGet (f : σ → α × σ) :
    (modifyGet f : ExceptT ε (StateM σ) α).run a = (.ok (f a).1, (f a).2) := rfl

@[simp] theorem run_throw (e : ε) : (throw e : ExceptT ε (StateM σ) α).run a = (.error e, a) := rfl

@[simp] theorem run_get_bind (f : σ → ExceptT ε (StateM σ) β) :
    (get >>= f).run a = (f a).run a := run_seq rfl

@[simp] theorem run_pure_bind (v : α) : (pure v >>= f).run a = (f v).run a := run_seq rfl

@[simp] theorem run_bind_pure_snd (f : α → β) : ((x >>= fun v => pure (f v)).run a).2 = (x.run a).2 := by
  rcases hx : x.run a with ⟨e | v, b⟩
  · rw [run_bind_of_error hx]
  · rw [run_seq hx]
    rfl

theorem run_forM_of_ok {ι : Type} {g : ι → ExceptT ε (StateM σ) PUnit} {step : σ → ι → σ}
    (h : ∀ i a, (g i).run a = (.ok ⟨⟩, step a i)) (l : List ι) (a : σ) :
    (l.forM g).run a = (.ok ⟨⟩, l.foldl step a) := by
  induction l generalizing a with
  | nil => rfl
  | cons i l ih =>
    change (g i >>= fun _ => l.forM g).run a = _
    rw [run_seq (h i a), ih]
    rfl

def Ends (run : Except ε α × σ) (R : α → σ → Prop) (E : σ → Prop) : Prop :=
  match run with
  | (.ok v, s) => R v s
  | (.error _, s) => E s

namespace Ends

variable {run : Except ε α × σ} {R : α → σ → Prop} {R' : β → σ → Prop} {E E' : σ → Prop} {s : σ}

theorem of_ok (h : R v s) (hr : run = (.ok v, s)) : Ends run R E := by
  subst hr
  exact h

theorem ok (h : Ends run R E) (hr : run = (.ok v, s)) : R v s := by
  subst hr
  exact h

theorem error (h : Ends run R E) (hr : run = (.error e, s)) : E s := by
  subst hr
  exact h

theorem state {P : σ → Prop} (h : Ends run R E) (hR : ∀ v s, R v s → P s) (hE : ∀ s, E s → P s) :
    P run.2 := by
  obtain ⟨_ | v, s⟩ := run
  · exact hE s h
  · exact hR v s h

theorem imp {R' : α → σ → Prop} (h : Ends run R E) (hR : ∀ v s, R v s → R' v s)
    (hE : ∀ s, E s → E' s) : Ends run R' E' := by
  obtain ⟨_ | v, s⟩ := run
  · exact hE s h
  · exact hR v s h

theorem bind (h : Ends (x.run a) R E) (hf : ∀ v s, R v s → Ends ((f v).run s) R' E')
    (hE : ∀ s, E s → E' s) : Ends ((x >>= f).run a) R' E' := by
  rcases hx : x.run a with ⟨e | v, s⟩
  · rw [run_bind_of_error hx]
    rw [hx] at h
    exact hE s h
  · rw [run_seq hx]
    exact hf v s (h.ok hx)

end Ends

end

variable {ε ε' α β : Type}

theorem exists_ok_of_map {σ : Type} {x : Except ε α × σ} {f : α → β} {v : β}
    (h : x.1.toOption.map f = some v) : ∃ y s, x = (.ok y, s) ∧ f y = v := by
  obtain ⟨_ | y, s⟩ := x
  · cases h
  · exact ⟨y, s, rfl, Option.some.inj h⟩

/-! ## Computations without a state -/

variable {x : Except ε α} {f : α → Except ε β} {e : ε} {p : Prop} [Decidable p]

theorem bind_eq_ok {y : β} : (x >>= f) = .ok y ↔ ∃ a, x = .ok a ∧ f a = .ok y := by
  cases x with
  | error e => exact ⟨nofun, nofun⟩
  | ok a => exact ⟨fun h => ⟨a, rfl, h⟩, fun ⟨_, h, h'⟩ => by cases h; exact h'⟩

theorem bind_of_ok {a : α} (h : x = .ok a) : (x >>= f) = f a := by
  rw [h]
  rfl

theorem bind_eq_error : (x >>= f) = .error e ↔ x = .error e ∨ ∃ a, x = .ok a ∧ f a = .error e := by
  cases x with
  | error e' =>
    refine ⟨fun h => .inl (by cases h; rfl), ?_⟩
    rintro (h | ⟨_, h, _⟩)
    · cases h
      rfl
    · cases h
  | ok a =>
    refine ⟨fun h => .inr ⟨a, rfl, h⟩, ?_⟩
    rintro (h | ⟨_, h, h'⟩)
    · cases h
    · cases h
      exact h'

theorem guard_bind_eq_ok {k : β → Except ε α} {m : Except ε α} {y : α} :
    (if p then throw e >>= k else m) = .ok y ↔ ¬ p ∧ m = .ok y := by
  by_cases h : p
  · rw [if_pos h]
    exact ⟨nofun, fun h' => absurd h h'.1⟩
  · rw [if_neg h]
    exact ⟨fun h' => ⟨h, h'⟩, And.right⟩

theorem guard_eq_ok {t : PUnit} : (if p then throw e else pure ⟨⟩ : Except ε PUnit) = .ok t ↔ ¬ p := by
  by_cases h : p
  · rw [if_pos h]
    exact ⟨nofun, fun h' => absurd h h'⟩
  · rw [if_neg h]
    exact ⟨fun _ => h, fun _ => rfl⟩

theorem mapError_eq_ok {f : ε → ε'} {a : α} : x.mapError f = .ok a ↔ x = .ok a := by
  cases x with
  | error e => exact ⟨fun h => (by cases h), fun h => (by cases h)⟩
  | ok b => constructor <;> (rintro ⟨⟩; rfl)

end TraceCompiler
