import TraceCompiler.Proofs.Eval.Safety

/-! # The step budget

A run under a budget is the start of every run under a larger one: a budget that does not suffice cuts
the run short, and every other budget gives the same answer and the same world.
-/

namespace TraceCompiler.Eval

open List

variable {ω : Type} {l : Linked} {h : Host ω} {p : Point} {m m' : Machine ω} {o : Outcome}
  {max left start : Nat} {args : List Word} {world : ω} {e : Abort RunError}

/-- The points that a run comes to once so many operations were executed, the jumps and the guards that
go on in a bridge included. -/
def Executed (l : Linked) (h : Host ω) (start : Nat) (args : List Word) (world : ω) (n : Nat)
    (p : Point) (m : Machine ω) : Prop :=
  Reached l h n start args world 0 p m

theorem Reached.widen (hp : Reached l h max start args world left p m) (k : Nat) :
    Reached l h (max + k) start args world (left + k) p m := by
  induction hp with
  | start he => exact .start he
  | next _ hr hru ih => exact (Nat.add_right_comm _ 1 k ▸ ih).next hr hru
  | transfer _ hr hru hf ih =>
    exact (Nat.add_right_comm _ 1 k ▸ ih).transfer hr hru hf

/-- What is left of a budget says how much of it was used. -/
theorem Reached.executed (hp : Reached l h max start args world left p m) :
    ∃ n, max = n + left ∧ Executed l h start args world n p m := by
  have ho {n : Nat} {p : Point} {m : Machine ω} (hn : Executed l h start args world n p m) :
      Reached l h (n + 1) start args world (0 + 1) p m := hn.widen 1
  induction hp with
  | start he => exact ⟨0, (Nat.zero_add _).symm, Reached.start he⟩
  | next _ hr hru ih =>
    obtain ⟨n, hn, hex⟩ := ih
    exact ⟨n + 1, by omega, (ho hex).next hr hru⟩
  | transfer _ hr hru hf ih =>
    obtain ⟨n, hn, hex⟩ := ih
    exact ⟨n + 1, by omega, (ho hex).transfer hr hru hf⟩

/-- **What one operation does to a run**, whatever the budget: it goes on, leaves or ends the run. -/
inductive Moves (l : Linked) (h : Host ω) (p : Point) (m : Machine ω) : Prop
  | on (p' : Point) (m' : Machine ω)
      (hgo : ∀ max left, go l h max (left + 1) p m = go l h max left p' m')
      (hreach : ∀ max start args world left, Reached l h max start args world (left + 1) p m →
        Reached l h max start args world left p' m')
  | leave (op : Op) (rest : List (Option Op)) (values : List Word) (kinds : List Kind)
      (m' : Machine ω) (hrest : p.rest = some op :: rest)
      (hrun : (control l h p.id p.pos op).run m = (.ok (.leave values kinds), m'))
  | stop (e : Abort RunError) (m' : Machine ω) (hgo : ∀ max left, go l h max (left + 1) p m = (.error e, m'))

theorem point_moves (l : Linked) (h : Host ω) (p : Point) (m : Machine ω) : Moves l h p m := by
  cases hr : p.rest with
  | nil =>
    exact .stop (.error (.noFinal p.trace.name)) m fun max left => by unfold go; rw [hr]
  | cons op rest =>
    cases op with
    | none => exact .stop .missing m fun max left => by unfold go; rw [hr]
    | some op =>
      rcases hru : (control l h p.id p.pos op).run m with ⟨e | c, m1⟩
      · refine .stop (e.map (.op p.trace.name p.pos op.opcode)) m1 fun max left => ?_
        conv_lhs => unfold go; rw [hr]; dsimp only; rw [hru]
      cases c with
      | next => exact .on _ m1 (fun _ _ => go_next hr hru) fun _ _ _ _ _ hp => hp.next hr hru
      | leave values kinds => exact .leave op rest values kinds m1 hr hru
      | transfer dest words =>
        rcases hf : follow l p dest words m1 with ⟨e | p', m2⟩
        · refine .stop e m2 fun max left => ?_
          conv_lhs => unfold go; rw [hr]; dsimp only; rw [hru]; dsimp only; rw [hf]
        · exact .on p' m2 (fun _ _ => go_transfer hr hru hf)
            fun _ _ _ _ _ hp => hp.transfer hr hru hf

theorem go_zero (l : Linked) (h : Host ω) (p : Point) (m : Machine ω) :
    (∀ max left, go l h max left p m = (.error (.error (.noFinal p.trace.name)), m)) ∨
      ∀ max, go l h max 0 p m = (.error (.error .stepLimit), m) := by
  cases hr : p.rest with
  | nil => exact .inl fun max left => by unfold go; rw [hr]
  | cons op rest => exact .inr fun max => by unfold go; rw [hr]

theorem lt_steps_of_go (hle : left ≤ max) (hgo : go l h max left p m = (.ok o, m')) :
    max - left < o.steps := by
  induction left generalizing p m with
  | zero =>
    rcases go_zero l h p m with h0 | h0
    · cases (h0 _ _).symm.trans hgo
    · cases (h0 _).symm.trans hgo
  | succ left ih =>
    cases point_moves l h p m with
    | on p' m1 hs _ =>
      have := ih (by omega) ((hs _ _).symm.trans hgo)
      omega
    | leave op rest values kinds m1 hr hru =>
      cases (go_leave hr hru).symm.trans hgo
      change max - (left + 1) < max - left
      omega
    | stop e m1 hs => cases (hs _ _).symm.trans hgo

/-- A larger budget changes nothing, unless the smaller one cut the run short. -/
theorem go_add (k : Nat) (hle : left ≤ max) : go l h (max + k) (left + k) p m = go l h max left p m ∨
      (go l h max left p m).1 = .error (.error .stepLimit) ∧
        ∀ o m', go l h (max + k) (left + k) p m = (.ok o, m') → max < o.steps := by
  induction left generalizing p m with
  | zero =>
    rcases go_zero l h p m with h0 | h0
    · exact .inl ((h0 _ _).trans (h0 _ _).symm)
    · refine .inr ⟨congrArg Prod.fst (h0 max), fun o m' hgo => ?_⟩
      have := lt_steps_of_go (by omega) hgo
      omega
  | succ left ih =>
    rw [Nat.add_right_comm]
    cases point_moves l h p m with
    | on p' m1 hs _ =>
      rw [hs, hs]
      exact ih (by omega)
    | leave op rest values kinds m1 hr hru =>
      rw [go_leave hr hru, go_leave hr hru, Nat.add_sub_add_right]
      exact .inl rfl
    | stop e m1 hs => exact .inl ((hs _ _).trans (hs _ _).symm)

/-- An outcome after so many steps: that many operations were executed, and the last of them left. -/
def LeavesAfter (l : Linked) (h : Host ω) (start : Nat) (args : List Word) (world : ω) (o : Outcome)
    (final : ω) : Prop :=
  ∃ n p op rest m m', o.steps = n + 1 ∧ Executed l h start args world n p m ∧
    p.rest = some op :: rest ∧
    (control l h p.id p.pos op).run m = (.ok (.leave o.values o.kinds), m') ∧
    o.trace = p.id ∧ o.pos = p.pos ∧ o.opcode = op.opcode ∧ m'.world = final

/-- **A run is a chain of operations**: it counts those up to its exit. -/
theorem Reached.counts (hp : Reached l h max start args world left p m)
    (hgo : go l h max left p m = (.ok o, m')) :
    o.steps ≤ max ∧ LeavesAfter l h start args world o m'.world := by
  induction left generalizing p m with
  | zero =>
    rcases go_zero l h p m with h0 | h0
    · cases (h0 _ _).symm.trans hgo
    · cases (h0 _).symm.trans hgo
  | succ left ih =>
    cases point_moves l h p m with
    | on p' m1 hs hre => exact ih (hre _ _ _ _ _ hp) ((hs _ _).symm.trans hgo)
    | leave op rest values kinds m1 hr hru =>
      obtain ⟨n, hn, hex⟩ := hp.executed
      cases (go_leave hr hru).symm.trans hgo
      exact ⟨Nat.sub_le .., n, p, op, rest, m, m', by dsimp only; omega, hex, hr, hru, rfl, rfl, rfl, rfl⟩
    | stop e m1 hs => cases (hs _ _).symm.trans hgo

/-! ## Whole runs -/

theorem run_cases (l : Linked) (h : Host ω) (start : Nat) (args : List Word) (world : ω) :
    (∃ e final, ∀ M > 0, run l h M start args world = (.error e, final)) ∨
      ∃ p m, (∀ M, Reached l h M start args world M p m) ∧ ∀ M > 0, run l h M start args world =
        ((go l h M.toNat M.toNat p m).1, (go l h M.toNat M.toNat p m).2.world) := by
  unfold run
  rcases hen : enter l start start false args ⟨∅, false, world⟩ with ⟨e | p, m⟩
  · exact .inl ⟨e, m.world, fun _ _ => rfl⟩
  · refine .inr ⟨p, m, fun _ => .start hen, fun M hM => ?_⟩
    dsimp only
    rw [if_neg (by omega)]

theorem run_larger {M M' : Int} (hM : 0 < M) (hle : M ≤ M') :
    run l h M' start args world = run l h M start args world ∨
      (run l h M start args world).1 = .error (.error .stepLimit) ∧
        ∀ o final, run l h M' start args world = (.ok o, final) → M < o.steps := by
  rcases run_cases l h start args world with ⟨e, final, hr⟩ | ⟨p, m, -, hr⟩
  · exact .inl ((hr M' (by omega)).trans (hr M hM).symm)
  rw [hr M' (by omega), hr M hM]
  have ha := go_add (l := l) (h := h) (p := p) (m := m) (M'.toNat - M.toNat) (Nat.le_refl M.toNat)
  rw [show M.toNat + (M'.toNat - M.toNat) = M'.toNat by omega] at ha
  refine ha.imp (fun heq => by rw [heq]) fun ⟨hl, hla⟩ => ⟨hl, fun o final heq => ?_⟩
  have := hla o _ (Prod.ext (Prod.mk.inj heq).1 rfl)
  omega

theorem run_outcome {M : Int} {final : ω} (hM : 0 < M) (hr : run l h M start args world = (.ok o, final)) :
    o.steps ≤ M ∧ LeavesAfter l h start args world o final := by
  rcases run_cases l h start args world with ⟨e, _, ha⟩ | ⟨p, m, hp, ha⟩
  · cases (ha M hM).symm.trans hr
  · obtain ⟨ho, rfl⟩ := Prod.mk.inj ((ha M hM).symm.trans hr)
    have := (hp M.toNat).counts (Prod.ext ho rfl)
    exact ⟨by omega, this.2⟩

/-- **The step budget only cuts runs short.** An outcome of so many steps comes from so many executed
operations, its own included, and is the answer under every budget that allows for them; every smaller
budget cuts the run short. A failure is the answer under every larger budget. -/
theorem run_budget (l : Linked) (h : Host ω) (start : Nat) (args : List Word) (world : ω) {M : Int}
    (hM : 0 < M) :
    (∀ o final, run l h M start args world = (.ok o, final) →
      o.steps ≤ M ∧ LeavesAfter l h start args world o final ∧
      (∀ M' : Int, o.steps ≤ M' → run l h M' start args world = (.ok o, final)) ∧
      ∀ M' : Int, 0 < M' → M' < o.steps →
        (run l h M' start args world).1 = .error (.error .stepLimit)) ∧
    ∀ e final, run l h M start args world = (.error e, final) → e ≠ .error .stepLimit →
      ∀ M', M ≤ M' → run l h M' start args world = (.error e, final) := by
  refine ⟨fun o final hrun => ?_, fun e final hrun he M' hle => ?_⟩
  · obtain ⟨hsteps, hleaves⟩ := run_outcome hM hrun
    have hpos : 0 < o.steps := by
      obtain ⟨n, _, _, _, _, _, hn, -⟩ := hleaves
      omega
    refine ⟨hsteps, hleaves, fun M' hM' => ?_, fun M' h0 hlt => ?_⟩
    · rcases Int.le_total M M' with hle | hle
      · rcases run_larger hM hle with hsame | ⟨hlimit, -⟩
        · exact hsame.trans hrun
        · rw [hrun] at hlimit
          cases hlimit
      · rcases run_larger (by omega) hle with hsame | ⟨-, hlate⟩
        · exact hsame.symm.trans hrun
        · have := hlate o final hrun
          omega
    · rcases run_larger h0 (by omega : M' ≤ M) with hsame | ⟨hlimit, -⟩
      · have := (run_outcome h0 (hsame.symm.trans hrun)).1
        omega
      · exact hlimit
  · rcases run_larger hM hle with hsame | ⟨hlimit, -⟩
    · exact hsame.trans hrun
    · rw [hrun] at hlimit
      cases hlimit
      exact absurd rfl he

def bridged : Linked where
  traces := [
    ⟨"loop", [], [some ⟨.guardFalse, [some (.const (.int 1))], none, none, [some (.const (.int 5))]⟩,
      some ⟨.jump, [], none, none, []⟩]⟩,
    ⟨"bridge", [some ⟨1, .int⟩], [some ⟨.debugMergePoint, [], none, none, []⟩,
      some ⟨.finish, [some (.const (.int 7))], none, none, []⟩]⟩]
  bridges := [((0, 0), 1)]

theorem run_budget_bridged : (0 : Int) < 7 ∧
    run bridged blankHost 1000 0 [] () = run bridged blankHost 7 0 [] () ∧
    (run bridged blankHost 2 0 [] ()).1 = .error (.error .stepLimit) := by
  have hrun : run bridged blankHost 7 0 [] () = (.ok ⟨1, 1, .finish, [7], [.int], 3⟩, ()) := rfl
  obtain ⟨-, -, hlarger, hsmaller⟩ :=
    (run_budget bridged blankHost 0 [] () (by decide : (0 : Int) < 7)).1 _ _ hrun
  exact ⟨by decide, (hlarger 1000 (by decide)).trans hrun.symm, hsmaller 2 (by decide) (by decide)⟩

end TraceCompiler.Eval
