import TraceCompiler.Placement.Registers
import TraceCompiler.Proofs.Computation

/-! # What requests to an allocator do

The requests of `AllocM` are seen as functions of the allocator.
-/

namespace TraceCompiler

open List

theorem Constraint.fits_iff {c : Constraint} {p : Pool} {r : Int} : c.fits p r = true ↔
    (∀ r' ∈ c.pinned, r' = r) ∧ r ∉ c.avoid ∧ (c.byteOnly = true → r ∈ p.byteRegs) := by
  unfold fits
  cases c.pinned <;> cases c.byteOnly <;> simp [and_assoc]

namespace Bank

variable {k : Bank} {c : Constraint} {r : Int} {b : Box} {l : Lifetimes} {vs : List (Int × Box)}
  {v : Int × Box}

theorem firstFree_eq_some (h : k.firstFree c = some r) :
    r ∈ k.pool.regs ∧ r ∈ k.free ∧ c.fits k.pool r := by
  refine ⟨mem_of_find?_eq_some h, ?_⟩
  simpa using find?_some h

theorem not_mem_free_of_firstFree_eq_none (h : k.firstFree c = none) (hr : r ∈ k.pool.regs)
    (hf : c.fits k.pool r) : r ∉ k.free := by
  intro hfr
  simpa [hfr, hf] using find?_eq_none.mp h r hr

def victim? (k : Bank) (c : Constraint) (r : Int) : Option (Int × Box) :=
  (k.ownerOf r).bind fun b =>
    if c.fits k.pool r && !c.forbidden.contains (some b) && !k.temps.contains b then
      some (r, b) else none

theorem victims_eq : k.victims c = k.pool.regs.filterMap (k.victim? c) := by
  refine congrArg (filterMap · _) (funext fun r => ?_)
  unfold victim?
  cases k.ownerOf r <;> simp

theorem victim?_eq_some : k.victim? c r' = some (r, b) ↔ r' = r ∧ k.ownerOf r = some b ∧
    c.fits k.pool r ∧ some b ∉ c.forbidden ∧ b ∉ k.temps := by
  unfold victim?
  cases ho : k.ownerOf r' <;> grind

theorem mem_victims : (r, b) ∈ k.victims c ↔ r ∈ k.pool.regs ∧ k.ownerOf r = some b ∧
    c.fits k.pool r ∧ some b ∉ c.forbidden ∧ b ∉ k.temps := by
  simp only [victims_eq, mem_filterMap, victim?_eq_some]
  grind

private theorem foldl_first (h : vs.foldl (fun best v =>
      if (best.map fun w => l.lastUse w.2).getD (-2) < l.lastUse v.2 then some v else best) best =
        some v) :
    best = some v ∧ (∀ w ∈ vs, l.lastUse w.2 ≤ l.lastUse v.2) ∨
      (best.map fun w => l.lastUse w.2).getD (-2) < l.lastUse v.2 ∧
        ∃ before after, vs = before ++ v :: after ∧
          (∀ w ∈ before, l.lastUse w.2 < l.lastUse v.2) ∧ ∀ w ∈ after, l.lastUse w.2 ≤ l.lastUse v.2 := by
  induction vs generalizing best with
  | nil => exact .inl ⟨h, by simp⟩
  | cons w vs ih =>
    rw [foldl_cons] at h
    split at h
    · rename_i hlt
      rcases ih h with ⟨hw, hr⟩ | ⟨hw, before, after, rfl, hb, ha⟩
      · cases hw
        exact .inr ⟨hlt, [], vs, rfl, by simp, hr⟩
      · exact .inr ⟨Int.lt_trans hlt hw, w :: before, after, rfl, forall_mem_cons.mpr ⟨hw, hb⟩, ha⟩
    · rename_i hge
      rcases ih h with ⟨rfl, hr⟩ | ⟨hlt, before, after, rfl, hb, ha⟩
      · exact .inl ⟨rfl, forall_mem_cons.mpr ⟨Int.not_lt.mp hge, hr⟩⟩
      · exact .inr ⟨hlt, w :: before, after, rfl,
          forall_mem_cons.mpr ⟨Int.lt_of_le_of_lt (Int.not_lt.mp hge) hlt, hb⟩, ha⟩

theorem furthest_first (h : furthest l vs = some v) : ∃ before after, vs = before ++ v :: after ∧
    (∀ w ∈ before, l.lastUse w.2 < l.lastUse v.2) ∧ ∀ w ∈ after, l.lastUse w.2 ≤ l.lastUse v.2 := by
  obtain ⟨hv, _⟩ := Option.filter_eq_some_iff.mp h
  rcases foldl_first hv with ⟨h, -⟩ | ⟨-, h⟩
  · cases h
  · exact h

theorem mem_of_furthest_eq_some (h : furthest l vs = some v) : v ∈ vs := by
  obtain ⟨before, after, rfl, -⟩ := furthest_first h
  simp

end Bank

namespace Allocator

def loc (a : Allocator) (r : Int) : Location := .reg (a.bank.pool.reg r)

def emit (a : Allocator) (dst src : Location) (kind : Kind) : Allocator :=
  { a with moves := a.moves.push ⟨src, dst, kind⟩ }

def assign (a : Allocator) (h : Holder) (r : Int) : Allocator :=
  { a with bank := a.bank.assign h r }

def release (a : Allocator) (h : Holder) : Allocator := { a with bank := a.bank.release h }

def withSlot (a : Allocator) (b : Box) : Allocator := { a with frame := (a.frame.slotOf b).2 }

def slot (a : Allocator) (b : Box) : Slot := (a.frame.slotOf b).1

def markStored (a : Allocator) (b : Box) : Allocator :=
  { a with bank := { a.bank with inFrame := b :: a.bank.inFrame } }

def bindSlot (a : Allocator) (b : Box) (s : Slot) : Allocator :=
  { a with
    frame := a.frame.bind b s
    bank := { a.bank with inFrame := b :: a.bank.inFrame } }

def store (a : Allocator) (b : Box) (r : Int) : Allocator :=
  if b ∈ a.bank.inFrame then a
  else ((a.withSlot b).emit (.slot (a.slot b)) (a.loc r) b.kind).markStored b

def evict (a : Allocator) (pos r : Int) : Allocator :=
  match a.bank.ownerOf r with
  | none => a
  | some b => (if pos ≤ a.lifetimes.lastUse b then a.store b r else a).release (some b)

def choice? (a : Allocator) (c : Constraint) : Option Int :=
  match a.bank.firstFree c with
  | some r => some r
  | none => (Bank.furthest a.lifetimes (a.bank.victims c)).map Prod.fst

/-- Copy a box from its register to another one, which it takes over. -/
def relocate (a : Allocator) (b : Box) (r other : Int) : Allocator :=
  ((a.emit (a.loc other) (a.loc r) b.kind).release (some b)).assign (some b) other

def load (a : Allocator) (b : Box) (r : Int) : Allocator :=
  (a.withSlot b).emit (a.loc r) (.slot (a.slot b)) b.kind

def settle (a : Allocator) (b : Box) (r : Int) : Allocator :=
  match a.bank.regOf (some b) with
  | some old => a.relocate b old r
  | none => (if b ∈ a.bank.inFrame then a.load b r else a).assign (some b) r

def claim (a : Allocator) (b : Box) (r : Int) : Allocator :=
  match a.bank.regOf (some b) with
  | some old => a.relocate b old r
  | none => a.assign (some b) r

def handOver (a : Allocator) (old new : Box) (r : Int) : Allocator :=
  let a := (a.release (some old)).assign (some new) r
  { a with bank := { a.bank with temps := a.bank.temps.erase old } }

def releaseIfDead (pos : Int) (a : Allocator) (v : Option Value) : Allocator :=
  match v.bind Value.box? with
  | none => a
  | some b => if a.lifetimes.liveAfter b pos then a else a.release (some b)

def endOp (pos : Int) (a : Allocator) (op : Op) : Allocator :=
  let a := op.args.foldl (releaseIfDead pos) a
  let a := op.failArgs.foldl (releaseIfDead pos) a
  let a := a.releaseIfDead pos (op.result.map Value.box)
  let a := a.bank.temps.foldl (fun a t => a.release (some t)) a
  { a with bank := { a.bank with temps := [] } }

def nextTemp (a : Allocator) (kind : Kind) : Box := (a.supply.fresh kind).1

def withTemp (a : Allocator) (pos : Int) (kind : Kind) : Allocator :=
  { a with
    supply := (a.supply.fresh kind).2
    lifetimes := a.lifetimes.addTemp (a.nextTemp kind) pos
    bank := { a.bank with temps := a.bank.temps ++ [a.nextTemp kind] } }

/-- Move the occupant of a register that calls overwrite to its slot, if it is read behind `pos`. -/
def spillAt (pos : Int) (a : Allocator) (r : Int) : Allocator :=
  if r ∈ a.bank.pool.callerSaved then
    match a.bank.ownerOf r with
    | none => a
    | some b => if a.lifetimes.liveAfter b pos then (a.store b r).release (some b) else a
  else a

def forgetAt (a : Allocator) (r : Int) : Allocator :=
  if r ∈ a.bank.pool.callerSaved then
    match a.bank.ownerOf r with
    | none => a
    | some b => a.release (some b)
  else a

end Allocator

namespace AllocM

variable {a a' : Allocator} {pos r : Int} {b : Box} {h : Holder} {c : Constraint} {e : Abort AllocError}

@[simp] theorem run_emit (dst src : Location) (kind : Kind) :
    (emit dst src kind).run a = (.ok (), a.emit dst src kind) := rfl

@[simp] theorem run_regLocation (r : Int) : (regLocation r).run a = (.ok (a.loc r), a) := rfl

@[simp] theorem run_slotOf (b : Box) : (slotOf b).run a = (.ok (a.slot b), a.withSlot b) := rfl

@[simp] theorem run_assign (h : Holder) (r : Int) : (assign h r).run a = (.ok (), a.assign h r) := rfl

@[simp] theorem run_release (h : Holder) : (release h).run a = (.ok (), a.release h) := rfl

@[simp] theorem run_isInFrame (b : Box) :
    (isInFrame b).run a = (.ok (decide (b ∈ a.bank.inFrame)), a) := rfl

@[simp] theorem run_needed (pos : Int) (b : Box) :
    (needed pos b).run a = (.ok (decide (pos ≤ a.lifetimes.lastUse b)), a) := rfl

@[simp] theorem run_liveAfter (pos : Int) (b : Box) :
    (liveAfter pos b).run a = (.ok (a.lifetimes.liveAfter b pos), a) := rfl

@[simp] theorem run_refuse {α : Type} (e : AllocError) :
    (refuse e : AllocM α).run a = (.error (.error e), a) := rfl

@[simp] theorem run_boxOf (b : Box) : (boxOf (some b)).run a = (.ok b, a) := rfl

@[simp] theorem run_temp (pos : Int) (kind : Kind) :
    (temp pos kind).run a = (.ok (a.nextTemp kind), a.withTemp pos kind) := rfl

@[simp] theorem run_store (b : Box) (r : Int) : (store b r).run a = (.ok (), a.store b r) := by
  unfold store
  rw [run_seq (run_isInFrame b)]
  by_cases hb : b ∈ a.bank.inFrame
  · simp [hb, Allocator.store]
  · simp only [hb, decide_false, Bool.false_eq_true, if_false, Allocator.store]
    rfl

@[simp] theorem run_evict (pos r : Int) : (evict pos r).run a = (.ok (), a.evict pos r) := by
  unfold evict Allocator.evict
  rw [run_get_bind]
  cases a.bank.ownerOf r with
  | none => rfl
  | some b =>
    simp only [run_seq (run_needed pos b), decide_eq_true_eq]
    split
    · rw [run_seq (run_store b r), run_release]
    · rw [run_release]

@[simp] theorem run_releaseIfDead (pos : Int) (v : Option Value) :
    (releaseIfDead pos v).run a = (.ok (), a.releaseIfDead pos v) := by
  unfold releaseIfDead Allocator.releaseIfDead
  cases v.bind Value.box? with
  | none => rfl
  | some b =>
    simp only [run_seq (run_liveAfter pos b)]
    split <;> rfl

theorem run_endOp (pos : Int) (op : Op) : (endOp pos op).run a = (.ok (), a.endOp pos op) := by
  unfold endOp
  rw [run_seq (run_forM_of_ok (fun v a => run_releaseIfDead (a := a) pos v) op.args a),
    run_seq (run_forM_of_ok (fun v a => run_releaseIfDead (a := a) pos v) op.failArgs _),
    run_seq (run_releaseIfDead pos _), run_get_bind,
    run_seq (run_forM_of_ok (fun t a => run_release (a := a) (some t)) _ _)]
  rfl

theorem run_spillCallerSaved (pos : Int) : (spillCallerSaved pos).run a =
    (.ok (), a.bank.pool.regs.foldl (Allocator.spillAt pos) a) := by
  unfold spillCallerSaved
  rw [run_get_bind]
  refine run_forM_of_ok (fun r a => ?_) _ _
  unfold Allocator.spillAt
  rw [run_get_bind]
  dsimp only
  by_cases hr : r ∈ a.bank.pool.callerSaved
  · simp only [hr, if_true]
    cases a.bank.ownerOf r with
    | none => rfl
    | some b =>
      simp only [run_seq (run_liveAfter pos b)]
      split
      · rw [run_seq (run_store b r), run_release]
      · rfl
  · simp only [hr, if_false]
    rfl

theorem run_releaseCallerSaved :
    releaseCallerSaved.run a = (.ok (), a.bank.pool.regs.foldl Allocator.forgetAt a) := by
  unfold releaseCallerSaved
  rw [run_get_bind]
  refine run_forM_of_ok (fun r a => ?_) _ _
  unfold Allocator.forgetAt
  rw [run_get_bind]
  dsimp only
  by_cases hr : r ∈ a.bank.pool.callerSaved
  · simp only [hr, if_true]
    cases a.bank.ownerOf r <;> rfl
  · simp only [hr, if_false]
    rfl

theorem run_spill (b : Box) : (spill (some b)).run a = (.ok (), match a.bank.regOf (some b) with
    | some r => a.store b r
    | none => a) := by
  unfold spill
  rw [run_get_bind]
  cases a.bank.regOf (some b) with
  | none => rfl
  | some r =>
    simp only [run_seq (run_boxOf b)]
    exact run_store b r

theorem run_bindFrame (b : Box) (s : Slot) : (bindFrame b s).run a = (.ok (), a.bindSlot b s) := rfl

theorem run_bind (b : Box) (r : Int) : (bind b r).run a =
    if r ∈ a.bank.free then (.ok (), a.assign (some b) r)
    else (.error (.error (.notFree b (a.bank.pool.reg r))), a) := by
  unfold bind
  rw [run_get_bind]
  dsimp only
  by_cases hr : r ∈ a.bank.free
  · simp [hr, run_assign]
  · simp only [hr, if_false, run_refuse]

inductive Picked (pos : Int) (c : Constraint) (a : Allocator) (r : Int) : Allocator → Prop
  | free (h : a.bank.firstFree c = some r) : Picked pos c a r a
  | evicted {b : Box} (hnone : a.bank.firstFree c = none)
      (hvictim : Bank.furthest a.lifetimes (a.bank.victims c) = some (r, b)) :
      Picked pos c a r (a.evict pos r)

theorem run_choose? (c : Constraint) : (choose? c).run a = (.ok (a.choice? c), a) := by
  unfold choose? Allocator.choice?
  rw [run_get_bind]
  cases a.bank.firstFree c with
  | some r => rfl
  | none =>
    cases Bank.furthest a.lifetimes (a.bank.victims c) <;> rfl

theorem run_pick (pos : Int) (c : Constraint) : (pick pos c).run a = match a.choice? c with
    | some r => (.ok r, if r ∈ a.bank.free then a else a.evict pos r)
    | none => (.error (.error (.noRegister a.bank.pool.cls a.bank.bound.size)), a) := by
  unfold pick
  rw [run_seq (run_choose? c)]
  cases a.choice? c with
  | none => rfl
  | some r =>
    dsimp only
    rw [run_get_bind]
    by_cases hr : r ∈ a.bank.free
    · simp only [hr, if_true]
      rfl
    · simp only [hr, if_false]
      exact run_seq (run_evict pos r)

theorem picked_of_choice (hc : a.choice? c = some r) :
    Picked pos c a r (if r ∈ a.bank.free then a else a.evict pos r) := by
  unfold Allocator.choice? at hc
  cases hf : a.bank.firstFree c with
  | some r' =>
    simp only [hf, Option.some.injEq] at hc
    subst hc
    rw [if_pos (Bank.firstFree_eq_some hf).2.1]
    exact .free hf
  | none =>
    simp only [hf] at hc
    obtain ⟨⟨r', b⟩, hv, rfl⟩ := Option.map_eq_some_iff.mp hc
    obtain ⟨hr, _, hfi, _⟩ := Bank.mem_victims.mp (Bank.mem_of_furthest_eq_some hv)
    rw [if_neg (Bank.not_mem_free_of_firstFree_eq_none hf hr hfi)]
    exact .evicted hf hv

theorem pick_ends : Ends ((pick pos c).run a) (Picked pos c a) (· = a) := by
  rw [run_pick]
  cases hc : a.choice? c with
  | none => rfl
  | some r => exact picked_of_choice hc

inductive Cleared (pos : Int) (c : Constraint) (a : Allocator) (r : Int) : Allocator → Prop
  | vacant (howner : a.bank.ownerOf r = none) : Cleared pos c a r a
  | dropped {b : Box} (howner : a.bank.ownerOf r = some b) (hforbidden : some b ∉ c.forbidden)
      (htemps : b ∉ a.bank.temps) (hdead : a.lifetimes.lastUse b < pos) :
      Cleared pos c a r (a.release (some b))
  | relocated {b : Box} {other : Int} (howner : a.bank.ownerOf r = some b)
      (hforbidden : some b ∉ c.forbidden) (htemps : b ∉ a.bank.temps)
      (hfree : a.bank.firstFree { avoid := c.avoid ++ [r] } = some other) :
      Cleared pos c a r (a.relocate b r other)
  | stored {b : Box} (howner : a.bank.ownerOf r = some b) (hforbidden : some b ∉ c.forbidden)
      (htemps : b ∉ a.bank.temps) (hnone : a.bank.firstFree { avoid := c.avoid ++ [r] } = none) :
      Cleared pos c a r ((a.store b r).release (some b))

theorem clobber_ends : Ends ((clobber pos r c).run a) (fun _ => Cleared pos c a r) (· = a) := by
  unfold clobber
  rw [run_get_bind]
  dsimp only
  cases ho : a.bank.ownerOf r with
  | none => exact Cleared.vacant ho
  | some b =>
    dsimp only
    by_cases hk : (decide (some b ∈ c.forbidden) || decide (b ∈ a.bank.temps)) = true
    · rw [if_pos hk]
      rfl
    obtain ⟨hf, ht⟩ : some b ∉ c.forbidden ∧ b ∉ a.bank.temps := by simpa using hk
    rw [if_neg hk, run_seq (run_needed pos b)]
    by_cases hl : pos ≤ a.lifetimes.lastUse b
    · simp only [hl, decide_true, Bool.not_true, Bool.false_eq_true, if_false]
      cases hfr : a.bank.firstFree { avoid := c.avoid ++ [r] } with
      | some other => exact Cleared.relocated ho hf ht hfr
      | none =>
        dsimp only
        rw [run_seq (run_store b r)]
        exact Cleared.stored ho hf ht hfr
    · simp only [hl, decide_false, Bool.not_false, if_true]
      exact Cleared.dropped ho hf ht (by omega)

inductive Forced (pos : Int) (c : Constraint) (b : Box) (a : Allocator) (r : Int) :
    Allocator → Prop
  | already (hpool : r ∈ a.bank.pool.regs) (hreg : a.bank.regOf (some b) = some r) :
      Forced pos c b a r a
  | settled {a1 : Allocator} (hpool : r ∈ a.bank.pool.regs)
      (hreg : a.bank.regOf (some b) ≠ some r)
      (hclear : Cleared pos (c.excluding (some b) [r]) a r a1) :
      Forced pos c b a r (a1.settle b r)

theorem force_ends : Ends ((force pos (some b) r c).run a)
    (fun r' a' => r' = r ∧ Forced pos c b a r a') (· = a) := by
  unfold force
  rw [run_get_bind]
  dsimp only
  by_cases hp : r ∈ a.bank.pool.regs
  · rw [if_neg (not_not_intro hp)]
    by_cases hr : a.bank.regOf (some b) = some r
    · rw [if_pos hr]
      exact ⟨rfl, .already hp hr⟩
    · rw [if_neg hr]
      refine clobber_ends.bind (fun _ a1 hc => ?_) fun _ h => h
      refine Ends.of_ok ⟨rfl, .settled hp hr hc⟩ ?_
      unfold Allocator.settle
      rw [run_get_bind]
      cases a1.bank.regOf (some b) with
      | some old => rfl
      | none =>
        dsimp only
        rw [run_seq (run_isInFrame b)]
        by_cases hb : b ∈ a1.bank.inFrame
        · simp only [hb, decide_true, if_true]
          rfl
        · simp only [hb, decide_false, Bool.false_eq_true, if_false]
          rfl
  · rw [if_pos hp]
    rfl

inductive Allocated (pos : Int) (c : Constraint) (b : Box) (a : Allocator) (r : Int) :
    Allocator → Prop
  | already (hreg : a.bank.regOf (some b) = some r) (hfits : c.fits a.bank.pool r) :
      Allocated pos c b a r a
  | pinned {a' : Allocator}
      (hmiss : (a.bank.regOf (some b)).filter (c.fits a.bank.pool) = none)
      (hpinned : c.pinned = some r) (hforced : Forced pos c b a r a') : Allocated pos c b a r a'
  | picked {a1 : Allocator}
      (hmiss : (a.bank.regOf (some b)).filter (c.fits a.bank.pool) = none)
      (hpinned : c.pinned = none) (hpick : Picked pos (c.excluding (some b)) a r a1) :
      Allocated pos c b a r (a1.claim b r)

theorem allocate_ends : Ends ((allocate pos (some b) c).run a) (Allocated pos c b a) (· = a) := by
  unfold allocate
  rw [run_get_bind]
  dsimp only
  cases hf : (a.bank.regOf (some b)).filter (c.fits a.bank.pool) with
  | some r =>
    obtain ⟨hr, hfi⟩ := Option.filter_eq_some_iff.mp hf
    exact Allocated.already hr hfi
  | none =>
    cases hp : c.pinned with
    | some r =>
      refine force_ends.imp ?_ fun _ h => h
      rintro _ a' ⟨rfl, hfo⟩
      exact .pinned hf hp hfo
    | none =>
      refine pick_ends.bind (fun r a1 hpi => ?_) fun _ h => h
      refine Ends.of_ok (.picked hf hp hpi) ?_
      unfold Allocator.claim
      rw [run_get_bind]
      cases a1.bank.regOf (some b) <;> rfl

theorem run_rebind (old new : Box) : (rebind (some old) (some new)).run a =
    match a.bank.regOf (some old) with
    | none => (.error (.error (.rebind (some old))), a)
    | some r => (.ok (), a.handOver old new r) := by
  unfold rebind
  rw [run_get_bind]
  cases a.bank.regOf (some old) <;> rfl

inductive Located (b : Box) (a : Allocator) : Location → Allocator → Prop
  | reg {r : Int} (hreg : a.bank.regOf (some b) = some r) : Located b a (a.loc r) a
  | slot (hreg : a.bank.regOf (some b) = none) (hframe : b ∈ a.bank.inFrame) :
      Located b a (.slot (a.slot b)) (a.withSlot b)

theorem location_ends (b : Box) : Ends ((location (some (.box b))).run a) (Located b a) (· = a) := by
  unfold location
  dsimp only
  rw [run_get_bind]
  cases hr : a.bank.regOf (some b) with
  | some r => exact Located.reg hr
  | none =>
    dsimp only
    rw [run_seq (run_isInFrame b)]
    by_cases hb : b ∈ a.bank.inFrame
    · simp only [hb, decide_true, if_true]
      exact Located.slot hr hb
    · simp only [hb, decide_false, Bool.false_eq_true, if_false]
      rfl

inductive Ensured (pos : Int) (c : Constraint) (a : Allocator) : Value → Int → Allocator → Prop
  | const {k : Const} {r : Int} {a1 : Allocator}
      (halloc : Allocated pos c (a.nextTemp k.kind) (a.withTemp pos k.kind) r a1) :
      Ensured pos c a (.const k) r (a1.emit (a1.loc r) (.imm k.bits) k.kind)
  | bound {b : Box} {r : Int} {a1 : Allocator} (hreg : (a.bank.regOf (some b)).isSome)
      (halloc : Allocated pos c b a r a1) : Ensured pos c a (.box b) r a1
  | loaded {b : Box} {r : Int} {a1 : Allocator} (hreg : a.bank.regOf (some b) = none)
      (hframe : b ∈ a.bank.inFrame) (halloc : Allocated pos c b a r a1) :
      Ensured pos c a (.box b) r (a1.load b r)

theorem ensure_ends (v : Option Value) : Ends ((ensure pos v c).run a)
    (fun r a' => ∃ w, v = some w ∧ Ensured pos c a w r a')
    (fun a' => a' = a ∨ ∃ k, v = some (.const k) ∧ a' = a.withTemp pos k.kind) := by
  unfold ensure
  rcases v with _ | b | k
  · exact .inl rfl
  · dsimp only
    rw [run_get_bind]
    cases hr : a.bank.regOf (some b) with
    | some r =>
      exact allocate_ends.imp (fun _ _ h => ⟨_, rfl, .bound (by rw [hr]; rfl) h⟩) fun _ => .inl
    | none =>
      simp only [Option.isSome_none, Bool.false_eq_true, if_false]
      rw [run_seq (run_isInFrame b)]
      by_cases hf : b ∈ a.bank.inFrame
      · simp only [hf, decide_true, Bool.not_true, Bool.false_eq_true, if_false]
        exact allocate_ends.bind (fun _ _ h => ⟨_, rfl, .loaded hr hf h⟩) fun _ => .inl
      · simp only [hf, decide_false, Bool.not_false, if_true]
        exact .inl rfl
  · dsimp only
    rw [run_seq (run_temp pos k.kind)]
    exact allocate_ends.bind (fun _ _ h => ⟨_, rfl, .const h⟩) fun _ h => .inr ⟨k, rfl, h⟩

/-- How the value of an operand comes to be in a register that belongs to a result. -/
inductive Shared (pos : Int) (c : Constraint) (result : Box) (a : Allocator) :
    Value → Int → Allocator → Prop
  | const {k : Const} {r : Int} {a1 : Allocator} (halloc : Allocated pos c result a r a1) :
      Shared pos c result a (.const k) r (a1.emit (a1.loc r) (.imm k.bits) result.kind)
  | dropped {b : Box} {r : Int} (hreg : a.bank.regOf (some b) = some r)
      (hfits : c.fits a.bank.pool r)
      (hspare : a.lifetimes.liveAfter b pos = false ∨ b ∈ a.bank.inFrame) :
      Shared pos c result a (.box b) r ((a.release (some b)).assign (some result) r)
  | relocated {b : Box} {r other : Int} {a1 : Allocator}
      (hreg : a.bank.regOf (some b) = some r) (hfits : c.fits a.bank.pool r)
      (hframe : b ∉ a.bank.inFrame)
      (hpick : Picked pos (c.unplaced.excluding (some b) [r]) a other a1) :
      Shared pos c result a (.box b) r ((a1.relocate b r other).assign (some result) r)
  | stored {b : Box} {r : Int} (hreg : a.bank.regOf (some b) = some r)
      (hfits : c.fits a.bank.pool r) :
      Shared pos c result a (.box b) r
        (((a.store b r).release (some b)).assign (some result) r)
  | copied {b : Box} {r : Int} {src : Location} {a1 a2 : Allocator} (hloc : Located b a src a1)
      (halloc : Allocated pos (c.excluding (some b)) result a1 r a2) :
      Shared pos c result a (.box b) r (a2.emit (a2.loc r) src result.kind)

variable {result : Box}

private theorem run_shared_bound (pos : Int) (result : Box)
    (hr : a.bank.regOf (some b) = some r) (hf : c.fits a.bank.pool r) : ∃ a',
    (resultInSameRegister pos (some result) (some (.box b)) c).run a = (.ok r, a') ∧
      Shared pos c result a (.box b) r a' := by
  unfold resultInSameRegister
  dsimp only [Option.bind_some, Value.box?]
  rw [run_get_bind]
  simp only [hr, Option.filter_some, hf, if_true]
  rw [run_seq (run_liveAfter pos b)]
  cases hl : a.lifetimes.liveAfter b pos with
  | false => exact ⟨_, rfl, .dropped hr hf (.inl hl)⟩
  | true =>
    simp only [if_true]
    rw [run_seq (run_isInFrame b)]
    by_cases hfr : b ∈ a.bank.inFrame
    · simp only [hfr, decide_true, Bool.not_true, Bool.false_eq_true, if_false]
      exact ⟨_, rfl, .dropped hr hf (.inr hfr)⟩
    simp only [hfr, decide_false, Bool.not_false, if_true]
    rw [run_seq (run_choose? _)]
    cases hc : a.choice? (c.unplaced.excluding (some b) [r]) with
    | none =>
      simp only [Option.isSome_none, Bool.false_eq_true, if_false]
      rw [run_seq (run_store b r)]
      exact ⟨_, rfl, .stored hr hf⟩
    | some other =>
      simp only [Option.isSome_some, if_true]
      rw [run_seq (by rw [run_pick, hc])]
      exact ⟨_, rfl, .relocated hr hf hfr (picked_of_choice hc)⟩

/-- A refused request may have asked for the slot of its operand, and without an operand it has given
the result a register. -/
theorem shared_ends (operand : Option Value) :
    Ends ((resultInSameRegister pos (some result) operand c).run a)
      (fun r a' => ∃ w, operand = some w ∧ Shared pos c result a w r a')
      (fun a' => a' = a ∨ (∃ b, operand = some (.box b) ∧ b ∈ a.bank.inFrame ∧ a' = a.withSlot b) ∨
        operand = none ∧ ∃ r, Allocated pos c result a r a') := by
  rcases operand with _ | b | k
  · exact allocate_ends.bind (fun r _ h => .inr (.inr ⟨rfl, r, h⟩)) fun _ => .inl
  · cases hf : (a.bank.regOf (some b)).filter (c.fits a.bank.pool) with
    | some r =>
      obtain ⟨hr, hfi⟩ := Option.filter_eq_some_iff.mp hf
      obtain ⟨a', hru, hs⟩ := run_shared_bound pos result hr hfi
      exact Ends.of_ok ⟨_, rfl, hs⟩ hru
    | none =>
      unfold resultInSameRegister
      dsimp only [Option.bind_some, Value.box?]
      rw [run_get_bind]
      simp only [hf]
      refine (location_ends b).bind (fun l a1 hl => ?_) fun _ => .inl
      refine allocate_ends.bind (fun r a2 ha => ⟨_, rfl, .copied hl ha⟩) fun _ h => ?_
      subst h
      cases hl with
      | reg => exact .inl rfl
      | slot _ hfr => exact .inr (.inl ⟨b, rfl, hfr, rfl⟩)
  · exact allocate_ends.bind (fun _ _ h => ⟨_, rfl, .const h⟩) fun _ => .inl

inductive Request where
  | bind (b : Box) (r : Int)
  | bindFrame (b : Box) (s : Slot)
  | allocate (pos : Int) (b : Box) (c : Constraint)
  | ensure (pos : Int) (v : Option Value) (c : Constraint)
  | force (pos : Int) (b : Box) (r : Int) (c : Constraint)
  | clobber (pos r : Int) (c : Constraint)
  | resultInSameRegister (pos : Int) (result : Box) (operand : Option Value) (c : Constraint)
  | rebind (old new : Box)
  | spill (b : Box)
  | spillCallerSaved (pos : Int)
  | releaseCallerSaved
  | releaseIfDead (pos : Int) (v : Option Value)
  | endOp (pos : Int) (op : Op)
  | temp (pos : Int) (kind : Kind)
  | location (v : Option Value)

/-- Make a request, and tell the register that it is about, if it is about one. -/
def Request.perform : Request → AllocM (Option Int)
  | bind b r => do
    AllocM.bind b r
    return some r
  | bindFrame b s => do
    AllocM.bindFrame b s
    return none
  | allocate pos b c => return some (← AllocM.allocate pos (some b) c)
  | ensure pos v c => return some (← AllocM.ensure pos v c)
  | force pos b r c => return some (← AllocM.force pos (some b) r c)
  | clobber pos r c => do
    AllocM.clobber pos r c
    return none
  | resultInSameRegister pos result operand c =>
    return some (← AllocM.resultInSameRegister pos (some result) operand c)
  | rebind old new => do
    AllocM.rebind (some old) (some new)
    return (← get).bank.regOf (some new)
  | spill b => do
    AllocM.spill (some b)
    return none
  | spillCallerSaved pos => do
    AllocM.spillCallerSaved pos
    return none
  | releaseCallerSaved => do
    AllocM.releaseCallerSaved
    return none
  | releaseIfDead pos v => do
    AllocM.releaseIfDead pos v
    return none
  | endOp pos op => do
    AllocM.endOp pos op
    return none
  | temp pos kind => do
    let _ ← AllocM.temp pos kind
    return none
  | location v => do
    let _ ← AllocM.location v
    return none

def Request.after (q : Request) (a : Allocator) : Allocator := (q.perform.run a).2

/-- What a refused request leaves behind: a temporary that was to hold a constant, the slot of an
operand, or, when the operand was missing, a register for the result. -/
theorem Request.refused {q : Request} (hr : q.perform.run a = (.error e, a')) :
    a' = a ∨ (∃ pos k c, q = .ensure pos (some (.const k)) c ∧ a' = a.withTemp pos k.kind) ∨
      (∃ b ∈ a.bank.inFrame, a' = a.withSlot b) ∨
      ∃ pos result c r, q = .resultInSameRegister pos result none c ∧ Allocated pos c result a r a' := by
  have hp {α β : Type} {x : AllocM α} {f : α → β}
      (hr : (x >>= fun v => pure (f v)).run a = (.error e, a')) : x.run a = (.error e, a') := by
    rcases run_bind_error hr with h | ⟨_, _, _, h⟩
    · exact h
    · cases h
  cases q with
  | bind b r =>
    have hr := hp hr
    rw [run_bind] at hr
    split at hr <;> cases hr
    exact .inl rfl
  | bindFrame b s => cases hr
  | allocate pos b c => exact .inl (allocate_ends.error (hp hr))
  | ensure pos v c =>
    rcases (ensure_ends v).error (hp hr) with h | ⟨k, rfl, h⟩
    · exact .inl h
    · exact .inr (.inl ⟨pos, k, c, rfl, h⟩)
  | force pos b r c => exact .inl (force_ends.error (hp hr))
  | clobber pos r c => exact .inl (clobber_ends.error (hp hr))
  | resultInSameRegister pos result operand c =>
    rcases (shared_ends operand).error (hp hr) with h | ⟨b, _, hb, h⟩ | ⟨rfl, r, h⟩
    · exact .inl h
    · exact .inr (.inr (.inl ⟨b, hb, h⟩))
    · exact .inr (.inr (.inr ⟨pos, result, c, r, rfl, h⟩))
  | rebind old new =>
    rcases run_bind_error hr with h | ⟨_, _, _, h⟩
    · rw [run_rebind] at h
      split at h <;> cases h
      exact .inl rfl
    · cases h
  | spill => cases run_spill .. ▸ hp hr
  | spillCallerSaved => cases run_spillCallerSaved .. ▸ hp hr
  | releaseCallerSaved => cases run_releaseCallerSaved ▸ hp hr
  | releaseIfDead => cases run_releaseIfDead .. ▸ hp hr
  | endOp => cases run_endOp .. ▸ hp hr
  | temp pos kind => cases hr
  | location v =>
    have hr := hp hr
    rcases v with _ | b | k
    · cases hr
      exact .inl rfl
    · exact .inl ((location_ends b).error hr)
    · cases hr

end AllocM

end TraceCompiler
