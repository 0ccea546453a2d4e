import TraceCompiler.Proofs.Placement.Adjustments

/-! # What requests ask the code to do

The moves of a request go from constants, registers of the pool and slots of boxes to registers of
the pool and slots of boxes (`Adjusts.moves`).
-/

namespace TraceCompiler

open List

namespace Allocator

variable {a a' : Allocator} {p : Pool} {b : Box} {r pos : Int} {keep stored : Box → Prop}
  {σ : Contents} {m : Move}

def Unstored (a : Allocator) (b : Box) : Prop :=
  (a.bank.regOf (some b)).isSome ∧ b ∉ a.bank.inFrame

/-- A move from a source to a register of the pool or the slot of a box that `stored` names. -/
structure Passable (stored : Box → Prop) (a : Allocator) (m : Move) : Prop where
  src : Source a m.src
  dst : (∃ r ∈ a.bank.pool.regs, m.dst = a.loc r) ∨
    ∃ b s, stored b ∧ a.frame.get? b = some s ∧ m.dst = .slot s ∧ m.src.isImm = false

theorem Passable.adjusted (hm : Passable stored a m) (h : Adjusts pos keep x a a') :
    Passable stored a' m where
  src := hm.src.adjusted h
  dst := by
    rcases hm.dst with ⟨r, hr, hd⟩ | ⟨b, s, hb, hs, hd⟩
    · refine .inl ⟨r, h.same.2.2.1 ▸ hr, hd.trans ?_⟩
      rw [loc, loc, h.same.2.2.1]
    · exact .inr ⟨b, s, hb, h.frame.1 b s hs, hd⟩

theorem Passable.mono {stored' : Box → Prop} (hm : Passable stored a m)
    (h : ∀ b, stored b → stored' b) : Passable stored' a m where
  src := hm.src
  dst := hm.dst.imp_right fun ⟨b, s, hb, hs⟩ => ⟨b, s, h b hb, hs⟩

theorem Adjustment.moves (h : Adjustment pos keep x a a') (hs : a.bank.Sound p) :
    ∃ ms, a'.moves.toList = a.moves.toList ++ ms ∧
      ∀ m ∈ ms, Passable (fun b => some b ≠ x ∧ a.Unstored b) a' m := by
  cases h with
  | @store b r hx _ hre =>
    by_cases hb : b ∈ a.bank.inFrame
    · rw [store_of_mem hb]
      exact ⟨[], by simp, by simp⟩
    · rw [store_eq a hb]
      refine ⟨[⟨a.loc r, .slot (a.slot b), b.kind⟩], by simp [markStored, emit, withSlot], ?_⟩
      simp only [forall_mem_singleton]
      exact ⟨.reg (hs.held_sub _ _ hre),
        .inr ⟨b, _, ⟨hx, by simp [hre], hb⟩, Frame.get?_slotOf_self .., rfl, rfl⟩⟩
  | drop => exact ⟨[], by simp [Allocator.release], by simp⟩
  | @relocate b r other _ hre ho =>
    refine ⟨[⟨a.loc r, a.loc other, b.kind⟩], Array.toList_push .., ?_⟩
    simp only [forall_mem_singleton]
    have hp : (a.relocate b r other).bank.pool = a.bank.pool := by simp [Bank.assign]
    have hl (r' : Int) : a.loc r' = (a.relocate b r other).loc r' := by rw [loc, loc, hp]
    refine ⟨?_, .inl ⟨other, hp ▸ hs.free_sub _ ho, hl _⟩⟩
    rw [hl]
    exact .reg (hp ▸ hs.held_sub _ _ hre)
  | @write r src kind hr hsr =>
    refine ⟨[⟨src, a.loc r, kind⟩], by simp [emit], ?_⟩
    simp only [forall_mem_singleton]
    have ha : Adjusts pos keep x a (a.emit (a.loc r) src kind) := .single (.write hr hsr)
    refine ⟨hsr.adjusted ha, .inl ⟨r, ?_, rfl⟩⟩
    rcases hr with hr | ⟨b, _, hb⟩
    · exact hs.free_sub r hr
    · exact hs.held_sub _ r hb
  | place => exact ⟨[], by simp [Allocator.assign], by simp⟩
  | slot => exact ⟨[], by simp [withSlot], by simp⟩

theorem Adjusts.moves (h : Adjusts pos keep x a a') (hs : a.bank.Sound p) :
    ∃ ms, a'.moves.toList = a.moves.toList ++ ms ∧ ∀ m ∈ ms, Passable a.Unstored a' m := by
  induction h with
  | refl => exact ⟨[], by simp, by simp⟩
  | @tail a1 a2 hr hst ih =>
    obtain ⟨ms, hms, hp⟩ := ih
    obtain ⟨ms', hms', hp'⟩ := hst.moves (Adjusts.sound hr hs)
    refine ⟨ms ++ ms', by rw [hms', hms, append_assoc], fun m hm => ?_⟩
    rcases mem_append.mp hm with hm | hm
    · exact (hp m hm).adjusted (.single hst)
    · refine (hp' m hm).mono fun b hb => ⟨Adjusts.bound hr hb.1 hb.2.1, fun h => ?_⟩
      exact hb.2.2 ((Adjusts.frame hr).2 b h)

theorem Adjustment.inFrame_inv (h : Adjustment pos keep x a a') (hk : some b = x ∨ keep b)
    (hb : b ∈ a'.bank.inFrame) : b ∈ a.bank.inFrame := by
  cases h with
  | @store b' r hx hd =>
    by_cases hm : b' ∈ a.bank.inFrame
    · rwa [store_of_mem hm] at hb
    · rw [store_eq a hm] at hb
      rcases mem_cons.mp hb with rfl | hb
      · exact (hk.elim hx hd).elim
      · exact hb
  | drop => simpa using hb
  | relocate => simpa using hb
  | write => exact hb
  | place => exact hb
  | slot => exact hb

theorem Adjusts.inFrame_inv (h : Adjusts pos keep x a a') (hk : some b = x ∨ keep b)
    (hb : b ∈ a'.bank.inFrame) : b ∈ a.bank.inFrame := by
  induction h with
  | refl => exact hb
  | tail _ hs ih => exact ih (hs.inFrame_inv hk hb)

theorem Adjustment.frame_eq (h : Adjustment pos keep x a a') : a'.frame = a.frame ∨
    ∃ b, ((a.bank.regOf (some b)).isSome ∧ some b ≠ x ∧ ¬ keep b ∨ b ∈ a.bank.inFrame) ∧
      a'.frame = (a.frame.slotOf b).2 := by
  cases h with
  | @store b r hx hkeep hr =>
    by_cases hb : b ∈ a.bank.inFrame
    · exact .inl (by rw [store_of_mem hb])
    · exact .inr ⟨b, .inl ⟨by simp [hr], hx, hkeep⟩, by rw [store_eq a hb]; rfl⟩
  | @slot b hb => exact .inr ⟨b, .inr hb, rfl⟩
  | _ => exact .inl rfl

/-- Whatever has a place or a slot was made before, and what is stored has a slot. -/
structure Tidy (a : Allocator) : Prop where
  placed : ∀ b, a.Placed b → b.id ≤ a.supply.made
  slots : ∀ b s, a.frame.get? b = some s → b.id ≤ a.supply.made
  stored : ∀ b ∈ a.bank.inFrame, (a.frame.get? b).isSome

theorem Adjustment.tidy (h : Adjustment pos keep x a a') (ht : a.Tidy)
    (hx : ∀ b ∈ x, b.id ≤ a.supply.made) : a'.Tidy where
  placed := by
    intro b hb
    rw [h.same.2.1]
    by_cases he : some b = x
    · exact hx b he.symm
    · exact ht.placed b (h.placed_inv he hb)
  slots := by
    intro b s hb
    rw [h.same.2.1]
    rcases h.frame_eq with he | ⟨b', hb', he⟩
    · exact ht.slots b s (he ▸ hb)
    · rw [he, Frame.get?_slotOf] at hb
      split at hb
      · rename_i he
        exact he ▸ ht.placed b' (hb'.imp And.left id)
      · exact ht.slots b s hb
  stored := by
    intro b hb
    by_cases hm : b ∈ a.bank.inFrame
    · obtain ⟨s, hs⟩ := Option.isSome_iff_exists.mp (ht.stored b hm)
      rw [h.frame.1 b s hs]
      rfl
    · -- Only storing a box makes it a stored one.
      cases h with
      | @store b' r _ _ hr =>
        by_cases hm' : b' ∈ a.bank.inFrame
        · rw [store_of_mem hm'] at hb
          exact absurd hb hm
        · rw [store_eq a hm'] at hb ⊢
          rcases mem_cons.mp hb with rfl | hb
          · change ((a.frame.slotOf b).2.get? b).isSome
            rw [Frame.get?_slotOf_self]
            rfl
          · exact absurd hb hm
      | drop => exact absurd (by simpa using hb) hm
      | relocate => exact absurd (by simpa using hb) hm
      | write => exact absurd hb hm
      | place => exact absurd hb hm
      | slot => exact absurd hb hm

section

variable (h : Adjusts pos keep x a a') (ht : a.Tidy) (hx : ∀ b ∈ x, b.id ≤ a.supply.made)
include h ht hx

theorem Adjusts.tidy : a'.Tidy := by
  induction h with
  | refl => exact ht
  | tail hr hs ih => exact hs.tidy ih ((Adjusts.same hr).2.1 ▸ hx)

/-- Slots are handed out to boxes that are stored, from registers that they may lose. -/
theorem Adjusts.history : ∃ bs : List Box, a.frame.History (bs.map some) a'.frame ∧
      ∀ b ∈ bs, (a.bank.regOf (some b)).isSome ∧ some b ≠ x ∧ ¬ keep b := by
  induction h with
  | refl => exact ⟨[], .refl _, by simp⟩
  | @tail a1 a2 hr hst ih =>
    obtain ⟨bs, hbs, hof⟩ := ih
    rcases hst.frame_eq with he | ⟨b, hb, he⟩
    · exact ⟨bs, he ▸ hbs, hof⟩
    · rcases Frame.History.slotOf a1.frame b with hsa | ⟨hn, hnw⟩
      · exact ⟨bs, by simpa [he] using hbs.trans hsa, hof⟩
      · refine ⟨bs ++ [b], by simpa [he] using hbs.trans hnw, fun b' hb' => ?_⟩
        rcases mem_append.mp hb' with hb' | hb'
        · exact hof b' hb'
        · cases mem_singleton.mp hb'
          rcases hb with ⟨hre, hne, hkeep⟩ | hb
          · exact ⟨Adjusts.bound hr hne hre, hne, hkeep⟩
          · -- What is stored has a slot already.
            have hs := (Adjusts.tidy hr ht hx).stored b hb
            rw [hn] at hs
            cases hs

end

/-- An allocator in which boxes have given up registers, but none of `keep`. -/
structure Shrinks (keep : Box → Prop) (a a' : Allocator) : Prop where
  lifetimes : a'.lifetimes = a.lifetimes
  frame : a'.frame = a.frame
  supply : a'.supply = a.supply
  moves : a'.moves = a.moves
  stored : a'.bank.inFrame = a.bank.inFrame
  temps : ∀ t ∈ a'.bank.temps, t ∈ a.bank.temps
  dropped : ∀ t ∈ a.bank.temps, t ∈ a'.bank.temps ∨ a'.bank.regOf (some t) = none
  sub : ∀ h r, a'.bank.regOf h = some r → a.bank.regOf h = some r
  sound : ∀ p, a.bank.Sound p → a'.bank.Sound p
  kept : ∀ b, keep b → a'.bank.regOf (some b) = a.bank.regOf (some b)

namespace Shrinks

variable {t : Box} {ts : List Box}

theorem refl (keep : Box → Prop) (a : Allocator) : Shrinks keep a a :=
  ⟨rfl, rfl, rfl, rfl, rfl, fun _ h => h, fun _ h => .inl h, fun _ _ h => h, fun _ h => h,
    fun _ _ => rfl⟩

theorem regOf_none (h : Shrinks keep a a') (hx : a.bank.regOf x = none) : a'.bank.regOf x = none :=
  Option.eq_none_iff_forall_ne_some.mpr fun r hr => by
    cases hx.symm.trans (h.sub x r hr)

theorem trans (h : Shrinks keep a a') (h' : Shrinks keep a' a'') : Shrinks keep a a'' where
  lifetimes := h'.lifetimes.trans h.lifetimes
  frame := h'.frame.trans h.frame
  supply := h'.supply.trans h.supply
  moves := h'.moves.trans h.moves
  stored := h'.stored.trans h.stored
  temps := fun t ht => h.temps t (h'.temps t ht)
  dropped := fun t ht => (h.dropped t ht).elim (h'.dropped t) fun hn =>
    .inr (h'.regOf_none hn)
  sub := fun x r hr => h.sub x r (h'.sub x r hr)
  sound := fun p hp => h'.sound p (h.sound p hp)
  kept := fun b hb => (h'.kept b hb).trans (h.kept b hb)

theorem release (hb : ¬ keep b) (a : Allocator) : Shrinks keep a (a.release (some b)) where
  lifetimes := rfl
  frame := rfl
  supply := rfl
  moves := rfl
  stored := inFrame_release ..
  temps := fun t ht => by simpa using ht
  dropped := fun t ht => .inl (by simpa using ht)
  sub := by
    intro h r hr
    rw [bank_release, Bank.regOf_release] at hr
    split at hr
    · cases hr
    · exact hr
  sound := fun _ hs => hs.release _
  kept := by
    intro b' hb'
    have hne : b' ≠ b := fun he => hb (he ▸ hb')
    rw [bank_release, Bank.regOf_release, if_neg (by simpa using hne)]

theorem untemp (hts : ∀ t ∈ a.bank.temps, a.bank.regOf (some t) = none) :
    Shrinks keep a { a with bank := { a.bank with temps := [] } } :=
  ⟨rfl, rfl, rfl, rfl, rfl, by simp, fun t ht => .inr (hts t ht), fun _ _ h => h,
    fun _ hs => hs.with_frame .., fun _ _ => rfl⟩

theorem untempOne (ht : a.bank.regOf (some t) = none) :
    Shrinks keep a { a with bank := { a.bank with temps := a.bank.temps.erase t } } := by
  refine ⟨rfl, rfl, rfl, rfl, rfl, fun _ h => mem_of_mem_erase h, fun t' ht' => ?_,
    fun _ _ h => h, fun _ hs => hs.with_frame .., fun _ _ => rfl⟩
  by_cases he : t' = t
  · exact .inr (he ▸ ht)
  · exact .inl ((mem_erase_of_ne he).mpr ht')

theorem foldl {ι : Type} {step : Allocator → ι → Allocator} {l : List ι}
    (hs : ∀ a', a'.lifetimes = a.lifetimes → ∀ i ∈ l, Shrinks keep a' (step a' i)) :
    Shrinks keep a (l.foldl step a) :=
  foldlRecOn (motive := fun a' => Shrinks keep a a') l step (.refl keep a)
    fun a' h i hi => h.trans (hs a' h.lifetimes i hi)

theorem releaseAll (hts : ∀ t ∈ ts, ¬ keep t) :
    Shrinks keep a (ts.foldl (fun a t => a.release (some t)) a) :=
  foldl fun a' _ t ht => release (hts t ht) a'

theorem temps_foldl_release (ts : List Box) (a : Allocator) :
    (ts.foldl (fun a t => a.release (some t)) a).bank.temps = a.bank.temps := by
  induction ts generalizing a with
  | nil => rfl
  | cons t ts ih => rw [foldl_cons, ih, bank_release, temps_release]

theorem regOf_foldl_release (ht : t ∈ ts) :
    (ts.foldl (fun a t => a.release (some t)) a).bank.regOf (some t) = none := by
  induction ts generalizing a with
  | nil => cases ht
  | cons t' ts ih =>
    rw [foldl_cons]
    rcases mem_cons.mp ht with rfl | ht
    · have hs : Shrinks (fun _ => False) _ _ := releaseAll (a := a.release (some t))
        fun t' (_ : t' ∈ ts) => id
      refine hs.regOf_none ?_
      rw [bank_release, Bank.regOf_release, if_pos rfl]
    · exact ih ht

section

variable (hkeep : ∀ b, keep b → pos < a.lifetimes.lastUse b)
include hkeep

theorem releaseIfDead (v : Option Value) : Shrinks keep a (a.releaseIfDead pos v) := by
  unfold Allocator.releaseIfDead
  split
  · exact .refl keep a
  · split
    · exact .refl keep a
    · rename_i b _ hd
      refine release (fun hb => hd ?_) a
      simpa [Lifetimes.liveAfter] using hkeep b hb

theorem releaseDead (vs : List (Option Value)) :
    Shrinks keep a (vs.foldl (Allocator.releaseIfDead pos) a) :=
  foldl fun _ h v _ => releaseIfDead (h ▸ hkeep) v

theorem endOp (hte : ∀ t ∈ a.bank.temps, ¬ keep t) (op : Op) : Shrinks keep a (a.endOp pos op) := by
  have h1 : Shrinks keep a (op.args.foldl (Allocator.releaseIfDead pos) a) := releaseDead hkeep _
  have h2 := h1.trans (releaseDead (h1.lifetimes ▸ hkeep) op.failArgs)
  have h3 := h2.trans (releaseIfDead (h2.lifetimes ▸ hkeep) (op.result.map Value.box))
  refine (h3.trans (releaseAll fun t ht => hte t (h3.temps t ht))).trans (untemp ?_)
  intro t ht
  rw [temps_foldl_release] at ht
  exact regOf_foldl_release ht

end

theorem forgetAt (hs : a.bank.Sound p) (r : Int)
    (hkeep : r ∈ p.callerSaved → ∀ b, keep b → a.bank.regOf (some b) ≠ some r) :
    Shrinks keep a (a.forgetAt r) ∧ (r ∈ p.callerSaved → ∀ h, (a.forgetAt r).bank.regOf h ≠ some r) := by
  unfold Allocator.forgetAt
  rw [hs.pool_eq]
  split
  · rename_i hr
    split
    · rename_i ho
      refine ⟨.refl keep _, fun _ h hre => ?_⟩
      cases (hs.owner_eq_none.mp ho).symm.trans ((hs.inverse h r).mp hre)
    · rename_i b ho
      have hre := hs.ownerOf_eq_some.mp ho
      refine ⟨release (fun hb => hkeep hr b hb hre) _, fun _ h hre' => ?_⟩
      rw [bank_release, Bank.regOf_release] at hre'
      split at hre'
      · cases hre'
      · rename_i hne
        exact hne (hs.holder_unique hre' hre)
  · rename_i hr
    exact ⟨.refl keep _, fun h => absurd h hr⟩

theorem forget (hs : a.bank.Sound p)
    (hkeep : ∀ r ∈ p.callerSaved, ∀ b, keep b → a.bank.regOf (some b) ≠ some r)
    (l : List Int) : Shrinks keep a (l.foldl Allocator.forgetAt a) ∧ ∀ r ∈ l, r ∈ p.callerSaved → ∀ h,
        (l.foldl Allocator.forgetAt a).bank.regOf h ≠ some r := by
  induction l using reverseRecOn with
  | nil => exact ⟨.refl keep a, by simp⟩
  | append_singleton l r ih =>
    obtain ⟨hf, hg⟩ := ih
    simp only [foldl_append, foldl_cons, foldl_nil]
    obtain ⟨hl, hr⟩ := forgetAt (hf.sound p hs) r fun hr b hb hre =>
      hkeep r hr b hb (hf.sub _ _ hre)
    refine ⟨hf.trans hl, fun r' hr' hsa h hre => ?_⟩
    rcases mem_append.mp hr' with hr' | hr'
    · exact hg r' hr' hsa h (hl.sub _ _ hre)
    · cases mem_singleton.mp hr'
      exact hr hsa h hre

theorem holds (h : Shrinks keep a a') (hs : a.bank.Sound p) (hh : Holds none a σ value) :
    Holds none a' σ value where
  reg := by
    intro b r _ hr
    have hp : a'.bank.pool = a.bank.pool := (h.sound p hs).pool_eq.trans hs.pool_eq.symm
    rw [now, h.moves, loc, hp]
    exact hh.register (h.sub _ _ hr)
  slot := by
    intro b hb
    rw [now, h.moves, h.frame]
    exact hh.slot b (h.stored ▸ hb)

theorem placed_inv (h : Shrinks keep a a') (hb : a'.Placed b) : a.Placed b := by
  rcases hb with hb | hb
  · obtain ⟨r, hr⟩ := Option.isSome_iff_exists.mp hb
    exact .inl (by rw [h.sub _ r hr]; rfl)
  · exact .inr (h.stored ▸ hb)

theorem placed (h : Shrinks keep a a') (hkeep : keep b) (hb : a.Placed b) : a'.Placed b := by
  rcases hb with hb | hb
  · exact .inl (by rwa [h.kept b hkeep])
  · exact .inr (h.stored.symm ▸ hb)

end Shrinks

theorem now_store_reg (a : Allocator) (b : Box) (r : Int) (σ : Contents) (q : Reg) :
    (a.store b r).now σ (.reg q) = a.now σ (.reg q) := by
  by_cases hb : b ∈ a.bank.inFrame
  · rw [store_of_mem hb]
  · rw [store_eq a hb]
    change ((a.withSlot b).emit (.slot (a.slot b)) (a.loc r) b.kind).now σ (.reg q) = _
    rw [now_emit, Contents.move_of_ne (by simp), now_withSlot]

end Allocator

namespace AllocM

open Allocator

variable {a : Allocator} {r pos q : Int}

theorem Picked.now_reg (hp : Picked pos c a r a') (σ : Contents) (q : Reg) :
    a'.now σ (.reg q) = a.now σ (.reg q) := by
  cases hp with
  | free => rfl
  | evicted =>
    unfold Allocator.evict
    split
    · rfl
    · rw [now_release]
      split
      · exact now_store_reg ..
      · rfl

theorem Allocated.now_reg (ha : Allocated pos c b a r a') (hs : a.bank.Sound p)
    (hpi : c.pinned = none) (hn : a.bank.regOf (some b) = none) (σ : Contents) (q : Reg) :
    a'.now σ (.reg q) = a.now σ (.reg q) := by
  cases ha with
  | already hr => cases hn.symm.trans hr
  | pinned _ h => cases hpi.symm.trans h
  | @picked a1 _ _ hp =>
    have hr := (regOf_excluded (hp.adjusts hs (by simp))).trans hn
    have hc : a1.claim b r = a1.assign (some b) r := by
      unfold claim
      rw [hr]
    rw [hc, now_assign]
    exact hp.now_reg σ q

theorem Allocated.fits (ha : Allocated pos c b a r a') (hs : a.bank.Sound p)
    (hp : c.pinned = none) : c.fits a.bank.pool r := by
  cases ha with
  | already _ hf => exact hf
  | pinned _ h => cases hp.symm.trans h
  | picked _ _ hpi =>
    have hf := (hpi.registers hs).2.2.1
    simpa [Constraint.fits, Constraint.excluding] using hf

theorem Allocated.pinned_eq (ha : Allocated pos c b a r a') (hp : c.pinned = some q) : r = q := by
  cases ha with
  | already _ hf => exact ((Constraint.fits_iff.mp hf).1 q hp).symm
  | pinned _ h => exact Option.some.inj (h.symm.trans hp)
  | picked _ h => cases h.symm.trans hp

theorem Shared.pinned_eq (hs : Shared pos c result a v r a') (hp : c.pinned = some q) : r = q := by
  cases hs with
  | const ha => exact ha.pinned_eq hp
  | dropped _ hf | relocated _ hf | stored _ hf =>
    exact ((Constraint.fits_iff.mp hf).1 q hp).symm
  | copied _ ha => exact ha.pinned_eq (c := c.excluding _) hp

theorem Ensured.fits (he : Ensured pos c a v r a') (hs : a.bank.Sound p)
    (hp : c.pinned = none) : c.fits a.bank.pool r := by
  cases he with
  | const ha => exact ha.fits (sound_withTemp hs ..) hp
  | bound _ ha => exact ha.fits hs hp
  | loaded _ _ ha => exact ha.fits hs hp

/-- An operand whose register does not suit the result stays where it is. -/
theorem Shared.regOf_operand (hsh : Shared pos c result a (.box b) r a')
    (hs : a.bank.Sound p) (hn : a.bank.regOf (some result) = none)
    (hr : a.bank.regOf (some b) = some r') (hm : ¬ c.fits a.bank.pool r') :
    a'.bank.regOf (some b) = some r' := by
  have hne : b ≠ result := by
    rintro rfl
    rw [hr] at hn
    cases hn
  cases hsh with
  | dropped hr' hf | relocated hr' hf | stored hr' hf =>
    cases hr.symm.trans hr'
    exact absurd hf hm
  | copied hl ha =>
    obtain ⟨_, hb⟩ := hl.adjusts pos (fun _ => True) none
    refine (ha.adjusts (p := p) (hb ▸ hs)).regOf_keep
      ⟨by simpa using hne, .inl ?_⟩ (hb ▸ hr)
    simp [Constraint.excluding]

end AllocM

end TraceCompiler
