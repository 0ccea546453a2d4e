import Mathlib.Data.List.Induction
import Mathlib.Logic.Relation
import TraceCompiler.Proofs.Placement.MoveSequence
import TraceCompiler.Proofs.Placement.Bookkeeping

/-! # What requests are made of

Every request on behalf of a box is a sequence of a few kinds of changes: a box is stored to its slot,
gives up a register that it does not need, or moves to a free one; a word is written to a register
that is free or meant for the box of the request; and that box is placed.
-/

namespace TraceCompiler

open List Contents

def Value.word (value : Box → Word) : Value → Word
  | .box b => value b
  | .const k => k.bits

namespace Allocator

variable {a a' : Allocator} {p : Pool} {b b' : Box} {r other pos : Int} {x : Option Box}
  {keep keep' : Box → Prop} {σ : Contents} {value : Box → Word} {f : Frame} {l : Location}

def now (a : Allocator) (σ : Contents) : Contents := σ.moveAll a.moves.toList

@[simp] theorem now_emit (a : Allocator) (dst src : Location) (kind : Kind) (σ : Contents) :
    (a.emit dst src kind).now σ = (a.now σ).move ⟨src, dst, kind⟩ := by
  simp [now, emit, moveAll]

@[simp] theorem now_assign (a : Allocator) (h : Holder) (r : Int) (σ : Contents) :
    (a.assign h r).now σ = a.now σ := rfl

@[simp] theorem now_release (a : Allocator) (h : Holder) (σ : Contents) :
    (a.release h).now σ = a.now σ := rfl

@[simp] theorem now_withSlot (a : Allocator) (b : Box) (σ : Contents) :
    (a.withSlot b).now σ = a.now σ := rfl

def Placed (a : Allocator) (b : Box) : Prop :=
  (a.bank.regOf (some b)).isSome ∨ b ∈ a.bank.inFrame

/-- Registers and slots hold the values of their boxes; what the register of `x` holds is left
open. -/
structure Holds (x : Option Box) (a : Allocator) (σ : Contents) (value : Box → Word) : Prop where
  reg : ∀ b r, some b ≠ x → a.bank.regOf (some b) = some r → a.now σ (a.loc r) = value b
  slot : ∀ b ∈ a.bank.inFrame, ∃ s, a.frame.get? b = some s ∧ a.now σ (.slot s) = value b

theorem Holds.register (hh : Holds none a σ value) (hr : a.bank.regOf (some b) = some r) :
    a.now σ (a.loc r) = value b := hh.reg b r (Option.some_ne_none b) hr

/-- Where a move may take its word from: a constant, a register of the pool or the slot of a box. -/
inductive Source (a : Allocator) : Location → Prop
  | imm (w : Word) : Source a (.imm w)
  | reg {r : Int} (hr : r ∈ a.bank.pool.regs) : Source a (a.loc r)
  | slot {b : Box} {s : Slot} (hs : a.frame.get? b = some s) : Source a (.slot s)

/-- In the frame `f`, boxes other than `x` that are in a register only have slots of their own. -/
def Clear (x : Option Box) (a : Allocator) (f : Frame) : Prop :=
  ∀ b b' s, some b ≠ x → (a.bank.regOf (some b)).isSome → b ∉ a.bank.inFrame →
    f.get? b = some s → f.get? b' = some s → b = b'

theorem Clear.of_extends (h : Clear x a f') (hf : f'.Extends f) : Clear x a f :=
  fun b b' s hx hr hb hs hs' => h b b' s hx hr hb (hf b s hs) (hf b' s hs')

theorem Clear.weaken (h : Clear none a f) (x : Option Box) : Clear x a f :=
  fun b b' s _ => h b b' s (Option.some_ne_none b)

theorem Clear.of_distinct (h : f.Distinct) : Clear x a f := fun b b' s _ _ _ => h b b' s

/-- A change that a request for the box `x` may make at `pos`, where the boxes of `keep` stay where
they are. -/
inductive Adjustment (pos : Int) (keep : Box → Prop) (x : Option Box) (a : Allocator) :
    Allocator → Prop
  | store {b : Box} {r : Int} (hx : some b ≠ x) (hkeep : ¬ keep b)
      (hreg : a.bank.regOf (some b) = some r) : Adjustment pos keep x a (a.store b r)
  | drop {b : Box} (hkeep : ¬ keep b)
      (hspare : b ∈ a.bank.inFrame ∨ a.lifetimes.lastUse b ≤ pos) :
      Adjustment pos keep x a (a.release (some b))
  | relocate {b : Box} {r other : Int} (hkeep : ¬ keep b)
      (hreg : a.bank.regOf (some b) = some r) (hother : other ∈ a.bank.free) :
      Adjustment pos keep x a (a.relocate b r other)
  | write {r : Int} {src : Location} {kind : Kind}
      (hr : r ∈ a.bank.free ∨ ∃ b, x = some b ∧ a.bank.regOf (some b) = some r)
      (hsrc : Source a src) :
      Adjustment pos keep x a (a.emit (a.loc r) src kind)
  | place {b : Box} {r : Int} (hx : x = some b) (hreg : a.bank.regOf (some b) = none)
      (hr : r ∈ a.bank.free) : Adjustment pos keep x a (a.assign (some b) r)
  | slot {b : Box} (hb : b ∈ a.bank.inFrame) : Adjustment pos keep x a (a.withSlot b)

abbrev Adjusts (pos : Int) (keep : Box → Prop) (x : Option Box) : Allocator → Allocator → Prop :=
  Relation.ReflTransGen (Adjustment pos keep x)

@[simp] theorem inFrame_release (k : Bank) (h : Holder) : (k.release h).inFrame = k.inFrame := by
  unfold Bank.release
  split <;> rfl

@[simp] theorem inFrame_assign (k : Bank) (h : Holder) (r : Int) :
    (k.assign h r).inFrame = k.inFrame := rfl

@[simp] theorem temps_release (k : Bank) (h : Holder) : (k.release h).temps = k.temps := by
  unfold Bank.release
  split <;> rfl

theorem store_eq (a : Allocator) (hb : b ∉ a.bank.inFrame) (r : Int) :
    a.store b r = ((a.withSlot b).emit (.slot (a.slot b)) (a.loc r) b.kind).markStored b := if_neg hb

theorem store_of_mem (hb : b ∈ a.bank.inFrame) (r : Int) : a.store b r = a := if_pos hb

section

variable (h : Adjustment pos keep x a a')
include h

theorem Adjustment.same : a'.lifetimes = a.lifetimes ∧ a'.supply = a.supply ∧ a'.bank.pool = a.bank.pool ∧
      a'.bank.temps = a.bank.temps := by
  cases h with
  | @store b r =>
    by_cases hb : b ∈ a.bank.inFrame
    · rw [store_of_mem hb]
      exact ⟨rfl, rfl, rfl, rfl⟩
    · rw [store_eq a hb]
      exact ⟨rfl, rfl, rfl, rfl⟩
  | drop => exact ⟨rfl, rfl, Bank.pool_release .., temps_release ..⟩
  | relocate => exact ⟨rfl, rfl, Bank.pool_release .., temps_release ..⟩
  | write => exact ⟨rfl, rfl, rfl, rfl⟩
  | place => exact ⟨rfl, rfl, rfl, rfl⟩
  | slot => exact ⟨rfl, rfl, rfl, rfl⟩

theorem Adjustment.sound (hs : a.bank.Sound p) : a'.bank.Sound p := by
  cases h with
  | store => exact sound_store hs ..
  | drop => exact hs.release _
  | relocate _ _ ho => exact sound_relocate hs ho
  | write => exact hs
  | place _ hre hr => exact hs.assign hr hre
  | slot => exact hs

theorem Adjustment.frame : a'.frame.Extends a.frame ∧ ∀ b ∈ a.bank.inFrame, b ∈ a'.bank.inFrame := by
  cases h with
  | @store b r =>
    by_cases hb : b ∈ a.bank.inFrame
    · rw [store_of_mem hb]
      exact ⟨.refl _, fun _ h => h⟩
    · rw [store_eq a hb]
      exact ⟨Frame.extends_slotOf a.frame b, fun _ h => mem_cons_of_mem _ h⟩
  | drop => exact ⟨.refl _, fun b hb => by simpa using hb⟩
  | relocate => exact ⟨.refl _, fun b hb => by simpa using hb⟩
  | write => exact ⟨.refl _, fun _ h => h⟩
  | place => exact ⟨.refl _, fun _ h => h⟩
  | @slot b => exact ⟨Frame.extends_slotOf a.frame b, fun _ h => h⟩

theorem Adjustment.regOf_keep (hke : keep b) (hr : a.bank.regOf (some b) = some r) :
    a'.bank.regOf (some b) = some r := by
  cases h with
  | store => rwa [regOf_store]
  | @drop b' hk =>
    have hne : b ≠ b' := fun he => hk (he ▸ hke)
    simpa [hne] using hr
  | @relocate b' _ _ hk =>
    have hne : b ≠ b' := fun he => hk (he ▸ hke)
    simpa [hne] using hr
  | write => exact hr
  | @place b' _ _ hn =>
    have hne : b ≠ b' := by
      rintro rfl
      rw [hr] at hn
      cases hn
    simpa [hne] using hr
  | slot => exact hr

theorem Adjustment.bound (hx : some b ≠ x) (hr : (a'.bank.regOf (some b)).isSome) :
    (a.bank.regOf (some b)).isSome := by
  cases h with
  | store => rwa [regOf_store] at hr
  | @drop b' =>
    by_cases he : b = b'
    · simp [he] at hr
    · simpa [he] using hr
  | @relocate b' r' _ _ hr' =>
    by_cases he : b = b'
    · rw [he, hr']
      rfl
    · simpa [he] using hr
  | write => exact hr
  | @place b' _ hb' =>
    have he : b ≠ b' := fun he => hx (by rw [he, hb'])
    simpa [he] using hr
  | slot => exact hr

theorem Adjustment.placed (hb : a.Placed b) (hl : pos < a.lifetimes.lastUse b) : a'.Placed b := by
  rcases hb with hb | hb
  · cases h with
    | store => exact .inl (by rwa [regOf_store])
    | @drop b' _ hs =>
      by_cases he : b = b'
      · subst he
        rcases hs with hs | hs
        · exact .inr (by simpa using hs)
        · omega
      · exact .inl (by simpa [he] using hb)
    | @relocate b' _ _ =>
      by_cases he : b = b'
      · exact .inl (by simp [he])
      · exact .inl (by simpa [he] using hb)
    | write => exact .inl hb
    | @place b' =>
      by_cases he : b = b'
      · exact .inl (by simp [he])
      · exact .inl (by simpa [he] using hb)
    | slot => exact .inl hb
  · exact .inr (h.frame.2 b hb)

end

theorem loc_injective (a : Allocator) (h : a.loc r = a.loc other) : r = other := by
  cases h
  rfl

section

variable (hh : Holds x a σ value)
include hh

theorem Holds.write (hs : a.bank.Sound p)
    (hr : r ∈ a.bank.free ∨ ∃ b, x = some b ∧ a.bank.regOf (some b) = some r) (src : Location)
    (kind : Kind) : Holds x (a.emit (a.loc r) src kind) σ value where
  reg := by
    intro b r' hb hre
    have hne : r ≠ r' := by
      rintro rfl
      rcases hr with hr | ⟨b', hb', hre'⟩
      · exact hs.not_free_of_held hre hr
      · exact hb (by rw [hb', hs.holder_unique hre hre'])
    rw [now_emit, move_of_ne fun he => hne (a.loc_injective he)]
    exact hh.reg b r' hb hre
  slot := by
    intro b hb
    obtain ⟨s, hs, hv⟩ := hh.slot b hb
    exact ⟨s, hs, by rwa [now_emit, move_of_ne (by simp [loc])]⟩

theorem Holds.store (hx : some b ≠ x) (hr : a.bank.regOf (some b) = some r)
    (hd : Clear x a (a.store b r).frame) : Holds x (a.store b r) σ value := by
  by_cases hb : b ∈ a.bank.inFrame
  · rwa [store_of_mem hb]
  rw [store_eq a hb] at hd ⊢
  constructor
  · intro b' r' hb' hr'
    change ((a.withSlot b).emit (.slot (a.slot b)) (a.loc r) b.kind).now σ (a.loc r') = _
    rw [now_emit, move_of_ne (by simp [loc])]
    exact hh.reg b' r' hb' hr'
  · intro b' hb'
    change ∃ s, _ ∧ ((a.withSlot b).emit (.slot (a.slot b)) (a.loc r) b.kind).now σ (.slot s) = _
    simp only [now_emit, now_withSlot]
    rcases mem_cons.mp hb' with rfl | hm
    · refine ⟨a.slot b', Frame.get?_slotOf_self .., ?_⟩
      rw [move_dst]
      exact hh.reg b' r hx hr
    · obtain ⟨s, hs, hv⟩ := hh.slot b' hm
      have hs' : (a.frame.slotOf b).2.get? b' = some s := Frame.extends_slotOf _ _ _ _ hs
      refine ⟨s, hs', ?_⟩
      rw [move_of_ne, hv]
      rintro he
      cases he
      have he := hd b b' _ hx (by rw [hr]; rfl) hb (Frame.get?_slotOf_self ..) hs'
      exact hb (he ▸ hm)

theorem Holds.release (h : Holder) : Holds x (a.release h) σ value where
  reg := by
    intro b r hb hr
    rw [bank_release, Bank.regOf_release] at hr
    split at hr
    · cases hr
    · rw [now_release, ← hh.reg b r hb hr]
      simp [loc]
  slot := by
    intro b hb
    rw [bank_release, inFrame_release] at hb
    exact hh.slot b hb

theorem Holds.relocate (hs : a.bank.Sound p) (hr : a.bank.regOf (some b) = some r)
    (ho : other ∈ a.bank.free) : Holds x (a.relocate b r other) σ value := by
  have hw := hh.write hs (.inl ho) (a.loc r) b.kind
  constructor
  · intro b' r' hb' hr'
    have hl : (a.relocate b r other).loc r' = a.loc r' := by simp [loc, Bank.assign]
    change ((a.emit (a.loc other) (a.loc r) b.kind)).now σ ((a.relocate b r other).loc r') = _
    rw [hl]
    by_cases he : b' = b
    · subst he
      simp only [bank_relocate, Bank.regOf_assign, if_true, Option.some.injEq] at hr'
      subst hr'
      rw [now_emit, move_dst]
      exact hh.reg b' r hb' hr
    · have hr' : a.bank.regOf (some b') = some r' := by simpa [he] using hr'
      exact hw.reg b' r' hb' hr'
  · intro b' hb'
    exact hw.slot b' (by simpa using hb')

theorem Holds.place (hx : x = some b) (r : Int) : Holds x (a.assign (some b) r) σ value where
  reg := by
    intro b' r' hb' hr
    have he : b' ≠ b := fun he => hb' (by rw [he, hx])
    exact hh.reg b' r' hb' (by simpa [he] using hr)
  slot := fun b' hb' => hh.slot b' hb'

theorem Holds.withSlot (b : Box) : Holds x (a.withSlot b) σ value where
  reg := hh.reg
  slot := by
    intro b' hb'
    obtain ⟨s, hs, hv⟩ := hh.slot b' hb'
    exact ⟨s, Frame.extends_slotOf _ _ _ _ hs, hv⟩

end

theorem Adjustment.holds (h : Adjustment pos keep x a a') (hs : a.bank.Sound p)
    (hd : Clear x a a'.frame) (hh : Holds x a σ value) : Holds x a' σ value := by
  cases h with
  | store hx _ hre => exact hh.store hx hre hd
  | drop => exact hh.release _
  | relocate _ hre ho => exact hh.relocate hs hre ho
  | write hr => exact hh.write hs hr ..
  | place hx => exact hh.place hx _
  | @slot b => exact hh.withSlot b

theorem Adjustment.outside (h : Adjustment pos keep x a a') (hs : a.bank.Sound p)
    (hre : ∀ r ∈ p.regs, a.loc r ≠ l)
    (hsl : ∀ b s, some b ≠ x → (a.bank.regOf (some b)).isSome → b ∉ a.bank.inFrame →
      a'.frame.get? b = some s → .slot s ≠ l) : a'.now σ l = a.now σ l := by
  cases h with
  | @store b r hx _ hb =>
    by_cases hm : b ∈ a.bank.inFrame
    · rw [store_of_mem hm]
    · rw [store_eq a hm] at hsl ⊢
      change ((a.withSlot b).emit (.slot (a.slot b)) (a.loc r) b.kind).now σ l = _
      rw [now_emit, move_of_ne, now_withSlot]
      exact hsl b _ hx (by simp [hb]) hm (Frame.get?_slotOf_self ..)
  | drop => rfl
  | @relocate b r other _ _ ho =>
    change ((a.emit (a.loc other) (a.loc r) b.kind)).now σ l = _
    rw [now_emit, move_of_ne]
    exact hre other (hs.pool_eq ▸ hs.free_sub other ho)
  | @write r src kind hr =>
    rw [now_emit, move_of_ne]
    refine hre r (hs.pool_eq ▸ ?_)
    rcases hr with hr | ⟨b, _, hb⟩
    · exact hs.free_sub r hr
    · exact hs.held_sub _ r hb
  | place => rfl
  | slot => rfl

namespace Adjusts

section

variable (h : Adjusts pos keep x a a')
include h

theorem trans (h' : Adjusts pos keep x a' a'') :
    Adjusts pos keep x a a'' := Relation.ReflTransGen.trans h h'

theorem mono (hk : ∀ b, keep' b → keep b) : Adjusts pos keep' x a a' := by
  refine Relation.ReflTransGen.mono (fun a a' h => ?_) _ _ h
  cases h with
  | store hx hke hre => exact .store hx (fun h => hke (hk _ h)) hre
  | drop hke hs => exact .drop (fun h => hke (hk _ h)) hs
  | relocate hke hre ho => exact .relocate (fun h => hke (hk _ h)) hre ho
  | write hr hsr => exact .write hr hsr
  | place hx hre hr => exact .place hx hre hr
  | slot hb => exact .slot hb

theorem same : a'.lifetimes = a.lifetimes ∧ a'.supply = a.supply ∧ a'.bank.pool = a.bank.pool ∧
      a'.bank.temps = a.bank.temps := by
  induction h with
  | refl => exact ⟨rfl, rfl, rfl, rfl⟩
  | tail _ hs ih =>
    obtain ⟨h1, h2, h3, h4⟩ := hs.same
    obtain ⟨g1, g2, g3, g4⟩ := ih
    exact ⟨h1.trans g1, h2.trans g2, h3.trans g3, h4.trans g4⟩

theorem sound (hs : a.bank.Sound p) : a'.bank.Sound p := by
  induction h with
  | refl => exact hs
  | tail _ hst ih => exact hst.sound ih

theorem frame : a'.frame.Extends a.frame ∧ ∀ b ∈ a.bank.inFrame, b ∈ a'.bank.inFrame := by
  induction h with
  | refl => exact ⟨.refl _, fun _ h => h⟩
  | tail _ hs ih => exact ⟨hs.frame.1.trans ih.1, fun b hb => hs.frame.2 b (ih.2 b hb)⟩

theorem regOf_keep (hk : keep b) (hr : a.bank.regOf (some b) = some r) :
    a'.bank.regOf (some b) = some r := by
  induction h with
  | refl => exact hr
  | tail _ hs ih => exact hs.regOf_keep hk ih

theorem bound (hx : some b ≠ x) (hr : (a'.bank.regOf (some b)).isSome) :
    (a.bank.regOf (some b)).isSome := by
  induction h with
  | refl => exact hr
  | tail _ hs ih => exact ih (hs.bound hx hr)

theorem placed (hb : a.Placed b) (hl : pos < a.lifetimes.lastUse b) : a'.Placed b := by
  induction h with
  | refl => exact hb
  | tail hr hs ih =>
    refine hs.placed ih ?_
    rwa [(same hr).1]

theorem clear (hd : Clear x a f) : Clear x a' f :=
  fun b b' s hx hr hb => hd b b' s hx (bound h hx hr) fun hm => hb ((frame h).2 b hm)

theorem holds (hs : a.bank.Sound p) (hd : Clear x a a'.frame) (hh : Holds x a σ value) :
    Holds x a' σ value := by
  induction h with
  | refl => exact hh
  | tail hr hst ih =>
    exact hst.holds (sound hr hs) (clear hr hd) (ih (hd.of_extends hst.frame.1))

theorem outside (hs : a.bank.Sound p) (hrg : ∀ r ∈ p.regs, a.loc r ≠ l)
    (hsl : ∀ b s, some b ≠ x → (a.bank.regOf (some b)).isSome → b ∉ a.bank.inFrame →
      a'.frame.get? b = some s → .slot s ≠ l) : a'.now σ l = a.now σ l := by
  induction h with
  | refl => rfl
  | @tail a1 a2 hre hst ih =>
    have hl (r : Int) : a1.loc r = a.loc r := by rw [loc, loc, (same hre).2.2.1]
    rw [hst.outside (sound hre hs) (fun r hr => hl r ▸ hrg r hr), ih]
    · exact fun b s hx hb hm hg => hsl b s hx hb hm (hst.frame.1 b s hg)
    · intro b s hx hb hm hg
      exact hsl b s hx (bound hre hx hb) (fun h => hm ((frame hre).2 b h)) hg

end

end Adjusts

theorem Source.adjusted (hsr : Source a l) (h : Adjusts pos keep x a a') : Source a' l := by
  cases hsr with
  | imm w => exact .imm w
  | @reg r hr =>
    have hl : a.loc r = a'.loc r := by rw [loc, loc, h.same.2.2.1]
    rw [hl]
    exact .reg (h.same.2.2.1 ▸ hr)
  | slot hs => exact .slot (h.frame.1 _ _ hs)

/-- The boxes that a request within limits leaves in their registers, apart from those it is
about. -/
def Kept (c : Constraint) (a : Allocator) (subjects : List Box) (b : Box) : Prop :=
  b ∉ subjects ∧ (some b ∈ c.forbidden ∨ b ∈ a.bank.temps)

def pending (a : Allocator) (b : Box) : Option Box :=
  if a.bank.regOf (some b) = none then some b else none

theorem pending_of_none (h : a.bank.regOf (some b) = none) : a.pending b = some b := if_pos h

theorem pending_of_some (h : a.bank.regOf (some b) = some r) : a.pending b = none :=
  if_neg (by simp [h])

theorem adjusts_store_release (hx : some b ≠ x) (hk : ¬ keep b) (hr : a.bank.regOf (some b) = some r) :
    Adjusts pos keep x a ((a.store b r).release (some b)) := by
  refine .tail (.single (.store hx hk hr)) (.drop hk (.inl ?_))
  unfold store
  split
  · assumption
  · exact mem_cons_self

theorem adjusts_evict (hs : a.bank.Sound p) (ho : a.bank.ownerOf r = some b) (hx : some b ≠ x)
    (hk : ¬ keep b) : Adjusts pos keep x a (a.evict pos r) := by
  unfold evict
  rw [ho]
  dsimp only
  split
  · exact adjusts_store_release hx hk (hs.ownerOf_eq_some.mp ho)
  · exact .single (.drop hk (.inr (by omega)))

end Allocator

namespace AllocM

open Allocator

variable {a a' : Allocator} {p : Pool} {b b' : Box} {r pos : Int} {x : Option Box} {c : Constraint}

theorem Picked.adjusts (hp : Picked pos c a r a') (hs : a.bank.Sound p)
    (hx : ∀ b ∈ x, a.bank.regOf (some b) = none) : Adjusts pos (Kept c a []) x a a' := by
  cases hp with
  | free => exact .refl
  | @evicted b hn hv =>
    obtain ⟨_, ho, _, hf, ht⟩ := Bank.mem_victims.mp (Bank.mem_of_furthest_eq_some hv)
    refine adjusts_evict hs ho ?_ (fun h => h.2.elim hf ht)
    rintro rfl
    have := hx b rfl
    rw [hs.ownerOf_eq_some.mp ho] at this
    cases this

theorem Cleared.adjusts (hc : Cleared pos c a r a') (hs : a.bank.Sound p)
    (hx : ∀ b ∈ x, a.bank.regOf (some b) = none) : Adjusts pos (Kept c a []) x a a' := by
  have hne {b : Box} (ho : a.bank.ownerOf r = some b) : some b ≠ x := by
    rintro rfl
    have := hx b rfl
    rw [hs.ownerOf_eq_some.mp ho] at this
    cases this
  cases hc with
  | vacant => exact .refl
  | dropped ho hf ht hd =>
    exact .single (.drop (fun h => h.2.elim hf ht) (.inr (by omega)))
  | relocated ho hf ht hfr =>
    exact .single (.relocate (fun h => h.2.elim hf ht) (hs.ownerOf_eq_some.mp ho)
      (Bank.firstFree_eq_some hfr).2.1)
  | stored ho hf ht =>
    exact adjusts_store_release (hne ho) (fun h => h.2.elim hf ht)
      (hs.ownerOf_eq_some.mp ho)

/-- The box on whose behalf registers are cleared or picked stays where it is. -/
theorem regOf_excluded (h : Adjusts pos (Kept (c.excluding (some b) avoid) a []) none a a1) :
    a1.bank.regOf (some b) = a.bank.regOf (some b) := by
  cases hr : a.bank.regOf (some b) with
  | some r => exact h.regOf_keep ⟨not_mem_nil, .inl (by simp [Constraint.excluding])⟩ hr
  | none =>
    cases hr' : a1.bank.regOf (some b) with
    | none => rfl
    | some r =>
      have := h.bound (Option.some_ne_none b) (by simp [hr'])
      simp [hr] at this

theorem kept_excluding (hb : Kept c a subjects b) : Kept (c.excluding h avoid) a [] b :=
  ⟨not_mem_nil, hb.2.imp_left fun hm => mem_append_left _ hm⟩

end AllocM

namespace Allocator

variable {a a' : Allocator} {p : Pool} {b : Box} {r pos : Int} {x : Option Box}
  {keep : Box → Prop} {σ : Contents} {value : Box → Word}

theorem adjusts_load (hr : r ∈ a.bank.free ∨ ∃ b, x = some b ∧ a.bank.regOf (some b) = some r)
    (hb : b ∈ a.bank.inFrame) : Adjusts pos keep x a (a.load b r) :=
  .tail (.single (.slot hb)) (.write hr (.slot (Frame.get?_slotOf_self ..)))

theorem adjusts_claim (hk : ¬ keep b) (hr : r ∈ a.bank.free)
    (hx : a.bank.regOf (some b) = none → x = some b) : Adjusts pos keep x a (a.claim b r) := by
  unfold claim
  split
  · rename_i old hre
    exact .single (.relocate hk hre hr)
  · rename_i hre
    exact .single (.place (hx hre) hre hr)

theorem adjusts_settle (hk : ¬ keep b) (hr : r ∈ a.bank.free)
    (hx : a.bank.regOf (some b) = none → x = some b) : Adjusts pos keep x a (a.settle b r) := by
  unfold settle
  split
  · rename_i old hre
    exact .single (.relocate hk hre hr)
  · rename_i hre
    split
    · rename_i hb
      exact .tail (adjusts_load (.inl hr) hb) (.place (hx hre) hre hr)
    · exact .single (.place (hx hre) hre hr)

@[simp] theorem regOf_claim (a : Allocator) (b : Box) (r : Int) :
    (a.claim b r).bank.regOf (some b) = some r := by
  unfold claim
  split <;> simp

@[simp] theorem regOf_settle (a : Allocator) (b : Box) (r : Int) :
    (a.settle b r).bank.regOf (some b) = some r := by
  unfold settle
  split <;> simp

theorem Holds.weaken (hh : Holds none a σ value) (x : Option Box) : Holds x a σ value where
  reg := fun _ _ _ hr => hh.register hr
  slot := hh.slot

theorem Holds.redefine (hh : Holds none a σ value) (hb : ¬ a.Placed b) (w : Word) :
    Holds none a σ (Function.update value b w) where
  reg := by
    intro b' r _ hr
    have hne : b' ≠ b := by
      rintro rfl
      exact hb (.inl (by simp [hr]))
    rw [Function.update_of_ne hne]
    exact hh.register hr
  slot := by
    intro b' hm
    have hne : b' ≠ b := by
      rintro rfl
      exact hb (.inr hm)
    rw [Function.update_of_ne hne]
    exact hh.slot b' hm

theorem Holds.fill (hh : Holds (some b) a σ value) (hr : a.bank.regOf (some b) = some r)
    (hv : a.now σ (a.loc r) = value b) : Holds none a σ value where
  reg := by
    intro b' r' _ hr'
    by_cases he : b' = b
    · subst he
      cases hr.symm.trans hr'
      exact hv
    · exact hh.reg b' r' (fun h => he (Option.some.inj h)) hr'
  slot := hh.slot

theorem now_load (hh : Holds x a σ value) (hb : b ∈ a.bank.inFrame) :
    (a.load b r).now σ (a.loc r) = value b := by
  obtain ⟨s, hs, hv⟩ := hh.slot b hb
  have hsl : a.slot b = s := by rw [slot, Frame.slotOf_of_get? hs]
  rw [load, now_emit, hsl]
  exact (move_dst ..).trans hv

end Allocator

namespace AllocM

open Allocator

variable {a a' : Allocator} {p : Pool} {b : Box} {r pos : Int} {x : Option Box} {σ : Contents}
  {value : Box → Word}

theorem pending_unbound : ∀ b' ∈ a.pending b, a.bank.regOf (some b') = none := by
  intro b' hb'
  unfold pending at hb'
  split at hb'
  · cases hb'
    assumption
  · cases hb'

theorem Forced.adjusts (hf : Forced pos c b a r a') (hs : a.bank.Sound p) :
    Adjusts pos (Kept c a [b]) (a.pending b) a a' := by
  cases hf with
  | already => exact .refl
  | @settled a1 hp _ hc =>
    have he := regOf_excluded (hc.adjusts hs (by simp))
    have hfi : Adjusts pos (Kept c a [b]) (a.pending b) a a1 :=
      (hc.adjusts hs pending_unbound).mono fun _ => kept_excluding
    refine hfi.trans (adjusts_settle (fun h => h.1 mem_cons_self) (hc.mem_free hs hp) fun hr => ?_)
    exact pending_of_none (he ▸ hr)

theorem Forced.regOf (hf : Forced pos c b a r a') : a'.bank.regOf (some b) = some r := by
  cases hf with
  | already _ hr => exact hr
  | settled => exact regOf_settle ..

theorem Allocated.adjusts (ha : Allocated pos c b a r a') (hs : a.bank.Sound p) :
    Adjusts pos (Kept c a [b]) (a.pending b) a a' := by
  cases ha with
  | already => exact .refl
  | pinned _ _ hf => exact hf.adjusts hs
  | @picked a1 _ _ hp =>
    have he := regOf_excluded (hp.adjusts hs (by simp))
    have hfi : Adjusts pos (Kept c a [b]) (a.pending b) a a1 :=
      (hp.adjusts hs pending_unbound).mono fun _ => kept_excluding
    refine hfi.trans (adjusts_claim (fun h => h.1 mem_cons_self) (hp.registers hs).2.1 fun hr => ?_)
    exact pending_of_none (he ▸ hr)

theorem Allocated.regOf (ha : Allocated pos c b a r a') : a'.bank.regOf (some b) = some r := by
  cases ha with
  | already hr => exact hr
  | pinned _ _ hf => exact hf.regOf
  | picked => exact regOf_claim ..

theorem Forced.holds (hf : Forced pos c b a r a') (hs : a.bank.Sound p)
    (hd : Clear none a a'.frame) (hh : Holds none a σ value) (hb : a.Placed b) :
    Holds none a' σ value := by
  have ha := hf.adjusts hs
  cases hre : a.bank.regOf (some b) with
  | some r' =>
    rw [pending_of_some hre] at ha
    exact ha.holds hs hd hh
  | none =>
    rw [pending_of_none hre] at ha
    refine (ha.holds hs (hd.weaken _) (hh.weaken _)).fill hf.regOf ?_
    have hme : b ∈ a.bank.inFrame := by simpa [Placed, hre] using hb
    cases hf with
    | already _ hre' =>
      rw [hre] at hre'
      cases hre'
    | @settled a1 _ _ hc =>
      have hfi := hc.adjusts hs (x := none) (by simp)
      have hm := hfi.frame.2 b hme
      have hr := (regOf_excluded hfi).trans hre
      have hse : a1.settle b r = (a1.load b r).assign (some b) r := by
        simp [settle, hr, hm]
      rw [hse] at hd ⊢
      exact now_load (hfi.holds hs (hd.of_extends (Frame.extends_slotOf _ _)) hh) hm

theorem Ensured.adjusts (he : Ensured pos c a v r a') (hs : a.bank.Sound p) : match v with
    | .box b => Adjusts pos (Kept c a [b]) (a.pending b) a a' ∧ a'.bank.regOf (some b) = some r
    | .const k => a.bank.regOf (some (a.nextTemp k.kind)) = none →
        Adjusts pos (Kept c (a.withTemp pos k.kind) [a.nextTemp k.kind])
          (some (a.nextTemp k.kind)) (a.withTemp pos k.kind) a' ∧
        a'.bank.regOf (some (a.nextTemp k.kind)) = some r := by
  cases he with
  | const ha =>
    intro hn
    have had := ha.adjusts (sound_withTemp hs ..)
    rw [pending_of_none (a := a.withTemp pos _) hn] at had
    exact ⟨had.tail (.write (.inr ⟨_, rfl, ha.regOf⟩) (.imm _)), ha.regOf⟩
  | bound _ ha => exact ⟨ha.adjusts hs, ha.regOf⟩
  | loaded hr hf ha =>
    have had := ha.adjusts hs
    refine ⟨had.trans (adjusts_load (.inr ⟨_, ?_, ha.regOf⟩) (had.frame.2 _ hf)), ha.regOf⟩
    exact pending_of_none hr

theorem Ensured.holds_box (he : Ensured pos c a (.box b) r a') (hs : a.bank.Sound p)
    (hd : Clear none a a'.frame) (hh : Holds none a σ value) : Holds none a' σ value := by
  obtain ⟨had, hr'⟩ := he.adjusts hs
  cases he with
  | bound hr =>
    obtain ⟨old, hr⟩ := Option.isSome_iff_exists.mp hr
    rw [pending_of_some hr] at had
    exact had.holds hs hd hh
  | @loaded _ _ a1 hr hfr ha =>
    rw [pending_of_none hr] at had
    refine (had.holds hs (hd.weaken _) (hh.weaken _)).fill hr' ?_
    have hf := ha.adjusts hs
    exact now_load (hf.holds hs ((hd.weaken _).of_extends (Frame.extends_slotOf _ _)) (hh.weaken _))
      (hf.frame.2 b hfr)

theorem Ensured.holds_const (he : Ensured pos c a (.const k) r a') (hs : a.bank.Sound p)
    (hd : Clear none a a'.frame) (hn : ¬ a.Placed (a.nextTemp k.kind)) (hh : Holds none a σ value) :
    Holds none a' σ (Function.update value (a.nextTemp k.kind) k.bits) := by
  have hr : a.bank.regOf (some (a.nextTemp k.kind)) = none := by
    simpa using (not_or.mp hn).1
  obtain ⟨had, hr'⟩ := he.adjusts hs hr
  have hst := (hh.redefine hn k.bits).weaken (some (a.nextTemp k.kind))
  have hst : Holds _ (a.withTemp pos k.kind) σ _ := ⟨hst.reg, hst.slot⟩
  have hd : Clear (some (a.nextTemp k.kind)) (a.withTemp pos k.kind) a'.frame := hd.weaken _
  refine (had.holds (sound_withTemp hs ..) hd hst).fill hr' ?_
  cases he with
  | const ha =>
    rw [Function.update_self, now_emit]
    exact move_dst ..

theorem Ensured.now (he : Ensured pos c a v r a') (hs : a.bank.Sound p) (hd : a'.frame.Distinct)
    (hn : ∀ kind, ¬ a.Placed (a.nextTemp kind)) (hh : Holds none a σ value) :
    a'.now σ (a'.loc r) = v.word value := by
  cases v with
  | box b => exact (he.holds_box hs (.of_distinct hd) hh).register (he.adjusts hs).2
  | const k =>
    have hr := (he.adjusts hs (by simpa using (not_or.mp (hn k.kind)).1)).2
    rw [(he.holds_const hs (.of_distinct hd) (hn k.kind) hh).register hr, Function.update_self]
    rfl

theorem Located.adjusts (hl : Located b a src a') (pos : Int) (keep : Box → Prop) (x : Option Box) :
    Adjusts pos keep x a a' ∧ a'.bank = a.bank := by
  cases hl with
  | reg => exact ⟨.refl, rfl⟩
  | slot _ hf => exact ⟨.single (.slot hf), rfl⟩

theorem Located.source (hl : Located b a src a') (hs : a.bank.Sound p) : Source a' src := by
  cases hl with
  | reg hr => exact .reg (hs.held_sub _ _ hr)
  | slot => exact .slot (Frame.get?_slotOf_self ..)

section

variable (hsh : Shared pos c result a v r a') (hs : a.bank.Sound p)
  (hn : a.bank.regOf (some result) = none)
include hsh hs hn

theorem Shared.adjusts : Adjusts pos (Kept c a (v.box?.toList ++ [result])) (some result) a a' ∧
      a'.bank.regOf (some result) = some r := by
  cases hsh with
  | const ha =>
    have had := ha.adjusts hs
    rw [pending_of_none hn] at had
    exact ⟨had.tail (.write (.inr ⟨_, rfl, ha.regOf⟩) (.imm _)), ha.regOf⟩
  | dropped hr0 _ hsp =>
    refine ⟨.tail (.single (.drop (fun h => h.1 mem_cons_self) ?_)) (.place rfl ?_ ?_), by simp⟩
    · exact hsp.symm.imp_right fun h => by simpa [Lifetimes.liveAfter] using h
    · simp [hn]
    · exact (Bank.mem_free_release ..).mpr (.inr hr0)
  | @relocated b _ other a1 hr0 _ hfr hp =>
    have hf : Adjusts pos (Kept c a [b, result]) (some result) a a1 := by
      refine (hp.adjusts hs ?_).mono fun b' (hb' : Kept c.unplaced a [b, result] b') =>
        kept_excluding hb'
      rintro _ ⟨⟩
      exact hn
    obtain ⟨hs', ho, hfi, hrg⟩ := hp.registers hs
    have hre := (regOf_excluded (hp.adjusts hs (by simp))).trans hr0
    have hne : other ≠ r := by
      rintro rfl
      simp [Constraint.fits, Constraint.excluding] at hfi
    have hr : result ≠ b := by
      rintro rfl
      rw [hr0] at hn
      cases hn
    refine ⟨.tail (.tail hf (.relocate (fun h => h.1 mem_cons_self) hre ho))
      (.place rfl ?_ (mem_free_relocate hs' hre hne)), by simp⟩
    simp [hrg, hn, hr]
  | @stored b _ hr0 =>
    have hr : some b ≠ some result := by
      intro he
      rw [← he, hr0] at hn
      cases hn
    refine ⟨.tail (adjusts_store_release hr (fun h => h.1 mem_cons_self) hr0)
      (.place rfl ?_ ((Bank.mem_free_release ..).mpr (.inr ?_))), by simp⟩
    · simp [hn]
    · rw [regOf_store, hr0]
  | @copied b _ src a1 a2 hl ha =>
    obtain ⟨hf, hba⟩ := hl.adjusts pos (Kept c a [b, result]) (some result)
    have had := ha.adjusts (p := p) (hba ▸ hs)
    rw [pending_of_none (hba ▸ hn)] at had
    refine ⟨(hf.trans (had.mono ?_)).tail (.write (.inr ⟨_, rfl, ha.regOf⟩)
      ((hl.source hs).adjusted had)), ha.regOf⟩
    rintro b' ⟨hsu, hb'⟩
    rw [Kept, hba]
    exact ⟨fun h => hsu (mem_cons_of_mem _ h), hb'.imp_left fun h => mem_append_left _ h⟩

theorem Shared.now_of_clear (hd : Clear none a a'.frame)
    (hh : Holds none a σ value) : a'.now σ (a'.loc r) = v.word value := by
  cases hsh with
  | const ha => exact (congrFun (now_emit ..) _).trans (move_dst ..)
  | @dropped b _ hre =>
    have hl : ((a.release (some b)).assign (some result) r).loc r = a.loc r := by
      simp [loc, Bank.assign]
    rw [now_assign, now_release, hl]
    exact hh.register hre
  | @relocated b _ other a1 hre _ hfr hp =>
    have hf := hp.adjusts hs (x := none) (by simp)
    have hr := (regOf_excluded hf).trans hre
    have hne : other ≠ r := by
      rintro rfl
      have := (hp.registers hs).2.2.1
      simp [Constraint.fits, Constraint.excluding] at this
    have hl : ((a1.relocate b r other).assign (some result) r).loc r = a1.loc r := by
      simp [loc, Bank.assign]
    rw [hl]
    change (a1.emit (a1.loc other) (a1.loc r) b.kind).now σ (a1.loc r) = _
    rw [now_emit, move_of_ne fun he => hne (a1.loc_injective he)]
    exact (hf.holds hs hd hh).register hr
  | @stored b _ hre =>
    have hl : (((a.store b r).release (some b)).assign (some result) r).loc r =
        (a.store b r).loc r := by
      simp [loc, Bank.assign]
    rw [now_assign, now_release, hl]
    exact (hh.store (Option.some_ne_none b) hre hd).register ((regOf_store ..).trans hre)
  | @copied b _ src a1 a2 hl ha =>
    obtain ⟨hf, hb⟩ := hl.adjusts pos (Kept c a []) none
    have hs1 : a1.bank.Sound p := hb ▸ hs
    have had := ha.adjusts hs1
    rw [pending_of_none (hb ▸ hn)] at had
    have hh2 := had.holds hs1 ((hf.clear hd).weaken _)
      ((hf.holds hs (hd.of_extends had.frame.1) hh).weaken (some result))
    refine (congrFun (now_emit ..) _).trans ((move_dst ..).trans ?_)
    cases hl with
    | reg hre =>
      have hne : b ≠ result := by
        rintro rfl
        rw [hre] at hn
        cases hn
      have hk := had.regOf_keep
        ⟨by simpa using hne, .inl (by simp [Constraint.excluding])⟩ hre
      have hv := hh2.reg b _ (fun he => hne (Option.some.inj he)) hk
      rwa [loc, had.same.2.2.1] at hv
    | slot _ hfr =>
      obtain ⟨s, hg, hv⟩ := hh2.slot b (had.frame.2 b hfr)
      have hg' := had.frame.1 b _ (Frame.get?_slotOf_self a.frame b)
      cases hg.symm.trans hg'
      exact hv

theorem Shared.now (hd : a'.frame.Distinct)
    (hh : Holds none a σ value) : a'.now σ (a'.loc r) = v.word value :=
  hsh.now_of_clear hs hn (.of_distinct hd) hh

end

end AllocM

namespace Allocator

variable {a : Allocator} {p : Pool} {b : Box} {r pos r' : Int} {x : Option Box} {keep : Box → Prop}
  {h : Holder}

theorem Adjustment.placed_inv (h : Adjustment pos keep x a a') (hx : some b ≠ x)
    (hb : a'.Placed b) : a.Placed b := by
  rcases hb with hb | hb
  · exact .inl (h.bound hx hb)
  · cases h with
    | @store b' r' _ _ hr =>
      by_cases hm : b' ∈ a.bank.inFrame
      · exact .inr (by rwa [store_of_mem hm] at hb)
      · rw [store_eq a hm] at hb
        rcases mem_cons.mp hb with rfl | hb
        · exact .inl (by simp [hr])
        · exact .inr hb
    | drop => exact .inr (by simpa using hb)
    | relocate => exact .inr (by simpa using hb)
    | write => exact .inr hb
    | place => exact .inr hb
    | slot => exact .inr hb

theorem Adjusts.placed_inv (h : Adjusts pos keep x a a') (hx : some b ≠ x)
    (hb : a'.Placed b) : a.Placed b := by
  induction h with
  | refl => exact hb
  | tail _ hs ih => exact ih (hs.placed_inv hx hb)

theorem regOf_of_spillAt (hr : (a.spillAt pos r').bank.regOf h = some r) : a.bank.regOf h = some r := by
  unfold spillAt at hr
  split at hr
  · split at hr
    · exact hr
    · split at hr
      · rw [bank_release, Bank.regOf_release] at hr
        split at hr
        · cases hr
        · rwa [regOf_store] at hr
      · exact hr
  · exact hr

theorem adjusts_spillAt (hs : a.bank.Sound p) (hx : ∀ b ∈ x, a.lifetimes.lastUse b ≤ pos) (r : Int) :
    Adjusts pos (fun b => a.lifetimes.lastUse b ≤ pos) x a (a.spillAt pos r) ∧
      (r ∈ p.callerSaved → ∀ b, (a.spillAt pos r).bank.regOf (some b) = some r →
        a.lifetimes.lastUse b ≤ pos) := by
  unfold spillAt
  rw [hs.pool_eq]
  split
  · split
    · rename_i ho
      refine ⟨.refl, fun _ b hre => ?_⟩
      rw [hs.ownerOf_eq_some.mpr hre] at ho
      cases ho
    · rename_i b ho
      have hre := hs.ownerOf_eq_some.mp ho
      split
      · rename_i hl
        have hl : pos < a.lifetimes.lastUse b := by
          simpa [Lifetimes.liveAfter] using hl
        refine ⟨adjusts_store_release ?_ (by omega) hre, fun _ b' hre' => ?_⟩
        · rintro rfl
          have := hx b rfl
          omega
        · rw [bank_release, Bank.regOf_release, regOf_store] at hre'
          split at hre'
          · cases hre'
          · rename_i hne
            exact absurd (hs.holder_unique hre' hre) hne
      · rename_i hd
        refine ⟨.refl, fun _ b' hre' => ?_⟩
        cases hs.holder_unique hre hre'
        simpa [Lifetimes.liveAfter] using hd
  · rename_i hr
    exact ⟨.refl, fun h => absurd h hr⟩

theorem adjusts_spill (hs : a.bank.Sound p) (hx : ∀ b ∈ x, a.lifetimes.lastUse b ≤ pos) (l : List Int) :
    Adjusts pos (fun b => a.lifetimes.lastUse b ≤ pos) x a (l.foldl (spillAt pos) a) ∧
      ∀ r ∈ l, r ∈ p.callerSaved → ∀ b, (l.foldl (spillAt pos) a).bank.regOf (some b) = some r →
          a.lifetimes.lastUse b ≤ pos := by
  induction l using reverseRecOn with
  | nil => exact ⟨.refl, by simp⟩
  | append_singleton l r ih =>
    obtain ⟨hf, hd⟩ := ih
    simp only [foldl_append, foldl_cons, foldl_nil]
    have hl := hf.same.1
    obtain ⟨hla, hr⟩ := adjusts_spillAt (hf.sound hs) (hl ▸ hx) r
    rw [hl] at hla hr
    refine ⟨hf.trans hla, fun r' hr' hsa b hre => ?_⟩
    rcases mem_append.mp hr' with hr' | hr'
    · exact hd r' hr' hsa b (regOf_of_spillAt hre)
    · cases mem_singleton.mp hr'
      exact hr hsa b hre

end Allocator

end TraceCompiler
