import Mathlib.Data.Fintype.Card
import Mathlib.Data.List.Nodup
import Mathlib.Data.List.ReduceOption
import TraceCompiler.Proofs.Placement.Requests

/-! # The bookkeeping of an allocator

A bank keeps three records of its registers: which are free, which holder has which register, and
which register has which holder.
-/

namespace TraceCompiler

open List

theorem Table.mem_entries {α β : Type} [DecidableEq α] {t : Table α β} {x : α} {y : β} :
    (x, y) ∈ t.entries ↔ t.get? x = some y := by
  unfold Table.get?
  constructor
  · intro h
    have hso : (t.entries.find? fun e => e.1 = x).isSome := find?_isSome.mpr ⟨(x, y), h, by simp⟩
    obtain ⟨e, he⟩ := Option.isSome_iff_exists.mp hso
    have hx : e.1 = x := by simpa using find?_some he
    have heq : e = (x, y) := inj_on_of_nodup_map t.nodup (mem_of_find?_eq_some he) h hx
    rw [he, heq]
    rfl
  · intro h
    obtain ⟨e, he, rfl⟩ := Option.map_eq_some_iff.mp h
    have hx : e.1 = x := by simpa using find?_some he
    rw [← hx]
    exact mem_of_find?_eq_some he

namespace Bank

variable {k : Bank} {p : Pool} {h h' : Holder} {b : Box} {r r' : Int}

@[simp] theorem regOf_assign (k : Bank) (h h' : Holder) (r : Int) :
    (k.assign h r).regOf h' = if h' = h then some r else k.regOf h' :=
  Table.get?_insert ..

@[simp] theorem owner_assign (k : Bank) (h : Holder) (r r' : Int) :
    (k.assign h r).owner.get? r' = if r' = r then some h else k.owner.get? r' :=
  Table.get?_insert ..

@[simp] theorem pool_release (k : Bank) (h : Holder) : (k.release h).pool = k.pool := by
  unfold release
  split <;> rfl

@[simp] theorem regOf_release (k : Bank) (h h' : Holder) :
    (k.release h).regOf h' = if h' = h then none else k.regOf h' := by
  unfold release regOf
  cases hr : k.bound.get? h with
  | none =>
    dsimp only
    split
    · rename_i he
      rw [he, hr]
    · rfl
  | some r => exact Table.get?_erase ..

theorem owner_release (k : Bank) (h : Holder) (r : Int) :
    (k.release h).owner.get? r = if k.regOf h = some r then none else k.owner.get? r := by
  unfold release regOf
  cases hr : k.bound.get? h with
  | none => rfl
  | some r' =>
    simp only [Table.get?_erase, Option.some.injEq, eq_comm]

theorem mem_free_release (k : Bank) (h : Holder) (r : Int) :
    r ∈ (k.release h).free ↔ r ∈ k.free ∨ k.regOf h = some r := by
  unfold release regOf
  cases hre : k.bound.get? h with
  | none => simp
  | some r' =>
    dsimp only
    split
    · rename_i hf
      constructor
      · exact .inl
      · rintro (hr | hr)
        · exact hr
        · cases hr
          exact hf
    · simp [eq_comm]

private theorem eraseDups_of_nodup {l : List Int} (hl : l.Nodup) : l.eraseDups = l := by
  induction l with
  | nil => rfl
  | cons r l ih =>
    obtain ⟨hr, hl⟩ := nodup_cons.mp hl
    have hf : l.filter (fun r' => !r' == r) = l := by
      refine filter_eq_self.mpr fun r' hr' => ?_
      have : r' ≠ r := fun he => hr (he ▸ hr')
      simpa using this
    rw [eraseDups_cons, hf, ih hl]

/-- The records of a bank agree: the registers of the pool are told apart, those that are not free
are held, and by one box each. -/
structure Sound (k : Bank) (p : Pool) : Prop where
  pool_eq : k.pool = p
  nodup_pool : k.pool.regs.Nodup
  nodup_free : k.free.Nodup
  free_sub : ∀ r ∈ k.free, r ∈ k.pool.regs
  held_sub : ∀ h r, k.regOf h = some r → r ∈ k.pool.regs
  inverse : ∀ h r, k.regOf h = some r ↔ k.owner.get? r = some h
  named : k.regOf none = none
  free_iff : ∀ r ∈ k.pool.regs, r ∈ k.free ↔ k.owner.get? r = none

namespace Sound

theorem ofPool (hp : p.regs.Nodup) : (Bank.ofPool p).Sound p where
  pool_eq := rfl
  nodup_pool := hp
  nodup_free := by
    change p.regs.eraseDups.Nodup
    rwa [eraseDups_of_nodup hp]
  free_sub := fun r hr => mem_eraseDups.mp hr
  held_sub := nofun
  inverse := fun h r => ⟨nofun, nofun⟩
  named := rfl
  free_iff := fun r hr => ⟨fun _ => rfl, fun _ => mem_eraseDups.mpr hr⟩

section

variable (hs : k.Sound p)
include hs

theorem ownerOf_eq_some : k.ownerOf r = some b ↔ k.regOf (some b) = some r := by
  rw [hs.inverse, ownerOf, Option.join_eq_some_iff]

theorem owner_eq_none : k.ownerOf r = none ↔ k.owner.get? r = none := by
  unfold ownerOf
  cases ho : k.owner.get? r with
  | none => simp
  | some h =>
    cases h with
    | none =>
      have := hs.named
      rw [(hs.inverse none r).mpr ho] at this
      cases this
    | some b => simp

theorem not_free_of_held (hr : k.regOf h = some r) : r ∉ k.free := by
  rw [hs.free_iff r (hs.held_sub h r hr), (hs.inverse h r).mp hr]
  exact nofun

theorem holder_unique (hr : k.regOf h = some r) (hr' : k.regOf h' = some r) : h = h' := by
  rw [hs.inverse] at hr hr'
  exact Option.some.inj (hr.symm.trans hr')

theorem assign (hr : r ∈ k.free) (hb : k.regOf (some b) = none) : (k.assign (some b) r).Sound p where
  pool_eq := hs.pool_eq
  nodup_pool := hs.nodup_pool
  nodup_free := hs.nodup_free.erase r
  free_sub := fun r' hr' => hs.free_sub r' (mem_of_mem_erase hr')
  held_sub := by
    intro h r' hre
    rw [regOf_assign] at hre
    split at hre
    · cases hre
      exact hs.free_sub r hr
    · exact hs.held_sub h r' hre
  inverse := by
    intro h r'
    rw [regOf_assign, owner_assign]
    by_cases hh : h = some b
    · subst hh
      by_cases hr' : r' = r
      · simp [hr']
      · simp only [if_true, hr', if_false, ← hs.inverse, hb, Option.some.injEq]
        exact ⟨fun he => absurd he.symm hr', nofun⟩
    · by_cases hr' : r' = r
      · subst hr'
        simp only [hh, if_true, if_false, Option.some.injEq]
        exact ⟨fun hre => absurd hr (hs.not_free_of_held hre), fun he => absurd he.symm hh⟩
      · simp [hh, hr', hs.inverse]
  named := by
    rw [regOf_assign, if_neg nofun]
    exact hs.named
  free_iff := by
    intro r' hr'
    rw [owner_assign]
    change r' ∈ k.free.erase r ↔ _
    rw [hs.nodup_free.mem_erase_iff]
    by_cases he : r' = r
    · simp [he]
    · simpa [he] using hs.free_iff r' hr'

theorem release (h : Holder) : (k.release h).Sound p where
  pool_eq := (pool_release k h).trans hs.pool_eq
  nodup_pool := by
    rw [pool_release]
    exact hs.nodup_pool
  nodup_free := by
    unfold Bank.release
    split
    · exact hs.nodup_free
    · rename_i r hre
      dsimp only
      split
      · exact hs.nodup_free
      · rename_i hf
        exact nodup_append.mpr ⟨hs.nodup_free, nodup_singleton r, by
          intro x hx y hy he
          rw [mem_singleton.mp hy] at he
          exact hf (he ▸ hx)⟩
  free_sub := by
    intro r hr
    rw [pool_release]
    rcases (mem_free_release k h r).mp hr with hr | hr
    · exact hs.free_sub r hr
    · exact hs.held_sub h r hr
  held_sub := by
    intro h' r hre
    rw [regOf_release] at hre
    rw [pool_release]
    split at hre
    · cases hre
    · exact hs.held_sub h' r hre
  inverse := by
    intro h' r
    rw [regOf_release, owner_release]
    by_cases hh : h' = h
    · subst hh
      simp only [if_true, reduceCtorEq, false_iff]
      split
      · exact nofun
      · rw [← hs.inverse]
        assumption
    · rw [if_neg hh]
      split
      · rename_i hre
        simp only [reduceCtorEq, iff_false]
        exact fun hre' => hh (hs.holder_unique hre' hre)
      · exact hs.inverse h' r
  named := by
    rw [regOf_release]
    split
    · rfl
    · exact hs.named
  free_iff := by
    intro r hr
    rw [pool_release] at hr
    rw [mem_free_release, owner_release, hs.free_iff r hr]
    split
    · simp_all
    · simp_all

theorem with_frame (inFrame temps : List Box) :
    { k with inFrame := inFrame, temps := temps }.Sound p where
  pool_eq := hs.pool_eq
  nodup_pool := hs.nodup_pool
  nodup_free := hs.nodup_free
  free_sub := hs.free_sub
  held_sub := hs.held_sub
  inverse := hs.inverse
  named := hs.named
  free_iff := hs.free_iff

end

end Sound

end Bank

namespace Allocator

variable {a a' : Allocator} {p : Pool} {b : Box} {r other pos : Int} {c : Constraint}

section

variable (a : Allocator)

@[simp] theorem bank_emit (dst src : Location) (kind : Kind) :
    (a.emit dst src kind).bank = a.bank := rfl

@[simp] theorem bank_withSlot (b : Box) : (a.withSlot b).bank = a.bank := rfl

@[simp] theorem bank_load (b : Box) (r : Int) : (a.load b r).bank = a.bank := rfl

@[simp] theorem bank_assign (h : Holder) (r : Int) : (a.assign h r).bank = a.bank.assign h r := rfl

@[simp] theorem bank_release (h : Holder) : (a.release h).bank = a.bank.release h := rfl

@[simp] theorem bank_relocate (b : Box) (r other : Int) :
    (a.relocate b r other).bank = (a.bank.release (some b)).assign (some b) other := rfl

theorem bank_store (b : Box) (r : Int) :
    ∃ stored, (a.store b r).bank = { a.bank with inFrame := stored } := by
  unfold store
  split
  · exact ⟨_, rfl⟩
  · exact ⟨_, rfl⟩

@[simp] theorem regOf_store (b : Box) (r : Int) (h : Holder) :
    (a.store b r).bank.regOf h = a.bank.regOf h := by
  obtain ⟨stored, he⟩ := a.bank_store b r
  rw [he]
  rfl

end

theorem sound_store (hs : a.bank.Sound p) (b : Box) (r : Int) : (a.store b r).bank.Sound p := by
  obtain ⟨stored, he⟩ := a.bank_store b r
  rw [he]
  exact hs.with_frame ..

theorem sound_relocate (hs : a.bank.Sound p) (ho : other ∈ a.bank.free) :
    (a.relocate b r other).bank.Sound p :=
  (hs.release (some b)).assign ((Bank.mem_free_release ..).mpr (.inl ho)) (by simp)

theorem mem_free_relocate (hs : a.bank.Sound p) (hr : a.bank.regOf (some b) = some r)
    (hne : other ≠ r) : r ∈ (a.relocate b r other).bank.free := by
  change r ∈ (a.bank.release (some b)).free.erase other
  rw [(hs.release (some b)).nodup_free.mem_erase_iff, Bank.mem_free_release]
  exact ⟨hne.symm, .inr hr⟩

/-- What eviction does to the registers: the occupant, if there is one, gives up its own. -/
theorem evict_registers (hs : a.bank.Sound p) (pos r : Int) :
    (a.evict pos r).bank.Sound p ∧ (a.evict pos r).bank.pool = a.bank.pool ∧
      (r ∈ a.bank.pool.regs → r ∈ (a.evict pos r).bank.free) ∧ ∀ h, (a.evict pos r).bank.regOf h =
        if a.bank.regOf h = some r then none else a.bank.regOf h := by
  unfold evict
  cases ho : a.bank.ownerOf r with
  | none =>
    have hn := hs.owner_eq_none.mp ho
    refine ⟨hs, rfl, fun hr => (hs.free_iff r hr).mpr hn, fun h => (if_neg ?_).symm⟩
    intro hre
    rw [(hs.inverse h r).mp hre] at hn
    cases hn
  | some b =>
    have hre := hs.ownerOf_eq_some.mp ho
    obtain ⟨stored, hb⟩ :
        ∃ stored, (if pos ≤ a.lifetimes.lastUse b then a.store b r else a).bank =
          { a.bank with inFrame := stored } := by
      split
      · exact a.bank_store b r
      · exact ⟨_, rfl⟩
    have hs' : (if pos ≤ a.lifetimes.lastUse b then a.store b r else a).bank.Sound p := by
      rw [hb]
      exact hs.with_frame ..
    refine ⟨hs'.release _, ?_, fun _ => ?_, fun h => ?_⟩
    · rw [bank_release, Bank.pool_release, hb]
    · rw [bank_release, Bank.mem_free_release, hb]
      exact .inr hre
    · rw [bank_release, Bank.regOf_release, hb]
      change (if h = some b then none else a.bank.regOf h) = _
      by_cases hh : h = some b
      · rw [if_pos hh, hh, if_pos hre]
      · rw [if_neg hh, if_neg fun hre' => hh (hs.holder_unique hre' hre)]

end Allocator

namespace AllocM

variable {a a' : Allocator} {p : Pool} {b : Box} {r pos : Int} {c : Constraint} {h : Holder}

theorem Picked.registers (hp : Picked pos c a r a') (hs : a.bank.Sound p) :
    a'.bank.Sound p ∧ r ∈ a'.bank.free ∧ c.fits a.bank.pool r ∧ ∀ h, a'.bank.regOf h =
        if a.bank.regOf h = some r then none else a.bank.regOf h := by
  cases hp with
  | free hf =>
    obtain ⟨_, hr, hfi⟩ := Bank.firstFree_eq_some hf
    exact ⟨hs, hr, hfi, fun h => (if_neg fun hrg => hs.not_free_of_held hrg hr).symm⟩
  | evicted hn hv =>
    obtain ⟨hr, _, hfi, _⟩ := Bank.mem_victims.mp (Bank.mem_of_furthest_eq_some hv)
    obtain ⟨hs', _, hf, hre⟩ := Allocator.evict_registers hs pos r
    exact ⟨hs', hf hr, hfi, hre⟩

theorem Cleared.mem_free (hc : Cleared pos c a r a') (hs : a.bank.Sound p)
    (hr : r ∈ a.bank.pool.regs) : r ∈ a'.bank.free := by
  cases hc with
  | vacant ho => exact (hs.free_iff r hr).mpr (hs.owner_eq_none.mp ho)
  | dropped ho =>
    exact (Bank.mem_free_release ..).mpr (.inr (hs.ownerOf_eq_some.mp ho))
  | relocated ho _ _ hf =>
    obtain ⟨_, _, hfi⟩ := Bank.firstFree_eq_some hf
    refine Allocator.mem_free_relocate hs (hs.ownerOf_eq_some.mp ho) ?_
    rintro rfl
    simp [Constraint.fits] at hfi
  | stored ho =>
    refine (Bank.mem_free_release ..).mpr (.inr ?_)
    rw [Allocator.regOf_store]
    exact hs.ownerOf_eq_some.mp ho

theorem sound_withTemp (hs : a.bank.Sound p) (pos : Int) (kind : Kind) :
    (a.withTemp pos kind).bank.Sound p := hs.with_frame ..

theorem sound_handOver (hs : a.bank.Sound p)
    (hold : a.bank.regOf (some old) = some r) (hn : a.bank.regOf (some new) = none) :
    (a.handOver old new r).bank.Sound p := by
  have hs' := (hs.release (some old)).assign (b := new)
    ((Bank.mem_free_release ..).mpr (.inr hold)) (by simp [hn])
  exact hs'.with_frame ..

end AllocM

/-! ## The slots of a frame -/

def Frame.Distinct (f : Frame) : Prop :=
  ∀ b b' s, f.get? b = some s → f.get? b' = some s → b = b'

/-- A later frame knows every slot of an earlier one. -/
def Frame.Extends (f' f : Frame) : Prop := ∀ b s, f.get? b = some s → f'.get? b = some s

/-- The slots of boxes lie below the fresh ones. -/
def Frame.Below (f : Frame) : Prop := ∀ b s, f.get? b = some s → s.index < f.next

namespace Frame

variable {f f' f'' : Frame} {b b' : Box} {s : Slot}

theorem Extends.refl (f : Frame) : f.Extends f := fun _ _ h => h

theorem Extends.trans (h' : f''.Extends f') (h : f'.Extends f) : f''.Extends f :=
  fun b s hb => h' b s (h b s hb)

theorem distinct_of_nodup (h : (f.slots.entries.map Prod.snd).Nodup) : f.Distinct := by
  intro b b' s hb hb'
  have := inj_on_of_nodup_map h (Table.mem_entries.mpr hb) (Table.mem_entries.mpr hb') rfl
  exact congrArg Prod.fst this

theorem slotOf_of_get? (h : f.get? b = some s) : f.slotOf b = (s, f) := by
  unfold slotOf
  rw [h]

theorem get?_slotOf (f : Frame) (b b' : Box) :
    (f.slotOf b).2.get? b' = if b' = b then some (f.slotOf b).1 else f.get? b' := by
  unfold slotOf
  cases h : f.get? b with
  | some s =>
    dsimp only
    split
    · rename_i he
      rw [he, h]
    · rfl
  | none => exact Table.get?_insert ..

@[simp] theorem get?_slotOf_self (f : Frame) (b : Box) : (f.slotOf b).2.get? b = some (f.slotOf b).1 := by
  rw [get?_slotOf, if_pos rfl]

theorem extends_slotOf (f : Frame) (b : Box) : (f.slotOf b).2.Extends f := by
  intro b' s h
  rw [get?_slotOf]
  split
  · rename_i he
    subst he
    rw [slotOf_of_get? h]
  · exact h

theorem get?_bind (f : Frame) (b b' : Box) (s : Slot) :
    (f.bind b s).get? b' = if b' = b then some s else f.get? b' := Table.get?_insert ..

theorem extends_bind (hb : f.get? b = none) (s : Slot) : (f.bind b s).Extends f := by
  intro b' s' hs
  rw [get?_bind, if_neg (by rintro rfl; cases hb.symm.trans hs), hs]

/-- A slot that is handed out and then given to a box without one is what the box would have got. -/
theorem bind_fresh (h : f.get? b = none) : f.fresh.2.bind b f.fresh.1 = (f.slotOf b).2 := by
  unfold slotOf
  rw [h]
  unfold bind fresh
  dsimp only
  split <;> rfl

theorem bind_bounds {hi : Int} (h0 : 0 ≤ f.next) (hl : f.Below) (hn : f.next ≤ hi)
    (hs : s.index < hi) (hhi : hi < 0x8000000000000000) :
    (f.bind b s).Below ∧ f.next ≤ (f.bind b s).next ∧ (f.bind b s).next ≤ hi := by
  have hb : (f.bind b s).next = if f.next ≤ s.index then s.index + 1 else f.next := by
    unfold bind
    split
    · exact wrap64_of_lt (by omega) (by omega)
    · rfl
  have hle : f.next ≤ (f.bind b s).next ∧ s.index < (f.bind b s).next ∧ (f.bind b s).next ≤ hi := by
    rw [hb]
    split <;> omega
  refine ⟨fun b' s' hg => ?_, hle.1, hle.2.2⟩
  rcases ite_eq_iff.mp ((Table.get?_insert ..).symm.trans hg) with ⟨-, heq⟩ | ⟨-, hold⟩
  · cases heq
    exact hle.2.1
  · exact (hl b' s' hold).trans_le hle.1

/-- The number of the slot that is handed out after `n` others, when the first one is `start`. -/
def number (start : Int) (n : Nat) : Int := (fun i => wrap64 (i + 1))^[n] start

@[simp] theorem number_zero (start : Int) : number start 0 = start := rfl

theorem number_one (start : Int) : number start 1 = wrap64 (start + 1) := rfl

theorem number_add (start : Int) (m n : Nat) : number start (m + n) = number (number start m) n := by
  unfold number
  rw [Nat.add_comm, Function.iterate_add_apply]

theorem number_eq {start : Int} {n : Nat} (h0 : -0x8000000000000000 ≤ start)
    (h1 : start + n < 0x8000000000000000) : number start n = start + n := by
  induction n with
  | zero => simp
  | succ n ih =>
    rw [number_add, ih (by omega), number_one, wrap64_of_lt (by omega) (by omega)]
    omega

/-- The slots that were handed out between two frames, in order, with the boxes they went to. -/
structure History (f : Frame) (hist : List (Option Box)) (f' : Frame) : Prop where
  next : f'.next = number f.next hist.length
  nodup : hist.reduceOption.Nodup
  new : ∀ b, some b ∈ hist → f.get? b = none
  slots : ∀ b s, f'.get? b = some s ↔
    f.get? b = some s ∨ ∃ i : Nat, hist[i]? = some (some b) ∧ s = ⟨number f.next i⟩

namespace History

variable {hist hist' : List (Option Box)}

theorem refl (f : Frame) : f.History [] f where
  next := rfl
  nodup := nodup_nil
  new := by simp
  slots := by simp

theorem keeps (h : f.History hist f') : f'.Extends f := fun b s hb => (h.slots b s).mpr (.inl hb)

theorem isSome (h : f.History hist f') (hb : some b ∈ hist) : (f'.get? b).isSome := by
  obtain ⟨i, hi⟩ := mem_iff_getElem?.mp hb
  rw [(h.slots b _).mpr (.inr ⟨i, hi, rfl⟩)]
  rfl

theorem trans (h : f.History hist f') (h' : f'.History hist' f'') : f.History (hist ++ hist') f'' where
  next := by rw [h'.next, h.next, length_append, number_add]
  nodup := by
    rw [reduceOption_append, nodup_append]
    refine ⟨h.nodup, h'.nodup, ?_⟩
    rintro b hb b' hb' rfl
    have hso := h.isSome (reduceOption_mem_iff.mp hb)
    rw [h'.new b (reduceOption_mem_iff.mp hb')] at hso
    cases hso
  new := by
    intro b hb
    rcases mem_append.mp hb with hb | hb
    · exact h.new b hb
    · cases hg : f.get? b with
      | none => rfl
      | some s =>
        have hn := h'.new b hb
        rw [h.keeps b s hg] at hn
        cases hn
  slots := by
    intro b s
    rw [h'.slots, h.slots, h.next]
    constructor
    · rintro ((hb | ⟨i, hi, rfl⟩) | ⟨i, hi, rfl⟩)
      · exact .inl hb
      · exact .inr ⟨i, (List.getElem?_append_left (List.getElem_of_getElem? hi).1).trans hi, rfl⟩
      · refine .inr ⟨hist.length + i, ?_, by rw [number_add]⟩
        rw [getElem?_append_right (by omega), Nat.add_sub_cancel_left, hi]
    · rintro (hb | ⟨i, hi, rfl⟩)
      · exact .inl (.inl hb)
      · by_cases hlt : i < hist.length
        · rw [getElem?_append_left hlt] at hi
          exact .inl (.inr ⟨i, hi, rfl⟩)
        · rw [getElem?_append_right (by omega)] at hi
          refine .inr ⟨i - hist.length, hi, ?_⟩
          rw [← number_add, Nat.add_sub_cancel' (by omega)]

theorem fresh (f : Frame) : f.History [none] f.fresh.2 where
  next := rfl
  nodup := nodup_nil
  new := by simp
  slots := by
    intro b s
    change f.get? b = some s ↔ _
    simp [getElem?_singleton]

theorem slotOf (f : Frame) (b : Box) : f.History [] (f.slotOf b).2 ∨
    f.get? b = none ∧ f.History [some b] (f.slotOf b).2 := by
  cases hb : f.get? b with
  | some s =>
    rw [slotOf_of_get? hb]
    exact .inl (.refl f)
  | none =>
    have hsl : f.slotOf b = (⟨f.next⟩, ⟨f.slots.insert b ⟨f.next⟩, wrap64 (f.next + 1)⟩) := by
      unfold Frame.slotOf Frame.fresh
      rw [hb]
    refine .inr ⟨rfl, ?_, by simp, ?_, fun b' s => ?_⟩
    · rw [hsl]
      rfl
    · rintro b' hb'
      cases mem_singleton.mp hb'
      exact hb
    · rw [get?_slotOf, hsl]
      by_cases he : b' = b
      · subst he
        simp [hb, getElem?_singleton, eq_comm]
      · simp [he, getElem?_singleton, Ne.symm he]

section

variable (h : f.History hist f') (h0 : -0x8000000000000000 ≤ f.next)
  (h1 : f.next + hist.length < 0x8000000000000000)

include h h0 h1

theorem next_eq : f'.next = f.next + hist.length := by
  rw [h.next, number_eq h0 h1]

theorem index (hb : f'.get? b = some s) : f.get? b = some s ∨
    ∃ i : Nat, hist[i]? = some (some b) ∧ s.index = f.next + i ∧ i < hist.length := by
  rcases (h.slots b s).mp hb with hb | ⟨i, hi, rfl⟩
  · exact .inl hb
  · obtain ⟨hlt, _⟩ := List.getElem_of_getElem? hi
    exact .inr ⟨i, hi, number_eq h0 (by omega), hlt⟩

theorem below (hl : f.Below) : f'.Below := by
  intro b s hb
  rw [h.next_eq h0 h1]
  rcases h.index h0 h1 hb with hb | ⟨i, _, hid, hlt⟩
  · have := hl b s hb
    omega
  · omega

/-- A box that had no slot gets one of its own, if those there were lie below the fresh ones. -/
theorem own (hl : f.Below) (hb : f.get? b = none)
    (hs : f'.get? b = some s) (hs' : f'.get? b' = some s) : b = b' := by
  rcases h.index h0 h1 hs with hold | ⟨i, hi, hid, _⟩
  · rw [hb] at hold
    cases hold
  · rcases h.index h0 h1 hs' with hold | ⟨j, hj, hid', _⟩
    · have := hl b' s hold
      omega
    · obtain rfl : i = j := by omega
      rw [hi] at hj
      exact Option.some.inj (Option.some.inj hj)

end

end History

end Frame

theorem Frame.History.length_le {f f' : Frame} {hist : List (Option Box)} {bs : List Box}
    (h : f.History hist f') (hbs : ∀ b, some b ∈ hist → b ∈ bs) :
    hist.length ≤ bs.length + (hist.filter Option.isNone).length := by
  have hsu : hist.reduceOption ⊆ bs := fun b hb => hbs b (reduceOption_mem_iff.mp hb)
  have hle := (subperm_of_subset h.nodup hsu).length_le
  have := length_eq_reduceOption_length_add_filter_none (l := hist)
  omega

end TraceCompiler
