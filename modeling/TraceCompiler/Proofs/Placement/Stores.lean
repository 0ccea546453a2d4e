import Mathlib
import TraceCompiler.Proofs.Placement.Adjustments

/-! # Slots are handed out once and written once

A frame hands out slots that nobody had before (`Frame.Asked.kept`), and an allocator writes a box to its
slot at most once, whatever it is asked for (`Allocator.Books`). What it refuses changes nothing.
-/

namespace TraceCompiler

open List Std.Do

set_option mvcgen.warning false

namespace Frame

/-- Requests to a frame, with the slots that were bound or handed out, the last one first. A box is bound
before it has a slot. -/
inductive Asked (f : Frame) : List Slot → Frame → Prop
  | refl : Asked f [] f
  | bind (h : Asked f ss f') (hb : f'.get? b = none) (s : Slot) : Asked f (s :: ss) (f'.bind b s)
  | get (h : Asked f ss f') (b : Box) : Asked f ((f'.slotOf b).1 :: ss) (f'.slotOf b).2
  | new (h : Asked f ss f') : Asked f (f'.fresh.1 :: ss) f'.fresh.2

variable {f f' : Frame} {ss ss' : List Slot} {s : Slot} {start : Int}

theorem Asked.keeps (h : Asked f ss f') : f'.Extends f := by
  induction h with
  | refl => exact .refl f
  | bind _ hb s ih => exact (extends_bind hb s).trans ih
  | get _ b ih => exact (extends_slotOf _ b).trans ih
  | new _ ih => exact ih

structure Kept (start : Int) (ss : List Slot) (f : Frame) : Prop where
  start_le : start ≤ f.next
  below : ∀ s ∈ ss, s.index < f.next
  mem : ∀ b s, f.get? b = some s → s ∈ ss

/-- A slot that is bound or handed out raises the next one above it. -/
theorem Kept.cons (hk : Kept start ss f) (hn : f'.next = max f.next (s.index + 1))
    (hg : ∀ b s', f'.get? b = some s' → s' = s ∨ f.get? b = some s') : Kept start (s :: ss) f' := by
  obtain ⟨hs, hb, hm⟩ := hk
  constructor <;> grind

theorem Asked.kept (h : Asked f ss' f') (h0 : 0 ≤ start) (hk : Kept start ss f)
    (hf : ∀ s ∈ ss' ++ ss, s.index < 0x7FFFFFFFFFFFFFFF) : Kept start (ss' ++ ss) f' := by
  have hw {i : Int} (hi : start ≤ i) (hi' : i < 0x7FFFFFFFFFFFFFFF) : wrap64 (i + 1) = max i (i + 1) := by
    rw [wrap64_of_lt (by omega) (by omega)]
    omega
  induction h with
  | refl => exact hk
  | @bind _ f b _ _ s ih =>
    obtain ⟨hs, hr⟩ := forall_mem_cons.mp hf
    have hk := ih hr
    have := hk.start_le
    refine hk.cons ?_ fun b' s' h => ?_
    · unfold Frame.bind
      grind
    · grind [get?_bind]
  | @get _ f _ b ih =>
    obtain ⟨hs, hr⟩ := forall_mem_cons.mp hf
    have hk := ih hr
    refine hk.cons ?_ fun b' s' h => ?_
    · cases hb : f.get? b with
      | some s =>
        have := hk.below s (hk.mem b s hb)
        rw [slotOf_of_get? hb]
        grind
      | none =>
        unfold Frame.slotOf at hs ⊢
        rw [hb] at hs ⊢
        exact hw hk.start_le hs
    · grind [get?_slotOf]
  | new _ ih =>
    obtain ⟨hs, hr⟩ := forall_mem_cons.mp hf
    exact (ih hr).cons (hw (ih hr).start_le hs) fun b' s' h => .inr h

end Frame

namespace Allocator

variable {a a' : Allocator} {b : Box} {r : Int}

def stores (a : Allocator) : List Move := a.moves.toList.filter (·.dst.isMemory)

/-- The boxes that may be in registers, the boxes that were placed in slots, how many there are at least,
and whether each was placed before it had a slot. -/
structure Ledger where
  May : Box → Prop
  placed : List Box
  made : Nat
  once : Prop

variable {L : Ledger}

/-- The boxes that are in the frame were stored there one after the other, apart from those that were
placed there. -/
def Tally (placed : List Box) (a : Allocator) : Prop :=
  Forall₂ (fun m b => m.kind = b.kind ∧ ∃ s, m.dst = .slot s ∧ a.frame.get? b = some s)
    a.stores.reverse (a.bank.inFrame.filter (· ∉ placed))

structure Books (L : Ledger) (a : Allocator) : Prop where
  slot : ∀ b ∈ a.bank.inFrame, (a.frame.get? b).isSome
  held : ∀ b r, a.bank.regOf (some b) = some r ∨ a.bank.owner.get? r = some (some b) → L.May b
  made : L.made ≤ a.supply.made
  stores : L.once → a.bank.inFrame.Nodup ∧ L.placed ⊆ a.bank.inFrame ∧ Tally L.placed a

namespace Books

variable (h : Books L a)
include h

theorem asks (he : a'.frame.Extends a.frame) (hi : a'.bank.inFrame = a.bank.inFrame)
    (hm : a'.stores = a.stores) (hh : ∀ b r, a'.bank.regOf (some b) = some r ∨
      a'.bank.owner.get? r = some (some b) → L.May b) (hs : L.made ≤ a'.supply.made) : Books L a' := by
  refine ⟨fun b hb => ?_, hh, hs, fun ho => ?_⟩
  · obtain ⟨s, hg⟩ := Option.isSome_iff_exists.mp (h.slot b (hi ▸ hb))
    exact Option.isSome_iff_exists.mpr ⟨s, he b s hg⟩
  · obtain ⟨hn, hp, hst⟩ := h.stores ho
    rw [Tally, hm, hi]
    refine ⟨hn, hp, hst.imp ?_⟩
    rintro m b ⟨hk, s, hd, hg⟩
    exact ⟨hk, s, hd, he b s hg⟩

theorem withSlot (b : Box) : Books L (a.withSlot b) :=
  h.asks (Frame.extends_slotOf _ b) rfl rfl h.held h.made

theorem assign (x : Holder) (r : Int) (hx : ∀ b ∈ x, L.May b) : Books L (a.assign x r) := by
  refine h.asks (.refl _) rfl rfl (fun b r' hb => ?_) h.made
  have := h.held b r'
  grind [bank_assign, Bank.regOf_assign, Bank.owner_assign]

theorem release (x : Holder) : Books L (a.release x) := by
  refine h.asks (.refl _) (by simp) rfl (fun b r hb => ?_) h.made
  have := h.held b r
  grind [bank_release, Bank.regOf_release, Bank.owner_release]

@[grind →] theorem owner (hb : a.bank.ownerOf r = some b) : L.May b :=
  h.held b r (.inr (Option.join_eq_some_iff.mp hb))

@[grind →] theorem bound (hb : a.bank.regOf (some b) = some r) : L.May b := h.held b r (.inl hb)

theorem store (b : Box) (r : Int) : Books L (a.store b r) := by
  by_cases hb : b ∈ a.bank.inFrame
  · rwa [store_of_mem hb]
  rw [store_eq a hb]
  obtain ⟨hsl, hh, hma, hst⟩ := h.withSlot b
  refine ⟨forall_mem_cons.mpr ⟨Option.isSome_iff_exists.mpr ⟨_, Frame.get?_slotOf_self ..⟩, hsl⟩, hh, hma,
    fun ho => ?_⟩
  obtain ⟨hn, hp, hst⟩ := hst ho
  refine ⟨nodup_cons.mpr ⟨hb, hn⟩, subset_cons_of_subset _ hp, ?_⟩
  have hm : (((a.withSlot b).emit (.slot (a.slot b)) (a.loc r) b.kind).markStored b).stores.reverse =
      ⟨a.loc r, .slot (a.slot b), b.kind⟩ :: (a.withSlot b).stores.reverse := by
    simp [Allocator.stores, Allocator.emit, markStored, Location.isMemory]
  rw [Tally, hm, markStored, filter_cons_of_pos (by simpa using fun h => hb (hp h))]
  exact .cons ⟨rfl, _, rfl, Frame.get?_slotOf_self ..⟩ hst

theorem bindSlot (hb : L.once → a.frame.get? b = none) (s : Slot) :
    Books { L with placed := b :: L.placed } (a.bindSlot b s) := by
  refine ⟨fun b' hm => ?_, h.held, h.made, fun ho => ?_⟩
  · have := h.slot b'
    grind [Allocator.bindSlot, Frame.get?_bind]
  · have hb' : b ∉ a.bank.inFrame := fun hm => by simpa [hb ho] using h.slot b hm
    have he : Books L { a with frame := a.frame.bind b s } :=
      h.asks (Frame.extends_bind (hb ho) s) rfl rfl h.held h.made
    obtain ⟨hn, hp, hst⟩ := he.stores ho
    have hi : (b :: a.bank.inFrame).filter (· ∉ b :: L.placed) = a.bank.inFrame.filter (· ∉ L.placed) := by
      rw [filter_cons_of_neg (by simp)]
      exact filter_congr fun b' hm => by simp [show b' ≠ b from fun he => hb' (he ▸ hm)]
    refine ⟨nodup_cons.mpr ⟨hb', hn⟩, cons_subset_cons _ hp, ?_⟩
    unfold Tally
    exact hi ▸ hst

theorem mono {May : Box → Prop} (hs : ∀ b, L.May b → May b) : Books ⟨May, [], a.supply.made, False⟩ a :=
  ⟨h.slot, fun b r hb => hs b (h.held b r hb), le_rfl, False.elim⟩

end Books

theorem Books.ofPool {May : Box → Prop} (p : Pool) (l : Lifetimes) (start : Int) (s : BoxSupply)
    (hn : n ≤ s.made) : Books ⟨May, [], n, once⟩ ⟨Bank.ofPool p, l, .startingAt start, s, #[]⟩ :=
  ⟨by simp [Bank.ofPool], by rintro _ _ (⟨⟨⟩⟩ | ⟨⟨⟩⟩), hn, fun _ => ⟨nodup_nil, nil_subset _, .nil⟩⟩

end Allocator

namespace AllocM

open Allocator

def Request.placed : Request → List Box
  | bindFrame b _ => [b]
  | _ => []

inductive Session (p : Pool) (start : Int) : List Box → Allocator → Prop
  | start (l : Lifetimes) (s : BoxSupply) :
      Session p start [] ⟨Bank.ofPool p, l, .startingAt start, s, #[]⟩
  | request {q : Request} (h : Session p start placed a) (hq : ∀ b ∈ q.placed, a.frame.get? b = none) :
      Session p start (q.placed ++ placed) (q.after a)
  | elsewhere (h : Session p start placed a) (hf : a.frame.Asked ss f) (l : Lifetimes) (s : BoxSupply) :
      Session p start placed { a with frame := f, lifetimes := l, supply := s }

/-- The boxes that a request gives a register, but for the temporary of a constant. -/
def Request.boxes : Request → List Box
  | bind b _ | allocate _ b _ | force _ b _ _ | resultInSameRegister _ b _ _ | rebind _ b => [b]
  | ensure _ v _ => (v.bind Value.box?).toList
  | _ => []

/-- What requests lead to that give registers to boxes that were made. In between others use the frame,
where boxes do not lose their slots, lifetimes are added and boxes are made. -/
inductive Reachable (p : Pool) (start : Int) : Allocator → Prop
  | start (l : Lifetimes) (s : BoxSupply) :
      Reachable p start ⟨Bank.ofPool p, l, .startingAt start, s, #[]⟩
  | request {q : Request} (h : Reachable p start a) (hb : ∀ b ∈ q.boxes, b.id ≤ a.supply.made) :
      Reachable p start (q.after a)
  | elsewhere (h : Reachable p start a) (hf : ∀ b, (a.frame.get? b).isSome → (f.get? b).isSome)
      (hs : a.supply.made ≤ s.made) (l : Lifetimes) :
      Reachable p start { a with frame := f, lifetimes := l, supply := s }

variable {a : Allocator} {start pos r : Int} {placed : List Box} {c : Constraint} {h : Holder}
  {v : Option Value} {L : Ledger}

/-- The books stay in order whether the request is granted or refused. -/
abbrev Keeps (L : Ledger) {α : Type} (m : AllocM α) : Prop :=
  ⦃fun a => ⌜Books L a⌝⦄ m
  ⦃(fun _ a => ⌜Books L a⌝, fun _ a => ⌜Books L a⌝, ())⦄

theorem keeps_iff {α : Type} {m : AllocM α} : Keeps L m ↔ ∀ a, Books L a → Books L (m.run a).2 := by
  refine forall_congr' fun a => imp_congr_right fun _ => ?_
  change _ ↔ Books L (StateT.run (ExceptT.run m) a).2
  simp only [wp, PredTrans.apply_pushExcept, PredTrans.apply_pushArg]
  generalize StateT.run (ExceptT.run m) a = r
  obtain ⟨_ | _, _⟩ := r <;> exact Iff.rfl

@[spec] theorem forM_keeps {g : ι → AllocM PUnit} (h : ∀ i, Keeps L (g i)) (l : List ι) :
    Keeps L (l.forM g) := by
  induction l with
  | nil => mvcgen [List.forM]
  | cons i l ih => mvcgen [List.forM, h, ih]

@[spec] theorem assign_keeps (hh : ∀ b ∈ h, L.May b) : Keeps L (assign h r) :=
  fun _ ha => ha.assign h r hh

@[spec] theorem release_keeps : Keeps L (release h) := fun _ ha => ha.release h

@[spec] theorem untemp_keeps {f : Bank → List Box} :
    Keeps L (modifyBank fun k => { k with temps := f k }) :=
  fun _ h => h.asks (.refl _) rfl rfl h.held h.made

@[spec] theorem slotOf_keeps {b : Box} : Keeps L (slotOf b) := fun _ h => h.withSlot b

@[spec] theorem temp_keeps {k : Kind} : Keeps L (temp pos k) :=
  fun _ h => h.asks (.refl _) rfl rfl h.held (Nat.le_succ_of_le h.made)

@[spec] theorem emit_keeps {r : Reg} {src : Location} {k : Kind} : Keeps L (emit (.reg r) src k) :=
  fun _ h => h.asks (.refl _) rfl (by simp [stores, Location.isMemory]) h.held h.made

@[spec] theorem store_keeps {b : Box} : Keeps L (store b r) :=
  keeps_iff.mpr fun a h => run_store b r (a := a) ▸ h.store b r

@[spec] theorem evict_keeps : Keeps L (evict pos r) := by mvcgen [evict, needed]

@[spec] theorem pick_keeps : Keeps L (pick pos c) := by mvcgen [pick, choose?, refuse]

@[spec] theorem clobber_keeps : Keeps L (clobber pos r c) := by
  mvcgen [clobber, needed, refuse, regLocation]
  all_goals grind

@[spec] theorem force_keeps (hh : ∀ b ∈ h, L.May b) : Keeps L (force pos h r c) := by
  mvcgen [force, refuse, regLocation, boxOf, isInFrame]

@[spec] theorem allocate_keeps (hh : ∀ b ∈ h, L.May b) : Keeps L (allocate pos h c) := by
  mvcgen [allocate, regLocation, boxOf]

@[spec] theorem location_keeps : Keeps L (location v) := by
  mvcgen [location, refuse, regLocation, isInFrame]

@[spec] theorem releaseIfDead_keeps : Keeps L (releaseIfDead pos v) := by
  mvcgen [releaseIfDead, liveAfter]

theorem ensureConst_keeps (h : Books L (a.withTemp pos k.kind)) (hk : L.May (a.nextTemp k.kind)) :
    Books L ((Request.ensure pos (some (.const k)) c).after a) := by
  rw [Request.after, Request.perform, run_bind_pure_snd]
  refine (keeps_iff (m := do
    let r ← allocate pos (some (a.nextTemp k.kind)) c
    emit (← regLocation r) (.imm k.bits) k.kind
    return r)).mp ?_ _ h
  mvcgen [regLocation]
  grind

theorem Request.books {q : Request} (h : Books L a)
    (hq : L.once → ∀ b ∈ q.placed, a.frame.get? b = none) (hb : ∀ b ∈ q.boxes, L.May b)
    (hk : ∀ pos k c, q = .ensure pos (some (.const k)) c → L.May (a.nextTemp k.kind)) :
    Books { L with placed := q.placed ++ L.placed } (q.after a) := by
  cases q with
  | bindFrame b s => exact h.bindSlot (fun ho => hq ho b mem_cons_self) s
  | ensure pos v c =>
    rcases v with _ | b | k
    · exact h
    · have hb := hb b (by simp [boxes, Value.box?])
      refine keeps_iff.mp ?_ a h
      mvcgen [Request.perform, AllocM.ensure, refuse, isInFrame, regLocation]
      all_goals grind
    · exact ensureConst_keeps (keeps_iff.mp temp_keeps a h) (hk pos k c rfl)
  | _ =>
    simp only [boxes, forall_mem_singleton] at hb
    refine keeps_iff.mp ?_ a h
    mvcgen [Request.perform, AllocM.bind, AllocM.resultInSameRegister, AllocM.rebind,
      AllocM.spill, AllocM.spillCallerSaved, AllocM.releaseCallerSaved, AllocM.endOp, refuse, choose?,
      liveAfter, regLocation, isInFrame, boxOf]
    all_goals grind [Option.filter_eq_some_iff]

variable {p : Pool}

theorem Session.ledger (h : Session p start placed a) : Books ⟨fun _ => True, placed, 0, True⟩ a := by
  induction h with
  | start => exact .ofPool _ _ _ _ (Nat.zero_le _)
  | request _ hq ih => exact Request.books ih (fun _ => hq) (fun _ _ => trivial) fun _ _ _ _ => trivial
  | elsewhere _ hf l s ih => exact ih.asks hf.keeps rfl rfl ih.held (Nat.zero_le _)

theorem Session.books (h : Session p start placed a) : a.bank.inFrame.Nodup ∧ placed ⊆ a.bank.inFrame ∧
    (∀ b ∈ a.bank.inFrame, (a.frame.get? b).isSome) ∧ Tally placed a := by
  obtain ⟨hn, hp, hst⟩ := h.ledger.stores trivial
  exact ⟨hn, hp, h.ledger.slot, hst⟩

/-- **Slots are handed out once and written once.** Whatever slots boxes are bound to, each before it has
one, as long as the last number is not among the slots: a slot that is handed out was not in use and is
not below `start`, a box keeps its slot, all slots lie below the depth, and the depth does not go down.
Whatever an allocator is asked for, its moves to slots store different boxes, each to its slot, and none
that was placed there. -/
theorem slots_used_once (start : Int) (h0 : 0 ≤ start) :
    (∀ ss f ss' f', (Frame.startingAt start).Asked ss f → f.Asked ss' f' →
      (∀ s ∈ ss' ++ ss, s.index < 0x7FFFFFFFFFFFFFFF) →
      (f.fresh.1 ∉ ss ∧ start ≤ f.fresh.1.index) ∧
      (∀ b, f.get? b = none → (f.slotOf b).1 ∉ ss ∧ start ≤ (f.slotOf b).1.index) ∧
      (∀ b, (f.slotOf b).2.get? b = some (f.slotOf b).1) ∧
      (∀ b s, f.get? b = some s → (f'.slotOf b).1 = s) ∧
      (∀ s ∈ ss, s.index < f.depth) ∧ f.depth ≤ f'.depth) ∧
    ∀ p placed a, Session p start placed a →
      ∃ bs : List Box, bs.Nodup ∧ (∀ b, b ∈ bs ↔ b ∈ a.bank.inFrame ∧ b ∉ placed) ∧
        Forall₂ (fun m b => m.kind = b.kind ∧ ∃ s, m.dst = .slot s ∧ a.frame.get? b = some s)
          (a.moves.toList.filter (·.dst.isMemory)) bs := by
  refine ⟨fun ss f ss' f' hf hf' hs => ?_, fun p placed a h => ?_⟩
  · have hstart : Frame.Kept start [] (.startingAt start) := ⟨le_rfl, by simp, fun _ _ h => by cases h⟩
    have hk := hf.kept h0 hstart (by simpa using fun s h => hs s (mem_append_right _ h))
    rw [append_nil] at hk
    have hnew : f.fresh.1 ∉ ss := fun h => lt_irrefl _ (hk.below _ h)
    refine ⟨⟨hnew, hk.start_le⟩, fun b hb => ?_, f.get?_slotOf_self, fun b s hb => ?_, hk.below, ?_⟩
    · rw [Frame.slotOf, hb]
      exact ⟨hnew, hk.start_le⟩
    · rw [Frame.slotOf_of_get? (hf'.keeps b s hb)]
    · have hdepth : Frame.Kept f.next ss f := ⟨le_rfl, hk.below, hk.mem⟩
      exact (hf'.kept (h0.trans hk.start_le) hdepth hs).start_le
  · obtain ⟨hnodup, -, -, hstores⟩ := h.books
    refine ⟨(a.bank.inFrame.filter (· ∉ placed)).reverse, nodup_reverse.mpr (hnodup.filter _),
      by simp, ?_⟩
    simpa [stores] using rel_reverse hstores

/-- A box is bound to slot 7, and then slots 8 and 9 are handed out. A box that is spilled twice is stored
once. -/
theorem slots_used_once_spilled :
    let b : Box := ⟨1, .int⟩
    let f := ((Frame.startingAt 2).bind b ⟨7⟩).fresh.2
    let a := [Request.bind b 0, .spill b, .spill b].foldl (fun a q => q.after a)
      ⟨Bank.ofPool { cls := .gp, regs := [0] }, {}, .startingAt 2, ⟨1⟩, #[]⟩
    f.fresh.1 = ⟨9⟩ ∧ f.fresh.1 ∉ [(⟨8⟩ : Slot), ⟨7⟩] ∧ ∃ bs : List Box, bs.Nodup ∧
      (∀ x, x ∈ bs ↔ x ∈ a.bank.inFrame ∧ x ∉ []) ∧
        bs.length = (a.moves.toList.filter (·.dst.isMemory)).length := by
  intro b f a
  obtain ⟨hframe, halloc⟩ := slots_used_once 2 (by decide)
  have hf : (Frame.startingAt 2).Asked [⟨8⟩, ⟨7⟩] f := .new (.bind .refl rfl ⟨7⟩)
  have ha : Session { cls := .gp, regs := [0] } 2 [] a :=
    .request (q := .spill b) (.request (q := .spill b) (.request (q := .bind b 0) (.start {} ⟨1⟩)
      (by decide)) (by decide)) (by decide)
  obtain ⟨⟨hnew, -⟩, -⟩ := hframe _ f _ f hf .refl (by decide)
  obtain ⟨bs, hnodup, hmem, hstores⟩ := halloc _ _ _ ha
  exact ⟨rfl, hnew, bs, hnodup, hmem, hstores.length_eq.symm⟩

/-- The slot after the last number is none, and the depth goes down. -/
theorem fresh_wraps :
    let f := Frame.startingAt 0x7FFFFFFFFFFFFFFF
    f.Asked [f.fresh.1] f.fresh.2 ∧ ¬ f.depth ≤ f.fresh.2.depth ∧
      ¬ (∀ s ∈ [f.fresh.1], s.index < f.fresh.2.depth) ∧ f.fresh.2.fresh.1.index < 0 :=
  ⟨.new .refl, by decide, by decide, by decide⟩

/-! ## Refused requests -/

theorem Reachable.books (h : Reachable p start a) :
    Books ⟨(·.id ≤ a.supply.made), [], a.supply.made, False⟩ a := by
  induction h with
  | start => exact .ofPool _ _ _ _ le_rfl
  | @request a q _ hb ih =>
    obtain ⟨n, hn⟩ : ∃ n, Books ⟨(·.id ≤ n), q.placed ++ [], n, False⟩ (q.after a) := by
      by_cases hk : ∃ pos k c, q = .ensure pos (some (.const k)) c
      · -- The temporary is one more box.
        obtain ⟨pos, k, c, rfl⟩ := hk
        refine ⟨a.supply.made + 1, ensureConst_keeps ?_ le_rfl⟩
        exact (keeps_iff.mp temp_keeps a ih).mono fun _ => Nat.le_succ_of_le
      · exact ⟨_, Request.books ih False.elim hb fun pos k c he => absurd ⟨pos, k, c, he⟩ hk⟩
    exact hn.mono fun _ hb => hb.trans hn.made
  | elsewhere _ hf hs l ih =>
    exact ⟨fun b hb => hf b (ih.slot b hb), fun b r hb => (ih.held b r hb).trans hs, le_rfl, False.elim⟩

/-- **Refused requests change nothing.** In every reachable state, a request that is refused, unless it
asks for the place of a missing value, leaves moves, frame and bank as they were. Only a request for a
constant leaves a temporary behind, which has no register. -/
theorem refused_request_changes_nothing {q : Request} {e : Abort AllocError}
    (ha : Reachable p start a)
    (hq : ∀ pos result c, q ≠ .resultInSameRegister pos result none c)
    (hrun : q.perform.run a = (.error e, a')) :
    a'.moves = a.moves ∧ a'.frame = a.frame ∧ (a'.bank = a.bank ∨
      ∃ pos k c, q = .ensure pos (some (.const k)) c ∧
        a'.bank = { a.bank with temps := a.bank.temps ++ [a.nextTemp k.kind] } ∧
        a'.bank.regOf (some (a.nextTemp k.kind)) = none) := by
  rcases Request.refused hrun with rfl | ⟨pos, k, c, rfl, rfl⟩ | ⟨b, hb, rfl⟩ | ⟨pos, result, c, r, rfl, -⟩
  · exact ⟨rfl, rfl, .inl rfl⟩
  · refine ⟨rfl, rfl, .inr ⟨pos, k, c, rfl, rfl, Option.eq_none_iff_forall_ne_some.mpr fun r hr => ?_⟩⟩
    exact Nat.not_succ_le_self _ (ha.books.bound hr)
  · obtain ⟨s, hs⟩ := Option.isSome_iff_exists.mp (ha.books.slot b hb)
    exact ⟨rfl, by rw [withSlot, Frame.slotOf_of_get? hs], .inl rfl⟩
  · exact absurd rfl (hq pos result c)

/-- A constant finds no register, since the box in the only one must stay. -/
theorem refused_request_changes_nothing_one :
    let p : Pool := { cls := .gp, regs := [0] }
    let b : Box := ⟨1, .int⟩
    let a := (Request.bind b 0).after ⟨Bank.ofPool p, {}, .startingAt 0, ⟨1⟩, #[]⟩
    let q := Request.ensure 0 (some (.const (.int 7))) { forbidden := [some b] }
    (∃ e, q.perform.run a = (.error e, q.after a)) ∧ a.bank.regOf (some b) = some 0 ∧
      (q.after a).frame = a.frame ∧ (q.after a).bank.temps = [a.nextTemp .int] := by
  intro p b a q
  have ha : Reachable p 0 a := .request (q := .bind b 0) (.start {} ⟨1⟩) (by decide)
  have hrun : q.perform.run a = (.error (.error (.noRegister .gp 1)), q.after a) := rfl
  obtain ⟨-, hframe, -⟩ := refused_request_changes_nothing ha (by simp [q]) hrun
  exact ⟨⟨_, hrun⟩, rfl, hframe, rfl⟩

end AllocM

end TraceCompiler
