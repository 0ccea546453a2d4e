import TraceCompiler.Proofs.Lowering.Sequence

/-! # Inputs

The inputs of a trace are placed one after the other (`Input`, `placeInputs_ok`).
-/

namespace TraceCompiler.Lowering

open Machine (Cpu Setting Falls Fragment Quiet Instr Mem Section Reaches)
open CompileM List
open Machine.Fragment (piecesAll)

variable {ω : Type} {u : Setup ω} {ks bs : List Box} {s s' : State} {b b' : Box} {req : Request}
  {l : Location} {slot : Option Slot} {a a' : Allocator} {limits : Limits} {made : Nat}
  {cls : RegClass} {locs : List Location} {t : Trace} {x : Unit}

/-! ## One input -/

/-- How an input is placed: in the slot that it is given, in a free register or in a fresh slot. -/
inductive Input (a : Allocator) (b : Box) : Option Slot → Location → Allocator → Prop
  | given (slot : Slot) : Input a b (some slot) (.slot slot) (a.bindSlot b slot)
  | reg {r : Int} (hfree : r ∈ a.bank.free) : Input a b none (a.loc r) (a.assign (some b) r)
  | fresh : Input a b none (.slot a.frame.fresh.1)
      (Allocator.bindSlot { a with frame := a.frame.fresh.2 } b a.frame.fresh.1)

theorem placeInput_input {t : Location} (hy : Yields (placeInput slot b) req s t s') :
    ∃ a, Input (s.alloc (classOf b.kind)) b slot t a ∧ s' = s.absorb (classOf b.kind) a := by
  change Yields (onBank (classOf b.kind) _) req s t s' at hy
  obtain ⟨a, hr, rfl⟩ := hy.onBank
  refine ⟨a, ?_, rfl⟩
  cases slot with
  | some slot =>
    cases hr
    exact .given slot
  | none =>
    have hg : AllocM.freeRegister.run (s.alloc (classOf b.kind)) =
        (.ok ((s.alloc (classOf b.kind)).bank.firstFree {}), s.alloc (classOf b.kind)) := rfl
    rw [run_seq hg] at hr
    cases hf : (s.alloc (classOf b.kind)).bank.firstFree {} with
    | none =>
      rw [hf] at hr
      cases hr
      exact .fresh
    | some r =>
      rw [hf] at hr
      have hfr : r ∈ (s.alloc (classOf b.kind)).bank.free := by
        have := find?_some hf
        simp only [Bool.and_eq_true, decide_eq_true_eq] at this
        exact this.1
      have hb := AllocM.run_bind (a := s.alloc (classOf b.kind)) b r
      rw [if_pos hfr] at hb
      dsimp only at hr
      rw [run_seq hb] at hr
      cases hr
      exact .reg hfr

namespace Input

section

variable (h : Input a b slot l a')
include h

theorem regOf_eq (hne : b' ≠ b) : a'.bank.regOf (some b') = a.bank.regOf (some b') := by
  cases h with
  | given | fresh => rfl
  | reg hf => simp [Allocator.assign, hne]

theorem mem_inFrame (hne : b' ≠ b) : b' ∈ a'.bank.inFrame ↔ b' ∈ a.bank.inFrame := by
  cases h with
  | given | fresh => simp [Allocator.bindSlot, hne]
  | reg => exact Iff.rfl

theorem get?_frame (hne : b' ≠ b) : a'.frame.get? b' = a.frame.get? b' := by
  cases h with
  | given | fresh => exact (Table.get?_insert ..).trans (if_neg hne)
  | reg => rfl

theorem rest_eq : a'.bank.temps = a.bank.temps ∧
    a'.lifetimes = a.lifetimes ∧ a'.supply = a.supply ∧ a'.moves = a.moves := by
  cases h <;> exact ⟨rfl, rfl, rfl, rfl⟩

theorem sound (hs : a.bank.Sound p) (hn : a.bank.regOf (some b) = none) : a'.bank.Sound p := by
  cases h with
  | given | fresh => exact hs.with_frame ..
  | reg hf => exact hs.assign hf hn

theorem placed (hn : a.bank.regOf (some b) = none) (hf : b ∉ a.bank.inFrame) :
    (∃ r, l = a.loc r ∧ a'.bank.regOf (some b) = some r ∧ b ∉ a'.bank.inFrame) ∨
      ∃ s, l = .slot s ∧ a'.bank.regOf (some b) = none ∧ b ∈ a'.bank.inFrame ∧
        a'.frame.get? b = some s := by
  cases h with
  | given | fresh =>
    exact .inr ⟨_, rfl, hn, mem_cons_self, (Table.get?_insert ..).trans (if_pos rfl)⟩
  | reg hfr => exact .inl ⟨_, rfl, by simp [Allocator.assign], hf⟩

end

theorem history (h : Input a b none l a') (hn : a.frame.get? b = none) :
    ∃ bs : List Box, a.frame.History (bs.map some) a'.frame ∧ bs.length ≤ 1 := by
  cases h with
  | reg => exact ⟨[], .refl _, by simp⟩
  | fresh =>
    refine ⟨[b], ?_, by simp⟩
    change a.frame.History [some b] (a.frame.fresh.2.bind b a.frame.fresh.1)
    rw [Frame.bind_fresh hn]
    rcases Frame.History.slotOf a.frame b with h | ⟨-, h⟩
    · have := (h.slots b _).mp (Frame.get?_slotOf_self a.frame b)
      simp [hn] at this
    · exact h

end Input

/-! ## All inputs -/

/-- What holds while inputs are placed: of the inputs that were, each has one place. -/
structure Placing (limits : Limits) (made : Nat) (ks : List Box) (s : State) : Prop where
  sound : ∀ cls, (s.bank cls).Sound (limits.pool cls)
  temps : ∀ cls, (s.bank cls).temps = []
  ids : ∀ b ∈ ks, b.id ≤ made
  made_eq : s.supply.made = made
  slots : ∀ b slot, s.frame.get? b = some slot → b ∈ ks
  stored : ∀ cls, ∀ b ∈ (s.bank cls).inFrame, b ∈ ks ∧ classOf b.kind = cls ∧
    (s.frame.get? b).isSome ∧ (s.bank cls).regOf (some b) = none
  held : ∀ cls b r, (s.bank cls).regOf (some b) = some r → b ∈ ks ∧ classOf b.kind = cls

theorem Placing.start (req : Request) (l : Lifetimes) (supply : BoxSupply) :
    Placing req.limits supply.made [] (State.start req l supply) where
  sound
    | .gp => .ofPool (Limits.pool_nodup req.limits .gp)
    | .float => .ofPool (Limits.pool_nodup req.limits .float)
  temps := fun cls => by cases cls <;> rfl
  ids := fun _ h => absurd h not_mem_nil
  made_eq := rfl
  slots := fun b slot h => by cases (Table.get?_empty b).symm.trans h
  stored := fun cls b h => by cases cls <;> cases h
  held := fun cls b r h => by
    cases cls <;> cases (Table.get?_empty (some b)).symm.trans h

/-- A state of a compilation in which nothing but places of boxes has changed. -/
structure Settles (s s' : State) : Prop where
  main : s'.main = s.main
  cold : s'.cold = s.cold
  exits : s'.exits = s.exits
  maxValues : s'.maxValues = s.maxValues
  lifetimes : s'.lifetimes = s.lifetimes
  fused : s'.fused = s.fused
  flagsFrom : s'.flagsFrom = s.flagsFrom

theorem Settles.trans (h : Settles s s') (h' : Settles s' s'') : Settles s s'' :=
  ⟨h'.main.trans h.main, h'.cold.trans h.cold, h'.exits.trans h.exits,
    h'.maxValues.trans h.maxValues, h'.lifetimes.trans h.lifetimes, h'.fused.trans h.fused,
    h'.flagsFrom.trans h.flagsFrom⟩

theorem Placing.fresh (h : Placing limits made ks s) (hb : b ∉ ks) (cls : RegClass) :
    (s.bank cls).regOf (some b) = none ∧ b ∉ (s.bank cls).inFrame := by
  refine ⟨?_, fun hm => hb (h.stored cls b hm).1⟩
  cases hr : (s.bank cls).regOf (some b) with
  | none => rfl
  | some r => exact absurd (h.held cls b r hr).1 hb

theorem Placing.input (h : Placing limits made ks s) (hma : b.id ≤ made) (hb : b ∉ ks)
    (hin : Input (s.alloc (classOf b.kind)) b slot l a) :
    Placing limits made (b :: ks) (s.absorb (classOf b.kind) a) ∧
      Spot (s.absorb (classOf b.kind) a) (.box b) l ∧ Settles s (s.absorb (classOf b.kind) a) := by
  obtain ⟨ht, hl, hs, hm⟩ := hin.rest_eq
  obtain ⟨hre, hst⟩ := h.fresh hb (classOf b.kind)
  have hp := hin.placed hre hst
  have hlo (r : Int) : (s.alloc (classOf b.kind)).loc r = .reg ⟨classOf b.kind, r⟩ := by
    have hpo : (s.alloc (classOf b.kind)).bank.pool = limits.pool (classOf b.kind) :=
      (h.sound _).pool_eq
    rw [Allocator.loc, Pool.reg, hpo, Limits.pool_cls]
  refine ⟨⟨fun cls => ?_, fun cls => ?_, ?_, ?_, fun b' slot' hg => ?_, fun cls b' hme => ?_,
    fun cls b' r hr => ?_⟩, ?_, ?_⟩
  · exact bank_absorb_ind cls (hin.sound (h.sound _) hre) fun cls _ => h.sound cls
  · exact bank_absorb_ind cls (ht.trans (h.temps _)) fun cls _ => h.temps cls
  · intro b' hb'
    rcases mem_cons.mp hb' with rfl | hb'
    · exact hma
    · exact h.ids b' hb'
  · exact (congrArg BoxSupply.made hs).trans h.made_eq
  · by_cases he : b' = b
    · exact he ▸ mem_cons_self
    · exact mem_cons_of_mem _ (h.slots b' slot' ((hin.get?_frame he).symm.trans hg))
  · by_cases he : b' = b
    · subst he
      by_cases hc : cls = classOf b'.kind
      · subst hc
        rw [bank_absorb_self] at hme ⊢
        rcases hp with ⟨_, _, _, hno⟩ | ⟨_, _, hn, _, hg⟩
        · exact absurd hme hno
        · exact ⟨mem_cons_self, rfl, Option.isSome_iff_exists.mpr ⟨_, hg⟩, hn⟩
      · rw [bank_absorb_of_ne hc] at hme
        exact absurd (h.stored cls b' hme).1 hb
    · have hg := hin.get?_frame he
      have hold : b' ∈ (s.bank cls).inFrame ∧ ((s.absorb (classOf b.kind) a).bank cls).regOf
          (some b') = (s.bank cls).regOf (some b') := by
        by_cases hc : cls = classOf b.kind
        · subst hc
          rw [bank_absorb_self] at hme ⊢
          exact ⟨(hin.mem_inFrame he).mp hme, hin.regOf_eq he⟩
        · rw [bank_absorb_of_ne hc] at hme ⊢
          exact ⟨hme, rfl⟩
      obtain ⟨hk, hcl, hso, hn⟩ := h.stored cls b' hold.1
      exact ⟨mem_cons_of_mem _ hk, hcl, hg ▸ hso, hold.2.trans hn⟩
  · revert hr
    refine bank_absorb_ind cls (fun hr => ?_) fun cls _ hr =>
      (h.held cls b' r hr).imp_left (mem_cons_of_mem _)
    by_cases he : b' = b
    · subst he
      exact ⟨mem_cons_self, rfl⟩
    · exact (h.held _ b' r ((hin.regOf_eq he).symm.trans hr)).imp_left (mem_cons_of_mem _)
  · rcases hp with ⟨r, rfl, hr, _⟩ | ⟨slot', rfl, _, hme, hg⟩
    · rw [hlo]
      exact .reg (by rwa [bank_absorb_self])
    · have hme' : b ∈ ((s.absorb (classOf b.kind) a).bank (classOf b.kind)).inFrame := by
        rwa [bank_absorb_self]
      exact .slot hme' hg
  · refine ⟨?_, rfl, rfl, rfl, hl, rfl, rfl⟩
    simp [State.absorb, State.alloc, hm]

theorem Spot.input (h : Spot s (.box b') l) (hne : b' ≠ b)
    (hin : Input (s.alloc (classOf b.kind)) b slot l' a) :
    Spot (s.absorb (classOf b.kind) a) (.box b') l := by
  cases h with
  | @reg cls _ r hr =>
    revert hr
    exact fun hr => .reg (bank_absorb_ind cls (hin.regOf_eq hne).trans (fun _ _ hr => hr) hr)
  | @slot cls _ sl hm hg =>
    have hm' : b' ∈ ((s.absorb (classOf b.kind) a).bank cls).inFrame := by
      revert hm
      exact bank_absorb_ind cls (hin.mem_inFrame hne).mpr fun _ _ hm => hm
    exact .slot hm' ((hin.get?_frame hne).trans hg)

structure PlacedAll (limits : Limits) (made : Nat) (ks : List Box) (slots : List (Option Slot))
    (bs : List Box) (locs : List Location) (s s' : State) : Prop where
  placing : Placing limits made (bs.reverse ++ ks) s'
  settles : Settles s s'
  spots : Forall₂ (fun b l => Spot s' (.box b) l) bs locs
  kept : ∀ b ∈ ks, ∀ l, Spot s (.box b) l → Spot s' (.box b) l
  given : Forall₂ (fun slot l => ∀ sl, slot = some sl → l = .slot sl) slots locs
  history : (∀ slot ∈ slots, slot = none) →
    ∃ hist : List Box, s.frame.History (hist.map some) s'.frame ∧ hist.length ≤ bs.length
  bounds : ∀ hi < 0x8000000000000000, (∀ slot ∈ slots, ∃ sl, slot = some sl ∧ sl.index < hi) →
    0 ≤ s.frame.next → s.frame.Below → s.frame.next ≤ hi →
      s'.frame.Below ∧ s.frame.next ≤ s'.frame.next ∧ s'.frame.next ≤ hi

theorem placeInputs_ok (hln : slots.length = bs.length)
    (h : Placing limits made ks s) (hm : ∀ b ∈ bs, b.id ≤ made) (hnd : (bs.reverse ++ ks).Nodup)
    (hy : Yields (placeInputs (slots.zip (bs.map some))) req s locs s') :
    PlacedAll limits made ks slots bs locs s s' := by
  induction bs generalizing slots ks s locs with
  | nil =>
    obtain rfl := length_eq_zero_iff.mp hln
    cases hy
    exact ⟨h, ⟨rfl, rfl, rfl, rfl, rfl, rfl, rfl⟩, .nil, fun _ _ _ h => h, .nil,
      fun _ => ⟨[], .refl _, le_rfl⟩, fun _ _ _ _ hl0 hle => ⟨hl0, le_rfl, hle⟩⟩
  | cons b bs ih =>
    obtain _ | ⟨slot, slots⟩ := slots
    · cases hln
    rw [reverse_cons, append_assoc, singleton_append] at hnd
    have hb : b ∉ ks := (nodup_cons.mp (nodup_append.mp hnd).2.1).1
    rw [map_cons, zip_cons_cons, placeInputs] at hy
    obtain ⟨_, ⟨⟩, hy1⟩ := hy.needBind
    obtain ⟨l, s1, hpl, hy2⟩ := hy1.bind
    obtain ⟨locs', s2, hr, hy3⟩ := hy2.bind
    cases hy3
    obtain ⟨a, hin, rfl⟩ := placeInput_input hpl
    obtain ⟨hp, hsp, hs⟩ := h.input (hm b mem_cons_self) hb hin
    have ha := ih (Nat.succ.inj hln) hp
      (fun b' hb' => hm b' (mem_cons_of_mem _ hb')) hnd hr
    refine ⟨?_, hs.trans ha.settles, .cons ?_ ha.spots, fun b' hb' l' hl' => ?_,
      .cons ?_ ha.given, fun hn => ?_, fun hi hhi hso h0 hl0 hle => ?_⟩
    · rw [reverse_cons, append_assoc, singleton_append]
      exact ha.placing
    · exact ha.kept b mem_cons_self l hsp
    · exact ha.kept b' (mem_cons_of_mem _ hb') l'
        (hl'.input (fun he => hb (he ▸ hb')) hin)
    · rintro sl rfl
      cases hin
      rfl
    · have hst : slot = none := hn slot mem_cons_self
      subst hst
      have hge : s.frame.get? b = none := by
        cases hg : s.frame.get? b with
        | none => rfl
        | some sl => exact absurd (h.slots b sl hg) hb
      obtain ⟨hist, hh, hle⟩ := hin.history hge
      obtain ⟨hist', hh', hle'⟩ := ha.history fun sl hsl => hn sl (mem_cons_of_mem _ hsl)
      refine ⟨hist ++ hist', ?_, ?_⟩
      · rw [map_append]
        exact hh.trans hh'
      · rw [length_append, length_cons]
        omega
    · obtain ⟨⟨sl, rfl, hsl⟩, ho⟩ := forall_mem_cons.mp hso
      cases hin
      obtain ⟨hlo, hl1, hh1⟩ := Frame.bind_bounds (b := b) h0 hl0 hle hsl hhi
      obtain ⟨hlw, hl2, hh2⟩ := ha.bounds hi hhi ho (h0.trans hl1) hlo hh1
      exact ⟨hlw, hl1.trans hl2, hh2⟩

/-! ## The state in front of the first operation -/

theorem Placing.placed_cls (h : Placing limits made ks s) (hb : (s.alloc cls).Placed b) :
    b ∈ ks ∧ classOf b.kind = cls := by
  rcases hb with hb | hb
  · obtain ⟨r, hr⟩ := Option.isSome_iff_exists.mp hb
    exact h.held cls b r hr
  · exact ⟨(h.stored cls b hb).1, (h.stored cls b hb).2.1⟩

theorem Placing.placed (h : Placing limits made ks s) (hs : Spot s (.box b) l) :
    (s.alloc (classOf b.kind)).Placed b := by
  cases hs with
  | reg hr =>
    rw [(h.held _ _ _ hr).2]
    exact .inl (Option.isSome_iff_exists.mpr ⟨_, hr⟩)
  | slot hm _ =>
    rw [(h.stored _ _ hm).2.1]
    exact .inr hm

theorem Placing.ok (h : Placing u.req.limits u.made ks s)
    (hs : ∀ b ∈ u.shared, b ∈ ks ∧ ∀ cls, (s.bank cls).regOf (some b) = none) : Ok u ks s where
  sound := h.sound
  tidy := fun cls => by
    refine ⟨fun b hb => ?_, fun b slot hb => ?_, fun b hb => (h.stored cls b hb).2.2.1⟩
    · exact (h.ids b (h.placed_cls hb).1).trans h.made_eq.ge
    · exact (h.ids b (h.slots b slot hb)).trans h.made_eq.ge
  apart := fun b cls cls' hb hb' => (h.placed_cls hb).2.symm.trans (h.placed_cls hb').2
  ids := h.ids
  temps := fun cls t ht => by
    rw [h.temps] at ht
    cases ht
  made := h.made_eq.ge
  slots := h.slots
  shared := fun b hb => ⟨(hs b hb).1, fun cls hso => by
    rw [(hs b hb).2 cls] at hso
    cases hso⟩
  known := fun cls b hb => .inl (h.placed_cls hb).1

def Entry.slots (e : Entry) (n : Nat) : List (Option Slot) :=
  match e with
  | .loop => replicate n none
  | .bridge slots => slots.map some

def State.body (s : State) (req : Request) (locs : List Location) : State :=
  { s with
    inputs := locs
    cold := s.cold ++ if req.entry.isBridge then [] else bootstrap locs
    main := s.main ++ [Item.code (.label bodyLabel)] }

@[simp] theorem alloc_body (s : State) (req : Request) (locs : List Location) (cls : RegClass) :
    (s.body req locs).alloc cls = s.alloc cls := by
  cases cls <;> rfl

def State.noted (s : State) (n : Nat) : State := { s with maxValues := max s.maxValues n }

theorem inputs_ok (hin : t.inputs = bs.map some)
    (hle : (req.entry.slots bs.length).length = bs.length) (h : Placing req.limits made [] s)
    (hm : ∀ b ∈ bs, b.id ≤ made) (hnd : bs.Nodup) (hy : Yields (inputs t) req s x s') :
    ∃ locs s1 s2, PlacedAll req.limits made [] (req.entry.slots bs.length) bs locs (s.noted bs.length) s1 ∧
      Yields (onBank .gp ((bs.map fun b => some (.box b)).forM (AllocM.releaseIfDead (-1)))) req
        (s1.body req locs) () s2 ∧
      Yields (onBank .float ((bs.map fun b => some (.box b)).forM (AllocM.releaseIfDead (-1)))) req
        s2 () s' := by
  unfold inputs at hy
  obtain ⟨_, s0, hno, hy1⟩ := hy.bind
  cases yields_modify.mp hno
  rw [yields_read_bind] at hy1
  obtain ⟨locs, s1, hp, hy2⟩ := hy1.bind
  have hn : { s with maxValues := max s.maxValues t.inputs.length } = s.noted bs.length := by
    rw [hin, length_map]
    rfl
  have hp : Yields (placeInputs ((req.entry.slots bs.length).zip (bs.map some))) req
      (s.noted bs.length) locs s1 := by
    rw [← hn, ← hin]
    cases he : req.entry with
    | loop =>
      have hnn : replicate bs.length none = t.inputs.map fun _ => (none : Option Slot) := by
        rw [map_const', hin, length_map]
      rw [he] at hp
      rw [Entry.slots, hnn]
      exact hp
    | bridge slots =>
      rw [he] at hp
      exact hp
  have hpl : Placing req.limits made [] (s.noted bs.length) :=
    ⟨h.sound, h.temps, h.ids, h.made_eq, h.slots, h.stored, h.held⟩
  have hpa := placeInputs_ok hle hpl hm (by simpa using hnd) hp
  obtain ⟨_, s2, hs, hy3⟩ := hy2.bind
  cases yields_modify.mp hs
  have hv : (t.inputs.map fun b => b.map Value.box) = bs.map fun b => some (.box b) := by
    rw [hin, map_map]
    rfl
  have hr : Yields (do
      emit [.label bodyLabel]
      onGp ((t.inputs.map fun b => b.map Value.box).forM (AllocM.releaseIfDead (-1)))
      onFloat ((t.inputs.map fun b => b.map Value.box).forM (AllocM.releaseIfDead (-1)))) req
      { s1 with inputs := locs, cold := s1.cold ++ if req.entry.isBridge then [] else bootstrap locs }
      x s' := by
    cases he : req.entry with
    | loop =>
      rw [he] at hy3
      obtain ⟨_, s3, hc, hy4⟩ := hy3.bind
      cases yields_modify.mp hc
      exact hy4
    | bridge slots =>
      rw [he] at hy3
      simpa [Entry.isBridge] using hy3
  have hy5 := hr.emitBind
  obtain ⟨_, s4, hgp, hf⟩ := hy5.bind
  rw [hv] at hgp hf
  exact ⟨locs, s1, s4, hpa, hgp, hf⟩

theorem PlacedAll.get?_given {j : Nat} (h : PlacedAll limits made ks slots bs locs s s')
    (hb : bs[j]? = some b) (hso : slots[j]? = some (some sl)) : s'.frame.get? b = some sl := by
  obtain ⟨hj, rfl⟩ := List.getElem_of_getElem? hb
  obtain ⟨hjs, hsl⟩ := List.getElem_of_getElem? hso
  have hjl : j < locs.length := h.spots.length_eq ▸ hj
  have hs : Spot s' (.box bs[j]) locs[j] := h.spots.get hj hjl
  have hl : locs[j] = .slot sl := h.given.get hjs hjl sl hsl
  rw [hl] at hs
  cases hs with
  | slot _ hg => exact hg

theorem PlacedAll.not_held (h : PlacedAll limits made ks slots bs locs s s')
    (hg : ∀ slot ∈ slots, slot.isSome = true) (hb : b ∈ bs) (cls : RegClass) :
    (s'.bank cls).regOf (some b) = none := by
  obtain ⟨j, hj, rfl⟩ := getElem_of_mem hb
  have hjl : j < locs.length := h.spots.length_eq ▸ hj
  have hjs : j < slots.length := h.given.length_eq.symm ▸ hjl
  obtain ⟨sl, hsl⟩ := Option.isSome_iff_exists.mp (hg _ (getElem_mem hjs))
  have hl : locs[j] = .slot sl := h.given.get hjs hjl sl hsl
  have hs : Spot s' (.box bs[j]) locs[j] := h.spots.get hj hjl
  rw [hl] at hs
  cases hs with
  | @slot cls' _ _ hm _ =>
    obtain ⟨_, hc, _, hn⟩ := h.placing.stored cls' _ hm
    cases hr : (s'.bank cls).regOf (some bs[j]) with
    | none => rfl
    | some r =>
      obtain rfl := hc.symm.trans (h.placing.held cls _ r hr).2
      rw [hn] at hr
      cases hr

/-- The inputs `bs` of a trace with the operations `ops` were compiled: `s1` is the state behind the
placing, and `s` the one in front of the first operation. -/
structure Entered (u : Setup ω) (bs : List Box) (ops : List Op) (supply : BoxSupply)
    (locs : List Location) (s1 s : State) : Prop where
  placed : PlacedAll u.req.limits u.made [] (u.req.entry.slots bs.length) bs locs
    ((State.start u.req (.ofOps (bs.map some) ops) supply).noted bs.length) s1
  ok : Ok u bs.reverse (s1.body u.req locs)
  silent : Silent u bs.reverse (-1) (s1.body u.req locs) s
  between : Between u ((bs.map some).foldl Lifetimes.addInput {}) bs.reverse 0 ops s

theorem inputs_entered (hin : t.inputs = bs.map some) (hnd : bs.Nodup)
    (hle : (u.req.entry.slots bs.length).length = bs.length) (hsu : supply.made = u.made)
    (hm : ∀ b ∈ bs, b.id ≤ u.made) (hr : ∀ op ∈ ops, ∀ b ∈ op.result, b.id ≤ u.made)
    (hsh : u.shared = if u.req.entry.isBridge then bs else [])
    (hy : Yields (inputs t) u.req (State.start u.req (.ofOps t.inputs ops) supply) x s) :
    ∃ locs s1, Entered u bs ops supply locs s1 s := by
  rw [hin] at hy
  obtain ⟨locs, s1, s2, hp, hgp, hf⟩ := inputs_ok hin hle (hsu ▸ .start u.req _ supply) hm hnd hy
  have hbo : Ok u bs.reverse (s1.body u.req locs) := by
    refine Ok.congr (s := s1) (Placing.ok (by simpa using hp.placing) fun b hb => ?_)
      fun cls => alloc_body ..
    cases he : u.req.entry with
    | loop =>
      rw [hsh, he] at hb
      cases hb
    | bridge slots =>
      rw [hsh, he] at hb
      refine ⟨mem_reverse.mpr hb, fun cls => hp.not_held ?_ hb cls⟩
      rw [he]
      intro slot hsl
      obtain ⟨_, _, rfl⟩ := mem_map.mp hsl
      rfl
  obtain ⟨hs, ht⟩ := releaseDead_silent hbo hgp
  obtain ⟨hs', ht'⟩ := releaseDead_silent hs.ok hf
  have ha := hs.trans hs'
  have hl (b : Box) (hb : b.id ≤ u.made) : s.lifetimes.lastUse b =
      (Lifetimes.ofOps (bs.map some) ops).lastUse b :=
    (ha.retains.lastUse b hb).trans (congrArg (·.lastUse b) hp.settles.lifetimes)
  refine ⟨locs, s1, hp, hbo, ha, ⟨ha.ok, hr, hl, fun b hb hli _ => ?_, ?_, ?_⟩, ?_⟩
  · obtain ⟨j, hj, rfl⟩ := getElem_of_mem (mem_reverse.mp hb)
    obtain ⟨l, hsp⟩ : ∃ l, Spot s1 (.box bs[j]) l := ⟨_, hp.spots.get hj (hp.spots.length_eq ▸ hj)⟩
    have hi1 := hp.placing.placed hsp
    have hid := hm _ (getElem_mem hj)
    refine ha.retains.placed _ _ hid ?_ (by rwa [alloc_body])
    have := ha.retains.lastUse _ hid
    omega
  · rw [ha.plain.flagsFrom]
    exact hp.settles.flagsFrom ▸ (by decide : (-2 : Int) < 0)
  · have hn : s.fused = none := ha.plain.fused.trans hp.settles.fused
    rw [hn]
    exact fun _ h => absurd h (by simp)
  · intro cls
    refine eq_nil_iff_forall_not_mem.mpr fun b hb => ?_
    have := ht cls b (ht' cls b hb)
    have hni : ((s1.body u.req locs).bank cls).temps = [] := by
      cases cls with
      | gp => exact hp.placing.temps .gp
      | float => exact hp.placing.temps .float
    rw [hni] at this
    cases this

/-! ## The ways in and out of a loop -/

open Machine (labelsOf seek)
open Machine.Reg (r11 rbp rdi rsp)
open Function (update_of_ne update_self)

variable {c c' : Cpu ω} {v : Box → Word} {env : Setting ω} {sec : Section} {n i : Nat}

/-! ## Loading inputs -/

/-- A loader brings an entry of the value array to a location, if it is of the kind that it serves,
and changes nothing else but the frame and registers that locations name. -/
def Loader (env : Setting ω) (sec : Section) (load : Location × Nat → List Fragment)
    (serves : Location → Bool) : Prop :=
  ∀ (c : Cpu ω) l i, c.gp rbp = env.frameBase → c.gp r11 = env.valuesBase →
    l.Writable → l ≠ .reg (Reg.gp r11) →
    ∃ c', Falls env (piecesAll sec sec (load (l, i))) c c' ∧ Quiet c c' ∧
      c'.gp r11 = c.gp r11 ∧
      (serves l = true → c'.contents l = c.values (valueOffset i)) ∧
      ∀ l' : Location, l'.Wide → (serves l = true → l' ≠ l) → c'.contents l' = c.contents l'

def servesSlot : Location → Bool
  | .slot _ => true
  | _ => false

def servesReg : Location → Bool
  | .reg _ => true
  | _ => false

theorem loader_slot (env : Setting ω) (sec : Section) : Loader env sec loadSlotInput servesSlot := by
  intro c l i hb hs hl hne
  cases l with
  | slot slot =>
    refine ⟨c.setFrame slot.offset (c.values (valueOffset i)), ?_, .setFrame c hl.wide _, rfl,
      fun _ => ?_, fun l' hl' hne' => ?_⟩
    · simp only [loadSlotInput, piecesAll, append_nil]
      exact falls_moveMem sec (read_valueMem hs i) (write_slotMem hb slot _)
    · rw [Cpu.contents_setFrame c hl.wide _ hl.wide, update_self]
    · rw [Cpu.contents_setFrame c hl.wide _ hl', update_of_ne (hne' rfl)]
  | _ => exact ⟨c, .nil, .refl c, rfl, (by rintro ⟨⟩), fun _ _ _ => rfl⟩

theorem loader_reg (env : Setting ω) (sec : Section) : Loader env sec loadRegInput servesReg := by
  intro c l i hb hs hl hne
  rcases l with ⟨_ | _, r⟩ | _ | _ | _
  · have hr : r ≠ rbp := fun h => hl.notBase (by rw [h]; rfl)
    have hr1 : r ≠ r11 := fun h => hne (by rw [h]; rfl)
    refine ⟨c.setGp r (c.values (valueOffset i)), ?_, .setGp c hr _, ?_, fun _ => ?_,
      fun l' _ hne' => ?_⟩
    · simp only [loadRegInput, piecesAll, pieces_instr, append_nil]
      refine .instr ?_
      simp only [Instr.exec, read_valueMem hs]
      rfl
    · rw [Cpu.setGp_gp, update_of_ne hr1.symm]
    · rw [Cpu.contents_setGp]
      exact update_self ..
    · rw [Cpu.contents_setGp]
      exact update_of_ne (hne' rfl) ..
  · refine ⟨c.setXmm r (c.values (valueOffset i)), ?_, .setXmm .., rfl, fun _ => ?_,
      fun l' _ hne' => ?_⟩
    · simp only [loadRegInput, piecesAll, pieces_instr, append_nil]
      refine .instr ?_
      simp only [Instr.exec, read_valueMem hs]
      rfl
    · rw [Cpu.contents_setXmm]
      exact update_self ..
    · rw [Cpu.contents_setXmm]
      exact update_of_ne (hne' rfl) ..
  all_goals exact ⟨c, .nil, .refl c, rfl, (by rintro ⟨⟩), fun _ _ _ => rfl⟩

theorem Loader.falls (h : Loader env sec load serves) (hb : c.gp rbp = env.frameBase)
    (hsc : c.gp r11 = env.valuesBase) (hlo : ∀ l ∈ locs, l.Writable ∧ l ≠ .reg (Reg.gp r11))
    (hnd : locs.Nodup) :
    ∃ c', Falls env (piecesAll sec sec ((locs.zipIdx n).flatMap load)) c c' ∧ Quiet c c' ∧
      c'.gp r11 = c.gp r11 ∧ (∀ (j : Nat) l, locs[j]? = some l → serves l = true →
        c'.contents l = c.values (valueOffset (n + j))) ∧
      ∀ l, l.Wide → (l ∈ locs → serves l = false) → c'.contents l = c.contents l := by
  induction locs generalizing n c with
  | nil => exact ⟨c, .nil, .refl c, rfl, by simp, fun _ _ _ => rfl⟩
  | cons l locs ih =>
    obtain ⟨hl, hlo'⟩ := forall_mem_cons.mp hlo
    obtain ⟨hm, hnd⟩ := nodup_cons.mp hnd
    obtain ⟨c1, hf, hq, hr, hse, hoh⟩ := h c l n hb hsc hl.1 hl.2
    obtain ⟨c2, hf', hq', hr', hh, ho⟩ := ih (c := c1) (n := n + 1)
      (hq.base.trans hb) (hr.trans hsc) hlo' hnd
    refine ⟨c2, ?_, hq.trans hq', hr'.trans hr, fun j l' hj hs => ?_, fun l' hl' hno => ?_⟩
    · rw [zipIdx_cons, flatMap_cons, Fragment.piecesAll_append]
      exact hf.append hf'
    · cases j with
      | zero =>
        cases hj
        rw [ho l hl.1.wide fun h => absurd h hm, hse hs]
        rfl
      | succ j =>
        rw [hh j l' hj hs, hq.values, show n + 1 + j = n + (j + 1) by omega]
    · rw [ho l' hl' fun hm' => hno (mem_cons_of_mem _ hm'), hoh l' hl']
      rintro hs rfl
      rw [hno mem_cons_self] at hs
      cases hs

/-! ## Registers of the caller -/

theorem falls_pushes (env : Setting ω) (sec : Section) (rs : List Int) (c : Cpu ω) :
    Falls env (piecesAll sec sec (rs.map fun r => .instr (.push (.wide r)))) c
      { c with stack := rs.reverse.map c.gp ++ c.stack } := by
  induction rs generalizing c with
  | nil => exact .nil
  | cons r rs ih =>
    have hp : (Instr.push (.wide r)).exec env c = some { c with stack := c.gp r :: c.stack } := rfl
    rw [map_cons, piecesAll, pieces_instr, reverse_cons, map_append, append_assoc]
    exact (Falls.instr hp).append (ih { c with stack := c.gp r :: c.stack })

theorem falls_pops (env : Setting ω) (sec : Section) {rs : List Int} (hnd : rs.Nodup) (g : Int → Word)
    {stack : List Word} (hs : c.stack = rs.map g ++ stack) :
    ∃ gp, Falls env (piecesAll sec sec (rs.map fun r => .instr (.pop (.wide r)))) c
        { c with gp := gp, stack := stack } ∧ (∀ r ∈ rs, gp r = g r) ∧ ∀ r, r ∉ rs → gp r = c.gp r := by
  induction rs generalizing c with
  | nil =>
    refine ⟨c.gp, ?_, fun _ h => absurd h not_mem_nil, fun _ _ => rfl⟩
    rw [show ({ c with stack := stack } : Cpu ω) = c by
      cases c
      cases hs
      rfl]
    exact .nil
  | cons r rs ih =>
    obtain ⟨hr, hnd⟩ := nodup_cons.mp hnd
    have hp : (Instr.pop (.wide r)).exec env c =
        some (({ c with stack := rs.map g ++ stack } : Cpu ω).setGp r (g r)) := by
      simp only [Instr.exec]
      rw [hs]
      rfl
    obtain ⟨gp, hf, hin, ho⟩ :=
      ih (c := ({ c with stack := rs.map g ++ stack } : Cpu ω).setGp r (g r)) hnd rfl
    refine ⟨gp, ?_, fun r' hr' => ?_, fun r' hr' => ?_⟩
    · rw [map_cons, piecesAll, pieces_instr]
      exact (Falls.instr hp).append hf
    · rcases mem_cons.mp hr' with rfl | hr'
      · rw [ho _ hr, Cpu.setGp_gp, update_self]
      · exact hin r' hr'
    · obtain ⟨hne, hr'⟩ := not_or.mp (mt mem_cons.mpr hr')
      rw [ho r' hr', Cpu.setGp_gp, update_of_ne hne]

def savedStack (c : Cpu ω) : List Word := 0 :: (calleeSaved.reverse.map c.gp ++ c.stack)

theorem falls_epilogue {c0 : Cpu ω} (sec : Section) (hs : c.stack = savedStack c0) :
    ∃ gp, Falls env (piecesAll sec sec ([.instr (.aluImm .add (.wide rsp) 8)] ++
        calleeSaved.reverse.map (fun r => .instr (.pop (.wide r))))) c
        { c with gp := gp, stack := c0.stack } ∧
      (∀ r ∈ calleeSaved, gp r = c0.gp r) ∧ ∀ r, r ∉ calleeSaved → gp r = c.gp r := by
  have ha : (Instr.aluImm .add (.wide rsp) 8).exec env c = some { c with stack := c.stack.tail } := rfl
  obtain ⟨gp, hf, hin, ho⟩ := falls_pops (c := { c with stack := c.stack.tail }) env sec
    (by decide : calleeSaved.reverse.Nodup) c0.gp (by rw [hs]; rfl)
  refine ⟨gp, ?_, fun r hr => hin r (mem_reverse.mpr hr),
    fun r hr => ho r fun h => hr (mem_reverse.mp h)⟩
  rw [Fragment.piecesAll_append]
  refine Falls.append ?_ hf
  simp only [piecesAll, pieces_instr, append_nil]
  exact .instr ha

/-! ## The bootstrap -/

structure Enters (env : Setting ω) (c : Cpu ω) : Prop where
  frame : c.gp rdi = env.frameBase
  values : c.frame HeaderWord.values.offset = env.valuesBase

theorem falls_bootstrap (sec : Section) (he : Enters env c)
    (hlo : ∀ l ∈ locs, l.Writable ∧ l ≠ .reg (Reg.gp r11) ∧
      (servesSlot l = true ∨ servesReg l = true)) (hnd : locs.Nodup) :
    ∃ c', Falls env (piecesAll sec sec (calleeSaved.map (fun r => .instr (.push (.wide r))) ++
          [.instr (.aluImm .add (.wide rsp) (-8)), .instr (.mov framePointer (.wide rdi)), loadValues] ++
          locs.zipIdx.flatMap loadSlotInput ++ locs.zipIdx.flatMap loadRegInput)) c c' ∧
      c'.gp rbp = env.frameBase ∧
      c'.frame HeaderWord.values.offset = env.valuesBase ∧ c'.stack = savedStack c ∧ c'.world = c.world ∧
      ∀ (j : Nat) l, locs[j]? = some l → c'.contents l = c.values (valueOffset j) := by
  let c1 : Cpu ω := { c with stack := calleeSaved.reverse.map c.gp ++ c.stack }
  let c2 : Cpu ω := ({ c1 with stack := savedStack c } : Cpu ω).setGp rbp env.frameBase
  let c3 : Cpu ω := c2.setGp r11 env.valuesBase
  have hp := falls_pushes env sec calleeSaved c
  have ha : Falls env (piecesAll sec sec
      [.instr (.aluImm .add (.wide rsp) (-8)),
        .instr (.mov framePointer (.wide rdi)), loadValues]) c1 c3 := by
    have had : (Instr.aluImm .add (.wide rsp) (-8)).exec env c1 =
        some { c1 with stack := savedStack c } := rfl
    have hm : (Instr.mov framePointer (.wide rdi)).exec env
        { c1 with stack := savedStack c } = some c2 := by
      rw [show c2 = ({ c1 with stack := savedStack c } : Cpu ω).setGp rbp
        (c.gp rdi) by rw [he.frame]]
      rfl
    have hla := falls_loadValues (c := c2) sec (by simp [c2]) he.values
    have h := ((Falls.instr had).append (Falls.instr hm)).append hla
    simpa [piecesAll] using h
  have hb : c3.gp rbp = env.frameBase := by
    rw [Cpu.setGp_gp, update_of_ne (by decide), Cpu.setGp_gp, update_self]
  have hs : c3.gp r11 = env.valuesBase := by
    rw [Cpu.setGp_gp, update_self]
  have hlo' : ∀ l ∈ locs, l.Writable ∧ l ≠ .reg (Reg.gp r11) :=
    fun l hl => ⟨(hlo l hl).1, (hlo l hl).2.1⟩
  obtain ⟨c4, hf, hqu, hr1, hsl, hrs⟩ := (loader_slot env sec).falls (n := 0) hb hs hlo' hnd
  obtain ⟨c5, hfa, hqi, -, hre, hr⟩ := (loader_reg env sec).falls (n := 0)
    (hqu.base.trans hb) (hr1.trans hs) hlo' hnd
  have hq := hqu.trans hqi
  refine ⟨c5, ?_, hq.base.trans hb, (hq.header .values).trans he.values,
    hq.stack, hq.world, fun j l hj => ?_⟩
  · have h := ((hp.append ha).append hf).append hfa
    simpa only [Fragment.piecesAll_append] using h
  · have hl := hlo l (mem_of_getElem? hj)
    rcases hl.2.2 with hso | hrg
    · have hn : servesReg l = false := by
        cases l <;> simp_all [servesSlot, servesReg]
      rw [hr l hl.1.wide fun _ => hn, hsl j l hj hso, Nat.zero_add]
      rfl
    · rw [hre j l hj hrg, Nat.zero_add, hqu.values]
      rfl

/-! ## Where the body has its inputs -/

theorem Spot.inj (hok : Ok u ks s) (he : u.frame.Extends s.frame) (hb : b ∉ u.shared)
    (h : Spot s (.box b) l) (h' : Spot s (.box b') l) : b = b' := by
  cases h with
  | @reg cls _ r hr =>
    cases h' with
    | reg hr' =>
      have ho := ((hok.sound cls).inverse _ r).mp hr
      have ho' := ((hok.sound cls).inverse _ r).mp hr'
      exact Option.some.inj (Option.some.inj (ho.symm.trans ho'))
  | slot _ hg =>
    cases h' with
    | slot _ hg' => exact u.fine.own b b' _ hb (he _ _ hg) (he _ _ hg')

namespace Entered

variable {s1 : State}

section

variable (h : Entered u bs ops supply locs s1 s)
include h

theorem length_eq : locs.length = bs.length := h.placed.spots.length_eq.symm

theorem extends_body (he : u.frame.Extends s.frame) : u.frame.Extends (s1.body u.req locs).frame :=
  h.silent.frame ▸ he

theorem spot (hj : j < bs.length) (hj' : j < locs.length) :
    Spot (s1.body u.req locs) (.box bs[j]) locs[j] :=
  Spot.congr (s := s1) (h.placed.spots.get hj hj') fun cls => alloc_body s1 u.req locs cls

theorem writable (he : u.frame.Extends s.frame) (hl : l ∈ locs) : l.Writable ∧ l ≠ .reg (Reg.gp r11) ∧
      (servesSlot l = true ∨ servesReg l = true) := by
  obtain ⟨j, hj, rfl⟩ := getElem_of_mem hl
  have hsp := h.spot (h.length_eq ▸ hj) hj
  have hw := hsp.wide (h.extends_body he)
  have hb := hsp.ne_reg h.ok (by decide : rbp ∉ gpOrder)
  have hs := hsp.ne_reg h.ok (by decide : r11 ∉ gpOrder)
  generalize locs[j] = l at hsp hw hb hs ⊢
  cases hsp with
  | reg => exact ⟨⟨hw, rfl, hb⟩, hs, .inr rfl⟩
  | slot => exact ⟨⟨hw, rfl, hb⟩, hs, .inl rfl⟩

theorem nodup (he : u.frame.Extends s.frame) (hnd : bs.Nodup) (hsh : ∀ b ∈ bs, b ∉ u.shared) :
    locs.Nodup := by
  rw [nodup_iff_injective_get]
  rintro ⟨i, hi⟩ ⟨j, hj⟩ heq
  have hi' : i < bs.length := h.length_eq ▸ hi
  have hj' : j < bs.length := h.length_eq ▸ hj
  have heq : locs[i] = locs[j] := heq
  have hs := h.spot hi' hi
  rw [heq] at hs
  have hb := hs.inj h.ok (h.extends_body he) (hsh _ (getElem_mem hi')) (h.spot hj' hj)
  exact Fin.ext ((hnd.getElem_inj_iff).mp hb)

theorem good (hba : c.gp rbp = u.env.frameBase)
    (hh : c.frame HeaderWord.values.offset = u.env.valuesBase) (hst : c.stack = u.stack)
    (hv : ∀ (j : Nat) b l, bs[j]? = some b → locs[j]? = some l → c.contents l = v b) : Good u s c v := by
  refine h.silent.good ⟨fun cls => ?_, hba, hh, hst⟩
  rw [alloc_body]
  have hpl (b : Box) (hb : b ∈ bs.reverse) : ∃ l, Spot s1 (.box b) l ∧ c.contents l = v b := by
    obtain ⟨j, hj, rfl⟩ := getElem_of_mem (mem_reverse.mp hb)
    have hj' : j < locs.length := h.length_eq.symm ▸ hj
    exact ⟨_, h.placed.spots.get hj hj', hv j _ _ (getElem?_eq_getElem hj) (getElem?_eq_getElem hj')⟩
  have hp := h.placed.placing
  rw [append_nil] at hp
  refine ⟨fun b r _ hr => ?_, fun b hb => ?_⟩
  · obtain ⟨hk, hc⟩ := hp.held cls b r hr
    obtain ⟨l, hs, hl⟩ := hpl b hk
    have hpo : (s1.alloc cls).bank.pool = u.req.limits.pool cls := (hp.sound cls).pool_eq
    rw [now_alloc, Allocator.loc, Pool.reg, hpo, Limits.pool_cls, ← hl]
    cases hs with
    | reg hr' =>
      obtain rfl := (hp.held _ b _ hr').2.symm.trans hc
      cases hr'.symm.trans hr
      rfl
    | slot hm _ =>
      obtain ⟨_, hc', _, hn⟩ := hp.stored _ b hm
      obtain rfl := hc'.symm.trans hc
      cases hn.symm.trans hr
  · obtain ⟨hk, hc, _, hn⟩ := hp.stored cls b hb
    obtain ⟨l, hs, hl⟩ := hpl b hk
    cases hs with
    | reg hr' =>
      obtain rfl := (hp.held _ b _ hr').2.symm.trans hc
      cases hn.symm.trans hr'
    | slot _ hg => exact ⟨_, hg, hl⟩

end

end Entered

end TraceCompiler.Lowering
