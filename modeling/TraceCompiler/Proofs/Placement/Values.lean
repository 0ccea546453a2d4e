import TraceCompiler.Proofs.Placement.Transfers

/-! # Allocators lose no values

A `Config` is an allocator at a position of a trace, together with what the locations hold and the
value of every box.
-/

namespace TraceCompiler

open AllocM
open List

open Function (update update_eq_self update_of_ne update_self)

/-- The position of a request, or a default for those that have none. -/
def AllocM.Request.posD (q : Request) (now : Int) : Int :=
  match q with
  | .allocate pos .. | .ensure pos .. | .force pos .. | .clobber pos ..
  | .resultInSameRegister pos .. | .spillCallerSaved pos | .releaseIfDead pos _ | .endOp pos _
  | .temp pos _ => pos
  | _ => now

/-- An allocator at a position, with what the locations hold and what the boxes stand for. -/
structure Config where
  alloc : Allocator
  contents : Contents
  value : Box → Word
  pos : Int

namespace Config

def start (p : Pool) (l : Lifetimes) (f : Frame) (s : BoxSupply) (σ : Contents)
    (value : Box → Word) (pos : Int) : Config :=
  ⟨⟨Bank.ofPool p, l, f, s, #[]⟩, σ, value, pos⟩

/-- A request has been made at a position, and its moves are done. -/
def follow (c : Config) (a : Allocator) (pos : Int) : Config :=
  { c with alloc := { a with moves := #[] }, contents := a.now c.contents, pos }

def define (c : Config) (b : Box) (r : Int) (w : Word) : Config :=
  { c with
    contents := update c.contents (c.alloc.loc r) w
    value := update c.value b w }

def New (c : Config) (b : Box) : Prop := b.id ≤ c.alloc.supply.made ∧ ¬ c.alloc.Placed b

/-- A request, its moves, and the value of a box that gets its first place. -/
inductive Step (c : Config) : List Box → Config → Prop
  | bind {b : Box} {r : Int} {a : Allocator} (hnew : c.New b)
      (hrun : (bind b r).run c.alloc = (.ok (), a)) (w : Word) :
      Step c [] ((c.follow a c.pos).define b r w)
  | bindFrame {b : Box} {s : Slot} {a : Allocator} (hmade : b.id ≤ c.alloc.supply.made)
      (hval : c.alloc.Placed b → c.contents (.slot s) = c.value b)
      (hrun : (bindFrame b s).run c.alloc = (.ok (), a)) :
      Step c [] { c.follow a c.pos with
        value := update c.value b (c.contents (.slot s)) }
  | allocate {pos : Int} {b : Box} {k : Constraint} {r : Int} {a : Allocator} (hpos : c.pos ≤ pos)
      (hnew : c.New b) (hrun : (allocate pos (some b) k).run c.alloc = (.ok r, a))
      (w : Word) : Step c [] ((c.follow a pos).define b r w)
  | ensureBox {pos : Int} {b : Box} {k : Constraint} {r : Int} {a : Allocator} (hpos : c.pos ≤ pos)
      (hrun : (ensure pos (some (.box b)) k).run c.alloc = (.ok r, a)) :
      Step c [] (c.follow a pos)
  | ensureConst {pos : Int} {v : Const} {k : Constraint} {r : Int} {a : Allocator}
      (hpos : c.pos ≤ pos)
      (hrun : (ensure pos (some (.const v)) k).run c.alloc = (.ok r, a)) :
      Step c [] { c.follow a pos with
        value := update c.value (c.alloc.nextTemp v.kind) v.bits }
  | force {pos : Int} {b : Box} {r r' : Int} {k : Constraint} {a : Allocator} (hpos : c.pos ≤ pos)
      (hb : c.alloc.Placed b)
      (hrun : (force pos (some b) r k).run c.alloc = (.ok r', a)) :
      Step c [] (c.follow a pos)
  | forceNew {pos : Int} {b : Box} {r r' : Int} {k : Constraint} {a : Allocator}
      (hpos : c.pos ≤ pos) (hnew : c.New b)
      (hrun : (force pos (some b) r k).run c.alloc = (.ok r', a)) (w : Word) :
      Step c [] ((c.follow a pos).define b r' w)
  | clobber {pos r : Int} {k : Constraint} {a : Allocator} (hpos : c.pos ≤ pos)
      (hrun : (clobber pos r k).run c.alloc = (.ok (), a)) : Step c [] (c.follow a pos)
  | resultInSameRegister {pos : Int} {result : Box} {v : Value} {k : Constraint} {r : Int}
      {a : Allocator} (hpos : c.pos ≤ pos) (hnew : c.New result)
      (hrun : (resultInSameRegister pos (some result) (some v) k).run c.alloc = (.ok r, a))
      (w : Word) : Step c [] ((c.follow a pos).define result r w)
  | rebind {old new : Box} {r : Int} {a : Allocator} (hnew : c.New new)
      (hrun : (rebind (some old) (some new)).run c.alloc = (.ok (), a))
      (hreg : a.bank.regOf (some new) = some r) (w : Word) :
      Step c (if old ∈ c.alloc.bank.inFrame then [] else [old]) ((c.follow a c.pos).define new r w)
  | spill {b : Box} {a : Allocator} (hrun : (spill (some b)).run c.alloc = (.ok (), a)) :
      Step c [] (c.follow a c.pos)
  | call {pos : Int} {a a' : Allocator} {σ : Contents} (hpos : c.pos ≤ pos)
      (hbefore : (spillCallerSaved pos).run c.alloc = (.ok (), a))
      (hcall : ∀ l, (∀ r ∈ c.alloc.bank.pool.callerSaved, a.loc r ≠ l) → σ l = a.now c.contents l)
      (hafter : releaseCallerSaved.run { a with moves := #[] } = (.ok (), a')) :
      Step c [] ({ c with contents := σ }.follow a' pos)
  | releaseIfDead {pos : Int} {v : Option Value} {a : Allocator} (hpos : c.pos ≤ pos)
      (hrun : (releaseIfDead pos v).run c.alloc = (.ok (), a)) : Step c [] (c.follow a pos)
  | endOp {pos : Int} {op : Op} {a : Allocator} (hpos : c.pos ≤ pos)
      (hrun : (endOp pos op).run c.alloc = (.ok (), a)) : Step c [] (c.follow a pos)
  | temp {pos : Int} {kind : Kind} {b : Box} {a : Allocator} (hpos : c.pos ≤ pos)
      (hrun : (temp pos kind).run c.alloc = (.ok b, a)) : Step c [] (c.follow a pos)
  | refused {q : Request} {e : Abort AllocError} {a : Allocator}
      (hpos : c.pos ≤ q.posD c.pos) (hq : ∀ pos result k, q ≠ .resultInSameRegister pos result none k)
      (hrun : q.perform.run c.alloc = (.error e, a)) : Step c [] (c.follow a (q.posD c.pos))

/-- What every step keeps up. -/
structure Valid (p : Pool) (c : Config) : Prop where
  sound : c.alloc.bank.Sound p
  idle : c.alloc.moves = #[]
  holds : c.alloc.Holds none c.contents c.value
  made : ∀ b, c.alloc.Placed b → b.id ≤ c.alloc.supply.made
  temps : ∀ t ∈ c.alloc.bank.temps, c.alloc.lifetimes.lastUse t ≤ c.pos

/-- A later configuration is valid, and it has lost no box that is read behind its position. -/
structure Leads (p : Pool) (c : Config) (gone : List Box) (c' : Config) : Prop where
  valid : c'.Valid p
  pos_le : c.pos ≤ c'.pos
  made_le : c.alloc.supply.made ≤ c'.alloc.supply.made
  lastUse_eq : ∀ b : Box, b.id ≤ c.alloc.supply.made →
    c'.alloc.lifetimes.lastUse b = c.alloc.lifetimes.lastUse b
  keeps : ∀ b, c.alloc.Placed b → b ∉ gone → c'.pos < c.alloc.lifetimes.lastUse b →
    c'.alloc.Placed b ∧ c'.value b = c.value b

open Allocator

variable {p : Pool} {c c' c'' : Config} {a : Allocator} {b : Box} {r pos : Int} {keep : Box → Prop}
  {x : Option Box} {gone gone' : List Box} {w : Word} {σ : Contents} {s : Slot} {value : Box → Word}
  {k : Constraint}

theorem Valid.leads_of_holds (hv : c.Valid p) (hp : c.pos ≤ pos)
    (ha : Adjusts pos keep x c.alloc a) (hx : ∀ b ∈ x, c.alloc.Placed b)
    (hh : a.Holds none c.contents c.value) : Leads p c [] (c.follow a pos) := by
  obtain ⟨hl, hs, -, hte⟩ := ha.same
  refine ⟨⟨ha.sound hv.sound, rfl, ⟨hh.reg, hh.slot⟩, fun b hb => ?_, fun t ht => ?_⟩,
    hp, Nat.le_of_eq (by simp [follow, hs]), fun b _ => by simp [follow, hl],
    fun b hb _ hli => ⟨ha.placed hb hli, rfl⟩⟩
  · have hb' : c.alloc.Placed b := by
      by_cases he : some b = x
      · exact hx b he.symm
      · exact ha.placed_inv he hb
    simpa [follow, hs] using hv.made b hb'
  · have := hv.temps t (hte ▸ ht)
    simp only [follow, hl]
    omega

theorem Valid.leads_follow (hv : c.Valid p) (hp : c.pos ≤ pos)
    (ha : Adjusts pos keep none c.alloc a) (hd : a.frame.Distinct) : Leads p c [] (c.follow a pos) :=
  hv.leads_of_holds hp ha (by simp) (ha.holds hv.sound (.of_distinct hd) hv.holds)

theorem Valid.leads_shrink (hv : c.Valid p) (hp : c.pos ≤ pos)
    (h : Shrinks (fun b => pos < c.alloc.lifetimes.lastUse b) c.alloc a) :
    Leads p c [] (c.follow a pos) := by
  have hh := h.holds hv.sound hv.holds
  refine ⟨⟨h.sound p hv.sound, rfl, ⟨hh.reg, hh.slot⟩, fun b hb => ?_, fun t ht => ?_⟩, hp,
    Nat.le_of_eq (by simp [follow, h.supply]), fun b _ => by simp [follow, h.lifetimes],
    fun b hb _ hl => ⟨h.placed hl hb, rfl⟩⟩
  · simpa [follow, h.supply] using hv.made b (h.placed_inv hb)
  · have := hv.temps t (h.temps t ht)
    simp only [follow, h.lifetimes]
    omega

theorem holds_define (hs : a.bank.Sound p) (hr : a.bank.regOf (some b) = some r)
    (hh : a.Holds (some b) σ (update value b w)) :
    { a with moves := #[] }.Holds none (update (a.now σ) (a.loc r) w) (update value b w) where
  reg := by
    intro b' r' _ hr'
    change update (a.now σ) (a.loc r) w (a.loc r') = _
    by_cases he : b' = b
    · subst he
      cases hr.symm.trans hr'
      simp
    · have hne : r' ≠ r := by
        rintro rfl
        exact he (Option.some.inj (hs.holder_unique hr' hr))
      rw [update_of_ne fun h => hne (a.loc_injective h)]
      exact hh.reg b' r' (fun h => he (Option.some.inj h)) hr'
  slot := by
    intro b' hb'
    obtain ⟨s, hg, hv⟩ := hh.slot b' hb'
    refine ⟨s, hg, ?_⟩
    change update (a.now σ) (a.loc r) w (.slot s) = _
    rwa [update_of_ne (by simp [loc])]

theorem Valid.leads_define (hv : c.Valid p) (hp : c.pos ≤ pos) (hn : c.New b)
    (ha : Adjusts pos keep (some b) c.alloc a) (hr : a.bank.regOf (some b) = some r)
    (hd : a.frame.Distinct) (w : Word) : Leads p c [] ((c.follow a pos).define b r w) := by
  obtain ⟨hl, hsu, -, hte⟩ := ha.same
  have hs := ha.sound hv.sound
  have hh := ha.holds hv.sound (.of_distinct hd)
    ((hv.holds.redefine hn.2 w).weaken (some b))
  refine ⟨⟨hs, rfl, holds_define hs hr hh, fun b' hb' => ?_, fun t ht => ?_⟩, hp,
    Nat.le_of_eq (by simp [follow, define, hsu]), fun b' _ => by simp [follow, define, hl],
    fun b' hb' _ hli => ⟨ha.placed hb' hli, ?_⟩⟩
  · change b'.id ≤ a.supply.made
    rw [hsu]
    by_cases he : b' = b
    · exact he ▸ hn.1
    · exact hv.made b' (ha.placed_inv (fun h => he (Option.some.inj h)) hb')
  · have := hv.temps t (hte ▸ ht)
    simp only [follow, define, hl]
    omega
  · have hne : b' ≠ b := fun he => hn.2 (he ▸ hb')
    exact update_of_ne hne ..

theorem New.regOf (hn : c.New b) : c.alloc.bank.regOf (some b) = none := by
  simpa using (not_or.mp hn.2).1

theorem cleared_eq (h : a.moves = #[]) : { a with moves := #[] } = a := by
  cases a
  cases h
  rfl

theorem now_of_idle (h : a.moves = #[]) (σ : Contents) : a.now σ = σ := by
  rw [now, h]
  rfl

theorem Leads.refl (hv : c.Valid p) : Leads p c [] c :=
  ⟨hv, Int.le_refl _, Nat.le_refl _, fun _ _ => rfl, fun _ hb _ _ => ⟨hb, rfl⟩⟩

theorem Leads.trans (hv : c.Valid p) (h : Leads p c gone c') (h' : Leads p c' gone' c'') :
    Leads p c (gone ++ gone') c'' := by
  have hp := h'.pos_le
  refine ⟨h'.valid, Int.le_trans h.pos_le hp, Nat.le_trans h.made_le h'.made_le,
    fun b hb => (h'.lastUse_eq b (Nat.le_trans hb h.made_le)).trans (h.lastUse_eq b hb),
    fun b hb hg hl => ?_⟩
  rw [mem_append, not_or] at hg
  obtain ⟨hb', hva⟩ := h.keeps b hb hg.1 (by omega)
  obtain ⟨hb'', hva'⟩ := h'.keeps b hb' hg.2 (by rwa [h.lastUse_eq b (hv.made b hb)])
  exact ⟨hb'', hva'.trans hva⟩

theorem Leads.with_contents (h : Leads p c gone c') (hσ : c'.alloc.Holds none σ c'.value) :
    Leads p c gone { c' with contents := σ } :=
  ⟨⟨h.valid.sound, h.valid.idle, hσ, h.valid.made, h.valid.temps⟩, h.pos_le, h.made_le,
    h.lastUse_eq, h.keeps⟩

theorem Valid.leads_temp (hv : c.Valid p) (hp : c.pos ≤ pos) (kind : Kind) :
    Leads p c [] (c.follow (c.alloc.withTemp pos kind) pos) := by
  have hl (b : Box) : (c.alloc.withTemp pos kind).lifetimes.lastUse b =
      if b = c.alloc.nextTemp kind then pos else c.alloc.lifetimes.lastUse b := by
    unfold Lifetimes.lastUse withTemp Lifetimes.addTemp Lifetimes.put Lifetimes.get?
    simp only [Table.get?_insert]
    split <;> rfl
  have hold (b : Box) (hb : b.id ≤ c.alloc.supply.made) : b ≠ c.alloc.nextTemp kind := by
    rintro rfl
    exact Nat.not_succ_le_self _ hb
  refine ⟨⟨hv.sound.with_frame .., rfl, ⟨hv.holds.reg, hv.holds.slot⟩, fun b hb => ?_,
    fun t ht => ?_⟩, hp, Nat.le_succ _, fun b hb => ?_, fun b hb _ _ => ⟨hb, rfl⟩⟩
  · exact Nat.le_succ_of_le (hv.made b hb)
  · change (c.alloc.withTemp pos kind).lifetimes.lastUse t ≤ pos
    rw [hl]
    split
    · exact Int.le_refl _
    · rename_i hne
      rcases mem_append.mp ht with ht | ht
      · exact Int.le_trans (hv.temps t ht) hp
      · exact absurd (mem_singleton.mp ht) hne
  · exact (hl b).trans (if_neg (hold b hb))

theorem Valid.nextTemp_new (hv : c.Valid p) (kind : Kind) : ¬ c.alloc.Placed (c.alloc.nextTemp kind) := by
  intro hb
  exact Nat.not_succ_le_self _ (hv.made _ hb)

theorem placed_of_pending (hb : a.Placed b) : ∀ b' ∈ a.pending b, a.Placed b' := by
  intro b' hb'
  unfold pending at hb'
  split at hb'
  · cases hb'
    exact hb
  · cases hb'

theorem Valid.leads_ensureBox (hv : c.Valid p) (hp : c.pos ≤ pos)
    (he : Ensured pos k c.alloc (.box b) r a) (hd : a.frame.Distinct) : Leads p c [] (c.follow a pos) := by
  refine hv.leads_of_holds hp (he.adjusts hv.sound).1 ?_
    (he.holds_box hv.sound (.of_distinct hd) hv.holds)
  cases he with
  | bound hr => exact placed_of_pending (.inl hr)
  | loaded _ hf => exact placed_of_pending (.inr hf)

theorem Valid.leads_ensureConst (hv : c.Valid p) (hp : c.pos ≤ pos)
    (he : Ensured pos k c.alloc (.const v) r a) (hd : a.frame.Distinct) :
    Leads p c [] { c.follow a pos with
      value := update c.value (c.alloc.nextTemp v.kind) v.bits } := by
  have hn := hv.nextTemp_new v.kind
  have ht := hv.leads_temp hp v.kind
  obtain ⟨had, hr⟩ := he.adjusts hv.sound (by simpa using (not_or.mp hn).1)
  have hva := (he.holds_const hv.sound (.of_distinct hd) hn hv.holds).register hr
  rw [update_self] at hva
  -- The move has written the constant already, so writing it once more changes nothing.
  have hw : update (a.now c.contents) (a.loc r) v.bits = a.now c.contents := by
    rw [← hva, update_eq_self]
  have ha : (c.follow (c.alloc.withTemp pos v.kind) pos).alloc = c.alloc.withTemp pos v.kind :=
    cleared_eq hv.idle
  have hc : (c.follow (c.alloc.withTemp pos v.kind) pos).contents = c.contents :=
    now_of_idle (a := c.alloc.withTemp pos v.kind) hv.idle c.contents
  have hde := ht.valid.leads_define (Int.le_refl pos) (b := c.alloc.nextTemp v.kind)
    (by rw [New, ha]; exact ⟨Nat.le_refl _, hn⟩) (by rwa [ha]) hr hd v.bits
  have heq : ((c.follow (c.alloc.withTemp pos v.kind) pos).follow a pos).define
      (c.alloc.nextTemp v.kind) r v.bits = { c.follow a pos with
        value := update c.value (c.alloc.nextTemp v.kind) v.bits } := by
    simp only [define, follow, loc] at hw hc ⊢
    rw [hc, hw]
  exact heq ▸ ht.trans hv hde

theorem placed_bindSlot : (a.bindSlot b s).Placed b' ↔ a.Placed b' ∨ b' = b := by
  simp only [Placed, bindSlot, mem_cons]
  constructor
  · rintro (h | h | h)
    · exact .inl (.inl h)
    · exact .inr h
    · exact .inl (.inr h)
  · rintro ((h | h) | h)
    · exact .inl h
    · exact .inr (.inr h)
    · exact .inr (.inl h)

theorem holds_bindSlot (hh : a.Holds none σ value) (hv : a.Placed b → a.now σ (.slot s) = value b) :
    (a.bindSlot b s).Holds none σ (update value b (a.now σ (.slot s))) where
  reg := by
    intro b' r _ hr
    have hold := hh.register hr
    by_cases he : b' = b
    · subst he
      have hp : a.Placed b' := .inl (Option.isSome_iff_exists.mpr ⟨r, hr⟩)
      rwa [update_self, hv hp]
    · rwa [update_of_ne he]
  slot := by
    intro b' hb'
    change ∃ s', (a.frame.bind b s).get? b' = _ ∧ a.now σ (.slot s') = _
    by_cases he : b' = b
    · subst he
      exact ⟨s, by rw [Frame.get?_bind, if_pos rfl], by rw [update_self]⟩
    · have hm : b' ∈ a.bank.inFrame := (mem_cons.mp hb').resolve_left he
      rw [update_of_ne he]
      simpa only [Frame.get?_bind, he, if_false] using hh.slot b' hm

theorem Valid.leads_bindFrame (hv : c.Valid p) (hm : b.id ≤ c.alloc.supply.made)
    (hva : c.alloc.Placed b → c.contents (.slot s) = c.value b) :
    Leads p c [] { c.follow (c.alloc.bindSlot b s) c.pos with
      value := update c.value b (c.contents (.slot s)) } := by
  have hn := congrFun (now_of_idle hv.idle c.contents) (.slot s)
  have hh := holds_bindSlot hv.holds (hn ▸ hva)
  rw [hn] at hh
  refine ⟨⟨hv.sound.with_frame .., rfl, ⟨hh.reg, hh.slot⟩, fun b' hb' => ?_, hv.temps⟩,
    Int.le_refl _, Nat.le_refl _, fun _ _ => rfl, fun b' hb' _ _ => ⟨?_, ?_⟩⟩
  · rcases (placed_bindSlot (s := s)).mp hb' with hb' | rfl
    · exact hv.made b' hb'
    · exact hm
  · exact (placed_bindSlot (s := s)).mpr (.inl hb')
  · by_cases he : b' = b
    · subst he
      exact (update_self ..).trans (hva hb')
    · exact update_of_ne he ..

theorem Valid.leads_rebind (hv : c.Valid p) (hn : c.New new)
    (hold : c.alloc.bank.regOf (some old) = some r) (w : Word) :
    Leads p c (if old ∈ c.alloc.bank.inFrame then [] else [old])
      ((c.follow (c.alloc.handOver old new r) c.pos).define new r w) := by
  have hs := sound_handOver hv.sound hold hn.regOf
  have hr (b : Box) : (c.alloc.handOver old new r).bank.regOf (some b) =
      if b = new then some r else if b = old then none else c.alloc.bank.regOf (some b) := by
    change (((c.alloc.bank.release (some old)).assign (some new) r)).regOf (some b) = _
    simp
  have hf : (c.alloc.handOver old new r).bank.inFrame = c.alloc.bank.inFrame :=
    inFrame_release ..
  have hst := (hv.holds.redefine hn.2 w).weaken (some new)
  have hp := (hst.release (some old)).place rfl r
  have hh : (c.alloc.handOver old new r).Holds (some new) c.contents _ := ⟨hp.reg, hp.slot⟩
  refine ⟨⟨hs, rfl, holds_define hs (by simp [hr]) hh, fun b hb => ?_,
    fun t ht => ?_⟩, Int.le_refl _, Nat.le_refl _, fun _ _ => rfl, fun b hb hg _ => ⟨?_, ?_⟩⟩
  · by_cases he : b = new
    · exact he ▸ hn.1
    · refine hv.made b (hb.imp (fun h => ?_) fun h => hf ▸ h)
      have h : ((c.alloc.handOver old new r).bank.regOf (some b)).isSome := h
      rw [hr, if_neg he] at h
      split at h
      · cases h
      · exact h
  · have ht : t ∈ (c.alloc.bank.release (some old)).temps.erase old := ht
    rw [temps_release] at ht
    exact hv.temps t (mem_of_mem_erase ht)
  · by_cases hi : b ∈ c.alloc.bank.inFrame
    · exact .inr (hf ▸ hi)
    refine .inl ?_
    change ((c.alloc.handOver old new r).bank.regOf (some b)).isSome
    have hne : b ≠ old := fun he => hg (by rw [← he, if_neg hi]; exact mem_cons_self)
    rw [hr, if_neg hne]
    split
    · rfl
    · exact hb.resolve_right hi
  · have hne : b ≠ new := fun he => hn.2 (he ▸ hb)
    exact update_of_ne hne ..

/-- A call: what is read later is stored, the call overwrites registers, and what was there is
forgotten. -/
theorem Valid.leads_call (hv : c.Valid p) (hp : c.pos ≤ pos)
    (hbe : (spillCallerSaved pos).run c.alloc = (.ok (), a))
    (hc : ∀ l, (∀ r ∈ c.alloc.bank.pool.callerSaved, a.loc r ≠ l) → σ l = a.now c.contents l)
    (ha : releaseCallerSaved.run { a with moves := #[] } = (.ok (), a'))
    (hd : a'.frame.Distinct) : Leads p c [] ({ c with contents := σ }.follow a' pos) := by
  rw [run_spillCallerSaved, hv.sound.pool_eq] at hbe
  rw [hv.sound.pool_eq] at hc
  have hal : ∀ b ∈ (none : Option Box), c.alloc.lifetimes.lastUse b ≤ pos := by simp
  obtain ⟨hsp, hde⟩ := adjusts_spill hv.sound hal p.regs
  cases hbe
  generalize p.regs.foldl (spillAt pos) c.alloc = a at *
  have hs := hsp.sound hv.sound
  rw [run_releaseCallerSaved] at ha
  obtain ⟨hf, hg⟩ : Shrinks (fun b => pos < a.lifetimes.lastUse b) { a with moves := #[] } _ ∧ _ :=
    Shrinks.forget (a := { a with moves := #[] }) hs (fun r hr b hli hre => by
      have := hde r (hs.pool_eq ▸ hs.held_sub _ r hre) hr b hre
      rw [← hsp.same.1] at this
      omega) p.regs
  rw [show ({ a with moves := #[] } : Allocator).bank.pool = p from hs.pool_eq] at ha
  cases ha
  generalize p.regs.foldl forgetAt { a with moves := #[] } = a' at *
  have hfi := hv.leads_follow hp hsp (show a.frame.Distinct from hf.frame ▸ hd)
  have hl := hfi.trans hv (hfi.valid.leads_shrink (Int.le_refl pos) hf)
  have hs' := hf.sound p hs
  have hn (σ : Contents) : a'.now σ = σ := now_of_idle hf.moves σ
  have hold : a'.Holds none (a.now c.contents) c.value := hf.holds hs hfi.valid.holds
  have hh : a'.Holds none σ c.value := by
    constructor
    · intro b r _ hre
      have hva := hold.register hre
      rw [hn] at hva ⊢
      rw [hc, hva]
      intro r' hr' he
      have he : r' = r := by
        rw [loc, loc, hs.pool_eq, hs'.pool_eq] at he
        cases he
        rfl
      exact hg r (hs'.pool_eq ▸ hs'.held_sub _ r hre) (he ▸ hr') _ hre
    · intro b hb
      obtain ⟨s, hge, hva⟩ := hold.slot b hb
      rw [hn] at hva
      exact ⟨s, hge, by rw [hn, hc _ (by simp [loc]), hva]⟩
  exact hl.with_contents ⟨hh.reg, hh.slot⟩

theorem Valid.leads_refused {q : Request} {e : Abort AllocError} (hv : c.Valid p)
    (hp : c.pos ≤ q.posD c.pos) (hq : ∀ pos result k, q ≠ .resultInSameRegister pos result none k)
    (hr : q.perform.run c.alloc = (.error e, a)) (hd : a.frame.Distinct) :
    Leads p c [] (c.follow a (q.posD c.pos)) := by
  rcases Request.refused hr with rfl | ⟨pos, k, l, rfl, rfl⟩ | ⟨b, hb, rfl⟩ |
    ⟨pos, result, k, r, rfl, _⟩
  · exact hv.leads_shrink hp (.refl ..)
  · exact hv.leads_temp hp k.kind
  · have ha : Adjusts (q.posD c.pos) (fun _ => True) none c.alloc _ := .single (.slot hb)
    exact hv.leads_follow hp ha hd
  · exact absurd rfl (hq pos result k)

/-- **One request loses no value.** -/
theorem Step.leads (hst : Step c gone c') (hv : c.Valid p) (hd : c'.alloc.frame.Distinct) :
    Leads p c gone c' := by
  cases hst with
  | bind hn hru w =>
    rw [run_bind] at hru
    split at hru
    · rename_i hr
      cases hru
      have had : Adjusts c.pos (fun _ => True) _ c.alloc _ := .single (.place rfl hn.regOf hr)
      exact hv.leads_define (Int.le_refl _) hn had (by simp) hd w
    · cases hru
  | bindFrame hm hva hru =>
    rw [run_bindFrame] at hru
    cases hru
    exact hv.leads_bindFrame hm hva
  | allocate hp hn hru w =>
    have ha := allocate_ends.ok hru
    have had := ha.adjusts hv.sound
    rw [pending_of_none hn.regOf] at had
    exact hv.leads_define hp hn had ha.regOf hd w
  | ensureBox hp hru =>
    obtain ⟨_, hw, he⟩ := (ensure_ends _).ok hru
    cases hw
    exact hv.leads_ensureBox hp he hd
  | ensureConst hp hru =>
    obtain ⟨_, hw, he⟩ := (ensure_ends _).ok hru
    cases hw
    exact hv.leads_ensureConst hp he hd
  | force hp hb hru =>
    obtain ⟨rfl, hf⟩ := force_ends.ok hru
    refine hv.leads_of_holds hp (hf.adjusts hv.sound) ?_
      (hf.holds hv.sound (.of_distinct hd) hv.holds hb)
    exact placed_of_pending hb
  | forceNew hp hn hru w =>
    obtain ⟨rfl, hf⟩ := force_ends.ok hru
    have had := hf.adjusts hv.sound
    rw [pending_of_none hn.regOf] at had
    exact hv.leads_define hp hn had hf.regOf hd w
  | clobber hp hru =>
    exact hv.leads_follow hp ((clobber_ends.ok hru).adjusts hv.sound (by simp)) hd
  | resultInSameRegister hp hn hru w =>
    obtain ⟨_, hw, hs⟩ := (shared_ends _).ok hru
    cases hw
    obtain ⟨had, hre⟩ := hs.adjusts hv.sound hn.regOf
    exact hv.leads_define hp hn had hre hd w
  | @rebind old new r a hn hru hre w =>
    rw [run_rebind] at hru
    split at hru
    · cases hru
    · rename_i r' hold
      cases hru
      have : r' = r := by
        change ((c.alloc.bank.release (some old)).assign (some new) r').regOf (some new) = _
          at hre
        simpa using hre
      subst this
      exact hv.leads_rebind hn hold w
  | @spill b a hru =>
    rw [run_spill] at hru
    cases hre : c.alloc.bank.regOf (some b) with
    | none =>
      rw [hre] at hru
      cases hru
      exact hv.leads_shrink (Int.le_refl _) (.refl ..)
    | some r =>
      rw [hre] at hru
      cases hru
      have had : Adjusts c.pos (fun _ => False) none c.alloc _ :=
        .single (.store (by simp) not_false hre)
      exact hv.leads_follow (Int.le_refl _) had hd
  | call hp hbe hc haf => exact hv.leads_call hp hbe hc haf hd
  | releaseIfDead hp hru =>
    rw [run_releaseIfDead] at hru
    cases hru
    exact hv.leads_shrink hp (.releaseIfDead (fun _ h => h) _)
  | endOp hp hru =>
    rw [run_endOp] at hru
    cases hru
    refine hv.leads_shrink hp (.endOp (fun _ h => h) (fun t ht => ?_) _)
    have := hv.temps t ht
    omega
  | temp hp hru =>
    rw [run_temp] at hru
    cases hru
    exact hv.leads_temp hp _
  | refused hp hq hru => exact hv.leads_refused hp hq hru hd

/-- A run of requests, in which boxes always have slots of their own. -/
inductive Runs (c : Config) : List Box → Config → Prop
  | refl : Runs c [] c
  | tail {gone gone' : List Box} {c' c'' : Config} (hruns : Runs c gone c')
      (hstep : Step c' gone' c'') (hd : c''.alloc.frame.Distinct) : Runs c (gone ++ gone') c''

theorem Runs.leads (hr : Runs c gone c') (hv : c.Valid p) : Leads p c gone c' := by
  induction hr with
  | refl => exact .refl hv
  | tail _ hs hd ih => exact ih.trans hv (hs.leads ih.valid hd)

theorem valid_start (hp : p.regs.Nodup) (l : Lifetimes) (f : Frame) (s : BoxSupply) (σ : Contents)
    (value : Box → Word) (pos : Int) : (start p l f s σ value pos).Valid p where
  sound := .ofPool hp
  idle := rfl
  holds := ⟨fun _ _ _ h => (by cases h), fun _ h => (by cases h)⟩
  made := by
    rintro b (h | h) <;> cases h
  temps := by simp [start, Bank.ofPool]

/-- **Allocators lose no values.** After any run of requests from a pool of distinct registers, the
register of every bound box and the slot of every stored one hold the value of that box; a register
that is returned for an operand holds its value; and along every further run a box that is read
behind the current position keeps a place and its value, unless its register was handed over. -/
theorem runs_preserve_values {p : Pool} (hp : p.regs.Nodup) {l : Lifetimes} {f : Frame}
    {s : BoxSupply} {σ : Contents} {value : Box → Word} {pos : Int} {earlier gone : List Box}
    {c c' : Config} (hfirst : Runs (start p l f s σ value pos) earlier c) (hruns : Runs c gone c') :
    (∀ b r, c.alloc.bank.regOf (some b) = some r → c.contents (c.alloc.loc r) = c.value b) ∧
    (∀ b ∈ c.alloc.bank.inFrame, ∃ s, c.alloc.frame.get? b = some s ∧
      c.contents (.slot s) = c.value b) ∧
    (∀ now v k r a, (AllocM.ensure now (some v) k).run c.alloc = (.ok r, a) → a.frame.Distinct →
      a.now c.contents (a.loc r) = v.word c.value) ∧
    (∀ now result v k r a, c.New result →
      (AllocM.resultInSameRegister now (some result) (some v) k).run c.alloc = (.ok r, a) →
      a.frame.Distinct → a.now c.contents (a.loc r) = v.word c.value) ∧
    ∀ b, c.alloc.Placed b → b ∉ gone → c'.pos < c'.alloc.lifetimes.lastUse b →
      c'.alloc.Placed b ∧ c'.value b = c.value b := by
  have hv := (hfirst.leads (valid_start hp ..)).valid
  have hleads := hruns.leads hv
  have hnow (l : Location) : c.alloc.now c.contents l = c.contents l :=
    congrFun (now_of_idle hv.idle c.contents) l
  refine ⟨fun b r hreg => ?_, fun b hb => ?_, fun now v k r a hrun hd => ?_,
    fun now result v k r a hnew hrun hd => ?_, fun b hb hgone hlive => ?_⟩
  · exact (hnow _).symm.trans (hv.holds.register hreg)
  · obtain ⟨s, hget, hval⟩ := hv.holds.slot b hb
    exact ⟨s, hget, (hnow _).symm.trans hval⟩
  · obtain ⟨_, hw, hens⟩ := (AllocM.ensure_ends _).ok hrun
    cases hw
    exact hens.now hv.sound hd hv.nextTemp_new hv.holds
  · obtain ⟨_, hw, hshared⟩ := (AllocM.shared_ends _).ok hrun
    cases hw
    exact hshared.now hv.sound hnew.regOf hd hv.holds
  · rw [hleads.lastUse_eq b (hv.made b hb)] at hlive
    exact hleads.keeps b hb hgone hlive

/-- One register for two boxes that are both read later: the first is evicted for the second and
comes back. -/
theorem runs_preserve_values_evicted :
    let p : Pool := { cls := .gp, regs := [0] }
    let x : Box := ⟨1, .int⟩
    let y : Box := ⟨2, .int⟩
    let l := (Lifetimes.put {} x ⟨-1, 4⟩).put y ⟨1, 3⟩
    let c₀ := start p l (.startingAt 0) ⟨2⟩ (fun _ => 0) (fun _ => 0) (-1)
    ∃ c c', Runs c₀ [] c ∧ Runs c [] c' ∧ c.alloc.bank.regOf (some y) = some 0 ∧
      (∃ s, c.alloc.frame.get? x = some s ∧ c.contents (.slot s) = c.value x) ∧
      c'.alloc.Placed x ∧ c'.value x = c.value x := by
  intro p x y l c₀
  have hnew : c₀.New x := ⟨by decide, by rintro (h | h) <;> cases h⟩
  have hbind : (AllocM.bind x 0).run c₀.alloc = (.ok (), c₀.alloc.assign (some x) 0) := rfl
  let c1 := (c₀.follow (c₀.alloc.assign (some x) 0) (-1)).define x 0 7
  have h1 : Runs c₀ [] c1 := .tail .refl (.bind hnew hbind 7) (Frame.distinct_of_nodup (by decide))
  let a2 := ((AllocM.allocate 1 (some y) {}).run c1.alloc).2
  have hrun2 : (AllocM.allocate 1 (some y) {}).run c1.alloc = (.ok 0, a2) :=
    run_eq_of_fst (by decide +kernel)
  have hnew2 : c1.New y := ⟨by decide, not_or.mpr ⟨by decide +kernel, by decide +kernel⟩⟩
  let c2 := (c1.follow a2 1).define y 0 9
  have h2 : Runs c₀ [] c2 :=
    .tail h1 (.allocate (by decide) hnew2 hrun2 9) (Frame.distinct_of_nodup (by decide +kernel))
  let a3 := ((AllocM.ensure 2 (some (.box x)) {}).run c2.alloc).2
  have hrun3 : (AllocM.ensure 2 (some (.box x)) {}).run c2.alloc = (.ok 0, a3) :=
    run_eq_of_fst (by decide +kernel)
  have h3 : Runs c2 [] (c2.follow a3 2) :=
    .tail .refl (.ensureBox (by decide) hrun3) (Frame.distinct_of_nodup (by decide +kernel))
  obtain ⟨-, hslots, -, -, hkept⟩ := runs_preserve_values (by decide) h2 h3
  have hreg : c2.alloc.bank.regOf (some y) = some 0 := by decide +kernel
  have hstored : x ∈ c2.alloc.bank.inFrame := by decide +kernel
  have hlive : (c2.follow a3 2).pos < (c2.follow a3 2).alloc.lifetimes.lastUse x := by
    decide +kernel
  exact ⟨c2, c2.follow a3 2, h2, h3, hreg, hslots x hstored, hkept x (.inr hstored) (by simp) hlive⟩

/-- Handing over a register drops its box, even one that is read later. -/
theorem rebind_loses_live_box :
    let p : Pool := { cls := .gp, regs := [0] }
    let x : Box := ⟨1, .int⟩
    let c₀ := start p (Lifetimes.put {} x ⟨-1, 4⟩) (.startingAt 0) ⟨2⟩ (fun _ => 0) (fun _ => 0) (-1)
    ∃ c c', Runs c₀ [] c ∧ Runs c [x] c' ∧ c.alloc.Placed x ∧
      c'.pos < c'.alloc.lifetimes.lastUse x ∧ ¬ c'.alloc.Placed x := by
  intro p x c₀
  have hnew : c₀.New x := ⟨by decide, by rintro (h | h) <;> cases h⟩
  have hbind : (AllocM.bind x 0).run c₀.alloc = (.ok (), c₀.alloc.assign (some x) 0) := rfl
  let c1 := (c₀.follow (c₀.alloc.assign (some x) 0) (-1)).define x 0 7
  have h1 : Runs c₀ [] c1 := .tail .refl (.bind hnew hbind 7) (Frame.distinct_of_nodup (by decide))
  let y : Box := ⟨2, .int⟩
  have hrun : (AllocM.rebind (some x) (some y)).run c1.alloc = (.ok (), c1.alloc.handOver x y 0) :=
    rfl
  have hnew' : c1.New y := ⟨by decide, not_or.mpr ⟨by decide +kernel, by decide +kernel⟩⟩
  have h2 := Runs.tail .refl (.rebind (r := 0) hnew' hrun (by decide +kernel) 9)
    (Frame.distinct_of_nodup (by decide +kernel))
  rw [if_neg (by decide +kernel)] at h2
  exact ⟨c1, _, h1, h2, .inl (by decide +kernel), by decide +kernel,
    not_or.mpr ⟨by decide +kernel, by decide +kernel⟩⟩

end Config

end TraceCompiler
