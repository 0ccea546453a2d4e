import TraceCompiler.Proofs.Placement.Transfers

/-! # Registers are free or owned

The records of a bank agree after every request, granted or refused (`Request.sound_after`), because
a request is made of changes that keep them in agreement (`Adjusts.sound`, `Shrinks.sound`), and hence
after every run of requests (`Runs.sound`).
-/

namespace TraceCompiler

namespace AllocM

open Allocator

variable {a a' : Allocator} {p : Pool}

/-- The box that a request places without looking whether it has a register. -/
def Request.newcomer? : Request → Option Box
  | bind b _ => some b
  | resultInSameRegister _ result _ _ => some result
  | rebind _ new => some new
  | _ => none

/-- Such a box has no register at the time of the request. -/
def Request.Admissible (a : Allocator) (q : Request) : Prop :=
  ∀ b ∈ q.newcomer?, a.bank.regOf (some b) = none

instance (a : Allocator) (q : Request) : Decidable (q.Admissible a) :=
  inferInstanceAs (Decidable (∀ b ∈ q.newcomer?, a.bank.regOf (some b) = none))

theorem Ensured.sound (he : Ensured pos c a v r a') (hs : a.bank.Sound p) : a'.bank.Sound p := by
  cases he with
  | const ha => exact (ha.adjusts (sound_withTemp hs ..)).sound (sound_withTemp hs ..)
  | bound _ ha => exact (ha.adjusts hs).sound hs
  | loaded _ _ ha => exact (ha.adjusts hs).sound hs

theorem Request.sound_after {q : Request} (hq : q.Admissible a) (hs : a.bank.Sound p) :
    (q.after a).bank.Sound p := by
  unfold Request.after
  cases q with simp only [Request.perform, run_bind_pure_snd]
  | bind b r =>
    rw [run_bind]
    split
    · rename_i hr
      exact hs.assign hr (hq b rfl)
    · exact hs
  | bindFrame b s => exact hs.with_frame ..
  | allocate pos b c =>
    exact allocate_ends.state (fun _ _ h => (h.adjusts hs).sound hs) fun _ h => h ▸ hs
  | ensure pos v c =>
    refine (ensure_ends v).state (P := (·.bank.Sound p)) ?_ ?_
    · rintro _ _ ⟨_, _, h⟩
      exact h.sound hs
    rintro _ (rfl | ⟨k, _, rfl⟩)
    · exact hs
    · exact sound_withTemp hs ..
  | force pos b r c =>
    exact force_ends.state (fun _ _ h => (h.2.adjusts hs).sound hs) fun _ h => h ▸ hs
  | clobber pos r c =>
    refine clobber_ends.state (P := (·.bank.Sound p)) (fun _ _ h => ?_) fun _ h => h ▸ hs
    exact (h.adjusts (x := none) hs (by simp)).sound hs
  | resultInSameRegister pos result operand c =>
    refine (shared_ends operand).state (P := (·.bank.Sound p)) ?_ ?_
    · rintro _ _ ⟨_, _, h⟩
      exact (h.adjusts hs (hq result rfl)).1.sound hs
    rintro _ (rfl | ⟨b, _, _, rfl⟩ | ⟨_, r, ha⟩)
    · exact hs
    · exact hs
    · exact (ha.adjusts hs).sound hs
  | rebind old new =>
    cases hold : a.bank.regOf (some old) with
    | none =>
      rw [run_bind_of_error (by rw [run_rebind, hold])]
      exact hs
    | some r =>
      rw [run_seq (by rw [run_rebind, hold])]
      exact sound_handOver hs hold (hq new rfl)
  | spill b =>
    rw [run_spill]
    dsimp only
    split
    · exact sound_store hs ..
    · exact hs
  | spillCallerSaved pos =>
    rw [run_spillCallerSaved]
    exact (adjusts_spill (x := none) hs (by simp) _).1.sound hs
  | releaseCallerSaved =>
    rw [run_releaseCallerSaved]
    have hsh (l : List Int) : Shrinks (fun _ => False) a (l.foldl forgetAt a) :=
      (Shrinks.forget hs (by simp) l).1
    exact (hsh _).sound p hs
  | releaseIfDead pos v =>
    rw [run_releaseIfDead]
    have hsh : Shrinks (fun _ => False) a (a.releaseIfDead pos v) := .releaseIfDead nofun v
    exact hsh.sound p hs
  | endOp pos op =>
    rw [run_endOp]
    have hsh : Shrinks (fun _ => False) a (a.endOp pos op) := .endOp nofun (by simp) op
    exact hsh.sound p hs
  | temp pos kind => exact sound_withTemp hs pos kind
  | location v =>
    rcases v with _ | b | k
    · exact hs
    · refine (location_ends b).state (P := (·.bank.Sound p)) (fun _ _ hl => ?_) fun _ h => h ▸ hs
      cases hl <;> exact hs
    · exact hs

inductive Runs : Allocator → List Request → Allocator → Prop
  | nil {a : Allocator} : Runs a [] a
  | cons {a a' : Allocator} {q : Request} {qs : List Request} (hq : q.Admissible a)
      (hrest : Runs (q.after a) qs a') : Runs a (q :: qs) a'

theorem Runs.sound (hr : Runs a qs a') (hs : a.bank.Sound p) : a'.bank.Sound p := by
  induction hr with
  | nil => exact hs
  | cons hq _ ih => exact ih (Request.sound_after hq hs)

end AllocM

namespace Bank

variable {k : Bank} {p : Pool}

theorem Sound.perm (hs : k.Sound p) : (k.bound.entries.map Prod.snd ++ k.free).Perm k.pool.regs := by
  have hh {r : Int} : r ∈ k.bound.entries.map Prod.snd ↔ ∃ h, k.regOf h = some r := by
    simp only [List.mem_map, Prod.exists, exists_eq_right, Table.mem_entries, regOf]
  have hn : (k.bound.entries.map Prod.snd).Nodup := by
    refine List.Nodup.map_on ?_ (List.Nodup.of_map _ k.bound.nodup)
    rintro ⟨h, r⟩ hm ⟨h', r'⟩ hm' rfl
    rw [hs.holder_unique (Table.mem_entries.mp hm) (Table.mem_entries.mp hm')]
  refine (List.perm_ext_iff_of_nodup (List.nodup_append.mpr ⟨hn, hs.nodup_free, ?_⟩)
    hs.nodup_pool).mpr fun r => ?_
  · rintro r hr _ hf rfl
    obtain ⟨h, hre⟩ := hh.mp hr
    exact hs.not_free_of_held hre hf
  · rw [List.mem_append, hh]
    constructor
    · rintro (⟨h, hre⟩ | hf)
      · exact hs.held_sub h r hre
      · exact hs.free_sub r hf
    · intro hr
      cases ho : k.owner.get? r with
      | none => exact .inr ((hs.free_iff r hr).mpr ho)
      | some h => exact .inl ⟨h, (hs.inverse h r).mpr ho⟩

theorem Sound.size_add_length (hs : k.Sound p) : k.bound.size + k.free.length = k.pool.regs.length := by
  have hl := hs.perm.length_eq
  rwa [List.length_append, List.length_map] at hl

theorem Sound.free_or_owned (hs : k.Sound p) (hr : r ∈ k.pool.regs) :
    Xor (r ∈ k.free) (∃! b : Box, k.regOf (some b) = some r) := by
  cases ho : k.ownerOf r with
  | none =>
    have ho := hs.owner_eq_none.mp ho
    refine .inl ⟨(hs.free_iff r hr).mpr ho, ?_⟩
    rintro ⟨b, hre, _⟩
    rw [(hs.inverse _ r).mp hre] at ho
    cases ho
  | some b =>
    have hre := hs.ownerOf_eq_some.mp ho
    refine .inr ⟨⟨b, hre, fun b' hre' => ?_⟩, hs.not_free_of_held hre⟩
    exact Option.some.inj (hs.holder_unique hre' hre)

end Bank

namespace AllocM

/-- **The bookkeeping of an allocator.** After any run of requests, granted or refused, in which a
box that is bound, gets a register handed over or becomes the result of a shared register has none
at that time: every register of the pool is either free or owned by exactly one box, owners and
bindings are inverse to each other, only registers of the pool are free or bound, and together they
are as many as the pool has. -/
theorem runs_partition {p : Pool} (hp : p.regs.Nodup) {l : Lifetimes} {f : Frame} {s : BoxSupply}
    {qs : List Request} {a : Allocator} (hruns : Runs ⟨Bank.ofPool p, l, f, s, #[]⟩ qs a) :
    (∀ r ∈ p.regs, Xor (r ∈ a.bank.free) (∃! b : Box, a.bank.bound.get? (some b) = some r)) ∧
    (∀ h r, a.bank.bound.get? h = some r ↔ a.bank.owner.get? r = some h) ∧
    (∀ r, r ∈ a.bank.free ∨ (∃ h, a.bank.bound.get? h = some r) → r ∈ p.regs) ∧
    a.bank.bound.size + a.bank.free.length = p.regs.length := by
  have hs := hruns.sound (Bank.Sound.ofPool hp)
  obtain rfl := hs.pool_eq
  refine ⟨fun r hr => hs.free_or_owned hr, hs.inverse, ?_, hs.size_add_length⟩
  rintro r (hfree | ⟨h, hreg⟩)
  · exact hs.free_sub r hfree
  · exact hs.held_sub h r hreg

/-- Two registers and four boxes: the second box is evicted for the third, the first hands its
register over, and binding the last box is refused. -/
theorem runs_partition_two :
    let p : Pool := { cls := .gp, regs := [0, 1] }
    let b (n : Nat) : Box := ⟨n, .int⟩
    let start : Allocator := ⟨Bank.ofPool p, {}, .startingAt 0, ⟨4⟩, #[]⟩
    let qs : List Request := [.bind (b 1) 0, .allocate 0 (b 2) {},
      .allocate 1 (b 3) { forbidden := [some (b 1)] }, .rebind (b 1) (b 4), .bind (b 1) 0]
    let a := qs.foldl (fun a q => q.after a) start
    Runs start qs a ∧ a.bank.regOf (some (b 4)) = some 0 ∧
      a.bank.regOf (some (b 3)) = some 1 ∧ a.bank.bound.size + a.bank.free.length = 2 := by
  intro p b start qs a
  have hruns : Runs start qs a :=
    .cons (by decide) (.cons (by decide) (.cons (by decide) (.cons (by decide +kernel)
      (.cons (by decide +kernel) .nil))))
  exact ⟨hruns, by decide +kernel, by decide +kernel, (runs_partition (by decide) hruns).2.2.2⟩

end AllocM

/-! ## Which register a request gets -/

open List

def Constraint.Coherent (c : Constraint) (p : Pool) : Prop :=
  ∀ r ∈ c.pinned, r ∉ c.avoid ∧ (c.byteOnly = true → r ∈ p.byteRegs)

/-- A box that a request could evict: it is neither forbidden nor temporary, and its register is within
the limits. -/
structure Bank.Evictable (k : Bank) (c : Constraint) (r : Int) (b : Box) : Prop where
  register : k.regOf (some b) = some r
  fits : c.fits k.pool r = true
  allowed : some b ∉ c.forbidden
  lasting : b ∉ k.temps

/-- No register within the limits is free, and of the boxes that could be evicted `b` is one that is
read furthest away, the first one in the order of the pool. -/
structure Allocator.Evicts (a : Allocator) (c : Constraint) (r : Int) (b : Box) : Prop where
  full : ∀ r' ∈ a.bank.pool.regs, c.fits a.bank.pool r' = true → r' ∉ a.bank.free
  victim : a.bank.Evictable c r b
  first : ∃ before after, a.bank.pool.regs = before ++ r :: after ∧
    (∀ r' ∈ before, ∀ w, a.bank.Evictable c r' w → a.lifetimes.lastUse w < a.lifetimes.lastUse b) ∧
    ∀ r' ∈ after, ∀ w, a.bank.Evictable c r' w → a.lifetimes.lastUse w ≤ a.lifetimes.lastUse b

namespace AllocM

open Allocator

variable {a a' : Allocator} {p : Pool} {b b' : Box} {r r' pos : Int} {c : Constraint} {v : Value}
  {result : Box}

theorem fits_excluding (c : Constraint) (h : Holder) : (c.excluding h).fits p r = c.fits p r := by
  simp [Constraint.fits, Constraint.excluding]

theorem regOf_claim_of_ne (a : Allocator) (hne : b ≠ b') :
    (a.claim b' r).bank.regOf (some b) = a.bank.regOf (some b) := by
  unfold claim
  split <;> simp [hne]

theorem Picked.evicts (h : Picked pos c a r a') (hs : a.bank.Sound p)
    (hre : a.bank.regOf (some b) = some r') (hl : a'.bank.regOf (some b) ≠ some r') : a.Evicts c r b := by
  cases h with
  | free => exact absurd hre hl
  | @evicted b' hn hv =>
    obtain ⟨before, after, hsp, hb, ha⟩ := Bank.furthest_first hv
    obtain ⟨_, how, hfi, hf, ht⟩ := Bank.mem_victims.mp (Bank.mem_of_furthest_eq_some hv)
    rw [(evict_registers hs pos r).2.2.2, hre] at hl
    obtain rfl : r' = r := by
      by_contra hne
      exact hl (if_neg fun h => hne (Option.some.inj h))
    cases hs.holder_unique hre (hs.ownerOf_eq_some.mp how)
    refine ⟨fun _ => Bank.not_mem_free_of_firstFree_eq_none hn, ⟨hre, hfi, hf, ht⟩, ?_⟩
    rw [Bank.victims_eq] at hsp
    obtain ⟨l1, l2, hr, hl1, hl2⟩ := filterMap_eq_append_iff.mp hsp
    obtain ⟨l3, x, l4, rfl, hsk, hx, hl4⟩ := filterMap_eq_cons_iff.mp hl2
    obtain ⟨rfl, -⟩ := Bank.victim?_eq_some.mp hx
    have ho {q : Int} {w : Box} (hw : a.bank.Evictable c q w) :
        a.bank.victim? c q = some (q, w) := Bank.victim?_eq_some.mpr
        ⟨rfl, hs.ownerOf_eq_some.mpr hw.register, hw.fits, hw.allowed, hw.lasting⟩
    refine ⟨l1 ++ l3, l4, by simp [hr], fun q hq w hw => ?_, fun q hq w hw => ?_⟩
    · rcases mem_append.mp hq with hq | hq
      · exact hb (q, w) (hl1 ▸ mem_filterMap.mpr ⟨q, hq, ho hw⟩)
      · cases (hsk q hq).symm.trans (ho hw)
    · exact ha (q, w) (hl4 ▸ mem_filterMap.mpr ⟨q, hq, ho hw⟩)

theorem Allocated.evicts (h : Allocated pos c b' a r a') (hs : a.bank.Sound p)
    (hp : c.pinned = none) (hne : b ≠ b') (hre : a.bank.regOf (some b) = some r')
    (hl : a'.bank.regOf (some b) ≠ some r') : a.Evicts c r b := by
  cases h with
  | already => exact absurd hre hl
  | pinned _ hpn => cases hp.symm.trans hpn
  | picked hm _ hpi =>
    rw [regOf_claim_of_ne _ hne] at hl
    obtain ⟨hf, hv, before, after, hr, hb, ha⟩ := hpi.evicts hs hre hl
    have ho {q : Int} {w : Box} (hw : a.bank.Evictable c q w) :
        a.bank.Evictable (c.excluding (some b')) q w := by
      refine ⟨hw.register, fits_excluding c _ ▸ hw.fits, ?_, hw.lasting⟩
      simp only [Constraint.excluding, mem_append, mem_singleton, Option.some.injEq]
      rintro (hme | rfl)
      · exact hw.allowed hme
      · simp [hw.register, hw.fits] at hm
    refine ⟨fun q hq hfi => hf q hq (fits_excluding c _ ▸ hfi),
      ⟨hv.register, fits_excluding c _ ▸ hv.fits,
        fun h => hv.allowed (mem_append_left _ h), hv.lasting⟩,
      before, after, hr, fun q hq w hw => hb q hq w (ho hw), fun q hq w hw => ha q hq w (ho hw)⟩

theorem Allocated.within (h : Allocated pos c b a r a') (hs : a.bank.Sound p)
    (hc : c.Coherent p) : r ∈ p.regs ∧ c.fits p r = true := by
  have hs' := (h.adjusts hs).sound hs
  refine ⟨hs'.pool_eq ▸ hs'.held_sub _ _ h.regOf, ?_⟩
  cases hp : c.pinned with
  | none => exact hs.pool_eq ▸ h.fits hs hp
  | some q =>
    obtain rfl := h.pinned_eq hp
    exact Constraint.fits_iff.mpr ⟨by simp [hp], hc r hp⟩

theorem Shared.within (h : Shared pos c result a v r a') (hs : a.bank.Sound p)
    (hc : c.Coherent p) : r ∈ p.regs ∧ c.fits p r = true := by
  cases h with
  | const ha => exact ha.within hs hc
  | dropped hr hf | relocated hr hf | stored hr hf =>
    exact hs.pool_eq ▸ ⟨hs.held_sub _ _ hr, hf⟩
  | copied hl ha =>
    obtain ⟨_, hb⟩ := hl.adjusts pos (fun _ => True) none
    rw [← fits_excluding c]
    exact ha.within (hb ▸ hs) fun q hq => by simpa [Constraint.excluding] using hc q hq

theorem Shared.keeps (h : Shared pos c result a v r a') (hs : a.bank.Sound p)
    (hb : Kept c a (v.box?.toList ++ [result]) b) (hre : a.bank.regOf (some b) = some r') :
    a'.bank.regOf (some b) = some r' := by
  have hr : b ≠ result := fun he => hb.1 (he ▸ by simp)
  cases h with
  | const ha => exact (ha.adjusts hs).regOf_keep hb hre
  | @dropped b' | @stored b' =>
    have hne : b ≠ b' := fun he => hb.1 (he ▸ mem_cons_self)
    simpa [hr, hne] using hre
  | @relocated b' _ _ _ _ _ _ hp =>
    have hne : b ≠ b' := fun he => hb.1 (he ▸ mem_cons_self)
    have hk := (hp.adjusts hs (x := none) (by simp)).regOf_keep
      (kept_excluding (c := c.unplaced) hb) hre
    simpa [hr, hne] using hk
  | copied hl ha =>
    obtain ⟨_, hba⟩ := hl.adjusts pos (fun _ => True) none
    refine (ha.adjusts (p := p) (hba ▸ hs)).regOf_keep ⟨by simpa using hr, ?_⟩
      (hba ▸ hre)
    exact hba ▸ hb.2.imp_left (mem_append_left _)

def Request.limits? : Request → Option Constraint
  | .allocate _ _ c | .ensure _ _ c | .resultInSameRegister _ _ _ c => some c
  | _ => none

def Request.entered (a : Allocator) : Request → Allocator
  | .ensure pos (some (.const k)) _ => a.withTemp pos k.kind
  | _ => a

def Request.subjects (a : Allocator) : Request → List Box
  | .allocate _ b _ | .ensure _ (some (.box b)) _ => [b]
  | .ensure _ (some (.const k)) _ => [a.nextTemp k.kind]
  | .resultInSameRegister _ result v _ => (v.bind Value.box?).toList ++ [result]
  | _ => []

theorem Ensured.allocated (h : Ensured pos c a v r a') : let q := Request.ensure pos (some v) c
    ∃ b a1, q.subjects a = [b] ∧ Allocated pos c b (q.entered a) r a1 ∧ a'.bank.bound = a1.bank.bound := by
  cases h with
  | const ha => exact ⟨_, _, rfl, ha, rfl⟩
  | bound _ ha => exact ⟨_, _, rfl, ha, rfl⟩
  | loaded _ _ ha => exact ⟨_, _, rfl, ha, rfl⟩

/-- A register is given to one box, or it is taken over from an operand. -/
theorem Request.granted {q : Request} (hq : q.limits? = some c)
    (hr : q.perform.run a = (.ok (some r), a')) :
    (∃ pos b a1, q.subjects a = [b] ∧ Allocated pos c b (q.entered a) r a1 ∧
      a'.bank.bound = a1.bank.bound) ∨ ∃ pos result v, q = .resultInSameRegister pos result (some v) c ∧
      Shared pos c result a v r a' := by
  cases q with
  | allocate pos b c =>
    cases hq
    obtain ⟨_, _, hr, hre⟩ := run_bind_ok hr
    cases hre
    exact .inl ⟨pos, b, a', rfl, allocate_ends.ok hr, rfl⟩
  | ensure pos v c =>
    cases hq
    obtain ⟨_, _, hr, hre⟩ := run_bind_ok hr
    cases hre
    obtain ⟨v, rfl, he⟩ := (ensure_ends v).ok hr
    exact .inl ⟨pos, he.allocated⟩
  | resultInSameRegister pos result v c =>
    cases hq
    obtain ⟨_, _, hr, hre⟩ := run_bind_ok hr
    cases hre
    obtain ⟨v, rfl, hs⟩ := (shared_ends v).ok hr
    exact .inr ⟨pos, result, v, rfl, hs⟩
  | _ => cases hq

theorem sound_entered (q : Request) (hs : a.bank.Sound p) : (q.entered a).bank.Sound p := by
  unfold Request.entered
  split
  · exact sound_withTemp hs ..
  · exact hs

theorem regOf_entered (q : Request) : (q.entered a).bank.regOf (some b) = a.bank.regOf (some b) := by
  unfold Request.entered
  split <;> rfl

theorem mem_temps_entered (q : Request) (hb : b ∈ a.bank.temps) : b ∈ (q.entered a).bank.temps := by
  unfold Request.entered
  split
  · exact mem_append_left _ hb
  · exact hb

/-- **Which register a request gets.** A request for a register with limits that are not at odds with
each other gets a register of the pool within the limits. No box that is forbidden and no temporary
loses its register, apart from the boxes that the request is about. If a box has to give way to a request
that names no register, then none within the limits is free, and of all boxes that could give way it is
one that is read furthest away, the first one in the order of the pool. -/
theorem placement_within_limits {q : Request} (hs : a.bank.Sound p) (hq : q.limits? = some c)
    (hc : c.Coherent p) (hrun : q.perform.run a = (.ok (some r), a')) :
    (r ∈ p.regs ∧ (∀ r' ∈ c.pinned, r' = r) ∧ r ∉ c.avoid ∧ (c.byteOnly = true → r ∈ p.byteRegs)) ∧
    (∀ b r', b ∉ q.subjects a → some b ∈ c.forbidden ∨ b ∈ a.bank.temps →
      a.bank.regOf (some b) = some r' → a'.bank.regOf (some b) = some r') ∧
    ((∀ pos result v, q ≠ .resultInSameRegister pos result v c) → c.pinned = none →
      ∀ b r', b ∉ q.subjects a → a.bank.regOf (some b) = some r' →
        a'.bank.regOf (some b) ≠ some r' → (q.entered a).Evicts c r b) := by
  rw [← Constraint.fits_iff]
  rcases Request.granted hq hrun with ⟨pos, b, a1, hsub, halloc, hbound⟩ | ⟨pos, result, v, rfl, hshared⟩
  · have hs' := sound_entered q hs
    rw [hsub]
    simp only [Bank.regOf, hbound]
    refine ⟨halloc.within hs' hc, fun b' r' hne hb' hreg => ?_, fun _ hpinned b' r' hne hreg hlost => ?_⟩
    · exact (halloc.adjusts hs').regOf_keep ⟨hne, hb'.imp_right (mem_temps_entered q)⟩
        ((regOf_entered q).trans hreg)
    · exact halloc.evicts hs' hpinned (by simpa using hne) ((regOf_entered q).trans hreg) hlost
  · refine ⟨hshared.within hs hc, fun b r' hne hb hreg => hshared.keeps hs ⟨hne, hb⟩ hreg, ?_⟩
    intro h
    exact absurd rfl (h pos result (some v))

/-- All registers are taken when a fourth box asks for one, and the first box is forbidden: of the other
two the one that is read later gives way. -/
theorem placement_within_limits_three :
    let p : Pool := { cls := .gp, regs := [0, 1, 2] }
    let b (n : Nat) : Box := ⟨n, .int⟩
    let k := (((Bank.ofPool p).assign (some (b 1)) 0).assign (some (b 2)) 1).assign (some (b 3)) 2
    let l := (Lifetimes.put {} (b 1) ⟨0, 9⟩).put (b 2) ⟨0, 3⟩ |>.put (b 3) ⟨0, 7⟩
    let a : Allocator := ⟨k, l, .startingAt 0, ⟨4⟩, #[]⟩
    let c : Constraint := { forbidden := [some (b 1)], avoid := [0] }
    let q := Request.allocate 0 (b 4) c
    q.perform.run a = (.ok (some 2), q.after a) ∧ a.Evicts c 2 (b 3) ∧
      (q.after a).bank.regOf (some (b 1)) = some 0 := by
  intro p b k l a c q
  have hs : a.bank.Sound p :=
    (((Bank.Sound.ofPool (by decide)).assign (by decide) rfl).assign (by decide) rfl).assign
      (by decide) rfl
  have hrun : q.perform.run a = (.ok (some 2), q.after a) := rfl
  obtain ⟨-, hkeep, hevicts⟩ := placement_within_limits hs rfl
    (by simp [Constraint.Coherent]) hrun
  exact ⟨hrun, hevicts (by simp [q]) rfl (b 3) 2 (by decide) rfl (by decide),
    hkeep (b 1) 0 (by decide) (by decide) rfl⟩

end AllocM

end TraceCompiler
