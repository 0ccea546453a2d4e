import TraceCompiler.Proofs.Lowering.Compilation

/-! # Requests to the banks during a compilation

One lemma for each request says what becomes of the state and what the code of its moves does:
`ensure_answers`, `shared_answers`, `allocate_answers`, `force_answers`, `clobber_answers`.
-/

namespace TraceCompiler.Lowering

open Machine (Cpu Setting Falls Fragment Quiet)
open CompileM List AllocM Allocator
open Machine.Reg (r11)

variable {ω : Type} {u : Setup ω} {ks : List Box} {s s' : State} {c c' : Cpu ω}
  {v v' : Box → Word} {cls : RegClass} {a : Allocator} {b : Box} {r pos : Int} {keep : Box → Prop}

structure Plain (s s' : State) : Prop where
  exits : s'.exits = s.exits
  fused : s'.fused = s.fused
  flagsFrom : s'.flagsFrom = s.flagsFrom
  inputs : s'.inputs = s.inputs
  cold : s'.cold = s.cold
  maxValues : s'.maxValues = s.maxValues
  stray : s'.stray = s.stray
  slots : ∃ bs : List Box, s.frame.History (bs.map some) s'.frame

theorem Plain.refl (s : State) : Plain s s := ⟨rfl, rfl, rfl, rfl, rfl, rfl, rfl, [], .refl _⟩

theorem Plain.trans (h : Plain s s') (h' : Plain s' s'') : Plain s s'' := by
  refine ⟨h'.exits.trans h.exits, h'.fused.trans h.fused, h'.flagsFrom.trans h.flagsFrom,
    h'.inputs.trans h.inputs, h'.cold.trans h.cold, h'.maxValues.trans h.maxValues,
    h'.stray.trans h.stray, ?_⟩
  obtain ⟨bs, hbs⟩ := h.slots
  obtain ⟨bs', hbs'⟩ := h'.slots
  exact ⟨bs ++ bs', map_append ▸ hbs.trans hbs'⟩

/-- What the operation at `pos` must not lose: boxes of the trace that are read behind it keep a
place. -/
structure Retains (u : Setup ω) (pos : Int) (s s' : State) : Prop where
  lastUse : ∀ b, b.id ≤ u.made → s'.lifetimes.lastUse b = s.lifetimes.lastUse b
  placed : ∀ cls b, b.id ≤ u.made → pos < s.lifetimes.lastUse b →
    (s.alloc cls).Placed b → (s'.alloc cls).Placed b

theorem Retains.refl (u : Setup ω) (pos : Int) (s : State) : Retains u pos s s :=
  ⟨fun _ _ => rfl, fun _ _ _ _ h => h⟩

theorem Retains.trans (h : Retains u pos s s') (h' : Retains u pos s' s'') : Retains u pos s s'' where
  lastUse := fun b hb => (h'.lastUse b hb).trans (h.lastUse b hb)
  placed := fun cls b hb hl hp =>
    h'.placed cls b hb (h.lastUse b hb ▸ hl) (h.placed cls b hb hl hp)

theorem Retains.of_alloc (hs : ∀ cls, s'.alloc cls = s.alloc cls) : Retains u pos s s' where
  lastUse := fun b _ => congrArg (fun a => a.lifetimes.lastUse b) (hs .gp)
  placed := fun cls _ _ _ h => hs cls ▸ h

theorem plain_absorb {bs : List Box} (cls : RegClass) (h : s.frame.History (bs.map some) a.frame) :
    Plain s (s.absorb cls a) := ⟨rfl, rfl, rfl, rfl, rfl, rfl, stray_absorb .., bs, h⟩

theorem plain_absorb_of_frame (cls : RegClass) (h : a.frame = s.frame) : Plain s (s.absorb cls a) :=
  ⟨rfl, rfl, rfl, rfl, rfl, rfl, stray_absorb .., [], by
    rw [map_nil]
    exact h ▸ .refl s.frame⟩

/-- A part of the compilation of the operation at `pos`, seen from the state alone. -/
structure Advances (u : Setup ω) (ks : List Box) (pos : Int) (s s' : State) :
    Prop where
  grows : Grows s s'
  plain : Plain s s'
  retains : Retains u pos s s'
  stored : ∀ cls, ∀ b ∈ (s.bank cls).inFrame, b ∈ (s'.bank cls).inFrame
  adds : Adds u s s'
  ok : Ok u ks s'

theorem Advances.refl (hok : Ok u ks s) : Advances u ks pos s s :=
  ⟨.refl s, .refl s, .refl u pos s, fun _ _ h => h, .silent rfl, hok⟩

theorem Advances.trans (h : Advances u ks pos s s')
    (h' : Advances u ks pos s' s'') : Advances u ks pos s s'' :=
  ⟨h.grows.trans h'.grows, h.plain.trans h'.plain, h.retains.trans h'.retains,
    fun cls b hb => h'.stored cls b (h.stored cls b hb), h.adds.trans h'.grows.frame h'.adds, h'.ok⟩

structure Answers (u : Setup ω) (ks : List Box) (cls : RegClass) (pos : Int)
    (keep : Box → Prop) (s s' : State)
    (R : Cpu ω → (Box → Word) → Cpu ω → (Box → Word) → Prop) : Prop
    extends Advances u ks pos s s' where
  other : ∀ cls', cls' ≠ cls → s'.bank cls' = s.bank cls'
  keeps : ∀ b r, keep b → (s.bank cls).regOf (some b) = some r →
    (s'.bank cls).regOf (some b) = some r
  unstored : ∀ b, keep b → b ∉ (s.bank cls).inFrame → b ∉ (s'.bank cls).inFrame
  temps : ∀ t ∈ (s.bank cls).temps, t ∈ (s'.bank cls).temps
  sim : u.frame.Extends s'.frame → ∀ c v, Good u s c v →
    ∃ c' v', Run u.env s s' c c' ∧ Quiet c c' ∧ Good u s' c' v' ∧ R c v c' v' ∧
      (cls = .gp → c'.gp r11 = c.gp r11)

variable {R Q : Cpu ω → (Box → Word) → Cpu ω → (Box → Word) → Prop} {kind : Kind} {q : Int}

theorem Answers.mono (h : Answers u ks cls pos keep s s' R)
    (hR : ∀ c v c' v', Good u s' c' v' → R c v c' v' → Q c v c' v') :
    Answers u ks cls pos keep s s' Q := { h with
    sim := fun he c v hg => by
      obtain ⟨c', v', hr, hq, hg', h, hs⟩ := h.sim he c v hg
      exact ⟨c', v', hr, hq, hg', hR c v c' v' hg' h, hs⟩ }

theorem Answers.of_adjusts (hok : Ok u ks s) (ha : Adjusts pos keep x (s.alloc cls) a)
    (hx : ∀ b ∈ x, Placeable u ks s cls b)
    (hs : ∃ bs : List Box, s.frame.History (bs.map some) a.frame ∧ ∀ b ∈ bs, b ∈ ks)
    (hsi : Clear none (s.alloc cls) a.frame → ∀ c v, Good u s c v → ∃ v', a.Holds none c.contents v' ∧
      (∀ b cls', cls' ≠ cls → (s.alloc cls').Placed b → v' b = v b) ∧
      ∀ c', (∀ l, l.Wide → l ≠ .reg (Reg.gp r11) → c'.contents l = a.now c.contents l) → R c v c' v') :
    Answers u ks cls pos keep s (s.absorb cls a) R := by
  obtain ⟨hgr, hok'⟩ := hok.absorb ha hx hs
  obtain ⟨bs, hbs, _⟩ := hs
  have hr : Retains u pos s (s.absorb cls a) := by
    refine ⟨fun b _ => ?_, fun cls' b _ hl hb => ?_⟩
    · exact congrArg (fun l => l.lastUse b) ha.same.1
    · by_cases he : cls' = cls
      · subst he
        exact (placed_absorb_self ..).mpr (ha.placed hb hl)
      · exact (placed_absorb_of_ne he ..).mpr hb
  have hst (cls' : RegClass) : ∀ b ∈ (s.bank cls').inFrame,
      b ∈ ((s.absorb cls a).bank cls').inFrame := by
    exact bank_absorb_ind cls' ha.frame.2 fun _ _ _ h => h
  refine ⟨⟨hgr, plain_absorb cls hbs, hr, hst, hok.adds_absorb ha, hok'⟩,
    fun cls' he => bank_absorb_of_ne he .., ?_, ?_, ?_, ?_⟩
  · intro b r hb hre
    rw [bank_absorb_self]
    exact ha.regOf_keep hb hre
  · intro b hb hn
    rw [bank_absorb_self]
    exact fun h => hn (ha.inFrame_inv (.inr hb) h)
  · intro t ht
    rw [bank_absorb_self, ha.same.2.2.2]
    exact ht
  · intro het c v hg
    obtain ⟨v', hh, hv, hR⟩ := hsi (hok.clear het) c v hg
    obtain ⟨c', hru, hq, hg', hc', hsc⟩ := hg.absorb hok het ha hh hv
    exact ⟨c', v', hru, hq, hg', hR c' hc', hsc⟩

/-! ## Temporaries -/

def State.withTemp (s : State) (cls : RegClass) (pos : Int) (kind : Kind) : State :=
  s.absorb cls ((s.alloc cls).withTemp pos kind)

def State.nextTemp (s : State) (kind : Kind) : Box := (s.supply.fresh kind).1

@[simp] theorem nextTemp_id (s : State) (kind : Kind) : (s.nextTemp kind).id = s.supply.made + 1 := rfl

theorem alloc_withTemp (s : State) (cls : RegClass) (pos : Int) (kind : Kind) :
    (s.withTemp cls pos kind).alloc cls = (s.alloc cls).withTemp pos kind := by
  cases cls <;> rfl

theorem absorb_absorb (h : a.moves = #[]) (s : State) (cls : RegClass) :
    (s.absorb cls a).absorb cls a' = s.absorb cls a' := by
  unfold State.absorb
  cases cls <;> simp [h]

theorem placed_withTemp (s : State) (cls cls' : RegClass) (pos : Int) (kind : Kind) (b : Box) :
    ((s.withTemp cls pos kind).alloc cls').Placed b ↔ (s.alloc cls').Placed b := by
  cases cls <;> cases cls' <;> exact Iff.rfl

theorem code_withTemp (s : State) (cls : RegClass) (pos : Int) (kind : Kind) :
    (s.withTemp cls pos kind).code = s.code := by
  rw [State.withTemp, code_absorb]
  simp [State.alloc, withTemp, Fragment.piecesAll]

theorem Ok.not_placed_nextTemp (hok : Ok u ks s) (cls : RegClass) (kind : Kind) :
    ¬ (s.alloc cls).Placed (s.nextTemp kind) := fun h => by
  have := (hok.tidy cls).placed _ h
  change s.supply.made + 1 ≤ s.supply.made at this
  omega

theorem Ok.withTemp (hok : Ok u ks s) (cls : RegClass) (pos : Int) (kind : Kind) :
    Grows s (s.withTemp cls pos kind) ∧ Ok u ks (s.withTemp cls pos kind) := by
  have hte {cls' : RegClass} {t : Box} (ht : t ∈ (s.bank cls').temps) :
      t ∈ ((s.withTemp cls pos kind).bank cls').temps := by
    rw [State.withTemp]
    revert ht
    exact bank_absorb_ind cls' (mem_append_left _) fun _ _ ht => ht
  refine ⟨⟨?_, prefix_rfl, .refl _, Nat.le_succ _⟩, ?_, ?_, ?_, hok.ids, ?_, ?_, hok.slots, ?_, ?_⟩
  · simp [State.withTemp, State.absorb, State.alloc]
  · intro cls'
    rw [State.withTemp]
    exact bank_absorb_ind cls' ((hok.sound cls).with_frame ..) fun cls' _ => hok.sound cls'
  · intro cls'
    have hs : ((s.withTemp cls pos kind).alloc cls').bank.inFrame = (s.alloc cls').bank.inFrame := by
      cases cls <;> cases cls' <;> rfl
    refine ⟨fun b hb => ?_, fun b slot hb => ?_, fun b hb => ?_⟩
    · exact Nat.le_succ_of_le ((hok.tidy cls').placed b ((placed_withTemp ..).mp hb))
    · exact Nat.le_succ_of_le ((hok.tidy cls').slots b slot hb)
    · exact (hok.tidy cls').stored b (hs ▸ hb)
  · intro b cls1 cls2 h1 h2
    exact hok.apart b cls1 cls2 ((placed_withTemp ..).mp h1) ((placed_withTemp ..).mp h2)
  · intro cls'
    rw [State.withTemp]
    refine bank_absorb_ind cls' (fun t ht => ?_) fun cls' _ => hok.temps cls'
    rcases mem_append.mp ht with ht | ht
    · exact hok.temps cls t ht
    · cases mem_singleton.mp ht
      exact Nat.lt_succ_of_le hok.made
  · exact Nat.le_succ_of_le hok.made
  · refine fun b hb => ⟨(hok.shared b hb).1, fun cls' => ?_⟩
    have h := (hok.shared b hb).2 cls'
    cases cls <;> cases cls' <;> exact h
  · exact fun cls' b hb => (hok.known cls' b ((placed_withTemp ..).mp hb)).imp_right hte

/-- A box without a place, which may be given one. -/
def Unplaced (u : Setup ω) (ks : List Box) (s : State) (cls : RegClass) (b : Box) : Prop :=
  Placeable u ks s cls b ∧ ¬ (s.alloc cls).Placed b

theorem Ok.unplaced_nextTemp (hok : Ok u ks s) (cls : RegClass) (pos : Int) (kind : Kind) :
    Unplaced u ks (s.withTemp cls pos kind) cls (s.nextTemp kind) := by
  have hn (cls' : RegClass) : ¬ ((s.withTemp cls pos kind).alloc cls').Placed (s.nextTemp kind) :=
    fun hb => hok.not_placed_nextTemp cls' kind ((placed_withTemp ..).mp hb)
  refine ⟨⟨le_rfl, ?_, fun cls' _ => hn cls', fun hsh => ?_⟩, hn cls⟩
  · rw [State.withTemp, bank_absorb_self]
    exact .inr (mem_append_right _ mem_cons_self)
  · have hle := hok.ids _ (hok.shared _ hsh).1
    have hm := hok.made
    rw [nextTemp_id] at hle
    omega

theorem Good.withTemp (hg : Good u s c v) (cls : RegClass) (pos : Int) (kind : Kind) :
    Good u (s.withTemp cls pos kind) c v := by
  refine { hg with holds := fun cls' => ?_ }
  have h := hg.holds cls'
  cases cls <;> cases cls' <;> exact ⟨h.reg, h.slot⟩

theorem Good.redefine (hg : Good u s c v) (hb : ∀ cls, ¬ (s.alloc cls).Placed b) (w : Word) :
    Good u s c (Function.update v b w) :=
  { hg with holds := fun cls => (hg.holds cls).redefine (hb cls) w }

theorem Retains.withTemp (hok : Ok u ks s) (pos : Int) (cls : RegClass) (pos' : Int)
    (kind : Kind) : Retains u pos s (s.withTemp cls pos' kind) where
  lastUse := by
    intro b hb
    have hne : b ≠ s.nextTemp kind := by
      rintro rfl
      have := hok.made
      rw [nextTemp_id] at hb
      omega
    change (s.lifetimes.addTemp (s.nextTemp kind) pos').lastUse b = _
    unfold Lifetimes.lastUse Lifetimes.get? Lifetimes.addTemp Lifetimes.put
    rw [Table.get?_insert, if_neg hne]
  placed := fun cls' b _ _ hb => (placed_withTemp ..).mpr hb

theorem Advances.withTemp (hok : Ok u ks s) (pos : Int) (cls : RegClass) (pos' : Int)
    (kind : Kind) : Advances u ks pos s (s.withTemp cls pos' kind) where
  grows := (hok.withTemp cls pos' kind).1
  plain := plain_absorb_of_frame cls rfl
  retains := .withTemp hok ..
  stored := fun cls' b hb => by cases cls <;> cases cls' <;> exact hb
  adds := .silent (code_withTemp ..)
  ok := (hok.withTemp cls pos' kind).2

theorem Answers.after_temp (hok : Ok u ks s)
    (h : Answers u ks cls pos keep (s.withTemp cls pos kind) s' R) : Answers u ks cls pos keep s s' R where
  toAdvances := (Advances.withTemp hok ..).trans h.toAdvances
  other := fun cls' he => (h.other cls' he).trans (bank_absorb_of_ne he ..)
  keeps := fun b r hb hre => h.keeps b r hb (by rw [State.withTemp, bank_absorb_self]; exact hre)
  unstored := fun b hb hn => h.unstored b hb (by
    rw [State.withTemp, bank_absorb_self]
    exact hn)
  temps := fun t ht => h.temps t (by
    rw [State.withTemp, bank_absorb_self]
    exact mem_append_left _ ht)
  sim := fun het c v hg => by
    obtain ⟨c', v', ⟨code, hc, hf⟩, hr⟩ := h.sim het c v (hg.withTemp cls pos kind)
    exact ⟨c', v', ⟨code, hc.trans (by rw [code_withTemp]), hf⟩, hr⟩

/-! ## Requests -/

theorem Ok.placeable (hok : Ok u ks s) (hb : (s.alloc cls).Placed b) : Placeable u ks s cls b where
  made := (hok.tidy cls).placed b hb
  known := hok.known cls b hb
  other := fun cls' he hb' => he (hok.apart b cls' cls hb' hb)
  shared := fun hsh => hb.elim ((hok.shared b hsh).2 cls) id

theorem placed_of_ensured (h : Ensured pos k a (.box b) r a') : a.Placed b := by
  cases h with
  | bound hr => exact .inl hr
  | loaded _ hf => exact .inr hf

theorem Placeable.pending (hb : Placeable u ks s cls b) (a : Allocator) :
    ∀ b' ∈ a.pending b, Placeable u ks s cls b' := by
  unfold Allocator.pending
  split
  · rintro _ ⟨⟩
    exact hb
  · rintro _ ⟨⟩

section

variable (hok : Ok u ks s)
include hok

theorem Answers.of_placed (hb : Placeable u ks s cls b)
    (ha : Adjusts pos keep ((s.alloc cls).pending b) (s.alloc cls) a)
    (hk : ∀ t ∈ (s.bank cls).temps, some t ≠ (s.alloc cls).pending b → keep t)
    (hh : Clear none (s.alloc cls) a.frame → ∀ σ v, (s.alloc cls).Holds none σ v → a.Holds none σ v) :
    Answers u ks cls pos keep s (s.absorb cls a) fun _ v _ v' => v' = v :=
  .of_adjusts hok ha (hb.pending _) (hok.slots_absorb ha (hb.pending _) hk) fun hd _ v hg =>
    ⟨v, hh hd _ v (hg.holds cls), fun _ _ _ _ => rfl, fun _ _ => rfl⟩

theorem Answers.of_unplaced (hb : Unplaced u ks s cls b) (ha : Adjusts pos keep (some b) (s.alloc cls) a)
    (hk : ∀ t ∈ (s.bank cls).temps, t ≠ b → keep t) (hr : a.bank.regOf (some b) = some r)
    (f : Cpu ω → (Box → Word) → Word)
    (hv : Clear none (s.alloc cls) a.frame → ∀ c v, Good u s c v → a.now c.contents (a.loc r) = f c v) :
    Answers u ks cls pos keep s (s.absorb cls a) fun c v c' v' => v' = Function.update v b (f c v) ∧
        ∀ l, l.Wide → l ≠ .reg (Reg.gp r11) → c'.contents l = a.now c.contents l := by
  have hx : ∀ b' ∈ some b, Placeable u ks s cls b' := fun b' hb' => by cases hb'; exact hb.1
  refine .of_adjusts hok ha hx (hok.slots_absorb ha hx fun t ht hne => hk t ht fun he =>
    hne (he ▸ rfl)) fun hd c v hg =>
    ⟨Function.update v b (f c v), ?_, fun b' cls' he hb' => ?_, fun c' hc' => ⟨rfl, hc'⟩⟩
  · have hs := ((hg.holds cls).redefine hb.2 (f c v)).weaken (some b)
    refine (ha.holds (hok.sound cls) (hd.weaken _) hs).fill hr ?_
    rw [Function.update_self]
    exact hv hd c v hg
  · refine Function.update_of_ne ?_ ..
    rintro rfl
    exact hb.1.other cls' he hb'

theorem ensure_answers (hva : ∀ b, val = some (.box b) → b ∈ ks)
    (hy : Yields (onBank cls (ensure pos val k)) req s r s') : ∃ w, val = some w ∧
      (∃ t, (s'.bank cls).regOf (some t) = some r ∧ (w = .box t ∨
        t ∈ (s'.bank cls).temps ∧ s.supply.made < t.id)) ∧
      (k.pinned = none → k.fits (u.req.limits.pool cls) r) ∧ Answers u ks cls pos
        (fun b => (some b ∈ k.forbidden ∨ b ∈ (s.bank cls).temps) ∧ w ≠ .box b) s s'
        fun _ v c' v' => c'.contents (.reg ⟨cls, r⟩) = w.word v ∧
          ∀ b, b.id ≤ s.supply.made → v' b = v b := by
  obtain ⟨a, hru, rfl⟩ := hy.onBank
  obtain ⟨w, rfl, hen⟩ := (ensure_ends _).ok hru
  have hpo : (s.alloc cls).bank.pool = u.req.limits.pool cls := (hok.sound cls).pool_eq
  have hf (hp : k.pinned = none) : k.fits (u.req.limits.pool cls) r := hpo ▸ hen.fits (hok.sound cls) hp
  cases w with
  | box b =>
    obtain ⟨had, hr⟩ := hen.adjusts (hok.sound cls)
    have hr' : ((s.absorb cls a).bank cls).regOf (some b) = some r := by
      rwa [bank_absorb_self]
    refine ⟨_, rfl, ⟨b, hr', .inl rfl⟩, hf, ?_⟩
    have hke : ∀ b', (some b' ∈ k.forbidden ∨ b' ∈ (s.bank cls).temps) ∧
        Value.box b ≠ .box b' → Kept k (s.alloc cls) [b] b' := by
      rintro b' ⟨hb', hne⟩
      exact ⟨fun h => hne (by rw [mem_singleton.mp h]), hb'⟩
    have han := Answers.of_placed hok (hok.placeable (placed_of_ensured hen)) (had.mono hke)
      (fun t ht _ => ⟨.inr ht, fun he => hok.not_temp (hva t (congrArg some he)) ht⟩) fun hd σ v h => hen.holds_box (hok.sound cls) hd h
    refine han.mono fun c v c' v' hg' hv => ⟨?_, fun _ _ => by rw [hv]⟩
    rw [hg'.reg han.ok hr', hv]
    rfl
  | const q =>
    let t := (s.alloc cls).nextTemp q.kind
    have hnw : ¬ (s.alloc cls).Placed t := hok.not_placed_nextTemp cls q.kind
    have hn : (s.alloc cls).bank.regOf (some t) = none := by
      simpa using (not_or.mp hnw).1
    obtain ⟨had, hr⟩ := hen.adjusts (hok.sound cls) hn
    have hr' : ((s.absorb cls a).bank cls).regOf (some t) = some r := by
      rwa [bank_absorb_self]
    have hte : t ∈ ((s.absorb cls a).bank cls).temps := by
      rw [bank_absorb_self, had.same.2.2.2]
      exact mem_append_right _ mem_cons_self
    refine ⟨_, rfl, ⟨t, hr', .inr ⟨hte, Nat.lt_succ_self _⟩⟩, hf, ?_⟩
    obtain ⟨_, ho⟩ := hok.withTemp cls pos q.kind
    have ha : s.absorb cls a = (s.withTemp cls pos q.kind).absorb cls a := (absorb_absorb rfl ..).symm
    rw [ha] at hr' ⊢
    rw [← alloc_withTemp] at had
    have han := Answers.of_unplaced ho (hok.unplaced_nextTemp cls pos q.kind) had
      (fun b hb hne => ⟨fun h => hne (mem_singleton.mp h), .inr hb⟩) hr (fun _ _ => q.bits) ?_
    · have han' := (han.mono fun c v c' v' hg' hv =>
        (⟨?_, fun b hb => ?_⟩ : c'.contents (.reg ⟨cls, r⟩) = (Value.const q).word v ∧
          ∀ b, b.id ≤ s.supply.made → v' b = v b)).after_temp hok
      · -- The temporary had no register that it could keep, and is not stored.
        have hk {b : Box} (hb : some b ∈ k.forbidden ∨ b ∈ (s.bank cls).temps) (hne : b ≠ t) :
            Kept k ((s.withTemp cls pos q.kind).alloc cls) [t] b := by
          refine ⟨fun h => hne (mem_singleton.mp h), hb.imp_right fun h => ?_⟩
          rw [alloc_withTemp]
          exact mem_append_left _ h
        refine { han' with keeps := fun b r hb hb' => ?_, unstored := fun b hb hb' => ?_ }
        · refine han'.keeps b r (hk hb.1 ?_) hb'
          rintro rfl
          cases hn.symm.trans hb'
        · by_cases hne : b = t
          · subst hne
            rw [bank_absorb_self]
            intro h
            have h := had.inFrame_inv (.inl rfl) h
            rw [alloc_withTemp] at h
            exact hb' h
          · exact han'.unstored b (hk hb.1 hne) hb'
      · rw [hg'.reg han.ok hr', hv.1]
        exact Function.update_self ..
      · rw [hv.1]
        refine Function.update_of_ne ?_ ..
        rintro rfl
        change s.supply.made + 1 ≤ s.supply.made at hb
        omega
    · intro hd c v hg
      have hh := hg.holds cls
      rw [alloc_withTemp] at hh hd
      have hs : (s.alloc cls).Holds none c.contents v := ⟨hh.reg, hh.slot⟩
      rw [(hen.holds_const (hok.sound cls) hd hnw hs).register hr]
      exact Function.update_self ..

theorem ensure_bound (hr : (s.bank cls).regOf (some b) = some r) (hf : k.fits (u.req.limits.pool cls) r)
    (hy : Yields (onBank cls (ensure pos (some (.box b)) k)) req s r' s') : r' = r ∧ s' = s := by
  obtain ⟨a, hru, rfl⟩ := hy.onBank
  obtain ⟨_, ⟨⟩, he⟩ := (ensure_ends _).ok hru
  have hr : (s.alloc cls).bank.regOf (some b) = some r := hr
  have hf : k.fits (s.alloc cls).bank.pool r := by
    rwa [(hok.sound cls).pool_eq.symm] at hf
  have hfi : ((s.alloc cls).bank.regOf (some b)).filter
      (k.fits (s.alloc cls).bank.pool) = some r := by
    rw [hr, Option.filter_some, if_pos hf]
  cases he with
  | bound _ ha =>
    cases ha with
    | already hr' => exact ⟨Option.some.inj (hr'.symm.trans hr), absorb_alloc ..⟩
    | pinned hm | picked hm => cases hm.symm.trans hfi
  | loaded hn => cases hn.symm.trans hr

theorem shared_answers (hv : ∀ b, val = some (.box b) → b ∈ ks) (hb : Unplaced u ks s cls b)
    (hy : Yields (onBank cls (resultInSameRegister pos (some b) val k)) req s r s') :
    ∃ w, val = some w ∧ (s'.bank cls).regOf (some b) = some r ∧
      b ∉ (s'.bank cls).inFrame ∧ (∀ q, k.pinned = some q → r = q) ∧
      (∀ b' r', w = .box b' → (s.bank cls).regOf (some b') = some r' →
        ¬ k.fits (u.req.limits.pool cls) r' → (s'.bank cls).regOf (some b') = some r') ∧
      Answers u ks cls pos
        (fun b' => (some b' ∈ k.forbidden ∨ b' ∈ (s.bank cls).temps) ∧ w ≠ .box b' ∧ b' ≠ b) s s'
        fun _ v _ v' => v' = Function.update v b (w.word v) := by
  obtain ⟨a, hru, rfl⟩ := hy.onBank
  obtain ⟨w, rfl, hs⟩ := (shared_ends _).ok hru
  have hp : (s.alloc cls).bank.pool = u.req.limits.pool cls := (hok.sound cls).pool_eq
  have hn : (s.alloc cls).bank.regOf (some b) = none := by
    simpa using (not_or.mp hb.2).1
  obtain ⟨ha, hr⟩ := hs.adjusts (hok.sound cls) hn
  refine ⟨w, rfl, by rwa [bank_absorb_self], ?_, fun q => hs.pinned_eq, ?_, ?_⟩
  · rw [bank_absorb_self]
    exact fun h => hb.2 (.inr (ha.inFrame_inv (.inl rfl) h))
  · rintro b' r' rfl hr' hm
    rw [bank_absorb_self]
    exact hs.regOf_operand (hok.sound cls) hn hr' (by rwa [hp])
  · have hk : ∀ b', (some b' ∈ k.forbidden ∨ b' ∈ (s.bank cls).temps) ∧ w ≠ .box b' ∧ b' ≠ b →
        Kept k (s.alloc cls) (w.box?.toList ++ [b]) b' := by
      rintro b' ⟨hb', hne, hne'⟩
      refine ⟨fun h => ?_, hb'⟩
      rcases mem_append.mp h with h | h
      · cases w with
        | box b1 => exact hne (by simpa [Value.box?, eq_comm] using h)
        | const q => simp [Value.box?] at h
      · exact hne' (mem_singleton.mp h)
    refine (Answers.of_unplaced hok hb (ha.mono hk)
      (fun t ht hne => ⟨.inr ht, fun he => hok.not_temp (hv t (congrArg some he)) ht, hne⟩) hr
      (fun _ v => w.word v) fun hd c v hg =>
        hs.now_of_clear (hok.sound cls) hn hd (hg.holds cls)).mono ?_
    exact fun _ _ _ _ _ h => h.1

theorem allocate_answers (hb : Unplaced u ks s cls b) (hp : k.pinned = none)
    (hy : Yields (onBank cls (allocate pos (some b) k)) req s r s') :
    (s'.bank cls).regOf (some b) = some r ∧ b ∉ (s'.bank cls).inFrame ∧
      k.fits (u.req.limits.pool cls) r ∧ Answers u ks cls pos
        (fun b' => (some b' ∈ k.forbidden ∨ b' ∈ (s.bank cls).temps) ∧ b' ≠ b) s s'
        fun c v c' v' => (∃ w, v' = Function.update v b w) ∧
          ∀ q, q ≠ Reg.gp r11 → c'.contents (.reg q) = c.contents (.reg q) := by
  obtain ⟨a, hr, rfl⟩ := hy.onBank
  have ha := allocate_ends.ok hr
  have hpo : (s.alloc cls).bank.pool = u.req.limits.pool cls := (hok.sound cls).pool_eq
  have hn : (s.alloc cls).bank.regOf (some b) = none := by
    simpa using (not_or.mp hb.2).1
  have had := ha.adjusts (hok.sound cls)
  rw [pending_of_none hn] at had
  refine ⟨by rw [bank_absorb_self]; exact ha.regOf, ?_,
    hpo ▸ ha.fits (hok.sound cls) hp, ?_⟩
  · rw [bank_absorb_self]
    exact fun h => hb.2 (.inr (had.inFrame_inv (.inl rfl) h))
  · have hk : ∀ b', (some b' ∈ k.forbidden ∨ b' ∈ (s.bank cls).temps) ∧ b' ≠ b →
        Kept k (s.alloc cls) [b] b' := fun b' hb' => ⟨fun h => hb'.2 (mem_singleton.mp h), hb'.1⟩
    refine (Answers.of_unplaced hok hb (had.mono hk) (fun t ht hne => ⟨.inr ht, hne⟩) ha.regOf
      (fun c _ => a.now c.contents (a.loc r)) fun _ _ _ _ => rfl).mono ?_
    intro c v c' v' _ h
    refine ⟨⟨_, h.1⟩, fun q hq => ?_⟩
    rw [h.2 (.reg q) trivial (by simpa using hq), ha.now_reg (hok.sound cls) hp hn]
    rfl

theorem force_answers (hk : b ∈ ks) (hb : (s.alloc cls).Placed b)
    (hy : Yields (onBank cls (force pos (some b) q k)) req s r s') :
    r = q ∧ (s'.bank cls).regOf (some b) = some q ∧ Answers u ks cls pos
        (fun b' => (some b' ∈ k.forbidden ∨ b' ∈ (s.bank cls).temps) ∧ b' ≠ b) s s'
        fun _ v _ v' => v' = v := by
  obtain ⟨a, hr, rfl⟩ := hy.onBank
  obtain ⟨rfl, hf⟩ := force_ends.ok hr
  refine ⟨rfl, by rw [bank_absorb_self]; exact hf.regOf, ?_⟩
  have hke : ∀ b', (some b' ∈ k.forbidden ∨ b' ∈ (s.bank cls).temps) ∧ b' ≠ b →
      Kept k (s.alloc cls) [b] b' := fun b' hb' => ⟨fun h => hb'.2 (mem_singleton.mp h), hb'.1⟩
  refine .of_placed hok (hok.placeable hb) ((hf.adjusts (hok.sound cls)).mono hke)
    (fun t ht _ => ⟨.inr ht, ?_⟩) fun hd σ v h => hf.holds (hok.sound cls) hd h hb
  rintro rfl
  exact hok.not_temp hk ht

theorem clobber_answers (hy : Yields (onBank cls (clobber pos q k)) req s x s') : Answers u ks cls pos
      (fun b' => some b' ∈ k.forbidden ∨ b' ∈ (s.bank cls).temps) s s' fun _ v _ v' => v' = v := by
  obtain ⟨a, hr, rfl⟩ := hy.onBank
  have ha := (clobber_ends.ok hr).adjusts (hok.sound cls) (x := none) (by simp)
  have ha' := ha.mono fun b' (hb' : some b' ∈ k.forbidden ∨ b' ∈ (s.bank cls).temps) =>
    ⟨not_mem_nil, hb'⟩
  refine .of_adjusts hok ha' (by simp) (hok.slots_absorb ha' (by simp) fun t ht _ => .inr ht)
    fun hd c v hg => ⟨v, ha.holds (hok.sound cls) hd (hg.holds cls), fun _ _ _ _ => rfl, fun _ _ => rfl⟩

end

theorem yields_temp : Yields (onBank cls (temp pos kind)) req s b s' ↔
    b = s.nextTemp kind ∧ s' = s.withTemp cls pos kind := by
  rw [yields_onBank]
  constructor
  · rintro ⟨a, ⟨⟩, rfl⟩
    exact ⟨rfl, rfl⟩
  · rintro ⟨rfl, rfl⟩
    exact ⟨_, rfl, rfl⟩

theorem yields_bindReg (hy : Yields (onBank cls (bind b r)) req s x s') :
    r ∈ (s.bank cls).free ∧ s' = s.absorb cls ((s.alloc cls).assign (some b) r) := by
  obtain ⟨a, hr, rfl⟩ := hy.onBank
  rw [run_bind] at hr
  split at hr
  · rename_i hf
    cases hr
    exact ⟨hf, rfl⟩
  · cases hr

theorem bind_answers (pos : Int) (hok : Ok u ks s) (hb : Unplaced u ks s cls b)
    (hy : Yields (onBank cls (bind b r)) req s x s') :
    (s'.bank cls).regOf (some b) = some r ∧ b ∉ (s'.bank cls).inFrame ∧
      Answers u ks cls pos (fun _ => True) s s'
        fun c v _ v' => v' = Function.update v b (c.contents (.reg ⟨cls, r⟩)) := by
  obtain ⟨hf, rfl⟩ := yields_bindReg hy
  have hn : (s.alloc cls).bank.regOf (some b) = none := by
    simpa using (not_or.mp hb.2).1
  refine ⟨by rw [bank_absorb_self]; simp, ?_, ?_⟩
  · rw [bank_absorb_self]
    exact fun h => hb.2 (.inr h)
  · refine (Answers.of_unplaced (r := r) hok hb (.single (.place rfl hn hf))
      (fun _ _ _ => trivial) (by simp) (fun c _ => c.contents (.reg ⟨cls, r⟩))
      fun _ c v _ => ?_).mono fun _ _ _ _ _ h => h.1
    rw [now_assign, ← hok.loc]
    rfl

/-! ## What adds no code -/

/-- A part of a compilation that adds no code and only gives up registers. -/
structure Silent (u : Setup ω) (ks : List Box) (pos : Int) (s s' : State) : Prop
    extends Advances u ks pos s s' where
  code : s'.code = s.code
  frame : s'.frame = s.frame
  inFrame : ∀ cls, (s'.bank cls).inFrame = (s.bank cls).inFrame
  sub : ∀ cls h r, (s'.bank cls).regOf h = some r → (s.bank cls).regOf h = some r
  good : ∀ {c v}, Good u s c v → Good u s' c v

theorem Silent.trans (h : Silent u ks pos s s') (h' : Silent u ks pos s' s'') : Silent u ks pos s s'' :=
  ⟨h.toAdvances.trans h'.toAdvances, h'.code.trans h.code, h'.frame.trans h.frame,
    fun cls => (h'.inFrame cls).trans (h.inFrame cls),
    fun cls x r hr => h.sub cls x r (h'.sub cls x r hr), fun hg => h'.good (h.good hg)⟩

theorem Silent.placed_inv (h : Silent u ks pos s s') (hb : (s'.alloc cls).Placed b) :
    (s.alloc cls).Placed b := by
  rcases hb with hb | hb
  · obtain ⟨r, hr⟩ := Option.isSome_iff_exists.mp hb
    exact .inl (Option.isSome_iff_exists.mpr ⟨r, h.sub cls _ r hr⟩)
  · exact .inr (h.inFrame cls ▸ hb)

theorem Silent.withTemp (hok : Ok u ks s) (pos : Int) (cls : RegClass) (pos' : Int) (kind : Kind) :
    Silent u ks pos s (s.withTemp cls pos' kind) where
  toAdvances := .withTemp hok ..
  code := code_withTemp ..
  frame := rfl
  inFrame := fun cls' => by cases cls <;> cases cls' <;> rfl
  sub := fun cls' h r hr => by cases cls <;> cases cls' <;> exact hr
  good := fun hg => hg.withTemp ..

theorem nextTemp_mem_temps (s : State) (cls : RegClass) (pos : Int) (kind : Kind) :
    s.nextTemp kind ∈ ((s.withTemp cls pos kind).bank cls).temps := by
  rw [State.withTemp, bank_absorb_self]
  exact mem_append_right _ mem_cons_self

theorem mem_temps_withTemp (hb : b ∈ (s.bank cls).temps) (pos : Int) (kind : Kind) :
    b ∈ ((s.withTemp cls pos kind).bank cls).temps := by
  rw [State.withTemp, bank_absorb_self]
  exact mem_append_left _ hb

theorem regOf_withTemp (s : State) (cls cls' : RegClass) (pos : Int) (kind : Kind) (h : Holder) :
    ((s.withTemp cls pos kind).bank cls').regOf h = (s.bank cls').regOf h := by
  cases cls <;> cases cls' <;> rfl

theorem Silent.placeable (h : Silent u ks pos s s') (hb : Placeable u ks s cls b)
    (hk : b ∈ ks) : Placeable u ks s' cls b where
  made := hb.made.trans h.grows.made
  known := .inl hk
  other := fun cls' he hb' => hb.other cls' he (h.placed_inv hb')
  shared := fun hsh => h.inFrame cls ▸ hb.shared hsh

theorem Ok.temp_not_stored (hok : Ok u ks s) (hb : b ∈ (s.bank cls).temps) :
    b ∉ (s.bank cls).inFrame := fun h => by
  obtain ⟨slot, hs⟩ := Option.isSome_iff_exists.mp ((hok.tidy cls).stored b h)
  have hlt := hok.temps cls b hb
  have hle := hok.ids b (hok.slots b slot hs)
  omega

theorem code_absorb_of_shrinks (h : Shrinks keep (s.alloc cls) a) : (s.absorb cls a).code = s.code := by
  rw [code_absorb, h.moves]
  exact append_nil _

section

variable (hok : Ok u ks s) (h : Shrinks keep (s.alloc cls) a)
  (hk : ∀ b, b.id ≤ u.made → pos < s.lifetimes.lastUse b → keep b)
include hok h hk

theorem Ok.shrink : Advances u ks pos s (s.absorb cls a) := by
  have hp {cls' : RegClass} {b : Box} (hb : ((s.absorb cls a).alloc cls').Placed b) :
      (s.alloc cls').Placed b := by
    by_cases he : cls' = cls
    · subst he
      exact h.placed_inv ((placed_absorb_self ..).mp hb)
    · exact (placed_absorb_of_ne he ..).mp hb
  have hst (cls' : RegClass) :
      ((s.absorb cls a).bank cls').inFrame = (s.bank cls').inFrame :=
    bank_absorb_ind cls' h.stored fun _ _ => rfl
  have hf : (s.absorb cls a).frame = s.frame := h.frame
  have hs : (s.absorb cls a).supply = s.supply := h.supply
  refine ⟨⟨?_, prefix_rfl, hf ▸ .refl _, hs ▸ le_rfl⟩,
    plain_absorb_of_frame cls h.frame, ⟨?_, ?_⟩, fun cls' b hb => hst cls' ▸ hb,
    .silent (code_absorb_of_shrinks h), ?_, ?_, ?_, hok.ids, ?_, hs ▸ hok.made, hf ▸ hok.slots, ?_, ?_⟩
  · simp [State.absorb]
  · exact fun b _ => congrArg (fun l => l.lastUse b) h.lifetimes
  · intro cls' b hm hl hb
    by_cases he : cls' = cls
    · subst he
      exact (placed_absorb_self ..).mpr (h.placed (hk b hm hl) hb)
    · exact (placed_absorb_of_ne he ..).mpr hb
  · exact fun cls' => bank_absorb_ind cls' (h.sound _ (hok.sound cls)) fun cls' _ => hok.sound cls'
  · intro cls'
    have hti := hok.tidy cls'
    refine ⟨fun b hb => ?_, fun b slot hb => ?_, fun b hb => ?_⟩
    · exact (hti.placed b (hp hb)).trans_eq (congrArg BoxSupply.made hs).symm
    · have hb : s.frame.get? b = some slot := (congrArg (·.get? b) hf).symm.trans hb
      exact (hti.slots b slot hb).trans_eq (congrArg BoxSupply.made hs).symm
    · change ((s.absorb cls a).frame.get? b).isSome
      rw [hf]
      exact hti.stored b (hst cls' ▸ hb)
  · exact fun b cls1 cls2 h1 h2 => hok.apart b cls1 cls2 (hp h1) (hp h2)
  · exact fun cls' => bank_absorb_ind cls' (fun t ht => hok.temps cls t (h.temps t ht))
      fun cls' _ => hok.temps cls'
  · refine fun b hb => ⟨(hok.shared b hb).1, fun cls' hr => ?_⟩
    rw [hst]
    exact ((hp (.inl hr)).elim ((hok.shared b hb).2 cls') id)
  · intro cls' b hb
    rcases hok.known cls' b (hp hb) with hb' | ht
    · exact .inl hb'
    by_cases he : cls' = cls
    · subst he
      rw [bank_absorb_self]
      refine .inr ((h.dropped b ht).resolve_right fun hn => ?_)
      rcases (placed_absorb_self ..).mp hb with hr | hme
      · rw [hn] at hr
        cases hr
      · exact hok.temp_not_stored ht (h.stored ▸ hme)
    · rw [bank_absorb_of_ne he]
      exact .inr ht

theorem Silent.of_shrinks : Silent u ks pos s (s.absorb cls a) where
  toAdvances := hok.shrink h hk
  code := code_absorb_of_shrinks h
  frame := h.frame
  inFrame cls' := bank_absorb_ind cls' h.stored fun _ _ => rfl
  sub cls' := bank_absorb_ind cls' h.sub fun _ _ _ _ hr => hr
  good := by
    intro c v hg
    refine { hg with holds := fun cls' => ?_ }
    by_cases he : cls' = cls
    · subst he
      have hold := h.holds (hok.sound cls') (hg.holds cls')
      have hn : a.now c.contents = c.contents := by
        rw [now, h.moves]
        rfl
      refine ⟨fun b r hx hr => ?_, fun b hb => ?_⟩
      · rw [State.alloc, bank_absorb_self] at hr
        have := hold.reg b r hx hr
        rw [hn] at this
        rw [now_alloc, ← this, loc, loc, State.alloc, bank_absorb_self]
      · rw [State.alloc, bank_absorb_self] at hb
        have := hold.slot b hb
        rwa [hn] at this
    · have hold := hg.holds cls'
      refine ⟨fun b r hx hr => ?_, fun b hb => ?_⟩
      · rw [State.alloc, bank_absorb_of_ne he] at hr
        rw [now_alloc, ← hold.reg b r hx hr, now_alloc, loc, loc, State.alloc, bank_absorb_of_ne he]
        rfl
      · rw [State.alloc, bank_absorb_of_ne he] at hb
        obtain ⟨slot, hge, hv⟩ := hold.slot b hb
        exact ⟨slot, h.frame ▸ hge, hv⟩

end

theorem releaseDead_silent {vs : List (Option Value)} {x : Unit} (hok : Ok u ks s)
    (hy : Yields (onBank cls (vs.forM (releaseIfDead pos))) req s x s') :
    Silent u ks pos s s' ∧ ∀ cls, ∀ t ∈ (s'.bank cls).temps, t ∈ (s.bank cls).temps := by
  obtain ⟨a, hr, rfl⟩ := hy.onBank
  rw [run_forM_of_ok (fun v a => run_releaseIfDead (a := a) pos v)] at hr
  cases hr
  have hs := Shrinks.releaseDead (a := s.alloc cls)
    (fun b (h : pos < s.lifetimes.lastUse b) => h) vs
  exact ⟨.of_shrinks hok hs fun _ _ h => h, fun cls' => bank_absorb_ind cls' hs.temps fun _ _ _ h => h⟩

theorem releaseArgs_silent {pos : Nat} {x : Unit} (hok : Ok u ks s)
    (hy : Yields (releaseArgs pos op) req s x s') : Silent u ks pos s s' := by
  obtain ⟨_, s1, hy1, hy2⟩ := hy.bind
  have h1 := (releaseDead_silent hok hy1).1
  exact h1.trans (releaseDead_silent h1.ok hy2).1

theorem endOp_silent (hok : Ok u ks s) (hy : Yields (onBank cls (endOp pos op)) req s x s') :
    Silent u ks pos s s' ∧ (s'.bank cls).temps = [] := by
  obtain ⟨a, hr, rfl⟩ := hy.onBank
  rw [run_endOp] at hr
  cases hr
  refine ⟨.of_shrinks hok (.endOp
    (fun b (h : b.id ≤ u.made ∧ pos < s.lifetimes.lastUse b) => h.2) (fun t ht h => ?_) op) fun _ hm hl => ⟨hm, hl⟩, ?_⟩
  · have := hok.temps cls t ht
    omega
  · rw [bank_absorb_self]
    rfl

end TraceCompiler.Lowering
