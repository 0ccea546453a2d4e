import TraceCompiler.Proofs.Lowering.Operations

/-! # The code of native calls

Before a call everything that is read behind it leaves the registers that the call overwrites
(`spillCallerSaved_answers`); the arguments come to their registers by one parallel move
(`argMoves_passing`).
-/

namespace TraceCompiler.Lowering

open Machine (Cpu Setting Falls Fragment Quiet Instr)
open Machine.Reg (r11 rax rbp)
open CompileM List Allocator

variable {ω : Type} {u : Setup ω} {ks : List Box} {s s' : State} {c c' : Cpu ω}
  {v v' : Box → Word} {cls : RegClass} {b : Box} {r pos : Int} {t : Unit} {req : Request}
  {ms : List Move} {args : List CallArg} {fn : CallArg} {result : Option Box} {op : Op}

/-! ## Moves that happen at once -/

def State.moved (s : State) (ms : List Move) : State :=
  { s with main := s.main ++ ms.map Item.move }

@[simp] theorem yields_emitMoves :
    Yields (emitMoves ms) req s t s' ↔ s' = s.moved ms := @yields_modify req _ _ _ _

@[simp] theorem alloc_moved (s : State) (ms : List Move) (cls : RegClass) :
    (s.moved ms).alloc cls = s.alloc cls := by
  cases cls <;> rfl

@[simp] theorem bank_moved (s : State) (ms : List Move) (cls : RegClass) :
    (s.moved ms).bank cls = s.bank cls := by
  cases cls <;> rfl

theorem code_moved (s : State) (ms : List Move) : (s.moved ms).code =
    s.code ++ Fragment.piecesAll .main .main (ms.map moveCode) := by
  unfold State.code State.moved
  simp only [Array.toList_appendList, map_append, Fragment.piecesAll_append, map_map]
  rfl

theorem stray_moved (s : State) (ms : List Move) : (s.moved ms).stray = s.stray := by
  have hc : (ms.map Item.move).map Item.fragment = ms.map moveCode := by
    rw [map_map]
    rfl
  unfold State.stray State.moved
  simp only [Array.toList_appendList, map_append, Fragment.piecesAll_append]
  rw [hc, piecesAll_moves_of_ne (by decide), append_nil]

theorem yields_sequenced : Yields (sequenced ms) req s out s' ↔
    Move.sequence ms scratchLocation = .ok out ∧ s' = s := by
  unfold sequenced
  cases Move.sequence ms scratchLocation with
  | error e => simp
  | ok o => simp [eq_comm]

/-! ## What outlives a call -/

def Brief (pos : Int) (s : State) : Prop :=
  ∀ cls, ∀ t ∈ (s.bank cls).temps, s.lifetimes.lastUse t ≤ pos

theorem Brief.absorb (h : Brief pos s) (ha : Adjusts pos' keep x (s.alloc cls) a) :
    Brief pos (s.absorb cls a) := by
  intro cls'
  have hl : (s.absorb cls a).lifetimes = s.lifetimes := ha.same.1
  rw [hl]
  exact bank_absorb_ind cls' (ha.same.2.2.2 ▸ h cls) fun cls' _ => h cls'

theorem spill_answers (pos : Int) (hok : Ok u ks s) (hb : b ∈ ks)
    (hy : Yields (onBank cls (AllocM.spill (some b))) req s t s') : (Brief pos s → Brief pos s') ∧
      (((s.alloc cls).Placed b → b ∈ (s'.bank cls).inFrame) ∧
        ∀ cls' b', (s.alloc cls').Placed b' → (s'.alloc cls').Placed b') ∧
      Answers u ks cls pos (fun b' => b' ≠ b) s s' fun _ v _ v' => v' = v := by
  obtain ⟨a, hr, rfl⟩ := hy.onBank
  rw [AllocM.run_spill] at hr
  cases hre : (s.alloc cls).bank.regOf (some b) with
  | none =>
    rw [hre] at hr
    cases hr
    rw [absorb_alloc]
    exact ⟨id, ⟨fun h => h.resolve_left (by simp [hre]), fun _ _ h => h⟩,
      (Answers.refl hok cls).mono fun _ _ _ _ _ h => h.2⟩
  | some r =>
    rw [hre] at hr
    cases hr
    have ha : Adjusts pos (fun b' => b' ≠ b) none (s.alloc cls)
        ((s.alloc cls).store b r) := .single (.store (by simp) (by simp) hre)
    refine ⟨fun h => h.absorb ha, ⟨fun _ => ?_, fun cls' b' h => ?_⟩, .of_adjusts hok ha (by simp)
      (hok.slots_absorb ha (by simp) fun t ht _ => ?_) fun hd c v hg =>
        ⟨v, ha.holds (hok.sound cls) hd (hg.holds cls), fun _ _ _ _ => rfl, fun _ _ => rfl⟩⟩
    · rw [bank_absorb_self]
      by_cases hm : b ∈ (s.alloc cls).bank.inFrame
      · exact ha.frame.2 b hm
      · dsimp only
        rw [store_eq _ hm]
        exact mem_cons_self
    · by_cases he : cls' = cls
      · subst he
        exact (placed_absorb_self ..).mpr (h.imp (by simp) (ha.frame.2 b'))
      · exact (placed_absorb_of_ne he ..).mpr h
    · rintro rfl
      exact hok.not_temp hb ht

theorem keepAcrossCall_part (pos : Int) (hok : Ok u ks s)
    (hvs : ∀ b, some (.box b) ∈ vs → b ∈ ks) (hy : Yields (keepAcrossCall vs) req s t s') :
    (Brief pos s → Brief pos s') ∧ ((∀ b, some (.box b) ∈ vs → (s.alloc (classOf b.kind)).Placed b) →
        ∀ b, some (.box b) ∈ vs → b ∈ (s'.bank (classOf b.kind)).inFrame) ∧
      Part u ks pos s s' fun c v c' v' => Quiet c c' ∧ v' = v := by
  unfold keepAcrossCall at hy
  have hbs (b : Box) : b ∈ boxesOf vs ↔ some (.box b) ∈ vs := by
    simpa [holders] using mem_holders (x := some b)
  simp only [← hbs] at hvs ⊢
  generalize boxesOf vs = bs at hvs hy
  induction bs generalizing s with
  | nil =>
    cases hy
    exact ⟨id, by simp, (Part.refl hok).mono fun _ _ _ _ _ _ h => ⟨h.1 ▸ .refl _, h.2⟩⟩
  | cons b bs ih =>
    obtain ⟨_, s1, hsp, hr⟩ := hy.bind
    obtain ⟨hbr, hs, ha⟩ := spill_answers pos hok (hvs b mem_cons_self) hsp
    obtain ⟨hbr', hk, hp⟩ := ih ha.ok (fun b' hb' => hvs b' (mem_cons_of_mem _ hb')) hr
    refine ⟨hbr' ∘ hbr, fun hl => ?_, (ha.part.trans hp).mono ?_⟩
    · have hm := hk fun b' hb' => hs.2 _ b' (hl b' (mem_cons_of_mem _ hb'))
      refine forall_mem_cons.mpr ⟨?_, hm⟩
      exact hp.stored _ b (hs.1 (hl b mem_cons_self))
    · rintro c v c' v' _ _ ⟨c1, v1, ⟨hq, rfl⟩, hq', rfl⟩
      exact ⟨hq.trans hq', rfl⟩

/-- A bank in which only what is not read behind `pos` is in registers that calls overwrite. -/
def Spilled (u : Setup ω) (pos : Int) (s : State) (cls : RegClass) : Prop :=
  ∀ r ∈ (u.req.limits.pool cls).callerSaved, ∀ b, (s.bank cls).regOf (some b) = some r →
    s.lifetimes.lastUse b ≤ pos

theorem spillCallerSaved_answers (hok : Ok u ks s)
    (hte : ∀ t ∈ (s.bank cls).temps, s.lifetimes.lastUse t ≤ pos)
    (hy : Yields (onBank cls (AllocM.spillCallerSaved pos)) req s t s') :
    s'.lifetimes = s.lifetimes ∧ Spilled u pos s' cls ∧
      Answers u ks cls pos (fun b => s.lifetimes.lastUse b ≤ pos) s s' fun _ v _ v' => v' = v := by
  obtain ⟨a, hru, rfl⟩ := hy.onBank
  rw [AllocM.run_spillCallerSaved] at hru
  cases hru
  obtain ⟨ha, hde⟩ :
      Adjusts pos (fun b => s.lifetimes.lastUse b ≤ pos) none (s.alloc cls) _ ∧ _ :=
    adjusts_spill (a := s.alloc cls) (x := none) (hok.sound cls) (by simp)
    (s.alloc cls).bank.pool.regs
  have hl := ha.same.1
  refine ⟨hl, fun r hr b hre => ?_, .of_adjusts hok ha (by simp)
    (hok.slots_absorb ha (by simp) fun t ht _ => hte t ht)
    fun hd c v hg => ⟨v, ha.holds (hok.sound cls) hd (hg.holds cls), fun _ _ _ _ => rfl,
      fun _ _ => rfl⟩⟩
  rw [bank_absorb_self] at hre
  have hs := ha.sound (hok.sound cls)
  have hm : r ∈ (s.alloc cls).bank.pool.regs := ha.same.2.2.1 ▸ hs.pool_eq ▸ hs.held_sub _ r hre
  exact (congrArg (fun l => l.lastUse b) hl).trans_le (hde r hm hr b hre)

theorem releaseCallerSaved_silent (hok : Ok u ks s) (hsp : Spilled u pos s cls)
    (hy : Yields (onBank cls AllocM.releaseCallerSaved) req s t s') :
    Silent u ks pos s s' ∧ (∀ cls', cls' ≠ cls → s'.bank cls' = s.bank cls') ∧ s'.lifetimes = s.lifetimes ∧
      ∀ r ∈ (u.req.limits.pool cls).callerSaved, ∀ h, (s'.bank cls).regOf h ≠ some r := by
  obtain ⟨a, hru, rfl⟩ := hy.onBank
  rw [AllocM.run_releaseCallerSaved] at hru
  cases hru
  obtain ⟨hsh, hg⟩ :
      Shrinks (fun b => pos < s.lifetimes.lastUse b) (s.alloc cls) _ ∧ _ :=
    Shrinks.forget (a := s.alloc cls) (hok.sound cls) (fun r hr b hb hre =>
      absurd (hsp r hr b hre) (not_le.mpr hb)) (s.alloc cls).bank.pool.regs
  refine ⟨.of_shrinks hok hsh fun _ _ h => h, fun cls' he => bank_absorb_of_ne he ..,
    hsh.lifetimes, fun r hr h hre => ?_⟩
  rw [bank_absorb_self] at hre
  have hs := hsh.sound _ (hok.sound cls)
  have hp : (s.alloc cls).bank.pool = u.req.limits.pool cls := (hok.sound cls).pool_eq
  exact hg r (hp ▸ hs.pool_eq ▸ hs.held_sub _ r hre) hr h hre

/-! ## Arguments -/

namespace CallArg

def read (c : Cpu ω) (v : Box → Word) : CallArg → Word
  | value x => x.word v
  | fixed l _ => c.contents l

def Found (s : State) : CallArg → Location → Prop
  | value x, l => Spot s x l
  | fixed l' _, l => l = l'

/-- What native functions are passed besides values: constants and the frame. -/
def Proper : CallArg → Prop
  | value _ => True
  | fixed l _ => l = .reg (Reg.gp rbp) ∨ ∃ w, l = .imm w

@[simp] theorem proper_value (x : Value) : (value x).Proper := trivial

@[simp] theorem proper_word (w : Word) : (word w).Proper := .inr ⟨w, rfl⟩

@[simp] theorem proper_frame : frame.Proper := .inl rfl

variable {a : CallArg} {l : Location}

theorem location_found (hok : Ok u ks s) (hy : Yields a.location req s l s') : s' = s ∧ a.Found s l := by
  cases a with
  | value x =>
    obtain ⟨rfl, _, ⟨⟩, hs⟩ := location_spot hok hy
    exact ⟨rfl, hs⟩
  | fixed l' k =>
    cases hy
    exact ⟨rfl, rfl⟩

theorem Found.contents (h : a.Found s l) (hok : Ok u ks s) (hg : Good u s c v) :
    c.contents l = a.read c v := by
  cases a with
  | value x => exact Spot.contents h hok hg
  | fixed l' k => rw [show l = l' from h, read]

theorem Found.wide (h : a.Found s l) (ha : a.Proper) (he : u.frame.Extends s.frame) : l.Wide := by
  cases a with
  | value x => exact Spot.wide h he
  | fixed l' k =>
    rw [show l = l' from h]
    rcases ha with rfl | ⟨w, rfl⟩ <;> trivial

theorem Found.slot {slot : Slot} (h : a.Found s (.slot slot)) (ha : a.Proper) :
    ∃ b, s.frame.get? b = some slot := by
  cases a with
  | value x =>
    cases h with
    | slot _ hs => exact ⟨_, hs⟩
  | fixed l' k =>
    have h := h
    rcases ha with rfl | ⟨w, rfl⟩ <;> cases h

theorem read_congr (ha : a.Proper) (hb : c'.gp rbp = c.gp rbp) : a.read c' v = a.read c v := by
  cases a with
  | value x => rfl
  | fixed l' k =>
    rcases ha with rfl | ⟨w, rfl⟩
    · exact hb
    · rfl

end CallArg

/-- A register that a native function or an argument of it is passed in. -/
def IsCallReg (l : Location) : Prop :=
  (∃ r ∈ rax :: intArgRegs, l = .reg (Reg.gp r)) ∨
    ∃ n : Nat, n < floatArgRegs ∧ l = .reg (Reg.float n)

namespace IsCallReg

variable {l : Location} (h : IsCallReg l)

include h

theorem ne_gp (hr : r ∉ rax :: intArgRegs) : l ≠ .reg (Reg.gp r) := by
  rcases h with ⟨r', hr', rfl⟩ | ⟨n, _, rfl⟩
  · rintro ⟨⟩
    exact hr hr'
  · simp [Reg.gp, Reg.float]

theorem ne_slot (slot : Slot) : l ≠ .slot slot := by
  rcases h with ⟨r', _, rfl⟩ | ⟨n, _, rfl⟩ <;> simp

theorem writable : l.Writable := by
  refine ⟨?_, ?_, h.ne_gp (by decide)⟩
  · rcases h with ⟨r', _, rfl⟩ | ⟨n, _, rfl⟩ <;> trivial
  · rcases h with ⟨r', _, rfl⟩ | ⟨n, _, rfl⟩ <;> rfl

end IsCallReg

theorem scratchLocation_ne_gp (hr : r ≠ r11) (k : Kind) : scratchLocation k ≠ .reg (Reg.gp r) := by
  unfold scratchLocation
  split
  · simp [Reg.gp, Reg.float]
  · rintro ⟨⟩
    exact hr rfl

theorem scratchLocation_ne_slot (slot : Slot) (k : Kind) : scratchLocation k ≠ .slot slot := by
  unfold scratchLocation
  split <;> simp

def passed (c : Cpu ω) (v : Box → Word) (args : List CallArg) : List (Kind × Word) :=
  args.map fun a => (a.kind, a.read c v)

theorem argMoves_passing {ints floats : Nat} (hok : Ok u ks s)
    (hy : Yields (argMoves ints floats args) req s ms s') :
    s' = s ∧ (∀ m ∈ ms, (∃ a ∈ args, a.Found s m.src) ∧ IsCallReg m.dst) ∧
      ∀ {c : Cpu ω} {v : Box → Word} {c' : Cpu ω}, Good u s c v →
        (∀ m ∈ ms, c'.contents m.dst = c.contents m.src) →
          Passes c'.gp c'.xmm ints floats (passed c v args) := by
  induction args generalizing ints floats ms with
  | nil =>
    cases hy
    exact ⟨rfl, by simp, fun _ _ => trivial⟩
  | cons a args ih =>
    obtain ⟨src, s1, hl, hy1⟩ := hy.bind
    obtain ⟨rfl, hfo⟩ := CallArg.location_found hok hl
    have hc {ms : List Move} {dst : Location} (hds : IsCallReg dst)
        (hms : ∀ m ∈ ms, (∃ a ∈ args, a.Found s1 m.src) ∧ IsCallReg m.dst) :
        ∀ m ∈ (⟨src, dst, a.kind⟩ : Move) :: ms,
          (∃ a' ∈ a :: args, a'.Found s1 m.src) ∧ IsCallReg m.dst := by
      refine forall_mem_cons.mpr ⟨⟨⟨a, mem_cons_self, hfo⟩, hds⟩, fun m hm => ?_⟩
      obtain ⟨⟨a', ha', hf⟩, hd⟩ := hms m hm
      exact ⟨⟨a', mem_cons_of_mem _ ha', hf⟩, hd⟩
    by_cases hk : a.kind = .float
    · rw [if_pos hk] at hy1
      split at hy1
      · obtain ⟨_, _, h, _⟩ := hy1.bind
        exact (yields_refuse h).elim
      · rename_i hlt
        obtain ⟨ms', s2, hre, hy2⟩ := hy1.bind
        cases hy2
        obtain ⟨rfl, hms, hp⟩ := ih hre
        refine ⟨rfl, hc (.inr ⟨floats, by omega, rfl⟩) hms, fun hg hmo => ?_⟩
        rw [passed, map_cons, Passes, if_pos hk]
        refine ⟨?_, hp hg fun m hm => hmo m (mem_cons_of_mem _ hm)⟩
        rw [← hfo.contents hok hg]
        exact hmo _ mem_cons_self
    · rw [if_neg hk] at hy1
      cases hr : intArgRegs[ints]? with
      | none =>
        simp only [hr] at hy1
        exact (yields_refuse hy1).elim
      | some r =>
        simp only [hr] at hy1
        obtain ⟨ms', s2, hre, hy2⟩ := hy1.bind
        cases hy2
        obtain ⟨rfl, hms, hp⟩ := ih hre
        refine ⟨rfl, hc (.inl ⟨r, mem_cons_of_mem _ (mem_of_getElem? hr), rfl⟩) hms, fun hg hmo => ?_⟩
        rw [passed, map_cons, Passes, if_neg hk]
        refine ⟨⟨r, hr, ?_⟩, hp hg fun m hm => hmo m (mem_cons_of_mem _ hm)⟩
        rw [← hfo.contents hok hg]
        exact hmo _ mem_cons_self

/-! ## Calls -/

theorem Advances.moved (hok : Ok u ks s)
    (hms : Within (u.scope s.frame) (Fragment.piecesAll .main .main (ms.map moveCode))) :
    Advances u ks pos s (s.moved ms) where
  grows := ⟨by simp [State.moved], prefix_rfl, .refl _, le_rfl⟩
  plain := ⟨rfl, rfl, rfl, rfl, rfl, rfl, stray_moved s ms, [], .refl _⟩
  retains := .of_alloc (alloc_moved s ms)
  stored := fun cls b hb => by rwa [bank_moved]
  adds := ⟨_, code_moved s ms, hms⟩
  ok := hok.congr (alloc_moved s ms)

theorem preserved_of_not_saved {l : Limits} (hr : r ∈ (l.pool .gp).regs)
    (hs : r ∉ (l.pool .gp).callerSaved) : r ∈ Machine.preserved := by
  have ha : ∀ r ∈ gpOrder, r ∉ (gpPool 0).callerSaved → r ∈ Machine.preserved := by decide
  exact ha r (Limits.mem_gp hr) hs

/-- What a native function hands back, whatever it does to the other registers. -/
structure Survives (c c' : Cpu ω) : Prop where
  gp : ∀ r ∈ Machine.preserved, c'.gp r = c.gp r
  frame : c'.frame = c.frame
  stack : c'.stack = c.stack

theorem Survives.returned (env : Setting ω) (c : Cpu ω) (a x : Word) (world : ω) :
    Survives c (c.returned env a x world) := by
  refine ⟨fun r hr => ?_, rfl, rfl⟩
  have hra : r ≠ rax := by
    rintro rfl
    exact absurd hr (by decide)
  change (if r = rax then a else if r ∈ Machine.preserved then c.gp r else _) = _
  rw [if_neg hra, if_pos hr]

/-- The register in which native functions leave a result. -/
def resultReg (k : Kind) : Int := if k = .float then 0 else rax

def withResult (result : Option Box) (c : Cpu ω) (v : Box → Word) (b : Box) : Word :=
  if result = some b then c.contents (.reg ⟨classOf b.kind, resultReg b.kind⟩) else v b

/-- Behind a call registers that it may have overwritten belong to nobody but the result, and the
others and the frame are as they were. -/
theorem called_good (hok : Ok u ks s) (hok' : Ok u ks' s') (he : u.frame.Extends s.frame)
    (hg : Good u s c v) (hn : ∀ b ∈ result, ∀ cls, ¬ (s.alloc cls).Placed b)
    (hre : ∀ cls b r, (s'.bank cls).regOf (some b) = some r →
      (result = some b ∧ cls = classOf b.kind ∧ r = resultReg b.kind) ∨
        (s.bank cls).regOf (some b) = some r ∧ r ∉ (u.req.limits.pool cls).callerSaved)
    (hst : ∀ cls, (s'.bank cls).inFrame = (s.bank cls).inFrame) (hf : s'.frame = s.frame)
    (hr : ∀ r ∈ Machine.preserved, c'.gp r = c.gp r)
    (hsl : ∀ slot : Slot, slot.InRange → c'.frame slot.offset = c.frame slot.offset)
    (hh : c'.frame HeaderWord.values.offset = c.frame HeaderWord.values.offset)
    (hsa : c'.stack = c.stack) : Good u s' c' (withResult result c' v) := by
  have hold {b : Box} {cls : RegClass} (hb : (s.alloc cls).Placed b) :
      withResult result c' v b = v b := if_neg fun h => hn b h cls hb
  refine ⟨fun cls => ⟨fun b r _ hb => ?_, fun b hb => ?_⟩,
    (hr _ (by decide)).trans hg.base, hh.trans hg.header, hsa.trans hg.stack⟩
  · rw [hok'.loc, now_alloc]
    rcases hre cls b r hb with ⟨hrs, rfl, rfl⟩ | ⟨hb', hs⟩
    · exact (if_pos hrs).symm
    · rw [hold (.inl (Option.isSome_iff_exists.mpr ⟨r, hb'⟩)), ← hg.reg hok hb']
      cases cls with
      | gp => exact hr r (preserved_of_not_saved (hok.mem_pool hb') hs)
      | float => exact absurd (hok.mem_pool hb') hs
  · have hb' : b ∈ (s.bank cls).inFrame := hst cls ▸ hb
    obtain ⟨slot, hge, hv⟩ := hg.slot hb'
    refine ⟨slot, (congrArg (·.get? b) hf).trans hge, ?_⟩
    rw [hold (.inr hb'), ← hv]
    exact hsl slot (u.fine.inRange b slot (he b slot hge))

/-- The processor `c'` is about to call: the function and the arguments are where native functions look
for them, and whatever the call does to other registers, boxes have their places in `s'` behind it. -/
structure Marshalled (u : Setup ω) (fn : CallArg) (args : List CallArg) (result : Option Box)
    (s' : State) (c : Cpu ω) (v : Box → Word) (c' : Cpu ω) : Prop where
  rax : c'.gp rax = fn.read c v
  passes : Passes c'.gp c'.xmm 0 0 (passed c v args)
  world : c'.world = c.world
  survives : ∀ c'', Survives c' c'' → Good u s' c'' (withResult result c'' v)

/-- What a call is: code that brings the arguments to their registers, and the instruction. -/
structure Marshals (u : Setup ω) (ks : List Box) (pos : Int) (fn : CallArg) (args : List CallArg)
    (result : Option Box) (s s' : State) : Prop extends
    Advances u (result.toList ++ ks) pos s s' where
  bound : ∀ b ∈ result, (s'.bank (classOf b.kind)).regOf (some b) = some (resultReg b.kind)
  comes : ∃ code, s'.code = s.code ++ (code ++ [.instr (.callReg (.wide Machine.Reg.rax))]) ∧
    (u.frame.Extends s'.frame → ∀ c v, Good u s c v →
      ∃ c', Falls u.env code c c' ∧ Marshalled u fn args result s' c v c')

theorem bindResult_binds (hok : Ok u ks s) (hr : ∀ b ∈ result, b ∉ ks ∧ b.id ≤ u.made)
    (hy : Yields (match result with
      | none => pure ()
      | some b => if b.kind = .float then onFloat (AllocM.bind b 0)
        else onGp (AllocM.bind b rax)) req s t s') :
    Advances u (result.toList ++ ks) pos s s' ∧ s'.code = s.code ∧ s'.frame = s.frame ∧
      (∀ cls, (s'.bank cls).inFrame = (s.bank cls).inFrame) ∧
      (∀ b ∈ result, (s'.bank (classOf b.kind)).regOf (some b) = some (resultReg b.kind)) ∧
      ∀ cls b r, (s'.bank cls).regOf (some b) = some r →
        (result = some b ∧ cls = classOf b.kind ∧ r = resultReg b.kind) ∨
          (s.bank cls).regOf (some b) = some r := by
  cases result with
  | none =>
    cases hy
    exact ⟨.refl hok, rfl, rfl, fun _ => rfl, by simp, fun _ _ _ h => .inr h⟩
  | some b =>
    have hbi : Yields (onBank (classOf b.kind) (AllocM.bind b (resultReg b.kind))) req s t s' := by
      unfold classOf resultReg
      dsimp only at hy
      split at hy <;> rename_i hk
      · rw [if_pos hk, if_pos hk]
        exact hy
      · rw [if_neg hk, if_neg hk]
        exact hy
    obtain ⟨hn, hm⟩ := hr b rfl
    obtain ⟨hre, -, ha⟩ := bind_answers pos (hok.insert hm) (hok.unplaced hn hm _) hbi
    obtain ⟨-, rfl⟩ := yields_bindReg hbi
    refine ⟨ha.toAdvances, ?_, rfl, fun cls => ?_, by rintro _ ⟨⟩; exact hre,
      fun cls b' r hb' => ?_⟩
    · rw [code_absorb]
      exact append_nil _
    · exact bank_absorb_ind cls rfl fun _ _ => rfl
    · by_cases he : cls = classOf b.kind
      · subst he
        by_cases hb : b' = b
        · subst hb
          exact .inl ⟨rfl, rfl, Option.some.inj (hb'.symm.trans hre)⟩
        · rw [bank_absorb_self] at hb'
          exact .inr (by simpa [hb, State.alloc] using hb')
      · exact .inr (by rwa [bank_absorb_of_ne he] at hb')

/-- **A call** comes to its instruction with the arguments in their registers, and nothing that is read
behind it is lost. -/
theorem nativeCall_marshals {pos : Nat} (hok : Ok u ks s) (ht : Brief pos s) (hfn : fn.Proper)
    (har : ∀ a ∈ args, a.Proper) (hre : ∀ b ∈ result, b ∉ ks ∧ b.id ≤ u.made)
    (hy : Yields (nativeCall pos fn args result) req s t s') : Marshals u ks pos fn args result s s' := by
  obtain ⟨_, s1, hsp, hy1⟩ := hy.bind
  obtain ⟨_, s2, hsp', hy2⟩ := hy1.bind
  obtain ⟨ms, s3, hmv, hy3⟩ := hy2.bind
  obtain ⟨l, s4, hlo, hy4⟩ := hy3.bind
  obtain ⟨out, s5, hsq, hy5⟩ := hy4.bind
  obtain ⟨_, s6, hem, hy6⟩ := hy5.bind
  obtain ⟨_, s7, hca, hy7⟩ := hy6.bind
  obtain ⟨_, s8, hrl, hy8⟩ := hy7.bind
  obtain ⟨_, s9, hrl', hbi⟩ := hy8.bind
  obtain ⟨hl, hsl, ha1⟩ := spillCallerSaved_answers hok (ht .gp) hsp
  obtain ⟨hli, hse, han⟩ := spillCallerSaved_answers ha1.ok (by
    rw [ha1.other .float (by decide), hl]
    exact ht .float) hsp'
  obtain ⟨rfl, hms, hpa⟩ := argMoves_passing han.ok hmv
  obtain ⟨rfl, hfo⟩ := CallArg.location_found han.ok hlo
  obtain ⟨hou, rfl⟩ := yields_sequenced.mp hsq
  cases yields_emitMoves.mp hem
  cases hca.emit
  -- All moves go to registers that calls overwrite.
  have hal : ∀ m ∈ ms ++ [⟨l, .reg (Reg.gp rax), .int⟩],
      (∃ a : CallArg, a.Proper ∧ a.Found s5 m.src) ∧ IsCallReg m.dst := by
    intro m hm
    rcases mem_append.mp hm with hm | hm
    · obtain ⟨⟨a, ha, hf⟩, hd⟩ := hms m hm
      exact ⟨⟨a, har a ha, hf⟩, hd⟩
    · cases mem_singleton.mp hm
      exact ⟨⟨fn, hfn, hfo⟩, .inl ⟨_, mem_cons_self, rfl⟩⟩
  have hc : Within (u.scope s5.frame) (Fragment.piecesAll .main .main (out.map moveCode)) := by
    have hs0 : ∀ m ∈ ms ++ [⟨l, .reg (Reg.gp rax), .int⟩],
        (∀ slot, m.src = .slot slot → (u.scope s5.frame).reads slot) ∧
          ∀ slot, m.dst = .slot slot → False := by
      intro m hm
      obtain ⟨⟨a, ha, hf⟩, hd⟩ := hal m hm
      exact ⟨fun slot hs => (hs ▸ hf).slot ha, fun slot hs => hd.ne_slot slot hs⟩
    exact (within_sequenced hou hs0).mono
      ⟨fun _ h => h.resolve_right id, fun _ h => h.elim, fun _ h => h⟩
  have had : Advances u ks pos s5
      ((s5.moved out).emitted [.instr (.callReg (.wide rax))]) :=
    (Advances.moved han.ok hc).trans (.emitted (han.ok.congr (alloc_moved s5 out))
      (within_cons (.idle rfl rfl) within_nil) rfl)
  have hba (cls : RegClass) : ((s5.moved out).emitted
      [.instr (.callReg (.wide rax))]).bank cls = s5.bank cls := by
    rw [bank_emitted, bank_moved]
  have hsi (cls : RegClass) : Spilled u pos ((s5.moved out).emitted
      [.instr (.callReg (.wide rax))]) cls := by
    intro r hr b hr0
    rw [hba] at hr0
    change s5.lifetimes.lastUse b ≤ pos
    cases cls with
    | gp =>
      rw [hli]
      exact hsl r hr b (han.other .gp (by decide) ▸ hr0)
    | float => exact hse r hr b hr0
  obtain ⟨hs1, ho, hlf, hgo⟩ := releaseCallerSaved_silent had.ok (hsi .gp) hrl
  obtain ⟨hs2, hoh, _, hgn⟩ := releaseCallerSaved_silent hs1.ok (by
    intro r hr b hr0
    rw [ho .float (by decide)] at hr0
    rw [hlf]
    exact hsi .float r hr b hr0) hrl'
  have hs3 := hs1.trans hs2
  have hge (cls : RegClass) : ∀ r ∈ (u.req.limits.pool cls).callerSaved, ∀ h,
      (s9.bank cls).regOf h ≠ some r := by
    intro r hr h hr0
    cases cls with
    | gp =>
      rw [hoh .gp (by decide)] at hr0
      exact hgo r hr h hr0
    | float => exact hgn r hr h hr0
  obtain ⟨hav, hcd, hfa, hso, hbo, hrg⟩ := bindResult_binds hs3.ok hre hbi
  have hst := (ha1.toAdvances.trans han.toAdvances).trans (had.trans hs3.toAdvances)
  refine ⟨Advances.trans { hst with ok := hst.ok.inserts fun b hb => (hre b hb).2 } hav,
    hbo, ?_⟩
  have hfr : s'.frame = s5.frame := hfa.trans hs3.frame
  obtain ⟨code1, hco⟩ := (ha1.grows.trans han.grows).exists_code
  refine ⟨code1 ++ Fragment.piecesAll .main .main (out.map moveCode), ?_, fun het c v hg0 => ?_⟩
  · rw [hcd, hs3.code, code_emitted, code_moved, hco]
    simp only [append_assoc]
    rfl
  have he : u.frame.Extends s5.frame := hfr ▸ het
  obtain ⟨c1, v1, hru, hqi, hgd, hv1, _⟩ := ha1.sim (he.trans han.grows.frame) c v hg0
  obtain ⟨c2, v2, hrn, hqe, hg, hv2, _⟩ := han.sim he c1 v1 hgd
  rw [hv2, hv1] at hg
  have hqu := hqi.trans hqe
  obtain ⟨code, hc', hss⟩ := hru.trans hrn
  cases append_cancel_left (hc'.symm.trans hco)
  have hra {a : CallArg} (ha : a.Proper) : a.read c2 v = a.read c v := CallArg.read_congr ha hqu.base
  have hp : passed c2 v args = passed c v args := map_congr_left fun a ha => by rw [hra (har a ha)]
  obtain ⟨c3, hfl, hq, hmo, hk⟩ := falls_sequenced .main hg.base hou
    (fun m hm => by
      obtain ⟨⟨a, ha, hf⟩, hd⟩ := hal m hm
      exact ⟨hd.writable, hf.wide ha he⟩)
    (fun m hm => (hal m hm).2.ne_gp (by decide))
  refine ⟨c3, hss.append hfl, ?_, ?_, hq.world.trans hqu.world, fun c4 hc4 => ?_⟩
  · rw [← hra hfn, ← hfo.contents han.ok hg]
    exact hmo ⟨l, .reg (Reg.gp rax), .int⟩ (by simp)
  · rw [← hp]
    exact hpa hg fun m hm => hmo m (mem_append_left _ hm)
  · refine called_good han.ok hav.ok he hg (fun b hb => han.ok.not_placed (hre b hb).1 (hre b hb).2)
      (fun cls b r hr0 => ?_)
      (fun cls => (hso cls).trans (hba cls ▸ hs3.inFrame cls)) hfr (fun r hr => ?_)
      (fun slot hs => ?_) ?_ (hc4.stack.trans hq.stack)
    · refine (hrg cls b r hr0).imp_right fun h => ⟨hba cls ▸ hs3.sub cls _ r h, fun hr => ?_⟩
      exact hge cls r hr _ h
    · have hne : ∀ r ∈ Machine.preserved, r ∉ rax :: intArgRegs ∧ r ≠ r11 := by decide
      refine (hc4.gp r hr).trans (hk (.reg (Reg.gp r)) trivial
        (fun m hm => (hal m hm).2.ne_gp (hne r hr).1) (scratchLocation_ne_gp (hne r hr).2))
    · rw [hc4.frame]
      exact hk (.slot slot) hs (fun m hm => (hal m hm).2.ne_slot slot)
        (scratchLocation_ne_slot slot)
    · rw [hc4.frame]
      exact hq.header _

/-- A native function that returns whenever it is given the arguments. -/
def Returns (u : Setup ω) (fn : CallArg) (args : List CallArg) (c : Cpu ω) (v : Box → Word) : Prop :=
  ∀ gp xmm, Passes gp xmm 0 0 (passed c v args) →
    (u.env.native (fn.read c v) gp xmm c.world).isSome

def Answered (u : Setup ω) (fn : CallArg) (args : List CallArg) (result : Option Box) (c : Cpu ω)
    (v : Box → Word) (c' : Cpu ω) (v' : Box → Word) : Prop :=
  ∃ a x gp xmm, Passes gp xmm 0 0 (passed c v args) ∧
    u.env.native (fn.read c v) gp xmm c.world = some (a, x, c'.world) ∧
      ∀ b, v' b = if result = some b then (if b.kind = .float then x else a) else v b

theorem Marshals.part (h : Marshals u ks pos fn args result s s') :
    PartIf u (result.toList ++ ks) pos s s' (Returns u fn args) (Answered u fn args result) := by
  refine ⟨h.toAdvances, fun het c v hg hr => ?_⟩
  obtain ⟨code, hco, hc⟩ := h.comes
  obtain ⟨c1, hf, hm⟩ := hc het c v hg
  obtain ⟨⟨a, x, world⟩, hn⟩ := Option.isSome_iff_exists.mp (hr _ _ hm.passes)
  have he : (Instr.callReg (.wide rax)).exec u.env c1 = some (c1.returned u.env a x world) := by
    change (u.env.native (c1.gp rax) c1.gp c1.xmm c1.world).map _ = _
    rw [hm.rax, hm.world, hn]
    rfl
  refine ⟨_, _, ⟨_, hco, hf.append (.instr he)⟩, hm.survives _ (.returned ..), a, x, _, _,
    hm.passes, hn, fun b => ?_⟩
  unfold withResult classOf resultReg
  split
  · split <;> rfl
  · rfl

/-! ## Calls of the trace -/

theorem Ready.brief {pos : Nat} (h : Ready u ks pos op s) : Brief pos s := by
  intro cls t ht
  rw [h.temps] at ht
  cases ht

theorem yields_mapM_need {α : Type} {xs : List (Option α)} {ys : List α} :
    Yields (xs.mapM need) req s ys s' → xs = ys.map some ∧ s' = s := by
  induction xs generalizing ys s' with
  | nil =>
    rw [mapM_nil]
    intro hy
    cases hy
    exact ⟨rfl, rfl⟩
  | cons x xs ih =>
    rw [mapM_cons]
    intro hy
    obtain ⟨y, rfl, hy1⟩ := hy.needBind
    obtain ⟨ys', s2, hxs, hy2⟩ := hy1.bind
    obtain ⟨rfl, rfl⟩ := ih hxs
    cases hy2
    exact ⟨rfl, rfl⟩

theorem passed_values (c : Cpu ω) (v : Box → Word) (xs : List Value) :
    passed c v (xs.map .value) = (xs.map Value.kind).zip (xs.map (·.word v)) := by
  rw [passed, map_map, zip_map']
  rfl

def callEffect (host : Host ω) (sig : Signature) (fn : Value) (args : List Value) (world : ω)
    (v : Box → Word) : Option (Word × ω) :=
  match host.call (fn.word v) sig (args.map (·.word v)) world with
  | (.ok w, world') => some (w, world')
  | _ => none

theorem callEffect_eq_some {host : Host ω} {sig : Signature} {fn : Value} {args : List Value}
    {world : ω} {x : Word × ω} : callEffect host sig fn args world v = some x ↔
      host.call (fn.word v) sig (args.map (·.word v)) world = (.ok x.1, x.2) := by
  unfold callEffect
  split
  · rename_i h
    rw [h]
    constructor
    · rintro ⟨⟩
      rfl
    · rintro ⟨⟩
      rfl
  · rename_i h
    constructor
    · rintro ⟨⟩
    · intro h'
      exact absurd h' (h _ _)

theorem call_lowered {pos : Nat} {next : Option Op} (hr : Ready u ks pos op s)
    (ho : op.opcode ∈ [.callI, .callR, .callF, .callN]) (hy : Yields (call pos op) req s t s') :
    Lowered u ks pos op next s s' := by
  obtain ⟨vals, hva, ht⟩ := hr.typed
  obtain ⟨sig, fn, rest, hsg, rfl, _, hk, hsi⟩ := ht.call ho
  unfold call at hy
  rw [if_neg (by simp [hsg])] at hy
  simp only [hva, map_cons] at hy
  obtain ⟨args, s1, har, hy1⟩ := hy.bind
  obtain ⟨heq, rfl⟩ := yields_mapM_need har
  obtain rfl : rest = args := map_injective_iff.mpr (Option.some_injective _) heq
  obtain ⟨fn', heq, hc⟩ := hy1.needBind
  cases heq
  have hm := nativeCall_marshals hr.ok hr.brief (by simp) (by simp)
    (fun b hb => ⟨(hr.result b hb).1, (hr.result b hb).2.1⟩) hc
  have hna {c : Cpu ω} {v : Box → Word} {w : Word} {world : ω} {gp xmm : Int → Word}
      (he : callEffect u.env.host sig fn rest c.world v = some (w, world))
      (hp : Passes gp xmm 0 0 (passed c v (rest.map .value))) :
      ∃ a x, u.env.native (fn.word v) gp xmm c.world = some (a, x, world) ∧
        if sig.result = .float then x = w else a = w :=
    u.implements.call _ _ _ _ _ _ (callEffect_eq_some.mp he) gp xmm
      (hk ▸ passed_values c v rest ▸ hp)
  refine PartIf.performed (e := callEffect u.env.host sig fn rest) (hm.part.mono ?_ ?_) hr
    (fun b hb => inRegister_of_regOf rfl (hm.bound b hb)) fun _ v m w m' ha hra => ?_
  · intro c v he gp xmm hp
    obtain ⟨⟨w, world⟩, he⟩ := Option.isSome_iff_exists.mp he
    obtain ⟨a, x, hn, _⟩ := hna he hp
    exact Option.isSome_iff_exists.mpr ⟨_, hn⟩
  · rintro c v c' v' he _ _ ⟨a, x, gp, xmm, hp, hn, hv⟩
    obtain ⟨⟨w, world⟩, he⟩ := Option.isSome_iff_exists.mp he
    obtain ⟨a', x', hn', hw⟩ := hna he hp
    obtain ⟨rfl, rfl, rfl⟩ : a' = a ∧ x' = x ∧ world = c'.world := by
      simpa using hn'.symm.trans hn
    refine ⟨w, he, fun b _ => (hv b).trans ?_⟩
    by_cases hb : op.result = some b
    · -- A call with a result returns a word of its kind.
      have hki : sig.result = b.kind := by
        rw [(hr.result b hb).2.2]
        refine hsi.resolve_left fun hn => ?_
        have := hr.void.mpr (by rw [hn]; rfl)
        simp [hb] at this
      rw [if_pos hb, if_pos hb, ← hki]
      split at hw <;> rename_i hf
      · rw [if_pos hf, hw]
      · rw [if_neg hf, hw]
    · rw [if_neg hb, if_neg hb]
  · obtain ⟨world, hto, rfl⟩ := hra.heap_inv (by
      revert ho
      cases op.opcode <;> simp [Opcode.isCall])
    obtain ⟨_, hs, hc'⟩ := hto.call_inv ho
    cases hsg.symm.trans hs
    have hwo {x : Value} (hx : x ∈ fn :: rest) : m.word (some x) = x.word v :=
      ha.word (hr.arg_made (hva ▸ mem_map_of_mem hx))
    rw [hr.argWord ha (x := fn) (by rw [hva]; rfl), hva] at hc'
    rw [callEffect_eq_some, ← hc']
    congr 1
    rw [map_cons, drop_one, tail_cons, map_map]
    exact map_congr_left fun x hx => (hwo (mem_cons_of_mem _ hx)).symm

end TraceCompiler.Lowering
