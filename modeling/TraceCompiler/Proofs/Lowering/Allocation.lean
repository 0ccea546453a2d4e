import TraceCompiler.Proofs.Lowering.Heap

/-! # The code of allocations

An allocation is a call of the callback (`malloc_part`).
-/

namespace TraceCompiler.Lowering

open Machine (Cpu Setting Falls Fragment Quiet Instr Mem HeapMem)
open CompileM
open Eval (Stores Allocates accessBytes)
open List

variable {ω : Type} {u : Setup ω} {pos : Nat} {c c' : Cpu ω} {v v' : Box → Word} {b : Box} {r : Int}
  {op : Op} {next : Option Op} {x : Option Value} {size : CallArg}

/-! ## Temporaries before a call -/

theorem Brief.ensure (h : Brief pos s) (hok : Ok u ks s)
    (hy : Yields (onBank cls (AllocM.ensure pos (some (.box b)) k)) req s r s') : Brief pos s' := by
  obtain ⟨a, hr, rfl⟩ := hy.onBank
  obtain ⟨_, ⟨⟩, he⟩ := (AllocM.ensure_ends _).ok hr
  exact h.absorb (he.adjusts (hok.sound cls)).1

theorem Brief.allocate (h : Brief pos s) (hok : Ok u ks s)
    (hy : Yields (onBank cls (AllocM.allocate pos (some b) k)) req s r s') : Brief pos s' := by
  obtain ⟨a, hr, rfl⟩ := hy.onBank
  exact h.absorb ((AllocM.allocate_ends.ok hr).adjusts (hok.sound cls))

theorem Brief.withTemp (h : Brief pos s) (cls : RegClass) (kind : Kind) :
    Brief pos (s.withTemp cls pos kind) := by
  intro cls' t ht
  have hl : (s.withTemp cls pos kind).lifetimes.lastUse t =
      if t = s.nextTemp kind then (pos : Int) else s.lifetimes.lastUse t := by
    change (s.lifetimes.addTemp (s.nextTemp kind) pos).lastUse t = _
    unfold Lifetimes.lastUse Lifetimes.addTemp Lifetimes.put Lifetimes.get?
    simp only [Table.get?_insert]
    split <;> rfl
  rw [hl]
  split
  · exact le_rfl
  · rename_i hne
    refine h cls' t ?_
    rw [State.withTemp] at ht
    revert ht
    refine bank_absorb_ind cls' (fun ht => ?_) fun _ _ ht => ht
    exact (mem_append.mp ht).resolve_right fun ht => hne (mem_singleton.mp ht)

theorem Brief.emitted (h : Brief pos s) (fs : List Fragment) : Brief pos (s.emitted fs) := by
  intro cls t ht
  rw [bank_emitted] at ht
  exact h cls t ht

/-! ## Sizes and headers -/

def Sizes (u : Setup ω) (a : CallArg) (f : (Box → Word) → Word) (c : Cpu ω) (v : Box → Word)
    (c' : Cpu ω) (v' : Box → Word) : Prop :=
  a.read c' v' = f v ∧ c'.world = c.world ∧ ∀ b, b.id ≤ u.made → v' b = v b

theorem arraySize_part (hok : Ok u ks s) (hbr : Brief pos s) (hx : ∀ b, some X = some (.box b) → b ∈ ks)
    (hie : sh.item = 1 ∨ sh.item = 2 ∨ sh.item = 4 ∨ sh.item = 8)
    (hy : Yields (arraySize pos sh (some X)) req s a s') : a.Proper ∧ a.kind ≠ .float ∧ Brief pos s' ∧
      (∀ b, X = .box b → (s.alloc (classOf b.kind)).Placed b →
        b ∈ (s'.bank (classOf b.kind)).inFrame) ∧ ∃ base, ArrayBase sh base ∧
      Part u ks pos s s' (Sizes u a fun v => Word.ofInt base + X.word v * Word.ofInt sh.item) := by
  unfold arraySize at hy
  cases X with
  | const q =>
    cases hy
    refine ⟨by simp, by simp [CallArg.word, CallArg.kind], hbr, by simp, sh.base, .inl rfl,
      (Part.refl hok).mono ?_⟩
    rintro c v _ _ _ _ ⟨rfl, rfl⟩
    exact ⟨ofInt_itemOffset sh q.bits, rfl, fun _ _ => rfl⟩
  | box b =>
    have hb := hx b rfl
    obtain ⟨_, s1, hsp, hy1⟩ := hy.bind
    obtain ⟨rl, s2, hen, hy2⟩ := hy1.bind
    obtain ⟨tmp, s3, hte, hy3⟩ := hy2.bind
    obtain ⟨rfl, rfl⟩ := yields_temp.mp hte
    obtain ⟨rt, s4, hal, hy4⟩ := hy3.bind
    obtain ⟨_, s5, he, hy5⟩ := hy4.bind
    cases hy5
    cases he.emit
    obtain ⟨hbi, hk, hp⟩ := keepAcrossCall_part pos hok (fun b' hb' => by
      cases mem_singleton.mp hb'
      exact hb) hsp
    obtain ⟨_, ⟨⟩, ⟨t, ht, _⟩, _, ha⟩ := ensure_answers hp.ok hx hen
    have hrl := ha.ok.mem_gpOrder ht
    have hsi := Silent.withTemp ha.ok pos .gp pos .int
    obtain ⟨hrg, hf, _, han⟩ := allocate_answers hsi.ok (ha.ok.unplaced_nextTemp .gp pos .int) rfl hal
    have hrt := han.ok.mem_gpOrder hrg
    have hbe : Brief pos s4 := (((hbi hbr).ensure hp.ok hen).withTemp .gp .int).allocate hsi.ok hal
    have hn : u.made < (s2.nextTemp .int).id := by
      have := ha.ok.made
      rw [nextTemp_id]
      omega
    have hpr : Part u ks pos s s4 fun c v c' v' => c'.gp rl = v b ∧ c'.world = c.world ∧
        ∀ b', b'.id ≤ u.made → b' ≠ s2.nextTemp .int → v' b' = v b' := by
      refine (((hp.trans ha.part).trans hsi.part).trans han.part).mono ?_
      rintro c v c4 v4 _ _ ⟨c3, v3, ⟨c2, v2, ⟨c1, v1, ⟨hq1, rfl⟩, hq2, hv, hs⟩, rfl, rfl⟩,
        hq4, ⟨w, rfl⟩, hre⟩
      refine ⟨(hre (Reg.gp rl) ?_).trans hv, hq4.world.trans (hq2.world.trans hq1.world),
        fun b' hb' hne => ?_⟩
      · simpa [Reg.gp] using (Machine.HeapMem.not_special hrl).2
      · rw [Function.update_of_ne hne, hs b' (hb'.trans hp.ok.made)]
    have hpt := hpr.compute (i := .imulImm (gpOperand rt) (gpOperand rl) (wrap32 sh.item))
      (f := fun v => v b * Word.ofInt (wrap32 sh.item)) hrg hf (.idle rfl rfl)
      fun c v c' v' _ hQ => ⟨_, by rw [← hQ]; rfl⟩
    have hrg' fs : ((s4.emitted fs).bank .gp).regOf (some (s2.nextTemp .int)) = some rt := by
      rwa [bank_emitted]
    have hpa := Part.compute (i := aluInstr .add (gpOperand rt) (.imm (wrap32 sh.base)))
      (Q := fun _ v _ v' => v' (s2.nextTemp .int) = v b * Word.ofInt (wrap32 sh.item))
      (f := fun v => v b * Word.ofInt (wrap32 sh.item) + Word.ofInt (wrap32 sh.base))
      (hpt.mono fun _ _ _ _ _ _ h => ⟨h.2.1, h.1, h.2.2⟩) (hrg' _) (by rwa [bank_emitted])
      (confined_aluInstr _ fun _ h => (by cases h)) fun c v c' v' hg hQ => by
        have hv : c'.gp rt = v' _ := hg.reg hpt.ok (hrg' _)
        have hr : (IntSource.imm (wrap32 sh.base)).Reads u.env c' (Word.ofInt (wrap32 sh.base)) := rfl
        rw [exec_aluInstr hr (not_rsp_of_mem hrt), alu_wide (by decide), hv, hQ]
        exact ⟨_, rfl⟩
    rw [emitted_emitted] at hpa
    have had := ((ha.toAdvances.trans hsi.toAdvances).trans han.toAdvances).stored
    refine ⟨trivial, by simp [CallArg.kind, Value.kind, State.nextTemp, BoxSupply.fresh],
      hbe.emitted _, ?_, wrap32 sh.base, .inr rfl, hpa.mono ?_⟩
    · rintro _ ⟨⟩ hl
      rw [bank_emitted]
      exact had _ b (hk (by simpa using hl) b mem_cons_self)
    · rintro c v c' v' _ _ ⟨hw, hv, hs⟩
      refine ⟨?_, hw, fun b' hb' => hs b' hb' (by rintro rfl; omega)⟩
      have hwr : wrap32 sh.item = sh.item :=
        wrap32_of_fits (by rcases hie with h | h | h | h <;> rw [h] <;> rfl)
      rw [hwr] at hv
      exact hv.trans (UInt64.add_comm ..)

/-- A store to the header of the object `b`, whose address is in a register. -/
structure Heading (u : Setup ω) (ks : List Box) (pos : Int) (b : Box) (d : Int) (x : Value)
    (s s' : State) where
  reg : Int
  before : State
  holds : (before.bank .gp).regOf (some b) = some reg
  part : Part u ks pos s before fun c v c' v' =>
    c'.world = c.world ∧ ∀ b, b.id ≤ u.made → v' b = v b
  put : Put u ks pos (fieldMem reg d) 8 x before s'

theorem storeHeader_heading {d : Int} {x : Value} (hok : Ok u ks s) (hb : op.result = some b)
    (hr : (s.bank .gp).regOf (some b) = some r)
    (hx : ∀ b', x = .box b' → b' ∈ ks ∧ b' ≠ b) (hac : accessOk x.kind 8 = true)
    (hy : Yields (storeHeader pos op d (some x)) req s t s') : Nonempty (Heading u ks pos b d x s s') := by
  have hm : HeapMem (fieldMem r d) := .field (hok.mem_gpOrder hr) _
  unfold storeHeader at hy
  rw [yields_get_bind, hb, show s.gp.regOf (some b) = some r from hr] at hy
  dsimp only [Option.getD_some] at hy
  split at hy
  · obtain ⟨_, s1, he, hy1⟩ := hy.bind
    obtain ⟨q, he, _⟩ := yields_map.mp he
    obtain ⟨_, ⟨⟩, _, _, ha⟩ := ensure_answers hok (fun b' hb' => (hx b' (Option.some.inj hb')).1) he
    obtain ⟨put⟩ := storeValue_put pos ha.ok hm hac hy1
    refine ⟨⟨r, s1, ha.keeps b r ⟨.inl (by simp), fun h => (hx b h).2 rfl⟩ hr,
      ha.part.mono fun c v c' v' _ _ h => ?_, put⟩⟩
    exact ⟨h.1.world, fun b' hb' => h.2.2 b' (hb'.trans hok.made)⟩
  · obtain ⟨put⟩ := storeValue_put pos hok hm hac hy
    refine ⟨⟨r, s, hr, (Part.refl hok).mono ?_, put⟩⟩
    rintro c v _ _ _ _ ⟨rfl, rfl⟩
    exact ⟨rfl, fun _ _ => rfl⟩

section

variable {d : Int} {x : Value} (p : Heading u ks pos b d x s s')
include p

theorem Heading.heap : HeapMem (fieldMem p.reg d) := .field (p.part.ok.mem_gpOrder p.holds) _

theorem Heading.target {c v} (hg : Good u p.before c v) :
    (fieldMem p.reg d).target c = v b + Word.ofInt (wrap32 d) := by
  rw [fieldMem, target_based, ← hg.reg p.part.ok p.holds]
  rfl

theorem Heading.stores (hm : b.id ≤ u.made) (hx : ∀ b', x = .box b' → b'.id ≤ u.made) :
    PartIf u ks pos s s'
      (fun c v => ∃ world, Stores u.env.host (v b + Word.ofInt (wrap32 d)) 8 (x.word v) c.world world)
      fun c v c' v' => Stores u.env.host (v b + Word.ofInt (wrap32 d)) 8 (x.word v) c.world c'.world ∧
          ∀ b, b.id ≤ u.made → v' b = v b := by
  have hp := p.part.mono (Q := fun c v c' v' => (fieldMem p.reg d).target c' =
      v b + Word.ofInt (wrap32 d) ∧ x.word v' = x.word v ∧ c'.world = c.world ∧
        ∀ b, b.id ≤ u.made → v' b = v b) fun c v c' v' _ hg' h => by
    refine ⟨?_, word_congr fun b' hb' => h.2 b' (hx b' hb'), h⟩
    rw [p.target hg', h.2 b hm]
  refine ((hp.given _).trans (p.put.stores p.heap) ?_).mono (fun _ _ h => h) ?_
  · rintro c v c' v' ⟨world, hw⟩ ⟨ht, hwr, hwo, hs⟩
    exact ⟨world, by rwa [ht, hwr, hwo]⟩
  · rintro c v c' v' _ _ _ ⟨c1, v1, ⟨ht, hwr, hwo, hs⟩, hst, rfl⟩
    exact ⟨by rwa [ht, hwr, hwo] at hst, hs⟩

end

/-! ## Allocations -/

theorem malloc_part (hh : u.req.hooks.malloc ≠ 0) (hk : size.kind ≠ .float) (hr : b.kind = .ref)
    (hm : Marshals u ks pos (.word u.req.hooks.malloc) [.frame, size] (some b) s s') :
    ∃ f, u.env.host.malloc = some f ∧ Part u (b :: ks) pos s s' fun c v c' v' =>
      f (size.read c v) c.world = (v' b, c'.world) ∧ ∀ b', b' ≠ b → v' b' = v b' := by
  obtain ⟨f, hf, hna⟩ := u.implements.malloc hh
  have hpa := hm.part.part fun c v hg gp xmm hp => by
    obtain ⟨x, hn⟩ := hna gp xmm c.world (passed_callback hg hk hp).1
    exact Option.isSome_iff_exists.mpr ⟨_, hn⟩
  refine ⟨f, hf, hpa.mono ?_⟩
  rintro c v c' v' hg _ ⟨a, x, gp, xmm, hp, hn, hv⟩
  obtain ⟨hrd, hrs⟩ := passed_callback hg hk hp
  obtain ⟨x', hn'⟩ := hna gp xmm c.world hrd
  have heq := hn'.symm.trans hn
  rw [hrs] at heq
  simp only [Option.some.injEq, Prod.mk.injEq] at heq
  refine ⟨?_, fun b' hb' => by rw [hv b', if_neg (by simpa [eq_comm] using hb')]⟩
  rw [hv b, if_pos rfl, if_neg (by simp [hr])]
  exact Prod.ext heq.1 heq.2.2

/-- The code of an allocation: the size is found, the callback is asked for memory, and a word may go to
the header of the new object. -/
structure Allocation (u : Setup ω) (ks : List Box) (pos : Nat) (op : Op) (s s' : State) where
  box : Box
  size : CallArg
  bytes : (Box → Word) → Word
  head : Option (Int × Value)
  before : State
  after : State
  hook : u.req.hooks.malloc ≠ 0
  result : op.result = some box
  ref : box.kind = .ref
  kind : size.kind ≠ .float
  kept : ∀ d b, head = some (d, .box b) → b ∈ (before.bank (classOf b.kind)).inFrame
  head_mem : ∀ d x, head = some (d, x) → some x ∈ op.args
  part : Part u ks pos s before (Sizes u size bytes)
  call : Marshals u ks pos (.word u.req.hooks.malloc) [.frame, size] (some box) before after
  header : head.elim (s' = after) fun p =>
    Nonempty (Heading u (box :: ks) pos box p.1 p.2 after s')
  alloc : Granted op → ∀ v m, Agrees u m v →
    Eval.alloc? op m = some ⟨bytes v, head.map fun p => (wrap32 p.1, p.2.word v)⟩

theorem nativeCall_allocation (head : Option (Int × Value)) (hr : Ready u ks pos op s)
    (hho : u.req.hooks.malloc ≠ 0) (ho : op.opcode.resultKind = .ref)
    (hh : ∀ d x, head = some (d, x) → some x ∈ op.args ∧ accessOk x.kind 8 = true)
    (hbr : Brief pos s1) (hs : size.Proper) (hk : size.kind ≠ .float)
    (hke : ∀ d b, head = some (d, .box b) → b ∈ (s1.bank (classOf b.kind)).inFrame)
    (hp : Part u ks pos s s1 (Sizes u size bytes))
    (ha : Granted op → ∀ v m, Agrees u m v →
      Eval.alloc? op m = some ⟨bytes v, head.map fun p => (wrap32 p.1, p.2.word v)⟩)
    (hy : Yields (do
      nativeCall pos (.word u.req.hooks.malloc) [.frame, size] op.result
      match head with
      | none => pure ()
      | some (d, x) => storeHeader pos op d (some x)) u.req s1 t s') :
    Nonempty (Allocation u ks pos op s s') := by
  obtain ⟨b, hb⟩ := hr.has_result (by simp [ho])
  obtain ⟨hn, hma, hbk⟩ := hr.result b hb
  obtain ⟨_, s2, hc, hy1⟩ := hy.bind
  rw [hb] at hc
  have hm := nativeCall_marshals hp.ok hbr (by simp) (by simp [hs])
    (by rintro _ ⟨⟩; exact ⟨hn, hma⟩) hc
  have hre : b.kind = .ref := hbk.trans ho
  refine ⟨⟨b, size, bytes, head, s1, s2, hho, hb, hre, hk, hke,
    fun d x h => (hh d x h).1, hp, hm, ?_, ha⟩⟩
  cases head with
  | none => exact (yields_pure.mp hy1).2
  | some p =>
    obtain ⟨hx, hac⟩ := hh p.1 p.2 rfl
    have hrg := hm.bound b rfl
    rw [show classOf b.kind = .gp by simp [classOf, hre]] at hrg
    refine storeHeader_heading hm.ok hb hrg (fun b' hb' => ⟨?_, ?_⟩) hac hy1
    · exact hr.arg_known_cons hx b b' (congrArg some hb')
    · rintro rfl
      exact hr.arg_ne hb hx hb'

/-- What an allocation gives, from what the callback gave and the word for the header. -/
def newEffect (write : Word → List UInt8 → ω → Option ω) :
    Option (Int × Word) → Word × ω → Option (Word × ω)
  | none, p => some p
  | some (d, x), p => (write (p.1 + Word.ofInt d) (Word.bytes 8 x) p.2).map (p.1, ·)

/-- **An allocation was lowered** once its size is there, the callback has answered and the header is
stored. -/
theorem Allocation.lowered (p : Allocation u ks pos op s s') (hr : Ready u ks pos op s) :
    Lowered u ks pos op next s s' := by
  obtain ⟨b, size, bytes, head, s1, s2, hho, hb, hrf, hk, -, hme, hp, hm, hh, ha⟩ := p
  obtain ⟨-, hma, -⟩ := hr.result b hb
  obtain ⟨g, hg, hml⟩ := malloc_part hho hk hrf hm
  have hbo := ((hr.part hb hp).trans hml).mono (Q := fun c v c' v' =>
      g (bytes v) c.world = (v' b, c'.world) ∧ ∀ b', b'.id ≤ u.made → b' ≠ b → v' b' = v b') (by
    rintro c v c' v' _ _ ⟨c1, v1, ⟨hv, hwr, hs⟩, hc, hs'⟩
    exact ⟨by rw [← hv, ← hwr, hc], fun b' hb' hne => (hs' b' hne).trans (hs b' hb')⟩)
  have hre {v v' : Box → Word} (h : ∀ b', b'.id ≤ u.made → b' ≠ b → v' b' = v b') (b' : Box)
      (hb' : b'.id ≤ u.made) : v' b' = if op.result = some b' then v' b else v b' := by
    by_cases hne : b' = b
    · rw [hne, hb, if_pos rfl]
    · rw [hb, if_neg (by simpa [eq_comm] using hne), h b' hb' hne]
  have hrg : InRegister s2 b := inRegister_of_regOf rfl (hm.bound b rfl)
  refine PartIf.performed (e := fun world v => newEffect u.env.host.write
    (head.map fun p => (wrap32 p.1, p.2.word v)) (g (bytes v) world)) ?_ hr ?_ fun he v m w m' hag hra => ?_
  · rw [show op.result.toList ++ ks = b :: ks by rw [hb]; rfl]
    cases head with
    | none =>
      cases hh
      refine (hbo.given _).mono (fun _ _ h => h) ?_
      rintro c v c' v' _ _ _ ⟨hg', hs⟩
      exact ⟨v' b, congrArg some hg', hre hs⟩
    | some p =>
      obtain ⟨d, x⟩ := p
      obtain ⟨put⟩ := hh
      have hx := hme d x rfl
      have hwo {v v' : Box → Word} (h : ∀ b', b'.id ≤ u.made → b' ≠ b → v' b' = v b') :
          x.word v' = x.word v := by
        refine word_congr fun b' hb' => h b' (hr.arg_made hx b' hb') ?_
        rintro rfl
        exact hr.arg_ne hb hx hb'
      refine ((hbo.given _).trans (put.stores hma (hr.arg_made hx)) ?_).mono
        (fun _ _ h => h) ?_
      · rintro c v c' v' hso ⟨hg', hs⟩
        obtain ⟨world, hw⟩ := Option.isSome_iff_exists.mp (Option.isSome_map.symm.trans hso)
        rw [hg'] at hw
        exact ⟨world, by rw [hwo hs]; exact hw⟩
      · rintro c v c' v' _ _ _ ⟨c2, v2, ⟨hg', hs⟩, hst, hs'⟩
        refine ⟨v' b, ?_, hre fun b' hb' hne => (hs' b' hb').trans (hs b' hb' hne)⟩
        rw [hwo hs] at hst
        dsimp only
        rw [hg', hs' b hma]
        exact congrArg (Option.map (v2 b, ·)) hst
  · rintro b' hb'
    cases hb.symm.trans hb'
    cases head with
    | none => exact hh ▸ hrg
    | some p =>
      obtain ⟨put⟩ := hh
      refine inRegister_of_regOf (show classOf b.kind = .gp by simp [classOf, hrf])
        (?_ : _ = some put.reg)
      exact put.put.bank_eq .gp ▸ put.holds
  · have ha := ha he v m hag
    obtain ⟨world, ht, rfl⟩ := hra.heap_inv (Eval.heap_of_alloc ha)
    obtain ⟨world', ⟨g', hg', hgs⟩, hst⟩ := ht.alloc_inv ha
    cases hg.symm.trans hg'
    cases head with
    | none =>
      subst hst
      exact congrArg some hgs
    | some p =>
      dsimp only
      rw [hgs]
      dsimp only [Option.map_some, newEffect]
      exact congrArg (Option.map (w, ·)) hst

theorem new_allocation (hr : Ready u ks pos op s)
    (ho : op.opcode = .new ∨ op.opcode = .newWithVtable ∨ op.opcode = .newArray)
    (hy : Yields (new pos op) u.req s t s') : Nonempty (Allocation u ks pos op s s') := by
  have hre : op.opcode.resultKind = .ref := by
    rcases ho with ho | ho | ho <;> simp [ho, Opcode.resultKind]
  obtain ⟨vals, hv, ht⟩ := hr.typed
  unfold new at hy
  rw [yields_read_bind] at hy
  dsimp only at hy
  split at hy
  · obtain ⟨_, _, h, _⟩ := hy.bind
    exact (yields_refuse h).elim
  rename_i hh
  split at hy
  · rename_i hop
    obtain ⟨sh, hsh, hac, _⟩ := ht.array (by simp [hop])
    obtain ⟨_, hsh', hy1⟩ := arrayShape_bind hy
    cases hsh.symm.trans hsh'
    obtain ⟨x, hx, hy2⟩ := hy1.argBind
    obtain ⟨X, rfl⟩ := hr.arg_some hx
    obtain ⟨size, s3, hsi, hy3⟩ := hy2.bind
    have hm := mem_of_getElem? hx
    obtain ⟨hpr, hki, hbr, hk, base, hba, hp⟩ := arraySize_part hr.ok
      hr.brief (hr.arg_known hm) (accessOk_size hac) hsi
    have hXk : X.kind = .int := hr.arg_kind hx (by simp [hop, Opcode.isVariadic])
      (by simp [hop, Opcode.argKinds]) (by decide)
    refine nativeCall_allocation (some (sh.length, X)) hr hh hre ?_ hbr hpr hki ?_
      hp (fun he v m ha => ?_) hy3
    · rintro _ _ ⟨⟩
      exact ⟨hm, by rw [hXk]; rfl⟩
    · rintro _ b ⟨⟩
      exact hk b rfl (hr.live b hm)
    · obtain ⟨hf, hf'⟩ := (he (by simp [isSteady, hop, Opcode.needsDescr])).array sh hsh
      rw [Option.map_some, hba.eq hf, wrap32_of_fits hf',
        ← hr.argWord ha hx, ← ofInt_itemOffset, Eval.alloc?, hop, hsh]
      rfl
  · rename_i hop
    obtain ⟨n, hn⟩ := ht.size (by rcases ho with ho | ho | ho <;> simp_all)
    rw [hn] at hy
    have hs {s1 : State}
        (h : Part u ks pos s s1 fun c v c' v' => Quiet c c' ∧ v' = v) :
        Part u ks pos s s1 (Sizes u (.word (Word.ofInt n)) fun _ => Word.ofInt n) :=
      h.mono fun c v c' v' _ _ h => ⟨rfl, h.1.world, fun b _ => by rw [h.2]⟩
    dsimp only at hy
    split at hy
    · rename_i hop'
      refine nativeCall_allocation none hr hh hre (by simp) hr.brief
        (by simp) (by simp [CallArg.word, CallArg.kind]) (by simp) (hs ?_)
        (fun _ v m _ => by rw [Eval.alloc?, hop', hn]; rfl)
        (yields_bind.mpr ⟨_, _, hy, yields_pure.mpr ⟨rfl, rfl⟩⟩)
      exact (Part.refl hr.ok).mono fun c v c' v' _ _ h => ⟨h.1 ▸ .refl _, h.2⟩
    · obtain ⟨x, hx, hy1⟩ := hy.argBind
      obtain ⟨_, s2, hsp, hy2⟩ := hy1.bind
      have hm := mem_of_getElem? hx
      obtain ⟨X, rfl⟩ := hr.arg_some hx
      have hop' : op.opcode = .newWithVtable := by tauto
      obtain ⟨hbr, hk, hp⟩ := keepAcrossCall_part pos hr.ok (fun b hb => by
        cases mem_singleton.mp hb
        exact hr.args b hm) hsp
      have hXk : X.kind = .ref := hr.arg_kind hx (by simp [hop', Opcode.isVariadic])
        (by simp [hop', Opcode.argKinds]) (by decide)
      refine nativeCall_allocation (some (0, X)) hr hh hre ?_ (hbr hr.brief)
        (by simp) (by simp [CallArg.word, CallArg.kind]) ?_ (hs hp)
        (fun _ v m ha => ?_) hy2
      · rintro _ _ ⟨⟩
        exact ⟨hm, by rw [hXk]; rfl⟩
      · rintro _ b ⟨⟩
        exact hk (fun b' hb' => hr.live b' (mem_singleton.mp hb' ▸ hm)) b
          mem_cons_self
      · rw [Option.map_some, ← hr.argWord ha hx, Eval.alloc?, hop', hn]
        rfl

end TraceCompiler.Lowering
