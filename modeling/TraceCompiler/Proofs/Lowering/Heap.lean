import TraceCompiler.Proofs.Lowering.Calls

/-! # The code of accesses to fields and arrays

Memory that belongs to the world is reached through registers that hold addresses (`HeapMem`).
-/

namespace TraceCompiler

open List
open Machine.Reg (r11 rdi rsi)

namespace Word

theorem bytes_congr (hn : n ≤ 4)
    (h : a.toNat % 0x100000000 = b.toNat % 0x100000000) : bytes n a = bytes n b := by
  unfold bytes
  refine map_congr_left fun i hi => ?_
  have hi : i < 4 := (mem_range.mp hi).trans_le hn
  congr 1
  rw [Nat.pow_eq]
  match i with
  | 0 | 1 | 2 | 3 => omega

theorem bytes_immediate (hn : n ≤ 4) (w : Word) : bytes n (ofInt (Lowering.immediate w)) = bytes n w := by
  refine bytes_congr hn ?_
  have h := toNat_ofInt (Lowering.immediate w)
  have hw := toNat_ofInt (signed w)
  rw [ofInt_signed] at hw
  have hl : Lowering.immediate w % 0x100000000 = signed w % 0x100000000 := Int.bmod_emod ..
  omega

end Word

namespace Eval

theorem accessBytes_eq (h : size = 1 ∨ size = 2 ∨ size = 4 ∨ size = 8) :
    accessBytes size = size.toNat := by
  rcases h with rfl | rfl | rfl | rfl <;> rfl

end Eval

theorem accessOk_size (h : accessOk kind size = true) : size = 1 ∨ size = 2 ∨ size = 4 ∨ size = 8 := by
  cases kind <;> simp_all [accessOk, or_assoc]

theorem accessOk_float (h : accessOk .float size = true) : size = 8 := by
  simpa [accessOk] using h

namespace Machine

open Lowering (gpOrder gpOperand)

variable {ω : Type} {env : Setting ω} {c c' : Cpu ω} {mem : Mem} {n : Nat}

/-- Memory that is reached through registers of the general bank. -/
inductive HeapMem : Mem → Prop
  | field {r : Int} (hr : r ∈ gpOrder) (d : Int) : HeapMem (.based (gpOperand r) d)
  | item {r i : Int} {n : Nat} (hr : r ∈ gpOrder) (hi : i ∈ gpOrder)
      (hn : n = 1 ∨ n = 2 ∨ n = 4 ∨ n = 8) (d : Int) :
      HeapMem (.indexed (gpOperand r) (gpOperand i) n d)

def Mem.target (m : Mem) (c : Cpu ω) : Word :=
  (m.base.elim 0 fun b => c.gp b.id) + (m.index.elim 0 fun p => c.gp p.1.id * Word.ofInt p.2) +
    Word.ofInt m.disp

namespace HeapMem

theorem touches (h : HeapMem mem) (slots : Slot → Prop) (values : Nat → Prop) :
    Lowering.Touches slots values mem := by
  cases h with
  | field hr d => exact .field hr d
  | item hr hi hn d => exact .item hr hi hn d

theorem not_special (hr : r ∈ gpOrder) : r ≠ Reg.rbp ∧ r ≠ Reg.r11 := by
  revert r
  decide

theorem place (h : HeapMem mem) : mem.place? env c = some (.world (mem.target c)) := by
  have key {r : Int} (hr : r ∈ gpOrder) {x y z : Option Place} :
      (if (gpOperand r).id = Reg.rbp then x else if (gpOperand r).id = Reg.r11 then y else z) = z :=
    (if_neg (not_special hr).1).trans (if_neg (not_special hr).2)
  cases h with
  | field hr d => exact key hr
  | item hr hi hn d => exact key hr

theorem read (h : HeapMem mem) : mem.read? env n c =
    (env.host.read (mem.target c) n c.world).map Word.ofBytes := by
  unfold Mem.read?
  rw [h.place]

theorem write (h : HeapMem mem) (w : Word) : mem.write? env n w c =
    (env.host.write (mem.target c) (Word.bytes n w) c.world).map fun world => { c with world } := by
  unfold Mem.write?
  rw [h.place]

theorem target_congr (h : HeapMem mem) (hc : ∀ r ∈ gpOrder, c'.gp r = c.gp r) :
    mem.target c' = mem.target c := by
  cases h with
  | @field r hr d =>
    change c'.gp r + _ + _ = c.gp r + _ + _
    rw [hc r hr]
    rfl
  | @item r i n hr hi hn d =>
    change c'.gp r + c'.gp i * _ + _ = c.gp r + c.gp i * _ + _
    rw [hc r hr, hc i hi]

end HeapMem

end Machine

namespace Lowering

open Machine (Cpu Setting Falls Fragment Quiet Instr Mem HeapMem)
open CompileM
open Eval (Loads Stores Allocates announced accessBytes accessBytes_eq)

variable {ω α : Type} {u : Setup ω} {pos : Nat} {c c' : Cpu ω} {v v' : Box → Word} {b : Box}
  {r : Int} {mem : Mem} {size : Int} {x : Option Value} {addr : (Box → Word) → Word} {signed : Bool}
  {sh : ArrayShape} {kind : Kind} {next : Option Op}

theorem target_based (r d : Int) (c : Cpu ω) :
    (Mem.based (gpOperand r) d).target c = c.gp r + Word.ofInt d := by
  change c.gp r + 0 + Word.ofInt d = _
  rw [UInt64.add_zero]

theorem Alike.target (h : Alike c c') (hm : HeapMem mem) : mem.target c' = mem.target c :=
  hm.target_congr fun r hr => h.gp r (Machine.HeapMem.not_special hr).2

/-! ## Stores -/

theorem yields_bankOf : Yields (bankOf k) req s bank s' ↔ bank = s.bank (classOf k) ∧ s' = s := by
  have hp : Yields (bankOf k) req s bank s' ↔ Yields (pure (s.bank (classOf k))) req s bank s' := by
    unfold bankOf
    cases classOf k <;> rfl
  rw [hp, yields_pure]

structure Put (u : Setup ω) (ks : List Box) (pos : Int) (mem : Mem) (size : Int) (x : Value)
    (s s' : State) where
  instr : Instr
  before : State
  after : s' = before.emitted [.instr instr]
  bank : ∀ cls, before.bank cls = s.bank cls
  confined : Confined (u.scope before.frame) instr
  part : Part u ks pos s before fun c v c' v' => v' = v ∧ Alike c c' ∧ c'.world = c.world ∧
    ∃ w, instr.exec u.env c' = mem.write? u.env (accessBytes size) w c' ∧
      Word.bytes (accessBytes size) w = Word.bytes (accessBytes size) (x.word v)

theorem Put.bank_eq {pos : Int} {x : Value} (p : Put u ks pos mem size x s s')
    (cls : RegClass) : s'.bank cls = s.bank cls := by
  obtain ⟨i, s1, rfl, hb, -, -⟩ := p
  rw [bank_emitted, hb]

theorem put_instr {pos : Int} {x : Value} (hok : Ok u ks s) (hi : Confined (u.scope s.frame) i)
    (he : ∀ c v, Good u s c v → ∃ w, i.exec u.env c = mem.write? u.env (accessBytes size) w c ∧
      Word.bytes (accessBytes size) w = Word.bytes (accessBytes size) (x.word v)) :
    Nonempty (Put u ks pos mem size x s (s.emitted [.instr i])) := by
  refine ⟨⟨i, s, rfl, fun _ => rfl, hi, (Part.refl hok).mono ?_⟩⟩
  rintro c v _ _ hg _ ⟨rfl, rfl⟩
  exact ⟨rfl, ⟨fun _ _ => rfl, fun _ _ => rfl, rfl, rfl⟩, rfl, he _ _ hg⟩

theorem put_scratch {pos : Int} {j : Instr} {x : Value} (hok : Ok u ks s)
    (hi : Confined (u.scope s.frame) i) (hj : Confined (u.scope s.frame) j)
    (he : ∀ c v, Good u s c v → i.exec u.env c = some (c.setGp r11 (x.word v)))
    (he' : ∀ c : Cpu ω, j.exec u.env c = mem.write? u.env (accessBytes size) (c.gp r11) c) :
    Nonempty (Put u ks pos mem size x s (s.emitted [.instr i, .instr j])) := by
  refine ⟨⟨j, s.emitted [.instr i], (emitted_emitted s [_] [_]).symm, bank_emitted s _, hj,
    (Part.refl hok).instr hi ?_⟩⟩
  rintro _ _ c v hg ⟨rfl, rfl⟩
  refine ⟨_, _, he _ _ hg, hg.alike hok (.setScratch _ _), rfl, .setScratch _ _, rfl,
    x.word v, ?_, rfl⟩
  rw [he', Machine.Cpu.setGp_gp, Function.update_self]

theorem storeValue_put {x : Value} (pos : Int) (hok : Ok u ks s) (hm : HeapMem mem)
    (ha : accessOk x.kind size = true) (hy : Yields (storeValue mem (some x) size) req s t s') :
    Nonempty (Put u ks pos mem size x s s') := by
  have hs := accessOk_size ha
  unfold storeValue at hy
  cases x with
  | const q =>
    dsimp only at hy
    split at hy
    · rename_i hq
      cases hy.emit
      refine put_instr hok (confined_of_store rfl rfl (hm.touches _ _))
        fun c v hg => ⟨Word.ofInt (immediate q.bits), ?_, ?_⟩
      · rw [accessBytes_eq hs]
        rfl
      · rw [accessBytes_eq hs]
        by_cases h8 : size < 8
        · exact Word.bytes_immediate (by omega) q.bits
        · rw [ofInt_immediate (by simpa [h8] using hq)]
          rfl
    · rename_i hq
      cases hy.emit
      obtain rfl : size = 8 := by
        simp only [Bool.or_eq_true, decide_eq_true_eq, not_or] at hq
        omega
      exact put_scratch hok (.idle rfl rfl) (confined_of_store rfl rfl (hm.touches _ _))
        (fun _ _ _ => rfl) (fun _ => rfl)
  | box b =>
    obtain ⟨bank, s1, hb, hy⟩ := hy.bind
    obtain ⟨rfl, rfl⟩ := yields_bankOf.mp hb
    split at hy
    · rename_i r hr
      split at hy
      · rename_i hk
        cases hy.emit
        rw [show classOf b.kind = .float from if_pos hk] at hr
        obtain rfl := accessOk_float (show accessOk .float size = true from hk ▸ ha)
        exact put_instr hok (confined_of_store rfl rfl (hm.touches _ _))
          fun c v hg => ⟨_, rfl, congrArg _ (hg.reg hok hr)⟩
      · rename_i hk
        cases hy.emit
        rw [show classOf b.kind = .gp from if_neg hk] at hr
        refine put_instr hok (confined_of_store rfl rfl (hm.touches _ _))
          fun c v hg => ⟨c.gp r, ?_, congrArg _ (hg.reg hok hr)⟩
        rw [accessBytes_eq hs]
        rfl
    · split at hy
      · rename_i hin
        obtain ⟨slot, s2, hsl, hy⟩ := hy.bind
        obtain ⟨rfl, rfl⟩ := yields_frameSlot.mp hsl
        cases hy.emit
        refine put_scratch hok (confined_of_load rfl rfl (.slot ⟨b, hok.get?_of_stored hin⟩))
          (confined_of_store rfl rfl (hm.touches _ _)) (fun c v hg => ?_) fun c => ?_
        · change ((slotMem _).read? u.env 8 c).map _ = _
          rw [hg.frameSlot hin]
          rfl
        · rw [accessBytes_eq hs]
          rfl
      · exact (yields_refuse hy).elim

/-- **A value is stored** as the host is asked to. -/
theorem Put.stores {x : Value} (p : Put u ks pos mem size x s s') (hm : HeapMem mem) : PartIf u ks pos s s'
      (fun c v => ∃ world, Stores u.env.host (mem.target c) size (x.word v) c.world world)
      fun c v c' v' => Stores u.env.host (mem.target c) size (x.word v) c.world c'.world ∧ v' = v := by
  rw [p.after]
  refine (p.part.given _).instr p.confined ?_
  rintro c v c' _ ⟨world, hs⟩ hg ⟨rfl, ha, hw, w, he, hb⟩
  rename_i v
  refine ⟨{ c' with world }, v, ?_, hg.alike p.part.ok (.world c' world), hs, rfl⟩
  rw [he, hm.write, ha.target hm, hb, hw,
    show u.env.host.write _ _ c.world = some world from hs]
  rfl

/-! ## Addresses -/

def Finds (u : Setup ω) (mem : Mem) (addr : (Box → Word) → Word) (c : Cpu ω) (v : Box → Word)
    (c' : Cpu ω) (v' : Box → Word) : Prop :=
  mem.target c' = addr v ∧ c'.world = c.world ∧ ∀ b, b.id ≤ u.made → v' b = v b

theorem fieldShape_bind (hy : Yields (fieldShape op >>= f) req s a s') :
    ∃ sh, op.descr.bind Descr.field? = some sh ∧ Yields (f sh) req s a s' := by
  obtain ⟨sh, s1, hs, hf⟩ := hy.bind
  unfold fieldShape at hs
  split at hs
  · rename_i h
    cases hs
    exact ⟨_, h, hf⟩
  · exact (yields_refuse hs).elim

theorem arrayShape_bind (hy : Yields (arrayShape op >>= f) req s a s') :
    ∃ sh, op.descr.bind Descr.array? = some sh ∧ Yields (f sh) req s a s' := by
  obtain ⟨sh, s1, hs, hf⟩ := hy.bind
  unfold arrayShape at hs
  split at hs
  · rename_i h
    cases hs
    exact ⟨_, h, hf⟩
  · exact (yields_refuse hs).elim

theorem field_part (hok : Ok u ks s) (hx : ∀ b, x = some (.box b) → b ∈ ks)
    (hy : Yields (onGp (AllocM.ensure pos x k)) req s r s') (d : Int) :
    ∃ X, x = some X ∧ HeapMem (fieldMem r d) ∧
      Part u ks pos s s' (Finds u (fieldMem r d) fun v => X.word v + Word.ofInt (wrap32 d)) := by
  obtain ⟨X, rfl, ⟨t, ht, _⟩, _, ha⟩ := ensure_answers hok hx hy
  refine ⟨X, rfl, .field (ha.ok.mem_gpOrder ht) _, ha.part.mono ?_⟩
  rintro c v c' v' _ _ ⟨hq, hv, hs⟩
  refine ⟨?_, hq.world, fun b hb => hs b (hb.trans hok.made)⟩
  rw [fieldMem, target_based]
  exact congrArg (· + _) hv

/-- The displacement of the first item of an array, as the code has it. -/
def ArrayBase (sh : ArrayShape) (base : Int) : Prop := base = sh.base ∨ base = wrap32 sh.base

theorem ArrayBase.eq (h : ArrayBase sh base) (hf : fitsInt32 sh.base = true) : base = sh.base := by
  rcases h with rfl | rfl
  · rfl
  · exact wrap32_of_fits hf

theorem ofInt_itemOffset (sh : ArrayShape) (i : Word) :
    Word.ofInt (sh.itemOffset i) = Word.ofInt sh.base + i * Word.ofInt sh.item := by
  rw [ArrayShape.itemOffset, Word.ofInt_wrap64, Word.ofInt_add, Word.ofInt_mul, Word.ofInt_signed]

theorem item_part (hok : Ok u ks s) (hx : ∀ b, x = some (.box b) → b ∈ ks)
    (hi : ∀ b, i = some (.box b) → b ∈ ks) (hie : sh.item = 1 ∨ sh.item = 2 ∨ sh.item = 4 ∨ sh.item = 8)
    (hy : Yields (itemMem pos sh x i) req s mem s') :
    ∃ X I base, x = some X ∧ i = some I ∧ HeapMem mem ∧ ArrayBase sh base ∧
      Part u ks pos s s' (Finds u mem fun v =>
        X.word v + (Word.ofInt base + I.word v * Word.ofInt sh.item)) := by
  obtain ⟨r, s1, he, hy1⟩ := hy.bind
  have hin (hy1 : Yields (do
        let q ← onGp (AllocM.ensure pos i { forbidden := holders [x] })
        return Mem.indexed (gpOperand r) (gpOperand q) (sh.item % 256).toNat (wrap32 sh.base))
      req s1 mem s') : ∃ X I base, x = some X ∧ i = some I ∧ HeapMem mem ∧ ArrayBase sh base ∧
      Part u ks pos s s' (Finds u mem fun v =>
        X.word v + (Word.ofInt base + I.word v * Word.ofInt sh.item)) := by
    obtain ⟨q, s2, he', hy2⟩ := hy1.bind
    cases hy2
    obtain ⟨X, I, rfl, rfl, hr, hq, hp⟩ := pair_part hok hx hi he he'
      (fun b hb => mem_holders.mpr ⟨b, rfl, by simp [hb]⟩) (fun r => by simp [Constraint.fits])
    have hs : ((sh.item % 256).toNat : Int) = sh.item := by omega
    have hn : (sh.item % 256).toNat = 1 ∨ (sh.item % 256).toNat = 2 ∨ (sh.item % 256).toNat = 4 ∨
        (sh.item % 256).toNat = 8 := by omega
    refine ⟨X, I, wrap32 sh.base, rfl, rfl, .item (Limits.mem_gp hr) (Limits.mem_gp hq) hn _,
      .inr rfl, hp.mono ?_⟩
    rintro c v c' v' _ _ ⟨hqu, hv, hv', hsa⟩
    refine ⟨?_, hqu.world, hsa⟩
    change c'.gp r + c'.gp q * Word.ofInt ((if (sh.item % 256).toNat = 0 then 1
      else (sh.item % 256).toNat : Nat) : Int) + Word.ofInt (wrap32 sh.base) = _
    have hv : c'.gp r = X.word v := hv
    have hv' : c'.gp q = I.word v := hv'
    rw [if_neg (by omega), hs, hv, hv', UInt64.add_assoc,
      UInt64.add_comm _ (Word.ofInt (wrap32 sh.base))]
  split at hy1
  · rename_i q
    dsimp only at hy1
    split at hy1
    · -- The displacement of the item is known.
      rename_i hf
      cases hy1
      obtain ⟨X, rfl, hm, hp⟩ := field_part hok hx he (sh.itemOffset q.bits)
      refine ⟨X, .const q, sh.base, rfl, rfl, hm, .inl rfl, hp.mono ?_⟩
      rintro c v c' v' _ _ ⟨ht, hre⟩
      refine ⟨ht.trans ?_, hre⟩
      rw [wrap32_of_fits hf, ofInt_itemOffset]
      rfl
    · exact hin hy1
  · exact hin hy1

/-! ## Loads -/

inductive LoadsTo (mem : Mem) (size : Int) (signed : Bool) : RegClass → Int → Instr → Prop
  | gp (r : Int) : LoadsTo mem size signed .gp r (.load (gpOperand r) mem size signed)
  | float (r : Int) (h : size = 8) : LoadsTo mem size signed .float r (.movsdLoad (floatOperand r) mem)

def loadedWord (size : Int) (signed : Bool) (bs : List UInt8) : Word :=
  if signed then Word.signExtend (accessBytes size) (Word.ofBytes bs) else Word.ofBytes bs

theorem LoadsTo.exec (h : LoadsTo mem size signed cls r i) (hm : HeapMem mem)
    (hs : size = 1 ∨ size = 2 ∨ size = 4 ∨ size = 8) (hok : Ok u ks s)
    (hg : Good u s c v) (hr : (s.bank cls).regOf (some b) = some r) (hf : b ∉ (s.bank cls).inFrame)
    (hbs : u.env.host.read (mem.target c) (accessBytes size) c.world = some bs) :
    ∃ c', i.exec u.env c = some c' ∧ c'.world = c.world ∧
      Good u s c' (Function.update v b (loadedWord size signed bs)) := by
  cases h with
  | gp =>
    refine ⟨c.setGp r _, ?_, rfl, hg.setGp hok hr hf _⟩
    change (mem.read? u.env size.toNat c).map _ = _
    rw [hm.read, ← accessBytes_eq hs, hbs]
    rfl
  | float _ h8 =>
    subst h8
    have hw : loadedWord 8 signed bs = Word.ofBytes bs := by
      rw [loadedWord, show accessBytes 8 = 8 from rfl, Word.signExtend_eight, ite_self]
    refine ⟨c.setXmm r (Word.ofBytes bs), ?_, rfl, hw ▸ hg.setXmm hok hr hf _⟩
    change (mem.read? u.env 8 c).map _ = _
    rw [hm.read, show u.env.host.read _ 8 _ = some bs from hbs]
    rfl

/-- The code of an operation that loads: the address is found, then one instruction loads from it to
the register of the result. -/
structure Fetch (u : Setup ω) (ks : List Box) (pos : Nat) (op : Op) (s s' : State) where
  box : Box
  reg : Int
  mem : Mem
  size : Int
  signed : Bool
  addr : (Box → Word) → Word
  instr : Instr
  before : State
  result : op.result = some box
  heap : HeapMem mem
  access : accessOk box.kind size = true
  after : s' = before.emitted [.instr instr]
  loads : LoadsTo mem size signed (classOf box.kind) reg instr
  holds : (before.bank (classOf box.kind)).regOf (some box) = some reg ∧
    box ∉ (before.bank (classOf box.kind)).inFrame
  part : Part u (box :: ks) pos s before fun c v c' v' => mem.target c' = addr v ∧
    c'.world = c.world ∧ ∀ b, b.id ≤ u.made → b ≠ box → v' b = v b
  read : Granted op → ∀ v m, Agrees u m v → Eval.read? op m = some ⟨addr v, size, signed⟩

theorem loadResult_fetch (hre : Ready u ks pos op s) (hm : HeapMem mem)
    (ha : accessOk op.opcode.resultKind size = true) (hpa : Part u ks pos s s1 (Finds u mem addr))
    (hra : Granted op → ∀ v m, Agrees u m v → Eval.read? op m = some ⟨addr v, size, signed⟩)
    (hy : Yields (do
      releaseArgs pos op
      loadResult pos op.result mem size signed) req s1 t s') :
    Nonempty (Fetch u ks pos op s s') := by
  obtain ⟨b, hb⟩ := hre.has_result fun h => by
    rw [h] at ha
    cases ha
  rw [← (hre.result b hb).2.2] at ha
  obtain ⟨_, s2, hrl, hy⟩ := hy.bind
  have hsi := releaseArgs_silent hpa.ok hrl
  unfold loadResult at hy
  obtain ⟨_, hb', hy⟩ := hy.needBind
  cases hb.symm.trans hb'
  rw [hb] at hy
  obtain ⟨r, i, s3, hrq, rfl, hl⟩ : ∃ r i s3,
      Yields (onBank (classOf b.kind) (AllocM.allocate pos (some b) {})) req s2 r s3 ∧
        s' = s3.emitted [.instr i] ∧ LoadsTo mem size signed (classOf b.kind) r i := by
    unfold classOf
    split at hy <;> rename_i hk
    · obtain ⟨r, s3, hrq, hy⟩ := hy.bind
      rw [if_pos hk]
      exact ⟨r, _, s3, hrq, hy.emit, .float r (accessOk_float (hk ▸ ha))⟩
    · obtain ⟨r, s3, hrq, hy⟩ := hy.bind
      rw [if_neg hk]
      exact ⟨r, _, s3, hrq, hy.emit, .gp r⟩
  obtain ⟨hr0, hf, _, han⟩ :=
    allocate_answers (hre.grow hb hsi.ok) (hre.unplaced hb hsi.ok _) rfl hrq
  refine ⟨⟨b, r, mem, size, signed, addr, i, s3, hb, hm, ha, rfl, hl, ⟨hr0, hf⟩,
    (((hre.part hb hpa).trans (hre.part hb hsi.part)).trans han.part).mono ?_, hra⟩⟩
  -- Allocating the register leaves those of the address alone.
  rintro c v c' v' _ _ ⟨_, _, ⟨c1, v1, ⟨ht, hw, hs⟩, rfl, rfl⟩, hq, ⟨w, rfl⟩, hrg⟩
  refine ⟨?_, hq.world.trans hw, fun b' hb' hne => ?_⟩
  · rw [← ht]
    refine hm.target_congr fun r hr => hrg (Reg.gp r) ?_
    simpa [Reg.gp] using (Machine.HeapMem.not_special hr).2
  · rw [Function.update_of_ne hne, hs b' hb']

theorem LoadsTo.confined (h : LoadsTo mem size signed cls r i) (hm : HeapMem mem)
    (σ : Scope) : Confined σ i := by
  cases h <;> exact confined_of_load rfl rfl (hm.touches _ _)

/-- **A result is loaded** as the host is asked to. -/
theorem Fetch.lowered (f : Fetch u ks pos op s s') (hre : Ready u ks pos op s) :
    Lowered u ks pos op next s s' := by
  obtain ⟨b, r, mem, size, signed, addr, i, s1, hb, hm, hac, rfl, hl, ⟨hrg, hf⟩, hp,
    hr⟩ := f
  refine PartIf.performed (e := fun world v =>
    (u.env.host.read (addr v) (accessBytes size) world).map fun bs =>
      (loadedWord size signed bs, world)) ?_ hre ?_ fun he v m w m' ha hra => ?_
  · rw [hb]
    refine (hp.given _).instr (hl.confined hm _) ?_
    rintro c v c' v' hs hg' ⟨ht, hw, hsa⟩
    obtain ⟨bs, hbs⟩ := Option.isSome_iff_exists.mp (Option.isSome_map.symm.trans hs)
    obtain ⟨c'', hc'', hw'', hg''⟩ := hl.exec hm (accessOk_size hac) hp.ok hg' hrg
      hf (by rw [ht, hw, hbs])
    refine ⟨c'', _, hc'', hg'', loadedWord size signed bs, ?_, fun b' hb' => ?_⟩
    · dsimp only
      rw [hbs, hw'', hw]
      rfl
    · by_cases hne : b' = b
      · subst hne
        rw [Function.update_self, if_pos rfl]
      · rw [Function.update_of_ne hne, if_neg (by simpa [eq_comm] using hne), hsa b' hb' hne]
  · rintro b' hb'
    cases hb.symm.trans hb'
    rw [InRegister, bank_emitted]
    exact Option.isSome_iff_exists.mpr ⟨r, hrg⟩
  · have hr := hr he v m ha
    obtain ⟨world, hto, rfl⟩ := hra.heap_inv (Eval.heap_of_read hr)
    obtain ⟨⟨bs, hbs, rfl⟩, rfl⟩ := hto.read_inv hr
    dsimp only
    rw [hbs]
    rfl

/-! ## Reading fields and items -/

theorem getfield_fetch (hr : Ready u ks pos op s)
    (ho : op.opcode = .getfieldI ∨ op.opcode = .getfieldR ∨ op.opcode = .getfieldF)
    (hy : Yields (getfield pos op) req s t s') : Nonempty (Fetch u ks pos op s s') := by
  obtain ⟨vals, hv, ht⟩ := hr.typed
  obtain ⟨sh, hsh, hac, hk, _⟩ := ht.field (by rcases ho with ho | ho | ho <;> simp [ho])
  unfold getfield at hy
  obtain ⟨_, hsh', hy1⟩ := fieldShape_bind hy
  cases hsh.symm.trans hsh'
  obtain ⟨x, hx, hy2⟩ := hy1.argBind
  obtain ⟨r, s3, hen, hl⟩ := hy2.bind
  obtain ⟨X, rfl, hm, hp⟩ := field_part hr.ok
    (hr.arg_known (mem_of_getElem? hx)) hen sh.offset
  refine loadResult_fetch hr hm ?_ hp (fun he v m ha => ?_) hl
  · rwa [← hk (by rcases ho with ho | ho | ho <;> simp [ho])]
  · rw [wrap32_of_fits ((he (by
      rcases ho with ho | ho | ho <;> simp [isSteady, ho, Opcode.needsDescr])).field sh hsh),
      ← hr.argWord ha hx]
    rcases ho with ho | ho | ho <;> rw [Eval.read?, ho, hsh] <;> rfl

theorem arraylen_fetch (hr : Ready u ks pos op s) (ho : op.opcode = .arraylen)
    (hy : Yields (arraylen pos op) req s t s') : Nonempty (Fetch u ks pos op s s') := by
  unfold arraylen at hy
  obtain ⟨sh, hsh, hy1⟩ := arrayShape_bind hy
  obtain ⟨x, hx, hy2⟩ := hy1.argBind
  obtain ⟨r, s3, hen, hl⟩ := hy2.bind
  obtain ⟨X, rfl, hm, hp⟩ := field_part hr.ok
    (hr.arg_known (mem_of_getElem? hx)) hen sh.length
  refine loadResult_fetch hr hm (by rw [ho]; rfl) hp (fun he v m ha => ?_) hl
  rw [wrap32_of_fits ((he (by simp [isSteady, ho, Opcode.needsDescr])).array sh hsh).2,
    ← hr.argWord ha hx, Eval.read?, ho, hsh]
  rfl

theorem itemAddr_eq (sh : ArrayShape) (a i : Word) :
    Eval.itemAddr sh a i = a + (Word.ofInt sh.base + i * Word.ofInt sh.item) := by
  rw [Eval.itemAddr, ofInt_itemOffset]

theorem getarrayitem_fetch (hr : Ready u ks pos op s)
    (ho : op.opcode = .getarrayitemI ∨ op.opcode = .getarrayitemR ∨ op.opcode = .getarrayitemF)
    (hy : Yields (getarrayitem pos op) req s t s') : Nonempty (Fetch u ks pos op s s') := by
  obtain ⟨vals, hv, ht⟩ := hr.typed
  obtain ⟨sh, hsh, hac, hk, _⟩ := ht.array (by rcases ho with ho | ho | ho <;> simp [ho])
  unfold getarrayitem at hy
  obtain ⟨_, hsh', hy1⟩ := arrayShape_bind hy
  cases hsh.symm.trans hsh'
  obtain ⟨x, hx, hy2⟩ := hy1.argBind
  obtain ⟨i, hi, hy3⟩ := hy2.argBind
  obtain ⟨mem, s4, hie, hl⟩ := hy3.bind
  obtain ⟨X, I, base, rfl, rfl, hm, hba, hp⟩ := item_part hr.ok
    (hr.arg_known (mem_of_getElem? hx)) (hr.arg_known (mem_of_getElem? hi))
    (accessOk_size hac) hie
  refine loadResult_fetch hr hm ?_ hp (fun he v m ha => ?_) hl
  · rwa [← hk (by rcases ho with ho | ho | ho <;> simp [ho])]
  · rw [hba.eq ((he (by
      rcases ho with ho | ho | ho <;> simp [isSteady, ho, Opcode.needsDescr])).array sh hsh).1,
      ← hr.argWord ha hx, ← hr.argWord ha hi,
      ← itemAddr_eq]
    rcases ho with ho | ho | ho <;> rw [Eval.read?, ho, hsh] <;> rfl

/-! ## Stores to fields and items -/

theorem passed_callback (hg : Good u s c v) (ha : a.kind ≠ .float)
    (h : Passes gp xmm 0 0 (passed c v [.frame, a])) : gp rdi = u.env.frameBase ∧ gp rsi = a.read c v := by
  rw [passed, map_cons, map_cons, Passes, if_neg (by simp [CallArg.frame, CallArg.kind]),
    Passes, if_neg ha] at h
  obtain ⟨⟨r, hr, hrd⟩, ⟨q, hq, hrs⟩, _⟩ := h
  cases hr
  cases hq
  exact ⟨hrd.trans hg.base, hrs⟩

theorem writeBarrier_marshals (hh : u.req.hooks.barrier ≠ 0) (hr : Ready u ks pos op s)
    (hx : op.args[0]? = some (some X)) (hk : ∀ y ∈ keep, y ∈ op.args)
    (hy : Yields (writeBarrier pos (some X) keep) u.req s t s') :
    ∃ s1, (∀ b, some (.box b) ∈ keep ++ [some X] → b ∈ (s1.bank (classOf b.kind)).inFrame) ∧
      Part u ks pos s s1 (fun c v c' v' => Quiet c c' ∧ v' = v) ∧
      Marshals u ks pos (.word u.req.hooks.barrier) [.frame, .value X] none s1 s' := by
  unfold writeBarrier at hy
  rw [yields_read_bind] at hy
  dsimp only at hy
  rw [if_pos hh] at hy
  obtain ⟨_, s1, hs, hc⟩ := hy.bind
  have hm (b : Box) (hb : some (.box b) ∈ keep ++ [some X]) : some (.box b) ∈ op.args :=
    (mem_append.mp hb).elim (hk _) fun hb =>
      mem_singleton.mp hb ▸ mem_of_getElem? hx
  obtain ⟨hbr, hke, hp⟩ := keepAcrossCall_part pos hr.ok
    (fun b hb => hr.args b (hm b hb)) hs
  exact ⟨s1, hke fun b hb => hr.live b (hm b hb), hp,
    nativeCall_marshals hp.ok (hbr hr.brief) (by simp) (by simp) (by simp) hc⟩

/-- **A store of a reference is announced.** -/
theorem announce_part (hr : Ready u ks pos op s) (hx : op.args[0]? = some (some X))
    (hre : X.kind ≠ .float) (hke : ∀ y ∈ keep, y ∈ op.args)
    (hy : Yields (if kind = .ref then writeBarrier pos (some X) keep >>= k else k ()) u.req s t s') :
    ∃ s1, Yields (k ()) u.req s1 t s' ∧
      (kind = .ref → Yields (writeBarrier pos (some X) keep) u.req s () s1) ∧
      Part u ks pos s s1 fun c v c' v' =>
        v' = v ∧ c'.world = announced u.env.host kind (X.word v) c.world := by
  split at hy
  · rename_i hk
    subst hk
    obtain ⟨_, s1, hb, hy1⟩ := hy.bind
    refine ⟨s1, hy1, fun _ => hb, ?_⟩
    by_cases hh : u.req.hooks.barrier = 0
    · unfold writeBarrier at hb
      rw [yields_read_bind] at hb
      dsimp only at hb
      rw [if_neg (not_not.mpr hh)] at hb
      cases hb
      refine (Part.refl hr.ok).mono ?_
      rintro c v _ _ _ _ ⟨rfl, rfl⟩
      rw [announced, if_pos rfl, u.implements.noBarrier hh]
      exact ⟨rfl, rfl⟩
    · obtain ⟨s2, -, hpa, hm⟩ := writeBarrier_marshals hh hr hx hke hb
      obtain ⟨f, hf, hna⟩ := u.implements.barrier hh
      have hc := hm.part.part fun c v hg gp xmm hp => by
        obtain ⟨a, y, hn⟩ := hna gp xmm c.world (passed_callback (a := .value X) hg hre hp).1
        exact Option.isSome_iff_exists.mpr ⟨_, hn⟩
      refine (hpa.trans (hc.mono (Q := fun c v c' v' =>
        v' = v ∧ c'.world = f (X.word v) c.world) ?_)).mono ?_
      · rintro c v c' v' hg _ ⟨a, y, gp, xmm, hp, hn, hv⟩
        obtain ⟨hrd, hrs⟩ := passed_callback (a := .value X) hg hre hp
        obtain ⟨a', y', hn'⟩ := hna gp xmm c.world hrd
        refine ⟨funext fun b => by simpa using hv b, ?_⟩
        have := hn'.symm.trans hn
        rw [hrs] at this
        simp only [Option.some.injEq, Prod.mk.injEq] at this
        exact this.2.2.symm
      · rintro c v c' v' _ _ ⟨c1, v1, ⟨hq, rfl⟩, rfl, hw⟩
        rw [hw, hq.world, announced, if_pos rfl, hf]
        exact ⟨rfl, rfl⟩
  · rename_i hk
    refine ⟨s, hy, fun h => absurd h hk, (Part.refl hr.ok).mono ?_⟩
    rintro c v _ _ _ _ ⟨rfl, rfl⟩
    exact ⟨rfl, (if_neg hk).symm⟩

/-- The code of an operation that stores: a reference is announced, the address is found, and then the
value is stored. -/
structure Deposit (u : Setup ω) (ks : List Box) (pos : Nat) (op : Op) (s s' : State) where
  kind : Kind
  object : Value
  keep : List (Option Value)
  mem : Mem
  size : Int
  addr : (Box → Word) → Word
  value : Value
  told : State
  found : State
  result : op.result = none
  object_eq : op.args[0]? = some (some object)
  value_mem : some value ∈ op.args
  keep_mem : ∀ y ∈ keep, y ∈ op.args
  barrier : kind = .ref → Yields (writeBarrier pos (some object) keep) u.req s () told
  announce : Part u ks pos s told fun c v c' v' =>
    v' = v ∧ c'.world = Eval.announced u.env.host kind (object.word v) c.world
  finds : Part u ks pos told found (Finds u mem addr)
  heap : HeapMem mem
  put : Put u ks pos mem size value found s'
  write : Granted op → ∀ v m, Agrees u m v →
    Eval.write? op m = some ⟨kind, object.word v, addr v, size, value.word v⟩

/-- **A store was lowered** once it is announced, its address found and its value stored. -/
theorem Deposit.lowered (d : Deposit u ks pos op s s') (hr : Ready u ks pos op s) :
    Lowered u ks pos op next s s' := by
  obtain ⟨kind, O, keep, mem, size, addr, X, s1, s2, hn, hO, hX, -, -, han, hp, hme, put,
    hwr⟩ := d
  have hm := hr.arg_made hX
  refine PartIf.performed (e := fun world v => (u.env.host.write (addr v)
    (Word.bytes (accessBytes size) (X.word v)) (announced u.env.host kind (O.word v) world)).map
      fun world' => (0, world')) ?_ hr (by simp [hn]) fun he v m w m' ha hra => ?_
  · rw [hn]
    refine ((((han.trans hp).given _).trans (put.stores hme) ?_).mono (fun _ _ h => h) ?_)
    · rintro c v c2 v2 hso ⟨c1, v1, ⟨rfl, hwo⟩, ht, hwo', hs⟩
      obtain ⟨world, hw⟩ := Option.isSome_iff_exists.mp (Option.isSome_map.symm.trans hso)
      refine ⟨world, ?_⟩
      rw [Stores, ht, hwo', hwo, word_congr fun b hb => hs b (hm b hb), hw]
    · rintro c v c' v' _ _ _ ⟨c2, _, ⟨c1, v1, ⟨rfl, hwo⟩, ht, hwo', hs⟩, hpu, rfl⟩
      refine ⟨0, ?_, fun b hb => by simpa using hs b hb⟩
      rw [Stores, ht, hwo', hwo, word_congr fun b hb => hs b (hm b hb)] at hpu
      dsimp only
      rw [hpu]
      rfl
  · have hwr := hwr he v m ha
    obtain ⟨world, hto, rfl⟩ := hra.heap_inv (Eval.heap_of_write hwr)
    obtain ⟨hst, rfl⟩ := hto.write_inv hwr
    dsimp only
    rw [show u.env.host.write _ _ _ = _ from hst]
    rfl

theorem setfield_deposit (hr : Ready u ks pos op s) (ho : op.opcode = .setfield)
    (hy : Yields (setfield pos op) u.req s t s') : Nonempty (Deposit u ks pos op s s') := by
  obtain ⟨vals, hv, ht⟩ := hr.typed
  obtain ⟨sh, hsh, hac, _, hki⟩ := ht.field (by simp [ho])
  unfold setfield at hy
  obtain ⟨_, hsh', hy1⟩ := fieldShape_bind hy
  cases hsh.symm.trans hsh'
  obtain ⟨x, hx, hy2⟩ := hy1.argBind
  obtain ⟨y, hyv, hy3⟩ := hy2.argBind
  obtain ⟨X, rfl⟩ := hr.arg_some hx
  obtain ⟨Y, rfl⟩ := hr.arg_some hyv
  have hre : X.kind = .ref :=
    hr.arg_kind hx (by rw [ho]; rfl) (by rw [ho]; rfl) (by decide)
  have hk : ∀ y ∈ [some Y], y ∈ op.args := by simpa using mem_of_getElem? hyv
  obtain ⟨s4, hy4, hb, han⟩ := announce_part hr hx (by simp [hre]) hk hy3
  obtain ⟨r, s5, hen, hs⟩ := hy4.bind
  obtain ⟨_, ⟨⟩, hm, hp⟩ := field_part han.ok
    (hr.arg_known (mem_of_getElem? hx)) hen sh.offset
  have hac : accessOk Y.kind sh.size = true := by rwa [hki ho Y (by simpa [hv] using hyv)]
  obtain ⟨put⟩ := storeValue_put pos hp.ok hm hac hs
  refine ⟨⟨sh.kind, X, [some Y], _, sh.size, _, Y, s4, s5, hr.void.mpr (by rw [ho]; rfl), hx,
    mem_of_getElem? hyv, hk, hb, han, hp, hm, put, fun he v m ha => ?_⟩⟩
  rw [wrap32_of_fits ((he (by simp [isSteady, ho, Opcode.needsDescr])).field sh hsh),
    ← hr.argWord ha hx, ← hr.argWord ha hyv,
    Eval.write?, ho, hsh]
  rfl

theorem setarrayitem_deposit (hr : Ready u ks pos op s) (ho : op.opcode = .setarrayitem)
    (hy : Yields (setarrayitem pos op) u.req s t s') : Nonempty (Deposit u ks pos op s s') := by
  obtain ⟨vals, hv, ht⟩ := hr.typed
  obtain ⟨sh, hsh, hac, _, hki⟩ := ht.array (by simp [ho])
  unfold setarrayitem at hy
  obtain ⟨_, hsh', hy1⟩ := arrayShape_bind hy
  cases hsh.symm.trans hsh'
  obtain ⟨x, hx, hy2⟩ := hy1.argBind
  obtain ⟨i, hi, hy3⟩ := hy2.argBind
  obtain ⟨y, hyv, hy4⟩ := hy3.argBind
  obtain ⟨X, rfl⟩ := hr.arg_some hx
  obtain ⟨Y, rfl⟩ := hr.arg_some hyv
  have hre : X.kind = .ref :=
    hr.arg_kind hx (by rw [ho]; rfl) (by rw [ho]; rfl) (by decide)
  have hk : ∀ y ∈ [i, some Y], y ∈ op.args := by
    simpa using ⟨mem_of_getElem? hi, mem_of_getElem? hyv⟩
  obtain ⟨s5, hy5, hba, han⟩ := announce_part hr hx (by simp [hre]) hk hy4
  obtain ⟨mem, s6, hie, hs⟩ := hy5.bind
  obtain ⟨_, I, base, ⟨⟩, rfl, hm, hb, hp⟩ := item_part han.ok
    (hr.arg_known (mem_of_getElem? hx)) (hr.arg_known (mem_of_getElem? hi))
    (accessOk_size hac) hie
  have hac : accessOk Y.kind sh.item = true := by rwa [hki ho Y (by simpa [hv] using hyv)]
  obtain ⟨put⟩ := storeValue_put pos hp.ok hm hac hs
  refine ⟨⟨sh.kind, X, [some I, some Y], mem, sh.item, _, Y, s5, s6,
    hr.void.mpr (by rw [ho]; rfl), hx, mem_of_getElem? hyv, hk, hba, han, hp, hm,
    put, fun he v m ha => ?_⟩⟩
  rw [hb.eq ((he (by simp [isSteady, ho, Opcode.needsDescr])).array sh hsh).1,
    ← hr.argWord ha hx, ← hr.argWord ha hi,
    ← hr.argWord ha hyv, ← itemAddr_eq, Eval.write?, ho, hsh]
  rfl

end Lowering

end TraceCompiler
