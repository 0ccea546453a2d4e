import TraceCompiler.Proofs.Lowering.Comparison
import TraceCompiler.Proofs.Lowering.Heap

/-! # When guards fail

The check of a guard ends in a branch, which is never taken, always, or on a condition of the flags
(`Branch.fails`).
-/

namespace TraceCompiler.Lowering

open Machine (Cpu Setting Falls Fragment Quiet Instr Mem HeapMem Cond AluOp)
open CompileM
open Eval (Held Loads)
open Machine.Reg (r11)

variable {ω : Type} {u : Setup ω} {ks : List Box} {pos : Nat} {s s' : State} {c c' : Cpu ω}
  {v v' : Box → Word} {b : Box} {r : Int} {op : Op} {m : Eval.Machine ω} {br : Branch}
  {x y : Option Value} {req : Request} {holds failOnZero : Bool} {X : Value}
  {R : Cpu ω → (Box → Word) → Cpu ω → (Box → Word) → Prop} {q : Const}

def Branch.fails : Branch → Machine.Flags → Bool
  | .never, _ => false
  | .always, _ => true
  | .when c, f => c.holds f

/-- What is known before the guard at `pos` is lowered. -/
structure GuardReady (u : Setup ω) (ks : List Box) (pos : Nat) (op : Op) (s : State) :
    Prop where
  ok : Ok u ks s
  guard : op.opcode.isGuard = true
  typed : ∃ vals : List Value, op.args = vals.map some ∧ op.Typed vals
  args : ∀ b, some (.box b) ∈ op.args → b ∈ ks
  fails : ∃ vals : List Value, op.failArgs = vals.map some
  failArgs : ∀ b, some (.box b) ∈ op.failArgs → b ∈ ks
  fused : ∀ f ∈ s.fused, ∃ b, f.result = some b ∧
    (op.opcode = .guardTrue ∨ op.opcode = .guardFalse) ∧ op.args[0]? = some (some (.box b))

/-- A processor and a run at the same point of a trace: boxes have the same values, the world is the
same, and the flags are what the next guard takes them to be. -/
structure InStep (u : Setup ω) (pos : Nat) (s : State) (c : Cpu ω) (v : Box → Word)
    (m : Eval.Machine ω) : Prop where
  agrees : Agrees u m v
  world : m.world = c.world
  overflow : s.flagsFrom = pos - 1 → c.flags.overflow = m.overflow
  fused : ∀ f ∈ s.fused, ∀ b ∈ f.result, f.cond.holds c.flags = decide (v b ≠ 0)

/-- What the check of a guard has done: its branch is taken if `f` holds. -/
def Tests (u : Setup ω) (br : Branch) (f : (Box → Word) → Bool) (c : Cpu ω) (v : Box → Word)
    (c' : Cpu ω) (v' : Box → Word) : Prop :=
  br.fails c'.flags = f v ∧ c'.world = c.world ∧ ∀ b, b.id ≤ u.made → v' b = v b

theorem Decides.tests {cond : Cond} {f : (Box → Word) → Bool}
    (h : Decides u cond f c v c' v') : Tests u (.when cond) f c v c' v' := h

theorem Part.tests_refl (hok : Ok u ks s) (f : Bool) :
    Part u ks pos s s (Tests u (if f then .always else .never) fun _ => f) := by
  refine (Part.refl hok).mono ?_
  rintro c v _ _ _ _ ⟨rfl, rfl⟩
  exact ⟨by cases f <;> rfl, rfl, fun _ _ => rfl⟩

/-! ## Tests for zero -/

theorem zeroTest_part (hok : Ok u ks s) (hx : ∀ b, x = some (.box b) → b ∈ ks)
    (hy : Yields (zeroTest pos x failOnZero) req s br s') : ∃ X, x = some X ∧
      Part u ks pos s s' (Tests u br fun v => decide (X.word v = 0) == failOnZero) := by
  have ht (hy : Yields (do
      testValue pos x
      return Branch.when (if failOnZero then .e else .ne)) req s br s') : ∃ X, x = some X ∧
      Part u ks pos s s' (Tests u br fun v => decide (X.word v = 0) == failOnZero) := by
    obtain ⟨_, s1, ht, hy1⟩ := hy.bind
    cases hy1
    obtain ⟨X, rfl, -, hp⟩ := testValue_part hok hx ht
    refine ⟨X, rfl, hp.mono fun c v c' v' _ _ h => ?_⟩
    cases failOnZero with
    | true => simpa using h.tests
    | false =>
      rw [show (fun v => decide (X.word v = 0) == false) = fun v => !decide (X.word v = 0) by simp]
      exact h.negate.tests
  unfold zeroTest at hy
  obtain _ | b | q := x
  · exact ht hy
  · exact ht hy
  · cases hy
    exact ⟨_, rfl, .tests_refl hok (decide (q.bits = 0) == failOnZero)⟩

/-! ## Tests for values -/

theorem floatBits_part (hok : Ok u ks s) (hy : Yields (match s.float.regOf (some b) with
      | some r => emitInstr (.movqFromXmm scratch (floatOperand r))
      | none => if b ∈ s.float.inFrame then do
          emitInstr (.movLoad scratch (slotMem (← frameSlot b)))
        else refuse (.alloc (.noLocation b))) req s t s') :
    Part u ks pos s s' fun c v c' v' =>
      c'.gp r11 = v b ∧ c'.world = c.world ∧ v' = v := by
  cases hr : s.float.regOf (some b) with
  | some r =>
    simp only [hr] at hy
    cases hy.emit
    have hr : (s.bank .float).regOf (some b) = some r := hr
    refine (Part.refl hok).instr (.idle rfl rfl) ?_
    rintro _ _ c v hg ⟨rfl, rfl⟩
    refine ⟨c.setGp r11 (c.xmm r), v, rfl, hg.alike hok (.setScratch c _), ?_, rfl, rfl⟩
    rw [Cpu.setGp_gp, Function.update_self]
    exact hg.reg hok hr
  | none =>
    simp only [hr] at hy
    split at hy
    · rename_i hm
      obtain ⟨slot, s1, hs, he⟩ := hy.bind
      obtain ⟨rfl, rfl⟩ := yields_frameSlot.mp hs
      cases he.emit
      have hm : b ∈ (s1.bank .float).inFrame := hm
      have ht : Touches (u.scope s1.frame).reads (u.scope s1.frame).values
          (slotMem ((s1.frame.get? b).getD ⟨0⟩)) := .slot ⟨b, hok.get?_of_stored hm⟩
      refine (Part.refl hok).instr
        (confined_of_load rfl rfl ht) ?_
      rintro _ _ c v hg ⟨rfl, rfl⟩
      refine ⟨c.setGp r11 (v b), v, ?_, hg.alike hok (.setScratch c _),
        by rw [Cpu.setGp_gp, Function.update_self], rfl, rfl⟩
      change ((slotMem _).read? u.env 8 c).map _ = _
      rw [hg.frameSlot hm]
      rfl
    · exact (yields_refuse hy).elim

theorem Part.compared_scratch (src : IntSource) {f g : (Box → Word) → Word}
    (h : Part u ks pos s s' R) (hin : Confined (u.scope s'.frame) (aluInstr .cmp scratch src))
    (hR : ∀ c v c' v', R c v c' v' → c'.gp r11 = f v ∧ src.Reads u.env c' (g v) ∧
      c'.world = c.world ∧ ∀ b, b.id ≤ u.made → v' b = v b) :
    Part u ks pos s (s'.emitted [.instr (aluInstr .cmp scratch src)])
      (Tests u (.when .ne) fun v => !decide (f v = g v)) := by
  refine h.instr hin fun c v c' v' hg' hr => ?_
  obtain ⟨hv, hre, hw, hs⟩ := hR c v c' v' hr
  refine ⟨_, v', exec_aluInstr (r := r11) hre (by decide), ?_, ?_, hw, hs⟩
  · rw [alu_cmp]
    exact hg'.alike h.ok (.setFlags c' _)
  · rw [alu_cmp, hv]
    exact Cond.holds_ne

theorem compareFloat_part (hok : Ok u ks s)
    (hy : Yields (compareFloat pos b (some (.const q))) req s br s') :
    Part u ks pos s s' (Tests u br fun v => !decide (v b = q.bits)) := by
  unfold compareFloat at hy
  rw [yields_get_bind] at hy
  obtain ⟨_, s1, hbi, hy1⟩ : ∃ t s1, Yields (match s.float.regOf (some b) with
      | some r => emitInstr (.movqFromXmm scratch (floatOperand r))
      | none => if b ∈ s.float.inFrame then do
          emitInstr (.movLoad scratch (slotMem (← frameSlot b)))
        else refuse (.alloc (.noLocation b))) req s t s1 ∧ Yields (do
      if Word.fitsInt32 q.bits then emitInstr (.aluImm .cmp scratch (immediate q.bits))
      else
        let r ← onGp (AllocM.ensure pos (some (.const ⟨.int, q.bits⟩)) {})
        emitInstr (.alu .cmp scratch (gpOperand r))
      return Branch.when .ne) req s1 br s' := by
    cases hrg : s.float.regOf (some b) with
    | some r =>
      simp only [hrg] at hy ⊢
      exact hy.bind
    | none =>
      simp only [hrg] at hy ⊢
      exact yields_ite_bind.mp hy
  have hp : Part u ks pos s s1 _ := floatBits_part hok hbi
  split at hy1
  · rename_i hf
    have hre := hy1.emitBind
    cases hre
    refine hp.compared_scratch (.imm (immediate q.bits)) (g := fun _ => q.bits)
      (.idle rfl rfl) ?_
    rintro c v c' v' ⟨hv, hw, rfl⟩
    exact ⟨hv, ofInt_immediate hf, hw, fun _ _ => rfl⟩
  · obtain ⟨r, s2, hen, hy2⟩ := hy1.bind
    have hre := hy2.emitBind
    cases hre
    obtain ⟨_, ⟨⟩, ⟨t, ht, _⟩, _, ha⟩ := ensure_answers hp.ok (by simp) hen
    have hr := ha.ok.mem_gpOrder ht
    refine (hp.trans ha.part_scratch).compared_scratch (.reg (gpOperand r))
      (g := fun _ => q.bits) (.idle rfl rfl) ?_
    rintro c v c' v' ⟨c1, _, ⟨hv, hw, rfl⟩, hq, hs, hv', hsa⟩
    exact ⟨hs.trans hv, hv', hq.world.trans hw, fun b hb => hsa b (hb.trans hp.ok.made)⟩

theorem compareValue_part (hok : Ok u ks s) (hx : ∀ b, X = .box b → b ∈ ks)
    (hy : Yields (compareValue pos (some X) (some (.const q))) u.req s br s') :
    Part u ks pos s s' (Tests u br fun v => !decide (X.word v = q.bits)) := by
  unfold compareValue at hy
  cases X with
  | const p =>
    cases hy
    have hbr : (if q.bits = p.bits then Branch.never else .always) =
        if !decide (p.bits = q.bits) then .always else .never := by
      by_cases h : q.bits = p.bits
      · simp [h]
      · simp [h, Ne.symm h]
    rw [hbr]
    exact .tests_refl hok _
  | box b =>
    dsimp only [isConst] at hy
    simp only [Bool.false_eq_true, if_false] at hy
    split at hy
    · exact compareFloat_part hok hy
    · obtain ⟨r, s1, he, hy1⟩ := hy.bind
      obtain ⟨src, s2, hs, hy2⟩ := hy1.bind
      obtain ⟨_, s3, hc, hre⟩ := hy2.bind
      cases yields_compareWith.mp hc
      cases hre
      obtain ⟨_, _, ⟨⟩, ⟨⟩, hr, ha, hp⟩ := operands_part hok
        (fun b' hb' => hx b' (Option.some.inj hb')) (by simp) he hs fun b' hb' => by
          cases hb'
          exact ⟨List.mem_cons_self, by simp⟩
      exact (hp.compared hr ha fun v p => Cond.holds_ne).mono
        fun _ _ _ _ _ _ h => h.tests

/-! ## Tests for classes -/

/-- What looking at the header of an object has done, if the object can be read. -/
def Classifies (u : Setup ω) (X Y : Value) (c : Cpu ω) (v : Box → Word) (c' : Cpu ω)
    (v' : Box → Word) : Prop :=
  (∀ w, Loads u.env.host (X.word v) 8 false c.world w →
    Cond.ne.holds c'.flags = !decide (w = Y.word v)) ∧
    c'.world = c.world ∧ ∀ b, b.id ≤ u.made → v' b = v b

def CanLoad (u : Setup ω) (X : Value) (c : Cpu ω) (v : Box → Word) : Prop :=
  ∃ w, Loads u.env.host (X.word v) 8 false c.world w

/-- The header of an object, in the register `r`, is compared by one instruction. -/
theorem PartIf.classifies (h : Part u ks pos s s' R) (hr : r ∈ gpOrder)
    (hin : Confined (u.scope s'.frame) i)
    (hR : ∀ c v c' v', Good u s' c' v' → R c v c' v' → c'.gp r = X.word v ∧
      c'.world = c.world ∧ (∀ b, b.id ≤ u.made → v' b = v b) ∧
      ∀ w, (Mem.based (gpOperand r)).read? u.env 8 c' = some w → ∃ fl,
        i.exec u.env c' = some (c'.setFlags fl) ∧ Cond.ne.holds fl = !decide (w = Y.word v)) :
    PartIf u ks pos s (s'.emitted [.instr i]) (CanLoad u X) (Classifies u X Y) := by
  refine (h.given _).instr hin fun c v c' v' ⟨w, bs, hre, hw⟩ hg' hr' => ?_
  obtain ⟨hv, hwo, hs, he⟩ := hR c v c' v' hg' hr'
  have hm : (Mem.based (gpOperand r)).read? u.env 8 c' = some w := by
    rw [(HeapMem.field hr 0).read, target_based, hv, hwo, show Word.ofInt 0 = 0 from rfl, UInt64.add_zero,
      show u.env.host.read _ 8 _ = _ from hre, hw]
    rfl
  obtain ⟨fl, hi, hfl⟩ := he w hm
  refine ⟨_, v', hi, hg'.alike h.ok (.setFlags c' fl), fun w' hw' => ?_, hwo, hs⟩
  obtain ⟨bs', hre', rfl⟩ := hw'
  cases hre.symm.trans hre'
  rw [hw] at hfl
  exact hfl

theorem compareClass_part (hok : Ok u ks s) (hx : ∀ b, x = some (.box b) → b ∈ ks)
    (hyk : ∀ b, y = some (.box b) → b ∈ ks) (hy : Yields (compareClass pos x y) req s br s') :
    ∃ X Y, x = some X ∧ y = some Y ∧ br = .when .ne ∧
      PartIf u ks pos s s' (CanLoad u X) (Classifies u X Y) := by
  unfold compareClass at hy
  obtain ⟨r, s1, hen, hy1⟩ := hy.bind
  dsimp only at hy1
  have hbo (hy1 : Yields (do
      let rc ← onGp (AllocM.ensure pos y { forbidden := holders [x] })
      emitInstr (.aluLoad .cmp (gpOperand rc) (Mem.based (gpOperand r)))
      return Branch.when .ne) req s1 br s') : ∃ X Y, x = some X ∧ y = some Y ∧ br = .when .ne ∧
      PartIf u ks pos s s' (CanLoad u X) (Classifies u X Y) := by
    obtain ⟨rc, s2, hen', hy2⟩ := hy1.bind
    have hre := hy2.emitBind
    cases hre
    obtain ⟨X, Y, rfl, rfl, hr, hrc, hp⟩ := pair_part hok hx hyk hen hen'
      (fun b hb => mem_holders.mpr ⟨b, rfl, hb ▸ List.mem_cons_self⟩) (fun _ => rfl)
    have hr := Limits.mem_gp hr
    have hto := (HeapMem.field hr 0).touches (u.scope s2.frame).reads (u.scope s2.frame).values
    refine ⟨X, Y, rfl, rfl, rfl, PartIf.classifies hp hr (confined_of_load rfl rfl hto) ?_⟩
    rintro c v c' v' _ ⟨hq, hX, hY, hs⟩
    refine ⟨hX, hq.world, hs, fun w hw => ?_⟩
    have hY : c'.gp rc = Y.word v := hY
    refine ⟨AluOp.cmp.flags (c'.gp rc) w (u.env.junk c').2.2.parity, ?_, ?_⟩
    · change ((Mem.based (gpOperand r)).read? u.env 8 c').map _ = _
      rw [hw]
      rfl
    · rw [hY, Cond.holds_ne]
      simp only [eq_comm]
  obtain _ | b | q := y
  · exact hbo hy1
  · exact hbo hy1
  · obtain ⟨X, rfl, ⟨t, ht, _⟩, _, ha⟩ := ensure_answers hok hx hen
    have hr := ha.ok.mem_gpOrder ht
    have hto := (HeapMem.field hr 0).touches (u.scope s1.frame).reads (u.scope s1.frame).values
    have hv {c' : Cpu ω} {v : Box → Word}
        (h : c'.contents (.reg ⟨.gp, r⟩) = X.word v) : c'.gp r = X.word v := h
    dsimp only at hy1
    split at hy1
    · rename_i hf
      have hre := hy1.emitBind
      cases hre
      refine ⟨X, _, rfl, rfl, rfl, PartIf.classifies ha.part hr (confined_of_load rfl rfl hto) ?_⟩
      rintro c v c' v' _ ⟨hq, hX, hs⟩
      refine ⟨hv hX, hq.world, fun b hb => hs b (hb.trans hok.made), fun w hw => ?_⟩
      refine ⟨AluOp.cmp.flags w (Word.ofInt (immediate q.bits)) (u.env.junk c').2.2.parity, ?_, ?_⟩
      · change ((Mem.based (gpOperand r)).read? u.env 8 c').map _ = _
        rw [hw]
        rfl
      · rw [ofInt_immediate hf]
        exact Cond.holds_ne
    · have hre := hy1.emitBind
      cases hre
      rw [show [Fragment.instr (.movImm scratch q.bits), .instr (.aluLoad .cmp scratch
        (Mem.based (gpOperand r)))] = [.instr (.movImm scratch q.bits)] ++ [.instr (.aluLoad .cmp
        scratch (Mem.based (gpOperand r)))] from rfl, ← emitted_emitted]
      have hl := ha.part.instr (i := .movImm scratch q.bits) (Q := fun c v c' v' =>
          c'.gp r = X.word v ∧ c'.gp r11 = q.bits ∧ c'.world = c.world ∧
            ∀ b, b.id ≤ u.made → v' b = v b)
        (.idle rfl rfl) <| by
          rintro c v c' v' hg' ⟨hq, hX, hs⟩
          refine ⟨c'.setGp r11 q.bits, v', rfl,
            hg'.alike ha.ok (.setScratch c' _), ?_, by rw [Cpu.setGp_gp, Function.update_self], hq.world,
            fun b hb => hs b (hb.trans hok.made)⟩
          rw [← hv hX]
          exact Function.update_of_ne (HeapMem.not_special hr).2 ..
      refine ⟨X, _, rfl, rfl, rfl, PartIf.classifies hl hr (confined_of_load rfl rfl hto) ?_⟩
      rintro c v c' v' _ ⟨hX, hsc, hwo, hs⟩
      refine ⟨hX, hwo, hs, fun w hw => ?_⟩
      refine ⟨AluOp.cmp.flags (c'.gp r11) w (u.env.junk c').2.2.parity, ?_, ?_⟩
      · change ((Mem.based (gpOperand r)).read? u.env 8 c').map _ = _
        rw [hw]
        rfl
      · rw [hsc, Cond.holds_ne]
        simp only [eq_comm]
        rfl

/-! ## The branch of a guard -/

def CanHold (u : Setup ω) (pos : Nat) (op : Op) (s : State) (c : Cpu ω) (v : Box → Word) : Prop :=
  ∃ m holds, InStep u pos s c v m ∧ Held u.env.host op m holds

/-- What the check of a guard has done: its branch is taken unless the guard holds. -/
def Branches (u : Setup ω) (pos : Nat) (op : Op) (s : State) (br : Branch) (c : Cpu ω)
    (v : Box → Word) (c' : Cpu ω) (v' : Box → Word) : Prop :=
  (∀ m holds, InStep u pos s c v m → Held u.env.host op m holds →
    br.fails c'.flags = !holds) ∧ c'.world = c.world ∧ ∀ b, b.id ≤ u.made → v' b = v b

namespace GuardReady

variable (h : GuardReady u ks pos op s) {i : Nat}

include h

theorem arg_known (hx : op.args[i]? = some x) : ∀ b, x = some (.box b) → b ∈ ks := by
  rintro b rfl
  exact h.args b (List.mem_of_getElem? hx)

theorem zero_part (hx : op.args[0]? = some x)
    (ho : op.opcode = .guardTrue ∨ op.opcode = .guardNonnull ∨ op.opcode = .guardFalse ∨
      op.opcode = .guardIsnull)
    (hf : failOnZero = true ↔ op.opcode = .guardTrue ∨ op.opcode = .guardNonnull)
    (hy : Yields (zeroTest pos x failOnZero) req s br s') :
    PartIf u ks pos s s' (CanHold u pos op s) (Branches u pos op s br) := by
  obtain ⟨X, rfl, hp⟩ := zeroTest_part h.ok (h.arg_known hx) hy
  refine (hp.mono fun c v c' v' _ _ ⟨hbr, hr⟩ =>
    ⟨fun m holds hs hh => ?_, hr⟩).given _
  have hw := hs.agrees.argWord h.ok h.args hx
  rw [hbr]
  cases hh with
  | nonzero ho' =>
    rw [hw, hf.mpr ho']
    simp
  | zero ho' =>
    rw [hw, show failOnZero = false by grind]
    simp
  | _ ho' => grind

theorem fused_part (hf : s.fused = some f) (hy : Yields (guardBranch pos op) req s br s') :
    s' = { s with fused := none } ∧
      br = .when (if op.opcode = .guardTrue then f.cond.negate else f.cond) ∧
      PartIf u ks pos { s with fused := none } s' (CanHold u pos op s) (Branches u pos op s br) := by
  obtain ⟨b, hr, ho, hx⟩ := h.fused f hf
  obtain ⟨rfl, rfl⟩ : s' = { s with fused := none } ∧
      br = .when (if op.opcode = .guardTrue then f.cond.negate else f.cond) := by
    unfold guardBranch at hy
    split at hy
    iterate 2
      obtain ⟨x, hx', hy1⟩ := hy.argBind
      cases hx.symm.trans hx'
      rw [yields_get_bind] at hy1
      simp only [hf, hr, Option.map_some, if_pos (sameBox_iff.mpr ⟨b, rfl, rfl⟩)] at hy1
      obtain ⟨_, s2, hm, hre⟩ := hy1.bind
      cases yields_modify.mp hm
      cases hre
      exact ⟨rfl, rfl⟩
    all_goals grind
  have hok : Ok u ks { s with fused := none } :=
    h.ok.congr fun cls => by cases cls <;> rfl
  refine ⟨rfl, rfl, ((Part.refl hok).mono ?_).given _⟩
  rintro c v _ _ _ _ ⟨rfl, rfl⟩
  refine ⟨fun m holds hs hh => ?_, rfl, fun _ _ => rfl⟩
  have hc := hs.fused f hf b hr
  have hw := hs.agrees.argWord h.ok h.args hx
  rw [Branch.fails]
  cases hh with
  | nonzero ho' =>
    rw [if_pos (by grind), Cond.holds_negate, hc, hw]
    rfl
  | zero ho' =>
    rw [if_neg (by grind), hc, hw]
    exact decide_not
  | _ ho' => grind

theorem overflow_part (ho : op.opcode = .guardNoOverflow ∨ op.opcode = .guardOverflow)
    (hy : Yields (do
      if (← get).flagsFrom ≠ pos - 1 then refuse (.overflowGuard op.opcode)
      return Branch.when (if op.opcode = .guardNoOverflow then .o else .no)) req s br s') :
    PartIf u ks pos s s' (CanHold u pos op s) (Branches u pos op s br) := by
  rw [yields_get_bind] at hy
  dsimp only at hy
  split at hy
  · obtain ⟨_, _, hno, _⟩ := hy.bind
    exact (yields_refuse hno).elim
  · rename_i hf
    cases hy
    refine ((Part.refl h.ok).mono ?_).given _
    rintro c v _ _ _ _ ⟨rfl, rfl⟩
    refine ⟨fun m holds hs hh => ?_, rfl, fun _ _ => rfl⟩
    have hov := hs.overflow (not_not.mp hf)
    rw [Branch.fails]
    cases hh with
    | noOverflow ho' =>
      rw [if_pos ho', ← hov]
      simp [Cond.holds, Cond.o]
    | overflow ho' =>
      rw [if_neg (by simp [ho']), ← hov]
      simp [Cond.holds, Cond.no]
    | _ ho' => grind

theorem value_part (ho : op.opcode = .guardValue)
    (hy : Yields (do compareValue pos (← arg op 0) (← arg op 1)) u.req s br s') :
    PartIf u ks pos s s' (CanHold u pos op s) (Branches u pos op s br) := by
  obtain ⟨x, hx, hy1⟩ := hy.argBind
  obtain ⟨y, hyy, hy2⟩ := hy1.argBind
  obtain ⟨vals, hv, ht⟩ := h.typed
  obtain ⟨X, q, rfl, _⟩ := ht.guardValue ho
  obtain rfl : x = some X := by
    rw [hv] at hx
    exact (Option.some.inj hx).symm
  obtain rfl : y = some (.const q) := by
    rw [hv] at hyy
    exact (Option.some.inj hyy).symm
  refine ((compareValue_part h.ok (fun b hb => h.arg_known hx b (congrArg some hb)) hy2).mono
    fun c v c' v' _ _ ⟨hbr, hr⟩ => ⟨fun m holds hs hh => ?_, hr⟩).given _
  rw [hbr]
  cases hh with
  | value =>
    rw [hs.agrees.argWord h.ok h.args hx, hs.agrees.argWord h.ok h.args hyy]
    rfl
  | _ ho' => grind

theorem class_part (ho : op.opcode = .guardClass)
    (hy : Yields (do compareClass pos (← arg op 0) (← arg op 1)) req s br s') :
    PartIf u ks pos s s' (CanHold u pos op s) (Branches u pos op s br) := by
  obtain ⟨x, hx, hy1⟩ := hy.argBind
  obtain ⟨y, hyy, hy2⟩ := hy1.argBind
  obtain ⟨X, Y, rfl, rfl, rfl, hp⟩ := compareClass_part h.ok (h.arg_known hx)
    (h.arg_known hyy) hy2
  refine hp.mono ?_ fun c v c' v' _ _ _ ⟨hbr, hr⟩ =>
    ⟨fun m holds hs hh => ?_, hr⟩
  · rintro c v ⟨m, holds, hs, hh⟩
    cases hh with
    | header _ hl =>
      rw [hs.agrees.argWord h.ok h.args hx, hs.world] at hl
      exact ⟨_, hl⟩
    | _ ho' => grind
  · cases hh with
    | header _ hl =>
      rw [hs.agrees.argWord h.ok h.args hx, hs.world] at hl
      rw [hs.agrees.argWord h.ok h.args hyy]
      exact hbr _ hl
    | _ ho' => grind

end GuardReady

/-- **The branch of a guard is taken exactly when the guard does not hold.** -/
theorem guardBranch_part (h : GuardReady u ks pos op s) (hy : Yields (guardBranch pos op) u.req s br s') :
    PartIf u ks pos { s with fused := none } s' (CanHold u pos op s) (Branches u pos op s br) := by
  cases hf : s.fused with
  | some f => exact (h.fused_part hf hy).2.2
  | none =>
    rw [show { s with fused := none } = s by rw [← hf]]
    unfold guardBranch at hy
    split at hy
    all_goals rename_i ho
    iterate 2
      obtain ⟨x, hx, hy1⟩ := hy.argBind
      rw [yields_get_bind] at hy1
      simp only [hf] at hy1
      exact h.zero_part hx (by simp [ho]) (by simp [ho]) hy1
    iterate 2
      obtain ⟨x, hx, hy1⟩ := hy.argBind
      exact h.zero_part hx (by simp [ho]) (by simp [ho]) hy1
    · exact h.overflow_part (.inl ho) hy
    · exact h.overflow_part (.inr ho) hy
    · exact h.value_part ho hy
    · have hg := h.guard
      have ho : op.opcode = .guardClass := by
        cases ho : op.opcode <;> simp_all [Opcode.isGuard]
      exact h.class_part ho hy

end TraceCompiler.Lowering
