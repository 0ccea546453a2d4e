import TraceCompiler.Proofs.Lowering.Integer

/-! # The code of comparisons

A comparison sets flags of which a condition says whether it holds (`Decides`).
-/

namespace TraceCompiler.Lowering

open Machine (Cpu Setting Falls Fragment Quiet Instr Cond AluOp)
open CompileM
open List

variable {ω : Type} {u : Setup ω} {pos : Nat} {c c' : Cpu ω} {v v' : Box → Word} {b : Box} {r : Int}
  {m m' : Eval.Machine ω} {w : Word} {cond : Cond} {next : Option Op}
  {R : Cpu ω → (Box → Word) → Cpu ω → (Box → Word) → Prop} {f : (Box → Word) → Bool}

theorem Part.redefine (h : Part u ks pos s s' R) (hb : ∀ cls, ¬ (s'.alloc cls).Placed b)
    (f : (Box → Word) → Word) : Part u ks pos s s' fun c v c' v'' =>
      ∃ v', R c v c' v' ∧ v'' = Function.update v' b (f v) := { h with
    sim := fun he c v hg => by
      obtain ⟨c', v', hr, hg', hR⟩ := h.sim he c v hg
      exact ⟨c', _, hr, hg'.redefine hb (f v), v', hR, rfl⟩ }

/-- What comparing has done: a condition on the flags says whether `f` holds. -/
def Decides (u : Setup ω) (cond : Cond) (f : (Box → Word) → Bool) (c : Cpu ω)
    (v : Box → Word) (c' : Cpu ω) (v' : Box → Word) : Prop :=
  cond.holds c'.flags = f v ∧ c'.world = c.world ∧ ∀ b, b.id ≤ u.made → v' b = v b

theorem resultKind_of_isComparison {o : Opcode} (ho : o.isComparison = true) : o.resultKind = .int := by
  cases o <;> first
    | rfl
    | cases ho

theorem yields_fusable (ho : op.opcode.isComparison = true)
    (hy : Yields (fusable pos op next) u.req s x s') : s' = s ∧
    (x = true → ∀ cond, Fuses pos op next s ⟨op.result, cond⟩) := by
  unfold fusable at hy
  have hno (hy : Yields (pure false) u.req s x s') : s' = s ∧
      (x = true → ∀ cond, Fuses pos op next s ⟨op.result, cond⟩) := by
    cases hy
    exact ⟨rfl, nofun⟩
  cases next with
  | none => exact hno hy
  | some g =>
    dsimp only at hy
    split at hy
    · exact hno hy
    split at hy
    · exact hno hy
    rename_i hg
    obtain ⟨y, hy0, hy1⟩ := hy.argBind
    cases hb : op.result with
    | none =>
      simp only [hb] at hy1
      cases hy1
      exact ⟨rfl, nofun⟩
    | some b =>
      simp only [hb] at hy1
      rw [yields_get_bind] at hy1
      cases hy1
      refine ⟨rfl, fun hx cond => ?_⟩
      simp only [Bool.and_eq_true, decide_eq_true_eq, Option.map_some] at hx
      obtain ⟨⟨hs, hu⟩, hf⟩ := hx
      obtain ⟨b', rfl, heq⟩ := sameBox_iff.mp hs
      cases heq
      refine ⟨ho, hb.symm, fun b' hb' => ?_, b, g, hb, rfl, ?_, hy0, fun hm => ?_⟩
      · cases hb.symm.trans hb'
        exact hu
      · by_contra hne
        exact hg (not_or.mp hne)
      · rw [Bool.not_eq_true', any_eq_false] at hf
        exact hf _ hm (sameBox_iff.mpr ⟨b, rfl, rfl⟩)

theorem falls_setcc (env : Setting ω) (c : Cpu ω) (cond : Cond) (r : Int) :
    Falls env [.instr (.setcc cond (.low r)), .instr (widenByte r)] c
      (c.setGp r (Word.ofBool (cond.holds c.flags))) := by
  refine .cons rfl (.instr ?_)
  change some ((c.put (.low r) (Word.ofBool (cond.holds c.flags))).setGp r
    ((c.put (.low r) (Word.ofBool (cond.holds c.flags))).get (.low r) &&& 0xFFFFFFFF)) = _
  rw [Cpu.get_low_put_low, Word.ofBool_and_byte, Word.ofBool_and_half]
  change some { c with gp := Function.update (Function.update c.gp r _) r _ } = _
  rw [Function.update_idem]
  rfl

theorem within_setcc : Within σ [.instr (.setcc cond (.low r)), .instr (widenByte r)] :=
  within_cons (.idle rfl rfl) (within_cons (.idle rfl rfl) within_nil)

theorem Part.endsComparing (h : Part u ks pos s s' R) (hi : isComparing i = true) :
    EndsComparing s (s'.emitted [.instr i]) := by
  obtain ⟨code, hc, _⟩ := h.adds
  refine ⟨code, i, ?_, hi⟩
  rw [code_emitted, hc, append_assoc]
  rfl

/-- **The end of a comparison**: the flags become a word or are left to the next guard. -/
theorem finishCompare_lowered (hr : Ready u ks pos op s) (hb : op.result = some b)
    (ho : op.opcode.isComparison = true) (hp : Part u ks pos s s' (Decides u cond f))
    (hcm : EndsComparing s s') (hf : ∀ v m w m', Agrees u m v → Eval.Ran u.env.host op m w m' →
      m'.world = m.world ∧ w = Word.ofBool (f v))
    (hy : Yields (finishCompare pos op next cond) u.req s' t s'') : Lowered u ks pos op next s s'' := by
  obtain ⟨fused, s1, hfu, hy1⟩ := hy.bind
  obtain ⟨rfl, hfs⟩ := yields_fusable ho hfu
  have hn : ∀ cls, ¬ (s1.alloc cls).Placed b := fun cls => (hr.unplaced hb hp.ok cls).2
  cases fused with
  | true =>
    cases yields_modify.mp hy1
    have hp' := hr.part hb (hp.redefine hn fun v => Word.ofBool (f v))
    have hfl : s1.flagsFrom < pos := hp.plain.flagsFrom ▸ hr.flagsFrom
    refine hp'.lowered_with hb hfl.le nofun ?_ (fun _ => hcm) ?_
    · rintro _ ⟨⟩
      exact hfs rfl cond
    · rintro c v c' _ m w m' ⟨v', ⟨hc, hw, hsa⟩, rfl⟩ hag hra
      obtain ⟨hw', rfl⟩ := hf v m w m' hag hra
      refine ⟨hw', hw, Function.update_self .., fun b' hb' hne => ?_, fun h => absurd h hfl.ne, ?_⟩
      · rw [Function.update_of_ne hne, hsa b' hb']
      · rintro _ ⟨⟩
        rw [hc]
        simp [Word.ofBool_ne_zero]
  | false =>
    obtain ⟨_, s2, hre, hy2⟩ := hy1.bind
    obtain ⟨r, s3, ha, he⟩ := hy2.bind
    cases he.emit
    rw [hb] at ha
    have hs := releaseArgs_silent hp.ok hre
    obtain ⟨hrg, hfr, _, han⟩ := allocate_answers (hr.grow hb hs.ok) (hr.unplaced hb hs.ok .gp) rfl ha
    have hco : Part u (b :: ks) pos s
        (s3.emitted [.instr (.setcc cond (.low r)), .instr (widenByte r)])
        (Computes u b fun v => Word.ofBool (f v)) := by
      refine ((hr.part hb (hp.trans hs.part)).trans han.part).code
        within_setcc rfl ?_
      rintro c v c' v' hg' ⟨c1, v1, ⟨c2, v2, ⟨hc, hw, hsa⟩, rfl, rfl⟩, hq, ⟨x, rfl⟩, _⟩
      have hfa := falls_setcc u.env c' cond r
      rw [hq.flags, hc] at hfa
      refine ⟨_, _, hfa, hg'.setGp han.ok hrg hfr _, hq.world.trans hw,
        Function.update_self .., fun b' hb' hne => ?_⟩
      rw [Function.update_of_ne hne, Function.update_of_ne hne, hsa b' hb']
    exact hco.computed hr hb
      (inRegister_of_regOf (hr.result_class hb (resultKind_of_isComparison ho))
        (by rwa [bank_emitted])) hf

/-! ## Integers and references -/

theorem Decides.negate (h : Decides u cond f c v c' v') :
    Decides u cond.negate (fun v => !f v) c v c' v' := ⟨by rw [Cond.holds_negate, h.1], h.2⟩

theorem Answers.tested {cls : RegClass} {pos : Int} {keep : Box → Prop} {w : Value}
    (h : Answers u ks cls pos keep s s' fun _ v c' v' => c'.gp r = w.word v ∧
      ∀ b, b.id ≤ s.supply.made → v' b = v b) (hm : u.made ≤ s.supply.made) :
    Part u ks pos s (s'.emitted [.instr (.test (gpOperand r) (gpOperand r))])
      (Decides u .e fun v => w.word v = 0) := by
  refine h.part.instr (.idle rfl rfl) ?_
  rintro c v c' v' hg' ⟨hq, hv, hs⟩
  refine ⟨_, v', rfl, hg'.alike h.ok (.setFlags c' _), ?_, hq.world, fun b hb => hs b (hb.trans hm)⟩
  beta_reduce
  rw [← hv]
  exact Cond.holds_e_test

theorem testValue_part (hok : Ok u ks s)
    (hv : ∀ b, val = some (.box b) → b ∈ ks) (hy : Yields (testValue pos val) req s t s') :
    ∃ w, val = some w ∧ EndsComparing s s' ∧ Part u ks pos s s' (Decides u .e fun v => w.word v = 0) := by
  have hl (hy : Yields (do
      let r ← onGp (AllocM.ensure pos val {})
      emitInstr (.test (gpOperand r) (gpOperand r))) req s t s') : ∃ w, val = some w ∧
      EndsComparing s s' ∧ Part u ks pos s s' (Decides u .e fun v => w.word v = 0) := by
    obtain ⟨r, s1, hen, he⟩ := hy.bind
    cases he.emit
    obtain ⟨w, rfl, ⟨q, hq, _⟩, _, ha⟩ := ensure_answers hok hv hen
    exact ⟨w, rfl, ha.part.endsComparing rfl, ha.tested hok.made⟩
  unfold testValue at hy
  rw [yields_get_bind] at hy
  obtain _ | b | q := val
  · exact hl hy
  · dsimp only at hy
    cases hr : s.gp.regOf (some b) with
    | some r =>
      simp only [hr] at hy
      cases hy.emit
      have hr : (s.bank .gp).regOf (some b) = some r := hr
      have ha : Answers u ks .gp pos (fun _ => True) s s fun _ v c' v' =>
          c'.gp r = (Value.box b).word v ∧ ∀ b, b.id ≤ s.supply.made → v' b = v b := by
        refine (Answers.refl hok .gp).mono ?_
        rintro _ _ c v hg ⟨rfl, rfl⟩
        exact ⟨hg.reg hok hr, fun _ _ => rfl⟩
      exact ⟨_, rfl, ha.part.endsComparing rfl, ha.tested hok.made⟩
    | none =>
      simp only [hr] at hy
      split at hy
      · rename_i hm
        obtain ⟨slot, s1, hs, he⟩ := hy.bind
        obtain ⟨rfl, rfl⟩ := yields_frameSlot.mp hs
        cases he.emit
        have hm : b ∈ (s1.bank .gp).inFrame := hm
        have ht : Touches (u.scope s1.frame).reads (u.scope s1.frame).values
            (slotMem ((s1.frame.get? b).getD ⟨0⟩)) := .slot ⟨b, hok.get?_of_stored hm⟩
        have hp : Part u ks pos s1 s1 _ := .refl hok
        refine ⟨_, rfl, hp.endsComparing rfl, hp.instr (confined_of_load rfl rfl ht) ?_⟩
        rintro _ _ c v hg ⟨rfl, rfl⟩
        have hee : (Instr.aluMemImm .cmp (slotMem ((s1.frame.get? b).getD ⟨0⟩)) 8 0).exec u.env c =
            some (c.setFlags (AluOp.cmp.flags (v b) 0 (u.env.junk c).2.2.parity)) := by
          change ((slotMem _).read? u.env 8 c).map _ = _
          rw [hg.frameSlot hm]
          rfl
        exact ⟨_, v, hee, hg.alike hok (.setFlags c _), Cond.holds_e, rfl, fun _ _ => rfl⟩
      · exact hl hy
  · exact hl hy

def isWordCompare : Opcode → Bool
  | .intLt | .intLe | .intEq | .intNe | .intGt | .intGe | .uintLt | .uintLe | .uintGt | .uintGe
  | .ptrEq | .ptrNe => true
  | _ => false

theorem kinds_of_isWordCompare (ho : isWordCompare o = true) :
    o.isVariadic = false ∧ o.argKinds.length = 2 ∧ o.isComparison = true := by
  cases o <;> first
    | exact ⟨rfl, rfl, rfl⟩
    | cases ho

theorem intResult_of_isWordCompare (ho : isWordCompare o = true) (x y : Word) (p : Bool) :
    Eval.intResult? o x y = some (Word.ofBool ((condOf o).holds (AluOp.cmp.flags x y p))) := by
  cases o <;> first
    | exact absurd ho Bool.false_ne_true
    | simp only [condOf, Cond.holds_l, Cond.holds_le, Cond.holds_e,
        Cond.holds_ne, Cond.holds_g, Cond.holds_ge, Cond.holds_b,
        Cond.holds_be, Cond.holds_a, Cond.holds_ae, Eval.intResult?,
        Eval.signedTest, ← decide_not, not_lt, not_le, ne_eq, UInt64.not_lt, UInt64.not_le]

theorem holds_swapCond (ho : isWordCompare o = true) (x y : Word) (p : Bool) :
    (swapCond (condOf o)).holds (AluOp.cmp.flags x y p) = (condOf o).holds (AluOp.cmp.flags y x p) := by
  cases o <;> first
    | exact absurd ho Bool.false_ne_true
    | simp +decide only [condOf, swapCond, if_true, if_false, Cond.holds_l, Cond.holds_le,
        Cond.holds_e, Cond.holds_ne, Cond.holds_g, Cond.holds_ge, Cond.holds_b, Cond.holds_be,
        Cond.holds_a, Cond.holds_ae, ← decide_not, not_lt, not_le, UInt64.not_lt, UInt64.not_le,
        eq_comm (a := x)]

/-- What asking for two operands has done: one is in a register, and the other can be read. -/
def Operands (u : Setup ω) (r : Int) (src : IntSource) (A B : Value) (c : Cpu ω) (v : Box → Word)
    (c' : Cpu ω) (v' : Box → Word) : Prop :=
  c'.gp r = A.word v ∧ src.Reads u.env c' (B.word v) ∧ c'.world = c.world ∧
    ∀ b, b.id ≤ u.made → v' b = v b

theorem operands_part (hok : Ok u ks s) (hx : ∀ b, x = some (.box b) → b ∈ ks)
    (hyk : ∀ b, y = some (.box b) → b ∈ ks) (he : Yields (onGp (AllocM.ensure pos x k)) u.req s r s')
    (hsr : Yields (intSource pos y k') u.req s' src s'')
    (hk : ∀ b, x = some (.box b) → some b ∈ k'.forbidden ∧ y ≠ some (.box b)) :
    ∃ A B, x = some A ∧ y = some B ∧ r ∈ gpOrder ∧ src.Allowed (u.scope s''.frame) ∧
      Part u ks pos s s'' (Operands u r src A B) := by
  obtain ⟨A, rfl, ⟨q, hq, hqA⟩, _, ha0⟩ := ensure_answers hok hx he
  obtain ⟨B, rfl, ha, ha0'⟩ := intSource_answers ha0.ok hyk hsr
  have hm := hok.made
  have hq_made : q.id ≤ s'.supply.made :=
    (ha0.ok.tidy .gp).placed q (.inl (Option.isSome_iff_exists.mpr ⟨r, hq⟩))
  have hq' : (s''.bank .gp).regOf (some q) = some r := by
    refine ha0'.keeps q r ?_ hq
    rcases hqA with rfl | ⟨hme, _⟩
    · exact ⟨.inl (hk q rfl).1, fun h => (hk q rfl).2 (congrArg some h)⟩
    · refine ⟨.inr hme, ?_⟩
      rintro rfl
      exact ha0.ok.not_temp (hyk q rfl) hme
  have han := ha0.mono (Q := fun _ v _ v' => v' q = A.word v ∧
    ∀ b, b.id ≤ s.supply.made → v' b = v b) fun c v c' v' hgo h =>
      ⟨by rw [← h.1, hgo.reg ha0.ok hq], h.2⟩
  refine ⟨A, B, rfl, rfl, ha0'.ok.mem_gpOrder hq', ha, (han.part.trans ha0'.part).mono ?_⟩
  rintro c v c2 v2 _ hg ⟨c1, v1, ⟨hqu, hv, hs⟩, hqu', hr, hs'⟩
  refine ⟨?_, ?_, (hqu'.world.trans hqu.world), fun b hb => ?_⟩
  · rw [← hv, ← hs' q hq_made]
    exact hg.reg ha0'.ok hq'
  · have hB : B.word v1 = B.word v := word_congr fun b hb =>
      hs b ((hok.ids b (hyk b (congrArg some hb))).trans hm)
    rwa [hB] at hr
  · rw [hs' b ((hb.trans hm).trans ha0.grows.made), hs b (hb.trans hm)]

theorem Part.compared (h : Part u ks pos s s' (Operands u r src A B)) (hr : r ∈ gpOrder)
    (hsr : src.Allowed (u.scope s'.frame))
    (hf : ∀ v p, cond.holds (AluOp.cmp.flags (A.word v) (B.word v) p) = f v) :
    Part u ks pos s (s'.emitted [.instr (aluInstr .cmp (gpOperand r) src)]) (Decides u cond f) := by
  refine h.instr (confined_aluInstr _ hsr) ?_
  rintro c v c' v' hg' ⟨hv, hre, hw, hs⟩
  refine ⟨_, v', exec_aluInstr hre (not_rsp_of_mem hr), ?_, ?_, hw, hs⟩
  · rw [alu_cmp]
    exact hg'.alike h.ok (.setFlags c' _)
  · rw [alu_cmp, hv]
    exact hf v _

theorem operand_twice (hok : Ok u ks s) (hx : ∀ b, x = some (.box b) → b ∈ ks)
    (he : Yields (onGp (AllocM.ensure pos x k)) u.req s r s') : ∃ A, x = some A ∧ r ∈ gpOrder ∧
      Part u ks pos s s' (Operands u r (.reg (gpOperand r)) A A) := by
  obtain ⟨A, rfl, ⟨q, hq, _⟩, _, ha⟩ := ensure_answers hok hx he
  refine ⟨A, rfl, ha.ok.mem_gpOrder hq, ha.part.mono ?_⟩
  rintro c v c' v' _ _ ⟨hqu, hv, hs⟩
  exact ⟨hv, hv, hqu.world, fun b hb => hs b (hb.trans hok.made)⟩

theorem compared_lowered (hre : Ready u ks pos op s) (ho : isWordCompare op.opcode = true)
    (hb : op.result = some b) (hx : op.args[0]? = some (some X)) (hyy : op.args[1]? = some (some Y))
    (hA : some A ∈ op.args) (hB : some B ∈ op.args)
    (hco : ∀ v p, cond.holds (AluOp.cmp.flags (A.word v) (B.word v) p) =
      (condOf op.opcode).holds (AluOp.cmp.flags (X.word v) (Y.word v) p)) (hy : Yields (do
      let r ← onGp (AllocM.ensure pos (some A) { forbidden := holders [some B] })
      let src ←
        if sameBox (some B) (some A) then pure (.reg (gpOperand r))
        else intSource pos (some B) { forbidden := holders [some A] }
      compareWith (gpOperand r) src
      finishCompare pos op next cond) u.req s t s') : Lowered u ks pos op next s s' := by
  obtain ⟨r, s1, he, hy1⟩ := hy.bind
  obtain ⟨src, s2, hsr, hy2⟩ := yields_ite_bind.mp hy1
  obtain ⟨_, s3, hc, hf⟩ := hy2.bind
  cases yields_compareWith.mp hc
  have hpa (v : Box → Word) (p : Bool) :
      (condOf op.opcode).holds (AluOp.cmp.flags (X.word v) (Y.word v) p) =
        (condOf op.opcode).holds (AluOp.cmp.flags (X.word v) (Y.word v) false) := by
    have := (intResult_of_isWordCompare ho (X.word v) (Y.word v) p).symm.trans
      (intResult_of_isWordCompare ho (X.word v) (Y.word v) false)
    exact Word.ofBool_inj.mp (Option.some.inj this)
  obtain ⟨hr, hal, hp⟩ : r ∈ gpOrder ∧ src.Allowed (u.scope s2.frame) ∧
      Part u ks pos s s2 (Operands u r src A B) := by
    split at hsr
    · rename_i hs
      obtain ⟨b', heq, hAB⟩ := sameBox_iff.mp hs
      cases heq
      cases hAB
      cases hsr
      obtain ⟨_, ⟨⟩, hr, hp⟩ := operand_twice hre.ok (hre.arg_known hA) he
      exact ⟨hr, nofun, hp⟩
    · rename_i hs
      obtain ⟨_, _, ⟨⟩, ⟨⟩, hrs⟩ := operands_part hre.ok (hre.arg_known hA)
        (hre.arg_known hB) he hsr fun b' hb' => by
          cases hb'
          refine ⟨mem_holders.mpr ⟨b', rfl, mem_cons_self⟩, ?_⟩
          rintro ⟨⟩
          exact hs (sameBox_iff.mpr ⟨b', rfl, rfl⟩)
      exact hrs
  refine finishCompare_lowered hre hb (kinds_of_isWordCompare ho).2.2 (hp.compared hr hal
    fun v p => (hco v p).trans (hpa v p)) (hp.endsComparing (by cases src <;> rfl))
    (fun v m w m' ha hra => ?_) hf
  obtain ⟨hw, rfl⟩ := hra.int_inv (by
    rw [intResult_of_isWordCompare ho 0 0 false]
    rfl)
  rw [intResult_of_isWordCompare ho _ _ false, hre.argWord ha hx, hre.argWord ha hyy] at hw
  exact ⟨rfl, (Option.some.inj hw).symm⟩

theorem intCompare_lowered (hr : Ready u ks pos op s)
    (ho : isWordCompare op.opcode = true ∨ op.opcode = .intIsTrue ∨ op.opcode = .intIsZero)
    (hb : op.result = some b) (hy : Yields (intCompare pos op next) u.req s t s') :
    Lowered u ks pos op next s s' := by
  obtain ⟨vals, har, ht⟩ := hr.typed
  have hl : op.args.length = vals.length := by rw [har, length_map]
  unfold intCompare at hy
  dsimp only at hy
  split at hy
  · -- One operand is compared with zero.
    rename_i x hon
    obtain ⟨_, s1, hte, hy1⟩ := hy.bind
    obtain ⟨w, rfl, hcm, hp⟩ := testValue_part hr.ok (hr.arg_known (by simp [hon])) hte
    have hru {v : Box → Word} {m : Eval.Machine ω} {w' : Word} {m' : Eval.Machine ω}
        (ha : Agrees u m v) (hra : Eval.Ran u.env.host op m w' m')
        (hu : Eval.isUnary op.opcode = true) : m'.world = m.world ∧
          w' = (Eval.unaryResult? op.opcode (w.word v)).getD 0 := by
      obtain ⟨rfl, rfl⟩ := hra.unary_inv hu
      rw [hr.argWord ha (show op.args[0]? = some (some w) by rw [hon]; rfl)]
      exact ⟨rfl, rfl⟩
    rcases ho with ho | ho | ho
    · obtain ⟨hv, hl', _⟩ := kinds_of_isWordCompare ho
      have := (ht.args hv).1
      rw [hon] at hl
      simp only [length_singleton] at hl
      omega
    · have hc : condOf op.opcode = Cond.e.negate := by
        rw [ho]
        rfl
      rw [hc] at hy1
      refine finishCompare_lowered hr hb (by rw [ho]; rfl) (hp.mono fun _ _ _ _ _ _ h =>
        h.negate) hcm (fun v m w' m' ha hra => ?_) hy1
      obtain ⟨hw, rfl⟩ := hru ha hra (by rw [ho]; rfl)
      refine ⟨hw, ?_⟩
      rw [ho, ← decide_not]
      rfl
    · have hc : condOf op.opcode = .e := by
        rw [ho]
        rfl
      rw [hc] at hy1
      refine finishCompare_lowered hr hb (by rw [ho]; rfl) hp hcm
        (fun v m w' m' ha hra => ?_) hy1
      obtain ⟨hw, rfl⟩ := hru ha hra (by rw [ho]; rfl)
      refine ⟨hw, ?_⟩
      rw [ho]
      rfl
  · rename_i hma
    have ho : isWordCompare op.opcode = true := by
      refine ho.resolve_right fun ho => ?_
      have hl' : vals.length = 1 := by
        rcases ho with ho | ho <;> exact (ht.args (by rw [ho]; rfl)).1.trans (by rw [ho]; rfl)
      obtain ⟨x, hx⟩ := length_eq_one_iff.mp hl'
      exact hma _ (by rw [har, hx]; rfl)
    obtain ⟨x, hx, hy1⟩ := hy.argBind
    obtain ⟨y, hyy, hy2⟩ := hy1.argBind
    obtain ⟨X, rfl⟩ := hr.arg_some hx
    obtain ⟨Y, rfl⟩ := hr.arg_some hyy
    have hm := mem_of_getElem? hx
    have hme := mem_of_getElem? hyy
    cases hs : (isConst (some X) && isBox (some Y)) with
    | true =>
      simp only [hs, if_true] at hy2
      refine compared_lowered hr ho hb hx hyy hme hm (fun v p => ?_) hy2
      exact holds_swapCond ho ..
    | false =>
      simp only [hs, Bool.false_eq_true, if_false] at hy2
      exact compared_lowered hr ho hb hx hyy hm hme (fun _ _ => rfl) hy2

/-! ## The code of float operations -/

open Machine (Cpu Setting Falls Fragment Quiet Instr)
open Machine.Reg (r11)
open Function (update update_idem update_of_ne update_self)

variable {ks : List Box} {s s' : State} {op : Op} {x y : Word} {t : Unit}
  {o : Opcode} {f : Machine.FloatOp}

theorem Ok.mem_float (hok : Ok u ks s) {x : Holder}
    (hr : (s.bank .float).regOf x = some r) : 0 ≤ r ∧ r < 15 := Limits.mem_float (hok.mem_pool hr)

/-! ## Two operands -/

def isFloatBinary : Opcode → Bool
  | .floatAdd | .floatSub | .floatMul | .floatTruediv => true
  | _ => false

theorem kinds_of_isFloatBinary (ho : isFloatBinary o = true) :
    o.isVariadic = false ∧ o.argKinds = [.float, .float] ∧ o.resultKind = .float := by
  cases o <;> first
    | exact ⟨rfl, rfl, rfl⟩
    | cases ho

theorem floatResult_of_isFloatBinary (ho : isFloatBinary o = true) (x y : Word) :
    Eval.floatResult? o x y = some ((floatOf o).result x y) := by
  cases o <;> first
    | rfl
    | cases ho

/-- Operands are exchanged in sums and products only, and not for their payloads. -/
theorem floatOf_result_comm (ho : isFloatBinary o = true) (hc : isCommutative o = true) (y : Word)
    (hx : o = .floatAdd ∨ o = .floatMul → Double.isNaN x = false) :
    (floatOf o).result y x = (floatOf o).result x y := by
  cases o <;> first
    | exact absurd ho Bool.false_ne_true
    | exact absurd hc Bool.false_ne_true
    | exact (Double.add_comm_of_number (hx (.inl rfl))).symm
    | exact (Double.mul_comm_of_number (hx (.inr rfl))).symm

def floatInstr (f : Machine.FloatOp) (dst : Machine.Xmm) : FloatSource → Instr
  | .mem m => .floatLoad f dst m
  | .reg x => .float f dst x

theorem confined_floatInstr (x : Machine.Xmm) (hs : src.Allowed σ) : Confined σ (floatInstr f x src) := by
  cases src with
  | reg _ => exact .idle rfl rfl
  | mem m => exact confined_of_load rfl rfl (hs m rfl)

theorem exec_floatInstr (hs : src.Reads env c y) (r : Int) :
    (floatInstr f (floatOperand r) src).exec env c = some (c.setXmm r (f.result (c.xmm r) y)) := by
  cases src with
  | reg x =>
    change some (c.setXmm r (f.result (c.xmm r) (c.xmm x.id))) = _
    rw [show c.xmm x.id = y from hs]
  | mem m =>
    change (m.read? env 8 c).map _ = _
    rw [show m.read? env 8 c = some y from hs]
    rfl

theorem yields_floatInstr {k : Constraint} {req : Request} {dst : Machine.Xmm} {x : Option Value}
    (p : Prop) [Decidable p] :
    Yields (if p then emitInstr (.float f dst dst) else do
      match ← floatSource pos x k with
      | .mem m => emitInstr (.floatLoad f dst m)
      | .reg y => emitInstr (.float f dst y)) req s t s' ↔
    ∃ src s1, Yields (if p then pure (.reg dst) else floatSource pos x k) req s src s1 ∧
      s' = s1.emitted [.instr (floatInstr f dst src)] := by
  split
  · rw [yields_emitInstr]
    constructor
    · rintro rfl
      exact ⟨_, s, yields_pure.mpr ⟨rfl, rfl⟩, rfl⟩
    · rintro ⟨src, s1, hp, rfl⟩
      cases hp
      rfl
  · rw [yields_bind]
    constructor
    · rintro ⟨src, s1, hs, hy⟩
      refine ⟨src, s1, hs, ?_⟩
      cases src <;> exact hy.emit
    · rintro ⟨src, s1, hs, rfl⟩
      refine ⟨src, s1, hs, ?_⟩
      cases src <;> exact yields_emitInstr.mpr rfl

theorem floatBinary_lowered (hr : Ready u ks pos op s)
    (ho : isFloatBinary op.opcode = true) (hb : op.result = some b)
    (hy : Yields (floatBinary pos op) u.req s t s') : Lowered u ks pos op next s s' := by
  obtain ⟨x, hx, hy1⟩ := hy.argBind
  obtain ⟨y, hyy, hy2⟩ := hy1.argBind
  cases hcr : constRight op.opcode x y with | mk x' y' =>
  have hm := constRight_mem hcr hx hyy
  rw [hcr] at hy2
  obtain ⟨r, s3, hs, hy3⟩ := hy2.bind
  obtain ⟨src, s4, hso, rfl⟩ := (yields_floatInstr _).mp hy3
  rw [hb] at hs hso
  obtain ⟨X, Y, rfl, rfl, hsr, hre', hf', hp⟩ := hr.operands hb hm.1 hm.2
    (takes_float u) hs hso
    (fun hok => floatSource_answers hok (hr.arg_known_cons hm.2 b)) (by simp)
  have hcd := Part.computes (i := floatInstr (floatOf op.opcode) (floatOperand r) src)
    (Q := fun _ v c' v' => v' b = X.word v ∧ src.Reads u.env c' (Y.word v))
    (f := fun v => (floatOf op.opcode).result (X.word v) (Y.word v))
    (hp.mono fun c v c' v' _ _ h => ⟨⟨h.2.1, h.2.2.1⟩, h.1.world, h.2.2.2⟩)
    (confined_floatInstr _ hsr) fun c v c' v' hg' hQ => by
      have hv : c'.xmm r = v' b := hg'.reg hp.ok hre'
      have hi := exec_floatInstr (f := floatOf op.opcode) hQ.2 r
      rw [hv, hQ.1] at hi
      exact ⟨_, hi, rfl, hg'.setXmm hp.ok hre' hf' _⟩
  refine hcd.computed_exact hr hb
    (inRegister_of_regOf (hr.result_class hb (kinds_of_isFloatBinary ho).2.2)
      (by rwa [bank_emitted])) ?_
  · -- The constant that was put on the right is a number.
    intro he v m w m' ha hra
    obtain ⟨hw, rfl⟩ := hra.float_inv (by
      rw [floatResult_of_isFloatBinary ho]
      rfl)
    rw [floatResult_of_isFloatBinary ho, Option.some.injEq] at hw
    refine ⟨rfl, hw.symm.trans ?_⟩
    rcases constRight_cases hcr with ⟨rfl, rfl⟩ | ⟨hc, hco, rfl, rfl⟩ <;>
      rw [hr.argWord ha hx, hr.argWord ha hyy]
    · refine (floatOf_result_comm ho hc _ ?_).symm
      intro hop
      cases Y with
      | box b' => cases hco
      | const q => exact (he (by rcases hop with hop | hop <;> simp [isSteady, hop])).sum hop q hx

/-! ## One operand -/

def signMask (o : Opcode) : Word × Machine.FloatOp :=
  if o = .floatAbs then (0x7FFFFFFFFFFFFFFF, .and) else (0x8000000000000000, .xor)

theorem signMask_result (ho : o = .floatNeg ∨ o = .floatAbs) (x : Word) :
    (signMask o).2.result x (signMask o).1 = (Eval.unaryResult? o x).getD 0 := by
  rcases ho with rfl | rfl <;> rfl

def signCode (mask : Word) (f : Machine.FloatOp) (r : Int) : List Fragment :=
  [.instr (.movImm scratch mask), .instr (.movqToXmm floatScratch scratch),
    .instr (.float f (floatOperand r) floatScratch)]

theorem falls_sign (env : Setting ω) (c : Cpu ω) (mask : Word) (f : Machine.FloatOp)
    (hr : r ≠ 15) : Falls env (signCode mask f r) c
      (((c.setGp r11 mask).setXmm 15 mask).setXmm r (f.result (c.xmm r) mask)) := by
  have hm : (c.setGp r11 mask).get scratch = mask := by
    change update c.gp r11 mask r11 = mask
    rw [update_self]
  have hc : (Instr.movqToXmm floatScratch scratch).exec env (c.setGp r11 mask) =
      some ((c.setGp r11 mask).setXmm 15 mask) := by
    change some ((c.setGp r11 mask).setXmm 15 _) = _
    rw [hm]
  refine .cons rfl (.cons hc (.instr ?_))
  · change some (((c.setGp r11 mask).setXmm 15 mask).setXmm r
      (f.result (update c.xmm 15 mask r) (update c.xmm 15 mask 15))) = _
    rw [update_of_ne hr, update_self]

theorem floatUnary_lowered (hre : Ready u ks pos op s)
    (ho : op.opcode = .floatNeg ∨ op.opcode = .floatAbs) (hb : op.result = some b)
    (hy : Yields (floatUnary pos op) u.req s t s') : Lowered u ks pos op next s s' := by
  obtain ⟨x, hx, hy1⟩ := hy.argBind
  obtain ⟨r, s2, hs, hy2⟩ := hy1.bind
  change Yields (emit (signCode (signMask op.opcode).1 (signMask op.opcode).2 r)) _ _ _ _ at hy2
  cases hy2.emit
  rw [hb] at hs
  obtain ⟨X, rfl, hrg, hfr, _, _, han⟩ := shared_answers (hre.grow hb hre.ok)
    (hre.arg_known_cons (mem_of_getElem? hx) b) (hre.unplaced hb hre.ok .float) hs
  have hr := han.ok.mem_float hrg
  have hc : Part u (b :: ks) pos s
      (s2.emitted (signCode (signMask op.opcode).1 (signMask op.opcode).2 r))
      (Computes u b fun v => (Eval.unaryResult? op.opcode (X.word v)).getD 0) := by
    refine han.part.code (within_cons (.idle rfl rfl) (within_cons (.idle rfl rfl)
        (within_cons (.idle rfl rfl) within_nil))) rfl ?_
    rintro c v c' v' hg' ⟨hq, rfl⟩
    have hv : c'.xmm r = X.word v := by
      have := hg'.reg han.ok hrg
      rwa [update_self] at this
    have hf := falls_sign u.env c' (signMask op.opcode).1 (signMask op.opcode).2 (r := r)
      (by omega)
    rw [hv, signMask_result ho] at hf
    refine ⟨_, _, hf, ((hg'.alike han.ok (.setScratch ..)).alike han.ok
      (.setFloatScratch ..)).setXmm han.ok hrg hfr _, hq.world, update_self .., fun b' _ hne => ?_⟩
    rw [update_of_ne hne, update_of_ne hne]
  refine hc.computed hre hb (inRegister_of_regOf (hre.result_class hb (k := .float)
    (by rcases ho with ho | ho <;> rw [ho] <;> rfl)) (by rwa [bank_emitted])) ?_
  intro v m w m' ha hra
  obtain ⟨rfl, rfl⟩ := hra.unary_inv (by rcases ho with ho | ho <;> rw [ho] <;> rfl)
  rw [hre.argWord ha hx]
  exact ⟨rfl, rfl⟩

/-! ## Comparisons -/

def isFloatCompare : Opcode → Bool
  | .floatLt | .floatLe | .floatEq | .floatNe | .floatGt | .floatGe => true
  | _ => false

theorem isComparison_of_isFloatCompare (ho : isFloatCompare o = true) : o.isComparison = true := by
  cases o <;> first
    | rfl
    | cases ho

def floatTest (o : Opcode) (x y : Word) : Bool :=
  match o with
  | .floatLt => Double.lt x y
  | .floatLe => Double.le x y
  | .floatGt => Double.lt y x
  | .floatGe => Double.le y x
  | .floatEq => Double.eq x y
  | _ => !Double.eq x y

theorem floatResult_of_isFloatCompare (ho : isFloatCompare o = true) (x y : Word) :
    Eval.floatResult? o x y = some (Word.ofBool (floatTest o x y)) := by
  cases o <;> first
    | rfl
    | cases ho

theorem Part.ucomisd {A B : Value} {q : Int} {cond : Machine.Cond} {f : (Box → Word) → Bool}
    {d e : Int} (h : Part u ks pos s s' (Pair u .float r q A B))
    (hf : ∀ c v c' v', Pair u .float r q A B c v c' v' →
      cond.holds (Machine.floatFlags (c'.xmm d) (c'.xmm e)) = f v) :
    Part u ks pos s (s'.emitted [.instr (.ucomisd (floatOperand d) (floatOperand e))])
      (Decides u cond f) := by
  refine h.instr (.idle rfl rfl) fun c v c' v' hg' hR => ?_
  exact ⟨_, v', rfl, hg'.alike h.ok (.setFlags c' _), hf c v c' v' hR, hR.1.world, hR.2.2.2⟩

theorem falls_setccPair (env : Setting ω) (c : Cpu ω) {d e : Machine.Cond} {o : Machine.AluOp}
    {p : Bool} (hr : r ≠ r11) (ho : o ≠ .cmp)
    (hp : o.result (Word.ofBool (d.holds c.flags)) (Word.ofBool (e.holds c.flags)) = Word.ofBool p) :
    ∃ x fl, Falls env [.instr (.setcc d (.low r)), .instr (.setcc e (.low r11)),
      .instr (.alu o (.low r) (.low r11)), .instr (widenByte r)] c
      (((c.setGp r11 x).setGp r (Word.ofBool p)).setFlags fl) := by
  obtain ⟨c1, hc1⟩ : ∃ c1, c1 = c.put (.low r) (Word.ofBool (d.holds c.flags)) := ⟨_, rfl⟩
  obtain ⟨c2, hc2⟩ : ∃ c2, c2 = c1.put (.low r11) (Word.ofBool (e.holds c.flags)) := ⟨_, rfl⟩
  have hl : c2.get (.low r) = Word.ofBool (d.holds c.flags) := by
    have hgp : c2.gp r = c1.gp r := by
      rw [hc2]
      exact update_of_ne hr ..
    change c2.gp r &&& 0xFF = _
    rw [hgp, hc1]
    exact (Cpu.get_low_put_low ..).trans (Word.ofBool_and_byte _)
  have hoh : c2.get (.low r11) = Word.ofBool (e.holds c.flags) := by
    rw [hc2]
    exact (Cpu.get_low_put_low ..).trans (Word.ofBool_and_byte _)
  obtain ⟨fl, ha⟩ : ∃ fl, c2.alu env o (.low r) (c2.get (.low r11)) =
      (c2.put (.low r) (Word.ofBool p)).setFlags fl := by
    unfold Cpu.alu
    dsimp only
    rw [if_neg ho, hl, hoh, hp]
    exact ⟨_, rfl⟩
  have hs : (Instr.setcc d (.low r)).exec env c = some c1 := by rw [hc1]; rfl
  have hs' : (Instr.setcc e (.low r11)).exec env c1 = some c2 := by
    rw [hc2, hc1]
    rfl
  have hc : (Instr.alu o (.low r) (.low r11)).exec env c2 =
      some ((c2.put (.low r) (Word.ofBool p)).setFlags fl) := by
    rw [← ha]
    rfl
  refine ⟨c2.gp r11, fl, .cons hs (.cons hs' (.cons hc (.instr ?_)))⟩
  have hw : ((c2.put (.low r) (Word.ofBool p)).setFlags fl).get (.low r) = Word.ofBool p :=
    (Cpu.get_low_put_low (c := c2) ..).trans (Word.ofBool_and_byte _)
  change some (((c2.put (.low r) (Word.ofBool p)).setFlags fl).setGp r
    (((c2.put (.low r) (Word.ofBool p)).setFlags fl).get (.low r) &&& 0xFFFFFFFF)) = _
  rw [hw, Word.ofBool_and_half]
  -- Only the two registers differ from what they were.
  have hgp : ((c2.put (.low r) (Word.ofBool p)).setFlags fl).gp =
      update c2.gp r (c2.gp r &&& 0xFFFFFFFFFFFFFF00 ||| Word.ofBool p &&& 0xFF) := rfl
  have hg (n : Int) (hn : n ≠ r11) (hnr : n ≠ r) : c2.gp n = c.gp n := by
    rw [hc2, hc1]
    exact (update_of_ne hn ..).trans (update_of_ne hnr ..)
  have hre : { c2 with gp := c.gp } = c := by
    rw [hc2, hc1]
    rfl
  have hf : update (update c2.gp r
      (c2.gp r &&& 0xFFFFFFFFFFFFFF00 ||| Word.ofBool p &&& 0xFF)) r (Word.ofBool p) =
      update (update c.gp r11 (c2.gp r11)) r
        (Word.ofBool p) := by
    rw [update_idem]
    funext n
    by_cases hnr : n = r
    · subst hnr
      rw [update_self, update_self]
    · rw [update_of_ne hnr, update_of_ne hnr]
      by_cases hn : n = r11
      · rw [hn, update_self]
      · rw [update_of_ne hn, hg n hn hnr]
  unfold Cpu.setGp
  rw [hgp, hf]
  conv_rhs => rw [← hre]
  rfl

/-- The word that says whether two floats are equal, or that they are not. -/
def equalityCode (o : Opcode) (r : Int) : List Fragment :=
  (if o = .floatEq then
    [.instr (.setcc .e (.low r)), .instr (.setcc .np (.low r11)),
      .instr (.alu .and (.low r) (.low r11))]
  else
    [.instr (.setcc .ne (.low r)), .instr (.setcc .p (.low r11)),
      .instr (.alu .or (.low r) (.low r11))]) ++ [.instr (widenByte r)]

theorem within_equalityCode (o : Opcode) (r : Int) :
    Within σ (Fragment.piecesAll .main .main (equalityCode o r)) := by
  unfold equalityCode
  split <;> exact within_cons (.idle rfl rfl) (within_cons (.idle rfl rfl)
    (within_cons (.idle rfl rfl) (within_cons (.idle rfl rfl) within_nil)))

theorem piecesAll_equalityCode (o : Opcode) (r : Int) :
    Fragment.piecesAll .cold .main (equalityCode o r) = [] := by
  unfold equalityCode
  split <;> rfl

theorem falls_equalityCode (env : Setting ω) (c : Cpu ω) (ho : o = .floatEq ∨ o = .floatNe)
    (hr : r ≠ r11) (hf : c.flags = Machine.floatFlags x y) :
    ∃ z fl, Falls env (Fragment.piecesAll .main .main (equalityCode o r)) c
      (((c.setGp r11 z).setGp r (Word.ofBool (floatTest o x y))).setFlags fl) := by
  rcases ho with rfl | rfl
  · refine falls_setccPair env c hr (by decide) ?_
    rw [hf]
    exact (Word.ofBool_and ..).trans (congrArg Word.ofBool Machine.Cond.holds_e_float)
  · refine falls_setccPair env c hr (by decide) ?_
    rw [hf]
    exact (Word.ofBool_or ..).trans (congrArg Word.ofBool Machine.Cond.holds_ne_float)

theorem floatCompare_lowered (hre : Ready u ks pos op s)
    (ho : isFloatCompare op.opcode = true) (hb : op.result = some b)
    (hy : Yields (floatCompare pos op next) u.req s t s') : Lowered u ks pos op next s s' := by
  obtain ⟨x, hx, hy1⟩ := hy.argBind
  obtain ⟨y, hyy, hy2⟩ := hy1.argBind
  obtain ⟨d, s3, hen, hy3⟩ := hy2.bind
  obtain ⟨e, s4, hen', hy4⟩ := hy3.bind
  have hm : x ∈ op.args := mem_of_getElem? hx
  have hme : y ∈ op.args := mem_of_getElem? hyy
  obtain ⟨A, B, rfl, rfl, _, _, hp⟩ := pair_part hre.ok (hre.arg_known hm)
    (hre.arg_known hme) hen hen' (fun b hb => mem_holders.mpr ⟨b, rfl, by simp [hb]⟩)
    fun _ => rfl
  have hc := isComparison_of_isFloatCompare ho
  have hra : ∀ v m w m', Agrees u m v → Eval.Ran u.env.host op m w m' →
      m'.world = m.world ∧ w = Word.ofBool (floatTest op.opcode (A.word v) (B.word v)) := by
    intro v m w m' ha hra
    obtain ⟨hw, rfl⟩ := hra.float_inv (by
      rw [floatResult_of_isFloatCompare ho]
      rfl)
    rw [floatResult_of_isFloatCompare ho, hre.argWord ha hx, hre.argWord ha hyy] at hw
    exact ⟨rfl, (Option.some.inj hw).symm⟩
  have hv {c : Cpu ω} {v : Box → Word} {c' : Cpu ω} {v' : Box → Word}
      (h : Pair u .float d e A B c v c' v') : c'.xmm d = A.word v ∧ c'.xmm e = B.word v :=
    ⟨h.2.1, h.2.2.1⟩
  -- The four ordered comparisons end alike.
  have hor {cond : Machine.Cond} {d' e' : Int}
      (hf : ∀ c v c' v', Pair u .float d e A B c v c' v' →
        cond.holds (Machine.floatFlags (c'.xmm d') (c'.xmm e')) =
          floatTest op.opcode (A.word v) (B.word v))
      (hy : Yields (do
        emitInstr (.ucomisd (floatOperand d') (floatOperand e'))
        finishCompare pos op next cond) u.req s4 t s') : Lowered u ks pos op next s s' := by
    have hfi := hy.emitBind
    exact finishCompare_lowered hre hb hc (hp.ucomisd hf) (hp.endsComparing rfl) hra
      hfi
  dsimp only at hy4
  split at hy4
  iterate 4
    · rename_i hop
      refine hor (fun c v c' v' h => ?_) hy4
      rw [(hv h).1, (hv h).2, hop]
      first
        | exact Machine.Cond.holds_a_float
        | exact Machine.Cond.holds_ae_float
  · rename_i hlt hle hgt hge
    have ho' : op.opcode = .floatEq ∨ op.opcode = .floatNe := by
      cases hop : op.opcode <;> rw [hop] at ho <;> first
        | exact absurd ho Bool.false_ne_true
        | exact .inl rfl
        | exact .inr rfl
        | exact absurd hop hlt
        | exact absurd hop hle
        | exact absurd hop hgt
        | exact absurd hop hge
    have hy5 := hy4.emitBind
    obtain ⟨_, s6, hrl, hy6⟩ := hy5.bind
    obtain ⟨r, s7, hal, hy7⟩ := hy6.bind
    rw [hb] at hal
    obtain ⟨_, rfl⟩ : t = () ∧ s' = s7.emitted (equalityCode op.opcode r) := by
      refine ⟨rfl, ?_⟩
      unfold equalityCode
      split at hy7 <;> rename_i hop
      · have hwi := hy7.emitBind
        rw [hwi.emit, emitted_emitted, if_pos hop]
      · have hwi := hy7.emitBind
        rw [hwi.emit, emitted_emitted, if_neg hop]
    have hfa : Part u ks pos s (s4.emitted [.instr (.ucomisd (floatOperand d) (floatOperand e))])
        fun c v c' v' => c'.flags = Machine.floatFlags (A.word v) (B.word v) ∧
          c'.world = c.world ∧ ∀ b, b.id ≤ u.made → v' b = v b := by
      refine hp.instr (.idle rfl rfl) fun c v c' v' hg' h => ?_
      refine ⟨_, v', rfl, hg'.alike hp.ok (.setFlags c' _), ?_, h.1.world, h.2.2.2⟩
      rw [← (hv h).1, ← (hv h).2]
      rfl
    have hs := releaseArgs_silent hfa.ok hrl
    obtain ⟨hrg, hfr, _, han⟩ :=
      allocate_answers (hre.grow hb hs.ok) (hre.unplaced hb hs.ok .gp) rfl hal
    have hr := han.ok.mem_gpOrder hrg
    have hr1 : r ≠ r11 := by
      rintro rfl
      exact absurd hr (by decide)
    have hco : Part u (b :: ks) pos s (s7.emitted (equalityCode op.opcode r))
        (Computes u b fun v => Word.ofBool (floatTest op.opcode (A.word v) (B.word v))) := by
      refine ((hre.part hb (hfa.trans hs.part)).trans han.part).code
        (within_equalityCode _ _) (piecesAll_equalityCode ..) ?_
      rintro c v c' v' hg' ⟨c1, v1, ⟨c2, v2, ⟨hfl, hwo, hsa⟩, rfl, rfl⟩, hq, ⟨z, rfl⟩, _⟩
      obtain ⟨z', fl, hfs⟩ := falls_equalityCode u.env c' ho' hr1 (hq.flags.trans hfl)
      refine ⟨_, _, hfs, ((hg'.alike han.ok (.setScratch ..)).setGp han.ok hrg hfr _).alike
        han.ok (.setFlags ..), hq.world.trans hwo, update_self .., fun b' hb' hne => ?_⟩
      rw [update_of_ne hne, update_of_ne hne, hsa b' hb']
    exact hco.computed hre hb
      (inRegister_of_regOf (hre.result_class hb (resultKind_of_isComparison hc))
        (by rwa [bank_emitted])) hra

/-! ## Conversions -/

theorem converted_lowered (cls cls' : RegClass) {x : Option Value} {src dst : Int}
    {i : Instr} {f : Word → Word} (hr : Ready u ks pos op s) (hb : op.result = some b)
    (hcl : classOf b.kind = cls') (hx : op.args[0]? = some x) (ho : Eval.isUnary op.opcode = true)
    (hf : ∀ z, f z = (Eval.unaryResult? op.opcode z).getD 0)
    (hen : Yields (onBank cls (AllocM.ensure pos x {})) u.req s src s')
    (hrs : Yields (do
      releaseArgs pos op
      onBank cls' (AllocM.allocate pos op.result {})) u.req s' dst s'')
    (hin : Confined (u.scope s''.frame) i)
    (he : ∀ {c : Cpu ω} {v : Box → Word}, Ok u (b :: ks) s'' → Good u s'' c v →
      (s''.bank cls').regOf (some b) = some dst → b ∉ (s''.bank cls').inFrame →
      ∃ c', i.exec u.env c = some c' ∧ c'.world = c.world ∧
        Good u s'' c' (update v b (f (c.contents (.reg ⟨cls, src⟩))))) :
    Lowered u ks pos op next s (s''.emitted [.instr i]) := by
  obtain ⟨_, s1, hre, ha⟩ := hrs.bind
  rw [hb] at ha
  have hm : x ∈ op.args := mem_of_getElem? hx
  obtain ⟨X, rfl, ⟨q, hq, _⟩, _, han⟩ := ensure_answers hr.ok (hr.arg_known hm) hen
  have hs := releaseArgs_silent han.ok hre
  obtain ⟨hr0, hfr, _, han'⟩ := allocate_answers (hr.grow hb hs.ok) (hr.unplaced hb hs.ok cls') rfl ha
  have hsr := han.ok.mem_pool hq
  have hne : (⟨cls, src⟩ : Reg) ≠ Reg.gp r11 := by
    rintro ⟨⟩
    exact absurd (Limits.mem_gp hsr) (by decide)
  have hc : Part u (b :: ks) pos s (s''.emitted [.instr i])
      (Computes u b fun v => f (X.word v)) := by
    refine ((hr.part hb (han.part.trans hs.part)).trans han'.part).instr hin ?_
    rintro c v c' v' hg' ⟨c1, v1, ⟨c2, v2, ⟨hqu, hv, hsa⟩, rfl, rfl⟩, hqu', ⟨z, rfl⟩, hrg⟩
    obtain ⟨c'', hi, hw, hg''⟩ := he han'.ok hg' hr0 hfr
    refine ⟨c'', _, hi, hg'', hw.trans (hqu'.world.trans hqu.world), ?_, fun b' hb' hne' => ?_⟩
    · rw [update_self, hrg _ hne, hv]
    · rw [update_of_ne hne', update_of_ne hne', hsa b' (hb'.trans hr.ok.made)]
  refine hc.computed hr hb (inRegister_of_regOf hcl (by rwa [bank_emitted])) ?_
  intro v m w m' hag hra
  obtain ⟨rfl, rfl⟩ := hra.unary_inv ho
  rw [hr.argWord hag hx, hf]
  exact ⟨rfl, rfl⟩

theorem cast_lowered (hre : Ready u ks pos op s)
    (ho : op.opcode = .castFloatToInt ∨ op.opcode = .castIntToFloat) (hb : op.result = some b)
    (hy : Yields (cast pos op) u.req s t s') : Lowered u ks pos op next s s' := by
  obtain ⟨x, hx, hy1⟩ := hy.argBind
  split at hy1
  · rename_i hop
    obtain ⟨src, s2, hen, hy2⟩ := hy1.bind
    obtain ⟨_, s3, hr, hy3⟩ := hy2.bind
    obtain ⟨dst, s4, ha, he⟩ := hy3.bind
    cases he.emit
    refine converted_lowered .float .gp (f := Double.truncate) hre hb
      (hre.result_class hb (k := .int) (by rw [hop]; rfl)) hx (by rw [hop]; rfl)
      (by rw [hop]; exact fun _ => rfl) hen (yields_bind.mpr ⟨_, _, hr, ha⟩)
      (.idle rfl rfl) ?_
    exact fun hok hg hrg hf => ⟨_, rfl, rfl, hg.setGp hok hrg hf _⟩
  · rename_i hop
    have hop := ho.resolve_left hop
    obtain ⟨src, s2, hen, hy2⟩ := hy1.bind
    obtain ⟨_, s3, hr, hy3⟩ := hy2.bind
    obtain ⟨dst, s4, ha, he⟩ := hy3.bind
    cases he.emit
    refine converted_lowered .gp .float
      (f := fun z => Double.ofInt (Word.signed z)) hre hb
      (hre.result_class hb (k := .float) (by rw [hop]; rfl)) hx (by rw [hop]; rfl)
      (by rw [hop]; exact fun _ => rfl) hen (yields_bind.mpr ⟨_, _, hr, ha⟩)
      (.idle rfl rfl) ?_
    exact fun hok hg hrg hf => ⟨_, rfl, rfl, hg.setXmm hok hrg hf _⟩

end TraceCompiler.Lowering
