import TraceCompiler.Proofs.Lowering.Operations

/-! # The code of integer operations
-/

namespace TraceCompiler.Lowering

open Machine (Cpu Setting Falls Fragment Quiet Instr)
open Machine.Reg (rcx rsp)
open Function (update_of_ne update_self)
open CompileM Eval

variable {ω : Type} {u : Setup ω} {pos : Nat} {c c' : Cpu ω} {r : Int} {op : Op}
  {m m' : Eval.Machine ω} {w : Word} {o : Opcode} {h : Host ω}

theorem sameAs_lowered (hr : Ready u ks pos op s)
    (ho : op.opcode = .sameAsI ∨ op.opcode = .sameAsR ∨ op.opcode = .sameAsF)
    (hy : Yields (do
      let kind := (← need op.result).kind
      let v ← CompileM.arg op 0
      discard (onKind kind (AllocM.resultInSameRegister pos op.result v {}))) u.req s t s') :
    Lowered u ks pos op next s s' := by
  obtain ⟨b, hb, hy1⟩ := hy.needBind
  obtain ⟨x, hx, hy2⟩ := hy1.argBind
  obtain ⟨r, hy3, _⟩ := yields_map.mp hy2
  rw [hb] at hy3
  obtain ⟨y, rfl, hre, hf, _, _, han⟩ := shared_answers (hr.grow hb hr.ok)
    (hr.arg_known_cons (List.mem_of_getElem? hx) b) (hr.unplaced hb hr.ok _) hy3
  refine han.part.lowered hr hb (inRegister_of_regOf rfl hre) ?_
  rintro c v c' v' m w m' ⟨hq, rfl⟩ ha hra
  obtain ⟨rfl, rfl⟩ := hra.unary_inv (by rcases ho with ho | ho | ho <;> simp [ho, isUnary])
  refine ⟨rfl, hq.world, ?_, fun b' _ hne => update_of_ne hne ..⟩
  rw [update_self, hr.argWord ha hx]
  rcases ho with ho | ho | ho <;> simp [ho, unaryResult?]

theorem exec_intUnary (env : Setting ω) (c : Cpu ω) (r : Int) (ho : o = .intNeg ∨ o = .intInvert) :
    ∃ f, (Instr.unary (if o = .intNeg then .neg else .not) (gpOperand r)).exec env c =
      some ((c.setGp r ((unaryResult? o (c.gp r)).getD 0)).setFlags f) := by
  rcases ho with rfl | rfl
  · exact ⟨_, rfl⟩
  · exact ⟨c.flags, rfl⟩

theorem intUnary_lowered (hr : Ready u ks pos op s)
    (ho : op.opcode = .intNeg ∨ op.opcode = .intInvert) (hb : op.result = some b)
    (hy : Yields (intUnary pos op) u.req s t s') : Lowered u ks pos op next s s' := by
  obtain ⟨x, hx, hy1⟩ := hy.argBind
  obtain ⟨r, s2, hs, hy2⟩ := hy1.bind
  cases hy2.emit
  rw [hb] at hs
  obtain ⟨X, rfl, hre, hf, _, _, han⟩ := shared_answers (hr.grow hb hr.ok)
    (hr.arg_known_cons (List.mem_of_getElem? hx) b) (hr.unplaced hb hr.ok .gp) hs
  have hc := Part.compute (f := fun v => (unaryResult? op.opcode (X.word v)).getD 0)
    han.taken hre hf (.idle rfl rfl) fun c v c' v' hg' hQ => by
      have hv : c'.gp r = v' b := hg'.reg han.ok hre
      have he := exec_intUnary u.env c' r ho
      rwa [hv, hQ] at he
  refine hc.computed hr hb (inRegister_of_regOf (hr.result_class hb (k := .int)
    (by rcases ho with ho | ho <;> rw [ho] <;> rfl)) (by rwa [bank_emitted]))
    fun v m w m' ha hra => ?_
  obtain ⟨rfl, rfl⟩ := hra.unary_inv (by rcases ho with ho | ho <;> simp [ho, isUnary])
  exact ⟨rfl, by rw [hr.argWord ha hx]⟩

/-! ## Two operands -/

def binaryResult (o : Opcode) (x y : Word) : Word :=
  match aluOf o with
  | some op => op.result x y
  | none => x * y

/-- The overflow flag behind the instruction of a two-operand operation. -/
def binaryOverflow (o : Opcode) (x y : Word) : Bool :=
  match aluOf o with
  | some op => (op.flags x y false).overflow
  | none => mulOverflows x y

theorem binaryResult_comm (ho : isCommutative o = true) (x y : Word) :
    binaryResult o x y = binaryResult o y x := by
  cases o <;> first
    | exact absurd ho (by decide)
    | exact UInt64.add_comm ..
    | exact UInt64.mul_comm ..
    | exact UInt64.and_comm ..
    | exact UInt64.or_comm ..
    | exact UInt64.xor_comm ..

theorem binaryOverflow_comm (ho : isCommutative o = true) (x y : Word) :
    binaryOverflow o x y = binaryOverflow o y x := by
  have ha : addOverflows x y = addOverflows y x := by
    unfold addOverflows
    rw [UInt64.add_comm y x]
    cases isNegative x <;> cases isNegative y <;> rfl
  have hm : mulOverflows x y = mulOverflows y x := by
    unfold mulOverflows
    rw [Nat.mul_comm, bne_comm]
  cases o <;> first
    | exact absurd ho (by decide)
    | exact ha
    | exact hm
    | rfl

theorem aluOf_ne_cmp {op : Machine.AluOp} (h : aluOf o = some op) : op ≠ .cmp := by
  rintro rfl
  cases o <;> cases h

theorem confined_binaryInstr (r : Machine.Reg) (hs : src.Allowed σ) :
    Confined σ (binaryInstr o r src) := by
  unfold binaryInstr
  cases src with
  | reg _ | imm _ => split <;> rename_i heq <;> cases heq <;> exact .idle rfl rfl
  | mem m => split <;> rename_i heq <;> cases heq <;> exact confined_of_load rfl rfl (hs m rfl)

theorem exec_binaryInstr (hs : src.Reads env c y) (hr : r ≠ rsp) :
    ∃ f, (binaryInstr o (gpOperand r) src).exec env c =
      some ((c.setGp r (binaryResult o (c.gp r) y)).setFlags f) ∧
        f.overflow = binaryOverflow o (c.gp r) y := by
  unfold binaryResult binaryOverflow
  cases ha : aluOf o with
  | some op =>
    have hin : binaryInstr o (gpOperand r) src = aluInstr op (gpOperand r) src := by
      unfold binaryInstr
      rw [ha]
      cases src <;> rfl
    rw [hin, exec_aluInstr hs hr, alu_wide (aluOf_ne_cmp ha)]
    exact ⟨_, rfl, by cases op <;> rfl⟩
  | none =>
    unfold binaryInstr
    rw [ha]
    cases src with
    | reg q =>
      change ∃ f, some (c.imul env (gpOperand r) (c.gp r) (c.get q)) = _ ∧ _
      rw [show c.get q = y from hs]
      exact ⟨_, rfl, rfl⟩
    | mem mem =>
      change ∃ f, (mem.read? env 8 c).map (c.imul env (gpOperand r) (c.gp r)) = _ ∧ _
      rw [show mem.read? env 8 c = some y from hs]
      exact ⟨_, rfl, rfl⟩
    | imm i =>
      change ∃ f, some (c.imul env (gpOperand r) (c.gp r) (Word.ofInt i)) = _ ∧ _
      rw [show Word.ofInt i = y from hs]
      exact ⟨_, rfl, rfl⟩

def isIntBinary : Opcode → Bool
  | .intAdd | .intSub | .intMul | .intAnd | .intOr | .intXor | .intAddOvf | .intSubOvf
  | .intMulOvf => true
  | _ => false

theorem kinds_of_isIntBinary (ho : isIntBinary o = true) :
    o.isVariadic = false ∧ o.argKinds = [.int, .int] ∧ o.resultKind = .int := by
  cases o <;> first
    | exact ⟨rfl, rfl, rfl⟩
    | cases ho

theorem intResult_of_isIntBinary (ho : isIntBinary o = true) (hov : o.isOverflow = false)
    (x y : Word) : intResult? o x y = some (binaryResult o x y) := by
  cases o <;> first
    | rfl
    | exact absurd ho Bool.false_ne_true
    | exact absurd hov.symm Bool.false_ne_true

theorem overflowResult_eq (ho : o.isOverflow = true) (x y : Word) :
    overflowResult? o x y = some (binaryResult o x y, binaryOverflow o x y) := by
  cases o <;> first
    | rfl
    | cases ho

theorem ran_binary (hr : Ran h op m w m') (ho : isIntBinary op.opcode = true) :
    w = binaryResult op.opcode (m.argWord op 0) (m.argWord op 1) ∧ m'.world = m.world ∧
      (op.opcode.isOverflow = true →
        m'.overflow = binaryOverflow op.opcode (m.argWord op 0) (m.argWord op 1)) := by
  cases hov : op.opcode.isOverflow with
  | true =>
    obtain ⟨f, hw, rfl⟩ := hr.overflow_inv hov
    cases (overflowResult_eq hov ..).symm.trans hw
    exact ⟨rfl, rfl, fun _ => rfl⟩
  | false =>
    obtain ⟨hw, rfl⟩ := hr.int_inv (by rw [intResult_of_isIntBinary ho hov]; rfl)
    rw [intResult_of_isIntBinary ho hov] at hw
    exact ⟨(Option.some.inj hw).symm, rfl, nofun⟩

theorem intBinary_lowered (hre : Ready u ks pos op s)
    (ho : isIntBinary op.opcode = true) (hb : op.result = some b)
    (hy : Yields (intBinary pos op) u.req s t s') : Lowered u ks pos op next s s' := by
  obtain ⟨x, hx, hy1⟩ := hy.argBind
  obtain ⟨y, hyy, hy2⟩ := hy1.argBind
  cases hcr : constRight op.opcode x y with | mk x' y' =>
  have hsw := constRight_cases hcr
  have hm := constRight_mem hcr hx hyy
  rw [hcr] at hy2
  obtain ⟨r, s3, hs, hy3⟩ := hy2.bind
  dsimp only at hy3
  obtain ⟨src, s4, hso, hy4⟩ := yields_ite_bind.mp hy3
  have hy5 := hy4.emitBind
  rw [hb] at hs hso
  obtain ⟨X, Y, rfl, rfl, hsr, hrg', hfr', hpa⟩ := hre.operands hb hm.1 hm.2
    (takes_int u) hs hso
    (fun hok => intSource_answers hok (hre.arg_known_cons hm.2 b)) (by simp)
  have hrs : r ≠ rsp := by
    rintro rfl
    exact absurd (hpa.ok.mem_gpOrder hrg') (by decide)
  have hd := hpa.instr (Q := fun c v c' v' =>
      Computes u b (fun v => binaryResult op.opcode (X.word v) (Y.word v)) c v c' v' ∧
        c'.flags.overflow = binaryOverflow op.opcode (X.word v) (Y.word v))
      (confined_binaryInstr _ hsr) (by
    rintro c v c' v' hg' ⟨hq, hX, hY, hsa⟩
    obtain ⟨f, he, hov⟩ := exec_binaryInstr (o := op.opcode) hY hrs
    have hv : c'.gp r = v' b := hg'.reg hpa.ok hrg'
    rw [hv, hX] at he hov
    refine ⟨_, _, he, (hg'.setGp hpa.ok hrg' hfr' _).alike hpa.ok (.setFlags _ f),
      ⟨hq.world, update_self .., fun b' hb' hne => ?_⟩, hov⟩
    rw [update_of_ne hne, hsa b' hb' hne])
  have hp (fs : List Fragment) : InRegister (s4.emitted fs) b := inRegister_of_regOf
    (hre.result_class hb (kinds_of_isIntBinary ho).2.2) ((bank_emitted ..).symm ▸ hrg')
  have hra {m m' : Machine ω} {w : Word} {v : Box → Word} (ha : Agrees u m v)
      (hr : Ran u.env.host op m w m') : m'.world = m.world ∧
        binaryResult op.opcode (X.word v) (Y.word v) = w ∧ (op.opcode.isOverflow = true →
          m'.overflow = binaryOverflow op.opcode (X.word v) (Y.word v)) := by
    obtain ⟨rfl, hwo, hf⟩ := ran_binary hr ho
    -- Exchanging the operands changes neither the result nor the flag.
    rcases hsw with ⟨rfl, rfl⟩ | ⟨hc, _, rfl, rfl⟩ <;>
      rw [hre.argWord ha hx, hre.argWord ha hyy] at *
    · exact ⟨hwo, rfl, hf⟩
    · exact ⟨hwo, binaryResult_comm hc .., fun h => (hf h).trans (binaryOverflow_comm hc ..)⟩
  split at hy5
  · rename_i hov
    cases yields_modify.mp hy5
    have hfu := hd.plain.fused.trans hre.fused
    refine hd.lowered_with hb le_rfl (fun _ => hp _) (by simp [hfu])
      (by simp [hfu])
      fun c v c' v' m w m' hR ha hr => ?_
    obtain ⟨hwo, hw, hf⟩ := hra ha hr
    exact ⟨hwo, hR.1.1, hR.1.2.1.trans hw, hR.1.2.2, fun _ => hR.2.trans (hf hov).symm, by simp [hfu]⟩
  · cases hy5
    refine hd.lowered hre hb (hp _) fun c v c' v' m w m' hR ha hr => ?_
    obtain ⟨hwo, hw, -⟩ := hra ha hr
    exact ⟨hwo, hR.1.1, hR.1.2.1.trans hw, hR.1.2.2⟩

theorem flagsFrom_of_isOverflow (ho : op.opcode.isOverflow = true)
    (hy : Yields (lower pos op next) u.req s t s') : s'.flagsFrom = pos := by
  have hl : lower pos op next = intBinary pos op := by
    obtain ⟨o, _, _, _, _⟩ := op
    cases o <;> cases ho <;> rfl
  rw [hl] at hy
  obtain ⟨x, -, hy1⟩ := hy.argBind
  obtain ⟨y, -, hy2⟩ := hy1.argBind
  obtain ⟨r, s1, -, hy3⟩ := hy2.bind
  obtain ⟨src, s2, -, hy4⟩ := yields_ite_bind.mp hy3
  obtain ⟨_, s3, -, hy5⟩ := hy4.bind
  rw [if_pos ho] at hy5
  cases yields_modify.mp hy5
  rfl

/-! ## Shifts -/

def isShift : Opcode → Bool
  | .intLshift | .intRshift | .uintRshift => true
  | _ => false

theorem kinds_of_isShift (ho : isShift o = true) :
    o.isVariadic = false ∧ o.argKinds = [.int, .int] ∧ o.resultKind = .int := by
  cases o <;> first
    | exact ⟨rfl, rfl, rfl⟩
    | cases ho

theorem intResult_of_isShift (ho : isShift o = true) (x y : Word) :
    intResult? o x y = some ((shiftOf o).result x y) := by
  cases o <;> first
    | rfl
    | cases ho

theorem shift_result_congr (o : Machine.ShiftOp) (a : Word) (h : n % 64 = n' % 64) :
    o.result a n = o.result a n' := by
  have hn : n.toNat % 64 = n'.toNat % 64 := by
    have := congrArg UInt64.toNat h
    simpa using this
  cases o <;> simp only [Machine.ShiftOp.result, shiftRight, h, hn]

theorem shift_result_zero (o : Machine.ShiftOp) (a : Word) : o.result a 0 = a := by
  cases o with
  | sar =>
    change Word.ofInt (Word.signed a / 1) = a
    rw [Int.ediv_one, Word.ofInt_signed]
  | shl => exact UInt64.shiftLeft_zero
  | shr => exact UInt64.shiftRight_zero

theorem shift_lowered (hr : Ready u ks pos op s) (ho : isShift op.opcode = true)
    (hb : op.result = some b) (hy : Yields (shift pos op) u.req s t s') :
    Lowered u ks pos op next s s' := by
  obtain ⟨x, hx, hy1⟩ := hy.argBind
  obtain ⟨y, hyy, hy2⟩ := hy1.argBind
  rw [hb] at hy2
  obtain ⟨hva, hk, hre⟩ := kinds_of_isShift ho
  have hd {X Y : Value} {r : Int} {s' : State} (hx : op.args[0]? = some (some X))
      (hyy : op.args[1]? = some (some Y)) (hrg : (s'.bank .gp).regOf (some b) = some r)
      (hpa : Part u (b :: ks) pos s s'
        (Computes u b fun v => (shiftOf op.opcode).result (X.word v) (Y.word v))) :
      Lowered u ks pos op next s s' := by
    refine hpa.computed hr hb
      (inRegister_of_regOf (hr.result_class hb hre) hrg) fun v m w m' ha hra => ?_
    obtain ⟨hw, rfl⟩ := hra.int_inv (by rw [intResult_of_isShift ho]; rfl)
    rw [intResult_of_isShift ho, hr.argWord ha hx, hr.argWord ha hyy] at hw
    exact ⟨rfl, (Option.some.inj hw).symm⟩
  obtain _ | count | q := y
  · exact (yields_fault hy2).elim
  · -- The count is in `rcx`, which the result must not take.
    dsimp only at hy2
    obtain ⟨_, s3, hfo, hy3⟩ := hy2.bind
    obtain ⟨r, s4, hs, hem⟩ := hy3.bind
    cases hem.emit
    have hc : some (.box count) ∈ op.args := List.mem_of_getElem? hyy
    have hcl : classOf count.kind = .gp := by
      have hki : count.kind = .int := hr.arg_kind hyy hva (by rw [hk]; rfl) (by simp)
      rw [hki]
      rfl
    have hl := hr.live count hc
    rw [hcl] at hl
    obtain ⟨_, hrc, han⟩ := force_answers hr.ok (hr.args count hc) hl hfo
    obtain ⟨X, rfl, hrg, hf, _, hop, han'⟩ := shared_answers (hr.grow hb han.ok)
      (hr.arg_known_cons (List.mem_of_getElem? hx) b) (hr.unplaced hb han.ok .gp) hs
    have hne : count ≠ b := fun he => hr.arg_ne hb hc (he ▸ rfl)
    have hrc' : (s4.bank .gp).regOf (some count) = some rcx := by
      by_cases hX : X = .box count
      · exact hop count _ hX hrc (by simp [Constraint.fits])
      · exact han'.keeps count _ ⟨.inl List.mem_cons_self, hX, hne⟩ hrc
    refine hd hx hyy ((bank_emitted ..).symm ▸ hrg) (Part.compute
      (i := .shiftCl (shiftOf op.opcode) (gpOperand r))
      (Q := fun _ v _ v' => v' b = X.word v ∧ v' count = v count)
      (((hr.part hb han.part).trans han'.part).mono ?_) hrg hf
      (.idle (i := .shiftCl _ (gpOperand r)) rfl rfl) fun c v c' v' hg' hQ => ?_)
    · rintro c v c' v' _ _ ⟨c1, v1, ⟨hq, rfl⟩, hq', rfl⟩
      exact ⟨⟨update_self .., update_of_ne hne ..⟩,
        hq'.world.trans hq.world, fun b' _ hne => update_of_ne hne ..⟩
    · have hv : c'.gp r = v' b := hg'.reg han'.ok hrg
      have hcn : c'.gp rcx = v' count := hg'.reg han'.ok hrc'
      have hee : ∃ fl, (Instr.shiftCl (shiftOf op.opcode) (gpOperand r)).exec u.env c' =
          some ((c'.setGp r ((shiftOf op.opcode).result (c'.gp r) (c'.gp rcx))).setFlags fl) := ⟨_, rfl⟩
      rwa [hv, hcn, hQ.1, hQ.2] at hee
  · dsimp only at hy2
    obtain ⟨r, s3, hs, hy3⟩ := hy2.bind
    obtain ⟨X, rfl, hrg, hf, _, _, han⟩ := shared_answers (hr.grow hb hr.ok)
      (hr.arg_known_cons (List.mem_of_getElem? hx) b) (hr.unplaced hb hr.ok .gp) hs
    split at hy3
    · cases hy3.emit
      refine hd hx hyy ((bank_emitted ..).symm ▸ hrg) (Part.compute
        (i := .shiftImm (shiftOf op.opcode) (gpOperand r) (q.bits &&& 63).toUInt8) han.taken hrg
        hf (.idle rfl rfl) fun c v c' v' hg' hQ => ?_)
      have hv : c'.gp r = v' b := hg'.reg han.ok hrg
      have hee : ∃ fl, (Instr.shiftImm (shiftOf op.opcode) (gpOperand r)
          (q.bits &&& 63).toUInt8).exec u.env c' = some ((c'.setGp r ((shiftOf op.opcode).result
            (c'.gp r) (q.bits &&& 63).toUInt8.toUInt64)).setFlags fl) := ⟨_, rfl⟩
      rwa [hv, hQ, shift_result_congr _ _ (Word.count_mod q.bits)] at hee
    · rename_i hz
      cases hy3
      refine hd hx hyy hrg (han.taken.mono fun c v c' v' _ _ h =>
        ⟨h.2.1, h.1.trans ?_, h.2.2⟩)
      have hm : q.bits % 64 = 0 % 64 := by
        rw [← Word.count_mod, not_not.mp hz]
        rfl
      exact ((shift_result_congr _ _ hm).trans (shift_result_zero ..)).symm

end TraceCompiler.Lowering

/-! ## The code of divisions -/

namespace TraceCompiler

open List

namespace Eval

theorem quotient_neg_one (a : Word) : quotient a 0xFFFFFFFFFFFFFFFF = 0 - a := by
  have hs : Word.signed 0xFFFFFFFFFFFFFFFF = -1 := by decide
  unfold quotient
  rw [hs, Int.tdiv_neg, Int.tdiv_one]
  have hsu := Word.ofInt_add (-Word.signed a) (Word.signed a)
  rw [Int.add_left_neg, Word.ofInt_signed] at hsu
  exact UInt64.eq_sub_iff_add_eq.mpr hsu.symm

theorem remainder_neg_one (a : Word) : remainder a 0xFFFFFFFFFFFFFFFF = 0 := by
  have hs : Word.signed 0xFFFFFFFFFFFFFFFF = -1 := by decide
  unfold remainder
  rw [hs, Int.tmod_neg, Int.tmod_one]
  rfl

end Eval

namespace Lowering

open Machine (Cpu Setting Falls Fragment Quiet Instr)
open Machine.Reg (rax rdx rsp)
open Function (update_comm update_idem update_of_ne update_self)
open CompileM

variable {ω : Type} {u : Setup ω} {ks : List Box} {pos : Nat} {s s' : State} {c c' : Cpu ω}
  {v v' : Box → Word} {b : Box} {r : Int} {op : Op} {next : Option Op} {m m' : Eval.Machine ω}
  {w : Word} {t : Unit} {env : Setting ω}

theorem exec_clear (env : Setting ω) (c : Cpu ω) (n : Int) :
    ∃ f, (Instr.alu .xor (.dword n) (.dword n)).exec env c = some ((c.setGp n 0).setFlags f) := by
  refine ⟨(env.junk c).2.2, ?_⟩
  change some ((c.setGp n ((c.get (.dword n) ^^^ c.get (.dword n)) &&& 0xFFFFFFFF)).setFlags _) = _
  rw [UInt64.xor_self, UInt64.zero_and]
  rfl

theorem exec_divide (env : Setting ω) (hrd : d ≠ rdx) (hne : c.gp d ≠ 0)
    (hm : c.gp d ≠ 0xFFFFFFFFFFFFFFFF) : ∃ f, (Instr.unary .idiv (gpOperand d)).exec env
      (c.setGp rdx (Machine.signWord (c.gp rax))) =
        some (((c.setGp rax (Eval.quotient (c.gp rax) (c.gp d))).setGp
          rdx (Eval.remainder (c.gp rax) (c.gp d))).setFlags f) := by
  obtain ⟨c1, hc1⟩ : ∃ c1, c1 = c.setGp rdx (Machine.signWord (c.gp rax)) := ⟨_, rfl⟩
  have hr : c1.gp rax = c.gp rax := by
    rw [hc1, Cpu.setGp_gp, update_of_ne (by decide)]
  have hd : c1.get (gpOperand d) = c.gp d := by
    rw [hc1, gpOperand, Cpu.get_wide, Cpu.setGp_gp, update_of_ne hrd]
  have hs : c1.gp rdx = Machine.signWord (c1.gp rax) := by
    rw [hr, hc1, Cpu.setGp_gp, update_self]
  obtain ⟨f, hf⟩ : ∃ f, (Instr.unary .idiv (gpOperand d)).exec env c1 = some (((c1.setGp
      rax (Eval.quotient (c1.gp rax) (c1.get (gpOperand d)))).setGp
      rdx (Eval.remainder (c1.gp rax) (c1.get (gpOperand d)))).setFlags f) :=
    ⟨_, if_pos ⟨hs, hd ▸ hne, hd ▸ hm⟩⟩
  refine ⟨f, hc1 ▸ hf.trans ?_⟩
  rw [hr, hd, hc1]
  unfold Cpu.setGp
  dsimp only
  rw [update_comm (by decide), update_idem, update_comm (by decide)]

theorem falls_divisionCode (env : Setting ω) (pos : Nat) (hr : d ≠ rdx)
    (hrs : d ≠ rsp) (hne : c.gp d ≠ 0) : ∃ f, Falls env (divisionCode pos (gpOperand d)) c
      (((c.setGp rax (Eval.quotient (c.gp rax) (c.gp d))).setGp
        rdx (Eval.remainder (c.gp rax) (c.gp d))).setFlags f) := by
  let normal := "div" ++ toString pos ++ "_normal"
  let done := "div" ++ toString pos ++ "_done"
  obtain ⟨f1, hf1, hcm⟩ : ∃ f, Machine.Cond.ne.holds f = !decide (c.gp d = 0xFFFFFFFFFFFFFFFF) ∧
      (Instr.aluImm .cmp (gpOperand d) (-1)).exec env c = some (c.setFlags f) :=
    ⟨_, Machine.Cond.holds_ne (p := (env.junk c).2.2.parity), if_neg hrs⟩
  by_cases hm : c.gp d = 0xFFFFFFFFFFFFFFFF
  · rw [hm, Eval.quotient_neg_one, Eval.remainder_neg_one]
    obtain ⟨f2, hng⟩ : ∃ f, (Instr.unary .neg (.wide rax)).exec env (c.setFlags f1) =
        some ((c.setGp rax (0 - c.gp rax)).setFlags f) := ⟨_, rfl⟩
    obtain ⟨f3, hc⟩ := exec_clear env ((c.setGp rax (0 - c.gp rax)).setFlags f2) rdx
    refine ⟨f3, fun prog pre rest hp hnd => ?_⟩
    have hs : prog = (pre ++ (divisionCode pos (gpOperand d)).dropLast) ++ .label done :: rest := by
      simp [hp, divisionCode, done]
    have hd := Machine.seek_of_nodup hnd hs
    exact .head (.instr hcm) (.head (.passed (by simp [hf1, hm])) (.head (.instr hng)
      (.head (.instr hc) (.single (.jump hd)))))
  · obtain ⟨f2, hid⟩ := exec_divide env (c := c.setFlags f1) hr hne hm
    refine ⟨f2, fun prog pre rest hp hnd => ?_⟩
    have hs : prog = (pre ++ (divisionCode pos (gpOperand d)).take 5) ++ .label normal ::
        .instr .cqo :: .instr (.unary .idiv (gpOperand d)) :: .label done :: rest := by
      simp [hp, divisionCode, done, normal]
    have hn := Machine.seek_of_nodup hnd hs
    exact .head (.instr hcm) (.head (.taken (by simp [hf1, hm]) hn) (.head (.instr rfl)
      (.head (.instr hid) (.single .label))))

/-- Before the code of a division: the dividend is in `rax`, nothing is in `rdx`, and the divisor is in
neither. -/
structure Divides (u : Setup ω) (ks : List Box) (pos : Nat) (X Y : Value) (high low : Box)
    (d : Int) (s s' : State) : Prop extends
    Part u ks pos s s' fun c v c' v' => Quiet c c' ∧ v' low = X.word v ∧ c'.gp d = Y.word v ∧
      ∀ b, b.id ≤ u.made → v' b = v b where
  high_temp : high ∈ (s'.bank .gp).temps
  low_temp : low ∈ (s'.bank .gp).temps
  high_reg : (s'.bank .gp).regOf (some high) = some rdx
  low_reg : (s'.bank .gp).regOf (some low) = some rax
  ne : high ≠ low
  divisor : d ∈ gpOrder
  ne_rdx : d ≠ rdx

theorem division_divides (hr : Ready u ks pos op s)
    (hy : Yields (division pos op) u.req s t s') : ∃ X Y high low d s1,
      op.args[0]? = some (some X) ∧ op.args[1]? = some (some Y) ∧ Divides u ks pos X Y high low d s s1 ∧
      Yields (onGp (AllocM.rebind (some (if op.opcode = .intMod then high else low)) op.result))
        u.req (s1.emitted (divisionCode pos (gpOperand d))) t s' := by
  obtain ⟨x, hx, hy1⟩ := hy.argBind
  obtain ⟨y, hyy, hy2⟩ := hy1.argBind
  obtain ⟨_, s1, hc, hy3⟩ := hy2.bind
  obtain ⟨high, s2, hte, hy4⟩ := hy3.bind
  obtain ⟨_, s3, hbi, hy5⟩ := hy4.bind
  obtain ⟨d, s4, hen, hy6⟩ := hy5.bind
  obtain ⟨low, s5, hte', hy7⟩ := hy6.bind
  obtain ⟨_, s6, hsh, hy8⟩ := hy7.bind
  have hre := hy8.emitBind
  obtain ⟨rfl, rfl⟩ := yields_temp.mp hte
  obtain ⟨rfl, rfl⟩ := yields_temp.mp hte'
  have hm := mem_of_getElem? hx
  have hme := mem_of_getElem? hyy
  have ha1 := clobber_answers hr.ok hc
  have htm := Silent.withTemp ha1.ok pos .gp pos .int
  obtain ⟨hh, _, ha3⟩ := bind_answers pos htm.ok (ha1.ok.unplaced_nextTemp .gp pos .int) hbi
  obtain ⟨Y, rfl, ⟨q, hq4, hqY⟩, hf, ha⟩ := ensure_answers ha3.ok (hr.arg_known hme) hen
  have hd := hf rfl
  have ht := Silent.withTemp ha.ok pos .gp pos .int
  obtain ⟨X, rfl, hl, _, hp, ho, han⟩ := shared_answers ht.ok
    (hr.arg_known hm) (ha.ok.unplaced_nextTemp .gp pos .int) hsh
  cases hp _ rfl
  -- The numbers of the two temporaries are beyond those of the trace.
  have hm1 : u.made ≤ s1.supply.made := ha1.ok.made
  have hma : s1.supply.made + 1 ≤ s3.supply.made := ha3.grows.made
  have hmd : s3.supply.made ≤ s4.supply.made := ha.grows.made
  have hne_low {b : Box} (hb : b.id ≤ s4.supply.made) : b ≠ s4.nextTemp .int := by
    rintro rfl
    rw [nextTemp_id] at hb
    omega
  have hne_high {b : Box} (hb : b.id ≤ u.made) : b ≠ s1.nextTemp .int := by
    rintro rfl
    rw [nextTemp_id] at hb
    omega
  have hhigh_low : s1.nextTemp .int ≠ s4.nextTemp .int :=
    hne_low ((nextTemp_id ..).trans_le (hma.trans hmd))
  have hne_temp {z : Value} (hz : some z ∈ op.args) {cls : RegClass} {s : State} {b : Box}
      (hok : Ok u ks s) (hb : b ∈ (s.bank cls).temps) : z ≠ .box b := by
    rintro rfl
    exact hok.not_temp (hr.args b hz) hb
  -- What was placed first stays where it is.
  have hhigh_mem := ha3.temps _ (nextTemp_mem_temps s1 .gp pos .int)
  have hhi := ha.keeps _ _ ⟨.inl mem_cons_self, hne_temp hme ha3.ok hhigh_mem⟩ hh
  have hhigh_mem₅ := mem_temps_withTemp (ha.temps _ hhigh_mem) pos .int
  have hhg := han.keeps _ _ ⟨.inr hhigh_mem₅, hne_temp hm ht.ok hhigh_mem₅, hhigh_low⟩
    ((regOf_withTemp ..).trans hhi)
  have hq_made : q.id ≤ s4.supply.made :=
    (ha.ok.tidy .gp).placed q (.inl (Option.isSome_iff_exists.mpr ⟨d, hq4⟩))
  obtain ⟨hd_rax, hd_rdx⟩ : d ≠ rax ∧ d ≠ rdx := by
    simpa [Constraint.fits] using hd
  have hq6 : (s6.bank .gp).regOf (some q) = some d := by
    have hq5 := (regOf_withTemp s4 .gp .gp pos .int (some q)).trans hq4
    by_cases hX : X = .box q
    · exact ho q d hX hq5 (by simp [Constraint.fits, Ne.symm hd_rax])
    · refine han.keeps q d ⟨?_, hX, hne_low hq_made⟩ hq5
      rcases hqY with rfl | ⟨hmm, _⟩
      · exact .inl (mem_append_left _ (mem_holders.mpr ⟨q, rfl, mem_cons_self⟩))
      · exact .inr (mem_temps_withTemp hmm pos .int)
  have ha' := ha.mono (Q := fun _ v _ v' => v' q = Y.word v ∧
    ∀ b, b.id ≤ s3.supply.made → v' b = v b) fun c v c' v' hg h =>
      ⟨by rw [← h.1, hg.reg ha.ok hq4], h.2⟩
  have hpa := ((((ha1.part.trans htm.part).trans ha3.part).trans ha'.part).trans ht.part).trans han.part
  refine ⟨X, Y, s1.nextTemp .int, s4.nextTemp .int, d, s6, hx, hyy, ⟨hpa.mono ?_, ?_, ?_, hhg,
    hl, hhigh_low, han.ok.mem_gpOrder hq6, hd_rdx⟩, hre⟩
  · rintro c v c6 v6 hg hgo ⟨c5, v5, ⟨c4, v4, ⟨c3, v3, ⟨c2, v2, ⟨c1, v1, ⟨hq, rfl⟩,
      rfl, rfl⟩, hqu, rfl⟩, hqi, hv, hs⟩, rfl, rfl⟩, hqe, rfl⟩
    have hs' {b : Box} (hb : b.id ≤ u.made) : v5 b = v2 b := by
      rw [hs b (hb.trans (by omega)), update_of_ne (hne_high hb)]
    refine ⟨((hq.trans hqu).trans hqi).trans hqe, ?_, ?_, fun b hb => ?_⟩
    · rw [update_self]
      exact word_congr fun b hb => hs' (hr.arg_made hm b hb)
    · have hrg := hgo.reg han.ok hq6
      rw [update_of_ne (hne_low hq_made), hv] at hrg
      refine hrg.trans (word_congr fun b hb => ?_)
      exact update_of_ne (hne_high (hr.arg_made hme b hb)) ..
    · rw [update_of_ne (hne_low (hb.trans (by omega))), hs' hb]
  · exact han.temps _ hhigh_mem₅
  · exact han.temps _ (nextTemp_mem_temps ..)

def divisionResult (o : Opcode) (x y : Word) : Word :=
  if o = .intMod then Eval.remainder x y else Eval.quotient x y

theorem within_divisionCode (pos : Nat) (d : Machine.Reg) : Within σ (divisionCode pos d) := by
  intro i hi
  simp only [divisionCode, mem_cons, Fragment.instr.injEq, reduceCtorEq, not_mem_nil,
    false_or, or_false] at hi
  rcases hi with rfl | rfl | rfl | rfl | rfl <;> exact .idle rfl rfl

theorem division_computes (hr : Ready u ks pos op s) (hb : op.result = some b)
    (hy : Yields (division pos op) u.req s t s') :
    ∃ X Y r, op.args[0]? = some (some X) ∧ op.args[1]? = some (some Y) ∧
      (s'.bank .gp).regOf (some b) = some r ∧ PartIf u (b :: ks) pos s s' (fun _ v => Y.word v ≠ 0)
        (Computes u b fun v => divisionResult op.opcode (X.word v) (Y.word v)) := by
  obtain ⟨X, Y, high, low, d, s1, hx, hyy, hdv, hre⟩ := division_divides hr hy
  rw [hb] at hre
  have hdi : PartIf u ks pos s (s1.emitted (divisionCode pos (gpOperand d)))
      (fun _ v => Y.word v ≠ 0) fun c v c' v' => c'.world = c.world ∧
        v' low = Eval.quotient (X.word v) (Y.word v) ∧
        v' high = Eval.remainder (X.word v) (Y.word v) ∧ ∀ b, b.id ≤ u.made → v' b = v b := by
    refine (hdv.given _).code (within_divisionCode pos _) rfl ?_
    rintro c v c1 v1 hne hg ⟨hq, hl, hd, hs⟩
    have hra : c1.gp rax = X.word v := by
      rw [← hl]
      exact hg.reg hdv.ok hdv.low_reg
    obtain ⟨f, hf⟩ := falls_divisionCode u.env pos hdv.ne_rdx
      (not_rsp_of_mem hdv.divisor) (hd ▸ hne)
    rw [hra, hd] at hf
    have hne_temp {b t : Box} (hb : b.id ≤ u.made) (ht : t ∈ (s1.bank .gp).temps) : b ≠ t := by
      rintro rfl
      exact absurd (hdv.ok.temps .gp b ht) (not_lt.mpr hb)
    refine ⟨_, _, hf, ((hg.setGp hdv.ok hdv.low_reg
      (hdv.ok.temp_not_stored hdv.low_temp) _).setGp hdv.ok hdv.high_reg
      (hdv.ok.temp_not_stored hdv.high_temp) _).alike hdv.ok (.setFlags _ f), hq.world, ?_,
      update_self .., fun b hb => ?_⟩
    · rw [update_of_ne hdv.ne.symm, update_self]
    · rw [update_of_ne (hne_temp hb hdv.high_temp), update_of_ne (hne_temp hb hdv.low_temp), hs b hb]
  have hold : (if op.opcode = .intMod then high else low) ∈
      ((s1.emitted (divisionCode pos (gpOperand d))).bank .gp).temps := by
    rw [bank_emitted]
    split
    · exact hdv.high_temp
    · exact hdv.low_temp
  obtain ⟨⟨r, hrg⟩, hfr, hc, hpa⟩ := rebind_part pos (hr.grow hb hdi.ok)
    mem_cons_self (hr.unplaced hb hdi.ok .gp) hold hre
  have hgr := { hdi with ok := hr.grow hb hdi.ok }
  refine ⟨X, Y, r, hx, hyy, hrg, (hgr.trans (hpa.given fun _ _ => True)
    fun _ _ _ _ _ _ => trivial).mono (fun _ _ h => h) ?_⟩
  rintro c v c3 _ _ _ _ ⟨c2, v2, ⟨hw, hl, hh, hs⟩, hq, rfl⟩
  refine ⟨hq.world.trans hw, (update_self ..).trans ?_, fun b' hb' hne => ?_⟩
  · dsimp only [divisionResult]
    split
    · exact hh
    · exact hl
  · rw [update_of_ne hne, hs b' hb']

def divisionEffect (o : Opcode) (X Y : Value) (world : ω) (v : Box → Word) : Option (Word × ω) :=
  if Y.word v = 0 then none else some (divisionResult o (X.word v) (Y.word v), world)

theorem division_lowered (hr : Ready u ks pos op s)
    (ho : op.opcode = .intFloordiv ∨ op.opcode = .intMod) (hb : op.result = some b)
    (hy : Yields (division pos op) u.req s t s') : Lowered u ks pos op next s s' := by
  obtain ⟨X, Y, r, hx, hyy, hre, hp⟩ := division_computes hr hb hy
  have hne {world : ω} {v : Box → Word} (h : (divisionEffect op.opcode X Y world v).isSome) :
      Y.word v ≠ 0 := fun hz => by simp [divisionEffect, hz] at h
  refine PartIf.performed (e := divisionEffect op.opcode X Y) ?_ hr (fun b' hb' => ?_) ?_
  · rw [hb]
    refine hp.mono (fun _ _ h => hne h) fun c v c' v' hs _ _ hR => ?_
    obtain ⟨w, he, hv⟩ := hR.performs hb
    exact ⟨w, by rw [divisionEffect, if_neg (hne hs)]; exact he, hb ▸ hv⟩
  · cases hb.symm.trans hb'
    exact inRegister_of_regOf
      (hr.result_class hb (k := .int) (by rcases ho with ho | ho <;> rw [ho] <;> rfl)) hre
  · intro _ v m w m' ha hra
    obtain ⟨hne, rfl, rfl⟩ := hra.division_inv ho
    rw [hr.argWord ha hyy] at hne ⊢
    rw [hr.argWord ha hx, divisionEffect, if_neg hne, divisionResult]

end Lowering

end TraceCompiler
