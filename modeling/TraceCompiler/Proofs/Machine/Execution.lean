import Mathlib.Algebra.Order.Ring.Int
import Mathlib.Logic.Function.Basic
import Mathlib.Logic.Relation
import Mathlib.Tactic.Simps.Basic
import TraceCompiler.Eval.Arith
import TraceCompiler.Eval.Host
import TraceCompiler.Machine.Assembly

/-! # What code does

A `Cpu` has general and float registers, flags, a stack, and three kinds of memory: the words of a
frame, the entries of a value array, and everything else, which belongs to the world of a `Host`.
-/

namespace TraceCompiler.Machine

structure Flags where
  zero : Bool
  carry : Bool
  sign : Bool
  overflow : Bool
  parity : Bool
  deriving Inhabited

def Cond.holds (c : Cond) (f : Flags) : Bool :=
  let positive : Bool := match (c.code.toNat / 2) % 8 with
    | 0 => f.overflow
    | 1 => f.carry
    | 2 => f.zero
    | 3 => f.carry || f.zero
    | 4 => f.sign
    | 5 => f.parity
    | 6 => f.sign != f.overflow
    | _ => f.zero || f.sign != f.overflow
  positive != (c.code.toNat % 2 == 1)

structure Cpu (ω : Type) where
  gp : Int → Word
  xmm : Int → Word
  flags : Flags
  frame : Int → Word
  values : Int → Word
  stack : List Word
  world : ω

structure Setting (ω : Type) where
  host : Host ω
  frameBase : Word
  valuesBase : Word
  /-- The native functions: what the one at an address leaves in `rax`, in `xmm0` and in the world,
  given the registers. -/
  native : Word → (Int → Word) → (Int → Word) → ω → Option (Word × Word × ω)
  /-- Registers and flags about which nothing is known. -/
  junk : Cpu ω → (Int → Word) × (Int → Word) × Flags

/-- The registers that native functions hand back as they were. -/
def preserved : List Int := [Reg.rbx, Reg.rsp, Reg.rbp, Reg.r12, Reg.r13, Reg.r14, Reg.r15]

variable {ω : Type}

namespace Cpu

def get (c : Cpu ω) (r : Reg) : Word :=
  match r.width with
  | .w64 => c.gp r.id
  | .w32 => c.gp r.id &&& 0xFFFFFFFF
  | .w16 => c.gp r.id &&& 0xFFFF
  | .w8 => c.gp r.id &&& 0xFF
  | .unsized => 0

@[simps] def setGp (c : Cpu ω) (n : Int) (w : Word) : Cpu ω := { c with gp := Function.update c.gp n w }

@[simps] def setXmm (c : Cpu ω) (n : Int) (w : Word) : Cpu ω := { c with xmm := Function.update c.xmm n w }

@[simps] def setFlags (c : Cpu ω) (f : Flags) : Cpu ω := { c with flags := f }

@[simps] def setFrame (c : Cpu ω) (d : Int) (w : Word) : Cpu ω :=
  { c with frame := Function.update c.frame d w }

@[simps] def setValue (c : Cpu ω) (d : Int) (w : Word) : Cpu ω :=
  { c with values := Function.update c.values d w }

def put (c : Cpu ω) (r : Reg) (w : Word) : Cpu ω :=
  match r.width with
  | .w64 => c.setGp r.id w
  | .w32 => c.setGp r.id (w &&& 0xFFFFFFFF)
  | .w16 => c.setGp r.id ((c.gp r.id &&& 0xFFFFFFFFFFFF0000) ||| (w &&& 0xFFFF))
  | .w8 => c.setGp r.id ((c.gp r.id &&& 0xFFFFFFFFFFFFFF00) ||| (w &&& 0xFF))
  | .unsized => c

end Cpu

inductive Place where
  | frame (disp : Int)
  | values (disp : Int)
  | world (address : Word)

variable (env : Setting ω)

def Mem.place? (m : Mem) (c : Cpu ω) : Option Place :=
  match m.base with
  | none => none
  | some b =>
    if b.id = Reg.rbp then
      if c.gp Reg.rbp = env.frameBase ∧ m.index = none ∧ m.disp % 8 = 0 then some (.frame m.disp)
      else none
    else if b.id = Reg.r11 then
      if c.gp Reg.r11 = env.valuesBase ∧ m.index = none ∧ m.disp % 8 = 0 then
        some (.values m.disp)
      else none
    else
      let scaled : Word := match m.index with
        | none => 0
        | some (i, scale) => c.gp i.id * Word.ofInt scale
      some (.world (c.gp b.id + scaled + Word.ofInt m.disp))

def Mem.read? (m : Mem) (n : Nat) (c : Cpu ω) : Option Word :=
  match m.place? env c with
  | none => none
  | some (.frame d) => if n = 8 then some (c.frame d) else none
  | some (.values d) => if n = 8 then some (c.values d) else none
  | some (.world a) => (env.host.read a n c.world).map Word.ofBytes

def Mem.write? (m : Mem) (n : Nat) (w : Word) (c : Cpu ω) : Option (Cpu ω) :=
  match m.place? env c with
  | none => none
  | some (.frame d) =>
    if n = 8 then some (c.setFrame d w) else none
  | some (.values d) =>
    if n = 8 then some (c.setValue d w) else none
  | some (.world a) =>
    (env.host.write a (Word.bytes n w) c.world).map fun world => { c with world }

/-- The result of a two-operand instruction; that of a comparison is not kept. -/
def AluOp.result : AluOp → Word → Word → Word
  | add, a, b => a + b
  | or, a, b => a ||| b
  | and, a, b => a &&& b
  | sub, a, b | cmp, a, b => a - b
  | xor, a, b => a ^^^ b

/-- The flags after a two-operand instruction on words; parity looks at the low byte alone and is
given. -/
def AluOp.flags (op : AluOp) (a b : Word) (parity : Bool) : Flags where
  zero := op.result a b = 0
  carry := match op with
    | add => a + b < a
    | sub | cmp => a < b
    | _ => false
  sign := Eval.isNegative (op.result a b)
  overflow := match op with
    | add => Eval.addOverflows a b
    | sub | cmp => Eval.subOverflows a b
    | _ => false
  parity := parity

def floatFlags (a b : Word) : Flags where
  zero := Double.unordered a b || Double.eq a b
  carry := Double.unordered a b || Double.lt a b
  sign := false
  overflow := false
  parity := Double.unordered a b

def FloatOp.result : FloatOp → Word → Word → Word
  | add, a, b => Double.add a b
  | sub, a, b => Double.sub a b
  | mul, a, b => Double.mul a b
  | div, a, b => Double.div a b
  | xor, a, b => a ^^^ b
  | and, a, b => a &&& b

def ShiftOp.result : ShiftOp → Word → Word → Word
  | shl, a, n => a <<< (n % 64)
  | shr, a, n => a >>> (n % 64)
  | sar, a, n => Eval.shiftRight a n

def signWord (w : Word) : Word := if Eval.isNegative w then 0xFFFFFFFFFFFFFFFF else 0

namespace Cpu

def scrambled (c : Cpu ω) : Cpu ω := c.setFlags (env.junk c).2.2

def alu (c : Cpu ω) (op : AluOp) (dst : Reg) (b : Word) : Cpu ω :=
  let a := c.get dst
  let f := if dst.width = .w64 then op.flags a b (env.junk c).2.2.parity else (env.junk c).2.2
  (if op = .cmp then c else c.put dst (op.result a b)).setFlags f

def imul (c : Cpu ω) (dst : Reg) (a b : Word) : Cpu ω :=
  (c.put dst (a * b)).setFlags
    { (env.junk c).2.2 with overflow := Eval.mulOverflows a b, carry := Eval.mulOverflows a b }

/-- After a native function: what it left, what it had to hand back, and junk. -/
def returned (c : Cpu ω) (rax xmm0 : Word) (world : ω) : Cpu ω :=
  { c with
    gp := fun n =>
      if n = Reg.rax then rax else if n ∈ preserved then c.gp n else (env.junk c).1 n
    xmm := fun n => if n = 0 then xmm0 else (env.junk c).2.1 n
    flags := (env.junk c).2.2
    world }

end Cpu

def Instr.exec (c : Cpu ω) : Instr → Option (Cpu ω)
  | movImm dst w | movAbs dst w => some (c.put dst w)
  | mov dst src => some (c.put dst (c.get src))
  | movStore m src => m.write? env 8 (c.get src) c
  | movLoad dst m => (m.read? env 8 c).map (c.put dst)
  | storeImm m v n => m.write? env n.toNat (Word.ofInt v) c
  | movzx dst src => some (c.put dst (c.get src))
  | load dst m n signed =>
    (m.read? env n.toNat c).map fun w =>
      c.put dst (if signed then Word.signExtend n.toNat w else w)
  | store m src n => m.write? env n.toNat (c.get src) c
  | alu op dst src => some (c.alu env op dst (c.get src))
  | aluImm op dst v =>
    -- The stack is a list, so its pointer moves by pushing and dropping words.
    if dst.id = Reg.rsp then
      if op = .add ∧ v = -8 then some { c with stack := 0 :: c.stack }
      else if op = .add ∧ v = 8 then some { c with stack := c.stack.tail }
      else none
    else some (c.alu env op dst (Word.ofInt v))
  | aluLoad op dst m => (m.read? env 8 c).map (c.alu env op dst)
  | aluMemImm op m n v =>
    if op = .cmp ∧ n = 8 then
      (m.read? env 8 c).map fun a =>
        c.setFlags (AluOp.cmp.flags a (Word.ofInt v) (env.junk c).2.2.parity)
    else none
  | test dst src =>
    some (c.setFlags (AluOp.and.flags (c.get dst) (c.get src) (env.junk c).2.2.parity))
  | imul dst src => some (c.imul env dst (c.get dst) (c.get src))
  | imulLoad dst m => (m.read? env 8 c).map (c.imul env dst (c.get dst))
  | imulImm dst src v => some (c.imul env dst (c.get src) (Word.ofInt v))
  | unary .not r => some (c.put r (c.get r ^^^ 0xFFFFFFFFFFFFFFFF))
  | unary .neg r => some ((c.put r (0 - c.get r)).scrambled env)
  | unary .idiv r =>
    -- A quotient that does not fit traps, and so does a zero divisor.
    let a := c.gp Reg.rax
    let b := c.get r
    if c.gp Reg.rdx = signWord a ∧ b ≠ 0 ∧ b ≠ 0xFFFFFFFFFFFFFFFF then
      some (((c.setGp Reg.rax (Eval.quotient a b)).setGp Reg.rdx
        (Eval.remainder a b)).scrambled env)
    else none
  | cqo => some (c.setGp Reg.rdx (signWord (c.gp Reg.rax)))
  | shiftImm op r n => some ((c.put r (op.result (c.get r) n.toUInt64)).scrambled env)
  | shiftCl op r => some ((c.put r (op.result (c.get r) (c.gp Reg.rcx))).scrambled env)
  | setcc cond dst => some (c.put dst (Word.ofBool (cond.holds c.flags)))
  | callReg target =>
    (env.native (c.get target) c.gp c.xmm c.world).map fun (rax, xmm0, world) =>
      c.returned env rax xmm0 world
  | push r => some { c with stack := c.get r :: c.stack }
  | pop r =>
    match c.stack with
    | [] => none
    | w :: stack => some ({ c with stack }.put r w)
  | pushMem m => (m.read? env 8 c).map fun w => { c with stack := w :: c.stack }
  | popMem m =>
    match c.stack with
    | [] => none
    | w :: stack => m.write? env 8 w { c with stack }
  | float op dst src => some (c.setXmm dst.id (op.result (c.xmm dst.id) (c.xmm src.id)))
  | floatLoad op dst m =>
    (m.read? env 8 c).map fun w => c.setXmm dst.id (op.result (c.xmm dst.id) w)
  | movsdLoad dst m => (m.read? env 8 c).map (c.setXmm dst.id)
  | movsdStore m src => m.write? env 8 (c.xmm src.id) c
  | movXmm dst src => some (c.setXmm dst.id (c.xmm src.id))
  | movqToXmm dst src => some (c.setXmm dst.id (c.get src))
  | movqFromXmm dst src => some (c.put dst (c.xmm src.id))
  | ucomisd a b => some (c.setFlags (floatFlags (c.xmm a.id) (c.xmm b.id)))
  | cvtsi2sd dst src => some (c.setXmm dst.id (Double.ofInt (Word.signed (c.get src))))
  | cvttsd2si dst src => some (c.put dst (Double.truncate (c.xmm src.id)))
  | movzxLoad .. | lea .. | aluStore .. | jumpReg _ | ret | hlt => none

def seek (l : String) : List Fragment → Option (List Fragment)
  | [] => none
  | .label n :: rest => if n = l then some rest else seek l rest
  | _ :: rest => seek l rest

/-- One step: code that is left to run in a program, and the state of the processor. -/
inductive Step (prog : List Fragment) : List Fragment × Cpu ω → List Fragment × Cpu ω → Prop
  | instr {i : Instr} {k : List Fragment} {c c' : Cpu ω} (h : i.exec env c = some c') :
      Step prog (.instr i :: k, c) (k, c')
  | label {l : String} {k : List Fragment} {c : Cpu ω} : Step prog (.label l :: k, c) (k, c)
  | jump {l : String} {k k' : List Fragment} {c : Cpu ω} (h : seek l prog = some k') :
      Step prog (.jump l :: k, c) (k', c)
  | taken {cond : Cond} {l : String} {k k' : List Fragment} {c : Cpu ω}
      (hc : cond.holds c.flags = true) (h : seek l prog = some k') :
      Step prog (.jumpIf cond l :: k, c) (k', c)
  | passed {cond : Cond} {l : String} {k : List Fragment} {c : Cpu ω}
      (hc : cond.holds c.flags = false) : Step prog (.jumpIf cond l :: k, c) (k, c)
  | site {l s : String} {k k' : List Fragment} {c : Cpu ω} (h : seek l prog = some k') :
      Step prog (.jumpSite l s :: k, c) (k', c)

abbrev Reaches (prog : List Fragment) : List Fragment × Cpu ω → List Fragment × Cpu ω → Prop :=
  Relation.ReflTransGen (Step env prog)

end TraceCompiler.Machine

/-! ## Words, flags and conditions -/

namespace TraceCompiler

namespace Word

theorem signed_range (w : Word) : -0x8000000000000000 ≤ signed w ∧ signed w < 0x8000000000000000 :=
  ⟨BitVec.le_toInt w.toBitVec, BitVec.toInt_lt⟩

@[simp] theorem ofInt_signed (w : Word) : ofInt (signed w) = w := by
  unfold ofInt signed
  rw [BitVec.ofInt_toInt]

theorem signed_inj (h : signed a = signed b) : a = b := by
  rw [← ofInt_signed a, ← ofInt_signed b, h]

theorem sub_eq_zero {a b : Word} : a - b = 0 ↔ a = b := by
  rw [UInt64.sub_eq_iff_eq_add, UInt64.zero_add]

theorem ofInt_add (a b : Int) : ofInt (a + b) = ofInt a + ofInt b := by
  unfold ofInt
  rw [BitVec.ofInt_add]
  rfl

theorem ofInt_mul (a b : Int) : ofInt (a * b) = ofInt a * ofInt b := by
  unfold ofInt
  rw [BitVec.ofInt_mul]
  rfl

@[simp] theorem ofInt_wrap64 (a : Int) : ofInt (wrap64 a) = ofInt a := by
  unfold ofInt wrap64
  congr 1
  apply BitVec.eq_of_toInt_eq
  simp

theorem signed_sub (a b : Word) : signed (a - b) = Int.bmod (signed a - signed b) 0x10000000000000000 := by
  unfold signed
  rw [UInt64.toBitVec_sub, BitVec.toInt_sub]

theorem signExtend_eight (w : Word) : signExtend 8 w = w := by
  have hlt := w.toNat_lt
  have hm : w.toNat % Nat.pow 256 8 = w.toNat := Nat.mod_eq_of_lt hlt
  unfold signExtend
  have : (Int.bmod ((w.toNat : Int) % (Nat.pow 256 8 : Nat)) (Nat.pow 256 8)) = wrap64 w.toNat := by
    rw [← Int.natCast_emod, hm]
    rfl
  rw [this, ofInt_wrap64]
  unfold ofInt
  apply UInt64.eq_of_toBitVec_eq
  apply BitVec.eq_of_toNat_eq
  simp

theorem ofBool_inj {a b : Bool} : ofBool a = ofBool b ↔ a = b := by
  cases a <;> cases b <;> decide

theorem ofBool_ne_zero (b : Bool) : ofBool b ≠ 0 ↔ b = true := by
  cases b <;> decide

end Word

theorem wrap32_of_fits {i : Int} (h : fitsInt32 i = true) : wrap32 i = i := by
  have h : -0x80000000 ≤ i ∧ i < 0x80000000 := by simpa [fitsInt32] using h
  unfold wrap32
  rw [Int.bmod_def]
  omega

theorem wordOffset_eq {n : Int} (h0 : 0 ≤ n) (h1 : n < 0x10000000) : wordOffset n = n * 8 := by
  unfold wordOffset wrap32
  rw [Int.bmod_def]
  omega

theorem wordOffset_mod (n : Int) : wordOffset n % 8 = 0 := by
  unfold wordOffset wrap32
  rw [Int.bmod_def]
  omega

/-- The sign of a difference is wrong exactly when it overflows. -/
theorem Eval.isNegative_sub (a b : Word) : (isNegative (a - b) != subOverflows a b) =
    decide (Word.signed a < Word.signed b) := by
  have ha := Word.signed_range a
  have hb := Word.signed_range b
  have h := Word.signed_sub a b
  rw [Int.bmod_def] at h
  unfold subOverflows isNegative
  by_cases h₁ : Word.signed a < 0 <;> by_cases h2 : Word.signed b < 0 <;>
    by_cases h3 : Word.signed (a - b) < 0 <;> by_cases h4 : Word.signed a < Word.signed b <;>
    simp [h₁, h2, h3, h4] <;> omega

namespace Machine

namespace Cond

variable {a b : Word} {p : Bool} {f : Flags}

theorem holds_negate (c : Cond) (f : Flags) : c.negate.holds f = !c.holds f := by
  have hd : (c.code ^^^ 1).toNat / 2 = c.code.toNat / 2 := by
    rw [UInt8.toNat_xor, Nat.xor_div_two]
    simp
  have hm : (c.code ^^^ 1).toNat % 2 = 1 - c.code.toNat % 2 := by
    have h := Nat.xor_mod_two_eq_one (a := c.code.toNat) (b := 1)
    rw [UInt8.toNat_xor, UInt8.toNat_one]
    omega
  unfold holds negate
  simp only [hd, hm]
  rcases Nat.mod_two_eq_zero_or_one c.code.toNat with h | h <;> simp [h]

theorem holds_e : e.holds (AluOp.cmp.flags a b p) = decide (a = b) := by
  simp [holds, e, AluOp.flags, AluOp.result, Word.sub_eq_zero]

theorem holds_ne : ne.holds (AluOp.cmp.flags a b p) = !decide (a = b) := by
  rw [← holds_e (p := p), ← holds_negate]
  rfl

theorem holds_b : Cond.b.holds (AluOp.cmp.flags a b p) = decide (a < b) := by
  simp [holds, Cond.b, AluOp.flags]

theorem holds_ae : ae.holds (AluOp.cmp.flags a b p) = !decide (a < b) := by
  rw [← holds_b (p := p), ← holds_negate]
  rfl

theorem holds_be : be.holds (AluOp.cmp.flags a b p) = decide (a ≤ b) := by
  have h : a ≤ b ↔ a < b ∨ a = b := UInt64.le_iff_lt_or_eq
  simp [holds, be, AluOp.flags, AluOp.result, Word.sub_eq_zero, h]

theorem holds_a : Cond.a.holds (AluOp.cmp.flags a b p) = !decide (a ≤ b) := by
  rw [← holds_be (p := p), ← holds_negate]
  rfl

theorem holds_l : l.holds (AluOp.cmp.flags a b p) = decide (Word.signed a < Word.signed b) := by
  rw [← Eval.isNegative_sub]
  simp [holds, l, AluOp.flags, AluOp.result]

theorem holds_ge : ge.holds (AluOp.cmp.flags a b p) = !decide (Word.signed a < Word.signed b) := by
  rw [← holds_l (p := p), ← holds_negate]
  rfl

theorem holds_le : le.holds (AluOp.cmp.flags a b p) = decide (Word.signed a ≤ Word.signed b) := by
  have h₁ : a - b = 0 ↔ Word.signed a = Word.signed b :=
    Word.sub_eq_zero.trans ⟨fun h => h ▸ rfl, Word.signed_inj⟩
  have h2 := Eval.isNegative_sub a b
  simp only [holds, le, AluOp.flags, AluOp.result, h₁, h2]
  simp [Int.le_iff_lt_or_eq, Bool.or_comm]

theorem holds_g : g.holds (AluOp.cmp.flags a b p) = !decide (Word.signed a ≤ Word.signed b) := by
  rw [← holds_le (p := p), ← holds_negate]
  rfl

theorem holds_e_test : e.holds (AluOp.and.flags a a p) = decide (a = 0) := by
  simp [holds, e, AluOp.flags, AluOp.result]

/-- An ordered comparison is asked for as above, which unordered operands never are. -/
theorem holds_a_float : Cond.a.holds (floatFlags a b) = Double.lt b a := by
  have h : Double.unordered b a = Double.unordered a b := Bool.or_comm ..
  simp only [holds, Cond.a, floatFlags, Double.lt, Double.eq, h]
  cases Double.unordered a b with
  | true => rfl
  | false =>
    rw [Bool.eq_iff_iff]
    simp
    omega

theorem holds_ae_float : ae.holds (floatFlags a b) = Double.le b a := by
  have h : Double.unordered b a = Double.unordered a b := Bool.or_comm ..
  simp only [holds, ae, floatFlags, Double.lt, Double.le, h]
  cases Double.unordered a b with
  | true => rfl
  | false =>
    rw [Bool.eq_iff_iff]
    simp

theorem holds_e_float : (e.holds (floatFlags a b) && np.holds (floatFlags a b)) = Double.eq a b := by
  simp only [holds, e, np, floatFlags, Double.eq]
  cases Double.unordered a b <;> simp

theorem holds_ne_float :
    (ne.holds (floatFlags a b) || Cond.p.holds (floatFlags a b)) = !Double.eq a b := by
  simp only [holds, ne, Cond.p, floatFlags, Double.eq]
  cases Double.unordered a b <;> simp

end Cond

namespace Cpu

variable {ω : Type} (c : Cpu ω) (n : Int) (w : Word)

@[simp] theorem get_wide : c.get (.wide n) = c.gp n := rfl

@[simp] theorem put_wide : c.put (.wide n) w = c.setGp n w := rfl

@[simp] theorem put_dword : c.put (.dword n) w = c.setGp n (w &&& 0xFFFFFFFF) := rfl

@[simp] theorem get_low_put_low : (c.put (.low n) w).get (.low n) = w &&& 0xFF := by
  simp only [get, put, setGp, Reg.low, Function.update_self]
  apply UInt64.eq_of_toBitVec_eq
  simp only [UInt64.toBitVec_and, UInt64.toBitVec_or]
  rw [BitVec.and_or_distrib_right, BitVec.and_assoc, BitVec.and_assoc]
  simp

end Cpu

end Machine

namespace Word

@[simp] theorem ofBool_and_byte (b : Bool) : ofBool b &&& 0xFF = ofBool b := by
  cases b <;> decide

@[simp] theorem ofBool_and_half (b : Bool) : ofBool b &&& 0xFFFFFFFF = ofBool b := by
  cases b <;> decide

theorem ofBool_and (a b : Bool) : ofBool a &&& ofBool b = ofBool (a && b) := by
  cases a <;> cases b <;> decide

theorem ofBool_or (a b : Bool) : ofBool a ||| ofBool b = ofBool (a || b) := by
  cases a <;> cases b <;> decide

theorem count_mod (w : Word) : (w &&& 63).toUInt8.toUInt64 % 64 = w % 64 := by
  apply UInt64.toNat_inj.mp
  have h : w.toNat % 256 &&& 63 = w.toNat % 256 % 64 := Nat.and_two_pow_sub_one_eq_mod _ 6
  simp [h]

end Word

namespace Double

variable {a b : Word}

theorem eq_of_isInfinite (ha : isInfinite a) (hb : isInfinite b) (h : negative a = negative b) :
    a = b := by
  unfold isInfinite magnitudeBits at ha hb
  unfold negative at h
  rw [decide_eq_decide] at h
  have ha := of_decide_eq_true ha
  have hb := of_decide_eq_true hb
  have := a.toNat_lt
  have := b.toNat_lt
  apply UInt64.toNat_inj.mp
  omega

theorem addFinite_comm : addFinite a b = addFinite b a := by
  have hq : min (exponent a) (exponent b) = min (exponent b) (exponent a) := Int.min_comm ..
  have hz : (negative a && negative b && isZero a && isZero b) =
      (negative b && negative a && isZero b && isZero a) := by
    cases negative a <;> cases negative b <;> cases isZero a <;> cases isZero b <;> rfl
  unfold addFinite
  simp only [hq, hz, Int.add_comm]

theorem add_comm_of_number (h : isNaN a = false) : add a b = add b a := by
  unfold add propagated
  cases hb : isNaN b with
  | true => simp [h]
  | false =>
    simp only [h, Bool.or_self, Bool.false_eq_true, if_false]
    cases hia : isInfinite a <;> cases hib : isInfinite b
    · simp only [Bool.false_eq_true, if_false]
      exact addFinite_comm
    · simp
    · simp
    · by_cases hs : negative a = negative b
      · simp [eq_of_isInfinite hia hib hs]
      · simp [hs, Ne.symm hs]

theorem mul_comm_of_number (h : isNaN a = false) : mul a b = mul b a := by
  unfold mul propagated
  have hs : (negative a != negative b) = (negative b != negative a) := bne_comm
  cases hb : isNaN b with
  | true => simp [h]
  | false =>
    simp only [h, Bool.or_self, Bool.false_eq_true, if_false, hs, Bool.or_comm (isInfinite a),
      Bool.or_comm (isZero a), Nat.mul_comm (mantissa a), Int.add_comm (exponent a)]

end Double

/-! ## Instructions on exact integers -/

namespace Word

def inRange (z : Int) : Bool := decide (-0x8000000000000000 ≤ z ∧ z < 0x8000000000000000)

theorem signed_add (a b : Word) : signed (a + b) = Int.bmod (signed a + signed b) 0x10000000000000000 := by
  unfold signed
  rw [UInt64.toBitVec_add, BitVec.toInt_add]

theorem signed_eq (w : Word) : signed w =
    if w.toNat < 0x8000000000000000 then (w.toNat : Int) else w.toNat - 0x10000000000000000 := by
  have h : w.toBitVec.toNat = w.toNat := rfl
  unfold signed
  rw [BitVec.toInt_eq_toNat_cond, h]
  split <;> split <;> omega

end Word

namespace Eval

theorem addOverflows_eq (a b : Word) :
    addOverflows a b = !Word.inRange (Word.signed a + Word.signed b) := by
  have ha := Word.signed_range a
  have hb := Word.signed_range b
  have h := Word.signed_add a b
  rw [Int.bmod_def] at h
  rw [Bool.eq_iff_iff]
  simp [addOverflows, isNegative, Word.inRange]
  omega

theorem subOverflows_eq (a b : Word) :
    subOverflows a b = !Word.inRange (Word.signed a - Word.signed b) := by
  have ha := Word.signed_range a
  have hb := Word.signed_range b
  have h := Word.signed_sub a b
  rw [Int.bmod_def] at h
  rw [Bool.eq_iff_iff]
  simp [subOverflows, isNegative, Word.inRange]
  omega

theorem mulOverflows_eq (a b : Word) :
    mulOverflows a b = !Word.inRange (Word.signed a * Word.signed b) := by
  unfold mulOverflows isNegative
  rw [← Int.natAbs_mul]
  generalize Word.signed a = x, Word.signed b = y
  have hs : if x < 0 ↔ y < 0 then 0 ≤ x * y else x * y ≤ 0 := by
    rcases lt_or_ge x 0 with hx | hx <;> rcases lt_or_ge y 0 with hy | hy
    · simpa [hx, hy] using (mul_pos_of_neg_of_neg hx hy).le
    · simpa [hx, hy.not_gt] using mul_nonpos_of_nonpos_of_nonneg hx.le hy
    · simpa [hx.not_gt, hy] using mul_nonpos_of_nonneg_of_nonpos hx hy.le
    · simpa [hx.not_gt, hy.not_gt] using mul_nonneg hx hy
  generalize x * y = z at hs
  by_cases hx : x < 0 <;> by_cases hy : y < 0 <;> simp [hx, hy, Word.inRange] at hs ⊢ <;>
    rw [Bool.eq_iff_iff] <;> simp <;> omega

end Eval

namespace Machine

/-- The flags of a two-operand instruction, from the exact sum or difference. -/
def AluOp.exactFlags (op : AluOp) (a b : Word) (parity : Bool) : Flags where
  zero := op.result a b = 0
  carry := match op with
    | add => decide (0x10000000000000000 ≤ a.toNat + b.toNat)
    | sub | cmp => decide (a.toNat < b.toNat)
    | _ => false
  sign := (op.result a b).toBitVec.msb
  overflow := match op with
    | add => !Word.inRange (Word.signed a + Word.signed b)
    | sub | cmp => !Word.inRange (Word.signed a - Word.signed b)
    | _ => false
  parity := parity

theorem AluOp.exactFlags_eq (op : AluOp) (a b : Word) (p : Bool) :
    op.exactFlags a b p = op.flags a b p := by
  have hc : decide (0x10000000000000000 ≤ a.toNat + b.toNat) = decide (a + b < a) := by
    have ha := a.toNat_lt
    have hb := b.toNat_lt
    rw [decide_eq_decide, UInt64.lt_iff_toNat_lt, UInt64.toNat_add]
    omega
  have hs (w : Word) : w.toBitVec.msb = Eval.isNegative w := BitVec.msb_eq_toInt
  unfold exactFlags flags
  rw [hs, hc, ← Eval.addOverflows_eq, ← Eval.subOverflows_eq]
  rfl

def ShiftOp.shifted (op : ShiftOp) (a n : Word) : Word :=
  let count := n.toNat % 64
  match op with
  | shl => ⟨a.toBitVec <<< count⟩
  | shr => ⟨a.toBitVec >>> count⟩
  | sar => ⟨a.toBitVec.sshiftRight count⟩

theorem ShiftOp.shifted_eq (op : ShiftOp) (a n : Word) : op.shifted a n = op.result a n := by
  apply UInt64.eq_of_toBitVec_eq
  cases op with
  | shl | shr =>
    apply BitVec.eq_of_toNat_eq
    simp [shifted, result]
  | sar =>
    change BitVec.ofInt 64 (a.toBitVec.toInt >>> (n.toNat % 64)) =
      BitVec.ofInt 64 (a.toBitVec.toInt / 2 ^ (n.toNat % 64))
    rw [Int.shiftRight_eq_div_pow]
    push_cast
    rfl

def divide? (high low divisor : Word) : Option (Word × Word) :=
  let n := Word.signed high * 0x10000000000000000 + low.toNat
  let d := Word.signed divisor
  if d = 0 ∨ Word.inRange (n.tdiv d) = false then none
  else some (Word.ofInt (n.tdiv d), Word.ofInt (n.tmod d))

theorem signed_signWord (w : Word) :
    Word.signed (signWord w) * 0x10000000000000000 + w.toNat = Word.signed w := by
  have hlt := w.toNat_lt
  have hn : Word.signed 0xFFFFFFFFFFFFFFFF = -1 := by decide
  have hz : Word.signed 0 = 0 := by decide
  unfold signWord Eval.isNegative
  rw [Word.signed_eq w]
  split <;> split <;> simp_all <;> omega

theorem divide?_signWord (hz : d ≠ 0) (hm : d ≠ 0xFFFFFFFFFFFFFFFF) :
    divide? (signWord a) a d = some (Eval.quotient a d, Eval.remainder a d) := by
  have hd0 : Word.signed d ≠ 0 := fun h => hz (Word.signed_inj (h.trans (by decide)))
  have hd1 : Word.signed d ≠ -1 := fun h => hm (Word.signed_inj (h.trans (by decide)))
  have ha := Word.signed_range a
  unfold divide?
  rw [signed_signWord]
  -- The quotient is the dividend itself, or at most half of it.
  have hf : Word.inRange ((Word.signed a).tdiv (Word.signed d)) = true := by
    by_cases ho : Word.signed d = 1
    · rw [ho, Int.tdiv_one]
      simpa [Word.inRange] using ha
    · have hh : ((Word.signed a).tdiv (Word.signed d)).natAbs ≤ (Word.signed a).natAbs / 2 := by
        rw [Int.natAbs_tdiv]
        exact Nat.div_le_div_left (by omega) (by decide)
      simp only [Word.inRange, decide_eq_true_eq]
      omega
  rw [if_neg (by simp [hd0, hf])]
  rfl

variable {ω : Type} (env : Setting ω)

def Cpu.performAlu (c : Cpu ω) (op : AluOp) (dst : Reg) (b : Word) : Cpu ω :=
  let a := c.get dst
  let f := if dst.width = .w64 then op.exactFlags a b (env.junk c).2.2.parity else (env.junk c).2.2
  (if op = .cmp then c else c.put dst (op.result a b)).setFlags f

def Cpu.performImul (c : Cpu ω) (dst : Reg) (a b : Word) : Cpu ω :=
  let lost := !Word.inRange (Word.signed a * Word.signed b)
  (c.put dst (a * b)).setFlags { (env.junk c).2.2 with overflow := lost, carry := lost }

/-- The effect of an instruction, with arithmetic on exact integers. -/
def Instr.perform (c : Cpu ω) : Instr → Option (Cpu ω)
  | alu op dst src => some (c.performAlu env op dst (c.get src))
  | aluImm op dst v =>
    if dst.id = Reg.rsp then (aluImm op dst v).exec env c
    else some (c.performAlu env op dst (Word.ofInt v))
  | aluLoad op dst m => (m.read? env 8 c).map (c.performAlu env op dst)
  | imul dst src => some (c.performImul env dst (c.get dst) (c.get src))
  | imulLoad dst m => (m.read? env 8 c).map (c.performImul env dst (c.get dst))
  | imulImm dst src v => some (c.performImul env dst (c.get src) (Word.ofInt v))
  | unary .idiv r =>
    (divide? (c.gp Reg.rdx) (c.gp Reg.rax) (c.get r)).map fun (q, m) =>
      ((c.setGp Reg.rax q).setGp Reg.rdx m).scrambled env
  | shiftImm op r n => some ((c.put r (op.shifted (c.get r) n.toUInt64)).scrambled env)
  | shiftCl op r => some ((c.put r (op.shifted (c.get r) (c.gp Reg.rcx))).scrambled env)
  | i => i.exec env c

theorem Cpu.performAlu_eq (c : Cpu ω) (op : AluOp) (dst : Reg) :
    c.performAlu env op dst = c.alu env op dst := by
  funext b
  simp only [performAlu, alu, AluOp.exactFlags_eq]

theorem Cpu.performImul_eq (c : Cpu ω) (dst : Reg) (a : Word) :
    c.performImul env dst a = c.imul env dst a := by
  funext b
  simp only [performImul, imul, Eval.mulOverflows_eq]

variable {env} {c c' : Cpu ω} {i : Instr}

theorem Instr.perform_of_exec (h : i.exec env c = some c') : i.perform env c = some c' := by
  cases i with
  | alu op dst src => rwa [perform, Cpu.performAlu_eq]
  | aluImm op dst v =>
    rw [perform, Cpu.performAlu_eq]
    split
    · exact h
    · rename_i hr
      rwa [exec, if_neg hr] at h
  | aluLoad op dst m => rwa [perform, Cpu.performAlu_eq]
  | imul dst src => rwa [perform, Cpu.performImul_eq]
  | imulLoad dst m => rwa [perform, Cpu.performImul_eq]
  | imulImm dst src v => rwa [perform, Cpu.performImul_eq]
  | unary op r =>
    cases op with
    | idiv =>
      rw [exec] at h
      split at h
      · rename_i hd
        obtain ⟨hs, hz, hm⟩ := hd
        rw [perform, hs, divide?_signWord hz hm]
        exact h
      · cases h
    | not | neg => exact h
  | shiftImm op r n => rwa [perform, ShiftOp.shifted_eq]
  | shiftCl op r => rwa [perform, ShiftOp.shifted_eq]
  | _ => exact h

variable (env)

/-- One step, of an instruction on exact integers or of the flow of control. -/
inductive Proceeds (prog : List Fragment) : List Fragment × Cpu ω → List Fragment × Cpu ω → Prop
  | instr {i : Instr} {k : List Fragment} {c c' : Cpu ω} (h : i.perform env c = some c') :
      Proceeds prog (.instr i :: k, c) (k, c')
  | flow {f : Fragment} {k : List Fragment} {c : Cpu ω} {x : List Fragment × Cpu ω}
      (hf : ∀ i, f ≠ .instr i) (h : Step env prog (f :: k, c) x) : Proceeds prog (f :: k, c) x

variable {env}

theorem Reaches.proceeds (h : Reaches env prog x y) : Relation.ReflTransGen (Proceeds env prog) x y := by
  refine Relation.ReflTransGen.mono (fun x y hst => ?_) _ _ h
  cases hst with
  | instr he => exact .instr (Instr.perform_of_exec he)
  | label => exact .flow (by simp) .label
  | jump hs => exact .flow (by simp) (.jump hs)
  | taken hc hs => exact .flow (by simp) (.taken hc hs)
  | passed hc => exact .flow (by simp) (.passed hc)
  | site hs => exact .flow (by simp) (.site hs)

end Machine

end TraceCompiler
