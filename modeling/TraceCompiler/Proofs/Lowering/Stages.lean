import TraceCompiler.Proofs.Lowering.Refinement

/-! # Compiled traces, operation by operation

What is said about the code of single operations is said about the states of the compiler before each
operation of a trace (`Traced`).
-/

namespace TraceCompiler

open Machine.Reg (rbp)

theorem Eval.Ran.withWorld {h : Host ω} {m m' : Machine ω} (hr : Ran h op m w m')
    (ho : (op.opcode.isCall || op.opcode.needsDescr) = false) (world : ω) :
    Ran h op { m with world } w { m' with world } := by
  cases hr with
  | merge ho => exact .merge ho
  | unary ho => exact .unary ho
  | heap ho' => cases ho.symm.trans ho'
  | float hw => exact .float hw
  | quotient ho hne => exact .quotient ho hne
  | remainder ho hne => exact .remainder ho hne
  | overflow hw => exact .overflow hw
  | int hw => exact .int hw

namespace Lowering

open Machine (Cpu Setting Fragment Proceeds Falls labelsOf)
open CompileM

variable {ω : Type} {u : Setup ω} {known : List Box} {pos : Nat} {s s' fin : State} {op : Op}
  {t : Trace} {env : Setting ω} {r : Request} {supply supply' : BoxSupply} {res : Result}
  {ops : List Op} {l : Lifetimes} {prog out : List Fragment} {st : Nat → State}
  {ks : Nat → List Box}

/-! ## Statements about the code of an operation -/

/-- `st i` is the state before the operation at `i`: the operation is lowered from it, and `prog` has
the code that there is by then. -/
structure Traced (r : Request) (t : Trace) (prog : List Fragment) (st : Nat → State) : Prop where
  lowers : ∀ i op, t.ops[i]? = some (some op) → op.opcode.isFinal = false →
    ∃ s', Yields (lower i op (t.ops[i + 1]?).join) r (st i) () s' ∧ s'.code = (st (i + 1)).code
  code : ∀ i, i < t.ops.length → ∃ rest, prog = (st i).code ++ rest

/-- The processor comes from the end of the code in one state to the end of the code in another. -/
def Comes (env : Setting ω) (prog : List Fragment) (s s' : State) (c c' : Cpu ω) : Prop :=
  ∃ code rest, s'.code = s.code ++ code ∧ prog = s.code ++ (code ++ rest) ∧
    Relation.ReflTransGen (Proceeds env prog) (code ++ rest, c) (rest, c')

/-- All words can be at the places of the boxes, but that the inputs of a bridge may share slots. -/
def Fillable (u : Setup ω) (s : State) : Prop :=
  ∀ (v : Box → Word) (world : ω) (flags : Machine.Flags), (u.req.entry.isBridge = true → ∀ b b' slot,
    s.frame.get? b = some slot → s.frame.get? b' = some slot → v b = v b') →
      ∃ c, Good u s c v ∧ c.world = world ∧ c.flags = flags

theorem Run.comes (h : Run env s s' c c') (hp : prog = s'.code ++ rest)
    (hnd : (labelsOf prog).Nodup) : Comes env prog s s' c c' := by
  obtain ⟨code, hc, hf⟩ := h
  rw [hc, List.append_assoc] at hp
  exact ⟨code, rest, hc, hp, (hf prog s.code rest (by rw [hp, List.append_assoc]) hnd).proceeds⟩

theorem Ok.fillable (hok : Ok u known s) (he : u.frame.Extends s.frame)
    (hsh : u.req.entry.isBridge = false → u.shared = []) : Fillable u s := by
  classical
  intro v world flags hs
  have hs (b b' : Box) (slot : Slot) (hb : s.frame.get? b = some slot)
      (hb' : s.frame.get? b' = some slot) : v b = v b' := by
    cases hbr : u.req.entry.isBridge with
    | true => exact hs hbr b b' slot hb hb'
    | false =>
      rw [u.fine.own b b' slot (by simp [hsh hbr]) (he b slot hb) (he b' slot hb')]
  let owned (cls : RegClass) (n : Int) : Word := ((s.bank cls).ownerOf n).elim 0 v
  let kept (d : Int) : Word :=
    if hd : ∃ b slot, s.frame.get? b = some slot ∧ slot.offset = d then v hd.choose
    else u.env.valuesBase
  have hr {b : Box} {slot : Slot} (hb : s.frame.get? b = some slot) : slot.InRange :=
    u.fine.inRange b slot (he b slot hb)
  have hk {b : Box} {slot : Slot} (hb : s.frame.get? b = some slot) : kept slot.offset = v b := by
    have hd : ∃ b slot', s.frame.get? b = some slot' ∧ slot'.offset = slot.offset := ⟨b, slot, hb, rfl⟩
    obtain ⟨slot', hb', hof⟩ := hd.choose_spec
    cases (hr hb').offset_inj (hr hb) hof
    exact (dif_pos hd).trans (hs _ _ _ hb' hb)
  let c : Cpu ω :=
    { gp := fun n => if n = rbp then u.env.frameBase else owned .gp n
      xmm := owned .float, flags, frame := kept, values := fun _ => 0, stack := u.stack, world }
  have hba : c.gp rbp = u.env.frameBase := by simp [c]
  refine ⟨c, ⟨fun cls => ⟨fun b d _ hre => ?_, fun b hb => ?_⟩, hba, dif_neg ?_, rfl⟩, rfl, rfl⟩
  · have ho : owned cls d = v b := by
      simp [owned, ((hok.sound cls).ownerOf_eq_some).mpr hre]
    rw [hok.loc]
    cases cls with
    | float => exact ho
    | gp =>
      have hne : d ≠ rbp := by
        rintro rfl
        exact absurd (hok.mem_gpOrder hre) (by decide)
      exact (if_neg hne).trans ho
  · obtain ⟨slot, hsl⟩ := Option.isSome_iff_exists.mp ((hok.tidy cls).stored b hb)
    exact ⟨slot, hsl, hk hsl⟩
  · rintro ⟨b, slot, hb, hof⟩
    exact (hr hb).offset_ne .values hof.symm

/-! ## Stages -/

/-- The states between operations, the boxes that are defined there, and what the operations that come
then do to the lifetimes. -/
theorem Trail.stages (h : Trail u fin l known pos ops s) :
    ∃ (st : Nat → State) (ks : Nat → List Box), st 0 = s ∧ ∀ i op, ops[i]? = some op →
        (∃ l', l'.addOps ↑(pos + i) (ops.drop i) = l.addOps pos ops ∧
          Trail u fin l' (ks i) (pos + i) (ops.drop i) (st i)) ∧ (op.opcode.isFinal = false →
          Stage u (ks i) (pos + i) op ops[i + 1]? (st i) (st (i + 1)) ∧ Grows (st (i + 1)) fin) := by
  induction h with
  | @step l known _ pos o ops s s' between checks stage rest ih =>
    obtain ⟨st, ks, rfl, hs⟩ := ih
    refine ⟨(Nat.casesOn · s st), (Nat.casesOn · known ks), rfl, ?_⟩
    rintro (_ | i) op hop
    · cases hop
      exact ⟨⟨l, rfl, .step between checks stage rest⟩,
        fun _ => ⟨List.head?_eq_getElem? ▸ stage, rest.grows⟩⟩
    · have := hs i op hop
      rwa [Nat.add_right_comm, Nat.add_assoc] at this
  | @final l known _ pos o s between checks isFinal yields =>
    refine ⟨fun _ => s, fun _ => known, rfl, ?_⟩
    rintro (_ | i) op hop
    · cases hop
      exact ⟨⟨l, rfl, .final between checks isFinal yields⟩, fun h => by cases isFinal.symm.trans h⟩
    · cases hop

/-- A trace was compiled, and `st i` is the state before the operation at `i`. -/
structure Staged (u : Setup ω) (ops : List Op) (last : Lifetimes) (fin : State)
    (prog out : List Fragment) (st : Nat → State) (ks : Nat → List Box) : Prop
    extends Laid fin prog out where
  frame : u.frame.Extends fin.frame
  shared : u.req.entry.isBridge = false → u.shared = []
  trail : ∀ i op, ops[i]? = some op → ∃ l, l.addOps i (ops.drop i) = last ∧
    Trail u fin l (ks i) i (ops.drop i) (st i)
  stage : ∀ i op, ops[i]? = some op → op.opcode.isFinal = false →
    Stage u (ks i) i op ops[i + 1]? (st i) (st (i + 1)) ∧ Grows (st (i + 1)) fin

/-- **A trace that was compiled was compiled operation by operation.** -/
theorem compile_staged (ht : r.trace = some t) (hv : t.validate = .ok ())
    (hco : compile r supply = (.ok res, supply')) (hm : Made t supply) (hn : Numbered r t)
    (hg : ∀ slots, r.entry = .bridge slots → ∀ slot ∈ slots, 0 ≤ slot.index)
    (hd : res.frameDepth ≤ 0xFFFFFFB) (him : Implements env r.hooks) (stack : List Word) :
    ∃ (u : Setup ω) (ops : List Op) (last : Lifetimes) (fin : State) (code : Fragment)
      (st : Nat → State) (ks : Nat → List Box),
      u.env = env ∧ u.req = r ∧ u.made = supply.made ∧ u.stack = stack ∧ t.ops = ops.map some ∧
      Machine.Program.ofFragment code = .ok res.program ∧
      Staged u ops last fin code.layout wayOut st ks := by
  obtain ⟨bs, ops, s0, fin, hc⟩ := compile_ok ht hv hco
  let u : Setup ω :=
    { env, req := r, implements := him, made := supply.made
      shared := if r.entry.isBridge then bs else [], frame := fin.frame
      fine := hc.fine hm hn hd hg, stack }
  obtain ⟨locs, s1, -, htr⟩ := Compiled.trail (u := u) hc rfl hm rfl
  obtain ⟨st, ks, -, hs⟩ := htr.stages
  simp only [Nat.zero_add] at hs
  exact ⟨u, ops, _, fin, _, st, ks, rfl, rfl, rfl, rfl, hc.ops_eq,
    hc.assembled.program, hc.laid, .refl _, fun h => by simp [u, h],
    fun i op hop => (hs i op hop).1, fun i op hop => (hs i op hop).2⟩

theorem join_getElem?_map_some (ops : List Op) (i : Nat) : ((ops.map some)[i]?).join = ops[i]? := by
  rw [List.getElem?_map]
  cases ops[i]? <;> rfl

namespace Staged

variable (h : Staged u ops last fin prog out st ks)
include h

theorem exists_rest (hop : ops[pos]? = some op) : ∃ rest, prog = (st pos).code ++ rest := by
  obtain ⟨_, -, ht⟩ := h.trail pos op hop
  exact h.toLaid.exists_rest ht.grows

theorem traced (ho : t.ops = ops.map some) : Traced u.req t prog st := by
  refine ⟨fun i op hop hf => ?_, fun i hi => ?_⟩
  · have hop : ops[i]? = some op := by simpa [ho] using hop
    rw [ho, join_getElem?_map_some]
    obtain ⟨stage, -⟩ := h.stage i op hop hf
    cases stage with
    | stay _ _ _ yields _ silent => exact ⟨_, yields, silent.code.symm⟩
    | guard _ _ yields _ _ _ silent => exact ⟨_, yields, silent.code.symm⟩
  · have hi : i < ops.length := by simpa [ho] using hi
    exact h.exists_rest (List.getElem?_eq_getElem hi)

theorem before (hop : ops[pos]? = some op) :
    ∃ l prev, l.addOps pos (ops.drop pos) = last ∧ Between u l (ks pos) pos (ops.drop pos) (st pos) ∧
      Checks (ks pos) prev (ops.drop pos) ∧ Grows (st pos) fin := by
  obtain ⟨l, hl, ht⟩ := h.trail pos op hop
  have hg := ht.grows
  generalize ops.drop pos = todo at hl ht
  cases ht with
  | step between checks | final between checks => exact ⟨l, _, hl, between, checks, hg⟩

theorem fillable (hop : ops[pos]? = some op) : Fillable u (st pos) := by
  obtain ⟨_, _, -, hb, -, hg⟩ := h.before hop
  exact hb.ok.fillable (h.frame.trans hg.frame) h.shared

theorem stay (hop : ops[pos]? = some op) (hgu : op.opcode.isGuard = false)
    (hf : op.opcode.isFinal = false) : ∃ s1 rest, Ready u (ks pos) pos op (st pos) ∧
      Yields (lower pos op ops[pos + 1]?) u.req (st pos) () s1 ∧
      Lowered u (ks pos) pos op ops[pos + 1]? (st pos) s1 ∧
      Silent u (op.result.toList ++ ks pos) pos s1 (st (pos + 1)) ∧ u.frame.Extends s1.frame ∧
      prog = s1.code ++ rest := by
  obtain ⟨stage, hg⟩ := h.stage pos op hop hf
  cases stage with
  | guard _ isGuard => cases hgu.symm.trans isGuard
  | stay ready _ _ yields lowered silent =>
    have hg := silent.grows.trans hg
    obtain ⟨rest, hr⟩ := h.toLaid.exists_rest hg
    exact ⟨_, rest, ready, yields, lowered, silent, h.frame.trans hg.frame, hr⟩

end Staged

end Lowering

end TraceCompiler

/-! ## Integer operations in compiled code -/

namespace TraceCompiler.Lowering

open Machine (Cpu Setting Fragment Proceeds)
open CompileM

variable {ω : Type} {u : Setup ω} {pos : Nat} {op : Op} {t : Trace} {env : Setting ω} {r : Request}
  {supply supply' : BoxSupply} {res : Result}

/-- The operations that compute a word from one or two integers. -/
def isInteger (o : Opcode) : Bool :=
  isIntBinary o || isShift o || o = .intFloordiv || o = .intMod || o = .intNeg || o = .intInvert

theorem kinds_of_isInteger (ho : isInteger o = true) :
    o.isGuard = false ∧ o.isFinal = false ∧ o.resultKind = .int ∧ o.isValid = true ∧
      (o.isCall || o.needsDescr) = false ∧ isSteady o = true ∧ o.isComparison = false := by
  cases o <;> first
    | exact ⟨rfl, rfl, rfl, rfl, rfl, rfl, rfl⟩
    | simp [isInteger, isIntBinary, isShift] at ho

/-- **The code of integer operations agrees with the operations.** Wherever an integer operation stands
in a compiled trace, its code runs through from every state in which the boxes are at their places,
which all words can be: it leaves in the register of the result what the operation computes, and an
operation that can overflow leaves its flag. The slots have numbers, the given ones are not negative, and
the frame has at most 2 ^ 28 - 5 slots, which 32-bit displacements reach. -/
theorem compile_integer (htrace : r.trace = some t) (hvalid : t.validate = .ok ())
    (hcompile : compile r supply = (.ok res, supply')) (hmade : Made t supply) (hnum : Numbered r t)
    (hgiven : ∀ slots, r.entry = .bridge slots → ∀ slot ∈ slots, 0 ≤ slot.index)
    (hdepth : res.frameDepth ≤ 0xFFFFFFB) (himpl : Implements env r.hooks) (stack : List Word)
    (hop : t.ops[pos]? = some (some op)) (ho : isInteger op.opcode = true) :
    ∃ (u : Setup ω) (s s' : State) (code : Fragment) (stretch rest : List Fragment) (b : Box) (d : Int),
      u.env = env ∧ u.req = r ∧ u.made = supply.made ∧ u.stack = stack ∧
      (∃ next, Yields (lower pos op next) r s () s') ∧ s'.code = s.code ++ stretch ∧
      Machine.Program.ofFragment code = .ok res.program ∧ code.layout = s.code ++ stretch ++ rest ∧
      op.result = some b ∧ (s'.bank .gp).regOf (some b) = some d ∧
      (∀ (v : Box → Word) (world : ω), (r.entry.isBridge = true → ∀ b b' slot,
        s.frame.get? b = some slot → s.frame.get? b' = some slot → v b = v b') →
          ∃ c, Good u s c v ∧ c.world = world) ∧
      ∀ (c : Cpu ω) (v : Box → Word) (m : Eval.Machine ω), Good u s c v → Agrees u m v →
        (op.opcode = .intFloordiv ∨ op.opcode = .intMod → m.argWord op 1 ≠ 0) →
        ∃ w m' c', (Eval.runOp env.host op).run m = (.ok w, m') ∧
          Relation.ReflTransGen (Proceeds env code.layout) (stretch ++ rest, c) (rest, c') ∧
          c'.gp d = w ∧ (op.opcode.isOverflow = true → c'.flags.overflow = m'.overflow) := by
  obtain ⟨hguard, hfinal, hkind, hvalid', hmem, hsteady, hcomp⟩ := kinds_of_isInteger ho
  obtain ⟨u, ops, last, fin, code, st, ks, rfl, rfl, hm, hs, hops, hcode, hstaged⟩ :=
    compile_staged htrace hvalid hcompile hmade hnum hgiven hdepth himpl stack
  have hop : ops[pos]? = some op := by simpa [hops] using hop
  obtain ⟨s1, rest, hready, hy, hlow, -, hext, hrest⟩ := hstaged.stay hop hguard hfinal
  obtain ⟨b, hb⟩ := hready.has_result (by simp [hkind])
  obtain ⟨stretch, hstretch⟩ := hlow.grows.exists_code
  have hclass : classOf b.kind = .gp := hready.result_class hb hkind
  -- An integer operation is no comparison, which alone can be left to the flags.
  have hfused : s1.fused = none := by
    refine Option.eq_none_iff_forall_ne_some.mpr fun f hf => ?_
    cases (hlow.fused f hf).compares.symm.trans hcomp
  obtain ⟨d, hreg⟩ := Option.isSome_iff_exists.mp (hlow.inReg hfused b hb)
  rw [hclass] at hreg
  rw [hstretch] at hrest
  refine ⟨u, st pos, s1, code, stretch, rest, b, d, rfl, rfl, hm, hs, ⟨_, hy⟩, hstretch, hcode, hrest,
    hb, hreg, fun v world hslots => ?_, fun c v m hgood hagree hne => ?_⟩
  · obtain ⟨c, hgood, hworld, -⟩ := hstaged.fillable hop v world default hslots
    exact ⟨c, hgood, hworld⟩
  · obtain ⟨vals, hargs, htyped⟩ := hready.typed
    have hserves : Eval.Serves u.env.host op m := 
      Eval.serves_of_not_heap hmem fun hop => by simp [hop, Opcode.isGuard] at hguard
    obtain ⟨w, m', hrun⟩ := (Eval.runOp_progress hargs htyped hvalid' hguard hfinal hserves).resolve_right
      fun hzero => hne hzero.1.1 hzero.1.2
    obtain ⟨c', v', ⟨code', hcode', hfalls⟩, hgood', hdoes⟩ := hlow.sim
      (fun h => by cases hsteady.symm.trans h) hext c v { m with world := c.world } w _ hgood
      (fun b hb => hagree b hb) rfl ((Eval.runOp_ok hrun).withWorld hmem c.world)
    cases List.append_cancel_left (hcode'.symm.trans hstretch)
    refine ⟨w, m', c', hrun, (hfalls _ _ _ hrest hstaged.labels).proceeds, ?_, fun hover => ?_⟩
    · refine (hgood'.reg hlow.ok hreg).trans ?_
      rw [hdoes.values b (hready.result b hb).2.1, if_pos hb]
    · exact hdoes.overflow (flagsFrom_of_isOverflow hover hy)

def negation : Trace :=
  let n : Box := ⟨1, .int⟩
  let q : Box := ⟨2, .int⟩
  ⟨"negation", [some n], [
    some ⟨.intFloordiv, [some (.box n), some (.const ⟨.int, 0xFFFFFFFFFFFFFFFF⟩)], some q, none, []⟩,
    some ⟨.finish, [some (.box q)], none, none, []⟩]⟩

def negationRequest : Request := { trace := some negation }

/-- The quotient of the least integer by minus one is no trap. -/
theorem compile_integer_negation : ∃ res supply' code stretch rest c c' d,
    compile negationRequest ⟨2⟩ = (.ok res, supply') ∧
    Machine.Program.ofFragment code = .ok res.program ∧
    Relation.ReflTransGen (Proceeds (Setup.idle negationRequest 2 []).env code.layout)
      (stretch ++ rest, c) (rest, c') ∧ c'.gp d = 0x8000000000000000 := by
  obtain ⟨res, supply', hcompile, hdepth⟩ := exists_ok_of_map (x := compile negationRequest ⟨2⟩)
    (f := fun res => res.frameDepth) (v := 0) (by decide +kernel)
  obtain ⟨u, s, s', code, stretch, rest, b, d, -, -, -, -, -, -, hcode, -, -, -, hgood, hruns⟩ :=
    compile_integer (t := negation) rfl (by decide) hcompile
      ⟨by simp [negation], by simp [negation]⟩ ⟨by decide, by decide, nofun⟩ nofun
      (by rw [hdepth]; decide) (Setup.idle negationRequest 2 []).implements []
      (show negation.ops[0]? = some (some _) from rfl) (by decide)
  let m : Eval.Machine Unit :=
    ⟨(∅ : Std.HashMap Box Word).insert ⟨1, .int⟩ 0x8000000000000000, false, ()⟩
  obtain ⟨c, hgood, -⟩ := hgood (fun b => m.values.getD b 0) () nofun
  obtain ⟨w, m', c', hrun, hreach, hw, -⟩ := hruns c _ m hgood (fun _ _ => rfl) fun _ => by
    change (0xFFFFFFFFFFFFFFFF : Word) ≠ 0
    decide
  have hmin : Eval.quotient 0x8000000000000000 0xFFFFFFFFFFFFFFFF = 0x8000000000000000 := by decide
  have hres : w = Eval.quotient (m.values.getD ⟨1, .int⟩ 0) 0xFFFFFFFFFFFFFFFF := by
    obtain ⟨-, hw, -⟩ := (Eval.runOp_ok hrun).division_inv (.inl rfl)
    exact hw
  exact ⟨res, supply', code, stretch, rest, c, c', d, hcompile, hcode, hreach, by
    rw [hw, hres, Std.HashMap.getD_insert_self, hmin]⟩

/-! ## Comparisons and guards in compiled code -/

open Machine (seek_of_nodup)
open List Eval

variable {ops : List Op} {fin : State} {prog out : List Fragment} {st : Nat → State}
  {ks : Nat → List Box} {last : Lifetimes}

/-- Whatever its operands are, an operation has a result, and its code comes to the next operation with
it: it is in the register of the result, or the flags are as the result says. -/
def Computed (u : Setup ω) (prog : List Fragment) (st : Nat → State) (next : Option Op) (i : Nat)
    (op : Op) : Prop :=
  ∀ (c : Cpu ω) (v : Box → Word) (m : Machine ω), Good u (st i) c v → Agrees u m v →
    m.world = c.world → ∃ w m' c' v', (runOp u.env.host op).run m = (.ok w, m') ∧
      (op.opcode.isComparison = true → w = 0 ∨ w = 1) ∧
      Comes u.env prog (st i) (st (i + 1)) c c' ∧ Good u (st (i + 1)) c' v' ∧
      InStep u (i + 1) (st (i + 1)) c' v' (m'.record op.result w) ∧
      ((st (i + 1)).fused = none → ∃ b s' d, op.result = some b ∧
        Yields (lower i op next) u.req (st i) () s' ∧ (s'.bank .gp).regOf (some b) = some d ∧
        c'.gp d = w)

/-- A guard holds or does not, and its code comes to the next operation if it does and to the recovery
stub if it does not. -/
def Decided (u : Setup ω) (prog : List Fragment) (st : Nat → State) (i : Nat) (op : Op) : Prop :=
  ∀ (c : Cpu ω) (v : Box → Word) (m : Machine ω), Good u (st i) c v → InStep u i (st i) c v m →
    ∃ holds, (guardHolds u.env.host op).run m = (.ok holds, m) ∧
      if holds then
        ∃ c' v', Comes u.env prog (st i) (st (i + 1)) c c' ∧ Good u (st (i + 1)) c' v' ∧
          InStep u (i + 1) (st (i + 1)) c' v' m
      else
        ∃ rest pre stub c', prog = (st i).code ++ rest ∧
          prog = pre ++ .label (stubLabel ((st i).nextExit u.req)) :: stub ∧
          Relation.ReflTransGen (Proceeds u.env prog) (rest, c) (stub, c')

/-- The result of a comparison is left to the flags: nothing reads it but the condition of the guard
that follows, and nothing stands between the instruction that compares and the branch. -/
structure Joined (u : Setup ω) (t : Trace) (st : Nat → State) (i : Nat) (op g : Op) (b : Box) : Prop where
  compares : op.opcode.isComparison = true
  result : op.result = some b
  next : t.ops[i + 1]? = some (some g)
  guard : g.opcode = .guardTrue ∨ g.opcode = .guardFalse
  condition : g.args = [some (.box b)]
  kept : some (.box b) ∉ g.failArgs
  alone : ∀ j o, t.ops[j]? = some (some o) → b ∈ o.reads → j = i + 1
  compare : EndsComparing (st i) (st (i + 1))
  branch : ∃ cond, (st (i + 2)).code =
    (st (i + 1)).code ++ [.jumpIf cond (stubLabel ((st (i + 1)).nextExit u.req))]

/-! ## Results -/

theorem ofBool_cases (b : Bool) : Word.ofBool b = 0 ∨ Word.ofBool b = 1 := by
  cases b
  · exact .inl rfl
  · exact .inr rfl

theorem comparison_cases (ho : o.isComparison = true) :
    isWordCompare o = true ∨ isFloatCompare o = true ∨ o = .intIsTrue ∨ o = .intIsZero := by
  cases o <;> cases ho <;> simp [isWordCompare, isFloatCompare]

theorem ran_comparison (hr : Ran h op m w m') (ho : op.opcode.isComparison = true) : w = 0 ∨ w = 1 := by
  obtain hwo | hf | hu := comparison_cases ho
  · obtain ⟨hw, -⟩ := hr.int_inv (by rw [intResult_of_isWordCompare hwo _ _ false]; rfl)
    rw [intResult_of_isWordCompare hwo _ _ false] at hw
    exact Option.some.inj hw ▸ ofBool_cases _
  · obtain ⟨hw, -⟩ := hr.float_inv (by rw [floatResult_of_isFloatCompare hf]; rfl)
    rw [floatResult_of_isFloatCompare hf] at hw
    exact Option.some.inj hw ▸ ofBool_cases _
  · obtain ⟨rfl, -⟩ := hr.unary_inv (by rcases hu with ho | ho <;> rw [ho] <;> rfl)
    rcases hu with ho | ho <;> rw [ho] <;> exact ofBool_cases _

theorem kinds_of_isTest (ho : o.isComparison = true ∨ o.isOverflow = true) :
    o.isGuard = false ∧ o.isFinal = false ∧ o.resultKind = .int ∧ o.isValid = true ∧
      (o.isCall || o.needsDescr) = false ∧ isSteady o = true ∧ o ≠ .intFloordiv ∧ o ≠ .intMod := by
  cases o <;> simp [Opcode.isComparison, Opcode.isOverflow] at ho <;>
    exact ⟨rfl, rfl, rfl, rfl, rfl, rfl, by simp, by simp⟩

namespace Staged

variable (h : Staged u ops last fin prog out st ks)
include h

theorem computed (hop : ops[pos]? = some op)
    (ho : op.opcode.isComparison = true ∨ op.opcode.isOverflow = true) :
    Computed u prog st ops[pos + 1]? pos op := by
  intro c v m hg ha hw
  obtain ⟨hgu, hf, hk, hv, hme, hst, hdi, hmo⟩ := kinds_of_isTest ho
  obtain ⟨s1, rest, hr, hy, hl, hs, he, hre⟩ := h.stay hop hgu hf
  obtain ⟨b, hb⟩ := hr.has_result (by simp [hk])
  obtain ⟨vals, har, ht⟩ := hr.typed
  have hse : Serves u.env.host op m :=
    serves_of_not_heap hme fun hop => by simp [hop, Opcode.isGuard] at hgu
  obtain ⟨w, m', hru⟩ := (runOp_progress har ht hv hgu hf hse).resolve_right
    fun hz => hz.1.1.elim hdi hmo
  have hra := runOp_ok hru
  obtain ⟨c', v', hru', hg', hd⟩ := hl.sim (fun h => by cases hst.symm.trans h) he c v
    m w m' hg ha hw hra
  have hm := fun b hb => (hr.result b hb).2.1
  refine ⟨w, m', c', v', hru, fun ho => ran_comparison hra ho,
    (hru'.trans (.silent hs.code)).comes (hs.code ▸ hre) h.labels, hs.good hg',
    hd.inStep hl hs hm ha hra, fun hfu => ?_⟩
  obtain ⟨d, hrg⟩ := Option.isSome_iff_exists.mp
    (hl.inReg (hs.plain.fused.symm.trans hfu) b hb)
  rw [show classOf b.kind = .gp from hr.result_class hb hk] at hrg
  refine ⟨b, s1, d, hb, hy, hrg, (hg'.reg hl.ok hrg).trans ?_⟩
  rw [hd.values b (hm b hb), if_pos hb]

theorem decided (hop : ops[pos]? = some op) (hgu : op.opcode.isGuard = true)
    (hc : op.opcode ≠ .guardClass) : Decided u prog st pos op := by
  intro c v m hg hin
  have hf : op.opcode.isFinal = false := by
    cases ho : op.opcode <;> simp_all [Opcode.isGuard, Opcode.isFinal]
  obtain ⟨stage, hgr⟩ := h.stage pos op hop hf
  cases stage with
  | stay _ noGuard => cases noGuard.symm.trans hgu
  | @guard s1 s2 br _ _ fails f ready _ _ _ guarded hfr silent =>
    obtain ⟨vals, har, ht⟩ := ready.typed
    have hse : Serves u.env.host op m := serves_of_not_heap
      (by cases ho : op.opcode <;> simp_all [Opcode.isGuard, Opcode.isCall, Opcode.needsDescr]) hc
    obtain ⟨holds, hr⟩ := guardHolds_progress har ht hgu hse
    obtain ⟨hh, -⟩ := guardHolds_ok hgu hr
    obtain ⟨hist, hhi, -⟩ := guarded.recovered.history
    have he : u.frame.Extends s1.frame :=
      (hfr ▸ h.frame.trans hgr.frame : u.frame.Extends f).trans hhi.keeps
    obtain ⟨after, ha⟩ := h.toLaid.exists_rest hgr
    refine ⟨holds, hr, ?_⟩
    cases holds with
    | true =>
      obtain ⟨_, _, -, hb, -⟩ := h.before hop
      obtain ⟨c', v', hr', hg', hin'⟩ := guarded.step hb.flagsFrom he hg hin hh
      exact ⟨c', v', (hr'.trans (.silent silent.code)).comes ha h.labels, silent.good hg',
        hin'.silent silent⟩
    | false =>
      obtain ⟨c', v', ⟨code, hco, hfa⟩, -, hbr, -⟩ := guarded.checks he hg hin hh
      obtain ⟨pre, tail, hs⟩ := h.toLaid.exists_stub guarded (silent.grows.trans hgr)
      rw [pieces_stubCode, append_assoc, cons_append] at hs
      rw [silent.code, guarded.code_eq, hco, append_assoc, append_assoc] at ha
      refine ⟨_, pre, _, c', ha, hs, ?_⟩
      exact Machine.Reaches.proceeds
        ((hfa prog _ _ (by rw [ha, append_assoc]) h.labels).trans
          (Branch.reaches hbr (seek_of_nodup h.labels hs)))

/-! ## Results that are left to the flags -/

theorem read_next (hop : ops[pos]? = some op) (hb : op.result = some b)
    (hla : last.lastUse b = pos + 1) (ho : ops[j]? = some o) (hr : b ∈ o.reads) : j = pos + 1 := by
  obtain ⟨l, prev, hl, -, hc, -⟩ := h.before ho
  have hd : ops.drop j = o :: ops.drop (j + 1) := by
    obtain ⟨hj, rfl⟩ := List.getElem_of_getElem? ho
    exact drop_eq_getElem_cons hj
  rw [hd] at hl hc
  have hle := hc.le_lastUse (by omega : -1 ≤ (j : Int)) hr l
  rw [hl, hla] at hle
  have hk : b ∈ ks j := by
    cases hc with
    | cons hop => exact (Op.mem_reads.mp hr).elim (hop.args b) (hop.failArgs b)
  -- What is defined before an operation is not defined again.
  have hlt : pos < j := by
    by_contra hle
    obtain ⟨hp, rfl⟩ := List.getElem_of_getElem? hop
    refine hc.result_ne hk ops[pos] ?_ hb
    rw [← hd, mem_drop_iff_getElem]
    exact ⟨pos - j, by omega, by congr 1; omega⟩
  omega

theorem joined (hos : t.ops = ops.map some) (hop : ops[pos]? = some op)
    (hfi : op.opcode.isFinal = false) (hf : f ∈ (st (pos + 1)).fused) :
    ∃ g b, Joined u t st pos op g b := by
  obtain ⟨stage, -⟩ := h.stage pos op hop hfi
  cases stage with
  | guard _ _ _ _ guarded _ silent =>
    rw [silent.plain.fused, guarded.fused_eq] at hf
    cases hf
  | @stay s1 ready _ _ yields lowered silent =>
    rw [silent.plain.fused] at hf
    obtain ⟨hc, hre, hu, b, g, hb, hg, hgo, har, hfa⟩ := lowered.fused f hf
    have hm := (ready.result b hb).2.1
    have hfi : g.opcode.isFinal = false := by rcases hgo with ho | ho <;> rw [ho] <;> rfl
    obtain ⟨stage, -⟩ := h.stage (pos + 1) g hg hfi
    obtain ⟨_, _, hl, hbe, -⟩ := h.before hop
    cases stage with
    | stay _ noGuard => rcases hgo with ho | ho <;> rw [ho] at noGuard <;> cases noGuard
    | @guard s2 _ br _ _ _ _ gready _ _ _ guarded _ silent' =>
    obtain ⟨vals, ha, ht⟩ := gready.typed
    refine ⟨g, b, hc, hb, by simp [hos, hg], hgo, ?_, hfa, fun j o ho hr => ?_, ?_, ?_⟩
    · obtain ⟨x, rfl⟩ := length_eq_one_iff.mp (show vals.length = 1 by
        rcases hgo with ho | ho <;> exact (ht.args (by rw [ho]; rfl)).1.trans (by rw [ho]; rfl))
      rw [ha] at har ⊢
      simpa using har
    · refine h.read_next hop hb ?_ (by simpa [hos] using ho) hr
      rw [← hl, ← hbe.lastUse b hm, ← lowered.retains.lastUse b hm, hu b hb]
    · obtain ⟨code, i, hco, hi⟩ := lowered.compares (by rw [hf]; nofun)
      exact ⟨code, i, silent.code.trans hco, hi⟩
    · obtain ⟨rfl, rfl⟩ := guarded.fused f (silent.plain.fused.trans hf)
      exact ⟨_, silent'.code.trans guarded.code_eq⟩

end Staged

/-- **The code of comparisons and guards agrees with the operations**, wherever they stand in a compiled
trace and whatever their operands are, within the same bounds on the slots of the frame. -/
theorem compile_tests (htrace : r.trace = some t) (hvalid : t.validate = .ok ())
    (hcompile : compile r supply = (.ok res, supply')) (hmade : Made t supply) (hnum : Numbered r t)
    (hgiven : ∀ slots, r.entry = .bridge slots → ∀ slot ∈ slots, 0 ≤ slot.index)
    (hdepth : res.frameDepth ≤ 0xFFFFFFB) (himpl : Implements env r.hooks) (stack : List Word) :
    ∃ (u : Setup ω) (code : Fragment) (st : Nat → State),
      u.env = env ∧ u.req = r ∧ u.made = supply.made ∧ u.stack = stack ∧
      Machine.Program.ofFragment code = .ok res.program ∧ Traced r t code.layout st ∧
      ∀ i op, t.ops[i]? = some (some op) → Fillable u (st i) ∧
        (op.opcode.isComparison = true ∨ op.opcode.isOverflow = true →
          Computed u code.layout st (t.ops[i + 1]?).join i op) ∧
        (op.opcode.isGuard = true → op.opcode ≠ .guardClass → Decided u code.layout st i op) ∧
        (op.opcode.isFinal = false → (st (i + 1)).fused ≠ none → ∃ g b, Joined u t st i op g b) := by
  obtain ⟨u, ops, last, fin, code, st, ks, rfl, rfl, hm, hs, hops, hcode, hstaged⟩ :=
    compile_staged htrace hvalid hcompile hmade hnum hgiven hdepth himpl stack
  refine ⟨u, code, st, rfl, rfl, hm, hs, hcode, hstaged.traced hops, fun i op hop => ?_⟩
  have hop : ops[i]? = some op := by simpa [hops] using hop
  refine ⟨hstaged.fillable hop, fun ho => ?_, hstaged.decided hop, fun hfinal hfused => ?_⟩
  · rw [hops, join_getElem?_map_some]
    exact hstaged.computed hop ho
  · obtain ⟨f, hf⟩ := Option.ne_none_iff_exists'.mp hfused
    exact hstaged.joined hops hop hfinal hf

def ordering : Trace :=
  let x : Box := ⟨1, .float⟩
  let y : Box := ⟨2, .float⟩
  let b : Box := ⟨3, .int⟩
  ⟨"ordering", [some x, some y], [
    some ⟨.floatLt, [some (.box x), some (.box y)], some b, none, []⟩,
    some ⟨.guardTrue, [some (.box b)], none, none, [some (.box x)]⟩,
    some ⟨.finish, [some (.box y)], none, none, []⟩]⟩

def orderingRequest : Request := { trace := some ordering }

/-- What is no number is not less than zero: from the comparison the processor comes to the recovery stub
of the guard. -/
theorem compile_tests_nan : ∃ res supply' code start rest k pre stub c c',
    compile orderingRequest ⟨3⟩ = (.ok res, supply') ∧
    Machine.Program.ofFragment code = .ok res.program ∧ code.layout = start ++ rest ∧
    code.layout = pre ++ .label (stubLabel k) :: stub ∧
    Relation.ReflTransGen (Proceeds (Setup.idle orderingRequest 3 []).env code.layout) (rest, c)
      (stub, c') := by
  obtain ⟨res, supply', hcompile, hdepth⟩ := exists_ok_of_map (x := compile orderingRequest ⟨3⟩)
    (f := fun res => res.frameDepth) (v := 1) (by decide +kernel)
  obtain ⟨u, code, st, henv, hreq, -, -, hcode, -, hops⟩ :=
    compile_tests (t := ordering) rfl (by decide) hcompile
      ⟨by simp [ordering], by simp [ordering]⟩ ⟨by decide, by decide, nofun⟩ nofun
      (by rw [hdepth]; decide) (Setup.idle orderingRequest 3 []).implements []
  let m : Eval.Machine Unit :=
    ⟨(∅ : Std.HashMap Box Word).insert ⟨1, .float⟩ 0x7FF8000000000000, false, ()⟩
  obtain ⟨hfill, hcompute, -⟩ := hops 0 _ rfl
  obtain ⟨-, -, hdecide, -⟩ := hops 1 _ rfl
  obtain ⟨c, hgood, -⟩ := hfill (fun b => m.values.getD b 0) () default (by rw [hreq]; nofun)
  obtain ⟨w, m', c', v', hrun, -, ⟨first, rest, hfirst, hlayout, hsteps⟩, hgood', hin, -⟩ :=
    hcompute (.inl rfl) c _ m hgood (fun _ _ => rfl) rfl
  obtain ⟨holds, hrun', hends⟩ := hdecide rfl nofun c' v' _ hgood' hin
  have hw : w = 0 := by
    obtain ⟨hw, -⟩ := (Eval.runOp_ok hrun).float_inv rfl
    have hlt : Double.lt (m.values.getD ⟨1, .float⟩ 0) (m.values.getD ⟨2, .float⟩ 0) = false := by
      rw [Std.HashMap.getD_insert_self, Std.HashMap.getD_insert]
      decide
    exact (Option.some.inj hw).symm.trans (congrArg Word.ofBool hlt)
  have hfalse : holds = false := by
    cases (Eval.guardHolds_ok rfl hrun').1 with
    | nonzero =>
      refine decide_eq_false (not_not.mpr ?_)
      exact (getD_record m' (some ⟨3, .int⟩) w ⟨3, .int⟩).trans ((if_pos rfl).trans hw)
    | _ ho => simp at ho
  subst hfalse
  obtain ⟨rest', pre, stub, c'', hlayout', hstub, hsteps'⟩ := hends
  have heq : rest' = rest := by
    rw [hlayout', hfirst, List.append_assoc] at hlayout
    exact List.append_cancel_left (List.append_cancel_left hlayout)
  subst heq
  rw [henv] at hsteps hsteps'
  exact ⟨res, supply', code, (st 0).code, first ++ rest', _, pre, stub, c, c'', hcompile, hcode,
    hlayout, hstub, hsteps.trans hsteps'⟩

end TraceCompiler.Lowering
