import TraceCompiler.Lowering.Compile
import TraceCompiler.Proofs.Eval.Runs
import TraceCompiler.Proofs.Lowering.Operands
import TraceCompiler.Proofs.Trace.Validity

/-! # Lowering one operation

`Ready` is what is known before an operation that stays on the trace is lowered, and `Lowered` what
holds behind it: its result has a place, boxes that are read later keep theirs, and whenever the
operation succeeds on the values of boxes, its code leaves the processor with the result (`Does`).
-/

namespace TraceCompiler.Lowering

open Machine (Cpu Setting Falls Fragment Quiet Instr)
open Function (update update_of_ne update_self)
open CompileM List

variable {ω : Type} {u : Setup ω} {ks : List Box} {pos : Nat} {s s' : State} {c c' : Cpu ω}
  {v v' : Box → Word} {cls : RegClass} {b : Box} {r : Int} {op : Op} {next : Option Op}
  {m m' : Eval.Machine ω} {w : Word} {R : Cpu ω → (Box → Word) → Cpu ω → (Box → Word) → Prop}

/-- The boxes of the trace have the values that a run gives them. -/
def Agrees (u : Setup ω) (m : Eval.Machine ω) (v : Box → Word) : Prop :=
  ∀ b, b.id ≤ u.made → m.values.getD b 0 = v b

theorem Agrees.word (h : Agrees u m v) (hx : ∀ b, x = .box b → b.id ≤ u.made) :
    m.word (some x) = x.word v := by
  cases x with
  | box b => exact h b (hx b rfl)
  | const q => rfl

theorem Agrees.argWord (h : Agrees u m v) (hok : Ok u ks s) (ha : ∀ b, some (.box b) ∈ op.args → b ∈ ks)
    (hx : op.args[i]? = some (some x)) : m.argWord op i = x.word v := by
  unfold Eval.Machine.argWord
  rw [hx]
  refine h.word ?_
  rintro b rfl
  exact hok.ids b (ha b (mem_of_getElem? hx))

theorem Ok.not_placed (hok : Ok u ks s) (hb : b ∉ ks) (hm : b.id ≤ u.made)
    (cls : RegClass) : ¬ (s.alloc cls).Placed b := fun h => by
  rcases hok.known cls b h with h | h
  · exact hb h
  · have := hok.temps cls b h
    omega

theorem Ok.unplaced (hok : Ok u ks s) (hn : b ∉ ks) (hm : b.id ≤ u.made) (cls : RegClass) :
    Unplaced u (b :: ks) s cls b :=
  ⟨⟨hm.trans hok.made, .inl mem_cons_self, fun cls' _ => hok.not_placed hn hm cls',
    fun hsh => absurd (hok.shared b hsh).1 hn⟩, hok.not_placed hn hm cls⟩

theorem Ok.insert (hok : Ok u ks s) (hm : b.id ≤ u.made) : Ok u (b :: ks) s := by
  refine hok.mono (fun _ h => mem_cons_of_mem _ h) fun b' hb' => ?_
  rcases mem_cons.mp hb' with rfl | hb'
  · exact hm
  · exact hok.ids b' hb'

theorem Ok.inserts {result : Option Box} (hok : Ok u ks s) (h : ∀ b ∈ result, b.id ≤ u.made) :
    Ok u (result.toList ++ ks) s := by
  cases result with
  | none => exact hok
  | some b => exact hok.insert (h b rfl)

/-- What is known before the operation at `pos` is lowered. -/
structure Ready (u : Setup ω) (ks : List Box) (pos : Nat) (op : Op) (s : State) :
    Prop where
  ok : Ok u ks s
  typed : ∃ vals : List Value, op.args = vals.map some ∧ op.Typed vals
  args : ∀ b, some (.box b) ∈ op.args → b ∈ ks
  live : ∀ b, some (.box b) ∈ op.args → (s.alloc (classOf b.kind)).Placed b
  result : ∀ b ∈ op.result, b ∉ ks ∧ b.id ≤ u.made ∧ b.kind = op.opcode.resultKind
  void : op.result = none ↔ op.opcode.resultKind = .void
  fused : s.fused = none
  flagsFrom : s.flagsFrom < pos
  temps : ∀ cls, (s.bank cls).temps = []

namespace Ready

variable (h : Ready u ks pos op s)

include h

theorem arg_made (hx : some x ∈ op.args) : ∀ b, x = .box b → b.id ≤ u.made := by
  rintro b rfl
  exact h.ok.ids b (h.args b hx)

theorem arg_known (hx : x ∈ op.args) : ∀ b, x = some (.box b) → b ∈ ks := by
  rintro b rfl
  exact h.args b hx

theorem arg_known_cons (hx : x ∈ op.args) (b : Box) : ∀ b', x = some (.box b') → b' ∈ b :: ks :=
  fun b' hb' => mem_cons_of_mem _ (h.arg_known hx b' hb')

theorem argWord (ha : Agrees u m v) (hx : op.args[i]? = some (some x)) : m.argWord op i = x.word v :=
  ha.argWord h.ok h.args hx

theorem arg_some {i : Nat} (hx : op.args[i]? = some x) : ∃ X, x = some X := by
  obtain ⟨vals, ha, _⟩ := h.typed
  rw [ha, getElem?_map, Option.map_eq_some_iff] at hx
  obtain ⟨X, _, rfl⟩ := hx
  exact ⟨X, rfl⟩

theorem arg_kind {i : Nat} {x : Value} (hx : op.args[i]? = some (some x))
    (hv : op.opcode.isVariadic = false) (hk : op.opcode.argKinds[i]? = some k) (hne : k ≠ .any) :
    x.kind = k := by
  obtain ⟨vals, ha, ht⟩ := h.typed
  exact ((ht.args hv).2 i x k (by simpa [ha] using hx) hk).resolve_left hne

theorem result_class (hb : op.result = some b) (hk : op.opcode.resultKind = k) :
    classOf b.kind = classOf k := by
  rw [(h.result b hb).2.2, hk]

theorem has_result (hk : op.opcode.resultKind ≠ .void) : ∃ b, op.result = some b := by
  cases hb : op.result with
  | none => exact absurd (h.void.mp hb) hk
  | some b => exact ⟨b, rfl⟩

theorem arg_ne (hb : op.result = some b) {x : Value} (hx : some x ∈ op.args) : x ≠ .box b := by
  rintro rfl
  exact (h.result b hb).1 (h.args b hx)

theorem unplaced (hb : op.result = some b) (hok : Ok u ks s') (cls : RegClass) :
    Unplaced u (b :: ks) s' cls b := hok.unplaced (h.result b hb).1 (h.result b hb).2.1 cls

theorem grow (hb : op.result = some b) (hok : Ok u ks s') : Ok u (b :: ks) s' :=
  hok.insert (h.result b hb).2.1

end Ready

theorem Ready.part (hr : Ready u ks pos op s) (hb : op.result = some b) {pos' : Int}
    (h : Part u ks pos' s' s'' R) : Part u (b :: ks) pos' s' s'' R := { h with ok := hr.grow hb h.ok }

/-- What the code of an operation has done: the result is there, nothing else has changed for the
boxes of the trace, and the flags are as the next guard wants them. -/
structure Does (u : Setup ω) (pos : Nat) (op : Op) (s' : State) (v : Box → Word) (w : Word)
    (m' : Eval.Machine ω) (c' : Cpu ω) (v' : Box → Word) : Prop where
  world : c'.world = m'.world
  values : ∀ b, b.id ≤ u.made → v' b = if op.result = some b then w else v b
  overflow : s'.flagsFrom = pos → c'.flags.overflow = m'.overflow
  fused : ∀ f ∈ s'.fused, f.cond.holds c'.flags = decide (w ≠ 0)

structure Fuses (pos : Nat) (op : Op) (next : Option Op) (s : State) (f : Fused) : Prop where
  compares : op.opcode.isComparison = true
  result : f.result = op.result
  used : ∀ b ∈ op.result, s.lifetimes.lastUse b = pos + 1
  guarded : ∃ b g, op.result = some b ∧ next = some g ∧
    (g.opcode = .guardTrue ∨ g.opcode = .guardFalse) ∧ g.args[0]? = some (some (.box b)) ∧
      some (.box b) ∉ g.failArgs

/-- What the code of an operation takes for granted: exchanging the operands of a sum or a product may
lose the payload of a constant that is no number, and displacements have 32 bits. -/
structure Exact (op : Op) : Prop where
  sum : op.opcode = .floatAdd ∨ op.opcode = .floatMul →
    ∀ q, op.args[0]? = some (some (.const q)) → Double.isNaN q.bits = false
  field : ∀ s, op.descr.bind Descr.field? = some s → fitsInt32 s.offset = true
  array : ∀ s, op.descr.bind Descr.array? = some s →
    fitsInt32 s.base = true ∧ fitsInt32 s.length = true

/-- Operations whose code takes nothing for granted. -/
def isSteady (o : Opcode) : Bool := !o.needsDescr && o ≠ .floatAdd && o ≠ .floatMul

/-- What the code of an operation takes for granted is so. -/
def Granted (op : Op) : Prop := isSteady op.opcode = false → Exact op

def InRegister (s : State) (b : Box) : Prop :=
  ((s.bank (classOf b.kind)).regOf (some b)).isSome = true

/-- Instructions that compare, and change nothing but flags. -/
def isComparing : Instr → Bool
  | .alu .cmp _ _ | .aluImm .cmp _ _ | .aluLoad .cmp _ _ | .aluMemImm .cmp _ _ _ | .test _ _
  | .ucomisd _ _ => true
  | _ => false

def EndsComparing (s s' : State) : Prop :=
  ∃ code i, s'.code = s.code ++ (code ++ [.instr i]) ∧ isComparing i = true

/-- An operation that stays on the trace was lowered. -/
structure Lowered (u : Setup ω) (ks : List Box) (pos : Nat) (op : Op) (next : Option Op)
    (s s' : State) : Prop where
  grows : Grows s s'
  retains : Retains u pos s s'
  ok : Ok u (op.result.toList ++ ks) s'
  exits : s'.exits = s.exits
  inputs : s'.inputs = s.inputs
  slots : ∃ bs : List Box, s.frame.History (bs.map some) s'.frame
  cold : s'.cold = s.cold
  maxValues : s'.maxValues = s.maxValues
  stray : s'.stray = s.stray
  adds : Adds u s s'
  flagsFrom : s'.flagsFrom ≤ pos
  inReg : s'.fused = none → ∀ b ∈ op.result, InRegister s' b
  fused : ∀ f ∈ s'.fused, Fuses pos op next s' f
  compares : s'.fused ≠ none → EndsComparing s s'
  sim : Granted op → u.frame.Extends s'.frame → ∀ c v m w m', Good u s c v → Agrees u m v →
    m.world = c.world → Eval.Ran u.env.host op m w m' →
      ∃ c' v', Run u.env s s' c c' ∧ Good u s' c' v' ∧ Does u pos op s' v w m' c' v'

/-- An operation whose code does the right thing whatever becomes of the trace, and what is noted
about the flags behind it. -/
theorem Part.lowered_with {g : Int} (hb : op.result = some b)
    (hp : Part u (b :: ks) pos s s' R) (hg : g ≤ pos)
    (hr : f = none → InRegister s' b) (hf : ∀ fu ∈ f, Fuses pos op next s' fu)
    (hcm : f ≠ none → EndsComparing s s')
    (hd : ∀ c v c' v' m w m', R c v c' v' → Agrees u m v → Eval.Ran u.env.host op m w m' →
      m'.world = m.world ∧ c'.world = c.world ∧ v' b = w ∧
        (∀ b', b'.id ≤ u.made → b' ≠ b → v' b' = v b') ∧ (g = pos → c'.flags.overflow = m'.overflow) ∧
        ∀ fu ∈ f, fu.cond.holds c'.flags = decide (w ≠ 0)) :
    Lowered u ks pos op next s { s' with fused := f, flagsFrom := g } where
  grows := ⟨hp.grows.main, hp.grows.cold, hp.grows.frame, hp.grows.made⟩
  retains := hp.retains.trans (.of_alloc fun cls => by cases cls <;> rfl)
  ok := by
    rw [hb]
    exact hp.ok.congr fun cls => by cases cls <;> rfl
  exits := hp.plain.exits
  inputs := hp.plain.inputs
  slots := hp.plain.slots
  cold := hp.plain.cold
  maxValues := hp.plain.maxValues
  stray := hp.plain.stray
  adds := hp.adds
  flagsFrom := hg
  inReg := by
    rw [hb]
    rintro hn b' ⟨⟩
    have := hr hn
    unfold InRegister at this ⊢
    cases hc : classOf b.kind <;> rw [hc] at this <;> exact this
  fused := fun fu hfu => { hf fu hfu with used := (hf fu hfu).used }
  compares := hcm
  sim := by
    intro _ het c v m w m' hgo ha hwr hra
    obtain ⟨c', v', ⟨code, hco, hfa⟩, hgo', hR⟩ := hp.sim het c v hgo
    obtain ⟨hw, hwo, hre, hs, ho, hfs⟩ := hd c v c' v' m w m' hR ha hra
    refine ⟨c', v', ⟨code, hco, hfa⟩, hgo'.congr fun cls => by cases cls <;> rfl, ?_,
      fun b' hb' => ?_, ho, hfs⟩
    · rw [hwo, hw, hwr]
    · by_cases he : b' = b
      · rw [he, hb, if_pos rfl, hre]
      · rw [hb, if_neg (by simpa [eq_comm] using he), hs b' hb' he]

theorem Part.lowered (hr : Ready u ks pos op s) (hb : op.result = some b)
    (hp : Part u (b :: ks) pos s s' R) (hre : InRegister s' b)
    (hd : ∀ c v c' v' m w m', R c v c' v' → Agrees u m v → Eval.Ran u.env.host op m w m' →
      m'.world = m.world ∧ c'.world = c.world ∧ v' b = w ∧
        ∀ b', b'.id ≤ u.made → b' ≠ b → v' b' = v b') : Lowered u ks pos op next s s' := by
  have hfl : s'.flagsFrom < pos := hp.plain.flagsFrom ▸ hr.flagsFrom
  have hf : s'.fused = none := hp.plain.fused.trans hr.fused
  refine hp.lowered_with (f := s'.fused) (g := s'.flagsFrom) hb hfl.le
    (fun _ => hre) (by simp [hf]) (by simp [hf]) fun c v c' v' m w m' hR ha hra => ?_
  obtain ⟨hw, hw', hrs, hs⟩ := hd c v c' v' m w m' hR ha hra
  exact ⟨hw, hw', hrs, hs, fun h => absurd h hfl.ne, by simp [hf]⟩

/-! ## Operands -/

theorem CompileM.Yields.argBind {α : Type} {i : Nat} {f : Option Value → CompileM α} {a : α}
    (h : Yields (CompileM.arg op i >>= f) req s a s') :
    ∃ x, op.args[i]? = some x ∧ Yields (f x) req s a s' := h.needBind

theorem sameBox_iff : sameBox x y = true ↔ ∃ b, x = some (.box b) ∧ y = x := by
  unfold sameBox
  split
  · rename_i b
    simp [eq_comm]
  · rename_i h
    constructor
    · rintro ⟨⟩
    · rintro ⟨b, rfl, _⟩
      exact absurd rfl (h b)

theorem mem_holders : x ∈ holders vs ↔ ∃ b, x = some b ∧ some (.box b) ∈ vs := by
  simp only [holders, boxesOf, mem_map, mem_filterMap]
  constructor
  · rintro ⟨b, ⟨val, hv, hb⟩, rfl⟩
    cases val with
    | none => cases hb
    | some val =>
      cases val with
      | box b' =>
        cases hb
        exact ⟨_, rfl, hv⟩
      | const q => cases hb
  · rintro ⟨b, rfl, hb⟩
    exact ⟨b, ⟨_, hb, rfl⟩, rfl⟩

/-- A second operand `Q` is asked for after the result has taken over the first one. -/
theorem Answers.operand {Q : Cpu ω → Word → Prop} {pos : Int} {keep keep' : Box → Prop}
    {x y : Value} (hok : Ok u ks s) (h : Answers u ks cls pos keep s s' fun _ v _ v' =>
      v' = update v b (x.word v)) (h' : Answers u ks cls pos keep' s' s'' fun _ v c' v' =>
      Q c' (y.word v) ∧ ∀ b, b.id ≤ s'.supply.made → v' b = v b) (hb : b.id ≤ u.made) (hy : y ≠ .box b) :
    Part u ks pos s s'' fun c v c' v' => Quiet c c' ∧ v' b = x.word v ∧
      Q c' (y.word v) ∧ ∀ b', b'.id ≤ u.made → b' ≠ b → v' b' = v b' := by
  have hm := hok.made.trans h.grows.made
  refine (h.part.trans h'.part).mono ?_
  rintro c v c' v' _ _ ⟨c1, v1, ⟨hq, rfl⟩, hqu, hQ, hs⟩
  refine ⟨hq.trans hqu, ?_, ?_, fun b' hb' hne => ?_⟩
  · rw [hs b (hb.trans hm), update_self]
  · cases y with
    | box b' =>
      have hne : b' ≠ b := fun he => hy (he ▸ rfl)
      have heq : (Value.box b').word (update v b (x.word v)) = v b' := update_of_ne hne ..
      rwa [heq] at hQ
    | const q => exact hQ
  · rw [hs b' (hb'.trans hm), update_of_ne hne]

theorem Answers.taken {pos : Int} {keep : Box → Prop} {f : (Box → Word) → Word}
    (h : Answers u ks cls pos keep s s' fun _ v _ v' => v' = update v b (f v)) :
    Part u ks pos s s' fun c v c' v' => v' b = f v ∧ c'.world = c.world ∧
      ∀ b', b'.id ≤ u.made → b' ≠ b → v' b' = v b' := by
  refine h.part.mono ?_
  rintro c v c' v' _ _ ⟨hq, rfl⟩
  exact ⟨update_self .., hq.world, fun b' _ hne => update_of_ne hne ..⟩

theorem Ready.operands {σ : Type} {toReg : Int → σ} {toMem : Machine.Mem → σ} {src : σ}
    {Allowed : Scope → σ → Prop} {Reads : Cpu ω → Word → σ → Prop} {k : Constraint}
    {ask : CompileM σ} {s1 s2 : State} (hr : Ready u ks pos op s) (hb : op.result = some b)
    (hx : x ∈ op.args) (hy : y ∈ op.args) (ht : Takes u cls toReg toMem Allowed Reads)
    (hsh : Yields (onBank cls (AllocM.resultInSameRegister pos (some b) x k)) u.req s r s1)
    (hs : Yields (if sameBox y x then pure (toReg r) else ask) u.req s1 src s2)
    (hak : Ok u (b :: ks) s1 → Yields ask u.req s1 src s2 →
      Supplied u (b :: ks) cls pos k' s1 s2 (Allowed · src) (Reads · · src) y)
    (hk : some b ∈ k'.forbidden) : ∃ X Y, x = some X ∧ y = some Y ∧ Allowed (u.scope s2.frame) src ∧
      (s2.bank cls).regOf (some b) = some r ∧ b ∉ (s2.bank cls).inFrame ∧
      Part u (b :: ks) pos s s2 fun c v c' v' => Quiet c c' ∧ v' b = X.word v ∧
        Reads c' (Y.word v) src ∧ ∀ b', b'.id ≤ u.made → b' ≠ b → v' b' = v b' := by
  have hg := hr.grow hb hr.ok
  obtain ⟨X, rfl, hre, hf, _, _, ha⟩ :=
    shared_answers hg (hr.arg_known_cons hx b) (hr.unplaced hb hr.ok cls) hsh
  split at hs
  · rename_i hsa
    obtain ⟨b', rfl, heq⟩ := sameBox_iff.mp hsa
    cases heq
    cases hs
    refine ⟨_, _, rfl, rfl, ht.reg .., hre, hf, ha.part.mono ?_⟩
    rintro c v c' v' _ hgo' ⟨hq, rfl⟩
    refine ⟨hq, update_self .., ?_, fun b' _ hne => update_of_ne hne ..⟩
    have := ht.readsReg c' r
    rwa [hgo'.reg ha.ok hre, update_self] at this
  · obtain ⟨Y, rfl, hsr, ha'⟩ := hak ha.ok hs
    have hY : Y ≠ .box b := hr.arg_ne hb hy
    exact ⟨X, Y, rfl, rfl, hsr, ha'.keeps b r ⟨.inl hk, hY⟩ hre, ha'.unstored b ⟨.inl hk, hY⟩ hf,
      ha.operand (Q := fun c x => Reads c x src) hg ha' (hr.result b hb).2.1 hY⟩

theorem constRight_cases (h : constRight o x y = (x', y')) :
    x' = x ∧ y' = y ∨ isCommutative o = true ∧ isConst x = true ∧ x' = y ∧ y' = x := by
  unfold constRight at h
  split at h
  · rename_i hc
    simp only [Bool.and_eq_true] at hc
    cases h
    exact .inr ⟨hc.1.1, hc.1.2, rfl, rfl⟩
  · cases h
    exact .inl ⟨rfl, rfl⟩

theorem constRight_mem (h : constRight o x y = (x', y')) (hx : op.args[0]? = some x)
    (hy : op.args[1]? = some y) : x' ∈ op.args ∧ y' ∈ op.args := by
  have hm := mem_of_getElem? hx
  have hme := mem_of_getElem? hy
  rcases constRight_cases h with ⟨rfl, rfl⟩ | ⟨_, _, rfl, rfl⟩
  · exact ⟨hm, hme⟩
  · exact ⟨hme, hm⟩

def Pair (u : Setup ω) (cls : RegClass) (r q : Int) (A B : Value) (c : Cpu ω) (v : Box → Word)
    (c' : Cpu ω) (v' : Box → Word) : Prop :=
  Quiet c c' ∧ c'.contents (.reg ⟨cls, r⟩) = A.word v ∧ c'.contents (.reg ⟨cls, q⟩) = B.word v ∧
    ∀ b, b.id ≤ u.made → v' b = v b

/-- Two values in registers: the second request leaves the first value where it is. -/
theorem pair_part {q : Int} (hok : Ok u ks s)
    (hx : ∀ b, x = some (.box b) → b ∈ ks) (hyk : ∀ b, y = some (.box b) → b ∈ ks)
    (he : Yields (onBank cls (AllocM.ensure pos x k)) req s r s')
    (he' : Yields (onBank cls (AllocM.ensure pos y k')) req s' q s'')
    (hk : ∀ b, x = some (.box b) → some b ∈ k'.forbidden) (hf : ∀ r, k'.fits (u.req.limits.pool cls) r) :
    ∃ A B, x = some A ∧ y = some B ∧ r ∈ (u.req.limits.pool cls).regs ∧
      q ∈ (u.req.limits.pool cls).regs ∧ Part u ks pos s s'' (Pair u cls r q A B) := by
  obtain ⟨A, rfl, ⟨t, ht, htA⟩, _, han⟩ := ensure_answers hok hx he
  obtain ⟨B, rfl, ⟨t', ht', _⟩, _, han'⟩ := ensure_answers han.ok hyk he'
  refine ⟨A, B, rfl, rfl, han.ok.mem_pool ht, han'.ok.mem_pool ht', ?_⟩
  have hm := hok.made
  have ht_made : t.id ≤ s'.supply.made :=
    (han.ok.tidy cls).placed t (.inl (Option.isSome_iff_exists.mpr ⟨r, ht⟩))
  have ht'' : (s''.bank cls).regOf (some t) = some r := by
    by_cases hB : B = .box t
    · subst hB
      obtain ⟨_, rfl⟩ := ensure_bound han.ok ht (hf r) he'
      exact ht
    · refine han'.keeps t r ⟨?_, hB⟩ ht
      rcases htA with rfl | ⟨hme, _⟩
      · exact .inl (hk t rfl)
      · exact .inr hme
  have ha := han.mono (Q := fun _ v _ v' => v' t = A.word v ∧
    ∀ b, b.id ≤ s.supply.made → v' b = v b) fun c v c' v' hgo h =>
      ⟨by rw [← h.1, hgo.reg han.ok ht], h.2⟩
  refine (ha.part.trans han'.part).mono ?_
  rintro c v c2 v2 _ hg ⟨c1, v1, ⟨hq, hv, hs⟩, hq', hv', hs'⟩
  refine ⟨hq.trans hq', ?_, ?_, fun b hb => ?_⟩
  · rw [← hv, ← hs' t ht_made]
    exact hg.reg han'.ok ht''
  · rw [hv']
    exact word_congr fun b hb => hs b ((hok.ids b (hyk b (congrArg some hb))).trans hm)
  · rw [hs' b ((hb.trans hm).trans han.grows.made), hs b (hb.trans hm)]

/-! ## Registers that operations write to -/

/-- What the code of an operation that leaves the world alone has done once its result is in a
register. -/
def Computes (u : Setup ω) (b : Box) (f : (Box → Word) → Word) (c : Cpu ω) (v : Box → Word)
    (c' : Cpu ω) (v' : Box → Word) : Prop :=
  c'.world = c.world ∧ v' b = f v ∧ ∀ b', b'.id ≤ u.made → b' ≠ b → v' b' = v b'

variable {Q : Cpu ω → (Box → Word) → Cpu ω → (Box → Word) → Prop}

section

variable (h : Part u ks pos s s' fun c v c' v' => Q c v c' v' ∧ c'.world = c.world ∧ ∀ b', b'.id ≤ u.made → b' ≠ b → v' b' = v b')
include h

/-- One instruction computes a result from what is there. -/
theorem Part.computes (hin : Confined (u.scope s'.frame) i)
    (he : ∀ c v c' v', Good u s' c' v' → Q c v c' v' → ∃ c'', i.exec u.env c' = some c'' ∧
      c''.world = c'.world ∧ Good u s' c'' (update v' b (f v))) :
    Part u ks pos s (s'.emitted [.instr i]) (Computes u b f) := by
  refine h.instr hin ?_
  rintro c v c' v' hg' ⟨hQ, hw, hs⟩
  obtain ⟨c'', hi, hw', hg''⟩ := he c v c' v' hg' hQ
  refine ⟨c'', _, hi, hg'', hw'.trans hw, update_self .., fun b' hb' hne => ?_⟩
  rw [update_of_ne hne, hs b' hb' hne]

theorem Part.compute (hr : (s'.bank .gp).regOf (some b) = some r)
    (hf : b ∉ (s'.bank .gp).inFrame) (hin : Confined (u.scope s'.frame) i)
    (he : ∀ c v c' v', Good u s' c' v' → Q c v c' v' →
      ∃ fl, i.exec u.env c' = some ((c'.setGp r (f v)).setFlags fl)) :
    Part u ks pos s (s'.emitted [.instr i]) (Computes u b f) := by
  refine h.computes hin fun c v c' v' hg' hQ => ?_
  obtain ⟨fl, hfl⟩ := he c v c' v' hg' hQ
  exact ⟨_, hfl, rfl, (hg'.setGp h.ok hr hf _).alike h.ok (.setFlags _ fl)⟩

end

/-- What the code of an operation with the effect `e` on the world has done. -/
def Performs (u : Setup ω) (result : Option Box) (e : ω → (Box → Word) → Option (Word × ω))
    (c : Cpu ω) (v : Box → Word) (c' : Cpu ω) (v' : Box → Word) : Prop :=
  ∃ w, e c.world v = some (w, c'.world) ∧
    ∀ b, b.id ≤ u.made → v' b = if result = some b then w else v b

theorem Computes.performs (h : Computes u b f c v c' v') (hb : op.result = some b) :
    Performs u op.result (fun world v => some (f v, world)) c v c' v' := by
  obtain ⟨hw, hr, hs⟩ := h
  refine ⟨f v, by rw [hw], fun b' hb' => ?_⟩
  by_cases he : b' = b
  · rw [he, hb, if_pos rfl, hr]
  · rw [hb, if_neg (by simpa [eq_comm] using he), hs b' hb' he]

theorem PartIf.performed (h : PartIf u (op.result.toList ++ ks) pos s s' (fun c v => (e c.world v).isSome)
      (Performs u op.result e)) (hr : Ready u ks pos op s) (hre : ∀ b ∈ op.result, InRegister s' b)
    (he : Granted op → ∀ v m w m', Agrees u m v → Eval.Ran u.env.host op m w m' →
      e m.world v = some (w, m'.world)) : Lowered u ks pos op next s s' where
  grows := h.grows
  retains := h.retains
  ok := h.ok
  exits := h.plain.exits
  inputs := h.plain.inputs
  slots := h.plain.slots
  cold := h.plain.cold
  maxValues := h.plain.maxValues
  stray := h.plain.stray
  adds := h.adds
  flagsFrom := (h.plain.flagsFrom ▸ hr.flagsFrom).le
  inReg := fun _ => hre
  fused := by
    rw [h.plain.fused, hr.fused]
    rintro _ ⟨⟩
  compares := by
    rw [h.plain.fused, hr.fused]
    exact absurd rfl
  sim := by
    intro hea het c v m w m' hg ha hw hra
    have hef := he hea v m w m' ha hra
    rw [hw] at hef
    obtain ⟨c', v', hru, hg', w', hef', hv⟩ := h.sim het c v hg (by rw [hef]; rfl)
    obtain ⟨rfl, hw'⟩ := Prod.mk.inj (Option.some.inj (hef'.symm.trans hef))
    refine ⟨c', v', hru, hg', hw', hv, fun hf => ?_, ?_⟩
    · exact absurd hf (h.plain.flagsFrom ▸ hr.flagsFrom).ne
    · rw [h.plain.fused, hr.fused]
      rintro _ ⟨⟩

section

variable (h : Part u (b :: ks) pos s s' (Computes u b f)) (hr : Ready u ks pos op s) (hb : op.result = some b)
  (hre : InRegister s' b)
include h hr hb hre

theorem Part.computed_exact (hf : Granted op → ∀ v m w m', Agrees u m v → Eval.Ran u.env.host op m w m' →
      m'.world = m.world ∧ w = f v) : Lowered u ks pos op next s s' := by
  have h' : PartIf u (op.result.toList ++ ks) pos s s' (fun _ _ => True)
      (Performs u op.result fun world v => some (f v, world)) := by
    rw [hb]
    exact (h.given _).mono (fun _ _ h => h) fun _ _ _ _ _ _ _ h => hb ▸ h.performs hb
  refine (h'.mono (fun _ _ _ => trivial) fun _ _ _ _ _ _ _ h => h).performed hr ?_ ?_
  · rintro b' hb'
    cases hb.symm.trans hb'
    exact hre
  · intro he v m w m' ha hra
    obtain ⟨hw, rfl⟩ := hf he v m w m' ha hra
    rw [hw]

theorem Part.computed (hf : ∀ v m w m', Agrees u m v → Eval.Ran u.env.host op m w m' →
      m'.world = m.world ∧ w = f v) : Lowered u ks pos op next s s' :=
  h.computed_exact hr hb hre fun _ => hf

end

theorem inRegister_of_regOf (hc : classOf b.kind = cls)
    (hr : (s.bank cls).regOf (some b) = some r) : InRegister s b := by
  subst hc
  exact Option.isSome_iff_exists.mpr ⟨r, hr⟩

end TraceCompiler.Lowering
