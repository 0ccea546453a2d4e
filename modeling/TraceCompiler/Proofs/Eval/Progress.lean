import TraceCompiler.Proofs.Eval.Runs
import TraceCompiler.Proofs.Trace.Validity

/-! # Operations that do not get stuck

An operation that fits its signature either has a result or divides by zero, as long as the host does
what it asks (`Serves`): memory that is read or written is mapped, an allocation gives an address and
a call returns.
-/

namespace TraceCompiler.Eval

variable {ω α : Type} {h : Host ω} {op : Op} {m : Machine ω} {vals : List Value}
  {x y : Option Value} {i : Nat} {addr : Word} {size : Int}

/-! ## What the host is asked for -/

def Readable (h : Host ω) (addr : Word) (size : Int) (world : ω) : Prop :=
  (h.read addr (accessBytes size) world).isSome = true

def Writable (h : Host ω) (addr : Word) (size : Int) (w : Word) (world : ω) : Prop :=
  (h.write addr (Word.bytes (accessBytes size) w) world).isSome = true

/-- Memory of a size can be allocated, and what is done with it in the world after that is possible. -/
def Allocatable (h : Host ω) (size : Word) (world : ω) (use : Word → ω → Prop) : Prop :=
  ∃ f, h.malloc = some f ∧ (f size world).1 ≠ 0 ∧ use (f size world).1 (f size world).2

def Serves (h : Host ω) (op : Op) (m : Machine ω) : Prop :=
  match op.opcode with
  | .guardClass => Readable h (m.argWord op 0) 8 m.world
  | .getfieldI | .getfieldR | .getfieldF => ∀ s, op.descr.bind Descr.field? = some s →
    Readable h (m.argWord op 0 + Word.ofInt s.offset) s.size m.world
  | .setfield => ∀ s, op.descr.bind Descr.field? = some s →
    Writable h (m.argWord op 0 + Word.ofInt s.offset) s.size (m.argWord op 1)
      (announced h s.kind (m.argWord op 0) m.world)
  | .getarrayitemI | .getarrayitemR | .getarrayitemF => ∀ s, op.descr.bind Descr.array? = some s →
    Readable h (itemAddr s (m.argWord op 0) (m.argWord op 1)) s.item m.world
  | .setarrayitem => ∀ s, op.descr.bind Descr.array? = some s →
    Writable h (itemAddr s (m.argWord op 0) (m.argWord op 1)) s.item (m.argWord op 2)
      (announced h s.kind (m.argWord op 0) m.world)
  | .arraylen => ∀ s, op.descr.bind Descr.array? = some s →
    Readable h (m.argWord op 0 + Word.ofInt s.length) 8 m.world
  | .new => ∀ size, op.descr.bind Descr.size? = some size →
    Allocatable h (Word.ofInt size) m.world fun _ _ => True
  | .newWithVtable => ∀ size, op.descr.bind Descr.size? = some size →
    Allocatable h (Word.ofInt size) m.world fun p world => Writable h p 8 (m.argWord op 0) world
  | .newArray => ∀ s, op.descr.bind Descr.array? = some s →
    Allocatable h (Word.ofInt (s.itemOffset (m.argWord op 0))) m.world fun p world =>
      Writable h (p + Word.ofInt s.length) 8 (m.argWord op 0) world
  | .callI | .callR | .callF | .callN => ∀ sig, op.descr.bind Descr.call? = some sig →
    ∃ w world, h.call (m.argWord op 0) sig ((op.args.drop 1).map m.word) m.world = (.ok w, world)
  | _ => True

theorem serves_of_not_heap (ho : (op.opcode.isCall || op.opcode.needsDescr) = false)
    (hc : op.opcode ≠ .guardClass) : Serves h op m := by
  unfold Serves
  split <;> first
    | trivial
    | simp_all [Opcode.isCall, Opcode.needsDescr]

/-! ## Steps that succeed -/

theorem run_arg (hx : op.args[i]? = some x) : (arg op i).run m = (.ok (m.argWord op i), m) := by
  unfold arg Machine.argWord
  rw [hx]
  rfl

theorem run_need (ho : o = some a) : (need o : EvalM ω α).run m = (.ok a, m) := by
  rw [ho]
  rfl

theorem run_words (vs : List (Option Value)) :
    (words vs : EvalM ω (List Word)).run m = (.ok (vs.map m.word), m) := rfl

theorem run_onWorld (f : ω → α × ω) :
    (onWorld f).run m = (.ok (f m.world).1, { m with world := (f m.world).2 }) := rfl

theorem Readable.run_load (hr : Readable h addr size m.world) :
    ∃ w, (load h addr size signed).run m = (.ok w, m) := by
  obtain ⟨bs, hbs⟩ := Option.isSome_iff_exists.mp hr
  unfold load
  dsimp only
  rw [run_get_bind, hbs]
  exact ⟨_, rfl⟩

theorem Writable.run_store (hwr : Writable h addr size w m.world) :
    ∃ m', (store h addr size w).run m = (.ok (), m') := by
  obtain ⟨world', hw⟩ := Option.isSome_iff_exists.mp hwr
  obtain ⟨values, overflow, world⟩ := m
  unfold store
  refine ⟨⟨values, overflow, world'⟩, ?_⟩
  refine run_seq (v := true) (?_ : _ = (_, (⟨values, overflow, world'⟩ : Machine ω)))
  rw [run_modifyGet]
  dsimp only
  rw [hw]

theorem run_barrier : (barrier h obj).run m =
    (.ok (), { m with world := announced h .ref obj m.world }) := by
  unfold barrier announced
  cases h.barrier <;> rfl

theorem run_announce {kind : Kind} {k : Unit → EvalM ω Word} (hx : op.args[0]? = some x) :
    (if kind = .ref then (do barrier h (← arg op 0); k ()) else k ()).run m =
      (k ()).run { m with world := announced h kind (m.argWord op 0) m.world } := by
  by_cases hk : kind = .ref
  · rw [if_pos hk, run_seq (run_arg hx), run_seq run_barrier, hk]
  · rw [if_neg hk, announced, if_neg hk]

theorem Allocatable.run_malloc {size : Word} {use : Word → ω → Prop}
    (ha : Allocatable h size m.world use) :
    ∃ p world, (malloc h size).run m = (.ok p, { m with world }) ∧ use p world := by
  obtain ⟨f, hf, hne, hu⟩ := ha
  refine ⟨_, _, ?_, hu⟩
  unfold malloc
  rw [hf]
  refine (run_seq rfl).trans ?_
  rw [if_neg fun h => hne h.1]
  rfl

/-! ## Families of operations -/

theorem exists_arg (hv : op.args = vals.map some) (hi : i < vals.length) : ∃ x, op.args[i]? = some x := by
  rw [hv]
  exact ⟨_, List.getElem?_eq_getElem (by rwa [List.length_map])⟩

theorem runHeap_progress (hv : op.args = vals.map some) (ht : op.Typed vals)
    (hd : op.opcode.needsDescr = true) (hse : Serves h op m) :
    ∃ w m', (runHeap h op).run m = (.ok w, m') := by
  have hg {o : Opcode} (ho : op.opcode = o) (hf : o.isVariadic = false) {i : Nat}
      (hi : i < o.argKinds.length) : ∃ x, op.args[i]? = some x := by
    subst ho
    exact exists_arg hv (by rwa [(ht.args hf).1])
  unfold Serves at hse
  unfold runHeap
  split
  iterate 3
    rename_i ho
    obtain ⟨s, hs, -⟩ := ht.field (by simp [ho])
    obtain ⟨x, hx⟩ := hg ho rfl (i := 0) (by decide)
    rw [ho] at hse
    obtain ⟨w, hw⟩ := (hse s hs).run_load
    refine ⟨w, m, ?_⟩
    rw [run_seq (run_need hs), run_seq (run_arg hx)]
    exact hw
  · rename_i ho
    obtain ⟨s, hs, -⟩ := ht.field (by simp [ho])
    obtain ⟨x, hx⟩ := hg ho rfl (i := 0) (by decide)
    obtain ⟨y, hy⟩ := hg ho rfl (i := 1) (by decide)
    rw [ho] at hse
    obtain ⟨m', hst⟩ := Writable.run_store (m := { m with world := _ }) (hse s hs)
    refine ⟨0, m', ?_⟩
    rw [run_seq (run_need hs)]
    refine (run_announce (k := fun _ => do
      store h ((← arg op 0) + Word.ofInt s.offset) s.size (← arg op 1)
      return 0) hx).trans ?_
    rw [run_seq (run_arg hx), run_seq (run_arg hy)]
    exact run_seq hst
  iterate 3
    rename_i ho
    obtain ⟨s, hs, -⟩ := ht.array (by simp [ho])
    obtain ⟨x, hx⟩ := hg ho rfl (i := 0) (by decide)
    obtain ⟨y, hy⟩ := hg ho rfl (i := 1) (by decide)
    rw [ho] at hse
    obtain ⟨w, hw⟩ := (hse s hs).run_load
    refine ⟨w, m, ?_⟩
    rw [run_seq (run_need hs), run_seq (run_arg hx), run_seq (run_arg hy)]
    exact hw
  · rename_i ho
    obtain ⟨s, hs, -⟩ := ht.array (by simp [ho])
    obtain ⟨x, hx⟩ := hg ho rfl (i := 0) (by decide)
    obtain ⟨y, hy⟩ := hg ho rfl (i := 1) (by decide)
    obtain ⟨z, hz⟩ := hg ho rfl (i := 2) (by decide)
    rw [ho] at hse
    obtain ⟨m', hst⟩ := Writable.run_store (m := { m with world := _ }) (hse s hs)
    refine ⟨0, m', ?_⟩
    rw [run_seq (run_need hs)]
    refine (run_announce (k := fun _ => do
      store h (itemAddr s (← arg op 0) (← arg op 1)) s.item (← arg op 2)
      return 0) hx).trans ?_
    rw [run_seq (run_arg hx), run_seq (run_arg hy), run_seq (run_arg hz)]
    exact run_seq hst
  · rename_i ho
    obtain ⟨s, hs, -⟩ := ht.array (by simp [ho])
    obtain ⟨x, hx⟩ := hg ho rfl (i := 0) (by decide)
    rw [ho] at hse
    obtain ⟨w, hw⟩ := (hse s hs).run_load
    refine ⟨w, m, ?_⟩
    rw [run_seq (run_need hs), run_seq (run_arg hx)]
    exact hw
  · rename_i ho
    obtain ⟨size, hs⟩ := ht.size (by simp [ho])
    rw [ho] at hse
    obtain ⟨p, world, hp, -⟩ := (hse size hs).run_malloc
    exact ⟨p, _, (run_seq (run_need hs)).trans hp⟩
  · rename_i ho
    obtain ⟨size, hs⟩ := ht.size (by simp [ho])
    obtain ⟨x, hx⟩ := hg ho rfl (i := 0) (by decide)
    rw [ho] at hse
    obtain ⟨p, world, hp, hu⟩ := (hse size hs).run_malloc
    obtain ⟨m', hst⟩ := Writable.run_store (m := { m with world }) hu
    refine ⟨p, m', ?_⟩
    rw [run_seq (run_need hs), run_seq hp, run_seq (run_arg hx)]
    exact run_seq hst
  · rename_i ho
    obtain ⟨s, hs, -⟩ := ht.array (by simp [ho])
    obtain ⟨x, hx⟩ := hg ho rfl (i := 0) (by decide)
    rw [ho] at hse
    obtain ⟨p, world, hp, hu⟩ := (hse s hs).run_malloc
    obtain ⟨m', hst⟩ := Writable.run_store (m := { m with world }) hu
    refine ⟨p, m', ?_⟩
    rw [run_seq (run_need hs), run_seq (run_arg hx), run_seq hp]
    exact run_seq hst
  iterate 4
    rename_i ho
    obtain ⟨sig, fn, rest, hs, rfl, -⟩ := ht.call (by simp [ho])
    obtain ⟨x, hx⟩ := exists_arg hv (i := 0) (by simp)
    rw [ho] at hse
    obtain ⟨w, world, hc⟩ := hse sig hs
    refine ⟨w, { m with world }, ?_⟩
    rw [run_seq (run_need hs), run_seq (run_arg hx), run_seq (run_words _), run_seq (run_onWorld _), hc]
    rfl
  · rename_i hno
    cases ho : op.opcode <;> simp_all [Opcode.needsDescr]

/-- What is neither a guard nor the end of a trace, takes more than one word and leaves memory alone,
works on two floats or on two words that are none. -/
theorem arith_cases (hv : o.isValid = true) (hg : o.isGuard = false)
    (hf : o.isFinal = false) (hm : o ≠ .debugMergePoint) (hu : isUnary o = false)
    (hd : o.needsDescr = false) :
    (o.argKinds = [.float, .float] ∧ ∀ a b, ∃ w, floatResult? o a b = some w) ∨
      (o.argKinds = [.int, .int] ∨ o.argKinds = [.ref, .ref]) ∧
        (o = .intFloordiv ∨ o = .intMod ∨ ∀ a b, (∃ r, overflowResult? o a b = some r) ∨
          overflowResult? o a b = none ∧ ∃ w, intResult? o a b = some w) := by
  cases o <;> simp_all [Opcode.isValid, Opcode.isGuard, Opcode.isFinal, isUnary, Opcode.needsDescr,
    Opcode.argKinds, floatResult?, overflowResult?, intResult?]

def ZeroDivisor (op : Op) (m : Machine ω) : Prop :=
  (op.opcode = .intFloordiv ∨ op.opcode = .intMod) ∧ m.argWord op 1 = 0

def Computes {α : Type} (x : EvalM ω α) (op : Op) (m : Machine ω) : Prop :=
  (∃ a m', x.run m = (.ok a, m')) ∨
    ZeroDivisor op m ∧ ∃ m', x.run m = (.error (.error .divisionByZero), m')

theorem runFloat_progress (hx : op.args[0]? = some x) (hy : op.args[1]? = some y)
    (hr : ∀ a b, ∃ w, floatResult? op.opcode a b = some w) : Computes (runFloat op) op m := by
  obtain ⟨w, hw⟩ := hr (m.argWord op 0) (m.argWord op 1)
  refine .inl ⟨w, m, ?_⟩
  unfold runFloat
  rw [run_seq (run_arg hx), run_seq (run_arg hy), hw]
  rfl

theorem runInt_progress (hx : op.args[0]? = some x) (hy : op.args[1]? = some y)
    (hr : op.opcode = .intFloordiv ∨ op.opcode = .intMod ∨
      ∀ a b, (∃ r, overflowResult? op.opcode a b = some r) ∨
        overflowResult? op.opcode a b = none ∧ ∃ w, intResult? op.opcode a b = some w) :
    Computes (runInt op) op m := by
  unfold Computes ZeroDivisor runInt
  rw [run_seq (run_arg hx), run_seq (run_arg hy)]
  split
  iterate 2
    rename_i ho
    by_cases hz : m.argWord op 1 = 0
    · exact .inr ⟨⟨by simp [ho], hz⟩, m, by rw [if_pos hz]; rfl⟩
    · exact .inl ⟨_, m, by rw [if_neg hz]; rfl⟩
  · rename_i hd hm
    obtain ho | ho | hr := hr
    · exact absurd ho hd
    · exact absurd ho hm
    · rcases hr (m.argWord op 0) (m.argWord op 1) with ⟨⟨w, overflow⟩, hw⟩ | ⟨hn, w, hw⟩
      · rw [hw]
        exact .inl ⟨w, _, rfl⟩
      · rw [hn, hw]
        exact .inl ⟨w, m, rfl⟩

/-- **An operation that stays on the trace does not get stuck.** -/
theorem runOp_progress (hv : op.args = vals.map some) (ht : op.Typed vals)
    (hva : op.opcode.isValid = true) (hg : op.opcode.isGuard = false)
    (hf : op.opcode.isFinal = false) (hs : Serves h op m) : Computes (runOp h op) op m := by
  have hfi (hc : op.opcode.needsDescr = false) : op.opcode.isVariadic = false := by
    cases ho : op.opcode <;> simp_all [Opcode.isVariadic, Opcode.needsDescr, Opcode.isFinal]
  unfold Computes runOp
  by_cases hm : op.opcode = .debugMergePoint
  · rw [if_pos hm]
    exact .inl ⟨0, m, rfl⟩
  rw [if_neg hm]
  by_cases hu : isUnary op.opcode = true
  · rw [if_pos hu]
    have hon : op.opcode.isVariadic = false ∧ 0 < op.opcode.argKinds.length := by
      cases ho : op.opcode <;> simp_all [isUnary, Opcode.isVariadic, Opcode.argKinds]
    obtain ⟨x, hx⟩ := exists_arg hv (by rw [(ht.args hon.1).1]; exact hon.2)
    exact .inl ⟨_, m, run_seq (run_arg hx)⟩
  rw [if_neg hu]
  by_cases hd : op.opcode.needsDescr = true
  · rw [if_pos (by simp [hd])]
    exact .inl (runHeap_progress hv ht hd hs)
  have hd := Bool.eq_false_iff.mpr hd
  rw [if_neg (by cases ho : op.opcode <;> simp_all [Opcode.isCall, Opcode.needsDescr])]
  obtain ⟨hl, hki⟩ := ht.args (hfi hd)
  have htw := arith_cases hva hg hf hm (Bool.eq_false_iff.mpr hu) hd
  have hl : vals.length = 2 := by
    rw [hl]
    rcases htw with ⟨hk, -⟩ | ⟨hk | hk, -⟩ <;> rw [hk] <;> rfl
  obtain ⟨a, b, rfl⟩ := List.length_eq_two.mp hl
  have hx : op.args[0]? = some (some a) := by rw [hv]; rfl
  have hy : op.args[1]? = some (some b) := by rw [hv]; rfl
  have ha : op.args = [some a, some b] := hv
  rw [ha]
  dsimp only
  rcases htw with ⟨hk, hr⟩ | ⟨hk, hr⟩
  · have hkn : a.kind = .float := by
      simpa using hki 0 a .float rfl (by rw [hk]; rfl)
    rw [if_pos hkn]
    exact runFloat_progress hx hy hr
  · have hkn : a.kind ≠ .float := by
      rcases hk with hk | hk
      · have := hki 0 a .int rfl (by rw [hk]; rfl)
        simp_all
      · have := hki 0 a .ref rfl (by rw [hk]; rfl)
        simp_all
    rw [if_neg hkn]
    exact runInt_progress hx hy hr

/-- **A guard does not get stuck.** -/
theorem guardHolds_progress (hv : op.args = vals.map some) (ht : op.Typed vals)
    (hg : op.opcode.isGuard = true) (hs : Serves h op m) :
    ∃ holds, (guardHolds h op).run m = (.ok holds, m) := by
  have hf : op.opcode.isVariadic = false := by
    cases ho : op.opcode <;> simp_all [Opcode.isVariadic, Opcode.isGuard]
  have hge {o : Opcode} (ho : op.opcode = o) {i : Nat} (hi : i < o.argKinds.length) :
      ∃ x, op.args[i]? = some x := by
    subst ho
    exact exists_arg hv (by rwa [(ht.args hf).1])
  unfold Serves at hs
  unfold guardHolds
  split
  iterate 4
    rename_i ho
    obtain ⟨x, hx⟩ := hge ho (i := 0) (by decide)
    exact ⟨_, run_seq (run_arg hx)⟩
  · rename_i ho
    obtain ⟨x, hx⟩ := hge ho (i := 0) (by decide)
    obtain ⟨y, hy⟩ := hge ho (i := 1) (by decide)
    exact ⟨_, (run_seq (run_arg hx)).trans (run_seq (run_arg hy))⟩
  · rename_i ho
    obtain ⟨x, hx⟩ := hge ho (i := 0) (by decide)
    obtain ⟨y, hy⟩ := hge ho (i := 1) (by decide)
    rw [ho] at hs
    obtain ⟨w, hw⟩ : ∃ w, (load h (m.argWord op 0) 8 false).run m = (.ok w, m) := Readable.run_load hs
    refine ⟨w = m.argWord op 1, ?_⟩
    rw [run_seq (run_arg hx), run_seq hw]
    exact run_seq (run_arg hy)
  · exact ⟨_, rfl⟩
  · exact ⟨_, rfl⟩

/-! ## Steps of a run -/

section

variable {l : Linked} {id pos max left : Nat} {p p' : Point} {m' m'' : Machine ω}
  {rest : List (Option Op)} {kinds : List Kind} {words : List Word}

theorem run_guardTrue (ho : op.opcode = .guardTrue) (hx : op.args[0]? = some x)
    (hh : decide (m.argWord op 0 ≠ 0) = holds) : (guardHolds h op).run m = (.ok holds, m) := by
  unfold guardHolds
  rw [ho, ← hh]
  exact run_seq (run_arg hx)

theorem control_holds (hg : op.opcode.isGuard = true) (hh : (guardHolds h op).run m = (.ok true, m)) :
    (control l h id pos op).run m = (.ok .next, m) := by
  unfold control
  rw [if_pos hg, run_seq hh]
  rfl

theorem control_fails (hg : op.opcode.isGuard = true)
    (hh : (guardHolds h op).run m = (.ok false, m)) (hb : l.bridge? id pos = none)
    (hk : op.exitKinds? = some kinds) :
    (control l h id pos op).run m = (.ok (.leave (op.failArgs.map m.word) kinds), m) := by
  unfold control
  rw [if_pos hg, run_seq hh, if_neg Bool.false_ne_true, run_seq (run_words _), hb]
  exact run_seq (run_need hk)

theorem go_next (hr : p.rest = some op :: rest)
    (hru : (control l h p.id p.pos op).run m = (.ok .next, m')) :
    go l h max (left + 1) p m = go l h max left { p with pos := p.pos + 1, rest } m' := by
  conv_lhs => unfold go; rw [hr]; dsimp only; rw [hru]

theorem go_leave (hr : p.rest = some op :: rest)
    (hru : (control l h p.id p.pos op).run m = (.ok (.leave words kinds), m')) :
    go l h max (left + 1) p m = (.ok ⟨p.id, p.pos, op.opcode, words, kinds, max - left⟩, m') := by
  conv_lhs => unfold go; rw [hr]; dsimp only; rw [hru]

theorem go_transfer (hr : p.rest = some op :: rest)
    (hru : (control l h p.id p.pos op).run m = (.ok (.transfer dest words), m'))
    (hf : follow l p dest words m' = (.ok p', m'')) :
    go l h max (left + 1) p m = go l h max left p' m'' := by
  conv_lhs => unfold go; rw [hr]; dsimp only; rw [hru]; dsimp only; rw [hf]

end

end TraceCompiler.Eval
