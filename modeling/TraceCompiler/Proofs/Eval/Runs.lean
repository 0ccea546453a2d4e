import TraceCompiler.Eval.Run
import TraceCompiler.Proofs.Computation

/-! # Successful operations

The ways in which `runOp` succeeds, as one relation `Ran`: by family of operations, with the arguments
that were read, the result and what became of the machine.
-/

namespace TraceCompiler.Eval

variable {ω : Type} {h : Host ω} {op : Op} {m m' : Machine ω} {w addr : Word} {size : Int}
  {t : Unit}

def Machine.argWord (m : Machine ω) (op : Op) (i : Nat) : Word := m.word (op.args[i]?).join

theorem run_arg_bind_ok (hr : (arg op i >>= k).run m = (.ok r, m')) :
    (k (m.argWord op i)).run m = (.ok r, m') := by
  unfold arg at hr
  unfold Machine.argWord
  cases hx : op.args[i]? with
  | none =>
    rw [hx] at hr
    cases hr
  | some x =>
    rw [hx] at hr
    exact hr

theorem run_need_ok {α : Type} {o : Option α} {x : α}
    (hr : (need o : EvalM ω α).run m = (.ok x, m')) : o = some x ∧ m' = m := by
  cases o with
  | none => cases hr
  | some y =>
    cases hr
    exact ⟨rfl, rfl⟩

theorem run_need_bind_ok {o : Option α} {k : α → EvalM ω β}
    (hr : (need o >>= k).run m = (.ok r, m')) : ∃ x, o = some x ∧ (k x).run m = (.ok r, m') := by
  obtain ⟨x, m1, h1, h2⟩ := run_bind_ok hr
  obtain ⟨hx, rfl⟩ := run_need_ok h1
  exact ⟨x, hx, h2⟩

/-! ## Memory, allocation and calls -/

def Loads (h : Host ω) (addr : Word) (size : Int) (signed : Bool) (world : ω) (w : Word) : Prop :=
  ∃ bs, h.read addr (accessBytes size) world = some bs ∧
    w = if signed then Word.signExtend (accessBytes size) (Word.ofBytes bs) else Word.ofBytes bs

def Stores (h : Host ω) (addr : Word) (size : Int) (w : Word) (world world' : ω) : Prop :=
  h.write addr (Word.bytes (accessBytes size) w) world = some world'

def announced (h : Host ω) (kind : Kind) (obj : Word) (world : ω) : ω :=
  if kind = .ref then (h.barrier.map fun f => f obj world).getD world else world

def Allocates (h : Host ω) (size : Word) (world : ω) (p : Word) (world' : ω) : Prop :=
  ∃ f, h.malloc = some f ∧ f size world = (p, world')

theorem run_load_ok (hr : (load h addr size signed).run m = (.ok w, m')) :
    Loads h addr size signed m.world w ∧ m' = m := by
  unfold load at hr
  dsimp only at hr
  rw [run_get_bind] at hr
  cases hbs : h.read addr (accessBytes size) m.world with
  | none =>
    rw [hbs] at hr
    cases hr
  | some bs =>
    rw [hbs] at hr
    cases hr
    exact ⟨⟨bs, hbs, rfl⟩, rfl⟩

theorem run_store_ok (hr : (store h addr size x).run m = (.ok t, m')) :
    ∃ world, Stores h addr size x m.world world ∧ m' = { m with world } := by
  unfold store at hr
  obtain ⟨ok, m1, h1, h2⟩ := run_bind_ok hr
  obtain ⟨values, overflow, world⟩ := m
  rw [run_modifyGet] at h1
  dsimp only at h1
  cases hw : h.write addr (Word.bytes (accessBytes size) x) world with
  | none =>
    rw [hw] at h1
    cases h1
    cases h2
  | some world' =>
    rw [hw] at h1
    cases h1
    cases h2
    exact ⟨world', hw, rfl⟩

theorem run_barrier_ok (hr : (barrier h obj).run m = (.ok t, m')) :
    m' = { m with world := announced h .ref obj m.world } := by
  unfold barrier at hr
  unfold announced
  cases hb : h.barrier with
  | none =>
    rw [hb] at hr
    cases hr
    rfl
  | some f =>
    rw [hb] at hr
    cases hr
    rfl

theorem run_malloc_ok {size p : Word} (hr : (malloc h size).run m = (.ok p, m')) :
    ∃ world, Allocates h size m.world p world ∧ m' = { m with world } := by
  unfold malloc at hr
  cases hf : h.malloc with
  | none =>
    rw [hf] at hr
    cases hr
  | some f =>
    rw [hf] at hr
    obtain ⟨q, m1, h1, h2⟩ := run_bind_ok hr
    dsimp only at h2
    split at h2
    · cases h2
    · cases h1
      cases h2
      exact ⟨_, ⟨f, hf, rfl⟩, rfl⟩

theorem run_call_ok (hru : (do
      match ← onWorld (h.call fn sig args) with
      | .ok w => return w
      | .error e => throw (e.map OpError.call) : EvalM ω Word).run m = (.ok w, m')) :
    ∃ world, h.call fn sig args m.world = (.ok w, world) ∧ m' = { m with world } := by
  obtain ⟨r, m1, h1, h2⟩ := run_bind_ok hru
  have hr : h.call fn sig args m.world = (r, m1.world) ∧ m1 = { m with world := m1.world } := by
    cases h1
    exact ⟨rfl, rfl⟩
  cases r with
  | error e => cases h2
  | ok w' =>
    cases h2
    exact ⟨_, hr⟩

/-- A load of an operation: the address, the number of bytes, and whether the sign is extended. -/
structure Read where
  addr : Word
  size : Int
  signed : Bool

def read? (op : Op) (m : Machine ω) : Option Read :=
  match op.opcode with
  | .getfieldI | .getfieldR | .getfieldF => (op.descr.bind Descr.field?).map fun s =>
    ⟨m.argWord op 0 + Word.ofInt s.offset, s.size, s.signed⟩
  | .getarrayitemI | .getarrayitemR | .getarrayitemF => (op.descr.bind Descr.array?).map fun s =>
    ⟨itemAddr s (m.argWord op 0) (m.argWord op 1), s.item, s.signed⟩
  | .arraylen => (op.descr.bind Descr.array?).map fun s =>
    ⟨m.argWord op 0 + Word.ofInt s.length, 8, true⟩
  | _ => none

/-- A store of an operation: the kind of value, the object it goes to, and the bytes. -/
structure Write where
  kind : Kind
  object : Word
  addr : Word
  size : Int
  word : Word

def write? (op : Op) (m : Machine ω) : Option Write :=
  match op.opcode with
  | .setfield => (op.descr.bind Descr.field?).map fun s =>
    ⟨s.kind, m.argWord op 0, m.argWord op 0 + Word.ofInt s.offset, s.size, m.argWord op 1⟩
  | .setarrayitem => (op.descr.bind Descr.array?).map fun s =>
    ⟨s.kind, m.argWord op 0, itemAddr s (m.argWord op 0) (m.argWord op 1), s.item, m.argWord op 2⟩
  | _ => none

/-- An allocation of an operation: the size, and a word that goes to the new object. -/
structure Alloc where
  size : Word
  head : Option (Int × Word)

def alloc? (op : Op) (m : Machine ω) : Option Alloc :=
  match op.opcode with
  | .new => (op.descr.bind Descr.size?).map fun n => ⟨Word.ofInt n, none⟩
  | .newWithVtable => (op.descr.bind Descr.size?).map fun n =>
    ⟨Word.ofInt n, some (0, m.argWord op 0)⟩
  | .newArray => (op.descr.bind Descr.array?).map fun s =>
    ⟨Word.ofInt (s.itemOffset (m.argWord op 0)), some (s.length, m.argWord op 0)⟩
  | _ => none

theorem heap_of_read (ha : read? op m = some a) :
    (op.opcode.isCall || op.opcode.needsDescr) = true := by
  cases ho : op.opcode <;> simp_all [read?, Opcode.isCall, Opcode.needsDescr]

theorem heap_of_write (ha : write? op m = some a) :
    (op.opcode.isCall || op.opcode.needsDescr) = true := by
  cases ho : op.opcode <;> simp_all [write?, Opcode.isCall, Opcode.needsDescr]

theorem heap_of_alloc (ha : alloc? op m = some a) :
    (op.opcode.isCall || op.opcode.needsDescr) = true := by
  cases ho : op.opcode <;> simp_all [alloc?, Opcode.isCall, Opcode.needsDescr]

/-- The ways in which an access to memory, an allocation or a call succeeds. -/
inductive Touched (h : Host ω) (op : Op) (m : Machine ω) : Word → ω → Prop
  | read {a : Read} {w : Word} (ha : read? op m = some a)
      (hload : Loads h a.addr a.size a.signed m.world w) : Touched h op m w m.world
  | write {a : Write} {world : ω} (ha : write? op m = some a)
      (hstore : Stores h a.addr a.size a.word (announced h a.kind a.object m.world) world) :
      Touched h op m 0 world
  | alloc {a : Alloc} {p : Word} {world world' : ω} (ha : alloc? op m = some a)
      (halloc : Allocates h a.size m.world p world)
      (hhead : match a.head with
        | none => world' = world
        | some (d, w) => Stores h (p + Word.ofInt d) 8 w world world') : Touched h op m p world'
  | call {sig : Signature} {w : Word} {world : ω} (ho : op.opcode ∈ [.callI, .callR, .callF, .callN])
      (hs : op.descr.bind Descr.call? = some sig)
      (hcall : h.call (m.argWord op 0) sig ((op.args.drop 1).map m.word) m.world = (.ok w, world)) :
      Touched h op m w world

section

variable {world : ω} (htouch : Touched h op m w world)
include htouch

theorem Touched.read_inv (ha : read? op m = some a) :
    Loads h a.addr a.size a.signed m.world w ∧ world = m.world := by
  cases htouch with
  | read ha' hl =>
    cases ha.symm.trans ha'
    exact ⟨hl, rfl⟩
  | _ => simp_all [read?, write?, alloc?]; grind

theorem Touched.write_inv (ha : write? op m = some a) :
    Stores h a.addr a.size a.word (announced h a.kind a.object m.world) world ∧ w = 0 := by
  cases htouch with
  | write ha' hs =>
    cases ha.symm.trans ha'
    exact ⟨hs, rfl⟩
  | _ => simp_all [read?, write?, alloc?]; grind

theorem Touched.alloc_inv {a : Alloc} (ha : alloc? op m = some a) :
    ∃ world', Allocates h a.size m.world w world' ∧ match a.head with
      | none => world = world'
      | some (d, x) => Stores h (w + Word.ofInt d) 8 x world' world := by
  cases htouch with
  | alloc ha' hal hh =>
    cases ha.symm.trans ha'
    exact ⟨_, hal, hh⟩
  | _ => simp_all [read?, write?, alloc?]; grind

theorem Touched.call_inv (ho : op.opcode ∈ [.callI, .callR, .callF, .callN]) : ∃ sig,
    op.descr.bind Descr.call? = some sig ∧
      h.call (m.argWord op 0) sig ((op.args.drop 1).map m.word) m.world = (.ok w, world) := by
  cases htouch with
  | call _ hs hc => exact ⟨_, hs, hc⟩
  | _ => simp_all [read?, write?, alloc?]; grind

end

theorem run_announced {kind : Kind} {k : Unit → EvalM ω Word}
    (hr : (if kind = .ref then (do barrier h (← arg op 0); k ()) else k ()).run m = (.ok w, m')) :
    (k ()).run { m with world := announced h kind (m.argWord op 0) m.world } = (.ok w, m') := by
  split at hr
  · rename_i hk
    obtain ⟨_, m2, h3, h4⟩ := run_bind_ok (run_arg_bind_ok hr)
    cases run_barrier_ok h3
    rwa [hk]
  · rename_i hk
    rwa [announced, if_neg hk]

theorem runHeap_ok (hru : (runHeap h op).run m = (.ok w, m')) :
    ∃ world, Touched h op m w world ∧ m' = { m with world } := by
  have hr {a : Read} (ha : read? op m = some a)
      (hru : (load h a.addr a.size a.signed).run m = (.ok w, m')) :
      ∃ world, Touched h op m w world ∧ m' = { m with world } := by
    obtain ⟨hl, rfl⟩ := run_load_ok hru
    exact ⟨_, .read ha hl, rfl⟩
  have hw {a : Write} (ha : write? op m = some a)
      (hru : (do store h a.addr a.size a.word; return 0 : EvalM ω Word).run
        { m with world := announced h a.kind a.object m.world } = (.ok w, m')) :
      ∃ world, Touched h op m w world ∧ m' = { m with world } := by
    obtain ⟨_, m1, h1, h2⟩ := run_bind_ok hru
    obtain ⟨world, hst, rfl⟩ := run_store_ok h1
    cases h2
    exact ⟨_, .write ha hst, rfl⟩
  have hal {a : Alloc} {k : Word → EvalM ω Word} (ha : alloc? op m = some a)
      (hk : ∀ p m1, (k p).run m1 = (.ok w, m') → m1.argWord op 0 = m.argWord op 0 →
        w = p ∧ ∃ world', m' = { m1 with world := world' } ∧ match a.head with
          | none => world' = m1.world
          | some (d, x) => Stores h (p + Word.ofInt d) 8 x m1.world world')
      (hru : (malloc h a.size >>= k).run m = (.ok w, m')) :
      ∃ world, Touched h op m w world ∧ m' = { m with world } := by
    obtain ⟨p, m1, hm, hre⟩ := run_bind_ok hru
    obtain ⟨world, hal, rfl⟩ := run_malloc_ok hm
    obtain ⟨rfl, world', rfl, hh⟩ := hk p _ hre rfl
    exact ⟨_, .alloc ha hal hh, rfl⟩
  unfold runHeap at hru
  split at hru
  all_goals
    rename_i ho
  iterate 3
    obtain ⟨s, hs, hru⟩ := run_need_bind_ok hru
    exact hr (a := ⟨_, _, _⟩) (by rw [read?, ho, hs]; rfl) (run_arg_bind_ok hru)
  · obtain ⟨s, hs, hru⟩ := run_need_bind_ok hru
    exact hw (a := ⟨_, _, _, _, _⟩) (by rw [write?, ho, hs]; rfl)
      (run_arg_bind_ok (run_arg_bind_ok (run_announced (k := fun _ => do
        store h ((← arg op 0) + Word.ofInt s.offset) s.size (← arg op 1)
        return 0) hru)))
  iterate 3
    obtain ⟨s, hs, hru⟩ := run_need_bind_ok hru
    exact hr (a := ⟨_, _, _⟩) (by rw [read?, ho, hs]; rfl)
      (run_arg_bind_ok (run_arg_bind_ok hru))
  · obtain ⟨s, hs, hru⟩ := run_need_bind_ok hru
    exact hw (a := ⟨_, _, _, _, _⟩) (by rw [write?, ho, hs]; rfl)
      (run_arg_bind_ok (run_arg_bind_ok (run_arg_bind_ok (run_announced (k := fun _ => do
        store h (itemAddr s (← arg op 0) (← arg op 1)) s.item (← arg op 2)
        return 0) hru))))
  · obtain ⟨s, hs, hru⟩ := run_need_bind_ok hru
    exact hr (a := ⟨_, _, _⟩) (by rw [read?, ho, hs]; rfl) (run_arg_bind_ok hru)
  · obtain ⟨n, hn, hru⟩ := run_need_bind_ok hru
    rw [← bind_pure (malloc h _)] at hru
    refine hal (a := ⟨_, _⟩) (by rw [alloc?, ho, hn]; rfl) (fun p m1 h1 _ => ?_) hru
    cases h1
    exact ⟨rfl, _, rfl, rfl⟩
  · obtain ⟨n, hn, hru⟩ := run_need_bind_ok hru
    refine hal (a := ⟨_, _⟩) (by rw [alloc?, ho, hn]; rfl) (fun p m1 h1 hx => ?_) hru
    obtain ⟨_, m2, h2, h3⟩ := run_bind_ok (run_arg_bind_ok h1)
    obtain ⟨world', hst, rfl⟩ := run_store_ok h2
    cases h3
    rw [hx, ← UInt64.add_zero w] at hst
    exact ⟨rfl, _, rfl, hst⟩
  · obtain ⟨s, hs, hru⟩ := run_need_bind_ok hru
    refine hal (a := ⟨_, _⟩) (by rw [alloc?, ho, hs]; rfl) (fun p m1 h1 _ => ?_) (run_arg_bind_ok hru)
    obtain ⟨_, m2, h2, h3⟩ := run_bind_ok h1
    obtain ⟨world', hst, rfl⟩ := run_store_ok h2
    cases h3
    exact ⟨rfl, _, rfl, hst⟩
  iterate 4
    obtain ⟨sig, hs, hru⟩ := run_need_bind_ok hru
    obtain ⟨_, m1, hwo, hru⟩ := run_bind_ok (run_arg_bind_ok hru)
    cases hwo
    obtain ⟨world, hc, rfl⟩ := run_call_ok hru
    exact ⟨_, .call (by simp [ho]) hs hc, rfl⟩
  · cases hru

/-! ## Operations that stay on the trace -/

/-- The ways in which an operation that stays on the trace succeeds. -/
inductive Ran (h : Host ω) (op : Op) (m : Machine ω) : Word → Machine ω → Prop
  | merge (ho : op.opcode = .debugMergePoint) : Ran h op m 0 m
  | unary (ho : isUnary op.opcode = true) :
      Ran h op m ((unaryResult? op.opcode (m.argWord op 0)).getD 0) m
  | heap {w : Word} {world : ω} (ho : (op.opcode.isCall || op.opcode.needsDescr) = true)
      (htouch : Touched h op m w world) : Ran h op m w { m with world }
  | quotient (ho : op.opcode = .intFloordiv) (hne : m.argWord op 1 ≠ 0) :
      Ran h op m (quotient (m.argWord op 0) (m.argWord op 1)) m
  | remainder (ho : op.opcode = .intMod) (hne : m.argWord op 1 ≠ 0) :
      Ran h op m (remainder (m.argWord op 0) (m.argWord op 1)) m
  | overflow {w : Word} {overflow : Bool}
      (hw : overflowResult? op.opcode (m.argWord op 0) (m.argWord op 1) = some (w, overflow)) :
      Ran h op m w { m with overflow }
  | int {w : Word} (hw : intResult? op.opcode (m.argWord op 0) (m.argWord op 1) = some w) :
      Ran h op m w m
  | float {w : Word} (hw : floatResult? op.opcode (m.argWord op 0) (m.argWord op 1) = some w) :
      Ran h op m w m

theorem runInt_ok (hr : (runInt op).run m = (.ok w, m')) : Ran h op m w m' := by
  unfold runInt at hr
  have hr := run_arg_bind_ok (run_arg_bind_ok hr)
  split at hr
  · rename_i ho
    dsimp only at hr
    split at hr
    · cases hr
    · rename_i hne
      cases hr
      exact .quotient ho hne
  · rename_i ho
    dsimp only at hr
    split at hr
    · cases hr
    · rename_i hne
      cases hr
      rw [if_neg (by simp [ho])]
      exact .remainder ho hne
  · split at hr
    · rename_i hw
      cases hr
      exact .overflow hw
    · split at hr
      · rename_i hw
        cases hr
        exact .int hw
      · cases hr

theorem runFloat_ok (hr : (runFloat op).run m = (.ok w, m')) : Ran h op m w m' := by
  unfold runFloat at hr
  have hr := run_arg_bind_ok (run_arg_bind_ok hr)
  cases hw : floatResult? op.opcode (m.argWord op 0) (m.argWord op 1) with
  | none =>
    rw [hw] at hr
    cases hr
  | some w' =>
    rw [hw] at hr
    cases hr
    exact .float hw

theorem runOp_ok (hr : (runOp h op).run m = (.ok w, m')) : Ran h op m w m' := by
  unfold runOp at hr
  split at hr
  · rename_i ho
    cases hr
    exact .merge ho
  split at hr
  · rename_i ho
    cases run_arg_bind_ok hr
    exact .unary ho
  split at hr
  · rename_i ho
    obtain ⟨world, htouch, rfl⟩ := runHeap_ok hr
    exact .heap ho htouch
  split at hr
  · cases hr
  · split at hr
    · exact runFloat_ok hr
    · exact runInt_ok hr
  · exact runInt_ok hr

/-- What the opcode alone says about the way in which an operation succeeds. -/
inductive Family where
  | merge | unary | heap | division | overflow | int | float

def Family.of (o : Opcode) : Family :=
  if o = .debugMergePoint then .merge
  else if isUnary o then .unary
  else if o.isCall || o.needsDescr then .heap
  else if o = .intFloordiv ∨ o = .intMod then .division
  else if o.isOverflow then .overflow
  else if (intResult? o 0 0).isSome then .int else .float

namespace Family

variable {o : Opcode} {a b : Word}

theorem of_unary (h : isUnary o = true) : of o = .unary := by
  cases o <;> first | rfl | cases h

theorem of_heap (h : (o.isCall || o.needsDescr) = true) : of o = .heap := by
  cases o <;> first | rfl | cases h

theorem of_division (h : o = .intFloordiv ∨ o = .intMod) : of o = .division := by
  rcases h with rfl | rfl <;> rfl

theorem of_overflow (h : (overflowResult? o a b).isSome) : of o = .overflow := by
  cases o <;> first | rfl | cases h

theorem of_isOverflow (h : o.isOverflow = true) : of o = .overflow := by
  cases o <;> first | rfl | cases h

theorem of_int (h : (intResult? o a b).isSome) : of o = .int := by
  cases o <;> first | rfl | cases h

theorem of_float (h : (floatResult? o a b).isSome) : of o = .float := by
  cases o <;> first | rfl | cases h

end Family

/-- What an operation of a family comes to. -/
def Family.Yields (h : Host ω) (op : Op) (m : Machine ω) (w : Word) (m' : Machine ω) : Family → Prop
  | merge => True
  | unary => w = (unaryResult? op.opcode (m.argWord op 0)).getD 0 ∧ m' = m
  | heap => ∃ world, Touched h op m w world ∧ m' = { m with world }
  | division => m.argWord op 1 ≠ 0 ∧
      w = (if op.opcode = .intMod then Eval.remainder (m.argWord op 0) (m.argWord op 1)
        else Eval.quotient (m.argWord op 0) (m.argWord op 1)) ∧ m' = m
  | overflow => ∃ overflow, overflowResult? op.opcode (m.argWord op 0) (m.argWord op 1) =
      some (w, overflow) ∧ m' = { m with overflow }
  | int => intResult? op.opcode (m.argWord op 0) (m.argWord op 1) = some w ∧ m' = m
  | float => floatResult? op.opcode (m.argWord op 0) (m.argWord op 1) = some w ∧ m' = m

section

variable (hran : Ran h op m w m')
include hran

theorem Ran.yields : (Family.of op.opcode).Yields h op m w m' := by
  cases hran with
  | merge ho =>
    rw [ho]
    trivial
  | unary ho =>
    rw [Family.of_unary ho]
    exact ⟨rfl, rfl⟩
  | heap ho htouch =>
    rw [Family.of_heap ho]
    exact ⟨_, htouch, rfl⟩
  | quotient ho hne =>
    rw [Family.of_division (.inl ho)]
    exact ⟨hne, by simp [ho], rfl⟩
  | remainder ho hne =>
    rw [Family.of_division (.inr ho)]
    exact ⟨hne, by simp [ho], rfl⟩
  | overflow hw =>
    rw [Family.of_overflow (Option.isSome_of_eq_some hw)]
    exact ⟨_, hw, rfl⟩
  | int hw =>
    rw [Family.of_int (Option.isSome_of_eq_some hw)]
    exact ⟨hw, rfl⟩
  | float hw =>
    rw [Family.of_float (Option.isSome_of_eq_some hw)]
    exact ⟨hw, rfl⟩

theorem Ran.unary_inv (ho : isUnary op.opcode = true) : Family.unary.Yields h op m w m' :=
  Family.of_unary ho ▸ hran.yields

theorem Ran.heap_inv (ho : (op.opcode.isCall || op.opcode.needsDescr) = true) :
    Family.heap.Yields h op m w m' := Family.of_heap ho ▸ hran.yields

theorem Ran.float_inv (ho : (floatResult? op.opcode 0 0).isSome) : Family.float.Yields h op m w m' :=
  Family.of_float ho ▸ hran.yields

theorem Ran.int_inv (ho : (intResult? op.opcode 0 0).isSome) : Family.int.Yields h op m w m' :=
  Family.of_int ho ▸ hran.yields

theorem Ran.overflow_inv (ho : op.opcode.isOverflow = true) : Family.overflow.Yields h op m w m' :=
  Family.of_isOverflow ho ▸ hran.yields

theorem Ran.division_inv (ho : op.opcode = .intFloordiv ∨ op.opcode = .intMod) :
    Family.division.Yields h op m w m' := Family.of_division ho ▸ hran.yields

end

/-! ## Guards -/

/-- The ways in which a guard is looked at, and whether it holds. -/
inductive Held (h : Host ω) (op : Op) (m : Machine ω) : Bool → Prop
  | nonzero (ho : op.opcode = .guardTrue ∨ op.opcode = .guardNonnull) :
      Held h op m (m.argWord op 0 ≠ 0)
  | zero (ho : op.opcode = .guardFalse ∨ op.opcode = .guardIsnull) : Held h op m (m.argWord op 0 = 0)
  | value (ho : op.opcode = .guardValue) : Held h op m (m.argWord op 0 = m.argWord op 1)
  | header {w : Word} (ho : op.opcode = .guardClass)
      (hload : Loads h (m.argWord op 0) 8 false m.world w) : Held h op m (w = m.argWord op 1)
  | noOverflow (ho : op.opcode = .guardNoOverflow) : Held h op m !m.overflow
  | overflow (ho : op.opcode = .guardOverflow) : Held h op m m.overflow

theorem guardHolds_ok (hg : op.opcode.isGuard = true)
    (hru : (guardHolds h op).run m = (.ok holds, m')) : Held h op m holds ∧ m' = m := by
  unfold guardHolds at hru
  split at hru
  all_goals
    rename_i ho
  · cases run_arg_bind_ok hru
    exact ⟨.nonzero (.inl ho), rfl⟩
  · cases run_arg_bind_ok hru
    exact ⟨.nonzero (.inr ho), rfl⟩
  · cases run_arg_bind_ok hru
    exact ⟨.zero (.inl ho), rfl⟩
  · cases run_arg_bind_ok hru
    exact ⟨.zero (.inr ho), rfl⟩
  · cases run_arg_bind_ok (run_arg_bind_ok hru)
    exact ⟨.value ho, rfl⟩
  · obtain ⟨w, m2, hl, hr⟩ := run_bind_ok (run_arg_bind_ok hru)
    obtain ⟨hl, rfl⟩ := run_load_ok hl
    cases run_arg_bind_ok hr
    exact ⟨.header ho hl, rfl⟩
  · cases hru
    exact ⟨.noOverflow ho, rfl⟩
  · cases hru
    refine ⟨.overflow ?_, rfl⟩
    cases ho : op.opcode <;> simp_all [Opcode.isGuard]

/-! ## Successful runs -/

variable {l : Linked} {id pos : Nat} {r : Control} {args : List Word} {bs : List Box} {p : Point}
  {o : Outcome}

theorem Ran.values_eq (hran : Ran h op m w m') : m'.values = m.values := by
  cases hran <;> rfl

def Machine.record (m : Machine ω) (b : Option Box) (w : Word) : Machine ω :=
  match b with
  | some b => { m with values := m.values.insert b w }
  | none => m

inductive Acts (l : Linked) (h : Host ω) (id pos : Nat) (op : Op) (m : Machine ω) :
    Control → Machine ω → Prop
  | holds (hg : op.opcode.isGuard = true) (hheld : Held h op m true) : Acts l h id pos op m .next m
  | bridged {b : Nat} (hg : op.opcode.isGuard = true) (hheld : Held h op m false)
      (hb : l.bridge? id pos = some b) :
      Acts l h id pos op m (.transfer (some (b, true)) (op.failArgs.map m.word)) m
  | fails {kinds : List Kind} (hg : op.opcode.isGuard = true) (hheld : Held h op m false)
      (hb : l.bridge? id pos = none) (hk : op.exitKinds? = some kinds) :
      Acts l h id pos op m (.leave (op.failArgs.map m.word) kinds) m
  | finish {kinds : List Kind} (ho : op.opcode = .finish) (hk : op.exitKinds? = some kinds) :
      Acts l h id pos op m (.leave (op.args.map m.word) kinds) m
  | jump (ho : op.opcode = .jump) (hd : op.descr = none) :
      Acts l h id pos op m (.transfer none (op.args.map m.word)) m
  | jumpTo {d : Descr} {t : Nat} (ho : op.opcode = .jump) (hd : op.descr = some d)
      (ht : l.target? d = some t) :
      Acts l h id pos op m (.transfer (some (t, false)) (op.args.map m.word)) m
  | ran {w : Word} {m' : Machine ω} (hg : op.opcode.isGuard = false)
      (hfinal : op.opcode.isFinal = false) (hran : Ran h op m w m') :
      Acts l h id pos op m .next (m'.record op.result w)

theorem run_exitKinds_ok (hr : (exitKinds op).run m = (.ok kinds, m')) :
    op.exitKinds? = some kinds ∧ m' = m := run_need_ok hr

theorem control_ok (hru : (control l h id pos op).run m = (.ok r, m')) : Acts l h id pos op m r m' := by
  unfold control at hru
  split at hru
  · rename_i hg
    obtain ⟨holds, m1, h1, h2⟩ := run_bind_ok hru
    obtain ⟨hh, rfl⟩ := guardHolds_ok hg h1
    cases holds with
    | true =>
      cases h2
      exact .holds hg hh
    | false =>
      obtain ⟨vals, m2, h3, h4⟩ := run_bind_ok h2
      cases h3
      cases hb : l.bridge? id pos with
      | some b =>
        rw [hb] at h4
        cases h4
        exact .bridged hg hh hb
      | none =>
        rw [hb] at h4
        obtain ⟨kinds, m3, h5, h6⟩ := run_bind_ok h4
        obtain ⟨hk, rfl⟩ := run_exitKinds_ok h5
        cases h6
        exact .fails hg hh hb hk
  · rename_i hg
    split at hru
    · rename_i ho
      obtain ⟨vals, m1, h1, h2⟩ := run_bind_ok hru
      cases h1
      obtain ⟨kinds, m2, h3, h4⟩ := run_bind_ok h2
      obtain ⟨hk, rfl⟩ := run_exitKinds_ok h3
      cases h4
      exact .finish ho hk
    · rename_i hfi
      split at hru
      · rename_i ho
        obtain ⟨vals, m1, h1, h2⟩ := run_bind_ok hru
        cases h1
        cases hd : op.descr with
        | none =>
          rw [hd] at h2
          cases h2
          exact .jump ho hd
        | some d =>
          rw [hd] at h2
          dsimp only at h2
          cases ht : l.target? d with
          | none =>
            rw [ht] at h2
            cases h2
          | some t =>
            rw [ht] at h2
            cases h2
            exact .jumpTo ho hd ht
      · rename_i hj
        obtain ⟨w, m1, h1, h2⟩ := run_bind_ok hru
        have hf : op.opcode.isFinal = false := by
          cases ho : op.opcode <;> simp_all [Opcode.isFinal]
        have hran := runOp_ok h1
        have heq : r = .next ∧ m' = m1.record op.result w := by
          cases hr : op.result with
          | none =>
            rw [hr] at h2
            cases h2
            exact ⟨rfl, rfl⟩
          | some b =>
            rw [hr] at h2
            cases h2
            exact ⟨rfl, rfl⟩
        obtain ⟨rfl, rfl⟩ := heq
        exact .ran (Bool.eq_false_iff.mpr hg) hf hran

section

variable (hacts : Acts l h id pos op m r m')
include hacts

theorem Acts.stay_inv (hg : op.opcode.isGuard = false) (hf : op.opcode.isFinal = false) :
    ∃ w m1, Ran h op m w m1 ∧ r = .next ∧ m' = m1.record op.result w := by
  cases hacts with
  | holds hg' | bridged hg' | fails hg' =>
    rw [hg] at hg'
    cases hg'
  | finish ho | jump ho | jumpTo ho =>
    rw [ho] at hf
    cases hf
  | ran _ _ hran => exact ⟨_, _, hran, rfl, rfl⟩

theorem Acts.guard_inv (hg : op.opcode.isGuard = true) (hbr : l.bridge? id pos = none) : m' = m ∧
      (Held h op m true ∧ r = .next ∨
        Held h op m false ∧ ∃ kinds, r = .leave (op.failArgs.map m.word) kinds) := by
  cases hacts with
  | holds _ hh => exact ⟨rfl, .inl ⟨hh, rfl⟩⟩
  | bridged _ _ hb =>
    rw [hbr] at hb
    cases hb
  | fails _ hh => exact ⟨rfl, .inr ⟨hh, _, rfl⟩⟩
  | finish ho | jump ho | jumpTo ho =>
    rw [ho] at hg
    cases hg
  | ran hg' =>
    rw [hg] at hg'
    cases hg'

theorem Acts.finish_inv (ho : op.opcode = .finish) :
    m' = m ∧ ∃ kinds, r = .leave (op.args.map m.word) kinds := by
  cases hacts with
  | finish => exact ⟨rfl, _, rfl⟩
  | holds hg | bridged hg | fails hg =>
    rw [ho] at hg
    cases hg
  | jump ho' | jumpTo ho' =>
    rw [ho] at ho'
    cases ho'
  | ran _ hf =>
    rw [ho] at hf
    cases hf

theorem Acts.jump_inv (ho : op.opcode = .jump) :
    m' = m ∧ ∃ dest, r = .transfer dest (op.args.map m.word) ∧ (op.descr = none ∧ dest = none ∨
        ∃ d t, op.descr = some d ∧ l.target? d = some t ∧ dest = some (t, false)) := by
  cases hacts with
  | jump _ hd => exact ⟨rfl, _, rfl, .inl ⟨hd, rfl⟩⟩
  | jumpTo _ hd ht => exact ⟨rfl, _, rfl, .inr ⟨_, _, hd, ht, rfl⟩⟩
  | holds hg | bridged hg | fails hg =>
    rw [ho] at hg
    cases hg
  | finish ho' =>
    rw [ho] at ho'
    cases ho'
  | ran _ hf =>
    rw [ho] at hf
    cases hf

end

/-! ## Inputs -/

theorem foldl_insert_getD (hnd : bs.Nodup) (hl : args.length = bs.length)
    (vals : Std.HashMap Box Word) :
    let after := ((bs.map some).zip args).foldl (fun m (b, w) =>
      match b with
      | some b => m.insert b w
      | none => m) vals
    (∀ (j : Nat) b w, bs[j]? = some b → args[j]? = some w → after.getD b 0 = w) ∧
      ∀ b, b ∉ bs → after.getD b 0 = vals.getD b 0 := by
  induction bs generalizing args vals with
  | nil => exact ⟨by simp, fun _ _ => rfl⟩
  | cons b bs ih =>
    obtain _ | ⟨w, args⟩ := args
    · cases hl
    obtain ⟨hb, hnd⟩ := List.nodup_cons.mp hnd
    obtain ⟨hh, ho⟩ := ih hnd (Nat.succ.inj hl) (vals.insert b w)
    refine ⟨fun j b' w' hj hw => ?_, fun b' hb' => ?_⟩
    · cases j with
      | zero =>
        cases hj
        cases hw
        exact (ho b hb).trans (Std.HashMap.getD_insert_self ..)
      | succ j => exact hh j b' w' hj hw
    · obtain ⟨hne, hb'⟩ := not_or.mp (mt List.mem_cons.mpr hb')
      refine (ho b' hb').trans ?_
      rw [Std.HashMap.getD_insert, if_neg]
      simpa using Ne.symm hne

theorem bindInputs_getD (hnd : bs.Nodup) (hl : args.length = bs.length) {j : Nat}
    (hb : bs[j]? = some b) (hw : args[j]? = some w) : (bindInputs (bs.map some) args).getD b 0 = w :=
  (foldl_insert_getD hnd hl ∅).1 j b w hb hw

/-! ## Steps of a run -/

def Continues (l : Linked) (h : Host ω) (max left : Nat) (p : Point) (op : Op)
    (rest : List (Option Op)) (o : Outcome) (m m' : Machine ω) : Control → Prop
  | .next => go l h max left { p with pos := p.pos + 1, rest } m = (.ok o, m')
  | .leave values kinds => o = ⟨p.id, p.pos, op.opcode, values, kinds, max - left⟩ ∧ m' = m
  | .transfer dest args => ∃ p' m1, follow l p dest args m = (.ok p', m1) ∧
      go l h max left p' m1 = (.ok o, m')

theorem go_succ_ok {max left : Nat} (hp : p.rest = some op :: rest)
    (hgo : go l h max (left + 1) p m = (.ok o, m')) :
    ∃ r m1, Acts l h p.id p.pos op m r m1 ∧ Continues l h max left p op rest o m1 m' r := by
  unfold go at hgo
  rw [hp] at hgo
  dsimp only at hgo
  rcases hr : (control l h p.id p.pos op).run m with ⟨e | r, m1⟩
  · rw [hr] at hgo
    cases hgo
  · rw [hr] at hgo
    refine ⟨r, m1, control_ok hr, ?_⟩
    cases r with
    | next => exact hgo
    | leave values kinds =>
      cases hgo
      exact ⟨rfl, rfl⟩
    | transfer dest args =>
      dsimp only at hgo
      rcases hf : follow l p dest args m1 with ⟨e | p', m2⟩
      · rw [hf] at hgo
        cases hgo
      · rw [hf] at hgo
        exact ⟨p', m2, hf, hgo⟩

theorem enter_ok (hr : enter l id loop inBridge args m = (.ok p, m')) :
    ∃ t, l.traces[id]? = some t ∧ args.length = t.inputs.length ∧
      p = { id, trace := t, rest := t.ops, loop, inBridge } ∧
      m' = { m with values := bindInputs t.inputs args } := by
  unfold enter at hr
  split at hr
  · cases hr
  · rename_i t ht
    split at hr
    · cases hr
    · rename_i hl
      cases hr
      exact ⟨t, ht, Decidable.not_not.mp hl, rfl, rfl⟩

theorem run_ok (hr : run l h maxSteps id args world = (.ok o, world')) :
    ∃ max t m', l.traces[id]? = some t ∧ args.length = t.inputs.length ∧
      go l h max max { id, trace := t, rest := t.ops, loop := id, inBridge := false }
        ⟨bindInputs t.inputs args, false, world⟩ = (.ok o, m') := by
  unfold run at hr
  cases he : enter l id id false args ⟨∅, false, world⟩ with
  | mk x m =>
    rw [he] at hr
    cases x with
    | error e => cases hr
    | ok p =>
      obtain ⟨t, ht, hl, rfl, rfl⟩ := enter_ok he
      have hgo := congrArg Prod.fst hr
      exact ⟨if maxSteps ≤ 0 then defaultMaxSteps else maxSteps.toNat, t, _, ht, hl, Prod.ext hgo rfl⟩

end TraceCompiler.Eval
