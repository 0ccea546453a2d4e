import Mathlib.Order.Bounds.Defs
import TraceCompiler.Proofs.Trace.WellFormed

/-! # Lifetimes of the boxes of a trace

One pass over the operations finds where every box is made and where it is read last.
-/

namespace TraceCompiler

open List

def Trace.Makes (t : Trace) (b : Box) (i : Int) : Prop :=
  i = -1 ∧ some b ∈ t.inputs ∨
    ∃ (j : Nat) (op : Op), i = j ∧ t.ops[j]? = some (some op) ∧ op.result = some b

/-- An operation with a box among its arguments or fail values. -/
def Trace.Reads (t : Trace) (b : Box) (i : Int) : Prop :=
  ∃ (j : Nat) (op : Op), i = j ∧ t.ops[j]? = some (some op) ∧ some (.box b) ∈ op.args ++ op.failArgs

namespace Lifetimes

theorem missingInput_foldl_addUse (pos : Int) (bs : List Box) (l : Lifetimes) :
    (bs.foldl (addUse pos) l).missingInput = l.missingInput := by
  induction bs generalizing l with
  | nil => rfl
  | cons b bs ih =>
    rw [foldl_cons, ih, addUse]
    split <;> rfl

/-- The lifetimes tell for every box that was made where that was and where it was read last. -/
structure Tells (made read : Box → Int → Prop) (l : Lifetimes) : Prop where
  inputs : l.missingInput = false
  entry : ∀ b i, made b i → (l.get? b).isSome
  span : ∀ b s, l.get? b = some s → made b s.first ∧
    (IsGreatest {i | read b i} s.last ∨ (∀ i, ¬ read b i) ∧ s.last = s.first)

variable {made read : Box → Int → Prop} {l : Lifetimes} {pos : Int} {op : Op} {t : Trace}

/-- **One operation**: it reads boxes that were made, and makes one that was not. -/
theorem Tells.addOp (h : Tells made read l) (hm : ∀ b i, made b i → i < pos)
    (hr : ∀ b i, read b i → i < pos ∧ ∃ j, made b j) (hu : ∀ b ∈ op.reads, ∃ i, made b i)
    (hn : ∀ b i, op.result = some b → ¬ made b i) :
    Tells (fun b i => made b i ∨ i = pos ∧ op.result = some b)
      (fun b i => read b i ∨ i = pos ∧ b ∈ op.reads) (l.addOp pos op) where
  inputs := by
    have hu := (missingInput_foldl_addUse pos op.reads l).trans h.inputs
    unfold Lifetimes.addOp
    cases op.result <;> exact hu
  entry b i hb := by
    have := h.entry b i
    grind [get?_addOp]
  span b s hs := by
    rw [get?_addOp] at hs
    split at hs
    · -- Nothing has read the result yet.
      cases hs
      exact ⟨.inr ⟨rfl, ‹_›⟩, .inr ⟨by grind, rfl⟩⟩
    · split at hs
      · obtain ⟨i, hi⟩ := hu b ‹_›
        obtain ⟨s', hs'⟩ := Option.isSome_iff_exists.mp (h.entry b i hi)
        obtain ⟨hf, hl⟩ := h.span b s' hs'
        have hla : s'.last < pos := hl.elim (fun hl => (hr b _ hl.1).1) fun hl => hl.2 ▸ hm b _ hf
        rw [hs'] at hs
        cases hs
        refine ⟨.inl hf, .inl ⟨.inr ⟨max_eq_right hla.le, ‹_›⟩, ?_⟩⟩
        rintro i (hi | ⟨rfl, -⟩)
        · exact ((hr b i hi).1.le).trans (le_max_right ..)
        · exact le_max_right ..
      · obtain ⟨hf, hl⟩ := h.span b s hs
        refine ⟨.inl hf, ?_⟩
        simp_all

theorem addOps_append (l : Lifetimes) (pos : Int) (ops : List Op) (op : Op) :
    l.addOps pos (ops ++ [op]) = (l.addOps pos ops).addOp (pos + ops.length) op := by
  induction ops generalizing l pos with
  | nil => simp [addOps]
  | cons o ops ih => simp [addOps, ih, Int.add_assoc, Int.add_comm 1]

theorem foldl_addInput (bs : List Box) (l : Lifetimes) :
    ((bs.map some).foldl addInput l).missingInput = l.missingInput ∧ ∀ b,
      ((bs.map some).foldl addInput l).get? b = if b ∈ bs then some ⟨-1, -1⟩ else l.get? b := by
  induction bs generalizing l with
  | nil => simp
  | cons b' bs ih =>
    obtain ⟨hm, hg⟩ := ih (l.addInput (some b'))
    refine ⟨hm, fun b => (hg b).trans ?_⟩
    have hp : (l.addInput (some b')).get? b = _ := get?_put ..
    rw [hp]
    grind

end Lifetimes

namespace Trace.WellFormed

variable {t : Trace} {b : Box} {i j : Int}

theorem makes_unique (h : t.WellFormed) (hi : t.Makes b i) (hj : t.Makes b j) : i = j := by
  have := h.single
  have hf {k : Nat} {op : Op} (ho : t.ops[k]? = some (some op)) := h.fresh op (mem_of_getElem? ho)
  grind [Trace.Makes]

theorem makes_of_reads (h : t.WellFormed) (hr : t.Reads b i) : ∃ j < i, t.Makes b j := by
  obtain ⟨n, op, rfl, ho, hb⟩ := hr
  obtain ⟨_, hx, hd⟩ := h.uses n op ho _ hb
  cases hx
  rcases hd b rfl with hin | ⟨j, o, hj, hm⟩
  · exact ⟨-1, by omega, .inl ⟨rfl, hin⟩⟩
  · exact ⟨j, by omega, .inr ⟨j, o, rfl, hm⟩⟩

/-- **The first so many operations** make and read what their lifetimes tell. -/
theorem tells (h : t.WellFormed) {inputs : List Box} {ops : List Op} (hi : t.inputs = inputs.map some)
    (ho : t.ops = ops.map some) {n : Nat} (hn : n ≤ ops.length) :
    (Lifetimes.ofOps t.inputs (ops.take n)).Tells (fun b i => t.Makes b i ∧ i < n)
      (fun b i => t.Reads b i ∧ i < n) := by
  induction n with
  | zero =>
    have hg (b : Box) : (Lifetimes.ofOps t.inputs (ops.take 0)).get? b =
        if some b ∈ t.inputs then some ⟨-1, -1⟩ else none := by
      rw [hi]
      exact ((Lifetimes.foldl_addInput inputs {}).2 b).trans (by simp; rfl)
    constructor
    · rw [hi]
      exact (Lifetimes.foldl_addInput inputs {}).1
    · rintro b i ⟨⟨rfl, hb⟩ | ⟨j, _, rfl, _⟩, hlt⟩
      · rw [hg, if_pos hb]
        rfl
      · omega
    · grind [Trace.Makes, Trace.Reads]
  | succ n ih =>
    obtain ⟨op, hop⟩ : ∃ op, ops[n]? = some op := ⟨_, getElem?_eq_getElem hn⟩
    have hat : t.ops[n]? = some (some op) := by simp [ho, hop]
    have hm : (fun b i => t.Makes b i ∧ i < ↑(n + 1)) =
        fun b i => (t.Makes b i ∧ i < n) ∨ i = n ∧ op.result = some b := by
      funext b i
      grind [Trace.Makes]
    have hr : (fun b i => t.Reads b i ∧ i < ↑(n + 1)) =
        fun b i => (t.Reads b i ∧ i < n) ∨ i = n ∧ b ∈ op.reads := by
      funext b i
      grind [Trace.Reads, Op.mem_reads]
    have hl : Lifetimes.ofOps t.inputs (ops.take (n + 1)) =
        (Lifetimes.ofOps t.inputs (ops.take n)).addOp n op := by
      rw [take_add_one, hop]
      refine (Lifetimes.addOps_append ..).trans ?_
      rw [length_take, min_eq_left (by omega), Int.zero_add]
      rfl
    rw [hm, hr, hl]
    refine (ih (by omega)).addOp (fun b i hb => hb.2) (fun b i hb => ⟨hb.2, ?_⟩) (fun b hb => ?_) ?_
    · obtain ⟨j, hj, hm⟩ := h.makes_of_reads hb.1
      exact ⟨j, hm, hj.trans hb.2⟩
    · obtain ⟨j, hj, hm⟩ := h.makes_of_reads ⟨n, op, rfl, hat, by simpa [Op.mem_reads] using hb⟩
      exact ⟨j, hm, hj⟩
    · rintro b i hb ⟨hm, hi⟩
      exact hi.ne (h.makes_unique hm (.inr ⟨n, op, rfl, hat, hb⟩))

end Trace.WellFormed

namespace Lifetimes

theorem exists_tells (h : t.validate = .ok ()) :
    t.WellFormed ∧ ∃ l, ofTrace? t = some l ∧ l.Tells t.Makes t.Reads := by
  obtain ⟨inputs, ops, hi, ho, hnd, hk, hne, hc⟩ := Trace.validate_ok h
  have hw : t.WellFormed := by
    cases t
    cases hi
    cases ho
    exact Trace.wellFormed_of hnd hk hne (checks_iff.mp hc)
  refine ⟨hw, ofOps t.inputs ops, by rw [ofTrace?, ho, mapM_id_map_some]; rfl, ?_⟩
  have hte := hw.tells hi ho le_rfl
  have hm : (fun b i => t.Makes b i ∧ i < ops.length) = t.Makes := by
    funext b i
    grind [Trace.Makes]
  have hr : (fun b i => t.Reads b i ∧ i < ops.length) = t.Reads := by
    funext b i
    grind [Trace.Reads]
  rwa [hm, hr, take_length] at hte

theorem get?_foldl_addTemp (ts : List (Box × Int)) (l : Lifetimes) (hb : ∀ e ∈ ts, e.1 ≠ b) :
    (ts.foldl (fun l e => l.addTemp e.1 e.2) l).get? b = l.get? b := by
  induction ts generalizing l with
  | nil => rfl
  | cons e ts ih =>
    obtain ⟨he, hb⟩ := forall_mem_cons.mp hb
    rw [foldl_cons, ih _ hb]
    exact (get?_put ..).trans (if_neg he.symm)

/-- **The lifetimes of a valid trace**: a box that is made has one, whose start is where it is made and
whose end is the last read, if there is any. Temporaries that are other boxes change nothing of this. -/
theorem ofTrace_exact (t : Trace) (h : t.validate = .ok ()) :
    ∃ l, ofTrace? t = some l ∧ l.missingInput = false ∧
      (∀ b, (l.get? b).isSome ↔ ∃ i, t.Makes b i) ∧
      ∀ temps : List (Box × Int), (∀ e ∈ temps, ∀ i, ¬ t.Makes e.1 i) → ∀ b i, t.Makes b i →
        ∃ s, (temps.foldl (fun l e => l.addTemp e.1 e.2) l).get? b = some s ∧ s.first = i ∧
          (IsGreatest {j | t.Reads b j} s.last ∨ (∀ j, ¬ t.Reads b j) ∧ s.last = i) ∧
          s.first ≤ s.last ∧ ∀ p, i ≤ p →
            ((temps.foldl (fun l e => l.addTemp e.1 e.2) l).liveAfter b p = true ↔
              ∃ j, p < j ∧ t.Reads b j) := by
  obtain ⟨hw, l, hl, hte⟩ := exists_tells h
  refine ⟨l, hl, hte.inputs, fun b => ⟨fun hb => ?_, fun hb => hb.elim (hte.entry b)⟩, ?_⟩
  · obtain ⟨s, hs⟩ := Option.isSome_iff_exists.mp hb
    exact ⟨_, (hte.span b s hs).1⟩
  · intro temps hd b i hb
    have hg := get?_foldl_addTemp temps l fun e he hbe => hd e he i (hbe ▸ hb)
    obtain ⟨s, hs⟩ := Option.isSome_iff_exists.mp (hte.entry b i hb)
    obtain ⟨hf, hla⟩ := hte.span b s hs
    obtain rfl := hw.makes_unique hf hb
    have hlt (j : Int) (hj : t.Reads b j) : s.first < j := by
      obtain ⟨k, hk, hm⟩ := hw.makes_of_reads hj
      rwa [hw.makes_unique hf hm]
    refine ⟨s, hg.trans hs, rfl, hla, ?_, fun p hp => ?_⟩
    · exact hla.elim (fun hg => (hlt _ hg.1).le) fun hg => hg.2.ge
    · rw [liveAfter, lastUse, hg, hs]
      simp only [Option.map_some, Option.getD_some, decide_eq_true_eq]
      constructor
      · intro hlt
        refine ⟨s.last, hlt, hla.elim (·.1) fun hno => ?_⟩
        omega
      · rintro ⟨j, hpj, hj⟩
        exact hpj.trans_le (hla.elim (·.2 hj) fun hno => absurd hj (hno.1 j))

def sum : Trace := ⟨"sum", [some ⟨1, .int⟩], [
  some ⟨.intAdd, [some (.box ⟨1, .int⟩), some (.box ⟨1, .int⟩)], some ⟨2, .int⟩, none, []⟩,
  some ⟨.finish, [some (.box ⟨2, .int⟩)], none, none, []⟩]⟩

theorem ofTrace_exact_sum : sum.validate = .ok () ∧ ∃ l s, ofTrace? sum = some l ∧
    (l.addTemp ⟨3, .int⟩ 0).get? ⟨2, .int⟩ = some s ∧ s.first = 0 ∧ s.first ≤ s.last := by
  have hv : sum.validate = .ok () := by decide
  obtain ⟨l, hl, -, -, h⟩ := ofTrace_exact sum hv
  obtain ⟨s, hs, hf, -, hle, -⟩ := h [(⟨3, .int⟩, 0)] (by simp [Trace.Makes, sum]; grind) ⟨2, .int⟩ 0
    (.inr ⟨0, _, rfl, rfl, rfl⟩)
  exact ⟨hv, l, s, hl, hs, hf, hle⟩

end Lifetimes

end TraceCompiler
