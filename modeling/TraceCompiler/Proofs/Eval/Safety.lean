import TraceCompiler.Proofs.Eval.Progress
import TraceCompiler.Proofs.Machine.Execution

/-! # Runs of well-formed traces

Linked traces are consistent (`Linked.Consistent`) when they are well formed and every way from one to
another passes as many values as the other has inputs.
-/

namespace TraceCompiler.Eval

open List

variable {ω : Type} {l : Linked} {h : Host ω} {op : Op} {p : Point} {m m' : Machine ω}
  {start n id pos : Nat} {args : List Word} {bs : List Box} {b : Box}

/-! ## Linked traces -/

def Linked.InPlay (l : Linked) (start n : Nat) : Prop :=
  n = start ∨ (∃ d, l.target? d = some n) ∨ ∃ id pos, l.bridge? id pos = some n

/-- The traces in play are well formed and fit together. -/
structure Linked.Consistent (l : Linked) (start : Nat) : Prop where
  valid : ∀ n, l.InPlay start n → ∃ t, l.traces[n]? = some t ∧ t.validate = .ok ()
  /-- A jump without a descriptor goes back to the start of its own trace, which is no bridge. -/
  own : ∀ n t op, l.InPlay start n → l.traces[n]? = some t → some op ∈ t.ops → op.opcode = .jump →
    op.descr = none → (∀ id pos, l.bridge? id pos ≠ some n) ∧ op.args.length = t.inputs.length
  jump : ∀ n t op d, l.InPlay start n → l.traces[n]? = some t → some op ∈ t.ops →
    op.opcode = .jump → op.descr = some d →
      ∃ k t', l.target? d = some k ∧ l.traces[k]? = some t' ∧ op.args.length = t'.inputs.length
  bridge : ∀ n t pos op k, l.InPlay start n → l.traces[n]? = some t →
    t.ops[pos]? = some (some op) → op.opcode.isGuard = true → l.bridge? n pos = some k →
      ∃ t', l.traces[k]? = some t' ∧ op.failArgs.length = t'.inputs.length

/-! ## Where a run stands -/

/-- A run stands in a well-formed trace, and every box that is defined there has a value. -/
structure Standing (l : Linked) (start : Nat) (p : Point) (m : Machine ω) : Prop where
  inPlay : l.InPlay start p.id
  trace : l.traces[p.id]? = some p.trace
  rest : p.rest = p.trace.ops.drop p.pos
  checks : ∃ (ks : List Box) (prev : Option Op) (ops : List Op), p.rest = ops.map some ∧ ops ≠ [] ∧
    Checks ks prev ops ∧ ∀ b ∈ ks, b ∈ m.values
  loop : p.inBridge = false → p.loop = p.id
  bridge : p.inBridge = true → ∃ id pos, l.bridge? id pos = some p.id

theorem mem_foldl_insert (hl : args.length = bs.length) {vals : Std.HashMap Box Word}
    (hb : b ∈ bs ∨ b ∈ vals) : b ∈ ((bs.map some).zip args).foldl (fun m (b, w) => match b with
      | some b => m.insert b w
      | none => m) vals := by
  induction bs generalizing args vals with
  | nil => exact hb.resolve_left not_mem_nil
  | cons x bs ih =>
    obtain _ | ⟨w, args⟩ := args
    · cases hl
    · refine ih (Nat.succ.inj hl) ?_
      rw [Std.HashMap.mem_insert, beq_iff_eq]
      rcases hb with hb | hb
      · exact (mem_cons.mp hb).elim (fun h => .inr (.inl h.symm)) .inl
      · exact .inr (.inr hb)

theorem mem_bindInputs (hl : args.length = bs.length) (hb : b ∈ bs) :
    b ∈ bindInputs (bs.map some) args := mem_foldl_insert hl (.inl hb)

theorem Linked.Consistent.enter (hl : l.Consistent start) (hn : l.InPlay start n)
    (ht : l.traces[n]? = some t) (hle : args.length = t.inputs.length)
    (hlo : inBridge = false → loop = n) (hbr : inBridge = true → ∃ id pos, l.bridge? id pos = some n) :
    ∃ p m', Eval.enter l n loop inBridge args m = (.ok p, m') ∧ Standing l start p m' := by
  obtain ⟨t', ht', hv⟩ := hl.valid n hn
  cases ht.symm.trans ht'
  obtain ⟨bs, ops, hbs, ho, -, -, hne, hc⟩ := Trace.validate_ok hv
  refine ⟨{ id := n, trace := t, rest := t.ops, loop, inBridge },
    { m with values := bindInputs t.inputs args }, ?_, ?_⟩
  · unfold Eval.enter
    rw [ht]
    exact if_neg (not_not.mpr hle)
  · refine ⟨hn, ht, rfl, ⟨bs.reverse, none, ops, ho, hne, hc, fun b hb => ?_⟩, hlo, hbr⟩
    rw [hbs, length_map] at hle
    rw [hbs]
    exact mem_bindInputs hle (mem_reverse.mp hb)

namespace Standing

variable {rest : List (Option Op)}

section

variable (hp : Standing l start p m)
include hp

theorem exists_next : ∃ op rest, p.rest = some op :: rest := by
  obtain ⟨ks, prev, ops, hr, hne, -⟩ := hp.checks
  obtain ⟨op, ops, rfl⟩ := exists_cons_of_ne_nil hne
  exact ⟨op, ops.map some, hr⟩

theorem checked (hr : p.rest = some op :: rest) :
    ∃ (ks : List Box) (prev : Option Op) (ops : List Op), rest = ops.map some ∧
      op.Checked ks prev ops.head? ∧ Checks (op.result.toList ++ ks) (some op) ops ∧
        ∀ b ∈ ks, b ∈ m.values := by
  obtain ⟨ks, prev, ops, hma, -, hch, hv⟩ := hp.checks
  rw [hr] at hma
  obtain ⟨op', ops', rfl, hop, ho⟩ := map_eq_cons_iff.mp hma.symm
  cases hop
  cases hch with
  | cons hc hm => exact ⟨ks, prev, ops', ho.symm, hc, hm, hv⟩

theorem getElem?_pos (hr : p.rest = some op :: rest) : p.trace.ops[p.pos]? = some (some op) := by
  rw [← head?_drop, ← hp.rest, hr]
  rfl

theorem next (hre : p.rest = some op :: rest) (ha : Acts l h p.id p.pos op m .next m') :
    Standing l start { p with pos := p.pos + 1, rest } m' := by
  obtain ⟨ks, prev, ops, rfl, hop, hos, hv⟩ := hp.checked hre
  have hf : op.opcode.isFinal = false := by
    cases ha with
    | holds hg => cases ho : op.opcode <;> simp_all [Opcode.isGuard, Opcode.isFinal]
    | ran _ hf => exact hf
  have hd : ∀ b ∈ op.result.toList ++ ks, b ∈ m'.values := by
    intro b hb
    cases ha with
    | holds hg =>
      refine (mem_append.mp hb).elim (fun hb => ?_) (hv b)
      have hvo := (hop.result b (Option.mem_toList.mp hb)).2.2
      cases ho : op.opcode <;> simp_all [Opcode.isGuard, Opcode.resultKind]
    | @ran w m1 _ _ hra =>
      have hold (hb : b ∈ ks) : b ∈ m1.values := hra.values_eq ▸ hv b hb
      cases hr : op.result with
      | none =>
        rw [hr] at hb
        exact hold hb
      | some r =>
        rw [hr] at hb
        refine Std.HashMap.mem_insert.mpr ?_
        rcases mem_cons.mp hb with rfl | hb
        · exact .inl (beq_self_eq_true b)
        · exact .inr (hold hb)
  refine ⟨hp.inPlay, hp.trace, ?_, ⟨_, _, ops, rfl, ?_, hos, hd⟩, hp.loop, hp.bridge⟩
  · rw [← tail_drop, ← hp.rest, hre]
    rfl
  · rintro rfl
    rw [hop.final.mpr rfl] at hf
    cases hf

end

/-- **A transfer is followed**: it comes with as many words as its destination has inputs. -/
theorem transfer (hl : l.Consistent start) (hp : Standing l start p m)
    (hr : p.rest = some op :: rest) (ha : Acts l h p.id p.pos op m (.transfer dest args) m') :
    ∃ p' m'', follow l p dest args m' = (.ok p', m'') ∧ Standing l start p' m'' := by
  have hat := hp.getElem?_pos hr
  have hm := mem_of_getElem? hat
  cases ha with
  | bridged hg _ hb =>
    obtain ⟨t, ht, hle⟩ := hl.bridge _ _ _ _ _ hp.inPlay hp.trace hat hg hb
    exact hl.enter (.inr (.inr ⟨_, _, hb⟩)) ht (by rwa [length_map]) nofun fun _ => ⟨_, _, hb⟩
  | jump ho hd =>
    obtain ⟨hno, hle⟩ := hl.own _ _ _ hp.inPlay hp.trace hm ho hd
    have hlo : p.inBridge = false := by
      by_contra hin
      obtain ⟨id, pos, hb⟩ := hp.bridge (by simpa using hin)
      exact hno id pos hb
    unfold follow
    dsimp only
    rw [if_neg (by simp [hlo]), hp.loop hlo]
    exact hl.enter hp.inPlay hp.trace (by rwa [length_map]) (fun _ => rfl) nofun
  | jumpTo ho hd ht =>
    obtain ⟨k, t, hk, htr, hle⟩ := hl.jump _ _ _ _ hp.inPlay hp.trace hm ho hd
    cases ht.symm.trans hk
    exact hl.enter (.inr (.inl ⟨_, ht⟩)) htr (by rwa [length_map]) (fun _ => rfl) nofun

end Standing

/-! ## What a run comes to -/

/-- The points that a run comes to, with the machine there and the number of steps that are left. -/
inductive Reached (l : Linked) (h : Host ω) (max start : Nat) (args : List Word) (world : ω) :
    Nat → Point → Machine ω → Prop
  | start {p : Point} {m : Machine ω}
      (henter : enter l start start false args ⟨∅, false, world⟩ = (.ok p, m)) :
      Reached l h max start args world max p m
  | next {left : Nat} {p : Point} {m m' : Machine ω} {op : Op} {rest : List (Option Op)}
      (hp : Reached l h max start args world (left + 1) p m) (hrest : p.rest = some op :: rest)
      (hrun : (control l h p.id p.pos op).run m = (.ok .next, m')) :
      Reached l h max start args world left { p with pos := p.pos + 1, rest } m'
  | transfer {left : Nat} {p p' : Point} {m m' m'' : Machine ω} {op : Op} {rest : List (Option Op)}
      {dest : Option (Nat × Bool)} {words : List Word}
      (hp : Reached l h max start args world (left + 1) p m) (hrest : p.rest = some op :: rest)
      (hrun : (control l h p.id p.pos op).run m = (.ok (.transfer dest words), m'))
      (hfollow : follow l p dest words m' = (.ok p', m'')) :
      Reached l h max start args world left p' m''

section

variable {max left : Nat} {world : ω} {t : Trace} {rest : List (Option Op)}

/-- **All the time a run stands in a well-formed trace with a value for every defined box.** -/
theorem Reached.standing (hl : l.Consistent start) (ht : l.traces[start]? = some t)
    (hle : args.length = t.inputs.length) (hp : Reached l h max start args world left p m) :
    Standing l start p m := by
  induction hp with
  | start he =>
    obtain ⟨p', m', he', hp⟩ := hl.enter (m := ⟨∅, false, world⟩) (.inl rfl) ht hle
      (fun _ => rfl) (nofun : false = true → _)
    cases he.symm.trans he'
    exact hp
  | next _ hr hru ih => exact ih.next hr (control_ok hru)
  | transfer _ hr hru hf ih =>
    obtain ⟨p', m', hf', hp⟩ := ih.transfer hl hr (control_ok hru)
    cases hf.symm.trans hf'
    exact hp

theorem exitKinds?_eq {vals : List Value} (hv : op.exitValues = vals.map some) :
    op.exitKinds? = some (vals.map Value.kind) := by
  unfold Op.exitKinds?
  rw [hv]
  clear hv
  induction vals with
  | nil => rfl
  | cons v vals ih =>
    rw [map_cons, mapM_cons, ih]
    rfl

/-- **Where a run stands it does not get stuck.** -/
theorem Standing.computes (hl : l.Consistent start) (hp : Standing l start p m)
    (hr : p.rest = some op :: rest) (hs : Serves h op m) : Computes (control l h p.id p.pos op) op m := by
  obtain ⟨ks, prev, ops, -, hop, -, -⟩ := hp.checked hr
  obtain ⟨vals, hv, ht, -⟩ := hop.typed
  obtain ⟨fails, hfa⟩ := hop.fails
  have hm := mem_of_getElem? (hp.getElem?_pos hr)
  unfold Computes control
  by_cases hg : op.opcode.isGuard = true
  · rw [if_pos hg]
    obtain ⟨holds, hru⟩ := guardHolds_progress hv ht hg hs
    rw [run_seq hru]
    cases holds with
    | true => exact .inl ⟨_, _, rfl⟩
    | false =>
      have hki : op.exitKinds? = some (fails.map Value.kind) := by
        refine exitKinds?_eq ?_
        rw [Op.exitValues, if_neg (by intro ho; rw [ho] at hg; cases hg), hfa]
      rw [if_neg Bool.false_ne_true, run_seq (run_words _)]
      cases l.bridge? p.id p.pos with
      | some k => exact .inl ⟨_, _, rfl⟩
      | none => exact .inl ⟨_, _, run_seq (run_need hki)⟩
  rw [if_neg hg]
  by_cases hf : op.opcode = .finish
  · have hki : op.exitKinds? = some (vals.map Value.kind) := by
      refine exitKinds?_eq ?_
      rw [Op.exitValues, if_pos hf, hv]
    rw [if_pos hf, run_seq (run_words _)]
    exact .inl ⟨_, _, run_seq (run_need hki)⟩
  rw [if_neg hf]
  by_cases hj : op.opcode = .jump
  · rw [if_pos hj, run_seq (run_words _)]
    cases hd : op.descr with
    | none => exact .inl ⟨_, _, rfl⟩
    | some d =>
      obtain ⟨k, t', hk, -⟩ := hl.jump _ _ _ _ hp.inPlay hp.trace hm hj hd
      dsimp only
      rw [hk]
      exact .inl ⟨_, _, rfl⟩
  rw [if_neg hj]
  have hfi : op.opcode.isFinal = false := by
    cases ho : op.opcode <;> simp_all [Opcode.isFinal]
  rcases runOp_progress hv ht hop.valid (Bool.eq_false_iff.mpr hg) hfi hs with
    ⟨w, m', hru⟩ | ⟨hz, m', hru⟩
  · rw [run_seq hru]
    cases op.result with
    | none => exact .inl ⟨_, _, rfl⟩
    | some b => exact .inl ⟨_, _, rfl⟩
  · exact .inr ⟨hz, m', run_bind_of_error hru⟩

theorem map_of_mapM {α β : Type} {f : α → Option β} {xs : List α} {ys : List β}
    (hm : xs.mapM f = some ys) : xs.map f = ys.map some := by
  induction xs generalizing ys with
  | nil =>
    cases hm
    rfl
  | cons x xs ih =>
    rw [mapM_cons] at hm
    obtain ⟨y, hy, hm⟩ := Option.bind_eq_some_iff.mp hm
    obtain ⟨ys', hys, hm⟩ := Option.bind_eq_some_iff.mp hm
    cases hm
    rw [map_cons, map_cons, ih hys, hy]

def Outcome.Fits (l : Linked) (o : Outcome) : Prop :=
  ∃ t op, l.traces[o.trace]? = some t ∧ t.ops[o.pos]? = some (some op) ∧ o.opcode = op.opcode ∧
    op.opcode.exitsTrace = true ∧ o.values.length = op.exitValues.length ∧
      o.kinds.length = op.exitValues.length

inductive Ends (l : Linked) : Except (Abort RunError) Outcome → Prop
  | outcome {o : Outcome} (hfits : o.Fits l) : Ends l (.ok o)
  | division {trace : String} {pos : Nat} {o : Opcode} :
      Ends l (.error (.error (.op trace pos o .divisionByZero)))
  | stepLimit : Ends l (.error (.error .stepLimit))

theorem Acts.leave_inv (ha : Acts l h id pos op m (.leave values kinds) m') : op.opcode.exitsTrace = true ∧
      values.length = op.exitValues.length ∧ op.exitKinds? = some kinds := by
  cases ha with
  | fails hg _ _ hk =>
    refine ⟨by simp [Opcode.exitsTrace, hg], ?_, hk⟩
    rw [length_map, Op.exitValues, if_neg]
    rintro ho
    rw [ho] at hg
    cases hg
  | finish ho hk =>
    refine ⟨by simp [Opcode.exitsTrace, ho], ?_, hk⟩
    rw [length_map, Op.exitValues, if_pos ho]

theorem Reached.ends (hl : l.Consistent start) (ht : l.traces[start]? = some t)
    (hle : args.length = t.inputs.length)
    (hse : ∀ left p m op rest, Reached l h max start args world (left + 1) p m →
      p.rest = some op :: rest → Serves h op m)
    (hp : Reached l h max start args world left p m) : Ends l (go l h max left p m).1 := by
  induction left generalizing p m with
  | zero =>
    obtain ⟨op, rest, hr⟩ := (hp.standing hl ht hle).exists_next
    unfold go
    rw [hr]
    exact .stepLimit
  | succ left ih =>
    have hs := hp.standing hl ht hle
    obtain ⟨op, rest, hr⟩ := hs.exists_next
    rcases hs.computes hl hr (hse _ _ _ _ _ hp hr) with ⟨r, m', hru⟩ | ⟨-, m', hru⟩
    · have ha := control_ok hru
      cases r with
      | next =>
        rw [go_next hr hru]
        exact ih (hp.next hr hru)
      | leave values kinds =>
        obtain ⟨he, hv, hk⟩ := ha.leave_inv
        rw [go_leave hr hru]
        exact .outcome ⟨p.trace, op, hs.trace, hs.getElem?_pos hr, rfl, he, hv,
          by simpa using (congrArg length (map_of_mapM hk)).symm⟩
      | transfer dest words =>
        obtain ⟨p', m'', hf, -⟩ := hs.transfer hl hr ha
        rw [go_transfer hr hru hf]
        exact ih (hp.transfer hr hru hf)
    · unfold go
      rw [hr]
      dsimp only
      rw [hru]
      exact .division

def budget (maxSteps : Int) : Nat := if maxSteps ≤ 0 then defaultMaxSteps else maxSteps.toNat

/-- **Runs of consistent traces do not get stuck.** As long as the host does what each operation asks,
a run ends with an outcome at a guard or a finish, by a division by zero or at its step limit, and no
operation that it comes to reads a box without a value. -/
theorem run_ends (maxSteps : Int) (hl : l.Consistent start) (ht : l.traces[start]? = some t)
    (hlen : args.length = t.inputs.length)
    (hserves : ∀ left p m op rest, Reached l h (budget maxSteps) start args world (left + 1) p m →
      p.rest = some op :: rest → Serves h op m) :
    Ends l (run l h maxSteps start args world).1 ∧
      ∀ left p m op rest, Reached l h (budget maxSteps) start args world (left + 1) p m →
        p.rest = some op :: rest → ∀ b, some (.box b) ∈ op.args ++ op.failArgs → b ∈ m.values := by
  constructor
  · obtain ⟨p, m, henter, -⟩ := hl.enter (m := ⟨∅, false, world⟩) (.inl rfl) ht hlen
      (fun _ => rfl) (nofun : false = true → _)
    have hends := Reached.ends hl ht hlen hserves (.start henter)
    unfold run
    dsimp only
    rw [henter]
    exact hends
  · intro left p m op rest hp hrest b hb
    obtain ⟨known, prev, ops, -, hop, -, hvals⟩ := (hp.standing hl ht hlen).checked hrest
    exact hvals b ((mem_append.mp hb).elim (hop.args b) (hop.failArgs b))

end

/-! ## A run with a bridge -/

/-- A host whose memory is mapped everywhere and reads as zeros. -/
def blankHost : Host Unit where
  read _ n _ := some (replicate n 0)
  write _ _ world := some world
  malloc := some fun _ world => (16, world)
  call _ _ _ world := (.ok 0, world)

theorem allocatable_blankHost (hu : use 16 ()) : Allocatable blankHost size () use :=
  ⟨_, rfl, by decide, hu⟩

theorem serves_blankHost (op : Op) (m : Machine Unit) : Serves blankHost op m := by
  unfold Serves
  cases op.opcode
  case new => exact fun _ _ => allocatable_blankHost trivial
  case newWithVtable | newArray => exact fun _ _ => allocatable_blankHost rfl
  case callI | callR | callF | callN => exact fun _ _ => ⟨_, _, rfl⟩
  case guardClass => exact rfl
  case getfieldI | getfieldR | getfieldF | setfield | getarrayitemI | getarrayitemR | getarrayitemF
      | setarrayitem | arraylen => exact fun _ _ => rfl
  all_goals trivial

/-- A loop that keeps its number in an object and doubles it until it overflows. -/
def doubling : Trace :=
  let x : Box := ⟨1, .int⟩
  let p : Box := ⟨2, .ref⟩
  let y : Box := ⟨3, .int⟩
  let z : Box := ⟨4, .int⟩
  let field : Option Descr := some (.interned ⟨.field ⟨8, 8, .int, true⟩, "n", 0⟩)
  let size : Option Descr := some (.interned ⟨.size 16, "", 1⟩)
  ⟨"doubling", [some x], [
    some ⟨.new, [], some p, size, []⟩,
    some ⟨.setfield, [some (.box p), some (.box x)], none, field, []⟩,
    some ⟨.getfieldI, [some (.box p)], some y, field, []⟩,
    some ⟨.intAddOvf, [some (.box x), some (.box y)], some z, none, []⟩,
    some ⟨.guardNoOverflow, [], none, none, [some (.box x), some (.box p)]⟩,
    some ⟨.jump, [some (.box z)], none, none, []⟩]⟩

def doubled : Trace :=
  let x : Box := ⟨5, .int⟩
  let p : Box := ⟨6, .ref⟩
  ⟨"doubled", [some x, some p], [some ⟨.finish, [some (.box x)], none, none, []⟩]⟩

def doublingLinked : Linked := { traces := [doubling, doubled], bridges := [((0, 4), 1)] }

theorem bridge?_doubling (hb : doublingLinked.bridge? id pos = some n) : id = 0 ∧ pos = 4 ∧ n = 1 := by
  obtain ⟨before, after, hl, -⟩ := lookup_eq_some_iff.mp hb
  have hm : ((id, pos), n) ∈ doublingLinked.bridges := by rw [hl]; simp
  simpa [doublingLinked, and_assoc] using hm

theorem consistent_doubling : doublingLinked.Consistent 0 := by
  have hp {n : Nat} (hn : doublingLinked.InPlay 0 n) : n = 0 ∨ n = 1 := by
    rcases hn with rfl | ⟨d, hd⟩ | ⟨id, pos, hb⟩
    · exact .inl rfl
    · cases hd
    · exact .inr (bridge?_doubling hb).2.2
  have hj {n : Nat} {t : Trace} {op : Op} (hn : doublingLinked.InPlay 0 n)
      (ht : doublingLinked.traces[n]? = some t) (hop : some op ∈ t.ops) (ho : op.opcode = .jump) :
      n = 0 ∧ op.descr = none ∧ op.args.length = t.inputs.length := by
    have hc : ∀ t ∈ doublingLinked.traces, ∀ op ∈ t.ops.filterMap id, op.opcode = .jump →
        t.name = "doubling" ∧ op.descr = none ∧ op.args.length = t.inputs.length := by decide
    obtain ⟨hna, hr⟩ := hc t (mem_of_getElem? ht) op
      (mem_filterMap.mpr ⟨_, hop, rfl⟩) ho
    refine ⟨(hp hn).resolve_right ?_, hr⟩
    rintro rfl
    cases ht
    exact absurd hna (by decide)
  constructor
  case valid =>
    intro n hn
    rcases hp hn with rfl | rfl
    · exact ⟨doubling, rfl, by decide⟩
    · exact ⟨doubled, rfl, by decide⟩
  case own =>
    intro n t op hn ht hop ho _
    obtain ⟨rfl, -, hl⟩ := hj hn ht hop ho
    exact ⟨fun id pos hb => absurd (bridge?_doubling hb).2.2 (by decide), hl⟩
  case jump =>
    intro n t op d hn ht hop ho hd
    rw [(hj hn ht hop ho).2.1] at hd
    cases hd
  case bridge =>
    intro n t pos op k hn ht hop hg hb
    obtain ⟨rfl, rfl, rfl⟩ := bridge?_doubling hb
    cases ht
    cases hop
    exact ⟨doubled, rfl, rfl⟩

theorem run_ends_doubling : doublingLinked.Consistent 0 ∧
    Ends doublingLinked (run doublingLinked blankHost 1000 0 [1] ()).1 :=
  ⟨consistent_doubling, (run_ends (t := doubling) 1000 consistent_doubling rfl rfl
    fun _ _ m op _ _ _ => serves_blankHost op m).1⟩

/-! ## Overflow is told exactly -/

variable {p' : Point} {o : Opcode} {max left : Nat} {world : ω}

/-- What an operation that can overflow would compute if numbers had no bounds. -/
def unbounded? (o : Opcode) (a b : Int) : Option Int :=
  match o with
  | .intAddOvf => some (a + b)
  | .intSubOvf => some (a - b)
  | .intMulOvf => some (a * b)
  | _ => none

theorem overflowResult?_eq (o : Opcode) (a b : Word) : overflowResult? o a b =
    (unbounded? o (Word.signed a) (Word.signed b)).map fun v => (Word.ofInt v, !Word.inRange v) := by
  have hs : Word.ofInt (Word.signed a - Word.signed b) = a - b := by
    apply Word.signed_inj
    rw [Word.signed_sub]
    exact BitVec.toInt_ofInt ..
  unfold overflowResult?
  split
  · simp [unbounded?, addOverflows_eq, Word.ofInt_add]
  · simp [unbounded?, subOverflows_eq, hs]
  · simp [unbounded?, mulOverflows_eq, Word.ofInt_mul]
  · simp_all [unbounded?]

theorem unbounded?_of_isOverflow (ho : o.isOverflow = true) (a b : Int) :
    (∃ v, unbounded? o a b = some v) ∧ o.argKinds = [.int, .int] ∧ o.isVariadic = false ∧
      o.isGuard = false ∧ o.isFinal = false := by
  unfold Opcode.isOverflow at ho
  split at ho
  · exact ⟨⟨_, rfl⟩, rfl, rfl, rfl, rfl⟩
  · exact ⟨⟨_, rfl⟩, rfl, rfl, rfl, rfl⟩
  · exact ⟨⟨_, rfl⟩, rfl, rfl, rfl, rfl⟩
  · cases ho

theorem argWord_zero (ha : op.args = [some x, some y]) : m.argWord op 0 = m.word x := by
  rw [Machine.argWord, ha]
  rfl

theorem argWord_one (ha : op.args = [some x, some y]) : m.argWord op 1 = m.word y := by
  rw [Machine.argWord, ha]
  rfl

theorem run_overflow (ha : op.args = [some x, some y]) (hx : x.kind ≠ .float)
    (hv : unbounded? op.opcode (Word.signed (m.word x)) (Word.signed (m.word y)) = some v) :
    (runOp h op).run m = (.ok (Word.ofInt v), { m with overflow := !Word.inRange v }) := by
  have hw := overflowResult?_eq op.opcode (m.word x) (m.word y)
  rw [hv, Option.map_some] at hw
  obtain ⟨hm, hu, hh, hd, hmo⟩ : op.opcode ≠ .debugMergePoint ∧
      isUnary op.opcode = false ∧ (op.opcode.isCall || op.opcode.needsDescr) = false ∧
        op.opcode ≠ .intFloordiv ∧ op.opcode ≠ .intMod := by
    unfold unbounded? at hv
    split at hv
    · simp_all [isUnary, Opcode.isCall, Opcode.needsDescr]
    · simp_all [isUnary, Opcode.isCall, Opcode.needsDescr]
    · simp_all [isUnary, Opcode.isCall, Opcode.needsDescr]
    · cases hv
  unfold runOp
  rw [if_neg hm, if_neg (by simp [hu]), if_neg (by simp [hh]), ha]
  dsimp only
  rw [if_neg hx]
  unfold runInt
  rw [run_seq (run_arg (x := some x) (by rw [ha]; rfl)),
    run_seq (run_arg (x := some y) (by rw [ha]; rfl)), argWord_zero ha, argWord_one ha]
  split
  · contradiction
  · contradiction
  · rw [hw]
    rfl

section

variable (hv : ∀ t ∈ l.traces, t.validate = .ok ())
include hv

theorem enter_checks {loop : Nat} {b : Bool} (he : enter l id loop b args m = (.ok p, m')) :
    ∃ ks ops, p.rest = ops.map some ∧ Checks ks none ops := by
  obtain ⟨t, ht, -, rfl, -⟩ := enter_ok he
  obtain ⟨bs, ops, -, ho, -, -, -, hc⟩ := Trace.validate_ok (hv t (mem_of_getElem? ht))
  exact ⟨_, ops, ho, hc⟩

theorem follow_checks (hf : follow l p dest args m = (.ok p', m')) :
    ∃ ks ops, p'.rest = ops.map some ∧ Checks ks none ops := by
  unfold follow at hf
  split at hf
  · exact enter_checks hv hf
  · split at hf
    · cases hf
    · exact enter_checks hv hf

theorem Reached.checks (hp : Reached l h max start args world left p m) :
    ∃ ks prev ops, p.rest = ops.map some ∧ Checks ks prev ops := by
  induction hp with
  | start he =>
    obtain ⟨ks, ops, hr, hc⟩ := enter_checks hv he
    exact ⟨ks, none, ops, hr, hc⟩
  | next _ hr _ ih =>
    obtain ⟨ks, prev, ops, hma, hc⟩ := ih
    obtain ⟨op', ops', rfl, -, ho⟩ := map_eq_cons_iff.mp (hma.symm.trans hr)
    cases hc with
    | cons _ hm => exact ⟨_, _, ops', ho.symm, hm⟩
  | transfer _ _ _ hf =>
    obtain ⟨ks, ops, hr, hc⟩ := follow_checks hv hf
    exact ⟨ks, none, ops, hr, hc⟩

end

theorem not_overflowGuard (hc : Checks ks none ops) (hm : some g :: rest = ops.map some) :
    g.opcode.isOverflowGuard = false := by
  obtain ⟨_, _, rfl, hg, -⟩ := map_eq_cons_iff.mp hm.symm
  cases hg
  cases hc with
  | cons hop =>
    by_contra hgu
    obtain ⟨_, hp, -⟩ := hop.overflowGuard (by simpa using hgu)
    cases hp

theorem Acts.overflow {g : Op} {ks : List Box} {prev : Option Op} {ops : List Op}
    (ha : Acts l h id pos op m .next m') (hc : Checks ks prev (op :: g :: ops))
    (hg : g.opcode.isOverflowGuard = true) : ∃ x y v, op.args = [some x, some y] ∧
      unbounded? op.opcode (Word.signed (m.word x)) (Word.signed (m.word y)) = some v ∧
        m'.overflow = !Word.inRange v := by
  cases hc with
  | cons hop hm =>
    cases hm with
    | cons hgu =>
      obtain ⟨_, hp, ho⟩ := hgu.overflowGuard hg
      cases hp
      obtain ⟨vals, hva, ht, -⟩ := hop.typed
      obtain ⟨-, hk, hf, hn, hfi⟩ := unbounded?_of_isOverflow ho 0 0
      obtain ⟨x, y, rfl⟩ := length_eq_two.mp ((ht.args hf).1.trans (by rw [hk]; rfl))
      obtain ⟨⟨v, hv⟩, -⟩ :=
        unbounded?_of_isOverflow ho (Word.signed (m.word x)) (Word.signed (m.word y))
      obtain ⟨w, m1, hr, -, rfl⟩ := ha.stay_inv hn hfi
      obtain ⟨f, hw, rfl⟩ := hr.overflow_inv ho
      rw [argWord_zero hva, argWord_one hva, overflowResult?_eq, hv] at hw
      cases hw
      exact ⟨x, y, v, hva, hv, by cases op.result <;> rfl⟩

theorem run_guardHolds {g : Op} (hg : g.opcode.isOverflowGuard = true) : (guardHolds h g).run m =
    (.ok (if g.opcode = .guardNoOverflow then !m.overflow else m.overflow), m) := by
  unfold guardHolds
  unfold Opcode.isOverflowGuard at hg
  split at hg <;> rename_i ho
  · rw [ho]
    rfl
  · rw [ho]
    rfl
  · cases hg

/-- **Overflow is told exactly.** An operation that can overflow computes the exact number modulo 2^64
and notes whether it is no signed word. Where a run of well-formed traces comes to a guard on overflow,
the step before was such an operation, and the guard decides by the exact number of its operands. -/
theorem overflow_told_exactly (l : Linked) (h : Host ω) :
    (∀ (op : Op) (m : Machine ω) (x y : Value) (v : Int), op.args = [some x, some y] →
      x.kind ≠ .float →
      unbounded? op.opcode (Word.signed (m.word x)) (Word.signed (m.word y)) = some v →
        (runOp h op).run m = (.ok (Word.ofInt v), { m with overflow := !Word.inRange v })) ∧
    ((∀ t ∈ l.traces, t.validate = .ok ()) → ∀ max start args world left p m g rest,
      Reached l h max start args world (left + 1) p m → p.rest = some g :: rest →
      g.opcode.isOverflowGuard = true →
        ∃ p0 m0 op x y v, Reached l h max start args world (left + 2) p0 m0 ∧
          p0.rest = some op :: p.rest ∧ p.id = p0.id ∧ p.pos = p0.pos + 1 ∧
          (control l h p0.id p0.pos op).run m0 = (.ok .next, m) ∧ op.args = [some x, some y] ∧
          unbounded? op.opcode (Word.signed (m0.word x)) (Word.signed (m0.word y)) = some v ∧
          (guardHolds h g).run m =
            (.ok (if g.opcode = .guardNoOverflow then Word.inRange v else !Word.inRange v), m)) := by
  refine ⟨fun _ _ _ _ _ => run_overflow, fun hvalid max start args world left p m g rest hp hrest hg => ?_⟩
  cases hp with
  | start henter =>
    obtain ⟨known, ops, hops, hchecks⟩ := enter_checks hvalid henter
    rw [not_overflowGuard hchecks (hrest.symm.trans hops)] at hg
    cases hg
  | transfer _ _ _ hfollow =>
    obtain ⟨known, ops, hops, hchecks⟩ := follow_checks hvalid hfollow
    rw [not_overflowGuard hchecks (hrest.symm.trans hops)] at hg
    cases hg
  | @next _ p0 m0 _ op rest0 hp0 hrest0 hrun =>
    obtain ⟨known, prev, ops, hops, hchecks⟩ := hp0.checks hvalid
    rw [hrest0, show rest0 = some g :: rest from hrest] at hops
    obtain ⟨_, _, rfl, hop, hops⟩ := map_eq_cons_iff.mp hops.symm
    obtain ⟨_, _, rfl, hguard, -⟩ := map_eq_cons_iff.mp hops
    cases hop
    cases hguard
    obtain ⟨x, y, v, hargs, hv, hnote⟩ := (control_ok hrun).overflow hchecks hg
    refine ⟨p0, m0, op, x, y, v, hp0, hrest0, rfl, rfl, hrun, hargs, hv, ?_⟩
    rw [run_guardHolds hg, hnote, Bool.not_not]

def doubleOnce : Linked where
  traces := [⟨"double", [some ⟨1, .int⟩], [
    some ⟨.intAddOvf, [some (.box ⟨1, .int⟩), some (.box ⟨1, .int⟩)], some ⟨2, .int⟩, none, []⟩,
    some ⟨.guardNoOverflow, [], none, none, [some (.box ⟨1, .int⟩)]⟩,
    some ⟨.finish, [some (.box ⟨2, .int⟩)], none, none, []⟩]⟩]

/-- The guard behind the double of 2^62 fails. -/
theorem overflow_told_exactly_double : ∃ (p : Point) (m : Machine Unit) (v : Int),
    Reached doubleOnce blankHost 3 0 [0x4000000000000000] () 2 p m ∧ m.overflow = true ∧
      (guardHolds blankHost ⟨.guardNoOverflow, [], none, none, [some (.box ⟨1, .int⟩)]⟩).run m =
        (.ok (Word.inRange v), m) := by
  have hstart : Reached doubleOnce blankHost 3 0 [0x4000000000000000] () 3 _ _ := .start rfl
  have hguard := hstart.next rfl rfl
  obtain ⟨_, _, _, _, _, v, _, _, _, _, _, _, _, hholds⟩ :=
    (overflow_told_exactly doubleOnce blankHost).2 (by decide) _ _ _ _ _ _ _ _ _ hguard rfl rfl
  exact ⟨_, _, v, hguard, by simp [bindInputs, Machine.word]; decide, hholds⟩

end TraceCompiler.Eval
