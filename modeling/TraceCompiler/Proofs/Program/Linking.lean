import TraceCompiler.Proofs.Program.Resolution
import TraceCompiler.Proofs.Trace.WellFormed

/-! # Running resolved documents

A sound program can be linked (`Sound.linked`), what is linked fits together (`Sound.consistent`), and a
run of consistent traces does not break off where it goes from one trace to another, whatever its host
does (`Eval.Reached.connected`).
-/

namespace TraceCompiler

open List

namespace Eval

/-! ## Errors of operations -/

variable {ω α β : Type} {h : Host ω} {op : Op} {m m' : Machine ω} {x : EvalM ω α}

/-- A step that does not fail for the want of a jump target. -/
def Finds (x : EvalM ω α) : Prop :=
  ∀ m t m', x.run m ≠ (.error (.error (.unknownTarget t)), m')

namespace Finds

theorem pure (v : α) : Finds (Pure.pure v : EvalM ω α) := nofun

theorem bind (hx : Finds x) (hf : ∀ v, Finds (f v)) : Finds (x >>= f) := by
  intro m t m' hr
  rcases run_bind_error hr with hr | ⟨v, m1, -, hr⟩
  · exact hx m t m' hr
  · exact hf v m1 t m' hr

theorem ite [Decidable c] (hx : Finds x) (hy : Finds y) : Finds (if c then x else y) := by
  split
  · exact hx
  · exact hy

theorem fault : Finds (Eval.fault : EvalM ω α) := nofun

theorem fail (he : ∀ t, e ≠ .unknownTarget t) : Finds (Eval.fail e : EvalM ω α) := by
  intro m t m' hr
  cases hr
  exact he t rfl

theorem need (o : Option α) : Finds (Eval.need o : EvalM ω α) := by
  cases o
  · exact fault
  · exact pure _

theorem arg (op : Op) (i : Nat) : Finds (Eval.arg op i : EvalM ω Word) := by
  unfold Eval.arg
  split
  · exact nofun
  · exact fault

theorem words (vs : List (Option Value)) : Finds (Eval.words vs : EvalM ω (List Word)) := nofun

theorem onWorld (f : ω → α × ω) : Finds (Eval.onWorld f) := nofun

theorem load (addr : Word) (size : Int) (signed : Bool) : Finds (Eval.load h addr size signed) := by
  refine bind nofun fun m => ?_
  split
  · exact fault
  · exact pure _

theorem store (addr : Word) (size : Int) (w : Word) : Finds (Eval.store h addr size w) :=
  bind nofun fun _ => ite (pure _) fault

theorem barrier (obj : Word) : Finds (Eval.barrier h obj) := by
  unfold Eval.barrier
  split
  · exact pure _
  · exact onWorld _

theorem malloc (size : Word) : Finds (Eval.malloc h size) := by
  unfold Eval.malloc
  split
  · exact fail nofun
  · exact bind (onWorld _) fun _ => ite (bind (fail nofun) fun _ => pure _) (pure _)

theorem call (r : Except (Abort String) Word) : Finds (match r with
    | .ok w => return w
    | .error e => throw (e.map OpError.call) : EvalM ω Word) := by
  rcases r with ⟨_ | _⟩ | w
  · exact nofun
  · exact nofun
  · exact pure _

theorem runHeap (op : Op) : Finds (Eval.runHeap h op) := by
  unfold Eval.runHeap
  split
  iterate 3 exact bind (need _) fun s => bind (arg _ _) fun _ => load _ _ _
  · refine bind (need _) fun s => ?_
    have hs : Finds (do
        Eval.store h ((← Eval.arg op 0) + Word.ofInt s.offset) s.size (← Eval.arg op 1)
        return (0 : Word)) :=
      bind (arg _ _) fun _ => bind (arg _ _) fun _ => bind (store _ _ _) fun _ => pure _
    exact ite (bind (arg _ _) fun _ => bind (barrier _) fun _ => hs) hs
  iterate 3 exact bind (need _) fun s => bind (arg _ _) fun _ => bind (arg _ _) fun _ => load _ _ _
  · refine bind (need _) fun s => ?_
    have hs : Finds (do
        Eval.store h (itemAddr s (← Eval.arg op 0) (← Eval.arg op 1)) s.item (← Eval.arg op 2)
        return (0 : Word)) :=
      bind (arg _ _) fun _ => bind (arg _ _) fun _ => bind (arg _ _) fun _ =>
        bind (store _ _ _) fun _ => pure _
    exact ite (bind (arg _ _) fun _ => bind (barrier _) fun _ => hs) hs
  · exact bind (need _) fun s => bind (arg _ _) fun _ => load _ _ _
  · exact bind (need _) fun size => malloc _
  · exact bind (need _) fun size => bind (malloc _) fun _ => bind (arg _ _) fun _ =>
      bind (store _ _ _) fun _ => pure _
  · exact bind (need _) fun s => bind (arg _ _) fun _ => bind (malloc _) fun _ =>
      bind (store _ _ _) fun _ => pure _
  iterate 4
    refine bind (need _) fun sig => bind (arg _ _) fun fn => bind (words _) fun args =>
      bind (onWorld _) fun r => ?_
    exact call r
  · exact fail nofun

theorem runInt (op : Op) : Finds (Eval.runInt op : EvalM ω Word) := by
  refine bind (arg _ _) fun a => bind (arg _ _) fun b => ?_
  split
  iterate 2 exact ite (bind (fail nofun) fun _ => pure _) (pure _)
  · split
    · exact bind nofun fun _ => pure _
    · split
      · exact pure _
      · exact fail nofun

theorem runFloat (op : Op) : Finds (Eval.runFloat op : EvalM ω Word) := by
  refine bind (arg _ _) fun a => bind (arg _ _) fun b => ?_
  split
  · exact pure _
  · exact fail nofun

theorem runOp (op : Op) : Finds (Eval.runOp h op) := by
  unfold Eval.runOp
  refine ite (pure _) (ite (bind (arg _ _) fun _ => pure _) (ite (runHeap op) ?_))
  split
  · exact fault
  · exact ite (runFloat op) (runInt op)
  · exact runInt op

theorem guardHolds (op : Op) : Finds (Eval.guardHolds h op) := by
  unfold Eval.guardHolds
  split
  iterate 4 exact bind (arg _ _) fun _ => pure _
  · exact bind (arg _ _) fun _ => bind (arg _ _) fun _ => pure _
  · exact bind (arg _ _) fun _ => bind (load _ _ _) fun _ => bind (arg _ _) fun _ => pure _
  iterate 2 exact bind nofun fun _ => pure _

end Finds

/-! ## From trace to trace -/

variable {l : Linked} {start max left : Nat} {p : Point} {args : List Word} {world : ω} {t : Trace}
  {e : RunError}

inductive RunError.Disconnected : RunError → Prop
  | inputs {trace : String} {takes got : Nat} : Disconnected (.inputs trace takes got)
  | selfBridge {trace : String} : Disconnected (.selfBridge trace)
  | unknownTarget {trace : String} {pos : Nat} {o : Opcode} {target : String} :
      Disconnected (.op trace pos o (.unknownTarget target))

theorem Standing.finds (hl : l.Consistent start) (hp : Standing l start p m) {rest : List (Option Op)}
    (hr : p.rest = some op :: rest) : Finds (control l h p.id p.pos op) := by
  have hm := mem_of_getElem? (hp.getElem?_pos hr)
  unfold control
  refine .ite (.bind (.guardHolds op) fun _ => .ite (.pure _) (.bind (.words _) fun _ => ?_)) ?_
  · split
    · exact .pure _
    · exact .bind (.need _) fun _ => .pure _
  refine .ite (.bind (.words _) fun _ => .bind (.need _) fun _ => .pure _) ?_
  split
  · rename_i hj
    refine .bind (.words _) fun _ => ?_
    split
    · exact .pure _
    · rename_i d hd
      obtain ⟨k, t', hk, -⟩ := hl.jump _ _ _ _ hp.inPlay hp.trace hm hj hd
      rw [hk]
      exact .pure _
  · refine .bind (.runOp op) fun w => ?_
    split
    · exact .bind nofun fun _ => .pure _
    · exact .pure _

section

variable (hl : l.Consistent start) (ht : l.traces[start]? = some t)
  (hle : args.length = t.inputs.length)
include hl ht hle

theorem Reached.connected (hp : Reached l h max start args world left p m)
    (he : (go l h max left p m).1 = .error (.error e)) : ¬ e.Disconnected := by
  induction left generalizing p m with
  | zero =>
    obtain ⟨op, rest, hr⟩ := (hp.standing hl ht hle).exists_next
    unfold go at he
    rw [hr] at he
    cases he
    rintro ⟨⟩
  | succ left ih =>
    have hs := hp.standing hl ht hle
    obtain ⟨op, rest, hr⟩ := hs.exists_next
    unfold go at he
    rw [hr] at he
    dsimp only at he
    rcases hru : (control l h p.id p.pos op).run m with ⟨e' | r, m'⟩
    · rw [hru] at he
      cases e' with
      | fault _ => cases he
      | error e' =>
        cases he
        rintro ⟨⟩
        exact hs.finds hl hr _ _ _ hru
    · rw [hru] at he
      cases r with
      | next => exact ih (hp.next hr hru) he
      | leave values kinds => cases he
      | transfer dest words =>
        obtain ⟨p', m'', hf, -⟩ := hs.transfer hl hr (control_ok hru)
        dsimp only at he
        rw [hf] at he
        exact ih (hp.transfer hr hru hf) he

theorem run_connected
    (he : (run l h maxSteps start args world).1 = .error (.error e)) : ¬ e.Disconnected := by
  obtain ⟨p, m, hen, -⟩ := hl.enter (m := ⟨∅, false, world⟩) (.inl rfl) ht hle
    (fun _ => rfl) (nofun : false = true → _)
  unfold run at he
  dsimp only at he
  rw [hen] at he
  exact Reached.connected hl ht hle (.start hen) he

end

end Eval

namespace Program

open Eval (Linked)

/-! ## Linking -/

section

variable {α β : Type} [BEq α] [LawfulBEq α] {k k' : α} {v v' : β} {l : List (α × β)}

theorem mem_assign : (k', v') ∈ assign k v l ↔ k' ≠ k ∧ (k', v') ∈ l ∨ k' = k ∧ v' = v := by
  simp [assign, and_comm]

theorem mem_of_lookup (h : l.lookup k = some v) : (k, v) ∈ l := by
  obtain ⟨before, after, rfl, -⟩ := lookup_eq_some_iff.mp h
  exact mem_append_right _ mem_cons_self

theorem exists_lookup_of_mem (h : (k, v) ∈ l) : ∃ v', l.lookup k = some v' := by
  refine Option.ne_none_iff_exists'.mp fun hn => ?_
  simpa using lookup_eq_none_iff.mp hn _ h

end

variable {p : Program} {d : Descr} {k : Nat} {name : String} {op : Op}

def jumpTable (p : Program) : List (Descr × String) :=
  p.parts.flatMap fun u => u.jumps.filterMap fun (pos, name) =>
    ((u.op? pos).bind (·.descr)).map (·, name)

theorem mem_jumpTable : (d, name) ∈ p.jumpTable ↔
    ∃ u ∈ p.parts, ∃ pos op, (pos, name) ∈ u.jumps ∧ u.trace.ops[pos]? = some (some op) ∧
      op.descr = some d := by
  simp [jumpTable, Part.op?, Option.bind_eq_some_iff, Option.join_eq_some_iff]

theorem foldlM_targets (js : List (Descr × String)) (ts : List (Descr × Nat))
    (hjs : ∀ d name, (d, name) ∈ js → ∃ k, p.index? name = some k) :
    ∃ ts', (js.foldlM (fun ts (d, name) => do
        let i ← require (p.index? name)
        return assign d i ts) ts : Except (Abort Empty) _) = .ok ts' ∧
      (∀ d k, (d, k) ∈ ts' → (d, k) ∈ ts ∨ ∃ name, (d, name) ∈ js ∧ p.index? name = some k) ∧
      ∀ d, (∃ k, (d, k) ∈ ts) ∨ (∃ name, (d, name) ∈ js) → ∃ k, (d, k) ∈ ts' := by
  induction js generalizing ts with
  | nil => exact ⟨ts, rfl, fun _ _ => .inl, fun d hd => hd.resolve_right nofun⟩
  | cons j js ih =>
    obtain ⟨d, name⟩ := j
    obtain ⟨k, hk⟩ := hjs d name mem_cons_self
    obtain ⟨ts', hr, hf, hto⟩ := ih (assign d k ts)
      fun d' name' hm => hjs d' name' (mem_cons_of_mem _ hm)
    refine ⟨ts', ?_, fun d' k' hm => ?_, fun d' hd' => hto d' ?_⟩
    · have hs : (do
          let i ← require (p.index? name)
          return assign d i ts : Except (Abort Empty) _) = .ok (assign d k ts) := by
        rw [hk]
        rfl
      exact (bind_of_ok hs).trans hr
    · rcases hf d' k' hm with hm | ⟨name', hm, hk'⟩
      · rcases mem_assign.mp hm with ⟨-, hm⟩ | ⟨rfl, rfl⟩
        · exact .inl hm
        · exact .inr ⟨name, mem_cons_self, hk⟩
      · exact .inr ⟨name', mem_cons_of_mem _ hm, hk'⟩
    · by_cases hdd : d' = d
      · exact .inl ⟨k, mem_assign.mpr (.inr ⟨hdd, rfl⟩)⟩
      · refine hd'.imp (fun ⟨k', hm⟩ => ⟨k', mem_assign.mpr (.inl ⟨hdd, hm⟩)⟩) ?_
        rintro ⟨name', hm⟩
        rcases mem_cons.mp hm with heq | hm
        · cases heq
          exact absurd rfl hdd
        · exact ⟨name', hm⟩

theorem mem_foldl_bridges {us : List (Part × Nat)} {bs : List ((Nat × Nat) × Nat)} {g : Nat × Nat}
    (h : (g, k) ∈ us.foldl (fun bs (u, i) => match u.continues with
      | some guard => assign guard i bs
      | none => bs) bs) : (g, k) ∈ bs ∨ ∃ u, (u, k) ∈ us ∧ u.continues = some g := by
  induction us generalizing bs with
  | nil => exact .inl h
  | cons ui us ih =>
    obtain ⟨u, i⟩ := ui
    rcases ih h with hm | ⟨u', hm, hc⟩
    · dsimp only at hm
      split at hm
      · rename_i guard hg
        rcases mem_assign.mp hm with ⟨-, hm⟩ | ⟨rfl, rfl⟩
        · exact .inl hm
        · exact .inr ⟨u, mem_cons_self, hg⟩
      · exact .inl hm
    · exact .inr ⟨u', mem_cons_of_mem _ hm, hc⟩

def bridgeTable (p : Program) : List ((Nat × Nat) × Nat) :=
  p.parts.zipIdx.foldl (fun bs (u, i) =>
    match u.continues with
    | some guard => assign guard i bs
    | none => bs) []

/-- What is linked is the traces of a program, with the targets of its jumps and its bridges. -/
structure Joins (p : Program) (l : Linked) : Prop where
  traces : l.traces = p.parts.map (·.trace)
  bridges : l.bridges = p.bridgeTable
  target : ∀ d k, l.target? d = some k → ∃ name, (d, name) ∈ p.jumpTable ∧ p.index? name = some k
  jump : ∀ d name, (d, name) ∈ p.jumpTable → ∃ k, l.target? d = some k
  bridge : ∀ id pos k, l.bridge? id pos = some k →
    ∃ u, p.parts[k]? = some u ∧ u.continues = some (id, pos)

theorem exists_joins (hn : ∀ d name, (d, name) ∈ p.jumpTable → ∃ k, p.index? name = some k) :
    ∃ l, p.linked = .ok l ∧ p.Joins l := by
  obtain ⟨ts, hr, hf, hto⟩ := foldlM_targets (p := p) p.jumpTable [] hn
  refine ⟨_, bind_of_ok hr, rfl, rfl, fun d k hk => ?_, fun d name hm => ?_, fun id pos k hk => ?_⟩
  · exact (hf d k (mem_of_lookup hk)).resolve_left not_mem_nil
  · obtain ⟨k, hk⟩ := hto d (.inr ⟨name, hm⟩)
    exact exists_lookup_of_mem hk
  · obtain hm | ⟨u, hm, hc⟩ := mem_foldl_bridges (mem_of_lookup hk)
    · exact absurd hm not_mem_nil
    · exact ⟨u, mem_zipIdx_iff_getElem?.mp hm, hc⟩

namespace Wired

theorem standsFor (hp : p.Wired) (hm : (d, name) ∈ p.jumpTable) :
    ∃ k v, p.index? name = some k ∧ p.parts[k]? = some v ∧ StandsFor d k v := by
  obtain ⟨u, hu, pos, op, hj, hpo, hd⟩ := mem_jumpTable.mp hm
  obtain ⟨op', d', k, v, hpo', -, hd', hk, hv, hs⟩ := hp.named u hu pos name hj
  cases hpo.symm.trans hpo'
  cases hd.symm.trans hd'
  exact ⟨k, v, hk, hv, hs⟩

/-- **Wired programs can be linked.** -/
theorem linked (hp : p.Wired) : ∃ l, p.linked = .ok l ∧ p.Joins l :=
  exists_joins fun _ _ hm => (hp.standsFor hm).imp fun _ ⟨_, hk, _⟩ => hk

theorem target (hp : p.Wired) (hl : p.Joins l) (hk : l.target? d = some k) :
    ∃ v, p.parts[k]? = some v ∧ StandsFor d k v := by
  obtain ⟨name, hm, hn⟩ := hl.target d k hk
  obtain ⟨k', v, hn', hv, hs⟩ := hp.standsFor hm
  cases hn.symm.trans hn'
  exact ⟨v, hv, hs⟩

end Wired

namespace Sound

variable {l : Linked} {start n : Nat} {u : Part} {t : Trace}

theorem args_eq (hp : p.Sound) (hu : u ∈ p.parts) (hop : some op ∈ u.trace.ops)
    (ho : op.opcode = .jump) (hd : op.descr = some d) (hs : StandsFor d k v) :
    op.args.map (·.map Value.kind) = v.trace.inputs.map (·.map Box.kind) := by
  obtain ⟨t, rfl, -, hk⟩ := hs
  obtain ⟨inputs, ops, -, hos, -, -, -, hc⟩ := Trace.validate_ok (hp.valid u hu)
  obtain ⟨_, hm, rfl⟩ : ∃ op' ∈ ops, op' = op := by simpa [hos] using hop
  obtain ⟨i, hi⟩ := mem_iff_getElem?.mp hm
  obtain ⟨vals, hv, -, hj⟩ := (checks_iff.mp hc i _ hi).typed
  rw [hk, hv, hj ho t (by rw [hd]; rfl)]
  simp

/-- **What is linked fits together.** -/
theorem consistent (hp : p.Sound) (hl : p.Joins l) (hu : p.parts[start]? = some u) :
    l.Consistent start := by
  have htr {n : Nat} {u : Part} (hu : p.parts[n]? = some u) : l.traces[n]? = some u.trace := by
    rw [hl.traces, getElem?_map, hu]
    rfl
  have hpa {n : Nat} {t : Trace} (ht : l.traces[n]? = some t) :
      ∃ u, p.parts[n]? = some u ∧ u.trace = t := by
    rw [hl.traces, getElem?_map] at ht
    exact Option.map_eq_some_iff.mp ht
  constructor
  case valid =>
    intro n hn
    have hex : ∃ u, p.parts[n]? = some u := by
      rcases hn with rfl | ⟨d, hd⟩ | ⟨id, pos, hb⟩
      · exact ⟨u, hu⟩
      · exact (hp.target hl hd).imp fun _ => And.left
      · exact (hl.bridge id pos n hb).imp fun _ => And.left
    obtain ⟨v, hv⟩ := hex
    exact ⟨v.trace, htr hv, hp.valid v (mem_of_getElem? hv)⟩
  case own =>
    intro n t op _ ht hop ho hd
    obtain ⟨v, hv, rfl⟩ := hpa ht
    obtain ⟨pos, hpo⟩ := mem_iff_getElem?.mp hop
    have hm := mem_of_getElem? hv
    obtain ⟨name, hj⟩ | ⟨hnt, -, hle⟩ := hp.jump v hm pos op hpo ho
    · obtain ⟨op', d, -, -, hpo', -, hd', -⟩ := hp.named v hm pos name hj
      cases hpo.symm.trans hpo'
      rw [hd] at hd'
      cases hd'
    · refine ⟨fun id pos hb => ?_, hle⟩
      obtain ⟨v', hv', hc⟩ := hl.bridge id pos n hb
      cases hv.symm.trans hv'
      rw [(hp.continues v hm id pos hc).1] at hnt
      cases hnt
  case jump =>
    intro n t op d _ ht hop ho hd
    obtain ⟨v, hv, rfl⟩ := hpa ht
    obtain ⟨pos, hpo⟩ := mem_iff_getElem?.mp hop
    have hm := mem_of_getElem? hv
    obtain ⟨name, hj⟩ | ⟨-, hno, -⟩ := hp.jump v hm pos op hpo ho
    · obtain ⟨k, hk⟩ := hl.jump d name (mem_jumpTable.mpr ⟨v, hm, pos, op, hj, hpo, hd⟩)
      obtain ⟨w, hw, hs⟩ := hp.target hl hk
      have hle := congrArg length (hp.args_eq hm hop ho hd hs)
      exact ⟨k, w.trace, hk, htr hw, by simpa using hle⟩
    · rw [hd] at hno
      cases hno
  case bridge =>
    intro n t pos op k _ ht hop hg hb
    obtain ⟨v, hv, rfl⟩ := hpa ht
    obtain ⟨b, hb, hc⟩ := hl.bridge n pos k hb
    obtain ⟨-, owner, op', how, hop', hki⟩ := hp.continues b (mem_of_getElem? hb) n pos hc
    cases hv.symm.trans how
    cases hop.symm.trans hop'
    refine ⟨b.trace, htr hb, ?_⟩
    have hle : op.exitValues.length = b.trace.inputs.length := by
      simpa using congrArg length hki
    rw [← hle, Op.exitValues, if_neg]
    intro ho
    rw [ho] at hg
    cases hg

end Sound

/-- Where a jump of a program goes: back to the start of its trace, which is no bridge, or to a trace
that it names. -/
inductive Lands (p : Program) (u : Part) (pos : Nat) (op : Op) : Prop
  | own (hloop : u.isBridge = false) (hd : op.descr = none)
      (hlen : op.args.length = u.trace.inputs.length)
  | named {name : String} {k : Nat} {v : Part} (hname : (pos, name) ∈ u.jumps)
      (hk : p.index? name = some k) (hv : p.parts[k]? = some v)
      (hkinds : op.args.map (·.map Value.kind) = v.trace.inputs.map (·.map Box.kind))

theorem Sound.lands (hp : p.Sound) (hu : u ∈ p.parts)
    (hpo : u.trace.ops[pos]? = some (some op)) (ho : op.opcode = .jump) : p.Lands u pos op := by
  obtain ⟨name, hn⟩ | ⟨hl, hd, hle⟩ := hp.jump u hu pos op hpo ho
  · obtain ⟨op', d, k, v, hpo', -, hd, hk, hv, hs⟩ := hp.named u hu pos name hn
    cases hpo.symm.trans hpo'
    exact .named hn hk hv (hp.args_eq hu (mem_of_getElem? hpo) ho hd hs)
  · exact .own hl hd hle

/-- **Documents link soundly** if no jump has a declared descriptor and each jump back passes as many
values as its trace has inputs: every jump lands, the program can be linked, and no run of it breaks off
between two traces. -/
theorem resolve_links {d : Document} {cache cache' : Descriptors} {a b : Builder} {p : Program}
    (hplain : d.Plain) (h : (resolve d cache).run a = (.ok (p, cache'), b)) :
    (∀ u ∈ p.parts, ∀ pos op, u.trace.ops[pos]? = some (some op) → op.opcode = .jump →
      p.Lands u pos op) ∧
    ∃ l, p.linked = .ok l ∧
      ∀ (ω : Type) (host : Host ω) (maxSteps : Int) (start : Nat) (u : Part) (args : List Word)
        (world : ω), p.parts[start]? = some u → args.length = u.trace.inputs.length →
        ∀ e, (Eval.run l host maxSteps start args world).1 = .error (.error e) → ¬ e.Disconnected := by
  have hp := resolve_ok hplain h
  refine ⟨fun u hu pos op hpos ho => hp.lands hu hpos ho, ?_⟩
  obtain ⟨l, hlinked, hl⟩ := hp.linked
  refine ⟨l, hlinked, fun ω host maxSteps start u args world hu hlen e he => ?_⟩
  have htrace : l.traces[start]? = some u.trace := by
    rw [hl.traces, List.getElem?_map, hu]
    rfl
  exact Eval.run_connected (hp.consistent hl hu) htrace hlen he

/-- A loop that counts down and a bridge that sends what is left to another loop. -/
def relay : Document where
  traces := [
    { name := "down", inputs := ["n:int"], ops := [
      { op := "int_gt", result := "more", args := ["n", "0"] },
      { op := "guard_true", args := ["more"], fail := ["n"], guard := "end" },
      { op := "int_sub", result := "m", args := ["n", "1"] },
      { op := "jump", args := ["m"] }] },
    { name := "over", inputs := ["n:int"], bridge := some { trace := "down", guard := "end" }, ops := [
      { op := "jump", args := ["n", "n"], target := "pair" }] },
    { name := "pair", inputs := ["x:int", "y:int"], ops := [
      { op := "jump", args := ["y", "x"], target := "pair" }] }]

theorem resolve_relay : ∃ p cache b, (resolve relay {}).run {} = (.ok (p, cache), b) ∧
    p.parts.length = 3 := by
  obtain ⟨⟨p, cache⟩, b, h, hl⟩ := exists_ok_of_map (x := (resolve relay {}).run {})
    (f := fun q => q.1.parts.length) (v := 3) (by decide +kernel)
  exact ⟨p, cache, b, h, hl⟩

theorem resolve_links_relay : relay.Plain ∧ ∃ p cache b,
    (resolve relay {}).run {} = (.ok (p, cache), b) ∧ p.parts.length = 3 ∧
      ∃ l, p.linked = .ok l ∧ ∀ (ω : Type) (host : Host ω) (maxSteps : Int) (start : Nat) (u : Part)
        (args : List Word) (world : ω), p.parts[start]? = some u →
        args.length = u.trace.inputs.length → ∀ e,
          (Eval.run l host maxSteps start args world).1 = .error (.error e) → ¬ e.Disconnected := by
  have hplain : relay.Plain := by decide
  obtain ⟨p, cache, b, h, hlen⟩ := resolve_relay
  exact ⟨hplain, p, cache, b, h, hlen, (resolve_links hplain h).2⟩

def stray : Document where
  descrs := [("f", { size := 16 })]
  traces := [{ name := "t", ops := [{ op := "jump", descr := "f", target := "nosuch" }] }]

def forgetful : Document where
  traces := [{ name := "t", inputs := ["x:int"], ops := [{ op := "jump" }] }]

/-- The two conditions are needed: the one document cannot be linked, and a run of the other one does
not get back to its start. -/
theorem linking_fails_unplain :
    (∃ p cache b, (resolve stray {}).run {} = (.ok (p, cache), b) ∧ p.linked = .error .missing) ∧
    ∃ p cache b l, (resolve forgetful {}).run {} = (.ok (p, cache), b) ∧ p.linked = .ok l ∧
      (Eval.run l Eval.blankHost 10 0 [1] ()).1 = .error (.error (.inputs "t" 1 0)) :=
  ⟨⟨_, _, _, rfl, rfl⟩, _, _, _, _, rfl, rfl, rfl⟩

end Program

end TraceCompiler
