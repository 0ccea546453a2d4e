import TraceCompiler.Program.Resolve
import TraceCompiler.Proofs.Eval.Safety
import Mathlib.Data.List.Forall2
import Mathlib.Data.List.Nodup

/-! # What resolved documents are like
-/

namespace TraceCompiler.Program

open List

variable {a b : Builder} {α β : Type} {scope : Scope} {u u' : Part} {s : Surroundings} {o : OpSpec}
  {trace : String} {line pos i : Nat} {os : List OpSpec} {ts : List TraceSpec} {scopes : List Scope}
  {op : Op} {t : TraceSpec}

theorem flaw_bind_ok [Decidable q] (h : (if q then flaw trace line f >>= k else x).run a = (.ok v, b)) :
    ¬ q ∧ x.run a = (.ok v, b) := by
  by_cases hq : q
  · rw [if_pos hq] at h
    obtain ⟨_, _, h, -⟩ := run_bind_ok h
    cases h
  · rw [if_neg hq] at h
    exact ⟨hq, h⟩

theorem run_mapM_ok {f : α → ResolveM β} {xs : List α} {ys : List β}
    (h : (xs.mapM f).run a = (.ok ys, b)) :
    Forall₂ (fun x y => ∃ a b, (f x).run a = (.ok y, b)) xs ys := by
  induction xs generalizing ys a with
  | nil =>
    cases h
    exact .nil
  | cons x xs ih =>
    rw [mapM_cons] at h
    obtain ⟨y, a1, hy, h⟩ := run_bind_ok h
    obtain ⟨ys', a2, hys, h⟩ := run_bind_ok h
    cases h
    exact .cons ⟨_, _, hy⟩ (ih hys)

section

variable {R : α → β → Prop} {xs : List α} {ys : List β}

theorem exists_of_forall₂_left (h : Forall₂ R xs ys) {x : α} (hx : xs[i]? = some x) :
    ∃ y, ys[i]? = some y ∧ R x y := by
  induction h generalizing i with
  | nil => cases hx
  | cons hxy _ ih =>
    cases i with
    | zero =>
      cases hx
      exact ⟨_, rfl, hxy⟩
    | succ i => exact ih hx

theorem exists_of_forall₂_right (h : Forall₂ R xs ys) {y : β} (hy : ys[i]? = some y) :
    ∃ x, xs[i]? = some x ∧ R x y := exists_of_forall₂_left (R := flip R) h.flip hy

end

/-! ## Inputs -/

theorem resolveInputs_ok (h : (resolveInputs trace inputs scope).run a = (.ok scope', b)) :
    scope'.length = scope.length + inputs.length := by
  induction inputs generalizing scope a with
  | nil =>
    cases h
    rfl
  | cons s rest ih =>
    unfold resolveInputs at h
    split at h
    · rename_i name kind _
      dsimp only at h
      split at h
      · cases h
      · split at h
        · cases h
        · cases h
        · obtain ⟨-, h⟩ := flaw_bind_ok h
          obtain ⟨box, a1, -, h⟩ := run_bind_ok h
          rw [ih h, length_append, length_cons, length_cons, length_nil]
          omega
    · cases h

theorem resolveAllInputs_ok (h : (resolveAllInputs i seen ts).run a = (.ok scopes, b)) :
    Forall₂ (fun t s => s.length = t.inputs.length) ts scopes ∧
      (ts.map (·.name)).Nodup ∧ ∀ t ∈ ts, t.name ∉ seen := by
  induction ts generalizing i seen scopes a with
  | nil =>
    cases h
    exact ⟨.nil, .nil, nofun⟩
  | cons t rest ih =>
    unfold resolveAllInputs at h
    obtain ⟨-, h⟩ := flaw_bind_ok h
    obtain ⟨hne, h⟩ := flaw_bind_ok h
    obtain ⟨scope, a1, hso, h⟩ := run_bind_ok h
    obtain ⟨scopes', a2, hsc, h⟩ := run_bind_ok h
    cases h
    obtain ⟨ha, hn, hs⟩ := ih hsc
    refine ⟨.cons ?_ ha, ?_, ?_⟩
    · rw [resolveInputs_ok hso]
      exact Nat.zero_add _
    · refine nodup_cons.mpr ⟨fun hm => ?_, hn⟩
      obtain ⟨t', ht', heq⟩ := mem_map.mp hm
      exact hs t' ht' (heq ▸ mem_cons_self)
    · rintro t' (_ | ⟨_, ht'⟩)
      · exact hne
      · exact fun hm => hs t' ht' (mem_cons_of_mem _ hm)

/-! ## Operations -/

theorem resolveValues_ok (h : (resolveValues s line scope names).run a = (.ok vals, b)) :
    vals.length = names.length := (run_mapM_ok h).length_eq.symm

/-- Where a jump goes: to whatever its declared descriptor stands for, back to the start of its own
trace, or to a trace with a name. -/
inductive OpSpec.Leads (s : Surroundings) (o : OpSpec) : Option Descr → Prop
  | declared {d : Descr} (ho : o.descr ≠ "") (hd : s.descrs.lookup o.descr = some d) :
      o.Leads s (some d)
  | own (ho : o.isForeign s.trace = false) : o.Leads s none
  | named {d : Descr} (ho : o.isForeign s.trace = true)
      (hd : s.references.lookup o.target = some d) : o.Leads s (some d)

theorem resolveDescr_ok (h : (resolveDescr s o opcode).run a = (.ok d, b)) : o.Leads s d := by
  unfold resolveDescr at h
  split at h
  · rename_i hde
    split at h
    · rename_i d hd
      cases h
      exact .declared (by simpa using hde) hd
    · cases h
  · split at h
    · rename_i ho
      obtain ⟨-, h⟩ := flaw_bind_ok h
      split at h
      · rename_i d hd
        cases h
        exact .named ho hd
      · cases h
    · rename_i how
      cases h
      exact .own (Bool.eq_false_iff.mpr how)

theorem resolveFails_ok (h : (resolveFails s o opcode u scope).run a = (.ok (u', fails), b)) :
    u' = { u with
      guards := u.guards ++ if o.guard = "" then [] else [(o.guard, u.trace.ops.length)] } ∧
      (o.guard ≠ "" → opcode.isGuard) := by
  unfold resolveFails at h
  split at h
  · rename_i hg
    obtain ⟨_, a1, -, h⟩ := run_bind_ok h
    split at h
    · rename_i he
      cases h
      simp_all
    · rename_i he
      split at h
      · cases h
      · cases h
        simp_all
  · split at h
    · cases h
    · cases h
      simp_all

theorem run_op_ok (h : (liftM (BuildM.op pos opcode args d fails) : ResolveM Op).run a = (.ok op, b)) :
    op.opcode = opcode ∧ op.args = args ∧ op.descr = d := by
  change (Except.ok (Op.make a.supply opcode args d fails).1, _) = (Except.ok op, b) at h
  obtain ⟨rfl, -⟩ : (Op.make a.supply opcode args d fails).1 = op ∧ _ := by simpa using h
  unfold Op.make
  split <;> exact ⟨rfl, rfl, rfl⟩

theorem resolveOp_ok (h : (resolveOp s o u scope).run a = (.ok (u', scope'), b)) : ∃ op : Op,
      Opcode.find? o.op = some op.opcode ∧ (o.guard ≠ "" → op.opcode.isGuard) ∧
      op.args.length = o.args.length ∧ (op.opcode = .jump → o.Leads s op.descr) ∧ u' = { u with
        trace := { u.trace with ops := u.trace.ops ++ [some op] }
        guards := u.guards ++ if o.guard = "" then [] else [(o.guard, u.trace.ops.length)]
        jumps := if op.opcode = .jump && o.isForeign s.trace then
          u.jumps ++ [(u.trace.ops.length, o.target)] else u.jumps
        exits := if op.opcode.exitsTrace then u.exits ++ [u.trace.ops.length] else u.exits } := by
  unfold resolveOp at h
  split at h
  · rename_i opcode hoc
    obtain ⟨args, a1, ha, h⟩ := run_bind_ok h
    obtain ⟨d, a2, hd, h⟩ := run_bind_ok h
    obtain ⟨⟨u1, fails⟩, a3, hf, h⟩ := run_bind_ok h
    obtain ⟨op, a4, hop, h⟩ := run_bind_ok h
    obtain ⟨scope1, a5, -, h⟩ := run_bind_ok h
    cases h
    obtain ⟨rfl, hl⟩ := resolveFails_ok hf
    obtain ⟨rfl, rfl, hde'⟩ := run_op_ok hop
    refine ⟨op, hoc, hl, resolveValues_ok ha, fun ho => ?_, rfl⟩
    rw [ho] at hde' hd
    rw [hde', if_neg (by decide)]
    exact resolveDescr_ok hd
  · cases h

def OpSpec.isGuard (o : OpSpec) : Bool := (Opcode.find? o.op).any (·.isGuard)

def OpSpec.isExit (o : OpSpec) : Bool := (Opcode.find? o.op).any (·.exitsTrace)

/-- A trace as it comes out of the first operations of its description. -/
structure Part.Built (t : TraceSpec) (scope : Scope) (os : List OpSpec) (u : Part) : Prop where
  name : u.trace.name = t.name
  inputs : u.trace.inputs = scope.map (some ·.2)
  bridge : u.bridge = t.bridge
  fresh : u.continues = none
  ops : Forall₂ (fun o op => ∃ op', op = some op' ∧ Opcode.find? o.op = some op'.opcode) os
    u.trace.ops
  exits : u.exits = (os.zipIdx.filter (·.1.isExit)).map Prod.snd
  guards : u.guards = (os.zipIdx.filter (·.1.guard ≠ "")).map fun (o, pos) => (o.guard, pos)
  labelled : ∀ o ∈ os, o.guard ≠ "" → o.isGuard

theorem Part.built_start (t : TraceSpec) (scope : Scope) :
    ({ trace := ⟨t.name, scope.map (some ·.2), []⟩, bridge := t.bridge } : Part).Built t scope [] :=
  ⟨rfl, rfl, rfl, rfl, .nil, rfl, rfl, nofun⟩

theorem Part.Built.resolveOp (hu : u.Built t scope os)
    (h : (resolveOp s o u scope1).run a = (.ok (u', scope2), b)) : u'.Built t scope (os ++ [o]) := by
  obtain ⟨op, hf, hl, -, -, rfl⟩ := resolveOp_ok h
  have he : o.isExit = op.opcode.exitsTrace := by simp [OpSpec.isExit, hf]
  refine ⟨hu.name, hu.inputs, hu.bridge, hu.fresh, rel_append hu.ops (.cons ⟨op, rfl, hf⟩ .nil),
    ?_, ?_, ?_⟩
  · simp only [zipIdx_append, filter_append, map_append, hu.exits, ← hu.ops.length_eq, ← he]
    split <;> simp_all
  · simp only [zipIdx_append, filter_append, map_append, hu.guards, ← hu.ops.length_eq]
    split <;> simp_all
  · intro o' ho' hne
    rcases mem_append.mp ho' with ho' | ho'
    · exact hu.labelled o' ho' hne
    · cases mem_singleton.mp ho'
      simpa [OpSpec.isGuard, hf] using hl hne

theorem resolveOps_built (hu : u.Built t scope done)
    (h : (resolveOps s os u scope1).run a = (.ok u', b)) : u'.Built t scope (done ++ os) := by
  induction os generalizing done u scope1 a with
  | nil =>
    cases h
    rwa [append_nil]
  | cons o os ih =>
    obtain ⟨⟨u1, scope2⟩, a1, hop, h⟩ := run_bind_ok h
    rw [append_cons]
    exact ih (hu.resolveOp hop) h

/-- A jump that leaves the choice of its descriptor to its target, and that passes as many values as
its trace has inputs if it goes back there. -/
def OpSpec.Plain (trace : String) (arity : Nat) (o : OpSpec) : Prop :=
  Opcode.find? o.op = some .jump →
    o.descr = "" ∧ (o.isForeign trace = false → o.args.length = arity)

instance (trace : String) (arity : Nat) (o : OpSpec) : Decidable (o.Plain trace arity) :=
  inferInstanceAs (Decidable (_ → _))

/-- A description whose jumps carry what stands for the traces they name, or else are as `own` says. -/
def OpSpec.Routes (s : Surroundings) (own : Op → Prop) (o : OpSpec) : Prop :=
  Opcode.find? o.op = some .jump → ∀ op : Op, op.args.length = o.args.length → o.Leads s op.descr →
    if o.isForeign s.trace = true then ∃ d, op.descr = some d ∧ s.references.lookup o.target = some d
    else own op

theorem OpSpec.Plain.routes (h : o.Plain s.trace arity) :
    o.Routes s fun op => op.descr = none ∧ op.args.length = arity := by
  intro hf op hle hl
  obtain ⟨hde, ha⟩ := h hf
  generalize hd : op.descr = d at hl
  cases hl with
  | declared hne => exact absurd hde hne
  | own ho =>
    rw [if_neg (by simp [ho])]
    exact ⟨hd, hle.trans (ha ho)⟩
  | named ho hr =>
    rw [if_pos ho]
    exact ⟨_, rfl, hr⟩

/-- The jumps of a trace carry what stands for the traces they name, or else are as `own` says. -/
structure Part.Routed (s : Surroundings) (own : Op → Prop) (u : Part) : Prop where
  named : ∀ pos name, (pos, name) ∈ u.jumps → ∃ op d, u.trace.ops[pos]? = some (some op) ∧
    op.opcode = .jump ∧ op.descr = some d ∧ s.references.lookup name = some d
  jump : ∀ pos op, u.trace.ops[pos]? = some (some op) → op.opcode = .jump →
    (∃ name, (pos, name) ∈ u.jumps) ∨ own op

theorem Part.routed_start (s : Surroundings) (own : Op → Prop) (name : String)
    (inputs : List (Option Box)) (bridge : Option BridgeSpec) :
    ({ trace := ⟨name, inputs, []⟩, bridge } : Part).Routed s own where
  named _ _ hm := absurd hm not_mem_nil
  jump _ _ hp := by
    rw [getElem?_nil] at hp
    cases hp

variable {own : Op → Prop} {p : Program} {name : String} {ε : Type} {d : Document}

theorem Part.Routed.resolveOp (hu : u.Routed s own) (hro : o.Routes s own)
    (h : (resolveOp s o u scope).run a = (.ok (u', scope'), b)) : u'.Routed s own := by
  obtain ⟨op, hfi, -, hle, hl, rfl⟩ := resolveOp_ok h
  have hold {pos : Nat} {op' : Op} (hp : u.trace.ops[pos]? = some (some op')) :
      (u.trace.ops ++ [some op])[pos]? = some (some op') :=
    List.getElem?_append_left (List.getElem_of_getElem? hp).1 ▸ hp
  constructor
  case named =>
    intro pos name hm
    have hb (hm : (pos, name) ∈ u.jumps) :
        ∃ op' d, (u.trace.ops ++ [some op])[pos]? = some (some op') ∧ op'.opcode = .jump ∧
          op'.descr = some d ∧ s.references.lookup name = some d := by
      obtain ⟨op', d, hp, hre⟩ := hu.named pos name hm
      exact ⟨op', d, hold hp, hre⟩
    dsimp only at hm
    split at hm
    · rename_i hc
      obtain ⟨ho, hf⟩ : op.opcode = .jump ∧ o.isForeign s.trace = true := by simpa using hc
      rcases mem_append.mp hm with hm | hm
      · exact hb hm
      · cases mem_singleton.mp hm
        have hr := hro (ho ▸ hfi) op hle (hl ho)
        rw [if_pos hf] at hr
        obtain ⟨d, hd, hrf⟩ := hr
        exact ⟨op, d, getElem?_concat_length, ho, hd, hrf⟩
    · exact hb hm
  case jump =>
    intro pos op' hp ho
    dsimp only at hp ⊢
    rcases Nat.lt_trichotomy pos u.trace.ops.length with hlt | rfl | hgt
    · rw [getElem?_append_left hlt] at hp
      refine (hu.jump pos op' hp ho).imp_left fun ⟨name, hm⟩ => ⟨name, ?_⟩
      split
      · exact mem_append_left _ hm
      · exact hm
    · rw [getElem?_concat_length] at hp
      cases hp
      have hr := hro (ho ▸ hfi) op hle (hl ho)
      split at hr
      · rename_i hf
        refine .inl ⟨o.target, ?_⟩
        rw [if_pos (by simp [ho, hf])]
        exact mem_append_right _ (mem_singleton_self _)
      · exact .inr hr
    · rw [getElem?_eq_none (by rw [length_append]; exact hgt)] at hp
      cases hp

theorem Part.Routed.lookup_eq_none (hu : u.Routed s own) (hp : u.trace.ops[pos]? = some (some op))
    (hd : op.descr = none) : u.jumps.lookup pos = none := by
  rw [lookup_eq_none_iff]
  rintro ⟨pos', name⟩ hm
  rw [bne_iff_ne]
  rintro rfl
  obtain ⟨op', d, hp', -, hd', -⟩ := hu.named _ _ hm
  cases hp.symm.trans hp'
  rw [hd] at hd'
  cases hd'

theorem Part.Routed.resolveOps (hu : u.Routed s own) (hr : ∀ o ∈ os, o.Routes s own)
    (h : (resolveOps s os u scope).run a = (.ok u', b)) : u'.Routed s own := by
  induction os generalizing u scope a with
  | nil =>
    cases h
    exact hu
  | cons o os ih =>
    obtain ⟨⟨u1, scope1⟩, a1, hop, h⟩ := run_bind_ok h
    exact ih (hu.resolveOp (hr o mem_cons_self) hop)
      (fun o' ho' => hr o' (mem_cons_of_mem _ ho')) h

/-! ## Traces -/

section

variable {descrs references : List (String × Descr)}

theorem resolveTrace_inv (h : (resolveTrace descrs references t scope).run a = (.ok u, b)) :
    (∃ b', (resolveOps ⟨t.name, descrs, references⟩ t.ops
      { trace := ⟨t.name, scope.map (some ·.2), []⟩, bridge := t.bridge } scope).run a = (.ok u, b')) ∧
    u.trace.validate = .ok () ∧ ¬ (u.isBridge && u.trace.ops.zipIdx.any fun (op, pos) =>
      (op.map (·.opcode)) = some .jump && (u.jumps.lookup pos).isNone) = true := by
  unfold resolveTrace at h
  obtain ⟨u1, a1, ho, h⟩ := run_bind_ok h
  dsimp only at h
  split at h
  · cases h
  · rename_i hva
    obtain ⟨hn, h⟩ := flaw_bind_ok h
    cases h
    refine ⟨⟨_, ho⟩, ?_, hn⟩
    cases hv : u.trace.validate with
    | ok _ => rfl
    | error e => exact absurd hv (hva e)

theorem resolveTrace_built (h : (resolveTrace descrs references t scope).run a = (.ok u, b)) :
    u.Built t scope t.ops :=
  have ⟨⟨_, ho⟩, _⟩ := resolveTrace_inv h
  resolveOps_built (Part.built_start t scope) ho

theorem resolveTrace_routed (hr : ∀ o ∈ t.ops, o.Routes ⟨t.name, descrs, references⟩ own)
    (h : (resolveTrace descrs references t scope).run a = (.ok u, b)) :
    u.Routed ⟨t.name, descrs, references⟩ own :=
  have ⟨⟨_, ho⟩, _⟩ := resolveTrace_inv h
  (Part.routed_start ..).resolveOps hr ho

structure Part.Made (references : List (String × Descr)) (u : Part) : Prop where
  valid : u.trace.validate = .ok ()
  named : ∀ pos name, (pos, name) ∈ u.jumps → ∃ op d, u.trace.ops[pos]? = some (some op) ∧
    op.opcode = .jump ∧ op.descr = some d ∧ references.lookup name = some d
  jump : ∀ pos op, u.trace.ops[pos]? = some (some op) → op.opcode = .jump →
    (∃ name, (pos, name) ∈ u.jumps) ∨
      u.isBridge = false ∧ op.descr = none ∧ op.args.length = u.trace.inputs.length

theorem resolveTrace_ok (hs : scope.length = t.inputs.length)
    (hp : ∀ o ∈ t.ops, o.Plain t.name t.inputs.length)
    (h : (resolveTrace descrs references t scope).run a = (.ok u, b)) : u.Made references := by
  have hr := resolveTrace_routed (fun o ho => (hp o ho).routes) h
  obtain ⟨-, hv, hu⟩ := resolveTrace_inv h
  refine ⟨hv, hr.named, fun pos op hpo ho => ?_⟩
  refine (hr.jump pos op hpo ho).imp_right fun ⟨hd, hl⟩ => ⟨?_, hd, ?_⟩
  · -- a bridge whose jump is not among the named ones is refused
    by_contra his
    refine hu ?_
    rw [Bool.and_eq_true]
    refine ⟨by simpa using his, any_eq_true.mpr ⟨(some op, pos), ?_, ?_⟩⟩
    · exact mk_mem_zipIdx_iff_getElem?.mpr hpo
    · simp [ho, hr.lookup_eq_none hpo hd]
  · rw [hl, (resolveTrace_built h).inputs, length_map, hs]

end

/-! ## Bridges -/

theorem require_eq_ok {o : Option α} {x : α} (h : (require o : Except (Abort ε) α) = .ok x) :
    o = some x := by
  cases o with
  | none => cases h
  | some y =>
    cases h
    rfl

theorem forall₂_of_mapM_ok {f : α → Except ε β} {xs : List α} {ys : List β} (h : xs.mapM f = .ok ys) :
    Forall₂ (fun x y => f x = .ok y) xs ys := by
  induction xs generalizing ys with
  | nil =>
    cases h
    exact .nil
  | cons x xs ih =>
    rw [mapM_cons] at h
    obtain ⟨y, hy, h⟩ := bind_eq_ok.mp h
    obtain ⟨ys', hys, h⟩ := bind_eq_ok.mp h
    cases h
    exact .cons hy (ih hys)

theorem forIn_check_ok {P : α → Prop} {f : α → Unit → Except ε (ForInStep Unit)}
    (hf : ∀ x step, f x ⟨⟩ = .ok step → P x ∧ step = .yield ⟨⟩) {l : List α}
    (h : forIn l ⟨⟩ f = .ok z) : ∀ x ∈ l, P x := by
  induction l with
  | nil => exact nofun
  | cons x l ih =>
    rw [forIn_cons] at h
    obtain ⟨step, hs, h⟩ := bind_eq_ok.mp h
    obtain ⟨hx, rfl⟩ := hf x step hs
    exact forall_mem_cons.mpr ⟨hx, ih h⟩

theorem checkInputs_ok {guard : Op} {inputs : List (Option Box)}
    (h : checkInputs name guard inputs = .ok ()) :
    guard.exitValues.map (·.map Value.kind) = inputs.map (·.map Box.kind) := by
  unfold checkInputs at h
  obtain ⟨kinds, hk, h⟩ := bind_eq_ok.mp h
  obtain ⟨takes, ht, h⟩ := bind_eq_ok.mp h
  obtain ⟨hle, h⟩ := guard_bind_eq_ok.mp h
  obtain ⟨_, hl, -⟩ := bind_eq_ok.mp h
  have ha := forIn_check_ok (P := fun x => x.1.1 = x.1.2) (fun x step hs => by
    obtain ⟨heq, ⟨⟩⟩ := guard_bind_eq_ok.mp hs
    exact ⟨not_not.mp heq, rfl⟩) hl
  have ht : inputs.map (·.map Box.kind) = takes.map some := by
    rw [← forall₂_eq_eq_eq, forall₂_map_left_iff, forall₂_map_right_iff]
    exact (forall₂_of_mapM_ok ht).imp fun _ _ => require_eq_ok
  have heq : takes = kinds := by
    refine ext_getElem (not_not.mp hle) fun i h1 h2 => ha ((takes[i], kinds[i]), i) ?_
    exact mk_mem_zipIdx_iff_getElem?.mpr (getElem?_zip_eq_some.mpr
      ⟨getElem?_eq_getElem h1, getElem?_eq_getElem h2⟩)
  rw [ht, heq]
  exact Eval.map_of_mapM (require_eq_ok hk)

/-- The guard at a position is the one that bears a label, or, if none does, the one whose number the
label is. -/
def Part.Picks (u : Part) (label : String) (pos : Nat) : Prop :=
  u.guards.lookup label = some pos ∨ u.guards.lookup label = none ∧ ∃ n : Nat,
    Literal.readPlain label = .ok n ∧
      (u.exits.filter fun pos => (u.op? pos).any (·.opcode.isGuard))[n]? = some pos

theorem guardOf_ok (h : guardOf p name spec = .ok (i, pos)) : p.index? spec.trace = some i ∧
      ∃ owner, p.parts[i]? = some owner ∧ owner.Picks spec.guard pos := by
  unfold guardOf at h
  split at h
  · rename_i i hi
    split at h
    · rename_i owner ho
      split at h
      · rename_i pos hp
        cases h
        exact ⟨hi, owner, ho, .inl hp⟩
      · rename_i hno
        split at h
        · cases h
        · rename_i n hn
          dsimp only at h
          split at h
          · rename_i pos hp
            cases h
            split at hp
            · cases hp
            · rename_i hne
              refine ⟨hi, owner, ho, .inr ⟨hno, n.toNat, ?_, hp⟩⟩
              rw [hn, Int.toNat_of_nonneg (by omega)]
          · cases h
    · cases h
  · cases h

/-- What attaching does to a trace: a bridge gets the guard that it continues, one whose fail values its
inputs take. -/
structure Part.Attached (p : Program) (u u' : Part) : Prop where
  same : ∃ continues, u' = { u with continues }
  loop : u.isBridge = false → u' = u
  bridge : ∀ spec, u.bridge = some spec → ∃ i pos owner op, u'.continues = some (i, pos) ∧
    p.index? spec.trace = some i ∧ p.parts[i]? = some owner ∧ owner.Picks spec.guard pos ∧
      owner.trace.ops[pos]? = some (some op) ∧
        op.exitValues.map (·.map Value.kind) = u.trace.inputs.map (·.map Box.kind)

theorem attach_ok (h : attach p u = .ok u') : u.Attached p u' := by
  unfold attach at h
  split at h
  · rename_i hn
    cases h
    refine ⟨⟨_, rfl⟩, fun _ => rfl, fun spec hs => ?_⟩
    cases hn.symm.trans hs
  · rename_i spec hs
    obtain ⟨⟨i, pos⟩, hg, h⟩ := bind_eq_ok.mp h
    obtain ⟨guard, hop, h⟩ := bind_eq_ok.mp h
    obtain ⟨_, hin, h⟩ := bind_eq_ok.mp h
    cases h
    refine ⟨⟨_, rfl⟩, fun hl => ?_, fun spec' hs' => ?_⟩
    · rw [Part.isBridge, hs] at hl
      cases hl
    · cases hs.symm.trans hs'
      obtain ⟨hid, owner, ho, hp⟩ := guardOf_ok (mapError_eq_ok.mp hg)
      obtain ⟨owner', ho', hop⟩ := Option.bind_eq_some_iff.mp (require_eq_ok hop)
      cases ho.symm.trans ho'
      exact ⟨i, pos, owner, guard, rfl, hid, ho, hp, Option.join_eq_some_iff.mp hop, checkInputs_ok hin⟩

theorem run_ofExcept_ok (h : (MonadExcept.ofExcept x : ResolveM α).run a = (.ok v, b)) : x = .ok v := by
  cases x with
  | error e => cases h
  | ok w =>
    cases h
    rfl

theorem run_liftM_ok {x : Except (Abort Error) α} {v : α}
    (h : (liftM x : ResolveM α).run a = (.ok v, b)) : x = .ok v := by
  cases x with
  | error e => cases h
  | ok w =>
    cases h
    rfl

/-! ## Documents -/

def StandsFor (d : Descr) (k : Nat) (u : Part) : Prop :=
  ∃ t, d = .target t ∧ t.identity = k ∧ u.trace.inputs.map (·.map Box.kind) = t.kinds.map some

/-- A program of valid traces in which a jump that names a trace carries a descriptor of that trace. -/
structure Wired (p : Program) : Prop where
  valid : ∀ u ∈ p.parts, u.trace.validate = .ok ()
  named : ∀ u ∈ p.parts, ∀ pos name, (pos, name) ∈ u.jumps → ∃ op d k v,
    u.trace.ops[pos]? = some (some op) ∧ op.opcode = .jump ∧ op.descr = some d ∧
      p.index? name = some k ∧ p.parts[k]? = some v ∧ StandsFor d k v

/-- A program whose parts refer to each other as they should. -/
structure Sound (p : Program) : Prop extends Wired p where
  jump : ∀ u ∈ p.parts, ∀ pos op, u.trace.ops[pos]? = some (some op) → op.opcode = .jump →
    (∃ name, (pos, name) ∈ u.jumps) ∨
      u.isBridge = false ∧ op.descr = none ∧ op.args.length = u.trace.inputs.length
  continues : ∀ u ∈ p.parts, ∀ i pos, u.continues = some (i, pos) → u.isBridge = true ∧
    ∃ owner op, p.parts[i]? = some owner ∧ owner.trace.ops[pos]? = some (some op) ∧
      op.exitValues.map (·.map Value.kind) = u.trace.inputs.map (·.map Box.kind)

def Document.Plain (d : Document) : Prop :=
  ∀ t ∈ d.traces, ∀ o ∈ t.ops, o.Plain t.name t.inputs.length

instance (d : Document) : Decidable d.Plain :=
  inferInstanceAs (Decidable (∀ t ∈ d.traces, ∀ o ∈ t.ops, o.Plain t.name t.inputs.length))

def references (ts : List TraceSpec) (scopes : List Scope) : List (String × Descr) :=
  (ts.zip scopes).zipIdx.map fun ((t, s), i) => (t.name, reference t.name i s)

theorem lookup_references {d : Descr} (h : (references ts scopes).lookup name = some d) :
    ∃ i t s, ts[i]? = some t ∧ scopes[i]? = some s ∧ t.name = name ∧ d = reference name i s := by
  obtain ⟨before, after, heq, -⟩ := lookup_eq_some_iff.mp h
  have hm : (name, d) ∈ references ts scopes := by simp [heq]
  obtain ⟨⟨⟨t, s⟩, i⟩, hi, hd⟩ := mem_map.mp hm
  obtain ⟨ht, hs⟩ := getElem?_zip_eq_some.mp (mem_zipIdx_iff_getElem?.mp hi)
  cases hd
  exact ⟨i, t, s, ht, hs, rfl, rfl⟩

theorem index?_eq_some (hn : (p.parts.map (·.trace.name)).Nodup) {k : Nat}
    (hv : p.parts[k]? = some v) : p.index? v.trace.name = some k := by
  obtain ⟨hk, rfl⟩ := List.getElem_of_getElem? hv
  refine findIdx?_eq_some_iff_getElem.mpr ⟨hk, decide_eq_true rfl, fun j hj heq => ?_⟩
  have hl : (p.parts.map (·.trace.name)).length = p.parts.length := length_map _
  have hs : (p.parts.map (·.trace.name))[j] = (p.parts.map (·.trace.name))[k] := by
    simpa using heq
  exact Nat.ne_of_lt hj (hn.getElem_inj_iff.mp hs)

theorem internDescrs_ok (h : internDescrs specs cache = .ok (named, cache')) :
    ∀ x ∈ named, ∃ d, x.2 = .interned d := by
  unfold internDescrs at h
  have hst : ∀ x ∈ (([], cache) : List (String × Descr) × Descriptors).1, ∃ d, x.2 = .interned d := by
    simp
  generalize (([], cache) : List (String × Descr) × Descriptors) = start at h hst
  induction specs generalizing start with
  | nil =>
    cases h
    exact hst
  | cons spec specs ih =>
    obtain ⟨next, hs, h⟩ := bind_eq_ok.mp h
    refine ih next h ?_
    dsimp only at hs
    split at hs
    · cases hs
    · cases hs
      exact forall_mem_append.mpr ⟨hst, forall_mem_singleton.mpr ⟨_, rfl⟩⟩

/-- A program as it is made from a document, with its traces before and after bridges are attached. -/
structure Stages (d : Document) (scopes : List Scope) (parts : List Part) (p : Program) : Prop where
  declared : ∀ x ∈ p.descrs, ∃ d, x.2 = .interned d
  inputs : Forall₂ (fun t s => s.length = t.inputs.length) d.traces scopes
  names : (d.traces.map (·.name)).Nodup
  traces : Forall₂ (fun ts u => ∃ a b,
    (resolveTrace p.descrs (references d.traces scopes) ts.1 ts.2).run a = (.ok u, b))
      (d.traces.zip scopes) parts
  attached : Forall₂ (Part.Attached ⟨p.descrs, parts⟩) parts p.parts

theorem resolveParts_stages (h : (resolveParts d cache).run a = (.ok (p, cache'), b)) :
    ∃ scopes parts, Stages d scopes parts p := by
  unfold resolveParts at h
  dsimp only at h
  obtain ⟨-, h⟩ := flaw_bind_ok h
  obtain ⟨-, h⟩ := flaw_bind_ok h
  obtain ⟨⟨descrs, cache1⟩, a1, hd, h⟩ := run_bind_ok h
  obtain ⟨scopes, a2, hs, h⟩ := run_bind_ok h
  obtain ⟨parts, a3, hp, h⟩ := run_bind_ok h
  obtain ⟨parts', a4, ha, h⟩ := run_bind_ok h
  cases h
  obtain ⟨hin, hn, -⟩ := resolveAllInputs_ok hs
  exact ⟨scopes, parts, internDescrs_ok (mapError_eq_ok.mp (run_liftM_ok hd)), hin, hn, run_mapM_ok hp,
    (run_mapM_ok ha).imp fun _ _ ⟨_, _, h⟩ => attach_ok (run_ofExcept_ok h)⟩

theorem resolve_parts (h : (resolve d cache).run a = (.ok (p, cache'), b)) :
    (resolveParts d cache).run a = (.ok (p, cache'), b) ∧
      p.bridges.length = p.parts.length - p.loops.length := by
  unfold resolve at h
  obtain ⟨⟨p', cache1⟩, a1, hp, h⟩ := run_bind_ok h
  obtain ⟨hl, h⟩ := flaw_bind_ok h
  cases h
  exact ⟨hp, not_not.mp hl⟩

namespace Stages

variable {scopes : List Scope} {parts : List Part} {k : Nat}

section

variable (h : Stages d scopes parts p)
include h

theorem built (hu : parts[k]? = some u) : ∃ t s, d.traces[k]? = some t ∧
    scopes[k]? = some s ∧ u.Built t s t.ops ∧ (d.Plain → u.Made (references d.traces scopes)) := by
  obtain ⟨⟨t, s⟩, hts, _, _, hr⟩ := exists_of_forall₂_right h.traces hu
  obtain ⟨ht, hs⟩ := getElem?_zip_eq_some.mp hts
  obtain ⟨s', hs', hl⟩ := exists_of_forall₂_left h.inputs ht
  cases hs.symm.trans hs'
  exact ⟨t, s, ht, hs, resolveTrace_built hr, fun hp =>
    resolveTrace_ok hl (hp t (mem_of_getElem? ht)) hr⟩

theorem exists_made (hp : d.Plain) (hu' : u' ∈ p.parts) :
    ∃ u : Part, u.Attached ⟨p.descrs, parts⟩ u' ∧ u.continues = none ∧
      u.Made (references d.traces scopes) := by
  obtain ⟨k, hk⟩ := mem_iff_getElem?.mp hu'
  obtain ⟨u, hu, ha⟩ := exists_of_forall₂_right h.attached hk
  obtain ⟨t, s, -, -, hb, hm⟩ := h.built hu
  exact ⟨u, ha, hb.fresh, hm hp⟩

theorem outline :
    p.parts.map (fun u => (u.trace.name, u.bridge)) = d.traces.map fun t => (t.name, t.bridge) := by
  have hl : p.parts.length = d.traces.length := by
    rw [← h.attached.length_eq, ← h.traces.length_eq, length_zip, ← h.inputs.length_eq, Nat.min_self]
  refine ext_getElem? fun k => ?_
  rw [getElem?_map, getElem?_map]
  cases hk : p.parts[k]? with
  | none =>
    rw [getElem?_eq_none (hl ▸ getElem?_eq_none_iff.mp hk)]
    rfl
  | some u' =>
    obtain ⟨u, hu, ha⟩ := exists_of_forall₂_right h.attached hk
    obtain ⟨t, s, ht, -, hb, -⟩ := h.built hu
    obtain ⟨c, rfl⟩ := ha.same
    rw [ht]
    exact congrArg some (Prod.ext hb.name hb.bridge)

theorem nodup : (p.parts.map (·.trace.name)).Nodup := by
  have hn := congrArg (map Prod.fst) h.outline
  rw [map_map, map_map] at hn
  exact hn ▸ h.names

theorem standsFor {desc : Descr} (hr : (references d.traces scopes).lookup name = some desc) :
    ∃ k v, p.index? name = some k ∧ p.parts[k]? = some v ∧ StandsFor desc k v := by
  obtain ⟨k, t, s, ht, hs, rfl, rfl⟩ := lookup_references hr
  obtain ⟨v, hv, -⟩ := exists_of_forall₂_left h.traces
    (getElem?_zip_eq_some (z := (t, s)).mpr ⟨ht, hs⟩)
  obtain ⟨t', s', ht', hs', hb, -⟩ := h.built hv
  cases ht.symm.trans ht'
  cases hs.symm.trans hs'
  obtain ⟨v', hv', ha⟩ := exists_of_forall₂_left h.attached hv
  obtain ⟨c, rfl⟩ := ha.same
  have hin := index?_eq_some h.nodup hv'
  refine ⟨k, _, hb.name ▸ hin, hv', _, rfl, rfl, ?_⟩
  rw [hb.inputs]
  simp

end

end Stages

/-- **Documents resolve to sound programs** if their jumps are plain. -/
theorem resolve_ok (hpl : d.Plain) (h : (resolve d cache).run a = (.ok (p, cache'), b)) : p.Sound := by
  obtain ⟨scopes, parts, hp⟩ := resolveParts_stages (resolve_parts h).1
  refine { valid := ?valid, named := ?named, jump := ?jump, continues := ?continues }
  case valid =>
    intro u' hu'
    obtain ⟨u, ha, -, hm⟩ := hp.exists_made hpl hu'
    obtain ⟨c, rfl⟩ := ha.same
    exact hm.valid
  case jump =>
    intro u' hu'
    obtain ⟨u, ha, -, hm⟩ := hp.exists_made hpl hu'
    obtain ⟨c, rfl⟩ := ha.same
    exact hm.jump
  case named =>
    intro u' hu' pos name hme
    obtain ⟨u, ha, -, hm⟩ := hp.exists_made hpl hu'
    obtain ⟨c, rfl⟩ := ha.same
    obtain ⟨op, desc, hop, ho, hd, hr⟩ := hm.named pos name hme
    obtain ⟨k, v, hk, hv, hst⟩ := hp.standsFor hr
    exact ⟨op, desc, k, v, hop, ho, hd, hk, hv, hst⟩
  case continues =>
    intro u' hu' i pos hc
    obtain ⟨u, ha, hf, -⟩ := hp.exists_made hpl hu'
    cases hs : u.bridge with
    | none =>
      rw [ha.loop (by simp [Part.isBridge, hs]), hf] at hc
      cases hc
    | some spec =>
      obtain ⟨_, _, owner, op, hc', -, how, -, hop, hki⟩ := ha.bridge spec hs
      cases hc.symm.trans hc'
      obtain ⟨c, rfl⟩ := ha.same
      obtain ⟨owner', how', ha'⟩ := exists_of_forall₂_left hp.attached how
      obtain ⟨c', rfl⟩ := ha'.same
      exact ⟨by simp [Part.isBridge, hs], _, op, how', hop, hki⟩

end TraceCompiler.Program
