import TraceCompiler.Proofs.Program.Linking

/-! # Linking keeps the meaning of a program

Linking gives the jumps of a program other descriptors, and the traces that the descriptors stand for
are looked up anew.
-/

namespace TraceCompiler

def Op.redirect (f : Descr → Descr) (op : Op) : Op :=
  if op.opcode = .jump then { op with descr := op.descr.map f } else op

@[simp] theorem Op.opcode_redirect (f : Descr → Descr) (op : Op) : (op.redirect f).opcode = op.opcode := by
  unfold redirect
  split <;> rfl

@[simps] def Trace.redirect (f : Descr → Descr) (t : Trace) : Trace :=
  { t with ops := t.ops.map (Option.map (Op.redirect f)) }

section

variable {f : Descr → Descr} {op : Op}

@[simp] theorem Op.args_redirect (f : Descr → Descr) (op : Op) : (op.redirect f).args = op.args := by
  unfold redirect
  split <;> rfl

@[simp] theorem Op.failArgs_redirect (f : Descr → Descr) (op : Op) :
    (op.redirect f).failArgs = op.failArgs := by
  unfold redirect
  split <;> rfl

@[simp] theorem Op.result_redirect (f : Descr → Descr) (op : Op) : (op.redirect f).result = op.result := by
  unfold redirect
  split <;> rfl

/-- A jump takes the descriptor of another target that takes the same. -/
def Op.Suits (f : Descr → Descr) (op : Op) : Prop :=
  op.opcode = .jump → ∀ d t, op.descr = some d → (f d).target? = some t →
    ∃ t0, d.target? = some t0 ∧ t.kinds = t0.kinds

theorem Op.Checked.redirect (h : op.Checked defined prev next) (hf : op.Suits f) :
    (op.redirect f).Checked defined (prev.map (Op.redirect f)) (next.map (Op.redirect f)) where
  valid := by simpa using h.valid
  typed := by
    obtain ⟨vals, hv, hty, hj⟩ := h.typed
    unfold Op.redirect
    split
    · rename_i ho
      refine ⟨vals, hv, ?_, fun _ t ht => ?_⟩
      · constructor <;> simp [ho, Opcode.isVariadic]
      · obtain ⟨d', hd', ht⟩ := Option.bind_eq_some_iff.mp ht
        obtain ⟨d, hd, rfl⟩ := Option.map_eq_some_iff.mp hd'
        obtain ⟨t0, ht0, hk⟩ := hf ho d t hd ht
        exact hk.trans (hj ho t0 (by simp [hd, ht0]))
    · exact ⟨vals, hv, hty, hj⟩
  args := by simpa using h.args
  fails := by simpa using h.fails
  failArgs := by simpa using h.failArgs
  noFails := by simpa using h.noFails
  noResult := by simpa using h.noResult
  result := by simpa using h.result
  overflow := by simpa using h.overflow
  overflowGuard := by simpa using h.overflowGuard
  final := by simpa using h.final

theorem Checks.redirect (h : Checks defined prev ops) (hf : ∀ op ∈ ops, op.Suits f) :
    Checks defined (prev.map (Op.redirect f)) (ops.map (Op.redirect f)) := by
  induction h with
  | nil => exact .nil
  | @cons _ _ op ops hop _ ih =>
    obtain ⟨hop', ho⟩ := List.forall_mem_cons.mp hf
    refine .cons ?_ ?_
    · rw [List.head?_map]
      exact hop.redirect hop'
    · rw [Op.result_redirect]
      exact ih ho

theorem Trace.validate_redirect {t : Trace} (h : t.validate = .ok ())
    (hf : ∀ op, some op ∈ t.ops → op.Suits f) : (t.redirect f).validate = .ok () := by
  obtain ⟨inputs, ops, hin, ho, hn, hk, hne, hc⟩ := validate_ok h
  have heq : t.redirect f = ⟨t.name, inputs.map some, (ops.map (Op.redirect f)).map some⟩ := by
    simp [Trace.redirect, hin, ho]
  rw [heq, validate_eq hn hk (by simpa using hne)]
  exact checkOps_of (hc.redirect fun op hop => hf op (by simpa [ho] using hop))

end

/-! ## Runs -/

namespace Eval

variable {ω : Type} {f : Descr → Descr} {l l' : Linked} {h : Host ω} {id pos max left loop : Nat}
  {op : Op} {p : Point} {m m' : Machine ω} {args : List Word}

/-- Traces whose jumps lead, with other descriptors, to where they led. -/
structure Redirects (f : Descr → Descr) (l l' : Linked) : Prop where
  traces : l'.traces = l.traces.map (Trace.redirect f)
  bridges : l'.bridges = l.bridges
  target : ∀ t ∈ l.traces, ∀ op, some op ∈ t.ops → op.opcode = .jump → ∀ d, op.descr = some d →
    l'.target? (f d) = l.target? d ∧ (l.target? d = none → (f d).text = d.text)

/-- The operations that are left at a point are those of some trace. -/
def Point.Stands (l : Linked) (p : Point) : Prop := ∀ o ∈ p.rest, ∃ t ∈ l.traces, o ∈ t.ops

@[simps] def Point.redirect (f : Descr → Descr) (p : Point) : Point :=
  { p with trace := p.trace.redirect f, rest := p.rest.map (Option.map (Op.redirect f)) }

namespace Redirects

theorem control_eq (hl : Redirects f l l') (ht : t ∈ l.traces) (hop : some op ∈ t.ops) :
    control l' h id pos (op.redirect f) = control l h id pos op := by
  have hb : l'.bridge? id pos = l.bridge? id pos := by rw [Linked.bridge?, hl.bridges]; rfl
  unfold Op.redirect
  split
  · rename_i ho
    unfold control
    simp only [ho, if_true, reduceCtorEq]
    refine bind_congr fun vals => ?_
    cases hd : op.descr with
    | none => rfl
    | some d =>
      obtain ⟨hta, hte⟩ := hl.target t ht op hop ho d hd
      dsimp only [Option.map_some]
      rw [hta]
      cases hk : l.target? d with
      | none => rw [hte hk]
      | some k => rfl
  · rename_i ho
    unfold control
    rw [if_neg ho, if_neg ho, hb]

theorem enter_eq (hl : Redirects f l l') : enter l' id loop inBridge args m =
      ((enter l id loop inBridge args m).1.map (Point.redirect f), (enter l id loop inBridge args m).2) := by
  unfold enter
  rw [hl.traces, List.getElem?_map]
  cases l.traces[id]? with
  | none => rfl
  | some t =>
    dsimp only [Option.map_some, Trace.redirect]
    split <;> rfl

theorem follow_eq (hl : Redirects f l l') : follow l' (p.redirect f) dest args m =
      ((follow l p dest args m).1.map (Point.redirect f), (follow l p dest args m).2) := by
  unfold follow
  cases dest with
  | some dest => exact hl.enter_eq
  | none =>
    rw [Point.redirect_inBridge, Point.redirect_loop]
    cases p.inBridge with
    | true => rfl
    | false => exact hl.enter_eq

end Redirects

theorem enter_stands (he : enter l id loop inBridge args m = (.ok p, m')) : p.Stands l := by
  unfold enter at he
  split at he
  · cases he
  · rename_i t ht
    split at he
    · cases he
    · cases he
      exact fun o ho => ⟨t, List.mem_of_getElem? ht, ho⟩

theorem follow_stands (hf : follow l p dest args m = (.ok p', m')) : p'.Stands l := by
  unfold follow at hf
  split at hf
  · exact enter_stands hf
  · split at hf
    · cases hf
    · exact enter_stands hf

theorem Redirects.go_eq (hl : Redirects f l l') (hp : p.Stands l) :
    go l' h max left (p.redirect f) m = go l h max left p m := by
  induction left generalizing p m with
  | zero =>
    unfold go
    rcases hr : p.rest with _ | ⟨_ | op, rest⟩ <;> simp [hr]
  | succ left ih =>
    rcases hr : p.rest with _ | ⟨_ | op, rest⟩
    · unfold go
      simp [hr]
    · unfold go
      simp [hr]
    · obtain ⟨t, ht, hop⟩ := hp (some op) (by simp [hr])
      have hr' : (p.redirect f).rest = some (op.redirect f) :: rest.map (Option.map (Op.redirect f)) := by
        simp [hr]
      unfold go
      rw [hr, hr']
      simp only [Point.redirect_id, Point.redirect_pos, Point.redirect_trace, Point.redirect_loop,
        Point.redirect_inBridge, Trace.redirect_name, Op.opcode_redirect, hl.control_eq ht hop]
      rcases (control l h p.id p.pos op).run m with ⟨e | r, m'⟩
      · rfl
      · cases r with
        | next => exact ih (p := { p with pos := p.pos + 1, rest }) fun o ho => hp o (by simp [hr, ho])
        | leave values kinds => rfl
        | transfer dest words =>
          dsimp only
          rw [hl.follow_eq]
          rcases hf : follow l p dest words m' with ⟨e | p', m''⟩
          · rfl
          · exact ih (follow_stands hf)

/-- **Runs do not depend on the descriptors of jumps.** -/
theorem Redirects.run_eq (hl : Redirects f l l') (maxSteps : Int) (start : Nat) (world : ω) :
    run l' h maxSteps start args world = run l h maxSteps start args world := by
  unfold run
  rw [hl.enter_eq]
  rcases he : enter l start start false args (⟨∅, false, world⟩ : Machine ω) with ⟨e | p, m⟩
  · rfl
  · dsimp only [Except.map]
    rw [hl.go_eq (enter_stands he)]

end Eval

namespace Program

open Eval (Linked Redirects)

variable {p : Program} {r : String → Except String (Option Descr)} {u v : Part} {name : String}
  {k : Nat} {d : Descr} {op : Op}

/-! ## Linked traces -/

theorem linkJumps_eq (js : List (Nat × String)) (g : Nat → Option Descr)
    (hg : ∀ pos name, (pos, name) ∈ js → r name = .ok (g pos)) :
    Part.linkJumps r js u = (.ok (), { u with trace := { u.trace with
      ops := u.trace.ops.mapIdx fun pos o =>
        if pos ∈ js.map Prod.fst then o.map ({ · with descr := g pos }) else o } }) := by
  induction js generalizing u with
  | nil =>
    have ho : u.trace.ops.mapIdx (fun _ o => o) = u.trace.ops := List.ext_getElem? fun i => by simp
    simp [Part.linkJumps, ho]
  | cons j js ih =>
    obtain ⟨pos, name⟩ := j
    rw [Part.linkJumps, hg pos name List.mem_cons_self]
    dsimp only
    rw [ih fun pos name hm => hg pos name (List.mem_cons_of_mem _ hm)]
    have ho : ((u.setDescr pos (g pos)).trace.ops.mapIdx fun i o =>
        if i ∈ js.map Prod.fst then o.map ({ · with descr := g i }) else o) =
          u.trace.ops.mapIdx fun i o =>
            if i ∈ ((pos, name) :: js).map Prod.fst then o.map ({ · with descr := g i }) else o := by
      refine List.ext_getElem? fun i => ?_
      simp only [Part.setDescr, List.getElem?_mapIdx, List.getElem?_modify, List.map_cons, List.mem_cons]
      rcases u.trace.ops[i]? with _ | _ | o
      · rfl
      · simp
      · by_cases hi : i = pos
        · simp [hi]
        · simp only [Option.map_some, if_neg (Ne.symm hi)]
          exact congrArg some (if_congr (or_iff_right hi).symm rfl rfl)
    rw [ho]
    rfl

/-- Besides the jumps that name a trace there are only those that carry a declared descriptor or none. -/
structure Declared (p : Program) : Prop extends Wired p where
  other : ∀ u ∈ p.parts, ∀ pos op, u.trace.ops[pos]? = some (some op) → op.opcode = .jump →
    (∃ name, (pos, name) ∈ u.jumps) ∨ ∀ d, op.descr = some d → ∃ i, d = .interned i

/-- Every trace is given a descriptor of its own, which takes what the trace takes. -/
structure Assigns (p : Program) (r : String → Except String (Option Descr)) : Prop where
  target : ∀ u ∈ p.parts, ∃ t, r u.trace.name = .ok (some (.target t)) ∧
    u.trace.inputs.map (·.map Box.kind) = t.kinds.map some
  inj : ∀ u ∈ p.parts, ∀ v ∈ p.parts, r u.trace.name = r v.trace.name → u.trace.name = v.trace.name

def replacement (p : Program) (r : String → Except String (Option Descr)) (d : Descr) : Descr :=
  match d with
  | .target t => ((p.parts[t.identity]?).bind fun v => (r v.trace.name).toOption.join).getD d
  | _ => d

def linkAll (p : Program) (r : String → Except String (Option Descr)) : Program :=
  { p with parts := p.parts.map fun u => (u.link r).2 }

theorem name_of_index? (hk : p.index? name = some k) (hv : p.parts[k]? = some v) :
    v.trace.name = name := by
  obtain ⟨hlt, hn, -⟩ := List.findIdx?_eq_some_iff_getElem.mp hk
  obtain ⟨_, rfl⟩ := List.getElem_of_getElem? hv
  exact of_decide_eq_true hn

theorem replacement_eq (hr : p.Assigns r) (hk : p.index? name = some k) (hv : p.parts[k]? = some v)
    (hd : StandsFor d k v) : ∃ t, r name = .ok (some (.target t)) ∧ p.replacement r d = .target t ∧
      ∃ t0, d.target? = some t0 ∧ t.kinds = t0.kinds := by
  obtain ⟨t0, rfl, rfl, hki⟩ := hd
  obtain ⟨t, ht, hki'⟩ := hr.target v (List.mem_of_getElem? hv)
  rw [name_of_index? hk hv] at ht
  refine ⟨t, ht, ?_, t0, rfl, ?_⟩
  · simp [replacement, hv, name_of_index? hk hv, ht, Except.toOption]
  · exact (List.map_injective_iff.mpr (Option.some_injective _)) (hki'.symm.trans hki)

namespace Declared

section

variable (hp : p.Declared)
include hp

theorem redirect_eq (hu : u ∈ p.parts) {pos : Nat} (hop : u.trace.ops[pos]? = some (some op))
    (hpo : pos ∉ u.jumps.map Prod.fst) : op.redirect (p.replacement r) = op := by
  unfold Op.redirect
  split
  · rename_i ho
    rcases hp.other u hu pos op hop ho with ⟨name, hn⟩ | hde
    · exact absurd (List.mem_map_of_mem hn) hpo
    · have hd : op.descr.map (p.replacement r) = op.descr := by
        cases hd : op.descr with
        | none => rfl
        | some d =>
          obtain ⟨j, rfl⟩ := hde d hd
          rfl
      rw [hd]
  · rfl

section

variable (hr : p.Assigns r)
include hr

theorem suits (hu : u ∈ p.parts) (hop : some op ∈ u.trace.ops) : op.Suits (p.replacement r) := by
  intro ho d t hd ht
  obtain ⟨pos, hpo⟩ := List.mem_iff_getElem?.mp hop
  rcases hp.other u hu pos op hpo ho with ⟨name, hn⟩ | hde
  · obtain ⟨op', d', k, v, hop', -, hd', hk, hv, hs⟩ := hp.named u hu pos name hn
    cases hpo.symm.trans hop'
    cases hd.symm.trans hd'
    obtain ⟨t', -, hre, hki⟩ := replacement_eq hr hk hv hs
    rw [hre] at ht
    cases ht
    exact hki
  · obtain ⟨i, rfl⟩ := hde d hd
    cases ht

/-- **Traces can be linked**, and nothing but the descriptors of their jumps changes. -/
theorem link_eq (hu : u ∈ p.parts) :
    u.link r = (.ok (), { u with trace := u.trace.redirect (p.replacement r) }) := by
  have hj := linkJumps_eq (r := r) (u := u) u.jumps
    (fun pos => ((u.op? pos).bind (·.descr)).map (p.replacement r)) fun pos name hm => by
      obtain ⟨op, d, k, v, hop, -, hd, hk, hv, hs⟩ := hp.named u hu pos name hm
      obtain ⟨t, ht, hre, -⟩ := replacement_eq hr hk hv hs
      simp [Part.op?, hop, hd, hre, ht]
  have hos : (u.trace.ops.mapIdx fun pos o => if pos ∈ u.jumps.map Prod.fst then
      o.map ({ · with descr := ((u.op? pos).bind (·.descr)).map (p.replacement r) }) else o) =
        u.trace.ops.map (Option.map (Op.redirect (p.replacement r))) := by
    refine List.ext_getElem? fun i => ?_
    rw [List.getElem?_mapIdx, List.getElem?_map]
    rcases hi : u.trace.ops[i]? with _ | _ | op
    · rfl
    · simp
    · simp only [Option.map_some, Part.op?, hi, Option.join_some, Option.bind_some]
      split
      · rename_i hm
        obtain ⟨⟨_, name⟩, hn, rfl⟩ := List.mem_map.mp hm
        obtain ⟨op', _, _, _, hop', ho, -⟩ := hp.named u hu _ name hn
        cases hi.symm.trans hop'
        simp [Op.redirect, ho]
      · rename_i hm
        rw [hp.redirect_eq hu hi hm]
  rw [hos] at hj
  unfold Part.link
  rw [hj]
  dsimp only
  rw [← Trace.redirect, Trace.validate_redirect (hp.valid u hu) fun _ => hp.suits hr hu]

theorem linkAll_eq : p.linkAll r =
    { p with parts := p.parts.map fun u => { u with trace := u.trace.redirect (p.replacement r) } } := by
  unfold linkAll
  rw [List.map_congr_left fun u hu => by rw [hp.link_eq hr hu]]

theorem mem_jumpTable_linkAll :
    (d, name) ∈ (p.linkAll r).jumpTable ↔ ∃ d0, (d0, name) ∈ p.jumpTable ∧ d = p.replacement r d0 := by
  rw [hp.linkAll_eq hr, mem_jumpTable]
  constructor
  · rintro ⟨_, hu', pos, op', hn, hop', hd⟩
    obtain ⟨u, hu, rfl⟩ := List.mem_map.mp hu'
    obtain ⟨op, d0, _, _, hop, ho, hd0, -⟩ := hp.named u hu pos name hn
    obtain rfl : op.redirect (p.replacement r) = op' := by simpa [Trace.redirect, hop] using hop'
    refine ⟨d0, mem_jumpTable.mpr ⟨u, hu, pos, op, hn, hop, hd0⟩, ?_⟩
    simpa [Op.redirect, ho, hd0, eq_comm] using hd
  · rintro ⟨d0, hm, rfl⟩
    obtain ⟨u, hu, pos, op, hn, hop, hd0⟩ := mem_jumpTable.mp hm
    obtain ⟨op', _, _, _, hop', ho, -⟩ := hp.named u hu pos name hn
    cases hop.symm.trans hop'
    refine ⟨_, List.mem_map_of_mem hu, pos, op.redirect (p.replacement r), hn, ?_, ?_⟩
    · simp [Trace.redirect, hop]
    · simp [Op.redirect, ho, hd0]

theorem index?_linkAll (name : String) : (p.linkAll r).index? name = p.index? name := by
  rw [hp.linkAll_eq hr]
  simp only [index?, List.findIdx?_map]
  rfl

theorem bridgeTable_linkAll : (p.linkAll r).bridgeTable = p.bridgeTable := by
  rw [hp.linkAll_eq hr]
  simp only [bridgeTable, List.zipIdx_map, List.foldl_map]
  rfl

theorem redirects (hl : p.Joins l) (hl' : (p.linkAll r).Joins l') : Redirects (p.replacement r) l l' := by
  have hta {d : Descr} {k : Nat} (hk : l'.target? d = some k) : ∃ t v name,
      d = .target t ∧ p.index? name = some k ∧ p.parts[k]? = some v ∧ r name = .ok (some d) := by
    obtain ⟨name, hm', hin⟩ := hl'.target d k hk
    obtain ⟨d0, hm, rfl⟩ := (hp.mem_jumpTable_linkAll hr).mp hm'
    obtain ⟨k', v, hk', hv, hs⟩ := hp.standsFor hm
    obtain ⟨t, ht, hre, -⟩ := replacement_eq hr hk' hv hs
    rw [hp.index?_linkAll hr] at hin
    cases hin.symm.trans hk'
    exact ⟨t, v, name, hre, hk', hv, hre ▸ ht⟩
  constructor
  case traces =>
    rw [hl'.traces, hl.traces, hp.linkAll_eq hr]
    simp
  case bridges => rw [hl'.bridges, hl.bridges, hp.bridgeTable_linkAll hr]
  case target =>
    intro t ht op hop ho d hd
    obtain ⟨u, hu, rfl⟩ := List.mem_map.mp (hl.traces ▸ ht)
    obtain ⟨pos, hpo⟩ := List.mem_iff_getElem?.mp hop
    rcases hp.other u hu pos op hpo ho with ⟨name, hn⟩ | hde
    · -- both descriptors are those of the trace that the jump names
      obtain ⟨op', d', k, v, hop', -, hd', hk, hv, hs⟩ := hp.named u hu pos name hn
      cases hpo.symm.trans hop'
      cases hd.symm.trans hd'
      have hm : (d, name) ∈ p.jumpTable := mem_jumpTable.mpr ⟨u, hu, pos, op, hn, hpo, hd⟩
      have hb : l.target? d = some k := by
        obtain ⟨k', hk'⟩ := hl.jump d name hm
        obtain ⟨_, -, t', hd', hid, -⟩ := hp.target hl hk'
        obtain ⟨t, rfl, rfl, -⟩ := hs
        cases hd'
        rw [hk', hid]
      obtain ⟨t, ht, hre, -⟩ := replacement_eq hr hk hv hs
      obtain ⟨k', hk'⟩ := hl'.jump _ name ((hp.mem_jumpTable_linkAll hr).mpr ⟨d, hm, rfl⟩)
      obtain ⟨_, v', name', -, hin, hv', hn'⟩ := hta hk'
      have heq : name' = name := by
        have hij := hr.inj v' (List.mem_of_getElem? hv') v (List.mem_of_getElem? hv)
        rw [name_of_index? hin hv', name_of_index? hk hv] at hij
        exact hij (hn'.trans (hre ▸ ht.symm))
      subst heq
      rw [hb, hk', ← hin, hk]
      exact ⟨rfl, nofun⟩
    · -- a declared descriptor stands for no trace, before and after
      obtain ⟨i, rfl⟩ := hde d hd
      have hb : l.target? (.interned i) = none := Option.eq_none_iff_forall_ne_some.mpr fun k hk => by
        obtain ⟨_, -, t, ht, -⟩ := hp.target hl hk
        cases ht
      have ha : l'.target? (.interned i) = none := Option.eq_none_iff_forall_ne_some.mpr fun k hk => by
        obtain ⟨t, _, _, ht, -⟩ := hta hk
        cases ht
      exact ⟨ha.trans hb.symm, fun _ => rfl⟩

end

end

end Declared

/-! ## Documents -/

def Document.Single (d : Document) : Prop := ∀ t ∈ d.traces, ∀ o ∈ t.ops, o.descr = "" ∨ o.target = ""

instance (d : Document) : Decidable d.Single :=
  inferInstanceAs (Decidable (∀ t ∈ d.traces, ∀ o ∈ t.ops, o.descr = "" ∨ o.target = ""))

theorem OpSpec.routes_of_single {s : Surroundings} {o : OpSpec} (h : o.descr = "" ∨ o.target = "") :
    o.Routes s fun op => ∀ d, op.descr = some d → ∃ name, (name, d) ∈ s.descrs := by
  intro _ op _ hl
  generalize hd : op.descr = d at hl
  cases hl with
  | declared hne hlo =>
    rw [if_neg (by simp [isForeign, h.resolve_left hne])]
    intro d' hd'
    cases hd.symm.trans hd'
    exact ⟨_, mem_of_lookup hlo⟩
  | own ho =>
    rw [if_neg (by simp [ho])]
    intro d' hd'
    cases hd.symm.trans hd'
  | named ho hr =>
    rw [if_pos ho]
    exact ⟨_, rfl, hr⟩

theorem resolve_declared {d : Document} {cache cache' : Descriptors} {a b : Builder}
    (hs : d.Single) (h : (resolve d cache).run a = (.ok (p, cache'), b)) : p.Declared := by
  obtain ⟨scopes, parts, hp⟩ := resolveParts_stages (resolve_parts h).1
  have hm {u' : Part} (hu' : u' ∈ p.parts) : ∃ (t : TraceSpec) (u : Part) (c : Option (Nat × Nat)),
      u' = { u with continues := c } ∧ u.trace.validate = .ok () ∧
        u.Routed ⟨t.name, p.descrs, references d.traces scopes⟩ fun op =>
          ∀ d, op.descr = some d → ∃ name, (name, d) ∈ p.descrs := by
    obtain ⟨k, hk⟩ := List.mem_iff_getElem?.mp hu'
    obtain ⟨u, hu, ha⟩ := exists_of_forall₂_right hp.attached hk
    obtain ⟨⟨t, s⟩, hts, _, _, hru⟩ := exists_of_forall₂_right hp.traces hu
    obtain ⟨ht, -⟩ := List.getElem?_zip_eq_some.mp hts
    obtain ⟨c, hsa⟩ := ha.same
    exact ⟨t, u, c, hsa, (resolveTrace_inv hru).2.1, resolveTrace_routed
      (fun o ho => OpSpec.routes_of_single (hs t (List.mem_of_getElem? ht) o ho)) hru⟩
  refine { valid := ?valid, named := ?named, other := ?other }
  case valid =>
    intro u' hu'
    obtain ⟨t, u, c, rfl, hva, -⟩ := hm hu'
    exact hva
  case named =>
    intro u' hu' pos name hme
    obtain ⟨t, u, c, rfl, -, hr⟩ := hm hu'
    obtain ⟨op, desc, hop, ho, hd, hre⟩ := hr.named pos name hme
    obtain ⟨k, v, hk, hv, hst⟩ := hp.standsFor hre
    exact ⟨op, desc, k, v, hop, ho, hd, hk, hv, hst⟩
  case other =>
    intro u' hu' pos op hop ho
    obtain ⟨t, u, c, rfl, -, hr⟩ := hm hu'
    refine (hr.jump pos op hop ho).imp_right fun hde desc hd => ?_
    obtain ⟨name, hme⟩ := hde desc hd
    exact hp.declared _ hme

/-- **Linking keeps the meaning of a program** that is resolved from a document in which no operation
has both a declared descriptor and a target: if every trace is given a descriptor of its own, all traces
can be linked, and runs have the same results and the same effects on the world before and after. -/
theorem link_runs_alike {d : Document} {cache cache' : Descriptors} {a b : Builder}
    (hsingle : d.Single) (h : (resolve d cache).run a = (.ok (p, cache'), b)) (hr : p.Assigns r) :
    (∀ u ∈ p.parts, (u.link r).1 = .ok ()) ∧
    ∃ l l', p.linked = .ok l ∧ (p.linkAll r).linked = .ok l' ∧
      ∀ (ω : Type) (host : Host ω) (maxSteps : Int) (start : Nat) (args : List Word) (world : ω),
        Eval.run l' host maxSteps start args world = Eval.run l host maxSteps start args world := by
  have hp := resolve_declared hsingle h
  obtain ⟨l, hlinked, hl⟩ := hp.linked
  obtain ⟨l', hlinked', hl'⟩ := exists_joins (p := p.linkAll r) fun d name hmem => by
    obtain ⟨d0, hmem, -⟩ := (hp.mem_jumpTable_linkAll hr).mp hmem
    obtain ⟨k, _, hk, -⟩ := hp.standsFor hmem
    exact ⟨k, (hp.index?_linkAll hr name).trans hk⟩
  refine ⟨fun u hu => by rw [hp.link_eq hr hu], l, l', hlinked, hlinked', ?_⟩
  intro ω host maxSteps start args world
  exact (hp.redirects hr hl hl').run_eq maxSteps start world

def relayTarget (name : String) : Except String (Option Descr) :=
  .ok (some (.target ⟨name, "code", 0, if name = "pair" then [.int, .int] else [.int], none⟩))

theorem relayTarget_inj (h : relayTarget name = relayTarget name') : name = name' := by
  simp only [relayTarget, Except.ok.injEq, Option.some.injEq, Descr.target.injEq,
    JumpTarget.mk.injEq] at h
  exact h.1

theorem link_runs_alike_relay : relay.Single ∧ ∃ p cache b,
    (resolve relay {}).run {} = (.ok (p, cache), b) ∧ p.Assigns relayTarget ∧
      ∃ l l', p.linked = .ok l ∧ (p.linkAll relayTarget).linked = .ok l' ∧
        ∀ (ω : Type) (host : Host ω) (maxSteps : Int) (start : Nat) (args : List Word) (world : ω),
          Eval.run l' host maxSteps start args world = Eval.run l host maxSteps start args world := by
  have hsingle : relay.Single := by decide
  obtain ⟨⟨p, cache⟩, b, h, houtline⟩ := exists_ok_of_map (x := (resolve relay {}).run {})
    (f := fun q => q.1.parts.map fun u => (u.trace.name, u.trace.inputs.map (·.map Box.kind)))
    (v := [("down", [some .int]), ("over", [some .int]), ("pair", [some .int, some .int])])
    (by decide +kernel)
  have hr : p.Assigns relayTarget := by
    refine ⟨fun u hu => ?_, fun _ _ _ _ => relayTarget_inj⟩
    have hmem := List.mem_map_of_mem (f := fun u : Part =>
      (u.trace.name, u.trace.inputs.map (·.map Box.kind))) hu
    rw [houtline] at hmem
    simp only [List.mem_cons, Prod.mk.injEq, List.not_mem_nil, or_false] at hmem
    obtain ⟨hname, hkinds⟩ | ⟨hname, hkinds⟩ | ⟨hname, hkinds⟩ := hmem <;>
      exact ⟨_, congrArg relayTarget hname, hkinds⟩
  exact ⟨hsingle, p, cache, b, h, hr, (link_runs_alike hsingle h hr).2⟩

end Program

end TraceCompiler
