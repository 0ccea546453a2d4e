import TraceCompiler.Proofs.Engine.Bounds
import TraceCompiler.Proofs.Eval.Budget

/-! # The protocol of the value array

After an execution the value array shows the values of the exit and what was set since, and nothing of
what it held before.
-/

namespace TraceCompiler

/-! ## The values of an exit -/

theorem Eval.Reached.stands {ω : Type} {l : Linked} {h : Host ω} {max left start : Nat} {args : List Word}
    {world : ω} {p : Point} {m : Machine ω} (hp : Reached l h max start args world left p m) :
    l.traces[p.id]? = some p.trace ∧ p.trace.ops.drop p.pos = p.rest := by
  have he {id loop : Nat} {inBridge : Bool} {args : List Word} {p : Point} {m m' : Machine ω}
      (he : enter l id loop inBridge args m = (.ok p, m')) :
      l.traces[p.id]? = some p.trace ∧ p.trace.ops.drop p.pos = p.rest := by
    obtain ⟨t, ht, -, rfl, -⟩ := enter_ok he
    exact ⟨ht, rfl⟩
  induction hp with
  | start hs => exact he hs
  | next _ hr _ ih =>
    refine ⟨ih.1, ?_⟩
    dsimp only
    rw [← List.drop_drop, ih.2, hr]
    rfl
  | transfer _ _ _ hf _ =>
    unfold follow at hf
    split at hf
    · exact he hf
    · split at hf
      · cases hf
      · exact he hf

theorem Eval.run_leaves {ω : Type} {l : Linked} {h : Host ω} {start : Nat} {args : List Word}
    {world final : ω} {M : Int} {o : Outcome} (hM : 0 < M)
    (hru : run l h M start args world = (.ok o, final)) :
    o.values.length = o.kinds.length ∧ ∃ t op, l.traces[o.trace]? = some t ∧
      t.ops[o.pos]? = some (some op) ∧ op.exitKinds? = some o.kinds := by
  obtain ⟨-, n, p, op, rest, m, m', -, hex, hr, hc, ht, hp, -⟩ := run_outcome hM hru
  obtain ⟨hs, hd⟩ := hex.stands
  obtain ⟨-, hv, hk⟩ := (control_ok hc).leave_inv
  refine ⟨?_, p.trace, op, ht ▸ hs, ?_, hk⟩
  · rw [hv]
    simpa using congrArg List.length (map_of_mapM hk)
  · rw [hp, ← List.head?_drop, hd, hr]
    rfl

theorem Lowering.Trail.exitValues_le {ω : Type} {u : Setup ω} {fin s : State} {l : Lifetimes}
    {ks : List Box} {pos : Nat} {ops : List Op} (h : Trail u fin l ks pos ops s) :
    ∀ op ∈ ops, op.opcode.exitsTrace = true → op.exitValues.length ≤ fin.maxValues := by
  induction h with
  | @step _ _ _ _ op _ s _ _ _ stage trail ih =>
    refine List.forall_mem_cons.mpr ⟨fun he => ?_, ih⟩
    have hle := trail.maxValues_le
    cases stage with
    | stay _ noGuard notFinal => rw [exitsTrace_eq_false noGuard notFinal] at he; cases he
    | guard _ isGuard _ _ guarded _ silent =>
      have hne : op.opcode ≠ .finish := fun ho => by rw [ho] at isGuard; cases isGuard
      rw [silent.plain.maxValues, guarded.eq] at hle
      rw [Op.exitValues, if_neg hne]
      exact (Nat.le_max_right ..).trans hle
  | final between checks isFinal yields =>
    refine List.forall_mem_singleton.mpr fun he => ?_
    cases lower_ends between.ok checks isFinal yields with
    | finish ho h =>
      rw [h.eq, Op.exitValues, if_pos ho]
      exact Nat.le_max_right ..
    | jump ho => rw [ho] at he; cases he

end TraceCompiler

namespace TraceCompiler.Engine

open List

/-- What is held at every index. -/
abbrev View := Int → Option (Kind × Word)

def exitView (exit : List (Kind × Word)) : View := fun i => if i < 0 then none else exit[i.toNat]?

/-- Words written under the kinds that are held. -/
def overwritten (ws : List Word) (v : View) : View :=
  fun i => (v i).map fun (k, w) => (k, ws.getD i.toNat w)

/-- The calls after an execution, with what is held before and after them. An execution that a callback
breaks writes the words of its exit and leaves the kinds. -/
inductive Since {μ : Type} (g : Engine μ) (v : View) : Engine μ → View → Prop
  | refl : Since g v g v
  | setValue (h : Since g v g1 v1) (hrun : (Engine.setValue i k w).run g1 = (.ok (), g2)) :
      Since g v g2 (Function.update v1 i (some (k, w)))
  | refusedSet {i : Int} (h : Since g v g1 v1) (hi : i < FrameState.maxKinds)
      (hrun : (Engine.setValue i k w).run g1 = (.error e, g2)) : Since g v g2 v1
  | boxes (h : Since g v g1 v1) (supply : BoxSupply) : Since g v { g1 with supply } v1
  | compileTrace (h : Since g v g1 v1) (hrun : (Engine.compileTrace t).run g1 = (r, g2)) : Since g v g2 v1
  | compileBridge (h : Since g v g1 v1) (hrun : (Engine.compileBridge exit t).run g1 = (r, g2)) : Since g v g2 v1
  | failed {ω : Type} {s : Surroundings μ ω} {world world' : ω} (h : Since g v g1 v1)
      (hn : g1.maxValues ≤ FrameState.maxKinds) (he : ∀ c m, e ≠ .error (.callback c m))
      (hrun : execute s token world g1 = (.error e, g2, world')) : Since g v g2 v1
  | broken {ω : Type} {s : Surroundings μ ω} {world world' : ω} (h : Since g v g1 v1)
      (ho : (enter g1.opened s t world).1 = .ok o)
      (hrun : execute s (some t) world g1 = (.error (.error (.callback c m)), g2, world')) :
      Since g v g2 (overwritten o.values v1)

namespace FrameState

variable {f f' : FrameState} {i : Int} {j : Nat} {k : Kind} {w : Word}
  {kinds : List Kind} {r : Except (Abort ValueError) Unit}

/-- What setting a value leaves: at most more room when it fails. -/
theorem run_set (h : (set i k w).run f = (r, f')) :
    ((∃ e, r = .error e) ∧ (f' = f ∨ 0 ≤ i ∧ ∃ r, Reserved f 0 (wrap64 (i + 1)) r f')) ∨
      r = .ok () ∧ 0 ≤ i ∧ ∃ f1, Reserved f 0 (wrap64 (i + 1)) (.ok ()) f1 ∧ i.toNat < f1.values.size ∧
        i.toNat < f1.kinds.size ∧ f' = { f1 with
          values := f1.values.setIfInBounds i.toNat w, kinds := f1.kinds.setIfInBounds i.toNat k } := by
  unfold set at h
  split at h
  · cases h
    exact .inl ⟨⟨_, rfl⟩, .inl rfl⟩
  rcases run_bind_cases h with ⟨e, h1, rfl⟩ | ⟨_, f1, h1, h⟩
  · exact .inl ⟨⟨_, rfl⟩, .inr ⟨by omega, _, run_reserve h1⟩⟩
  change ExceptT.run (m := StateM FrameState) (if _ then _ else _) f1 = _ at h
  split at h
  · cases h
    exact .inl ⟨⟨_, rfl⟩, .inr ⟨by omega, _, run_reserve h1⟩⟩
  · cases h
    exact .inr ⟨rfl, by omega, f1, run_reserve h1, by omega, by omega, rfl⟩

theorem set_kinds_le (h : (set i k w).run f = (r, f')) (hf : f.kinds.size ≤ maxKinds) :
    f'.kinds.size ≤ maxKinds := by
  rcases run_set h with ⟨-, rfl | ⟨-, r, hr⟩⟩ | ⟨-, -, f1, hr, -, -, rfl⟩
  · exact hf
  · exact hr.kinds.2.1 hf
  · rw [Array.size_setIfInBounds]
    exact hr.kinds.2.1 hf

theorem getElem?_store (ws : List Word) (hw : f.values[j]? = some w) :
    (f.store ws).values[j]? = some (ws.getD j w) := by
  have hf (n : Nat) (a : Array Word) (ha : a[j]? = some w) :
      ((ws.zipIdx n).foldl (fun a x => a.setIfInBounds x.2 x.1) a)[j]? =
        some (if j < n then w else ws.getD (j - n) w) := by
    clear hw
    induction ws generalizing n a w with
    | nil => rw [zipIdx_nil, foldl_nil, ha, getD_nil, ite_self]
    | cons x ws ih =>
      obtain ⟨hj, -⟩ := Array.getElem?_eq_some_iff.mp ha
      rw [zipIdx_cons, foldl_cons]
      by_cases hn : n = j
      · subst hn
        rw [ih (n + 1) _ (Array.getElem?_setIfInBounds_self_of_lt hj), if_pos (Nat.lt_succ_self n),
          if_neg (Nat.lt_irrefl n), Nat.sub_self, getD_cons_zero]
      · rw [ih (n + 1) _ ((Array.getElem?_setIfInBounds_ne hn).trans ha)]
        by_cases hlt : j < n
        · rw [if_pos (by omega), if_pos hlt]
        · rw [if_neg (by omega), if_neg hlt, show j - n = j - (n + 1) + 1 by omega, getD_cons_succ]
  exact (hf 0 f.values hw).trans (by rw [if_neg (Nat.not_lt_zero j), Nat.sub_zero])

theorem kindAt_settle (f : FrameState) (hle : kinds.length ≤ f.kinds.size) (j : Nat) :
    (f.settle kinds).kindAt j = kinds.getD j .void := by
  unfold kindAt settle
  rw [Array.getD_eq_getD_getElem?, Array.getElem?_ofFn]
  split
  · rfl
  · rw [getD_eq_getElem?_getD, getElem?_eq_none (by omega)]

end FrameState

/-! ## Exits and their traces -/

open Lowering (Made Numbered)

variable {μ ω : Type} {g g' g1 : Engine μ} {t : Trace} {x y : Exit} {code : List (Block × Lowering.Result)}
  {l l' : Eval.Linked} {room room' : Nat}

/-- An exit stands for an operation of a trace, and there is room for its values. -/
def Exit.StandsIn (x : Exit) (l : Eval.Linked) (room : Nat) : Prop :=
  x.kinds.length ≤ room ∧ ∃ t op, l.traces[x.origin.1]? = some t ∧
    t.ops[x.origin.2]? = some (some op) ∧ op.exitKinds? = some x.kinds

theorem Exit.StandsIn.mono (h : x.StandsIn l room) (hl : l.traces <+: l'.traces) (hr : room ≤ room')
    (hki : y.kinds = x.kinds) (ho : y.origin = x.origin) : y.StandsIn l' room' := by
  obtain ⟨hle, t, op, ht, hop, hk⟩ := h
  refine ⟨hki ▸ hle.trans hr, t, op, ?_, ho ▸ hop, hki ▸ hk⟩
  obtain ⟨rest, hre⟩ := hl
  rw [ho, ← hre]
  exact getElem?_append_left (List.getElem_of_getElem? ht).1 ▸ ht

theorem of_mem_exits {pos : Nat} {op : Op} (h : (pos, op) ∈ t.exits) :
    t.ops[pos]? = some (some op) ∧ op.opcode.exitsTrace = true := by
  obtain ⟨⟨o, i⟩, hm, hs⟩ := mem_filterMap.mp h
  obtain ⟨op', rfl, hif⟩ := Option.bind_eq_some_iff.mp hs
  split at hif
  · cases hif
    exact ⟨mem_zipIdx_iff_getElem?.mp hm, by assumption⟩
  · cases hif

theorem enrolled_standsIn {r : Lowering.Request} {res : Lowering.Result} {supply supply' : BoxSupply}
    {block : Block} (ht : r.trace = some t) (hv : t.validate = .ok ())
    (hr : Lowering.compile r supply = (.ok res, supply')) (hm : Made t supply) (hn : Numbered r t)
    (hl : l.traces = g.installed.traces ++ [t]) (hx : x ∈ g.enrolled t block res) :
    x.StandsIn l res.maxValues := by
  obtain ⟨bs, ops, s0, fin, hc⟩ := Lowering.compile_ok ht hv hr
  obtain ⟨⟨e, index⟩, hme, rfl⟩ := mem_map.mp hx
  obtain ⟨hge, hlt, heq⟩ := mem_zipIdx hme
  have hexits := (hc.exitTable hm hn).exits
  have hlt : index - g.exits.length < t.exits.length := by
    rw [hexits.length_eq]
    omega
  have hpos : (t.exits.map Prod.fst).getD (index - g.exits.length) t.ops.length =
      (t.exits[index - g.exits.length]).1 := by simp [hlt]
  have hmem : t.exits[index - g.exits.length] ∈ t.exits := getElem_mem hlt
  have hk : (t.exits[index - g.exits.length]).2.exitKinds? = some e.kinds :=
    heq ▸ (hexits.get hlt (by omega)).kinds
  generalize t.exits[index - g.exits.length] = exit at hpos hmem hk
  obtain ⟨pos, op⟩ := exit
  obtain ⟨hop, hei⟩ := of_mem_exits hmem
  refine ⟨?_, t, op, ?_, (congrArg (t.ops[·]?) hpos).trans hop, hk⟩
  · obtain ⟨_, _, -, htr⟩ := hc.idle_trail hm
    have hle := congrArg length (Eval.map_of_mapM hk)
    rw [length_map, length_map] at hle
    have hop' : op ∈ ops := by
      have := mem_of_getElem? hop
      rw [hc.ops_eq] at this
      exact mem_map_of_injective (Option.some_injective _) |>.mp this
    calc _ = op.exitValues.length := hle.symm
      _ ≤ fin.maxValues := htr.exitValues_le op hop' hei
      _ = res.maxValues := hc.assembled.values.symm
  · rw [hl]
    exact getElem?_concat_length ..

structure Tabled (g : Engine μ) : Prop where
  kinds : g.frame.kinds.size ≤ FrameState.maxKinds
  exits : ∀ x ∈ g.exits, x.StandsIn g.installed g.maxValues

theorem Tabled.load {r : Lowering.Request} {loaded : Loaded} (h : Tabled g)
    (hlo : Loading t r g (.ok loaded) g1) (ht : r.trace = some t) (hg : g.generator = Lowering.compile)
    (hm : Made t g.supply) (hn : Numbered (g.request r) t) (hl : l.traces = g1.installed.traces ++ [t]) :
    g1.frame = g.frame ∧ ∀ x ∈ g1.exits, x.StandsIn l g1.maxValues := by
  cases hlo with
  | loaded hv hr _ =>
    rw [hg] at hr
    refine ⟨rfl, fun x hx => ?_⟩
    rcases mem_append.mp hx with hx | hx
    · exact (h.exits x hx).mono (hl ▸ prefix_append ..) (Nat.le_max_left ..) rfl rfl
    · exact (enrolled_standsIn (g := g) (r := g.request r) ht hv hr hm hn hl hx).mono
        prefix_rfl (Nat.le_max_right ..) rfl rfl

theorem Tabled.refused (h : Tabled g) (hf : g'.frame = g.frame) (hl : g'.installed = g.installed)
    (hv : g.maxValues ≤ g'.maxValues)
    (he : ∀ x ∈ g'.exits, ∃ y ∈ g.exits, x.kinds = y.kinds ∧ x.origin = y.origin) : Tabled g' := by
  refine ⟨hf ▸ h.kinds, fun x hx => ?_⟩
  obtain ⟨y, hy, hk, ho⟩ := he x hx
  exact (h.exits y hy).mono (hl ▸ prefix_rfl) hv hk ho

theorem Session.tabled (h : Session g code) : Tabled g := by
  induction h with
  | new h =>
    unfold Engine.new at h
    obtain ⟨_, -, hg⟩ := bind_eq_ok.mp h
    cases hg
    exact ⟨Nat.zero_le _, by simp⟩
  | boxes _ _ ih => exact ⟨ih.kinds, ih.exits⟩
  | loop h ht hr _ ih =>
    cases run_compileTrace hr with
    | installed hl _ _ _ htr =>
      obtain ⟨hf, he⟩ := ih.load hl rfl h.bounded.generator ht.made (h.bounded.numbered_loop ht) htr
      exact ⟨hf ▸ ih.kinds, he⟩
  | bridge h ht hr hx _ _ ih =>
    cases run_compileBridge hr with
    | attached hei hx' _ _ _ hl _ htr =>
      cases hei
      have hm := mem_of_getElem? hx'
      obtain ⟨hf, he⟩ := ih.load hl rfl h.bounded.generator
        ⟨ht.made.inputs, ht.made.results⟩ (h.bounded.numbered_bridge ht hm) htr
      refine ⟨hf ▸ ih.kinds, fun x hx => ?_⟩
      obtain ⟨y, hy, rfl | rfl⟩ := mem_modify hx
      · exact he x hy
      · exact he y hy
  | refusedLoop _ hr ih =>
    cases run_compileTrace hr with
    | failed hl =>
      cases hl
      exact ⟨ih.kinds, ih.exits⟩
  | refusedBridge _ hr ih =>
    cases run_compileBridge hr with
    | refused => exact ih
    | failed _ hl =>
      cases hl
      exact ⟨ih.kinds, ih.exits⟩
    | unattached _ _ hl _ =>
      cases hl with
      | loaded =>
        refine ih.refused rfl rfl (Nat.le_max_left ..) fun x hx => ?_
        rw [length_map, take_modify_append] at hx
        obtain ⟨y, hy, rfl | rfl⟩ := mem_modify hx
        · exact ⟨x, hy, rfl, rfl⟩
        · exact ⟨y, hy, rfl, rfl⟩
  | @execute g _ _ _ s token world ih =>
    have hee := execution s token world g
    generalize Engine.execute s token world g = out at hee ⊢
    cases hee with
    | refused => exact ih
    | cramped => exact ⟨g.reserve_reserved.kinds.2.1 ih.kinds, ih.exits⟩
    | stuck => exact ⟨g.reserve_reserved.kinds.2.1 ih.kinds, ih.exits⟩
    | @ended _ o _ _ exits _ _ _ _ _ _ _ he _ hen =>
      have hall : Tabled { g with exits } := ih.refused rfl rfl (Nat.le_refl _) fun x hx => ?_
      refine ⟨?_, hall.exits⟩
      · have hs := g.reserve_reserved.kinds.2.1 ih.kinds
        rcases hen with ⟨-, rfl⟩ | ⟨-, rfl⟩
        · exact hs
        · exact (Array.size_ofFn ..).trans_le hs
      · rcases he with rfl | ⟨y, hy, rfl⟩
        · exact ⟨x, hx, rfl, rfl⟩
        · rcases mem_or_eq_of_mem_set hx with hx | rfl
          · exact ⟨x, hx, rfl, rfl⟩
          · exact ⟨y, hy, rfl, rfl⟩
  | setValue _ hr ih =>
    cases run_setValue hr with
    | refused => exact ih
    | failed hse => exact ⟨FrameState.set_kinds_le hse ih.kinds, ih.exits⟩
    | done hse => exact ⟨FrameState.set_kinds_le hse ih.kinds, ih.exits⟩
  | close _ hr ih =>
    obtain ⟨_, _, rfl⟩ := run_close hr
    exact ⟨ih.kinds, ih.exits⟩

/-! ## Reading -/

def reading (held : Option (Kind × Word)) (i : Int) (k : Kind) : Except ValueError Word :=
  match held with
  | none => .error (.noValue i)
  | some (k', w) =>
    if k' = .void then .error (.noValue i) else if k' = k then .ok w else .error (.kind i k' k)

structure Shows (f : FrameState) (v : View) : Prop where
  kinds : f.kinds.size ≤ FrameState.maxKinds
  held : ∀ j : Nat, match v j with
    | none => f.kindAt j = .void
    | some (k, w) => f.kindAt j = k ∧ f.values[j]? = some w
  negative : ∀ i < 0, v i = none

variable {f f' : FrameState} {v v' : View} {i n depth : Int} {k : Kind} {w : Word} {ws : List Word}
  {r : Except (Abort ValueError) Unit}

theorem Shows.cases (h : Shows f v) (j : Nat) : v j = none ∧ f.kindAt j = .void ∨
    ∃ k w, v j = some (k, w) ∧ f.kindAt j = k ∧ f.values[j]? = some w := by
  have hh := h.held j
  cases hat : v j with
  | none =>
    rw [hat] at hh
    exact .inl ⟨rfl, hh⟩
  | some e =>
    rw [hat] at hh
    exact .inr ⟨_, _, rfl, hh⟩

theorem Shows.get (h : Shows f v) (i : Int) (k : Kind) : f.get i k = (reading (v i) i k).mapError .error := by
  unfold FrameState.get
  by_cases hi : i < 0
  · rw [if_pos (.inl hi), h.negative i hi]
    rfl
  · obtain ⟨j, rfl⟩ := Int.eq_ofNat_of_zero_le (Int.not_lt.mp hi)
    rw [Int.toNat_natCast]
    rcases h.cases j with ⟨hv, hk⟩ | ⟨k', w, hv, hk, hw⟩
    · rw [hv]
      exact if_pos (.inr hk)
    · rw [hv, hk, hw, reading]
      simp only [hi, false_or, ne_eq, ite_not]
      split
      · rfl
      · split <;> rfl

theorem Shows.reserve (h : Shows f v) (hr : f.Reserved depth n r f') (hn : n ≤ FrameState.maxKinds) :
    Shows f' v := by
  refine ⟨hr.kinds.2.1 h.kinds, fun j => ?_, h.negative⟩
  rcases h.cases j with ⟨hv, hk⟩ | ⟨k, w, hv, hk, hw⟩
  all_goals rw [hv]
  · exact (hr.kinds.2.2 j).trans hk
  · exact ⟨(hr.kinds.2.2 j).trans hk, (hr.values hn).2 j w hw⟩

/-- A reservation that found room was within bounds. -/
theorem Shows.le (h : Shows f v) (hr : f.Reserved depth n (.ok ()) f') : n ≤ FrameState.maxKinds :=
  (hr.kinds.1 rfl).trans (by exact_mod_cast hr.kinds.2.1 h.kinds)

theorem Shows.refusedSet {e : Abort ValueError} (h : Shows f v) (hi : i < FrameState.maxKinds)
    (hs : (FrameState.set i k w).run f = (.error e, f')) : Shows f' v ∧ f'.side = f.side := by
  have hm : FrameState.maxKinds = 0x1000000000000 := rfl
  rcases FrameState.run_set hs with ⟨-, rfl | ⟨h0, r, hr⟩⟩ | ⟨⟨⟩, -⟩
  · exact ⟨h, rfl⟩
  · exact ⟨h.reserve hr (by rw [wrap64_of_lt (by omega) (by omega)]; omega), hr.side⟩

theorem Shows.set (h : Shows f v) (hs : (FrameState.set i k w).run f = (.ok (), f')) :
    Shows f' (Function.update v i (some (k, w))) ∧ f'.side = f.side := by
  obtain ⟨⟨_, ⟨⟩⟩, -⟩ | ⟨-, h0, f1, hr, hv, hk, rfl⟩ := FrameState.run_set hs
  have h1 := h.reserve hr (h.le hr)
  obtain ⟨j, rfl⟩ := Int.eq_ofNat_of_zero_le h0
  rw [Int.toNat_natCast] at *
  refine ⟨⟨?_, fun j' => ?_, fun i' hi' => ?_⟩, hr.side⟩
  · exact (Array.size_setIfInBounds ..).trans_le h1.kinds
  · unfold FrameState.kindAt
    rw [Array.getD_eq_getD_getElem?]
    by_cases hj : j' = j
    · subst hj
      rw [Function.update_self, Array.getElem?_setIfInBounds_self_of_lt hk,
        Array.getElem?_setIfInBounds_self_of_lt hv]
      exact ⟨rfl, rfl⟩
    · rw [Function.update_of_ne (by exact_mod_cast hj), Array.getElem?_setIfInBounds_ne (Ne.symm hj),
        Array.getElem?_setIfInBounds_ne (Ne.symm hj), ← Array.getD_eq_getD_getElem?]
      exact h1.held j'
  · rw [Function.update_of_ne (by omega)]
    exact h.negative i' hi'

theorem Shows.store (h : Shows f v) (ws : List Word) : Shows (f.store ws) (overwritten ws v) := by
  refine ⟨h.kinds, fun j => ?_, fun i hi => by rw [overwritten, h.negative i hi]; rfl⟩
  unfold overwritten
  rcases h.cases j with ⟨hv, hk⟩ | ⟨k, w, hv, hk, hw⟩
  all_goals rw [hv]
  · exact hk
  · exact ⟨hk, FrameState.getElem?_store ws hw⟩

theorem shows_settle {kinds : List Kind} (hf : f.kinds.size ≤ FrameState.maxKinds)
    (hws : ws.length = kinds.length) (hk : kinds.length ≤ f.kinds.size) (hv : kinds.length ≤ f.values.size) :
    Shows ((f.store ws).settle kinds) (exitView (kinds.zip ws)) := by
  refine ⟨(Array.size_ofFn ..).trans_le hf, fun j => ?_, fun _ hi => if_pos hi⟩
  rw [(f.store ws).kindAt_settle hk, exitView, if_neg (by omega), Int.toNat_natCast]
  by_cases hj : j < kinds.length
  · have hz : (kinds.zip ws)[j]? = some (kinds[j], ws[j]) := by
      rw [getElem?_eq_getElem (by simp; omega), getElem_zip]
    have hwo := FrameState.getElem?_store ws (Array.getElem?_eq_getElem (show j < f.values.size by omega))
    rw [hz]
    exact ⟨by simp [hj], hwo.trans (by simp [hws, hj])⟩
  · simp [hj]

theorem Loading.frame {r : Lowering.Request} {loaded : Except (Abort Error) Loaded}
    (h : Loading t r g loaded g') : g'.frame = g.frame ∧ g'.closed = g.closed := by
  cases h <;> exact ⟨rfl, rfl⟩

theorem compileTrace_frame {r : Except (Abort Error) Token} (h : (compileTrace t).run g = (r, g')) :
    g'.frame = g.frame ∧ g'.closed = g.closed := by
  cases run_compileTrace h with
  | failed hl => exact hl.frame
  | installed hl => exact hl.frame

theorem compileBridge_frame {b : Option Exit} {r : Except (Abort Error) Unit}
    (h : (compileBridge b t).run g = (r, g')) : g'.frame = g.frame ∧ g'.closed = g.closed := by
  cases run_compileBridge h with
  | refused => exact ⟨rfl, rfl⟩
  | failed _ hl => exact hl.frame
  | unattached _ _ hl => exact hl.frame
  | attached _ _ _ _ _ hl => exact hl.frame

theorem Since.shows (h : Since g1 v g v') (h1 : Shows g1.frame v) (hopen : g1.closed = false) :
    Shows g.frame v' ∧ g.frame.side = g1.frame.side ∧ g.closed = false := by
  induction h with
  | refl => exact ⟨h1, rfl, hopen⟩
  | setValue _ hr ih =>
    obtain ⟨hs, hsi, hc⟩ := ih
    cases run_setValue hr with
    | done hse => exact ⟨(hs.set hse).1, (hs.set hse).2.trans hsi, hc⟩
  | refusedSet _ hi hr ih =>
    obtain ⟨hs, hsi, hc⟩ := ih
    cases run_setValue hr with
    | refused => exact ⟨hs, hsi, hc⟩
    | failed hse hfails =>
      obtain ⟨_, rfl⟩ := hfails hc
      exact ⟨(hs.refusedSet hi hse).1, (hs.refusedSet hi hse).2.trans hsi, hc⟩
  | boxes _ _ ih => exact ih
  | compileTrace _ hr ih =>
    obtain ⟨hf, hc⟩ := compileTrace_frame hr
    rwa [hf, hc]
  | compileBridge _ hr ih =>
    obtain ⟨hf, hc⟩ := compileBridge_frame hr
    rwa [hf, hc]
  | @failed g2 _ _ token _ _ s world _ _ hn he hr ih =>
    obtain ⟨hs, hsi, hc⟩ := ih
    have hroom := hs.reserve g2.reserve_reserved (by exact_mod_cast hn)
    have hside := g2.reserve_reserved.side.trans hsi
    have hex := execution s token world g2
    rw [hr] at hex
    cases hex with
    | refused => exact ⟨hs, hsi, hc⟩
    | cramped => exact ⟨hroom, hside, hc⟩
    | stuck => exact ⟨hroom, hside, hc⟩
    | ended _ _ _ _ _ _ hend =>
      obtain ⟨⟨_, _, ⟨⟩⟩, -⟩ | ⟨⟨⟩, -⟩ := hend
      exact absurd rfl (he _ _)
  | @broken g2 _ t _ _ _ _ _ s world _ _ ho hr ih =>
    obtain ⟨hs, hsi, hc⟩ := ih
    have hex := execution s (some t) world g2
    rw [hr] at hex
    generalize hout : (Except.error (Abort.error (Error.callback _ _)), _, _) = out at hex
    cases hex with
    | refused he =>
      cases hout
      exact absurd rfl (he _ _)
    | @cramped e _ => cases e <;> cases hout
    | stuck => cases hout
    | ended ht henters ho' _ _ _ hend =>
      cases ht
      cases ho.symm.trans ho'
      obtain ⟨-, rfl⟩ | ⟨rfl, -⟩ := hend
      · cases hout
        have hr := henters.room ▸ g2.reserve_reserved
        exact ⟨(hs.reserve hr (hs.le hr)).store _, hr.side.trans hsi, hc⟩
      · cases hout

theorem checkFrom_ok {kinds : List Kind} {n : Nat} (h : f.checkFrom n kinds = .ok ()) :
    ∀ (j : Nat) k, kinds[j]? = some k → k ≠ .void ∧ f.kindAt (n + j) = k := by
  induction kinds generalizing n with
  | nil => simp
  | cons k kinds ih =>
    unfold FrameState.checkFrom at h
    split at h
    · cases h
    split at h
    · cases h
    rename_i hv hki
    rintro (_ | j) k' hk
    · cases hk
      have hki := not_not.mp hki
      exact ⟨hki ▸ hv, hki⟩
    · have := ih h j k' hk
      rwa [Nat.add_right_comm] at this

theorem Shows.inputs_held (h : Shows f v) {kinds : List Kind} (hin : f.checkInputs kinds = .ok ()) (j : Nat)
    (hk : kinds[j]? = some k) : ∃ w, reading (v j) j k = .ok w := by
  obtain ⟨hv, hki⟩ := checkFrom_ok hin j k hk
  rw [Nat.zero_add] at hki
  rcases h.cases j with ⟨-, hn⟩ | ⟨k', w, hw, hk', -⟩
  · exact absurd (hki.symm.trans hn) hv
  · obtain rfl := hki.symm.trans hk'
    exact ⟨w, by rw [hw, reading, if_neg hv, if_pos rfl]⟩

theorem Tabled.exitOf? {s : Surroundings μ ω} {token : Token} {world : ω} {o : Eval.Outcome} (h : Tabled g)
    (hr : (enter g.opened s token world).1 = .ok o) (hx : g.exitOf? o = some x) :
    o.kinds = x.kinds ∧ o.values.length = x.kinds.length ∧ x.kinds.length ≤ g.maxValues := by
  obtain ⟨hle, t, op, ht, hop, hk⟩ := h.exits x (mem_of_find?_eq_some hx)
  have ho : x.origin = (o.trace, o.pos) := by
    simpa using find?_some (show g.exits.find? _ = some x from hx)
  obtain ⟨hv, t', op', ht', hop', hk'⟩ :=
    Eval.run_leaves (by decide : 0 < stepLimit) (Prod.ext hr rfl : enter g.opened s token world = (.ok o, _))
  rw [ho] at ht hop
  cases ht.symm.trans ht'
  cases hop.symm.trans hop'
  have heq := Option.some.inj (hk'.symm.trans hk)
  exact ⟨heq, heq ▸ hv, hle⟩

/-- **The protocol of the value array.** After an execution that left through an exit, a read finds the
value of the exit, or what was set since, under its kind, and nothing else; but an execution that a
callback breaks puts the words of its exit under the kinds that are held. Compiled code is entered only
with a value of its kind at every input. Growing to a size within bounds changes nothing that can be
read. -/
theorem execute_values {s : Surroundings μ ω} {token : Option Token} {world world1 : ω}
    (h : Session g code) (hrun : execute s token world g = (.ok x, g1, world1)) :
    ∃ t o, token = some t ∧ (enter g.opened s t world).1 = .ok o ∧ o.kinds = x.kinds ∧
      o.values.length = x.kinds.length ∧ ∀ g2 v, Since g1 (exitView (x.kinds.zip o.values)) g2 v →
        (∀ i k, g2.value i k = (reading (v i) i k).mapError (.error ∘ .value)) ∧
        (∀ token' (world' : ω), (execute s token' world' g2).2.1.activities ≠ g2.activities →
          ∃ t, token' = some t ∧ ∀ (j : Nat) k, t.kinds[j]? = some k → ∃ w, g2.value j k = .ok w) ∧
        g2.frame.side = g.frame.side ∧
        ∀ depth n r f', n ≤ (FrameState.maxKinds : Int) → (FrameState.reserve depth n).run g2.frame = (r, f') →
          f'.side = g2.frame.side ∧ ∀ i k, f'.get i k = g2.frame.get i k := by
  have hexecution := execution s token world g
  rw [hrun] at hexecution
  cases hexecution with
  | @ended t o x0 y _ _ _ _ ht henters ho hx _ hy hend =>
    obtain ⟨⟨_, _, ⟨⟩⟩, -⟩ | ⟨⟨⟩, rfl⟩ := hend
    obtain ⟨hkinds, hvalues, hroom⟩ := h.tabled.exitOf? ho hx
    rw [← hy] at hkinds hvalues hroom
    have hreserved := henters.room ▸ g.reserve_reserved
    have hle := hreserved.kinds.2.1 h.tabled.kinds
    have hk := hreserved.kinds.1 rfl
    have hv := (hreserved.values (by omega)).1 rfl
    have hshows := shows_settle (f := g.reserve.2) hle hvalues (by omega) (by omega)
    refine ⟨t, o, ht, ho, hkinds, hvalues, fun g2 v hsince => ?_⟩
    obtain ⟨hshows2, hside, hopen⟩ := hsince.shows hshows henters.opened
    have hread (i : Int) (k : Kind) :
        g2.value i k = (reading (v i) i k).mapError (.error ∘ .value) := by
      unfold value
      rw [hshows2.get, hopen]
      cases reading (v i) i k <;> rfl
    have hheld {t : Token} (ht : g2.Enters t) (j : Nat) (k : Kind) (hk : t.kinds[j]? = some k) :
        ∃ w, g2.value j k = .ok w := by
      obtain ⟨w, hw⟩ := hshows2.inputs_held ht.inputs j hk
      exact ⟨w, by rw [hread, hw]; rfl⟩
    refine ⟨hread, fun token' world' hne => ?_, hside.trans hreserved.side, fun depth n r f' hn hr => ?_⟩
    · have hexecution := execution s token' world' g2
      generalize execute s token' world' g2 = out at hexecution hne
      cases hexecution with
      | refused => exact absurd rfl hne
      | cramped => exact absurd rfl hne
      | stuck ht henters => exact ⟨_, ht, hheld henters⟩
      | ended ht henters => exact ⟨_, ht, hheld henters⟩
    · have hreserved := FrameState.run_reserve hr
      exact ⟨hreserved.side, fun i k => ((hshows2.reserve hreserved hn).get i k).trans (hshows2.get i k).symm⟩

def seven : Trace := ⟨"seven", [], [some ⟨.finish, [some (.const (.int 7))], none, none, []⟩]⟩

def nothing : Surroundings Unit Unit where
  read _ _ _ := none
  write _ _ _ := none
  call _ _ _ w := (.error .missing, w)

def primed : Engine Unit := ((setValue 1 .int 9).run ((compileTrace seven).run idle).2).2

theorem session_primed : ∃ code, Session primed code := by
  obtain ⟨token, g, hr, -⟩ := exists_ok_of_map (x := (compileTrace seven).run idle)
    (f := fun token => token.kinds) (v := []) (by decide +kernel)
  obtain ⟨code, hs⟩ := session_idle ⟨⟨by simp [seven], by simp [seven]⟩, by decide, by simp [seven]⟩ hr
  rw [primed, hr]
  exact ⟨_, hs.setValue Prod.mk.eta.symm⟩

/-- The value set before the execution is gone after it, and the one set then is there. -/
theorem execute_values_primed : ∃ x g1 g2, execute nothing primed.tokens.head? () primed = (.ok x, g1, ()) ∧
    (setValue 3 .ref 5).run g1 = (.ok (), g2) ∧ (∃ w, g2.value 0 .int = .ok w) ∧
      g2.value 0 .ref = .error (.error (.value (.kind 0 .int .ref))) ∧
      g2.value 1 .int = .error (.error (.value (.noValue 1))) ∧ g2.value 3 .ref = .ok 5 := by
  obtain ⟨code, hprimed⟩ := session_primed
  obtain ⟨x, ⟨g1, ⟨⟩⟩, hrun, hkinds⟩ := exists_ok_of_map (x := execute nothing primed.tokens.head? () primed)
    (f := Exit.kinds) (v := [.int]) (by decide +kernel)
  obtain ⟨_, g2, hset, -⟩ := exists_ok_of_map
    (x := (setValue 3 .ref 5).run (execute nothing primed.tokens.head? () primed).2.1)
    (f := fun _ => ()) (v := ()) (by decide +kernel)
  rw [hrun] at hset
  obtain ⟨_, o, -, -, -, hvalues, hsince⟩ := execute_values hprimed hrun
  obtain ⟨hread, -⟩ := hsince g2 _ (Since.refl.setValue hset)
  rw [hkinds] at hvalues hread
  obtain ⟨w, hw⟩ := length_eq_one_iff.mp hvalues
  rw [hw] at hread
  exact ⟨x, g1, g2, hrun, hset, ⟨w, hread 0 .int⟩, hread 0 .ref, hread 1 .int, hread 3 .ref⟩

def alarm : Trace :=
  ⟨"alarm", [some ⟨1, .float⟩], [
    some ⟨.guardTrue, [some (.const (.int 0))], none, none, [some (.const (.int 7))]⟩,
    some ⟨.finish, [], none, none, []⟩]⟩

def alarmed : Engine Unit :=
  ((setValue 0 .float 0x3FF8000000000000).run ((compileTrace alarm).run idle).2).2

/-- A callback that breaks leaves the integer of the exit under the kind of the input, and the value at 1
is lost when the size of 2 ^ 61 + 1 words wraps to that of one. -/
theorem values_misread :
    (let out := execute { nothing with onFailure := some fun _ _ w => (.error "broken", w) }
        alarmed.tokens.head? () alarmed;
      out.1.toOption.isNone ∧ (out.2.1.value 0 .float).toOption = some 7 ∧
        out.2.1.frame.get 0 .int = .error (.error (.kind 0 .float .int))) ∧
    let f := ((FrameState.set 1 .int 5).run {}).2;
    f.get 1 .int = .ok 5 ∧
      ((FrameState.set 0x2000000000000000 .int 1).run f).2.get 1 .int = .error .missing := by
  decide +kernel

end TraceCompiler.Engine
