import Mathlib.Data.List.Perm.Subperm
import TraceCompiler.Proofs.Program.Resolution

/-! # The order of bridges

A bridge continues the guard that its description names, by a label or by a number
(`TraceSpec.Picks`).
-/

namespace TraceCompiler.Program

open List

variable {t : TraceSpec} {scope : Scope} {u : Part} {us vs : List Part} {done : List String}
  {k pos : Nat} {name : String}

/-! ## Guards by label and by number -/

/-- The operation at a position is the guard that a label stands for: it bears the label, or no
operation does and the label is the number of guards before it. -/
def TraceSpec.Picks (t : TraceSpec) (label : String) (pos : Nat) : Prop :=
  ∃ o, t.ops[pos]? = some o ∧ o.isGuard ∧ (o.guard = label ∨
    (∀ o ∈ t.ops, o.guard ≠ label) ∧
      Literal.readPlain label = .ok ((t.ops.take pos).countP OpSpec.isGuard))

theorem getElem?_filter_zipIdx {α : Type} {q : α → Bool} {xs : List α} {n : Nat} {x : α}
    (h : ((xs.zipIdx k).filter (q ·.1))[n]? = some (x, pos)) :
    ∃ i, pos = k + i ∧ xs[i]? = some x ∧ q x ∧ (xs.take i).countP q = n := by
  induction xs generalizing k n with
  | nil => simp at h
  | cons y ys ih =>
    rw [zipIdx_cons, filter_cons] at h
    split at h
    · rename_i hy
      cases n with
      | zero =>
        cases h
        exact ⟨0, rfl, rfl, hy, rfl⟩
      | succ n =>
        obtain ⟨i, rfl, hi, hx, hc⟩ := ih h
        refine ⟨i + 1, by omega, hi, hx, ?_⟩
        rw [take_succ_cons, countP_cons_of_pos hy, hc]
    · rename_i hy
      obtain ⟨i, rfl, hi, hx, hc⟩ := ih h
      refine ⟨i + 1, by omega, hi, hx, ?_⟩
      rw [take_succ_cons, countP_cons_of_neg hy, hc]

theorem Part.Built.opcode (hu : u.Built t scope t.ops) (ho : t.ops[pos]? = some o) :
    ∃ op, u.op? pos = some op ∧ Opcode.find? o.op = some op.opcode := by
  obtain ⟨_, hop, op, rfl, hf⟩ := exists_of_forall₂_left hu.ops ho
  exact ⟨op, by rw [Part.op?, hop]; rfl, hf⟩

theorem Part.Built.picks (hu : u.Built t scope t.ops) (h : u.Picks label pos) : t.Picks label pos := by
  obtain hl | ⟨hno, n, hn, hp⟩ := h
  · obtain ⟨before, after, heq, -⟩ := lookup_eq_some_iff.mp hl
    have hm : (label, pos) ∈ u.guards := by simp [heq]
    rw [hu.guards] at hm
    obtain ⟨⟨o, _⟩, hm, ⟨⟩⟩ := mem_map.mp hm
    obtain ⟨hm, hne⟩ := mem_filter.mp hm
    have ho := mk_mem_zipIdx_iff_getElem?.mp hm
    exact ⟨o, ho, hu.labelled o (mem_of_getElem? ho) (by simpa using hne), .inl rfl⟩
  · have hg : u.exits.filter (fun pos => (u.op? pos).any (·.opcode.isGuard)) =
        (t.ops.zipIdx.filter (·.1.isGuard)).map Prod.snd := by
      rw [hu.exits, filter_map, filter_filter]
      refine congrArg _ (filter_congr ?_)
      rintro ⟨o, pos⟩ hm
      obtain ⟨op, hop, hfi⟩ := hu.opcode (mk_mem_zipIdx_iff_getElem?.mp hm)
      simp only [Function.comp_apply, hop, Option.any_some, OpSpec.isExit, OpSpec.isGuard, hfi,
        Opcode.exitsTrace]
      cases op.opcode.isGuard <;> rfl
    rw [hg, getElem?_map] at hp
    obtain ⟨⟨o, pos⟩, hf, rfl⟩ := Option.map_eq_some_iff.mp hp
    obtain ⟨i, hi, ho, hgu, rfl⟩ := getElem?_filter_zipIdx hf
    rw [Nat.zero_add] at hi
    subst hi
    refine ⟨o, ho, hgu, .inr ⟨fun o' ho' heq => ?_, hn⟩⟩
    -- A label that stands for a number is not empty, so it would be in the table.
    have hne : label ≠ "" := by
      rintro rfl
      cases hn
    obtain ⟨pos', hp'⟩ := mem_iff_getElem?.mp ho'
    have hm : (label, pos') ∈ u.guards := by
      rw [hu.guards]
      exact mem_map.mpr ⟨(o', pos'), mem_filter.mpr
        ⟨mk_mem_zipIdx_iff_getElem?.mpr hp', by simpa [heq] using hne⟩, heq ▸ rfl⟩
    exact bne_iff_ne.mp (lookup_eq_none_iff.mp hno _ hm) rfl

/-! ## Rounds -/

/-- Each bridge continues a trace that is there, and is new. -/
def ReadyOrder (done : List String) : List Part → Prop
  | [] => True
  | u :: us => (∃ spec, u.bridge = some spec ∧ spec.trace ∈ done) ∧ u.trace.name ∉ done ∧
      ReadyOrder (u.trace.name :: done) us

def extended (done : List String) (us : List Part) : List String :=
  (us.map (·.trace.name)).reverse ++ done

@[simp] theorem mem_extended : name ∈ extended done us ↔ name ∈ us.map (·.trace.name) ∨ name ∈ done := by
  rw [extended, mem_append, mem_reverse]

theorem extended_cons : extended (u.trace.name :: done) us = extended done (u :: us) := by
  simp [extended]

theorem extended_append : extended done (us ++ vs) = extended (extended done us) vs := by
  simp [extended]

namespace ReadyOrder

theorem append (h : ReadyOrder done us) (h' : ReadyOrder (extended done us) vs) :
    ReadyOrder done (us ++ vs) := by
  induction us generalizing done with
  | nil => exact h'
  | cons u us ih => exact ⟨h.1, h.2.1, ih h.2.2 (extended_cons ▸ h')⟩

theorem nodup (h : ReadyOrder done us) :
    (us.map (·.trace.name)).Nodup ∧ ∀ u ∈ us, u.trace.name ∉ done := by
  induction us generalizing done with
  | nil => exact ⟨.nil, nofun⟩
  | cons u us ih =>
    obtain ⟨hn, hne⟩ := ih h.2.2
    refine ⟨nodup_cons.mpr ⟨fun hm => ?_, hn⟩, ?_⟩
    · obtain ⟨v, hv, heq⟩ := mem_map.mp hm
      exact hne v hv (heq ▸ mem_cons_self)
    · rintro v (_ | ⟨_, hv⟩)
      · exact h.2.1
      · exact fun hm => hne v hv (mem_cons_of_mem _ hm)

theorem ready (h : ReadyOrder done (us ++ u :: vs)) :
    ∃ spec, u.bridge = some spec ∧ spec.trace ∈ extended done us := by
  induction us generalizing done with
  | nil => exact h.1
  | cons v us ih => exact extended_cons ▸ ih h.2.2

end ReadyOrder

def visit (s : List Part × List String) (u : Part) : List Part × List String :=
  match u.bridge with
  | some b =>
    if u.trace.name ∉ s.2 ∧ b.trace ∈ s.2 then (s.1 ++ [u], u.trace.name :: s.2) else s
  | none => s

theorem bridgesAfter_succ (parts : List Part) (rounds : Nat) (done : List String) :
    bridgesAfter parts (rounds + 1) done = let s := parts.foldl visit ([], done)
      if s.1.isEmpty then [] else s.1 ++ bridgesAfter parts rounds s.2 := rfl

/-- No bridge of the list is new and continues a trace that is there. -/
def Complete (parts : List Part) (done : List String) : Prop :=
  ∀ u ∈ parts, ∀ spec, u.bridge = some spec → spec.trace ∈ done → u.trace.name ∈ done

theorem foldl_visit (parts found : List Part) (done : List String) : ∃ new,
    parts.foldl visit (found, done) = (found ++ new, extended done new) ∧ ReadyOrder done new ∧
      (∀ u ∈ new, u ∈ parts) ∧ (new = [] → Complete parts done) := by
  induction parts generalizing found done with
  | nil => exact ⟨[], by simp [extended], trivial, nofun, fun _ => nofun⟩
  | cons u parts ih =>
    have hsk (hu : ∀ spec, u.bridge = some spec → spec.trace ∈ done → u.trace.name ∈ done)
        (hvi : visit (found, done) u = (found, done)) : ∃ new,
        (u :: parts).foldl visit (found, done) = (found ++ new, extended done new) ∧
          ReadyOrder done new ∧ (∀ v ∈ new, v ∈ u :: parts) ∧
            (new = [] → Complete (u :: parts) done) := by
      obtain ⟨new, heq, hr, hsu, hc⟩ := ih found done
      rw [foldl_cons, hvi]
      exact ⟨new, heq, hr, fun v hv => mem_cons_of_mem _ (hsu v hv), fun hn =>
        forall_mem_cons.mpr ⟨hu, hc hn⟩⟩
    cases hs : u.bridge with
    | none => exact hsk (by simp [hs]) (by simp [visit, hs])
    | some spec =>
      by_cases ha : u.trace.name ∉ done ∧ spec.trace ∈ done
      · obtain ⟨new, heq, hr, hsu, -⟩ := ih (found ++ [u]) (u.trace.name :: done)
        have hvi : visit (found, done) u = (found ++ [u], u.trace.name :: done) := by
          simp [visit, hs, ha]
        refine ⟨u :: new, ?_, ⟨⟨spec, hs, ha.2⟩, ha.1, hr⟩, ?_, nofun⟩
        · rw [foldl_cons, hvi, heq, extended_cons, append_assoc]
          rfl
        · exact forall_mem_cons.mpr
            ⟨mem_cons_self, fun v hv => mem_cons_of_mem _ (hsu v hv)⟩
      · refine hsk ?_ (by simp [visit, hs, ha])
        intro spec' hs' ht
        cases hs.symm.trans hs'
        exact not_not.mp fun hn => ha ⟨hn, ht⟩

/-- With a round for each trace that is not there, nothing is left to add in the end. -/
theorem bridgesAfter_ready {parts : List Part} {rounds : Nat}
    (hro : (parts.filter (·.trace.name ∉ done)).length ≤ rounds) :
    ReadyOrder done (bridgesAfter parts rounds done) ∧ (∀ u ∈ bridgesAfter parts rounds done, u ∈ parts) ∧
        Complete parts (extended done (bridgesAfter parts rounds done)) := by
  induction rounds generalizing done with
  | zero =>
    refine ⟨trivial, nofun, fun u hu _ _ _ => ?_⟩
    have he := filter_eq_nil_iff.mp (length_eq_zero_iff.mp (Nat.le_zero.mp hro)) u hu
    simpa [extended, bridgesAfter] using he
  | succ rounds ih =>
    obtain ⟨new, heq, hr, hsu, hc⟩ := foldl_visit parts [] done
    rw [bridgesAfter_succ, heq]
    dsimp only [nil_append]
    cases new with
    | nil => exact ⟨trivial, nofun, by simpa [extended] using hc rfl⟩
    | cons u new =>
      rw [if_neg (by simp)]
      have hf : (parts.filter (·.trace.name ∉ extended done (u :: new))).length ≤ rounds := by
        have hlt : ((parts.filter (·.trace.name ∉ done)).filter
            (·.trace.name ∉ extended done (u :: new))).length <
              (parts.filter (·.trace.name ∉ done)).length := by
          refine length_filter_lt_length_iff_exists.mpr ⟨u, ?_, by simp⟩
          exact mem_filter.mpr ⟨hsu u mem_cons_self, by simpa using hr.2.1⟩
        have hs : (parts.filter (·.trace.name ∉ done)).filter
            (·.trace.name ∉ extended done (u :: new)) =
              parts.filter (·.trace.name ∉ extended done (u :: new)) := by
          rw [filter_filter]
          refine filter_congr fun v _ => ?_
          simp
        rw [hs] at hlt
        omega
      obtain ⟨hr', hsu', hc'⟩ := ih hf
      refine ⟨hr.append hr', fun v hv => ?_, extended_append ▸ hc'⟩
      exact (mem_append.mp hv).elim (hsu v) (hsu' v)

/-! ## Bridges that lead to loops -/

inductive Grounded (outline : List (String × Option BridgeSpec)) : String → Prop
  | loop {name : String} (h : (name, none) ∈ outline) : Grounded outline name
  | bridge {name : String} {spec : BridgeSpec} (h : (name, some spec) ∈ outline)
      (hspec : Grounded outline spec.trace) : Grounded outline name

def Document.outline (d : Document) : List (String × Option BridgeSpec) :=
  d.traces.map fun t => (t.name, t.bridge)

def outline (p : Program) : List (String × Option BridgeSpec) :=
  p.parts.map fun u => (u.trace.name, u.bridge)

theorem ReadyOrder.grounded {outline : List (String × Option BridgeSpec)} (h : ReadyOrder done us)
    (hd : ∀ name ∈ done, Grounded outline name) (hus : ∀ u ∈ us, (u.trace.name, u.bridge) ∈ outline) :
    ∀ u ∈ us, Grounded outline u.trace.name := by
  induction us generalizing done with
  | nil => exact nofun
  | cons u us ih =>
    obtain ⟨hu, hus⟩ := forall_mem_cons.mp hus
    obtain ⟨⟨spec, hs, ht⟩, -, hr⟩ := h
    have hg : Grounded outline u.trace.name := .bridge (hs ▸ hu) (hd _ ht)
    exact forall_mem_cons.mpr ⟨hg, ih hr (forall_mem_cons.mpr ⟨hg, hd⟩) hus⟩

variable {p : Program}

theorem mem_loops : u ∈ p.loops ↔ u ∈ p.parts ∧ u.isBridge = false := by
  rw [loops, mem_filter, Bool.not_eq_true']

theorem bridges_ready (p : Program) : ReadyOrder (p.loops.map (·.trace.name)) p.bridges ∧
    (∀ u ∈ p.bridges, u ∈ p.parts) ∧ Complete p.parts (extended (p.loops.map (·.trace.name)) p.bridges) :=
  bridgesAfter_ready (length_filter_le ..)

theorem bridges_subperm (p : Program) : p.bridges.Subperm (p.parts.filter (·.isBridge)) := by
  obtain ⟨hr, hsu, -⟩ := p.bridges_ready
  refine Nodup.subperm hr.nodup.1.of_map fun u hu => mem_filter.mpr ⟨hsu u hu, ?_⟩
  obtain ⟨us, vs, heq⟩ := append_of_mem hu
  obtain ⟨spec, hs, -⟩ := (heq ▸ hr).ready
  rw [Part.isBridge, hs]
  rfl

theorem length_bridge_parts (p : Program) :
    (p.parts.filter (·.isBridge)).length = p.parts.length - p.loops.length := by
  rw [loops, ← countP_eq_length_filter, ← countP_eq_length_filter,
    length_eq_countP_add_countP (·.isBridge) (l := p.parts)]
  simp

theorem eq_of_name (hn : (p.parts.map (·.trace.name)).Nodup) (hu : u ∈ p.parts)
    (hv : v ∈ p.parts) (h : u.trace.name = v.trace.name) : u = v := inj_on_of_nodup_map hn hu hv h

/-- **All bridges are listed if and only if each leads to a loop.** -/
theorem bridges_length_iff (hno : (p.parts.map (·.trace.name)).Nodup) :
    p.bridges.length = p.parts.length - p.loops.length ↔
      ∀ u ∈ p.parts, Grounded p.outline u.trace.name := by
  obtain ⟨hr, hsu, hc⟩ := p.bridges_ready
  have ho {u : Part} (hu : u ∈ p.parts) : (u.trace.name, u.bridge) ∈ p.outline := mem_map_of_mem hu
  have hl {u : Part} (hu : u ∈ p.loops) : Grounded p.outline u.trace.name := by
    obtain ⟨hm, hb⟩ := mem_loops.mp hu
    have hnn : u.bridge = none := by simpa [Part.isBridge] using hb
    exact .loop (hnn ▸ ho hm)
  rw [← length_bridge_parts]
  constructor
  · intro hle u hu
    cases hb : u.isBridge with
    | false => exact hl (mem_loops.mpr ⟨hu, hb⟩)
    | true =>
      have hp := p.bridges_subperm.perm_of_length_le (Nat.le_of_eq hle.symm)
      refine hr.grounded ?_ (fun v hv => ho (hsu v hv)) u
        (hp.mem_iff.mpr (mem_filter.mpr ⟨hu, hb⟩))
      rintro _ hn
      obtain ⟨v, hv, rfl⟩ := mem_map.mp hn
      exact hl hv
  · intro ha
    -- What leads to a loop is there in the end.
    have ht {name : String} (h : Grounded p.outline name) :
        name ∈ extended (p.loops.map (·.trace.name)) p.bridges := by
      induction h with
      | loop h =>
        obtain ⟨u, hu, heq⟩ := mem_map.mp h
        obtain ⟨rfl, hnn⟩ := Prod.mk.inj heq
        have hl : u ∈ p.loops := mem_loops.mpr ⟨hu, by simp [Part.isBridge, hnn]⟩
        exact mem_extended.mpr (.inr (mem_map_of_mem hl))
      | bridge h _ ih =>
        obtain ⟨u, hu, heq⟩ := mem_map.mp h
        obtain ⟨rfl, hs⟩ := Prod.mk.inj heq
        exact hc u hu _ hs ih
    refine Nat.le_antisymm p.bridges_subperm.length_le (Nodup.subperm ?_ fun u hu => ?_).length_le
    · exact (hno.of_map).filter _
    · obtain ⟨hu, hb⟩ := mem_filter.mp hu
      rcases mem_extended.mp (ht (ha u hu)) with hn | hn
      · obtain ⟨v, hv, heq⟩ := mem_map.mp hn
        exact eq_of_name hno (hsu v hv) hu heq ▸ hv
      · obtain ⟨v, hv, heq⟩ := mem_map.mp hn
        obtain ⟨hm, hnt⟩ := mem_loops.mp hv
        rw [eq_of_name hno hm hu heq, hb] at hnt
        cases hnt

/-! ## Documents -/

variable {d : Document} {scopes : List Scope} {parts : List Part} {cache cache' : Descriptors}
  {a b : Builder}

/-- A bridge continues the guard that its description names, and takes the guard's fail values. -/
def Continues (d : Document) (p : Program) (u : Part) (spec : BridgeSpec) : Prop :=
  ∃ i pos t owner op, u.continues = some (i, pos) ∧ d.traces[i]? = some t ∧ t.name = spec.trace ∧
    t.Picks spec.guard pos ∧ p.parts[i]? = some owner ∧ owner.trace.ops[pos]? = some (some op) ∧
      op.opcode.isGuard ∧ op.failArgs.map (·.map Value.kind) = u.trace.inputs.map (·.map Box.kind)

theorem index?_name (h : p.index? name = some i) (ho : p.parts[i]? = some owner) :
    owner.trace.name = name := by
  obtain ⟨hi, hn, -⟩ := findIdx?_eq_some_iff_getElem.mp h
  obtain ⟨_, rfl⟩ := List.getElem_of_getElem? ho
  simpa using hn

section

variable (h : Stages d scopes parts p)
include h

theorem Stages.continues (ht : d.traces[k]? = some t) (hs : t.bridge = some spec) :
    ∃ u, p.parts[k]? = some u ∧ Continues d p u spec := by
  have hk : k < parts.length := by
    rw [h.attached.length_eq, ← length_map, h.outline, length_map]
    exact (List.getElem_of_getElem? ht).1
  obtain ⟨t', s, ht', -, hb, -⟩ := h.built (getElem?_eq_getElem hk)
  cases ht.symm.trans ht'
  obtain ⟨u, hu, ha⟩ := exists_of_forall₂_left h.attached (getElem?_eq_getElem hk)
  obtain ⟨i, pos, owner, op, hc, hin, how, hp, hop, hki⟩ := ha.bridge spec (hb.bridge.trans hs)
  obtain ⟨t', s', ht', -, hb', -⟩ := h.built how
  obtain ⟨owner', how', ha'⟩ := exists_of_forall₂_left h.attached how
  have hp := hb'.picks hp
  have hg : op.opcode.isGuard := by
    obtain ⟨o, ho, hg, -⟩ := hp
    obtain ⟨op', hop', hf⟩ := hb'.opcode ho
    rw [Part.op?, hop] at hop'
    cases hop'
    simpa [OpSpec.isGuard, hf] using hg
  have he : op.exitValues = op.failArgs := by
    rw [Op.exitValues, if_neg]
    intro ho
    rw [ho] at hg
    cases hg
  obtain ⟨c, rfl⟩ := ha.same
  obtain ⟨c', rfl⟩ := ha'.same
  exact ⟨_, hu, i, pos, t', _, op, hc, ht', hb'.name.symm.trans (index?_name hin how), hp,
    how', hop, hg, he ▸ hki⟩

theorem Stages.getElem?_traces (hu : p.parts[k]? = some u) :
    ∃ t, d.traces[k]? = some t ∧ t.name = u.trace.name ∧ t.bridge = u.bridge := by
  have heq := congrArg (·[k]?) h.outline
  simp only [getElem?_map, hu, Option.map_some] at heq
  obtain ⟨t, ht, heq⟩ := Option.map_eq_some_iff.mp heq.symm
  exact ⟨t, ht, Prod.mk.inj heq⟩

theorem Stages.ready (heq : p.bridges = us ++ u :: vs) :
    ∃ i pos owner, u.continues = some (i, pos) ∧ p.parts[i]? = some owner ∧ owner ∈ p.loops ++ us := by
  obtain ⟨hr, hsu, -⟩ := p.bridges_ready
  rw [heq] at hr hsu
  obtain ⟨spec, hs, hn⟩ := hr.ready
  obtain ⟨k, hk⟩ := mem_iff_getElem?.mp (hsu u (by simp))
  obtain ⟨t, ht, -, hb⟩ := h.getElem?_traces hk
  obtain ⟨_, hk', i, pos, t', owner, _, hc, ht', htr, -, ho, -⟩ := h.continues ht (hb.trans hs)
  cases hk.symm.trans hk'
  obtain ⟨t'', ht'', hn', -⟩ := h.getElem?_traces ho
  cases ht'.symm.trans ht''
  refine ⟨i, pos, owner, hc, ho, ?_⟩
  have hm := mem_of_getElem? ho
  rw [← htr, hn'] at hn
  rcases mem_extended.mp hn with hn | hn
  · obtain ⟨v, hv, heq⟩ := mem_map.mp hn
    have hv' := hsu v (mem_append_left _ hv)
    exact mem_append_right _ (eq_of_name h.nodup hv' hm heq ▸ hv)
  · obtain ⟨v, hv, heq⟩ := mem_map.mp hn
    exact mem_append_left _ (eq_of_name h.nodup (mem_loops.mp hv).1 hm heq ▸ hv)

theorem Stages.outline_eq : p.outline = d.outline := h.outline

theorem Stages.bridges_length_iff : p.bridges.length = p.parts.length - p.loops.length ↔
      ∀ t ∈ d.traces, Grounded d.outline t.name := by
  rw [Program.bridges_length_iff h.nodup, h.outline_eq]
  have hn := congrArg (map Prod.fst) h.outline
  rw [map_map, map_map] at hn
  have ha := forall_mem_map (f := Prod.fst ∘ fun u : Part => (u.trace.name, u.bridge))
    (l := p.parts) (P := Grounded d.outline)
  rw [hn, forall_mem_map] at ha
  exact ha.symm

end

theorem run_resolve (h : (resolveParts d cache).run a = (.ok (p, cache'), b)) : (resolve d cache).run a =
      if p.bridges.length = p.parts.length - p.loops.length then (.ok (p, cache'), b)
      else (.error (.error ⟨"", 0, .cycle⟩), b) := by
  rw [resolve, run_seq h]
  by_cases hl : p.bridges.length = p.parts.length - p.loops.length
  · simp [hl]
  · simp [hl]
    rfl

/-- **Bridges are attached in order.** In the program of a document, a bridge continues the guard that
its description names, and the list of bridges has each of them once, behind the trace that it continues
or with a loop to continue. A document in which all else is right is refused if and only if some bridge
leads to no loop. -/
theorem resolve_orders_bridges (d : Document) (cache : Descriptors) (a : Builder) :
    (∀ p cache' b, (resolve d cache).run a = (.ok (p, cache'), b) →
      (∀ (k : Nat) t spec, d.traces[k]? = some t → t.bridge = some spec →
        ∃ u, p.parts[k]? = some u ∧ Continues d p u spec) ∧
      p.bridges.Perm (p.parts.filter (·.isBridge)) ∧
      ∀ us u vs, p.bridges = us ++ u :: vs → ∃ i pos owner, u.continues = some (i, pos) ∧
        p.parts[i]? = some owner ∧ owner ∈ p.loops ++ us) ∧
    ∀ p cache' b, (resolveParts d cache).run a = (.ok (p, cache'), b) →
      ((resolve d cache).run a = (.error (.error ⟨"", 0, .cycle⟩), b) ↔
        ∃ t ∈ d.traces, ¬ Grounded d.outline t.name) ∧
      ((resolve d cache).run a = (.ok (p, cache'), b) ↔
        ∀ t ∈ d.traces, Grounded d.outline t.name) := by
  constructor
  · intro p cache' b h
    obtain ⟨hparts, hlen⟩ := resolve_parts h
    obtain ⟨scopes, parts, hp⟩ := resolveParts_stages hparts
    refine ⟨fun k t spec ht hspec => hp.continues ht hspec,
      p.bridges_subperm.perm_of_length_le (Nat.le_of_eq (p.length_bridge_parts.trans hlen.symm)),
      fun us u vs heq => hp.ready heq⟩
  · intro p cache' b h
    obtain ⟨scopes, parts, hp⟩ := resolveParts_stages h
    have hiff := hp.bridges_length_iff
    rw [run_resolve h]
    split
    · rename_i hlen
      have hall := hiff.mp hlen
      exact ⟨⟨nofun, fun ⟨t, ht, hnot⟩ => absurd (hall t ht) hnot⟩, fun _ => hall, fun _ => rfl⟩
    · rename_i hlen
      have hsome : ∃ t ∈ d.traces, ¬ Grounded d.outline t.name := by
        simpa using mt hiff.mpr hlen
      exact ⟨⟨fun _ => hsome, fun _ => rfl⟩, nofun, fun hall => absurd (hiff.mpr hall) hlen⟩

/-- A bridge of a bridge, listed before the trace that it continues. -/
def chained : Document where
  traces := [
    { name := "last", inputs := ["n:int"], bridge := some { trace := "first", guard := "0" }, ops := [
      { op := "jump", args := ["n"], target := "down" }] },
    { name := "first", inputs := ["n:int"], bridge := some { trace := "down", guard := "end" }, ops := [
      { op := "int_gt", result := "more", args := ["n", "-9"] },
      { op := "guard_true", args := ["more"], fail := ["n"] },
      { op := "jump", args := ["n"], target := "down" }] },
    { name := "down", inputs := ["n:int"], ops := [
      { op := "int_gt", result := "more", args := ["n", "0"] },
      { op := "guard_true", args := ["more"], fail := ["n"], guard := "end" },
      { op := "int_sub", result := "m", args := ["n", "1"] },
      { op := "jump", args := ["m"] }] }]

def circular : Document where
  traces := [
    { name := "self", inputs := ["n:int"], bridge := some { trace := "self", guard := "0" }, ops := [
      { op := "int_gt", result := "more", args := ["n", "0"] },
      { op := "guard_true", args := ["more"], fail := ["n"] },
      { op := "jump", args := ["n"], target := "down" }] },
    { name := "down", inputs := ["n:int"], ops := [{ op := "jump", args := ["n"] }] }]

theorem resolve_orders_bridges_chained :
    (∃ p cache b, (resolve chained {}).run {} = (.ok (p, cache), b) ∧
      p.bridges.map (·.trace.name) = ["first", "last"] ∧
        ∀ us u vs, p.bridges = us ++ u :: vs → ∃ i pos owner, u.continues = some (i, pos) ∧
          p.parts[i]? = some owner ∧ owner ∈ p.loops ++ us) ∧
    ∃ b, (resolve circular {}).run {} = (.error (.error ⟨"", 0, .cycle⟩), b) ∧
      ∃ t ∈ circular.traces, ¬ Grounded circular.outline t.name := by
  constructor
  · obtain ⟨⟨p, cache⟩, b, h, hnames⟩ := exists_ok_of_map (x := (resolve chained {}).run {})
      (f := fun q => q.1.bridges.map (·.trace.name)) (v := ["first", "last"]) (by decide +kernel)
    exact ⟨p, cache, b, h, hnames, ((resolve_orders_bridges chained {} {}).1 p cache b h).2.2⟩
  · obtain ⟨⟨p, cache⟩, b, h, hlen⟩ := exists_ok_of_map (x := (resolveParts circular {}).run {})
      (f := fun q => (q.1.bridges.length, q.1.parts.length - q.1.loops.length)) (v := (0, 1))
      (by decide +kernel)
    have hrun : (resolve circular {}).run {} = (.error (.error ⟨"", 0, .cycle⟩), b) := by
      rw [run_resolve h, if_neg]
      rw [(Prod.mk.inj hlen).1, (Prod.mk.inj hlen).2]
      decide
    exact ⟨b, hrun, ((resolve_orders_bridges circular {} {}).2 p cache b h).1.mp hrun⟩

end TraceCompiler.Program
