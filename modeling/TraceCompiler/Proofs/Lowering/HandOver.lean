import TraceCompiler.Proofs.Lowering.Footprint
import TraceCompiler.Proofs.Lowering.Refinement
import TraceCompiler.Proofs.Machine.PatchSites

/-! # Exits and bridges

The table of exits of a compiled trace tells where its guards can be patched and where they leave their
fail values (`ExitTable`).
-/

namespace TraceCompiler.Lowering

open Machine (Cpu Setting Fragment Program Patchable Reaches seek seek_of_nodup)
open CompileM List
open Machine.Fragment (piecesAll)

variable {ω : Type} {u : Setup ω} {r : Request} {t : Trace} {bs : List Box} {ops : List Op}
  {supply supply' : BoxSupply} {res : Result} {s s1 s0 fin : State} {locs : List Location}
  {start : Frame} {op : Op} {p : Program} {e e' : Exit} {es es' : List Exit} {k : Int} {slot : Slot}
  {n : Nat} {b : Box}

/-! ## Patch sites -/

theorem siteLabel_injective : Function.Injective siteLabel := fun _ _ h =>
  toString_injective ((String.append_right_inj "site").mp h)

section

variable {hook : Word} {fails : List (Slot × List Fragment)} {pre post : List Fragment}
  (hcold : fin.cold.toList = pre ++ stubCode k hook fails ++ post)

include hcold

theorem exists_site : ∃ before after, fin.closed.fragment.stream false =
    before ++ (true, .jumpSite (failLabel k) (siteLabel k)) :: after := by
  have hm : .jumpSite (failLabel k) (siteLabel k) ∈ fin.closed.cold.toList := by
    rw [State.closed, Array.toList_appendList, hcold]
    simp [stubCode]
  have ho : Fragment.stream true (.jumpSite (failLabel k) (siteLabel k)) =
      [(true, .jumpSite (failLabel k) (siteLabel k))] := rfl
  obtain ⟨before, after, hst⟩ := Fragment.exists_streamAll hm ho
  refine ⟨Fragment.streamAll false (fin.closed.main.toList.map Item.fragment) ++ before, after, ?_⟩
  simp only [State.fragment, Fragment.stream, Fragment.streamAll, append_nil, decide_true, hst,
    append_assoc]

theorem seek_failLabel (hnd : (Machine.labelsOf fin.closed.fragment.layout).Nodup) :
    ∃ rest, seek (failLabel k) fin.closed.fragment.layout =
      some (piecesAll .cold .cold (reportCode k hook (fails.map Prod.fst)) ++ rest) := by
  obtain ⟨mid, hl⟩ := layout_closed fin
  rw [hcold, Fragment.piecesAll_append, Fragment.piecesAll_append, pieces_stubCode] at hl
  refine ⟨piecesAll .cold .cold post ++ .label exitLabel :: wayOut, seek_of_nodup hnd
    (?_ : _ = (fin.code ++ (mid ++ (piecesAll .cold .cold pre ++ .label (stubLabel k) ::
      (piecesAll .cold .cold (fails.flatMap Prod.snd) ++
        [.jumpSite (failLabel k) (siteLabel k)])))) ++ .label (failLabel k) :: _)⟩
  rw [hl]
  simp

end

/-! ## The table of exits -/

def Given (r : Request) (t : Trace) (b : Box) (slot : Slot) : Prop :=
  ∃ j : Nat, t.inputs[j]? = some (some b) ∧ (givenSlots r)[j]? = some slot

/-- The exit `e` stands for the operation `op` of a trace that was compiled to `code`. -/
structure Describes (r : Request) (t : Trace) (code : Fragment) (p : Program) (op : Op) (e : Exit) :
    Prop where
  opcode : e.opcode = op.opcode
  kinds : op.exitKinds? = some e.kinds
  /-- A guard can be patched: there is a jump to its own failure path. -/
  site : op.opcode.isGuard = true → ∃ n rest, e.patch = some n ∧ Patchable p (failLabel e.index) n ∧
    seek (failLabel e.index) code.layout =
      some (piecesAll .cold .cold (reportCode e.index r.hooks.failure e.slots) ++ rest)
  noSite : op.opcode.isGuard = false → e.patch = none
  length_eq : e.slots.length = op.failArgs.length
  below : ∀ slot ∈ e.slots, slot.index < e.frameDepth
  boxes : ∀ (i j : Nat) b b' slot, op.failArgs[i]? = some (some (.box b)) →
    op.failArgs[j]? = some (some (.box b')) → e.slots[i]? = some slot → e.slots[j]? = some slot →
      b = b' ∨ Given r t b slot ∧ Given r t b' slot

structure ExitTable (r : Request) (t : Trace) (code : Fragment) (res : Result) : Prop where
  exits : Forall₂ (fun x => Describes r t code res.program x.2) t.exits res.exits
  index : ∀ (i : Nat) e, res.exits[i]? = some e → e.index = wrap64 (r.firstExit + i)
  sites : ∀ (i j : Nat) e e' n, res.exits[i]? = some e → res.exits[j]? = some e' →
    e.patch = some n → e'.patch = some n → i = j
  sorted : res.exits.Pairwise (·.frameDepth ≤ ·.frameDepth)
  depth : ∀ e ∈ res.exits, r.frameStart ≤ e.frameDepth ∧ e.frameDepth ≤ res.frameDepth
  fresh : ∀ e ∈ res.exits, ∀ slot ∈ e.slots, slot ∈ givenSlots r ∨ r.frameStart ≤ slot.index
  /-- A constant has a slot that nothing else has, neither in its exit nor in another. -/
  consts : ∀ (i j i' j' : Nat) x e e' q slot, t.exits[i]? = some x → res.exits[i]? = some e →
    x.2.failArgs[j]? = some (some (.const q)) → e.slots[j]? = some slot →
      res.exits[i']? = some e' → e'.slots[j']? = some slot → i' = i ∧ j' = j

theorem exits_map_snd (ho : t.ops = ops.map some) :
    t.exits.map Prod.snd = ops.filter (·.opcode.exitsTrace) := by
  rw [Trace.exits, ho]
  clear ho
  generalize 0 = k
  induction ops generalizing k with
  | nil => rfl
  | cons op ops ih => cases hop : op.opcode.exitsTrace <;> simp [hop, ih]

theorem Located.eq (h : Located p e e') : e' = { e with patch := e'.patch } := by
  cases h <;> rfl

theorem Located.get {i : Nat} (h : Forall₂ (Located p) es es') (he : es'[i]? = some e') :
    ∃ e, es[i]? = some e ∧ Located p e e' := by
  obtain ⟨hi, rfl⟩ := List.getElem_of_getElem? he
  have hi' : i < es.length := h.length_eq ▸ hi
  exact ⟨es[i], getElem?_eq_getElem hi', h.get hi' hi⟩

theorem Recorded.site (hr : Recorded r start fin op e) (he : op.opcode.exitsTrace = true)
    (hl : Located p e e') (hn : e'.patch = some n) :
    p.labels.get? (siteLabel e.index) = some n ∧ ∃ before after, fin.closed.fragment.stream false =
      before ++ (true, .jumpSite (failLabel e.index) (siteLabel e.index)) :: after := by
  cases hl with
  | finish =>
    rw [hr.patch] at hn
    cases hn
  | guard hf hs =>
    cases hn
    have hg : op.opcode.isGuard = true := by
      rw [hr.opcode] at hf
      simpa [Opcode.exitsTrace, hf] using he
    obtain ⟨pre, fails, post, -, hcold⟩ := hr.stub hg
    exact ⟨hs, exists_site hcold⟩

namespace Table

variable {i j : Nat}

section

variable (h : Table r start fin k lo ops es)
include h

theorem index_injective (hl : es.length < 0x4000000000000000) (hi : es[i]? = some e)
    (hj : es[j]? = some e') (heq : e.index = e'.index) : i = j := by
  obtain ⟨hil, -⟩ := List.getElem_of_getElem? hi
  obtain ⟨hjl, -⟩ := List.getElem_of_getElem? hj
  rw [h.index i e hi, h.index j e' hj, wrap64, wrap64, Int.bmod_def, Int.bmod_def] at heq
  omega

theorem get (hi : es[i]? = some e) :
    ∃ op, (ops.filter (·.opcode.exitsTrace))[i]? = some op ∧ op.opcode.exitsTrace = true ∧
      Recorded r start fin op e := by
  obtain ⟨hlt, rfl⟩ := List.getElem_of_getElem? hi
  have hlt' : i < (ops.filter (·.opcode.exitsTrace)).length := h.recorded.length_eq ▸ hlt
  refine ⟨_, getElem?_eq_getElem hlt', ?_, h.recorded.get hlt' hlt⟩
  exact (mem_filter.mp (getElem_mem hlt')).2

theorem const_own (hi : es[i]? = some e) (hj : es[j]? = some e') (hs : slot ∈ e.slots)
    (hs' : slot ∈ e'.slots) (ho : ∀ b, fin.frame.get? b ≠ some slot) : i = j := by
  obtain ⟨hil, rfl⟩ := List.getElem_of_getElem? hi
  obtain ⟨hjl, rfl⟩ := List.getElem_of_getElem? hj
  have ha := pairwise_iff_getElem.mp h.apart
  rcases Nat.lt_trichotomy i j with hlt | heq | hlt
  · obtain ⟨b, hb⟩ := ha i j hil hjl hlt slot hs hs'
    exact absurd hb (ho b)
  · exact heq
  · obtain ⟨b, hb⟩ := ha j i hjl hil hlt slot hs' hs
    exact absurd hb (ho b)

theorem const_once (hi : es[i]? = some e) (hj : es[j]? = some e')
    (hop : (ops.filter (·.opcode.exitsTrace))[i]? = some op) {m : Nat} {q : Const}
    (hq : op.failArgs[m]? = some (some (.const q))) (hs : e.slots[m]? = some slot)
    (hs' : e'.slots[n]? = some slot) : j = i ∧ n = m := by
  obtain ⟨_, hop', -, hr⟩ := h.get hi
  cases hop'.symm.trans hop
  obtain ⟨vals, hv, hsa⟩ := hr.saves
  rw [hv, getElem?_map] at hq
  obtain ⟨_, hq, ⟨⟩⟩ := Option.map_eq_some_iff.mp hq
  obtain ⟨ho, hon⟩ := hsa.const m q slot hq hs
  obtain rfl := h.const_own hj hi (mem_of_getElem? hs') (mem_of_getElem? hs) ho
  cases hi.symm.trans hj
  exact ⟨rfl, hon n hs'⟩

theorem patch_injective (hle : es.length < 0x4000000000000000)
    (hl : fin.closed.fragment.LaidOut p) (hlo : Forall₂ (Located p) es es')
    (hi : es'[i]? = some e) (hj : es'[j]? = some e') (hn : e.patch = some n)
    (hn' : e'.patch = some n) : i = j := by
  obtain ⟨e1, he1, hl1⟩ := Located.get hlo hi
  obtain ⟨e2, he2, hl2⟩ := Located.get hlo hj
  obtain ⟨_, -, he, hr⟩ := h.get he1
  obtain ⟨_, -, hei, hre⟩ := h.get he2
  obtain ⟨hs, _, _, hst⟩ := hr.site he hl1 hn
  obtain ⟨hsi, _, _, hs2⟩ := hre.site hei hl2 hn'
  refine h.index_injective hle he1 he2 (siteLabel_injective ?_)
  by_contra hne
  exact hl.site_ne hst hs2 hne hs hsi rfl

theorem sorted_of_located (hl : Forall₂ (Located p) es es') :
    es'.Pairwise (·.frameDepth ≤ ·.frameDepth) := by
  refine pairwise_iff_getElem.mpr fun i j hi hj hlt => ?_
  obtain ⟨_, he1, hl1⟩ := Located.get hl (getElem?_eq_getElem hi)
  obtain ⟨_, he2, hl2⟩ := Located.get hl (getElem?_eq_getElem hj)
  obtain ⟨hi', rfl⟩ := List.getElem_of_getElem? he1
  obtain ⟨hj', rfl⟩ := List.getElem_of_getElem? he2
  rw [hl1.eq, hl2.eq]
  exact pairwise_iff_getElem.mp h.sorted i j hi' hj' hlt

theorem given_or_fresh (ho : Opened r t bs start) (hi : es[i]? = some e) (hsl : slot ∈ e.slots) :
    slot ∈ givenSlots r ∨ r.frameStart ≤ slot.index := by
  obtain ⟨_, -, -, hr⟩ := h.get hi
  obtain ⟨_, -, hs⟩ := hr.saves
  rcases hs.fresh slot hsl with hid | ⟨b, hb⟩
  · exact .inr (ho.le.trans hid)
  · exact .inl (ho.given hb).2

end

end Table

theorem Opened.given_input (h : Opened r t bs start) (hin : t.inputs = bs.map some)
    (hb : start.get? b = some slot) : Given r t b slot := by
  obtain ⟨j, hj, hs⟩ := (h.slots b slot).mp hb
  refine ⟨j, by rw [hin, getElem?_map, hj]; rfl, ?_⟩
  unfold givenSlots
  cases he : r.entry with
  | loop =>
    rw [he] at hs
    simp [Entry.slots, getElem?_replicate] at hs
  | bridge slots => simpa [he, Entry.slots] using hs

section

variable (h : Compiled r t bs ops supply s0 fin res)
include h

/-- Boxes with one slot are one box, unless they are inputs that were given one slot. -/
theorem Compiled.slot_own (ho : Framed r t bs ops s0 fin start) {b' : Box}
    (hb : fin.frame.get? b = some slot) (hb' : fin.frame.get? b' = some slot) :
    b = b' ∨ Given r t b slot ∧ Given r t b' slot := by
  have hf := ho.front
  have hc := ho.ample.count
  have h0 := ho.ample.nonneg
  cases hold : start.get? b with
  | none => exact .inl (hf.own h0 (by omega) ho.below hold hb hb')
  | some sl =>
    cases hold' : start.get? b' with
    | none => exact .inl (hf.own h0 (by omega) ho.below hold' hb' hb).symm
    | some sl' =>
      cases (hf.keeps b sl hold).symm.trans hb
      cases (hf.keeps b' sl' hold').symm.trans hb'
      exact .inr ⟨ho.given_input h.inputs hold, ho.given_input h.inputs hold'⟩

theorem Compiled.describes
    (ho : Framed r t bs ops s0 fin start) (he : op.opcode.exitsTrace = true) (hre : Recorded r start fin op e)
    (hl : Located res.program e e') : Describes r t fin.closed.fragment res.program op e' := by
  obtain ⟨vals, hv, hs⟩ := hre.saves
  have hva {j : Nat} {x : Value} (hx : op.failArgs[j]? = some (some x)) : vals[j]? = some x := by
    rw [hv, getElem?_map] at hx
    obtain ⟨_, hx, ⟨⟩⟩ := Option.map_eq_some_iff.mp hx
    exact hx
  have heq := hl.eq
  refine ⟨by rw [heq]; exact hre.opcode, by rw [heq]; exact hre.kinds, fun hg => ?_,
    fun hg => ?_, ?_, ?_, fun i j b b' slot hi hj hsi hsj => ?_⟩
  · cases hl with
    | finish hfi =>
      rw [← hre.opcode, hfi] at hg
      cases hg
    | @guard n _ hse =>
      obtain ⟨pre, fails, post, hsl, hcold⟩ := hre.stub hg
      obtain ⟨before, after, hst⟩ := exists_site hcold
      obtain ⟨rest, hr⟩ := seek_failLabel hcold (Machine.Program.nodup_labels h.assembled.program)
      refine ⟨n, rest, rfl, (Machine.Program.laidOut_of_ok h.assembled.program).patchable hst hse, ?_⟩
      rw [← hsl] at hr
      exact hr
  · cases hl with
    | finish => exact hre.patch
    | guard hfi =>
      rw [hre.opcode] at hfi
      simp [Opcode.exitsTrace, hg, hfi] at he
  · rw [heq, hv, length_map]
    exact hs.length_eq
  · rw [heq]
    exact hs.below
  · rw [heq] at hsi hsj
    exact h.slot_own ho (hs.box i b slot (hva hi) hsi)
      (hs.box j b' slot (hva hj) hsj)

theorem Compiled.exitTable (hm : Made t supply)
    (hnu : Numbered r t) : ExitTable r t fin.closed.fragment res := by
  obtain ⟨locs, s1, hen, htr⟩ := h.idle_trail hm
  obtain ⟨start, ho⟩ := framed hen htr h hnu
  obtain ⟨es, hes, ht⟩ := htr.exits ho.ample
  have hn : s0.exits = #[] := hen.silent.plain.exits.trans hen.placed.settles.exits
  rw [hn, nil_append] at hes
  rw [hn, Array.size_empty, Int.natCast_zero, Int.add_zero] at ht
  have hlc : Forall₂ (Located res.program) es res.exits := hes ▸ h.assembled.exits
  have hln : es.length < 0x4000000000000000 := by
    rw [← ht.recorded.length_eq]
    have hfi := length_filter_le (·.opcode.exitsTrace) ops
    have hos : ops.length ≤ slotDemand t := by
      rw [slotDemand, h.ops_eq, length_map]
      omega
    have := hnu.start
    have := hnu.demand
    omega
  refine ⟨?_, fun i e' he' => ?_, fun i j e1 e2 n h1 h2 hn1 hn2 => ?_, ?_, fun e' he' => ?_,
    fun e' he' slot hs => ?_, fun i j i' j' x e1 e2 q slot hx h1 hq hs1 h2 hs2 => ?_⟩
  · refine forall₂_map_left_iff.mp (?_ : Forall₂ _ (t.exits.map Prod.snd) _)
    rw [exits_map_snd h.ops_eq]
    refine forall₂_iff_get.mpr ⟨ht.recorded.length_eq.trans hlc.length_eq, fun i h1 h2 => ?_⟩
    obtain ⟨e, he, hl⟩ := Located.get hlc (getElem?_eq_getElem h2)
    obtain ⟨op, hop, hei, hr⟩ := ht.get he
    cases (getElem?_eq_getElem h1).symm.trans hop
    exact h.describes ho hei hr hl
  · obtain ⟨e, he, hl⟩ := Located.get hlc he'
    rw [hl.eq]
    exact ht.index i e he
  · exact ht.patch_injective hln (Machine.Program.laidOut_of_ok h.assembled.program) hlc h1 h2 hn1
      hn2
  · exact ht.sorted_of_located hlc
  · obtain ⟨i, hi⟩ := mem_iff_getElem?.mp he'
    obtain ⟨e, he, hl⟩ := Located.get hlc hi
    obtain ⟨hlo, hhi⟩ := ht.depth e (mem_of_getElem? he)
    rw [hl.eq, h.assembled.depth]
    exact ⟨(ho.le.trans ho.ample.next_bounds.1).trans hlo, hhi⟩
  · obtain ⟨i, hi⟩ := mem_iff_getElem?.mp he'
    obtain ⟨e, he, hl⟩ := Located.get hlc hi
    rw [hl.eq] at hs
    exact ht.given_or_fresh ho.toOpened he hs
  · obtain ⟨e1', he1, hl1⟩ := Located.get hlc h1
    obtain ⟨e2', he2, hl2⟩ := Located.get hlc h2
    rw [hl1.eq] at hs1
    rw [hl2.eq] at hs2
    have hx' : (t.exits.map Prod.snd)[i]? = some x.2 := by rw [getElem?_map, hx]; rfl
    rw [exits_map_snd h.ops_eq] at hx'
    exact ht.const_once he1 he2 hx' hq hs1 hs2

end

/-! ## What a failing guard leaves -/

/-- The processor has left a trace or comes to one: the words `values` are in the slots `slots` of the
frame. -/
structure Carries (env : Setting ω) (slots : List Slot) (values : List Word) (c : Cpu ω) : Prop where
  base : c.gp Machine.Reg.rbp = env.frameBase
  header : c.frame HeaderWord.values.offset = env.valuesBase
  slots : slots.map (fun slot => c.frame slot.offset) = values

/-- A trace is entered with the inputs `args`: a loop with the inputs in the value array, and a bridge with
the inputs in the slots that it was given. -/
inductive Begins (env : Setting ω) (r : Request) (args : List Word) (c : Cpu ω) : Prop
  | loop (hentry : r.entry = .loop) (enters : Enters env c) (holds : Holds args c)
  | bridge {slots : List Slot} (hentry : r.entry = .bridge slots) (carries : Carries env slots args c)

def startLabel (r : Request) : String := if r.entry.isBridge then bodyLabel else entryLabel

namespace Embedded

variable {prog out rest : List Fragment} {c : Cpu ω} {args values : List Word}

theorem begins (h : Embedded u t bs ops supply locs s1 s0 fin start prog out)
    (hsh : u.shared = if u.req.entry.isBridge then bs else [])
    (hs : u.stack = if u.req.entry.isBridge then c.stack else savedStack c)
    (hbe : Begins u.env u.req args c) (hle : args.length = bs.length) :
    ∃ first rest' c', seek (startLabel u.req) prog = some first ∧ prog = s0.code ++ rest' ∧
      Reaches u.env prog (first, c) (rest', c') ∧ c'.world = c.world ∧
        Good u s0 c' fun b => (Eval.bindInputs t.inputs args).getD b 0 := by
  cases hbe with
  | loop he enters holds =>
    rw [he] at hsh hs
    rw [startLabel, he]
    exact h.reaches_body he hsh enters hs holds hle
  | @bridge slots he carries =>
    rw [he] at hs
    obtain ⟨rest, hse, hr⟩ := h.seek_body
    refine ⟨rest, rest, c, by rw [startLabel, he]; exact hse, hr, .refl, rfl,
      h.entered.good carries.base carries.header hs.symm fun j b l hb hl => ?_⟩
    obtain ⟨hj, -⟩ := List.getElem_of_getElem? hb
    obtain ⟨w, hw⟩ : ∃ w, args[j]? = some w := ⟨_, getElem?_eq_getElem (hle ▸ hj)⟩
    have hst : u.req.entry.slots bs.length = slots.map some := by rw [he, Entry.slots]
    have hso := hw
    rw [← carries.slots, getElem?_map] at hso
    obtain ⟨sl, hsl, hwo⟩ := Option.map_eq_some_iff.mp hso
    obtain ⟨hjl, rfl⟩ := List.getElem_of_getElem? hl
    have hg := h.entered.placed.given
    rw [hst] at hg
    have hjs : j < (slots.map some).length := hg.length_eq ▸ hjl
    have hp : locs[j] = .slot sl := hg.get hjs hjl sl (by
      obtain ⟨_, heq⟩ := List.getElem_of_getElem? hsl
      simp [heq])
    rw [hp, h.inputs, Eval.bindInputs_getD h.nodup hle hb hw]
    exact hwo

section

variable {ks : List Box} {pos : Nat} {l : Lifetimes} {v : Box → Word} {m : Eval.Machine ω}

theorem fails (h : Embedded u t bs ops supply locs s1 s0 fin start prog out)
    (hab : Abreast u fin start ops locs prog pos ks l n s v m rest c) (hop : ops[pos]? = some op)
    (hg : op.opcode.isGuard = true) (hq : Quits u.env.host op m values) :
    ∃ e, fin.exits.toList[exitCount (ops.take pos)]? = some e ∧ ∃ rest' c',
      Reaches u.env prog (rest, c) (.jumpSite (failLabel e.index) (siteLabel e.index) :: rest', c') ∧
        Carries u.env e.slots values c' := by
  have htr := hab.trail
  generalize ht : ops.drop pos = todo at htr
  cases htr with
  | step between _ stage trail =>
    cases (drop_cons ht.symm).1.symm.trans hop
    cases stage with
    | stay _ noGuard => cases noGuard.symm.trans hg
    | @guard s2 _ br kinds vals fails f _ _ _ hf guarded hfr silent =>
      cases hq with
      | finish ho =>
        rw [ho] at hg
        cases hg
      | guard _ hh heq =>
        obtain ⟨pre, after, c', v', -, hr, hgo, hs⟩ :=
          h.reaches_patch hab ht.symm between hf guarded hfr silent trail hh
        refine ⟨⟨exitNumber u.req ops pos, op.opcode, kinds, fails.map Prod.fst, none, f.depth⟩, ?_, _,
          c', hr, hgo.base, hgo.header, hs.trans heq.symm⟩
        have hro := ht ▸ hab.room.toAmple
        obtain ⟨es, hes, -⟩ := trail.exits (hfr ▸ hro.guarded guarded hf)
        have he : s2.exits = s.exits := guarded.check.plain.exits
        rw [hes, silent.plain.exits, guarded.eq, ← nextExit_eq hab.exits, ← hab.exits]
        simp [he]
  | final _ _ isFinal =>
    cases (drop_cons ht.symm).1.symm.trans hop
    cases ho : op.opcode <;> rw [ho] at hg isFinal <;> cases hg <;> cases isFinal

end

end Embedded

theorem Compiled.fails (h : Compiled r t bs ops supply s0 fin res) (hm : Made t supply)
    (hn : Numbered r t) {env : Setting ω} (him : Implements env r.hooks)
    (hea : ∀ op, some op ∈ t.ops → Exact op) (hd : res.frameDepth ≤ 0xFFFFFFB)
    (hgi : ∀ slot ∈ givenSlots r, 0 ≤ slot.index) {c : Cpu ω} {args : List Word} {maxSteps : Int}
    {o : Eval.Outcome} {world : ω} (hb : Begins env r args c)
    (hru : Eval.run (Looped.linked r t) env.host maxSteps 0 args c.world = (.ok o, world)) :
    ∃ (i : Nat) (op : Op), t.exits[i]? = some (o.pos, op) ∧ (op.opcode.isGuard = true →
      ∃ e first rest c', res.exits[i]? = some e ∧
        seek (startLabel r) fin.closed.fragment.layout = some first ∧
        Reaches env fin.closed.fragment.layout (first, c)
          (.jumpSite (failLabel e.index) (siteLabel e.index) :: rest, c') ∧
        Carries env e.slots o.values c') := by
  have hf := h.fine hm hn hd fun slots hs slot hsl =>
    hgi slot (by rwa [givenSlots, hs])
  let u : Setup ω :=
    { env, req := r, implements := him, made := supply.made,
      shared := if r.entry.isBridge then bs else [], frame := fin.frame, fine := hf,
      stack := if r.entry.isBridge then c.stack else savedStack c }
  have hu : Compiled u.req t bs ops supply s0 fin res := h
  obtain ⟨locs, s1, start, hem⟩ := hu.embedded rfl hm rfl (fun _ _ h => h) hn hd hea
  obtain ⟨max, t', m', ht, hle, hgo⟩ := Eval.run_ok hru
  cases ht
  rw [h.inputs, length_map] at hle
  obtain ⟨first, rest1, c1, hse, hrs, hr, hw, hgd⟩ := hem.begins rfl rfl hb hle
  rw [h.ops_eq] at hgo
  obtain ⟨_, _, _, _, _, _, _, _, op, hab, hre, hop, hq⟩ := hem.arrives max
    (hem.abreast hgd (hem.inStep ⟨Eval.bindInputs t.inputs args, false, c.world⟩ hw.symm) hrs) hgo
  have hei : op.opcode.exitsTrace = true := by
    cases hq with
    | guard hg => rw [Opcode.exitsTrace, hg, Bool.true_or]
    | finish ho => rw [ho]; rfl
  refine ⟨_, op, exits_getElem? h.ops_eq hop hei, fun hg => ?_⟩
  obtain ⟨e, he, rest3, c3, hra, hc⟩ := hem.fails hab hop hg hq
  obtain ⟨hi, rfl⟩ := List.getElem_of_getElem? he
  have hlo : Forall₂ (Located res.program) fin.exits.toList res.exits := h.assembled.exits
  have hi' : _ < res.exits.length := hlo.length_eq ▸ hi
  have hl := hlo.get hi hi'
  refine ⟨_, first, rest3, c3, getElem?_eq_getElem hi', hse, ?_, ?_⟩
  · rw [get_eq_getElem, get_eq_getElem] at hl
    rw [hl.eq]
    exact (hr.trans hre).trans hra
  · rw [get_eq_getElem, get_eq_getElem] at hl
    rw [hl.eq]
    exact hc

/-! ## Bridges -/

/-- Until its last jump a bridge leaves the slots alone that it was given: they lie below the slots that
it takes, and its code stores to the latter. -/
structure HandsOver (r : Request) (t : Trace) (code : Fragment) (res : Result) : Prop where
  below : ∀ slot ∈ givenSlots r, slot.index < r.frameStart
  within : ∃ main last cold, code.layout = main ++ last ++ .instr .hlt :: cold ∧
    Within (traceScope r res) main ∧ Within (traceScope r res) cold ∧
    (Within (traceScope r res) last ∨
      ∃ op locs, t.ops.getLast? = some (some op) ∧ op.opcode = .jump ∧ Transfers op locs last)

theorem Compiled.handsOver (h : Compiled r t bs ops supply s0 fin res) (hm : Made t supply)
    (hn : Numbered r t) (hb : ∀ slot ∈ givenSlots r, slot.index < r.frameStart) :
    HandsOver r t fin.closed.fragment res := by
  obtain ⟨main, last, cold, hl, hma, hcold, hp⟩ := h.footprint hm hn
  refine ⟨hb, main, last, cold, hl, hma, hcold, ?_⟩
  cases hp with
  | finish _ _ within => exact .inl within
  | @jump op locs _ hla ho _ transfers =>
    refine .inr ⟨op, locs, ?_, ho, transfers⟩
    rw [h.ops_eq, getLast?_map, hla]
    rfl

/-- **Exits and bridges.** A compiled trace has one exit for each of its guards and finishes, and a guard
that fails comes to the patch site of its exit with the fail values in the slots of the exit. A bridge
that is given those slots, and starts at the depth of the exit, leaves them alone until its last jump. -/
theorem compile_exits (htrace : r.trace = some t) (hvalid : t.validate = .ok ())
    (hcompile : compile r supply = (.ok res, supply')) (hmade : Made t supply) (hnum : Numbered r t) :
    ∃ code, Program.ofFragment code = .ok res.program ∧ ExitTable r t code res ∧
      (∀ (env : Setting ω), Implements env r.hooks → (∀ op, some op ∈ t.ops → Exact op) →
        res.frameDepth ≤ 0xFFFFFFB → (∀ slot ∈ givenSlots r, 0 ≤ slot.index) →
        ∀ (c : Cpu ω) (args : List Word) (maxSteps : Int) (o : Eval.Outcome) (world : ω),
          Begins env r args c →
          Eval.run (Looped.linked r t) env.host maxSteps 0 args c.world = (.ok o, world) →
          ∃ (i : Nat) (op : Op), t.exits[i]? = some (o.pos, op) ∧ (op.opcode.isGuard = true →
            ∃ e first rest c', res.exits[i]? = some e ∧
              seek (startLabel r) code.layout = some first ∧
              Reaches env code.layout (first, c)
                (.jumpSite (failLabel e.index) (siteLabel e.index) :: rest, c') ∧
              Carries env e.slots o.values c')) ∧
      ∀ e ∈ res.exits, ∀ (r' : Request) (t' : Trace) (made made' : BoxSupply) (res' : Result),
        r'.trace = some t' → t'.validate = .ok () → r'.entry = .bridge e.slots →
        r'.frameStart = e.frameDepth → e.frameDepth + slotDemand t' < 0x4000000000000000 →
        Made t' made → compile r' made = (.ok res', made') →
        ∃ code', Program.ofFragment code' = .ok res'.program ∧ ExitTable r' t' code' res' ∧
          HandsOver r' t' code' res' := by
  obtain ⟨bs, ops, s0, fin, h⟩ := compile_ok htrace hvalid hcompile
  have htable := h.exitTable hmade hnum
  refine ⟨fin.closed.fragment, h.assembled.program, htable,
    fun env himpl hexact hdepth hgiven c args maxSteps o world hbegins hrun =>
      h.fails hmade hnum himpl hexact hdepth hgiven hbegins hrun,
    fun e he r' t' made made' res' htrace' hvalid' hentry hstart hdemand hmade' hcompile' => ?_⟩
  obtain ⟨bs', ops', s0', fin', h'⟩ := compile_ok htrace' hvalid' hcompile'
  have hslots : givenSlots r' = e.slots := by rw [givenSlots, hentry]
  have hbelow : ∀ slot ∈ e.slots, slot.index < e.frameDepth := by
    obtain ⟨i, hi⟩ := List.mem_iff_getElem?.mp he
    obtain ⟨hlt, rfl⟩ := List.getElem?_eq_some_iff.mp hi
    have hlt' : i < t.exits.length := htable.exits.length_eq ▸ hlt
    exact (htable.exits.get hlt' hlt).below
  have hnum' : Numbered r' t' := by
    refine ⟨?_, hstart ▸ hdemand, fun slots hs slot hslot => ?_⟩
    · rw [hstart]
      exact hnum.start.trans (htable.depth e he).1
    · cases hentry.symm.trans hs
      have := hbelow slot hslot
      omega
  refine ⟨fin'.closed.fragment, h'.assembled.program, h'.exitTable hmade' hnum',
    h'.handsOver hmade' hnum' ?_⟩
  rw [hslots, hstart]
  exact hbelow

def sequel : Trace :=
  let n : Box := ⟨4, .int⟩
  let more : Box := ⟨5, .int⟩
  ⟨"sequel", [some n], [
    some ⟨.intAdd, [some (.box n), some (.const ⟨.int, 10⟩)], some more, none, []⟩,
    some ⟨.guardFalse, [some (.box more)], none, none, [some (.box more), some (.box n)]⟩,
    some ⟨.finish, [some (.box more)], none, none, []⟩]⟩

def sequelRequest : Request :=
  { trace := some sequel, entry := .bridge [⟨0⟩], frameStart := 1, firstExit := 8 }

theorem compile_exits_countdown : ∃ res supply' code e, compile countdownRequest ⟨3⟩ = (.ok res, supply') ∧
    Program.ofFragment code = .ok res.program ∧ res.exits = [e] ∧ e.slots = [⟨0⟩] ∧
    (∃ n, e.patch = some n ∧ Patchable res.program (failLabel 7) n) ∧
    (∃ first rest c', seek entryLabel code.layout = some first ∧
      Reaches (Setup.idle countdownRequest 3 []).env code.layout (first, cpuWith 1)
        (.jumpSite (failLabel 7) (siteLabel 7) :: rest, c') ∧
      Carries (Setup.idle countdownRequest 3 []).env [⟨0⟩] [0] c') ∧
    ∃ res' supply'' code', compile sequelRequest ⟨5⟩ = (.ok res', supply'') ∧
      HandsOver sequelRequest sequel code' res' := by
  obtain ⟨res, supply', hcompile, hres⟩ := exists_ok_of_map (x := compile countdownRequest ⟨3⟩)
    (f := fun res => (res.frameDepth, res.exits.map fun e => (e.index, e.slots, e.frameDepth)))
    (v := (1, [(7, [⟨0⟩], 1)])) (by decide +kernel)
  obtain ⟨hdepth, hexits⟩ := Prod.mk.inj hres
  obtain ⟨e, hone, he⟩ := List.map_eq_singleton_iff.mp hexits
  obtain ⟨hindex, he⟩ := Prod.mk.inj he
  obtain ⟨hslots, hframe⟩ := Prod.mk.inj he
  have hplain : ∀ o ∈ countdown.ops, ∀ op ∈ o, op.descr = none ∧ op.opcode ≠ .floatAdd ∧
      op.opcode ≠ .floatMul := by decide
  have hexact : ∀ op, some op ∈ countdown.ops → Exact op := fun op hop =>
    have ⟨hd, hadd, hmul⟩ := hplain _ hop op rfl
    .of_no_descr hd hadd hmul
  obtain ⟨code, hcode, htable, hfails, hbridges⟩ := compile_exits (ω := Unit) rfl
    (by decide : countdown.validate = .ok ()) hcompile ⟨by simp [countdown], by simp [countdown]⟩
    ⟨by decide, by decide, by simp [countdownRequest]⟩
  have hargs : Holds [1] (cpuWith 1) := by
    intro j w hw
    rw [List.eq_of_mem_singleton (List.mem_of_getElem? hw)]
    rfl
  obtain ⟨i, op, hop, hreaches⟩ := hfails _ (Setup.idle countdownRequest 3 []).implements hexact
    (by rw [hdepth]; decide) (by simp [givenSlots, countdownRequest]) (cpuWith 1) [1] 100 _ ()
    (.loop rfl ⟨rfl, rfl⟩ hargs) run_countdown
  obtain rfl : i = 0 := Nat.lt_one_iff.mp (List.getElem?_eq_some_iff.mp hop).1
  cases hop
  obtain ⟨_, first, rest, c', he', hseek, hreach, hcarries⟩ := hreaches rfl
  rw [hone] at he'
  cases he'
  have hdesc := htable.exits
  rw [hone] at hdesc
  obtain ⟨n, _, hpatch, hsite, -⟩ := (List.forall₂_cons.mp (hdesc : List.Forall₂ _ [_] _)).1.site rfl
  obtain ⟨res', supply'', hsequel, -⟩ := exists_ok_of_map (x := compile sequelRequest ⟨5⟩)
    (f := fun res => res.frameDepth) (v := 2) (by decide +kernel)
  obtain ⟨code', -, -, hover⟩ := hbridges e (by simp [hone]) sequelRequest sequel ⟨5⟩ supply'' res' rfl
    (by decide) (by rw [hslots]; rfl) (by rw [hframe]; rfl) (by rw [hframe]; decide)
    ⟨by simp [sequel], by simp [sequel]⟩ hsequel
  rw [hindex] at hsite hreach
  rw [hslots] at hcarries
  exact ⟨res, supply', code, e, hcompile, hcode, hone, hslots, ⟨n, hpatch, hsite⟩,
    ⟨first, rest, c', hseek, hreach, hcarries⟩, res', supply'', code', hsequel, hover⟩

def deep : Trace :=
  let n : Box := ⟨1, .int⟩
  ⟨"deep", [some n], [
    some ⟨.guardTrue, [some (.box n)], none, none, [some (.box n)]⟩,
    some ⟨.finish, [], none, none, []⟩]⟩

def deepRequest : Request := { trace := some deep, frameStart := 0x7FFFFFFFFFFFFFFF }

/-- Without numbers for its slots, a trace has fail values beyond the depth of the exit. -/
theorem compile_wraps_depth : deep.validate = .ok () ∧ ∃ res supply',
    compile deepRequest ⟨1⟩ = (.ok res, supply') ∧
      ∃ e ∈ res.exits, ∃ slot ∈ e.slots, e.frameDepth < slot.index := by
  obtain ⟨res, supply', hcompile, hres⟩ := exists_ok_of_map (x := compile deepRequest ⟨1⟩)
    (f := fun res => decide (∃ e ∈ res.exits, ∃ slot ∈ e.slots, e.frameDepth < slot.index)) (v := true)
    (by decide +kernel)
  exact ⟨by decide, res, supply', hcompile, of_decide_eq_true hres⟩

end TraceCompiler.Lowering
