import TraceCompiler.Proofs.Lowering.Compiled

/-! # What the code of a trace touches

Along a `Trail` all code but that of the last operation keeps to the slots of boxes, to fresh slots and
to the entries of the value array that the trace accounts for (`Trail.within`).
-/

namespace TraceCompiler.Lowering

open Machine (Fragment Instr Mem Section)
open CompileM List
open Machine.Fragment (pieces piecesAll)

variable {ω : Type} {u : Setup ω} {pos n : Nat} {s fin : State} {op : Op} {ops : List Op}
  {start f : Frame} {vals : List Value} {σ : Scope} {code : List Fragment} {locs : List Location}
  {k : Int}

/-! ## The code of ways out -/

theorem keeps_loadValues : Keeps σ sec loadValues := .instr (confined_of_load rfl rfl (.header .values))

theorem keeps_leave (k : Int) : ∀ f ∈ leave k, Keeps σ sec f := by
  refine forall_mem_cons.mpr ⟨.instr (confined_of_store rfl rfl (.header .exit)), ?_⟩
  exact forall_mem_cons.mpr ⟨.instr (.idle rfl rfl), forall_mem_singleton.mpr .jump⟩

theorem keeps_askForBridge (k : Int) (hook : Word) : ∀ f ∈ askForBridge k hook, Keeps σ sec f := by
  simp only [askForBridge, forall_mem_cons, not_mem_nil, false_implies, implies_true, and_true]
  exact ⟨.instr (.idle rfl rfl), .instr (.idle rfl rfl), .instr (.idle rfl rfl), .instr (.idle rfl rfl),
    .instr (.idle rfl rfl), .jumpIf, .instr (.idle rfl rfl), .label⟩

theorem keeps_reportCode (hs : ∀ slot ∈ slots, σ.reads slot) (hv : ∀ j < slots.length, σ.values j) :
    ∀ f ∈ reportCode k hook slots, Keeps σ sec f := by
  intro f hf
  simp only [reportCode, mem_append, mem_singleton, mem_map] at hf
  rcases hf with ((hf | rfl) | ⟨⟨slot, j⟩, hm, rfl⟩) | hf
  · split at hf
    · cases hf
    · exact keeps_askForBridge k hook f hf
  · exact keeps_loadValues
  · obtain ⟨-, hlt, heq⟩ := mem_zipIdx hm
    exact .moveMem (.value (hv j (by omega))) (.slot (hs slot (heq ▸ getElem_mem _)))
  · exact keeps_leave k f hf

theorem keeps_finishCode (hls : ∀ slot, .slot slot ∈ ls → σ.reads slot)
    (hv : ∀ j < vals.length, σ.values j) (hle : ls.length = vals.length) :
    ∀ f ∈ finishCode k vals ls, Keeps σ sec f := by
  intro f hf
  simp only [finishCode, mem_append, mem_singleton, mem_flatMap] at hf
  rcases hf with ((rfl | ⟨⟨l, j⟩, hm, hf⟩) | ⟨⟨x, j⟩, hm, hf⟩) | hf
  · exact keeps_loadValues
  · obtain ⟨-, hlt, heq⟩ := mem_zipIdx hm
    have hj : σ.values j := hv j (by omega)
    have hl : l ∈ ls := heq ▸ getElem_mem _
    match l with
    | .reg ⟨.float, _⟩ | .reg ⟨.gp, _⟩ =>
      cases mem_singleton.mp hf
      exact .instr (confined_of_store rfl rfl (.value hj))
    | .slot slot =>
      cases mem_singleton.mp hf
      exact .moveMem (.value hj) (.slot (hls slot hl))
    | .imm _ | .unset => cases hf
  · obtain ⟨-, hlt, -⟩ := mem_zipIdx hm
    have hj : σ.values j := hv j (by omega)
    cases x with
    | box b => cases hf
    | const q =>
      dsimp only [storeConstant] at hf
      split at hf
      · cases mem_singleton.mp hf
        exact .instr (confined_of_store rfl rfl (.value hj))
      · rcases mem_cons.mp hf with rfl | hf
        · exact .instr (.idle rfl rfl)
        · cases mem_singleton.mp hf
          exact .instr (confined_of_store rfl rfl (.value hj))
  · exact keeps_leave k f hf

theorem keeps_bootstrap (hl : ∀ slot, .slot slot ∈ locs → σ.writes slot)
    (hv : ∀ j < locs.length, σ.values j) : ∀ f ∈ bootstrap locs, Keeps σ sec f := by
  intro f hf
  simp only [bootstrap, mem_append, mem_flatMap, mem_cons, not_mem_nil, or_false, mem_map] at hf
  rcases hf with ((((rfl | ⟨r, -, rfl⟩) | rfl | rfl | rfl) | ⟨⟨l, j⟩, hm, hf⟩) | ⟨⟨l, j⟩, hm, hf⟩) | rfl
  · exact .label
  · exact .instr (.idle rfl rfl)
  · exact .instr (.idle rfl rfl)
  · exact .instr (.idle rfl rfl)
  · exact keeps_loadValues
  · obtain ⟨-, hlt, heq⟩ := mem_zipIdx hm
    match l with
    | .slot slot =>
      cases mem_singleton.mp hf
      exact .moveMem (.slot (hl slot (heq ▸ getElem_mem _))) (.value (hv j (by omega)))
    | .reg _ | .imm _ | .unset => cases hf
  · obtain ⟨-, hlt, -⟩ := mem_zipIdx hm
    match l with
    | .reg ⟨.float, _⟩ | .reg ⟨.gp, _⟩ =>
      cases mem_singleton.mp hf
      exact .instr (confined_of_load rfl rfl (.value (hv j (by omega))))
    | .slot _ | .imm _ | .unset => cases hf
  · exact .jump

theorem keeps_epilogue : ∀ f ∈ epilogue, Keeps σ sec f := by
  intro f hf
  simp only [epilogue, mem_append, mem_cons, not_mem_nil, or_false, mem_map] at hf
  rcases hf with ((rfl | rfl) | ⟨r, -, rfl⟩) | rfl
  · exact .label
  · exact .instr (.idle rfl rfl)
  · exact .instr (.idle rfl rfl)
  · exact .instr (.idle rfl rfl)

/-! ## Along a trail -/

/-- A scope that has room for the code of a trace: for slots of boxes, for fresh slots and for the
entries of the value array. -/
structure Covers (shared : List Box) (start : Frame) (fin : State) (σ : Scope) : Prop where
  reads : ∀ b slot, fin.frame.get? b = some slot → σ.reads slot
  writes : ∀ b slot, b ∉ shared → fin.frame.get? b = some slot → σ.writes slot
  fresh : ∀ slot : Slot, start.next ≤ slot.index → slot.index < fin.frame.next →
    σ.reads slot ∧ σ.writes slot
  values : ∀ j < fin.maxValues, σ.values j

theorem Covers.scope_le (h : Covers u.shared start fin σ) (he : fin.frame.Extends f) : u.scope f ≤ σ :=
  ⟨fun slot ⟨b, hb⟩ => h.reads b slot (he b slot hb),
    fun slot ⟨b, hb, hg⟩ => h.writes b slot hb (he b slot hg), fun _ h => h.elim⟩

theorem Guarded.keeps_stub (hg : Guarded u ks pos op s br s1 kinds vals fails f s')
    (ha : Ample start ks n (op :: ops) s.frame) (hσ : Covers u.shared start fin σ)
    (het : fin.frame.Extends f) (hn : f.next ≤ fin.frame.next)
    (hv : fails.length ≤ fin.maxValues) (k : Int) :
    ∀ x ∈ stubCode k u.req.hooks.failure fails, Keeps σ sec x := by
  obtain ⟨hlo, hhi, hl⟩ := ha.checked hg
  have hno := ha.nonneg
  have hrc := hg.recovered
  -- a slot of a fail value belongs to a box or is fresh
  have hs (j : Nat) (x : Value) (e : Slot × List Fragment) (hx : vals[j]? = some x)
      (he : fails[j]? = some e) : σ.reads e.1 ∧ ∀ c ∈ e.2, Keeps σ sec c := by
    have hm : (x, e) ∈ vals.zip fails := mem_of_getElem? (getElem?_zip_eq_some.mpr ⟨hx, he⟩)
    cases x with
    | box b =>
      have hge := het b _ (hrc.get?_box hm)
      refine ⟨hσ.reads b _ hge, fun c hc => ?_⟩
      obtain ⟨slot, code⟩ := e
      have hrs : Rescued s1 b slot code := hrc.rescued hm
      cases hrs with
      | stored => cases hc
      | reg hb hr =>
        have hsh : b ∉ u.shared := fun h => hb ((hg.check.ok.shared b h).2 _ (by rw [hr]; rfl))
        cases mem_singleton.mp hc
        exact .moveCode nofun fun _ h => by
          cases h
          exact hσ.writes b _ hsh hge
    | const q =>
      have ho := (hrc.const_own (by omega) (by omega) hl hx he he).1
      obtain ⟨hlt, hid | ⟨b, hb⟩⟩ := hrc.bounds (by omega) (by omega) hl e (mem_of_getElem? he)
      · obtain ⟨hre, hw⟩ := hσ.fresh e.1 (hlo.trans hid) (hlt.trans_le hn)
        refine ⟨hre, fun c hc => ?_⟩
        rw [hrc.code_const hm] at hc
        cases mem_singleton.mp hc
        exact .moveCode nofun fun _ h => by
          cases h
          exact hw
      · exact absurd (hrc.ext b _ hb) (ho b)
  have hs' (e : Slot × List Fragment) (he : e ∈ fails) : σ.reads e.1 ∧ ∀ c ∈ e.2, Keeps σ sec c := by
    obtain ⟨j, hj⟩ := mem_iff_getElem?.mp he
    obtain ⟨hlt, -⟩ := List.getElem_of_getElem? hj
    rw [hrc.length_eq] at hlt
    exact hs j _ e (getElem?_eq_getElem hlt) hj
  intro x hx
  simp only [stubCode, mem_append, mem_cons, not_mem_nil, or_false, mem_flatMap] at hx
  rcases hx with ((rfl | ⟨e, he, hx⟩) | rfl | rfl) | hx
  · exact .label
  · exact (hs' e he).2 x hx
  · exact .jumpSite
  · exact .label
  · refine keeps_reportCode (fun slot hs => ?_) (fun j hj => hσ.values j ?_) x hx
    · obtain ⟨e, he, rfl⟩ := mem_map.mp hs
      exact (hs' e he).1
    · rw [length_map] at hj
      omega

/-- The code of a jump: its arguments are moved to the places `locs`, and control goes on. -/
def Transfers (op : Op) (locs : List Location) (code : List Fragment) : Prop :=
  ∃ vals ls moves address, op.args = vals.map some ∧
    Move.sequence (jumpMoves vals ls locs) scratchLocation = .ok moves ∧
    code = piecesAll .main .main (moves.map moveCode ++ jumpTail address)

/-- A scope with the places that a jump goes to: it reads and writes them. -/
def Scope.into (σ : Scope) (locs : List Location) : Scope where
  reads slot := σ.reads slot ∨ .slot slot ∈ locs
  writes slot := .slot slot ∈ locs
  values := σ.values

inductive Parts (r : Request) (fin : State) (σ : Scope) (ops : List Op) (code : List Fragment) : Prop
  | finish {op : Op} (last : ops.getLast? = some op) (ho : op.opcode = .finish)
      (within : Within σ code)
  | jump {op : Op} {locs : List Location} {address : Option Word} (last : ops.getLast? = some op)
      (ho : op.opcode = .jump) (target : Target r op fin locs address)
      (transfers : Transfers op locs code) (within : Within (σ.into locs) code)

theorem Parts.cons (h : Parts r fin σ ops code) : Parts r fin σ (op :: ops) code := by
  have hl {o : Op} (h : ops.getLast? = some o) : (op :: ops).getLast? = some o := by
    rw [getLast?_cons, h, Option.getD_some]
  cases h with
  | finish last ho within => exact .finish (hl last) ho within
  | jump last ho target transfers within => exact .jump (hl last) ho target transfers within

/-- The code of operations: `main` and `last` were added to the main part, and `cold` to the cold one. -/
structure Footprint (r : Request) (σ : Scope) (ops : List Op) (s fin : State)
    (main last cold : List Fragment) : Prop where
  code_eq : fin.code = s.code ++ (main ++ last)
  cold_eq : fin.cold.toList = s.cold.toList ++ cold
  stray : fin.stray = s.stray
  within : Within σ main
  parts : Parts r fin σ ops last
  keeps : ∀ f ∈ cold, Keeps σ .cold f

theorem Ends.footprint (h : Ends u op s fin) (hσ : Covers u.shared start fin σ) :
    ∃ last, Footprint u.req σ [op] s fin [] last [] := by
  obtain ⟨-, hfr, hc, hin⟩ := h.grows
  have hsp {x : Value} {l : Location} (hx : Spot s x l) (slot : Slot) (hl : l = .slot slot) :
      σ.reads slot := by
    subst hl
    cases hx with
    | slot _ hg => exact hσ.reads _ slot (hfr ▸ hg)
  cases h with
  | @finish ho vals ls kinds hf =>
    have hle : vals.length ≤ fin.maxValues := by
      rw [hf.eq, hf.args, length_map]
      exact le_max_right ..
    have hk : ∀ f ∈ finishCode (s.nextExit u.req) vals ls, Keeps σ .main f := by
      refine keeps_finishCode (fun slot hs => ?_) (fun j hj => hσ.values j (by omega))
        hf.length_eq
      obtain ⟨j, hj, hl⟩ := getElem_of_mem hs
      have hj' : j < vals.length := hf.length_eq ▸ hj
      exact hsp (hf.spots.get hj' hj) slot hl
    refine ⟨_, code_finished hf, by simp [hc], ?_, within_nil,
      .finish rfl ho (Keeps.all hk).1, nofun⟩
    rw [hf.eq]
    exact stray_emitted s ((Keeps.all hk).2 .cold (by decide))
  | @jump ho vals ls locs address out hju =>
    have hmo : Within (σ.into locs) (piecesAll .main .main (out.map moveCode)) :=
      within_sequenced hju.sequenced fun m hm => by
        obtain ⟨hd, x, -, hsr⟩ := mem_jumpMoves hm hju.spots
        exact ⟨hsp hsr, fun slot hs => hs ▸ hd⟩
    have ht : ∀ f ∈ jumpTail address, Keeps (σ.into locs) .main f := by
      cases address with
      | none => exact forall_mem_singleton.mpr .jump
      | some a =>
        exact forall_mem_cons.mpr ⟨.instr (.idle rfl rfl),
          forall_mem_singleton.mpr (.instr (.idle rfl rfl))⟩
    have hta : Target u.req op fin locs address := by
      cases hju.target with
      | own hse he => exact hin ▸ .own hse he
      | other hoh hse hco => exact .other hoh hse hco
    refine ⟨piecesAll .main .main (out.map moveCode ++ jumpTail address), ?_, by simp [hc], ?_,
      within_nil, .jump rfl ho hta ⟨vals, ls, out, address, hju.args, hju.sequenced, rfl⟩ ?_, nofun⟩
    · rw [hju.eq, code_emitted, code_moved, nil_append, append_assoc, Fragment.piecesAll_append]
    · rw [hju.eq, stray_emitted _ ((Keeps.all ht).2 .cold (by decide)), stray_moved]
    · rw [Fragment.piecesAll_append]
      exact hmo.append (Keeps.all ht).1

theorem Trail.inputs_eq (h : Trail u fin l ks pos ops s) : fin.inputs = s.inputs := by
  induction h with
  | @step _ _ _ _ _ _ s _ _ _ stage _ ih =>
    rw [ih]
    cases stage with
    | stay _ _ _ _ lowered silent => rw [silent.plain.inputs, lowered.inputs]
    | @guard s1 _ _ _ _ _ _ _ _ _ _ guarded _ silent =>
      have hc : s1.inputs = s.inputs := guarded.check.plain.inputs
      rw [silent.plain.inputs, guarded.eq]
      exact hc
  | final between checks isFinal yields =>
    exact (lower_ends between.ok checks isFinal yields).grows.2.2.2

/-- **The code of a trace keeps to its own slots and entries.** -/
theorem Trail.within (h : Trail u fin l ks pos ops s) (ha : Ample start ks n ops s.frame)
    (hσ : Covers u.shared start fin σ) : ∃ main last cold, Footprint u.req σ ops s fin main last cold := by
  induction h generalizing n with
  | @step _ ks _ pos op ops s s' _ _ stage trail ih =>
    cases stage with
    | @stay s1 _ _ _ _ lowered silent =>
      obtain ⟨main, last, cold, hfp⟩ := ih (ha.lowered lowered silent)
      obtain ⟨code, hc, hbo⟩ := lowered.adds
      have het : fin.frame.Extends s1.frame := (silent.grows.trans trail.grows).frame
      refine ⟨code ++ main, last, cold, ?_, ?_, ?_, ?_, hfp.parts.cons, hfp.keeps⟩
      · rw [hfp.code_eq, silent.code, hc]
        simp only [append_assoc]
      · rw [hfp.cold_eq, silent.plain.cold, lowered.cold]
      · rw [hfp.stray, silent.plain.stray, lowered.stray]
      · exact (hbo.mono (hσ.scope_le het)).append hfp.within
    | @guard s1 s2 br kinds vals fails f _ _ _ hfa guarded hf silent =>
      have ha' := hf ▸ ha.guarded guarded hfa
      obtain ⟨main, last, cold, hfp⟩ := ih ha'
      obtain ⟨code, hc, hs⟩ := guarded.check.adds
      have het : fin.frame.Extends f := hf ▸ trail.grows.frame
      obtain ⟨hist, hh, -⟩ := guarded.recovered.history
      let k := s.nextExit u.req
      have hb : ∀ x ∈ br.code (stubLabel k), Keeps σ .main x := by
        cases br with
        | never => exact nofun
        | always => exact forall_mem_singleton.mpr .jump
        | when cond => exact forall_mem_singleton.mpr .jumpIf
      have hv := guarded.fails_le.trans (silent.plain.maxValues ▸ trail.maxValues_le)
      refine ⟨code ++ piecesAll .main .main (br.code (stubLabel k)) ++ main, last,
        stubCode k u.req.hooks.failure fails ++ cold, ?_, ?_, ?_, ?_, hfp.parts.cons, fun x hx => ?_⟩
      · have hc' : s1.code = s.code ++ code := hc
        have he : s2.code = s1.code ++ piecesAll .main .main (br.code (stubLabel k)) := by
          rw [guarded.eq]
          exact code_emitted s1 _
        rw [hfp.code_eq, silent.code, he, hc']
        simp only [append_assoc]
      · have hco : s1.cold = s.cold := guarded.check.plain.cold
        rw [hfp.cold_eq, silent.plain.cold, guarded.eq]
        simp [hco, k]
      · have hch : s1.stray = s.stray := guarded.check.plain.stray
        have he : s2.stray = s1.stray := by
          rw [guarded.eq]
          exact stray_emitted s1 ((Keeps.all hb).2 .cold (by decide))
        rw [hfp.stray, silent.plain.stray, he, hch]
      · exact ((hs.mono (hσ.scope_le (het.trans hh.keeps))).append (Keeps.all hb).1).append hfp.within
      · rcases mem_append.mp hx with hx | hx
        · exact guarded.keeps_stub ha hσ het (hf ▸ (ha'.rest trail).1.2) hv k x hx
        · exact hfp.keeps x hx
  | @final _ _ _ pos op s between checks isFinal yields =>
    obtain ⟨last, hl⟩ := (lower_ends between.ok checks isFinal yields).footprint hσ
    exact ⟨[], last, [], hl⟩

/-! ## Compiled traces -/

variable {r : Request} {res : Result} {slot : Slot}

def traceScope (r : Request) (res : Result) : Scope where
  reads slot := slot ∈ givenSlots r ∨ r.frameStart ≤ slot.index ∧ slot.index < res.frameDepth
  writes slot := slot ∉ givenSlots r ∧ r.frameStart ≤ slot.index ∧ slot.index < res.frameDepth
  values j := j < res.maxValues

theorem Opened.given_lt (h : Opened r t bs start)
    (hl : (r.entry.slots bs.length).length = bs.length) (hs : slot ∈ givenSlots r) :
    slot.index < start.next := by
  obtain ⟨j, hj⟩ := mem_iff_getElem?.mp (mem_givenSlots.mp hs)
  obtain ⟨hlt, -⟩ := List.getElem_of_getElem? hj
  exact h.below _ slot ((h.slots _ slot).mpr ⟨j, getElem?_eq_getElem (hl ▸ hlt), hj⟩)

theorem Compiled.covers (h : Compiled r t bs ops supply s0 fin res) (ho : Framed r t bs ops s0 fin start) :
    Covers (if r.entry.isBridge then bs else []) start fin (traceScope r res) := by
  have hc := ho.ample.count
  have hd := h.assembled.depth
  have hin {b : Box} {slot : Slot} (hold : start.get? b = none)
      (hb : fin.frame.get? b = some slot) := ho.front.index ho.ample.nonneg (by omega) hold hb
  have hf (slot : Slot) (hlo : start.next ≤ slot.index) (hhi : slot.index < fin.frame.next) :
      (traceScope r res).writes slot :=
    ⟨fun hsl => (ho.given_lt h.slots hsl).not_ge hlo, ho.le.trans hlo, hd ▸ hhi⟩
  refine ⟨fun b slot hb => ?_, fun b slot hsh hb => ?_,
    fun slot hlo hhi => ⟨.inr (hf slot hlo hhi).2, hf slot hlo hhi⟩,
    fun j hj => (h.assembled.values ▸ hj : j < res.maxValues)⟩
  · cases hold : start.get? b with
    | none => exact .inr (hf slot (hin hold hb).1 (hin hold hb).2).2
    | some slot' =>
      cases (ho.front.keeps b slot' hold).symm.trans hb
      exact .inl (ho.given hold).2
  · have hold : start.get? b = none :=
      Option.eq_none_iff_forall_ne_some.mpr fun slot' hold => hsh (ho.given hold).1
    exact hf slot (hin hold hb).1 (hin hold hb).2

theorem layout_of_inside (hs : fin.stray = []) (hc : piecesAll .main .cold fin.closed.cold.toList = []) :
    fin.closed.fragment.layout = fin.code ++ .instr .hlt ::
      piecesAll .cold .cold fin.closed.cold.toList := by
  simp only [Fragment.layout, State.fragment, pieces, piecesAll, append_nil, hc]
  change fin.code ++ _ :: (fin.stray ++ _) = _
  rw [hs]
  rfl

theorem Entered.get?_of_mem (h : Entered u bs ops supply locs s1 s) (hsl : .slot slot ∈ locs) :
    ∃ b, s.frame.get? b = some slot := by
  obtain ⟨j, hj, hl⟩ := getElem_of_mem hsl
  have hjb : j < bs.length := h.placed.spots.length_eq ▸ hj
  have hs : Spot s1 (.box bs[j]) locs[j] := h.placed.spots.get hjb hj
  rw [hl] at hs
  cases hs with
  | slot _ hg => exact ⟨bs[j], h.silent.frame ▸ hg⟩

theorem Entered.keeps_cold (h : Entered u bs ops supply locs s1 s)
    (hs : u.shared = if u.req.entry.isBridge then bs else [])
    (hσ : Covers u.shared start fin σ) (het : fin.frame.Extends s.frame)
    (hm : s.maxValues ≤ fin.maxValues) : ∀ f ∈ s.cold.toList, Keeps σ .cold f := by
  rw [h.cold_eq]
  cases he : u.req.entry with
  | bridge slots => exact nofun
  | loop =>
    have hl := h.placed.spots.length_eq
    refine keeps_bootstrap (fun slot hsl => ?_) fun j hj => hσ.values j ?_
    · obtain ⟨b, hg⟩ := h.get?_of_mem hsl
      exact hσ.writes b slot (by simp [hs, he, Entry.isBridge]) (het _ _ hg)
    · have hn : s.maxValues = max 0 bs.length :=
        h.silent.plain.maxValues.trans h.placed.settles.maxValues
      omega

section

variable (h : Compiled r t bs ops supply s0 fin res) (hm : Made t supply) (hn : Numbered r t)
include h hm hn

/-- **What the code of a compiled trace touches.** All of it keeps to the scope of the trace, but for the
code of the last operation, which is a jump or keeps to it as well. -/
theorem Compiled.footprint :
    ∃ main last cold, fin.closed.fragment.layout = main ++ last ++ .instr .hlt :: cold ∧
      Within (traceScope r res) main ∧ Within (traceScope r res) cold ∧
      Parts r fin (traceScope r res) ops last := by
  obtain ⟨locs, s1, he, ht⟩ := h.idle_trail hm
  obtain ⟨start, ho⟩ := Compiled.framed he ht h hn
  have hσ : Covers _ start fin (traceScope r res) := h.covers ho
  obtain ⟨main, last, cold, hfp⟩ := ht.within ho.ample hσ
  have hc : ∀ f ∈ fin.closed.cold.toList, Keeps (traceScope r res) .cold f := by
    intro f hf
    rw [State.closed, Array.toList_appendList, hfp.cold_eq] at hf
    rcases mem_append.mp hf with hf | hf
    · rcases mem_append.mp hf with hf | hf
      · exact he.keeps_cold rfl hσ ht.grows.frame ht.maxValues_le f hf
      · exact hfp.keeps f hf
    · exact keeps_epilogue f hf
  refine ⟨.label bodyLabel :: main, last, piecesAll .cold .cold fin.closed.cold.toList, ?_,
    fun i hi => hfp.within i (by simpa using hi), (Keeps.all hc).1, hfp.parts⟩
  rw [layout_of_inside (hfp.stray.trans he.stray_eq) ((Keeps.all hc).2 .main (by decide)),
    hfp.code_eq, he.code_eq]
  rfl

theorem Compiled.inputs_reads (hs : .slot slot ∈ res.inputs) : (traceScope r res).reads slot := by
  obtain ⟨locs, s1, he, ht⟩ := h.idle_trail hm
  obtain ⟨start, ho⟩ := Compiled.framed he ht h hn
  have hin : res.inputs = locs := (h.assembled.inputs.trans ht.inputs_eq).trans he.silent.plain.inputs
  obtain ⟨b, hb⟩ := he.get?_of_mem (hin ▸ hs)
  exact (h.covers ho).reads b slot (ht.grows.frame _ _ hb)

theorem Compiled.within (hσ : traceScope r res ≤ σ)
    (how : ∀ slot, .slot slot ∈ res.inputs → σ.reads slot ∧ σ.writes slot)
    (hoh : ∀ op, some op ∈ t.ops → op.opcode = .jump → op.descr ≠ r.self → ∀ code,
      (op.descr.bind Descr.target?).bind JumpTarget.code = some code →
        ∀ slot, .slot slot ∈ code.locations → σ.reads slot ∧ σ.writes slot) :
    Within σ fin.closed.fragment.layout := by
  obtain ⟨main, last, cold, hla, hma, hc, hpa⟩ := h.footprint hm hn
  have hl : Within σ last := by
    cases hpa with
    | finish _ _ within => exact within.mono hσ
    | @jump op locs _ hl ho target _ within =>
      have hp (slot : Slot) (hs : .slot slot ∈ locs) : σ.reads slot ∧ σ.writes slot := by
        cases target with
        | own => exact how slot (h.assembled.inputs ▸ hs)
        | other _ hse hco =>
          refine hoh op ?_ ho hse _ hco slot hs
          rw [h.ops_eq]
          exact mem_map_of_mem (mem_of_getLast? hl)
      exact within.mono ⟨fun slot hs => hs.elim (hσ.1 slot) fun hs => (hp slot hs).1,
        fun slot hs => (hp slot hs).2, hσ.2.2⟩
  intro i hi
  rw [hla] at hi
  rcases mem_append.mp hi with hi | hi
  · exact (hma.mono hσ).append hl i hi
  · rcases mem_cons.mp hi with hi | hi
    · cases hi
      exact .idle rfl rfl
    · exact hc.mono hσ i hi

end

end TraceCompiler.Lowering
