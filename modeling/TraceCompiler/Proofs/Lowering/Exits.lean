import TraceCompiler.Proofs.Lowering.Recovery

/-! # Ways out

A guard adds a branch to the main part and a stub to the cold part (`Guarded`).
-/

namespace TraceCompiler.Lowering

open Machine (Cpu Setting Falls Fragment Quiet Instr Mem Section Reaches labelsOf seek seek_of_nodup)
open Machine.Reg (r11 rax rbp rdi rsi)
open CompileM
open Machine.Fragment (pieces piecesAll)

variable {ω : Type} {u : Setup ω} {ks : List Box} {pos : Nat} {s s' : State} {c c' : Cpu ω}
  {v : Box → Word} {op : Op} {f : Frame} {vals : List Value} {fails : List (Slot × List Fragment)}
  {req : Request} {env : Setting ω} {br : Branch} {k : Int} {hook : Word}
  {prog pre rest out : List Fragment} {sec : Section}

/-! ## The code of ways out -/

def Branch.code : Branch → String → List Fragment
  | .never, _ => []
  | .always, l => [.jump l]
  | .when c, l => [.jumpIf c l]

def stubLabel (k : Int) : String := "stub" ++ toString k

def failLabel (k : Int) : String := "fail" ++ toString k

/-- What a stub does once the fail values are in their slots. -/
def reportCode (k : Int) (hook : Word) (slots : List Slot) : List Fragment :=
  (if hook = 0 then [] else askForBridge k hook) ++ [loadValues] ++
    slots.zipIdx.map (fun (s, j) => .moveMem (valueMem j) (slotMem s)) ++ leave k

def stubCode (k : Int) (hook : Word) (fails : List (Slot × List Fragment)) : List Fragment :=
  [.label (stubLabel k)] ++ fails.flatMap Prod.snd ++
    [.jumpSite (failLabel k) (siteLabel k), .label (failLabel k)] ++
    reportCode k hook (fails.map Prod.fst)

def State.nextExit (s : State) (req : Request) : Int := wrap64 (req.firstExit + s.exits.size)

/-- A guard was lowered: `s1` is the state behind its check, and `f` the frame behind its stub. -/
structure Guarded (u : Setup ω) (ks : List Box) (pos : Nat) (op : Op) (s : State) (br : Branch)
    (s1 : State) (kinds : List Kind) (vals : List Value) (fails : List (Slot × List Fragment))
    (f : Frame) (s' : State) : Prop where
  check : PartIf u ks pos { s with fused := none } s1 (CanHold u pos op s)
    (Branches u pos op s br)
  fused : ∀ f ∈ s.fused, s1 = { s with fused := none } ∧
    br = .when (if op.opcode = .guardTrue then f.cond.negate else f.cond)
  exitKinds : op.exitKinds? = some kinds
  failArgs : op.failArgs = vals.map some
  recovered : Recovered s1 s1.frame vals fails f
  eq : s' = { s1 with
    frame := f
    main := s1.main ++ (br.code (stubLabel (s.nextExit u.req))).map Item.code
    cold := s1.cold ++ stubCode (s.nextExit u.req) u.req.hooks.failure fails
    maxValues := max s1.maxValues op.failArgs.length
    exits := s1.exits.push
      ⟨s.nextExit u.req, op.opcode, kinds, fails.map Prod.fst, none, f.depth⟩ }

theorem guard_ok (h : GuardReady u ks pos op s) (hy : Yields (guard pos op) u.req s t s') :
    ∃ br s1 kinds vals fails f, Guarded u ks pos op s br s1 kinds vals fails f s' := by
  unfold guard at hy
  rw [yields_read_bind, yields_get_bind] at hy
  dsimp only at hy
  obtain ⟨br, s1, hb, hy1⟩ := hy.bind
  have hc := guardBranch_part h hb
  have hs : Yields (guardStub op (s.nextExit u.req) (stubLabel (s.nextExit u.req))) u.req
      (s1.emitted (br.code (stubLabel (s.nextExit u.req)))) t s' := by
    cases br with
    | never =>
      rw [Branch.code, show s1.emitted [] = s1 by simp [State.emitted]]
      exact hy1
    | always | when c =>
      have hy2 := hy1.emitBind
      exact hy2
  unfold guardStub at hs
  obtain ⟨_, s2, hn, hy2⟩ := hs.bind
  cases yields_modify.mp hn
  obtain ⟨fails, s3, hf, hy3⟩ := hy2.bind
  rw [yields_read_bind] at hy3
  obtain ⟨_, s4, hco, hy4⟩ := hy3.bind
  cases yields_modify.mp hco
  obtain ⟨kinds, hk, hp⟩ := hy4.needBind
  cases yields_modify.mp hp
  obtain ⟨vals, f, hv, rfl, hr⟩ := failSlots_ok (fun cls => by
    have hpo : (s1.bank cls).pool = u.req.limits.pool cls := (hc.ok.sound cls).pool_eq
    cases cls <;> exact hpo ▸ Limits.pool_cls ..) hf
  refine ⟨br, s1, kinds, vals, fails, f, hc, fun fu hfu => ?_, hk, hv,
    hr.congr fun cls => by cases cls <;> rfl, ?_⟩
  · obtain ⟨hs1, hbr, -⟩ := h.fused_part hfu hb
    exact ⟨hs1, hbr⟩
  · simp only [State.emitted, stubCode, reportCode, List.append_assoc]
    rfl

/-! ## From the patch site to the exit -/

theorem pieces_leave (sec : Section) (k : Int) : piecesAll sec sec (leave k) = leave k := by
  simp [leave, piecesAll, pieces]

theorem pieces_askForBridge (sec : Section) (k : Int) (hook : Word) :
    piecesAll sec sec (askForBridge k hook) = askForBridge k hook := by
  simp [askForBridge, piecesAll, pieces]

/-- A processor that has left the code: it says through which exit, and the values are in the value
array. -/
structure Left (k : Int) (ws : List Word) (stack : List Word) (c : Cpu ω) : Prop where
  rax : c.gp rax = Word.ofInt k &&& 0xFFFFFFFF
  exit : c.frame HeaderWord.exit.offset = Word.ofInt (wrap32 k)
  values : ∀ (j : Nat) w, ws[j]? = some w → c.values (valueOffset j) = w
  stack : c.stack = stack

theorem reaches_leave (hb : c.gp rbp = env.frameBase) (ho : seek exitLabel prog = some out)
    (hv : ∀ (j : Nat) w, ws[j]? = some w → c.values (valueOffset j) = w) :
    ∃ c', Reaches env prog (leave k ++ rest, c) (out, c') ∧ Left k ws c.stack c' := by
  have hs : (Instr.storeImm (headerMem .exit) (wrap32 k) 8).exec env c =
      some (c.setFrame HeaderWord.exit.offset (Word.ofInt (wrap32 k))) := write_headerMem hb .exit _
  refine ⟨_, .head (.instr hs) (.head (.instr rfl) (.single (.jump ho))), ?_, ?_, hv, rfl⟩
  · simp
  · simp

theorem valueOffset_eq (hj : j < 0x10000000) : valueOffset j = j * 8 := by
  unfold valueOffset wrap32
  rw [Int.bmod_def]
  omega

theorem falls_loadValues (sec : Section) (hb : c.gp rbp = env.frameBase)
    (hh : c.frame HeaderWord.values.offset = env.valuesBase) :
    Falls env (piecesAll sec sec [loadValues]) c (c.setGp r11 env.valuesBase) := by
  rw [piecesAll, piecesAll, List.append_nil, loadValues, pieces_instr]
  refine .instr ?_
  change ((headerMem .values).read? env 8 c).map _ = _
  rw [read_headerMem hb, hh]
  rfl

theorem valueOffset_ne {i j : Nat} (hi : i < 0x10000000) (hj : j < 0x10000000) (h : i ≠ j) :
    valueOffset i ≠ valueOffset j := by
  rw [valueOffset_eq hi, valueOffset_eq hj]
  omega

def storeLocation (j : Nat) : Location → List Fragment
  | .reg r =>
    match r.cls with
    | .float => [.instr (.movsdStore (valueMem j) (floatOperand r.num))]
    | .gp => [.instr (.movStore (valueMem j) (gpOperand r.num))]
  | .slot s => [.moveMem (valueMem j) (slotMem s)]
  | _ => []

theorem falls_storeLocation (sec : Section) (hb : c.gp rbp = env.frameBase)
    (hs : c.gp r11 = env.valuesBase) (j : Nat) (l : Location) :
    ∃ w, Falls env (piecesAll sec sec (storeLocation j l)) c (c.setValue (valueOffset j) w) ∧
      ((∃ r, l = .reg r) ∨ (∃ s, l = .slot s) → w = c.contents l) := by
  have hst : Falls env [] c (c.setValue (valueOffset j) (c.values (valueOffset j))) := by
    have : c.setValue (valueOffset j) (c.values (valueOffset j)) = c := by
      simp [Cpu.setValue, Function.update_eq_self]
    rw [this]
    exact .nil
  match l with
  | .reg ⟨.gp, r⟩ | .reg ⟨.float, r⟩ =>
    refine ⟨_, ?_, fun _ => rfl⟩
    simp only [storeLocation, piecesAll, pieces_instr, List.append_nil]
    exact .instr (write_valueMem hs ..)
  | .slot slot =>
    refine ⟨_, ?_, fun _ => rfl⟩
    simp only [storeLocation, piecesAll, List.append_nil]
    exact falls_moveMem sec (read_slotMem hb slot)
      (write_valueMem hs j _)
  | .imm _ | .unset =>
    refine ⟨_, by simpa [storeLocation, piecesAll] using hst, ?_⟩
    rintro (⟨_, h⟩ | ⟨_, h⟩) <;> cases h

theorem falls_storeLocations {ls : List Location} {n : Nat} (sec : Section)
    (hba : c.gp rbp = env.frameBase) (hs : c.gp r11 = env.valuesBase)
    (hn : n + ls.length ≤ 0x10000000) : ∃ values, Falls env (piecesAll sec sec
        ((ls.zipIdx n).flatMap fun (l, j) => storeLocation j l)) c { c with values := values } ∧
      (∀ (j : Nat) l, ls[j]? = some l → (∃ r, l = .reg r) ∨ (∃ s, l = .slot s) →
        values (valueOffset (n + j)) = c.contents l) ∧
      ∀ j < n, values (valueOffset j) = c.values (valueOffset j) := by
  induction ls generalizing n c with
  | nil => exact ⟨c.values, .nil, by simp, fun _ _ => rfl⟩
  | cons l ls ih =>
    rw [List.length_cons] at hn
    obtain ⟨w, hst, hw⟩ := falls_storeLocation sec hba hs n l
    obtain ⟨values, hf, hh, hb⟩ := ih (c := c.setValue (valueOffset n) w) (n := n + 1) hba hs (by omega)
    -- the entries are written in order, so no later store touches an earlier one
    refine ⟨values, ?_, fun j l' hj hl' => ?_, fun j hj => ?_⟩
    · rw [List.zipIdx_cons, List.flatMap_cons, Fragment.piecesAll_append]
      exact hst.append hf
    · cases j with
      | zero =>
        cases hj
        rw [Nat.add_zero, hb n (Nat.lt_succ_self n), Cpu.setValue_values, Function.update_self, hw hl']
      | succ j =>
        rw [show n + (j + 1) = n + 1 + j by omega]
        exact hh j l' hj hl'
    · rw [hb j (by omega), Cpu.setValue_values,
        Function.update_of_ne (valueOffset_ne (by omega) (by omega) (by omega))]

theorem falls_ask (hf : ∀ gp xmm w, ∃ x w', env.native hook gp xmm w = some (0, x, w'))
    (k : Int) (c : Cpu ω) : ∃ c', Falls env (askForBridge k hook) c c' ∧ c'.frame = c.frame ∧
      c'.gp rbp = c.gp rbp ∧ c'.stack = c.stack := by
  obtain ⟨c1, hc1⟩ : ∃ c1, c1 = ((c.setGp rdi (c.gp rbp)).setGp
      rsi (Word.ofInt k &&& 0xFFFFFFFF)).setGp r11 hook := ⟨_, rfl⟩
  obtain ⟨x, world, hn⟩ := hf c1.gp c1.xmm c1.world
  have hc : (Instr.callReg scratch).exec env c1 = some (c1.returned env 0 x world) := by
    have hg : c1.get scratch = hook := by simp [hc1, scratch]
    change (env.native (c1.get scratch) c1.gp c1.xmm c1.world).map _ = _
    rw [hg, hn]
    rfl
  have hz (p : Bool) : Machine.Cond.e.holds (Machine.AluOp.and.flags 0 0 p) = true :=
    Machine.Cond.holds_e_test
  refine ⟨(c1.returned env 0 x world).setFlags (Machine.AluOp.and.flags 0 0
    (env.junk (c1.returned env 0 x world)).2.2.parity), fun prog pre rest hp hnd => ?_, ?_, ?_, ?_⟩
  · have hs : prog = (pre ++ (askForBridge k hook).dropLast) ++
        .label ("nobridge" ++ toString k) :: rest := by
      simp [hp, askForBridge]
    have ha : (Instr.movAbs scratch hook).exec env ((c.setGp rdi
        (c.gp rbp)).setGp rsi (Word.ofInt k &&& 0xFFFFFFFF)) = some c1 := by
      rw [hc1]
      rfl
    exact .head (.instr rfl) (.head (.instr rfl) (.head (.instr ha) (.head (.instr hc)
      (.head (.instr rfl) (.single (.taken (hz _) (seek_of_nodup hnd hs)))))))
  · rw [hc1]
    rfl
  · rw [hc1]
    rfl
  · rw [hc1]
    rfl

/-- **A stub without a bridge leaves with the contents of its slots.** -/
theorem reaches_report (hfa : hook ≠ 0 → ∀ gp xmm w, ∃ x w', env.native hook gp xmm w = some (0, x, w'))
    (hp : prog = pre ++ piecesAll sec sec (reportCode k hook slots) ++ rest)
    (hnd : (labelsOf prog).Nodup) (ho : seek exitLabel prog = some out)
    (hba : c.gp rbp = env.frameBase) (hh : c.frame HeaderWord.values.offset = env.valuesBase)
    (hsl : slots.length ≤ 0x10000000) :
    ∃ c', Reaches env prog (piecesAll sec sec (reportCode k hook slots) ++ rest, c) (out, c') ∧
      Left k (slots.map fun slot => c.frame slot.offset) c.stack c' := by
  let ask : List Fragment := if hook = 0 then [] else askForBridge k hook
  let copies : List Fragment := slots.zipIdx.map fun (s, j) => .moveMem (valueMem j) (slotMem s)
  obtain ⟨c1, ha, hf, hrb, hst⟩ : ∃ c1, Falls env (piecesAll sec sec ask) c c1 ∧
      c1.frame = c.frame ∧ c1.gp rbp = c.gp rbp ∧ c1.stack = c.stack := by
    dsimp only [ask]
    split
    · exact ⟨c, .nil, rfl, rfl, rfl⟩
    · rename_i hne
      rw [pieces_askForBridge]
      exact falls_ask (hfa hne) k c
  have hb := hrb.trans hba
  have hlo := falls_loadValues sec hb ((congrFun hf _).trans hh)
  have hln : 0 + (slots.map Location.slot).length ≤ 0x10000000 := by simpa using hsl
  obtain ⟨values, hc, hhe, _⟩ :=
    falls_storeLocations (c := c1.setGp r11 env.valuesBase) sec hb (by simp) hln
  have hs : (slots.map .slot).zipIdx.flatMap (fun (l, j) => storeLocation j l) = copies := by
    rw [List.zipIdx_map, List.flatMap_map]
    exact List.map_eq_flatMap.symm
  rw [hs] at hc
  have hfl := (ha.append hlo).append hc
  have hco : piecesAll sec sec (reportCode k hook slots) =
      piecesAll sec sec ask ++ piecesAll sec sec [loadValues] ++
        piecesAll sec sec copies ++ leave k := by
    rw [reportCode, Fragment.piecesAll_append, Fragment.piecesAll_append,
      Fragment.piecesAll_append, pieces_leave]
  have hr := hfl prog pre (leave k ++ rest) (by rw [hp, hco]; simp [copies]) hnd
  obtain ⟨c', hle, hl⟩ : ∃ c', Reaches env prog
      (leave k ++ rest, { c1.setGp r11 env.valuesBase with values := values }) (out, c') ∧
      Left k (slots.map fun slot => c.frame slot.offset) c1.stack c' := by
    refine reaches_leave (by exact hb) ho fun j w hj => ?_
    rw [List.getElem?_map, Option.map_eq_some_iff] at hj
    obtain ⟨slot, hs, rfl⟩ := hj
    have := hhe j (.slot slot) (by simp [hs]) (.inr ⟨_, rfl⟩)
    rw [Nat.zero_add] at this
    exact this.trans (congrFun hf _)
  refine ⟨c', ?_, ?_⟩
  · rw [hco, List.append_assoc]
    exact hr.trans hle
  · exact { hl with stack := hl.stack.trans hst }

/-! ## From a guard to its patch site -/

theorem pieces_stubCode (k : Int) (hook : Word) (fails : List (Slot × List Fragment)) :
    piecesAll sec sec (stubCode k hook fails) =
      .label (stubLabel k) :: (piecesAll sec sec (fails.flatMap Prod.snd) ++
        (.jumpSite (failLabel k) (siteLabel k) :: .label (failLabel k) ::
          piecesAll sec sec (reportCode k hook (fails.map Prod.fst)))) := by
  simp [stubCode, Fragment.piecesAll_append, piecesAll, pieces]

theorem Branch.reaches (ht : br.fails c.flags = true) (hs : seek l prog = some stub) :
    Reaches env prog (br.code l ++ rest, c) (stub, c) := by
  cases br with
  | never => cases ht
  | always => exact .single (.jump hs)
  | when cond => exact .single (.taken ht hs)

theorem Guarded.reaches_site (hg : Guarded u ks pos op s br s1 kinds vals fails f s')
    (hgo : Good u s1 c v) (he : u.frame.Extends f) (hro : Roomy s1.frame f vals.length)
    (ht : br.fails c.flags = true) (hnd : (labelsOf prog).Nodup) (rest : List Fragment)
    (hp : prog = pre ++ piecesAll .cold .cold
      (stubCode (s.nextExit u.req) u.req.hooks.failure fails) ++ after) :
    ∃ c', Reaches u.env prog (br.code (stubLabel (s.nextExit u.req)) ++ rest, c)
        (.jumpSite (failLabel (s.nextExit u.req)) (siteLabel (s.nextExit u.req)) ::
          .label (failLabel (s.nextExit u.req)) :: (piecesAll .cold .cold
            (reportCode (s.nextExit u.req) u.req.hooks.failure (fails.map Prod.fst)) ++ after), c') ∧
      Quiet c c' ∧ Good u s1 c' v ∧ ∀ e ∈ vals.zip fails, c'.frame e.2.1.offset = e.1.word v := by
  obtain ⟨c', hf, hq, hgo', hsl⟩ := hg.recovered.delivers .cold hg.check.ok hgo he hro
  generalize s.nextExit u.req = k at hp ⊢
  let site : List Fragment := .jumpSite (failLabel k) (siteLabel k) :: .label (failLabel k) ::
    (piecesAll .cold .cold (reportCode k u.req.hooks.failure (fails.map Prod.fst)) ++ after)
  have hs : prog = pre ++ .label (stubLabel k) ::
      (piecesAll .cold .cold (fails.flatMap Prod.snd) ++ site) := by
    rw [hp, pieces_stubCode]
    simp [site]
  have hj : Reaches u.env prog (br.code _ ++ rest, c) _ := Branch.reaches ht (seek_of_nodup hnd hs)
  have hr := hf prog (pre ++ [.label (stubLabel k)]) site (by rw [hs]; simp) hnd
  exact ⟨c', hj.trans hr, hq, hgo', hsl⟩

/-! ## Finishes and jumps -/

open List

variable {locs ls : List Location} {n j : Nat} {t : Unit} {x : Value} {kinds : List Kind}

/-! ## Words on their way out -/

def storeConstant (j : Nat) : Value → List Fragment
  | .const q =>
    if Word.fitsInt32 q.bits then [.instr (.storeImm (valueMem j) (immediate q.bits) 8)]
    else [.instr (.movImm (.wide rax) q.bits),
      .instr (.movStore (valueMem j) (.wide rax))]
  | .box _ => []

def finishCode (k : Int) (vals : List Value) (ls : List Location) : List Fragment :=
  [loadValues] ++ ls.zipIdx.flatMap (fun (l, j) => storeLocation j l) ++
    vals.zipIdx.flatMap (fun (x, j) => storeConstant j x) ++ leave k

theorem Spot.congr (h : Spot s x l) (hs : ∀ cls, s'.alloc cls = s.alloc cls) : Spot s' x l := by
  have hb (cls) : s'.bank cls = s.bank cls := congrArg Allocator.bank (hs cls)
  have hf : s'.frame = s.frame := congrArg Allocator.frame (hs .gp)
  cases h with
  | const q => exact .const q
  | reg h => exact .reg (by rwa [hb])
  | slot h hsl => exact .slot (by rwa [hb]) (by rwa [hf])

theorem emitted_nil (s : State) : s.emitted [] = s := by
  simp [State.emitted]

theorem finishBox_ok (hok : Ok u ks s) (hy : Yields (finishBox (some x) j) req s t s') :
    ∃ l, Spot s x l ∧ s' = s.emitted (storeLocation j l) := by
  unfold finishBox at hy
  cases x with
  | const q =>
    cases hy
    exact ⟨_, .const q, (emitted_nil _).symm⟩
  | box b =>
    rw [if_pos (show isBox (some (.box b)) = true from rfl)] at hy
    obtain ⟨l, s1, hl, hy1⟩ := hy.bind
    obtain ⟨rfl, _, ⟨⟩, hs⟩ := location_spot hok hl
    refine ⟨l, hs, ?_⟩
    match l, hs with
    | .reg ⟨.float, r⟩, _ => exact hy1.emit
    | .reg ⟨.gp, r⟩, _ => exact hy1.emit
    | .slot slot, _ => exact hy1.emit

theorem finishConst_ok (hy : Yields (finishConst (some x) j) req s t s') :
    s' = s.emitted (storeConstant j x) := by
  unfold finishConst at hy
  cases x with
  | box b =>
    cases hy
    exact (emitted_nil _).symm
  | const q =>
    dsimp only at hy
    dsimp only [storeConstant]
    split at hy
    · rename_i hf
      rw [if_pos hf]
      exact hy.emit
    · rename_i hf
      rw [if_neg hf]
      exact hy.emit

theorem yields_forM_cons {α : Type} {x : α} {xs : List α} {g : α → CompileM PUnit} :
    Yields ((x :: xs).forM g) req s t s' ↔
      ∃ t1 s1, Yields (g x) req s t1 s1 ∧ Yields (xs.forM g) req s1 t s' := yields_bind

theorem finishBoxes_ok (hok : Ok u ks s)
    (hy : Yields (((vals.map some).zipIdx n).forM fun p => finishBox p.1 p.2) req s t s') :
    ∃ ls, Forall₂ (Spot s) vals ls ∧
      s' = s.emitted ((ls.zipIdx n).flatMap fun (l, j) => storeLocation j l) := by
  induction vals generalizing n s with
  | nil =>
    cases hy
    exact ⟨[], .nil, (emitted_nil _).symm⟩
  | cons x vals ih =>
    rw [map_cons, zipIdx_cons] at hy
    obtain ⟨_, s1, hbo, hy1⟩ := yields_forM_cons.mp hy
    obtain ⟨l, hsp, rfl⟩ := finishBox_ok hok hbo
    obtain ⟨ls, hs, rfl⟩ := ih (hok.congr fun cls => alloc_emitted _ _ cls) hy1
    have hb := hs.imp fun _ _ h => h.congr fun cls => (alloc_emitted _ _ cls).symm
    refine ⟨l :: ls, .cons hsp hb, ?_⟩
    rw [emitted_emitted, zipIdx_cons, flatMap_cons]

theorem finishConsts_ok
    (hy : Yields (((vals.map some).zipIdx n).forM fun p => finishConst p.1 p.2) req s t s') :
    s' = s.emitted ((vals.zipIdx n).flatMap fun (x, j) => storeConstant j x) := by
  induction vals generalizing n s with
  | nil =>
    cases hy
    exact (emitted_nil _).symm
  | cons x vals ih =>
    rw [map_cons, zipIdx_cons] at hy
    obtain ⟨_, s1, hc, hy1⟩ := yields_forM_cons.mp hy
    rw [ih hy1, finishConst_ok hc, emitted_emitted, zipIdx_cons, flatMap_cons]

structure Finished (u : Setup ω) (op : Op) (s : State) (vals : List Value) (ls : List Location)
    (kinds : List Kind) (s' : State) : Prop where
  args : op.args = vals.map some
  exitKinds : op.exitKinds? = some kinds
  spots : Forall₂ (Spot s) vals ls
  eq : s' = { s with
    main := s.main ++ (finishCode (s.nextExit u.req) vals ls).map Item.code
    maxValues := max s.maxValues op.args.length
    exits := s.exits.push ⟨s.nextExit u.req, .finish, kinds, [], none, s.frame.depth⟩ }

theorem finish_ok (hok : Ok u ks s) (har : op.args = vals.map some)
    (hy : Yields (finish op) u.req s t s') : ∃ ls kinds, Finished u op s vals ls kinds s' := by
  unfold finish at hy
  rw [yields_read_bind, yields_get_bind] at hy
  dsimp only at hy
  obtain ⟨_, s1, hn, hy1⟩ := hy.bind
  cases yields_modify.mp hn
  have hy2 := hy1.emitBind
  obtain ⟨_, s3, hb, hy3⟩ := hy2.bind
  obtain ⟨_, s4, hc, hy4⟩ := hy3.bind
  obtain ⟨_, s5, hl, hy5⟩ := hy4.bind
  obtain ⟨kinds, hk, hp⟩ := hy5.needBind
  cases yields_modify.mp hp
  have hz : op.args.zipIdx = (vals.map some).zipIdx := by rw [har]
  rw [hz] at hb hc
  have ha (cls : RegClass) : (State.emitted { s with
      maxValues := max s.maxValues op.args.length } [loadValues]).alloc cls = s.alloc cls := by
    cases cls <;> rfl
  obtain ⟨ls, hs, rfl⟩ := finishBoxes_ok (hok.congr ha) hb
  cases finishConsts_ok hc
  cases hl.emit
  refine ⟨ls, kinds, har, hk, hs.imp fun _ _ h => h.congr fun cls => (ha cls).symm, ?_⟩
  simp only [emitted_emitted]
  rfl

/-! ## The words in the value array -/

structure Kept (c c' : Cpu ω) : Prop where
  base : c'.gp rbp = c.gp rbp
  scratch : c'.gp r11 = c.gp r11
  stack : c'.stack = c.stack

theorem Kept.trans (h : Kept c c') (h' : Kept c' c'') : Kept c c'' :=
  ⟨h'.base.trans h.base, h'.scratch.trans h.scratch, h'.stack.trans h.stack⟩

theorem falls_storeConstant (sec : Section) (hs : c.gp r11 = env.valuesBase) (j : Nat) (x : Value) :
    ∃ c', Falls env (piecesAll sec sec (storeConstant j x)) c c' ∧ Kept c c' ∧
      (∀ q, x = .const q → c'.values (valueOffset j) = q.bits) ∧
      ∀ d, (∀ q, x = .const q → d ≠ valueOffset j) → c'.values d = c.values d := by
  cases x with
  | box b => exact ⟨c, .nil, ⟨rfl, rfl, rfl⟩, nofun, fun _ _ => rfl⟩
  | const q =>
    unfold storeConstant
    dsimp only
    split
    · rename_i hf
      refine ⟨c.setValue (valueOffset j) q.bits, ?_, ⟨rfl, rfl, rfl⟩, ?_, ?_⟩
      · simp only [piecesAll, pieces_instr, append_nil]
        refine .instr ?_
        change (valueMem j).write? env 8 (Word.ofInt (immediate q.bits)) c = _
        rw [ofInt_immediate hf, write_valueMem hs]
      · rintro _ ⟨⟩
        simp
      · intro d hd
        rw [Cpu.setValue_values, Function.update_of_ne (hd q rfl)]
    · refine ⟨(c.setGp rax q.bits).setValue (valueOffset j) q.bits, ?_, ⟨rfl, rfl, rfl⟩, ?_, ?_⟩
      · simp only [piecesAll, pieces_instr, append_nil, cons_append, nil_append]
        refine .cons (rfl : _ = some (c.setGp rax q.bits)) (.instr ?_)
        change (valueMem j).write? env 8 ((c.setGp rax q.bits).gp rax) _ = _
        rw [Cpu.setGp_gp, Function.update_self]
        exact write_valueMem (c := c.setGp rax q.bits) hs ..
      · rintro _ ⟨⟩
        simp
      · intro d hd
        rw [Cpu.setValue_values, Function.update_of_ne (hd q rfl)]
        rfl

theorem falls_storeConstants (sec : Section) (hs : c.gp r11 = env.valuesBase)
    (hn : n + vals.length ≤ 0x10000000) : ∃ c', Falls env (piecesAll sec sec
        ((vals.zipIdx n).flatMap fun (x, j) => storeConstant j x)) c c' ∧ Kept c c' ∧
      (∀ (j : Nat) q, vals[j]? = some (.const q) → c'.values (valueOffset (n + j)) = q.bits) ∧
      ∀ i < n + vals.length, (∀ (j : Nat) q, vals[j]? = some (.const q) → i ≠ n + j) →
        c'.values (valueOffset i) = c.values (valueOffset i) := by
  induction vals generalizing n c with
  | nil => exact ⟨c, .nil, ⟨rfl, rfl, rfl⟩, by simp, fun _ _ _ => rfl⟩
  | cons x vals ih =>
    rw [length_cons] at hn
    obtain ⟨c1, hst, hk, hh, hoh⟩ := falls_storeConstant sec hs n x
    obtain ⟨c2, hf, hk', hr, ho⟩ := ih (c := c1) (n := n + 1) (hk.scratch.trans hs) (by omega)
    refine ⟨c2, ?_, hk.trans hk', fun j q hj => ?_, fun i hi hne => ?_⟩
    · rw [zipIdx_cons, flatMap_cons, Fragment.piecesAll_append]
      exact hst.append hf
    · cases j with
      | zero =>
        cases hj
        rw [Nat.add_zero, ho n (by omega) (fun j _ _ => by omega), hh q rfl]
      | succ j =>
        rw [show n + (j + 1) = n + 1 + j by omega]
        exact hr j q hj
    · rw [length_cons] at hi
      rw [ho i (by omega) fun j q hj => by
        have := hne (j + 1) q hj
        omega]
      refine hoh _ fun q hx => valueOffset_ne (by omega) (by omega) ?_
      exact hne 0 q (by rw [hx]; rfl)

/-! ## A finish on the processor -/

section

variable (h : Finished u op s vals ls kinds s')
include h

theorem Finished.length_eq : ls.length = vals.length := h.spots.length_eq.symm

theorem code_finished : s'.code =
    s.code ++ piecesAll .main .main (finishCode (s.nextExit u.req) vals ls) := by
  rw [h.eq]
  exact code_emitted s _

theorem Finished.reaches_exit (hok : Ok u ks s)
    (hg : Good u s c v) (hln : vals.length ≤ 0x10000000) (hou : seek exitLabel prog = some out)
    (hpr : prog = pre ++ piecesAll .main .main
      (finishCode (s.nextExit u.req) vals ls) ++ rest) (hnd : (labelsOf prog).Nodup) :
    ∃ c', Reaches u.env prog (piecesAll .main .main
        (finishCode (s.nextExit u.req) vals ls) ++ rest, c) (out, c') ∧
      Left (s.nextExit u.req) (vals.map (·.word v)) c.stack c' := by
  let c1 := c.setGp r11 u.env.valuesBase
  have hlo : Falls u.env (piecesAll .main .main [loadValues]) c c1 :=
    falls_loadValues .main hg.base hg.header
  have hb : c1.gp rbp = u.env.frameBase := hg.base
  have hs : c1.gp r11 = u.env.valuesBase := by simp [c1]
  have hln' : 0 + ls.length ≤ 0x10000000 := by
    rw [h.length_eq]
    omega
  obtain ⟨values, hbo, hbx, -⟩ := falls_storeLocations .main hb hs hln'
  have hs' : (show Cpu ω from { c1 with values := values }).gp r11 =
      u.env.valuesBase := hs
  have hva : 0 + vals.length ≤ 0x10000000 := by omega
  obtain ⟨c2, hco, hk, hcn, ho⟩ := falls_storeConstants .main hs' hva
  have hv : ∀ (j : Nat) w, (vals.map (·.word v))[j]? = some w → c2.values (valueOffset j) = w := by
    intro j w hj
    rw [getElem?_map, Option.map_eq_some_iff] at hj
    obtain ⟨x, hx, rfl⟩ := hj
    cases x with
    | const q =>
      have := hcn j q hx
      rwa [Nat.zero_add] at this
    | box b =>
      obtain ⟨hjt, hxj⟩ := List.getElem_of_getElem? hx
      have hjl : j < ls.length := h.length_eq.symm ▸ hjt
      obtain ⟨l, hl, hsp⟩ : ∃ l, ls[j]? = some l ∧ Spot s (.box b) l :=
        ⟨_, getElem?_eq_getElem hjl, hxj ▸ h.spots.get hjt hjl⟩
      have hp : (∃ r, l = .reg r) ∨ ∃ slot, l = .slot slot := by
        cases hsp with
        | reg _ => exact .inl ⟨_, rfl⟩
        | slot _ _ => exact .inr ⟨_, rfl⟩
      have hke := ho j (by omega) fun i q hi => by
        rintro rfl
        rw [Nat.zero_add, hi] at hx
        cases hx
      have hh := hbx j l hl hp
      rw [Nat.zero_add] at hh
      rw [hke]
      refine hh.trans ?_
      rw [Cpu.contents_setGp, Function.update_of_ne (hsp.ne_reg hok (by decide))]
      exact hsp.contents hok hg
  obtain ⟨c', hla, hle⟩ : ∃ c', Reaches u.env prog
      (leave (s.nextExit u.req) ++ rest, c2) (out, c') ∧
        Left (s.nextExit u.req) (vals.map (·.word v)) c2.stack c' :=
    reaches_leave (hk.base.trans hb) hou hv
  have hc : piecesAll .main .main (finishCode (s.nextExit u.req) vals ls) =
      piecesAll .main .main [loadValues] ++
        piecesAll .main .main (ls.zipIdx.flatMap fun (l, j) => storeLocation j l) ++
        piecesAll .main .main (vals.zipIdx.flatMap fun (x, j) => storeConstant j x) ++
        leave (s.nextExit u.req) := by
    rw [finishCode, Fragment.piecesAll_append, Fragment.piecesAll_append,
      Fragment.piecesAll_append, pieces_leave]
  have hf := (hlo.append hbo).append hco
  have hr := hf prog pre (leave (s.nextExit u.req) ++ rest)
    (by rw [hpr, hc]; simp only [append_assoc]) hnd
  refine ⟨c', ?_, { hle with stack := hle.stack.trans hk.stack }⟩
  rw [hc, append_assoc]
  exact hr.trans hla

end

/-! ## Jumps -/

def jumpMoves (vals : List Value) (ls locs : List Location) : List Move :=
  zipWith (fun p dst => ⟨p.2, dst, p.1.kind⟩) (vals.zip ls) locs

/-- How a jump leaves its trace: to its own body or to other code. -/
def jumpTail : Option Word → List Fragment
  | none => [.jump bodyLabel]
  | some a => [.instr (.movAbs scratch a), .instr (.jumpReg scratch)]

inductive Target (req : Request) (op : Op) (s : State) : List Location → Option Word → Prop
  | own (hself : op.descr = none ∨ op.descr = req.self) (hentry : req.entry.isBridge = false) :
      Target req op s s.inputs none
  | other {code : CodeEntry} (hother : op.descr ≠ none) (hself : op.descr ≠ req.self)
      (hcode : (op.descr.bind Descr.target?).bind JumpTarget.code = some code) :
      Target req op s code.locations (some code.address)

structure Jumped (u : Setup ω) (op : Op) (s : State) (vals : List Value) (ls locs : List Location)
    (address : Option Word) (out : List Move) (s' : State) : Prop where
  args : op.args = vals.map some
  target : Target u.req op s locs address
  length_eq : locs.length = vals.length
  spots : Forall₂ (Spot s) vals ls
  sequenced : Move.sequence (jumpMoves vals ls locs) scratchLocation = .ok out
  eq : s' = (s.moved out).emitted (jumpTail address)

theorem jumpTarget_ok (hy : Yields (jumpTarget op) req s p s') : s' = s ∧ Target req op s p.1 p.2 := by
  unfold jumpTarget at hy
  rw [yields_read_bind] at hy
  split at hy
  · rename_i hs
    dsimp only at hy
    split at hy
    · obtain ⟨_, _, hr, _⟩ := hy.bind
      cases yields_refuse hr
    · rename_i he
      rw [yields_get_bind] at hy
      cases hy
      exact ⟨rfl, .own (by simpa using hs) (Bool.eq_false_iff.mpr he)⟩
  · rename_i hs
    split at hy
    · rename_i code hc
      cases hy
      obtain ⟨ho, hs⟩ : op.descr ≠ none ∧ op.descr ≠ req.self := by simpa using hs
      exact ⟨rfl, .other ho hs hc⟩
    · cases yields_refuse hy

theorem yields_jumpMoves (hok : Ok u ks s) (hl : locs.length = vals.length)
    (hy : Yields (((vals.map some).zip locs).mapM fun (p : Option Value × Location) => do
      let src ← location p.1
      return (⟨src, p.2, (← need p.1).kind⟩ : Move)) req s ms s') :
    s' = s ∧ ∃ ls, Forall₂ (Spot s) vals ls ∧ ms = jumpMoves vals ls locs := by
  induction vals generalizing locs ms s' with
  | nil =>
    rw [map_nil, zip_nil_left, mapM_nil] at hy
    cases hy
    exact ⟨rfl, [], .nil, rfl⟩
  | cons x vals ih =>
    obtain _ | ⟨dst, locs⟩ := locs
    · cases hl
    · rw [map_cons, zip_cons_cons, mapM_cons] at hy
      obtain ⟨m, s1, hm, hy1⟩ := hy.bind
      obtain ⟨ms', s2, hr, hy2⟩ := hy1.bind
      cases hy2
      obtain ⟨l, s3, hlo, hy3⟩ := hm.bind
      obtain ⟨rfl, _, ⟨⟩, hsp⟩ := location_spot hok hlo
      obtain ⟨_, ⟨⟩, hy4⟩ := hy3.needBind
      cases hy4
      obtain ⟨rfl, ls, hs, rfl⟩ := ih (Nat.succ.inj hl) hr
      exact ⟨rfl, l :: ls, .cons hsp hs, rfl⟩

theorem jump_ok (hok : Ok u ks s) (ha : op.args = vals.map some) (hy : Yields (jump op) u.req s t s') :
    ∃ ls locs address out, Jumped u op s vals ls locs address out s' := by
  unfold jump at hy
  obtain ⟨⟨locs, address⟩, s1, ht, hy1⟩ := hy.bind
  obtain ⟨rfl, ht⟩ := jumpTarget_ok ht
  dsimp only at hy1 ht
  split at hy1
  · obtain ⟨_, _, hr, _⟩ := hy1.bind
    cases yields_refuse hr
  · rename_i hl
    have hl : locs.length = vals.length := by
      rw [not_not, ha, length_map] at hl
      exact hl
    obtain ⟨ms, s2, hm, hy2⟩ := hy1.bind
    rw [ha] at hm
    obtain ⟨rfl, ls, hs, rfl⟩ := yields_jumpMoves hok hl hm
    obtain ⟨out, s3, hse, hy3⟩ := hy2.bind
    obtain ⟨ho, rfl⟩ := yields_sequenced.mp hse
    obtain ⟨_, s4, he, hy4⟩ := hy3.bind
    cases yields_emitMoves.mp he
    refine ⟨ls, locs, address, out, ha, ht, hl, hs, ho, ?_⟩
    cases address with
    | none => exact hy4.emit
    | some a => exact hy4.emit

theorem mem_jumpMoves (hm : m ∈ jumpMoves vals ls locs) (hs : Forall₂ (Spot s) vals ls) :
    m.dst ∈ locs ∧ ∃ x ∈ vals, Spot s x m.src := by
  induction hs generalizing locs with
  | nil => cases hm
  | @cons x l vals ls hsp _ ih =>
    obtain _ | ⟨dst, locs⟩ := locs
    · cases hm
    · rcases mem_cons.mp hm with rfl | hm
      · exact ⟨mem_cons_self, x, mem_cons_self, hsp⟩
      · obtain ⟨hd, y, hy, hsr⟩ := ih hm
        exact ⟨mem_cons_of_mem _ hd, y, mem_cons_of_mem _ hy, hsr⟩

theorem Jumped.falls {out : List Move} (h : Jumped u op s vals ls locs address out s')
    (hok : Ok u ks s) (he : u.frame.Extends s.frame) (hg : Good u s c v)
    (hlo : ∀ l ∈ locs, l.Writable ∧ l ≠ .reg (Reg.gp r11)) :
    ∃ c', Falls u.env (piecesAll .main .main (out.map moveCode)) c c' ∧ Quiet c c' ∧
      ∀ (j : Nat) x l, vals[j]? = some x → locs[j]? = some l → c'.contents l = x.word v := by
  obtain ⟨c', hf, hq, hmo, -⟩ := falls_sequenced .main hg.base h.sequenced
    (fun m hm => by
      obtain ⟨hd, x, -, hsr⟩ := mem_jumpMoves hm h.spots
      exact ⟨(hlo _ hd).1, hsr.wide he⟩)
    (fun m hm => (hlo _ (mem_jumpMoves hm h.spots).1).2)
  refine ⟨c', hf, hq, fun j x l hx hl => ?_⟩
  obtain ⟨hjv, hxj⟩ := List.getElem_of_getElem? hx
  have hjl : j < ls.length := h.spots.length_eq ▸ hjv
  have hs : Spot s x ls[j] := hxj ▸ h.spots.get hjv hjl
  have hme : (⟨ls[j], l, x.kind⟩ : Move) ∈ jumpMoves vals ls locs := by
    have hp : (vals.zip ls)[j]? = some (x, ls[j]) :=
      getElem?_zip_eq_some.mpr ⟨hx, getElem?_eq_getElem hjl⟩
    refine mem_of_getElem? (i := j) ?_
    rw [jumpMoves, getElem?_zipWith, hp, hl]
  exact (hmo _ hme).trans (hs.contents hok hg)

end TraceCompiler.Lowering
