import TraceCompiler.Proofs.Lowering.Allocation
import TraceCompiler.Proofs.Lowering.Exits

/-! # Operations one after the other
-/

namespace TraceCompiler.Lowering

open Machine (Cpu Setting Falls Fragment Quiet Instr Mem Section Reaches)
open CompileM List

variable {ω : Type} {u : Setup ω} {ks : List Box} {pos : Nat} {s s' s'' : State} {c : Cpu ω}
  {v : Box → Word} {b : Box} {op : Op} {next : Option Op} {m m' : Eval.Machine ω} {w : Word}
  {t : Unit}

theorem merge_lowered (hr : Ready u ks pos op s) (ho : op.opcode = .debugMergePoint) :
    Lowered u ks pos op next s s := by
  have hn : op.result = none := hr.void.mpr (by rw [ho]; rfl)
  have hp : PartIf u (op.result.toList ++ ks) pos s s (fun _ _ => True)
      (Performs u op.result fun world _ => some (0, world)) := by
    rw [hn]
    refine ((Part.refl hr.ok).mono ?_).given _
    rintro c v _ _ _ _ ⟨rfl, rfl⟩
    exact ⟨0, rfl, fun _ _ => rfl⟩
  refine (hp.mono (fun _ _ _ => trivial) fun _ _ _ _ _ _ _ h => h).performed hr
    (by simp [hn]) fun _ v m w m' _ hra => ?_
  cases hra with
  | merge => rfl
  | unary ho' | quotient ho' | remainder ho' => simp [ho, Eval.isUnary] at ho'
  | heap ho' => simp [ho, Opcode.isCall, Opcode.needsDescr] at ho'
  | overflow hw => simp [ho, Eval.overflowResult?] at hw
  | int hw => simp [ho, Eval.intResult?] at hw
  | float hw => simp [ho, Eval.floatResult?] at hw

/-- **The code of an operation that stays on the trace does what the operation does.** -/
theorem lower_lowered (hr : Ready u ks pos op s) (hgu : op.opcode.isGuard = false)
    (hf : op.opcode.isFinal = false) (hy : Yields (lower pos op next) u.req s t s') :
    Lowered u ks pos op next s s' := by
  have hre (hk : op.opcode.resultKind ≠ .void) : ∃ b, op.result = some b := hr.has_result hk
  unfold lower at hy
  split at hy
  all_goals rename_i ho
  iterate 9
    obtain ⟨b, hb⟩ := hre (by rw [ho]; nofun)
    exact intBinary_lowered hr (by rw [ho]; rfl) hb hy
  iterate 2
    obtain ⟨b, hb⟩ := hre (by rw [ho]; nofun)
    exact division_lowered hr (by simp [ho]) hb hy
  iterate 3
    obtain ⟨b, hb⟩ := hre (by rw [ho]; nofun)
    exact shift_lowered hr (by rw [ho]; rfl) hb hy
  iterate 2
    obtain ⟨b, hb⟩ := hre (by rw [ho]; nofun)
    exact intUnary_lowered hr (by simp [ho]) hb hy
  iterate 14
    obtain ⟨b, hb⟩ := hre (by rw [ho]; nofun)
    exact intCompare_lowered hr (by simp [ho, isWordCompare]) hb hy
  iterate 4
    obtain ⟨b, hb⟩ := hre (by rw [ho]; nofun)
    exact floatBinary_lowered hr (by rw [ho]; rfl) hb hy
  iterate 2
    obtain ⟨b, hb⟩ := hre (by rw [ho]; nofun)
    exact floatUnary_lowered hr (by simp [ho]) hb hy
  iterate 6
    obtain ⟨b, hb⟩ := hre (by rw [ho]; nofun)
    exact floatCompare_lowered hr (by rw [ho]; rfl) hb hy
  iterate 2
    obtain ⟨b, hb⟩ := hre (by rw [ho]; nofun)
    exact cast_lowered hr (by simp [ho]) hb hy
  iterate 3 exact sameAs_lowered hr (by simp [ho]) hy
  iterate 3 exact (getfield_fetch hr (by simp [ho]) hy).elim (·.lowered hr)
  · exact (setfield_deposit hr ho hy).elim (·.lowered hr)
  iterate 3 exact (getarrayitem_fetch hr (by simp [ho]) hy).elim (·.lowered hr)
  · exact (setarrayitem_deposit hr ho hy).elim (·.lowered hr)
  · exact (arraylen_fetch hr ho hy).elim (·.lowered hr)
  iterate 3 exact (new_allocation hr (by simp [ho]) hy).elim (·.lowered hr)
  iterate 4 exact call_lowered hr (by simp [ho]) hy
  iterate 8 simp [ho, Opcode.isGuard] at hgu
  iterate 2 simp [ho, Opcode.isFinal] at hf
  · cases hy
    exact merge_lowered hr ho
  iterate 2 exact (yields_refuse hy).elim

/-! ## Between operations -/

variable {l : Lifetimes} {prev : Option Op} {ops : List Op} {req : Request} {f : Frame}

/-- What holds before the operations `ops` from `pos` on, when the boxes `ks` are defined and `l`
are the lifetimes so far: what is still read has a place, but for the result of a comparison that is
left to the flags. -/
structure Along (u : Setup ω) (l : Lifetimes) (ks : List Box) (pos : Nat) (ops : List Op)
    (s : State) : Prop where
  ok : Ok u ks s
  made : ∀ op ∈ ops, ∀ b ∈ op.result, b.id ≤ u.made
  lastUse : ∀ b, b.id ≤ u.made → s.lifetimes.lastUse b = (l.addOps pos ops).lastUse b
  placed : ∀ b ∈ ks, pos ≤ s.lifetimes.lastUse b → (∀ f ∈ s.fused, f.result ≠ some b) →
    (s.alloc (classOf b.kind)).Placed b
  flagsFrom : s.flagsFrom < pos
  fused : ∀ f ∈ s.fused, ∃ b ∈ ks, ∃ g, f.result = some b ∧ ops.head? = some g ∧
    (g.opcode = .guardTrue ∨ g.opcode = .guardFalse) ∧ g.args[0]? = some (some (.box b)) ∧
      some (.box b) ∉ g.failArgs ∧ s.lifetimes.lastUse b = pos

/-- What holds between two operations: besides, there are no temporaries. -/
structure Between (u : Setup ω) (l : Lifetimes) (ks : List Box) (pos : Nat) (ops : List Op)
    (s : State) : Prop extends Along u l ks pos ops s where
  temps : ∀ cls, (s.bank cls).temps = []

theorem Along.live (h : Along u l ks pos (op :: ops) s) (hc : Checks ks prev (op :: ops))
    (hb : b ∈ op.reads) (hf : ∀ f ∈ s.fused, f.result ≠ some b) : (s.alloc (classOf b.kind)).Placed b := by
  have hm : b ∈ ks := by
    cases hc with
    | cons hop => exact (Op.mem_reads.mp hb).elim (hop.args b) (hop.failArgs b)
  refine h.placed b hm ?_ hf
  rw [h.lastUse b (h.ok.ids b hm)]
  exact hc.le_lastUse (by omega) hb l

theorem Along.unfused (h : Along u l ks pos (op :: ops) s) (hgu : op.opcode.isGuard = false) :
    s.fused = none := by
  cases hf : s.fused with
  | none => rfl
  | some f =>
    obtain ⟨_, _, g, _, hg, hop, _⟩ := h.fused f hf
    cases hg
    rcases hop with hop | hop <;> simp [hop, Opcode.isGuard] at hgu

theorem Between.ready (h : Between u l ks pos (op :: ops) s)
    (hc : Checks ks prev (op :: ops)) (hgu : op.opcode.isGuard = false) : Ready u ks pos op s := by
  have hf := h.unfused hgu
  have hl {b : Box} (hb : some (.box b) ∈ op.args) : (s.alloc (classOf b.kind)).Placed b :=
    h.live hc (Op.mem_reads.mpr (.inl hb)) (by simp [hf])
  cases hc with
  | cons hop hre =>
    obtain ⟨vals, ha, ht, _⟩ := hop.typed
    refine ⟨h.ok, ⟨vals, ha, ht⟩, hop.args, fun b hb => hl hb, fun b hb => ?_, ?_, hf,
      h.flagsFrom, h.temps⟩
    · exact ⟨(hop.result b hb).1, h.made op mem_cons_self b hb, (hop.result b hb).2.1⟩
    · refine ⟨hop.noResult, fun hv => ?_⟩
      cases hr : op.result with
      | none => rfl
      | some b => exact absurd hv (hop.result b hr).2.2

theorem Between.guardReady (h : Between u l ks pos (op :: ops) s)
    (hc : Checks ks prev (op :: ops)) (hgu : op.opcode.isGuard = true) : GuardReady u ks pos op s := by
  cases hc with
  | cons hop hr =>
    obtain ⟨vals, ha, ht, _⟩ := hop.typed
    refine ⟨h.ok, hgu, ⟨vals, ha, ht⟩, hop.args, hop.fails, hop.failArgs, fun f hf => ?_⟩
    obtain ⟨b, _, g, hre, hg, hop', har, _⟩ := h.fused f hf
    cases hg
    exact ⟨b, hre, hop', har⟩

theorem Along.retained (h : Along u l ks pos (op :: ops) s) (hr : Retains u pos s s') (hb : b ∈ ks)
    (hl : (pos + 1 : Nat) ≤ s'.lifetimes.lastUse b) : (s'.alloc (classOf b.kind)).Placed b := by
  have hm := h.ok.ids b hb
  rw [hr.lastUse b hm] at hl
  refine hr.placed _ b hm (by omega) (h.placed b hb (by omega) fun f hf hre => ?_)
  -- A comparison whose flags were read now is not read again.
  obtain ⟨_, _, _, hre', _, _, _, _, hl'⟩ := h.fused f hf
  cases hre.symm.trans hre'
  omega

theorem Between.lowered (h : Between u l ks pos (op :: ops) s) (hlo : Lowered u ks pos op ops.head? s s') :
    Along u (l.addOp pos op) (op.result.toList ++ ks) (pos + 1) ops s' := by
  refine ⟨hlo.ok, fun o ho => h.made o (mem_cons_of_mem _ ho),
    fun b hb => (hlo.retains.lastUse b hb).trans (h.lastUse b hb), fun b hb hli hf => ?_, ?_,
    fun f hf => ?_⟩
  · rcases mem_append.mp hb with hr | hk
    · refine .inl (hlo.inReg ?_ b (Option.mem_toList.mp hr))
      cases hfu : s'.fused with
      | none => rfl
      | some f =>
        have hr : op.result = some b := Option.mem_toList.mp hr
        exact absurd ((hlo.fused f hfu).result.trans hr) (hf f hfu)
    · exact h.retained hlo.retains hk hli
  · have := hlo.flagsFrom
    omega
  · obtain ⟨-, hr, hu, b, g, hb, hg, hop, ha, hfa⟩ := hlo.fused f hf
    exact ⟨b, mem_append_left _ (Option.mem_toList.mpr hb), g, hr.trans hb, hg, hop, ha, hfa,
      by rw [hu b hb]; omega⟩

/-! ## Behind guards -/

theorem Ok.with_frame (hok : Ok u ks s) (hh : s.frame.History hist f)
    (hm : ∀ b, some b ∈ hist → b ∈ ks) : Ok u ks { s with frame := f } := by
  have hs (b : Box) (slot : Slot) (hb : f.get? b = some slot) : b ∈ ks := by
    rcases (hh.slots b slot).mp hb with hb | ⟨i, hi, _⟩
    · exact hok.slots b slot hb
    · exact hm b (mem_of_getElem? hi)
  have hp (cls : RegClass) (b : Box) :
      (State.alloc { s with frame := f } cls).Placed b ↔ (s.alloc cls).Placed b := by
    cases cls <;> exact Iff.rfl
  refine ⟨fun cls => ?_, fun cls => ⟨fun b hb => ?_, fun b slot hb => ?_, fun b hb => ?_⟩,
    fun b cls cls' h h' => ?_, hok.ids, fun cls => ?_, hok.made, hs, fun b hb => ?_, fun cls b hb => ?_⟩
  · rw [bank_with_frame]
    exact hok.sound cls
  · exact (hok.tidy cls).placed b ((hp cls b).mp hb)
  · exact (hok.ids b (hs b slot hb)).trans hok.made
  · have hb : b ∈ (s.alloc cls).bank.inFrame := by cases cls <;> exact hb
    obtain ⟨slot, hsl⟩ := Option.isSome_iff_exists.mp ((hok.tidy cls).stored b hb)
    exact Option.isSome_iff_exists.mpr ⟨slot, hh.keeps b slot hsl⟩
  · exact hok.apart b cls cls' ((hp ..).mp h) ((hp ..).mp h')
  · rw [bank_with_frame]
    exact hok.temps cls
  · refine ⟨(hok.shared b hb).1, fun cls => ?_⟩
    rw [bank_with_frame]
    exact (hok.shared b hb).2 cls
  · rw [bank_with_frame]
    exact hok.known cls b ((hp ..).mp hb)

theorem Good.with_frame (hgo : Good u s c v) (he : f.Extends s.frame) :
    Good u { s with frame := f } c v := by
  refine { hgo with holds := fun cls => ?_ }
  have hold := hgo.holds cls
  refine ⟨fun b r hx hr => ?_, fun b hb => ?_⟩
  · cases cls <;> exact hold.reg b r hx hr
  · have hb : b ∈ (s.alloc cls).bank.inFrame := by cases cls <;> exact hb
    obtain ⟨slot, hs, hv⟩ := hold.slot b hb
    exact ⟨slot, he b slot hs, hv⟩

namespace Guarded

variable {br : Branch} {s1 : State} {kinds : List Kind} {vals : List Value}
  {fails : List (Slot × List Fragment)}

section

variable (hg : Guarded u ks pos op s br s1 kinds vals fails f s')
include hg

theorem alloc_eq (cls : RegClass) : s'.alloc cls = State.alloc { s1 with frame := f } cls := by
  rw [hg.eq]
  cases cls <;> rfl

theorem fused_eq : s'.fused = none := by
  rw [hg.eq]
  exact hg.check.plain.fused

theorem flagsFrom_eq : s'.flagsFrom = s.flagsFrom := by
  rw [hg.eq]
  exact hg.check.plain.flagsFrom

theorem retains : Retains u pos s s' := by
  have hr := hg.check.retains
  refine ⟨fun b hb => ?_, fun cls b hb hl hp => ?_⟩
  · rw [hg.eq]
    exact hr.lastUse b hb
  · have := hr.placed cls b hb hl (by cases cls <;> exact hp)
    rw [hg.alloc_eq]
    cases cls <;> exact this

theorem ok (hf : ∀ b, some (.box b) ∈ op.failArgs → b ∈ ks) : Ok u ks s' := by
  obtain ⟨hist, hh, _, hm⟩ := hg.recovered.history
  refine (hg.check.ok.with_frame hh fun b hb => hf b ?_).congr hg.alloc_eq
  rw [hg.failArgs]
  exact mem_map_of_mem (hm b hb)

end

end Guarded

theorem Between.guarded (h : Between u l ks pos (op :: ops) s)
    (hch : Checks ks prev (op :: ops)) (hgu : op.opcode.isGuard = true)
    (hg : Guarded u ks pos op s br s1 kinds vals fails f s') :
    Along u (l.addOp pos op) (op.result.toList ++ ks) (pos + 1) ops s' := by
  cases hch with
  | cons hop hre =>
    have hn : op.result = none := by
      cases hr : op.result with
      | none => rfl
      | some b =>
        refine absurd ?_ (hop.result b hr).2.2
        cases ho : op.opcode <;> simp_all [Opcode.isGuard] <;> rfl
    rw [hn]
    refine ⟨hg.ok hop.failArgs, fun o ho => h.made o (mem_cons_of_mem _ ho),
      fun b hb => (hg.retains.lastUse b hb).trans (h.lastUse b hb),
      fun b hb hli _ => h.retained hg.retains hb hli, ?_, by simp [hg.fused_eq]⟩
    have := h.flagsFrom
    rw [hg.flagsFrom_eq]
    omega

/-! ## The end of an operation -/

theorem yields_checkBank (hy : Yields (checkBank cls pos) req s t s') : s' = s := by
  unfold checkBank at hy
  rw [yields_get_bind] at hy
  dsimp only at hy
  split at hy
  · exact (yields_pure.mp hy).2
  · exact (yields_refuse hy).elim

theorem yields_compileOp (hf : op.opcode.isFinal = false)
    (hy : Yields (compileOp pos op next) req s t s') : ∃ s1 s2,
      Yields (lower pos op next) req s () s1 ∧ Yields (onGp (AllocM.endOp pos op)) req s1 () s2 ∧
        Yields (onFloat (AllocM.endOp pos op)) req s2 () s' := by
  unfold compileOp at hy
  obtain ⟨_, s1, hl, hy1⟩ := hy.bind
  rw [if_pos (by simp [hf])] at hy1
  obtain ⟨_, s2, hgp, hy2⟩ := hy1.bind
  obtain ⟨_, s3, hfl, hy3⟩ := hy2.bind
  rw [yields_read_bind] at hy3
  have hs : s' = s3 := by
    split at hy3
    · obtain ⟨_, s4, hc, hc'⟩ := hy3.bind
      rw [yields_checkBank hc', yields_checkBank hc]
    · exact (yields_pure.mp hy3).2
  exact ⟨s1, s2, hl, hgp, hs ▸ hfl⟩

theorem endOps_silent (hok : Ok u ks s) (hgp : Yields (onGp (AllocM.endOp pos op)) req s t s')
    (hf : Yields (onFloat (AllocM.endOp pos op)) req s' t' s'') :
    Silent u ks pos s s'' ∧ ∀ cls, (s''.bank cls).temps = [] := by
  obtain ⟨hs, ht⟩ := endOp_silent hok hgp
  obtain ⟨hs', ht'⟩ := endOp_silent hs.ok hf
  refine ⟨hs.trans hs', fun cls => ?_⟩
  cases cls with
  | float => exact ht'
  | gp =>
    obtain ⟨a, _, rfl⟩ := hf.onBank
    exact ht

theorem Along.between (h : Along u l ks (pos + 1) ops s) (hs : Silent u ks pos s s')
    (ht : ∀ cls, (s'.bank cls).temps = []) : Between u l ks (pos + 1) ops s' := by
  have hl (b : Box) (hb : b.id ≤ u.made) :
      s'.lifetimes.lastUse b = s.lifetimes.lastUse b := hs.retains.lastUse b hb
  refine ⟨⟨hs.ok, h.made, fun b hb => (hl b hb).trans (h.lastUse b hb),
    fun b hb hli hf => ?_, hs.plain.flagsFrom ▸ h.flagsFrom, fun f hf => ?_⟩, ht⟩
  · have hm := h.ok.ids b hb
    rw [hl b hm] at hli
    rw [hs.plain.fused] at hf
    exact hs.retains.placed _ b hm (by omega) (h.placed b hb hli hf)
  · rw [hs.plain.fused] at hf
    obtain ⟨b, hb, g, hr, hg, hop, ha, hfa, hl'⟩ := h.fused f hf
    exact ⟨b, hb, g, hr, hg, hop, ha, hfa, (hl b (h.ok.ids b hb)).trans hl'⟩

/-! ## All operations -/

/-- An operation that is not the last one was compiled, from the state `s` to the state `s'`. -/
inductive Stage (u : Setup ω) (ks : List Box) (pos : Nat) (op : Op) (next : Option Op)
    (s s' : State) : Prop
  | stay {s1 : State} (ready : Ready u ks pos op s) (noGuard : op.opcode.isGuard = false)
      (notFinal : op.opcode.isFinal = false) (yields : Yields (lower pos op next) u.req s () s1)
      (lowered : Lowered u ks pos op next s s1)
      (silent : Silent u (op.result.toList ++ ks) pos s1 s')
  | guard {s1 s2 : State} {br : Branch} {kinds : List Kind} {vals : List Value}
      {fails : List (Slot × List Fragment)} {f : Frame} (ready : GuardReady u ks pos op s)
      (isGuard : op.opcode.isGuard = true) (yields : Yields (lower pos op next) u.req s () s2)
      (known_fails : ∀ b, some (.box b) ∈ op.failArgs → b ∈ ks)
      (guarded : Guarded u ks pos op s br s1 kinds vals fails f s2) (frame : s'.frame = f)
      (silent : Silent u (op.result.toList ++ ks) pos s2 s')

/-- The operations `ops` from `pos` on were compiled one by one, from the state `s` to the state
`fin`. -/
inductive Trail (u : Setup ω) (fin : State) :
    Lifetimes → List Box → Nat → List Op → State → Prop
  | step {l : Lifetimes} {ks : List Box} {prev : Option Op} {pos : Nat} {op : Op}
      {ops : List Op} {s s' : State} (between : Between u l ks pos (op :: ops) s)
      (checks : Checks ks prev (op :: ops)) (stage : Stage u ks pos op ops.head? s s')
      (rest : Trail u fin (l.addOp pos op) (op.result.toList ++ ks) (pos + 1) ops s') :
      Trail u fin l ks pos (op :: ops) s
  | final {l : Lifetimes} {ks : List Box} {prev : Option Op} {pos : Nat} {op : Op} {s : State}
      (between : Between u l ks pos [op] s) (checks : Checks ks prev [op])
      (isFinal : op.opcode.isFinal = true)
      (yields : Yields (lower pos op none) u.req s () fin) : Trail u fin l ks pos [op] s

theorem lower_of_isGuard (h : op.opcode.isGuard = true) : lower pos op next = guard pos op := by
  obtain ⟨o, _, _, _, _⟩ := op
  cases o <;> cases h <;> rfl

theorem run_locate {α : Type} {m : CompileM α} {x : α} :
    (locate trace place m req).run s = (.ok x, s') ↔ Yields m req s x s' := by
  have hr : (locate trace place m req).run s =
      (((m req).run s).1.mapError (Abort.map (.failed trace place)), ((m req).run s).2) := rfl
  rw [hr, Yields]
  rcases (m req).run s with ⟨_ | _, _⟩
  · constructor <;> rintro ⟨⟩
  · constructor <;> rintro ⟨⟩ <;> rfl

/-- **Operations of a well-formed trace are compiled one by one.** -/
theorem compileOps_trail (hc : Checks ks prev ops) (hne : ops ≠ [])
    (h : Between u l ks pos ops s) (hru : (compileOps name pos ops u.req).run s = (.ok (), s')) :
    Trail u s' l ks pos ops s := by
  induction ops generalizing l ks prev pos s with
  | nil => exact absurd rfl hne
  | cons op ops ih =>
    obtain ⟨_, s1, hop, hrs⟩ := run_bind_ok
      (x := locate name (some (pos, op.opcode)) (compileOp pos op ops.head?) u.req) hru
    rw [run_locate] at hop
    have hn : op.opcode.isFinal = true ↔ ops = [] := by
      cases hc with
      | cons h _ => rw [h.final, head?_eq_none_iff]
    cases hf : op.opcode.isFinal with
    | true =>
      obtain rfl := hn.mp hf
      cases hrs
      unfold compileOp at hop
      obtain ⟨_, s2, hl, hy⟩ := hop.bind
      rw [if_neg (by simp [hf])] at hy
      cases hy
      exact .final h hc hf hl
    | false =>
      have hne' : ops ≠ [] := fun hni => by simp [hn.mpr hni] at hf
      obtain ⟨s2, s3, hl, hgp, hfl⟩ := yields_compileOp hf hop
      obtain ⟨hfa, hre⟩ : (∀ b, some (.box b) ∈ op.failArgs → b ∈ ks) ∧
          Checks (op.result.toList ++ ks) (some op) ops := by
        cases hc with
        | cons hop hrs => exact ⟨hop.failArgs, hrs⟩
      cases hgu : op.opcode.isGuard with
      | false =>
        have hr := h.ready hc hgu
        have hlo := lower_lowered hr hgu hf hl
        obtain ⟨hs, ht⟩ := endOps_silent hlo.ok hgp hfl
        exact .step h hc (.stay hr hgu hf hl hlo hs)
          (ih hre hne' ((h.lowered hlo).between hs ht) hrs)
      | true =>
        have hr := h.guardReady hc hgu
        obtain ⟨br, s4, kinds, vals, fails, f, hga⟩ := guard_ok hr (lower_of_isGuard hgu ▸ hl)
        have hb := h.guarded hc hgu hga
        obtain ⟨hs, ht⟩ := endOps_silent hb.ok hgp hfl
        exact .step h hc (.guard hr hgu hl hfa hga (by rw [hs.frame, hga.eq]) hs)
          (ih hre hne' (hb.between hs ht) hrs)

end TraceCompiler.Lowering
