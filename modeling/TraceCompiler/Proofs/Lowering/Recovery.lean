import TraceCompiler.Proofs.Lowering.Guards

/-! # Recovery stubs

When a guard fails, its stub brings the fail values to slots.
-/

namespace TraceCompiler.Lowering

open Machine (Cpu Setting Falls Fragment Quiet Instr Mem Section)
open CompileM List
open Machine.Fragment (piecesAll)

variable {ω : Type} {u : Setup ω} {ks : List Box} {s s' : State} {c c' : Cpu ω} {v : Box → Word}
  {b : Box} {r : Int} {f f' : Frame} {vals : List Value} {fails : List (Slot × List Fragment)}
  {req : Request} {slot : Slot} {e : Slot × List Fragment} {q : Const}

/-! ## Slots of fail values -/

inductive Rescued (s : State) (b : Box) (slot : Slot) : List Fragment → Prop
  | stored (hb : b ∈ (s.bank (classOf b.kind)).inFrame) : Rescued s b slot []
  | reg {r : Int} (hb : b ∉ (s.bank (classOf b.kind)).inFrame)
      (hr : (s.bank (classOf b.kind)).regOf (some b) = some r) :
      Rescued s b slot [moveCode ⟨.reg ⟨classOf b.kind, r⟩, .slot slot, b.kind⟩]

inductive Recovered (s : State) :
    Frame → List Value → List (Slot × List Fragment) → Frame → Prop
  | nil {f : Frame} : Recovered s f [] [] f
  | const {q : Const} {f f' : Frame} {vals : List Value} {fails : List (Slot × List Fragment)}
      (h : Recovered s f.fresh.2 vals fails f') :
      Recovered s f (.const q :: vals)
        ((f.fresh.1, [moveCode ⟨.imm q.bits, .slot f.fresh.1, q.kind⟩]) :: fails) f'
  | box {b : Box} {f f' : Frame} {vals : List Value} {fails : List (Slot × List Fragment)}
      {code : List Fragment} (hb : Rescued s b (f.slotOf b).1 code)
      (h : Recovered s (f.slotOf b).2 vals fails f') :
      Recovered s f (.box b :: vals) (((f.slotOf b).1, code) :: fails) f'

theorem absorb_frame (s : State) (cls : RegClass) (f : Frame) :
    s.absorb cls { s.alloc cls with frame := f } = { s with frame := f } := by
  cases s
  cases cls <;> simp [State.absorb, State.alloc, State.bank]

@[simp] theorem bank_with_frame (s : State) (f : Frame) (cls : RegClass) :
    State.bank { s with frame := f } cls = s.bank cls := by
  cases cls <;> rfl

theorem yields_slotOf (hy : Yields (onBank cls (AllocM.slotOf b)) req s slot s') :
    slot = (s.frame.slotOf b).1 ∧ s' = { s with frame := (s.frame.slotOf b).2 } := by
  obtain ⟨a, hr, rfl⟩ := hy.onBank
  have hr' : (AllocM.slotOf b).run (s.alloc cls) =
      (.ok (s.frame.slotOf b).1, { s.alloc cls with frame := (s.frame.slotOf b).2 }) := rfl
  rw [hr'] at hr
  cases hr
  exact ⟨rfl, absorb_frame ..⟩

theorem Recovered.congr (h : Recovered s f vals fails f')
    (hs : ∀ cls, s'.bank cls = s.bank cls) : Recovered s' f vals fails f' := by
  induction h with
  | nil => exact .nil
  | const _ ih => exact .const ih
  | box hb _ ih =>
    refine .box ?_ ih
    cases hb with
    | stored hb => exact .stored (by rwa [hs])
    | reg hb hr => exact .reg (by rwa [hs]) (by rwa [hs])

theorem failSlots_ok (hp : ∀ cls, (s.bank cls).pool.cls = cls)
    (hy : Yields (failSlots vs) req s fails s') : ∃ vals f, vs = vals.map some ∧
      s' = { s with frame := f } ∧ Recovered s s.frame vals fails f := by
  induction vs generalizing s fails s' with
  | nil =>
    cases hy
    exact ⟨[], s.frame, rfl, rfl, .nil⟩
  | cons x vs ih =>
    -- What comes behind the first value only sees another frame.
    have tail {first : Slot × List Fragment} {f : Frame}
        (hy : Yields (do return first :: (← failSlots vs)) req { s with frame := f } fails s') :
        ∃ rest vals f', fails = first :: rest ∧ vs = vals.map some ∧ s' = { s with frame := f' } ∧
          Recovered s f vals rest f' := by
      obtain ⟨rest, s2, hre, hrt⟩ := hy.bind
      cases hrt
      obtain ⟨vals, f', hvs, hs', hrc⟩ := ih (by simpa using hp) hre
      exact ⟨rest, vals, f', rfl, hvs, hs', hrc.congr (by simp)⟩
    unfold failSlots at hy
    obtain _ | b | q := x
    · obtain ⟨_, _, hno, _⟩ := hy.bind
      exact (yields_refuse hno).elim
    · obtain ⟨bank, s1, hba, hy1⟩ := hy.bind
      obtain ⟨rfl, rfl⟩ := yields_bankOf.mp hba
      dsimp only at hy1
      split at hy1
      · obtain ⟨_, _, hno, _⟩ := hy1.bind
        exact (yields_refuse hno).elim
      · rename_i hpl
        obtain ⟨slot, s2, hsl, hy2⟩ := hy1.bind
        obtain ⟨rfl, rfl⟩ := yields_slotOf hsl
        by_cases hb : b ∈ (s1.bank (classOf b.kind)).inFrame
        · have hy3 : Yields (do return ((s1.frame.slotOf b).1, []) :: (← failSlots vs)) req
              { s1 with frame := (s1.frame.slotOf b).2 } fails s' := by
            cases hr : (s1.bank (classOf b.kind)).regOf (some b) <;>
              simp only [hb, hr, decide_true] at hy2 <;> exact hy2
          obtain ⟨rest, vals, f', rfl, rfl, hs', hrc⟩ := tail hy3
          exact ⟨.box b :: vals, f', rfl, hs', .box (.stored hb) hrc⟩
        · obtain ⟨r, hr⟩ : ∃ r, (s1.bank (classOf b.kind)).regOf (some b) = some r := by
            simpa [hb, Option.ne_none_iff_exists'] using hpl
          simp only [hb, hr, decide_false, Pool.reg, hp] at hy2
          obtain ⟨rest, vals, f', rfl, rfl, hs', hrc⟩ := tail hy2
          exact ⟨.box b :: vals, f', rfl, hs', .box (.reg hb hr) hrc⟩
    · obtain ⟨slot, s1, hsl, hy1⟩ := hy.bind
      obtain ⟨a, hru, rfl⟩ := hsl.onBank
      cases hru
      obtain ⟨_, _, hpu, hy2⟩ := hy1.bind
      cases hpu
      rw [absorb_frame] at hy2
      obtain ⟨rest, vals, f', rfl, rfl, hs', hrc⟩ := tail hy2
      exact ⟨_, f', rfl, hs', .const hrc⟩

theorem history_slotOf (f : Frame) (b : Box) : ∃ hist, f.History hist (f.slotOf b).2 ∧
    hist.length ≤ 1 ∧ ∀ b', some b' ∈ hist → b' = b := by
  rcases Frame.History.slotOf f b with h | ⟨_, h⟩
  · exact ⟨_, h, Nat.zero_le _, nofun⟩
  · exact ⟨_, h, le_rfl, by simp⟩

namespace Recovered

section

variable (h : Recovered s f vals fails f')
include h

theorem length_eq : fails.length = vals.length := by
  induction h with
  | nil => rfl
  | const _ ih | box _ _ ih => rw [length_cons, length_cons, ih]

theorem history : ∃ hist, f.History hist f' ∧
    hist.length ≤ vals.length ∧ ∀ b, some b ∈ hist → .box b ∈ vals := by
  induction h with
  | nil => exact ⟨[], .refl _, le_rfl, nofun⟩
  | @const q f f' vals fails _ ih =>
    obtain ⟨hist, hh, hle, hme⟩ := ih
    refine ⟨[none] ++ hist, (Frame.History.fresh f).trans hh, Nat.succ_le_succ hle, fun b hb => ?_⟩
    rcases mem_cons.mp hb with heq | hb
    · cases heq
    · exact mem_cons_of_mem _ (hme b hb)
  | @box b f f' vals fails code _ _ ih =>
    obtain ⟨hist, hh, hle, hme⟩ := ih
    obtain ⟨his, hf, hl, hm⟩ := history_slotOf f b
    refine ⟨his ++ hist, hf.trans hh, ?_, fun b' hb' => ?_⟩
    · rw [length_append, length_cons]
      omega
    · rcases mem_append.mp hb' with hb' | hb'
      · rw [hm b' hb']
        exact mem_cons_self
      · exact mem_cons_of_mem _ (hme b' hb')

theorem ext : f'.Extends f := by
  obtain ⟨_, hh, _⟩ := h.history
  exact hh.keeps

theorem get?_box (hb : (.box b, e) ∈ vals.zip fails) : f'.get? b = some e.1 := by
  induction h with
  | nil => cases hb
  | const _ ih =>
    rcases mem_cons.mp hb with heq | hb
    · cases heq
    · exact ih hb
  | box _ h ih =>
    rcases mem_cons.mp hb with heq | hb
    · cases heq
      exact h.ext b _ (Frame.get?_slotOf_self ..)
    · exact ih hb

theorem rescued (hb : (.box b, e) ∈ vals.zip fails) : Rescued s b e.1 e.2 := by
  induction h with
  | nil => cases hb
  | const _ ih =>
    rcases mem_cons.mp hb with heq | hb
    · cases heq
    · exact ih hb
  | box hr _ ih =>
    rcases mem_cons.mp hb with heq | hb
    · cases heq
      exact hr
    · exact ih hb

theorem code_const (hq : (.const q, e) ∈ vals.zip fails) :
    e.2 = [moveCode ⟨.imm q.bits, .slot e.1, q.kind⟩] := by
  induction h with
  | nil => cases hq
  | const _ ih =>
    rcases mem_cons.mp hq with heq | hq
    · cases heq
      rfl
    · exact ih hq
  | box _ _ ih =>
    rcases mem_cons.mp hq with heq | hq
    · cases heq
    · exact ih hq

section

variable (h0 : -0x8000000000000000 ≤ f.next) (h1 : f.next + vals.length < 0x8000000000000000)
  (hbl : f.Below)
include h0 h1 hbl

theorem bounds : ∀ e ∈ fails, e.1.index < f'.next ∧ (f.next ≤ e.1.index ∨ ∃ b, f.get? b = some e.1) := by
  induction h with
  | nil => exact nofun
  | @const q f f' vals fails h ih =>
    have hfr := Frame.History.fresh f
    rw [length_cons] at h1
    have hn : f.fresh.2.next = f.next + 1 := hfr.next_eq h0 (by simp; omega)
    obtain ⟨hist, hh, hle, _⟩ := h.history
    have hn' := hh.next_eq (by omega) (by omega)
    refine forall_mem_cons.mpr ⟨⟨?_, .inl le_rfl⟩, fun e he => ?_⟩
    · change f.next < f'.next
      omega
    · obtain ⟨hlt, hid⟩ := ih (by omega) (by omega) (hfr.below h0 (by simp; omega) hbl) e he
      exact ⟨hlt, hid.imp (fun hid => by omega) fun ⟨b, hb⟩ => ⟨b, hb⟩⟩
  | @box b f f' vals fails code _ h ih =>
    obtain ⟨his, hf, hl, _⟩ := history_slotOf f b
    rw [length_cons] at h1
    have hn := hf.next_eq h0 (by omega)
    have hbe := hf.below h0 (by omega) hbl
    obtain ⟨hist, hh, hle, _⟩ := h.history
    have hold {b' : Box} {slot : Slot} (hb : (f.slotOf b).2.get? b' = some slot) :
        f.next ≤ slot.index ∨ ∃ b, f.get? b = some slot := by
      rcases hf.index h0 (by omega) hb with hb | ⟨i, _, hi, _⟩
      · exact .inr ⟨b', hb⟩
      · exact .inl (by omega)
    refine forall_mem_cons.mpr ⟨⟨?_, hold (Frame.get?_slotOf_self f b)⟩, fun e he => ?_⟩
    · exact hh.below (by omega) (by omega) hbe b _ (h.ext b _ (Frame.get?_slotOf_self f b))
    · obtain ⟨hlt, hid⟩ := ih (by omega) (by omega) hbe e he
      exact ⟨hlt, hid.elim (fun hid => .inl (by omega)) fun ⟨b', hb'⟩ => hold hb'⟩

/-- **A constant has a slot of its own**: no box has it, nor any other fail value. -/
theorem const_own {i j : Nat}
    (hi : vals[i]? = some (.const q)) (he : fails[i]? = some e) (he' : fails[j]? = some e') :
    (∀ b, f'.get? b ≠ some e.1) ∧ (e'.1 = e.1 → j = i) := by
  induction h generalizing i j e' with
  | nil => cases hi
  | @const q' f f' vals fails h ih =>
    have hf := Frame.History.fresh f
    rw [length_cons] at h1
    have hn : f.fresh.2.next = f.next + 1 := hf.next_eq h0 (by simp; omega)
    have hbe := hf.below h0 (by simp; omega) hbl
    obtain ⟨hist, hh, hln, _⟩ := h.history
    -- Slots that were there and slots that come later are not the fresh one.
    have hold {b : Box} (hb : f'.get? b = some ⟨f.next⟩) : False := by
      rcases hh.index (by omega) (by omega) hb with hb | ⟨i, _, hi, _⟩
      · exact (hbl b _ hb).ne rfl
      · change f.next = _ at hi
        omega
    have hl {k : Nat} {e : Slot × List Fragment} (he : fails[k]? = some e) :
        e.1 ≠ ⟨f.next⟩ := by
      intro heq
      rcases (h.bounds (by omega) (by omega) hbe e (mem_of_getElem? he)).2 with
        hid | ⟨b, hb⟩
      · rw [heq] at hid
        change f.fresh.2.next ≤ f.next at hid
        omega
      · rw [heq] at hb
        exact (hbl b _ hb).ne rfl
    cases i with
    | zero =>
      cases he
      refine ⟨fun b hb => hold hb, fun heq => ?_⟩
      cases j with
      | zero => rfl
      | succ j => exact absurd heq (hl he')
    | succ i =>
      rw [getElem?_cons_succ] at hi he
      cases j with
      | zero =>
        cases he'
        exact ⟨(ih (by omega) (by omega) hbe hi he he).1,
          fun heq => absurd heq.symm (hl he)⟩
      | succ j =>
        rw [getElem?_cons_succ] at he'
        obtain ⟨ho, hin⟩ := ih (by omega) (by omega) hbe hi he he'
        exact ⟨ho, fun heq => congrArg _ (hin heq)⟩
  | @box b f f' vals fails code _ h ih =>
    obtain ⟨his, hfi, hle, _⟩ := history_slotOf f b
    rw [length_cons] at h1
    have hn := hfi.next_eq h0 (by omega)
    have hbe := hfi.below h0 (by omega) hbl
    cases i with
    | zero => cases hi
    | succ i =>
      rw [getElem?_cons_succ] at hi he
      cases j with
      | zero =>
        cases he'
        have ho := (ih (by omega) (by omega) hbe hi he he).1
        exact ⟨ho, fun heq => absurd (heq ▸ h.ext b _ (Frame.get?_slotOf_self f b)) (ho b)⟩
      | succ j =>
        rw [getElem?_cons_succ] at he'
        obtain ⟨ho, hin⟩ := ih (by omega) (by omega) hbe hi he he'
        exact ⟨ho, fun heq => congrArg _ (hin heq)⟩

end

end

end Recovered

/-! ## The code of a stub -/

theorem Good.spare (hg : Good u s c v) (hok : Ok u ks s) (hd : mv.dst = .slot slot) (hq : Quiet c c')
    (hc : ∀ l, l.Wide → l ≠ .reg (Reg.gp Machine.Reg.r11) → c'.contents l = c.contents.move mv l)
    (hs : ∀ cls b t, b ∈ (s.bank cls).inFrame → s.frame.get? b = some t →
      t.InRange ∧ t ≠ slot) : Good u s c' v := by
  refine ⟨fun cls => ⟨fun b r _ hre => ?_, fun b hb => ?_⟩, hq.base.trans hg.base,
    (hq.header _).trans hg.header, hq.stack.trans hg.stack⟩
  · rw [hok.loc, now_alloc, ← hg.reg hok hre, hc (.reg ⟨cls, r⟩) trivial, Contents.move_of_ne]
    · rw [hd]
      exact nofun
    · rintro ⟨⟩
      exact absurd (hok.mem_gpOrder hre) (by decide)
  · obtain ⟨t, hge, hv⟩ := (hg.holds cls).slot b hb
    obtain ⟨hr, hne⟩ := hs cls b t hb hge
    refine ⟨t, hge, ?_⟩
    rw [now_alloc, hc (.slot t) hr nofun, Contents.move_of_ne]
    · exact hv
    · rw [hd]
      rintro ⟨⟩
      exact hne rfl

structure Delivers (u : Setup ω) (s : State) (v : Box → Word) (slot : Slot) (w : Word)
    (c c' : Cpu ω) : Prop where
  quiet : Quiet c c'
  good : Good u s c' v
  here : c'.frame slot.offset = w
  elsewhere : ∀ t : Slot, t.InRange → t ≠ slot → c'.frame t.offset = c.frame t.offset

theorem falls_deliver (sec : Section) (hok : Ok u ks s) (hg : Good u s c v) (kind : Kind)
    (hsr : src.Wide) (hs : slot.InRange)
    (hsp : ∀ cls b t, b ∈ (s.bank cls).inFrame → s.frame.get? b = some t → t.InRange ∧ t ≠ slot) :
    ∃ c', Falls u.env (piecesAll sec sec [moveCode ⟨src, .slot slot, kind⟩]) c c' ∧
      Delivers u s v slot (c.contents src) c c' := by
  obtain ⟨c', hf, hq, hc⟩ := falls_move (m := ⟨src, .slot slot, kind⟩) sec hg.base
    ⟨hs, rfl, by simp⟩ hsr
  have hc (l : Location) (hl : l.Wide) (hne : l ≠ .reg (Reg.gp Machine.Reg.r11)) :
      c'.contents l = c.contents.move ⟨src, .slot slot, kind⟩ l := hc l hl fun _ => hne
  refine ⟨c', ?_, hq, hg.spare hok rfl hq hc hsp, ?_, fun t ht hne => ?_⟩
  · rwa [piecesAll, piecesAll, append_nil]
  · have := hc (.slot slot) hs (by simp)
    rwa [Contents.move_dst, Cpu.read_contents] at this
  · have := hc (.slot t) ht (by simp)
    rwa [Contents.move_of_ne (by simpa using Ne.symm hne)] at this

theorem Rescued.falls (sec : Section) (h : Rescued s b slot code) (hok : Ok u ks s)
    (hg : Good u s c v) (hge : ∀ t, s.frame.get? b = some t → t = slot) (hsl : slot.InRange)
    (hs : code ≠ [] → ∀ cls b t, b ∈ (s.bank cls).inFrame → s.frame.get? b = some t →
      t.InRange ∧ t ≠ slot) :
    ∃ c', Falls u.env (piecesAll sec sec code) c c' ∧ Delivers u s v slot (v b) c c' := by
  cases h with
  | stored hb =>
    obtain ⟨t, ht, hv⟩ := hg.slot hb
    cases hge t ht
    exact ⟨c, .nil, .refl c, hg, hv, fun _ _ _ => rfl⟩
  | reg hb hr =>
    rw [← hg.reg hok hr]
    exact falls_deliver sec hok hg b.kind trivial hsl (hs (by simp))

/-- **The code of a stub brings the fail values to their slots**, if different values have different
slots and none of the slots it writes to is in use. -/
theorem Recovered.falls (sec : Section) (h : Recovered s f vals fails f') (hok : Ok u ks s)
    (hg : Good u s c v) (het : f.Extends s.frame) (hr : ∀ e ∈ fails, e.1.InRange)
    (hs : ∀ e ∈ vals.zip fails, e.2.2 ≠ [] → ∀ cls b t, b ∈ (s.bank cls).inFrame →
      s.frame.get? b = some t → t.InRange ∧ t ≠ e.2.1)
    (hsa : ∀ e ∈ vals.zip fails, ∀ e' ∈ vals.zip fails, e.2.1 = e'.2.1 → e.1.word v = e'.1.word v) :
    ∃ c', Falls u.env (piecesAll sec sec (fails.flatMap Prod.snd)) c c' ∧ Quiet c c' ∧
      Good u s c' v ∧ (∀ e ∈ vals.zip fails, c'.frame e.2.1.offset = e.1.word v) ∧
      ∀ t : Slot, t.InRange → (∀ e ∈ vals.zip fails, e.2.1 = t → e.1.word v = c.frame t.offset) →
        c'.frame t.offset = c.frame t.offset := by
  -- The first value, and then the others: these may go to its slot only if they are equal to it.
  have cons {x : Value} {slot : Slot} {code : List Fragment} {c c1 : Cpu ω} {vals : List Value}
      {fails : List (Slot × List Fragment)} (hsl : slot.InRange)
      (hf : Falls u.env (piecesAll sec sec code) c c1)
      (hd : Delivers u s v slot (x.word v) c c1)
      (hsa : ∀ e ∈ vals.zip fails, e.2.1 = slot → e.1.word v = x.word v)
      (ih : ∃ c', Falls u.env (piecesAll sec sec (fails.flatMap Prod.snd)) c1 c' ∧
        Quiet c1 c' ∧ Good u s c' v ∧ (∀ e ∈ vals.zip fails, c'.frame e.2.1.offset = e.1.word v) ∧
        ∀ t : Slot, t.InRange → (∀ e ∈ vals.zip fails, e.2.1 = t →
          e.1.word v = c1.frame t.offset) → c'.frame t.offset = c1.frame t.offset) :
      ∃ c', Falls u.env (piecesAll sec sec
          (((slot, code) :: fails).flatMap Prod.snd)) c c' ∧ Quiet c c' ∧ Good u s c' v ∧
        (∀ e ∈ (x :: vals).zip ((slot, code) :: fails), c'.frame e.2.1.offset = e.1.word v) ∧
        ∀ t : Slot, t.InRange → (∀ e ∈ (x :: vals).zip ((slot, code) :: fails), e.2.1 = t →
          e.1.word v = c.frame t.offset) → c'.frame t.offset = c.frame t.offset := by
    obtain ⟨c', hf', hq', hg', hv, ho⟩ := ih
    refine ⟨c', ?_, hd.quiet.trans hq', hg', forall_mem_cons.mpr ⟨?_, hv⟩, fun t ht hk => ?_⟩
    · rw [flatMap_cons, Fragment.piecesAll_append]
      exact hf.append hf'
    · rw [ho slot hsl fun e he heq => (hsa e he heq).trans hd.here.symm, hd.here]
    · obtain ⟨hfi, hre⟩ := forall_mem_cons.mp hk
      have hsm : c1.frame t.offset = c.frame t.offset := by
        by_cases hne : t = slot
        · subst hne
          rw [hd.here, hfi rfl]
        · exact hd.elsewhere t ht hne
      rw [ho t ht fun e he heq => (hre e he heq).trans hsm.symm, hsm]
  induction h generalizing c with
  | nil => exact ⟨c, .nil, .refl c, hg, nofun, fun _ _ _ => rfl⟩
  | @const q f f' vals fails h ih =>
    obtain ⟨hra, hr⟩ := forall_mem_cons.mp hr
    obtain ⟨hsp, hs⟩ := forall_mem_cons.mp hs
    obtain ⟨c1, hf, hd⟩ := falls_deliver sec hok hg q.kind
      (show (Location.imm q.bits).Wide from trivial) hra (hsp (by simp))
    exact cons (x := .const q) hra hf hd
      (fun e he heq => hsa e (mem_cons_of_mem _ he) _ mem_cons_self heq)
      (ih hd.good het hr hs fun e he e' he' =>
        hsa e (mem_cons_of_mem _ he) e' (mem_cons_of_mem _ he'))
  | @box b f f' vals fails code hb h ih =>
    obtain ⟨hra, hr⟩ := forall_mem_cons.mp hr
    obtain ⟨hsp, hs⟩ := forall_mem_cons.mp hs
    obtain ⟨c1, hf, hd⟩ := hb.falls sec hok hg (fun t ht => by
      rw [Frame.slotOf_of_get? (het b t ht)]) hra hsp
    obtain ⟨_, hh, _⟩ := history_slotOf f b
    exact cons (x := .box b) hra hf hd
      (fun e he heq => hsa e (mem_cons_of_mem _ he) _ mem_cons_self heq)
      (ih hd.good (hh.keeps.trans het) hr hs fun e he e' he' =>
        hsa e (mem_cons_of_mem _ he) e' (mem_cons_of_mem _ he'))

/-- A frame before and after a stub that handed out at most `n` slots: numbers do not run out, and
displacements are not wrapped. -/
structure Roomy (f f' : Frame) (n : Nat) : Prop where
  nonneg : 0 ≤ f.next
  count : f.next + n < 0x8000000000000000
  below : f.Below
  limit : f'.next ≤ 0xFFFFFFB

theorem zip_getElem? {α β : Type} {xs : List α} {ys : List β} {e : α × β} (h : e ∈ xs.zip ys) :
    ∃ i : Nat, xs[i]? = some e.1 ∧ ys[i]? = some e.2 := by
  obtain ⟨i, hi⟩ := mem_iff_getElem?.mp h
  exact ⟨i, getElem?_zip_eq_some.mp hi⟩

/-- **A stub leaves every fail value in its slot.** -/
theorem Recovered.delivers (sec : Section) (h : Recovered s s.frame vals fails f')
    (hok : Ok u ks s) (hg : Good u s c v) (het : u.frame.Extends f') (hro : Roomy s.frame f' vals.length) :
    ∃ c', Falls u.env (piecesAll sec sec (fails.flatMap Prod.snd)) c c' ∧ Quiet c c' ∧
      Good u s c' v ∧ ∀ e ∈ vals.zip fails, c'.frame e.2.1.offset = e.1.word v := by
  obtain ⟨hn, hc, hbe, hl⟩ := hro
  have hin {b : Box} {t : Slot} (ht : f'.get? b = some t) : t.InRange := u.fine.inRange b t (het b t ht)
  have ho {i j : Nat} {q : Const} {e e' : Slot × List Fragment}
      (hi : vals[i]? = some (.const q)) (he : fails[i]? = some e) (he' : fails[j]? = some e') :
      (∀ b, f'.get? b ≠ some e.1) ∧ (e'.1 = e.1 → j = i) := h.const_own (by omega) hc hbe hi he he'
  have hs {b : Box} {e : Slot × List Fragment} (hb : (.box b, e) ∈ vals.zip fails)
      (hsh : b ∈ u.shared) : b ∈ (s.bank (classOf b.kind)).inFrame := by
    obtain ⟨slot, code⟩ := e
    have hre : Rescued s b slot code := h.rescued hb
    cases hre with
    | stored hst => exact hst
    | reg _ hr => exact (hok.shared b hsh).2 _ (by rw [hr]; rfl)
  have hra : ∀ e ∈ fails, e.1.InRange := by
    intro e he
    obtain ⟨hlt, hle | ⟨b, hb⟩⟩ := h.bounds (by omega) hc hbe e he
    · exact ⟨by omega, by omega⟩
    · exact hin (h.ext b _ hb)
  -- Only slots of constants and of boxes that are not stored are written to.
  have hsp : ∀ e ∈ vals.zip fails, e.2.2 ≠ [] → ∀ cls b t, b ∈ (s.bank cls).inFrame →
      s.frame.get? b = some t → t.InRange ∧ t ≠ e.2.1 := by
    rintro ⟨x, slot, code⟩ he hco cls b' t hb' ht
    refine ⟨hin (h.ext b' t ht), ?_⟩
    rintro rfl
    have ht := h.ext b' _ ht
    cases x with
    | const q =>
      obtain ⟨i, hi, hfi⟩ := zip_getElem? he
      exact (ho hi hfi hfi).1 b' ht
    | box b =>
      have hre : Rescued s b t code := h.rescued he
      cases hre with
      | stored => exact hco rfl
      | reg hb hr =>
        have hp : (s.alloc (classOf b.kind)).Placed b := .inl (by simp [State.alloc, hr])
        have hu : b ∉ u.shared := fun hsh => hb (hs he hsh)
        rw [← u.fine.own b b' _ hu (het b _ (h.get?_box he)) (het b' _ ht)] at hb'
        rw [hok.apart b cls _ (.inr hb') hp] at hb'
        exact hb hb'
  have hsa : ∀ e ∈ vals.zip fails, ∀ e' ∈ vals.zip fails, e.2.1 = e'.2.1 →
      e.1.word v = e'.1.word v := by
    rintro ⟨x, e⟩ he ⟨x', e'⟩ he' heq
    change e.1 = e'.1 at heq
    obtain ⟨i, hi, hfi⟩ := zip_getElem? he
    obtain ⟨j, hj, hfj⟩ := zip_getElem? he'
    obtain b | q := x
    rotate_left
    · cases (ho hi hfi hfj).2 heq.symm
      rw [Option.some.inj (hi.symm.trans hj)]
    obtain b' | q := x'
    · have hge := h.get?_box he
      have hge' := h.get?_box he'
      rw [← heq] at hge'
      by_cases hsh : b ∈ u.shared
      · by_cases hsh' : b' ∈ u.shared
        · obtain ⟨t, ht, hva⟩ := hg.slot (hs he hsh)
          obtain ⟨t', ht', hva'⟩ := hg.slot (hs he' hsh')
          cases (h.ext b t ht).symm.trans hge
          cases (h.ext b' t' ht').symm.trans hge'
          exact hva.symm.trans hva'
        · rw [u.fine.own b' b _ hsh' (het _ _ hge') (het _ _ hge)]
      · rw [u.fine.own b b' _ hsh (het _ _ hge) (het _ _ hge')]
    · exact absurd (heq ▸ h.get?_box he) ((ho hj hfj hfj).1 b)
  obtain ⟨c', hf, hq, hg', hv, _⟩ := h.falls sec hok hg (.refl _) hra hsp hsa
  exact ⟨c', hf, hq, hg', hv⟩

end TraceCompiler.Lowering
