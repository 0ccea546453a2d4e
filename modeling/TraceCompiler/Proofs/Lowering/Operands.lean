import TraceCompiler.Lowering.Integer
import TraceCompiler.Proofs.Lowering.Banks

/-! # Operands and the code of operations

`Spot` says where a value is found; reading it there gives its word.
-/

namespace TraceCompiler.Lowering

open Machine (Cpu Setting Falls Fragment Quiet Instr)
open Function (update update_of_ne update_self)
open CompileM List
open Machine.Fragment (piecesAll)
open Machine.Reg (r11 rbp rsp)

variable {ω : Type} {u : Setup ω} {ks : List Box} {s s' : State} {c c' : Cpu ω}
  {v v' : Box → Word} {cls : RegClass} {b : Box} {r pos : Int} {keep : Box → Prop} {k : Constraint}
  {env : Setting ω} {fs : List Fragment} {x : Unit} {i : Instr}

/-! ## Code of operations -/

def State.emitted (s : State) (fs : List Fragment) : State :=
  { s with main := s.main ++ fs.map Item.code }

@[simp] theorem yields_emit :
    Yields (emit fs) req s x s' ↔ s' = s.emitted fs := @yields_modify req _ _ _ _

@[simp] theorem yields_emitInstr :
    Yields (emitInstr i) req s x s' ↔ s' = s.emitted [.instr i] := @yields_modify req _ _ _ _

theorem CompileM.Yields.emit (h : Yields (CompileM.emit fs) req s x s') : s' = s.emitted fs :=
  yields_emit.mp h

theorem CompileM.Yields.emitBind {α : Type} {f : Unit → CompileM α} {a : α}
    (h : Yields (CompileM.emit fs >>= f) req s a s') : Yields (f ()) req (s.emitted fs) a s' := by
  obtain ⟨_, _, he, h⟩ := h.bind
  cases he.emit
  exact h

@[simp] theorem alloc_emitted (s : State) (fs : List Fragment) (cls : RegClass) :
    (s.emitted fs).alloc cls = s.alloc cls := by
  cases cls <;> rfl

@[simp] theorem bank_emitted (s : State) (fs : List Fragment) (cls : RegClass) :
    (s.emitted fs).bank cls = s.bank cls := by
  cases cls <;> rfl

theorem code_emitted (s : State) (fs : List Fragment) :
    (s.emitted fs).code = s.code ++ piecesAll .main .main fs := by
  unfold State.code State.emitted
  simp only [Array.toList_appendList, map_append, Fragment.piecesAll_append, map_map]
  congr 2
  exact map_id fs

theorem stray_emitted (s : State) (h : piecesAll .cold .main fs = []) :
    (s.emitted fs).stray = s.stray := by
  have hc : (fs.map Item.code).map Item.fragment = fs := by
    rw [map_map]
    exact map_id fs
  unfold State.stray State.emitted
  simp only [Array.toList_appendList, map_append, Fragment.piecesAll_append]
  rw [hc, h, append_nil]

theorem emitted_emitted (s : State) (fs gs : List Fragment) :
    (s.emitted fs).emitted gs = s.emitted (fs ++ gs) := by
  unfold State.emitted
  congr 1
  exact Array.ext' (by simp)

theorem Grows.emitted (s : State) (fs : List Fragment) : Grows s (s.emitted fs) :=
  ⟨by simp [State.emitted], prefix_rfl, .refl _, le_rfl⟩

theorem Plain.emitted (s : State) (h : piecesAll .cold .main fs = []) : Plain s (s.emitted fs) :=
  ⟨rfl, rfl, rfl, rfl, rfl, rfl, stray_emitted s h, [], .refl _⟩

theorem Advances.emitted (hok : Ok u ks s) (hfs : Within (u.scope s.frame) (piecesAll .main .main fs))
    (hc : piecesAll .cold .main fs = []) : Advances u ks pos s (s.emitted fs) where
  grows := .emitted s fs
  plain := .emitted s hc
  retains := .of_alloc (alloc_emitted s fs)
  stored := fun cls b hb => by rwa [bank_emitted]
  adds := ⟨_, code_emitted s fs, hfs⟩
  ok := hok.congr (alloc_emitted s fs)

theorem Good.emitted (hg : Good u s c v) (fs : List Fragment) : Good u (s.emitted fs) c v :=
  hg.congr (alloc_emitted s fs)

theorem Run.emitted (h : Falls env (piecesAll .main .main fs) c c') : Run env s (s.emitted fs) c c' :=
  ⟨_, code_emitted s fs, h⟩

/-! ## What instructions write -/

theorem Ok.mem_pool (hok : Ok u ks s) {x : Holder}
    (hr : (s.bank cls).regOf x = some r) : r ∈ (u.req.limits.pool cls).regs :=
  (hok.sound cls).pool_eq ▸ (hok.sound cls).held_sub _ _ hr

theorem Ok.mem_gpOrder (hok : Ok u ks s) {x : Holder}
    (hr : (s.bank .gp).regOf x = some r) : r ∈ gpOrder := Limits.mem_gp (hok.mem_pool hr)

theorem Good.define (hg : Good u s c v) (hok : Ok u ks s)
    (hr : (s.bank cls).regOf (some b) = some r) (hb : b ∉ (s.bank cls).inFrame) (hw : c'.contents (.reg ⟨cls, r⟩) = w)
    (hsa : ∀ cls' r', r' ∈ (u.req.limits.pool cls').regs → ¬ (cls' = cls ∧ r' = r) →
      c'.contents (.reg ⟨cls', r'⟩) = c.contents (.reg ⟨cls', r'⟩))
    (hf : c'.frame = c.frame) (hba : c'.gp rbp = c.gp rbp)
    (hs : c'.stack = c.stack) : Good u s c' (update v b w) := by
  have hp : (s.alloc cls).Placed b := .inl (Option.isSome_iff_exists.mpr ⟨r, hr⟩)
  refine ⟨fun cls' => ⟨fun b' r' _ hr' => ?_, fun b' hb' => ?_⟩, hba.trans hg.base,
    (congrFun hf _).trans hg.header, hs.trans hg.stack⟩
  · rw [hok.loc, now_alloc]
    by_cases he : b' = b
    · subst he
      obtain rfl : cls' = cls := hok.apart b' cls' cls (.inl (by rw [hr']; rfl)) hp
      cases hr.symm.trans hr'
      rw [update_self, hw]
    · rw [update_of_ne he, ← hg.reg hok hr']
      refine hsa cls' r' (hok.mem_pool hr') ?_
      rintro ⟨rfl, rfl⟩
      exact he (Option.some.inj ((hok.sound cls').holder_unique hr' hr))
  · have he : b' ≠ b := by
      rintro rfl
      obtain rfl : cls' = cls := hok.apart b' cls' cls (.inr hb') hp
      exact hb hb'
    obtain ⟨slot, hge, hv⟩ := (hg.holds cls').slot b' hb'
    refine ⟨slot, hge, ?_⟩
    rw [update_of_ne he, ← hv]
    exact congrFun hf _

theorem Good.setGp (hg : Good u s c v) (hok : Ok u ks s)
    (hre : (s.bank .gp).regOf (some b) = some r) (hb : b ∉ (s.bank .gp).inFrame) (w : Word) :
    Good u s (c.setGp r w) (update v b w) := by
  refine hg.define hok hre hb (update_self ..) (fun cls' r' _ hne => ?_) rfl ?_ rfl
  · rw [Cpu.contents_setGp, update_of_ne]
    rintro ⟨⟩
    exact hne ⟨rfl, rfl⟩
  · refine update_of_ne ?_ ..
    rintro rfl
    exact absurd (hok.mem_gpOrder hre) (by decide)

theorem Good.setXmm (hg : Good u s c v) (hok : Ok u ks s)
    (hr : (s.bank .float).regOf (some b) = some r) (hb : b ∉ (s.bank .float).inFrame)
    (w : Word) : Good u s (c.setXmm r w) (update v b w) := by
  refine hg.define hok hr hb (update_self ..) (fun cls' r' _ hne => ?_) rfl rfl rfl
  rw [Cpu.contents_setXmm, update_of_ne]
  rintro ⟨⟩
  exact hne ⟨rfl, rfl⟩

/-- Processors that differ in flags, scratch registers, value array and world at most. -/
structure Alike (c c' : Cpu ω) : Prop where
  gp : ∀ n, n ≠ r11 → c'.gp n = c.gp n
  xmm : ∀ n, n ≠ 15 → c'.xmm n = c.xmm n
  frame : c'.frame = c.frame
  stack : c'.stack = c.stack

theorem Good.alike (hg : Good u s c v) (hok : Ok u ks s) (h : Alike c c') : Good u s c' v := by
  refine ⟨fun cls => ⟨fun b r _ hre => ?_, fun b hb => ?_⟩,
    (h.gp _ (by decide)).trans hg.base, (congrFun h.frame _).trans hg.header,
    h.stack.trans hg.stack⟩
  · rw [hok.loc, now_alloc, ← hg.reg hok hre]
    have hr := hok.mem_pool hre
    cases cls with
    | gp =>
      refine h.gp r ?_
      rintro rfl
      exact absurd (Limits.mem_gp hr) (by decide)
    | float =>
      refine h.xmm r ?_
      rintro rfl
      exact absurd (Limits.mem_float hr).2 (by decide)
  · obtain ⟨slot, hge, hv⟩ := (hg.holds cls).slot b hb
    exact ⟨slot, hge, (congrFun h.frame _).trans hv⟩

theorem Alike.setFlags (c : Cpu ω) (f : Machine.Flags) : Alike c (c.setFlags f) :=
  ⟨fun _ _ => rfl, fun _ _ => rfl, rfl, rfl⟩

theorem Alike.setScratch (c : Cpu ω) (w : Word) : Alike c (c.setGp r11 w) :=
  ⟨fun _ hn => update_of_ne hn .., fun _ _ => rfl, rfl, rfl⟩

theorem Alike.setFloatScratch (c : Cpu ω) (w : Word) : Alike c (c.setXmm 15 w) :=
  ⟨fun _ _ => rfl, fun _ hn => update_of_ne hn .., rfl, rfl⟩

theorem Alike.world (c : Cpu ω) (w : ω) : Alike c { c with world := w } :=
  ⟨fun _ _ => rfl, fun _ _ => rfl, rfl, rfl⟩

/-! ## Parts of an operation -/

/-- A part of the compilation of the operation at `pos`: what becomes of the state, and what its code
does to a good processor. -/
structure Part (u : Setup ω) (ks : List Box) (pos : Int) (s s' : State)
    (R : Cpu ω → (Box → Word) → Cpu ω → (Box → Word) → Prop) : Prop
    extends Advances u ks pos s s' where
  sim : u.frame.Extends s'.frame → ∀ c v, Good u s c v →
    ∃ c' v', Run u.env s s' c c' ∧ Good u s' c' v' ∧ R c v c' v'

variable {R Q : Cpu ω → (Box → Word) → Cpu ω → (Box → Word) → Prop}

theorem Part.refl (hok : Ok u ks s) : Part u ks pos s s fun c v c' v' => c' = c ∧ v' = v where
  toAdvances := .refl hok
  sim := fun _ c v hg => ⟨c, v, .silent rfl, hg, rfl, rfl⟩

/-- A part whose code is meant for processors that satisfy `P`. -/
structure PartIf (u : Setup ω) (ks : List Box) (pos : Int) (s s' : State)
    (P : Cpu ω → (Box → Word) → Prop)
    (R : Cpu ω → (Box → Word) → Cpu ω → (Box → Word) → Prop) : Prop
    extends Advances u ks pos s s' where
  sim : u.frame.Extends s'.frame → ∀ c v, Good u s c v → P c v →
    ∃ c' v', Run u.env s s' c c' ∧ Good u s' c' v' ∧ R c v c' v'

variable {P P' : Cpu ω → (Box → Word) → Prop}

theorem Part.given (h : Part u ks pos s s' R) (P : Cpu ω → (Box → Word) → Prop) :
    PartIf u ks pos s s' P R := ⟨h.toAdvances, fun he c v hg _ => h.sim he c v hg⟩

section

variable (h : PartIf u ks pos s s' P R)
include h

theorem PartIf.trans (h' : PartIf u ks pos s' s'' P' Q)
    (hP : ∀ c v c' v', P c v → R c v c' v' → P' c' v') :
    PartIf u ks pos s s'' P fun c v c'' v'' => ∃ c' v', R c v c' v' ∧ Q c' v' c'' v'' where
  toAdvances := h.toAdvances.trans h'.toAdvances
  sim := fun he c v hgd hc => by
    obtain ⟨c1, v1, hr, hg, hR⟩ := h.sim (he.trans h'.grows.frame) c v hgd hc
    obtain ⟨c2, v2, hru, hgo, hQ⟩ := h'.sim he c1 v1 hg (hP c v c1 v1 hc hR)
    exact ⟨c2, v2, hr.trans hru, hgo, c1, v1, hR, hQ⟩

theorem PartIf.mono (hP : ∀ c v, P' c v → P c v)
    (hR : ∀ c v c' v', P' c v → Good u s c v → Good u s' c' v' → R c v c' v' → Q c v c' v') :
    PartIf u ks pos s s' P' Q := { h with
    sim := fun he c v hg hc => by
      obtain ⟨c', v', hr, hg', h⟩ := h.sim he c v hg (hP c v hc)
      exact ⟨c', v', hr, hg', hR c v c' v' hc hg hg' h⟩ }

theorem PartIf.part (hP : ∀ c v, Good u s c v → P c v) : Part u ks pos s s' R :=
  { h with sim := fun he c v hg => h.sim he c v hg (hP c v hg) }

theorem PartIf.code (hfs : Within (u.scope s'.frame) (piecesAll .main .main fs))
    (hco : piecesAll .cold .main fs = []) (hcd : ∀ c v c' v', P c v → Good u s' c' v' → R c v c' v' →
      ∃ c'' v'', Falls u.env (piecesAll .main .main fs) c' c'' ∧ Good u s' c'' v'' ∧
        Q c v c'' v'') : PartIf u ks pos s (s'.emitted fs) P Q where
  toAdvances := h.toAdvances.trans (.emitted h.ok hfs hco)
  sim := fun he c v hg hc => by
    obtain ⟨c', v', hr, hg', hR⟩ := h.sim he c v hg hc
    obtain ⟨c'', v'', hf, hg'', hQ⟩ := hcd c v c' v' hc hg' hR
    exact ⟨c'', v'', hr.trans (.emitted hf), hg''.emitted fs, hQ⟩

theorem PartIf.instr (hi : Confined (u.scope s'.frame) i)
    (he : ∀ c v c' v', P c v → Good u s' c' v' → R c v c' v' →
      ∃ c'' v'', i.exec u.env c' = some c'' ∧ Good u s' c'' v'' ∧ Q c v c'' v'') :
    PartIf u ks pos s (s'.emitted [.instr i]) P Q := by
  have hp : piecesAll .main .main [.instr i] = [.instr i] := by
    simp only [piecesAll, pieces_instr, append_nil]
  refine h.code (hp ▸ within_cons hi within_nil) rfl fun c v c' v' hc hg' hR => ?_
  obtain ⟨c'', v'', hi, hg'', hQ⟩ := he c v c' v' hc hg' hR
  exact ⟨c'', v'', hp ▸ .instr hi, hg'', hQ⟩

end

theorem Part.trans (h : Part u ks pos s s' R) (h' : Part u ks pos s' s'' Q) :
    Part u ks pos s s'' fun c v c'' v'' => ∃ c' v', R c v c' v' ∧ Q c' v' c'' v'' :=
  ((h.given fun _ _ => True).trans (h'.given fun _ _ => True) fun _ _ _ _ _ _ => trivial).part
    fun _ _ _ => trivial

theorem Part.mono (h : Part u ks pos s s' R)
    (hR : ∀ c v c' v', Good u s c v → Good u s' c' v' → R c v c' v' → Q c v c' v') :
    Part u ks pos s s' Q :=
  ((h.given fun _ _ => True).mono (fun _ _ h => h) fun c v c' v' _ => hR c v c' v').part
    fun _ _ _ => trivial

theorem Answers.part (h : Answers u ks cls pos keep s s' R) :
    Part u ks pos s s' fun c v c' v' => Quiet c c' ∧ R c v c' v' where
  toAdvances := h.toAdvances
  sim := fun he c v hg => by
    obtain ⟨c', v', hr, hq, hg', h, _⟩ := h.sim he c v hg
    exact ⟨c', v', hr, hg', hq, h⟩

/-- Requests to the general bank leave the scratch register alone. -/
theorem Answers.part_scratch (h : Answers u ks .gp pos keep s s' R) :
    Part u ks pos s s' fun c v c' v' => Quiet c c' ∧ c'.gp r11 = c.gp r11 ∧ R c v c' v' where
  toAdvances := h.toAdvances
  sim := fun he c v hg => by
    obtain ⟨c', v', hr, hq, hg', h, hs⟩ := h.sim he c v hg
    exact ⟨c', v', hr, hg', hq, hs rfl, h⟩

theorem Silent.part (h : Silent u ks pos s s') : Part u ks pos s s' fun c v c' v' => c' = c ∧ v' = v where
  toAdvances := h.toAdvances
  sim := fun _ c v hg => ⟨c, v, .silent h.code, h.good hg, rfl, rfl⟩

theorem rebind_part (pos : Int) (hok : Ok u ks s) (hk : b ∈ ks)
    (hb : Unplaced u ks s cls b) (hold : old ∈ (s.bank cls).temps)
    (hy : Yields (onBank cls (AllocM.rebind (some old) (some b))) req s x s') :
    (∃ r, (s'.bank cls).regOf (some b) = some r) ∧ b ∉ (s'.bank cls).inFrame ∧ s'.code = s.code ∧
      Part u ks pos s s' fun c v c' v' => Quiet c c' ∧ v' = update v b (v old) := by
  obtain ⟨a, hru, rfl⟩ := hy.onBank
  rw [AllocM.run_rebind] at hru
  split at hru
  · cases hru
  · rename_i r hre
    cases hru
    -- The temporary gives up the register, and then the box takes it.
    let a1 : Allocator := { (s.alloc cls).release (some old) with
      bank := { ((s.alloc cls).release (some old)).bank with
        temps := ((s.alloc cls).release (some old)).bank.temps.erase old } }
    have hn : ((s.alloc cls).release (some old)).bank.regOf (some old) = none := by
      rw [Allocator.bank_release, Bank.regOf_release, if_pos rfl]
    have hr : Allocator.Shrinks (fun b => b.id ≤ u.made) (s.alloc cls)
        ((s.alloc cls).release (some old)) := by
      refine .release ?_ _
      exact not_le.mpr (hok.temps cls old hold)
    have hsh := hr.trans (.untempOne hn)
    have hs : Silent u ks pos s (s.absorb cls a1) := .of_shrinks hok hsh fun _ hm _ => hm
    have ha : (s.absorb cls a1).alloc cls = a1 := by
      cases cls <;> rfl
    have hfr : r ∈ ((s.absorb cls a1).alloc cls).bank.free := by
      rw [ha]
      exact (Bank.mem_free_release ..).mpr (.inr hre)
    have hbi : Yields (onBank cls (AllocM.bind b r)) req (s.absorb cls a1) ()
        (s.absorb cls ((s.alloc cls).handOver old b r)) := by
      refine yields_onBank.mpr ⟨((s.absorb cls a1).alloc cls).assign (some b) r, ?_, ?_⟩
      · rw [AllocM.run_bind, if_pos hfr]
      · rw [absorb_absorb rfl, ha]
        rfl
    obtain ⟨hre', hf, han⟩ := bind_answers pos hs.ok
      ⟨hs.placeable hb.1 hk, fun hp => hb.2 (hs.placed_inv hp)⟩ hbi
    refine ⟨⟨r, hre'⟩, hf, ?_, (hs.part.trans han.part).mono ?_⟩
    · rw [code_absorb]
      exact append_nil _
    · rintro c v c' v' hg _ ⟨_, _, ⟨rfl, rfl⟩, hq, rfl⟩
      rw [hg.reg hok hre]
      exact ⟨hq, rfl⟩

theorem Part.code (h : Part u ks pos s s' R)
    (hfs : Within (u.scope s'.frame) (piecesAll .main .main fs)) (hc : piecesAll .cold .main fs = [])
    (hco : ∀ c v c' v', Good u s' c' v' → R c v c' v' →
      ∃ c'' v'', Falls u.env (piecesAll .main .main fs) c' c'' ∧ Good u s' c'' v'' ∧
        Q c v c'' v'') : Part u ks pos s (s'.emitted fs) Q :=
  ((h.given fun _ _ => True).code hfs hc fun c v c' v' _ => hco c v c' v').part
    fun _ _ _ => trivial

theorem Part.instr (h : Part u ks pos s s' R) (hi : Confined (u.scope s'.frame) i)
    (he : ∀ c v c' v', Good u s' c' v' → R c v c' v' →
      ∃ c'' v'', i.exec u.env c' = some c'' ∧ Good u s' c'' v'' ∧ Q c v c'' v'') :
    Part u ks pos s (s'.emitted [.instr i]) Q :=
  ((h.given fun _ _ => True).instr hi fun c v c' v' _ => he c v c' v').part fun _ _ _ => trivial

theorem word_congr {x : Value} (h : ∀ b, x = .box b → v b = v' b) : x.word v = x.word v' := by
  cases x with
  | box b => exact h b rfl
  | const q => rfl

/-! ## Where values are found -/

inductive Spot (s : State) : Value → Location → Prop
  | const (q : Const) : Spot s (.const q) (.imm q.bits)
  | reg {cls : RegClass} {b : Box} {r : Int} (h : (s.bank cls).regOf (some b) = some r) :
      Spot s (.box b) (.reg ⟨cls, r⟩)
  | slot {cls : RegClass} {b : Box} {slot : Slot} (h : b ∈ (s.bank cls).inFrame)
      (hslot : s.frame.get? b = some slot) : Spot s (.box b) (.slot slot)

variable {w : Value} {val : Option Value} {op : Machine.AluOp}

theorem Spot.contents (h : Spot s w l) (hok : Ok u ks s) (hg : Good u s c v) :
    c.contents l = w.word v := by
  cases h with
  | const q => rfl
  | reg h => exact hg.reg hok h
  | slot h hs =>
    obtain ⟨slot', hge, hv⟩ := hg.slot h
    cases hs.symm.trans hge
    exact hv

theorem Spot.wide (h : Spot s w l) (he : u.frame.Extends s.frame) : l.Wide := by
  cases h with
  | const q => trivial
  | reg h => trivial
  | slot h hs => exact u.fine.inRange _ _ (he _ _ hs)

theorem Spot.ne_reg (h : Spot s w l) (hok : Ok u ks s) (hn : n ∉ gpOrder) : l ≠ .reg (Reg.gp n) := by
  rintro rfl
  cases h with
  | reg h => exact hn (hok.mem_gpOrder h)

theorem location_spot (hok : Ok u ks s) (hy : Yields (location val) req s l s') :
    s' = s ∧ ∃ w, val = some w ∧ Spot s w l := by
  obtain ⟨w, rfl, hy⟩ := hy.needBind
  change Yields (onBank (classOf w.kind) (AllocM.location (some w))) _ _ _ _ at hy
  obtain ⟨a, hr, rfl⟩ := hy.onBank
  cases w with
  | const q =>
    cases hr
    exact ⟨absorb_alloc .., _, rfl, .const q⟩
  | box b =>
    cases (AllocM.location_ends b).ok hr with
    | reg hre =>
      refine ⟨absorb_alloc .., _, rfl, ?_⟩
      rw [hok.loc]
      exact .reg hre
    | slot hre hf =>
      obtain ⟨slot, hsl⟩ := Option.isSome_iff_exists.mp ((hok.tidy _).stored b hf)
      have hs := Frame.slotOf_of_get? hsl
      refine ⟨?_, _, rfl, ?_⟩
      · unfold Allocator.withSlot
        rw [hs]
        exact absorb_alloc ..
      · unfold Allocator.slot
        rw [hs]
        exact .slot hf hsl

/-! ## Second operands -/

/-- The word that the second operand of an integer instruction stands for. -/
def IntSource.Reads (env : Setting ω) (c : Cpu ω) (x : Word) : IntSource → Prop
  | .reg r => c.get r = x
  | .mem m => m.read? env 8 c = some x
  | .imm i => Word.ofInt i = x

/-- The word that the second operand of a float instruction stands for. -/
def FloatSource.Reads (env : Setting ω) (c : Cpu ω) (x : Word) : FloatSource → Prop
  | .reg r => c.xmm r.id = x
  | .mem m => m.read? env 8 c = some x

def IntSource.Allowed (σ : Scope) (src : IntSource) : Prop :=
  ∀ m, src = .mem m → Touches σ.reads σ.values m

def FloatSource.Allowed (σ : Scope) (src : FloatSource) : Prop :=
  ∀ m, src = .mem m → Touches σ.reads σ.values m

theorem Answers.refl (hok : Ok u ks s) (cls : RegClass) :
    Answers u ks cls pos keep s s fun c v c' v' => c' = c ∧ v' = v where
  toAdvances := .refl hok
  other := fun _ _ => rfl
  keeps := fun _ _ _ h => h
  unstored := fun _ _ h => h
  temps := fun _ h => h
  sim := fun _ c v hg => ⟨c, v, .silent rfl, .refl c, hg, ⟨rfl, rfl⟩, fun _ => rfl⟩

theorem Good.frameSlot (hg : Good u s c v) (hb : b ∈ (s.bank cls).inFrame) :
    (slotMem ((s.frame.get? b).getD ⟨0⟩)).read? u.env 8 c = some (v b) := by
  obtain ⟨slot, hge, hv⟩ := hg.slot hb
  rw [hge, read_slotMem hg.base, ← hv]
  rfl

theorem yields_frameSlot : Yields (frameSlot b) req s slot s' ↔
    slot = (s.frame.get? b).getD ⟨0⟩ ∧ s' = s := @yields_pure _ req _ _ _ _

theorem Ok.get?_of_stored (hok : Ok u ks s) (hb : b ∈ (s.bank cls).inFrame) :
    s.frame.get? b = some ((s.frame.get? b).getD ⟨0⟩) := by
  obtain ⟨slot, hs⟩ := Option.isSome_iff_exists.mp ((hok.tidy cls).stored b hb)
  have hs : s.frame.get? b = some slot := hs
  rw [hs, Option.getD_some]

def Supplied (u : Setup ω) (ks : List Box) (cls : RegClass) (pos : Int) (k : Constraint)
    (s s' : State) (Allowed : Scope → Prop) (Reads : Cpu ω → Word → Prop) (val : Option Value) :
    Prop :=
  ∃ w, val = some w ∧ Allowed (u.scope s'.frame) ∧ Answers u ks cls pos
    (fun b => (some b ∈ k.forbidden ∨ b ∈ (s.bank cls).temps) ∧ w ≠ .box b) s s'
    fun _ v c' v' => Reads c' (w.word v) ∧ ∀ b, b.id ≤ s.supply.made → v' b = v b

/-- How instructions take operands from registers of a class and from memory. -/
structure Takes (u : Setup ω) (cls : RegClass) {σ : Type} (toReg : Int → σ)
    (toMem : Machine.Mem → σ) (Allowed : Scope → σ → Prop) (Reads : Cpu ω → Word → σ → Prop) :
    Prop where
  reg : ∀ sc r, Allowed sc (toReg r)
  mem : ∀ sc m, Touches sc.reads sc.values m → Allowed sc (toMem m)
  readsReg : ∀ c r, Reads c (c.contents (.reg ⟨cls, r⟩)) (toReg r)
  readsMem : ∀ c m x, m.read? u.env 8 c = some x → Reads c x (toMem m)

theorem takes_int (u : Setup ω) : Takes u .gp (fun r => .reg (gpOperand r)) .mem IntSource.Allowed
    (IntSource.Reads u.env) where
  reg _ _ := nofun
  mem _ _ h := by rintro _ ⟨⟩; exact h
  readsReg _ _ := rfl
  readsMem _ _ _ h := h

theorem takes_float (u : Setup ω) : Takes u .float (fun r => .reg (floatOperand r)) .mem
    FloatSource.Allowed (FloatSource.Reads u.env) where
  reg _ _ := nofun
  mem _ _ h := by rintro _ ⟨⟩; exact h
  readsReg _ _ := rfl
  readsMem _ _ _ h := h

section

variable {σ : Type} {Allowed : Scope → σ → Prop} {Reads : Cpu ω → Word → σ → Prop}

theorem Takes.ensured (h : Takes u cls toReg toMem Allowed Reads) (hok : Ok u ks s)
    (hv : ∀ b, val = some (.box b) → b ∈ ks)
    (hy : Yields (do return toReg (← onBank cls (AllocM.ensure pos val k))) req s src s') :
    Supplied u ks cls pos k s s' (Allowed · src) (Reads · · src) val := by
  obtain ⟨r, s1, he, hy⟩ := hy.bind
  cases hy
  obtain ⟨w, rfl, _, _, ha⟩ := ensure_answers hok hv he
  exact ⟨w, rfl, h.reg .., ha.mono fun c v c' v' _ hR => ⟨hR.1 ▸ h.readsReg c' r, hR.2⟩⟩

theorem Takes.found (h : Takes u cls toReg toMem Allowed Reads) (hok : Ok u ks s) (hb : b ∈ ks)
    (hy : Yields (match (s.bank cls).regOf (some b) with
      | some r => pure (toReg r)
      | none =>
        if b ∈ (s.bank cls).inFrame then do return toMem (slotMem (← frameSlot b))
        else do return toReg (← onBank cls (AllocM.ensure pos (some (.box b)) k))) req s src s') :
    Supplied u ks cls pos k s s' (Allowed · src) (Reads · · src) (some (.box b)) := by
  cases hr : (s.bank cls).regOf (some b) with
  | some r =>
    simp only [hr] at hy
    cases hy
    refine ⟨_, rfl, h.reg .., (Answers.refl hok cls).mono ?_⟩
    rintro _ _ c v hg ⟨rfl, rfl⟩
    refine ⟨?_, fun _ _ => rfl⟩
    change Reads c (v b) _
    exact hg.reg hok hr ▸ h.readsReg c r
  | none =>
    simp only [hr] at hy
    split at hy
    · rename_i hm
      obtain ⟨slot, s1, hs, hy⟩ := hy.bind
      obtain ⟨rfl, rfl⟩ := yields_frameSlot.mp hs
      cases hy
      refine ⟨_, rfl, h.mem _ _ (.slot ⟨b, hok.get?_of_stored hm⟩), (Answers.refl hok cls).mono ?_⟩
      rintro _ _ c v hg ⟨rfl, rfl⟩
      exact ⟨h.readsMem _ _ _ (hg.frameSlot hm), fun _ _ => rfl⟩
    · exact h.ensured hok (by rintro _ ⟨⟩; exact hb) hy

end

theorem intSource_answers (hok : Ok u ks s) (hv : ∀ b, val = some (.box b) → b ∈ ks)
    (hy : Yields (intSource pos val k) req s src s') :
    Supplied u ks .gp pos k s s' src.Allowed (src.Reads u.env) val := by
  unfold intSource at hy
  obtain _ | b | q := val
  · exact (takes_int u).ensured hok hv hy
  · rw [yields_get_bind] at hy
    exact (takes_int u).found hok (hv b rfl) hy
  · dsimp only at hy
    split at hy
    · rename_i hf
      cases hy
      refine ⟨_, rfl, nofun, (Answers.refl hok .gp).mono fun c v c' v' _ h => ⟨?_, fun _ _ => by rw [h.2]⟩⟩
      exact ofInt_immediate hf
    · exact (takes_int u).ensured hok hv hy

theorem floatSource_answers (hok : Ok u ks s) (hv : ∀ b, val = some (.box b) → b ∈ ks)
    (hy : Yields (floatSource pos val k) req s src s') :
    Supplied u ks .float pos k s s' src.Allowed (src.Reads u.env) val := by
  unfold floatSource at hy
  obtain _ | b | q := val
  · exact (takes_float u).ensured hok hv hy
  · rw [yields_get_bind] at hy
    exact (takes_float u).found hok (hv b rfl) hy
  · exact (takes_float u).ensured hok hv hy

def aluInstr (op : Machine.AluOp) (dst : Machine.Reg) : IntSource → Instr
  | .imm i => .aluImm op dst i
  | .mem m => .aluLoad op dst m
  | .reg r => .alu op dst r

theorem confined_aluInstr (r : Machine.Reg) (hs : src.Allowed σ) : Confined σ (aluInstr op r src) := by
  cases src with
  | reg _ | imm _ => exact .idle rfl rfl
  | mem m => exact confined_of_load rfl rfl (hs m rfl)

theorem exec_aluInstr {x : Word} (hs : src.Reads env c x) (hr : r ≠ rsp) :
    (aluInstr op (gpOperand r) src).exec env c = some (c.alu env op (gpOperand r) x) := by
  cases src with
  | reg q =>
    change some (c.alu env op (gpOperand r) (c.get q)) = _
    rw [show c.get q = x from hs]
  | mem m =>
    change (m.read? env 8 c).map (c.alu env op (gpOperand r)) = _
    rw [show m.read? env 8 c = some x from hs]
    rfl
  | imm i =>
    change (if r = rsp then _ else some (c.alu env op (gpOperand r) (Word.ofInt i))) = _
    rw [if_neg hr, show Word.ofInt i = x from hs]

theorem alu_wide (hop : op ≠ .cmp) (env : Setting ω) (c : Cpu ω) (r : Int) (x : Word) :
    c.alu env op (gpOperand r) x =
      (c.setGp r (op.result (c.gp r) x)).setFlags (op.flags (c.gp r) x (env.junk c).2.2.parity) := by
  unfold Cpu.alu
  dsimp only
  rw [if_neg hop]
  rfl

theorem alu_cmp (env : Setting ω) (c : Cpu ω) (r : Int) (x : Word) : c.alu env .cmp (gpOperand r) x =
      c.setFlags (Machine.AluOp.cmp.flags (c.gp r) x (env.junk c).2.2.parity) := rfl

theorem yields_compareWith :
    Yields (compareWith q src) req s x s' ↔ s' = s.emitted [.instr (aluInstr .cmp q src)] := by
  cases src <;> exact yields_emitInstr

end TraceCompiler.Lowering
