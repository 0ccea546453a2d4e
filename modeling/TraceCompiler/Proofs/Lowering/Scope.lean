import TraceCompiler.Lowering.State
import TraceCompiler.Proofs.Machine.Stream
import TraceCompiler.Proofs.Placement.MoveSequence

/-! # The code of moves

A processor shows what locations hold: registers by number, slots by their displacement in the frame.
-/

namespace TraceCompiler

open List Contents
open Machine.Fragment (pieces piecesAll)

open Machine (Cpu Setting Falls Fragment Mem)
open Function (update update_of_ne update_self)

/-- Whether the displacement of a slot is not wrapped. -/
def Slot.InRange (s : Slot) : Prop := 0 ≤ s.index ∧ s.index < 0xFFFFFFB

theorem Slot.InRange.offset_eq {s : Slot} (h : s.InRange) : s.offset = (5 + s.index) * 8 := by
  unfold Slot.offset
  obtain ⟨h0, h1⟩ := h
  exact wordOffset_eq (by simp [HeaderWord.count]; omega) (by simp [HeaderWord.count]; omega)

theorem Slot.InRange.offset_inj {s t : Slot} (hs : s.InRange) (ht : t.InRange)
    (h : s.offset = t.offset) : s = t := by
  rw [hs.offset_eq, ht.offset_eq] at h
  cases s
  cases t
  congr
  simp only at h
  omega

theorem HeaderWord.offset_eq (w : HeaderWord) : w.offset = w.index * 8 := by
  cases w <;> rfl

theorem Slot.InRange.offset_ne {s : Slot} (hs : s.InRange) (w : HeaderWord) : w.offset ≠ s.offset := by
  rw [hs.offset_eq, w.offset_eq]
  have := hs.1
  cases w <;> simp [HeaderWord.index] <;> omega

/-- Whether a location can be told apart from others by its place in the machine. -/
def Location.Wide : Location → Prop
  | .reg _ => True
  | .slot s => s.InRange
  | .imm _ => True
  | .unset => False

/-- Whether a location can be written to while code runs: not a constant, nor the register that holds
the frame. -/
structure Location.Writable (l : Location) : Prop where
  wide : l.Wide
  notImm : l.isImm = false
  notBase : l ≠ .reg (Reg.gp Machine.Reg.rbp)

namespace Machine

variable {ω : Type} {env : Setting ω} {c c' c'' : Cpu ω} {s : Slot}

namespace Cpu

def contents (c : Cpu ω) : Contents
  | .reg ⟨.gp, n⟩ => c.gp n
  | .reg ⟨.float, n⟩ => c.xmm n
  | .slot s => c.frame s.offset
  | .imm w => w
  | .unset => 0

@[simp] theorem contents_gp (c : Cpu ω) (n : Int) : c.contents (.reg (TraceCompiler.Reg.gp n)) = c.gp n := rfl

@[simp] theorem contents_float (c : Cpu ω) (n : Int) :
    c.contents (.reg (TraceCompiler.Reg.float n)) = c.xmm n := rfl

@[simp] theorem contents_slot (c : Cpu ω) (s : Slot) : c.contents (.slot s) = c.frame s.offset := rfl

@[simp] theorem read_contents (c : Cpu ω) (l : Location) : c.contents.read l = c.contents l := by
  cases l <;> rfl

theorem contents_setGp (c : Cpu ω) (n : Int) (w : Word) : (c.setGp n w).contents =
    update c.contents (.reg (TraceCompiler.Reg.gp n)) w := by
  funext l
  rcases l with ⟨_ | _, m⟩ | _ | _ | _ <;>
    simp [contents, Cpu.setGp, Function.update_apply, TraceCompiler.Reg.gp]

theorem contents_setXmm (c : Cpu ω) (n : Int) (w : Word) : (c.setXmm n w).contents =
    update c.contents (.reg (TraceCompiler.Reg.float n)) w := by
  funext l
  rcases l with ⟨_ | _, m⟩ | _ | _ | _ <;>
    simp [contents, Cpu.setXmm, Function.update_apply, TraceCompiler.Reg.float]

/-- Slots are told apart as long as their displacements are not wrapped. -/
theorem contents_setFrame (c : Cpu ω) (hs : s.InRange) (w : Word) {l : Location} (hl : l.Wide) :
    (c.setFrame s.offset w).contents l = update c.contents (.slot s) w l := by
  match l with
  | .slot t =>
    by_cases h : t = s
    · subst h
      change update c.frame t.offset w t.offset = _
      rw [update_self, update_self]
    · rw [update_of_ne (by simp [h])]
      exact update_of_ne (fun he => h (Slot.InRange.offset_inj hl hs he)) ..
  | .reg ⟨.gp, _⟩ | .reg ⟨.float, _⟩ | .imm _ | .unset =>
    rw [update_of_ne (by simp)]
    rfl

end Cpu

structure Quiet (c c' : Cpu ω) : Prop where
  flags : c'.flags = c.flags
  values : c'.values = c.values
  stack : c'.stack = c.stack
  world : c'.world = c.world
  base : c'.gp Reg.rbp = c.gp Reg.rbp
  header : ∀ w : HeaderWord, c'.frame w.offset = c.frame w.offset

theorem Quiet.refl (c : Cpu ω) : Quiet c c := ⟨rfl, rfl, rfl, rfl, rfl, fun _ => rfl⟩

theorem Quiet.trans (h : Quiet c c') (h' : Quiet c' c'') : Quiet c c'' :=
  ⟨h'.flags.trans h.flags, h'.values.trans h.values, h'.stack.trans h.stack,
    h'.world.trans h.world, h'.base.trans h.base, fun w => (h'.header w).trans (h.header w)⟩

theorem Quiet.setGp (c : Cpu ω) {n : Int} (h : n ≠ Reg.rbp) (w : Word) : Quiet c (c.setGp n w) :=
  ⟨rfl, rfl, rfl, rfl, update_of_ne h.symm .., fun _ => rfl⟩

theorem Quiet.setXmm (c : Cpu ω) (n : Int) (w : Word) : Quiet c (c.setXmm n w) :=
  ⟨rfl, rfl, rfl, rfl, rfl, fun _ => rfl⟩

theorem Quiet.setFrame (c : Cpu ω) (hs : s.InRange) (w : Word) : Quiet c (c.setFrame s.offset w) where
  flags := rfl
  values := rfl
  stack := rfl
  world := rfl
  base := rfl
  header h := by
    have hne := hs.offset_ne h
    generalize h.offset = d at hne ⊢
    exact update_of_ne hne w c.frame

end Machine

namespace Lowering

open Machine

variable {ω : Type} {env : Setting ω} {c c' : Cpu ω} {w : Word} {l : Location} {m : Move}
  {ms : List Move}

section

variable (hbase : c.gp Reg.rbp = env.frameBase) {d : Int}

include hbase

theorem place_framePointer (hd : d % 8 = 0) :
    (Mem.based framePointer d).place? env c = some (.frame d) := by
  unfold Mem.place? Mem.based framePointer Reg.wide
  dsimp only
  rw [if_pos rfl, if_pos ⟨hbase, rfl, hd⟩]

theorem read_framePointer (hd : d % 8 = 0) :
    (Mem.based framePointer d).read? env 8 c = some (c.frame d) := by
  unfold Mem.read?
  rw [place_framePointer hbase hd]
  rfl

theorem write_framePointer (hd : d % 8 = 0) (w : Word) :
    (Mem.based framePointer d).write? env 8 w c = some (c.setFrame d w) := by
  unfold Mem.write?
  rw [place_framePointer hbase hd]
  rfl

theorem read_slotMem (s : Slot) : (slotMem s).read? env 8 c = some (c.frame s.offset) :=
  read_framePointer hbase (wordOffset_mod _)

theorem write_slotMem (s : Slot) (w : Word) :
    (slotMem s).write? env 8 w c = some (c.setFrame s.offset w) :=
  write_framePointer hbase (wordOffset_mod _) w

theorem read_headerMem (h : HeaderWord) : (headerMem h).read? env 8 c = some (c.frame h.offset) :=
  read_framePointer hbase (wordOffset_mod _)

theorem write_headerMem (h : HeaderWord) (w : Word) :
    (headerMem h).write? env 8 w c = some (c.setFrame h.offset w) :=
  write_framePointer hbase (wordOffset_mod _) w

end

def valueOffset (i : Nat) : Int := wrap32 (i * 8)

theorem valueOffset_mod (i : Nat) : valueOffset i % 8 = 0 := wordOffset_mod i

section

variable (hscratch : c.gp Reg.r11 = env.valuesBase)

include hscratch

theorem place_valueMem (i : Nat) : (valueMem i).place? env c = some (.values (valueOffset i)) := by
  unfold Mem.place? valueMem Mem.based scratch Reg.wide
  dsimp only
  rw [if_neg (by decide), if_pos rfl, if_pos ⟨hscratch, rfl, valueOffset_mod i⟩]
  rfl

theorem read_valueMem (i : Nat) : (valueMem i).read? env 8 c = some (c.values (valueOffset i)) := by
  unfold Mem.read?
  rw [place_valueMem hscratch]
  rfl

theorem write_valueMem (i : Nat) (w : Word) :
    (valueMem i).write? env 8 w c = some (c.setValue (valueOffset i) w) := by
  unfold Mem.write?
  rw [place_valueMem hscratch]
  rfl

end

@[simp] theorem pieces_instr (s : Section) (i : Instr) : (Fragment.instr i).pieces s s = [.instr i] := by
  simp [pieces]

@[simp] theorem pieces_group (s : Section) (fs : List Fragment) :
    (Fragment.group fs).pieces s s = piecesAll s s fs := by
  simp [pieces]

@[simp] theorem pieces_moveMem (s : Section) (dst src : Mem) :
    (Fragment.moveMem dst src).pieces s s = [.instr (.pushMem src), .instr (.popMem dst)] := by
  simp [Fragment.moveMem, pieces, piecesAll]

theorem ofInt_immediate (h : Word.fitsInt32 w = true) : Word.ofInt (immediate w) = w := by
  unfold immediate
  rw [wrap32_of_fits (i := Word.signed w) h, Word.ofInt_signed]

theorem falls_moveMem (s : Section) (hr : src.read? env 8 c = some w)
    (hw : dst.write? env 8 w c = some c') : Falls env ((Fragment.moveMem dst src).pieces s s) c c' := by
  rw [pieces_moveMem]
  have hp : (Instr.pushMem src).exec env c = some { c with stack := w :: c.stack } := by
    simp [Instr.exec, hr]
  exact .cons hp (.instr hw)

theorem falls_storeConst (s : Section) (hw : mem.write? env 8 w c = some c')
    (hw' : mem.write? env 8 w (c.setGp Reg.r11 w) = some c1) :
    ∃ c2, Falls env ((storeConst mem w).pieces s s) c c2 ∧ (c2 = c' ∨ c2 = c1) := by
  unfold storeConst
  split
  · rename_i hf
    refine ⟨c', ?_, .inl rfl⟩
    rw [pieces_instr]
    refine .instr ?_
    change mem.write? env 8 (Word.ofInt (immediate w)) c = some c'
    rwa [ofInt_immediate hf]
  · refine ⟨c1, ?_, .inr rfl⟩
    rw [pieces_group]
    simp only [piecesAll, pieces_instr, append_nil, cons_append, nil_append]
    refine .cons (rfl : _ = some (c.setGp Reg.r11 w)) (.instr ?_)
    change mem.write? env 8 ((c.setGp Reg.r11 w).gp Reg.r11) (c.setGp Reg.r11 w) = some c1
    rwa [Cpu.setGp_gp, update_self]

theorem moved_gp (c : Cpu ω) (src : Location) (n : Int) (kind : Kind) :
    (c.setGp n (c.contents src)).contents =
      c.contents.move ⟨src, .reg (TraceCompiler.Reg.gp n), kind⟩ := by
  rw [Cpu.contents_setGp, move, Cpu.read_contents]

theorem moved_float (c : Cpu ω) (src : Location) (n : Int) (kind : Kind) :
    (c.setXmm n (c.contents src)).contents =
      c.contents.move ⟨src, .reg (TraceCompiler.Reg.float n), kind⟩ := by
  rw [Cpu.contents_setXmm, move, Cpu.read_contents]

theorem moved_slot (c : Cpu ω) (src : Location) (kind : Kind) (hs : s.InRange) (hl : l.Wide) :
    (c.setFrame s.offset (c.contents src)).contents l = c.contents.move ⟨src, .slot s, kind⟩ l := by
  rw [Cpu.contents_setFrame c hs _ hl, move, Cpu.read_contents]

/-- A word that passes through the scratch register leaves it behind. -/
theorem contents_through (hs : m.src = .imm w) (hl : l ≠ .reg (TraceCompiler.Reg.gp Reg.r11)) :
    (c.setGp Reg.r11 w).contents.move m l = c.contents.move m l := by
  unfold move
  rw [hs]
  by_cases h : l = m.dst
  · subst h
    rw [update_self, update_self]
    rfl
  · rw [update_of_ne h, update_of_ne h, Cpu.contents_setGp, update_of_ne hl]

/-- A move whose code may take the scratch register: a constant on its way to a slot or a float
register. -/
def Borrows (m : Move) : Prop :=
  m.src.isImm = true ∧ ∀ n, m.dst ≠ .reg (TraceCompiler.Reg.gp n)

/-- Code that does a move, but for what it may leave in the scratch register. -/
def Moves (env : Setting ω) (m : Move) (c : Cpu ω) (code : List Fragment) : Prop :=
  ∃ c', Falls env code c c' ∧ Quiet c c' ∧ ∀ l, l.Wide →
    (Borrows m → l ≠ .reg (TraceCompiler.Reg.gp Reg.r11)) → c'.contents l = c.contents.move m l

section

variable {src : Location} {kind : Kind} {d : Int} {i : Instr}

theorem moves_gp (hd : d ≠ Reg.rbp) (hi : i.exec env c = some (c.setGp d (c.contents src))) :
    Moves env ⟨src, .reg ⟨.gp, d⟩, kind⟩ c [.instr i] :=
  ⟨_, .instr hi, .setGp c hd _, fun l _ _ => congrFun (moved_gp c src d kind) l⟩

theorem moves_float (hi : i.exec env c = some (c.setXmm d (c.contents src))) :
    Moves env ⟨src, .reg ⟨.float, d⟩, kind⟩ c [.instr i] :=
  ⟨_, .instr hi, .setXmm .., fun l _ _ => congrFun (moved_float c src d kind) l⟩

theorem moves_slot {d : Slot} {code : List Fragment} (hd : d.InRange)
    (hf : Falls env code c (c.setFrame d.offset (c.contents src))) :
    Moves env ⟨src, .slot d, kind⟩ c code :=
  ⟨_, hf, .setFrame c hd _, fun _ hl _ => moved_slot c src kind hd hl⟩

end

theorem falls_move (sec : Section) (hbase : c.gp Reg.rbp = env.frameBase) (hwr : m.dst.Writable)
    (hs : m.src.Wide) : Moves env m c ((moveCode m).pieces sec sec) := by
  obtain ⟨src, dst, kind⟩ := m
  obtain ⟨hd, him, hr⟩ := hwr
  have hne {n : Int} (h : dst = .reg ⟨.gp, n⟩) : n ≠ Reg.rbp := by
    rintro rfl
    exact hr h
  match dst, src with
  | .reg ⟨.gp, d⟩, .reg ⟨.gp, s⟩ | .reg ⟨.gp, d⟩, .reg ⟨.float, s⟩ | .reg ⟨.gp, d⟩, .imm w =>
    rw [moveCode, pieces_instr]
    exact moves_gp (hne rfl) rfl
  | .reg ⟨.float, d⟩, .reg ⟨.gp, s⟩ | .reg ⟨.float, d⟩, .reg ⟨.float, s⟩ =>
    rw [moveCode, pieces_instr]
    exact moves_float rfl
  | .reg ⟨.gp, d⟩, .slot s =>
    rw [moveCode, pieces_instr]
    refine moves_gp (hne rfl) ?_
    simp only [Instr.exec, read_slotMem hbase]
    rfl
  | .reg ⟨.float, d⟩, .slot s =>
    rw [moveCode, pieces_instr]
    refine moves_float ?_
    simp only [Instr.exec, read_slotMem hbase]
    rfl
  | .reg ⟨.float, d⟩, .imm w =>
    simp only [moveCode]
    split
    · rename_i hw
      subst hw
      rw [pieces_instr]
      refine moves_float ?_
      simp [Instr.exec, FloatOp.result, floatOperand, Cpu.contents]
    · refine ⟨(c.setGp Reg.r11 w).setXmm d w, ?_,
        (Quiet.setGp c (by decide) w).trans (.setXmm ..), fun l _ hl => ?_⟩
      · rw [pieces_group]
        simp only [piecesAll, pieces_instr, append_nil, cons_append, nil_append]
        refine .cons (rfl : _ = some (c.setGp Reg.r11 w)) (.instr ?_)
        simp [Instr.exec, scratch, floatOperand]
      · have h := congrFun (moved_float (c.setGp Reg.r11 w) (.imm w) d kind) l
        exact h.trans (contents_through rfl (hl ⟨rfl, by simp [TraceCompiler.Reg.gp]⟩))
  | .slot d, .reg ⟨.gp, s⟩ | .slot d, .reg ⟨.float, s⟩ =>
    rw [moveCode, pieces_instr]
    exact moves_slot hd (.instr (write_slotMem hbase ..))
  | .slot d, .slot s => exact moves_slot hd (falls_moveMem sec (read_slotMem hbase s) (write_slotMem hbase ..))
  | .slot d, .imm w =>
    have hbase' : (c.setGp Reg.r11 w).gp Reg.rbp = env.frameBase := hbase
    obtain ⟨c', hf, rfl | rfl⟩ := falls_storeConst sec (write_slotMem hbase d w)
      (write_slotMem hbase' d w)
    · exact moves_slot hd hf
    · refine ⟨_, hf, (Quiet.setGp c (by decide) w).trans (.setFrame _ hd _), fun l hl hne => ?_⟩
      have h := moved_slot (c.setGp Reg.r11 w) (.imm w) kind hd hl
      exact h.trans (contents_through rfl (hne ⟨rfl, by simp⟩))
  | .imm _, _ => cases him
  | .unset, _ => cases hd
  | .reg _, .unset => cases hs
  | .slot _, .unset => cases hs

theorem falls_moves {P : Location → Prop} (sec : Section) {σ : Contents}
    (hbase : c.gp Reg.rbp = env.frameBase) (hms : ∀ m ∈ ms, m.dst.Writable ∧ m.src.Wide ∧ P m.src)
    (him : ∀ m ∈ ms, Borrows m → ¬ P (.reg (TraceCompiler.Reg.gp Reg.r11)))
    (hσ : ∀ l, l.Wide → P l → c.contents l = σ l) :
    ∃ c', Falls env (piecesAll sec sec (ms.map moveCode)) c c' ∧ Quiet c c' ∧
      ∀ l, l.Wide → P l → c'.contents l = σ.moveAll ms l := by
  induction ms generalizing c σ with
  | nil => exact ⟨c, .nil, .refl c, hσ⟩
  | cons m ms ih =>
    obtain ⟨hd, hw, hP⟩ := hms m mem_cons_self
    obtain ⟨c1, hf, hq, hc1⟩ := falls_move sec hbase hd hw
    have hσ₁ (l : Location) (hl : l.Wide) (hPl : P l) : c1.contents l = σ.move m l := by
      rw [hc1 l hl fun hm he => him m mem_cons_self hm (he ▸ hPl)]
      by_cases he : m.dst = l
      · subst he
        rw [move_dst, move_dst]
        exact read_congr (hσ _ hw hP)
      · rw [move_of_ne he, move_of_ne he, hσ l hl hPl]
    obtain ⟨c2, hfa, hqu, hc2⟩ := ih (hq.base.trans hbase)
      (fun o ho => hms o (mem_cons_of_mem _ ho))
      (fun o ho => him o (mem_cons_of_mem _ ho)) hσ₁
    exact ⟨c2, hf.append hfa, hq.trans hqu, hc2⟩

theorem scratchLocation_writable (k : Kind) : (scratchLocation k).Writable := by
  unfold scratchLocation
  split
  · exact ⟨trivial, rfl, by decide⟩
  · exact ⟨trivial, rfl, by decide⟩

theorem falls_sequenced (sec : Section) (hbase : c.gp Reg.rbp = env.frameBase)
    (hse : Move.sequence ms scratchLocation = .ok out) (hms : ∀ m ∈ ms, m.dst.Writable ∧ m.src.Wide)
    (hfe : ∀ m ∈ ms, m.dst ≠ .reg (TraceCompiler.Reg.gp Reg.r11)) :
    ∃ c', Falls env (piecesAll sec sec (out.map moveCode)) c c' ∧ Quiet c c' ∧
      (∀ m ∈ ms, c'.contents m.dst = c.contents m.src) ∧
      ∀ l, l.Wide → (∀ m ∈ ms, m.dst ≠ l) → (∀ k, scratchLocation k ≠ l) →
        c'.contents l = c.contents l := by
  have hr := Move.sequence_realizes (fun k => (scratchLocation_writable k).notImm) hse
  obtain ⟨hnd, _, moved, hor, rfl⟩ := Move.sequence_eq_ok hse
  have hmo : ∀ o ∈ moved, (o.src.Wide ∧ o.src.isImm = false) ∧ o.dst.Writable := by
    refine Move.order_all (P := fun l => l.Wide ∧ l.isImm = false) (fun l hl => ⟨hl.wide, hl.notImm⟩)
      scratchLocation_writable hor hnd fun m hm => ?_
    obtain ⟨hm, _, him⟩ := Move.mem_between.mp hm
    exact ⟨⟨(hms m hm).2, him⟩, (hms m hm).1⟩
  obtain ⟨c1, hf, hq, hc1⟩ := falls_moves (P := fun _ => True) sec hbase
    (fun o ho => ⟨(hmo o ho).2, (hmo o ho).1.1, trivial⟩)
    (fun o ho h => by simp [Borrows, (hmo o ho).1.2] at h) (fun l _ _ => rfl)
  obtain ⟨c2, hfa, hqu, hc2⟩ := falls_moves (P := fun l => l ≠ .reg (TraceCompiler.Reg.gp Reg.r11)) sec
    (hq.base.trans hbase)
    (fun o (ho : o ∈ Move.loads ms) => by
      obtain ⟨hm, _, him⟩ := Move.mem_loads.mp ho
      refine ⟨(hms o hm).1, (hms o hm).2, ?_⟩
      rintro he
      rw [he] at him
      cases him)
    (fun _ _ _ h => h rfl) (fun l hl _ => hc1 l hl trivial)
  obtain ⟨hd, hfr⟩ := hr c.contents
  refine ⟨c2, ?_, hq.trans hqu, fun m hm => ?_, fun l hl hne hs => ?_⟩
  · rw [map_append, Fragment.piecesAll_append]
    exact hf.append hfa
  · rw [hc2 _ (hms m hm).1.wide (hfe m hm), ← moveAll_append, hd m hm, Cpu.read_contents]
  · rw [hc2 l hl (Ne.symm (hs .int)), ← moveAll_append, hfr l hne (.inr hs)]

end Lowering

/-! ## What code touches -/

namespace Machine

def Instr.loads : Instr → List Mem
  | movLoad _ m | movzxLoad _ m _ | load _ m _ _ | aluLoad _ _ m | aluStore _ m _
  | aluMemImm _ m _ _ | imulLoad _ m | pushMem m | floatLoad _ _ m | movsdLoad _ m => [m]
  | _ => []

def Instr.stores : Instr → List Mem
  | movStore m _ | storeImm m _ _ | store m _ _ | aluStore _ m _ | popMem m | movsdStore m _ => [m]
  | aluMemImm op m _ _ => if op = .cmp then [] else [m]
  | _ => []

end Machine

namespace Lowering

open Machine (Instr Section)

structure Scope where
  reads : Slot → Prop
  writes : Slot → Prop
  values : Nat → Prop

/-- A memory operand that leads to the slots and entries in question, to the header of the frame, or
to the memory behind an allocated register. -/
inductive Touches (slots : Slot → Prop) (values : Nat → Prop) : Mem → Prop
  | slot {s : Slot} (h : slots s) : Touches slots values (slotMem s)
  | value {j : Nat} (h : values j) : Touches slots values (valueMem j)
  | header (w : HeaderWord) : Touches slots values (headerMem w)
  | field {r : Int} (h : r ∈ gpOrder) (d : Int) : Touches slots values (.based (gpOperand r) d)
  | item {r i : Int} {n : Nat} (h : r ∈ gpOrder) (hi : i ∈ gpOrder)
      (hn : n = 1 ∨ n = 2 ∨ n = 4 ∨ n = 8) (d : Int) :
      Touches slots values (.indexed (gpOperand r) (gpOperand i) n d)

variable {σ τ : Scope} {code code' fs : List Fragment} {slots slots' : Slot → Prop}
  {values values' : Nat → Prop} {m : Mem} {i : Instr} {sec want cur : Section} {x : String}

instance : LE Scope where
  le σ τ := (∀ s, σ.reads s → τ.reads s) ∧ (∀ s, σ.writes s → τ.writes s) ∧
    ∀ j, σ.values j → τ.values j

theorem Touches.mono (h : Touches slots values m) (hs : ∀ s, slots s → slots' s)
    (hv : ∀ j, values j → values' j) : Touches slots' values' m := by
  cases h with
  | slot h => exact .slot (hs _ h)
  | value h => exact .value (hv _ h)
  | header w => exact .header w
  | field h d => exact .field h d
  | item h hi hn d => exact .item h hi hn d

theorem not_rsp_of_mem (h : r ∈ gpOrder) : r ≠ Machine.Reg.rsp := by
  rintro rfl
  revert h
  decide

/-! ## Code in a scope -/

structure Confined (σ : Scope) (i : Instr) : Prop where
  loads : ∀ m ∈ i.loads, Touches σ.reads σ.values m
  stores : ∀ m ∈ i.stores, Touches σ.writes σ.values m

theorem Confined.mono (h : Confined σ i) (hle : σ ≤ τ) : Confined τ i :=
  ⟨fun m hm => (h.loads m hm).mono hle.1 hle.2.2, fun m hm => (h.stores m hm).mono hle.2.1 hle.2.2⟩

theorem confined_of_load (hl : i.loads = [m]) (hs : i.stores = [])
    (hm : Touches σ.reads σ.values m) : Confined σ i := ⟨by simpa [hl] using hm, by simp [hs]⟩

theorem confined_of_store (hl : i.loads = []) (hs : i.stores = [m])
    (hm : Touches σ.writes σ.values m) : Confined σ i := ⟨by simp [hl], by simpa [hs] using hm⟩

theorem Confined.idle (hl : i.loads = []) (hs : i.stores = []) : Confined σ i :=
  ⟨by simp [hl], by simp [hs]⟩

def Within (σ : Scope) (code : List Fragment) : Prop := ∀ i, .instr i ∈ code → Confined σ i

theorem within_nil : Within σ [] := fun _ h => absurd h not_mem_nil

theorem Within.append (h : Within σ code) (h' : Within σ code') : Within σ (code ++ code') :=
  fun i hi => (mem_append.mp hi).elim (h i) (h' i)

theorem Within.mono (h : Within σ code) (hle : σ ≤ τ) : Within τ code := fun i hi => (h i hi).mono hle

theorem within_cons (h : Confined σ i) (h' : Within σ code) : Within σ (.instr i :: code) := by
  intro j hj
  rcases mem_cons.mp hj with heq | hj
  · cases heq
    exact h
  · exact h' j hj

structure Keeps (σ : Scope) (sec : Section) (f : Fragment) : Prop where
  within : Within σ (f.pieces sec sec)
  inside : ∀ sec', sec' ≠ sec → f.pieces sec' sec = []

namespace Keeps

theorem instr (h : Confined σ i) : Keeps σ sec (.instr i) := by
  refine ⟨fun i' hi => ?_, fun sec' h => by simp [pieces, h]⟩
  rw [pieces_instr] at hi
  cases mem_singleton.mp hi
  exact h

theorem label : Keeps σ sec (.label x) := ⟨by simp [Within, pieces], fun _ h => by simp [pieces, h]⟩

theorem jump : Keeps σ sec (.jump x) := ⟨by simp [Within, pieces], fun _ h => by simp [pieces, h]⟩

theorem jumpIf {cond : Machine.Cond} : Keeps σ sec (.jumpIf cond x) :=
  ⟨by simp [Within, pieces], fun _ h => by simp [pieces, h]⟩

theorem jumpSite : Keeps σ sec (.jumpSite x y) :=
  ⟨by simp [Within, pieces], fun _ h => by simp [pieces, h]⟩

theorem refuse : Keeps σ sec (.refuse x) := ⟨by simp [Within, pieces], fun _ h => by simp [pieces, h]⟩

theorem all (h : ∀ f ∈ fs, Keeps σ sec f) : Within σ (piecesAll sec sec fs) ∧
    ∀ sec', sec' ≠ sec → piecesAll sec' sec fs = [] := by
  induction fs with
  | nil => exact ⟨within_nil, fun _ _ => rfl⟩
  | cons f fs ih =>
    obtain ⟨hf, hfs⟩ := forall_mem_cons.mp h
    obtain ⟨hw, hin⟩ := ih hfs
    refine ⟨hf.within.append hw, fun sec' hne => ?_⟩
    rw [piecesAll, hf.inside sec' hne, hin sec' hne, append_nil]

theorem group (h : ∀ f ∈ fs, Keeps σ sec f) : Keeps σ sec (.group fs) := ⟨(all h).1, (all h).2⟩

theorem moveMem (hd : Touches σ.writes σ.values dst) (hs : Touches σ.reads σ.values src) :
    Keeps σ sec (.moveMem dst src) := group (forall_mem_cons.mpr ⟨.instr (confined_of_load rfl rfl hs),
    forall_mem_singleton.mpr (.instr (confined_of_store rfl rfl hd))⟩)

theorem storeConst (h : Touches σ.writes σ.values mem) (bits : Word) :
    Keeps σ sec (Lowering.storeConst mem bits) := by
  unfold Lowering.storeConst
  split
  · exact .instr (confined_of_store rfl rfl h)
  · exact group (forall_mem_cons.mpr ⟨.instr (.idle rfl rfl),
      forall_mem_singleton.mpr (.instr (confined_of_store rfl rfl h))⟩)

theorem moveCode (hs : ∀ slot, mv.src = .slot slot → σ.reads slot)
    (hd : ∀ slot, mv.dst = .slot slot → σ.writes slot) : Keeps σ sec (Lowering.moveCode mv) := by
  obtain ⟨src, dst, kind⟩ := mv
  match dst, src with
  | .reg ⟨.float, _⟩, .reg ⟨.float, _⟩ | .reg ⟨.float, _⟩, .reg ⟨.gp, _⟩
  | .reg ⟨.gp, _⟩, .reg ⟨.float, _⟩ | .reg ⟨.gp, _⟩, .reg ⟨.gp, _⟩ | .reg ⟨.gp, _⟩, .imm _ =>
    exact .instr (.idle rfl rfl)
  | .reg ⟨.float, _⟩, .slot slot | .reg ⟨.gp, _⟩, .slot slot =>
    exact .instr (confined_of_load rfl rfl (.slot (hs slot rfl)))
  | .reg ⟨.float, _⟩, .imm bits =>
    unfold Lowering.moveCode
    dsimp only
    split
    · exact .instr (.idle rfl rfl)
    · exact group (forall_mem_cons.mpr ⟨.instr (.idle rfl rfl),
        forall_mem_singleton.mpr (.instr (.idle rfl rfl))⟩)
  | .slot slot, .reg ⟨.float, _⟩ | .slot slot, .reg ⟨.gp, _⟩ =>
    exact .instr (confined_of_store rfl rfl (.slot (hd slot rfl)))
  | .slot d, .slot s => exact .moveMem (.slot (hd d rfl)) (.slot (hs s rfl))
  | .slot d, .imm bits => exact .storeConst (.slot (hd d rfl)) bits
  | .reg _, .unset | .slot _, .unset | .imm _, _ | .unset, _ => exact .refuse

end Keeps

theorem within_sequenced (hse : Move.sequence ms scratchLocation = .ok out)
    (hms : ∀ m ∈ ms, (∀ slot, m.src = .slot slot → σ.reads slot) ∧
      ∀ slot, m.dst = .slot slot → slots slot) :
    Within ⟨fun slot => σ.reads slot ∨ slots slot, slots, σ.values⟩
      (piecesAll sec sec (out.map moveCode)) := by
  obtain ⟨hnd, _, moved, ho, rfl⟩ := Move.sequence_eq_ok hse
  have hscratch (k : Kind) (slot : Slot) (h : scratchLocation k = .slot slot) : slots slot := by
    unfold scratchLocation at h
    split at h <;> cases h
  have hmo := Move.order_all (P := fun l => ∀ slot, l = .slot slot → σ.reads slot ∨ slots slot)
    (Q := fun l => ∀ slot, l = .slot slot → slots slot) (fun _ h slot hs => .inr (h slot hs))
    hscratch ho hnd fun m hm => by
      obtain ⟨hsr, hd⟩ := hms m (Move.mem_between.mp hm).1
      exact ⟨fun slot hs => .inl (hsr slot hs), hd⟩
  refine (Keeps.all fun f hf => ?_).1
  obtain ⟨m, hm, rfl⟩ := mem_map.mp hf
  rcases mem_append.mp hm with hm | hm
  · exact .moveCode (hmo m hm).1 (hmo m hm).2
  · obtain ⟨hsr, hd⟩ := hms m (Move.mem_loads.mp hm).1
    exact .moveCode (fun slot hs => .inl (hsr slot hs)) hd

/-! ## Code for one section -/

theorem pieces_moveCode_of_ne (h : want ≠ cur) (mv : Move) : (moveCode mv).pieces want cur = [] :=
  (Keeps.moveCode (σ := ⟨fun _ => True, fun _ => True, fun _ => True⟩) (fun _ _ => trivial)
    fun _ _ => trivial).inside want h

theorem piecesAll_moves_of_ne (h : want ≠ cur) (ms : List Move) :
    piecesAll want cur (ms.map moveCode) = [] := by
  induction ms with
  | nil => rfl
  | cons m ms ih => rw [map_cons, piecesAll, pieces_moveCode_of_ne h, ih, nil_append]

end Lowering

end TraceCompiler
