import TraceCompiler.Proofs.Lowering.Scope
import TraceCompiler.Proofs.Placement.Transfers

/-! # Steps of a compilation

`Yields` is a successful step.
-/

namespace TraceCompiler

open List Allocator
open Machine.Reg (r11 rbp rdi rsi)

/-- A frame whose slots the code can tell apart, but for those that `shared` boxes were given. -/
structure Frame.Fine (f : Frame) (shared : List Box) : Prop where
  own : ∀ b b' s, b ∉ shared → f.get? b = some s → f.get? b' = some s → b = b'
  inRange : ∀ b s, f.get? b = some s → s.InRange

namespace Lowering

open Machine (Cpu Setting Falls Fragment Quiet)

variable {α β ω : Type} {req : Request} {s s' s'' : State} {cls cls' : RegClass} {l : Limits}
  {r : Int}

namespace CompileM

def Yields (m : CompileM α) (req : Request) (s : State) (x : α) (s' : State) : Prop :=
  (m req).run s = (.ok x, s')

variable {m : CompileM α} {x : α} {y : β} {f : α → CompileM β} {o : Option α}

theorem Yields.bind (h : Yields (m >>= f) req s y s'') :
    ∃ x s', Yields m req s x s' ∧ Yields (f x) req s' y s'' := run_bind_ok (x := m req) h

theorem yields_bind : Yields (m >>= f) req s y s'' ↔
    ∃ x s', Yields m req s x s' ∧ Yields (f x) req s' y s'' := by
  constructor
  · exact Yields.bind
  · rintro ⟨x, s', h, h'⟩
    exact (run_seq (x := m req) h).trans h'

@[simp] theorem yields_pure {y : α} : Yields (pure x) req s y s' ↔ y = x ∧ s' = s := by
  constructor
  · rintro ⟨⟩
    exact ⟨rfl, rfl⟩
  · rintro ⟨rfl, rfl⟩
    rfl

theorem yields_map {f : α → β} : Yields (f <$> m) req s y s' ↔ ∃ x, Yields m req s x s' ∧ y = f x := by
  rw [← bind_pure_comp, yields_bind]
  simp only [yields_pure]
  constructor
  · rintro ⟨x, s1, h, rfl, rfl⟩
    exact ⟨x, h, rfl⟩
  · rintro ⟨x, h, rfl⟩
    exact ⟨x, s', h, rfl, rfl⟩

@[simp] theorem yields_get : Yields get req s t s' ↔ t = s ∧ s' = s := @yields_pure _ req _ _ _ _

@[simp] theorem yields_read {r : Request} : Yields read req s r s' ↔ r = req ∧ s' = s :=
  @yields_pure _ req _ _ _ _

@[simp] theorem yields_modify {f : State → State} {u : PUnit} :
    Yields (modify f) req s u s' ↔ s' = f s := by
  constructor
  · rintro ⟨⟩
    rfl
  · rintro rfl
    rfl

@[simp] theorem yields_refuse : ¬ Yields (refuse e) req s x s' := by
  rintro ⟨⟩

@[simp] theorem yields_fault : ¬ Yields fault req s x s' := by
  rintro ⟨⟩

@[simp] theorem yields_need : Yields (need o) req s x s' ↔ o = some x ∧ s' = s := by
  cases o with
  | none =>
    constructor
    · rintro ⟨⟩
    · rintro ⟨h, _⟩
      cases h
  | some a =>
    simp only [need, yields_pure, Option.some.injEq, eq_comm]

theorem Yields.needBind (h : Yields (need o >>= f) req s y s') :
    ∃ x, o = some x ∧ Yields (f x) req s y s' := by
  simpa [yields_bind] using h

theorem yields_get_bind {f : State → CompileM β} :
    Yields (get >>= f) req s y s' ↔ Yields (f s) req s y s' := by
  rw [yields_bind]
  constructor
  · rintro ⟨_, _, ⟨⟩, h⟩
    exact h
  · exact fun h => ⟨s, s, rfl, h⟩

theorem yields_read_bind {f : Request → CompileM β} :
    Yields (read >>= f) req s y s' ↔ Yields (f req) req s y s' := by
  rw [yields_bind]
  constructor
  · rintro ⟨_, _, ⟨⟩, h⟩
    exact h
  · exact fun h => ⟨req, s, rfl, h⟩

theorem yields_ite_bind {p : Prop} [Decidable p] {m' : CompileM α} :
    Yields (if p then m >>= f else m' >>= f) req s y s'' ↔
      ∃ x s', Yields (if p then m else m') req s x s' ∧ Yields (f x) req s' y s'' := by
  split <;> exact yields_bind

end CompileM

def State.bank (s : State) : RegClass → Bank
  | .gp => s.gp
  | .float => s.float

def State.alloc (s : State) (cls : RegClass) : Allocator :=
  { bank := s.bank cls, lifetimes := s.lifetimes, frame := s.frame, supply := s.supply }

def State.absorb (s : State) (cls : RegClass) (a : Allocator) : State :=
  { s with
    gp := if cls = .gp then a.bank else s.gp
    float := if cls = .float then a.bank else s.float
    lifetimes := a.lifetimes
    frame := a.frame
    supply := a.supply
    main := s.main ++ a.moves.toList.map Item.move }

def State.code (s : State) : List Fragment :=
  Fragment.piecesAll .main .main (s.main.toList.map Item.fragment)

/-- What the main part would bring to the cold section. -/
def State.stray (s : State) : List Fragment :=
  Fragment.piecesAll .cold .main (s.main.toList.map Item.fragment)

open CompileM

theorem yields_onBank {m : AllocM α} {x : α} : Yields (onBank cls m) req s x s' ↔
      ∃ a, m.run (s.alloc cls) = (.ok x, a) ∧ s' = s.absorb cls a := by
  have hr : (onBank cls m req).run s = ((m.run (s.alloc cls)).1.mapError fun e => e.map Cause.alloc,
        s.absorb cls (m.run (s.alloc cls)).2) := by
    -- `m` runs once, from the allocator of the class, so only its outcome there matters
    have ho : (onBank cls m req).run s =
        (onBank cls (fun _ => m.run (s.alloc cls) : AllocM α) req).run s := by
      cases cls <;> rfl
    rw [ho]
    cases cls <;> rcases m.run (s.alloc _) with ⟨_ | _, a⟩ <;> rfl
  unfold Yields
  rw [hr]
  rcases m.run (s.alloc cls) with ⟨e | v, a⟩
  · constructor
    · rintro ⟨⟩
    · rintro ⟨_, ⟨⟩, _⟩
  · constructor
    · rintro ⟨⟩
      exact ⟨a, rfl, rfl⟩
    · rintro ⟨_, ⟨⟩, rfl⟩
      rfl

theorem CompileM.Yields.onBank {m : AllocM α} {x : α} (h : Yields (CompileM.onBank cls m) req s x s') :
    ∃ a, m.run (s.alloc cls) = (.ok x, a) ∧ s' = s.absorb cls a := yields_onBank.mp h

@[simp] theorem bank_absorb_self (s : State) (cls : RegClass) (a : Allocator) :
    (s.absorb cls a).bank cls = a.bank := by
  cases cls <;> simp [State.absorb, State.bank]

theorem bank_absorb_of_ne (h : cls' ≠ cls) (s : State) (a : Allocator) :
    (s.absorb cls a).bank cls' = s.bank cls' := by
  cases cls <;> cases cls' <;> simp [State.absorb, State.bank] at h ⊢

@[elab_as_elim] theorem bank_absorb_ind {motive : RegClass → Bank → Prop} (cls' : RegClass)
    (hself : motive cls a.bank) (hother : ∀ cls', cls' ≠ cls → motive cls' (s.bank cls')) :
    motive cls' ((s.absorb cls a).bank cls') := by
  by_cases he : cls' = cls
  · subst he
    rwa [bank_absorb_self]
  · rw [bank_absorb_of_ne he]
    exact hother cls' he

theorem code_absorb (s : State) (cls : RegClass) (a : Allocator) : (s.absorb cls a).code =
    s.code ++ Fragment.piecesAll .main .main (a.moves.toList.map moveCode) := by
  unfold State.code State.absorb
  simp only [Array.toList_appendList, map_append, Fragment.piecesAll_append, map_map]
  rfl

theorem stray_absorb (s : State) (cls : RegClass) (a : Allocator) : (s.absorb cls a).stray = s.stray := by
  have hm : (a.moves.toList.map Item.move).map Item.fragment = a.moves.toList.map moveCode := by
    rw [map_map]
    rfl
  unfold State.stray State.absorb
  simp only [Array.toList_appendList, map_append, Fragment.piecesAll_append]
  rw [hm, piecesAll_moves_of_ne (by decide), append_nil]

theorem absorb_alloc (s : State) (cls : RegClass) : s.absorb cls (s.alloc cls) = s := by
  cases s
  cases cls <;> simp [State.absorb, State.alloc, State.bank]

/-! ## What states of a compilation satisfy -/

def Limits.pool (l : Limits) : RegClass → Pool
  | .gp => gpPool l.maxInts
  | .float => floatPool l.maxFloats

theorem Limits.mem_gp (hr : r ∈ (l.pool .gp).regs) : r ∈ gpOrder := mem_of_mem_take hr

theorem Limits.mem_float (hr : r ∈ (l.pool .float).regs) : 0 ≤ r ∧ r < 15 := by
  simp only [pool, floatPool, mem_map, mem_range] at hr
  obtain ⟨n, hn, rfl⟩ := hr
  have : clampPool l.maxFloats 2 15 ≤ 15 := by
    unfold clampPool
    split <;> omega
  constructor <;> omega

theorem Limits.pool_nodup (l : Limits) (cls : RegClass) : (l.pool cls).regs.Nodup := by
  cases cls with
  | gp => exact (by decide : gpOrder.Nodup).sublist (take_sublist ..)
  | float => exact nodup_range.map fun a b (h : (a : Int) = b) => by omega

@[simp] theorem Limits.pool_cls (l : Limits) (cls : RegClass) : (l.pool cls).cls = cls := by
  cases cls <;> rfl

/-- The words that a native function is passed, after so many integers and floats. -/
def Passes (gp xmm : Int → Word) : Nat → Nat → List (Kind × Word) → Prop
  | _, _, [] => True
  | ints, floats, (k, w) :: rest =>
    if k = .float then xmm floats = w ∧ Passes gp xmm ints (floats + 1) rest
    else (∃ r, intArgRegs[ints]? = some r ∧ gp r = w) ∧ Passes gp xmm (ints + 1) floats rest

/-- The native functions do what the host does, and no guard has a bridge. -/
structure Implements (env : Setting ω) (hooks : Hooks) : Prop where
  failure : hooks.failure ≠ 0 → ∀ gp xmm w, ∃ x w',
    env.native hooks.failure gp xmm w = some (0, x, w')
  malloc : hooks.malloc ≠ 0 → ∃ f, env.host.malloc = some f ∧ ∀ gp xmm w,
    gp rdi = env.frameBase → ∃ x, env.native hooks.malloc gp xmm w =
      some ((f (gp rsi) w).1, x, (f (gp rsi) w).2)
  barrier : hooks.barrier ≠ 0 → ∃ f, env.host.barrier = some f ∧ ∀ gp xmm w,
    gp rdi = env.frameBase → ∃ a x, env.native hooks.barrier gp xmm w =
      some (a, x, f (gp rsi) w)
  noBarrier : hooks.barrier = 0 → env.host.barrier = none
  call : ∀ fn sig args w r w', env.host.call fn sig args w = (.ok r, w') → ∀ gp xmm,
    Passes gp xmm 0 0 (sig.args.zip args) → ∃ a x, env.native fn gp xmm w = some (a, x, w') ∧
      if sig.result = .float then x = r else a = r

/-- What does not change while compiled code is compared with its trace. -/
structure Setup (ω : Type) where
  env : Setting ω
  req : Request
  implements : Implements env req.hooks
  /-- The number of boxes that were made before the compilation. -/
  made : Nat
  /-- The boxes that are in slots from the beginning. -/
  shared : List Box
  /-- The frame at the end of the compilation. -/
  frame : Frame
  fine : frame.Fine shared
  /-- What the code finds on the stack once it has saved the registers. -/
  stack : List Word

/-- What the code of operations may touch: slots of boxes, of which those that are `shared` are only
read. -/
def Setup.scope (u : Setup ω) (f : Frame) : Scope where
  reads s := ∃ b, f.get? b = some s
  writes s := ∃ b, b ∉ u.shared ∧ f.get? b = some s
  values _ := False

theorem Setup.scope_le (u : Setup ω) (h : f'.Extends f) : u.scope f ≤ u.scope f' :=
  ⟨fun _ ⟨b, hb⟩ => ⟨b, h b _ hb⟩, fun _ ⟨b, hb, hs⟩ => ⟨b, hb, h b _ hs⟩, fun _ hj => hj⟩

/-- What every state of a compilation satisfies, when the boxes `ks` of the trace and temporaries
may have a place. -/
structure Ok (u : Setup ω) (ks : List Box) (s : State) : Prop where
  sound : ∀ cls, (s.bank cls).Sound (u.req.limits.pool cls)
  tidy : ∀ cls, (s.alloc cls).Tidy
  apart : ∀ b cls cls', (s.alloc cls).Placed b → (s.alloc cls').Placed b → cls = cls'
  ids : ∀ b ∈ ks, b.id ≤ u.made
  temps : ∀ cls, ∀ t ∈ (s.bank cls).temps, u.made < t.id
  made : u.made ≤ s.supply.made
  /-- Temporaries are not stored. -/
  slots : ∀ b slot, s.frame.get? b = some slot → b ∈ ks
  shared : ∀ b ∈ u.shared, b ∈ ks ∧
    ∀ cls, ((s.bank cls).regOf (some b)).isSome → b ∈ (s.bank cls).inFrame
  known : ∀ cls b, (s.alloc cls).Placed b → b ∈ ks ∨ b ∈ (s.bank cls).temps

structure Grows (s s' : State) : Prop where
  main : s.main.toList <+: s'.main.toList
  cold : s.cold.toList <+: s'.cold.toList
  frame : s'.frame.Extends s.frame
  made : s.supply.made ≤ s'.supply.made

theorem Grows.refl (s : State) : Grows s s := ⟨prefix_rfl, prefix_rfl, .refl _, le_rfl⟩

theorem Grows.trans (h : Grows s s') (h' : Grows s' s'') : Grows s s'' :=
  ⟨h.main.trans h'.main, h.cold.trans h'.cold, h'.frame.trans h.frame, h.made.trans h'.made⟩

theorem Grows.exists_code (h : Grows s s') : ∃ code, s'.code = s.code ++ code := by
  obtain ⟨items, hie⟩ := h.main
  refine ⟨Fragment.piecesAll .main .main (items.map Item.fragment), ?_⟩
  rw [State.code, ← hie, map_append, Fragment.piecesAll_append]
  rfl

variable {env : Setting ω} {u : Setup ω} {c c' c'' : Cpu ω} {v v' : Box → Word}

/-- The code that a step has added to the main part runs from one state to another. -/
def Run (env : Setting ω) (s s' : State) (c c' : Cpu ω) : Prop :=
  ∃ code, s'.code = s.code ++ code ∧ Falls env code c c'

theorem Run.trans (h : Run env s s' c c') (h' : Run env s' s'' c' c'') : Run env s s'' c c'' := by
  obtain ⟨code, hc, hf⟩ := h
  obtain ⟨code', hc', hf'⟩ := h'
  exact ⟨code ++ code', by rw [hc', hc, append_assoc], hf.append hf'⟩

theorem Run.silent (h : s'.code = s.code) : Run env s s' c c := ⟨[], by rw [h, append_nil], .nil⟩

/-- A step has added code that keeps to the slots of boxes. -/
def Adds (u : Setup ω) (s s' : State) : Prop :=
  ∃ code, s'.code = s.code ++ code ∧ Within (u.scope s'.frame) code

theorem Adds.trans (h : Adds u s s') (he : s''.frame.Extends s'.frame) (h' : Adds u s' s'') :
    Adds u s s'' := by
  obtain ⟨code, hc, hw⟩ := h
  obtain ⟨code', hc', hw'⟩ := h'
  exact ⟨code ++ code', by rw [hc', hc, append_assoc],
    (hw.mono (u.scope_le he)).append hw'⟩

theorem Adds.silent (h : s'.code = s.code) : Adds u s s' := ⟨[], by rw [h, append_nil], within_nil⟩

/-- A processor that has run the code so far: registers and slots hold the values of their boxes, and
the way to the frame and to the value array is there. -/
structure Good (u : Setup ω) (s : State) (c : Cpu ω) (v : Box → Word) : Prop where
  holds : ∀ cls, (s.alloc cls).Holds none c.contents v
  base : c.gp rbp = u.env.frameBase
  header : c.frame HeaderWord.values.offset = u.env.valuesBase
  stack : c.stack = u.stack

section

variable {ks ks' : List Box} {b : Box}

theorem Ok.mono (h : Ok u ks s) (hk : ∀ b ∈ ks, b ∈ ks')
    (hid : ∀ b ∈ ks', b.id ≤ u.made) : Ok u ks' s := { h with
    known := fun cls b hb => (h.known cls b hb).imp_left (hk b)
    ids := hid
    slots := fun b slot hb => hk b (h.slots b slot hb)
    shared := fun b hb => ⟨hk b (h.shared b hb).1, (h.shared b hb).2⟩ }

theorem Ok.not_temp (h : Ok u ks s) (hb : b ∈ ks) : b ∉ (s.bank cls).temps := fun ht => by
  have hlt := h.temps cls b ht
  have hle := h.ids b hb
  omega

theorem Ok.congr (h : Ok u ks s) (hs : ∀ cls, s'.alloc cls = s.alloc cls) : Ok u ks s' := by
  have hba (cls) : s'.bank cls = s.bank cls := congrArg bank (hs cls)
  have hf : s'.frame = s.frame := congrArg frame (hs .gp)
  have hsu : s'.supply = s.supply := congrArg supply (hs .gp)
  constructor
  · exact fun cls => hba cls ▸ h.sound cls
  · exact fun cls => hs cls ▸ h.tidy cls
  · intro b cls cls'
    rw [hs, hs]
    exact h.apart b cls cls'
  · exact h.ids
  · exact fun cls => hba cls ▸ h.temps cls
  · exact hsu ▸ h.made
  · exact hf ▸ h.slots
  · exact fun b hb => ⟨(h.shared b hb).1, fun cls => hba cls ▸ (h.shared b hb).2 cls⟩
  · intro cls b
    rw [hs, hba]
    exact h.known cls b

theorem Good.congr (h : Good u s c v) (hs : ∀ cls, s'.alloc cls = s.alloc cls) : Good u s' c v :=
  { h with holds := fun cls => hs cls ▸ h.holds cls }

theorem Ok.loc (hok : Ok u ks s) (cls : RegClass) (r : Int) : (s.alloc cls).loc r = .reg ⟨cls, r⟩ := by
  have hp : (s.alloc cls).bank.pool = u.req.limits.pool cls := (hok.sound cls).pool_eq
  rw [Allocator.loc, Pool.reg, hp, Limits.pool_cls]

theorem now_alloc (s : State) (cls : RegClass) (σ : Contents) : (s.alloc cls).now σ = σ := rfl

theorem Good.reg (hg : Good u s c v) (hok : Ok u ks s)
    (hr : (s.bank cls).regOf (some b) = some r) : c.contents (.reg ⟨cls, r⟩) = v b := by
  have := (hg.holds cls).register hr
  rwa [hok.loc] at this

theorem Good.slot (hg : Good u s c v) (hb : b ∈ (s.bank cls).inFrame) :
    ∃ slot, s.frame.get? b = some slot ∧ c.frame slot.offset = v b := (hg.holds cls).slot b hb

variable {a : Allocator} {pos : Int} {keep : Box → Prop} {x : Option Box}

theorem placed_absorb_self (s : State) (cls : RegClass) (a : Allocator) (b : Box) :
    ((s.absorb cls a).alloc cls).Placed b ↔ a.Placed b := by
  unfold Placed State.alloc
  rw [bank_absorb_self]

theorem placed_absorb_of_ne (h : cls' ≠ cls) (s : State) (a : Allocator) (b : Box) :
    ((s.absorb cls a).alloc cls').Placed b ↔ (s.alloc cls').Placed b := by
  unfold Placed State.alloc
  rw [bank_absorb_of_ne h]

structure Placeable (u : Setup ω) (ks : List Box) (s : State) (cls : RegClass) (b : Box) :
    Prop where
  made : b.id ≤ s.supply.made
  known : b ∈ ks ∨ b ∈ (s.bank cls).temps
  other : ∀ cls', cls' ≠ cls → ¬ (s.alloc cls').Placed b
  shared : b ∈ u.shared → b ∈ (s.bank cls).inFrame

section

variable (hok : Ok u ks s) (ha : Adjusts pos keep x (s.alloc cls) a)
  (hx : ∀ b ∈ x, Placeable u ks s cls b)
include hok ha hx

/-- The slots that a request hands out are taken by boxes of the trace. -/
theorem Ok.slots_absorb (hk : ∀ t ∈ (s.bank cls).temps, some t ≠ x → keep t) :
    ∃ bs : List Box, s.frame.History (bs.map some) a.frame ∧ ∀ b ∈ bs, b ∈ ks := by
  obtain ⟨bs, hbs, hof⟩ := ha.history (hok.tidy cls) fun b hb => (hx b hb).made
  refine ⟨bs, hbs, fun b hb => ?_⟩
  obtain ⟨hr, hne, hl⟩ := hof b hb
  exact (hok.known cls b (.inl hr)).resolve_right fun ht => hl (hk b ht hne)

/-- **A request keeps what states satisfy**, if the box that it is about may have a place in the
bank. -/
theorem Ok.absorb (hsl : ∃ bs : List Box, s.frame.History (bs.map some) a.frame ∧ ∀ b ∈ bs, b ∈ ks) :
    Grows s (s.absorb cls a) ∧ Ok u ks (s.absorb cls a) := by
  have hs : a.supply = s.supply := ha.same.2.1
  have hti := ha.tidy (hok.tidy cls) fun b hb => (hx b hb).made
  have hte := ha.same.2.2.2
  have hp {b : Box} (hb : a.Placed b) : (s.alloc cls).Placed b ∨ b ∈ x := by
    by_cases he : some b = x
    · exact .inr he.symm
    · exact .inl (ha.placed_inv he hb)
  refine ⟨⟨?_, prefix_rfl, ha.frame.1, ?_⟩, ?_, ?_, ?_, hok.ids, ?_, ?_, ?_, ?_, ?_⟩
  · simp [State.absorb]
  · exact hs ▸ le_rfl
  · exact fun cls' => bank_absorb_ind cls' (ha.sound (hok.sound cls)) fun cls' _ => hok.sound cls'
  · intro cls'
    by_cases he : cls' = cls
    · subst he
      refine ⟨fun b hb => hti.placed b ((placed_absorb_self ..).mp hb), hti.slots, ?_⟩
      intro b hb
      rw [State.alloc, bank_absorb_self] at hb
      exact hti.stored b hb
    · refine ⟨fun b hb => ?_, hti.slots, fun b hb => ?_⟩
      · exact hs ▸ (hok.tidy cls').placed b ((placed_absorb_of_ne he ..).mp hb)
      · rw [State.alloc, bank_absorb_of_ne he] at hb
        obtain ⟨slot, hso⟩ := Option.isSome_iff_exists.mp ((hok.tidy cls').stored b hb)
        exact Option.isSome_iff_exists.mpr ⟨slot, ha.frame.1 b slot hso⟩
  · -- A box with a place in both banks would have had one in both before.
    have key {b : Box} {cls' : RegClass} (he : cls' ≠ cls) (hb : a.Placed b)
        (hb' : (s.alloc cls').Placed b) : False := by
      rcases hp hb with hb | hb
      · exact he (hok.apart b cls' cls hb' hb)
      · exact (hx b hb).other cls' he hb'
    intro b cls1 cls2 h1 h2
    by_cases he1 : cls1 = cls
    · by_cases he2 : cls2 = cls
      · exact he1.trans he2.symm
      · subst he1
        exact (key he2 ((placed_absorb_self ..).mp h1) ((placed_absorb_of_ne he2 ..).mp h2)).elim
    · by_cases he2 : cls2 = cls
      · subst he2
        exact (key he1 ((placed_absorb_self ..).mp h2) ((placed_absorb_of_ne he1 ..).mp h1)).elim
      · exact hok.apart b cls1 cls2 ((placed_absorb_of_ne he1 ..).mp h1)
          ((placed_absorb_of_ne he2 ..).mp h2)
  · exact fun cls' => bank_absorb_ind cls' (hte ▸ hok.temps cls) fun cls' _ => hok.temps cls'
  · change u.made ≤ a.supply.made
    rw [hs]
    exact hok.made
  · intro b slot hb
    obtain ⟨bs, hbs, hof⟩ := hsl
    rcases (hbs.slots b slot).mp hb with hb | ⟨i, hi, _⟩
    · exact hok.slots b slot hb
    · obtain ⟨b', hb', hsm⟩ := mem_map.mp (mem_of_getElem? hi)
      cases hsm
      exact hof b hb'
  · refine fun b hb => ⟨(hok.shared b hb).1, fun cls' =>
      bank_absorb_ind cls' (fun hr => ha.frame.2 b ?_) fun cls' _ => (hok.shared b hb).2 cls'⟩
    by_cases hbx : some b = x
    · exact (hx b hbx.symm).shared hb
    · exact (hok.shared b hb).2 cls (ha.bound hbx hr)
  · intro cls' b hb
    by_cases he : cls' = cls
    · subst he
      rw [bank_absorb_self, hte]
      rcases hp ((placed_absorb_self ..).mp hb) with hb | hb
      · exact hok.known cls' b hb
      · exact (hx b hb).known
    · rw [bank_absorb_of_ne he]
      exact hok.known cls' b ((placed_absorb_of_ne he ..).mp hb)

end

theorem Ok.clear (hok : Ok u ks s) (he : u.frame.Extends f) : Clear none (s.alloc cls) f := by
  intro b b' slot _ hr hb hs hs'
  exact u.fine.own b b' slot (fun hsh => hb ((hok.shared b hsh).2 cls hr)) (he b slot hs)
    (he b' slot hs')

theorem passable_move (he : u.frame.Extends a.frame)
    (hp : a.bank.pool = u.req.limits.pool cls) (hm : a.Passable stored m) :
    m.dst.Writable ∧ m.src.Wide ∧ m.src ≠ .reg (Reg.gp r11) := by
  have hl (r : Int) : a.loc r = .reg ⟨cls, r⟩ := by
    rw [loc, Pool.reg, hp, Limits.pool_cls]
  have hne {r q : Int} (hr : r ∈ a.bank.pool.regs) (hq : q ∉ gpOrder) :
      Location.reg ⟨cls, r⟩ ≠ .reg (Reg.gp q) := by
    rintro ⟨⟩
    exact hq (Limits.mem_gp (hp ▸ hr))
  obtain ⟨src, dst, kind⟩ := m
  obtain ⟨hsr, hd⟩ := hm
  constructor
  · rcases hd with ⟨r, hr, hd⟩ | ⟨b, slot, _, hs, hd, _⟩
    · change dst = a.loc r at hd
      rw [hd, hl]
      exact ⟨trivial, rfl, hne hr (by decide)⟩
    · change dst = .slot slot at hd
      rw [hd]
      exact ⟨u.fine.inRange b slot (he b slot hs), rfl, by simp⟩
  · cases hsr with
    | imm w => exact ⟨trivial, by simp⟩
    | reg hr =>
      change (a.loc _).Wide ∧ a.loc _ ≠ _
      rw [hl]
      exact ⟨trivial, hne hr (by decide)⟩
    | slot hs => exact ⟨u.fine.inRange _ _ (he _ _ hs), by simp⟩

theorem Ok.unshared (hok : Ok u ks s) (hb : (s.alloc cls).Unstored b) : b ∉ u.shared :=
  fun h => hb.2 ((hok.shared b h).2 cls hb.1)

theorem Ok.adds_absorb (hok : Ok u ks s)
    (ha : Adjusts pos keep x (s.alloc cls) a) : Adds u s (s.absorb cls a) := by
  obtain ⟨ms, hms, hp⟩ := ha.moves (hok.sound cls)
  have hms : a.moves.toList = ms := hms
  refine ⟨_, code_absorb .., (Keeps.all fun f hf => ?_).1⟩
  rw [hms] at hf
  obtain ⟨m, hm, rfl⟩ := mem_map.mp hf
  obtain ⟨hsr, hd⟩ := hp m hm
  refine .moveCode (fun slot hs => ?_) fun slot hs => ?_
  · rw [hs] at hsr
    cases hsr with
    | slot hs => exact ⟨_, hs⟩
  · rw [hs] at hd
    rcases hd with ⟨r, hr, hd⟩ | ⟨b, slot, hb, hs, ⟨⟩, _⟩
    · cases hd
    · exact ⟨b, hok.unshared hb, hs⟩

/-- **The code of a request makes its moves**: a processor that is good before becomes one that is
good behind it, if the request holds what it promises to hold. -/
theorem Good.absorb (hg : Good u s c v) (hok : Ok u ks s)
    (het : u.frame.Extends a.frame) (ha : Adjusts pos keep x (s.alloc cls) a)
    (hh : a.Holds none c.contents v') (hv : ∀ b cls', cls' ≠ cls → (s.alloc cls').Placed b → v' b = v b) :
    ∃ c', Run u.env s (s.absorb cls a) c c' ∧ Quiet c c' ∧ Good u (s.absorb cls a) c' v' ∧
      (∀ l, l.Wide → l ≠ .reg (Reg.gp r11) → c'.contents l = a.now c.contents l) ∧
      (cls = .gp → c'.gp r11 = c.gp r11) := by
  have hp := ha.same.2.2.1.trans (hok.sound cls).pool_eq
  obtain ⟨ms, hms, hpa⟩ := ha.moves (hok.sound cls)
  have hms : a.moves.toList = ms := hms
  -- Constants that a general bank asks for go to its registers, so no move takes the scratch one.
  obtain ⟨c', hf, hqu, hc'⟩ := falls_moves
    (P := fun l => l = .reg (Reg.gp r11) → cls = .gp) .main hg.base
    (fun m (hm : m ∈ ms) => by
      obtain ⟨hd, hsr, hne⟩ := passable_move het hp (hpa m hm)
      exact ⟨hd, hsr, fun h => absurd h hne⟩)
    (fun m hm hbo hP => by
      obtain ⟨him, hd⟩ := hbo
      rcases (hpa m hm).dst with ⟨r, _, hr⟩ | ⟨_, _, _, _, _, hno⟩
      · refine hd r ?_
        rw [hr, loc, Pool.reg, hp, Limits.pool_cls, hP rfl]
        rfl
      · simp [him] at hno)
    (σ := c.contents) (fun _ _ _ => rfl)
  have hn {l : Location} (hl : l.Wide) (hne : l ≠ .reg (Reg.gp r11)) :
      c'.contents l = a.now c.contents l := by
    rw [now, hms]
    exact hc' l hl fun h => absurd h hne
  have hre {cls' : RegClass} {r : Int} (hr : r ∈ (u.req.limits.pool cls').regs) :
      c'.contents (.reg ⟨cls', r⟩) = a.now c.contents (.reg ⟨cls', r⟩) := by
    refine hn trivial ?_
    rintro ⟨⟩
    exact absurd (Limits.mem_gp hr) (by decide)
  have hs {b : Box} {slot : Slot} (h : a.frame.get? b = some slot) :
      c'.contents (.slot slot) = a.now c.contents (.slot slot) :=
    hn (u.fine.inRange b slot (het b slot h)) (by simp)
  refine ⟨c', ⟨_, code_absorb .., hms ▸ hf⟩, hqu, ⟨fun cls' => ?_, ?_, ?_, ?_⟩,
    fun l hl hne => hn hl hne, fun hcl => ?_⟩
  · have hlo (r : Int) : ((s.absorb cls a).alloc cls').loc r = .reg ⟨cls', r⟩ := by
      rw [loc, State.alloc, Pool.reg]
      refine bank_absorb_ind cls' ?_ fun cls' _ => ?_
      · rw [hp, Limits.pool_cls]
      · rw [(hok.sound cls').pool_eq, Limits.pool_cls]
    by_cases he : cls' = cls
    · subst he
      constructor
      · intro b r _ hb
        rw [State.alloc, bank_absorb_self] at hb
        have hva := hh.register hb
        have hr : r ∈ (u.req.limits.pool cls').regs := hp ▸ (ha.sound (hok.sound cls')).held_sub _ r hb
        rw [hlo, now_alloc, hre hr, ← hva, loc, Pool.reg, hp, Limits.pool_cls]
      · intro b hb
        rw [State.alloc, bank_absorb_self] at hb
        obtain ⟨slot, hge, hva⟩ := hh.slot b hb
        exact ⟨slot, hge, (hs hge).trans hva⟩
    · -- The other bank is left alone: registers of another class and slots of other boxes.
      constructor
      · intro b r _ hb
        rw [State.alloc, bank_absorb_of_ne he] at hb
        have hr : r ∈ (u.req.limits.pool cls').regs :=
          (hok.sound cls').pool_eq ▸ (hok.sound cls').held_sub _ r hb
        have ho := ha.outside (σ := c.contents) (hok.sound cls) (l := .reg ⟨cls', r⟩)
          (fun q _ => by
            rw [hok.loc]
            rintro ⟨⟩
            exact he rfl)
          (fun _ _ _ _ _ _ => by simp)
        rw [hlo, now_alloc, hre hr, ho, now_alloc, hg.reg hok hb, hv b cls' he]
        exact .inl (by simp [State.alloc, hb])
      · intro b hb
        rw [State.alloc, bank_absorb_of_ne he] at hb
        obtain ⟨slot, hge, hva⟩ := (hg.holds cls').slot b hb
        have hge' := ha.frame.1 b slot hge
        have ho := ha.outside (σ := c.contents) (hok.sound cls) (l := .slot slot)
          (fun q _ => by simp [loc])
          (fun b' slot' _ hb' hme hs' heq => by
            cases heq
            cases hok.clear het b' b _ (by simp) hb' hme hs' hge'
            exact he (hok.apart _ cls' cls (.inr hb) (.inl hb')))
        refine ⟨slot, hge', ?_⟩
        rw [now_alloc, hs hge', ho, hv b cls' he (.inr hb)]
        exact hva
  · exact hqu.base.trans hg.base
  · exact (hqu.header _).trans hg.header
  · exact hqu.stack.trans hg.stack
  · have ho := ha.outside (σ := c.contents) (hok.sound cls)
      (l := .reg (Reg.gp r11)) (fun q hq => by
        rw [hok.loc]
        rintro ⟨⟩
        exact absurd (Limits.mem_gp hq) (by decide)) (fun _ _ _ _ _ _ => by simp)
    rw [now_alloc] at ho
    rw [now, hms] at ho
    exact (hc' (.reg (Reg.gp r11)) trivial fun _ => hcl).trans ho

end

end Lowering

end TraceCompiler
