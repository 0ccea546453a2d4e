import TraceCompiler.Proofs.CodeMemory.Contents
import TraceCompiler.Proofs.Engine.Bounds

/-! # The accounts of an engine

The exit table, the tokens and bridges, and the code in use agree in every state of an engine
(`Accounted`): numbers are positions, every exit belongs to one loop or one attached bridge, and the blocks
in use are theirs.
-/

namespace TraceCompiler.Engine

open List

open CodeMemory (Tiled HasByte)

variable {μ α : Type} {M : Mapper μ} {start : μ} {g g' g1 : Engine μ} {t : Trace}
  {r : Lowering.Request} {m m' code : CodeMemory μ} {blocks : List Block} {x : Exit} {l : Loaded}
  {loaded : List Loaded} {site site' : Machine.PatchSite} {target addr : Word} {i : Nat}
  {data : List UInt8} {e : Machine.PatchError (Abort CodeMemory.Error)}

/-! ## Lists that change at one place -/

theorem exists_split {l : List α} {x : α} (h : l[i]? = some x) :
    ∃ a b, l = a ++ x :: b ∧ ∀ f, l.modify i f = a ++ f x :: b := by
  obtain ⟨hi, rfl⟩ := List.getElem_of_getElem? h
  refine ⟨l.take i, l.drop (i + 1), by simp, fun f => ?_⟩
  rw [modify_eq_take_cons_drop hi]

theorem forall_mem_replace {a b : List α} {x y : α} {P : α → Prop} (h : ∀ z ∈ a ++ x :: b, P z)
    (hy : P x → P y) : ∀ z ∈ a ++ y :: b, P z := by
  simp only [forall_mem_append, forall_mem_cons] at h ⊢
  exact ⟨h.1, hy h.2.1, h.2.2⟩

theorem map_modify_of_eq {β : Type} {F : α → β} {f : α → α} (hF : ∀ x, F (f x) = F x) (l : List α)
    (i : Nat) : (l.modify i f).map F = l.map F := by
  refine ext_getElem (by simp) fun k _ _ => ?_
  rw [getElem_map, getElem_map, getElem_modify]
  split
  · exact hF _
  · rfl

/-! ## Code memory -/

def Short (g : Engine μ) (r : Lowering.Request) : Prop :=
  ∀ res supply, g.generator r g.supply = (.ok res, supply) →
    res.program.code.size + 15 < 0x8000000000000000

def SameCode (M : Mapper μ) (start : μ) (m m' : CodeMemory μ) : Prop :=
  ∀ blocks, Tiled M start 16 m blocks → Tiled M start 16 m' blocks ∧
    ∀ b ∈ blocks, m'.read b.addr b.size = m.read b.addr b.size

theorem SameCode.refl (m : CodeMemory μ) : SameCode M start m m := fun _ h => ⟨h, fun _ _ => rfl⟩

theorem sameCode_undone (hM : M.Serves start 16) {code : List UInt8}
    (hl : code.length + 15 < 0x8000000000000000) (m : CodeMemory μ) :
    SameCode M start m (undone ((CodeMemory.allocate code).run m)) := by
  intro blocks h
  rcases hr : (CodeMemory.allocate code).run m with ⟨e | b, m1⟩
  all_goals
    have h₁ := h.allocate hM (Int.dvd_refl 16) hl hr
    have hk {b : Block} (hb : b ∈ blocks) {a : Int} {x : UInt8} (ha : b.span.Covers a) :=
      h.allocate_keeps (x := x) hM (Int.dvd_refl 16) hl hr hb ha
  · exact ⟨h₁, fun b hb => h.read_congr h₁ hb hb fun a x ha hx => hk hb ha hx⟩
  · have h₂ : Tiled M start 16 (m1.deallocate b) ((b :: blocks).erase b) := h₁.deallocate mem_cons_self
    rw [erase_cons_head] at h₂
    refine ⟨h₂, fun b' hb => h.read_congr h₂ hb hb fun a x ha hx => ?_⟩
    exact CodeMemory.chunks_deallocate m1 b ▸ hk hb ha hx

theorem write_cases {r : Except (Abort CodeMemory.Error) Unit} (h : Tiled M start 16 m blocks)
    (hr : (CodeMemory.write addr data).run m = (r, m')) :
    m' = m ∨ ∃ c, CodeMemory.Wrote m addr data c r m' := by
  rw [CodeMemory.write, run_get_bind, h.opened] at hr
  cases hc : m.chunkOf? addr data.length with
  | none => exact .inl (CodeMemory.run_writePages_none hc hr).2
  | some c => exact .inr ⟨c, CodeMemory.run_writePages hc hr⟩

def Protects (M : Mapper μ) : Prop :=
  ∀ addr n writable p r p', M.protect addr n writable p = (r, p') → r = .ok ()

theorem write_error (hM : Protects M) {r : Except (Abort CodeMemory.Error) Unit}
    (h : Tiled M start 16 m blocks) (hru : (CodeMemory.write addr data).run m = (r, m'))
    (hr : r ≠ .ok ()) : m' = m := by
  obtain rfl | ⟨c, hw⟩ := write_cases h hru
  · rfl
  rw [← h.mapper] at hM
  cases hw with
  | outside _ => rfl
  | locked _ hrw => cases hM _ _ _ _ _ _ hrw
  | copied _ _ hrx =>
    cases hM _ _ _ _ _ _ hrx
    exact absurd rfl hr

theorem redirect_error (hM : Protects M) (h : Tiled M start 16 m blocks)
    (hp : redirect site target m = (.error e, site', m')) : site' = site ∧ m' = m := by
  unfold redirect Machine.PatchSite.patch at hp
  split at hp
  · cases hp
    exact ⟨rfl, rfl⟩
  split at hp
  · cases hp
    exact ⟨rfl, rfl⟩
  split at hp
  · rename_i hw
    cases hp
    exact ⟨rfl, write_error hM h hw nofun⟩
  · cases hp

theorem redirect_ok (h : Tiled M start 16 m blocks) (hp : redirect site target m = (.ok (), site', m')) :
    site'.used = true ∧ Tiled M start 16 m' blocks := by
  unfold redirect Machine.PatchSite.patch at hp
  split at hp
  · cases hp
  split at hp
  · cases hp
  split at hp
  · cases hp
  · rename_i hw
    cases hp
    refine ⟨rfl, ?_⟩
    obtain rfl | ⟨c, hwr⟩ := write_cases h hw
    · exact h
    · exact hwr.tiled h

/-! ## Accounts -/

/-- The exit table, the loops and bridges, and the code in use agree. -/
structure Accounted (M : Mapper μ) (start : μ) (loaded : List Loaded) (g : Engine μ) : Prop where
  idle : g.executing = false
  numbered : g.exits.map Exit.index = range g.exits.length
  owner : ∀ x ∈ g.exits, x.owner = g.id
  owned : (g.tokens.flatMap Token.exits ++ g.exits.flatMap Exit.bridgeExits ++
    loaded.flatMap Loaded.exits).Perm (range g.exits.length)
  attached : ∀ x ∈ g.exits, x.bridge.isSome →
    x.isFinish = false ∧ ∃ site, x.site = some site ∧ site.used = true
  bridges : g.bridges.length = g.exits.countP (·.bridge.isSome)
  code : ∃ blocks, blocks.Perm (g.tokens.map Token.block ++ g.bridges ++ loaded.map Loaded.block) ∧
    Tiled M start 16 g.code blocks

structure Restored (M : Mapper μ) (start : μ) (g g' : Engine μ) : Prop where
  id : g'.id = g.id
  executing : g'.executing = g.executing
  exits : g'.exits = g.exits
  tokens : g'.tokens = g.tokens
  bridges : g'.bridges = g.bridges
  code : SameCode M start g.code g'.code

def Keeps (exits exits' : List Exit) : Prop :=
  ∀ (i : Nat) b, exits[i]?.bind Exit.bridge = some b → exits'[i]?.bind Exit.bridge = some b

theorem Restored.accounted (h : Accounted M start loaded g) (hr : Restored M start g g') :
    Accounted M start loaded g' where
  idle := hr.executing.trans h.idle
  numbered := hr.exits ▸ h.numbered
  owner := by
    rw [hr.exits, hr.id]
    exact h.owner
  owned := by
    rw [hr.exits, hr.tokens]
    exact h.owned
  attached := hr.exits ▸ h.attached
  bridges := by
    rw [hr.bridges, hr.exits]
    exact h.bridges
  code := by
    obtain ⟨blocks, hp, ht⟩ := h.code
    rw [hr.tokens, hr.bridges]
    exact ⟨blocks, hp, (hr.code blocks ht).1⟩

theorem Restored.keeps (h : Restored M start g g') : Keeps g.exits g'.exits := by
  rw [h.exits]
  exact fun _ _ hb => hb

namespace Accounted

theorem getElem?_index (h : Accounted M start loaded g) (hx : x ∈ g.exits) :
    g.exits[x.index]? = some x := by
  obtain ⟨k, hk, rfl⟩ := getElem_of_mem hx
  have hin : (g.exits.map Exit.index)[k]? = some k := by
    rw [h.numbered, getElem?_range hk]
  rw [getElem?_map, getElem?_eq_getElem hk, Option.map_some, Option.some.injEq] at hin
  rw [hin]
  exact getElem?_eq_getElem hk

theorem loading_error (hM : M.Serves start 16) (hs : Short g (g.request r)) {e : Abort Error}
    (h : Loading t r g (.error e) g') : Restored M start g g' := by
  cases h with
  | failed hc =>
    refine ⟨rfl, rfl, rfl, rfl, rfl, ?_⟩
    rcases hc with rfl | ⟨res, supply, hg, rfl⟩
    · exact .refl _
    · refine sameCode_undone hM ?_ g.code
      exact hs _ _ hg

theorem bare (h : Accounted M start loaded g) (hx : x ∈ g.exits) (hs : x.site = some site)
    (hf : ¬ (x.hasBridge = true ∨ site.used = true)) : x.bridge = none := by
  refine Option.not_isSome_iff_eq_none.mp fun hso => hf (.inr ?_)
  obtain ⟨-, site', hs', hu⟩ := h.attached x hx hso
  cases hs.symm.trans hs'
  exact hu

theorem unattached (hM : M.Serves start 16) (hpr : Protects M) (h : Accounted M start [] g)
    (hx : x ∈ g.exits) (hs : Short g (g.request r)) (hsi : x.site = some site)
    (hlo : Loading t r g (.ok l) g1)
    (hp : redirect site target g1.code = (.error e, site', code)) :
    Restored M start g { g1 with
      exits := (g1.exits.modify x.index (.withSite site')).take
        ((g1.exits.modify x.index (.withSite site')).length - l.exits.length)
      code := code.deallocate l.block } := by
  obtain ⟨blocks, -, hti⟩ := h.code
  cases hlo with
  | @loaded res _ block code1 _ _ _ hg hc =>
    have hl : res.program.code.toList.length + 15 < 0x8000000000000000 := by
      exact hs _ _ hg
    have ht := hti.allocate hM (Int.dvd_refl 16) hl hc
    obtain ⟨rfl, rfl⟩ := redirect_error hpr ht hp
    refine ⟨rfl, rfl, ?_, rfl, rfl, ?_⟩
    · dsimp only
      rw [length_map, take_modify_append]
      obtain ⟨a, b, hsp, hm⟩ := exists_split (h.getElem?_index hx)
      rw [hm, hsp]
      congr 2
      cases x
      cases hsi
      rfl
    · have := sameCode_undone (M := M) hM hl g.code
      rwa [hc] at this

theorem enrolled_index (g : Engine μ) (t : Trace) (block : Block) (res : Lowering.Result) :
    (g.enrolled t block res).map Exit.index = range' g.exits.length (g.enrolled t block res).length := by
  unfold enrolled
  rw [map_map, length_map, length_zipIdx]
  exact zipIdx_map_snd _ _

theorem of_mem_enrolled (hx : x ∈ g.enrolled t block res) : x.owner = g.id ∧ x.bridge = none := by
  obtain ⟨_, -, rfl⟩ := mem_map.mp hx
  exact ⟨rfl, rfl⟩

theorem load (hM : M.Serves start 16) (h : Accounted M start [] g) (hs : Short g (g.request r))
    (hl : Loading t r g (.ok l) g1) : Accounted M start [l] g1 ∧ Keeps g.exits g1.exits := by
  obtain ⟨blocks, hp, ht⟩ := h.code
  cases hl with
  | @loaded res _ block code1 _ _ _ hg hc =>
    have hle : res.program.code.toList.length + 15 < 0x8000000000000000 := by
      exact hs _ _ hg
    have hin := enrolled_index g t block res
    have hn {x : Exit} (hx : x ∈ g.enrolled t block res) := of_mem_enrolled hx
    generalize g.enrolled t block res = new at hin hn ⊢
    have hr : range (g.exits ++ new).length =
        range g.exits.length ++ range' g.exits.length new.length := by
      rw [length_append, range_eq_range', range_eq_range', ← range'_append]
      simp
    have hba : new.flatMap Exit.bridgeExits = [] :=
      flatMap_eq_nil_iff.mpr fun x hx => by simp [Exit.bridgeExits, (hn hx).2]
    have hno : new.countP (·.bridge.isSome) = 0 := countP_eq_zero.mpr fun x hx => by simp [(hn hx).2]
    refine ⟨⟨h.idle, ?_, ?_, ?_, ?_, ?_, ?_⟩, ?_⟩
    · dsimp only
      rw [hr, map_append, h.numbered]
      exact congrArg _ hin
    · exact forall_mem_append.mpr ⟨h.owner, fun x hx => (hn hx).1⟩
    · dsimp only
      rw [hr, flatMap_append, hba, append_nil, flatMap_singleton]
      have := h.owned
      rw [flatMap_nil, append_nil] at this
      exact hin ▸ this.append_right _
    · refine forall_mem_append.mpr ⟨h.attached, fun x hx hb => ?_⟩
      rw [(hn hx).2] at hb
      cases hb
    · dsimp only
      rw [countP_append, hno, h.bridges, Nat.add_zero]
    · refine ⟨block :: blocks, ?_, ht.allocate hM (Int.dvd_refl 16) hle hc⟩
      rw [map_nil, append_nil] at hp
      exact (hp.cons block).trans (perm_append_singleton _ _).symm
    · intro i b hb
      obtain ⟨x, hx, hxb⟩ := Option.bind_eq_some_iff.mp hb
      have hi := (List.getElem_of_getElem? hx).1
      refine Option.bind_eq_some_iff.mpr ⟨x, ?_, hxb⟩
      rw [getElem?_append_left hi, hx]

theorem loop (h : Accounted M start [l] g) (installed : Eval.Linked)
    (hb : token.block = l.block) (he : token.exits = l.exits) :
    Accounted M start [] { g with tokens := g.tokens ++ [token], installed } := by
  obtain ⟨blocks, hp, ht⟩ := h.code
  refine ⟨h.idle, h.numbered, h.owner, ?_, h.attached, h.bridges, blocks, hp.trans ?_, ht⟩
  · refine Perm.trans ?_ h.owned
    simp only [flatMap_append, flatMap_singleton, flatMap_nil, append_nil, he, append_assoc]
    exact perm_append_comm.append_left _
  · simp only [map_append, map_cons, map_nil, append_nil, hb, append_assoc]
    exact perm_append_comm.append_left _

theorem attach (h : Accounted M start [l] g) (hx : x ∈ g.exits) (hb : x.bridge = none)
    (hg : x.isFinish = false) (hu : site.used = true)
    (hco : ∀ blocks, Tiled M start 16 g.code blocks → Tiled M start 16 code blocks)
    (installed : Eval.Linked) (log : List Log.Record) (activities : List Activity) :
    Accounted M start [] { g with
      code, installed, log, activities
      exits := g.exits.modify x.index (.withBridge site (target, l.exits))
      bridges := g.bridges ++ [l.block] } := by
  obtain ⟨blocks, hp, ht⟩ := h.code
  have hma := map_modify_of_eq (f := .withBridge site (target, l.exits)) (F := Exit.index) (fun _ => rfl)
    g.exits x.index
  obtain ⟨a, b, hs, hm⟩ := exists_split (h.getElem?_index hx)
  have ho := h.owned
  have hc := h.bridges
  rw [hs] at ho hc
  refine ⟨h.idle, ?_, ?_, ?_, ?_, ?_, blocks, ?_, hco blocks ht⟩
  · dsimp only
    rw [length_modify, hma, h.numbered]
  · dsimp only
    rw [hm]
    exact forall_mem_replace (x := x) (hs ▸ h.owner) fun hx => hx
  · have hx : x.bridgeExits = [] := by rw [Exit.bridgeExits, hb]; rfl
    have hn : (x.withBridge site (target, l.exits)).bridgeExits = l.exits := rfl
    rw [length_modify, hm, hs]
    refine Perm.trans ?_ ho
    simp only [flatMap_append, flatMap_cons, flatMap_nil, append_nil, hx, hn, nil_append, append_assoc]
    exact (perm_append_comm.append_left _).append_left _
  · dsimp only
    rw [hm]
    exact forall_mem_replace (hs ▸ h.attached) fun _ _ => ⟨hg, site, rfl, hu⟩
  · dsimp only
    rw [hm]
    simp [Exit.withBridge, hb] at hc ⊢
    omega
  · dsimp only
    rwa [map_nil, append_nil, ← append_assoc]

end Accounted

theorem keeps_modify {exits : List Exit} {f : Exit → Exit}
    (hf : ∀ x, exits[i]? = some x → x.bridge = none ∨ (f x).bridge = x.bridge) :
    Keeps exits (exits.modify i f) := by
  intro k b hb
  obtain ⟨x, hx, hxb⟩ := Option.bind_eq_some_iff.mp hb
  rw [getElem?_modify, hx]
  by_cases hk : i = k
  · subst hk
    rcases hf x hx with hn | hs
    · rw [hn] at hxb
      cases hxb
    · simpa [hs] using hxb
  · simpa [hk] using hxb

theorem Accounted.count (h : Accounted M start loaded g) (hx : x ∈ g.exits) (frame : FrameState)
    (activities : List Activity) : Accounted M start loaded { g with
      frame, activities, executing := false
      exits := g.exits.set x.index { x with failures := x.failures + 1 } } := by
  obtain ⟨a, b, hs, hm⟩ := exists_split (h.getElem?_index hx)
  have hse (y : Exit) : g.exits.set x.index y = a ++ y :: b := (set_eq_modify ..).trans (hm _)
  obtain ⟨-, h1, h2, h3, h4, h5, h6⟩ := h
  rw [hs] at h1 h2 h3 h4 h5
  refine ⟨rfl, ?_, ?_, ?_, ?_, ?_, h6⟩
  all_goals
    rw [hse]
  · simpa using h1
  · exact forall_mem_replace (x := x) h2 fun hx => hx
  · simpa [Exit.bridgeExits] using h3
  · exact forall_mem_replace (x := x) h4 fun hx => hx
  · simpa [countP_cons] using h5

/-! ## Sequences of calls -/

inductive Call : Engine μ → Engine μ → Prop
  | compileTrace {g g' : Engine μ} {t : Trace} {x : Except (Abort Error) Token}
      (hshort : Short g (g.loopRequest t)) (hrun : (compileTrace t).run g = (x, g')) : Call g g'
  | compileBridge {g g' : Engine μ} {exit : Option Exit} {t : Trace} {x : Except (Abort Error) Unit}
      (hshort : ∀ y ∈ g.exits, Short g (g.bridgeRequest y (bridgeTrace y t)))
      (hrun : (compileBridge exit t).run g = (x, g')) : Call g g'
  | setValue {g g' : Engine μ} {i : Int} {k : Kind} {w : Word} {x : Except (Abort Error) Unit}
      (hrun : (setValue i k w).run g = (x, g')) : Call g g'
  | execute {g : Engine μ} {ω : Type} (s : Surroundings μ ω) (token : Option Token) (world : ω) :
      Call g (execute s token world g).2.1

theorem compileTrace_accounted (hM : M.Serves start 16) (h : Accounted M start [] g)
    (hs : Short g (g.loopRequest t)) {y : Except (Abort Error) Token}
    (hru : (compileTrace t).run g = (y, g')) :
    Accounted M start [] g' ∧ Keeps g.exits g'.exits ∧ ∀ e, y = .error e → Restored M start g g' := by
  cases run_compileTrace hru with
  | failed hl =>
    have hr := Accounted.loading_error hM hs hl
    exact ⟨hr.accounted h, hr.keeps, fun _ _ => hr⟩
  | installed hl hin hb hei =>
    obtain ⟨h₁, hk⟩ := h.load hM hs hl
    exact ⟨h₁.loop _ hb hei, hk, fun _ he => by cases he⟩

theorem compileBridge_accounted (hM : M.Serves start 16) (hpr : Protects M)
    (h : Accounted M start [] g) {exit : Option Exit}
    (hs : ∀ y ∈ g.exits, Short g (g.bridgeRequest y (bridgeTrace y t)))
    {y : Except (Abort Error) Unit} (hru : (compileBridge exit t).run g = (y, g')) :
    Accounted M start [] g' ∧ Keeps g.exits g'.exits ∧ ∀ e, y = .error e → Restored M start g g' := by
  have hre (hr : Restored M start g g') : Accounted M start [] g' ∧ Keeps g.exits g'.exits ∧
      ∀ e, y = .error e → Restored M start g g' := ⟨hr.accounted h, hr.keeps, fun _ _ => hr⟩
  cases run_compileBridge hru with
  | refused => exact hre ⟨rfl, rfl, rfl, rfl, rfl, .refl _⟩
  | failed hx hl => exact hre (Accounted.loading_error hM (hs _ hx) hl)
  | unattached hx hsi hl hp =>
    exact hre (Accounted.unattached hM hpr h hx (hs _ hx) hsi hl hp)
  | attached _ hx hsi hg hf hl hp =>
    have hx := mem_of_getElem? hx
    obtain ⟨h₁, hk⟩ := h.load hM (hs _ hx) hl
    obtain ⟨blocks1, -, ht⟩ := h₁.code
    have hx1 := hl.exits_subset hx
    have hba := h.bare hx hsi hf
    refine ⟨h₁.attach hx1 hba hg (redirect_ok ht hp).1
      (fun _ hti => (redirect_ok hti hp).2) .., fun i b hb => ?_, fun _ he => by cases he⟩
    refine keeps_modify (fun y hy => ?_) i b (hk i b hb)
    rw [h₁.getElem?_index hx1] at hy
    cases hy
    exact .inl hba

theorem execute_accounted (h : Accounted M start [] g) (hr : Executing g g') :
    Accounted M start [] g' ∧ Keeps g.exits g'.exits := by
  cases hr with
  | refused =>
    exact ⟨⟨h.idle, h.numbered, h.owner, h.owned, h.attached, h.bridges, h.code⟩, fun _ _ hb => hb⟩
  | done he =>
    rcases he with rfl | ⟨x, hx, rfl⟩
    · exact ⟨⟨rfl, h.numbered, h.owner, h.owned, h.attached, h.bridges, h.code⟩, fun _ _ hb => hb⟩
    · refine ⟨h.count hx _ _, ?_⟩
      rw [set_eq_modify]
      refine keeps_modify fun y hy => ?_
      rw [h.getElem?_index hx] at hy
      cases hy
      exact .inr rfl

theorem Call.accounted (hM : M.Serves start 16) (hp : Protects M) (h : Accounted M start [] g)
    (hc : Call g g') : Accounted M start [] g' ∧ Keeps g.exits g'.exits := by
  cases hc with
  | compileTrace hs hr =>
    obtain ⟨h', hk, -⟩ := compileTrace_accounted hM h hs hr
    exact ⟨h', hk⟩
  | compileBridge hs hr =>
    obtain ⟨h', hk, -⟩ := compileBridge_accounted hM hp h hs hr
    exact ⟨h', hk⟩
  | setValue hr =>
    cases run_setValue hr <;>
    exact ⟨⟨h.idle, h.numbered, h.owner, h.owned, h.attached, h.bridges, h.code⟩, fun _ _ hb => hb⟩
  | execute s token world => exact execute_accounted h (run_execute s token world g)

theorem calls_accounted (hM : M.Serves start 16) (hp : Protects M) (h : Accounted M start [] g)
    (hc : Relation.ReflTransGen Call g g') : Accounted M start [] g' ∧ Keeps g.exits g'.exits := by
  induction hc with
  | refl => exact ⟨h, fun _ _ hb => hb⟩
  | tail _ hca ih =>
    obtain ⟨h', hk⟩ := hca.accounted hM hp ih.1
    exact ⟨h', fun i b hb => hk i b (ih.2 i b hb)⟩

def Fresh (M : Mapper μ) (start : μ) (g : Engine μ) : Prop :=
  ∃ id settings malloc barrier words g₀, Engine.new id settings malloc barrier M start words = .ok g₀ ∧
    ∃ generator supply, g = { g₀ with generator, supply }

theorem Fresh.accounted (h : Fresh M start g) : Accounted M start [] g := by
  obtain ⟨id, settings, malloc, barrier, words, g₀, hne, generator, supply, rfl⟩ := h
  obtain ⟨_, -, hg⟩ := bind_eq_ok.mp hne
  cases hg
  have hn {P : Exit → Prop} : ∀ x ∈ ([] : List Exit), P x := fun _ hx => absurd hx not_mem_nil
  exact ⟨rfl, rfl, hn, .nil, hn, rfl, [], .nil, CodeMemory.tiled_new ..⟩

def installedBlocks (g : Engine μ) : List Block := g.tokens.map Token.block ++ g.bridges

/-- What is installed is as it was, down to the bytes of the code. -/
structure Unchanged (g g' : Engine μ) : Prop where
  exits : g'.exits = g.exits
  tokens : g'.tokens = g.tokens
  bridges : g'.bridges = g.bridges
  inUse : g'.code.stats.inUse = g.code.stats.inUse
  code : ∀ b ∈ g.installedBlocks, g'.code.read b.addr b.size = g.code.read b.addr b.size

theorem Accounted.tiled (h : Accounted M start [] g) :
    ∃ blocks, blocks.Perm g.installedBlocks ∧ Tiled M start 16 g.code blocks := by
  have := h.code
  rwa [map_nil, append_nil] at this

theorem Restored.unchanged (h : Accounted M start [] g) (hr : Restored M start g g') : Unchanged g g' := by
  obtain ⟨blocks, hp, ht⟩ := h.tiled
  obtain ⟨ht', hre⟩ := hr.code blocks ht
  exact ⟨hr.exits, hr.tokens, hr.bridges, ht'.inUse.trans ht.inUse.symm,
    fun b hb => hre b (hp.mem_iff.mpr hb)⟩

theorem Accounted.refuses (h : Accounted M start [] g) (hb : g.exits[i]?.bind Exit.bridge = some b)
    (ho : x.owner = g.id) (hin : x.index = i) (t : Trace) : ∃ y, g.exits[i]? = some y ∧
      (compileBridge (some x) t).run g = (.error (.error (.bridgeAttached y.text)), g) := by
  obtain ⟨y, hy, hyb⟩ := Option.bind_eq_some_iff.mp hb
  obtain ⟨hg, site, hs, hu⟩ := h.attached y (mem_of_getElem? hy) (by simp [hyb])
  refine ⟨y, hy, ?_⟩
  have hid : (notExecuting : EngineM μ Unit).run g = (.ok (), g) := by
    rw [notExecuting, run_get_bind, h.idle]
    rfl
  have hf : (liftM (require (some y) : Except (Abort Error) Exit) : EngineM μ Exit).run g =
    (.ok y, g) := rfl
  unfold compileBridge
  rw [run_seq hid, run_get_bind]
  dsimp only
  rw [if_neg (not_not_intro ho), hin, hy, run_seq hf, hs]
  dsimp only
  rw [hg, if_neg Bool.false_ne_true, if_pos (.inr hu)]
  rfl

/-- Over any sequence of calls, exits are numbered by their places, every exit belongs to one loop or one
attached bridge, the code in use is that of the loops and attached bridges, and bridges stay where they are
attached. -/
theorem calls_keep_accounts (hpos : 0 < M.pageSize) (hpage : 16 ∣ M.pageSize) (hM : M.Lawful start)
    (hprot : Protects M) {g₀ : Engine μ} (hnew : Fresh M start g₀)
    (hcalls : Relation.ReflTransGen Call g₀ g) :
    (∀ (i : Nat) (x : Exit), g.exits[i]? = some x → x.index = i ∧ x.owner = g.id) ∧
      (g.tokens.flatMap Token.exits ++ g.exits.flatMap Exit.bridgeExits).Perm
        (List.range g.exits.length) ∧
      g.bridges.length = g.exits.countP (·.bridge.isSome) ∧
      g.code.stats.inUse = wrap64 (Span.total (g.installedBlocks.map Block.span)) ∧
      (∀ g' (i : Nat) b, Relation.ReflTransGen Call g g' → g.exits[i]?.bind Exit.bridge = some b →
        g'.exits[i]?.bind Exit.bridge = some b ∧ ∀ (x : Exit) t, x.owner = g'.id → x.index = i →
          ∃ y, g'.exits[i]? = some y ∧
            (compileBridge (some x) t).run g' = (.error (.error (.bridgeAttached y.text)), g')) ∧
      (∀ t e g', Short g (g.loopRequest t) → (compileTrace t).run g = (.error e, g') →
        Unchanged g g') ∧
      ∀ exit t e g', (∀ x ∈ g.exits, Short g (g.bridgeRequest x (bridgeTrace x t))) →
        (compileBridge exit t).run g = (.error e, g') → Unchanged g g' := by
  have hserves := hM.serves hpos hpage
  obtain ⟨h, -⟩ := calls_accounted hserves hprot hnew.accounted hcalls
  obtain ⟨blocks, hperm, htiled⟩ := h.tiled
  refine ⟨fun i x hx => ?_, ?_, h.bridges, ?_, fun g' i b hcalls' hb => ?_, fun t e g' hshort hrun => ?_,
    fun exit t e g' hshort hrun => ?_⟩
  · have hmem := List.mem_of_getElem? hx
    have hplace : (g.exits.map Exit.index)[i]? = some x.index := by
      rw [List.getElem?_map, hx]
      rfl
    rw [h.numbered, List.getElem?_range (List.getElem?_eq_some_iff.mp hx).1] at hplace
    exact ⟨(Option.some.inj hplace).symm, h.owner x hmem⟩
  · have := h.owned
    rwa [List.flatMap_nil, List.append_nil] at this
  · exact htiled.inUse.trans (congrArg wrap64 (Span.total_perm (hperm.map _)))
  · obtain ⟨h', hkeeps⟩ := calls_accounted hserves hprot h hcalls'
    exact ⟨hkeeps i b hb, fun x t howner hindex => h'.refuses (hkeeps i b hb) howner hindex t⟩
  · exact ((compileTrace_accounted hserves h hshort hrun).2.2 e rfl).unchanged h
  · exact ((compileBridge_accounted hserves hprot h hshort hrun).2.2 e rfl).unchanged h

def oneChunk : Mapper Bool where
  pageSize := 16
  map n mapped :=
    if n = 512 ∧ mapped = false then (.ok ⟨0x10000, 512, #[]⟩, true) else (.error "full", mapped)
  unmap _ _ p := (.ok (), p)
  protect _ _ _ p := (.ok (), p)

theorem oneChunk_lawful : oneChunk.Lawful false := by
  have hs {mapped : Bool} {spans : List Span} (h : oneChunk.Served false mapped spans) :
      mapped = false → spans = [] := by
    induction h with
    | start => exact fun _ => rfl
    | mapped _ h _ =>
      simp only [oneChunk] at h
      split at h <;> cases h
      exact nofun
    | refused _ h ih =>
      simp only [oneChunk] at h
      split at h <;> cases h
      exact ih
    | guarded _ h ih =>
      cases h
      exact ih
  refine ⟨fun {p p' spans n r} h hm => ?_⟩
  simp only [oneChunk] at hm
  split at hm
  · rename_i hn
    cases hm
    rw [hs h hn.2]
    exact ⟨hn.1.symm, by decide, by decide, nofun⟩
  · cases hm

def unused : Engine Bool :=
  { id := 0, settings := { codeChunkSize := 512 }, generator := Lowering.compile
    hooks := callbackHooks false false, code := CodeMemory.new oneChunk false 512, supply := ⟨5⟩ }

def looped : Engine Bool := ((compileTrace Lowering.countdown).run unused).2

theorem short_of_eval (h : (g.generator r g.supply).1.toOption.map
    (fun res => decide (res.program.code.size + 15 < 0x8000000000000000)) = some true) : Short g r := by
  obtain ⟨res, supply, hr, hs⟩ := exists_ok_of_map h
  intro res' supply' hr'
  cases hr.symm.trans hr'
  exact of_decide_eq_true hs

theorem calls_keep_accounts_bridged : ∃ g : Engine Bool, g.exits.length = 3 ∧ g.bridges.length = 1 ∧
    g.code.stats.inUse = 304 ∧
    (g.tokens.flatMap Token.exits ++ g.exits.flatMap Exit.bridgeExits).Perm [0, 1, 2] ∧
    ∀ t, ∃ y : Exit, (compileBridge g.exits[0]? t).run g =
      (.error (.error (.bridgeAttached y.text)), g) := by
  have hfresh : Fresh oneChunk false unused :=
    ⟨0, { codeChunkSize := 512 }, false, false, {}, _, rfl, Lowering.compile, ⟨5⟩, rfl⟩
  have hloop : Call unused looped :=
    .compileTrace (short_of_eval (by decide +kernel)) (run_eq_of_fst rfl)
  have hbridge : Call looped ((compileBridge looped.exits.head? Lowering.sequel).run looped).2 := by
    refine .compileBridge (fun y hy => short_of_eval ?_) (run_eq_of_fst rfl)
    revert y
    decide +kernel
  have hend : ∃ g, ((compileBridge looped.exits.head? Lowering.sequel).run looped).2 = g ∧
      g.exits.length = 3 ∧ g.bridges.length = 1 ∧
      Span.total (g.installedBlocks.map Block.span) = 304 ∧
      g.exits[0]?.bind Exit.bridge = some (0x100A0, [1, 2]) := ⟨_, rfl, by decide +kernel⟩
  obtain ⟨g, hg, hlen, hbridges, htotal, hattached⟩ := hend
  rw [hg] at hbridge
  obtain ⟨hplaces, howned, -, hinUse, hkept, -, -⟩ := calls_keep_accounts (by decide) (by decide)
    oneChunk_lawful (fun _ _ _ _ _ _ h => (congrArg Prod.fst h).symm) hfresh
    ((Relation.ReflTransGen.single hloop).tail hbridge)
  rw [htotal] at hinUse
  rw [hlen] at howned
  refine ⟨g, hlen, hbridges, hinUse, howned, fun t => ?_⟩
  obtain ⟨x, hx, -⟩ := Option.bind_eq_some_iff.mp hattached
  obtain ⟨hindex, howner⟩ := hplaces 0 x hx
  obtain ⟨y, -, hrun⟩ := (hkept g 0 _ .refl hattached).2 x t howner hindex
  rw [hx]
  exact ⟨y, hrun⟩

end TraceCompiler.Engine
