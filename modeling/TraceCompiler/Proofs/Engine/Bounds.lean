import TraceCompiler.Engine.Compile
import TraceCompiler.Engine.Execute
import TraceCompiler.Proofs.Lowering.HandOver

/-! # What the operations of an engine do

A trace that is loaded adds its exits to the table and raises the bounds on slots and values; one that is
refused leaves what is installed as it was, and what was taken of code memory is given back (`Loading`).
-/

namespace TraceCompiler.Engine

open Lowering (Request Result)

variable {μ ω α : Type} {g g' g1 g2 : Engine μ} {t : Trace} {r : Request}
  {x y : Except (Abort Error) Unit} {e : Abort Error} {l : Loaded} {exit : Option Exit}
  {exits : List Exit}

def request (g : Engine μ) (r : Request) : Request :=
  { r with
    firstExit := g.exits.length, hooks := g.hooks
    limits := ⟨g.settings.maxInts, g.settings.maxFloats, g.settings.debugChecks⟩ }

theorem onCode_cases {op : CodeMemory.CodeM μ α} {x : Except (Abort Error) α}
    (h : (onCode op f).run g = (x, g')) :
    (∃ e e' code, x = .error e ∧ op.run g.code = (.error e', code) ∧ g' = { g with code }) ∨
      ∃ a code, x = .ok a ∧ op.run g.code = (.ok a, code) ∧ g' = { g with code } := by
  unfold onCode at h
  rw [run_get_bind] at h
  rcases hr : op.run g.code with ⟨e | a, code⟩
  all_goals
    rw [hr] at h
    cases h
  · exact .inl ⟨_, e, code, rfl, rfl, rfl⟩
  · exact .inr ⟨a, code, rfl, rfl, rfl⟩

theorem generate_cases {x : Except (Abort Error) Result} (h : (generate r).run g = (x, g')) :
    (∃ e supply, x = .error e ∧ g' = { g with supply }) ∨
      ∃ res supply, x = .ok res ∧ g.generator r g.supply = (.ok res, supply) ∧ g' = { g with supply } := by
  unfold generate at h
  rw [run_get_bind] at h
  rcases hr : g.generator r g.supply with ⟨e | res, supply⟩
  all_goals
    rw [hr] at h
    cases h
  · exact .inl ⟨_, supply, rfl, rfl⟩
  · exact .inr ⟨res, supply, rfl, rfl, rfl⟩

def undone : Except (Abort CodeMemory.Error) Block × CodeMemory μ → CodeMemory μ
  | (.ok b, m) => m.deallocate b
  | (.error _, m) => m

inductive Loading (t : Trace) (r : Request) (g : Engine μ) :
    Except (Abort Error) Loaded → Engine μ → Prop
  | failed {e : Abort Error} {supply : BoxSupply} {code : CodeMemory μ} {activities : List Activity}
      (hcode : code = g.code ∨ ∃ res supply', g.generator (g.request r) g.supply = (.ok res, supply') ∧
        code = undone ((CodeMemory.allocate res.program.code.toList).run g.code)) :
      Loading t r g (.error e) { g with supply, code, activities }
  | loaded {res : Result} {supply : BoxSupply} {block : Block} {code : CodeMemory μ}
      {log : List Log.Record} {activities : List Activity} (hvalid : t.validate = .ok ())
      (hgen : g.generator (g.request r) g.supply = (.ok res, supply))
      (hcode : (CodeMemory.allocate res.program.code.toList).run g.code = (.ok block, code)) :
      Loading t r g (.ok ⟨res, block, (g.enrolled t block res).map (·.index)⟩) { g with
        supply, code, log, activities
        exits := g.exits ++ g.enrolled t block res
        maxDepth := max g.maxDepth res.frameDepth
        maxValues := max g.maxValues res.maxValues }

theorem Loading.refl : Loading t r g (.error e) g := .failed (.inl rfl)

theorem Loading.exits_subset (h : Loading t r g (.ok l) g') : g.exits ⊆ g'.exits := by
  cases h
  exact List.subset_append_left _ _

theorem run_load {x : Except (Abort Error) Loaded} (h : (load t r).run g = (x, g')) :
    Loading t r g x g' := by
  unfold load at h
  rw [run_get_bind] at h
  dsimp only at h
  split at h
  · cases h
    exact .refl
  cases hv : t.validate with
  | error e =>
    rw [hv] at h
    cases h
    exact .refl
  | ok _ =>
    rw [hv] at h
    dsimp only at h
    rw [run_seq (show (note Activity.compile).run g = (.ok (), _) from rfl)] at h
    rcases run_bind_cases h with ⟨e, hr, rfl⟩ | ⟨res, g1, hr, h1⟩
    · obtain ⟨_, supply, -, rfl⟩ | ⟨_, _, ⟨⟩, _⟩ := generate_cases hr
      exact .failed (.inl rfl)
    obtain ⟨_, _, ⟨⟩, _⟩ | ⟨_, supply, ⟨⟩, hg, rfl⟩ := generate_cases hr
    rcases run_bind_cases h1 with ⟨e, hr, rfl⟩ | ⟨block, g1, hr, h2⟩
    · obtain ⟨_, e', code, -, hc, rfl⟩ | ⟨_, _, ⟨⟩, _⟩ := onCode_cases hr
      exact .failed (.inr ⟨res, supply, hg, (congrArg undone hc).symm⟩)
    obtain ⟨_, _, _, ⟨⟩, _⟩ | ⟨_, code, ⟨⟩, hc, rfl⟩ := onCode_cases hr
    rw [run_seq (show (note Activity.load).run _ = (.ok (), _) from rfl)] at h2
    split at h2
    · cases h2
      exact .failed (.inr ⟨res, supply, hg, (congrArg undone hc).symm⟩)
    · cases h2
      exact .loaded hv hg hc

/-! ## Loops and bridges -/

theorem notExecuting_same (h : (notExecuting : EngineM μ Unit).run g = (x, g')) : g' = g := by
  unfold notExecuting at h
  rw [run_get_bind] at h
  split at h <;> cases h <;> rfl

theorem require_cases {v : Option α} {x : Except (Abort Error) α}
    (h : (liftM (require v : Except (Abort Error) α) : EngineM μ α).run g = (x, g')) :
    g' = g ∧ ((∃ e, x = .error e) ∨ ∃ a, x = .ok a ∧ v = some a) := by
  cases v with
  | none =>
    cases h
    exact ⟨rfl, .inl ⟨_, rfl⟩⟩
  | some a =>
    cases h
    exact ⟨rfl, .inr ⟨a, rfl, rfl⟩⟩

/-- The token of a loop before it is compiled, by which its jumps know it. -/
def pending (g : Engine μ) (t : Trace) : Token :=
  { (default : Token) with
    name := t.name, owner := g.id, number := g.tokens.length, kinds := t.inputKinds?.getD []
    trace := g.installed.traces.length }

def loopRequest (g : Engine μ) (t : Trace) : Request :=
  g.request { trace := some t, self := some (g.pending t).descr }

abbrev LoadingLoop (t : Trace) (g : Engine μ) : Except (Abort Error) Loaded → Engine μ → Prop :=
  Loading t { trace := some t, self := some (g.pending t).descr } g

inductive Looping (t : Trace) (g : Engine μ) : Except (Abort Error) Token → Engine μ → Prop
  | failed {e : Abort Error} {g' : Engine μ}
      (h : LoadingLoop t g (.error e) g') :
      Looping t g (.error e) g'
  | installed {l : Loaded} {g1 : Engine μ} {token : Token} {installed : Eval.Linked}
      (h : LoadingLoop t g (.ok l) g1)
      (hinputs : token.locations = l.result.inputs) (hblock : token.block = l.block)
      (hexits : token.exits = l.exits) (htraces : installed.traces = g1.installed.traces ++ [t]) :
      Looping t g (.ok token) { g1 with tokens := g1.tokens ++ [token], installed }

theorem run_compileTrace {x : Except (Abort Error) Token} (h : (compileTrace t).run g = (x, g')) :
    Looping t g x g' := by
  unfold compileTrace at h
  rcases run_bind_cases h with ⟨e, hr, rfl⟩ | ⟨_, g1, hr, h1⟩
  · cases notExecuting_same hr
    exact .failed .refl
  cases notExecuting_same hr
  rcases run_bind_cases h1 with ⟨e, hr, rfl⟩ | ⟨kinds, g1, hr, h2⟩
  · cases (require_cases hr).1
    exact .failed .refl
  obtain ⟨rfl, ⟨_, ⟨⟩⟩ | ⟨_, ⟨⟩, hk⟩⟩ := require_cases hr
  rw [run_get_bind] at h2
  have hs : { (default : Token) with
      name := t.name, owner := g1.id, number := g1.tokens.length, kinds
      trace := g1.installed.traces.length } = g1.pending t := by
    rw [pending, hk]
    rfl
  dsimp only at h2
  rw [hs] at h2
  rcases run_bind_cases h2 with ⟨e, hl, rfl⟩ | ⟨l, g2, hl, h3⟩
  · exact .failed (run_load hl)
  · cases h3
    exact .installed (run_load hl) rfl rfl rfl rfl

theorem forIn_same {β : Type} {l : List α} {b : β} {f : α → β → EngineM μ (ForInStep β)}
    (hf : ∀ a ∈ l, ∀ b, ∀ x g', (f a b).run g = (x, g') → g' = g) {x : Except (Abort Error) β}
    (h : (forIn l b f).run g = (x, g')) : g' = g := by
  induction l generalizing b with
  | nil =>
    cases h
    rfl
  | cons a l ih =>
    obtain ⟨ha, hl⟩ := List.forall_mem_cons.mp hf
    rw [List.forIn_cons] at h
    rcases run_bind_cases h with ⟨e, hr, -⟩ | ⟨step, g1, hr, h1⟩
    · exact ha b _ _ hr
    cases ha b _ _ hr
    cases step with
    | done b =>
      cases h1
      rfl
    | yield b => exact ih hl h1

theorem checkBridgeInputs_same (h : (checkBridgeInputs inputs kinds).run g = (x, g')) : g' = g := by
  unfold checkBridgeInputs at h
  dsimp only at h
  split at h
  · cases h
    rfl
  · rcases run_bind_cases h with ⟨e, hr, -⟩ | ⟨_, g1, hr, ⟨⟩⟩
    all_goals
      refine forIn_same (fun a _ b y g' hy => ?_) hr
      split at hy
      · cases hy
        rfl
      · split at hy <;> cases hy <;> rfl

def bridgeRequest (g : Engine μ) (x : Exit) (t : Trace) : Request :=
  g.request { trace := some t, entry := .bridge x.slots, frameStart := x.frameDepth }

def bridgeTrace (x : Exit) (t : Trace) : Trace := { t with name := "bridge" ++ toString x.index }

abbrev LoadingBridge (x : Exit) (t : Trace) (g : Engine μ) : Except (Abort Error) Loaded → Engine μ → Prop :=
  Loading (bridgeTrace x t)
    { trace := some (bridgeTrace x t), entry := .bridge x.slots, frameStart := x.frameDepth } g

def redirect (site : Machine.PatchSite) (target : Word) (m : CodeMemory μ) :
    Except (Machine.PatchError (Abort CodeMemory.Error)) Unit × Machine.PatchSite × CodeMemory μ :=
  site.patch target (fun addr bs m => (CodeMemory.write addr bs).run m) m

def Exit.withSite (site : Machine.PatchSite) (x : Exit) : Exit := { x with site := some site }

def Exit.withBridge (site : Machine.PatchSite) (bridge : Word × List Nat) (x : Exit) : Exit :=
  { x with site := some site, bridge := some bridge }

inductive Bridging (exit : Option Exit) (t : Trace) (g : Engine μ) :
    Except (Abort Error) Unit → Engine μ → Prop
  | refused {e : Abort Error} : Bridging exit t g (.error e) g
  | failed {x : Exit} {e : Abort Error} {g' : Engine μ} (hx : x ∈ g.exits)
      (h : LoadingBridge x t g (.error e) g') : Bridging exit t g (.error e) g'
  | unattached {x : Exit} {site site' : Machine.PatchSite} {l : Loaded} {g1 : Engine μ}
      {e : Abort Error} {e' : Machine.PatchError (Abort CodeMemory.Error)} {code : CodeMemory μ}
      (hx : x ∈ g.exits) (hsite : x.site = some site)
      (h : LoadingBridge x t g (.ok l) g1)
      (hpatch : redirect site (l.address l.result.body) g1.code = (.error e', site', code)) :
      Bridging exit t g (.error e) { g1 with
        exits := (g1.exits.modify x.index (.withSite site')).take
          ((g1.exits.modify x.index (.withSite site')).length - l.exits.length)
        code := code.deallocate l.block }
  | attached {x0 x : Exit} {site site' : Machine.PatchSite} {l : Loaded} {g1 : Engine μ}
      {code : CodeMemory μ} {installed : Eval.Linked} {log : List Log.Record}
      {activities : List Activity} (hexit : exit = some x0) (hx : g.exits[x0.index]? = some x)
      (hsite : x.site = some site) (hguard : x.isFinish = false)
      (hfree : ¬ (x.hasBridge = true ∨ site.used = true))
      (h : LoadingBridge x t g (.ok l) g1)
      (hpatch : redirect site (l.address l.result.body) g1.code = (.ok (), site', code))
      (htraces : installed.traces = g1.installed.traces ++ [bridgeTrace x t]) :
      Bridging exit t g (.ok ()) { g1 with
        code, installed, log, activities
        exits := g1.exits.modify x.index (.withBridge site' (l.address l.result.body, l.exits))
        bridges := g1.bridges ++ [l.block] }

theorem run_patch {x : Exit} {site : Machine.PatchSite} {target : Word}
    {y : Except (Abort Error) (Except (Machine.PatchError (Abort CodeMemory.Error)) Machine.PatchSite)}
    (h : (patch x site target).run g = (y, g')) : ∃ z site' code,
      redirect site target g.code = (z, site', code) ∧ y = .ok (z.map fun _ => site') ∧
        g' = { g with code, exits := g.exits.modify x.index (.withSite site') } := by
  unfold patch at h
  rw [run_get_bind] at h
  cases h
  exact ⟨_, _, _, rfl, rfl, rfl⟩

theorem run_compileBridge (h : (compileBridge exit t).run g = (y, g')) : Bridging exit t g y g' := by
  unfold compileBridge at h
  rcases run_bind_cases h with ⟨e, hr, rfl⟩ | ⟨_, g1, hr, h1⟩
  · cases notExecuting_same hr
    exact .refused
  cases notExecuting_same hr
  rw [run_get_bind] at h1
  cases exit with
  | none =>
    cases h1
    exact .refused
  | some x0 =>
    dsimp only at h1
    split at h1
    · cases h1
      exact .refused
    rcases run_bind_cases h1 with ⟨e, hr, rfl⟩ | ⟨x, g1, hr, h2⟩
    · cases (require_cases hr).1
      exact .refused
    obtain ⟨rfl, ⟨_, ⟨⟩⟩ | ⟨_, ⟨⟩, hx⟩⟩ := require_cases hr
    cases hs : x.site with
    | none =>
      rw [hs] at h2
      cases h2
      exact .refused
    | some site =>
      rw [hs] at h2
      dsimp only at h2
      split at h2
      · cases h2
        exact .refused
      rename_i hg
      split at h2
      · cases h2
        exact .refused
      rename_i hf
      rcases run_bind_cases h2 with ⟨e, hr, rfl⟩ | ⟨_, g2, hr, h3⟩
      · cases checkBridgeInputs_same hr
        exact .refused
      cases checkBridgeInputs_same hr
      rcases run_bind_cases h3 with ⟨e, hl, rfl⟩ | ⟨l, g2, hl, h4⟩
      · exact .failed (List.mem_of_getElem? hx) (run_load hl)
      rcases run_bind_cases h4 with ⟨e, hr, rfl⟩ | ⟨z, g3, hr, h5⟩
      · obtain ⟨_, _, _, _, ⟨⟩, _⟩ := run_patch hr
      obtain ⟨z, site', code, hp, ⟨⟩, rfl⟩ := run_patch hr
      cases z with
      | error e =>
        dsimp only [Except.map] at h5
        split at h5
        all_goals
          cases h5
          exact .unattached (List.mem_of_getElem? hx) hs (run_load hl) hp
      | ok _ =>
        cases h5
        dsimp only
        rw [List.modify_modify_eq]
        exact .attached rfl hx hs (Bool.eq_false_iff.mpr hg) hf (run_load hl) hp rfl

/-! ## Executions -/

theorem leave_cases (s : Surroundings μ ω) (x : Exit) (w : Watched ω) (g : Engine μ) :
    (leave s x w g).1.kinds = x.kinds ∧ ((leave s x w g).2.2 = g ∨
      (leave s x w g).2.2 = { g with exits := g.exits.set x.index { x with failures := x.failures + 1 } }) := by
  unfold leave
  split
  · exact ⟨rfl, .inl rfl⟩
  · dsimp only
    split <;> exact ⟨rfl, .inr rfl⟩

/-- The frame when a loop is entered, with room for all that is compiled. -/
def reserve (g : Engine μ) : Except (Abort ValueError) Unit × FrameState :=
  (FrameState.reserve g.maxDepth g.maxValues).run g.frame

def opened (g : Engine μ) : Engine μ :=
  { g with frame := g.reserve.2, executing := true, activities := .execute :: g.activities }

/-- What is asked of an engine before it enters the code of a loop. -/
structure Enters (g : Engine μ) (t : Token) : Prop where
  idle : g.executing = false
  opened : g.closed = false
  inputs : g.frame.checkInputs t.kinds = .ok ()
  room : g.reserve.1 = .ok ()

/-- How an execution ends: it is refused, finds no room, breaks off in the code or in a callback, or
leaves through an exit. -/
inductive Execution (s : Surroundings μ ω) (token : Option Token) (world : ω) (g : Engine μ) :
    Except (Abort Error) Exit × Engine μ × ω → Prop
  | refused {e : Abort Error} (he : ∀ c m, e ≠ .error (.callback c m)) :
      Execution s token world g (.error e, g, world)
  | cramped {e : Abort ValueError} (hroom : g.reserve.1 = .error e) :
      Execution s token world g (.error (e.map .value), { g with frame := g.reserve.2 }, world)
  | stuck {t : Token} {world' : ω} (ht : token = some t) (henters : g.Enters t) :
      Execution s token world g (.error .missing, { g.opened with executing := false }, world')
  | ended {t : Token} {o : Eval.Outcome} {x y : Exit} {exits : List Exit} {world' : ω}
      {r : Except (Abort Error) Exit} {frame : FrameState} (ht : token = some t) (henters : g.Enters t)
      (hrun : (enter g.opened s t world).1 = .ok o) (hx : g.exitOf? o = some x)
      (hexits : exits = g.exits ∨
        ∃ x ∈ g.exits, exits = g.exits.set x.index { x with failures := x.failures + 1 })
      (hy : y.kinds = x.kinds) (hend : (∃ c m, r = .error (.error (.callback c m))) ∧
        frame = g.opened.frame.store o.values ∨ r = .ok y ∧ frame = (g.opened.frame.store o.values).settle y.kinds) :
      Execution s token world g (r, { g.opened with exits, frame, executing := false }, world')

theorem execution (s : Surroundings μ ω) (token : Option Token) (world : ω) (g : Engine μ) :
    Execution s token world g (execute s token world g) := by
  unfold execute
  cases token with
  | none => exact .refused (by simp)
  | some t =>
    dsimp only
    split
    · exact .refused (by simp)
    split
    · exact .refused (by simp)
    rename_i hid
    split
    · exact .refused (by simp)
    rename_i hop
    split
    · exact .refused (by simp)
    rename_i hin
    rcases hroom : (FrameState.reserve g.maxDepth g.maxValues).run g.frame with ⟨e | _, frame⟩
    · have hc : Execution s (some t) world g _ := .cramped (e := e) (congrArg Prod.fst hroom)
      rwa [reserve, hroom] at hc
    obtain rfl : frame = g.reserve.2 := (congrArg Prod.snd hroom).symm
    have he : g.Enters t :=
      ⟨Bool.eq_false_iff.mpr hid, Bool.eq_false_iff.mpr hop, hin, congrArg Prod.fst hroom⟩
    dsimp only
    split
    · exact .stuck rfl he
    · rename_i o x hfo
      obtain ⟨o', hru, ho⟩ := Option.bind_eq_some_iff.mp hfo
      obtain ⟨_, hf, ⟨⟩⟩ := Option.map_eq_some_iff.mp ho
      have hru : (enter g.opened s t world).1 = .ok o := by
        change (enter g.opened s t world).1.toOption = some o at hru
        cases hr : (enter g.opened s t world).1 with
        | error e => rw [hr] at hru; cases hru
        | ok _ => rw [hr] at hru; cases hru; rfl
      let g1 : Engine μ :=
        { g with frame := g.reserve.2, executing := true, activities := .execute :: g.activities }
      have hl := leave_cases s x (enter g1 s t world).2 g1
      generalize leave s x _ _ = left at hl ⊢
      obtain ⟨y, w, g2⟩ := left
      obtain ⟨hk, hl⟩ := hl
      have hx := List.mem_of_find?_eq_some hf
      rcases hl with rfl | rfl
      · split
        · exact .ended rfl he hru hf (.inl rfl) hk (.inl ⟨⟨_, _, rfl⟩, rfl⟩)
        · exact .ended rfl he hru hf (.inl rfl) hk (.inr ⟨rfl, rfl⟩)
      · split
        · exact .ended rfl he hru hf (.inr ⟨x, hx, rfl⟩) hk (.inl ⟨⟨_, _, rfl⟩, rfl⟩)
        · exact .ended rfl he hru hf (.inr ⟨x, hx, rfl⟩) hk (.inr ⟨rfl, rfl⟩)

inductive Executing (g : Engine μ) : Engine μ → Prop
  | refused {frame : FrameState} : Executing g { g with frame }
  | done {frame : FrameState} {activities : List Activity} {exits : List Exit}
      (hexits : exits = g.exits ∨
        ∃ x ∈ g.exits, exits = g.exits.set x.index { x with failures := x.failures + 1 }) :
      Executing g { g with frame, activities, exits, executing := false }

theorem run_execute (s : Surroundings μ ω) (token : Option Token) (world : ω) (g : Engine μ) :
    Executing g (execute s token world g).2.1 := by
  have h := execution s token world g
  generalize execute s token world g = out at h
  cases h with
  | refused => exact .refused
  | cramped => exact .refused
  | stuck => exact .done (.inl rfl)
  | ended _ _ _ _ he => exact .done he

inductive Setting (i : Int) (k : Kind) (w : Word) (g : Engine μ) : Except (Abort Error) Unit → Engine μ → Prop
  | refused {e : Abort Error} : Setting i k w g (.error e) g
  | failed {r : Except (Abort ValueError) Unit} {frame : FrameState} {e : Abort Error}
      (hset : (FrameState.set i k w).run g.frame = (r, frame)) (hopen : g.closed = false → ∃ e, r = .error e) :
      Setting i k w g (.error e) { g with frame }
  | done {frame : FrameState} (hset : (FrameState.set i k w).run g.frame = (.ok (), frame)) :
      Setting i k w g (.ok ()) { g with frame }

theorem run_setValue (h : (setValue i k w).run g = (x, g')) : Setting i k w g x g' := by
  unfold setValue at h
  rcases run_bind_cases h with ⟨e, hr, rfl⟩ | ⟨_, g1, hr, h1⟩
  · cases notExecuting_same hr
    exact .refused
  cases notExecuting_same hr
  rw [run_get_bind] at h1
  rcases hs : (FrameState.set i k w).run g.frame with ⟨e | _, frame⟩
  all_goals
    rw [hs] at h1
  · cases h1
    exact .failed hs fun _ => ⟨e, rfl⟩
  · change ExceptT.run (m := StateM (Engine μ)) (if _ then throw Abort.missing else pure ()) { g with frame } = _ at h1
    split at h1 <;> cases h1
    · rename_i hcl
      exact .failed hs fun hc => absurd hcl (by simp [hc])
    · exact .done hs

theorem run_close (h : (close : EngineM μ Unit).run g = (x, g')) :
    ∃ code closed, g' = { g with code, closed } := by
  unfold close at h
  rw [run_get_bind] at h
  split at h
  · cases h
    exact ⟨_, _, rfl⟩
  · rcases run_bind_cases h with ⟨e, hr, rfl⟩ | ⟨_, g1, hr, h1⟩
    · cases notExecuting_same hr
      exact ⟨_, _, rfl⟩
    cases notExecuting_same hr
    obtain ⟨_, _, code, -, -, rfl⟩ | ⟨_, code, -, -, rfl⟩ := onCode_cases h1
    all_goals exact ⟨code, true, rfl⟩

/-! ## What stays within the bounds -/

/-- Two exits that leave the same slots. -/
structure Exit.Alike (x : Exit) (slots : List Slot) (depth : Int) : Prop where
  slots : x.slots = slots
  frameDepth : x.frameDepth = depth

structure Quiet (g g' : Engine μ) : Prop where
  generator : g'.generator = g.generator
  exits : ∀ x ∈ g'.exits, ∃ y ∈ g.exits, x.Alike y.slots y.frameDepth
  tokens : g'.tokens = g.tokens
  bridges : g'.bridges = g.bridges
  maxDepth : g.maxDepth ≤ g'.maxDepth
  maxValues : g.maxValues ≤ g'.maxValues

theorem exists_alike : ∀ x ∈ exits, ∃ y ∈ exits, x.Alike y.slots y.frameDepth :=
  fun x hx => ⟨x, hx, rfl, rfl⟩

theorem Quiet.refl (g : Engine μ) : Quiet g g :=
  ⟨rfl, exists_alike, rfl, rfl, Int.le_refl _, Nat.le_refl _⟩

structure Gains (g g' : Engine μ) (res : Result) : Prop where
  generator : g'.generator = g.generator
  exits : ∀ x ∈ g'.exits, (∃ y ∈ g.exits, x.Alike y.slots y.frameDepth) ∨
    ∃ e ∈ res.exits, x.Alike e.slots e.frameDepth
  maxDepth : g'.maxDepth = max g.maxDepth res.frameDepth
  maxValues : g'.maxValues = max g.maxValues res.maxValues

theorem Loading.gains (h : Loading t r g (.ok l) g1) (hg : g2.generator = g1.generator)
    (hd : g2.maxDepth = g1.maxDepth) (hv : g2.maxValues = g1.maxValues)
    (he : ∀ x ∈ g2.exits, ∃ y ∈ g1.exits, x.Alike y.slots y.frameDepth) : Gains g g2 l.result := by
  cases h with
  | loaded hva hr hc =>
    refine ⟨hg, fun x hx => ?_, hd, hv⟩
    obtain ⟨y, hy, hxy⟩ := he x hx
    rcases List.mem_append.mp hy with hy | hy
    · exact .inl ⟨y, hy, hxy⟩
    · obtain ⟨⟨e, index⟩, hm, rfl⟩ := List.mem_map.mp hy
      obtain ⟨-, hlt, heq⟩ := List.mem_zipIdx hm
      exact .inr ⟨e, heq ▸ List.getElem_mem _, hxy⟩

theorem Loading.quiet (h : Loading t r g (.error e) g') : Quiet g g' := by
  cases h
  exact ⟨rfl, exists_alike, rfl, rfl, Int.le_refl _, Nat.le_refl _⟩

structure InstallsLoop (g g' : Engine μ) (t : Trace) (token : Token) (res : Result) : Prop
    extends Gains g g' res where
  valid : t.validate = .ok ()
  result : ∃ supply, g.generator (g.loopRequest t) g.supply = (.ok res, supply)
  tokens : g'.tokens = g.tokens ++ [token]
  bridges : g'.bridges = g.bridges
  locations : token.locations = res.inputs

theorem compileTrace_cases {x : Except (Abort Error) Token} (h : (compileTrace t).run g = (x, g')) :
    (∃ e, x = .error e ∧ Quiet g g') ∨ ∃ token res, x = .ok token ∧ InstallsLoop g g' t token res := by
  cases run_compileTrace h with
  | failed hl => exact .inl ⟨_, rfl, hl.quiet⟩
  | installed hl hin =>
    have hl' := hl
    cases hl with
    | loaded hv hr _ =>
      exact .inr ⟨_, _, rfl, hl'.gains rfl rfl rfl exists_alike, hv, ⟨_, hr⟩, rfl, rfl, hin⟩

structure InstallsBridge (g g' : Engine μ) (x : Exit) (t : Trace) (block : Block) (res : Result) :
    Prop extends Gains g g' res where
  valid : (bridgeTrace x t).validate = .ok ()
  result : ∃ supply, g.generator (g.bridgeRequest x (bridgeTrace x t)) g.supply = (.ok res, supply)
  tokens : g'.tokens = g.tokens
  bridges : g'.bridges = g.bridges ++ [block]

theorem mem_modify {l : List α} {i : Nat} {f : α → α} {a : α} (ha : a ∈ l.modify i f) :
    ∃ b ∈ l, a = b ∨ a = f b := by
  obtain ⟨k, hk, rfl⟩ := List.getElem_of_mem ha
  rw [List.length_modify] at hk
  refine ⟨l[k], List.getElem_mem hk, ?_⟩
  rw [List.getElem_modify]
  split
  · exact .inr rfl
  · exact .inl rfl

theorem exists_alike_modify {i : Nat} {f : Exit → Exit} {x : Exit} (hx : x ∈ exits.modify i f)
    (hf : ∀ x, (f x).Alike x.slots x.frameDepth) : ∃ y ∈ exits, x.Alike y.slots y.frameDepth := by
  obtain ⟨y, hy, rfl | rfl⟩ := mem_modify hx
  · exact ⟨x, hy, rfl, rfl⟩
  · exact ⟨y, hy, hf y⟩

theorem take_modify_append (l new : List α) (i : Nat) (f : α → α) :
    ((l ++ new).modify i f).take (((l ++ new).modify i f).length - new.length) = l.modify i f := by
  rw [List.length_modify, List.length_append, Nat.add_sub_cancel]
  apply List.ext_getElem?
  intro k
  rw [List.getElem?_take, List.getElem?_modify, List.getElem?_modify]
  split
  · rw [List.getElem?_append_left ‹_›]
  · rw [List.getElem?_eq_none (by omega)]
    rfl

theorem compileBridge_cases (h : (compileBridge exit t).run g = (y, g')) :
    (∃ e, y = .error e ∧ Quiet g g') ∨
      ∃ x0 x block res, y = .ok () ∧ exit = some x0 ∧ g.exits[x0.index]? = some x ∧
        InstallsBridge g g' x t block res := by
  cases run_compileBridge h with
  | refused => exact .inl ⟨_, rfl, .refl g⟩
  | failed _ hl => exact .inl ⟨_, rfl, hl.quiet⟩
  | unattached _ _ hl _ =>
    cases hl with
    | loaded _ _ _ =>
      refine .inl ⟨_, rfl, rfl, fun x hx => ?_, rfl, rfl, Int.le_max_left .., Nat.le_max_left ..⟩
      dsimp only at hx
      rw [List.length_map, take_modify_append] at hx
      exact exists_alike_modify hx fun _ => ⟨rfl, rfl⟩
  | attached he hx _ _ _ hl _ =>
    have hl' := hl
    cases hl with
    | loaded hv hr _ =>
      refine .inr ⟨_, _, _, _, rfl, he, hx, hl'.gains rfl rfl rfl fun x hx => ?_, hv, ⟨_, hr⟩, rfl, rfl⟩
      exact exists_alike_modify hx fun _ => ⟨rfl, rfl⟩

theorem execute_quiet (s : Surroundings μ ω) (token : Option Token) (world : ω) (g : Engine μ) :
    Quiet g (execute s token world g).2.1 := by
  have hr := run_execute s token world g
  generalize (execute s token world g).2.1 = g' at hr ⊢
  cases hr with
  | refused => exact ⟨rfl, exists_alike, rfl, rfl, Int.le_refl _, Nat.le_refl _⟩
  | done he =>
    refine ⟨rfl, fun y hy => ?_, rfl, rfl, Int.le_refl _, Nat.le_refl _⟩
    rcases he with rfl | ⟨x, hx, rfl⟩
    · exact exists_alike y hy
    · rcases List.mem_or_eq_of_mem_set hy with hy | rfl
      · exact exists_alike y hy
      · exact ⟨x, hx, rfl, rfl⟩

/-! ## The room for compiled code -/

open List
open Machine (Fragment Instr Mem Program)
open Lowering (Scope Within Touches traceScope givenSlots)

variable {res : Result} {code : List (Block × Result)}
  {supply supply' : BoxSupply} {x : Exit}

def reserved (g : Engine μ) : Scope where
  reads slot := 0 ≤ slot.index ∧ slot.index < g.maxDepth
  writes slot := 0 ≤ slot.index ∧ slot.index < g.maxDepth
  values j := j < g.maxValues

theorem reserved_le (hd : g.maxDepth ≤ g'.maxDepth) (hv : g.maxValues ≤ g'.maxValues) :
    g.reserved ≤ g'.reserved := ⟨fun _ h => ⟨h.1, h.2.trans_le hd⟩, fun _ h => ⟨h.1, h.2.trans_le hd⟩,
    fun _ h => h.trans_le hv⟩

/-! ## Sessions -/

/-- A trace that an engine can be asked to compile. -/
structure Admits (g : Engine μ) (own : Option Descr) (t : Trace) : Prop where
  made : Lowering.Made t g.supply
  demand : g.maxDepth + Lowering.slotDemand t < 0x4000000000000000
  jumps : ∀ op, some op ∈ t.ops → op.opcode = .jump → ∀ d, op.descr = some d →
    some d = own ∨ ∃ token ∈ g.tokens, d = token.descr

/-- An engine in use, with the code that it has installed and what that code was compiled to. -/
inductive Session : Engine μ → List (Block × Result) → Prop
  | new {id : Nat} {settings : Settings} {malloc barrier : Bool} {mapper : Mapper μ} {pages : μ}
      {words : WordMapper} {g : Engine μ}
      (h : Engine.new id settings malloc barrier mapper pages words = .ok g) : Session g []
  | boxes {g : Engine μ} {code : List (Block × Result)} (h : Session g code)
      (supply : BoxSupply) : Session { g with supply } code
  | loop {g g' : Engine μ} {code : List (Block × Result)} {t : Trace} {token : Token}
      {res : Result} (h : Session g code) (ht : Admits g (some (g.pending t).descr) t)
      (hrun : (compileTrace t).run g = (.ok token, g'))
      (hres : (g.generator (g.loopRequest t) g.supply).1 = .ok res) :
      Session g' (code ++ [(token.block, res)])
  | bridge {g g' : Engine μ} {code : List (Block × Result)} {t : Trace} {x0 x : Exit}
      {block : Block} {res : Result} (h : Session g code) (ht : Admits g none t)
      (hrun : (compileBridge (some x0) t).run g = (.ok (), g')) (hx : g.exits[x0.index]? = some x)
      (hblock : g'.bridges = g.bridges ++ [block])
      (hres : (g.generator (g.bridgeRequest x (bridgeTrace x t)) g.supply).1 = .ok res) :
      Session g' (code ++ [(block, res)])
  | refusedLoop {g g' : Engine μ} {code : List (Block × Result)} {t : Trace} {e : Abort Error}
      (h : Session g code) (hrun : (compileTrace t).run g = (.error e, g')) : Session g' code
  | refusedBridge {g g' : Engine μ} {code : List (Block × Result)} {t : Trace}
      {exit : Option Exit} {e : Abort Error} (h : Session g code)
      (hrun : (compileBridge exit t).run g = (.error e, g')) : Session g' code
  | execute {g : Engine μ} {code : List (Block × Result)} {ω : Type} (h : Session g code)
      (s : Surroundings μ ω) (token : Option Token) (world : ω) :
      Session (Engine.execute s token world g).2.1 code
  | setValue {g g' : Engine μ} {code : List (Block × Result)} {i : Int} {k : Kind} {w : Word}
      {x : Except (Abort Error) Unit} (h : Session g code)
      (hrun : (Engine.setValue i k w).run g = (x, g')) : Session g' code
  | close {g g' : Engine μ} {code : List (Block × Result)} {x : Except (Abort Error) Unit}
      (h : Session g code) (hrun : (Engine.close : EngineM μ Unit).run g = (x, g')) : Session g' code

structure Bounded (g : Engine μ) (code : List (Block × Result)) : Prop where
  generator : g.generator = Lowering.compile
  depth : 0 ≤ g.maxDepth
  exits : ∀ x ∈ g.exits, (0 ≤ x.frameDepth ∧ x.frameDepth ≤ g.maxDepth) ∧
    ∀ slot ∈ x.slots, 0 ≤ slot.index ∧ slot.index < x.frameDepth
  locations : ∀ token ∈ g.tokens, ∀ slot, .slot slot ∈ token.locations → g.reserved.reads slot
  loops : ∀ token ∈ g.tokens, ∃ res, (token.block, res) ∈ code
  bridges : ∀ b ∈ g.bridges, ∃ res, (b, res) ∈ code
  within : ∀ e ∈ code, ∃ f, Program.ofFragment f = .ok e.2.program ∧ Within g.reserved f.layout

namespace Bounded

theorem new {id : Nat} {settings : Settings} {malloc barrier : Bool} {mapper : Mapper μ} {pages : μ}
    {words : WordMapper} (h : Engine.new id settings malloc barrier mapper pages words = .ok g) :
    Bounded g [] := by
  unfold Engine.new at h
  obtain ⟨_, -, hg⟩ := bind_eq_ok.mp h
  cases hg
  constructor <;> simp

section

variable (h : Bounded g code)
include h

theorem quiet (hq : Quiet g g') : Bounded g' code where
  generator := hq.generator.trans h.generator
  depth := h.depth.trans hq.maxDepth
  exits x hx := by
    obtain ⟨y, hy, hxy⟩ := hq.exits x hx
    obtain ⟨⟨hlo, hhi⟩, hs⟩ := h.exits y hy
    rw [hxy.slots, hxy.frameDepth]
    exact ⟨⟨hlo, hhi.trans hq.maxDepth⟩, hs⟩
  locations token ht slot hsl :=
    (reserved_le hq.maxDepth hq.maxValues).1 slot (h.locations token (hq.tokens ▸ ht) slot hsl)
  loops := hq.tokens ▸ h.loops
  bridges := hq.bridges ▸ h.bridges
  within e he := by
    obtain ⟨f, hf, hw⟩ := h.within e he
    exact ⟨f, hf, hw.mono (reserved_le hq.maxDepth hq.maxValues)⟩

theorem install (hg : Gains g g' res)
    (hto : ∀ token ∈ g'.tokens, token ∈ g.tokens ∨ token.block = block ∧ token.locations = res.inputs)
    (hbr : ∀ b ∈ g'.bridges, b ∈ g.bridges ∨ b = block) (htr : r.trace = some t)
    (hv : t.validate = .ok ()) (hr : Lowering.compile r supply = (.ok res, supply'))
    (hm : Lowering.Made t supply) (hn : Lowering.Numbered r t)
    (hgi : ∀ slot ∈ givenSlots r, g.reserved.reads slot)
    (hju : ∀ op, some op ∈ t.ops → op.opcode = .jump → ∀ d, op.descr = some d →
      some d = r.self ∨ ∃ token ∈ g.tokens, d = token.descr) : Bounded g' (code ++ [(block, res)]) := by
  have hde : g.maxDepth ≤ g'.maxDepth := hg.maxDepth ▸ le_max_left ..
  have hde' : res.frameDepth ≤ g'.maxDepth := hg.maxDepth ▸ le_max_right ..
  have hle : g.reserved ≤ g'.reserved := reserved_le hde (hg.maxValues ▸ le_max_left ..)
  obtain ⟨bs, ops, s0, fin, hc⟩ := Lowering.compile_ok htr hv hr
  have hta := hc.exitTable hm hn
  have hsc : traceScope r res ≤ g'.reserved :=
    ⟨fun slot hs => hs.elim (fun hs => hle.1 slot (hgi slot hs))
        fun ⟨hlo, hhi⟩ => ⟨hn.start.trans hlo, hhi.trans_le hde'⟩,
      fun slot ⟨_, hlo, hhi⟩ => ⟨hn.start.trans hlo, hhi.trans_le hde'⟩,
      fun j hj => lt_of_lt_of_le hj (hg.maxValues ▸ le_max_right ..)⟩
  have hin (slot : Slot) (hs : .slot slot ∈ res.inputs) : g'.reserved.reads slot :=
    hsc.1 slot (hc.inputs_reads hm hn hs)
  have hne : (block, res) ∈ code ++ [(block, res)] := mem_append_right _ (mem_singleton_self _)
  constructor
  case generator => exact hg.generator.trans h.generator
  case depth => exact h.depth.trans hde
  case exits =>
    intro x hx
    rcases hg.exits x hx with ⟨y, hy, hxy⟩ | ⟨e, he, hxe⟩
    · obtain ⟨⟨hlo, hhi⟩, hsl⟩ := h.exits y hy
      rw [hxy.slots, hxy.frameDepth]
      exact ⟨⟨hlo, hhi.trans hde⟩, hsl⟩
    · obtain ⟨hlo, hhi⟩ := hta.depth e he
      obtain ⟨i, hi⟩ := mem_iff_getElem?.mp he
      obtain ⟨hlt, rfl⟩ := List.getElem_of_getElem? hi
      have hlt' : i < t.exits.length := hta.exits.length_eq ▸ hlt
      rw [hxe.slots, hxe.frameDepth]
      refine ⟨⟨hn.start.trans hlo, hhi.trans hde'⟩, fun slot hs => ⟨?_, ?_⟩⟩
      · rcases hta.fresh _ he slot hs with hs | hs
        · exact (hgi slot hs).1
        · exact hn.start.trans hs
      · exact (hta.exits.get hlt' hlt).below slot hs
  case locations =>
    intro token ht slot hs
    rcases hto token ht with ht | ⟨-, hl⟩
    · exact hle.1 slot (h.locations token ht slot hs)
    · exact hin slot (hl ▸ hs)
  case loops =>
    intro token ht
    rcases hto token ht with ht | ⟨rfl, -⟩
    · obtain ⟨res', hr'⟩ := h.loops token ht
      exact ⟨res', mem_append_left _ hr'⟩
    · exact ⟨res, hne⟩
  case bridges =>
    intro b hb
    rcases hbr b hb with hb | rfl
    · obtain ⟨res', hr'⟩ := h.bridges b hb
      exact ⟨res', mem_append_left _ hr'⟩
    · exact ⟨res, hne⟩
  case within =>
    intro e he
    rcases mem_append.mp he with he | he
    · obtain ⟨f, hf, hw⟩ := h.within e he
      exact ⟨f, hf, hw.mono hle⟩
    · cases mem_singleton.mp he
      refine ⟨fin.closed.fragment, hc.assembled.program, hc.within hm hn hsc
        (fun slot hs => ⟨hin slot hs, hin slot hs⟩)
        fun op hop ho hse c hco slot hs => ?_⟩
      -- a jump stores where an earlier loop takes its inputs
      cases hd : op.descr with
      | none =>
        rw [hd] at hco
        cases hco
      | some d =>
        obtain hd' | ⟨token, ht, rfl⟩ := hju op hop ho d hd
        · exact absurd (hd.trans hd') hse
        · rw [hd] at hco
          cases hco
          have := hle.1 slot (h.locations token ht slot hs)
          exact ⟨this, this⟩

theorem numbered_loop (ht : Admits g own t) : Lowering.Numbered (g.loopRequest t) t := by
  have := h.depth
  have := ht.demand
  refine ⟨Int.le_refl 0, ?_, fun _ he => by cases he⟩
  change (0 : Int) + _ < _
  omega

theorem loop (ht : Admits g (some (g.pending t).descr) t)
    (hi : InstallsLoop g g' t token res) : Bounded g' (code ++ [(token.block, res)]) := by
  obtain ⟨supply, hr⟩ := hi.result
  rw [h.generator] at hr
  refine h.install hi.toGains (fun token' hto => ?_) (fun b hb => .inl (hi.bridges ▸ hb)) rfl hi.valid
    hr ht.made (h.numbered_loop ht) nofun ht.jumps
  rw [hi.tokens] at hto
  rcases mem_append.mp hto with hto | hto
  · exact .inl hto
  · cases mem_singleton.mp hto
    exact .inr ⟨rfl, hi.locations⟩

theorem numbered_bridge (ht : Admits g own t) (hx : x ∈ g.exits) :
    Lowering.Numbered (g.bridgeRequest x (bridgeTrace x t)) (bridgeTrace x t) := by
  obtain ⟨⟨hlo, hhi⟩, hs⟩ := h.exits x hx
  have hd : g.maxDepth + Lowering.slotDemand (bridgeTrace x t) < _ := ht.demand
  refine ⟨hlo, ?_, fun _ he slot hsl => ?_⟩
  · change x.frameDepth + _ < _
    omega
  · cases he
    have := (hs slot hsl).2
    omega

theorem bridge (ht : Admits g none t) (hx : x ∈ g.exits)
    (hi : InstallsBridge g g' x t block res) : Bounded g' (code ++ [(block, res)]) := by
  obtain ⟨supply, hr⟩ := hi.result
  rw [h.generator] at hr
  obtain ⟨⟨hlo, hhi⟩, hs⟩ := h.exits x hx
  have hn := h.numbered_bridge ht hx
  refine h.install hi.toGains (fun token hto => .inl (hi.tokens ▸ hto)) (fun b hb => ?_) rfl hi.valid
    hr ⟨ht.made.inputs, ht.made.results⟩ hn
    (fun slot hsl => ⟨(hs slot hsl).1, (hs slot hsl).2.trans_le hhi⟩) ht.jumps
  rw [hi.bridges] at hb
  exact (mem_append.mp hb).imp_right mem_singleton.mp

end

end Bounded

theorem Session.bounded (h : Session g code) : Bounded g code := by
  induction h with
  | new h => exact .new h
  | boxes _ supply ih =>
    exact ih.quiet ⟨rfl, fun x hx => ⟨x, hx, rfl, rfl⟩, rfl, rfl, Int.le_refl _, Nat.le_refl _⟩
  | loop _ ht hr hre ih =>
    obtain ⟨_, ⟨⟩, _⟩ | ⟨_, res, ⟨⟩, hi⟩ := compileTrace_cases hr
    obtain ⟨supply, hre'⟩ := hi.result
    cases hre.symm.trans (congrArg Prod.fst hre')
    exact ih.loop ht hi
  | bridge _ ht hr hx hb hre ih =>
    obtain ⟨_, ⟨⟩, _⟩ | ⟨_, x, block, res, -, ⟨⟩, hx', hi⟩ := compileBridge_cases hr
    cases hx.symm.trans hx'
    obtain ⟨supply, hre'⟩ := hi.result
    cases hre.symm.trans (congrArg Prod.fst hre')
    cases append_cancel_left (hb.symm.trans hi.bridges)
    exact ih.bridge ht (mem_of_getElem? hx) hi
  | refusedLoop _ hr ih =>
    obtain ⟨_, -, hq⟩ | ⟨_, _, ⟨⟩, _⟩ := compileTrace_cases hr
    exact ih.quiet hq
  | refusedBridge _ hr ih =>
    obtain ⟨_, -, hq⟩ | ⟨_, _, _, _, ⟨⟩, _⟩ := compileBridge_cases hr
    exact ih.quiet hq
  | execute _ s token world ih => exact ih.quiet (execute_quiet s token world _)
  | setValue _ hr ih =>
    cases run_setValue hr <;> exact ih.quiet ⟨rfl, exists_alike, rfl, rfl, Int.le_refl _, Nat.le_refl _⟩
  | close _ hr ih =>
    obtain ⟨_, _, rfl⟩ := run_close hr
    exact ih.quiet ⟨rfl, exists_alike, rfl, rfl, Int.le_refl _, Nat.le_refl _⟩

/-! ## The room itself -/

/-- An operand that leads into the frame or into the value array stays in what is mapped of it. -/
structure Inside (f : FrameState) (m : Mem) : Prop where
  frame : m.base = some Lowering.framePointer → 0 ≤ m.disp ∧ m.disp + 8 ≤ 8 * f.words
  values : m.base = some Lowering.scratch → 0 ≤ m.disp ∧ m.disp + 8 ≤ 8 * f.values.size

namespace FrameState

variable {f f' : FrameState} {depth n : Int} {least : Nat} {put : Nat → FrameState → FrameState}
  {r : Except (Abort ValueError) Unit} {cause : String → ValueError}

theorem byteSize_of_le (h : n ≤ 0x2000000000000) : byteSize n = max n 1 * 8 :=
  wrap64_of_lt (by omega) (by omega)

theorem run_call {c : FrameState → Except String Unit} (h : (call c cause).run f = (r, f')) :
    f' = { f with calls := f.calls + 1 } := by
  unfold call at h
  rw [run_seq (show (getThe FrameState : FrameM FrameState).run f = (.ok f, f) from rfl),
    run_seq (run_modify _)] at h
  split at h <;> cases h <;> rfl

theorem run_replace (h : (replace n least cause put).run f = (r, f')) :
    (∃ e calls, r = .error e ∧ f' = { f with calls }) ∨ ∃ calls calls',
      f' = { put ((byteSize n).toNat / 8) { f with calls } with calls := calls' } := by
  unfold replace at h
  split at h
  · cases h
    exact .inl ⟨_, _, rfl, rfl⟩
  rcases run_bind_cases h with ⟨e, hr, rfl⟩ | ⟨_, f1, hr, h1⟩
  all_goals obtain rfl := run_call hr
  · exact .inl ⟨_, _, rfl, rfl⟩
  dsimp only at h1
  split at h1
  · cases h1
    exact .inl ⟨_, _, rfl, rfl⟩
  · exact .inr ⟨_, _, run_call (show ExceptT.run (call (fun s => s.mapper.unmap s.calls) .unmap)
      (put _ { f with calls := f.calls + 1 }) = _ from h1)⟩

theorem run_growFrame (h : (growFrame depth).run f = (r, f')) : ∃ words calls, f' = { f with words, calls } ∧
    (r = .ok () → 0 ≤ depth → depth ≤ 0xFFFFFFB → HeaderWord.count + depth ≤ words) := by
  have hc : HeaderWord.count = 5 := rfl
  have hw (h0 : 0 ≤ depth) (hd : depth ≤ 0xFFFFFFB) :
      wrap64 (HeaderWord.count + depth) = HeaderWord.count + depth := wrap64_of_lt (by omega) (by omega)
  unfold growFrame at h
  change ExceptT.run (m := StateM FrameState) (if _ then _ else pure ()) f = _ at h
  split at h
  · rcases run_replace h with ⟨e, calls, rfl, rfl⟩ | ⟨_, _, rfl⟩
    · exact ⟨_, _, rfl, nofun⟩
    · refine ⟨_, _, rfl, fun _ h0 hd => ?_⟩
      dsimp only
      rw [hw h0 hd, byteSize_of_le (by omega)]
      omega
  · cases h
    exact ⟨_, _, rfl, fun _ h0 hd => by have := hw h0 hd; omega⟩

theorem size_padded {α : Type} (a : Array α) (d : α) (n : Nat) : (padded a d n).size = max a.size n := by
  rw [padded, Array.size_append, Array.size_replicate]
  omega

theorem run_growValues (h : (growValues n).run f = (r, f')) : ∃ values calls, f' = { f with values, calls } ∧
    (n ≤ maxKinds → (r = .ok () → n ≤ values.size) ∧ ∀ (j : Nat) w, f.values[j]? = some w → values[j]? = some w) := by
  have hk : maxKinds = 0x1000000000000 := rfl
  unfold growValues at h
  change ExceptT.run (m := StateM FrameState) (if _ then _ else pure ()) f = _ at h
  split at h
  · rcases run_replace h with ⟨e, calls, rfl, rfl⟩ | ⟨_, _, rfl⟩
    · exact ⟨_, _, rfl, fun _ => ⟨nofun, fun _ _ hw => hw⟩⟩
    · refine ⟨_, _, rfl, fun hn => ?_⟩
      dsimp only
      rw [byteSize_of_le (by omega)]
      refine ⟨fun _ => by rw [size_padded]; omega, fun j w hw => ?_⟩
      obtain ⟨hj, -⟩ := Array.getElem?_eq_some_iff.mp hw
      rw [padded, Array.getElem?_append_left (by rw [Array.size_extract]; omega),
        Array.getElem?_extract_of_lt (by omega), ← hw, Array.getElem?_eq_getElem hj]
      simp only [Nat.zero_add]
  · cases h
    exact ⟨_, _, rfl, fun _ => ⟨fun _ => by omega, fun _ _ hw => hw⟩⟩

theorem getD_padded {α : Type} (a : Array α) (d : α) (n j : Nat) : (padded a d n).getD j d = a.getD j d := by
  rw [padded, Array.getD_eq_getD_getElem?, Array.getD_eq_getD_getElem?, Array.getElem?_append]
  split
  · rfl
  · rename_i hj
    rw [Array.getElem?_replicate, Array.getElem?_eq_none (Nat.le_of_not_lt hj)]
    split <;> rfl

theorem run_growKinds (h : (growKinds n).run f = (r, f')) : ∃ kinds, f' = { f with kinds } ∧
    (r = .ok () → n ≤ kinds.size) ∧ (f.kinds.size ≤ maxKinds → kinds.size ≤ maxKinds) ∧
      ∀ j, kinds.getD j .void = f.kindAt j := by
  unfold growKinds at h
  change ExceptT.run (m := StateM FrameState) (if _ then _ else pure ()) f = _ at h
  split at h
  · split at h <;> cases h
    · exact ⟨_, rfl, nofun, fun h => h, fun _ => rfl⟩
    · exact ⟨_, rfl, fun _ => by rw [size_padded]; omega, fun _ => by rw [size_padded]; omega,
        fun _ => getD_padded ..⟩
  · cases h
    exact ⟨_, rfl, fun _ => by omega, fun h => h, fun _ => rfl⟩

/-- What a reservation leaves: the room, when it is found, and, within bounds, all that is held. -/
structure Reserved (f : FrameState) (depth n : Int) (r : Except (Abort ValueError) Unit) (f' : FrameState) :
    Prop where
  side : f'.side = f.side
  words : r = .ok () → 0 ≤ depth → depth ≤ 0xFFFFFFB → HeaderWord.count + depth ≤ f'.words
  values : n ≤ maxKinds →
    (r = .ok () → n ≤ f'.values.size) ∧ ∀ (j : Nat) w, f.values[j]? = some w → f'.values[j]? = some w
  kinds : (r = .ok () → n ≤ f'.kinds.size) ∧ (f.kinds.size ≤ maxKinds → f'.kinds.size ≤ maxKinds) ∧
    ∀ j, f'.kindAt j = f.kindAt j

theorem run_reserve (h : (reserve depth n).run f = (r, f')) : Reserved f depth n r f' := by
  unfold reserve at h
  rcases run_bind_cases h with ⟨e, h1, rfl⟩ | ⟨_, f1, h1, h⟩
  all_goals obtain ⟨_, _, rfl, hf⟩ := run_growFrame h1
  · exact ⟨rfl, nofun, fun _ => ⟨nofun, fun _ _ hw => hw⟩, nofun, fun h => h, fun _ => rfl⟩
  rcases run_bind_cases h with ⟨e, h2, rfl⟩ | ⟨_, f2, h2, h⟩
  all_goals obtain ⟨_, _, rfl, hv⟩ := run_growValues h2
  · exact ⟨rfl, nofun, fun hn => ⟨nofun, (hv hn).2⟩, nofun, fun h => h, fun _ => rfl⟩
  obtain ⟨_, rfl, hk⟩ := run_growKinds h
  exact ⟨rfl, fun _ => hf rfl, fun hn => ⟨fun _ => (hv hn).1 rfl, (hv hn).2⟩, hk⟩

end FrameState

theorem reserve_reserved (g : Engine μ) :
    g.frame.Reserved g.maxDepth g.maxValues g.reserve.1 g.reserve.2 := FrameState.run_reserve rfl

theorem gpOperand_ne {r : Int} (h : r ∈ Lowering.gpOrder) :
    Lowering.gpOperand r ≠ Lowering.framePointer ∧ Lowering.gpOperand r ≠ Lowering.scratch := by
  revert r
  decide

theorem inside_of_touches (h : Touches slots g.reserved.values m)
    (hsl : ∀ s, slots s → 0 ≤ s.index ∧ s.index < g.maxDepth) (h0 : 0 ≤ g.maxDepth)
    (hd : g.maxDepth ≤ 0xFFFFFFB) (hv : g.maxValues ≤ 0x10000000) (hr : g.reserve.1 = .ok ()) :
    Inside g.reserve.2 m := by
  have hc : HeaderWord.count = 5 := rfl
  have hk : FrameState.maxKinds = 0x1000000000000 := rfl
  have hwo := g.reserve_reserved.words hr h0 hd
  have hsi := (g.reserve_reserved.values (by omega)).1 hr
  have hne : Lowering.framePointer ≠ Lowering.scratch := by decide
  cases h with
  | @slot s hs =>
    obtain ⟨hlo, hhi⟩ := hsl s hs
    refine ⟨fun _ => ?_, fun h => absurd (Option.some.inj h) hne⟩
    simp only [Lowering.slotMem, Mem.based, Slot.offset]
    rw [wordOffset_eq (by omega) (by omega)]
    omega
  | @value j hj =>
    refine ⟨fun h => absurd (Option.some.inj h).symm hne, fun _ => ?_⟩
    change j < g.maxValues at hj
    have ho : wrap32 (j * 8) = j * 8 := wordOffset_eq (by omega) (by omega)
    simp only [Lowering.valueMem, Mem.based, ho]
    omega
  | header w =>
    have hw : w.index < 5 := by cases w <;> decide
    refine ⟨fun _ => ?_, fun h => absurd (Option.some.inj h) hne⟩
    simp only [Lowering.headerMem, Mem.based, HeaderWord.offset_eq]
    omega
  | field hr d => exact ⟨fun h => absurd (Option.some.inj h) (gpOperand_ne hr).1,
      fun h => absurd (Option.some.inj h) (gpOperand_ne hr).2⟩
  | item hr _ _ d => exact ⟨fun h => absurd (Option.some.inj h) (gpOperand_ne hr).1,
      fun h => absurd (Option.some.inj h) (gpOperand_ne hr).2⟩

/-- In every session, all loops and bridges were compiled to code that keeps to the slots and values that
are reserved when a loop is entered. -/
theorem session_reserves (h : Session g code) :
    (∀ token ∈ g.tokens, ∃ res, (token.block, res) ∈ code) ∧
    (∀ b ∈ g.bridges, ∃ res, (b, res) ∈ code) ∧
    ∀ b res, (b, res) ∈ code → ∃ f, Program.ofFragment f = .ok res.program ∧
      Within g.reserved f.layout ∧
      (g.maxDepth ≤ 0xFFFFFFB → g.maxValues ≤ 0x10000000 → g.reserve.1 = .ok () → ∀ i, .instr i ∈ f.layout →
        ∀ m ∈ i.loads ++ i.stores, Inside g.reserve.2 m) := by
  have hb := h.bounded
  refine ⟨hb.loops, hb.bridges, fun b res he => ?_⟩
  obtain ⟨f, hf, hwithin⟩ := hb.within _ he
  refine ⟨f, hf, hwithin, fun hdepth hvalues hroom i hi m hm => ?_⟩
  rcases List.mem_append.mp hm with hm | hm
  · exact inside_of_touches ((hwithin i hi).loads m hm) (fun _ hs => hs) hb.depth hdepth hvalues hroom
  · exact inside_of_touches ((hwithin i hi).stores m hm) (fun _ hs => hs) hb.depth hdepth hvalues hroom

def onePlace : Mapper Unit where
  pageSize := 0x1000
  map n _ := (.ok ⟨0x10000, n.toNat, #[]⟩, ())
  unmap _ _ _ := (.ok (), ())
  protect _ _ _ _ := (.ok (), ())

def idle : Engine Unit :=
  { id := 0, settings := { codeChunkSize := 512 }, generator := Lowering.compile
    hooks := callbackHooks false false, code := CodeMemory.new onePlace () 512, supply := ⟨3⟩ }

/-- The engine with `countdown` installed, for the boxes of its bridge. -/
def counting : Engine Unit := { ((compileTrace Lowering.countdown).run idle).2 with supply := ⟨5⟩ }

theorem session_idle {token : Token} {g : Engine Unit} (ht : Admits idle (some (idle.pending t).descr) t)
    (hr : (compileTrace t).run idle = (.ok token, g)) : ∃ code, Session g code := by
  have hn : Engine.new 0 { codeChunkSize := 512 } false false onePlace () {} =
      .ok { idle with supply := {} } := rfl
  obtain ⟨_, ⟨⟩, _⟩ | ⟨_, res, ⟨⟩, hi⟩ := compileTrace_cases hr
  obtain ⟨supply, hre⟩ := hi.result
  exact ⟨_, .loop ((Session.new hn).boxes ⟨3⟩) ht hr (congrArg Prod.fst hre)⟩

theorem session_counting : ∃ code, Session counting code := by
  obtain ⟨token, g, hr, -⟩ := exists_ok_of_map (x := (compileTrace Lowering.countdown).run idle)
    (f := fun token => token.block) (v := ⟨0x10000, 160⟩) (by decide +kernel)
  obtain ⟨code, hs⟩ := session_idle ⟨⟨by simp [Lowering.countdown, idle], by simp [Lowering.countdown, idle]⟩,
    by decide, by simp [Lowering.countdown]⟩ hr
  rw [counting, hr]
  exact ⟨_, hs.boxes ⟨5⟩⟩

theorem session_reserves_counting : ∃ g : Engine Unit, g.maxDepth = 2 ∧ g.maxValues = 2 ∧
    g.tokens.length = 1 ∧ g.bridges.length = 1 ∧ ∀ b ∈ g.tokens.map Token.block ++ g.bridges,
      ∃ (res : Lowering.Result) (f : Fragment), Program.ofFragment f = .ok res.program ∧
        Within g.reserved f.layout ∧ g.reserve.1 = .ok () ∧
        ∀ i, .instr i ∈ f.layout → ∀ m ∈ i.loads ++ i.stores, Inside g.reserve.2 m := by
  obtain ⟨code, hcounting⟩ := session_counting
  obtain ⟨_, g, hrun, -⟩ := exists_ok_of_map
    (x := (compileBridge counting.exits.head? Lowering.sequel).run counting)
    (f := fun _ => ()) (v := ()) (by decide +kernel)
  have hg : g = ((compileBridge counting.exits.head? Lowering.sequel).run counting).2 := by rw [hrun]
  have hroom : g.maxDepth = 2 ∧ g.maxValues = 2 ∧ g.tokens.length = 1 ∧ g.bridges.length = 1 := by
    rw [hg]
    decide +kernel
  obtain ⟨_, _, hreserve, -⟩ := exists_ok_of_map
    (x := ((compileBridge counting.exits.head? Lowering.sequel).run counting).2.reserve)
    (f := fun _ => ()) (v := ()) (by decide +kernel)
  replace hreserve : g.reserve.1 = .ok () := by rw [hg, hreserve]
  obtain ⟨_, ⟨⟩, _⟩ | ⟨x0, x, block, res, -, hhead, hx, hi⟩ := compileBridge_cases hrun
  obtain ⟨supply, hres⟩ := hi.result
  rw [hhead] at hrun
  have hbridge := hcounting.bridge (t := Lowering.sequel)
    ⟨⟨by simp [Lowering.sequel, counting], by simp [Lowering.sequel, counting]⟩, by decide +kernel,
      by simp [Lowering.sequel]⟩ hrun hx hi.bridges (congrArg Prod.fst hres)
  obtain ⟨hloops, hbridges, hcode⟩ := session_reserves hbridge
  obtain ⟨hdepth, hvalues, hcounts⟩ := hroom
  refine ⟨g, hdepth, hvalues, hcounts.1, hcounts.2, fun b hb => ?_⟩
  obtain ⟨res, hmem⟩ : ∃ res', (b, res') ∈ code ++ [(block, res)] := by
    rcases List.mem_append.mp hb with hb | hb
    · obtain ⟨token, htoken, rfl⟩ := List.mem_map.mp hb
      exact hloops token htoken
    · exact hbridges b hb
  obtain ⟨f, hf, hwithin, hinside⟩ := hcode b res hmem
  exact ⟨res, f, hf, hwithin, hreserve, hinside (by omega) (by omega) hreserve⟩

end TraceCompiler.Engine
