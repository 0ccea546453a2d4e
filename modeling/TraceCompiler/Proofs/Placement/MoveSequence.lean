import Mathlib.Data.Set.Card
import Mathlib.Dynamics.PeriodicPts.Lemmas
import TraceCompiler.Placement.ParallelMove

/-! # Sequenced moves act like parallel ones

`Contents.moveAll` does moves one after the other on what the locations hold.
-/

namespace TraceCompiler

open List

abbrev Contents := Location → Word

namespace Contents

def read (σ : Contents) : Location → Word
  | .imm bits => bits
  | l => σ l

def move (σ : Contents) (m : Move) : Contents := Function.update σ m.dst (σ.read m.src)

def moveAll (σ : Contents) (ms : List Move) : Contents := ms.foldl move σ

variable {σ τ : Contents} {l : Location} {m : Move} {ms : List Move}

theorem read_of_isImm_false (h : l.isImm = false) : σ.read l = σ l := by
  cases l with
  | imm bits => cases h
  | _ => rfl

theorem read_congr (h : τ l = σ l) : τ.read l = σ.read l := by
  cases l with
  | imm bits => rfl
  | _ => exact h

@[simp] theorem move_dst (σ : Contents) (m : Move) : σ.move m m.dst = σ.read m.src :=
  Function.update_self ..

theorem move_of_ne (h : m.dst ≠ l) : σ.move m l = σ l := Function.update_of_ne (Ne.symm h) ..

theorem read_move_of_ne (h : m.dst ≠ l) : (σ.move m).read l = σ.read l := read_congr (move_of_ne h)

@[simp] theorem moveAll_nil (σ : Contents) : σ.moveAll [] = σ := rfl

@[simp] theorem moveAll_cons (σ : Contents) (m : Move) (ms : List Move) :
    σ.moveAll (m :: ms) = (σ.move m).moveAll ms := rfl

theorem moveAll_append (σ : Contents) (ms ns : List Move) :
    σ.moveAll (ms ++ ns) = (σ.moveAll ms).moveAll ns := foldl_append ..

theorem moveAll_of_ne (h : ∀ m ∈ ms, m.dst ≠ l) : σ.moveAll ms l = σ l := by
  induction ms generalizing σ with
  | nil => rfl
  | cons m ms ih =>
    rw [moveAll_cons, ih fun o ho => h o (mem_cons_of_mem _ ho)]
    exact move_of_ne (h m mem_cons_self)

/-- Moves of which none reads what an earlier one has written give every destination the word its
source held before the first of them. -/
theorem moveAll_dst (hnd : (ms.map Move.dst).Nodup)
    (hp : ms.Pairwise fun m o => o.src ≠ m.dst) : ∀ m ∈ ms, σ.moveAll ms m.dst = σ.read m.src := by
  induction ms generalizing σ with
  | nil => exact fun _ h => nomatch h
  | cons m ms ih =>
    obtain ⟨hm, hnd⟩ := nodup_cons.mp hnd
    obtain ⟨hf, hp⟩ := pairwise_cons.mp hp
    intro o ho
    rcases mem_cons.mp ho with rfl | ho
    · rw [moveAll_cons, moveAll_of_ne, move_dst]
      intro x hx he
      exact hm (he ▸ mem_map_of_mem hx)
    · rw [moveAll_cons, ih hnd hp o ho]
      exact read_move_of_ne (hf o ho).symm

end Contents

namespace Move

variable {scratch : Kind → Location} {dsts : List Location} {ms out pending : List Move} {m : Move}
  {kind : Kind}

/-- Done one by one from any contents, the moves of `out` do those of `ms` at once. -/
def Realizes (scratch : Kind → Location) (dsts : List Location) (ms out : List Move) : Prop :=
  ∀ σ : Contents, (∀ m ∈ ms, σ.moveAll out m.dst = σ.read m.src) ∧
    ∀ l, (∀ m ∈ ms, m.dst ≠ l) → (l ∈ dsts ∨ ∀ k, scratch k ≠ l) → σ.moveAll out l = σ l

theorem checkDestinations_spec (h : checkDestinations seen ms = .ok ()) :
    (ms.map dst).Nodup ∧ (∀ m ∈ ms, m.dst.isImm = false) ∧ ∀ m ∈ ms, m.dst ∉ seen := by
  induction ms generalizing seen with
  | nil => exact ⟨nodup_nil, nofun, nofun⟩
  | cons m ms ih =>
    unfold checkDestinations at h
    split at h
    · cases h
    · rename_i hi0
      split at h
      · cases h
      · rename_i hse
        obtain ⟨hnd, him, hn⟩ := ih h
        refine ⟨nodup_cons.mpr ⟨?_, hnd⟩, ?_, ?_⟩
        · intro hm
          obtain ⟨o, ho, he⟩ := mem_map.mp hm
          exact hn o ho (he ▸ mem_cons_self)
        · exact forall_mem_cons.mpr ⟨by simpa using hi0, him⟩
        · exact forall_mem_cons.mpr
            ⟨hse, fun o ho hs => hn o ho (mem_cons_of_mem _ hs)⟩

theorem takeReady_perm (kept ms : List Move) :
    ((takeReady kept ms).1 ++ (takeReady kept ms).2).Perm (kept ++ ms) := by
  induction ms generalizing kept with
  | nil => simp [takeReady]
  | cons m ms ih =>
    unfold takeReady
    split
    · simpa using ih (kept ++ [m])
    · exact ((ih kept).cons m).trans perm_middle.symm

theorem takeReady_pairwise (kept ms : List Move) :
    (takeReady kept ms).1.Pairwise (fun m o => o.src ≠ m.dst) ∧
      ∀ m ∈ (takeReady kept ms).1, ∀ o ∈ (takeReady kept ms).2, o.src ≠ m.dst := by
  induction ms generalizing kept with
  | nil => simp [takeReady]
  | cons m ms ih =>
    unfold takeReady
    split
    · exact ih (kept ++ [m])
    · rename_i hu
      have hf : ∀ o ∈ kept ++ ms, o.src ≠ m.dst := by
        intro o ho he
        apply hu
        refine any_eq_true.mpr ⟨o, ?_, by simpa using he⟩
        rcases mem_append.mp ho with h | h
        · exact mem_append_left _ h
        · exact mem_append_right _ (mem_cons_of_mem _ h)
      have hm {o : Move} (ho : o ∈ (takeReady kept ms).1 ++ (takeReady kept ms).2) :
          o.src ≠ m.dst := hf o ((takeReady_perm kept ms).mem_iff.mp ho)
      obtain ⟨hp, hl⟩ := ih kept
      refine ⟨pairwise_cons.mpr ⟨fun o ho => hm (mem_append_left _ ho), hp⟩, ?_⟩
      exact forall_mem_cons.mpr ⟨fun o ho => hm (mem_append_right _ ho), hl⟩

@[simp] theorem redirect_dst (parked tmp : Location) (m : Move) : (redirect parked tmp m).dst = m.dst := by
  unfold redirect
  split <;> rfl

theorem map_dst_redirect (parked tmp : Location) (ms : List Move) :
    (ms.map (redirect parked tmp)).map dst = ms.map dst := by
  simp [Function.comp_def]

/-- Once a word is parked and its place overwritten, redirected moves read what they read before. -/
theorem read_redirect {σ : Contents} {o : Move} {tmp : Location} (ht : tmp.isImm = false)
    (hne : m.dst ≠ tmp) (ho : o.src ≠ tmp) :
    ((σ.move ⟨m.dst, tmp, kind⟩).move m).read (redirect m.dst tmp o).src = σ.read o.src := by
  unfold redirect
  split
  · rename_i he
    rw [Contents.read_move_of_ne hne, Contents.read_of_isImm_false ht, he]
    exact Contents.move_dst σ ⟨m.dst, tmp, kind⟩
  · rename_i he
    rw [Contents.read_move_of_ne (Ne.symm he), Contents.read_move_of_ne (Ne.symm ho)]

/-- A pass that took some moves, followed by moves that realize those it left. -/
theorem Realizes.pass {kept rest : List Move} (hnd : (ms.map dst).Nodup)
    (hsu : ∀ m ∈ ms, m.dst ∈ dsts) (hpe : (kept ++ rest).Perm ms)
    (hp : kept.Pairwise fun m o => o.src ≠ m.dst)
    (hle : ∀ m ∈ kept, ∀ o ∈ rest, o.src ≠ m.dst) (h : Realizes scratch dsts rest out) :
    Realizes scratch dsts ms (kept ++ out) := by
  have hnd' : (kept.map dst ++ rest.map dst).Nodup := by
    rw [← map_append]
    exact (hpe.map dst).nodup_iff.mpr hnd
  obtain ⟨hke, _, hd⟩ := nodup_append.mp hnd'
  have hoh {m : Move} (hm : m ∈ kept) : ∀ o ∈ rest, o.dst ≠ m.dst := fun o ho he =>
    hd _ (mem_map_of_mem hm) _ (mem_map_of_mem ho) he.symm
  intro σ
  rw [Contents.moveAll_append]
  obtain ⟨hds, hf⟩ := h (σ.moveAll kept)
  refine ⟨fun m hm => ?_, fun l hl hs => ?_⟩
  · rcases mem_append.mp (hpe.mem_iff.mpr hm) with hk | hr
    · rw [hf m.dst (hoh hk) (.inl (hsu m hm))]
      exact Contents.moveAll_dst hke hp m hk
    · rw [hds m hr]
      exact Contents.read_congr (Contents.moveAll_of_ne fun o ho => (hle o ho m hr).symm)
  · rw [hf l (fun o ho => hl o (hpe.mem_iff.mp (mem_append_right _ ho))) hs]
    exact Contents.moveAll_of_ne fun o ho => hl o (hpe.mem_iff.mp (mem_append_left _ ho))

/-- Breaking a cycle: the destination of the first move is parked, the move is done, and the rest is
realized with its sources redirected. -/
theorem Realizes.park (hsc : ∀ k, (scratch k).isImm = false) (hnd : ((m :: ms).map dst).Nodup)
    (hsu : ∀ o ∈ m :: ms, o.dst ∈ dsts) (hn : scratch kind ∉ dsts)
    (hu : ∀ o ∈ m :: ms, o.src ≠ scratch kind)
    (h : Realizes scratch dsts (ms.map (redirect m.dst (scratch kind))) out) :
    Realizes scratch dsts (m :: ms) (⟨m.dst, scratch kind, kind⟩ :: m :: out) := by
  have hne {o : Move} (ho : o ∈ m :: ms) : o.dst ≠ scratch kind := fun he =>
    hn (he ▸ hsu o ho)
  have hm : m.dst ≠ scratch kind := hne mem_cons_self
  intro σ
  rw [Contents.moveAll_cons, Contents.moveAll_cons]
  obtain ⟨hd, hf⟩ := h ((σ.move ⟨m.dst, scratch kind, kind⟩).move m)
  refine ⟨forall_mem_cons.mpr ⟨?_, fun o ho => ?_⟩, fun l hl hs => ?_⟩
  · rw [hf m.dst ?_ (.inl (hsu m mem_cons_self)), Contents.move_dst]
    · exact Contents.read_move_of_ne (hu m mem_cons_self).symm
    · simp only [forall_mem_map, redirect_dst]
      intro o ho he
      exact (nodup_cons.mp hnd).1 (he ▸ mem_map_of_mem ho)
  · have hr := hd _ (mem_map_of_mem ho)
    rw [redirect_dst] at hr
    rw [hr]
    exact read_redirect (hsc kind) hm (hu o (mem_cons_of_mem _ ho))
  · have ht : scratch kind ≠ l := by
      rintro rfl
      rcases hs with hs | hs
      · exact hn hs
      · exact hs kind rfl
    rw [hf l ?_ hs, Contents.move_of_ne (hl m mem_cons_self), Contents.move_of_ne ht]
    simp only [forall_mem_map, redirect_dst]
    exact fun o ho => hl o (mem_cons_of_mem _ ho)

/-- Moves of which a pass takes none: each destination is read. -/
structure Stuck (ms : List Move) : Prop where
  nodup : (ms.map dst).Nodup
  read : ∀ m ∈ ms, ∃ o ∈ ms, o.src = m.dst

theorem read_of_takeReady (h : (kept ++ ms).length ≤ (takeReady kept ms).2.length) :
    ∀ m ∈ ms, ∃ o ∈ kept ++ ms, o.src = m.dst := by
  induction ms generalizing kept with
  | nil => exact nofun
  | cons m ms ih =>
    unfold takeReady at h
    split at h
    · rename_i hr
      rw [append_cons] at h
      obtain ⟨o, ho, he⟩ := any_eq_true.mp hr
      refine forall_mem_cons.mpr ⟨⟨o, ho, by simpa using he⟩, ?_⟩
      simpa using ih h
    · have := (takeReady_perm kept ms).length_eq
      simp at h this
      omega

/-- What `order` does, for moves with distinct destinations: a pass takes some moves, or all are
stuck, and a value is parked or cannot be. -/
theorem order_induct {motive : List Move → Except MoveError (List Move) → Prop} (nil : motive [] (.ok []))
    (pass : ∀ {ms kept rest res}, (ms.map dst).Nodup → (∀ m ∈ ms, m.dst ∈ dsts) →
      (kept ++ rest).Perm ms → kept.Pairwise (fun m o => o.src ≠ m.dst) →
      (∀ m ∈ kept, ∀ o ∈ rest, o.src ≠ m.dst) → motive rest res → motive ms ((kept ++ ·) <$> res))
    (refused : ∀ {m ms reader e}, Stuck (m :: ms) → (∀ o ∈ m :: ms, o.dst ∈ dsts) →
      reader ∈ m :: ms → scratch reader.kind = .unset ∨ scratch reader.kind ∈ dsts ∨
        (∃ o ∈ m :: ms, o.src = scratch reader.kind) → motive (m :: ms) (.error e))
    (park : ∀ {m ms kind res}, Stuck (m :: ms) → (∀ o ∈ m :: ms, o.dst ∈ dsts) →
      scratch kind ∉ dsts → (∀ o ∈ m :: ms, o.src ≠ scratch kind) →
      motive (ms.map (redirect m.dst (scratch kind))) res →
      motive (m :: ms) ((fun out => ⟨m.dst, scratch kind, kind⟩ :: m :: out) <$> res))
    (hnd : (pending.map dst).Nodup) (hsu : ∀ m ∈ pending, m.dst ∈ dsts) :
    motive pending (order scratch dsts pending) := by
  have hs {ms ready left : List Move} (hnd : (ms.map dst).Nodup)
      (h : takeReady [] ms = (ready, left)) (hlt : ¬ left.length < ms.length) : Stuck ms :=
    ⟨hnd, @read_of_takeReady ms [] (by simpa [h] using hlt)⟩
  fun_induction order scratch dsts pending with
  | case1 => exact nil
  | case2 m rest ready left hr hlt ih =>
    have hpe : (ready ++ left).Perm (m :: rest) := by
      simpa only [hr, nil_append] using takeReady_perm [] (m :: rest)
    obtain ⟨hp, hl⟩ := takeReady_pairwise [] (m :: rest)
    rw [hr] at hp hl
    have ha := (hpe.map dst).nodup_iff.mpr hnd
    rw [map_append] at ha
    exact pass hnd hsu hpe hp hl (ih (nodup_append.mp ha).2.1 fun o ho =>
      hsu o (hpe.mem_iff.mp (mem_append_right _ ho)))
  | case3 m rest ready left hr hlt hf =>
    obtain ⟨o, ho, he⟩ := (hs hnd hr hlt).read m mem_cons_self
    exact absurd (find?_eq_none.mp hf o ho) (by simpa using he)
  | case4 m rest ready left hr hlt reader hf tmp hun =>
    exact refused (hs hnd hr hlt) hsu (mem_of_find?_eq_some hf) (.inl hun)
  | case5 m rest ready left hr hlt reader hf tmp hse hus =>
    refine refused (hs hnd hr hlt) hsu (mem_of_find?_eq_some hf) (.inr ?_)
    simpa using hus
  | case6 m rest ready left hr hlt reader hf tmp hse hfr ih =>
    simp only [map_subtype, unattach_attach] at ih
    obtain ⟨hn, hu⟩ := not_or.mp hfr
    refine park (hs hnd hr hlt) hsu hn (by simpa using hu) (ih ?_ ?_)
    · rw [map_dst_redirect]
      exact (nodup_cons.mp hnd).2
    · simp only [forall_mem_map, redirect_dst]
      exact fun o ho => hsu o (mem_cons_of_mem _ ho)

private theorem exists_of_map_eq_ok {ε α β : Type} {f : α → β} {x : Except ε α} {b : β}
    (h : f <$> x = .ok b) : ∃ a, x = .ok a ∧ f a = b := by
  cases x with
  | error e => cases h
  | ok a =>
    cases h
    exact ⟨a, rfl, rfl⟩

theorem order_realizes (hs : ∀ k, (scratch k).isImm = false)
    (h : order scratch dsts pending = .ok out) (hnd : (pending.map dst).Nodup)
    (hsu : ∀ m ∈ pending, m.dst ∈ dsts) : Realizes scratch dsts pending out := by
  refine order_induct (motive := fun ms res => ∀ out, res = .ok out → Realizes scratch dsts ms out)
    ?_ ?_ nofun ?_ hnd hsu out h
  · rintro _ ⟨⟩
    exact fun σ => ⟨nofun, fun _ _ _ => rfl⟩
  · intro ms kept rest res hnd hsu hpe hp hl ih out h
    obtain ⟨tail, hr, rfl⟩ := exists_of_map_eq_ok h
    exact .pass hnd hsu hpe hp hl (ih tail hr)
  · intro m ms kind res hst hsu hn hu ih out h
    obtain ⟨tail, hr, rfl⟩ := exists_of_map_eq_ok h
    exact .park hs hst.nodup hsu hn hu (ih tail hr)

def between (ms : List Move) : List Move :=
  (ms.filter fun m => m.src ≠ m.dst).filter fun m => !m.src.isImm

def loads (ms : List Move) : List Move :=
  (ms.filter fun m => m.src ≠ m.dst).filter fun m => m.src.isImm

theorem mem_between : m ∈ between ms ↔ m ∈ ms ∧ m.src ≠ m.dst ∧ m.src.isImm = false := by
  simp [between, mem_filter, and_comm]

theorem mem_loads : m ∈ loads ms ↔ m ∈ ms ∧ m.src ≠ m.dst ∧ m.src.isImm = true := by
  simp [loads, mem_filter, and_comm]

theorem nodup_between (hnd : (ms.map dst).Nodup) : ((between ms).map dst).Nodup :=
  hnd.sublist ((filter_sublist.trans filter_sublist).map dst)

theorem nodup_loads (hnd : (ms.map dst).Nodup) : ((loads ms).map dst).Nodup :=
  hnd.sublist ((filter_sublist.trans filter_sublist).map dst)

theorem dst_mem_of_between : ∀ m ∈ between ms, m.dst ∈ ms.map dst := fun _ hm =>
  mem_map_of_mem (mem_between.mp hm).1

theorem order_all {P Q : Location → Prop} (hPQ : ∀ l, Q l → P l) (hs : ∀ k, Q (scratch k))
    (h : order scratch (ms.map dst) (between ms) = .ok out) (hnd : (ms.map dst).Nodup)
    (hp : ∀ m ∈ between ms, P m.src ∧ Q m.dst) : ∀ o ∈ out, P o.src ∧ Q o.dst := by
  refine order_induct (motive := fun ms res => ∀ out, res = .ok out →
    (∀ m ∈ ms, P m.src ∧ Q m.dst) → ∀ o ∈ out, P o.src ∧ Q o.dst) ?_ ?_ nofun ?_ (nodup_between hnd)
    dst_mem_of_between out h hp
  · rintro _ ⟨⟩ _
    exact nofun
  · intro ms kept rest res _ _ hpe _ _ ih out h hp o ho
    obtain ⟨tail, hr, rfl⟩ := exists_of_map_eq_ok h
    rcases mem_append.mp ho with ho | ho
    · exact hp o (hpe.mem_iff.mp (mem_append_left _ ho))
    · exact ih tail hr (fun o ho => hp o (hpe.mem_iff.mp (mem_append_right _ ho))) o ho
  · intro m ms kind res _ _ _ _ ih out h hp
    obtain ⟨tail, hr, rfl⟩ := exists_of_map_eq_ok h
    obtain ⟨hm, hms⟩ := forall_mem_cons.mp hp
    refine forall_mem_cons.mpr ⟨⟨hPQ _ hm.2, hs _⟩, forall_mem_cons.mpr ⟨hm, ?_⟩⟩
    refine ih tail hr ?_
    simp only [forall_mem_map, redirect_dst]
    refine fun o ho => ⟨?_, (hms o ho).2⟩
    unfold redirect
    split
    · exact hPQ _ (hs _)
    · exact (hms o ho).1

theorem read_src_of_isImm (h : m.src.isImm = true) (σ τ : Contents) : τ.read m.src = σ.read m.src := by
  cases hs : m.src with
  | imm bits => rfl
  | _ => simp [hs, Location.isImm] at h

/-- Constants come from no place, so they can be loaded in any order, behind all other moves. -/
theorem Realizes.append_loads (hnd : (ms.map dst).Nodup) (him : ∀ m ∈ ms, m.dst.isImm = false)
    (h : Realizes scratch (ms.map dst) (between ms) out) :
    Realizes scratch (ms.map dst) ms (out ++ loads ms) := by
  have hin {m o : Move} (hm : m ∈ ms) (ho : o ∈ ms) (he : o.dst = m.dst) : o = m :=
    inj_on_of_nodup_map hnd ho hm he
  have hp : (loads ms).Pairwise fun m o => o.src ≠ m.dst := by
    refine pairwise_of_forall_mem_list fun m hm o ho he => ?_
    have hd := him m (mem_loads.mp hm).1
    rw [← he, (mem_loads.mp ho).2.2] at hd
    cases hd
  intro σ
  rw [Contents.moveAll_append]
  obtain ⟨hd, hf⟩ := h σ
  refine ⟨fun m hm => ?_, fun l hl hs => ?_⟩
  · by_cases hse : m.src = m.dst
    · -- Nothing is done for a move onto itself, and its destination is left alone.
      have hl : ∀ o ∈ loads ms, o.dst ≠ m.dst := fun o ho he =>
        (mem_loads.mp ho).2.1 (hin hm (mem_loads.mp ho).1 he ▸ hse)
      have hb : ∀ o ∈ between ms, o.dst ≠ m.dst := fun o ho he =>
        (mem_between.mp ho).2.1 (hin hm (mem_between.mp ho).1 he ▸ hse)
      rw [Contents.moveAll_of_ne hl, hf m.dst hb (.inl (mem_map_of_mem hm)), hse,
        Contents.read_of_isImm_false (him m hm)]
    · cases hsr : m.src.isImm with
      | true =>
        rw [Contents.moveAll_dst (nodup_loads hnd) hp m (mem_loads.mpr ⟨hm, hse, hsr⟩)]
        exact read_src_of_isImm hsr ..
      | false =>
        have hl : ∀ o ∈ loads ms, o.dst ≠ m.dst := by
          intro o ho he
          obtain rfl := hin hm (mem_loads.mp ho).1 he
          rw [(mem_loads.mp ho).2.2] at hsr
          cases hsr
        rw [Contents.moveAll_of_ne hl, hd m (mem_between.mpr ⟨hm, hse, hsr⟩)]
  · rw [Contents.moveAll_of_ne fun o ho => hl o (mem_loads.mp ho).1]
    exact hf l (fun o ho => hl o (mem_between.mp ho).1) hs

theorem sequence_of_check (h : checkDestinations [] ms = .ok ()) : sequence ms scratch =
    (· ++ loads ms) <$> order scratch (ms.map dst) (between ms) := by
  unfold sequence
  rw [h]
  change (order scratch (ms.map dst) (between ms) >>= fun moved => pure (moved ++ loads ms)) = _
  cases order scratch (ms.map dst) (between ms) <;> rfl

theorem sequence_eq_ok (h : sequence ms scratch = .ok out) :
    (ms.map dst).Nodup ∧ (∀ m ∈ ms, m.dst.isImm = false) ∧
      ∃ moved, order scratch (ms.map dst) (between ms) = .ok moved ∧ out = moved ++ loads ms := by
  cases hc : checkDestinations [] ms with
  | error e =>
    unfold sequence at h
    rw [hc] at h
    cases h
  | ok _ =>
    obtain ⟨hnd, him, _⟩ := checkDestinations_spec hc
    rw [sequence_of_check hc] at h
    obtain ⟨moved, ho, rfl⟩ := exists_of_map_eq_ok h
    exact ⟨hnd, him, moved, ho, rfl⟩

theorem sequence_realizes (hs : ∀ k, (scratch k).isImm = false)
    (h : sequence ms scratch = .ok out) : Realizes scratch (ms.map dst) ms out := by
  obtain ⟨hnd, him, moved, ho, rfl⟩ := sequence_eq_ok h
  exact .append_loads hnd him (order_realizes hs ho (nodup_between hnd) dst_mem_of_between)

/-- **Sequenced moves act like parallel ones.** Done one by one from any contents, they give every
destination of the list the word its source held before the first of them, and they change no
location besides the destinations and the scratch locations. -/
theorem sequence_parallel (hscratch : ∀ k, (scratch k).isImm = false)
    (h : sequence ms scratch = .ok out) (σ : Contents) :
    (∀ m ∈ ms, (σ.moveAll out).read m.dst = σ.read m.src) ∧
      ∀ l, (∀ m ∈ ms, m.dst ≠ l) → (∀ k, scratch k ≠ l) →
        (σ.moveAll out).read l = σ.read l := by
  obtain ⟨hdst, hframe⟩ := sequence_realizes hscratch h σ
  obtain ⟨_, himm, _⟩ := sequence_eq_ok h
  refine ⟨fun m hm => ?_, fun l hl hs => Contents.read_congr (hframe l hl (.inr hs))⟩
  rw [Contents.read_of_isImm_false (himm m hm), hdst m hm]

/-- Two cycles through the same scratch location, a tree hanging off one of them, a constant and a
move onto itself. -/
theorem sequence_parallel_two_cycles :
    let r (n : Int) : Location := .reg (.gp n)
    let ms : List Move := [⟨r 0, r 1, .int⟩, ⟨r 1, r 0, .int⟩, ⟨r 0, .slot ⟨4⟩, .int⟩,
      ⟨r 2, r 3, .ref⟩, ⟨r 3, r 2, .ref⟩, ⟨.imm 7, r 5, .int⟩, ⟨r 6, r 6, .int⟩]
    let out : List Move := [⟨r 0, .slot ⟨4⟩, .int⟩, ⟨r 1, r 11, .int⟩, ⟨r 0, r 1, .int⟩,
      ⟨r 11, r 0, .int⟩, ⟨r 3, r 11, .ref⟩, ⟨r 2, r 3, .ref⟩, ⟨r 11, r 2, .ref⟩,
      ⟨.imm 7, r 5, .int⟩]
    sequence ms (fun _ => r 11) = .ok out ∧
      ∀ σ : Contents, (σ.moveAll out).read (r 0) = σ (r 1) ∧ (σ.moveAll out).read (r 5) = 7 ∧
        (σ.moveAll out).read (r 7) = σ (r 7) := by
  intro r ms out
  have h : sequence ms (fun _ => r 11) = .ok out := by decide +kernel
  refine ⟨h, fun σ => ?_⟩
  obtain ⟨hdst, hframe⟩ := sequence_parallel (fun _ => rfl) h σ
  refine ⟨hdst ⟨r 1, r 0, .int⟩ (by decide), hdst ⟨.imm 7, r 5, .int⟩ (by decide),
    hframe (r 7) (by decide) (fun _ => by decide)⟩

end Move

end TraceCompiler

/-! ## How many moves a sequence takes

Moves with distinct destinations form trees and rings.
-/

namespace TraceCompiler.Move

open List

variable {scratch : Kind → Location} {dsts : List Location} {ms out pending : List Move} {m o : Move}
  {c c' : Cycle Move}

/-- Two or more moves of a list, each of which writes what the next one reads. -/
structure Ring (ms : List Move) (c : Cycle Move) : Prop where
  two : 2 ≤ c.length
  nodup : c.Nodup
  mem : ∀ m ∈ c, m ∈ ms
  chain : c.Chain fun m o => o.src = m.dst

theorem exists_eq_cons (hm : m ∈ c) : ∃ l : List Move, c = ↑(m :: l) := by
  induction c using Quotient.inductionOn' with
  | h t =>
    obtain ⟨a, b, rfl⟩ := append_of_mem hm
    exact ⟨b ++ a, Quotient.sound' ⟨a.length, rotate_append_length_eq a (m :: b)⟩⟩

namespace Ring

theorem mono (h : Ring ms c) (hm : ∀ m ∈ c, m ∈ ms') : Ring ms' c := { h with mem := hm }

theorem not_nil : ¬ Ring [] c := by
  intro h
  induction c using Cycle.induction_on with
  | nil => exact absurd h.two (by simp)
  | cons m l => exact not_mem_nil (h.mem m (by simp))

theorem reader (h : Ring ms c) (hm : m ∈ c) : ∃ o ∈ c, o ≠ m ∧ o.src = m.dst := by
  obtain ⟨l, rfl⟩ := exists_eq_cons hm
  obtain ⟨ht, hn, -, hc⟩ := h
  cases l with
  | nil => simp at ht
  | cons o t =>
    refine ⟨o, by simp, fun he => ?_, (isChain_cons_cons.mp hc).1⟩
    simp [he] at hn

theorem writer (h : Ring ms c) (hm : m ∈ c) : ∃ o ∈ c, o ≠ m ∧ m.src = o.dst := by
  obtain ⟨l, rfl⟩ := exists_eq_cons hm
  obtain ⟨ht, hn, -, hc⟩ := h
  obtain rfl | ⟨t, o, rfl⟩ := eq_nil_or_concat l
  · simp at ht
  · refine ⟨o, by simp, fun he => ?_, ?_⟩
    · simp [he] at hn
    · rw [Cycle.chain_coe_cons, concat_eq_append, append_assoc, ← cons_append] at hc
      exact (isChain_append_cons_cons.mp hc).2.1

/-- What a pass takes is in no ring, since nobody behind it reads its destination. -/
theorem behind (h : Ring ms c) (hm : ∀ m ∈ c, m ∈ kept ++ rest)
    (hp : kept.Pairwise fun m o => o.src ≠ m.dst)
    (hl : ∀ m ∈ kept, ∀ o ∈ rest, o.src ≠ m.dst) : Ring rest c := by
  induction kept with
  | nil => exact h.mono hm
  | cons k kept ih =>
    obtain ⟨hk, hp⟩ := pairwise_cons.mp hp
    obtain ⟨hkl, hl⟩ := forall_mem_cons.mp hl
    have hou : k ∉ c := by
      intro hkc
      obtain ⟨o, ho, hne, hr⟩ := h.reader hkc
      rcases mem_append.mp ((mem_cons.mp (hm o ho)).resolve_left hne) with ho | ho
      · exact hk o ho hr
      · exact hkl o ho hr
    refine ih (fun o ho => (mem_cons.mp (hm o ho)).resolve_left ?_) hp hl
    rintro rfl
    exact hou ho

end Ring

namespace Stuck

variable (h : Stuck ms)

include h

theorem perm : (ms.map dst).Perm (ms.map src) := by
  refine (subperm_of_subset h.nodup ?_).perm_of_length_le (by simp)
  intro l hl
  obtain ⟨m, hm, rfl⟩ := mem_map.mp hl
  obtain ⟨o, ho, he⟩ := h.read m hm
  exact he ▸ mem_map_of_mem ho

theorem eq_of_dst (hm : m ∈ ms) (ho : o ∈ ms) (he : m.dst = o.dst) : m = o :=
  inj_on_of_nodup_map h.nodup hm ho he

theorem eq_of_src (hm : m ∈ ms) (ho : o ∈ ms) (he : m.src = o.src) : m = o :=
  inj_on_of_nodup_map (h.perm.nodup_iff.mp h.nodup) hm ho he

/-- Following the readers of a move leads back to it. -/
theorem exists_ring (hp : ∀ m ∈ ms, m.src ≠ m.dst) (hm : m ∈ ms) : ∃ c, Ring ms c ∧ m ∈ c := by
  choose! next hn using h.read
  let step (m : {m // m ∈ ms}) : {m // m ∈ ms} := ⟨next m, (hn m m.2).1⟩
  have hin : Function.Injective step := fun a b he => by
    refine Subtype.ext (h.eq_of_dst a.2 b.2 ?_)
    rw [← (hn a a.2).2, ← (hn b b.2).2, show next a = next b from congrArg Subtype.val he]
  have hs : Function.Semiconj Subtype.val step next := fun _ => rfl
  have hpe : m ∈ Function.periodicPts next := hs.mapsTo_periodicPts (hin.mem_periodicPts ⟨m, hm⟩)
  have hie (n : Nat) : next^[n] m ∈ ms := by
    rw [← hs.iterate_right n ⟨m, hm⟩]
    exact Subtype.property _
  have hr (n : Nat) : (next^[n + 1] m).src = (next^[n] m).dst := by
    rw [Function.iterate_succ_apply']
    exact (hn _ (hie n)).2
  refine ⟨Function.periodicOrbit next m, ⟨?_, Function.nodup_periodicOrbit, ?_, ?_⟩,
    Function.self_mem_periodicOrbit hpe⟩
  · rw [Function.periodicOrbit_length]
    have hpo := Function.minimalPeriod_pos_of_mem_periodicPts hpe
    have hon : Function.minimalPeriod next m ≠ 1 := fun h1 => by
      have hf : next m = m := Function.minimalPeriod_eq_one_iff_isFixedPt.mp h1
      exact hp m hm (by rw [← (hn m hm).2, hf])
    omega
  · intro o ho
    obtain ⟨n, rfl⟩ := (Function.mem_periodicOrbit_iff hpe).mp ho
    exact hie n
  · exact (Function.periodicOrbit_chain _).mpr fun n _ => hr n

/-- Two ways round from one move to another are the same. -/
theorem chain_unique (hl : (a :: (l ++ [m])).IsChain fun m o => o.src = m.dst)
    (hl' : (a :: (l' ++ [m])).IsChain fun m o => o.src = m.dst) (hm : m ∉ l) (hm' : m ∉ l')
    (hme : ∀ o ∈ l ++ [m], o ∈ ms) (hme' : ∀ o ∈ l' ++ [m], o ∈ ms) : l = l' := by
  induction l generalizing a l' with
  | nil =>
    cases l' with
    | nil => rfl
    | cons b t =>
      have hab := (isChain_cons_cons.mp hl').1
      have ham := (isChain_cons_cons.mp hl).1
      cases h.eq_of_src (hme' b (by simp)) (hme m (by simp)) (hab.trans ham.symm)
      simp at hm'
  | cons b t ih =>
    obtain ⟨hab, ht⟩ := isChain_cons_cons.mp hl
    cases l' with
    | nil =>
      have ham := (isChain_cons_cons.mp hl').1
      cases h.eq_of_src (hme b (by simp)) (hme m (by simp)) (hab.trans ham.symm)
      simp at hm
    | cons b' t' =>
      obtain ⟨hab', ht'⟩ := isChain_cons_cons.mp hl'
      cases h.eq_of_src (hme b (by simp)) (hme' b' (by simp)) (hab.trans hab'.symm)
      rw [ih ht ht' (by simp_all) (by simp_all) (by simp_all) (by simp_all)]

theorem ring_unique (hc : Ring ms c) (hc' : Ring ms c') (hm : m ∈ c) (hm' : m ∈ c') : c = c' := by
  obtain ⟨l, rfl⟩ := exists_eq_cons hm
  obtain ⟨l', rfl⟩ := exists_eq_cons hm'
  have hin {l : List Move} (hc : Ring ms ↑(m :: l)) : m ∉ l ∧ ∀ o ∈ l ++ [m], o ∈ ms := by
    refine ⟨(nodup_cons.mp (Cycle.nodup_coe_iff.mp hc.nodup)).1, fun o ho => hc.mem o ?_⟩
    simpa [or_comm] using ho
  rw [h.chain_unique hc.chain hc'.chain (hin hc).1 (hin hc').1 (hin hc).2 (hin hc').2]

end Stuck

/-- Parking the destination of a move breaks its ring, and no other. -/
theorem ring_redirect (hnd : ((m :: ms).map dst).Nodup) (ht : ∀ o ∈ m :: ms, o.dst ≠ tmp) :
    Ring (ms.map (redirect m.dst tmp)) c ↔ Ring (m :: ms) c ∧ m ∉ c := by
  have hf : ∀ o ∈ ms, o.dst ≠ m.dst := fun o ho he =>
    (nodup_cons.mp hnd).1 (he ▸ mem_map_of_mem ho)
  constructor
  · intro h
    have hme : ∀ o ∈ c, o ∈ ms := by
      intro o ho
      obtain ⟨p, hp, rfl⟩ := mem_map.mp (h.mem o ho)
      unfold redirect at ho ⊢
      split
      · rename_i he
        rw [if_pos he] at ho
        obtain ⟨q, hq, -, hs⟩ := h.writer ho
        obtain ⟨q, hq', rfl⟩ := mem_map.mp (h.mem q hq)
        rw [redirect_dst] at hs
        exact (ht q (mem_cons_of_mem _ hq') hs.symm).elim
      · exact hp
    exact ⟨h.mono fun o ho => mem_cons_of_mem _ (hme o ho), fun hm => hf m (hme m hm) rfl⟩
  · rintro ⟨h, hm⟩
    refine h.mono fun o ho => ?_
    have hr {o : Move} (ho : o ∈ c) : o ∈ ms :=
      (mem_cons.mp (h.mem o ho)).resolve_left fun he => hm (he ▸ ho)
    refine mem_map.mpr ⟨o, hr ho, if_neg fun he => ?_⟩
    obtain ⟨q, hq, -, hs⟩ := h.writer ho
    exact hf q (hr hq) (hs.symm.trans he)

/-- What ordering moves comes to: one move more for each ring, or a ring without a scratch location. -/
def Counted (scratch : Kind → Location) (dsts : List Location) (ms : List Move) :
    Except MoveError (List Move) → Prop
  | .ok out => ∃ parked : List Location, (out.map dst).Perm (ms.map dst ++ parked) ∧
      (∀ l ∈ parked, ∃ k, scratch k = l) ∧ (parked.length : ℕ∞) = {c | Ring ms c}.encard
  | .error _ => ∃ c, Ring ms c ∧ ∃ m ∈ c, scratch m.kind = .unset ∨ scratch m.kind ∈ dsts

theorem Counted.pass (hpe : (kept ++ rest).Perm ms) (hp : kept.Pairwise fun m o => o.src ≠ m.dst)
    (hl : ∀ m ∈ kept, ∀ o ∈ rest, o.src ≠ m.dst) (h : Counted scratch dsts rest res) :
    Counted scratch dsts ms ((kept ++ ·) <$> res) := by
  have hr (c : Cycle Move) : Ring rest c ↔ Ring ms c :=
    ⟨fun h => h.mono fun m hm => hpe.mem_iff.mp (mem_append_right _ (h.mem m hm)),
      fun h => h.behind (fun m hm => hpe.mem_iff.mpr (h.mem m hm)) hp hl⟩
  cases res with
  | error e =>
    obtain ⟨c, hc, hs⟩ := h
    exact ⟨c, (hr c).mp hc, hs⟩
  | ok out =>
    obtain ⟨parked, ho, hs, hle⟩ := h
    refine ⟨parked, ?_, hs, by simpa only [hr] using hle⟩
    rw [map_append]
    refine (ho.append_left _).trans ?_
    rw [← append_assoc, ← map_append]
    exact (hpe.map dst).append_right _

theorem Counted.park {kind : Kind} {res : Except MoveError (List Move)} (hst : Stuck (m :: ms))
    (hp : ∀ o ∈ m :: ms, o.src ≠ o.dst) (ht : ∀ o ∈ m :: ms, o.dst ≠ scratch kind)
    (h : Counted scratch dsts (ms.map (redirect m.dst (scratch kind))) res) :
    Counted scratch dsts (m :: ms) ((fun out => ⟨m.dst, scratch kind, kind⟩ :: m :: out) <$> res) := by
  have hr (c : Cycle Move) := ring_redirect (c := c) hst.nodup ht
  cases res with
  | error e =>
    obtain ⟨c, hc, hs⟩ := h
    exact ⟨c, ((hr c).mp hc).1, hs⟩
  | ok out =>
    obtain ⟨parked, ho, hs, hl⟩ := h
    obtain ⟨c, hc, hm⟩ := hst.exists_ring hp mem_cons_self
    refine ⟨scratch kind :: parked, ?_, forall_mem_cons.mpr ⟨⟨kind, rfl⟩, hs⟩, ?_⟩
    · rw [map_dst_redirect] at ho
      refine ((ho.cons m.dst).cons (scratch kind)).trans ?_
      exact (@perm_middle _ _ (m.dst :: ms.map dst) _).symm
    · have ha : {c | Ring (m :: ms) c} =
          insert c {c | Ring (ms.map (redirect m.dst (scratch kind))) c} := by
        ext c'
        simp only [hr, Set.mem_ofPred_eq, Set.mem_insert_iff]
        refine ⟨fun hc' => ?_, ?_⟩
        · by_cases hm' : m ∈ c'
          · exact .inl (hst.ring_unique hc' hc hm' hm)
          · exact .inr ⟨hc', hm'⟩
        · rintro (rfl | hc')
          · exact hc
          · exact hc'.1
      have hn : c ∉ {c | Ring (ms.map (redirect m.dst (scratch kind))) c} := fun hin =>
        ((hr c).mp hin).2 hm
      rw [ha, Set.encard_insert_of_notMem hn, ← hl]
      simp

theorem order_counted (hnd : (pending.map dst).Nodup) (hsu : ∀ m ∈ pending, m.dst ∈ dsts)
    (hpr : ∀ m ∈ pending, m.src ≠ m.dst) : Counted scratch dsts pending (order scratch dsts pending) := by
  refine order_induct (motive := fun ms res =>
    (∀ m ∈ ms, m.src ≠ m.dst) → Counted scratch dsts ms res) ?_ ?_ ?_ ?_ hnd hsu hpr
  · have hn : {c | Ring [] c} = ∅ := by
      rw [Set.eq_empty_iff_forall_notMem]
      exact fun _ => Ring.not_nil
    exact fun _ => ⟨[], .refl _, nofun, by simp [hn]⟩
  · intro ms kept rest res _ _ hpe hp hl ih hpr
    exact .pass hpe hp hl (ih fun m hm =>
      hpr m (hpe.mem_iff.mp (mem_append_right _ hm)))
  · intro m ms reader e hs hsu hr hw hpr
    obtain ⟨c, hc, hin⟩ := hs.exists_ring hpr hr
    refine ⟨c, hc, reader, hin, hw.imp_right fun hu => hu.elim id ?_⟩
    -- What stuck moves read, they also write.
    rintro ⟨o, ho, he⟩
    obtain ⟨p, hp, hd⟩ := mem_map.mp (hs.perm.mem_iff.mpr (mem_map_of_mem ho))
    exact he ▸ hd ▸ hsu p hp
  · intro m ms kind res hs hsu hne _ ih hpr
    have ht : ∀ o ∈ m :: ms, o.dst ≠ scratch kind := fun o ho he => hne (he ▸ hsu o ho)
    refine .park hs hpr ht (ih ?_)
    simp only [forall_mem_map, redirect_dst]
    intro o ho
    have ho' := mem_cons_of_mem m ho
    unfold redirect
    split
    · exact (ht o ho').symm
    · exact hpr o ho'

theorem checkDestinations_eq_ok (hnd : (ms.map dst).Nodup)
    (him : ∀ m ∈ ms, m.dst.isImm = false) (hs : ∀ m ∈ ms, m.dst ∉ seen) :
    checkDestinations seen ms = .ok () := by
  induction ms generalizing seen with
  | nil => rfl
  | cons m ms ih =>
    obtain ⟨hm, hnd⟩ := nodup_cons.mp hnd
    obtain ⟨hmi, him⟩ := forall_mem_cons.mp him
    obtain ⟨hms, hs⟩ := forall_mem_cons.mp hs
    unfold checkDestinations
    rw [if_neg (by simp [hmi]), if_neg hms]
    refine ih hnd him fun o ho hin => ?_
    rcases mem_cons.mp hin with he | hin
    · exact hm (he ▸ mem_map_of_mem ho)
    · exact hs o ho hin

theorem ring_between (hnd : (ms.map dst).Nodup) (him : ∀ m ∈ ms, m.dst.isImm = false) :
    Ring (between ms) c ↔ Ring ms c := by
  refine ⟨fun h => h.mono fun m hm => (mem_between.mp (h.mem m hm)).1, fun h => ?_⟩
  refine h.mono fun m hm => ?_
  obtain ⟨o, ho, hne, hs⟩ := h.writer hm
  refine mem_between.mpr ⟨h.mem m hm, fun he => hne ?_, hs ▸ him o (h.mem o ho)⟩
  exact inj_on_of_nodup_map hnd (h.mem o ho) (h.mem m hm) (hs.symm.trans he)

/-- **A sequence takes one move more for each ring.** A list that writes an immediate or writes a
place twice is refused. Any other list is sequenced, unless it has a ring and the scratch location of
one of its moves is missing or is written by the list. The sequence writes what the moves of the list
from one place to another write, and besides only scratch locations, one for each ring. -/
theorem sequence_outcome (ms : List Move) (scratch : Kind → Location) :
    ((∃ m ∈ ms, m.dst.isImm = true) ∨ ¬ (ms.map dst).Nodup → ∃ e, sequence ms scratch = .error e) ∧
    ((∀ m ∈ ms, m.dst.isImm = false) → (ms.map dst).Nodup →
      (∀ out, sequence ms scratch = .ok out →
        (out.length : ℕ∞) = (ms.filter fun m => m.src ≠ m.dst).length + {c | Ring ms c}.encard ∧
        ∃ parked, (out.map dst).Perm ((ms.filter fun m => m.src ≠ m.dst).map dst ++ parked) ∧
          ∀ l ∈ parked, ∃ k, scratch k = l) ∧
      (∀ e, sequence ms scratch = .error e →
        ∃ c, Ring ms c ∧ ∃ m ∈ c, scratch m.kind = .unset ∨ scratch m.kind ∈ ms.map dst) ∧
      ((∀ k, scratch k ≠ .unset ∧ scratch k ∉ ms.map dst) →
        ∃ out, sequence ms scratch = .ok out)) := by
  refine ⟨fun hbad => ?_, fun himm hnd => ?_⟩
  · cases hseq : sequence ms scratch with
    | error e => exact ⟨e, rfl⟩
    | ok out =>
      obtain ⟨hnd, himm, -⟩ := sequence_eq_ok hseq
      rcases hbad with ⟨m, hm, hdst⟩ | hbad
      · cases (himm m hm).symm.trans hdst
      · exact (hbad hnd).elim
  · have hcount : Counted scratch (ms.map dst) (between ms) _ :=
      order_counted (nodup_between hnd) dst_mem_of_between fun m hm => (mem_between.mp hm).2.1
    have hsplit : (between ms ++ loads ms).Perm (ms.filter fun m => m.src ≠ m.dst) := by
      refine perm_append_comm.trans ?_
      simpa [between, loads] using filter_append_perm (fun m : Move => m.src.isImm)
        (ms.filter fun m => m.src ≠ m.dst)
    rw [sequence_of_check (checkDestinations_eq_ok hnd himm fun _ _ => not_mem_nil)]
    cases hord : order scratch (ms.map dst) (between ms) with
    | error e =>
      rw [hord] at hcount
      obtain ⟨c, hc, m, hm, hscratch⟩ := hcount
      refine ⟨fun _ => nofun, fun _ _ => ⟨c, (ring_between hnd himm).mp hc, m, hm, hscratch⟩, fun hall => ?_⟩
      exact (hscratch.elim (hall m.kind).1 (hall m.kind).2).elim
    | ok moved =>
      rw [hord] at hcount
      obtain ⟨parked, hperm, hscratch, hlen⟩ := hcount
      simp only [ring_between hnd himm] at hlen
      have hout : ((moved ++ loads ms).map dst).Perm
          ((ms.filter fun m => m.src ≠ m.dst).map dst ++ parked) := by
        rw [map_append]
        refine (hperm.append_right _).trans ?_
        rw [append_assoc]
        refine (perm_append_comm.append_left _).trans ?_
        rw [← append_assoc, ← map_append]
        exact (hsplit.map dst).append_right _
      refine ⟨?_, fun _ => nofun, fun _ => ⟨_, rfl⟩⟩
      rintro _ ⟨⟩
      refine ⟨?_, parked, hout, hscratch⟩
      have := hout.length_eq
      rw [length_map, @length_append _ _ parked, length_map] at this
      rw [← hlen, this]
      simp

/-- Two rings with a tree on one of them, a constant and a move onto itself take eight moves. -/
theorem sequence_outcome_two_rings :
    let r (n : Int) : Location := .reg (.gp n)
    let ms : List Move := [⟨r 0, r 1, .int⟩, ⟨r 1, r 0, .int⟩, ⟨r 0, .slot ⟨4⟩, .int⟩,
      ⟨r 2, r 3, .ref⟩, ⟨r 3, r 2, .ref⟩, ⟨.imm 7, r 5, .int⟩, ⟨r 6, r 6, .int⟩]
    length <$> sequence ms (fun _ => r 11) = .ok 8 ∧ {c | Ring ms c}.encard = 2 := by
  intro r ms
  have hseq : length <$> sequence ms (fun _ => r 11) = .ok 8 := by decide +kernel
  refine ⟨hseq, ?_⟩
  obtain ⟨hall, -, hok⟩ := (sequence_outcome ms fun _ => r 11).2 (by decide) (by decide)
  obtain ⟨out, hout⟩ := hok fun _ => by decide
  rw [hout] at hseq
  have hlen : out.length = 8 := Except.ok.inj hseq
  have hcount := (hall out hout).1
  rw [hlen, show (ms.filter fun m => m.src ≠ m.dst).length = 6 by decide] at hcount
  exact WithTop.add_left_cancel (ENat.natCast_ne_top 6) (hcount.symm.trans rfl)

end TraceCompiler.Move
