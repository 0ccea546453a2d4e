import Mathlib.Data.List.Nodup
import TraceCompiler.Proofs.Computation
import TraceCompiler.Proofs.Machine.Execution

/-! # Code in its place

A fragment is laid out as the pieces of its main section, something that stops the processor, and the
pieces of its cold section.
-/

namespace TraceCompiler.Machine

open List

namespace Fragment

mutual

/-- The pieces of a fragment that go to the section `want` when `cur` is the current one. -/
def pieces (want : Section) (cur : Section) : Fragment → List Fragment
  | group body => piecesAll want cur body
  | inSection s body => pieces want s body
  | instr i => if want = cur then [instr i] else []
  | label l => if want = cur then [label l] else []
  | jump t => if want = cur then [jump t] else []
  | jumpIf c t => if want = cur then [jumpIf c t] else []
  | jumpSite t s => if want = cur then [jumpSite t s] else []
  | refuse m => if want = cur then [refuse m] else []

def piecesAll (want : Section) (cur : Section) : List Fragment → List Fragment
  | [] => []
  | f :: rest => pieces want cur f ++ piecesAll want cur rest

end

theorem piecesAll_append (want cur : Section) (fs gs : List Fragment) :
    piecesAll want cur (fs ++ gs) = piecesAll want cur fs ++ piecesAll want cur gs := by
  induction fs with
  | nil => rfl
  | cons f fs ih => rw [cons_append, piecesAll, ih, piecesAll, append_assoc]

def layout (f : Fragment) : List Fragment :=
  f.pieces .main .main ++ instr .hlt :: f.pieces .cold .main

end Fragment

def labelsOf (code : List Fragment) : List String :=
  code.filterMap fun
    | .label l => some l
    | _ => none

@[simp] theorem labelsOf_nil : labelsOf [] = [] := rfl

@[simp] theorem labelsOf_append (a b : List Fragment) :
    labelsOf (a ++ b) = labelsOf a ++ labelsOf b := filterMap_append ..

@[simp] theorem labelsOf_label (l : String) (k : List Fragment) :
    labelsOf (.label l :: k) = l :: labelsOf k := rfl

theorem seek_append (h : l ∉ labelsOf pre) : seek l (pre ++ .label l :: post) = some post := by
  induction pre with
  | nil => simp [seek]
  | cons f pre ih =>
    cases f with
    | label n =>
      obtain ⟨hne, hp⟩ := not_or.mp (mt mem_cons.mpr h)
      rw [cons_append, seek, if_neg (Ne.symm hne)]
      exact ih hp
    | _ => exact ih h

theorem seek_of_nodup (hnd : (labelsOf prog).Nodup) (hp : prog = pre ++ .label l :: post) :
    seek l prog = some post := by
  subst hp
  refine seek_append fun hm => ?_
  rw [labelsOf_append, labelsOf_label] at hnd
  exact (nodup_append.mp hnd).2.2 l hm l mem_cons_self rfl

/-! ## Assembled code -/

namespace Assembler

def now (a : Assembler) : Section := if a.inCold then .cold else .main

/-- What writing pieces of code does to the labels: they were not there before, none of them comes
twice, and all of them are there in the end. -/
structure Writes (a b : Assembler) (main cold : List Fragment) : Prop where
  same : b.inCold = a.inCold
  keeps : ∀ l, a.labels.contains l → b.labels.contains l
  fresh : ∀ l ∈ labelsOf (main ++ cold), a.labels.contains l = false
  present : ∀ l ∈ labelsOf (main ++ cold), b.labels.contains l
  nodup : (labelsOf (main ++ cold)).Nodup

variable {a b c : Assembler} {m m' k k' : List Fragment} {s : Section}

theorem Writes.silent (hs : b.inCold = a.inCold)
    (hk : ∀ l, a.labels.contains l → b.labels.contains l) (h : labelsOf (m ++ k) = []) :
    Writes a b m k where
  same := hs
  keeps := hk
  fresh := by simp [h]
  present := by simp [h]
  nodup := by simp [h]

theorem Writes.append (h : Writes a b m k) (h' : Writes b c m' k') : Writes a c (m ++ m') (k ++ k') := by
  have hp : (labelsOf ((m ++ m') ++ (k ++ k'))).Perm
      (labelsOf (m ++ k) ++ labelsOf (m' ++ k')) := by
    simp only [labelsOf_append, append_assoc]
    refine Perm.append_left _ ?_
    rw [← append_assoc, ← append_assoc]
    exact perm_append_comm.append_right _
  refine ⟨h'.same.trans h.same, fun l hl => h'.keeps l (h.keeps l hl), ?_, ?_, ?_⟩
  · intro l hl
    rcases mem_append.mp (hp.mem_iff.mp hl) with hl | hl
    · exact h.fresh l hl
    · exact Bool.eq_false_iff.mpr fun ha => by simpa [h'.fresh l hl] using h.keeps l ha
  · intro l hl
    rcases mem_append.mp (hp.mem_iff.mp hl) with hl | hl
    · exact h'.keeps l (h.present l hl)
    · exact h'.present l hl
  · refine hp.nodup_iff.mpr (nodup_append.mpr ⟨h.nodup, h'.nodup, ?_⟩)
    rintro l hl _ hl' rfl
    have := h.present l hl
    rw [h'.fresh l hl'] at this
    cases this

@[simp] theorem inCold_emitBytes (bs : List UInt8) (a : Assembler) :
    (a.emitBytes bs).inCold = a.inCold := by
  unfold emitBytes
  split <;> rfl

@[simp] theorem labels_emitBytes (bs : List UInt8) (a : Assembler) :
    (a.emitBytes bs).labels = a.labels := by
  unfold emitBytes
  split <;> rfl

@[simp] theorem contains_define (l l' : String) (a : Assembler) :
    (a.define l).labels.contains l' = (decide (l' = l) || a.labels.contains l') := by
  unfold define Table.contains
  rw [Table.get?_insert]
  split <;> simp_all

theorem run_label_ok (h : (EmitM.label l : EmitM Assembler Unit).run a = (.ok (), b)) :
    a.labels.contains l = false ∧ b = a.define l := by
  unfold EmitM.label at h
  rw [run_get_bind] at h
  cases hl : a.labels.contains l with
  | true =>
    change (if a.labels.contains l = true then _ else _ : EmitM Assembler Unit).run a = _ at h
    rw [if_pos hl] at h
    cases h
  | false =>
    change (if a.labels.contains l = true then _ else _ : EmitM Assembler Unit).run a = _ at h
    rw [if_neg (by simp [hl])] at h
    cases h
    exact ⟨rfl, rfl⟩

theorem run_jump (h : (EmitM.jump opcode t : EmitM Assembler Unit).run a = (.ok (), b)) :
    b = (a.emitBytes opcode).reserve t := by
  cases h
  rfl

@[simp] theorem inCold_reserve (l : String) (a : Assembler) : (a.reserve l).inCold = a.inCold := by
  unfold reserve
  rw [inCold_emitBytes]

@[simp] theorem labels_reserve (l : String) (a : Assembler) : (a.reserve l).labels = a.labels := by
  unfold reserve
  rw [labels_emitBytes]

theorem select_ok (h : a.select s = .ok b) : b.labels = a.labels ∧ b.now = s := by
  unfold select at h
  split at h
  · cases h
    exact ⟨rfl, by simp_all [now]⟩
  · split at h
    · cases h
      exact ⟨rfl, by simp_all [now]⟩
    · cases h

theorem select_now (a b : Assembler) : a.select b.now = .ok { a with inCold := b.inCold } := by
  unfold select now
  cases b.inCold <;> simp [Section.main, Section.cold]

theorem run_select_ok (h : (EmitM.select s : EmitM Assembler Unit).run a = (.ok u, b)) :
    a.select s = .ok b := by
  unfold EmitM.select at h
  rw [run_get_bind] at h
  change Sink.select s a = _
  cases hs : (Sink.select s a : Except (Abort AsmError) Assembler) with
  | error e =>
    rw [hs] at h
    cases h
  | ok t =>
    rw [hs] at h
    cases h
    rfl

theorem run_inSection_ok (h : (EmitM.inSection s body).run a = (.ok (), b)) :
    ∃ a' b', a.select s = .ok a' ∧ body.run a' = (.ok (), b') ∧ b = { b' with inCold := a.inCold } := by
  unfold EmitM.inSection at h
  rw [run_get_bind] at h
  obtain ⟨_, a', hs, h⟩ := run_bind_ok h
  obtain ⟨r, b', hbo, h⟩ := run_bind_ok h
  obtain ⟨_, b'', hb, h⟩ := run_bind_ok h
  have hb := run_select_ok hb
  change b'.select a.now = _ at hb
  rw [select_now] at hb
  cases hb
  cases r with
  | error e => cases h
  | ok u =>
    cases h
    refine ⟨a', b', run_select_ok hs, ?_, rfl⟩
    change (Except.ok (body.run a').1, (body.run a').2) = _ at hbo
    rw [Prod.mk.injEq, Except.ok.injEq] at hbo
    exact Prod.ext hbo.1 hbo.2

end Assembler

namespace Fragment

open Assembler

mutual

theorem writes : ∀ (f : Fragment) {a b : Assembler}, (f.emit : EmitM Assembler Unit).run a = (.ok (), b) →
      Writes a b (f.pieces .main a.now) (f.pieces .cold a.now)
  | instr i, a, b, h => by
    unfold emit EmitM.instr at h
    cases hi : i.encode with
    | error e =>
      rw [hi] at h
      cases h
    | ok bs =>
      rw [hi] at h
      cases h
      refine .silent (inCold_emitBytes ..) (fun l hl => ?_) ?_
      · change (a.emitBytes bs).labels.contains l = true
        rwa [labels_emitBytes]
      · unfold pieces
        split <;> split <;> rfl
  | label l, a, b, h => by
    obtain ⟨hn, rfl⟩ := run_label_ok h
    have ho : labelsOf (pieces .main a.now (label l) ++ pieces .cold a.now (label l)) = [l] := by
      unfold pieces now
      cases a.inCold <;> rfl
    refine ⟨rfl, fun l' hl' => by simp [hl'], ?_, ?_, ?_⟩ <;> rw [ho]
    · simpa using hn
    · simp
    · simp
  | jump t, a, b, h => by
    rw [run_jump h]
    refine .silent (by simp) (fun l hl => by simpa using hl) ?_
    unfold pieces
    split <;> split <;> rfl
  | jumpIf c t, a, b, h => by
    rw [run_jump h]
    refine .silent (by simp) (fun l hl => by simpa using hl) ?_
    unfold pieces
    split <;> split <;> rfl
  | jumpSite t s, a, b, h => by
    obtain ⟨_, a1, h1, h⟩ := run_bind_ok (x := EmitM.bytes [0xE9]) h
    obtain ⟨_, a2, h2, h3⟩ := run_bind_ok h
    cases h1
    obtain ⟨-, rfl⟩ := run_label_ok h2
    cases h3
    refine .silent (by simp [Sink.emitBytes, define]) (fun l hl => ?_) ?_
    · change ((((a.emitBytes [0xE9]).define s).reserve t).labels.contains l) = true
      rw [labels_reserve, contains_define, labels_emitBytes, hl, Bool.or_true]
    · unfold pieces
      split <;> split <;> rfl
  | group body, a, b, h => by
    unfold pieces
    exact writesAll body h
  | inSection s body, a, b, h => by
    obtain ⟨a', b', hs, hb, rfl⟩ := run_inSection_ok h
    obtain ⟨hla, hno⟩ := select_ok hs
    have hw := writes body hb
    rw [hno] at hw
    unfold pieces
    exact ⟨rfl, fun l hl => hw.keeps l (hla ▸ hl), fun l hl => hla ▸ hw.fresh l hl,
      hw.present, hw.nodup⟩
  | refuse m, a, b, h => by cases h

theorem writesAll : ∀ (fs : List Fragment) {a b : Assembler},
    (emitAll fs : EmitM Assembler Unit).run a = (.ok (), b) →
      Writes a b (piecesAll .main a.now fs) (piecesAll .cold a.now fs)
  | [], a, b, h => by
    cases h
    exact .silent rfl (fun _ hl => hl) rfl
  | f :: fs, a, b, h => by
    obtain ⟨_, a1, h1, h2⟩ := run_bind_ok h
    have hw := writes f h1
    have hn : a1.now = a.now := by rw [now, hw.same, now]
    have hw' := writesAll fs h2
    rw [hn] at hw'
    unfold piecesAll
    exact hw.append hw'

end

end Fragment

theorem Program.nodup_labels (h : Program.ofFragment f = .ok p) : (labelsOf f.layout).Nodup := by
  unfold Program.ofFragment at h
  cases hr : (f.emit : EmitM Assembler Unit).run {} with
  | mk r a =>
    rw [hr] at h
    cases r with
    | error e => cases h
    | ok u =>
      have hw := f.writes hr
      have := hw.nodup
      rw [labelsOf_append] at this
      rw [Fragment.layout, labelsOf_append]
      exact this

/-! ## Stretches of code -/

section

variable {ω : Type} {env : Setting ω} {code code' prog : List Fragment} {c c' c'' : Cpu ω}
  {i : Instr}

/-- Control runs through a stretch of code and leaves it at its end, wherever it stands in a program
with distinct labels. -/
def Falls (env : Setting ω) (code : List Fragment) (c c' : Cpu ω) : Prop :=
  ∀ prog pre rest, prog = pre ++ code ++ rest → (labelsOf prog).Nodup →
    Reaches env prog (code ++ rest, c) (rest, c')

theorem Falls.nil : Falls env [] c c := fun _ _ _ _ _ => .refl

theorem Falls.append (h : Falls env code c c') (h' : Falls env code' c' c'') :
    Falls env (code ++ code') c c'' := by
  intro prog pre rest hp hnd
  have h1 := h prog pre (code' ++ rest) (by simp [hp]) hnd
  have h2 := h' prog (pre ++ code) rest (by simp [hp]) hnd
  rw [append_assoc]
  exact h1.trans h2

theorem Falls.instr (h : i.exec env c = some c') : Falls env [.instr i] c c' :=
  fun _ _ _ _ _ => .single (.instr h)

theorem Falls.cons (h : i.exec env c = some c') (h' : Falls env code c' c'') :
    Falls env (.instr i :: code) c c'' := (Falls.instr h).append h'

end

/-! ## The order of writing -/

namespace Fragment

mutual

/-- The pieces of a fragment in the order in which they are written. -/
def stream (cold : Bool) : Fragment → List (Bool × Fragment)
  | group body => streamAll cold body
  | inSection s body => stream (decide (s = .cold)) body
  | instr i => [(cold, instr i)]
  | label l => [(cold, label l)]
  | jump t => [(cold, jump t)]
  | jumpIf c t => [(cold, jumpIf c t)]
  | jumpSite t s => [(cold, jumpSite t s)]
  | refuse m => [(cold, refuse m)]

def streamAll (cold : Bool) : List Fragment → List (Bool × Fragment)
  | [] => []
  | f :: rest => stream cold f ++ streamAll cold rest

end

mutual

/-- Every instruction can be encoded, and only the two sections are written to. -/
def Plain : Fragment → Prop
  | group body => PlainAll body
  | inSection s body => (s = .main ∨ s = .cold) ∧ Plain body
  | instr i => ∃ bs, i.encode = .ok bs
  | label _ | jump _ | jumpIf _ _ | jumpSite _ _ => True
  | refuse _ => False

def PlainAll : List Fragment → Prop
  | [] => True
  | f :: rest => Plain f ∧ PlainAll rest

end

def raw : Fragment → List UInt8
  | instr i => i.encode.toOption.getD []
  | jump _ | jumpSite _ _ => [0xE9, 0, 0, 0, 0]
  | jumpIf c _ => [0x0F, 0x80 + (c.code &&& 15), 0, 0, 0, 0]
  | label _ | group _ | inSection _ _ | refuse _ => []

def mark? : Fragment → Option (Nat × String)
  | label l => some (0, l)
  | jumpSite _ s => some (1, s)
  | _ => none

/-- The label that a piece jumps to, and where in the piece the displacement stands. -/
def field? : Fragment → Option (Nat × String)
  | jump t | jumpSite t _ => some (1, t)
  | jumpIf _ t => some (2, t)
  | _ => none

theorem length_raw_of_field? {g : Fragment} {o : Nat} {t : String} (h : g.field? = some (o, t)) :
    g.raw.length = o + 4 := by
  unfold field? at h
  split at h <;> cases h <;> rfl

theorem le_length_raw_of_mark? {g : Fragment} {o : Nat} {l : String} (h : g.mark? = some (o, l)) :
    o ≤ g.raw.length := by
  unfold mark? at h
  split at h <;> cases h <;> exact Nat.le_of_ble_eq_true rfl

end Fragment

def namesIn (find : Fragment → Option (Nat × String)) (st : List (Bool × Fragment)) : List String :=
  st.filterMap fun e => (find e.2).map Prod.snd

@[simp] theorem namesIn_nil (find : Fragment → Option (Nat × String)) : namesIn find [] = [] := rfl

@[simp] theorem namesIn_append (find : Fragment → Option (Nat × String))
    (st st' : List (Bool × Fragment)) :
    namesIn find (st ++ st') = namesIn find st ++ namesIn find st' := filterMap_append ..

namespace Assembler

def endOf (a : Assembler) (cold : Bool) : Nat := if cold then a.cold.size else a.main.size

def put (a : Assembler) (e : Bool × Fragment) : Assembler where
  main := if e.1 then a.main else a.main ++ e.2.raw
  cold := if e.1 then a.cold ++ e.2.raw else a.cold
  inCold := a.inCold
  labels := match e.2.mark? with
    | some (o, l) => a.labels.insert l ⟨e.1, a.endOf e.1 + o⟩
    | none => a.labels
  jumps := match e.2.field? with
    | some (o, t) => a.jumps.push (t, ⟨e.1, a.endOf e.1 + o⟩)
    | none => a.jumps

variable {a b : Assembler} {st st' : List (Bool × Fragment)} {x y : EmitM Assembler Unit}
  {l : String} {s : Section} {e : Bool × Fragment}

@[simp] theorem inCold_foldl_put (st : List (Bool × Fragment)) (a : Assembler) :
    (st.foldl put a).inCold = a.inCold := by
  induction st generalizing a with
  | nil => rfl
  | cons e st ih => exact ih (a.put e)

theorem foldl_put_inCold (st : List (Bool × Fragment)) (a : Assembler) (c : Bool) :
    st.foldl put { a with inCold := c } = { st.foldl put a with inCold := c } := by
  induction st generalizing a with
  | nil => rfl
  | cons e st ih => exact ih (a.put e)

/-- How often a label is defined, before and in a stream. -/
def uses (a : Assembler) (st : List (Bool × Fragment)) (l : String) : Nat :=
  (a.labels.contains l).toNat + (namesIn Fragment.mark? st).count l

theorem uses_le_append (a : Assembler) (st st' : List (Bool × Fragment)) (l : String) :
    a.uses st l ≤ a.uses (st ++ st') l := by
  unfold uses
  rw [namesIn_append, count_append]
  omega

theorem contains_put (a : Assembler) (e : Bool × Fragment) (l : String) : (a.put e).labels.contains l =
      (a.labels.contains l || decide ((e.2.mark?).map Prod.snd = some l)) := by
  unfold put
  cases he : e.2.mark? with
  | none => simp
  | some m =>
    change ((a.labels.insert m.2 _).get? l).isSome = _
    rw [Table.get?_insert]
    by_cases hl : l = m.2
    · simp [hl]
    · simp [hl, Table.contains, Ne.symm hl]

theorem contains_foldl_put (h : a.uses st l ≤ 1) :
    ((st.foldl put a).labels.contains l).toNat = a.uses st l := by
  induction st generalizing a with
  | nil => simp [uses]
  | cons e st ih =>
    have ho : (a.put e).uses st l = a.uses (e :: st) l := by
      unfold uses at h ⊢
      rw [contains_put]
      cases he : e.2.mark? with
      | none => simp [namesIn, he]
      | some m =>
        by_cases hl : m.2 = l
        · have hco : (namesIn Fragment.mark? (e :: st)).count l =
              (namesIn Fragment.mark? st).count l + 1 := by
            simp [namesIn, he, hl]
          have hn : a.labels.contains l = false := by
            cases hc : a.labels.contains l with
            | false => rfl
            | true =>
              rw [hc, hco, Bool.toNat_true] at h
              omega
          rw [hco]
          simp [hl, hn]
          omega
        · simp [namesIn, he, hl]
    rw [foldl_cons, ih (ho ▸ h), ho]

/-- What it is to write a stream: every piece is put, or some label is defined twice and the writing
stops there. -/
def Emits (a : Assembler) (st : List (Bool × Fragment)) (x : EmitM Assembler Unit) : Prop :=
  ((∀ l, a.uses st l ≤ 1) ∧ x.run a = (.ok (), st.foldl put a)) ∨
    ∃ l b, 2 ≤ a.uses st l ∧ x.run a = (.error (.error (.redefined l)), b)

theorem Emits.bind (hx : Emits a st x) (hy : Emits (st.foldl put a) st' y) :
    Emits a (st ++ st') (x >>= fun _ => y) := by
  rcases hx with ⟨ho, hr⟩ | ⟨l, b, ht, hr⟩
  · have hu : ∀ l, (st.foldl put a).uses st' l = a.uses (st ++ st') l := by
      intro l
      rw [uses, contains_foldl_put (ho l)]
      simp only [uses, namesIn_append, count_append]
      omega
    rcases hy with ⟨ho', hr'⟩ | ⟨l, b, ht, hr'⟩
    · refine .inl ⟨fun l => hu l ▸ ho' l, ?_⟩
      rw [run_seq hr, hr', foldl_append]
    · exact .inr ⟨l, b, hu l ▸ ht, (run_seq hr).trans hr'⟩
  · exact .inr ⟨l, b, Nat.le_trans ht (uses_le_append ..), run_bind_of_error hr⟩

theorem Emits.silent (hm : e.2.mark? = none) (hr : x.run a = (.ok (), a.put e)) : Emits a [e] x := by
  refine .inl ⟨fun l => ?_, hr⟩
  have : (a.labels.contains l).toNat ≤ 1 := Bool.toNat_le _
  simpa [uses, namesIn, hm] using this

theorem Emits.marked (hm : e.2.mark? = some (o, l))
    (hn : a.labels.contains l = false → x.run a = (.ok (), a.put e))
    (hold : a.labels.contains l = true → ∃ b, x.run a = (.error (.error (.redefined l)), b)) :
    Emits a [e] x := by
  cases hl : a.labels.contains l with
  | false =>
    refine .inl ⟨fun l' => ?_, hn hl⟩
    by_cases hne : l = l'
    · simp [uses, namesIn, hm, ← hne, hl]
    · have : (a.labels.contains l').toNat ≤ 1 := Bool.toNat_le _
      simpa [uses, namesIn, hm, hne] using this
  | true =>
    obtain ⟨b, hr⟩ := hold hl
    refine .inr ⟨l, b, ?_, hr⟩
    simp [uses, namesIn, hm, hl]

theorem run_label_of_new (h : a.labels.contains l = false) :
    (EmitM.label l : EmitM Assembler Unit).run a = (.ok (), a.define l) := by
  unfold EmitM.label
  rw [run_get_bind]
  change (if a.labels.contains l = true then _ else _ : EmitM Assembler Unit).run a = _
  rw [if_neg (by simp [h])]
  rfl

theorem run_label_of_old (h : a.labels.contains l = true) :
    (EmitM.label l : EmitM Assembler Unit).run a = (.error (.error (.redefined l)), a) := by
  unfold EmitM.label
  rw [run_get_bind]
  change (if a.labels.contains l = true then _ else _ : EmitM Assembler Unit).run a = _
  rw [if_pos h]
  rfl

theorem emits_instr (h : ∃ bs, i.encode = .ok bs) (a : Assembler) :
    Emits a [(a.inCold, .instr i)] (EmitM.instr i) := by
  obtain ⟨bs, hbs⟩ := h
  refine .silent rfl ?_
  have hr : (Fragment.instr i).raw = bs := by rw [Fragment.raw, hbs]; rfl
  unfold EmitM.instr
  rw [hbs]
  change (Except.ok (), a.emitBytes bs) = _
  unfold emitBytes put
  rw [hr]
  cases a.inCold <;> simp [Fragment.mark?, Fragment.field?]

theorem emits_label (l : String) (a : Assembler) : Emits a [(a.inCold, .label l)] (EmitM.label l) := by
  refine .marked rfl (fun hn => ?_) fun hold => ⟨a, run_label_of_old hold⟩
  rw [run_label_of_new hn]
  unfold define put here endOf
  cases a.inCold <;> simp [Fragment.mark?, Fragment.field?, Fragment.raw]

theorem emits_jump (hm : g.mark? = none) (hf : g.field? = some (opcode.length, t))
    (hr : g.raw = opcode ++ [0, 0, 0, 0]) (a : Assembler) :
    Emits a [(a.inCold, g)] (EmitM.jump opcode t) := by
  refine .silent hm ?_
  change (Except.ok (), (a.emitBytes opcode).reserve t) = _
  unfold reserve emitBytes put here endOf
  rw [hm, hf, hr]
  have ha : ∀ (s : Array UInt8) (bs : List UInt8), s ++ opcode ++ bs = s ++ (opcode ++ bs) :=
    fun s bs => Array.ext' (by simp only [Array.toList_appendList, append_assoc])
  have hs : ∀ s : Array UInt8, (s ++ opcode).size = s.size + opcode.length :=
    fun s => by rw [← Array.length_toList, Array.toList_appendList, length_append]; rfl
  cases a.inCold <;> simp only [Bool.false_eq_true, if_true, if_false, ha, hs]

theorem emits_jumpSite (t s : String) (a : Assembler) :
    Emits a [(a.inCold, .jumpSite t s)] (EmitM.jumpSite t s) := by
  have hs : (EmitM.jumpSite t s : EmitM Assembler Unit).run a =
      (EmitM.label s >>= fun _ => modify (reserve t) : EmitM Assembler Unit).run
        (a.emitBytes [0xE9]) := rfl
  refine .marked rfl (fun hn => ?_) fun hold => ?_
  · rw [hs, run_seq (run_label_of_new (by rwa [labels_emitBytes]))]
    change (Except.ok (), ((a.emitBytes [0xE9]).define s).reserve t) = _
    unfold reserve define emitBytes put here endOf
    cases a.inCold <;> simp [Fragment.mark?, Fragment.field?, Fragment.raw]
  · rw [hs]
    exact ⟨_, run_bind_of_error (run_label_of_old (by rwa [labels_emitBytes]))⟩

theorem select_cold (hs : s = .main ∨ s = .cold) (a : Assembler) :
    a.select s = .ok { a with inCold := decide (s = .cold) } := by
  rcases hs with rfl | rfl <;> rfl

theorem run_select_of_ok (h : a.select s = .ok b) :
    (EmitM.select s : EmitM Assembler Unit).run a = (.ok (), b) := by
  have hs : (Sink.select s a : Except (Abort AsmError) Assembler) = .ok b := h
  unfold EmitM.select
  rw [run_get_bind, hs]
  rfl

theorem Emits.inSection (hs : s = .main ∨ s = .cold)
    (h : Emits { a with inCold := decide (s = .cold) } st x) : Emits a st (EmitM.inSection s x) := by
  have hr : ∀ {r b}, x.run { a with inCold := decide (s = .cold) } = (r, b) →
      (EmitM.inSection s x).run a = (r, { b with inCold := a.inCold }) := by
    intro r b hx
    unfold EmitM.inSection
    rw [run_get_bind]
    change (EmitM.select s >>= fun _ => _ : EmitM Assembler Unit).run a = _
    have hl : (ExceptT.lift (ExceptT.run x) : EmitM Assembler _).run
        { a with inCold := decide (s = .cold) } = (.ok r, b) := by
      change (Except.ok (x.run _).1, (x.run _).2) = _
      rw [hx]
    rw [run_seq (run_select_of_ok (select_cold hs a)), run_seq hl]
    change (EmitM.select a.now >>= fun _ => _ : EmitM Assembler Unit).run b = _
    rw [run_seq (run_select_of_ok (select_now b a))]
    cases r <;> rfl
  rcases h with ⟨ho, hx⟩ | ⟨l, b, ht, hx⟩
  · refine .inl ⟨ho, ?_⟩
    rw [hr hx, foldl_put_inCold]
    have := inCold_foldl_put st a
    rw [← this]
  · exact .inr ⟨l, _, ht, hr hx⟩

end Assembler

namespace Fragment

open Assembler

mutual

theorem emits : ∀ (f : Fragment), f.Plain → ∀ a, Emits a (f.stream a.inCold) f.emit
  | instr _, h, a => by
    unfold Plain at h
    unfold stream emit
    exact emits_instr h a
  | label l, _, a => by
    unfold stream emit
    exact emits_label l a
  | jump t, _, a => by
    unfold stream emit
    exact emits_jump rfl rfl rfl a
  | jumpIf c t, _, a => by
    unfold stream emit
    exact emits_jump rfl rfl rfl a
  | jumpSite t s, _, a => by
    unfold stream emit
    exact emits_jumpSite t s a
  | group body, h, a => by
    unfold Plain at h
    unfold stream emit
    exact emitsAll body h a
  | inSection s body, h, a => by
    unfold Plain at h
    unfold stream emit
    exact .inSection h.1 (emits body h.2 _)
  | refuse _, h, _ => by
    unfold Plain at h
    exact h.elim

theorem emitsAll : ∀ (fs : List Fragment), PlainAll fs → ∀ a, Emits a (streamAll a.inCold fs) (emitAll fs)
  | [], _, a => by
    unfold streamAll emitAll
    refine .inl ⟨fun l => ?_, rfl⟩
    have : (a.labels.contains l).toNat ≤ 1 := Bool.toNat_le _
    simpa [uses] using this
  | f :: fs, h, a => by
    unfold PlainAll at h
    unfold streamAll emitAll
    refine (emits f h.1 a).bind ?_
    have := emitsAll fs h.2 ((f.stream a.inCold).foldl put a)
    rwa [inCold_foldl_put] at this

end

mutual

theorem plain_of_run_ok : ∀ (f : Fragment) {a b : Assembler},
    (f.emit : EmitM Assembler Unit).run a = (.ok (), b) → f.Plain
  | instr i, a, b, h => by
    unfold emit EmitM.instr at h
    unfold Plain
    cases hi : i.encode with
    | ok bs => exact ⟨bs, rfl⟩
    | error e =>
      rw [hi] at h
      cases h
  | label _, _, _, _ | jump _, _, _, _ | jumpIf _ _, _, _, _ | jumpSite _ _, _, _, _ => by
    unfold Plain
    trivial
  | group body, a, b, h => by
    unfold emit at h
    unfold Plain
    exact plainAll_of_run_ok body h
  | inSection s body, a, b, h => by
    obtain ⟨a', b', hs, hb, -⟩ := run_inSection_ok h
    unfold Plain
    refine ⟨?_, plain_of_run_ok body hb⟩
    unfold select at hs
    split at hs
    · exact .inl ‹_›
    · split at hs
      · exact .inr ‹_›
      · cases hs
  | refuse m, a, b, h => by cases h

theorem plainAll_of_run_ok : ∀ (fs : List Fragment) {a b : Assembler},
    (emitAll fs : EmitM Assembler Unit).run a = (.ok (), b) → PlainAll fs
  | [], _, _, _ => by
    unfold PlainAll
    trivial
  | f :: fs, a, b, h => by
    obtain ⟨_, a1, h1, h2⟩ := run_bind_ok h
    unfold PlainAll
    exact ⟨plain_of_run_ok f h1, plainAll_of_run_ok fs h2⟩

end

end Fragment

end TraceCompiler.Machine
