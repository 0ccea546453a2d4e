import Mathlib.Algebra.Ring.Int.Defs
import Mathlib.Data.List.Pairwise
import TraceCompiler.CodeMemory.Basic
import TraceCompiler.Proofs.Computation

/-! # Free spans as a set

Spans are compared as intervals of integers, from `lo` to before `hi`.
-/

namespace TraceCompiler

open List

namespace Span

variable {s t u c : Span} {l : List Span} {before : Span → Span → Bool}

def lo (s : Span) : Int := s.addr.toNat

def hi (s : Span) : Int := s.lo + s.size

/-- A span that has addresses, all of them before the last one there is. -/
structure Fits (s : Span) : Prop where
  pos : 0 < s.size
  bounded : s.hi < 0x10000000000000000

def Apart (s t : Span) : Prop := s.hi ≤ t.lo ∨ t.hi ≤ s.lo

def Within (s t : Span) : Prop := t.lo ≤ s.lo ∧ s.hi ≤ t.hi

def Covers (s : Span) (a : Int) : Prop := s.lo ≤ a ∧ a < s.hi

theorem Apart.symm (h : s.Apart t) : t.Apart s := Or.symm h

instance : Std.Symm Apart := ⟨fun _ _ => Apart.symm⟩

theorem Within.refl (s : Span) : s.Within s := ⟨Int.le_refl _, Int.le_refl _⟩

theorem Within.trans (h : s.Within t) (h' : t.Within u) : s.Within u :=
  ⟨Int.le_trans h'.1 h.1, Int.le_trans h.2 h'.2⟩

theorem Apart.within (h : t.Apart u) (hs : s.Within t) (hc : c.Within u) : s.Apart c :=
  h.elim (fun h => .inl (by have := hs.2; have := hc.1; omega))
    fun h => .inr (by have := hs.1; have := hc.2; omega)

theorem Apart.not_within (h : s.Apart t) (hs : 0 < s.size) : ¬ s.Within t := fun hw => by
  have : s.hi = s.lo + s.size := rfl
  obtain ⟨h1, h2⟩ := hw
  unfold Apart at h
  omega

theorem Apart.addr_ne (h : s.Apart t) (hs : 0 < s.size) (ht : 0 < t.size) : s.addr ≠ t.addr := by
  intro heq
  have : s.lo = t.lo := by rw [lo, heq, lo]
  have : s.hi = s.lo + s.size := rfl
  have : t.hi = t.lo + t.size := rfl
  unfold Apart at h
  omega

theorem apart_of_not_covers (hs : 0 < s.size) (ht : 0 < t.size)
    (h : ∀ a, s.Covers a → ¬ t.Covers a) : s.Apart t := by
  have hsh : s.hi = s.lo + s.size := rfl
  have hth : t.hi = t.lo + t.size := rfl
  have hm := h (max s.lo t.lo)
  unfold Covers at hm
  unfold Apart
  omega

theorem Apart.not_covers (h : s.Apart t) (hs : s.Covers a) : ¬ t.Covers a := by
  unfold Apart at h
  unfold Covers at *
  omega

theorem addr_eq_of_lo_eq (h : s.lo = t.lo) : s.addr = t.addr := UInt64.toNat_inj.mp (Int.ofNat_inj.mp h)

theorem eq_of_edges (h : s.lo = t.lo) (h' : s.hi = t.hi) : s = t := by
  have ha := addr_eq_of_lo_eq h
  have hs : s.size = t.size := by
    unfold hi at h'
    omega
  cases s
  cases t
  exact congrArg₂ Span.mk ha hs

theorem addr_le_iff : s.addr ≤ t.addr ↔ s.lo ≤ t.lo := by
  rw [UInt64.le_iff_toNat_le, lo, lo, Int.ofNat_le]

theorem addrBefore_iff : addrBefore s t = true ↔ s.lo < t.lo := by
  rw [addrBefore, decide_eq_true_eq, UInt64.lt_iff_toNat_lt, lo, lo, Int.ofNat_lt]

theorem sizeBefore_iff : sizeBefore s t = true ↔ s.size < t.size ∨ s.size = t.size ∧ s.lo < t.lo := by
  rw [sizeBefore, Bool.or_eq_true, Bool.and_eq_true, decide_eq_true_eq, decide_eq_true_eq,
    decide_eq_true_eq, UInt64.lt_iff_toNat_lt, lo, lo, Int.ofNat_lt]

theorem toNat_stop (h0 : 0 ≤ s.size) (hb : s.hi < 0x10000000000000000) : (s.stop.toNat : Int) = s.hi := by
  have : s.hi = s.addr.toNat + s.size := rfl
  have hs : ((Word.ofInt s.size).toNat : Int) = s.size := by
    rw [Word.toNat_ofInt]
    omega
  rw [stop, UInt64.toNat_add]
  omega

theorem Fits.covers_lo (h : s.Fits) : s.Covers s.lo := ⟨Int.le_refl _, Int.lt_add_of_pos_right _ h.pos⟩

theorem Fits.toNat_stop (h : s.Fits) : (s.stop.toNat : Int) = s.hi :=
  Span.toNat_stop (Int.le_of_lt h.pos) h.bounded

theorem Fits.stop_eq_iff (h : s.Fits) : s.stop = t.addr ↔ s.hi = t.lo := by
  rw [← UInt64.toNat_inj, ← Int.ofNat_inj, h.toNat_stop, lo]

theorem Fits.stop_le_iff (h : s.Fits) : s.stop ≤ t.addr ↔ s.hi ≤ t.lo := by
  rw [UInt64.le_iff_toNat_le, ← Int.ofNat_le, h.toNat_stop, lo]

/-! ## One ordered list -/

theorem insertBy_perm (h : ∀ t ∈ l, before t s = true ∨ before s t = true) :
    (insertBy before s l).Perm (s :: l) := by
  induction l with
  | nil => exact .refl _
  | cons t rest ih =>
    unfold insertBy
    split
    · exact ((ih fun u hu => h u (mem_cons_of_mem _ hu)).cons t).trans (.swap s t rest)
    · rename_i hts
      rw [if_pos ((h t mem_cons_self).resolve_left hts)]

theorem insertBy_sorted (ht : ∀ a b c, before a b = true → before b c = true → before a c = true)
    (h : ∀ t ∈ l, before t s = true ∨ before s t = true) (hl : l.Pairwise (before · ·)) :
    (insertBy before s l).Pairwise (before · ·) := by
  induction l with
  | nil => exact pairwise_singleton _ _
  | cons t rest ih =>
    have hr (u : Span) (hu : u ∈ rest) := h u (mem_cons_of_mem _ hu)
    obtain ⟨hf, hs⟩ := pairwise_cons.mp hl
    unfold insertBy
    split
    · rename_i hts
      refine pairwise_cons.mpr ⟨fun u hu => ?_, ih hr hs⟩
      rcases mem_cons.mp ((insertBy_perm hr).mem_iff.mp hu) with rfl | hu
      · exact hts
      · exact hf u hu
    · rename_i hts
      have hst := (h t mem_cons_self).resolve_left hts
      rw [if_pos hst]
      refine pairwise_cons.mpr ⟨fun u hu => ?_, hl⟩
      rcases mem_cons.mp hu with rfl | hu
      · exact hst
      · exact ht s t u hst (hf u hu)

theorem eraseBy_perm (hir : ∀ a, before a a = false) (hl : l.Pairwise (before · ·))
    (hs : s ∈ l) : l.Perm (s :: eraseBy before s l) := by
  induction l with
  | nil => cases hs
  | cons t rest ih =>
    obtain ⟨hf, hso⟩ := pairwise_cons.mp hl
    unfold eraseBy
    rcases mem_cons.mp hs with rfl | hs
    · have hk : rest.filter (fun u => before u s || before s u) = rest :=
        filter_eq_self.mpr fun u hu => by rw [hf u hu, Bool.or_true]
      rw [filter_cons_of_neg (by simp [hir]), hk]
    · rw [filter_cons_of_pos (by rw [hf s hs, Bool.true_or])]
      exact ((ih hso hs).cons t).trans (.swap s t _)

end Span

namespace FreeSpans

open TraceCompiler.Span

variable {f : FreeSpans} {s t c p n : Span} {prev next : Option Span} {size : Int} {mayJoin : Span → Bool}

structure Ordered (f : FreeSpans) : Prop where
  bySize : f.bySize.Pairwise (sizeBefore · ·)
  byAddr : f.byAddr.Pairwise (addrBefore · ·)
  same : f.bySize.Perm f.byAddr

theorem Ordered.empty : Ordered {} := ⟨.nil, .nil, .refl _⟩

theorem Ordered.nodup (h : f.Ordered) : f.byAddr.Nodup := h.byAddr.imp fun {a b} hab heq => by
    subst heq
    have := addrBefore_iff.mp hab
    omega

theorem Ordered.eq_of_perm (h : f.Ordered) (h' : f'.Ordered) (hp : f.byAddr.Perm f'.byAddr) : f = f' := by
  have hs : f.bySize = f'.bySize := List.Perm.eq_of_pairwise (fun a b _ _ hab hba => by
      rw [sizeBefore_iff] at hab hba
      omega) h.bySize h'.bySize (h.same.trans (hp.trans h'.same.symm))
  have ha : f.byAddr = f'.byAddr := List.Perm.eq_of_pairwise (fun a b _ _ hab hba => by
      rw [addrBefore_iff] at hab hba
      omega) h.byAddr h'.byAddr hp
  cases f
  cases f'
  exact congrArg₂ FreeSpans.mk hs ha

theorem Ordered.insert (h : f.Ordered) (hn : ∀ t ∈ f.byAddr, t.lo ≠ s.lo) :
    (f.insert s).Ordered ∧ (f.insert s).byAddr.Perm (s :: f.byAddr) := by
  have hs (t : Span) (ht : t ∈ f.bySize) : sizeBefore t s = true ∨ sizeBefore s t = true := by
    have := hn t (h.same.mem_iff.mp ht)
    rw [sizeBefore_iff, sizeBefore_iff]
    omega
  have ha (t : Span) (ht : t ∈ f.byAddr) : addrBefore t s = true ∨ addrBefore s t = true := by
    have := hn t ht
    rw [addrBefore_iff, addrBefore_iff]
    omega
  refine ⟨⟨insertBy_sorted (fun a b c => ?_) hs h.bySize,
    insertBy_sorted (fun a b c => ?_) ha h.byAddr, ?_⟩, insertBy_perm ha⟩
  · rw [sizeBefore_iff, sizeBefore_iff, sizeBefore_iff]
    omega
  · rw [addrBefore_iff, addrBefore_iff, addrBefore_iff]
    omega
  · exact (insertBy_perm hs).trans ((h.same.cons s).trans (insertBy_perm ha).symm)

theorem Ordered.erase (h : f.Ordered) (hs : s ∈ f.byAddr) :
    (f.erase s).Ordered ∧ f.byAddr.Perm (s :: (f.erase s).byAddr) := by
  have hsi : f.bySize.Perm (s :: (f.erase s).bySize) := by
    refine eraseBy_perm (fun a => ?_) h.bySize (h.same.mem_iff.mpr hs)
    rw [← Bool.not_eq_true, sizeBefore_iff]
    omega
  have ha : f.byAddr.Perm (s :: (f.erase s).byAddr) := by
    refine eraseBy_perm (fun a => ?_) h.byAddr hs
    rw [← Bool.not_eq_true, addrBefore_iff]
    omega
  exact ⟨⟨h.bySize.filter _, h.byAddr.filter _,
    (perm_cons s).mp (hsi.symm.trans (h.same.trans ha))⟩, ha⟩

theorem Ordered.eraseAll (h : f.Ordered) (hn : gone.Nodup) (hg : ∀ t ∈ gone, t ∈ f.byAddr) :
    (gone.foldl FreeSpans.erase f).Ordered ∧
      f.byAddr.Perm (gone ++ (gone.foldl FreeSpans.erase f).byAddr) := by
  induction gone generalizing f with
  | nil => exact ⟨h, .refl _⟩
  | cons t gone ih =>
    obtain ⟨hno, hn⟩ := nodup_cons.mp hn
    obtain ⟨h', hp⟩ := h.erase (hg t mem_cons_self)
    have hg' (u : Span) (hu : u ∈ gone) : u ∈ (f.erase t).byAddr := by
      rcases mem_cons.mp (hp.mem_iff.mp (hg u (mem_cons_of_mem _ hu))) with rfl | hu'
      · exact absurd hu hno
      · exact hu'
    obtain ⟨ho, ha⟩ := ih h' hn hg'
    exact ⟨ho, hp.trans (ha.cons t)⟩

/-- The smallest span of at least the given size, and of those the lowest. -/
structure BestFit (f : FreeSpans) (size : Int) (s : Span) : Prop where
  free : s ∈ f.byAddr
  large : size ≤ s.size
  least : ∀ t ∈ f.byAddr, size ≤ t.size → s.size < t.size ∨ s.size = t.size ∧ s.lo ≤ t.lo

theorem Ordered.bestFit (h : f.Ordered) (hs : f.bestFit? size = some s) : f.BestFit size s := by
  obtain ⟨hle, as, bs, hsp, hb⟩ := find?_eq_some_iff_append.mp hs
  refine ⟨h.same.mem_iff.mp (mem_of_find?_eq_some hs), by simpa using hle, fun t ht hsi => ?_⟩
  have hso := hsp ▸ h.bySize
  -- what stands before `s` is too small
  rcases mem_append.mp (hsp ▸ h.same.mem_iff.mpr ht) with ht | ht
  · simpa [hsi] using hb t ht
  · rcases mem_cons.mp ht with rfl | ht
    · exact .inr ⟨rfl, Int.le_refl _⟩
    · have := (pairwise_cons.mp (pairwise_append.mp hso).2.1).1 t ht
      rw [sizeBefore_iff] at this
      omega

theorem Ordered.bestFit?_eq_none (h : f.Ordered) :
    f.bestFit? size = none ↔ ∀ t ∈ f.byAddr, t.size < size := by
  rw [bestFit?, find?_eq_none]
  simp [h.same.mem_iff]

/-! ## Giving a span back -/

/-- The free spans among which a span is missing: all of them have addresses, and no two of them, nor
one of them and the missing one, share any. -/
structure Spaced (f : FreeSpans) (s : Span) : Prop where
  ordered : f.Ordered
  fits : ∀ t ∈ f.byAddr, t.Fits
  apart : f.byAddr.Pairwise Apart
  missing : s.Fits
  clear : ∀ t ∈ f.byAddr, t.Apart s

namespace Spaced

theorem apart_of_ne (h : f.Spaced s) (ht : t ∈ f.byAddr) (hp : p ∈ f.byAddr) (hne : t ≠ p) :
    t.Apart p := h.apart.forall ht hp hne

theorem eq_of_lo_eq (h : f.Spaced s) (ht : t ∈ f.byAddr) (hp : p ∈ f.byAddr)
    (heq : t.lo = p.lo) : t = p := by
  refine Decidable.byContradiction fun hne => ?_
  exact (h.apart_of_ne ht hp hne).addr_ne (h.fits t ht).pos (h.fits p hp).pos (addr_eq_of_lo_eq heq)

theorem before?_eq_some (h : f.Spaced s) : f.before? s = some p ↔ p ∈ f.byAddr ∧ p.hi = s.lo := by
  unfold before?
  rw [Option.filter_eq_some_iff, decide_eq_true_eq]
  constructor
  · rintro ⟨hl, hst⟩
    have hp := (mem_filter.mp (mem_of_getLast? hl)).1
    exact ⟨hp, (h.fits p hp).stop_eq_iff.mp hst⟩
  · rintro ⟨hp, ht⟩
    have hps := (h.fits p hp).pos
    have hph : p.hi = p.lo + p.size := rfl
    have hin : p ∈ f.byAddr.filter (·.addr ≤ s.addr) :=
      mem_filter.mpr ⟨hp, by rw [decide_eq_true_eq, addr_le_iff]; omega⟩
    refine ⟨?_, (h.fits p hp).stop_eq_iff.mpr ht⟩
    cases hl : (f.byAddr.filter (·.addr ≤ s.addr)).getLast? with
    | none =>
      rw [getLast?_eq_none_iff.mp hl] at hin
      cases hin
    | some q =>
      -- `q` is the last span that does not start above `s`, so `p` does not start above `q`
      obtain ⟨ys, hys⟩ := getLast?_eq_some_iff.mp hl
      obtain ⟨hq, hle⟩ := mem_filter.mp (mem_of_getLast? hl)
      rw [decide_eq_true_eq, addr_le_iff] at hle
      have hpq : p.lo ≤ q.lo := by
        have hs := hys ▸ h.ordered.byAddr.filter fun t : Span => t.addr ≤ s.addr
        rw [hys] at hin
        rcases mem_append.mp hin with hin | hin
        · have := addrBefore_iff.mp ((pairwise_append.mp hs).2.2 p hin q (by simp))
          omega
        · exact Int.le_of_eq (congrArg Span.lo (mem_singleton.mp hin))
      refine congrArg some (Decidable.byContradiction fun hne => ?_)
      have hqp := h.apart_of_ne hq hp hne
      have hqs := h.clear q hq
      have hqo := (h.fits q hq).pos
      have hqh : q.hi = q.lo + q.size := rfl
      have hsp := h.missing.pos
      have hsh : s.hi = s.lo + s.size := rfl
      unfold Apart at hqp hqs
      omega

theorem after?_eq_some (h : f.Spaced s) : f.after? s = some n ↔ n ∈ f.byAddr ∧ n.lo = s.hi := by
  unfold after?
  rw [Option.filter_eq_some_iff, decide_eq_true_eq]
  constructor
  · rintro ⟨hf, hst⟩
    exact ⟨mem_of_find?_eq_some hf, (h.missing.stop_eq_iff.mp hst.symm).symm⟩
  · rintro ⟨hn, ht⟩
    refine ⟨?_, (h.missing.stop_eq_iff.mpr ht.symm).symm⟩
    cases hf : f.byAddr.find? (s.stop ≤ ·.addr) with
    | none =>
      have := find?_eq_none.mp hf n hn
      rw [decide_eq_true_eq, h.missing.stop_le_iff] at this
      omega
    | some q =>
      obtain ⟨hle, as, bs, hs, hb⟩ := find?_eq_some_iff_append.mp hf
      rw [decide_eq_true_eq, h.missing.stop_le_iff] at hle
      have hq := mem_of_find?_eq_some hf
      -- what stands before `q` starts below the end of `s`, so `n` is not there
      have hqn : q.lo ≤ n.lo := by
        have hso := hs ▸ h.ordered.byAddr
        rw [hs] at hn
        rcases mem_append.mp hn with hn | hn
        · have := hb n hn
          rw [Bool.not_eq_true', decide_eq_false_iff_not, h.missing.stop_le_iff] at this
          omega
        · rcases mem_cons.mp hn with rfl | hn
          · exact Int.le_refl _
          · have := (pairwise_cons.mp (pairwise_append.mp hso).2.1).1 n hn
            have := addrBefore_iff.mp this
            omega
      exact congrArg some (h.eq_of_lo_eq hq hn (by omega))

end Spaced

/-- What becomes of the free spans when `s` is given back: it is joined with the spans `gone`, all
in the interval `c`, and none of the others in `c` touches the outcome. -/
structure Merged (f f' : FreeSpans) (s c : Span) (gone rest : List Span) (joined : Span) : Prop where
  ordered : f'.Ordered
  before : f.byAddr.Perm (gone ++ rest)
  after : f'.byAddr.Perm (joined :: rest)
  within : joined.Within c
  start : joined.lo = s.lo ∨ ∃ t ∈ gone, joined.lo = t.lo
  size : joined.size = s.size + (gone.map Span.size).sum
  covers : ∀ a, joined.Covers a ↔ s.Covers a ∨ ∃ t ∈ gone, t.Covers a
  clear : ∀ t ∈ rest, t.Apart joined
  loose : ∀ t ∈ rest, t.Within c → t.hi ≠ joined.lo ∧ joined.hi ≠ t.lo

def extra (o : Option Span) : Int := (o.map (·.size)).getD 0

def join (prev next : Option Span) (s : Span) : Span :=
  ⟨(prev.map (·.addr)).getD s.addr, wrap64 (extra prev + s.size + extra next)⟩

theorem release_eq : f.release s mayJoin =
    ((((f.before? s).filter mayJoin).toList ++ ((f.after? s).filter mayJoin).toList).foldl erase f).insert
      (join ((f.before? s).filter mayJoin) ((f.after? s).filter mayJoin) s) := rfl

/-- The neighbour below `s` in `c`, if there is one, reaches `extra` bytes down, and what else is
free in `c` stays clear of it. -/
theorem Spaced.extra_below (h : f.Spaced s) (hw : s.Within c)
    (hp : ∀ p, prev = some p ↔ p ∈ f.byAddr ∧ p.hi = s.lo ∧ p.Within c)
    (hl : ∀ t ∈ f.byAddr, ∀ u ∈ f.byAddr, t.Within c → u.Within c → t.hi ≠ u.lo) :
    0 ≤ extra prev ∧ c.lo ≤ s.lo - extra prev ∧
      (∀ a, (∃ t, prev = some t ∧ t.Covers a) ↔ s.lo - extra prev ≤ a ∧ a < s.lo) ∧
      ∀ t ∈ f.byAddr, prev ≠ some t → (t.hi ≤ s.lo → t.hi ≤ s.lo - extra prev) ∧
        (t.Within c → t.hi ≠ s.lo - extra prev) := by
  have hlo := hw.1
  cases prev with
  | none =>
    have : extra none = 0 := rfl
    refine ⟨by omega, by omega, fun a => ⟨nofun, by omega⟩, fun t ht _ => ⟨by omega, fun htw heq => ?_⟩⟩
    cases (hp t).mpr ⟨ht, by omega, htw⟩
  | some p =>
    obtain ⟨hm, hto, hpw⟩ := (hp p).mp rfl
    have : extra (some p) = p.size := rfl
    have hhi : p.hi = p.lo + p.size := rfl
    have hpo := (h.fits p hm).pos
    have hpl := hpw.1
    refine ⟨by omega, by omega, fun a => ?_, fun t ht hne => ⟨fun hle => ?_, fun htw heq => ?_⟩⟩
    · simp only [Option.some.injEq, exists_eq_left', Covers]
      omega
    · have ha := h.apart_of_ne ht hm fun heq => hne (congrArg some heq.symm)
      have htp := (h.fits t ht).pos
      have hth : t.hi = t.lo + t.size := rfl
      unfold Apart at ha
      omega
    · exact hl t ht p hm htw hpw (by omega)

theorem Spaced.extra_above (h : f.Spaced s) (hw : s.Within c)
    (hn : ∀ n, next = some n ↔ n ∈ f.byAddr ∧ n.lo = s.hi ∧ n.Within c)
    (hl : ∀ t ∈ f.byAddr, ∀ u ∈ f.byAddr, t.Within c → u.Within c → t.hi ≠ u.lo) :
    0 ≤ extra next ∧ s.hi + extra next ≤ c.hi ∧
      (∀ a, (∃ t, next = some t ∧ t.Covers a) ↔ s.hi ≤ a ∧ a < s.hi + extra next) ∧
      ∀ t ∈ f.byAddr, next ≠ some t → (s.hi ≤ t.lo → s.hi + extra next ≤ t.lo) ∧
        (t.Within c → s.hi + extra next ≠ t.lo) := by
  have hhi := hw.2
  cases next with
  | none =>
    have : extra none = 0 := rfl
    refine ⟨by omega, by omega, fun a => ⟨nofun, by omega⟩, fun t ht _ => ⟨by omega, fun htw heq => ?_⟩⟩
    cases (hn t).mpr ⟨ht, by omega, htw⟩
  | some n =>
    obtain ⟨hm, hto, hnw⟩ := (hn n).mp rfl
    have : extra (some n) = n.size := rfl
    have hnh : n.hi = n.lo + n.size := rfl
    have hp := (h.fits n hm).pos
    have := hnw.2
    refine ⟨by omega, by omega, fun a => ?_, fun t ht hne => ⟨fun hle => ?_, fun htw heq => ?_⟩⟩
    · simp only [Option.some.injEq, exists_eq_left', Covers]
      omega
    · have ha := h.apart_of_ne ht hm fun heq => hne (congrArg some heq.symm)
      have htp := (h.fits t ht).pos
      have hth : t.hi = t.lo + t.size := rfl
      unfold Apart at ha
      omega
    · exact hl n hm t ht hnw htw (by omega)

theorem release_merged (h : f.Spaced s) (hw : s.Within c) (hc : c.size < 0x8000000000000000)
    (hjo : ∀ t ∈ f.byAddr, mayJoin t = true ↔ t.Within c)
    (hl : ∀ t ∈ f.byAddr, ∀ u ∈ f.byAddr, t.Within c → u.Within c → t.hi ≠ u.lo) :
    ∃ gone rest joined, Merged f (f.release s mayJoin) s c gone rest joined := by
  rw [release_eq]
  generalize hpr : (f.before? s).filter mayJoin = prev
  generalize hnx : (f.after? s).filter mayJoin = next
  have hp (p : Span) : prev = some p ↔ p ∈ f.byAddr ∧ p.hi = s.lo ∧ p.Within c := by
    rw [← hpr, Option.filter_eq_some_iff, h.before?_eq_some]
    exact ⟨fun ⟨⟨hm, ht⟩, hj⟩ => ⟨hm, ht, (hjo p hm).mp hj⟩,
      fun ⟨hm, ht, hj⟩ => ⟨⟨hm, ht⟩, (hjo p hm).mpr hj⟩⟩
  have hn (n : Span) : next = some n ↔ n ∈ f.byAddr ∧ n.lo = s.hi ∧ n.Within c := by
    rw [← hnx, Option.filter_eq_some_iff, h.after?_eq_some]
    exact ⟨fun ⟨⟨hm, ht⟩, hj⟩ => ⟨hm, ht, (hjo n hm).mp hj⟩,
      fun ⟨hm, ht, hj⟩ => ⟨⟨hm, ht⟩, (hjo n hm).mpr hj⟩⟩
  obtain ⟨hP, hPc, hPcov, hPrest⟩ := h.extra_below hw hp hl
  obtain ⟨hN, hNc, hNcov, hNrest⟩ := h.extra_above hw hn hl
  have hsp := h.missing.pos
  have hsh : s.hi = s.lo + s.size := rfl
  have hch : c.hi = c.lo + c.size := rfl
  -- the outcome is the interval from below `prev` to above `next`
  have hlo : (join prev next s).lo = s.lo - extra prev := by
    cases prev with
    | none => exact (Int.sub_zero _).symm
    | some p =>
      have hto := ((hp p).mp rfl).2.1
      have : p.hi = p.lo + p.size := rfl
      change p.lo = s.lo - p.size
      omega
  have hs : (join prev next s).size = s.size + (extra prev + extra next) := by
    change Int.bmod _ _ = _
    rw [Int.bmod_def]
    omega
  have hhi : (join prev next s).hi = s.hi + extra next := by
    rw [hi, hlo, hs]
    omega
  have hg (t : Span) (ht : t ∈ prev.toList ++ next.toList) : t ∈ f.byAddr := by
    rcases mem_append.mp ht with ht | ht
    · exact ((hp t).mp (Option.mem_toList.mp ht)).1
    · exact ((hn t).mp (Option.mem_toList.mp ht)).1
  have hno : (prev.toList ++ next.toList).Nodup := by
    refine nodup_append.mpr ⟨by cases prev <;> simp, by cases next <;> simp,
      fun p hpm n hnm heq => ?_⟩
    obtain ⟨hm, hto, -⟩ := (hp p).mp (Option.mem_toList.mp hpm)
    obtain ⟨-, hto', -⟩ := (hn n).mp (Option.mem_toList.mp hnm)
    have := (h.fits p hm).pos
    have : p.hi = p.lo + p.size := rfl
    subst heq
    omega
  obtain ⟨ho, hpe⟩ := h.ordered.eraseAll hno hg
  generalize ((prev.toList ++ next.toList).foldl erase f) = kept at ho hpe ⊢
  have hr (t : Span) (ht : t ∈ kept.byAddr) : t ∈ f.byAddr ∧ prev ≠ some t ∧ next ≠ some t := by
    have hd := (nodup_append.mp (hpe.nodup_iff.mp h.ordered.nodup)).2.2
    refine ⟨hpe.mem_iff.mpr (mem_append_right _ ht), fun heq => ?_, fun heq => ?_⟩
    · exact hd t (mem_append_left _ (Option.mem_toList.mpr heq)) t ht rfl
    · exact hd t (mem_append_right _ (Option.mem_toList.mpr heq)) t ht rfl
  have hcl (t : Span) (ht : t ∈ kept.byAddr) : t.Apart (join prev next s) := by
    obtain ⟨hm, hne, hne'⟩ := hr t ht
    rcases h.clear t hm with hle | hle
    · exact .inl (hlo ▸ (hPrest t hm hne).1 hle)
    · exact .inr (hhi ▸ (hNrest t hm hne').1 hle)
  have hnw (t : Span) (ht : t ∈ kept.byAddr) : t.lo ≠ (join prev next s).lo := fun heq => by
    refine (hcl t ht).addr_ne (h.fits t (hr t ht).1).pos ?_ (addr_eq_of_lo_eq heq)
    omega
  obtain ⟨ho', hpe'⟩ := ho.insert hnw
  refine ⟨prev.toList ++ next.toList, kept.byAddr, join prev next s, ho', hpe, hpe',
    ⟨by omega, by omega⟩, ?_, ?_, fun a => ?_, hcl, fun t ht htw => ?_⟩
  · cases prev with
    | none => exact .inl (hlo.trans (Int.sub_zero _))
    | some p => exact .inr ⟨p, by simp, rfl⟩
  · rw [hs, map_append, sum_append]
    cases prev <;> cases next <;> simp [extra]
  · simp only [mem_append, Option.mem_toList, or_and_right, exists_or]
    rw [hPcov, hNcov, Covers, Covers, hlo, hhi]
    omega
  · obtain ⟨hm, hne, hne'⟩ := hr t ht
    exact ⟨hlo ▸ (hPrest t hm hne).2 htw, hhi ▸ (hNrest t hm hne').2 htw⟩

end FreeSpans

/-! ## The operations of code memory -/

variable {μ : Type}

def Region.span (c : Region) : Span := ⟨c.base, c.size⟩

/-- What a mapper came to, from a state of it on, by mapping and protecting: the state, and the
spans that it mapped. -/
inductive Mapper.Served (M : Mapper μ) (start : μ) : μ → List Span → Prop where
  | start : Served M start start []
  | mapped {p p' : μ} {spans : List Span} {n : Int} {r : Region} (h : Served M start p spans)
      (hmap : M.map n p = (.ok r, p')) : Served M start p' (spans ++ [r.span])
  | refused {p p' : μ} {spans : List Span} {n : Int} {e : String} (h : Served M start p spans)
      (hmap : M.map n p = (.error e, p')) : Served M start p' spans
  | guarded {p p' : μ} {spans : List Span} {addr : Word} {n : Nat} {writable : Bool}
      {r : Except String Unit} (h : Served M start p spans)
      (hprotect : M.protect addr n writable p = (r, p')) : Served M start p' spans

namespace CodeMemory

variable {m m' : CodeMemory μ} {c : Region} {addr : Word} {code data : List UInt8} {size : Int}
  {r : Except (Abort Error) Unit}

/-! ## Rounding -/

theorem tdiv_mul_le {z : Int} (h : 0 ≤ z) (page : Nat) :
    0 ≤ z.tdiv page * page ∧ z.tdiv page * page ≤ z := by
  rw [Int.tdiv_eq_ediv_of_nonneg h]
  refine ⟨Int.mul_nonneg (Int.ediv_nonneg h (Int.natCast_nonneg _)) (Int.natCast_nonneg _), ?_⟩
  rcases Nat.eq_zero_or_pos page with rfl | hp
  · simpa using h
  · exact Int.ediv_mul_le z (by omega)

/-- A rounded number consists of whole units, even if the rounding overflows. -/
theorem dvd_alignUp (n : Int) (page : Nat) : (page : Int) ∣ alignUp n page := by
  unfold alignUp
  have hr := wrap64_range (n + page - 1)
  generalize wrap64 (n + page - 1) = y at hr ⊢
  have hb : -0x8000000000000000 ≤ y.tdiv page * page ∧ y.tdiv page * page < 0x8000000000000000 := by
    rcases Int.le_total 0 y with hy | hy
    · have := tdiv_mul_le hy page
      omega
    · have := tdiv_mul_le (z := -y) (by omega) page
      rw [Int.neg_tdiv, Int.neg_mul] at this
      omega
  rw [wrap64_of_lt hb.1 hb.2]
  exact Int.dvd_mul_left ..

theorem alignUp_bounds {n : Int} {page : Nat} (h0 : 0 ≤ n) (hp : 0 < page)
    (h : n + page ≤ 0x8000000000000000) : n ≤ alignUp n page ∧ alignUp n page < n + page := by
  have hs : wrap64 (n + page - 1) = n + page - 1 := wrap64_of_lt (by omega) (by omega)
  have hd := Int.mul_ediv_add_emod (n + page - 1) page
  have hm := Int.emod_nonneg (n + page - 1) (b := page) (by omega)
  have hlt := Int.emod_lt_of_pos (n + page - 1) (b := page) (by omega)
  rw [alignUp, hs, Int.tdiv_eq_ediv_of_nonneg (by omega), Int.mul_comm, wrap64_of_lt] <;> omega

theorem alignUp_alignment {n : Nat} (h : n + 15 < 0x8000000000000000) :
    (n : Int) ≤ alignUp n alignment ∧ (16 : Int) ∣ alignUp n alignment ∧
      alignUp n alignment < 0x8000000000000000 :=
  ⟨(alignUp_bounds (by omega) (by decide) (by rw [alignment]; omega)).1, dvd_alignUp n alignment,
    (wrap64_range _).2⟩

/-! ## What operations do -/

theorem run_onPages {α : Type} (op : Mapper μ → μ → Except String α × μ) (cause : String → Error)
    (m : CodeMemory μ) : (onPages op cause).run m =
      ((op m.mapper m.pages).1.mapError fun e => .error (cause e),
        { m with pages := (op m.mapper m.pages).2 }) := by
  unfold onPages
  rw [run_get_bind]
  rcases op m.mapper m.pages with ⟨e | a, p⟩ <;> rfl

def request (m : CodeMemory μ) (size : Int) : Int :=
  if m.chunkSize < size then alignUp size m.mapper.pageSize else m.chunkSize

inductive Grew (m : CodeMemory μ) (n : Int) : Except (Abort Error) Unit → CodeMemory μ → Prop where
  | refused {e : String} {p : μ} (h : m.mapper.map n m.pages = (.error e, p)) :
    Grew m n (.error (.error (.map n e))) { m with pages := p }
  | empty {c : Region} {p : μ} (h : m.mapper.map n m.pages = (.ok c, p)) (hc : c.size = 0) :
    Grew m n (.error .missing) { m with pages := p }
  | mapped {c : Region} {p : μ} (h : m.mapper.map n m.pages = (.ok c, p)) (hc : c.size ≠ 0) :
    Grew m n (.ok ())
      { m with pages := p, chunks := m.chunks ++ [c], free := m.free.insert c.span }

theorem run_grow (hr : (grow size).run m = (r, m')) : Grew m (m.request size) r m' := by
  have hm := run_onPages (·.map (m.request size)) (.map (m.request size)) m
  change (onPages (·.map (m.request size)) (.map (m.request size)) >>= _).run m = _ at hr
  rcases h : m.mapper.map (m.request size) m.pages with ⟨e | c, p⟩ <;> rw [h] at hm
  · rw [run_bind_of_error hm] at hr
    cases hr
    exact .refused h
  · rw [run_seq hm] at hr
    split at hr <;> cases hr
    · exact .empty h ‹_›
    · exact .mapped h ‹_›

/-- A span is taken from those that fit, if need be after growing. -/
inductive Took (m : CodeMemory μ) (size : Int) : Except (Abort Error) Span → CodeMemory μ → Prop where
  | found {s : Span} (h : m.free.bestFit? size = some s) : Took m size (.ok s) m
  | failed {e : Abort Error} {m' : CodeMemory μ} (h : m.free.bestFit? size = none)
      (hgrew : Grew m (m.request size) (.error e) m') : Took m size (.error e) m'
  | grown {m' : CodeMemory μ} (h : m.free.bestFit? size = none)
      (hgrew : Grew m (m.request size) (.ok ()) m') :
      Took m size ((m'.free.bestFit? size).elim (.error (.error (.noSpan size))) .ok) m'

theorem run_takeSpan {r : Except (Abort Error) Span} (hr : (takeSpan size).run m = (r, m')) :
    Took m size r m' := by
  unfold takeSpan at hr
  rw [run_get_bind] at hr
  cases hf : m.free.bestFit? size with
  | some s =>
    rw [hf] at hr
    cases hr
    exact .found hf
  | none =>
    rw [hf] at hr
    rcases hg : (grow size).run m with ⟨e | ⟨⟩, m1⟩
    · rw [run_bind_of_error hg] at hr
      cases hr
      exact .failed hf (run_grow hg)
    · rw [run_seq hg, run_get_bind] at hr
      have ht := Took.grown hf (run_grow hg)
      split at hr <;> rename_i hf' <;> cases hr <;> rw [hf'] at ht <;> exact ht

theorem Took.grew {r : Except (Abort Error) Span} (h : Took m size r m') :
    m' = m ∨ ∃ r', Grew m (m.request size) r' m' := by
  cases h with
  | found _ => exact .inl rfl
  | failed _ hg | grown _ hg => exact .inr ⟨_, hg⟩

theorem Took.bestFit? (h : Took m size (.ok s) m') : m'.free.bestFit? size = some s := by
  generalize hr : Except.ok s = r at h
  cases h with
  | found h => exact Except.ok.inj hr ▸ h
  | failed _ _ => cases hr
  | grown _ _ =>
    cases hf : m'.free.bestFit? size with
    | none =>
      rw [hf] at hr
      cases hr
    | some s' =>
      rw [hf] at hr
      exact (congrArg some (Except.ok.inj hr)).symm

/-- The pages of a chunk that `n` bytes from an address on touch: where they start, and their size. -/
def touched (page : Nat) (c : Region) (addr : Word) (n : Nat) : Word × Nat :=
  let offset := (addr - c.base).toNat
  let first := offset / page * page
  let last := (offset + n + page - 1) / page * page
  (if first = c.size then c.base else c.base + first.toUInt64, last - first)

/-- Writing opens pages, copies, and closes them again, as far as the mapper allows. -/
inductive Wrote (m : CodeMemory μ) (addr : Word) (data : List UInt8) (c : Region) :
    Except (Abort Error) Unit → CodeMemory μ → Prop where
  | outside (h : c.size < ((addr - c.base).toNat + data.length + m.mapper.pageSize - 1) /
      m.mapper.pageSize * m.mapper.pageSize) : Wrote m addr data c (.error .missing) m
  | locked {start : Word} {n : Nat} {e : String} {p : μ}
      (htouched : touched m.mapper.pageSize c addr data.length = (start, n))
      (h : m.mapper.protect start n true m.pages = (.error e, p)) :
      Wrote m addr data c (.error (.error (.makeWritable e))) { m with pages := p }
  | copied {start : Word} {n : Nat} {p p' : μ} {r : Except String Unit}
      (htouched : touched m.mapper.pageSize c addr data.length = (start, n))
      (h : m.mapper.protect start n true m.pages = (.ok (), p))
      (h' : m.mapper.protect start n false p = (r, p')) :
      Wrote m addr data c (r.mapError fun e => .error (.makeExecutable e))
        { m with pages := p', chunks := overwriteIn addr data m.chunks }

theorem run_writePages (hc : m.chunkOf? addr data.length = some c)
    (hr : (writePages addr data).run m = (r, m')) : Wrote m addr data c r m' := by
  unfold writePages at hr
  rw [run_get_bind, hc] at hr
  dsimp only at hr
  split at hr
  · cases hr
    exact .outside ‹_›
  · rcases ht : touched m.mapper.pageSize c addr data.length with ⟨start, n⟩
    have hrw := run_onPages (·.protect start n true) .makeWritable m
    change (onPages (·.protect (touched m.mapper.pageSize c addr data.length).1
      (touched m.mapper.pageSize c addr data.length).2 true) .makeWritable >>= fun _ => modify _ >>= fun _ =>
      onPages (·.protect (touched m.mapper.pageSize c addr data.length).1
        (touched m.mapper.pageSize c addr data.length).2 false) .makeExecutable).run m = _ at hr
    rw [ht] at hr
    rcases h : m.mapper.protect start n true m.pages with ⟨e | ⟨⟩, p⟩ <;> rw [h] at hrw
    · rw [run_bind_of_error hrw] at hr
      cases hr
      exact .locked ht h
    · rw [run_seq hrw, run_seq (run_modify _), run_onPages] at hr
      cases hr
      exact .copied ht h rfl

theorem run_writePages_none (hc : m.chunkOf? addr data.length = none)
    (hr : (writePages addr data).run m = (r, m')) :
    r = .error (.error (.outOfRange addr data.length)) ∧ m' = m := by
  unfold writePages at hr
  rw [run_get_bind, hc] at hr
  cases hr
  exact ⟨rfl, rfl⟩

/-- The mapper refuses to open the pages that `n` bytes touch, or to close them again. -/
inductive Denied (m : CodeMemory μ) (addr : Word) (n : Nat) : Abort Error → Prop where
  | writable {c : Region} {start : Word} {k : Nat} {e : String} {p : μ} (hc : c ∈ m.chunks)
      (htouched : touched m.mapper.pageSize c addr n = (start, k))
      (h : m.mapper.protect start k true m.pages = (.error e, p)) : Denied m addr n (.error (.makeWritable e))
  | executable {c : Region} {start : Word} {k : Nat} {e : String} {p p' : μ} (hc : c ∈ m.chunks)
      (htouched : touched m.mapper.pageSize c addr n = (start, k))
      (h : m.mapper.protect start k true m.pages = (.ok (), p))
      (h' : m.mapper.protect start k false p = (.error e, p')) : Denied m addr n (.error (.makeExecutable e))

theorem Wrote.ok_or_denied (h : Wrote m addr data c r m') (hc : c ∈ m.chunks)
    (hr : ∀ x, r ≠ .error (.fault x)) : r = .ok () ∧ m'.chunks = overwriteIn addr data m.chunks ∨
      ∃ e, r = .error e ∧ Denied m addr data.length e := by
  cases h with
  | outside _ => exact absurd rfl (hr _)
  | locked ht h => exact .inr ⟨_, rfl, .writable hc ht h⟩
  | @copied _ _ _ _ r' ht h h' =>
    cases r' with
    | ok _ => exact .inl ⟨rfl, rfl⟩
    | error _ => exact .inr ⟨_, rfl, .executable hc ht h h'⟩

/-- The ways of an allocation: it is refused before anything is taken, or no span is found, or code
is written to a block that was carved out for it, which goes back if the write fails. -/
inductive Allocated (m : CodeMemory μ) (code : List UInt8) :
    Except (Abort Error) Block → CodeMemory μ → Prop where
  | refused {e : Abort Error} (h : code = [] ∨ m.closed = true) : Allocated m code (.error e) m
  | full {e : Abort Error} {m1 : CodeMemory μ} (hne : code ≠ [])
      (h : (takeSpan (alignUp code.length alignment)).run m = (.error e, m1)) :
      Allocated m code (.error e) m1
  | written {s : Span} {m1 m2 : CodeMemory μ} (hne : code ≠ [])
      (h : (takeSpan (alignUp code.length alignment)).run m = (.ok s, m1))
      (hwrite : (writePages s.addr code).run (m1.carve s (alignUp code.length alignment)) =
        (.ok (), m2)) :
      Allocated m code (.ok ⟨s.addr, alignUp code.length alignment⟩) m2
  | undone {s : Span} {e : Error} {m1 m2 : CodeMemory μ} (hne : code ≠ [])
      (h : (takeSpan (alignUp code.length alignment)).run m = (.ok s, m1))
      (hwrite : (writePages s.addr code).run (m1.carve s (alignUp code.length alignment)) =
        (.error (.error e), m2)) :
      Allocated m code (.error (.error e)) (m2.release ⟨s.addr, alignUp code.length alignment⟩)
  | broken {s : Span} {x : Option String} {m1 m2 : CodeMemory μ} (hne : code ≠ [])
      (h : (takeSpan (alignUp code.length alignment)).run m = (.ok s, m1))
      (hwrite : (writePages s.addr code).run (m1.carve s (alignUp code.length alignment)) =
        (.error (.fault x), m2)) :
      Allocated m code (.error (.fault x)) m2

theorem run_allocate {r : Except (Abort Error) Block} (hr : (allocate code).run m = (r, m')) :
    Allocated m code r m' := by
  unfold allocate at hr
  split at hr
  · cases hr
    exact .refused (.inl (isEmpty_iff.mp ‹_›))
  · rename_i he
    have hne : code ≠ [] := fun h => he (isEmpty_iff.mpr h)
    rw [run_get_bind] at hr
    split at hr
    · cases hr
      exact .refused (.inr ‹_›)
    · rcases ht : (takeSpan (alignUp code.length alignment)).run m with ⟨e | s, m1⟩
      · rw [run_bind_of_error ht] at hr
        cases hr
        exact .full hne ht
      · rw [run_seq ht, run_seq (run_modify _)] at hr
        rcases hw : (writePages s.addr code).run (m1.carve s (alignUp code.length alignment)) with
          ⟨e | ⟨⟩, m2⟩
        · cases e with
          | error e =>
            rw [run_bind_of_error (run_tryCatch_of_error hw)] at hr
            cases hr
            exact .undone hne ht hw
          | fault x =>
            rw [run_bind_of_error (run_tryCatch_of_error hw)] at hr
            cases hr
            exact .broken hne ht hw
        · rw [run_seq (run_tryCatch_of_ok hw)] at hr
          cases hr
          exact .written hne ht hw

end CodeMemory

end TraceCompiler
