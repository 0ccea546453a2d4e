import Mathlib.Algebra.BigOperators.Ring.List
import Mathlib.Algebra.Ring.Int.Defs
import TraceCompiler.Proofs.CodeMemory.Spans

/-! # Tilings of chunks

Blocks and free spans tile the chunks: every address of a chunk is in exactly one of them, none
reaches over the end of its chunk, and free spans of one chunk do not touch.
-/

namespace TraceCompiler

open TraceCompiler.Span FreeSpans List

def Span.total (l : List Span) : Int := (l.map Span.size).sum

@[simp] theorem Span.total_nil : Span.total [] = 0 := rfl

@[simp] theorem Span.total_cons (s : Span) (l : List Span) :
    Span.total (s :: l) = s.size + Span.total l := by
  rw [total, map_cons, sum_cons, total]

@[simp] theorem Span.total_append (l l' : List Span) :
    Span.total (l ++ l') = Span.total l + Span.total l' := by
  rw [total, map_append, sum_append, total, total]

theorem Span.total_perm (h : l.Perm l') : Span.total l = Span.total l' := (h.map _).sum_eq

theorem Span.total_nonneg (h : ∀ s ∈ l, 0 < s.size) : 0 ≤ Span.total l := by
  induction l with
  | nil => exact Int.le_refl 0
  | cons s l ih =>
    have := h s mem_cons_self
    have := ih fun t ht => h t (mem_cons_of_mem _ ht)
    rw [total_cons]
    omega

/-- The blocks and the free spans tile the chunks, all of them with multiples of `unit` as
addresses and sizes. -/
structure Tiling (unit : Int) (chunks : List Span) (free : FreeSpans) (blocks : List Span) :
    Prop where
  ordered : free.Ordered
  chunkFits : ∀ c ∈ chunks, c.Fits ∧ c.size < 0x8000000000000000
  chunksApart : chunks.Pairwise Apart
  pos : ∀ s ∈ blocks ++ free.byAddr, 0 < s.size
  aligned : ∀ s ∈ blocks ++ free.byAddr, unit ∣ s.lo ∧ unit ∣ s.size
  within : ∀ s ∈ blocks ++ free.byAddr, ∃ c ∈ chunks, s.Within c
  apart : (blocks ++ free.byAddr).Pairwise Apart
  covered : ∀ c ∈ chunks, ∀ a, c.Covers a → ∃ s ∈ blocks ++ free.byAddr, s.Covers a
  loose : ∀ c ∈ chunks, ∀ s ∈ free.byAddr, ∀ t ∈ free.byAddr,
    s.Within c → t.Within c → s.hi ≠ t.lo
  total : total chunks = total (blocks ++ free.byAddr)

namespace Tiling

variable {unit size : Int} {chunks blocks : List Span} {f f' : FreeSpans} {s t b c d : Span}

theorem empty (unit : Int) : Tiling unit [] {} [] where
  ordered := .empty
  chunkFits := nofun
  chunksApart := .nil
  pos := nofun
  aligned := nofun
  within := nofun
  apart := .nil
  covered := nofun
  loose := nofun
  total := rfl

theorem fits (h : Tiling unit chunks f blocks) (hs : s ∈ blocks ++ f.byAddr) : s.Fits := by
  obtain ⟨c, hc, hw⟩ := h.within s hs
  have := (h.chunkFits c hc).1.bounded
  have := hw.2
  exact ⟨h.pos s hs, by omega⟩

theorem chunk_unique (h : Tiling unit chunks f blocks) (hc : c ∈ chunks) (hd : d ∈ chunks)
    (hs : 0 < s.size) (hsc : s.Within c) (hsd : s.Within d) : c = d := by
  refine Decidable.byContradiction fun hne => ?_
  exact ((h.chunksApart.forall hc hd hne).within (Within.refl c) hsd).symm.not_within hs hsc

theorem within_of_covers (h : Tiling unit chunks f blocks) (hs : s ∈ blocks ++ f.byAddr)
    (hsa : s.Covers a) (hc : c ∈ chunks) (hca : c.Covers a) : s.Within c := by
  obtain ⟨d, hd, hw⟩ := h.within s hs
  have hda : d.Covers a := ⟨Int.le_trans hw.1 hsa.1, Int.lt_of_lt_of_le hsa.2 hw.2⟩
  have : d = c := Decidable.byContradiction fun hne =>
    (h.chunksApart.forall hd hc hne).not_covers hda hca
  exact this ▸ hw

theorem free_mem (hs : s ∈ f.byAddr) : s ∈ blocks ++ f.byAddr := mem_append_right _ hs

section

variable (h : Tiling unit chunks f blocks)
include h

theorem spaced (hb : b.Fits) (hc : ∀ t ∈ f.byAddr, t.Apart b) : f.Spaced b where
  ordered := h.ordered
  fits _ ht := h.fits (free_mem ht)
  apart := (pairwise_append.mp h.apart).2.1
  missing := hb
  clear := hc

theorem clear_of_apart (ha : ∀ d ∈ chunks, d.Apart c) (hs : s ∈ blocks ++ f.byAddr) : s.Apart c := by
  obtain ⟨d, hd, hw⟩ := h.within s hs
  exact (ha d hd).within hw (.refl c)

theorem insert (hc : c.Fits) (ha : ∀ d ∈ chunks, d.Apart c) :
    (f.insert c).Ordered ∧ (f.insert c).byAddr.Perm (c :: f.byAddr) :=
  h.ordered.insert fun _ ht heq => (h.clear_of_apart ha (free_mem ht)).addr_ne
    (h.pos _ (free_mem ht)) hc.pos (addr_eq_of_lo_eq heq)

theorem grow (hc : c.Fits) (hsi : c.size < 0x8000000000000000)
    (hun : unit ∣ c.lo ∧ unit ∣ c.size) (hap : ∀ d ∈ chunks, d.Apart c) :
    Tiling unit (chunks ++ [c]) (f.insert c) blocks := by
  have hcl (s : Span) (hs : s ∈ blocks ++ f.byAddr) : s.Apart c := h.clear_of_apart hap hs
  obtain ⟨ho, hpe⟩ := h.insert hc hap
  have hal : (blocks ++ (f.insert c).byAddr).Perm (c :: (blocks ++ f.byAddr)) :=
    (hpe.append_left blocks).trans perm_middle
  have hf {s : Span} (hs : s ∈ (f.insert c).byAddr) : s = c ∨ s ∈ f.byAddr :=
    mem_cons.mp (hpe.mem_iff.mp hs)
  have hp {P : Span → Prop} (hP : P c) (hr : ∀ s ∈ blocks ++ f.byAddr, P s) :
      ∀ s ∈ blocks ++ (f.insert c).byAddr, P s := fun s hs =>
    (mem_cons.mp (hal.mem_iff.mp hs)).elim (· ▸ hP) (hr s)
  refine ⟨ho, ?_, ?_, hp hc.pos h.pos, hp hun h.aligned, ?_, ?_, ?_, ?_, ?_⟩
  · intro d hd
    rcases mem_append.mp hd with hd | hd
    · exact h.chunkFits d hd
    · rw [mem_singleton.mp hd]
      exact ⟨hc, hsi⟩
  · exact pairwise_append.mpr ⟨h.chunksApart, pairwise_singleton _ _,
      fun d hd e he => mem_singleton.mp he ▸ hap d hd⟩
  · refine hp ⟨c, by simp, .refl c⟩ fun s hs => ?_
    obtain ⟨d, hd, hw⟩ := h.within s hs
    exact ⟨d, mem_append_left _ hd, hw⟩
  · exact hal.symm.pairwise (pairwise_cons.mpr ⟨fun s hs => (hcl s hs).symm, h.apart⟩)
      Apart.symm
  · intro d hd a ha
    rcases mem_append.mp hd with hd | hd
    · obtain ⟨s, hs, hco⟩ := h.covered d hd a ha
      exact ⟨s, hal.mem_iff.mpr (mem_cons_of_mem _ hs), hco⟩
    · exact ⟨c, hal.mem_iff.mpr mem_cons_self, mem_singleton.mp hd ▸ ha⟩
  · intro d hd s hs t ht hsd htd
    have hold (u : Span) (hu : u ∈ f.byAddr) : ¬ u.Within c :=
      (hcl u (free_mem hu)).not_within (h.pos u (free_mem hu))
    rcases mem_append.mp hd with hd | hd
    · have hcd : ¬ c.Within d := (hap d hd).symm.not_within hc.pos
      rcases hf hs with rfl | hs
      · exact absurd hsd hcd
      · rcases hf ht with rfl | ht
        · exact absurd htd hcd
        · exact h.loose d hd s hs t ht hsd htd
    · rw [mem_singleton.mp hd] at hsd htd
      have hs := (hf hs).resolve_right (hold s · hsd)
      have ht := (hf ht).resolve_right (hold t · htd)
      have := hc.pos
      have : c.hi = c.lo + c.size := rfl
      rw [hs, ht]
      omega
  · rw [total_append, total_perm hal, total_cons, h.total]
    simp [Int.add_comm]

theorem replace (ho : f'.Ordered) (hold : (blocks ++ f.byAddr).Perm (gone ++ keep))
    (hn : (blocks' ++ f'.byAddr).Perm (new ++ keep))
    (hpi : ∀ s ∈ new, 0 < s.size ∧ (unit ∣ s.lo ∧ unit ∣ s.size) ∧ ∃ c ∈ chunks, s.Within c)
    (hap : new.Pairwise Apart) (hcl : ∀ s ∈ new, ∀ t ∈ keep, s.Apart t)
    (hco : ∀ t ∈ gone, ∀ a, t.Covers a → ∃ s ∈ new, s.Covers a) (hto : Span.total new = Span.total gone)
    (hl : ∀ c ∈ chunks, ∀ s ∈ f'.byAddr, ∀ t ∈ f'.byAddr, s.Within c → t.Within c → s.hi ≠ t.lo) :
    Tiling unit chunks f' blocks' := by
  have hp {P : Span → Prop} (hP : ∀ s ∈ new, P s) (hk : ∀ s ∈ blocks ++ f.byAddr, P s) :
      ∀ s ∈ blocks' ++ f'.byAddr, P s := fun s hs =>
    (mem_append.mp (hn.mem_iff.mp hs)).elim (hP s) fun hs =>
      hk s (hold.mem_iff.mpr (mem_append_right _ hs))
  refine ⟨ho, h.chunkFits, h.chunksApart, hp (fun s hs => (hpi s hs).1) h.pos,
    hp (fun s hs => (hpi s hs).2.1) h.aligned, hp (fun s hs => (hpi s hs).2.2) h.within, ?_, ?_, hl, ?_⟩
  · have hk := (pairwise_append.mp (hold.pairwise h.apart Apart.symm)).2.1
    exact hn.symm.pairwise (pairwise_append.mpr ⟨hap, hk, hcl⟩) Apart.symm
  · intro c hc a ha
    obtain ⟨t, ht, hcv⟩ := h.covered c hc a ha
    rcases mem_append.mp (hold.mem_iff.mp ht) with ht | ht
    · obtain ⟨s, hs, hcv⟩ := hco t ht a hcv
      exact ⟨s, hn.mem_iff.mpr (mem_append_left _ hs), hcv⟩
    · exact ⟨t, hn.mem_iff.mpr (mem_append_right _ ht), hcv⟩
  · rw [h.total, total_perm hold, total_perm hn, total_append, total_append, hto]

/-- A block is carved out of the start of a free span, and what is left of it, if anything, stays
free. -/
theorem carve (hs : s ∈ f.byAddr) (hpo : 0 < size) (hun : unit ∣ size)
    (hre : rest = [] ∧ size = s.size ∨ ∃ r, rest = [r] ∧ r.lo = s.lo + size ∧ r.hi = s.hi ∧ 0 < r.size)
    (ho : f'.Ordered) (hp : f'.byAddr.Perm (rest ++ (f.erase s).byAddr)) :
    Tiling unit chunks f' (⟨s.addr, size⟩ :: blocks) := by
  obtain ⟨-, he⟩ := h.ordered.erase hs
  obtain ⟨hlo, hsi⟩ := h.aligned s (free_mem hs)
  obtain ⟨c, hc, hw⟩ := h.within s (free_mem hs)
  have hhi : s.hi = s.lo + s.size := rfl
  have hb : Span.lo ⟨s.addr, size⟩ = s.lo := rfl
  have hbh : Span.hi ⟨s.addr, size⟩ = s.lo + size := rfl
  -- the facts on `rest` that do not need the case distinction
  have hre' : ∀ r ∈ rest, r.lo = s.lo + size ∧ r.hi = s.hi ∧ 0 < r.size := by
    rcases hre with ⟨rfl, -⟩ | ⟨r, rfl, hr⟩
    · exact nofun
    · exact fun t ht => mem_singleton.mp ht ▸ hr
  have hsm : Span.total rest = s.size - size := by
    rcases hre with ⟨rfl, heq⟩ | ⟨r, rfl, hrl, hrh, -⟩
    · rw [total_nil]
      omega
    · have : r.hi = r.lo + r.size := rfl
      rw [total_cons, total_nil]
      omega
  have hle : size ≤ s.size := by
    rcases hre with ⟨-, heq⟩ | ⟨r, -, hrl, hrh, hr⟩
    · omega
    · have : r.hi = r.lo + r.size := rfl
      omega
  have hsu : ∀ t ∈ (⟨s.addr, size⟩ : Span) :: rest, t.Within s := by
    intro t ht
    rcases mem_cons.mp ht with rfl | ht
    · exact ⟨by omega, by omega⟩
    · obtain ⟨h1, h2, -⟩ := hre' t ht
      exact ⟨by omega, by omega⟩
  have hal : (blocks ++ f.byAddr).Perm ([s] ++ (blocks ++ (f.erase s).byAddr)) :=
    (he.append_left blocks).trans perm_middle
  have hcl (t : Span) (ht : t ∈ blocks ++ (f.erase s).byAddr) : s.Apart t :=
    (pairwise_cons.mp (hal.pairwise h.apart Apart.symm)).1 t ht
  refine h.replace ho hal ?_ ?_ ?_ (fun t ht u hu => (hcl u hu).within (hsu t ht) (.refl u)) ?_ ?_ ?_
  · exact ((hp.append_left blocks).trans (perm_append_comm_assoc ..)).cons _
  · intro t ht
    refine ⟨?_, ?_, c, hc, (hsu t ht).trans hw⟩
    · rcases mem_cons.mp ht with rfl | ht
      · exact hpo
      · exact (hre' t ht).2.2
    · rcases mem_cons.mp ht with rfl | ht
      · exact ⟨hlo, hun⟩
      · obtain ⟨h1, h2, -⟩ := hre' t ht
        have hth : t.hi = t.lo + t.size := rfl
        have hts : t.size = s.size - size := by omega
        exact ⟨h1 ▸ Int.dvd_add hlo hun, hts ▸ Int.dvd_sub hsi hun⟩
  · refine pairwise_cons.mpr ⟨fun r hr => .inl ?_, ?_⟩
    · obtain ⟨h1, -, -⟩ := hre' r hr
      omega
    · rcases hre with ⟨rfl, -⟩ | ⟨r, rfl, -⟩
      · exact .nil
      · exact pairwise_singleton _ _
  · intro t ht a ha
    rw [mem_singleton.mp ht] at ha
    obtain ⟨h1, h2⟩ := ha
    rcases Int.lt_or_le a (s.lo + size) with hlt | hge
    · exact ⟨_, mem_cons_self, by omega, by omega⟩
    · rcases hre with ⟨-, heq⟩ | ⟨r, rfl, hrl, hrh, -⟩
      · omega
      · exact ⟨r, by simp, by omega, by omega⟩
  · rw [total_cons, hsm, total_cons, total_nil]
    simp only
    omega
  · intro d hd t ht u hu htd hud
    have hf (v : Span) (hv : v ∈ f'.byAddr) : v ∈ rest ∨ v ∈ (f.erase s).byAddr :=
      mem_append.mp (hp.mem_iff.mp hv)
    have hk (v : Span) (hv : v ∈ (f.erase s).byAddr) : v ∈ f.byAddr :=
      he.mem_iff.mpr (mem_cons_of_mem _ hv)
    have hch (r : Span) (hr : r ∈ rest) (hrd : r.Within d) : s.Within d := by
      have hrs := hsu r (mem_cons_of_mem _ hr)
      exact h.chunk_unique hc hd (hre' r hr).2.2 (hrs.trans hw) hrd ▸ hw
    rcases hf t ht with ht | ht
    · obtain ⟨h1, h2, h3⟩ := hre' t ht
      rcases hf u hu with hu | hu
      · obtain ⟨h1', -, -⟩ := hre' u hu
        have : t.hi = t.lo + t.size := rfl
        omega
      · exact h2 ▸ h.loose d hd s hs u (hk u hu) (hch t ht htd) hud
    · rcases hf u hu with hu | hu
      · obtain ⟨h1, h2, h3⟩ := hre' u hu
        have htp := h.pos t (free_mem (hk t ht))
        have : t.hi = t.lo + t.size := rfl
        have hst := hcl t (free_mem ht)
        unfold Apart at hst
        omega
      · exact h.loose d hd t (hk t ht) u (hk u hu) htd hud

theorem release (hb : b ∈ blocks) (hc : c ∈ chunks) (hw : b.Within c)
    (hjo : ∀ t ∈ f.byAddr, mayJoin t = true ↔ t.Within c) :
    Tiling unit chunks (f.release b mayJoin) (blocks.erase b) := by
  have hme : b ∈ blocks ++ f.byAddr := mem_append_left _ hb
  have hpe := perm_cons_erase hb
  have hcl (t : Span) (ht : t ∈ blocks.erase b ++ f.byAddr) : b.Apart t :=
    (pairwise_cons.mp ((hpe.append_right f.byAddr).pairwise h.apart Apart.symm)).1 t ht
  obtain ⟨gone, rest, joined, hm⟩ := release_merged
    (h.spaced (h.fits hme) fun t ht => (hcl t (free_mem ht)).symm) hw (h.chunkFits c hc).2 hjo
    (h.loose c hc)
  have hg (t : Span) (ht : t ∈ gone) : t ∈ f.byAddr := hm.before.mem_iff.mpr (mem_append_left _ ht)
  have hr (t : Span) (ht : t ∈ rest) : t ∈ f.byAddr := hm.before.mem_iff.mpr (mem_append_right _ ht)
  have hal : (blocks ++ f.byAddr).Perm ((b :: gone) ++ (blocks.erase b ++ rest)) :=
    (hpe.append hm.before).trans ((perm_append_comm_assoc ..).cons b)
  have hbp := h.pos b hme
  have hbh : b.hi = b.lo + b.size := rfl
  have hjh : joined.hi = joined.lo + joined.size := rfl
  have hjp : 0 < joined.size := by
    obtain ⟨h1, h2⟩ := (hm.covers b.lo).mpr (.inl ⟨Int.le_refl _, by omega⟩)
    omega
  refine h.replace hm.ordered hal ((hm.after.append_left _).trans perm_middle) ?_
    (pairwise_singleton _ _) ?_ ?_ ?_ ?_
  · intro s hs
    rw [mem_singleton.mp hs]
    refine ⟨hjp, ⟨?_, ?_⟩, c, hc, hm.within⟩
    · rcases hm.start with heq | ⟨t, ht, heq⟩
      · exact heq ▸ (h.aligned b hme).1
      · exact heq ▸ (h.aligned t (free_mem (hg t ht))).1
    · rw [hm.size]
      refine Int.dvd_add (h.aligned b hme).2 (dvd_sum fun x hx => ?_)
      obtain ⟨t, ht, rfl⟩ := mem_map.mp hx
      exact (h.aligned t (free_mem (hg t ht))).2
  · intro s hs t ht
    rw [mem_singleton.mp hs]
    rcases mem_append.mp ht with ht' | ht'
    · -- the blocks that stay are apart from all parts of the outcome
      have htl := hal.mem_iff.mpr (mem_append_right _ ht)
      refine apart_of_not_covers hjp (h.pos t htl) fun a hj hta => ?_
      have hp := (pairwise_append.mp (hal.pairwise h.apart Apart.symm)).2.2
      rcases (hm.covers a).mp hj with hba | ⟨u, hu, hua⟩
      · exact (hp b mem_cons_self t ht).not_covers hba hta
      · exact (hp u (mem_cons_of_mem _ hu) t ht).not_covers hua hta
    · exact (hm.clear t ht').symm
  · intro t ht a ha
    refine ⟨joined, mem_singleton.mpr rfl, (hm.covers a).mpr ?_⟩
    rcases mem_cons.mp ht with rfl | ht
    · exact .inl ha
    · exact .inr ⟨t, ht, ha⟩
  · rw [total_cons, total_cons, total_nil, hm.size, Int.add_zero, Span.total]
  · intro d hd s hs t ht hsd htd
    have hch (hjd : joined.Within d) : c = d := h.chunk_unique hc hd hjp hm.within hjd
    rcases mem_cons.mp (hm.after.mem_iff.mp hs) with rfl | hs <;>
      rcases mem_cons.mp (hm.after.mem_iff.mp ht) with rfl | ht
    · omega
    · exact (hm.loose t ht (hch hsd ▸ htd)).2
    · exact (hm.loose s hs (hch htd ▸ hsd)).1
    · exact h.loose d hd s (hr s hs) t (hr t ht) hsd htd

theorem edges (hs : s ∈ f.byAddr) (hc : c ∈ chunks) (hw : s.Within c) :
    (s.lo = c.lo ∨ ∃ b ∈ blocks, b.hi = s.lo) ∧ (s.hi = c.hi ∨ ∃ b ∈ blocks, b.lo = s.hi) := by
  have hpo := h.pos s (free_mem hs)
  have hsh : s.hi = s.lo + s.size := rfl
  obtain ⟨hlo, hhi⟩ := hw
  -- the piece at an address of the chunk next to `s` is apart from `s`, and no free span touches it
  have hp {a : Int} (ha : c.Covers a) (ho : ¬ s.Covers a) :
      ∃ t, t.Covers a ∧ t.Apart s ∧ (t ∈ blocks ∨ s.hi ≠ t.lo ∧ t.hi ≠ s.lo) := by
    obtain ⟨t, ht, hta⟩ := h.covered c hc a ha
    have hts : t ≠ s := fun heq => ho (heq ▸ hta)
    refine ⟨t, hta, h.apart.forall ht (free_mem hs) hts, ?_⟩
    rcases mem_append.mp ht with hb | hf
    · exact .inl hb
    · have htw := h.within_of_covers ht hta hc ha
      exact .inr ⟨h.loose c hc s hs t hf ⟨hlo, hhi⟩ htw, h.loose c hc t hf s hs htw ⟨hlo, hhi⟩⟩
  constructor
  · refine or_iff_not_imp_left.mpr fun hne => ?_
    obtain ⟨t, ⟨h1, h2⟩, hap, hb⟩ := hp (a := s.lo - 1) ⟨by omega, by omega⟩ (by unfold Covers; omega)
    have hto : t.hi = s.lo := by unfold Apart at hap; omega
    exact ⟨t, hb.resolve_right fun hl => hl.2 hto, hto⟩
  · refine or_iff_not_imp_left.mpr fun hne => ?_
    obtain ⟨t, ⟨h1, h2⟩, hap, hb⟩ := hp (a := s.hi) ⟨by omega, by omega⟩ (by unfold Covers; omega)
    have hto : t.lo = s.hi := by unfold Apart at hap; omega
    exact ⟨t, hb.resolve_right fun hl => hl.1 hto.symm, hto⟩

end

theorem all_free (h : Tiling unit chunks f []) : f.byAddr.Perm chunks := by
  have heq {s c : Span} (hs : s ∈ f.byAddr) (hc : c ∈ chunks) (hw : s.Within c) : s = c := by
    obtain ⟨hlo, hhi⟩ := h.edges hs hc hw
    exact eq_of_edges (hlo.resolve_right (by simp)) (hhi.resolve_right (by simp))
  have hn : chunks.Nodup := h.chunksApart.imp_of_mem fun {c d} hc _ hcd heq => by
    subst heq
    exact hcd.not_within (h.chunkFits c hc).1.pos (.refl c)
  refine (perm_ext_iff_of_nodup h.ordered.nodup hn).mpr fun s => ⟨fun hs => ?_, fun hc => ?_⟩
  · obtain ⟨c, hc, hw⟩ := h.within s (free_mem hs)
    exact heq hs hc hw ▸ hc
  · obtain ⟨t, ht, hta⟩ := h.covered s hc s.lo (h.chunkFits s hc).1.covers_lo
    exact heq ht hc (h.within_of_covers ht hta hc (h.chunkFits s hc).1.covers_lo) ▸ ht

theorem mem_of_mem (h : Tiling unit chunks f blocks) (h' : Tiling unit chunks f' blocks)
    (hs : s ∈ f.byAddr) : s ∈ f'.byAddr := by
  obtain ⟨c, hc, hw⟩ := h.within s (free_mem hs)
  have hf := h.fits (free_mem hs)
  have hco : c.Covers s.lo := ⟨hw.1, Int.lt_of_lt_of_le hf.covers_lo.2 hw.2⟩
  obtain ⟨t, ht, hta⟩ := h'.covered c hc s.lo hco
  have htw := h'.within_of_covers ht hta hc hco
  -- blocks are apart from the free spans on both sides
  have hcl (b : Span) (hb : b ∈ blocks) : b.Apart s := (pairwise_append.mp h.apart).2.2 b hb s hs
  have hfr : t ∈ f'.byAddr := (mem_append.mp ht).resolve_left fun hb =>
    (hcl t hb).not_covers hta hf.covers_lo
  have hcl' (b : Span) (hb : b ∈ blocks) : b.Apart t := (pairwise_append.mp h'.apart).2.2 b hb t hfr
  obtain ⟨hlo, hhi⟩ := h.edges hs hc hw
  obtain ⟨-, hhi'⟩ := h'.edges hfr hc htw
  obtain ⟨h1, h2⟩ := hta
  obtain ⟨h3, h4⟩ := htw
  have hsp : s.lo < s.hi := hf.covers_lo.2
  have hbl (b : Span) (hb : b ∈ blocks) : b.lo < b.hi := by
    have := h.pos b (mem_append_left _ hb)
    have : b.hi = b.lo + b.size := rfl
    omega
  have hst : t.lo = s.lo := by
    rcases hlo with heq | ⟨b, hb, heq⟩
    · omega
    · have := hcl' b hb
      have := hbl b hb
      unfold Apart at *
      omega
  have hle : t.hi ≤ s.hi := by
    rcases hhi with heq | ⟨b, hb, heq⟩
    · omega
    · have := hcl' b hb
      have := hbl b hb
      unfold Apart at *
      omega
  have hge : s.hi ≤ t.hi := by
    rcases hhi' with heq | ⟨b, hb, heq⟩
    · exact heq ▸ hw.2
    · have := hcl b hb
      have := hbl b hb
      unfold Apart at *
      omega
  exact eq_of_edges hst (Int.le_antisymm hle hge) ▸ hfr

theorem free_unique (h : Tiling unit chunks f blocks) (h' : Tiling unit chunks f' blocks) : f = f' := by
  have ha : f.byAddr.Perm f'.byAddr :=
    (perm_ext_iff_of_nodup h.ordered.nodup h'.ordered.nodup).mpr fun s =>
      ⟨h.mem_of_mem h', h'.mem_of_mem h⟩
  exact h.ordered.eq_of_perm h'.ordered ha

end Tiling

/-! ## The partition of code memory -/

variable {μ : Type}

/-- A mapper of whole pages that never maps an address twice, nor the last one there is. -/
structure Mapper.Serves (M : Mapper μ) (start : μ) (unit : Int) : Prop where
  page : 0 < M.pageSize
  fresh : ∀ {p p' spans n r}, M.Served start p spans → n < 0x8000000000000000 →
    (M.pageSize : Int) ∣ n → M.map n p = (.ok r, p') →
    r.size < 0x8000000000000000 ∧ r.span.hi < 0x10000000000000000 ∧
      (unit ∣ r.span.lo ∧ unit ∣ r.span.size) ∧ M.pageSize ∣ r.size ∧
      ∀ s ∈ spans, ∀ a, s.Covers a → ¬ r.span.Covers a

/-- A mapper whose chunks have the size that was asked for, start at a multiple of sixteen, end
before the last address, and share no address. -/
structure Mapper.Lawful (M : Mapper μ) (start : μ) : Prop where
  mapped : ∀ {p p' spans n r}, M.Served start p spans → M.map n p = (.ok r, p') →
    (r.size : Int) = n ∧ 16 ∣ r.span.lo ∧ r.span.hi < 0x10000000000000000 ∧
      ∀ s ∈ spans, ∀ a, s.Covers a → ¬ r.span.Covers a

theorem Mapper.Lawful.serves {M : Mapper μ} {start : μ} (hM : M.Lawful start)
    (hpo : 0 < M.pageSize) (hp : 16 ∣ M.pageSize) : M.Serves start 16 where
  page := hpo
  fresh {p p' spans n r} hs hn hd hm := by
    obtain ⟨hsi, hlo, hhi, hf⟩ := hM.mapped hs hm
    have hw : (M.pageSize : Int) ∣ r.size := hsi ▸ hd
    have h16 : (16 : Int) ∣ M.pageSize := Int.natCast_dvd_natCast.mpr hp
    exact ⟨by omega, hhi, ⟨hlo, Int.dvd_trans h16 hw⟩, Int.natCast_dvd_natCast.mp hw, hf⟩

namespace CodeMemory

open TraceCompiler.Span

variable {M : Mapper μ} {start : μ} {unit : Int} {m m' : CodeMemory μ} {blocks : List Block}
  {b : Block} {c : Region} {addr : Word} {n size : Int} {s : Span} {code data : List UInt8}
  {r : Except (Abort Error) Unit} {k : Nat}

/-! ## Chunks -/

theorem holds_iff (hc : c.span.Fits) (h0 : 0 ≤ s.size) (hb : s.hi < 0x10000000000000000) :
    c.holds s.addr s.size = true ↔ s.Within c.span := by
  have hs : c.base + Word.ofInt c.size = c.span.stop := rfl
  have hs' : s.addr + Word.ofInt s.size = s.stop := rfl
  rw [Region.holds, Bool.and_eq_true, decide_eq_true_eq, decide_eq_true_eq, hs, hs',
    UInt64.le_iff_toNat_le, UInt64.le_iff_toNat_le, ← Int.ofNat_le, ← Int.ofNat_le, toNat_stop h0 hb,
    hc.toNat_stop]
  exact Iff.rfl

/-- The blocks and free spans of an open memory tile its chunks, which consist of pages that the
mapper handed out. -/
structure Tiled (M : Mapper μ) (start : μ) (unit : Int) (m : CodeMemory μ) (blocks : List Block) :
    Prop where
  mapper : m.mapper = M
  opened : m.closed = false
  asks : m.chunkSize < 0x8000000000000000 ∧ (M.pageSize : Int) ∣ m.chunkSize
  served : ∃ spans, M.Served start m.pages spans ∧ ∀ c ∈ m.chunks.map Region.span, c ∈ spans
  pages : ∀ c ∈ m.chunks.map Region.span, (M.pageSize : Int) ∣ c.size
  tiling : Tiling unit (m.chunks.map Region.span) m.free (blocks.map Block.span)
  inUse : m.inUse = wrap64 (total (blocks.map Block.span))

theorem tiled_new (M : Mapper μ) (start : μ) (unit chunkSize : Int) :
    Tiled M start unit (new M start chunkSize) [] where
  mapper := rfl
  opened := rfl
  asks := ⟨(wrap64_range _).2, dvd_alignUp ..⟩
  served := ⟨[], .start, nofun⟩
  pages := nofun
  tiling := .empty unit
  inUse := rfl

theorem Tiled.fresh {p : μ} (hM : M.Serves start unit) (h : Tiled M start unit m blocks)
    (hn : n < 0x8000000000000000) (hp : (M.pageSize : Int) ∣ n)
    (hm : m.mapper.map n m.pages = (.ok c, p)) (hne : c.size ≠ 0) :
    c.span.Fits ∧ c.span.size < 0x8000000000000000 ∧ (unit ∣ c.span.lo ∧ unit ∣ c.span.size) ∧
      M.pageSize ∣ c.size ∧ ∀ d ∈ m.chunks.map Region.span, d.Apart c.span := by
  obtain ⟨spans, hs, hme⟩ := h.served
  obtain ⟨hsi, hhi, hu, hw, hf⟩ := hM.fresh hs hn hp (h.mapper ▸ hm)
  have hpo : 0 < c.span.size := by
    change (0 : Int) < c.size
    omega
  exact ⟨⟨hpo, hhi⟩, Int.ofNat_lt.mpr hsi, hu, hw, fun d hd =>
    apart_of_not_covers (h.tiling.chunkFits d hd).1.pos hpo (hf d (hme d hd))⟩

theorem Grew.tiled (hM : M.Serves start unit) (h : Tiled M start unit m blocks)
    (hn : n < 0x8000000000000000) (hpa : (M.pageSize : Int) ∣ n) (hg : Grew m n r m') :
    Tiled M start unit m' blocks := by
  have hf {c : Region} {p : μ} := h.fresh (c := c) (p := p) hM hn hpa
  obtain ⟨rfl, ho, ha, ⟨spans, hs, hme⟩, hp, ht, hin⟩ := h
  cases hg with
  | refused hm => exact ⟨rfl, ho, ha, ⟨spans, .refused hs hm, hme⟩, hp, ht, hin⟩
  | empty hm _ =>
    exact ⟨rfl, ho, ha, ⟨_, .mapped hs hm, fun c hc => mem_append_left _ (hme c hc)⟩, hp, ht, hin⟩
  | @mapped c p hm hne =>
    obtain ⟨hfi, hsm, hu, hw, hap⟩ := hf hm hne
    have hch : (m.chunks ++ [c]).map Region.span = m.chunks.map Region.span ++ [c.span] := map_append
    have had {P : Span → Prop} (hold : ∀ d ∈ m.chunks.map Region.span, P d) (hnw : P c.span) :
        ∀ d ∈ (m.chunks ++ [c]).map Region.span, P d := fun d hd => by
      rw [hch] at hd
      exact (mem_append.mp hd).elim (hold d) (mem_singleton.mp · ▸ hnw)
    refine ⟨rfl, ho, ha, ⟨_, .mapped hs hm, ?_⟩, ?_, ?_, hin⟩
    · exact had (fun d hd => mem_append_left _ (hme d hd)) (by simp)
    · exact had hp (Int.natCast_dvd_natCast.mpr hw)
    · exact hch ▸ ht.grow hfi hsm hu hap

theorem Tiled.request (h : Tiled M start unit m blocks) (size : Int) :
    m.request size < 0x8000000000000000 ∧ (M.pageSize : Int) ∣ m.request size := by
  unfold CodeMemory.request
  split
  · exact ⟨(wrap64_range _).2, h.mapper ▸ dvd_alignUp ..⟩
  · exact h.asks

theorem Tiled.takeSpan {r : Except (Abort Error) Span} (hM : M.Serves start unit)
    (h : Tiled M start unit m blocks) (hr : (takeSpan size).run m = (r, m')) :
    Tiled M start unit m' blocks ∧ ∀ s, r = .ok s → s ∈ m'.free.byAddr ∧ size ≤ s.size := by
  have ht := run_takeSpan hr
  have h' : Tiled M start unit m' blocks := by
    rcases ht.grew with rfl | ⟨r', hg⟩
    · exact h
    · exact hg.tiled hM h (h.request size).1 (h.request size).2
  refine ⟨h', fun s hs => ?_⟩
  subst hs
  have hf := h'.tiling.ordered.bestFit ht.bestFit?
  exact ⟨hf.free, hf.large⟩

theorem Tiled.carve (h : Tiled M start unit m blocks) (hs : s ∈ m.free.byAddr) (hpo : 0 < size)
    (hle : size ≤ s.size) (hu : unit ∣ size) :
    Tiled M start unit (m.carve s size) (⟨s.addr, size⟩ :: blocks) := by
  obtain ⟨rfl, ho, ha, hse, hpa, hti, hin⟩ := h
  refine ⟨rfl, ho, ha, hse, hpa, ?_, ?_⟩
  · have hf := hti.fits (Tiling.free_mem hs)
    obtain ⟨c, hc, hw⟩ := hti.within s (Tiling.free_mem hs)
    have hcs := (hti.chunkFits c hc).2
    obtain ⟨hor, hp⟩ := hti.ordered.erase hs
    have hhi : s.hi = s.lo + s.size := rfl
    have hch : c.hi = c.lo + c.size := rfl
    have hb := hf.bounded
    have hr : wrap64 (s.size - size) = s.size - size := by
      obtain ⟨h1, h2⟩ := hw
      exact wrap64_of_lt (by omega) (by omega)
    unfold CodeMemory.carve
    dsimp only
    rw [hr]
    split
    · rename_i hl
      have hlo : Span.lo ⟨s.addr + Word.ofInt size, s.size - size⟩ = s.lo + size := by
        have := Word.toNat_ofInt size
        have hsl : s.lo = s.addr.toNat := rfl
        rw [Span.lo, UInt64.toNat_add]
        omega
      have hrh : Span.hi ⟨s.addr + Word.ofInt size, s.size - size⟩ = s.hi := by
        change Span.lo ⟨s.addr + Word.ofInt size, s.size - size⟩ + (s.size - size) = s.hi
        omega
      have hn (t : Span) (ht : t ∈ (m.free.erase s).byAddr) :
          t.lo ≠ Span.lo ⟨s.addr + Word.ofInt size, s.size - size⟩ := fun heq => by
        have htm : t ∈ m.free.byAddr := hp.mem_iff.mpr (mem_cons_of_mem _ ht)
        have hst := (pairwise_cons.mp (hp.pairwise
          (pairwise_append.mp hti.apart).2.1 Apart.symm)).1 t ht
        exact (hst.symm.within (.refl t) ⟨by omega, by omega⟩).addr_ne
          (hti.pos t (Tiling.free_mem htm)) hl (addr_eq_of_lo_eq heq)
      obtain ⟨hor', hp'⟩ := hor.insert hn
      exact hti.carve hs hpo hu (.inr ⟨_, rfl, hlo, hrh, hl⟩) hor' hp'
    · have hal : size = s.size := by omega
      exact hti.carve hs hpo hu (.inl ⟨rfl, hal⟩) hor (.refl _)
  · change wrap64 (m.inUse + size) = _
    rw [hin, wrap64_add, map_cons, total_cons, Int.add_comm]
    rfl

/-! ## Writing -/

@[simp] theorem span_overwrite (c : Region) (offset : Nat) (bs : List UInt8) :
    (c.overwrite offset bs).span = c.span := rfl

@[simp] theorem map_span_overwriteIn (addr : Word) (data : List UInt8) (chunks : List Region) :
    (overwriteIn addr data chunks).map Region.span = chunks.map Region.span := by
  induction chunks with
  | nil => rfl
  | cons c rest ih =>
    unfold overwriteIn
    split
    · rfl
    · rw [map_cons, map_cons, ih]

theorem Tiled.chunk_fits (h : Tiled M start unit m blocks) (hc : c ∈ m.chunks) : c.span.Fits :=
  (h.tiling.chunkFits _ (mem_map_of_mem hc)).1

structure Mapped (m : CodeMemory μ) : Prop where
  page : 0 < m.mapper.pageSize
  fits : ∀ c ∈ m.chunks, c.span.Fits
  whole : ∀ c ∈ m.chunks, m.mapper.pageSize ∣ c.size

theorem Tiled.mapped (hM : M.Serves start unit) (h : Tiled M start unit m blocks) : m.Mapped where
  page := h.mapper ▸ hM.page
  fits _ := h.chunk_fits
  whole _ hc := h.mapper ▸ Int.natCast_dvd_natCast.mp (h.pages _ (mem_map_of_mem hc))

theorem exists_chunkOf? (hfi : ∀ d ∈ m.chunks, d.span.Fits) (hc : c ∈ m.chunks) (h0 : 0 ≤ s.size)
    (hw : s.Within c.span) : ∃ d ∈ m.chunks, s.Within d.span ∧ m.chunkOf? s.addr s.size = some d := by
  have hh {d : Region} (hd : d ∈ m.chunks) :=
    holds_iff (hfi d hd) h0 (Int.lt_of_le_of_lt hw.2 (hfi c hc).bounded)
  unfold chunkOf?
  cases hf : m.chunks.find? (·.holds s.addr s.size) with
  | none => exact absurd ((hh hc).mpr hw) (find?_eq_none.mp hf c hc)
  | some d =>
    have hd := mem_of_find?_eq_some hf
    exact ⟨d, hd, (hh hd).mp (by simpa using find?_some hf), rfl⟩

theorem Tiled.chunkOf?_eq (h : Tiled M start unit m blocks) (hc : c ∈ m.chunks) (hs : 0 < s.size)
    (hw : s.Within c.span) : m.chunkOf? s.addr s.size = some c := by
  obtain ⟨d, hd, hdw, hf⟩ := exists_chunkOf? (fun _ => h.chunk_fits) hc (Int.le_of_lt hs) hw
  refine hf.trans (congrArg some (Classical.byContradiction fun hne => ?_))
  have ha := pairwise_map.mp h.tiling.chunksApart
  exact ((ha.forall hd hc hne).within hdw (.refl _)).not_within hs hw

theorem Wrote.tiled (h : Tiled M start unit m blocks) (hw : Wrote m addr data c r m') :
    Tiled M start unit m' blocks := by
  obtain ⟨rfl, ho, ha, ⟨spans, hs, hm⟩, hp, ht, hin⟩ := h
  cases hw with
  | outside _ => exact ⟨rfl, ho, ha, ⟨spans, hs, hm⟩, hp, ht, hin⟩
  | locked _ hrw => exact ⟨rfl, ho, ha, ⟨spans, .guarded hs hrw, hm⟩, hp, ht, hin⟩
  | copied _ hrw hrx =>
    rw [← map_span_overwriteIn addr data] at hm hp ht
    exact ⟨rfl, ho, ha, ⟨spans, .guarded (.guarded hs hrw) hrx, hm⟩, hp, ht, hin⟩

theorem toNat_offset (hw : Span.Within ⟨addr, n⟩ c.span) :
    (addr - c.base).toNat = addr.toNat - c.base.toNat := by
  refine UInt64.toNat_sub_of_le addr c.base ?_
  rw [UInt64.le_iff_toNat_le, ← Int.ofNat_le]
  exact hw.1

theorem offset_add_le (hw : Span.Within ⟨addr, k⟩ c.span) : (addr - c.base).toNat + k ≤ c.size := by
  have hlo : (c.base.toNat : Int) ≤ addr.toNat := hw.1
  have hhi : (addr.toNat : Int) + k ≤ c.base.toNat + c.size := hw.2
  rw [toNat_offset hw]
  omega

theorem roundUp_le {page n : Nat} (hp : 0 < page) (hd : page ∣ k) (h : n ≤ k) :
    (n + page - 1) / page * page ≤ k := by
  obtain ⟨q, rfl⟩ := hd
  have : (n + page - 1) / page ≤ q := by
    rw [Nat.div_le_iff_le_mul_add_pred hp]
    omega
  exact Nat.mul_comm page q ▸ Nat.mul_le_mul_right page this

theorem Mapped.writePages (h : m.Mapped) (hc : c ∈ m.chunks)
    (hw : Span.Within ⟨addr, data.length⟩ c.span) (hru : (writePages addr data).run m = (r, m')) :
    (∀ x, r ≠ .error (.fault x)) ∧
      ∃ d ∈ m.chunks, Span.Within ⟨addr, data.length⟩ d.span ∧ Wrote m addr data d r m' := by
  obtain ⟨d, hd, hdw, hf⟩ := exists_chunkOf? h.fits hc (Int.natCast_nonneg data.length) hw
  have hwr : Wrote m addr data d r m' := run_writePages hf hru
  refine ⟨fun x hr => ?_, d, hd, hdw, hwr⟩
  cases hwr with
  | outside ho =>
    have := roundUp_le h.page (h.whole d hd) (offset_add_le hdw)
    omega
  | locked _ _ => cases hr
  | @copied _ _ _ _ r' _ _ _ => cases r' <;> cases hr

theorem Tiled.writePages (hM : M.Serves start unit) (h : Tiled M start unit m blocks)
    (hc : c ∈ m.chunks) (hw : Span.Within ⟨addr, data.length⟩ c.span)
    (hr : (writePages addr data).run m = (r, m')) :
    Tiled M start unit m' blocks ∧ (∀ x, r ≠ .error (.fault x)) ∧
      ∃ d ∈ m.chunks, Span.Within ⟨addr, data.length⟩ d.span ∧ Wrote m addr data d r m' := by
  obtain ⟨hf, d, hd, hdw, hwr⟩ := (h.mapped hM).writePages hc hw hr
  exact ⟨hwr.tiled h, hf, d, hd, hdw, hwr⟩

/-! ## Giving back -/

theorem span_injective : Function.Injective Block.span := fun b b' h => by
  cases b
  cases b'
  cases h
  rfl

theorem Tiled.release (h : Tiled M start unit m blocks) (hb : b ∈ blocks) :
    Tiled M start unit (m.release b) (blocks.erase b) := by
  have hs : b.span ∈ blocks.map Block.span := mem_map_of_mem hb
  have hp := h.tiling.pos b.span (mem_append_left _ hs)
  obtain ⟨_, hm, hw⟩ := h.tiling.within b.span (mem_append_left _ hs)
  obtain ⟨c, hc, rfl⟩ := mem_map.mp hm
  have ho : m.chunkOf? b.addr b.size = some c := h.chunkOf?_eq hc hp hw
  refine ⟨h.mapper, h.opened, h.asks, h.served, h.pages, ?_, ?_⟩
  · rw [map_erase span_injective]
    refine h.tiling.release hs (mem_map_of_mem hc) hw fun t ht => ?_
    rw [ho]
    have htf := h.tiling.fits (Tiling.free_mem ht)
    exact holds_iff (h.chunk_fits hc) (Int.le_of_lt htf.pos) htf.bounded
  · have hto := total_perm ((perm_cons_erase hb).map Block.span)
    rw [map_cons, total_cons] at hto
    change wrap64 (m.inUse - b.size) = _
    rw [h.inUse, Int.sub_eq_add_neg, wrap64_add, hto]
    congr 1
    change b.size + _ + -b.size = _
    omega

/-- The blocks after an allocation: one more if it succeeded. -/
def withBlock (blocks : List Block) : Except (Abort Error) Block → List Block
  | .ok b => b :: blocks
  | .error _ => blocks

theorem Tiled.carved {m1 : CodeMemory μ} (hM : M.Serves start unit) (hu : unit ∣ 16)
    (h : Tiled M start unit m blocks) (hl : code.length + 15 < 0x8000000000000000) (hne : code ≠ [])
    (ht : (CodeMemory.takeSpan (alignUp code.length alignment)).run m = (.ok s, m1)) :
    Tiled M start unit (m1.carve s (alignUp code.length alignment))
        (⟨s.addr, alignUp code.length alignment⟩ :: blocks) ∧
      ∃ c ∈ m1.chunks, Span.Within ⟨s.addr, code.length⟩ c.span := by
  obtain ⟨hsi, hd, -⟩ := alignUp_alignment hl
  generalize alignUp code.length alignment = size at *
  obtain ⟨h₁, hf⟩ := h.takeSpan hM ht
  obtain ⟨hs, hle⟩ := hf s rfl
  have hp : 0 < code.length := length_pos_iff.mpr hne
  have h₂ := h₁.carve hs (by omega) hle (Int.dvd_trans hu hd)
  obtain ⟨_, hm, hw⟩ := h₂.tiling.within ⟨s.addr, size⟩ mem_cons_self
  obtain ⟨c, hc, rfl⟩ := mem_map.mp hm
  have hsu : Span.Within ⟨s.addr, code.length⟩ ⟨s.addr, size⟩ :=
    ⟨Int.le_refl _, Int.add_le_add_left hsi _⟩
  exact ⟨h₂, c, hc, hsu.trans hw⟩

theorem Tiled.allocate {r : Except (Abort Error) Block} (hM : M.Serves start unit) (hu : unit ∣ 16)
    (h : Tiled M start unit m blocks) (hl : code.length + 15 < 0x8000000000000000)
    (hr : (allocate code).run m = (r, m')) : Tiled M start unit m' (withBlock blocks r) := by
  cases run_allocate hr with
  | refused _ => exact h
  | full _ ht => exact (h.takeSpan hM ht).1
  | written hne ht hwr =>
    obtain ⟨h₂, c, hc, hw⟩ := h.carved hM hu hl hne ht
    exact (h₂.writePages hM hc hw hwr).1
  | undone hne ht hwr =>
    obtain ⟨h₂, c, hc, hw⟩ := h.carved hM hu hl hne ht
    have := (h₂.writePages hM hc hw hwr).1.release mem_cons_self
    rwa [erase_cons_head] at this
  | broken hne ht hwr =>
    obtain ⟨h₂, c, hc, hw⟩ := h.carved hM hu hl hne ht
    exact absurd rfl ((h₂.writePages hM hc hw hwr).2.1 _)

theorem Tiled.deallocate (h : Tiled M start unit m blocks) (hb : b ∈ blocks) :
    Tiled M start unit (m.deallocate b) (blocks.erase b) := by
  have hp := h.tiling.pos b.span (mem_append_left _ (mem_map_of_mem hb))
  have hu : ¬ (m.closed = true ∨ b.size = 0) := by
    rintro (hc | hz)
    · rw [h.opened] at hc
      cases hc
    · exact Int.ne_of_gt hp hz
  rw [CodeMemory.deallocate, if_neg hu]
  exact h.release hb

/-! ## Runs -/

/-- The states of a memory and its blocks after allocating and giving back in any order. -/
inductive Runs (M : Mapper μ) (start : μ) (chunkSize : Int) : CodeMemory μ → List Block → Prop where
  | new : Runs M start chunkSize (.new M start chunkSize) []
  | allocate {m m' : CodeMemory μ} {blocks : List Block} {code : List UInt8}
      {r : Except (Abort Error) Block} (h : Runs M start chunkSize m blocks)
      (hlen : code.length + 15 < 0x8000000000000000) (hrun : (allocate code).run m = (r, m')) :
      Runs M start chunkSize m' (withBlock blocks r)
  | deallocate {m : CodeMemory μ} {blocks : List Block} {b : Block}
      (h : Runs M start chunkSize m blocks) (hb : b ∈ blocks) :
      Runs M start chunkSize (m.deallocate b) (blocks.erase b)

theorem Runs.tiled {chunkSize : Int} (hM : M.Serves start unit) (hu : unit ∣ 16)
    (h : Runs M start chunkSize m blocks) : Tiled M start unit m blocks := by
  induction h with
  | new => exact tiled_new M start unit chunkSize
  | allocate _ hl hr ih => exact ih.allocate hM hu hl hr
  | deallocate _ hb ih => exact ih.deallocate hb

def pieces (m : CodeMemory μ) (blocks : List Block) : List Span :=
  blocks.map Block.span ++ m.free.byAddr

/-- The blocks and the free spans are a partition of the chunks, and the counters say so. -/
structure Partition (m : CodeMemory μ) (blocks : List Block) : Prop where
  nonempty : ∀ s ∈ m.pieces blocks, 0 < s.size
  aligned : ∀ s ∈ m.pieces blocks, 16 ∣ s.lo ∧ 16 ∣ s.size
  disjoint : (m.pieces blocks).Pairwise fun s t => ∀ a, s.Covers a → ¬ t.Covers a
  within : ∀ s ∈ m.pieces blocks, ∃ c ∈ m.chunks, s.Within c.span
  covers : ∀ c ∈ m.chunks, ∀ a,
    c.span.Covers a ↔ ∃ s ∈ m.pieces blocks, s.Within c.span ∧ s.Covers a
  /-- Free spans of one chunk do not touch. -/
  loose : ∀ c ∈ m.chunks, ∀ s ∈ m.free.byAddr, ∀ t ∈ m.free.byAddr,
    s.Within c.span → t.Within c.span → s.hi ≠ t.lo
  same : m.free.bySize.Perm m.free.byAddr
  inUse : m.stats.inUse = wrap64 (total (blocks.map Block.span))
  mapped : (m.stats.mapped : Int) = total (blocks.map Block.span) + total m.free.byAddr
  /-- The signed counter is exact as far as it reaches. -/
  counted : total (blocks.map Block.span) < 0x8000000000000000 →
    m.stats.inUse = total (blocks.map Block.span) ∧
      (m.stats.mapped : Int) = m.stats.inUse + total m.free.byAddr

theorem mapped_stats (m : CodeMemory μ) : (m.stats.mapped : Int) = total (m.chunks.map Region.span) := by
  have hf (l : List Region) (n : Nat) : (((l.map (·.size)).foldl (· + ·) n : Nat) : Int) =
      n + total (l.map Region.span) := by
    induction l generalizing n with
    | nil => simp
    | cons c l ih =>
      rw [map_cons, foldl_cons, ih, map_cons, total_cons]
      change _ = _ + ((c.size : Int) + _)
      omega
  exact (hf m.chunks 0).trans (Int.zero_add _)

theorem Tiled.partition (h : Tiled M start 16 m blocks) : Partition m blocks := by
  have hn : 0 ≤ total (blocks.map Block.span) :=
    total_nonneg fun s hs => h.tiling.pos s (mem_append_left _ hs)
  have hm : (m.stats.mapped : Int) = total (blocks.map Block.span) + total m.free.byAddr := by
    rw [mapped_stats, h.tiling.total, total_append]
  refine ⟨h.tiling.pos, h.tiling.aligned, ?_, ?_, ?_, ?_, h.tiling.ordered.same, h.inUse, hm, ?_⟩
  · exact h.tiling.apart.imp fun hap a => hap.not_covers
  · intro s hs
    obtain ⟨_, hme, hw⟩ := h.tiling.within s hs
    obtain ⟨c, hc, rfl⟩ := mem_map.mp hme
    exact ⟨c, hc, hw⟩
  · refine fun c hc a => ⟨fun ha => ?_, fun ⟨s, _, hw, h1, h2⟩ => ?_⟩
    · obtain ⟨s, hs, hsa⟩ := h.tiling.covered _ (mem_map_of_mem hc) a ha
      exact ⟨s, hs, h.tiling.within_of_covers hs hsa (mem_map_of_mem hc) ha, hsa⟩
    · exact ⟨Int.le_trans hw.1 h1, Int.lt_of_lt_of_le h2 hw.2⟩
  · exact fun c hc => h.tiling.loose _ (mem_map_of_mem hc)
  · intro hlt
    have : m.stats.inUse = total (blocks.map Block.span) := h.inUse.trans (wrap64_of_lt (by omega) hlt)
    exact ⟨this, by rw [this, hm]⟩

/-- Whatever is allocated and given back, and whichever calls of the mapper fail, the blocks and the
free spans partition the chunks; without blocks each chunk is one free span. -/
theorem runs_tile_chunks {chunkSize : Int} (hpos : 0 < M.pageSize) (hpage : 16 ∣ M.pageSize) (hM : M.Lawful start)
    (hrun : Runs M start chunkSize m blocks) :
    Partition m blocks ∧
      (blocks = [] → m.free.byAddr.Perm (m.chunks.map Region.span) ∧ m.stats.inUse = 0) := by
  have h := hrun.tiled (hM.serves hpos hpage) (Int.dvd_refl 16)
  refine ⟨h.partition, fun hnone => ?_⟩
  subst hnone
  exact ⟨h.tiling.all_free, h.inUse⟩

def twoChunks : Mapper Nat where
  pageSize := 16
  map n k :=
    if n = 32 ∧ k < 2 then (.ok ⟨(0x10000 + 32 * k).toUInt64, 32, #[]⟩, k + 1)
    else (.error "full", k)
  unmap _ _ k := (.ok (), k)
  protect _ _ _ k := (.ok (), k)

theorem twoChunks_map {n : Int} {k' : Nat} {r : Region} (h : twoChunks.map n k = (.ok r, k')) :
    n = 32 ∧ k' = k + 1 ∧ r.size = 32 ∧ r.span.lo = 0x10000 + 32 * k ∧ k < 2 := by
  simp only [twoChunks] at h
  split at h
  · rename_i hn
    cases h
    refine ⟨hn.1, rfl, rfl, ?_, hn.2⟩
    rw [Span.lo, Region.span, Nat.toUInt64, UInt64.toNat_ofNat']
    omega
  · cases h

theorem twoChunks_lawful : twoChunks.Lawful 0 := by
  have hse {k : Nat} {spans : List Span} (h : twoChunks.Served 0 k spans) :
      ∀ s ∈ spans, s.hi ≤ 0x10000 + 32 * k := by
    induction h with
    | start => exact nofun
    | @mapped _ _ _ _ r _ h ih =>
      obtain ⟨-, rfl, hsi, hlo, -⟩ := twoChunks_map h
      have : r.span.hi = r.span.lo + r.size := rfl
      intro s hs
      rcases mem_append.mp hs with hs | hs
      · have := ih s hs
        omega
      · rw [mem_singleton.mp hs]
        omega
    | refused _ h ih =>
      simp only [twoChunks] at h
      split at h <;> cases h
      exact ih
    | guarded _ h ih =>
      cases h
      exact ih
  refine ⟨fun {k k' spans n r} h hm => ?_⟩
  obtain ⟨rfl, -, hsi, hlo, hlt⟩ := twoChunks_map hm
  have hhi : r.span.hi = r.span.lo + r.size := rfl
  refine ⟨by omega, by omega, by omega, fun s hs a ha hra => ?_⟩
  have := hse h s hs
  obtain ⟨h1, h2⟩ := ha
  obtain ⟨h3, h4⟩ := hra
  omega

def filled (m : CodeMemory μ) (n : Nat) : Except (Abort Error) Block × CodeMemory μ :=
  (allocate (replicate n 0x90)).run m

theorem runs_tile_chunks_adjacent : ∃ m : CodeMemory Nat, Partition m [] ∧
    m.free.byAddr.Perm (m.chunks.map Region.span) ∧
    m.chunks.map Region.span = [⟨0x10000, 32⟩, ⟨0x10020, 32⟩] := by
  have hfirst : (filled (.new twoChunks 0 32) 20).1 = .ok ⟨0x10000, 32⟩ := by decide +kernel
  have hsecond : (filled (filled (.new twoChunks 0 32) 20).2 5).1 = .ok ⟨0x10020, 16⟩ := by
    decide +kernel
  have hruns : Runs twoChunks 0 32 (filled (filled (.new twoChunks 0 32) 20).2 5).2
      [⟨0x10020, 16⟩, ⟨0x10000, 32⟩] :=
    .allocate (.allocate .new (by decide) (run_eq_of_fst hfirst)) (by decide) (run_eq_of_fst hsecond)
  have hfreed := (hruns.deallocate (b := ⟨0x10000, 32⟩) (by decide)).deallocate
    (b := ⟨0x10020, 16⟩) (by decide)
  obtain ⟨hpart, hfree⟩ := runs_tile_chunks (by decide) (by decide) twoChunks_lawful hfreed
  exact ⟨_, hpart, (hfree rfl).1, by decide +kernel⟩

end CodeMemory

end TraceCompiler
