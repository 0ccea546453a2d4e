import TraceCompiler.Proofs.CodeMemory.Partition

/-! # What code memory holds

The bytes of code memory are looked up by address (`HasByte`).
-/

namespace TraceCompiler

open List

namespace Region

theorem getD_foldl_set (bs : List UInt8) (stored : Array UInt8) (offset i : Nat)
    (hs : offset + bs.length ≤ stored.size) :
    ((bs.foldl (fun (a, i) b => (a.setIfInBounds i b, i + 1)) (stored, offset)).1).getD i 0 =
      if offset ≤ i then (bs[i - offset]?).getD (stored.getD i 0) else stored.getD i 0 := by
  induction bs generalizing stored offset with
  | nil => simp
  | cons b bs ih =>
    rw [length_cons] at hs
    rw [foldl_cons, ih _ _ (by rw [Array.size_setIfInBounds]; omega)]
    simp only [Array.getD_eq_getD_getElem?, Array.getElem?_setIfInBounds]
    rcases Nat.lt_trichotomy i offset with hlt | rfl | hgt
    · rw [if_neg (by omega), if_neg (by omega), if_neg (by omega)]
    · rw [if_neg (by omega), if_pos (Nat.le_refl _), Nat.sub_self, if_pos rfl]
      simp [show i < stored.size by omega]
    · have hsu : i - offset = i - (offset + 1) + 1 := by omega
      rw [hsu, getElem?_cons_succ, if_neg (Nat.ne_of_lt hgt),
        if_pos (Nat.succ_le_of_lt hgt), if_pos (Nat.le_of_lt hgt)]

theorem byte_overwrite (c : Region) (offset i : Nat) (bs : List UInt8) : (c.overwrite offset bs).byte i =
      if offset ≤ i then (bs[i - offset]?).getD (c.byte i) else c.byte i := by
  obtain ⟨base, size, stored⟩ := c
  have hg (k : Nat) : (stored ++ Array.replicate k 0).getD i 0 = stored.getD i 0 := by
    simp only [Array.getD_eq_getD_getElem?, Array.getElem?_append, Array.getElem?_replicate]
    split
    · rfl
    · rename_i hi
      rw [Array.getElem?_eq_none (Nat.le_of_not_lt hi)]
      split <;> rfl
  unfold overwrite byte
  rw [getD_foldl_set _ _ _ _ (by simp; omega), hg]

end Region

namespace CodeMemory

open TraceCompiler.Span

variable {μ : Type} {M : Mapper μ} {start : μ} {unit size : Int} {m m' : CodeMemory μ}
  {blocks : List Block} {b : Block} {c : Region} {chunks : List Region} {addr : Word} {s : Span}
  {code data : List UInt8} {a : Int} {x : UInt8} {i : Nat}

def HasByte (chunks : List Region) (a : Int) (x : UInt8) : Prop :=
  ∃ c ∈ chunks, c.span.Covers a ∧ c.byte (a - c.span.lo).toNat = x

theorem HasByte.mono (h : HasByte chunks a x) (hs : chunks ⊆ chunks') : HasByte chunks' a x := by
  obtain ⟨c, hc, hb⟩ := h
  exact ⟨c, hs hc, hb⟩

theorem HasByte.overwriteIn (h : HasByte chunks a x) (hou : ¬ Span.Covers ⟨addr, data.length⟩ a) :
    HasByte (CodeMemory.overwriteIn addr data chunks) a x := by
  induction chunks with
  | nil => exact h
  | cons c rest ih =>
    obtain ⟨d, hd, hc, hb⟩ := h
    unfold CodeMemory.overwriteIn
    split
    · rename_i hh
      rcases mem_cons.mp hd with rfl | hd
      · refine ⟨_, mem_cons_self, hc, ?_⟩
        rw [span_overwrite, Region.byte_overwrite, ← hb]
        split
        · rename_i hle
          rw [getElem?_eq_none ?_]
          · rfl
          · -- the offset of the write is that of its first address
            have hba : d.base ≤ addr := by
              simp only [Region.holds, Bool.and_eq_true, decide_eq_true_eq] at hh
              exact hh.1
            have ho := UInt64.toNat_sub_of_le addr d.base hba
            have hle' := UInt64.le_iff_toNat_le.mp hba
            have hlo : d.span.lo = d.base.toNat := rfl
            obtain ⟨h1, h2⟩ := hc
            have : ¬ ((addr.toNat : Int) ≤ a ∧ a < addr.toNat + data.length) := hou
            omega
        · rfl
      · exact ⟨d, mem_cons_of_mem _ hd, hc, hb⟩
    · rcases mem_cons.mp hd with rfl | hd
      · exact ⟨d, mem_cons_self, hc, hb⟩
      · exact (ih ⟨d, hd, hc, hb⟩).mono (subset_cons_self _ _)

theorem hasByte_overwriteIn (hc : c ∈ chunks) (hw : Span.Within ⟨addr, data.length⟩ c.span)
    (hf : ∀ d ∈ chunks, d.span.Fits) (hi : data[i]? = some x) :
    HasByte (CodeMemory.overwriteIn addr data chunks) (addr.toNat + i) x := by
  have hlt : i < data.length := (List.getElem_of_getElem? hi).1
  have hb := Int.lt_of_le_of_lt hw.2 (hf c hc).bounded
  have hh (d : Region) (hd : d ∈ chunks) :
      d.holds addr data.length = true ↔ Span.Within ⟨addr, data.length⟩ d.span :=
    holds_iff (hf d hd) (Int.natCast_nonneg _) hb
  induction chunks with
  | nil => cases hc
  | cons d rest ih =>
    unfold CodeMemory.overwriteIn
    split
    · rename_i hd
      have hw' := (hh d mem_cons_self).mp hd
      have hlo : (d.base.toNat : Int) ≤ addr.toNat := hw'.1
      have hhi : (addr.toNat : Int) + data.length ≤ d.base.toNat + d.size := hw'.2
      have ho := toNat_offset hw'
      have hs : d.span.lo = d.base.toNat := rfl
      have hen : d.span.hi = d.base.toNat + d.size := rfl
      refine ⟨_, mem_cons_self, ⟨?_, ?_⟩, ?_⟩
      · rw [span_overwrite]
        omega
      · rw [span_overwrite]
        omega
      · rw [span_overwrite, Region.byte_overwrite, ho,
          show ((addr.toNat + i : Int) - d.span.lo).toNat = addr.toNat - d.base.toNat + i by omega,
          if_pos (by omega), Nat.add_sub_cancel_left, hi]
        rfl
    · rename_i hd
      have hc' : c ∈ rest := (mem_cons.mp hc).resolve_left fun heq =>
        hd ((hh d mem_cons_self).mpr (heq ▸ hw))
      exact (ih hc' (fun e he => hf e (mem_cons_of_mem _ he))
        fun e he => hh e (mem_cons_of_mem _ he)).mono (subset_cons_self _ _)

theorem read_eq_ok {n : Nat} (hfi : ∀ d ∈ m.chunks, d.span.Fits) (hc : c ∈ m.chunks)
    (hw : Span.Within ⟨addr, n⟩ c.span) : ∃ bytes, m.read addr n = .ok bytes ∧ bytes.length = n ∧
      ∀ (i : Nat) x, bytes[i]? = some x → HasByte m.chunks (addr.toNat + i) x := by
  obtain ⟨d, hd, hdw, hf⟩ := exists_chunkOf? hfi hc (Int.natCast_nonneg n) hw
  have hle := offset_add_le hdw
  refine ⟨d.bytes (addr - d.base).toNat n, ?_, by simp [Region.bytes], fun i x hi => ?_⟩
  · unfold CodeMemory.read
    rw [hf]
    dsimp only
    rw [if_neg (by omega)]
    rfl
  · have hlt : i < n := by simpa [Region.bytes] using (List.getElem_of_getElem? hi).1
    have ho := toNat_offset hdw
    have hlo : (d.base.toNat : Int) ≤ addr.toNat := hdw.1
    have hs : d.span.lo = d.base.toNat := rfl
    have he : d.span.hi = d.base.toNat + d.size := rfl
    refine ⟨d, hd, ⟨by omega, by omega⟩, ?_⟩
    rw [Region.bytes, getElem?_map, getElem?_range hlt] at hi
    rw [← Option.some.inj hi]
    congr 1
    omega

theorem Tiled.hasByte_unique {y : UInt8} (h : Tiled M start unit m blocks) (hx : HasByte m.chunks a x)
    (hy : HasByte m.chunks a y) : x = y := by
  obtain ⟨c, hc, hca, rfl⟩ := hx
  obtain ⟨d, hd, hda, rfl⟩ := hy
  have hcd : c = d := Classical.byContradiction fun hne => by
    exact ((pairwise_map.mp h.tiling.chunksApart).forall hc hd hne).not_covers hca hda
  rw [hcd]

theorem takeSpan_chunks (hr : (takeSpan size).run m = (r, m')) : m.chunks ⊆ m'.chunks := by
  obtain rfl | ⟨_, hg⟩ := (run_takeSpan hr).grew
  · exact Subset.refl _
  · cases hg with
    | refused _ | empty _ _ => exact Subset.refl _
    | mapped _ _ => exact subset_append_left _ _

@[simp] theorem chunks_deallocate (m : CodeMemory μ) (b : Block) : (m.deallocate b).chunks = m.chunks := by
  unfold CodeMemory.deallocate
  split <;> rfl

theorem Tiled.not_covers_new {n : Int} (h : Tiled M start unit m (b' :: blocks)) (hn : n ≤ b'.size)
    (hb : b ∈ blocks) (ha : b.span.Covers a) : ¬ Span.Covers ⟨b'.addr, n⟩ a := by
  intro hc
  have hm : b.span ∈ blocks.map Block.span ++ m.free.byAddr := mem_append_left _ (mem_map_of_mem hb)
  have hap := (pairwise_cons.mp h.tiling.apart).1 b.span hm
  exact hap.not_covers ⟨hc.1, Int.lt_of_lt_of_le hc.2 (Int.add_le_add_left hn _)⟩ ha

theorem Tiled.allocate_keeps (hM : M.Serves start unit) (hu : unit ∣ 16)
    (h : Tiled M start unit m blocks) (hl : code.length + 15 < 0x8000000000000000)
    (hr : (CodeMemory.allocate code).run m = (r, m')) (hb : b ∈ blocks) (ha : b.span.Covers a)
    (hx : HasByte m.chunks a x) : HasByte m'.chunks a x := by
  have hp {s : Span} {m1 m2 : CodeMemory μ} {r : Except (Abort Error) Unit} (hne : code ≠ [])
      (ht : (CodeMemory.takeSpan (alignUp code.length alignment)).run m = (.ok s, m1))
      (hwr : (CodeMemory.writePages s.addr code).run (m1.carve s (alignUp code.length alignment)) =
        (r, m2)) : HasByte m2.chunks a x := by
    obtain ⟨h₂, c, hc, hw⟩ := h.carved hM hu hl hne ht
    obtain ⟨-, -, d, -, -, hwo⟩ := h₂.writePages hM hc hw hwr
    have hold : HasByte m1.chunks a x := hx.mono (takeSpan_chunks ht)
    cases hwo with
    | outside _ | locked _ _ => exact hold
    | copied _ _ _ => exact hold.overwriteIn (h₂.not_covers_new (alignUp_alignment hl).1 hb ha)
  cases run_allocate hr with
  | refused _ => exact hx
  | full _ ht => exact hx.mono (takeSpan_chunks ht)
  | written hne ht hwr | undone hne ht hwr | broken hne ht hwr =>
    have := hp hne ht hwr
    exact this

theorem Tiled.read_congr (h : Tiled M start unit m blocks) (h' : Tiled M start unit m' blocks')
    (hb : b ∈ blocks) (hb' : b ∈ blocks')
    (hk : ∀ a x, b.span.Covers a → HasByte m.chunks a x → HasByte m'.chunks a x) :
    m'.read b.addr b.size = m.read b.addr b.size := by
  have hs : b.span ∈ blocks.map Block.span ++ m.free.byAddr := mem_append_left _ (mem_map_of_mem hb)
  have hs' : b.span ∈ blocks'.map Block.span ++ m'.free.byAddr := mem_append_left _ (mem_map_of_mem hb')
  obtain ⟨n, hn⟩ := Int.eq_ofNat_of_zero_le (Int.le_of_lt (h.tiling.pos _ hs))
  obtain ⟨_, hm, hw⟩ := h.tiling.within _ hs
  obtain ⟨c, hc, rfl⟩ := mem_map.mp hm
  obtain ⟨_, hm', hw'⟩ := h'.tiling.within _ hs'
  obtain ⟨c', hc', rfl⟩ := mem_map.mp hm'
  have hsi : b.size = n := hn
  rw [Block.span, hsi] at hw hw'
  obtain ⟨bytes, hr, hl, hby⟩ := read_eq_ok (fun _ => h.chunk_fits) hc hw
  obtain ⟨bytes', hr', hl', hby'⟩ := read_eq_ok (fun _ => h'.chunk_fits) hc' hw'
  rw [hsi, hr, hr']
  congr 1
  refine ext_getElem (hl'.trans hl.symm) fun i hi hi' => ?_
  have hco : b.span.Covers (b.addr.toNat + i) := by
    have hlo : b.span.lo = b.addr.toNat := rfl
    have hhi : b.span.hi = b.addr.toNat + b.size := rfl
    exact ⟨by omega, by omega⟩
  exact h'.hasByte_unique (hby' i _ (getElem?_eq_getElem hi))
    (hk _ _ hco (hby i _ (getElem?_eq_getElem hi')))

/-! ## Images of blocks -/

/-- What is known of the bytes of a block. -/
abbrev Image := List (Option UInt8)

namespace Image

variable {img : Image} {offset : Nat}

def ofCode (size : Int) (code : List UInt8) : Image :=
  code.map some ++ replicate (size.toNat - code.length) none

def overlay (img : Image) (offset : Nat) (data : List UInt8) : Image :=
  img.take offset ++ data.map some ++ img.drop (offset + data.length)

def Matches (img : Image) (bytes : List UInt8) : Prop :=
  img.length = bytes.length ∧ ∀ (i : Nat) x, img[i]? = some (some x) → bytes[i]? = some x

theorem length_ofCode (h : (code.length : Int) ≤ size) : ((ofCode size code).length : Int) = size := by
  rw [ofCode, length_append, length_map, length_replicate]
  omega

theorem getElem?_ofCode (h : (ofCode size code)[i]? = some (some x)) : code[i]? = some x := by
  unfold ofCode at h
  rw [getElem?_append] at h
  split at h
  · rw [getElem?_map, Option.map_eq_some_iff] at h
    obtain ⟨y, hy, heq⟩ := h
    rw [hy, Option.some.inj heq]
  · rw [getElem?_replicate] at h
    split at h <;> cases h

theorem length_overlay (h : offset + data.length ≤ img.length) :
    (img.overlay offset data).length = img.length := by
  simp [overlay]
  omega

theorem getElem?_overlay (h : offset + data.length ≤ img.length) (i : Nat) :
    (img.overlay offset data)[i]? =
      if offset ≤ i ∧ i < offset + data.length then (data[i - offset]?).map some else img[i]? := by
  unfold overlay
  rw [append_assoc, getElem?_append, getElem?_append, length_take,
    length_map, Nat.min_eq_left (by omega), getElem?_map, getElem?_drop,
    getElem?_take]
  rcases Nat.lt_or_ge i offset with hlt | hge
  · rw [if_pos hlt, if_pos hlt, if_neg (by omega)]
  · rw [if_neg (by omega)]
    rcases Nat.lt_or_ge i (offset + data.length) with hlt | hge'
    · rw [if_pos (by omega), if_pos ⟨hge, hlt⟩]
    · rw [if_neg (by omega), if_neg (by omega)]
      congr 1
      omega

end Image

end CodeMemory

end TraceCompiler

/-! ## Access by address -/

namespace TraceCompiler.CodeMemory

open TraceCompiler.Span

variable {μ : Type} {m m' : CodeMemory μ} {c : Region} {s : Span} {addr : Word} {n : Int}
  {data : List UInt8}

def Inside (m : CodeMemory μ) (s : Span) : Prop := ∃ c ∈ m.chunks, s.Within c.span

/-- A range goes beyond the last address, and from the first one on not beyond the end of a chunk that
starts before the range. -/
def Wraps (m : CodeMemory μ) (s : Span) : Prop :=
  0x10000000000000000 ≤ s.hi ∧
    ∃ c ∈ m.chunks, c.span.lo ≤ s.lo ∧ s.hi - 0x10000000000000000 ≤ c.span.hi

theorem holds_iff_of_wraps (hc : c.span.Fits) (hs : s.size < 0x8000000000000000)
    (hhi : 0x10000000000000000 ≤ s.hi) : c.holds s.addr s.size = true ↔
      c.span.lo ≤ s.lo ∧ s.hi - 0x10000000000000000 ≤ c.span.hi := by
  have hst : c.base + Word.ofInt c.size = c.span.stop := rfl
  have he : ((s.addr + Word.ofInt s.size).toNat : Int) = s.hi - 0x10000000000000000 := by
    have hlo : s.hi = s.addr.toNat + s.size := rfl
    have hsi := Word.toNat_ofInt s.size
    have := s.addr.toNat_lt
    rw [UInt64.toNat_add]
    omega
  rw [Region.holds, Bool.and_eq_true, decide_eq_true_eq, decide_eq_true_eq, hst,
    UInt64.le_iff_toNat_le, UInt64.le_iff_toNat_le, ← Int.ofNat_le, ← Int.ofNat_le, he, hc.toNat_stop]
  exact Iff.rfl

/-- A chunk is found for a part of it, and for a range whose end wraps around. -/
theorem holds_iff_or (hc : c.span.Fits) (h0 : 0 ≤ s.size) (hs : s.size < 0x8000000000000000) :
    c.holds s.addr s.size = true ↔ s.Within c.span ∨ 0x10000000000000000 ≤ s.hi ∧
      c.span.lo ≤ s.lo ∧ s.hi - 0x10000000000000000 ≤ c.span.hi := by
  have hb := hc.bounded
  rcases Int.lt_or_le s.hi 0x10000000000000000 with hlt | hge
  · rw [holds_iff hc h0 hlt, or_iff_left fun hwr => Int.not_le.mpr hlt hwr.1]
  · rw [holds_iff_of_wraps hc hs hge, or_iff_right fun hw : s.Within c.span => by
      have := hw.2
      omega, and_iff_right hge]

theorem chunkOf?_eq_none_iff (h : m.Mapped) (h0 : 0 ≤ s.size) (hs : s.size < 0x8000000000000000) :
    m.chunkOf? s.addr s.size = none ↔ ¬ m.Inside s ∧ ¬ m.Wraps s := by
  rw [chunkOf?, List.find?_eq_none, ← not_or]
  constructor
  · rintro hn (⟨c, hc, hw⟩ | ⟨hge, c, hc, hw⟩)
    · exact hn c hc ((holds_iff_or (h.fits c hc) h0 hs).mpr (.inl hw))
    · exact hn c hc ((holds_iff_or (h.fits c hc) h0 hs).mpr (.inr ⟨hge, hw⟩))
  · intro hno c hc hh
    rcases (holds_iff_or (h.fits c hc) h0 hs).mp hh with hw | ⟨hge, hw⟩
    · exact hno (.inl ⟨c, hc, hw⟩)
    · exact hno (.inr ⟨hge, c, hc, hw⟩)

theorem Wraps.exists_chunkOf? (hwr : m.Wraps s) (h : m.Mapped) (h0 : 0 ≤ s.size)
    (hs : s.size < 0x8000000000000000) :
    ∃ c, m.chunkOf? s.addr s.size = some c ∧ c.size < (s.addr - c.base).toNat + s.size.toNat := by
  cases hf : m.chunkOf? s.addr s.size with
  | none => exact absurd hwr ((chunkOf?_eq_none_iff h h0 hs).mp hf).2
  | some d =>
    have hfi := h.fits d (List.mem_of_find?_eq_some hf)
    have hb := hfi.bounded
    have hge := hwr.1
    have hlo : d.span.lo ≤ s.lo := by
      rcases (holds_iff_or hfi h0 hs).mp (by simpa using List.find?_some hf) with hw | ⟨-, hle, -⟩
      · exact hw.1
      · exact hle
    have ho := UInt64.toNat_sub_of_le s.addr d.base (UInt64.le_iff_toNat_le.mpr (Int.ofNat_le.mp hlo))
    have hhi : s.hi = s.addr.toNat + s.size := rfl
    have he : d.span.hi = d.base.toNat + d.size := rfl
    exact ⟨d, rfl, by omega⟩

theorem le_roundUp (hpage : 0 < page) (n : Nat) : n ≤ (n + page - 1) / page * page := by
  have := Nat.lt_div_mul_add (a := n + page - 1) hpage
  omega

theorem read_outside (h : m.Mapped) (h0 : 0 ≤ n) (hn : n < 0x8000000000000000) :
    (m.Wraps ⟨addr, n⟩ → m.read addr n = .error .missing) ∧ (¬ m.Inside ⟨addr, n⟩ → ¬ m.Wraps ⟨addr, n⟩ →
        m.read addr n = .error (.error (.outOfRange addr n))) := by
  refine ⟨fun hw => ?_, fun hin hw => ?_⟩
  · obtain ⟨c, hf, hlt⟩ := hw.exists_chunkOf? h h0 hn
    unfold read
    rw [hf]
    dsimp only
    rw [if_pos (.inr hlt)]
    rfl
  · have hno := (chunkOf?_eq_none_iff (s := ⟨addr, n⟩) h h0 hn).mpr ⟨hin, hw⟩
    unfold read
    rw [hno]
    rfl

theorem writePages_outside (h : m.Mapped)
    (hl : data.length < 0x8000000000000000) (hru : (writePages addr data).run m = (r, m')) :
    (m.Wraps ⟨addr, data.length⟩ → r = .error .missing ∧ m' = m) ∧
      (¬ m.Inside ⟨addr, data.length⟩ → ¬ m.Wraps ⟨addr, data.length⟩ →
        r = .error (.error (.outOfRange addr data.length)) ∧ m' = m) := by
  have h0 : (0 : Int) ≤ data.length := Int.natCast_nonneg _
  have hn : (data.length : Int) < 0x8000000000000000 := Int.ofNat_lt.mpr hl
  refine ⟨fun hw => ?_, fun hin hw => ?_⟩
  · obtain ⟨c, hf, hlt⟩ := hw.exists_chunkOf? h h0 hn
    have hr := le_roundUp h.page ((addr - c.base).toNat + data.length)
    rw [writePages, run_get_bind, hf] at hru
    dsimp only at hru
    rw [if_pos (Nat.lt_of_lt_of_le hlt hr)] at hru
    cases hru
    exact ⟨rfl, rfl⟩
  · exact run_writePages_none ((chunkOf?_eq_none_iff (s := ⟨addr, data.length⟩) h h0 hn).mpr ⟨hin, hw⟩) hru

/-- Bytes are read and written, as far as the protection can be changed, if they lie in one chunk. -/
theorem access_decided (h : m.Mapped) (addr : Word) :
    (∀ n : Int, 0 ≤ n → n < 0x8000000000000000 →
      (m.Inside ⟨addr, n⟩ → ∃ bytes, m.read addr n = .ok bytes ∧ (bytes.length : Int) = n ∧
        ∀ (i : Nat) x, bytes[i]? = some x → HasByte m.chunks (addr.toNat + i) x) ∧
      (m.Wraps ⟨addr, n⟩ → m.read addr n = .error .missing) ∧
      (¬ m.Inside ⟨addr, n⟩ → ¬ m.Wraps ⟨addr, n⟩ →
        m.read addr n = .error (.error (.outOfRange addr n)))) ∧
    ∀ (data : List UInt8) r m', data.length < 0x8000000000000000 → (write addr data).run m = (r, m') →
      (m.closed = true → r = .error (.error .closed) ∧ m' = m) ∧
      (m.closed = false →
        (m.Inside ⟨addr, data.length⟩ → r = .ok () ∧ m'.chunks = overwriteIn addr data m.chunks ∨
          ∃ e, r = .error e ∧ Denied m addr data.length e) ∧
        (m.Wraps ⟨addr, data.length⟩ → r = .error .missing ∧ m' = m) ∧
        (¬ m.Inside ⟨addr, data.length⟩ → ¬ m.Wraps ⟨addr, data.length⟩ →
          r = .error (.error (.outOfRange addr data.length)) ∧ m' = m)) := by
  refine ⟨fun n h0 hn => ⟨?_, read_outside h h0 hn⟩, fun data r m' hlen hrun => ?_⟩
  · rintro ⟨c, hc, hw⟩
    obtain ⟨k, rfl⟩ := Int.eq_ofNat_of_zero_le h0
    obtain ⟨bytes, hread, hlength, hbytes⟩ := read_eq_ok h.fits hc hw
    exact ⟨bytes, hread, congrArg _ hlength, hbytes⟩
  · unfold write at hrun
    rw [run_get_bind] at hrun
    cases hclosed : m.closed with
    | true =>
      rw [hclosed] at hrun
      cases hrun
      exact ⟨fun _ => ⟨rfl, rfl⟩, nofun⟩
    | false =>
      rw [hclosed] at hrun
      have hrun' : (writePages addr data).run m = (r, m') := hrun
      refine ⟨nofun, fun _ => ⟨?_, writePages_outside h hlen hrun'⟩⟩
      rintro ⟨c, hc, hw⟩
      obtain ⟨hfault, d, hd, -, hwrote⟩ := h.writePages hc hw hrun'
      exact hwrote.ok_or_denied hd hfault

def single : CodeMemory Nat := (filled (.new twoChunks 0 32) 5).2

theorem single_runs : Runs twoChunks 0 32 single [⟨0x10000, 16⟩] :=
  .allocate (r := .ok ⟨0x10000, 16⟩) .new (by decide) (run_eq_of_fst (by decide +kernel))

theorem single_inside : single.Inside s ↔ s.Within ⟨0x10000, 32⟩ := by
  have hch : single.chunks.map Region.span = [⟨0x10000, 32⟩] := by decide +kernel
  constructor
  · rintro ⟨c, hc, hw⟩
    have hs : c.span ∈ single.chunks.map Region.span := List.mem_map_of_mem hc
    rw [hch, List.mem_singleton] at hs
    exact hs ▸ hw
  · intro hw
    have hs : ⟨0x10000, 32⟩ ∈ single.chunks.map Region.span := by rw [hch, List.mem_singleton]
    obtain ⟨c, hc, heq⟩ := List.mem_map.mp hs
    exact ⟨c, hc, heq ▸ hw⟩

/-- The last eight bytes of a chunk can be read, and eight bytes from the next address on cannot. -/
theorem access_decided_end : single.Mapped ∧ (∃ bytes, single.read 0x10018 8 = .ok bytes) ∧
    single.read 0x10019 8 = .error (.error (.outOfRange 0x10019 8)) ∧
    ∀ r m', (write 0x10019 (List.replicate 8 0x90)).run single = (r, m') →
      r = .error (.error (.outOfRange 0x10019 8)) ∧ m' = single := by
  have h : single.Mapped := (single_runs.tiled (twoChunks_lawful.serves (by decide) (by decide))
    (Int.dvd_refl 16)).mapped (twoChunks_lawful.serves (by decide) (by decide))
  have hout : ¬ single.Inside ⟨0x10019, 8⟩ := fun hin => absurd (single_inside.mp hin).2 (by decide)
  have hwraps : ¬ single.Wraps ⟨0x10019, 8⟩ := fun hwraps => absurd hwraps.1 (by decide)
  obtain ⟨bytes, hread, -⟩ := ((access_decided h 0x10018).1 8 (by decide) (by decide)).1
    (single_inside.mpr ⟨by decide, by decide⟩)
  obtain ⟨hreads, hwrites⟩ := access_decided h 0x10019
  refine ⟨h, ⟨bytes, hread⟩, (hreads 8 (by decide) (by decide)).2.2 hout hwraps, fun r m' hrun => ?_⟩
  exact ((hwrites _ r m' (by decide) hrun).2 (by decide +kernel)).2.2 hout hwraps

/-- Sixteen bytes from just below the last address on are in no chunk, but they are not refused. -/
theorem access_wraps : ¬ single.Inside ⟨0xFFFFFFFFFFFFFFF8, 16⟩ ∧
    single.read 0xFFFFFFFFFFFFFFF8 16 = .error .missing ∧
    ((write 0xFFFFFFFFFFFFFFF8 (List.replicate 16 0x90)).run single).1 = .error .missing :=
  ⟨fun hin => absurd (single_inside.mp hin).2 (by decide), by decide +kernel, by decide +kernel⟩

/-! ## Best fit -/

variable {M : Mapper μ} {start : μ} {m₁ : CodeMemory μ} {blocks : List Block} {size chunkSize : Int}
  {code : List UInt8} {e : Abort Error} {r : Except (Abort Error) Unit}

/-- The span that a block is carved out of, and the memory that has it: the best fit, or a new chunk
if nothing is large enough. -/
inductive Supplied (m : CodeMemory μ) (size : Int) : Span → CodeMemory μ → Prop where
  | fit {s : Span} (h : m.free.BestFit size s) : Supplied m size s m
  | chunk {c : Region} {p : μ} (need : ∀ t ∈ m.free.byAddr, t.size < size)
      (h : m.mapper.map (m.request size) m.pages = (.ok c, p)) (room : size ≤ c.size)
      (free : (m.free.insert c.span).byAddr.Perm (c.span :: m.free.byAddr)) :
      Supplied m size c.span
        { m with pages := p, chunks := m.chunks ++ [c], free := m.free.insert c.span }

/-- The mapper has refused a chunk that was needed, or to change the protection of pages. -/
inductive Refusal (m : CodeMemory μ) (size : Int) : Abort Error → Prop where
  | map {e : String} {p : μ} (need : ∀ t ∈ m.free.byAddr, t.size < size)
      (h : m.mapper.map (m.request size) m.pages = (.error e, p)) :
      Refusal m size (.error (.map (m.request size) e))
  | denied {s : Span} {m1 : CodeMemory μ} {n : Nat} {e : Abort Error} (hs : Supplied m size s m1)
      (h : Denied (m1.carve s size) s.addr n e) : Refusal m size e

theorem rounded_bounds (h : code.length + 15 < 0x8000000000000000) :
    (code.length : Int) ≤ alignUp code.length alignment ∧
      alignUp code.length alignment < code.length + 16 :=
  alignUp_bounds (by omega) (by decide) (by rw [alignment]; omega)

theorem le_request (hpage : 0 < m.mapper.pageSize) (h0 : 0 ≤ size)
    (h : size + m.mapper.pageSize ≤ 0x8000000000000000) : size ≤ m.request size := by
  unfold request
  split
  · exact (alignUp_bounds h0 hpage h).1
  · omega

theorem Wrote.spans_eq (h : Wrote m addr data c r m') :
    m'.chunks.map Region.span = m.chunks.map Region.span := by
  cases h with
  | outside _ | locked _ _ => rfl
  | copied _ _ _ => exact map_span_overwriteIn ..

section

variable (hM : M.Lawful start) (hpos : 0 < M.pageSize) (hpage : 16 ∣ M.pageSize)
  (h : Tiled M start 16 m blocks) (h0 : 0 < size) (hroom : size + M.pageSize ≤ 0x8000000000000000)

include hM hpos hpage h h0 hroom

theorem Grew.supplied (hg : Grew m (m.request size) r m') (need : ∀ t ∈ m.free.byAddr, t.size < size) :
    (∃ e, r = .error e ∧ Refusal m size e ∧ m'.chunks = m.chunks ∧ m'.free = m.free) ∨
      ∃ s, r = .ok () ∧ Supplied m size s m' ∧ m'.free.bestFit? size = some s := by
  have hs {c : Region} {p : μ} (hm : m.mapper.map (m.request size) m.pages = (.ok c, p)) :
      size ≤ c.size := by
    obtain ⟨spans, hse, -⟩ := h.served
    rw [(hM.mapped hse (h.mapper ▸ hm)).1]
    exact le_request (h.mapper ▸ hpos) (Int.le_of_lt h0) (h.mapper ▸ hroom)
  cases hg with
  | refused hm => exact .inl ⟨_, rfl, .map need hm, rfl, rfl⟩
  | empty hm hz =>
    have := hs hm
    omega
  | @mapped c p hm hne =>
    obtain ⟨hf, -, -, -, ha⟩ := h.fresh (hM.serves hpos hpage) (h.request size).1
      (h.request size).2 hm hne
    obtain ⟨ho, hp⟩ := h.tiling.insert hf ha
    refine .inr ⟨c.span, rfl, .chunk need hm (hs hm) hp, ?_⟩
    cases hfi : (m.free.insert c.span).bestFit? size with
    | none =>
      have := ho.bestFit?_eq_none.mp hfi c.span (hp.mem_iff.mpr List.mem_cons_self)
      exact absurd (hs hm) (Int.not_le.mpr this)
    | some s =>
      obtain ⟨hfr, hl, -⟩ := ho.bestFit hfi
      rcases List.mem_cons.mp (hp.mem_iff.mp hfr) with rfl | hold
      · rfl
      · exact absurd hl (Int.not_le.mpr (need s hold))

theorem Took.supplied {r : Except (Abort Error) Span} (ht : Took m size r m') :
    (∃ e, r = .error e ∧ Refusal m size e ∧ m'.chunks = m.chunks ∧ m'.free = m.free) ∨
      ∃ s, r = .ok s ∧ Supplied m size s m' := by
  have hn (hfi : m.free.bestFit? size = none) := h.tiling.ordered.bestFit?_eq_none.mp hfi
  cases ht with
  | found hfi => exact .inr ⟨_, rfl, .fit (h.tiling.ordered.bestFit hfi)⟩
  | failed hfi hg =>
    rcases hg.supplied hM hpos hpage h h0 hroom (hn hfi) with ⟨e, ⟨⟩, hr⟩ | ⟨_, ⟨⟩, -⟩
    exact .inl ⟨_, rfl, hr⟩
  | grown hfi hg =>
    rcases hg.supplied hM hpos hpage h h0 hroom (hn hfi) with ⟨_, ⟨⟩, -⟩ | ⟨s, -, hs, hf⟩
    rw [hf]
    exact .inr ⟨s, rfl, hs⟩

end

theorem Tiled.supplied_write {m2 : CodeMemory μ} (hM : M.Lawful start) (hpos : 0 < M.pageSize)
    (hpage : 16 ∣ M.pageSize) (h : Tiled M start 16 m blocks) (hne : code ≠ [])
    (hln : code.length + 15 + M.pageSize ≤ 0x8000000000000000)
    (hsi : size = alignUp code.length alignment) (ht : (CodeMemory.takeSpan size).run m = (.ok s, m₁))
    (hwi : (CodeMemory.writePages s.addr code).run (m₁.carve s size) = (r, m2)) :
    Supplied m size s m₁ ∧ m2.chunks.map Region.span = m₁.chunks.map Region.span ∧
      ∀ e, r = .error e → (∀ x, e ≠ .fault x) ∧ Refusal m size e := by
  have hse := hM.serves hpos hpage
  have hln' : code.length + 15 < 0x8000000000000000 := by omega
  obtain ⟨hle, hlt⟩ := rounded_bounds hln'
  have hl := List.length_pos_iff.mpr hne
  obtain ⟨_, ⟨⟩, -⟩ | ⟨_, ⟨⟩, hs⟩ := (run_takeSpan ht).supplied hM hpos hpage h (by omega) (by omega)
  subst hsi
  obtain ⟨h2, c, hc, hw⟩ := h.carved hse (Int.dvd_refl 16) (by omega) hne ht
  obtain ⟨-, hf, d, hdc, -, hwr⟩ := h2.writePages hse hc hw hwi
  refine ⟨hs, hwr.spans_eq, fun e he => ⟨fun x hx => hf x (hx ▸ he), ?_⟩⟩
  obtain ⟨hok, -⟩ | ⟨e', he', hd⟩ := hwr.ok_or_denied hdc hf
  · cases hok.symm.trans he
  · cases he'.symm.trans he
    exact .denied hs hd

/-- An allocation takes its block from the start of the best fit, or of a new chunk if nothing is large
enough, and fails only if the mapper refuses. -/
theorem allocate_takes_best_fit {r : Except (Abort Error) Block} (hpos : 0 < M.pageSize)
    (hpage : 16 ∣ M.pageSize) (hM : M.Lawful start) (hruns : Runs M start chunkSize m blocks)
    (hne : code ≠ []) (hlen : code.length + 15 + M.pageSize ≤ 0x8000000000000000)
    (hsize : size = alignUp code.length alignment) (hrun : (allocate code).run m = (r, m')) :
    (16 ∣ size ∧ code.length ≤ size ∧ size < code.length + 16) ∧
    ((∃ s m₁, Supplied m size s m₁ ∧ m'.chunks.map Region.span = m₁.chunks.map Region.span ∧
        (r = .ok ⟨s.addr, size⟩ ∨ ∃ e, r = .error e ∧ Refusal m size e ∧ m'.free = m₁.free)) ∨
      ∃ e, r = .error e ∧ Refusal m size e ∧ m'.chunks.map Region.span = m.chunks.map Region.span ∧
        m'.free = m.free) ∧
    ∀ e, r = .error e → m'.inUse = m.inUse ∧
      ∀ b ∈ blocks, m'.read b.addr b.size = m.read b.addr b.size := by
  have hserves := hM.serves hpos hpage
  have h := hruns.tiled hserves (Int.dvd_refl 16)
  have hlen' : code.length + 15 < 0x8000000000000000 := by omega
  have h' := h.allocate hserves (Int.dvd_refl 16) hlen' hrun
  have hbounds := rounded_bounds hlen'
  have hlength := List.length_pos_iff.mpr hne
  refine ⟨hsize ▸ ⟨dvd_alignUp .., hbounds⟩, ?_, fun e he => ?_⟩
  · subst hsize
    cases run_allocate hrun with
    | refused hor =>
      rw [h.opened] at hor
      exact absurd hor (by simp [hne])
    | full _ htake =>
      obtain ⟨e, ⟨⟩, hrefusal, hchunks, hfree⟩ | ⟨_, ⟨⟩, -⟩ :=
        (run_takeSpan htake).supplied hM hpos hpage h (by omega) (by omega)
      exact .inr ⟨_, rfl, hrefusal, by rw [hchunks], hfree⟩
    | written _ htake hwrite =>
      obtain ⟨hs, hspans, -⟩ := h.supplied_write hM hpos hpage hne hlen rfl htake hwrite
      exact .inl ⟨_, _, hs, hspans, .inl rfl⟩
    | @undone s e m₁ m2 _ htake hwrite =>
      obtain ⟨hs, hspans, hrefusal⟩ := h.supplied_write hM hpos hpage hne hlen rfl htake hwrite
      have hspans' : (m2.release ⟨s.addr, alignUp code.length alignment⟩).chunks.map Region.span =
        m₁.chunks.map Region.span := hspans
      have hfree := (hspans' ▸ h'.tiling).free_unique (h.takeSpan hserves htake).1.tiling
      exact .inl ⟨_, _, hs, hspans, .inr ⟨_, rfl, (hrefusal _ rfl).2, hfree⟩⟩
    | broken _ htake hwrite =>
      obtain ⟨-, -, hrefusal⟩ := h.supplied_write hM hpos hpage hne hlen rfl htake hwrite
      exact absurd rfl ((hrefusal _ rfl).1 _)
  · subst he
    refine ⟨h'.inUse.trans h.inUse.symm, fun b hb => h.read_congr h' hb hb fun a x ha hx => ?_⟩
    exact h.allocate_keeps hserves (Int.dvd_refl 16) hlen' hrun hb ha hx

/-- Four blocks fill two chunks; then all but the third are given back. -/
def spread : CodeMemory Nat :=
  let m := (filled (filled (filled (filled (.new twoChunks 0 32) 16).2 16).2 16).2 16).2
  ((m.deallocate ⟨0x10000, 16⟩).deallocate ⟨0x10010, 16⟩).deallocate ⟨0x10030, 16⟩

theorem spread_runs : Runs twoChunks 0 32 spread [⟨0x10020, 16⟩] := by
  have hf {m : CodeMemory Nat} {blocks : List Block} {b : Block} (h : Runs twoChunks 0 32 m blocks)
      (hb : (filled m 16).1 = .ok b) : Runs twoChunks 0 32 (filled m 16).2 (b :: blocks) :=
    .allocate (r := .ok b) h (by decide) (run_eq_of_fst hb)
  have hfu : Runs twoChunks 0 32 _ [⟨0x10030, 16⟩, ⟨0x10020, 16⟩, ⟨0x10010, 16⟩, ⟨0x10000, 16⟩] :=
    hf (hf (hf (hf .new (by decide +kernel)) (by decide +kernel)) (by decide +kernel))
      (by decide +kernel)
  exact ((hfu.deallocate (b := ⟨0x10000, 16⟩) (by decide)).deallocate
    (b := ⟨0x10010, 16⟩) (by decide)).deallocate (b := ⟨0x10030, 16⟩) (by decide)

/-- The smaller span is taken, although the larger one is lower. -/
theorem allocate_takes_best_fit_spread : spread.free.byAddr = [⟨0x10000, 32⟩, ⟨0x10030, 16⟩] ∧
    (filled spread 5).1 = .ok ⟨0x10030, 16⟩ ∧
    ∃ s m₁, Supplied spread 16 s m₁ ∧ s.addr = 0x10030 := by
  have hok : (filled spread 5).1 = .ok ⟨0x10030, 16⟩ := by decide +kernel
  obtain ⟨-, ⟨s, m₁, hs, -, heq | ⟨_, heq, -⟩⟩ | ⟨_, heq, -⟩, -⟩ :=
    allocate_takes_best_fit (by decide) (by decide) twoChunks_lawful spread_runs (by decide)
      (by decide) (show (16 : Int) = _ by decide) (run_eq_of_fst hok)
  · exact ⟨by decide +kernel, hok, s, m₁, hs, (Block.mk.inj (Except.ok.inj heq)).1.symm⟩
  · cases heq
  · cases heq

end TraceCompiler.CodeMemory
