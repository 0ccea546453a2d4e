import TraceCompiler.Proofs.CodeMemory.Contents

/-! # The pages that a write opens

A write makes the pages that it touches writable and executable again.
-/

namespace TraceCompiler

namespace CodeMemory

open TraceCompiler.Span

variable {c : Region} {addr : Word} {page : Nat}

theorem same_page_iff {page x y a : Int} (hp : 0 < page) (hxy : x ≤ y) :
    x / page * page ≤ a ∧ a < (y / page + 1) * page ↔ ∃ a', (x ≤ a' ∧ a' ≤ y) ∧ a / page = a' / page := by
  have hb (z : Int) : z / page * page ≤ z := Int.ediv_mul_le z (by omega)
  have ha (z : Int) : z < (z / page + 1) * page := Int.lt_ediv_add_one_mul_self z hp
  constructor
  · rintro ⟨hlo, hhi⟩
    have h1 : x / page ≤ a / page := Int.le_ediv_of_mul_le hp hlo
    have h2 : a / page ≤ y / page := Int.lt_add_one_iff.mp (Int.ediv_lt_of_lt_mul hp hhi)
    rcases Int.lt_or_eq_of_le h1 with hlt | heq
    · -- the first byte of the page
      refine ⟨a / page * page, ⟨?_, ?_⟩, (Int.mul_ediv_cancel _ (by omega)).symm⟩
      · have := Int.mul_le_mul_of_nonneg_right (show x / page + 1 ≤ a / page by omega)
          (Int.le_of_lt hp)
        have := ha x
        omega
      · exact Int.le_trans (Int.mul_le_mul_of_nonneg_right h2 (Int.le_of_lt hp)) (hb y)
    · exact ⟨x, ⟨Int.le_refl x, hxy⟩, heq.symm⟩
  · rintro ⟨a', ⟨h1, h2⟩, heq⟩
    have h3 := Int.ediv_le_ediv hp h1
    have h4 := Int.ediv_le_ediv hp h2
    rw [← heq] at h3 h4
    refine ⟨?_, ?_⟩
    · exact Int.le_trans (Int.mul_le_mul_of_nonneg_right h3 (Int.le_of_lt hp)) (hb a)
    · exact Int.lt_of_lt_of_le (ha a)
        (Int.mul_le_mul_of_nonneg_right (by omega) (Int.le_of_lt hp))

def Touches (page : Nat) (w r : Span) : Prop :=
  ∀ a, r.Covers a ↔ ∃ a', w.Covers a' ∧ a / page = a' / page

/-- The pages that are opened for a write to `w`: those that it touches, and where nothing is
written, the page that the place is inside of. -/
def Opens (page : Nat) (w r : Span) : Prop :=
  (0 < w.size → Touches page w r) ∧
    (w.size = 0 → ∀ a, r.Covers a ↔ ¬ (page : Int) ∣ w.lo ∧ a / page = w.lo / page)

theorem covers_pages_iff {base : Nat} (hp : 0 < page) (hb : page ∣ base) (offset n : Nat) (a : Int) :
    (base + offset / page * page : Nat) ≤ a ∧ a < (base + (offset + n + page - 1) / page * page : Nat) ↔
      (0 < n ∧ ∃ a' : Int, ((base + offset : Nat) ≤ a' ∧ a' < (base + offset + n : Nat)) ∧
        a / page = a' / page) ∨
      (n = 0 ∧ ¬ (page : Int) ∣ (base + offset : Nat) ∧ a / page = (base + offset : Nat) / page) := by
  obtain ⟨b, rfl⟩ := hb
  have hP : (0 : Int) < page := by omega
  have hdi (k : Nat) : (((page * b + k : Nat) : Int) / page) = ((b + k / page : Nat) : Int) := by
    rw [← Int.natCast_ediv, Nat.mul_add_div hp]
  have hm (q : Nat) : (((b + q : Nat) : Int) * page) = ((page * b + q * page : Nat) : Int) := by
    rw [← Int.natCast_mul, Nat.add_mul, Nat.mul_comm b]
  have hl := hm (offset / page)
  rw [← hdi] at hl
  have hh (k q : Nat) (hq : q = k / page + 1) :
      (((page * b + k : Nat) : Int) / page + 1) * page = ((page * b + q * page : Nat) : Int) := by
    rw [hdi, hq, ← hm]
    push_cast
    rw [Int.add_assoc]
  rcases Nat.eq_zero_or_pos n with rfl | hn
  · rw [Nat.add_zero]
    by_cases hd : page ∣ offset
    · obtain ⟨q, rfl⟩ := hd
      have h1 : page * q / page = q := Nat.mul_div_cancel_left q hp
      have h2 : (page * q + page - 1) / page = q := by
        rw [show page * q + page - 1 = page * q + (page - 1) by omega, Nat.mul_add_div hp,
          Nat.div_eq_of_lt (by omega), Nat.add_zero]
      have h3 : (page : Int) ∣ (page * b + page * q : Nat) :=
        Int.natCast_dvd_natCast.mpr ⟨b + q, (Nat.mul_add ..).symm⟩
      rw [h1, h2]
      omega
    · have hmo : 0 < offset % page := Nat.pos_of_ne_zero fun h => hd (Nat.dvd_of_mod_eq_zero h)
      have hup : (offset + page - 1) / page = offset / page + 1 := by
        have hsp := Nat.div_add_mod offset page
        have hlt := Nat.mod_lt offset hp
        have hsu : offset + page - 1 = page * (offset / page + 1) + (offset % page - 1) := by
          rw [Nat.mul_add]
          omega
        have hs : (offset % page - 1) / page = 0 := Nat.div_eq_of_lt (by omega)
        rw [hsu, Nat.mul_add_div hp, hs, Nat.add_zero]
      have hno : ¬ (page : Int) ∣ (page * b + offset : Nat) := fun h =>
        hd ((Nat.dvd_add_right ⟨b, rfl⟩).mp (Int.natCast_dvd_natCast.mp h))
      rw [← hl, ← hh offset _ hup, same_page_iff hP (Int.le_refl _)]
      constructor
      · rintro ⟨a', ⟨h1, h2⟩, heq⟩
        exact .inr ⟨rfl, hno, heq.trans (by rw [Int.le_antisymm h2 h1])⟩
      · rintro (⟨h, -⟩ | ⟨-, -, heq⟩)
        · omega
        · exact ⟨_, ⟨Int.le_refl _, Int.le_refl _⟩, heq⟩
  · have hup : (offset + n + page - 1) / page = (offset + n - 1) / page + 1 := by
      rw [show offset + n + page - 1 = offset + n - 1 + page by omega, Nat.add_div_right _ hp]
    rw [← hl, ← hh (offset + n - 1) _ hup, same_page_iff hP (by omega)]
    constructor
    · rintro ⟨a', h, heq⟩
      exact .inl ⟨hn, a', by omega, heq⟩
    · rintro (⟨-, a', h, heq⟩ | ⟨h, -⟩)
      · exact ⟨a', by omega, heq⟩
      · omega

theorem opens_touched {n : Nat} {first : Word} {k : Nat} (hpa : 0 < page)
    (hb : (page : Int) ∣ c.span.lo) (hwh : (page : Int) ∣ c.span.size) (hc : c.span.Fits)
    (hw : Span.Within ⟨addr, n⟩ c.span) (ht : touched page c addr n = (first, k)) :
    Span.Within ⟨first, k⟩ c.span ∧ Opens page ⟨addr, n⟩ ⟨first, k⟩ := by
  have hb : page ∣ c.base.toNat := Int.natCast_dvd_natCast.mp hb
  have hwh : page ∣ c.size := Int.natCast_dvd_natCast.mp hwh
  have hle := offset_add_le hw
  have hof := toNat_offset hw
  have hlo : (c.base.toNat : Int) ≤ addr.toNat := hw.1
  have he : (c.base.toNat : Int) + c.size < 0x10000000000000000 := hc.bounded
  generalize ho : (addr - c.base).toNat = offset at hle hof
  have ha : addr.toNat = c.base.toNat + offset := by omega
  have hl := roundUp_le hpa hwh hle
  have hup : offset / page * page ≤ (offset + n + page - 1) / page * page :=
    Nat.mul_le_mul_right page (Nat.div_le_div_right (by omega))
  unfold touched at ht
  rw [ho] at ht
  obtain ⟨rfl, rfl⟩ := Prod.mk.inj ht
  generalize hlo' : offset / page * page = lo at *
  generalize hhi' : (offset + n + page - 1) / page * page = hi at *
  -- the two ends in both cases; at the end of the chunk nothing is opened
  obtain ⟨start, hst, hs⟩ : ∃ start : Int,
      Span.lo ⟨if lo = c.size then c.base else c.base + lo.toUInt64, (hi - lo : Nat)⟩ = start ∧
      (lo = c.size ∧ start = c.base.toNat ∧ hi = lo ∨ start = (c.base.toNat + lo : Nat)) := by
    split
    · exact ⟨_, rfl, .inl ⟨‹_›, rfl, by omega⟩⟩
    · refine ⟨_, rfl, .inr ?_⟩
      rw [Span.lo, UInt64.toNat_add, Nat.toUInt64, UInt64.toNat_ofNat']
      omega
  generalize (if lo = c.size then c.base else c.base + lo.toUInt64) = first at hst
  have hsp : c.span.lo = c.base.toNat := rfl
  have hsa : c.span.hi = c.base.toNat + c.size := rfl
  have hr : Span.hi ⟨first, (hi - lo : Nat)⟩ = start + (hi - lo : Nat) := by rw [Span.hi, hst]
  have hco (a : Int) : Span.Covers ⟨first, (hi - lo : Nat)⟩ a ↔
      (c.base.toNat + lo : Nat) ≤ a ∧ a < (c.base.toNat + hi : Nat) := by
    rw [Span.Covers, hst, hr]
    omega
  have hwl : Span.lo ⟨addr, n⟩ = (c.base.toNat + offset : Nat) := by rw [Span.lo, ha]
  have hwi : Span.hi ⟨addr, n⟩ = (c.base.toNat + offset + n : Nat) := by
    rw [Span.hi, hwl]
    rfl
  have hp := covers_pages_iff hpa hb offset n
  rw [hlo', hhi'] at hp
  refine ⟨⟨by omega, by omega⟩, fun hn a => ?_, fun hn a => ?_⟩
  · have hn : 0 < n := Int.natCast_pos.mp hn
    rw [hco, hp]
    simp only [Span.Covers, hwl, hwi]
    exact ⟨fun h => h.elim (·.2) (by omega), fun h => .inl ⟨hn, h⟩⟩
  · have hn : n = 0 := Int.natCast_eq_zero.mp hn
    rw [hco, hp, hwl]
    exact ⟨fun h => h.elim (by omega) (·.2), fun h => .inr ⟨hn, h⟩⟩

end CodeMemory

/-! ## The calls of a mapper -/

/-- A call that makes bytes writable or executable. -/
structure Protection where
  addr : Word
  size : Nat
  writable : Bool
  deriving DecidableEq

namespace Protection

def span (g : Protection) : Span := ⟨g.addr, g.size⟩

instance (s : Span) (a : Int) : Decidable (s.Covers a) := inferInstanceAs (Decidable (_ ∧ _))

/-- Whether a byte is writable after some calls: as the last one says that it was in. -/
def leaves (log : List Protection) (a : Int) : Bool :=
  log.foldl (fun open? g => if g.span.Covers a then g.writable else open?) false

def opening (r : Span) : List Protection :=
  [⟨r.addr, r.size.toNat, true⟩, ⟨r.addr, r.size.toNat, false⟩]

theorem leaves_flatMap_opening (calls : List Span) (a : Int) :
    leaves (calls.flatMap opening) a = false := by
  unfold leaves
  induction calls with
  | nil => rfl
  | cons r calls ih =>
    rw [List.flatMap_cons, List.foldl_append]
    have hf : (opening r).foldl
        (fun open? g => if g.span.Covers a then g.writable else open?) false = false := by
      by_cases h : Span.Covers ⟨r.addr, r.size.toNat⟩ a <;> simp [opening, span]
    rw [hf, ih]

end Protection

namespace Mapper

variable {μ : Type} {M : Mapper μ} {start : μ} {spans : List Span}

def logged (M : Mapper μ) : Mapper (μ × List Protection) where
  pageSize := M.pageSize
  map n p := ((M.map n p.1).1, (M.map n p.1).2, p.2)
  unmap addr n p := ((M.unmap addr n p.1).1, (M.unmap addr n p.1).2, p.2)
  protect addr n writable p :=
    ((M.protect addr n writable p.1).1, (M.protect addr n writable p.1).2, p.2 ++ [⟨addr, n, writable⟩])

theorem Served.of_logged (h : M.logged.Served (start, log) p spans) : M.Served start p.1 spans := by
  induction h with
  | start => exact .start
  | mapped _ hm ih =>
    obtain ⟨h1, rfl⟩ := Prod.mk.inj hm
    exact .mapped ih (Prod.ext h1 rfl)
  | refused _ hm ih =>
    obtain ⟨h1, rfl⟩ := Prod.mk.inj hm
    exact .refused ih (Prod.ext h1 rfl)
  | guarded _ hp ih =>
    obtain ⟨-, rfl⟩ := Prod.mk.inj hp
    exact .guarded ih rfl

/-- A mapper of whole pages, at addresses that it did not hand out yet and before the last one, which
never refuses to protect them. -/
structure Paged (M : Mapper μ) (start : μ) : Prop where
  page : 0 < M.pageSize
  mapped : ∀ {p p' spans n r}, M.Served start p spans → M.map n p = (.ok r, p') →
    (M.pageSize : Int) ∣ r.span.lo ∧ M.pageSize ∣ r.size ∧ r.size < 0x8000000000000000 ∧
      r.span.hi < 0x10000000000000000 ∧ ∀ s ∈ spans, ∀ a, s.Covers a → ¬ r.span.Covers a
  protects : ∀ addr n writable p, (M.protect addr n writable p).1 = .ok ()

theorem Paged.serves (hM : M.Paged start) (log : List Protection) : M.logged.Serves (start, log) 1 where
  page := hM.page
  fresh hs _ _ hm := by
    obtain ⟨h1, -⟩ := Prod.mk.inj hm
    obtain ⟨-, hw, hsi, hhi, hf⟩ := hM.mapped hs.of_logged (Prod.ext h1 rfl)
    exact ⟨hsi, hhi, ⟨Int.one_dvd _, Int.one_dvd _⟩, hw, hf⟩

theorem Paged.base (hM : M.Paged start) (h : M.Served start p spans) :
    ∀ s ∈ spans, (M.pageSize : Int) ∣ s.lo := by
  induction h with
  | start => exact nofun
  | mapped h hm ih =>
    intro s hs
    rcases List.mem_append.mp hs with hs | hs
    · exact ih s hs
    · exact List.mem_singleton.mp hs ▸ (hM.mapped h hm).1
  | refused _ _ ih => exact ih
  | guarded _ _ ih => exact ih

end Mapper

namespace CodeMemory

open TraceCompiler.Span Protection

variable {μ : Type} {M : Mapper μ} {start : μ} {m m' : CodeMemory (μ × List Protection)}
  {c : Region} {addr : Word} {data : List UInt8} {r : Except (Abort Error) Unit}

def log (m : CodeMemory (μ × List Protection)) : List Protection := m.pages.2

theorem Grew.log_eq (hm : m.mapper = M.logged) (h : Grew m n r m') : m'.log = m.log := by
  have hma {r : Except String Region} {p : μ × List Protection}
      (h : m.mapper.map n m.pages = (r, p)) : p.2 = m.pages.2 := by
    rw [hm] at h
    exact congrArg (·.2) (Prod.mk.inj h).2.symm
  cases h with
  | refused h | empty h _ | mapped h _ => exact hma h

theorem Wrote.logged (hM : M.Paged start) (hm : m.mapper = M.logged)
    (h : Wrote m addr data c r m') (hr : ∀ x, r ≠ .error (.fault x)) :
    r = .ok () ∧ m'.chunks = overwriteIn addr data m.chunks ∧
      ∃ first k, touched M.pageSize c addr data.length = (first, k) ∧
        m'.log = m.log ++ opening ⟨first, k⟩ := by
  cases h with
  | outside _ => exact absurd rfl (hr none)
  | locked _ hrw =>
    rw [hm] at hrw
    cases (hM.protects ..).symm.trans (Prod.mk.inj hrw).1
  | @copied first k p p' r' ht hrw hrx =>
    rw [hm] at hrw hrx ht
    obtain ⟨-, rfl⟩ := Prod.mk.inj hrw
    obtain ⟨rfl, rfl⟩ := Prod.mk.inj hrx
    rw [hM.protects]
    exact ⟨rfl, rfl, first, k, ht, by simp [log, opening]⟩

end CodeMemory

end TraceCompiler

/-! ## Sessions of code memory -/

namespace TraceCompiler.CodeMemory

open TraceCompiler.Span Protection List

variable {μ : Type} {M : Mapper μ} {start : μ} {m m' m1 : CodeMemory (μ × List Protection)}
  {held : List (Block × Image)} {writes : List Span} {b : Block} {c : Region} {addr : Word}
  {s : Span} {code data : List UInt8} {chunkSize size : Int} {r : Except (Abort Error) Unit}
  {blocks : List Block} {img : Image}

def patched (b : Block) (offset : Nat) (data : List UInt8) (e : Block × Image) : Block × Image :=
  if e.1 = b then (b, e.2.overlay offset data) else e

@[simp] theorem patched_fst (b : Block) (offset : Nat) (data : List UInt8) (e : Block × Image) :
    (patched b offset data e).1 = e.1 := by
  unfold patched
  split
  · exact Eq.symm ‹_›
  · rfl

/-- The states of a memory whose mapper keeps a log, with the blocks and what they should hold, and
with the places that were written, in order. -/
inductive Session (M : Mapper μ) (start : μ) (chunkSize : Int) :
    CodeMemory (μ × List Protection) → List (Block × Image) → List Span → Prop where
  | new : Session M start chunkSize (.new M.logged (start, []) chunkSize) [] []
  | allocate {m m' : CodeMemory (μ × List Protection)} {held : List (Block × Image)}
      {writes : List Span} {code : List UInt8} {b : Block} (h : Session M start chunkSize m held writes)
      (hlen : code.length + 15 < 0x8000000000000000) (hrun : (allocate code).run m = (.ok b, m')) :
      Session M start chunkSize m' ((b, .ofCode b.size code) :: held)
        (writes ++ [⟨b.addr, code.length⟩])
  | refused {m m' : CodeMemory (μ × List Protection)} {held : List (Block × Image)}
      {writes : List Span} {code : List UInt8} {e : Abort Error}
      (h : Session M start chunkSize m held writes) (hlen : code.length + 15 < 0x8000000000000000)
      (hrun : (allocate code).run m = (.error e, m')) : Session M start chunkSize m' held writes
  | deallocate {m : CodeMemory (μ × List Protection)} {held : List (Block × Image)}
      {writes : List Span} {b : Block} (h : Session M start chunkSize m held writes)
      (hb : b ∈ held.map Prod.fst) :
      Session M start chunkSize (m.deallocate b) (held.eraseP (b == ·.1)) writes
  | write {m m' : CodeMemory (μ × List Protection)} {held : List (Block × Image)}
      {writes : List Span} {b : Block} {r : Except (Abort Error) Unit} (offset : Nat)
      (data : List UInt8) (h : Session M start chunkSize m held writes) (hb : b ∈ held.map Prod.fst)
      (hin : (offset + data.length : Int) ≤ b.size)
      (hrun : (write (b.addr + offset.toUInt64) data).run m = (r, m')) :
      Session M start chunkSize m' (held.map (patched b offset data))
        (writes ++ [⟨b.addr + offset.toUInt64, data.length⟩])

/-- The calls that protect pages open and close them, once for every write, and those of one chunk
that the write is in. -/
def Guarded (M : Mapper μ) (chunks : List Span) (writes : List Span) (log : List Protection) : Prop :=
  ∃ calls : List Span, log = calls.flatMap opening ∧
    Forall₂ (fun w r => (∃ c ∈ chunks, w.Within c ∧ r.Within c) ∧ Opens M.pageSize w r) writes calls

theorem Guarded.mono {chunks chunks' writes : List Span} {log : List Protection}
    (h : Guarded M chunks writes log) (hs : chunks ⊆ chunks') : Guarded M chunks' writes log := by
  obtain ⟨calls, hl, ha⟩ := h
  refine ⟨calls, hl, ha.imp fun w r ⟨⟨c, hc, hin⟩, ho⟩ => ⟨⟨c, hs hc, hin⟩, ho⟩⟩

structure Kept (M : Mapper μ) (start : μ) (m : CodeMemory (μ × List Protection))
    (held : List (Block × Image)) (writes : List Span) : Prop where
  tiled : Tiled M.logged (start, []) 1 m (held.map Prod.fst)
  sizes : ∀ e ∈ held, (e.2.length : Int) = e.1.size
  bytes : ∀ e ∈ held, ∀ (i : Nat) x, e.2[i]? = some (some x) → HasByte m.chunks (e.1.addr.toNat + i) x
  guarded : Guarded M (m.chunks.map Region.span) writes m.log

theorem chunk_pages (hM : M.Paged start) (h : Tiled M.logged (start, []) 1 m blocks)
    (hc : c ∈ m.chunks) : (M.pageSize : Int) ∣ c.span.lo ∧ (M.pageSize : Int) ∣ c.span.size := by
  obtain ⟨spans, hs, hm⟩ := h.served
  exact ⟨hM.base hs.of_logged _ (hm _ (mem_map_of_mem hc)), h.pages _ (mem_map_of_mem hc)⟩

theorem writePages_guarded (hM : M.Paged start) (h : Tiled M.logged (start, []) 1 m blocks)
    (hg : Guarded M (m.chunks.map Region.span) writes m.log) (hc : c ∈ m.chunks)
    (hw : Span.Within ⟨addr, data.length⟩ c.span) (hru : (writePages addr data).run m = (r, m')) :
    r = .ok () ∧ Tiled M.logged (start, []) 1 m' blocks ∧ m'.chunks = overwriteIn addr data m.chunks ∧
      Guarded M (m'.chunks.map Region.span) (writes ++ [⟨addr, data.length⟩]) m'.log := by
  obtain ⟨h', hf, d, hd, hdw, hwr⟩ := h.writePages (hM.serves []) hc hw hru
  obtain ⟨hr, hch, first, k, ht, hl⟩ := hwr.logged hM h.mapper hf
  obtain ⟨hb, hwh⟩ := chunk_pages hM h hd
  obtain ⟨hwi, ho⟩ := opens_touched hM.page hb hwh (h.chunk_fits hd) hdw ht
  refine ⟨hr, h', hch, ?_⟩
  obtain ⟨calls, hca, ha⟩ := hg
  rw [hch, map_span_overwriteIn]
  refine ⟨calls ++ [⟨first, k⟩], ?_, rel_append ha ?_⟩
  · rw [hl, hca, flatMap_append, flatMap_singleton]
  · exact .cons ⟨⟨d.span, mem_map_of_mem hd, hdw, hwi⟩, ho⟩ .nil

theorem covers_block {i : Nat} {x : Option UInt8} (hs : (img.length : Int) = b.size)
    (hi : img[i]? = some x) : b.span.Covers (b.addr.toNat + i) := by
  have hlt := (List.getElem_of_getElem? hi).1
  have hlo : b.span.lo = b.addr.toNat := rfl
  have hhi : b.span.hi = b.addr.toNat + b.size := rfl
  exact ⟨by omega, by omega⟩

theorem takeSpan_log {r : Except (Abort Error) Span} (hm : m.mapper = M.logged)
    (hr : (takeSpan size).run m = (r, m')) : m'.log = m.log := by
  obtain rfl | ⟨_, hg⟩ := (run_takeSpan hr).grew
  · rfl
  · exact hg.log_eq hm

namespace Kept

theorem new : Kept M start (.new M.logged (start, []) chunkSize) [] [] where
  tiled := tiled_new M.logged (start, []) 1 chunkSize
  sizes := nofun
  bytes := nofun
  guarded := ⟨[], rfl, .nil⟩

theorem grow (h : Kept M start m held writes)
    (h' : Tiled M.logged (start, []) 1 m' (held.map Prod.fst)) (hs : m.chunks ⊆ m'.chunks)
    (hl : m'.log = m.log) : Kept M start m' held writes where
  tiled := h'
  sizes := h.sizes
  bytes e he i x hx := (h.bytes e he i x hx).mono hs
  guarded := hl ▸ h.guarded.mono (map_subset _ hs)

section

variable (hM : M.Paged start) (h : Kept M start m held writes)
include hM h

theorem placed (hs : alignUp code.length alignment = size) (hl : code.length + 15 < 0x8000000000000000)
    (hne : code ≠ []) (ht : (takeSpan size).run m = (.ok s, m1))
    (hru : (writePages s.addr code).run (m1.carve s size) = (r, m')) :
    r = .ok () ∧ Kept M start m' ((⟨s.addr, size⟩, .ofCode size code) :: held)
      (writes ++ [⟨s.addr, code.length⟩]) := by
  have hco : (code.length : Int) ≤ size := hs ▸ (alignUp_alignment hl).1
  have hsu := takeSpan_chunks ht
  have hlo := takeSpan_log h.tiled.mapper ht
  have hca := h.tiled.carved (hM.serves []) ⟨16, rfl⟩ hl hne (hs ▸ ht)
  rw [hs] at hca
  obtain ⟨h₂, c, hc, hw⟩ := hca
  have hg : Guarded M ((m1.carve s size).chunks.map Region.span) writes (m1.carve s size).log :=
    hlo ▸ h.guarded.mono (map_subset _ hsu)
  obtain ⟨hr, h', hch, hg'⟩ := writePages_guarded hM h₂ hg hc hw hru
  have hsu' : m.chunks ⊆ (m1.carve s size).chunks := hsu
  refine ⟨hr, h', ?_, ?_, hg'⟩
  · exact forall_mem_cons.mpr ⟨Image.length_ofCode hco, h.sizes⟩
  · rw [hch]
    refine forall_mem_cons.mpr ⟨fun i x hx => ?_, fun e he i x hx => ?_⟩
    · exact hasByte_overwriteIn hc hw (fun d hd => h₂.chunk_fits hd) (Image.getElem?_ofCode hx)
    · -- the new block is apart from the others
      refine ((h.bytes e he i x hx).mono hsu').overwriteIn ?_
      exact h₂.not_covers_new hco (mem_map_of_mem he) (covers_block (h.sizes e he) hx)

theorem allocate_ok
    (hl : code.length + 15 < 0x8000000000000000) (hr : (allocate code).run m = (.ok b, m')) :
    Kept M start m' ((b, .ofCode b.size code) :: held) (writes ++ [⟨b.addr, code.length⟩]) := by
  cases run_allocate hr with
  | written hne ht hw => exact (h.placed hM rfl hl hne ht hw).2

theorem allocate_error
    (hl : code.length + 15 < 0x8000000000000000) (hr : (allocate code).run m = (.error e, m')) :
    Kept M start m' held writes := by
  have h' := h.tiled.allocate (hM.serves []) ⟨16, rfl⟩ hl hr
  cases run_allocate hr with
  | refused _ => exact h
  | full _ ht =>
    exact h.grow h' (takeSpan_chunks ht) (takeSpan_log h.tiled.mapper ht)
  | undone hne ht hw | broken hne ht hw =>
    cases (h.placed hM rfl hl hne ht hw).1

end

theorem deallocate (h : Kept M start m held writes) (hb : b ∈ held.map Prod.fst) :
    Kept M start (m.deallocate b) (held.eraseP (b == ·.1)) writes := by
  have hl : (m.deallocate b).log = m.log := by
    unfold CodeMemory.deallocate
    split <;> rfl
  have hbl : (held.eraseP (b == ·.1)).map Prod.fst = (held.map Prod.fst).erase b := by
    rw [erase_eq_eraseP, eraseP_map]
    rfl
  refine ⟨hbl ▸ h.tiled.deallocate hb, fun e he => h.sizes e (mem_of_mem_eraseP he), fun e he => ?_, ?_⟩
  · rw [chunks_deallocate]
    exact h.bytes e (mem_of_mem_eraseP he)
  · rw [chunks_deallocate, hl]
    exact h.guarded

theorem write {offset : Nat} (hM : M.Paged start) (h : Kept M start m held writes)
    (hb : b ∈ held.map Prod.fst) (hin : (offset + data.length : Int) ≤ b.size)
    (hru : (write (b.addr + offset.toUInt64) data).run m = (r, m')) :
    r = .ok () ∧ Kept M start m' (held.map (patched b offset data))
      (writes ++ [⟨b.addr + offset.toUInt64, data.length⟩]) := by
  have hs : b.span ∈ (held.map Prod.fst).map Block.span := mem_map_of_mem hb
  have hf := h.tiled.tiling.fits (mem_append_left _ hs)
  obtain ⟨_, hm, hw⟩ := h.tiled.tiling.within b.span (mem_append_left _ hs)
  obtain ⟨c, hc, rfl⟩ := mem_map.mp hm
  have hbl : b.span.lo = b.addr.toNat := rfl
  have hbh : b.span.hi = b.addr.toNat + b.size := rfl
  have had : (b.addr + offset.toUInt64).toNat = b.addr.toNat + offset := by
    have := hf.bounded
    rw [UInt64.toNat_add, Nat.toUInt64, UInt64.toNat_ofNat']
    omega
  generalize b.addr + offset.toUInt64 = addr at had hru ⊢
  have hlo : Span.lo ⟨addr, data.length⟩ = addr.toNat := rfl
  have hhi : Span.hi ⟨addr, data.length⟩ = addr.toNat + data.length := rfl
  have hsu : Span.Within ⟨addr, data.length⟩ b.span := ⟨by omega, by omega⟩
  have hru : (writePages addr data).run m = (r, m') := by
    rwa [CodeMemory.write, run_get_bind, h.tiled.opened] at hru
  obtain ⟨hr, h', hch, hg⟩ := writePages_guarded hM h.tiled h.guarded hc (hsu.trans hw) hru
  have hfs : (held.map (patched b offset data)).map Prod.fst = held.map Prod.fst := by
    rw [map_map]
    exact map_congr_left fun e _ => patched_fst b offset data e
  have him {e : Block × Image} (he : e ∈ held) (heq : e.1 = b) :
      offset + data.length ≤ e.2.length := by
    have := h.sizes e he
    rw [heq] at this
    omega
  refine ⟨hr, hfs ▸ h', fun e' he' => ?_, fun e' he' i x hx => ?_, hg⟩
  · obtain ⟨e, he, rfl⟩ := mem_map.mp he'
    rw [patched_fst, ← h.sizes e he]
    unfold patched
    split
    · rw [Image.length_overlay (him he ‹_›)]
    · rfl
  · obtain ⟨e, he, rfl⟩ := mem_map.mp he'
    rw [patched_fst, hch]
    unfold patched at hx
    split at hx
    · rename_i heq
      rw [Image.getElem?_overlay (him he heq)] at hx
      split at hx
      · -- a byte of the patch
        obtain ⟨y, hy, hyx⟩ := Option.map_eq_some_iff.mp hx
        have := hasByte_overwriteIn hc (hsu.trans hw) (fun d hd => h.tiled.chunk_fits hd) hy
        rw [Option.some.inj hyx] at this
        rwa [heq, show (b.addr.toNat + i : Int) = addr.toNat + (i - offset : Nat) by omega]
      · refine (h.bytes e he i x hx).overwriteIn fun h => ?_
        rw [Span.Covers, heq] at h
        omega
    · rename_i hne
      refine (h.bytes e he i x hx).overwriteIn fun hco => ?_
      have ha : b.span.Apart e.1.span := (pairwise_append.mp h.tiled.tiling.apart).1.forall hs
          (mem_map_of_mem (mem_map_of_mem he)) fun heq => hne (span_injective heq).symm
      exact ha.not_covers ⟨Int.le_trans hsu.1 hco.1, Int.lt_of_lt_of_le hco.2 hsu.2⟩
        (covers_block (h.sizes e he) hx)

end Kept

theorem Session.kept (hM : M.Paged start) (h : Session M start chunkSize m held writes) :
    Kept M start m held writes := by
  induction h with
  | new => exact .new
  | allocate _ hl hr ih => exact ih.allocate_ok hM hl hr
  | refused _ hl hr ih => exact ih.allocate_error hM hl hr
  | deallocate _ hb ih => exact ih.deallocate hb
  | write _ _ _ hb hin hr ih => exact (ih.write hM hb hin hr).2

/-- Blocks hold the code that they were allocated with, overlaid by the patches since. -/
theorem Kept.read_block (h : Kept M start m held writes) (he : (b, img) ∈ held) :
    ∃ bytes, m.read b.addr b.size = .ok bytes ∧ img.Matches bytes := by
  have hs : (img.length : Int) = b.size := h.sizes _ he
  have hsp : b.span ∈ (held.map Prod.fst).map Block.span := mem_map_of_mem (mem_map_of_mem he)
  obtain ⟨_, hm, hw⟩ := h.tiled.tiling.within b.span (mem_append_left _ hsp)
  obtain ⟨c, hc, rfl⟩ := mem_map.mp hm
  have hw' : Span.Within ⟨b.addr, img.length⟩ c.span := by rwa [hs]
  obtain ⟨bytes, hr, hl, hb⟩ := read_eq_ok (fun _ => h.tiled.chunk_fits) hc hw'
  refine ⟨bytes, hs ▸ hr, hl.symm, fun i x hx => ?_⟩
  have hlt : i < bytes.length := hl ▸ (List.getElem_of_getElem? hx).1
  have hg : bytes[i]? = some bytes[i] := getElem?_eq_getElem hlt
  rw [hg, h.tiled.hasByte_unique (hb i _ hg) (h.bytes _ he i x hx)]

/-- In every session, blocks hold the code that they were allocated with, overlaid by the patches made
to them since; the mapper is asked to open and close the pages of one chunk for every write, and
between operations no page is writable. -/
theorem session_keeps_code (hM : M.Paged start) (hrun : Session M start chunkSize m held writes) :
    (∀ b img, (b, img) ∈ held → ∃ bytes, m.read b.addr b.size = .ok bytes ∧ img.Matches bytes) ∧
      Guarded M (m.chunks.map Region.span) writes m.log ∧ (∀ a, leaves m.log a = false) ∧
      ∀ b ∈ held.map Prod.fst, ∀ (offset : Nat) (data : List UInt8),
        (offset + data.length : Int) ≤ b.size →
        ((write (b.addr + offset.toUInt64) data).run m).1 = .ok () := by
  have h := hrun.kept hM
  refine ⟨fun b img he => h.read_block he, h.guarded, fun a => ?_, fun b hb offset data hin => ?_⟩
  · obtain ⟨calls, hlog, -⟩ := h.guarded
    rw [hlog, leaves_flatMap_opening]
  · exact (h.write hM hb hin rfl).1

theorem twoChunks_paged : twoChunks.Paged 0 where
  page := by decide
  mapped h hm := by
    obtain ⟨hs, hlo, hhi, hf⟩ := twoChunks_lawful.mapped h hm
    obtain ⟨-, -, h32, -, -⟩ := twoChunks_map hm
    refine ⟨hlo, ?_, by omega, hhi, hf⟩
    rw [h32]
    decide
  protects _ _ _ _ := rfl

/-- A memory in which a block was given back and its place was taken by a smaller one. -/
def reused : CodeMemory (Nat × List Protection) :=
  (filled ((filled (.new twoChunks.logged (0, []) 32) 20).2.deallocate ⟨0x10000, 32⟩) 5).2

theorem session_reused : Session twoChunks 0 32 reused
    [(⟨0x10000, 16⟩, .ofCode 16 (replicate 5 0x90))] [⟨0x10000, 20⟩, ⟨0x10000, 5⟩] := by
  have hf : (filled (.new twoChunks.logged (0, []) 32) 20).1 = .ok ⟨0x10000, 32⟩ := by
    decide +kernel
  have hs : (filled ((filled (.new twoChunks.logged (0, []) 32) 20).2.deallocate
      ⟨0x10000, 32⟩) 5).1 = .ok ⟨0x10000, 16⟩ := by decide +kernel
  have hfr := (Session.allocate .new (by decide) (run_eq_of_fst hf)).deallocate
    (b := ⟨0x10000, 32⟩) mem_cons_self
  exact .allocate hfr (by decide) (run_eq_of_fst hs)

theorem session_keeps_code_reused : ∃ (m : CodeMemory (Nat × List Protection)) (bytes : List UInt8),
    m.read 0x10000 16 = .ok bytes ∧
      Image.Matches ([0x90, 0x90, 7, 8, 0x90].map some ++ List.replicate 11 none) bytes ∧
      ∀ a, leaves m.log a = false := by
  have hpatch := Session.write (b := ⟨0x10000, 16⟩) 2 [7, 8] session_reused List.mem_cons_self
    (by decide) (run_eq_of_fst rfl)
  obtain ⟨hread, -, hclosed, -⟩ := session_keeps_code twoChunks_paged hpatch
  obtain ⟨bytes, hbytes, hmatches⟩ := hread _ _ List.mem_cons_self
  exact ⟨_, bytes, hbytes, hmatches, hclosed⟩

/-- A patch of no bytes inside a page opens the page, though it touches none. -/
theorem empty_patch_opens_page : ¬ ∀ m held writes, Session twoChunks 0 32 m held writes →
    ∃ calls : List Span, m.log = calls.flatMap opening ∧
      List.Forall₂ (Touches twoChunks.pageSize) writes calls := by
  intro hall
  have hpatch := Session.write (b := ⟨0x10000, 16⟩) 1 [] session_reused List.mem_cons_self
    (by decide) (run_eq_of_fst rfl)
  obtain ⟨calls, hlog, htouch⟩ := hall _ _ _ hpatch
  have hlast : ((write ((⟨0x10000, 16⟩ : Block).addr + Nat.toUInt64 1) []).run reused).2.log.getLast? =
      some ⟨0x10000, 16, false⟩ := by decide +kernel
  obtain ⟨r1, r2, r, rfl, hr⟩ : ∃ r1 r2 r, calls = [r1, r2, r] ∧
      Touches twoChunks.pageSize ⟨0x10000 + Nat.toUInt64 1, 0⟩ r := by
    cases htouch with | cons _ h => cases h with | cons _ h => cases h with | cons h h' =>
    cases h'
    exact ⟨_, _, _, rfl, h⟩
  have hsize : r.size.toNat = 16 := by
    rw [hlog] at hlast
    exact (Protection.mk.inj (Option.some.inj hlast)).2.1
  have hhi : r.hi = r.lo + r.size := rfl
  obtain ⟨a, ⟨h1, h2⟩, -⟩ := (hr r.lo).mp ⟨Int.le_refl _, by omega⟩
  exact absurd (Int.lt_of_le_of_lt h1 h2) (by decide)

end TraceCompiler.CodeMemory
