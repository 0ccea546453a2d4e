import Mathlib.Algebra.Ring.Int.Defs
import Mathlib.Data.List.Induction
import TraceCompiler.Profile.Summary
import TraceCompiler.Proofs.Json.Reader
import TraceCompiler.Proofs.Number.Bytes

/-! # Reading back recordings

What a recorder writes is read back as the records that were added (`recordings_read_back`).
-/

namespace TraceCompiler.Profile

open Recording List

variable {ks : Kinds} {rs : List Record} {table : KindTable} {α : Type} {n : Nat} {i : Intake}

namespace Recorder

def appending : Write (List UInt8) := fun bs out => .ok (out ++ bs)

def record (ks : Kinds) (rs : List Record) : Except RecordError (List UInt8) :=
  match start appending [] { kinds := ks } with
  | (.error e, _, _) => .error e
  | (.ok _, out, r) =>
    match close appending out (rs.foldl (fun r x => r.add x) r) with
    | (.error e, _, _) => .error e
    | (.ok _, out, _) => .ok out

theorem writeAll_appending (parts : List (α × List UInt8)) (out : List UInt8) :
    writeAll appending parts out = (.ok (), out ++ parts.flatMap Prod.snd) := by
  induction parts generalizing out with
  | nil => rw [flatMap_nil, append_nil]; rfl
  | cons part parts ih =>
    change writeAll appending parts (out ++ part.2) = _
    rw [ih, flatMap_cons, append_assoc]

theorem flatten_blocks (rs : List Record) : (blocks rs).flatten = rs := by
  fun_induction blocks rs with
  | case1 => rfl
  | case2 r rest ih => rw [flatten_cons, ih, cons_append, take_append_drop]

theorem foldl_add (rs : List Record) {r : Recorder} (ho : r.isOpen = true) :
    rs.foldl (fun r x => r.add x) r = { r with pending := rs.reverse ++ r.pending } := by
  induction rs generalizing r with
  | nil => rfl
  | cons x rs ih =>
    rw [foldl_cons, add, if_pos ho, ih (r := { r with pending := x :: r.pending }) ho,
      reverse_cons, append_assoc]
    rfl

theorem record_eq (ks : Kinds) (rs : List Record) : record ks rs = .ok (bytes ks rs) := by
  have hs : start appending [] { kinds := ks } =
      (.ok (), (opening ks).flatMap Prod.snd, { kinds := ks, isOpen := true }) := by
    rw [start, if_neg Bool.false_ne_true, writeAll_appending]
    rfl
  have hr : ((blocks rs).map fun b => ((), b.flatMap recordBytes)).flatMap Prod.snd =
      rs.flatMap recordBytes := by
    rw [flatMap_map, ← flatMap_assoc, flatMap_id', flatten_blocks]
  rw [record, hs]
  dsimp only
  rw [foldl_add rs rfl, close]
  dsimp only
  rw [if_neg (show ¬ (!true) = true by decide), append_nil, reverse_reverse, writeAll_appending, hr]
  rfl

end Recorder

namespace Recording

/-! ## Records -/

def entryOf (ks : Kinds) (r : Record) : Entry := ⟨(ks.list[r.id.toNat - 1]?).getD {}, r.duration⟩

def Knows (table : KindTable) (ks : Kinds) : Prop :=
  ∀ (id : Word) k, 1 ≤ id.toNat → ks.list[id.toNat - 1]? = some k → table.lookup id = some k

/-- A record that can be written: its kind is registered, and the duration has 64 bits. -/
structure Valid (ks : Kinds) (r : Record) : Prop where
  id : 1 ≤ r.id.toNat ∧ r.id.toNat ≤ ks.list.length
  duration : -0x8000000000000000 ≤ r.duration ∧ r.duration < 0x8000000000000000

@[simp] theorem length_recordBytes (r : Record) : (recordBytes r).length = 16 := by
  simp [recordBytes, Word.bytes]

theorem ofBytes_bytes (w : Word) : Word.ofBytes (Word.bytes 8 w) = w := by
  rw [← UInt64.toNat_inj, Word.toNat_ofBytes_bytes]
  exact Nat.mod_eq_of_lt w.toNat_lt

theorem readRecord_append (hr : Valid ks r) (q : List UInt8) : readRecord (recordBytes r ++ q) = r := by
  have hl (w : Word) : (Word.bytes 8 w).length = 8 := by simp [Word.bytes]
  have hid : (recordBytes r ++ q).take 8 = Word.bytes 8 r.id := by
    rw [recordBytes, append_assoc, take_left' (hl _)]
  have hd : ((recordBytes r ++ q).drop 8).take 8 = Word.bytes 8 (Word.ofInt r.duration) := by
    rw [recordBytes, append_assoc, drop_left' (hl _), bytesOfInt, take_left' (hl _)]
  have hs : Word.signed (Word.ofInt r.duration) = r.duration :=
    (BitVec.toInt_ofInt ..).trans (wrap64_of_lt hr.duration.1 hr.duration.2)
  rw [readRecord, hid, hd, ofBytes_bytes, ofBytes_bytes, hs]

theorem take_append (h : xs.length = n) (ys : List α) (k : Nat) :
    (xs ++ ys).take (n + k) = xs ++ ys.take k := h ▸ take_length_add_append k

theorem readRecords_take (hkn : Knows table ks) (hrs : ∀ r ∈ rs, Valid ks r) (hm : m ≤ 16 * rs.length) :
    (readRecords table ((rs.flatMap recordBytes).take m)).1 = (rs.take (m / 16)).map (entryOf ks) ∧
      ((readRecords table ((rs.flatMap recordBytes).take m)).2 = .ok () ↔ 16 ∣ m) := by
  induction rs generalizing m with
  | nil =>
    obtain rfl : m = 0 := by simpa using hm
    rw [readRecords]
    exact ⟨rfl, by simp⟩
  | cons r rs ih =>
    obtain ⟨hr, hrs⟩ := forall_mem_cons.mp hrs
    rw [length_cons] at hm
    rw [flatMap_cons]
    generalize hq : rs.flatMap recordBytes = q at ih ⊢
    have hl : ((recordBytes r ++ q).take m).length = min m (16 + q.length) := by
      rw [length_take, length_append, length_recordBytes]
    rw [readRecords]
    by_cases hz : m = 0
    · subst hz
      exact ⟨rfl, by simp⟩
    have hne : ((recordBytes r ++ q).take m).isEmpty = false := by
      rw [← Bool.not_eq_true, isEmpty_iff_length_eq_zero]
      omega
    rw [if_neg (hne ▸ Bool.false_ne_true)]
    by_cases hlt : m < 16
    · rw [dif_pos (by rw [length_take, recordSize]; omega), Nat.div_eq_of_lt hlt]
      refine ⟨rfl, nofun, fun hdv => ?_⟩
      exact absurd (Nat.le_of_dvd (Nat.pos_of_ne_zero hz) hdv) (Nat.not_le.mpr hlt)
    · rw [dif_neg (by rw [length_take, recordSize]; omega)]
      obtain ⟨k, rfl⟩ := Nat.exists_eq_add_of_le (Nat.le_of_not_lt hlt)
      have hd : (recordBytes r ++ q.take k).drop recordSize = q.take k :=
        drop_left' (length_recordBytes r)
      obtain ⟨kind, hk⟩ : ∃ kind, ks.list[r.id.toNat - 1]? = some kind :=
        ⟨_, getElem?_eq_getElem (by have := hr.id; omega)⟩
      obtain ⟨h1, h2⟩ := ih hrs (m := k) (by omega)
      rw [take_append (length_recordBytes r), readRecord_append hr, hd]
      dsimp only
      rw [hkn r.id kind hr.id.1 hk]
      dsimp only
      rw [h1, h2, Nat.add_div_left k (by decide), take_succ_cons, map_cons, entryOf, hk]
      exact ⟨rfl, (Nat.dvd_add_right (Nat.dvd_refl 16)).symm⟩

/-! ## The opening -/

theorem request_spec (want : Nat) (hr : i.ready ≤ i.left) (hw : 0 < want)
    (hl : 0 < i.left) : 0 < (i.request want).1 ∧ (i.request want).1 ≤ want ∧
      (i.request want).2.left = i.left - (i.request want).1 ∧
      (i.request want).2.ready ≤ (i.request want).2.left := by
  unfold Intake.request
  have : alignment = 4096 := rfl
  split
  · dsimp only
    omega
  · dsimp only
    split <;> omega

theorem taken_all (hf : needed - have' < fuel) (hle : have' ≤ needed) (hr : have' ≤ room) (hp : 0 < room)
    (hl : needed - have' ≤ i.left) (hre : i.ready ≤ i.left) :
    taken needed needed fuel have' room i = needed := by
  induction fuel generalizing have' room i with
  | zero => cases hf
  | succ fuel ih =>
    unfold taken
    split
    · omega
    dsimp only
    have hr' : have' < if 3 * room / 4 ≤ have' then 2 * room else room := by
      split <;> omega
    generalize (if 3 * room / 4 ≤ have' then 2 * room else room) = room' at hr' ⊢
    obtain ⟨h1, h2, h3, h4⟩ := request_spec (min (room' - have') (needed - have')) hre (by omega)
      (by omega)
    generalize i.request (min (room' - have') (needed - have')) = r at h1 h2 h3 h4 ⊢
    rw [if_neg (by omega)]
    exact ih (by omega) (by omega) (by omega) (by omega) (by omega) h4

theorem number32_bytes32 (k : UInt32) (front back : List UInt8) (offset : Nat)
    (h : front.length = offset) : number32 (front ++ bytes32 k ++ back) offset = k.toNat := by
  have hl : (bytes32 k).length = 4 := by simp [bytes32, Word.bytes]
  rw [number32, append_assoc, drop_left' h, take_left' hl, bytes32,
    Word.toNat_ofBytes_bytes, UInt32.toNat_toUInt64]
  exact Nat.mod_eq_of_lt k.toNat_lt

theorem bytesOf_json (ks : Kinds) : ∃ t, Text.bytesOf ks.json = 123 :: t := by
  obtain ⟨s, hs⟩ : ∃ s, ks.json = "\x7b" ++ s := ⟨_, String.append_assoc⟩
  rw [hs, Text.bytesOf, String.toUTF8, String.toByteArray_append, ByteArray.data_append,
    Array.toList_append]
  exact ⟨_, rfl⟩

def Decodes (ks : Kinds) (table : KindTable) : Prop :=
  (∃ v, Json.read (Text.bytesOf ks.json) = .ok (v, (Text.bytesOf ks.json).length) ∧
    KindTable.ofJson v = some table) ∧ Knows table ks

def openingSize (ks : Kinds) : Nat := (12 + (Text.bytesOf ks.json).length + 4095) / 4096 * 4096

theorem openingSize_eq (ks : Kinds) : openingSize ks = 12 + (Text.bytesOf ks.json).length +
    paddingAfter (12 + (Text.bytesOf ks.json).length) := by
  unfold openingSize paddingAfter
  rw [alignment]
  split <;> omega

theorem length_header (n : Nat) : (header n).length = 12 := by
  simp [header, bytes32, Word.bytes]

theorem bytes_eq (ks : Kinds) (rs : List Record) : bytes ks rs =
    header (Text.bytesOf ks.json).length ++ (Text.bytesOf ks.json ++
      (replicate (paddingAfter (12 + (Text.bytesOf ks.json).length)) 0 ++ rs.flatMap recordBytes)) := by
  unfold bytes opening
  dsimp only
  split
  · rename_i hz
    rw [headerSize] at hz
    simp [hz]
  · simp [headerSize]

theorem readOpening_header (size : Nat) (q : List UInt8) :
    readOpening (header size ++ q) = readTable (size % 0x100000000) q := by
  have hl : headerSize ≤ (header size ++ q).length := by
    rw [length_append, length_header]
    exact Nat.le_add_right ..
  have hne : (header size ++ q).isEmpty = false := rfl
  have hm : number32 (header size ++ q) 0 = magic.toNat := by
    rw [header, append_assoc, append_assoc]
    exact number32_bytes32 magic [] _ 0 rfl
  have hv : number32 (header size ++ q) 4 = version.toNat := by
    rw [header, append_assoc]
    exact number32_bytes32 version (bytes32 magic) _ 4 rfl
  have ht : number32 (header size ++ q) 8 = size % 0x100000000 := by
    rw [header, number32_bytes32 size.toUInt32 (bytes32 magic ++ bytes32 version) q 8 rfl, Nat.toUInt32,
      UInt32.toNat_ofNat']
  unfold readOpening
  rw [hne, hm, hv, ht, drop_left' (i := headerSize) (length_header size)]
  dsimp only
  rw [if_neg Bool.false_ne_true, if_neg (Nat.not_lt.mpr hl), if_neg (not_not_intro rfl),
    if_neg (not_not_intro rfl)]

theorem readOpening_short (h : bs.length < headerSize) : ∃ e, readOpening bs = .error e := by
  unfold readOpening
  dsimp only
  split <;> exact ⟨_, rfl⟩

theorem readTable_cut (hd : Decodes ks table) (hn : n < (Text.bytesOf ks.json).length)
    (hb : bs.take size = (Text.bytesOf ks.json).take n) : ∃ e, readTable size bs = .error e := by
  obtain ⟨⟨v, hr, -⟩, -⟩ := hd
  obtain ⟨t, ht⟩ := bytesOf_json ks
  rw [ht] at hr hn hb
  obtain ⟨e, he⟩ := Json.read_take hr (Nat.le_of_lt_succ hn)
  unfold readTable
  rw [hb, he]
  exact ⟨_, rfl⟩

theorem readTable_append (hd : Decodes ks table) (q : List UInt8) :
    readTable (Text.bytesOf ks.json).length (Text.bytesOf ks.json ++ q) =
      if q.length < paddingAfter (12 + (Text.bytesOf ks.json).length) then .error .ended
      else .ok (table, q.drop (paddingAfter (12 + (Text.bytesOf ks.json).length))) := by
  obtain ⟨⟨v, hr, ht⟩, -⟩ := hd
  generalize Text.bytesOf ks.json = t at hr ⊢
  have hta : taken t.length t.length (t.length + 1) 0 firstRoom
      ⟨(t ++ q).length, min alignment (headerSize + (t ++ q).length) - headerSize⟩ = t.length := by
    refine taken_all (by omega) (Nat.zero_le _) (Nat.zero_le _) (by decide) ?_ ?_
    · rw [length_append]
      exact Nat.le_trans (Nat.sub_le ..) (Nat.le_add_right ..)
    · dsimp only
      omega
  unfold readTable
  rw [take_left, hr]
  dsimp only [Except.mapError]
  rw [bind_of_ok rfl]
  dsimp only
  rw [ht, hta, drop_left, headerSize]
  dsimp only
  split <;> rfl

theorem readOpening_take (hsi : (Text.bytesOf ks.json).length < 0x100000000)
    (hd : Decodes ks table) (rs : List Record) (n : Nat) :
    (n < openingSize ks → ∃ e, readOpening ((bytes ks rs).take n) = .error e) ∧
      (openingSize ks ≤ n → readOpening ((bytes ks rs).take n) =
        .ok (table, (rs.flatMap recordBytes).take (n - openingSize ks))) := by
  rw [openingSize_eq, bytes_eq]
  by_cases hs : n < 12
  · exact ⟨fun _ => readOpening_short (Nat.lt_of_le_of_lt (length_take_le ..) hs), fun h => by omega⟩
  obtain ⟨k, rfl⟩ := Nat.exists_eq_add_of_le (Nat.le_of_not_lt hs)
  rw [take_append (length_header _), readOpening_header, Nat.mod_eq_of_lt hsi]
  by_cases hc : k < (Text.bytesOf ks.json).length
  · rw [take_append_of_le_length (Nat.le_of_lt hc)]
    exact ⟨fun _ => readTable_cut hd hc (by rw [take_take, Nat.min_eq_right (Nat.le_of_lt hc)]), fun h => by omega⟩
  obtain ⟨m, rfl⟩ := Nat.exists_eq_add_of_le (Nat.le_of_not_lt hc)
  rw [take_length_add_append, readTable_append hd]
  generalize paddingAfter (12 + (Text.bytesOf ks.json).length) = padding
  have hl : ((replicate padding 0 ++ rs.flatMap recordBytes).take m).length =
      min m (padding + (rs.flatMap recordBytes).length) := by
    rw [length_take, length_append, length_replicate]
  by_cases hp : m < padding
  · rw [if_pos (by omega)]
    exact ⟨fun _ => ⟨_, rfl⟩, fun h => by omega⟩
  obtain ⟨j, rfl⟩ := Nat.exists_eq_add_of_le (Nat.le_of_not_lt hp)
  rw [if_neg (by omega), take_append List.length_replicate, drop_left' length_replicate]
  refine ⟨fun h => by omega, fun _ => ?_⟩
  congr 3
  omega

end Recording

/-- The bytes of a recording are read back as its records, in order and with their kinds. -/
theorem recordings_read_back (hsize : (Text.bytesOf ks.json).length < 0x100000000)
    (hdec : Decodes ks table) (hrs : ∀ r ∈ rs, Valid ks r) :
    ∃ bs, Recorder.record ks rs = .ok bs ∧ bs.length = openingSize ks + 16 * rs.length ∧
      read bs = (rs.map (entryOf ks), .ok ()) ∧
      ∀ n ≤ bs.length, (read (bs.take n)).1 = (rs.take ((n - openingSize ks) / 16)).map (entryOf ks) ∧
        ((read (bs.take n)).2 = .ok () ↔ openingSize ks ≤ n ∧ 16 ∣ n - openingSize ks) := by
  have hrecords : (rs.flatMap recordBytes).length = 16 * rs.length := by
    induction rs with
    | nil => rfl
    | cons r rs ih => simp [ih fun r hr => hrs r (List.mem_cons_of_mem _ hr)]; omega
  have hlen : (bytes ks rs).length = openingSize ks + 16 * rs.length := by
    rw [bytes_eq, openingSize_eq]
    simp only [List.length_append, length_header, List.length_replicate, hrecords]
    omega
  have hprefix (n : Nat) (hn : n ≤ (bytes ks rs).length) :
      (read ((bytes ks rs).take n)).1 = (rs.take ((n - openingSize ks) / 16)).map (entryOf ks) ∧
        ((read ((bytes ks rs).take n)).2 = .ok () ↔ openingSize ks ≤ n ∧ 16 ∣ n - openingSize ks) := by
    obtain ⟨hshort, hlong⟩ := readOpening_take hsize hdec rs n
    unfold Recording.read
    by_cases h : n < openingSize ks
    · obtain ⟨e, he⟩ := hshort h
      rw [he, Nat.sub_eq_zero_of_le (Nat.le_of_lt h)]
      exact ⟨rfl, nofun, fun h' => absurd h'.1 (Nat.not_le.mpr h)⟩
    · have h := Nat.le_of_not_lt h
      rw [hlong h]
      obtain ⟨h1, h2⟩ := readRecords_take hdec.2 hrs (m := n - openingSize ks) (by omega)
      exact ⟨h1, h2.trans (and_iff_right h).symm⟩
  refine ⟨_, Recorder.record_eq ks rs, hlen, ?_, hprefix⟩
  obtain ⟨h1, h2⟩ := hprefix _ (Nat.le_refl _)
  rw [List.take_length, hlen] at h1 h2
  refine Prod.ext ?_ (h2.mpr ⟨Nat.le_add_right .., ?_⟩)
  · rw [h1, Nat.add_sub_cancel_left, Nat.mul_div_cancel_left _ (by decide), List.take_length]
  · rw [Nat.add_sub_cancel_left]
    exact Nat.dvd_mul_right ..

def quotedKinds : Kinds := ⟨[⟨"a\"<é", .native⟩, ⟨"", ⟨0⟩⟩]⟩

theorem json_quotedKinds : quotedKinds.json = "\x7b\"1\":\x7b\"Name\":\"a\\\"\\u003cé\",\"Flags\":1\x7d," ++
    "\"2\":\x7b\"Name\":\"\",\"Flags\":0\x7d\x7d" := by
  unfold Kinds.json
  dsimp only
  rw [mergeSort_of_pairwise (by decide +kernel)]
  decide +kernel

theorem decodes_quotedKinds : Decodes quotedKinds [(2, ⟨"", ⟨0⟩⟩), (1, ⟨"a\"<é", .native⟩)] := by
  refine ⟨?_, fun id k hp hk => ?_⟩
  · obtain ⟨⟨v, n⟩, _, hr, heq⟩ := exists_ok_of_map
      (x := (Json.read (Text.bytesOf quotedKinds.json), ())) (f := fun p => (KindTable.ofJson p.1, p.2))
      (v := (some [(2, ⟨"", ⟨0⟩⟩), (1, ⟨"a\"<é", .native⟩)], (Text.bytesOf quotedKinds.json).length))
      (by rw [json_quotedKinds]; decide +kernel)
    obtain ⟨ht, rfl⟩ := Prod.mk.inj heq
    exact ⟨v, congrArg Prod.fst hr, ht⟩
  · have hlt : id.toNat - 1 < 2 := (List.getElem_of_getElem? hk).1
    obtain h | h : id.toNat = 1 ∨ id.toNat = 2 := by omega
    · obtain rfl : id = 1 := UInt64.toNat_inj.mp h
      exact hk
    · obtain rfl : id = 2 := UInt64.toNat_inj.mp h
      exact hk

theorem recordings_read_back_quoted : ∃ bs, Recorder.record quotedKinds [⟨2, -1⟩, ⟨1, 7⟩] = .ok bs ∧
    bs.length = 4128 ∧
    Recording.read bs = ([⟨⟨"", ⟨0⟩⟩, -1⟩, ⟨⟨"a\"<é", .native⟩, 7⟩], .ok ()) ∧
    (Recording.read (bs.take 4127)).1 = [⟨⟨"", ⟨0⟩⟩, -1⟩] ∧ (Recording.read (bs.take 4127)).2 ≠ .ok () := by
  have hsize : (Text.bytesOf quotedKinds.json).length = 64 := by
    rw [json_quotedKinds]
    decide +kernel
  have hopening : openingSize quotedKinds = 4096 := by rw [openingSize, hsize]
  have hrs : ∀ r ∈ [⟨2, -1⟩, ⟨1, 7⟩], Valid quotedKinds r := by
    simp only [List.forall_mem_cons]
    exact ⟨⟨by decide, by decide⟩, ⟨by decide, by decide⟩, nofun⟩
  obtain ⟨bs, hrecord, hlen, hread, hcut⟩ :=
    recordings_read_back (by rw [hsize]; decide) decodes_quotedKinds hrs
  rw [hopening] at hlen hcut
  obtain ⟨hentries, hresult⟩ := hcut 4127 (hlen ▸ by decide)
  refine ⟨bs, hrecord, hlen, hread, hentries, fun h => ?_⟩
  exact absurd (hresult.mp h).2 (by decide)

theorem utf8ByteSize_join (n : Nat) : (String.join (replicate n "a")).utf8ByteSize = n := by
  induction n with
  | zero => rfl
  | succ n ih =>
    rw [replicate_succ, String.join_cons, String.utf8ByteSize_append, ih]
    exact Nat.add_comm 1 n

theorem le_length_json (n : Nat) :
    n ≤ (Text.bytesOf (Kinds.json ⟨[⟨String.ofList (replicate n 'a'), ⟨0⟩⟩]⟩)).length := by
  rw [show ∀ s : String, (Text.bytesOf s).length = s.utf8ByteSize from fun _ => rfl]
  simp [Kinds.json, Kinds.numbered, Text.joined, Json.quoted, show Json.escaped 'a' = "a" by decide +kernel,
    utf8ByteSize_join]
  omega

/-- The header keeps 32 bits of the size of the table. Of a table of 2 ^ 32 bytes only a beginning is read,
and with it none of the records. -/
theorem record_wraps_table : ∃ ks : Kinds, 0x100000000 ≤ (Text.bytesOf ks.json).length ∧
    ∀ table rs, Decodes ks table → ∃ bs, Recorder.record ks rs = .ok bs ∧
      (read bs).1 = [] ∧ (read bs).2 ≠ .ok () := by
  refine ⟨_, le_length_json 0x100000000, fun table rs hdec => ⟨_, Recorder.record_eq _ rs, ?_⟩⟩
  have hsize := le_length_json 0x100000000
  generalize (⟨[⟨String.ofList (replicate 0x100000000 'a'), ⟨0⟩⟩]⟩ : Kinds) = ks at *
  have hcut : (Text.bytesOf ks.json).length % 0x100000000 < (Text.bytesOf ks.json).length := by omega
  obtain ⟨e, he⟩ := readTable_cut hdec hcut (take_append_of_le_length (Nat.le_of_lt hcut))
  rw [Recording.read, bytes_eq, readOpening_header, he]
  exact ⟨rfl, nofun⟩

/-! ## Summaries -/

namespace Summary

variable {s : Summary} {es : List Entry} {e : Entry} {ds : List Int}

def durations (es : List Entry) (name : String) : List Int :=
  (es.filter (·.kind.name = name)).map (·.duration)

/-- What a summary keeps of the durations it was given. Zero also stands for none, so the least of them
is only kept if none is zero, and the greatest is never negative. -/
structure Sums (s : Summary) (ds : List Int) : Prop where
  count : s.count = ds.length
  sum : s.sum = wrap64 ds.sum
  greatest : s.greatest ∈ 0 :: ds ∧ ∀ d ∈ 0 :: ds, d ≤ s.greatest
  least : s.least ∈ (if ds = [] then [0] else ds) ∧ (0 ∉ ds → ∀ d ∈ ds, s.least ≤ d)

theorem Sums.add (h : Sums s ds) (d : Int) : Sums (s.add d) (ds ++ [d]) := by
  obtain ⟨hc, hs, hg, hl⟩ := h
  refine ⟨?_, ?_, ?_, ?_⟩ <;> unfold Summary.add
  · simp [hc]
  · simp [hs, wrap64_add]
  · grind
  · -- a least duration of zero among others that are not zero is that of no duration
    grind

@[simp] theorem kind_add (d : Int) : (s.add d).kind = s.kind := rfl

theorem names_insert (ss : List Summary) : (insert e ss).map (·.kind.name) =
    if e.kind.name ∈ ss.map (·.kind.name) then ss.map (·.kind.name)
    else ss.map (·.kind.name) ++ [e.kind.name] := by
  induction ss with
  | nil => rfl
  | cons s ss ih =>
    unfold insert
    split <;> grind [kind_add]

theorem durations_concat (m : String) : durations (es ++ [e]) m =
    durations es m ++ if e.kind.name = m then [e.duration] else [] := by
  unfold durations
  grind

theorem sums_insert (ss : List Summary) (hn : (ss.map (·.kind.name)).Nodup)
    (hs : ∀ s ∈ ss, Sums s (durations es s.kind.name))
    (he : e.kind.name ∉ ss.map (·.kind.name) → durations es e.kind.name = []) :
    ∀ s ∈ insert e ss, Sums s (durations (es ++ [e]) s.kind.name) := by
  simp only [durations_concat]
  induction ss with
  | nil =>
    have h0 : Sums { kind := e.kind } [] := ⟨rfl, rfl, by simp, by simp⟩
    simpa [insert, he] using h0.add e.duration
  | cons s ss ih =>
    unfold insert
    split
    · grind [Sums.add, kind_add]
    · grind

theorem sums_ofEntries (es : List Entry) :
    (ofEntries es).map (·.kind.name) = (es.map (·.kind.name)).eraseDups ∧
      ((ofEntries es).map (·.kind.name)).Nodup ∧
      ∀ s ∈ ofEntries es, Sums s (durations es s.kind.name) := by
  induction es using reverseRecOn with
  | nil => exact ⟨rfl, .nil, by simp [ofEntries]⟩
  | append_singleton es e ih =>
    obtain ⟨hn, hd, hs⟩ := ih
    have hi : ofEntries (es ++ [e]) = insert e (ofEntries es) := by simp [ofEntries]
    rw [hi, names_insert]
    refine ⟨?_, by grind, sums_insert _ hd hs fun hno => ?_⟩
    · rw [hn, map_append, eraseDups_append]
      split <;> simp_all [removeAll, eraseDups_cons]
    · simp_all [durations]

/-- **What summaries say.** A recording that can be read has one summary for each name, in the order in
which the names first appear, with what a summary keeps of the durations under that name. -/
theorem summarize_tells (bs : List UInt8) :
    ∃ es, (∃ e, read bs = (es, .error e) ∧ summarize bs = .error e) ∨
      ∃ ss, read bs = (es, .ok ()) ∧ summarize bs = .ok ss ∧
        ss.map (·.kind.name) = (es.map (·.kind.name)).eraseDups ∧
        ∀ s ∈ ss, Sums s (durations es s.kind.name) := by
  unfold summarize
  rcases read bs with ⟨es, e | _⟩
  · exact ⟨es, .inl ⟨e, rfl, rfl⟩⟩
  · obtain ⟨hn, -, hs⟩ := sums_ofEntries es
    exact ⟨es, .inr ⟨_, rfl, rfl, hn, hs⟩⟩

/-- A duration of zero is forgotten, and the greatest of negative ones is not told. -/
theorem ofEntries_forgets :
    (ofEntries [⟨⟨"run", .native⟩, 0⟩, ⟨⟨"run", .native⟩, 5⟩, ⟨⟨"wait", ⟨0⟩⟩, -5⟩]).map
      (fun s => (s.least, s.greatest)) = [(5, 5), (-5, 0)] := by decide

end Summary

end TraceCompiler.Profile
