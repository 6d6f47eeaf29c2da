import LazyFS.DatabaseRoundTrip

/-!
# Loading a damaged database

Nothing is checked while a record is read: a file that ends inside a header
raises, and so does a declared length for which there is no memory. A file that ends
inside a payload gives shorter strings, which are
taken for the payload unless one of them is empty. The parse therefore keeps to
whole records on exactly the files that consist of whole records, with at most
one more behind them whose header is whole and whose payload ends before the
second string, or which would be dropped as corrupted anyhow.
-/

namespace LazyFS.DamagedFiles

open PathNames PythonText ByteRecords MetaDatabase DatabaseRoundTrip
open MachineWords (bind_eq_ok)

/-- The fields of a header, each in its range, with lengths that can be read. -/
structure Header (limit : ℕ) where
  pattern : Bytes
  size : ℕ
  chunk : ℕ
  mbinmapSize : ℕ
  mhashSize : ℕ
  /-- A pattern takes eight bytes. -/
  pattern_length : pattern.length = 8
  size_lt : size < 2 ^ 64
  chunk_lt : chunk < 2 ^ 32
  mbinmap_readable : Readable limit mbinmapSize
  mhash_readable : Readable limit mhashSize

variable {limit : ℕ}

/-- The bytes of a header. -/
def Header.bytes (h : Header limit) : Bytes :=
  header h.pattern h.size h.chunk h.mbinmapSize h.mhashSize

/-- The record that is read when a payload follows a header. -/
def Header.record (h : Header limit) (payload : Bytes) : Record :=
  ⟨h.pattern, h.size, h.chunk, h.mbinmapSize, h.mhashSize, payload.take h.mbinmapSize,
    (payload.drop h.mbinmapSize).take h.mhashSize⟩

/-- A record with both payloads in the lengths that its header declares. -/
structure WholeRecord (limit : ℕ) where
  header : Header limit
  mbinmap : Bytes
  mhash : Bytes
  mbinmap_length : mbinmap.length = header.mbinmapSize
  mhash_length : mhash.length = header.mhashSize

/-- The bytes of a whole record. -/
def WholeRecord.bytes (w : WholeRecord limit) : Bytes := w.header.bytes ++ (w.mbinmap ++ w.mhash)

/-- A record that the file ends in, and that is dropped as corrupted. -/
structure DroppedTail (limit : ℕ) where
  header : Header limit
  payload : Bytes
  /-- The file ends before the payloads do. -/
  short : payload.length < header.mbinmapSize + header.mhashSize
  /-- A number is zero, or no byte of the second payload is there. -/
  flagged : header.size = 0 ∨ header.chunk = 0 ∨ header.mbinmapSize = 0 ∨ header.mhashSize = 0 ∨
    payload.length ≤ header.mbinmapSize

/-- The bytes of such a tail. -/
def DroppedTail.bytes (t : DroppedTail limit) : Bytes := t.header.bytes ++ t.payload

/-- A file of whole records, with at most a tail that is dropped. -/
def Intact (limit : ℕ) (file : Bytes) : Prop :=
  ∃ (ws : List (WholeRecord limit)) (tail : Bytes), file = ws.flatMap WholeRecord.bytes ++ tail ∧
    (tail = [] ∨ ∃ t : DroppedTail limit, tail = t.bytes)

/-- A record is read from a text that starts with a whole record of these fields. -/
def ReadWhole (limit : ℕ) (s : Bytes) (r : Record) : Prop :=
  ∃ (w : WholeRecord limit) (rest : Bytes), s = w.bytes ++ rest ∧
    r = ⟨w.header.pattern, w.header.size, w.header.chunk, w.header.mbinmapSize,
      w.header.mhashSize, w.mbinmap, w.mhash⟩

/-- Loading a file raises nothing, and installs an entry only where the parse
has reached a whole record. -/
def Sound (limit : ℕ) (file : Bytes) : Prop :=
  (loadWithin limit (some file) ∅).2 = none ∧
    ∀ s r rest, Reached (nextRecordWithin limit) file s → s ≠ [] →
      nextRecordWithin limit s = .ok (r, rest) → r.corrupted = false → ReadWhole limit s r

/-- The entries whose records lie wholly inside the first `cut` bytes of the
file that they are written to. -/
def within : List Entry → ℕ → List Entry
  | [], _ => []
  | e :: es, cut =>
    if e.bytes.length ≤ cut then e :: within es (cut - e.bytes.length) else []

/-- The file is cut at the end of a record, or behind the header of one and not
behind the first byte of its second payload. The payloads of all records up to there can
be read. -/
def CutsWell (limit : ℕ) : List Entry → ℕ → Prop
  | [], _ => True
  | e :: es, cut =>
    if e.bytes.length ≤ cut then e.Fits limit ∧ CutsWell limit es (cut - e.bytes.length)
    else cut = 0 ∨ (e.Fits limit ∧ 36 ≤ cut ∧ cut ≤ 36 + e.mbinmap.length)

/-- Whether a cut leaves whole entries is computed, entry by entry. -/
instance decidableCutsWell (limit : ℕ) : ∀ es cut, Decidable (CutsWell limit es cut)
  | [], _ => .isTrue trivial
  | e :: es, cut =>
    have := decidableCutsWell limit es (cut - e.bytes.length)
    inferInstanceAs (Decidable (if e.bytes.length ≤ cut then
        e.Fits limit ∧ CutsWell limit es (cut - e.bytes.length)
      else cut = 0 ∨ (e.Fits limit ∧ 36 ≤ cut ∧ cut ≤ 36 + e.mbinmap.length)))

/-- The first `cut` bytes of a persisted file load to exactly the entries whose
records lie wholly inside them. -/
def YieldsWhole (limit : ℕ) (es : List Entry) (cut : ℕ) : Prop :=
  (loadWithin limit (some ((persist (es.map Entry.item)).1.take cut)) ∅).2 = none ∧
    ∀ key, (loadWithin limit (some ((persist (es.map Entry.item)).1.take cut)) ∅).1.lookup key =
      ((within es cut).map Entry.item).dlookup key

section Headers

variable {s rest : Bytes} {r : Record}

/-- A header takes 36 bytes. -/
theorem Header.bytes_length (h : Header limit) : h.bytes.length = 36 :=
  header_length h.pattern_length _ _ _ _

/-- So there is something in front of the payloads. -/
theorem Header.bytes_ne (h : Header limit) (payload : Bytes) : h.bytes ++ payload ≠ [] := by
  intro hnil
  have hzero := congrArg List.length hnil
  rw [List.length_append, h.bytes_length, List.length_nil] at hzero
  omega

/-- A whole header is read. -/
theorem Header.read (h : Header limit) (payload : Bytes) :
    nextRecordWithin limit (h.bytes ++ payload) =
      .ok (h.record payload, (payload.drop h.mbinmapSize).drop h.mhashSize) :=
  nextRecord_header h.pattern_length (h.size_lt.trans_eq pow_bytes.1.symm)
    (h.chunk_lt.trans_eq pow_bytes.2.1.symm) h.mbinmap_readable h.mhash_readable payload

/-- What is unpacked has the length of its field. -/
theorem unpack_eq_ok {k n : ℕ} (h : unpack k s = .ok n) :
    s.length = k ∧ packLE k n = s ∧ n < 256 ^ k := by
  unfold unpack at h
  split_ifs at h with hlen
  cases h
  subst hlen
  exact ⟨rfl, packLE_unpackLE s, unpackLE_lt s⟩

/-- What is read was readable. -/
theorem pyRead_eq_ok {n : ℕ} {out : Bytes × Bytes} (h : pyRead limit n s = .ok out) :
    Readable limit n ∧ out = (s.take n, s.drop n) := by
  unfold pyRead at h
  split_ifs at h with hn
  cases h
  exact ⟨hn, rfl⟩

/-- A record that is read has a whole header in front of it. -/
theorem exists_header (h : nextRecordWithin limit s = .ok (r, rest)) :
    ∃ (h : Header limit) (payload : Bytes), s = h.bytes ++ payload ∧ r = h.record payload ∧
      rest = (payload.drop h.mbinmapSize).drop h.mhashSize := by
  simp only [nextRecordWithin, bind_eq_ok] at h
  obtain ⟨size, hsize, chunk, hchunk, n, hn, m, hm, out, hout, out', hout', hr⟩ := h
  obtain ⟨hsizeLen, hsizeBytes, hsizeLt⟩ := unpack_eq_ok hsize
  obtain ⟨hchunkLen, hchunkBytes, hchunkLt⟩ := unpack_eq_ok hchunk
  obtain ⟨hnLen, hnBytes, hnLt⟩ := unpack_eq_ok hn
  obtain ⟨hmLen, hmBytes, hmLt⟩ := unpack_eq_ok hm
  obtain ⟨hnSmall, rfl⟩ := pyRead_eq_ok hout
  obtain ⟨hmSmall, rfl⟩ := pyRead_eq_ok hout'
  cases hr
  have hpattern : (s.take 8).length = 8 := by
    simp only [List.length_take, List.length_drop] at hsizeLen ⊢
    omega
  refine ⟨⟨s.take 8, size, chunk, n, m, hpattern, hsizeLt.trans_eq pow_bytes.1,
    hchunkLt.trans_eq pow_bytes.2.1, hnSmall, hmSmall⟩, _, ?_, rfl, rfl⟩
  have hbytes : s = s.take 8 ++ ((s.drop 8).take 8 ++ (((s.drop 8).drop 8).take 4 ++
      ((((s.drop 8).drop 8).drop 4).take 8 ++ (((((s.drop 8).drop 8).drop 4).drop 8).take 8 ++
        ((((s.drop 8).drop 8).drop 4).drop 8).drop 8)))) := by
    simp only [List.take_append_drop]
  simp only [Header.bytes, header, hsizeBytes, hchunkBytes, hnBytes, hmBytes, List.append_assoc]
  exact hbytes

/-- A record is dropped when a number is zero or a payload is empty. -/
theorem record_corrupted_iff (h : Header limit) (payload : Bytes) :
    (h.record payload).corrupted = true ↔
      h.size = 0 ∨ h.chunk = 0 ∨ h.mbinmapSize = 0 ∨ h.mhashSize = 0 ∨
        payload.length ≤ h.mbinmapSize := by
  have hflags : ∀ r : Record, r.corrupted = true ↔ r.size = 0 ∨ r.chunk = 0 ∨
      r.mbinmapSize = 0 ∨ r.mhashSize = 0 ∨ r.mbinmap = [] ∨ r.mhash = [] := by
    intro r
    simp [Record.corrupted, or_assoc]
  rw [hflags]
  simp only [Header.record, List.take_eq_nil_iff, List.drop_eq_nil_iff]
  have hempty : payload = [] → payload.length ≤ h.mbinmapSize := by
    rintro rfl
    exact Nat.zero_le _
  tauto

/-- A record is whole when the payloads are as long as its header declares. -/
theorem readWhole_iff (h : Header limit) (payload : Bytes) :
    ReadWhole limit (h.bytes ++ payload) (h.record payload) ↔
      h.mbinmapSize + h.mhashSize ≤ payload.length := by
  constructor
  · rintro ⟨w, rest, -, hr⟩
    simp only [Header.record, Record.mk.injEq] at hr
    obtain ⟨-, -, -, hn, hm, hmbinmap, hmhash⟩ := hr
    have hfirst := congrArg List.length hmbinmap
    have hsecond := congrArg List.length hmhash
    rw [w.mbinmap_length, ← hn, List.length_take] at hfirst
    rw [w.mhash_length, ← hm, List.length_take, List.length_drop] at hsecond
    omega
  · intro hlen
    have hfirst : (payload.take h.mbinmapSize).length = h.mbinmapSize := by
      rw [List.length_take]
      omega
    have hsecond : ((payload.drop h.mbinmapSize).take h.mhashSize).length = h.mhashSize := by
      rw [List.length_take, List.length_drop]
      omega
    refine ⟨⟨h, _, _, hfirst, hsecond⟩, (payload.drop h.mbinmapSize).drop h.mhashSize, ?_, rfl⟩
    simp only [WholeRecord.bytes, List.append_assoc, List.take_append_drop]

end Headers

section Parsing

variable {s rest : Bytes} {r : Record}

/-- A file is sound if its first record is and what follows it is. -/
theorem sound_iff_of_read (hs : s ≠ []) (hread : nextRecordWithin limit s = .ok (r, rest)) :
    Sound limit s ↔ (r.corrupted = false → ReadWhole limit s r) ∧ Sound limit rest := by
  have hload : ∀ d : Dict,
      loadWithin limit (some s) d = loadWithin limit (some rest) (install d r) :=
    fun d => readRecords_ok (nextRecord_consumes limit) d hs hread
  have herror :
      (loadWithin limit (some s) ∅).2 = (loadWithin limit (some rest) ∅).2 := by
    rw [hload]
    exact readRecords_error_eq rest _ _
  unfold Sound
  rw [herror]
  constructor
  · rintro ⟨hnone, hwhole⟩
    refine ⟨fun hgood => hwhole s r rest .start hs hread hgood, hnone, ?_⟩
    intro t r' rest' ht
    exact hwhole t r' rest' ((reached_iff hs hread).mpr (Or.inr ht))
  · rintro ⟨hfirst, hnone, hwhole⟩
    refine ⟨hnone, ?_⟩
    intro t r' rest' ht hne ht' hgood
    rcases (reached_iff hs hread).mp ht with rfl | ht
    · rw [hread] at ht'
      cases ht'
      exact hfirst hgood
    · exact hwhole t r' rest' ht hne ht' hgood

/-- Nothing is read from an empty file. -/
theorem sound_nil : Sound limit [] := by
  have hnil : ∀ t, Reached (nextRecordWithin limit) [] t → t = [] := by
    intro t ht
    induction ht with
    | start => rfl
    | read _ hne _ ih => exact absurd ih hne
  exact ⟨rfl, fun t _ _ ht hne => absurd (hnil t ht) hne⟩

/-- A whole record in front is read, and what follows is left. -/
theorem WholeRecord.read (w : WholeRecord limit) (rest : Bytes) :
    ∃ r, nextRecordWithin limit (w.bytes ++ rest) = .ok (r, rest) ∧
      ReadWhole limit (w.bytes ++ rest) r := by
  have hread := w.header.read (w.mbinmap ++ (w.mhash ++ rest))
  rw [← w.mbinmap_length, List.drop_left, ← w.mhash_length, List.drop_left] at hread
  have hbytes : w.bytes ++ rest = w.header.bytes ++ (w.mbinmap ++ (w.mhash ++ rest)) := by
    simp only [WholeRecord.bytes, List.append_assoc]
  refine ⟨_, hbytes ▸ hread, ?_⟩
  rw [hbytes, readWhole_iff]
  simp only [List.length_append, w.mbinmap_length, w.mhash_length]
  omega

/-- A file of whole records with a dropped tail is sound. -/
theorem sound_of_intact {file : Bytes} (h : Intact limit file) : Sound limit file := by
  obtain ⟨ws, tail, rfl, htail⟩ := h
  have htailSound : Sound limit tail := by
    rcases htail with rfl | ⟨t, rfl⟩
    · exact sound_nil
    · have hread := t.header.read t.payload
      have hnothing : (t.payload.drop t.header.mbinmapSize).drop t.header.mhashSize = [] := by
        rw [List.drop_drop, List.drop_eq_nil_iff]
        exact t.short.le
      rw [hnothing] at hread
      have hdropped := (record_corrupted_iff t.header t.payload).mpr t.flagged
      refine (sound_iff_of_read (t.header.bytes_ne _) hread).mpr ⟨?_, sound_nil⟩
      intro hgood
      rw [hdropped] at hgood
      cases hgood
  induction ws with
  | nil => exact htailSound
  | cons w ws ih =>
    rw [List.flatMap_cons, List.append_assoc]
    obtain ⟨r, hread, hwhole⟩ := w.read (ws.flatMap WholeRecord.bytes ++ tail)
    have hne : w.bytes ++ (ws.flatMap WholeRecord.bytes ++ tail) ≠ [] := by
      rw [WholeRecord.bytes, List.append_assoc]
      exact w.header.bytes_ne _
    exact (sound_iff_of_read hne hread).mpr ⟨fun _ => hwhole, ih⟩

/-- A sound file consists of whole records, with a dropped tail at most. -/
theorem intact_of_sound {file : Bytes} (h : Sound limit file) : Intact limit file := by
  induction hlen : file.length using Nat.strong_induction_on generalizing file with
  | _ n ih =>
    by_cases hfile : file = []
    · exact ⟨[], [], by rw [hfile]; rfl, Or.inl rfl⟩
    · cases hread : nextRecordWithin limit file with
      | error e =>
        have hload : loadWithin limit (some file) ∅ = (∅, some e) :=
          readRecords_error ∅ hfile hread
        have hnone := h.1
        rw [hload] at hnone
        cases hnone
      | ok out =>
        obtain ⟨r, rest⟩ := out
        obtain ⟨hfirst, hrest⟩ := (sound_iff_of_read hfile hread).mp h
        obtain ⟨head, payload, rfl, rfl, -⟩ := exists_header hread
        by_cases hfull : head.mbinmapSize + head.mhashSize ≤ payload.length
        · obtain ⟨w, rest', hbytes, -⟩ := (readWhole_iff head payload).mpr hfull
          obtain ⟨r', hread', -⟩ := w.read rest'
          rw [← hbytes, hread] at hread'
          cases hread'
          have hshorter := nextRecord_consumes limit _ _ _ hfile hread
          obtain ⟨ws, tail, htail, hcase⟩ := ih rest.length (by omega) hrest rfl
          refine ⟨w :: ws, tail, ?_, hcase⟩
          rw [hbytes, htail, List.flatMap_cons, List.append_assoc]
        · have hdropped : (head.record payload).corrupted = true := by
            by_contra hgood
            have hwhole := hfirst (Bool.eq_false_of_not_eq_true hgood)
            exact hfull ((readWhole_iff head payload).mp hwhole)
          have hflagged := (record_corrupted_iff head payload).mp hdropped
          exact ⟨[], _, rfl, Or.inr ⟨⟨head, payload, by omega, hflagged⟩, rfl⟩⟩

end Parsing

section Prefixes

/-- The header of an entry. -/
def entryHeader (e : Entry) (h : e.Fits limit) : Header limit :=
  ⟨e.pattern, e.size, e.chunk, e.mbinmap.length, e.mhash.length, e.pattern_length, e.size_lt,
    e.chunk_lt, h.1, h.2⟩

/-- A last record with a short payload is dropped or installed as it is. -/
theorem load_short (h : Header limit) {payload : Bytes}
    (hshort : payload.length ≤ h.mbinmapSize + h.mhashSize) (db : Dict) :
    loadWithin limit (some (h.bytes ++ payload)) db = (install db (h.record payload), none) := by
  have hread := h.read payload
  have hrest : (payload.drop h.mbinmapSize).drop h.mhashSize = [] := by
    rw [List.drop_drop, List.drop_eq_nil_iff]
    exact hshort
  rw [hrest] at hread
  have hfirst : readRecords (nextRecordWithin limit) install (h.bytes ++ payload) db =
      readRecords (nextRecordWithin limit) install [] (install db (h.record payload)) :=
    readRecords_ok (nextRecord_consumes limit) db (h.bytes_ne payload) hread
  rw [loadWithin, hfirst]
  rfl

/-- Of an entry, a payload is dropped that ends before the second string. -/
theorem entry_corrupted_iff {e : Entry} (h : e.Fits limit) (payload : Bytes) :
    ((entryHeader e h).record payload).corrupted = true ↔ payload.length ≤ e.mbinmap.length := by
  have hsize : (entryHeader e h).size ≠ 0 := e.size_pos.ne'
  have hchunk : (entryHeader e h).chunk ≠ 0 := e.chunk_pos.ne'
  have hmbinmap : (entryHeader e h).mbinmapSize ≠ 0 := (List.length_pos_iff.mpr e.mbinmap_ne).ne'
  have hmhash : (entryHeader e h).mhashSize ≠ 0 := (List.length_pos_iff.mpr e.mhash_ne).ne'
  rw [record_corrupted_iff]
  simp only [hsize, hchunk, hmbinmap, hmhash, false_or]
  rfl

/-- A cut behind the header of an entry leaves a part of its payloads. -/
theorem take_entry (e : Entry) (k : ℕ) :
    e.bytes.take (36 + k) = header e.pattern e.size e.chunk e.mbinmap.length e.mhash.length ++
      (e.mbinmap ++ e.mhash).take k := by
  have hheader := header_length e.pattern_length e.size e.chunk e.mbinmap.length e.mhash.length
  rw [e.bytes_eq, ← hheader, List.take_length_add_append]

/-- A payload that is cut off is dropped, or bound as it is. -/
theorem load_cut_payload {e : Entry} (h : e.Fits limit) {k : ℕ}
    (hk : k < e.mbinmap.length + e.mhash.length) (db : Dict) :
    (loadWithin limit (some (e.bytes.take (36 + k))) db).2 = none ∧
      (k ≤ e.mbinmap.length → (loadWithin limit (some (e.bytes.take (36 + k))) db).1 = db) ∧
      (e.mbinmap.length < k →
        (loadWithin limit (some (e.bytes.take (36 + k))) db).1.lookup e.key ≠ none) := by
  have hpayload : ((e.mbinmap ++ e.mhash).take k).length = k := by
    rw [List.length_take, List.length_append]
    omega
  have hflag := entry_corrupted_iff h ((e.mbinmap ++ e.mhash).take k)
  rw [hpayload] at hflag
  have hsmall : ((e.mbinmap ++ e.mhash).take k).length ≤
      (entryHeader e h).mbinmapSize + (entryHeader e h).mhashSize := by
    rw [hpayload]
    simp only [entryHeader]
    omega
  have hload := load_short (entryHeader e h) hsmall db
  have hbytes : (entryHeader e h).bytes =
      header e.pattern e.size e.chunk e.mbinmap.length e.mhash.length := rfl
  rw [take_entry, ← hbytes, hload]
  refine ⟨rfl, fun hfirst => ?_, fun hsecond => ?_⟩
  · rw [install, if_pos (hflag.mpr hfirst)]
  · rw [install, if_neg (fun hdropped => absurd (hflag.mp hdropped) (not_le.mpr hsecond))]
    have hbound : ∀ v : Value, (db.insert e.key v).lookup e.key = some v :=
      fun v => AList.lookup_insert db
    intro hnone
    exact Option.some_ne_none _ ((hbound _).symm.trans hnone)

/-- An entry whose payloads cannot be read raises an exception, however much of them
there is. -/
theorem load_unreadable {e : Entry} (h : ¬ e.Fits limit) (payload : Bytes) (db : Dict) :
    ∃ d, loadWithin limit (some (header e.pattern e.size e.chunk e.mbinmap.length
      e.mhash.length ++ payload)) db = (db, some d) := by
  obtain ⟨d, hread⟩ := nextRecord_unreadable e.pattern_length e.size_fits e.chunk_fits
    e.mbinmap_fits e.mhash_fits h payload
  refine ⟨d, readRecords_error db ?_ hread⟩
  rw [← List.length_pos_iff, List.length_append, header_length e.pattern_length]
  omega

/-- A record that is cut off is not read, dropped, or installed with a shorter
payload. -/
theorem load_cut_entry (e : Entry) {c : ℕ} (hc : c < e.bytes.length) {db : Dict}
    (hnew : db.lookup e.key = none) :
    ((loadWithin limit (some (e.bytes.take c)) db).2 = none ∧
        ∀ key, (loadWithin limit (some (e.bytes.take c)) db).1.lookup key = db.lookup key) ↔
      c = 0 ∨ (e.Fits limit ∧ 36 ≤ c ∧ c ≤ 36 + e.mbinmap.length) := by
  have hlen : e.bytes.length = 36 + (e.mbinmap.length + e.mhash.length) := by
    rw [e.bytes_eq, List.length_append, header_length e.pattern_length, List.length_append]
  have htaken : (e.bytes.take c).length = c := by
    rw [List.length_take]
    omega
  rcases Nat.eq_zero_or_pos c with rfl | hpos
  · exact iff_of_true ⟨rfl, fun _ => rfl⟩ (Or.inl rfl)
  rcases Nat.lt_or_ge c 36 with hshort | hlong
  · have hne : e.bytes.take c ≠ [] := by
      rw [← List.length_pos_iff, htaken]
      exact hpos
    obtain ⟨err, hload⟩ := load_torn limit hne (htaken.trans_lt hshort) db
    rw [hload]
    exact iff_of_false (fun h => Option.some_ne_none err h.1) (by omega)
  obtain ⟨k, rfl⟩ : ∃ k, c = 36 + k := ⟨c - 36, by omega⟩
  by_cases hfits : e.Fits limit
  · have hk : k < e.mbinmap.length + e.mhash.length := by omega
    obtain ⟨hend, hdropped, hbound⟩ := load_cut_payload hfits hk db
    by_cases hfirst : k ≤ e.mbinmap.length
    · rw [hend, hdropped hfirst]
      exact iff_of_true ⟨rfl, fun _ => rfl⟩ (Or.inr ⟨hfits, hlong, by omega⟩)
    · refine iff_of_false ?_ (by omega)
      rintro ⟨-, hsame⟩
      exact hbound (not_le.mp hfirst) ((hsame e.key).trans hnew)
  · obtain ⟨d, hload⟩ := load_unreadable hfits ((e.mbinmap ++ e.mhash).take k) db
    rw [take_entry, hload]
    refine iff_of_false (fun h => Option.some_ne_none d h.1) ?_
    rintro (hzero | ⟨hreadable, -⟩)
    · omega
    · exact hfits hreadable

/-- A whole record in front is installed before the rest is read, if it can be read. -/
theorem load_whole_entry {e : Entry} (h : e.Fits limit) (rest : Bytes) (db : Dict) :
    loadWithin limit (some (e.bytes ++ rest)) db =
      loadWithin limit (some rest) (db.insert e.key ⟨some e.mbinmap, some e.mhash⟩) := by
  obtain ⟨hne, hread⟩ := nextRecord_entry h rest
  have hfirst : readRecords (nextRecordWithin limit) install (e.bytes ++ rest) db =
      readRecords (nextRecordWithin limit) install rest (install db e.record) :=
    readRecords_ok (nextRecord_consumes limit) db hne hread
  rw [install_record] at hfirst
  exact hfirst

/-- What lies inside a prefix is among what was written. -/
theorem within_subset (es : List Entry) (cut : ℕ) : within es cut ⊆ es := by
  induction es generalizing cut with
  | nil => exact List.Subset.refl _
  | cons e es ih =>
    rw [within]
    split_ifs
    · exact List.cons_subset_cons e (ih _)
    · exact List.nil_subset _

/-- A prefix of the records yields the whole ones in it exactly when it is cut well. The
induction is on the records, and the dictionary holds those before. -/
theorem load_prefix_iff {es : List Entry} (hkeys : (es.map Entry.item).NodupKeys) (cut : ℕ)
    {db : Dict} (hnew : ∀ e ∈ es, db.lookup e.key = none) :
    ((loadWithin limit (some ((es.flatMap Entry.bytes).take cut)) db).2 = none ∧
        ∀ key, (loadWithin limit (some ((es.flatMap Entry.bytes).take cut)) db).1.lookup key =
          (((within es cut).map Entry.item).dlookup key).or (db.lookup key)) ↔
      CutsWell limit es cut := by
  induction es generalizing cut db with
  | nil =>
    rw [List.flatMap_nil, List.take_nil]
    exact iff_of_true ⟨rfl, fun _ => rfl⟩ trivial
  | cons e es ih =>
    obtain ⟨hhead, hkeys⟩ := List.nodupKeys_cons.mp hkeys
    rw [List.flatMap_cons]
    by_cases hwhole : e.bytes.length ≤ cut
    · rw [List.take_append, List.take_of_length_le hwhole]
      simp only [within, CutsWell, if_pos hwhole]
      by_cases hfits : e.Fits limit
      · have hother : ∀ e' ∈ es, e'.key ≠ e.key := by
          intro e' he' hsame
          exact hhead (List.mem_map.mpr ⟨e'.item, List.mem_map_of_mem he', hsame⟩)
        have hnew' : ∀ e' ∈ es,
            (db.insert e.key ⟨some e.mbinmap, some e.mhash⟩).lookup e'.key = none := by
          intro e' he'
          rw [AList.lookup_insert_ne (hother e' he')]
          exact hnew e' (List.mem_cons_of_mem e he')
        have hbound : ∀ key,
            (((e :: within es (cut - e.bytes.length)).map Entry.item).dlookup key).or
                (db.lookup key) =
              (((within es (cut - e.bytes.length)).map Entry.item).dlookup key).or
                ((db.insert e.key ⟨some e.mbinmap, some e.mhash⟩).lookup key) := by
          intro key
          rw [List.map_cons]
          by_cases hkey : key = e.key
          · have hnone : ((within es (cut - e.bytes.length)).map Entry.item).dlookup e.key =
                none := by
              refine List.dlookup_eq_none.mpr fun hmem => ?_
              obtain ⟨item, hitem, hsame⟩ := List.mem_map.mp hmem
              obtain ⟨e', he', rfl⟩ := List.mem_map.mp hitem
              exact hother e' (within_subset es _ he') hsame
            have hfirst : (e.item :: (within es (cut - e.bytes.length)).map
                Entry.item).dlookup e.key = some e.item.2 := List.dlookup_cons_eq _ _ _
            rw [hkey, hnone, AList.lookup_insert, hfirst]
            rfl
          · rw [AList.lookup_insert_ne hkey, List.dlookup_cons_ne _ _ hkey]
        rw [load_whole_entry hfits, ← ih hkeys (cut - e.bytes.length) hnew']
        simp only [hbound, hfits, true_and]
      · obtain ⟨d, hload⟩ := load_unreadable hfits
          (e.mbinmap ++ e.mhash ++ (es.flatMap Entry.bytes).take (cut - e.bytes.length)) db
        rw [← List.append_assoc, ← e.bytes_eq] at hload
        rw [hload]
        exact iff_of_false (fun h => Option.some_ne_none d h.1) (fun h => hfits h.1)
    · have hnone : ∀ key, ((([] : List Entry).map Entry.item).dlookup key).or (db.lookup key) =
          db.lookup key := fun _ => rfl
      rw [List.take_append_of_le_length (by omega)]
      simp only [within, CutsWell, if_neg hwhole, hnone]
      exact load_cut_entry e (not_le.mp hwhole) (hnew e List.mem_cons_self)

/-- A prefix of a persisted file yields its whole records exactly when it is
cut well. -/
theorem yieldsWhole_iff {es : List Entry} (hkeys : (es.map Entry.item).NodupKeys) (cut : ℕ) :
    YieldsWhole limit es cut ↔ CutsWell limit es cut := by
  have hfile : (persist (es.map Entry.item)).1 = es.flatMap Entry.bytes := by
    have hwritten := persist_entries es []
    rw [List.append_nil] at hwritten
    rw [hwritten]
    exact List.append_nil _
  have hiff := @load_prefix_iff limit es hkeys cut ∅ fun e _ => AList.lookup_empty e.key
  simp only [AList.lookup_empty, Option.or_none] at hiff
  rw [YieldsWhole, hfile]
  exact hiff

end Prefixes

/-- However much memory there is, loading is sound exactly on the intact files, and of
the prefixes of a persisted file, exactly those that are cut well yield the whole records
in them. -/
theorem damaged_loads_iff (limit : ℕ) (file : Bytes) {es : List Entry}
    (hkeys : (es.map Entry.item).NodupKeys) (cut : ℕ) :
    (Sound limit file ↔ Intact limit file) ∧
      (YieldsWhole limit es cut ↔ CutsWell limit es cut) :=
  ⟨⟨intact_of_sound, sound_of_intact⟩, yieldsWhole_iff hkeys cut⟩

/-- A file that ends inside a header raises, and one that lacks the last byte
of its last payload loads to an entry that was never written. -/
theorem cut_file_loads_wrong :
    ¬ Sound (2 ^ 63) (deadbeefEntry.bytes.take 10) ∧
      ¬ YieldsWhole (2 ^ 63) [deadbeefEntry] (deadbeefEntry.bytes.length - 1) := by
  constructor
  · intro hsound
    have hraises : (load (some (deadbeefEntry.bytes.take 10)) ∅).2 = some .structError := by
      decide +kernel
    rw [hsound.1] at hraises
    cases hraises
  · rintro ⟨-, hsame⟩
    have hinstalled : (load (some ((persist ([deadbeefEntry].map Entry.item)).1.take
        (deadbeefEntry.bytes.length - 1))) ∅).1.lookup deadbeefEntry.key =
          some ⟨some [underscore], some [0, 0]⟩ := by
      decide +kernel
    have hnothing : ((within [deadbeefEntry] (deadbeefEntry.bytes.length - 1)).map
        Entry.item).dlookup deadbeefEntry.key = none := by
      decide +kernel
    rw [hsame, hnothing] at hinstalled
    cases hinstalled

/-- With a gigabyte of memory, a file of two entries that is cut between them yields the
first. -/
theorem damaged_loads_iff_first :
    YieldsWhole (2 ^ 30) [deadbeefEntry, largerEntry] deadbeefEntry.bytes.length := by
  have hkeys : ([deadbeefEntry, largerEntry].map Entry.item).NodupKeys := twoEntries.nodupKeys
  exact (damaged_loads_iff (2 ^ 30) [] hkeys _).2.mpr (by decide +kernel)

end LazyFS.DamagedFiles
