import LazyFS.MetaDatabase

/-!
# The binary format round-trips

An entry that is well formed is written as one record, and that record is read
back with its lengths in place, whatever bytes the payloads hold and whatever
follows. A file of such records loads to the dictionary it was written from, in
whatever order the items were enumerated.
-/

namespace LazyFS.DatabaseRoundTrip

open PathNames PythonText ByteRecords MetaDatabase

/-- A well-formed database entry. -/
structure Entry where
  pattern : Bytes
  size : ℕ
  chunk : ℕ
  mbinmap : Bytes
  mhash : Bytes
  /-- A pattern is eight characters long. -/
  pattern_length : pattern.length = 8
  /-- It does not contain the separator of the key. -/
  pattern_flat : underscore ∉ pattern
  /-- The size is positive. -/
  size_pos : 0 < size
  /-- It fits eight bytes. -/
  size_lt : size < 2 ^ 64
  /-- The chunk size is positive. -/
  chunk_pos : 0 < chunk
  /-- It fits four bytes. -/
  chunk_lt : chunk < 2 ^ 32
  /-- The payloads are not empty. -/
  mbinmap_ne : mbinmap ≠ []
  mhash_ne : mhash ≠ []
  /-- Their lengths are those of strings. -/
  mbinmap_lt : mbinmap.length < 2 ^ 63
  mhash_lt : mhash.length < 2 ^ 63

/-- The key of an entry. -/
def Entry.key (e : Entry) : Bytes := formatKey e.pattern (decimal e.size) (decimal e.chunk)

/-- The dictionary item of an entry. -/
def Entry.item (e : Entry) : Item := ⟨e.key, some e.mbinmap, some e.mhash⟩

/-- The bytes that an entry is written as. -/
def Entry.bytes (e : Entry) : Bytes :=
  e.pattern ++ packLE 8 e.size ++ packLE 4 e.chunk ++ packLE 8 e.mbinmap.length ++
    packLE 8 e.mhash.length ++ e.mbinmap ++ e.mhash

/-- The record that those bytes are read as. -/
def Entry.record (e : Entry) : Record :=
  ⟨e.pattern, e.size, e.chunk, e.mbinmap.length, e.mhash.length, e.mbinmap, e.mhash⟩

/-- A number in range is packed. -/
theorem pack_ok {k n : ℕ} (h : n < 256 ^ k) : pack k (n : ℤ) = .ok (packLE k n) := by
  have hint : (0 : ℤ) ≤ n ∧ (n : ℤ) < 256 ^ k := ⟨Int.natCast_nonneg n, by exact_mod_cast h⟩
  simp only [pack, if_pos hint, Int.toNat_natCast]

/-- A parsed number in range is packed. -/
theorem pyInt_pack {k n : ℕ} (h : n < 256 ^ k) :
    pyInt (decimal n) >>= pack k = .ok (packLE k n) := by
  rw [pyInt_decimal]
  exact pack_ok h

/-- The length of a string in range is packed. -/
theorem pyLen_pack {k : ℕ} {s : Bytes} (h : s.length < 256 ^ k) :
    pyLen (some s) >>= pack k = .ok (packLE k s.length) :=
  pack_ok h

/-- Eight bytes hold what is below `2 ^ 64`, and four what is below `2 ^ 32`. -/
theorem pow_bytes : (256 : ℕ) ^ 8 = 2 ^ 64 ∧ (256 : ℕ) ^ 4 = 2 ^ 32 ∧ (2 : ℕ) ^ 63 < 256 ^ 8 := by
  norm_num

/-- A packed number in front is unpacked. -/
theorem unpack_packLE {k n : ℕ} (h : n < 256 ^ k) (rest : Bytes) :
    unpack k ((packLE k n ++ rest).take k) = .ok n ∧ (packLE k n ++ rest).drop k = rest := by
  have hlen := packLE_length k n
  have htake : (packLE k n ++ rest).take k = packLE k n := List.take_left' hlen
  refine ⟨?_, List.drop_left' hlen⟩
  rw [htake, unpack, if_pos hlen, unpackLE_packLE h]

/-- What is packed of an entry fits its field. -/
theorem Entry.size_fits (e : Entry) : e.size < 256 ^ 8 := e.size_lt.trans_eq pow_bytes.1.symm

/-- The size of a chunk fits in four bytes. -/
theorem Entry.chunk_fits (e : Entry) : e.chunk < 256 ^ 4 := e.chunk_lt.trans_eq pow_bytes.2.1.symm

/-- The length of the binmap fits in eight bytes. -/
theorem Entry.mbinmap_fits (e : Entry) : e.mbinmap.length < 256 ^ 8 :=
  e.mbinmap_lt.trans pow_bytes.2.2

/-- The length of the hashes fits in eight bytes. -/
theorem Entry.mhash_fits (e : Entry) : e.mhash.length < 256 ^ 8 := e.mhash_lt.trans pow_bytes.2.2

/-- An entry is written as its bytes. -/
theorem persistItem_entry (e : Entry) (rest : Written) :
    persistItem e.item rest = emit e.bytes rest := by
  have hsplit : e.item.1.splitOn underscore = [e.pattern, decimal e.size, decimal e.chunk] :=
    splitOn_formatKey e.pattern_flat (underscore_notMem_decimal _) (underscore_notMem_decimal _)
  have hsize := pyInt_pack e.size_fits
  have hchunk := pyInt_pack e.chunk_fits
  have hmbinmap := pyLen_pack e.mbinmap_fits
  have hmhash := pyLen_pack e.mhash_fits
  rw [persistItem, hsplit]
  dsimp only [Entry.item]
  rw [hsize, hchunk, hmbinmap, hmhash]
  dsimp only [emitResult, pyString, emit]
  simp only [Entry.bytes, List.append_assoc]

/-- Entries are written one after the other. -/
theorem persist_entries (es : List Entry) (items : List Item) :
    persist (es.map Entry.item ++ items) = emit (es.flatMap Entry.bytes) (persist items) := by
  induction es with
  | nil => rfl
  | cons e es ih =>
    have hcons : persist ((e :: es).map Entry.item ++ items) =
        persistItem e.item (persist (es.map Entry.item ++ items)) := rfl
    rw [hcons, persistItem_entry, ih, List.flatMap_cons]
    simp only [emit, List.append_assoc]

/-- The 36 bytes in front of the payloads of a record. -/
def header (pattern : Bytes) (size chunk mbinmapSize mhashSize : ℕ) : Bytes :=
  pattern ++ (packLE 8 size ++ (packLE 4 chunk ++ (packLE 8 mbinmapSize ++ packLE 8 mhashSize)))

/-- Behind a pattern of eight bytes the header has its size. -/
theorem header_length {pattern : Bytes} (h : pattern.length = 8) (size chunk n m : ℕ) :
    (header pattern size chunk n m).length = 36 := by
  simp only [header, List.length_append, h, packLE_length]

/-- A whole header is read, and then the payloads are. -/
theorem nextRecord_header_eq (limit : ℕ) {pattern : Bytes} {size chunk n m : ℕ}
    (hpattern : pattern.length = 8) (hsize : size < 256 ^ 8) (hchunk : chunk < 256 ^ 4)
    (hn : n < 256 ^ 8) (hm : m < 256 ^ 8) (payload : Bytes) :
    nextRecordWithin limit (header pattern size chunk n m ++ payload) =
      (do
        let (mbinmap, s) ← pyRead limit n payload
        let (mhash, s) ← pyRead limit m s
        return (⟨pattern, size, chunk, n, m, mbinmap, mhash⟩, s)) := by
  have hbytes : header pattern size chunk n m ++ payload = pattern ++ (packLE 8 size ++
      (packLE 4 chunk ++ (packLE 8 n ++ (packLE 8 m ++ payload)))) := by
    simp only [header, List.append_assoc]
  have htake : ∀ s, (pattern ++ s).take 8 = pattern := fun s => List.take_left' hpattern
  have hdrop : ∀ s, (pattern ++ s).drop 8 = s := fun s => List.drop_left' hpattern
  have hsize' := unpack_packLE hsize
  have hchunk' := unpack_packLE hchunk
  have hn' := unpack_packLE hn
  have hm' := unpack_packLE hm
  rw [hbytes]
  simp only [nextRecordWithin, htake, hdrop, (hsize' _).1, (hsize' _).2, (hchunk' _).1,
    (hchunk' _).2, (hn' _).1, (hn' _).2, (hm' _).1, (hm' _).2, bind, Except.bind]

/-- As much of the payloads is read as is there, if their lengths can be read. -/
theorem nextRecord_header {limit : ℕ} {pattern : Bytes} {size chunk n m : ℕ}
    (hpattern : pattern.length = 8) (hsize : size < 256 ^ 8) (hchunk : chunk < 256 ^ 4)
    (hn : Readable limit n) (hm : Readable limit m) (payload : Bytes) :
    nextRecordWithin limit (header pattern size chunk n m ++ payload) =
      .ok (⟨pattern, size, chunk, n, m, payload.take n, (payload.drop n).take m⟩,
        (payload.drop n).drop m) := by
  rw [nextRecord_header_eq limit hpattern hsize hchunk (hn.1.trans pow_bytes.2.2)
    (hm.1.trans pow_bytes.2.2)]
  simp only [pyRead, if_pos hn, if_pos hm, bind, Except.bind, pure, Except.pure]

/-- If one of them cannot, an exception is raised. -/
theorem nextRecord_unreadable {limit : ℕ} {pattern : Bytes} {size chunk n m : ℕ}
    (hpattern : pattern.length = 8) (hsize : size < 256 ^ 8) (hchunk : chunk < 256 ^ 4)
    (hn : n < 256 ^ 8) (hm : m < 256 ^ 8) (h : ¬ (Readable limit n ∧ Readable limit m))
    (payload : Bytes) :
    ∃ e, nextRecordWithin limit (header pattern size chunk n m ++ payload) = .error e := by
  rw [nextRecord_header_eq limit hpattern hsize hchunk hn hm]
  by_cases hfirst : Readable limit n
  · have hsecond : ¬ Readable limit m := fun hsecond => h ⟨hfirst, hsecond⟩
    simp only [pyRead, if_pos hfirst, if_neg hsecond, bind, Except.bind]
    exact ⟨_, rfl⟩
  · simp only [pyRead, if_neg hfirst, bind, Except.bind]
    exact ⟨_, rfl⟩

/-- The payloads of an entry can be read. -/
def Entry.Fits (limit : ℕ) (e : Entry) : Prop :=
  Readable limit e.mbinmap.length ∧ Readable limit e.mhash.length

/-- Whether an entry fits is computed. -/
instance (limit : ℕ) (e : Entry) : Decidable (e.Fits limit) :=
  inferInstanceAs (Decidable (_ ∧ _))

/-- With memory for every string they always can. -/
theorem Entry.fits (e : Entry) : e.Fits (2 ^ 63) :=
  ⟨⟨e.mbinmap_lt, e.mbinmap_lt⟩, e.mhash_lt, e.mhash_lt⟩

/-- The bytes of an entry start with its header. -/
theorem Entry.bytes_eq (e : Entry) :
    e.bytes = header e.pattern e.size e.chunk e.mbinmap.length e.mhash.length ++
      (e.mbinmap ++ e.mhash) := by
  simp only [Entry.bytes, header, List.append_assoc]

/-- The bytes of an entry are read as its record, whatever follows. -/
theorem nextRecord_entry {limit : ℕ} {e : Entry} (h : e.Fits limit) (rest : Bytes) :
    e.bytes ++ rest ≠ [] ∧ nextRecordWithin limit (e.bytes ++ rest) = .ok (e.record, rest) := by
  constructor
  · intro hnil
    have hzero := congrArg List.length hnil
    have hheader := header_length e.pattern_length e.size e.chunk e.mbinmap.length e.mhash.length
    simp only [e.bytes_eq, List.length_append, hheader, List.length_nil] at hzero
    omega
  · have hread := nextRecord_header e.pattern_length e.size_fits e.chunk_fits h.1 h.2
      (e.mbinmap ++ (e.mhash ++ rest))
    rw [List.take_left, List.drop_left, List.take_left, List.drop_left] at hread
    rw [e.bytes_eq, List.append_assoc, List.append_assoc, hread]
    rfl

/-- The record of an entry is not taken for a corrupted one. -/
theorem install_record (db : Dict) (e : Entry) :
    install db e.record = db.insert e.item.1 e.item.2 := by
  have hsize := e.size_pos.ne'
  have hchunk := e.chunk_pos.ne'
  have hmbinmap := e.mbinmap_ne
  have hmhash := e.mhash_ne
  have hgood : e.record.corrupted = false := by
    simp [Record.corrupted, Entry.record, hsize, hchunk, hmbinmap, hmhash]
  rw [install, hgood, if_neg Bool.false_ne_true]
  rfl

/-- Records in front of a file are installed before the rest is read. -/
theorem load_entries (es : List Entry) (tail : Bytes) (db : Dict) :
    load (some (es.flatMap Entry.bytes ++ tail)) db =
      load (some tail) ((es.map Entry.item).foldl (fun d item => d.insert item.1 item.2) db) := by
  have hread : readRecords (nextRecordWithin (2 ^ 63)) install (es.flatMap Entry.bytes ++ tail) db =
      readRecords (nextRecordWithin (2 ^ 63)) install tail
        ((es.map Entry.record).foldl install db) :=
    readRecords_written (nextRecord_consumes _) (fun e _ rest => nextRecord_entry e.fits rest) tail
      db
  have hfold : (es.map Entry.record).foldl install db =
      (es.map Entry.item).foldl (fun d item => d.insert item.1 item.2) db := by
    rw [List.foldl_map, List.foldl_map]
    congr 1
    funext d e
    exact install_record d e
  simp only [load, loadWithin, hread, hfold]

/-- Inserting items with different keys binds each of them. -/
theorem lookup_foldl_insert {items : List Item} (hkeys : items.NodupKeys) (db : Dict)
    (key : Bytes) :
    (items.foldl (fun d item => d.insert item.1 item.2) db).lookup key =
      (items.dlookup key).or (db.lookup key) := by
  induction items generalizing db with
  | nil => simp
  | cons item items ih =>
    obtain ⟨hhead, hkeys⟩ := List.nodupKeys_cons.mp hkeys
    rw [List.foldl_cons, ih hkeys]
    by_cases hk : key = item.1
    · subst hk
      have hnone : items.dlookup item.1 = none := List.dlookup_eq_none.mpr hhead
      rw [hnone, AList.lookup_insert, List.dlookup_cons_eq]
      rfl
    · rw [AList.lookup_insert_ne hk, List.dlookup_cons_ne _ _ hk]

/-- Entries with different keys are persisted without an exception, and the
file loads to what the items bind. -/
theorem load_persist_entries {es : List Entry} (hkeys : (es.map Entry.item).NodupKeys) :
    (persist (es.map Entry.item)).2 = none ∧
      (load (some (persist (es.map Entry.item)).1) ∅).2 = none ∧
      ∀ key, (load (some (persist (es.map Entry.item)).1) ∅).1.lookup key =
        (es.map Entry.item).dlookup key := by
  have hwritten := persist_entries es []
  rw [List.append_nil] at hwritten
  have hfile : persist (es.map Entry.item) = (es.flatMap Entry.bytes ++ [], none) := hwritten
  have hload := load_entries es [] ∅
  have hrest : ∀ db, load (some []) db = (db, none) := fun db => readRecords_nil db
  rw [hrest] at hload
  rw [hfile, hload]
  refine ⟨rfl, rfl, fun key => ?_⟩
  have hlookup := lookup_foldl_insert hkeys ∅ key
  rw [hlookup, AList.lookup_empty, Option.or_none]

/-- A dictionary of well-formed entries that is persisted, in whatever order its
items are enumerated, loads back to itself. -/
theorem persisted_database_loads_back {db : Dict} {items : List Item}
    (hdb : ∀ item ∈ db.entries, ∃ e : Entry, e.item = item) (hitems : items.Perm db.entries) :
    (persist items).2 = none ∧ (load (some (persist items).1) ∅).2 = none ∧
      ∀ key, (load (some (persist items).1) ∅).1.lookup key = db.lookup key := by
  obtain ⟨es, rfl⟩ := exists_map_eq (fun item hi => hdb item (hitems.mem_iff.mp hi))
  have hkeys : (es.map Entry.item).NodupKeys := (List.perm_nodupKeys hitems).mpr db.nodupKeys
  obtain ⟨hpersist, hload, hlookup⟩ := load_persist_entries hkeys
  refine ⟨hpersist, hload, fun key => ?_⟩
  rw [hlookup, List.perm_dlookup key hkeys hitems]
  rfl

/-- An entry for one kilobyte of `deadbeef`, whose payload is its own separator. -/
def deadbeefEntry : Entry where
  pattern := ascii "deadbeef"
  size := 1024
  chunk := 8192
  mbinmap := [underscore]
  mhash := [0, 0, 0]
  pattern_length := by decide
  pattern_flat := by decide
  size_pos := by decide
  size_lt := by decide
  chunk_pos := by decide
  chunk_lt := by decide
  mbinmap_ne := by decide
  mhash_ne := by decide
  mbinmap_lt := by decide
  mhash_lt := by decide

/-- Another entry of the same pattern. -/
def largerEntry : Entry := { deadbeefEntry with
  size := 2048
  size_pos := by decide
  size_lt := by decide }

/-- A database of both. -/
def twoEntries : Dict where
  entries := [deadbeefEntry.item, largerEntry.item]
  nodupKeys := by
    have hkeys : [deadbeefEntry.key, largerEntry.key].Nodup := by decide +kernel
    exact hkeys

/-- Two entries that are written in the other order load back. -/
theorem persisted_database_loads_back_swapped :
    (persist [largerEntry.item, deadbeefEntry.item]).2 = none ∧
      (load (some (persist [largerEntry.item, deadbeefEntry.item]).1) ∅).2 = none ∧
      ∀ key, (load (some (persist [largerEntry.item, deadbeefEntry.item]).1) ∅).1.lookup key =
        twoEntries.lookup key := by
  have hdb : ∀ item ∈ twoEntries.entries, ∃ e : Entry, e.item = item := by
    intro item hi
    rcases List.mem_pair.mp hi with rfl | rfl
    · exact ⟨deadbeefEntry, rfl⟩
    · exact ⟨largerEntry, rfl⟩
  exact persisted_database_loads_back hdb (List.Perm.swap _ _ _)

end LazyFS.DatabaseRoundTrip
