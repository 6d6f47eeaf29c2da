import LazyFS.ByteRecords
import LazyFS.PythonText
import Mathlib.Data.List.AList

/-!
# The metadata database

A database file is a sequence of records, one for each content file whose
metadata was computed. Loading reads it into a dictionary, the save loop adds
what is missing, and persisting rewrites the file as a whole, record by record
in the order in which the dictionary enumerates its items. An exception in the
middle leaves what was written so far in the file.
-/

namespace LazyFS.MetaDatabase

open PathNames PythonText ByteRecords
open MachineWords (bind_eq_ok)

/-- What the dictionary holds under a key: two strings, or `None` in their place. -/
structure Value where
  /-- The contents of the `.mbinmap` file. -/
  mbinmap : Option Bytes
  /-- The contents of the `.mhash` file. -/
  mhash : Option Bytes
  deriving DecidableEq

/-- The dictionary `self.db`. -/
abbrev Dict := AList (fun _ : Bytes => Value)

/-- A key and its value. -/
abbrev Item := Sigma (fun _ : Bytes => Value)

/-- What was written to a file, and the exception that ended it, if one did. -/
abbrev Written := Bytes × Option PyError

/-- Write some bytes and go on. -/
def emit (b : Bytes) (rest : Written) : Written := (b ++ rest.1, rest.2)

/-- Stop with an exception. -/
def raise (e : PyError) : Written := ([], some e)

/-- Write bytes that have to be computed first. -/
def emitResult (b : Except PyError Bytes) (rest : Written) : Written :=
  match b with
  | .ok b => emit b rest
  | .error e => raise e

/-- `pack("<Q", n)` for `k = 8` and `pack("<I", n)` for `k = 4`. -/
def pack (k : ℕ) (n : ℤ) : Except PyError Bytes :=
  if 0 ≤ n ∧ n < 256 ^ k then .ok (packLE k n.toNat) else .error .structError

/-- `len(s)`. -/
def pyLen : Option Bytes → Except PyError ℤ
  | some s => .ok s.length
  | none => .error .typeError

/-- A string that is to be written. -/
def pyString : Option Bytes → Except PyError Bytes
  | some s => .ok s
  | none => .error .typeError

/-- One iteration of the loop of `BinaryMetaDB.persist`. -/
def persistItem (item : Item) (rest : Written) : Written :=
  match item.1.splitOn underscore with
  | [pattern, size, chunk] =>
    emit pattern <|
    emitResult (pyInt size >>= pack 8) <|
    emitResult (pyInt chunk >>= pack 4) <|
    emitResult (pyLen item.2.mbinmap >>= pack 8) <|
    emitResult (pyLen item.2.mhash >>= pack 8) <|
    emitResult (pyString item.2.mbinmap) <|
    emitResult (pyString item.2.mhash) rest
  | _ => raise .valueError

/-- `BinaryMetaDB.persist` of the items in the order they are enumerated in:
the file afterwards, and the exception if one was raised. -/
def persist (items : List Item) : Written := items.foldr persistItem ([], none)

/-- A record of a database file. -/
structure Record where
  pattern : Bytes
  size : ℕ
  chunk : ℕ
  mbinmapSize : ℕ
  mhashSize : ℕ
  mbinmap : Bytes
  mhash : Bytes
  deriving DecidableEq

/-- `unpack("<Q", s)` for `k = 8` and `unpack("<I", s)` for `k = 4`. -/
def unpack (k : ℕ) (s : Bytes) : Except PyError ℕ :=
  if s.length = k then .ok (unpackLE s) else .error .structError

/-- A string of `n` bytes can be allocated: its length is a `Py_ssize_t`, and there is
memory for strings of less than `limit` bytes. -/
def Readable (limit n : ℕ) : Prop := n < 2 ^ 63 ∧ n < limit

/-- Whether a length can be read is computed. -/
instance (limit n : ℕ) : Decidable (Readable limit n) := inferInstanceAs (Decidable (_ ∧ _))

/-- The length of the longest string, which has 37 bytes beside its characters. No
machine has memory for a longer one. -/
def stringMax : ℕ := 2 ^ 63 - 1 - 37

/-- `f.read(n)`: the bytes read and those left. A string of `n` bytes is allocated first,
however many bytes are left. -/
def pyRead (limit n : ℕ) (s : Bytes) : Except PyError (Bytes × Bytes) :=
  if Readable limit n then .ok (s.take n, s.drop n)
  else .error (if n ≤ stringMax then .memoryError else .overflowError)

/-- The body of the loop of `BinaryMetaDB.load`, up to the check of the record. -/
def nextRecordWithin (limit : ℕ) (s : Bytes) : Except PyError (Record × Bytes) := do
  let (pattern, s) := (s.take 8, s.drop 8)
  let size ← unpack 8 (s.take 8)
  let s := s.drop 8
  let chunk ← unpack 4 (s.take 4)
  let s := s.drop 4
  let mbinmapSize ← unpack 8 (s.take 8)
  let s := s.drop 8
  let mhashSize ← unpack 8 (s.take 8)
  let s := s.drop 8
  let (mbinmap, s) ← pyRead limit mbinmapSize s
  let (mhash, s) ← pyRead limit mhashSize s
  return (⟨pattern, size, chunk, mbinmapSize, mhashSize, mbinmap, mhash⟩, s)

/-- The same, with memory for every string. -/
abbrev nextRecord (s : Bytes) : Except PyError (Record × Bytes) := nextRecordWithin (2 ^ 63) s

/-- `not all(e)`: some field is zero or empty. -/
def Record.corrupted (r : Record) : Bool :=
  decide (r.size = 0) || decide (r.chunk = 0) || decide (r.mbinmapSize = 0) ||
    decide (r.mhashSize = 0) || decide (r.mbinmap = []) || decide (r.mhash = [])

/-- The rest of the loop body: an entry that is not corrupted goes into the dictionary. -/
def install (db : Dict) (r : Record) : Dict :=
  if r.corrupted then db
  else db.insert (formatKey r.pattern (decimal r.size) (decimal r.chunk))
    ⟨some r.mbinmap, some r.mhash⟩

/-- `BinaryMetaDB.load`: the dictionary afterwards, and the exception that
escaped if one did. A file that cannot be opened loads nothing. -/
def loadWithin (limit : ℕ) (file : Option Bytes) (db : Dict) : Dict × Option PyError :=
  match file with
  | none => (db, none)
  | some s => readRecords (nextRecordWithin limit) install s db

/-- The same, with memory for every string. -/
abbrev load (file : Option Bytes) (db : Dict) : Dict × Option PyError := loadWithin (2 ^ 63) file db

/-- `SIZE_MULTIPLIERS`. -/
def sizeMultiplier (suffix : Bytes) : Option ℤ :=
  if suffix = ascii "kb" then some 1024
  else if suffix = ascii "mb" then some (1024 * 1024)
  else if suffix = ascii "gb" then some (1024 * 1024 * 1024)
  else if suffix = ascii "tb" then some (1024 * 1024 * 1024 * 1024)
  else none

/-- `lower` of a character. -/
def lower (c : UInt8) : UInt8 := if 65 ≤ c ∧ c ≤ 90 then c + 32 else c

/-- `parse_size`. -/
def parseSize (size : Bytes) : Except PyError ℤ := do
  let n ← pyInt (size.take (size.length - 2))
  match sizeMultiplier ((size.drop (size.length - 2)).map lower) with
  | some m => return n * m
  | none => throw .keyError

/-- A content file and the metadata files beside it, as far as they are there. -/
structure ContentFile where
  /-- The file name. -/
  name : Bytes
  /-- The contents of the `.mbinmap` file. -/
  mbinmap : Option Bytes
  /-- The contents of the `.mhash` file. -/
  mhash : Option Bytes

/-- `BinaryMetaDB._encode`, whose body is `pass`. -/
def encode (_s : Bytes) : Option Bytes := none

/-- The key of a content file, with the size in bytes. -/
def contentKey (name : Bytes) : Except PyError Bytes :=
  match name.splitOn underscore with
  | [pattern, size, chunk] => do
    let n ← parseSize size
    return formatKey pattern (pyStr n) chunk
  | _ => .error .valueError

section SaveLoop

variable (callSwift : Bytes → ContentFile → ContentFile)

/-- `MetaDB.add` in a `BinaryMetaDB`: libswift is called with the chunk size if
a metadata file is missing, and what the files hold is encoded. -/
def add (key : Bytes) (f : ContentFile) (db : Dict) : Except PyError Dict :=
  let f :=
    if f.mbinmap.isNone || f.mhash.isNone then
      callSwift ((key.splitOn underscore).getLastD []) f
    else f
  match f.mbinmap, f.mhash with
  | some mbinmap, some mhash => .ok (db.insert key ⟨encode mbinmap, encode mhash⟩)
  | _, _ => .error .ioError

/-- One iteration of the save loop, which survives every exception. -/
def saveFile (db : Dict) (f : ContentFile) : Dict :=
  match contentKey f.name with
  | .error _ => db
  | .ok key =>
    if key ∈ db then db
    else
      match add callSwift key f db with
      | .error _ => db
      | .ok db => db

/-- The save loop. -/
def saveLoop (db : Dict) (files : List ContentFile) : Dict := files.foldl (saveFile callSwift) db

/-- A save run on an existing database file: load, add, persist. The result is
the file afterwards, and the exception that ended the run if one did. -/
def saveRun (items : Dict → List Item) (file : Bytes) (files : List ContentFile) : Written :=
  match load (some file) ∅ with
  | (_, some e) => (file, some e)
  | (db, none) => persist (items (saveLoop callSwift db files))

variable {items : Dict → List Item} {file : Bytes}

/-- A file that loads is written again, with what the loop adds. -/
theorem saveRun_of_loads {db : Dict} (h : load (some file) ∅ = (db, none))
    (files : List ContentFile) :
    saveRun callSwift items file files = persist (items (saveLoop callSwift db files)) := by
  simp only [saveRun, h]

/-- A file that does not load is left as it is. -/
theorem saveRun_of_error {db : Dict} {e : PyError} (h : load (some file) ∅ = (db, some e))
    (files : List ContentFile) : saveRun callSwift items file files = (file, some e) := by
  simp only [saveRun, h]

end SaveLoop

/-- A size that is accepted contains no underscore. -/
theorem underscore_notMem_of_parseSize {size : Bytes} {n : ℤ} (h : parseSize size = .ok n) :
    underscore ∉ size := by
  intro hmem
  obtain ⟨m, hm, hsuffix⟩ := bind_eq_ok.mp h
  rw [← List.take_append_drop (size.length - 2) size, List.mem_append] at hmem
  have hdrop := hmem.resolve_left (underscore_notMem_of_pyInt hm)
  have hlower : underscore ∈ (size.drop (size.length - 2)).map lower :=
    List.mem_map.mpr ⟨underscore, hdrop, by decide⟩
  have hnone : sizeMultiplier ((size.drop (size.length - 2)).map lower) = none := by
    unfold sizeMultiplier
    split_ifs with hkb hmb hgb htb
    · rw [hkb] at hlower
      exact absurd hlower (by decide)
    · rw [hmb] at hlower
      exact absurd hlower (by decide)
    · rw [hgb] at hlower
      exact absurd hlower (by decide)
    · rw [htb] at hlower
      exact absurd hlower (by decide)
    · rfl
  rw [hnone] at hsuffix
  exact absurd hsuffix (by simp [throw, throwThe, MonadExceptOf.throw])

/-- Writing some bytes first does not change what goes on after the rest. -/
theorem emit_andThen (b : Bytes) (out rest : Written) :
    emit b (andThen out rest) = andThen (emit b out) rest := by
  obtain ⟨written, _ | e⟩ := out
  · simp only [emit, andThen, List.append_assoc]
  · rfl

/-- What is emitted comes before everything behind it. -/
theorem emitResult_andThen (b : Except PyError Bytes) (out rest : Written) :
    emitResult b (andThen out rest) = andThen (emitResult b out) rest := by
  cases b with
  | error e => rfl
  | ok b => exact emit_andThen b out rest

/-- The iteration for an item comes before the others. -/
theorem persistItem_andThen (item : Item) (out rest : Written) :
    persistItem item (andThen out rest) = andThen (persistItem item out) rest := by
  unfold persistItem
  split
  · simp only [emitResult_andThen, emit_andThen]
  · rfl

/-- Items are persisted one after the other. -/
theorem persist_eq (items : List Item) :
    persist items = writeRecords (fun item => persist [item]) items :=
  foldr_eq_writeRecords persistItem_andThen items

/-- A failure after some bytes comes from what follows them. -/
theorem emit_failed {b : Bytes} {rest : Written} {out : Bytes} {e : PyError}
    (h : emit b rest = (out, some e)) : ∃ more, rest = (more, some e) ∧ out = b ++ more := by
  have herror : rest.2 = some e := congrArg Prod.snd h
  have hout : b ++ rest.1 = out := congrArg Prod.fst h
  exact ⟨rest.1, Prod.ext rfl herror, hout.symm⟩

/-- Bytes that have to be computed are not there, or the failure comes later. -/
theorem emitResult_failed {b : Except PyError Bytes} {rest : Written} {out : Bytes} {e : PyError}
    (h : emitResult b rest = (out, some e)) :
    out = [] ∨ ∃ c more, b = .ok c ∧ rest = (more, some e) ∧ out = c ++ more := by
  cases b with
  | error d =>
    cases h
    exact Or.inl rfl
  | ok c =>
    obtain ⟨more, hrest, hout⟩ := emit_failed h
    exact Or.inr ⟨c, more, rfl, hrest, hout⟩

/-- Packing gives the requested length. -/
theorem pack_length {k : ℕ} {n : ℤ} {b : Bytes} (h : pack k n = .ok b) : b.length = k := by
  unfold pack at h
  split_ifs at h
  cases h
  exact packLE_length k _

/-- A packed number has the bytes of its format. -/
theorem packed_length {x : Except PyError ℤ} {k : ℕ} {b : Bytes} (h : x >>= pack k = .ok b) :
    b.length = k := by
  obtain ⟨n, -, hn⟩ := bind_eq_ok.mp h
  exact pack_length hn

/-- A payload whose length is packed is a string. -/
theorem pyString_of_packed {s : Option Bytes} {k : ℕ} {b : Bytes}
    (h : pyLen s >>= pack k = .ok b) : ∃ c, pyString s = .ok c := by
  cases s with
  | none => cases h
  | some c => exact ⟨c, rfl⟩

/-- An item that cannot be written is left off inside its header. -/
theorem persistItem_failed {item : Item} {part : Bytes} {e : PyError}
    (h : persistItem item ([], none) = (part, some e)) :
    part = [] ∨ ∃ pattern size chunk fields, item.1.splitOn underscore = [pattern, size, chunk] ∧
      part = pattern ++ fields ∧ fields.length ≤ 20 := by
  unfold persistItem at h
  split at h
  case h_2 =>
    cases h
    exact Or.inl rfl
  case h_1 pattern size chunk hsplit =>
    obtain ⟨fields, hfields, rfl⟩ := emit_failed h
    refine Or.inr ⟨pattern, size, chunk, fields, hsplit, rfl, ?_⟩
    rcases emitResult_failed hfields with rfl | ⟨sizeBytes, fields, hsize, hrest, rfl⟩
    · exact Nat.zero_le 20
    rcases emitResult_failed hrest with rfl | ⟨chunkBytes, fields, hchunk, hlengths, rfl⟩
    · simp [packed_length hsize]
    rcases emitResult_failed hlengths with rfl | ⟨mbinmapBytes, fields, hmbinmap, hlength, rfl⟩
    · simp [packed_length hsize, packed_length hchunk]
    rcases emitResult_failed hlength with rfl | ⟨mhashBytes, fields, hmhash, hpayloads, rfl⟩
    · simp [packed_length hsize, packed_length hchunk, packed_length hmbinmap]
    -- Both payloads are strings by now, and writing them does not fail.
    obtain ⟨mbinmap, hmbinmap⟩ := pyString_of_packed hmbinmap
    obtain ⟨mhash, hmhash⟩ := pyString_of_packed hmhash
    rw [hmbinmap, hmhash] at hpayloads
    cases hpayloads

/-- Reading leaves no more than there was. -/
theorem pyRead_length {limit n : ℕ} {s : Bytes} {out : Bytes × Bytes}
    (h : pyRead limit n s = .ok out) :
    out.2.length ≤ s.length := by
  unfold pyRead at h
  split_ifs at h
  cases h
  rw [List.length_drop]
  omega

/-- A record takes at least its pattern from the file. -/
theorem nextRecord_consumes (limit : ℕ) : Consumes (nextRecordWithin limit) := by
  intro s r rest hs h
  simp only [nextRecordWithin, bind_eq_ok] at h
  obtain ⟨size, -, chunk, -, n, -, m, -, out, hout, out', hout', h⟩ := h
  cases h
  have hmbinmap := pyRead_length hout
  have hmhash := pyRead_length hout'
  have hpos := List.length_pos_iff.mpr hs
  simp only [List.length_drop] at hmbinmap
  omega

/-- A file that ends inside the header of a record cannot be read. -/
theorem nextRecord_short (limit : ℕ) {s : Bytes} (h : s.length < 36) :
    ∃ e, nextRecordWithin limit s = .error e := by
  cases hs : nextRecordWithin limit s with
  | error e => exact ⟨e, rfl⟩
  | ok out =>
    simp only [nextRecordWithin, bind_eq_ok] at hs
    obtain ⟨-, -, -, -, -, -, n, hn, -⟩ := hs
    unfold unpack at hn
    split_ifs at hn with hlen
    simp only [List.length_take, List.length_drop] at hlen
    omega

/-- A beginning of a header raises, and binds nothing. -/
theorem load_torn (limit : ℕ) {s : Bytes} (hne : s ≠ []) (h : s.length < 36) (db : Dict) :
    ∃ e, loadWithin limit (some s) db = (db, some e) := by
  obtain ⟨e, he⟩ := nextRecord_short limit h
  exact ⟨e, readRecords_error db hne he⟩

end LazyFS.MetaDatabase
