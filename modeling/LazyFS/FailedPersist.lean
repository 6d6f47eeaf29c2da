import LazyFS.SavedDatabase
import LazyFS.TextDatabase

/-!
# A persist that fails

Both databases open their file for writing, which empties it, and then write
the items one after the other. An exception at some item therefore leaves the
items in front of it, and the part of its record that was written before the
exception: nothing of a line, and less than a header of a binary record. What
the file held before the call is gone.
-/

namespace LazyFS.FailedPersist

open PathNames PythonText ByteRecords MetaDatabase DatabaseRoundTrip TextDatabase SavedDatabase

/-- The two databases that write a file. -/
inductive Database where
  /-- `MetaDB`. -/
  | text (codec : Codec)
  /-- `BinaryMetaDB`. -/
  | binary

/-- `load`. -/
def Database.load : Database → Option Bytes → Dict → Dict × Option PyError
  | .text codec => loadText codec
  | .binary => MetaDatabase.load

/-- The loop of `persist`. -/
def Database.persist : Database → List Item → Written
  | .text codec => persistText codec
  | .binary => MetaDatabase.persist

/-- What opening a file with mode `"w"` or `"wb"` leaves of its contents. -/
def openForWriting (_old : Bytes) : Bytes := []

/-- `persist` into a file with old contents: the file afterwards, and the exception
if one was raised. -/
def Database.persistOver (d : Database) (old : Bytes) (items : List Item) : Written :=
  emit (openForWriting old) (d.persist items)

/-- If the call raises, the file loads to the entries it held before the call. -/
def Database.KeepsOld (d : Database) (old : Bytes) (items : List Item) : Prop :=
  (d.persistOver old items).2 ≠ none →
    ∀ key, (d.load (some (d.persistOver old items).1) ∅).1.lookup key =
      (d.load (some old) ∅).1.lookup key

/-- A well-formed item of a database. -/
def Database.Storable : Database → Item → Prop
  | .text codec, item => ∃ e : TextEntry codec, e.item = item
  | .binary, item => ∃ e : Entry, e.item = item

/-- The pattern of an item takes the eight bytes of its field, if the database has
such a field. -/
def Database.PatternFits : Database → Item → Prop
  | .text _, _ => True
  | .binary, item => ∀ pattern size chunk,
      item.1.splitOn underscore = [pattern, size, chunk] → pattern.length = 8

/-- What a persist of items leaves that failed with an exception: the items in
front of some item, and the part of that item that was written. -/
def Database.LeavesEarlier (d : Database) (items : List Item) (file : Bytes) (e : PyError) :
    Prop :=
  ∃ before item after part, items = before ++ item :: after ∧
    (d.persist before).2 = none ∧ d.persist [item] = (part, some e) ∧
    file = (d.persist before).1 ++ part ∧ (∀ codec, d = .text codec → part = []) ∧
    ((∀ b ∈ before, d.Storable b) → d.PatternFits item →
      ((d.load (some file) ∅).2 = none ↔ part = []) ∧
        ∀ key, (d.load (some file) ∅).1.lookup key = before.dlookup key)

/-- Nothing of the old contents is left. -/
theorem Database.persistOver_eq (d : Database) (old : Bytes) (items : List Item) :
    d.persistOver old items = d.persist items := rfl

/-- Items are persisted one after the other. -/
theorem Database.persist_eq (d : Database) (items : List Item) :
    d.persist items = writeRecords (fun item => d.persist [item]) items := by
  cases d with
  | text codec => exact persistText_eq items
  | binary => exact MetaDatabase.persist_eq items

/-- Well-formed items in front of a file are loaded before the rest is read. -/
theorem Database.load_persisted (d : Database) {before : List Item}
    (h : ∀ item ∈ before, d.Storable item) (part : Bytes) (db : Dict) :
    d.load (some ((d.persist before).1 ++ part)) db =
      d.load (some part) (before.foldl (fun d item => d.insert item.1 item.2) db) := by
  cases d with
  | text codec =>
    obtain ⟨es, rfl⟩ := exists_map_eq h
    have hfile : (persistText codec (es.map TextEntry.item)).1 = es.flatMap TextEntry.line :=
      congrArg Prod.fst (persistText_entries es)
    have hload := loadText_lines es part db
    rw [← hfile] at hload
    exact hload
  | binary =>
    obtain ⟨es, rfl⟩ := exists_map_eq h
    have hwritten := persist_entries es []
    rw [List.append_nil] at hwritten
    have hfile : (MetaDatabase.persist (es.map Entry.item)).1 = es.flatMap Entry.bytes := by
      rw [hwritten]
      exact List.append_nil _
    have hload := load_entries es part db
    rw [← hfile] at hload
    exact hload

/-- A line that cannot be written is not there at all. -/
theorem text_part {codec : Codec} {item : Item} {part : Bytes} {e : PyError}
    (h : (Database.text codec).persist [item] = (part, some e)) : part = [] := by
  have hline : emitResult (itemLine codec item) ([], none) = (part, some e) := h
  rcases emitResult_failed hline with hpart | ⟨line, more, -, hmore, -⟩
  · exact hpart
  · cases hmore

/-- The part of a record that was written does not load, and binds nothing. -/
theorem Database.load_part {d : Database} {item : Item} {part : Bytes} {e : PyError}
    (h : d.persist [item] = (part, some e)) (hpattern : d.PatternFits item) (db : Dict) :
    (d.load (some part) db).1 = db ∧ ((d.load (some part) db).2 = none ↔ part = []) := by
  cases d with
  | text codec =>
    have hpart := text_part h
    subst hpart
    exact ⟨rfl, iff_of_true rfl rfl⟩
  | binary =>
    by_cases hpart : part = []
    · subst hpart
      exact ⟨rfl, iff_of_true rfl rfl⟩
    · obtain ⟨pattern, size, chunk, fields, hsplit, rfl, hfields⟩ :=
        (persistItem_failed h).resolve_left hpart
      have hlen := hpattern pattern size chunk hsplit
      have hshort : (pattern ++ fields).length < 36 := by
        rw [List.length_append]
        omega
      obtain ⟨d, hload⟩ := load_torn (2 ^ 63) hpart hshort db
      have hload' : Database.binary.load (some (pattern ++ fields)) db = (db, some d) := hload
      rw [hload']
      exact ⟨rfl, iff_of_false (Option.some_ne_none d) hpart⟩

/-- A persist that fails leaves the items that come before the one it failed at.
If they are well formed, the file loads to these, whatever it held before, and
the load raises an exception itself if a part of the next record follows them. -/
theorem failed_persist_leaves_earlier (d : Database) (old : Bytes) {db : Dict}
    {items : List Item} (hitems : items.Perm db.entries) {file : Bytes} {e : PyError}
    (h : d.persistOver old items = (file, some e)) : d.LeavesEarlier items file e := by
  rw [d.persistOver_eq, d.persist_eq] at h
  obtain ⟨before, item, after, rfl, hbefore, hitem, hfile⟩ := writeRecords_error_iff.mp h
  rw [← d.persist_eq] at hbefore hfile
  have hwritten : d.persist [item] = ((d.persist [item]).1, some e) := Prod.ext rfl hitem
  refine ⟨before, item, after, (d.persist [item]).1, rfl, hbefore, hwritten, hfile, ?_, ?_⟩
  · intro codec hd
    subst hd
    exact text_part hwritten
  · intro hstorable hpattern
    obtain ⟨hdict, herror⟩ := Database.load_part hwritten hpattern
      (before.foldl (fun d item => d.insert item.1 item.2) ∅)
    have hkeys : (before ++ item :: after).NodupKeys :=
      (List.perm_nodupKeys hitems).mpr db.nodupKeys
    have hnodup : before.NodupKeys := hkeys.sublist (List.sublist_append_left _ _)
    rw [hfile, d.load_persisted hstorable]
    refine ⟨herror, fun key => ?_⟩
    rw [hdict, lookup_foldl_insert hnodup, AList.lookup_empty, Option.or_none]

/-- The file of a database with one entry. -/
def oneEntryFile : Bytes := (persist [largerEntry.item]).1

/-- What the save loop makes of it when it finds a new file. -/
def oneEntrySaved : Dict :=
  saveLoop (fun _ f => f) (load (some oneEntryFile) ∅).1 [kilobyte.file]

/-- The entry is lost: the new item comes first, and writing it fails. -/
theorem failed_persist_loses_entry :
    ¬ Database.binary.KeepsOld oneEntryFile oneEntrySaved.entries := by
  intro hkeeps
  have hfailed : (Database.binary.persistOver oneEntryFile oneEntrySaved.entries).2 ≠ none := by
    decide +kernel
  have hlost := hkeeps hfailed largerEntry.key
  revert hlost
  decide +kernel

/-- `base64` and `zlib` on the string `"a"`. -/
def letterCodec : Codec where
  encode s := if s = ascii "a" then .ok (ascii "eJxLBAAAYgBi") else .error .zlibError
  decode s :=
    if s = ascii "eJxLBAAAYgBi" ∨ s = ascii "eJxLBAAAYgBi" ++ [newline] then .ok (ascii "a")
    else .error .zlibError

/-- A text database in which a pattern contains the separator of the keys. -/
def letterFile : Bytes :=
  formatLine (ascii "deadbeef") (ascii "1024") (ascii "8192") (ascii "eJxLBAAAYgBi")
      (ascii "eJxLBAAAYgBi") ++
    formatLine (ascii "dead_bee") (ascii "1024") (ascii "8192") (ascii "eJxLBAAAYgBi")
      (ascii "eJxLBAAAYgBi")

/-- The dictionary it loads to. -/
def letterLoaded : Dict := (loadText letterCodec (some letterFile) ∅).1

/-- Both databases fail after one item that they keep. -/
theorem failed_persist_leaves_earlier_item :
    Database.binary.LeavesEarlier oneEntrySaved.entries.reverse
        (persist oneEntrySaved.entries.reverse).1 .typeError ∧
      (Database.text letterCodec).LeavesEarlier letterLoaded.entries.reverse
        (persistText letterCodec letterLoaded.entries.reverse).1 .valueError := by
  have hbinary : (persist oneEntrySaved.entries.reverse).2 = some .typeError := by decide +kernel
  have htext : (persistText letterCodec letterLoaded.entries.reverse).2 = some .valueError := by
    decide +kernel
  constructor
  · refine failed_persist_leaves_earlier .binary oneEntryFile (List.reverse_perm _) ?_
    rw [Database.persistOver_eq]
    exact Prod.ext rfl hbinary
  · refine failed_persist_leaves_earlier (.text letterCodec) letterFile (List.reverse_perm _) ?_
    rw [Database.persistOver_eq]
    exact Prod.ext rfl htext

end LazyFS.FailedPersist
