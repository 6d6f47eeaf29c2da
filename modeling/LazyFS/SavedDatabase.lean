import LazyFS.DatabaseRoundTrip

/-!
# Saving into an existing database

A run of the save loop reads the old database, adds an entry for every content
file that is new, and rewrites the whole file. What `_encode` gives for a new
entry is no string, so writing it raises, and the file ends inside a record
that no later run can read. A run that finds nothing new writes back what it
read.
-/

namespace LazyFS.SavedDatabase

open PathNames PythonText ByteRecords MetaDatabase DatabaseRoundTrip
open MachineWords (bind_eq_ok)

/-- A content file with a proper name, and its two metadata files. -/
structure NamedFile where
  pattern : Bytes
  size : Bytes
  chunk : Bytes
  /-- The size in bytes. -/
  bytes : ℤ
  mbinmap : Bytes
  mhash : Bytes
  /-- A pattern is eight characters long. -/
  pattern_length : pattern.length = 8
  /-- The size is one that `parse_size` accepts. -/
  size_parses : parseSize size = .ok bytes
  /-- The chunk size is a decimal number. -/
  chunk_digits : ∀ c ∈ chunk, isDigit c = true
  /-- It is positive. -/
  chunk_pos : 0 < digitsValue chunk
  /-- The metadata files are not empty. -/
  mbinmap_ne : mbinmap ≠ []
  mhash_ne : mhash ≠ []

/-- The file as the save loop finds it. -/
def NamedFile.file (f : NamedFile) : ContentFile :=
  ⟨formatKey f.pattern f.size f.chunk, some f.mbinmap, some f.mhash⟩

/-- The key under which the file belongs into the database. -/
def NamedFile.key (f : NamedFile) : Bytes := formatKey f.pattern (pyStr f.bytes) f.chunk

/-- What the database should hold under it. -/
def NamedFile.value (f : NamedFile) : Value := ⟨some f.mbinmap, some f.mhash⟩

/-- What a database should hold after a run: its old entries unchanged, and for
every new key the metadata of the first file with that key. -/
def expected (old : List Entry) (files : List NamedFile) (key : Bytes) : Option Value :=
  ((old.map Entry.item).dlookup key).or
    ((files.find? (fun f => decide (f.key = key))).map NamedFile.value)

/-- A database file loads to what it should hold. -/
def Saved (old : List Entry) (files : List NamedFile) (file : Bytes) : Prop :=
  (load (some file) ∅).2 = none ∧
    ∀ key, (load (some file) ∅).1.lookup key = expected old files key

/-- An item whose pattern and sizes are written before its payload turns out to
be no string. -/
structure Unwritable (item : Item) : Prop where
  /-- The key has its three parts. -/
  splits : ∃ pattern size chunk, pattern.length = 8 ∧
    item.1.splitOn underscore = [pattern, size, chunk]
  /-- There is no `.mbinmap` string. -/
  no_mbinmap : item.2.mbinmap = none

/-- An unwritable item leaves the beginning of a header behind. -/
theorem persistItem_unwritable {item : Item} (h : Unwritable item) (rest : Written) :
    (persistItem item rest).1 ≠ [] ∧ (persistItem item rest).1.length < 36 := by
  obtain ⟨pattern, size, chunk, hlen, hsplit⟩ := h.splits
  have hpattern : pattern ≠ [] := by
    rintro rfl
    simp at hlen
  unfold persistItem
  rw [hsplit, h.no_mbinmap]
  dsimp only
  have hnone : pyLen none >>= pack 8 = .error .typeError := rfl
  rw [hnone]
  cases hsize : pyInt size >>= pack 8 with
  | error e => simp [emitResult, emit, raise, hlen, hpattern]
  | ok sizeBytes =>
    obtain ⟨m, -, hm⟩ := bind_eq_ok.mp hsize
    have hsizeBytes := pack_length hm
    cases hchunk : pyInt chunk >>= pack 4 with
    | error e => simp [emitResult, emit, raise, hlen, hpattern, hsizeBytes]
    | ok chunkBytes =>
      obtain ⟨m, -, hm⟩ := bind_eq_ok.mp hchunk
      have hchunkBytes := pack_length hm
      simp [emitResult, emit, raise, hlen, hpattern, hsizeBytes, hchunkBytes]

/-- A file in which an unwritable item was reached does not load. -/
theorem load_unwritable (es : List Entry) {item : Item} (h : Unwritable item)
    (items : List Item) :
    (load (some (persist (es.map Entry.item ++ item :: items)).1) ∅).2 ≠ none := by
  have hcons : persist (item :: items) = persistItem item (persist items) := rfl
  obtain ⟨hne, hshort⟩ := persistItem_unwritable h (persist items)
  have hfile : (persist (es.map Entry.item ++ item :: items)).1 =
      es.flatMap Entry.bytes ++ (persistItem item (persist items)).1 := by
    rw [persist_entries, hcons]
    rfl
  obtain ⟨e, he⟩ := load_torn (2 ^ 63) hne hshort
    ((es.map Entry.item).foldl (fun d item => d.insert item.1 item.2) ∅)
  rw [hfile, load_entries, load, he]
  exact Option.some_ne_none e

/-- Items are all entries, or there is a first one that is unwritable. -/
theorem entries_or_unwritable {items : List Item}
    (h : ∀ item ∈ items, (∃ e : Entry, e.item = item) ∨ Unwritable item) :
    (∃ es : List Entry, items = es.map Entry.item) ∨
      ∃ (es : List Entry) (item : Item) (rest : List Item), Unwritable item ∧
        items = es.map Entry.item ++ item :: rest := by
  induction items with
  | nil => exact Or.inl ⟨[], rfl⟩
  | cons item items ih =>
    have htail := ih (fun i hi => h i (List.mem_cons_of_mem item hi))
    rcases h item List.mem_cons_self with ⟨e, rfl⟩ | hbad
    · rcases htail with ⟨es, rfl⟩ | ⟨es, bad, rest, hbad, rfl⟩
      · exact Or.inl ⟨e :: es, rfl⟩
      · exact Or.inr ⟨e :: es, bad, rest, hbad, rfl⟩
    · exact Or.inr ⟨[], item, items, hbad, rfl⟩

/-- The loop finds the right key for a file, or none. -/
theorem contentKey_file {f : NamedFile} {key : Bytes} (h : contentKey f.file.name = .ok key) :
    key = f.key ∧ key.splitOn underscore = [f.pattern, pyStr f.bytes, f.chunk] := by
  have hsize := underscore_notMem_of_parseSize f.size_parses
  have hchunk : underscore ∉ f.chunk := fun hc => (isDigit_spec (f.chunk_digits _ hc)).2.2.2 rfl
  unfold contentKey at h
  split at h
  case h_1 pattern size chunk hsplit =>
    obtain ⟨hflat, rfl, rfl, rfl⟩ := splitOn_formatKey_eq hsize hchunk hsplit
    obtain ⟨n, hn, hout⟩ := bind_eq_ok.mp h
    rw [f.size_parses] at hn
    cases hn
    cases hout
    exact ⟨rfl, splitOn_formatKey hflat (underscore_notMem_pyStr _) hchunk⟩
  case h_2 =>
    cases h

section Runs

variable (callSwift : Bytes → ContentFile → ContentFile)

/-- The loop leaves the dictionary as it is, or adds an item that cannot be written. -/
theorem saveFile_cases (db : Dict) (f : NamedFile) :
    saveFile callSwift db f.file = db ∨
      ∃ item, Unwritable item ∧ saveFile callSwift db f.file = db.insert item.1 item.2 := by
  unfold saveFile
  cases hkey : contentKey f.file.name with
  | error e => exact Or.inl rfl
  | ok key =>
    obtain ⟨-, hsplit⟩ := contentKey_file hkey
    dsimp only
    by_cases hmem : key ∈ db
    · rw [if_pos hmem]
      exact Or.inl rfl
    · rw [if_neg hmem]
      have hbad : Unwritable ⟨key, ⟨none, none⟩⟩ :=
        { splits := ⟨_, _, _, f.pattern_length, hsplit⟩
          no_mbinmap := rfl }
      exact Or.inr ⟨_, hbad, rfl⟩

/-- Whatever the loop adds cannot be written. -/
theorem saveLoop_items (files : List NamedFile) (db : Dict) :
    ∀ item ∈ (saveLoop callSwift db (files.map NamedFile.file)).entries,
      item ∈ db.entries ∨ Unwritable item := by
  induction files generalizing db with
  | nil => exact fun item hi => Or.inl hi
  | cons f files ih =>
    intro item hi
    have hrest := ih (saveFile callSwift db f.file) item hi
    rcases saveFile_cases callSwift db f with hsame | ⟨new, hbad, hnew⟩
    · rwa [hsame] at hrest
    · rw [hnew, AList.entries_insert, List.mem_cons] at hrest
      rcases hrest with (rfl | hold) | hitem
      · exact Or.inr hbad
      · exact Or.inl ((List.kerase_sublist _ _).subset hold)
      · exact Or.inr hitem

/-- Files that are known already leave the dictionary as it is. -/
theorem saveLoop_known {files : List NamedFile} {db : Dict} (h : ∀ f ∈ files, f.key ∈ db) :
    saveLoop callSwift db (files.map NamedFile.file) = db := by
  induction files with
  | nil => rfl
  | cons f files ih =>
    have hfile : saveFile callSwift db f.file = db := by
      unfold saveFile
      cases hkey : contentKey f.file.name with
      | error e => rfl
      | ok key =>
        have hmem := h f List.mem_cons_self
        rw [← (contentKey_file hkey).1] at hmem
        exact if_pos hmem
    have hrest := ih (fun g hg => h g (List.mem_cons_of_mem f hg))
    rw [List.map_cons, saveLoop, List.foldl_cons, hfile]
    exact hrest

/-- A persisted database loads to a dictionary of just its items. -/
theorem load_persisted {old : List Entry} (hkeys : (old.map Entry.item).NodupKeys) :
    ∃ db : Dict, load (some (persist (old.map Entry.item)).1) ∅ = (db, none) ∧
      (∀ item, item ∈ db.entries ↔ item ∈ old.map Entry.item) ∧
      ∀ key, db.lookup key = (old.map Entry.item).dlookup key := by
  obtain ⟨-, hload, hlookup⟩ := load_persist_entries hkeys
  refine ⟨_, Prod.ext rfl hload, fun item => ?_, hlookup⟩
  have hentry := AList.mem_lookup_iff (a := item.1) (b := item.2)
    (s := (load (some (persist (old.map Entry.item)).1) ∅).1)
  rw [hlookup item.1, List.mem_dlookup_iff hkeys] at hentry
  exact hentry.symm

/-- A new key is expected to get the strings of a file. -/
theorem expected_new {old : List Entry} {files : List NamedFile} {f : NamedFile} (hf : f ∈ files)
    (hnew : f.key ∉ (old.map Entry.item).keys) :
    ∃ g : NamedFile, expected old files f.key = some g.value := by
  have hnone : (old.map Entry.item).dlookup f.key = none := List.dlookup_eq_none.mpr hnew
  have hfound : (files.find? (fun g => decide (g.key = f.key))).isSome :=
    List.find?_isSome.mpr ⟨f, hf, decide_eq_true rfl⟩
  obtain ⟨g, hg⟩ := Option.isSome_iff_exists.mp hfound
  exact ⟨g, by rw [expected, hnone, hg]; rfl⟩

/-- A key that is not new is expected to keep its value, and no other is bound. -/
theorem expected_known {old : List Entry} {files : List NamedFile}
    (h : ∀ f ∈ files, f.key ∈ (old.map Entry.item).keys) (key : Bytes) :
    expected old files key = (old.map Entry.item).dlookup key := by
  unfold expected
  cases hold : (old.map Entry.item).dlookup key with
  | some v => rfl
  | none =>
    have hnew := List.dlookup_eq_none.mp hold
    have hnone : files.find? (fun f => decide (f.key = key)) = none := by
      rw [List.find?_eq_none]
      intro f hf hkey
      rw [← of_decide_eq_true hkey] at hnew
      exact hnew (h f hf)
    rw [hnone]
    rfl

/-- If a new file went into the dictionary, the file that is written is not as
it should be. -/
theorem known_of_saved {old : List Entry} {db : Dict}
    (hentries : ∀ item, item ∈ db.entries ↔ item ∈ old.map Entry.item) {files : List NamedFile}
    {items : List Item}
    (hitems : items.Perm (saveLoop callSwift db (files.map NamedFile.file)).entries)
    (hsaved : Saved old files (persist items).1) :
    ∀ f ∈ files, f.key ∈ (old.map Entry.item).keys := by
  have hloop := saveLoop_items callSwift files db
  have hmixed : ∀ item ∈ items, (∃ e : Entry, e.item = item) ∨ Unwritable item := by
    intro item hi
    refine (hloop item (hitems.mem_iff.mp hi)).imp_left (fun hold => ?_)
    obtain ⟨e, -, he⟩ := List.mem_map.mp ((hentries item).mp hold)
    exact ⟨e, he⟩
  have hnodup : items.NodupKeys := (List.perm_nodupKeys hitems).mpr (AList.nodupKeys _)
  intro f hf
  by_contra hnew
  rcases entries_or_unwritable hmixed with ⟨es, rfl⟩ | ⟨es, item, rest, hbad, rfl⟩
  · obtain ⟨g, hg⟩ := expected_new hf hnew
    have hbound := hsaved.2 f.key
    rw [(load_persist_entries hnodup).2.2, hg] at hbound
    have hitem := List.of_mem_dlookup (Option.mem_def.mpr hbound)
    rcases hloop _ (hitems.mem_iff.mp hitem) with hold | hbad
    · exact hnew (List.mem_keys_of_mem ((hentries _).mp hold))
    · exact Option.some_ne_none g.mbinmap hbad.no_mbinmap
  · exact load_unwritable es hbad rest hsaved.1

end Runs

/-- A dictionary that is written back unchanged is as it should be if no file is new. -/
theorem saved_of_known {old : List Entry} {db : Dict}
    (hentries : ∀ item, item ∈ db.entries ↔ item ∈ old.map Entry.item)
    (hlookup : ∀ key, db.lookup key = (old.map Entry.item).dlookup key) {files : List NamedFile}
    {items : List Item} (hitems : items.Perm db.entries)
    (hknown : ∀ f ∈ files, f.key ∈ (old.map Entry.item).keys) :
    Saved old files (persist items).1 := by
  have hall : ∀ item ∈ items, ∃ e : Entry, e.item = item := by
    intro item hi
    obtain ⟨e, -, he⟩ := List.mem_map.mp ((hentries item).mp (hitems.mem_iff.mp hi))
    exact ⟨e, he⟩
  have hnodup : items.NodupKeys := (List.perm_nodupKeys hitems).mpr db.nodupKeys
  obtain ⟨es, rfl⟩ := exists_map_eq hall
  obtain ⟨-, hsound, hvalues⟩ := load_persist_entries hnodup
  refine ⟨hsound, fun key => ?_⟩
  rw [hvalues, expected_known hknown, List.perm_dlookup key hnodup hitems, ← hlookup]
  rfl

/-- A save run on a persisted database leaves the file as it should be exactly
when no content file is new. -/
theorem saves_iff_nothing_new (callSwift : Bytes → ContentFile → ContentFile) {old : List Entry}
    (hkeys : (old.map Entry.item).NodupKeys) {items : Dict → List Item}
    (hitems : ∀ db, (items db).Perm db.entries) (files : List NamedFile) :
    Saved old files (saveRun callSwift items (persist (old.map Entry.item)).1
        (files.map NamedFile.file)).1 ↔
      ∀ f ∈ files, f.key ∈ (old.map Entry.item).keys := by
  obtain ⟨db, hload, hentries, hlookup⟩ := load_persisted hkeys
  rw [saveRun_of_loads callSwift hload]
  constructor
  · exact known_of_saved callSwift hentries (hitems _)
  · intro hknown
    have hsame : saveLoop callSwift db (files.map NamedFile.file) = db := by
      refine saveLoop_known callSwift (fun f hf => ?_)
      rw [← AList.lookup_isSome, hlookup, List.dlookup_isSome]
      exact hknown f hf
    rw [hsame]
    exact saved_of_known hentries hlookup (hitems db) hknown

/-- The content file of one kilobyte of `deadbeef`. -/
def kilobyte : NamedFile where
  pattern := deadbeefEntry.pattern
  size := ascii "1kb"
  chunk := ascii "8192"
  bytes := 1024
  mbinmap := deadbeefEntry.mbinmap
  mhash := deadbeefEntry.mhash
  pattern_length := deadbeefEntry.pattern_length
  size_parses := by decide +kernel
  chunk_digits := by decide +kernel
  chunk_pos := by decide +kernel
  mbinmap_ne := deadbeefEntry.mbinmap_ne
  mhash_ne := deadbeefEntry.mhash_ne

/-- A run that finds a file it knows writes the database back. -/
theorem saves_iff_nothing_new_kilobyte :
    Saved [deadbeefEntry, largerEntry] [kilobyte]
        (saveRun (fun _ f => f) AList.entries
          (persist ([deadbeefEntry, largerEntry].map Entry.item)).1 [kilobyte.file]).1 ↔
      ∀ f ∈ [kilobyte], f.key ∈ ([deadbeefEntry, largerEntry].map Entry.item).keys := by
  have hkeys : ([deadbeefEntry, largerEntry].map Entry.item).NodupKeys := twoEntries.nodupKeys
  exact saves_iff_nothing_new (fun _ f => f) hkeys (fun _ => List.Perm.refl _) [kilobyte]

/-- A run that finds one new file writes a database that does not load, and the
entry that was there before is lost with it. -/
theorem new_file_breaks_database :
    ¬ Saved [largerEntry] [kilobyte]
        (saveRun (fun _ f => f) AList.entries (persist [largerEntry.item]).1 [kilobyte.file]).1 ∧
      (load (some (saveRun (fun _ f => f) AList.entries (persist [largerEntry.item]).1
        [kilobyte.file]).1) ∅).1.lookup largerEntry.key = none := by
  have hload : (load (some (saveRun (fun _ f => f) AList.entries (persist [largerEntry.item]).1
      [kilobyte.file]).1) ∅).2 = some .structError := by
    decide +kernel
  constructor
  · intro hsaved
    rw [hsaved.1] at hload
    cases hload
  · decide +kernel

end LazyFS.SavedDatabase
