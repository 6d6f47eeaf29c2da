import LazyFS.CompactSizes
import LazyFS.DamagedFiles

/-!
# Restoring the metadata files

The metadata files of a database are written back into a directory, each under
the name of its content file, with the size in compact form. If each name
normalises back to the key of its entry, no name is written twice. Whether it does
depends on how the size is printed. Two names are two files if neither leaves the
directory, which a slash in a pattern can make it do, and if the directory has no
links.
-/

namespace LazyFS.RestoredNames

open PathNames PythonText ByteRecords MetaDatabase DatabaseRoundTrip DamagedFiles
open CompactSizes
open MachineWords (bind_eq_ok)

/-- `os.path.join(a, b)`. -/
def pathJoin (a b : Bytes) : Bytes :=
  if b.head? = some slash then b
  else if a = [] ∨ a.getLast? = some slash then a ++ b
  else a ++ slash :: b

/-- Files written one after the other, with their contents, and the exception
that ended the writing if one did. -/
abbrev FilesWritten := List (Bytes × Bytes) × Option PyError

/-- `f.write(s)` into a file that was opened for writing, and is empty until then. -/
def writeFile (path : Bytes) (s : Option Bytes) : FilesWritten :=
  match pyString s with
  | .ok s => ([(path, s)], none)
  | .error e => ([(path, [])], some e)

section Restore

variable (order : List (Bytes × ℤ)) (items : Dict → List Item) (filesDir : Bytes)

/-- The name that an entry is restored under, without its directory. -/
def restoredName (key : Bytes) : Except PyError Bytes :=
  match key.splitOn underscore with
  | [pattern, size, chunk] => do
    let size ← pyInt size >>= compactSize order
    return formatKey pattern size chunk
  | _ => throw .valueError

/-- One iteration of the loop of `restore_metafiles`. -/
def restoreItem (item : Item) : FilesWritten :=
  match restoredName order item.1 with
  | .error e => ([], some e)
  | .ok name =>
    let dstFilePrefix := pathJoin filesDir name
    andThen (writeFile (dstFilePrefix ++ ascii ".mbinmap") item.2.mbinmap)
      (writeFile (dstFilePrefix ++ ascii ".mhash") item.2.mhash)

/-- `restore_metafiles`, where every file that it opens for writing can be opened. -/
def restoreMetafiles (metadbFile : Option Bytes) : FilesWritten :=
  match load metadbFile ∅ with
  | (_, some e) => ([], some e)
  | (db, none) => writeRecords (restoreItem order filesDir) (items db)

/-- A database is restored as it should be, when `fileOf` tells which file a path leads to. -/
structure RestoresWell {F : Type} (fileOf : Bytes → F) (file : Bytes) : Prop where
  /-- Every entry is written. -/
  finishes : (restoreMetafiles order items filesDir (some file)).2 = none
  /-- No file is written twice. -/
  own_files :
    ((restoreMetafiles order items filesDir (some file)).1.map (fun w => fileOf w.1)).Nodup
  /-- The name of an entry normalises back to its key. -/
  normalises : ∀ key ∈ (load (some file) ∅).1, ∀ name, restoredName order key = .ok name →
    contentKey name = .ok key

/-- A key whose parts can be told apart, with a size that fits the order of the units. -/
def KeyFits (key : Bytes) : Prop :=
  ∃ pattern size chunk, key = formatKey pattern (decimal size) (decimal chunk) ∧
    underscore ∉ pattern ∧ SizeFits order size

/-- A name that stays in its directory and that a path can have. -/
def PlainName (name : Bytes) : Prop := slash ∉ name ∧ 0 ∉ name

/-- No file has two such names in the directory. -/
def OneNameEach {F : Type} (fileOf : Bytes → F) : Prop :=
  ∀ a b, PlainName a → PlainName b →
    fileOf (pathJoin filesDir a) = fileOf (pathJoin filesDir b) →
      pathJoin filesDir a = pathJoin filesDir b

end Restore

/-- An entry as `load` puts it into the dictionary. -/
structure LoadedEntry where
  pattern : Bytes
  size : ℕ
  chunk : ℕ
  mbinmap : Bytes
  mhash : Bytes
  /-- A pattern is eight characters long. -/
  pattern_length : pattern.length = 8
  /-- An entry of size zero is dropped. -/
  size_pos : 0 < size

/-- Its key. -/
def LoadedEntry.key (e : LoadedEntry) : Bytes :=
  formatKey e.pattern (decimal e.size) (decimal e.chunk)

/-- Its dictionary item. -/
def LoadedEntry.item (e : LoadedEntry) : Item := ⟨e.key, some e.mbinmap, some e.mhash⟩

/-- A record that is installed adds such an entry. -/
theorem install_loaded {db : Dict} {s rest : Bytes} {r : Record}
    (hdb : ∀ item ∈ db.entries, ∃ e : LoadedEntry, e.item = item)
    (h : nextRecord s = .ok (r, rest)) :
    ∀ item ∈ (install db r).entries, ∃ e : LoadedEntry, e.item = item := by
  unfold install
  by_cases hcorrupted : r.corrupted = true
  · rw [if_pos hcorrupted]
    exact hdb
  · rw [if_neg hcorrupted]
    intro item hitem
    rw [AList.entries_insert, List.mem_cons] at hitem
    rcases hitem with rfl | hold
    · obtain ⟨header, payload, -, hr, -⟩ := exists_header h
      have hpattern : r.pattern.length = 8 := by
        rw [hr]
        exact header.pattern_length
      have hsize : 0 < r.size := by
        rcases Nat.eq_zero_or_pos r.size with hzero | hpos
        · simp [Record.corrupted, hzero] at hcorrupted
        · exact hpos
      exact ⟨⟨r.pattern, r.size, r.chunk, r.mbinmap, r.mhash, hpattern, hsize⟩, rfl⟩
    · exact hdb item ((List.kerase_sublist _ _).subset hold)

/-- A dictionary that was loaded holds nothing else. -/
theorem load_loaded (file : Bytes) :
    ∀ item ∈ (load (some file) ∅).1.entries, ∃ e : LoadedEntry, e.item = item := by
  have hempty : ∀ item ∈ (∅ : Dict).entries, ∃ e : LoadedEntry, e.item = item :=
    fun item hitem => nomatch hitem
  exact readRecords_rule (I := fun db : Dict => ∀ item ∈ db.entries,
    ∃ e : LoadedEntry, e.item = item) file ∅ hempty (fun db s r rest hdb h => install_loaded hdb h)

/-- A database that loads is restored item after item. -/
theorem restoreMetafiles_eq (order : List (Bytes × ℤ)) (items : Dict → List Item)
    (filesDir : Bytes) {file : Bytes} (hload : (load (some file) ∅).2 = none) :
    restoreMetafiles order items filesDir (some file) =
      writeRecords (restoreItem order filesDir) (items (load (some file) ∅).1) := by
  rw [restoreMetafiles]
  rcases hfile : load (some file) ∅ with ⟨db, _ | e⟩
  · rfl
  · rw [hfile] at hload
    cases hload

/-- Its items are enumerated as loaded entries, one for each key. -/
theorem exists_loaded {items : Dict → List Item} (hitems : ∀ db, (items db).Perm db.entries)
    (file : Bytes) :
    ∃ es : List LoadedEntry, items (load (some file) ∅).1 = es.map LoadedEntry.item ∧
      (es.map LoadedEntry.item).NodupKeys ∧
      ∀ key, key ∈ (load (some file) ∅).1 ↔ ∃ e ∈ es, e.key = key := by
  have hperm := hitems (load (some file) ∅).1
  have hloaded : ∀ item ∈ items (load (some file) ∅).1, ∃ e : LoadedEntry, e.item = item :=
    fun item hitem => load_loaded file item (hperm.mem_iff.mp hitem)
  obtain ⟨es, hes⟩ := exists_map_eq hloaded
  refine ⟨es, hes.symm, ?_, fun key => ?_⟩
  · rw [hes]
    exact (List.perm_nodupKeys hperm).mpr (AList.nodupKeys _)
  · rw [AList.mem_keys, AList.keys, List.keys, ← (hperm.map Sigma.fst).mem_iff, ← hes,
      List.map_map, List.mem_map]
    rfl

/-- A path that is joined ends with the name. -/
theorem pathJoin_eq (a b : Bytes) : ∃ front, pathJoin a b = front ++ b := by
  unfold pathJoin
  split_ifs with habs hend
  · exact ⟨[], rfl⟩
  · exact ⟨a, rfl⟩
  · exact ⟨a ++ [slash], by rw [List.append_assoc]; rfl⟩

/-- A `.mbinmap` file is no `.mhash` file. -/
theorem mbinmap_ne_mhash (s s' : Bytes) : s ++ ascii ".mbinmap" ≠ s' ++ ascii ".mhash" := by
  intro h
  have hmbinmap : (ascii ".mbinmap").getLast? = some 112 := by decide
  have hmhash : (ascii ".mhash").getLast? = some 104 := by decide
  have hend := congrArg List.getLast? h
  rw [List.getLast?_append, List.getLast?_append, hmbinmap, hmhash] at hend
  cases hend

/-- Names with patterns of the same length do not fall together in a directory,
even where one of them is an absolute path. -/
theorem pathJoin_formatKey_inj {filesDir pattern size chunk pattern' size' chunk' : Bytes}
    (hlength : pattern.length = pattern'.length) (hs : underscore ∉ size)
    (hc : underscore ∉ chunk) (hs' : underscore ∉ size') (hc' : underscore ∉ chunk')
    (h : pathJoin filesDir (formatKey pattern size chunk) =
      pathJoin filesDir (formatKey pattern' size' chunk')) :
    formatKey pattern size chunk = formatKey pattern' size' chunk' := by
  have hfront : ∀ front pattern size chunk : Bytes,
      front ++ formatKey pattern size chunk = formatKey (front ++ pattern) size chunk := by
    intro front pattern size chunk
    simp only [formatKey, List.append_assoc]
  obtain ⟨front, hjoin⟩ := pathJoin_eq filesDir (formatKey pattern size chunk)
  obtain ⟨front', hjoin'⟩ := pathJoin_eq filesDir (formatKey pattern' size' chunk')
  rw [hjoin, hjoin', hfront, hfront] at h
  obtain ⟨hpattern, hsize, hchunk⟩ := formatKey_inj hs hc hs' hc' h
  rw [(List.append_inj' hpattern hlength).2, hsize, hchunk]

section Order

variable {order : List (Bytes × ℤ)}

/-- What is printed is a number and the name of a unit. -/
theorem notMem_compactSize (horder : order.Perm sizeMultipliers) {c : UInt8}
    (hdigit : isDigit c = false) (hminus : c ≠ 45) (hunits : ∀ unit ∈ sizeMultipliers, c ∉ unit.1)
    {n : ℤ} {s : Bytes} (h : compactSize order n = .ok s) : c ∉ s := by
  rcases compactSize_cases horder n with ⟨hfailed, -⟩ | ⟨unit, last, hlargest, -, hout⟩
  · rw [hfailed] at h
    cases h
  · rw [hout] at h
    cases h
    rw [List.mem_append, not_or]
    exact ⟨notMem_pyStr hdigit hminus _, hunits unit (horder.mem_iff.mp hlargest.mem)⟩

/-- So it contains no underscore. -/
theorem underscore_notMem_compactSize (horder : order.Perm sizeMultipliers) {n : ℤ} {s : Bytes}
    (h : compactSize order n = .ok s) : underscore ∉ s :=
  notMem_compactSize horder (by decide) (by decide) (by decide) h

/-- An entry has a name to be restored under if its key splits and its size is printed. -/
theorem restoredName_eq_ok {e : LoadedEntry} {name : Bytes} :
    restoredName order e.key = .ok name ↔ underscore ∉ e.pattern ∧
      ∃ s, compactSize order e.size = .ok s ∧ name = formatKey e.pattern s (decimal e.chunk) := by
  constructor
  · intro h
    unfold restoredName at h
    split at h
    case h_1 pattern size chunk hsplit =>
      obtain ⟨hflat, rfl, rfl, rfl⟩ := splitOn_formatKey_eq (underscore_notMem_decimal _)
        (underscore_notMem_decimal _) hsplit
      obtain ⟨s, hs, hname⟩ := bind_eq_ok.mp h
      rw [pyInt_decimal] at hs
      cases hname
      exact ⟨hflat, s, hs, rfl⟩
    case h_2 =>
      cases h
  · intro h
    obtain ⟨hflat, s, hs, rfl⟩ := h
    have hsplit : e.key.splitOn underscore = [e.pattern, decimal e.size, decimal e.chunk] :=
      splitOn_formatKey hflat (underscore_notMem_decimal _) (underscore_notMem_decimal _)
    have hsize : pyInt (decimal e.size) >>= compactSize order = .ok s := by
      rw [pyInt_decimal]
      exact hs
    rw [restoredName, hsplit]
    dsimp only
    rw [hsize]
    rfl

/-- Its name normalises back to its key exactly if its size is read back. -/
theorem contentKey_restored {e : LoadedEntry} (hflat : underscore ∉ e.pattern) {s : Bytes}
    (horder : order.Perm sizeMultipliers) (hs : compactSize order e.size = .ok s) :
    contentKey (formatKey e.pattern s (decimal e.chunk)) = .ok e.key ↔ RoundTrips order e.size := by
  have hsplit : (formatKey e.pattern s (decimal e.chunk)).splitOn underscore =
      [e.pattern, s, decimal e.chunk] :=
    splitOn_formatKey hflat (underscore_notMem_compactSize horder hs) (underscore_notMem_decimal _)
  have htrip : RoundTrips order e.size ↔ parseSize s = .ok (e.size : ℤ) := by
    rw [RoundTrips, hs]
    exact Iff.rfl
  rw [contentKey, hsplit, htrip]
  dsimp only
  rw [bind_eq_ok]
  constructor
  · intro h
    obtain ⟨n, hn, hkey⟩ := h
    have hparts := formatKey_inj (underscore_notMem_pyStr n) (underscore_notMem_decimal _)
      (underscore_notMem_decimal _) (underscore_notMem_decimal _) (Except.ok.inj hkey)
    rw [hn, pyStr_eq_decimal_iff.mp hparts.2.1]
  · intro h
    refine ⟨e.size, h, ?_⟩
    rw [pyStr_eq_decimal_iff.mpr rfl]
    rfl

/-- A key fits if the pattern of its entry does, and the size. -/
theorem keyFits_iff {e : LoadedEntry} :
    KeyFits order e.key ↔ underscore ∉ e.pattern ∧ SizeFits order e.size := by
  constructor
  · intro h
    obtain ⟨pattern, size, chunk, hkey, hflat, hfits⟩ := h
    obtain ⟨hpattern, hsize, -⟩ := formatKey_inj (underscore_notMem_decimal _)
      (underscore_notMem_decimal _) (underscore_notMem_decimal _) (underscore_notMem_decimal _) hkey
    rw [hpattern, decimal_injective hsize]
    exact ⟨hflat, hfits⟩
  · intro h
    exact ⟨e.pattern, e.size, e.chunk, rfl, h.1, h.2⟩

/-- An entry is restored under a name that normalises back to its key. -/
def Normalises (order : List (Bytes × ℤ)) (key : Bytes) : Prop :=
  ∃ name, restoredName order key = .ok name ∧ contentKey name = .ok key

/-- This is so exactly if the key fits. -/
theorem normalises_iff (horder : order.Perm sizeMultipliers) {e : LoadedEntry} :
    Normalises order e.key ↔ KeyFits order e.key := by
  rw [keyFits_iff, ← roundTrips_iff horder e.size_pos]
  constructor
  · intro h
    obtain ⟨name, hname, hkey⟩ := h
    obtain ⟨hflat, s, hs, rfl⟩ := restoredName_eq_ok.mp hname
    exact ⟨hflat, (contentKey_restored hflat horder hs).mp hkey⟩
  · intro h
    obtain ⟨hflat, htrip⟩ := h
    obtain ⟨s, hs, -⟩ := bind_eq_ok.mp htrip
    exact ⟨_, restoredName_eq_ok.mpr ⟨hflat, s, hs, rfl⟩,
      (contentKey_restored hflat horder hs).mpr htrip⟩

/-- Different keys that their names normalise back to have different names, and
so different files. -/
theorem restored_disjoint (filesDir : Bytes) (horder : order.Perm sizeMultipliers)
    {e e' : LoadedEntry} {name name' : Bytes} (hname : restoredName order e.key = .ok name)
    (hname' : restoredName order e'.key = .ok name') (hkey : contentKey name = .ok e.key)
    (hkey' : contentKey name' = .ok e'.key) (hne : e.key ≠ e'.key) :
    pathJoin filesDir name ≠ pathJoin filesDir name' := by
  intro h
  obtain ⟨-, s, hs, rfl⟩ := restoredName_eq_ok.mp hname
  obtain ⟨-, s', hs', rfl⟩ := restoredName_eq_ok.mp hname'
  have hsame := pathJoin_formatKey_inj (e.pattern_length.trans e'.pattern_length.symm)
    (underscore_notMem_compactSize horder hs) (underscore_notMem_decimal _)
    (underscore_notMem_compactSize horder hs') (underscore_notMem_decimal _) h
  rw [hsame, hkey'] at hkey
  exact hne (Except.ok.inj hkey).symm

/-- A name is plain if the key is. -/
theorem plainName_restored (horder : order.Perm sizeMultipliers) {e : LoadedEntry} {name : Bytes}
    (h : restoredName order e.key = .ok name) (hplain : PlainName e.key) : PlainName name := by
  obtain ⟨-, s, hs, rfl⟩ := restoredName_eq_ok.mp h
  have hkept : ∀ c, c ∉ e.key → c ∉ s → c ∉ formatKey e.pattern s (decimal e.chunk) := by
    intro c hkey hsize
    simp only [LoadedEntry.key, formatKey, List.mem_append, List.mem_cons, not_or] at hkey ⊢
    tauto
  exact ⟨hkept _ hplain.1 (notMem_compactSize horder (by decide) (by decide) (by decide) hs),
    hkept _ hplain.2 (notMem_compactSize horder (by decide) (by decide) (by decide) hs)⟩

section Files

variable {filesDir : Bytes}

/-- An entry with a name is restored to two files. -/
theorem restoreItem_eq {e : LoadedEntry} {name : Bytes}
    (h : restoredName order e.key = .ok name) :
    restoreItem order filesDir e.item =
      ([(pathJoin filesDir name ++ ascii ".mbinmap", e.mbinmap),
        (pathJoin filesDir name ++ ascii ".mhash", e.mhash)], none) := by
  have hname : restoredName order e.item.1 = .ok name := h
  rw [restoreItem, hname]
  rfl

/-- An entry without one ends the run. -/
theorem restoreItem_ok_iff {e : LoadedEntry} :
    (restoreItem order filesDir e.item).2 = none ↔ ∃ name, restoredName order e.key = .ok name := by
  have hkey : e.item.1 = e.key := rfl
  cases hname : restoredName order e.key with
  | error d =>
    rw [restoreItem, hkey, hname]
    exact iff_of_false (Option.some_ne_none d) (fun h => nomatch h)
  | ok name =>
    rw [restoreItem_eq hname]
    exact iff_of_true rfl ⟨name, rfl⟩

/-- The files of an entry with a name. -/
theorem mem_restored_iff {e : LoadedEntry} {name path : Bytes}
    (h : restoredName order e.key = .ok name) :
    path ∈ (restoreItem order filesDir e.item).1.map Prod.fst ↔
      path = pathJoin filesDir name ++ ascii ".mbinmap" ∨
        path = pathJoin filesDir name ++ ascii ".mhash" := by
  rw [restoreItem_eq h]
  exact List.mem_pair

/-- What is written for a plain key is in the directory, under a plain name. -/
theorem restored_plain (horder : order.Perm sizeMultipliers) {e : LoadedEntry} {name path : Bytes}
    (h : restoredName order e.key = .ok name) (hplain : PlainName e.key)
    (hpath : path ∈ (restoreItem order filesDir e.item).1.map Prod.fst) :
    ∃ full, PlainName full ∧ path = pathJoin filesDir full := by
  have hname := plainName_restored horder h hplain
  have hne : name ≠ [] := by
    obtain ⟨-, s, -, rfl⟩ := restoredName_eq_ok.mp h
    simp [formatKey]
  have hsuffix : ∀ suffix, PlainName suffix →
      PlainName (name ++ suffix) ∧
        pathJoin filesDir name ++ suffix = pathJoin filesDir (name ++ suffix) := by
    intro suffix hplain
    refine ⟨⟨?_, ?_⟩, ?_⟩
    · rw [List.mem_append, not_or]
      exact ⟨hname.1, hplain.1⟩
    · rw [List.mem_append, not_or]
      exact ⟨hname.2, hplain.2⟩
    · have hhead : (name ++ suffix).head? = name.head? := List.head?_append_of_ne_nil name hne
      unfold pathJoin
      rw [hhead]
      split_ifs <;> simp
  rcases (mem_restored_iff h).mp hpath with rfl | rfl
  · exact ⟨_, (hsuffix _ ⟨by decide, by decide⟩)⟩
  · exact ⟨_, (hsuffix _ ⟨by decide, by decide⟩)⟩

/-- If every name normalises back, no name is written twice. -/
theorem restored_nodup (horder : order.Perm sizeMultipliers) {es : List LoadedEntry}
    (hkeys : (es.map LoadedEntry.item).NodupKeys)
    (hes : ∀ e ∈ es, Normalises order e.key) :
    ((writeRecords (restoreItem order filesDir) (es.map LoadedEntry.item)).1.map
      Prod.fst).Nodup := by
  have hok : ∀ item ∈ es.map LoadedEntry.item, (restoreItem order filesDir item).2 = none := by
    intro item hitem
    obtain ⟨e, he, rfl⟩ := List.mem_map.mp hitem
    obtain ⟨name, hname, -⟩ := hes e he
    exact restoreItem_ok_iff.mpr ⟨name, hname⟩
  rw [writeRecords_flatMap hok, List.flatMap_map, List.map_flatMap, List.nodup_flatMap]
  constructor
  · intro e he
    obtain ⟨name, hname, -⟩ := hes e he
    rw [restoreItem_eq hname]
    have hsuffix : ascii ".mbinmap" ≠ ascii ".mhash" := by decide
    simp [hsuffix]
  · have hpairs := List.pairwise_map.mp (List.nodupKeys_iff_pairwise.mp hkeys)
    refine hpairs.imp_of_mem ?_
    intro e e' he he' hne path hpath hpath'
    obtain ⟨name, hname, hkey⟩ := hes e he
    obtain ⟨name', hname', hkey'⟩ := hes e' he'
    have hdiff := restored_disjoint filesDir horder hname hname' hkey hkey' hne
    rcases (mem_restored_iff hname).mp hpath with rfl | rfl
    all_goals rcases (mem_restored_iff hname').mp hpath' with hsame | hsame
    · exact hdiff (List.append_cancel_right hsame)
    · exact mbinmap_ne_mhash _ _ hsame
    · exact mbinmap_ne_mhash _ _ hsame.symm
    · exact hdiff (List.append_cancel_right hsame)

/-- If the names are plain, no file is. -/
theorem restored_files_nodup {F : Type} {fileOf : Bytes → F} (hone : OneNameEach filesDir fileOf)
    (horder : order.Perm sizeMultipliers) {es : List LoadedEntry}
    (hkeys : (es.map LoadedEntry.item).NodupKeys) (hes : ∀ e ∈ es, Normalises order e.key)
    (hplain : ∀ e ∈ es, PlainName e.key) :
    ((writeRecords (restoreItem order filesDir) (es.map LoadedEntry.item)).1.map
      (fun w => fileOf w.1)).Nodup := by
  have hpaths : ((writeRecords (restoreItem order filesDir) (es.map LoadedEntry.item)).1.map
      Prod.fst).Nodup := restored_nodup horder hkeys hes
  have hok : ∀ item ∈ es.map LoadedEntry.item, (restoreItem order filesDir item).2 = none := by
    intro item hitem
    obtain ⟨e, he, rfl⟩ := List.mem_map.mp hitem
    obtain ⟨name, hname, -⟩ := hes e he
    exact restoreItem_ok_iff.mpr ⟨name, hname⟩
  have hin : ∀ path ∈ (writeRecords (restoreItem order filesDir)
      (es.map LoadedEntry.item)).1.map Prod.fst,
      ∃ full, PlainName full ∧ path = pathJoin filesDir full := by
    intro path hpath
    rw [writeRecords_flatMap hok, List.flatMap_map, List.map_flatMap, List.mem_flatMap] at hpath
    obtain ⟨e, he, hpath⟩ := hpath
    obtain ⟨name, hname, -⟩ := hes e he
    exact restored_plain horder hname (hplain e he) hpath
  have hfiles := hpaths.map_on (f := fileOf) (fun path hpath path' hpath' hsame => by
    obtain ⟨full, hfull, rfl⟩ := hin path hpath
    obtain ⟨full', hfull', rfl⟩ := hin path' hpath'
    exact hone full full' hfull hfull' hsame)
  rwa [List.map_map] at hfiles

end Files

/-- A database that loads, with plain keys, is restored well exactly if its keys fit. -/
theorem restoresWell_iff (horder : order.Perm sizeMultipliers) {items : Dict → List Item}
    (hitems : ∀ db, (items db).Perm db.entries) {F : Type} {fileOf : Bytes → F} {filesDir : Bytes}
    (hone : OneNameEach filesDir fileOf) {file : Bytes} (hload : (load (some file) ∅).2 = none)
    (hplain : ∀ key ∈ (load (some file) ∅).1, PlainName key) :
    RestoresWell order items filesDir fileOf file ↔
      ∀ key ∈ (load (some file) ∅).1, KeyFits order key := by
  obtain ⟨es, hes, hkeys, hmem⟩ := exists_loaded hitems file
  have hrun := restoreMetafiles_eq order items filesDir hload
  rw [hes] at hrun
  constructor
  · intro hwell key hkey
    obtain ⟨e, he, rfl⟩ := (hmem key).mp hkey
    have hfinishes := hwell.finishes
    rw [hrun, writeRecords_ok_iff] at hfinishes
    obtain ⟨name, hname⟩ := restoreItem_ok_iff.mp (hfinishes _ (List.mem_map_of_mem he))
    exact (normalises_iff horder).mp ⟨name, hname, hwell.normalises e.key hkey name hname⟩
  · intro hfits
    have hnormal : ∀ e ∈ es, Normalises order e.key := by
      intro e he
      exact (normalises_iff horder).mpr (hfits e.key ((hmem e.key).mpr ⟨e, he, rfl⟩))
    refine ⟨?_, ?_, ?_⟩
    · rw [hrun, writeRecords_ok_iff]
      intro item hitem
      obtain ⟨e, he, rfl⟩ := List.mem_map.mp hitem
      obtain ⟨name, hname, -⟩ := hnormal e he
      exact restoreItem_ok_iff.mpr ⟨name, hname⟩
    · rw [hrun]
      exact restored_files_nodup hone horder hkeys hnormal
        fun e he => hplain e.key ((hmem e.key).mpr ⟨e, he, rfl⟩)
    · intro key hkey name hname
      obtain ⟨e, he, rfl⟩ := (hmem key).mp hkey
      obtain ⟨name', hname', hback⟩ := hnormal e he
      rw [hname] at hname'
      cases hname'
      exact hback

/-- Restoring keeps the entries apart exactly as far as sizes are read back. A
size is read back if it is a multiple of the unit above the one that the
enumeration ends with, and does not reach a larger unit. A database that loads, and
whose patterns contain no slash and no zero byte, is restored well into a directory
without links if this holds of every size, and no pattern contains an underscore. -/
theorem restores_iff (horder : order.Perm sizeMultipliers) :
    (∀ n : ℕ, 0 < n → (RoundTrips order n ↔ SizeFits order n)) ∧
      ∀ items : Dict → List Item, (∀ db, (items db).Perm db.entries) →
        ∀ {F : Type} (fileOf : Bytes → F) (filesDir : Bytes), OneNameEach filesDir fileOf →
          ∀ file : Bytes, (load (some file) ∅).2 = none →
            (∀ key ∈ (load (some file) ∅).1, PlainName key) →
              (RestoresWell order items filesDir fileOf file ↔
                ∀ key ∈ (load (some file) ∅).1, KeyFits order key) := by
  constructor
  · intro n hn
    exact roundTrips_iff horder hn
  · intro items hitems F fileOf filesDir hone file hload hplain
    exact restoresWell_iff horder hitems hone hload hplain

end Order

/-- A database of five megabytes of `deadbeef`. -/
def megabytesEntry : Entry := { deadbeefEntry with
  size := 5 * 1024 ^ 2
  size_pos := by decide
  size_lt := by decide }

/-- With the units enumerated from the largest down, it is restored well. -/
theorem restores_megabytes :
    RoundTrips sizeMultipliers.reverse (5 * 1024 ^ 2) ∧
      RestoresWell sizeMultipliers.reverse AList.entries (ascii "/srv") id
        (persist [megabytesEntry.item]).1 := by
  have horder := List.reverse_perm sizeMultipliers
  have hfits : SizeFits sizeMultipliers.reverse (5 * 1024 ^ 2) := by decide +kernel
  have hload : (load (some (persist [megabytesEntry.item]).1) ∅).2 = none := by decide +kernel
  have hkeys : (load (some (persist [megabytesEntry.item]).1) ∅).1.keys =
      [megabytesEntry.key] := by
    decide +kernel
  constructor
  · exact ((restores_iff horder).1 (5 * 1024 ^ 2) (by decide)).mpr hfits
  · have hone : OneNameEach (ascii "/srv") id := fun _ _ _ _ h => h
    refine ((restores_iff horder).2 AList.entries (fun _ => List.Perm.refl _) id (ascii "/srv")
      hone (persist [megabytesEntry.item]).1 hload ?_).mpr ?_
    all_goals
      intro key hkey
      rw [AList.mem_keys, hkeys, List.mem_singleton] at hkey
    · rw [hkey]
      exact ⟨by decide +kernel, by decide +kernel⟩
    · exact ⟨megabytesEntry.pattern, 5 * 1024 ^ 2, megabytesEntry.chunk, hkey,
        megabytesEntry.pattern_flat, hfits⟩

/-- One kilobyte is a size that is accepted, and it is not read back. Entries of one
and of two kilobytes are restored under one name. -/
theorem restored_kilobytes_collide :
    parseSize (ascii "1kb") = .ok 1024 ∧ ¬ RoundTrips sizeMultipliers 1024 ∧
      restoredName sizeMultipliers deadbeefEntry.key =
        restoredName sizeMultipliers largerEntry.key ∧
      ¬ RestoresWell sizeMultipliers AList.entries (ascii "/srv") id
        (persist twoEntries.entries).1 := by
  refine ⟨by decide +kernel, by decide +kernel, by decide +kernel, ?_⟩
  intro h
  have hfiles := h.own_files
  revert hfiles
  decide +kernel

end LazyFS.RestoredNames
