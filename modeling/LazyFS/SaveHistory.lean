import LazyFS.RestoredNames
import LazyFS.SavedDatabase
import LazyFS.SeparatedWords

/-!
# A database over many save runs

Every save run reads the file that the run before it left, adds what is new, and
rewrites the file. A run that finds nothing new leaves the database as it was. A
run that has something to add breaks the file, and as every later run reads the
file first, none of them gets as far as writing it again.
-/

namespace LazyFS.SaveHistory

open PathNames PythonText ByteRecords MetaDatabase DatabaseRoundTrip SavedDatabase
open RestoredNames CompactSizes SeparatedWords
open MachineWords (bind_eq_ok)

/-- A save run, as far as it is not given by the file it reads. -/
structure SaveRun where
  /-- The content files, in the order in which they are found. -/
  files : List ContentFile
  /-- The order in which the dictionary enumerates its items. -/
  items : Dict → List Item
  /-- What libswift makes of a content file, with a chunk size. -/
  callSwift : Bytes → ContentFile → ContentFile
  /-- Every item is enumerated once. -/
  items_perm : ∀ db, (items db).Perm db.entries
  /-- The patterns in the names are eight characters long. -/
  pattern_length : ∀ f ∈ files, ∀ pattern size chunk,
    f.name.splitOn underscore = [pattern, size, chunk] → pattern.length = 8

/-- A content file whose name has a pattern of eight characters, if it has one. -/
def EightLetters (f : ContentFile) : Prop :=
  ∀ pattern size chunk, f.name.splitOn underscore = [pattern, size, chunk] → pattern.length = 8

/-- The run: the file afterwards, and the exception that ended the run if one did.
Without a file it starts from an empty dictionary. -/
def SaveRun.run (r : SaveRun) (file : Option Bytes) : Option Bytes × Option PyError :=
  match load file ∅ with
  | (_, some e) => (file, some e)
  | (db, none) =>
    let out := persist (r.items (saveLoop r.callSwift db r.files))
    (some out.1, out.2)

/-- The file after some runs. -/
def after (runs : List SaveRun) (file : Option Bytes) : Option Bytes :=
  runs.foldl (fun file r => (r.run file).1) file

/-- The metadata of a content file when libswift was called if a part was missing. -/
def computed (callSwift : Bytes → ContentFile → ContentFile) (key : Bytes) (f : ContentFile) :
    ContentFile :=
  if f.mbinmap.isNone || f.mhash.isNone then
    callSwift ((key.splitOn underscore).getLastD []) f
  else f

/-- A content file belongs into the database under a new key, and has metadata. -/
def FileAdds (callSwift : Bytes → ContentFile → ContentFile) (db : Dict) (f : ContentFile) : Prop :=
  ∃ key, contentKey f.name = .ok key ∧ key ∉ db ∧
    (computed callSwift key f).mbinmap.isSome ∧ (computed callSwift key f).mhash.isSome

/-- A run has something to add. -/
def SaveRun.Adds (r : SaveRun) (db : Dict) : Prop := ∃ f ∈ r.files, FileAdds r.callSwift db f

/-- A file loads to the items of a dictionary. -/
structure Holds (db : Dict) (file : Option Bytes) : Prop where
  /-- It can be read to its end. -/
  loads : (load file ∅).2 = none
  /-- It has these items. -/
  same_items : ∀ item, item ∈ (load file ∅).1.entries ↔ item ∈ db.entries

/-- A file that cannot be read to its end. -/
def Broken (file : Option Bytes) : Prop := ∃ e, (load file ∅).2 = some e

/-- On a file that is there, this is the save run. -/
theorem run_some (r : SaveRun) (file : Bytes) :
    r.run (some file) =
      (some (saveRun r.callSwift r.items file r.files).1,
        (saveRun r.callSwift r.items file r.files).2) := by
  unfold SaveRun.run saveRun
  rcases load (some file) ∅ with ⟨db, _ | e⟩ <;> rfl

/-- The later runs find what the earlier ones left. -/
theorem after_append (before later : List SaveRun) (file : Option Bytes) :
    after (before ++ later) file = after later (after before file) := List.foldl_append

section SaveLoop

variable {callSwift : Bytes → ContentFile → ContentFile} {db : Dict} {f : ContentFile}
  {files : List ContentFile}

/-- `add` stores no strings, if the metadata files can be read. -/
theorem add_eq (key : Bytes) :
    add callSwift key f db =
      if (computed callSwift key f).mbinmap.isSome ∧ (computed callSwift key f).mhash.isSome then
        .ok (db.insert key ⟨none, none⟩)
      else .error .ioError := by
  unfold computed add
  generalize (if f.mbinmap.isNone || f.mhash.isNone then
    callSwift ((key.splitOn underscore).getLastD []) f else f) = g
  obtain ⟨name, mbinmap, mhash⟩ := g
  cases mbinmap <;> cases mhash <;> rfl

/-- The key of a content file has the pattern of its name. -/
theorem contentKey_splits {name key : Bytes} (h : contentKey name = .ok key) :
    ∃ pattern size chunk n, name.splitOn underscore = [pattern, size, chunk] ∧
      key.splitOn underscore = [pattern, pyStr n, chunk] := by
  unfold contentKey at h
  split at h
  case h_1 pattern size chunk hsplit =>
    obtain ⟨n, -, hkey⟩ := bind_eq_ok.mp h
    cases hkey
    have hpattern : underscore ∉ pattern := notMem_of_mem_splitOn (s := name) (by rw [hsplit]; simp)
    have hchunk : underscore ∉ chunk := notMem_of_mem_splitOn (s := name) (by rw [hsplit]; simp)
    exact ⟨pattern, size, chunk, n, hsplit,
      splitOn_formatKey hpattern (underscore_notMem_pyStr n) hchunk⟩
  case h_2 =>
    cases h

/-- A file with nothing to add leaves the dictionary as it is. -/
theorem saveFile_same (h : ¬ FileAdds callSwift db f) : saveFile callSwift db f = db := by
  unfold saveFile
  cases hkey : contentKey f.name with
  | error e => rfl
  | ok key =>
    dsimp only
    by_cases hmem : key ∈ db
    · rw [if_pos hmem]
    · rw [if_neg hmem, add_eq, if_neg (fun hread => h ⟨key, hkey, hmem, hread⟩)]

/-- A file with something to add binds a new key, to what cannot be written. -/
theorem saveFile_adds (hpattern : EightLetters f) (h : FileAdds callSwift db f) :
    ∃ item, Unwritable item ∧ item.1 ∉ db ∧
      saveFile callSwift db f = db.insert item.1 item.2 := by
  obtain ⟨key, hkey, hmem, hread⟩ := h
  obtain ⟨pattern, size, chunk, n, hname, hsplit⟩ := contentKey_splits hkey
  have hbad : Unwritable ⟨key, ⟨none, none⟩⟩ :=
    { splits := ⟨pattern, pyStr n, chunk, hpattern pattern size chunk hname, hsplit⟩
      no_mbinmap := rfl }
  refine ⟨_, hbad, hmem, ?_⟩
  unfold saveFile
  rw [hkey]
  dsimp only
  rw [if_neg hmem, add_eq, if_pos hread]

/-- Items are never taken out of the dictionary. -/
theorem saveFile_keeps (hpattern : EightLetters f) {item : Item} (hitem : item ∈ db.entries) :
    item ∈ (saveFile callSwift db f).entries := by
  by_cases hadds : FileAdds callSwift db f
  · obtain ⟨new, -, hnew, hsave⟩ := saveFile_adds hpattern hadds
    have hfresh : new.1 ∉ db.entries.keys := hnew
    rw [hsave, AList.entries_insert, List.kerase_of_notMem_keys hfresh]
    exact List.mem_cons_of_mem _ hitem
  · rw [saveFile_same hadds]
    exact hitem

/-- If no file has anything to add, the loop does nothing. -/
theorem saveLoop_same (h : ∀ f ∈ files, ¬ FileAdds callSwift db f) :
    saveLoop callSwift db files = db := by
  induction files with
  | nil => rfl
  | cons f files ih =>
    have hrest := ih (fun g hg => h g (List.mem_cons_of_mem f hg))
    rw [saveLoop, List.foldl_cons, saveFile_same (h f List.mem_cons_self)]
    exact hrest

/-- The loop keeps what is there, and all that it adds cannot be written. -/
theorem saveLoop_mixed (callSwift : Bytes → ContentFile → ContentFile) (db : Dict)
    (hpattern : ∀ f ∈ files, EightLetters f) :
    (∀ item ∈ db.entries, item ∈ (saveLoop callSwift db files).entries) ∧
      ∀ item ∈ (saveLoop callSwift db files).entries, item ∈ db.entries ∨ Unwritable item := by
  induction files generalizing db with
  | nil => exact ⟨fun item hitem => hitem, fun item hitem => Or.inl hitem⟩
  | cons f files ih =>
    have hfile := hpattern f List.mem_cons_self
    obtain ⟨hkept, hnew⟩ := ih (saveFile callSwift db f)
      (fun g hg => hpattern g (List.mem_cons_of_mem f hg))
    refine ⟨fun item hitem => hkept item (saveFile_keeps hfile hitem), fun item hitem => ?_⟩
    rcases hnew item hitem with hold | hbad
    · by_cases hadds : FileAdds callSwift db f
      · obtain ⟨new, hbad, -, hsave⟩ := saveFile_adds hfile hadds
        rw [hsave, AList.entries_insert, List.mem_cons] at hold
        rcases hold with rfl | hold
        · exact Or.inr hbad
        · exact Or.inl ((List.kerase_sublist _ _).subset hold)
      · rw [saveFile_same hadds] at hold
        exact Or.inl hold
    · exact Or.inr hbad

/-- If some file has something to add, something is added. -/
theorem saveLoop_adds (hpattern : ∀ f ∈ files, EightLetters f)
    (h : ∃ f ∈ files, FileAdds callSwift db f) :
    ∃ item ∈ (saveLoop callSwift db files).entries, Unwritable item := by
  induction files with
  | nil =>
    obtain ⟨f, hf, -⟩ := h
    cases hf
  | cons f files ih =>
    have hrest := fun g hg => hpattern g (List.mem_cons_of_mem f hg)
    by_cases hadds : FileAdds callSwift db f
    · obtain ⟨new, hbad, -, hsave⟩ := saveFile_adds (hpattern f List.mem_cons_self) hadds
      obtain ⟨hkept, -⟩ := saveLoop_mixed callSwift (saveFile callSwift db f) hrest
      refine ⟨new, hkept new ?_, hbad⟩
      rw [hsave, AList.entries_insert]
      exact List.mem_cons_self
    · obtain ⟨g, hg, hgadds⟩ := h
      rcases List.mem_cons.mp hg with rfl | hg
      · exact absurd hgadds hadds
      · rw [saveLoop, List.foldl_cons, saveFile_same hadds]
        exact ih hrest ⟨g, hg, hgadds⟩

end SaveLoop

/-- An item that cannot be written raises. -/
theorem persistItem_raises {item : Item} (h : Unwritable item) (rest : Written) :
    (persistItem item rest).2 ≠ none := by
  obtain ⟨pattern, size, chunk, -, hsplit⟩ := h.splits
  unfold persistItem
  rw [hsplit, h.no_mbinmap]
  dsimp only
  have hnone : pyLen none >>= pack 8 = .error .typeError := rfl
  rw [hnone]
  cases pyInt size >>= pack 8 with
  | error e => exact Option.some_ne_none e
  | ok sizeBytes =>
    cases pyInt chunk >>= pack 4 with
    | error e => exact Option.some_ne_none e
    | ok chunkBytes => exact Option.some_ne_none _

/-- So it ends the writing, wherever it comes. -/
theorem persist_raises {items : List Item} {item : Item} (hitem : item ∈ items)
    (h : Unwritable item) : (persist items).2 ≠ none := by
  rw [persist_eq]
  intro hok
  exact persistItem_raises h ([], none) (writeRecords_ok_iff.mp hok item hitem)

section Steps

variable {db : Dict} {file : Option Bytes} {r : SaveRun}

/-- A run on a broken file fails, and leaves it as it is. -/
theorem run_broken {e : PyError} (h : (load file ∅).2 = some e) (r : SaveRun) :
    r.run file = (file, some e) := by
  cases file with
  | none => cases h
  | some file => rw [run_some, saveRun_of_error r.callSwift (Prod.ext rfl h)]

/-- So no later run changes it. -/
theorem after_broken (h : Broken file) (runs : List SaveRun) : after runs file = file := by
  obtain ⟨e, he⟩ := h
  induction runs with
  | nil => rfl
  | cons r runs ih =>
    rw [after, List.foldl_cons, run_broken he]
    exact ih

/-- A run on a good file writes what the save loop makes of its dictionary. -/
theorem run_good (h : (load file ∅).2 = none) (r : SaveRun) :
    r.run file =
      (some (persist (r.items (saveLoop r.callSwift (load file ∅).1 r.files))).1,
        (persist (r.items (saveLoop r.callSwift (load file ∅).1 r.files))).2) := by
  cases file with
  | none => rfl
  | some file => rw [run_some, saveRun_of_loads r.callSwift (Prod.ext rfl h)]

/-- Dictionaries with the same items have the same keys. -/
theorem fileAdds_congr {d : Dict} (h : ∀ item, item ∈ d.entries ↔ item ∈ db.entries)
    (callSwift : Bytes → ContentFile → ContentFile) (f : ContentFile) :
    FileAdds callSwift d f ↔ FileAdds callSwift db f := by
  have hkeys : ∀ key, key ∈ d ↔ key ∈ db := by
    intro key
    rw [AList.mem_keys, AList.mem_keys, AList.keys, AList.keys, List.mem_keys, List.mem_keys]
    exact exists_congr (fun v => h ⟨key, v⟩)
  simp only [FileAdds, hkeys]

/-- A run that finds nothing new leaves the database as it was. -/
theorem run_keeps (hdb : ∀ item ∈ db.entries, ∃ e : Entry, e.item = item) (h : Holds db file)
    (hadds : ¬ r.Adds db) : Holds db (r.run file).1 ∧ (r.run file).2 = none := by
  have hsame : saveLoop r.callSwift (load file ∅).1 r.files = (load file ∅).1 :=
    saveLoop_same (fun f hf hnew =>
      hadds ⟨f, hf, (fileAdds_congr h.same_items r.callSwift f).mp hnew⟩)
  have hperm := r.items_perm (load file ∅).1
  have hall : ∀ item ∈ r.items (load file ∅).1, ∃ e : Entry, e.item = item :=
    fun item hitem => hdb item ((h.same_items item).mp (hperm.mem_iff.mp hitem))
  have hnodup : (r.items (load file ∅).1).NodupKeys :=
    (List.perm_nodupKeys hperm).mpr (AList.nodupKeys _)
  obtain ⟨es, hes⟩ := exists_map_eq hall
  rw [run_good h.loads, hsame]
  rw [← hes] at hnodup hperm ⊢
  obtain ⟨d, hload, hentries, -⟩ := load_persisted hnodup
  refine ⟨⟨?_, fun item => ?_⟩, (load_persist_entries hnodup).1⟩
  · dsimp only
    rw [hload]
  · dsimp only
    rw [hload, hentries, hperm.mem_iff, h.same_items]

/-- A run with something to add fails, and breaks the file. -/
theorem run_breaks (hdb : ∀ item ∈ db.entries, ∃ e : Entry, e.item = item) (h : Holds db file)
    (hadds : r.Adds db) : Broken (r.run file).1 ∧ (r.run file).2 ≠ none := by
  obtain ⟨f, hf, hnew⟩ := hadds
  have hfound : ∃ f ∈ r.files, FileAdds r.callSwift (load file ∅).1 f :=
    ⟨f, hf, (fileAdds_congr h.same_items r.callSwift f).mpr hnew⟩
  obtain ⟨bad, hbad, hunwritable⟩ := saveLoop_adds r.pattern_length hfound
  obtain ⟨-, hloop⟩ := saveLoop_mixed r.callSwift (load file ∅).1 r.pattern_length
  have hperm := r.items_perm (saveLoop r.callSwift (load file ∅).1 r.files)
  have hbad := hperm.mem_iff.mpr hbad
  have hmixed : ∀ item ∈ r.items (saveLoop r.callSwift (load file ∅).1 r.files),
      (∃ e : Entry, e.item = item) ∨ Unwritable item := by
    intro item hitem
    refine (hloop item (hperm.mem_iff.mp hitem)).imp_left (fun hold => ?_)
    exact hdb item ((h.same_items item).mp hold)
  rw [run_good h.loads]
  refine ⟨?_, persist_raises hbad hunwritable⟩
  rcases entries_or_unwritable hmixed with ⟨es, hes⟩ | ⟨es, item, rest, hitem, hes⟩
  · -- All of them entries: not the one that was added.
    rw [hes] at hbad
    obtain ⟨e, -, rfl⟩ := List.mem_map.mp hbad
    exact absurd hunwritable.no_mbinmap (Option.some_ne_none e.mbinmap)
  · rw [hes]
    exact Option.ne_none_iff_exists'.mp (load_unwritable es hitem rest)

end Steps

section Histories

variable {db : Dict} {file : Option Bytes}

/-- Runs that find nothing new leave the database as it was. -/
theorem after_keeps (hdb : ∀ item ∈ db.entries, ∃ e : Entry, e.item = item) (h : Holds db file)
    {runs : List SaveRun} (hruns : ∀ r ∈ runs, ¬ r.Adds db) : Holds db (after runs file) := by
  induction runs generalizing file with
  | nil => exact h
  | cons r runs ih =>
    have hrun := (run_keeps hdb h (hruns r List.mem_cons_self)).1
    exact ih hrun (fun s hs => hruns s (List.mem_cons_of_mem r hs))

/-- After some runs the database is as it was, or one of them had something to add
and the file is broken. -/
theorem after_cases (hdb : ∀ item ∈ db.entries, ∃ e : Entry, e.item = item) (h : Holds db file)
    (runs : List SaveRun) : Holds db (after runs file) ∨ Broken (after runs file) := by
  induction runs generalizing file with
  | nil => exact Or.inl h
  | cons r runs ih =>
    by_cases hadds : r.Adds db
    · refine Or.inr ?_
      obtain ⟨hbroken, -⟩ := run_breaks hdb h hadds
      rw [after, List.foldl_cons, ← after, after_broken hbroken]
      exact hbroken
    · exact ih (run_keeps hdb h hadds).1

/-- A run with something to add fails on whatever the runs before it left, and
leaves a broken file. -/
theorem run_after_breaks (hdb : ∀ item ∈ db.entries, ∃ e : Entry, e.item = item)
    (h : Holds db file) (before : List SaveRun) {r : SaveRun} (hadds : r.Adds db) :
    Broken (r.run (after before file)).1 ∧ (r.run (after before file)).2 ≠ none := by
  rcases after_cases hdb h before with hholds | ⟨e, he⟩
  · exact run_breaks hdb hholds hadds
  · rw [run_broken he]
    exact ⟨⟨e, he⟩, Option.some_ne_none e⟩

/-- From a broken file nothing is restored. -/
theorem restore_broken {e : PyError} (h : (load file ∅).2 = some e) (order : List (Bytes × ℤ))
    (items : Dict → List Item) (filesDir : Bytes) :
    restoreMetafiles order items filesDir file = ([], some e) := by
  have hload : load file ∅ = ((load file ∅).1, some e) := Prod.ext rfl h
  unfold restoreMetafiles
  rw [hload]

/-- Save runs one after the other on a well-formed database. As long as no run finds
anything new, the database stays as it was. A run that has something to add fails
instead, and its file is the last: it can neither be read nor restored from, every
later run fails on it in the same way, and none of them changes it. -/
theorem first_addition_is_last (hdb : ∀ item ∈ db.entries, ∃ e : Entry, e.item = item)
    (h : Holds db file) (runs : List SaveRun) :
    ((∀ r ∈ runs, ¬ r.Adds db) → Holds db (after runs file)) ∧
      ∀ before r later, runs = before ++ r :: later → r.Adds db →
        (r.run (after before file)).2 ≠ none ∧
          after runs file = (r.run (after before file)).1 ∧
          ∃ e, (∀ s : SaveRun, s.run (after runs file) = (after runs file, some e)) ∧
            ∀ order items filesDir,
              restoreMetafiles order items filesDir (after runs file) = ([], some e) := by
  refine ⟨after_keeps hdb h, ?_⟩
  rintro before r later rfl hadds
  obtain ⟨hbroken, hfailed⟩ := run_after_breaks hdb h before hadds
  have hlast : after (before ++ r :: later) file = (r.run (after before file)).1 := by
    have hnext : after (r :: later) (after before file) =
        after later (r.run (after before file)).1 := rfl
    rw [after_append, hnext, after_broken hbroken]
  obtain ⟨e, he⟩ := hbroken
  rw [← hlast] at he
  exact ⟨hfailed, hlast, e, run_broken he, restore_broken he⟩

end Histories

/-- A run that finds one kilobyte of `deadbeef` with its metadata. -/
def kilobyteRun : SaveRun where
  files := [kilobyte.file]
  items := AList.entries
  callSwift := fun _ f => f
  items_perm := fun _ => List.Perm.refl _
  pattern_length := by
    intro f hf pattern size chunk hsplit
    have hname : kilobyte.file.name.splitOn underscore =
        [kilobyte.pattern, kilobyte.size, kilobyte.chunk] := by
      decide +kernel
    rw [List.mem_singleton.mp hf, hname] at hsplit
    cases hsplit
    exact kilobyte.pattern_length

/-- On a database with one other entry this run is the last that writes. -/
theorem first_addition_is_last_kilobyte :
    ∃ e, ∀ order items filesDir,
      restoreMetafiles order items filesDir
        (after [kilobyteRun] (some (persist [largerEntry.item]).1)) = ([], some e) := by
  have hloads : (load (some (persist [largerEntry.item]).1) ∅).2 = none := by decide +kernel
  have hentries : (load (some (persist [largerEntry.item]).1) ∅).1.entries =
      [largerEntry.item] := by
    decide +kernel
  have hdb : ∀ item ∈ (load (some (persist [largerEntry.item]).1) ∅).1.entries,
      ∃ e : Entry, e.item = item := by
    intro item hitem
    rw [hentries, List.mem_singleton] at hitem
    exact ⟨largerEntry, hitem.symm⟩
  have hadds : kilobyteRun.Adds (load (some (persist [largerEntry.item]).1) ∅).1 := by
    refine ⟨kilobyte.file, List.mem_singleton_self _, kilobyte.key, by decide +kernel, ?_, rfl, rfl⟩
    rw [AList.mem_keys, AList.keys, hentries]
    decide +kernel
  obtain ⟨-, -, e, -, hrestore⟩ := (first_addition_is_last hdb ⟨hloads, fun _ => Iff.rfl⟩
    [kilobyteRun]).2 [] kilobyteRun [] rfl hadds
  exact ⟨e, hrestore⟩

/-- Save runs that start without a database file never save anything: whatever they
find, and however often, no metadata file is ever restored from what they leave. -/
theorem nothing_is_saved (runs : List SaveRun) (order : List (Bytes × ℤ))
    {items : Dict → List Item} (hitems : ∀ db, (items db).Perm db.entries) (filesDir : Bytes) :
    (restoreMetafiles order items filesDir (after runs none)).1 = [] := by
  have hstart : Holds ∅ none := ⟨rfl, fun _ => Iff.rfl⟩
  have hnone : ∀ item ∈ (∅ : Dict).entries, ∃ e : Entry, e.item = item :=
    fun item hitem => absurd hitem List.not_mem_nil
  rcases after_cases hnone hstart runs with ⟨hloads, hsame⟩ | ⟨e, he⟩
  · rcases hload : load (after runs none) ∅ with ⟨d, out⟩
    rw [hload] at hloads hsame
    dsimp only at hloads hsame
    have hempty : d.entries = [] :=
      List.eq_nil_iff_forall_not_mem.mpr (fun item hitem => List.not_mem_nil ((hsame item).mp hitem))
    have hperm := hitems d
    rw [hempty, List.perm_nil] at hperm
    simp only [restoreMetafiles, hload, hloads, hperm]
    rfl
  · rw [restore_broken he]

/-- Two runs that find a content file with its metadata. -/
theorem nothing_is_saved_twice :
    (restoreMetafiles sizeMultipliers AList.entries (ascii "/srv")
      (after [kilobyteRun, kilobyteRun] none)).1 = [] :=
  nothing_is_saved [kilobyteRun, kilobyteRun] sizeMultipliers (fun _ => List.Perm.refl _)
    (ascii "/srv")

end LazyFS.SaveHistory
