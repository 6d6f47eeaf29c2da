import LazyFS.FailedPersist
import LazyFS.SeparatedWords

/-!
# What a database of text lines keeps

A key is written into its line with spaces for the underscores, and nothing is escaped.
So a dictionary that is persisted is loaded back if and only if no key of it holds a
space or the end of a line. A key with one of them is not loaded from any file.
-/

namespace LazyFS.TextRoundTrip

open PathNames PythonText ByteRecords MetaDatabase DatabaseRoundTrip TextDatabase FailedPersist
  SeparatedWords
open MachineWords (bind_eq_ok)

/-- A payload that is encoded into one word and decoded again, with or without the end
of the line behind it. -/
def Survives (codec : Codec) (s : Bytes) : Prop :=
  ∃ text, codec.encode s = .ok text ∧ (space ∉ text ∧ newline ∉ text) ∧
    codec.decode text = .ok s ∧ codec.decode (text ++ [newline]) = .ok s

/-- An item whose key has three parts, and whose payloads are encoded and decoded. -/
structure Writable (codec : Codec) (item : Item) : Prop where
  parts : ∃ pattern size chunk, item.1.splitOn underscore = [pattern, size, chunk]
  mbinmap : ∃ s, item.2.mbinmap = some s ∧ Survives codec s
  mhash : ∃ s, item.2.mhash = some s ∧ Survives codec s

/-- A key without the two characters that separate words and lines. -/
def Unbroken (key : Bytes) : Prop := space ∉ key ∧ newline ∉ key

variable {codec : Codec}

/-- A key is formatted from its parts. -/
theorem eq_formatKey {key pattern size chunk : Bytes}
    (h : key.splitOn underscore = [pattern, size, chunk]) : key = formatKey pattern size chunk := by
  have hjoined : [underscore].intercalate (key.splitOn underscore) = key :=
    List.intercalate_splitOn underscore
  rw [h, List.intercalate_cons_cons, List.intercalate_cons_cons, List.intercalate_singleton]
    at hjoined
  rw [← hjoined, formatKey]
  simp only [List.append_assoc, List.singleton_append]

/-- A writable item with an unbroken key is an entry of the database. -/
theorem exists_textEntry {item : Item} (h : Writable codec item) (hkey : Unbroken item.1) :
    ∃ e : TextEntry codec, e.item = item := by
  obtain ⟨pattern, size, chunk, hparts⟩ := h.parts
  obtain ⟨mbinmap, hmbinmap, mbinmapText, hencb, hflatb, hdecb, -⟩ := h.mbinmap
  obtain ⟨mhash, hmhash, mhashText, hench, hflath, -, hdech⟩ := h.mhash
  have hformat := eq_formatKey hparts
  have hplain : ∀ part ∈ [pattern, size, chunk], Plain part := by
    intro part hpart
    have hsub : ∀ c ∈ part, c ∈ item.1 := by
      intro c hc
      rw [hformat, formatKey]
      simp only [List.mem_cons, List.not_mem_nil, or_false] at hpart
      rcases hpart with rfl | rfl | rfl <;> simp [hc]
    exact ⟨notMem_of_mem_splitOn (hparts ▸ hpart), fun hc => hkey.1 (hsub _ hc),
      fun hc => hkey.2 (hsub _ hc)⟩
  refine ⟨⟨pattern, size, chunk, mbinmap, mhash, mbinmapText, mhashText, hplain _ (by simp),
    hplain _ (by simp), hplain _ (by simp), hencb, hench, hflatb, hflath, hdecb, hdech⟩, ?_⟩
  obtain ⟨key, value⟩ := item
  obtain ⟨b, h⟩ := value
  dsimp only at hformat hmbinmap hmhash
  rw [TextEntry.item, hformat, hmbinmap, hmhash]

/-- A writable item is written, whatever its key holds. -/
theorem persistText_writable {items : List Item} (h : ∀ item ∈ items, Writable codec item) :
    (persistText codec items).2 = none := by
  induction items with
  | nil => rfl
  | cons item items ih =>
    obtain ⟨pattern, size, chunk, hparts⟩ := (h item List.mem_cons_self).parts
    obtain ⟨mbinmap, hmbinmap, mbinmapText, hencb, -⟩ := (h item List.mem_cons_self).mbinmap
    obtain ⟨mhash, hmhash, mhashText, hench, -⟩ := (h item List.mem_cons_self).mhash
    have hrest := ih fun item hitem => h item (List.mem_cons_of_mem _ hitem)
    have hline : itemLine codec item =
        .ok (formatLine pattern size chunk mbinmapText mhashText) := by
      rw [itemLine, hparts]
      dsimp only
      rw [hmbinmap, hmhash]
      simp only [pyString, bind, Except.bind, hencb, hench, pure, Except.pure]
    have hcons : persistText codec (item :: items) =
        emitResult (itemLine codec item) (persistText codec items) := rfl
    rw [hcons, hline, emitResult, emit]
    exact hrest

/-- A line ends at most once. -/
theorem readline_cases (s : Bytes) :
    ∃ front back, (readline s).1 = front ++ back ∧ newline ∉ front ∧ back.length ≤ 1 := by
  refine ⟨s.takeWhile (fun c => c ≠ newline), _, rfl, fun hmem => ?_, ?_⟩
  · have hne := List.mem_takeWhile_imp hmem
    simp at hne
  · rw [List.length_take]
    exact Nat.min_le_left _ _

/-- What is in front of something in a line does not end it. -/
theorem newline_notMem_of_readline {s front : Bytes} {c : UInt8} {back : Bytes}
    (h : (readline s).1 = front ++ c :: back) : newline ∉ front := by
  obtain ⟨line, rest, hline, hflat, hshort⟩ := readline_cases s
  intro hmem
  have hlength : front.length ≤ line.length := by
    have hsum := congrArg List.length (h.symm.trans hline)
    simp only [List.length_append, List.length_cons] at hsum
    omega
  have hfront : front <+: (readline s).1 := ⟨c :: back, h.symm⟩
  have hwhole : line <+: (readline s).1 := ⟨rest, hline.symm⟩
  exact hflat ((List.prefix_of_prefix_length_le hfront hwhole hlength).subset hmem)

/-- The key of a line that is loaded is unbroken. -/
theorem nextLine_unbroken {s rest : Bytes} {item : Item}
    (h : nextLine codec s = .ok (item, rest)) : Unbroken item.1 := by
  rw [nextLine] at h
  dsimp only at h
  split at h
  case h_2 => cases h
  case h_1 pattern size chunk mbinmap mhash hwords =>
    obtain ⟨b, -, h⟩ := bind_eq_ok.mp h
    obtain ⟨m, -, h⟩ := bind_eq_ok.mp h
    cases h
    have hspace : ∀ w ∈ [pattern, size, chunk], space ∉ w := by
      intro w hw
      refine notMem_of_mem_splitOn (s := (readline s).1) ?_
      rw [hwords]
      simp only [List.mem_cons, List.not_mem_nil, or_false] at hw ⊢
      tauto
    have hjoined : [space].intercalate ((readline s).1.splitOn space) = (readline s).1 :=
      List.intercalate_splitOn space
    rw [hwords, List.intercalate_cons_cons, List.intercalate_cons_cons,
      List.intercalate_cons_cons] at hjoined
    have hline : (readline s).1 = (pattern ++ space :: (size ++ space :: chunk)) ++
        space :: [space].intercalate [mbinmap, mhash] := by
      rw [← hjoined]
      simp only [List.append_assoc, List.cons_append, List.nil_append]
    have hnewline := newline_notMem_of_readline hline
    have hunder : space ≠ underscore ∧ newline ≠ underscore := by decide
    simp only [List.mem_append, List.mem_cons, not_or] at hnewline
    constructor
    · simp only [formatKey, List.mem_append, List.mem_cons, not_or]
      simp [hspace, hunder.1]
    · simp [formatKey, hnewline, hunder.2]

/-- No key that is loaded from a file is broken. -/
theorem loaded_unbroken (codec : Codec) (file : Option Bytes) {key : Bytes}
    (h : (loadText codec file ∅).1.lookup key ≠ none) : Unbroken key := by
  cases file with
  | none => exact absurd rfl h
  | some s =>
    have hall : ∀ key, (loadText codec (some s) ∅).1.lookup key ≠ none → Unbroken key := by
      refine readRecords_rule (I := fun d : Dict => ∀ key, d.lookup key ≠ none → Unbroken key) s ∅
        (fun key h => absurd (AList.lookup_empty key) h) ?_
      intro d t item rest hd hnext key hkey
      by_cases hsame : key = item.1
      · rw [hsame]
        exact nextLine_unbroken hnext
      · rw [AList.lookup_insert_ne hsame] at hkey
        exact hd key hkey
    exact hall key h

/-- A dictionary whose payloads are encoded and decoded is written by `persist`, in
whatever order its items are enumerated, and it is what `load` makes of the file if and
only if no key holds a space or the end of a line. No file makes `load` install a key
that does. -/
theorem text_database_loads_back_iff {db : Dict} {items : List Item}
    (hdb : ∀ item ∈ db.entries, Writable codec item) (hitems : items.Perm db.entries) :
    (persistText codec items).2 = none ∧
      (((loadText codec (some (persistText codec items).1) ∅).2 = none ∧
        ∀ key, (loadText codec (some (persistText codec items).1) ∅).1.lookup key =
          db.lookup key) ↔
        ∀ key ∈ db.keys, Unbroken key) ∧
      ∀ (file : Option Bytes) (key : Bytes), (loadText codec file ∅).1.lookup key ≠ none →
        Unbroken key := by
  have hwritable : ∀ item ∈ items, Writable codec item :=
    fun item hi => hdb item (hitems.mem_iff.mp hi)
  refine ⟨persistText_writable hwritable, ⟨fun h key hkey => ?_, fun hkeys => ?_⟩,
    fun file key => loaded_unbroken codec file⟩
  · refine loaded_unbroken codec (some (persistText codec items).1) ?_
    rw [h.2 key]
    exact Option.isSome_iff_ne_none.mp (AList.lookup_isSome.mpr hkey)
  · have hentries : ∀ item ∈ items, ∃ e : TextEntry codec, e.item = item := by
      intro item hi
      have hmem : item.1 ∈ db.keys := List.mem_map_of_mem (hitems.mem_iff.mp hi)
      exact exists_textEntry (hwritable item hi) (hkeys item.1 hmem)
    have hnodup : items.NodupKeys := (List.perm_nodupKeys hitems).mpr db.nodupKeys
    have hload := (Database.text codec).load_persisted hentries [] ∅
    rw [List.append_nil] at hload
    have hrest : ∀ d, (Database.text codec).load (some []) d = (d, none) := fun _ => rfl
    rw [hrest] at hload
    have hfile : loadText codec (some (persistText codec items).1) ∅ = _ := hload
    rw [hfile]
    refine ⟨rfl, fun key => ?_⟩
    rw [lookup_foldl_insert hnodup, AList.lookup_empty, Option.or_none,
      List.perm_dlookup key hnodup hitems]
    rfl

/-- One item, whose payloads are both the letter `a`. -/
def letterEntries (key : Bytes) : Dict where
  entries := [⟨key, some (ascii "a"), some (ascii "a")⟩]
  nodupKeys := List.nodupKeys_singleton _

/-- A key is loaded back, and one with a space is not. -/
theorem text_database_loads_back_iff_letter :
    (∀ key, (loadText letterCodec
        (some (persistText letterCodec (letterEntries (ascii "deadbeef_1_8")).entries).1)
          ∅).1.lookup key = (letterEntries (ascii "deadbeef_1_8")).lookup key) ∧
      ¬ ∀ key, (loadText letterCodec
        (some (persistText letterCodec (letterEntries (ascii "dead eef_1_8")).entries).1)
          ∅).1.lookup key = (letterEntries (ascii "dead eef_1_8")).lookup key := by
  have hsurvives : Survives letterCodec (ascii "a") :=
    ⟨ascii "eJxLBAAAYgBi", by decide +kernel⟩
  have hwritable : ∀ key pattern size chunk, key.splitOn underscore = [pattern, size, chunk] →
      ∀ item ∈ (letterEntries key).entries, Writable letterCodec item := by
    intro key pattern size chunk hparts item hi
    rw [List.mem_singleton.mp hi]
    exact ⟨⟨pattern, size, chunk, hparts⟩, ⟨_, rfl, hsurvives⟩, ⟨_, rfl, hsurvives⟩⟩
  constructor
  · refine ((text_database_loads_back_iff (hwritable _ (ascii "deadbeef") (ascii "1") (ascii "8")
      (by decide +kernel)) (List.Perm.refl _)).2.1.mpr fun key hkey => ?_).2
    rw [List.mem_singleton.mp hkey]
    exact ⟨by decide, by decide⟩
  · intro hall
    have hlookup := hall (ascii "dead eef_1_8")
    have hunbroken : Unbroken (ascii "dead eef_1_8") := by
      refine loaded_unbroken letterCodec
        (some (persistText letterCodec (letterEntries (ascii "dead eef_1_8")).entries).1) ?_
      rw [hlookup]
      decide +kernel
    exact hunbroken.1 (by decide)

end LazyFS.TextRoundTrip
