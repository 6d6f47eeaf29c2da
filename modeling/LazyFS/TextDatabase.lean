import LazyFS.DatabaseRoundTrip

/-!
# The database of text lines

`MetaDB`, the base class of the binary database, keeps one line for each entry:
the three parts of the key and the two payloads, compressed and in base 64,
with a space between them. A payload is encoded while its line is formatted, so
a line is written as a whole or not at all. Entries whose strings contain none of
the separators are read back, whatever follows them.
-/

namespace LazyFS.TextDatabase

open PathNames PythonText ByteRecords MetaDatabase DatabaseRoundTrip
open MachineWords (bind_eq_ok)

/-- The character `' '`. -/
def space : UInt8 := 32

/-- The character `'\\n'`. -/
def newline : UInt8 := 10

/-- The modules `base64` and `zlib`, as far as the database uses them. -/
structure Codec where
  /-- `b64encode(compress(s))`. -/
  encode : Bytes → Except PyError Bytes
  /-- `decompress(b64decode(s))`. -/
  decode : Bytes → Except PyError Bytes

/-- `"%s %s %s %s %s\\n"`. -/
def formatLine (pattern size chunk mbinmap mhash : Bytes) : Bytes :=
  pattern ++ space :: (size ++ space :: (chunk ++ space :: (mbinmap ++ space ::
    (mhash ++ [newline]))))

/-- `f.readline()`: the bytes up to the next end of a line, and those left. -/
def readline (s : Bytes) : Bytes × Bytes :=
  let rest := s.dropWhile (fun c => c ≠ newline)
  (s.takeWhile (fun c => c ≠ newline) ++ rest.take 1, rest.drop 1)

section Codec

variable (codec : Codec)

/-- The line of an item. -/
def itemLine (item : Item) : Except PyError Bytes :=
  match item.1.splitOn underscore with
  | [pattern, size, chunk] => do
    let mbinmap ← pyString item.2.mbinmap >>= codec.encode
    let mhash ← pyString item.2.mhash >>= codec.encode
    return formatLine pattern size chunk mbinmap mhash
  | _ => throw .valueError

/-- One iteration of the loop of `MetaDB.persist`. -/
def persistLine (item : Item) (rest : Written) : Written := emitResult (itemLine codec item) rest

/-- `MetaDB.persist` of the items in the order they are enumerated in: the file
afterwards, and the exception if one was raised. -/
def persistText (items : List Item) : Written := items.foldr (persistLine codec) ([], none)

/-- The body of the loop of `MetaDB.load`, up to the assignment. -/
def nextLine (s : Bytes) : Except PyError (Item × Bytes) := do
  let (line, s) := readline s
  match line.splitOn space with
  | [pattern, size, chunk, mbinmap, mhash] =>
    let mbinmap ← codec.decode mbinmap
    let mhash ← codec.decode mhash
    return (⟨formatKey pattern size chunk, some mbinmap, some mhash⟩, s)
  | _ => throw .valueError

/-- `MetaDB.load`: the dictionary afterwards, and the exception that escaped if
one did. A file that cannot be opened loads nothing. -/
def loadText (file : Option Bytes) (db : Dict) : Dict × Option PyError :=
  match file with
  | none => (db, none)
  | some s => readRecords (nextLine codec) (fun d item => d.insert item.1 item.2) s db

/-- A string without any of the three separators. -/
structure Plain (s : Bytes) : Prop where
  no_underscore : underscore ∉ s
  no_space : space ∉ s
  no_newline : newline ∉ s

/-- A well-formed entry of a text database. -/
structure TextEntry where
  pattern : Bytes
  size : Bytes
  chunk : Bytes
  mbinmap : Bytes
  mhash : Bytes
  /-- What the payloads are encoded as. -/
  mbinmapText : Bytes
  mhashText : Bytes
  /-- The parts of the key contain no separator. -/
  pattern_plain : Plain pattern
  size_plain : Plain size
  chunk_plain : Plain chunk
  /-- The payloads are encoded. -/
  encode_mbinmap : codec.encode mbinmap = .ok mbinmapText
  encode_mhash : codec.encode mhash = .ok mhashText
  /-- The result fits into a line. -/
  mbinmapText_flat : space ∉ mbinmapText ∧ newline ∉ mbinmapText
  mhashText_flat : space ∉ mhashText ∧ newline ∉ mhashText
  /-- It is decoded again. -/
  decode_mbinmap : codec.decode mbinmapText = .ok mbinmap
  /-- The end of the line does not matter. -/
  decode_mhash : codec.decode (mhashText ++ [newline]) = .ok mhash

variable {codec}

/-- The dictionary item of an entry. -/
def TextEntry.item (e : TextEntry codec) : Item :=
  ⟨formatKey e.pattern e.size e.chunk, some e.mbinmap, some e.mhash⟩

/-- The line that an entry is written as. -/
def TextEntry.line (e : TextEntry codec) : Bytes :=
  formatLine e.pattern e.size e.chunk e.mbinmapText e.mhashText

/-- Items are persisted one after the other. -/
theorem persistText_eq (items : List Item) :
    persistText codec items = writeRecords (fun item => persistText codec [item]) items :=
  foldr_eq_writeRecords (fun item => emitResult_andThen (itemLine codec item)) items

/-- An entry is written as its line. -/
theorem itemLine_entry (e : TextEntry codec) : itemLine codec e.item = .ok e.line := by
  have hsplit : e.item.1.splitOn underscore = [e.pattern, e.size, e.chunk] :=
    splitOn_formatKey e.pattern_plain.no_underscore e.size_plain.no_underscore
      e.chunk_plain.no_underscore
  have hmbinmap : pyString e.item.2.mbinmap >>= codec.encode = .ok e.mbinmapText :=
    e.encode_mbinmap
  have hmhash : pyString e.item.2.mhash >>= codec.encode = .ok e.mhashText := e.encode_mhash
  rw [itemLine, hsplit]
  dsimp only
  rw [hmbinmap, hmhash]
  rfl

/-- Entries are written one after the other. -/
theorem persistText_entries (es : List (TextEntry codec)) :
    persistText codec (es.map TextEntry.item) = (es.flatMap TextEntry.line, none) := by
  rw [persistText_eq]
  refine writeRecords_written (fun e => ?_) es
  have hline : persistText codec [e.item] = emitResult (itemLine codec e.item) ([], none) := rfl
  rw [hline, itemLine_entry, emitResult, emit, List.append_nil]

/-- A line is read up to its end. -/
theorem readline_append {s : Bytes} (h : newline ∉ s) (rest : Bytes) :
    readline (s ++ newline :: rest) = (s ++ [newline], rest) := by
  have hs : ∀ c ∈ s, decide (c ≠ newline) = true := by
    intro c hc
    have hne : c ≠ newline := fun heq => h (heq ▸ hc)
    exact decide_eq_true hne
  have htake : (s ++ newline :: rest).takeWhile (fun c => c ≠ newline) = s := by
    rw [List.takeWhile_append_of_pos hs]
    simp
  have hdrop : (s ++ newline :: rest).dropWhile (fun c => c ≠ newline) = newline :: rest := by
    rw [List.dropWhile_append_of_pos hs]
    simp
  simp only [readline, htake, hdrop, List.take_succ_cons, List.take_zero, List.drop_succ_cons,
    List.drop_zero]

/-- The line of an entry is read as a whole, whatever follows. -/
theorem readline_line (e : TextEntry codec) (rest : Bytes) :
    readline (e.line ++ rest) = (e.line, rest) := by
  have hwords : ∀ tail, e.line ++ tail = (e.pattern ++ space :: (e.size ++ space :: (e.chunk ++
      space :: (e.mbinmapText ++ space :: e.mhashText)))) ++ newline :: tail := by
    intro tail
    simp [TextEntry.line, formatLine]
  have hspace : newline ≠ space := by decide
  have hplain : newline ∉ e.pattern ++ space :: (e.size ++ space :: (e.chunk ++
      space :: (e.mbinmapText ++ space :: e.mhashText))) := by
    simp [hspace, e.pattern_plain.no_newline, e.size_plain.no_newline, e.chunk_plain.no_newline,
      e.mbinmapText_flat.2, e.mhashText_flat.2]
  have hline := hwords []
  rw [List.append_nil] at hline
  rw [hwords rest, readline_append hplain, ← hline]

/-- It splits into the words it was formatted from. -/
theorem splitOn_line (e : TextEntry codec) :
    e.line.splitOn space =
      [e.pattern, e.size, e.chunk, e.mbinmapText, e.mhashText ++ [newline]] := by
  have hlast : space ∉ e.mhashText ++ [newline] := by
    have hspace : space ≠ newline := by decide
    simp [hspace, e.mhashText_flat.1]
  unfold TextEntry.line formatLine
  rw [List.splitOn_append_cons_self_of_not_mem e.pattern_plain.no_space,
    List.splitOn_append_cons_self_of_not_mem e.size_plain.no_space,
    List.splitOn_append_cons_self_of_not_mem e.chunk_plain.no_space,
    List.splitOn_append_cons_self_of_not_mem e.mbinmapText_flat.1,
    List.splitOn_eq_singleton hlast]

/-- A line is read back as its entry, whatever follows. -/
theorem nextLine_line (e : TextEntry codec) (rest : Bytes) :
    e.line ++ rest ≠ [] ∧ nextLine codec (e.line ++ rest) = .ok (e.item, rest) := by
  constructor
  · simp [TextEntry.line, formatLine]
  · rw [nextLine, readline_line]
    dsimp only
    rw [splitOn_line]
    dsimp only
    rw [e.decode_mbinmap, e.decode_mhash]
    rfl

/-- A line takes at least its end from the file. -/
theorem readline_length {s : Bytes} (h : s ≠ []) : (readline s).2.length < s.length := by
  have hpos := List.length_pos_iff.mpr h
  have hrest := (List.dropWhile_sublist (fun c => c ≠ newline) (l := s)).length_le
  simp only [readline, List.length_drop]
  omega

/-- A line that is read makes the rest shorter. -/
theorem nextLine_consumes : Consumes (nextLine codec) := by
  intro s item rest hs h
  rw [nextLine] at h
  dsimp only at h
  split at h
  · obtain ⟨mbinmap, -, h⟩ := bind_eq_ok.mp h
    obtain ⟨mhash, -, h⟩ := bind_eq_ok.mp h
    cases h
    exact readline_length hs
  · cases h

/-- Lines in front of a file are loaded before the rest is read. -/
theorem loadText_lines (es : List (TextEntry codec)) (tail : Bytes) (db : Dict) :
    loadText codec (some (es.flatMap TextEntry.line ++ tail)) db =
      loadText codec (some tail)
        ((es.map TextEntry.item).foldl (fun d item => d.insert item.1 item.2) db) :=
  readRecords_written nextLine_consumes (fun e _ rest => nextLine_line e rest) tail db

end Codec

end LazyFS.TextDatabase
