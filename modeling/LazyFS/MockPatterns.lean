import LazyFS.RestoredNames

/-!
# Mock files and their patterns

Mock files are named by random patterns of eight hexadecimal digits. The
generator draws until it finds a pattern that is neither in the store, under the
same size and chunk size, nor among those it selected before. The digits are
those of a number in base sixteen, in lower case and filled up with zeros.
-/

namespace LazyFS.MockPatterns

open MachineWords PathNames PatternParser PythonText ByteRecords MetaDatabase RestoredNames

/-- A hexadecimal digit as a character. -/
def hexChar (d : ℕ) : UInt8 := (Nat.digitChar d).toNat.toUInt8

/-- The hexadecimal digits of a number. -/
def hexDigits (n : ℕ) : Bytes := (Nat.toDigits 16 n).map (fun c => c.toNat.toUInt8)

/-- `hex(n)`. -/
def pyHex (n : ℕ) : Bytes := ascii "0x" ++ hexDigits n

/-- `rand_pattern`, for the number that `randint(0x0000000, 0xFFFFFFFF)` draws. -/
def randPattern (v : UInt32) : Bytes :=
  let p := ((pyHex v.toNat).drop 2).map lower
  if p.length < 8 then List.replicate (8 - p.length) 48 ++ p else p

/-- The body of the loop of `get_existing_files`. -/
def scanFile (size chunksize : Bytes) (existing : List Bytes) (f : Bytes) :
    Except PyError (List Bytes) :=
  match f.splitOn underscore with
  | [pattern, s, cs] =>
    .ok (if s = size ∧ cs = chunksize then existing ++ [pattern.map lower] else existing)
  | _ => .error .valueError

/-- `get_existing_files`, for the file names that `walk` finds in each directory. -/
def getExistingFiles (walk : List (List Bytes)) (size chunksize : Bytes) :
    Except PyError (List Bytes) :=
  walk.flatten.foldlM (scanFile size chunksize) []

/-- Draw until the pattern is not selected yet. The result is that pattern and the
draws that are left; there is none if the draws do not hold one. -/
def freshPattern (selected : Finset Bytes) : List UInt32 → Option (Bytes × List UInt32)
  | [] => none
  | v :: draws =>
    if randPattern v ∈ selected then freshPattern selected draws else some (randPattern v, draws)

/-- The loop of `gen_random_patterns` with `nfiles` patterns to go. -/
def genLoop : (nfiles : ℕ) → (selected : Finset Bytes) → (patterns : List Bytes) →
    List UInt32 → Option (List Bytes)
  | 0, _, patterns, _ => some patterns
  | nfiles + 1, selected, patterns, draws =>
    match freshPattern selected draws with
    | none => none
    | some (p, draws) => genLoop nfiles (insert p selected) (patterns ++ [p]) draws

/-- `gen_random_patterns`, if it ends on these draws. -/
def genRandomPatterns (existing : List Bytes) (nfiles : ℕ) (draws : List UInt32) :
    Option (List Bytes) :=
  genLoop nfiles existing.toFinset [] draws

/-- `f.truncate(n)` of a file that is open for writing. -/
def pyTruncate (n : ℤ) : Except PyError ℤ :=
  if n < 0 then .error .ioError else if n > offMax then .error .overflowError else .ok n

/-- The path that the main loop opens for a pattern. -/
def mockPath (lfsstore size chunksize p : Bytes) : Bytes :=
  pathJoin lfsstore (formatKey p size chunksize)

/-- Files created one after the other, with their sizes, and the exception that
ended the main loop if one did. -/
abbrev FilesCreated := List (Bytes × ℤ) × Option PyError

/-- One iteration of the main loop. A file whose size is refused is there, and empty. -/
def createMock (lfsstore size chunksize p : Bytes) : FilesCreated :=
  match parseSize size >>= pyTruncate with
  | .ok n => ([(mockPath lfsstore size chunksize p, n)], none)
  | .error e => ([(mockPath lfsstore size chunksize p, 0)], some e)

/-- A run of the tool, if the generation ends on these draws. -/
def mocksRun (lfsstore : Bytes) (walk : List (List Bytes)) (nfiles : ℕ) (size chunksize : Bytes)
    (draws : List UInt32) : Option FilesCreated :=
  match getExistingFiles walk size chunksize with
  | .error e => some ([], some e)
  | .ok existing =>
    match genRandomPatterns existing nfiles draws with
    | none => none
    | some patterns => some (writeRecords (createMock lfsstore size chunksize) patterns)

/-- A lower-case hexadecimal digit. -/
def isLowerHex (c : UInt8) : Bool :=
  (decide (48 ≤ c) && decide (c ≤ 57)) || (decide (97 ≤ c) && decide (c ≤ 102))

/-- Eight lower-case hexadecimal digits. -/
structure MockPattern (p : Bytes) : Prop where
  length : p.length = 8
  digits : ∀ c ∈ p, isLowerHex c = true

/-- The digits of a number with exactly `k` places. -/
def paddedHex : (k : ℕ) → ℕ → Bytes
  | 0, _ => []
  | k + 1, n => paddedHex k (n / 16) ++ [hexChar (n % 16)]

/-- A digit is a lower-case digit, which `lower` keeps, and spells its value. -/
theorem hexChar_spec {d : ℕ} (h : d < 16) :
    isLowerHex (hexChar d) = true ∧ lower (hexChar d) = hexChar d ∧
      hexValue (hexChar d) = some (UInt8.ofNat d) := by
  revert h
  revert d
  decide +kernel

/-- A lower-case digit stays as it is, and separates no parts. -/
theorem isLowerHex_spec {c : UInt8} (h : isLowerHex c = true) : lower c = c ∧ c ≠ underscore := by
  revert h
  revert c
  decide +kernel

/-- Lower-case digits stay as they are. -/
theorem map_lower_of_isLowerHex {s : Bytes} (h : ∀ c ∈ s, isLowerHex c = true) :
    s.map lower = s := by
  have hsame : ∀ c ∈ s, lower c = id c := fun c hc => (isLowerHex_spec (h c hc)).1
  rw [List.map_congr_left hsame, List.map_id]

/-- The padded number has the digits asked for. -/
theorem paddedHex_length (k n : ℕ) : (paddedHex k n).length = k := by
  induction k generalizing n with
  | zero => rfl
  | succ k ih => rw [paddedHex, List.length_append, ih, List.length_singleton]

/-- Zero is written as zeros. -/
theorem paddedHex_zero (k : ℕ) : paddedHex k 0 = List.replicate k 48 := by
  induction k with
  | zero => rfl
  | succ k ih =>
    rw [paddedHex, Nat.zero_div, ih, List.replicate_succ']
    rfl

/-- Each place of the padded digits. -/
theorem paddedHex_getElem? {k i : ℕ} (n : ℕ) (h : i < k) :
    (paddedHex k n)[i]? = some (hexChar (n / 16 ^ (k - 1 - i) % 16)) := by
  induction k generalizing n with
  | zero => exact absurd h (Nat.not_lt_zero i)
  | succ k ih =>
    rw [paddedHex]
    rcases Nat.lt_succ_iff_lt_or_eq.mp h with hlt | rfl
    · have hplace : k + 1 - 1 - i = (k - 1 - i) + 1 := by omega
      rw [List.getElem?_append_left (by rw [paddedHex_length]; exact hlt), ih (n / 16) hlt, hplace,
        Nat.pow_succ', Nat.div_div_eq_div_mul]
    · have hlast : i + 1 - 1 - i = 0 := by omega
      rw [List.getElem?_append_right (by rw [paddedHex_length]), paddedHex_length, Nat.sub_self,
        hlast, Nat.pow_zero, Nat.div_one]
      rfl

/-- Every padded digit is a lower-case digit. -/
theorem isLowerHex_of_mem_paddedHex {k n : ℕ} {c : UInt8} (h : c ∈ paddedHex k n) :
    isLowerHex c = true := by
  induction k generalizing n with
  | zero => cases h
  | succ k ih =>
    rcases List.mem_append.mp h with hfront | hlast
    · exact ih hfront
    · rw [List.mem_singleton.mp hlast]
      exact (hexChar_spec (Nat.mod_lt n (by decide))).1

/-- Filling up the digits of a number with zeros gives its padded digits. -/
theorem replicate_append_hexDigits {k n : ℕ} (h : (hexDigits n).length ≤ k) :
    List.replicate (k - (hexDigits n).length) 48 ++ hexDigits n = paddedHex k n := by
  induction k generalizing n with
  | zero =>
    have hne : hexDigits n ≠ [] := by simp [hexDigits, Nat.toDigits_ne_nil]
    exact absurd (List.length_eq_zero_iff.mp (Nat.le_zero.mp h)) hne
  | succ k ih =>
    rw [paddedHex]
    by_cases hsmall : n < 16
    · have hdigits : hexDigits n = [hexChar n] := by
        rw [hexDigits, Nat.toDigits_of_lt_base hsmall]
        rfl
      rw [hdigits, Nat.mod_eq_of_lt hsmall, Nat.div_eq_of_lt hsmall, paddedHex_zero]
      rfl
    · have hdigits : hexDigits n = hexDigits (n / 16) ++ [hexChar (n % 16)] := by
        rw [hexDigits, Nat.toDigits_of_base_le (by decide) (Nat.not_lt.mp hsmall), List.map_append]
        rfl
      have hlen : (hexDigits n).length = (hexDigits (n / 16)).length + 1 := by
        rw [hdigits, List.length_append, List.length_singleton]
      rw [← ih (n := n / 16) (by omega), hlen, hdigits, Nat.add_sub_add_right, List.append_assoc]

/-- A drawn pattern is its number in eight digits. -/
theorem randPattern_eq (v : UInt32) : randPattern v = paddedHex 8 v.toNat := by
  have hlen : (hexDigits v.toNat).length ≤ 8 := by
    have hlt : v.toNat < 16 ^ 8 := v.toNat_lt
    rw [hexDigits, List.length_map]
    exact (Nat.length_toDigits_le_iff (by decide) (by decide)).mpr hlt
  have hpadded := replicate_append_hexDigits hlen
  have hlower : (hexDigits v.toNat).map lower = hexDigits v.toNat := by
    apply map_lower_of_isLowerHex
    intro c hc
    have hmem : c ∈ paddedHex 8 v.toNat := hpadded ▸ List.mem_append_right _ hc
    exact isLowerHex_of_mem_paddedHex hmem
  have hdrop : (pyHex v.toNat).drop 2 = hexDigits v.toNat := List.drop_left' rfl
  simp only [randPattern, hdrop, hlower]
  split_ifs with hshort
  · exact hpadded
  · have hfull : 8 - (hexDigits v.toNat).length = 0 := by omega
    rw [← hpadded, hfull]
    rfl

/-- It has eight lower-case digits. -/
theorem randPattern_mockPattern (v : UInt32) : MockPattern (randPattern v) := by
  rw [randPattern_eq]
  exact ⟨paddedHex_length 8 _, fun c hc => isLowerHex_of_mem_paddedHex hc⟩

end LazyFS.MockPatterns
