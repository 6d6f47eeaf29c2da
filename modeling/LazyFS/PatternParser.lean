import LazyFS.MachineWords

/-!
# Decoding the pattern of a file name

The pattern of a content file is spelled by the first eight characters of its
name, read two at a time by `sscanf` with `%2hhx`. The conversion is laxer
than two hexadecimal digits: it skips white space without counting it and
accepts a sign, a prefix with nothing after it and a single digit. On eight
digits it agrees with the value they spell.
-/

namespace LazyFS.PatternParser

/-- A pattern of four bytes. -/
abbrev Pattern := Fin 4 → UInt8

/-- `isspace` in the C locale. -/
def isSpace (c : UInt8) : Bool := decide (c = 32) || (decide (9 ≤ c) && decide (c ≤ 13))

/-- The value of a hexadecimal digit of either case. -/
def hexValue (c : UInt8) : Option UInt8 :=
  if 48 ≤ c ∧ c ≤ 57 then some (c - 48)
  else if 97 ≤ c ∧ c ≤ 102 then some (c - 87)
  else if 65 ≤ c ∧ c ≤ 70 then some (c - 55)
  else none

/-- At most two characters of a `%2hhx` item, after white space: a sign and a
digit, or one or two digits. Of `0x`, a prefix with no room left for a digit, the
zero is taken, as of any digit that is followed by something else. -/
def scanHexItem : List UInt8 → Option UInt8
  | [] => none
  | c :: rest =>
    if c = 43 then rest.head?.bind hexValue
    else if c = 45 then (rest.head?.bind hexValue).map (fun v => 0 - v)
    else
      match hexValue c with
      | none => none
      | some high =>
        match rest with
        | [] => some high
        | d :: _ =>
          match hexValue d with
          | none => some high
          | some low => some (16 * high + low)

/-- `sscanf(s, "%2hhx", &value)`: the value stored when the result is 1. -/
def sscanf2hhx (s : List UInt8) : Option UInt8 := scanHexItem (s.dropWhile isSpace)

/-- The loop of `parse_pattern` over the remaining array indices. A failed
conversion returns at once and leaves the rest of the array as it was. -/
def parsePairs (s : List UInt8) : List (Fin 4) → Pattern → ℤ × Pattern
  | [], array => (0, array)
  | j :: rest, array =>
    match sscanf2hhx (s.drop (2 * j)) with
    | none => (-1, array)
    | some v => parsePairs s rest (Function.update array j v)

/-- `parse_pattern`. -/
def parsePattern (s : List UInt8) (array : Pattern) : ℤ × Pattern :=
  if s.length < 8 then (-1, array) else parsePairs s [0, 1, 2, 3] array

/-- The text held by a character array: everything before its first zero byte. -/
def cString (buffer : List UInt8) : List UInt8 := buffer.takeWhile (fun c => c ≠ 0)

/-- `strncpy(dst, src, n)`: copy up to the first zero byte, then pad with zeros. -/
def strncpy : List UInt8 → ℕ → List UInt8
  | _, 0 => []
  | [], n + 1 => List.replicate (n + 1) 0
  | c :: src, n + 1 => if c = 0 then List.replicate (n + 1) 0 else c :: strncpy src n

/-- `strncpy` between two pattern arrays, with `n = 4`. -/
def strncpyPattern (src : Pattern) : Pattern :=
  fun j => (strncpy (List.ofFn src) 4).getD j 0

/-- The first eight characters are hexadecimal digits. -/
def SpellsPattern (name : List UInt8) : Prop :=
  8 ≤ name.length ∧ ∀ c ∈ name.take 8, hexValue c ≠ none

/-- Whether a name spells a pattern is computed. -/
instance (name : List UInt8) : Decidable (SpellsPattern name) :=
  inferInstanceAs (Decidable (_ ∧ _))

/-- The value of a digit, and zero for anything else. -/
def hexDigit (c : UInt8) : UInt8 := (hexValue c).getD 0

/-- The four bytes that the first eight digits of a name spell. -/
def spelledPattern (name : List UInt8) : Pattern :=
  fun j => 16 * hexDigit (name.getD (2 * j) 0) + hexDigit (name.getD (2 * j + 1) 0)

/-- No zero byte stands before a nonzero one. -/
def ZeroTailed (pattern : Pattern) : Prop := ∀ i j, i ≤ j → pattern i = 0 → pattern j = 0

/-- Whether nothing follows the first zero byte is computed. -/
instance (pattern : Pattern) : Decidable (ZeroTailed pattern) :=
  inferInstanceAs (Decidable (∀ _ _, _))

/-- A digit is neither white space nor a sign. -/
theorem hexValue_isDigit {c v : UInt8} (h : hexValue c = some v) :
    isSpace c = false ∧ c ≠ 43 ∧ c ≠ 45 := by
  revert h
  revert v
  have hall : ∀ c : UInt8, hexValue c ≠ none → isSpace c = false ∧ c ≠ 43 ∧ c ≠ 45 := by
    decide +kernel
  intro v h
  exact hall c (by rw [h]; exact Option.some_ne_none v)

/-- Two digits convert to the byte they spell. -/
theorem sscanf2hhx_digits {c d high low : UInt8} {rest : List UInt8}
    (hc : hexValue c = some high) (hd : hexValue d = some low) :
    sscanf2hhx (c :: d :: rest) = some (16 * high + low) := by
  obtain ⟨hspace, hplus, hminus⟩ := hexValue_isDigit hc
  have hskip : (c :: d :: rest).dropWhile isSpace = c :: d :: rest := by
    simp only [List.dropWhile_cons, hspace, Bool.false_eq_true, if_false]
  simp only [sscanf2hhx, hskip, scanHexItem, if_neg hplus, if_neg hminus, hc, hd]

/-- A pair of digits converts to the byte that the name spells there. -/
theorem sscanf2hhx_pair {name : List UInt8} (h : SpellsPattern name) (j : Fin 4) :
    sscanf2hhx (name.drop (2 * j)) = some (spelledPattern name j) := by
  obtain ⟨hlen, hhex⟩ := h
  have hdigit : ∀ i < 8, ∃ c v, name[i]? = some c ∧ hexValue c = some v := by
    intro i hi
    have hlt : i < name.length := by omega
    have hmem : name[i] ∈ name.take 8 :=
      List.mem_take_iff_getElem.mpr ⟨i, by omega, rfl⟩
    obtain ⟨v, hv⟩ := Option.ne_none_iff_exists'.mp (hhex _ hmem)
    exact ⟨name[i], v, List.getElem?_eq_getElem hlt, hv⟩
  obtain ⟨c, high, hc, hhigh⟩ := hdigit (2 * j) (by omega)
  obtain ⟨d, low, hd, hlow⟩ := hdigit (2 * j + 1) (by omega)
  have hdrop : name.drop (2 * j) = c :: d :: name.drop (2 * j + 1 + 1) := by
    obtain ⟨hjc, rfl⟩ := List.getElem?_eq_some_iff.mp hc
    obtain ⟨hjd, rfl⟩ := List.getElem?_eq_some_iff.mp hd
    rw [List.drop_eq_getElem_cons hjc, List.drop_eq_getElem_cons hjd]
  rw [hdrop, sscanf2hhx_digits hhigh hlow]
  simp only [spelledPattern, hexDigit, List.getD_eq_getElem?_getD, hc, hd, Option.getD_some,
    hhigh, hlow]

/-- The loop stores every converted value when no conversion fails. -/
theorem parsePairs_ok {s : List UInt8} {js : List (Fin 4)} {v array : Pattern}
    (h : ∀ j ∈ js, sscanf2hhx (s.drop (2 * j)) = some (v j)) :
    parsePairs s js array = (0, fun j => if j ∈ js then v j else array j) := by
  induction js generalizing array with
  | nil => rfl
  | cons i js ih =>
    have hrest : ∀ j ∈ js, sscanf2hhx (s.drop (2 * j)) = some (v j) :=
      fun j hj => h j (List.mem_cons_of_mem i hj)
    simp only [parsePairs, h i List.mem_cons_self, ih hrest, Prod.mk.injEq, true_and]
    funext j
    by_cases hji : j = i
    · subst hji
      simp
    · simp [hji]

/-- Eight digits parse to the pattern they spell, whatever follows them and
whatever the array held. -/
theorem parsePattern_digits {name : List UInt8} (h : SpellsPattern name) (array : Pattern) :
    parsePattern name array = (0, spelledPattern name) := by
  have hall : ∀ j : Fin 4, j ∈ [0, 1, 2, 3] := by decide
  have hlen : ¬ name.length < 8 := Nat.not_lt.mpr h.1
  rw [parsePattern, if_neg hlen, parsePairs_ok fun j _ => sscanf2hhx_pair h j]
  simp only [hall, if_true]

/-- The first eight characters of a name spell what the name spells. -/
theorem spells_take {name : List UInt8} (h : SpellsPattern name) :
    SpellsPattern (name.take 8) ∧ spelledPattern (name.take 8) = spelledPattern name := by
  obtain ⟨hlen, hhex⟩ := h
  refine ⟨⟨by simpa using hlen, fun c hc => hhex c (List.mem_of_mem_take hc)⟩, ?_⟩
  have hget : ∀ i < 8, (name.take 8).getD i 0 = name.getD i 0 := by
    intro i hi
    rw [List.getD_eq_getElem?_getD, List.getElem?_take_of_lt hi, ← List.getD_eq_getElem?_getD]
  funext j
  simp only [spelledPattern, hget (2 * j) (by omega), hget (2 * j + 1) (by omega)]

/-- What `strncpy` leaves at an index: zero from the first zero byte on. -/
theorem strncpy_getD (src : List UInt8) (n j : ℕ) (hj : j < n) :
    (strncpy src n).getD j 0 = if 0 ∈ src.take (j + 1) then 0 else src.getD j 0 := by
  induction n generalizing src j with
  | zero => exact absurd hj (Nat.not_lt_zero j)
  | succ n ih =>
    cases src with
    | nil =>
      simp only [strncpy, List.take_nil, List.not_mem_nil, if_false, List.getD_nil]
      exact List.getD_replicate _ hj
    | cons c src =>
      by_cases hc : c = 0
      · simp only [strncpy, List.take_succ_cons, List.mem_cons, hc, true_or, if_true]
        exact List.getD_replicate _ hj
      · have hc' : ¬ (0 : UInt8) = c := fun h => hc h.symm
        cases j with
        | zero => simp [strncpy, hc, hc']
        | succ j =>
          simp only [strncpy, if_neg hc, List.getD_cons_succ, List.take_succ_cons, List.mem_cons,
            hc', false_or]
          exact ih src j (Nat.lt_of_succ_lt_succ hj)

/-- The characters of a string that are copied are its first `n`. -/
theorem cString_strncpy {src : List UInt8} (hnul : 0 ∉ src) (n : ℕ) :
    cString (strncpy src n) = src.take n := by
  induction n generalizing src with
  | zero => cases src <;> rfl
  | succ n ih =>
    cases src with
    | nil => rfl
    | cons c src =>
      obtain ⟨hc, hsrc⟩ : ¬ 0 = c ∧ 0 ∉ src := by simpa only [List.mem_cons, not_or] using hnul
      have hkeep : decide (c ≠ 0) = true := decide_eq_true (fun h => hc h.symm)
      rw [strncpy, if_neg (fun h => hc h.symm), List.take_succ_cons, ← ih hsrc, cString,
        List.takeWhile_cons, if_pos hkeep, cString]

/-- A pattern byte survives the copy unless a zero byte stands at or before it. -/
theorem strncpyPattern_apply (pattern : Pattern) (j : Fin 4) :
    strncpyPattern pattern j = if ∃ i ≤ j, pattern i = 0 then 0 else pattern j := by
  have hmem : 0 ∈ (List.ofFn pattern).take (j + 1) ↔ ∃ i ≤ j, pattern i = 0 := by
    simp only [List.mem_take_iff_getElem, List.length_ofFn, List.getElem_ofFn]
    constructor
    · rintro ⟨i, hi, h0⟩
      exact ⟨⟨i, by omega⟩, by simp only [Fin.le_def]; omega, h0⟩
    · rintro ⟨i, hi, h0⟩
      exact ⟨i, by rw [Fin.le_def] at hi; omega, h0⟩
  unfold strncpyPattern
  rw [strncpy_getD _ _ _ j.isLt]
  have hget : (List.ofFn pattern).getD j 0 = pattern j := by
    rw [List.getD_eq_getElem _ _ (by simp only [List.length_ofFn, j.isLt]), List.getElem_ofFn]
  simp only [hmem, hget]

/-- Copying a pattern as a string keeps it exactly when it is zero-tailed. -/
theorem strncpyPattern_eq_iff (pattern : Pattern) :
    strncpyPattern pattern = pattern ↔ ZeroTailed pattern := by
  constructor
  · intro h i j hij hi
    have hj := strncpyPattern_apply pattern j
    rw [h, if_pos ⟨i, hij, hi⟩] at hj
    exact hj
  · intro h
    funext j
    rw [strncpyPattern_apply]
    split_ifs with hz
    · obtain ⟨i, hij, hi⟩ := hz
      exact (h i j hij hi).symm
    · rfl

end LazyFS.PatternParser
