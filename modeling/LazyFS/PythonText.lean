import LazyFS.PathNames
import LazyFS.PatternParser

/-!
# Byte strings and numbers of the Python tools

The tools keep names and numbers in byte strings. `pyInt` is `int` of a string:
white space around the number and after its sign is skipped, and anything else
that is no digit is an error. A number that was printed is read back.
-/

namespace LazyFS.PythonText

open PathNames PatternParser

/-- A `str` of Python 2. -/
abbrev Bytes := List UInt8

/-- The exceptions that the tools run into. -/
inductive PyError where
  | ioError
  | valueError
  | keyError
  | typeError
  | structError
  | overflowError
  | memoryError
  | zlibError
  | nameError
  deriving DecidableEq, Repr

/-- The character `'_'`. -/
def underscore : UInt8 := 95

/-- A decimal digit. -/
def isDigit (c : UInt8) : Bool := decide (48 ≤ c) && decide (c ≤ 57)

/-- The number that decimal digits spell. -/
def digitsValue (digits : Bytes) : ℕ := digits.foldl (fun n c => 10 * n + (c.toNat - 48)) 0

/-- Whether a minus sign comes first, and what follows the sign. -/
def takeSign : Bytes → Bool × Bytes
  | [] => (false, [])
  | c :: s => if c = 45 then (true, s) else if c = 43 then (false, s) else (false, c :: s)

/-- `int(s)`. -/
def pyInt (s : Bytes) : Except PyError ℤ :=
  let (negative, s) := takeSign (s.dropWhile isSpace)
  let s := s.dropWhile isSpace
  let digits := s.takeWhile isDigit
  if digits = [] ∨ (s.dropWhile isDigit).dropWhile isSpace ≠ [] then .error .valueError
  else .ok (if negative then -(digitsValue digits : ℤ) else digitsValue digits)

/-- The decimal digits of a number. -/
def decimal (n : ℕ) : Bytes := (Nat.toDigits 10 n).map (fun c => c.toNat.toUInt8)

/-- `"%s" % n`. -/
def pyStr (n : ℤ) : Bytes := if n < 0 then 45 :: decimal n.natAbs else decimal n.natAbs

/-- `"%s_%s_%s" % (pattern, size, chunk)`. -/
def formatKey (pattern size chunk : Bytes) : Bytes :=
  pattern ++ underscore :: (size ++ underscore :: chunk)

/-- A digit character is a digit byte of the same value. -/
theorem digit_byte {c : Char} (h : c.isDigit) :
    isDigit c.toNat.toUInt8 = true ∧ c.toNat.toUInt8.toNat = c.toNat := by
  have hrange : 48 ≤ c.toNat ∧ c.toNat ≤ 57 := by
    simpa [Char.isDigit, UInt32.le_iff_toNat_le] using h
  have hbyte : c.toNat.toUInt8.toNat = c.toNat := by
    simp only [Nat.toUInt8, UInt8.toNat_ofNat']
    omega
  refine ⟨?_, hbyte⟩
  simp only [isDigit, Bool.and_eq_true, decide_eq_true_eq, UInt8.le_iff_toNat_le, hbyte]
  exact hrange

/-- A number is printed in digits. -/
theorem isDigit_of_mem_decimal {n : ℕ} {c : UInt8} (h : c ∈ decimal n) : isDigit c = true := by
  obtain ⟨d, hd, rfl⟩ := List.mem_map.mp h
  exact (digit_byte (Nat.isDigit_of_mem_toDigits (by decide) (by decide) hd)).1

/-- A number has at least one digit. -/
theorem decimal_ne_nil (n : ℕ) : decimal n ≠ [] := by
  simp [decimal, Nat.toDigits_ne_nil]

/-- The digits of a number spell it. -/
theorem digitsValue_decimal (n : ℕ) : digitsValue (decimal n) = n := by
  have hfold : ∀ (digits : List Char) (m : ℕ), (∀ c ∈ digits, c.isDigit) →
      (digits.map (fun c => c.toNat.toUInt8)).foldl (fun n c => 10 * n + (c.toNat - 48)) m =
        Nat.ofDigitChars 10 digits m := by
    intro digits
    induction digits with
    | nil => intro m _; simp
    | cons c digits ih =>
      intro m hdigits
      have hbyte := (digit_byte (hdigits c List.mem_cons_self)).2
      rw [List.map_cons, List.foldl_cons, hbyte,
        ih _ (fun d hd => hdigits d (List.mem_cons_of_mem c hd)), Nat.ofDigitChars_cons]
      rfl
  unfold digitsValue decimal
  rw [hfold _ _ (fun c hc => Nat.isDigit_of_mem_toDigits (by decide) (by decide) hc)]
  exact Nat.ofDigitChars_ten_toDigits

/-- A digit is neither a space, nor a sign, nor an underscore. -/
theorem isDigit_spec {c : UInt8} (h : isDigit c = true) :
    isSpace c = false ∧ c ≠ 45 ∧ c ≠ 43 ∧ c ≠ underscore := by
  revert h
  revert c
  decide +kernel

/-- A string of digits is read as the number it spells. -/
theorem pyInt_digits {s : Bytes} (hne : s ≠ []) (hs : ∀ c ∈ s, isDigit c = true) :
    pyInt s = .ok (digitsValue s) := by
  cases s with
  | nil => exact absurd rfl hne
  | cons c s =>
    obtain ⟨hspace, hminus, hplus, -⟩ := isDigit_spec (hs c List.mem_cons_self)
    have hskip : (c :: s).dropWhile isSpace = c :: s := by
      simp only [List.dropWhile_cons, hspace, Bool.false_eq_true, if_false]
    have hsign : takeSign (c :: s) = (false, c :: s) := by
      simp only [takeSign, if_neg hminus, if_neg hplus]
    have htake : (c :: s).takeWhile isDigit = c :: s := List.takeWhile_eq_self_iff.mpr hs
    have hdrop : (c :: s).dropWhile isDigit = [] := List.dropWhile_eq_nil_iff.mpr hs
    simp [pyInt, hskip, hsign, htake, hdrop]

/-- What a skipped prefix does not hold is behind it. -/
theorem mem_dropWhile_or {p : UInt8 → Bool} {s : Bytes} {c : UInt8} (h : c ∈ s) :
    p c = true ∨ c ∈ s.dropWhile p := by
  rw [← List.takeWhile_append_dropWhile (p := p) (l := s), List.mem_append] at h
  exact h.imp_left List.mem_takeWhile_imp

/-- A number is written in spaces, signs and digits, so an underscore is in none. -/
theorem underscore_notMem_of_pyInt {s : Bytes} {n : ℤ} (h : pyInt s = .ok n) : underscore ∉ s := by
  intro hmem
  have hspace : isSpace underscore ≠ true := by decide
  have hdigit : isDigit underscore ≠ true := by decide
  have htrim := (mem_dropWhile_or hmem).resolve_left hspace
  have hsign : underscore ∈ (takeSign (s.dropWhile isSpace)).2 := by
    cases hs : s.dropWhile isSpace with
    | nil => simp [hs] at htrim
    | cons c t =>
      rw [hs] at htrim
      dsimp only [takeSign]
      split_ifs with hminus hplus
      · have hne : underscore ≠ c := fun heq => absurd (heq.trans hminus) (by decide)
        exact (List.mem_cons.mp htrim).resolve_left hne
      · have hne : underscore ≠ c := fun heq => absurd (heq.trans hplus) (by decide)
        exact (List.mem_cons.mp htrim).resolve_left hne
      · exact htrim
  have hnumber := (mem_dropWhile_or hsign).resolve_left hspace
  have hbehind := (mem_dropWhile_or hnumber).resolve_left hdigit
  have hrest := (mem_dropWhile_or hbehind).resolve_left hspace
  simp only [pyInt] at h
  split_ifs at h with hbad
  all_goals
    rw [not_or, not_not] at hbad
    rw [hbad.2] at hrest
    exact absurd hrest List.not_mem_nil

/-- A printed number is read back. -/
theorem pyInt_decimal (n : ℕ) : pyInt (decimal n) = .ok n := by
  rw [pyInt_digits (decimal_ne_nil n) (fun _ => isDigit_of_mem_decimal), digitsValue_decimal]

/-- A number is printed in digits. -/
theorem notMem_decimal {c : UInt8} (h : isDigit c = false) (n : ℕ) : c ∉ decimal n := by
  intro hmem
  rw [isDigit_of_mem_decimal hmem] at h
  cases h

/-- An integer is printed in digits, behind its sign. -/
theorem notMem_pyStr {c : UInt8} (h : isDigit c = false) (hminus : c ≠ 45) (n : ℤ) :
    c ∉ pyStr n := by
  unfold pyStr
  split_ifs
  · rw [List.mem_cons, not_or]
    exact ⟨hminus, notMem_decimal h _⟩
  · exact notMem_decimal h _

/-- A printed number contains no underscore. -/
theorem underscore_notMem_decimal (n : ℕ) : underscore ∉ decimal n := notMem_decimal (by decide) n

/-- Nor does a printed integer. -/
theorem underscore_notMem_pyStr (n : ℤ) : underscore ∉ pyStr n :=
  notMem_pyStr (by decide) (by decide) n

/-- A key splits into the parts of its pattern, its size and its chunk size. -/
theorem splitOn_formatKey_parts {pattern size chunk : Bytes} (hs : underscore ∉ size)
    (hc : underscore ∉ chunk) :
    (formatKey pattern size chunk).splitOn underscore =
      pattern.splitOn underscore ++ [size, chunk] := by
  unfold formatKey
  rw [List.splitOn_append_cons_self, List.splitOn_append_cons_self, List.splitOn_eq_singleton hs,
    List.splitOn_eq_singleton hc]
  rfl

/-- A key splits into the three strings it was formatted from. -/
theorem splitOn_formatKey {pattern size chunk : Bytes} (hp : underscore ∉ pattern)
    (hs : underscore ∉ size) (hc : underscore ∉ chunk) :
    (formatKey pattern size chunk).splitOn underscore = [pattern, size, chunk] := by
  rw [splitOn_formatKey_parts hs hc, List.splitOn_eq_singleton hp]
  rfl

/-- A string that splits into one part contains no separator. -/
theorem underscore_notMem_of_splitOn {s part : Bytes} (h : s.splitOn underscore = [part]) :
    underscore ∉ s := by
  intro hmem
  obtain ⟨front, back, rfl⟩ := List.append_of_mem hmem
  rw [List.splitOn_append_cons_self] at h
  have hfront := List.length_pos_iff.mpr (List.splitOn_ne_nil underscore front)
  have hback := List.length_pos_iff.mpr (List.splitOn_ne_nil underscore back)
  have hlength := congrArg List.length h
  simp only [List.length_append, List.length_singleton] at hlength
  omega

/-- If a key splits into three parts, they are those it was formatted from. -/
theorem splitOn_formatKey_eq {pattern size chunk a b c : Bytes} (hs : underscore ∉ size)
    (hc : underscore ∉ chunk)
    (h : (formatKey pattern size chunk).splitOn underscore = [a, b, c]) :
    underscore ∉ pattern ∧ a = pattern ∧ b = size ∧ c = chunk := by
  rw [splitOn_formatKey_parts hs hc] at h
  have hthree : [a, b, c] = [a] ++ [b, c] := rfl
  rw [hthree] at h
  obtain ⟨hpattern, hparts⟩ := List.append_inj' h rfl
  have hflat := underscore_notMem_of_splitOn hpattern
  rw [List.splitOn_eq_singleton hflat] at hpattern
  cases hpattern
  cases hparts
  exact ⟨hflat, rfl, rfl, rfl⟩

/-- A key determines the size and the chunk size it was formatted from, and so
the pattern. -/
theorem formatKey_inj {pattern size chunk pattern' size' chunk' : Bytes}
    (hs : underscore ∉ size) (hc : underscore ∉ chunk) (hs' : underscore ∉ size')
    (hc' : underscore ∉ chunk')
    (h : formatKey pattern size chunk = formatKey pattern' size' chunk') :
    pattern = pattern' ∧ size = size' ∧ chunk = chunk' := by
  have hsplit := congrArg (List.splitOn underscore) h
  rw [splitOn_formatKey_parts hs hc, splitOn_formatKey_parts hs' hc'] at hsplit
  obtain ⟨hpattern, hparts⟩ := List.append_inj' hsplit rfl
  have hjoin := congrArg (fun parts => [underscore].intercalate parts) hpattern
  simp only [List.intercalate_splitOn] at hjoin
  simp only [List.cons.injEq, and_true] at hparts
  exact ⟨hjoin, hparts⟩

/-- Different numbers are printed differently. -/
theorem decimal_injective {n m : ℕ} (h : decimal n = decimal m) : n = m := by
  rw [← digitsValue_decimal n, h, digitsValue_decimal]

/-- A number that is printed like a natural number is that number. -/
theorem pyStr_eq_decimal_iff {n : ℤ} {m : ℕ} : pyStr n = decimal m ↔ n = m := by
  constructor
  · intro h
    unfold pyStr at h
    split_ifs at h with hneg
    · have hsign : (45 : UInt8) ∈ decimal m := h ▸ List.mem_cons_self
      exact absurd rfl (isDigit_spec (isDigit_of_mem_decimal hsign)).2.1
    · have habs := decimal_injective h
      omega
  · intro h
    rw [h]
    exact if_neg (by omega)

end LazyFS.PythonText
