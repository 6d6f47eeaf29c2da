import LazyFS.TextDatabase

/-!
# Numbers with a point

`float` of a string reads a sign, digits with a point among them, and an exponent;
white space around all this is skipped. The values are exact here. What was printed,
with a point or without one, is read back.
-/

namespace LazyFS.PythonFloats

open PathNames PatternParser PythonText

/-- `s.strip()`. -/
def strip (s : Bytes) : Bytes := (s.dropWhile isSpace).rdropWhile isSpace

/-- The digits in front of a point, those behind it, and the rest. -/
def takeDigits (s : Bytes) : Bytes × Bytes × Bytes :=
  match s.dropWhile isDigit with
  | 46 :: rest => (s.takeWhile isDigit, rest.takeWhile isDigit, rest.dropWhile isDigit)
  | rest => (s.takeWhile isDigit, [], rest)

/-- The exponent that the rest of a number spells. -/
def exponent : Bytes → Option ℤ
  | [] => some 0
  | c :: s =>
    let (negative, digits) := takeSign s
    if (c = 101 ∨ c = 69) ∧ digits ≠ [] ∧ digits.all isDigit = true then
      some (if negative then -(digitsValue digits : ℤ) else digitsValue digits)
    else none

/-- The number that a string without a sign spells. -/
def unsignedValue (s : Bytes) : Option ℚ :=
  let (whole, fraction, rest) := takeDigits s
  if whole ++ fraction = [] then none
  else (exponent rest).map (fun (e : ℤ) =>
    (digitsValue (whole ++ fraction) : ℚ) * 10 ^ (e - fraction.length))

/-- A letter in lower case. -/
def toLower (c : UInt8) : UInt8 := if 65 ≤ c ∧ c ≤ 90 then c + 32 else c

/-- An infinity, or what is not a number. -/
def isSpecial (s : Bytes) : Bool :=
  decide (s.map toLower ∈ [ascii "inf", ascii "infinity", ascii "nan"])

/-- `float(s)`. An infinity, and what is not a number, have no value. -/
def pyFloat (s : Bytes) : Except PyError (Option ℚ) :=
  let (negative, s) := takeSign (strip s)
  match unsignedValue s with
  | some q => .ok (some (if negative then -q else q))
  | none => if isSpecial s then .ok none else .error .valueError

/-- `long(s)`: like `int(s)`, with an `L` behind the digits or without one. -/
def pyLong (s : Bytes) : Except PyError ℤ :=
  let (negative, s) := takeSign (s.dropWhile isSpace)
  let s := s.dropWhile isSpace
  let digits := s.takeWhile isDigit
  let rest := s.dropWhile isDigit
  let rest := if rest.head? = some 76 ∨ rest.head? = some 108 then rest.tail else rest
  if digits = [] ∨ rest.dropWhile isSpace ≠ [] then .error .valueError
  else .ok (if negative then -(digitsValue digits : ℤ) else digitsValue digits)

/-- The last decimal digits of a number, with zeros in front. -/
def fixedDigits : ℕ → ℕ → Bytes
  | 0, _ => []
  | width + 1, n => fixedDigits width (n / 10) ++ [(48 + n % 10).toUInt8]

/-- `"%f"` of a number of millionths. -/
def formatFixed (millionths : ℕ) : Bytes :=
  decimal (millionths / 10 ^ 6) ++ 46 :: fixedDigits 6 (millionths % 10 ^ 6)

/-- They are as many as asked for. -/
theorem length_fixedDigits (width n : ℕ) : (fixedDigits width n).length = width := by
  induction width generalizing n with
  | zero => rfl
  | succ width ih => rw [fixedDigits, List.length_append, ih, List.length_singleton]

/-- A digit is printed as a digit of its value. -/
theorem digit_spec {d : ℕ} (h : d < 10) :
    isDigit (48 + d).toUInt8 = true ∧ (48 + d).toUInt8.toNat - 48 = d := by
  revert h
  revert d
  decide

/-- They are digits. -/
theorem isDigit_of_mem_fixedDigits {width n : ℕ} {c : UInt8} (h : c ∈ fixedDigits width n) :
    isDigit c = true := by
  induction width generalizing n with
  | zero => cases h
  | succ width ih =>
    rcases List.mem_append.mp h with hfront | hlast
    · exact ih hfront
    · rw [List.mem_singleton.mp hlast]
      exact (digit_spec (Nat.mod_lt n (by decide))).1

/-- Digits in front count for as many tens as there are digits behind them. -/
theorem digitsValue_append (s t : Bytes) :
    digitsValue (s ++ t) = digitsValue s * 10 ^ t.length + digitsValue t := by
  have hfold : ∀ m, t.foldl (fun n c => 10 * n + (c.toNat - 48)) m =
      m * 10 ^ t.length + digitsValue t := by
    unfold digitsValue
    induction t with
    | nil => intro m; simp
    | cons c t ih =>
      intro m
      rw [List.foldl_cons, List.foldl_cons, ih, ih (10 * 0 + _), List.length_cons, pow_succ]
      ring
  rw [digitsValue, List.foldl_append, hfold]
  rfl

/-- A number below the power of ten is printed as a whole. -/
theorem digitsValue_fixedDigits {width n : ℕ} (h : n < 10 ^ width) :
    digitsValue (fixedDigits width n) = n := by
  induction width generalizing n with
  | zero =>
    rw [Nat.lt_one_iff.mp h]
    rfl
  | succ width ih =>
    have hfront : n / 10 < 10 ^ width := by
      rw [pow_succ] at h
      exact Nat.div_lt_of_lt_mul (by omega)
    have hlast : digitsValue [(48 + n % 10).toUInt8] = n % 10 := by
      have hdigit := (digit_spec (Nat.mod_lt n (show 0 < 10 by decide))).2
      simp only [digitsValue, List.foldl_cons, List.foldl_nil, hdigit]
      omega
    rw [fixedDigits, digitsValue_append, ih hfront, hlast, List.length_singleton]
    omega

/-- A string without white space is not stripped. -/
theorem strip_eq {s : Bytes} (h : ∀ c ∈ s, isSpace c = false) : strip s = s := by
  have hfront : s.dropWhile isSpace = s := by
    cases s with
    | nil => rfl
    | cons c s => rw [List.dropWhile_cons, h c List.mem_cons_self, if_neg Bool.false_ne_true]
  rw [strip, hfront, List.rdropWhile_eq_self_iff]
  intro hne hlast
  rw [h _ (List.getLast_mem hne)] at hlast
  cases hlast

/-- A string that begins with a digit has no sign. -/
theorem takeSign_digit {c : UInt8} (h : isDigit c = true) (s : Bytes) :
    takeSign (c :: s) = (false, c :: s) := by
  obtain ⟨-, hminus, hplus, -⟩ := isDigit_spec h
  rw [takeSign, if_neg hminus, if_neg hplus]

/-- Digits spell a number. -/
theorem unsignedValue_digits {s : Bytes} (hne : s ≠ []) (hs : ∀ c ∈ s, isDigit c = true) :
    unsignedValue s = some (digitsValue s : ℚ) := by
  have htake : s.takeWhile isDigit = s := List.takeWhile_eq_self_iff.mpr hs
  have hdrop : s.dropWhile isDigit = [] := List.dropWhile_eq_nil_iff.mpr hs
  simp [unsignedValue, takeDigits, htake, hdrop, hne, exponent]

/-- So do digits with a point among them. -/
theorem unsignedValue_point {s t : Bytes} (hne : s ≠ []) (hs : ∀ c ∈ s, isDigit c = true)
    (ht : ∀ c ∈ t, isDigit c = true) :
    unsignedValue (s ++ 46 :: t) = some ((digitsValue (s ++ t) : ℚ) / 10 ^ t.length) := by
  have hpoint : isDigit 46 = false := by decide
  have htake : (s ++ 46 :: t).takeWhile isDigit = s := by
    rw [List.takeWhile_append_of_pos hs, List.takeWhile_cons, hpoint, if_neg Bool.false_ne_true,
      List.append_nil]
  have hdrop : (s ++ 46 :: t).dropWhile isDigit = 46 :: t := by
    rw [List.dropWhile_append_of_pos hs, List.dropWhile_cons, hpoint, if_neg Bool.false_ne_true]
  have htake' : t.takeWhile isDigit = t := List.takeWhile_eq_self_iff.mpr ht
  have hdrop' : t.dropWhile isDigit = [] := List.dropWhile_eq_nil_iff.mpr ht
  have hpower : (10 : ℚ) ^ ((0 : ℤ) - t.length) = (10 ^ t.length)⁻¹ := by
    rw [zero_sub, zpow_neg, zpow_natCast]
  simp only [unsignedValue, takeDigits, htake, hdrop, htake', hdrop', List.append_eq_nil_iff, hne,
    false_and, if_false, exponent, Option.map_some, hpower, div_eq_mul_inv]

/-- A printed number with a point is read back. -/
theorem pyFloat_formatFixed (n : ℕ) : pyFloat (formatFixed n) = .ok (some ((n : ℚ) / 10 ^ 6)) := by
  have hwhole : ∀ c ∈ decimal (n / 10 ^ 6), isDigit c = true := fun _ => isDigit_of_mem_decimal
  have hfraction : ∀ c ∈ fixedDigits 6 (n % 10 ^ 6), isDigit c = true :=
    fun _ => isDigit_of_mem_fixedDigits
  have hspace : ∀ c ∈ formatFixed n, isSpace c = false := by
    intro c hc
    rcases List.mem_append.mp hc with hc | hc
    · exact (isDigit_spec (hwhole c hc)).1
    rcases List.mem_cons.mp hc with rfl | hc
    · decide
    · exact (isDigit_spec (hfraction c hc)).1
  have hsign : takeSign (formatFixed n) = (false, formatFixed n) := by
    rw [formatFixed]
    cases hdigits : decimal (n / 10 ^ 6) with
    | nil => exact absurd hdigits (decimal_ne_nil _)
    | cons c s => exact takeSign_digit (hwhole c (hdigits ▸ List.mem_cons_self)) _
  have hvalue : digitsValue (decimal (n / 10 ^ 6) ++ fixedDigits 6 (n % 10 ^ 6)) = n := by
    rw [digitsValue_append, digitsValue_decimal, length_fixedDigits,
      digitsValue_fixedDigits (Nat.mod_lt n (by decide))]
    exact Nat.div_add_mod' n (10 ^ 6)
  have hnumber : unsignedValue (formatFixed n) = some ((n : ℚ) / 10 ^ 6) := by
    rw [formatFixed, unsignedValue_point (decimal_ne_nil _) hwhole hfraction, hvalue,
      length_fixedDigits]
  rw [pyFloat, strip_eq hspace, hsign]
  simp only [hnumber, Bool.false_eq_true, if_false]

/-- So is a whole number. -/
theorem pyFloat_pyStr (n : ℤ) : pyFloat (pyStr n) = .ok (some (n : ℚ)) := by
  have hdigits : ∀ c ∈ decimal n.natAbs, isDigit c = true := fun _ => isDigit_of_mem_decimal
  have hspace : ∀ c ∈ decimal n.natAbs, isSpace c = false :=
    fun c hc => (isDigit_spec (hdigits c hc)).1
  have hnumber : unsignedValue (decimal n.natAbs) = some (n.natAbs : ℚ) := by
    rw [unsignedValue_digits (decimal_ne_nil _) hdigits, digitsValue_decimal]
  unfold pyStr
  split_ifs with hneg
  · have hminus : ∀ c ∈ 45 :: decimal n.natAbs, isSpace c = false := by
      intro c hc
      rcases List.mem_cons.mp hc with rfl | hc
      · decide
      · exact hspace c hc
    have habs : ((n.natAbs : ℕ) : ℚ) = -(n : ℚ) := by
      rw [Nat.cast_natAbs, abs_of_neg hneg, Int.cast_neg]
    rw [pyFloat, strip_eq hminus, takeSign, if_pos rfl]
    simp only [hnumber, if_true, habs, neg_neg]
  · have hsign : takeSign (decimal n.natAbs) = (false, decimal n.natAbs) := by
      cases hs : decimal n.natAbs with
      | nil => exact absurd hs (decimal_ne_nil _)
      | cons c s => exact takeSign_digit (hdigits c (hs ▸ List.mem_cons_self)) s
    have habs : ((n.natAbs : ℕ) : ℚ) = (n : ℚ) := by
      rw [Nat.cast_natAbs, abs_of_nonneg (not_lt.mp hneg)]
    rw [pyFloat, strip_eq hspace, hsign]
    simp only [hnumber, Bool.false_eq_true, if_false, habs]

/-- A printed number is read back by `long`. -/
theorem pyLong_pyStr (n : ℤ) : pyLong (pyStr n) = .ok n := by
  have hdigits : ∀ c ∈ decimal n.natAbs, isDigit c = true := fun _ => isDigit_of_mem_decimal
  have hskip : (decimal n.natAbs).dropWhile isSpace = decimal n.natAbs := by
    cases hs : decimal n.natAbs with
    | nil => rfl
    | cons c s =>
      rw [List.dropWhile_cons, (isDigit_spec (hdigits c (hs ▸ List.mem_cons_self))).1,
        if_neg Bool.false_ne_true]
  have htake : (decimal n.natAbs).takeWhile isDigit = decimal n.natAbs :=
    List.takeWhile_eq_self_iff.mpr hdigits
  have hdrop : (decimal n.natAbs).dropWhile isDigit = [] := List.dropWhile_eq_nil_iff.mpr hdigits
  unfold pyStr
  split_ifs with hneg
  · have hminus : (45 :: decimal n.natAbs).dropWhile isSpace = 45 :: decimal n.natAbs := rfl
    rw [pyLong, hminus, takeSign, if_pos rfl]
    simp [hskip, htake, hdrop, decimal_ne_nil, digitsValue_decimal, abs_of_neg hneg]
  · have hsign : takeSign (decimal n.natAbs) = (false, decimal n.natAbs) := by
      cases hs : decimal n.natAbs with
      | nil => exact absurd hs (decimal_ne_nil _)
      | cons c s => exact takeSign_digit (hdigits c (hs ▸ List.mem_cons_self)) s
    have habs : |n| = n := abs_of_nonneg (not_lt.mp hneg)
    rw [pyLong, hskip, hsign]
    simp [hskip, htake, hdrop, decimal_ne_nil, digitsValue_decimal, habs]

/-- A closing parenthesis is in no number. -/
theorem pyFloat_parenthesis {s : Bytes} (h : 41 ∈ s) : pyFloat s = .error .valueError := by
  have hdigit : isDigit 41 ≠ true := by decide
  have hsigned : ∀ s : Bytes, 41 ∈ s → 41 ∈ (takeSign s).2 := by
    intro s hs
    cases s with
    | nil => cases hs
    | cons c s =>
      rw [takeSign]
      split_ifs with hminus hplus
      · exact (List.mem_cons.mp hs).resolve_left (fun heq => absurd (heq.trans hminus) (by decide))
      · exact (List.mem_cons.mp hs).resolve_left (fun heq => absurd (heq.trans hplus) (by decide))
      · exact hs
  have hexponent : ∀ s : Bytes, 41 ∈ s → exponent s = none := by
    intro s hs
    cases s with
    | nil => cases hs
    | cons c s =>
      refine if_neg ?_
      intro hgood
      obtain ⟨hletter, -, hall⟩ := hgood
      have hrest : 41 ∈ s := by
        refine (List.mem_cons.mp hs).resolve_left fun heq => ?_
        rw [← heq] at hletter
        revert hletter
        decide
      exact hdigit (List.all_eq_true.mp hall 41 (hsigned s hrest))
  have hvalue : ∀ s : Bytes, 41 ∈ s → unsignedValue s = none := by
    intro s hs
    have hrest : 41 ∈ (takeDigits s).2.2 := by
      have hbehind := (mem_dropWhile_or hs).resolve_left hdigit
      unfold takeDigits
      split
      case h_1 rest hpoint =>
        rw [hpoint] at hbehind
        have hbehind := (List.mem_cons.mp hbehind).resolve_left (by decide)
        exact (mem_dropWhile_or hbehind).resolve_left hdigit
      case h_2 => exact hbehind
    simp only [unsignedValue, hexponent _ hrest, Option.map_none, ite_self]
  have hstrip : 41 ∈ strip s := by
    have hspace : isSpace 41 ≠ true := by decide
    have hfront := (mem_dropWhile_or h).resolve_left hspace
    rw [strip, List.rdropWhile, List.mem_reverse]
    exact (mem_dropWhile_or (List.mem_reverse.mpr hfront)).resolve_left hspace
  have hspecial : isSpecial (takeSign (strip s)).2 = false := by
    refine decide_eq_false fun hmem => ?_
    have hlower : (41 : UInt8) ∈ (takeSign (strip s)).2.map toLower :=
      List.mem_map.mpr ⟨41, hsigned _ hstrip, by decide⟩
    generalize (takeSign (strip s)).2.map toLower = word at hmem hlower
    fin_cases hmem
    all_goals
      revert hlower
      decide
  simp only [pyFloat, hvalue _ (hsigned _ hstrip), hspecial, Bool.false_eq_true, if_false]

end LazyFS.PythonFloats
