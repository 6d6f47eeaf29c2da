import LazyFS.MetaDatabase

/-!
# Sizes in compact form

`compact_size` prints a number of bytes with a unit. Its loop looks for the largest
unit that the number reaches, but the number is then divided by the unit that
the loop happens to end with, and by 1024 once more. Whether that is the unit
which is printed depends on the order in which the dictionary of the units is
enumerated. Divisibility is not tested, since the quotients compared are the
same integer.
-/

namespace LazyFS.CompactSizes

open PathNames PythonText MetaDatabase

/-- `SIZE_MULTIPLIERS.items()`, in the order of the source. -/
def sizeMultipliers : List (Bytes × ℤ) :=
  [(ascii "kb", 1024), (ascii "mb", 1024 * 1024), (ascii "gb", 1024 * 1024 * 1024),
    (ascii "tb", 1024 * 1024 * 1024 * 1024)]

/-- `int(n)` of an integer. -/
def intOf (n : ℤ) : ℤ := n

/-- The variables of the loop of `compact_size`. Before they are assigned, `r` and
`m` are unbound. -/
structure Loop where
  mmax : ℤ
  r : Option Bytes
  m : Option ℤ

/-- One iteration, with integers divided as Python 2 does, rounding down. -/
def Loop.next (bytes : ℤ) (l : Loop) (unit : Bytes × ℤ) : Loop :=
  let (s, m) := unit
  if bytes.fdiv m = intOf (bytes.fdiv m) ∧ bytes.fdiv m > 0 ∧ l.mmax < m then ⟨m, some s, some m⟩
  else { l with m := some m }

/-- `compact_size`, after its `int(bytes)`, when the units are enumerated in some order. -/
def compactSize (order : List (Bytes × ℤ)) (bytes : ℤ) : Except PyError Bytes :=
  let l := order.foldl (Loop.next bytes) ⟨0, none, none⟩
  match l.m, l.r with
  | some m, some r => .ok (pyStr ((bytes.fdiv m).fdiv 1024) ++ r)
  | _, _ => .error .nameError

/-- A size is printed, and read back as the same number. -/
def RoundTrips (order : List (Bytes × ℤ)) (n : ℕ) : Prop :=
  (compactSize order n >>= parseSize) = .ok (n : ℤ)

/-- The enumeration ends with some unit, the size is a multiple of the unit above
it, and it does not reach the one above that, if there is one. -/
def SizeFits (order : List (Bytes × ℤ)) (n : ℕ) : Prop :=
  ∃ j ∈ [1, 2, 3], order.getLast?.map Prod.snd = some (1024 ^ j) ∧ 1024 ^ (j + 1) ∣ n ∧
    (j < 3 → n < 1024 ^ (j + 2))

/-- Whether a size comes back is computed. -/
instance (order : List (Bytes × ℤ)) (n : ℕ) : Decidable (RoundTrips order n) :=
  inferInstanceAs (Decidable (_ = _))

/-- Whether a size fits its text is computed. -/
instance (order : List (Bytes × ℤ)) (n : ℕ) : Decidable (SizeFits order n) :=
  inferInstanceAs (Decidable (∃ j ∈ [1, 2, 3], _))

/-- The unit that is printed: the largest that the number reaches. -/
structure Largest (n : ℤ) (units : List (Bytes × ℤ)) (unit : Bytes × ℤ) : Prop where
  mem : unit ∈ units
  reached : unit.2 ≤ n
  le : ∀ other ∈ units, other.2 ≤ n → other.2 ≤ unit.2

/-- What the loop has found in the units it has seen. -/
structure Found (n : ℤ) (seen : List (Bytes × ℤ)) (l : Loop) : Prop where
  /-- The loop variable is the last of them. -/
  last : l.m = seen.getLast?.map Prod.snd
  /-- The other two belong to the largest unit that is reached, if one is. -/
  best : (l.mmax = 0 ∧ l.r = none ∧ ∀ unit ∈ seen, n < unit.2) ∨
    ∃ unit, Largest n seen unit ∧ l.mmax = unit.2 ∧ l.r = some unit.1

/-- A number to a power, divided by a power and by the base, is the number again
only if the power is the next one and divides it. -/
theorem div_pow_mul_pow_eq_iff {b n : ℕ} (hb : 1 < b) (hn : 0 < n) (j k : ℕ) :
    n / b ^ j / b * b ^ k = n ↔ k = j + 1 ∧ b ^ k ∣ n := by
  have hquot : n / b ^ j / b = n / b ^ (j + 1) := by rw [Nat.div_div_eq_div_mul, pow_succ]
  rw [hquot]
  constructor
  · intro h
    have hq : 0 < n / b ^ (j + 1) := by
      rcases Nat.eq_zero_or_pos (n / b ^ (j + 1)) with hzero | hpos
      · rw [hzero, Nat.zero_mul] at h
        omega
      · exact hpos
    have hle : n / b ^ (j + 1) * b ^ (j + 1) ≤ n := Nat.div_mul_le_self n _
    have hlt : n < (n / b ^ (j + 1) + 1) * b ^ (j + 1) :=
      (Nat.div_lt_iff_lt_mul (Nat.pow_pos (by omega))).mp (Nat.lt_succ_self _)
    have hk : k = j + 1 := by
      rcases Nat.lt_trichotomy k (j + 1) with hless | heq | hmore
      · have hpow := Nat.pow_lt_pow_right hb hless
        have hmul := (Nat.mul_lt_mul_left hq).mpr hpow
        omega
      · exact heq
      · have hpow : b ^ (j + 1) * b ≤ b ^ k := by
          rw [← pow_succ]
          exact Nat.pow_le_pow_right (by omega) hmore
        have htwo : b ^ (j + 1) * 2 ≤ b ^ k := (Nat.mul_le_mul_left _ hb).trans hpow
        have hmul := Nat.mul_le_mul_left (n / b ^ (j + 1)) htwo
        have hone := Nat.mul_le_mul_right (b ^ (j + 1)) hq
        rw [h] at hmul
        rw [Nat.add_mul] at hlt
        rw [← Nat.mul_assoc] at hmul
        omega
    exact ⟨hk, Dvd.intro_left _ h⟩
  · intro h
    obtain ⟨rfl, hdvd⟩ := h
    exact Nat.div_mul_cancel hdvd

/-- A quotient is positive if the number reaches the divisor. -/
theorem fdiv_pos_iff {n m : ℤ} (hm : 0 < m) : n.fdiv m > 0 ↔ m ≤ n := by
  rw [Int.fdiv_eq_ediv_of_nonneg n hm.le]
  have hle := Int.le_ediv_iff_mul_le (a := 1) (b := n) hm
  rw [Int.one_mul] at hle
  exact hle

/-- The test of the loop: the unit is reached and larger than the best so far. -/
theorem loop_next {n : ℤ} (l : Loop) {unit : Bytes × ℤ} (hpos : 0 < unit.2) :
    l.next n unit =
      if unit.2 ≤ n ∧ l.mmax < unit.2 then ⟨unit.2, some unit.1, some unit.2⟩
      else { l with m := some unit.2 } := by
  simp only [Loop.next, intOf, fdiv_pos_iff hpos, true_and]

/-- One iteration adds a unit to those that have been seen. -/
theorem found_next {n : ℤ} {seen : List (Bytes × ℤ)} {l : Loop} {unit : Bytes × ℤ}
    (hpos : 0 < unit.2) (h : Found n seen l) : Found n (seen ++ [unit]) (l.next n unit) := by
  have hlast : (seen ++ [unit]).getLast?.map Prod.snd = some unit.2 := by
    rw [List.getLast?_concat]
    rfl
  have hsplit : ∀ other ∈ seen ++ [unit], other ∈ seen ∨ other = unit := by
    intro other hother
    rcases List.mem_append.mp hother with hseen | hnew
    · exact Or.inl hseen
    · exact Or.inr (List.mem_singleton.mp hnew)
  rw [loop_next l hpos]
  by_cases hbetter : unit.2 ≤ n ∧ l.mmax < unit.2
  · rw [if_pos hbetter]
    refine ⟨hlast.symm, Or.inr ⟨unit, ⟨?_, hbetter.1, ?_⟩, rfl, rfl⟩⟩
    · exact List.mem_append_right seen List.mem_cons_self
    · intro other hother hreached
      rcases hsplit other hother with hseen | rfl
      · rcases h.best with ⟨-, -, hnone⟩ | ⟨best, hbest, hmmax, -⟩
        · have hother := hnone other hseen
          omega
        · have hle := hbest.le other hseen hreached
          have hless := hbetter.2
          omega
      · exact le_rfl
  · rw [if_neg hbetter]
    refine ⟨hlast.symm, ?_⟩
    rcases h.best with ⟨hmmax, hr, hnone⟩ | ⟨best, hbest, hmmax, hr⟩
    · refine Or.inl ⟨hmmax, hr, ?_⟩
      intro other hother
      rcases hsplit other hother with hseen | rfl
      · exact hnone other hseen
      · omega
    · refine Or.inr ⟨best, ⟨List.mem_append_left [unit] hbest.mem, hbest.reached, ?_⟩, hmmax, hr⟩
      intro other hother hreached
      rcases hsplit other hother with hseen | rfl
      · exact hbest.le other hseen hreached
      · omega

/-- The loop has seen all units at its end. -/
theorem found_foldl {n : ℤ} {order : List (Bytes × ℤ)} (hpos : ∀ unit ∈ order, 0 < unit.2) :
    Found n order (order.foldl (Loop.next n) ⟨0, none, none⟩) := by
  induction order using List.reverseRecOn with
  | nil => exact ⟨rfl, Or.inl ⟨rfl, rfl, fun unit h => nomatch h⟩⟩
  | append_singleton order unit ih =>
    have hrest := ih (fun u hu => hpos u (List.mem_append_left [unit] hu))
    rw [List.foldl_append]
    exact found_next (hpos unit (List.mem_append_right order List.mem_cons_self)) hrest

/-- What is known about each unit. -/
structure IsUnit (unit : Bytes × ℤ) (k : ℕ) : Prop where
  range : 1 ≤ k ∧ k ≤ 4
  value : unit.2 = 1024 ^ k
  name_length : unit.1.length = 2
  lookup : sizeMultiplier (unit.1.map lower) = some unit.2
  name_flat : underscore ∉ unit.1

/-- Every entry of the table is the unit of some power. -/
theorem isUnit_of_mem {unit : Bytes × ℤ} (h : unit ∈ sizeMultipliers) : ∃ k, IsUnit unit k := by
  simp only [sizeMultipliers, List.mem_cons, List.not_mem_nil, or_false] at h
  rcases h with rfl | rfl | rfl | rfl
  · exact ⟨1, by decide, by decide, by decide, by decide, by decide⟩
  · exact ⟨2, by decide, by decide, by decide, by decide, by decide⟩
  · exact ⟨3, by decide, by decide, by decide, by decide, by decide⟩
  · exact ⟨4, by decide, by decide, by decide, by decide, by decide⟩

/-- Each of the first four powers has its entry. -/
theorem exists_unit {k : ℕ} (h : 1 ≤ k ∧ k ≤ 4) :
    ∃ unit ∈ sizeMultipliers, unit.2 = 1024 ^ k := by
  obtain ⟨hlow, hhigh⟩ := h
  interval_cases k
  · exact ⟨(ascii "kb", 1024), by decide, by decide⟩
  · exact ⟨(ascii "mb", 1024 * 1024), by decide, by decide⟩
  · exact ⟨(ascii "gb", 1024 * 1024 * 1024), by decide, by decide⟩
  · exact ⟨(ascii "tb", 1024 * 1024 * 1024 * 1024), by decide, by decide⟩

section Order

variable {order : List (Bytes × ℤ)}

/-- A size is printed with the largest unit that it reaches, or not at all. -/
theorem compactSize_cases (horder : order.Perm sizeMultipliers) (n : ℤ) :
    (compactSize order n = .error .nameError ∧ ∀ unit ∈ order, n < unit.2) ∨
      ∃ unit last, Largest n order unit ∧ order.getLast? = some last ∧
        compactSize order n = .ok (pyStr ((n.fdiv last.2).fdiv 1024) ++ unit.1) := by
  have hpos : ∀ unit ∈ order, 0 < unit.2 := by
    intro unit hunit
    obtain ⟨k, hk⟩ := isUnit_of_mem (horder.mem_iff.mp hunit)
    rw [hk.value]
    positivity
  have hne : order ≠ [] := by
    intro hnil
    have hlength := horder.length_eq
    rw [hnil] at hlength
    cases hlength
  have hfound := found_foldl (n := n) hpos
  have hlast := hfound.last
  rw [List.getLast?_eq_some_getLast hne, Option.map_some] at hlast
  rcases hfound.best with ⟨-, hr, hnone⟩ | ⟨unit, hunit, -, hr⟩
  · refine Or.inl ⟨?_, hnone⟩
    rw [compactSize, hr, hlast]
  · refine Or.inr ⟨unit, order.getLast hne, hunit, List.getLast?_eq_some_getLast hne, ?_⟩
    rw [compactSize, hr, hlast]

/-- A number with a unit is read. -/
theorem parseSize_append {unit : Bytes × ℤ} {k : ℕ} (hunit : IsUnit unit k) (q : ℕ) :
    parseSize (pyStr q ++ unit.1) = .ok (q * unit.2) := by
  have hstr : pyStr q = decimal q := if_neg (by omega)
  have hlength : (pyStr q ++ unit.1).length - 2 = (pyStr q).length := by
    rw [List.length_append, hunit.name_length]
    omega
  rw [parseSize, hlength, List.take_left, List.drop_left, hunit.lookup, hstr, pyInt_decimal]
  rfl

/-- What is printed is read back if the unit is the next one above the last and
divides the size. -/
theorem roundTrips_iff_of_largest {n j k : ℕ} (hn : 0 < n) {unit last : Bytes × ℤ}
    (hunit : IsUnit unit k) (hlast : IsUnit last j)
    (hout : compactSize order n = .ok (pyStr (((n : ℤ).fdiv last.2).fdiv 1024) ++ unit.1)) :
    RoundTrips order n ↔ k = j + 1 ∧ 1024 ^ k ∣ n := by
  have hquot : ((n : ℤ).fdiv last.2).fdiv 1024 = ((n / 1024 ^ j / 1024 : ℕ) : ℤ) := by
    rw [hlast.value]
    push_cast
    rw [Int.fdiv_eq_ediv_of_nonneg _ (by positivity), Int.fdiv_eq_ediv_of_nonneg _ (by positivity)]
  rw [← div_pow_mul_pow_eq_iff (by decide) hn, RoundTrips, hout, hquot]
  have hparse : (Except.ok (pyStr ((n / 1024 ^ j / 1024 : ℕ) : ℤ) ++ unit.1) >>= parseSize) =
      .ok (((n / 1024 ^ j / 1024 : ℕ) : ℤ) * unit.2) := parseSize_append hunit _
  rw [hparse, hunit.value, Except.ok.injEq]
  exact_mod_cast Iff.rfl

/-- There is a unit for each power. -/
theorem exists_unit_of_perm (horder : order.Perm sizeMultipliers) {k : ℕ} (hk : 1 ≤ k ∧ k ≤ 4) :
    ∃ unit ∈ order, unit.2 = 1024 ^ k := by
  obtain ⟨unit, hmem, hvalue⟩ := exists_unit hk
  exact ⟨unit, horder.mem_iff.mpr hmem, hvalue⟩

/-- The powers of 1024 that a number reaches end with its largest unit. -/
theorem largest_exponent (horder : order.Perm sizeMultipliers) {n k : ℕ} {unit : Bytes × ℤ}
    (hlargest : Largest n order unit) (hunit : IsUnit unit k) :
    1024 ^ k ≤ n ∧ ∀ i, 1 ≤ i → i ≤ 4 → 1024 ^ i ≤ n → i ≤ k := by
  constructor
  · have hreached := hlargest.reached
    rw [hunit.value] at hreached
    exact_mod_cast hreached
  · intro i hlow hhigh hreached
    obtain ⟨other, hmem, hvalue⟩ := exists_unit_of_perm horder ⟨hlow, hhigh⟩
    have hother : other.2 ≤ (n : ℤ) := by
      rw [hvalue]
      exact_mod_cast hreached
    have hle := hlargest.le other hmem hother
    rw [hvalue, hunit.value] at hle
    have hpow : 1024 ^ i ≤ 1024 ^ k := by exact_mod_cast hle
    exact (Nat.pow_le_pow_iff_right (a := 1024) (by decide)).mp hpow

/-- The condition on the order says that the last unit is followed by the largest
that is reached. -/
theorem sizeFits_iff (horder : order.Perm sizeMultipliers) {n j k : ℕ} {unit last : Bytes × ℤ}
    (hlargest : Largest n order unit) (hunit : IsUnit unit k)
    (hlast : order.getLast? = some last) (hj : IsUnit last j) :
    SizeFits order n ↔ k = j + 1 ∧ 1024 ^ k ∣ n := by
  obtain ⟨hreached, hmost⟩ := largest_exponent horder hlargest hunit
  constructor
  · intro h
    obtain ⟨i, hi, hvalue, hdvd, hless⟩ := h
    rw [hlast, Option.map_some, hj.value, Option.some.injEq] at hvalue
    have hpow : 1024 ^ j = 1024 ^ i := by exact_mod_cast hvalue
    have hij : j = i := Nat.pow_right_injective (by decide : 2 ≤ 1024) hpow
    subst hij
    simp only [List.mem_cons, List.not_mem_nil, or_false] at hi
    have hpos : 0 < n := lt_of_lt_of_le (Nat.pow_pos (by decide)) hreached
    have hnext := hmost (j + 1) (by omega) (by omega) (Nat.le_of_dvd hpos hdvd)
    have hk : k = j + 1 := by
      by_contra hne
      have hrange := hunit.range
      have hpow : 1024 ^ (j + 2) ≤ 1024 ^ k := Nat.pow_le_pow_right (by decide) (by omega)
      have hbound := hless (by omega)
      omega
    rw [hk]
    exact ⟨rfl, hdvd⟩
  · intro h
    obtain ⟨rfl, hdvd⟩ := h
    have hrange := hunit.range
    have hlow := hj.range.1
    refine ⟨j, ?_, ?_, hdvd, ?_⟩
    · simp only [List.mem_cons, List.not_mem_nil, or_false]
      omega
    · rw [hlast, Option.map_some, hj.value]
    · intro hless
      by_contra hle
      have hnext := hmost (j + 2) (by omega) (by omega) (by omega)
      omega

/-- A size is read back exactly when the order of the units fits it. -/
theorem roundTrips_iff (horder : order.Perm sizeMultipliers) {n : ℕ} (hn : 0 < n) :
    RoundTrips order n ↔ SizeFits order n := by
  rcases compactSize_cases horder n with ⟨hfailed, hnone⟩ | ⟨unit, last, hlargest, hlast, hout⟩
  · constructor
    · intro h
      rw [RoundTrips, hfailed] at h
      cases h
    · intro h
      obtain ⟨j, hj, -, hdvd, -⟩ := h
      simp only [List.mem_cons, List.not_mem_nil, or_false] at hj
      obtain ⟨unit, hmem, hvalue⟩ :=
        exists_unit_of_perm horder (k := j + 1) ⟨by omega, by omega⟩
      have hless := hnone unit hmem
      rw [hvalue] at hless
      have hbelow : n < 1024 ^ (j + 1) := by exact_mod_cast hless
      exact absurd (Nat.le_of_dvd hn hdvd) (not_le.mpr hbelow)
  · obtain ⟨k, hk⟩ := isUnit_of_mem (horder.mem_iff.mp hlargest.mem)
    obtain ⟨j, hj⟩ := isUnit_of_mem (horder.mem_iff.mp (List.mem_of_getLast? hlast))
    rw [roundTrips_iff_of_largest hn hk hj hout, sizeFits_iff horder hlargest hk hlast hj]

end Order

/-- With the units in the order of the source, a kilobyte is printed as none. -/
example : compactSize sizeMultipliers 1024 = .ok (ascii "0kb") := by decide +kernel

end LazyFS.CompactSizes
