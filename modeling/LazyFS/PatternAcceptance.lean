import LazyFS.PathNames
import LazyFS.PatternParser

/-!
# Which names are taken for patterns

A conversion succeeds on less than two digits: after white space, on one digit
followed by anything, or on a sign and a digit. The parser therefore accepts
every string of eight characters that starts such a number at positions 0, 2,
4 and 6, and it accepts exactly the patterns on the strings where that makes
no difference. When a conversion fails, the bytes from that pair on keep what
the array held.
-/

namespace LazyFS.PatternAcceptance

open PathNames PatternParser

/-- A text starts with a hexadecimal digit, or with a sign and a digit. -/
def StartsNumber : List UInt8 → Prop
  | [] => False
  | [c] => hexValue c ≠ none
  | c :: d :: _ =>
    if c = 43 ∨ c = 45 then hexValue d ≠ none
    else hexValue c ≠ none

/-- Whether a number starts is computed. -/
instance : DecidablePred StartsNumber
  | [] => .isFalse id
  | [c] => inferInstanceAs (Decidable (hexValue c ≠ none))
  | c :: d :: _ => inferInstanceAs (Decidable (if c = 43 ∨ c = 45 then hexValue d ≠ none
    else hexValue c ≠ none))

/-- A number starts at each of the four positions a string is converted from,
once white space is skipped there. -/
def StartsPairs (s : List UInt8) : Prop :=
  ∀ j : Fin 4, StartsNumber ((s.drop (2 * j)).dropWhile isSpace)

/-- Whether four numbers start is computed. -/
instance (s : List UInt8) : Decidable (StartsPairs s) := inferInstanceAs (Decidable (∀ _, _))

/-- A number is read exactly where one starts. -/
theorem scanHexItem_eq_none_iff (s : List UInt8) : scanHexItem s = none ↔ ¬ StartsNumber s := by
  match s with
  | [] => simp [scanHexItem, StartsNumber]
  | [c] =>
    by_cases hplus : c = 43
    · subst hplus
      simp [scanHexItem, StartsNumber, hexValue]
    · by_cases hminus : c = 45
      · subst hminus
        simp [scanHexItem, StartsNumber, hexValue]
      · cases hc : hexValue c <;> simp [scanHexItem, StartsNumber, hplus, hminus, hc]
  | c :: d :: rest =>
    by_cases hplus : c = 43
    · subst hplus
      simp [scanHexItem, StartsNumber]
    · by_cases hminus : c = 45
      · subst hminus
        simp [scanHexItem, StartsNumber]
      · cases hc : hexValue c <;> cases hd : hexValue d <;>
          simp [scanHexItem, StartsNumber, hplus, hminus, hc, hd]

/-- Where a number is read, one starts. -/
theorem startsNumber_of_some {s : List UInt8} {v : UInt8} (h : scanHexItem s = some v) :
    StartsNumber s := by
  by_contra hnone
  rw [(scanHexItem_eq_none_iff s).mpr hnone] at h
  cases h

/-- The loop returns 0 when all its conversions succeed, and -1 otherwise. -/
theorem parsePairs_ret (s : List UInt8) (js : List (Fin 4)) (array : Pattern) :
    (parsePairs s js array).1 =
      if ∀ j ∈ js, StartsNumber ((s.drop (2 * j)).dropWhile isSpace) then 0 else -1 := by
  induction js generalizing array with
  | nil => simp [parsePairs]
  | cons i js ih =>
    have hscan := scanHexItem_eq_none_iff ((s.drop (2 * i)).dropWhile isSpace)
    cases hi : scanHexItem ((s.drop (2 * i)).dropWhile isSpace) with
    | none => simp [parsePairs, sscanf2hhx, hi, hscan.mp hi]
    | some v =>
      simp [parsePairs, sscanf2hhx, hi, ih, startsNumber_of_some hi]

/-- What `parse_pattern` returns, in terms of the string. -/
theorem parsePattern_ret (s : List UInt8) (array : Pattern) :
    (parsePattern s array).1 = if 8 ≤ s.length ∧ StartsPairs s then 0 else -1 := by
  have hall : ∀ j : Fin 4, j ∈ [0, 1, 2, 3] := by decide
  unfold parsePattern
  by_cases hlen : s.length < 8
  · have hshort : ¬ (8 ≤ s.length ∧ StartsPairs s) := fun h => absurd h.1 (by omega)
    rw [if_pos hlen, if_neg hshort]
  · have hlong : 8 ≤ s.length := by omega
    simp only [if_neg hlen, parsePairs_ret, hall, true_implies, hlong, true_and, StartsPairs]

/-- The zero of a prefix is a number. -/
example : (parsePattern (ascii "0x112233") fun _ => 255).1 = 0 := by decide +kernel

/-- An accepted string fills the whole array. -/
theorem parsePattern_accepted {s : List UInt8} (hlen : 8 ≤ s.length) (h : StartsPairs s)
    (array other : Pattern) : (parsePattern s array).2 = (parsePattern s other).2 := by
  have hall : ∀ j : Fin 4, j ∈ [0, 1, 2, 3] := by decide
  have hsome : ∀ j : Fin 4,
      sscanf2hhx (s.drop (2 * j)) = some ((sscanf2hhx (s.drop (2 * j))).getD 0) := by
    intro j
    have hne : sscanf2hhx (s.drop (2 * j)) ≠ none :=
      fun hnone => (scanHexItem_eq_none_iff _).mp hnone (h j)
    obtain ⟨v, hv⟩ := Option.ne_none_iff_exists'.mp hne
    rw [hv, Option.getD_some]
  have hlong : ¬ s.length < 8 := Nat.not_lt.mpr hlen
  simp only [parsePattern, if_neg hlong, parsePairs_ok fun j _ => hsome j, hall, if_true]

/-- The loop reaches its last index only if every conversion before it succeeds. -/
theorem parsePairs_last {s : List UInt8} {js : List (Fin 4)} {last : Fin 4} (hlast : last ∉ js)
    (h : ¬ ∀ j ∈ js ++ [last], StartsNumber ((s.drop (2 * j)).dropWhile isSpace))
    (array : Pattern) : (parsePairs s (js ++ [last]) array).2 last = array last := by
  induction js generalizing array with
  | nil =>
    have hnone : scanHexItem ((s.drop (2 * last)).dropWhile isSpace) = none :=
      (scanHexItem_eq_none_iff _).mpr (by simpa using h)
    simp [parsePairs, sscanf2hhx, hnone]
  | cons i js ih =>
    obtain ⟨hi, hjs⟩ : last ≠ i ∧ last ∉ js := by simpa using hlast
    cases hscan : scanHexItem ((s.drop (2 * i)).dropWhile isSpace) with
    | none => simp [parsePairs, sscanf2hhx, hscan]
    | some v =>
      have hrest : ¬ ∀ j ∈ js ++ [last],
          StartsNumber ((s.drop (2 * j)).dropWhile isSpace) := by
        intro hall
        apply h
        intro j hj
        rcases List.mem_cons.mp hj with rfl | hj
        · exact startsNumber_of_some hscan
        · exact hall j hj
      have hkept := ih hjs hrest (Function.update array i v)
      rw [Function.update_of_ne hi] at hkept
      simpa only [List.cons_append, parsePairs, sscanf2hhx, hscan] using hkept

/-- A string that is refused leaves the last byte of the array as it was. -/
theorem parsePattern_refused {s : List UInt8} (h : ¬ (8 ≤ s.length ∧ StartsPairs s))
    (array : Pattern) : (parsePattern s array).2 3 = array 3 := by
  unfold parsePattern
  by_cases hlen : s.length < 8
  · rw [if_pos hlen]
  · have hpairs : ¬ ∀ j ∈ [0, 1, 2] ++ [3],
        StartsNumber ((s.drop (2 * (j : Fin 4))).dropWhile isSpace) := by
      have hmem : ∀ j : Fin 4, j ∈ [0, 1, 2] ++ [3] := by decide
      exact fun hall => h ⟨by omega, fun j => hall j (hmem j)⟩
    rw [if_neg hlen]
    exact parsePairs_last (by decide) hpairs array

/-- The contract of `parse_pattern` on one string, the characters before its
terminator: it accepts eight digits and stores what they spell, and it refuses
anything else. -/
def AcceptsPatterns (s : List UInt8) : Prop :=
  ∀ array : Pattern, ((parsePattern s array).1 = 0 ↔ SpellsPattern s) ∧
    (SpellsPattern s → (parsePattern s array).2 = spelledPattern s) ∧
    (¬ SpellsPattern s → (parsePattern s array).1 = -1)

/-- The contract holds for the patterns themselves, for short strings, and for
strings where no number starts at one of the four positions. -/
theorem accepts_patterns_iff (s : List UInt8) :
    AcceptsPatterns s ↔ SpellsPattern s ∨ s.length < 8 ∨ ¬ StartsPairs s := by
  constructor
  · intro h
    by_cases hspell : SpellsPattern s
    · exact Or.inl hspell
    · have hrefused := (h fun _ => 0).2.2 hspell
      rw [parsePattern_ret] at hrefused
      have hnot : ¬ (8 ≤ s.length ∧ StartsPairs s) := by
        intro hboth
        rw [if_pos hboth] at hrefused
        omega
      right
      by_cases hlen : s.length < 8
      · exact Or.inl hlen
      · exact Or.inr fun hpairs => hnot ⟨by omega, hpairs⟩
  · intro h array
    by_cases hspell : SpellsPattern s
    · have hparse := parsePattern_digits hspell array
      have hret : (parsePattern s array).1 = 0 := by rw [hparse]
      have hstored : (parsePattern s array).2 = spelledPattern s := by rw [hparse]
      exact ⟨iff_of_true hret hspell, fun _ => hstored, fun hnot => absurd hspell hnot⟩
    · have hnot : ¬ (8 ≤ s.length ∧ StartsPairs s) := by
        rintro ⟨hlen, hpairs⟩
        rcases h with h | h | h
        · exact hspell h
        · omega
        · exact h hpairs
      have hret : (parsePattern s array).1 = -1 := by rw [parsePattern_ret, if_neg hnot]
      have hne : (parsePattern s array).1 ≠ 0 := by
        rw [hret]
        decide
      exact ⟨iff_of_false hne hspell, fun h => absurd h hspell, fun _ => hret⟩

/-- Signs are accepted where digits should stand: the string is taken for four ones. -/
theorem signed_digits_accepted : ¬ AcceptsPatterns (ascii "+1+1+1+1") := by
  intro h
  obtain ⟨haccept, -, -⟩ := h fun _ => 0
  revert haccept
  decide +kernel

end LazyFS.PatternAcceptance
