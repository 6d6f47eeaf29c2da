import Mathlib

/-!
# Fixed-width C integers and undefined behaviour

A C function either returns or leaves the defined part of the language, and
`Outcome` keeps the two apart. `off_t` is `Int64` and `size_t` is `UInt64`;
the lemmas here carry their mixed comparisons and additions to the integers
wherever no wrap occurs.
-/

namespace LazyFS.MachineWords

/-- The ways a C execution leaves the defined part of the language. -/
inductive Undefined where
  /-- A copy writes past the end of its destination array. -/
  | bufferOverrun
  /-- An array is indexed outside its bounds. -/
  | outOfBounds
  /-- A signed addition or increment leaves its type. -/
  | signedOverflow
  /-- A member is read through a null pointer. -/
  | nullDereference
  /-- A block is freed that is not allocated. -/
  | invalidFree
  deriving DecidableEq, Repr

/-- A C computation: a result, or the undefined behaviour it ran into. -/
abbrev Outcome (α : Type) := Except Undefined α

/-- A computation in two parts returns only if both do. -/
theorem bind_eq_ok {ε α β : Type} {x : Except ε α} {f : α → Except ε β} {b : β} :
    x >>= f = .ok b ↔ ∃ a, x = .ok a ∧ f a = .ok b := by
  cases x with
  | error e => simp [bind, Except.bind]
  | ok a => simp [bind, Except.bind]

/-- The largest value of `int`. -/
def intMax : ℕ := 2 ^ 31 - 1

/-- The largest value of `off_t`. -/
def offMax : ℤ := 2 ^ 63 - 1

/-- Conversion of an unsigned 64-bit value to `int`: its low 32 bits, signed. -/
def cInt (n : UInt64) : ℤ := n.toUInt32.toInt32.toInt

/-- The low 32 bits, with their top bit as the sign. -/
theorem cInt_eq (n : UInt64) :
    cInt n = if 2 * (n.toNat % 2 ^ 32) < 2 ^ 32 then ((n.toNat % 2 ^ 32 : ℕ) : ℤ)
      else ((n.toNat % 2 ^ 32 : ℕ) : ℤ) - (2 ^ 32 : ℕ) := by
  have hbits : cInt n = n.toUInt32.toBitVec.toInt := rfl
  have hlow : n.toUInt32.toBitVec.toNat = n.toNat % 2 ^ 32 := rfl
  rw [hbits, BitVec.toInt_eq_toNat_cond, hlow]

/-- A value in the range of `int` survives the conversion. -/
theorem cInt_of_le {n : UInt64} (h : n.toNat ≤ intMax) : cInt n = n.toNat := by
  have hmax : intMax = 2 ^ 31 - 1 := rfl
  rw [cInt_eq]
  split_ifs <;> omega

/-- It is not negative when the top bit of the low half is clear. -/
theorem cInt_nonneg_iff (n : UInt64) : 0 ≤ cInt n ↔ n.toNat % 2 ^ 32 < 2 ^ 31 := by
  rw [cInt_eq]
  split_ifs <;> omega

/-- It is zero when the low half is. -/
theorem cInt_eq_zero_iff (n : UInt64) : cInt n = 0 ↔ n.toNat % 2 ^ 32 = 0 := by
  rw [cInt_eq]
  split_ifs <;> omega

/-- `++i` on an `int` index. -/
def incInt (i : ℕ) : Outcome ℕ :=
  if i < intMax then .ok (i + 1) else .error .signedOverflow

/-- Below the greatest `int` the counter grows by one. -/
theorem incInt_of_lt {i : ℕ} (h : i < intMax) : incInt i = .ok (i + 1) := by
  simp only [incInt, if_pos h]

/-- `offset + i` for an `off_t` and a non-negative `int`, in signed 64 bits. -/
def addOffset (offset : Int64) (i : ℕ) : Outcome ℤ :=
  if offset.toInt + i ≤ offMax then .ok (offset.toInt + i) else .error .signedOverflow

/-- Up to the greatest `off_t` an offset is added as it is. -/
theorem addOffset_of_le {offset : Int64} {i : ℕ} (h : offset.toInt + i ≤ offMax) :
    addOffset offset i = .ok (offset.toInt + i) := by
  simp only [addOffset, if_pos h]

/-- A 64-bit offset is at most the greatest `off_t`. -/
theorem Int64.toInt_le_offMax (x : Int64) : x.toInt ≤ offMax := by
  have h := x.toInt_lt
  have hmax : offMax = 2 ^ 63 - 1 := rfl
  omega

/-- A non-negative `off_t` keeps its value as an unsigned word. -/
theorem toUInt64_toNat {x : Int64} (h : 0 ≤ x.toInt) : (x.toUInt64.toNat : ℤ) = x.toInt := by
  have hint : x.toInt = x.toBitVec.toInt := rfl
  have hnat : x.toUInt64.toNat = x.toBitVec.toNat := rfl
  have hlt := x.toBitVec.isLt
  rw [hint, BitVec.toInt_eq_toNat_cond] at h ⊢
  rw [hnat]
  split_ifs at h ⊢ with hc
  · rfl
  · push_cast at h
    omega

/-- An unsigned word below `2^63` keeps its value as an `off_t`. -/
theorem toInt64_toInt {u : UInt64} (h : (u.toNat : ℤ) ≤ offMax) : u.toInt64.toInt = u.toNat := by
  have hint : u.toInt64.toInt = u.toBitVec.toInt := rfl
  have hnat : u.toBitVec.toNat = u.toNat := rfl
  have hmax : offMax = 2 ^ 63 - 1 := rfl
  rw [hint, BitVec.toInt_eq_toNat_cond, hnat]
  split_ifs <;> omega

/-- The unsigned sum `offset + size` of a write that stays inside `off_t`. -/
theorem toNat_offset_add {offset : Int64} {size : UInt64} (ho : 0 ≤ offset.toInt)
    (hs : offset.toInt + size.toNat ≤ offMax) :
    ((offset.toUInt64 + size).toNat : ℤ) = offset.toInt + size.toNat := by
  have hu := toUInt64_toNat ho
  have hmax : offMax = 2 ^ 63 - 1 := rfl
  rw [UInt64.toNat_add]
  omega

end LazyFS.MachineWords
