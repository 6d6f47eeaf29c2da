import Mathlib

/-!
# The load of a table of chains

A table of chains lets a chain grow up to a capacity, or up to a multiple of
it where the chain was already too long when the table was last doubled. The
multipliers are bounded by what they are computed from, so together they never
allow more than twice the capacity for each chain. This is the bound on which
the constant cost of a lookup rests.
-/

namespace LazyFS.ChainLoad

/-- The number of items over the number of chains, rounded up. -/
def idealLength (items chains : ℕ) : ℕ := items / chains + if items % chains = 0 then 0 else 1

/-- Where there are items, a chain may hold one. -/
theorem idealLength_pos {items chains : ℕ} (h : 0 < items) : 0 < idealLength items chains := by
  unfold idealLength
  split_ifs with hmod
  · have hle := Nat.le_of_dvd h (Nat.dvd_of_mod_eq_zero hmod)
    have hpos : 0 < chains := by
      rcases Nat.eq_zero_or_pos chains with hzero | hpos
      · rw [hzero, Nat.mod_zero] at hmod
        omega
      · exact hpos
    have hdiv := Nat.div_pos hle hpos
    omega
  · exact Nat.succ_pos _

/-- Chains of that length hold all items. -/
theorem le_idealLength_mul (items : ℕ) {chains : ℕ} (h : 0 < chains) :
    items ≤ idealLength items chains * chains := by
  have hdiv := Nat.div_add_mod items chains
  have hmod := Nat.mod_lt items h
  have hcomm : chains * (items / chains) = items / chains * chains := Nat.mul_comm _ _
  unfold idealLength
  split_ifs with hzero
  · rw [Nat.add_zero]
    omega
  · rw [Nat.add_mul, Nat.one_mul]
    omega

/-- No shorter chains do. -/
theorem idealLength_le {items chains k : ℕ} (hpos : 0 < chains) (h : items ≤ k * chains) :
    idealLength items chains ≤ k := by
  have hdiv := Nat.div_add_mod items chains
  have hcomm : chains * (items / chains) = items / chains * chains := Nat.mul_comm _ _
  unfold idealLength
  split_ifs with hzero
  · rw [Nat.add_zero]
    refine Nat.le_of_mul_le_mul_right ?_ hpos
    omega
  · refine Nat.succ_le_of_lt (Nat.lt_of_mul_lt_mul_right (a := chains) ?_)
    omega

/-- A chain of exactly the capacity, which no multiplier allows. -/
def brimful (cap count mult : ℕ) : ℕ := if count = cap ∧ mult = 0 then 1 else 0

/-- The load of `n` chains with the given lengths and multipliers. -/
structure Balanced (cap n : ℕ) (count mult : ℕ → ℕ) : Prop where
  /-- A chain stays below its multiple of the capacity, or is brimful. -/
  chain : ∀ i < n, count i < cap * (mult i + 1) + brimful cap (count i) (mult i)
  /-- The multipliers and the brimful chains are at most as many as the chains. -/
  total : ∑ i ∈ Finset.range n, (mult i + brimful cap (count i) (mult i)) ≤ n

variable {cap n ideal : ℕ} {count count' mult : ℕ → ℕ}

/-- Empty chains are balanced. -/
theorem balanced_start (hcap : 0 < cap) : Balanced cap n (fun _ => 0) (fun _ => 0) := by
  have hnot : brimful cap 0 0 = 0 := if_neg (fun h => by omega)
  refine ⟨?_, ?_⟩
  · intro i _
    omega
  · simp only [hnot, Nat.add_zero, Finset.sum_const_zero, Nat.zero_le]

/-- The items of balanced chains are fewer than twice the capacity for each chain. -/
theorem Balanced.items (h : Balanced cap n count mult) (hcap : 0 < cap) :
    ∑ i ∈ Finset.range n, count i ≤ (2 * cap - 1) * n := by
  have hchain : ∀ i ∈ Finset.range n, count i ≤
      cap * (mult i + brimful cap (count i) (mult i)) + (cap - 1) := by
    intro i hi
    have hlt := h.chain i (Finset.mem_range.mp hi)
    have hone : brimful cap (count i) (mult i) ≤ cap * brimful cap (count i) (mult i) :=
      Nat.le_mul_of_pos_left _ hcap
    rw [Nat.mul_add, Nat.mul_one] at hlt
    rw [Nat.mul_add]
    omega
  have hsum := Finset.sum_le_sum hchain
  rw [Finset.sum_add_distrib, ← Finset.mul_sum, Finset.sum_const, Finset.card_range,
    smul_eq_mul] at hsum
  have htotal := Nat.mul_le_mul_left cap h.total
  have hsplit : (2 * cap - 1) * n = cap * n + n * (cap - 1) := by
    have heq : 2 * cap - 1 = cap + (cap - 1) := by omega
    rw [heq, Nat.add_mul, Nat.mul_comm (cap - 1) n]
  omega

/-- Chains that lose items stay balanced. -/
theorem Balanced.shrink (h : Balanced cap n count mult) (hle : ∀ i < n, count' i ≤ count i) :
    Balanced cap n count' mult := by
  -- A shorter chain is brimful only where the chain was.
  have hbrim : ∀ i < n, brimful cap (count' i) (mult i) ≤ brimful cap (count i) (mult i) := by
    intro i hi
    have hlt := h.chain i hi
    have hshort := hle i hi
    unfold brimful at hlt ⊢
    split_ifs at hlt ⊢ with hnow hthen
    · exact le_rfl
    · rw [hnow.2, Nat.zero_add, Nat.mul_one] at hlt
      omega
    · exact Nat.zero_le _
    · exact le_rfl
  refine ⟨?_, (Finset.sum_le_sum fun i hi => ?_).trans h.total⟩
  · intro i hi
    have hlt := h.chain i hi
    have hshort := hle i hi
    unfold brimful at hlt ⊢
    split_ifs at hlt ⊢ with hnow hthen <;> omega
  · have hle := hbrim i (Finset.mem_range.mp hi)
    omega

/-- A chain that stays below its multiple of the capacity may grow. -/
theorem Balanced.grow (h : Balanced cap n count mult) {i : ℕ}
    (hlt : count i + 1 < cap * (mult i + 1)) :
    Balanced cap n (Function.update count i (count i + 1)) mult := by
  have hnot : brimful cap (count i + 1) (mult i) = 0 := by
    refine if_neg ?_
    intro hand
    rw [hand.2, Nat.zero_add, Nat.mul_one] at hlt
    omega
  refine ⟨?_, (Finset.sum_le_sum fun j hj => ?_).trans h.total⟩
  · intro j hj
    by_cases hji : j = i
    · rw [hji, Function.update_self]
      omega
    · rw [Function.update_of_ne hji]
      exact h.chain j hj
  · by_cases hji : j = i
    · rw [hji, Function.update_self, hnot]
      omega
    · rw [Function.update_of_ne hji]

/-- Multipliers computed from an ideal length within the capacity balance chains
that together hold no more than ideal chains do. -/
theorem balanced_of_ideal (hideal : 0 < ideal) (hcap : ideal ≤ cap)
    (hitems : ∑ i ∈ Finset.range n, count i ≤ ideal * n)
    (hmult : ∀ i < n, mult i = if ideal < count i then count i / ideal else 0) :
    Balanced cap n count mult := by
  refine ⟨?_, ?_⟩
  · intro i hi
    by_cases hlong : ideal < count i
    · rw [hmult i hi, if_pos hlong]
      have hlt := Nat.lt_mul_div_succ (count i) hideal
      have hle := Nat.mul_le_mul_right (count i / ideal + 1) hcap
      omega
    · rw [hmult i hi, if_neg hlong]
      unfold brimful
      split_ifs <;> omega
  · -- An ideal chain for each multiplier and each brimful chain.
    have hweight : ∀ i ∈ Finset.range n,
        ideal * (mult i + brimful cap (count i) (mult i)) ≤ count i := by
      intro i hi
      rw [hmult i (Finset.mem_range.mp hi)]
      by_cases hlong : ideal < count i
      · have hpos : 0 < count i / ideal := Nat.div_pos hlong.le hideal
        have hnot : brimful cap (count i) (count i / ideal) = 0 := if_neg (fun h => by omega)
        rw [if_pos hlong, hnot, Nat.add_zero]
        exact Nat.mul_div_le _ _
      · rw [if_neg hlong, Nat.zero_add]
        unfold brimful
        split_ifs with hbrim
        · rw [Nat.mul_one]
          omega
        · rw [Nat.mul_zero]
          exact Nat.zero_le _
    have hsum := (Finset.sum_le_sum hweight).trans hitems
    rw [← Finset.mul_sum] at hsum
    exact Nat.le_of_mul_le_mul_left hsum hideal

/-- Lengths and multipliers matter only below the number of chains. -/
theorem Balanced.congr {mult' : ℕ → ℕ} (h : Balanced cap n count mult)
    (hcount : ∀ i < n, count' i = count i) (hmult : ∀ i < n, mult' i = mult i) :
    Balanced cap n count' mult' := by
  refine ⟨?_, ?_⟩
  · intro i hi
    rw [hcount i hi, hmult i hi]
    exact h.chain i hi
  · refine le_of_eq_of_le (Finset.sum_congr rfl fun i hi => ?_) h.total
    rw [hcount i (Finset.mem_range.mp hi), hmult i (Finset.mem_range.mp hi)]

end LazyFS.ChainLoad
