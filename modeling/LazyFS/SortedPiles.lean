import Mathlib

/-!
# A list sorted into piles

Every item of a list lies on the pile that its index names, in some order.
Items come to a pile one at a time, or leave it; together the piles hold as
much as the list.
-/

namespace LazyFS.SortedPiles

variable {ι : Type} [DecidableEq ι]

/-- Pile `i` holds the items of index `i`, for the first `n` indices. -/
def Sorts (index : ι → ℕ) (n : ℕ) (piles : ℕ → List ι) (l : List ι) : Prop :=
  ∀ i < n, (piles i).Perm (l.filter (fun b => index b = i))

variable {index : ι → ℕ} {n i : ℕ} {piles : ℕ → List ι} {l l' : List ι} {b : ι}

omit [DecidableEq ι] in
/-- Empty piles hold nothing. -/
theorem Sorts.nil (h : ∀ i < n, piles i = []) : Sorts index n piles [] := by
  intro i hi
  rw [h i hi, List.filter_nil]

omit [DecidableEq ι] in
/-- A pile holds the items of its index. -/
theorem Sorts.mem_iff (h : Sorts index n piles l) (hi : i < n) :
    b ∈ piles i ↔ b ∈ l ∧ index b = i := by
  rw [(h i hi).mem_iff, List.mem_filter, decide_eq_true_eq]

omit [DecidableEq ι] in
/-- No item is twice in a pile. -/
theorem Sorts.nodup (h : Sorts index n piles l) (hl : l.Nodup) (hi : i < n) :
    (piles i).Nodup := (h i hi).nodup_iff.mpr (hl.filter _)

omit [DecidableEq ι] in
/-- The order of the list does not matter. -/
theorem Sorts.perm (h : Sorts index n piles l) (hl : l.Perm l') : Sorts index n piles l' :=
  fun i hi => (h i hi).trans (hl.filter _)

omit [DecidableEq ι] in
/-- Only the indices of the items in the list matter. -/
theorem Sorts.congr {index' : ι → ℕ} (h : Sorts index n piles l)
    (hsame : ∀ b ∈ l, index' b = index b) : Sorts index' n piles l := by
  intro i hi
  have hfilter : l.filter (fun b => index' b = i) = l.filter (fun b => index b = i) := by
    apply List.filter_congr
    intro b hb
    rw [hsame b hb]
  rw [hfilter]
  exact h i hi

omit [DecidableEq ι] in
/-- An item is put on top of its pile. -/
theorem Sorts.push (h : Sorts index n piles l) :
    Sorts index n (Function.update piles (index b) (b :: piles (index b))) (b :: l) := by
  intro i hi
  by_cases hib : i = index b
  · subst hib
    rw [Function.update_self, List.filter_cons_of_pos (by simp only [decide_true])]
    exact (h _ hi).cons b
  · have hne : ¬ index b = i := fun he => hib he.symm
    rw [Function.update_of_ne hib, List.filter_cons_of_neg (by simp only [hne, decide_false,
      Bool.false_eq_true, not_false_eq_true])]
    exact h i hi

/-- An item is taken from its pile. -/
theorem Sorts.erase (h : Sorts index n piles l) (hl : l.Nodup) :
    Sorts index n (Function.update piles (index b) ((piles (index b)).erase b)) (l.erase b) := by
  intro i hi
  rw [hl.erase_eq_filter, List.filter_comm, ← (hl.filter _).erase_eq_filter]
  by_cases hib : i = index b
  · subst hib
    rw [Function.update_self]
    exact (h _ hi).erase b
  · have hnot : b ∉ l.filter (fun b => index b = i) := by
      intro hmem
      exact hib (of_decide_eq_true (List.mem_filter.mp hmem).2).symm
    rw [Function.update_of_ne hib, List.erase_of_not_mem hnot]
    exact h i hi

omit [DecidableEq ι] in
/-- The items of each index, together, are all the items. -/
theorem sum_filter_length (h : ∀ b ∈ l, index b < n) :
    ∑ i ∈ Finset.range n, (l.filter (fun b => index b = i)).length = l.length := by
  induction l with
  | nil => simp only [List.filter_nil, List.length_nil, Finset.sum_const_zero]
  | cons b l ih =>
    have hb := h b List.mem_cons_self
    have hrest := ih (fun c hc => h c (List.mem_cons_of_mem b hc))
    have hstep : ∀ i, ((b :: l).filter (fun b => index b = i)).length =
        (if index b = i then 1 else 0) + (l.filter (fun b => index b = i)).length := by
      intro i
      by_cases hi : index b = i
      · simp only [hi, decide_true, List.filter_cons_of_pos, List.length_cons, if_true,
          Nat.add_comm]
      · simp only [hi, decide_false, Bool.false_eq_true, not_false_eq_true,
          List.filter_cons_of_neg, if_false, Nat.zero_add]
    simp only [hstep, Finset.sum_add_distrib, hrest, Finset.sum_ite_eq, Finset.mem_range, hb,
      if_true, List.length_cons, Nat.add_comm]

omit [DecidableEq ι] in
/-- The piles together are as long as the list. -/
theorem Sorts.sum_length (h : Sorts index n piles l) (hindex : ∀ b ∈ l, index b < n) :
    ∑ i ∈ Finset.range n, (piles i).length = l.length := by
  rw [← sum_filter_length hindex]
  apply Finset.sum_congr rfl
  intro i hi
  exact (h i (Finset.mem_range.mp hi)).length_eq

omit [DecidableEq ι] in
/-- No pile is longer than the list. -/
theorem Sorts.length_le (h : Sorts index n piles l) (hi : i < n) :
    (piles i).length ≤ l.length := by
  rw [(h i hi).length_eq]
  exact List.length_filter_le _ _

omit [DecidableEq ι] in
/-- The piles one after the other are the list in another order. -/
theorem Sorts.flatMap_perm (h : Sorts index n piles l) (hl : l.Nodup)
    (hindex : ∀ b ∈ l, index b < n) : ((List.range' 0 n).flatMap piles).Perm l := by
  have hrange : ∀ i ∈ List.range' 0 n, i < n := by
    intro i hi
    obtain ⟨-, hlt⟩ := List.mem_range'_1.mp hi
    omega
  have hnodup : ((List.range' 0 n).flatMap piles).Nodup := by
    refine List.nodup_flatMap.mpr ⟨fun i hi => h.nodup hl (hrange i hi), ?_⟩
    refine List.Nodup.pairwise_of_forall_ne List.nodup_range' ?_
    intro i hi j hj hij b hbi hbj
    have hsame := ((h.mem_iff (hrange i hi)).mp hbi).2.symm.trans
      ((h.mem_iff (hrange j hj)).mp hbj).2
    exact hij hsame
  refine (List.perm_ext_iff_of_nodup hnodup hl).mpr ?_
  intro b
  rw [List.mem_flatMap]
  constructor
  · intro hex
    obtain ⟨i, hi, hb⟩ := hex
    exact ((h.mem_iff (hrange i hi)).mp hb).1
  · intro hb
    have hlt := hindex b hb
    refine ⟨index b, List.mem_range'_1.mpr ⟨Nat.zero_le _, by omega⟩, ?_⟩
    exact (h.mem_iff hlt).mpr ⟨hb, rfl⟩

/-- Distinct numbers below a bound are at most that many. -/
theorem length_le_of_nodup {l : List ℕ} (hl : l.Nodup) (h : ∀ b ∈ l, b < n) : l.length ≤ n := by
  have hsub : l.Subperm (List.range n) := hl.subperm (fun b hb => List.mem_range.mpr (h b hb))
  simpa only [List.length_range] using hsub.length_le

end LazyFS.SortedPiles
