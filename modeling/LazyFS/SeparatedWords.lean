import Mathlib

/-!
# Words with a separator between them

A text splits at every separator, so it has one word more than separators, and the
words and the separators make up its length. What is no separator stays in its word.
-/

namespace LazyFS.SeparatedWords

variable {α : Type} {x c : α}

/-- Two lists of words are joined by one more separator. -/
theorem intercalate_append {xs ys : List (List α)} (hxs : xs ≠ []) (hys : ys ≠ []) :
    [x].intercalate (xs ++ ys) = [x].intercalate xs ++ x :: [x].intercalate ys := by
  induction xs with
  | nil => exact absurd rfl hxs
  | cons w xs ih =>
    cases xs with
    | nil =>
      rw [List.singleton_append, List.intercalate_cons_of_ne_nil hys, List.intercalate_singleton,
        List.append_assoc, List.singleton_append]
    | cons w' xs =>
      rw [List.cons_append, List.cons_append, List.intercalate_cons_cons, ← List.cons_append,
        ih (List.cons_ne_nil w' xs), List.intercalate_cons_cons, List.append_assoc,
        List.append_assoc, List.append_assoc]

/-- Joined words hold nothing but what the words hold, and separators. -/
theorem mem_intercalate {ws : List (List α)} (h : c ∈ [x].intercalate ws) :
    c = x ∨ ∃ w ∈ ws, c ∈ w := by
  induction ws with
  | nil => cases h
  | cons w ws ih =>
    cases ws with
    | nil =>
      rw [List.intercalate_singleton] at h
      exact Or.inr ⟨w, List.mem_cons_self, h⟩
    | cons w' ws =>
      rw [List.intercalate_cons_cons, List.append_assoc, List.singleton_append, List.mem_append,
        List.mem_cons] at h
      rcases h with h | h | h
      · exact Or.inr ⟨w, List.mem_cons_self, h⟩
      · exact Or.inl h
      · obtain h | ⟨v, hv, hc⟩ := ih h
        · exact Or.inl h
        · exact Or.inr ⟨v, List.mem_cons_of_mem w hv, hc⟩

variable [DecidableEq α]

/-- No word holds a separator. -/
theorem notMem_of_mem_splitOn {s w : List α} (h : w ∈ s.splitOn x) : x ∉ w := by
  induction s generalizing w with
  | nil =>
    rw [List.splitOn_nil, List.mem_singleton] at h
    subst h
    exact List.not_mem_nil
  | cons c s ih =>
    rw [List.splitOn_cons_eq_if_modifyHead] at h
    split_ifs at h with hc
    · rcases List.mem_cons.mp h with rfl | h
      · exact List.not_mem_nil
      · exact ih h
    · have hne : x ≠ c := fun heq => hc (by rw [heq]; exact beq_self_eq_true c)
      cases hwords : s.splitOn x with
      | nil => exact absurd hwords (List.splitOn_ne_nil x s)
      | cons v ws =>
        rw [hwords, List.modifyHead_cons] at h
        rcases List.mem_cons.mp h with rfl | h
        · have hv := ih (hwords ▸ List.mem_cons_self)
          rw [List.mem_cons, not_or]
          exact ⟨hne, hv⟩
        · exact ih (hwords ▸ List.mem_cons_of_mem v h)

/-- There is one word more than there are separators. -/
theorem length_splitOn (x : α) (s : List α) : (s.splitOn x).length = s.count x + 1 := by
  induction s with
  | nil => rfl
  | cons c s ih =>
    rw [List.splitOn_cons_eq_if_modifyHead, List.count_cons]
    split_ifs
    · rw [List.length_cons, ih]
    · rw [List.length_modifyHead, ih, Nat.add_zero]

/-- The words and the separators are the whole text. -/
theorem sum_length_splitOn (x : α) (s : List α) :
    ((s.splitOn x).map List.length).sum + s.count x = s.length := by
  induction s with
  | nil => rfl
  | cons c s ih =>
    rw [List.splitOn_cons_eq_if_modifyHead, List.count_cons, List.length_cons]
    split_ifs
    · rw [List.map_cons, List.sum_cons, List.length_nil, ← ih]
      omega
    · cases hwords : s.splitOn x with
      | nil => exact absurd hwords (List.splitOn_ne_nil x s)
      | cons w ws =>
        rw [hwords, List.map_cons, List.sum_cons] at ih
        rw [List.modifyHead_cons, List.map_cons, List.sum_cons, List.length_cons, ← ih]
        omega

/-- What comes first is in the first word. -/
theorem splitOn_cons_of_ne (h : c ≠ x) (s : List α) :
    ∃ w ws, (c :: s).splitOn x = (c :: w) :: ws := by
  rw [List.splitOn_cons_eq_if_modifyHead, if_neg (by simpa using h)]
  cases hwords : s.splitOn x with
  | nil => exact absurd hwords (List.splitOn_ne_nil x s)
  | cons w ws => exact ⟨w, ws, List.modifyHead_cons⟩

/-- What comes last is in the last word. -/
theorem splitOn_concat_of_ne (h : c ≠ x) (s : List α) :
    ∃ ws w, (s ++ [c]).splitOn x = ws ++ [w ++ [c]] := by
  induction s with
  | nil =>
    have hword : x ∉ [c] := by simpa using Ne.symm h
    exact ⟨[], [], List.splitOn_eq_singleton hword⟩
  | cons d s ih =>
    obtain ⟨ws, w, hwords⟩ := ih
    rw [List.cons_append, List.splitOn_cons_eq_if_modifyHead, hwords]
    split_ifs
    · exact ⟨[] :: ws, w, rfl⟩
    · cases ws with
      | nil => exact ⟨[], d :: w, rfl⟩
      | cons w' ws => exact ⟨(d :: w') :: ws, w, rfl⟩

end LazyFS.SeparatedWords
