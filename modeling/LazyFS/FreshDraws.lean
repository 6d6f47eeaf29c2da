import Mathlib

/-!
# Collecting new values from a sequence of draws

Values are drawn until one comes that was not seen before, and that is repeated
until there are enough. The collection cannot hold more values than there are left.
If every value is drawn again and again, it comes to an end whenever there are
enough of them, and then further draws do not change it.
-/

namespace LazyFS.FreshDraws

variable {α β : Type} [DecidableEq β]

/-- Draw until the value is new: the value, and the draws that are left. -/
def firstFresh (f : α → β) (selected : Finset β) : List α → Option (β × List α)
  | [] => none
  | v :: draws => if f v ∈ selected then firstFresh f selected draws else some (f v, draws)

/-- Collect `n` new values. -/
def collect (f : α → β) : ℕ → Finset β → List α → Option (List β)
  | 0, _, _ => some []
  | n + 1, selected, draws =>
    match firstFresh f selected draws with
    | none => none
    | some (b, draws) => (collect f n (insert b selected) draws).map (fun bs => b :: bs)

/-- The values that can be drawn and are not selected. -/
def supply [Fintype α] (f : α → β) (selected : Finset β) : Finset β :=
  Finset.univ.image f \ selected

/-- Every value is drawn again and again. -/
def Fair (d : ℕ → α) : Prop := ∀ v i, ∃ j, i ≤ j ∧ d j = v

/-- The next `m` draws from the `i`th on. -/
def window (d : ℕ → α) (i m : ℕ) : List α := (List.range' i m).map d

/-- A window begins with its first draw. -/
theorem window_succ (d : ℕ → α) (i m : ℕ) : window d i (m + 1) = d i :: window d (i + 1) m := rfl

variable {f : α → β} {selected : Finset β} {draws : List α} {d : ℕ → α}

section Supply

variable [Fintype α]

/-- The supply holds the values of the function that are not selected. -/
theorem mem_supply {b : β} : b ∈ supply f selected ↔ (∃ v, f v = b) ∧ b ∉ selected := by
  simp only [supply, Finset.mem_sdiff, Finset.mem_image, Finset.mem_univ, true_and]

/-- A value that is selected leaves the supply. -/
theorem supply_insert (b : β) : supply f (insert b selected) = (supply f selected).erase b := by
  ext c
  simp only [mem_supply, Finset.mem_erase, Finset.mem_insert, not_or]
  tauto

/-- The values taken from an injection are as many as there are left to draw. -/
theorem card_supply (hf : Function.Injective f) :
    (supply f selected).card + (Finset.univ.filter (fun v => f v ∈ selected)).card =
      Fintype.card α := by
  have himage : supply f selected =
      (Finset.univ.filter (fun v => ¬ f v ∈ selected)).image f := by
    ext b
    simp only [mem_supply, Finset.mem_image, Finset.mem_filter, Finset.mem_univ, true_and]
    constructor
    · intro h
      obtain ⟨⟨v, rfl⟩, hv⟩ := h
      exact ⟨v, hv, rfl⟩
    · intro h
      obtain ⟨v, hv, rfl⟩ := h
      exact ⟨⟨v, rfl⟩, hv⟩
  rw [himage, Finset.card_image_of_injective _ hf, Nat.add_comm,
    Finset.card_filter_add_card_filter_not, Finset.card_univ]

/-- What is drawn was in the supply. -/
theorem firstFresh_mem {b : β} {rest : List α} (h : firstFresh f selected draws = some (b, rest)) :
    b ∈ supply f selected := by
  induction draws with
  | nil => cases h
  | cons v draws ih =>
    rw [firstFresh] at h
    split_ifs at h with hv
    · exact ih h
    · cases h
      exact mem_supply.mpr ⟨⟨v, rfl⟩, hv⟩

/-- No collection exceeds the supply. -/
theorem le_of_collect {n : ℕ} {bs : List β} (h : collect f n selected draws = some bs) :
    n ≤ (supply f selected).card := by
  induction n generalizing selected draws bs with
  | zero => exact Nat.zero_le _
  | succ n ih =>
    rw [collect] at h
    cases hfirst : firstFresh f selected draws with
    | none =>
      rw [hfirst] at h
      cases h
    | some out =>
      obtain ⟨b, rest⟩ := out
      rw [hfirst] at h
      obtain ⟨cs, hrest, -⟩ := Option.map_eq_some_iff.mp h
      have hmore := ih hrest
      have hb := firstFresh_mem hfirst
      rw [supply_insert, Finset.card_erase_of_mem hb] at hmore
      have hpos := Finset.card_pos.mpr ⟨b, hb⟩
      omega

end Supply

/-- A new value that is drawn at last is found, and the draws behind it are left. -/
theorem firstFresh_window {i j : ℕ} (hij : i ≤ j) (hj : f (d j) ∉ selected) :
    ∃ v k, f v ∉ selected ∧
      ∀ m, firstFresh f selected (window d i (k + m)) = some (f v, window d (i + k) m) := by
  obtain ⟨n, rfl⟩ := Nat.exists_eq_add_of_le hij
  induction n generalizing i with
  | zero =>
    rw [Nat.add_zero] at hj
    refine ⟨d i, 1, hj, fun m => ?_⟩
    rw [Nat.add_comm 1 m, window_succ, firstFresh, if_neg hj]
  | succ n ih =>
    by_cases hi : f (d i) ∈ selected
    · have hnext : i + (n + 1) = i + 1 + n := by omega
      obtain ⟨v, k, hv, hwindow⟩ := ih (i := i + 1) (Nat.le_add_right _ _) (hnext ▸ hj)
      refine ⟨v, k + 1, hv, fun m => ?_⟩
      rw [Nat.add_right_comm k 1 m, window_succ, firstFresh, if_pos hi, hwindow m,
        Nat.add_assoc i 1 k, Nat.add_comm 1 k]
    · refine ⟨d i, 1, hi, fun m => ?_⟩
      rw [Nat.add_comm 1 m, window_succ, firstFresh, if_neg hi]

/-- With fair draws a collection within the supply comes to an end. -/
theorem collect_window [Fintype α] (hd : Fair d) {n : ℕ} (hn : n ≤ (supply f selected).card)
    (i : ℕ) : ∃ k bs, ∀ m, collect f n selected (window d i (k + m)) = some bs := by
  induction n generalizing selected i with
  | zero => exact ⟨0, [], fun _ => rfl⟩
  | succ n ih =>
    obtain ⟨b, hb⟩ := Finset.card_pos.mp (Nat.lt_of_lt_of_le (Nat.succ_pos n) hn)
    obtain ⟨⟨v, rfl⟩, hv⟩ := mem_supply.mp hb
    obtain ⟨j, hij, hj⟩ := hd v i
    obtain ⟨u, k, hu, hwindow⟩ := firstFresh_window hij (hj ▸ hv : f (d j) ∉ selected)
    have hmem : f u ∈ supply f selected := mem_supply.mpr ⟨⟨u, rfl⟩, hu⟩
    have hleft : n ≤ (supply f (insert (f u) selected)).card := by
      rw [supply_insert, Finset.card_erase_of_mem hmem]
      omega
    obtain ⟨l, bs, hrest⟩ := ih hleft (i + k)
    refine ⟨k + l, f u :: bs, fun m => ?_⟩
    rw [collect, Nat.add_assoc, hwindow]
    dsimp only
    rw [hrest m, Option.map_some]

end LazyFS.FreshDraws
