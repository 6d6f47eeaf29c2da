import Mathlib

/-!
# Loops over a list that their body changes

A `for` loop over a list keeps an index, not a copy of the list. If the body
removes the element at the index, the next element moves into its place and the
index moves past it, so that element is not visited. What such a loop leaves and
what it visits are functions of the list alone, and they are what one would expect
only if nothing is lost by leaving out the successor of a removed element.
-/

namespace LazyFS.IndexedLoops

variable {σ α β : Type}

/-- A loop from index `i` on, over a list that is a part of the state: what the
body gives out, and the state afterwards. -/
def forEach (list : σ → List α) (body : σ → α → List β × σ) : (fuel i : ℕ) → σ → List β × σ
  | 0, _, s => ([], s)
  | fuel + 1, i, s =>
    match (list s)[i]? with
    | none => ([], s)
    | some x =>
      let rest := forEach list body fuel (i + 1) (body s x).2
      ((body s x).1 ++ rest.1, rest.2)

/-- Run the body for some elements, one after the other. -/
def runBody (body : σ → α → List β × σ) : σ → List α → List β × σ
  | s, [] => ([], s)
  | s, x :: xs =>
    let rest := runBody body (body s x).2 xs
    ((body s x).1 ++ rest.1, rest.2)

/-- What is left of a list when the loop removes the bad elements that it visits. -/
def survivors (bad : α → Bool) : List α → List α
  | [] => []
  | [x] => if bad x then [] else [x]
  | x :: y :: xs => if bad x then y :: survivors bad xs else x :: survivors bad (y :: xs)

/-- What a loop visits when it removes the bad elements that it visits. -/
def visited (bad : α → Bool) : List α → List α
  | [] => []
  | [x] => [x]
  | x :: y :: xs => if bad x then x :: visited bad xs else x :: visited bad (y :: xs)

variable {bad : α → Bool} {x : α} {xs : List α}

/-- A bad element goes, and the loop misses the one behind it. -/
theorem survivors_of_bad (h : bad x = true) (y : α) (xs : List α) :
    survivors bad (x :: y :: xs) = y :: survivors bad xs := by
  rw [survivors, if_pos h]

/-- A good element stays. -/
theorem survivors_of_good (h : bad x = false) (xs : List α) :
    survivors bad (x :: xs) = x :: survivors bad xs := by
  cases xs with
  | nil => simp only [survivors, h, Bool.false_eq_true, if_false]
  | cons y ys => simp only [survivors, h, Bool.false_eq_true, if_false]

/-- A bad element is visited, and the one behind it is not. -/
theorem visited_of_bad (h : bad x = true) (y : α) (xs : List α) :
    visited bad (x :: y :: xs) = x :: visited bad xs := by
  rw [visited, if_pos h]

/-- A good element is visited, and then the one behind it. -/
theorem visited_of_good (h : bad x = false) (xs : List α) :
    visited bad (x :: xs) = x :: visited bad xs := by
  cases xs with
  | nil => rfl
  | cons y ys => simp only [visited, h, Bool.false_eq_true, if_false]

/-- What is left was there before, in the same order. -/
theorem survivors_sublist (bad : α → Bool) (xs : List α) : (survivors bad xs).Sublist xs := by
  induction xs using survivors.induct bad with
  | case1 => exact List.Sublist.refl []
  | case2 x hx =>
    rw [survivors, if_pos hx]
    exact List.nil_sublist [x]
  | case3 x hx =>
    rw [survivors, if_neg hx]
  | case4 x y xs hx ih =>
    rw [survivors_of_bad hx]
    exact (ih.cons_cons y).cons x
  | case5 x y xs hx ih =>
    rw [survivors_of_good (Bool.eq_false_of_not_eq_true hx)]
    exact ih.cons_cons x

/-- What is visited is in the list. -/
theorem visited_subset (bad : α → Bool) (xs : List α) : visited bad xs ⊆ xs := by
  induction xs using survivors.induct bad with
  | case1 => exact List.Subset.refl []
  | case2 x _ => exact List.Subset.refl [x]
  | case3 x _ => exact List.Subset.refl [x]
  | case4 x y xs hx ih =>
    rw [visited_of_bad hx]
    exact List.cons_subset_cons x (List.subset_cons_of_subset y ih)
  | case5 x y xs hx ih =>
    rw [visited_of_good (Bool.eq_false_of_not_eq_true hx)]
    exact List.cons_subset_cons x ih

/-- What is left is what the loop does not visit or does not find bad. -/
theorem mem_survivors_iff (hnodup : xs.Nodup) :
    x ∈ survivors bad xs ↔ x ∈ xs ∧ ¬ (x ∈ visited bad xs ∧ bad x = true) := by
  induction xs using survivors.induct bad with
  | case1 => simp [survivors]
  | case2 y hy =>
    simp only [survivors, visited, hy, if_true, List.not_mem_nil, List.mem_singleton, false_iff]
    rintro ⟨rfl, hkept⟩
    exact hkept ⟨rfl, hy⟩
  | case3 y hy =>
    simp only [survivors, visited, hy, Bool.false_eq_true, if_false, List.mem_singleton]
    refine (and_iff_left_of_imp ?_).symm
    rintro rfl
    exact fun h => hy h.2
  | case4 y z xs hy ih =>
    obtain ⟨hyfresh, hznodup⟩ := List.nodup_cons.mp hnodup
    obtain ⟨hzfresh, hxs⟩ := List.nodup_cons.mp hznodup
    rw [survivors_of_bad hy, visited_of_bad hy]
    simp only [List.mem_cons, ih hxs]
    constructor
    · rintro (rfl | ⟨hx, hkept⟩)
      · -- The element behind the bad one is not visited.
        refine ⟨Or.inr (Or.inl rfl), ?_⟩
        rintro ⟨rfl | hvisited, -⟩
        · exact hyfresh List.mem_cons_self
        · exact hzfresh (visited_subset bad xs hvisited)
      · refine ⟨Or.inr (Or.inr hx), ?_⟩
        rintro ⟨rfl | hvisited, hbad⟩
        · exact hyfresh (List.mem_cons_of_mem z hx)
        · exact hkept ⟨hvisited, hbad⟩
    · rintro ⟨rfl | rfl | hx, hkept⟩
      · exact absurd ⟨Or.inl rfl, hy⟩ hkept
      · exact Or.inl rfl
      · exact Or.inr ⟨hx, fun h => hkept ⟨Or.inr h.1, h.2⟩⟩
  | case5 y z xs hy ih =>
    have hgood := Bool.eq_false_of_not_eq_true hy
    rw [survivors_of_good hgood, visited_of_good hgood]
    simp only [List.mem_cons, ih (List.nodup_cons.mp hnodup).2]
    by_cases hx : x = y
    · subst hx
      simp [hgood]
    · simp only [hx, false_or]

/-- Nothing is left of a list only if it was empty, or held one bad element. -/
theorem survivors_eq_nil_iff : survivors bad xs = [] ↔ xs = [] ∨ ∃ x, xs = [x] ∧ bad x = true := by
  match xs with
  | [] => simp [survivors]
  | [x] => cases h : bad x <;> simp [survivors, h]
  | x :: y :: xs => cases h : bad x <;> simp [survivors, h]

section Removing

variable {list : σ → List α} {body : σ → α → List β × σ}

/-- What every run of the body keeps is kept. -/
theorem runBody_rule {I : σ → Prop} (hstep : ∀ s x, I s → I (body s x).2) {s : σ} (hs : I s)
    (xs : List α) : I (runBody body s xs).2 := by
  induction xs generalizing s with
  | nil => exact hs
  | cons x xs ih => exact ih (hstep s x hs)

/-- If what the body gives out does not depend on the state, the run gives it out
for each element. -/
theorem runBody_yields {out : α → List β} (hout : ∀ s x, (body s x).1 = out x) (s : σ)
    (xs : List α) : (runBody body s xs).1 = xs.flatMap out := by
  induction xs generalizing s with
  | nil => rfl
  | cons x xs ih => rw [runBody, hout, ih, List.flatMap_cons]

/-- Behind the end of the list the loop stops. -/
theorem forEach_none {fuel i : ℕ} {s : σ} (h : (list s)[i]? = none) :
    forEach list body (fuel + 1) i s = ([], s) := by
  simp only [forEach, h]

/-- Within the list the body runs, and the loop goes on one place further. -/
theorem forEach_some {fuel i : ℕ} {s : σ} (h : (list s)[i]? = some x) :
    forEach list body (fuel + 1) i s =
      ((body s x).1 ++ (forEach list body fuel (i + 1) (body s x).2).1,
        (forEach list body fuel (i + 1) (body s x).2).2) := by
  simp only [forEach, h]

/-- What the body keeps is kept by the loop. -/
theorem forEach_rule {I : σ → Prop} (hstep : ∀ s x, I s → I (body s x).2) {fuel i : ℕ} {s : σ}
    (hs : I s) : I (forEach list body fuel i s).2 := by
  induction fuel generalizing i s with
  | zero => exact hs
  | succ fuel ih =>
    cases hx : (list s)[i]? with
    | none =>
      rw [forEach_none hx]
      exact hs
    | some x =>
      rw [forEach_some hx]
      exact ih (hstep s x hs)

variable [DecidableEq α]

/-- The body removes the bad elements and leaves the list alone otherwise. -/
def Removes (list : σ → List α) (body : σ → α → List β × σ) (bad : α → Bool) : Prop :=
  ∀ s x, list (body s x).2 = if bad x then (list s).erase x else list s

/-- A loop over a list without duplicates runs the body for the visited elements,
and leaves the survivors. The elements in front of the index stay as they are. -/
theorem forEach_eq (hbody : Removes list body bad) {fuel : ℕ} {s : σ} {front rest : List α}
    (hs : list s = front ++ rest) (hnodup : (front ++ rest).Nodup) (hfuel : rest.length ≤ fuel) :
    forEach list body fuel front.length s = runBody body s (visited bad rest) ∧
      list (forEach list body fuel front.length s).2 = front ++ survivors bad rest := by
  induction fuel generalizing s front rest with
  | zero =>
    obtain rfl := List.length_eq_zero_iff.mp (Nat.le_zero.mp hfuel)
    exact ⟨rfl, hs⟩
  | succ fuel ih =>
    cases rest with
    | nil =>
      have hend : (list s)[front.length]? = none := by
        rw [hs, List.append_nil]
        exact List.getElem?_eq_none le_rfl
      rw [forEach_none hend]
      exact ⟨rfl, hs⟩
    | cons x rest =>
      have hx : (list s)[front.length]? = some x := by
        rw [hs, List.getElem?_append_right le_rfl, Nat.sub_self, List.getElem?_cons_zero]
      have hlist := hbody s x
      have hrest : rest.length ≤ fuel := Nat.le_of_succ_le_succ hfuel
      rw [forEach_some hx]
      cases hbad : bad x with
      | false =>
        rw [hbad, if_neg Bool.false_ne_true, hs, List.append_cons] at hlist
        obtain ⟨hrun, hleft⟩ := ih hlist (List.append_cons front x rest ▸ hnodup) hrest
        rw [List.length_append, List.length_singleton] at hrun hleft
        rw [visited_of_good hbad, survivors_of_good hbad, List.append_cons]
        exact ⟨by simp only [hrun, runBody], hleft⟩
      | true =>
        have hfront : x ∉ front := by
          have hcross := (List.nodup_append.mp hnodup).2.2
          exact fun hmem => hcross x hmem x List.mem_cons_self rfl
        rw [hbad, if_pos rfl, hs, List.erase_append_right _ hfront, List.erase_cons_head] at hlist
        cases rest with
        | nil =>
          -- The index is behind the end of what is left.
          rw [List.append_nil] at hlist
          have hend : (list (body s x).2)[front.length + 1]? = none := by
            rw [hlist]
            exact List.getElem?_eq_none (Nat.le_succ _)
          have hstop : forEach list body fuel (front.length + 1) (body s x).2 =
              ([], (body s x).2) := by
            cases fuel with
            | zero => rfl
            | succ fuel => rw [forEach_none hend]
          have hsurvivors : survivors bad [x] = [] := if_pos hbad
          rw [hstop, hsurvivors]
          exact ⟨rfl, hlist.trans (List.append_nil front).symm⟩
        | cons y rest =>
          -- The element behind the removed one is now in front of the index.
          rw [List.append_cons] at hlist
          have hnodup' : (front ++ [y] ++ rest).Nodup := by
            rw [← List.append_cons]
            exact hnodup.sublist (List.Sublist.append_left (List.sublist_cons_self x _) front)
          obtain ⟨hrun, hleft⟩ := ih hlist hnodup' (Nat.le_of_succ_le hrest)
          rw [List.length_append, List.length_singleton] at hrun hleft
          rw [visited_of_bad hbad, survivors_of_bad hbad, List.append_cons]
          exact ⟨by simp only [hrun, runBody], hleft⟩

end Removing

section Complete

variable {act exp : α → List β}

/-- The filter drops a bad element. -/
theorem filter_of_bad (h : bad x = true) (xs : List α) :
    (x :: xs).filter (fun x => !bad x) = xs.filter (fun x => !bad x) := by
  simp [h]

/-- The filter keeps a good element. -/
theorem filter_of_good (h : bad x = false) (xs : List α) :
    (x :: xs).filter (fun x => !bad x) = x :: xs.filter (fun x => !bad x) := by
  simp [h]

/-- A loop that gives out no more than it should for each element gives out no
more than it should in all. -/
theorem length_visited_le (hact : ∀ x, act x = exp x ∨ act x = [])
    (hbad : ∀ x, bad x = true → act x = []) (xs : List α) :
    ((visited bad xs).flatMap act).length ≤
      ((xs.filter (fun x => !bad x)).flatMap exp).length := by
  have hle : ∀ x, (act x).length ≤ (exp x).length := by
    intro x
    rcases hact x with heq | hnil
    · exact heq ▸ le_rfl
    · rw [hnil]
      exact Nat.zero_le _
  induction xs using survivors.induct bad with
  | case1 => exact le_rfl
  | case2 x hx =>
    rw [filter_of_bad hx, visited, List.flatMap_cons, hbad x hx]
    exact Nat.zero_le _
  | case3 x hx =>
    have hgood := Bool.eq_false_of_not_eq_true hx
    rw [filter_of_good hgood, visited, List.flatMap_cons, List.flatMap_cons, List.length_append,
      List.length_append]
    exact Nat.add_le_add (hle x) le_rfl
  | case4 x y xs hx ih =>
    rw [filter_of_bad hx, visited_of_bad hx, List.flatMap_cons, hbad x hx, List.nil_append]
    cases hy : bad y with
    | true =>
      rw [filter_of_bad hy]
      exact ih
    | false =>
      rw [filter_of_good hy, List.flatMap_cons, List.length_append]
      exact ih.trans (Nat.le_add_left _ _)
  | case5 x y xs hx ih =>
    have hgood := Bool.eq_false_of_not_eq_true hx
    rw [filter_of_good hgood, visited_of_good hgood, List.flatMap_cons, List.flatMap_cons,
      List.length_append, List.length_append]
    exact Nat.add_le_add (hle x) ih

/-- The loop leaves exactly the good elements, and gives out all it should for
them, if and only if whatever follows a bad element is good and has nothing to
give, and nothing is withheld. -/
theorem complete_iff (hact : ∀ x, act x = exp x ∨ act x = [])
    (hbad : ∀ x, bad x = true → act x = []) (xs : List α) :
    (survivors bad xs = xs.filter (fun x => !bad x) ∧
        (visited bad xs).flatMap act = (xs.filter (fun x => !bad x)).flatMap exp) ↔
      xs.IsChain (fun x y => bad x = true → bad y = false ∧ exp y = []) ∧
        ∀ x ∈ xs, bad x = false → act x = exp x := by
  induction xs using survivors.induct bad with
  | case1 => simp [survivors, visited]
  | case2 x hx => simp [survivors, visited, hx, hbad x hx]
  | case3 x hx =>
    have hgood := Bool.eq_false_of_not_eq_true hx
    simp [survivors, visited, hgood]
  | case4 x y xs hx ih =>
    rw [filter_of_bad hx, visited_of_bad hx, survivors_of_bad hx, List.flatMap_cons, hbad x hx,
      List.nil_append, List.isChain_cons_cons]
    cases hy : bad y with
    | true =>
      -- The skipped element is bad, and stays.
      rw [filter_of_bad hy]
      constructor
      · intro h
        have hmem : y ∈ xs.filter (fun x => !bad x) := h.1 ▸ List.mem_cons_self
        have hgood := (List.mem_filter.mp hmem).2
        rw [hy] at hgood
        cases hgood
      · intro h
        cases (h.1.1 hx).1
    | false =>
      have hchain : (y :: xs).IsChain (fun x y => bad x = true → bad y = false ∧ exp y = []) ↔
          xs.IsChain (fun x y => bad x = true → bad y = false ∧ exp y = []) := by
        cases xs with
        | nil => simp
        | cons z xs => simp [List.isChain_cons_cons, hy]
      rw [filter_of_good hy, List.flatMap_cons, List.cons_inj_right, hchain]
      constructor
      · intro h
        obtain ⟨hleft, hgiven⟩ := h
        -- What the skipped element should give would be missing.
        have hle := length_visited_le hact hbad xs
        have hlength := congrArg List.length hgiven
        rw [List.length_append] at hlength
        have hy : exp y = [] := List.length_eq_zero_iff.mp (by omega)
        rw [hy, List.nil_append] at hgiven
        obtain ⟨hrest, hall⟩ := ih.mp ⟨hleft, hgiven⟩
        refine ⟨⟨fun _ => ⟨rfl, hy⟩, hrest⟩, ?_⟩
        intro z hz hgood
        rcases List.mem_cons.mp hz with rfl | hz
        · rw [hx] at hgood
          cases hgood
        rcases List.mem_cons.mp hz with rfl | hz
        · rcases hact z with heq | hnil
          · exact heq
          · rw [hnil, hy]
        · exact hall z hz hgood
      · intro h
        obtain ⟨⟨hnext, hrest⟩, hall⟩ := h
        obtain ⟨hleft, hgiven⟩ := ih.mpr ⟨hrest, fun z hz =>
          hall z (List.mem_cons_of_mem x (List.mem_cons_of_mem y hz))⟩
        refine ⟨hleft, ?_⟩
        rw [(hnext hx).2, List.nil_append]
        exact hgiven
  | case5 x y xs hx ih =>
    have hgood := Bool.eq_false_of_not_eq_true hx
    have hvacuous : (bad x = true → bad y = false ∧ exp y = []) ↔ True :=
      iff_of_true (fun h => absurd h hx) trivial
    rw [filter_of_good hgood, visited_of_good hgood, survivors_of_good hgood, List.flatMap_cons,
      List.flatMap_cons, List.isChain_cons_cons, hvacuous, true_and, List.cons_inj_right,
      List.forall_mem_cons]
    constructor
    · intro h
      obtain ⟨hleft, hgiven⟩ := h
      have hx : act x = exp x := by
        rcases hact x with heq | hnil
        · exact heq
        · -- What is withheld would be missing.
          have hle := length_visited_le hact hbad (y :: xs)
          have hlength := congrArg List.length hgiven
          rw [hnil, List.length_append, List.length_append, List.length_nil] at hlength
          rw [hnil, List.length_eq_zero_iff.mp (show (exp x).length = 0 by omega)]
      rw [hx] at hgiven
      obtain ⟨hrest, hall⟩ := ih.mp ⟨hleft, List.append_cancel_left hgiven⟩
      exact ⟨hrest, fun _ => hx, hall⟩
    · intro h
      obtain ⟨hrest, hx, hall⟩ := h
      obtain ⟨hleft, hgiven⟩ := ih.mpr ⟨hrest, hall⟩
      exact ⟨hleft, by rw [hx hgood, hgiven]⟩

end Complete

end LazyFS.IndexedLoops
