import Mathlib

/-!
# Histories in a circular buffer

A buffer of `N` slots keeps the last `N` values that were written to it. The
slots lie in a circle, and the index of the newest one is known; a slot that was
never written holds a default. A walk around the circle that starts behind the
newest slot and stops at it reads the history from its oldest value on, and
leaves the newest one out.
-/

namespace LazyFS.RingHistory

variable {α : Type}

/-- A circular buffer. -/
structure CircularBuffer (α : Type) where
  /-- The contents of the slots. -/
  slots : ℕ → α
  /-- The index of the slot that was written last. -/
  last : ℕ

/-- A buffer that was never written. -/
def CircularBuffer.start (d : α) : CircularBuffer α := ⟨fun _ => d, 0⟩

/-- Write the next slot of `N`. -/
def CircularBuffer.push (N : ℕ) (r : CircularBuffer α) (v : α) : CircularBuffer α :=
  ⟨Function.update r.slots ((r.last + 1) % N) v, (r.last + 1) % N⟩

/-- Read from slot `i` on until the newest slot comes, if it does within the fuel. -/
def CircularBuffer.walk (N : ℕ) (r : CircularBuffer α) : (fuel i : ℕ) → Option (List α)
  | 0, _ => none
  | fuel + 1, i =>
    if i = r.last then some []
    else (r.walk N fuel ((i + 1) % N)).map (r.slots i :: ·)

/-- Walk once around. -/
def CircularBuffer.dump (N : ℕ) (r : CircularBuffer α) : Option (List α) :=
  r.walk N N ((r.last + 1) % N)

/-- A part of what the slots hold. -/
def CircularBuffer.map {β : Type} (f : α → β) (r : CircularBuffer α) : CircularBuffer β :=
  ⟨fun i => f (r.slots i), r.last⟩

/-- A buffer holds the last `N` of the values `vs`: so many steps back from the
newest slot stands the value that was written so many values ago. -/
structure Remembers (N : ℕ) (d : α) (r : CircularBuffer α) (vs : List α) : Prop where
  /-- The newest slot is one of the slots. -/
  last_lt : r.last < N
  /-- The slot `k` steps back. -/
  back : ∀ k < N, r.slots ((r.last + (N - k)) % N) = vs.reverse.getD k d

/-- The values that a walk reads: the last `N` values without the newest, and
defaults in place of the values there are not. -/
def history (N : ℕ) (d : α) (vs : List α) : List α :=
  (List.replicate (N - 1) d ++ vs.dropLast).drop (vs.length - 1)

variable {N : ℕ} {d v : α} {r : CircularBuffer α} {vs : List α}

/-- A slot counted from the newest one, backwards. -/
theorem step_back {a k : ℕ} (ha : a < N) (hk : k < N) (h : (a + (N - k)) % N = a) : k = 0 := by
  by_contra hne
  by_cases hwrap : a + (N - k) < N
  · rw [Nat.mod_eq_of_lt hwrap] at h
    omega
  · rw [Nat.mod_eq_sub_mod (by omega), Nat.mod_eq_of_lt (by omega)] at h
    omega

/-- A new buffer remembers that nothing came in. -/
theorem remembers_start (hN : 0 < N) : Remembers N d (CircularBuffer.start d) [] := by
  refine ⟨hN, ?_⟩
  intro k _
  rfl

/-- A write adds the newest value, and the oldest one is overwritten. -/
theorem Remembers.push (h : Remembers N d r vs) (v : α) :
    Remembers N d (r.push N v) (vs ++ [v]) := by
  have hN : 0 < N := Nat.zero_lt_of_lt h.last_lt
  have hlast : (r.last + 1) % N < N := Nat.mod_lt _ hN
  refine ⟨hlast, ?_⟩
  intro k hk
  rw [List.reverse_append, List.reverse_singleton, List.singleton_append]
  cases k with
  | zero =>
    have hsame : ((r.last + 1) % N + (N - 0)) % N = (r.last + 1) % N := by
      rw [Nat.sub_zero, Nat.add_mod_right, Nat.mod_mod]
    simp only [CircularBuffer.push, hsame, Function.update_self, List.getD_cons_zero]
  | succ k =>
    have hne : ((r.last + 1) % N + (N - (k + 1))) % N ≠ (r.last + 1) % N := by
      intro heq
      exact Nat.succ_ne_zero k (step_back hlast hk heq)
    have hold : ((r.last + 1) % N + (N - (k + 1))) % N = (r.last + (N - k)) % N := by
      rw [Nat.mod_add_mod]
      congr 1
      omega
    rw [hold] at hne
    simp only [CircularBuffer.push, hold, Function.update_of_ne hne, h.back k (by omega),
      List.getD_cons_succ]

/-- After any number of writes the buffer holds the last values written. -/
theorem remembers_foldl (hN : 0 < N) (d : α) (vs : List α) :
    Remembers N d (vs.foldl (CircularBuffer.push N) (CircularBuffer.start d)) vs := by
  induction vs using List.reverseRecOn with
  | nil => exact remembers_start hN
  | append_singleton vs v ih =>
    rw [List.foldl_append, List.foldl_cons, List.foldl_nil]
    exact ih.push v

/-- A part of the slots remembers that part of the values. -/
theorem Remembers.map {β : Type} (h : Remembers N d r vs) (f : α → β) :
    Remembers N (f d) (r.map f) (vs.map f) := by
  refine ⟨h.last_lt, ?_⟩
  intro k hk
  have hslot : (r.map f).slots ((r.last + (N - k)) % N) = f (r.slots ((r.last + (N - k)) % N)) :=
    rfl
  rw [show (r.map f).last = r.last from rfl, hslot, h.back k hk, ← List.map_reverse,
    List.getD_map]

/-- A walk from `j` slots behind the newest one reads what is left of the circle. -/
theorem walk_eq (hlast : r.last < N) {fuel j : ℕ} (hj : 0 < j) (hjN : j ≤ N)
    (hfuel : N - j < fuel) :
    r.walk N fuel ((r.last + j) % N) =
      some ((List.range (N - j)).map (fun e => r.slots ((r.last + (j + e)) % N))) := by
  induction fuel generalizing j with
  | zero => omega
  | succ fuel ih =>
    by_cases hend : j = N
    · have hstop : (r.last + j) % N = r.last := by
        rw [hend, Nat.add_mod_right, Nat.mod_eq_of_lt hlast]
      rw [CircularBuffer.walk, if_pos hstop, hend, Nat.sub_self, List.range_zero, List.map_nil]
    · have hgo : (r.last + j) % N ≠ r.last := by
        intro heq
        have hback : (r.last + (N - (N - j))) % N = r.last := by
          rw [Nat.sub_sub_self hjN]
          exact heq
        have hzero := step_back hlast (show N - j < N by omega) hback
        omega
      have hnext : ((r.last + j) % N + 1) % N = (r.last + (j + 1)) % N := by
        rw [Nat.mod_add_mod, Nat.add_assoc]
      have hrest := ih (j := j + 1) (by omega) (by omega) (by omega)
      have hcount : N - j = (N - (j + 1)) + 1 := by omega
      rw [CircularBuffer.walk, if_neg hgo, hnext, hrest, Option.map_some, hcount,
        List.range_succ_eq_map, List.map_cons, List.map_map, Nat.add_zero]
      congr 3
      funext e
      simp only [Function.comp_apply, Nat.succ_eq_add_one, Nat.add_assoc, Nat.add_comm 1 e]

/-- A walk around the circle reads the history. -/
theorem dump_eq (h : Remembers N d r vs) : r.dump N = some (history N d vs) := by
  have hN : 0 < N := Nat.zero_lt_of_lt h.last_lt
  rw [CircularBuffer.dump, walk_eq h.last_lt Nat.one_pos hN (by omega)]
  congr 1
  have hlen : (history N d vs).length = N - 1 := by
    simp only [history, List.length_drop, List.length_append, List.length_replicate,
      List.length_dropLast]
    omega
  refine List.ext_getElem (by rw [List.length_map, List.length_range, hlen]) ?_
  intro e he he'
  rw [hlen] at he'
  have hslot := h.back (N - 1 - e) (by omega)
  have hindex : N - (N - 1 - e) = 1 + e := by omega
  rw [hindex] at hslot
  rw [List.getElem_map, List.getElem_range, hslot]
  simp only [history, List.getElem_drop]
  by_cases hshort : vs.length - 1 + e < N - 1
  · rw [List.getElem_append_left (by rw [List.length_replicate]; exact hshort),
      List.getElem_replicate, List.getD_eq_default]
    rw [List.length_reverse]
    omega
  · rw [List.getElem_append_right (by rw [List.length_replicate]; omega), List.getElem_dropLast,
      List.getD_eq_getElem _ _ (by rw [List.length_reverse]; omega), List.getElem_reverse]
    congr 1
    rw [List.length_replicate]
    omega

end LazyFS.RingHistory
