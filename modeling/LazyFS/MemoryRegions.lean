import Mathlib

/-!
# Memory regions

A region holds the blocks of one type that are allocated. A block that is not
allocated has no contents, so an access through a dangling pointer is seen,
and a block is freed at most once. A view of a region keeps one part of the
contents of every block; a write is described by the views that it changes.
-/

namespace LazyFS.MemoryRegions

/-- The ways in which code that works on memory stops before its end. -/
inductive Fault where
  /-- A block is accessed or freed that is not allocated. -/
  | dangling
  /-- An array is indexed outside its bounds. -/
  | outOfBounds
  /-- A division by zero. -/
  | divisionByZero
  /-- A shift by the width of the type or more. -/
  | wideShift
  /-- Pointers are followed for more steps than there are blocks. -/
  | unending
  /-- The allocator has nothing left, and the program exits. -/
  | outOfMemory
  /-- An integrity check fails, and the program exits. -/
  | corrupt
  deriving DecidableEq, Repr

/-- A computation on memory. -/
abbrev Access (β : Type) := Except Fault β

/-- The blocks of one type, by address. Addresses are never reused. -/
structure Region (β : Type) where
  /-- The contents of the allocated blocks. -/
  cell : ℕ → Option β
  /-- The address of the next block. -/
  next : ℕ
  /-- Nothing is allocated from there on. -/
  bounded : ∀ b, next ≤ b → cell b = none

/-- An index that is checked. -/
def nth {β : Type} (l : List β) (i : ℕ) : Access β :=
  match l[i]? with
  | some v => .ok v
  | none => .error .outOfBounds

/-- A pointer that is followed. -/
def deref (p : Option ℕ) : Access ℕ :=
  match p with
  | some b => .ok b
  | none => .error .dangling

namespace Region

variable {β γ : Type}

/-- A region in which nothing was ever allocated. -/
def empty : Region β := ⟨fun _ => none, 0, fun _ _ => rfl⟩

/-- Whether a block is allocated. -/
def Live (r : Region β) (b : ℕ) : Prop := (r.cell b).isSome

/-- Allocate a block with the given contents. -/
def alloc (r : Region β) (v : β) : ℕ × Region β :=
  (r.next, ⟨Function.update r.cell r.next (some v), r.next + 1, fun b hb => by
    rw [Function.update_of_ne (by omega)]
    exact r.bounded b (by omega)⟩)

/-- Replace the contents of an allocated block. -/
def put (r : Region β) (b : ℕ) (v : β) (h : r.Live b) : Region β :=
  ⟨Function.update r.cell b (some v), r.next, fun c hc => by
    have hne : c ≠ b := by
      intro he
      rw [Live, ← he, r.bounded c hc] at h
      cases h
    rw [Function.update_of_ne hne]
    exact r.bounded c hc⟩

/-- Read through a pointer. -/
def read (r : Region β) (b : ℕ) : Access β :=
  match r.cell b with
  | some v => .ok v
  | none => .error .dangling

/-- Write through a pointer. -/
def modify (r : Region β) (b : ℕ) (f : β → β) : Access (Region β) :=
  match h : r.cell b with
  | some v => .ok (r.put b (f v) (by rw [Live, h]; rfl))
  | none => .error .dangling

/-- Free a block. -/
def free (r : Region β) (b : ℕ) : Access (Region β) :=
  if (r.cell b).isSome then
    .ok ⟨Function.update r.cell b none, r.next, fun c hc => by
      by_cases hcb : c = b
      · rw [hcb, Function.update_self]
      · rw [Function.update_of_ne hcb]
        exact r.bounded c hc⟩
  else .error .dangling

/-- One part of the contents of every allocated block. -/
def view (g : β → γ) (r : Region β) (b : ℕ) : Option γ := (r.cell b).map g

variable {r : Region β} {b : ℕ} {v : β}

/-- An allocated block is below the next free one. -/
theorem live_lt (h : r.Live b) : b < r.next := by
  by_contra hge
  rw [Live, r.bounded b (by omega)] at h
  cases h

/-- A view of a block shows what the block holds. -/
theorem cell_of_view {g : β → γ} {x : γ} (h : r.view g b = some x) :
    ∃ v, r.cell b = some v ∧ g v = x := Option.map_eq_some_iff.mp h

/-- What a block holds is seen through every view. -/
theorem view_of_cell (g : β → γ) (h : r.cell b = some v) : r.view g b = some (g v) := by
  rw [view, h, Option.map_some]

/-- A block that a view shows is allocated. -/
theorem live_of_view {g : β → γ} {x : γ} (h : r.view g b = some x) : r.Live b := by
  obtain ⟨v, hv, -⟩ := cell_of_view h
  rw [Live, hv]
  rfl

/-- A block that holds something is allocated. -/
theorem live_of_cell (h : r.cell b = some v) : r.Live b := by
  rw [Live, h]
  rfl

/-- A block is read as it is. -/
theorem read_of_cell (h : r.cell b = some v) : r.read b = .ok v := by
  simp only [read, h]

/-- A write through a pointer to an allocated block. -/
theorem modify_of_cell (h : r.cell b = some v) (f : β → β) :
    ∃ r', r.modify b f = .ok r' ∧ r'.cell = Function.update r.cell b (some (f v)) ∧
      r'.next = r.next := by
  unfold modify
  split
  · next v' hv' =>
    rw [h] at hv'
    cases hv'
    exact ⟨_, rfl, rfl, rfl⟩
  · next hnone =>
    rw [h] at hnone
    cases hnone

/-- Freeing an allocated block. -/
theorem free_of_live (h : r.Live b) :
    ∃ r', r.free b = .ok r' ∧ r'.cell = Function.update r.cell b none ∧ r'.next = r.next := by
  have hsome : (r.cell b).isSome = true := h
  simp only [free, if_pos hsome]
  exact ⟨_, rfl, rfl, rfl⟩

/-- A write changes a view at one address. -/
theorem view_update {r' : Region β} (g : β → γ) {v : β}
    (h : r'.cell = Function.update r.cell b (some v)) :
    r'.view g = Function.update (r.view g) b (some (g v)) := by
  funext c
  by_cases hc : c = b
  · rw [hc, view, h, Function.update_self, Function.update_self, Option.map_some]
  · rw [view, h, Function.update_of_ne hc, Function.update_of_ne hc, view]

/-- A write that keeps a part of the contents keeps the view of it. -/
theorem view_update_same {r' : Region β} {g : β → γ} {v v' : β} (hv : r.cell b = some v)
    (h : r'.cell = Function.update r.cell b (some v')) (hg : g v' = g v) :
    r'.view g = r.view g := by
  rw [view_update g h, hg, ← view_of_cell g hv, Function.update_eq_self]

/-- Fresh blocks hold nothing. -/
theorem cell_next (r : Region β) : r.cell r.next = none := r.bounded _ le_rfl

end Region

/-- A pointer to a block may be followed. -/
theorem deref_some (b : ℕ) : deref (some b) = .ok b := rfl

/-- An index within the array is defined. -/
theorem nth_of_getElem {β : Type} {l : List β} {i : ℕ} {v : β} (h : l[i]? = some v) :
    nth l i = .ok v := by
  simp only [nth, h]

end LazyFS.MemoryRegions
