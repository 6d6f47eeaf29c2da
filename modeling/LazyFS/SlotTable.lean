import Mathlib

/-!
# Tables that hand out the lowest free slot

A table is a list of slots, each free or occupied, with every slot past its
end free. Installing a value takes the lowest free slot, as an operating
system does with descriptor numbers; clearing frees one slot. The lemmas
describe both as point updates of the slot function.
-/

namespace LazyFS.SlotTable

variable {α : Type}

/-- The occupant of slot `n`; slots past the end are free. -/
def slot (table : List (Option α)) (n : ℕ) : Option α := table.getD n none

/-- Put a value in the lowest free slot and return that slot's number. -/
def install : List (Option α) → α → ℕ × List (Option α)
  | [], a => (0, [some a])
  | none :: rest, a => (0, some a :: rest)
  | some b :: rest, a => ((install rest a).1 + 1, some b :: (install rest a).2)

/-- Free slot `n`. -/
def clear (table : List (Option α)) (n : ℕ) : List (Option α) := table.set n none

/-- The slot handed out was free. -/
theorem slot_install_free (table : List (Option α)) (a : α) :
    slot table (install table a).1 = none := by
  induction table with
  | nil => rfl
  | cons head rest ih =>
    cases head with
    | none => rfl
    | some b => simpa only [install, slot, List.getD_cons_succ] using ih

/-- Installation occupies exactly the slot it returns. -/
theorem slot_install (table : List (Option α)) (a : α) (n : ℕ) :
    slot (install table a).2 n = if n = (install table a).1 then some a else slot table n := by
  induction table generalizing n with
  | nil => cases n <;> simp [install, slot]
  | cons head rest ih =>
    cases head with
    | none => cases n <;> simp [install, slot]
    | some b =>
      cases n with
      | zero => simp [install, slot]
      | succ n =>
        have hn := ih n
        simp only [slot] at hn
        simp only [install, slot, List.getD_cons_succ, hn, Nat.add_right_cancel_iff]

/-- Clearing frees exactly the named slot. -/
theorem slot_clear (table : List (Option α)) (m n : ℕ) :
    slot (clear table m) n = if n = m then none else slot table n := by
  simp only [slot, clear, List.getD_eq_getElem?_getD, List.getElem?_set]
  split_ifs with h1 h2 h3 h3 <;> simp_all

end LazyFS.SlotTable
