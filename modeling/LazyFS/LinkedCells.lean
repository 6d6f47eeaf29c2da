import LazyFS.MachineWords

/-!
# Heap blocks and insertion-ordered lists of cells

An intrusive hash table is used here through four operations: find an item
by key, append an item, unlink an item by its address, and write a field
through its address. A cell is an item together with the heap block it lives
in. Appending never looks for an equal key, so lists of cells are finite maps
only while their keys stay distinct; under that invariant every operation is
a point update of `lookup`.
-/

namespace LazyFS.LinkedCells

open MachineWords

/-- Allocated blocks. Block numbers are never reused. -/
structure Heap where
  /-- Blocks that are allocated and not yet freed. -/
  live : Finset ℕ
  /-- The number of the next block. -/
  next : ℕ
  /-- The next block is not in use. -/
  bounded : ∀ b ∈ live, b < next

/-- A heap that has handed out nothing. -/
def Heap.empty : Heap := ⟨∅, 0, by simp only [Finset.notMem_empty, false_implies, implies_true]⟩

/-- Allocate the next block. -/
def Heap.malloc (heap : Heap) : ℕ × Heap :=
  (heap.next, ⟨insert heap.next heap.live, heap.next + 1, by
    intro b hb
    rcases Finset.mem_insert.mp hb with rfl | hb
    · exact Nat.lt_succ_self _
    · exact (heap.bounded b hb).trans (Nat.lt_succ_self _)⟩)

/-- Free a block; freeing anything but a live block is undefined. -/
def Heap.free (heap : Heap) (b : ℕ) : Outcome Heap :=
  if b ∈ heap.live then
    .ok ⟨heap.live.erase b, heap.next, fun c hc => heap.bounded c (Finset.mem_of_mem_erase hc)⟩
  else .error .invalidFree

/-- What is freed was live, and is live no more. -/
theorem Heap.free_eq_ok {heap heap' : Heap} {b : ℕ} (h : heap.free b = .ok heap') :
    b ∈ heap.live ∧ heap'.live = heap.live.erase b := by
  unfold Heap.free at h
  split_ifs at h with hb
  cases h
  exact ⟨hb, rfl⟩

/-- A live block can be freed. -/
theorem Heap.free_of_mem {heap : Heap} {b : ℕ} (h : b ∈ heap.live) :
    ∃ heap', heap.free b = .ok heap' ∧ heap'.live = heap.live.erase b := by
  simp only [Heap.free, if_pos h]
  exact ⟨_, rfl, rfl⟩

/-- An item and the block it lives in. -/
structure Cell (α : Type) where
  /-- The address of the item. -/
  block : ℕ
  /-- The item's fields. -/
  value : α

section Operations

variable {α κ : Type} [DecidableEq κ] (key : α → κ)

/-- The first cell whose key equals `k`. -/
def find (cells : List (Cell α)) (k : κ) : Option (Cell α) :=
  cells.find? (fun c => key c.value = k)

/-- Append a cell. No comparison with the keys already present is made. -/
def add (cells : List (Cell α)) (c : Cell α) : List (Cell α) := cells ++ [c]

/-- Unlink the cell at a given address. -/
def del (cells : List (Cell α)) (block : ℕ) : List (Cell α) :=
  cells.filter (fun c => c.block ≠ block)

/-- Write fields of the cell at a given address. -/
def modify (cells : List (Cell α)) (block : ℕ) (f : α → α) : List (Cell α) :=
  cells.map (fun c => if c.block = block then ⟨c.block, f c.value⟩ else c)

/-- The list seen as a finite map. -/
def lookup (cells : List (Cell α)) (k : κ) : Option α := (find key cells k).map Cell.value

/-- Keys and addresses are distinct, and every address is allocated. -/
structure Owned (heap : Heap) (cells : List (Cell α)) : Prop where
  /-- No two cells share a key. -/
  keys : (cells.map (fun c => key c.value)).Nodup
  /-- No two cells share a block. -/
  blocks : (cells.map Cell.block).Nodup
  /-- Every cell lives in an allocated block. -/
  live : ∀ c ∈ cells, c.block ∈ heap.live

variable {key} {heap heap' : Heap} {cells : List (Cell α)} {c : Cell α} {k : κ}

/-- A cell that is found is in the list. -/
theorem find_mem (h : find key cells k = some c) : c ∈ cells := List.mem_of_find?_eq_some h

/-- A cell that is found has the key. -/
theorem find_key (h : find key cells k = some c) : key c.value = k := by
  simpa only [decide_eq_true_eq] using List.find?_some h

/-- Nothing is found if no cell has the key. -/
theorem find_none_iff : find key cells k = none ↔ ∀ c ∈ cells, key c.value ≠ k := by
  simp only [find, List.find?_eq_none, decide_eq_true_eq, ne_eq]

/-- A value is missing when its cell is. -/
theorem lookup_none_iff : lookup key cells k = none ↔ find key cells k = none := by
  simp only [lookup, Option.map_eq_none_iff]

/-- The value of a key is that of its cell. -/
theorem lookup_of_find (h : find key cells k = some c) : lookup key cells k = some c.value := by
  simp only [lookup, h, Option.map_some]

/-- A value belongs to a cell that is found. -/
theorem find_of_lookup {a : α} (h : lookup key cells k = some a) :
    ∃ c, find key cells k = some c ∧ c.value = a := Option.map_eq_some_iff.mp h

/-- A key has a value when it is the key of a cell. -/
theorem lookup_isSome_iff : (lookup key cells k).isSome ↔ k ∈ cells.map (fun c => key c.value) := by
  rw [← Option.ne_none_iff_isSome, ne_eq, lookup_none_iff, find_none_iff]
  simp only [ne_eq, not_forall, not_not, List.mem_map, exists_prop]

/-- Rewriting cells without touching their keys rewrites what a key finds. -/
theorem find_map {g : Cell α → Cell α} (hg : ∀ c, key (g c).value = key c.value) :
    find key (cells.map g) k = (find key cells k).map g := by
  simp only [find, List.find?_map]
  congr 2
  funext c
  simp only [Function.comp_apply, hg]

/-- Writing fields other than the key changes what a key finds by just that. -/
theorem find_modify {f : α → α} (hf : ∀ a, key (f a) = key a) (cells : List (Cell α)) (block : ℕ)
    (k : κ) :
    find key (modify cells block f) k =
      (find key cells k).map (fun d => if d.block = block then ⟨d.block, f d.value⟩ else d) := by
  apply find_map
  intro d
  split_ifs
  · exact hf d.value
  · rfl

/-- The cell that a key finds is found with its new fields. -/
theorem find_modify_self {f : α → α} (hf : ∀ a, key (f a) = key a)
    (hc : find key cells k = some c) :
    find key (modify cells c.block f) k = some ⟨c.block, f c.value⟩ := by
  rw [find_modify hf, hc, Option.map_some, if_pos rfl]

/-- Unlinking by address commutes with rewriting cells in place. -/
theorem del_map {g : Cell α → Cell α} (hg : ∀ c, (g c).block = c.block) (block : ℕ) :
    del (cells.map g) block = (del cells block).map g := by
  simp only [del, List.filter_map]
  congr 2
  funext c
  simp only [Function.comp_apply, hg]

/-- With distinct keys every cell is the one its key finds. -/
theorem find_of_mem (hkeys : (cells.map (fun c => key c.value)).Nodup) (hc : c ∈ cells) :
    find key cells (key c.value) = some c := by
  induction cells with
  | nil => cases hc
  | cons head rest ih =>
    obtain ⟨hhead, hrest⟩ := List.nodup_cons.mp (by simpa only [List.map_cons] using hkeys)
    rcases List.mem_cons.mp hc with rfl | hc
    · simp only [find, List.find?_cons, decide_true]
    · have hne : key head.value ≠ key c.value := by
        intro he
        exact hhead (List.mem_map.mpr ⟨c, hc, he.symm⟩)
      simpa only [find, List.find?_cons, decide_eq_false hne] using ih hrest hc

/-- Among distinct keys every cell is found by its own. -/
theorem lookup_of_mem (hkeys : (cells.map (fun c => key c.value)).Nodup) (hc : c ∈ cells) :
    lookup key cells (key c.value) = some c.value := lookup_of_find (find_of_mem hkeys hc)

omit [DecidableEq κ] in
/-- Two cells of an owned list at one address are the same cell. -/
theorem Owned.eq_of_block (hown : Owned key heap cells) {d : Cell α} (hc : c ∈ cells)
    (hd : d ∈ cells) (h : c.block = d.block) : c = d :=
  List.inj_on_of_nodup_map hown.blocks hc hd h

/-- Appending a cell with a new key extends the map at that key. -/
theorem lookup_add (hnew : lookup key cells (key c.value) = none) :
    lookup key (add cells c) = Function.update (lookup key cells) (key c.value) (some c.value) := by
  funext k
  by_cases hk : k = key c.value
  · subst hk
    rw [lookup_none_iff] at hnew
    have hnone : List.find? (fun d => key d.value = key c.value) cells = none := hnew
    simp only [Function.update_self, lookup, find, add, List.find?_append, hnone,
      List.find?_cons, decide_true, Option.none_or, Option.map_some]
  · have hne : key c.value ≠ k := fun he => hk he.symm
    simp only [Function.update_of_ne hk, lookup, find, add, List.find?_append,
      List.find?_cons, decide_eq_false hne, List.find?_nil, Option.or_none]

/-- Unlinking the cell a key finds removes that key from the map. -/
theorem lookup_del (hown : Owned key heap cells) (hc : find key cells k = some c) :
    lookup key (del cells c.block) = Function.update (lookup key cells) k none := by
  funext k'
  by_cases hk : k' = k
  · subst hk
    rw [Function.update_self, lookup_none_iff, find_none_iff]
    intro d hd hkey
    obtain ⟨hmem, hblock⟩ := List.mem_filter.mp hd
    have hfind := find_of_mem hown.keys hmem
    rw [hkey, hc] at hfind
    cases hfind
    simp only [ne_eq, not_true_eq_false, decide_false, Bool.false_eq_true] at hblock
  · rw [Function.update_of_ne hk]
    simp only [lookup, find, del, List.find?_filter]
    congr 1
    apply List.find?_congr
    intro d hd
    by_cases hkey : key d.value = k'
    · have hne : d.block ≠ c.block := by
        intro hb
        have hdc := hown.eq_of_block hd (find_mem hc) hb
        rw [hdc, find_key hc] at hkey
        exact hk hkey.symm
      simp only [hkey, hne, ne_eq, not_false_eq_true, decide_true, and_self]
    · simp only [hkey, decide_false, Bool.false_eq_true, and_false]

/-- Writing fields of the cell a key finds, its key aside, updates the map there. -/
theorem lookup_modify (hown : Owned key heap cells) (hc : find key cells k = some c)
    {f : α → α} (hf : key (f c.value) = key c.value) :
    lookup key (modify cells c.block f) =
      Function.update (lookup key cells) k (some (f c.value)) := by
  have hsame : ∀ d ∈ cells, key (if d.block = c.block then (⟨d.block, f d.value⟩ : Cell α)
      else d).value = key d.value := by
    intro d hd
    split_ifs with hb
    · rw [hown.eq_of_block hd (find_mem hc) hb]
      exact hf
    · rfl
  funext k'
  have hfind : find key (modify cells c.block f) k' = (find key cells k').map
      (fun d => if d.block = c.block then ⟨d.block, f d.value⟩ else d) := by
    simp only [find, modify, List.find?_map]
    congr 1
    apply List.find?_congr
    intro d hd
    simp only [Function.comp_apply, hsame d hd]
  by_cases hk : k' = k
  · subst hk
    simp only [lookup, hfind, hc, Option.map_some, if_true, Function.update_self]
  · rw [Function.update_of_ne hk]
    simp only [lookup, hfind, Option.map_map]
    cases hd : find key cells k' with
    | none => rfl
    | some d =>
      have hne : d.block ≠ c.block := by
        intro hb
        have hdc := hown.eq_of_block (find_mem hd) (find_mem hc) hb
        rw [hdc] at hd
        exact hk ((find_key hd).symm.trans (find_key hc))
      simp only [Option.map_some, Function.comp_apply, if_neg hne]

end Operations

section Ownership

variable {α κ : Type} {key : α → κ} {heap heap' : Heap} {cells : List (Cell α)} {c : Cell α}

/-- The empty list owns nothing. -/
theorem Owned.nil (heap : Heap) : Owned key heap ([] : List (Cell α)) :=
  ⟨List.nodup_nil, List.nodup_nil, by simp only [List.not_mem_nil, false_implies, implies_true]⟩

/-- Allocation alone leaves a list owned. -/
theorem Owned.malloc (hown : Owned key heap cells) : Owned key heap.malloc.2 cells :=
  ⟨hown.keys, hown.blocks, fun d hd => Finset.mem_insert_of_mem (hown.live d hd)⟩

/-- A freshly allocated cell with a new key keeps the list owned. -/
theorem Owned.add [DecidableEq κ] (hown : Owned key heap cells) {a : α}
    (hnew : lookup key cells (key a) = none) :
    Owned key heap.malloc.2 (add cells ⟨heap.malloc.1, a⟩) := by
  rw [lookup_none_iff, find_none_iff] at hnew
  refine ⟨?_, ?_, ?_⟩
  · simp only [LinkedCells.add, List.map_append, List.map_cons, List.map_nil]
    refine List.nodup_append.mpr ⟨hown.keys, List.nodup_singleton _, ?_⟩
    intro x hx y hy hxy
    obtain ⟨d, hd, rfl⟩ := List.mem_map.mp hx
    rw [List.mem_singleton.mp hy] at hxy
    exact hnew d hd hxy
  · simp only [LinkedCells.add, List.map_append, List.map_cons, List.map_nil]
    refine List.nodup_append.mpr ⟨hown.blocks, List.nodup_singleton _, ?_⟩
    intro x hx y hy hxy
    obtain ⟨d, hd, rfl⟩ := List.mem_map.mp hx
    rw [List.mem_singleton.mp hy] at hxy
    exact absurd (heap.bounded _ (hown.live d hd)) (by rw [hxy]; exact Nat.lt_irrefl _)
  · intro d hd
    rcases List.mem_append.mp hd with hd | hd
    · exact hown.malloc.live d hd
    · rw [List.mem_singleton.mp hd]
      exact Finset.mem_insert_self _ _

/-- Unlinking a cell and freeing its block keeps the rest owned. -/
theorem Owned.free (hown : Owned key heap cells) (hfree : heap.free c.block = .ok heap') :
    Owned key heap' (del cells c.block) := by
  refine ⟨hown.keys.sublist (List.filter_sublist.map _),
    hown.blocks.sublist (List.filter_sublist.map _), ?_⟩
  intro d hd
  obtain ⟨hmem, hne⟩ := List.mem_filter.mp hd
  rw [(Heap.free_eq_ok hfree).2]
  exact Finset.mem_erase.mpr ⟨by simpa only [ne_eq, decide_eq_true_eq] using hne, hown.live d hmem⟩

/-- Writing fields other than the key keeps the list owned. -/
theorem Owned.modify (hown : Owned key heap cells) {b : ℕ} {f : α → α}
    (hf : ∀ a, key (f a) = key a) : Owned key heap (modify cells b f) := by
  have hkeys : (LinkedCells.modify cells b f).map (fun c => key c.value) =
      cells.map (fun c => key c.value) := by
    simp only [LinkedCells.modify, List.map_map]
    apply List.map_congr_left
    intro d _
    simp only [Function.comp_apply]
    split_ifs
    · exact hf d.value
    · rfl
  have hblocks : (LinkedCells.modify cells b f).map Cell.block = cells.map Cell.block := by
    simp only [LinkedCells.modify, List.map_map]
    apply List.map_congr_left
    intro d _
    simp only [Function.comp_apply]
    split_ifs <;> rfl
  refine ⟨hkeys ▸ hown.keys, hblocks ▸ hown.blocks, ?_⟩
  intro d hd
  have hb : d.block ∈ (LinkedCells.modify cells b f).map Cell.block := List.mem_map_of_mem hd
  rw [hblocks] at hb
  obtain ⟨e, he, heq⟩ := List.mem_map.mp hb
  exact heq ▸ hown.live e he

/-- Appending a cell appends its key. -/
theorem keys_add (cells : List (Cell α)) (c : Cell α) :
    (add cells c).map (fun d => key d.value) = cells.map (fun d => key d.value) ++ [key c.value] := by
  rw [add, List.map_append, List.map_singleton]

/-- Writing fields other than the key leaves the keys. -/
theorem keys_modify {f : α → α} (hf : ∀ a, key (f a) = key a) (cells : List (Cell α)) (b : ℕ) :
    (modify cells b f).map (fun d => key d.value) = cells.map (fun d => key d.value) := by
  rw [modify, List.map_map]
  refine List.map_congr_left fun d _ => ?_
  rw [Function.comp_apply]
  split_ifs
  · exact hf d.value
  · rfl

/-- Unlinking the cell that a key finds erases the key. -/
theorem keys_del [DecidableEq κ] (hown : Owned key heap cells) {k : κ}
    (hc : find key cells k = some c) :
    (del cells c.block).map (fun d => key d.value) = (cells.map (fun d => key d.value)).erase k := by
  rw [hown.keys.erase_eq_filter, List.filter_map, del]
  congr 1
  refine List.filter_congr fun d hd => ?_
  have hsame : d.block = c.block ↔ key d.value = k := by
    constructor
    · intro hblock
      rw [hown.eq_of_block hd (find_mem hc) hblock, find_key hc]
    · intro hkey
      have hfound := find_of_mem hown.keys hd
      rw [hkey, hc, Option.some.injEq] at hfound
      rw [hfound]
  simp only [Function.comp_apply, ne_eq, hsame, bne, beq_eq_decide, decide_not]

end Ownership

end LazyFS.LinkedCells
