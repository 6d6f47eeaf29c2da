import LazyFS.HashExpansion

/-!
# What a table does not notice

A program works on its entries between the calls of the macros: it allocates
an element that it has not inserted yet, writes fields other than the key, and
frees an element that it has deleted. None of this touches the links, so the
memory goes on representing the list, with the new fields in place.
-/

namespace LazyFS.HashFrames

open MemoryRegions LinkedCells HashTable HashLayout HashExpansion

variable {α : Type} {keyOf : α → List UInt8} {hash : List UInt8 → UInt32} {m : Memory α}
  {head : Option ℕ} {cells : List (Cell α)} {c : Cell α} {r : Region (Element α)} {b : ℕ}

/-- A cell of a table is an allocated element with its fields. -/
theorem element_of_mem (h : Represents keyOf hash m head cells) (hc : c ∈ cells) :
    ∃ e, m.elements.cell c.block = some e ∧ e.value = c.value := by
  rcases h with ⟨rfl, -, -⟩ | ⟨-, t, tbl, bkts, chains, h⟩
  · exact (List.not_mem_nil hc).elim
  · obtain ⟨e, he, hcore⟩ := Region.cell_of_view (h.cores c hc)
    exact ⟨e, he, congrArg Core.value hcore⟩

/-- Distinct cells have distinct addresses. -/
theorem blocks_nodup (h : Represents keyOf hash m head cells) : (blocks cells).Nodup := by
  rcases h with ⟨rfl, -, -⟩ | ⟨-, t, tbl, bkts, chains, h⟩
  · exact List.nodup_nil
  · exact h.nodup

/-- A block that is not allocated is no cell. -/
theorem notMem_of_fresh (h : Represents keyOf hash m head cells)
    (hb : m.elements.cell b = none) : b ∉ blocks cells := by
  intro hmem
  obtain ⟨c, hc, rfl⟩ := List.mem_map.mp hmem
  obtain ⟨e, he, -⟩ := element_of_mem h hc
  rw [hb] at he
  cases he

/-- The handles of the cells, their keys and their addresses are all that
keeps a table together. -/
theorem represents_transport (h : Represents keyOf hash m head cells) {g : Cell α → Cell α}
    (hblock : ∀ c, (g c).block = c.block)
    (hkey : ∀ c ∈ cells, keyOf (g c).value = keyOf c.value)
    (hkept : ∀ c ∈ cells, ∀ e, m.elements.cell c.block = some e → e.value = c.value →
      r.cell c.block = some ⟨(g c).value, e.hh⟩) :
    Represents keyOf hash ⟨r, m.tables, m.arrays⟩ head (cells.map g) := by
  rcases h with ⟨rfl, hhead, hvacant⟩ | ⟨hne, t, tbl, bkts, chains, h⟩
  · exact Or.inl ⟨rfl, hhead, hvacant.tables, hvacant.arrays⟩
  have hblocks : blocks (cells.map g) = blocks cells := by
    simp only [blocks, List.map_map]
    exact List.map_congr_left (fun c _ => hblock c)
  have hcell : ∀ c ∈ cells, ∃ e, m.elements.cell c.block = some e ∧
      core e = coreOf keyOf hash t c ∧ r.cell c.block = some ⟨(g c).value, e.hh⟩ := by
    intro c hc
    obtain ⟨e, he, hcore⟩ := Region.cell_of_view (h.cores c hc)
    exact ⟨e, he, hcore, hkept c hc e he (congrArg Core.value hcore)⟩
  -- Whatever is read from the handles alone is read as before.
  have hview : ∀ (γ : Type) (f : UTHashHandle → γ), ∀ b ∈ blocks cells,
      r.view (fun e => f e.hh) b = m.elements.view (fun e => f e.hh) b := by
    intro γ f b hb
    obtain ⟨c, hc, rfl⟩ := List.mem_map.mp hb
    obtain ⟨e, he, -, he'⟩ := hcell c hc
    rw [Region.view_of_cell _ he, Region.view_of_cell _ he']
  have hcores : ∀ c ∈ cells, (links r).core c.block = some (coreOf keyOf hash t (g c)) := by
    intro c hc
    obtain ⟨e, -, hcore, he'⟩ := hcell c hc
    have htbl : e.hh.tbl = some t := congrArg Core.tbl hcore
    have hkeylen : e.hh.keylen = UInt32.ofNat (keyOf c.value).length := congrArg Core.keylen hcore
    have hhashv : e.hh.hashv = hash (keyOf c.value) := congrArg Core.hashv hcore
    rw [(links_of_cell he').2.2.2.2, core, coreOf, htbl, hkeylen, hhashv, hkey c hc]
  refine Or.inr ⟨fun hmap => hne (List.map_eq_nil_iff.mp hmap), t, tbl, bkts, chains, ?_⟩
  refine ⟨⟨?_, h.table, h.array, ?_, ?_, ?_, ?_, ?_, ?_, ?_, h.power, h.modest⟩, ?_, h.balanced⟩
  · rw [hblocks]
    exact h.head_eq
  · intro c hc
    obtain ⟨d, hd, rfl⟩ := List.mem_map.mp hc
    rw [hblock]
    exact hcores d hd
  · rw [hblocks]
    exact h.ordered.congr (hview _ UTHashHandle.next) (hview _ UTHashHandle.prev)
  · rw [hblocks]
    exact h.tail
  · rw [hblocks]
    exact h.nodup
  · rw [List.length_map]
    exact h.items
  · rw [List.length_map]
    exact h.few
  · intro c hc
    obtain ⟨d, hd, rfl⟩ := List.mem_map.mp hc
    rw [hkey d hd]
    exact h.short d hd
  · rw [hblocks]
    refine buckets_congr h.toBuckets (hview _ UTHashHandle.hhNext) (hview _ UTHashHandle.hhPrev) ?_
    intro b hb
    have hhashv : Core.hashv ∘ core (α := α) = fun e => e.hh.hashv := rfl
    simpa only [links, Region.view, Option.map_map, hhashv] using hview _ UTHashHandle.hashv b hb

/-- As long as no cell is touched, nothing is noticed. -/
theorem represents_congr (h : Represents keyOf hash m head cells)
    (hsame : ∀ c ∈ cells, r.cell c.block = m.elements.cell c.block) :
    Represents keyOf hash ⟨r, m.tables, m.arrays⟩ head cells := by
  have hid := represents_transport (r := r) h (g := id) (fun _ => rfl) (fun _ _ => rfl)
    (fun c hc e he hvalue => by rw [hsame c hc, he, id, ← hvalue])
  rwa [List.map_id] at hid

/-- An element that was just allocated is not in the table. -/
theorem represents_alloc (h : Represents keyOf hash m head cells) (e : Element α) :
    Represents keyOf hash ⟨(m.elements.alloc e).2, m.tables, m.arrays⟩ head cells := by
  refine represents_congr h ?_
  intro c hc
  have hne : c.block ≠ m.elements.next := by
    intro he
    exact notMem_of_fresh h m.elements.cell_next (he ▸ mem_blocks hc)
  exact Function.update_of_ne hne _ _

/-- An element that is not in the table can be freed. -/
theorem represents_free (h : Represents keyOf hash m head cells) (hb : b ∉ blocks cells)
    (hfree : r.cell = Function.update m.elements.cell b none) :
    Represents keyOf hash ⟨r, m.tables, m.arrays⟩ head cells := by
  refine represents_congr h ?_
  intro c hc
  have hne : c.block ≠ b := fun he => hb (he ▸ mem_blocks hc)
  rw [hfree, Function.update_of_ne hne]

/-- A write to fields other than the key is a write to the cell. -/
theorem represents_modify (h : Represents keyOf hash m head cells) {e : Element α} {f : α → α}
    (hf : ∀ a, keyOf (f a) = keyOf a) (he : m.elements.cell b = some e)
    (hwrite : r.cell = Function.update m.elements.cell b (some ⟨f e.value, e.hh⟩)) :
    Represents keyOf hash ⟨r, m.tables, m.arrays⟩ head (modify cells b f) := by
  refine represents_transport h ?_ ?_ ?_
  · intro c
    split_ifs <;> rfl
  · intro c _
    split_ifs
    · exact hf c.value
    · rfl
  · intro c hc e' he' hvalue
    rw [hwrite]
    by_cases hcb : c.block = b
    · rw [hcb, he] at he'
      cases he'
      rw [hcb, Function.update_self, if_pos rfl, hvalue]
    · rw [Function.update_of_ne hcb, if_neg hcb, he', ← hvalue]

end LazyFS.HashFrames
