import LazyFS.HashGuarantees
import LazyFS.RequestRefinement
import LazyFS.Teardown

/-!
# Runs on the table in memory

From mount to unmount the file system works on the hash table as if it were a
list. Whatever requests come, the table passes its own integrity check after
each of them, its chains stay short unless it has given up expanding, and the
teardown loop frees it together with its last entry. Two counters of 32 bits set
the bounds: the table holds fewer than 2^32 - 1 entries, and no memory is granted
for 2^31 buckets.
-/

namespace LazyFS.TableRuns

open MachineWords LinkedCells PosixStore MemoryRegions SortedPiles HashTable
  HashLayout HashQueries HashFrames HashGuarantees JenkinsHash GuardedRun StepSimulation
  PointerOperations TableRefinement RequestRefinement SafeRuns
open FileOperations (World LFile Env Event Reply UserData)
open ServedRequests (OwnedTable boot_owned)

variable {p : Process} {w w' : World}

section Runs

/-- The table has at most as many entries as were ever allocated. -/
theorem length_le_next (hown : OwnedTable w) : w.files.length ≤ w.heap.next := by
  have hbound : ∀ b ∈ blocks w.files, b < w.heap.next := by
    intro b hb
    obtain ⟨c, hc, rfl⟩ := List.mem_map.mp hb
    exact w.heap.bounded _ (hown.live c hc)
  rw [← length_blocks w.files]
  exact length_le_of_nodup hown.blocks hbound

/-- The table and the list that it represents, whose cells are owned. -/
structure Kept (p : Process) (w : World) : Prop where
  /-- The table holds the cells. -/
  simulates : Simulates p w
  /-- The cells are owned. -/
  owned : OwnedTable w

/-- The empty table represents the empty list. -/
theorem boot_simulates (metadir : List UInt8) (store : Store (List UInt8)) :
    Simulates (boot metadir store) (FileOperations.boot metadir store) :=
  ⟨Or.inl ⟨rfl, rfl, rfl, rfl⟩, fun b => iff_of_false Bool.false_ne_true (Finset.notMem_empty b),
    rfl, rfl, rfl, rfl, rfl⟩

/-- The allocator grants no array of 2^31 buckets. -/
def Granted (e : Event × Allocator) : Prop := e.2.room < 2 ^ 31

/-- Whether an allocator refuses such arrays is computed. -/
instance (e : Event × Allocator) : Decidable (Granted e) := inferInstanceAs (Decidable (_ < _))

/-- The counter of items has room for another entry. -/
def HasRoom (w : World) (_ : Event) : Prop := w.files.length + 1 < 2 ^ 32

/-- Whether there is room is computed. -/
instance (w : World) (e : Event) : Decidable (HasRoom w e) := inferInstanceAs (Decidable (_ < _))

/-- In a run of requests, the counter of items never runs out of room. -/
def KeepsRoom (metadir : List UInt8) (store : Store (List UInt8))
    (es : List (Event × Allocator)) : Prop :=
  Always FileOperations.step HasRoom (FileOperations.boot metadir store) (es.map Prod.fst)

/-- Whether a run keeps room is computed. -/
instance (metadir : List UInt8) (store : Store (List UInt8)) (es : List (Event × Allocator)) :
    Decidable (KeepsRoom metadir store es) :=
  inferInstanceAs (Decidable (Always _ _ _ _))

/-- A request on the table follows the request on the list. -/
theorem step_kept (p : Process) (w : World) (e : Event × Allocator) (h : Kept p w)
    (he : Granted e) (hfew : HasRoom w e.1) :
    Matches (SameReply Kept) (step p e) (FileOperations.step w e.1) := by
  refine (step_follows h.simulates h.owned e he hfew).strengthen ?_
  rintro ⟨r, p'⟩ ⟨r', w'⟩ - hstep ⟨hr, hsim⟩
  exact ⟨hr, hsim, step_owned h.owned hstep⟩

/-- A run on the table follows the run on the list. -/
theorem run_kept (metadir : List UInt8) (store : Store (List UInt8))
    {es : List (Event × Allocator)} (hes : ∀ e ∈ es, Granted e)
    (hfew : KeepsRoom metadir store es) :
    Matches (SameReply Kept) (run step (boot metadir store) es)
      (run FileOperations.step (FileOperations.boot metadir store) (es.map Prod.fst)) :=
  run_follows step_kept ⟨boot_simulates metadir store, boot_owned metadir store⟩ hes hfew

/-- The states that a run on the table reaches in which no array of 2^31 buckets is granted
and the counter of items has room. -/
def Reached (p : Process) : Prop :=
  ∃ metadir store es rs, (∀ e ∈ es, Granted e) ∧ KeepsRoom metadir store es ∧
    run step (boot metadir store) es = .ok (rs, p)

/-- Every state reached represents a state that the run on the list reaches. -/
theorem reached_simulates (h : Reached p) : ∃ w, Reachable w ∧ Simulates p w := by
  obtain ⟨metadir, store, es, rs, hes, hfew, hrun⟩ := h
  have hfollows := run_kept metadir store hes hfew
  rw [hrun] at hfollows
  obtain ⟨⟨rs', w⟩, hmodel, -, hK⟩ := hfollows.of_ok
  exact ⟨w, ⟨metadir, store, es.map Prod.fst, rs', hmodel⟩, hK.simulates⟩

/-- A run on the table ends like the run on the list, with the same replies or
the same undefined behaviour, unless memory runs out for the table. The table never holds
2^32 - 1 entries, and is granted no array of 2^31 buckets. -/
theorem table_run_refines (metadir : List UInt8) (store : Store (List UInt8))
    (es : List (Event × Allocator)) (hes : ∀ e ∈ es, Granted e)
    (hfew : KeepsRoom metadir store es) :
    run step (boot metadir store) es = .error (.table .outOfMemory) ∨
      (∃ rs p w, run step (boot metadir store) es = .ok (rs, p) ∧
        run FileOperations.step (FileOperations.boot metadir store) (es.map Prod.fst) =
          .ok (rs, w) ∧ Simulates p w) ∨
      ∃ u, run step (boot metadir store) es = .error (.undefined u) ∧
        run FileOperations.step (FileOperations.boot metadir store) (es.map Prod.fst) =
          .error u := by
  have hfollows := run_kept metadir store hes hfew
  generalize run step (boot metadir store) es = x at hfollows ⊢
  generalize run FileOperations.step (FileOperations.boot metadir store) (es.map Prod.fst) = y
    at hfollows ⊢
  cases hfollows with
  | @returns a b h =>
    obtain ⟨rs, p⟩ := a
    obtain ⟨rs', w⟩ := b
    obtain rfl : rs = rs' := h.1
    exact Or.inr (Or.inl ⟨rs, p, w, rfl, rfl, h.2.simulates⟩)
  | fails h => exact Or.inr (Or.inr ⟨_, congrArg Except.error h, rfl⟩)
  | stops h => exact Or.inl (congrArg Except.error h)

/-- One file is created. -/
theorem table_run_refines_create :
    let e : Event × Allocator := (⟨.create ⟨PathNames.ascii "deadbeef_8_1", by decide⟩ 0o644
      ⟨FileOperations.O_CREAT, 0⟩, Env.quiet⟩, Allocator.quiet)
    run step (boot [] (Store.empty _)) [e] = .error (.table .outOfMemory) ∨
      (∃ rs p w, run step (boot [] (Store.empty _)) [e] = .ok (rs, p) ∧
        run FileOperations.step (FileOperations.boot [] (Store.empty _)) [e.1] = .ok (rs, w) ∧
          Simulates p w) ∨
      ∃ u, run step (boot [] (Store.empty _)) [e] = .error (.undefined u) ∧
        run FileOperations.step (FileOperations.boot [] (Store.empty _)) [e.1] = .error u := by
  intro e
  exact table_run_refines [] (Store.empty _) [e]
    (fun e' he' => by rw [List.mem_singleton.mp he']; exact (by decide : 2 ^ 26 < 2 ^ 31))
    ⟨(by decide : 0 + 1 < 2 ^ 32), fun _ _ _ => trivial⟩

/-- A state with one file is reached. -/
theorem reached_one : ∃ p, Reached p ∧ p.files = some 0 := by
  obtain ⟨e, he⟩ : ∃ e : Event × Allocator, e = (⟨.create
    ⟨PathNames.ascii "deadbeef_8_1", by decide⟩ 0o644 ⟨FileOperations.O_CREAT, 0⟩, Env.quiet⟩,
    Allocator.quiet) := ⟨_, rfl⟩
  have hrun : (run step (boot [] (Store.empty _)) [e]).map (fun out => out.2.files) =
      .ok (some 0) := by
    rw [he]
    rfl
  obtain ⟨rs, p, hok, hfiles⟩ := run_observe hrun
  refine ⟨p, ⟨[], Store.empty _, [e], rs, ?_, ?_, hok⟩, hfiles⟩
  · intro e' he'
    rw [List.mem_singleton.mp he', he]
    exact (by decide : 2 ^ 26 < 2 ^ 31)
  · exact ⟨(by decide : 0 + 1 < 2 ^ 32), fun _ _ _ => trivial⟩

/-- In every state reached within the bounds the table is sound: it passes its integrity
check, the iteration visits distinct entries, and each is found under its own path. -/
theorem reached_table_sound (h : Reached p) :
    hashFsck p.memory p.files = .ok () ∧
      ∃ bs, hashIter p.memory.elements p.memory.elements.next p.files = .ok bs ∧ bs.Nodup ∧
        ∀ b ∈ bs, ∃ f, p.entry b = .ok f ∧ p.find f.key = .ok (some b) := by
  obtain ⟨w, hreach, hsim⟩ := reached_simulates h
  have hown := reachable_owned hreach
  refine ⟨hashFsck_eq hsim.table, blocks w.files, hashIter_represents hsim.table, hown.blocks, ?_⟩
  intro b hb
  obtain ⟨c, hc, rfl⟩ := List.mem_map.mp hb
  refine ⟨c.value, entry_spec hsim hc, ?_⟩
  have hfind : w.find c.value.key = some c := find_of_mem hown.keys hc
  rw [find_spec hsim hown, hfind, Option.map_some]

/-- With one file in it. -/
theorem reached_table_sound_one : ∃ p, Reached p ∧ p.files = some 0 ∧
    hashFsck p.memory p.files = .ok () := by
  obtain ⟨p, h, hfiles⟩ := reached_one
  exact ⟨p, h, hfiles, (reached_table_sound h).1⟩

/-- In every state reached within the bounds the table counts its entries and keeps its
load bounded until it has given up expanding. -/
theorem reached_table_load (h : Reached p) {b : ℕ} (hb : p.files = some b) :
    ∃ t tbl bkts bs, p.memory.tableOf b = .ok (t, tbl) ∧
      p.memory.arrays.read tbl.buckets = .ok bkts ∧
      hashIter p.memory.elements p.memory.elements.next p.files = .ok bs ∧
      tbl.numItems.toNat = bs.length ∧ Load tbl bkts := by
  obtain ⟨w, -, hsim⟩ := reached_simulates h
  have hrep := hsim.table
  rw [hb] at hrep
  obtain ⟨t, tbl, bkts, htable, harray, hitems, hload⟩ := represents_load hrep
  exact ⟨t, tbl, bkts, blocks w.files, htable, harray, hashIter_represents hsim.table,
    hitems.trans (length_blocks w.files).symm, hload⟩

/-- With one file in it. -/
theorem reached_table_load_one : ∃ p, Reached p ∧ p.files = some 0 ∧
    ∃ t tbl bkts, p.memory.tableOf 0 = .ok (t, tbl) ∧
      p.memory.arrays.read tbl.buckets = .ok bkts ∧ Load tbl bkts := by
  obtain ⟨p, h, hfiles⟩ := reached_one
  obtain ⟨t, tbl, bkts, bs, htable, harray, -, -, hload⟩ := reached_table_load h hfiles
  exact ⟨p, h, hfiles, t, tbl, bkts, htable, harray, hload⟩

end Runs

section Unmount

variable {cells : List (Cell LFile)} {files : Option ℕ} {c : Cell LFile}

/-- The head of a table leads to the first cell. -/
theorem head_of_represents {m : Memory LFile}
    (h : Represents keyBytes jenkins m files cells) : files = (blocks cells).head? := by
  rcases h with ⟨rfl, rfl, -⟩ | ⟨-, t, tbl, bkts, chains, h⟩
  · rfl
  · exact h.head_eq

/-- The head of a table leads to the second cell. -/
theorem nextOf_spec (h : Represents keyBytes jenkins p.memory files cells) :
    p.nextOf files = .ok (blocks cells).tail.head? := by
  cases cells with
  | nil =>
    obtain rfl : files = none := head_of_represents h
    rfl
  | cons c cells =>
    obtain rfl : files = some c.block := head_of_represents h
    rcases h with ⟨hnil, -, -⟩ | ⟨-, t, tbl, bkts, chains, hlayout⟩
    · cases hnil
    · obtain ⟨-, hnext, -⟩ := hlayout.ordered
      obtain ⟨e, he, hlink⟩ := Region.cell_of_view hnext
      have htail : e.hh.next = (blocks cells).head? := by
        rw [hlink, Option.or_none]
        rfl
      simp only [Process.nextOf, Region.read_of_cell he, ofAccess, Except.mapError, bind,
        Except.bind, pure, Except.pure, htail]
      rfl

/-- Closing what an entry has open is the same on both. -/
theorem closeIfOpen_follows (h : Simulates p w) (f : LFile) :
    Simulates (if f.realfd ≠ -1 then (closeEntry none f p).2 else p)
      (Teardown.closeIfOpen f w) := by
  unfold Teardown.closeIfOpen
  split_ifs
  · exact (closeEntry_follows h none f).2
  · exact h

/-- The teardown on the table visits and frees what the teardown on the list does. -/
theorem destroyLoop_follows {fuel : ℕ} (h : Simulates p { w with files := cells })
    (hown : Owned LFile.key w.heap cells) (hfuel : cells.length ≤ fuel) :
    ∃ p' w', destroyLoop fuel p.files (blocks cells).tail.head? p = .ok (blocks cells, p') ∧
      FileOperations.destroyLoop cells cells w = .ok (blocks cells, [], w') ∧
      Simulates p' { w' with files := [] } := by
  induction cells generalizing p w fuel with
  | nil =>
    have hhead : p.files = none := head_of_represents h.table
    exact ⟨p, w, by rw [hhead, destroyLoop]; rfl, rfl, h⟩
  | cons c cells ih =>
    have hc : c ∈ c :: cells := List.mem_cons_self
    have hhead : p.files = some c.block := head_of_represents h.table
    obtain ⟨fuel, rfl⟩ : ∃ k, fuel = k + 1 :=
      ⟨fuel - 1, by rw [List.length_cons] at hfuel; omega⟩
    have hentry := entry_spec h hc
    obtain ⟨q, hq⟩ : ∃ q, (if c.value.realfd ≠ -1 then (closeEntry none c.value p).2 else p) = q :=
      ⟨_, rfl⟩
    have hworld : Teardown.closeIfOpen c.value { w with files := c :: cells } =
        { Teardown.closeIfOpen c.value w with files := c :: cells } := by
      unfold Teardown.closeIfOpen FileOperations.closeEntry
      split_ifs <;> rfl
    have hclosed := closeIfOpen_follows h c.value
    rw [hq, hworld] at hclosed
    obtain ⟨p₁, hdel, hsim₁⟩ := hashDel_spec hclosed hc
    have hrest : del (c :: cells) c.block = cells := Teardown.del_head hown.blocks
    have hlive : c.block ∈ (Teardown.closeIfOpen c.value w).heap.live := by
      rw [Teardown.closeIfOpen_heap]
      exact hown.live c hc
    obtain ⟨p₂, heap, hfree, hheap, hsim₂⟩ := free_spec hsim₁ (notMem_del _ _) hlive
    dsimp only at hheap hsim₂
    rw [hrest] at hsim₂
    have hnext := nextOf_spec hsim₂.table
    have hhead₂ : p₂.files = (blocks cells).head? := head_of_represents hsim₂.table
    have hown₂ : Owned LFile.key heap cells := by
      have hfreed := Owned.free hown (Teardown.closeIfOpen_heap c.value w ▸ hheap)
      rwa [hrest] at hfreed
    obtain ⟨p', w', hloop, hmodel, hend⟩ :=
      ih (w := { Teardown.closeIfOpen c.value w with heap := heap }) hsim₂ hown₂
        (Nat.le_of_succ_le_succ hfuel)
    refine ⟨p', w', ?_, ?_, hend⟩
    · have htmp : (blocks (c :: cells)).tail.head? = p₂.files := hhead₂.symm
      simp only [hhead, htmp, destroyLoop, hentry, bind, Except.bind, hq, hdel, hfree, hnext,
        hloop, pure, Except.pure]
      rfl
    · have hcloses : (if c.value.realfd ≠ -1 then
          (FileOperations.closeEntry none c.value w).2 else w) = Teardown.closeIfOpen c.value w :=
        rfl
      simp only [FileOperations.destroyLoop, bind, Except.bind, hcloses, hheap, hrest, hmodel,
        pure, Except.pure]
      rfl

/-- Handed the state of the file system after any run within the bounds, `l_destroy` visits
the entries in order and frees them, the buckets and the table. Only blocks that
were in no table stay allocated, and the head of the table is left pointing to
a freed entry. -/
theorem teardown_frees_table (h : Reached p) :
    ∃ bs p', hashIter p.memory.elements p.memory.elements.next p.files = .ok bs ∧
      lDestroy .lData p = .ok (bs, none, p') ∧ Vacant p'.memory ∧
      (∀ b, p'.memory.elements.Live b ↔ p.memory.elements.Live b ∧ b ∉ bs) ∧
      ∀ b, p'.files = some b → ¬ p'.memory.elements.Live b := by
  obtain ⟨w, hreach, hsim⟩ := reached_simulates h
  have hown := reachable_owned hreach
  have hfuel : w.files.length ≤ p.memory.elements.next := by
    rw [hsim.next]
    exact length_le_next hown
  obtain ⟨p', w', hloop, hmodel, hend⟩ := destroyLoop_follows hsim hown hfuel
  obtain ⟨w'', hmodel', hheap, -⟩ := Teardown.destroyLoop_rule (I := fun _ _ => True)
    (fun _ _ _ _ _ => trivial) hown trivial
  rw [hmodel] at hmodel'
  obtain rfl : w' = w'' := congrArg (fun out => out.2.2) (Except.ok.inj hmodel')
  have hnone : p'.files = none := head_of_represents hend.table
  have hlive : ∀ b, p'.memory.elements.Live b ↔
      p.memory.elements.Live b ∧ b ∉ blocks w.files := by
    intro b
    have hkept : b ∈ w'.heap.live ↔ b ∈ w.heap.live ∧ b ∉ blocks w.files := by
      rw [hheap, Finset.mem_sdiff, List.mem_toFinset, blocks]
    exact (hend.live b).trans (hkept.trans (and_congr_left' (hsim.live b).symm))
  refine ⟨blocks w.files, { p' with files := p.files }, hashIter_represents hsim.table, ?_, ?_,
    hlive, ?_⟩
  · simp only [lDestroy, nextOf_spec hsim.table, bind, Except.bind, hloop, pure, Except.pure,
      hnone]
  · rcases hend.table with ⟨-, -, hvacant⟩ | ⟨hne, -⟩
    · exact hvacant
    · exact absurd rfl hne
  · intro b hb hstill
    have hhead : (blocks w.files).head? = some b := (head_of_represents hsim.table).symm.trans hb
    exact ((hlive b).mp hstill).2 (List.mem_of_mem_head? hhead)

/-- With one file in it. -/
theorem teardown_frees_table_one : ∃ p p', Reached p ∧ p.files = some 0 ∧
    (∃ bs, lDestroy .lData p = .ok (bs, none, p')) ∧ Vacant p'.memory := by
  obtain ⟨p, h, hfiles⟩ := reached_one
  obtain ⟨bs, p', -, hdestroy, hvacant, -, -⟩ := teardown_frees_table h
  exact ⟨p, p', h, hfiles, ⟨bs, hdestroy⟩, hvacant⟩

end Unmount

end LazyFS.TableRuns
