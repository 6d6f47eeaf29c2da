import LazyFS.HashDeletion
import LazyFS.HashFrames
import LazyFS.HashQueries
import LazyFS.PointerOperations
import LazyFS.ServedRequests
import LazyFS.StepSimulation

/-!
# The table in memory and the list of cells

The callbacks on the hash table do what the callbacks on the list of cells do:
the same reply, and a table that represents the list again. Each operation on
the table has one lemma; the callbacks are followed through them. What can
happen on the table and not on the list is that the allocator runs out of
memory.
-/

namespace LazyFS.TableRefinement

open MachineWords LinkedCells PathNames PatternParser PosixStore MemoryRegions HashTable
  HashLayout HashQueries HashExpansion HashUpdates HashDeletion HashFrames JenkinsHash
  PointerOperations StepSimulation
open FileOperations (World LFile Env FuseFileInfo UserData LFile.key LFile.setSize
  LFile.setRealfd)
open ServedRequests (OwnedTable)

/-- A process whose table represents the list of cells of a world. -/
structure Simulates (p : Process) (w : World) : Prop where
  /-- The table holds the cells. -/
  table : Represents keyBytes jenkins p.memory p.files w.files
  /-- The same blocks are allocated for entries. -/
  live : ∀ b, p.memory.elements.Live b ↔ b ∈ w.heap.live
  /-- The next block is the same. -/
  next : p.memory.elements.next = w.heap.next
  /-- Everything else is the same. -/
  metadir : p.metadir = w.metadir
  nfiles : p.nfiles = w.nfiles
  store : p.store = w.store
  closes : p.closes = w.closes

/-- A process differs from the world only in how the table is kept. -/
theorem Simulates.eq {p : Process} {w : World} (h : Simulates p w) :
    ∃ files memory, p = ⟨files, w.metadir, w.nfiles, w.store, memory, w.closes⟩ := by
  refine ⟨p.files, p.memory, ?_⟩
  rw [← h.metadir, ← h.nfiles, ← h.store, ← h.closes]

/-- A callback on the table follows one on the list. -/
abbrev Matches {β γ : Type} (R : β → γ → Prop) (x : Attempt β) (y : Outcome γ) : Prop :=
  Follows R (fun u v => u = Stop.undefined v) (fun u => u = Stop.table .outOfMemory) x y

variable {p : Process} {w : World} {c : Cell LFile} {path : Path} {f : LFile → LFile} {b : ℕ}

/-- Different paths have different characters. -/
theorem chars_injective : Function.Injective Path.chars := by
  intro p q h
  cases p
  cases q
  cases List.tail_eq_of_cons_eq h
  rfl

/-- A search by the bytes of a path is a search by the path. -/
theorem find_keyBytes (cells : List (Cell LFile)) (path : Path) :
    LinkedCells.find keyBytes cells path.chars = LinkedCells.find LFile.key cells path := by
  refine List.find?_congr ?_
  intro c _
  have hiff : keyBytes c.value = path.chars ↔ c.value.key = path := chars_injective.eq_iff
  exact decide_eq_decide.mpr hiff

/-- Distinct paths have distinct bytes. -/
theorem keyBytes_nodup (hown : OwnedTable w) :
    (w.files.map (fun c => keyBytes c.value)).Nodup := by
  have hmap : w.files.map (fun c => keyBytes c.value) =
      (w.files.map (fun c => c.value.key)).map Path.chars := by
    rw [List.map_map]
    rfl
  rw [hmap]
  exact hown.keys.map chars_injective

section Cells

variable {cells : List (Cell LFile)} {v : LFile}

/-- A deleted cell is gone. -/
theorem notMem_del (cells : List (Cell LFile)) (b : ℕ) : b ∉ blocks (del cells b) := by
  intro hmem
  obtain ⟨d, hd, hblock⟩ := List.mem_map.mp hmem
  have hne := (List.mem_filter.mp hd).2
  simp only [hblock, ne_eq, not_true_eq_false, decide_false, Bool.false_eq_true] at hne

/-- A write elsewhere. -/
theorem modify_of_notMem (hb : b ∉ blocks cells) : LinkedCells.modify cells b f = cells := by
  refine (List.map_congr_left ?_).trans (List.map_id cells)
  intro d hd
  have hne : d.block ≠ b := fun he => hb (he ▸ mem_blocks hd)
  rw [if_neg hne, id]

/-- A write to the cell that was added last. -/
theorem modify_add (hb : b ∉ blocks cells) :
    LinkedCells.modify (add cells ⟨b, v⟩) b f = add cells ⟨b, f v⟩ := by
  have happend : LinkedCells.modify (add cells ⟨b, v⟩) b f =
        add (LinkedCells.modify cells b f) ⟨b, f v⟩ := by
    simp only [LinkedCells.modify, add, List.map_append, List.map_cons, List.map_nil, if_true]
  rw [happend, modify_of_notMem hb]

/-- An added cell is in the list. -/
theorem mem_add (cells : List (Cell LFile)) (c : Cell LFile) : c ∈ add cells c :=
  List.mem_append_right cells (List.mem_singleton.mpr rfl)

/-- The others stay in it. -/
theorem mem_add_of_mem (hc : c ∈ cells) (d : Cell LFile) : c ∈ add cells d :=
  List.mem_append_left [d] hc

end Cells

section Accesses

/-- A path is found on the table where it is on the list. -/
theorem find_spec (h : Simulates p w) (hown : OwnedTable w) (path : Path) :
    p.find path = .ok ((w.find path).map Cell.block) := by
  rw [Process.find, hashFind_eq h.table (keyBytes_nodup hown), find_keyBytes]
  rfl

/-- The entry of a block is the value of its cell. -/
theorem entry_spec (h : Simulates p w) (hc : c ∈ w.files) : p.entry c.block = .ok c.value := by
  obtain ⟨e, he, hvalue⟩ := element_of_mem h.table hc
  simp only [Process.entry, Region.read_of_cell he, ofAccess, Except.mapError, bind, Except.bind,
    pure, Except.pure, hvalue]

/-- The memory holds that value. -/
theorem value_of_mem (h : Simulates p w) (hc : c ∈ w.files) :
    p.memory.elements.view Element.value c.block = some c.value := by
  obtain ⟨e, he, hvalue⟩ := element_of_mem h.table hc
  rw [Region.view_of_cell _ he, hvalue]

/-- What is written to an element is written to its cell, if it has one. -/
theorem modify_spec (h : Simulates p w) {v : LFile}
    (hv : p.memory.elements.view Element.value b = some v) (hf : ∀ a, (f a).path = a.path) :
    ∃ p', p.modify b f = .ok p' ∧ Simulates p' (w.modify b f) ∧
      p'.memory.elements.view Element.value b = some (f v) := by
  obtain ⟨e, he, hev⟩ := Region.cell_of_view hv
  obtain ⟨r, hr, hcell, hnext⟩ := Region.modify_of_cell he (Element.setValue f)
  refine ⟨{ p with memory := { p.memory with elements := r } }, ?_, ?_, ?_⟩
  · simp only [Process.modify, hr, ofAccess, Except.mapError, bind, Except.bind, pure, Except.pure]
  · have hkey : ∀ a, keyBytes (f a) = keyBytes a := fun a => by rw [keyBytes, hf, keyBytes]
    refine ⟨represents_modify h.table hkey he hcell, ?_, hnext.trans h.next, h.metadir, h.nfiles,
      h.store, h.closes⟩
    intro d
    have hlive : r.Live d ↔ p.memory.elements.Live d := by
      unfold Region.Live
      rw [hcell]
      by_cases hd : d = b
      · rw [hd, Function.update_self, he]
        exact iff_of_true rfl rfl
      · rw [Function.update_of_ne hd]
    exact hlive.trans (h.live d)
  · have hview : r.view Element.value b = some (f e.value) := by
      rw [Region.view, hcell, Function.update_self]
      rfl
    rw [← hev]
    exact hview

/-- A write to an element that is not in the table. -/
theorem modify_outside (h : Simulates p w) (hb : b ∉ blocks w.files) {v : LFile}
    (hv : p.memory.elements.view Element.value b = some v) (hf : ∀ a, (f a).path = a.path) :
    ∃ p', p.modify b f = .ok p' ∧ Simulates p' w ∧
      p'.memory.elements.view Element.value b = some (f v) := by
  obtain ⟨p', hp', hsim, hv'⟩ := modify_spec h hv hf
  have hsame : w.modify b f = w := by
    rw [World.modify, modify_of_notMem hb]
  exact ⟨p', hp', hsame ▸ hsim, hv'⟩

/-- The code of the table allocates and frees no entries. -/
theorem live_of_sameValues {r r' : Region (Element LFile)} (h : SameValues r r') (b : ℕ) :
    r'.Live b ↔ r.Live b := by
  have hview : (r'.view Element.value b).isSome = (r.view Element.value b).isSome := by
    rw [h.values]
  simpa only [Region.view, Option.isSome_map, Region.Live] using Bool.eq_iff_iff.mp hview

/-- A fresh block is allocated, holds the path, and is not in the table. -/
theorem mallocFile_spec (h : Simulates p w) (env : Env) (a : Allocator) {field : PathField}
    (hcopy : strcpyPath path = .ok field) :
    ∃ p', p.mallocFile env a path = .ok (w.heap.malloc.1, p') ∧
      Simulates p' { w with heap := w.heap.malloc.2 } ∧ w.heap.malloc.1 ∉ blocks w.files ∧
      p'.memory.elements.view Element.value w.heap.malloc.1 =
        some ⟨field, a.size, env.junk.fd, env.junk.realfd, env.junk.pattern⟩ := by
  have hblock : p.memory.elements.next = w.heap.malloc.1 := h.next
  have hnot : p.memory.elements.next ∉ blocks w.files :=
    notMem_of_fresh h.table p.memory.elements.cell_next
  obtain ⟨e, he⟩ : ∃ e : Element LFile, e = ⟨⟨field, a.size, env.junk.fd, env.junk.realfd,
    env.junk.pattern⟩, a.handle⟩ := ⟨_, rfl⟩
  have hcell : (p.memory.elements.alloc e).2.cell =
      Function.update p.memory.elements.cell p.memory.elements.next (some e) := rfl
  refine ⟨{ p with memory := { p.memory with elements := (p.memory.elements.alloc e).2 } },
    ?_, ⟨represents_alloc h.table e, ?_, congrArg (· + 1) h.next, h.metadir, h.nfiles, h.store,
      h.closes⟩, hblock ▸ hnot, ?_⟩
  · simp only [Process.mallocFile, hcopy, ofOutcome, Except.mapError, bind, Except.bind, ← he,
      pure, Except.pure, ← hblock]
    rfl
  · intro b
    have hlive : b ∈ w.heap.malloc.2.live ↔ b = p.memory.elements.next ∨ b ∈ w.heap.live := by
      rw [hblock]
      exact Finset.mem_insert
    refine Iff.trans ?_ hlive.symm
    rw [← h.live b, Region.Live, Region.Live, hcell]
    by_cases hb : b = p.memory.elements.next
    · rw [hb, Function.update_self]
      exact iff_of_true rfl (Or.inl rfl)
    · rw [Function.update_of_ne hb, or_iff_right hb]
  · rw [← hblock, Region.view, hcell, Function.update_self, Option.map_some, he]

/-- An insertion appends the entry, unless memory runs out. -/
theorem hashAdd_spec (h : Simulates p w) {v : LFile} (hb : b ∉ blocks w.files)
    (hv : p.memory.elements.view Element.value b = some v) {a : Allocator}
    (hroom : a.room < 2 ^ 31) (hfew : w.files.length + 1 < 2 ^ 32) :
    p.hashAdd a b = .error (.table .outOfMemory) ∨
      ∃ p', p.hashAdd a b = .ok p' ∧
        Simulates p' { w with files := add w.files ⟨b, v⟩ } := by
  obtain ⟨e, he, hev⟩ := Region.cell_of_view hv
  have hentry : p.entry b = .ok v := by
    simp only [Process.entry, Region.read_of_cell he, ofAccess, Except.mapError, bind,
      Except.bind, pure, Except.pure, hev]
  have hshort : (keyBytes v).length < 2 ^ 32 := by
    have hfits : (keyBytes v).length < MAXPATHLEN := v.path.fits
    have hmax : MAXPATHLEN = 50 := rfl
    omega
  have hadd := hashAddKeyptr_spec (c := ⟨b, v⟩) h.table hb hv hshort hfew hroom
  simp only [Process.hashAdd, hentry, bind, Except.bind]
  rcases hadd with herr | ⟨head', m', hok, hrep, hsame⟩
  · left
    simp only [herr, ofAccess, Except.mapError]
  · refine Or.inr ⟨{ p with files := head', memory := m' }, ?_, hrep, ?_, hsame.next.trans h.next,
      h.metadir, h.nfiles, h.store, h.closes⟩
    · simp only [hok, ofAccess, Except.mapError, pure, Except.pure]
    · exact fun b => (live_of_sameValues hsame b).trans (h.live b)

/-- A deletion unlinks the entry. -/
theorem hashDel_spec (h : Simulates p w) (hc : c ∈ w.files) :
    ∃ p', p.hashDel c.block = .ok p' ∧
      Simulates p' { w with files := del w.files c.block } := by
  obtain ⟨head', m', hok, hrep, hsame⟩ := hashDelete_spec h.table hc
  refine ⟨{ p with files := head', memory := m' }, ?_, hrep,
    fun b => (live_of_sameValues hsame b).trans (h.live b), hsame.next.trans h.next, h.metadir,
    h.nfiles, h.store, h.closes⟩
  simp only [Process.hashDel, hok, ofAccess, Except.mapError, bind, Except.bind, pure, Except.pure]

/-- An entry that is not in the table can be freed. -/
theorem free_spec (h : Simulates p w) (hb : b ∉ blocks w.files) (hlive : b ∈ w.heap.live) :
    ∃ p' heap, p.free b = .ok p' ∧ w.heap.free b = .ok heap ∧
      Simulates p' { w with heap := heap } := by
  obtain ⟨r, hr, hcell, hnext⟩ := Region.free_of_live ((h.live b).mpr hlive)
  have hheap : w.heap.free b = .ok ⟨w.heap.live.erase b, w.heap.next, _⟩ := if_pos hlive
  refine ⟨{ p with memory := { p.memory with elements := r } }, _, ?_, hheap,
    represents_free h.table hb hcell, ?_, hnext.trans h.next, h.metadir, h.nfiles, h.store,
    h.closes⟩
  · simp only [Process.free, hr, ofAccess, Except.mapError, bind, Except.bind, pure, Except.pure]
  · intro d
    rw [Finset.mem_erase, ← h.live d, Region.Live, Region.Live, hcell]
    by_cases hd : d = b
    · rw [hd, Function.update_self]
      exact iff_of_false Bool.false_ne_true (fun hand => hand.1 rfl)
    · rw [Function.update_of_ne hd, and_iff_right hd]

/-- A write to an entry that was just inserted. -/
theorem modify_added {cells : List (Cell LFile)} {v : LFile}
    (h : Simulates p { w with files := add cells ⟨b, v⟩ }) (hb : b ∉ blocks cells)
    (hf : ∀ a, (f a).path = a.path) :
    ∃ p', p.modify b f = .ok p' ∧ Simulates p' { w with files := add cells ⟨b, f v⟩ } := by
  obtain ⟨p', hp', hsim, -⟩ := modify_spec h (value_of_mem h (mem_add cells ⟨b, v⟩)) hf
  refine ⟨p', hp', ?_⟩
  simp only [World.modify, modify_add hb] at hsim
  exact hsim

/-- The real system may change under both. -/
theorem simulates_store (h : Simulates p w) (store : Store (List UInt8)) :
    Simulates { p with store := store } { w with store := store } :=
  ⟨h.table, h.live, h.next, h.metadir, h.nfiles, rfl, h.closes⟩

/-- So may the counter of files. -/
theorem simulates_nfiles (h : Simulates p w) (nfiles : UInt32) :
    Simulates { p with nfiles := nfiles } { w with nfiles := nfiles } :=
  ⟨h.table, h.live, h.next, h.metadir, rfl, h.store, h.closes⟩

end Accesses

end LazyFS.TableRefinement
