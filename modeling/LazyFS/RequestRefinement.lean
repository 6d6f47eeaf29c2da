import LazyFS.TableRefinement

/-!
# Requests on the table in memory

Every callback on the hash table follows its counterpart on the list of cells,
so every run of requests does: the same replies, the same undefined behaviour,
and in the end a table that represents the same list. The code of the table
adds nothing to that but the exit when memory runs out.
-/

namespace LazyFS.RequestRefinement

open MachineWords LinkedCells PathNames PatternParser PosixStore MemoryRegions HashLayout
  HashQueries PointerOperations StepSimulation TableRefinement
open FileOperations (World LFile Env Event Reply FuseFileInfo Stat LFile.setSize
  LFile.setRealfd)
open ServedRequests (OwnedTable)

variable {p : Process} {w : World} {env : Env} {path : Path} {a : Allocator}

section Callbacks

/-- A callback that returns in every state follows one that does. -/
theorem returns {β : Type} {r : β} {p' : Process} {w' : World} (h : Simulates p' w') :
    Matches (SameReply Simulates) (.ok (r, p')) (.ok (r, w')) := Follows.returns ⟨rfl, h⟩

/-- `l_getattr` on the table answers as on the list. -/
theorem lGetattr_follows (h : Simulates p w) (hown : OwnedTable w) (stbuf : Stat) :
    lGetattr env path stbuf p = .ok (FileOperations.lGetattr env path stbuf w) := by
  unfold lGetattr FileOperations.lGetattr
  by_cases hroot : path.chars = [slash]
  · rw [if_pos hroot, if_pos hroot]
    rfl
  rw [if_neg hroot, if_neg hroot, find_spec h hown, h.store, h.metadir]
  cases hfind : w.find path with
  | none => rfl
  | some c =>
    simp only [Option.map_some, bind, Except.bind]
    split
    · cases w.store.stat env.fault (realpath w.metadir path) <;> rfl
    · rw [entry_spec h (find_mem hfind)]
      rfl

/-- `l_unlink` follows the removal from the list. -/
theorem lUnlink_follows (h : Simulates p w) (hown : OwnedTable w) :
    Matches (SameReply Simulates) (lUnlink env path p) (FileOperations.lUnlink env path w) := by
  obtain ⟨files, memory, rfl⟩ := h.eq
  unfold lUnlink FileOperations.lUnlink
  rw [find_spec h hown]
  cases hfind : w.find path with
  | none => exact returns h
  | some c =>
    have hc := find_mem hfind
    obtain ⟨call, hcall⟩ : ∃ call, (if isMetaFile path then
      w.store.unlink env.fault (realpath w.metadir path) else (.ok 0, w.store)) = call := ⟨_, rfl⟩
    obtain ⟨p₁, hdel, hsim₁⟩ := hashDel_spec (simulates_store h call.2) hc
    obtain ⟨p₂, heap, hfree, hheap, hsim₂⟩ :=
      free_spec hsim₁ (notMem_del w.files c.block) (hown.live c hc)
    dsimp only at hdel hheap hsim₂
    simp only [Option.map_some, bind, Except.bind, hcall, hdel, hfree, hheap, pure, Except.pure]
    exact returns hsim₂

/-- `l_truncate` follows the truncation on the list. -/
theorem lTruncate_follows (h : Simulates p w) (hown : OwnedTable w) (length : Int64) :
    Matches (SameReply Simulates) (lTruncate env path length p)
      (.ok (FileOperations.lTruncate env path length w)) := by
  obtain ⟨files, memory, rfl⟩ := h.eq
  unfold lTruncate FileOperations.lTruncate
  rw [find_spec h hown]
  cases hfind : w.find path with
  | none => exact returns h
  | some c =>
    obtain ⟨p', hwrite, hsim, -⟩ :=
      modify_spec (f := LFile.setSize length) h (value_of_mem h (find_mem hfind)) (fun _ => rfl)
    simp only [Option.map_some, bind, Except.bind]
    split
    · exact returns (simulates_store h _)
    · simp only [hwrite]
      exact returns hsim

/-- `l_open` follows the open on the list. -/
theorem lOpen_follows (h : Simulates p w) (hown : OwnedTable w) (fi : FuseFileInfo) :
    Matches (SameReply Simulates) (lOpen env path fi p)
      (.ok (FileOperations.lOpen env path fi w)) := by
  obtain ⟨files, memory, rfl⟩ := h.eq
  unfold lOpen FileOperations.lOpen
  rw [find_spec h hown]
  cases hfind : w.find path with
  | none => exact returns h
  | some c =>
    have hc := find_mem hfind
    simp only [Option.map_some, bind, Except.bind]
    split
    · rcases w.store.openFile env.fault (realpath w.metadir path) false false 0 with
        ⟨e | fd, store⟩
      · exact returns (simulates_store h store)
      · obtain ⟨p', hwrite, hsim, -⟩ := modify_spec (f := LFile.setRealfd fd)
          (simulates_store h store) (value_of_mem (simulates_store h store) hc) (fun _ => rfl)
        dsimp only at hwrite
        simp only [hwrite]
        exact returns hsim
    · split
      · obtain ⟨p', hwrite, hsim, -⟩ :=
          modify_spec (f := LFile.setSize 0) h (value_of_mem h hc) (fun _ => rfl)
        simp only [hwrite]
        exact returns hsim
      · exact returns h

/-- `l_read` reads what is read on the list, or is undefined where that is. -/
theorem lRead_follows (h : Simulates p w) (hown : OwnedTable w) (size : UInt64)
    (offset : Int64) :
    Matches Eq (lRead env path size offset p) (FileOperations.lRead env path size offset w) := by
  unfold lRead FileOperations.lRead
  rw [find_spec h hown, h.store]
  cases hfind : w.find path with
  | none => exact Follows.returns rfl
  | some c =>
    simp only [Option.map_some, bind, Except.bind, entry_spec h (find_mem hfind)]
    split
    · cases w.store.pread env.fault env.limit c.value.realfd size.toNat offset.toInt <;>
        exact Follows.returns rfl
    · cases FileOperations.readLoop c.value offset size.toNat 0 with
      | error u => exact Follows.fails rfl
      | ok out => exact Follows.returns rfl

/-- `l_write` follows the write on the list. -/
theorem lWrite_follows (h : Simulates p w) (hown : OwnedTable w) (buf : List UInt8)
    (size : UInt64) (offset : Int64) :
    Matches (SameReply Simulates) (lWrite env path buf size offset p)
      (.ok (FileOperations.lWrite env path buf size offset w)) := by
  obtain ⟨files, memory, rfl⟩ := h.eq
  unfold lWrite FileOperations.lWrite
  rw [find_spec h hown]
  cases hfind : w.find path with
  | none => exact returns h
  | some c =>
    have hc := find_mem hfind
    simp only [Option.map_some, bind, Except.bind, entry_spec h hc]
    split
    · rcases w.store.pwrite env.fault env.limit c.value.realfd (buf.take size.toNat)
        offset.toInt with ⟨e | n, store⟩
      · exact returns (simulates_store h store)
      · exact returns (simulates_store h store)
    · split
      · obtain ⟨p', hwrite, hsim, -⟩ := modify_spec
          (f := LFile.setSize (offset.toUInt64 + size).toInt64) h (value_of_mem h hc)
          (fun _ => rfl)
        simp only [hwrite]
        exact returns hsim
      · exact returns h

/-- Closing an entry's descriptor is the same on both. -/
theorem closeEntry_follows (h : Simulates p w) (fault : Option Errno) (f : LFile) :
    (closeEntry fault f p).1 = (FileOperations.closeEntry fault f w).1 ∧
      Simulates (closeEntry fault f p).2 (FileOperations.closeEntry fault f w).2 := by
  unfold closeEntry FileOperations.closeEntry
  rw [h.store, h.closes, h.metadir]
  exact ⟨rfl, h.table, h.live, h.next, rfl, h.nfiles, rfl, rfl⟩

/-- `l_release` follows the release on the list. -/
theorem lRelease_follows (h : Simulates p w) (hown : OwnedTable w) :
    Matches (SameReply Simulates) (lRelease env path p)
      (.ok (FileOperations.lRelease env path w)) := by
  unfold lRelease FileOperations.lRelease
  rw [find_spec h hown]
  cases hfind : w.find path with
  | none => exact returns h
  | some c =>
    simp only [Option.map_some, bind, Except.bind]
    split
    · rw [entry_spec h (find_mem hfind)]
      exact Follows.returns (closeEntry_follows h env.fault c.value)
    · exact returns h

/-- The names of entries. -/
theorem names_spec (h : Simulates p w) {cells : List (Cell LFile)}
    (hcells : ∀ c ∈ cells, c ∈ w.files) :
    p.names (blocks cells) = .ok (cells.map (fun c => c.value.key.name)) := by
  induction cells with
  | nil => rfl
  | cons c cells ih =>
    have hrest := ih (fun d hd => hcells d (List.mem_cons_of_mem c hd))
    have hentry := entry_spec h (hcells c List.mem_cons_self)
    have hblocks : blocks (c :: cells) = c.block :: blocks cells := rfl
    simp only [hblocks, Process.names, hentry, hrest, bind, Except.bind, pure, Except.pure,
      List.map_cons]

/-- `l_readdir` answers as on the list. -/
theorem lReaddir_follows (h : Simulates p w) :
    lReaddir path p = .ok (FileOperations.lReaddir path w) := by
  unfold lReaddir FileOperations.lReaddir
  by_cases hroot : path.chars = [slash]
  · have hiter := hashIter_represents h.table
    rw [if_neg (not_not_intro hroot), if_neg (not_not_intro hroot), hiter]
    simp only [ofAccess, Except.mapError, bind, Except.bind, names_spec h (fun _ hc => hc), pure,
      Except.pure]
  · rw [if_pos hroot, if_pos hroot]
    rfl

/-- `l_create` follows the creation on the list, while there is room. -/
theorem lCreate_follows (h : Simulates p w) (hown : OwnedTable w) (hroom : a.room < 2 ^ 31)
    (hfew : w.files.length + 1 < 2 ^ 32) (mode : ℕ) (fi : FuseFileInfo) :
    Matches (SameReply Simulates) (lCreate env a path mode fi p)
      (FileOperations.lCreate env path mode fi w) := by
  obtain ⟨files, memory, rfl⟩ := h.eq
  unfold lCreate FileOperations.lCreate
  rw [find_spec h hown]
  cases hfind : w.find path with
  | some c =>
    simp only [Option.map_some, bind, Except.bind]
    split
    · exact returns h
    · obtain ⟨p', hwrite, hsim, -⟩ :=
        modify_spec (f := LFile.setSize 0) h (value_of_mem h (find_mem hfind)) (fun _ => rfl)
      simp only [hwrite]
      exact returns hsim
  | none =>
    cases hcopy : strcpyPath path with
    | error u =>
      simp only [Option.map_none, Process.mallocFile, hcopy, ofOutcome, Except.mapError, bind,
        Except.bind]
      exact Follows.fails rfl
    | ok field =>
      obtain ⟨p₁, hmalloc, hsim₁, hnot, hv₁⟩ := mallocFile_spec h env a hcopy
      obtain ⟨p₂, hsize, hsim₂, hv₂⟩ :=
        modify_outside (f := LFile.setSize 0) hsim₁ hnot hv₁ (fun _ => rfl)
      simp only [Option.map_none, hmalloc, hsize, bind, Except.bind]
      obtain ⟨files, memory, rfl⟩ := hsim₂.eq
      split
      · rcases w.store.openFile env.fault (realpath w.metadir path) true true mode with
          ⟨e | fd, store⟩
        · exact returns (simulates_store hsim₂ store)
        · rcases hashAdd_spec (simulates_store hsim₂ store) hnot hv₂ hroom hfew with
            herr | ⟨p₃, hadd, hsim₃⟩
          · dsimp only at herr
            simp only [herr]
            exact Follows.stops rfl
          · obtain ⟨p₄, hfd, hsim₄⟩ :=
              modify_added (f := LFile.setRealfd fd) hsim₃ hnot (fun _ => rfl)
            dsimp only at hadd
            simp only [hadd, hfd]
            exact returns hsim₄
      · rcases hashAdd_spec hsim₂ hnot hv₂ hroom hfew with herr | ⟨p₃, hadd, hsim₃⟩
        · simp only [herr]
          exact Follows.stops rfl
        · obtain ⟨files, memory, rfl⟩ := hsim₃.eq
          obtain ⟨p₄, hserial, hsim₄⟩ := modify_added (f := LFile.setFd (w.nfiles + 1).toInt32)
            (w := { w with heap := w.heap.malloc.2, nfiles := w.nfiles + 1 })
            (simulates_nfiles hsim₃ (w.nfiles + 1)) hnot (fun _ => rfl)
          have hentry := entry_spec hsim₄ (mem_add _ _)
          obtain ⟨p₅, hpattern, hsim₅⟩ := modify_added (f := LFile.setPattern
            (parsePattern (cString (strncpy path.name 8)) env.junk.pattern).2) hsim₄ hnot
            (fun _ => rfl)
          obtain ⟨p₆, hreset, hsim₆⟩ :=
            modify_added (f := LFile.setSize 0) hsim₅ hnot (fun _ => rfl)
          dsimp only at hserial hentry
          simp only [hadd, hserial, hentry, LFile.setFd, LFile.setSize]
          simp only [hpattern, hreset]
          exact returns hsim₆

/-- The entry with the new path is there before the old one goes. -/
theorem moveEntry_follows (h : Simulates p w) (hown : OwnedTable w) (hroom : a.room < 2 ^ 31)
    (hfew : w.files.length + 1 < 2 ^ 32) {c : Cell LFile} (hc : c ∈ w.files) (new : Path) :
    Matches (SameReply Simulates) (moveEntry env a c.block new p)
      (FileOperations.moveEntry c new w) := by
  unfold moveEntry FileOperations.moveEntry
  cases hcopy : strcpyPath new with
  | error u =>
    simp only [Process.mallocFile, hcopy, ofOutcome, Except.mapError, bind, Except.bind]
    exact Follows.fails rfl
  | ok field =>
    obtain ⟨p₁, hmalloc, hsim₁, hnot, hv₁⟩ := mallocFile_spec h env a hcopy
    simp only [hmalloc, bind, Except.bind]
    rcases hashAdd_spec hsim₁ hnot hv₁ hroom hfew with herr | ⟨p₂, hadd, hsim₂⟩
    · simp only [herr]
      exact Follows.stops rfl
    · have hentry := entry_spec hsim₂ (mem_add_of_mem hc _)
      obtain ⟨p₃, hserial, hsim₃⟩ := modify_added (f := LFile.setFd c.value.fd) hsim₂ hnot
        (fun _ => rfl)
      obtain ⟨p₄, hsize, hsim₄⟩ := modify_added (f := LFile.setSize c.value.size) hsim₃ hnot
        (fun _ => rfl)
      obtain ⟨p₅, hfd, hsim₅⟩ := modify_added (f := LFile.setRealfd c.value.realfd) hsim₄ hnot
        (fun _ => rfl)
      obtain ⟨p₆, hpattern, hsim₆⟩ := modify_added
        (f := LFile.setPattern (strncpyPattern c.value.pattern)) hsim₅ hnot (fun _ => rfl)
      obtain ⟨p₇, hdel, hsim₇⟩ := hashDel_spec hsim₆ (mem_add_of_mem hc _)
      have hlive : c.block ∈ w.heap.malloc.2.live := Finset.mem_insert_of_mem (hown.live c hc)
      obtain ⟨p₈, heap, hfree, hheap, hsim₈⟩ := free_spec hsim₇ (notMem_del _ _) hlive
      dsimp only at hheap
      simp only [hadd, hentry, hserial, hsize, hfd, hpattern, hdel, hfree, hheap]
      exact returns hsim₈

/-- `l_rename` follows the rename on the list, while there is room. -/
theorem lRename_follows (h : Simulates p w) (hown : OwnedTable w) (hroom : a.room < 2 ^ 31)
    (hfew : w.files.length + 1 < 2 ^ 32) (old new : Path) :
    Matches (SameReply Simulates) (lRename env a old new p)
      (FileOperations.lRename env old new w) := by
  obtain ⟨files, memory, rfl⟩ := h.eq
  unfold lRename FileOperations.lRename
  rw [find_spec h hown, find_spec h hown]
  cases w.find new with
  | some c => exact returns h
  | none =>
    cases hold : w.find old with
    | none => exact returns h
    | some c =>
      have hc := find_mem hold
      simp only [Option.map_none, Option.map_some, bind, Except.bind]
      split
      · exact returns h
      · split
        · rcases w.store.rename env.fault (realpath w.metadir old) (realpath w.metadir new) with
            ⟨e | n, store⟩
          · exact returns (simulates_store h store)
          · have hown' : OwnedTable { w with store := store } := hown
            exact moveEntry_follows (simulates_store h store) hown' hroom hfew hc new
        · exact moveEntry_follows h hown hroom hfew hc new

end Callbacks

section Requests

/-- Every request on the table follows the request on the list. -/
theorem step_follows (h : Simulates p w) (hown : OwnedTable w) (e : Event × Allocator)
    (hroom : e.2.room < 2 ^ 31) (hfew : w.files.length + 1 < 2 ^ 32) :
    Matches (SameReply Simulates) (step p e) (FileOperations.step w e.1) := by
  obtain ⟨⟨op, env⟩, a⟩ := e
  have hreply : ∀ (x : ℤ × Process) (y : ℤ × World), SameReply Simulates x y →
      SameReply Simulates ((⟨x.1, []⟩, x.2) : Reply × Process) (⟨y.1, []⟩, y.2) :=
    fun x y hxy => ⟨by rw [hxy.1], hxy.2⟩
  cases op with
  | getattr path stbuf fi =>
    simp only [step, lGetattr_follows h hown]
    exact returns h
  | unlink path => exact (lUnlink_follows h hown).map hreply
  | truncate path length fi =>
    cases fi with
    | none => exact (lTruncate_follows h hown length).map hreply
    | some fi => exact (lTruncate_follows h hown length).map hreply
  | «open» path fi => exact (lOpen_follows h hown fi).map hreply
  | read path size offset =>
    refine (lRead_follows h hown size offset).map ?_
    rintro x y rfl
    exact ⟨rfl, h⟩
  | write path buf size offset => exact (lWrite_follows h hown buf size offset).map hreply
  | release path => exact (lRelease_follows h hown).map hreply
  | readdir path =>
    simp only [step, lReaddir_follows h]
    exact returns h
  | create path mode fi => exact (lCreate_follows h hown hroom hfew mode fi).map hreply
  | rename old new => exact (lRename_follows h hown hroom hfew old new).map hreply

end Requests

end LazyFS.RequestRefinement
