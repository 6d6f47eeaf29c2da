import LazyFS.TableRuns

/-!
# The order of the listing

`l_readdir` follows the order in which the table holds its entries. What that order
is can be told from the requests and their replies: a new file comes last, a file
that is renamed moves to the end, and nothing else moves. So a run on the table in
memory lists the names of exactly the files that are there, each once.
-/

namespace LazyFS.ListingOrder

open MachineWords LinkedCells PathNames PatternParser PosixStore FileOperations GuardedRun
  ServedRequests SafeRuns TableRefinement RequestRefinement TableRuns

/-- The paths of the table, in its order. -/
def listed (w : World) : List Path := w.files.map (fun c => c.value.key)

/-- What an answered request does to the order. An unlinked file goes although its real
file may be left, which the reply `-1` tells. -/
def orderStep (paths : List Path) (op : Op) (r : Reply) : List Path :=
  match op with
  | .create p _ _ => if r.ret < 0 ∨ p ∈ paths then paths else paths ++ [p]
  | .unlink p => if r.ret = Errno.neg ENOENT then paths else paths.erase p
  | .rename old new => if r.ret < 0 then paths else paths.erase old ++ [new]
  | _ => paths

/-- The order after a list of requests and their replies. -/
def orderOf (es : List Event) (rs : List Reply) : List Path :=
  follow (fun paths (e : Event) r => orderStep paths e.op r) [] es rs

/-- The handle that comes in with a creation, and is passed back, is not negative. -/
def HandleFree (op : Op) : Prop := ∀ p mode fi, op = .create p mode fi → 0 ≤ cInt fi.fh

section Steps

variable {env : Env} {w w' : World} {p : Path} {r : ℤ}

/-- A path is listed if and only if it is found. -/
theorem mem_listed_of_find {c : Cell LFile} (h : w.find p = some c) : p ∈ listed w :=
  List.mem_map.mpr ⟨c, find_mem h, find_key_eq h⟩

/-- A path that is not found is not listed. -/
theorem notMem_listed_of_find (h : w.find p = none) : p ∉ listed w := by
  intro hmem
  obtain ⟨c, hc, hkey⟩ := List.mem_map.mp hmem
  exact find_none_iff.mp h c hc hkey

/-- Writing fields of an entry does not move it. -/
theorem listed_modify (w : World) (block : ℕ) {f : LFile → LFile} (hf : ∀ a, (f a).key = a.key) :
    listed (w.modify block f) = listed w := keys_modify hf _ _

/-- A raw result is an error of -1 at worst. -/
theorem rawResult_ne (result : Except Errno ℕ) : rawResult result ≠ Errno.neg ENOENT := by
  have hnoent : Errno.neg ENOENT = -2 := rfl
  rw [hnoent]
  cases result with
  | ok n =>
    rw [rawResult]
    omega
  | error e =>
    rw [rawResult]
    decide

/-- A removal takes its path out of the order. -/
theorem lUnlink_order (hown : OwnedTable w) (h : lUnlink env p w = .ok (r, w')) :
    listed w' = orderStep (listed w) (.unlink p) ⟨r, []⟩ := by
  unfold lUnlink at h
  cases hfind : w.find p with
  | none =>
    simp only [hfind, Except.ok.injEq, Prod.mk.injEq] at h
    obtain ⟨rfl, rfl⟩ := h
    rw [orderStep, if_pos rfl]
  | some c =>
    simp only [hfind] at h
    split at h
    · cases h
    · simp only [Except.ok.injEq, Prod.mk.injEq] at h
      obtain ⟨rfl, rfl⟩ := h
      rw [orderStep, if_neg (rawResult_ne _)]
      exact keys_del hown hfind

/-- Truncation keeps the order. -/
theorem lTruncate_order (length : Int64) : listed (lTruncate env p length w).2 = listed w := by
  unfold lTruncate
  split
  · rfl
  · split_ifs
    · rfl
    · exact listed_modify _ _ (fun _ => rfl)

/-- So does an open. -/
theorem lOpen_order (fi : FuseFileInfo) : listed (lOpen env p fi w).2 = listed w := by
  unfold lOpen
  split
  · rfl
  · split_ifs
    · split
      · rfl
      · exact listed_modify _ _ (fun _ => rfl)
    · exact listed_modify _ _ (fun _ => rfl)
    · rfl

/-- So does a write. -/
theorem lWrite_order (buf : List UInt8) (size : UInt64) (offset : Int64) :
    listed (lWrite env p buf size offset w).2 = listed w := by
  unfold lWrite
  split
  · rfl
  · split_ifs
    · dsimp only
      split <;> rfl
    · exact listed_modify _ _ (fun _ => rfl)
    · rfl

/-- So does a release. -/
theorem lRelease_order : listed (lRelease env p w).2 = listed w := by
  unfold lRelease
  split
  · rfl
  · split_ifs <;> rfl

/-- A creation appends what was not there. -/
theorem lCreate_order {mode : ℕ} {fi : FuseFileInfo} (hfh : 0 ≤ cInt fi.fh)
    (h : lCreate env p mode fi w = .ok (r, w')) :
    listed w' = orderStep (listed w) (.create p mode fi) ⟨r, []⟩ := by
  unfold lCreate at h
  cases hfind : w.find p with
  | some c =>
    have hmem := mem_listed_of_find hfind
    rw [orderStep, if_pos (Or.inr hmem)]
    simp only [hfind] at h
    split_ifs at h
    · cases h
      rfl
    · cases h
      exact listed_modify _ _ (fun _ => rfl)
  | none =>
    have hnew := notMem_listed_of_find hfind
    simp only [hfind] at h
    cases hcopy : strcpyPath p with
    | error u => simp only [hcopy, bind, Except.bind, reduceCtorEq] at h
    | ok field =>
      have hkey : field.path = p := (strcpyPath_eq_ok hcopy).2
      have happend : orderStep (listed w) (.create p mode fi) ⟨cInt fi.fh, []⟩ =
          listed w ++ [field.path] := by
        rw [orderStep, if_neg (not_or.mpr ⟨not_lt.mpr hfh, hnew⟩), hkey]
      simp only [hcopy, bind, Except.bind, pure, Except.pure] at h
      split_ifs at h with hmeta
      · split at h
        case h_1 e store hopen =>
          cases h
          exact (if_pos (Or.inl (Errno.neg_neg _))).symm
        case h_2 fd store hopen =>
          cases h
          rw [happend]
          exact keys_add w.files _
      · cases h
        rw [happend]
        exact keys_add w.files _

/-- The new entry is appended before the old one is removed. -/
theorem moveEntry_order (hown : OwnedTable w) {c : Cell LFile} {old new : Path}
    (hnew : w.find new = none) (hold : w.find old = some c)
    (h : moveEntry c new w = .ok (r, w')) :
    r = 0 ∧ listed w' = (listed w).erase old ++ [new] := by
  have hmem : old ∈ listed w := mem_listed_of_find hold
  unfold moveEntry at h
  cases hcopy : strcpyPath new with
  | error u => simp only [hcopy, bind, Except.bind, reduceCtorEq] at h
  | ok field =>
    have hkey : field.path = new := (strcpyPath_eq_ok hcopy).2
    simp only [hcopy, bind, Except.bind, pure, Except.pure] at h
    cases hfree : w.heap.malloc.2.free c.block with
    | error u => simp only [hfree, reduceCtorEq] at h
    | ok heap =>
      simp only [hfree, Except.ok.injEq, Prod.mk.injEq] at h
      obtain ⟨rfl, rfl⟩ := h
      refine ⟨rfl, ?_⟩
      generalize hf : (⟨field, c.value.size, c.value.fd, c.value.realfd,
        strncpyPattern c.value.pattern⟩ : LFile) = f
      have hfkey : f.key = new := by
        rw [← hf]
        exact hkey
      have hown' := (add_entry hown hfkey (lookup_eq_none_of_find hnew)).2
      have hfound : find LFile.key (add w.files ⟨w.heap.malloc.1, f⟩) old = some c := by
        have hfound := find_of_mem hown'.keys (List.mem_append_left _ (find_mem hold))
        rwa [find_key_eq hold] at hfound
      have hkeys := keys_del hown' hfound
      rw [keys_add, hfkey] at hkeys
      exact hkeys.trans (List.erase_append_left _ hmem)

/-- A rename puts the new path last, unless the file keeps its entry. -/
theorem lRename_order (hown : OwnedTable w) {old new : Path}
    (h : lRename env old new w = .ok (r, w')) :
    listed w' = orderStep (listed w) (.rename old new) ⟨r, []⟩ := by
  have hrefused : ∀ e : Errno,
      listed w = orderStep (listed w) (.rename old new) ⟨Errno.neg e, []⟩ :=
    fun e => (if_pos (Errno.neg_neg e)).symm
  unfold lRename at h
  cases hnew : w.find new with
  | some c =>
    simp only [hnew] at h
    cases h
    exact hrefused EEXIST
  | none =>
    cases hold : w.find old with
    | none =>
      simp only [hnew, hold] at h
      cases h
      exact hrefused ENOENT
    | some c =>
      simp only [hnew, hold] at h
      split_ifs at h
      · cases h
        exact hrefused EINVAL
      · split at h
        case h_1 e store hcall =>
          cases h
          exact hrefused _
        case h_2 n store hcall =>
          obtain ⟨rfl, hmoved⟩ := moveEntry_order (w := { w with store := store }) hown hnew hold h
          exact hmoved
      · obtain ⟨rfl, hmoved⟩ := moveEntry_order hown hnew hold h
        exact hmoved

/-- Every request does to the order what its reply tells. -/
theorem step_order (hown : OwnedTable w) {e : Event} (hhandle : HandleFree e.op) {r : Reply}
    (h : FileOperations.step w e = .ok (r, w')) : listed w' = orderStep (listed w) e.op r := by
  obtain ⟨op, env⟩ := e
  cases op with
  | getattr | readdir =>
    cases h
    rfl
  | read =>
    obtain ⟨_, _, h⟩ := Except.map_eq_ok h
    cases h
    rfl
  | truncate path length fi =>
    cases fi <;>
      (cases h
       exact lTruncate_order length)
  | «open» path fi =>
    cases h
    exact lOpen_order fi
  | write path buf size offset =>
    cases h
    exact lWrite_order buf size offset
  | release path =>
    cases h
    exact lRelease_order
  | unlink path =>
    obtain ⟨⟨r, w⟩, hcall, h⟩ := Except.map_eq_ok h
    cases h
    exact lUnlink_order hown hcall
  | create path mode fi =>
    obtain ⟨⟨r, w⟩, hcall, h⟩ := Except.map_eq_ok h
    cases h
    exact lCreate_order (hhandle path mode fi rfl) hcall
  | rename old new =>
    obtain ⟨⟨r, w⟩, hcall, h⟩ := Except.map_eq_ok h
    cases h
    exact lRename_order hown hcall

end Steps

/-- In every state that a run on the table in memory reaches, `l_readdir` lists the two
dots and then each file once, in the order that the requests and their replies tell. The
table never holds 2^32 - 1 entries, is granted no array of 2^31 buckets, and no creation
brings a handle that is taken for an error. -/
theorem listing_in_order (metadir : List UInt8) (store : Store (List UInt8))
    (es : List (Event × PointerOperations.Allocator)) (hes : ∀ e ∈ es, Granted e)
    (hhandle : ∀ e ∈ es, HandleFree e.1.op) (hfew : KeepsRoom metadir store es) (rs : List Reply)
    (p : PointerOperations.Process)
    (hrun : run PointerOperations.step (PointerOperations.boot metadir store) es = .ok (rs, p))
    (root : Path) (hroot : root.chars = [slash]) :
    PointerOperations.lReaddir root p =
        .ok (0, ascii "." :: ascii ".." :: (orderOf (es.map Prod.fst) rs).map Path.name) ∧
      (orderOf (es.map Prod.fst) rs).Nodup := by
  have hfollows := run_kept metadir store hes hfew
  rw [hrun] at hfollows
  obtain ⟨⟨rs', w⟩, hmodel, hreplies, hK⟩ := hfollows.of_ok
  obtain rfl : rs = rs' := hreplies
  have hfree : ∀ e ∈ es.map Prod.fst, HandleFree e.op := by
    intro e he
    obtain ⟨e', he', rfl⟩ := List.mem_map.mp he
    exact hhandle e' he'
  have hordered : OwnedTable w ∧ listed w = orderOf (es.map Prod.fst) rs := by
    refine run_rule (R := fun w paths => OwnedTable w ∧ listed w = paths) ?_
      ⟨boot_owned metadir store, rfl⟩ (guarded_of_forall hfree) hmodel
    intro s paths e r t hs hfree hstep
    obtain ⟨hown, rfl⟩ := hs
    exact ⟨step_owned hown hstep, step_order hown hfree hstep⟩
  rw [← hordered.2]
  refine ⟨?_, hordered.1.keys⟩
  rw [lReaddir_follows hK.simulates, FileOperations.lReaddir, if_neg (not_not_intro hroot), listed,
    List.map_map]
  rfl

/-- A file is created and renamed. -/
def createAndRename : List (Event × PointerOperations.Allocator) :=
  [(⟨.create ⟨ascii "deadbeef_8_1", by decide⟩ 0o644 ⟨O_CREAT, 0⟩, Env.quiet⟩,
      PointerOperations.Allocator.quiet),
    (⟨.rename ⟨ascii "deadbeef_8_1", by decide⟩ ⟨ascii "cafebabe_8_1", by decide⟩, Env.quiet⟩,
      PointerOperations.Allocator.quiet)]

/-- A file that is created and renamed is listed under its new path. -/
theorem listing_in_order_two :
    ∃ rs p, run PointerOperations.step (PointerOperations.boot [] (Store.empty _))
        createAndRename = .ok (rs, p) ∧
      PointerOperations.lReaddir ⟨[], by decide⟩ p = .ok (0, ascii "." :: ascii ".." ::
        (orderOf (createAndRename.map Prod.fst) rs).map Path.name) := by
  have hout : (run PointerOperations.step (PointerOperations.boot [] (Store.empty _))
      createAndRename).map (fun out => out.2.nfiles) = .ok 1 := by
    decide +kernel
  obtain ⟨rs, p, hrun, -⟩ := run_observe hout
  have hgranted : ∀ e ∈ createAndRename, Granted e := by
    decide
  have hhandle : ∀ e ∈ createAndRename, HandleFree e.1.op := by
    intro e he path mode fi hop
    simp only [createAndRename, List.mem_cons, List.not_mem_nil, or_false] at he
    rcases he with rfl | rfl <;> cases hop
    decide
  exact ⟨rs, p, hrun, (listing_in_order [] (Store.empty _) createAndRename hgranted hhandle
    (by decide +kernel) rs p hrun ⟨[], by decide⟩ rfl).1⟩

end LazyFS.ListingOrder
