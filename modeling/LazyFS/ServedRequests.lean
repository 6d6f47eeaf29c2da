import LazyFS.FileOperations
import LazyFS.GuardedRun

/-!
# Requests over a finite map of names

Seen from outside, the process is a finite map from paths to entries together
with the real store. `Served` lists every way a request can end over that
view, one constructor for each, without lists, addresses or heap blocks. Every
step of the implementation that returns is one of these, provided its entries
are owned, and it leaves them owned; paths that fit their field and reads that
fit their index never leave the defined part of the language.
-/

namespace LazyFS.ServedRequests

open MachineWords LinkedCells PathNames PatternParser PosixStore FileOperations GuardedRun

/-- Keys, blocks and heap of the file table agree. -/
abbrev OwnedTable (w : World) : Prop := Owned LFile.key w.heap w.files

/-- What the requests observe and change. -/
structure View where
  /-- The table as a finite map. -/
  lookup : Path → Option LFile
  /-- The real store and the descriptors. -/
  store : Store (List UInt8)
  /-- Every `close` so far. -/
  closes : List CloseCall

/-- The view of a world. -/
def view (w : World) : View := ⟨w.lookup, w.store, w.closes⟩

/-- The view with one path rebound. -/
def View.bind (v : View) (path : Path) (f : Option LFile) : View :=
  { v with lookup := Function.update v.lookup path f }

/-- The view with another store. -/
def View.withStore (v : View) (store : Store (List UInt8)) : View := { v with store := store }

/-- Binding a path to what it is bound to changes nothing. -/
theorem View.bind_self {v : View} {path : Path} {f : Option LFile} (h : v.lookup path = f) :
    v.bind path f = v := by
  simp only [View.bind, ← h, Function.update_eq_self]

/-- The one path that a request only looks up. -/
def target : Op → Option Path
  | .getattr path _ _ | .unlink path | .truncate path _ _ | .open path _ | .read path _ _
  | .write path _ _ _ | .release path => some path
  | .readdir _ | .create _ _ _ | .rename _ _ => none

/-- Requests that only look. -/
def isQuery : Op → Bool
  | .getattr _ _ _ | .read _ _ _ | .readdir _ => true
  | _ => false

/-- The size after a write of `size` bytes at `offset`, as `l_write` computes it. -/
def grownSize (old offset : Int64) (size : UInt64) : Int64 :=
  if old.toUInt64 < offset.toUInt64 + size then (offset.toUInt64 + size).toInt64 else old

/-- The entry of a rename: everything but the path and the pattern is kept. -/
structure Renamed (f f' : LFile) (new : Path) : Prop where
  key : f'.key = new
  size : f'.size = f.size
  fd : f'.fd = f.fd
  realfd : f'.realfd = f.realfd
  pattern : f'.pattern = strncpyPattern f.pattern

/-- The entry of a creation: an empty file whose other fields are given. -/
structure Created (f : LFile) (path : Path) (realfd : ℤ) (pattern : Pattern) : Prop where
  key : f.key = path
  size : f.size = 0
  realfd : f.realfd = realfd
  pattern : f.pattern = pattern

/-- Every way a request can end. -/
inductive Served (metadir : List UInt8) (env : Env) (v : View) : Op → Reply → View → Prop
  | absent {op p} (hop : target op = some p) (hp : v.lookup p = none) :
    Served metadir env v op ⟨Errno.neg ENOENT, []⟩ v
  | queried {op r} (hop : isQuery op = true) : Served metadir env v op r v
  | unlinked {p f} (hp : v.lookup p = some f) :
    Served metadir env v (.unlink p)
      ⟨if isMetaFile p then rawResult (v.store.unlink env.fault (realpath metadir p)).1 else 0, []⟩
      ((v.bind p none).withStore
        (if isMetaFile p then (v.store.unlink env.fault (realpath metadir p)).2 else v.store))
  | resized {p length fi f} (hp : v.lookup p = some f) (hmeta : isMetaFile p = false) :
    Served metadir env v (.truncate p length fi) ⟨0, []⟩ (v.bind p (some (f.setSize length)))
  | realTruncated {p length fi f} (hp : v.lookup p = some f) (hmeta : isMetaFile p = true) :
    Served metadir env v (.truncate p length fi)
      ⟨rawResult (v.store.truncate env.fault (realpath metadir p) length.toInt).1, []⟩
      (v.withStore (v.store.truncate env.fault (realpath metadir p) length.toInt).2)
  | opened {p fi f} (hp : v.lookup p = some f) (hmeta : isMetaFile p = false) :
    Served metadir env v (.open p fi) ⟨0, []⟩
      (v.bind p (some (if fi.has O_TRUNC then f.setSize 0 else f)))
  | realOpened {p fi f fd store} (hp : v.lookup p = some f) (hmeta : isMetaFile p = true)
    (hopen : v.store.openFile env.fault (realpath metadir p) false false 0 = (.ok fd, store)) :
    Served metadir env v (.open p fi) ⟨0, []⟩
      ((v.bind p (some (f.setRealfd fd))).withStore store)
  | openFailed {p fi f e} (hp : v.lookup p = some f) (hmeta : isMetaFile p = true) :
    Served metadir env v (.open p fi) ⟨Errno.neg e, []⟩ v
  | written {p buf size offset f} (hp : v.lookup p = some f) (hmeta : isMetaFile p = false) :
    Served metadir env v (.write p buf size offset) ⟨cInt size, []⟩
      (v.bind p (some (f.setSize (grownSize f.size offset size))))
  | realWritten {p buf size offset f r} (hp : v.lookup p = some f) (hmeta : isMetaFile p = true) :
    Served metadir env v (.write p buf size offset) r
      (v.withStore (v.store.pwrite env.fault env.limit f.realfd (buf.take size.toNat)
        offset.toInt).2)
  | released {p f} (hp : v.lookup p = some f) (hmeta : isMetaFile p = false) :
    Served metadir env v (.release p) ⟨0, []⟩ v
  | realReleased {p f} (hp : v.lookup p = some f) (hmeta : isMetaFile p = true) :
    Served metadir env v (.release p) ⟨rawResult (v.store.close env.fault f.realfd).1, []⟩
      ⟨v.lookup, (v.store.close env.fault f.realfd).2, v.closes ++
        [⟨f, v.store.descriptor f.realfd, v.store.names (realFile metadir p)⟩]⟩
  | exclusive {p mode fi f} (hp : v.lookup p = some f)
    (hfi : (fi.has O_CREAT && fi.has O_EXCL) = true) :
    Served metadir env v (.create p mode fi) ⟨Errno.neg EEXIST, []⟩ v
  | recreated {p mode fi f} (hp : v.lookup p = some f)
    (hfi : (fi.has O_CREAT && fi.has O_EXCL) = false) :
    Served metadir env v (.create p mode fi) ⟨cInt fi.fh, []⟩ (v.bind p (some (f.setSize 0)))
  | created {p mode fi f} (hp : v.lookup p = none) (hmeta : isMetaFile p = false)
    (hf : Created f p env.junk.realfd
      (parsePattern (cString (strncpy p.name 8)) env.junk.pattern).2) :
    Served metadir env v (.create p mode fi) ⟨cInt fi.fh, []⟩ (v.bind p (some f))
  | realCreated {p mode fi f fd store} (hp : v.lookup p = none) (hmeta : isMetaFile p = true)
    (hopen : v.store.openFile env.fault (realpath metadir p) true true mode = (.ok fd, store))
    (hf : Created f p fd env.junk.pattern) :
    Served metadir env v (.create p mode fi) ⟨cInt fi.fh, []⟩
      ((v.bind p (some f)).withStore store)
  | createFailed {p mode fi e} (hp : v.lookup p = none) (hmeta : isMetaFile p = true)
    (hopen : (v.store.openFile env.fault (realpath metadir p) true true mode).1 = .error e) :
    Served metadir env v (.create p mode fi) ⟨Errno.neg (env.loggedErrno e), []⟩ v
  | renameRefused {old new r}
    (hwhy : v.lookup new ≠ none ∨ v.lookup old = none ∨ isMetaFile old ≠ isMetaFile new ∨
      isMetaFile old = true) (hr : r < 0) :
    Served metadir env v (.rename old new) ⟨r, []⟩ v
  | renamed {old new f f'} (hnew : v.lookup new = none) (hold : v.lookup old = some f)
    (hmold : isMetaFile old = false) (hmnew : isMetaFile new = false)
    (hf : Renamed f f' new) :
    Served metadir env v (.rename old new) ⟨0, []⟩ ((v.bind new (some f')).bind old none)
  | realRenamed {old new f f' n store} (hnew : v.lookup new = none) (hold : v.lookup old = some f)
    (hmold : isMetaFile old = true) (hmnew : isMetaFile new = true)
    (hcall : v.store.rename env.fault (realpath metadir old) (realpath metadir new) =
      (.ok n, store)) (hf : Renamed f f' new) :
    Served metadir env v (.rename old new) ⟨0, []⟩
      (((v.bind new (some f')).bind old none).withStore store)

/-- A mapped computation returns only if the computation did. -/
theorem Except.map_eq_ok {χ α β : Type} {x : Except χ α} {f : α → β} {b : β}
    (h : x.map f = .ok b) : ∃ a, x = .ok a ∧ f a = b := by
  cases x with
  | error u => cases h
  | ok a =>
    cases h
    exact ⟨a, rfl, rfl⟩

/-- An error number is returned negative. -/
theorem Errno.neg_neg (e : Errno) : Errno.neg e < 0 := by
  have h := e.pos
  unfold Errno.neg
  omega

section Lookups

variable {w : World} {p : Path} {c : Cell LFile}

/-- The value of a path is that of its cell. -/
theorem lookup_eq_of_find (h : w.find p = some c) : w.lookup p = some c.value := lookup_of_find h

/-- A path without a cell has no value. -/
theorem lookup_eq_none_of_find (h : w.find p = none) : w.lookup p = none := lookup_none_iff.mpr h

/-- A cell that is found has the path. -/
theorem find_key_eq (h : w.find p = some c) : c.value.key = p := find_key h

/-- Writing a field of the entry at a path rebinds that path. -/
theorem lookup_modify_eq (hown : OwnedTable w) (h : w.find p = some c) {f : LFile → LFile}
    (hf : ∀ a, (f a).key = a.key) :
    (w.modify c.block f).lookup = Function.update w.lookup p (some (f c.value)) :=
  lookup_modify hown h (hf c.value)

end Lookups

/-- A step of the implementation, as its users see it. -/
structure Refines (w w' : World) (e : Event) (r : Reply) : Prop where
  /-- The step is one of the listed outcomes. -/
  served : Served w.metadir e.env (view w) e.op r (view w')
  /-- The directory is fixed at mount time. -/
  metadir : w'.metadir = w.metadir
  /-- The table is still owned. -/
  owned : OwnedTable w'

section Steps

variable {w w' : World} {env : Env} {p : Path} {r : ℤ}

/-- Writing one field in place rebinds the path and nothing else. -/
theorem modify_view (hown : OwnedTable w) {c : Cell LFile} (h : w.find p = some c)
    {f : LFile → LFile} (hf : ∀ a, (f a).key = a.key) :
    view (w.modify c.block f) = (view w).bind p (some (f c.value)) ∧
      OwnedTable (w.modify c.block f) := by
  refine ⟨?_, Owned.modify hown hf⟩
  simp only [view, View.bind, View.mk.injEq]
  exact ⟨lookup_modify_eq hown h hf, rfl, rfl⟩

/-- `l_unlink` removes one binding from the view. -/
theorem lUnlink_refines (hown : OwnedTable w) (h : lUnlink env p w = .ok (r, w')) :
    Refines w w' ⟨.unlink p, env⟩ ⟨r, []⟩ := by
  unfold lUnlink at h
  cases hfind : w.find p with
  | none =>
    simp only [hfind, Except.ok.injEq, Prod.mk.injEq] at h
    obtain ⟨rfl, rfl⟩ := h
    exact ⟨.absent rfl (lookup_eq_none_of_find hfind), rfl, hown⟩
  | some c =>
    simp only [hfind] at h
    cases hfree : w.heap.free c.block with
    | error u => simp only [hfree, reduceCtorEq] at h
    | ok heap =>
      simp only [hfree, Except.ok.injEq, Prod.mk.injEq] at h
      obtain ⟨rfl, rfl⟩ := h
      have hserved : Served w.metadir env (view w) (.unlink p) _ _ :=
        .unlinked (lookup_eq_of_find hfind)
      refine ⟨?_, rfl, Owned.free hown hfree⟩
      convert hserved using 1
      · split_ifs <;> rfl
      · simp only [view, View.bind, View.withStore, View.mk.injEq, and_true]
        exact ⟨lookup_del hown hfind, by split_ifs <;> rfl⟩

/-- `l_truncate` changes one size in the view. -/
theorem lTruncate_refines (hown : OwnedTable w) (length : Int64) (fi : Option FuseFileInfo) :
    Refines w (lTruncate env p length w).2 ⟨.truncate p length fi, env⟩
      ⟨(lTruncate env p length w).1, []⟩ := by
  unfold lTruncate
  cases hfind : w.find p with
  | none => exact ⟨.absent rfl (lookup_eq_none_of_find hfind), rfl, hown⟩
  | some c =>
    have hp := lookup_eq_of_find hfind
    cases hmeta : isMetaFile p with
    | true => exact ⟨.realTruncated hp hmeta, rfl, hown⟩
    | false =>
      obtain ⟨hview, hown'⟩ := modify_view hown hfind (f := LFile.setSize length) (fun _ => rfl)
      exact ⟨hview ▸ .resized hp hmeta, rfl, hown'⟩

/-- `l_open` changes one entry of the view at most. -/
theorem lOpen_refines (hown : OwnedTable w) (fi : FuseFileInfo) :
    Refines w (lOpen env p fi w).2 ⟨.open p fi, env⟩ ⟨(lOpen env p fi w).1, []⟩ := by
  unfold lOpen
  cases hfind : w.find p with
  | none => exact ⟨.absent rfl (lookup_eq_none_of_find hfind), rfl, hown⟩
  | some c =>
    have hp := lookup_eq_of_find hfind
    cases hmeta : isMetaFile p with
    | true =>
      simp only [if_true]
      cases hcall : w.store.openFile env.fault (realpath w.metadir p) false false 0 with
      | mk result store =>
        cases result with
        | error e =>
          have hsame := Store.openFile_error hcall
          subst hsame
          exact ⟨.openFailed hp hmeta, rfl, hown⟩
        | ok fd =>
          have hown₁ : OwnedTable { w with store := store } := hown
          obtain ⟨hview, hown'⟩ := modify_view hown₁ hfind (f := LFile.setRealfd fd) (fun _ => rfl)
          exact ⟨hview ▸ .realOpened hp hmeta hcall, rfl, hown'⟩
    | false =>
      simp only [Bool.false_eq_true, if_false]
      have hserved : Served w.metadir env (view w) (.open p fi) ⟨0, []⟩ _ := .opened hp hmeta
      cases htrunc : fi.has O_TRUNC with
      | true =>
        obtain ⟨hview, hown'⟩ := modify_view hown hfind (f := LFile.setSize 0) (fun _ => rfl)
        rw [htrunc, if_pos rfl, ← hview] at hserved
        exact ⟨hserved, rfl, hown'⟩
      | false =>
        have hsame : (view w).bind p (some c.value) = view w := View.bind_self hp
        rw [htrunc, if_neg Bool.false_ne_true, hsame] at hserved
        exact ⟨hserved, rfl, hown⟩

/-- `l_write` changes one size in the view. -/
theorem lWrite_refines (hown : OwnedTable w) (buf : List UInt8) (size : UInt64) (offset : Int64) :
    Refines w (lWrite env p buf size offset w).2 ⟨.write p buf size offset, env⟩
      ⟨(lWrite env p buf size offset w).1, []⟩ := by
  unfold lWrite
  cases hfind : w.find p with
  | none => exact ⟨.absent rfl (lookup_eq_none_of_find hfind), rfl, hown⟩
  | some c =>
    have hp := lookup_eq_of_find hfind
    cases hmeta : isMetaFile p with
    | true =>
      simp only [if_true]
      split <;> exact ⟨.realWritten hp hmeta, rfl, hown⟩
    | false =>
      simp only [Bool.false_eq_true, if_false]
      have hserved : Served w.metadir env (view w) (.write p buf size offset) ⟨cInt size, []⟩ _ :=
        .written hp hmeta
      unfold grownSize at hserved
      split_ifs at hserved ⊢ with hlt
      · obtain ⟨hview, hown'⟩ := modify_view hown hfind
          (f := LFile.setSize (offset.toUInt64 + size).toInt64) (fun _ => rfl)
        rw [← hview] at hserved
        exact ⟨hserved, rfl, hown'⟩
      · have hsame : (view w).bind p (some (c.value.setSize c.value.size)) = view w := by
          simp only [View.bind, view]
          rw [Function.update_eq_self_iff.mpr hp.symm]
        rw [hsame] at hserved
        exact ⟨hserved, rfl, hown⟩

/-- `l_release` changes one entry of the view at most. -/
theorem lRelease_refines (hown : OwnedTable w) :
    Refines w (lRelease env p w).2 ⟨.release p, env⟩ ⟨(lRelease env p w).1, []⟩ := by
  unfold lRelease
  cases hfind : w.find p with
  | none => exact ⟨.absent rfl (lookup_eq_none_of_find hfind), rfl, hown⟩
  | some c =>
    have hp := lookup_eq_of_find hfind
    cases hmeta : isMetaFile p with
    | true =>
      have hserved : Served w.metadir env (view w) (.release p) _ _ := .realReleased hp hmeta
      rw [← find_key_eq hfind] at hserved ⊢
      exact ⟨hserved, rfl, hown⟩
    | false => exact ⟨.released hp hmeta, rfl, hown⟩

/-- A new entry, whatever its other fields, binds the path it was made for, if
that was not bound. -/
theorem add_entry (hown : OwnedTable w) {f : LFile} (hf : f.key = p) (hp : w.lookup p = none) :
    lookup LFile.key (add w.files ⟨w.heap.malloc.1, f⟩) = Function.update w.lookup p (some f) ∧
      Owned LFile.key w.heap.malloc.2 (add w.files ⟨w.heap.malloc.1, f⟩) := by
  have hnew : lookup LFile.key w.files f.key = none := hf.symm ▸ hp
  exact ⟨hf ▸ lookup_add (c := ⟨w.heap.malloc.1, f⟩) hnew, Owned.add hown hnew⟩

/-- A creation that returns has added an entry or changed a size, or left the table alone. -/
theorem lCreate_refines (hown : OwnedTable w) {mode : ℕ} {fi : FuseFileInfo}
    (h : lCreate env p mode fi w = .ok (r, w')) :
    Refines w w' ⟨.create p mode fi, env⟩ ⟨r, []⟩ := by
  unfold lCreate at h
  cases hfind : w.find p with
  | some c =>
    have hp := lookup_eq_of_find hfind
    simp only [hfind] at h
    split_ifs at h with hfi
    · simp only [Except.ok.injEq, Prod.mk.injEq] at h
      obtain ⟨rfl, rfl⟩ := h
      exact ⟨.exclusive hp hfi, rfl, hown⟩
    · simp only [Except.ok.injEq, Prod.mk.injEq] at h
      obtain ⟨rfl, rfl⟩ := h
      obtain ⟨hview, hown'⟩ := modify_view hown hfind (f := LFile.setSize 0) (fun _ => rfl)
      exact ⟨hview ▸ .recreated hp (Bool.eq_false_of_not_eq_true hfi), rfl, hown'⟩
  | none =>
    have hp := lookup_eq_none_of_find hfind
    simp only [hfind] at h
    cases hcopy : strcpyPath p with
    | error u => simp only [hcopy, bind, Except.bind, reduceCtorEq] at h
    | ok field =>
      have hkey : field.path = p := (strcpyPath_eq_ok hcopy).2
      simp only [hcopy, bind, Except.bind, pure, Except.pure] at h
      cases hmeta : isMetaFile p with
      | true =>
        simp only [hmeta, if_true] at h
        cases hcall : w.store.openFile env.fault (realpath w.metadir p) true true mode with
        | mk result store =>
          cases result with
          | error e =>
            simp only [hcall, Except.ok.injEq, Prod.mk.injEq] at h
            obtain ⟨rfl, rfl⟩ := h
            have hsame := Store.openFile_error hcall
            subst hsame
            exact ⟨.createFailed hp hmeta (congrArg Prod.fst hcall), rfl, Owned.malloc hown⟩
          | ok fd =>
            simp only [hcall, Except.ok.injEq, Prod.mk.injEq] at h
            obtain ⟨rfl, rfl⟩ := h
            obtain ⟨hlookup, hown'⟩ :=
              add_entry hown (f := ⟨field, 0, env.junk.fd, fd, env.junk.pattern⟩) hkey hp
            have hserved : Served w.metadir env (view w) (.create p mode fi) ⟨cInt fi.fh, []⟩ _ :=
              .realCreated (f := ⟨field, 0, env.junk.fd, fd, env.junk.pattern⟩) hp hmeta hcall
                ⟨hkey, rfl, rfl, rfl⟩
            refine ⟨?_, rfl, hown'⟩
            convert hserved using 1
            simp only [view, View.bind, View.withStore, View.mk.injEq, and_self, and_true]
            exact hlookup
      | false =>
        simp only [hmeta, Bool.false_eq_true, if_false, Except.ok.injEq, Prod.mk.injEq] at h
        obtain ⟨rfl, rfl⟩ := h
        obtain ⟨hlookup, hown'⟩ := add_entry hown (f := ⟨field, 0, (w.nfiles + 1).toInt32,
          env.junk.realfd, (parsePattern (cString (strncpy p.name 8)) env.junk.pattern).2⟩) hkey hp
        have hserved : Served w.metadir env (view w) (.create p mode fi) ⟨cInt fi.fh, []⟩ _ :=
          .created (f := ⟨field, 0, (w.nfiles + 1).toInt32, env.junk.realfd,
            (parsePattern (cString (strncpy p.name 8)) env.junk.pattern).2⟩) hp hmeta
            ⟨hkey, rfl, rfl, rfl⟩
        refine ⟨?_, rfl, hown'⟩
        convert hserved using 1
        simp only [view, View.bind, View.mk.injEq, and_self, and_true]
        exact hlookup

/-- The end of a rename rebinds the new path and unbinds the old one. -/
theorem moveEntry_view (hown : OwnedTable w) {c : Cell LFile} {old new : Path}
    (hnew : w.lookup new = none) (hold : w.find old = some c)
    (h : moveEntry c new w = .ok (r, w')) :
    r = 0 ∧ ∃ f', Renamed c.value f' new ∧
      view w' = ((view w).bind new (some f')).bind old none ∧
      w'.metadir = w.metadir ∧ OwnedTable w' := by
  unfold moveEntry at h
  cases hcopy : strcpyPath new with
  | error u => simp only [hcopy, bind, Except.bind, reduceCtorEq] at h
  | ok field =>
    have hkey : field.path = new := (strcpyPath_eq_ok hcopy).2
    simp only [hcopy, bind, Except.bind, pure, Except.pure] at h
    cases hfree : w.heap.malloc.2.free c.block with
    | error u => simp only [hfree, reduceCtorEq] at h
    | ok heap =>
      simp only [hfree, Except.ok.injEq, Prod.mk.injEq] at h
      obtain ⟨rfl, rfl⟩ := h
      refine ⟨rfl, ⟨field, c.value.size, c.value.fd, c.value.realfd,
        strncpyPattern c.value.pattern⟩, ⟨hkey, rfl, rfl, rfl, rfl⟩, ?_, rfl, ?_⟩
      all_goals
        generalize hf' : (⟨field, c.value.size, c.value.fd, c.value.realfd,
          strncpyPattern c.value.pattern⟩ : LFile) = f'
        have hkey' : f'.key = new := by rw [← hf']; exact hkey
        obtain ⟨hadd, hown₁⟩ := add_entry hown hkey' hnew
      · have hfind : find LFile.key (add w.files ⟨w.heap.malloc.1, f'⟩) old = some c := by
          have hmem : c ∈ add w.files ⟨w.heap.malloc.1, f'⟩ :=
            List.mem_append_left _ (find_mem hold)
          have hfound := find_of_mem hown₁.keys hmem
          rwa [find_key_eq hold] at hfound
        simp only [view, View.bind, View.mk.injEq, and_true]
        exact (lookup_del hown₁ hfind).trans (by rw [hadd])
      · exact Owned.free hown₁ hfree

/-- `l_rename` moves one binding of the view. -/
theorem lRename_refines (hown : OwnedTable w) {old new : Path}
    (h : lRename env old new w = .ok (r, w')) :
    Refines w w' ⟨.rename old new, env⟩ ⟨r, []⟩ := by
  unfold lRename at h
  cases hfnew : w.find new with
  | some c =>
    simp only [hfnew, Except.ok.injEq, Prod.mk.injEq] at h
    obtain ⟨rfl, rfl⟩ := h
    have hnew := lookup_eq_of_find hfnew
    exact ⟨.renameRefused (Or.inl (by rw [show (view w).lookup new = _ from hnew]; simp))
      (Errno.neg_neg _), rfl, hown⟩
  | none =>
    have hnew := lookup_eq_none_of_find hfnew
    simp only [hfnew] at h
    cases hfold : w.find old with
    | none =>
      simp only [hfold, Except.ok.injEq, Prod.mk.injEq] at h
      obtain ⟨rfl, rfl⟩ := h
      exact ⟨.renameRefused (Or.inr (Or.inl (lookup_eq_none_of_find hfold))) (Errno.neg_neg _),
        rfl, hown⟩
    | some c =>
      have hold := lookup_eq_of_find hfold
      simp only [hfold] at h
      cases hmold : isMetaFile old <;> cases hmnew : isMetaFile new <;>
        simp only [hmold, hmnew, Bool.not_false, Bool.not_true, Bool.and_false,
          Bool.and_true, Bool.or_self, Bool.false_eq_true, if_false, if_true, Bool.or_false,
          Bool.or_true, Except.ok.injEq, Prod.mk.injEq] at h
      case false.false =>
        obtain ⟨rfl, f', hf', hview, hmetadir, hown'⟩ := moveEntry_view hown hnew hfold h
        exact ⟨hview ▸ .renamed hnew hold hmold hmnew hf', hmetadir, hown'⟩
      case false.true | true.false =>
        obtain ⟨rfl, rfl⟩ := h
        exact ⟨.renameRefused (Or.inr (Or.inr (Or.inl (by simp [hmold, hmnew])))) (Errno.neg_neg _),
          rfl, hown⟩
      case true.true =>
        cases hcall : w.store.rename env.fault (realpath w.metadir old)
            (realpath w.metadir new) with
        | mk result store =>
          cases result with
          | error e =>
            simp only [hcall, Except.ok.injEq, Prod.mk.injEq] at h
            obtain ⟨rfl, rfl⟩ := h
            rcases Store.rename_cases hcall with ⟨_, -, rfl⟩ | ⟨hok, -, -⟩
            · exact ⟨.renameRefused (Or.inr (Or.inr (Or.inr hmold))) (Errno.neg_neg _), rfl, hown⟩
            · cases hok
          | ok n =>
            simp only [hcall] at h
            have hown₁ : OwnedTable { w with store := store } := hown
            obtain ⟨rfl, f', hf', hview, hmetadir, hown'⟩ := moveEntry_view hown₁ hnew hfold h
            exact ⟨hview ▸ .realRenamed hnew hold hmold hmnew hcall hf', hmetadir, hown'⟩

end Steps

/-- The implementation refines the listed outcomes, and keeps its table owned. -/
theorem step_refines {w w' : World} {e : Event} {r : Reply} (hown : OwnedTable w)
    (h : step w e = .ok (r, w')) : Refines w w' e r := by
  obtain ⟨op, env⟩ := e
  cases op with
  | getattr p stbuf fi =>
    cases h
    exact ⟨.queried rfl, rfl, hown⟩
  | readdir p =>
    cases h
    exact ⟨.queried rfl, rfl, hown⟩
  | unlink p =>
    obtain ⟨⟨_, _⟩, hcall, heq⟩ := Except.map_eq_ok h
    cases heq
    exact lUnlink_refines hown hcall
  | truncate p length fi =>
    cases fi <;> cases h <;> exact lTruncate_refines hown length _
  | «open» p fi =>
    cases h
    exact lOpen_refines hown fi
  | read p size offset =>
    obtain ⟨⟨_, _⟩, hcall, heq⟩ := Except.map_eq_ok h
    cases heq
    exact ⟨.queried rfl, rfl, hown⟩
  | write p buf size offset =>
    cases h
    exact lWrite_refines hown buf size offset
  | release p =>
    cases h
    exact lRelease_refines hown
  | create p mode fi =>
    obtain ⟨⟨_, _⟩, hcall, heq⟩ := Except.map_eq_ok h
    cases heq
    exact lCreate_refines hown hcall
  | rename old new =>
    obtain ⟨⟨_, _⟩, hcall, heq⟩ := Except.map_eq_ok h
    cases heq
    exact lRename_refines hown hcall

/-- The empty table of a fresh mount is owned. -/
theorem boot_owned (metadir : List UInt8) (store : Store (List UInt8)) :
    OwnedTable (boot metadir store) := Owned.nil _

/-- A fresh mount binds no path. -/
theorem boot_lookup_ne {metadir : List UInt8} {store : Store (List UInt8)} (p : Path) (f : LFile) :
    (view (boot metadir store)).lookup p ≠ some f := nofun

end LazyFS.ServedRequests
