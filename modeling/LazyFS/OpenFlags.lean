import LazyFS.RealFiles

/-!
# What the open flags are worth

The kernel may ask for truncation through a flag of `open` or through a
request of its own, and it may open an existing file through `create`. The
answers should not depend on which it does. On content files the flag is
honoured by `open`, on meta files it is dropped. A creation that finds its
path takes neither branch of `open`: it resets the size whatever the flags
say, and opens nothing.
-/

namespace LazyFS.OpenFlags

open MachineWords LinkedCells PathNames PosixStore FileOperations GuardedRun ServedRequests
  SafeRuns RealFiles

/-- The size of an entry. -/
def entrySize (w : World) (p : Path) : Option Int64 := (w.lookup p).map LFile.size

/-- Two states in which every path has the same size and every real name the
same contents. -/
structure SameFiles (w u : World) : Prop where
  /-- The sizes in the table. -/
  sizes : ∀ p, entrySize w p = entrySize u p
  /-- The bytes in the real store. -/
  contents : ∀ name, w.store.contentAt name = u.store.contentAt name

/-- The entry of a path holds an open descriptor of its real file. -/
def HoldsRealFile (w : World) (p : Path) : Prop :=
  ∃ f d, w.lookup p = some f ∧ w.store.descriptor f.realfd = some d ∧
    w.store.names (realpath w.metadir p) = some d.ino

/-- The real `open` that `l_open` makes for a path. -/
def openCall (w : World) (env : Env) (p : Path) : Except Errno ℕ × Store (List UInt8) :=
  w.store.openFile env.fault (realpath w.metadir p) false false 0

/-- The state after `l_truncate(path, 0)`. -/
def truncated (w : World) (env : Env) (p : Path) : World := (lTruncate env p 0 w).2

/-- Opening with `O_TRUNC` answers and leaves all files as truncating first
and opening without it does. -/
def TruncatesAlike (w : World) (env first second : Env) (p : Path) (flags : UInt32)
    (fh : UInt64) : Prop :=
  let direct := lOpen env p ⟨flags ||| O_TRUNC, fh⟩ w
  let split := lOpen second p ⟨flags &&& ~~~O_TRUNC, fh⟩ (truncated w first p)
  direct.1 = split.1 ∧ SameFiles direct.2 split.2

/-- Creating an existing path answers and leaves all files as opening it
without `O_CREAT` does, and a meta file is open afterwards. -/
def CreatesAlike (w : World) (env : Env) (p : Path) (mode : ℕ) (fi : FuseFileInfo) : Prop :=
  let opened := lOpen env p ⟨fi.flags &&& ~~~O_CREAT, fi.fh⟩ w
  ∃ r w', lCreate env p mode fi w = .ok (r, w') ∧ r = opened.1 ∧ SameFiles w' opened.2 ∧
    (isMetaFile p = true → HoldsRealFile w' p)

section Flags

/-- A flag that is set is found. -/
theorem or_and_self (flags flag : UInt32) : (flags ||| flag) &&& flag = flag := by
  apply UInt32.toBitVec_inj.mp
  rw [UInt32.toBitVec_and, UInt32.toBitVec_or]
  apply BitVec.eq_of_getElem_eq
  intro i hi
  rw [BitVec.getElem_and, BitVec.getElem_or]
  cases flags.toBitVec[i] <;> cases flag.toBitVec[i] <;> rfl

/-- A flag that is added is set. -/
theorem has_added (flags : UInt32) (fh : UInt64) :
    (⟨flags ||| O_TRUNC, fh⟩ : FuseFileInfo).has O_TRUNC = true := by
  unfold FuseFileInfo.has
  rw [or_and_self]
  decide

/-- A flag that is removed is not set. -/
theorem has_removed (flags : UInt32) (fh : UInt64) :
    (⟨flags &&& ~~~O_TRUNC, fh⟩ : FuseFileInfo).has O_TRUNC = false := by
  have hzero : ~~~O_TRUNC &&& O_TRUNC = 0 := by decide
  unfold FuseFileInfo.has
  rw [UInt32.and_assoc, hzero, UInt32.and_zero]
  decide

/-- Removing `O_CREAT` keeps `O_TRUNC`. -/
theorem has_kept (fi : FuseFileInfo) :
    (⟨fi.flags &&& ~~~O_CREAT, fi.fh⟩ : FuseFileInfo).has O_TRUNC = fi.has O_TRUNC := by
  have hother : ~~~O_CREAT &&& O_TRUNC = O_TRUNC := by decide
  unfold FuseFileInfo.has
  rw [UInt32.and_assoc, hother]

end Flags

section Effects

variable {w : World} {env : Env} {p : Path} {c : Cell LFile}

/-- A world has its own files. -/
theorem SameFiles.refl (w : World) : SameFiles w w := ⟨fun _ => rfl, fun _ => rfl⟩

/-- Writing a real descriptor changes no size. -/
theorem entrySize_setRealfd (w : World) (block : ℕ) (fd : ℤ) (q : Path) :
    entrySize (w.modify block (LFile.setRealfd fd)) q = entrySize w q := by
  have hkey : ∀ f : LFile, (f.setRealfd fd).key = f.key := fun _ => rfl
  have hfind := find_modify hkey w.files block q
  unfold entrySize World.lookup lookup
  simp only [World.modify, hfind, Option.map_map]
  congr 1
  funext d
  simp only [Function.comp_apply]
  split_ifs <;> rfl

/-- Opening an existing real file changes no bytes. -/
theorem openFile_contentAt {s s' : Store (List UInt8)} {fault : Option Errno} {name : List UInt8}
    {n : ℕ} (h : s.openFile fault name false false 0 = (.ok n, s')) (m : List UInt8) :
    s'.contentAt m = s.contentAt m := by
  unfold Store.openFile at h
  cases fault with
  | some e => cases h
  | none =>
    dsimp only at h
    split at h
    · cases h
      rfl
    · cases h

/-- What `l_open` does to a content file. -/
theorem lOpen_content (hfind : w.find p = some c) (hmeta : isMetaFile p = false)
    (fi : FuseFileInfo) :
    lOpen env p fi w = (0, if fi.has O_TRUNC then w.modify c.block (LFile.setSize 0) else w) := by
  simp only [lOpen, hfind, hmeta, Bool.false_eq_true, if_false]
  split_ifs <;> rfl

/-- What `l_open` does to a meta file whose real file can be opened. -/
theorem lOpen_meta (hfind : w.find p = some c) (hmeta : isMetaFile p = true) {fd : ℕ}
    {store : Store (List UInt8)} (hcall : openCall w env p = (.ok fd, store))
    (fi : FuseFileInfo) :
    lOpen env p fi w =
      (0, World.modify { w with store := store } c.block (LFile.setRealfd fd)) := by
  have hcall' : w.store.openFile env.fault (realpath w.metadir p) false false 0 =
      (.ok fd, store) := hcall
  simp only [lOpen, hfind, hmeta, if_true, hcall']

/-- The delegated calls of both ways to open with truncation succeed. -/
structure CallsSucceed (w : World) (env first second : Env) (p : Path) : Prop where
  /-- The real `open` of the direct way. -/
  direct : (openCall w env p).1.isOk = true
  /-- The real `truncate` of the other way. -/
  truncate : (w.store.truncate first.fault (realpath w.metadir p) 0).1.isOk = true
  /-- The real `open` that follows it. -/
  after : (openCall (truncated w first p) second p).1.isOk = true

/-- A computation whose result is fine has a result. -/
theorem exists_of_isOk {α σ : Type} {call : Except Errno α × σ} (h : call.1.isOk = true) :
    ∃ a s, call = (.ok a, s) := by
  obtain ⟨result, s⟩ := call
  cases result with
  | error e => cases h
  | ok a => exact ⟨a, s, rfl⟩

/-- A real file that is truncated to nothing holds nothing. -/
theorem truncate_zero {s : Store (List UInt8)} {fault : Option Errno} {name : List UInt8}
    (h : (s.truncate fault name 0).1.isOk = true) :
    (s.truncate fault name 0).2.contentAt name = some [] := by
  cases fault with
  | some e => cases h
  | none =>
    cases hi : s.names name with
    | none => simp [Store.truncate, hi, Except.isOk, Except.toBool] at h
    | some i => simp [Store.truncate, hi, Store.contentAt, setInode, resize]

/-- A content file is truncated alike. -/
theorem truncatesAlike_content (hfind : w.find p = some c) (hmeta : isMetaFile p = false)
    (env first second : Env) (flags : UInt32) (fh : UInt64) :
    TruncatesAlike w env first second p flags fh := by
  have hkey : ∀ f : LFile, (f.setSize 0).key = f.key := fun _ => rfl
  have hcut : truncated w first p = w.modify c.block (LFile.setSize 0) := by
    simp only [truncated, lTruncate, hfind, hmeta, Bool.false_eq_true, if_false]
  have hfind' : (truncated w first p).find p = some ⟨c.block, c.value.setSize 0⟩ := by
    rw [hcut]
    exact find_modify_self hkey hfind
  unfold TruncatesAlike
  rw [lOpen_content hfind hmeta, lOpen_content hfind' hmeta, has_added, has_removed, hcut]
  exact ⟨rfl, SameFiles.refl _⟩

/-- A meta file is truncated alike exactly when there is nothing to truncate. -/
theorem truncatesAlike_meta (hfind : w.find p = some c) (hmeta : isMetaFile p = true)
    {env first second : Env} (hcalls : CallsSucceed w env first second p) (flags : UInt32)
    (fh : UInt64) :
    TruncatesAlike w env first second p flags fh ↔
      w.store.contentAt (realpath w.metadir p) = some [] := by
  obtain ⟨fd, store, hdirect⟩ := exists_of_isOk hcalls.direct
  obtain ⟨fd', store', hafter⟩ := exists_of_isOk hcalls.after
  have hcut : truncated w first p =
      { w with store := (w.store.truncate first.fault (realpath w.metadir p) 0).2 } := by
    simp only [truncated, lTruncate, hfind, hmeta, if_true]
    rfl
  have hfind' : (truncated w first p).find p = some c := by
    rw [hcut]
    exact hfind
  have hkept := openFile_contentAt hdirect
  have hkept' := openFile_contentAt hafter
  have hempty := truncate_zero hcalls.truncate
  have hstore : (truncated w first p).store =
      (w.store.truncate first.fault (realpath w.metadir p) 0).2 := by rw [hcut]
  unfold TruncatesAlike
  rw [lOpen_meta hfind hmeta hdirect, lOpen_meta hfind' hmeta hafter]
  constructor
  · rintro ⟨-, hsame⟩
    have hcontent : store.contentAt (realpath w.metadir p) =
        store'.contentAt (realpath w.metadir p) := hsame.contents _
    rw [hkept, hkept', hstore, hempty] at hcontent
    exact hcontent
  · intro hnothing
    refine ⟨rfl, ?_, ?_⟩
    · intro q
      rw [entrySize_setRealfd, entrySize_setRealfd, hcut]
      rfl
    · intro name
      have hgoal : store.contentAt name = store'.contentAt name := by
        rw [hkept, hkept', hstore]
        exact (Store.truncate_empty hnothing name).symm
      exact hgoal

end Effects

/-- `open` with `O_TRUNC` agrees with truncating and opening exactly on content
files and on meta files whose real file is empty already. -/
theorem open_trunc_iff {w : World} {p : Path} (hp : w.lookup p ≠ none) {env first second : Env}
    (hcalls : isMetaFile p = true → CallsSucceed w env first second p)
    (flags : UInt32) (fh : UInt64) :
    TruncatesAlike w env first second p flags fh ↔
      isMetaFile p = false ∨ w.store.contentAt (realpath w.metadir p) = some [] := by
  obtain ⟨f, hf⟩ := Option.ne_none_iff_exists'.mp hp
  obtain ⟨c, hfind, -⟩ := find_of_lookup hf
  have hfind' : w.find p = some c := hfind
  cases hmeta : isMetaFile p with
  | false =>
    have halike := truncatesAlike_content hfind' hmeta env first second flags fh
    exact iff_of_true halike (Or.inl rfl)
  | true =>
    rw [truncatesAlike_meta hfind' hmeta (hcalls hmeta)]
    simp

/-- A meta file with a byte in it keeps the byte when it is opened with `O_TRUNC`. -/
theorem open_trunc_keeps_bytes :
    let p : Path := ⟨ascii "a.mhash", by decide⟩
    ∃ w, Reachable w ∧ w.lookup p ≠ none ∧ CallsSucceed w Env.quiet Env.quiet Env.quiet p ∧
      ¬ TruncatesAlike w Env.quiet Env.quiet Env.quiet p 2 0 := by
  intro p
  let direct : World → World := fun w => (lOpen Env.quiet p ⟨2 ||| O_TRUNC, 0⟩ w).2
  let split : World → World := fun w =>
    (lOpen Env.quiet p ⟨2 &&& ~~~O_TRUNC, 0⟩ (truncated w Env.quiet p)).2
  let observe : World → (Bool × Bool × Bool × Bool) × Option (List UInt8) × Option (List UInt8) :=
    fun w => (((w.lookup p).isSome, (openCall w Env.quiet p).1.isOk,
        (w.store.truncate none (realpath w.metadir p) 0).1.isOk,
        (openCall (truncated w Env.quiet p) Env.quiet p).1.isOk),
      (direct w).store.contentAt (realpath w.metadir p),
      (split w).store.contentAt (realpath w.metadir p))
  have hobserved : (run step (boot (ascii "/meta") (Store.empty _))
      [⟨.create p 0o644 ⟨O_CREAT, 0⟩, Env.quiet⟩,
        ⟨.write p (ascii "x") 1 0, Env.quiet⟩]).map (fun out => observe out.2) =
      .ok ((true, true, true, true), some (ascii "x"), some []) := by decide +kernel
  obtain ⟨rs, w, hrun, hout⟩ := run_observe (f := observe) hobserved
  obtain ⟨hflags, hbytes⟩ := Prod.mk.inj hout
  obtain ⟨hsome, hopen, htruncate, hafter⟩ : _ ∧ _ ∧ _ ∧ _ := by
    simpa only [Prod.mk.injEq] using hflags
  obtain ⟨hdirect, hsplit⟩ := Prod.mk.inj hbytes
  refine ⟨w, ⟨_, _, _, _, hrun⟩, ?_, ⟨hopen, htruncate, hafter⟩, ?_⟩
  · exact Option.isSome_iff_ne_none.mp hsome
  · rintro ⟨-, hsame⟩
    have hcontent := hsame.contents (realpath w.metadir p)
    have hcontent' : (direct w).store.contentAt (realpath w.metadir p) =
        (split w).store.contentAt (realpath w.metadir p) := hcontent
    rw [hdirect, hsplit] at hcontent'
    revert hcontent'
    decide

/-- A content file that was grown is truncated alike. -/
theorem open_trunc_iff_content :
    let p : Path := ⟨ascii "deadbeef_8_1", by decide⟩
    ∃ w, Reachable w ∧ entrySize w p = some 8 ∧
      TruncatesAlike w Env.quiet Env.quiet Env.quiet p 2 0 := by
  intro p
  have hobserved : (run step (boot (ascii "/meta") (Store.empty _))
      [⟨.create p 0o644 ⟨O_CREAT, 0⟩, Env.quiet⟩,
        ⟨.truncate p 8 none, Env.quiet⟩]).map (fun out => entrySize out.2 p) =
      .ok (some 8) := by decide +kernel
  obtain ⟨rs, w, hrun, hsize⟩ := run_observe (f := fun w : World => entrySize w p) hobserved
  have hp : w.lookup p ≠ none := by
    intro hnone
    rw [entrySize, hnone] at hsize
    cases hsize
  have hmeta : isMetaFile p = false := by decide +kernel
  refine ⟨w, ⟨_, _, _, _, hrun⟩, hsize, ?_⟩
  exact (open_trunc_iff hp (fun h => by rw [hmeta] at h; cases h) 2 0).mpr (Or.inl hmeta)

/-- The entries of meta files have no size of their own. -/
def MetaSizes (v : View) : Prop :=
  ∀ p f, v.lookup p = some f → isMetaFile p = true → f.size = 0

/-- A table of empty meta files stays one when such an entry, or none, is bound. -/
theorem metaSizes_bind {v : View} (hv : MetaSizes v) {p : Path} {o : Option LFile}
    (h : ∀ f, o = some f → isMetaFile p = true → f.size = 0) : MetaSizes (v.bind p o) := by
  intro q f hf hmeta
  rcases bind_lookup_cases hf with ⟨rfl, hsome⟩ | ⟨-, hold⟩
  · exact h f hsome hmeta
  · exact hv q f hold hmeta

/-- A path of another kind gets any size. -/
theorem metaSizes_content {v : View} (hv : MetaSizes v) {p : Path} {o : Option LFile}
    (hp : isMetaFile p = false) : MetaSizes (v.bind p o) :=
  metaSizes_bind hv fun _ _ hmeta => absurd hmeta (by rw [hp]; exact Bool.false_ne_true)

/-- Every way a request can end keeps the sizes of meta entries at zero. -/
theorem served_metaSizes {metadir : List UInt8} {env : Env} {v v' : View} {op : Op} {r : Reply}
    (hv : MetaSizes v) (h : Served metadir env v op r v') : MetaSizes v' := by
  cases h with
  | absent | queried | openFailed | released | exclusive | createFailed | renameRefused => exact hv
  | realTruncated | realWritten | realReleased => exact hv
  | unlinked hp => exact metaSizes_bind hv nofun
  | resized hp hmeta => exact metaSizes_content hv hmeta
  | opened hp hmeta => exact metaSizes_content hv hmeta
  | written hp hmeta => exact metaSizes_content hv hmeta
  | @realOpened p fi f fd store hp hmeta hopen =>
    refine metaSizes_bind hv fun g hg _ => ?_
    cases hg
    exact hv p f hp hmeta
  | @recreated p mode fi f hp hfi =>
    refine metaSizes_bind hv fun g hg _ => ?_
    cases hg
    rfl
  | created hp hmeta hf => exact metaSizes_content hv hmeta
  | @realCreated p mode fi f fd store hp hmeta hopen hf =>
    refine metaSizes_bind hv fun g hg _ => ?_
    cases hg
    exact hf.size
  | renamed hnew hold hmold hmnew hf =>
    exact metaSizes_content (metaSizes_content hv hmnew) hmold
  | @realRenamed old new f f' n store hnew hold hmold hmnew hcall hf =>
    refine metaSizes_bind (metaSizes_bind hv fun g hg _ => ?_) nofun
    cases hg
    exact hf.size.trans (hv old f hold hmold)

/-- In every reachable state the entries of meta files are empty. -/
theorem reachable_metaSizes {w : World} (hw : Reachable w) : MetaSizes (view w) := by
  obtain ⟨metadir, store, es, rs, hrun⟩ := hw
  have hboth : OwnedTable w ∧ MetaSizes (view w) := by
    refine run_invariant (I := fun u => OwnedTable u ∧ MetaSizes (view u)) ?_ ?_ hrun
    · intro u e r t hI hs
      have href := step_refines hI.1 hs
      exact ⟨href.owned, served_metaSizes hI.2 href.served⟩
    · exact ⟨boot_owned metadir store, fun p f hf _ => absurd hf (boot_lookup_ne p f)⟩
  exact hboth.2

section Creation

variable {w : World} {p : Path} {c : Cell LFile}

/-- A creation that finds its path resets the size. -/
theorem lCreate_existing (hfind : w.find p = some c) (env : Env) (mode : ℕ) {fi : FuseFileInfo}
    (hexcl : fi.has O_EXCL = false) :
    lCreate env p mode fi w = .ok (cInt fi.fh, w.modify c.block (LFile.setSize 0)) := by
  simp only [lCreate, hfind, hexcl, Bool.and_false, Bool.false_eq_true, if_false]

/-- What is compared of it with an `open`. -/
theorem createsAlike_iff (hfind : w.find p = some c) (env : Env) (mode : ℕ) {fi : FuseFileInfo}
    (hexcl : fi.has O_EXCL = false) :
    CreatesAlike w env p mode fi ↔
      cInt fi.fh = (lOpen env p ⟨fi.flags &&& ~~~O_CREAT, fi.fh⟩ w).1 ∧
        SameFiles (w.modify c.block (LFile.setSize 0))
          (lOpen env p ⟨fi.flags &&& ~~~O_CREAT, fi.fh⟩ w).2 ∧
        (isMetaFile p = true → HoldsRealFile (w.modify c.block (LFile.setSize 0)) p) := by
  unfold CreatesAlike
  rw [lCreate_existing hfind env mode hexcl]
  constructor
  · intro h
    obtain ⟨r, w', hret, hr⟩ := h
    cases hret
    exact hr
  · intro hr
    exact ⟨_, _, rfl, hr⟩

/-- The table after the reset. -/
theorem lookup_reset (hown : OwnedTable w) (hfind : w.find p = some c) :
    (w.modify c.block (LFile.setSize 0)).lookup =
      Function.update w.lookup p (some (c.value.setSize 0)) := by
  obtain ⟨hview, -⟩ := modify_view hown hfind (f := LFile.setSize 0) (fun _ => rfl)
  exact congrArg View.lookup hview

/-- The reset is seen in the sizes unless the size was zero. -/
theorem sameFiles_reset_iff (hown : OwnedTable w) (hfind : w.find p = some c) {u : World}
    (hsizes : ∀ q, entrySize u q = entrySize w q)
    (hcontents : ∀ name, u.store.contentAt name = w.store.contentAt name) :
    SameFiles (w.modify c.block (LFile.setSize 0)) u ↔ c.value.size = 0 := by
  have hreset : ∀ q, entrySize (w.modify c.block (LFile.setSize 0)) q =
      if q = p then some 0 else entrySize w q := by
    intro q
    unfold entrySize
    rw [lookup_reset hown hfind]
    split_ifs with hq
    · rw [hq, Function.update_self]
      rfl
    · rw [Function.update_of_ne hq]
  have hp : entrySize w p = some c.value.size := by
    rw [entrySize, lookup_eq_of_find hfind]
    rfl
  constructor
  · intro hsame
    have hsize := hsame.sizes p
    rw [hreset, if_pos rfl, hsizes, hp, Option.some.injEq] at hsize
    exact hsize.symm
  · intro hzero
    refine ⟨fun q => ?_, fun name => (hcontents name).symm⟩
    rw [hreset, hsizes]
    split_ifs with hq
    · rw [hq, hp, hzero]
    · rfl

/-- The reset leaves the descriptors of entries alone. -/
theorem holdsRealFile_reset (hown : OwnedTable w) (hfind : w.find p = some c) :
    HoldsRealFile (w.modify c.block (LFile.setSize 0)) p ↔ HoldsRealFile w p := by
  have hp : w.lookup p = some c.value := lookup_eq_of_find hfind
  have hreset : (w.modify c.block (LFile.setSize 0)).lookup p = some (c.value.setSize 0) := by
    rw [lookup_reset hown hfind, Function.update_self]
  unfold HoldsRealFile
  rw [hp, hreset]
  simp only [Option.some.injEq, exists_and_left, exists_eq_left']
  rfl

end Creation

/-- A creation of an existing path is what opening it is exactly when the file
handle is zero, a content file is empty or to be truncated, and a meta file is
open already. -/
theorem create_existing_iff {w : World} {p : Path} {f : LFile} (hw : Reachable w)
    (hp : w.lookup p = some f) {env : Env}
    (hopen : isMetaFile p = true → (openCall w env p).1.isOk = true) (mode : ℕ)
    {fi : FuseFileInfo} (hexcl : fi.has O_EXCL = false) :
    CreatesAlike w env p mode fi ↔
      fi.fh.toNat % 2 ^ 32 = 0 ∧
        (isMetaFile p = false → fi.has O_TRUNC = true ∨ f.size = 0) ∧
        (isMetaFile p = true → HoldsRealFile w p) := by
  have hown := reachable_owned hw
  obtain ⟨c, hfind, rfl⟩ := find_of_lookup hp
  have hfind' : w.find p = some c := hfind
  rw [createsAlike_iff hfind' env mode hexcl, holdsRealFile_reset hown hfind']
  cases hmeta : isMetaFile p with
  | false =>
    rw [lOpen_content hfind' hmeta, has_kept, cInt_eq_zero_iff]
    have hfiles : SameFiles (w.modify c.block (LFile.setSize 0))
        (if fi.has O_TRUNC then w.modify c.block (LFile.setSize 0) else w) ↔
          fi.has O_TRUNC = true ∨ c.value.size = 0 := by
      cases htrunc : fi.has O_TRUNC with
      | true => exact iff_of_true (SameFiles.refl _) (Or.inl rfl)
      | false =>
        have hreset := sameFiles_reset_iff hown hfind' (fun _ => rfl) (fun _ => rfl)
        simpa using hreset
    simp only [hfiles, true_implies, Bool.false_eq_true, false_implies, and_true]
  | true =>
    obtain ⟨fd, store, hcall⟩ := exists_of_isOk (hopen hmeta)
    rw [lOpen_meta hfind' hmeta hcall, cInt_eq_zero_iff]
    have hzero : c.value.size = 0 := reachable_metaSizes hw p c.value hp hmeta
    have hfiles := (sameFiles_reset_iff hown hfind'
      (u := World.modify { w with store := store } c.block (LFile.setRealfd fd))
      (fun q => entrySize_setRealfd { w with store := store } c.block fd q)
      (openFile_contentAt hcall)).mpr hzero
    simp only [hfiles, true_implies, true_and, Bool.true_eq_false, false_implies]

/-- A creation of a file that exists loses its size. -/
theorem create_existing_loses_size :
    let p : Path := ⟨ascii "deadbeef_8_1", by decide⟩
    ∃ w, Reachable w ∧ w.lookup p ≠ none ∧
      ¬ CreatesAlike w Env.quiet p 0o644 ⟨O_CREAT, 0⟩ := by
  intro p
  let observe : World → Option (Option Int64) × Option Int64 := fun w =>
    ((lCreate Env.quiet p 0o644 ⟨O_CREAT, 0⟩ w).toOption.map (fun out => entrySize out.2 p),
      entrySize (lOpen Env.quiet p ⟨O_CREAT &&& ~~~O_CREAT, 0⟩ w).2 p)
  have hobserved : (run step (boot (ascii "/meta") (Store.empty _))
      [⟨.create p 0o644 ⟨O_CREAT, 0⟩, Env.quiet⟩,
        ⟨.truncate p 8 none, Env.quiet⟩]).map
      (fun out => ((out.2.lookup p).isSome, observe out.2)) =
      .ok (true, some (some 0), some 8) := by decide +kernel
  obtain ⟨rs, w, hrun, hout⟩ :=
    run_observe (f := fun w : World => ((w.lookup p).isSome, observe w)) hobserved
  obtain ⟨hsome, hsizes⟩ := Prod.mk.inj hout
  obtain ⟨hcreated, hopened⟩ := Prod.mk.inj hsizes
  refine ⟨w, ⟨_, _, _, _, hrun⟩, Option.isSome_iff_ne_none.mp hsome, ?_⟩
  rintro ⟨r, w', hcreate, -, hsame, -⟩
  have hsize := hsame.sizes p
  rw [hcreate] at hcreated
  have hzero : entrySize w' p = some 0 := Option.some.inj hcreated
  rw [hzero, hopened] at hsize
  revert hsize
  decide

/-- A creation of a meta file that exists and is open is what opening it is. -/
theorem create_existing_iff_open :
    let p : Path := ⟨ascii "a.mhash", by decide⟩
    ∃ w, Reachable w ∧ w.lookup p ≠ none ∧
      CreatesAlike w Env.quiet p 0o644 ⟨O_CREAT, 0⟩ := by
  intro p
  let observe : World → Bool × Option (Option ℕ) × Option ℕ := fun w =>
    ((openCall w Env.quiet p).1.isOk,
      (w.lookup p).map (fun f => (w.store.descriptor f.realfd).map Descriptor.ino),
      w.store.names (realpath w.metadir p))
  have hobserved : (run step (boot (ascii "/meta") (Store.empty _))
      [⟨.create p 0o644 ⟨O_CREAT, 0⟩, Env.quiet⟩]).map (fun out => observe out.2) =
      .ok (true, some (some 0), some 0) := by decide +kernel
  obtain ⟨rs, w, hrun, hout⟩ := run_observe (f := observe) hobserved
  obtain ⟨hcall, hrest⟩ := Prod.mk.inj hout
  obtain ⟨hdescriptor, hname⟩ := Prod.mk.inj hrest
  have hw : Reachable w := ⟨_, _, _, _, hrun⟩
  obtain ⟨f, hf, hino⟩ := Option.map_eq_some_iff.mp hdescriptor
  obtain ⟨d, hd, hdino⟩ := Option.map_eq_some_iff.mp hino
  have hholds : HoldsRealFile w p := ⟨f, d, hf, hd, by rw [hname, hdino]⟩
  have hmeta : isMetaFile p = true := by decide +kernel
  refine ⟨w, hw, by rw [hf]; exact Option.some_ne_none f, ?_⟩
  refine (create_existing_iff hw hf (fun _ => hcall) 0o644 (by decide)).mpr ⟨rfl, ?_, ?_⟩
  · intro hcontent
    rw [hmeta] at hcontent
    cases hcontent
  · intro _
    exact hholds

end LazyFS.OpenFlags
