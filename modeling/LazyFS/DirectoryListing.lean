import LazyFS.SafeRuns

/-!
# The directory the table stands for

To its users the table is a set of paths: a creation adds one, a removal takes
one away, a rename replaces one, and nothing else changes the set. The abstract
directory is updated from the replies alone. The hash table never rejects a
duplicate key, so that it lists each path once rests on every operation having
looked before it adds.
-/

namespace LazyFS.DirectoryListing

open MachineWords LinkedCells PathNames PosixStore FileOperations GuardedRun ServedRequests
  SafeRuns

/-- The paths of an abstract directory. -/
abbrev Directory := Finset Path

/-- What an answered request does to the directory: nothing when it failed. -/
def directoryStep (d : Directory) (op : Op) (r : Reply) : Directory :=
  if r.ret < 0 then d
  else
    match op with
    | .create p _ _ => insert p d
    | .unlink p => d.erase p
    | .rename old new => insert new (d.erase old)
    | _ => d

/-- The directory after a list of requests and their replies. -/
def directoryOf (es : List Event) (rs : List Reply) : Directory :=
  follow (fun d (e : Event) r => directoryStep d e.op r) ∅ es rs

/-- A request on which success and failure can be told apart by the sign of
the reply: the handle that a creation passes back is not negative, and the real
file of a meta entry that is removed can be removed. -/
structure Admitted (w : World) (e : Event) : Prop where
  /-- The file handle, which is zero when the request comes in. -/
  handle : ∀ p mode fi, e.op = .create p mode fi → 0 ≤ cInt fi.fh
  /-- The real `unlink` succeeds. -/
  unlinks : ∀ p, e.op = .unlink p → isMetaFile p = true → w.lookup p ≠ none →
    ∃ n, (w.store.unlink e.env.fault (realpath w.metadir p)).1 = .ok n

/-- The table binds exactly the paths of a directory. -/
def Lists (v : View) (d : Directory) : Prop := ∀ p, p ∈ d ↔ v.lookup p ≠ none

/-- Binding a path to an entry adds it. -/
theorem lists_insert {v : View} {d : Directory} (h : Lists v d) (p : Path) (f : LFile) :
    Lists (v.bind p (some f)) (insert p d) := by
  intro q
  by_cases hq : q = p
  · simp [hq, View.bind]
  · simpa [hq, View.bind] using h q

/-- Rebinding a path that is bound changes nothing. -/
theorem lists_rebind {v : View} {d : Directory} (h : Lists v d) {p : Path} {f : LFile}
    (hp : v.lookup p = some f) (f' : LFile) : Lists (v.bind p (some f')) d := by
  have hmem : p ∈ d := (h p).mpr (by simp [hp])
  have hinsert := lists_insert h p f'
  rwa [Finset.insert_eq_of_mem hmem] at hinsert

/-- Unbinding a path removes it. -/
theorem lists_erase {v : View} {d : Directory} (h : Lists v d) (p : Path) :
    Lists (v.bind p none) (d.erase p) := by
  intro q
  by_cases hq : q = p
  · simp [hq, View.bind]
  · simpa [hq, View.bind] using h q

/-- A failed request leaves the directory alone. -/
theorem directoryStep_failed {d : Directory} {op : Op} {r : Reply} (h : r.ret < 0) :
    directoryStep d op r = d := if_pos h

/-- The requests that can change the directory. -/
def changesNames : Op → Bool
  | .create _ _ _ | .unlink _ | .rename _ _ => true
  | _ => false

/-- All other requests leave the directory alone. -/
theorem directoryStep_kept {d : Directory} {op : Op} {r : Reply} (h : changesNames op = false) :
    directoryStep d op r = d := by
  cases op <;> first | exact ite_self d | cases h

/-- Every way an admitted request can end keeps the directory exact. -/
theorem served_lists {w : World} {v' : View} {e : Event} {r : Reply} {d : Directory}
    (hv : Lists (view w) d) (hadm : Admitted w e)
    (h : Served w.metadir e.env (view w) e.op r v') : Lists v' (directoryStep d e.op r) := by
  obtain ⟨op, env⟩ := e
  change Served w.metadir env (view w) op r v' at h
  cases h with
  | absent =>
    rw [directoryStep_failed (Errno.neg_neg _)]
    exact hv
  | @queried op r hop =>
    have hkept : changesNames op = false := by
      cases op <;> first | rfl | cases hop
    rw [directoryStep_kept hkept]
    exact hv
  | @unlinked p f hp =>
    have hp' : w.lookup p = some f := hp
    have hret : ¬ (if isMetaFile p then
        rawResult ((view w).store.unlink env.fault (realpath w.metadir p)).1 else 0) < 0 := by
      split_ifs with hmeta
      · obtain ⟨n, hn⟩ := hadm.unlinks p rfl hmeta (by simp [hp'])
        have hcall : ((view w).store.unlink env.fault (realpath w.metadir p)).1 = .ok n := hn
        rw [hcall, rawResult]
        omega
      · omega
    rw [directoryStep, if_neg hret]
    exact lists_erase hv p
  | @resized p length fi f hp hmeta =>
    rw [directoryStep_kept rfl]
    exact lists_rebind hv hp _
  | @opened p fi f hp hmeta =>
    rw [directoryStep_kept rfl]
    exact lists_rebind hv hp _
  | @realOpened p fi f fd store hp hmeta hopen =>
    rw [directoryStep_kept rfl]
    exact lists_rebind hv hp _
  | @written p buf size offset f hp hmeta =>
    rw [directoryStep_kept rfl]
    exact lists_rebind hv hp _
  | realTruncated | openFailed | realWritten | released | realReleased =>
    rw [directoryStep_kept rfl]
    exact hv
  | exclusive =>
    rw [directoryStep_failed (Errno.neg_neg _)]
    exact hv
  | @recreated p mode fi f hp hfi =>
    have hret := hadm.handle p mode fi rfl
    rw [directoryStep, if_neg (by simpa using hret)]
    exact lists_insert hv p _
  | @created p mode fi f hp hmeta hf =>
    have hret := hadm.handle p mode fi rfl
    rw [directoryStep, if_neg (by simpa using hret)]
    exact lists_insert hv p f
  | @realCreated p mode fi f fd store hp hmeta hopen hf =>
    have hret := hadm.handle p mode fi rfl
    rw [directoryStep, if_neg (by simpa using hret)]
    exact lists_insert hv p f
  | createFailed =>
    rw [directoryStep_failed (Errno.neg_neg _)]
    exact hv
  | renameRefused hwhy hr =>
    rw [directoryStep_failed hr]
    exact hv
  | @renamed old new f f' hnew hold hmold hmnew hf =>
    have hne : new ≠ old := by
      rintro rfl
      rw [hnew] at hold
      cases hold
    have hmoved := lists_erase (lists_insert hv new f') old
    rwa [Finset.erase_insert_of_ne hne] at hmoved
  | @realRenamed old new f f' n store hnew hold hmold hmnew hcall hf =>
    have hne : new ≠ old := by
      rintro rfl
      rw [hnew] at hold
      cases hold
    have hmoved := lists_erase (lists_insert hv new f') old
    rwa [Finset.erase_insert_of_ne hne] at hmoved

/-- A reply of `-ENOENT` that is not the lookup's: the real `open` of a meta file says so,
or more than `INT_MAX` bytes were asked for, and their number has that value as an `int`. -/
def OtherEnoent (w : World) (env : Env) : Op → Prop
  | .open p _ => isMetaFile p = true ∧
    (w.store.openFile env.fault (realpath w.metadir p) false false 0).1 = .error ENOENT
  | .read _ size _ | .write _ _ size _ => intMax < size.toNat
  | _ => False

/-- What the users of a state see of the directory it stands for. -/
structure Listing (w : World) (d : Directory) : Prop where
  /-- The table holds each path at most once. -/
  nodup : (w.files.map (fun c => c.value.key)).Nodup
  /-- Its paths are those of the directory. -/
  paths : ∀ p, p ∈ d ↔ ∃ c ∈ w.files, c.value.key = p
  /-- Listing the root emits the two dots and each name once. -/
  readdir : ∀ p, p.chars = [slash] →
    ∃ names, lReaddir p w = (0, ascii "." :: ascii ".." :: names) ∧ names.Nodup ∧
      ∀ n, n ∈ names ↔ ∃ q ∈ d, q.name = n
  /-- A lookup fails exactly on the other paths. -/
  absent : ∀ p, w.find p = none ↔ p ∉ d
  /-- A request whose lookup fails says so and changes nothing. -/
  refused : ∀ op p env, target op = some p → p.chars ≠ [slash] → p ∉ d →
    step w ⟨op, env⟩ = .ok (⟨Errno.neg ENOENT, []⟩, w)
  /-- No other request says so, unless for another reason. -/
  accepted : ∀ op p env r w', target op = some p → p.chars ≠ [slash] → p ∈ d →
    step w ⟨op, env⟩ = .ok (r, w') → ¬ OtherEnoent w env op → r.ret ≠ Errno.neg ENOENT

/-- A request on a path the lookup does not find. -/
theorem step_absent {w : World} {op : Op} {p : Path} {env : Env} (hop : target op = some p)
    (hroot : p.chars ≠ [slash]) (hp : w.find p = none) :
    step w ⟨op, env⟩ = .ok (⟨Errno.neg ENOENT, []⟩, w) := by
  cases op <;> cases hop
  case getattr => simp only [step, lGetattr, if_neg hroot, hp]
  case unlink => simp only [step, lUnlink, hp, Except.map]
  case truncate length fi => cases fi <;> simp only [step, lFtruncate, lTruncate, hp]
  case «open» => simp only [step, lOpen, hp]
  case read => simp only [step, lRead, hp, Except.map]
  case write => simp only [step, lWrite, hp]
  case release => simp only [step, lRelease, hp]

/-- The read loop counts no more bytes than it was asked for. -/
theorem readLoop_count_le {f : LFile} {offset : Int64} {rem i count : ℕ} {buf : List UInt8}
    (h : readLoop f offset rem i = .ok (count, buf)) : count ≤ i + rem := by
  induction rem generalizing i count buf with
  | zero =>
    cases h
    exact Nat.le_refl i
  | succ rem ih =>
    rw [readLoop] at h
    obtain ⟨position, -, h⟩ := bind_eq_ok.mp h
    dsimp only at h
    split_ifs at h with hend hindex
    · obtain ⟨rest, -, h⟩ := bind_eq_ok.mp h
      cases h
      exact Nat.le_add_right i (rem + 1)
    · obtain ⟨next, hnext, h⟩ := bind_eq_ok.mp h
      obtain ⟨⟨count', rest⟩, hrest, h⟩ := bind_eq_ok.mp h
      cases h
      have hlt : next = i + 1 := by
        unfold incInt at hnext
        split_ifs at hnext
        cases hnext
        rfl
      have hle := ih hrest
      omega

/-- What is -1 at least is no such reply. -/
theorem ne_enoent_of_ge {r : ℤ} (h : -1 ≤ r) : r ≠ Errno.neg ENOENT := by
  have hcode : Errno.neg ENOENT = -2 := rfl
  omega

/-- A raw result is -1 at least. -/
theorem rawResult_ne_enoent (call : Except Errno ℕ) : rawResult call ≠ Errno.neg ENOENT := by
  apply ne_enoent_of_ge
  cases call with
  | error e => exact le_refl _
  | ok n =>
    rw [rawResult]
    omega

/-- The number of bytes of a transfer is no error when it fits an `int`. -/
theorem cInt_ne_enoent {n : UInt64} (h : n.toNat ≤ intMax) : cInt n ≠ Errno.neg ENOENT := by
  apply ne_enoent_of_ge
  rw [cInt_of_le h]
  omega

/-- So is the number of bytes in a list of at most so many. -/
theorem cInt_length_ne_enoent {n k : ℕ} (hk : k ≤ n) (hn : n ≤ intMax) :
    cInt (UInt64.ofNat k) ≠ Errno.neg ENOENT := by
  have hmax : intMax = 2 ^ 31 - 1 := rfl
  have hlt : k < 2 ^ 64 := by omega
  have hcount : (UInt64.ofNat k).toNat = k := UInt64.toNat_ofNat_of_lt' hlt
  exact cInt_ne_enoent (by omega)

/-- A read of a real file moves no more bytes than it was asked for. -/
theorem pread_length_le {s : Store (List UInt8)} {fault : Option Errno} {limit size : ℕ}
    {fd offset : ℤ} {data : List UInt8} (h : s.pread fault limit fd size offset = .ok data) :
    data.length ≤ size := by
  unfold Store.pread at h
  split at h
  · cases h
  · cases h
  · split_ifs at h
    cases h
    rw [List.length_take]
    omega

/-- Nor does a write. -/
theorem pwrite_le {s : Store (List UInt8)} {fault : Option Errno} {limit n : ℕ}
    {fd offset : ℤ} {data : List UInt8}
    (h : (s.pwrite fault limit fd data offset).1 = .ok n) : n ≤ data.length := by
  unfold Store.pwrite at h
  split at h
  · cases h
  · cases h
  · split_ifs at h
    cases h
    exact Nat.min_le_left _ _

/-- A read of a path that the lookup finds. -/
theorem lRead_found {w : World} {p : Path} {c : Cell LFile} {env : Env} {size : UInt64}
    {offset : Int64} {ret : ℤ} {buf : List UInt8} (hp : w.find p = some c)
    (hsize : size.toNat ≤ intMax) (h : lRead env p size offset w = .ok (ret, buf)) :
    ret ≠ Errno.neg ENOENT := by
  simp only [lRead, hp] at h
  split_ifs at h
  · cases hcall : w.store.pread env.fault env.limit c.value.realfd size.toNat offset.toInt with
    | error e =>
      rw [hcall] at h
      cases h
      exact ne_enoent_of_ge (le_refl _)
    | ok data =>
      rw [hcall] at h
      cases h
      exact cInt_length_ne_enoent (pread_length_le hcall) hsize
  · obtain ⟨⟨count, rest⟩, hloop, h⟩ := bind_eq_ok.mp h
    cases h
    have hcount := readLoop_count_le hloop
    exact cInt_length_ne_enoent hcount (by omega)

/-- A write to a path that the lookup finds. -/
theorem lWrite_found {w : World} {p : Path} {c : Cell LFile} {env : Env} {buf : List UInt8}
    {size : UInt64} {offset : Int64} (hp : w.find p = some c) (hsize : size.toNat ≤ intMax) :
    (lWrite env p buf size offset w).1 ≠ Errno.neg ENOENT := by
  simp only [lWrite, hp]
  split_ifs
  · cases hcall : (w.store.pwrite env.fault env.limit c.value.realfd (buf.take size.toNat)
        offset.toInt).1 with
    | error e => exact ne_enoent_of_ge (le_refl _)
    | ok n =>
      have hlen := pwrite_le hcall
      rw [List.length_take] at hlen
      exact cInt_length_ne_enoent (by omega : n ≤ size.toNat) hsize
  · exact cInt_ne_enoent hsize
  · exact cInt_ne_enoent hsize

/-- An open of a path that the lookup finds says so when the real call does. -/
theorem lOpen_found {w : World} {p : Path} {c : Cell LFile} {env : Env} {fi : FuseFileInfo}
    (hp : w.find p = some c) (h : (lOpen env p fi w).1 = Errno.neg ENOENT) :
    OtherEnoent w env (.open p fi) := by
  simp only [lOpen, hp] at h
  split_ifs at h with hmeta htrunc
  · cases hcall : w.store.openFile env.fault (realpath w.metadir p) false false 0 with
    | mk result store =>
      rw [hcall] at h
      cases result with
      | ok fd => cases h
      | error e =>
        obtain ⟨code, pos⟩ := e
        have hneg : -(code : ℤ) = -2 := h
        obtain rfl : code = 2 := by omega
        exact ⟨hmeta, by rw [hcall]; rfl⟩
  · cases h
  · cases h

/-- A request on a path the lookup finds says that there is no such file for another
reason only. -/
theorem step_found {w w' : World} {op : Op} {p : Path} {c : Cell LFile} {env : Env} {r : Reply}
    (hop : target op = some p) (hroot : p.chars ≠ [slash]) (hp : w.find p = some c)
    (hstep : step w ⟨op, env⟩ = .ok (r, w')) (hother : ¬ OtherEnoent w env op) :
    r.ret ≠ Errno.neg ENOENT := by
  cases op <;> cases hop
  case getattr stbuf fi =>
    cases hstep
    simp only [lGetattr, if_neg hroot, hp]
    split_ifs
    · split
      · exact ne_enoent_of_ge (le_refl _)
      · exact ne_enoent_of_ge (by omega)
    · exact ne_enoent_of_ge (by omega)
  case unlink =>
    obtain ⟨⟨ret, u⟩, hunlink, hreply⟩ := Except.map_eq_ok hstep
    cases hreply
    simp only [lUnlink, hp] at hunlink
    split at hunlink
    · cases hunlink
    · cases hunlink
      exact rawResult_ne_enoent _
  case truncate length fi =>
    have hret : (lTruncate env p length w).1 ≠ Errno.neg ENOENT := by
      simp only [lTruncate, hp]
      split_ifs
      · exact rawResult_ne_enoent _
      · exact ne_enoent_of_ge (by omega)
    cases fi <;> (cases hstep; exact hret)
  case «open» fi =>
    cases hstep
    exact fun henoent => hother (lOpen_found hp henoent)
  case read size offset =>
    obtain ⟨⟨ret, buf⟩, hread, hreply⟩ := Except.map_eq_ok hstep
    cases hreply
    exact lRead_found hp (Nat.not_lt.mp hother) hread
  case write buf size offset =>
    cases hstep
    exact lWrite_found hp (Nat.not_lt.mp hother)
  case release =>
    cases hstep
    simp only [lRelease, hp]
    split_ifs
    · exact rawResult_ne_enoent _
    · exact ne_enoent_of_ge (by omega)

/-- A table that is owned and binds exactly the paths of a directory lists it. -/
theorem listing_of_lists {w : World} {d : Directory} (hown : OwnedTable w)
    (h : Lists (view w) d) : Listing w d := by
  have hpaths : ∀ p, p ∈ d ↔ ∃ c ∈ w.files, c.value.key = p := by
    intro p
    rw [h p, ← Option.isSome_iff_ne_none]
    change (lookup LFile.key w.files p).isSome = true ↔ _
    rw [lookup_isSome_iff, List.mem_map]
  have habsent : ∀ p, w.find p = none ↔ p ∉ d := by
    intro p
    rw [h p, not_not]
    change find LFile.key w.files p = none ↔ lookup LFile.key w.files p = none
    rw [lookup_none_iff]
  refine ⟨hown.keys, hpaths, ?_, habsent, ?_, ?_⟩
  · intro p hroot
    refine ⟨w.files.map (fun c => c.value.key.name), ?_, ?_, ?_⟩
    · simp only [lReaddir, hroot, ne_eq, not_true_eq_false, if_false]
    · have hinj : Function.Injective Path.name := by
        rintro ⟨a, _⟩ ⟨b, _⟩ hab
        cases hab
        rfl
      have hnames := hown.keys.map hinj
      rwa [List.map_map] at hnames
    · intro n
      simp only [List.mem_map, hpaths]
      constructor
      · rintro ⟨c, hc, hn⟩
        exact ⟨c.value.key, ⟨c, hc, rfl⟩, hn⟩
      · rintro ⟨q, ⟨c, hc, rfl⟩, hn⟩
        exact ⟨c, hc, hn⟩
  · intro op p env hop hroot hp
    exact step_absent hop hroot ((habsent p).mpr hp)
  · intro op p env r w' hop hroot hp hstep hother
    obtain ⟨c, hfind⟩ := Option.ne_none_iff_exists'.mp (fun hnone => (habsent p).mp hnone hp)
    exact step_found hop hroot hfind hstep hother

/-- After every run of admitted requests the table lists the directory that
the replies define, and such a run returns if its requests are safe. -/
theorem table_refines_directory (metadir : List UInt8) (store : Store (List UInt8))
    (es : List Event) (hes : Always step Admitted (boot metadir store) es) :
    (∀ rs w, run step (boot metadir store) es = .ok (rs, w) → Listing w (directoryOf es rs)) ∧
      (Always step Safe (boot metadir store) es →
        ∃ rs w, run step (boot metadir store) es = .ok (rs, w)) := by
  have hown := boot_owned metadir store
  have hinit : Lists (view (boot metadir store)) ∅ := by
    intro p
    simp [view, boot, World.lookup, lookup, find]
  constructor
  · intro rs w hrun
    have hserved : ∀ (u : World) d (e : Event) r v, OwnedTable u → Lists (view u) d →
        Admitted u e → Served u.metadir e.env (view u) e.op r v →
        Lists v (directoryStep d e.op r) :=
      fun _ _ _ _ _ _ hv hadm hs => served_lists hv hadm hs
    have hstep := served_step (R := fun _ v d => Lists v d) hserved
    obtain ⟨hown', hlists⟩ := run_rule hstep ⟨hown, hinit⟩ (guarded_of_always hes) hrun
    exact listing_of_lists hown' hlists
  · intro hsafe
    obtain ⟨rs, w, hrun, -⟩ := safe_run_rule (R := fun _ _ _ => True) (fun _ _ _ hg => hg)
      (fun _ _ _ _ _ _ _ _ _ => trivial) hown trivial hsafe
    exact ⟨rs, w, hrun⟩

/-- The directory of a run that creates, renames and removes. -/
theorem table_refines_directory_small :
    let name : Path := ⟨ascii "deadbeef_8_1", by decide⟩
    let moved : Path := ⟨ascii "moved", by decide⟩
    let real : Path := ⟨ascii "x.mhash", by decide⟩
    let es : List Event := [⟨.create name 0o644 ⟨O_CREAT, 0⟩, Env.quiet⟩,
      ⟨.create real 0o644 ⟨O_CREAT, 0⟩, Env.quiet⟩, ⟨.rename name moved, Env.quiet⟩,
      ⟨.unlink moved, Env.quiet⟩]
    ∃ rs w, run step (boot (ascii "/meta") (Store.empty _)) es = .ok (rs, w) ∧
      Listing w (directoryOf es rs) := by
  intro name moved real es
  have hadm : Always step Admitted (boot (ascii "/meta") (Store.empty _)) es := by
    refine ⟨?_, fun _ _ _ => ⟨?_, fun _ _ _ => ⟨?_, fun _ _ _ => ⟨?_, fun _ _ _ => trivial⟩⟩⟩⟩
    · exact ⟨by rintro _ _ _ ⟨⟩; decide, by rintro _ ⟨⟩⟩
    · exact ⟨by rintro _ _ _ ⟨⟩; decide, by rintro _ ⟨⟩⟩
    · exact ⟨by rintro _ _ _ ⟨⟩, by rintro _ ⟨⟩⟩
    · refine ⟨by rintro _ _ _ ⟨⟩, ?_⟩
      rintro _ ⟨⟩ hmeta
      have hcontent : isMetaFile moved = false := by decide +kernel
      rw [hcontent] at hmeta
      cases hmeta
  obtain ⟨hlisting, hreturns⟩ := table_refines_directory (ascii "/meta") (Store.empty _) es hadm
  have hsafe : Always step Safe (boot (ascii "/meta") (Store.empty _)) es := by decide +kernel
  obtain ⟨rs, w, hrun⟩ := hreturns hsafe
  exact ⟨rs, w, hrun, hlisting rs w hrun⟩

end LazyFS.DirectoryListing
