import LazyFS.SafeRuns

/-!
# The real files of meta entries

Every operation on a meta file rebuilds the name of its real file, so that two
meta files are kept apart only as far as those names are. They are when the
paths are plain, the names fit the buffer they are printed into, and no file of
the directory has two names. The frame lemmas say that a request then touches no
name but those of its own paths, and apart from writes no bytes but those of its
own files.
-/

namespace LazyFS.RealFiles

open MachineWords LinkedCells PathNames PosixStore FileOperations GuardedRun ServedRequests
  SafeRuns

/-- A path whose real file has a name of its own. -/
structure Direct (metadir : List UInt8) (p : Path) : Prop where
  /-- The path is a slash and a name. -/
  plain : p.Plain
  /-- The real name is not cut. -/
  fits : metadir.length + p.strlen < MAXREALPATHLEN

/-- Whether a path is direct is computed. -/
instance (metadir : List UInt8) (p : Path) : Decidable (Direct metadir p) :=
  decidable_of_iff (p.Plain ∧ metadir.length + p.strlen < MAXREALPATHLEN)
    ⟨fun h => ⟨h.1, h.2⟩, fun h => ⟨h.plain, h.fits⟩⟩

/-- The names that plain paths have in the real directory. -/
def ownNames (metadir : List UInt8) : Set (List UInt8) :=
  {name | ∃ p : Path, p.Plain ∧ realFile metadir p = name}

/-- No file has two names in the real directory. -/
def NoLinks (metadir : List UInt8) (store : Store (List UInt8)) : Prop :=
  store.Unlinked (ownNames metadir)

/-- Every meta path in the table is direct. -/
def DirectKeys (metadir : List UInt8) (v : View) : Prop :=
  ∀ p f, v.lookup p = some f → isMetaFile p = true → Direct metadir p

/-- The path that a request adds to the table: the one it copies, unless the
real file of a new meta path cannot be opened. -/
def stored (metadir : List UInt8) (env : Env) (v : View) : Op → Option Path
  | .create path mode fi =>
    if isMetaFile path = true →
        (v.store.openFile env.fault (realpath metadir path) true true mode).1.isOk = true
    then copied metadir env v (.create path mode fi) else none
  | op => copied metadir env v op

/-- A meta path that a request stores is direct. -/
def StoresDirect (metadir : List UInt8) (env : Env) (v : View) (op : Op) : Prop :=
  ∀ p ∈ stored metadir env v op, isMetaFile p = true → Direct metadir p

/-- Whether a request stores such paths only is computed. -/
instance (metadir : List UInt8) (env : Env) (v : View) (op : Op) :
    Decidable (StoresDirect metadir env v op) :=
  have : DecidablePred fun p => isMetaFile p = true → Direct metadir p := fun _ => inferInstance
  Option.decidableForallMem _

/-- The paths a request is about. -/
def subjects : Op → List Path
  | .getattr p _ _ | .unlink p | .truncate p _ _ | .open p _ | .read p _ _ | .write p _ _ _
  | .release p | .create p _ _ => [p]
  | .rename old new => [old, new]
  | .readdir _ => []

/-- Requests that write through a descriptor. -/
def isWrite : Op → Bool
  | .write _ _ _ _ => true
  | _ => false

section Names

variable {metadir : List UInt8} {p q : Path}

/-- The buffer holds the whole name of a direct path. -/
theorem Direct.realpath_eq (h : Direct metadir p) : realpath metadir p = realFile metadir p :=
  realpath_of_fits ((realFits_plain_iff h.plain).mpr h.fits)

/-- Different direct paths have real files of different names. -/
theorem Direct.realFile_ne (hp : Direct metadir p) (hq : Direct metadir q) (hne : p ≠ q) :
    realFile metadir p ≠ realFile metadir q :=
  fun h => hne (realFile_injective hp.plain hq.plain h)

/-- The name of a direct path is one of the directory. -/
theorem Direct.own (h : Direct metadir p) : realpath metadir p ∈ ownNames metadir :=
  ⟨p, h.plain, h.realpath_eq.symm⟩

/-- Without links, different plain paths are names of different files. -/
theorem NoLinks.apart {store : Store (List UInt8)} (h : NoLinks metadir store) (hp : p.Plain)
    (hq : q.Plain) (hne : p ≠ q) : store.Apart (realFile metadir p) (realFile metadir q) :=
  h ⟨p, hp, rfl⟩ ⟨q, hq, rfl⟩ fun hsame => hne (realFile_injective hp hq hsame)

/-- A store without files is one without links. -/
theorem noLinks_empty (metadir : List UInt8) : NoLinks metadir (Store.empty _) :=
  fun _ _ _ _ _ _ h => nomatch h

end Names

section Lookups

variable {metadir : List UInt8} {env : Env} {v v' : View} {op : Op} {r : Reply} {p q : Path}
  {f : LFile}

/-- A bound path was bound before or has just been. -/
theorem bind_lookup_cases {o : Option LFile} (h : (v.bind q o).lookup p = some f) :
    (p = q ∧ o = some f) ∨ (p ≠ q ∧ v.lookup p = some f) := by
  by_cases hpq : p = q
  · subst hpq
    exact Or.inl ⟨rfl, by simpa [View.bind] using h⟩
  · exact Or.inr ⟨hpq, by simpa [View.bind, hpq] using h⟩

/-- A path that a request does not concern is bound as before. -/
theorem bind_lookup_of_ne {o : Option LFile} (h : p ≠ q) : (v.bind q o).lookup p = v.lookup p := by
  simp [View.bind, h]

/-- The path of a content file that is created is stored. -/
theorem stored_created {mode : ℕ} {fi : FuseFileInfo} (hp : v.lookup p = none)
    (hmeta : isMetaFile p = false) : p ∈ stored metadir env v (.create p mode fi) := by
  have hcopied : copied metadir env v (.create p mode fi) = some p := if_pos hp
  rw [stored, if_pos (by simp [hmeta]), hcopied]
  rfl

/-- The path of a file that is created and opened in the real store is stored. -/
theorem stored_realCreated {mode fd : ℕ} {fi : FuseFileInfo} {store : Store (List UInt8)}
    (hp : v.lookup p = none)
    (hopen : v.store.openFile env.fault (realpath metadir p) true true mode = (.ok fd, store)) :
    p ∈ stored metadir env v (.create p mode fi) := by
  have hcopied : copied metadir env v (.create p mode fi) = some p := if_pos hp
  rw [stored, if_pos (fun _ => by rw [hopen]; rfl), hcopied]
  rfl

/-- The new path of a content file that is renamed is stored. -/
theorem stored_renamed {old new : Path} (hnew : v.lookup new = none)
    (hold : v.lookup old = some f) (hmold : isMetaFile old = false)
    (hmnew : isMetaFile new = false) : new ∈ stored metadir env v (.rename old new) :=
  if_pos ⟨hnew, by simp [hold], hmold.trans hmnew.symm, by simp [hmold]⟩

/-- The new path of a meta file whose real file is renamed is stored. -/
theorem stored_realRenamed {old new : Path} {n : ℕ} {store : Store (List UInt8)}
    (hnew : v.lookup new = none) (hold : v.lookup old = some f) (hmold : isMetaFile old = true)
    (hmnew : isMetaFile new = true)
    (hcall : v.store.rename env.fault (realpath metadir old) (realpath metadir new) =
      (.ok n, store)) : new ∈ stored metadir env v (.rename old new) :=
  if_pos ⟨hnew, by simp [hold], hmold.trans hmnew.symm, fun _ => by rw [hcall]; rfl⟩

/-- A path in the table was in it before or was stored by the request. -/
theorem served_lookup_cases (h : Served metadir env v op r v') (hp : v'.lookup p = some f) :
    (∃ f₀, v.lookup p = some f₀) ∨ p ∈ stored metadir env v op := by
  have hbind : ∀ {q o}, (∃ f₀, v.lookup q = some f₀) → (v.bind q o).lookup p = some f →
      ∃ f₀, v.lookup p = some f₀ := by
    intro q o hq hlook
    rcases bind_lookup_cases hlook with ⟨rfl, -⟩ | ⟨-, hold⟩
    · exact hq
    · exact ⟨f, hold⟩
  cases h with
  | absent | queried | realTruncated | openFailed | realWritten | released | realReleased
    | exclusive | createFailed | renameRefused => exact Or.inl ⟨f, hp⟩
  | unlinked hq | resized hq | opened hq | realOpened hq | written hq | recreated hq =>
    exact Or.inl (hbind ⟨_, hq⟩ hp)
  | created hnone hmeta =>
    rcases bind_lookup_cases hp with ⟨rfl, -⟩ | ⟨-, hold⟩
    · exact Or.inr (stored_created hnone hmeta)
    · exact Or.inl ⟨f, hold⟩
  | realCreated hnone hmeta hopen =>
    rcases bind_lookup_cases hp with ⟨rfl, -⟩ | ⟨-, hold⟩
    · exact Or.inr (stored_realCreated hnone hopen)
    · exact Or.inl ⟨f, hold⟩
  | renamed hnew hold hmold hmnew =>
    rcases bind_lookup_cases hp with ⟨-, hnone⟩ | ⟨-, hp⟩
    · cases hnone
    · rcases bind_lookup_cases hp with ⟨rfl, -⟩ | ⟨-, hp⟩
      · exact Or.inr (stored_renamed hnew hold hmold hmnew)
      · exact Or.inl ⟨f, hp⟩
  | realRenamed hnew hold hmold hmnew hcall =>
    rcases bind_lookup_cases hp with ⟨-, hnone⟩ | ⟨-, hp⟩
    · cases hnone
    · rcases bind_lookup_cases hp with ⟨rfl, -⟩ | ⟨-, hp⟩
      · exact Or.inr (stored_realRenamed hnew hold hmold hmnew hcall)
      · exact Or.inl ⟨f, hp⟩

/-- Requests that store direct paths only keep the table direct. -/
theorem served_directKeys (hkeys : DirectKeys metadir v) (hst : StoresDirect metadir env v op)
    (h : Served metadir env v op r v') : DirectKeys metadir v' := by
  intro p f hp hmeta
  rcases served_lookup_cases h hp with ⟨f₀, hf₀⟩ | hstored
  · exact hkeys p f₀ hf₀ hmeta
  · exact hst p hstored hmeta

/-- The entry of a path that a request is not about is kept. -/
theorem served_lookup_frame (h : Served metadir env v op r v') (hq : q ∉ subjects op) :
    v'.lookup q = v.lookup q := by
  cases h <;> first
    | rfl
    | exact bind_lookup_of_ne (by simpa [subjects] using hq)
    | skip
  all_goals
    obtain ⟨hold, hnew⟩ : q ≠ _ ∧ q ≠ _ := by simpa [subjects] using hq
    exact (bind_lookup_of_ne hold).trans (bind_lookup_of_ne hnew)

/-- A request that is not about a direct path keeps its real file. -/
theorem served_names_frame (hkeys : DirectKeys metadir v) (hst : StoresDirect metadir env v op)
    (h : Served metadir env v op r v') (hq : Direct metadir q) (hout : q ∉ subjects op) :
    v'.store.names (realFile metadir q) = v.store.names (realFile metadir q) := by
  have hname : ∀ {p}, Direct metadir p → q ≠ p → realFile metadir q ≠ realpath metadir p := by
    intro p hp hne
    rw [hp.realpath_eq]
    exact hq.realFile_ne hp hne
  cases h with
  | absent | queried | openFailed | released | exclusive | createFailed | renameRefused => rfl
  | resized | opened | written | recreated | created | renamed => rfl
  | @unlinked p f hp =>
    have hqp : q ≠ p := by simpa [subjects] using hout
    cases hmeta : isMetaFile p with
    | false => rfl
    | true => exact (v.store.unlink_frame env.fault _ (hname (hkeys p f hp hmeta) hqp)).1
  | @realTruncated p length fi f hp hmeta =>
    exact congrFun (v.store.truncate_frame env.fault (realpath metadir p) length.toInt).1 _
  | @realOpened p fi f fd store hp hmeta hopen =>
    have hqp : q ≠ p := by simpa [subjects] using hout
    exact (Store.openFile_frame hopen (hname (hkeys p f hp hmeta) hqp)).1
  | @realWritten p buf size offset f r hp hmeta =>
    exact congrFun (v.store.pwrite_frame env.fault env.limit f.realfd (buf.take size.toNat)
      offset.toInt).1 _
  | @realReleased p f hp hmeta => exact congrFun (v.store.close_frame env.fault f.realfd).1 _
  | @realCreated p mode fi f fd store hp hmeta hopen hf =>
    have hqp : q ≠ p := by simpa [subjects] using hout
    exact (Store.openFile_frame hopen
      (hname (hst p (stored_realCreated hp hopen) hmeta) hqp)).1
  | @realRenamed old new f f' n store hnew hold hmold hmnew hcall hf =>
    obtain ⟨hqo, hqn⟩ : q ≠ old ∧ q ≠ new := by simpa [subjects] using hout
    have hframe := v.store.rename_frame env.fault (realpath metadir old) (realpath metadir new)
      (hname (hkeys old f hold hmold) hqo)
      (hname (hst new (stored_realRenamed hnew hold hmold hmnew hcall) hmnew) hqn)
    rw [hcall] at hframe
    exact hframe.1

/-- Without links, a request that is not about a direct path keeps the bytes of its
real file unless it writes. -/
theorem served_store_frame (hkeys : DirectKeys metadir v) (hst : StoresDirect metadir env v op)
    (hlinks : NoLinks metadir v.store) (h : Served metadir env v op r v')
    (hq : Direct metadir q) (hout : q ∉ subjects op) (hwrite : isWrite op = false) :
    v'.store.contentAt (realFile metadir q) = v.store.contentAt (realFile metadir q) := by
  have hname : ∀ {p}, Direct metadir p → q ≠ p → realFile metadir q ≠ realpath metadir p := by
    intro p hp hne
    rw [hp.realpath_eq]
    exact hq.realFile_ne hp hne
  have hapart : ∀ {p}, Direct metadir p → q ≠ p →
      v.store.Apart (realFile metadir q) (realpath metadir p) := by
    intro p hp hne
    rw [hp.realpath_eq]
    exact hlinks.apart hq.plain hp.plain hne
  cases h with
  | absent | queried | openFailed | released | exclusive | createFailed | renameRefused => rfl
  | resized | opened | written | recreated | created | renamed => rfl
  | @unlinked p f hp =>
    have hqp : q ≠ p := by simpa [subjects] using hout
    cases hmeta : isMetaFile p with
    | false => rfl
    | true => exact (v.store.unlink_frame env.fault _ (hname (hkeys p f hp hmeta) hqp)).2
  | @realTruncated p length fi f hp hmeta =>
    have hqp : q ≠ p := by simpa [subjects] using hout
    exact (v.store.truncate_frame env.fault (realpath metadir p) length.toInt).2.2 _
      (hapart (hkeys p f hp hmeta) hqp)
  | @realOpened p fi f fd store hp hmeta hopen =>
    have hqp : q ≠ p := by simpa [subjects] using hout
    have hdirect := hkeys p f hp hmeta
    exact (Store.openFile_frame hopen (hname hdirect hqp)).2 (hapart hdirect hqp)
  | realWritten => cases hwrite
  | @realReleased p f hp hmeta =>
    obtain ⟨hnames, hinodes⟩ := v.store.close_frame env.fault f.realfd
    exact Store.contentAt_congr (congrFun hnames _) fun i _ => congrFun hinodes i
  | @realCreated p mode fi f fd store hp hmeta hopen hf =>
    have hqp : q ≠ p := by simpa [subjects] using hout
    have hdirect := hst p (stored_realCreated hp hopen) hmeta
    exact (Store.openFile_frame hopen (hname hdirect hqp)).2 (hapart hdirect hqp)
  | @realRenamed old new f f' n store hnew hold hmold hmnew hcall hf =>
    obtain ⟨hqo, hqn⟩ : q ≠ old ∧ q ≠ new := by simpa [subjects] using hout
    have hframe := v.store.rename_frame env.fault (realpath metadir old) (realpath metadir new)
      (hname (hkeys old f hold hmold) hqo)
      (hname (hst new (stored_realRenamed hnew hold hmold hmnew hcall) hmnew) hqn)
    rw [hcall] at hframe
    exact hframe.2

/-- Requests on direct paths give no file a second name. -/
theorem served_noLinks (hkeys : DirectKeys metadir v) (hlinks : NoLinks metadir v.store)
    (h : Served metadir env v op r v') : NoLinks metadir v'.store := by
  cases h with
  | absent | queried | openFailed | released | exclusive | createFailed | renameRefused =>
    exact hlinks
  | resized | opened | written | recreated | created | renamed => exact hlinks
  | @unlinked p f hp =>
    cases hmeta : isMetaFile p with
    | false => exact hlinks
    | true => exact v.store.unlink_unlinked env.fault _ hlinks
  | @realTruncated p length fi f hp hmeta =>
    obtain ⟨hnames, -⟩ := v.store.truncate_frame env.fault (realpath metadir p) length.toInt
    exact Store.unlinked_congr hnames hlinks
  | @realWritten p buf size offset f r hp hmeta =>
    obtain ⟨hnames, -⟩ := v.store.pwrite_frame env.fault env.limit f.realfd (buf.take size.toNat)
      offset.toInt
    exact Store.unlinked_congr hnames hlinks
  | @realReleased p f hp hmeta =>
    exact Store.unlinked_congr (v.store.close_frame env.fault f.realfd).1 hlinks
  | realOpened _ _ hopen | realCreated _ _ hopen => exact Store.openFile_unlinked hopen hlinks
  | @realRenamed old new f f' n store hnew hold hmold hmnew hcall hf =>
    have hmoved := v.store.rename_unlinked env.fault (realpath metadir new) hlinks
      (hkeys old f hold hmold).own
    rw [hcall] at hmoved
    exact hmoved

/-- Every meta path of the table has a real file. -/
def RealFilesExist (metadir : List UInt8) (v : View) : Prop :=
  ∀ p f, v.lookup p = some f → isMetaFile p = true → v.store.names (realFile metadir p) ≠ none

/-- Real files are there for the entries that a request leaves in the table. -/
theorem served_realFilesExist (hkeys : DirectKeys metadir v) (hst : StoresDirect metadir env v op)
    (hexist : RealFilesExist metadir v) (h : Served metadir env v op r v') :
    RealFilesExist metadir v' := by
  have hkeys' := served_directKeys hkeys hst h
  intro q f hq hmeta
  have hdirect := hkeys' q f hq hmeta
  by_cases hout : q ∉ subjects op
  · rw [served_names_frame hkeys hst h hdirect hout]
    rw [served_lookup_frame h hout] at hq
    exact hexist q f hq hmeta
  · rw [not_not] at hout
    -- The request is about this path: its real file is the one the call was made for.
    cases h with
    | absent | queried | openFailed | released | exclusive | createFailed | renameRefused =>
      exact hexist q f hq hmeta
    | unlinked =>
      simp only [subjects, List.mem_singleton] at hout
      subst hout
      simp [View.withStore, View.bind] at hq
    | resized _ hcontent | opened _ hcontent | written _ hcontent | created _ hcontent =>
      simp only [subjects, List.mem_singleton] at hout
      subst hout
      rw [hcontent] at hmeta
      cases hmeta
    | @recreated p mode fi f₀ hp hfi =>
      simp only [subjects, List.mem_singleton] at hout
      subst hout
      exact hexist q f₀ hp hmeta
    | @realTruncated p length fi f₀ hp _ =>
      obtain ⟨hnames, -⟩ := v.store.truncate_frame env.fault (realpath metadir p) length.toInt
      simp only [View.withStore, hnames]
      exact hexist q f hq hmeta
    | @realWritten p buf size offset f₀ r hp _ =>
      obtain ⟨hnames, -⟩ := v.store.pwrite_frame env.fault env.limit f₀.realfd
        (buf.take size.toNat) offset.toInt
      simp only [View.withStore, hnames]
      exact hexist q f hq hmeta
    | @realReleased p f₀ hp _ =>
      obtain ⟨hnames, -⟩ := v.store.close_frame env.fault f₀.realfd
      simp only [hnames]
      exact hexist q f hq hmeta
    | @realOpened p fi f₀ fd store hp _ hopen =>
      simp only [subjects, List.mem_singleton] at hout
      subst hout
      obtain ⟨i, hnames, -⟩ := Store.openFile_ok hopen
      simp [View.withStore, hnames, ← hdirect.realpath_eq]
    | @realCreated p mode fi f₀ fd store hp _ hopen hf =>
      simp only [subjects, List.mem_singleton] at hout
      subst hout
      obtain ⟨i, hnames, -⟩ := Store.openFile_ok hopen
      simp [View.withStore, hnames, ← hdirect.realpath_eq]
    | @renamed old new f₀ f' hnew hold hmold hmnew hf =>
      simp only [subjects, List.mem_cons, List.not_mem_nil, or_false] at hout
      rcases hout with rfl | rfl <;> simp_all
    | @realRenamed old new f₀ f' n store hnew hold hmold hmnew hcall hf =>
      rcases Store.rename_cases hcall with ⟨e, he, -⟩ | ⟨-, hs, hname⟩
      · cases he
      · rcases bind_lookup_cases hq with ⟨-, hnone⟩ | ⟨hqo, -⟩
        · cases hnone
        · simp only [subjects, List.mem_cons, List.not_mem_nil, or_false] at hout
          obtain rfl : q = new := hout.resolve_left hqo
          simp only [View.withStore, hs, ← hdirect.realpath_eq, Store.moveName_new]
          exact hname

end Lookups

/-- What the real store holds for the meta paths of a table. -/
structure OwnFiles (w : World) : Prop where
  /-- Each has a real file, under its own name. -/
  exist : ∀ p f, w.lookup p = some f → isMetaFile p = true →
    realpath w.metadir p = realFile w.metadir p ∧
      ∃ i, w.store.names (realFile w.metadir p) = some i
  /-- Two of them never designate the same file. -/
  distinct : ∀ p q f g, w.lookup p = some f → w.lookup q = some g → isMetaFile p = true →
    isMetaFile q = true → p ≠ q →
    w.store.names (realpath w.metadir p) ≠ w.store.names (realpath w.metadir q)

/-- A request that does not write leaves the bytes of every meta file it is
not about as they were. -/
def OthersKept (w : World) (e : Event) : Prop :=
  isWrite e.op = false → ∀ r w', step w e = .ok (r, w') →
    ∀ q f, w.lookup q = some f → isMetaFile q = true → q ∉ subjects e.op →
      w'.store.contentAt (realFile w.metadir q) = w.store.contentAt (realFile w.metadir q)

/-- A run of these requests returns, never changes the bytes of a meta file it
is not about, and leaves every meta path its own real file. -/
def RealFileLaw (metadir : List UInt8) (store : Store (List UInt8)) (es : List Event) : Prop :=
  Always step OthersKept (boot metadir store) es ∧
    ∃ rs w, run step (boot metadir store) es = .ok (rs, w) ∧ OwnFiles w

/-- Without links, direct keys with real files are files of their own. -/
theorem ownFiles_of_direct {w : World} (hkeys : DirectKeys w.metadir (view w))
    (hexist : RealFilesExist w.metadir (view w)) (hlinks : NoLinks w.metadir w.store) :
    OwnFiles w := by
  constructor
  · intro p f hp hmeta
    exact ⟨(hkeys p f hp hmeta).realpath_eq, Option.ne_none_iff_exists'.mp (hexist p f hp hmeta)⟩
  · intro p q f g hp hq hmp hmq hne heq
    have hdp := hkeys p f hp hmp
    have hdq := hkeys q g hq hmq
    rw [hdp.realpath_eq, hdq.realpath_eq] at heq
    obtain ⟨i, hi⟩ := Option.ne_none_iff_exists'.mp (hexist p f hp hmp)
    have hj : w.store.names (realFile w.metadir q) = some i := heq ▸ hi
    exact hlinks.apart hdp.plain hdq.plain hne i hi hj

/-- What a run keeps of the real directory. -/
structure Kept (metadir : List UInt8) (v : View) : Prop where
  /-- Meta paths have names of their own. -/
  keys : DirectKeys metadir v
  /-- Their real files exist. -/
  exist : RealFilesExist metadir v
  /-- No file has two names. -/
  links : NoLinks metadir v.store

/-- The law holds for every run of safe requests that store direct meta paths, if no file
of the real directory has two names when the file system is mounted. -/
theorem meta_files_have_own_files (metadir : List UInt8) (store : Store (List UInt8))
    (hlinks : NoLinks metadir store) (es : List Event)
    (hes : Always step (fun w e => Safe w e ∧ StoresDirect w.metadir e.env (view w) e.op)
      (boot metadir store) es) :
    RealFileLaw metadir store es := by
  have hown := boot_owned metadir store
  have hinit : Kept metadir (view (boot metadir store)) :=
    ⟨fun p f hp => absurd hp (boot_lookup_ne p f), fun p f hp => absurd hp (boot_lookup_ne p f),
      hlinks⟩
  have hserved : ∀ (u : World) (g : Unit) (e : Event) r v, OwnedTable u →
      u.metadir = metadir ∧ Kept metadir (view u) →
      Safe u e ∧ StoresDirect u.metadir e.env (view u) e.op →
      Served u.metadir e.env (view u) e.op r v → u.metadir = metadir ∧ Kept metadir v := by
    rintro u g e r v - ⟨rfl, hkept⟩ ⟨-, hst⟩ hs
    exact ⟨rfl, served_directKeys hkept.keys hst hs,
      served_realFilesExist hkept.keys hst hkept.exist hs,
      served_noLinks hkept.keys hkept.links hs⟩
  have hothers : ∀ (u : World) (g : Unit) (e : Event), OwnedTable u →
      u.metadir = metadir ∧ Kept metadir (view u) →
      Safe u e ∧ StoresDirect u.metadir e.env (view u) e.op → OthersKept u e := by
    rintro u g e howned ⟨rfl, hkept⟩ ⟨-, hst⟩ hwrite r u' hstep q f hq hmeta hout
    have href := step_refines howned hstep
    exact served_store_frame hkept.keys hst hkept.links href.served (hkept.keys q f hq hmeta)
      hout hwrite
  constructor
  · exact always_of_guarded (safe_guarded_rule (R := fun m v _ => m = metadir ∧ Kept metadir v)
      hserved hothers hown ⟨rfl, hinit⟩ hes)
  · obtain ⟨rs, w, hrun, -, -, hmetadir, hkept⟩ := safe_run_rule
      (R := fun m v _ => m = metadir ∧ Kept metadir v)
      (fun _ _ _ hg => hg.1) hserved hown ⟨rfl, hinit⟩ hes
    have hkept' : Kept w.metadir (view w) := hmetadir ▸ hkept
    exact ⟨rs, w, hrun, ownFiles_of_direct hkept'.keys hkept'.exist hkept'.links⟩

/-- Under a long directory two names are cut to one, and so are their files. -/
theorem realFileLaw_fails_for_long_metadir :
    let metadir := slash :: List.replicate 239 100
    let p : Path := ⟨ascii "aaaaaaaaaaaaaa1.mhash", by decide⟩
    let q : Path := ⟨ascii "aaaaaaaaaaaaaa2.mhash", by decide⟩
    ¬ RealFileLaw metadir (Store.empty _) [⟨.create p 0o644 ⟨O_CREAT, 0⟩, Env.quiet⟩,
      ⟨.create q 0o644 ⟨O_CREAT, 0⟩, Env.quiet⟩] := by
  rintro metadir p q ⟨-, rs, w, hrun, hfiles⟩
  have hcut : realpath metadir p = realpath metadir q := by decide +kernel
  have hobserved : (run step (boot metadir (Store.empty _))
      [⟨.create p 0o644 ⟨O_CREAT, 0⟩, Env.quiet⟩, ⟨.create q 0o644 ⟨O_CREAT, 0⟩, Env.quiet⟩]).map
      (fun out => ((out.2.lookup p).isSome, (out.2.lookup q).isSome)) = .ok (true, true) := by
    decide +kernel
  clear_value metadir
  obtain ⟨rs', w', hrun', hboth⟩ :=
    run_observe (f := fun (w : World) => ((w.lookup p).isSome, (w.lookup q).isSome)) hobserved
  rw [hrun] at hrun'
  cases hrun'
  obtain ⟨hp, hq⟩ := Prod.mk.inj hboth
  obtain ⟨f, hf⟩ := Option.isSome_iff_exists.mp hp
  obtain ⟨g, hg⟩ := Option.isSome_iff_exists.mp hq
  have hmetadir : w.metadir = metadir := run_metadir (boot_owned _ _) hrun
  exact hfiles.distinct p q f g hf hg (by decide +kernel) (by decide +kernel) (by decide +kernel)
    (by rw [hmetadir, hcut])

/-- Two meta files, one of them renamed and resized. -/
theorem meta_files_have_own_files_small :
    let p : Path := ⟨ascii "a.mhash", by decide⟩
    let q : Path := ⟨ascii "a.mbinmap", by decide⟩
    let moved : Path := ⟨ascii "b.mhash", by decide⟩
    RealFileLaw (ascii "/meta") (Store.empty _) [⟨.create p 0o644 ⟨O_CREAT, 0⟩, Env.quiet⟩,
      ⟨.create q 0o644 ⟨O_CREAT, 0⟩, Env.quiet⟩, ⟨.rename p moved, Env.quiet⟩,
      ⟨.truncate moved 5 none, Env.quiet⟩] := by
  intro p q moved
  refine meta_files_have_own_files _ _ (noLinks_empty _) _ ?_
  decide +kernel

end LazyFS.RealFiles
