import LazyFS.RealFiles

/-!
# Handles on meta files

A handle is opened once, read and written through, and released once, while an
entry has room for one descriptor. Handles are counted per path from the
replies. As long as no path has two, and no real file two names, every transfer
goes through a descriptor of the path's own real file, and the descriptors of the
process are exactly those of the open handles. A second handle on a path breaks
both.
-/

namespace LazyFS.OpenHandles

open MachineWords LinkedCells PathNames PosixStore FileOperations GuardedRun ServedRequests
  SafeRuns RealFiles

/-- How many handles are open on each path. -/
abbrev Handles := Path → ℕ

/-- What an answered request does to the open handles. -/
def handleStep (g : Handles) (op : Op) (r : Reply) : Handles :=
  match op with
  | .open p _ | .create p _ _ => if r.ret < 0 then g else Function.update g p (g p + 1)
  | .release p => Function.update g p (g p - 1)
  | _ => g

/-- Requests as handles on meta files make them: a read, a write or a release
comes through an open handle, and a creation passes back a handle that is not
taken for an error. -/
def Protocol (g : Handles) (op : Op) : Prop :=
  match op with
  | .open p _ => isMetaFile p = true
  | .create p _ fi => isMetaFile p = true ∧ 0 ≤ cInt fi.fh
  | .read p _ _ | .write p _ _ _ | .release p => isMetaFile p = true ∧ 0 < g p
  | _ => False

/-- Whether a request keeps to the protocol is computed. -/
instance (g : Handles) (op : Op) : Decidable (Protocol g op) :=
  match op with
  | .open p _ => inferInstanceAs (Decidable (isMetaFile p = true))
  | .create p _ fi => inferInstanceAs (Decidable (isMetaFile p = true ∧ 0 ≤ cInt fi.fh))
  | .read p _ _ | .write p _ _ _ | .release p =>
    inferInstanceAs (Decidable (isMetaFile p = true ∧ 0 < g p))
  | .getattr _ _ _ | .unlink _ | .truncate _ _ _ | .readdir _ | .rename _ _ => .isFalse nofun

/-- Requests that give a path a descriptor when no handle is open on it, and
pass a creation for a success only if they opened something. -/
def Alone (w : World) (g : Handles) (env : Env) : Op → Prop
  | .open p _ =>
    (w.store.openFile env.fault (realpath w.metadir p) false false 0).1.isOk = true → g p = 0
  | .create p _ fi => w.lookup p = none ∨ (fi.has O_CREAT && fi.has O_EXCL) = true
  | _ => True

/-- Whether a path gets its descriptor alone is computed. -/
instance (w : World) (g : Handles) (env : Env) (op : Op) : Decidable (Alone w g env op) :=
  match op with
  | .open p _ => inferInstanceAs (Decidable
      ((w.store.openFile env.fault (realpath w.metadir p) false false 0).1.isOk = true → g p = 0))
  | .create p _ fi => inferInstanceAs (Decidable
      (w.lookup p = none ∨ (fi.has O_CREAT && fi.has O_EXCL) = true))
  | .getattr _ _ _ | .unlink _ | .truncate _ _ _ | .read _ _ _ | .write _ _ _ _ | .release _
  | .readdir _ | .rename _ _ => .isTrue trivial

/-- Requests that keep the handles of different paths, and of one path at
different times, apart. -/
structure Separate (w : World) (g : Handles) (e : Event) : Prop where
  /-- The unchecked bounds. -/
  safe : Safe w e
  /-- Real files have names of their own. -/
  direct : StoresDirect w.metadir e.env (view w) e.op
  /-- No path has two handles. -/
  alone : Alone w g e.env e.op

/-- Whether an event keeps the handles separate is computed. -/
instance (w : World) (g : Handles) (e : Event) : Decidable (Separate w g e) :=
  decidable_of_iff (Safe w e ∧ StoresDirect w.metadir e.env (view w) e.op ∧ Alone w g e.env e.op)
    ⟨fun h => ⟨h.1, h.2.1, h.2.2⟩, fun h => ⟨h.safe, h.direct, h.alone⟩⟩

/-- The paths whose real file a request reads or writes. -/
def transfers : Op → Option Path
  | .read p _ _ | .write p _ _ _ => some p
  | _ => none

/-- An entry's descriptor is open, was opened here and is of the real file of a path. -/
def OwnDescriptor (metadir : List UInt8) (v : View) (p : Path) (f : LFile) : Prop :=
  ∃ d, v.store.descriptor f.realfd = some d ∧ d.own = true ∧
    v.store.names (realFile metadir p) = some d.ino

section Descriptors

variable {metadir : List UInt8} {v v' : View} {p q : Path} {f f' : LFile}

/-- Without links, the descriptors of different plain paths are different. -/
theorem ownDescriptor_ne (hlinks : NoLinks metadir v.store) (hp : p.Plain) (hq : q.Plain)
    (hne : p ≠ q) (hf : OwnDescriptor metadir v p f) (hf' : OwnDescriptor metadir v q f') :
    f.realfd ≠ f'.realfd := by
  obtain ⟨d, hd, -, hname⟩ := hf
  obtain ⟨d', hd', -, hname'⟩ := hf'
  intro he
  obtain rfl : d = d' := Option.some.inj (hd.symm.trans (he ▸ hd'))
  exact hlinks.apart hp hq hne d.ino hname hname'

/-- A descriptor stays an entry's own while it is open and the file keeps its name. -/
theorem ownDescriptor_congr (h : OwnDescriptor metadir v q f') (hfd : f.realfd = f'.realfd)
    (hdesc : ∀ d, v.store.descriptor f'.realfd = some d →
      v'.store.descriptor f'.realfd = some d)
    (hnames : v'.store.names (realFile metadir p) = v.store.names (realFile metadir q)) :
    OwnDescriptor metadir v' p f := by
  obtain ⟨d, hd, hown, hname⟩ := h
  exact ⟨d, hfd ▸ hdesc d hd, hown, hnames.trans hname⟩

/-- Opening a file leaves open descriptors as they are. -/
theorem openFile_descriptor {s s' : Store (List UInt8)} {fault : Option Errno} {name : List UInt8}
    {creat trunc : Bool} {mode n : ℕ} (h : s.openFile fault name creat trunc mode = (.ok n, s'))
    {fd : ℤ} {d : Descriptor} (hd : s.descriptor fd = some d) : s'.descriptor fd = some d := by
  obtain ⟨i, -, -, -, -, hfree, hdesc⟩ := Store.openFile_ok h
  have hne : fd ≠ (n : ℤ) := by
    rintro rfl
    rw [hfree] at hd
    cases hd
  rw [hdesc, Function.update_of_ne hne, hd]

/-- A file that was opened for a path gives its entry a descriptor of its own. -/
theorem ownDescriptor_opened (hdirect : Direct metadir p) {fault : Option Errno}
    {creat trunc : Bool} {mode fd : ℕ} {store : Store (List UInt8)}
    (hopen : v.store.openFile fault (realpath metadir p) creat trunc mode = (.ok fd, store))
    (hf : f.realfd = fd) (o : Option LFile) :
    OwnDescriptor metadir ((v.bind p o).withStore store) p f := by
  obtain ⟨i, hnames, -, -, -, -, hdesc⟩ := Store.openFile_ok hopen
  rw [hdirect.realpath_eq] at hnames
  refine ⟨⟨i, true⟩, ?_, rfl, ?_⟩
  · simp only [View.withStore, hdesc, hf, Function.update_self]
  · simp only [View.withStore, hnames, Function.update_self]

end Descriptors

/-- Open handles and open descriptors correspond. -/
structure Held (metadir : List UInt8) (v : View) (g : Handles) : Prop where
  /-- Real files have names of their own. -/
  keys : DirectKeys metadir v
  /-- No real file has two names. -/
  links : NoLinks metadir v.store
  /-- No path has two handles. -/
  one : ∀ p, g p ≤ 1
  /-- A path with a handle has its own descriptor. -/
  handle : ∀ p, 0 < g p → isMetaFile p = true ∧
    ∃ f, v.lookup p = some f ∧ OwnDescriptor metadir v p f
  /-- A descriptor that was opened here belongs to a handle. -/
  used : ∀ fd d, v.store.descriptor fd = some d → d.own = true →
    ∃ p f, 0 < g p ∧ v.lookup p = some f ∧ f.realfd = fd

section Steps

variable {metadir : List UInt8} {env : Env} {v v' : View} {g : Handles} {op : Op} {r : Reply}
  {p : Path} {f f' : LFile}

/-- A descriptor that a path without handles is given makes it a handle. -/
theorem held_acquire (hv : Held metadir v g) (hp : g p = 0) (hmeta : isMetaFile p = true)
    (hdirect : Direct metadir p) {fault : Option Errno} {creat trunc : Bool} {mode fd : ℕ}
    {store : Store (List UInt8)}
    (hopen : v.store.openFile fault (realpath metadir p) creat trunc mode = (.ok fd, store))
    (hf : f.realfd = fd) :
    Held metadir ((v.bind p (some f)).withStore store) (Function.update g p (g p + 1)) := by
  obtain ⟨i, hnames, -, -, -, hfree, hdesc⟩ := Store.openFile_ok hopen
  rw [hdirect.realpath_eq] at hnames
  have hother : ∀ q, 0 < g q → q ≠ p := by
    rintro q hq rfl
    omega
  refine ⟨?_, Store.openFile_unlinked hopen hv.links, ?_, ?_, ?_⟩
  · intro q a hq hmq
    rcases bind_lookup_cases hq with ⟨rfl, -⟩ | ⟨-, hold⟩
    · exact hdirect
    · exact hv.keys q a hold hmq
  · intro q
    by_cases hqp : q = p
    · rw [hqp, Function.update_self]
      omega
    · rw [Function.update_of_ne hqp]
      exact hv.one q
  · intro q hq
    by_cases hqp : q = p
    · subst hqp
      exact ⟨hmeta, f, Function.update_self _ _ _, ownDescriptor_opened hdirect hopen hf _⟩
    · rw [Function.update_of_ne hqp] at hq
      obtain ⟨hmq, a, ha, howned⟩ := hv.handle q hq
      have hne := (hv.keys q a ha hmq).realFile_ne hdirect hqp
      refine ⟨hmq, a, (bind_lookup_of_ne hqp).trans ha, ?_⟩
      refine ownDescriptor_congr howned rfl (fun _ hd => openFile_descriptor hopen hd) ?_
      simp only [View.withStore, hnames, Function.update_of_ne hne]
  · intro n d hd hown
    simp only [View.withStore, hdesc] at hd
    by_cases hn : n = (fd : ℤ)
    · exact ⟨p, f, by rw [Function.update_self]; omega, Function.update_self _ _ _,
        hf.trans hn.symm⟩
    · rw [Function.update_of_ne hn] at hd
      obtain ⟨q, a, hq, ha, hfd⟩ := hv.used n d hd hown
      have hqp := hother q hq
      exact ⟨q, a, by rwa [Function.update_of_ne hqp], (bind_lookup_of_ne hqp).trans ha, hfd⟩

/-- Two paths with handles have different descriptors. -/
theorem held_realfd_ne (hv : Held metadir v g) {q : Path} (hp : 0 < g p) (hq : 0 < g q)
    (hne : q ≠ p) (hlp : v.lookup p = some f) (hlq : v.lookup q = some f') :
    f'.realfd ≠ f.realfd := by
  obtain ⟨hmp, a, ha, hownp⟩ := hv.handle p hp
  obtain ⟨hmq, b, hb, hownq⟩ := hv.handle q hq
  obtain rfl : f = a := Option.some.inj (hlp.symm.trans ha)
  obtain rfl : f' = b := Option.some.inj (hlq.symm.trans hb)
  exact ownDescriptor_ne hv.links (hv.keys q f' hb hmq).plain (hv.keys p f ha hmp).plain hne
    hownq hownp

/-- Closing the descriptor of a path gives its handle back. -/
theorem held_release (hv : Held metadir v g) (hp : 0 < g p) (hlp : v.lookup p = some f)
    (fault : Option Errno) (closes : List CloseCall) :
    Held metadir ⟨v.lookup, (v.store.close fault f.realfd).2, closes⟩
      (Function.update g p (g p - 1)) := by
  have hdesc := v.store.close_descriptor fault f.realfd
  obtain ⟨hnames, -⟩ := v.store.close_frame fault f.realfd
  have hone := hv.one p
  have hleft : ∀ q, 0 < Function.update g p (g p - 1) q → q ≠ p ∧ 0 < g q := by
    intro q hq
    by_cases hqp : q = p
    · rw [hqp, Function.update_self] at hq
      omega
    · rw [Function.update_of_ne hqp] at hq
      exact ⟨hqp, hq⟩
  refine ⟨hv.keys, Store.unlinked_congr hnames hv.links, ?_, ?_, ?_⟩
  · intro q
    by_cases hqp : q = p
    · rw [hqp, Function.update_self]
      omega
    · rw [Function.update_of_ne hqp]
      exact hv.one q
  · intro q hq
    obtain ⟨hqp, hq⟩ := hleft q hq
    obtain ⟨hmq, a, ha, howned⟩ := hv.handle q hq
    have hfd := held_realfd_ne hv hp hq hqp hlp ha
    refine ⟨hmq, a, ha, ownDescriptor_congr howned rfl ?_ (congrFun hnames _)⟩
    intro d hd
    simp only [hdesc, Function.update_of_ne hfd, hd]
  · intro n d hd hown
    simp only [hdesc] at hd
    have hn : n ≠ f.realfd := by
      rintro rfl
      rw [Function.update_self] at hd
      cases hd
    rw [Function.update_of_ne hn] at hd
    obtain ⟨q, a, hq, ha, hfd⟩ := hv.used n d hd hown
    have hqp : q ≠ p := by
      rintro rfl
      rw [hlp] at ha
      cases ha
      exact hn hfd.symm
    exact ⟨q, a, by rwa [Function.update_of_ne hqp], ha, hfd⟩

/-- Bytes do not matter to handles. -/
theorem held_frame (hv : Held metadir v g) {store : Store (List UInt8)}
    (hnames : store.names = v.store.names) (hdesc : store.descriptor = v.store.descriptor) :
    Held metadir (v.withStore store) g := by
  refine ⟨hv.keys, Store.unlinked_congr hnames hv.links, hv.one, ?_, ?_⟩
  · intro q hq
    obtain ⟨hmq, a, ha, howned⟩ := hv.handle q hq
    exact ⟨hmq, a, ha, ownDescriptor_congr howned rfl (fun _ hd => (congrFun hdesc _).trans hd)
      (congrFun hnames _)⟩
  · intro n d hd hown
    exact hv.used n d (by simpa [View.withStore, hdesc] using hd) hown

/-- The requests of a handle are about a meta file. -/
theorem protocol_meta (h : Protocol g op) (hp : p ∈ subjects op) : isMetaFile p = true := by
  cases op <;> simp only [subjects, List.mem_singleton, List.not_mem_nil] at hp
  case «open» => exact hp ▸ h
  case create | read | write | release => exact hp ▸ h.1
  all_goals exact h.elim

/-- Every way a request of separate handles can end keeps the correspondence. -/
theorem served_held {w : World} {e : Event} (hv : Held w.metadir (view w) g)
    (hprot : Protocol g e.op) (hsep : Separate w g e)
    (h : Served w.metadir e.env (view w) e.op r v') :
    Held w.metadir v' (handleStep g e.op r) := by
  obtain ⟨op, env⟩ := e
  obtain ⟨-, hdirect, halone⟩ := hsep
  change Served w.metadir env (view w) op r v' at h
  cases h with
  | @absent op p hop hp =>
    cases op with
    | «open» =>
      rw [handleStep, if_pos (Errno.neg_neg _)]
      exact hv
    | release =>
      cases hop
      obtain ⟨-, f, hf, -⟩ := hv.handle p hprot.2
      rw [hp] at hf
      cases hf
    | read | write => exact hv
    | _ => first | exact hprot.elim | cases hop
  | @queried op r hop => cases op <;> first | exact hv | exact hprot.elim | cases hop
  | unlinked | resized | realTruncated | renameRefused | renamed | realRenamed =>
    exact hprot.elim
  | opened _ hcontent | written _ hcontent | released _ hcontent | created _ hcontent =>
    have hmeta := protocol_meta hprot List.mem_cons_self
    rw [hcontent] at hmeta
    cases hmeta
  | @realOpened p fi f fd store hp hmeta hopen =>
    rw [handleStep, if_neg (by simp)]
    have hfree : g p = 0 := halone (congrArg (fun call => call.1.isOk) hopen)
    exact held_acquire hv hfree hmeta (hv.keys p f hp hmeta) hopen rfl
  | openFailed | createFailed =>
    rw [handleStep, if_pos (Errno.neg_neg _)]
    exact hv
  | @realWritten p buf size offset f r hp hmeta =>
    obtain ⟨hnames, hdesc, -⟩ := (view w).store.pwrite_frame env.fault env.limit f.realfd
      (buf.take size.toNat) offset.toInt
    exact held_frame hv hnames hdesc
  | @realReleased p f hp hmeta => exact held_release hv hprot.2 hp env.fault _
  | exclusive =>
    rw [handleStep, if_pos (Errno.neg_neg _)]
    exact hv
  | @recreated p mode fi f hp hfi =>
    rcases halone with habsent | hexcl
    · rw [show w.lookup p = some f from hp] at habsent
      cases habsent
    · rw [hfi] at hexcl
      cases hexcl
  | @realCreated p mode fi f fd store hp hmeta hopen hf =>
    have hret : ¬ cInt fi.fh < 0 := not_lt.mpr hprot.2
    rw [handleStep, if_neg hret]
    have hnone : g p = 0 := by
      by_contra hne
      obtain ⟨-, a, ha, -⟩ := hv.handle p (Nat.pos_of_ne_zero hne)
      rw [hp] at ha
      cases ha
    have hstored := hdirect p (stored_realCreated hp hopen) hmeta
    exact held_acquire hv hnone hmeta hstored hopen hf.realfd

end Steps

/-- A request through a handle is served by a descriptor of the path's own
real file, and no bytes under another name of the directory change. -/
def ServedByOwnFile (w : World) (e : Event) : Prop :=
  ∀ p ∈ transfers e.op,
    (∃ f, w.lookup p = some f ∧ OwnDescriptor w.metadir (view w) p f) ∧
      ∀ r w', step w e = .ok (r, w') → ∀ q : Path, q.Plain → q ≠ p →
        w'.store.contentAt (realFile w.metadir q) = w.store.contentAt (realFile w.metadir q)

/-- A run of these requests returns, serves every transfer from the right
file, and leaves no descriptor open when no handle is. -/
def HandleLaw (metadir : List UInt8) (store : Store (List UInt8)) (es : List Event) : Prop :=
  Always step ServedByOwnFile (boot metadir store) es ∧
    ∃ rs w, run step (boot metadir store) es = .ok (rs, w) ∧
      ((∀ p, follow (fun g (e : Event) r => handleStep g e.op r) (fun _ => 0) es rs p = 0) →
        ∀ fd d, w.store.descriptor fd = some d → d.own = false)

/-- A transfer through an open handle is served by its own file. -/
theorem servedByOwnFile_of_held {w : World} {g : Handles} {e : Event} (hown : OwnedTable w)
    (hv : Held w.metadir (view w) g) (hprot : Protocol g e.op) : ServedByOwnFile w e := by
  obtain ⟨op, env⟩ := e
  intro p hp
  have hopen : isMetaFile p = true ∧ 0 < g p := by
    cases op <;> cases hp <;> exact hprot
  obtain ⟨hmeta, f, hf, d, hd, hdown, hname⟩ := hv.handle p hopen.2
  refine ⟨⟨f, hf, d, hd, hdown, hname⟩, ?_⟩
  have hplain := (hv.keys p f hf hmeta).plain
  intro r w' hstep q hq hne
  have hserved := (step_refines hown hstep).served
  cases op with
  | read =>
    obtain ⟨⟨_, _⟩, -, heq⟩ := Except.map_eq_ok hstep
    cases heq
    rfl
  | write p' buf size offset =>
    cases hp
    have hfind : ∃ c, w.find p = some c ∧ c.value = f := find_of_lookup hf
    obtain ⟨c, hc, rfl⟩ := hfind
    have hstore : w'.store = (w.store.pwrite env.fault env.limit c.value.realfd
        (buf.take size.toNat) offset.toInt).2 := by
      simp only [step, lWrite, hc, hmeta, if_true] at hstep
      split at hstep <;> cases hstep <;> rfl
    obtain ⟨hnames, -, hinodes⟩ := w.store.pwrite_frame env.fault env.limit c.value.realfd
      (buf.take size.toNat) offset.toInt
    rw [hstore]
    refine Store.contentAt_congr (congrFun hnames _) ?_
    intro i hi
    apply hinodes
    intro d' hd' hino
    obtain rfl : d' = d := Option.some.inj (hd'.symm.trans hd)
    exact hv.links.apart hq hplain hne i hi (hino ▸ hname)
  | _ => cases hp

/-- The law holds for every run of separate handles, if no file of the real directory has
two names when the file system is mounted. -/
theorem separate_handles_keep_apart (metadir : List UInt8) (store : Store (List UInt8))
    (hlinks : NoLinks metadir store) (es : List Event)
    (hes : Guarded step (fun g (e : Event) r => handleStep g e.op r)
      (fun w g e => Protocol g e.op ∧ Separate w g e)
      (boot metadir store) (fun _ => 0) es) : HandleLaw metadir store es := by
  have hown := boot_owned metadir store
  have hinit : Held metadir (view (boot metadir store)) (fun _ => 0) := by
    refine ⟨fun p f hp => absurd hp (boot_lookup_ne p f), hlinks, fun _ => Nat.zero_le 1,
      fun p hp => absurd hp (Nat.lt_irrefl 0), ?_⟩
    intro fd d hd howned
    rw [Store.inherited_own hd] at howned
    cases howned
  have hserved : ∀ (u : World) g (e : Event) r v, OwnedTable u →
      u.metadir = metadir ∧ Held metadir (view u) g →
      Protocol g e.op ∧ Separate u g e → Served u.metadir e.env (view u) e.op r v →
      u.metadir = metadir ∧ Held metadir v (handleStep g e.op r) := by
    rintro u g e r v - ⟨rfl, hv⟩ ⟨hprot, hsep⟩ hs
    exact ⟨rfl, served_held hv hprot hsep hs⟩
  have hfile : ∀ (u : World) g (e : Event), OwnedTable u →
      u.metadir = metadir ∧ Held metadir (view u) g →
      Protocol g e.op ∧ Separate u g e → ServedByOwnFile u e := by
    rintro u g e hu ⟨rfl, hv⟩ ⟨hprot, -⟩
    exact servedByOwnFile_of_held hu hv hprot
  constructor
  · exact always_of_guarded (safe_guarded_rule (R := fun m v g => m = metadir ∧ Held metadir v g)
      hserved hfile hown ⟨rfl, hinit⟩ hes)
  · obtain ⟨rs, w, hrun, -, -, -, hheld⟩ := safe_run_rule
      (R := fun m v g => m = metadir ∧ Held metadir v g)
      (fun _ _ _ hg => hg.2.safe) hserved hown ⟨rfl, hinit⟩ hes
    refine ⟨rs, w, hrun, ?_⟩
    intro hreleased fd d hd
    by_contra hnot
    obtain ⟨p, f, hp, -⟩ := hheld.used fd d hd (Bool.eq_true_of_not_eq_false hnot)
    rw [hreleased p] at hp
    exact absurd hp (Nat.lt_irrefl 0)

/-- With two handles on a path, releasing one leaves the other a number that
the next file to be opened gets: its writes land there. -/
theorem second_handle_writes_elsewhere :
    let p : Path := ⟨ascii "a.mhash", by decide⟩
    let q : Path := ⟨ascii "b.mhash", by decide⟩
    let es : List Event := [⟨.create p 0o644 ⟨O_CREAT, 0⟩, Env.quiet⟩, ⟨.open p ⟨0, 0⟩, Env.quiet⟩,
      ⟨.release p, Env.quiet⟩, ⟨.create q 0o644 ⟨O_CREAT, 0⟩, Env.quiet⟩]
    let write : Event := ⟨.write p (ascii "x") 1 0, Env.quiet⟩
    Guarded step (fun g (e : Event) r => handleStep g e.op r) (fun _ g e => Protocol g e.op)
        (boot (ascii "/meta") (Store.empty _)) (fun _ => 0) (es ++ [write]) ∧
      ¬ HandleLaw (ascii "/meta") (Store.empty _) (es ++ [write]) := by
  intro p q es write
  refine ⟨by decide +kernel, ?_⟩
  rintro ⟨hserved, -⟩
  have hobserved : (run step (boot (ascii "/meta") (Store.empty _)) es).map (fun out =>
      ((out.2.lookup p).map (fun f => (out.2.store.descriptor f.realfd).map Descriptor.ino),
        out.2.store.names (realFile out.2.metadir p))) = .ok (some (some 1), some 0) := by
    decide +kernel
  obtain ⟨rs, w, hrun, hout⟩ := run_observe (f := fun (w : World) =>
    ((w.lookup p).map (fun f => (w.store.descriptor f.realfd).map Descriptor.ino),
      w.store.names (realFile w.metadir p))) hobserved
  obtain ⟨hino, hreal⟩ := Prod.mk.inj hout
  obtain ⟨⟨f, hf, d, hd, -, hname⟩, -⟩ := guarded_at hserved hrun p rfl
  have hd' : w.store.descriptor f.realfd = some d := hd
  have hname' : w.store.names (realFile w.metadir p) = some d.ino := hname
  rw [hf, Option.map_some, hd', Option.map_some, Option.some.injEq, Option.some.injEq] at hino
  rw [hname', hino, Option.some.injEq] at hreal
  omega

/-- One handle after the other on one path, beside a handle on another. -/
theorem separate_handles_keep_apart_two :
    let p : Path := ⟨ascii "a.mhash", by decide⟩
    let q : Path := ⟨ascii "b.mhash", by decide⟩
    HandleLaw (ascii "/meta") (Store.empty _)
      [⟨.create p 0o644 ⟨O_CREAT, 0⟩, Env.quiet⟩, ⟨.create q 0o644 ⟨O_CREAT, 0⟩, Env.quiet⟩,
        ⟨.release p, Env.quiet⟩, ⟨.open p ⟨0, 0⟩, Env.quiet⟩,
        ⟨.write q (ascii "x") 1 0, Env.quiet⟩, ⟨.release q, Env.quiet⟩,
        ⟨.release p, Env.quiet⟩] := by
  intro p q
  refine separate_handles_keep_apart _ _ (noLinks_empty _) _ ?_
  decide +kernel

end LazyFS.OpenHandles
