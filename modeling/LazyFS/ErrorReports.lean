import LazyFS.StoredKeys

/-!
# How errors of the real file system are reported

Nine operations on meta files end in one call to the real file system. A
callback has to return the negated error number of a call that fails. One
operation does, and two do that write the failure to the log first and may find
another number afterwards; the other six return the -1 of the call itself, which
is the negated number of one particular error.
-/

namespace LazyFS.ErrorReports

open MachineWords LinkedCells PathNames PosixStore FileOperations GuardedRun ServedRequests
  SafeRuns StoredKeys

/-- Operation not permitted. -/
def EPERM : Errno := ⟨1, by decide⟩

/-- A call that is made for a meta path in the table. -/
def onMeta (w : World) (p : Path) (call : LFile → Except Errno ℕ) : Option (Except Errno ℕ) :=
  if isMetaFile p = true then (w.lookup p).map call else none

/-- The result of the call to the real file system that a request makes, if it
makes one: a count for the transfers, and a number that only tells success for
the others. -/
def delegated (w : World) (e : Event) : Option (Except Errno ℕ) :=
  match e.op with
  | .getattr p _ _ =>
    onMeta w p fun _ => (w.store.stat e.env.fault (realpath w.metadir p)).map (fun _ => 0)
  | .unlink p => onMeta w p fun _ => (w.store.unlink e.env.fault (realpath w.metadir p)).1
  | .truncate p length _ =>
    onMeta w p fun _ => (w.store.truncate e.env.fault (realpath w.metadir p) length.toInt).1
  | .open p _ =>
    onMeta w p fun _ => (w.store.openFile e.env.fault (realpath w.metadir p) false false 0).1
  | .read p size offset =>
    onMeta w p fun f =>
      (w.store.pread e.env.fault e.env.limit f.realfd size.toNat offset.toInt).map List.length
  | .write p buf size offset =>
    onMeta w p fun f => (w.store.pwrite e.env.fault e.env.limit f.realfd (buf.take size.toNat)
      offset.toInt).1
  | .release p => onMeta w p fun f => (w.store.close e.env.fault f.realfd).1
  | .readdir _ => none
  | .create p mode _ =>
    if w.lookup p = none ∧ isMetaFile p = true then
      some (w.store.openFile e.env.fault (realpath w.metadir p) true true mode).1
    else none
  | .rename old new =>
    if w.lookup new = none ∧ w.lookup old ≠ none ∧ isMetaFile old = true ∧
        isMetaFile new = true then
      some (w.store.rename e.env.fault (realpath w.metadir old) (realpath w.metadir new)).1
    else none

/-- What a callback has to return for the result of its call. -/
def Reports (result : Except Errno ℕ) (ret : ℤ) : Prop :=
  match result with
  | .error err => ret = Errno.neg err
  | .ok _ => 0 ≤ ret

/-- The contract of one request: it returns, and reports the result of its call. -/
def Faithful (w : World) (e : Event) : Prop :=
  ∀ result, delegated w e = some result →
    ∃ r w', step w e = .ok (r, w') ∧ Reports result r.ret

/-- The error number that a request whose call fails returns negated: the one of the
call, what logging the failure leaves of it, or the one that a returned -1 stands for. -/
def returnedErrno (e : Event) (err : Errno) : Errno :=
  match e.op with
  | .open _ _ => err
  | .create _ _ _ | .rename _ _ => e.env.loggedErrno err
  | _ => EPERM

/-- The failures that are reported as they are: each of an `open`, those of a creation or
a rename that leave their number through logging, and otherwise `EPERM`. -/
def ErrnoKept (e : Event) (err : Errno) : Prop :=
  match e.op with
  | .open _ _ => True
  | .create _ _ _ | .rename _ _ => e.env.logged = none ∨ e.env.logged = some err
  | _ => err = EPERM

/-- The value that a successful call is reported by is not negative as an `int`. -/
def CountFits : Op → ℕ → Prop
  | .read _ _ _, n | .write _ _ _ _, n => n % 2 ^ 32 < 2 ^ 31
  | .create _ _ fi, _ => fi.fh.toNat % 2 ^ 32 < 2 ^ 31
  | _, _ => True

/-- The requests that report faithfully: the copied path fits, the error number of a call
that fails is kept, and a count or handle that is returned fits an `int`. -/
def ReportsWell (w : World) (e : Event) : Prop :=
  ∀ result, delegated w e = some result → CopiesFit w e ∧
    match result with
    | .error err => ErrnoKept e err
    | .ok n => CountFits e.op n

/-- What a request returns for a successful call. -/
def returnedCount : Op → ℕ → ℤ
  | .read _ _ _, n | .write _ _ _ _, n => cInt (UInt64.ofNat n)
  | .create _ _ fi, _ => cInt fi.fh
  | .open _ _, _ | .rename _ _, _ => 0
  | _, n => n

/-- What a request returns for the result of its call. -/
def returned (e : Event) : Except Errno ℕ → ℤ
  | .error err => Errno.neg (returnedErrno e err)
  | .ok n => returnedCount e.op n

/-- Different error numbers have different negatives. -/
theorem errno_neg_inj {a b : Errno} : Errno.neg a = Errno.neg b ↔ a = b := by
  obtain ⟨code, pos⟩ := a
  obtain ⟨code', pos'⟩ := b
  simp only [Errno.neg, Errno.mk.injEq]
  omega

/-- A logged failure keeps its number if logging leaves it or sets the same. -/
theorem loggedErrno_eq_iff (env : Env) (err : Errno) :
    env.loggedErrno err = err ↔ env.logged = none ∨ env.logged = some err := by
  unfold Env.loggedErrno
  cases env.logged with
  | none => exact iff_of_true rfl (Or.inl rfl)
  | some e => simp

/-- The number that is returned is the one of the failure where it is kept. -/
theorem returnedErrno_eq_iff (e : Event) (err : Errno) :
    returnedErrno e err = err ↔ ErrnoKept e err := by
  obtain ⟨op, env⟩ := e
  cases op with
  | «open» p fi => exact iff_of_true rfl trivial
  | create p mode fi => exact loggedErrno_eq_iff env err
  | rename old new => exact loggedErrno_eq_iff env err
  | _ => exact eq_comm

/-- What is returned reports the result exactly under the listed conditions. -/
theorem reports_returned_iff (e : Event) (result : Except Errno ℕ) :
    Reports result (returned e result) ↔
      match result with
      | .error err => ErrnoKept e err
      | .ok n => CountFits e.op n := by
  cases result with
  | error err => exact errno_neg_inj.trans (returnedErrno_eq_iff e err)
  | ok n =>
    have hcount : 0 ≤ cInt (UInt64.ofNat n) ↔ n % 2 ^ 32 < 2 ^ 31 := by
      rw [cInt_nonneg_iff, UInt64.toNat_ofNat']
      omega
    obtain ⟨op, env⟩ := e
    cases op with
    | read p size offset => exact hcount
    | write p buf size offset => exact hcount
    | create p mode fi => exact cInt_nonneg_iff fi.fh
    | «open» p fi => exact iff_of_true le_rfl trivial
    | rename old new => exact iff_of_true le_rfl trivial
    | _ => exact iff_of_true (Int.natCast_nonneg n) trivial

section Steps

variable {w w' : World} {e : Event} {r : Reply} {p : Path} {result : Except Errno ℕ}

/-- A call that is made for a meta path is made for its entry. -/
theorem onMeta_eq_some {call : LFile → Except Errno ℕ} (h : onMeta w p call = some result) :
    isMetaFile p = true ∧ ∃ c, w.find p = some c ∧ call c.value = result := by
  unfold onMeta at h
  split_ifs at h with hmeta
  obtain ⟨f, hf, hcall⟩ := Option.map_eq_some_iff.mp h
  obtain ⟨c, hfind, rfl⟩ := find_of_lookup hf
  exact ⟨hmeta, c, hfind, hcall⟩

/-- A path that does not fit is not copied by a request that returns. -/
theorem fits_of_step (h : step w e = .ok (r, w')) : CopiesFit w e := by
  obtain ⟨op, env⟩ := e
  intro p hp
  have hp' : copied w.metadir env (view w) op = some p := hp
  by_contra hlong
  have hcopy : strcpyPath p = .error .bufferOverrun := by
    simp only [strcpyPath, dif_neg hlong]
  cases op with
  | create q mode fi =>
    simp only [copied] at hp'
    split_ifs at hp' with hnew
    cases hp'
    have hfind : w.find p = none := lookup_none_iff.mp hnew
    simp [step, lCreate, hfind, hcopy, bind, Except.bind, Except.map] at h
  | rename old new =>
    simp only [copied] at hp'
    split_ifs at hp' with hmoves
    cases hp'
    obtain ⟨hnew, hold, hkind, hreal⟩ := hmoves
    have hfnew : w.find p = none := lookup_none_iff.mp hnew
    obtain ⟨f, hf⟩ := Option.ne_none_iff_exists'.mp hold
    obtain ⟨c, hfold, -⟩ := find_of_lookup hf
    have hfold' : w.find old = some c := hfold
    have hmove : ∀ u : World, moveEntry c p u = .error .bufferOverrun := by
      intro u
      simp only [moveEntry, hcopy, bind, Except.bind]
    cases hmeta : isMetaFile p with
    | false => simp [step, lRename, hfnew, hfold', hkind, hmeta, hmove, Except.map] at h
    | true =>
      have hok := hreal (hkind.trans hmeta)
      cases hcall : w.store.rename env.fault (realpath w.metadir old) (realpath w.metadir p) with
      | mk result store =>
        cases result with
        | error err =>
          have hcall' : (view w).store.rename env.fault (realpath w.metadir old)
              (realpath w.metadir p) = (.error err, store) := hcall
          rw [hcall'] at hok
          cases hok
        | ok n => simp [step, lRename, hfnew, hfold', hkind, hmeta, hcall, hmove, Except.map] at h
  | _ => cases hp'

/-- A creation of a meta file returns what it makes of its `open`. -/
theorem create_returned {env : Env} {mode : ℕ} {fi : FuseFileInfo}
    (hlt : p.strlen < MAXPATHLEN) (hnew : w.lookup p = none) (hmeta : isMetaFile p = true) :
    ∃ r w', step w ⟨.create p mode fi, env⟩ = .ok (r, w') ∧
      r.ret = returned ⟨.create p mode fi, env⟩
        (w.store.openFile env.fault (realpath w.metadir p) true true mode).1 := by
  have hfind : w.find p = none := lookup_none_iff.mp hnew
  simp only [step, lCreate, hfind, strcpyPath_of_lt hlt, hmeta, bind, Except.bind, pure,
    Except.pure, if_true]
  cases hopen : w.store.openFile env.fault (realpath w.metadir p) true true mode with
  | mk result store => cases result <;> exact ⟨_, _, rfl, rfl⟩

/-- A rename of a meta file returns what it makes of the real `rename`, which has
to succeed before the new path is copied. -/
theorem rename_returned (hown : OwnedTable w) {env : Env} {old new : Path}
    (hnew : w.lookup new = none) (hold : w.lookup old ≠ none) (hmold : isMetaFile old = true)
    (hmnew : isMetaFile new = true)
    (hlt : (w.store.rename env.fault (realpath w.metadir old)
      (realpath w.metadir new)).1.isOk = true → new.strlen < MAXPATHLEN) :
    ∃ r w', step w ⟨.rename old new, env⟩ = .ok (r, w') ∧
      r.ret = returned ⟨.rename old new, env⟩
        (w.store.rename env.fault (realpath w.metadir old) (realpath w.metadir new)).1 := by
  have hfnew : w.find new = none := lookup_none_iff.mp hnew
  obtain ⟨f, hf⟩ := Option.ne_none_iff_exists'.mp hold
  obtain ⟨c, hfold, -⟩ := find_of_lookup hf
  have hfold' : w.find old = some c := hfold
  simp only [step, lRename, hfnew, hfold', hmold, hmnew, Bool.not_true, Bool.and_false,
    Bool.or_self, Bool.false_eq_true, Bool.and_self, if_false, if_true]
  cases hcall : w.store.rename env.fault (realpath w.metadir old) (realpath w.metadir new) with
  | mk result store =>
    cases result with
    | error err => exact ⟨_, _, rfl, rfl⟩
    | ok n =>
      rw [hcall] at hlt
      have hown₁ : OwnedTable { w with store := store } := hown
      obtain ⟨⟨r, w'⟩, hmove⟩ := moveEntry_defined hown₁ hfold' (hlt rfl)
      obtain ⟨rfl, -⟩ := moveEntry_view hown₁ hnew hfold' hmove
      have hreply := congrArg (Except.map fun out : ℤ × World => ((⟨out.1, []⟩ : Reply), out.2))
        hmove
      exact ⟨⟨0, []⟩, w', hreply, rfl⟩

/-- Every request that makes a call returns what its operation makes of the result. -/
theorem step_returned (hown : OwnedTable w) (hfit : CopiesFit w e)
    (hcall : delegated w e = some result) :
    ∃ r w', step w e = .ok (r, w') ∧ r.ret = returned e result := by
  obtain ⟨op, env⟩ := e
  cases op with
  | getattr p stbuf fi =>
    obtain ⟨hmeta, c, hfind, rfl⟩ := onMeta_eq_some hcall
    refine ⟨_, _, rfl, ?_⟩
    simp only [lGetattr, if_neg (chars_ne_root hmeta), hfind, hmeta, if_true]
    cases w.store.stat env.fault (realpath w.metadir p) <;> rfl
  | unlink p =>
    obtain ⟨hmeta, c, hfind, rfl⟩ := onMeta_eq_some hcall
    obtain ⟨heap, hfree⟩ := free_defined hown hfind
    simp only [step, lUnlink, hfind, hfree, hmeta, if_true]
    refine ⟨_, _, rfl, ?_⟩
    cases (w.store.unlink env.fault (realpath w.metadir p)).1 <;> rfl
  | truncate p length fi =>
    obtain ⟨hmeta, c, hfind, rfl⟩ := onMeta_eq_some hcall
    have hret : (lTruncate env p length w).1 = returned ⟨.truncate p length fi, env⟩
        (w.store.truncate env.fault (realpath w.metadir p) length.toInt).1 := by
      simp only [lTruncate, hfind, hmeta, if_true]
      cases (w.store.truncate env.fault (realpath w.metadir p) length.toInt).1 <;> rfl
    cases fi <;> exact ⟨_, _, rfl, hret⟩
  | «open» p fi =>
    obtain ⟨hmeta, c, hfind, rfl⟩ := onMeta_eq_some hcall
    refine ⟨_, _, rfl, ?_⟩
    simp only [lOpen, hfind, hmeta, if_true]
    cases hopen : w.store.openFile env.fault (realpath w.metadir p) false false 0 with
    | mk result store => cases result <;> rfl
  | read p size offset =>
    obtain ⟨hmeta, c, hfind, rfl⟩ := onMeta_eq_some hcall
    simp only [step, lRead, hfind, hmeta, if_true]
    cases w.store.pread env.fault env.limit c.value.realfd size.toNat offset.toInt <;>
      exact ⟨_, _, rfl, rfl⟩
  | write p buf size offset =>
    obtain ⟨hmeta, c, hfind, rfl⟩ := onMeta_eq_some hcall
    refine ⟨_, _, rfl, ?_⟩
    simp only [lWrite, hfind, hmeta, if_true]
    cases (w.store.pwrite env.fault env.limit c.value.realfd (buf.take size.toNat)
      offset.toInt).1 <;> rfl
  | release p =>
    obtain ⟨hmeta, c, hfind, rfl⟩ := onMeta_eq_some hcall
    refine ⟨_, _, rfl, ?_⟩
    simp only [lRelease, closeEntry, hfind, hmeta, if_true]
    cases (w.store.close env.fault c.value.realfd).1 <;> rfl
  | readdir p => cases hcall
  | create p mode fi =>
    simp only [delegated] at hcall
    split_ifs at hcall with hnew
    cases hcall
    exact create_returned (hfit p (if_pos hnew.1)) hnew.1 hnew.2
  | rename old new =>
    simp only [delegated] at hcall
    split_ifs at hcall with hmoves
    cases hcall
    obtain ⟨hnew, hold, hmold, hmnew⟩ := hmoves
    refine rename_returned hown hnew hold hmold hmnew (fun hok => ?_)
    exact hfit new (if_pos ⟨hnew, hold, hmold.trans hmnew.symm, fun _ => hok⟩)

end Steps

/-- A request on a meta file reports the result of its call to the real file
system exactly when it is one of those listed. -/
theorem errors_reported_iff {w : World} (hw : Reachable w) (e : Event) :
    Faithful w e ↔ ReportsWell w e := by
  have hown := reachable_owned hw
  constructor
  · intro h result hcall
    obtain ⟨r, w', hstep, hreports⟩ := h result hcall
    have hfit := fits_of_step hstep
    obtain ⟨r', v, hstep', hret⟩ := step_returned hown hfit hcall
    rw [hstep] at hstep'
    cases hstep'
    rw [hret] at hreports
    exact ⟨hfit, (reports_returned_iff e result).mp hreports⟩
  · intro h result hcall
    obtain ⟨hfit, hresult⟩ := h result hcall
    obtain ⟨r, w', hstep, hret⟩ := step_returned hown hfit hcall
    refine ⟨r, w', hstep, ?_⟩
    rw [hret]
    exact (reports_returned_iff e result).mpr hresult

/-- The real file is gone: its attributes are reported as not permitted. -/
theorem missing_file_misreported :
    let p : Path := ⟨ascii "a.mhash", by decide⟩
    ∃ w, Reachable w ∧ ¬ Faithful w ⟨.getattr p Env.quiet.realStat none,
      { Env.quiet with fault := some ENOENT }⟩ := by
  intro p
  let e : Event := ⟨.getattr p Env.quiet.realStat none, { Env.quiet with fault := some ENOENT }⟩
  let observe : World → Option (Except Errno ℕ) × Option ℤ :=
    fun w => (delegated w e, (step w e).toOption.map (fun out => out.1.ret))
  have hobserved : (run step (boot (ascii "/meta") (Store.empty _))
      [⟨.create p 0o644 ⟨O_CREAT, 0⟩, Env.quiet⟩]).map (fun out => observe out.2) =
      .ok (some (.error ENOENT), some (-1)) := by decide +kernel
  obtain ⟨rs, w, hrun, hout⟩ := run_observe (f := observe) hobserved
  obtain ⟨hcall, hreply⟩ := Prod.mk.inj hout
  refine ⟨w, ⟨_, _, _, _, hrun⟩, fun hfaithful => ?_⟩
  obtain ⟨r, w', hstep, hret⟩ := hfaithful _ hcall
  rw [hstep] at hreply
  have hminus : r.ret = -1 := by simpa [Except.toOption] using hreply
  rw [hminus] at hret
  revert hret
  simp [Reports, Errno.neg, ENOENT]

/-- An `open` of a file that is gone is reported as it should be. -/
theorem errors_reported_iff_open :
    let p : Path := ⟨ascii "a.mhash", by decide⟩
    let e : Event := ⟨.open p ⟨0, 0⟩, { Env.quiet with fault := some ENOENT }⟩
    ∃ w, Reachable w ∧ delegated w e = some (.error ENOENT) ∧ Faithful w e := by
  intro p e
  have hobserved : (run step (boot (ascii "/meta") (Store.empty _))
      [⟨.create p 0o644 ⟨O_CREAT, 0⟩, Env.quiet⟩]).map (fun out => delegated out.2 e) =
      .ok (some (.error ENOENT)) := by decide +kernel
  obtain ⟨rs, w, hrun, hcall⟩ := run_observe (f := fun w : World => delegated w e) hobserved
  have hw : Reachable w := ⟨_, _, _, _, hrun⟩
  refine ⟨w, hw, hcall, (errors_reported_iff hw e).mpr ?_⟩
  intro result hresult
  have hfit : CopiesFit w e := fun q hq => nomatch hq
  rw [hcall] at hresult
  cases hresult
  exact ⟨hfit, trivial⟩

end LazyFS.ErrorReports
