import LazyFS.SafeRuns

/-!
# What a failed request leaves behind

A request that returns a negative value should leave the table as it was. All
operations but three do. A removal drops its entry even when the real file
could not be removed, where a rename asks the real store first. A creation
returns its file handle, and a write the number of bytes, as an `int`, so that
a large value of either reads as a failure of a request that was carried out.
-/

namespace LazyFS.FailedRequests

open MachineWords LinkedCells PathNames PosixStore FileOperations GuardedRun ServedRequests
  SafeRuns

/-- The requests that leave the table as it was if they return a negative
value. Only a removal, a creation and a write can do otherwise. -/
def KeepsTable (w : World) (e : Event) : Prop :=
  match e.op with
  | .unlink p =>
    isMetaFile p = false ∨ w.lookup p = none ∨
      (e.env.fault = none ∧ w.store.names (realpath w.metadir p) ≠ none)
  | .create p _ fi =>
    0 ≤ cInt fi.fh ∨
      (∃ f, w.lookup p = some f ∧ ((fi.has O_CREAT && fi.has O_EXCL) = true ∨ f.size = 0)) ∨
      (w.lookup p = none ∧ isMetaFile p = true ∧ e.env.fault ≠ none)
  | .write p _ size offset =>
    0 ≤ cInt size ∨ isMetaFile p = true ∨
      ∀ f, w.lookup p = some f → offset.toUInt64 + size ≤ f.size.toUInt64
  | _ => True

/-- A failure leaves the table as it was. -/
def LeavesTable (v v' : View) (r : Reply) : Prop := r.ret < 0 → v'.lookup = v.lookup

/-- A path rebound to something else is seen in the table. -/
theorem bind_lookup_eq_iff (v : View) (p : Path) (f : Option LFile) :
    (v.bind p f).lookup = v.lookup ↔ v.lookup p = f := by
  simp only [View.bind, Function.update_eq_self_iff]
  exact eq_comm

/-- A new path is. -/
theorem bind_lookup_ne (v : View) {p : Path} (hp : v.lookup p = none) (f : LFile) :
    (v.bind p (some f)).lookup ≠ v.lookup := by
  rw [ne_eq, bind_lookup_eq_iff, hp]
  exact (Option.some_ne_none f).symm

/-- A request leaves the table if it does not fail or changes nothing. -/
theorem leavesTable_iff {v v' : View} {r : Reply} :
    LeavesTable v v' r ↔ 0 ≤ r.ret ∨ v'.lookup = v.lookup := by
  rw [LeavesTable, ← not_lt, imp_iff_not_or]

/-- A request that returns no negative value promises nothing. -/
theorem leavesTable_of_nonneg {v v' : View} {r : Reply} (h : 0 ≤ r.ret) : LeavesTable v v' r :=
  leavesTable_iff.mpr (Or.inl h)

/-- The result of a real `unlink` is negative exactly when it failed. -/
theorem unlink_result_nonneg (s : Store (List UInt8)) (fault : Option Errno) (name : List UInt8) :
    0 ≤ rawResult (s.unlink fault name).1 ↔ fault = none ∧ s.names name ≠ none := by
  cases hcall : s.unlink fault name with
  | mk result store =>
    rcases Store.unlink_cases hcall with ⟨e, rfl, -⟩ | ⟨rfl, -, hfault, hname⟩
    · unfold Store.unlink at hcall
      cases fault with
      | some e => simp [rawResult]
      | none =>
        cases hname : s.names name with
        | none => simp [rawResult]
        | some i => simp [hname] at hcall
    · simp [rawResult, hfault, hname]

/-- A write that does not grow the file leaves its size. -/
theorem grownSize_eq_iff {old offset : Int64} {size : UInt64} :
    grownSize old offset size = old ↔ offset.toUInt64 + size ≤ old.toUInt64 := by
  unfold grownSize
  rw [UInt64.le_iff_toNat_le]
  split_ifs with hlt <;> rw [UInt64.lt_iff_toNat_lt] at hlt
  · constructor
    · intro h
      have hword : old.toUInt64 = offset.toUInt64 + size := by
        rw [← h]
        rfl
      exact le_of_eq (congrArg UInt64.toNat hword).symm
    · intro h
      omega
  · simp only [true_iff]
    omega

/-- Setting a size is seen unless it is the old one. -/
theorem setSize_eq_iff {f : LFile} {size : Int64} : f.setSize size = f ↔ size = f.size := by
  cases f
  simp [LFile.setSize]

/-- Every way a request can end leaves the table after a failure exactly when
the request is one of those listed. -/
theorem served_leaves_iff {w : World} {v' : View} {e : Event} {r : Reply}
    (h : Served w.metadir e.env (view w) e.op r v') :
    LeavesTable (view w) v' r ↔ KeepsTable w e := by
  obtain ⟨op, env⟩ := e
  change Served w.metadir env (view w) op r v' at h
  have hrefl : ∀ r, LeavesTable (view w) (view w) r := fun _ _ => rfl
  cases h with
  | @absent op p hop hp =>
    have hp' : w.lookup p = none := hp
    refine iff_of_true (hrefl _) ?_
    cases op <;> cases hop <;> simp [KeepsTable, hp']
  | @queried op r hop =>
    refine iff_of_true (hrefl r) ?_
    cases op <;> trivial
  | @unlinked p f hp =>
    have hp' : w.lookup p = some f := hp
    have hgone : ¬ ((view w).bind p none).lookup = (view w).lookup := by
      rw [bind_lookup_eq_iff, hp]
      exact Option.some_ne_none f
    cases hmeta : isMetaFile p with
    | false => exact iff_of_true (leavesTable_of_nonneg (by simp)) (Or.inl hmeta)
    | true =>
      have hresult := unlink_result_nonneg w.store env.fault (realpath w.metadir p)
      simp only [KeepsTable, hmeta, hp', reduceCtorEq, Bool.true_eq_false, false_or, ← hresult]
      rw [leavesTable_iff]
      exact or_iff_left hgone
  | resized => exact iff_of_true (leavesTable_of_nonneg le_rfl) trivial
  | realTruncated => exact iff_of_true (fun _ => rfl) trivial
  | opened => exact iff_of_true (leavesTable_of_nonneg le_rfl) trivial
  | realOpened => exact iff_of_true (leavesTable_of_nonneg le_rfl) trivial
  | openFailed => exact iff_of_true (hrefl _) trivial
  | @written p buf size offset f hp hmeta =>
    have hp' : w.lookup p = some f := hp
    have hsame : ((view w).bind p (some (f.setSize (grownSize f.size offset size)))).lookup =
        (view w).lookup ↔ offset.toUInt64 + size ≤ f.size.toUInt64 := by
      rw [bind_lookup_eq_iff, hp, Option.some.injEq, eq_comm, setSize_eq_iff, grownSize_eq_iff]
    simp only [leavesTable_iff, KeepsTable, hsame, hmeta, hp', Bool.false_eq_true, false_or,
      Option.some.injEq, forall_eq']
  | realWritten hp hmeta => exact iff_of_true (fun _ => rfl) (Or.inr (Or.inl hmeta))
  | released => exact iff_of_true (hrefl _) trivial
  | realReleased => exact iff_of_true (fun _ => rfl) trivial
  | exclusive hp hfi =>
    exact iff_of_true (hrefl _) (Or.inr (Or.inl ⟨_, hp, Or.inl hfi⟩))
  | @recreated p mode fi f hp hfi =>
    have hp' : w.lookup p = some f := hp
    have hsame : ((view w).bind p (some (f.setSize 0))).lookup = (view w).lookup ↔ f.size = 0 := by
      rw [bind_lookup_eq_iff, hp, Option.some.injEq, eq_comm, setSize_eq_iff, eq_comm]
    simp only [leavesTable_iff, KeepsTable, hsame, hfi, hp', Bool.false_eq_true, false_or,
      Option.some.injEq, exists_eq_left', reduceCtorEq, false_and, or_false]
  | @created p mode fi f hp hmeta hf =>
    have hp' : w.lookup p = none := hp
    have hseen := bind_lookup_ne (view w) hp f
    simp only [leavesTable_iff, KeepsTable, hseen, hmeta, hp', reduceCtorEq, Bool.false_eq_true,
      false_and, and_false, exists_false, or_false]
  | @realCreated p mode fi f fd store hp hmeta hopen hf =>
    have hp' : w.lookup p = none := hp
    have hfault : env.fault = none := by
      by_contra hne
      obtain ⟨e, he⟩ := (w.store.openFile_creat env.fault (realpath w.metadir p) true mode).mpr hne
      have hok : w.store.openFile env.fault (realpath w.metadir p) true true mode =
        (.ok fd, store) := hopen
      rw [hok] at he
      cases he
    have hseen : (((view w).bind p (some f)).withStore store).lookup ≠ (view w).lookup :=
      bind_lookup_ne (view w) hp f
    simp only [leavesTable_iff, KeepsTable, hseen, hfault, hp', reduceCtorEq, ne_eq,
      not_true_eq_false, false_and, and_false, exists_false, or_false]
  | @createFailed p mode fi e hp hmeta hopen =>
    have hfault : env.fault ≠ none := (w.store.openFile_creat _ _ _ _).mp ⟨e, hopen⟩
    exact iff_of_true (hrefl _) (Or.inr (Or.inr ⟨hp, hmeta, hfault⟩))
  | renameRefused => exact iff_of_true (hrefl _) trivial
  | renamed => exact iff_of_true (leavesTable_of_nonneg le_rfl) trivial
  | realRenamed => exact iff_of_true (leavesTable_of_nonneg le_rfl) trivial

/-- In every reachable state, a request that returns a negative value leaves
the table as it was exactly when it is one of those listed. -/
theorem failure_leaves_table_iff {w w' : World} {e : Event} {r : Reply} (hw : Reachable w)
    (h : step w e = .ok (r, w')) :
    (r.ret < 0 → w'.lookup = w.lookup) ↔ KeepsTable w e :=
  served_leaves_iff (step_refines (reachable_owned hw) h).served

/-- A meta file that was just created, and a removal whose real `unlink` fails. -/
theorem unlink_fault_run :
    let p : Path := ⟨ascii "a.mhash", by decide⟩
    ∃ w w' r, Reachable w ∧
      step w ⟨.unlink p, { Env.quiet with fault := some EBADF }⟩ = .ok (r, w') ∧
      r.ret = -1 ∧ (w'.lookup p).isSome = false ∧ (w.lookup p).isSome = true := by
  intro p
  have hobserved : (run step (boot (ascii "/meta") (Store.empty _))
      [⟨.create p 0o644 ⟨O_CREAT, 0⟩, Env.quiet⟩]).map (fun out =>
        ((step out.2 ⟨.unlink p, { Env.quiet with fault := some EBADF }⟩).toOption.map
          (fun out' => (out'.1.ret, (out'.2.lookup p).isSome, (out.2.lookup p).isSome)))) =
      .ok (some (-1, false, true)) := by
    decide +kernel
  obtain ⟨rs, w, hrun, hout⟩ := run_observe (f := fun w =>
    ((step w ⟨.unlink p, { Env.quiet with fault := some EBADF }⟩).toOption.map
      (fun out => (out.1.ret, (out.2.lookup p).isSome, (w.lookup p).isSome)))) hobserved
  cases hstep : step w ⟨.unlink p, { Env.quiet with fault := some EBADF }⟩ with
  | error u => simp [hstep, Except.toOption] at hout
  | ok out =>
    simp only [hstep, Except.toOption, Option.map_some, Option.some.injEq, Prod.mk.injEq] at hout
    exact ⟨w, out.2, out.1, ⟨_, _, _, _, hrun⟩, hstep, hout⟩

/-- A removal that fails in the real store drops its entry all the same. -/
theorem failed_unlink_drops_entry :
    ¬ ∀ (w w' : World) (e : Event) (r : Reply), Reachable w → step w e = .ok (r, w') →
      r.ret < 0 → w'.lookup = w.lookup := by
  intro hall
  obtain ⟨w, w', r, hw, hstep, hret, hgone, hthere⟩ := unlink_fault_run
  have hsame := hall w w' _ r hw hstep (by omega)
  rw [hsame, hthere] at hgone
  cases hgone

/-- The equivalence at that removal, which is not one of those listed. -/
theorem failure_leaves_table_iff_unlink :
    let e : Event := ⟨.unlink ⟨ascii "a.mhash", by decide⟩, { Env.quiet with fault := some EBADF }⟩
    ∃ w w' r, step w e = .ok (r, w') ∧ ((r.ret < 0 → w'.lookup = w.lookup) ↔ KeepsTable w e) := by
  intro e
  obtain ⟨w, w', r, hw, hstep, -⟩ := unlink_fault_run
  exact ⟨w, w', r, hstep, failure_leaves_table_iff hw hstep⟩

end LazyFS.FailedRequests
