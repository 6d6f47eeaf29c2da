import LazyFS.SafeRuns

/-!
# Sizes of content files along a run

The size of a content file is what the requests on it say in order: nothing
at creation, the length of a truncation, the furthest end of a write. The
abstract directory of sizes knows nothing of entries, words or wrapping; the
table agrees with it after every run whose requests are safe and stay inside
`off_t`, and no write in such a run wraps.
-/

namespace LazyFS.SizeHistory

open MachineWords LinkedCells PathNames PosixStore FileOperations GuardedRun ServedRequests
  SafeRuns

/-- The content files of an abstract directory with their sizes. -/
abbrev Sizes := Path → Option ℤ

/-- Change the size of a file if it exists. -/
def Sizes.adjust (d : Sizes) (p : Path) (f : ℤ → ℤ) : Sizes := Function.update d p ((d p).map f)

/-- What a request does to the sizes of the content files. -/
def sizeStep (d : Sizes) : Op → Sizes
  | .create p _ fi =>
    if isMetaFile p = true ∨ (d p ≠ none ∧ (fi.has O_CREAT && fi.has O_EXCL) = true) then d
    else Function.update d p (some 0)
  | .open p fi => if fi.has O_TRUNC then d.adjust p (fun _ => 0) else d
  | .truncate p length _ => d.adjust p (fun _ => length.toInt)
  | .write p _ size offset => d.adjust p (fun s => max s (offset.toInt + size.toNat))
  | .rename old new =>
    if isMetaFile new = true ∨ d new ≠ none ∨ d old = none then d
    else Function.update (Function.update d new (d old)) old none
  | .unlink p => Function.update d p none
  | .getattr _ _ _ | .read _ _ _ | .release _ | .readdir _ => d

/-- Writes and truncations that stay inside `off_t`. -/
structure InRange (op : Op) : Prop where
  /-- A write is not empty and ends inside `off_t`. -/
  write : ∀ p buf size offset, op = .write p buf size offset →
    0 ≤ offset.toInt ∧ 1 ≤ size.toNat ∧ offset.toInt + size.toNat ≤ offMax
  /-- A truncation length is not negative. -/
  truncate : ∀ p length fi, op = .truncate p length fi → 0 ≤ length.toInt

/-- The comparison and the addition of `l_write` are those of the integers. -/
def NoWrap (w : World) (op : Op) : Prop :=
  ∀ p buf size offset f, op = .write p buf size offset → w.lookup p = some f →
    (f.size.toUInt64.toNat : ℤ) = f.size.toInt ∧
      ((offset.toUInt64 + size).toNat : ℤ) = offset.toInt + size.toNat

/-- The sizes of the content files in the table. -/
def contentSizes (v : View) : Sizes :=
  fun p => if isMetaFile p then none else (v.lookup p).map (fun f => f.size.toInt)

/-- The table agrees with the abstract directory and holds no negative size. -/
structure Agrees (v : View) (d : Sizes) : Prop where
  sizes : contentSizes v = d
  nonneg : ∀ p f, v.lookup p = some f → 0 ≤ f.size.toInt

/-- Rebinding a content path rebinds its size; meta paths have none. -/
theorem contentSizes_bind (v : View) (p : Path) (f : Option LFile) :
    contentSizes (v.bind p f) =
      if isMetaFile p then contentSizes v
      else Function.update (contentSizes v) p (f.map (fun f => f.size.toInt)) := by
  funext q
  by_cases hq : q = p
  · subst hq
    cases hmeta : isMetaFile q <;> simp [contentSizes, View.bind, hmeta]
  · cases hmeta : isMetaFile p <;> simp [contentSizes, View.bind, hq]

/-- The size of a content file is that of its entry. -/
theorem contentSizes_content {v : View} {p : Path} (h : isMetaFile p = false) :
    contentSizes v p = (v.lookup p).map (fun f => f.size.toInt) := by
  simp only [contentSizes, h, Bool.false_eq_true, if_false]

/-- A meta file has no such size. -/
theorem contentSizes_meta {v : View} {p : Path} (h : isMetaFile p = true) :
    contentSizes v p = none := by
  simp only [contentSizes, h, if_true]

/-- A request on a path that is absent, or is a meta file, adjusts nothing. -/
theorem adjust_none {d : Sizes} {p : Path} {f : ℤ → ℤ} (h : d p = none) : d.adjust p f = d := by
  simp only [Sizes.adjust, h, Option.map_none]
  exact Function.update_eq_self_iff.mpr h.symm

/-- The bound a write leaves is the larger of the old size and its end. -/
theorem grownSize_toInt {old offset : Int64} {size : UInt64} (hold : 0 ≤ old.toInt)
    (ho : 0 ≤ offset.toInt) (hend : offset.toInt + size.toNat ≤ offMax) :
    (grownSize old offset size).toInt = max old.toInt (offset.toInt + size.toNat) := by
  have hcmp := toUInt64_toNat hold
  have hsum := toNat_offset_add ho hend
  unfold grownSize
  split_ifs with hlt
  · rw [UInt64.lt_iff_toNat_lt] at hlt
    rw [toInt64_toInt (by omega), hsum]
    omega
  · rw [UInt64.lt_iff_toNat_lt] at hlt
    omega

/-- Binding a path to an entry of non-negative size keeps all sizes non-negative. -/
theorem nonneg_bind {v : View} (h : ∀ p f, v.lookup p = some f → 0 ≤ f.size.toInt) {p : Path}
    {f : Option LFile} (hf : ∀ a, f = some a → 0 ≤ a.size.toInt) :
    ∀ q a, (v.bind p f).lookup q = some a → 0 ≤ a.size.toInt := by
  intro q a hq
  by_cases hqp : q = p
  · subst hqp
    exact hf a (by simpa [View.bind] using hq)
  · exact h q a (by simpa [View.bind, hqp] using hq)

/-- Resizing a content file that exists is an adjustment. -/
theorem agrees_setSize {v : View} {d : Sizes} (hv : Agrees v d) {p : Path} {f : LFile}
    (hp : v.lookup p = some f) (hmeta : isMetaFile p = false) {size : Int64} {g : ℤ → ℤ}
    (hsize : size.toInt = g f.size.toInt) (hpos : 0 ≤ size.toInt) :
    Agrees (v.bind p (some (f.setSize size))) (d.adjust p g) := by
  refine ⟨?_, nonneg_bind hv.nonneg (by rintro a ⟨⟩; exact hpos)⟩
  rw [contentSizes_bind, ← hv.sizes, Sizes.adjust, contentSizes_content hmeta, hp]
  simp only [hmeta, Bool.false_eq_true, if_false, Option.map_some, LFile.setSize, hsize]

/-- What a meta path is bound to is not seen by the sizes. -/
theorem agrees_bind_meta {v : View} {d : Sizes} (hv : Agrees v d) {p : Path}
    (hmeta : isMetaFile p = true) {f : LFile} (hpos : 0 ≤ f.size.toInt) :
    Agrees (v.bind p (some f)) d := by
  refine ⟨?_, nonneg_bind hv.nonneg (by rintro a ⟨⟩; exact hpos)⟩
  rw [contentSizes_bind, if_pos hmeta, hv.sizes]

/-- A content path that is bound gets the size of its entry. -/
theorem agrees_insert {v : View} {d : Sizes} (hv : Agrees v d) {p : Path}
    (hmeta : isMetaFile p = false) {f : LFile} (hpos : 0 ≤ f.size.toInt) :
    Agrees (v.bind p (some f)) (Function.update d p (some f.size.toInt)) := by
  refine ⟨?_, nonneg_bind hv.nonneg (by rintro a ⟨⟩; exact hpos)⟩
  rw [contentSizes_bind, if_neg (by simp [hmeta]), hv.sizes, Option.map_some]

/-- Removing a path removes its size. -/
theorem agrees_remove {v : View} {d : Sizes} (hv : Agrees v d) (p : Path) :
    Agrees (v.bind p none) (Function.update d p none) := by
  refine ⟨?_, nonneg_bind hv.nonneg nofun⟩
  rw [contentSizes_bind, ← hv.sizes]
  split_ifs with hmeta
  · exact (Function.update_eq_self_iff.mpr (contentSizes_meta hmeta).symm).symm
  · rfl

/-- The store and the descriptors do not matter. -/
theorem agrees_withStore {v : View} {d : Sizes} (hv : Agrees v d) (store : Store (List UInt8)) :
    Agrees (v.withStore store) d := ⟨hv.sizes, hv.nonneg⟩

/-- Meta paths and paths that are absent have no size. -/
theorem agrees_none {v : View} {d : Sizes} (hv : Agrees v d) {p : Path}
    (h : isMetaFile p = true ∨ v.lookup p = none) : d p = none := by
  rw [← hv.sizes]
  rcases h with hmeta | hp
  · exact contentSizes_meta hmeta
  · simp [contentSizes, hp]

/-- Nor does a meta path have one to remove. -/
theorem agrees_remove_meta {v : View} {d : Sizes} (hv : Agrees v d) {p : Path}
    (hmeta : isMetaFile p = true) : Agrees (v.bind p none) d := by
  have hremoved := agrees_remove hv p
  rwa [Function.update_eq_self_iff.mpr (agrees_none hv (Or.inl hmeta)).symm] at hremoved

/-- A request on a path without a size changes no size. -/
theorem sizeStep_target {d : Sizes} {op : Op} {p : Path} (hop : target op = some p)
    (hd : d p = none) : sizeStep d op = d := by
  cases op <;> cases hop <;> simp only [sizeStep, adjust_none hd, ite_self]
  exact Function.update_eq_self_iff.mpr hd.symm

/-- A creation that is refused changes no size. -/
theorem sizeStep_exclusive {v : View} {d : Sizes} (hv : Agrees v d) {p : Path} {f : LFile}
    {mode : ℕ} {fi : FuseFileInfo} (hp : v.lookup p = some f)
    (hfi : (fi.has O_CREAT && fi.has O_EXCL) = true) : sizeStep d (.create p mode fi) = d := by
  cases hmeta : isMetaFile p with
  | true => simp only [sizeStep, hmeta, true_or, if_true]
  | false =>
    have hd : d p ≠ none := by
      rw [← hv.sizes, contentSizes_content hmeta, hp]
      simp
    simp only [sizeStep, hd, hfi, ne_eq, not_false_eq_true, and_self, or_true, if_true]

/-- A rename that is refused changes no size. -/
theorem sizeStep_renameRefused {v : View} {d : Sizes} (hv : Agrees v d) {old new : Path}
    (hwhy : v.lookup new ≠ none ∨ v.lookup old = none ∨ isMetaFile old ≠ isMetaFile new ∨
      isMetaFile old = true) : sizeStep d (.rename old new) = d := by
  simp only [sizeStep, ite_eq_left_iff, not_or, not_not]
  rintro ⟨hmnew, hnew, hold⟩
  exfalso
  have hmnew' := Bool.eq_false_of_not_eq_true hmnew
  rcases hwhy with hex | habs | hkind | hmeta
  · rw [← hv.sizes, contentSizes_content hmnew'] at hnew
    exact hex (Option.map_eq_none_iff.mp hnew)
  · exact hold (agrees_none hv (Or.inr habs))
  · rw [hmnew', ne_eq, Bool.not_eq_false] at hkind
    exact hold (agrees_none hv (Or.inl hkind))
  · exact hold (agrees_none hv (Or.inl hmeta))

/-- Every way a request in range can end keeps the agreement. -/
theorem served_agrees {metadir : List UInt8} {env : Env} {v v' : View} {op : Op} {r : Reply}
    {d : Sizes} (hv : Agrees v d) (hrange : InRange op)
    (h : Served metadir env v op r v') : Agrees v' (sizeStep d op) := by
  have hnone : ∀ p, (isMetaFile p = true ∨ v.lookup p = none) → d p = none :=
    fun _ hp => agrees_none hv hp
  cases h with
  | @absent op p hop hp =>
    rw [sizeStep_target hop (hnone p (Or.inr hp))]
    exact hv
  | @queried op r hop =>
    cases op <;> first | exact hv | cases hop
  | @unlinked p f hp => exact agrees_withStore (agrees_remove hv p) _
  | @resized p length fi f hp hmeta =>
    exact agrees_setSize hv hp hmeta rfl (hrange.truncate p length fi rfl)
  | @realTruncated p length fi f hp hmeta =>
    rw [sizeStep_target rfl (hnone p (Or.inl hmeta))]
    exact agrees_withStore hv _
  | @opened p fi f hp hmeta =>
    simp only [sizeStep]
    split_ifs
    · exact agrees_setSize hv hp hmeta rfl le_rfl
    · rw [View.bind_self hp]
      exact hv
  | @realOpened p fi f fd store hp hmeta hopen =>
    rw [sizeStep_target rfl (hnone p (Or.inl hmeta))]
    have hpos : 0 ≤ (f.setRealfd fd).size.toInt := hv.nonneg p f hp
    exact agrees_withStore (agrees_bind_meta hv hmeta hpos) store
  | @openFailed p fi f e hp hmeta =>
    rw [sizeStep_target rfl (hnone p (Or.inl hmeta))]
    exact hv
  | @written p buf size offset f hp hmeta =>
    obtain ⟨ho, -, hend⟩ := hrange.write p buf size offset rfl
    have hgrown := grownSize_toInt (hv.nonneg p f hp) ho hend
    have hold := hv.nonneg p f hp
    exact agrees_setSize hv hp hmeta hgrown (by omega)
  | @realWritten p buf size offset f r hp hmeta =>
    rw [sizeStep_target rfl (hnone p (Or.inl hmeta))]
    exact agrees_withStore hv _
  | released => exact hv
  | realReleased => exact ⟨hv.sizes, hv.nonneg⟩
  | exclusive hp hfi =>
    rw [sizeStep_exclusive hv hp hfi]
    exact hv
  | @recreated p mode fi f hp hfi =>
    refine ⟨?_, nonneg_bind hv.nonneg (by rintro a ⟨⟩; exact le_rfl)⟩
    rw [contentSizes_bind, hv.sizes]
    simp only [sizeStep, hfi, Bool.false_eq_true, and_false, or_false]
    rfl
  | @created p mode fi f hp hmeta hf =>
    have hd := hnone p (Or.inr hp)
    have hzero : f.size.toInt = 0 := by
      rw [hf.size]
      rfl
    have hbound := agrees_insert hv hmeta hzero.ge
    rw [hzero] at hbound
    simpa only [sizeStep, hmeta, hd, ne_eq, not_true_eq_false, false_and, Bool.false_eq_true,
      or_self, if_false] using hbound
  | @realCreated p mode fi f fd store hp hmeta hopen hf =>
    have hpos : 0 ≤ f.size.toInt := by
      rw [hf.size]
      exact le_rfl
    simp only [sizeStep, hmeta, true_or, if_true]
    exact agrees_withStore (agrees_bind_meta hv hmeta hpos) store
  | @createFailed p mode fi e hp hmeta hopen =>
    simp only [sizeStep, hmeta, true_or, if_true]
    exact hv
  | renameRefused hwhy =>
    rw [sizeStep_renameRefused hv hwhy]
    exact hv
  | @renamed old new f f' hnew hold hmold hmnew hf =>
    have hdnew := hnone new (Or.inr hnew)
    have hdold : d old = some f.size.toInt := by
      rw [← hv.sizes, contentSizes_content hmold, hold, Option.map_some]
    have hpos : 0 ≤ f'.size.toInt := by
      rw [hf.size]
      exact hv.nonneg old f hold
    have hmoved := agrees_remove (agrees_insert hv hmnew hpos) old
    rw [hf.size, ← hdold] at hmoved
    have hgoes : ¬ (isMetaFile new = true ∨ d new ≠ none ∨ d old = none) := by
      simp [hmnew, hdnew, hdold]
    rwa [sizeStep, if_neg hgoes]
  | @realRenamed old new f f' n store hnew hold hmold hmnew hcall hf =>
    have hpos : 0 ≤ f'.size.toInt := by
      rw [hf.size]
      exact hv.nonneg old f hold
    have hbound := agrees_remove_meta (agrees_bind_meta hv hmnew hpos) hmold
    simp only [sizeStep, hmnew, true_or, if_true]
    exact agrees_withStore hbound store

/-- What `l_getattr` reports of a content file is the size in its entry. -/
theorem lGetattr_size (env : Env) (st : Stat) {p : Path} {w : World} {f : LFile}
    (hroot : p.chars ≠ [slash]) (hp : w.lookup p = some f) (hmeta : isMetaFile p = false) :
    (lGetattr env p st w).1 = 0 ∧ (lGetattr env p st w).2.st_size = f.size := by
  obtain ⟨c, hfind, rfl⟩ := find_of_lookup hp
  have hfind' : w.find p = some c := hfind
  simp only [lGetattr, if_neg hroot, hfind', hmeta, Bool.false_eq_true, if_false, and_self]

/-- A run of these requests returns, none of its writes wraps, and afterwards
the reported size of every content file is the fold of the requests. -/
def SizeLaw (metadir : List UInt8) (store : Store (List UInt8)) (es : List Event) : Prop :=
  Always step (fun w e => NoWrap w e.op) (boot metadir store) es ∧
    ∃ rs w, run step (boot metadir store) es = .ok (rs, w) ∧
      ∀ p f, isMetaFile p = false → p.chars ≠ [slash] → w.lookup p = some f →
        ∀ env st, (lGetattr env p st w).1 = 0 ∧
          some (lGetattr env p st w).2.st_size.toInt =
            (es.map Event.op).foldl sizeStep (fun _ => none) p ∧
          0 ≤ (lGetattr env p st w).2.st_size.toInt

/-- The law holds for every run of safe requests in range. -/
theorem st_size_eq_history (metadir : List UInt8) (store : Store (List UInt8)) (es : List Event)
    (hes : Always step (fun w e => Safe w e ∧ InRange e.op) (boot metadir store) es) :
    SizeLaw metadir store es := by
  have hinit : Agrees (view (boot metadir store)) (fun _ => none) := by
    constructor
    · funext p
      cases hmeta : isMetaFile p <;>
        simp [contentSizes, view, boot, World.lookup, lookup, find, hmeta]
    · intro p f hp
      cases hp
  have hown := boot_owned metadir store
  have hguard : Guarded step (fun d (e : Event) _ => sizeStep d e.op)
      (fun w _ e => Safe w e ∧ InRange e.op) (boot metadir store) (fun _ => none) es :=
    guarded_of_always hes
  have hserved : ∀ u d (e : Event) r v, OwnedTable u → Agrees (view u) d →
      Safe u e ∧ InRange e.op → Served u.metadir e.env (view u) e.op r v →
        Agrees v (sizeStep d e.op) :=
    fun _ _ _ _ _ _ hv hg hs => served_agrees hv hg.2 hs
  constructor
  · refine always_of_guarded (safe_guarded_rule (R := fun _ v d => Agrees v d) hserved ?_ hown
      hinit hguard)
    rintro u d e - hv ⟨-, hrange⟩ p buf size offset f hop hp
    obtain ⟨ho, -, hend⟩ := hrange.write p buf size offset hop
    exact ⟨toUInt64_toNat (hv.nonneg p f hp), toNat_offset_add ho hend⟩
  · obtain ⟨rs, w, hrun, -, -, hagree⟩ := safe_run_rule (R := fun _ v d => Agrees v d)
      (fun _ _ _ hg => hg.1) hserved hown hinit hguard
    refine ⟨rs, w, hrun, ?_⟩
    intro p f hmeta hroot hp env st
    obtain ⟨hret, hsize⟩ := lGetattr_size env st hroot hp hmeta
    rw [follow_eq_foldl hrun] at hagree
    have hfold := congrFun hagree.sizes p
    have hp' : (view w).lookup p = some f := hp
    rw [contentSizes_content hmeta, hp', Option.map_some] at hfold
    rw [hsize, List.foldl_map]
    exact ⟨hret, hfold, hagree.nonneg p f hp⟩

/-- A name too long for the path field ends the run in undefined behaviour. -/
theorem sizeLaw_fails_for_long_name :
    ¬ SizeLaw (ascii "/meta") (Store.empty _)
      [⟨.create ⟨List.replicate 60 97, by decide⟩ 0o644 ⟨O_CREAT, 0⟩, Env.quiet⟩] := by
  rintro ⟨-, rs, w, hrun, -⟩
  cases hrun

/-- The law on a run of every kind of request that changes a size. -/
theorem st_size_eq_history_deadbeef :
    let name : Path := ⟨ascii "deadbeef_8_1", by decide⟩
    let moved : Path := ⟨ascii "moved", by decide⟩
    SizeLaw (ascii "/meta") (Store.empty _)
      [⟨.create name 0o644 ⟨O_CREAT, 0⟩, Env.quiet⟩, ⟨.write name (ascii "ab") 2 6, Env.quiet⟩,
        ⟨.rename name moved, Env.quiet⟩, ⟨.truncate moved 3 none, Env.quiet⟩] := by
  intro name moved
  refine st_size_eq_history _ _ _ (guarded_and (P := fun w _ e => Safe w e) ?_
    (guarded_of_forall ?_))
  · decide +kernel
  · simp only [List.forall_mem_cons, List.not_mem_nil, false_implies, implies_true, and_true]
    refine ⟨⟨?_, ?_⟩, ⟨?_, ?_⟩, ⟨?_, ?_⟩, ⟨?_, ?_⟩⟩
    · rintro _ _ _ _ ⟨⟩
    · rintro _ _ _ ⟨⟩
    · rintro _ _ _ _ ⟨⟩
      decide
    · rintro _ _ _ ⟨⟩
    · rintro _ _ _ _ ⟨⟩
    · rintro _ _ _ ⟨⟩
    · rintro _ _ _ _ ⟨⟩
    · rintro _ _ _ ⟨⟩
      decide

end LazyFS.SizeHistory
