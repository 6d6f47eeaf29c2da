import LazyFS.ContentReads
import LazyFS.ServedRequests

/-!
# Runs from a fresh mount

A request is safe when the path it copies fits the path field and a read of a
content file fits an `int`. Safe requests never run into undefined behaviour:
copies stay in bounds, the read loop does not overflow, and every block that
is freed was allocated and is freed once. Both unchecked bounds are needed.
-/

namespace LazyFS.SafeRuns

open MachineWords LinkedCells PathNames PosixStore FileOperations ContentReads GuardedRun
  ServedRequests

/-- The path that a request copies into an entry: a creation does so when it
finds none, and a rename when nothing stops it. -/
def copied (metadir : List UInt8) (env : Env) (v : View) : Op → Option Path
  | .create path _ _ => if v.lookup path = none then some path else none
  | .rename old new =>
    if v.lookup new = none ∧ v.lookup old ≠ none ∧ isMetaFile old = isMetaFile new ∧
        (isMetaFile old = true →
          (v.store.rename env.fault (realpath metadir old) (realpath metadir new)).1.isOk = true)
    then some new else none
  | _ => none

/-- The length and the offset of a request that reads a content file. -/
def contentRead (v : View) : Op → Option (UInt64 × Int64)
  | .read path size offset =>
    if isMetaFile path = false ∧ v.lookup path ≠ none then some (size, offset) else none
  | _ => none

/-- The bounds that the operations do not check. -/
structure Safe (w : World) (e : Event) : Prop where
  /-- A path that is copied fits the path field. -/
  fits : ∀ p ∈ copied w.metadir e.env (view w) e.op, p.strlen < MAXPATHLEN
  /-- A read of a content file has an `int` length and a non-negative offset. -/
  reads : ∀ q ∈ contentRead (view w) e.op, q.1.toNat ≤ intMax ∧ 0 ≤ q.2.toInt

/-- Whether a request is safe is computed. -/
instance (w : World) (e : Event) : Decidable (Safe w e) :=
  -- The search would otherwise enumerate all lengths and offsets.
  have : Decidable (∀ p ∈ copied w.metadir e.env (view w) e.op, p.strlen < MAXPATHLEN) :=
    Option.decidableForallMem _
  have : Decidable (∀ q ∈ contentRead (view w) e.op, q.1.toNat ≤ intMax ∧ 0 ≤ q.2.toInt) :=
    Option.decidableForallMem _
  decidable_of_iff ((∀ p ∈ copied w.metadir e.env (view w) e.op, p.strlen < MAXPATHLEN) ∧
      ∀ q ∈ contentRead (view w) e.op, q.1.toNat ≤ intMax ∧ 0 ≤ q.2.toInt)
    ⟨fun h => ⟨h.1, h.2⟩, fun h => ⟨h.fits, h.reads⟩⟩

/-- A state some run from a fresh mount reaches. -/
def Reachable (w : World) : Prop :=
  ∃ metadir store es rs, run step (boot metadir store) es = .ok (rs, w)

/-- A request keeps the cells owned. -/
theorem step_owned {w w' : World} {e : Event} {r : Reply} (hown : OwnedTable w)
    (h : step w e = .ok (r, w')) : OwnedTable w' := (step_refines hown h).owned

/-- Every run keeps its table owned. -/
theorem run_owned {w w' : World} {es : List Event} {rs : List Reply} (hown : OwnedTable w)
    (h : run step w es = .ok (rs, w')) : OwnedTable w' :=
  run_invariant (fun _ _ _ _ hI hs => step_owned hI hs) hown h

/-- In every reachable state the cells are owned. -/
theorem reachable_owned {w : World} (h : Reachable w) : OwnedTable w := by
  obtain ⟨metadir, store, es, rs, hrun⟩ := h
  exact run_owned (boot_owned metadir store) hrun

/-- The real directory is the one given at mount time. -/
theorem run_metadir {w w' : World} {es : List Event} {rs : List Reply} (hown : OwnedTable w)
    (h : run step w es = .ok (rs, w')) : w'.metadir = w.metadir := by
  have hboth : OwnedTable w' ∧ w'.metadir = w.metadir := by
    refine run_invariant (I := fun u => OwnedTable u ∧ u.metadir = w.metadir) ?_ ⟨hown, rfl⟩ h
    intro s e r t hI hs
    have href := step_refines hI.1 hs
    exact ⟨href.owned, href.metadir.trans hI.2⟩
  exact hboth.2

section Definedness

variable {w : World} {env : Env} {p : Path}

/-- The block of an entry that is found can be freed. -/
theorem free_defined (hown : OwnedTable w) {c : Cell LFile} (h : w.find p = some c) :
    ∃ heap, w.heap.free c.block = .ok heap := by
  obtain ⟨heap, hfree, -⟩ := Heap.free_of_mem (hown.live c (find_mem h))
  exact ⟨heap, hfree⟩

/-- `l_unlink` is always defined. -/
theorem lUnlink_defined (hown : OwnedTable w) : ∃ out, lUnlink env p w = .ok out := by
  unfold lUnlink
  cases hfind : w.find p with
  | none => exact ⟨_, rfl⟩
  | some c =>
    obtain ⟨heap, hfree⟩ := free_defined hown hfind
    simp only [hfree]
    exact ⟨_, rfl⟩

/-- `l_read` is defined for a length of an `int` and an offset that is not negative. -/
theorem lRead_defined {size : UInt64} {offset : Int64}
    (h : isMetaFile p = false → w.lookup p ≠ none → size.toNat ≤ intMax ∧ 0 ≤ offset.toInt) :
    ∃ out, lRead env p size offset w = .ok out := by
  cases hfind : w.find p with
  | none => exact ⟨(Errno.neg ENOENT, []), by simp only [lRead, hfind]⟩
  | some c =>
    have hp := lookup_eq_of_find hfind
    cases hmeta : isMetaFile p with
    | false =>
      obtain ⟨hsize, ho⟩ := h hmeta (by simp [hp])
      exact ⟨_, lRead_content hp hmeta hsize ho⟩
    | true =>
      simp only [lRead, hfind, hmeta, if_true]
      split <;> exact ⟨_, rfl⟩

/-- `l_create` is defined when the path fits its entry. -/
theorem lCreate_defined {mode : ℕ} {fi : FuseFileInfo}
    (h : w.lookup p = none → p.strlen < MAXPATHLEN) :
    ∃ out, lCreate env p mode fi w = .ok out := by
  unfold lCreate
  cases hfind : w.find p with
  | some c =>
    dsimp only
    split_ifs <;> exact ⟨_, rfl⟩
  | none =>
    have hlt := h (lookup_eq_none_of_find hfind)
    simp only [strcpyPath_of_lt hlt, bind, Except.bind, pure, Except.pure]
    split_ifs
    · split <;> exact ⟨_, rfl⟩
    · exact ⟨_, rfl⟩

/-- An entry moves when the new path fits. -/
theorem moveEntry_defined (hown : OwnedTable w) {c : Cell LFile} {old new : Path}
    (hold : w.find old = some c) (h : new.strlen < MAXPATHLEN) :
    ∃ out, moveEntry c new w = .ok out := by
  have hlive : c.block ∈ w.heap.malloc.2.live :=
    Finset.mem_insert_of_mem (hown.live c (find_mem hold))
  obtain ⟨heap, hfree, -⟩ := Heap.free_of_mem hlive
  simp only [moveEntry, strcpyPath_of_lt h, bind, Except.bind, hfree, pure, Except.pure]
  exact ⟨_, rfl⟩

/-- Two paths of which neither alone is a meta path are of the same kind. -/
theorem sameKind : ∀ {a b : Bool}, ¬ (a && !b || b && !a) = true → a = b := by decide

/-- `l_rename` is defined when the paths that it copies fit. -/
theorem lRename_defined (hown : OwnedTable w) {old new : Path}
    (h : ∀ q ∈ copied w.metadir env (view w) (.rename old new), q.strlen < MAXPATHLEN) :
    ∃ out, lRename env old new w = .ok out := by
  unfold lRename
  cases hnew : w.find new with
  | some c => exact ⟨_, rfl⟩
  | none =>
    cases hold : w.find old with
    | none => exact ⟨_, rfl⟩
    | some c =>
      have hfits : isMetaFile old = isMetaFile new → (isMetaFile old = true →
          (w.store.rename env.fault (realpath w.metadir old)
            (realpath w.metadir new)).1.isOk = true) → new.strlen < MAXPATHLEN := by
        intro hkind hok
        have hlookup : (view w).lookup old ≠ none := by
          rw [show (view w).lookup old = _ from lookup_eq_of_find hold]
          exact Option.some_ne_none _
        exact h new (if_pos ⟨lookup_eq_none_of_find hnew, hlookup, hkind, hok⟩)
      dsimp only
      split_ifs with hmixed hboth
      · exact ⟨_, rfl⟩
      · have hkind := sameKind hmixed
        split
        · exact ⟨_, rfl⟩
        · next n store hcall =>
          have hlt := hfits hkind (fun _ => by rw [hcall]; rfl)
          have hown₁ : OwnedTable { w with store := store } := hown
          exact moveEntry_defined hown₁ hold hlt
      · have hkind := sameKind hmixed
        have hcontent : isMetaFile old = true → False := fun hm =>
          hboth (by rw [← hkind, hm]; rfl)
        exact moveEntry_defined hown hold (hfits hkind (fun hm => (hcontent hm).elim))

end Definedness

/-- What is defined stays so under a function. -/
theorem Except.map_defined {χ α β : Type} {x : Except χ α} {f : α → β} (h : ∃ a, x = .ok a) :
    ∃ b, x.map f = .ok b := by
  obtain ⟨a, rfl⟩ := h
  exact ⟨f a, rfl⟩

/-- A safe request is served. -/
theorem step_defined {w : World} {e : Event} (hown : OwnedTable w) (hsafe : Safe w e) :
    ∃ r w', step w e = .ok (r, w') := by
  have hout : ∃ out, step w e = .ok out := by
    obtain ⟨op, env⟩ := e
    cases op with
    | getattr p stbuf fi => exact ⟨_, rfl⟩
    | unlink p => exact Except.map_defined (lUnlink_defined hown)
    | truncate p length fi => cases fi <;> exact ⟨_, rfl⟩
    | «open» p fi => exact ⟨_, rfl⟩
    | read p size offset =>
      refine Except.map_defined (lRead_defined fun hmeta hp => ?_)
      exact hsafe.reads (size, offset) (if_pos ⟨hmeta, hp⟩)
    | write p buf size offset => exact ⟨_, rfl⟩
    | release p => exact ⟨_, rfl⟩
    | readdir p => exact ⟨_, rfl⟩
    | create p mode fi =>
      exact Except.map_defined (lCreate_defined fun hp => hsafe.fits p (if_pos hp))
    | rename old new => exact Except.map_defined (lRename_defined hown hsafe.fits)
  obtain ⟨⟨r, w'⟩, hout⟩ := hout
  exact ⟨r, w', hout⟩

section Rules

variable {γ : Type} {track : γ → Event → Reply → γ} {guard : World → γ → Event → Prop}
  {g : γ} {w : World} {es : List Event}

/-- A relation kept by every way a request can end is kept by every step. -/
theorem served_step {R : List UInt8 → View → γ → Prop}
    (hserved : ∀ u g e r v, OwnedTable u → R u.metadir (view u) g → guard u g e →
      Served u.metadir e.env (view u) e.op r v → R u.metadir v (track g e r)) :
    ∀ u g e r t, OwnedTable u ∧ R u.metadir (view u) g → guard u g e →
      step u e = .ok (r, t) → OwnedTable t ∧ R t.metadir (view t) (track g e r) := by
  intro u g e r t hK hg hs
  have href := step_refines hK.1 hs
  exact ⟨href.owned, href.metadir.symm ▸ hserved u g e r (view t) hK.1 hK.2 hg href.served⟩

/-- A relation on the view that every guarded request keeps, guarded requests
being safe, holds where a guarded run ends, and such a run does end. -/
theorem safe_run_rule {R : List UInt8 → View → γ → Prop}
    (hsafe : ∀ u g e, guard u g e → Safe u e)
    (hserved : ∀ u g e r v, OwnedTable u → R u.metadir (view u) g → guard u g e →
      Served u.metadir e.env (view u) e.op r v → R u.metadir v (track g e r))
    (hown : OwnedTable w) (hinit : R w.metadir (view w) g)
    (hguard : Guarded step track guard w g es) :
    ∃ rs w', run step w es = .ok (rs, w') ∧ OwnedTable w' ∧ w'.metadir = w.metadir ∧
      R w'.metadir (view w') (follow track g es rs) := by
  have hstep := served_step hserved
  have htotal : ∀ u g e, OwnedTable u ∧ R u.metadir (view u) g → guard u g e →
      ∃ r t, step u e = .ok (r, t) := fun u g e hK hg => step_defined hK.1 (hsafe u g e hg)
  obtain ⟨rs, w', hrun⟩ := run_total hstep htotal ⟨hown, hinit⟩ hguard
  obtain ⟨hown', hR⟩ := run_rule hstep ⟨hown, hinit⟩ hguard hrun
  exact ⟨rs, w', hrun, hown', run_metadir hown hrun, hR⟩

/-- What such a relation implies under the guard holds at every step. -/
theorem safe_guarded_rule {R : List UInt8 → View → γ → Prop} {P : World → γ → Event → Prop}
    (hserved : ∀ u g e r v, OwnedTable u → R u.metadir (view u) g → guard u g e →
      Served u.metadir e.env (view u) e.op r v → R u.metadir v (track g e r))
    (himp : ∀ u g e, OwnedTable u → R u.metadir (view u) g → guard u g e → P u g e)
    (hown : OwnedTable w) (hinit : R w.metadir (view w) g)
    (hguard : Guarded step track guard w g es) : Guarded step track P w g es :=
  guarded_rule (served_step hserved) (fun u g e hK hg => himp u g e hK.1 hK.2 hg)
    ⟨hown, hinit⟩ hguard

end Rules

end LazyFS.SafeRuns
