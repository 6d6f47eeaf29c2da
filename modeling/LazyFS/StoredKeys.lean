import LazyFS.SafeRuns

/-!
# Keys and the field that holds them

The path of an entry is copied into the first `MAXPATHLEN` bytes of its block,
and the table hashes what stands there. The copy does not look at the field's
size: it writes the characters and a terminator wherever they end. It stays in
the field, and the field then reads as the path, exactly when the path is
shorter than the field.
-/

namespace LazyFS.StoredKeys

open MachineWords LinkedCells PathNames PatternParser PosixStore FileOperations GuardedRun
  ServedRequests SafeRuns

/-- The bytes from the start of an entry on: the path field, then its other
fields, then whatever follows the block. -/
abbrev Memory := ℕ → UInt8

/-- `strcpy` to the start of the memory: the characters, and a terminator. -/
def strcpy (memory : Memory) (src : List UInt8) : Memory :=
  fun i => if i < src.length then src.getD i 0 else if i = src.length then 0 else memory i

/-- The string that stands in the path field. -/
def storedPath (memory : Memory) : List UInt8 := cString ((List.range MAXPATHLEN).map memory)

/-- A copy of a path writes nothing behind the path field, and the field then
holds the path. -/
def CopiesExactly (path : Path) : Prop :=
  ∀ memory : Memory, (∀ i, MAXPATHLEN ≤ i → strcpy memory path.chars i = memory i) ∧
    storedPath (strcpy memory path.chars) = path.chars

/-- A path has no zero byte. -/
theorem zero_notMem_chars (path : Path) : 0 ∉ path.chars := by
  have hslash : (0 : UInt8) ≠ slash := by decide
  exact List.not_mem_cons_of_ne_of_not_mem hslash path.noNul

/-- A string that ends inside the field is what the field holds. -/
theorem storedPath_strcpy {memory : Memory} {src : List UInt8} (hnul : 0 ∉ src)
    (hlen : src.length < MAXPATHLEN) : storedPath (strcpy memory src) = src := by
  obtain ⟨rest, hrest⟩ : ∃ rest, MAXPATHLEN = src.length + (1 + rest) :=
    ⟨MAXPATHLEN - src.length - 1, by omega⟩
  have hchars : (List.range src.length).map (strcpy memory src) = src := by
    apply List.ext_getElem
    · simp
    · intro i hi _
      have hlt : i < src.length := by simpa using hi
      simp [strcpy, hlt]
  have hend : strcpy memory src src.length = 0 := by simp [strcpy]
  have hall : ∀ c ∈ src, decide (c ≠ 0) = true :=
    fun c hc => decide_eq_true (fun h0 => hnul (h0 ▸ hc))
  unfold storedPath cString
  rw [hrest, List.range_add, List.map_append, hchars, List.takeWhile_append_of_pos hall,
    Nat.add_comm 1 rest, List.range_succ_eq_map, List.map_cons, List.map_cons, Nat.add_zero, hend,
    List.takeWhile_cons, if_neg (by simp), List.append_nil]

/-- The bound that the callers of the copy have to keep. -/
theorem copiesExactly_iff (path : Path) : CopiesExactly path ↔ path.strlen < MAXPATHLEN := by
  constructor
  · intro h
    by_contra hlong
    have hout := (h fun _ => 1).1 path.strlen (Nat.not_lt.mp hlong)
    simp [strcpy, Path.strlen] at hout
  · intro hlt memory
    refine ⟨?_, storedPath_strcpy (zero_notMem_chars path) hlt⟩
    intro i hi
    have hlen : path.chars.length < MAXPATHLEN := hlt
    have hne : ¬ i < path.chars.length := by omega
    have hne' : i ≠ path.chars.length := by omega
    simp only [strcpy, if_neg hne, if_neg hne']

/-- The copy of the model is defined exactly where the copy in memory is exact. -/
theorem strcpyPath_defined_iff (path : Path) :
    (∃ field, strcpyPath path = .ok field) ↔ CopiesExactly path := by
  rw [copiesExactly_iff]
  constructor
  · rintro ⟨field, h⟩
    exact (strcpyPath_eq_ok h).1
  · intro h
    exact ⟨_, strcpyPath_of_lt h⟩

/-- What a creation or a rename may do to the table: a new key is the path it
was given, every other entry is as before except for a size reset, and a call
that succeeds has its path in the table. -/
structure Inserts (w : World) (e : Event) (r : Reply) (w' : World) : Prop where
  /-- New keys are copied paths. -/
  key : ∀ q f', w'.lookup q = some f' → w.lookup q = none →
    copied w.metadir e.env (view w) e.op = some q
  /-- Other entries keep their fields. -/
  kept : ∀ q f f', w'.lookup q = some f' → w.lookup q = some f → f' = f ∨ f' = f.setSize 0
  /-- A copied path is in the table afterwards, if the call succeeds. -/
  present : ∀ q, copied w.metadir e.env (view w) e.op = some q → 0 ≤ r.ret → w'.lookup q ≠ none

/-- The contract of one request: its copies stay in their field and it inserts
under the path it was given. -/
def StoresKeys (w : World) (e : Event) : Prop :=
  (∀ p ∈ copied w.metadir e.env (view w) e.op, CopiesExactly p) ∧
    ∃ r w', step w e = .ok (r, w') ∧ Inserts w e r w'

/-- The contract of a whole run, which also returns. -/
def KeysLaw (w : World) (es : List Event) : Prop :=
  Always step StoresKeys w es ∧ ∃ rs w', run step w es = .ok (rs, w')

/-- The requests that store paths. -/
def IsNaming : Op → Prop
  | .create _ _ _ | .rename _ _ => True
  | _ => False

/-- The paths that are copied fit the path field. -/
def CopiesFit (w : World) (e : Event) : Prop :=
  ∀ p ∈ copied w.metadir e.env (view w) e.op, p.strlen < MAXPATHLEN

/-- Whether all copies of an event fit is computed. -/
instance (w : World) (e : Event) : Decidable (CopiesFit w e) := Option.decidableForallMem _

section Insertion

variable {w w' : World} {e : Event} {r : Reply}

/-- A call that leaves the table alone inserts nothing; if it was to copy a
path, it has to report an error. -/
theorem inserts_nothing (hsame : w'.lookup = w.lookup)
    (hfails : copied w.metadir e.env (view w) e.op = none ∨ r.ret < 0) : Inserts w e r w' := by
  refine ⟨?_, ?_, ?_⟩
  · intro q f' hf' hnone
    rw [hsame, hnone] at hf'
    cases hf'
  · intro q f f' hf' hf
    rw [hsame, hf] at hf'
    exact Or.inl (Option.some.inj hf').symm
  · intro q hq hok
    rcases hfails with hnone | hneg
    · rw [hnone] at hq
      cases hq
    · omega

/-- A call that resets an entry inserts nothing. -/
theorem inserts_reset {p : Path} {f : LFile}
    (hnone : copied w.metadir e.env (view w) e.op = none) (hp : w.lookup p = some f)
    (hbound : w'.lookup = Function.update w.lookup p (some (f.setSize 0))) : Inserts w e r w' := by
  refine ⟨?_, ?_, ?_⟩
  · intro q f' hf' hq
    have hqp : q ≠ p := by
      rintro rfl
      rw [hp] at hq
      cases hq
    rw [hbound, Function.update_of_ne hqp, hq] at hf'
    cases hf'
  · intro q f₀ f' hf' hf₀
    by_cases hqp : q = p
    · subst hqp
      rw [hbound, Function.update_self] at hf'
      rw [hp] at hf₀
      cases hf'
      cases hf₀
      exact Or.inr rfl
    · rw [hbound, Function.update_of_ne hqp, hf₀] at hf'
      exact Or.inl (Option.some.inj hf').symm
  · intro q hq
    rw [hnone] at hq
    cases hq

/-- A new entry under the copied path, with another path dropped or not. -/
theorem inserts_path {p : Path} {f : LFile}
    (hcopied : copied w.metadir e.env (view w) e.op = some p) (hp : w.lookup p = none)
    (hbound : w'.lookup p = some f)
    (hrest : ∀ q, q ≠ p → w'.lookup q = none ∨ w'.lookup q = w.lookup q) : Inserts w e r w' := by
  refine ⟨?_, ?_, ?_⟩
  · intro q f' hf' hnone
    by_cases hqp : q = p
    · exact hqp ▸ hcopied
    · rcases hrest q hqp with hq | hq
      · rw [hq] at hf'
        cases hf'
      · rw [hq, hnone] at hf'
        cases hf'
  · intro q f₀ f' hf' hf₀
    have hqp : q ≠ p := by
      rintro rfl
      rw [hp] at hf₀
      cases hf₀
    rcases hrest q hqp with hq | hq
    · rw [hq] at hf'
      cases hf'
    · rw [hq, hf₀] at hf'
      exact Or.inl (Option.some.inj hf').symm
  · intro q hq _
    rw [hcopied] at hq
    cases hq
    rw [hbound]
    exact Option.some_ne_none f

/-- Every way a creation can end inserts under the path it was given. -/
theorem create_inserts {env : Env} {p : Path} {mode : ℕ} {fi : FuseFileInfo} {v' : View}
    (h : Served w.metadir env (view w) (.create p mode fi) r v') (hlookup : w'.lookup = v'.lookup) :
    Inserts w ⟨.create p mode fi, env⟩ r w' := by
  cases h with
  | absent htarget => cases htarget
  | queried hquery => cases hquery
  | @exclusive _ _ _ f hp hfi =>
    have hnone : copied w.metadir env (view w) (.create p mode fi) = none :=
      if_neg (by rw [hp]; exact Option.some_ne_none f)
    exact inserts_nothing hlookup (Or.inl hnone)
  | @recreated _ _ _ f hp hfi =>
    have hnone : copied w.metadir env (view w) (.create p mode fi) = none :=
      if_neg (by rw [hp]; exact Option.some_ne_none f)
    exact inserts_reset hnone hp hlookup
  | @created _ _ _ f hp hmeta hf =>
    have hbound : w'.lookup = Function.update w.lookup p (some f) := hlookup
    refine inserts_path (f := f) (if_pos hp) hp (by rw [hbound, Function.update_self]) ?_
    intro q hq
    exact Or.inr (by rw [hbound, Function.update_of_ne hq])
  | @realCreated _ _ _ f fd store hp hmeta hopen hf =>
    have hbound : w'.lookup = Function.update w.lookup p (some f) := hlookup
    refine inserts_path (f := f) (if_pos hp) hp (by rw [hbound, Function.update_self]) ?_
    intro q hq
    exact Or.inr (by rw [hbound, Function.update_of_ne hq])
  | createFailed => exact inserts_nothing hlookup (Or.inr (Errno.neg_neg _))

/-- The table after a rename binds the new path and drops the old one. -/
theorem moved_inserts {env : Env} {old new : Path} {f f' : LFile}
    (hcopied : copied w.metadir env (view w) (.rename old new) = some new)
    (hnew : w.lookup new = none) (hold : w.lookup old = some f)
    (hbound : w'.lookup = Function.update (Function.update w.lookup new (some f')) old none) :
    Inserts w ⟨.rename old new, env⟩ r w' := by
  have hne : new ≠ old := by
    rintro rfl
    rw [hnew] at hold
    cases hold
  refine inserts_path (f := f') hcopied hnew ?_ ?_
  · rw [hbound, Function.update_of_ne hne, Function.update_self]
  · intro q hq
    by_cases hqo : q = old
    · exact Or.inl (by rw [hbound, hqo, Function.update_self])
    · exact Or.inr (by rw [hbound, Function.update_of_ne hqo, Function.update_of_ne hq])

/-- Every way a rename can end inserts under the path it was given. -/
theorem rename_inserts {env : Env} {old new : Path} {v' : View}
    (h : Served w.metadir env (view w) (.rename old new) r v')
    (hlookup : w'.lookup = v'.lookup) : Inserts w ⟨.rename old new, env⟩ r w' := by
  cases h with
  | absent htarget => cases htarget
  | queried hquery => cases hquery
  | renameRefused hwhy hr => exact inserts_nothing hlookup (Or.inr hr)
  | @renamed _ _ f f' hnew hold hmold hmnew hf =>
    refine moved_inserts (if_pos ⟨hnew, ?_, ?_, ?_⟩) hnew hold hlookup
    · rw [hold]
      exact Option.some_ne_none f
    · rw [hmold, hmnew]
    · intro hmeta
      rw [hmold] at hmeta
      cases hmeta
  | @realRenamed _ _ f f' n store hnew hold hmold hmnew hcall hf =>
    refine moved_inserts (if_pos ⟨hnew, ?_, ?_, ?_⟩) hnew hold hlookup
    · rw [hold]
      exact Option.some_ne_none f
    · rw [hmold, hmnew]
    · intro _
      rw [hcall]
      rfl

/-- A naming request whose copies fit stores its key. -/
theorem storesKeys_of_fit (hown : OwnedTable w) (hop : IsNaming e.op) (hfit : CopiesFit w e) :
    StoresKeys w e := by
  have hreads : ∀ q ∈ contentRead (view w) e.op, q.1.toNat ≤ intMax ∧ 0 ≤ q.2.toInt := by
    intro q hq
    obtain ⟨op, env⟩ := e
    cases op with
    | create p mode fi => cases hq
    | rename old new => cases hq
    | _ => exact hop.elim
  obtain ⟨r, w', hstep⟩ := step_defined hown ⟨hfit, hreads⟩
  have href := step_refines hown hstep
  have hcopies : ∀ p ∈ copied w.metadir e.env (view w) e.op, CopiesExactly p :=
    fun p hp => (strcpyPath_defined_iff p).mp ⟨_, strcpyPath_of_lt (hfit p hp)⟩
  refine ⟨hcopies, r, w', hstep, ?_⟩
  obtain ⟨op, env⟩ := e
  cases op with
  | create p mode fi => exact create_inserts href.served rfl
  | rename old new => exact rename_inserts href.served rfl
  | _ => exact hop.elim

end Insertion

/-- Keys are stored exactly, along a run of creations and renames, precisely
when every path it copies is shorter than the path field. -/
theorem keys_stored_iff {w : World} (hw : Reachable w) {es : List Event}
    (hes : ∀ e ∈ es, IsNaming e.op) : KeysLaw w es ↔ Always step CopiesFit w es := by
  have hown := reachable_owned hw
  constructor
  · rintro ⟨hlaw, -⟩
    refine guarded_rule (R := fun _ _ => True) (fun _ _ _ _ _ _ _ _ => trivial) ?_ trivial hlaw
    intro u _ e _ hstores p hp
    obtain ⟨field, hfield⟩ := (strcpyPath_defined_iff p).mpr (hstores.1 p hp)
    exact (strcpyPath_eq_ok hfield).1
  · intro hfit
    have hguard := guarded_and hfit (guarded_of_forall hes)
    have hkept : ∀ (u : World) (g : Unit) (e : Event) (r : Reply) (t : World), OwnedTable u →
        CopiesFit u e ∧ IsNaming e.op → step u e = .ok (r, t) → OwnedTable t :=
      fun _ _ _ _ _ hu _ hs => step_owned hu hs
    refine ⟨?_, ?_⟩
    · exact guarded_rule (R := fun u _ => OwnedTable u) hkept
        (fun _ _ _ hu hg => storesKeys_of_fit hu hg.2 hg.1) hown hguard
    · refine run_total (R := fun u _ => OwnedTable u) hkept ?_ hown hguard
      intro u _ e hu hg
      obtain ⟨-, r, t, hstep, -⟩ := storesKeys_of_fit hu hg.2 hg.1
      exact ⟨r, t, hstep⟩

/-- A name of 49 characters has no room for its terminator. -/
theorem long_name_leaves_field :
    let p : Path := ⟨List.replicate 49 97, by decide⟩
    ¬ KeysLaw (boot (ascii "/meta") (Store.empty _))
      [⟨.create p 0o644 ⟨O_CREAT, 0⟩, Env.quiet⟩] := by
  rintro p ⟨hlaw, -⟩
  have hcopy := (copiesExactly_iff p).mp (hlaw.1.1 p (by decide +kernel))
  exact absurd hcopy (by decide)

/-- The longest names of hashed files fit, and so do renames to them. -/
theorem keys_stored_hash :
    let p : Path := ⟨List.replicate 40 97 ++ ascii ".mbinmap", by decide⟩
    let q : Path := ⟨List.replicate 40 98 ++ ascii ".mbinmap", by decide⟩
    KeysLaw (boot (ascii "/meta") (Store.empty _))
      [⟨.create p 0o644 ⟨O_CREAT, 0⟩, Env.quiet⟩, ⟨.rename p q, Env.quiet⟩] := by
  intro p q
  have hboot : Reachable (boot (ascii "/meta") (Store.empty _)) := ⟨_, _, [], [], rfl⟩
  refine (keys_stored_iff hboot ?_).mpr (by decide +kernel)
  intro e he
  simp only [List.mem_cons, List.not_mem_nil, or_false] at he
  rcases he with rfl | rfl <;> trivial

end LazyFS.StoredKeys
