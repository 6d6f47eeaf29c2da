import LazyFS.SafeRuns

/-!
# What a content file reads as

A content file is its creation name and its size: the bytes it serves are the
four that the first eight characters of that name spell, whatever was done
since. The ghost state records the name each content file was created under.
The one operation that can lose a pattern is a rename, which copies the four
bytes as a string and so clears everything after the first zero byte.
-/

namespace LazyFS.PatternLaw

open MachineWords LinkedCells PathNames PatternParser PosixStore FileOperations ContentReads
  GuardedRun ServedRequests SafeRuns

/-- The content files with the paths they were created under. -/
abbrev Origins := Path → Option Path

/-- A rename that finds its content file and a free content path. -/
def Moves (g : Origins) (old new : Path) : Prop :=
  isMetaFile new = false ∧ g new = none ∧ g old ≠ none

/-- Whether a rename moves a name is computed. -/
instance (g : Origins) (old new : Path) : Decidable (Moves g old new) :=
  inferInstanceAs (Decidable (_ ∧ _ ∧ _))

/-- What a request does to the creation names. -/
def originStep (g : Origins) : Op → Origins
  | .create p _ _ => if isMetaFile p = true ∨ g p ≠ none then g else Function.update g p (some p)
  | .rename old new =>
    if Moves g old new then Function.update (Function.update g new (g old)) old none else g
  | .unlink p => Function.update g p none
  | _ => g

/-- The creation names after a list of requests. -/
def origins (es : List Event) : Origins := (es.map Event.op).foldl originStep (fun _ => none)

/-- A request that keeps the patterns: it is safe, and it does not move a file
whose name spells a zero byte before a nonzero one. -/
def KeepsPattern (w : World) (g : Origins) (e : Event) : Prop :=
  Safe w e ∧ ∀ old new c, e.op = .rename old new → Moves g old new → g old = some c →
    SpellsPattern c.name → ZeroTailed (spelledPattern c.name)

/-- Every content file has a creation name, and if that name spells a pattern
the entry holds it. -/
structure Tracks (v : View) (g : Origins) : Prop where
  /-- Meta files are not tracked. -/
  content : ∀ p, isMetaFile p = true → g p = none
  /-- The tracked paths are those of the table. -/
  present : ∀ p, isMetaFile p = false → (g p = none ↔ v.lookup p = none)
  /-- The pattern is the one the creation name spells. -/
  pattern : ∀ p c f, g p = some c → v.lookup p = some f → SpellsPattern c.name →
    f.pattern = spelledPattern c.name

/-- A request that rebinds a path to an entry with the same pattern, or to a
meta entry, is not seen by the ghost state. -/
theorem tracks_bind {v : View} {g : Origins} (hv : Tracks v g) {p : Path} {f : LFile}
    (h : isMetaFile p = true ∨ ∃ f₀, v.lookup p = some f₀ ∧ f.pattern = f₀.pattern) :
    Tracks (v.bind p (some f)) g := by
  refine ⟨hv.content, ?_, ?_⟩
  · intro q hq
    by_cases hqp : q = p
    · subst hqp
      rcases h with hmeta | ⟨f₀, hf₀, -⟩
      · rw [hq] at hmeta
        cases hmeta
      · have hpresent := hv.present q hq
        rw [hf₀] at hpresent
        simpa [View.bind] using hpresent
    · simpa [View.bind, hqp] using hv.present q hq
  · intro q c a hc ha hspell
    by_cases hqp : q = p
    · subst hqp
      rcases h with hmeta | ⟨f₀, hf₀, hpat⟩
      · rw [hv.content q hmeta] at hc
        cases hc
      · have haf : a = f := by simpa [View.bind] using ha.symm
        rw [haf, hpat]
        exact hv.pattern q c f₀ hc hf₀ hspell
    · exact hv.pattern q c a hc (by simpa [View.bind, hqp] using ha) hspell

/-- Removing a path removes its creation name. -/
theorem tracks_remove {v : View} {g : Origins} (hv : Tracks v g) (p : Path) :
    Tracks (v.bind p none) (Function.update g p none) := by
  refine ⟨?_, ?_, ?_⟩
  · intro q hq
    by_cases hqp : q = p
    · simp [hqp]
    · simpa [hqp] using hv.content q hq
  · intro q hq
    by_cases hqp : q = p
    · simp [hqp, View.bind]
    · simpa [hqp, View.bind] using hv.present q hq
  · intro q c a hc ha hspell
    by_cases hqp : q = p
    · simp [hqp] at hc
    · exact hv.pattern q c a (by simpa [hqp] using hc) (by simpa [hqp, View.bind] using ha) hspell

/-- A content path that gets an entry holding the pattern its creation name
spells is tracked under that name. -/
theorem tracks_insert {v : View} {g : Origins} (hv : Tracks v g) {p c : Path} {f : LFile}
    (hmeta : isMetaFile p = false)
    (hpat : SpellsPattern c.name → f.pattern = spelledPattern c.name) :
    Tracks (v.bind p (some f)) (Function.update g p (some c)) := by
  refine ⟨?_, ?_, ?_⟩
  · intro q hq
    have hqp : q ≠ p := by
      rintro rfl
      rw [hmeta] at hq
      cases hq
    simpa [hqp] using hv.content q hq
  · intro q hq
    by_cases hqp : q = p
    · simp [hqp, View.bind]
    · simpa [hqp, View.bind] using hv.present q hq
  · intro q d a hd ha hspell
    by_cases hqp : q = p
    · subst hqp
      have hdc : d = c := by simpa using hd.symm
      have haf : a = f := by simpa [View.bind] using ha.symm
      rw [haf, hdc]
      exact hpat (hdc ▸ hspell)
    · exact hv.pattern q d a (by simpa [hqp] using hd) (by simpa [hqp, View.bind] using ha) hspell

/-- The store and the descriptors do not matter. -/
theorem tracks_withStore {v : View} {g : Origins} (hv : Tracks v g)
    (store : Store (List UInt8)) : Tracks (v.withStore store) g :=
  ⟨hv.content, hv.present, hv.pattern⟩

/-- The pattern of a new entry is what its name spells. -/
theorem created_pattern {f : LFile} {p : Path} {realfd : ℤ} {junk : Pattern}
    (hf : Created f p realfd (parsePattern (cString (strncpy p.name 8)) junk).2)
    (hspell : SpellsPattern p.name) : f.pattern = spelledPattern p.name := by
  have hprefix : cString (strncpy p.name 8) = p.name.take 8 :=
    cString_strncpy p.noNul 8
  obtain ⟨hprefixSpells, hsame⟩ := spells_take hspell
  rw [hf.pattern, hprefix, parsePattern_digits hprefixSpells, hsame]

/-- A creation that finds an entry starts no new file. -/
theorem originStep_present {v : View} {g : Origins} (hv : Tracks v g) {p : Path} {f : LFile}
    {mode : ℕ} {fi : FuseFileInfo} (hp : v.lookup p = some f) :
    originStep g (.create p mode fi) = g := by
  cases hmeta : isMetaFile p with
  | true => simp [originStep, hmeta]
  | false =>
    have hg : g p ≠ none := fun hg => by simp [(hv.present p hmeta).mp hg] at hp
    simp [originStep, hg]

/-- A rename that is refused moves no content file. -/
theorem not_moves_of_refused {v : View} {g : Origins} (hv : Tracks v g) {old new : Path}
    (hwhy : v.lookup new ≠ none ∨ v.lookup old = none ∨ isMetaFile old ≠ isMetaFile new ∨
      isMetaFile old = true) : ¬ Moves g old new := by
  rintro ⟨hmnew, hnew, hold⟩
  rcases hwhy with hex | habs | hkind | hmeta
  · exact hex ((hv.present new hmnew).mp hnew)
  · cases hmeta : isMetaFile old with
    | true => exact hold (hv.content old hmeta)
    | false => exact hold ((hv.present old hmeta).mpr habs)
  · rw [hmnew, ne_eq, Bool.not_eq_false] at hkind
    exact hold (hv.content old hkind)
  · exact hold (hv.content old hmeta)

/-- Every way a pattern-keeping request can end keeps the tracking. -/
theorem served_tracks {metadir : List UInt8} {w : World} {v v' : View} {e : Event} {r : Reply}
    {g : Origins} (hv : Tracks v g) (hkeep : KeepsPattern w g e)
    (h : Served metadir e.env v e.op r v') : Tracks v' (originStep g e.op) := by
  obtain ⟨op, env⟩ := e
  change Served metadir env v op r v' at h
  have hmetaMoves : ∀ {old new}, isMetaFile old = true → ¬ Moves g old new := by
    rintro old new hmeta ⟨-, -, hold⟩
    exact hold (hv.content old hmeta)
  cases h with
  | @absent op p hop hp =>
    have hg : g p = none := by
      cases hmeta : isMetaFile p with
      | true => exact hv.content p hmeta
      | false => exact (hv.present p hmeta).mpr hp
    cases op <;> cases hop <;> try exact hv
    rw [originStep, Function.update_eq_self_iff.mpr hg.symm]
    exact hv
  | queried hop => cases op <;> first | exact hv | cases hop
  | unlinked hp => exact tracks_withStore (tracks_remove hv _) _
  | resized hp hmeta => exact tracks_bind hv (Or.inr ⟨_, hp, rfl⟩)
  | realTruncated => exact tracks_withStore hv _
  | @opened p fi f hp hmeta =>
    refine tracks_bind hv (Or.inr ⟨f, hp, ?_⟩)
    split_ifs <;> rfl
  | realOpened hp hmeta hopen =>
    exact tracks_withStore (tracks_bind hv (Or.inl hmeta)) _
  | openFailed => exact hv
  | written hp hmeta => exact tracks_bind hv (Or.inr ⟨_, hp, rfl⟩)
  | realWritten => exact tracks_withStore hv _
  | released => exact hv
  | realReleased => exact ⟨hv.content, hv.present, hv.pattern⟩
  | @exclusive p mode fi f hp hfi =>
    rw [originStep_present hv hp]
    exact hv
  | @recreated p mode fi f hp hfi =>
    rw [originStep_present hv hp]
    exact tracks_bind hv (Or.inr ⟨f, hp, rfl⟩)
  | @created p mode fi f hp hmeta hf =>
    have hg := (hv.present p hmeta).mpr hp
    simp only [originStep, hmeta, hg, Bool.false_eq_true, ne_eq, not_true_eq_false, or_self,
      if_false]
    exact tracks_insert hv hmeta (created_pattern hf)
  | @realCreated p mode fi f fd store hp hmeta hopen hf =>
    simp only [originStep, hmeta, true_or, if_true]
    exact tracks_withStore (tracks_bind hv (Or.inl hmeta)) _
  | @createFailed p mode fi err hp hmeta hopen =>
    simp only [originStep, hmeta, true_or, if_true]
    exact hv
  | @renameRefused old new r hwhy hr =>
    have hstay := not_moves_of_refused hv hwhy
    rw [originStep, if_neg hstay]
    exact hv
  | @renamed old new f f' hnew hold hmold hmnew hf =>
    have hgold : g old ≠ none := fun hg => by simp [(hv.present old hmold).mp hg] at hold
    obtain ⟨c, hc⟩ := Option.ne_none_iff_exists'.mp hgold
    have hmoves : Moves g old new := ⟨hmnew, (hv.present new hmnew).mpr hnew, hgold⟩
    rw [originStep, if_pos hmoves, hc]
    refine tracks_remove (tracks_insert hv hmnew ?_) old
    intro hspell
    -- The string copy keeps the pattern because no zero byte precedes a nonzero one.
    have hzero := hkeep.2 old new c rfl hmoves hc hspell
    rw [hf.pattern, hv.pattern old c f hc hold hspell]
    exact (strncpyPattern_eq_iff _).mpr hzero
  | @realRenamed old new f f' n store hnew hold hmold hmnew hcall hf =>
    rw [originStep, if_neg (hmetaMoves hmold)]
    have hbound := tracks_bind hv (f := f') (Or.inl hmnew)
    have hremoved := tracks_remove hbound old
    rw [Function.update_eq_self_iff.mpr (hv.content old hmold).symm] at hremoved
    exact tracks_withStore hremoved store

/-- The law for one content file in one state: a read returns what lies inside
the file, each byte being the one the creation name spells for its position. -/
def ReadsAs (w : World) (p c : Path) : Prop :=
  ∃ f, w.lookup p = some f ∧
    ∀ env (size : UInt64) (offset : Int64), 0 ≤ offset.toInt → size.toNat ≤ intMax →
      ∃ count buf, lRead env p size offset w = .ok (count, buf) ∧
        count = min (size.toNat : ℤ) (max 0 (f.size.toInt - offset.toInt)) ∧
        ∀ k : ℕ, k < count →
          buf[k]? = some (patternByte (spelledPattern c.name) (offset.toInt.toNat + k))

/-- An entry that holds a pattern reads as it. -/
theorem readsAs_of_pattern {w : World} {p c : Path} {f : LFile} (hp : w.lookup p = some f)
    (hmeta : isMetaFile p = false) (hpat : f.pattern = spelledPattern c.name) :
    ReadsAs w p c := by
  refine ⟨f, hp, ?_⟩
  intro env size offset ho hsize
  refine ⟨_, _, lRead_content hp hmeta hsize ho, ?_, ?_⟩
  · unfold readable
    omega
  · intro k hk
    rw [← hpat]
    exact contentBuffer_getElem? (by exact_mod_cast hk)

/-- A run of these requests returns, the content files it leaves are those with
a creation name, and each of them whose creation name spells a pattern reads
as it. -/
def ContentLaw (metadir : List UInt8) (store : Store (List UInt8)) (es : List Event) : Prop :=
  ∃ rs w, run step (boot metadir store) es = .ok (rs, w) ∧
    (∀ p, isMetaFile p = false → (w.lookup p = none ↔ origins es p = none)) ∧
    ∀ p c, origins es p = some c → SpellsPattern c.name → ReadsAs w p c

/-- The law holds for every run whose requests keep the patterns. -/
theorem content_reads_as_name (metadir : List UInt8) (store : Store (List UInt8))
    (es : List Event)
    (hes : Guarded step (fun g (e : Event) _ => originStep g e.op)
      KeepsPattern (boot metadir store) (fun _ => none) es) :
    ContentLaw metadir store es := by
  have hinit : Tracks (view (boot metadir store)) (fun _ => none) := by
    refine ⟨fun _ _ => rfl, fun p _ => ?_, fun p c f hc => by cases hc⟩
    simp [view, boot, World.lookup, lookup, find]
  have hserved : ∀ (u : World) g (e : Event) r v, OwnedTable u → Tracks (view u) g →
      KeepsPattern u g e → Served u.metadir e.env (view u) e.op r v →
      Tracks v (originStep g e.op) :=
    fun _ _ _ _ _ _ hv hg hs => served_tracks hv hg hs
  obtain ⟨rs, w, hrun, -, -, htracks⟩ := safe_run_rule (R := fun _ v g => Tracks v g)
    (fun _ _ _ hg => hg.1) hserved (boot_owned metadir store) hinit hes
  have horigins : es.foldl (fun g e => originStep g e.op) (fun _ => none) = origins es := by
    rw [origins, List.foldl_map]
  rw [follow_eq_foldl hrun, horigins] at htracks
  refine ⟨rs, w, hrun, fun p hmeta => (htracks.present p hmeta).symm, ?_⟩
  intro p c hc hspell
  have hmeta : isMetaFile p = false := by
    cases hmeta : isMetaFile p with
    | false => rfl
    | true =>
      rw [htracks.content p hmeta] at hc
      cases hc
  have hne : w.lookup p ≠ none := by
    intro hnone
    rw [(htracks.present p hmeta).mpr hnone] at hc
    cases hc
  obtain ⟨f, hf⟩ := Option.ne_none_iff_exists'.mp hne
  exact readsAs_of_pattern hf hmeta (htracks.pattern p c f hc hf hspell)

/-- A file whose name spells a zero byte reads as zeros once it is renamed. -/
theorem contentLaw_fails_after_rename :
    let name : Path := ⟨ascii "00ff00ff_8_1", by decide⟩
    let moved : Path := ⟨ascii "moved", by decide⟩
    ¬ ContentLaw (ascii "/meta") (Store.empty _)
      [⟨.create name 0o644 ⟨O_CREAT, 0⟩, Env.quiet⟩, ⟨.truncate name 8 none, Env.quiet⟩,
        ⟨.rename name moved, Env.quiet⟩] := by
  rintro name moved ⟨rs, w, hrun, -, hreads⟩
  have hzeros : (run step (boot (ascii "/meta") (Store.empty _))
      [⟨.create name 0o644 ⟨O_CREAT, 0⟩, Env.quiet⟩, ⟨.truncate name 8 none, Env.quiet⟩,
        ⟨.rename name moved, Env.quiet⟩]).map
      (fun out => (lRead Env.quiet moved 2 0 out.2).toOption) = .ok (some (2, [0, 0])) := by
    decide +kernel
  obtain ⟨rs', w', hrun', hread⟩ :=
    run_observe (f := fun w => (lRead Env.quiet moved 2 0 w).toOption) hzeros
  rw [hrun] at hrun'
  cases hrun'
  obtain ⟨f, -, hlaw⟩ := hreads moved name (by decide +kernel) (by decide +kernel)
  obtain ⟨count, buf, hbuf, -, hbytes⟩ := hlaw Env.quiet 2 0 (by decide) (by decide)
  rw [hbuf] at hread
  cases hread
  have hsecond := hbytes 1 (by decide)
  revert hsecond
  decide +kernel

/-- A law-abiding run: a name without zero bytes, a rename and a write. -/
theorem content_reads_as_name_deadbeef :
    let name : Path := ⟨ascii "deadbeef_8_1", by decide⟩
    let moved : Path := ⟨ascii "moved", by decide⟩
    ContentLaw (ascii "/meta") (Store.empty _)
      [⟨.create name 0o644 ⟨O_CREAT, 0⟩, Env.quiet⟩, ⟨.rename name moved, Env.quiet⟩,
        ⟨.write moved (ascii "ab") 2 6, Env.quiet⟩] := by
  intro name moved
  refine content_reads_as_name _ _ _ (guarded_and (P := fun w _ e => Safe w e) ?_
    ⟨?_, fun _ _ _ => ⟨?_, fun _ _ _ => ⟨?_, fun _ _ _ => trivial⟩⟩⟩)
  · decide +kernel
  · rintro _ _ _ ⟨⟩
  · rintro old new c ⟨⟩ - hc -
    have hname : originStep (fun _ => none) (.create name 0o644 ⟨O_CREAT, 0⟩) name = some name := by
      decide +kernel
    obtain rfl : name = c := Option.some.inj (hname.symm.trans hc)
    decide +kernel
  · rintro _ _ _ ⟨⟩

end LazyFS.PatternLaw
