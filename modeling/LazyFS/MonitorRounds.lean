import LazyFS.MonitorExit

/-!
# How the rounds of the monitor end

The process table is searched at most once a second, and only in the first minute, so
few searches are made however long the monitor runs and however its clock jumps. A
round that begins after the time limit is the last one, and so is a round that
begins when the flag is set: from there on the loop never prunes again.
-/

namespace LazyFS.MonitorRounds

open GuardedRun ResourceMonitor MonitorExit

/-- The step searches the process table. -/
def searches (s : System) : Event → Bool
  | .update _ _ => decide (s.phase = .update) && decide (s.timestamp < s.timeStart + 60 ∧
      s.timestamp - s.lastSubprocessUpdate ≥ 1)
  | _ => false

/-- A round that begins at this time is the last one: the time limit has passed, or the
flag is set. -/
def BeginsLast (s : System) (timestamp : ℚ) : Prop :=
  (s.endTime ≠ 0 ∧ timestamp > s.endTime) ∨ s.monitor.lastDied = true

/-- No round can begin. -/
def NoRound (s : System) : Prop := ∀ timestamp, next s (.prune timestamp) = none

variable {s t : System} {e : Event}

/-- What no step changes. -/
theorem next_kept (h : next s e = some t) :
    t.timeStart = s.timeStart ∧ t.endTime = s.endTime := by
  cases e with
  | fork | exit | reap =>
    simp only [next] at h
    split at h
    · split_ifs at h
      cases h
      exact ⟨rfl, rfl⟩
    · cases h
  | update =>
    simp only [next] at h
    split_ifs at h
    · split at h <;> (cases h; exact ⟨rfl, rfl⟩)
    · cases h
      exact ⟨rfl, rfl⟩
  | prune | check | sample | timeout =>
    simp only [next] at h
    split_ifs at h <;> (cases h; exact ⟨rfl, rfl⟩)

/-- The time of the last search, or a second later when the search has failed. -/
def searchedUntil (s : System) : ℚ :=
  s.lastSubprocessUpdate + (if s.phase = .raised then 1 else 0)

/-- The last search was in the first minute, if there was one. -/
def Punctual (s : System) : Prop :=
  searchedUntil s = s.timeStart ∨ searchedUntil s < s.timeStart + 60

/-- A step that is no search leaves the time of the last search. -/
theorem punctual_kept (hlast : t.lastSubprocessUpdate = s.lastSubprocessUpdate)
    (hstart : t.timeStart = s.timeStart) (hphase : t.phase = .raised ↔ s.phase = .raised)
    (h : Punctual s) : Punctual t ∧ searchedUntil s + 0 ≤ searchedUntil t := by
  have hsame : searchedUntil t = searchedUntil s := by
    simp only [searchedUntil, hphase, hlast]
  rw [Punctual, hsame, hstart, add_zero]
  exact ⟨h, le_refl _⟩

/-- A search comes a second after the one before, and in the first minute. -/
theorem searches_step (hs : Punctual s) (h : next s e = some t) :
    Punctual t ∧ searchedUntil s + (if searches s e then 1 else 0) ≤ searchedUntil t := by
  obtain ⟨hstart, -⟩ := next_kept h
  cases e with
  | fork | exit | reap =>
    simp only [next] at h
    split at h
    · split_ifs at h
      cases h
      exact punctual_kept rfl rfl Iff.rfl hs
    · cases h
  | update listed stat =>
    simp only [next] at h
    split_ifs at h with hphase hdue
    · have hsearch : searches s (.update listed stat) = true := by
        rw [searches, hphase, decide_eq_true hdue]
        rfl
      have hbefore : searchedUntil s = s.lastSubprocessUpdate := by
        rw [searchedUntil, hphase, if_neg (fun h => by cases h), add_zero]
      rw [hsearch, if_pos rfl, hbefore]
      split at h
      case h_1 monitor hfound =>
        cases h
        have hafter : searchedUntil { s with
            monitor := monitor, lastSubprocessUpdate := s.timestamp, phase := .check } =
              s.timestamp := by
          rw [searchedUntil, if_neg (fun h => by cases h), add_zero]
        rw [Punctual, hafter]
        exact ⟨Or.inr hdue.1, by linarith [hdue.2]⟩
      case h_2 hfailed =>
        cases h
        have hafter : searchedUntil { s with phase := .raised } = s.lastSubprocessUpdate + 1 := by
          rw [searchedUntil, if_pos rfl]
        rw [Punctual, hafter]
        exact ⟨Or.inr (by linarith [hdue.1, hdue.2]), le_refl _⟩
    · cases h
      have hnone : searches s (.update listed stat) = false := by
        rw [searches, decide_eq_false hdue, Bool.and_false]
      rw [hnone, if_neg (fun h => by cases h)]
      exact punctual_kept rfl rfl (by simp only [hphase, reduceCtorEq]) hs
  | prune | check | sample | timeout =>
    simp only [next] at h
    split_ifs at h with hphase <;>
      (cases h
       exact punctual_kept rfl rfl (by simp only [hphase, reduceCtorEq]) hs)

/-- A round begins only where the loop is about to prune. -/
theorem noRound_of_phase (h : s.phase ≠ .prune) : NoRound s := by
  intro timestamp
  rw [next, if_neg h]

/-- A round is under way, or was the last, that began after the time limit. -/
structure Late (s : System) : Prop where
  limit : s.endTime ≠ 0 ∧ s.timestamp > s.endTime
  phase : s.phase ≠ .prune

/-- The step leaves such a round: the loop returns before it would prune again. -/
theorem late_step (hs : Late s) (h : next s e = some t) : Late t := by
  cases e with
  | prune =>
    rw [next, if_neg hs.phase] at h
    cases h
  | fork | exit | reap =>
    simp only [next] at h
    split at h
    · split_ifs at h
      cases h
      exact ⟨hs.limit, hs.phase⟩
    · cases h
  | update =>
    simp only [next] at h
    split_ifs at h
    · split at h <;> (cases h; exact ⟨hs.limit, fun h => by cases h⟩)
    · cases h
      exact ⟨hs.limit, fun h => by cases h⟩
  | check | sample =>
    simp only [next] at h
    split_ifs at h <;> (cases h; exact ⟨hs.limit, fun h => by cases h⟩)
  | timeout =>
    simp only [next] at h
    split_ifs at h with hphase hend
    · cases h
      exact ⟨hs.limit, fun h => by cases h⟩
    · -- The limit is not exceeded.
      exact absurd hs.limit hend

/-- The flag is set, and the loop is on its way to the check or at an end. -/
structure Flagged (s : System) : Prop where
  lastDied : s.monitor.lastDied = true
  phase : s.phase = .update ∨ s.phase = .check ∨ s.phase = .exited ∨ s.phase = .timedOut ∨
    s.phase = .raised

/-- Such a loop is not at one of the other places. -/
theorem Flagged.phase_ne (hs : Flagged s) :
    s.phase ≠ .prune ∧ s.phase ≠ .sample ∧ s.phase ≠ .timeout := by
  rcases hs.phase with h | h | h | h | h <;> rw [h] <;> decide

/-- It stays on its way: the check finds the flag set. -/
theorem flagged_step (hs : Flagged s) (h : next s e = some t) : Flagged t := by
  cases e with
  | prune =>
    rw [next, if_neg hs.phase_ne.1] at h
    cases h
  | fork | exit | reap =>
    simp only [next] at h
    split at h
    · split_ifs at h
      cases h
      exact ⟨hs.lastDied, hs.phase⟩
    · cases h
  | update listed stat =>
    simp only [next] at h
    split_ifs at h
    · split at h
      case h_1 monitor hfound =>
        cases h
        exact ⟨(updatePidTree_grows hfound).lastDied.trans hs.lastDied, Or.inr (Or.inl rfl)⟩
      case h_2 =>
        cases h
        exact ⟨hs.lastDied, Or.inr (Or.inr (Or.inr (Or.inr rfl)))⟩
    · cases h
      exact ⟨hs.lastDied, Or.inr (Or.inl rfl)⟩
  | check =>
    have hdead : isEveryoneDead s.monitor = true := by
      rw [isEveryoneDead, hs.lastDied, Bool.true_or]
    simp only [next] at h
    rw [if_pos hdead] at h
    split_ifs at h
    cases h
    exact ⟨hs.lastDied, Or.inr (Or.inr (Or.inl rfl))⟩
  | sample =>
    rw [next, if_neg hs.phase_ne.2.1] at h
    cases h
  | timeout =>
    rw [next, if_neg hs.phase_ne.2.2] at h
    cases h

/-- From a last round on no round begins. -/
theorem noRound_after_last {timestamp : ℚ} {es : List Event} {rs : List Unit}
    (hlast : BeginsLast s timestamp) (h : run step s (.prune timestamp :: es) = .ok (rs, t)) :
    NoRound t := by
  obtain ⟨r, u, rs', hbegin, hrest, -⟩ := run_cons_ok h
  have hnext := step_eq_ok.mp hbegin
  simp only [next] at hnext
  split_ifs at hnext with hphase
  rcases hlast with hlimit | hflag
  · have hu : Late u := by
      cases hnext
      exact ⟨hlimit, fun h => by cases h⟩
    have hkept : ∀ s e r t, Late s → step s e = .ok (r, t) → Late t :=
      fun _ _ _ _ hs hstep => late_step hs (step_eq_ok.mp hstep)
    exact noRound_of_phase (run_invariant hkept hu hrest).phase
  · have hu : Flagged u := by
      cases hnext
      refine ⟨?_, Or.inl rfl⟩
      simp only [prunePidList, hflag, Bool.true_or]
    have hkept : ∀ s e r t, Flagged s → step s e = .ok (r, t) → Flagged t :=
      fun _ _ _ _ hs hstep => flagged_step hs (step_eq_ok.mp hstep)
    exact noRound_of_phase (run_invariant hkept hu hrest).phase_ne.1

/-- In every run, at any times that the clock may show, the process table is searched
fewer than sixty times, and from a round on that begins after the time limit or with
the flag set no round begins any more, whatever happens then. -/
theorem rounds_end (procs : ProcTable) (pid : ProcFiles.Pid) (children : List ProcFiles.Pid)
    (timeStart endTime : ℚ) (monitorFile : Bool) (es : List Event) :
    countSteps step searches (.start procs pid children timeStart endTime monitorFile) es < 60 ∧
      ∀ rs s timestamp back rs' t,
        run step (.start procs pid children timeStart endTime monitorFile) es = .ok (rs, s) →
          BeginsLast s timestamp → run step s (.prune timestamp :: back) = .ok (rs', t) →
            NoRound t := by
  refine ⟨?_, fun _ _ _ _ _ _ _ => noRound_after_last⟩
  have hkept : ∀ s e r u, (Punctual s ∧ s.timeStart = timeStart) → step s e = .ok (r, u) →
      (Punctual u ∧ u.timeStart = timeStart) ∧
        searchedUntil s + (if searches s e then 1 else 0) ≤ searchedUntil u := by
    intro s e r u hs hstep
    have hnext := step_eq_ok.mp hstep
    obtain ⟨hpunctual, hsearch⟩ := searches_step hs.1 hnext
    exact ⟨⟨hpunctual, (next_kept hnext).1.trans hs.2⟩, hsearch⟩
  have hzero : searchedUntil (.start procs pid children timeStart endTime monitorFile) =
      timeStart := by
    rw [searchedUntil, if_neg (fun h => by cases h), add_zero]
    rfl
  obtain ⟨t, ⟨hpunctual, hsame⟩, hcount⟩ := countSteps_le hkept ⟨Or.inl hzero, rfl⟩ es
  rw [hzero] at hcount
  rw [Punctual, hsame] at hpunctual
  have hsixty : (countSteps step searches
      (.start procs pid children timeStart endTime monitorFile) es : ℚ) < 60 := by
    rcases hpunctual with hnone | hminute
    · linarith
    · linarith
  exact_mod_cast hsixty

end LazyFS.MonitorRounds
