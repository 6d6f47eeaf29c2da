import LazyFS.MonitorExit

/-!
# Processes that the monitor has not found

The list of the monitor is complete as long as no running process of its group is
unfound. A process that is forked is unfound until it exits or a search of the process
table finds it, which takes a search that is due, a status that can be read and a number
that is not ignored. A process that a sweep drops while it runs is unfound again. The
monitor exits in time if none is unfound when the last process of its list exits.
-/

namespace LazyFS.UnfoundProcesses

open PythonText GuardedRun IndexedLoops ProcFiles ResourceMonitor SamplingSweeps MonitorExit

/-- The state of the loop, and the processes of the group that it has not found. -/
structure Watch where
  system : System
  /-- The unfound processes, as the events tell. -/
  unfound : Set Pid

/-- A search is due: a second after the last one, and in the first minute. -/
def SearchDue (s : System) : Prop :=
  s.timestamp < s.timeStart + 60 ∧ s.timestamp - s.lastSubprocessUpdate ≥ 1

/-- A search finds a process that is listed, is not ignored, and whose status can be
accessed and shows the group of the monitor. -/
def Finds (m : Monitor) (listed : List Pid) (stat : Pid → Option Bytes) (pid : Pid) : Prop :=
  pid ∈ listed ∧ pid ∉ m.ignorePidList ∧ (stat pid).bind pgrp = some (m.processGroupId : ℤ)

/-- A sweep drops a process that it visits and whose files cannot be read. -/
def Drops (m : Monitor) (files : Pid → Option Files) (pid : Pid) : Prop :=
  pid ∈ visited (unreadable files) m.pidList ∧ unreadable files pid = true

/-- The unfound processes after an event: a process that is forked into the group is one
of them, unless its number is still in the list. -/
def unfoundAfter (w : Watch) : Event → Set Pid
  | .fork parent child =>
    {pid | pid ∈ w.unfound ∨ (pid = child ∧ child ≠ w.system.self ∧
      RunsInGroup w.system parent ∧ child ∉ w.system.monitor.pidList)}
  | .exit q => {pid | pid ∈ w.unfound ∧ pid ≠ q}
  | .update listed stat =>
    {pid | pid ∈ w.unfound ∧ ¬ (SearchDue w.system ∧ Finds w.system.monitor listed stat pid)}
  | .sample files =>
    {pid | pid ∈ w.unfound ∨ (Drops w.system.monitor files pid ∧ RunsInGroup w.system pid)}
  | .reap _ | .prune _ | .check | .timeout => w.unfound

/-- A step of the loop or of a process, and what becomes of the unfound processes. -/
def watch (w : Watch) (e : Event) : Except Unit (Unit × Watch) :=
  (step w.system e).map fun out => ((), ⟨out.2, unfoundAfter w e⟩)

/-- At the start, every process of the group but the children is unfound. -/
def Watch.start (s : System) : Watch :=
  ⟨s, {pid | RunsInGroup s pid ∧ pid ∉ s.monitor.pidList}⟩

/-- None is unfound when a prune finds everything in the list finished, or when a sweep
cannot read the files of the only process in it, which has to have exited. -/
def FoundInTime (w : Watch) : Event → Prop
  | .prune _ => w.system.phase = .prune →
    (∀ pid ∈ w.system.monitor.pidList, Finished w.system pid) → w.unfound = ∅
  | .sample files => w.system.phase = .sample → ∀ pid, w.system.monitor.pidList = [pid] →
    files pid = none → ¬ RunsInGroup w.system pid ∧ w.unfound = ∅
  | _ => True

/-- None is unfound when the last process of the list that runs exits, and no sweep drops
the last one that runs. -/
def KeepsWatch (w : Watch) : Event → Prop
  | .exit q => q ∈ w.system.monitor.pidList →
    (∀ pid ∈ w.system.monitor.pidList, RunsInGroup w.system pid → pid = q) → w.unfound = ∅
  | .sample files => w.system.phase = .sample →
    (∃ pid ∈ w.system.monitor.pidList, RunsInGroup w.system pid) →
      ∃ pid ∈ w.system.monitor.pidList, RunsInGroup w.system pid ∧
        ¬ Drops w.system.monitor files pid
  | _ => True

/-- In every state that a run of these events reaches, the exit is safe. -/
def ExitsSafely (s : System) (es : List Event) : Prop :=
  ∀ front back rs t, es = front ++ back → run step s front = .ok (rs, t) → SafeExit t

/-- The unfound processes are those that run and are not in the list, until an exception
ends the loop. -/
def Accurate (w : Watch) : Prop :=
  w.system.phase ≠ .raised → ∀ pid, pid ∈ w.unfound ↔
    RunsInGroup w.system pid ∧ pid ∉ w.system.monitor.pidList

/-- A process in the list runs, or none of the group does. -/
def Watched (s : System) : Prop :=
  (∃ pid ∈ s.monitor.pidList, RunsInGroup s pid) ∨ ∀ pid, ¬ RunsInGroup s pid

/-- Which processes run after an event. -/
def RunsAfter (s : System) (pid : Pid) : Event → Prop
  | .fork parent child =>
    RunsInGroup s pid ∨ (pid = child ∧ child ≠ s.self ∧ RunsInGroup s parent)
  | .exit q => RunsInGroup s pid ∧ pid ≠ q
  | _ => RunsInGroup s pid

/-- Which processes are in the list after an event. -/
def ListedAfter (s : System) (pid : Pid) : Event → Prop
  | .prune _ => pid ∈ s.monitor.pidList ∧ ¬ Finished s pid
  | .update listed stat =>
    pid ∈ s.monitor.pidList ∨ (SearchDue s ∧ Finds s.monitor listed stat pid)
  | .sample files => pid ∈ s.monitor.pidList ∧ ¬ Drops s.monitor files pid
  | _ => pid ∈ s.monitor.pidList

section Steps

variable {s t : System} {e : Event} {pid : Pid}

/-- A process runs in the group of another state if its entry and the group are the same. -/
theorem runsInGroup_congr (hself : t.self = s.self) (hproc : t.procs pid = s.procs pid) :
    RunsInGroup t pid ↔ RunsInGroup s pid := by
  unfold RunsInGroup
  rw [hself, hproc]

/-- A fork adds the child of a running process, in its group. -/
theorem fork_runs {parent child : Pid} (h : next s (.fork parent child) = some t) :
    RunsInGroup t pid ↔ RunsAfter s pid (.fork parent child) := by
  simp only [next] at h
  split at h
  case h_2 => cases h
  case h_1 proc hparent hchild =>
    split_ifs at h with hguard
    cases h
    have hgroup : RunsInGroup s parent ↔ proc.group = s.self := by
      simp [RunsInGroup, hparent, hguard.1, hguard.2]
    have hnot : ¬ RunsInGroup s child := by
      simp [RunsInGroup, hchild]
    by_cases hpid : pid = child
    · subst hpid
      have hruns : RunsInGroup { s with procs := Function.update s.procs pid (some proc) } pid ↔
          pid ≠ s.self ∧ proc.group = s.self := by
        simp [RunsInGroup, System.self, hguard.1]
      simp only [RunsAfter, hnot, false_or, true_and, hgroup, hruns]
    · simp only [RunsAfter, hpid, false_and, or_false]
      exact runsInGroup_congr rfl (Function.update_of_ne hpid _ _)

/-- An exit stops one process. -/
theorem exit_runs {q : Pid} (h : next s (.exit q) = some t) :
    RunsInGroup t pid ↔ RunsAfter s pid (.exit q) := by
  simp only [next] at h
  split at h
  case h_2 => cases h
  case h_1 proc hq =>
    split_ifs at h with hguard
    cases h
    by_cases hpid : pid = q
    · subst hpid
      simp [RunsInGroup, RunsAfter]
    · simp only [RunsAfter, ne_eq, hpid, not_false_eq_true, and_true]
      exact runsInGroup_congr rfl (Function.update_of_ne hpid _ _)

/-- A process that is waited for does not run. -/
theorem reap_runs {q : Pid} (h : next s (.reap q) = some t) :
    RunsInGroup t pid ↔ RunsInGroup s pid := by
  simp only [next] at h
  split at h
  case h_2 => cases h
  case h_1 proc hq =>
    split_ifs at h with hguard
    cases h
    by_cases hpid : pid = q
    · subst hpid
      simp [RunsInGroup, hq, hguard.1]
    · exact runsInGroup_congr rfl (Function.update_of_ne hpid _ _)

/-- A search adds what it finds to the list. -/
theorem updatePid_mem {stat : Pid → Option Bytes} {m m' : Monitor} {q : Pid}
    (h : updatePid stat m q = some m') :
    (pid ∈ m'.pidList ↔ pid ∈ m.pidList ∨ Finds m [q] stat pid) ∧
      m'.processGroupId = m.processGroupId ∧
      (pid ∈ m'.ignorePidList ↔ pid ∈ m.ignorePidList ∨ (pid = q ∧ pid ∉ m.pidList ∧
        ∃ group, (stat q).bind pgrp = some group ∧ group ≠ m.processGroupId)) := by
  simp only [Finds, List.mem_singleton]
  cases updatePid_searched h with
  | passed hpassed =>
    refine ⟨⟨Or.inl, ?_⟩, rfl, ⟨Or.inl, ?_⟩⟩
    · rintro (hmem | ⟨rfl, hnew, hfound⟩)
      · exact hmem
      · rw [hfound] at hpassed
        exact hpassed.resolve_right fun hother => hother.elim hnew nofun
    · rintro (hmem | ⟨rfl, hnew, group, hfound, -⟩)
      · exact hmem
      · rw [hfound] at hpassed
        exact (hpassed.resolve_left hnew).resolve_right nofun
  | found hnew hignored hgroup =>
    refine ⟨?_, rfl, ⟨Or.inl, ?_⟩⟩
    · rw [List.mem_append, List.mem_singleton]
      refine or_congr_right ⟨?_, And.left⟩
      rintro rfl
      exact ⟨rfl, hignored, hgroup⟩
    · rintro (hmem | ⟨-, -, group, hfound, hother⟩)
      · exact hmem
      · rw [hgroup, Option.some.injEq] at hfound
        exact absurd hfound.symm hother
  | @ignored group hnew hgroup hother =>
    refine ⟨⟨Or.inl, ?_⟩, rfl, ?_⟩
    · rintro (hmem | ⟨rfl, -, hfound⟩)
      · exact hmem
      · rw [hgroup, Option.some.injEq] at hfound
        exact absurd hfound hother
    · rw [List.mem_append, List.mem_singleton]
      refine or_congr_right ⟨?_, And.left⟩
      rintro rfl
      exact ⟨rfl, hnew, group, hgroup, hother⟩

/-- So does a search of the whole table. -/
theorem updatePidTree_mem {stat : Pid → Option Bytes} {listed : List Pid} {m m' : Monitor}
    (h : updatePidTree stat listed m = some m') :
    pid ∈ m'.pidList ↔ pid ∈ m.pidList ∨ Finds m listed stat pid := by
  unfold updatePidTree at h
  induction listed generalizing m with
  | nil =>
    cases h
    simp [Finds]
  | cons q listed ih =>
    obtain ⟨u, hfirst, hrest⟩ := Option.bind_eq_some_iff.mp h
    obtain ⟨hlist, hgroup, hignored⟩ := @updatePid_mem pid stat m u q hfirst
    rw [ih hrest, hlist]
    -- What the first step puts on the ignore list is not found by a later one.
    have hkept : pid ∉ m.pidList → Finds m listed stat pid → Finds u listed stat pid := by
      rintro hunlisted ⟨hmem, hnew, hfound⟩
      refine ⟨hmem, fun hold => ?_, by rw [hgroup]; exact hfound⟩
      rcases hignored.mp hold with hold | ⟨rfl, -, group, hread, hother⟩
      · exact hnew hold
      · rw [hread, Option.some.injEq] at hfound
        exact hother hfound
    have hback : Finds u listed stat pid → Finds m listed stat pid := by
      rintro ⟨hmem, hnew, hfound⟩
      exact ⟨hmem, fun hold => hnew (hignored.mpr (Or.inl hold)), by rw [← hgroup]; exact hfound⟩
    have hsplit : Finds m (q :: listed) stat pid ↔
        Finds m [q] stat pid ∨ Finds m listed stat pid := by
      simp only [Finds, List.mem_cons, List.not_mem_nil, or_false]
      tauto
    rw [hsplit, or_assoc]
    by_cases hlisted : pid ∈ m.pidList
    · simp only [hlisted, true_or]
    · exact or_congr_right (or_congr_right ⟨hback, hkept hlisted⟩)

/-- An exception ends the loop for good. -/
theorem raised_stays (hs : s.phase = .raised) (h : next s e = some t) : t.phase = .raised := by
  cases e with
  | fork | exit | reap =>
    simp only [next] at h
    split at h
    · split_ifs at h
      cases h
      exact hs
    · cases h
  | _ =>
    simp only [next, hs, reduceCtorEq, if_false] at h

/-- Which processes run after a step. -/
theorem next_runs (hs : Consistent s) (h : next s e = some t) :
    RunsInGroup t pid ↔ RunsAfter s pid e := by
  cases e with
  | fork parent child => exact fork_runs h
  | exit q => exact exit_runs h
  | reap q => exact reap_runs h
  | prune timestamp => exact (prune_flags hs h).runs pid
  | sample files => exact (sample_flags hs h).runs pid
  | update listed stat =>
    simp only [next] at h
    split_ifs at h with hphase hdue
    · cases hsearch : updatePidTree stat listed s.monitor with
      | none =>
        rw [hsearch] at h
        cases h
        exact Iff.rfl
      | some monitor =>
        rw [hsearch] at h
        cases h
        exact runsInGroup_congr (updatePidTree_grows hsearch).processGroupId rfl
    · cases h
      exact Iff.rfl
  | check | timeout =>
    simp only [next] at h
    split_ifs at h <;> (cases h; exact Iff.rfl)

/-- Which processes are in the list after a step that raises no exception. -/
theorem next_listed (hs : Consistent s) (h : next s e = some t) (hraised : t.phase ≠ .raised) :
    pid ∈ t.monitor.pidList ↔ ListedAfter s pid e := by
  cases e with
  | fork | exit | reap =>
    simp only [next] at h
    split at h
    · split_ifs at h
      cases h
      exact Iff.rfl
    · cases h
  | prune timestamp =>
    simp only [next] at h
    split_ifs at h
    cases h
    have hdiff : pid ∈ (prunePidList s.procs s.monitor).1.pidList ↔
        pid ∈ s.monitor.pidList ∧ pid ∉ pidsToRemove s.procs s.monitor := by
      simp only [prunePidList]
      exact hs.nodup.mem_sdiff_iff
    simp only [ListedAfter, hdiff]
    exact and_congr_right fun hmem => not_congr (mem_pidsToRemove hmem)
  | sample files =>
    simp only [next] at h
    split_ifs at h
    cases h
    rw [getRawStats_eq files hs.nodup]
    exact mem_survivors_iff hs.nodup
  | update listed stat =>
    simp only [next] at h
    split_ifs at h with hphase hdue
    · cases hsearch : updatePidTree stat listed s.monitor with
      | none =>
        rw [hsearch] at h
        cases h
        exact absurd rfl hraised
      | some monitor =>
        rw [hsearch] at h
        cases h
        have hdue' : SearchDue s := hdue
        simp only [ListedAfter, hdue', true_and]
        exact updatePidTree_mem hsearch
    · cases h
      have hdue' : ¬ SearchDue s := hdue
      simp only [ListedAfter, hdue', false_and, or_false]
  | check | timeout =>
    simp only [next] at h
    split_ifs at h <;> (cases h; exact Iff.rfl)

end Steps

section Watching

variable {w : Watch} {t : System} {e : Event}

/-- The events tell which running processes are not in the list. -/
theorem accurate_step (hs : Consistent w.system) (hw : Accurate w)
    (h : next w.system e = some t) : Accurate ⟨t, unfoundAfter w e⟩ := by
  intro hraised pid
  have hbefore : w.system.phase ≠ .raised := fun hphase => hraised (raised_stays hphase h)
  have hunfound := hw hbefore pid
  have hstops : Finished w.system pid → ¬ RunsInGroup w.system pid := Finished.not_runs
  rw [next_runs hs h, next_listed hs h hraised]
  cases e with
  | fork parent child =>
    simp only [unfoundAfter, RunsAfter, ListedAfter, Set.mem_ofPred_eq, hunfound]
    constructor
    · rintro (⟨hruns, hnew⟩ | ⟨rfl, hself, hparent, hnew⟩)
      · exact ⟨Or.inl hruns, hnew⟩
      · exact ⟨Or.inr ⟨rfl, hself, hparent⟩, hnew⟩
    · rintro ⟨hruns | ⟨rfl, hself, hparent⟩, hnew⟩
      · exact Or.inl ⟨hruns, hnew⟩
      · exact Or.inr ⟨rfl, hself, hparent, hnew⟩
  | exit q | update listed stat | sample files | prune timestamp =>
    simp only [unfoundAfter, RunsAfter, ListedAfter, Set.mem_ofPred_eq, hunfound]
    tauto
  | reap | check | timeout => exact hunfound

/-- Where none is unfound, every running process of the group is in the list. -/
theorem Accurate.listed (hw : Accurate w) (hphase : w.system.phase ≠ .raised)
    (hnone : w.unfound = ∅) {pid : Pid} (hruns : RunsInGroup w.system pid) :
    pid ∈ w.system.monitor.pidList := by
  by_contra hnew
  have hmem := (hw hphase pid).mpr ⟨hruns, hnew⟩
  rw [hnone] at hmem
  exact hmem

/-- Where none of the group runs, none is unfound. -/
theorem Accurate.none_unfound (hw : Accurate w) (hphase : w.system.phase ≠ .raised)
    (hnobody : ∀ pid, ¬ RunsInGroup w.system pid) : w.unfound = ∅ := by
  rw [Set.eq_empty_iff_forall_notMem]
  intro pid hmem
  exact hnobody pid ((hw hphase pid).mp hmem).1

/-- A step of the loop is taken in its phase. -/
theorem next_prune_phase {s : System} {timestamp : ℚ} (h : next s (.prune timestamp) = some t) :
    s.phase = .prune := by
  by_contra hphase
  rw [next, if_neg hphase] at h
  cases h

/-- So is a sweep. -/
theorem next_sample_phase {s : System} {files : Pid → Option Files}
    (h : next s (.sample files) = some t) : s.phase = .sample := by
  by_contra hphase
  rw [next, if_neg hphase] at h
  cases h

/-- The condition says exactly when a step leaves the exit safe. -/
theorem foundInTime_iff (hs : Consistent w.system) (hw : Accurate w)
    (hsafe : SafeExit w.system) :
    FoundInTime w e ↔ ∀ t, next w.system e = some t → SafeExit t := by
  cases e with
  | fork parent child =>
    exact iff_of_true trivial fun t h => (fork_undisturbed h).safeExit hs hsafe
  | exit pid => exact iff_of_true trivial fun t h => (exit_undisturbed h).safeExit hs hsafe
  | reap pid => exact iff_of_true trivial fun t h => (reap_undisturbed h).safeExit hs hsafe
  | update listed stat =>
    exact iff_of_true trivial fun t h => (update_undisturbed h).safeExit hs hsafe
  | check => exact iff_of_true trivial fun t h => (check_undisturbed h).safeExit hs hsafe
  | timeout => exact iff_of_true trivial fun t h => (timeout_undisturbed h).safeExit hs hsafe
  | prune timestamp =>
    constructor
    · intro h t hnext
      have hphase := next_prune_phase hnext
      refine ((prune_flags hs hnext).safeExit_iff hs hsafe).mpr fun hall pid hruns => ?_
      have hlisted := hw.listed (by rw [hphase]; decide) (h hphase hall) hruns
      exact (hall pid hlisted).not_runs hruns
    · intro h hphase hall
      have hnext : next w.system (.prune timestamp) = some _ := if_pos hphase
      have hnobody := ((prune_flags hs hnext).safeExit_iff hs hsafe).mp (h _ hnext) hall
      exact hw.none_unfound (by rw [hphase]; decide) hnobody
  | sample files =>
    constructor
    · intro h t hnext
      have hphase := next_sample_phase hnext
      refine ((sample_flags hs hnext).safeExit_iff hs hsafe).mpr fun hone pid hruns => ?_
      obtain ⟨last, hlist, hfiles⟩ := hone
      obtain ⟨hstopped, hnone⟩ := h hphase last hlist hfiles
      have hlisted := hw.listed (by rw [hphase]; decide) hnone hruns
      rw [hlist, List.mem_singleton] at hlisted
      exact hstopped (hlisted ▸ hruns)
    · intro h hphase last hlist hfiles
      have hnext : next w.system (.sample files) = some _ := if_pos hphase
      have hnobody := ((sample_flags hs hnext).safeExit_iff hs hsafe).mp (h _ hnext)
        ⟨last, hlist, hfiles⟩
      exact ⟨hnobody last, hw.none_unfound (by rw [hphase]; decide) hnobody⟩

/-- A watch that is kept goes on. -/
theorem watched_step (hs : Consistent w.system) (hw : Accurate w)
    (hwatched : w.system.phase ≠ .raised → Watched w.system) (hkeep : KeepsWatch w e)
    (h : next w.system e = some t) (hraised : t.phase ≠ .raised) : Watched t := by
  have hbefore : w.system.phase ≠ .raised := fun hphase => hraised (raised_stays hphase h)
  unfold Watched
  simp only [next_runs hs h, next_listed hs h hraised]
  rcases hwatched hbefore with ⟨pid, hlisted, hruns⟩ | hnobody
  · cases e with
    | fork parent child => exact Or.inl ⟨pid, hlisted, Or.inl hruns⟩
    | exit q =>
      by_cases hother : ∃ p ∈ w.system.monitor.pidList, RunsInGroup w.system p ∧ p ≠ q
      · obtain ⟨p, hp, hpruns⟩ := hother
        exact Or.inl ⟨p, hp, hpruns⟩
      · -- The last one of the list exits, and all that run are in the list.
        have hlast : ∀ p ∈ w.system.monitor.pidList, RunsInGroup w.system p → p = q := by
          intro p hp hpruns
          by_contra hne
          exact hother ⟨p, hp, hpruns, hne⟩
        have hnone := hkeep (hlast pid hlisted hruns ▸ hlisted) hlast
        refine Or.inr fun p hp => hp.2 ?_
        exact hlast p (hw.listed hbefore hnone hp.1) hp.1
    | prune timestamp =>
      exact Or.inl ⟨pid, ⟨hlisted, fun hfinished => hfinished.not_runs hruns⟩, hruns⟩
    | update listed stat => exact Or.inl ⟨pid, Or.inl hlisted, hruns⟩
    | sample files =>
      obtain ⟨p, hp, hpruns, hkept⟩ := hkeep (next_sample_phase h) ⟨pid, hlisted, hruns⟩
      exact Or.inl ⟨p, ⟨hp, hkept⟩, hpruns⟩
    | reap | check | timeout => exact Or.inl ⟨pid, hlisted, hruns⟩
  · refine Or.inr fun pid hpid => ?_
    cases e with
    | fork parent child =>
      rcases hpid with hruns | ⟨-, -, hparent⟩
      · exact hnobody pid hruns
      · exact hnobody parent hparent
    | exit q => exact hnobody pid hpid.1
    | _ => exact hnobody pid hpid

/-- A watch that is kept finds in time. -/
theorem foundInTime_of_keepsWatch (hw : Accurate w)
    (hwatched : w.system.phase ≠ .raised → Watched w.system) (hkeep : KeepsWatch w e) :
    FoundInTime w e := by
  cases e with
  | prune timestamp =>
    intro hphase hall
    have hbefore : w.system.phase ≠ .raised := by rw [hphase]; decide
    refine hw.none_unfound hbefore ((hwatched hbefore).resolve_left ?_)
    rintro ⟨pid, hlisted, hruns⟩
    exact (hall pid hlisted).not_runs hruns
  | sample files =>
    intro hphase last hlist hfiles
    have hbefore : w.system.phase ≠ .raised := by rw [hphase]; decide
    have hunreadable : unreadable files last = true := by rw [unreadable, hfiles]; rfl
    have hnobody : ∀ pid, ¬ RunsInGroup w.system pid := by
      refine (hwatched hbefore).resolve_left fun hsome => ?_
      obtain ⟨pid, hlisted, -, hkept⟩ := hkeep hphase hsome
      rw [hlist, List.mem_singleton] at hlisted
      subst hlisted
      -- The sweep visits the only process of the list.
      refine hkept ⟨?_, hunreadable⟩
      rw [hlist]
      exact List.mem_singleton_self pid
    exact ⟨hnobody last, hw.none_unfound hbefore hnobody⟩
  | _ => trivial

end Watching

/-- Watching does not interfere. -/
theorem run_watch (w : Watch) (es : List Event) :
    run step w.system es = (run watch w es).map fun out => (out.1, out.2.system) := by
  induction es generalizing w with
  | nil => rfl
  | cons e es ih =>
    simp only [run, watch]
    cases hstep : step w.system e with
    | error u => rfl
    | ok out =>
      obtain ⟨r, t⟩ := out
      have hrest := ih ⟨t, unfoundAfter w e⟩
      simp only [Except.map] at hrest ⊢
      rw [hrest]
      cases run watch ⟨t, unfoundAfter w e⟩ es <;> rfl

/-- What a step of a watch does. -/
theorem watch_eq_ok {w w' : Watch} {e : Event} {r : Unit} :
    watch w e = .ok (r, w') ↔ ∃ t, next w.system e = some t ∧ w' = ⟨t, unfoundAfter w e⟩ := by
  unfold watch step
  cases next w.system e with
  | none => simp [Except.map]
  | some t => simp [Except.map, eq_comm]

/-- An exit is safe along the run of a watch if it is along the run of the loop. -/
theorem exitsSafely_iff_watch (w : Watch) (es : List Event) :
    ExitsSafely w.system es ↔ ∀ front back rs w', es = front ++ back →
      run watch w front = .ok (rs, w') → SafeExit w'.system := by
  constructor
  · intro h front back rs w' hsplit hrun
    refine h front back rs w'.system hsplit ?_
    rw [run_watch, hrun]
    rfl
  · intro h front back rs t hsplit hrun
    rw [run_watch] at hrun
    cases hwatch : run watch w front with
    | error u =>
      rw [hwatch] at hrun
      cases hrun
    | ok out =>
      rw [hwatch] at hrun
      cases hrun
      exact h front back _ _ hsplit hwatch

/-- The monitor thinks that everyone is dead, or has exited, only when no other process of
its group runs, if and only if no process is unfound whenever it finds that its list is
finished. It is enough that none is unfound whenever the last process of the list exits,
once a child runs. -/
theorem exits_safely_iff (procs : ProcTable) (pid : Pid) {children : List Pid}
    (timeStart endTime : ℚ) (monitorFile : Bool) (es : List Event) (hne : children ≠ [])
    (hnodup : children.Nodup) :
    let s := System.start procs pid children timeStart endTime monitorFile
    (Always watch FoundInTime (.start s) es ↔ ExitsSafely s es) ∧
      ((∃ child ∈ children, RunsInGroup s child) → Always watch KeepsWatch (.start s) es →
        ExitsSafely s es) := by
  intro s
  obtain ⟨hs, hsafe⟩ := start_consistent procs pid timeStart endTime monitorFile hne hnodup
  have hinit : Accurate (.start s) := fun _ pid => Iff.rfl
  have hkept : ∀ w e r w', Consistent w.system ∧ Accurate w → watch w e = .ok (r, w') →
      Consistent w'.system ∧ Accurate w' := by
    rintro w e r w' ⟨hs, hw⟩ hstep
    obtain ⟨t, hnext, rfl⟩ := watch_eq_ok.mp hstep
    exact ⟨next_consistent hs hnext, accurate_step hs hw hnext⟩
  have hexact : ∀ w e, Consistent w.system ∧ Accurate w → SafeExit w.system →
      (FoundInTime w e ↔ ∀ r w', watch w e = .ok (r, w') → SafeExit w'.system) := by
    rintro w e ⟨hs, hw⟩ hsafe
    rw [foundInTime_iff hs hw hsafe]
    constructor
    · intro h r w' hstep
      obtain ⟨t, hnext, rfl⟩ := watch_eq_ok.mp hstep
      exact h t hnext
    · intro h t hnext
      exact h () _ (watch_eq_ok.mpr ⟨t, hnext, rfl⟩)
  have hiff : Always watch FoundInTime (.start s) es ↔ ExitsSafely s es :=
    (always_iff hkept hexact ⟨hs, hinit⟩ hsafe).trans (exitsSafely_iff_watch (.start s) es).symm
  refine ⟨hiff, fun hruns hkeep => hiff.mp ?_⟩
  have hwatched : Watched s := Or.inl hruns
  refine guarded_rule (R := fun w _ => (Consistent w.system ∧ Accurate w) ∧
    (w.system.phase ≠ .raised → Watched w.system)) ?_ ?_ ⟨⟨hs, hinit⟩, fun _ => hwatched⟩ hkeep
  · rintro w g e r w' ⟨hB, hw⟩ hkeep hstep
    refine ⟨hkept w e r w' hB hstep, ?_⟩
    obtain ⟨t, hnext, rfl⟩ := watch_eq_ok.mp hstep
    exact watched_step hB.1 hB.2 hw hkeep hnext
  · rintro w g e ⟨hB, hw⟩ hkeep
    exact foundInTime_of_keepsWatch hB.2 hw hkeep

/-- The shell starts a process and exits: the monitor exits while the process runs. -/
theorem exit_leaves_child_running :
    ∃ rs t, run step (.start shellTable 1 [2] 0 0 false)
        [.fork 2 3, .exit 2, .prune (1 / 2), .update [1, 2, 3] (fun _ => none), .check] =
          .ok (rs, t) ∧ t.phase = .exited ∧ ¬ SafeExit t := by
  have hout : (run step (.start shellTable 1 [2] 0 0 false) [.fork 2 3, .exit 2, .prune (1 / 2),
      .update [1, 2, 3] (fun _ => none), .check]).map
        (fun out => (out.2.phase, out.2.self, out.2.procs 3)) =
          .ok (.exited, 1, some ⟨1, true⟩) := by
    decide +kernel
  obtain ⟨rs, t, hrun, hstate⟩ :=
    run_observe (f := fun t : System => (t.phase, t.self, t.procs 3)) hout
  simp only [Prod.mk.injEq] at hstate
  obtain ⟨hphase, hself, hproc⟩ := hstate
  refine ⟨rs, t, hrun, hphase, fun hsafe => ?_⟩
  exact hsafe (Or.inr hphase) 3 ⟨by rw [hself]; decide, _, hproc, hself.symm, rfl⟩

/-- The process that the shell has started exits first, and the monitor exits after both. -/
theorem exits_safely_iff_shell :
    ∃ rs t, run step (.start shellTable 1 [2] 0 0 false)
        [.fork 2 3, .exit 3, .reap 3, .exit 2, .prune (1 / 2), .update [1] (fun _ => none),
          .check] = .ok (rs, t) ∧ t.phase = .exited ∧ SafeExit t := by
  have hout : (run step (.start shellTable 1 [2] 0 0 false) [.fork 2 3, .exit 3, .reap 3,
      .exit 2, .prune (1 / 2), .update [1] (fun _ => none), .check]).map
        (fun out => out.2.phase) = .ok .exited := by
    decide +kernel
  obtain ⟨rs, t, hrun, hphase⟩ := run_observe (f := System.phase) hout
  refine ⟨rs, t, hrun, hphase, ?_⟩
  refine (exits_safely_iff shellTable 1 0 0 false _ (by decide) (by decide)).2
    ⟨2, by decide, by decide, _, rfl, rfl, rfl⟩ ?_ _ [] rs t (List.append_nil _).symm hrun
  -- The only unfound process is the child of the shell, until it exits.
  have hnone : ∀ pid, pid ≠ 1 ∧ (∃ proc, shellTable pid = some proc ∧ proc.group = 1 ∧
      proc.running = true) → pid ∈ [2] := by
    rintro pid ⟨hself, proc, hproc, -, -⟩
    unfold shellTable at hproc
    split_ifs at hproc with hpid
    exact List.mem_singleton.mpr (hpid.resolve_left hself)
  refine always_cons trivial rfl (always_cons ?_ rfl (always_cons trivial rfl
    (always_cons ?_ rfl ⟨trivial, fun _ _ _ => ⟨trivial, fun _ _ _ => ⟨trivial, fun _ _ _ =>
      trivial⟩⟩⟩)))
  · -- The child is forked and exits before the shell does.
    intro hlisted
    cases hlisted with
    | tail _ h => cases h
  · intro _ _
    refine Set.eq_empty_iff_forall_notMem.mpr fun pid hpid => ?_
    obtain ⟨hstart | ⟨hchild, -⟩, hother⟩ := hpid
    · exact hstart.2 (hnone pid hstart.1)
    · exact hother hchild

end LazyFS.UnfoundProcesses
