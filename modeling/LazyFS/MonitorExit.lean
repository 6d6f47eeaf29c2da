import LazyFS.GuardedRun
import LazyFS.SamplingSweeps

/-!
# When the monitor exits

The monitor looks at its list of processes once in each round, and ends when the
list was empty at some time. Meanwhile the processes of the group fork and exit.
New processes get into the list only when the process table is searched, which
happens once a second and only in the first minute, so the list can run empty while
the children of its last process are still running.
-/

namespace LazyFS.MonitorExit

open PythonText GuardedRun IndexedLoops ProcFiles ResourceMonitor SamplingSweeps

/-- What `monitoring_loop` does next. -/
inductive Phase where
  | prune
  | update
  | check
  | sample
  | timeout
  /-- It has returned because all child processes have died. -/
  | exited
  /-- It has returned because of the time limit. -/
  | timedOut
  /-- An exception has ended it. -/
  | raised
  deriving DecidableEq

/-- The state of the loop and of the processes. Times are in seconds. -/
structure System where
  procs : ProcTable
  monitor : Monitor
  phase : Phase
  timeStart : ℚ
  timestamp : ℚ
  lastSubprocessUpdate : ℚ
  /-- The time limit, or zero. -/
  endTime : ℚ
  /-- Whether there is a monitor file. -/
  monitorFile : Bool

/-- The loop when it begins, in the process `pid` and with the children it has started. -/
def System.start (procs : ProcTable) (pid : Pid) (children : List Pid) (timeStart endTime : ℚ)
    (monitorFile : Bool) : System :=
  ⟨procs, .init pid children, .prune, timeStart, timeStart, timeStart, endTime, monitorFile⟩

/-- The process of the monitor, which leads its group. -/
def System.self (s : System) : Pid := s.monitor.processGroupId

/-- What a process does, or a step of the loop with what it finds. -/
inductive Event where
  | fork (parent child : Pid)
  | exit (pid : Pid)
  /-- A parent waits for a child that has exited. -/
  | reap (pid : Pid)
  | prune (timestamp : ℚ)
  | update (listed : List Pid) (stat : Pid → Option Bytes)
  | check
  | sample (files : Pid → Option Files)
  | timeout

/-- The next state, if the event is possible. -/
def next (s : System) : Event → Option System
  | .fork parent child =>
    match s.procs parent, s.procs child with
    | some proc, none =>
      if proc.running = true ∧ parent ≠ s.self then
        some { s with procs := Function.update s.procs child (some proc) }
      else none
    | _, _ => none
  | .exit pid =>
    match s.procs pid with
    | some proc =>
      if proc.running = true ∧ pid ≠ s.self then
        some { s with procs := Function.update s.procs pid (some { proc with running := false }) }
      else none
    | none => none
  | .reap pid =>
    match s.procs pid with
    | some proc =>
      if proc.running = false ∧ pid ∉ s.monitor.pidDict then
        some { s with procs := Function.update s.procs pid none }
      else none
    | none => none
  | .prune timestamp =>
    if s.phase = .prune then
      let pruned := prunePidList s.procs s.monitor
      some { s with
        procs := pruned.2, monitor := pruned.1, phase := .update, timestamp := timestamp }
    else none
  | .update listed stat =>
    if s.phase = .update then
      if s.timestamp < s.timeStart + 60 ∧ s.timestamp - s.lastSubprocessUpdate ≥ 1 then
        match updatePidTree stat listed s.monitor with
        | some monitor =>
          some { s with
            monitor := monitor, lastSubprocessUpdate := s.timestamp, phase := .check }
        | none => some { s with phase := .raised }
      else some { s with phase := .check }
    else none
  | .check =>
    if s.phase = .check then
      if isEveryoneDead s.monitor then some { s with phase := .exited }
      else if s.monitorFile then some { s with phase := .sample }
      else some { s with phase := .timeout }
    else none
  | .sample files =>
    if s.phase = .sample then
      some { s with monitor := (getRawStats files s.monitor).2, phase := .timeout }
    else none
  | .timeout =>
    if s.phase = .timeout then
      if s.endTime ≠ 0 ∧ s.timestamp > s.endTime then some { s with phase := .timedOut }
      else some { s with phase := .prune }
    else none

/-- A step is an event that is possible. -/
def step (s : System) (e : Event) : Except Unit (Unit × System) :=
  match next s e with
  | some t => .ok ((), t)
  | none => .error ()

/-- A process of the group that is not the monitor still runs. -/
def RunsInGroup (s : System) (pid : Pid) : Prop :=
  pid ≠ s.self ∧ ∃ proc, s.procs pid = some proc ∧ proc.group = s.self ∧ proc.running = true

/-- The monitor thinks that everyone is dead, or has exited for that reason, only when
no process of its group runs any more. -/
def SafeExit (s : System) : Prop :=
  isEveryoneDead s.monitor = true ∨ s.phase = .exited → ∀ pid, ¬ RunsInGroup s pid

/-- A listed process that a prune removes: a child that has exited, or a process that
is not there any more. -/
def Finished (s : System) (pid : Pid) : Prop :=
  (pid ∈ s.monitor.pidDict ∧ isRunning s.procs pid = false) ∨ s.procs pid = none

/-- What every step keeps: no process is listed twice, the flag is set when the list
is empty, and the exit is taken only with the flag set. -/
structure Consistent (s : System) : Prop where
  nodup : s.monitor.pidList.Nodup
  flagged : s.monitor.pidList = [] → s.monitor.lastDied = true
  exited : s.phase = .exited → s.monitor.lastDied = true

/-- A step replies nothing. -/
theorem step_eq_ok {s t : System} {e : Event} {r : Unit} :
    step s e = .ok (r, t) ↔ next s e = some t := by
  unfold step
  cases next s e with
  | none => simp
  | some u => simp

/-- In a consistent state the flag decides. -/
theorem safeExit_iff {s : System} (hs : Consistent s) :
    SafeExit s ↔ (s.monitor.lastDied = true → ∀ pid, ¬ RunsInGroup s pid) := by
  have hflag : isEveryoneDead s.monitor = true ∨ s.phase = .exited ↔
      s.monitor.lastDied = true := by
    unfold isEveryoneDead
    rw [Bool.or_eq_true, decide_eq_true_eq]
    constructor
    · intro h
      rcases h with (hflag | hempty) | hexited
      · exact hflag
      · exact hs.flagged hempty
      · exact hs.exited hexited
    · exact fun h => Or.inl (Or.inl h)
  unfold SafeExit
  rw [hflag]

/-- A step that neither prunes nor sweeps leaves the flag and adds no running process
to a group in which none runs. -/
structure Undisturbed (s t : System) : Prop where
  lastDied : t.monitor.lastDied = s.monitor.lastDied
  nodup : s.monitor.pidList.Nodup → t.monitor.pidList.Nodup
  pidList : t.monitor.pidList = [] → s.monitor.pidList = []
  exited : t.phase = .exited → s.phase = .exited ∨ isEveryoneDead s.monitor = true
  runs : ∀ pid, RunsInGroup t pid → ∃ q, RunsInGroup s q

/-- What a search for processes does to a monitor: the list grows, at most. -/
structure Grows (m m' : Monitor) : Prop where
  lastDied : m'.lastDied = m.lastDied
  processGroupId : m'.processGroupId = m.processGroupId
  nodup : m.pidList.Nodup → m'.pidList.Nodup
  pidList : m'.pidList = [] → m.pidList = []

/-- A monitor that does not change has grown. -/
theorem Grows.refl (m : Monitor) : Grows m m := ⟨rfl, rfl, id, id⟩

/-- Growth is transitive. -/
theorem Grows.trans {m m' m'' : Monitor} (h : Grows m m') (h' : Grows m' m'') : Grows m m'' :=
  ⟨h'.lastDied.trans h.lastDied, h'.processGroupId.trans h.processGroupId,
    fun hnodup => h'.nodup (h.nodup hnodup), fun hempty => h.pidList (h'.pidList hempty)⟩

/-- What a search does with a process: it is passed over, or joins one of the lists. -/
inductive Searched (stat : Pid → Option Bytes) (m : Monitor) (pid : Pid) : Monitor → Prop
  | passed (h : pid ∈ m.pidList ∨ pid ∈ m.ignorePidList ∨ (stat pid).bind pgrp = none) :
    Searched stat m pid m
  | found (hnew : pid ∉ m.pidList) (hignored : pid ∉ m.ignorePidList)
    (hgroup : (stat pid).bind pgrp = some (m.processGroupId : ℤ)) :
    Searched stat m pid { m with pidList := m.pidList ++ [pid] }
  | ignored {group : ℤ} (hnew : pid ∉ m.pidList) (hgroup : (stat pid).bind pgrp = some group)
    (hother : group ≠ m.processGroupId) :
    Searched stat m pid { m with ignorePidList := m.ignorePidList ++ [pid] }

/-- There is nothing else that the body of the search does. -/
theorem updatePid_searched {stat : Pid → Option Bytes} {m m' : Monitor} {pid : Pid}
    (h : updatePid stat m pid = some m') : Searched stat m pid m' := by
  unfold updatePid at h
  by_cases hknown : pid ∈ m.pidList ∨ pid ∈ m.ignorePidList
  · rw [if_pos hknown, Option.some.injEq] at h
    exact h ▸ .passed (hknown.imp_right Or.inl)
  · rw [if_neg hknown] at h
    obtain ⟨hnew, hignored⟩ := not_or.mp hknown
    cases hstat : stat pid with
    | none =>
      rw [hstat, Option.some.injEq] at h
      exact h ▸ .passed (Or.inr (Or.inr (by rw [hstat]; rfl)))
    | some contents =>
      rw [hstat] at h
      obtain ⟨group, hgroup, rfl⟩ := Option.map_eq_some_iff.mp h
      have hread : (stat pid).bind pgrp = some group := by
        rw [hstat]
        exact hgroup
      split_ifs with hsame
      · exact .found hnew hignored (hsame ▸ hread)
      · exact .ignored hnew hread hsame

/-- A process that is found is added to one of the two lists. -/
theorem updatePid_grows {stat : Pid → Option Bytes} {m m' : Monitor} {pid : Pid}
    (h : updatePid stat m pid = some m') : Grows m m' := by
  cases updatePid_searched h with
  | passed => exact Grows.refl m
  | found hnew =>
    refine ⟨rfl, rfl, fun hnodup => ?_, fun hempty => (List.append_eq_nil_iff.mp hempty).1⟩
    exact List.nodup_append.mpr ⟨hnodup, List.nodup_singleton pid, fun a ha b hb hab =>
      hnew (List.mem_singleton.mp hb ▸ hab ▸ ha)⟩
  | ignored => exact ⟨rfl, rfl, id, id⟩

/-- So are all that are found. -/
theorem updatePidTree_grows {stat : Pid → Option Bytes} {listed : List Pid} {m m' : Monitor}
    (h : updatePidTree stat listed m = some m') : Grows m m' := by
  unfold updatePidTree at h
  induction listed generalizing m with
  | nil =>
    cases h
    exact Grows.refl _
  | cons pid listed ih =>
    obtain ⟨u, hfirst, hrest⟩ := Option.bind_eq_some_iff.mp h
    exact (updatePid_grows hfirst).trans (ih hrest)

section Steps

variable {s t : System}

/-- A process that stops, or is not there any more, disturbs nothing. -/
theorem stop_undisturbed (s : System) (pid : Pid) {left : Option Proc}
    (h : ∀ proc, left = some proc → proc.running = false) :
    Undisturbed s { s with procs := Function.update s.procs pid left } := by
  refine ⟨rfl, id, id, Or.inl, ?_⟩
  intro p hruns
  obtain ⟨hself, q, hq, hgroup, hrunning⟩ := hruns
  dsimp only at hq
  by_cases hp : p = pid
  · subst hp
    rw [Function.update_self] at hq
    rw [h q hq] at hrunning
    cases hrunning
  · rw [Function.update_of_ne hp] at hq
    exact ⟨p, hself, q, hq, hgroup, hrunning⟩

/-- Nor does the loop when it only goes on, unless it exits. -/
theorem phase_undisturbed (s : System) {phase : Phase}
    (h : phase = .exited → isEveryoneDead s.monitor = true) :
    Undisturbed s { s with phase := phase } :=
  ⟨rfl, id, id, fun hexited => Or.inr (h hexited), fun pid hruns => ⟨pid, hruns⟩⟩

/-- A process forks only while it runs, and its child is in the same group. -/
theorem fork_undisturbed {parent child : Pid} (h : next s (.fork parent child) = some t) :
    Undisturbed s t := by
  simp only [next] at h
  split at h
  case h_2 => cases h
  case h_1 proc hparent hchild =>
    split_ifs at h with hguard
    cases h
    refine ⟨rfl, id, id, Or.inl, ?_⟩
    intro pid hruns
    obtain ⟨hself, q, hq, hgroup, hrunning⟩ := hruns
    dsimp only at hq
    by_cases hpid : pid = child
    · -- The child is in the group only if its parent is, and the parent runs.
      subst hpid
      rw [Function.update_self, Option.some.injEq] at hq
      subst hq
      exact ⟨parent, hguard.2, proc, hparent, hgroup, hrunning⟩
    · rw [Function.update_of_ne hpid] at hq
      exact ⟨pid, hself, q, hq, hgroup, hrunning⟩

/-- An exit leaves the monitor alone. -/
theorem exit_undisturbed {pid : Pid} (h : next s (.exit pid) = some t) : Undisturbed s t := by
  simp only [next] at h
  split at h
  case h_2 => cases h
  case h_1 proc hpid =>
    split_ifs at h with hguard
    cases h
    refine stop_undisturbed s pid fun left hleft => ?_
    cases hleft
    rfl

/-- So does the end of a zombie. -/
theorem reap_undisturbed {pid : Pid} (h : next s (.reap pid) = some t) : Undisturbed s t := by
  simp only [next] at h
  split at h
  case h_2 => cases h
  case h_1 proc hpid =>
    split_ifs at h with hguard
    cases h
    exact stop_undisturbed s pid nofun

/-- A search for processes sets no flag. -/
theorem update_undisturbed {listed : List Pid} {stat : Pid → Option Bytes}
    (h : next s (.update listed stat) = some t) : Undisturbed s t := by
  simp only [next] at h
  split_ifs at h with hphase hdue
  · cases hsearch : updatePidTree stat listed s.monitor with
    | none =>
      rw [hsearch] at h
      cases h
      exact phase_undisturbed s nofun
    | some monitor =>
      rw [hsearch] at h
      cases h
      have hgrows := updatePidTree_grows hsearch
      refine ⟨hgrows.lastDied, hgrows.nodup, hgrows.pidList, nofun, ?_⟩
      intro pid hruns
      obtain ⟨hne, proc, hproc, hgroup, hrunning⟩ := hruns
      exact ⟨pid, fun hself => hne (hself.trans hgrows.processGroupId.symm), proc, hproc,
        hgroup.trans hgrows.processGroupId, hrunning⟩
  · cases h
    exact phase_undisturbed s nofun

/-- The exit is taken only if everyone is thought to be dead. -/
theorem check_undisturbed (h : next s .check = some t) : Undisturbed s t := by
  simp only [next] at h
  split_ifs at h with hphase hdead hfile
  · cases h
    exact phase_undisturbed s fun _ => hdead
  · cases h
    exact phase_undisturbed s nofun
  · cases h
    exact phase_undisturbed s nofun

/-- So does a timeout. -/
theorem timeout_undisturbed (h : next s .timeout = some t) : Undisturbed s t := by
  simp only [next] at h
  split_ifs at h with hphase hlate
  · cases h
    exact phase_undisturbed s nofun
  · cases h
    exact phase_undisturbed s nofun

/-- What is not disturbed stays consistent. -/
theorem Undisturbed.consistent (h : Undisturbed s t) (hs : Consistent s) : Consistent t := by
  refine ⟨h.nodup hs.nodup, fun hempty => ?_, fun hexited => ?_⟩
  · rw [h.lastDied]
    exact hs.flagged (h.pidList hempty)
  · rw [h.lastDied]
    rcases h.exited hexited with hbefore | hdead
    · exact hs.exited hbefore
    · unfold isEveryoneDead at hdead
      rw [Bool.or_eq_true, decide_eq_true_eq] at hdead
      exact hdead.elim id hs.flagged

/-- A safe exit stays safe. -/
theorem Undisturbed.safeExit (h : Undisturbed s t) (hs : Consistent s) (hsafe : SafeExit s) :
    SafeExit t := by
  rw [safeExit_iff hs] at hsafe
  rw [safeExit_iff (h.consistent hs), h.lastDied]
  intro hflag pid hruns
  obtain ⟨q, hq⟩ := h.runs pid hruns
  exact hsafe hflag q hq

/-- What a prune removes is what is finished. -/
theorem mem_pidsToRemove {pid : Pid} (h : pid ∈ s.monitor.pidList) :
    pid ∈ pidsToRemove s.procs s.monitor ↔ Finished s pid := by
  have hpolled : pid ∈ polled s.procs s.monitor ↔
      pid ∈ s.monitor.pidDict ∧ isRunning s.procs pid = false := by
    simp [polled]
  have hgone : pidExists (waited s.procs (polled s.procs s.monitor)) pid = false ↔
      pid ∈ polled s.procs s.monitor ∨ s.procs pid = none := by
    unfold pidExists waited
    split_ifs with hmem
    · simp [hmem]
    · simp [hmem]
  simp only [pidsToRemove, List.mem_dedup, List.mem_append, List.mem_filter, h, true_and,
    Bool.not_eq_true', hgone, hpolled, Finished]
  tauto

/-- What is finished does not run. -/
theorem Finished.not_runs {pid : Pid} (h : Finished s pid) : ¬ RunsInGroup s pid := by
  intro hruns
  obtain ⟨-, proc, hproc, -, hrunning⟩ := hruns
  rcases h with ⟨-, hstopped⟩ | hgone
  · simp [isRunning, hproc, hrunning] at hstopped
  · rw [hproc] at hgone
    cases hgone

/-- A step that sets the flag under a condition. No process starts or stops by it. -/
structure Flags (s t : System) (cond : Prop) : Prop where
  consistent : Consistent t
  lastDied : t.monitor.lastDied = true ↔ s.monitor.lastDied = true ∨ cond
  runs : ∀ pid, RunsInGroup t pid ↔ RunsInGroup s pid

/-- It is safe if nobody runs under that condition. -/
theorem Flags.safeExit_iff {cond : Prop} (h : Flags s t cond) (hs : Consistent s)
    (hsafe : SafeExit s) : SafeExit t ↔ (cond → ∀ pid, ¬ RunsInGroup s pid) := by
  rw [MonitorExit.safeExit_iff hs] at hsafe
  rw [MonitorExit.safeExit_iff h.consistent, h.lastDied]
  simp only [h.runs]
  constructor
  · exact fun h hcond => h (Or.inr hcond)
  · intro h hset
    exact hset.elim hsafe h

/-- A prune sets the flag exactly when everything in the list is finished. -/
theorem prune_flags {timestamp : ℚ} (hs : Consistent s) (h : next s (.prune timestamp) = some t) :
    Flags s t (∀ pid ∈ s.monitor.pidList, Finished s pid) := by
  simp only [next] at h
  split_ifs at h with hphase
  cases h
  have hempty : s.monitor.pidList.diff (pidsToRemove s.procs s.monitor) = [] ↔
      ∀ pid ∈ s.monitor.pidList, Finished s pid := by
    rw [List.eq_nil_iff_forall_not_mem]
    refine forall_congr' fun pid => ?_
    rw [hs.nodup.mem_sdiff_iff, not_and_not_right]
    exact forall_congr' fun hmem => mem_pidsToRemove hmem
  have hflag : (prunePidList s.procs s.monitor).1.lastDied = true ↔
      s.monitor.lastDied = true ∨ ∀ pid ∈ s.monitor.pidList, Finished s pid := by
    simp only [prunePidList, Bool.or_eq_true, Bool.and_eq_true, decide_eq_true_eq, hempty]
    constructor
    · exact fun h => h.imp_right And.left
    · intro h
      rcases h with hset | hall
      · exact Or.inl hset
      · cases hlist : s.monitor.pidList with
        | nil => exact Or.inl (hs.flagged hlist)
        | cons pid pids =>
          have hmem : pid ∈ s.monitor.pidList := hlist ▸ List.mem_cons_self
          have hremoved := (mem_pidsToRemove hmem).mpr (hall pid hmem)
          exact Or.inr ⟨hlist ▸ hall, List.ne_nil_of_mem hremoved⟩
  refine ⟨⟨hs.nodup.diff, fun h => hflag.mpr (Or.inr (hempty.mp h)), nofun⟩, hflag, ?_⟩
  intro pid
  have hproc : (∃ proc, waited s.procs (polled s.procs s.monitor) pid = some proc ∧
      proc.group = s.self ∧ proc.running = true) ↔
        ∃ proc, s.procs pid = some proc ∧ proc.group = s.self ∧ proc.running = true := by
    unfold waited
    split_ifs with hmem
    · -- Only what does not run is waited for.
      have hstopped := (List.mem_filter.mp hmem).2
      refine iff_of_false (by simp) ?_
      intro h
      obtain ⟨proc, hproc, -, hrunning⟩ := h
      simp [isRunning, hproc, hrunning] at hstopped
    · rfl
  exact and_congr_right fun _ => hproc

/-- A sweep sets the flag exactly when its one process cannot be read. -/
theorem sample_flags {files : Pid → Option Files} (hs : Consistent s)
    (h : next s (.sample files) = some t) :
    Flags s t (∃ pid, s.monitor.pidList = [pid] ∧ files pid = none) := by
  simp only [next] at h
  split_ifs at h with hphase
  cases h
  rw [getRawStats_eq files hs.nodup]
  have hleft : survivors (unreadable files) s.monitor.pidList = [] ↔ s.monitor.pidList = [] ∨
      ∃ pid, s.monitor.pidList = [pid] ∧ files pid = none := by
    simp only [survivors_eq_nil_iff, unreadable, Option.isNone_iff_eq_none]
  have hflag : (s.monitor.lastDied || (decide (s.monitor.pidList ≠ []) &&
      decide (survivors (unreadable files) s.monitor.pidList = []))) = true ↔
        s.monitor.lastDied = true ∨ ∃ pid, s.monitor.pidList = [pid] ∧ files pid = none := by
    simp only [Bool.or_eq_true, Bool.and_eq_true, decide_eq_true_eq, hleft]
    constructor
    · intro h
      rcases h with hset | ⟨hne, hempty | hone⟩
      · exact Or.inl hset
      · exact absurd hempty hne
      · exact Or.inr hone
    · intro h
      rcases h with hset | ⟨pid, hlist, hfiles⟩
      · exact Or.inl hset
      · exact Or.inr ⟨hlist ▸ List.cons_ne_nil pid [], Or.inr ⟨pid, hlist, hfiles⟩⟩
  refine ⟨⟨hs.nodup.sublist (survivors_sublist _ _), fun hempty => hflag.mpr ?_, ?_⟩, hflag,
    fun pid => Iff.rfl⟩
  · exact (hleft.mp hempty).imp_left hs.flagged
  · intro hexited
    cases hexited

/-- Every step keeps a state consistent. -/
theorem next_consistent {e : Event} (hs : Consistent s) (h : next s e = some t) :
    Consistent t := by
  cases e with
  | fork parent child => exact (fork_undisturbed h).consistent hs
  | exit pid => exact (exit_undisturbed h).consistent hs
  | reap pid => exact (reap_undisturbed h).consistent hs
  | prune timestamp => exact (prune_flags hs h).consistent
  | update listed stat => exact (update_undisturbed h).consistent hs
  | check => exact (check_undisturbed h).consistent hs
  | sample files => exact (sample_flags hs h).consistent
  | timeout => exact (timeout_undisturbed h).consistent hs

end Steps

/-- Nothing has died when the loop begins. -/
theorem start_consistent (procs : ProcTable) (pid : Pid) {children : List Pid}
    (timeStart endTime : ℚ) (monitorFile : Bool) (hne : children ≠ []) (hnodup : children.Nodup) :
    Consistent (.start procs pid children timeStart endTime monitorFile) ∧
      SafeExit (.start procs pid children timeStart endTime monitorFile) := by
  have hs : Consistent (.start procs pid children timeStart endTime monitorFile) :=
    ⟨hnodup, fun h => absurd h hne, nofun⟩
  exact ⟨hs, (safeExit_iff hs).mpr nofun⟩

/-- The monitor and a shell that it has started. -/
def shellTable : ProcTable := fun pid => if pid = 1 ∨ pid = 2 then some ⟨1, true⟩ else none

end LazyFS.MonitorExit
