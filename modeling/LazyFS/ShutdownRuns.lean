import LazyFS.GroupShutdown

/-!
# What a shutdown leaves running

When the monitor returns, every command that it has started has stopped, and when it
was killed, so was its group, as far as it may signal it. The calls of `terminate` never
nest, and without an interrupt the group is sent `SIGTERM` at most once. All of it rests
on the commands, though: once they have stopped no signal is sent any more, and a
process that they have left behind in the group runs on.
-/

namespace LazyFS.ShutdownRuns

open GuardedRun IndexedLoops ProcFiles ResourceMonitor MonitorExit GroupShutdown

section Systems

variable {s t u : System}

/-- What a step of a process or of the monitor does to the commands and to the group. -/
structure Evolves (s t : System) : Prop where
  self : t.self = s.self
  subset : ∀ c ∈ t.monitor.pidDict, c ∈ s.monitor.pidDict
  /-- A command has a process until it is dropped, -/
  known : ∀ c ∈ t.monitor.pidDict, (s.procs c).isSome → (t.procs c).isSome
  /-- which happens only when it has stopped. -/
  dropped : ∀ c ∈ s.monitor.pidDict, c ∉ t.monitor.pidDict → (s.procs c).isSome →
    isRunning s.procs c = false
  /-- What has stopped does not start again. -/
  stays : ∀ c, (s.procs c).isSome → isRunning s.procs c = false → isRunning t.procs c = false
  /-- No process enters the group when none runs in it. -/
  quiet : (∀ pid, ¬ RunsInGroup s pid) → ∀ pid, ¬ RunsInGroup t pid

/-- The table stays as it is. -/
theorem evolves_of_monitor (hprocs : t.procs = s.procs)
    (hdict : t.monitor.pidDict = s.monitor.pidDict) (hself : t.self = s.self) : Evolves s t := by
  refine ⟨hself, ?_, ?_, ?_, ?_, ?_⟩
  · rw [hdict]
    exact fun c => id
  · rw [hprocs]
    exact fun c _ => id
  · rw [hdict]
    exact fun c hc hnot => absurd hc hnot
  · rw [hprocs]
    exact fun c _ => id
  · unfold RunsInGroup
    rw [hprocs, hself]
    exact id

/-- The commands stay as they are. -/
theorem evolves_of_table {procs : ProcTable}
    (hknown : ∀ c ∈ s.monitor.pidDict, (s.procs c).isSome → (procs c).isSome)
    (hstays : ∀ c, (s.procs c).isSome → isRunning s.procs c = false → isRunning procs c = false)
    (hquiet : (∀ pid, ¬ RunsInGroup s pid) → ∀ pid, ¬ RunsInGroup { s with procs := procs } pid) :
    Evolves s { s with procs := procs } :=
  ⟨rfl, fun _ => id, hknown, fun _ hc hnot => absurd hc hnot, hstays, hquiet⟩

/-- Where nothing is disturbed, a quiet group stays quiet. -/
theorem Undisturbed.quiet (h : Undisturbed s t) :
    (∀ pid, ¬ RunsInGroup s pid) → ∀ pid, ¬ RunsInGroup t pid := by
  intro hquiet pid hruns
  obtain ⟨q, hq⟩ := h.runs pid hruns
  exact hquiet q hq

/-- One entry of the process table decides about one process. -/
theorem isRunning_update {procs : ProcTable} {pid c : Pid} {new : Option Proc} :
    isRunning (Function.update procs pid new) c =
      if c = pid then new.any Proc.running else isRunning procs c := by
  unfold isRunning
  rw [Function.update_apply]
  split_ifs <;> rfl

/-- A process that stops, or is not there any more, or changes its group. -/
theorem evolves_update {pid : Pid} {new : Option Proc}
    (hknown : pid ∈ s.monitor.pidDict → (s.procs pid).isSome → new.isSome)
    (hstays : (s.procs pid).isSome → isRunning s.procs pid = false → new.any Proc.running = false)
    (hquiet : (∀ pid, ¬ RunsInGroup s pid) →
      ∀ q, ¬ RunsInGroup { s with procs := Function.update s.procs pid new } q) :
    Evolves s { s with procs := Function.update s.procs pid new } := by
  refine evolves_of_table ?_ ?_ hquiet
  · intro c hc hsome
    rw [Function.update_apply]
    split_ifs with hpid
    · subst hpid
      exact hknown hc hsome
    · exact hsome
  · intro c hsome hstopped
    rw [isRunning_update]
    split_ifs with hpid
    · subst hpid
      exact hstays hsome hstopped
    · exact hstopped

/-- A fork adds a process under a free number. -/
theorem fork_evolves {parent child : Pid} (h : MonitorExit.next s (.fork parent child) = some t) :
    Evolves s t := by
  have hquiet := Undisturbed.quiet (fork_undisturbed h)
  simp only [MonitorExit.next] at h
  split at h
  case h_2 => cases h
  case h_1 proc hparent hchild =>
    split_ifs at h with hguard
    cases h
    -- The number of the child was free.
    refine evolves_update (fun _ _ => rfl) (fun hsome _ => ?_) hquiet
    rw [hchild] at hsome
    cases hsome

/-- An exit stops a process. -/
theorem exit_evolves {pid : Pid} (h : MonitorExit.next s (.exit pid) = some t) : Evolves s t := by
  have hquiet := Undisturbed.quiet (exit_undisturbed h)
  simp only [MonitorExit.next] at h
  split at h
  case h_2 => cases h
  case h_1 proc hpid =>
    split_ifs at h with hguard
    cases h
    exact evolves_update (fun _ _ => rfl) (fun _ _ => rfl) hquiet

/-- A zombie that another process waits for is not there any more. -/
theorem reap_evolves {pid : Pid} (h : MonitorExit.next s (.reap pid) = some t) : Evolves s t := by
  have hquiet := Undisturbed.quiet (reap_undisturbed h)
  simp only [MonitorExit.next] at h
  split at h
  case h_2 => cases h
  case h_1 proc hpid =>
    split_ifs at h with hguard
    cases h
    -- The monitor waits for its commands itself.
    exact evolves_update (fun hc _ => absurd hc hguard.2) (fun _ _ => rfl) hquiet

/-- A prune drops what has stopped, and waits for it. -/
theorem pruned_evolves (s : System) : Evolves s (pruned s) := by
  have hpolled : ∀ c ∈ polled s.procs s.monitor, isRunning s.procs c = false := by
    intro c hc
    simpa only [Bool.not_eq_true'] using (List.mem_filter.mp hc).2
  have hwaited : ∀ c, c ∉ polled s.procs s.monitor → (pruned s).procs c = s.procs c :=
    fun c hc => if_neg hc
  refine ⟨rfl, ?_, ?_, ?_, ?_, ?_⟩
  · intro c hc
    exact (List.mem_filter.mp hc).1
  · intro c hc hsome
    have hkept : c ∉ pidsToRemove s.procs s.monitor := of_decide_eq_true (List.mem_filter.mp hc).2
    have hnot : c ∉ polled s.procs s.monitor := fun h =>
      hkept (List.mem_dedup.mpr (List.mem_append_left _ h))
    rw [hwaited c hnot]
    exact hsome
  · intro c hc hdropped hsome
    have hremoved : c ∈ pidsToRemove s.procs s.monitor := by
      by_contra hnot
      exact hdropped (List.mem_filter.mpr ⟨hc, decide_eq_true hnot⟩)
    by_cases hmem : c ∈ polled s.procs s.monitor
    · exact hpolled c hmem
    · -- It is removed for want of a process, but it has one.
      rcases List.mem_append.mp (List.mem_dedup.mp hremoved) with hmem' | hgone
      · exact absurd hmem' hmem
      · have hnone := (List.mem_filter.mp hgone).2
        rw [Bool.not_eq_true', pidExists, waited, if_neg hmem, hsome] at hnone
        cases hnone
  · intro c hsome hstopped
    by_cases hmem : c ∈ polled s.procs s.monitor
    · have hnone : (pruned s).procs c = none := if_pos hmem
      rw [isRunning, hnone, Option.any_none]
    · rw [isRunning, hwaited c hmem]
      exact hstopped
  · intro hquiet pid hruns
    obtain ⟨hself, proc, hproc, hgroup, hrunning⟩ := hruns
    by_cases hmem : pid ∈ polled s.procs s.monitor
    · have hnone : (pruned s).procs pid = none := if_pos hmem
      rw [hnone] at hproc
      cases hproc
    · rw [hwaited pid hmem] at hproc
      exact hquiet pid ⟨hself, proc, hproc, hgroup, hrunning⟩

/-- A search for processes starts no command. -/
theorem updatePidTree_commands {stat : Pid → Option PythonText.Bytes} {listed : List Pid}
    {m m' : Monitor} (h : updatePidTree stat listed m = some m') :
    m'.pidDict = m.pidDict ∧ m'.processGroupId = m.processGroupId := by
  refine ⟨?_, (updatePidTree_grows h).processGroupId⟩
  unfold updatePidTree at h
  induction listed generalizing m with
  | nil =>
    cases h
    rfl
  | cons pid listed ih =>
    obtain ⟨u, hfirst, hrest⟩ := Option.bind_eq_some_iff.mp h
    rw [ih hrest]
    cases updatePid_searched hfirst <;> rfl

/-- Nor does a sweep. -/
theorem getRawStats_commands (files : Pid → Option Files) (m : Monitor) :
    (getRawStats files m).2.pidDict = m.pidDict ∧
      (getRawStats files m).2.processGroupId = m.processGroupId := by
  refine forEach_rule (I := fun m' : Monitor => m'.pidDict = m.pidDict ∧
    m'.processGroupId = m.processGroupId) ?_ ⟨rfl, rfl⟩
  intro m' pid hm
  unfold sampleProcess
  split
  · split_ifs <;> exact hm
  · dsimp only
    split_ifs <;> exact hm

/-- So does every event of the loop. -/
theorem next_evolves {e : MonitorExit.Event} (h : MonitorExit.next s e = some t) :
    Evolves s t := by
  cases e with
  | fork parent child => exact fork_evolves h
  | exit pid => exact exit_evolves h
  | reap pid => exact reap_evolves h
  | prune timestamp =>
    simp only [MonitorExit.next] at h
    split_ifs at h
    cases h
    have hpruned := pruned_evolves s
    exact ⟨hpruned.self, hpruned.subset, hpruned.known, hpruned.dropped, hpruned.stays,
      hpruned.quiet⟩
  | update listed stat =>
    simp only [MonitorExit.next] at h
    split_ifs at h
    · split at h
      case h_1 monitor hsearch =>
        cases h
        obtain ⟨hdict, hgroup⟩ := updatePidTree_commands hsearch
        exact evolves_of_monitor rfl hdict hgroup
      case h_2 =>
        cases h
        exact evolves_of_monitor rfl rfl rfl
    · cases h
      exact evolves_of_monitor rfl rfl rfl
  | check =>
    simp only [MonitorExit.next] at h
    split_ifs at h <;> (cases h; exact evolves_of_monitor rfl rfl rfl)
  | sample files =>
    simp only [MonitorExit.next] at h
    split_ifs at h
    cases h
    obtain ⟨hdict, hgroup⟩ := getRawStats_commands files s.monitor
    exact evolves_of_monitor rfl hdict hgroup
  | timeout =>
    simp only [MonitorExit.next] at h
    split_ifs at h <;> (cases h; exact evolves_of_monitor rfl rfl rfl)

end Systems

section Monitors

variable {s t : ProcessMonitor} {e : GroupShutdown.Event} {r : Reply}

/-- What steps of processes leave alone. -/
theorem process_monitor {s t : System} {e : MonitorExit.Event} (he : isProcess e = true)
    (h : MonitorExit.next s e = some t) : t.monitor = s.monitor := by
  cases e with
  | fork parent child | exit pid | reap pid =>
    simp only [MonitorExit.next] at h
    split at h
    · split_ifs at h
      cases h
      rfl
    · cases h
  | prune | update | check | sample | timeout => cases he

/-- A signal stops processes, and starts none. -/
theorem stopped_evolves (s : System) (hit : Pid → Proc → Bool) :
    Evolves s { s with procs := stopped s.procs hit } := by
  have hrunning : ∀ c, isRunning (stopped s.procs hit) c = true → isRunning s.procs c = true := by
    intro c hc
    unfold isRunning stopped at *
    cases hproc : s.procs c with
    | none =>
      rw [hproc] at hc
      cases hc
    | some proc =>
      rw [hproc, Option.map_some, Option.any_some] at hc
      split_ifs at hc
      exact hc
  refine evolves_of_table ?_ ?_ ?_
  · intro c _ hsome
    rw [stopped, Option.isSome_map]
    exact hsome
  · intro c _ hnot
    rw [Bool.eq_false_iff] at hnot ⊢
    exact fun h => hnot (hrunning c h)
  · intro hquiet pid hruns
    obtain ⟨hself, proc, hproc, hgroup, hrun⟩ := hruns
    obtain ⟨before, hbefore, rfl⟩ := Option.map_eq_some_iff.mp hproc
    split_ifs at hgroup hrun
    exact hquiet pid ⟨hself, before, hbefore, hgroup, hrun⟩

/-- A process that runs in the group after a signal was not hit by it. -/
theorem not_hit_of_runs {s : System} {hit : Pid → Proc → Bool} {pid : Pid}
    (h : RunsInGroup { s with procs := stopped s.procs hit } pid) :
    RunsInGroup s pid ∧ ∃ proc, proc.group = s.self ∧ hit pid proc = false := by
  obtain ⟨hself, proc, hproc, hgroup, hrun⟩ := h
  obtain ⟨before, hbefore, rfl⟩ := Option.map_eq_some_iff.mp hproc
  split_ifs at hgroup hrun with hhit
  exact ⟨⟨hself, before, hbefore, hgroup, hrun⟩, before, hgroup, Bool.eq_false_of_not_eq_true hhit⟩

/-- The place of a call does not concern the system. -/
theorem goOn_system (call : Call) (rest : List Call) (place : Terminate) :
    (goOn s call rest place).system = s.system := by
  unfold goOn
  split_ifs <;> rfl

/-- A call that goes on or returns kills nobody. -/
theorem goOn_killed {call : Call} {rest : List Call} {place : Terminate}
    (h : (goOn s call rest place).main = .killed) : s.main = .killed := by
  unfold goOn at h
  split_ifs at h
  · exact h
  · exact h

/-- The handler only begins a call. -/
theorem termTrap_system (s : ProcessMonitor) : (termTrap s).system = s.system := by
  unfold termTrap
  split_ifs <;> rfl

/-- The main program is where it was. -/
theorem termTrap_main (s : ProcessMonitor) : (termTrap s).main = s.main := by
  unfold termTrap
  split_ifs <;> rfl

/-- So do the steps of a call of `terminate`. -/
theorem terminate_evolves (s : ProcessMonitor) (call : Call) (rest : List Call) :
    Evolves s.system (terminate s call rest).system := by
  unfold terminate
  split
  · rw [goOn_system]
    exact pruned_evolves s.system
  · rw [termTrap_system, goOn_system]
    exact stopped_evolves s.system _
  · rw [goOn_system]
    exact pruned_evolves s.system
  · exact stopped_evolves s.system _

/-- A process that leaves the group does not stop. -/
theorem setpgrp_evolves {pid : Pid} (h : GroupShutdown.next s (.setpgrp pid) = some t) :
    Evolves s.system t.system := by
  simp only [GroupShutdown.next] at h
  split at h
  case h_2 => cases h
  case h_1 proc hpid =>
    split_ifs at h with hguard
    cases h
    refine evolves_update (fun _ _ => rfl) (fun _ hstopped => ?_) ?_
    · rw [isRunning, hpid] at hstopped
      exact hstopped
    · intro hquiet q hruns
      obtain ⟨hself, proc', hproc', hgroup, hrun⟩ := hruns
      dsimp only at hproc'
      by_cases hq : q = pid
      · -- It leaves the group.
        subst hq
        rw [Function.update_self, Option.some.injEq] at hproc'
        subst hproc'
        exact hself hgroup
      · rw [Function.update_of_ne hq] at hproc'
        exact hquiet q ⟨hself, proc', hproc', hgroup, hrun⟩

/-- Every step does to the commands and to the group what a step of a process does. -/
theorem step_evolves (h : GroupShutdown.next s e = some t) : Evolves s.system t.system := by
  have hsame : Evolves s.system s.system := evolves_of_monitor rfl rfl rfl
  cases e with
  | system e =>
    simp only [GroupShutdown.next] at h
    split_ifs at h
    · obtain ⟨system, hsystem, rfl⟩ := Option.map_eq_some_iff.mp h
      exact next_evolves hsystem
    · obtain ⟨system, hsystem, rfl⟩ := Option.map_eq_some_iff.mp h
      exact next_evolves hsystem
  | setpgrp pid => exact setpgrp_evolves h
  | signal pid reaction | test | stop | interrupt =>
    simp only [GroupShutdown.next] at h
    split_ifs at h <;> (cases h; exact hsame)
  | terminate =>
    simp only [GroupShutdown.next] at h
    split at h
    · cases h
      exact terminate_evolves s _ _
    · cases h
  | sigterm =>
    simp only [GroupShutdown.next] at h
    split_ifs at h
    cases h
    rw [termTrap_system]
    exact hsame

/-- A step replies with what it stopped and what it sent. -/
theorem step_eq_ok :
    GroupShutdown.step s e = .ok (r, t) ↔ GroupShutdown.next s e = some t ∧
      r = ⟨fun pid => isRunning s.system.procs pid && !isRunning t.system.procs pid, sent s e⟩ := by
  unfold GroupShutdown.step
  cases GroupShutdown.next s e with
  | none => simp
  | some u =>
    simp only [Except.ok.injEq, Prod.mk.injEq, Option.some.injEq]
    constructor
    · rintro ⟨rfl, rfl⟩
      exact ⟨rfl, rfl⟩
    · rintro ⟨rfl, rfl⟩
      exact ⟨rfl, rfl⟩

/-- How the calls of `stop` and the main program hang together. -/
structure Ordered (s : ProcessMonitor) : Prop where
  calls : s.calls = [] ∨ ∃ call, s.calls = [call]
  stopping : s.calls ≠ [] → s.stopping = true
  active : s.calls ≠ [] → isActive s = true
  /-- The signal is sent only if commands are left. -/
  left : ∀ call ∈ s.calls, call.place = .term → s.system.monitor.pidDict ≠ []
  /-- When the loop goes on after a call, no command is left. -/
  settled : s.stopping = true → s.calls = [] → s.main = .test ∨ s.main = .body →
    s.system.monitor.pidDict = []
  returned : s.main = .returned → s.system.monitor.pidDict = []

/-- The main program is active in the loop and while it is interrupted. -/
theorem isActive_iff : isActive s = true ↔
    s.main = .test ∨ s.main = .body ∨ s.main = .interrupted := by
  simp only [isActive, Bool.or_eq_true, decide_eq_true_eq, or_assoc]

/-- The main program is not at an end while a call is active. -/
theorem ne_of_active (h : isActive s = true) :
    s.main ≠ .returned ∧ s.main ≠ .failed ∧ s.main ≠ .killed := by
  rw [isActive_iff] at h
  rcases h with h | h | h <;> (rw [h]; exact ⟨nofun, nofun, nofun⟩)

/-- One call is active. -/
theorem ordered_call (call : Call) (hcalls : s.calls = [call]) (hstopping : s.stopping = true)
    (hactive : isActive s = true)
    (hleft : call.place = .term → s.system.monitor.pidDict ≠ []) : Ordered s := by
  obtain ⟨hreturned, -, -⟩ := ne_of_active hactive
  refine ⟨Or.inr ⟨call, hcalls⟩, fun _ => hstopping, fun _ => hactive, ?_, ?_,
    fun h => absurd h hreturned⟩
  · intro other hother
    rw [hcalls, List.mem_singleton] at hother
    subst hother
    exact hleft
  · intro _ hnone
    rw [hcalls] at hnone
    cases hnone

/-- No call is active. -/
theorem ordered_idle (hcalls : s.calls = [])
    (hsettled : s.stopping = true → s.main = .test ∨ s.main = .body →
      s.system.monitor.pidDict = [])
    (hreturned : s.main = .returned → s.system.monitor.pidDict = []) : Ordered s := by
  refine ⟨Or.inl hcalls, fun h => absurd hcalls h, fun h => absurd hcalls h, ?_,
    fun hstopping _ => hsettled hstopping, hreturned⟩
  intro call hcall
  rw [hcalls] at hcall
  cases hcall

/-- A call that goes on or returns leaves the calls in order. -/
theorem goOn_ordered (call : Call) (place : Terminate) (hstopping : s.stopping = true)
    (hactive : isActive s = true) : Ordered (goOn s call [] place) := by
  unfold goOn
  split_ifs with hdict
  · exact ordered_call { call with place := place } rfl hstopping hactive fun _ => hdict
  · have hnone := not_not.mp hdict
    exact ordered_idle rfl (fun _ _ => hnone) (fun _ => hnone)
  · have hnone := not_not.mp hdict
    exact ordered_idle rfl (fun _ _ => hnone) (fun _ => hnone)

/-- It does not touch the flag of `stop`. -/
theorem goOn_stopping (call : Call) (rest : List Call) (place : Terminate) :
    (goOn s call rest place).stopping = s.stopping := by
  unfold goOn
  split_ifs <;> rfl

/-- The handler does nothing while the monitor is stopping. -/
theorem termTrap_of_stopping (h : s.stopping = true) : termTrap s = s := if_pos h

/-- So does every step of a call. -/
theorem terminate_ordered (call : Call) (hstopping : s.stopping = true)
    (hactive : isActive s = true) : Ordered (GroupShutdown.terminate s call []) := by
  unfold GroupShutdown.terminate
  split
  · exact goOn_ordered call .term hstopping hactive
  · rw [termTrap_of_stopping (by rw [goOn_stopping]; exact hstopping)]
    exact goOn_ordered call .pruneAgain hstopping hactive
  · exact goOn_ordered call .kill hstopping hactive
  · refine ordered_idle rfl (fun _ h => ?_) nofun
    rcases h with h | h <;> cases h

/-- A step of the system while no call is active. -/
theorem system_ordered {system : System} {main : Main} (hs : Ordered s) (hcalls : s.calls = [])
    (hbody : s.main = .body) (hmain : main = .failed ∨ main = .test ∨ main = .body)
    (hevolves : Evolves s.system system) : Ordered { s with system := system, main := main } := by
  refine ordered_idle hcalls ?_ ?_
  · intro hstopping _
    have hdict := hs.settled hstopping hcalls (Or.inr hbody)
    rw [List.eq_nil_iff_forall_not_mem] at hdict ⊢
    exact fun c hc => hdict c (hevolves.subset c hc)
  · intro h
    dsimp only at h
    rcases hmain with rfl | rfl | rfl <;> cases h

/-- After the body of the loop the monitor fails, tests or goes on. -/
theorem afterBody_cases (s : ProcessMonitor) (e : MonitorExit.Event) (system : System) :
    afterBody s e system = .failed ∨ afterBody s e system = .test ∨
      afterBody s e system = .body := by
  unfold afterBody
  split_ifs
  · exact Or.inl rfl
  · exact Or.inr (Or.inl rfl)
  · exact Or.inr (Or.inr rfl)

/-- The processes change what they like, the commands and the calls stay. -/
theorem Ordered.around {system : System} {reaction : Pid → Reaction} (hs : Ordered s)
    (hdict : system.monitor.pidDict = s.system.monitor.pidDict) :
    Ordered { s with system := system, reaction := reaction } := by
  refine ⟨hs.calls, hs.stopping, hs.active, ?_, ?_, ?_⟩
  · rw [hdict]
    exact hs.left
  · rw [hdict]
    exact hs.settled
  · rw [hdict]
    exact hs.returned

/-- Every step keeps the order. -/
theorem step_ordered (hs : Ordered s) (h : GroupShutdown.next s e = some t) : Ordered t := by
  have hevolves := step_evolves h
  cases e with
  | system e =>
    simp only [GroupShutdown.next] at h
    split_ifs at h with hprocess hloop
    · obtain ⟨system, hsystem, rfl⟩ := Option.map_eq_some_iff.mp h
      exact hs.around (by rw [process_monitor hprocess hsystem])
    · obtain ⟨system, hsystem, rfl⟩ := Option.map_eq_some_iff.mp h
      exact system_ordered hs hloop.2 hloop.1 (afterBody_cases s e system) hevolves
  | setpgrp pid =>
    simp only [GroupShutdown.next] at h
    split at h
    · split_ifs at h
      cases h
      exact hs.around rfl
    · cases h
  | signal pid reaction =>
    simp only [GroupShutdown.next] at h
    split_ifs at h
    cases h
    exact hs.around rfl
  | test =>
    simp only [GroupShutdown.next] at h
    split_ifs at h with hguard hstopping
    · cases h
      have hdict := hs.settled hstopping hguard.2 (Or.inl hguard.1)
      exact ordered_idle hguard.2 (fun _ _ => hdict) (fun _ => hdict)
    · cases h
      exact ordered_idle hguard.2 (fun h => absurd h hstopping) nofun
  | stop =>
    simp only [GroupShutdown.next] at h
    split_ifs at h with hcalls
    cases h
    refine ordered_call ⟨.main, .prune⟩ rfl rfl ?_ nofun
    rw [isActive_iff]
    simp only [callsStop, Bool.and_eq_true, Bool.or_eq_true, decide_eq_true_eq] at hcalls
    rcases hcalls.2 with hinterrupted | ⟨hbody, -⟩
    · exact Or.inr (Or.inr hinterrupted)
    · exact Or.inr (Or.inl hbody)
  | terminate =>
    simp only [GroupShutdown.next] at h
    rcases hs.calls with hcalls | ⟨call, hcalls⟩
    · rw [hcalls] at h
      cases h
    · have hne : s.calls ≠ [] := by
        rw [hcalls]
        exact List.cons_ne_nil _ _
      rw [hcalls] at h
      cases h
      exact terminate_ordered call (hs.stopping hne) (hs.active hne)
  | sigterm =>
    simp only [GroupShutdown.next] at h
    split_ifs at h with hactive
    cases h
    unfold termTrap
    split_ifs with hstopping
    · exact hs
    · have hcalls : s.calls = [] := by
        by_contra hne
        exact hstopping (hs.stopping hne)
      exact ordered_call ⟨.termTrap, .prune⟩ (by rw [hcalls]) rfl hactive nofun
  | interrupt =>
    simp only [GroupShutdown.next] at h
    split_ifs at h
    · cases h
      exact ordered_idle rfl (fun _ h => h.elim nofun nofun) nofun
    · cases h
      exact ordered_idle rfl (fun _ h => h.elim nofun nofun) nofun

/-- Only the last resort kills the monitor. -/
theorem step_killed (h : GroupShutdown.next s e = some t) (ht : t.main = .killed) :
    s.main = .killed ∨ sent s e = some .sigkill := by
  cases e with
  | system e =>
    simp only [GroupShutdown.next] at h
    split_ifs at h
    · obtain ⟨system, -, rfl⟩ := Option.map_eq_some_iff.mp h
      exact Or.inl ht
    · obtain ⟨system, -, rfl⟩ := Option.map_eq_some_iff.mp h
      dsimp only at ht
      rcases afterBody_cases s e system with hmain | hmain | hmain <;>
        (rw [hmain] at ht; cases ht)
  | setpgrp pid =>
    simp only [GroupShutdown.next] at h
    split at h
    · split_ifs at h
      cases h
      exact Or.inl ht
    · cases h
  | signal pid reaction | stop =>
    simp only [GroupShutdown.next] at h
    split_ifs at h
    cases h
    exact Or.inl ht
  | test =>
    simp only [GroupShutdown.next] at h
    split_ifs at h <;> (cases h; cases ht)
  | terminate =>
    simp only [GroupShutdown.next] at h
    split at h
    case h_2 => cases h
    case h_1 call rest hcalls =>
      obtain ⟨caller, place⟩ := call
      cases h
      cases place with
      | prune | pruneAgain =>
        rw [GroupShutdown.terminate] at ht
        have hbefore := goOn_killed ht
        exact Or.inl hbefore
      | term =>
        rw [GroupShutdown.terminate, termTrap_main] at ht
        have hbefore := goOn_killed ht
        exact Or.inl hbefore
      | kill =>
        refine Or.inr ?_
        unfold sent
        rw [hcalls]
  | sigterm =>
    simp only [GroupShutdown.next] at h
    split_ifs at h
    cases h
    rw [termTrap_main] at ht
    exact Or.inl ht
  | interrupt =>
    simp only [GroupShutdown.next] at h
    split_ifs at h <;> (cases h; cases ht)

/-- If the group is killed, then the monitor may signal every process that runs in it. -/
def MaySignal (s : ProcessMonitor) (e : GroupShutdown.Event) : Prop :=
  sent s e = some .sigkill → ∀ q, RunsInGroup s.system q → s.reaction q ≠ .shielded

/-- Then none of them runs on. -/
theorem kill_silences (hmay : MaySignal s e) (h : GroupShutdown.next s e = some t)
    (hsent : sent s e = some .sigkill) : ∀ q, ¬ RunsInGroup t.system q := by
  have hreach := hmay hsent
  unfold sent at hsent
  split at hsent
  case h_2 => cases hsent
  case h_1 =>
    split at hsent
    case h_2 caller rest hcalls =>
      rw [GroupShutdown.next, hcalls, Option.some.injEq] at h
      intro q hruns
      rw [← h, GroupShutdown.terminate] at hruns
      obtain ⟨hbefore, proc, hgroup, hhit⟩ := not_hit_of_runs hruns
      have hmet := hreach q hbefore
      simp only [killable, hgroup, hmet, ne_eq, not_false_eq_true, decide_true, Bool.or_true,
        Bool.and_self, reduceCtorEq] at hhit
    all_goals cases hsent

/-- A command that runs is still in the dictionary, unless it stops. -/
theorem step_command {c : Pid} (hc : c ∈ s.system.monitor.pidDict)
    (hrunning : isRunning s.system.procs c = true)
    (h : GroupShutdown.step s e = .ok (r, t)) :
    r.stops c = true ∨ (c ∈ t.system.monitor.pidDict ∧ isRunning t.system.procs c = true) := by
  obtain ⟨hnext, rfl⟩ := step_eq_ok.mp h
  have hsome : (s.system.procs c).isSome := by
    unfold isRunning at hrunning
    cases hproc : s.system.procs c with
    | none =>
      rw [hproc] at hrunning
      cases hrunning
    | some proc => rfl
  by_cases hdict : c ∈ t.system.monitor.pidDict
  · cases hafter : isRunning t.system.procs c with
    | true => exact Or.inr ⟨hdict, rfl⟩
    | false =>
      dsimp only
      rw [hrunning, hafter]
      exact Or.inl rfl
  · -- Only what has stopped is dropped.
    have hstopped := (step_evolves hnext).dropped c hc hdict hsome
    rw [hrunning] at hstopped
    cases hstopped

/-- So it is after a run. -/
theorem run_command {c : Pid} {es : List GroupShutdown.Event} {rs : List Reply}
    (hc : c ∈ s.system.monitor.pidDict) (hrunning : isRunning s.system.procs c = true)
    (hrun : run GroupShutdown.step s es = .ok (rs, t)) :
    (∃ r ∈ rs, r.stops c = true) ∨
      (c ∈ t.system.monitor.pidDict ∧ isRunning t.system.procs c = true) := by
  induction es generalizing s rs with
  | nil =>
    cases hrun
    exact Or.inr ⟨hc, hrunning⟩
  | cons e es ih =>
    obtain ⟨r, u, rs, hstep, hrest, rfl⟩ := run_cons_ok hrun
    rcases step_command hc hrunning hstep with hstops | ⟨hc, hrunning⟩
    · exact Or.inl ⟨r, List.mem_cons_self, hstops⟩
    · refine (ih hc hrunning hrest).imp_left fun h => ?_
      obtain ⟨r', hr', hstops⟩ := h
      exact ⟨r', List.mem_cons_of_mem r hr', hstops⟩

/-- A `KeyboardInterrupt` is raised. -/
def isInterrupt : GroupShutdown.Event → Bool
  | .interrupt => true
  | _ => false

/-- The group is sent `SIGTERM`. -/
def sendsTerm (r : Reply) : Bool := decide (r.sent = some .sigterm)

/-- How often the group may be sent `SIGTERM` before the next interrupt. -/
def allowance (s : ProcessMonitor) : ℕ :=
  if s.system.monitor.pidDict ≠ [] ∧ isActive s = true ∧
    ∀ call ∈ s.calls, call.place = .prune ∨ call.place = .term then 1 else 0

/-- At most one signal is allowed. -/
theorem allowance_le_one (s : ProcessMonitor) : allowance s ≤ 1 := by
  unfold allowance
  split_ifs
  · exact le_refl 1
  · exact Nat.zero_le 1

/-- A step that begins nothing allows no more than before. -/
theorem allowance_mono
    (hdict : t.system.monitor.pidDict ≠ [] → s.system.monitor.pidDict ≠ [])
    (hactive : isActive t = true → isActive s = true)
    (hcalls : (∀ call ∈ t.calls, call.place = .prune ∨ call.place = .term) →
      ∀ call ∈ s.calls, call.place = .prune ∨ call.place = .term) : allowance t ≤ allowance s := by
  by_cases h : t.system.monitor.pidDict ≠ [] ∧ isActive t = true ∧
      ∀ call ∈ t.calls, call.place = .prune ∨ call.place = .term
  · rw [allowance, allowance, if_pos h, if_pos ⟨hdict h.1, hactive h.2.1, hcalls h.2.2⟩]
  · rw [allowance, if_neg h]
    exact Nat.zero_le _

/-- After the signal it is used up. -/
theorem allowance_goOn {call : Call} {place : Terminate} (hprune : place ≠ .prune)
    (hterm : place ≠ .term) : allowance (goOn s call [] place) = 0 := by
  refine if_neg fun h => ?_
  obtain ⟨hdict, -, hcalls⟩ := h
  rw [goOn_system] at hdict
  rw [goOn, if_pos hdict] at hcalls
  rcases hcalls _ List.mem_cons_self with hplace | hplace
  · exact hprune hplace
  · exact hterm hplace

/-- A step of a call sends the signal only if it still may be sent. -/
theorem terminate_allowance {call : Call} (hs : Ordered s) (hcalls : s.calls = [call]) :
    (if sent s .terminate = some .sigterm then 1 else 0) +
      allowance (GroupShutdown.terminate s call []) ≤ allowance s := by
  have hne : s.calls ≠ [] := by
    rw [hcalls]
    exact List.cons_ne_nil _ _
  have hactive := hs.active hne
  obtain ⟨caller, place⟩ := call
  have hfull : place = .prune ∨ place = .term → s.system.monitor.pidDict ≠ [] →
      allowance s = 1 := by
    intro hplace hdict
    refine if_pos ⟨hdict, hactive, fun other hother => ?_⟩
    rw [hcalls, List.mem_singleton] at hother
    subst hother
    exact hplace
  cases place with
  | prune =>
    have hsent : sent s .terminate = none := by
      unfold sent
      rw [hcalls]
    rw [hsent, if_neg nofun, Nat.zero_add]
    by_cases hdict : s.system.monitor.pidDict = []
    · have hpruned : (pruned s.system).monitor.pidDict = [] := by
        rw [List.eq_nil_iff_forall_not_mem] at hdict ⊢
        exact fun c hc => hdict c ((pruned_evolves s.system).subset c hc)
      refine le_trans (le_of_eq (if_neg fun h => ?_)) (Nat.zero_le _)
      have hleft := h.1
      rw [GroupShutdown.terminate, goOn_system] at hleft
      exact hleft hpruned
    · rw [hfull (Or.inl rfl) hdict]
      exact allowance_le_one _
  | term =>
    have hsent : sent s .terminate = some .sigterm := by
      unfold sent
      rw [hcalls]
    have hdict := hs.left ⟨caller, .term⟩ (by rw [hcalls]; exact List.mem_cons_self) rfl
    have hused : allowance (GroupShutdown.terminate s ⟨caller, .term⟩ []) = 0 := by
      rw [GroupShutdown.terminate,
        termTrap_of_stopping (by rw [goOn_stopping]; exact hs.stopping hne)]
      exact allowance_goOn nofun nofun
    rw [hsent, if_pos rfl, hused, hfull (Or.inr rfl) hdict]
  | pruneAgain =>
    have hsent : sent s .terminate = none := by
      unfold sent
      rw [hcalls]
    have hused : allowance (GroupShutdown.terminate s ⟨caller, .pruneAgain⟩ []) = 0 :=
      allowance_goOn nofun nofun
    rw [hsent, if_neg nofun, hused]
    exact Nat.zero_le _
  | kill =>
    have hsent : sent s .terminate = some .sigkill := by
      unfold sent
      rw [hcalls]
    have hdead : allowance (GroupShutdown.terminate s ⟨caller, .kill⟩ []) = 0 :=
      if_neg fun h => (ne_of_active h.2.1).2.2 rfl
    rw [hsent, if_neg (by decide), hdead]
    exact Nat.zero_le _

/-- A step that sends no signal and is no interrupt does not renew it. -/
theorem step_allowance (hs : Ordered s) (h : GroupShutdown.next s e = some t) :
    (if sent s e = some .sigterm then 1 else 0) + allowance t ≤
      allowance s + (if isInterrupt e = true then 1 else 0) := by
  have hevolves := step_evolves h
  have hdict : t.system.monitor.pidDict ≠ [] → s.system.monitor.pidDict ≠ [] := by
    intro hleft hnone
    rw [List.eq_nil_iff_forall_not_mem] at hnone
    exact hleft (List.eq_nil_iff_forall_not_mem.mpr fun c hc => hnone c (hevolves.subset c hc))
  have hquietly : (isActive t = true → isActive s = true) →
      ((∀ call ∈ t.calls, call.place = .prune ∨ call.place = .term) →
        ∀ call ∈ s.calls, call.place = .prune ∨ call.place = .term) →
      sent s e = none → (if sent s e = some .sigterm then 1 else 0) + allowance t ≤
        allowance s + (if isInterrupt e = true then 1 else 0) := by
    intro hactive hcalls hsent
    rw [hsent, if_neg nofun, Nat.zero_add]
    exact (allowance_mono hdict hactive hcalls).trans (Nat.le_add_right _ _)
  cases e with
  | system e =>
    simp only [GroupShutdown.next] at h
    split_ifs at h with hprocess hloop
    · obtain ⟨system, -, rfl⟩ := Option.map_eq_some_iff.mp h
      exact hquietly id id rfl
    · obtain ⟨system, -, rfl⟩ := Option.map_eq_some_iff.mp h
      exact hquietly (fun _ => isActive_iff.mpr (Or.inr (Or.inl hloop.1))) id rfl
  | setpgrp pid =>
    simp only [GroupShutdown.next] at h
    split at h
    · split_ifs at h
      cases h
      exact hquietly id id rfl
    · cases h
  | signal pid reaction =>
    simp only [GroupShutdown.next] at h
    split_ifs at h
    cases h
    exact hquietly id id rfl
  | test =>
    simp only [GroupShutdown.next] at h
    split_ifs at h with hguard
    · cases h
      exact hquietly (fun _ => isActive_iff.mpr (Or.inl hguard.1)) id rfl
    · cases h
      exact hquietly (fun _ => isActive_iff.mpr (Or.inl hguard.1)) id rfl
  | stop =>
    simp only [GroupShutdown.next] at h
    split_ifs at h with hguard
    cases h
    refine hquietly id (fun _ call hcall => ?_) rfl
    simp only [callsStop, Bool.and_eq_true, List.isEmpty_iff] at hguard
    rw [hguard.1] at hcall
    cases hcall
  | terminate =>
    simp only [GroupShutdown.next] at h
    rcases hs.calls with hcalls | ⟨call, hcalls⟩
    · rw [hcalls] at h
      cases h
    · rw [hcalls] at h
      cases h
      exact (terminate_allowance hs hcalls).trans (Nat.le_add_right _ _)
  | sigterm =>
    simp only [GroupShutdown.next] at h
    split_ifs at h with hactive
    cases h
    refine hquietly (fun _ => hactive) (fun htrap call hcall => ?_) rfl
    unfold termTrap at htrap
    split_ifs at htrap
    · exact htrap call hcall
    · exact htrap call (List.mem_cons_of_mem _ hcall)
  | interrupt =>
    have hone := allowance_le_one t
    have hnone : sent s .interrupt = none := rfl
    rw [hnone, if_neg nofun, Nat.zero_add, isInterrupt, if_pos rfl]
    omega

/-- In a run every signal was allowed at its start, or by an interrupt. -/
theorem run_allowance {es : List GroupShutdown.Event} {rs : List Reply} (hs : Ordered s)
    (hrun : run GroupShutdown.step s es = .ok (rs, t)) :
    rs.countP sendsTerm + allowance t ≤ allowance s + es.countP isInterrupt := by
  induction es generalizing s rs with
  | nil =>
    cases hrun
    simp only [List.countP_nil, Nat.zero_add, Nat.add_zero, le_refl]
  | cons e es ih =>
    obtain ⟨r, u, rs, hstep, hrest, rfl⟩ := run_cons_ok hrun
    obtain ⟨hnext, hreply⟩ := step_eq_ok.mp hstep
    have hone := step_allowance hs hnext
    have hmore := ih (step_ordered hs hnext) hrest
    have hsends : sendsTerm r = decide (sent s e = some .sigterm) := by
      rw [hreply]
      rfl
    simp only [List.countP_cons, hsends, decide_eq_true_eq]
    omega

/-- What runs goes on running through a prune. -/
theorem pruned_running {s : System} {q : Pid} (hq : isRunning s.procs q = true) :
    isRunning (pruned s).procs q = true := by
  have hnot : q ∉ polled s.procs s.monitor := by
    intro hmem
    have hstopped := (List.mem_filter.mp hmem).2
    rw [hq] at hstopped
    cases hstopped
  have hkept : (pruned s).procs q = s.procs q := if_neg hnot
  unfold isRunning at *
  rw [hkept]
  exact hq

/-- Only its own exit stops a process in a step of the system. -/
theorem next_running {s t : System} {e : MonitorExit.Event} {q : Pid}
    (hq : isRunning s.procs q = true) (he : e ≠ .exit q) (h : MonitorExit.next s e = some t) :
    isRunning t.procs q = true := by
  cases e with
  | fork parent child =>
    simp only [MonitorExit.next] at h
    split at h
    case h_2 => cases h
    case h_1 proc hparent hchild =>
      split_ifs at h with hguard
      cases h
      rw [isRunning_update]
      split_ifs
      · exact hguard.1
      · exact hq
  | exit pid =>
    simp only [MonitorExit.next] at h
    split at h
    case h_2 => cases h
    case h_1 proc hpid =>
      split_ifs at h
      cases h
      have hne : q ≠ pid := fun heq => he (by rw [heq])
      rw [isRunning_update, if_neg hne]
      exact hq
  | reap pid =>
    simp only [MonitorExit.next] at h
    split at h
    case h_2 => cases h
    case h_1 proc hpid =>
      split_ifs at h with hguard
      cases h
      have hne : q ≠ pid := by
        rintro rfl
        rw [isRunning, hpid, Option.any_some, hguard.1] at hq
        cases hq
      rw [isRunning_update, if_neg hne]
      exact hq
  | prune timestamp =>
    simp only [MonitorExit.next] at h
    split_ifs at h
    cases h
    exact pruned_running hq
  | update listed stat =>
    simp only [MonitorExit.next] at h
    split_ifs at h
    · split at h <;> (cases h; exact hq)
    · cases h
      exact hq
  | check | timeout | sample =>
    simp only [MonitorExit.next] at h
    split_ifs at h <;> (cases h; exact hq)

/-- Every command that the monitor still knows has stopped, and no call of `terminate`
has got past its first prune. -/
structure CommandsGone (s : ProcessMonitor) : Prop where
  stopped : ∀ c ∈ s.system.monitor.pidDict,
    (s.system.procs c).isSome ∧ isRunning s.system.procs c = false
  calls : ∀ call ∈ s.calls, call.place = .prune

/-- The prune of a call finds no command left, and the call returns. -/
theorem gone_terminate {call : Call} {rest : List Call} (hs : CommandsGone s)
    (hcalls : s.calls = call :: rest) :
    GroupShutdown.terminate s call rest = { s with
      system := pruned s.system, calls := rest
      main := if call.caller = .main then .returned else s.main } := by
  have hplace : call.place = .prune := hs.calls call (by rw [hcalls]; exact List.mem_cons_self)
  have hnone : (pruned s.system).monitor.pidDict = [] := by
    rw [List.eq_nil_iff_forall_not_mem]
    intro c hc
    obtain ⟨hmem, hkept⟩ := List.mem_filter.mp hc
    refine of_decide_eq_true hkept (List.mem_dedup.mpr (List.mem_append_left _ ?_))
    refine List.mem_filter.mpr ⟨hmem, ?_⟩
    rw [(hs.stopped c hmem).2]
    rfl
  simp only [GroupShutdown.terminate, hplace, goOn, hnone, ne_eq, not_true_eq_false, if_false]

/-- It stays so, no signal is sent, and what runs is stopped by its own exit only. -/
theorem gone_step {q : Pid} (hs : CommandsGone s) (h : GroupShutdown.next s e = some t) :
    CommandsGone t ∧ sent s e = none ∧ (isRunning s.system.procs q = true →
      e ≠ .system (.exit q) → isRunning t.system.procs q = true) := by
  have hevolves := step_evolves h
  have hstopped : ∀ c ∈ t.system.monitor.pidDict,
      (t.system.procs c).isSome ∧ isRunning t.system.procs c = false := by
    intro c hc
    obtain ⟨hsome, hstopped⟩ := hs.stopped c (hevolves.subset c hc)
    exact ⟨hevolves.known c hc hsome, hevolves.stays c hsome hstopped⟩
  cases e with
  | system e =>
    simp only [GroupShutdown.next] at h
    split_ifs at h <;>
      (obtain ⟨system, hsystem, rfl⟩ := Option.map_eq_some_iff.mp h
       exact ⟨⟨hstopped, hs.calls⟩, rfl, fun hq he =>
        next_running hq (fun heq => he (congrArg _ heq)) hsystem⟩)
  | setpgrp pid =>
    simp only [GroupShutdown.next] at h
    split at h
    case h_2 => cases h
    case h_1 proc hpid =>
      split_ifs at h with hguard
      cases h
      refine ⟨⟨hstopped, hs.calls⟩, rfl, fun hq _ => ?_⟩
      rw [isRunning_update]
      split_ifs
      · exact hguard.1
      · exact hq
  | signal pid reaction | test =>
    simp only [GroupShutdown.next] at h
    split_ifs at h <;> (cases h; exact ⟨⟨hstopped, hs.calls⟩, rfl, fun hq _ => hq⟩)
  | stop =>
    simp only [GroupShutdown.next] at h
    split_ifs at h
    cases h
    refine ⟨⟨hstopped, fun call hcall => ?_⟩, rfl, fun hq _ => hq⟩
    rw [List.mem_singleton.mp hcall]
  | terminate =>
    simp only [GroupShutdown.next] at h
    split at h
    case h_2 => cases h
    case h_1 call rest hcalls =>
      have hterminate := gone_terminate hs hcalls
      have hplace := hs.calls call (by rw [hcalls]; exact List.mem_cons_self)
      cases h
      refine ⟨⟨hstopped, ?_⟩, ?_, fun hq _ => ?_⟩
      · rw [hterminate]
        intro other hother
        exact hs.calls other (by rw [hcalls]; exact List.mem_cons_of_mem _ hother)
      · obtain ⟨caller, place⟩ := call
        dsimp only at hplace
        subst hplace
        unfold sent
        rw [hcalls]
      · rw [hterminate]
        exact pruned_running hq
  | sigterm =>
    simp only [GroupShutdown.next] at h
    split_ifs at h
    cases h
    refine ⟨⟨hstopped, ?_⟩, rfl, fun hq _ => ?_⟩
    · unfold termTrap
      split_ifs
      · exact hs.calls
      · intro call hcall
        rcases List.mem_cons.mp hcall with rfl | hcall
        · rfl
        · exact hs.calls call hcall
    · rw [termTrap_system]
      exact hq
  | interrupt =>
    simp only [GroupShutdown.next] at h
    split_ifs at h <;> (cases h; exact ⟨⟨hstopped, nofun⟩, rfl, fun hq _ => hq⟩)

end Monitors

section Results

variable {procs : ProcTable} {pid : Pid} {children : List Pid} {timeStart endTime : ℚ}
  {monitorFile : Bool} {reaction : Pid → Reaction}

/-- The loop begins without a call. -/
theorem start_ordered :
    Ordered (.start procs pid children timeStart endTime monitorFile reaction) :=
  ordered_idle rfl nofun nofun

/-- However the loop, the processes, signals to the monitor and interrupts follow one
another: when the monitor has returned, every command that it started has stopped,
and when it was killed and could signal every process that ran in its group then,
nothing runs there any more. No call of `terminate` begins while one is active, and the
group is sent `SIGTERM` once at most, and once more for each interrupt. -/
theorem shutdown_settles (procs : ProcTable) (pid : Pid) (children : List Pid)
    (timeStart endTime : ℚ) (monitorFile : Bool) (reaction : Pid → Reaction)
    (es : List GroupShutdown.Event) (rs : List Reply) (t : ProcessMonitor)
    (hrun : run GroupShutdown.step
      (.start procs pid children timeStart endTime monitorFile reaction) es = .ok (rs, t)) :
    (t.main = .returned → ∀ c ∈ children, isRunning procs c = true → ∃ r ∈ rs, r.stops c = true) ∧
      (Always GroupShutdown.step MaySignal
          (.start procs pid children timeStart endTime monitorFile reaction) es →
        t.main = .killed → ∀ q, ¬ RunsInGroup t.system q) ∧
      t.calls.length ≤ 1 ∧
      rs.countP sendsTerm ≤ 1 + es.countP isInterrupt := by
  have hordered : Ordered t := by
    refine run_invariant (fun s e r t hs hstep => ?_) start_ordered hrun
    exact step_ordered hs (step_eq_ok.mp hstep).1
  refine ⟨?_, ?_, ?_, ?_⟩
  · intro hreturned c hc hrunning
    rcases run_command hc hrunning hrun with hstops | ⟨hleft, -⟩
    · exact hstops
    · rw [hordered.returned hreturned] at hleft
      cases hleft
  · intro hmay
    refine run_rule (R := fun (s : ProcessMonitor) _ =>
      s.main = .killed → ∀ q, ¬ RunsInGroup s.system q) ?_ (fun h => by cases h) hmay hrun
    intro s g e r u hs hmay hstep hkilled
    have hnext := (step_eq_ok.mp hstep).1
    rcases step_killed hnext hkilled with hbefore | hsent
    · exact (step_evolves hnext).quiet (hs hbefore)
    · exact kill_silences hmay hnext hsent
  · rcases hordered.calls with hcalls | ⟨call, hcalls⟩
    · rw [hcalls]
      exact Nat.zero_le 1
    · rw [hcalls]
      exact le_refl 1
  · have hsum := run_allowance start_ordered hrun
    have hone :=
      allowance_le_one (.start procs pid children timeStart endTime monitorFile reaction)
    omega

/-- The shell is stopped by the signal after somebody has sent one to the monitor. -/
theorem shutdown_settles_shell :
    ∃ rs t, run GroupShutdown.step (.start shellTable 1 [2] 0 0 false (fun _ => .obeys))
        [.test, .system (.prune 0), .system (.update [] (fun _ => none)), .sigterm, .terminate,
          .sigterm, .terminate, .terminate, .system .check, .stop, .terminate] = .ok (rs, t) ∧
      t.main = .returned ∧ ∃ r ∈ rs, r.stops 2 = true := by
  have hout : (run GroupShutdown.step (.start shellTable 1 [2] 0 0 false (fun _ => .obeys))
      [.test, .system (.prune 0), .system (.update [] (fun _ => none)), .sigterm, .terminate,
        .sigterm, .terminate, .terminate, .system .check, .stop, .terminate]).map
          (fun out => out.2.main) = .ok .returned := by
    decide +kernel
  obtain ⟨rs, t, hrun, hmain⟩ := run_observe (f := ProcessMonitor.main) hout
  have hsettled := shutdown_settles shellTable 1 [2] 0 0 false (fun _ => .obeys) _ rs t hrun
  exact ⟨rs, t, hrun, hmain, hsettled.1 hmain 2 List.mem_cons_self rfl⟩

/-- If every process of the group that runs when the group is sent `SIGTERM` obeys it,
so none catches or ignores the signal or is out of its reach, none ever runs in the group
from then on. -/
theorem sigterm_silences_group (s t : ProcessMonitor) (call : Call) (rest : List Call)
    (es : List GroupShutdown.Event) (rs : List Reply) (hcalls : s.calls = call :: rest)
    (hplace : call.place = .term)
    (hobey : ∀ q, RunsInGroup s.system q → s.reaction q = .obeys)
    (hrun : run GroupShutdown.step s (.terminate :: es) = .ok (rs, t)) :
    ∀ q, ¬ RunsInGroup t.system q := by
  obtain ⟨r, u, rs, hstep, hrest, rfl⟩ := run_cons_ok hrun
  obtain ⟨hnext, -⟩ := step_eq_ok.mp hstep
  refine run_invariant (I := fun u : ProcessMonitor => ∀ q, ¬ RunsInGroup u.system q)
    (fun s e r t hquiet hstep => ?_) ?_ hrest
  · exact (step_evolves (step_eq_ok.mp hstep).1).quiet hquiet
  · intro q hruns
    rw [GroupShutdown.next, hcalls, Option.some.injEq] at hnext
    rw [← hnext, GroupShutdown.terminate, hplace] at hruns
    dsimp only at hruns
    rw [termTrap_system, goOn_system] at hruns
    obtain ⟨hbefore, proc, hgroup, hhit⟩ := not_hit_of_runs hruns
    have hreaction := hobey q hbefore
    simp only [obeys, hgroup, hreaction, hbefore.1, ne_eq, not_false_eq_true, decide_true,
      Bool.and_self, reduceCtorEq] at hhit

/-- The monitor of a shell, interrupted and about to send the signal. -/
def interruptedShell : ProcessMonitor :=
  { ProcessMonitor.start shellTable 1 [2] 0 0 false (fun _ => .obeys) with
    stopping := true, calls := [⟨.main, .term⟩], main := .interrupted }

/-- In a shell that obeys, nothing runs after the signal. -/
theorem sigterm_silences_group_shell :
    ∃ rs t, run GroupShutdown.step interruptedShell [.terminate, .terminate] = .ok (rs, t) ∧
      t.main = .returned ∧ ∀ q, ¬ RunsInGroup t.system q := by
  have hout : (run GroupShutdown.step interruptedShell [.terminate, .terminate]).map
      (fun out => out.2.main) = .ok .returned := by
    decide +kernel
  obtain ⟨rs, t, hrun, hmain⟩ := run_observe (f := ProcessMonitor.main) hout
  exact ⟨rs, t, hrun, hmain,
    sigterm_silences_group interruptedShell t _ [] _ rs rfl rfl (fun _ _ => rfl) hrun⟩

/-- When all commands have stopped before `terminate` prunes for the first time, no
signal is sent to the group any more. A process that they have left behind runs on,
whatever ends the monitor, until it exits by itself. -/
theorem background_process_survives (s t : ProcessMonitor) (q : Pid)
    (es : List GroupShutdown.Event) (rs : List Reply) (hs : CommandsGone s)
    (hq : isRunning s.system.procs q = true) (hes : .system (.exit q) ∉ es)
    (hrun : run GroupShutdown.step s es = .ok (rs, t)) :
    isRunning t.system.procs q = true ∧ ∀ r ∈ rs, r.sent = none ∧ r.stops q = false := by
  induction es generalizing s rs with
  | nil =>
    cases hrun
    exact ⟨hq, nofun⟩
  | cons e es ih =>
    obtain ⟨r, u, rs, hstep, hrest, rfl⟩ := run_cons_ok hrun
    obtain ⟨hnext, hreply⟩ := step_eq_ok.mp hstep
    rw [List.mem_cons, not_or] at hes
    obtain ⟨hgone, hsent, hkeeps⟩ := gone_step (q := q) hs hnext
    have hrunning := hkeeps hq (fun h => hes.1 h.symm)
    obtain ⟨hend, hreplies⟩ := ih u rs hgone hrunning hes.2 hrest
    refine ⟨hend, fun r' hr' => ?_⟩
    rcases List.mem_cons.mp hr' with rfl | hr'
    · rw [hreply]
      refine ⟨hsent, ?_⟩
      dsimp only
      rw [hq, hrunning]
      rfl
    · exact hreplies r' hr'

/-- A shell has started a process and exited. -/
def orphanTable : ProcTable := fun pid =>
  if pid = 2 then some ⟨1, false⟩ else if pid = 1 ∨ pid = 3 then some ⟨1, true⟩ else none

/-- The monitor shuts down and returns, and the process runs. -/
theorem background_process_survives_shell :
    ∃ rs t, run GroupShutdown.step (.start orphanTable 1 [2] 0 0 false (fun _ => .obeys))
        [.test, .system (.prune 0), .system (.update [] (fun _ => none)), .system .check, .stop,
          .terminate] = .ok (rs, t) ∧
      t.main = .returned ∧ isRunning t.system.procs 3 = true := by
  have hout : (run GroupShutdown.step (.start orphanTable 1 [2] 0 0 false (fun _ => .obeys))
      [.test, .system (.prune 0), .system (.update [] (fun _ => none)), .system .check, .stop,
        .terminate]).map (fun out => out.2.main) = .ok .returned := by
    decide +kernel
  obtain ⟨rs, t, hrun, hmain⟩ := run_observe (f := ProcessMonitor.main) hout
  have hgone : CommandsGone (.start orphanTable 1 [2] 0 0 false (fun _ => .obeys)) := by
    refine ⟨fun c hc => ?_, nofun⟩
    rw [List.mem_singleton.mp hc]
    exact ⟨rfl, rfl⟩
  refine ⟨rs, t, hrun, hmain, (background_process_survives _ t 3 _ rs hgone rfl ?_ hrun).1⟩
  simp only [List.mem_cons, reduceCtorEq, List.not_mem_nil, or_self, not_false_eq_true,
    GroupShutdown.Event.system.injEq]

end Results

end LazyFS.ShutdownRuns
