import LazyFS.MonitorExit

/-!
# Shutting the group down

The loop of the monitor ends in `stop`, and so does a termination signal, whose
handler runs between any two steps of the loop, and a keyboard interrupt. Each of
them prunes the processes, sends `SIGTERM` to the whole group if a command is left,
prunes again, and as the last resort kills the group with the monitor in it. The
flag `stopping` keeps the handler from a second call while one is active.
-/

namespace LazyFS.GroupShutdown

open GuardedRun ProcFiles ResourceMonitor MonitorExit

/-- What `killpg` sends to the group. -/
inductive Signal where
  | sigterm
  | sigkill
  deriving DecidableEq

/-- What the signals of the monitor do to a process. -/
inductive Reaction where
  /-- `SIGTERM` stops it. -/
  | obeys
  /-- It catches or ignores `SIGTERM`, and only `SIGKILL` stops it. -/
  | traps
  /-- The monitor may not signal it, as when it belongs to another user: it is skipped. -/
  | shielded
  deriving DecidableEq

/-- Where a call of `terminate` is. -/
inductive Terminate where
  /-- The files are closed, and the processes are to be pruned. -/
  | prune
  /-- Commands are left: the group is to be sent `SIGTERM`. -/
  | term
  /-- They have had time to exit, and are to be pruned again. -/
  | pruneAgain
  /-- Commands are left still: the group is to be killed. -/
  | kill
  deriving DecidableEq

/-- Who has called `stop`. -/
inductive Caller where
  | main
  | termTrap
  deriving DecidableEq

/-- An active call of `stop`. -/
structure Call where
  caller : Caller
  place : Terminate

/-- Where the main program is. -/
inductive Main where
  /-- At the condition of the loop. -/
  | test
  /-- In the body of the loop. -/
  | body
  /-- In the handler of a `KeyboardInterrupt`. -/
  | interrupted
  | returned
  /-- An exception that nothing catches has ended it. -/
  | failed
  /-- It was killed with its group. -/
  | killed
  deriving DecidableEq

/-- The monitor with the processes around it. -/
structure ProcessMonitor where
  /-- The processes, the lists, and the place in the body of the loop. -/
  system : System
  /-- What the processes do when they are signalled. -/
  reaction : Pid → Reaction
  stopping : Bool
  /-- The calls of `stop` that are active, the innermost first. -/
  calls : List Call
  main : Main

/-- `ProcessMonitor.__init__` has started the commands and installed the handler. -/
def ProcessMonitor.start (procs : ProcTable) (pid : Pid) (children : List Pid)
    (timeStart endTime : ℚ) (monitorFile : Bool) (reaction : Pid → Reaction) : ProcessMonitor :=
  ⟨.start procs pid children timeStart endTime monitorFile, reaction, false, [], .test⟩

/-- What happens to the monitor and to the processes. -/
inductive Event where
  /-- A process forks, exits or is waited for, or the loop takes a step. -/
  | system (e : MonitorExit.Event)
  /-- A process becomes the leader of a group of its own. -/
  | setpgrp (pid : Pid)
  /-- A process sets what it does on `SIGTERM`, or changes its user. -/
  | signal (pid : Pid) (reaction : Reaction)
  /-- The condition of the loop is tested. -/
  | test
  /-- The loop, or the handler of the interrupt, calls `stop`. -/
  | stop
  /-- The innermost call of `terminate` takes a step. -/
  | terminate
  /-- Somebody sends `SIGTERM` to the monitor. -/
  | sigterm
  /-- A `KeyboardInterrupt` is raised. -/
  | interrupt

/-- The events that are steps of processes. -/
def isProcess : MonitorExit.Event → Bool
  | .fork _ _ => true
  | .exit _ => true
  | .reap _ => true
  | _ => false

/-- A child does on a signal what its parent does. -/
def inherited (reaction : Pid → Reaction) : MonitorExit.Event → Pid → Reaction
  | .fork parent child => Function.update reaction child (reaction parent)
  | _ => reaction

/-- A sweep writes a line to the monitor file. -/
def writes (m : Monitor) : MonitorExit.Event → Bool
  | .sample files => !(getRawStats files m).1.isEmpty
  | _ => false

/-- Where the main program is after a step of the body. The file is closed by `stop`,
and a line that is written to it then is an exception. -/
def afterBody (s : ProcessMonitor) (e : MonitorExit.Event) (system : System) : Main :=
  if system.phase = .raised ∨ (s.stopping = true ∧ writes s.system.monitor e = true) then .failed
  else if system.phase = .prune then .test
  else .body

/-- The processes after some of them were stopped by a signal. -/
def stopped (procs : ProcTable) (hit : Pid → Proc → Bool) : ProcTable :=
  fun pid => (procs pid).map fun proc =>
    if hit pid proc = true then { proc with running := false } else proc

/-- A process of the group that `SIGTERM` stops. The monitor handles it. -/
def obeys (s : ProcessMonitor) (pid : Pid) (proc : Proc) : Bool :=
  decide (proc.group = s.system.self) && decide (pid ≠ s.system.self) &&
    decide (s.reaction pid = .obeys)

/-- A process of the group that `SIGKILL` stops. The monitor may signal itself. -/
def killable (s : ProcessMonitor) (pid : Pid) (proc : Proc) : Bool :=
  decide (proc.group = s.system.self) &&
    (decide (pid = s.system.self) || decide (s.reaction pid ≠ .shielded))

/-- `_termTrap`. -/
def termTrap (s : ProcessMonitor) : ProcessMonitor :=
  if s.stopping = true then s
  else { s with stopping := true, calls := ⟨.termTrap, .prune⟩ :: s.calls }

/-- A call goes on if commands are left, and returns if not. -/
def goOn (s : ProcessMonitor) (call : Call) (rest : List Call) (place : Terminate) :
    ProcessMonitor :=
  if s.system.monitor.pidDict ≠ [] then { s with calls := { call with place := place } :: rest }
  else { s with calls := rest, main := if call.caller = .main then .returned else s.main }

/-- `prune_pid_list` in a call of `terminate`. -/
def pruned (s : System) : System :=
  { s with procs := (prunePidList s.procs s.monitor).2
           monitor := (prunePidList s.procs s.monitor).1 }

/-- A step of `terminate`. -/
def terminate (s : ProcessMonitor) (call : Call) (rest : List Call) : ProcessMonitor :=
  match call.place with
  | .prune => goOn { s with system := pruned s.system } call rest .term
  | .term =>
    -- The signal reaches the monitor as well, and its handler runs.
    let procs := stopped s.system.procs (obeys s)
    termTrap (goOn { s with system := { s.system with procs := procs } } call rest .pruneAgain)
  | .pruneAgain => goOn { s with system := pruned s.system } call rest .kill
  | .kill =>
    let procs := stopped s.system.procs (killable s)
    { s with system := { s.system with procs := procs }, calls := [], main := .killed }

/-- The main program is about to call `stop`. -/
def callsStop (s : ProcessMonitor) : Bool :=
  s.calls.isEmpty && (decide (s.main = .interrupted) ||
    (decide (s.main = .body) &&
      (decide (s.system.phase = .exited) || decide (s.system.phase = .timedOut))))

/-- The program runs, in the loop or in the handler of the interrupt. -/
def isActive (s : ProcessMonitor) : Bool :=
  decide (s.main = .test) || decide (s.main = .body) || decide (s.main = .interrupted)

/-- The next state, if the event is possible. -/
def next (s : ProcessMonitor) : Event → Option ProcessMonitor
  | .system e =>
    if isProcess e = true then
      (MonitorExit.next s.system e).map fun system =>
        { s with system := system, reaction := inherited s.reaction e }
    else if s.main = .body ∧ s.calls = [] then
      (MonitorExit.next s.system e).map fun system =>
        { s with system := system, main := afterBody s e system }
    else none
  | .setpgrp pid =>
    match s.system.procs pid with
    | some proc =>
      if proc.running = true ∧ pid ≠ s.system.self then
        let procs := Function.update s.system.procs pid (some { proc with group := pid })
        some { s with system := { s.system with procs := procs } }
      else none
    | none => none
  | .signal pid reaction =>
    if isRunning s.system.procs pid = true then
      some { s with reaction := Function.update s.reaction pid reaction }
    else none
  | .test =>
    if s.main = .test ∧ s.calls = [] then
      some { s with main := if s.stopping = true then .returned else .body }
    else none
  | .stop =>
    if callsStop s = true then some { s with stopping := true, calls := [⟨.main, .prune⟩] }
    else none
  | .terminate =>
    match s.calls with
    | call :: rest => some (terminate s call rest)
    | [] => none
  | .sigterm => if isActive s = true then some (termTrap s) else none
  | .interrupt =>
    if s.main = .test ∨ s.main = .body then some { s with main := .interrupted, calls := [] }
    else if s.main = .interrupted then some { s with main := .failed, calls := [] }
    else none

/-- The signal that a step sends to the group. -/
def sent (s : ProcessMonitor) : Event → Option Signal
  | .terminate =>
    match s.calls with
    | ⟨_, .term⟩ :: _ => some .sigterm
    | ⟨_, .kill⟩ :: _ => some .sigkill
    | _ => none
  | _ => none

/-- What can be seen of a step. -/
structure Reply where
  /-- The processes that stop. -/
  stops : Pid → Bool
  sent : Option Signal

/-- A step is an event that is possible. -/
def step (s : ProcessMonitor) (e : Event) : Except Unit (Reply × ProcessMonitor) :=
  match next s e with
  | some t =>
    .ok (⟨fun pid => isRunning s.system.procs pid && !isRunning t.system.procs pid, sent s e⟩, t)
  | none => .error ()

end LazyFS.GroupShutdown
