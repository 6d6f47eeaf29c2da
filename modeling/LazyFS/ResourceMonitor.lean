import LazyFS.IndexedLoops
import LazyFS.ProcFiles

/-!
# The resource monitor

The monitor keeps a list of the processes it watches. Its own children are in it
from the start, processes of its group are added when they are found, and what has
finished is removed. A process that was found in another group is never looked at
again. When the list gets empty by a removal, a flag is set that is never cleared.
-/

namespace LazyFS.ResourceMonitor

open IndexedLoops ProcFiles PythonText

/-- A process that the system knows. -/
structure Proc where
  /-- Its process group. -/
  group : Pid
  /-- Whether it still runs. If not, its parent has yet to wait for it. -/
  running : Bool
  deriving DecidableEq

/-- The process table. -/
abbrev ProcTable := Pid → Option Proc

/-- The fields of `ResourceMonitor` that change or are compared. -/
structure Monitor where
  /-- The children that were started and not yet found to be finished. -/
  pidDict : List Pid
  /-- The watched processes. -/
  pidList : List Pid
  /-- The processes that are not looked at. -/
  ignorePidList : List Pid
  processGroupId : Pid
  lastDied : Bool
  deriving DecidableEq

/-- `ResourceMonitor.__init__`, in the process `pid`, with the children it started in
the order in which the dictionary enumerates them. -/
def Monitor.init (pid : Pid) (children : List Pid) : Monitor :=
  ⟨children, children, [pid], pid, false⟩

/-- A process that still runs. -/
def isRunning (procs : ProcTable) (pid : Pid) : Bool := (procs pid).any Proc.running

/-- The children whose `poll()` is not `None`. -/
def polled (procs : ProcTable) (m : Monitor) : List Pid :=
  m.pidDict.filter (fun pid => !isRunning procs pid)

/-- The process table when these children have been waited for. -/
def waited (procs : ProcTable) (pids : List Pid) : ProcTable :=
  fun pid => if pid ∈ pids then none else procs pid

/-- `pid_exists`. -/
def pidExists (procs : ProcTable) (pid : Pid) : Bool := (procs pid).isSome

/-- The set `pids_to_remove`. -/
def pidsToRemove (procs : ProcTable) (m : Monitor) : List Pid :=
  (polled procs m ++
    m.pidList.filter (fun pid => !pidExists (waited procs (polled procs m)) pid)).dedup

/-- `prune_pid_list`, and what it leaves of the process table. -/
def prunePidList (procs : ProcTable) (m : Monitor) : Monitor × ProcTable :=
  let remove := pidsToRemove procs m
  let pidList := m.pidList.diff remove
  ({ m with
      pidDict := m.pidDict.filter (fun pid => decide (pid ∉ remove))
      pidList := pidList
      lastDied := m.lastDied || (decide (pidList = []) && decide (remove ≠ [])) },
    waited procs (polled procs m))

/-- The body of the loop of `get_raw_stats`: the samples whose rows it yields, and the
monitor afterwards. The files of a process can be read, or that is an `IOError`. -/
def sampleProcess (files : Pid → Option Files) (m : Monitor) (pid : Pid) :
    List (Pid × Files) × Monitor :=
  match files pid with
  | some f =>
    -- skip the containing shell process
    if f.command pid = some (PathNames.ascii "(sh)") then ([], m) else ([(pid, f)], m)
  | none =>
    let m := { m with pidList := m.pidList.erase pid }
    if m.pidList = [] then ([], { m with lastDied := true }) else ([], m)

/-- `get_raw_stats`, run to its end. -/
def getRawStats (files : Pid → Option Files) (m : Monitor) : List (Pid × Files) × Monitor :=
  forEach Monitor.pidList (sampleProcess files) m.pidList.length 0 m

/-- `is_everyone_dead`. -/
def isEveryoneDead (m : Monitor) : Bool := m.lastDied || decide (m.pidList = [])

/-- The body of the loop of `update_pid_tree`, with the contents of the status file of
each process whose files can be accessed. If no group can be read there, an exception
is raised. -/
def updatePid (stat : Pid → Option Bytes) (m : Monitor) (pid : Pid) : Option Monitor :=
  if pid ∈ m.pidList ∨ pid ∈ m.ignorePidList then some m
  else
    match stat pid with
    | none => some m
    | some contents =>
      (pgrp contents).map (fun (pgrp : ℤ) =>
        if pgrp = m.processGroupId then { m with pidList := m.pidList ++ [pid] }
        else { m with ignorePidList := m.ignorePidList ++ [pid] })

/-- `update_pid_tree`, for the processes that `/proc` lists. -/
def updatePidTree (stat : Pid → Option Bytes) (listed : List Pid) (m : Monitor) :
    Option Monitor :=
  listed.foldlM (updatePid stat) m

end LazyFS.ResourceMonitor
