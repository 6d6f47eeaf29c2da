import LazyFS.ResourceMonitor

/-!
# Sweeps over the watched processes

A sweep samples one watched process after the other, and removes those whose files
cannot be read from the list it is going through. The process behind a removed one
moves into its place and is passed over: it is neither sampled nor removed.
-/

namespace LazyFS.SamplingSweeps

open PathNames PythonText IndexedLoops ProcFiles ResourceMonitor

/-- The files of a process cannot be read. -/
def unreadable (files : Pid → Option Files) (pid : Pid) : Bool := (files pid).isNone

/-- The samples that a process yields. -/
def yielded (files : Pid → Option Files) (pid : Pid) : List (Pid × Files) :=
  match files pid with
  | some f => if f.command pid = some (ascii "(sh)") then [] else [(pid, f)]
  | none => []

/-- The samples that it should yield: one, unless its command is `sh`. -/
def expected (files : Pid → Option Files) (pid : Pid) : List (Pid × Files) :=
  match files pid with
  | some f => if f.comm = ascii "sh" then [] else [(pid, f)]
  | none => []

/-- A sweep is complete: every process that can be read and is no shell is sampled
once and in order, exactly those that can be read are left, and the flag is set if
there were processes and none of them can be read. -/
def Complete (files : Pid → Option Files) (m : Monitor) : Prop :=
  (getRawStats files m).1 =
      (m.pidList.filter (fun pid => !unreadable files pid)).flatMap (expected files) ∧
    (getRawStats files m).2.pidList = m.pidList.filter (fun pid => !unreadable files pid) ∧
    ((getRawStats files m).2.lastDied = true ↔
      m.lastDied = true ∨ (m.pidList ≠ [] ∧ ∀ pid ∈ m.pidList, unreadable files pid = true))

/-- The process is a shell that can be read. -/
def ReadableShell (files : Pid → Option Files) (pid : Pid) : Prop :=
  ∃ f, files pid = some f ∧ f.comm = ascii "sh"

/-- A command that begins like the shell's, up to a space, is the shell's. -/
def TellsShell (files : Pid → Option Files) (pid : Pid) : Prop :=
  ∀ f, files pid = some f → f.command pid = some (ascii "(sh)") → f.comm = ascii "sh"

variable {files : Pid → Option Files} {m : Monitor}

/-- A process whose files can be read changes nothing. -/
theorem sampleProcess_readable {f : Files} {pid : Pid} (h : files pid = some f) :
    sampleProcess files m pid = (yielded files pid, m) := by
  simp only [sampleProcess, yielded, h]
  split_ifs <;> rfl

/-- Any other is removed, and sets the flag if it was the last. -/
theorem sampleProcess_unreadable {pid : Pid} (h : files pid = none) :
    sampleProcess files m pid = (yielded files pid, { m with
      pidList := m.pidList.erase pid
      lastDied := m.lastDied || decide (m.pidList.erase pid = []) }) := by
  simp only [sampleProcess, yielded, h]
  split_ifs with hempty
  · simp [hempty]
  · simp [hempty]

/-- A process yields its sample, if its files are readable. -/
theorem sampleProcess_yields (files : Pid → Option Files) (m : Monitor) (pid : Pid) :
    (sampleProcess files m pid).1 = yielded files pid := by
  cases h : files pid with
  | some f => rw [sampleProcess_readable h]
  | none => rw [sampleProcess_unreadable h]

/-- The processes whose files are unreadable are removed. -/
theorem sampleProcess_removes (files : Pid → Option Files) :
    Removes Monitor.pidList (sampleProcess files) (unreadable files) := by
  intro m pid
  cases h : files pid with
  | some f => simp [sampleProcess_readable h, unreadable, h]
  | none => simp [sampleProcess_unreadable h, unreadable, h]

/-- A sweep samples the processes that it visits, leaves the survivors, and sets the
flag if it leaves none. -/
theorem getRawStats_eq (files : Pid → Option Files) (hnodup : m.pidList.Nodup) :
    getRawStats files m = ((visited (unreadable files) m.pidList).flatMap (yielded files), { m with
      pidList := survivors (unreadable files) m.pidList
      lastDied := m.lastDied ||
        (decide (m.pidList ≠ []) && decide (survivors (unreadable files) m.pidList = [])) }) := by
  obtain ⟨hrun, hleft⟩ : getRawStats files m =
        runBody (sampleProcess files) m (visited (unreadable files) m.pidList) ∧
      (getRawStats files m).2.pidList = survivors (unreadable files) m.pidList :=
    forEach_eq (sampleProcess_removes files) (List.nil_append _).symm hnodup le_rfl
  have hout : (getRawStats files m).1 =
      (visited (unreadable files) m.pidList).flatMap (yielded files) := by
    rw [hrun]
    exact runBody_yields (sampleProcess_yields files) m _
  refine Prod.ext hout ?_
  by_cases hempty : m.pidList = []
  · have hsame : ({ m with pidList := [], lastDied := m.lastDied } : Monitor) = m := by
      rw [← hempty]
    rw [hrun, hempty]
    simp [visited, runBody, survivors, hsame]
  · -- The flag is set whenever the list is empty, because it was not at first.
    have hflag : (getRawStats files m).2 = { m with
        pidList := (getRawStats files m).2.pidList
        lastDied := m.lastDied || decide ((getRawStats files m).2.pidList = []) } := by
      rw [hrun]
      refine runBody_rule (I := fun s : Monitor => s = { m with
        pidList := s.pidList, lastDied := m.lastDied || decide (s.pidList = []) }) ?_ ?_ _
      · intro s pid hs
        cases h : files pid with
        | some f =>
          rw [sampleProcess_readable h]
          exact hs
        | none =>
          rw [sampleProcess_unreadable h, hs]
          by_cases hs : s.pidList = []
          · simp [hs]
          · simp [hs]
      · simp [hempty]
    rw [hflag, hleft]
    simp [hempty]

/-- The shell is passed over. -/
theorem command_of_comm {f : Files} (h : f.comm = ascii "sh") (pid : Pid) :
    f.command pid = some (ascii "(sh)") := by
  rw [command_eq, Files.commWords, h]
  decide

/-- A process yields what it should, or nothing. -/
theorem yielded_cases (files : Pid → Option Files) (pid : Pid) :
    yielded files pid = expected files pid ∨ yielded files pid = [] := by
  unfold yielded expected
  cases files pid with
  | none => exact Or.inl rfl
  | some f =>
    by_cases hcommand : f.command pid = some (ascii "(sh)")
    · exact Or.inr (if_pos hcommand)
    · have hcomm : f.comm ≠ ascii "sh" := fun h => hcommand (command_of_comm h pid)
      exact Or.inl ((if_neg hcommand).trans (if_neg hcomm).symm)

/-- A process whose files are unreadable yields nothing. -/
theorem yielded_of_unreadable {pid : Pid} (h : unreadable files pid = true) :
    yielded files pid = [] := by
  rw [unreadable, Option.isNone_iff_eq_none] at h
  simp only [yielded, h]

/-- What is yielded is what should be, unless a command only begins like the shell's. -/
theorem yielded_eq_iff (files : Pid → Option Files) (pid : Pid) :
    yielded files pid = expected files pid ↔ TellsShell files pid := by
  unfold yielded expected TellsShell
  cases files pid with
  | none => simp
  | some f =>
    dsimp only
    split_ifs with hcommand hcomm hcomm
    · simp [hcomm]
    · simp [hcommand, hcomm]
    · exact absurd (command_of_comm hcomm pid) hcommand
    · simp [hcommand]

/-- Nothing is lost when a process is passed over only if it is a shell that can be read. -/
theorem passedOver_iff (files : Pid → Option Files) (pid : Pid) :
    (unreadable files pid = false ∧ expected files pid = []) ↔ ReadableShell files pid := by
  unfold unreadable expected ReadableShell
  cases files pid with
  | none => simp
  | some f => simp

/-- A sweep is complete if and only if whatever follows an unreadable process in the
list is a shell that can be read, and every command that begins like the shell's, up
to a space, is the shell's. -/
theorem sweep_complete_iff (files : Pid → Option Files) {m : Monitor} (hnodup : m.pidList.Nodup) :
    Complete files m ↔
      m.pidList.IsChain (fun pid next => files pid = none → ReadableShell files next) ∧
        ∀ pid ∈ m.pidList, TellsShell files pid := by
  have hlists := complete_iff (yielded_cases files) (fun _ h => yielded_of_unreadable h) m.pidList
  have hchain : ∀ pid next, (unreadable files pid = true →
      unreadable files next = false ∧ expected files next = []) ↔
        (files pid = none → ReadableShell files next) := by
    intro pid next
    rw [passedOver_iff, unreadable, Option.isNone_iff_eq_none]
  have htells : (∀ pid ∈ m.pidList, unreadable files pid = false →
      yielded files pid = expected files pid) ↔ ∀ pid ∈ m.pidList, TellsShell files pid := by
    refine forall₂_congr fun pid _ => ?_
    rw [yielded_eq_iff]
    constructor
    · intro h f hf
      exact h (by rw [unreadable, hf]; rfl) f hf
    · exact fun h _ => h
  simp only [hchain, htells] at hlists
  rw [← hlists, Complete, getRawStats_eq files hnodup]
  constructor
  · intro h
    exact ⟨h.2.1, h.1⟩
  · intro h
    refine ⟨h.2, h.1, ?_⟩
    -- The list is left empty exactly if all of it could not be read.
    simp only [h.1, Bool.or_eq_true, Bool.and_eq_true, decide_eq_true_eq, List.filter_eq_nil_iff,
      Bool.not_eq_true', Bool.not_eq_false]

/-- A process called `bash`. -/
def bash : Files :=
  ⟨ascii "bash", 83, List.replicate 41 0, [], by decide, by decide, by decide, by decide⟩

/-- Behind a process that has died, a live one is not sampled. -/
theorem dead_process_hides_next :
    ¬ Complete (fun pid => if pid = 2 then none else some bash)
      ⟨[2, 3], [2, 3], [1], 1, false⟩ := by
  intro h
  have hlength := congrArg List.length h.1
  revert hlength
  decide +kernel

/-- Two live processes and the shell behind a dead one. -/
theorem sweep_complete_iff_shell :
    let sh : Files := { bash with comm := ascii "sh", comm_short := by decide }
    let files : Pid → Option Files :=
      fun pid => if pid = 2 then none else if pid = 3 then some sh else some bash
    Complete files ⟨[2, 3], [4, 2, 3, 5], [1], 1, false⟩ := by
  intro sh files
  refine (sweep_complete_iff files (by decide)).mpr ⟨?_, ?_⟩
  · simp only [List.isChain_cons_cons, List.isChain_singleton, and_true]
    exact ⟨nofun, fun _ => ⟨sh, rfl, rfl⟩, nofun⟩
  · intro pid _ f hf hcommand
    have hbash : bash.commWords.head? ≠ some (ascii "(sh)") := by decide
    rw [command_eq] at hcommand
    simp only [files] at hf
    split_ifs at hf
    · cases hf
      rfl
    · cases hf
      exact absurd hcommand hbash

end LazyFS.SamplingSweeps
