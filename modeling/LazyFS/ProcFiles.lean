import LazyFS.TextDatabase
import LazyFS.SeparatedWords

/-!
# The files of a process under `/proc`

The monitor reads two files of each process. The first is one line: the process
id, the command in parentheses, the state and a row of numbers, separated by
single spaces. The command is whatever the process calls itself, in at most fifteen
bytes, so it may hold spaces and parentheses of its own, and the words of the line
are then not its columns.
-/

namespace LazyFS.ProcFiles

open PathNames PatternParser PythonText TextDatabase SeparatedWords

/-- A process id. -/
abbrev Pid := ℕ

/-- A letter. -/
def isLetter (c : UInt8) : Bool := (decide (65 ≤ c) && decide (c ≤ 90)) ||
  (decide (97 ≤ c) && decide (c ≤ 122))

/-- What the files of a process say. -/
structure Files where
  /-- The command, without its parentheses. -/
  comm : Bytes
  /-- The state of the process. -/
  state : UInt8
  /-- The numbers behind the state. -/
  fields : List ℤ
  /-- The counters of its input and output, with their names. -/
  io : List (Bytes × ℕ)
  /-- The system cuts a command after fifteen bytes. -/
  comm_short : comm.length ≤ 15
  letter : isLetter state = true
  /-- The line has at least 44 columns. -/
  enough : 41 ≤ fields.length
  /-- The name of a counter contains no colon. -/
  plain : ∀ e ∈ io, 58 ∉ e.1
  deriving DecidableEq

/-- The line in `/proc/<pid>/stat`, without its newline. -/
def Files.status (pid : Pid) (f : Files) : Bytes :=
  [space].intercalate
    (decimal pid :: (40 :: (f.comm ++ [41])) :: [f.state] :: f.fields.map pyStr)

/-- The contents of `/proc/<pid>/stat`. -/
def Files.stat (pid : Pid) (f : Files) : Bytes := f.status pid ++ [newline]

/-- A line of `/proc/<pid>/io`. -/
def ioLine (e : Bytes × ℕ) : Bytes := e.1 ++ ascii ": " ++ decimal e.2 ++ [newline]

/-- What comes behind the first `': '` of a line. -/
def behindColon : Bytes → Option Bytes
  | 58 :: 32 :: rest => some rest
  | _ :: rest => behindColon rest
  | [] => none

/-- What comes in front of the first `': '`, or everything if there is none. -/
def beforeColon : Bytes → Bytes
  | 58 :: 32 :: _ => []
  | c :: rest => c :: beforeColon rest
  | [] => []

/-- `line.split(': ')[1][:-1]`. -/
def ioValue (line : Bytes) : Option Bytes :=
  (behindColon line).map (fun rest => (beforeColon rest).dropLast)

/-- `' '.join(stats)`: the status and the values of the counters. A line that cannot
be split is reported and left out. -/
def Files.row (pid : Pid) (f : Files) : Bytes :=
  [space].intercalate ((f.stat pid).dropLast :: (f.io.map ioLine).filterMap ioValue)

/-- `status.split(" ")[1]`. -/
def Files.command (pid : Pid) (f : Files) : Option Bytes :=
  ((f.stat pid).dropLast.splitOn space)[1]?

/-- `s.split()`. -/
def pySplit (s : Bytes) : List Bytes := (s.splitOnP isSpace).filter (fun word => word ≠ [])

/-- `int(contents.split()[4])`, the process group in the contents of a status file,
unless that raises an exception. -/
def pgrp (contents : Bytes) : Option ℤ :=
  (pySplit contents)[4]?.bind (fun word => (pyInt word).toOption)

/-- The words of the command in its parentheses. -/
def Files.commWords (f : Files) : List Bytes := (40 :: (f.comm ++ [41])).splitOn space

/-- The state is a letter. -/
theorem notMem_state {c : UInt8} (h : isLetter c = false) (f : Files) : c ∉ [f.state] := by
  intro hmem
  rw [List.mem_singleton.mp hmem, f.letter] at h
  cases h

/-- The words of the first columns: only the command can be more than one. -/
theorem splitOn_columns (pid : Pid) (f : Files) (numbers : List ℤ) :
    ([space].intercalate (decimal pid :: (40 :: (f.comm ++ [41])) :: [f.state] ::
        numbers.map pyStr)).splitOn space =
      decimal pid :: (f.commWords ++ [f.state] :: numbers.map pyStr) := by
  have hfields : ∀ w ∈ [f.state] :: numbers.map pyStr, space ∉ w := by
    intro w hw
    rcases List.mem_cons.mp hw with rfl | hw
    · exact notMem_state (by decide) f
    · obtain ⟨n, -, rfl⟩ := List.mem_map.mp hw
      exact notMem_pyStr (by decide) (by decide) n
  have hcolumns := List.splitOn_intercalate space hfields (List.cons_ne_nil _ _)
  rw [List.intercalate_cons_cons, List.intercalate_cons_cons, List.append_assoc,
    List.append_assoc, List.singleton_append, List.singleton_append, List.splitOn_append_cons_self,
    List.splitOn_append_cons_self, hcolumns,
    List.splitOn_eq_singleton (notMem_decimal (by decide) pid)]
  rfl

/-- So the status splits. -/
theorem splitOn_status (pid : Pid) (f : Files) :
    (f.status pid).splitOn space =
      decimal pid :: (f.commWords ++ [f.state] :: f.fields.map pyStr) :=
  splitOn_columns pid f f.fields

/-- A line of `stat` without its end is the status that is read. -/
theorem dropLast_stat (pid : Pid) (f : Files) : (f.stat pid).dropLast = f.status pid :=
  List.dropLast_concat

/-- The second word is the first word of the command. -/
theorem command_eq (pid : Pid) (f : Files) : f.command pid = f.commWords.head? := by
  rw [Files.command, dropLast_stat, splitOn_status, List.getElem?_cons_succ]
  cases hwords : f.commWords with
  | nil => exact absurd hwords (List.splitOn_ne_nil _ _)
  | cons w ws => rfl

/-- The value of a counter is what is read of its line. -/
theorem ioValue_ioLine {e : Bytes × ℕ} (h : 58 ∉ e.1) :
    ioValue (ioLine e) = some (decimal e.2) := by
  have hskip : ∀ name rest : Bytes, 58 ∉ name →
      behindColon (name ++ 58 :: 32 :: rest) = some rest := by
    intro name rest hname
    induction name with
    | nil => rfl
    | cons c name ih =>
      rw [List.mem_cons, not_or] at hname
      rw [List.cons_append, behindColon]
      · exact ih hname.2
      · intro more hc
        exact absurd hc.symm hname.1
  have hall : ∀ s : Bytes, 58 ∉ s → beforeColon s = s := by
    intro s hs
    induction s with
    | nil => rfl
    | cons c s ih =>
      rw [List.mem_cons, not_or] at hs
      rw [beforeColon]
      · rw [ih hs.2]
      · intro more hc
        exact absurd hc.symm hs.1
  have hvalue : 58 ∉ decimal e.2 ++ [newline] := by
    rw [List.mem_append, not_or]
    exact ⟨notMem_decimal (by decide) _, by decide⟩
  have hline : ioLine e = e.1 ++ 58 :: 32 :: (decimal e.2 ++ [newline]) := by
    rw [ioLine, List.append_assoc, List.append_assoc]
    rfl
  rw [hline, ioValue, hskip _ _ h, Option.map_some, hall _ hvalue, List.dropLast_concat]

/-- A row is the status and the values of the counters. -/
theorem row_eq (pid : Pid) (f : Files) :
    f.row pid = [space].intercalate (f.status pid :: f.io.map (fun e => decimal e.2)) := by
  have hvalues : (f.io.map ioLine).filterMap ioValue = f.io.map (fun e => decimal e.2) := by
    have hvalue : ∀ e ∈ f.io, (ioValue ∘ ioLine) e = (some ∘ fun e => decimal e.2) e :=
      fun e he => ioValue_ioLine (f.plain e he)
    rw [List.filterMap_map, List.filterMap_congr hvalue, List.filterMap_eq_map]
  rw [Files.row, dropLast_stat, hvalues]

/-- A row begins with the status. -/
theorem row_begins (pid : Pid) (f : Files) : ∃ tail, f.row pid = f.status pid ++ tail := by
  rw [row_eq]
  cases f.io with
  | nil => exact ⟨[], by rw [List.map_nil, List.intercalate_singleton, List.append_nil]⟩
  | cons e io =>
    rw [List.map_cons, List.intercalate_cons_cons, List.append_assoc]
    exact ⟨_, rfl⟩

/-- A row holds a newline only if the command does. -/
theorem newline_notMem_row (pid : Pid) {f : Files} (h : newline ∉ f.comm) :
    newline ∉ f.row pid := by
  have hspace : newline ≠ space := by decide
  have hcomm : newline ∉ 40 :: (f.comm ++ [41]) := by
    have hopen : newline ≠ 40 := by decide
    have hclose : newline ≠ 41 := by decide
    simp [hopen, hclose, h]
  have hstatus : newline ∉ f.status pid := by
    intro hmem
    obtain heq | ⟨w, hw, hmem⟩ := mem_intercalate hmem
    · exact hspace heq
    · simp only [List.mem_cons, List.mem_map] at hw
      obtain rfl | rfl | rfl | ⟨n, -, rfl⟩ := hw
      · exact notMem_decimal (by decide) pid hmem
      · exact hcomm hmem
      · exact notMem_state (by decide) f hmem
      · exact notMem_pyStr (by decide) (by decide) n hmem
  rw [row_eq]
  intro hmem
  obtain heq | ⟨w, hw, hmem⟩ := mem_intercalate hmem
  · exact hspace heq
  · simp only [List.mem_cons, List.mem_map] at hw
    obtain rfl | ⟨e, -, rfl⟩ := hw
    · exact hstatus hmem
    · exact notMem_decimal (by decide) e.2 hmem

end LazyFS.ProcFiles
