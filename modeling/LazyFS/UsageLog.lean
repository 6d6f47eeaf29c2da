import LazyFS.PythonFloats
import LazyFS.ResourceMonitor
import LazyFS.SeparatedWords

/-!
# The log of the resource usage

The monitor writes a line for every sample: the time of the round and the row of the
process. Another program reads the log, and takes the words at fixed positions for
the columns. For every space in the command of the process the columns are one
position further behind, and a newline in the command cuts the line into two.
-/

namespace LazyFS.UsageLog

open PathNames PythonText TextDatabase PythonFloats SeparatedWords ProcFiles ResourceMonitor

/-- A sample of a process. -/
structure Sample where
  /-- The rounded time of the round, in millionths of a second. -/
  stamp : ℕ
  pid : Pid
  files : Files

/-- `"%f %s\\n" % (r_timestamp, line)`. -/
def Sample.line (s : Sample) : Bytes :=
  formatFixed s.stamp ++ space :: (s.files.row s.pid ++ [newline])

/-- A round of `monitoring_loop` that takes samples. -/
structure Round where
  stamp : ℕ
  monitor : Monitor
  files : Pid → Option Files

/-- The samples of some rounds. -/
def samples (rounds : List Round) : List Sample :=
  rounds.flatMap (fun round =>
    (getRawStats round.files round.monitor).1.map (fun e => ⟨round.stamp, e.1, e.2⟩))

/-- What `monitoring_loop` writes into the monitor file. -/
def usageLog (rounds : List Round) : Bytes := (samples rounds).flatMap Sample.line

/-- `orig.readlines()`. -/
def readlines : Bytes → List Bytes
  | [] => []
  | c :: s =>
    if c = newline then [newline] :: readlines s
    else
      match readlines s with
      | [] => [[c]]
      | line :: lines => (c :: line) :: lines

/-- The numbers that the system has configured. -/
structure Clock where
  /-- `SC_CLK_TCK`. -/
  tck : ℚ
  /-- `SC_PAGE_SIZE`. -/
  pageSize : ℚ
  tck_ne : tck ≠ 0

/-- What `parse_res_usage` takes from a line. -/
structure Columns where
  timestamp : Bytes
  utime : Bytes
  stime : Bytes
  vsize : Bytes
  rssBytes : ℚ
  dblkio : Bytes

/-- The columns of a line, unless an exception is raised. It is not caught. -/
def columns (clock : Clock) (line : Bytes) : Option Columns := do
  let parts := line.splitOn space
  let timestamp ← parts[0]?
  let utime ← parts[14]?
  let stime ← parts[15]?
  let vsize ← parts[23]?
  let rss ← parts[24]?
  let rss ← (pyLong rss).toOption
  let dblkio ← parts[42]?
  return ⟨timestamp, utime, stime, vsize, rss * clock.pageSize, dblkio⟩

/-- What is printed for a line. A value that was computed from an infinity, or from what
is not a number, is `none`. -/
structure Row where
  pcpu : Option ℚ
  vsize : Bytes
  rssBytes : ℚ
  delayedBlkio : Option ℚ

/-- `float(s) - float(t)`, unless that raises an exception. -/
def difference (s t : Bytes) : Option (Option ℚ) := do
  let x ← (pyFloat s).toOption
  let y ← (pyFloat t).toOption
  return Option.map₂ (· - ·) x y

/-- The body of the `try`, up to the row that it prints. All exceptions are caught. -/
def printed (clock : Clock) (prev c : Columns) : Option Row := do
  let timeDiff ← difference c.timestamp prev.timestamp
  let utimeDiff ← difference c.utime prev.utime
  let stimeDiff ← difference c.stime prev.stime
  let dblkioDiff ← difference c.dblkio prev.dblkio
  if timeDiff = some 0 then none
  else
    let ticks := Option.map₂ (· + ·) utimeDiff stimeDiff
    some {
      pcpu := Option.map₂ (fun ticks time => ticks / clock.tck * (1 / time)) ticks timeDiff
      vsize := c.vsize
      rssBytes := c.rssBytes
      delayedBlkio :=
        Option.map₂ (fun ticks time => ticks / clock.tck * (1 / time)) dblkioDiff timeDiff }

/-- The loop of `parse_res_usage`, with the columns of the line before if there was one:
what is printed for each line, if anything is, until an exception ends the loop. -/
def parseLines (clock : Clock) : Option Columns → List Bytes → List (Option Row)
  | _, [] => []
  | prev, line :: lines =>
    match columns clock line with
    | none => []
    | some c => prev.bind (fun prev => printed clock prev c) :: parseLines clock (some c) lines

/-- `parse_res_usage`. -/
def parseResUsage (clock : Clock) (orig : Bytes) : List (Option Row) :=
  parseLines clock none (readlines orig)

/-- The spaces in the command. -/
def Sample.spaces (s : Sample) : ℕ := s.files.comm.count space

/-- A number behind the state. -/
def Sample.field (s : Sample) (j : ℕ) : ℤ := s.files.fields.getD j 0

/-- The command does not cut the line. -/
def Sample.oneLine (s : Sample) : Bool := decide (newline ∉ s.files.comm)

/-- The time in seconds. -/
def Sample.time (s : Sample) : ℚ := s.stamp / 10 ^ 6

/-- A line is read up to its newline. -/
theorem readlines_append {line : Bytes} (h : newline ∉ line) (rest : Bytes) :
    readlines (line ++ newline :: rest) = (line ++ [newline]) :: readlines rest := by
  induction line with
  | nil => rw [List.nil_append, readlines, if_pos rfl, List.nil_append]
  | cons c line ih =>
    rw [List.mem_cons, not_or] at h
    rw [List.cons_append, readlines, if_neg (Ne.symm h.1), ih h.2]
    rfl

/-- A separator is no digit and no sign. -/
theorem notMem_formatFixed {c : UInt8} (hdigit : isDigit c = false) (hpoint : c ≠ 46) (n : ℕ) :
    c ∉ formatFixed n := by
  intro hmem
  have hdigit' : isDigit c ≠ true := by simp [hdigit]
  rcases List.mem_append.mp hmem with h | h
  · exact hdigit' (isDigit_of_mem_decimal h)
  · rcases List.mem_cons.mp h with h | h
    · exact hpoint h
    · exact hdigit' (isDigit_of_mem_fixedDigits h)

/-- The words of a line: those up to the fortieth number, and some more. -/
theorem splitOn_line (s : Sample) : ∃ rest, s.line.splitOn space =
    formatFixed s.stamp :: decimal s.pid ::
      (s.files.commWords ++ [s.files.state] :: ((s.files.fields.take 40).map pyStr ++ rest)) := by
  obtain ⟨tail, htail⟩ := row_begins s.pid s.files
  have hnumbers : s.files.fields.map pyStr =
      (s.files.fields.take 40).map pyStr ++ (s.files.fields.drop 40).map pyStr := by
    rw [← List.map_append, List.take_append_drop]
  have hmore : (s.files.fields.drop 40).map pyStr ≠ [] := by
    intro hempty
    have hlength := congrArg List.length hempty
    have henough := s.files.enough
    rw [List.length_map, List.length_drop, List.length_nil] at hlength
    omega
  have hstatus : s.files.status s.pid =
      [space].intercalate (decimal s.pid :: (40 :: (s.files.comm ++ [41])) :: [s.files.state] ::
        (s.files.fields.take 40).map pyStr) ++
          space :: [space].intercalate ((s.files.fields.drop 40).map pyStr) := by
    rw [Files.status, hnumbers, ← intercalate_append (List.cons_ne_nil _ _) hmore]
    rfl
  have hspace : space ∉ formatFixed s.stamp := notMem_formatFixed (by decide) (by decide) _
  rw [Sample.line, htail, hstatus, List.splitOn_append_cons_self_of_not_mem hspace,
    List.append_assoc, List.append_assoc, List.cons_append, List.splitOn_append_cons_self,
    splitOn_columns]
  exact ⟨_, by rw [List.cons_append, List.append_assoc, List.cons_append]⟩

/-- A command has one word more than spaces. -/
theorem length_commWords (s : Sample) : s.files.commWords.length = s.spaces + 1 := by
  have hcount : (40 :: (s.files.comm ++ [41])).count space = s.spaces := by
    have hopen : (40 : UInt8) ≠ space := by decide
    have hclose : (41 : UInt8) ≠ space := by decide
    rw [List.count_cons_of_ne hopen, List.count_append, List.count_singleton]
    simp [Sample.spaces, hclose]
  rw [Files.commWords, length_splitOn, hcount]

/-- The numbers come behind the words of the command. -/
theorem word_field (s : Sample) {j : ℕ} (h : j < 40) :
    (s.line.splitOn space)[s.spaces + (4 + j)]? = some (pyStr (s.field j)) := by
  obtain ⟨rest, hwords⟩ := splitOn_line s
  have henough := s.files.enough
  have hlength := length_commWords s
  have hfield : (s.files.fields.take 40)[j]? = some (s.field j) := by
    rw [List.getElem?_take_of_lt h, Sample.field, List.getD_eq_getElem?_getD,
      List.getElem?_eq_getElem (by omega), Option.getD_some]
  have hindex : s.spaces + (4 + j) = s.files.commWords.length + (j + 1) + 1 + 1 := by omega
  have hshort : j < ((s.files.fields.take 40).map pyStr).length := by
    rw [List.length_map, List.length_take]
    omega
  rw [hwords, hindex, List.getElem?_cons_succ, List.getElem?_cons_succ,
    List.getElem?_append_right (Nat.le_add_right _ _), Nat.add_sub_cancel_left,
    List.getElem?_cons_succ, List.getElem?_append_left hshort, List.getElem?_map, hfield,
    Option.map_some]

/-- A letter is no number. -/
theorem pyFloat_state (f : Files) : pyFloat [f.state] = .error .valueError := by
  have hletter : ∀ c : UInt8, isLetter c = true → pyFloat [c] = .error .valueError := by
    decide +kernel
  exact hletter f.state f.letter

/-- Two words in a row of a command with many spaces: there are too few other bytes
in it for both of them. -/
theorem empty_word (s : Sample) (h : 14 ≤ s.spaces) {ws : List Bytes} {last u v : Bytes}
    (hwords : s.files.commWords = ws ++ [last ++ [41]]) (hu : ws[12]? = some u)
    (hv : ws[13]? = some v) : u = [] ∨ v = [] := by
  obtain ⟨first, more, hfirst⟩ :=
    splitOn_cons_of_ne (show (40 : UInt8) ≠ space by decide) (s.files.comm ++ [41])
  have hsum := sum_length_splitOn space (40 :: (s.files.comm ++ [41]))
  have hlength := length_splitOn space (40 :: (s.files.comm ++ [41]))
  have hcommWords := length_commWords s
  have hshort := s.files.comm_short
  have hsplit : ws = ws.take 12 ++ u :: v :: ws.drop 14 := by
    obtain ⟨h12, hu⟩ := List.getElem?_eq_some_iff.mp hu
    obtain ⟨h13, hv⟩ := List.getElem?_eq_some_iff.mp hv
    conv_lhs => rw [← List.take_append_drop 12 ws, List.drop_eq_getElem_cons h12,
      List.drop_eq_getElem_cons h13, hu, hv]
  -- The first word holds a parenthesis.
  have htake : 1 ≤ ((ws.take 12).map List.length).sum := by
    have hhead : ws.take 12 = (40 :: first) :: (ws.take 12).tail := by
      rw [Files.commWords] at hwords
      rw [hfirst] at hwords
      cases ws with
      | nil => cases hu
      | cons w ws =>
        rw [List.cons_append] at hwords
        rw [(List.cons.inj hwords).1]
        rfl
    rw [hhead, List.map_cons, List.sum_cons, List.length_cons]
    omega
  rw [← Files.commWords] at hsum hlength
  rw [hwords, hsplit] at hsum
  simp only [List.map_append, List.map_cons, List.map_nil, List.sum_append, List.sum_cons,
    List.sum_nil, List.length_append, List.length_cons, List.length_nil] at hsum hlength
  by_cases hempty : u = []
  · exact Or.inl hempty
  · have hpos := List.length_pos_iff.mpr hempty
    exact Or.inr (List.length_eq_zero_iff.mp (by omega))

/-- The last word of the command ends in a parenthesis, and the state comes behind it. -/
theorem word_last (s : Sample) : ∃ ws last, s.files.commWords = ws ++ [last ++ [41]] ∧
    ws.length = s.spaces ∧ (s.line.splitOn space)[s.spaces + 2]? = some (last ++ [41]) ∧
      (s.line.splitOn space)[s.spaces + 3]? = some [s.files.state] := by
  obtain ⟨rest, hline⟩ := splitOn_line s
  obtain ⟨ws, last, hlast⟩ :=
    splitOn_concat_of_ne (show (41 : UInt8) ≠ space by decide) (40 :: s.files.comm)
  have hwords : s.files.commWords = ws ++ [last ++ [41]] := hlast
  have hlength : ws.length = s.spaces := by
    have hcount := length_commWords s
    rw [hwords, List.length_append, List.length_singleton] at hcount
    exact Nat.succ_inj.mp hcount
  refine ⟨ws, last, hwords, hlength, ?_, ?_⟩
  · rw [hline, hwords, ← hlength, List.append_assoc]
    simp
  · rw [hline, hwords, ← hlength, List.append_assoc]
    simp

/-- The words of the command come behind the time and the process. -/
theorem word_command (s : Sample) {i : ℕ} (h : i < s.spaces) :
    (s.line.splitOn space)[i + 2]? = s.files.commWords[i]? := by
  obtain ⟨rest, hline⟩ := splitOn_line s
  have hlength := length_commWords s
  rw [hline, List.getElem?_cons_succ, List.getElem?_cons_succ,
    List.getElem?_append_left (by omega)]

/-- If there are more than ten spaces in the command, the words for the two times are
parts of the command or its state, and not both of them are numbers. -/
theorem words_garbled (s : Sample) (h : 10 < s.spaces) {u v : Bytes}
    (hu : (s.line.splitOn space)[14]? = some u) (hv : (s.line.splitOn space)[15]? = some v) :
    pyFloat u = .error .valueError ∨ pyFloat v = .error .valueError := by
  obtain ⟨ws, last, hwords, hlength, hlast, hstate⟩ := word_last s
  have hparenthesis : pyFloat (last ++ [41]) = .error .valueError :=
    pyFloat_parenthesis (List.mem_append_right last List.mem_cons_self)
  rcases Nat.lt_or_ge s.spaces 14 with hfew | hmany
  · have hcases : s.spaces = 11 ∨ s.spaces = 12 ∨ s.spaces = 13 := by omega
    rcases hcases with hspaces | hspaces | hspaces
    · rw [hspaces, hu, Option.some.injEq] at hstate
      exact Or.inl (hstate ▸ pyFloat_state s.files)
    · rw [hspaces, hu, Option.some.injEq] at hlast
      exact Or.inl (hlast ▸ hparenthesis)
    · rw [hspaces, hv, Option.some.injEq] at hlast
      exact Or.inr (hlast ▸ hparenthesis)
  · have hnil : pyFloat [] = .error .valueError := by decide +kernel
    rw [word_command s (by omega), hwords, List.getElem?_append_left (by omega)] at hu hv
    rcases empty_word s hmany hwords hu hv with hempty | hempty
    · exact Or.inl (hempty ▸ hnil)
    · exact Or.inr (hempty ▸ hnil)

/-- What is read of a line: the time, and the numbers in the places of the columns. -/
structure Shows (s : Sample) (c : Columns) : Prop where
  timestamp : pyFloat c.timestamp = .ok (some s.time)
  utime : s.spaces ≤ 10 → pyFloat c.utime = .ok (some (s.field (10 - s.spaces) : ℚ))
  stime : s.spaces ≤ 10 → pyFloat c.stime = .ok (some (s.field (11 - s.spaces) : ℚ))
  garbled : 10 < s.spaces →
    pyFloat c.utime = .error .valueError ∨ pyFloat c.stime = .error .valueError
  dblkio : pyFloat c.dblkio = .ok (some (s.field (38 - s.spaces) : ℚ))

/-- Every line has its columns. -/
theorem columns_line (clock : Clock) (s : Sample) :
    ∃ c, columns clock s.line = some c ∧ Shows s c := by
  have hfew : s.spaces ≤ 15 := (List.count_le_length).trans s.files.comm_short
  have hstamp : (s.line.splitOn space)[0]? = some (formatFixed s.stamp) := by
    obtain ⟨rest, hline⟩ := splitOn_line s
    rw [hline, List.getElem?_cons_zero]
  have hnumber : ∀ i, s.spaces + 4 ≤ i → i ≤ 42 →
      (s.line.splitOn space)[i]? = some (pyStr (s.field (i - 4 - s.spaces))) := by
    intro i hlow hhigh
    have hi : i = s.spaces + (4 + (i - 4 - s.spaces)) := by omega
    conv_lhs => rw [hi]
    exact word_field s (by omega)
  have hexists : ∀ i, i ≤ 42 → ∃ w, (s.line.splitOn space)[i]? = some w := by
    intro i hi
    obtain ⟨hlength, -⟩ := List.getElem?_eq_some_iff.mp (word_field s (show 39 < 40 by decide))
    exact ⟨_, List.getElem?_eq_getElem (by omega)⟩
  obtain ⟨utime, hutime⟩ := hexists 14 (by decide)
  obtain ⟨stime, hstime⟩ := hexists 15 (by decide)
  have hvsize := hnumber 23 (by omega) (by decide)
  have hrss := hnumber 24 (by omega) (by decide)
  have hdblkio := hnumber 42 (by omega) (by decide)
  refine ⟨⟨formatFixed s.stamp, utime, stime, pyStr (s.field (23 - 4 - s.spaces)),
    s.field (24 - 4 - s.spaces) * clock.pageSize, pyStr (s.field (42 - 4 - s.spaces))⟩, ?_, ?_⟩
  · simp [columns, hstamp, hutime, hstime, hvsize, hrss, hdblkio, pyLong_pyStr, Except.toOption]
  · refine ⟨pyFloat_formatFixed s.stamp, fun h => ?_, fun h => ?_, fun h => ?_, pyFloat_pyStr _⟩
    · rw [hnumber 14 (by omega) (by decide), Option.some.injEq] at hutime
      rw [← hutime]
      exact pyFloat_pyStr _
    · rw [hnumber 15 (by omega) (by decide), Option.some.injEq] at hstime
      rw [← hstime]
      exact pyFloat_pyStr _
    · exact words_garbled s h hutime hstime

end LazyFS.UsageLog
