import LazyFS.SamplingSweeps
import LazyFS.UsageLog

/-!
# Rates from the log of the resource usage

The reader compares every line of the log with the line before it. That gives the
rates of a process if the two lines are samples of the same process, and if the
columns are where the reader looks for them.
-/

namespace LazyFS.UsageRates

open PythonText TextDatabase PythonFloats ProcFiles ResourceMonitor UsageLog

/-- The ticks that a process has used, in user mode and in kernel mode. -/
def cpuTicks (s : Sample) : ℤ := s.field 10 + s.field 11

/-- The ticks that it has waited for its input and output. -/
def blkioTicks (s : Sample) : ℤ := s.field 38

/-- The numbers in the places of the two times, if there are at most ten spaces in the
command. -/
def shownCpuTicks (s : Sample) : ℤ := s.field (10 - s.spaces) + s.field (11 - s.spaces)

/-- The number in the place of the block I/O delay. -/
def shownBlkioTicks (s : Sample) : ℤ := s.field (38 - s.spaces)

/-- The increase between two samples, in seconds for each second. -/
def rate (clock : Clock) (ticks : Sample → ℤ) (a b : Sample) : ℚ :=
  ((ticks b - ticks a : ℤ) : ℚ) / clock.tck / (b.time - a.time)

/-- Every row is printed for a sample of the process of the sample before, with the
rates of that process between the two. -/
def RatesRight (clock : Clock) (samples : List Sample) (rows : List (Option Row)) : Prop :=
  ∀ (i : ℕ) (row : Row), rows[i]? = some (some row) → ∃ (j : ℕ) (a b : Sample), i = j + 1 ∧
    samples[j]? = some a ∧ samples[i]? = some b ∧ a.pid = b.pid ∧
      row.pcpu = some (rate clock cpuTicks a b) ∧
      row.delayedBlkio = some (rate clock blkioTicks a b)

/-- Two neighbours in the log have different times, and commands with at most ten
spaces. -/
def Compared (a b : Sample) : Prop := a.stamp ≠ b.stamp ∧ a.spaces ≤ 10 ∧ b.spaces ≤ 10

/-- Whether two samples are compared is computed. -/
instance (a b : Sample) : Decidable (Compared a b) := inferInstanceAs (Decidable (_ ∧ _))

/-- If so, then they are of the same process, and there is no space in the commands. -/
def Aligned (a b : Sample) : Prop := Compared a b → a.pid = b.pid ∧ a.spaces = 0 ∧ b.spaces = 0

/-- Whether two samples are aligned is computed. -/
instance (a b : Sample) : Decidable (Aligned a b) := inferInstanceAs (Decidable (_ → _))

/-- If so, then they are of the same process, and what stands in the places of the
columns grows as the columns do. -/
def Steady (a b : Sample) : Prop := Compared a b → a.pid = b.pid ∧
  shownCpuTicks b - shownCpuTicks a = cpuTicks b - cpuTicks a ∧
  shownBlkioTicks b - shownBlkioTicks a = blkioTicks b - blkioTicks a

section Lines

/-- A line without a newline in the command is read back as it was written. -/
theorem readlines_line {s : Sample} (h : s.oneLine = true) (rest : Bytes) :
    readlines (s.line ++ rest) = s.line :: readlines rest := by
  have hcomm : newline ∉ s.files.comm := of_decide_eq_true h
  have hrow : newline ∉ formatFixed s.stamp ++ space :: s.files.row s.pid := by
    have hspace : newline ≠ space := by decide
    simp only [List.mem_append, List.mem_cons, not_or]
    exact ⟨notMem_formatFixed (by decide) (by decide) _, hspace, newline_notMem_row s.pid hcomm⟩
  have hline : s.line = formatFixed s.stamp ++ space :: s.files.row s.pid ++ [newline] := by
    rw [Sample.line, List.append_assoc, List.cons_append]
  rw [hline, List.append_assoc, List.singleton_append, readlines_append hrow]

/-- A line has columns only if it has more than 42 words. -/
theorem length_of_columns {clock : Clock} {line : Bytes} {c : Columns}
    (h : columns clock line = some c) : 42 < (line.splitOn space).length := by
  simp only [columns, Option.bind_eq_bind, Option.bind_eq_some_iff] at h
  obtain ⟨-, -, -, -, -, -, -, -, -, -, -, -, dblkio, hdblkio, -⟩ := h
  exact (List.getElem?_eq_some_iff.mp hdblkio).1

/-- A newline in the command ends the line before the columns. -/
theorem readlines_cut {s : Sample} (h : s.oneLine = false) (clock : Clock) (rest : Bytes) :
    ∃ line lines, readlines (s.line ++ rest) = line :: lines ∧ columns clock line = none := by
  have hcomm : newline ∈ s.files.comm := of_not_not (of_decide_eq_false h)
  obtain ⟨front, back, hsplit, hfront⟩ := List.eq_append_cons_of_mem hcomm
  obtain ⟨more, hmore⟩ : ∃ more, s.line ++ rest =
      (formatFixed s.stamp ++ space :: (decimal s.pid ++ space :: 40 :: front)) ++
        newline :: more := by
    obtain ⟨tail, htail⟩ := row_begins s.pid s.files
    rw [Sample.line, htail, Files.status, List.intercalate_cons_cons, List.intercalate_cons_cons,
      hsplit]
    simp
  have hnewline : newline ∉
      formatFixed s.stamp ++ space :: (decimal s.pid ++ space :: 40 :: front) := by
    have hspace : newline ≠ space := by decide
    have hopen : newline ≠ 40 := by decide
    simp only [List.mem_append, List.mem_cons, not_or]
    exact ⟨notMem_formatFixed (by decide) (by decide) _, hspace, notMem_decimal (by decide) _,
      hspace, hopen, hfront⟩
  refine ⟨_, _, hmore ▸ readlines_append hnewline more, ?_⟩
  rw [Option.eq_none_iff_forall_ne_some]
  intro c hc
  have hwords := length_of_columns hc
  have hstamp : (formatFixed s.stamp).count space = 0 :=
    List.count_eq_zero.mpr (notMem_formatFixed (by decide) (by decide) _)
  have hpid : (decimal s.pid).count space = 0 :=
    List.count_eq_zero.mpr (notMem_decimal (by decide) _)
  have hcount : front.count space ≤ 15 := by
    have hshort := s.files.comm_short
    have hle : front.count space ≤ front.length := List.count_le_length
    rw [hsplit, List.length_append] at hshort
    omega
  have hopen : (40 : UInt8) ≠ space := by decide
  have hend : newline ≠ space := by decide
  simp only [SeparatedWords.length_splitOn, List.count_append, List.count_cons_self,
    List.count_cons_of_ne hopen, List.count_cons_of_ne hend, List.count_nil, hstamp, hpid] at hwords
  omega

/-- The log is read up to the first command with a newline. -/
theorem parse_log (clock : Clock) (prev : Option Columns) (ss : List Sample) :
    parseLines clock prev (readlines (ss.flatMap Sample.line)) =
      parseLines clock prev ((ss.takeWhile Sample.oneLine).map Sample.line) := by
  induction ss generalizing prev with
  | nil => rfl
  | cons s ss ih =>
    rw [List.flatMap_cons, List.takeWhile_cons]
    cases h : s.oneLine with
    | true =>
      obtain ⟨c, hcolumns, -⟩ := columns_line clock s
      rw [readlines_line h, if_pos rfl, List.map_cons]
      simp only [parseLines, hcolumns, ih]
    | false =>
      obtain ⟨line, lines, hread, hcolumns⟩ := readlines_cut h clock (ss.flatMap Sample.line)
      rw [hread, if_neg Bool.false_ne_true]
      simp only [parseLines, hcolumns, List.map_nil]

/-- What is printed for a line is computed from it and the line before. -/
theorem parseLines_getElem (clock : Clock) (ss : List Sample) (prev : Option Columns) (i : ℕ)
    (row : Option Row) :
    (parseLines clock prev (ss.map Sample.line))[i + 1]? = some row ↔
      ∃ a b p c, ss[i]? = some a ∧ ss[i + 1]? = some b ∧ columns clock a.line = some p ∧
        columns clock b.line = some c ∧ row = printed clock p c := by
  induction ss generalizing prev i with
  | nil => simp [parseLines]
  | cons a ss ih =>
    obtain ⟨p, hp, -⟩ := columns_line clock a
    rw [List.map_cons, parseLines]
    simp only [hp, List.getElem?_cons_succ]
    cases i with
    | succ i => exact ih (some p) i
    | zero =>
      cases ss with
      | nil => simp [parseLines]
      | cons b ss =>
        obtain ⟨c, hc, -⟩ := columns_line clock b
        rw [List.map_cons, parseLines]
        simp only [hc, List.getElem?_cons_zero, Option.bind_some, Option.some.injEq]
        constructor
        · intro h
          exact ⟨a, b, p, c, rfl, rfl, hp, hc, h.symm⟩
        · rintro ⟨a', b', p', c', rfl, rfl, hp', hc', h⟩
          rw [hp, Option.some.injEq] at hp'
          rw [hc, Option.some.injEq] at hc'
          rw [h, hp', hc']

/-- Nothing is printed for the first line. -/
theorem parseLines_zero (clock : Clock) (ss : List Sample) (row : Row) :
    (parseLines clock none (ss.map Sample.line))[0]? ≠ some (some row) := by
  cases ss with
  | nil => simp [parseLines]
  | cons s ss =>
    obtain ⟨c, hcolumns, -⟩ := columns_line clock s
    simp [parseLines, hcolumns]

end Lines

section Rates

variable {a b : Sample} {p c : Columns} (clock : Clock)

/-- Two numbers have a difference. -/
theorem difference_of_ok {s t : Bytes} {x y : ℚ} (hs : pyFloat s = .ok (some x))
    (ht : pyFloat t = .ok (some y)) : difference s t = some (some (x - y)) := by
  simp [difference, hs, ht, Except.toOption]

/-- With anything else, there is none. -/
theorem difference_of_error {s t : Bytes} {e : PyError}
    (h : pyFloat s = .error e ∨ pyFloat t = .error e) : difference s t = none := by
  rcases h with h | h
  · simp [difference, h, Except.toOption]
  · simp [difference, h, Except.toOption]

/-- Times are different if they are printed differently. -/
theorem time_sub_ne_zero (h : a.stamp ≠ b.stamp) : b.time - a.time ≠ 0 := by
  intro hzero
  have htime : (b.stamp : ℚ) / 10 ^ 6 = a.stamp / 10 ^ 6 := sub_eq_zero.mp hzero
  rw [div_left_inj' (by norm_num)] at htime
  exact h (Nat.cast_injective htime).symm

/-- Two samples that can be compared give a row. -/
theorem printed_of_compared (ha : Shows a p) (hb : Shows b c) (h : Compared a b) :
    ∃ row, printed clock p c = some row ∧ row.pcpu = some (rate clock shownCpuTicks a b) ∧
      row.delayedBlkio = some (rate clock shownBlkioTicks a b) := by
  obtain ⟨hstamp, hfewA, hfewB⟩ := h
  have htime := difference_of_ok hb.timestamp ha.timestamp
  have hutime := difference_of_ok (hb.utime hfewB) (ha.utime hfewA)
  have hstime := difference_of_ok (hb.stime hfewB) (ha.stime hfewA)
  have hdblkio := difference_of_ok hb.dblkio ha.dblkio
  have hne := time_sub_ne_zero hstamp
  refine ⟨⟨some (rate clock shownCpuTicks a b), c.vsize, c.rssBytes,
    some (rate clock shownBlkioTicks a b)⟩, ?_, rfl, rfl⟩
  simp only [printed, htime, hutime, hstime, hdblkio, Option.bind_eq_bind, Option.bind_some,
    if_neg hne, Option.map₂_some_some, Option.some.injEq, Row.mk.injEq, true_and, rate,
    shownCpuTicks, shownBlkioTicks]
  push_cast
  constructor
  · ring
  · ring

/-- No other samples do. -/
theorem compared_of_printed (ha : Shows a p) (hb : Shows b c) {row : Row}
    (h : printed clock p c = some row) : Compared a b := by
  simp only [printed, Option.bind_eq_bind, Option.bind_eq_some_iff] at h
  obtain ⟨timeDiff, htime, utimeDiff, hutime, stimeDiff, hstime, dblkioDiff, -, h⟩ := h
  have hfew : a.spaces ≤ 10 ∧ b.spaces ≤ 10 := by
    refine ⟨not_lt.mp fun hmany => ?_, not_lt.mp fun hmany => ?_⟩
    · rcases ha.garbled hmany with hword | hword
      · cases (difference_of_error (Or.inr hword)).symm.trans hutime
      · cases (difference_of_error (Or.inr hword)).symm.trans hstime
    · rcases hb.garbled hmany with hword | hword
      · cases (difference_of_error (Or.inl hword)).symm.trans hutime
      · cases (difference_of_error (Or.inl hword)).symm.trans hstime
  refine ⟨fun hstamp => ?_, hfew⟩
  -- Equal times have the difference zero.
  have hzero : b.time - a.time = 0 := by rw [Sample.time, Sample.time, hstamp, sub_self]
  rw [difference_of_ok hb.timestamp ha.timestamp, Option.some.injEq, hzero] at htime
  rw [if_pos htime.symm] at h
  cases h

/-- Two columns grow at the same rate if they grow by as much. -/
theorem rate_eq_iff (h : a.stamp ≠ b.stamp) (f g : Sample → ℤ) :
    rate clock f a b = rate clock g a b ↔ f b - f a = g b - g a := by
  rw [rate, rate, div_left_inj' (time_sub_ne_zero h), div_left_inj' clock.tck_ne, Int.cast_inj]

/-- The condition on two neighbours says exactly when the row that is printed for them,
if there is one, is right. -/
theorem steady_iff (ha : Shows a p) (hb : Shows b c) :
    Steady a b ↔ ∀ row, printed clock p c = some row → a.pid = b.pid ∧
      row.pcpu = some (rate clock cpuTicks a b) ∧
      row.delayedBlkio = some (rate clock blkioTicks a b) := by
  constructor
  · intro h row hrow
    have hcompared := compared_of_printed clock ha hb hrow
    obtain ⟨hpid, hcpu, hblkio⟩ := h hcompared
    obtain ⟨row', hrow', hpcpu', hblkio'⟩ := printed_of_compared clock ha hb hcompared
    obtain rfl := Option.some.inj (hrow.symm.trans hrow')
    rw [hpcpu', hblkio', (rate_eq_iff clock hcompared.1 _ _).mpr hcpu,
      (rate_eq_iff clock hcompared.1 _ _).mpr hblkio]
    exact ⟨hpid, rfl, rfl⟩
  · intro h hcompared
    obtain ⟨row, hrow, hpcpu, hblkio⟩ := printed_of_compared clock ha hb hcompared
    obtain ⟨hpid, hpcpu', hblkio'⟩ := h row hrow
    rw [hpcpu, Option.some.injEq, rate_eq_iff clock hcompared.1] at hpcpu'
    rw [hblkio, Option.some.injEq, rate_eq_iff clock hcompared.1] at hblkio'
    exact ⟨hpid, hpcpu', hblkio'⟩

end Rates

/-- A process that has used some ticks. -/
def working (ticks : ℤ) : Files :=
  { SamplingSweeps.bash with
    fields := List.replicate 10 0 ++ ticks :: List.replicate 30 0, enough := le_rfl }

/-- Two processes are sampled twice. In the second between, the process 2 uses 50 ticks
and the process 3 uses none. -/
def twoProcesses : List Round :=
  [⟨1000000, ⟨[2], [2, 3], [1], 1, false⟩, fun pid => some (working (if pid = 2 then 100 else 5))⟩,
    ⟨2000000, ⟨[2], [2, 3], [1], 1, false⟩, fun pid => some (working (if pid = 2 then 150 else 5))⟩]

/-- The process 2 is compared with the process 3, so it seems to use 145 ticks. -/
theorem two_processes_mixed :
    let clock : Clock := ⟨100, 4096, by norm_num⟩
    let rows := parseResUsage clock (usageLog twoProcesses)
    rows[2]?.join.bind Row.pcpu = some (29 / 20) ∧
      ¬ RatesRight clock (samples twoProcesses) rows := by
  intro clock rows
  have hvalue : rows[2]?.join.bind Row.pcpu = some (29 / 20) := by decide +kernel
  have hpids : (samples twoProcesses).map Sample.pid = [2, 3, 2, 3] := by decide +kernel
  refine ⟨hvalue, fun h => ?_⟩
  obtain ⟨row, hrow, -⟩ := Option.bind_eq_some_iff.mp hvalue
  obtain ⟨j, a, b, hj, ha, hb, hpid, -⟩ := h 2 row (Option.join_eq_some_iff.mp hrow)
  obtain rfl : 1 = j := Nat.succ_inj.mp hj
  have ha' : [2, 3, 2, 3][1]? = some a.pid := by
    rw [← hpids, List.getElem?_map, ha, Option.map_some]
  have hb' : [2, 3, 2, 3][2]? = some b.pid := by
    rw [← hpids, List.getElem?_map, hb, Option.map_some]
  cases ha'.trans (hpid ▸ hb'.symm)

/-- The rows are right if and only if every two neighbours that can be compared are of the
same process and show the growth of the columns. -/
theorem ratesRight_iff_steady (clock : Clock) (rounds : List Round) :
    RatesRight clock (samples rounds) (parseResUsage clock (usageLog rounds)) ↔
      ((samples rounds).takeWhile Sample.oneLine).IsChain Steady := by
  have hsub : ∀ (i : ℕ) (a : Sample),
      ((samples rounds).takeWhile Sample.oneLine)[i]? = some a → (samples rounds)[i]? = some a := by
    intro i a ha
    obtain ⟨hi, rfl⟩ := List.getElem?_eq_some_iff.mp ha
    rw [(List.takeWhile_prefix Sample.oneLine).getElem hi]
    exact List.getElem?_eq_getElem _
  rw [parseResUsage, usageLog, parse_log]
  constructor
  · intro h
    rw [List.isChain_iff_getElem]
    intro i hi
    have ha := List.getElem?_eq_getElem (Nat.lt_of_succ_lt hi)
    have hb := List.getElem?_eq_getElem hi
    obtain ⟨p, hp, hshowsA⟩ := columns_line clock _
    obtain ⟨c, hc, hshowsB⟩ := columns_line clock _
    refine (steady_iff clock hshowsA hshowsB).mpr fun row hrow => ?_
    obtain ⟨j, a, b, hj, ha', hb', hright⟩ := h (i + 1) row
      ((parseLines_getElem clock _ none i _).mpr ⟨_, _, p, c, ha, hb, hp, hc, hrow.symm⟩)
    obtain rfl := Nat.succ_inj.mp hj
    obtain rfl := Option.some.inj ((hsub i _ ha).symm.trans ha')
    obtain rfl := Option.some.inj ((hsub (i + 1) _ hb).symm.trans hb')
    exact hright
  · intro h i row hrow
    cases i with
    | zero => exact absurd hrow (parseLines_zero clock _ row)
    | succ j =>
      obtain ⟨a, b, p, c, ha, hb, hp, hc, hprinted⟩ :=
        (parseLines_getElem clock _ none j _).mp hrow
      obtain ⟨p', hp', hshowsA⟩ := columns_line clock a
      obtain ⟨c', hc', hshowsB⟩ := columns_line clock b
      obtain rfl := Option.some.inj (hp'.symm.trans hp)
      obtain rfl := Option.some.inj (hc'.symm.trans hc)
      have hsteady : Steady a b := by
        obtain ⟨hlengthA, rfl⟩ := List.getElem?_eq_some_iff.mp ha
        obtain ⟨hlengthB, rfl⟩ := List.getElem?_eq_some_iff.mp hb
        exact List.isChain_iff_getElem.mp h j hlengthB
      exact ⟨j, a, b, rfl, hsub j a ha, hsub (j + 1) b hb,
        (steady_iff clock hshowsA hshowsB).mp hsteady row hprinted.symm⟩

/-- Without spaces in the commands the columns are where the reader looks for them. -/
theorem Aligned.steady {a b : Sample} (h : Aligned a b) : Steady a b := by
  intro hcompared
  obtain ⟨hpid, ha, hb⟩ := h hcompared
  refine ⟨hpid, ?_, ?_⟩
  · simp only [shownCpuTicks, cpuTicks, ha, hb, Nat.sub_zero]
  · simp only [shownBlkioTicks, blkioTicks, ha, hb, Nat.sub_zero]

/-- The rates that are printed are those of one process if all neighbours in the log, up
to the first command with a newline, that have different times and commands with at most
ten spaces are of the same process and have no space in their commands. If no command of
the log has one to ten spaces, they are so only if this is the case. -/
theorem rates_right_iff (clock : Clock) (rounds : List Round) :
    (((samples rounds).takeWhile Sample.oneLine).IsChain Aligned →
        RatesRight clock (samples rounds) (parseResUsage clock (usageLog rounds))) ∧
      ((∀ s ∈ (samples rounds).takeWhile Sample.oneLine, s.spaces = 0 ∨ 10 < s.spaces) →
        RatesRight clock (samples rounds) (parseResUsage clock (usageLog rounds)) →
          ((samples rounds).takeWhile Sample.oneLine).IsChain Aligned) := by
  rw [ratesRight_iff_steady]
  refine ⟨fun h => h.imp fun _ _ => Aligned.steady, fun hspaces h => ?_⟩
  refine h.imp_of_mem_imp fun a b ha hb hsteady hcompared => ?_
  have hnone : ∀ s ∈ (samples rounds).takeWhile Sample.oneLine, s.spaces ≤ 10 → s.spaces = 0 :=
    fun s hs hfew => (hspaces s hs).resolve_right (Nat.not_lt.mpr hfew)
  exact ⟨(hsteady hcompared).1, hnone a ha hcompared.2.1, hnone b hb hcompared.2.2⟩

/-- The process 2 alone. -/
def oneProcess : List Round :=
  [⟨1000000, ⟨[2], [2], [1], 1, false⟩, fun _ => some (working 100)⟩,
    ⟨2000000, ⟨[2], [2], [1], 1, false⟩, fun _ => some (working 150)⟩]

/-- Its rates are right, and its neighbours in the log are aligned. -/
theorem rates_right_iff_one :
    let clock : Clock := ⟨100, 4096, by norm_num⟩
    RatesRight clock (samples oneProcess) (parseResUsage clock (usageLog oneProcess)) ∧
      ((samples oneProcess).takeWhile Sample.oneLine).IsChain Aligned := by
  intro clock
  have haligned : ((samples oneProcess).takeWhile Sample.oneLine).IsChain Aligned := by
    decide +kernel
  have hright := (rates_right_iff clock oneProcess).1 haligned
  exact ⟨hright, (rates_right_iff clock oneProcess).2 (by decide +kernel) hright⟩

end LazyFS.UsageRates
