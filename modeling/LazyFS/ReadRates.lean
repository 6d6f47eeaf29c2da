import LazyFS.PythonText

/-!
# The read rates of the target

A probe on the virtual file system adds the result of every read of the target
to a counter for the kind of file, told from the name, and a timer prints the
counters and sets them to zero. A failed read returns an error number, which is
added like a length. Nothing is counted twice or lost between two lines.
-/

namespace LazyFS.ReadRates

open PathNames PythonText

/-- The keys of `read_rate` and `read_stats`. -/
inductive Column where
  | content
  /-- `"meta"`, for both kinds of metadata. -/
  | allMeta
  | mhash
  | mbinmap
  deriving DecidableEq

/-- The columns that a read of a file counts in. -/
def columns (filename : Bytes) : List Column :=
  if filename.length = 40 then [.content]
  else if ascii ".mhash" <:+: filename then [.mhash, .allMeta]
  else if ascii ".mbinmap" <:+: filename then [.mbinmap, .allMeta]
  else []

/-- The global variables of the two probes. -/
structure Probe where
  readRate : Column → ℤ
  /-- The values in each of the aggregates. -/
  readStats : Column → List ℤ
  readRateTs : ℤ

/-- The probe of the beginning. -/
def begin (now : ℤ) : Probe := ⟨fun _ => 0, fun _ => [], now⟩

/-- What the probes are called for. -/
inductive Event where
  /-- `vfs_read` returns in a process. -/
  | vfsRead (pid : ℤ) (filename : Bytes) (returnval : ℤ)
  /-- The timer fires, with the time at its start and at its end. -/
  | timer (printed reset : ℤ)

/-- Whether the timer fires. -/
def Event.isTimer : Event → Bool
  | .timer _ _ => true
  | .vfsRead _ _ _ => false

/-- A line that the timer prints. -/
structure Row where
  endTime : ℤ
  startTime : ℤ
  /-- The four rates, by their column. -/
  rate : Column → ℤ

/-- `read_rate[c] += bytes_read` and `read_stats[c] <<< bytes_read`. -/
def count (bytesRead : ℤ) (s : Probe) (c : Column) : Probe :=
  { s with
    readRate := Function.update s.readRate c (s.readRate c + bytesRead)
    readStats := Function.update s.readStats c (s.readStats c ++ [bytesRead]) }

/-- The two probes: the line printed, if any, and the variables afterwards. -/
def handle (targetPid : ℤ) (s : Probe) : Event → Option Row × Probe
  | .vfsRead pid filename returnval =>
    if targetPid ≠ pid then (none, s)
    else (none, (columns filename).foldl (count returnval) s)
  | .timer printed reset =>
    (some ⟨printed, s.readRateTs, s.readRate⟩, ⟨fun _ => 0, s.readStats, reset⟩)

/-- The lines printed for a list of events, and the variables afterwards. -/
def run (targetPid : ℤ) : Probe → List Event → List Row × Probe
  | s, [] => ([], s)
  | s, e :: es =>
    let (row, t) := handle targetPid s e
    let (rows, u) := run targetPid t es
    (row.toList ++ rows, u)

/-- What a read of the target adds to a column. -/
def Event.counted (targetPid : ℤ) (c : Column) : Event → Option ℤ
  | .vfsRead pid filename returnval =>
    if pid = targetPid ∧ c ∈ columns filename then some returnval else none
  | .timer _ _ => none

/-- The results of the reads that belong to a column. -/
def results (targetPid : ℤ) (c : Column) (es : List Event) : List ℤ :=
  es.filterMap (Event.counted targetPid c)

/-- The clock of the timer does not run backwards. -/
def Clocked : ℤ → List Event → Prop
  | _, [] => True
  | now, .vfsRead _ _ _ :: es => Clocked now es
  | now, .timer printed reset :: es => now ≤ printed ∧ printed ≤ reset ∧ Clocked reset es

variable {targetPid : ℤ}

/-- A file counts in a column once, and in both kinds of metadata or in neither. -/
theorem columns_nodup (filename : Bytes) : (columns filename).Nodup := by
  unfold columns
  split_ifs <;> decide

/-- The rate of all meta data has its column where one of the two has. -/
theorem allMeta_mem_iff (filename : Bytes) : Column.allMeta ∈ columns filename ↔
    Column.mhash ∈ columns filename ∨ Column.mbinmap ∈ columns filename := by
  unfold columns
  split_ifs <;> decide

/-- No file has both columns. -/
theorem not_both_mem (filename : Bytes) :
    ¬ (Column.mhash ∈ columns filename ∧ Column.mbinmap ∈ columns filename) := by
  unfold columns
  split_ifs <;> decide

/-- Counting a read changes the columns of its file by its result. -/
theorem foldl_count {cs : List Column} (hcs : cs.Nodup) (v : ℤ) (s : Probe) (c : Column) :
    (cs.foldl (count v) s).readRate c = s.readRate c + (if c ∈ cs then v else 0) ∧
      (cs.foldl (count v) s).readStats c = s.readStats c ++ (if c ∈ cs then [v] else []) ∧
      (cs.foldl (count v) s).readRateTs = s.readRateTs := by
  induction cs generalizing s with
  | nil => simp only [List.foldl_nil, List.not_mem_nil, if_false, Int.add_zero, List.append_nil,
      and_self]
  | cons d cs ih =>
    obtain ⟨hd, hcs⟩ := List.nodup_cons.mp hcs
    obtain ⟨hrate, hstats, hts⟩ := ih hcs (count v s d)
    rw [List.foldl_cons, hrate, hstats, hts]
    by_cases hc : c = d
    · subst hc
      simp only [count, Function.update_self, if_neg hd, List.mem_cons_self, if_true, Int.add_zero,
        List.append_nil, and_self]
    · simp only [count, Function.update_of_ne hc, List.mem_cons, hc, false_or, and_self]

/-- What one event does to a column. -/
theorem handle_read (targetPid : ℤ) (s : Probe) (pid : ℤ) (filename : Bytes) (v : ℤ) (c : Column) :
    (handle targetPid s (.vfsRead pid filename v)).1 = none ∧
      (handle targetPid s (.vfsRead pid filename v)).2.readRate c =
        s.readRate c + (results targetPid c [.vfsRead pid filename v]).sum ∧
      (handle targetPid s (.vfsRead pid filename v)).2.readStats c =
        s.readStats c ++ results targetPid c [.vfsRead pid filename v] ∧
      (handle targetPid s (.vfsRead pid filename v)).2.readRateTs = s.readRateTs := by
  obtain ⟨hrate, hstats, hts⟩ := foldl_count (columns_nodup filename) v s c
  by_cases hpid : targetPid = pid
  · by_cases hc : c ∈ columns filename
    · rw [if_pos hc] at hrate hstats
      simp only [handle, results, Event.counted, hpid, hc, List.filterMap_cons, List.filterMap_nil,
        ne_eq, not_true_eq_false, if_false, and_self, if_true, List.sum_singleton, hrate, hstats,
        hts]
    · rw [if_neg hc] at hrate hstats
      simp only [handle, results, Event.counted, hpid, hc, List.filterMap_cons, List.filterMap_nil,
        ne_eq, not_true_eq_false, if_false, and_false, List.sum_nil, hrate, hstats, hts, and_self]
  · have hpid' : ¬ pid = targetPid := fun h => hpid h.symm
    simp only [handle, results, Event.counted, hpid, hpid', List.filterMap_cons,
      List.filterMap_nil, ne_eq, not_false_eq_true, if_true, false_and, if_false, List.sum_nil,
      Int.add_zero, List.append_nil, and_self]

/-- The reads between two firings of the timer. -/
def segments (es : List Event) : List (List Event) := es.splitOnP Event.isTimer

/-- A pending sum joins the first segment. -/
theorem rows_eq_segments (c : Column) (es : List Event) (s : Probe) :
    (run targetPid s es).1.map (fun r => r.rate c) ++ [(run targetPid s es).2.readRate c] =
      ((segments es).map (fun seg => (results targetPid c seg).sum)).modifyHead
        (s.readRate c + ·) := by
  induction es generalizing s with
  | nil => simp only [run, segments, List.splitOnP_nil, results, List.filterMap_nil, List.map_nil,
      List.nil_append, List.map_cons, List.sum_nil, List.modifyHead_cons, Int.add_zero]
  | cons e es ih =>
    cases e with
    | timer printed reset =>
      have hrest := ih ⟨fun _ => 0, s.readStats, reset⟩
      have hid : ∀ l : List ℤ, l.modifyHead (0 + ·) = l := by
        intro l
        cases l <;> simp only [List.modifyHead_nil, List.modifyHead_cons, Int.zero_add]
      rw [hid] at hrest
      have hsplit : segments (.timer printed reset :: es) = [] :: segments es := by
        rw [segments, List.splitOnP_cons_eq_if_modifyHead, Event.isTimer, if_pos rfl, segments]
      rw [hsplit, List.map_cons, List.modifyHead_cons, ← hrest]
      simp only [run, handle, Option.toList_some, List.map_cons,
        List.cons_append, List.nil_append, results, List.filterMap_nil, List.sum_nil,
        Int.add_zero]
    | vfsRead pid filename v =>
      obtain ⟨hnone, hrate, -, -⟩ := handle_read targetPid s pid filename v c
      have hrest := ih (handle targetPid s (.vfsRead pid filename v)).2
      obtain ⟨seg, segs, hseg⟩ := List.exists_cons_of_ne_nil
        (List.splitOnP_ne_nil Event.isTimer es)
      have hsplit : segments (.vfsRead pid filename v :: es) =
          (.vfsRead pid filename v :: seg) :: segs := by
        rw [segments, List.splitOnP_cons_eq_if_modifyHead, Event.isTimer, hseg]
        rfl
      have hjoin : (results targetPid c (.vfsRead pid filename v :: seg)).sum =
          (results targetPid c [.vfsRead pid filename v]).sum +
            (results targetPid c seg).sum := by
        rw [← List.sum_append, results, results, results, ← List.filterMap_append]
        rfl
      rw [segments, hseg, List.map_cons, List.modifyHead_cons, hrate] at hrest
      rw [hsplit, List.map_cons, List.modifyHead_cons, hjoin, ← Int.add_assoc, ← hrest]
      simp only [run, hnone, Option.toList_none, List.nil_append]

/-- The aggregates keep every result. -/
theorem stats_eq (c : Column) (es : List Event) (s : Probe) :
    (run targetPid s es).2.readStats c = s.readStats c ++ results targetPid c es := by
  induction es generalizing s with
  | nil => simp only [run, results, List.filterMap_nil, List.append_nil]
  | cons e es ih =>
    have hjoin : results targetPid c (e :: es) =
        results targetPid c [e] ++ results targetPid c es := by
      rw [results, results, results, ← List.filterMap_append]
      rfl
    rw [hjoin, ← List.append_assoc]
    cases e with
    | timer printed reset =>
      have hnothing : results targetPid c [.timer printed reset] = [] := rfl
      rw [hnothing, List.append_nil]
      exact ih ⟨fun _ => 0, s.readStats, reset⟩
    | vfsRead pid filename v =>
      obtain ⟨-, -, hstats, -⟩ := handle_read targetPid s pid filename v c
      rw [← hstats]
      exact ih _

/-- The results of metadata are those of the two kinds. -/
theorem sum_allMeta (es : List Event) : (results targetPid .allMeta es).sum =
    (results targetPid .mhash es).sum + (results targetPid .mbinmap es).sum := by
  induction es with
  | nil => rfl
  | cons e es ih =>
    have hone : (results targetPid .allMeta [e]).sum =
        (results targetPid .mhash [e]).sum + (results targetPid .mbinmap [e]).sum := by
      cases e with
      | timer printed reset => rfl
      | vfsRead pid filename v =>
        have hiff := allMeta_mem_iff filename
        have hone := not_both_mem filename
        by_cases hmhash : Column.mhash ∈ columns filename
        · have hmbinmap : Column.mbinmap ∉ columns filename := fun h => hone ⟨hmhash, h⟩
          have hall := hiff.mpr (Or.inl hmhash)
          simp only [results, List.filterMap_cons, Event.counted, hall, hmhash, hmbinmap, and_true,
            and_false, if_false, List.filterMap_nil, List.sum_nil, Int.add_zero]
        · by_cases hmbinmap : Column.mbinmap ∈ columns filename
          · have hall := hiff.mpr (Or.inr hmbinmap)
            simp only [results, List.filterMap_cons, Event.counted, hall, hmhash, hmbinmap,
              and_true, and_false, if_false, List.filterMap_nil, List.sum_nil, Int.zero_add]
          · have hall : Column.allMeta ∉ columns filename := by
              rw [hiff, not_or]
              exact ⟨hmhash, hmbinmap⟩
            simp only [results, List.filterMap_cons, Event.counted, hall, hmhash, hmbinmap,
              and_false, if_false, List.filterMap_nil, List.sum_nil, Int.add_zero]
    have hjoin : ∀ c, (results targetPid c (e :: es)).sum =
        (results targetPid c [e]).sum + (results targetPid c es).sum := by
      intro c
      rw [← List.sum_append, results, results, results, ← List.filterMap_append]
      rfl
    rw [hjoin, hjoin, hjoin, ih, hone]
    omega

/-- The lines cover intervals that follow one another. -/
theorem rows_clocked (targetPid : ℤ) (s : Probe) (es : List Event)
    (hclock : Clocked s.readRateTs es) :
    (run targetPid s es).1.IsChain (fun r r' => r.endTime ≤ r'.startTime) ∧
      (∀ r ∈ (run targetPid s es).1, r.startTime ≤ r.endTime) ∧
      ∀ r ∈ (run targetPid s es).1.head?, s.readRateTs ≤ r.startTime := by
  induction es generalizing s with
  | nil => exact ⟨List.IsChain.nil, nofun, nofun⟩
  | cons e es ih =>
    cases e with
    | vfsRead pid filename v =>
      obtain ⟨hnone, -, -, hts⟩ := handle_read targetPid s pid filename v .content
      have hrest := ih (handle targetPid s (.vfsRead pid filename v)).2 (by rw [hts]; exact hclock)
      have hrows : (run targetPid s (.vfsRead pid filename v :: es)).1 =
          (run targetPid (handle targetPid s (.vfsRead pid filename v)).2 es).1 := by
        simp only [run, hnone, Option.toList_none, List.nil_append]
      rw [hrows, ← hts]
      exact hrest
    | timer printed reset =>
      obtain ⟨hprinted, hreset, hclock⟩ := hclock
      obtain ⟨hchain, hall, hhead⟩ := ih ⟨fun _ => 0, s.readStats, reset⟩ hclock
      have hrows : (run targetPid s (.timer printed reset :: es)).1 =
          ⟨printed, s.readRateTs, s.readRate⟩ ::
            (run targetPid ⟨fun _ => 0, s.readStats, reset⟩ es).1 := rfl
      rw [hrows]
      refine ⟨List.isChain_cons.mpr ⟨?_, hchain⟩, ?_, ?_⟩
      · intro r hr
        exact hreset.trans (hhead r hr)
      · intro r hr
        rcases List.mem_cons.mp hr with rfl | hr
        · exact hprinted
        · exact hall r hr
      · intro r hr
        rw [List.head?_cons, Option.mem_some_iff] at hr
        rw [← hr]

/-- Every line reports, in each column, the results of exactly the reads of the
target since the line before it, and what is left at the end is what no line has
reported. The metadata are the sum of the two kinds, and the aggregates hold every
result once. With a clock that does not run backwards the intervals of the lines do not
overlap. -/
theorem lines_report_reads (targetPid now : ℤ) (es : List Event) :
    (∀ c, (run targetPid (begin now) es).1.map (fun r => r.rate c) ++
        [(run targetPid (begin now) es).2.readRate c] =
      (segments es).map (fun seg => (results targetPid c seg).sum)) ∧
      (∀ r ∈ (run targetPid (begin now) es).1, r.rate .allMeta = r.rate .mhash + r.rate .mbinmap) ∧
      (∀ c, (run targetPid (begin now) es).2.readStats c = results targetPid c es) ∧
      (Clocked now es →
        (run targetPid (begin now) es).1.IsChain (fun r r' => r.endTime ≤ r'.startTime) ∧
          ∀ r ∈ (run targetPid (begin now) es).1, r.startTime ≤ r.endTime) := by
  have hcolumn : ∀ c, (run targetPid (begin now) es).1.map (fun r => r.rate c) ++
      [(run targetPid (begin now) es).2.readRate c] =
        (segments es).map (fun seg => (results targetPid c seg).sum) := by
    intro c
    rw [rows_eq_segments]
    cases (segments es).map (fun seg => (results targetPid c seg).sum) <;>
      simp only [List.modifyHead_nil, List.modifyHead_cons, begin, Int.zero_add]
  refine ⟨hcolumn, ?_, ?_, ?_⟩
  · intro r hr
    obtain ⟨i, hi, rfl⟩ := List.mem_iff_getElem.mp hr
    -- The same segment stands behind the line in every column.
    have hrate : ∀ c, ((run targetPid (begin now) es).1[i]).rate c =
        (results targetPid c ((segments es).getD i [])).sum := by
      intro c
      have hget := congrArg (fun l => l[i]?) (hcolumn c)
      rw [List.getElem?_append_left (by rw [List.length_map]; exact hi), List.getElem?_map,
        List.getElem?_map, List.getElem?_eq_getElem hi, Option.map_some] at hget
      cases hseg : (segments es)[i]? with
      | none =>
        rw [hseg] at hget
        cases hget
      | some seg =>
        rw [hseg, Option.map_some, Option.some.injEq] at hget
        rw [hget, List.getD, hseg, Option.getD_some]
    rw [hrate, hrate, hrate, sum_allMeta]
  · intro c
    rw [stats_eq]
    rfl
  · intro hclock
    obtain ⟨hchain, hall, -⟩ := rows_clocked targetPid (begin now) es hclock
    exact ⟨hchain, hall⟩

/-- A read of each kind, a line, and a read that fails. -/
theorem lines_report_reads_two :
    let es : List Event := [.vfsRead 7 (List.replicate 40 97) 100, .vfsRead 7 (ascii "a.mhash") 8,
      .timer 5 6, .vfsRead 7 (ascii "a.mbinmap") (-11), .timer 9 9]
    (run 7 (begin 0) es).1.map (fun r => (r.rate .content, r.rate .allMeta)) =
        [(100, 8), (0, -11)] ∧
      (run 7 (begin 0) es).1.IsChain (fun r r' => r.endTime ≤ r'.startTime) := by
  intro es
  refine ⟨rfl, ?_⟩
  exact ((lines_report_reads 7 0 es).2.2.2 (by simp only [es, Clocked]; decide)).1

end LazyFS.ReadRates
