import LazyFS.RingHistory
import LazyFS.TextDatabase

/-!
# The plot of the utilization history

A timer samples the utilization of every queue into a circular buffer while the
target runs, and the end probe prints the buffer as data for a plot. The loop
that prints stops at the slot that was written last without printing it, so the
plot shows one value less than there are slots, and the newest is missing.
-/

namespace LazyFS.UtilizationPlot

open PathNames PythonText TextDatabase RingHistory

/-- `N`. -/
def N : ℕ := 200

/-- The timer fires. -/
structure Tick where
  /-- `pid()` of the process it interrupts. -/
  pid : ℤ
  /-- What `qsq_util_reset(q)` returns for each queue. -/
  utilReset : Bytes → ℤ

/-- The probe of the timer, on `util` and `histidx`. -/
def timerMs (target : ℤ) (h : CircularBuffer (Bytes → ℤ)) (t : Tick) : CircularBuffer (Bytes → ℤ) :=
  if target = t.pid then h.push N t.utilReset else h

/-- The history after a list of ticks. Variables that were never assigned are zero. -/
def record (target : ℤ) (ticks : List Tick) : CircularBuffer (Bytes → ℤ) :=
  ticks.foldl (timerMs target) (CircularBuffer.start (fun _ => 0))

/-- The title of the line of a queue. -/
def title (q : Bytes) : Bytes := ascii "'-' title \"" ++ q ++ ascii "\" with lines"

/-- The commands in front of the data. -/
def heading (qnames : List Bytes) : Bytes :=
  ascii "set yrange [0:100]\n" ++ ascii "plot " ++
    List.intercalate (ascii ", ") (qnames.map title) ++ [newline]

/-- The data of one line of the plot. -/
def plotData (values : List ℤ) : Bytes :=
  values.flatMap (fun v => pyStr v ++ [newline]) ++ ascii "e\n"

/-- The probe of the end, with the queues in the order of `foreach`. -/
def endProbe (qnames : List Bytes) (h : CircularBuffer (Bytes → ℤ)) : Option Bytes := do
  let data ← qnames.mapM (fun q => (h.map (fun util => util q)).dump N)
  return heading qnames ++ data.flatMap plotData

/-- The values that were sampled for a queue. -/
def sampled (target : ℤ) (q : Bytes) (ticks : List Tick) : List ℤ :=
  (ticks.filter (fun t => target = t.pid)).map (fun t => t.utilReset q)

/-- The ticks of other processes do not count. -/
theorem record_eq (target : ℤ) (ticks : List Tick) :
    record target ticks = ((ticks.filter (fun t => target = t.pid)).map Tick.utilReset).foldl
      (CircularBuffer.push N) (CircularBuffer.start (fun _ => 0)) := by
  rw [record, List.foldl_map, List.foldl_filter]
  congr 1
  funext h t
  simp only [timerMs, decide_eq_true_eq]

/-- One line of the plot shows the last 199 samples but the newest, the oldest
first, with zeros in front where there are fewer. -/
theorem plotted_history (target : ℤ) (qnames : List Bytes) (ticks : List Tick) :
    endProbe qnames (record target ticks) = some (heading qnames ++
      qnames.flatMap (fun q => plotData (history N 0 (sampled target q ticks)))) := by
  have hdump : ∀ q, ((record target ticks).map (fun util => util q)).dump N =
      some (history N 0 (sampled target q ticks)) := by
    intro q
    have hslots := remembers_foldl (N := N) (show 0 < N by decide) (fun _ => (0 : ℤ))
      ((ticks.filter (fun t => target = t.pid)).map Tick.utilReset)
    rw [← record_eq] at hslots
    have hqueue := dump_eq (hslots.map (fun util : Bytes → ℤ => util q))
    rw [List.map_map] at hqueue
    exact hqueue
  have hall : qnames.mapM (fun q => ((record target ticks).map (fun util => util q)).dump N) =
      some (qnames.map (fun q => history N 0 (sampled target q ticks))) := by
    simp only [hdump]
    induction qnames with
    | nil => rfl
    | cons q qnames ih => simp only [List.mapM_cons, ih, List.map_cons, bind, Option.bind, pure]
  rw [endProbe, hall]
  simp only [bind, Option.bind, pure, List.flatMap_map]

end LazyFS.UtilizationPlot
