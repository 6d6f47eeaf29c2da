import LazyFS.Timelines

/-!
# Scheduler time accounting

The probes follow one process through the states of the scheduler and add up the
time it spends running, queued and sleeping. They do not know the state until the
first event that involves the process, and they ignore events that do not fit the
state they are in. The totals are charged when the state changes, for the time
since the last change, so they add up to the time between the first change and
the last.
-/

namespace LazyFS.SchedulerAccounting

open Timelines

/-- The values of the `state` variable. -/
inductive State where
  | running
  | queued
  | sleeping
  | unset
  deriving DecidableEq, Repr

/-- The global variables of the two probes. -/
structure Probe where
  runTime : ℤ
  queuedTime : ℤ
  sleepTime : ℤ
  ioWaitTime : ℤ
  state : State
  prevTime : ℤ
  ioWaitCount : ℤ
  ioWaitIncremented : ℤ
  deriving DecidableEq

/-- The variables after `probe begin`. -/
def begin : Probe := ⟨0, 0, 0, 0, .unset, 0, 0, 0⟩

/-- A `sched_switch` event. -/
structure SchedSwitch where
  previousPid : ℤ
  nextPid : ℤ
  /-- `$prev->state`. -/
  prevState : ℤ
  /-- `get_iowait($rq)`, if `$rq` is defined. -/
  iowait : Option ℤ
  /-- `gettimeofday_us()`. -/
  now : ℤ
  /-- The scheduler switches between different processes. -/
  distinct : previousPid ≠ nextPid

/-- A `sched_wakeup` event. -/
structure SchedWakeup where
  wakeupPid : ℤ
  success : Bool
  /-- `gettimeofday_us()`. -/
  now : ℤ

/-- An event that a probe is attached to. -/
inductive Event where
  | schedSwitch (e : SchedSwitch)
  | schedWakeup (e : SchedWakeup)

/-- When an event happens. -/
def Event.now : Event → ℤ
  | .schedSwitch e => e.now
  | .schedWakeup e => e.now

/-- The first half of `probe sched_switch`: the process leaves the processor. -/
def switchOut (e : SchedSwitch) (s : Probe) : Probe :=
  if s.state = .unset then
    let s := { s with prevTime := e.now }
    if e.prevState > 0 then { s with state := .sleeping }
    else if e.prevState = 0 then { s with state := .queued }
    else s
  else if s.state = .running then
    let s := { s with runTime := s.runTime + (e.now - s.prevTime), prevTime := e.now }
    if e.prevState > 0 then
      let s := match e.iowait with
        | some iowait =>
          if iowait - s.ioWaitCount > 0 then { s with ioWaitIncremented := 1 } else s
        | none => s
      { s with state := .sleeping }
    else if e.prevState = 0 then { s with state := .queued }
    else s
  else s

/-- The second half of `probe sched_switch`: the process gets the processor. -/
def switchIn (e : SchedSwitch) (s : Probe) : Probe :=
  let s := match e.iowait with
    | some iowait => { s with ioWaitCount := iowait }
    | none => s
  if s.state = .unset then { s with prevTime := e.now, state := .running }
  else if s.state = .queued then
    { s with
      queuedTime := s.queuedTime + (e.now - s.prevTime), prevTime := e.now, state := .running }
  else s

/-- `probe sched_switch`. -/
def schedSwitch (targetPid : ℤ) (e : SchedSwitch) (s : Probe) : Probe :=
  if ¬ (e.previousPid = targetPid ∨ e.nextPid = targetPid) then s
  else
    let s := if e.previousPid = targetPid then switchOut e s else s
    if e.nextPid = targetPid then switchIn e s else s

/-- `probe sched_wakeup`. -/
def schedWakeup (targetPid : ℤ) (e : SchedWakeup) (s : Probe) : Probe :=
  if e.wakeupPid ≠ targetPid then s
  else if e.success = false ∧ s.state ≠ .sleeping then s
  else if e.wakeupPid = 0 then s
  else if s.state = .unset then { s with prevTime := e.now, state := .queued }
  else if s.state = .sleeping then
    let s := { s with sleepTime := s.sleepTime + (e.now - s.prevTime) }
    let s :=
      if s.ioWaitIncremented = 1 then
        { s with
          ioWaitTime := s.ioWaitTime + (e.now - s.prevTime), ioWaitIncremented := 0 }
      else s
    { s with prevTime := e.now, state := .queued }
  else s

/-- The probe that an event triggers. -/
def handle (targetPid : ℤ) (s : Probe) : Event → Probe
  | .schedSwitch e => schedSwitch targetPid e s
  | .schedWakeup e => schedWakeup targetPid e s

/-- The variables after some events. -/
def run (targetPid : ℤ) (events : List Event) : Probe := events.foldl (handle targetPid) begin

/-- For how long the `state` variable had a value, from time `a` on and before `b`. -/
noncomputable def timeInState (targetPid : ℤ) (x : State) (events : List Event) (a b : ℤ) : ℤ :=
  timeIn (handle targetPid) Event.now (fun s => s.state = x) begin events a b

/-- What an event can do to the variables. -/
inductive Handled (now : ℤ) (s : Probe) : Probe → Prop
  | ignored (count : ℤ) : Handled now s { s with ioWaitCount := count }
  | found (x : State) (count : ℤ) (hs : s.state = .unset) :
    Handled now s { s with prevTime := now, state := x, ioWaitCount := count }
  | ran (x : State) (incremented : ℤ) (hs : s.state = .running) (hx : x ≠ .unset)
    (hio : x = .sleeping ∨ incremented = s.ioWaitIncremented) :
    Handled now s { s with
      runTime := s.runTime + (now - s.prevTime), prevTime := now, state := x
      ioWaitIncremented := incremented }
  | dispatched (count : ℤ) (hs : s.state = .queued) :
    Handled now s { s with
      queuedTime := s.queuedTime + (now - s.prevTime), prevTime := now, state := .running
      ioWaitCount := count }
  | slept (hs : s.state = .sleeping) (hio : s.ioWaitIncremented ≠ 1) :
    Handled now s { s with
      sleepTime := s.sleepTime + (now - s.prevTime), prevTime := now, state := .queued }
  | waited (hs : s.state = .sleeping) (hio : s.ioWaitIncremented = 1) :
    Handled now s { s with
      sleepTime := s.sleepTime + (now - s.prevTime)
      ioWaitTime := s.ioWaitTime + (now - s.prevTime), ioWaitIncremented := 0
      prevTime := now, state := .queued }

/-- A switch away is handled at its time. -/
theorem switchOut_handled (e : SchedSwitch) (s : Probe) : Handled e.now s (switchOut e s) := by
  unfold switchOut
  split_ifs with hunset hpos hzero hrunning hpos hzero
  · exact .found .sleeping s.ioWaitCount hunset
  · exact .found .queued s.ioWaitCount hunset
  · exact .found s.state s.ioWaitCount hunset
  · cases hiowait : e.iowait with
    | none => exact .ran .sleeping _ hrunning (by decide) (Or.inl rfl)
    | some iowait =>
      dsimp only
      split_ifs
      · exact .ran .sleeping 1 hrunning (by decide) (Or.inl rfl)
      · exact .ran .sleeping _ hrunning (by decide) (Or.inl rfl)
  · exact .ran .queued _ hrunning (by decide) (Or.inr rfl)
  · have hsame : s.state ≠ .unset := hunset
    exact .ran s.state _ hrunning hsame (Or.inr rfl)
  · exact .ignored s.ioWaitCount

/-- A switch to the process is handled at its time. -/
theorem switchIn_handled (e : SchedSwitch) (s : Probe) : Handled e.now s (switchIn e s) := by
  unfold switchIn
  cases e.iowait with
  | none =>
    dsimp only
    split_ifs with hunset hqueued
    · exact .found .running s.ioWaitCount hunset
    · exact .dispatched s.ioWaitCount hqueued
    · exact .ignored s.ioWaitCount
  | some iowait =>
    dsimp only
    split_ifs with hunset hqueued
    · exact .found .running iowait hunset
    · exact .dispatched iowait hqueued
    · exact .ignored iowait

/-- Every event does one of these things. -/
theorem handle_handled (targetPid : ℤ) (s : Probe) (e : Event) :
    Handled e.now s (handle targetPid s e) := by
  have hignored : Handled e.now s s := .ignored s.ioWaitCount
  cases e with
  | schedSwitch e =>
    simp only [handle, schedSwitch]
    by_cases hprev : e.previousPid = targetPid
    · have hnext : e.nextPid ≠ targetPid := fun hnext => e.distinct (hprev.trans hnext.symm)
      simp only [hprev, hnext, true_or, not_true_eq_false, if_true, if_false]
      exact switchOut_handled e s
    · by_cases hnext : e.nextPid = targetPid
      · simp only [hprev, hnext, or_true, not_true_eq_false, if_true, if_false]
        exact switchIn_handled e s
      · simp only [hprev, hnext, or_self, not_false_eq_true, if_true]
        exact hignored
  | schedWakeup e =>
    simp only [handle, schedWakeup]
    split_ifs with hother hfailed hzero hunset hsleeping hio
    · exact hignored
    · exact hignored
    · exact hignored
    · exact .found .queued s.ioWaitCount hunset
    · exact .waited hsleeping hio
    · exact .slept hsleeping hio
    · exact hignored

/-- What holds of the variables, `t` being no earlier than the events so far. -/
structure Sound (s : Probe) (t : ℤ) : Prop where
  /-- The last change of a known state is over. -/
  past : s.state ≠ .unset → s.prevTime ≤ t
  /-- Nothing is charged while the state is not known. -/
  fresh : s.state = .unset → s.runTime = 0 ∧ s.queuedTime = 0 ∧ s.sleepTime = 0
  /-- A sleep that waits for input or output is a sleep. -/
  marked : s.ioWaitIncremented = 1 → s.state = .sleeping
  io_nonneg : 0 ≤ s.ioWaitTime
  io_le : s.ioWaitTime ≤ s.sleepTime

/-- Every event keeps the variables sound. -/
theorem sound_handled {now t : ℤ} {s s' : Probe} (hs : Sound s now) (ht : now ≤ t)
    (h : Handled now s s') : Sound s' t := by
  have hio := hs.io_le
  cases h with
  | ignored count =>
    exact ⟨fun hne => (hs.past hne).trans ht, hs.fresh, hs.marked, hs.io_nonneg, hs.io_le⟩
  | found x count hunset =>
    have hunmarked : s.ioWaitIncremented ≠ 1 := fun h => by
      rw [hs.marked h] at hunset
      cases hunset
    exact ⟨fun _ => ht, fun _ => hs.fresh hunset, fun h => absurd h hunmarked, hs.io_nonneg, hio⟩
  | ran x incremented hrunning hx hmark =>
    refine ⟨fun _ => ht, fun hunset => absurd hunset hx, ?_, hs.io_nonneg, hio⟩
    intro hone
    rcases hmark with hsleeping | hkept
    · exact hsleeping
    · rw [hs.marked (hkept ▸ hone)] at hrunning
      cases hrunning
  | dispatched count hqueued =>
    refine ⟨fun _ => ht, nofun, ?_, hs.io_nonneg, hio⟩
    intro hone
    rw [hs.marked hone] at hqueued
    cases hqueued
  | slept hsleeping hunmarked =>
    have hpast := hs.past (by rw [hsleeping]; decide)
    refine ⟨fun _ => ht, nofun, fun hone => absurd hone hunmarked, hs.io_nonneg, ?_⟩
    dsimp only
    omega
  | waited hsleeping hmarked =>
    have hpast := hs.past (by rw [hsleeping]; decide)
    have hnonneg := hs.io_nonneg
    refine ⟨fun _ => ht, nofun, fun hone => absurd hone zero_ne_one, ?_, ?_⟩
    · dsimp only
      omega
    · dsimp only
      omega

/-- So they are sound after every run. -/
theorem run_sound (targetPid : ℤ) {events : List Event} (h : Ordered Event.now events) {t : ℤ}
    (ht : ∀ e ∈ events, e.now ≤ t) : Sound (run targetPid events) t := by
  refine ordered_rule (I := Sound) ?_ ?_ h ht
  · intro t
    exact ⟨fun hne => absurd rfl hne, fun _ => ⟨rfl, rfl, rfl⟩, fun hone => absurd hone (by decide),
      le_rfl, le_rfl⟩
  · intro s e t hs hle
    exact sound_handled hs hle (handle_handled targetPid s e)

/-- A known state stays known. -/
theorem handled_ne_unset {now : ℤ} {s s' : Probe} (hs : s.state ≠ .unset)
    (h : Handled now s s') : s'.state ≠ .unset := by
  cases h with
  | ignored count => exact hs
  | found x count hunset => exact absurd hunset hs
  | ran x incremented hrunning hx hmark => exact hx
  | dispatched count hqueued => exact nofun
  | slept hsleeping hunmarked => exact nofun
  | waited hsleeping hmarked => exact nofun

/-- The total that belongs to a state. -/
def Probe.total (x : State) (s : Probe) : ℤ :=
  match x with
  | .running => s.runTime
  | .queued => s.queuedTime
  | .sleeping => s.sleepTime
  | .unset => 0

/-- Each total is charged the time since the last change when its state is left,
and when an event keeps it but is accounted for. -/
theorem charges_total (targetPid : ℤ) {x : State} (hx : x ≠ .unset) :
    Charges (handle targetPid) Event.now Probe.prevTime (Probe.total x)
      (fun s => s.state = x) := by
  intro s e
  have h := handle_handled targetPid s e
  generalize handle targetPid s e = s' at h
  cases h with
  | ignored count => exact Or.inl ⟨rfl, by cases x <;> rfl, Iff.rfl⟩
  | found y count hunset =>
    have hother : ¬ s.state = x := fun heq => hx (heq.symm.trans hunset)
    refine Or.inr ⟨rfl, ?_⟩
    rw [if_neg hother, add_zero]
    cases x <;> rfl
  | ran y incremented hrunning hy hmark =>
    refine Or.inr ⟨rfl, ?_⟩
    cases x <;> simp [Probe.total, hrunning]
  | dispatched count hqueued =>
    refine Or.inr ⟨rfl, ?_⟩
    cases x <;> simp [Probe.total, hqueued]
  | slept hsleeping hunmarked =>
    refine Or.inr ⟨rfl, ?_⟩
    cases x <;> simp [Probe.total, hsleeping]
  | waited hsleeping hmarked =>
    refine Or.inr ⟨rfl, ?_⟩
    cases x <;> simp [Probe.total, hsleeping]

/-- The sum of the totals is charged whenever the state is known. -/
theorem charges_sum (targetPid : ℤ) :
    Charges (handle targetPid) Event.now Probe.prevTime
      (fun s => s.runTime + s.queuedTime + s.sleepTime) (fun s => s.state ≠ .unset) := by
  intro s e
  have h := handle_handled targetPid s e
  generalize handle targetPid s e = s' at h
  cases h with
  | ignored count => exact Or.inl ⟨rfl, rfl, Iff.rfl⟩
  | found y count hunset =>
    refine Or.inr ⟨rfl, ?_⟩
    rw [if_neg (not_not.mpr hunset), add_zero]
  | ran y incremented hrunning hy hmark =>
    have hknown : s.state ≠ .unset := by rw [hrunning]; decide
    refine Or.inr ⟨rfl, ?_⟩
    rw [if_pos hknown]
    dsimp only
    omega
  | dispatched count hqueued =>
    have hknown : s.state ≠ .unset := by rw [hqueued]; decide
    refine Or.inr ⟨rfl, ?_⟩
    rw [if_pos hknown]
    dsimp only
    omega
  | slept hsleeping hunmarked =>
    have hknown : s.state ≠ .unset := by rw [hsleeping]; decide
    refine Or.inr ⟨rfl, ?_⟩
    rw [if_pos hknown]
    dsimp only
    omega
  | waited hsleeping hmarked =>
    have hknown : s.state ≠ .unset := by rw [hsleeping]; decide
    refine Or.inr ⟨rfl, ?_⟩
    rw [if_pos hknown]
    dsimp only
    omega

/-- The event that makes the state known sets the time, and charges nothing. -/
theorem handled_leaves_unset {now : ℤ} {s s' : Probe} (hs : s.state = .unset)
    (hs' : s'.state ≠ .unset) (h : Handled now s s') :
    s'.prevTime = now ∧ s'.runTime = s.runTime ∧ s'.queuedTime = s.queuedTime ∧
      s'.sleepTime = s.sleepTime := by
  cases h with
  | ignored count => exact absurd hs hs'
  | found x count hunset => exact ⟨rfl, rfl, rfl, rfl⟩
  | ran x incremented hrunning hx hmark => cases hs.symm.trans hrunning
  | dispatched count hqueued => cases hs.symm.trans hqueued
  | slept hsleeping hunmarked => cases hs.symm.trans hsleeping
  | waited hsleeping hmarked => cases hs.symm.trans hsleeping

/-- A run of events after the state is known keeps it known. -/
theorem foldl_ne_unset {targetPid : ℤ} {s : Probe} (hs : s.state ≠ .unset) (events : List Event) :
    (events.foldl (handle targetPid) s).state ≠ .unset := by
  induction events generalizing s with
  | nil => exact hs
  | cons e events ih => exact ih (handled_ne_unset hs (handle_handled targetPid s e))

/-- The last event is handled in the state that the others left. -/
theorem run_append (targetPid : ℤ) (events : List Event) (e : Event) :
    run targetPid (events ++ [e]) = handle targetPid (run targetPid events) e := by
  rw [run, List.foldl_append, List.foldl_cons, List.foldl_nil, run]

section Known

variable {targetPid : ℤ} {before after : List Event} {e : Event}

/-- From the event on that makes the state known, it is known. -/
theorem known_since (horder : Ordered Event.now (before ++ [e] ++ after))
    (hknown : (run targetPid (before ++ [e])).state ≠ .unset) {t : ℤ} (ht : e.now ≤ t) :
    (stateAt (handle targetPid) Event.now begin (before ++ [e] ++ after) t).state ≠ .unset := by
  obtain ⟨-, hpast, -, -⟩ := ordered_split horder
  rw [stateAt_append_of_le (fun e' he' => (hpast e' he').trans ht)]
  exact foldl_ne_unset hknown _

/-- An account that shows nothing when the state becomes known shows, after the
whole run, for how long its property held since then. -/
theorem measured_since (horder : Ordered Event.now (before ++ [e] ++ after))
    (hunset : (run targetPid before).state = .unset)
    (hknown : (run targetPid (before ++ [e])).state ≠ .unset)
    {total : Probe → ℤ} {p : Probe → Prop} [DecidablePred p]
    (hcharges : Charges (handle targetPid) Event.now Probe.prevTime total p)
    (hzero : total (run targetPid (before ++ [e])) = 0) :
    total (run targetPid (before ++ [e] ++ after)) =
        timeIn (handle targetPid) Event.now p begin (before ++ [e] ++ after) e.now
          (run targetPid (before ++ [e] ++ after)).prevTime ∧
      e.now ≤ (run targetPid (before ++ [e] ++ after)).prevTime ∧
      ∀ t, (run targetPid (before ++ [e] ++ after)).prevTime ≤ t →
        (p (stateAt (handle targetPid) Event.now begin (before ++ [e] ++ after) t) ↔
          p (run targetPid (before ++ [e] ++ after))) := by
  obtain ⟨-, hpast, hlater, hahead⟩ := ordered_split horder
  have hopen : (run targetPid (before ++ [e])).prevTime = e.now := by
    rw [run_append] at hknown ⊢
    exact (handled_leaves_unset hunset hknown (handle_handled targetPid _ e)).1
  have hrun : run targetPid (before ++ [e] ++ after) =
      after.foldl (handle targetPid) (run targetPid (before ++ [e])) := List.foldl_append
  have hmeasured := measured_of_charges hcharges hopen hlater hahead
  rw [hrun, timeIn_append_left hpast]
  refine ⟨?_, hmeasured.opened, ?_⟩
  · rw [hmeasured.measured, hzero, zero_add, run]
  · intro t ht
    rw [stateAt_append_of_le (fun e' he' => (hpast e' he').trans (hmeasured.opened.trans ht))]
    exact hmeasured.settled t ht

/-- Nothing is charged by the time the state becomes known. -/
theorem totals_zero (horder : Ordered Event.now (before ++ [e] ++ after))
    (hunset : (run targetPid before).state = .unset)
    (hknown : (run targetPid (before ++ [e])).state ≠ .unset) :
    (run targetPid (before ++ [e])).runTime = 0 ∧
      (run targetPid (before ++ [e])).queuedTime = 0 ∧
      (run targetPid (before ++ [e])).sleepTime = 0 := by
  obtain ⟨hbefore, hpast, -, -⟩ := ordered_split horder
  have hsound := run_sound targetPid hbefore (fun e' he' => hpast e' (List.mem_append_left _ he'))
  obtain ⟨hrun, hqueued, hsleep⟩ := hsound.fresh hunset
  rw [run_append] at hknown ⊢
  obtain ⟨-, hrun', hqueued', hsleep'⟩ :=
    handled_leaves_unset hunset hknown (handle_handled targetPid _ e)
  exact ⟨hrun'.trans hrun, hqueued'.trans hqueued, hsleep'.trans hsleep⟩

end Known

/-- After the event `e` made the state known, the totals add up to the time between
that event and the last one accounted for, and each of them is for how long, in
that time, the `state` variable had its value. The variable has not changed since.
A marked sleep is a sleep, and waiting for input or output is part of sleeping. -/
theorem accounting_conserves_time (targetPid : ℤ) {before after : List Event} {e : Event}
    (horder : Ordered Event.now (before ++ e :: after))
    (hunset : (run targetPid before).state = .unset)
    (hknown : (run targetPid (before ++ [e])).state ≠ .unset) :
    let events := before ++ e :: after
    let s := run targetPid events
    s.runTime + s.queuedTime + s.sleepTime = s.prevTime - e.now ∧
      s.runTime = timeInState targetPid .running events e.now s.prevTime ∧
      s.queuedTime = timeInState targetPid .queued events e.now s.prevTime ∧
      s.sleepTime = timeInState targetPid .sleeping events e.now s.prevTime ∧
      (∀ t, s.prevTime ≤ t →
        (stateAt (handle targetPid) Event.now begin events t).state = s.state) ∧
      (s.ioWaitIncremented = 1 → s.state = .sleeping) ∧
      0 ≤ s.ioWaitTime ∧ s.ioWaitTime ≤ s.sleepTime := by
  rw [List.append_cons] at horder ⊢
  obtain ⟨hrun, hqueued, hsleep⟩ := totals_zero horder hunset hknown
  have htotal : ∀ x, Probe.total x (run targetPid (before ++ [e])) = 0 := by
    intro x
    cases x with
    | running => exact hrun
    | queued => exact hqueued
    | sleeping => exact hsleep
    | unset => rfl
  have hmeasured := fun x (hx : x ≠ State.unset) =>
    measured_since horder hunset hknown (charges_total targetPid hx) (htotal x)
  obtain ⟨hsum, hpast, -⟩ := measured_since horder hunset hknown (charges_sum targetPid)
    (by rw [hrun, hqueued, hsleep]; rfl)
  have hend : (run targetPid (before ++ [e] ++ after)).state ≠ .unset := by
    rw [run, List.foldl_append]
    exact foldl_ne_unset hknown after
  obtain ⟨u, hu⟩ := exists_bound Event.now (before ++ [e] ++ after)
  have hsound := run_sound targetPid horder hu
  refine ⟨?_, (hmeasured .running (by decide)).1, (hmeasured .queued (by decide)).1,
    (hmeasured .sleeping (by decide)).1, ?_, hsound.marked, hsound.io_nonneg, hsound.io_le⟩
  · rw [hsum, timeIn_const (q := True) hpast
      (fun t ht _ => iff_of_true (known_since horder hknown ht) trivial), if_pos trivial]
  · intro t ht
    exact ((hmeasured _ hend).2.2 t ht).mpr rfl

/-- A run with an event before the state is known, and a sleep that waits. -/
theorem accounting_conserves_time_waiting :
    let out (state iowait now : ℤ) : Event :=
      .schedSwitch ⟨1, 2, state, some iowait, now, by decide⟩
    let into (iowait now : ℤ) : Event := .schedSwitch ⟨2, 1, 0, some iowait, now, by decide⟩
    let s := run 1 [out (-1) 0 3, into 4 10, out 1 5 25, .schedWakeup ⟨1, true, 40⟩, into 5 45]
    s.runTime + s.queuedTime + s.sleepTime = 45 - 10 ∧ s.ioWaitTime ≤ s.sleepTime := by
  intro out into s
  have horder : Ordered Event.now ([out (-1) 0 3] ++ into 4 10 ::
      [out 1 5 25, .schedWakeup ⟨1, true, 40⟩, into 5 45]) := by decide
  obtain ⟨hsum, -, -, -, -, -, -, hle⟩ :=
    accounting_conserves_time 1 horder (by decide) (by decide)
  exact ⟨hsum, hle⟩

end LazyFS.SchedulerAccounting
