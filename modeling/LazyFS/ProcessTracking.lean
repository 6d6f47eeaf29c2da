import LazyFS.SchedulerAccounting

/-!
# What the scheduler probes know of a process

The scheduler has a process running, queued or sleeping. It moves it by switching it
out and in and by waking it, and reports that to the probes, together with wakeups
that find the process awake. The probes do not see the process itself, only these
events, and they take the first one they see for a move. So their `state` variable
may say queued of a process that runs or sleeps. It is never wrong when it says
running or sleeping, and it is right again as soon as the process gets the
processor.
-/

namespace LazyFS.ProcessTracking

open Timelines SchedulerAccounting

/-- Where the scheduler has a process. -/
inductive Status where
  | running
  | queued
  | sleeping
  deriving DecidableEq, Repr

/-- The value of the `state` variable that stands for it. -/
def Status.state : Status → State
  | .running => .running
  | .queued => .queued
  | .sleeping => .sleeping

/-- A status is never the one before the first event. -/
theorem state_ne_unset (q : Status) : q.state ≠ .unset := by
  cases q <;> decide

/-- Every status has its own state. -/
theorem state_injective {q q' : Status} (h : q.state = q'.state) : q = q' := by
  cases q <;> cases q' <;> first | rfl | cases h

section Process

variable (targetPid : ℤ)

/-- What an event does to the process. -/
def follow (q : Status) : Event → Status
  | .schedSwitch e =>
    if e.previousPid = targetPid then (if e.prevState > 0 then .sleeping else .queued)
    else if e.nextPid = targetPid then .running
    else q
  | .schedWakeup e =>
    if e.wakeupPid = targetPid ∧ e.success = true ∧ q = .sleeping then .queued else q

/-- The events that can happen: only a running process is switched out, and only a
queued one is switched in. A wakeup may find the process in any state. -/
def Possible (q : Status) : Event → Prop
  | .schedSwitch e =>
    (e.previousPid = targetPid → q = .running ∧ 0 ≤ e.prevState) ∧
      (e.nextPid = targetPid → q = .queued)
  | .schedWakeup _ => True

/-- A wakeup that succeeds exactly if the process sleeps. -/
def Genuine (q : Status) : Event → Prop
  | .schedSwitch _ => True
  | .schedWakeup e => e.wakeupPid = targetPid → (e.success = true ↔ q = .sleeping)

/-- Whether an event is possible is computed. -/
instance (q : Status) : ∀ e, Decidable (Possible targetPid q e)
  | .schedSwitch e =>
    inferInstanceAs (Decidable
      ((e.previousPid = targetPid → q = .running ∧ 0 ≤ e.prevState) ∧
        (e.nextPid = targetPid → q = .queued)))
  | .schedWakeup _ => isTrue trivial

/-- Whether a wakeup is genuine is computed. -/
instance (q : Status) : ∀ e, Decidable (Genuine targetPid q e)
  | .schedSwitch _ => isTrue trivial
  | .schedWakeup e =>
    inferInstanceAs (Decidable (e.wakeupPid = targetPid → (e.success = true ↔ q = .sleeping)))

/-- Where the scheduler has the process after some events. -/
def status (q : Status) (events : List Event) : Status := events.foldl (follow targetPid) q

/-- For how long it was there, from time `a` on and before `b`. -/
noncomputable def timeAs (x q : Status) (events : List Event) (a b : ℤ) : ℤ :=
  timeIn (follow targetPid) Event.now (fun p => p = x) q events a b

end Process

/-- The process leaves the processor for what `prevState` says, if the probes know
it to be there, or know nothing. -/
theorem switchOut_state {e : SchedSwitch} (h : 0 ≤ e.prevState) (s : Probe) :
    (switchOut e s).state =
      if s.state = .unset ∨ s.state = .running then
        (if e.prevState > 0 then .sleeping else .queued)
      else s.state := by
  unfold switchOut
  by_cases hpos : e.prevState > 0
  · rcases hs : s.state with _ | _ | _ | _
    · cases e.iowait <;> simp [hpos, apply_ite]
    · simp [hs]
    · simp [hs]
    · simp [hpos]
  · have hzero : e.prevState = 0 := by omega
    rcases hs : s.state with _ | _ | _ | _ <;> simp [hzero, hs]

/-- It gets the processor unless the probes know better. -/
theorem switchIn_state (e : SchedSwitch) (s : Probe) :
    (switchIn e s).state = if s.state = .sleeping then .sleeping else .running := by
  unfold switchIn
  rcases hs : s.state with _ | _ | _ | _ <;> cases e.iowait <;> simp [hs]

/-- Getting it is accounted for. -/
theorem switchIn_prevTime {e : SchedSwitch} {s : Probe} (h : s.state = .unset ∨ s.state = .queued) :
    (switchIn e s).prevTime = e.now := by
  unfold switchIn
  cases e.iowait <;> rcases h with hs | hs <;> simp [hs]

/-- A wakeup ends every sleep, and a successful one is believed if nothing is known. -/
theorem schedWakeup_state {targetPid : ℤ} (hpid : targetPid ≠ 0) {e : SchedWakeup}
    (he : e.wakeupPid = targetPid) (s : Probe) :
    (schedWakeup targetPid e s).state =
      if s.state = .sleeping ∨ (s.state = .unset ∧ e.success = true) then .queued
      else s.state := by
  unfold schedWakeup
  rw [he]
  cases hsuccess : e.success <;> cases hs : s.state <;> simp [hs, hpid]

/-- What an event does to the variable, by the part that the process has in it. -/
theorem handle_state {targetPid : ℤ} (hpid : targetPid ≠ 0) (s : Probe) (e : Event) :
    (∃ w, e = .schedSwitch w ∧ w.previousPid = targetPid ∧ w.nextPid ≠ targetPid ∧
        handle targetPid s e = switchOut w s) ∨
      (∃ w, e = .schedSwitch w ∧ w.previousPid ≠ targetPid ∧ w.nextPid = targetPid ∧
        handle targetPid s e = switchIn w s) ∨
      (∃ w, e = .schedWakeup w ∧ w.wakeupPid = targetPid ∧
        (handle targetPid s e).state =
          if s.state = .sleeping ∨ (s.state = .unset ∧ w.success = true) then .queued
          else s.state) ∨
      ((∀ q, follow targetPid q e = q) ∧ handle targetPid s e = s) := by
  cases e with
  | schedSwitch w =>
    by_cases hprev : w.previousPid = targetPid
    · have hnext : w.nextPid ≠ targetPid := fun h => w.distinct (hprev.trans h.symm)
      refine Or.inl ⟨w, rfl, hprev, hnext, ?_⟩
      simp [handle, schedSwitch, hprev, hnext]
    · by_cases hnext : w.nextPid = targetPid
      · refine Or.inr (Or.inl ⟨w, rfl, hprev, hnext, ?_⟩)
        simp [handle, schedSwitch, hprev, hnext]
      · refine Or.inr (Or.inr (Or.inr ⟨fun q => ?_, ?_⟩))
        · simp [follow, hprev, hnext]
        · simp [handle, schedSwitch, hprev, hnext]
  | schedWakeup w =>
    by_cases hwake : w.wakeupPid = targetPid
    · exact Or.inr (Or.inr (Or.inl ⟨w, rfl, hwake, schedWakeup_state hpid hwake s⟩))
    · refine Or.inr (Or.inr (Or.inr ⟨fun q => ?_, ?_⟩))
      · simp [follow, hwake]
      · simp [handle, schedWakeup, hwake]

/-- The probes are right when they say running or sleeping. -/
structure Cautious (s : Probe) (q : Status) : Prop where
  running : s.state = .running → q = .running
  sleeping : s.state = .sleeping → q = .sleeping

/-- Getting the processor makes the state right, whatever it was. -/
theorem switchIn_running {targetPid : ℤ} {s : Probe} {q : Status} {w : SchedSwitch}
    (h : Cautious s q) (he : Possible targetPid q (.schedSwitch w)) (hnext : w.nextPid = targetPid) :
    (s.state = .unset ∨ s.state = .queued) ∧ (switchIn w s).state = .running := by
  have hqueued := he.2 hnext
  have hsleeping : s.state ≠ .sleeping := fun hsl => by
    rw [h.sleeping hsl] at hqueued
    cases hqueued
  have hrunning : s.state ≠ .running := fun hrun => by
    rw [h.running hrun] at hqueued
    cases hqueued
  refine ⟨?_, by rw [switchIn_state, if_neg hsleeping]⟩
  cases hs : s.state with
  | running => exact absurd hs hrunning
  | queued => exact Or.inr rfl
  | sleeping => exact absurd hs hsleeping
  | unset => exact Or.inl rfl

/-- Every event that can happen keeps them so. -/
theorem cautious_handle {targetPid : ℤ} (hpid : targetPid ≠ 0) (s : Probe) (q : Status) (e : Event)
    (h : Cautious s q) (he : Possible targetPid q e) :
    Cautious (handle targetPid s e) (follow targetPid q e) := by
  rcases handle_state hpid s e with ⟨w, rfl, hprev, hnext, hs⟩ | ⟨w, rfl, hprev, hnext, hs⟩ |
    ⟨w, rfl, hwake, hs⟩ | ⟨hq, hs⟩
  · -- Switched out, so it was running: a state that says otherwise is `queued` and stays it.
    obtain ⟨hrunning, hpos⟩ := he.1 hprev
    have hsleeping : s.state ≠ .sleeping := fun hsl => by
      rw [h.sleeping hsl] at hrunning
      cases hrunning
    rw [hs]
    constructor
    · intro hrun
      rw [switchOut_state hpos] at hrun
      split_ifs at hrun with hknown
      exact absurd (Or.inr hrun) hknown
    · intro hsl
      rw [switchOut_state hpos] at hsl
      split_ifs at hsl with hknown hsleep
      · simp [follow, hprev, hsleep]
      · exact absurd hsl hsleeping
  · -- Switched in: the state says running, and the process runs.
    obtain ⟨-, hrunning⟩ := switchIn_running h he hnext
    rw [hs]
    constructor
    · intro _
      simp [follow, hprev, hnext]
    · intro hsl
      rw [hrunning] at hsl
      cases hsl
  · -- Woken: no wakeup makes the state say running or sleeping.
    constructor
    · intro hrun
      rw [hs] at hrun
      split_ifs at hrun with hwoken
      have hq := h.running hrun
      simp [follow, hq]
    · intro hsl
      rw [hs] at hsl
      split_ifs at hsl with hwoken
      exact absurd (Or.inl hsl) hwoken
  · rw [hs, hq]
    exact h

/-- The probes know where the process is, or nothing. -/
def Exact (s : Probe) (q : Status) : Prop := s.state = .unset ∨ s.state = q.state

/-- What is known exactly is known with caution. -/
theorem Exact.cautious {s : Probe} {q : Status} (h : Exact s q) : Cautious s q := by
  constructor
  · intro hrun
    have hstate := h.resolve_left (by rw [hrun]; decide)
    exact state_injective (hstate.symm.trans hrun)
  · intro hsl
    have hstate := h.resolve_left (by rw [hsl]; decide)
    exact state_injective (hstate.symm.trans hsl)

/-- A genuine wakeup is understood. -/
theorem exact_woken {targetPid : ℤ} {s s' : Probe} {q : Status} {w : SchedWakeup}
    (hwake : w.wakeupPid = targetPid) (h : Exact s q) (hgenuine : w.success = true ↔ q = .sleeping)
    (hs : s'.state =
      if s.state = .sleeping ∨ (s.state = .unset ∧ w.success = true) then .queued
      else s.state) : Exact s' (follow targetPid q (.schedWakeup w)) := by
  by_cases hq : q = .sleeping
  · -- The process sleeps, so the state says so or is not known: either way it is now queued.
    have hsuccess := hgenuine.mpr hq
    have hwoken : s.state = .sleeping ∨ (s.state = .unset ∧ w.success = true) := by
      rcases h with hunset | hstate
      · exact Or.inr ⟨hunset, hsuccess⟩
      · rw [hq] at hstate
        exact Or.inl hstate
    rw [if_pos hwoken] at hs
    refine Or.inr (hs.trans ?_)
    simp [follow, hwake, hsuccess, hq, Status.state]
  · have hsuccess : w.success ≠ true := fun hsuccess => hq (hgenuine.mp hsuccess)
    have hawake : ¬ (s.state = .sleeping ∨ (s.state = .unset ∧ w.success = true)) := by
      rintro (hsl | ⟨-, htrue⟩)
      · exact hq (h.cautious.sleeping hsl)
      · exact hsuccess htrue
    rw [if_neg hawake] at hs
    have hsame : follow targetPid q (.schedWakeup w) = q := by
      simp [follow, hq]
    rw [hsame, Exact, hs]
    exact h

/-- As long as wakeups are genuine, it stays right. -/
theorem exact_handle {targetPid : ℤ} (hpid : targetPid ≠ 0) (s : Probe) (q : Status) (e : Event)
    (h : Exact s q) (he : Possible targetPid q e ∧ Genuine targetPid q e) :
    Exact (handle targetPid s e) (follow targetPid q e) := by
  rcases handle_state hpid s e with ⟨w, rfl, hprev, hnext, hs⟩ | ⟨w, rfl, hprev, hnext, hs⟩ |
    ⟨w, rfl, hwake, hs⟩ | ⟨hq, hs⟩
  · obtain ⟨hrunning, hpos⟩ := he.1.1 hprev
    rw [hrunning] at h
    have hout := switchOut_state hpos s
    rw [if_pos (show s.state = .unset ∨ s.state = .running from h)] at hout
    refine Or.inr ?_
    rw [hs, hout, follow, if_pos hprev]
    split_ifs <;> rfl
  · obtain ⟨-, hrunning⟩ := switchIn_running h.cautious he.1 hnext
    refine Or.inr ?_
    rw [hs, hrunning, follow, if_neg hprev, if_pos hnext]
    rfl
  · exact exact_woken hwake h (he.2 hwake) hs
  · rw [hs, hq]
    exact h

section Accounts

variable {targetPid : ℤ} {s : Probe} {q : Status} {events : List Event} {a : ℤ}

/-- What is charged from a known state on, opened at time `a`. -/
theorem charged_since (targetPid : ℤ) (hopen : s.prevTime = a) (horder : Ordered Event.now events)
    (hstart : ∀ e ∈ events, a ≤ e.now) (x : Status) :
    (events.foldl (handle targetPid) s).total x.state = s.total x.state +
      timeIn (handle targetPid) Event.now (fun s => s.state = x.state) s events a
        (events.foldl (handle targetPid) s).prevTime :=
  (measured_of_charges (charges_total targetPid (state_ne_unset x)) hopen horder hstart).measured

/-- A known state is known at every time. -/
theorem known_at (hknown : s.state ≠ .unset) (t : ℤ) :
    (stateAt (handle targetPid) Event.now s events t).state ≠ .unset := foldl_ne_unset hknown _

/-- Probes that start out cautious charge no more running and sleeping than there
was, and no less queueing. -/
theorem charged_cautiously (hpid : targetPid ≠ 0) (hc : Cautious s q) (hknown : s.state ≠ .unset)
    (htrace : Along (follow targetPid) (Possible targetPid) q events) (b : ℤ) :
    timeIn (handle targetPid) Event.now (fun s => s.state = .running) s events a b ≤
        timeAs targetPid .running q events a b ∧
      timeIn (handle targetPid) Event.now (fun s => s.state = .sleeping) s events a b ≤
        timeAs targetPid .sleeping q events a b ∧
      timeAs targetPid .queued q events a b ≤
        timeIn (handle targetPid) Event.now (fun s => s.state = .queued) s events a b := by
  have hat := fun t => lockstep_at (cautious_handle hpid) hc htrace Event.now t
  refine ⟨timeIn_le (fun t _ => (hat t).running), timeIn_le (fun t _ => (hat t).sleeping),
    timeIn_le (fun t _ hq => ?_)⟩
  -- The process is queued: the state is known, and neither of the others.
  have hrunning := (hat t).running
  have hsleeping := (hat t).sleeping
  rw [hq] at hrunning hsleeping
  cases hs : (stateAt (handle targetPid) Event.now s events t).state with
  | running => cases hrunning hs
  | queued => rfl
  | sleeping => cases hsleeping hs
  | unset => exact absurd hs (known_at hknown t)

/-- Probes that start out right charge what there was, if wakeups are genuine. -/
theorem charged_exactly (hpid : targetPid ≠ 0) (hexact : Exact s q) (hknown : s.state ≠ .unset)
    (htrace : Along (follow targetPid) (Possible targetPid) q events)
    (hgenuine : Along (follow targetPid) (Genuine targetPid) q events) (x : Status) (b : ℤ) :
    timeIn (handle targetPid) Event.now (fun s => s.state = x.state) s events a b =
      timeAs targetPid x q events a b := by
  have hat := fun t =>
    lockstep_at (exact_handle hpid) hexact (along_and htrace hgenuine) Event.now t
  have hstate : ∀ t, (stateAt (handle targetPid) Event.now s events t).state =
      (stateAt (follow targetPid) Event.now q events t).state :=
    fun t => (hat t).resolve_left (known_at hknown t)
  refine le_antisymm (timeIn_le (fun t _ hs => ?_)) (timeIn_le (fun t _ hq => ?_))
  · rw [hstate t] at hs
    exact state_injective hs
  · rw [hstate t, hq]

end Accounts

section Runs

variable {targetPid : ℤ} {q : Status} {before after : List Event} {e : Event}

/-- Everything from an event on is measured from the state that it leaves. -/
theorem timeAs_since (horder : Ordered Event.now (before ++ [e] ++ after)) (x : Status) (b : ℤ) :
    timeAs targetPid x q (before ++ [e] ++ after) e.now b =
      timeAs targetPid x (status targetPid q (before ++ [e])) after e.now b := by
  obtain ⟨-, hpast, -, -⟩ := ordered_split horder
  exact timeIn_append_left hpast

/-- The run goes on from the state that an event leaves. -/
theorem run_since (targetPid : ℤ) (before : List Event) (e : Event) (after : List Event) :
    run targetPid (before ++ [e] ++ after) =
      after.foldl (handle targetPid) (run targetPid (before ++ [e])) := List.foldl_append

/-- Before anything is known, the probes are right. -/
theorem exact_begin (q : Status) : Exact begin q := Or.inl rfl

/-- In every run, from the event on that makes the state known, the totals of
running and sleeping are no more than the process has run and slept, and the total
of queueing is no less. If every wakeup succeeded exactly when the process slept,
all three are what they should be. -/
theorem charged_time_is_real (hpid : targetPid ≠ 0)
    (horder : Ordered Event.now (before ++ e :: after))
    (htrace : Along (follow targetPid) (Possible targetPid) q (before ++ e :: after))
    (hunset : (run targetPid before).state = .unset)
    (hknown : (run targetPid (before ++ [e])).state ≠ .unset) :
    let events := before ++ e :: after
    let s := run targetPid events
    s.runTime ≤ timeAs targetPid .running q events e.now s.prevTime ∧
      s.sleepTime ≤ timeAs targetPid .sleeping q events e.now s.prevTime ∧
      timeAs targetPid .queued q events e.now s.prevTime ≤ s.queuedTime ∧
      (Along (follow targetPid) (Genuine targetPid) q events →
        s.runTime = timeAs targetPid .running q events e.now s.prevTime ∧
          s.queuedTime = timeAs targetPid .queued q events e.now s.prevTime ∧
          s.sleepTime = timeAs targetPid .sleeping q events e.now s.prevTime) := by
  rw [List.append_cons] at horder htrace ⊢
  intro events s
  obtain ⟨-, -, hlater, hahead⟩ := ordered_split horder
  obtain ⟨hbefore, hafter⟩ := along_append.mp htrace
  obtain ⟨hrun, hqueued, hsleep⟩ := totals_zero horder hunset hknown
  have hopen : (run targetPid (before ++ [e])).prevTime = e.now := by
    rw [run_append] at hknown ⊢
    exact (handled_leaves_unset hunset hknown (handle_handled targetPid _ e)).1
  have hzero : ∀ x : Status, (run targetPid (before ++ [e])).total x.state = 0 := by
    intro x
    cases x with
    | running => exact hrun
    | queued => exact hqueued
    | sleeping => exact hsleep
  have htotal : ∀ x : Status, s.total x.state =
      timeIn (handle targetPid) Event.now (fun s => s.state = x.state)
        (run targetPid (before ++ [e])) after e.now s.prevTime := by
    intro x
    have hcharged := charged_since targetPid hopen hlater hahead x
    rw [hzero, zero_add, ← run_since] at hcharged
    exact hcharged
  have hcautious := lockstep (cautious_handle hpid) (exact_begin q).cautious hbefore
  obtain ⟨hle_run, hle_sleep, hle_queued⟩ :=
    charged_cautiously (a := e.now) hpid hcautious hknown hafter s.prevTime
  refine ⟨?_, ?_, ?_, fun hgenuine => ?_⟩
  · rw [timeAs_since horder]
    exact (htotal .running).trans_le hle_run
  · rw [timeAs_since horder]
    exact (htotal .sleeping).trans_le hle_sleep
  · rw [timeAs_since horder]
    exact hle_queued.trans_eq (htotal .queued).symm
  · obtain ⟨hgenuine_before, hgenuine_after⟩ := along_append.mp hgenuine
    have hexact := lockstep (exact_handle hpid) (exact_begin q)
      (along_and hbefore hgenuine_before)
    have hequal := fun x => (htotal x).trans
      (charged_exactly hpid hexact hknown hafter hgenuine_after x s.prevTime)
    refine ⟨?_, ?_, ?_⟩
    · rw [timeAs_since horder]
      exact hequal .running
    · rw [timeAs_since horder]
      exact hequal .queued
    · rw [timeAs_since horder]
      exact hequal .sleeping

/-- A process that runs, is woken all the same, and sleeps: the probes take all that
time for queueing, until it gets the processor again. -/
theorem charged_time_is_real_drifting :
    let out (state now : ℤ) : Event := .schedSwitch ⟨1, 2, state, none, now, by decide⟩
    let into (now : ℤ) : Event := .schedSwitch ⟨2, 1, 0, none, now, by decide⟩
    let woken (now : ℤ) : Event := .schedWakeup ⟨1, true, now⟩
    let events := [woken 3, out 1 10, woken 20, into 25, out 0 40]
    (run 1 events).runTime = 15 ∧ (run 1 events).sleepTime = 0 ∧
      15 ≤ timeAs 1 .running .running events 3 40 ∧
      timeAs 1 .queued .running events 3 40 ≤ 22 := by
  intro out into woken events
  have horder : Ordered Event.now ([] ++ woken 3 :: [out 1 10, woken 20, into 25, out 0 40]) := by
    decide
  obtain ⟨hrun, -, hqueued, -⟩ := charged_time_is_real (q := .running)
    (show (1 : ℤ) ≠ 0 by decide) horder (by decide) (by decide) (by decide)
  exact ⟨by decide, by decide, hrun, hqueued⟩

/-- Whatever the probes made of it before: from each time on that the process gets
the processor, the state is right and all that is charged is what there was, as
long as every wakeup succeeds exactly when the process sleeps. -/
theorem exact_since_switch_in (hpid : targetPid ≠ 0) {e : SchedSwitch}
    (hin : e.nextPid = targetPid) (horder : Ordered Event.now (before ++ .schedSwitch e :: after))
    (htrace : Along (follow targetPid) (Possible targetPid) q (before ++ .schedSwitch e :: after))
    (hgenuine : Along (follow targetPid) (Genuine targetPid) .running after) :
    let events := before ++ .schedSwitch e :: after
    let s := run targetPid events
    s.state = (status targetPid q events).state ∧
      ∀ x : Status, s.total x.state =
        (run targetPid (before ++ [.schedSwitch e])).total x.state +
          timeAs targetPid x q events e.now s.prevTime := by
  rw [List.append_cons] at horder htrace ⊢
  intro events s
  obtain ⟨-, -, hlater, hahead⟩ := ordered_split horder
  obtain ⟨hupto, hafter⟩ := along_append.mp htrace
  obtain ⟨hbefore, hpossible⟩ := along_append.mp hupto
  have hcautious : Cautious (run targetPid before) (status targetPid q before) :=
    lockstep (cautious_handle hpid) (exact_begin q).cautious hbefore
  obtain ⟨hwas, hrunning⟩ := switchIn_running hcautious hpossible.1 hin
  have hprev : e.previousPid ≠ targetPid := fun h => e.distinct (h.trans hin.symm)
  have hswitch : run targetPid (before ++ [.schedSwitch e]) = switchIn e (run targetPid before) := by
    rw [run_append]
    simp [handle, schedSwitch, hprev, hin]
  have hstatus : status targetPid q (before ++ [.schedSwitch e]) = .running := by
    rw [status, List.foldl_append, List.foldl_cons, List.foldl_nil, follow, if_neg hprev,
      if_pos hin]
  have hstate : (run targetPid (before ++ [.schedSwitch e])).state = .running := by
    rw [hswitch, hrunning]
  have hopen : (run targetPid (before ++ [.schedSwitch e])).prevTime = e.now := by
    rw [hswitch, switchIn_prevTime hwas]
  have hexact : Exact (run targetPid (before ++ [.schedSwitch e])) .running := Or.inr hstate
  have hknown : (run targetPid (before ++ [.schedSwitch e])).state ≠ .unset := by
    rw [hstate]
    decide
  have hafter : Along (follow targetPid) (Possible targetPid) .running after := by
    rw [← hstatus]
    exact hafter
  constructor
  · have hend := lockstep (exact_handle hpid) hexact (along_and hafter hgenuine)
    rw [← run_since] at hend
    have hsince : status targetPid q events = status targetPid .running after := by
      rw [← hstatus]
      exact List.foldl_append
    rw [hsince]
    refine hend.resolve_left ?_
    rw [run_since]
    exact foldl_ne_unset hknown after
  · intro x
    have hsince : timeAs targetPid x q events e.now s.prevTime = _ :=
      timeAs_since horder x s.prevTime
    have hcharged := charged_since targetPid hopen hlater hahead x
    rw [← run_since, charged_exactly hpid hexact hknown hafter hgenuine, ← hstatus] at hcharged
    rw [hcharged]
    exact congrArg _ hsince.symm

/-- So the rest of a run that began with a wakeup out of place is measured as it was. -/
theorem exact_since_switch_in_drifting :
    let out (state now : ℤ) : Event := .schedSwitch ⟨1, 2, state, none, now, by decide⟩
    let into (now : ℤ) : SchedSwitch := ⟨2, 1, 0, none, now, by decide⟩
    let woken (now : ℤ) : Event := .schedWakeup ⟨1, true, now⟩
    let events := [woken 3, out 1 10, woken 20] ++ .schedSwitch (into 25) ::
      [out 1 40, woken 50, .schedSwitch (into 60)]
    (run 1 events).state = .running ∧
      10 = 0 + timeAs 1 .sleeping .running events 25 60 := by
  intro out into woken events
  have horder : Ordered Event.now ([woken 3, out 1 10, woken 20] ++ .schedSwitch (into 25) ::
      [out 1 40, woken 50, .schedSwitch (into 60)]) := by
    decide
  obtain ⟨hstate, htotal⟩ := exact_since_switch_in (q := .running)
    (show (1 : ℤ) ≠ 0 by decide) rfl horder (by decide) (by decide)
  exact ⟨hstate, htotal .sleeping⟩

end Runs

end LazyFS.ProcessTracking
