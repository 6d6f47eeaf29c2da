import Mathlib

/-!
# Runs of a fallible step function

A run feeds a list of events to a step function until one step fails. A ghost
state follows the events and their replies without being read by the step
function, and a guard restricts which events may come in which state. The two
rules carry a relation between state and ghost along every guarded run, and
show that such a run does not fail.
-/

namespace LazyFS.GuardedRun

variable {σ ε ρ χ γ : Type}

/-- Serve the events in order, collecting the replies. -/
def run (step : σ → ε → Except χ (ρ × σ)) : σ → List ε → Except χ (List ρ × σ)
  | s, [] => .ok ([], s)
  | s, e :: es =>
    match step s e with
    | .error u => .error u
    | .ok (r, t) =>
      match run step t es with
      | .error u => .error u
      | .ok (rs, t) => .ok (r :: rs, t)

/-- The ghost state after a list of events and their replies. -/
def follow (track : γ → ε → ρ → γ) : γ → List ε → List ρ → γ
  | g, e :: es, r :: rs => follow track (track g e r) es rs
  | g, _, _ => g

/-- Every event of a run satisfies the guard in the state it meets. -/
def Guarded (step : σ → ε → Except χ (ρ × σ)) (track : γ → ε → ρ → γ)
    (guard : σ → γ → ε → Prop) : σ → γ → List ε → Prop
  | _, _, [] => True
  | s, g, e :: es => guard s g e ∧
    ∀ r t, step s e = .ok (r, t) → Guarded step track guard t (track g e r) es

/-- A guard that looks at no ghost state. -/
def Always (step : σ → ε → Except χ (ρ × σ)) (guard : σ → ε → Prop) (s : σ) (es : List ε) :
    Prop :=
  Guarded step (fun _ _ _ => ()) (fun s _ e => guard s e) s () es

/-- A guarded step in front of a guarded run. -/
theorem always_cons {step : σ → ε → Except χ (ρ × σ)} {guard : σ → ε → Prop} {s t : σ} {e : ε}
    {es : List ε} {r : ρ} (hguard : guard s e) (hstep : step s e = .ok (r, t))
    (h : Always step guard t es) : Always step guard s (e :: es) := by
  refine ⟨hguard, fun r' t' hstep' => ?_⟩
  rw [hstep] at hstep'
  cases hstep'
  exact h

/-- A quantifier over the result of a step looks at one result at most. -/
def decidableStep (out : Except χ (ρ × σ)) (P : ρ → σ → Prop) [∀ r t, Decidable (P r t)] :
    Decidable (∀ r t, out = .ok (r, t) → P r t) :=
  match out with
  | .error _ => .isTrue nofun
  | .ok (r, t) => decidable_of_iff (P r t)
    ⟨fun h _ _ heq => by cases heq; exact h, fun h => h r t rfl⟩

/-- A guarded run can be tested by running it. -/
instance Guarded.decidable (step : σ → ε → Except χ (ρ × σ)) (track : γ → ε → ρ → γ)
    (guard : σ → γ → ε → Prop) [∀ s g e, Decidable (guard s g e)] :
    ∀ es s g, Decidable (Guarded step track guard s g es)
  | [], _, _ => .isTrue trivial
  | e :: es, s, g =>
    have : ∀ r t, Decidable (Guarded step track guard t (track g e r) es) :=
      fun r t => Guarded.decidable step track guard es t (track g e r)
    have : Decidable (∀ r t, step s e = .ok (r, t) →
        Guarded step track guard t (track g e r) es) := decidableStep _ _
    inferInstanceAs (Decidable (_ ∧ _))

/-- Along a run of events the guard is decided step by step. -/
instance Always.decidable (step : σ → ε → Except χ (ρ × σ)) (guard : σ → ε → Prop)
    [∀ s e, Decidable (guard s e)] (s : σ) (es : List ε) : Decidable (Always step guard s es) :=
  Guarded.decidable step _ _ es s ()

variable {step : σ → ε → Except χ (ρ × σ)} {track : γ → ε → ρ → γ}
  {guard : σ → γ → ε → Prop} {s t : σ} {g : γ} {e : ε} {es es' : List ε} {rs : List ρ}

/-- A run of a nonempty list is a step and a run of the rest. -/
theorem run_cons_ok (h : run step s (e :: es) = .ok (rs, t)) :
    ∃ r u rs', step s e = .ok (r, u) ∧ run step u es = .ok (rs', t) ∧ rs = r :: rs' := by
  rw [run] at h
  cases hstep : step s e with
  | error u => simp only [hstep, reduceCtorEq] at h
  | ok p =>
    obtain ⟨r, u⟩ := p
    simp only [hstep] at h
    cases hrest : run step u es with
    | error c => simp only [hrest, reduceCtorEq] at h
    | ok q =>
      obtain ⟨rs', t'⟩ := q
      simp only [hrest, Except.ok.injEq, Prod.mk.injEq] at h
      obtain ⟨rfl, rfl⟩ := h
      exact ⟨r, u, rs', rfl, hrest, rfl⟩

/-- A step and a run behind it make a run. -/
theorem run_cons_of_ok {r : ρ} {u : σ} {rs' : List ρ} (hstep : step s e = .ok (r, u))
    (hrest : run step u es = .ok (rs', t)) : run step s (e :: es) = .ok (r :: rs', t) := by
  simp only [run, hstep, hrest]

/-- What is observed of the result of a run is observed of the state it ends in. -/
theorem run_observe {α : Type} {f : σ → α} {a : α}
    (h : (run step s es).map (fun out => f out.2) = .ok a) :
    ∃ rs t, run step s es = .ok (rs, t) ∧ f t = a := by
  cases hrun : run step s es with
  | error u => simp only [hrun, Except.map, reduceCtorEq] at h
  | ok out =>
    simp only [hrun, Except.map, Except.ok.injEq] at h
    exact ⟨out.1, out.2, rfl, h⟩

/-- A relation kept by every guarded step holds at the end of a guarded run. -/
theorem run_rule {R : σ → γ → Prop}
    (hstep : ∀ s g e r t, R s g → guard s g e → step s e = .ok (r, t) → R t (track g e r))
    (hinit : R s g) (hguard : Guarded step track guard s g es)
    (hrun : run step s es = .ok (rs, t)) : R t (follow track g es rs) := by
  induction es generalizing s g rs with
  | nil =>
    cases hrun
    exact hinit
  | cons e es ih =>
    obtain ⟨r, u, rs', he, hrest, rfl⟩ := run_cons_ok hrun
    exact ih (hstep s g e r u hinit hguard.1 he) (hguard.2 r u he) hrest

/-- If no guarded step fails, no guarded run does. -/
theorem run_total {R : σ → γ → Prop}
    (hstep : ∀ s g e r t, R s g → guard s g e → step s e = .ok (r, t) → R t (track g e r))
    (htotal : ∀ s g e, R s g → guard s g e → ∃ r t, step s e = .ok (r, t))
    (hinit : R s g) (hguard : Guarded step track guard s g es) :
    ∃ rs t, run step s es = .ok (rs, t) := by
  induction es generalizing s g with
  | nil => exact ⟨[], s, rfl⟩
  | cons e es ih =>
    obtain ⟨r, u, he⟩ := htotal s g e hinit hguard.1
    obtain ⟨rs, t, hrest⟩ := ih (hstep s g e r u hinit hguard.1 he) (hguard.2 r u he)
    exact ⟨r :: rs, t, run_cons_of_ok he hrest⟩

/-- The rule without a guard or a ghost state. -/
theorem run_invariant {I : σ → Prop} (hstep : ∀ s e r t, I s → step s e = .ok (r, t) → I t)
    (hinit : I s) (hrun : run step s es = .ok (rs, t)) : I t := by
  induction es generalizing s rs with
  | nil =>
    cases hrun
    exact hinit
  | cons e es ih =>
    obtain ⟨r, u, rs', he, hrest, rfl⟩ := run_cons_ok hrun
    exact ih (hstep s e r u hinit he) hrest

/-- What a relation and its guard imply holds at every step of a guarded run. -/
theorem guarded_rule {R : σ → γ → Prop} {P : σ → γ → ε → Prop}
    (hstep : ∀ s g e r t, R s g → guard s g e → step s e = .ok (r, t) → R t (track g e r))
    (himp : ∀ s g e, R s g → guard s g e → P s g e)
    (hinit : R s g) (hguard : Guarded step track guard s g es) :
    Guarded step track P s g es := by
  induction es generalizing s g with
  | nil => trivial
  | cons e es ih =>
    refine ⟨himp s g e hinit hguard.1, fun r t he => ?_⟩
    exact ih (hstep s g e r t hinit hguard.1 he) (hguard.2 r t he)

/-- A guard of a whole run holds in the state that a part of the run reaches. -/
theorem guarded_at (h : Guarded step track guard s g (es ++ e :: es'))
    (hrun : run step s es = .ok (rs, t)) : guard t (follow track g es rs) e := by
  induction es generalizing s g rs with
  | nil =>
    cases hrun
    exact h.1
  | cons e₀ es ih =>
    obtain ⟨r, u, rs', he, hrest, rfl⟩ := run_cons_ok hrun
    exact ih (h.2 r u he) hrest

/-- A property that does not mention the ghost state holds without it. -/
theorem always_of_guarded {P : σ → ε → Prop}
    (h : Guarded step track (fun s _ e => P s e) s g es) : Always step P s es := by
  induction es generalizing s g with
  | nil => trivial
  | cons e es ih => exact ⟨h.1, fun r t he => ih (h.2 r t he)⟩

/-- A guard that mentions no ghost state holds beside any. -/
theorem guarded_of_always {P : σ → ε → Prop} (h : Always step P s es) :
    Guarded step track (fun s _ e => P s e) s g es := by
  induction es generalizing s g with
  | nil => trivial
  | cons e es ih => exact ⟨h.1, fun r t he => ih (h.2 r t he)⟩

/-- Two guards that hold along a run hold together. -/
theorem guarded_and {P Q : σ → γ → ε → Prop} (hP : Guarded step track P s g es)
    (hQ : Guarded step track Q s g es) :
    Guarded step track (fun s g e => P s g e ∧ Q s g e) s g es := by
  induction es generalizing s g with
  | nil => trivial
  | cons e es ih => exact ⟨⟨hP.1, hQ.1⟩, fun r t he => ih (hP.2 r t he) (hQ.2 r t he)⟩

/-- A ghost state that ignores the replies is a fold over the events. -/
theorem follow_eq_foldl {f : γ → ε → γ} (hrun : run step s es = .ok (rs, t)) :
    follow (fun g e _ => f g e) g es rs = es.foldl f g := by
  induction es generalizing s g rs with
  | nil =>
    cases hrun
    rfl
  | cons e es ih =>
    obtain ⟨r, u, rs', -, hrest, rfl⟩ := run_cons_ok hrun
    exact ih hrest

/-- If a guard says exactly when a step keeps a property, given what every step keeps,
it says exactly when a run keeps it in every state that it reaches. -/
theorem always_iff {B S : σ → Prop} {P : σ → ε → Prop}
    (hkept : ∀ s e r t, B s → step s e = .ok (r, t) → B t)
    (hexact : ∀ s e, B s → S s → (P s e ↔ ∀ r t, step s e = .ok (r, t) → S t))
    (hB : B s) (hS : S s) :
    Always step P s es ↔ ∀ front back rs t, es = front ++ back →
      run step s front = .ok (rs, t) → S t := by
  induction es generalizing s with
  | nil =>
    refine iff_of_true trivial ?_
    intro front back rs t hsplit hrun
    rw [(List.append_eq_nil_iff.mp hsplit.symm).1] at hrun
    cases hrun
    exact hS
  | cons e es ih =>
    constructor
    · intro h front back rs t hsplit hrun
      cases front with
      | nil =>
        cases hrun
        exact hS
      | cons e' front =>
        obtain ⟨rfl, rfl⟩ := List.cons.inj hsplit
        obtain ⟨r, u, rs', he, hrest, rfl⟩ := run_cons_ok hrun
        have hu : S u := (hexact s _ hB hS).mp h.1 r u he
        exact (ih (hkept s _ r u hB he) hu).mp (h.2 r u he) front back rs' t rfl hrest
    · intro h
      have hnext : ∀ r u, step s e = .ok (r, u) → S u :=
        fun r u he => h [e] es _ u rfl (run_cons_of_ok he rfl)
      refine ⟨(hexact s e hB hS).mpr hnext, ?_⟩
      intro r u he
      refine (ih (hkept s e r u hB he) (hnext r u he)).mpr ?_
      intro front back rs t hsplit hrun
      exact h (e :: front) back _ t (congrArg (e :: ·) hsplit) (run_cons_of_ok he hrun)

/-- A guard on the events alone holds along every run of such events. -/
theorem guarded_of_forall {P : ε → Prop} (h : ∀ e ∈ es, P e) :
    Guarded step track (fun _ _ e => P e) s g es := by
  induction es generalizing s g with
  | nil => trivial
  | cons e es ih =>
    have hrest : ∀ e' ∈ es, P e' := fun e' he' => h e' (List.mem_cons_of_mem e he')
    exact ⟨h e List.mem_cons_self, fun _ _ _ => ih hrest⟩

/-- How many steps of a run satisfy a predicate, up to the step that fails if one does. -/
def countSteps (step : σ → ε → Except χ (ρ × σ)) (P : σ → ε → Bool) : σ → List ε → ℕ
  | _, [] => 0
  | s, e :: es =>
    match step s e with
    | .error _ => 0
    | .ok (_, t) => (if P s e then 1 else 0) + countSteps step P t es

/-- If every such step raises a measure by one and no step lowers it, their number is
bounded by the measure of a state that is reached. -/
theorem countSteps_le {P : σ → ε → Bool} {I : σ → Prop} {measure : σ → ℚ}
    (hstep : ∀ s e r t, I s → step s e = .ok (r, t) →
      I t ∧ measure s + (if P s e then 1 else 0) ≤ measure t)
    (hinit : I s) (es : List ε) :
    ∃ t, I t ∧ measure s + (countSteps step P s es : ℚ) ≤ measure t := by
  induction es generalizing s with
  | nil =>
    refine ⟨s, hinit, ?_⟩
    rw [countSteps, Nat.cast_zero, add_zero]
  | cons e es ih =>
    rw [countSteps]
    cases he : step s e with
    | error u =>
      refine ⟨s, hinit, ?_⟩
      rw [Nat.cast_zero, add_zero]
    | ok out =>
      obtain ⟨r, u⟩ := out
      obtain ⟨hu, hone⟩ := hstep s e r u hinit he
      obtain ⟨t, ht, hmore⟩ := ih hu
      refine ⟨t, ht, ?_⟩
      push_cast
      linarith

end LazyFS.GuardedRun
