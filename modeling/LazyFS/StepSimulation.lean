import LazyFS.GuardedRun

/-!
# Following another program

One fallible computation follows another one when it returns a related
result, ends with a related failure, or stops for a reason of its own that is
listed. A step function that follows another one step by step follows it along
every run, as long as the other one meets only states in which it is followed.
-/

namespace LazyFS.StepSimulation

open GuardedRun

variable {α β γ δ χ ω : Type}

/-- A computation follows another one up to a relation `R` of results and `S`
of failures, with failures `T` of its own. -/
inductive Follows (R : α → β → Prop) (S : χ → ω → Prop) (T : χ → Prop) :
    Except χ α → Except ω β → Prop
  | returns {a b} (h : R a b) : Follows R S T (.ok a) (.ok b)
  | fails {u v} (h : S u v) : Follows R S T (.error u) (.error v)
  | stops {u y} (h : T u) : Follows R S T (.error u) y

variable {R : α → β → Prop} {Q : γ → δ → Prop} {S : χ → ω → Prop} {T : χ → Prop}
  {x : Except χ α} {y : Except ω β}

/-- A function of the result keeps following. -/
theorem Follows.map {f : α → γ} {g : β → δ} (h : Follows R S T x y)
    (hfg : ∀ a b, R a b → Q (f a) (g b)) : Follows Q S T (x.map f) (y.map g) := by
  cases h with
  | returns h => exact Follows.returns (hfg _ _ h)
  | fails h => exact Follows.fails h
  | stops h => exact Follows.stops h

/-- What holds of the results besides the relation joins it. -/
theorem Follows.strengthen {R' : α → β → Prop} (h : Follows R S T x y)
    (himp : ∀ a b, x = .ok a → y = .ok b → R a b → R' a b) : Follows R' S T x y := by
  cases h with
  | returns h => exact Follows.returns (himp _ _ rfl rfl h)
  | fails h => exact Follows.fails h
  | stops h => exact Follows.stops h

/-- What returns follows something that returns. -/
theorem Follows.of_ok {a : α} (h : Follows R S T (.ok a) y) : ∃ b, y = .ok b ∧ R a b := by
  cases h with
  | returns h => exact ⟨_, rfl, h⟩

section Runs

variable {σ τ ε φ ρ : Type} {step : σ → ε → Except χ (ρ × σ)} {model : τ → φ → Except ω (ρ × τ)}
  {of : ε → φ} {allowed : ε → Prop} {guard : τ → φ → Prop} {K : σ → τ → Prop} {es : List ε}
  {s : σ} {t : τ}

/-- Related states give equal replies and related states. -/
def SameReply (K : σ → τ → Prop) (a : ρ × σ) (b : ρ × τ) : Prop := a.1 = b.1 ∧ K a.2 b.2

/-- A step function that follows another one follows it along every run, if the events are
allowed and the guard holds in every state that the other one meets. -/
theorem run_follows
    (hstep : ∀ s t e, K s t → allowed e → guard t (of e) →
      Follows (SameReply K) S T (step s e) (model t (of e)))
    (hinit : K s t) (hall : ∀ e ∈ es, allowed e) (hguard : Always model guard t (es.map of)) :
    Follows (SameReply K) S T (run step s es) (run model t (es.map of)) := by
  induction es generalizing s t with
  | nil => exact Follows.returns ⟨rfl, hinit⟩
  | cons e es ih =>
    have hone := hstep s t e hinit (hall e List.mem_cons_self) hguard.1
    have hrest : ∀ e' ∈ es, allowed e' := fun e' he' => hall e' (List.mem_cons_of_mem e he')
    have hnext := hguard.2
    simp only [run, List.map_cons]
    generalize step s e = x at hone ⊢
    generalize model t (of e) = y at hone hnext ⊢
    cases hone with
    | fails h => exact Follows.fails h
    | stops h => exact Follows.stops h
    | @returns a b h =>
      obtain ⟨r, s'⟩ := a
      obtain ⟨r', t'⟩ := b
      obtain ⟨hr, hK⟩ := h
      obtain rfl : r = r' := hr
      have htail := ih hK hrest (hnext r t' rfl)
      dsimp only
      generalize run step s' es = x at htail ⊢
      generalize run model t' (es.map of) = y at htail ⊢
      cases htail with
      | fails h => exact Follows.fails h
      | stops h => exact Follows.stops h
      | returns h => exact Follows.returns ⟨congrArg (r :: ·) h.1, h.2⟩

end Runs

end LazyFS.StepSimulation
