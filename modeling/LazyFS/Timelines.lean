import Mathlib

/-!
# Time spent in a state

A state moves by events that carry a time. Between two events it stays as it is,
so it has a value at every time, and a property of states holds for so many units
of time. An account that is charged the time since its last charge whenever the
property may change measures exactly how long the property held.
-/

namespace LazyFS.Timelines

variable {σ ε : Type} (step : σ → ε → σ) (time : ε → ℤ)

/-- The state at a time, when the events up to then have happened. -/
def stateAt (s : σ) (es : List ε) (t : ℤ) : σ :=
  (es.takeWhile (fun e => decide (time e ≤ t))).foldl step s

/-- For how many units of time the property held from `a` on and before `b`. -/
noncomputable def timeIn (p : σ → Prop) [DecidablePred p] (s : σ) (es : List ε) (a b : ℤ) : ℤ :=
  ((Finset.Ico a b).filter (fun t => p (stateAt step time s es t))).card

/-- The events come in order of time. -/
def Ordered (es : List ε) : Prop := es.Pairwise (fun e e' => time e ≤ time e')

/-- Whether events are in order is computed. -/
instance (es : List ε) : Decidable (Ordered time es) :=
  inferInstanceAs (Decidable (es.Pairwise _))

/-- Every event either leaves the account and the property alone, or charges the
time since the last charge if the property held. -/
def Charges (last total : σ → ℤ) (p : σ → Prop) [DecidablePred p] : Prop :=
  ∀ s e, (last (step s e) = last s ∧ total (step s e) = total s ∧ (p (step s e) ↔ p s)) ∨
    (last (step s e) = time e ∧
      total (step s e) = total s + if p s then time e - last s else 0)

/-- An account that was opened at time `a` is charged what it should be. -/
structure Measured (last total : σ → ℤ) (p : σ → Prop) [DecidablePred p] (s : σ) (es : List ε)
    (a : ℤ) : Prop where
  /-- No charge comes before the opening. -/
  opened : a ≤ last (es.foldl step s)
  /-- No charge lies ahead. -/
  happened : ∀ t, a ≤ t → (∀ e ∈ es, time e ≤ t) → last (es.foldl step s) ≤ t
  /-- Since the last charge the property has not changed. -/
  settled : ∀ t, last (es.foldl step s) ≤ t →
    (p (stateAt step time s es t) ↔ p (es.foldl step s))
  /-- The account shows for how long the property held until the last charge. -/
  measured : total (es.foldl step s) = total s +
    timeIn step time p s es a (last (es.foldl step s))

/-- At every event of a run, something holds of it and the state that it finds. -/
def Along (P : σ → ε → Prop) : σ → List ε → Prop
  | _, [] => True
  | s, e :: es => P s e ∧ Along P (step s e) es

/-- Whether it does can be computed along the run. -/
instance decidableAlong (P : σ → ε → Prop) [∀ s e, Decidable (P s e)] :
    ∀ s es, Decidable (Along step P s es)
  | _, [] => isTrue trivial
  | s, e :: es =>
    haveI := decidableAlong P (step s e) es
    inferInstanceAs (Decidable (P s e ∧ Along step P (step s e) es))

variable {step time} {s : σ} {es es' : List ε} {e : ε} {t a b c : ℤ}

/-- Events that have happened are behind the state. -/
theorem stateAt_append_of_le (h : ∀ e ∈ es, time e ≤ t) :
    stateAt step time s (es ++ es') t = stateAt step time (es.foldl step s) es' t := by
  have hall : ∀ e ∈ es, decide (time e ≤ t) = true := fun e he => decide_eq_true (h e he)
  rw [stateAt, List.takeWhile_append_of_pos hall, List.foldl_append, stateAt]

/-- After the last event the state is the one that the run ends in. -/
theorem stateAt_of_le (h : ∀ e ∈ es, time e ≤ t) :
    stateAt step time s es t = es.foldl step s := by
  have hend : stateAt step time s (es ++ []) t = stateAt step time (es.foldl step s) [] t :=
    stateAt_append_of_le h
  rw [List.append_nil] at hend
  exact hend

/-- An event that has not happened yet makes no difference. -/
theorem stateAt_append_of_lt (h : t < time e) :
    stateAt step time s (es ++ [e]) t = stateAt step time s es t := by
  have hlast : [e].takeWhile (fun e => decide (time e ≤ t)) = [] := by
    rw [List.takeWhile_cons, if_neg]
    simpa using h
  rw [stateAt, List.takeWhile_append, hlast, List.append_nil]
  split_ifs with hall
  · have hfull : es.takeWhile (fun e => decide (time e ≤ t)) = es :=
      (List.takeWhile_prefix _).eq_of_length hall
    rw [stateAt, hfull]
  · rfl

/-- The events of a run in order, with one more, come in order, and it comes last. -/
theorem ordered_append :
    Ordered time (es ++ [e]) ↔ Ordered time es ∧ ∀ e' ∈ es, time e' ≤ time e := by
  unfold Ordered
  rw [List.pairwise_append]
  simp

/-- Some time is no earlier than any event. -/
theorem exists_bound (time : ε → ℤ) (es : List ε) : ∃ t, ∀ e ∈ es, time e ≤ t := by
  induction es with
  | nil => exact ⟨0, fun e he => nomatch he⟩
  | cons e es ih =>
    obtain ⟨t, ht⟩ := ih
    refine ⟨max (time e) t, List.forall_mem_cons.mpr ⟨le_max_left _ _, ?_⟩⟩
    exact fun e' he' => (ht e' he').trans (le_max_right _ _)

/-- An event of a run in order has a past and a future, each in order. -/
theorem ordered_split (h : Ordered time (es ++ [e] ++ es')) :
    Ordered time es ∧ (∀ e' ∈ es ++ [e], time e' ≤ time e) ∧ Ordered time es' ∧
      ∀ e' ∈ es', time e ≤ time e' := by
  obtain ⟨hfirst, hlater, hcross⟩ := List.pairwise_append.mp h
  obtain ⟨hbefore, hlast⟩ := ordered_append.mp hfirst
  refine ⟨hbefore, ?_, hlater, ?_⟩
  · intro e' he'
    rcases List.mem_append.mp he' with hold | hnew
    · exact hlast e' hold
    · rw [List.mem_singleton.mp hnew]
  · exact fun e' he' => hcross e (List.mem_append_right _ (List.mem_singleton_self e)) e' he'

/-- A property of a state and a time that lies ahead of it, kept by every event,
holds after events in order. -/
theorem ordered_rule {I : σ → ℤ → Prop} (hinit : ∀ t, I s t)
    (hstep : ∀ s e t, I s (time e) → time e ≤ t → I (step s e) t) (hes : Ordered time es)
    (ht : ∀ e ∈ es, time e ≤ t) : I (es.foldl step s) t := by
  induction es using List.reverseRecOn generalizing t with
  | nil => exact hinit t
  | append_singleton es e ih =>
    obtain ⟨horder, hlast⟩ := ordered_append.mp hes
    rw [List.foldl_append, List.foldl_cons, List.foldl_nil]
    exact hstep _ e t (ih horder hlast)
      (ht e (List.mem_append_right _ (List.mem_singleton_self e)))

section Lockstep

variable {σ' : Type} {step' : σ' → ε → σ'} {s' : σ'} {P Q : σ' → ε → Prop}

/-- What holds at every event holds at those of a part of the run, and then at the rest. -/
theorem along_append :
    Along step' P s' (es ++ es') ↔
      Along step' P s' es ∧ Along step' P (es.foldl step' s') es' := by
  induction es generalizing s' with
  | nil => exact ⟨fun h => ⟨trivial, h⟩, fun h => h.2⟩
  | cons e es ih =>
    rw [List.cons_append, Along, Along, List.foldl_cons, ih, and_assoc]

/-- Two things that hold at every event hold there together. -/
theorem along_and (hP : Along step' P s' es) (hQ : Along step' Q s' es) :
    Along step' (fun s e => P s e ∧ Q s e) s' es := by
  induction es generalizing s' with
  | nil => trivial
  | cons e es ih => exact ⟨⟨hP.1, hQ.1⟩, ih hP.2 hQ.2⟩

/-- Two machines that see the same events stay related, if they are at first and
every event that can happen keeps them so. -/
theorem lockstep {I : σ → σ' → Prop}
    (hstep : ∀ s s' e, I s s' → P s' e → I (step s e) (step' s' e)) (hI : I s s')
    (hes : Along step' P s' es) : I (es.foldl step s) (es.foldl step' s') := by
  induction es generalizing s s' with
  | nil => exact hI
  | cons e es ih => exact ih (hstep s s' e hI hes.1) hes.2

/-- They are related at every time. -/
theorem lockstep_at {I : σ → σ' → Prop}
    (hstep : ∀ s s' e, I s s' → P s' e → I (step s e) (step' s' e)) (hI : I s s')
    (hes : Along step' P s' es) (time : ε → ℤ) (t : ℤ) :
    I (stateAt step time s es t) (stateAt step' time s' es t) := by
  rw [← List.takeWhile_append_dropWhile (p := fun e => decide (time e ≤ t)) (l := es)] at hes
  exact lockstep hstep hI (along_append.mp hes).1

/-- A property that holds only while another holds of the other machine holds for
no longer than that. -/
theorem timeIn_le {p : σ → Prop} [DecidablePred p] {p' : σ' → Prop} [DecidablePred p']
    (h : ∀ t, a ≤ t → p (stateAt step time s es t) → p' (stateAt step' time s' es t)) :
    timeIn step time p s es a b ≤ timeIn step' time p' s' es a b := by
  unfold timeIn
  refine Nat.cast_le.mpr (Finset.card_le_card ?_)
  intro t ht
  obtain ⟨hin, hp⟩ := Finset.mem_filter.mp ht
  exact Finset.mem_filter.mpr ⟨hin, h t (Finset.mem_Ico.mp hin).1 hp⟩

end Lockstep

section Accounts

variable {p : σ → Prop} [DecidablePred p]

/-- Times that follow each other add up. -/
theorem timeIn_add (hab : a ≤ b) (hbc : b ≤ c) :
    timeIn step time p s es a c = timeIn step time p s es a b + timeIn step time p s es b c := by
  have hdisjoint : Disjoint ((Finset.Ico a b).filter (fun t => p (stateAt step time s es t)))
      ((Finset.Ico b c).filter (fun t => p (stateAt step time s es t))) :=
    Finset.disjoint_filter_filter (Finset.Ico_disjoint_Ico_consecutive a b c)
  unfold timeIn
  rw [← Nat.cast_add, ← Finset.card_union_of_disjoint hdisjoint, ← Finset.filter_union,
    Finset.Ico_union_Ico_eq_Ico hab hbc]

/-- A property that does not change over a time holds for all of it, or for none. -/
theorem timeIn_const {q : Prop} [Decidable q] (hab : a ≤ b)
    (h : ∀ t, a ≤ t → t < b → (p (stateAt step time s es t) ↔ q)) :
    timeIn step time p s es a b = if q then b - a else 0 := by
  have hfilter : (Finset.Ico a b).filter (fun t => p (stateAt step time s es t)) =
      (Finset.Ico a b).filter (fun _ => q) := by
    apply Finset.filter_congr
    intro t ht
    obtain ⟨hat, htb⟩ := Finset.mem_Ico.mp ht
    exact h t hat htb
  unfold timeIn
  rw [hfilter]
  by_cases hq : q
  · rw [if_pos hq, Finset.filter_true_of_mem (fun _ _ => hq), Int.card_Ico]
    omega
  · rw [if_neg hq, Finset.filter_false_of_mem (fun _ _ => hq), Finset.card_empty]
    rfl

/-- What comes later does not change how long the property held before. -/
theorem timeIn_append (h : b ≤ time e) :
    timeIn step time p s (es ++ [e]) a b = timeIn step time p s es a b := by
  have hfilter : (Finset.Ico a b).filter (fun t => p (stateAt step time s (es ++ [e]) t)) =
      (Finset.Ico a b).filter (fun t => p (stateAt step time s es t)) := by
    apply Finset.filter_congr
    intro t ht
    rw [stateAt_append_of_lt ((Finset.mem_Ico.mp ht).2.trans_le h)]
  unfold timeIn
  rw [hfilter]

/-- What happened before a time is behind all that is measured from it on. -/
theorem timeIn_append_left (h : ∀ e ∈ es, time e ≤ a) :
    timeIn step time p s (es ++ es') a b = timeIn step time p (es.foldl step s) es' a b := by
  have hfilter : (Finset.Ico a b).filter (fun t => p (stateAt step time s (es ++ es') t)) =
      (Finset.Ico a b).filter (fun t => p (stateAt step time (es.foldl step s) es' t)) := by
    apply Finset.filter_congr
    intro t ht
    have hat := (Finset.mem_Ico.mp ht).1
    rw [stateAt_append_of_le (fun e he => (h e he).trans hat)]
  unfold timeIn
  rw [hfilter]

/-- A charged account is right after every run. -/
theorem measured_of_charges {last total : σ → ℤ} (hcharges : Charges step time last total p)
    (hopen : last s = a) (hes : Ordered time es) (hstart : ∀ e ∈ es, a ≤ time e) :
    Measured step time last total p s es a := by
  induction es using List.reverseRecOn with
  | nil =>
    refine ⟨hopen.ge, fun t hat _ => hopen.trans_le hat, fun t _ => Iff.rfl, ?_⟩
    rw [List.foldl_nil, hopen, timeIn, Finset.Ico_self, Finset.filter_empty, Finset.card_empty]
    omega
  | append_singleton es e ih =>
    obtain ⟨horder, hlast⟩ := ordered_append.mp hes
    have hbefore := ih horder (fun e' he' => hstart e' (List.mem_append_left _ he'))
    have hae : a ≤ time e := hstart e (List.mem_append_right _ (List.mem_singleton_self e))
    have hcharge : last (es.foldl step s) ≤ time e := hbefore.happened _ hae hlast
    have hfinal : ∀ t, time e ≤ t →
        stateAt step time s (es ++ [e]) t = (es ++ [e]).foldl step s := by
      intro t ht
      apply stateAt_of_le
      intro e' he'
      rcases List.mem_append.mp he' with hold | hnew
      · exact (hlast e' hold).trans ht
      · rw [List.mem_singleton.mp hnew]
        exact ht
    have hstep : (es ++ [e]).foldl step s = step (es.foldl step s) e := by
      rw [List.foldl_append, List.foldl_cons, List.foldl_nil]
    rcases hcharges (es.foldl step s) e with ⟨hkept, htotal, hp⟩ | ⟨hnow, htotal⟩
    · -- The event is not charged: nothing is different before or after it.
      rw [← hstep] at hkept htotal hp
      refine ⟨hkept ▸ hbefore.opened, ?_, ?_, ?_⟩
      · intro t hat hall
        rw [hkept]
        exact hbefore.happened t hat (fun e' he' => hall e' (List.mem_append_left _ he'))
      · intro t ht
        rw [hkept] at ht
        rcases lt_or_ge t (time e) with hlt | hge
        · rw [stateAt_append_of_lt hlt, hp]
          exact hbefore.settled t ht
        · rw [hfinal t hge]
      · rw [htotal, hbefore.measured, hkept, timeIn_append hcharge]
    · -- The event is charged for the time since the last charge.
      rw [← hstep] at hnow htotal
      have hsince : timeIn step time p s es (last (es.foldl step s)) (time e) =
          if p (es.foldl step s) then time e - last (es.foldl step s) else 0 :=
        timeIn_const hcharge (fun t ht _ => hbefore.settled t ht)
      refine ⟨hnow ▸ hae, ?_, ?_, ?_⟩
      · intro t _ hall
        rw [hnow]
        exact hall e (List.mem_append_right _ (List.mem_singleton_self e))
      · intro t ht
        rw [hfinal t (hnow ▸ ht)]
      · rw [htotal, hbefore.measured, hnow, timeIn_append le_rfl,
          timeIn_add hbefore.opened hcharge, hsince]
        omega

end Accounts

end LazyFS.Timelines
