import Mathlib

/-!
# Doubly linked chains

The link fields of the allocated nodes are two partial maps. A segment is a
list of nodes whose links run along it in both directions, from a node in
front to a node behind. Segments are cut and joined where lists are; the
patches that a push, an append and a removal make to the links are
`setFirst` and `setLast`.
-/

namespace LazyFS.LinkedChains

variable {ι : Type} [DecidableEq ι]

/-- A list of nodes linked in both directions, behind `p` and in front of `n`. -/
def Segment (next prev : ι → Option (Option ι)) : Option ι → List ι → Option ι → Prop
  | _, [], _ => True
  | p, b :: bs, n =>
    prev b = some p ∧ next b = some (bs.head?.or n) ∧ Segment next prev (some b) bs n

/-- A whole list. -/
abbrev Linked (next prev : ι → Option (Option ι)) (l : List ι) : Prop :=
  Segment next prev none l none

/-- Point the last node of a list to `n`. -/
def setLast (next : ι → Option (Option ι)) (l : List ι) (n : Option ι) : ι → Option (Option ι) :=
  match l.getLast? with
  | some b => Function.update next b (some n)
  | none => next

/-- Point the first node of a list back to `p`. -/
def setFirst (prev : ι → Option (Option ι)) (l : List ι) (p : Option ι) : ι → Option (Option ι) :=
  match l.head? with
  | some b => Function.update prev b (some p)
  | none => prev

/-- An update at a node outside a list is not seen along the list. -/
theorem update_of_notMem {β : Type} {f : ι → β} {b : ι} {l : List ι} (h : b ∉ l) (v : β) :
    ∀ c ∈ l, Function.update f b v c = f c := by
  intro c hc
  have hne : c ≠ b := by
    intro he
    exact h (he ▸ hc)
  exact Function.update_of_ne hne v f

variable {next prev next' prev' : ι → Option (Option ι)} {p n : Option ι} {l xs ys : List ι} {b : ι}

omit [DecidableEq ι] in
/-- Links of other nodes do not matter. -/
theorem Segment.congr (h : Segment next prev p l n) (hnext : ∀ c ∈ l, next' c = next c)
    (hprev : ∀ c ∈ l, prev' c = prev c) : Segment next' prev' p l n := by
  induction l generalizing p with
  | nil => trivial
  | cons b bs ih =>
    obtain ⟨hp, hn, hrest⟩ := h
    refine ⟨?_, ?_, ih hrest ?_ ?_⟩
    · rw [hprev b List.mem_cons_self, hp]
    · rw [hnext b List.mem_cons_self, hn]
    · exact fun c hc => hnext c (List.mem_cons_of_mem b hc)
    · exact fun c hc => hprev c (List.mem_cons_of_mem b hc)

omit [DecidableEq ι] in
/-- A segment is cut where its list is. -/
theorem segment_append :
    Segment next prev p (xs ++ ys) n ↔
      Segment next prev p xs (ys.head?.or n) ∧ Segment next prev (xs.getLast?.or p) ys n := by
  induction xs generalizing p with
  | nil => simp only [List.nil_append, Segment, List.getLast?_nil, Option.none_or, true_and]
  | cons b bs ih =>
    have hlast : ((b :: bs).getLast?).or p = bs.getLast?.or (some b) := by
      rw [List.getLast?_cons]
      cases bs.getLast? <;> rfl
    have hhead : (bs ++ ys).head?.or n = bs.head?.or (ys.head?.or n) := by
      rw [List.head?_append, Option.or_assoc]
    simp only [List.cons_append, Segment, ih, hlast, hhead, and_assoc]

omit [DecidableEq ι] in
/-- The nodes of a segment are allocated. -/
theorem Segment.exists_links (h : Segment next prev p l n) {c : ι} (hc : c ∈ l) :
    (∃ q, prev c = some q) ∧ ∃ q, next c = some q := by
  induction l generalizing p with
  | nil => cases hc
  | cons b bs ih =>
    obtain ⟨hp, hn, hrest⟩ := h
    rcases List.mem_cons.mp hc with rfl | hc
    · exact ⟨⟨_, hp⟩, _, hn⟩
    · exact ih hrest hc

omit [DecidableEq ι] in
/-- The links of a node in the middle. -/
theorem Segment.links (h : Segment next prev none (xs ++ b :: ys) none) :
    prev b = some xs.getLast? ∧ next b = some ys.head? := by
  obtain ⟨-, hp, hn, -⟩ := segment_append.mp h
  rw [Option.or_none] at hp hn
  exact ⟨hp, hn⟩

/-- Behind another block nothing changes. -/
theorem setLast_of_notMem {c : ι} (h : c ∉ l) : setLast next l n c = next c := by
  cases hl : l.getLast? with
  | none => simp only [setLast, hl]
  | some b =>
    have hne : c ≠ b := fun he => h (he ▸ List.mem_of_getLast? hl)
    simp only [setLast, hl, Function.update_of_ne hne]

/-- Before another block nothing changes. -/
theorem setFirst_of_notMem {c : ι} (h : c ∉ l) : setFirst prev l p c = prev c := by
  cases hl : l.head? with
  | none => simp only [setFirst, hl]
  | some b =>
    have hne : c ≠ b := fun he => h (he ▸ List.mem_of_head? hl)
    simp only [setFirst, hl, Function.update_of_ne hne]

/-- The node behind a segment is replaced at its last node. -/
theorem Segment.setLast (h : Segment next prev p l n) (hnodup : l.Nodup) (n' : Option ι) :
    Segment (setLast next l n') prev p l n' := by
  rcases List.eq_nil_or_concat' l with rfl | ⟨xs, b, rfl⟩
  · trivial
  · obtain ⟨hxs, hp, -, -⟩ := segment_append.mp h
    have hb : b ∉ xs := fun hmem =>
      List.disjoint_of_nodup_append hnodup hmem (List.mem_singleton.mpr rfl)
    have heq : LinkedChains.setLast next (xs ++ [b]) n' = Function.update next b (some n') := by
      rw [LinkedChains.setLast, List.getLast?_concat]
    rw [heq]
    refine segment_append.mpr
      ⟨hxs.congr (update_of_notMem hb _) (fun _ _ => rfl), hp, ?_, trivial⟩
    rw [Function.update_self, List.head?_nil, Option.none_or]

/-- The node in front of a segment is replaced at its first node. -/
theorem Segment.setFirst (h : Segment next prev p l n) (hnodup : l.Nodup) (p' : Option ι) :
    Segment next (setFirst prev l p') p' l n := by
  cases l with
  | nil => trivial
  | cons b bs =>
    obtain ⟨-, hn, hrest⟩ := h
    have hb := (List.nodup_cons.mp hnodup).1
    exact ⟨Function.update_self _ _ _, hn,
      hrest.congr (fun _ _ => rfl) (update_of_notMem hb _)⟩

/-- A new node in front of a list. -/
theorem Segment.push (h : Linked next prev l) (hnodup : (b :: l).Nodup) :
    Linked (Function.update next b (some l.head?))
      (LinkedChains.setFirst (Function.update prev b (some none)) l (some b)) (b :: l) := by
  obtain ⟨hb, hl⟩ := List.nodup_cons.mp hnodup
  have hfree : Segment (Function.update next b (some l.head?))
      (Function.update prev b (some none)) none l none :=
    h.congr (update_of_notMem hb _) (update_of_notMem hb _)
  refine ⟨?_, ?_, hfree.setFirst hl (some b)⟩
  · rw [setFirst_of_notMem hb, Function.update_self]
  · rw [Function.update_self, Option.or_none]

/-- A new node behind a list. -/
theorem Segment.append (h : Linked next prev l) (hnodup : (l ++ [b]).Nodup) :
    Linked (LinkedChains.setLast (Function.update next b (some none)) l (some b))
      (Function.update prev b (some l.getLast?)) (l ++ [b]) := by
  have hb : b ∉ l := fun hmem =>
    List.disjoint_of_nodup_append hnodup hmem (List.mem_singleton.mpr rfl)
  have hfree : Segment (Function.update next b (some none))
      (Function.update prev b (some l.getLast?)) none l none :=
    h.congr (update_of_notMem hb _) (update_of_notMem hb _)
  have hl : l.Nodup := (List.nodup_append.mp hnodup).1
  refine segment_append.mpr ⟨hfree.setLast hl (some b), ?_, ?_, trivial⟩
  · rw [Function.update_self, Option.or_none]
  · rw [setLast_of_notMem hb, Function.update_self, List.head?_nil, Option.none_or]

/-- A node is taken out by pointing its neighbours at each other. -/
theorem Segment.remove (h : Linked next prev (xs ++ b :: ys)) (hnodup : (xs ++ b :: ys).Nodup) :
    Linked (LinkedChains.setLast next xs ys.head?) (LinkedChains.setFirst prev ys xs.getLast?)
      (xs ++ ys) := by
  obtain ⟨hxs, -, -, hys⟩ := segment_append.mp h
  obtain ⟨hnx, hny, hdisj⟩ := List.nodup_append.mp hnodup
  have hapart : ∀ c ∈ xs, c ∉ ys := fun c hc hc' =>
    hdisj c hc c (List.mem_cons_of_mem b hc') rfl
  refine segment_append.mpr ⟨?_, ?_⟩
  · rw [Option.or_none]
    exact (hxs.setLast hnx ys.head?).congr (fun _ _ => rfl)
      (fun c hc => setFirst_of_notMem (hapart c hc))
  · rw [Option.or_none]
    exact (hys.setFirst (List.nodup_cons.mp hny).2 xs.getLast?).congr
      (fun c hc => setLast_of_notMem (fun hmem => hapart c hmem hc)) (fun _ _ => rfl)

end LazyFS.LinkedChains
