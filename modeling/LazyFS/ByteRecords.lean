import Mathlib

/-!
# Streams of binary records

Numbers are stored in a fixed number of bytes, least significant first. A
stream is read record by record until nothing is left, each record telling how
far it reaches. A reader that always takes something ends, and what was written
record after record is read back record after record, whatever follows it. A
writer that fails leaves whole records and a part of the one that it failed at.
-/

namespace LazyFS.ByteRecords

/-- `k` bytes of a number, least significant first. -/
def packLE : ℕ → ℕ → List UInt8
  | 0, _ => []
  | k + 1, n => UInt8.ofNat n :: packLE k (n / 256)

/-- The number that bytes hold, least significant first. -/
def unpackLE : List UInt8 → ℕ
  | [] => 0
  | b :: bytes => b.toNat + 256 * unpackLE bytes

/-- A packed number has the requested length. -/
theorem packLE_length (k n : ℕ) : (packLE k n).length = k := by
  induction k generalizing n with
  | zero => rfl
  | succ k ih => rw [packLE, List.length_cons, ih]

/-- A number that fits is read back. -/
theorem unpackLE_packLE {k n : ℕ} (h : n < 256 ^ k) : unpackLE (packLE k n) = n := by
  induction k generalizing n with
  | zero =>
    have hzero : n = 0 := by simpa using h
    rw [hzero]
    rfl
  | succ k ih =>
    have hdiv : n / 256 < 256 ^ k := by
      rw [pow_succ] at h
      omega
    have hbyte : (UInt8.ofNat n).toNat = n % 256 := rfl
    rw [packLE, unpackLE, ih hdiv, hbyte]
    omega

/-- A number is stored in its bytes only if it fits them. -/
theorem unpackLE_lt (bytes : List UInt8) : unpackLE bytes < 256 ^ bytes.length := by
  induction bytes with
  | nil => exact Nat.one_pos
  | cons b bytes ih =>
    have hb := b.toNat_lt
    rw [unpackLE, List.length_cons, pow_succ]
    omega

/-- The bytes of a number that was read are those it was read from. -/
theorem packLE_unpackLE (bytes : List UInt8) :
    packLE bytes.length (unpackLE bytes) = bytes := by
  induction bytes with
  | nil => rfl
  | cons b bytes ih =>
    have hb := b.toNat_lt
    have hlow : UInt8.ofNat (b.toNat + 256 * unpackLE bytes) = b := by
      apply UInt8.toNat_inj.mp
      rw [UInt8.toNat_ofNat']
      omega
    have hhigh : (b.toNat + 256 * unpackLE bytes) / 256 = unpackLE bytes := by omega
    rw [List.length_cons, unpackLE, packLE, hlow, hhigh, ih]

section Streams

variable {α β ρ δ ε : Type} (next : List β → Except ε (ρ × List β)) (act : δ → ρ → δ)

/-- Read records while anything is left and act on each, with a bound on their
number. A record that cannot be read ends the reading with an error; what was
done until then stays done. -/
def foldRecords : ℕ → List β → δ → δ × Option ε
  | _, [], d => (d, none)
  | 0, _ :: _, d => (d, none)
  | fuel + 1, b :: s, d =>
    match next (b :: s) with
    | .error e => (d, some e)
    | .ok (r, rest) => foldRecords fuel rest (act d r)

/-- Read a whole stream. -/
def readRecords (s : List β) (d : δ) : δ × Option ε := foldRecords next act s.length s d

/-- A record takes at least one item. -/
def Consumes : Prop := ∀ s r rest, s ≠ [] → next s = .ok (r, rest) → rest.length < s.length

/-- The positions that a reading passes: where it starts, and behind every
record that it reads. -/
inductive Reached (s : List β) : List β → Prop
  | start : Reached s s
  | read {t rest : List β} {r : ρ} (ht : Reached s t) (hne : t ≠ [])
    (h : next t = .ok (r, rest)) : Reached s rest

variable {next act}

/-- The length of a stream is a sufficient bound, and any larger one does the same. -/
theorem foldRecords_eq (hnext : Consumes next) (fuel : ℕ) {s : List β} (d : δ)
    (h : s.length ≤ fuel) : foldRecords next act fuel s d = readRecords next act s d := by
  unfold readRecords
  induction fuel using Nat.strong_induction_on generalizing s d with
  | _ fuel ih =>
    cases s with
    | nil => cases fuel <;> rfl
    | cons b s =>
      obtain ⟨fuel, rfl⟩ : ∃ m, fuel = m + 1 := ⟨fuel - 1, by
        rw [List.length_cons] at h
        omega⟩
      rw [List.length_cons, foldRecords, foldRecords]
      cases hs : next (b :: s) with
      | error e => rfl
      | ok out =>
        obtain ⟨r, rest⟩ := out
        have hrest := hnext (b :: s) r rest (List.cons_ne_nil b s) hs
        rw [List.length_cons] at hrest h
        have hleft := ih fuel (Nat.lt_succ_self fuel) (s := rest) (act d r) (by omega)
        dsimp only
        rw [hleft]
        rcases Nat.lt_or_ge s.length (fuel + 1) with hlt | hge
        · exact (ih s.length hlt (s := rest) (act d r) (by omega)).symm
        · omega

/-- Reading nothing does nothing. -/
theorem readRecords_nil (d : δ) : readRecords next act [] d = (d, none) := rfl

/-- A first record that cannot be read ends the reading. -/
theorem readRecords_error {s : List β} {e : ε} (d : δ) (hs : s ≠ []) (h : next s = .error e) :
    readRecords next act s d = (d, some e) := by
  cases s with
  | nil => exact absurd rfl hs
  | cons b s => simp only [readRecords, List.length_cons, foldRecords, h]

/-- A first record is acted on before the rest is read. -/
theorem readRecords_ok (hnext : Consumes next) {s rest : List β} {r : ρ} (d : δ) (hs : s ≠ [])
    (h : next s = .ok (r, rest)) :
    readRecords next act s d = readRecords next act rest (act d r) := by
  cases s with
  | nil => exact absurd rfl hs
  | cons b s =>
    have hrest := hnext (b :: s) r rest hs h
    rw [List.length_cons] at hrest
    rw [← foldRecords_eq hnext s.length (act d r) (by omega)]
    simp only [readRecords, List.length_cons, foldRecords, h]

/-- Whether a reading ends with an error does not depend on what it acts on. -/
theorem foldRecords_error_eq (fuel : ℕ) (s : List β) (d d' : δ) :
    (foldRecords next act fuel s d).2 = (foldRecords next act fuel s d').2 := by
  induction fuel generalizing s d d' with
  | zero => cases s <;> rfl
  | succ fuel ih =>
    cases s with
    | nil => rfl
    | cons b s =>
      rw [foldRecords, foldRecords]
      cases next (b :: s) with
      | error e => rfl
      | ok out => exact ih out.2 (act d out.1) (act d' out.1)

/-- Whether the records run into an error does not depend on what was read before. -/
theorem readRecords_error_eq (s : List β) (d d' : δ) :
    (readRecords next act s d).2 = (readRecords next act s d').2 :=
  foldRecords_error_eq s.length s d d'

/-- What every record that is acted on preserves holds at the end of a reading. -/
theorem readRecords_rule {I : δ → Prop} (s : List β) (d : δ) (hd : I d)
    (hstep : ∀ d t r rest, I d → next t = .ok (r, rest) → I (act d r)) :
    I (readRecords next act s d).1 := by
  have hfold : ∀ fuel t d, I d → I (foldRecords next act fuel t d).1 := by
    intro fuel
    induction fuel with
    | zero =>
      intro t d hd
      cases t <;> exact hd
    | succ fuel ih =>
      intro t d hd
      cases t with
      | nil => exact hd
      | cons b t =>
        rw [foldRecords]
        cases hnext : next (b :: t) with
        | error e => exact hd
        | ok out => exact ih out.2 (act d out.1) (hstep d (b :: t) out.1 out.2 hd hnext)
  exact hfold s.length s d hd

/-- Behind a first record the positions are those of the rest. -/
theorem reached_iff {s rest t : List β} {r : ρ} (hs : s ≠ []) (h : next s = .ok (r, rest)) :
    Reached next s t ↔ t = s ∨ Reached next rest t := by
  constructor
  · intro ht
    induction ht with
    | start => exact Or.inl rfl
    | @read u v r' hu hne hnext ih =>
      rcases ih with rfl | hrest
      · rw [h] at hnext
        cases hnext
        exact Or.inr .start
      · exact Or.inr (.read hrest hne hnext)
  · intro ht
    rcases ht with rfl | hrest
    · exact .start
    · induction hrest with
      | start => exact .read .start hs h
      | read _ hne hnext ih => exact .read ih hne hnext

/-- Records that were written one after the other are read back one after the
other, whatever comes behind them. -/
theorem readRecords_written (hnext : Consumes next) {enc : α → List β} {dec : α → ρ} {as : List α}
    (henc : ∀ a ∈ as, ∀ rest, enc a ++ rest ≠ [] ∧ next (enc a ++ rest) = .ok (dec a, rest))
    (tail : List β) (d : δ) :
    readRecords next act (as.flatMap enc ++ tail) d =
      readRecords next act tail ((as.map dec).foldl act d) := by
  induction as generalizing d with
  | nil => rfl
  | cons a as ih =>
    obtain ⟨hne, hread⟩ := henc a List.mem_cons_self (as.flatMap enc ++ tail)
    have hrest := ih (fun x hx => henc x (List.mem_cons_of_mem a hx)) (act d (dec a))
    rw [List.flatMap_cons, List.append_assoc, readRecords_ok hnext d hne hread, hrest]
    rfl

end Streams

section Writers

variable {α β ε : Type}

/-- Write, and go on unless that ended with an error. -/
def andThen (out rest : List β × Option ε) : List β × Option ε :=
  match out.2 with
  | none => (out.1 ++ rest.1, rest.2)
  | some e => (out.1, some e)

/-- Write records one after the other. The first error ends the writing; what was
written until then stays written. -/
def writeRecords (write : α → List β × Option ε) (as : List α) : List β × Option ε :=
  as.foldr (fun a => andThen (write a)) ([], none)

/-- The first record comes first. -/
theorem writeRecords_cons (write : α → List β × Option ε) (a : α) (as : List α) :
    writeRecords write (a :: as) = andThen (write a) (writeRecords write as) := rfl

/-- What was written before an error is there whatever follows. -/
theorem andThen_error {out : List β × Option ε} {e : ε} (h : out.2 = some e)
    (rest : List β × Option ε) : andThen out rest = (out.1, some e) := by
  rw [andThen, h]

/-- Behind what succeeds the rest is written. -/
theorem andThen_ok {out : List β × Option ε} (h : out.2 = none) (rest : List β × Option ε) :
    andThen out rest = (out.1 ++ rest.1, rest.2) := by
  rw [andThen, h]

/-- A loop over the records that goes on after each is such a writing. -/
theorem foldr_eq_writeRecords {step : α → List β × Option ε → List β × Option ε}
    (hstep : ∀ a out rest, step a (andThen out rest) = andThen (step a out) rest) (as : List α) :
    as.foldr step ([], none) = writeRecords (fun a => step a ([], none)) as := by
  induction as with
  | nil => rfl
  | cons a as ih =>
    have hrest := hstep a ([], none) (as.foldr step ([], none))
    rw [writeRecords_cons, ← ih]
    exact hrest

/-- A writing ends without an error if every record can be written. -/
theorem writeRecords_ok_iff {write : α → List β × Option ε} {as : List α} :
    (writeRecords write as).2 = none ↔ ∀ a ∈ as, (write a).2 = none := by
  induction as with
  | nil => exact iff_of_true rfl (List.forall_mem_nil _)
  | cons a as ih =>
    rw [writeRecords_cons, List.forall_mem_cons]
    cases ha : (write a).2 with
    | some e =>
      rw [andThen_error ha]
      exact iff_of_false (Option.some_ne_none e) (fun h => Option.some_ne_none e h.1)
    | none =>
      rw [andThen_ok ha, ih]
      exact (and_iff_right rfl).symm

/-- It has then written one record after the other. -/
theorem writeRecords_flatMap {write : α → List β × Option ε} {as : List α}
    (h : ∀ a ∈ as, (write a).2 = none) :
    (writeRecords write as).1 = as.flatMap (fun a => (write a).1) := by
  induction as with
  | nil => rfl
  | cons a as ih =>
    obtain ⟨ha, has⟩ := List.forall_mem_cons.mp h
    rw [writeRecords_cons, andThen_ok ha, ih has, List.flatMap_cons]

/-- Records that can be written are written one after the other. -/
theorem writeRecords_written {γ : Type} {write : α → List β × Option ε} {record : γ → α}
    {enc : γ → List β} (h : ∀ c, write (record c) = (enc c, none)) (cs : List γ) :
    writeRecords write (cs.map record) = (cs.flatMap enc, none) := by
  have hok : ∀ a ∈ cs.map record, (write a).2 = none := by
    intro a ha
    obtain ⟨c, -, rfl⟩ := List.mem_map.mp ha
    exact congrArg Prod.snd (h c)
  refine Prod.ext ?_ (writeRecords_ok_iff.mpr hok)
  rw [writeRecords_flatMap hok, List.flatMap_map]
  simp only [h]

/-- A list of values of a function comes from a list of arguments. -/
theorem exists_map_eq {γ : Type} {f : γ → α} {as : List α} (h : ∀ a ∈ as, ∃ c, f c = a) :
    ∃ cs : List γ, cs.map f = as := by
  have hrange : as ∈ Set.range (List.map f) := by
    rw [Set.range_list_map]
    exact h
  exact hrange

/-- A part of the records is written before the rest. -/
theorem writeRecords_append (write : α → List β × Option ε) (as bs : List α) :
    writeRecords write (as ++ bs) = andThen (writeRecords write as) (writeRecords write bs) := by
  induction as with
  | nil => rfl
  | cons a as ih =>
    rw [List.cons_append, writeRecords_cons, writeRecords_cons, ih]
    cases ha : (write a).2 with
    | some e =>
      rw [andThen_error ha, andThen_error ha]
      rfl
    | none =>
      rw [andThen_ok ha, andThen_ok ha]
      cases has : (writeRecords write as).2 with
      | some e =>
        rw [andThen_error has, andThen_error rfl]
      | none =>
        rw [andThen_ok has, andThen_ok rfl, List.append_assoc]

/-- An error comes from a first record that cannot be written. -/
theorem exists_of_writeRecords_error {write : α → List β × Option ε} {as : List α} {e : ε}
    (h : (writeRecords write as).2 = some e) :
    ∃ before a after, as = before ++ a :: after ∧ (writeRecords write before).2 = none ∧
      (write a).2 = some e := by
  induction as with
  | nil => cases h
  | cons b as ih =>
    rw [writeRecords_cons] at h
    cases hb : (write b).2 with
    | some d =>
      rw [andThen_error hb] at h
      cases h
      exact ⟨[], b, as, rfl, rfl, hb⟩
    | none =>
      rw [andThen_ok hb] at h
      obtain ⟨before, a, after, rfl, hbefore, ha⟩ := ih h
      refine ⟨b :: before, a, after, rfl, ?_, ha⟩
      rw [writeRecords_cons, andThen_ok hb]
      exact hbefore

/-- A writing that ends with an error has written the records in front of some
record, and the part of that record that comes before the error. -/
theorem writeRecords_error_iff {write : α → List β × Option ε} {as : List α} {out : List β}
    {e : ε} :
    writeRecords write as = (out, some e) ↔
      ∃ before a after, as = before ++ a :: after ∧ (writeRecords write before).2 = none ∧
        (write a).2 = some e ∧ out = (writeRecords write before).1 ++ (write a).1 := by
  have hstops : ∀ before a after, (writeRecords write before).2 = none → (write a).2 = some e →
      writeRecords write (before ++ a :: after) =
        ((writeRecords write before).1 ++ (write a).1, some e) := by
    intro before a after hbefore ha
    rw [writeRecords_append, andThen_ok hbefore, writeRecords_cons, andThen_error ha]
  constructor
  · intro h
    obtain ⟨before, a, after, rfl, hbefore, ha⟩ :=
      exists_of_writeRecords_error (congrArg Prod.snd h)
    rw [hstops before a after hbefore ha] at h
    exact ⟨before, a, after, rfl, hbefore, ha, (congrArg Prod.fst h).symm⟩
  · intro h
    obtain ⟨before, a, after, rfl, hbefore, ha, rfl⟩ := h
    exact hstops before a after hbefore ha

end Writers

end LazyFS.ByteRecords
