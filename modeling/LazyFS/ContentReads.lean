import LazyFS.FileOperations

/-!
# Reading a content file

The read loop serves the pattern byte by byte until the size of the file is
reached, and zeros the rest of the buffer. For a request that fits an `int`
and a non-negative offset it never leaves the defined part of the language:
no position computed on the way exceeds the larger of the offset and the size.
-/

namespace LazyFS.ContentReads

open MachineWords LinkedCells PathNames PatternParser FileOperations

/-- The byte at position `n` of a file with a given pattern. -/
def patternByte (pattern : Pattern) (n : ℕ) : UInt8 := pattern ⟨n % 4, Nat.mod_lt n (by decide)⟩

/-- How many of `n` bytes from `offset` on lie inside a file of size `size`. -/
def readable (size : ℤ) (offset n : ℕ) : ℕ := min n (size - offset).toNat

/-- What a read of `n` bytes leaves in the buffer. -/
def contentBuffer (pattern : Pattern) (size : ℤ) (offset n : ℕ) : List UInt8 :=
  (List.range (readable size offset n)).map (fun k => patternByte pattern (offset + k)) ++
    List.replicate (n - readable size offset n) 0

/-- The zero fill never overflows its index on a request that fits an `int`. -/
theorem fillZeros_eq {rem j : ℕ} (h : j + rem ≤ intMax) :
    fillZeros rem j = .ok (List.replicate rem 0) := by
  induction rem generalizing j with
  | zero => rfl
  | succ rem ih =>
    have hlt : j < intMax := by omega
    have hrest : fillZeros rem (j + 1) = .ok (List.replicate rem 0) := ih (by omega)
    simp only [fillZeros, incInt_of_lt hlt, hrest, bind, Except.bind, pure, Except.pure,
      List.replicate_succ]

/-- Past the end of the file nothing is readable. -/
theorem contentBuffer_of_ge (pattern : Pattern) {size : ℤ} {offset : ℕ} (n : ℕ)
    (h : size ≤ offset) :
    readable size offset n = 0 ∧ contentBuffer pattern size offset n = List.replicate n 0 := by
  have hr : readable size offset n = 0 := by
    unfold readable
    omega
  refine ⟨hr, ?_⟩
  simp only [contentBuffer, hr, List.range_zero, List.map_nil, List.nil_append, Nat.sub_zero]

/-- Inside the file a buffer starts with the byte at the offset. -/
theorem contentBuffer_of_lt (pattern : Pattern) {size : ℤ} {offset : ℕ} (n : ℕ)
    (h : offset < size) :
    readable size offset (n + 1) = readable size (offset + 1) n + 1 ∧
      contentBuffer pattern size offset (n + 1) =
        patternByte pattern offset :: contentBuffer pattern size (offset + 1) n := by
  have hr : readable size offset (n + 1) = readable size (offset + 1) n + 1 := by
    unfold readable
    push_cast
    omega
  refine ⟨hr, ?_⟩
  simp only [contentBuffer, hr, List.range_succ_eq_map, List.map_cons, List.map_map,
    Nat.add_zero, List.cons_append, Nat.add_sub_add_right, List.cons.injEq, true_and]
  congr 1
  apply List.map_congr_left
  intro k _
  simp only [Function.comp_apply]
  congr 1
  omega

/-- The loop from index `i` on. The invariant is that the position `offset + i`
is still an `off_t`: at index 0 it is the offset, and later it is at most the size. -/
theorem readLoop_eq (f : LFile) {offset : Int64} (ho : 0 ≤ offset.toInt) (rem i : ℕ)
    (hint : i + rem ≤ intMax) (hpos : offset.toInt + i ≤ offMax) :
    readLoop f offset rem i =
      .ok (i + readable f.size.toInt (offset.toInt.toNat + i) rem,
        contentBuffer f.pattern f.size.toInt (offset.toInt.toNat + i) rem) := by
  induction rem generalizing i with
  | zero => simp [readLoop, readable, contentBuffer]
  | succ rem ih =>
    have hcast : offset.toInt + i = ((offset.toInt.toNat + i : ℕ) : ℤ) := by omega
    rw [readLoop, addOffset_of_le hpos]
    simp only [bind, Except.bind, pure, Except.pure]
    by_cases hend : offset.toInt + i ≥ f.size.toInt
    · obtain ⟨hr, hbuf⟩ := contentBuffer_of_ge f.pattern (rem + 1)
        (hcast ▸ hend : f.size.toInt ≤ ((offset.toInt.toNat + i : ℕ) : ℤ))
      rw [if_pos hend, fillZeros_eq hint, hr, hbuf]
      rfl
    · have hlt : ((offset.toInt.toNat + i : ℕ) : ℤ) < f.size.toInt := by omega
      obtain ⟨hr, hbuf⟩ := contentBuffer_of_lt f.pattern rem hlt
      have hmod : (offset.toInt + i).tmod 4 = ((offset.toInt.toNat + i) % 4 : ℕ) := by
        rw [Int.tmod_eq_emod_of_nonneg (by omega), hcast]
        rfl
      have hindex : 0 ≤ (offset.toInt + i).tmod 4 ∧ ((offset.toInt + i).tmod 4).toNat < 4 := by
        rw [hmod]
        omega
      have hsize := Int64.toInt_le_offMax f.size
      have hrest := ih (i + 1) (by omega) (by push_cast; omega)
      rw [if_neg hend, dif_pos hindex, incInt_of_lt (by omega)]
      simp only [hrest, ← Nat.add_assoc]
      rw [hr, hbuf]
      simp only [hmod, Int.toNat_natCast, patternByte, Except.ok.injEq, Prod.mk.injEq, and_true]
      omega

/-- A read of a content file that fits an `int`: the result and the buffer. -/
theorem lRead_content {env : Env} {w : World} {p : Path} {f : LFile} {size : UInt64}
    {offset : Int64} (hp : w.lookup p = some f) (hmeta : isMetaFile p = false)
    (hsize : size.toNat ≤ intMax) (ho : 0 ≤ offset.toInt) :
    lRead env p size offset w =
      .ok ((readable f.size.toInt offset.toInt.toNat size.toNat : ℕ),
        contentBuffer f.pattern f.size.toInt offset.toInt.toNat size.toNat) := by
  obtain ⟨c, hfind, rfl⟩ := find_of_lookup hp
  have hfind' : w.find p = some c := hfind
  have hloop := readLoop_eq c.value ho size.toNat 0 (by omega)
    (by simpa using Int64.toInt_le_offMax offset)
  have hle : readable c.value.size.toInt offset.toInt.toNat size.toNat ≤ size.toNat :=
    Nat.min_le_left _ _
  have hlt := size.toNat_lt
  have hcount : (UInt64.ofNat (readable c.value.size.toInt offset.toInt.toNat size.toNat)).toNat =
      readable c.value.size.toInt offset.toInt.toNat size.toNat :=
    UInt64.toNat_ofNat_of_lt' (hle.trans_lt hlt)
  simp only [lRead, hfind', hmeta, Bool.false_eq_true, if_false, hloop, bind, Except.bind, pure,
    Except.pure, Nat.zero_add, Nat.add_zero]
  rw [cInt_of_le (by omega), hcount]

/-- The buffer has the requested length. -/
theorem contentBuffer_length (pattern : Pattern) (size : ℤ) (offset n : ℕ) :
    (contentBuffer pattern size offset n).length = n := by
  have hle : readable size offset n ≤ n := Nat.min_le_left _ _
  simp only [contentBuffer, List.length_append, List.length_map, List.length_range,
    List.length_replicate]
  omega

/-- The bytes inside the file are pattern bytes. -/
theorem contentBuffer_getElem? {pattern : Pattern} {size : ℤ} {offset n k : ℕ}
    (hk : k < readable size offset n) :
    (contentBuffer pattern size offset n)[k]? = some (patternByte pattern (offset + k)) := by
  rw [contentBuffer, List.getElem?_append_left (by simpa using hk)]
  simp [hk]

end LazyFS.ContentReads
