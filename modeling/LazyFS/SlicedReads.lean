import LazyFS.ContentReads
import LazyFS.GuardedRun

/-!
# Reads as slices

A read of a content file is a window on one endless sequence of bytes, the
pattern up to the size of the file and zeros after it. The window a request
returns depends on nothing but its position, so reading a range in any
consecutive pieces gives what one read of the whole range gives.
-/

namespace LazyFS.SlicedReads

open MachineWords PathNames PatternParser PosixStore FileOperations ContentReads GuardedRun

/-- The bytes of the request that lie inside the file. -/
def slice (pattern : Pattern) (size : ℤ) (offset n : ℕ) : List UInt8 :=
  (List.range (readable size offset n)).map (fun k => patternByte pattern (offset + k))

/-- What a client keeps of a reply: as many bytes as the result says. -/
def kept (r : Reply) : List UInt8 := r.data.take r.ret.toNat

/-- A read request for a part of a file. -/
structure Piece where
  /-- How many bytes. -/
  size : UInt64
  /-- From where on. -/
  offset : Int64
  /-- The environment it is served in. -/
  env : Env

/-- The request for a piece. -/
def Piece.event (p : Path) (piece : Piece) : Event := ⟨.read p piece.size piece.offset, piece.env⟩

/-- Each piece starts where the one before it ends. -/
def Consecutive : ℕ → List Piece → Prop
  | _, [] => True
  | start, piece :: rest =>
    piece.offset.toInt = start ∧ Consecutive (start + piece.size.toNat) rest

/-- The length of a list of pieces. -/
def total (pieces : List Piece) : ℕ := (pieces.map (fun piece => piece.size.toNat)).sum

/-- Two windows on a file that meet are one. -/
theorem readable_add (size : ℤ) (offset m n : ℕ) :
    readable size offset (m + n) = readable size offset m + readable size (offset + m) n := by
  unfold readable
  push_cast
  omega

/-- A window that is not full ends at the end of the file. -/
theorem readable_full {size : ℤ} {offset m n : ℕ} (h : readable size (offset + m) n ≠ 0) :
    readable size offset m = m := by
  unfold readable at *
  push_cast at h
  omega

/-- Two slices, one behind the other, are one. -/
theorem slice_add (pattern : Pattern) (size : ℤ) (offset m n : ℕ) :
    slice pattern size offset (m + n) =
      slice pattern size offset m ++ slice pattern size (offset + m) n := by
  unfold slice
  rw [readable_add]
  by_cases hrest : readable size (offset + m) n = 0
  · simp only [hrest, Nat.add_zero, List.range_zero, List.map_nil, List.append_nil]
  · rw [readable_full hrest, List.range_add, List.map_append, List.map_map]
    congr 1
    apply List.map_congr_left
    intro k _
    simp only [Function.comp_apply, Nat.add_assoc]

/-- So are the buffers of two reads. -/
theorem contentBuffer_add (pattern : Pattern) (size : ℤ) (offset m n : ℕ) :
    contentBuffer pattern size offset (m + n) =
      contentBuffer pattern size offset m ++ contentBuffer pattern size (offset + m) n := by
  have hslices := slice_add pattern size offset m n
  unfold slice at hslices
  have hm : readable size offset m ≤ m := Nat.min_le_left _ _
  have hn : readable size (offset + m) n ≤ n := Nat.min_le_left _ _
  unfold contentBuffer
  rw [hslices, readable_add, List.append_assoc, List.append_assoc]
  congr 1
  by_cases hrest : readable size (offset + m) n = 0
  · simp only [hrest, List.range_zero, List.map_nil, List.nil_append, Nat.add_zero, Nat.sub_zero]
    rw [List.replicate_append_replicate]
    congr 1
    omega
  · have hfull := readable_full hrest
    rw [hfull, Nat.sub_self, List.replicate_zero, List.nil_append]
    congr 2
    omega

/-- A client keeps the bytes inside the file. -/
theorem kept_contentBuffer (pattern : Pattern) (size : ℤ) (offset n : ℕ) :
    kept ⟨(readable size offset n : ℕ), contentBuffer pattern size offset n⟩ =
      slice pattern size offset n := by
  apply List.take_left'
  simp only [List.length_map, List.length_range, Int.toNat_natCast]

/-- Past the end of the file the buffer is zero. -/
theorem contentBuffer_zero (pattern : Pattern) {size : ℤ} {offset n k : ℕ}
    (hk : readable size offset n ≤ k) (hn : k < n) :
    (contentBuffer pattern size offset n)[k]? = some 0 := by
  have hlen : (slice pattern size offset n).length = readable size offset n := by
    simp only [slice, List.length_map, List.length_range]
  have happ : contentBuffer pattern size offset n =
      slice pattern size offset n ++ List.replicate (n - readable size offset n) 0 := rfl
  rw [happ, List.getElem?_append_right (by omega), hlen, List.getElem?_replicate, if_pos (by omega)]

section Reads

variable {w : World} {p : Path} {f : LFile}

/-- A read of a content file answers with its window and leaves the state alone. -/
theorem step_read (hp : w.lookup p = some f) (hmeta : isMetaFile p = false) (env : Env)
    {size : UInt64} {offset : Int64} (hsize : size.toNat ≤ intMax) (ho : 0 ≤ offset.toInt) :
    step w ⟨.read p size offset, env⟩ =
      .ok (⟨(readable f.size.toInt offset.toInt.toNat size.toNat : ℕ),
        contentBuffer f.pattern f.size.toInt offset.toInt.toNat size.toNat⟩, w) := by
  simp only [step, lRead_content hp hmeta hsize ho, Except.map]

/-- A piece is no longer than all of them together. -/
theorem size_le_total {piece : Piece} {pieces : List Piece} (h : piece ∈ pieces) :
    piece.size.toNat ≤ total pieces :=
  List.le_sum_of_mem (List.mem_map_of_mem h)

/-- The pieces of a range together give its window. -/
theorem run_pieces (hp : w.lookup p = some f) (hmeta : isMetaFile p = false)
    {pieces : List Piece} {start : ℕ} (hnext : Consecutive start pieces)
    (hfit : ∀ piece ∈ pieces, piece.size.toNat ≤ intMax) :
    ∃ rs, run step w (pieces.map (Piece.event p)) = .ok (rs, w) ∧
      (rs.map Reply.data).flatten = contentBuffer f.pattern f.size.toInt start (total pieces) ∧
      (rs.map kept).flatten = slice f.pattern f.size.toInt start (total pieces) ∧
      (rs.map Reply.ret).sum = (readable f.size.toInt start (total pieces) : ℕ) := by
  induction pieces generalizing start with
  | nil =>
    refine ⟨[], rfl, ?_, ?_, ?_⟩ <;>
      simp [total, contentBuffer, slice, readable]
  | cons piece rest ih =>
    obtain ⟨hoffset, hrest⟩ := hnext
    have hsum : total (piece :: rest) = piece.size.toNat + total rest := by
      simp only [total, List.map_cons, List.sum_cons]
    obtain ⟨hsmall, hfit⟩ := List.forall_mem_cons.mp hfit
    obtain ⟨rs, hrun, hdata, hkept, hret⟩ := ih hrest hfit
    have hstart : piece.offset.toInt.toNat = start := by omega
    have hpos : 0 ≤ piece.offset.toInt := by omega
    have hstep := step_read hp hmeta piece.env hsmall hpos
    rw [hstart] at hstep
    refine ⟨_, run_cons_of_ok hstep hrun, ?_, ?_, ?_⟩
    · rw [List.map_cons, List.flatten_cons, hdata, hsum, contentBuffer_add]
    · rw [List.map_cons, List.flatten_cons, hkept, kept_contentBuffer, hsum, slice_add]
    · rw [List.map_cons, List.sum_cons, hret, hsum, readable_add]
      push_cast
      rfl

/-- A read of a content file returns exactly the requested slice, zeros the
rest of the buffer, changes nothing, and is the concatenation of the reads of
any consecutive pieces of its range. -/
theorem reads_are_slices (hp : w.lookup p = some f) (hmeta : isMetaFile p = false) (env : Env)
    (size : UInt64) (offset : Int64) (hsize : size.toNat ≤ intMax) (ho : 0 ≤ offset.toInt) :
    ∃ r, step w ⟨.read p size offset, env⟩ = .ok (r, w) ∧
      r.ret = min (size.toNat : ℤ) (max 0 (f.size.toInt - offset.toInt)) ∧
      r.data.length = size.toNat ∧
      (∀ k : ℕ, k < r.ret →
        r.data[k]? = some (patternByte f.pattern (offset.toInt.toNat + k))) ∧
      (∀ k : ℕ, r.ret ≤ k → k < size.toNat → r.data[k]? = some 0) ∧
      ∀ pieces, Consecutive offset.toInt.toNat pieces → total pieces = size.toNat →
        ∃ rs, run step w (pieces.map (Piece.event p)) = .ok (rs, w) ∧
          (rs.map Reply.data).flatten = r.data ∧ (rs.map kept).flatten = kept r ∧
          (rs.map Reply.ret).sum = r.ret := by
  refine ⟨_, step_read hp hmeta env hsize ho, ?_, contentBuffer_length _ _ _ _, ?_, ?_, ?_⟩
  · dsimp only
    unfold readable
    omega
  · intro k hk
    exact contentBuffer_getElem? (Int.ofNat_lt.mp hk)
  · intro k hk hn
    exact contentBuffer_zero _ (Int.ofNat_le.mp hk) hn
  · intro pieces hnext htotal
    have hfit : ∀ piece ∈ pieces, piece.size.toNat ≤ intMax :=
      fun piece hpiece => (size_le_total hpiece).trans (htotal.le.trans hsize)
    obtain ⟨rs, hrun, hdata, hkept, hret⟩ := run_pieces hp hmeta hnext hfit
    rw [htotal] at hdata hkept hret
    exact ⟨rs, hrun, hdata, hkept.trans (kept_contentBuffer _ _ _ _).symm, hret⟩

end Reads

/-- A window of nine bytes from the third on, over the end of a file of six. -/
theorem reads_are_slices_end :
    let p : Path := ⟨ascii "deadbeef_8_1", by decide⟩
    let f : LFile := ⟨⟨p, by decide⟩, 6, 1, 0, fun j => UInt8.ofNat j⟩
    let w : World := { boot (ascii "/meta") (Store.empty _) with files := [⟨0, f⟩] }
    ∃ r, step w ⟨.read p 9 2, Env.quiet⟩ = .ok (r, w) ∧ r.ret = 4 ∧ r.data.length = 9 := by
  intro p f w
  obtain ⟨r, hstep, hret, hlen, -⟩ := reads_are_slices (w := w) (p := p) (f := f)
    rfl (by decide +kernel) Env.quiet 9 2 (by decide) (by decide)
  refine ⟨r, hstep, ?_, hlen⟩
  rw [hret]
  decide +kernel

end LazyFS.SlicedReads
