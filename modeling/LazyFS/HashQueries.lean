import LazyFS.HashLayout

/-!
# Lookup, iteration and the integrity check

What the table computes without writing to it. A lookup walks the chain of one
bucket only and still finds what a search of the whole list finds; it needs
the keys to be distinct, because a chain does not keep the order of insertion.
-/

namespace LazyFS.HashQueries

open MemoryRegions LinkedCells LinkedChains SortedPiles HashTable HashLayout

section Walks

variable {α : Type} {r : Region (Element α)} {l : List ℕ} {p : Option ℕ} {fuel : ℕ}

/-- A walk along the links of a bucket reads the chain. -/
theorem hashFindInBkt_eq (keyOf : α → List UInt8) (key : List UInt8)
    (h : Segment (links r).hhNext (links r).hhPrev p l none) (hfuel : l.length ≤ fuel) :
    hashFindInBkt keyOf r key fuel l.head? =
      .ok (l.find? (fun b => (r.view (sameKey keyOf key) b).getD false)) := by
  induction l generalizing p fuel with
  | nil => simp only [List.head?_nil, hashFindInBkt, List.find?_nil]
  | cons b bs ih =>
    obtain ⟨-, hnext, hrest⟩ := h
    obtain ⟨e, he, hhn⟩ := Region.cell_of_view hnext
    rw [Option.or_none] at hhn
    cases fuel with
    | zero => simp only [List.length_cons, Nat.le_zero_eq, reduceCtorEq] at hfuel
    | succ fuel =>
      have hrec := ih hrest (by simpa only [List.length_cons, Nat.add_le_add_iff_right] using hfuel)
      simp only [List.head?_cons, hashFindInBkt, Region.read_of_cell he, bind, Except.bind, pure,
        Except.pure, hhn, hrec, List.find?_cons, Region.view_of_cell _ he, Option.getD_some]
      cases sameKey keyOf key e <;> rfl

/-- A walk in application order visits the list. -/
theorem hashIter_eq (h : Segment (links r).next (links r).prev p l none)
    (hfuel : l.length ≤ fuel) : hashIter r fuel l.head? = .ok l := by
  induction l generalizing p fuel with
  | nil => simp only [List.head?_nil, hashIter]
  | cons b bs ih =>
    obtain ⟨-, hnext, hrest⟩ := h
    obtain ⟨e, he, hn⟩ := Region.cell_of_view hnext
    rw [Option.or_none] at hn
    cases fuel with
    | zero => simp only [List.length_cons, Nat.le_zero_eq, reduceCtorEq] at hfuel
    | succ fuel =>
      have hrec := ih hrest (by simpa only [List.length_cons, Nat.add_le_add_iff_right] using hfuel)
      simp only [List.head?_cons, hashIter, Region.read_of_cell he, bind, Except.bind, pure,
        Except.pure, hn, hrec]

/-- The check of a linked list counts it. -/
theorem fsckLinks_eq {nextOf prevOf : UTHashHandle → Option ℕ} (count : UInt32)
    (h : Segment (r.view (fun e => nextOf e.hh)) (r.view (fun e => prevOf e.hh)) p l none)
    (hfuel : l.length ≤ fuel) :
    fsckLinks nextOf prevOf r fuel p l.head? count = .ok (count + UInt32.ofNat l.length) := by
  induction l generalizing p fuel count with
  | nil =>
    have hzero : UInt32.ofNat 0 = 0 := rfl
    simp only [List.head?_nil, fsckLinks, List.length_nil, hzero, UInt32.add_zero]
  | cons b bs ih =>
    obtain ⟨hprev, hnext, hrest⟩ := h
    obtain ⟨e, he, hn⟩ := Region.cell_of_view hnext
    rw [Option.or_none] at hn
    rw [Region.view_of_cell _ he, Option.some.injEq] at hprev
    cases fuel with
    | zero => simp only [List.length_cons, Nat.le_zero_eq, reduceCtorEq] at hfuel
    | succ fuel =>
      have hrec := ih (count + 1) hrest
        (by simpa only [List.length_cons, Nat.add_le_add_iff_right] using hfuel)
      have hcount : count + 1 + UInt32.ofNat bs.length =
          count + UInt32.ofNat (b :: bs).length := by
        rw [List.length_cons, UInt32.ofNat_add, UInt32.ofNat_one, UInt32.add_assoc,
          UInt32.add_comm 1]
      simp only [List.head?_cons, fsckLinks, Region.read_of_cell he, bind, Except.bind, hprev, hn,
        ne_eq, not_true_eq_false, if_false, hrec, hcount]

end Walks

section Represented

variable {α : Type} {keyOf : α → List UInt8} {hash : List UInt8 → UInt32} {m : Memory α}
  {head : Option ℕ} {cells : List (Cell α)}

/-- A lookup in memory finds the cell that a search of the list finds. -/
theorem hashFind_eq (h : Represents keyOf hash m head cells)
    (hkeys : (cells.map (fun c => keyOf c.value)).Nodup) (key : List UInt8) :
    hashFind keyOf hash m head key = .ok ((find keyOf cells key).map Cell.block) := by
  rcases h with ⟨rfl, rfl, -⟩ | ⟨hne, t, tbl, bkts, chains, h⟩
  · rfl
  · obtain ⟨c, hc, rfl⟩ := h.head_of_ne_nil hne
    have hi := hashToBkt_lt (hash key) h.buckets_pos
    obtain ⟨bkt, hget, hbkt, hholds⟩ := h.nth hi
    have hwalk := hashFindInBkt_eq keyOf key
      (h.chained _ hi) (h.chain_length_le hi)
    simp only [hashFind, h.tableOf hc, bind, Except.bind, h.read_array, hbkt, hholds.head, hwalk,
      h.find_chain hkeys]

/-- An iteration visits the cells in the order they were added. -/
theorem hashIter_represents (h : Represents keyOf hash m head cells) :
    hashIter m.elements m.elements.next head = .ok (blocks cells) := by
  rcases h with ⟨rfl, rfl, -⟩ | ⟨hne, t, tbl, bkts, chains, h⟩
  · simp only [hashIter, blocks, List.map_nil]
  · rw [h.head_eq]
    exact hashIter_eq h.ordered (h.length_le h.nodup (fun _ hb => hb))

/-- The check of the buckets counts the chains. -/
theorem fsckBuckets_eq {t : ℕ} {tbl : UTHashTable} {bkts : List UTHashBucket}
    {chains : ℕ → List ℕ} (h : Layout keyOf hash m head cells t tbl bkts chains) {rem i : ℕ}
    (hrange : i + rem = tbl.numBuckets.toNat) (count : UInt32) :
    fsckBuckets m.elements bkts rem i count =
      .ok (count + UInt32.ofNat (∑ j ∈ Finset.range rem, (chains (i + j)).length)) := by
  induction rem generalizing i count with
  | zero =>
    have hzero : UInt32.ofNat 0 = 0 := rfl
    simp only [fsckBuckets, Finset.range_zero, Finset.sum_empty, hzero, UInt32.add_zero]
  | succ rem ih =>
    have hi : i < tbl.numBuckets.toNat := by omega
    obtain ⟨bkt, hget, hbkt, hholds⟩ := h.nth hi
    have hchain := fsckLinks_eq 0 (h.chained i hi) (h.chain_length_le hi)
    have hrec := ih (i := i + 1) (by omega) (count + UInt32.ofNat (chains i).length)
    have hsum : ∑ j ∈ Finset.range (rem + 1), (chains (i + j)).length =
        (chains i).length + ∑ j ∈ Finset.range rem, (chains (i + 1 + j)).length := by
      rw [Finset.sum_range_succ', Nat.add_comm, Nat.add_zero]
      congr 1
      apply Finset.sum_congr rfl
      intro j _
      rw [Nat.add_assoc, Nat.add_comm 1 j]
    rw [UInt32.zero_add] at hchain
    simp only [fsckBuckets, hbkt, bind, Except.bind, hholds.head, hchain, hholds.count, ne_eq,
      not_true_eq_false, if_false, hrec, hsum, UInt32.ofNat_add, UInt32.add_assoc]

/-- The integrity check finds nothing wrong. -/
theorem hashFsck_eq (h : Represents keyOf hash m head cells) : hashFsck m head = .ok () := by
  rcases h with ⟨rfl, rfl, -⟩ | ⟨hne, t, tbl, bkts, chains, h⟩
  · rfl
  · obtain ⟨c, hc, hhead⟩ := h.head_of_ne_nil hne
    have hbuckets := fsckBuckets_eq h (Nat.zero_add tbl.numBuckets.toNat) 0
    have hindex : ∀ b ∈ blocks cells, bktOf (links m.elements) tbl.numBuckets b <
        tbl.numBuckets.toNat := fun b _ => hashToBkt_lt _ h.buckets_pos
    have hsum : ∑ j ∈ Finset.range tbl.numBuckets.toNat, (chains (0 + j)).length =
        cells.length := by
      simp only [Nat.zero_add]
      rw [h.sorted.sum_length hindex, length_blocks]
    have horder := fsckLinks_eq 0 h.ordered (h.length_le h.nodup (fun _ hb => hb))
    rw [← h.head_eq, hhead, length_blocks, UInt32.zero_add] at horder
    rw [hsum, UInt32.zero_add] at hbuckets
    rw [hhead]
    simp only [hashFsck, h.tableOf hc, bind, Except.bind, h.read_array, hbuckets, h.items, ne_eq,
      not_true_eq_false, if_false, horder, pure, Except.pure]

end Represented

end LazyFS.HashQueries
