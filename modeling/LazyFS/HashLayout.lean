import LazyFS.HashTable
import LazyFS.LinkedCells
import LazyFS.LinkedChains
import LazyFS.SortedPiles
import LazyFS.ChainLoad

/-!
# The layout of a table

A table in memory represents a list of cells: its elements are linked in
application order, every bucket links the elements whose hash falls into it,
and the counters agree. Nothing else is allocated for a table, and nothing is
for an empty one. On such a memory a lookup finds what the list has under the
key, an iteration visits the cells in order, and the integrity check passes.
-/

namespace LazyFS.HashLayout

open MemoryRegions LinkedCells LinkedChains SortedPiles ChainLoad HashTable

section Views

variable {α : Type}

/-- The fields of an element that are no links. -/
structure Core (α : Type) where
  /-- The fields of the program. -/
  value : α
  /-- The table. -/
  tbl : Option ℕ
  /-- The length of the key. -/
  keylen : UInt32
  /-- The hash of the key. -/
  hashv : UInt32

/-- The fields of an element that are no links. -/
def core (e : Element α) : Core α := ⟨e.value, e.hh.tbl, e.hh.keylen, e.hh.hashv⟩

/-- A region of elements as maps. -/
structure Links (α : Type) where
  next : ℕ → Option (Option ℕ)
  prev : ℕ → Option (Option ℕ)
  hhNext : ℕ → Option (Option ℕ)
  hhPrev : ℕ → Option (Option ℕ)
  /-- The fields that are no links. -/
  core : ℕ → Option (Core α)
  /-- The address of the next block. -/
  bound : ℕ

/-- The maps of a region. -/
def links (r : Region (Element α)) : Links α where
  next := r.view (fun e => e.hh.next)
  prev := r.view (fun e => e.hh.prev)
  hhNext := r.view (fun e => e.hh.hhNext)
  hhPrev := r.view (fun e => e.hh.hhPrev)
  core := r.view HashLayout.core
  bound := r.next

variable {r r' : Region (Element α)} {b : ℕ} {e : Element α}

/-- The maps hold what an element holds. -/
theorem links_of_cell (h : r.cell b = some e) :
    (links r).next b = some e.hh.next ∧ (links r).prev b = some e.hh.prev ∧
      (links r).hhNext b = some e.hh.hhNext ∧ (links r).hhPrev b = some e.hh.hhPrev ∧
      (links r).core b = some (core e) :=
  ⟨Region.view_of_cell _ h, Region.view_of_cell _ h, Region.view_of_cell _ h,
    Region.view_of_cell _ h, Region.view_of_cell _ h⟩

/-- A block that has a core is allocated. -/
theorem live_of_core {c : Core α} (h : (links r).core b = some c) : r.Live b :=
  Region.live_of_view h

/-- An allocated block holds an element. -/
theorem cell_of_live (h : r.Live b) : ∃ e, r.cell b = some e := Option.isSome_iff_exists.mp h

/-- What is written to an element is seen in the maps at its address. -/
theorem modify_links (h : r.cell b = some e) (f : Element α → Element α) :
    ∃ r', r.modify b f = .ok r' ∧
      links r' = ⟨Function.update (links r).next b (some (f e).hh.next),
        Function.update (links r).prev b (some (f e).hh.prev),
        Function.update (links r).hhNext b (some (f e).hh.hhNext),
        Function.update (links r).hhPrev b (some (f e).hh.hhPrev),
        Function.update (links r).core b (some (core (f e))), (links r).bound⟩ := by
  obtain ⟨r', hr', hcell, hbound⟩ := Region.modify_of_cell h f
  refine ⟨r', hr', ?_⟩
  simp only [links, Region.view_update _ hcell, hbound]

/-- Writing back what an element holds changes no map. -/
theorem update_links (h : r.cell b = some e) :
    Function.update (links r).next b (some e.hh.next) = (links r).next ∧
      Function.update (links r).prev b (some e.hh.prev) = (links r).prev ∧
      Function.update (links r).hhNext b (some e.hh.hhNext) = (links r).hhNext ∧
      Function.update (links r).hhPrev b (some e.hh.hhPrev) = (links r).hhPrev ∧
      Function.update (links r).core b (some (core e)) = (links r).core := by
  obtain ⟨hnext, hprev, hhn, hhp, hcore⟩ := links_of_cell h
  rw [← hnext, ← hprev, ← hhn, ← hhp, ← hcore]
  simp only [Function.update_eq_self, and_self]

/-- Writing a link changes one map. -/
theorem modify_setNext (h : r.Live b) (p : Option ℕ) :
    ∃ r', r.modify b (Element.setNext p) = .ok r' ∧
      links r' = { links r with next := Function.update (links r).next b (some p) } := by
  obtain ⟨e, he⟩ := cell_of_live h
  obtain ⟨r', hr', hlinks⟩ := modify_links he (Element.setNext p)
  obtain ⟨-, hprev, hhn, hhp, hcore⟩ := update_links he
  have hsame : core (e.setNext p) = core e := rfl
  refine ⟨r', hr', ?_⟩
  rw [hlinks, hsame]
  simp only [Element.setNext, hprev, hhn, hhp, hcore]

/-- Setting `prev` of an allocated block changes that link alone. -/
theorem modify_setPrev (h : r.Live b) (p : Option ℕ) :
    ∃ r', r.modify b (Element.setPrev p) = .ok r' ∧
      links r' = { links r with prev := Function.update (links r).prev b (some p) } := by
  obtain ⟨e, he⟩ := cell_of_live h
  obtain ⟨r', hr', hlinks⟩ := modify_links he (Element.setPrev p)
  obtain ⟨hnext, -, hhn, hhp, hcore⟩ := update_links he
  have hsame : core (e.setPrev p) = core e := rfl
  refine ⟨r', hr', ?_⟩
  rw [hlinks, hsame]
  simp only [Element.setPrev, hnext, hhn, hhp, hcore]

/-- Setting `hh_next` of an allocated block changes that link alone. -/
theorem modify_setHhNext (h : r.Live b) (p : Option ℕ) :
    ∃ r', r.modify b (Element.setHhNext p) = .ok r' ∧
      links r' = { links r with hhNext := Function.update (links r).hhNext b (some p) } := by
  obtain ⟨e, he⟩ := cell_of_live h
  obtain ⟨r', hr', hlinks⟩ := modify_links he (Element.setHhNext p)
  obtain ⟨hnext, hprev, -, hhp, hcore⟩ := update_links he
  have hsame : core (e.setHhNext p) = core e := rfl
  refine ⟨r', hr', ?_⟩
  rw [hlinks, hsame]
  simp only [Element.setHhNext, hnext, hprev, hhp, hcore]

/-- Setting `hh_prev` of an allocated block changes that link alone. -/
theorem modify_setHhPrev (h : r.Live b) (p : Option ℕ) :
    ∃ r', r.modify b (Element.setHhPrev p) = .ok r' ∧
      links r' = { links r with hhPrev := Function.update (links r).hhPrev b (some p) } := by
  obtain ⟨e, he⟩ := cell_of_live h
  obtain ⟨r', hr', hlinks⟩ := modify_links he (Element.setHhPrev p)
  obtain ⟨hnext, hprev, hhn, -, hcore⟩ := update_links he
  have hsame : core (e.setHhPrev p) = core e := rfl
  refine ⟨r', hr', ?_⟩
  rw [hlinks, hsame]
  simp only [Element.setHhPrev, hnext, hprev, hhn, hcore]

/-- Liveness is seen in every map. -/
theorem live_iff_core : r.Live b ↔ (links r).core b ≠ none := by
  change (r.cell b).isSome ↔ (r.cell b).map core ≠ none
  cases r.cell b <;> simp

/-- The patch of the first node of a list. -/
theorem writeIfAny_setHhPrev {l : List ℕ} (h : ∀ b ∈ l, r.Live b) (p : Option ℕ) :
    ∃ r', writeIfAny l.head? (Element.setHhPrev p) r = .ok r' ∧
      links r' = { links r with hhPrev := setFirst (links r).hhPrev l p } := by
  cases l with
  | nil => exact ⟨r, rfl, rfl⟩
  | cons b bs => exact modify_setHhPrev (h b List.mem_cons_self) p

/-- Setting `prev` of the first block of a list, if there is one. -/
theorem writeIfAny_setPrev {l : List ℕ} (h : ∀ b ∈ l, r.Live b) (p : Option ℕ) :
    ∃ r', writeIfAny l.head? (Element.setPrev p) r = .ok r' ∧
      links r' = { links r with prev := setFirst (links r).prev l p } := by
  cases l with
  | nil => exact ⟨r, rfl, rfl⟩
  | cons b bs => exact modify_setPrev (h b List.mem_cons_self) p

/-- The patch of the last node of a list. -/
theorem writeIfAny_setHhNext {l : List ℕ} (h : ∀ b ∈ l, r.Live b) (p : Option ℕ) :
    ∃ r', writeIfAny l.getLast? (Element.setHhNext p) r = .ok r' ∧
      links r' = { links r with hhNext := setLast (links r).hhNext l p } := by
  cases hl : l.getLast? with
  | none => exact ⟨r, rfl, by simp only [setLast, hl]⟩
  | some b =>
    obtain ⟨r', hr', hlinks⟩ := modify_setHhNext (h b (List.mem_of_getLast? hl)) p
    exact ⟨r', hr', by simp only [hlinks, setLast, hl]⟩

/-- Setting `next` of the last block of a list, if there is one. -/
theorem writeIfAny_setNext {l : List ℕ} (h : ∀ b ∈ l, r.Live b) (p : Option ℕ) :
    ∃ r', writeIfAny l.getLast? (Element.setNext p) r = .ok r' ∧
      links r' = { links r with next := setLast (links r).next l p } := by
  cases hl : l.getLast? with
  | none => exact ⟨r, rfl, by simp only [setLast, hl]⟩
  | some b =>
    obtain ⟨r', hr', hlinks⟩ := modify_setNext (h b (List.mem_of_getLast? hl)) p
    exact ⟨r', hr', by simp only [hlinks, setLast, hl]⟩

end Views

/-- The bucket of an element, by the hash it carries. -/
def bktOf {α : Type} (l : Links α) (numBkts : UInt32) (b : ℕ) : ℕ :=
  hashToBkt (((l.core b).map Core.hashv).getD 0) numBkts

/-- The bucket that a chain is stored in. -/
structure Holds (bkt : UTHashBucket) (chain : List ℕ) : Prop where
  /-- The bucket points to the front of the chain. -/
  head : bkt.hhHead = chain.head?
  /-- The bucket counts the chain. -/
  count : bkt.count = UInt32.ofNat chain.length

/-- An array of `n` buckets holds elements in chains, each linked in bucket order. -/
structure Buckets {α : Type} (l : Links α) (n : UInt32) (bkts : List UTHashBucket)
    (chains : ℕ → List ℕ) (bs : List ℕ) : Prop where
  /-- The array has that length. -/
  size : bkts.length = n.toNat
  /-- Each bucket holds a chain. -/
  held : ∀ i bkt, bkts[i]? = some bkt → Holds bkt (chains i)
  /-- Each chain is linked. -/
  chained : ∀ i < n.toNat, Linked l.hhNext l.hhPrev (chains i)
  /-- The elements are sorted into the chains. -/
  sorted : Sorts (bktOf l n) n.toNat chains bs

/-- The multiplier of a bucket. -/
def multAt (bkts : List UTHashBucket) (i : ℕ) : ℕ :=
  ((bkts[i]?).map (fun bkt => bkt.expandMult.toNat)).getD 0

/-- The addresses of cells. -/
def blocks {α : Type} (cells : List (Cell α)) : List ℕ := cells.map Cell.block

section Layout

variable {α : Type} (keyOf : α → List UInt8) (hash : List UInt8 → UInt32)

/-- What an element of a table holds for a cell. -/
def coreOf (t : ℕ) (c : Cell α) : Core α :=
  ⟨c.value, some t, UInt32.ofNat (keyOf c.value).length, hash (keyOf c.value)⟩

/-- A table `tbl` at `t` with an array `bkts` counts cells and links them in order. -/
structure Spine (m : Memory α) (head : Option ℕ) (cells : List (Cell α)) (t : ℕ)
    (tbl : UTHashTable) (bkts : List UTHashBucket) : Prop where
  /-- The head is the first cell. -/
  head_eq : head = (blocks cells).head?
  /-- The table is the only one allocated. -/
  table : m.tables.cell = Function.update (fun _ => none) t (some tbl)
  /-- So is its array. -/
  array : m.arrays.cell = Function.update (fun _ => none) tbl.buckets (some bkts)
  /-- The elements hold the cells. -/
  cores : ∀ c ∈ cells, (links m.elements).core c.block = some (coreOf keyOf hash t c)
  /-- They are linked in order. -/
  ordered : Linked (links m.elements).next (links m.elements).prev (blocks cells)
  /-- The tail is the last cell. -/
  tail : tbl.tail = (blocks cells).getLast?
  /-- No two cells share an address. -/
  nodup : (blocks cells).Nodup
  /-- The table counts the cells. -/
  items : tbl.numItems = UInt32.ofNat cells.length
  /-- The counter does not wrap. -/
  few : cells.length < 2 ^ 32
  /-- Nor do the lengths of keys. -/
  short : ∀ c ∈ cells, (keyOf c.value).length < 2 ^ 32
  /-- The number of buckets is a power of two. -/
  power : tbl.numBuckets.toNat = 2 ^ tbl.log2NumBuckets.toNat
  /-- It can be doubled. -/
  modest : tbl.numBuckets.toNat < 2 ^ 31

/-- A table holds cells in the given chains. -/
structure Layout (m : Memory α) (head : Option ℕ) (cells : List (Cell α)) (t : ℕ)
    (tbl : UTHashTable) (bkts : List UTHashBucket) (chains : ℕ → List ℕ) : Prop
    extends Spine keyOf hash m head cells t tbl bkts,
      Buckets (links m.elements) tbl.numBuckets bkts chains (blocks cells) where
  /-- While the table still expands, its chains are balanced. -/
  balanced : tbl.noexpand ≠ 1 → Balanced HASH_BKT_CAPACITY_THRESH.toNat tbl.numBuckets.toNat
    (fun i => (chains i).length) (multAt bkts)

/-- A memory in which only elements may be allocated. -/
structure Vacant (m : Memory α) : Prop where
  /-- No table is. -/
  tables : m.tables.cell = fun _ => none
  /-- No bucket array is. -/
  arrays : m.arrays.cell = fun _ => none

/-- The table that a head points to holds a list of cells, which its counters of 32 bits
can count, and its buckets can still be doubled. -/
def Represents (m : Memory α) (head : Option ℕ) (cells : List (Cell α)) : Prop :=
  (cells = [] ∧ head = none ∧ Vacant m) ∨
    (cells ≠ [] ∧ ∃ t tbl bkts chains, Layout keyOf hash m head cells t tbl bkts chains)

end Layout

/-- A bucket index is in range. -/
theorem hashToBkt_lt (hashv : UInt32) {n : UInt32} (h : 0 < n.toNat) :
    hashToBkt hashv n < n.toNat := by
  have hle : (1 : UInt32) ≤ n := UInt32.le_iff_toNat_le.mpr h
  have hand : hashToBkt hashv n ≤ (n - 1).toNat := by
    rw [hashToBkt, UInt32.toNat_and]
    exact Nat.and_le_right
  have hone : (1 : UInt32).toNat = 1 := rfl
  rw [UInt32.toNat_sub_of_le _ _ hle, hone] at hand
  omega

section Layouts

variable {α : Type} {keyOf : α → List UInt8} {hash : List UInt8 → UInt32} {m : Memory α}
  {head : Option ℕ} {cells : List (Cell α)} {t : ℕ} {tbl : UTHashTable}
  {bkts : List UTHashBucket} {chains : ℕ → List ℕ} {c : Cell α} {b i : ℕ}

/-- The block of a cell of the list is among the blocks. -/
theorem mem_blocks (hc : c ∈ cells) : c.block ∈ blocks cells := List.mem_map_of_mem hc

/-- There are as many blocks as cells. -/
theorem length_blocks (cells : List (Cell α)) : (blocks cells).length = cells.length :=
  List.length_map _

/-- The number of buckets is not zero. -/
theorem Spine.buckets_pos (h : Spine keyOf hash m head cells t tbl bkts) :
    0 < tbl.numBuckets.toNat := by
  rw [h.power]
  exact Nat.two_pow_pos _

/-- An element is in the bucket of its key. -/
theorem Spine.bktOf_block (h : Spine keyOf hash m head cells t tbl bkts)
    (hc : c ∈ cells) (n : UInt32) :
    bktOf (links m.elements) n c.block = hashToBkt (hash (keyOf c.value)) n := by
  simp only [bktOf, h.cores c hc, Option.map_some, Option.getD_some, coreOf]

/-- The blocks of the cells are allocated. -/
theorem Spine.live (h : Spine keyOf hash m head cells t tbl bkts)
    (hb : b ∈ blocks cells) : m.elements.Live b := by
  obtain ⟨c, hc, rfl⟩ := List.mem_map.mp hb
  exact live_of_core (h.cores c hc)

/-- A list of distinct elements is no longer than there are blocks. -/
theorem Spine.length_le (h : Spine keyOf hash m head cells t tbl bkts) {l : List ℕ}
    (hl : l.Nodup) (hsub : ∀ b ∈ l, b ∈ blocks cells) : l.length ≤ m.elements.next :=
  length_le_of_nodup hl (fun b hb => Region.live_lt (h.live (hsub b hb)))

/-- A chain has no more blocks than were ever allocated. -/
theorem Layout.chain_length_le (h : Layout keyOf hash m head cells t tbl bkts chains)
    (hi : i < tbl.numBuckets.toNat) : (chains i).length ≤ m.elements.next :=
  h.length_le (h.sorted.nodup h.nodup hi) (fun _ hb => ((h.sorted.mem_iff hi).mp hb).1)

/-- An element leads to the table that it points to. -/
theorem tableOf_eq {k : Core α} (hcore : (links m.elements).core b = some k)
    (htbl : k.tbl = some t) (hcell : m.tables.cell t = some tbl) :
    m.tableOf b = .ok (t, tbl) := by
  obtain ⟨e, he, rfl⟩ := Region.cell_of_view hcore
  have hptr : e.hh.tbl = some t := htbl
  simp only [Memory.tableOf, Region.read_of_cell he, bind, Except.bind, hptr, deref_some,
    Region.read_of_cell hcell, pure, Except.pure]

/-- Every element points to the table. -/
theorem Spine.tableOf (h : Spine keyOf hash m head cells t tbl bkts) (hc : c ∈ cells) :
    m.tableOf c.block = .ok (t, tbl) :=
  tableOf_eq (h.cores c hc) rfl (by rw [h.table, Function.update_self])

/-- The array of the table holds the buckets. -/
theorem Spine.read_array (h : Spine keyOf hash m head cells t tbl bkts) :
    m.arrays.read tbl.buckets = .ok bkts :=
  Region.read_of_cell (by rw [h.array, Function.update_self])

/-- A bucket in range is there. -/
theorem Buckets.nth {l : Links α} {n : UInt32} {bs : List ℕ} (h : Buckets l n bkts chains bs)
    (hi : i < n.toNat) :
    ∃ bkt, bkts[i]? = some bkt ∧ nth bkts i = .ok bkt ∧ Holds bkt (chains i) := by
  have hlt : i < bkts.length := by rw [h.size]; exact hi
  have hget : bkts[i]? = some bkts[i] := List.getElem?_eq_getElem hlt
  exact ⟨bkts[i], hget, nth_of_getElem hget, h.held i _ hget⟩

/-- The comparison of a lookup compares the keys. -/
theorem Spine.sameKey (h : Spine keyOf hash m head cells t tbl bkts) (hc : c ∈ cells)
    (key : List UInt8) :
    (m.elements.view (sameKey keyOf key) c.block).getD false = decide (keyOf c.value = key) := by
  obtain ⟨e, he, hcore⟩ := Region.cell_of_view (h.cores c hc)
  have hvalue : e.value = c.value := congrArg Core.value hcore
  have hkeylen : e.hh.keylen = UInt32.ofNat (keyOf c.value).length := congrArg Core.keylen hcore
  have hlen : e.hh.keylen.toNat = (keyOf c.value).length := by
    rw [hkeylen, UInt32.toNat_ofNat_of_lt' (h.short c hc)]
  rw [Region.view_of_cell _ he, Option.getD_some, HashTable.sameKey, hlen, hvalue,
    ← Bool.decide_and]
  apply decide_eq_decide.mpr
  constructor
  · intro hand
    rw [← hand.1, List.take_length] at hand
    exact hand.2
  · intro heq
    rw [← heq, List.take_length]
    exact ⟨rfl, rfl⟩

/-- The one element with a key is found in the chain of its bucket. -/
theorem Layout.find_chain (h : Layout keyOf hash m head cells t tbl bkts chains)
    (hkeys : (cells.map (fun c => keyOf c.value)).Nodup) (key : List UInt8) :
    (chains (hashToBkt (hash key) tbl.numBuckets)).find?
        (fun b => (m.elements.view (HashTable.sameKey keyOf key) b).getD false) =
      (find keyOf cells key).map Cell.block := by
  have hi := hashToBkt_lt (hash key) h.buckets_pos
  -- Whatever the chain has under the key is the cell of that key.
  have honly : ∀ b ∈ chains (hashToBkt (hash key) tbl.numBuckets),
      (m.elements.view (HashTable.sameKey keyOf key) b).getD false = true →
      ∃ c, find keyOf cells key = some c ∧ c.block = b := by
    intro b hb hsame
    obtain ⟨hblock, -⟩ := (h.sorted.mem_iff hi).mp hb
    obtain ⟨c, hc, rfl⟩ := List.mem_map.mp hblock
    rw [h.sameKey hc] at hsame
    refine ⟨c, ?_, rfl⟩
    rw [← of_decide_eq_true hsame]
    exact find_of_mem hkeys hc
  cases hfind : find keyOf cells key with
  | none =>
    rw [Option.map_none, List.find?_eq_none]
    intro b hb hsame
    obtain ⟨c, hc, -⟩ := honly b hb hsame
    rw [hfind] at hc
    cases hc
  | some c =>
    have hc := find_mem hfind
    have hkey := find_key hfind
    have hmem : c.block ∈ chains (hashToBkt (hash key) tbl.numBuckets) := by
      refine (h.sorted.mem_iff hi).mpr ⟨mem_blocks hc, ?_⟩
      rw [h.bktOf_block hc, hkey]
    have hsome : ((chains (hashToBkt (hash key) tbl.numBuckets)).find?
        (fun b => (m.elements.view (HashTable.sameKey keyOf key) b).getD false)).isSome := by
      rw [List.find?_isSome]
      exact ⟨c.block, hmem, by rw [h.sameKey hc, decide_eq_true hkey]⟩
    obtain ⟨b, hb⟩ := Option.isSome_iff_exists.mp hsome
    have hsame := List.find?_some hb
    obtain ⟨c', hc', hblock⟩ := honly b (List.mem_of_find?_eq_some hb) hsame
    rw [hfind] at hc'
    cases hc'
    rw [hb, Option.map_some, hblock]

/-- The head of a table that is not empty. -/
theorem Spine.head_of_ne_nil (h : Spine keyOf hash m head cells t tbl bkts)
    (hne : cells ≠ []) : ∃ c ∈ cells, head = some c.block := by
  cases cells with
  | nil => exact absurd rfl hne
  | cons c cells => exact ⟨c, List.mem_cons_self, h.head_eq⟩

end Layouts

end LazyFS.HashLayout
