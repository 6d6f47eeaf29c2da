import LazyFS.HashDeletion
import LazyFS.HashFrames
import LazyFS.HashQueries
import LazyFS.JenkinsHash

/-!
# What the table promises

Whatever the hash function, and however the elements are spread over the
buckets, an insertion adds one answer to the lookups and a deletion takes one
away; an expansion in between is seen in no answer. The chains of a table that
still expands have a bounded length, and so have its lookups. All counters have 32
bits, so keys are shorter than 2^32 bytes, entries fewer than 2^32, and buckets
fewer than 2^31 as long as they are to be doubled.
-/

namespace LazyFS.HashGuarantees

open MemoryRegions LinkedCells SortedPiles ChainLoad HashTable HashLayout HashQueries
  HashExpansion HashUpdates HashDeletion HashFrames JenkinsHash

section Lists

variable {α : Type} {keyOf : α → List UInt8} {cells : List (Cell α)} {c : Cell α}

/-- The keys of the cells are distinct. -/
abbrev DistinctKeys (keyOf : α → List UInt8) (cells : List (Cell α)) : Prop :=
  (cells.map (fun c => keyOf c.value)).Nodup

/-- A search after an insertion. -/
theorem find_add (hnew : ∀ d ∈ cells, keyOf d.value ≠ keyOf c.value) (key : List UInt8) :
    find keyOf (add cells c) key =
      if key = keyOf c.value then some c else find keyOf cells key := by
  have hsplit : find keyOf (add cells c) key = (find keyOf cells key).or (find keyOf [c] key) := by
    simp only [find, add, List.find?_append]
  rw [hsplit]
  by_cases hkey : key = keyOf c.value
  · have hnone : find keyOf cells key = none :=
      find_none_iff.mpr (fun d hd => hkey ▸ hnew d hd)
    have hlast : find keyOf [c] key = some c := by
      simp only [find, hkey, List.find?_cons, decide_true]
    rw [hnone, hlast, if_pos hkey, Option.none_or]
  · have hlast : find keyOf [c] key = none := find_none_iff.mpr (fun d hd => by
      rw [List.mem_singleton.mp hd]
      exact fun he => hkey he.symm)
    rw [hlast, if_neg hkey, Option.or_none]

/-- A search after a deletion. -/
theorem find_del (hkeys : DistinctKeys keyOf cells) (hblocks : (blocks cells).Nodup)
    (hc : c ∈ cells) (key : List UInt8) :
    find keyOf (del cells c.block) key =
      if key = keyOf c.value then none else find keyOf cells key := by
  have hone : ∀ d ∈ cells, d.block = c.block → d = c :=
    fun d hd hblock => List.inj_on_of_nodup_map hblocks hd hc hblock
  by_cases hkey : key = keyOf c.value
  · rw [if_pos hkey, find_none_iff]
    intro d hd hdkey
    obtain ⟨hmem, hne⟩ := List.mem_filter.mp hd
    have hdc : d = c := List.inj_on_of_nodup_map hkeys hmem hc (hdkey.trans hkey)
    exact of_decide_eq_true hne (congrArg Cell.block hdc)
  · rw [if_neg hkey, find, find, del, List.find?_filter]
    refine List.find?_congr ?_
    intro d hd
    by_cases hdkey : keyOf d.value = key
    · have hne : d.block ≠ c.block := by
        intro hblock
        exact hkey (hdkey.symm.trans (congrArg (fun d => keyOf d.value) (hone d hd hblock)))
      simp only [hdkey, hne, ne_eq, not_false_eq_true, decide_true, and_self]
    · simp only [hdkey, decide_false, Bool.false_eq_true, and_false]

/-- A new key keeps the keys distinct. -/
theorem distinct_add (hkeys : DistinctKeys keyOf cells)
    (hnew : ∀ d ∈ cells, keyOf d.value ≠ keyOf c.value) : DistinctKeys keyOf (add cells c) := by
  simp only [DistinctKeys, add, List.map_append, List.map_cons, List.map_nil]
  refine List.nodup_append.mpr ⟨hkeys, List.nodup_singleton _, ?_⟩
  intro x hx y hy hxy
  obtain ⟨d, hd, rfl⟩ := List.mem_map.mp hx
  exact hnew d hd (hxy.trans (List.mem_singleton.mp hy))

/-- So does a deletion. -/
theorem distinct_del (hkeys : DistinctKeys keyOf cells) (b : ℕ) :
    DistinctKeys keyOf (del cells b) := hkeys.sublist (List.filter_sublist.map _)

/-- Deleting what was inserted last. -/
theorem del_add (hnot : c.block ∉ blocks cells) : del (add cells c) c.block = cells := by
  simp only [del, add, List.filter_append, ne_eq, List.filter_cons, not_true_eq_false, decide_false,
    Bool.false_eq_true, if_false, List.filter_nil, List.append_nil, List.filter_eq_self,
    decide_eq_true_eq]
  intro d hd hblock
  exact hnot (hblock ▸ mem_blocks hd)

/-- The addresses after a deletion. -/
theorem blocks_del (cells : List (Cell α)) (b : ℕ) :
    blocks (del cells b) = (blocks cells).filter (fun d => d ≠ b) := by
  simp only [blocks, del, List.filter_map]
  rfl

end Lists

section Sample

/-- A memory with one element, which is in no table. -/
def oneElement (v : List UInt8) : Memory (List UInt8) :=
  ⟨(Region.empty.alloc ⟨v, ⟨none, none, none, none, none, 0, 0⟩⟩).2, Region.empty, Region.empty⟩

/-- Nothing is in a table there. -/
theorem oneElement_represents (v : List UInt8) :
    Represents id jenkins (oneElement v) none [] := Or.inl ⟨rfl, rfl, rfl, rfl⟩

/-- The element becomes the only one of a table. -/
theorem oneInserted : ∃ head m, hashAddKeyptr jenkins 32 none [97] 0 (oneElement [97]) =
    .ok (head, m) ∧ Represents id jenkins m head [⟨0, [97]⟩] := by
  have hadd := hashAddKeyptr_spec (c := (⟨0, [97]⟩ : Cell (List UInt8)))
    (oneElement_represents [97]) List.not_mem_nil rfl (by decide) (by decide)
    (show 32 < 2 ^ 31 by decide)
  rcases hadd with herr | ⟨head, m, hok, hrep, -⟩
  · have hevaluated : (hashAddKeyptr jenkins 32 none [97] 0 (oneElement [97])).isOk = true := rfl
    have hstopped : hashAddKeyptr jenkins 32 none [97] 0 (oneElement [97]) =
      .error .outOfMemory := herr
    rw [hstopped] at hevaluated
    cases hevaluated
  · exact ⟨head, m, hok, hrep⟩

end Sample

section Answers

variable {α : Type} {keyOf : α → List UInt8} {hash : List UInt8 → UInt32} {m m' : Memory α}
  {head head' : Option ℕ} {cells : List (Cell α)} {c : Cell α} {room : ℕ}

/-- Two heads answer alike: the same lookups, the same order, and both are sound. -/
structure SameAnswers (keyOf : α → List UInt8) (hash : List UInt8 → UInt32) (m : Memory α)
    (head : Option ℕ) (m' : Memory α) (head' : Option ℕ) : Prop where
  /-- Every lookup has the same result. -/
  find : ∀ key, hashFind keyOf hash m' head' key = hashFind keyOf hash m head key
  /-- The iteration visits the same elements in the same order. -/
  order : hashIter m'.elements m'.elements.next head' = hashIter m.elements m.elements.next head
  /-- The integrity check passes. -/
  sound : hashFsck m' head' = .ok ()

/-- Two heads that represent the same cells answer alike. -/
theorem sameAnswers_of_represents (h : Represents keyOf hash m head cells)
    (h' : Represents keyOf hash m' head' cells) (hkeys : DistinctKeys keyOf cells) :
    SameAnswers keyOf hash m head m' head' := by
  refine ⟨?_, ?_, hashFsck_eq h'⟩
  · intro key
    rw [hashFind_eq h hkeys, hashFind_eq h' hkeys]
  · rw [hashIter_represents h, hashIter_represents h']

/-- An insertion under a new key adds one answer, whatever the hash function and
whether or not the table is made or expanded for it. The key is shorter than 2^32 bytes,
the counter of items has room, and no array of 2^31 buckets is granted. -/
theorem insertion_answers (h : Represents keyOf hash m head cells)
    (hkeys : DistinctKeys keyOf cells) (hnew : ∀ d ∈ cells, keyOf d.value ≠ keyOf c.value)
    (hnot : c.block ∉ blocks cells)
    (hvalue : m.elements.view Element.value c.block = some c.value)
    (hshort : (keyOf c.value).length < 2 ^ 32) (hfew : cells.length + 1 < 2 ^ 32)
    (hroom : room < 2 ^ 31) :
    hashAddKeyptr hash room head (keyOf c.value) c.block m = .error .outOfMemory ∨
      ∃ head' m', hashAddKeyptr hash room head (keyOf c.value) c.block m = .ok (head', m') ∧
        (∀ key, hashFind keyOf hash m' head' key =
          if key = keyOf c.value then .ok (some c.block) else hashFind keyOf hash m head key) ∧
        hashIter m'.elements m'.elements.next head' = .ok (blocks cells ++ [c.block]) ∧
        hashFsck m' head' = .ok () := by
  rcases hashAddKeyptr_spec h hnot hvalue hshort hfew hroom with herr | ⟨head', m', hok, hrep, -⟩
  · exact Or.inl herr
  · refine Or.inr ⟨head', m', hok, ?_, ?_, hashFsck_eq hrep⟩
    · intro key
      rw [hashFind_eq hrep (distinct_add hkeys hnew), hashFind_eq h hkeys, find_add hnew]
      split_ifs <;> rfl
    · rw [hashIter_represents hrep, add, blocks_append]

/-- The first element of a table. -/
theorem insertion_answers_sample :
    hashAddKeyptr jenkins 32 none [97] 0 (oneElement [97]) = .error .outOfMemory ∨
      ∃ head' m', hashAddKeyptr jenkins 32 none [97] 0 (oneElement [97]) = .ok (head', m') ∧
        (∀ key, hashFind id jenkins m' head' key =
          if key = [97] then .ok (some 0) else hashFind id jenkins (oneElement [97]) none key) ∧
        hashIter m'.elements m'.elements.next head' = .ok [0] ∧ hashFsck m' head' = .ok () :=
  insertion_answers (c := (⟨0, [97]⟩ : Cell (List UInt8))) (oneElement_represents [97])
    List.nodup_nil (fun _ hd => (List.not_mem_nil hd).elim) List.not_mem_nil rfl (by decide)
    (by decide) (by decide)

/-- A deletion takes one answer away and never fails; with the last element the
table and its buckets are freed. -/
theorem deletion_answers (h : Represents keyOf hash m head cells)
    (hkeys : DistinctKeys keyOf cells) (hc : c ∈ cells) :
    ∃ head' m', hashDelete head c.block m = .ok (head', m') ∧
      (∀ key, hashFind keyOf hash m' head' key =
        if key = keyOf c.value then .ok none else hashFind keyOf hash m head key) ∧
      hashIter m'.elements m'.elements.next head' =
        .ok ((blocks cells).filter (fun b => b ≠ c.block)) ∧
      hashFsck m' head' = .ok () ∧
      (cells.length = 1 → head' = none ∧ Vacant m') := by
  obtain ⟨head', m', hok, hrep, -⟩ := hashDelete_spec h hc
  refine ⟨head', m', hok, ?_, ?_, hashFsck_eq hrep, ?_⟩
  · intro key
    rw [hashFind_eq hrep (distinct_del hkeys c.block), hashFind_eq h hkeys,
      find_del hkeys (blocks_nodup h) hc]
    split_ifs <;> rfl
  · rw [hashIter_represents hrep, blocks_del]
  · intro hone
    obtain ⟨d, rfl⟩ := List.length_eq_one_iff.mp hone
    obtain rfl := List.mem_singleton.mp hc
    have hnil : del [c] c.block = [] := by
      simp only [del, ne_eq, List.filter_cons, not_true_eq_false, decide_false,
        Bool.false_eq_true, if_false, List.filter_nil]
    rw [hnil] at hrep
    rcases hrep with ⟨-, hhead, hvacant⟩ | ⟨hne, -⟩
    · exact ⟨hhead, hvacant⟩
    · exact absurd rfl hne

/-- The only element of a table. -/
theorem deletion_answers_sample : ∃ head m head' m',
    hashAddKeyptr jenkins 32 none [97] 0 (oneElement [97]) = .ok (head, m) ∧
      hashDelete head 0 m = .ok (head', m') ∧ hashFind id jenkins m' head' [97] = .ok none ∧
      head' = none ∧ Vacant m' := by
  obtain ⟨head, m, hok, hrep⟩ := oneInserted
  obtain ⟨head', m', hdel, hfind, -, -, hlast⟩ :=
    deletion_answers hrep (List.nodup_singleton _) (List.mem_singleton.mpr rfl)
  exact ⟨head, m, head', m', hok, hdel, (hfind [97]).trans (if_pos rfl), hlast rfl⟩

/-- Inserting and deleting again leaves every answer as it was, even when the
insertion has expanded the table. The bounds are those of the insertion. -/
theorem insertion_undone (h : Represents keyOf hash m head cells)
    (hkeys : DistinctKeys keyOf cells) (hnot : c.block ∉ blocks cells)
    (hvalue : m.elements.view Element.value c.block = some c.value)
    (hshort : (keyOf c.value).length < 2 ^ 32) (hfew : cells.length + 1 < 2 ^ 32)
    (hroom : room < 2 ^ 31)
    (hok : hashAddKeyptr hash room head (keyOf c.value) c.block m = .ok (head', m')) :
    ∃ head'' m'', hashDelete head' c.block m' = .ok (head'', m'') ∧
      SameAnswers keyOf hash m head m'' head'' := by
  rcases hashAddKeyptr_spec h hnot hvalue hshort hfew hroom with herr | ⟨_, _, hok', hrep, -⟩
  · rw [hok] at herr
    cases herr
  · rw [hok] at hok'
    cases hok'
    obtain ⟨head'', m'', hdel, hrep', -⟩ :=
      hashDelete_spec hrep (List.mem_append_right cells (List.mem_singleton.mpr rfl))
    rw [del_add hnot] at hrep'
    exact ⟨head'', m'', hdel, sameAnswers_of_represents h hrep' hkeys⟩

/-- The table is made and freed again. -/
theorem insertion_undone_sample : ∃ head m head' m',
    hashAddKeyptr jenkins 32 none [97] 0 (oneElement [97]) = .ok (head, m) ∧
      hashDelete head 0 m = .ok (head', m') ∧
      SameAnswers id jenkins (oneElement [97]) none m' head' := by
  obtain ⟨head, m, hok, -⟩ := oneInserted
  obtain ⟨head', m', hdel, hsame⟩ := insertion_undone (c := (⟨0, [97]⟩ : Cell (List UInt8)))
    (oneElement_represents [97]) List.nodup_nil List.not_mem_nil rfl (by decide) (by decide)
    (by decide) hok
  exact ⟨head, m, head', m', hok, hdel, hsame⟩

end Answers

section Load

variable {α : Type} {keyOf : α → List UInt8} {hash : List UInt8 → UInt32} {m : Memory α}
  {head : Option ℕ} {cells : List (Cell α)} {t : ℕ} {tbl : UTHashTable}
  {bkts : List UTHashBucket} {chains : ℕ → List ℕ} {l : Links α} {n : UInt32} {bs : List ℕ}

/-- The load of a table with an array of buckets. -/
structure Load (tbl : UTHashTable) (bkts : List UTHashBucket) : Prop where
  /-- The table knows the length of the array, a power of two. -/
  size : bkts.length = tbl.numBuckets.toNat ∧ tbl.numBuckets.toNat = 2 ^ tbl.log2NumBuckets.toNat
  /-- The buckets count all items. -/
  items : (bkts.map (fun bkt => bkt.count.toNat)).sum = tbl.numItems.toNat
  /-- While the table still expands, the items are fewer than twenty for each bucket. -/
  average : tbl.noexpand ≠ 1 → tbl.numItems.toNat ≤ 19 * bkts.length
  /-- While it does, no chain passes its own threshold. -/
  longest : tbl.noexpand ≠ 1 →
    ∀ bkt ∈ bkts, bkt.count.toNat ≤ 10 * (bkt.expandMult.toNat + 1)

/-- The counters of the buckets are the lengths of the chains. -/
theorem count_eq (h : Buckets l n bkts chains bs) (hfew : bs.length < 2 ^ 32) {i : ℕ}
    (hi : i < bkts.length) : bkts[i].count.toNat = (chains i).length := by
  have hin : i < n.toNat := h.size ▸ hi
  have hheld := h.held i bkts[i] (List.getElem?_eq_getElem hi)
  rw [hheld.count, UInt32.toNat_ofNat_of_lt' (lt_of_le_of_lt (h.sorted.length_le hin) hfew)]

/-- A sum over the buckets is a sum over the chains. -/
theorem sum_counts (h : Buckets l n bkts chains bs) (hfew : bs.length < 2 ^ 32) (g : ℕ → ℕ) :
    (bkts.map (fun bkt => g bkt.count.toNat)).sum =
      ∑ i ∈ Finset.range n.toNat, g (chains i).length := by
  rw [← h.size, Finset.sum_range, ← List.sum_ofFn]
  congr 1
  refine List.ext_getElem (by simp only [List.length_map, List.length_ofFn]) ?_
  intro i hi hi'
  rw [List.getElem_map, List.getElem_ofFn, count_eq h hfew]

/-- The load of a table that represents cells. -/
theorem layout_load (h : Layout keyOf hash m head cells t tbl bkts chains) : Load tbl bkts := by
  have hfew : (blocks cells).length < 2 ^ 32 := by
    rw [length_blocks]
    exact h.few
  have hsum : ∑ i ∈ Finset.range tbl.numBuckets.toNat, (chains i).length = tbl.numItems.toNat := by
    rw [h.sorted.sum_length (fun _ _ => hashToBkt_lt _ h.buckets_pos), length_blocks, h.items,
      UInt32.toNat_ofNat_of_lt' h.few]
  have hcap : HASH_BKT_CAPACITY_THRESH.toNat = 10 := rfl
  refine ⟨⟨h.size, h.power⟩, ?_, ?_, ?_⟩
  · rw [sum_counts h.toBuckets hfew (fun k => k), hsum]
  · intro hexpands
    have hitems := (h.balanced hexpands).items (by rw [hcap]; omega)
    rw [hsum, hcap] at hitems
    rw [h.size]
    exact hitems
  · intro hexpands bkt hbkt
    obtain ⟨i, hi, rfl⟩ := List.mem_iff_getElem.mp hbkt
    have hin : i < tbl.numBuckets.toNat := h.size ▸ hi
    have hchain := (h.balanced hexpands).chain i hin
    have hmult : multAt bkts i = bkts[i].expandMult.toNat := by
      rw [multAt, List.getElem?_eq_getElem hi, Option.map_some, Option.getD_some]
    have hone : brimful 10 (chains i).length (multAt bkts i) ≤ 1 := by
      unfold brimful
      split_ifs
      · exact le_rfl
      · exact Nat.zero_le _
    rw [hcap, hmult] at hchain
    rw [hmult] at hone
    rw [count_eq h.toBuckets hfew hi]
    omega

/-- What the fields of a table say after an expansion. -/
structure Expanded (tbl tbl' : UTHashTable) (bkts' : List UTHashBucket) : Prop where
  /-- There are twice as many buckets. -/
  doubled : tbl'.numBuckets.toNat = 2 * tbl.numBuckets.toNat
  /-- The ideal length is the number of items for each bucket, rounded up. -/
  ideal : tbl'.idealChainMaxlen.toNat = idealLength tbl.numItems.toNat bkts'.length
  /-- A chain beyond it may grow by its own multiple of it. -/
  mult : ∀ bkt ∈ bkts', bkt.expandMult.toNat =
    if tbl'.idealChainMaxlen.toNat < bkt.count.toNat
    then bkt.count.toNat / tbl'.idealChainMaxlen.toNat else 0
  /-- The items beyond it are counted. -/
  nonideal : tbl'.nonidealItems.toNat =
    (bkts'.map (fun bkt => bkt.count.toNat - tbl'.idealChainMaxlen.toNat)).sum

/-- An expansion that is granted fewer than 2^31 buckets is defined, changes no answer, and
leaves the counters that the next decision about expanding rests on exact. -/
theorem expansion_answers (h : Layout keyOf hash m head cells t tbl bkts chains)
    (hkeys : DistinctKeys keyOf cells) (hne : cells ≠ []) (hexpands : tbl.noexpand ≠ 1)
    {room : ℕ} (hroom : room < 2 ^ 31) :
    hashExpandBuckets room t m = .error .outOfMemory ∨
      ∃ m' tbl' bkts', hashExpandBuckets room t m = .ok m' ∧
        SameAnswers keyOf hash m head m' head ∧ m'.tables.read t = .ok tbl' ∧
        m'.arrays.read tbl'.buckets = .ok bkts' ∧ Expanded tbl tbl' bkts' := by
  have hload := (layout_load h).average hexpands
  have hitems : tbl.numItems.toNat = cells.length := by
    rw [h.items, UInt32.toNat_ofNat_of_lt' h.few]
  rw [h.size, hitems] at hload
  rcases hashExpandBuckets_spec h.toSpine h.toBuckets hne (by omega) hroom with
    herr | ⟨m', bkts', chains', ideal, nonideal, array, hok, hlayout, hspread, -⟩
  · exact Or.inl herr
  have hdouble : (tbl.expanded ideal nonideal array).numBuckets.toNat =
      2 * tbl.numBuckets.toNat := doubled_toNat h.modest
  have hfew : (blocks cells).length < 2 ^ 32 := by
    rw [length_blocks]
    exact h.few
  have hsum : ∑ i ∈ Finset.range (2 * tbl.numBuckets.toNat), (chains' i).length =
      cells.length := by
    rw [← hdouble, hlayout.sorted.sum_length (fun _ _ => hashToBkt_lt _ hlayout.buckets_pos),
      length_blocks]
  have hless : ∑ i ∈ Finset.range (2 * tbl.numBuckets.toNat),
      ((chains' i).length - ideal.toNat) < 2 ^ 32 := by
    refine lt_of_le_of_lt (Finset.sum_le_sum (fun i _ => Nat.sub_le _ _)) ?_
    rw [hsum]
    exact h.few
  refine Or.inr ⟨m', tbl.expanded ideal nonideal array, bkts', hok,
    sameAnswers_of_represents (Or.inr ⟨hne, t, tbl, bkts, chains, h⟩)
      (Or.inr ⟨hne, t, _, bkts', chains', hlayout⟩) hkeys,
    Region.read_of_cell (by rw [hlayout.table, Function.update_self]), hlayout.read_array,
    hdouble, ?_, ?_, ?_⟩
  · rw [hlayout.size, hdouble]
    exact hspread.ideal_eq
  · intro bkt hbkt
    have hideal : (tbl.expanded ideal nonideal array).idealChainMaxlen = ideal := rfl
    rw [hspread.mult bkt hbkt, hideal, chainMult]
    by_cases hlong : ideal.toNat < bkt.count.toNat
    · rw [if_pos hlong, if_pos (UInt32.lt_iff_toNat_lt.mpr hlong), UInt32.toNat_div]
    · rw [if_neg hlong, if_neg (mt UInt32.lt_iff_toNat_lt.mp hlong)]
      rfl
  · have hcount : (tbl.expanded ideal nonideal array).nonidealItems = nonideal := rfl
    have hideal : (tbl.expanded ideal nonideal array).idealChainMaxlen = ideal := rfl
    rw [hcount, hideal, sum_counts hlayout.toBuckets hfew (fun k => k - ideal.toNat), hdouble,
      hspread.nonideal_eq, UInt32.toNat_ofNat_of_lt' hless]

/-- A table of one element gets 64 buckets. -/
theorem expansion_answers_sample : ∃ head m t m',
    hashAddKeyptr jenkins 32 none [97] 0 (oneElement [97]) = .ok (head, m) ∧
      (hashExpandBuckets 64 t m = .error .outOfMemory ∨
        hashExpandBuckets 64 t m = .ok m' ∧ SameAnswers id jenkins m head m' head) := by
  obtain ⟨head, m, hok, hrep⟩ := oneInserted
  have hevaluated : (hashAddKeyptr jenkins 32 none [97] 0 (oneElement [97])).map
      (fun out => out.2.tables.cell 0) = .ok (some ⟨0, 32, 5, 1, some 0, 0, 0, 0, 0⟩) := rfl
  rw [hok] at hevaluated
  have htable : m.tables.cell 0 = some ⟨0, 32, 5, 1, some 0, 0, 0, 0, 0⟩ :=
    Except.ok.inj hevaluated
  rcases hrep with ⟨hnil, -, -⟩ | ⟨hne, t, tbl, bkts, chains, h⟩
  · cases hnil
  rw [h.table] at htable
  have hexpands : tbl.noexpand ≠ 1 := by
    by_cases ht : 0 = t
    · rw [← ht, Function.update_self] at htable
      rw [Option.some.inj htable]
      decide
    · rw [Function.update_of_ne ht] at htable
      cases htable
  rcases expansion_answers h (List.nodup_singleton _) hne hexpands
    (show 64 < 2 ^ 31 by decide) with herr | ⟨m', tbl', bkts', hexpand, hsame, -⟩
  · exact ⟨head, m, t, m, hok, Or.inl herr⟩
  · exact ⟨head, m, t, m', hok, Or.inr ⟨hexpand, hsame⟩⟩

/-- The load of the table behind a head. -/
theorem represents_load {b : ℕ} (h : Represents keyOf hash m (some b) cells) :
    ∃ t tbl bkts, m.tableOf b = .ok (t, tbl) ∧ m.arrays.read tbl.buckets = .ok bkts ∧
      tbl.numItems.toNat = cells.length ∧ Load tbl bkts := by
  rcases h with ⟨-, hhead, -⟩ | ⟨hne, t, tbl, bkts, chains, h⟩
  · cases hhead
  · obtain ⟨c, hc, hhead⟩ := h.head_of_ne_nil hne
    obtain rfl : b = c.block := Option.some.inj hhead
    refine ⟨t, tbl, bkts, h.tableOf hc, h.read_array, ?_, layout_load h⟩
    rw [h.items, UInt32.toNat_ofNat_of_lt' h.few]

end Load

end LazyFS.HashGuarantees
