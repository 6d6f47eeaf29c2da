import LazyFS.HashExpansion

/-!
# Insertion and deletion

An insertion appends the element in application order and pushes it onto the
chain of its bucket; a deletion takes it out of both. Either keeps the table
a representation of the list, whether it makes the table, expands it or frees
it. The only way to stop is the allocator running out of memory.
-/

namespace LazyFS.HashUpdates

open MemoryRegions LinkedCells LinkedChains SortedPiles ChainLoad HashTable HashLayout
  HashExpansion

section Values

variable {α : Type} {r r' r'' : Region (Element α)} {b : ℕ} {e : Element α}

/-- Every region has its own values. -/
theorem SameValues.refl (r : Region (Element α)) : SameValues r r := ⟨rfl, rfl⟩

/-- A write that keeps the program's fields. -/
theorem sameValues_modify {f : Element α → Element α} (h : r.modify b f = .ok r')
    (hf : ∀ e, (f e).value = e.value) : SameValues r r' := by
  cases hcell : r.cell b with
  | none =>
    unfold Region.modify at h
    split at h
    · next v hv =>
      rw [hcell] at hv
      cases hv
    · cases h
  | some e =>
    obtain ⟨r₁, hr₁, hupdate, hnext⟩ := Region.modify_of_cell hcell f
    rw [h] at hr₁
    cases hr₁
    exact ⟨Region.view_update_same hcell hupdate (hf e), hnext⟩

/-- A write that leaves the value alone keeps all values. -/
theorem sameValues_writeIfAny {p : Option ℕ} {f : Element α → Element α}
    (h : writeIfAny p f r = .ok r') (hf : ∀ e, (f e).value = e.value) : SameValues r r' := by
  cases p with
  | none =>
    cases h
    exact SameValues.refl r
  | some b => exact sameValues_modify h hf

/-- Values that are kept twice are kept. -/
theorem sameValues_trans (h : SameValues r r') (h' : SameValues r' r'') : SameValues r r'' :=
  ⟨h'.values.trans h.values, h'.next.trans h.next⟩

/-- The fields that an insertion writes first. -/
theorem modify_setKey (he : r.cell b = some e) (keylen : UInt32) :
    ∃ r', r.modify b (Element.setKey keylen) = .ok r' ∧
      links r' = { links r with
        next := Function.update (links r).next b (some none)
        core := Function.update (links r).core b
          (some ⟨e.value, e.hh.tbl, keylen, e.hh.hashv⟩) } := by
  obtain ⟨r', hr', hlinks⟩ := modify_links he (Element.setKey keylen)
  obtain ⟨-, hprev, hhn, hhp, -⟩ := update_links he
  have hcore : core (e.setKey keylen) = ⟨e.value, e.hh.tbl, keylen, e.hh.hashv⟩ := rfl
  refine ⟨r', hr', ?_⟩
  rw [hlinks, hcore]
  simp only [Element.setKey, hprev, hhn, hhp]

/-- Setting the table of an element changes its core alone. -/
theorem modify_setTbl (he : r.cell b = some e) (t : ℕ) :
    ∃ r', r.modify b (Element.setTbl t) = .ok r' ∧
      links r' = { links r with
        core := Function.update (links r).core b
          (some ⟨e.value, some t, e.hh.keylen, e.hh.hashv⟩) } := by
  obtain ⟨r', hr', hlinks⟩ := modify_links he (Element.setTbl t)
  obtain ⟨hnext, hprev, hhn, hhp, -⟩ := update_links he
  have hcore : core (e.setTbl t) = ⟨e.value, some t, e.hh.keylen, e.hh.hashv⟩ := rfl
  refine ⟨r', hr', ?_⟩
  rw [hlinks, hcore]
  simp only [Element.setTbl, hnext, hprev, hhn, hhp]

/-- Setting the hash value of an element changes its core alone. -/
theorem modify_setHashv (he : r.cell b = some e) (t : ℕ) (hashv : UInt32) :
    ∃ r', r.modify b (Element.setHashv t hashv) = .ok r' ∧
      links r' = { links r with
        core := Function.update (links r).core b
          (some ⟨e.value, some t, e.hh.keylen, hashv⟩) } := by
  obtain ⟨r', hr', hlinks⟩ := modify_links he (Element.setHashv t hashv)
  obtain ⟨hnext, hprev, hhn, hhp, -⟩ := update_links he
  have hcore : core (e.setHashv t hashv) = ⟨e.value, some t, e.hh.keylen, hashv⟩ := rfl
  refine ⟨r', hr', ?_⟩
  rw [hlinks, hcore]
  simp only [Element.setHashv, hnext, hprev, hhn, hhp]

end Values

section Insertion

variable {α : Type} {keyOf : α → List UInt8} {hash : List UInt8 → UInt32} {m : Memory α}
  {head : Option ℕ} {cells : List (Cell α)} {c : Cell α} {t : ℕ} {tbl : UTHashTable}
  {bkts : List UTHashBucket} {chains : ℕ → List ℕ}

/-- The block of an appended cell comes last. -/
theorem blocks_append (cells : List (Cell α)) (c : Cell α) :
    blocks (cells ++ [c]) = blocks cells ++ [c.block] := by
  simp only [blocks, List.map_append, List.map_cons, List.map_nil]

/-- A table after an element was appended in application order, before it is
counted and put into a bucket. -/
structure Joined (keyOf : α → List UInt8) (hash : List UInt8 → UInt32) (m : Memory α) (head : ℕ)
    (cells : List (Cell α)) (c : Cell α) (t : ℕ) (tbl : UTHashTable) (bkts : List UTHashBucket)
    (chains : ℕ → List ℕ) : Prop where
  /-- The head is the first element. -/
  head_eq : some head = (blocks (cells ++ [c])).head?
  /-- The head points to the table. -/
  found : m.tableOf head = .ok (t, tbl)
  /-- The table is the only one allocated. -/
  table : m.tables.cell = Function.update (fun _ => none) t (some tbl)
  /-- So is its array. -/
  array : m.arrays.cell = Function.update (fun _ => none) tbl.buckets (some bkts)
  /-- The elements hold the cells. -/
  cores : ∀ d ∈ cells, (links m.elements).core d.block = some (coreOf keyOf hash t d)
  /-- The new element holds its value and the length of its key. -/
  fresh : ∃ k, (links m.elements).core c.block = some k ∧ k.value = c.value ∧
    k.keylen = UInt32.ofNat (keyOf c.value).length
  /-- All are linked in order. -/
  ordered : Linked (links m.elements).next (links m.elements).prev (blocks (cells ++ [c]))
  /-- The tail is the new element. -/
  tail : tbl.tail = some c.block
  /-- It is not counted yet. -/
  items : tbl.numItems = UInt32.ofNat cells.length
  /-- The number of buckets is a power of two. -/
  power : tbl.numBuckets.toNat = 2 ^ tbl.log2NumBuckets.toNat
  /-- It can be doubled. -/
  modest : tbl.numBuckets.toNat < 2 ^ 31
  /-- The others are in their buckets. -/
  buckets : Buckets (links m.elements) tbl.numBuckets bkts chains (blocks cells)
  /-- While the table still expands, their chains are balanced. -/
  balanced : tbl.noexpand ≠ 1 → Balanced HASH_BKT_CAPACITY_THRESH.toNat tbl.numBuckets.toNat
    (fun i => (chains i).length) (multAt bkts)

/-- The links of the new element and of the old tail. -/
theorem linked_append {l : Links α} {b : ℕ} {bs : List ℕ} (h : Linked l.next l.prev bs)
    (hnodup : (bs ++ [b]).Nodup) :
    Linked (setLast (Function.update l.next b (some none)) bs (some b))
      (Function.update l.prev b (some bs.getLast?)) (bs ++ [b]) := h.append hnodup

/-- The first element makes the table. -/
theorem hashAppend_none (hash : List UInt8 → UInt32) (hvacant : Vacant m) {e : Element α}
    (he : m.elements.cell c.block = some e) (hvalue : e.value = c.value)
    (hkeylen : e.hh.keylen = UInt32.ofNat (keyOf c.value).length) (hnext : e.hh.next = none)
    (room : ℕ) :
    hashAppend room none c.block m = .error .outOfMemory ∨
      ∃ t tbl bkts chains m', hashAppend room none c.block m = .ok (c.block, m') ∧
        Joined keyOf hash m' c.block [] c t tbl bkts chains ∧
        SameValues m.elements m'.elements := by
  obtain ⟨r₁, hr₁, hl₁⟩ := modify_setPrev (Region.live_of_cell he) none
  obtain ⟨-, -, -, -, hcore⟩ := links_of_cell he
  have hcore₁ : (links r₁).core c.block = some (core e) := by rw [hl₁]; exact hcore
  obtain ⟨e₁, he₁, hec₁⟩ := Region.cell_of_view hcore₁
  obtain ⟨r₂, hr₂, hl₂⟩ := modify_setTbl he₁ m.tables.next
  by_cases hroom : HASH_INITIAL_NUM_BUCKETS.toNat ≤ room
  · right
    have hcore₂ : (links r₂).core c.block =
        some ⟨e.value, some m.tables.next, e.hh.keylen, e.hh.hashv⟩ := by
      have hv : e₁.value = e.value := congrArg Core.value hec₁
      have hk : e₁.hh.keylen = e.hh.keylen := congrArg Core.keylen hec₁
      have hh : e₁.hh.hashv = e.hh.hashv := congrArg Core.hashv hec₁
      rw [hl₂, hv, hk, hh]
      exact Function.update_self _ _ _
    have htable : (m.tables.alloc (UTHashTable.initial m.arrays.next c.block)).2.cell =
        Function.update (fun _ => none) m.tables.next
          (some (UTHashTable.initial m.arrays.next c.block)) := by
      simp only [Region.alloc, hvacant.tables]
    have harray : (m.arrays.alloc (List.replicate HASH_INITIAL_NUM_BUCKETS.toNat
        ⟨none, 0, 0⟩)).2.cell = Function.update (fun _ => none) m.arrays.next
          (some (List.replicate HASH_INITIAL_NUM_BUCKETS.toNat ⟨none, 0, 0⟩)) := by
      simp only [Region.alloc, hvacant.arrays]
    have hmodest : HASH_INITIAL_NUM_BUCKETS.toNat < 2 ^ 31 := by decide
    have hn₂ : (links r₂).next c.block = some none := by
      rw [hl₂, hl₁]
      exact (Region.view_of_cell _ he).trans (congrArg some hnext)
    have hp₂ : (links r₂).prev c.block = some none := by
      rw [hl₂, hl₁]
      exact Function.update_self _ _ _
    refine ⟨m.tables.next, UTHashTable.initial m.arrays.next c.block,
      List.replicate HASH_INITIAL_NUM_BUCKETS.toNat ⟨none, 0, 0⟩, fun _ => [],
      ⟨r₂, (m.tables.alloc (UTHashTable.initial m.arrays.next c.block)).2,
        (m.arrays.alloc (List.replicate HASH_INITIAL_NUM_BUCKETS.toNat ⟨none, 0, 0⟩)).2⟩,
      ?_, ?_, ?_⟩
    · simp only [hashAppend, hr₁, bind, Except.bind, hashMakeTable, zeroBuckets, if_pos hroom,
        Region.alloc, hr₂, pure, Except.pure]
    · refine ⟨rfl, tableOf_eq hcore₂ rfl ?_, htable, harray,
        fun _ hd => (List.not_mem_nil hd).elim, ⟨_, hcore₂, hvalue, hkeylen⟩,
        ⟨hp₂, hn₂, trivial⟩, rfl, rfl, rfl, hmodest, buckets_empty _ _, fun _ => ?_⟩
      · rw [htable, Function.update_self]
      · refine (balanced_start (by decide)).congr (fun _ _ => rfl) ?_
        intro i _
        cases hget : (List.replicate HASH_INITIAL_NUM_BUCKETS.toNat
          (⟨none, 0, 0⟩ : UTHashBucket))[i]? with
        | none => rw [multAt, hget]; rfl
        | some bkt =>
          obtain ⟨-, rfl⟩ := List.mem_replicate.mp (List.mem_of_getElem? hget)
          rw [multAt, hget]
          rfl
    · exact sameValues_trans (sameValues_modify hr₁ (fun _ => rfl))
        (sameValues_modify hr₂ (fun _ => rfl))
  · left
    simp only [hashAppend, hr₁, bind, Except.bind, hashMakeTable, zeroBuckets, if_neg hroom]

/-- A later element is linked behind the tail. -/
theorem hashAppend_some (h : Layout keyOf hash m head cells t tbl bkts chains) (hne : cells ≠ [])
    (hnot : c.block ∉ blocks cells) {e : Element α} (he : m.elements.cell c.block = some e)
    (hvalue : e.value = c.value) (hkeylen : e.hh.keylen = UInt32.ofNat (keyOf c.value).length)
    (hnext : e.hh.next = none) (room : ℕ) :
    ∃ h₀ tbl' m', hashAppend room head c.block m = .ok (h₀, m') ∧
      Joined keyOf hash m' h₀ cells c t tbl' bkts chains ∧ SameValues m.elements m'.elements := by
  obtain ⟨d, hd, rfl⟩ := h.head_of_ne_nil hne
  have hcell : m.tables.cell t = some tbl := by rw [h.table, Function.update_self]
  obtain ⟨tail, htail⟩ : ∃ tail, (blocks cells).getLast? = some tail := by
    refine ⟨_, List.getLast?_eq_some_getLast ?_⟩
    simpa only [blocks, ne_eq, List.map_eq_nil_iff] using hne
  have hlive : ∀ b ∈ blocks cells, m.elements.Live b := fun b hb => h.live hb
  obtain ⟨r₁, hr₁, hl₁⟩ := writeIfAny_setNext hlive (some c.block)
  rw [htail] at hr₁
  have hlive₁ : r₁.Live c.block := by
    rw [live_iff_core, hl₁]
    exact live_iff_core.mp (Region.live_of_cell he)
  obtain ⟨r₂, hr₂, hl₂⟩ := modify_setPrev hlive₁ (some tail)
  obtain ⟨tables, htables, hupdate, -⟩ := Region.modify_of_cell hcell
    (fun tbl : UTHashTable => { tbl with tail := some c.block })
  have hcores : (links r₂).core = (links m.elements).core := by rw [hl₂, hl₁]
  have htable : tables.cell =
      Function.update (fun _ => none) t (some { tbl with tail := some c.block }) := by
    rw [hupdate, h.table, Function.update_idem]
  have hcore₂ : (links r₂).core d.block = some (coreOf keyOf hash t d) := by
    rw [hcores]
    exact h.cores d hd
  refine ⟨d.block, { tbl with tail := some c.block }, ⟨r₂, tables, m.arrays⟩, ?_, ?_, ?_⟩
  · have hmodify : m.elements.modify tail (Element.setNext (some c.block)) = .ok r₁ := hr₁
    simp only [hashAppend, h.tableOf hd, bind, Except.bind, h.tail, htail, deref_some, hmodify, hr₂,
      htables, pure, Except.pure]
  · refine ⟨?_, ?_, htable, h.array, ?_, ?_, ?_, rfl, h.items, h.power, h.modest, ?_,
      h.balanced⟩
    · rw [blocks_append, h.head_eq, List.head?_append, ← h.head_eq]
      rfl
    · exact tableOf_eq hcore₂ rfl (by rw [htable, Function.update_self])
    · rw [hcores]
      exact h.cores
    · obtain ⟨-, -, -, -, hcore⟩ := links_of_cell he
      rw [hcores]
      exact ⟨core e, hcore, hvalue, hkeylen⟩
    · have hnodup : (blocks cells ++ [c.block]).Nodup := by
        refine List.nodup_append.mpr ⟨h.nodup, List.nodup_singleton _, ?_⟩
        intro x hx y hy hxy
        rw [List.mem_singleton.mp hy] at hxy
        exact hnot (hxy ▸ hx)
      have hfresh : Function.update (links m.elements).next c.block (some none) =
          (links m.elements).next := by
        obtain ⟨hn, -⟩ := update_links he
        rw [hnext] at hn
        exact hn
      have hlinked := linked_append h.ordered hnodup
      rw [hfresh, htail] at hlinked
      rw [blocks_append, hl₂, hl₁]
      exact hlinked
    · refine buckets_congr h.toBuckets ?_ ?_ ?_
      · intro b _
        rw [hl₂, hl₁]
      · intro b _
        rw [hl₂, hl₁]
      · intro b _
        rw [hcores]
  · exact sameValues_trans (sameValues_writeIfAny hr₁ (fun _ => rfl))
      (sameValues_modify hr₂ (fun _ => rfl))

/-- A layout's spine only depends on the fields and the application links. -/
theorem spine_of_links {m' : Memory α} {bkts' : List UTHashBucket}
    (h : Spine keyOf hash m head cells t tbl bkts)
    (hcore : (links m'.elements).core = (links m.elements).core)
    (hnext : (links m'.elements).next = (links m.elements).next)
    (hprev : (links m'.elements).prev = (links m.elements).prev)
    (htables : m'.tables.cell = m.tables.cell)
    (harray : m'.arrays.cell = Function.update (fun _ => none) tbl.buckets (some bkts')) :
    Spine keyOf hash m' head cells t tbl bkts' := by
  refine ⟨h.head_eq, htables.trans h.table, harray, ?_, ?_, h.tail, h.nodup, h.items, h.few,
    h.short, h.power, h.modest⟩
  · rw [hcore]
    exact h.cores
  · rw [hnext, hprev]
    exact h.ordered

/-- A threshold that wraps is below the one that does not. -/
theorem threshold_le (mult : UInt32) :
    ((mult + 1) * HASH_BKT_CAPACITY_THRESH).toNat ≤
      HASH_BKT_CAPACITY_THRESH.toNat * (mult.toNat + 1) := by
  have hone : (1 : UInt32).toNat = 1 := rfl
  rw [UInt32.toNat_mul, UInt32.toNat_add, hone, Nat.mul_comm HASH_BKT_CAPACITY_THRESH.toNat]
  refine (Nat.mod_le _ _).trans ?_
  exact Nat.mul_le_mul_right _ (Nat.mod_le _ _)

/-- The multipliers of an array with one bucket replaced. -/
theorem multAt_set {i : ℕ} {bkt : UTHashBucket} (bkt' : UTHashBucket) (hget : bkts[i]? = some bkt)
    (hsame : bkt'.expandMult = bkt.expandMult) (j : ℕ) :
    multAt (bkts.set i bkt') j = multAt bkts j := by
  by_cases hij : i = j
  · subst hij
    have hlt := (List.getElem?_eq_some_iff.mp hget).1
    rw [multAt, List.getElem?_set_self hlt, multAt, hget, Option.map_some, Option.map_some, hsame]
  · rw [multAt, List.getElem?_set_ne hij, multAt]

/-- The chains after an element was put in a bucket that need not expand. -/
theorem balanced_push {n : UInt32} {i b : ℕ} {bkt : UTHashBucket}
    (h : Balanced HASH_BKT_CAPACITY_THRESH.toNat n.toNat (fun i => (chains i).length)
      (multAt bkts))
    (hget : bkts[i]? = some bkt) (hcount : (bkt.count + 1).toNat = (chains i).length + 1)
    (hsmall : ¬ bkt.count + 1 ≥ (bkt.expandMult + 1) * HASH_BKT_CAPACITY_THRESH) :
    Balanced HASH_BKT_CAPACITY_THRESH.toNat n.toNat
      (fun j => (Function.update chains i (b :: chains i) j).length)
      (multAt (bkts.set i ⟨some b, bkt.count + 1, bkt.expandMult⟩)) := by
  have hmult : multAt bkts i = bkt.expandMult.toNat := by
    rw [multAt, hget, Option.map_some, Option.getD_some]
  have hlt : (chains i).length + 1 < HASH_BKT_CAPACITY_THRESH.toNat * (multAt bkts i + 1) := by
    rw [ge_iff_le, UInt32.le_iff_toNat_le, not_le, hcount] at hsmall
    rw [hmult]
    exact lt_of_lt_of_le hsmall (threshold_le _)
  refine (h.grow hlt).congr ?_
    (fun j _ => multAt_set ⟨some b, bkt.count + 1, bkt.expandMult⟩ hget rfl j)
  intro j _
  by_cases hji : j = i
  · rw [hji, Function.update_self, Function.update_self, List.length_cons]
  · rw [Function.update_of_ne hji, Function.update_of_ne hji]

/-- An element goes into its bucket, and the table expands if the bucket is full. -/
theorem hashAddToBkt_spec {cells : List (Cell α)} {i room : ℕ}
    (h : Spine keyOf hash m head (cells ++ [c]) t tbl bkts)
    (hb : Buckets (links m.elements) tbl.numBuckets bkts chains (blocks cells))
    (hbal : tbl.noexpand ≠ 1 → Balanced HASH_BKT_CAPACITY_THRESH.toNat tbl.numBuckets.toNat
      (fun i => (chains i).length) (multAt bkts))
    (hi : bktOf (links m.elements) tbl.numBuckets c.block = i) (hroom : room < 2 ^ 31) :
    hashAddToBkt room tbl.buckets i c.block m = .error .outOfMemory ∨
      ∃ m' tbl' bkts' chains', hashAddToBkt room tbl.buckets i c.block m = .ok m' ∧
        Layout keyOf hash m' head (cells ++ [c]) t tbl' bkts' chains' ∧
        SameValues m.elements m'.elements := by
  have hbkts := h.buckets_pos
  have hin : i < tbl.numBuckets.toNat := hi ▸ hashToBkt_lt _ hbkts
  have hc : c ∈ cells ++ [c] := List.mem_append_right cells (List.mem_singleton.mpr rfl)
  have hnodup : (blocks cells ++ [c.block]).Nodup := by
    rw [← blocks_append]
    exact h.nodup
  have hbs : (blocks cells).Nodup := (List.nodup_append.mp hnodup).1
  have hnot : c.block ∉ blocks cells := fun hmem =>
    (List.nodup_append.mp hnodup).2.2 _ hmem _ (List.mem_singleton.mpr rfl) rfl
  have hlen : (blocks (cells ++ [c])).length = (blocks cells).length + 1 := by
    rw [blocks_append, List.length_append, List.length_singleton]
  have hfew : (blocks cells).length + 1 < 2 ^ 32 := by
    rw [← hlen, length_blocks]
    exact h.few
  obtain ⟨bkt, hget, hnth, hholds⟩ := hb.nth hin
  have hpile := hb.sorted.length_le hin
  have hcount : (bkt.count + 1).toNat = (chains i).length + 1 := by
    have hone : (1 : UInt32).toNat = 1 := rfl
    rw [UInt32.toNat_add, hholds.count, hone,
      UInt32.toNat_ofNat_of_lt' (show (chains i).length < 2 ^ 32 by omega),
      Nat.mod_eq_of_lt (by omega)]
  -- The three writes to links and the write to the bucket.
  obtain ⟨r₁, hr₁, hl₁⟩ := modify_setHhNext (h.live (mem_blocks hc)) (chains i).head?
  have hlive₁ : r₁.Live c.block := by
    rw [live_iff_core, hl₁]
    exact live_iff_core.mp (h.live (mem_blocks hc))
  obtain ⟨r₂, hr₂, hl₂⟩ := modify_setHhPrev hlive₁ none
  have hlive₂ : ∀ d ∈ chains i, r₂.Live d := by
    intro d hd
    obtain ⟨⟨q, hq⟩, -⟩ := (hb.chained i hin).exists_links hd
    have hlive : m.elements.Live d := Region.live_of_view hq
    rw [live_iff_core, hl₂, hl₁]
    exact live_iff_core.mp hlive
  obtain ⟨r₃, hr₃, hl₃⟩ := writeIfAny_setHhPrev hlive₂ (some c.block)
  have hlinks : links r₃ = { links m.elements with
      hhNext := Function.update (links m.elements).hhNext c.block (some (chains i).head?)
      hhPrev := setFirst (Function.update (links m.elements).hhPrev c.block (some none)) (chains i)
        (some c.block) } := by
    rw [hl₃, hl₂, hl₁]
  have hread : m.arrays.cell tbl.buckets = some bkts := by rw [h.array, Function.update_self]
  obtain ⟨arrays, harrays, hupdate, -⟩ := Region.modify_of_cell hread
    (fun bkts => bkts.set i ⟨some c.block, bkt.count + 1, bkt.expandMult⟩)
  have hspine : Spine keyOf hash ⟨r₃, m.tables, arrays⟩ head (cells ++ [c]) t tbl
      (bkts.set i ⟨some c.block, bkt.count + 1, bkt.expandMult⟩) := by
    refine spine_of_links h (by rw [hlinks]) (by rw [hlinks]) (by rw [hlinks]) rfl ?_
    rw [hupdate, h.array, Function.update_idem]
  have hbuckets : Buckets (links r₃) tbl.numBuckets
      (bkts.set i ⟨some c.block, bkt.count + 1, bkt.expandMult⟩)
      (Function.update chains i (c.block :: chains i)) (blocks (cells ++ [c])) := by
    rw [hlinks, blocks_append]
    exact buckets_perm (buckets_push hb hbkts hbs hnot hi hget _)
      (List.perm_append_singleton _ _).symm
  have hsame : SameValues m.elements r₃ :=
    sameValues_trans (sameValues_modify hr₁ (fun _ => rfl))
      (sameValues_trans (sameValues_modify hr₂ (fun _ => rfl))
        (sameValues_writeIfAny hr₃ (fun _ => rfl)))
  have hrun : hashAddToBkt room tbl.buckets i c.block m =
      if bkt.count + 1 ≥ (bkt.expandMult + 1) * HASH_BKT_CAPACITY_THRESH ∧ tbl.noexpand ≠ 1 then
        hashExpandBuckets room t ⟨r₃, m.tables, arrays⟩
      else .ok ⟨r₃, m.tables, arrays⟩ := by
    simp only [hashAddToBkt, h.read_array, bind, Except.bind, hnth, hholds.head, hr₁, hr₂, hr₃,
      harrays, hspine.tableOf hc, pure, Except.pure]
  rw [hrun]
  by_cases hfull : bkt.count + 1 ≥ (bkt.expandMult + 1) * HASH_BKT_CAPACITY_THRESH ∧
      tbl.noexpand ≠ 1
  · rw [if_pos hfull]
    have hload : (cells ++ [c]).length ≤ 20 * tbl.numBuckets.toNat := by
      have hitems := (hbal hfull.2).items (by decide)
      have hsum := hb.sorted.sum_length (fun _ _ => hashToBkt_lt _ hbkts)
      have hcap : 2 * HASH_BKT_CAPACITY_THRESH.toNat - 1 = 19 := rfl
      rw [hsum, hcap, length_blocks] at hitems
      rw [List.length_append, List.length_singleton]
      omega
    have hne : cells ++ [c] ≠ [] := List.ne_nil_of_mem hc
    rcases hashExpandBuckets_spec hspine hbuckets hne hload hroom with
      herr | ⟨m', bkts', chains', ideal, nonideal, array, hok, hlayout, -, hvalues⟩
    · exact Or.inl herr
    · exact Or.inr ⟨m', _, bkts', chains', hok, hlayout, sameValues_trans hsame hvalues⟩
  · rw [if_neg hfull]
    refine Or.inr ⟨_, tbl, _, _, rfl, ⟨hspine, hbuckets, ?_⟩, hsame⟩
    intro hexpand
    exact balanced_push (hbal hexpand) hget hcount (fun hge => hfull ⟨hge, hexpand⟩)

/-- A counted element with its hash is part of the table's spine. -/
theorem spine_of_joined {h₀ : ℕ} (h : Joined keyOf hash m h₀ cells c t tbl bkts chains)
    (hnodup : (blocks (cells ++ [c])).Nodup) (hshort : ∀ d ∈ cells ++ [c],
      (keyOf d.value).length < 2 ^ 32) (hfew : cells.length + 1 < 2 ^ 32) :
    ∃ tables elements, m.tables.modify t (fun tbl => { tbl with numItems := tbl.numItems + 1 }) =
        .ok tables ∧
      m.elements.modify c.block (Element.setHashv t (hash (keyOf c.value))) = .ok elements ∧
      Spine keyOf hash ⟨elements, tables, m.arrays⟩ (some h₀) (cells ++ [c]) t
        { tbl with numItems := tbl.numItems + 1 } bkts ∧
      Buckets (links elements) tbl.numBuckets bkts chains (blocks cells) ∧
      SameValues m.elements elements := by
  have hcell : m.tables.cell t = some tbl := by rw [h.table, Function.update_self]
  obtain ⟨tables, htables, hupdate, -⟩ := Region.modify_of_cell hcell
    (fun tbl : UTHashTable => { tbl with numItems := tbl.numItems + 1 })
  obtain ⟨k, hk, hvalue, hkeylen⟩ := h.fresh
  obtain ⟨e, he, rfl⟩ := Region.cell_of_view hk
  obtain ⟨elements, helements, hlinks⟩ := modify_setHashv he t (hash (keyOf c.value))
  have hnot : ∀ d ∈ cells, d.block ≠ c.block := by
    rw [blocks_append] at hnodup
    intro d hd
    exact (List.nodup_append.mp hnodup).2.2 _ (mem_blocks hd) _ (List.mem_singleton.mpr rfl)
  have hnew : (links elements).core c.block = some (coreOf keyOf hash t c) := by
    have hv : e.value = c.value := hvalue
    have hl : e.hh.keylen = UInt32.ofNat (keyOf c.value).length := hkeylen
    rw [hlinks, coreOf, hv, hl]
    exact Function.update_self _ _ _
  have hold : ∀ d ∈ cells, (links elements).core d.block = (links m.elements).core d.block := by
    intro d hd
    rw [hlinks]
    exact Function.update_of_ne (hnot d hd) _ _
  refine ⟨tables, elements, htables, helements, ?_, ?_, sameValues_modify helements fun _ => rfl⟩
  · refine ⟨h.head_eq, ?_, h.array, ?_, ?_, ?_, hnodup, ?_, ?_, hshort, h.power, h.modest⟩
    · rw [hupdate, h.table, Function.update_idem]
    · intro d hd
      rcases List.mem_append.mp hd with hd | hd
      · rw [hold d hd]
        exact h.cores d hd
      · rw [List.mem_singleton.mp hd]
        exact hnew
    · rw [hlinks]
      exact h.ordered
    · rw [blocks_append, List.getLast?_concat]
      exact h.tail
    · rw [List.length_append, List.length_singleton, UInt32.ofNat_add, UInt32.ofNat_one, ← h.items]
    · rw [List.length_append, List.length_singleton]
      exact hfew
  · refine buckets_congr h.buckets (fun b _ => by rw [hlinks]) (fun b _ => by rw [hlinks]) ?_
    intro b hb
    obtain ⟨d, hd, rfl⟩ := List.mem_map.mp hb
    rw [hold d hd]

/-- An insertion appends a cell, unless memory runs out. -/
theorem hashAddKeyptr_spec (h : Represents keyOf hash m head cells)
    (hnot : c.block ∉ blocks cells)
    (hvalue : m.elements.view Element.value c.block = some c.value)
    (hshort : (keyOf c.value).length < 2 ^ 32) (hfew : cells.length + 1 < 2 ^ 32) {room : ℕ}
    (hroom : room < 2 ^ 31) :
    hashAddKeyptr hash room head (keyOf c.value) c.block m = .error .outOfMemory ∨
      ∃ head' m', hashAddKeyptr hash room head (keyOf c.value) c.block m = .ok (head', m') ∧
        Represents keyOf hash m' head' (add cells c) ∧ SameValues m.elements m'.elements := by
  obtain ⟨e, he, hev⟩ := Region.cell_of_view hvalue
  obtain ⟨r₁, hr₁, hl₁⟩ := modify_setKey he (UInt32.ofNat (keyOf c.value).length)
  have hcore₁ : (links r₁).core c.block =
      some ⟨e.value, e.hh.tbl, UInt32.ofNat (keyOf c.value).length, e.hh.hashv⟩ := by
    rw [hl₁]
    exact Function.update_self _ _ _
  obtain ⟨e₁, he₁, hec₁⟩ := Region.cell_of_view hcore₁
  have hvalue₁ : e₁.value = c.value := (congrArg Core.value hec₁).trans hev
  have hkeylen₁ : e₁.hh.keylen = UInt32.ofNat (keyOf c.value).length := congrArg Core.keylen hec₁
  have hnext₁ : e₁.hh.next = none := by
    have hview : (links r₁).next c.block = some none := by
      rw [hl₁]
      exact Function.update_self _ _ _
    exact Option.some.inj ((Region.view_of_cell _ he₁).symm.trans hview)
  have hsame₁ : SameValues m.elements r₁ := sameValues_modify hr₁ (fun _ => rfl)
  -- The table with the new element at the end of the application order.
  have hjoined : hashAppend room head c.block ⟨r₁, m.tables, m.arrays⟩ = .error .outOfMemory ∨
      ∃ h₀ t tbl bkts chains m', hashAppend room head c.block ⟨r₁, m.tables, m.arrays⟩ =
          .ok (h₀, m') ∧ Joined keyOf hash m' h₀ cells c t tbl bkts chains ∧
        SameValues r₁ m'.elements := by
    rcases h with ⟨rfl, rfl, hvacant⟩ | ⟨hne, t, tbl, bkts, chains, h⟩
    · have hv : Vacant (⟨r₁, m.tables, m.arrays⟩ : Memory α) := ⟨hvacant.tables, hvacant.arrays⟩
      rcases hashAppend_none hash hv he₁ hvalue₁ hkeylen₁ hnext₁ room with
        herr | ⟨t, tbl, bkts, chains, m', hok, hj, hs⟩
      · exact Or.inl herr
      · exact Or.inr ⟨_, t, tbl, bkts, chains, m', hok, hj, hs⟩
    · have hold : ∀ b ∈ blocks cells, (links r₁).core b = (links m.elements).core b := by
        rw [hl₁]
        exact update_of_notMem hnot _
      have hl : Layout keyOf hash ⟨r₁, m.tables, m.arrays⟩ head cells t tbl bkts chains := by
        refine ⟨⟨h.head_eq, h.table, h.array, ?_, ?_, h.tail, h.nodup, h.items, h.few, h.short,
          h.power, h.modest⟩, ?_, h.balanced⟩
        · intro d hd
          rw [hold _ (mem_blocks hd)]
          exact h.cores d hd
        · rw [hl₁]
          exact h.ordered.congr (update_of_notMem hnot _) (fun _ _ => rfl)
        · refine buckets_congr h.toBuckets (fun b _ => by rw [hl₁]) (fun b _ => by rw [hl₁]) ?_
          intro b hb
          rw [hold b hb]
      obtain ⟨h₀, tbl', m', hok, hj, hs⟩ :=
        hashAppend_some hl hne hnot he₁ hvalue₁ hkeylen₁ hnext₁ room
      exact Or.inr ⟨h₀, t, tbl', bkts, chains, m', hok, hj, hs⟩
  have hnodup : (blocks (cells ++ [c])).Nodup := by
    rw [blocks_append]
    refine List.nodup_append.mpr ⟨?_, List.nodup_singleton _, ?_⟩
    · rcases h with ⟨rfl, -, -⟩ | ⟨-, t, tbl, bkts, chains, h⟩
      · exact List.nodup_nil
      · exact h.nodup
    · intro x hx y hy hxy
      rw [List.mem_singleton.mp hy] at hxy
      exact hnot (hxy ▸ hx)
  have hshorts : ∀ d ∈ cells ++ [c], (keyOf d.value).length < 2 ^ 32 := by
    intro d hd
    rcases List.mem_append.mp hd with hd | hd
    · rcases h with ⟨rfl, -, -⟩ | ⟨-, t, tbl, bkts, chains, h⟩
      · exact (List.not_mem_nil hd).elim
      · exact h.short d hd
    · rw [List.mem_singleton.mp hd]
      exact hshort
  rcases hjoined with herr | ⟨h₀, t, tbl, bkts, chains, m₂, hok₂, hj, hs₂⟩
  · left
    simp only [hashAddKeyptr, hr₁, bind, Except.bind, herr]
  · obtain ⟨tables, elements, htables, helements, hspine, hbuckets, hs₃⟩ :=
      spine_of_joined hj hnodup hshorts hfew
    have hin : c ∈ cells ++ [c] := List.mem_append_right cells (List.mem_singleton.mpr rfl)
    have hadd := hashAddToBkt_spec hspine hbuckets hj.balanced (hspine.bktOf_block hin _) hroom
    have hrun : hashAddKeyptr hash room head (keyOf c.value) c.block m =
        (hashAddToBkt room tbl.buckets (hashToBkt (hash (keyOf c.value)) tbl.numBuckets) c.block
          ⟨elements, tables, m₂.arrays⟩).map (fun m => (some h₀, m)) := by
      simp only [hashAddKeyptr, hr₁, bind, Except.bind, hok₂, hj.found, htables, helements, pure,
        Except.pure]
      cases hashAddToBkt room tbl.buckets (hashToBkt (hash (keyOf c.value)) tbl.numBuckets) c.block
        ⟨elements, tables, m₂.arrays⟩ <;> rfl
    rw [hrun]
    rcases hadd with herr | ⟨m', tbl', bkts', chains', hok, hlayout, hs₄⟩
    · exact Or.inl (congrArg (Except.map (fun m => (some h₀, m))) herr)
    · refine Or.inr ⟨some h₀, m', congrArg (Except.map (fun m => (some h₀, m))) hok, ?_, ?_⟩
      · exact Or.inr ⟨List.ne_nil_of_mem hin, t, tbl', bkts', chains', hlayout⟩
      · exact sameValues_trans hsame₁ (sameValues_trans hs₂ (sameValues_trans hs₃ hs₄))

end Insertion

end LazyFS.HashUpdates
