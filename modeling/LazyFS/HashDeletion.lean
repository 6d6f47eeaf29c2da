import LazyFS.HashUpdates

/-!
# Deletion

A deletion points the neighbours of an element at each other, in application
order and in its bucket, and moves the head or the tail when it was there.
The last element takes the table and its array with it, so a table is
allocated exactly as long as it holds something.
-/

namespace LazyFS.HashDeletion

open MemoryRegions LinkedCells LinkedChains SortedPiles ChainLoad HashTable HashLayout
  HashExpansion HashUpdates

section Buckets

variable {α : Type} {l : Links α} {n : UInt32} {bkts : List UTHashBucket}
  {chains : ℕ → List ℕ} {bs us vs : List ℕ} {b i : ℕ} {bkt : UTHashBucket}

/-- An element leaves the chain of its bucket. -/
theorem buckets_erase (h : Buckets l n bkts chains bs) (hbs : bs.Nodup) (hin : i < n.toNat)
    (hi : bktOf l n b = i) (hget : bkts[i]? = some bkt) (hchain : chains i = us ++ b :: vs) :
    Buckets { l with
        hhNext := setLast l.hhNext us vs.head?
        hhPrev := setFirst l.hhPrev vs us.getLast? }
      n (bkts.set i ⟨(us ++ vs).head?, bkt.count - 1, bkt.expandMult⟩)
      (Function.update chains i (us ++ vs)) (bs.erase b) := by
  have hnodup : (us ++ b :: vs).Nodup := hchain ▸ h.sorted.nodup hbs hin
  have hmem : ∀ j < n.toNat, ∀ c ∈ chains j, bktOf l n c = j :=
    fun j hj c hc => ((h.sorted.mem_iff hj).mp hc).2
  refine ⟨?_, ?_, ?_, ?_⟩
  · rw [List.length_set, h.size]
  · intro j bkt' hj
    rw [List.getElem?_set] at hj
    split_ifs at hj with hij hlt
    · cases hj
      subst hij
      rw [Function.update_self]
      refine ⟨rfl, ?_⟩
      have hlen : (chains i).length = (us ++ vs).length + 1 := by
        rw [hchain, List.length_append, List.length_append, List.length_cons]
        omega
      rw [(h.held _ _ hget).count, hlen, UInt32.ofNat_add, UInt32.ofNat_one, UInt32.add_sub_cancel]
    · rw [Function.update_of_ne (fun he => hij he.symm)]
      exact h.held j bkt' hj
  · intro j hj
    by_cases hji : j = i
    · rw [hji, Function.update_self]
      have hlinked := h.chained i hin
      rw [hchain] at hlinked
      exact hlinked.remove hnodup
    · rw [Function.update_of_ne hji]
      -- The patched nodes are in the chain of bucket `i` only.
      have hapart : ∀ c ∈ chains j, c ∉ chains i := fun c hc hc' =>
        hji ((hmem j hj c hc).symm.trans (hmem i hin c hc'))
      refine (h.chained j hj).congr ?_ ?_
      · intro c hc
        refine setLast_of_notMem (fun hus => hapart c hc ?_)
        rw [hchain]
        exact List.mem_append_left _ hus
      · intro c hc
        refine setFirst_of_notMem (fun hvs => hapart c hc ?_)
        rw [hchain]
        exact List.mem_append_right us (List.mem_cons_of_mem b hvs)
  · have herase := h.sorted.erase (b := b) hbs
    have hpile : (chains i).erase b = us ++ vs := by
      have hus : b ∉ us := fun hb => (List.nodup_append.mp hnodup).2.2 b hb b
        List.mem_cons_self rfl
      rw [hchain, List.erase_append_right _ hus, List.erase_cons_head]
    have hindex : bktOf l n b = i := hi
    rw [hindex, hpile] at herase
    exact herase

end Buckets

section Deletion

variable {α : Type} {keyOf : α → List UInt8} {hash : List UInt8 → UInt32} {m : Memory α}
  {head : Option ℕ} {cells xs ys : List (Cell α)} {c : Cell α} {t : ℕ} {tbl : UTHashTable}
  {bkts : List UTHashBucket} {chains : ℕ → List ℕ}

/-- The blocks of a list with a cell in its middle. -/
theorem blocks_middle (xs ys : List (Cell α)) (c : Cell α) :
    blocks (xs ++ c :: ys) = blocks xs ++ c.block :: blocks ys := by
  simp only [blocks, List.map_append, List.map_cons]

/-- Unlinking by address drops the cell in the middle. -/
theorem del_middle (hnodup : (blocks (xs ++ c :: ys)).Nodup) :
    del (xs ++ c :: ys) c.block = xs ++ ys := by
  rw [blocks_middle] at hnodup
  obtain ⟨-, hys, hdisj⟩ := List.nodup_append.mp hnodup
  have hx : ∀ d ∈ xs, d.block ≠ c.block := fun d hd =>
    hdisj _ (mem_blocks hd) _ List.mem_cons_self
  have hy : ∀ d ∈ ys, d.block ≠ c.block := by
    intro d hd he
    exact (List.nodup_cons.mp hys).1 (he ▸ mem_blocks hd)
  have hkeep : ∀ l : List (Cell α), (∀ d ∈ l, d.block ≠ c.block) →
      l.filter (fun d => d.block ≠ c.block) = l := by
    intro l hl
    rw [List.filter_eq_self]
    exact fun d hd => decide_eq_true (hl d hd)
  rw [del, List.filter_append, hkeep xs hx, List.filter_cons_of_neg (by simp only [ne_eq,
    not_true_eq_false, decide_false, Bool.false_eq_true, not_false_eq_true]), hkeep ys hy]

/-- The fields of an element that stands between two parts of the list. -/
theorem element_middle (h : Layout keyOf hash m head (xs ++ c :: ys) t tbl bkts chains) :
    ∃ e, m.elements.cell c.block = some e ∧ e.hh.prev = (blocks xs).getLast? ∧
      e.hh.next = (blocks ys).head? ∧ e.hh.hashv = hash (keyOf c.value) := by
  have hc : c ∈ xs ++ c :: ys := List.mem_append_right xs List.mem_cons_self
  have hordered := h.ordered
  rw [blocks_middle] at hordered
  obtain ⟨hprev, hnext⟩ := hordered.links
  obtain ⟨e, he, hcore⟩ := Region.cell_of_view (h.cores c hc)
  obtain ⟨hn, hp, -, -, -⟩ := links_of_cell he
  refine ⟨e, he, ?_, ?_, congrArg Core.hashv hcore⟩
  · rw [hprev] at hp
    exact (Option.some.inj hp).symm
  · rw [hnext] at hn
    exact (Option.some.inj hn).symm

/-- The tail moves to the last of the others. -/
theorem tail_moved (h : Layout keyOf hash m head (xs ++ c :: ys) t tbl bkts chains) :
    ∃ tables, moveTail c.block t tbl (blocks xs).getLast? m.tables = .ok tables ∧
      tables.cell = Function.update (fun _ => none) t
        (some { tbl with tail := (blocks (xs ++ ys)).getLast? }) := by
  have hnodup := h.nodup
  rw [blocks_middle] at hnodup
  have hcell : m.tables.cell t = some tbl := by rw [h.table, Function.update_self]
  have htail := h.tail
  rw [blocks_middle, List.getLast?_append, List.getLast?_cons] at htail
  cases ys with
  | nil =>
    obtain ⟨tables, htables, hupdate, -⟩ := Region.modify_of_cell hcell
      (fun tbl : UTHashTable => { tbl with tail := (blocks xs).getLast? })
    have hlast : some c.block = tbl.tail := htail.symm
    refine ⟨tables, ?_, ?_⟩
    · rw [moveTail, if_pos hlast, htables]
    · rw [hupdate, h.table, Function.update_idem, List.append_nil]
  | cons d ys =>
    have hlast : (blocks (d :: ys)).getLast? = tbl.tail := by
      rw [htail]
      simp only [blocks, List.map_cons, List.getLast?_cons, Option.getD_some, Option.some_or]
    have hnot : some c.block ≠ tbl.tail := by
      intro he
      rw [← hlast] at he
      exact (List.nodup_cons.mp (List.nodup_append.mp hnodup).2.1).1
        (List.mem_of_getLast? he.symm)
    have hsame : (blocks (xs ++ d :: ys)).getLast? = tbl.tail := by
      rw [blocks_middle, List.getLast?_append, ← hlast]
      simp only [blocks, List.map_cons, List.getLast?_cons, Option.some_or]
    refine ⟨m.tables, by rw [moveTail, if_neg hnot], ?_⟩
    rw [hsame, h.table]

/-- The application order is patched around the element. -/
theorem hashUnlink_spec (h : Layout keyOf hash m head (xs ++ c :: ys) t tbl bkts chains)
    {h₀ : ℕ} (hhead : head = some h₀) :
    ∃ r tables, hashUnlink h₀ c.block m =
        .ok ((blocks (xs ++ ys)).head?, ⟨r, tables, m.arrays⟩) ∧
      tables.cell = Function.update (fun _ => none) t
        (some { tbl with tail := (blocks (xs ++ ys)).getLast? }) ∧
      links r = { links m.elements with
        next := setLast (links m.elements).next (blocks xs) (blocks ys).head?
        prev := setFirst (links m.elements).prev (blocks ys) (blocks xs).getLast? } ∧
      SameValues m.elements r := by
  obtain ⟨e, he, hprev, hnext, -⟩ := element_middle h
  obtain ⟨tables, htables, hcell⟩ := tail_moved h
  have hnodup := h.nodup
  rw [blocks_middle] at hnodup
  obtain ⟨-, hys, hdisj⟩ := List.nodup_append.mp hnodup
  have hnotx : c.block ∉ blocks xs := fun hb => hdisj _ hb _ List.mem_cons_self rfl
  have hmem : ∀ d : Cell α, d ∈ xs ∨ d ∈ ys → d ∈ xs ++ c :: ys := by
    intro d hd
    rcases hd with hd | hd
    · exact List.mem_append_left _ hd
    · exact List.mem_append_right xs (List.mem_cons_of_mem c hd)
  have hlivex : ∀ b ∈ blocks xs, m.elements.Live b := by
    intro b hb
    rw [blocks, List.mem_map] at hb
    obtain ⟨d, hd, rfl⟩ := hb
    exact h.live (mem_blocks (hmem d (Or.inl hd)))
  obtain ⟨r₁, hr₁, hl₁⟩ := writeIfAny_setNext hlivex (blocks ys).head?
  have hlivey : ∀ b ∈ blocks ys, r₁.Live b := by
    intro b hb
    rw [blocks, List.mem_map] at hb
    obtain ⟨d, hd, rfl⟩ := hb
    rw [live_iff_core, hl₁]
    exact live_iff_core.mp (h.live (mem_blocks (hmem d (Or.inr hd))))
  -- The element itself is as before.
  obtain ⟨hn, hp, -, -, hcore⟩ := links_of_cell he
  have hcore₁ : (links r₁).core c.block = some (core e) := by
    rw [hl₁]
    exact hcore
  obtain ⟨e₁, he₁, -⟩ := Region.cell_of_view hcore₁
  obtain ⟨hn₁, hp₁, -, -, -⟩ := links_of_cell he₁
  have hnext₁ : e₁.hh.next = (blocks ys).head? := by
    rw [hl₁] at hn₁
    have hsame : setLast (links m.elements).next (blocks xs) (blocks ys).head? c.block =
        some e₁.hh.next := hn₁
    rw [setLast_of_notMem hnotx, hn, hnext] at hsame
    exact (Option.some.inj hsame).symm
  have hprev₁ : e₁.hh.prev = (blocks xs).getLast? := by
    rw [hl₁] at hp₁
    rw [← hprev]
    exact (Option.some.inj (hp.symm.trans hp₁)).symm
  obtain ⟨r₂, hr₂, hl₂⟩ := writeIfAny_setPrev hlivey (blocks xs).getLast?
  have hfirst : (if (blocks xs).getLast? = none then (blocks ys).head? else some h₀) =
      (blocks (xs ++ ys)).head? := by
    rw [← hhead, h.head_eq, blocks_middle]
    cases xs with
    | nil => simp only [blocks, List.map_nil, List.getLast?_nil, if_true, List.nil_append]
    | cons d xs =>
      simp only [blocks, List.map_cons, List.getLast?_cons, reduceCtorEq, if_false,
        List.cons_append, List.head?_cons, List.map_append]
  refine ⟨r₂, tables, ?_, hcell, ?_, ?_⟩
  · have hc₀ : m.tableOf h₀ = .ok (t, tbl) := by
      have hc : c ∈ xs ++ c :: ys := List.mem_append_right xs List.mem_cons_self
      obtain ⟨d, hd, hblock⟩ := h.head_of_ne_nil (List.ne_nil_of_mem hc)
      rw [hhead] at hblock
      rw [Option.some.inj hblock]
      exact h.tableOf hd
    simp only [hashUnlink, Region.read_of_cell he, bind, Except.bind, hc₀, hprev, htables, hnext,
      hr₁, Region.read_of_cell he₁, hnext₁, hprev₁, hr₂, hfirst, pure, Except.pure]
  · rw [hl₂, hl₁]
  · exact sameValues_trans (sameValues_writeIfAny hr₁ (fun _ => rfl))
      (sameValues_writeIfAny hr₂ (fun _ => rfl))

/-- An element leaves its bucket. -/
theorem hashDelInBkt_spec {del i array : ℕ} {e : Element α} {bs us vs : List ℕ} {n : UInt32}
    (hb : Buckets (links m.elements) n bkts chains bs) (hbs : bs.Nodup) (hin : i < n.toNat)
    (harray : m.arrays.cell array = some bkts) (he : m.elements.cell del = some e)
    (hi : bktOf (links m.elements) n del = i) (hchain : chains i = us ++ del :: vs) :
    ∃ r arrays bkt bkt', hashDelInBkt array i del m = .ok ⟨r, m.tables, arrays⟩ ∧
      arrays.cell = Function.update m.arrays.cell array (some (bkts.set i bkt')) ∧
      bkts[i]? = some bkt ∧ bkt'.expandMult = bkt.expandMult ∧
      links r = { links m.elements with
        hhNext := setLast (links m.elements).hhNext us vs.head?
        hhPrev := setFirst (links m.elements).hhPrev vs us.getLast? } ∧
      Buckets (links r) n (bkts.set i bkt') (Function.update chains i (us ++ vs)) (bs.erase del) ∧
      SameValues m.elements r := by
  obtain ⟨bkt, hget, hnth, hholds⟩ := hb.nth hin
  have hlinked := hb.chained i hin
  have hnodup := hb.sorted.nodup hbs hin
  rw [hchain] at hlinked hnodup
  obtain ⟨hprev, hnext⟩ := hlinked.links
  obtain ⟨-, hvs, hdisj⟩ := List.nodup_append.mp hnodup
  have hnotu : del ∉ us := fun hmem => hdisj _ hmem _ List.mem_cons_self rfl
  obtain ⟨-, -, hhn, hhp, hcore⟩ := links_of_cell he
  have hn₀ : e.hh.hhNext = vs.head? := (Option.some.inj (hnext.symm.trans hhn)).symm
  have hp₀ : e.hh.hhPrev = us.getLast? := (Option.some.inj (hprev.symm.trans hhp)).symm
  have hlive : ∀ b ∈ us ++ del :: vs, m.elements.Live b := by
    intro b hmem
    obtain ⟨⟨q, hq⟩, -⟩ := hlinked.exists_links hmem
    exact Region.live_of_view hq
  obtain ⟨r₁, hr₁, hl₁⟩ := writeIfAny_setHhNext
    (fun b hmem => hlive b (List.mem_append_left _ hmem)) vs.head?
  have hcore₁ : (links r₁).core del = some (core e) := by
    rw [hl₁]
    exact hcore
  obtain ⟨e₁, he₁, -⟩ := Region.cell_of_view hcore₁
  obtain ⟨-, -, hhn₁, hhp₁, -⟩ := links_of_cell he₁
  have hn₁ : e₁.hh.hhNext = vs.head? := by
    rw [hl₁] at hhn₁
    have hsame : setLast (links m.elements).hhNext us vs.head? del = some e₁.hh.hhNext := hhn₁
    rw [setLast_of_notMem hnotu, hnext] at hsame
    exact (Option.some.inj hsame).symm
  have hp₁ : e₁.hh.hhPrev = us.getLast? := by
    rw [hl₁] at hhp₁
    exact (Option.some.inj (hprev.symm.trans hhp₁)).symm
  obtain ⟨r₂, hr₂, hl₂⟩ := writeIfAny_setHhPrev (l := vs) (r := r₁) (fun b hmem => by
    rw [live_iff_core, hl₁]
    exact live_iff_core.mp
      (hlive b (List.mem_append_right us (List.mem_cons_of_mem del hmem)))) us.getLast?
  -- The head of the bucket moves only if the element was in front.
  have hhead : (if bkt.hhHead = some del then vs.head? else bkt.hhHead) = (us ++ vs).head? := by
    rw [hholds.head, hchain]
    cases us with
    | nil => simp only [List.nil_append, List.head?_cons, if_true]
    | cons u us =>
      have hne : u ≠ del := fun he => hnotu (he ▸ List.mem_cons_self)
      simp only [List.cons_append, List.head?_cons, Option.some.injEq, hne, if_false]
  obtain ⟨arrays, harrays, hupdate, -⟩ := Region.modify_of_cell harray
    (fun bkts => bkts.set i ⟨(us ++ vs).head?, bkt.count - 1, bkt.expandMult⟩)
  have hlinks : links r₂ = { links m.elements with
      hhNext := setLast (links m.elements).hhNext us vs.head?
      hhPrev := setFirst (links m.elements).hhPrev vs us.getLast? } := by
    rw [hl₂, hl₁]
  refine ⟨r₂, arrays, bkt, ⟨(us ++ vs).head?, bkt.count - 1, bkt.expandMult⟩, ?_, hupdate, hget, rfl,
    hlinks, ?_, ?_⟩
  · simp only [hashDelInBkt, Region.read_of_cell harray, bind, Except.bind, hnth,
      Region.read_of_cell he, hn₀, hhead, harrays, hp₀, hr₁, Region.read_of_cell he₁, hn₁, hp₁, hr₂,
      pure, Except.pure]
  · rw [hlinks]
    exact buckets_erase hb hbs hin hi hget hchain
  · exact sameValues_trans (sameValues_writeIfAny hr₁ (fun _ => rfl))
      (sameValues_writeIfAny hr₂ (fun _ => rfl))

/-- The last element takes the table with it. -/
theorem hashDelete_last (h : Layout keyOf hash m head [c] t tbl bkts chains) :
    ∃ m', hashDelete head c.block m = .ok (none, m') ∧ Vacant m' ∧
      SameValues m.elements m'.elements := by
  have hc : c ∈ [c] := List.mem_singleton.mpr rfl
  have hmiddle : Layout keyOf hash m head ([] ++ c :: []) t tbl bkts chains := h
  obtain ⟨e, he, hprev, hnext, -⟩ := element_middle hmiddle
  have hhead : head = some c.block := h.head_eq
  obtain ⟨arrays, harrays, hcell, -⟩ := Region.free_of_live
    (show m.arrays.Live tbl.buckets by rw [Region.Live, h.array, Function.update_self]; rfl)
  obtain ⟨tables, htables, hcell', -⟩ := Region.free_of_live
    (show m.tables.Live t by rw [Region.Live, h.table, Function.update_self]; rfl)
  have hlone : e.hh.prev = none ∧ e.hh.next = none := ⟨hprev, hnext⟩
  refine ⟨⟨m.elements, tables, arrays⟩, ?_, ⟨?_, ?_⟩, SameValues.refl _⟩
  · simp only [hashDelete, Region.read_of_cell he, bind, Except.bind, hhead, deref_some,
      if_pos hlone, h.tableOf hc, harrays, htables, pure, Except.pure]
  · rw [hcell', h.table, Function.update_idem]
    exact Function.update_eq_self _ _
  · rw [hcell, h.array, Function.update_idem]
    exact Function.update_eq_self _ _

/-- Any other element leaves a table of the others. -/
theorem hashDelete_middle (h : Layout keyOf hash m head (xs ++ c :: ys) t tbl bkts chains)
    (hne : xs ++ ys ≠ []) :
    ∃ head' m' tbl' bkts' chains', hashDelete head c.block m = .ok (head', m') ∧
      Layout keyOf hash m' head' (xs ++ ys) t tbl' bkts' chains' ∧
      SameValues m.elements m'.elements := by
  have hc : c ∈ xs ++ c :: ys := List.mem_append_right xs List.mem_cons_self
  have hmem : ∀ d ∈ xs ++ ys, d ∈ xs ++ c :: ys := by
    intro d hd
    rcases List.mem_append.mp hd with hd | hd
    · exact List.mem_append_left _ hd
    · exact List.mem_append_right xs (List.mem_cons_of_mem c hd)
  obtain ⟨h₀, hhead⟩ : ∃ h₀, head = some h₀ := by
    obtain ⟨d, -, hd⟩ := h.head_of_ne_nil (List.ne_nil_of_mem hc)
    exact ⟨d.block, hd⟩
  obtain ⟨e, he, hprev, hnext, hhashv⟩ := element_middle h
  have hnotlone : ¬ (e.hh.prev = none ∧ e.hh.next = none) := by
    intro hlone
    rw [hprev, hnext, List.getLast?_eq_none_iff, List.head?_eq_none_iff] at hlone
    simp only [blocks, List.map_eq_nil_iff] at hlone
    exact hne (by rw [hlone.1, hlone.2, List.append_nil])
  obtain ⟨r₁, tables, hunlink, htables, hl₁, hs₁⟩ := hashUnlink_spec h hhead
  -- The table is reached through the new head.
  obtain ⟨d, hd, hfirst⟩ : ∃ d ∈ xs ++ ys, (blocks (xs ++ ys)).head? = some d.block := by
    cases hcells : xs ++ ys with
    | nil => exact absurd hcells hne
    | cons d rest => exact ⟨d, List.mem_cons_self, rfl⟩
  have hcores : (links r₁).core = (links m.elements).core := by rw [hl₁]
  have htable : tables.cell t = some { tbl with tail := (blocks (xs ++ ys)).getLast? } := by
    rw [htables, Function.update_self]
  have hfound : (⟨r₁, tables, m.arrays⟩ : Memory α).tableOf d.block =
      .ok (t, { tbl with tail := (blocks (xs ++ ys)).getLast? }) := by
    refine tableOf_eq (k := coreOf keyOf hash t d) ?_ rfl htable
    rw [hcores]
    exact h.cores d (hmem d hd)
  -- The element in its chain.
  have hbkts := h.buckets_pos
  obtain ⟨i, hi⟩ : ∃ i, hashToBkt (hash (keyOf c.value)) tbl.numBuckets = i := ⟨_, rfl⟩
  have hin : i < tbl.numBuckets.toNat := hi ▸ hashToBkt_lt _ hbkts
  have hindex : bktOf (links m.elements) tbl.numBuckets c.block = i := by rw [h.bktOf_block hc, hi]
  have hbuckets : Buckets (links r₁) tbl.numBuckets bkts chains (blocks (xs ++ c :: ys)) := by
    refine buckets_congr h.toBuckets ?_ ?_ ?_ <;> intro b _ <;> rw [hl₁]
  obtain ⟨us, vs, hchain⟩ := List.append_of_mem
    ((h.sorted.mem_iff hin).mpr ⟨mem_blocks hc, hindex⟩)
  have hcore₁ : (links r₁).core c.block = some (core e) := by
    rw [hcores]
    exact (links_of_cell he).2.2.2.2
  obtain ⟨e₁, he₁, -⟩ := Region.cell_of_view hcore₁
  have hindex₁ : bktOf (links r₁) tbl.numBuckets c.block = i := by
    rw [bktOf, hcores, ← hindex, bktOf]
  have hread : m.arrays.cell tbl.buckets = some bkts := by rw [h.array, Function.update_self]
  obtain ⟨r₂, arrays, bkt, bkt', hdel, harrays, hget, hmult, hl₂, hbuckets₂, hs₂⟩ :=
    hashDelInBkt_spec (m := ⟨r₁, tables, m.arrays⟩) hbuckets h.nodup hin hread he₁ hindex₁ hchain
  obtain ⟨tables₂, htables₂, hupdate₂, -⟩ := Region.modify_of_cell htable
    (fun tbl : UTHashTable => { tbl with numItems := tbl.numItems - 1 })
  have hlen : (xs ++ c :: ys).length = (xs ++ ys).length + 1 := by
    rw [List.length_append, List.length_append, List.length_cons]
    omega
  have herase : (blocks (xs ++ c :: ys)).erase c.block = blocks (xs ++ ys) := by
    have hnodup := h.nodup
    rw [blocks_middle] at hnodup ⊢
    have hnot : c.block ∉ blocks xs := fun hb =>
      (List.nodup_append.mp hnodup).2.2 _ hb _ List.mem_cons_self rfl
    rw [List.erase_append_right _ hnot, List.erase_cons_head]
    simp only [blocks, List.map_append]
  refine ⟨(blocks (xs ++ ys)).head?, ⟨r₂, tables₂, arrays⟩,
    { tbl with tail := (blocks (xs ++ ys)).getLast?, numItems := tbl.numItems - 1 }, bkts.set i bkt',
    Function.update chains i (us ++ vs), ?_, ⟨⟨rfl, ?_, ?_, ?_, ?_, rfl, ?_, ?_, ?_, ?_, h.power,
    h.modest⟩, ?_, ?_⟩, sameValues_trans hs₁ hs₂⟩
  · simp only [hashDelete, Region.read_of_cell he, bind, Except.bind, hhead, deref_some,
      if_neg hnotlone, hunlink, hfirst, hfound, hhashv, hi, hdel, htables₂, pure, Except.pure]
  · rw [hupdate₂, htables, Function.update_idem]
  · rw [harrays, h.array, Function.update_idem]
  · intro d hd
    rw [hl₂, hcores]
    exact h.cores d (hmem d hd)
  · have hordered := h.ordered
    have hnodup := h.nodup
    rw [blocks_middle] at hordered hnodup
    have hremoved := hordered.remove hnodup
    have happend : blocks (xs ++ ys) = blocks xs ++ blocks ys := by
      simp only [blocks, List.map_append]
    rw [hl₂, hl₁, happend]
    exact hremoved
  · rw [← herase]
    exact h.nodup.erase _
  · have hitems := h.items
    rw [hlen, UInt32.ofNat_add, UInt32.ofNat_one] at hitems
    simp only [hitems, UInt32.add_sub_cancel]
  · have hfew := h.few
    omega
  · exact fun d hd => h.short d (hmem d hd)
  · rw [← herase]
    exact hbuckets₂
  · intro hexpand
    refine (h.balanced hexpand).shrink ?_ |>.congr (fun _ _ => rfl)
      (fun j _ => multAt_set bkt' hget hmult j)
    intro j _
    by_cases hji : j = i
    · rw [hji, Function.update_self, hchain, List.length_append, List.length_append,
        List.length_cons]
      omega
    · rw [Function.update_of_ne hji]

/-- A deletion removes the cell. -/
theorem hashDelete_spec (h : Represents keyOf hash m head cells) (hc : c ∈ cells) :
    ∃ head' m', hashDelete head c.block m = .ok (head', m') ∧
      Represents keyOf hash m' head' (del cells c.block) ∧ SameValues m.elements m'.elements := by
  rcases h with ⟨rfl, -, -⟩ | ⟨-, t, tbl, bkts, chains, h⟩
  · exact (List.not_mem_nil hc).elim
  · obtain ⟨xs, ys, rfl⟩ := List.append_of_mem hc
    rw [del_middle h.nodup]
    by_cases hne : xs ++ ys = []
    · obtain ⟨rfl, rfl⟩ := List.append_eq_nil_iff.mp hne
      obtain ⟨m', hok, hvacant, hs⟩ := hashDelete_last h
      exact ⟨none, m', hok, Or.inl ⟨rfl, rfl, hvacant⟩, hs⟩
    · obtain ⟨head', m', tbl', bkts', chains', hok, hlayout, hs⟩ := hashDelete_middle h hne
      exact ⟨head', m', hok, Or.inr ⟨hne, t, tbl', bkts', chains', hlayout⟩, hs⟩

end Deletion

end LazyFS.HashDeletion
