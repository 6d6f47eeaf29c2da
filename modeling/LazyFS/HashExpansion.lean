import LazyFS.HashLayout

/-!
# Bucket expansion

An expansion takes every element from its old chain and puts it in front of
the chain of its new bucket, so the elements stay in application order while
the order within the buckets changes. Its two counters describe the new
chains exactly: the items beyond the ideal length, and for each bucket the
multiple of the ideal length that its chain reaches. The ideal length is
never zero, so the division behind the multiplier is defined.
-/

namespace LazyFS.HashExpansion

open MemoryRegions LinkedCells LinkedChains SortedPiles ChainLoad HashTable HashLayout

section Chains

variable {α : Type} {l l' : Links α} {n : UInt32} {bkts : List UTHashBucket}
  {chains : ℕ → List ℕ} {bs bs' : List ℕ} {b i : ℕ} {bkt : UTHashBucket}

/-- Only the bucket links and the hashes of the elements matter. -/
theorem buckets_congr (h : Buckets l n bkts chains bs)
    (hnext : ∀ b ∈ bs, l'.hhNext b = l.hhNext b) (hprev : ∀ b ∈ bs, l'.hhPrev b = l.hhPrev b)
    (hhash : ∀ b ∈ bs, (l'.core b).map Core.hashv = (l.core b).map Core.hashv) :
    Buckets l' n bkts chains bs := by
  refine ⟨h.size, h.held, ?_, ?_⟩
  · intro i hi
    have hmem : ∀ b ∈ chains i, b ∈ bs := fun b hb => ((h.sorted.mem_iff hi).mp hb).1
    exact (h.chained i hi).congr (fun b hb => hnext b (hmem b hb)) (fun b hb => hprev b (hmem b hb))
  · refine h.sorted.congr ?_
    intro b hb
    rw [bktOf, bktOf, hhash b hb]

/-- Only which blocks were moved matters, not their order. -/
theorem buckets_perm (h : Buckets l n bkts chains bs) (hbs : bs.Perm bs') :
    Buckets l n bkts chains bs' := ⟨h.size, h.held, h.chained, h.sorted.perm hbs⟩

/-- An element goes to the front of the chain of its bucket. -/
theorem buckets_push (h : Buckets l n bkts chains bs) (hn : 0 < n.toNat) (hbs : bs.Nodup)
    (hb : b ∉ bs) (hi : bktOf l n b = i) (hbkt : bkts[i]? = some bkt) (mult : UInt32) :
    Buckets { l with
        hhNext := Function.update l.hhNext b (some (chains i).head?)
        hhPrev := setFirst (Function.update l.hhPrev b (some none)) (chains i) (some b) }
      n (bkts.set i ⟨some b, bkt.count + 1, mult⟩)
      (Function.update chains i (b :: chains i)) (b :: bs) := by
  have hin : i < n.toNat := hi ▸ hashToBkt_lt _ hn
  have hmem : ∀ j < n.toNat, ∀ c ∈ chains j, c ∈ bs ∧ bktOf l n c = j :=
    fun j hj c hc => (h.sorted.mem_iff hj).mp hc
  refine ⟨?_, ?_, ?_, ?_⟩
  · rw [List.length_set, h.size]
  · intro j bkt' hj
    rw [List.getElem?_set] at hj
    split_ifs at hj with hij hlt
    · cases hj
      subst hij
      rw [Function.update_self]
      refine ⟨rfl, ?_⟩
      rw [List.length_cons, UInt32.ofNat_add, UInt32.ofNat_one, (h.held _ _ hbkt).count]
    · rw [Function.update_of_ne (fun he => hij he.symm)]
      exact h.held j bkt' hj
  · intro j hj
    by_cases hji : j = i
    · rw [hji, Function.update_self]
      have hnodup : (b :: chains i).Nodup :=
        List.nodup_cons.mpr ⟨fun hc => hb (hmem i hin b hc).1, h.sorted.nodup hbs hin⟩
      exact (h.chained i hin).push hnodup
    · rw [Function.update_of_ne hji]
      have hbj : b ∉ chains j := fun hc => hb (hmem j hj b hc).1
      refine (h.chained j hj).congr (update_of_notMem hbj _) ?_
      intro c hc
      -- The old front of bucket `i` is in no other chain.
      have hci : c ∉ chains i := fun hc' => hji ((hmem j hj c hc).2.symm.trans (hmem i hin c hc').2)
      exact (setFirst_of_notMem hci).trans (update_of_notMem hbj _ c hc)
  · subst hi
    exact h.sorted.push

/-- Empty buckets hold nothing. -/
theorem buckets_empty (l : Links α) (n : UInt32) :
    Buckets l n (List.replicate n.toNat ⟨none, 0, 0⟩) (fun _ => []) [] := by
  refine ⟨List.length_replicate, ?_, fun _ _ => trivial, Sorts.nil (fun _ _ => rfl)⟩
  intro i bkt hget
  obtain ⟨-, rfl⟩ := List.mem_replicate.mp (List.mem_of_getElem? hget)
  exact ⟨rfl, rfl⟩

end Chains

/-- The multiplier of a chain: its length over the ideal, if it is too long. -/
def chainMult (ideal count : UInt32) : UInt32 := if count > ideal then count / ideal else 0

/-- The count of a bucket that receives one more item keeps the multiplier. -/
theorem countItem_eq {ideal : UInt32} (nonideal : UInt32) {bkt : UTHashBucket} {k : ℕ}
    (hideal : 0 < ideal.toNat) (hcount : bkt.count = UInt32.ofNat k) (hk : k + 1 < 2 ^ 32)
    (hmult : bkt.expandMult = chainMult ideal bkt.count) :
    countItem ideal nonideal bkt =
      .ok (nonideal + UInt32.ofNat (k + 1 - ideal.toNat - (k - ideal.toNat)),
        chainMult ideal (bkt.count + 1)) := by
  have hone : bkt.count + 1 = UInt32.ofNat (k + 1) := by
    rw [UInt32.ofNat_add, hcount, UInt32.ofNat_one]
  have hsucc : (bkt.count + 1).toNat = k + 1 := by rw [hone, UInt32.toNat_ofNat_of_lt' hk]
  have hold : bkt.count.toNat = k := by
    rw [hcount, UInt32.toNat_ofNat_of_lt' (show k < 2 ^ 32 by omega)]
  have hne : ideal ≠ 0 := by
    intro he
    rw [he] at hideal
    exact absurd hideal (by decide)
  have hgt : bkt.count + 1 > ideal ↔ ideal.toNat < k + 1 := by
    rw [gt_iff_lt, UInt32.lt_iff_toNat_lt, hsucc]
  by_cases hlt : ideal.toNat < k + 1
  · have hdiff : k + 1 - ideal.toNat - (k - ideal.toNat) = 1 := by omega
    simp only [countItem, chainMult, if_pos (hgt.mpr hlt), if_neg hne, hdiff, UInt32.ofNat_one]
  · have hdiff : k + 1 - ideal.toNat - (k - ideal.toNat) = 0 := by omega
    have hsmall : ¬ bkt.count > ideal := by
      rw [gt_iff_lt, UInt32.lt_iff_toNat_lt, hold]
      omega
    have hzero : UInt32.ofNat 0 = 0 := rfl
    have hnot := mt hgt.mp hlt
    rw [chainMult, if_neg hsmall] at hmult
    simp only [countItem, chainMult, if_neg hnot, hdiff, hzero, UInt32.add_zero, hmult]

/-- The loops of an expansion to `n` buckets, when the elements `done` have
been moved into `piles`. -/
structure Rehashed {α : Type} (l₀ : Links α) (n ideal : UInt32) (s : Rehash α)
    (piles : ℕ → List ℕ) (done : List ℕ) : Prop where
  /-- The new buckets hold what was moved. -/
  buckets : Buckets (links s.elements) n s.newBuckets piles done
  /-- Only bucket links were written. -/
  others : links s.elements = { l₀ with
    hhNext := (links s.elements).hhNext, hhPrev := (links s.elements).hhPrev }
  /-- Those of the other elements are as before. -/
  frame : ∀ b ∉ done, (links s.elements).hhNext b = l₀.hhNext b ∧
    (links s.elements).hhPrev b = l₀.hhPrev b
  /-- Nothing was moved twice. -/
  nodup : done.Nodup
  /-- The multipliers are those of the chains. -/
  mult : ∀ bkt ∈ s.newBuckets, bkt.expandMult = chainMult ideal bkt.count
  /-- The items beyond the ideal length are counted. -/
  nonideal : s.nonidealItems =
    UInt32.ofNat (∑ i ∈ Finset.range n.toNat, ((piles i).length - ideal.toNat))

/-- Before the loops, nothing was moved. -/
theorem rehashed_start {α : Type} (r : Region (Element α)) (n ideal : UInt32) :
    Rehashed (links r) n ideal ⟨r, List.replicate n.toNat ⟨none, 0, 0⟩, 0⟩ (fun _ => []) [] := by
  refine ⟨buckets_empty _ _, rfl, fun _ _ => ⟨rfl, rfl⟩, List.nodup_nil, ?_, ?_⟩
  · intro bkt hbkt
    obtain ⟨-, rfl⟩ := List.mem_replicate.mp hbkt
    have hnot : ¬ (0 : UInt32) > ideal := by
      rw [gt_iff_lt, UInt32.lt_iff_toNat_lt]
      exact Nat.not_lt_zero _
    rw [chainMult, if_neg hnot]
  · simp only [List.length_nil, Nat.zero_sub, Finset.sum_const_zero]
    rfl

section Loops

variable {α : Type} {l₀ : Links α} {n ideal : UInt32} {s : Rehash α} {piles : ℕ → List ℕ}
  {done chain : List ℕ} {b : ℕ}

/-- A sum over piles of which one grows. -/
theorem sum_push {n i : ℕ} (hi : i < n) (piles : ℕ → List ℕ) (b k : ℕ) :
    ∑ j ∈ Finset.range n, ((Function.update piles i (b :: piles i) j).length - k) =
      ∑ j ∈ Finset.range n, ((piles j).length - k) +
        ((piles i).length + 1 - k - ((piles i).length - k)) := by
  have hmem := Finset.mem_range.mpr hi
  rw [← Finset.add_sum_erase _ _ hmem, ← Finset.add_sum_erase (Finset.range n)
    (fun j => (piles j).length - k) hmem]
  have hrest : ∑ j ∈ (Finset.range n).erase i,
        ((Function.update piles i (b :: piles i) j).length - k) =
      ∑ j ∈ (Finset.range n).erase i, ((piles j).length - k) := by
    apply Finset.sum_congr rfl
    intro j hj
    rw [Function.update_of_ne (Finset.ne_of_mem_erase hj)]
  rw [hrest, Function.update_self, List.length_cons]
  omega

/-- One turn of the inner loop moves one element. -/
theorem moveItem_spec (h : Rehashed l₀ n ideal s piles done) (hn : 0 < n.toNat)
    (hideal : 0 < ideal.toNat) (hb : b ∉ done) (hfew : done.length + 1 < 2 ^ 32) {c : Core α}
    (hcore : l₀.core b = some c) {nxt : Option ℕ} (hnext : l₀.hhNext b = some nxt) :
    ∃ s' piles', moveItem n ideal b s = .ok (nxt, s') ∧
      Rehashed l₀ n ideal s' piles' (b :: done) := by
  have hcoreb : (links s.elements).core b = some c := by rw [h.others, hcore]
  obtain ⟨i, hi⟩ : ∃ i, bktOf (links s.elements) n b = i := ⟨_, rfl⟩
  have hin : i < n.toNat := hi ▸ hashToBkt_lt _ hn
  obtain ⟨e, he, hec⟩ := Region.cell_of_view hcoreb
  obtain ⟨-, -, hhn, -, -⟩ := links_of_cell he
  have hnxt : e.hh.hhNext = nxt := by
    rw [(h.frame b hb).1, hnext] at hhn
    exact (Option.some.inj hhn).symm
  have hindex : hashToBkt e.hh.hashv n = i := by
    rw [← hi, bktOf, hcoreb, Option.map_some, Option.getD_some, ← hec]
    rfl
  obtain ⟨bkt, hget, hnth, hholds⟩ := h.buckets.nth hin
  have hpile : (piles i).length + 1 < 2 ^ 32 := by
    have hle := h.buckets.sorted.length_le hin
    omega
  have hcount := countItem_eq s.nonidealItems hideal hholds.count hpile
    (h.mult bkt (List.mem_of_getElem? hget))
  -- The three writes to links.
  obtain ⟨r₁, hr₁, hl₁⟩ := modify_setHhPrev (live_of_core hcoreb) none
  have hlive₁ : r₁.Live b := by
    rw [live_iff_core, hl₁]
    exact live_iff_core.mp (live_of_core hcoreb)
  obtain ⟨r₂, hr₂, hl₂⟩ := modify_setHhNext hlive₁ (piles i).head?
  have hlive₂ : ∀ d ∈ piles i, r₂.Live d := by
    intro d hd
    obtain ⟨⟨q, hq⟩, -⟩ := (h.buckets.chained i hin).exists_links hd
    have hlive : s.elements.Live d := Region.live_of_view hq
    rw [live_iff_core, hl₂, hl₁]
    exact live_iff_core.mp hlive
  obtain ⟨r₃, hr₃, hl₃⟩ := writeIfAny_setHhPrev hlive₂ (some b)
  have hlinks : links r₃ = { links s.elements with
      hhNext := Function.update (links s.elements).hhNext b (some (piles i).head?)
      hhPrev := setFirst (Function.update (links s.elements).hhPrev b (some none)) (piles i)
        (some b) } := by
    rw [hl₃, hl₂, hl₁]
  refine ⟨⟨r₃, s.newBuckets.set i ⟨some b, bkt.count + 1, chainMult ideal (bkt.count + 1)⟩,
    s.nonidealItems + UInt32.ofNat ((piles i).length + 1 - ideal.toNat -
      ((piles i).length - ideal.toNat))⟩, Function.update piles i (b :: piles i), ?_, ?_⟩
  · simp only [moveItem, Region.read_of_cell he, bind, Except.bind, hindex, hnth, hcount, hr₁,
      hholds.head, hr₂, hr₃, pure, Except.pure, hnxt]
  · refine ⟨?_, ?_, ?_, List.nodup_cons.mpr ⟨hb, h.nodup⟩, ?_, ?_⟩
    · rw [hlinks]
      exact buckets_push h.buckets hn h.nodup hb hi hget _
    · rw [hlinks, h.others]
    · intro d hd
      obtain ⟨hdb, hdone⟩ := List.ne_and_not_mem_of_not_mem_cons hd
      have hpiled : d ∉ piles i := fun hmem => hdone ((h.buckets.sorted.mem_iff hin).mp hmem).1
      rw [hlinks]
      dsimp only
      rw [setFirst_of_notMem hpiled, Function.update_of_ne hdb, Function.update_of_ne hdb]
      exact h.frame d hdone
    · intro bkt' hbkt'
      rcases List.mem_or_eq_of_mem_set hbkt' with hmem | rfl
      · exact h.mult bkt' hmem
      · rfl
    · rw [sum_push hin, UInt32.ofNat_add, ← h.nonideal]

/-- The inner loop moves a chain. -/
theorem expandChain_spec (h : Rehashed l₀ n ideal s piles done) (hn : 0 < n.toNat)
    (hideal : 0 < ideal.toNat) {p : Option ℕ} (hchain : Segment l₀.hhNext l₀.hhPrev p chain none)
    (hcores : ∀ b ∈ chain, ∃ c, l₀.core b = some c) (hnodup : (chain ++ done).Nodup)
    (hfew : (chain ++ done).length < 2 ^ 32) {fuel : ℕ} (hfuel : chain.length ≤ fuel) :
    ∃ s' piles', expandChain n ideal fuel chain.head? s = .ok s' ∧
      Rehashed l₀ n ideal s' piles' (chain.reverse ++ done) := by
  induction chain generalizing s piles done p fuel with
  | nil =>
    refine ⟨s, piles, ?_, h⟩
    simp only [List.head?_nil, expandChain]
  | cons b bs ih =>
    obtain ⟨-, hnext, hrest⟩ := hchain
    rw [Option.or_none] at hnext
    obtain ⟨c, hc⟩ := hcores b List.mem_cons_self
    have hbnot : b ∉ bs ++ done := (List.nodup_cons.mp hnodup).1
    have hb : b ∉ done := fun hmem => hbnot (List.mem_append_right bs hmem)
    rw [List.cons_append, List.length_cons, List.length_append] at hfew
    obtain ⟨s₁, piles₁, hmove, h₁⟩ := moveItem_spec h hn hideal hb (by omega) hc hnext
    have hperm : (b :: (bs ++ done)).Perm (bs ++ b :: done) := List.perm_middle.symm
    cases fuel with
    | zero => simp only [List.length_cons, Nat.le_zero_eq, reduceCtorEq] at hfuel
    | succ fuel =>
      obtain ⟨s', piles', hloop, h'⟩ := ih h₁ hrest
        (fun d hd => hcores d (List.mem_cons_of_mem b hd)) (hperm.nodup hnodup)
        (by rw [← hperm.length_eq, List.length_cons, List.length_append]; omega)
        (by simpa only [List.length_cons, Nat.add_le_add_iff_right] using hfuel)
      refine ⟨s', piles', ?_, ?_⟩
      · simp only [List.head?_cons, expandChain, hmove, bind, Except.bind, hloop]
      · rw [List.reverse_cons, List.append_assoc]
        exact h'

/-- Only which blocks were moved matters, not their order. -/
theorem Rehashed.perm {done' : List ℕ} (h : Rehashed l₀ n ideal s piles done)
    (hperm : done.Perm done') : Rehashed l₀ n ideal s piles done' where
  buckets := buckets_perm h.buckets hperm
  others := h.others
  frame b hb := h.frame b (fun hmem => hb (hperm.mem_iff.mp hmem))
  nodup := hperm.nodup h.nodup
  mult := h.mult
  nonideal := h.nonideal

/-- The outer loop moves the chains of all buckets from one on. -/
theorem expandLoop_spec {old : UInt32} {bkts : List UTHashBucket} {chains : ℕ → List ℕ}
    {bs : List ℕ} (hold : Buckets l₀ old bkts chains bs)
    (hcores : ∀ b ∈ bs, ∃ c, l₀.core b = some c) (hbound : ∀ b ∈ bs, b < l₀.bound)
    (hbs : bs.Nodup) (hn : 0 < n.toNat) (hideal : 0 < ideal.toNat)
    (h : Rehashed l₀ n ideal s piles done) {rem i : ℕ} (hrange : i + rem = old.toNat)
    (hnodup : ((List.range' i rem).flatMap chains ++ done).Nodup)
    (hfew : ((List.range' i rem).flatMap chains ++ done).length < 2 ^ 32) :
    ∃ s' piles', expandLoop n ideal bkts rem i s = .ok s' ∧
      Rehashed l₀ n ideal s' piles' ((List.range' i rem).flatMap chains ++ done) := by
  induction rem generalizing i s piles done with
  | zero => exact ⟨s, piles, rfl, h⟩
  | succ rem ih =>
    have hi : i < old.toNat := by omega
    have hsub : ∀ b ∈ chains i, b ∈ bs := fun b hb => ((hold.sorted.mem_iff hi).mp hb).1
    obtain ⟨bkt, hget, hnth, hholds⟩ := hold.nth hi
    rw [List.range'_succ, List.flatMap_cons, List.append_assoc] at hnodup hfew
    -- The chain of bucket `i` in front of what was moved, the rest in front of both.
    have hperm : (chains i ++ ((List.range' (i + 1) rem).flatMap chains ++ done)).Perm
        ((List.range' (i + 1) rem).flatMap chains ++ ((chains i).reverse ++ done)) := by
      rw [← List.append_assoc, ← List.append_assoc]
      refine List.Perm.append_right done ?_
      exact List.perm_append_comm.trans
        ((List.reverse_perm (chains i)).symm.append_left _)
    have hsublist : (chains i ++ done).Sublist
        (chains i ++ ((List.range' (i + 1) rem).flatMap chains ++ done)) :=
      (List.sublist_append_right _ done).append_left (chains i)
    have hsame : s.elements.next = l₀.bound := congrArg Links.bound h.others
    have hfuel : (chains i).length ≤ s.elements.next := by
      rw [hsame]
      exact length_le_of_nodup (hold.sorted.nodup hbs hi) (fun b hb => hbound b (hsub b hb))
    obtain ⟨s₁, piles₁, hchain, h₁⟩ := expandChain_spec h hn hideal (hold.chained i hi)
      (fun b hb => hcores b (hsub b hb)) (hnodup.sublist hsublist)
      (lt_of_le_of_lt hsublist.length_le hfew) hfuel
    obtain ⟨s', piles', hloop, h'⟩ := ih h₁ (by omega) (hperm.nodup hnodup)
      (by rw [← hperm.length_eq]; exact hfew)
    refine ⟨s', piles', ?_, ?_⟩
    · simp only [expandLoop, hnth, bind, Except.bind, hholds.head, hchain, hloop]
    · rw [List.range'_succ, List.flatMap_cons, List.append_assoc]
      exact h'.perm hperm.symm

end Loops

section Expansion

variable {α : Type} {keyOf : α → List UInt8} {hash : List UInt8 → UInt32} {m : Memory α}
  {head : Option ℕ} {cells : List (Cell α)} {t : ℕ} {tbl : UTHashTable}
  {bkts : List UTHashBucket} {chains : ℕ → List ℕ}

/-- Below 2^31 the number of buckets doubles without wrapping. -/
theorem doubled_toNat {n : UInt32} (h : n.toNat < 2 ^ 31) : (n * 2).toNat = 2 * n.toNat := by
  have htwo : (2 : UInt32).toNat = 2 := rfl
  rw [UInt32.toNat_mul, htwo, Nat.mod_eq_of_lt (by omega), Nat.mul_comm]

/-- The logarithm grows by one, and stays below the width of a word. -/
theorem log2_succ {tbl : UTHashTable}
    (hpower : tbl.numBuckets.toNat = 2 ^ tbl.log2NumBuckets.toNat)
    (hmodest : tbl.numBuckets.toNat < 2 ^ 31) :
    (tbl.log2NumBuckets + 1).toNat = tbl.log2NumBuckets.toNat + 1 ∧
      tbl.log2NumBuckets.toNat < 31 := by
  have hlog : tbl.log2NumBuckets.toNat < 31 := by
    rw [hpower] at hmodest
    exact (Nat.pow_lt_pow_iff_right (by omega)).mp hmodest
  have hone : (1 : UInt32).toNat = 1 := rfl
  refine ⟨?_, hlog⟩
  rw [UInt32.toNat_add, hone, Nat.mod_eq_of_lt (by omega)]

/-- The shift and the mask compute the ideal length for twice as many buckets. -/
theorem idealChainMaxlen_eq {tbl : UTHashTable}
    (hpower : tbl.numBuckets.toNat = 2 ^ tbl.log2NumBuckets.toNat)
    (hmodest : tbl.numBuckets.toNat < 2 ^ 31) :
    ∃ ideal, idealChainMaxlen tbl = .ok ideal ∧
      ideal.toNat = idealLength tbl.numItems.toNat (2 * tbl.numBuckets.toNat) := by
  obtain ⟨hsucc, hlog⟩ := log2_succ hpower hmodest
  have hdouble : 2 * tbl.numBuckets.toNat = 2 ^ (tbl.log2NumBuckets.toNat + 1) := by
    rw [hpower, Nat.pow_succ, Nat.mul_comm]
  have hshift : ¬ tbl.log2NumBuckets + 1 ≥ 32 := by
    rw [ge_iff_le, UInt32.le_iff_toNat_le, hsucc]
    have hwidth : (32 : UInt32).toNat = 32 := rfl
    omega
  have hquot : (tbl.numItems >>> (tbl.log2NumBuckets + 1)).toNat =
      tbl.numItems.toNat / (2 * tbl.numBuckets.toNat) := by
    rw [UInt32.toNat_shiftRight, hsucc, Nat.mod_eq_of_lt (by omega), Nat.shiftRight_eq_div_pow,
      hdouble]
  have hmask : (tbl.numItems &&& (tbl.numBuckets * 2 - 1)).toNat =
      tbl.numItems.toNat % (2 * tbl.numBuckets.toNat) := by
    have hpos : 0 < tbl.numBuckets.toNat := by rw [hpower]; exact Nat.two_pow_pos _
    have hle : (1 : UInt32) ≤ tbl.numBuckets * 2 := by
      rw [UInt32.le_iff_toNat_le, doubled_toNat hmodest]
      have hone : (1 : UInt32).toNat = 1 := rfl
      omega
    have hone : (1 : UInt32).toNat = 1 := rfl
    rw [UInt32.toNat_and, UInt32.toNat_sub_of_le _ _ hle, doubled_toNat hmodest, hone, hdouble,
      Nat.and_two_pow_sub_one_eq_mod]
  have hzero : tbl.numItems &&& (tbl.numBuckets * 2 - 1) = 0 ↔
      tbl.numItems.toNat % (2 * tbl.numBuckets.toNat) = 0 := by
    rw [← UInt32.toNat_inj, hmask]
    rfl
  refine ⟨_, by rw [idealChainMaxlen, if_neg hshift], ?_⟩
  have hsmall : tbl.numItems.toNat / (2 * tbl.numBuckets.toNat) ≤ tbl.numItems.toNat / 2 := by
    apply Nat.div_le_div_left _ (by omega)
    have hpos : 0 < tbl.numBuckets.toNat := by rw [hpower]; exact Nat.two_pow_pos _
    omega
  have hitems := tbl.numItems.toNat_lt
  rw [UInt32.toNat_add, hquot, idealLength]
  by_cases hmod : tbl.numItems.toNat % (2 * tbl.numBuckets.toNat) = 0
  · have hz : (0 : UInt32).toNat = 0 := rfl
    rw [if_neg (not_not.mpr (hzero.mpr hmod)), if_pos hmod, hz, Nat.mod_eq_of_lt (by omega)]
  · have hone : (1 : UInt32).toNat = 1 := rfl
    rw [if_pos (mt hzero.mp hmod), if_neg hmod, hone, Nat.mod_eq_of_lt (by omega)]

/-- How an expansion spreads items over the new buckets. -/
structure Spread (tbl : UTHashTable) (bkts : List UTHashBucket) (chains : ℕ → List ℕ)
    (ideal nonideal : UInt32) : Prop where
  /-- The ideal length is that for twice as many buckets. -/
  ideal_eq : ideal.toNat = idealLength tbl.numItems.toNat (2 * tbl.numBuckets.toNat)
  /-- The multipliers are those of the chains. -/
  mult : ∀ bkt ∈ bkts, bkt.expandMult = chainMult ideal bkt.count
  /-- The items beyond the ideal length are counted. -/
  nonideal_eq : nonideal = UInt32.ofNat
    (∑ i ∈ Finset.range (2 * tbl.numBuckets.toNat), ((chains i).length - ideal.toNat))

/-- The elements of a region keep their values and no block comes or goes. -/
structure SameValues (r r' : Region (Element α)) : Prop where
  /-- The values are the same. -/
  values : r'.view Element.value = r.view Element.value
  /-- The next block is the same. -/
  next : r'.next = r.next

/-- Values are kept where the cores and the next free block are. -/
theorem sameValues_of_core {r r' : Region (Element α)}
    (hcore : (links r').core = (links r).core) (hnext : r'.next = r.next) : SameValues r r' := by
  refine ⟨?_, hnext⟩
  funext b
  have hvalue : ∀ r : Region (Element α),
      r.view Element.value b = ((links r).core b).map Core.value := by
    intro r
    simp only [Region.view, links, Option.map_map]
    rfl
  rw [hvalue, hvalue, hcore]

/-- The multipliers of new buckets, read as numbers. -/
theorem multAt_eq {n ideal : UInt32} {l : Links α} {bs : List ℕ} (h : Buckets l n bkts chains bs)
    (hmult : ∀ bkt ∈ bkts, bkt.expandMult = chainMult ideal bkt.count)
    (hfew : bs.length < 2 ^ 32) {i : ℕ} (hi : i < n.toNat) :
    multAt bkts i =
      if ideal.toNat < (chains i).length then (chains i).length / ideal.toNat else 0 := by
  obtain ⟨bkt, hget, -, hholds⟩ := h.nth hi
  have hlen : bkt.count.toNat = (chains i).length := by
    rw [hholds.count, UInt32.toNat_ofNat_of_lt' (lt_of_le_of_lt (h.sorted.length_le hi) hfew)]
  rw [multAt, hget, Option.map_some, Option.getD_some, hmult bkt (List.mem_of_getElem? hget),
    chainMult, ← hlen]
  by_cases hlong : ideal.toNat < bkt.count.toNat
  · rw [if_pos hlong, if_pos (UInt32.lt_iff_toNat_lt.mpr hlong), UInt32.toNat_div]
  · rw [if_neg hlong, if_neg (mt UInt32.lt_iff_toNat_lt.mp hlong)]
    rfl

/-- An expansion keeps the cells and their order and balances the chains, unless
memory runs out. -/
theorem hashExpandBuckets_spec (h : Spine keyOf hash m head cells t tbl bkts)
    (hb : Buckets (links m.elements) tbl.numBuckets bkts chains (blocks cells))
    (hne : cells ≠ []) (hload : cells.length ≤ 20 * tbl.numBuckets.toNat) {room : ℕ}
    (hroom : room < 2 ^ 31) :
    hashExpandBuckets room t m = .error .outOfMemory ∨
      ∃ m' bkts' chains' ideal nonideal array, hashExpandBuckets room t m = .ok m' ∧
        Layout keyOf hash m' head cells t (tbl.expanded ideal nonideal array) bkts' chains' ∧
        Spread tbl bkts' chains' ideal nonideal ∧ SameValues m.elements m'.elements := by
  have hcell : m.tables.cell t = some tbl := by rw [h.table, Function.update_self]
  have hdouble := doubled_toNat h.modest
  have hcomm : 2 * tbl.numBuckets = tbl.numBuckets * 2 := UInt32.mul_comm _ _
  by_cases hlt : 2 * tbl.numBuckets.toNat ≤ room
  · right
    have hzero : zeroBuckets room (2 * tbl.numBuckets).toNat =
        .ok (List.replicate (tbl.numBuckets * 2).toNat ⟨none, 0, 0⟩) := by
      rw [zeroBuckets, hcomm, hdouble, if_pos hlt]
    obtain ⟨ideal, hideal, hidealNat⟩ := idealChainMaxlen_eq h.power h.modest
    have hitems : tbl.numItems.toNat = cells.length := by
      rw [h.items, UInt32.toNat_ofNat_of_lt' h.few]
    have hpos : 0 < ideal.toNat := by
      rw [hidealNat, hitems]
      exact idealLength_pos (List.length_pos_iff.mpr hne)
    have hbkts := h.buckets_pos
    have hn : 0 < (tbl.numBuckets * 2).toNat := by omega
    have hindex : ∀ b ∈ blocks cells, bktOf (links m.elements) tbl.numBuckets b <
        tbl.numBuckets.toNat := fun _ _ => hashToBkt_lt _ hbkts
    have hperm := hb.sorted.flatMap_perm h.nodup hindex
    have hstart : Rehashed (links m.elements) (tbl.numBuckets * 2) ideal
        ⟨m.elements, List.replicate (tbl.numBuckets * 2).toNat ⟨none, 0, 0⟩, 0⟩
        (fun _ => []) [] := rehashed_start _ _ _
    obtain ⟨s', piles', hloop, hmoved⟩ := expandLoop_spec hb
      (fun b hb => by
        obtain ⟨c, hc, rfl⟩ := List.mem_map.mp hb
        exact ⟨_, h.cores c hc⟩)
      (fun b hb => Region.live_lt (h.live hb)) h.nodup hn hpos hstart
      (Nat.zero_add tbl.numBuckets.toNat)
      (by rw [List.append_nil]; exact hperm.symm.nodup h.nodup)
      (by rw [List.append_nil, hperm.length_eq, length_blocks]; exact h.few)
    rw [List.append_nil] at hmoved
    have hfinal := hmoved.perm hperm
    obtain ⟨arrays, hfree, harrays, -⟩ := Region.free_of_live
      (show m.arrays.Live tbl.buckets by rw [Region.Live, h.array, Function.update_self]; rfl)
    obtain ⟨tables, htables, hupdate, -⟩ := Region.modify_of_cell hcell
      (fun tbl => tbl.expanded ideal s'.nonidealItems arrays.next)
    refine ⟨⟨s'.elements, tables, (arrays.alloc s'.newBuckets).2⟩, s'.newBuckets, piles', ideal,
      s'.nonidealItems, arrays.next, ?_, ?_, ⟨hidealNat, hfinal.mult, ?_⟩, ?_⟩
    · simp only [hashExpandBuckets, Region.read_of_cell hcell, bind, Except.bind, hzero, hideal,
        h.read_array, hloop, hfree, Region.alloc, htables, pure, Except.pure]
    · obtain ⟨hsucc, hlog⟩ := log2_succ h.power h.modest
      refine ⟨⟨h.head_eq, ?_, ?_, ?_, ?_, h.tail, h.nodup, h.items, h.few, h.short, ?_, ?_⟩,
        hfinal.buckets, fun _ => ?_⟩
      · rw [hupdate, h.table, Function.update_idem]
      · have hnone : Function.update (fun _ => none) tbl.buckets none =
            (fun _ => none : ℕ → Option (List UTHashBucket)) := Function.update_eq_self _ _
        simp only [Region.alloc, UTHashTable.expanded, harrays, h.array, Function.update_idem,
          hnone]
      · rw [hfinal.others]
        exact h.cores
      · rw [hfinal.others]
        exact h.ordered
      · simp only [UTHashTable.expanded, hdouble, hsucc, h.power, Nat.pow_succ, Nat.mul_comm]
      · simp only [UTHashTable.expanded, hdouble]
        omega
      · have hfew : (blocks cells).length < 2 ^ 32 := by rw [length_blocks]; exact h.few
        have hsum := hfinal.buckets.sorted.sum_length (fun _ _ => hashToBkt_lt _ hn)
        rw [length_blocks] at hsum
        refine balanced_of_ideal hpos ?_ ?_ (fun i hi => multAt_eq hfinal.buckets hfinal.mult hfew hi)
        · rw [hidealNat, hitems]
          refine idealLength_le (by omega) (hload.trans (le_of_eq ?_))
          rw [← Nat.mul_assoc]
          rfl
        · rw [show (tbl.expanded ideal s'.nonidealItems arrays.next).numBuckets =
            tbl.numBuckets * 2 from rfl, hsum, hdouble, hidealNat, hitems]
          exact le_idealLength_mul _ (by omega)
    · rw [← hdouble]
      exact hfinal.nonideal
    · refine sameValues_of_core ?_ (congrArg Links.bound hfinal.others)
      rw [hfinal.others]
  · left
    simp only [hashExpandBuckets, Region.read_of_cell hcell, bind, Except.bind, zeroBuckets, hcomm,
      hdouble, if_neg hlt]

end Expansion

end LazyFS.HashExpansion
