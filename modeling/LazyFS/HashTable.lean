import LazyFS.MemoryRegions

/-!
# The hash table in memory

The macros of the hash table header, over regions of elements, tables and
bucket arrays. An element carries its hash handle; a pointer to the handle and
a pointer to the element are the same address here. The key pointer of a
handle always points into its own element, so the bytes of a key are read from
the element's value. Elements, tables and arrays have address spaces of their
own. The hash function is a parameter.
-/

namespace LazyFS.HashTable

open MemoryRegions

/-- `UT_hash_handle`. -/
structure UTHashHandle where
  /-- The table the element is in. -/
  tbl : Option ℕ
  /-- The previous element in application order. -/
  prev : Option ℕ
  /-- The next element in application order. -/
  next : Option ℕ
  /-- The previous element in bucket order. -/
  hhPrev : Option ℕ
  /-- The next element in bucket order. -/
  hhNext : Option ℕ
  /-- The length of the key. -/
  keylen : UInt32
  /-- The hash of the key. -/
  hashv : UInt32

/-- A structure with a hash handle. -/
structure Element (α : Type) where
  /-- Its other fields. -/
  value : α
  /-- Its hash handle. -/
  hh : UTHashHandle

/-- `UT_hash_bucket`. -/
structure UTHashBucket where
  /-- The head of the bucket's chain. -/
  hhHead : Option ℕ
  /-- How many elements are in the chain. -/
  count : UInt32
  /-- By how much more than the default the chain may grow. -/
  expandMult : UInt32

/-- `UT_hash_table`. -/
structure UTHashTable where
  /-- The bucket array. -/
  buckets : ℕ
  /-- Its length. -/
  numBuckets : UInt32
  /-- The logarithm of its length. -/
  log2NumBuckets : UInt32
  /-- How many elements the table holds. -/
  numItems : UInt32
  /-- The last element in application order. -/
  tail : Option ℕ
  /-- The length of a chain when all chains are equally long. -/
  idealChainMaxlen : UInt32
  /-- How many elements stand further back in their chains. -/
  nonidealItems : UInt32
  /-- How many expansions in a row did not help. -/
  ineffExpands : UInt32
  /-- Whether expansion is given up. -/
  noexpand : UInt32

/-- The memory that a table lives in. -/
structure Memory (α : Type) where
  /-- The elements. -/
  elements : Region (Element α)
  /-- The tables. -/
  tables : Region UTHashTable
  /-- The bucket arrays. -/
  arrays : Region (List UTHashBucket)

/-- Memory in which nothing is allocated. -/
def Memory.empty {α : Type} : Memory α := ⟨Region.empty, Region.empty, Region.empty⟩

/-- `HASH_INITIAL_NUM_BUCKETS`. -/
def HASH_INITIAL_NUM_BUCKETS : UInt32 := 32

/-- `HASH_INITIAL_NUM_BUCKETS_LOG2`. -/
def HASH_INITIAL_NUM_BUCKETS_LOG2 : UInt32 := 5

/-- `HASH_BKT_CAPACITY_THRESH`. -/
def HASH_BKT_CAPACITY_THRESH : UInt32 := 10

/-- `HASH_TO_BKT`. -/
def hashToBkt (hashv numBkts : UInt32) : ℕ := (hashv &&& (numBkts - 1)).toNat

section Fields

variable {α : Type}

/-- Set the next element in application order. -/
def Element.setNext (p : Option ℕ) (e : Element α) : Element α :=
  { e with hh := { e.hh with next := p } }

/-- Set the previous element in application order. -/
def Element.setPrev (p : Option ℕ) (e : Element α) : Element α :=
  { e with hh := { e.hh with prev := p } }

/-- Set the next element in bucket order. -/
def Element.setHhNext (p : Option ℕ) (e : Element α) : Element α :=
  { e with hh := { e.hh with hhNext := p } }

/-- Set the previous element in bucket order. -/
def Element.setHhPrev (p : Option ℕ) (e : Element α) : Element α :=
  { e with hh := { e.hh with hhPrev := p } }

/-- Set the length of the key and no next element. -/
def Element.setKey (keylen : UInt32) (e : Element α) : Element α :=
  { e with hh := { e.hh with next := none, keylen := keylen } }

/-- Set the table. -/
def Element.setTbl (t : ℕ) (e : Element α) : Element α := { e with hh := { e.hh with tbl := some t } }

/-- Set the table and the hash of the key. -/
def Element.setHashv (t : ℕ) (hashv : UInt32) (e : Element α) : Element α :=
  { e with hh := { e.hh with tbl := some t, hashv := hashv } }

/-- A write through a pointer that may be null, if it is not. -/
def writeIfAny (p : Option ℕ) (f : Element α → Element α) (r : Region (Element α)) :
    Access (Region (Element α)) :=
  match p with
  | some b => r.modify b f
  | none => .ok r

/-- `(head)->hh.tbl`, with the table it points to. -/
def Memory.tableOf (m : Memory α) (head : ℕ) : Access (ℕ × UTHashTable) := do
  let e ← m.elements.read head
  let t ← deref e.hh.tbl
  let tbl ← m.tables.read t
  return (t, tbl)

end Fields

section Find

variable {α : Type} (keyOf : α → List UInt8) (hash : List UInt8 → UInt32)

/-- The comparison of `HASH_FIND_IN_BKT`: the lengths first, then the bytes. -/
def sameKey (key : List UInt8) (e : Element α) : Bool :=
  decide (e.hh.keylen.toNat = key.length) && decide ((keyOf e.value).take key.length = key)

/-- `HASH_FIND_IN_BKT` from an element of the chain on. -/
def hashFindInBkt (r : Region (Element α)) (key : List UInt8) :
    (fuel : ℕ) → Option ℕ → Access (Option ℕ)
  | _, none => .ok none
  | 0, some _ => .error .unending
  | fuel + 1, some out => do
    let e ← r.read out
    if sameKey keyOf key e then return some out
    else hashFindInBkt r key fuel e.hh.hhNext

/-- `HASH_FIND`. -/
def hashFind (m : Memory α) (head : Option ℕ) (key : List UInt8) : Access (Option ℕ) :=
  match head with
  | none => .ok none
  | some h => do
    let (_, tbl) ← m.tableOf h
    let bkts ← m.arrays.read tbl.buckets
    let bkt ← nth bkts (hashToBkt (hash key) tbl.numBuckets)
    hashFindInBkt keyOf m.elements key m.elements.next bkt.hhHead

end Find

section Expand

variable {α : Type}

/-- Allocate an array of zeroed buckets, of which the allocator has `room` left. -/
def zeroBuckets (room n : ℕ) : Access (List UTHashBucket) :=
  if n ≤ room then .ok (List.replicate n ⟨none, 0, 0⟩) else .error .outOfMemory

/-- What the loops of `HASH_EXPAND_BUCKETS` change. -/
structure Rehash (α : Type) where
  /-- The elements. -/
  elements : Region (Element α)
  /-- The new bucket array. -/
  newBuckets : List UTHashBucket
  /-- The number of items beyond the ideal length of their chains. -/
  nonidealItems : UInt32

/-- The count of a new bucket that receives one more item: the number of
nonideal items and the multiplier of the bucket afterwards. -/
def countItem (ideal : UInt32) (nonideal : UInt32) (bkt : UTHashBucket) :
    Access (UInt32 × UInt32) :=
  if bkt.count + 1 > ideal then
    if ideal = 0 then .error .divisionByZero else .ok (nonideal + 1, (bkt.count + 1) / ideal)
  else .ok (nonideal, bkt.expandMult)

/-- The body of the inner loop of `HASH_EXPAND_BUCKETS`. Returns the next
element of the old chain. -/
def moveItem (numBkts ideal : UInt32) (thh : ℕ) (s : Rehash α) :
    Access (Option ℕ × Rehash α) := do
  let e ← s.elements.read thh
  let i := hashToBkt e.hh.hashv numBkts
  let newbkt ← nth s.newBuckets i
  let (nonideal, mult) ← countItem ideal s.nonidealItems newbkt
  let elements ← s.elements.modify thh (Element.setHhPrev none)
  let elements ← elements.modify thh (Element.setHhNext newbkt.hhHead)
  let elements ← writeIfAny newbkt.hhHead (Element.setHhPrev (some thh)) elements
  return (e.hh.hhNext, ⟨elements, s.newBuckets.set i ⟨some thh, newbkt.count + 1, mult⟩, nonideal⟩)

/-- The inner loop of `HASH_EXPAND_BUCKETS`. -/
def expandChain (numBkts ideal : UInt32) : (fuel : ℕ) → Option ℕ → Rehash α → Access (Rehash α)
  | _, none, s => .ok s
  | 0, some _, _ => .error .unending
  | fuel + 1, some thh, s => do
    let (nxt, s) ← moveItem numBkts ideal thh s
    expandChain numBkts ideal fuel nxt s

/-- The outer loop of `HASH_EXPAND_BUCKETS` from bucket `i` on. -/
def expandLoop (numBkts ideal : UInt32) (old : List UTHashBucket) :
    (rem i : ℕ) → Rehash α → Access (Rehash α)
  | 0, _, s => .ok s
  | rem + 1, i, s => do
    let bkt ← nth old i
    let s ← expandChain numBkts ideal s.elements.next bkt.hhHead s
    expandLoop numBkts ideal old rem (i + 1) s

/-- `tbl->ideal_chain_maxlen` for the doubled number of buckets. -/
def idealChainMaxlen (tbl : UTHashTable) : Access UInt32 :=
  if tbl.log2NumBuckets + 1 ≥ 32 then .error .wideShift
  else .ok ((tbl.numItems >>> (tbl.log2NumBuckets + 1)) +
    if tbl.numItems &&& (tbl.numBuckets * 2 - 1) ≠ 0 then 1 else 0)

/-- The fields of a table after an expansion. -/
def UTHashTable.expanded (tbl : UTHashTable) (ideal nonideal : UInt32) (buckets : ℕ) :
    UTHashTable :=
  let ineff := if nonideal > tbl.numItems >>> 1 then tbl.ineffExpands + 1 else 0
  { tbl with
    idealChainMaxlen := ideal, nonidealItems := nonideal, numBuckets := tbl.numBuckets * 2
    log2NumBuckets := tbl.log2NumBuckets + 1, buckets := buckets, ineffExpands := ineff
    noexpand := if ineff > 1 then 1 else tbl.noexpand }

/-- `HASH_EXPAND_BUCKETS`. -/
def hashExpandBuckets (room t : ℕ) (m : Memory α) : Access (Memory α) := do
  let tbl ← m.tables.read t
  let newBuckets ← zeroBuckets room (2 * tbl.numBuckets).toNat
  let ideal ← idealChainMaxlen tbl
  let old ← m.arrays.read tbl.buckets
  let s ← expandLoop (tbl.numBuckets * 2) ideal old tbl.numBuckets.toNat 0
    ⟨m.elements, newBuckets, 0⟩
  let arrays ← m.arrays.free tbl.buckets
  let (array, arrays) := arrays.alloc s.newBuckets
  let tables ← m.tables.modify t (fun tbl => tbl.expanded ideal s.nonidealItems array)
  return ⟨s.elements, tables, arrays⟩

end Expand

section Update

variable {α : Type} (hash : List UInt8 → UInt32)

/-- The fields that `HASH_MAKE_TABLE` gives a table. -/
def UTHashTable.initial (array head : ℕ) : UTHashTable where
  buckets := array
  numBuckets := HASH_INITIAL_NUM_BUCKETS
  log2NumBuckets := HASH_INITIAL_NUM_BUCKETS_LOG2
  numItems := 0
  tail := some head
  idealChainMaxlen := 0
  nonidealItems := 0
  ineffExpands := 0
  noexpand := 0

/-- `HASH_MAKE_TABLE`. -/
def hashMakeTable (room head : ℕ) (m : Memory α) : Access (Memory α) := do
  let buckets ← zeroBuckets room HASH_INITIAL_NUM_BUCKETS.toNat
  let (array, arrays) := m.arrays.alloc buckets
  let (t, tables) := m.tables.alloc (UTHashTable.initial array head)
  let elements ← m.elements.modify head (Element.setTbl t)
  return ⟨elements, tables, arrays⟩

/-- `HASH_ADD_TO_BKT` for bucket `i` of an array. -/
def hashAddToBkt (room array i add : ℕ) (m : Memory α) : Access (Memory α) := do
  let bkts ← m.arrays.read array
  let bkt ← nth bkts i
  let elements ← m.elements.modify add (Element.setHhNext bkt.hhHead)
  let elements ← elements.modify add (Element.setHhPrev none)
  let elements ← writeIfAny bkt.hhHead (Element.setHhPrev (some add)) elements
  let arrays ← m.arrays.modify array
    (fun bkts => bkts.set i ⟨some add, bkt.count + 1, bkt.expandMult⟩)
  let m : Memory α := ⟨elements, m.tables, arrays⟩
  let (t, tbl) ← m.tableOf add
  if bkt.count + 1 ≥ (bkt.expandMult + 1) * HASH_BKT_CAPACITY_THRESH ∧ tbl.noexpand ≠ 1 then
    hashExpandBuckets room t m
  else return m

/-- The first half of `HASH_ADD_KEYPTR`: the element becomes the last in
application order. Returns the head. -/
def hashAppend (room : ℕ) (head : Option ℕ) (add : ℕ) (m : Memory α) :
    Access (ℕ × Memory α) :=
  match head with
  | none => do
    let elements ← m.elements.modify add (Element.setPrev none)
    let m ← hashMakeTable room add { m with elements := elements }
    return (add, m)
  | some head => do
    let (t, tbl) ← m.tableOf head
    let tail ← deref tbl.tail
    let elements ← m.elements.modify tail (Element.setNext (some add))
    let elements ← elements.modify add (Element.setPrev tbl.tail)
    let tables ← m.tables.modify t (fun tbl => { tbl with tail := some add })
    return (head, ⟨elements, tables, m.arrays⟩)

/-- `HASH_ADD_KEYPTR`. Returns the new head. -/
def hashAddKeyptr (room : ℕ) (head : Option ℕ) (key : List UInt8) (add : ℕ) (m : Memory α) :
    Access (Option ℕ × Memory α) := do
  let elements ← m.elements.modify add (Element.setKey (UInt32.ofNat key.length))
  let (head, m) ← hashAppend room head add { m with elements := elements }
  let (t, tbl) ← m.tableOf head
  let tables ← m.tables.modify t (fun tbl => { tbl with numItems := tbl.numItems + 1 })
  let elements ← m.elements.modify add (Element.setHashv t (hash key))
  let m ← hashAddToBkt room tbl.buckets (hashToBkt (hash key) tbl.numBuckets) add
    ⟨elements, tables, m.arrays⟩
  return (some head, m)

/-- `HASH_DEL_IN_BKT` for bucket `i` of an array. -/
def hashDelInBkt (array i del : ℕ) (m : Memory α) : Access (Memory α) := do
  let bkts ← m.arrays.read array
  let bkt ← nth bkts i
  let e ← m.elements.read del
  let hhHead := if bkt.hhHead = some del then e.hh.hhNext else bkt.hhHead
  let arrays ← m.arrays.modify array
    (fun bkts => bkts.set i ⟨hhHead, bkt.count - 1, bkt.expandMult⟩)
  let elements ← writeIfAny e.hh.hhPrev (Element.setHhNext e.hh.hhNext) m.elements
  let e ← elements.read del
  let elements ← writeIfAny e.hh.hhNext (Element.setHhPrev e.hh.hhPrev) elements
  return ⟨elements, m.tables, arrays⟩

/-- `HASH_DELETE` moves the tail when it deletes the last element. -/
def moveTail (del t : ℕ) (tbl : UTHashTable) (prev : Option ℕ) (tables : Region UTHashTable) :
    Access (Region UTHashTable) :=
  if some del = tbl.tail then tables.modify t (fun tbl => { tbl with tail := prev })
  else .ok tables

/-- The patch of the application order in `HASH_DELETE`. Returns the new head. -/
def hashUnlink (head del : ℕ) (m : Memory α) : Access (Option ℕ × Memory α) := do
  let e ← m.elements.read del
  let (t, tbl) ← m.tableOf head
  let tables ← moveTail del t tbl e.hh.prev m.tables
  let elements ← writeIfAny e.hh.prev (Element.setNext e.hh.next) m.elements
  let e ← elements.read del
  let elements ← writeIfAny e.hh.next (Element.setPrev e.hh.prev) elements
  let newHead := if e.hh.prev = none then e.hh.next else some head
  return (newHead, ⟨elements, tables, m.arrays⟩)

/-- `HASH_DELETE`. Returns the new head. The element itself is not freed. -/
def hashDelete (head : Option ℕ) (del : ℕ) (m : Memory α) : Access (Option ℕ × Memory α) := do
  let e ← m.elements.read del
  let head ← deref head
  if e.hh.prev = none ∧ e.hh.next = none then
    let (t, tbl) ← m.tableOf head
    let arrays ← m.arrays.free tbl.buckets
    let tables ← m.tables.free t
    return (none, ⟨m.elements, tables, arrays⟩)
  else
    let (newHead, m) ← hashUnlink head del m
    let head ← deref newHead
    let (t, tbl) ← m.tableOf head
    let m ← hashDelInBkt tbl.buckets (hashToBkt e.hh.hashv tbl.numBuckets) del m
    let tables ← m.tables.modify t (fun tbl => { tbl with numItems := tbl.numItems - 1 })
    return (newHead, { m with tables := tables })

end Update

section Traverse

variable {α : Type}

/-- `HASH_ITER` with a body that writes nothing: the elements visited. -/
def hashIter (r : Region (Element α)) : (fuel : ℕ) → Option ℕ → Access (List ℕ)
  | _, none => .ok []
  | 0, some _ => .error .unending
  | fuel + 1, some el => do
    let e ← r.read el
    let rest ← hashIter r fuel e.hh.next
    return el :: rest

/-- A loop of `HASH_FSCK` along one kind of links: every element must point
back to the one before it. Returns the number of elements. -/
def fsckLinks (nextOf prevOf : UTHashHandle → Option ℕ) (r : Region (Element α)) :
    (fuel : ℕ) → (prev thh : Option ℕ) → (count : UInt32) → Access UInt32
  | _, _, none, count => .ok count
  | 0, _, some _, _ => .error .unending
  | fuel + 1, prev, some thh, count => do
    let e ← r.read thh
    if prev ≠ prevOf e.hh then .error .corrupt
    else fsckLinks nextOf prevOf r fuel (some thh) (nextOf e.hh) (count + 1)

/-- The loop of `HASH_FSCK` over the buckets from bucket `i` on. -/
def fsckBuckets (r : Region (Element α)) (bkts : List UTHashBucket) :
    (rem i : ℕ) → (count : UInt32) → Access UInt32
  | 0, _, count => .ok count
  | rem + 1, i, count => do
    let bkt ← nth bkts i
    let bktCount ← fsckLinks UTHashHandle.hhNext UTHashHandle.hhPrev r r.next none bkt.hhHead 0
    if bkt.count ≠ bktCount then .error .corrupt
    else fsckBuckets r bkts rem (i + 1) (count + bktCount)

/-- `HASH_FSCK`, which stops the program when it finds the table damaged. -/
def hashFsck (m : Memory α) (head : Option ℕ) : Access Unit :=
  match head with
  | none => .ok ()
  | some h => do
    let (_, tbl) ← m.tableOf h
    let bkts ← m.arrays.read tbl.buckets
    let count ← fsckBuckets m.elements bkts tbl.numBuckets.toNat 0 0
    if count ≠ tbl.numItems then .error .corrupt
    else do
      let count ← fsckLinks UTHashHandle.next UTHashHandle.prev m.elements m.elements.next none
        (some h) 0
      if count ≠ tbl.numItems then .error .corrupt else return ()

end Traverse

end LazyFS.HashTable
