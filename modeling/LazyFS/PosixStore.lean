import LazyFS.SlotTable

/-!
# A real directory and a descriptor table

Names designate files by number, and open descriptors keep the file they were
opened on, whatever happens to its name afterwards. Two names may designate one
file from the start; no call adds a name for a file that has one. Symbolic links
are not modelled. A call either does what POSIX says or, when the caller of the
model injects a fault, fails with that error and changes nothing. Only `close`
releases its descriptor even when it reports an error.
-/

namespace LazyFS.PosixStore

open SlotTable

/-- A positive error number. -/
structure Errno where
  /-- The value of `errno`. -/
  code : ℕ
  /-- No error is numbered zero. -/
  pos : 0 < code
  deriving DecidableEq

/-- No such file. -/
def ENOENT : Errno := ⟨2, by decide⟩

/-- Bad descriptor. -/
def EBADF : Errno := ⟨9, by decide⟩

/-- File exists. -/
def EEXIST : Errno := ⟨17, by decide⟩

/-- Invalid argument. -/
def EINVAL : Errno := ⟨22, by decide⟩

/-- A regular file. -/
structure Inode where
  /-- The bytes of the file. -/
  content : List UInt8
  /-- The permission bits that its creation asked for, before a umask. -/
  mode : ℕ
  deriving DecidableEq

/-- An open descriptor. -/
structure Descriptor where
  /-- The file it was opened on. -/
  ino : ℕ
  /-- Whether `openFile` returned it; false for descriptors held from elsewhere. -/
  own : Bool
  deriving DecidableEq

/-- Names, files and descriptors, as one process sees them. -/
structure Store (ν : Type) where
  /-- The file a name designates. -/
  names : ν → Option ℕ
  /-- The files by number. -/
  inodes : ℕ → Inode
  /-- The number of the next new file. -/
  next : ℕ
  /-- The descriptor table. -/
  fds : List (Option Descriptor)
  /-- Named files have been created. -/
  names_lt : ∀ n i, names n = some i → i < next

/-- A store without files and without open descriptors. -/
def Store.empty (ν : Type) : Store ν where
  names _ := none
  inodes _ := ⟨[], 0⟩
  next := 0
  fds := []
  names_lt _ _ h := nomatch h

/-- The bytes of a file resized to `len`, extended by zero bytes. -/
def resize (content : List UInt8) (len : ℕ) : List UInt8 :=
  content.take len ++ List.replicate (len - content.length) 0

/-- The bytes of a file after `data` is written at `offset`. Writing nothing
does not extend the file. -/
def splice (content data : List UInt8) (offset : ℕ) : List UInt8 :=
  if data = [] then content
  else (resize content (max content.length offset)).take offset ++ data ++
    content.drop (offset + data.length)

/-- Function update at one file number. -/
def setInode (inodes : ℕ → Inode) (i : ℕ) (content : List UInt8) : ℕ → Inode :=
  Function.update inodes i ⟨content, (inodes i).mode⟩

section Calls

variable {ν : Type} [DecidableEq ν]

omit [DecidableEq ν] in
/-- The open descriptor numbered `fd`, if there is one. -/
def Store.descriptor (s : Store ν) : ℤ → Option Descriptor
  | .ofNat n => slot s.fds n
  | .negSucc _ => none

omit [DecidableEq ν] in
/-- The store as a program finds it: every descriptor comes from elsewhere. -/
def Store.inherited (s : Store ν) : Store ν :=
  { s with fds := s.fds.map (Option.map (fun d => ⟨d.ino, false⟩)) }

omit [DecidableEq ν] in
/-- The bytes of the file a name designates. -/
def Store.contentAt (s : Store ν) (name : ν) : Option (List UInt8) :=
  (s.names name).map (fun i => (s.inodes i).content)

omit [DecidableEq ν] in
/-- `stat`. -/
def Store.stat (s : Store ν) (fault : Option Errno) (name : ν) : Except Errno Inode :=
  match fault, s.names name with
  | some e, _ => .error e
  | none, none => .error ENOENT
  | none, some i => .ok (s.inodes i)

/-- Bind an unused name to a new empty file. -/
def Store.createFile (s : Store ν) (name : ν) (mode : ℕ) (hnew : s.names name = none) :
    Store ν where
  names := Function.update s.names name (some s.next)
  inodes := Function.update s.inodes s.next ⟨[], mode⟩
  next := s.next + 1
  fds := s.fds
  names_lt n i h := by
    by_cases hn : n = name
    · subst hn
      rw [Function.update_self, Option.some.injEq] at h
      omega
    · rw [Function.update_of_ne hn] at h
      exact (s.names_lt n i h).trans (Nat.lt_succ_self _)

omit [DecidableEq ν] in
/-- Install a descriptor of file `i` in the lowest free slot, emptying the
file first when asked to. -/
def Store.attach (s : Store ν) (i : ℕ) (trunc : Bool) : ℕ × Store ν :=
  ((install s.fds ⟨i, true⟩).1,
    { s with
      inodes := if trunc then setInode s.inodes i [] else s.inodes
      fds := (install s.fds ⟨i, true⟩).2 })

/-- `open` for reading and writing, with `O_CREAT` and `O_TRUNC` as given. -/
def Store.openFile (s : Store ν) (fault : Option Errno) (name : ν) (creat trunc : Bool)
    (mode : ℕ) : Except Errno ℕ × Store ν :=
  match fault with
  | some e => (.error e, s)
  | none =>
    match h : s.names name with
    | some i => (.ok (s.attach i trunc).1, (s.attach i trunc).2)
    | none =>
      if creat then
        let t := s.createFile name mode h
        (.ok (t.attach s.next false).1, (t.attach s.next false).2)
      else (.error ENOENT, s)

omit [DecidableEq ν] in
/-- `close`. An open descriptor is released whatever the call reports. -/
def Store.close (s : Store ν) (fault : Option Errno) (fd : ℤ) : Except Errno ℕ × Store ν :=
  match s.descriptor fd with
  | none => (.error EBADF, s)
  | some _ =>
    (match fault with
      | some e => .error e
      | none => .ok 0, { s with fds := clear s.fds fd.toNat })

omit [DecidableEq ν] in
/-- `pread` of at most `size` bytes, further limited by `limit`. -/
def Store.pread (s : Store ν) (fault : Option Errno) (limit : ℕ) (fd : ℤ) (size : ℕ)
    (offset : ℤ) : Except Errno (List UInt8) :=
  match fault, s.descriptor fd with
  | some e, _ => .error e
  | none, none => .error EBADF
  | none, some d =>
    if offset < 0 then .error EINVAL
    else .ok (((s.inodes d.ino).content.drop offset.toNat).take (min size limit))

omit [DecidableEq ν] in
/-- `pwrite` of `data`, of which at most `limit` bytes are taken. -/
def Store.pwrite (s : Store ν) (fault : Option Errno) (limit : ℕ) (fd : ℤ) (data : List UInt8)
    (offset : ℤ) : Except Errno ℕ × Store ν :=
  match fault, s.descriptor fd with
  | some e, _ => (.error e, s)
  | none, none => (.error EBADF, s)
  | none, some d =>
    if offset < 0 then (.error EINVAL, s)
    else
      (.ok (min data.length limit), { s with
        inodes := setInode s.inodes d.ino
          (splice (s.inodes d.ino).content (data.take limit) offset.toNat) })

omit [DecidableEq ν] in
/-- `truncate`. -/
def Store.truncate (s : Store ν) (fault : Option Errno) (name : ν) (length : ℤ) :
    Except Errno ℕ × Store ν :=
  match fault, s.names name with
  | some e, _ => (.error e, s)
  | none, none => (.error ENOENT, s)
  | none, some i =>
    if length < 0 then (.error EINVAL, s)
    else
      (.ok 0, { s with
        inodes := setInode s.inodes i (resize (s.inodes i).content length.toNat) })

/-- Take a name away from its file. -/
def Store.dropName (s : Store ν) (name : ν) : Store ν where
  names := Function.update s.names name none
  inodes := s.inodes
  next := s.next
  fds := s.fds
  names_lt n i h := by
    by_cases hn : n = name
    · rw [hn, Function.update_self] at h
      cases h
    · rw [Function.update_of_ne hn] at h
      exact s.names_lt n i h

/-- `unlink`. -/
def Store.unlink (s : Store ν) (fault : Option Errno) (name : ν) : Except Errno ℕ × Store ν :=
  match fault, s.names name with
  | some e, _ => (.error e, s)
  | none, none => (.error ENOENT, s)
  | none, some _ => (.ok 0, s.dropName name)

/-- Give the file of `old` the name `new` instead, which loses its own file. Two names of
one file are both kept. -/
def Store.moveName (s : Store ν) (old new : ν) : Store ν where
  names := if s.names old = s.names new then s.names
    else Function.update (Function.update s.names old none) new (s.names old)
  inodes := s.inodes
  next := s.next
  fds := s.fds
  names_lt n i h := by
    split_ifs at h with hsame
    · exact s.names_lt n i h
    · by_cases hn : n = new
      · rw [hn, Function.update_self] at h
        exact s.names_lt old i h
      · rw [Function.update_of_ne hn] at h
        exact (s.dropName old).names_lt n i h

/-- `rename`. -/
def Store.rename (s : Store ν) (fault : Option Errno) (old new : ν) :
    Except Errno ℕ × Store ν :=
  match fault, s.names old with
  | some e, _ => (.error e, s)
  | none, none => (.error ENOENT, s)
  | none, some _ => (.ok 0, s.moveName old new)

end Calls

/-- Two names are not names of one file. -/
def Store.Apart {ν : Type} (s : Store ν) (m n : ν) : Prop :=
  ∀ i, s.names m = some i → s.names n ≠ some i

/-- Of these names, no two are names of one file. -/
def Store.Unlinked {ν : Type} (s : Store ν) (among : Set ν) : Prop := among.Pairwise s.Apart

section Effects

variable {ν : Type} {s s' : Store ν} {fault : Option Errno} {name old new : ν}
  {e : Errno} {fd : ℤ} {r : Except Errno ℕ} {among : Set ν}

/-- A descriptor that is open has a non-negative number. -/
theorem Store.descriptor_nonneg {d : Descriptor} (h : s.descriptor fd = some d) : 0 ≤ fd := by
  cases fd with
  | ofNat n => exact Int.natCast_nonneg n
  | negSucc n => cases h

/-- A program starts without descriptors of its own. -/
theorem Store.inherited_own {d : Descriptor} (h : s.inherited.descriptor fd = some d) :
    d.own = false := by
  cases fd with
  | negSucc n => cases h
  | ofNat n =>
    have hget : (s.fds.map (Option.map (fun d => (⟨d.ino, false⟩ : Descriptor)))).getD n none =
        some d := h
    rw [List.getD_eq_getElem?_getD, List.getElem?_map] at hget
    cases hn : s.fds[n]? with
    | none => simp [hn] at hget
    | some o =>
      cases o with
      | none => simp [hn] at hget
      | some d' =>
        simp only [hn, Option.map_some, Option.getD_some, Option.some.injEq] at hget
        rw [← hget]

/-- Installing a descriptor opens exactly one number, which was not open. -/
theorem Store.attach_descriptor (s : Store ν) (i : ℕ) (trunc : Bool) :
    s.descriptor (s.attach i trunc).1 = none ∧
      (s.attach i trunc).2.descriptor =
        Function.update s.descriptor ((s.attach i trunc).1 : ℤ) (some ⟨i, true⟩) := by
  refine ⟨slot_install_free s.fds ⟨i, true⟩, ?_⟩
  funext m
  cases m with
  | ofNat m =>
    by_cases hm : m = (install s.fds ⟨i, true⟩).1 <;>
      simp [Store.attach, Store.descriptor, slot_install, hm]
  | negSucc m => simp [Store.attach, Store.descriptor]

/-- Bytes are kept under a name whose designation and file are kept. -/
theorem Store.contentAt_congr {m : ν} (hnames : s'.names m = s.names m)
    (hinodes : ∀ i, s.names m = some i → s'.inodes i = s.inodes i) :
    s'.contentAt m = s.contentAt m := by
  unfold Store.contentAt
  rw [hnames]
  cases hm : s.names m with
  | none => rfl
  | some i => rw [Option.map_some, Option.map_some, hinodes i hm]

/-- What a successful `open` did: the name designates some file, old or new,
and a number that was not open is now a descriptor of it. -/
theorem Store.openFile_ok [DecidableEq ν] {creat trunc : Bool} {mode n : ℕ}
    (h : s.openFile fault name creat trunc mode = (.ok n, s')) :
    ∃ i, s'.names = Function.update s.names name (some i) ∧
      (s.names name = some i ∨ (s.names name = none ∧ i = s.next)) ∧
      (∀ j, j ≠ i → s'.inodes j = s.inodes j) ∧
      (trunc = false → s.names name = some i → s'.inodes i = s.inodes i) ∧
      s.descriptor n = none ∧
      s'.descriptor = Function.update s.descriptor (n : ℤ) (some ⟨i, true⟩) := by
  unfold Store.openFile at h
  cases fault with
  | some e => simp only [Prod.mk.injEq, reduceCtorEq, false_and] at h
  | none =>
    dsimp only at h
    split at h
    · next i hi =>
      obtain ⟨hn, rfl⟩ := Prod.mk.inj h
      cases hn
      obtain ⟨hfree, hopen⟩ := s.attach_descriptor i trunc
      refine ⟨i, ?_, Or.inl hi, ?_, ?_, hfree, hopen⟩
      · exact (Function.update_eq_self_iff.mpr hi.symm).symm
      · intro j hj
        simp only [Store.attach]
        split_ifs
        · exact Function.update_of_ne hj _ _
        · rfl
      · intro ht _
        simp only [Store.attach, ht, Bool.false_eq_true, if_false]
    · next hi =>
      split_ifs at h with hc
      · obtain ⟨hn, rfl⟩ := Prod.mk.inj h
        cases hn
        obtain ⟨hfree, hopen⟩ := (s.createFile name mode hi).attach_descriptor s.next false
        refine ⟨s.next, rfl, Or.inr ⟨hi, rfl⟩, ?_, ?_, hfree, hopen⟩
        · intro j hj
          simp only [Store.attach, Bool.false_eq_true, if_false, Store.createFile]
          exact Function.update_of_ne hj _ _
        · intro _ hsome
          rw [hi] at hsome
          cases hsome
      · simp only [Prod.mk.injEq, reduceCtorEq, false_and] at h

/-- A successful `open` touches no other name, and no bytes but those of its file. -/
theorem Store.openFile_frame [DecidableEq ν] {creat trunc : Bool} {mode n : ℕ}
    (h : s.openFile fault name creat trunc mode = (.ok n, s')) {m : ν} (hm : m ≠ name) :
    s'.names m = s.names m ∧ (s.Apart m name → s'.contentAt m = s.contentAt m) := by
  obtain ⟨i, hnames, hi, hinodes, -⟩ := Store.openFile_ok h
  have hsame : s'.names m = s.names m := by
    rw [hnames, Function.update_of_ne hm]
  refine ⟨hsame, fun hapart => Store.contentAt_congr hsame ?_⟩
  intro j hj
  apply hinodes
  rintro rfl
  rcases hi with hi | ⟨-, hi⟩
  · exact hapart j hj hi
  · exact absurd (s.names_lt m j hj) (by omega)

/-- Links are a matter of the names. -/
theorem Store.unlinked_congr (hnames : s'.names = s.names) (hs : s.Unlinked among) :
    s'.Unlinked among := by
  intro m hm n hn hne i hmi hni
  rw [hnames] at hmi hni
  exact hs hm hn hne i hmi hni

/-- An `open` gives no file a second name. -/
theorem Store.openFile_unlinked [DecidableEq ν] {creat trunc : Bool} {mode n : ℕ}
    (h : s.openFile fault name creat trunc mode = (.ok n, s')) (hs : s.Unlinked among) :
    s'.Unlinked among := by
  obtain ⟨i, hnames, hi, -⟩ := Store.openFile_ok h
  -- No other name designates the file that was opened.
  have hother : ∀ m ∈ among, m ≠ name → name ∈ among → s.names m ≠ some i := by
    intro m hm hne hname hmi
    rcases hi with hi | ⟨-, rfl⟩
    · exact hs hm hname hne i hmi hi
    · exact Nat.lt_irrefl _ (s.names_lt m _ hmi)
  intro m hm n' hn hne j hmj hnj
  rw [hnames] at hmj hnj
  by_cases hm' : m = name
  · have hn' : n' ≠ name := fun hn' => hne (hm'.trans hn'.symm)
    rw [hm', Function.update_self] at hmj
    rw [Function.update_of_ne hn', ← hmj] at hnj
    exact hother n' hn hn' (hm' ▸ hm) hnj
  · rw [Function.update_of_ne hm'] at hmj
    by_cases hn' : n' = name
    · rw [hn', Function.update_self] at hnj
      exact hother m hm hm' (hn' ▸ hn) (hmj.trans hnj.symm)
    · rw [Function.update_of_ne hn'] at hnj
      exact hs hm hn hne j hmj hnj

/-- A failed `open` changes nothing. -/
theorem Store.openFile_error [DecidableEq ν] {creat trunc : Bool} {mode : ℕ}
    (h : s.openFile fault name creat trunc mode = (.error e, s')) : s' = s := by
  unfold Store.openFile at h
  cases fault with
  | some e' => exact (Prod.mk.inj h).2.symm
  | none =>
    dsimp only at h
    split at h
    · simp only [Prod.mk.injEq, reduceCtorEq, false_and] at h
    · split_ifs at h
      · simp only [Prod.mk.injEq, reduceCtorEq, false_and] at h
      · exact (Prod.mk.inj h).2.symm

/-- `open` with `O_CREAT` fails only when the system reports a fault. -/
theorem Store.openFile_creat [DecidableEq ν] (s : Store ν) (fault : Option Errno) (name : ν)
    (trunc : Bool) (mode : ℕ) :
    (∃ e, (s.openFile fault name true trunc mode).1 = .error e) ↔ fault ≠ none := by
  unfold Store.openFile
  cases fault with
  | some e => simp
  | none =>
    dsimp only
    split <;> simp

/-- `close` leaves `fd` closed and every other descriptor as it was. -/
theorem Store.close_descriptor (s : Store ν) (fault : Option Errno) (fd : ℤ) :
    (s.close fault fd).2.descriptor = Function.update s.descriptor fd none := by
  unfold Store.close
  cases hd : s.descriptor fd with
  | none => exact (Function.update_eq_self_iff.mpr hd.symm).symm
  | some d =>
    funext m
    cases fd with
    | negSucc n => cases hd
    | ofNat n =>
      cases m with
      | negSucc m => simp [Store.descriptor]
      | ofNat m =>
        by_cases hm : m = n <;> simp [Store.descriptor, slot_clear, hm]

/-- `close` touches neither names nor bytes. -/
theorem Store.close_frame (s : Store ν) (fault : Option Errno) (fd : ℤ) :
    (s.close fault fd).2.names = s.names ∧ (s.close fault fd).2.inodes = s.inodes := by
  unfold Store.close
  cases s.descriptor fd <;> exact ⟨rfl, rfl⟩

/-- `pwrite` touches neither names nor descriptors, and no file but the one
its descriptor was opened on. -/
theorem Store.pwrite_frame (s : Store ν) (fault : Option Errno) (limit : ℕ) (fd : ℤ)
    (data : List UInt8) (offset : ℤ) :
    (s.pwrite fault limit fd data offset).2.names = s.names ∧
      (s.pwrite fault limit fd data offset).2.descriptor = s.descriptor ∧
      ∀ j, (∀ d, s.descriptor fd = some d → d.ino ≠ j) →
        (s.pwrite fault limit fd data offset).2.inodes j = s.inodes j := by
  unfold Store.pwrite
  cases fault with
  | some e => exact ⟨rfl, rfl, fun _ _ => rfl⟩
  | none =>
    cases hd : s.descriptor fd with
    | none => exact ⟨rfl, rfl, fun _ _ => rfl⟩
    | some d =>
      dsimp only
      split_ifs
      · exact ⟨rfl, rfl, fun _ _ => rfl⟩
      · exact ⟨rfl, rfl, fun j hj => Function.update_of_ne (hj d rfl).symm _ _⟩

/-- `truncate` touches neither names nor descriptors, and no bytes but those of its file. -/
theorem Store.truncate_frame (s : Store ν) (fault : Option Errno) (name : ν) (length : ℤ) :
    (s.truncate fault name length).2.names = s.names ∧
      (s.truncate fault name length).2.descriptor = s.descriptor ∧
      ∀ m, s.Apart m name → (s.truncate fault name length).2.contentAt m = s.contentAt m := by
  unfold Store.truncate
  cases fault with
  | some e => exact ⟨rfl, rfl, fun _ _ => rfl⟩
  | none =>
    cases hi : s.names name with
    | none => exact ⟨rfl, rfl, fun _ _ => rfl⟩
    | some i =>
      dsimp only
      split_ifs
      · exact ⟨rfl, rfl, fun _ _ => rfl⟩
      · refine ⟨rfl, rfl, fun m hm => Store.contentAt_congr rfl ?_⟩
        intro j hj
        have hji : j ≠ i := by
          rintro rfl
          exact hm j hj hi
        exact Function.update_of_ne hji _ _

/-- A file that is empty already is not changed by truncating it. -/
theorem Store.truncate_empty (h : s.contentAt name = some []) (m : ν) :
    (s.truncate fault name 0).2.contentAt m = s.contentAt m := by
  unfold Store.truncate
  cases fault with
  | some e => rfl
  | none =>
    cases hi : s.names name with
    | none => rfl
    | some i =>
      have hempty : (s.inodes i).content = [] := by
        rw [Store.contentAt, hi] at h
        exact Option.some.inj h
      refine Store.contentAt_congr rfl fun j _ => ?_
      by_cases hji : j = i
      · rw [hji]
        have hsame : (⟨resize [] 0, (s.inodes i).mode⟩ : Inode) = s.inodes i := by
          rw [show resize [] 0 = (s.inodes i).content from hempty.symm]
        exact (Function.update_self _ _ _).trans (hempty ▸ hsame)
      · exact Function.update_of_ne hji _ _

/-- `unlink` either fails and changes nothing, or takes the name away. -/
theorem Store.unlink_cases [DecidableEq ν] (h : s.unlink fault name = (r, s')) :
    (∃ e, r = .error e ∧ s' = s) ∨
      (r = .ok 0 ∧ s' = s.dropName name ∧ fault = none ∧ s.names name ≠ none) := by
  unfold Store.unlink at h
  cases fault with
  | some e => exact Or.inl ⟨e, (Prod.mk.inj h).1.symm, (Prod.mk.inj h).2.symm⟩
  | none =>
    cases hi : s.names name with
    | none =>
      rw [hi] at h
      exact Or.inl ⟨ENOENT, (Prod.mk.inj h).1.symm, (Prod.mk.inj h).2.symm⟩
    | some i =>
      rw [hi] at h
      exact Or.inr ⟨(Prod.mk.inj h).1.symm, (Prod.mk.inj h).2.symm, rfl, Option.some_ne_none i⟩

/-- `unlink` touches no other name and no bytes under one. -/
theorem Store.unlink_frame [DecidableEq ν] (s : Store ν) (fault : Option Errno) (name : ν) {m : ν}
    (hm : m ≠ name) :
    (s.unlink fault name).2.names m = s.names m ∧
      (s.unlink fault name).2.contentAt m = s.contentAt m := by
  rcases Store.unlink_cases (Prod.eta (s.unlink fault name)).symm with
    ⟨e, -, hs⟩ | ⟨-, hs, -⟩ <;> rw [hs]
  · exact ⟨rfl, rfl⟩
  · have hsame : (s.dropName name).names m = s.names m := Function.update_of_ne hm _ _
    exact ⟨hsame, Store.contentAt_congr hsame (fun _ _ => rfl)⟩

/-- `unlink` gives no file a second name. -/
theorem Store.unlink_unlinked [DecidableEq ν] (s : Store ν) (fault : Option Errno) (name : ν)
    (hs : s.Unlinked among) : (s.unlink fault name).2.Unlinked among := by
  rcases Store.unlink_cases (Prod.eta (s.unlink fault name)).symm with
    ⟨e, -, hs'⟩ | ⟨-, hs', -⟩ <;> rw [hs']
  · exact hs
  · have hkept : ∀ m i, (s.dropName name).names m = some i → s.names m = some i := by
      intro m i h
      have hdropped : Function.update s.names name none m = some i := h
      by_cases hm : m = name
      · rw [hm, Function.update_self] at hdropped
        cases hdropped
      · rwa [Function.update_of_ne hm] at hdropped
    intro m hm n hn hne i hmi hni
    exact hs hm hn hne i (hkept m i hmi) (hkept n i hni)

/-- `unlink` leaves the descriptors alone. -/
theorem Store.unlink_descriptor [DecidableEq ν] (s : Store ν) (fault : Option Errno) (name : ν) :
    (s.unlink fault name).2.descriptor = s.descriptor := by
  rcases Store.unlink_cases (Prod.eta (s.unlink fault name)).symm with
    ⟨e, -, hs⟩ | ⟨-, hs, -⟩ <;> rw [hs]
  rfl

/-- `rename` either fails and changes nothing, or moves the name. -/
theorem Store.rename_cases [DecidableEq ν] (h : s.rename fault old new = (r, s')) :
    (∃ e, r = .error e ∧ s' = s) ∨
      (r = .ok 0 ∧ s' = s.moveName old new ∧ s.names old ≠ none) := by
  unfold Store.rename at h
  cases fault with
  | some e => exact Or.inl ⟨e, (Prod.mk.inj h).1.symm, (Prod.mk.inj h).2.symm⟩
  | none =>
    cases hi : s.names old with
    | none =>
      rw [hi] at h
      exact Or.inl ⟨ENOENT, (Prod.mk.inj h).1.symm, (Prod.mk.inj h).2.symm⟩
    | some i =>
      rw [hi] at h
      exact Or.inr ⟨(Prod.mk.inj h).1.symm, (Prod.mk.inj h).2.symm, Option.some_ne_none i⟩

/-- A moved name designates the file of the old one. -/
theorem Store.moveName_new [DecidableEq ν] (s : Store ν) (old new : ν) :
    (s.moveName old new).names new = s.names old := by
  simp only [Store.moveName]
  split_ifs with hsame
  · exact hsame.symm
  · exact Function.update_self _ _ _

/-- A moved name is the only one that designates another file than before. -/
theorem Store.moveName_cases [DecidableEq ν] {m : ν} {i : ℕ}
    (h : (s.moveName old new).names m = some i) :
    s.names m = some i ∧ (m = old → s.names old = s.names new) ∨
      m = new ∧ s.names old = some i ∧ s.names old ≠ s.names new := by
  simp only [Store.moveName] at h
  split_ifs at h with hsame
  · exact Or.inl ⟨h, fun _ => hsame⟩
  · by_cases hnew : m = new
    · rw [hnew, Function.update_self] at h
      exact Or.inr ⟨hnew, h, hsame⟩
    · rw [Function.update_of_ne hnew] at h
      by_cases hold : m = old
      · rw [hold, Function.update_self] at h
        cases h
      · rw [Function.update_of_ne hold] at h
        exact Or.inl ⟨h, fun hm => absurd hm hold⟩

/-- `rename` gives no file a second name. -/
theorem Store.rename_unlinked [DecidableEq ν] (s : Store ν) (fault : Option Errno) (new : ν)
    (hs : s.Unlinked among) (hold : old ∈ among) :
    (s.rename fault old new).2.Unlinked among := by
  rcases Store.rename_cases (Prod.eta (s.rename fault old new)).symm with
    ⟨e, -, hs'⟩ | ⟨-, hs', -⟩ <;> rw [hs']
  · exact hs
  · -- A name that keeps the file of the old one is the old one, which was moved.
    have hmoved : ∀ m ∈ among, ∀ i, s.names m = some i → (m = old → s.names old = s.names new) →
        s.names old = some i → s.names old = s.names new := by
      intro m hm i hmi hkept hoi
      by_cases hmo : m = old
      · exact hkept hmo
      · exact absurd hoi (hs hm hold hmo i hmi)
    intro m hm n hn hne i hmi hni
    rcases Store.moveName_cases hmi with ⟨hmi, hmk⟩ | ⟨rfl, hmi, hmn⟩
    · rcases Store.moveName_cases hni with ⟨hni, -⟩ | ⟨-, hni, hnn⟩
      · exact hs hm hn hne i hmi hni
      · exact hnn (hmoved m hm i hmi hmk hni)
    · rcases Store.moveName_cases hni with ⟨hni, hnk⟩ | ⟨rfl, -, -⟩
      · exact hmn (hmoved n hn i hni hnk hmi)
      · exact hne rfl

/-- `rename` touches no other name and no bytes under one. -/
theorem Store.rename_frame [DecidableEq ν] (s : Store ν) (fault : Option Errno) (old new : ν)
    {m : ν} (hold : m ≠ old) (hnew : m ≠ new) :
    (s.rename fault old new).2.names m = s.names m ∧
      (s.rename fault old new).2.contentAt m = s.contentAt m := by
  rcases Store.rename_cases (Prod.eta (s.rename fault old new)).symm with
    ⟨e, -, hs⟩ | ⟨-, hs, -⟩ <;> rw [hs]
  · exact ⟨rfl, rfl⟩
  · have hsame : (s.moveName old new).names m = s.names m := by
      simp only [Store.moveName]
      split_ifs
      · rfl
      · rw [Function.update_of_ne hnew, Function.update_of_ne hold]
    exact ⟨hsame, Store.contentAt_congr hsame (fun _ _ => rfl)⟩

/-- What a successful `rename` did: the new name designates the old one's file. -/
theorem Store.rename_ok [DecidableEq ν] {n : ℕ} (h : s.rename fault old new = (.ok n, s')) :
    s'.names new = s.names old ∧ s'.descriptor = s.descriptor := by
  rcases Store.rename_cases h with ⟨e, he, -⟩ | ⟨-, rfl, -⟩
  · cases he
  · exact ⟨s.moveName_new old new, rfl⟩

end Effects

end LazyFS.PosixStore
