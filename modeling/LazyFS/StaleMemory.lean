import LazyFS.ContentReads
import LazyFS.PatternAcceptance

/-!
# Whether stale memory reaches a client

A new entry lies in memory that holds whatever its last user left there, and
the bytes that the pattern parser does not write stay in it. Two runs of one
client on one content file, alike but for the contents of allocated memory,
are compared here. The real descriptor of a content entry is never read, so
the runs agree as soon as the parser writes all four bytes; when it does not,
the last byte is stale, and the client reads it.
-/

namespace LazyFS.StaleMemory

open MachineWords LinkedCells PathNames PatternParser PosixStore FileOperations ContentReads
  PatternAcceptance

/-- What a client asks for on a content file after creating it. -/
inductive Use where
  | write (buf : List UInt8) (size : UInt64) (offset : Int64)
  | truncate (length : Int64) (fi : Option FuseFileInfo)
  /-- A rename to another content path. -/
  | rename (new : Path) (content : isMetaFile new = false)
  | read (size : UInt64) (offset : Int64)

/-- The request for it when the file is at a path. -/
def Use.op (p : Path) : Use → Op
  | .write buf size offset => .write p buf size offset
  | .truncate length fi => .truncate p length fi
  | .rename new _ => .rename p new
  | .read size offset => .read p size offset

/-- Where the file is after the reply. -/
def Use.moved (p : Path) (r : Reply) : Use → Path
  | .rename new _ => if r.ret = 0 then new else p
  | _ => p

/-- The replies to a client that follows its file. -/
def serve : World → Path → List (Use × Env) → Outcome (List Reply)
  | _, _, [] => .ok []
  | w, p, (u, env) :: us => do
    let (r, next) ← step w ⟨u.op p, env⟩
    let rs ← serve next (u.moved p r) us
    return r :: rs

/-- The replies to a client that creates a file and then uses it. -/
def session (p : Path) (mode : ℕ) (fi : FuseFileInfo) (env : Env) (us : List (Use × Env))
    (w : World) : Outcome (List Reply) := do
  let (r, next) ← lCreate env p mode fi w
  let rs ← serve next p us
  return ⟨r, []⟩ :: rs

/-- Two environments that differ in the contents of allocated memory at most. -/
def SameButMemory (env other : Env) : Prop := other = { env with junk := other.junk }

/-- Two requests of a client that differ in the contents of allocated memory at most. -/
def SameRequest (a b : Use × Env) : Prop := a.1 = b.1 ∧ SameButMemory a.2 b.2

/-- The client of a new file gets the same replies whatever memory held: a session that
is served in one run is served in the other, with the same replies. Nothing is said of a
session that leaves the defined part of C. -/
def Determined (w : World) (p : Path) (mode : ℕ) (fi : FuseFileInfo) : Prop :=
  ∀ env other us vs, SameButMemory env other → List.Forall₂ SameRequest us vs →
    ∀ rs, session p mode fi env us w = .ok rs → session p mode fi other vs w = .ok rs

/-- A cell without the real descriptor of its entry. -/
def forgetCell (c : Cell LFile) : Cell LFile := ⟨c.block, c.value.setRealfd 0⟩

/-- A state without the real descriptors of its entries. -/
def forget (w : World) : World := { w with files := w.files.map forgetCell }

section Forget

variable {env : Env} {p : Path} {w : World}

/-- Forgetting keeps every path where it is. -/
@[simp] theorem forget_find : (forget w).find p = (w.find p).map forgetCell :=
  find_map fun _ => rfl

/-- Sizes are set alike. -/
@[simp] theorem forget_modify_setSize (block : ℕ) (size : Int64) :
    (forget w).modify block (LFile.setSize size) =
      forget (w.modify block (LFile.setSize size)) := by
  simp only [forget, World.modify, LinkedCells.modify, List.map_map, World.mk.injEq, and_true]
  apply List.map_congr_left
  intro c _
  by_cases hb : c.block = block <;>
    simp only [Function.comp_apply, forgetCell, hb, if_true, if_false]
  rfl

/-- The read loop looks at the size and the pattern only. -/
theorem readLoop_forget (f : LFile) (offset : Int64) (rem i : ℕ) :
    readLoop (f.setRealfd 0) offset rem i = readLoop f offset rem i := by
  induction rem generalizing i with
  | zero => rfl
  | succ rem ih => simp only [readLoop, ih]; rfl

/-- A write answers alike, whatever the pattern is. -/
theorem lWrite_forget (hp : isMetaFile p = false) (buf : List UInt8) (size : UInt64)
    (offset : Int64) :
    lWrite env p buf size offset (forget w) =
      ((lWrite env p buf size offset w).1, forget (lWrite env p buf size offset w).2) := by
  simp only [lWrite, forget_find]
  cases w.find p with
  | none => rfl
  | some c =>
    simp only [Option.map_some, hp, Bool.false_eq_true, if_false, forgetCell, LFile.setRealfd,
      forget_modify_setSize]
    split_ifs <;> rfl

/-- So does a truncation. -/
theorem lTruncate_forget (hp : isMetaFile p = false) (length : Int64) :
    lTruncate env p length (forget w) =
      ((lTruncate env p length w).1, forget (lTruncate env p length w).2) := by
  simp only [lTruncate, forget_find]
  cases w.find p with
  | none => rfl
  | some c =>
    simp only [Option.map_some, hp, Bool.false_eq_true, if_false, forgetCell,
      forget_modify_setSize]

/-- So does a read, which parses the path. -/
theorem lRead_forget (hp : isMetaFile p = false) (size : UInt64) (offset : Int64) :
    lRead env p size offset (forget w) = lRead env p size offset w := by
  simp only [lRead, forget_find]
  cases w.find p with
  | none => rfl
  | some c =>
    simp only [Option.map_some, hp, Bool.false_eq_true, if_false, forgetCell, readLoop_forget]

/-- An entry moves alike. -/
theorem moveEntry_forget (c : Cell LFile) (new : Path) :
    moveEntry (forgetCell c) new (forget w) =
      (moveEntry c new w).map (fun out => (out.1, forget out.2)) := by
  unfold moveEntry
  cases strcpyPath new with
  | error u => rfl
  | ok field =>
    simp only [bind, Except.bind, pure, Except.pure, forgetCell, forget]
    cases w.heap.malloc.2.free c.block with
    | error u => rfl
    | ok heap =>
      simp only [Except.map, add, ← del_map (g := forgetCell) fun _ => rfl,
        List.map_append, List.map_cons, List.map_nil]
      rfl

/-- So does the rename of a content file to another. -/
theorem lRename_forget {new : Path} (hp : isMetaFile p = false) (hnew : isMetaFile new = false) :
    lRename env p new (forget w) =
      (lRename env p new w).map (fun out => (out.1, forget out.2)) := by
  simp only [lRename, forget_find]
  cases w.find new with
  | some c => rfl
  | none =>
    cases w.find p with
    | none => rfl
    | some c =>
      simp only [Option.map_some, Option.map_none, hp, hnew, Bool.false_eq_true, Bool.not_false,
        Bool.and_false, Bool.and_true, Bool.or_self, if_false, moveEntry_forget]

end Forget

/-- What a client asks for does not depend on the real descriptors. -/
theorem step_forget {w : World} {p : Path} (hp : isMetaFile p = false) (u : Use) (env : Env) :
    step (forget w) ⟨u.op p, env⟩ =
      (step w ⟨u.op p, env⟩).map (fun out => (out.1, forget out.2)) := by
  cases u with
  | write buf size offset => simp only [step, Use.op, lWrite_forget hp, Except.map]
  | truncate length fi =>
    cases fi <;> simp only [step, Use.op, lFtruncate, lTruncate_forget hp, Except.map]
  | rename new hnew =>
    simp only [step, Use.op, lRename_forget hp hnew]
    cases lRename env p new w <;> rfl
  | read size offset =>
    simp only [step, Use.op, lRead_forget hp]
    cases lRead env p size offset w <;> rfl

/-- Nor does it depend on the contents of allocated memory. -/
theorem step_memory {w : World} {p : Path} {a b : Use × Env} (h : SameRequest a b) :
    step w ⟨b.1.op p, b.2⟩ = step w ⟨a.1.op p, a.2⟩ := by
  obtain ⟨u, env⟩ := a
  obtain ⟨v, other⟩ := b
  obtain ⟨rfl, henv⟩ : u = v ∧ other = { env with junk := other.junk } := h
  rw [henv]
  cases u with
  | truncate length fi => cases fi <;> rfl
  | _ => rfl

/-- The file of a client stays a content file. -/
theorem moved_content {p : Path} (hp : isMetaFile p = false) (r : Reply) (u : Use) :
    isMetaFile (u.moved p r) = false := by
  cases u with
  | rename new hnew =>
    simp only [Use.moved]
    split_ifs
    · exact hnew
    · exact hp
  | _ => exact hp

/-- Clients that differ in stale memory only get the same replies, from states
that differ in real descriptors only. -/
theorem serve_same {w v : World} {p : Path} {us vs : List (Use × Env)}
    (hp : isMetaFile p = false) (hstate : forget w = forget v)
    (hus : List.Forall₂ SameRequest us vs) : serve w p us = serve v p vs := by
  induction hus generalizing w v p with
  | nil => rfl
  | @cons a b us vs hab hrest ih =>
    obtain ⟨u, env⟩ := a
    obtain ⟨u', other⟩ := b
    obtain rfl : u = u' := hab.1
    have hstep : (step w ⟨u.op p, env⟩).map (fun out => (out.1, forget out.2)) =
        (step v ⟨u.op p, other⟩).map (fun out => (out.1, forget out.2)) := by
      rw [← step_forget hp, ← step_forget hp, hstate]
      exact (step_memory hab).symm
    cases hw : step w ⟨u.op p, env⟩ with
    | error c =>
      cases hv : step v ⟨u.op p, other⟩ with
      | error d =>
        rw [hw, hv] at hstep
        cases hstep
        simp only [serve, hw, hv, bind, Except.bind]
      | ok out =>
        rw [hw, hv] at hstep
        cases hstep
    | ok out =>
      cases hv : step v ⟨u.op p, other⟩ with
      | error d =>
        rw [hw, hv] at hstep
        cases hstep
      | ok out' =>
        rw [hw, hv] at hstep
        simp only [Except.map, Except.ok.injEq, Prod.mk.injEq] at hstep
        obtain ⟨hr, hnext⟩ := hstep
        have hserve := ih (moved_content hp out.1 u) hnext
        simp only [serve, hw, hv, bind, Except.bind, ← hr, hserve]

/-- The entry of a new content file. -/
def newFile (w : World) (p : Path) (hlen : p.strlen < MAXPATHLEN) (junk : Junk) : LFile :=
  ⟨⟨p, hlen⟩, 0, (w.nfiles + 1).toInt32, junk.realfd,
    (parsePattern (cString (strncpy p.name 8)) junk.pattern).2⟩

/-- The state after the creation of a content file. -/
def created (w : World) (p : Path) (hlen : p.strlen < MAXPATHLEN) (junk : Junk) : World :=
  { w with
    files := add w.files ⟨w.heap.malloc.1, newFile w p hlen junk⟩
    nfiles := w.nfiles + 1, heap := w.heap.malloc.2 }

section Creation

variable {w : World} {p : Path} {mode : ℕ} {fi : FuseFileInfo}

/-- A new content file is created with the memory's own bytes as its pattern. -/
theorem lCreate_content (env : Env) (hp : isMetaFile p = false) (hnew : w.lookup p = none)
    (hlen : p.strlen < MAXPATHLEN) :
    lCreate env p mode fi w = .ok (cInt fi.fh, created w p hlen env.junk) := by
  have hfind : w.find p = none := lookup_none_iff.mp hnew
  simp only [lCreate, hfind, strcpyPath_of_lt hlen, hp, bind, Except.bind, pure, Except.pure,
    Bool.false_eq_true, if_false]
  rfl

/-- The eight characters that the parser is given, in terms of the name. -/
theorem startsPairs_copy (p : Path) :
    8 ≤ (cString (strncpy p.name 8)).length ∧ StartsPairs (cString (strncpy p.name 8)) ↔
      8 ≤ p.name.length ∧ StartsPairs (p.name.take 8) := by
  rw [cString_strncpy p.noNul, List.length_take]
  simp

/-- The new file as the client reads its first four bytes. -/
theorem session_reads (env : Env) (hp : isMetaFile p = false) (hnew : w.lookup p = none)
    (hlen : p.strlen < MAXPATHLEN) :
    session p mode fi env [(.truncate 4 none, env), (.read 4 0, env)] w =
      .ok [⟨cInt fi.fh, []⟩, ⟨0, []⟩,
        ⟨4, contentBuffer (newFile w p hlen env.junk).pattern 4 0 4⟩] := by
  have hadded : (created w p hlen env.junk).lookup p = some (newFile w p hlen env.junk) := by
    have hlookup : LinkedCells.lookup LFile.key (created w p hlen env.junk).files =
        Function.update w.lookup p (some (newFile w p hlen env.junk)) := lookup_add hnew
    exact (congrFun hlookup p).trans (Function.update_self _ _ _)
  obtain ⟨c, hfind, hvalue⟩ := find_of_lookup hadded
  have hfind' : (created w p hlen env.junk).find p = some c := hfind
  let sized := (created w p hlen env.junk).modify c.block (LFile.setSize 4)
  have htruncate : lTruncate env p 4 (created w p hlen env.junk) = (0, sized) := by
    simp only [lTruncate, hfind', hp, Bool.false_eq_true, if_false, sized]
  have hsized : sized.lookup p = some ((newFile w p hlen env.junk).setSize 4) := by
    have hkey : ∀ f : LFile, (f.setSize 4).key = f.key := fun _ => rfl
    have hcell : sized.find p = some ⟨c.block, c.value.setSize 4⟩ := find_modify_self hkey hfind
    rw [← hvalue]
    exact lookup_of_find hcell
  have hsmall : (4 : UInt64).toNat ≤ intMax := by decide
  have hpos : 0 ≤ (0 : Int64).toInt := by decide
  have hread : lRead env p 4 0 sized = _ := lRead_content hsized hp hsmall hpos
  simp only [session, lCreate_content env hp hnew hlen, serve, step, Use.op, Use.moved, htruncate,
    hread, bind, Except.bind, pure, Except.pure, Except.map]
  rfl

/-- A client of a new content file is served the same whatever memory held,
exactly when a number starts at each of the four pairs of its name. -/
theorem replies_determined_iff (mode : ℕ) (fi : FuseFileInfo) (hp : isMetaFile p = false)
    (hnew : w.lookup p = none) (hlen : p.strlen < MAXPATHLEN) :
    Determined w p mode fi ↔ 8 ≤ p.name.length ∧ StartsPairs (p.name.take 8) := by
  rw [← startsPairs_copy p]
  constructor
  · intro h
    by_contra hrefused
    let old : Env := { Env.quiet with junk := ⟨0, 0, fun _ => 0⟩ }
    let stale : Env := { Env.quiet with junk := ⟨0, 0, fun _ => 1⟩ }
    have hsame : SameButMemory old stale := rfl
    have huses : List.Forall₂ SameRequest
        [(Use.truncate 4 none, old), (Use.read 4 0, old)]
        [(Use.truncate 4 none, stale), (Use.read 4 0, stale)] :=
      .cons ⟨rfl, hsame⟩ (.cons ⟨rfl, hsame⟩ .nil)
    have heq := h old stale _ _ hsame huses _ (session_reads old hp hnew hlen)
    rw [session_reads stale hp hnew hlen] at heq
    have hbuf : contentBuffer (newFile w p hlen stale.junk).pattern 4 0 4 =
        contentBuffer (newFile w p hlen old.junk).pattern 4 0 4 := by
      simpa using heq
    have hbyte := congrArg (fun buf : List UInt8 => buf[3]?) hbuf
    simp only [contentBuffer_getElem? (show 3 < readable 4 0 4 by decide), Option.some.injEq]
      at hbyte
    have hlast : (newFile w p hlen old.junk).pattern 3 =
        (newFile w p hlen stale.junk).pattern 3 := hbyte.symm
    -- The parser never reached the last byte, so it is still the junk.
    simp only [newFile, parsePattern_refused hrefused] at hlast
    exact absurd hlast (by decide)
  · rintro ⟨hlong, hpairs⟩ env other us vs henv hus rs hserved
    have hpattern : newFile w p hlen other.junk =
        (newFile w p hlen env.junk).setRealfd other.junk.realfd := by
      simp only [newFile, LFile.setRealfd, LFile.mk.injEq, true_and]
      exact parsePattern_accepted hlong hpairs _ _
    have hstate : forget (created w p hlen env.junk) = forget (created w p hlen other.junk) := by
      simp only [forget, created, add, List.map_append, List.map_cons, List.map_nil, forgetCell,
        hpattern]
      rfl
    have hserve := serve_same hp hstate hus
    rw [← hserved]
    simp only [session, lCreate_content env hp hnew hlen, lCreate_content other hp hnew hlen,
      bind, Except.bind, hserve]

end Creation

/-- The client of a file with a short name reads what memory held. -/
theorem short_name_reads_memory :
    let p : Path := ⟨ascii "notes", by decide⟩
    ¬ Determined (boot (ascii "/meta") (Store.empty _)) p 0o644 ⟨O_CREAT, 0⟩ := by
  intro p h
  let old : Env := { Env.quiet with junk := ⟨0, 0, fun _ => 0⟩ }
  let stale : Env := { Env.quiet with junk := ⟨0, 0, fun _ => 1⟩ }
  have huses : List.Forall₂ SameRequest
      [(Use.truncate 4 none, old), (Use.read 4 0, old)]
      [(Use.truncate 4 none, stale), (Use.read 4 0, stale)] :=
    .cons ⟨rfl, rfl⟩ (.cons ⟨rfl, rfl⟩ .nil)
  have hzeros : session p 0o644 ⟨O_CREAT, 0⟩ old [(.truncate 4 none, old), (.read 4 0, old)]
      (boot (ascii "/meta") (Store.empty _)) = _ :=
    session_reads old (by decide +kernel) rfl (by decide)
  have hones := congrArg (fun out => out.map (fun rs => rs.map Reply.data))
    (h old stale _ _ rfl huses _ hzeros)
  revert hones
  decide +kernel

/-- Eight digits leave no room for stale memory. -/
theorem replies_determined_iff_deadbeef :
    let p : Path := ⟨ascii "deadbeef_8_1", by decide⟩
    Determined (boot (ascii "/meta") (Store.empty _)) p 0o644 ⟨O_CREAT, 0⟩ := by
  intro p
  exact (replies_determined_iff 0o644 ⟨O_CREAT, 0⟩ (by decide +kernel) (by decide +kernel)
    (by decide)).mpr (by decide +kernel)

end LazyFS.StaleMemory
