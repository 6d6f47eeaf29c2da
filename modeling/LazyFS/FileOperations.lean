import LazyFS.LinkedCells
import LazyFS.PathNames
import LazyFS.PatternParser
import LazyFS.PosixStore

/-!
# The file operations

One definition for each callback of the file system, over an explicit world:
the file table with its counters, the heap its entries live in, and the real
store with the descriptor table. A content file is only an entry; a meta file
is an entry whose operations are passed on to a real file. What the real
system decides for a call stands in its environment: a failure, a short
transfer, the contents of fresh memory, the clock.
-/

namespace LazyFS.FileOperations

open MachineWords LinkedCells PathNames PatternParser PosixStore

/-- `O_CREAT`. -/
def O_CREAT : UInt32 := 0o100

/-- `O_EXCL`. -/
def O_EXCL : UInt32 := 0o200

/-- `O_TRUNC`. -/
def O_TRUNC : UInt32 := 0o1000

/-- `S_IFDIR`. -/
def S_IFDIR : UInt32 := 0o40000

/-- `S_IFREG`. -/
def S_IFREG : UInt32 := 0o100000

/-- The file information passed along with a request. -/
structure FuseFileInfo where
  /-- The open flags. -/
  flags : UInt32
  /-- The file handle, which these callbacks never set. -/
  fh : UInt64
  deriving DecidableEq

/-- Whether a flag is set. -/
def FuseFileInfo.has (fi : FuseFileInfo) (flag : UInt32) : Bool := fi.flags &&& flag ≠ 0

/-- `struct stat`. -/
structure Stat where
  st_dev : UInt64
  st_ino : UInt64
  st_mode : UInt32
  st_nlink : UInt64
  st_uid : UInt32
  st_gid : UInt32
  st_rdev : UInt64
  st_size : Int64
  st_blksize : Int64
  st_blocks : Int64
  st_atime : Int64
  st_mtime : Int64
  st_ctime : Int64
  deriving DecidableEq

/-- An entry of the file table, without its hash handle. -/
structure LFile where
  /-- The path, which is also the key. -/
  path : PathField
  /-- The size of a content file. -/
  size : Int64
  /-- A serial number. -/
  fd : Int32
  /-- The descriptor of a meta file, if it is stored on the real file system. -/
  realfd : ℤ
  /-- The bytes of a content file, repeated. -/
  pattern : Pattern

/-- The key of an entry. -/
def LFile.key (f : LFile) : Path := f.path.path

/-- What a fresh block holds in the fields of an entry. -/
structure Junk where
  fd : Int32
  realfd : ℤ
  pattern : Pattern

/-- What the system decides for one request. -/
structure Env where
  /-- The error of the real call made for it, if that call fails. -/
  fault : Option Errno
  /-- The error number that writing to the log leaves behind, if it changes it. Nothing
  is written if the file system was mounted without a log file. -/
  logged : Option Errno
  /-- How many bytes a real transfer moves at most. -/
  limit : ℕ
  /-- The contents of memory that is allocated. -/
  junk : Junk
  /-- `time(NULL)`. -/
  now : Int64
  /-- `getuid()`. -/
  uid : UInt32
  /-- `getgid()`. -/
  gid : UInt32
  /-- What `stat` reports of a real file beyond its size and mode. -/
  realStat : Stat

/-- `errno` once the failure of a call has been logged. -/
def Env.loggedErrno (env : Env) (e : Errno) : Errno := env.logged.getD e

/-- An environment in which no call fails and fresh memory is zero. -/
def Env.quiet : Env where
  fault := none
  logged := none
  limit := 2 ^ 31
  junk := ⟨0, 0, fun _ => 0⟩
  now := 0
  uid := 0
  gid := 0
  realStat := ⟨0, 0, 0, 0, 0, 0, 0, 0, 0, 0, 0, 0, 0⟩

/-- A `close` that was performed, for the entry it was performed for. -/
structure CloseCall where
  /-- The entry whose `realfd` was closed. -/
  entry : LFile
  /-- What the number referred to when it was closed. -/
  target : Option Descriptor
  /-- The real file of the entry's path at that moment. -/
  real : Option ℕ

/-- The state of the process and of what it uses of the system. The first
three fields are those of `l_data`; `closes` only records. -/
structure World where
  /-- The hash table of files, in insertion order. -/
  files : List (Cell LFile)
  /-- The real directory of the meta files. -/
  metadir : List UInt8
  /-- How many content files were created. -/
  nfiles : UInt32
  /-- The real file system and the descriptor table. -/
  store : Store (List UInt8)
  /-- The blocks that entries live in. -/
  heap : Heap
  /-- Every `close` so far. -/
  closes : List CloseCall

/-- The state when the file system is mounted: an empty table over whatever
the real directory holds and whatever descriptors are open. -/
def boot (metadir : List UInt8) (store : Store (List UInt8)) : World :=
  ⟨[], metadir, 0, store.inherited, Heap.empty, []⟩

/-- `HASH_FIND_STR(l_data.files, path, file)`. -/
def World.find (w : World) (path : Path) : Option (Cell LFile) :=
  LinkedCells.find LFile.key w.files path

/-- The table as a finite map. -/
def World.lookup (w : World) (path : Path) : Option LFile :=
  LinkedCells.lookup LFile.key w.files path

/-- Write fields of an entry in place. -/
def World.modify (w : World) (block : ℕ) (f : LFile → LFile) : World :=
  { w with files := LinkedCells.modify w.files block f }

/-- Set the size of an entry. -/
def LFile.setSize (size : Int64) (f : LFile) : LFile := { f with size := size }

/-- Set the real descriptor of an entry. -/
def LFile.setRealfd (realfd : ℤ) (f : LFile) : LFile := { f with realfd := realfd }

/-- The value of a system call that reports failure as -1. -/
def rawResult : Except Errno ℕ → ℤ
  | .ok n => n
  | .error _ => -1

/-- An error number as a callback returns it. -/
def Errno.neg (e : Errno) : ℤ := -(e.code : ℤ)

/-- `l_getattr`. -/
def lGetattr (env : Env) (path : Path) (stbuf : Stat) (w : World) : ℤ × Stat :=
  if path.chars = [slash] then
    (0, { stbuf with st_mode := S_IFDIR ||| 0o755, st_nlink := 2 })
  else
    match w.find path with
    | none => (Errno.neg ENOENT, stbuf)
    | some file =>
      if isMetaFile path then
        match w.store.stat env.fault (realpath w.metadir path) with
        | .error _ => (-1, stbuf)
        | .ok inode => (0, { env.realStat with
            st_mode := S_IFREG ||| UInt32.ofNat inode.mode
            st_size := Int64.ofNat inode.content.length })
      else
        (0, { stbuf with
          st_dev := 0, st_ino := 0, st_mode := S_IFREG ||| 0o777, st_nlink := 1
          st_uid := env.uid, st_gid := env.gid, st_rdev := 0, st_blksize := 512
          st_atime := env.now, st_mtime := env.now, st_ctime := env.now
          st_size := file.value.size, st_blocks := file.value.size / 512 })

/-- `l_unlink`. The entry goes whatever became of the real file. -/
def lUnlink (env : Env) (path : Path) (w : World) : Outcome (ℤ × World) :=
  match w.find path with
  | none => .ok (Errno.neg ENOENT, w)
  | some file =>
    let call := if isMetaFile path then w.store.unlink env.fault (realpath w.metadir path)
      else (.ok 0, w.store)
    match w.heap.free file.block with
    | .error u => .error u
    | .ok heap =>
      .ok (rawResult call.1, { w with
        files := del w.files file.block, store := call.2, heap := heap })

/-- `l_truncate`. -/
def lTruncate (env : Env) (path : Path) (length : Int64) (w : World) : ℤ × World :=
  match w.find path with
  | none => (Errno.neg ENOENT, w)
  | some file =>
    if isMetaFile path then
      let call := w.store.truncate env.fault (realpath w.metadir path) length.toInt
      (rawResult call.1, { w with store := call.2 })
    else (0, w.modify file.block (LFile.setSize length))

/-- `l_ftruncate`. -/
def lFtruncate (env : Env) (path : Path) (length : Int64) (_fi : FuseFileInfo) (w : World) :
    ℤ × World :=
  lTruncate env path length w

/-- `l_open`. A meta file is opened without passing the flags on. -/
def lOpen (env : Env) (path : Path) (fi : FuseFileInfo) (w : World) : ℤ × World :=
  match w.find path with
  | none => (Errno.neg ENOENT, w)
  | some file =>
    if isMetaFile path then
      match w.store.openFile env.fault (realpath w.metadir path) false false 0 with
      | (.error e, store) => (Errno.neg e, { w with store := store })
      | (.ok fd, store) =>
        (0, World.modify { w with store := store } file.block (LFile.setRealfd fd))
    else if fi.has O_TRUNC then (0, w.modify file.block (LFile.setSize 0))
    else (0, w)

/-- The inner loop of `l_read`: zero the buffer from index `j` on, with `rem`
bytes left. -/
def fillZeros : (rem j : ℕ) → Outcome (List UInt8)
  | 0, _ => .ok []
  | rem + 1, j => do
    let next ← incInt j
    let rest ← fillZeros rem next
    return 0 :: rest

/-- The outer loop of `l_read` at index `i`, with `rem` bytes left: how many
bytes were read in all, and the buffer from index `i` on. -/
def readLoop (file : LFile) (offset : Int64) : (rem i : ℕ) → Outcome (ℕ × List UInt8)
  | 0, i => .ok (i, [])
  | rem + 1, i => do
    let position ← addOffset offset i
    if position ≥ file.size.toInt then
      -- Fill remaining buffer with 0s.
      let rest ← fillZeros (rem + 1) i
      return (i, rest)
    else
      let index := position.tmod 4
      if h : 0 ≤ index ∧ index.toNat < 4 then
        let next ← incInt i
        let (count, rest) ← readLoop file offset rem next
        return (count, file.pattern ⟨index.toNat, h.2⟩ :: rest)
      else throw .outOfBounds

/-- `l_read`: the result and the contents of the buffer afterwards. -/
def lRead (env : Env) (path : Path) (size : UInt64) (offset : Int64) (w : World) :
    Outcome (ℤ × List UInt8) :=
  match w.find path with
  | none => .ok (Errno.neg ENOENT, [])
  | some file =>
    if isMetaFile path then
      match w.store.pread env.fault env.limit file.value.realfd size.toNat offset.toInt with
      | .error _ => .ok (-1, [])
      | .ok data => .ok (cInt (UInt64.ofNat data.length), data)
    else do
      let (count, buf) ← readLoop file.value offset size.toNat 0
      return (cInt (UInt64.ofNat count), buf)

/-- `l_write`. The buffer of a content file is not looked at. -/
def lWrite (env : Env) (path : Path) (buf : List UInt8) (size : UInt64) (offset : Int64)
    (w : World) : ℤ × World :=
  match w.find path with
  | none => (Errno.neg ENOENT, w)
  | some file =>
    if isMetaFile path then
      let call := w.store.pwrite env.fault env.limit file.value.realfd (buf.take size.toNat)
        offset.toInt
      match call.1 with
      | .error _ => (-1, { w with store := call.2 })
      | .ok n => (cInt (UInt64.ofNat n), { w with store := call.2 })
    else if file.value.size.toUInt64 < offset.toUInt64 + size then
      (cInt size, w.modify file.block (LFile.setSize (offset.toUInt64 + size).toInt64))
    else (cInt size, w)

/-- `close(file->realfd)` for an entry. -/
def closeEntry (fault : Option Errno) (f : LFile) (w : World) : ℤ × World :=
  let call := w.store.close fault f.realfd
  (rawResult call.1, { w with
    store := call.2
    closes := w.closes ++ [⟨f, w.store.descriptor f.realfd,
      w.store.names (realFile w.metadir f.key)⟩] })

/-- `l_release`. -/
def lRelease (env : Env) (path : Path) (w : World) : ℤ × World :=
  match w.find path with
  | none => (Errno.neg ENOENT, w)
  | some file =>
    if isMetaFile path then closeEntry env.fault file.value w
    else (0, w)

/-- `l_readdir`: the result and the names passed to the filler. -/
def lReaddir (path : Path) (w : World) : ℤ × List (List UInt8) :=
  if path.chars ≠ [slash] then (Errno.neg ENOENT, [])
  else (0, ascii "." :: ascii ".." :: w.files.map (fun f => f.value.key.name))

/-- `l_create`. A path that is present falls through to the size reset. -/
def lCreate (env : Env) (path : Path) (mode : ℕ) (fi : FuseFileInfo) (w : World) :
    Outcome (ℤ × World) :=
  match w.find path with
  | some file =>
    if fi.has O_CREAT && fi.has O_EXCL then .ok (Errno.neg EEXIST, w)
    else .ok (cInt fi.fh, w.modify file.block (LFile.setSize 0))
  | none => do
    let (block, heap) := w.heap.malloc
    let field ← strcpyPath path
    if isMetaFile path then
      match w.store.openFile env.fault (realpath w.metadir path) true true mode with
      | (.error e, store) =>
        return (Errno.neg (env.loggedErrno e), { w with store := store, heap := heap })
      | (.ok fd, store) =>
        return (cInt fi.fh, { w with
          files := add w.files ⟨block, ⟨field, 0, env.junk.fd, fd, env.junk.pattern⟩⟩
          store := store, heap := heap })
    else
      let nfiles := w.nfiles + 1
      let pattern := cString (strncpy path.name 8)
      let file : LFile := ⟨field, 0, nfiles.toInt32, env.junk.realfd,
        (parsePattern pattern env.junk.pattern).2⟩
      return (cInt fi.fh, { w with
        files := add w.files ⟨block, file⟩, nfiles := nfiles, heap := heap })

/-- The end of `l_rename`: a new entry takes the fields of the old one over,
which is then removed. -/
def moveEntry (file : Cell LFile) (new : Path) (w : World) : Outcome (ℤ × World) := do
  let field ← strcpyPath new
  let (block, heap) := w.heap.malloc
  let newfile : LFile := ⟨field, file.value.size, file.value.fd, file.value.realfd,
    strncpyPattern file.value.pattern⟩
  let heap ← heap.free file.block
  return (0, { w with files := del (add w.files ⟨block, newfile⟩) file.block, heap := heap })

/-- `l_rename`. -/
def lRename (env : Env) (old new : Path) (w : World) : Outcome (ℤ × World) :=
  match w.find new with
  | some _ => .ok (Errno.neg EEXIST, w)
  | none =>
    match w.find old with
    | none => .ok (Errno.neg ENOENT, w)
    | some file =>
      if (isMetaFile old && !isMetaFile new) || (isMetaFile new && !isMetaFile old) then
        .ok (Errno.neg EINVAL, w)
      else if isMetaFile old && isMetaFile new then
        match w.store.rename env.fault (realpath w.metadir old) (realpath w.metadir new) with
        | (.error e, store) => .ok (Errno.neg (env.loggedErrno e), { w with store := store })
        | (.ok _, store) => moveEntry file new { w with store := store }
      else moveEntry file new w

/-- What `l_init` returns and `l_destroy` is called with. -/
inductive UserData where
  /-- A null pointer. -/
  | null
  /-- `&l_data`. -/
  | lData
  deriving DecidableEq

/-- `l_init`. -/
def lInit : UserData := .null

/-- The loop of `l_destroy`: the entries still to visit, taken from the chain
of `next` pointers before each entry is unlinked, and the local table. Returns
the blocks visited and the local table at the end. -/
def destroyLoop : List (Cell LFile) → List (Cell LFile) → World →
    Outcome (List ℕ × List (Cell LFile) × World)
  | [], files, w => .ok ([], files, w)
  | f :: tmp, files, w => do
    let closed := if f.value.realfd ≠ -1 then (closeEntry none f.value w).2 else w
    let heap ← closed.heap.free f.block
    let (visited, files, w) ← destroyLoop tmp (del files f.block) { closed with heap := heap }
    return (f.block :: visited, files, w)

/-- `l_destroy`, which reads the table through its argument. -/
def lDestroy (userdata : UserData) (w : World) : Outcome (List ℕ × List (Cell LFile) × World) :=
  match userdata with
  | .null => .error .nullDereference
  | .lData => destroyLoop w.files w.files w

/-- A request from the kernel. -/
inductive Op where
  /-- `l_getattr`, or `l_fgetattr` when a handle is passed. -/
  | getattr (path : Path) (stbuf : Stat) (fi : Option FuseFileInfo)
  | unlink (path : Path)
  /-- `l_truncate`, or `l_ftruncate` when a handle is passed. -/
  | truncate (path : Path) (length : Int64) (fi : Option FuseFileInfo)
  | open (path : Path) (fi : FuseFileInfo)
  | read (path : Path) (size : UInt64) (offset : Int64)
  | write (path : Path) (buf : List UInt8) (size : UInt64) (offset : Int64)
  | release (path : Path)
  | readdir (path : Path)
  | create (path : Path) (mode : ℕ) (fi : FuseFileInfo)
  | rename (old new : Path)

/-- A request and what the system decides for it. -/
structure Event where
  /-- The callback and its arguments. -/
  op : Op
  /-- The environment it runs in. -/
  env : Env

/-- What a callback gives back. -/
structure Reply where
  /-- Its return value. -/
  ret : ℤ
  /-- The buffer a read filled. -/
  data : List UInt8

/-- Serve one request. -/
def step (w : World) (e : Event) : Outcome (Reply × World) :=
  match e.op with
  | .getattr path stbuf _ => .ok (⟨(lGetattr e.env path stbuf w).1, []⟩, w)
  | .unlink path => (lUnlink e.env path w).map (fun (r, w) => (⟨r, []⟩, w))
  | .truncate path length none =>
    .ok (⟨(lTruncate e.env path length w).1, []⟩, (lTruncate e.env path length w).2)
  | .truncate path length (some fi) =>
    .ok (⟨(lFtruncate e.env path length fi w).1, []⟩, (lFtruncate e.env path length fi w).2)
  | .open path fi => .ok (⟨(lOpen e.env path fi w).1, []⟩, (lOpen e.env path fi w).2)
  | .read path size offset => (lRead e.env path size offset w).map (fun (r, buf) => (⟨r, buf⟩, w))
  | .write path buf size offset =>
    .ok (⟨(lWrite e.env path buf size offset w).1, []⟩, (lWrite e.env path buf size offset w).2)
  | .release path => .ok (⟨(lRelease e.env path w).1, []⟩, (lRelease e.env path w).2)
  | .readdir path => .ok (⟨(lReaddir path w).1, []⟩, w)
  | .create path mode fi => (lCreate e.env path mode fi w).map (fun (r, w) => (⟨r, []⟩, w))
  | .rename old new => (lRename e.env old new w).map (fun (r, w) => (⟨r, []⟩, w))

end LazyFS.FileOperations
