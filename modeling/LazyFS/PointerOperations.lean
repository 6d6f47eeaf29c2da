import LazyFS.FileOperations
import LazyFS.HashTable
import LazyFS.JenkinsHash

/-!
# The file operations on the table in memory

The callbacks once more, as they run on the hash table itself: every lookup
hashes the path and walks a chain, every entry is read and written through its
address, and an insertion may make or expand the table. What the allocator
decides is added to the environment. The callbacks that look at no entry are
those of the other model.
-/

namespace LazyFS.PointerOperations

open MachineWords LinkedCells PathNames PatternParser PosixStore FileOperations MemoryRegions
  HashTable JenkinsHash

/-- The reasons for which a request does not return. -/
inductive Stop where
  /-- Undefined behaviour of the callback itself. -/
  | undefined (u : Undefined)
  /-- A fault in the code of the table or in an access to an entry. -/
  | table (f : Fault)
  deriving DecidableEq

/-- A callback that works on memory. -/
abbrev Attempt (β : Type) := Except Stop β

/-- A computation of the callback. -/
def ofOutcome {β : Type} (x : Outcome β) : Attempt β := x.mapError Stop.undefined

/-- A computation on memory. -/
def ofAccess {β : Type} (x : Access β) : Attempt β := x.mapError Stop.table

/-- What the allocator decides for one request. -/
structure Allocator where
  /-- The largest number of buckets it grants for one array. -/
  room : ℕ
  /-- What a fresh block holds in the size of an entry. -/
  size : Int64
  /-- What it holds in the hash handle. -/
  handle : UTHashHandle

/-- An allocator that grants a gigabyte and zeroes what it grants. -/
def Allocator.quiet : Allocator := ⟨2 ^ 26, 0, ⟨none, none, none, none, none, 0, 0⟩⟩

/-- The key of an entry as the table sees it. -/
def keyBytes (f : LFile) : List UInt8 := f.path.path.chars

/-- Set the serial number of an entry. -/
def LFile.setFd (fd : Int32) (f : LFile) : LFile := { f with fd := fd }

/-- Set the pattern of an entry. -/
def LFile.setPattern (pattern : Pattern) (f : LFile) : LFile := { f with pattern := pattern }

/-- Write fields of the program in an element. -/
def Element.setValue {α : Type} (f : α → α) (e : Element α) : Element α :=
  { e with value := f e.value }

/-- The process and what it uses of the system. -/
structure Process where
  /-- `l_data.files`, the head of the table. -/
  files : Option ℕ
  /-- `l_data.metadir`. -/
  metadir : List UInt8
  /-- `l_data.nfiles`. -/
  nfiles : UInt32
  /-- The real file system and the descriptor table. -/
  store : Store (List UInt8)
  /-- The memory of the entries and of their table. -/
  memory : Memory LFile
  /-- Every `close` so far. -/
  closes : List CloseCall

/-- The process when the file system is mounted. -/
def boot (metadir : List UInt8) (store : Store (List UInt8)) : Process :=
  ⟨none, metadir, 0, store.inherited, Memory.empty, []⟩

/-- `HASH_FIND_STR(l_data.files, path, file)`. -/
def Process.find (p : Process) (path : Path) : Attempt (Option ℕ) :=
  ofAccess (hashFind keyBytes jenkins p.memory p.files path.chars)

/-- Read the fields of an entry. -/
def Process.entry (p : Process) (file : ℕ) : Attempt LFile := do
  let e ← ofAccess (p.memory.elements.read file)
  return e.value

/-- Write fields of an entry. -/
def Process.modify (p : Process) (file : ℕ) (f : LFile → LFile) : Attempt Process := do
  let elements ← ofAccess (p.memory.elements.modify file (Element.setValue f))
  return { p with memory := { p.memory with elements := elements } }

/-- `malloc(sizeof(struct l_file))` and the copy of a path into the block. -/
def Process.mallocFile (p : Process) (env : Env) (a : Allocator) (path : Path) :
    Attempt (ℕ × Process) := do
  let field ← ofOutcome (strcpyPath path)
  let (file, elements) := p.memory.elements.alloc
    ⟨⟨field, a.size, env.junk.fd, env.junk.realfd, env.junk.pattern⟩, a.handle⟩
  return (file, { p with memory := { p.memory with elements := elements } })

/-- `HASH_ADD_STR(l_data.files, path, file)`. -/
def Process.hashAdd (p : Process) (a : Allocator) (file : ℕ) : Attempt Process := do
  let f ← p.entry file
  let (files, memory) ← ofAccess (hashAddKeyptr jenkins a.room p.files (keyBytes f) file p.memory)
  return { p with files := files, memory := memory }

/-- `HASH_DEL(l_data.files, file)`. -/
def Process.hashDel (p : Process) (file : ℕ) : Attempt Process := do
  let (files, memory) ← ofAccess (hashDelete p.files file p.memory)
  return { p with files := files, memory := memory }

/-- `free(file)`. -/
def Process.free (p : Process) (file : ℕ) : Attempt Process := do
  let elements ← ofAccess (p.memory.elements.free file)
  return { p with memory := { p.memory with elements := elements } }

/-- `l_getattr`. -/
def lGetattr (env : Env) (path : Path) (stbuf : Stat) (p : Process) : Attempt (ℤ × Stat) :=
  if path.chars = [slash] then
    return (0, { stbuf with st_mode := S_IFDIR ||| 0o755, st_nlink := 2 })
  else do
    match ← p.find path with
    | none => return (Errno.neg ENOENT, stbuf)
    | some file =>
      if isMetaFile path then
        match p.store.stat env.fault (realpath p.metadir path) with
        | .error _ => return (-1, stbuf)
        | .ok inode => return (0, { env.realStat with
            st_mode := S_IFREG ||| UInt32.ofNat inode.mode
            st_size := Int64.ofNat inode.content.length })
      else
        let f ← p.entry file
        return (0, { stbuf with
          st_dev := 0, st_ino := 0, st_mode := S_IFREG ||| 0o777, st_nlink := 1
          st_uid := env.uid, st_gid := env.gid, st_rdev := 0, st_blksize := 512
          st_atime := env.now, st_mtime := env.now, st_ctime := env.now
          st_size := f.size, st_blocks := f.size / 512 })

/-- `l_unlink`. -/
def lUnlink (env : Env) (path : Path) (p : Process) : Attempt (ℤ × Process) := do
  match ← p.find path with
  | none => return (Errno.neg ENOENT, p)
  | some file =>
    let call := if isMetaFile path then p.store.unlink env.fault (realpath p.metadir path)
      else (.ok 0, p.store)
    let p ← Process.hashDel { p with store := call.2 } file
    let p ← p.free file
    return (rawResult call.1, p)

/-- `l_truncate`. -/
def lTruncate (env : Env) (path : Path) (length : Int64) (p : Process) :
    Attempt (ℤ × Process) := do
  match ← p.find path with
  | none => return (Errno.neg ENOENT, p)
  | some file =>
    if isMetaFile path then
      let call := p.store.truncate env.fault (realpath p.metadir path) length.toInt
      return (rawResult call.1, { p with store := call.2 })
    else
      let p ← p.modify file (LFile.setSize length)
      return (0, p)

/-- `l_ftruncate`. -/
def lFtruncate (env : Env) (path : Path) (length : Int64) (_fi : FuseFileInfo) (p : Process) :
    Attempt (ℤ × Process) :=
  lTruncate env path length p

/-- `l_open`. -/
def lOpen (env : Env) (path : Path) (fi : FuseFileInfo) (p : Process) :
    Attempt (ℤ × Process) := do
  match ← p.find path with
  | none => return (Errno.neg ENOENT, p)
  | some file =>
    if isMetaFile path then
      match p.store.openFile env.fault (realpath p.metadir path) false false 0 with
      | (.error e, store) => return (Errno.neg e, { p with store := store })
      | (.ok fd, store) =>
        let p ← Process.modify { p with store := store } file (LFile.setRealfd fd)
        return (0, p)
    else if fi.has O_TRUNC then
      let p ← p.modify file (LFile.setSize 0)
      return (0, p)
    else return (0, p)

/-- `l_read`. -/
def lRead (env : Env) (path : Path) (size : UInt64) (offset : Int64) (p : Process) :
    Attempt (ℤ × List UInt8) := do
  match ← p.find path with
  | none => return (Errno.neg ENOENT, [])
  | some file =>
    let f ← p.entry file
    if isMetaFile path then
      match p.store.pread env.fault env.limit f.realfd size.toNat offset.toInt with
      | .error _ => return (-1, [])
      | .ok data => return (cInt (UInt64.ofNat data.length), data)
    else
      let (count, buf) ← ofOutcome (readLoop f offset size.toNat 0)
      return (cInt (UInt64.ofNat count), buf)

/-- `l_write`. -/
def lWrite (env : Env) (path : Path) (buf : List UInt8) (size : UInt64) (offset : Int64)
    (p : Process) : Attempt (ℤ × Process) := do
  match ← p.find path with
  | none => return (Errno.neg ENOENT, p)
  | some file =>
    let f ← p.entry file
    if isMetaFile path then
      let call := p.store.pwrite env.fault env.limit f.realfd (buf.take size.toNat) offset.toInt
      match call.1 with
      | .error _ => return (-1, { p with store := call.2 })
      | .ok n => return (cInt (UInt64.ofNat n), { p with store := call.2 })
    else if f.size.toUInt64 < offset.toUInt64 + size then
      let p ← p.modify file (LFile.setSize (offset.toUInt64 + size).toInt64)
      return (cInt size, p)
    else return (cInt size, p)

/-- `close(file->realfd)` for an entry. -/
def closeEntry (fault : Option Errno) (f : LFile) (p : Process) : ℤ × Process :=
  let call := p.store.close fault f.realfd
  (rawResult call.1, { p with
    store := call.2
    closes := p.closes ++ [⟨f, p.store.descriptor f.realfd,
      p.store.names (realFile p.metadir f.key)⟩] })

/-- `l_release`. -/
def lRelease (env : Env) (path : Path) (p : Process) : Attempt (ℤ × Process) := do
  match ← p.find path with
  | none => return (Errno.neg ENOENT, p)
  | some file =>
    if isMetaFile path then
      let f ← p.entry file
      return closeEntry env.fault f p
    else return (0, p)

/-- The names of entries, without the slash. -/
def Process.names (p : Process) : List ℕ → Attempt (List (List UInt8))
  | [] => return []
  | file :: files => do
    let f ← p.entry file
    let rest ← p.names files
    return f.key.name :: rest

/-- `l_readdir`. -/
def lReaddir (path : Path) (p : Process) : Attempt (ℤ × List (List UInt8)) :=
  if path.chars ≠ [slash] then return (Errno.neg ENOENT, [])
  else do
    let files ← ofAccess (hashIter p.memory.elements p.memory.elements.next p.files)
    let names ← p.names files
    return (0, ascii "." :: ascii ".." :: names)

/-- `l_create`. The table gets a new entry before the fields behind its path
are set. -/
def lCreate (env : Env) (a : Allocator) (path : Path) (mode : ℕ) (fi : FuseFileInfo)
    (p : Process) : Attempt (ℤ × Process) := do
  match ← p.find path with
  | some file =>
    if fi.has O_CREAT && fi.has O_EXCL then return (Errno.neg EEXIST, p)
    else
      let p ← p.modify file (LFile.setSize 0)
      return (cInt fi.fh, p)
  | none =>
    let (file, p) ← p.mallocFile env a path
    let p ← p.modify file (LFile.setSize 0)
    if isMetaFile path then
      match p.store.openFile env.fault (realpath p.metadir path) true true mode with
      | (.error e, store) => return (Errno.neg (env.loggedErrno e), { p with store := store })
      | (.ok fd, store) =>
        let p ← Process.hashAdd { p with store := store } a file
        let p ← p.modify file (LFile.setRealfd fd)
        return (cInt fi.fh, p)
    else
      let p ← p.hashAdd a file
      let nfiles := p.nfiles + 1
      let p ← Process.modify { p with nfiles := nfiles } file (LFile.setFd nfiles.toInt32)
      let f ← p.entry file
      let p ← p.modify file
        (LFile.setPattern (parsePattern (cString (strncpy path.name 8)) f.pattern).2)
      let p ← p.modify file (LFile.setSize 0)
      return (cInt fi.fh, p)

/-- The end of `l_rename`. -/
def moveEntry (env : Env) (a : Allocator) (file : ℕ) (new : Path) (p : Process) :
    Attempt (ℤ × Process) := do
  let (newfile, p) ← p.mallocFile env a new
  let p ← p.hashAdd a newfile
  let f ← p.entry file
  let p ← p.modify newfile (LFile.setFd f.fd)
  let p ← p.modify newfile (LFile.setSize f.size)
  let p ← p.modify newfile (LFile.setRealfd f.realfd)
  let p ← p.modify newfile (LFile.setPattern (strncpyPattern f.pattern))
  let p ← p.hashDel file
  let p ← p.free file
  return (0, p)

/-- `l_rename`. -/
def lRename (env : Env) (a : Allocator) (old new : Path) (p : Process) :
    Attempt (ℤ × Process) := do
  match ← p.find new with
  | some _ => return (Errno.neg EEXIST, p)
  | none =>
    match ← p.find old with
    | none => return (Errno.neg ENOENT, p)
    | some file =>
      if (isMetaFile old && !isMetaFile new) || (isMetaFile new && !isMetaFile old) then
        return (Errno.neg EINVAL, p)
      else if isMetaFile old && isMetaFile new then
        match p.store.rename env.fault (realpath p.metadir old) (realpath p.metadir new) with
        | (.error e, store) => return (Errno.neg (env.loggedErrno e), { p with store := store })
        | (.ok _, store) => moveEntry env a file new { p with store := store }
      else moveEntry env a file new p

/-- The next entry of the iteration, if there is one. -/
def Process.nextOf (p : Process) (tmp : Option ℕ) : Attempt (Option ℕ) :=
  match tmp with
  | none => .ok none
  | some t => do
    let e ← ofAccess (p.memory.elements.read t)
    return e.hh.next

/-- The loop of `l_destroy`, which knows the next entry before it unlinks one.
The head it works on is the local one. Returns the entries visited. -/
def destroyLoop : (fuel : ℕ) → (f tmp : Option ℕ) → Process → Attempt (List ℕ × Process)
  | _, none, _, p => return ([], p)
  | 0, some _, _, _ => .error (.table .unending)
  | fuel + 1, some f, tmp, p => do
    let file ← p.entry f
    let p := if file.realfd ≠ -1 then (closeEntry none file p).2 else p
    let p ← p.hashDel f
    let p ← p.free f
    let next ← p.nextOf tmp
    let (visited, p) ← destroyLoop fuel tmp next p
    return (f :: visited, p)

/-- `l_destroy`. Returns the entries visited, the local head at the end, and the
process, whose own head was not written. -/
def lDestroy (userdata : UserData) (p : Process) : Attempt (List ℕ × Option ℕ × Process) :=
  match userdata with
  | .null => .error (.undefined .nullDereference)
  | .lData => do
    let tmp ← p.nextOf p.files
    let (visited, q) ← destroyLoop p.memory.elements.next p.files tmp p
    return (visited, q.files, { q with files := p.files })

/-- Serve one request. -/
def step (p : Process) (e : Event × Allocator) : Attempt (Reply × Process) :=
  match e.1.op with
  | .getattr path stbuf _ => (lGetattr e.1.env path stbuf p).map (fun (r, _) => (⟨r, []⟩, p))
  | .unlink path => (lUnlink e.1.env path p).map (fun (r, p) => (⟨r, []⟩, p))
  | .truncate path length none =>
    (lTruncate e.1.env path length p).map (fun (r, p) => (⟨r, []⟩, p))
  | .truncate path length (some fi) =>
    (lFtruncate e.1.env path length fi p).map (fun (r, p) => (⟨r, []⟩, p))
  | .open path fi => (lOpen e.1.env path fi p).map (fun (r, p) => (⟨r, []⟩, p))
  | .read path size offset =>
    (lRead e.1.env path size offset p).map (fun (r, buf) => (⟨r, buf⟩, p))
  | .write path buf size offset =>
    (lWrite e.1.env path buf size offset p).map (fun (r, p) => (⟨r, []⟩, p))
  | .release path => (lRelease e.1.env path p).map (fun (r, p) => (⟨r, []⟩, p))
  | .readdir path => (lReaddir path p).map (fun (r, _) => (⟨r, []⟩, p))
  | .create path mode fi => (lCreate e.1.env e.2 path mode fi p).map (fun (r, p) => (⟨r, []⟩, p))
  | .rename old new => (lRename e.1.env e.2 old new p).map (fun (r, p) => (⟨r, []⟩, p))

end LazyFS.PointerOperations
