import LazyFS.MachineWords

/-!
# Paths, meta files and the names of their real files

The file system has one directory, so a path is a slash and a name. A meta
file is recognised by its suffix, and its real file is named by printing
`metadir/basename` into a fixed buffer: a name that does not fit is cut, and
nothing checks the result.
-/

namespace LazyFS.PathNames

open MachineWords

/-- The size of the path field of a file entry. -/
def MAXPATHLEN : ℕ := 50

/-- The size of the buffers that real paths are printed into. -/
def MAXREALPATHLEN : ℕ := 256

/-- The bytes of an ASCII literal. -/
def ascii (s : String) : List UInt8 := s.toList.map (fun c => c.toNat.toUInt8)

/-- The character `'/'`. -/
def slash : UInt8 := 47

/-- An absolute path, as the kernel passes it: the bytes after the leading
slash, up to the terminator. -/
structure Path where
  /-- What follows the leading slash. -/
  name : List UInt8
  /-- A C string ends at its first zero byte. -/
  noNul : 0 ∉ name
  deriving DecidableEq

/-- The characters of a path. -/
def Path.chars (path : Path) : List UInt8 := slash :: path.name

/-- `strlen(path)`. -/
def Path.strlen (path : Path) : ℕ := path.chars.length

/-- A path of the form `/name`. -/
structure Path.Plain (path : Path) : Prop where
  /-- The name is not empty. -/
  nonempty : path.name ≠ []
  /-- The name contains no slash. -/
  flat : slash ∉ path.name

/-- Whether a path has no special component is computed. -/
instance (path : Path) : Decidable path.Plain :=
  decidable_of_iff (path.name ≠ [] ∧ slash ∉ path.name)
    ⟨fun h => ⟨h.1, h.2⟩, fun h => ⟨h.nonempty, h.flat⟩⟩

/-- `gnu_basename`: what follows the last slash, or everything if there is none. -/
def gnuBasename (path : List UInt8) : List UInt8 :=
  (path.reverse.takeWhile (fun c => c ≠ slash)).reverse

/-- `is_meta_file`: the path ends in `.mhash` or in `.mbinmap`. -/
def isMetaFile (path : Path) : Bool :=
  let l := path.strlen
  (decide (l ≥ 6) && decide (path.chars.drop (l - 6) = ascii ".mhash")) ||
    (decide (l ≥ 8) && decide (path.chars.drop (l - 8) = ascii ".mbinmap"))

/-- The root is no meta file. -/
theorem chars_ne_root {path : Path} (h : isMetaFile path = true) : path.chars ≠ [slash] := by
  intro hroot
  have hname : path = ⟨[], by decide⟩ := by
    cases path
    simpa [Path.chars] using hroot
  rw [hname] at h
  revert h
  decide

/-- The real file a path stands for: `metadir/basename(path)` in full. -/
def realFile (metadir : List UInt8) (path : Path) : List UInt8 :=
  metadir ++ slash :: gnuBasename path.chars

/-- `snprintf(realpath, MAXREALPATHLEN, "%s/%s", metadir, gnu_basename(path))`:
the part of that name the buffer holds. -/
def realpath (metadir : List UInt8) (path : Path) : List UInt8 :=
  (realFile metadir path).take (MAXREALPATHLEN - 1)

/-- The real name and its terminator fit the buffer. -/
def RealFits (metadir : List UInt8) (path : Path) : Prop :=
  (realFile metadir path).length < MAXREALPATHLEN

/-- Whether a path fits the buffer is computed. -/
instance (metadir : List UInt8) (path : Path) : Decidable (RealFits metadir path) :=
  inferInstanceAs (Decidable (_ < _))

/-- A path that was copied into the `path` field of an entry. -/
structure PathField where
  /-- The stored path. -/
  path : Path
  /-- The field holds it together with its terminator. -/
  fits : path.strlen < MAXPATHLEN
  deriving DecidableEq

/-- `strcpy(file->path, path)`. -/
def strcpyPath (path : Path) : Outcome PathField :=
  if h : path.strlen < MAXPATHLEN then .ok ⟨path, h⟩ else .error .bufferOverrun

/-- A path that fits the entry is copied as it is. -/
theorem strcpyPath_of_lt {path : Path} (h : path.strlen < MAXPATHLEN) :
    strcpyPath path = .ok ⟨path, h⟩ := by
  simp only [strcpyPath, dif_pos h]

/-- A copy that returns has stored exactly the path. -/
theorem strcpyPath_eq_ok {path : Path} {field : PathField} (h : strcpyPath path = .ok field) :
    path.strlen < MAXPATHLEN ∧ field.path = path := by
  unfold strcpyPath at h
  split_ifs at h with hlt
  cases h
  exact ⟨hlt, rfl⟩

/-- The base name of a plain path is its name. -/
theorem gnuBasename_plain {path : Path} (h : path.Plain) : gnuBasename path.chars = path.name := by
  have hall : ∀ c ∈ path.name.reverse, decide (c ≠ slash) = true := by
    intro c hc
    exact decide_eq_true (fun he => h.flat (he ▸ List.mem_reverse.mp hc))
  unfold gnuBasename Path.chars
  rw [List.reverse_cons, List.takeWhile_append_of_pos hall]
  simp

/-- A name that fits is printed in full. -/
theorem realpath_of_fits {metadir : List UInt8} {path : Path} (h : RealFits metadir path) :
    realpath metadir path = realFile metadir path := by
  apply List.take_of_length_le
  unfold RealFits at h
  omega

/-- Under one directory, plain paths have real files of their own. -/
theorem realFile_injective {metadir : List UInt8} {p q : Path} (hp : p.Plain) (hq : q.Plain)
    (h : realFile metadir p = realFile metadir q) : p = q := by
  unfold realFile at h
  rw [gnuBasename_plain hp, gnuBasename_plain hq] at h
  have hname : p.name = q.name := (List.cons_inj_right slash).mp (List.append_cancel_left h)
  cases p
  cases q
  cases hname
  rfl

/-- For a plain path, fitting is a bound on the two lengths together. -/
theorem realFits_plain_iff {metadir : List UInt8} {path : Path} (h : path.Plain) :
    RealFits metadir path ↔ metadir.length + path.strlen < MAXREALPATHLEN := by
  unfold RealFits realFile Path.strlen Path.chars
  rw [show slash :: gnuBasename (slash :: path.name) = slash :: path.name from
    congrArg (slash :: ·) (gnuBasename_plain h)]
  rw [List.length_append]

end LazyFS.PathNames
