import LazyFS.MockPatterns
import LazyFS.PatternLaw
import LazyFS.SlicedReads

/-!
# What a mock file contains

The tool writes a number as eight hexadecimal digits into a file name, and the
file system decodes the digits into the four bytes that the file repeats. The
two conversions are inverse to each other, so a mock file holds the bytes of the
number that was drawn for it, the most significant one first, and mock files of
one size with different numbers have different contents. A name that ends like
the name of a meta file is none of a content file, whatever it starts with.
-/

namespace LazyFS.MockContents

open MachineWords LinkedCells PathNames PatternParser PosixStore FileOperations ContentReads
  GuardedRun ServedRequests SafeRuns PatternLaw SlicedReads PythonText MetaDatabase MockPatterns

/-- The four bytes of a number, the most significant one first. -/
def bigEndian (v : UInt32) : Pattern := fun j => UInt8.ofNat (v.toNat / 256 ^ (3 - (j : ℕ)))

/-- Those four bytes, repeated for `n` bytes. -/
def mockContent (v : UInt32) (n : ℕ) : Bytes := (List.range n).map (patternByte (bigEndian v))

/-- The requests of `open(path, 'w')`, `truncate(length)` and `close()` for a new file. -/
def mockRequests (p : Path) (length : Int64) (mode : ℕ) (flags : UInt32)
    (creating truncating closing : Env) : List Event :=
  [⟨.create p mode ⟨flags, 0⟩, creating⟩, ⟨.truncate p length (some ⟨flags, 0⟩), truncating⟩,
    ⟨.release p, closing⟩]

/-- The requests of opening a file and reading it piece after piece. -/
def readRequests (p : Path) (opening : Env) (pieces : List Piece) : List Event :=
  ⟨.open p ⟨0, 0⟩, opening⟩ :: pieces.map (Piece.event p)

/-- Whoever opens a file and reads it from its beginning to its end, in whatever
pieces, gets this content. -/
def ReadsBack (w : World) (p : Path) (content : Bytes) : Prop :=
  ∀ opening pieces, Consecutive 0 pieces → (∀ piece ∈ pieces, piece.size.toNat ≤ intMax) →
    content.length ≤ total pieces →
    ∃ rs w', run step w (readRequests p opening pieces) = .ok (rs, w') ∧
      (rs.map kept).flatten = content

/-- A mock file that was created, truncated and closed reads back as its number. -/
def MockReadsBack (w : World) (p : Path) (v : UInt32) (length : Int64) (mode : ℕ)
    (flags : UInt32) (creating truncating closing : Env) : Prop :=
  ∃ rs w', run step w (mockRequests p length mode flags creating truncating closing) =
      .ok (rs, w') ∧
    ReadsBack w' p (mockContent v length.toInt.toNat)

/-- A root hash that never takes two mock contents of this size for the same one, when
they are hashed with these chunk sizes. -/
def TellsMocksApart {H : Type} (rootHash : Bytes → Bytes → H) (chunk chunk' : Bytes) (n : ℕ) :
    Prop :=
  ∀ u u', rootHash chunk' (mockContent u' n) = rootHash chunk (mockContent u n) →
    mockContent u' n = mockContent u n

/-- The digits in front of a name. -/
theorem getD_randPattern (v : UInt32) (rest : Bytes) {i : ℕ} (h : i < 8) :
    (randPattern v ++ rest).getD i 0 = hexChar (v.toNat / 16 ^ (7 - i) % 16) := by
  have hlen : i < (paddedHex 8 v.toNat).length := by rw [paddedHex_length]; exact h
  rw [randPattern_eq, List.getD_eq_getElem?_getD, List.getElem?_append_left hlen,
    paddedHex_getElem? _ h, Option.getD_some]

/-- Two digits spell the byte of which they are the halves. -/
theorem hexDigit_pair (n : ℕ) :
    16 * hexDigit (hexChar (n / 16 % 16)) + hexDigit (hexChar (n % 16)) = UInt8.ofNat n := by
  have hvalue : ∀ d < 16, hexDigit (hexChar d) = UInt8.ofNat d := by
    intro d hd
    rw [hexDigit, (hexChar_spec hd).2.2, Option.getD_some]
  rw [hvalue _ (Nat.mod_lt _ (by decide)), hvalue _ (Nat.mod_lt _ (by decide))]
  apply UInt8.toNat_inj.mp
  simp only [UInt8.toNat_add, UInt8.toNat_mul, UInt8.toNat_ofNat', UInt8.toNat_ofNat]
  omega

/-- A name that starts with a drawn pattern spells one. -/
theorem spells_randPattern (v : UInt32) (rest : Bytes) : SpellsPattern (randPattern v ++ rest) := by
  have hmock := randPattern_mockPattern v
  constructor
  · rw [List.length_append, hmock.length]
    omega
  · intro c hc
    rw [List.take_left' hmock.length] at hc
    have hall : ∀ c : UInt8, isLowerHex c = true → hexValue c ≠ none := by decide +kernel
    exact hall c (hmock.digits c hc)

/-- The file system decodes a drawn pattern to the bytes of its number. -/
theorem spelledPattern_randPattern (v : UInt32) (rest : Bytes) :
    spelledPattern (randPattern v ++ rest) = bigEndian v := by
  funext j
  obtain ⟨j, hj⟩ := j
  have hhigh : 7 - 2 * j = 2 * (3 - j) + 1 := by omega
  have hlow : 7 - (2 * j + 1) = 2 * (3 - j) := by omega
  have hbyte : (16 : ℕ) ^ (2 * (3 - j)) = 256 ^ (3 - j) := Nat.pow_mul 16 2 (3 - j)
  simp only [spelledPattern, bigEndian]
  rw [getD_randPattern v rest (by omega), getD_randPattern v rest (by omega), hhigh, hlow,
    Nat.pow_succ, hbyte, ← Nat.div_div_eq_div_mul, hexDigit_pair]

/-- Different numbers have different bytes. -/
theorem bigEndian_injective {v v' : UInt32} (h : bigEndian v = bigEndian v') : v = v' := by
  have hbyte : ∀ j : Fin 4, v.toNat / 256 ^ (3 - (j : ℕ)) % 256 =
      v'.toNat / 256 ^ (3 - (j : ℕ)) % 256 := by
    intro j
    have hj := congrArg UInt8.toNat (congrFun h j)
    simpa only [bigEndian, UInt8.toNat_ofNat'] using hj
  have h0 := hbyte 0
  have h1 := hbyte 1
  have h2 := hbyte 2
  have h3 := hbyte 3
  have hv := v.toNat_lt
  have hv' := v'.toNat_lt
  apply UInt32.toNat_inj.mp
  simp at h0 h1 h2 h3
  omega

/-- A mock file of four bytes or more begins with the bytes of its number. -/
theorem mockContent_getElem? {n : ℕ} (hn : 4 ≤ n) (u : UInt32) (j : Fin 4) :
    (mockContent u n)[(j : ℕ)]? = some (bigEndian u j) := by
  have hj : (j : ℕ) < n := by omega
  have hmod : (⟨(j : ℕ) % 4, Nat.mod_lt _ (by decide)⟩ : Fin 4) = j :=
    Fin.ext (Nat.mod_eq_of_lt j.isLt)
  rw [mockContent, List.getElem?_map, List.getElem?_range hj, Option.map_some, patternByte, hmod]

/-- So do mock files that hold at least one copy of those bytes. -/
theorem mockContent_ne {v v' : UInt32} {n : ℕ} (hn : 4 ≤ n) (h : v' ≠ v) :
    mockContent v' n ≠ mockContent v n := by
  intro heq
  apply h
  apply bigEndian_injective
  funext j
  have hsame := congrArg (fun content => content[(j : ℕ)]?) heq
  simp only [mockContent_getElem? hn, Option.some.injEq] at hsame
  exact hsame

/-- A size that is accepted is a multiple of a kilobyte. -/
theorem le_parseSize {size : Bytes} {n : ℤ} (h : parseSize size = .ok n) (hpos : 0 < n) :
    1024 ≤ n := by
  obtain ⟨k, -, hunit⟩ := bind_eq_ok.mp h
  cases hm : sizeMultiplier ((size.drop (size.length - 2)).map lower) with
  | none =>
    rw [hm] at hunit
    cases hunit
  | some m =>
    rw [hm] at hunit
    have hn : k * m = n := Except.ok.inj hunit
    have hm1024 : 1024 ≤ m := by
      unfold sizeMultiplier at hm
      split_ifs at hm
      all_goals
        cases hm
        decide
    have hk : 0 < k := by
      by_contra hneg
      have := mul_nonpos_of_nonpos_of_nonneg (not_lt.mp hneg) (by omega : (0 : ℤ) ≤ m)
      omega
    nlinarith

section Requests

variable {w : World} {p : Path} {f : LFile}

/-- Creating a file whose name spells a pattern makes an entry with that pattern. -/
theorem create_step (hown : OwnedTable w) (hp : w.lookup p = none) (hmeta : isMetaFile p = false)
    (hfits : p.strlen < MAXPATHLEN) (hspell : SpellsPattern p.name) (mode : ℕ)
    (fi : FuseFileInfo) (env : Env) :
    ∃ r w' f, step w ⟨.create p mode fi, env⟩ = .ok (r, w') ∧ OwnedTable w' ∧
      w'.lookup p = some f ∧ f.pattern = spelledPattern p.name := by
  have hsafe : Safe w ⟨.create p mode fi, env⟩ := by
    refine ⟨?_, fun q hq => nomatch hq⟩
    intro q hq
    have hcopied : copied w.metadir env (view w) (.create p mode fi) = some p := if_pos hp
    cases hcopied.symm.trans hq
    exact hfits
  obtain ⟨r, w', hstep⟩ := step_defined hown hsafe
  have href := step_refines hown hstep
  have hserved := href.served
  have hview : (view w').lookup = w'.lookup := rfl
  generalize view w' = v at hserved hview
  cases hserved with
  | absent hop => cases hop
  | queried hop => cases hop
  | exclusive hsome => cases hp.symm.trans hsome
  | recreated hsome => cases hp.symm.trans hsome
  | realCreated _ hreal => cases hmeta.symm.trans hreal
  | createFailed _ hreal => cases hmeta.symm.trans hreal
  | created _ _ hf =>
    refine ⟨_, w', _, hstep, href.owned, ?_, created_pattern hf hspell⟩
    rw [← hview]
    exact Function.update_self _ _ _

/-- Truncating a content file sets its size and keeps its pattern. -/
theorem truncate_step (hown : OwnedTable w) (hp : w.lookup p = some f)
    (hmeta : isMetaFile p = false) (length : Int64) (fi : FuseFileInfo) (env : Env) :
    ∃ r w', step w ⟨.truncate p length (some fi), env⟩ = .ok (r, w') ∧
      w'.lookup p = some (f.setSize length) := by
  obtain ⟨c, hfind, rfl⟩ := find_of_lookup hp
  have hfind' : w.find p = some c := hfind
  have htruncate : lTruncate env p length w = (0, w.modify c.block (LFile.setSize length)) := by
    simp only [lTruncate, hfind', hmeta, Bool.false_eq_true, if_false]
  have hresized : (w.modify c.block (LFile.setSize length)).lookup =
      Function.update w.lookup p (some (c.value.setSize length)) :=
    lookup_modify_eq hown hfind (fun _ => rfl)
  refine ⟨_, _, rfl, ?_⟩
  rw [lFtruncate, htruncate, hresized]
  exact Function.update_self _ _ _

/-- Closing or opening a content file changes nothing. -/
theorem release_step (hp : w.lookup p = some f) (hmeta : isMetaFile p = false) (env : Env) :
    step w ⟨.release p, env⟩ = .ok (⟨0, []⟩, w) := by
  obtain ⟨c, hfind, rfl⟩ := find_of_lookup hp
  have hfind' : w.find p = some c := hfind
  simp only [step, lRelease, hfind', hmeta, Bool.false_eq_true, if_false]

/-- An open of a content file that exists changes nothing. -/
theorem open_step (hp : w.lookup p = some f) (hmeta : isMetaFile p = false) (env : Env) :
    step w ⟨.open p ⟨0, 0⟩, env⟩ = .ok (⟨0, []⟩, w) := by
  obtain ⟨c, hfind, rfl⟩ := find_of_lookup hp
  have hfind' : w.find p = some c := hfind
  have hflag : FuseFileInfo.has ⟨0, 0⟩ O_TRUNC = false := by decide
  simp only [step, lOpen, hfind', hmeta, hflag, Bool.false_eq_true, if_false]

/-- A content file reads back as its pattern, repeated up to its size. -/
theorem readsBack_slice (hp : w.lookup p = some f) (hmeta : isMetaFile p = false) :
    ReadsBack w p ((List.range f.size.toInt.toNat).map (patternByte f.pattern)) := by
  intro opening pieces hnext hfit htotal
  rw [List.length_map, List.length_range] at htotal
  obtain ⟨rs, hrun, -, hkept, -⟩ := run_pieces hp hmeta hnext hfit
  refine ⟨_, w, run_cons_of_ok (open_step hp hmeta opening) hrun, ?_⟩
  have hall : readable f.size.toInt 0 (total pieces) = f.size.toInt.toNat := by
    unfold readable
    omega
  rw [List.map_cons, List.flatten_cons, hkept, slice, hall]
  simp only [Nat.zero_add]
  rfl

end Requests

/-- A mock file that is no meta file, and whose path fits, reads back as the bytes
of the number drawn for it, for exactly the requested size. Another number gives
other contents of that size, and so another root hash if that tells them apart. -/
theorem mock_reads_back {w : World} (hw : Reachable w) {v : UInt32} {size chunk : Bytes}
    {p : Path} {length : Int64}
    (hname : p.name = formatKey (randPattern v) size chunk) (hp : w.lookup p = none)
    (hmeta : isMetaFile p = false) (hfits : p.strlen < MAXPATHLEN)
    (hsize : parseSize size = .ok length.toInt) (hpos : 0 < length.toInt) (mode : ℕ)
    (flags : UInt32) (creating truncating closing : Env) :
    MockReadsBack w p v length mode flags creating truncating closing ∧
      (∀ v', v' ≠ v →
        mockContent v' length.toInt.toNat ≠ mockContent v length.toInt.toNat) ∧
      ∀ {H : Type} (rootHash : Bytes → Bytes → H) (chunk' : Bytes),
        TellsMocksApart rootHash chunk chunk' length.toInt.toNat → ∀ v', v' ≠ v →
          rootHash chunk' (mockContent v' length.toInt.toNat) ≠
            rootHash chunk (mockContent v length.toInt.toNat) := by
  have hlong : 4 ≤ length.toInt.toNat := by
    have hkb := le_parseSize hsize hpos
    omega
  refine ⟨?_, fun v' hne => mockContent_ne hlong hne, ?_⟩
  · have hspell : SpellsPattern p.name := hname ▸ spells_randPattern v _
    have hpattern : spelledPattern p.name = bigEndian v :=
      hname ▸ spelledPattern_randPattern v _
    obtain ⟨r, w₁, f, hcreate, hown, hf, hcreated⟩ :=
      create_step (reachable_owned hw) hp hmeta hfits hspell mode ⟨flags, 0⟩ creating
    obtain ⟨r', w₂, htruncate, hf'⟩ :=
      truncate_step hown hf hmeta length ⟨flags, 0⟩ truncating
    have hclose := release_step hf' hmeta closing
    refine ⟨_, w₂, run_cons_of_ok hcreate (run_cons_of_ok htruncate
      (run_cons_of_ok hclose rfl)), ?_⟩
    have hreads := readsBack_slice hf' hmeta
    rw [LFile.setSize, hcreated, hpattern] at hreads
    exact hreads
  · intro H rootHash chunk' hroot v' hne hhash
    exact mockContent_ne hlong hne (hroot _ _ hhash)

/-- The first four bytes of a content, as a hash of 32 bits. -/
def firstBytes (_ content : Bytes) : Pattern := fun j => content.getD j 0

/-- That hash tells the mock contents of every size from four bytes on apart. -/
theorem firstBytes_tellsMocksApart {chunk chunk' : Bytes} {n : ℕ} (hn : 4 ≤ n) :
    TellsMocksApart firstBytes chunk chunk' n := by
  intro u u' h
  have hfirst : ∀ v, firstBytes chunk (mockContent v n) = bigEndian v := by
    intro v
    funext j
    rw [firstBytes, List.getD_eq_getElem?_getD, mockContent_getElem? hn, Option.getD_some]
  have hsame : bigEndian u' = bigEndian u := (hfirst u').symm.trans (h.trans (hfirst u))
  rw [bigEndian_injective hsame]

/-- A number with leading zeros and bytes above 127, and another one of that size. -/
theorem mock_reads_back_zeros :
    let p : Path :=
      ⟨formatKey (randPattern 0x00ff01fe) (ascii "1kb") (ascii "8"), by decide +kernel⟩
    let w : World := boot (ascii "/meta") (Store.empty _)
    MockReadsBack w p 0x00ff01fe 1024 0o644 0 Env.quiet Env.quiet Env.quiet ∧
      mockContent 0x00ff01ff 1024 ≠ mockContent 0x00ff01fe 1024 ∧
      firstBytes (ascii "16") (mockContent 0x00ff01ff 1024) ≠
        firstBytes (ascii "8") (mockContent 0x00ff01fe 1024) := by
  intro p w
  have hw : Reachable w := ⟨ascii "/meta", Store.empty _, [], [], rfl⟩
  have hsize : parseSize (ascii "1kb") = .ok (1024 : Int64).toInt := by decide +kernel
  have hname : p.name = formatKey (randPattern 0x00ff01fe) (ascii "1kb") (ascii "8") := rfl
  obtain ⟨hreads, hcontents, hhashes⟩ := mock_reads_back hw hname rfl (by decide +kernel)
    (by decide +kernel) hsize (by decide) 0o644 0 Env.quiet Env.quiet Env.quiet
  exact ⟨hreads, hcontents 0x00ff01ff (by decide),
    hhashes firstBytes (ascii "16") (firstBytes_tellsMocksApart (by decide)) 0x00ff01ff
      (by decide)⟩

/-- A chunk size that ends like a meta file makes the mock file one, and it reads as zeros. -/
theorem meta_mock_reads_zeros :
    let p : Path := ⟨formatKey (randPattern 1) (ascii "1kb") (ascii ".mhash"), by decide +kernel⟩
    ¬ MockReadsBack (boot (ascii "/meta") (Store.empty _)) p 1 1024 0o644 0 Env.quiet Env.quiet
      Env.quiet := by
  rintro p ⟨rs, w, hrun, hreads⟩
  have hzeros : (run step (boot (ascii "/meta") (Store.empty _))
      (mockRequests p 1024 0o644 0 Env.quiet Env.quiet Env.quiet)).map (fun out =>
        (run step out.2 (readRequests p Env.quiet [⟨1024, 0, Env.quiet⟩])).toOption.map
          (fun out => (out.1.map kept).flatten[3]?)) = .ok (some (some 0)) := by
    decide +kernel
  obtain ⟨rs', w', hread, hcontent⟩ := hreads Env.quiet [⟨1024, 0, Env.quiet⟩]
    ⟨rfl, trivial⟩ (by decide) (by decide +kernel)
  rw [hrun] at hzeros
  simp only [Except.map, hread, Except.toOption, Option.map_some, hcontent, Except.ok.injEq,
    Option.some.injEq] at hzeros
  revert hzeros
  decide +kernel

end LazyFS.MockContents
