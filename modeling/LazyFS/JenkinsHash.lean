import LazyFS.MemoryRegions

/-!
# The hash function

Bob Jenkins's function as the hash table header has it: twelve bytes a round,
and a last round whose cases fall through. The key is read byte by byte as
signed characters, so a byte from 128 on reaches the registers with its sign
extended. Every read stays inside the key, and what lies behind the key in
memory does not matter.
-/

namespace LazyFS.JenkinsHash

open MemoryRegions

/-- The registers of the hash. -/
structure Registers where
  /-- `_hj_i`. -/
  i : UInt32
  /-- `_hj_j`. -/
  j : UInt32
  /-- `hashv`. -/
  hashv : UInt32
  deriving DecidableEq

/-- A `char`, which is signed, converted to `unsigned`. -/
def toUnsigned (c : UInt8) : UInt32 := c.toInt8.toInt32.toUInt32

/-- `HASH_JEN_MIX`. -/
def hashJenMix (s : Registers) : Registers :=
  let a := s.i; let b := s.j; let c := s.hashv
  let a := a - b; let a := a - c; let a := a ^^^ (c >>> 13)
  let b := b - c; let b := b - a; let b := b ^^^ (a <<< 8)
  let c := c - a; let c := c - b; let c := c ^^^ (b >>> 13)
  let a := a - b; let a := a - c; let a := a ^^^ (c >>> 12)
  let b := b - c; let b := b - a; let b := b ^^^ (a <<< 16)
  let c := c - a; let c := c - b; let c := c ^^^ (b >>> 5)
  let a := a - b; let a := a - c; let a := a ^^^ (c >>> 3)
  let b := b - c; let b := b - a; let b := b ^^^ (a <<< 10)
  let c := c - a; let c := c - b; let c := c ^^^ (b >>> 15)
  ⟨a, b, c⟩

/-- Four characters as one word, the first in the low byte. -/
def keyWord (key : List UInt8) (p : ℕ) : Access UInt32 := do
  let c₀ ← nth key p
  let c₁ ← nth key (p + 1)
  let c₂ ← nth key (p + 2)
  let c₃ ← nth key (p + 3)
  return toUnsigned c₀ + (toUnsigned c₁ <<< 8) + (toUnsigned c₂ <<< 16) + (toUnsigned c₃ <<< 24)

/-- The loop of `HASH_JEN` with `_hj_key` at position `p`, which takes as many
rounds as twelve fits into the length. -/
def hashJenLoop (key : List UInt8) : (rounds p : ℕ) → Registers → Access Registers
  | 0, _, s => .ok s
  | rounds + 1, p, s => do
    let w₀ ← keyWord key p
    let w₁ ← keyWord key (p + 4)
    let w₂ ← keyWord key (p + 8)
    hashJenLoop key rounds (p + 12) (hashJenMix ⟨s.i + w₀, s.j + w₁, s.hashv + w₂⟩)

/-- What the case of the last round for the character at index `k` adds. -/
def addCase (k : ℕ) (c : UInt32) (s : Registers) : Registers :=
  match k with
  | 10 => { s with hashv := s.hashv + (c <<< 24) }
  | 9 => { s with hashv := s.hashv + (c <<< 16) }
  | 8 => { s with hashv := s.hashv + (c <<< 8) }
  | 7 => { s with j := s.j + (c <<< 24) }
  | 6 => { s with j := s.j + (c <<< 16) }
  | 5 => { s with j := s.j + (c <<< 8) }
  | 4 => { s with j := s.j + c }
  | 3 => { s with i := s.i + (c <<< 24) }
  | 2 => { s with i := s.i + (c <<< 16) }
  | 1 => { s with i := s.i + (c <<< 8) }
  | 0 => { s with i := s.i + c }
  | _ => s

/-- The `switch` of `HASH_JEN` on `k`, whose cases fall through to the next lower. -/
def hashJenSwitch (key : List UInt8) (p : ℕ) : (k : ℕ) → Registers → Access Registers
  | 0, s => .ok s
  | k + 1, s => do
    let c ← nth key (p + k)
    hashJenSwitch key p k (addCase k (toUnsigned c) s)

/-- `HASH_JEN` of the `keylen` bytes at the start of `key`. -/
def hashJen (key : List UInt8) (keylen : ℕ) : Access UInt32 := do
  let k := (UInt32.ofNat keylen).toNat
  let s ← hashJenLoop key (k / 12) 0 ⟨0x9e3779b9, 0x9e3779b9, 0xfeedbeef⟩
  let s := { s with hashv := s.hashv + UInt32.ofNat keylen }
  let s ← hashJenSwitch key (k / 12 * 12) (k % 12) s
  return (hashJenMix s).hashv

/-- The hash of a key. -/
def jenkins (key : List UInt8) : UInt32 :=
  match hashJen key key.length with
  | .ok hashv => hashv
  | .error _ => 0

section Reads

variable {key : List UInt8} (rest : List UInt8) {n p : ℕ} {s : Registers}

/-- A byte of the key is read alike when more bytes follow. -/
theorem nth_key (h : p < key.length) : ∃ c, nth key p = .ok c ∧ nth (key ++ rest) p = .ok c := by
  refine ⟨key[p], nth_of_getElem (List.getElem?_eq_getElem h), nth_of_getElem ?_⟩
  rw [List.getElem?_append_left h, List.getElem?_eq_getElem h]

/-- So is a word of four bytes. -/
theorem keyWord_defined (h : p + 3 < key.length) :
    ∃ w, keyWord key p = .ok w ∧ keyWord (key ++ rest) p = .ok w := by
  obtain ⟨c₀, h₀, h₀'⟩ := nth_key rest (show p < key.length by omega)
  obtain ⟨c₁, h₁, h₁'⟩ := nth_key rest (show p + 1 < key.length by omega)
  obtain ⟨c₂, h₂, h₂'⟩ := nth_key rest (show p + 2 < key.length by omega)
  obtain ⟨c₃, h₃, h₃'⟩ := nth_key rest h
  refine ⟨toUnsigned c₀ + (toUnsigned c₁ <<< 8) + (toUnsigned c₂ <<< 16) + (toUnsigned c₃ <<< 24),
    ?_, ?_⟩
  · simp only [keyWord, h₀, h₁, h₂, h₃, bind, Except.bind, pure, Except.pure]
  · simp only [keyWord, h₀', h₁', h₂', h₃', bind, Except.bind, pure, Except.pure]

/-- The rounds of the loop read the key only. -/
theorem hashJenLoop_defined {key : List UInt8} (s : Registers) (h : p + 12 * n ≤ key.length) :
    ∃ s', hashJenLoop key n p s = .ok s' ∧ hashJenLoop (key ++ rest) n p s = .ok s' := by
  induction n generalizing p s with
  | zero => exact ⟨s, rfl, rfl⟩
  | succ n ih =>
    obtain ⟨w₀, h₀, h₀'⟩ := keyWord_defined rest (show p + 3 < key.length by omega)
    obtain ⟨w₁, h₁, h₁'⟩ := keyWord_defined rest (show p + 4 + 3 < key.length by omega)
    obtain ⟨w₂, h₂, h₂'⟩ := keyWord_defined rest (show p + 8 + 3 < key.length by omega)
    obtain ⟨s', hs, hs'⟩ := ih (p := p + 12)
      (hashJenMix ⟨s.i + w₀, s.j + w₁, s.hashv + w₂⟩) (by omega)
    refine ⟨s', ?_, ?_⟩
    · simp only [hashJenLoop, h₀, h₁, h₂, bind, Except.bind, hs]
    · simp only [hashJenLoop, h₀', h₁', h₂', bind, Except.bind, hs']

/-- So do the cases of the last round. -/
theorem hashJenSwitch_defined {key : List UInt8} (s : Registers) (h : p + n ≤ key.length) :
    ∃ s', hashJenSwitch key p n s = .ok s' ∧ hashJenSwitch (key ++ rest) p n s = .ok s' := by
  induction n generalizing s with
  | zero => exact ⟨s, rfl, rfl⟩
  | succ n ih =>
    obtain ⟨c, hc, hc'⟩ := nth_key rest (show p + n < key.length by omega)
    obtain ⟨s', hs, hs'⟩ := ih (addCase n (toUnsigned c) s) (by omega)
    refine ⟨s', ?_, ?_⟩
    · simp only [hashJenSwitch, hc, bind, Except.bind, hs]
    · simp only [hashJenSwitch, hc', bind, Except.bind, hs']

/-- The hash of a key is computed from the key alone, wherever it ends. -/
theorem hashJen_append (key rest : List UInt8) :
    hashJen (key ++ rest) key.length = .ok (jenkins key) ∧
      hashJen key key.length = .ok (jenkins key) := by
  obtain ⟨k, hk⟩ : ∃ k, (UInt32.ofNat key.length).toNat = k := ⟨_, rfl⟩
  have hle : k ≤ key.length := by
    rw [← hk, UInt32.toNat_ofNat']
    exact Nat.mod_le _ _
  have hdiv := Nat.div_add_mod k 12
  obtain ⟨s, hs, hs'⟩ := hashJenLoop_defined rest ⟨0x9e3779b9, 0x9e3779b9, 0xfeedbeef⟩
    (show 0 + 12 * (k / 12) ≤ key.length by omega)
  obtain ⟨t, ht, ht'⟩ := hashJenSwitch_defined rest
    { s with hashv := s.hashv + UInt32.ofNat key.length }
    (show k / 12 * 12 + k % 12 ≤ key.length by omega)
  have hown : hashJen key key.length = .ok (hashJenMix t).hashv := by
    simp only [hashJen, hk, hs, ht, bind, Except.bind, pure, Except.pure]
  have hvalue : jenkins key = (hashJenMix t).hashv := by simp only [jenkins, hown]
  refine ⟨?_, ?_⟩
  · simp only [hashJen, hk, hs', ht', bind, Except.bind, pure, Except.pure, hvalue]
  · rw [hown, hvalue]

end Reads

end LazyFS.JenkinsHash
