import LazyFS.FreshDraws
import LazyFS.MockContents

/-!
# When the generation of mock files ends

The patterns are drawn from a supply that the files in the store use up. If it holds
too few, the loop that draws never ends, whatever is drawn, and the tool hangs
without a file created. If it holds enough, the loop ends on every sequence of
draws in which each number comes up again and again.
-/

namespace LazyFS.MockSupply

open FreshDraws MockPatterns MockContents PythonText

/-- The numbers whose patterns are taken. -/
def taken (existing : List Bytes) : Finset UInt32 :=
  Finset.univ.filter (fun v => randPattern v ∈ existing.toFinset)

/-- Two numbers have two patterns. -/
theorem randPattern_injective : Function.Injective randPattern := by
  intro v v' h
  have hspelled := spelledPattern_randPattern v []
  rw [h, spelledPattern_randPattern] at hspelled
  exact (bigEndian_injective hspelled).symm

/-- There are 2^32 seeds. -/
theorem card_uint32 : Fintype.card UInt32 = 2 ^ 32 := by
  have hequiv : UInt32 ≃ Fin UInt32.size :=
    ⟨UInt32.toFin, UInt32.ofFin, UInt32.ofFin_toFin, UInt32.toFin_ofFin⟩
  rw [Fintype.card_congr hequiv, Fintype.card_fin]
  rfl

/-- What is not taken is left. -/
theorem card_left (existing : List Bytes) :
    (supply randPattern existing.toFinset).card + (taken existing).card = 2 ^ 32 := by
  rw [taken, card_supply randPattern_injective, card_uint32]

/-- The loops are those of a collection. -/
theorem freshPattern_eq (selected : Finset Bytes) (draws : List UInt32) :
    freshPattern selected draws = firstFresh randPattern selected draws := by
  induction draws with
  | nil => rfl
  | cons v draws ih => rw [freshPattern, firstFresh, ih]

/-- The loop collects fresh patterns behind those it has. -/
theorem genLoop_eq (nfiles : ℕ) (selected : Finset Bytes) (patterns : List Bytes)
    (draws : List UInt32) : genLoop nfiles selected patterns draws =
      (collect randPattern nfiles selected draws).map (fun new => patterns ++ new) := by
  induction nfiles generalizing selected patterns draws with
  | zero => rw [genLoop, collect, Option.map_some, List.append_nil]
  | succ nfiles ih =>
    rw [genLoop, collect, freshPattern_eq]
    cases firstFresh randPattern selected draws with
    | none => rfl
    | some out =>
      obtain ⟨p, rest⟩ := out
      dsimp only
      rw [ih, Option.map_map]
      congr 1
      funext new
      rw [Function.comp_apply, List.append_assoc, List.singleton_append]

/-- The generator collects patterns that the store does not have. -/
theorem genRandomPatterns_eq (existing : List Bytes) (nfiles : ℕ) (draws : List UInt32) :
    genRandomPatterns existing nfiles draws =
      collect randPattern nfiles existing.toFinset draws := by
  rw [genRandomPatterns, genLoop_eq]
  exact Option.map_id'

/-- Once the scan of the store has succeeded, the tool comes to an end on fair draws if
the patterns that are taken leave enough for its files, and later draws do not change what
it does. If they do not, it goes on drawing for ever. -/
theorem mocks_run_ends (lfsstore : Bytes) (walk : List (List Bytes)) (nfiles : ℕ)
    (size chunksize : Bytes) (existing : List Bytes) (draws : ℕ → UInt32)
    (hexisting : getExistingFiles walk size chunksize = .ok existing) (hfair : Fair draws) :
    (nfiles + (taken existing).card ≤ 2 ^ 32 → ∃ k created, ∀ m,
      mocksRun lfsstore walk nfiles size chunksize (window draws 0 (k + m)) = some created) ∧
      (2 ^ 32 < nfiles + (taken existing).card →
        ∀ k, mocksRun lfsstore walk nfiles size chunksize (window draws 0 k) = none) := by
  have hleft := card_left existing
  have hrun : ∀ drawn, mocksRun lfsstore walk nfiles size chunksize drawn =
      (collect randPattern nfiles existing.toFinset drawn).map
        (ByteRecords.writeRecords (createMock lfsstore size chunksize)) := by
    intro drawn
    rw [mocksRun, hexisting]
    dsimp only
    rw [genRandomPatterns_eq]
    cases collect randPattern nfiles existing.toFinset drawn <;> rfl
  constructor
  · intro henough
    have hn : nfiles ≤ (supply randPattern existing.toFinset).card := by omega
    obtain ⟨k, patterns, hall⟩ := collect_window hfair hn 0
    refine ⟨k, ByteRecords.writeRecords (createMock lfsstore size chunksize) patterns, fun m => ?_⟩
    rw [hrun, hall m, Option.map_some]
  · intro hfew k
    rw [hrun, Option.map_eq_none_iff]
    by_contra hsome
    obtain ⟨patterns, hpatterns⟩ := Option.ne_none_iff_exists'.mp hsome
    have hle := le_of_collect hpatterns
    omega

/-- Counting up is fair. -/
theorem counting_fair : Fair (fun i : ℕ => UInt32.ofNat i) := by
  intro v i
  refine ⟨v.toNat + 2 ^ 32 * i, by omega, ?_⟩
  apply UInt32.toNat_inj.mp
  rw [UInt32.toNat_ofNat', Nat.add_mul_mod_self_left, Nat.mod_eq_of_lt v.toNat_lt]

/-- Two files are generated beside one that is there. -/
theorem mocks_run_ends_two :
    ∃ k created, ∀ m, mocksRun (PathNames.ascii "/lfs") [[PathNames.ascii "0000000A_1kb_8"]] 2
      (PathNames.ascii "1kb") (PathNames.ascii "8") (window (fun i => UInt32.ofNat i) 0 (k + m)) =
        some created := by
  have hscan : getExistingFiles [[PathNames.ascii "0000000A_1kb_8"]] (PathNames.ascii "1kb")
      (PathNames.ascii "8") = .ok [PathNames.ascii "0000000a"] := by
    decide +kernel
  refine (mocks_run_ends _ _ 2 _ _ _ _ hscan counting_fair).1 ?_
  have hone : (taken [PathNames.ascii "0000000a"]).card ≤ 1 := by
    refine Finset.card_le_one.mpr fun v hv w hw => ?_
    simp only [taken, Finset.mem_filter, List.mem_toFinset, List.mem_singleton] at hv hw
    exact randPattern_injective (hv.2.trans hw.2.symm)
  omega

end LazyFS.MockSupply
