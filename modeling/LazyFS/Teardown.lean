import LazyFS.SafeRuns

/-!
# Unmounting

The teardown loop visits the cells of a local copy of the table, closes what
their `realfd` names unless it is -1, and unlinks and frees each. On an owned
table it ends with an empty local table and every block freed once. It never
gets that far after `l_init`, whose null pointer is what the mount hands to
`l_destroy` in place of the file system's state.
-/

namespace LazyFS.Teardown

open MachineWords LinkedCells PathNames PosixStore FileOperations GuardedRun ServedRequests
  SafeRuns

/-- What the loop does to one entry before it is unlinked. -/
def closeIfOpen (f : LFile) (w : World) : World :=
  if f.realfd ≠ -1 then (closeEntry none f w).2 else w

/-- Closing an entry's descriptor leaves the heap alone. -/
theorem closeIfOpen_heap (f : LFile) (w : World) : (closeIfOpen f w).heap = w.heap := by
  unfold closeIfOpen closeEntry
  split_ifs <;> rfl

/-- With distinct addresses, unlinking the first cell leaves the others. -/
theorem del_head {α : Type} {c : Cell α} {cells : List (Cell α)}
    (h : ((c :: cells).map Cell.block).Nodup) : del (c :: cells) c.block = cells := by
  have hhead : c.block ∉ cells.map Cell.block := (List.nodup_cons.mp h).1
  simp only [del, ne_eq, List.filter_cons, not_true_eq_false, decide_false, Bool.false_eq_true,
    if_false, List.filter_eq_self, decide_eq_true_eq]
  intro d hd hblock
  exact hhead (hblock ▸ List.mem_map_of_mem hd)

/-- The rule of the loop: a relation between the world and the cells still to
visit that every iteration keeps holds at the end, where no cell is left, each
was visited once, in order, and exactly their blocks were freed. -/
theorem destroyLoop_rule {I : World → List (Cell LFile) → Prop}
    (hstep : ∀ u c cells heap, I u (c :: cells) →
      I { closeIfOpen c.value u with heap := heap } cells)
    {cells : List (Cell LFile)} {w : World} (hown : Owned LFile.key w.heap cells)
    (hinit : I w cells) :
    ∃ w', destroyLoop cells cells w = .ok (cells.map Cell.block, [], w') ∧
      w'.heap.live = w.heap.live \ (cells.map Cell.block).toFinset ∧ I w' [] := by
  induction cells generalizing w with
  | nil => exact ⟨w, rfl, by simp, hinit⟩
  | cons c cells ih =>
    have hlive : c.block ∈ (closeIfOpen c.value w).heap.live := by
      rw [closeIfOpen_heap]
      exact hown.live c List.mem_cons_self
    obtain ⟨heap, hfree, herase⟩ := Heap.free_of_mem hlive
    have hrest : Owned LFile.key heap cells := by
      have howned := Owned.free hown (closeIfOpen_heap c.value w ▸ hfree)
      rwa [del_head hown.blocks] at howned
    obtain ⟨w', hloop, hheap, hend⟩ :=
      ih (w := { closeIfOpen c.value w with heap := heap }) hrest (hstep w c cells heap hinit)
    refine ⟨w', ?_, ?_, hend⟩
    · have hclosed : (if c.value.realfd ≠ -1 then (closeEntry none c.value w).2 else w) =
          closeIfOpen c.value w := rfl
      simp only [destroyLoop, bind, Except.bind, pure, Except.pure, hclosed, hfree,
        del_head hown.blocks, hloop, List.map_cons]
    · have hfreed : heap.live = w.heap.live.erase c.block := by rw [herase, closeIfOpen_heap]
      simp only [hheap, hfreed, List.map_cons, List.toFinset_cons]
      ext b
      simp only [Finset.mem_sdiff, Finset.mem_erase, Finset.mem_insert, not_or]
      tauto

/-- A mount from `l_init` to `l_destroy`: the requests in between work on the
state of the file system, and `l_destroy` gets the given argument. The result
is the state it found, and what it visited, left and made of it. -/
def session (userdata : UserData) (metadir : List UInt8) (store : Store (List UInt8))
    (es : List Event) : Outcome (World × List ℕ × List (Cell LFile) × World) := do
  let (_, w) ← run step (boot metadir store) es
  let out ← lDestroy userdata w
  return (w, out)

/-- A session returns, its teardown visits exactly the entries that are in the
table, each once, leaves none and frees each. -/
def TornDown (userdata : UserData) (metadir : List UInt8) (store : Store (List UInt8))
    (es : List Event) : Prop :=
  ∃ w w', session userdata metadir store es = .ok (w, w.files.map Cell.block, [], w') ∧
    (w.files.map Cell.block).Nodup ∧
    w'.heap.live = w.heap.live \ (w.files.map Cell.block).toFinset

/-- The loop itself is right: handed the state of the file system, it tears
down what any run of safe requests built. -/
theorem lData_torn_down (metadir : List UInt8) (store : Store (List UInt8)) (es : List Event)
    (hes : Always step Safe (boot metadir store) es) : TornDown .lData metadir store es := by
  obtain ⟨rs, w, hrun, hown, -⟩ := safe_run_rule (R := fun _ _ _ => True) (fun _ _ _ hg => hg)
    (fun _ _ _ _ _ _ _ _ _ => trivial) (boot_owned metadir store) trivial hes
  obtain ⟨w', hloop, hheap, -⟩ := destroyLoop_rule (I := fun _ _ => True)
    (fun _ _ _ _ _ => trivial) hown trivial
  refine ⟨w, w', ?_, hown.blocks, hheap⟩
  simp only [session, hrun, bind, Except.bind, lDestroy, hloop, pure, Except.pure]

/-- No session whose `l_destroy` gets what `l_init` returned tears anything down. -/
theorem lInit_never_torn_down (metadir : List UInt8) (store : Store (List UInt8))
    (es : List Event) : ¬ TornDown lInit metadir store es := by
  rintro ⟨w, w', hsession, -⟩
  unfold session at hsession
  cases hrun : run step (boot metadir store) es with
  | error u => simp only [hrun, bind, Except.bind, reduceCtorEq] at hsession
  | ok out =>
    simp only [hrun, bind, Except.bind, lInit, lDestroy, reduceCtorEq] at hsession

/-- Unmounting after one creation reads through a null pointer. -/
theorem session_null_dereference :
    let p : Path := ⟨ascii "deadbeef_8_1", by decide⟩
    session lInit (ascii "/meta") (Store.empty _) [⟨.create p 0o644 ⟨O_CREAT, 0⟩, Env.quiet⟩] =
        .error .nullDereference ∧
      ¬ TornDown lInit (ascii "/meta") (Store.empty _)
        [⟨.create p 0o644 ⟨O_CREAT, 0⟩, Env.quiet⟩] := by
  intro p
  have herror : session lInit (ascii "/meta") (Store.empty _)
      [⟨.create p 0o644 ⟨O_CREAT, 0⟩, Env.quiet⟩] = .error .nullDereference := rfl
  refine ⟨herror, ?_⟩
  rintro ⟨w, w', hsession, -⟩
  rw [herror] at hsession
  cases hsession

end LazyFS.Teardown
