import LazyFS.OpenHandles
import LazyFS.Teardown

/-!
# What the file system closes

Every descriptor that is closed should be one that was opened for the entry it
is closed for and is still open. That holds as long as each content entry keeps
-1 and each meta entry a descriptor of its own real file. Two operations break
this: a creation takes the descriptor of a content entry from fresh memory, and
a release leaves the number it has closed in the entry.
-/

namespace LazyFS.CloseDiscipline

open MachineWords LinkedCells PathNames PosixStore FileOperations GuardedRun ServedRequests
  SafeRuns RealFiles OpenHandles Teardown

/-- The number closed was a descriptor opened here, still open, of the real
file of the entry it was closed for. -/
def Legitimate (c : CloseCall) : Prop :=
  ∃ d, c.target = some d ∧ d.own = true ∧ c.real = some d.ino

/-- Requests that leave no entry with a number it does not own: fresh memory
already holds -1 where a content file is created, which nothing sets, and no
meta file is released, which resets nothing. -/
def LeavesOwned (w : World) (env : Env) : Op → Prop
  | .create p _ _ => isMetaFile p = false → w.lookup p = none → env.junk.realfd = -1
  | .release p => isMetaFile p = true → w.lookup p = none
  | _ => True

/-- Whether an event leaves a number owned is computed. -/
instance (w : World) (env : Env) (op : Op) : Decidable (LeavesOwned w env op) :=
  match op with
  | .create p _ _ => inferInstanceAs (Decidable
      (isMetaFile p = false → w.lookup p = none → env.junk.realfd = -1))
  | .release p => inferInstanceAs (Decidable (isMetaFile p = true → w.lookup p = none))
  | .getattr _ _ _ | .unlink _ | .truncate _ _ _ | .open _ _ | .read _ _ _ | .write _ _ _ _
  | .readdir _ | .rename _ _ => .isTrue trivial

/-- Requests that keep every descriptor in its entry. -/
structure KeepsDescriptors (w : World) (e : Event) : Prop where
  /-- The unchecked bounds. -/
  safe : Safe w e
  /-- Real files have names of their own. -/
  direct : StoresDirect w.metadir e.env (view w) e.op
  /-- Entries hold -1 or what they own. -/
  owned : LeavesOwned w e.env e.op

/-- Whether an event keeps the descriptors is computed. -/
instance (w : World) (e : Event) : Decidable (KeepsDescriptors w e) :=
  decidable_of_iff
    (Safe w e ∧ StoresDirect w.metadir e.env (view w) e.op ∧ LeavesOwned w e.env e.op)
    ⟨fun h => ⟨h.1, h.2.1, h.2.2⟩, fun h => ⟨h.safe, h.direct, h.owned⟩⟩

/-- No two meta entries hold the same number. -/
def OwnNumbers (v : View) : Prop :=
  ∀ p q f g, v.lookup p = some f → v.lookup q = some g → isMetaFile p = true →
    isMetaFile q = true → p ≠ q → f.realfd ≠ g.realfd

/-- Content entries hold -1, meta entries a descriptor of their own real file that no other
entry holds, and everything closed so far was legitimate. -/
structure Owns (metadir : List UInt8) (v : View) : Prop where
  /-- Real files have names of their own. -/
  keys : DirectKeys metadir v
  /-- A content entry has no descriptor. -/
  content : ∀ p f, v.lookup p = some f → isMetaFile p = false → f.realfd = -1
  /-- A meta entry has its own. -/
  «meta» : ∀ p f, v.lookup p = some f → isMetaFile p = true → OwnDescriptor metadir v p f
  /-- No other has it. -/
  numbers : OwnNumbers v
  /-- Nothing else was closed. -/
  closes : ∀ c ∈ v.closes, Legitimate c

section Steps

variable {metadir : List UInt8} {env : Env} {v v' : View} {op : Op} {r : Reply} {p q : Path}
  {f f' : LFile}

/-- Only a release closes anything. -/
theorem served_descriptor (hrel : ∀ p, op = .release p → isMetaFile p = true → v.lookup p = none)
    (h : Served metadir env v op r v') :
    v'.closes = v.closes ∧
      ∀ fd d, v.store.descriptor fd = some d → v'.store.descriptor fd = some d := by
  cases h with
  | absent | queried | openFailed | released | exclusive | createFailed | renameRefused | resized
    | opened | written | recreated | created | renamed => exact ⟨rfl, fun _ _ hd => hd⟩
  | unlinked =>
    refine ⟨rfl, fun fd d hd => ?_⟩
    simp only [View.withStore]
    split_ifs
    · rw [Store.unlink_descriptor]
      exact hd
    · exact hd
  | @realTruncated p length fi f hp hmeta =>
    obtain ⟨-, hdesc, -⟩ := v.store.truncate_frame env.fault (realpath metadir p) length.toInt
    exact ⟨rfl, fun fd d hd => (congrFun hdesc fd).trans hd⟩
  | realOpened _ _ hopen | realCreated _ _ hopen =>
    exact ⟨rfl, fun _ _ hd => openFile_descriptor hopen hd⟩
  | @realWritten p buf size offset f r hp hmeta =>
    obtain ⟨-, hdesc, -⟩ := v.store.pwrite_frame env.fault env.limit f.realfd
      (buf.take size.toNat) offset.toInt
    exact ⟨rfl, fun fd d hd => (congrFun hdesc fd).trans hd⟩
  | realReleased hp hmeta =>
    rw [hrel _ rfl hmeta] at hp
    cases hp
  | realRenamed _ _ _ _ hcall _ =>
    exact ⟨rfl, fun fd d hd => (congrFun (Store.rename_ok hcall).2 fd).trans hd⟩

/-- A content entry that a request binds has no descriptor. -/
theorem served_content (hv : Owns metadir v)
    (hfresh : ∀ p mode fi, op = .create p mode fi → isMetaFile p = false → v.lookup p = none →
      env.junk.realfd = -1)
    (h : Served metadir env v op r v') :
    ∀ p f, v'.lookup p = some f → isMetaFile p = false → f.realfd = -1 := by
  intro q a hq hcontent
  have hrebind : ∀ {p f o}, v.lookup p = some f → (∀ b, o = some b → b.realfd = f.realfd) →
      (v.bind p o).lookup q = some a → a.realfd = -1 := by
    intro p f o hp ho hlook
    rcases bind_lookup_cases hlook with ⟨rfl, hoa⟩ | ⟨-, hold⟩
    · rw [ho a hoa]
      exact hv.content q f hp hcontent
    · exact hv.content q a hold hcontent
  cases h with
  | absent | queried | realTruncated | openFailed | realWritten | released | realReleased
    | exclusive | createFailed | renameRefused => exact hv.content q a hq hcontent
  | unlinked hp => exact hrebind hp (by rintro b ⟨⟩) hq
  | resized hp | written hp | recreated hp => exact hrebind hp (by rintro b ⟨⟩; rfl) hq
  | opened hp =>
    refine hrebind hp ?_ hq
    rintro b ⟨⟩
    split_ifs <;> rfl
  | realOpened hp hmeta =>
    rcases bind_lookup_cases hq with ⟨rfl, -⟩ | ⟨-, hold⟩
    · rw [hmeta] at hcontent
      cases hcontent
    · exact hv.content q a hold hcontent
  | @created p mode fi f hp hmeta hf =>
    rcases bind_lookup_cases hq with ⟨rfl, hoa⟩ | ⟨-, hold⟩
    · cases hoa
      rw [hf.realfd]
      exact hfresh q mode fi rfl hcontent hp
    · exact hv.content q a hold hcontent
  | realCreated hp hmeta =>
    rcases bind_lookup_cases hq with ⟨rfl, -⟩ | ⟨-, hold⟩
    · rw [hmeta] at hcontent
      cases hcontent
    · exact hv.content q a hold hcontent
  | @renamed old new f f' hnew hold hmold hmnew hf =>
    rcases bind_lookup_cases hq with ⟨-, hnone⟩ | ⟨-, hq⟩
    · cases hnone
    · rcases bind_lookup_cases hq with ⟨rfl, hoa⟩ | ⟨-, hq⟩
      · cases hoa
        rw [hf.realfd]
        exact hv.content old f hold hmold
      · exact hv.content q a hq hcontent
  | realRenamed _ _ _ hmnew =>
    rcases bind_lookup_cases hq with ⟨-, hnone⟩ | ⟨-, hq⟩
    · cases hnone
    · rcases bind_lookup_cases hq with ⟨rfl, -⟩ | ⟨-, hq⟩
      · rw [hmnew] at hcontent
        cases hcontent
      · exact hv.content q a hq hcontent

/-- A path that is bound to a number which no other meta entry holds keeps them apart. -/
theorem ownNumbers_bind (hv : OwnNumbers v) {o : Option LFile}
    (ho : ∀ b, o = some b → isMetaFile p = true → ∀ q g, q ≠ p → v.lookup q = some g →
      isMetaFile q = true → b.realfd ≠ g.realfd) : OwnNumbers (v.bind p o) := by
  intro a b f g ha hb hma hmb hne
  rcases bind_lookup_cases ha with ⟨rfl, hf⟩ | ⟨hap, hold⟩
  · rcases bind_lookup_cases hb with ⟨rfl, -⟩ | ⟨hbp, hb⟩
    · exact absurd rfl hne
    · exact ho f hf hma b g hbp hb hmb
  · rcases bind_lookup_cases hb with ⟨rfl, hg⟩ | ⟨-, hb⟩
    · exact (ho g hg hmb a f hap hold hma).symm
    · exact hv a b f g hold hb hma hmb hne

/-- A number that was not open is held by no meta entry. -/
theorem realfd_ne_fresh (hv : Owns metadir v) {fd : ℕ} (hfree : v.store.descriptor fd = none)
    (hq : v.lookup q = some f) (hmeta : isMetaFile q = true) : (fd : ℤ) ≠ f.realfd := by
  obtain ⟨d, hd, -⟩ := hv.meta q f hq hmeta
  rintro he
  rw [← he, hfree] at hd
  cases hd

/-- Every request keeps the numbers of different meta entries apart. -/
theorem served_numbers (hv : Owns metadir v) (h : Served metadir env v op r v') :
    OwnNumbers v' := by
  -- An entry that is rewritten with the number it has.
  have hrebind : ∀ {p f o}, v.lookup p = some f → (∀ b, o = some b → b.realfd = f.realfd) →
      OwnNumbers (v.bind p o) := by
    intro p f o hp ho
    refine ownNumbers_bind hv.numbers fun b hb hmeta q g hqp hq hmq => ?_
    rw [ho b hb]
    exact hv.numbers p q f g hp hq hmeta hmq hqp.symm
  cases h with
  | absent | queried | realTruncated | openFailed | realWritten | released | realReleased
    | exclusive | createFailed | renameRefused => exact hv.numbers
  | unlinked hp => exact hrebind hp (by rintro b ⟨⟩)
  | resized hp | written hp | recreated hp => exact hrebind hp (by rintro b ⟨⟩; rfl)
  | opened hp =>
    refine hrebind hp ?_
    rintro b ⟨⟩
    split_ifs <;> rfl
  | @realOpened p fi f fd store hp hmeta hopen =>
    obtain ⟨-, -, -, -, -, hfree, -⟩ := Store.openFile_ok hopen
    refine ownNumbers_bind hv.numbers ?_
    rintro b ⟨⟩ - q g - hq hmq
    exact realfd_ne_fresh hv hfree hq hmq
  | @created p mode fi f hp hmeta hf =>
    refine ownNumbers_bind hv.numbers fun b _ hmeta' => ?_
    rw [hmeta] at hmeta'
    cases hmeta'
  | @realCreated p mode fi f fd store hp hmeta hopen hf =>
    obtain ⟨-, -, -, -, -, hfree, -⟩ := Store.openFile_ok hopen
    refine ownNumbers_bind hv.numbers ?_
    rintro b ⟨⟩ - q g - hq hmq
    rw [hf.realfd]
    exact realfd_ne_fresh hv hfree hq hmq
  | @renamed old new f f' hnew hold hmold hmnew hf =>
    refine ownNumbers_bind (ownNumbers_bind hv.numbers fun b _ hmeta => ?_) ?_
    · rw [hmnew] at hmeta
      cases hmeta
    · rintro b ⟨⟩
  | @realRenamed old new f f' n store hnew hold hmold hmnew hcall hf =>
    -- The new entry takes the number of the old one over, which is gone.
    have htaken : ∀ q g, q ≠ old → q ≠ new → (v.bind new (some f')).lookup q = some g →
        isMetaFile q = true → f'.realfd ≠ g.realfd := by
      intro q g hqo hqn hq hmq
      rcases bind_lookup_cases hq with ⟨hqn', -⟩ | ⟨-, hq⟩
      · exact absurd hqn' hqn
      · rw [hf.realfd]
        exact hv.numbers old q f g hold hq hmold hmq hqo.symm
    intro a b fa fb ha hb hma hmb hne
    rcases bind_lookup_cases ha with ⟨-, hnone⟩ | ⟨hao, ha⟩
    · cases hnone
    rcases bind_lookup_cases hb with ⟨-, hnone⟩ | ⟨hbo, hb⟩
    · cases hnone
    rcases bind_lookup_cases ha with ⟨rfl, hfa⟩ | ⟨han, ha'⟩
    · cases hfa
      exact htaken b fb hbo hne.symm hb hmb
    · rcases bind_lookup_cases hb with ⟨rfl, hfb⟩ | ⟨-, hb'⟩
      · cases hfb
        exact (htaken a fa hao hne ha hma).symm
      · exact hv.numbers a b fa fb ha' hb' hma hmb hne

/-- A meta entry that a request leaves or binds has its own descriptor. -/
theorem served_meta (hv : Owns metadir v) (hst : StoresDirect metadir env v op)
    (hrel : ∀ p, op = .release p → isMetaFile p = true → v.lookup p = none)
    (h : Served metadir env v op r v') :
    ∀ p f, v'.lookup p = some f → isMetaFile p = true → OwnDescriptor metadir v' p f := by
  have hkeys' := served_directKeys hv.keys hst h
  obtain ⟨-, hdesc⟩ := served_descriptor hrel h
  intro q a hq hmeta
  have hdirect := hkeys' q a hq hmeta
  by_cases hout : q ∉ subjects op
  · have hnames := served_names_frame hv.keys hst h hdirect hout
    rw [served_lookup_frame h hout] at hq
    exact ownDescriptor_congr (hv.meta q a hq hmeta) rfl (hdesc _) hnames
  · rw [not_not] at hout
    -- The request is about this path.
    cases h with
    | absent | queried | openFailed | released | exclusive | createFailed | renameRefused =>
      exact hv.meta q a hq hmeta
    | unlinked =>
      simp only [subjects, List.mem_singleton] at hout
      subst hout
      simp [View.withStore, View.bind] at hq
    | resized _ hcontent | opened _ hcontent | written _ hcontent | created _ hcontent =>
      simp only [subjects, List.mem_singleton] at hout
      subst hout
      rw [hcontent] at hmeta
      cases hmeta
    | @realTruncated p length fi f₀ hp _ =>
      obtain ⟨hnames, -⟩ := v.store.truncate_frame env.fault (realpath metadir p) length.toInt
      exact ownDescriptor_congr (hv.meta q a hq hmeta) rfl (hdesc _) (congrFun hnames _)
    | @realWritten p buf size offset f₀ r hp _ =>
      obtain ⟨hnames, -⟩ := v.store.pwrite_frame env.fault env.limit f₀.realfd
        (buf.take size.toNat) offset.toInt
      exact ownDescriptor_congr (hv.meta q a hq hmeta) rfl (hdesc _) (congrFun hnames _)
    | realReleased hp hm =>
      rw [hrel _ rfl hm] at hp
      cases hp
    | @recreated p mode fi f₀ hp hfi =>
      simp only [subjects, List.mem_singleton] at hout
      subst hout
      obtain rfl : f₀.setSize 0 = a := by simpa [View.bind] using hq
      exact ownDescriptor_congr (hv.meta q f₀ hp hmeta) rfl (hdesc _) rfl
    | @realOpened p fi f₀ fd store hp _ hopen =>
      simp only [subjects, List.mem_singleton] at hout
      subst hout
      obtain rfl : f₀.setRealfd fd = a := by simpa [View.bind, View.withStore] using hq
      exact ownDescriptor_opened hdirect hopen rfl _
    | @realCreated p mode fi f₀ fd store hp _ hopen hf =>
      simp only [subjects, List.mem_singleton] at hout
      subst hout
      obtain rfl : f₀ = a := by simpa [View.bind, View.withStore] using hq
      exact ownDescriptor_opened hdirect hopen hf.realfd _
    | @renamed old new f₀ f' hnew hold hmold hmnew hf =>
      simp only [subjects, List.mem_cons, List.not_mem_nil, or_false] at hout
      rcases hout with rfl | rfl <;> simp_all
    | @realRenamed old new f₀ f' n store hnew hold hmold hmnew hcall hf =>
      rcases bind_lookup_cases hq with ⟨-, hnone⟩ | ⟨hqo, hq⟩
      · cases hnone
      · simp only [subjects, List.mem_cons, List.not_mem_nil, or_false] at hout
        obtain rfl : q = new := hout.resolve_left hqo
        obtain rfl : f' = a := by simpa [View.bind] using hq
        have hnames := (Store.rename_ok hcall).1
        rw [hdirect.realpath_eq, (hv.keys old f₀ hold hmold).realpath_eq] at hnames
        exact ownDescriptor_congr (hv.meta old f₀ hold hmold) hf.realfd (hdesc _) hnames

/-- Every way a request that keeps the descriptors can end keeps them owned. -/
theorem served_owns {w : World} {e : Event} (hv : Owns w.metadir (view w))
    (hkeep : KeepsDescriptors w e) (h : Served w.metadir e.env (view w) e.op r v') :
    Owns w.metadir v' := by
  have hfresh : ∀ p mode fi, e.op = .create p mode fi → isMetaFile p = false →
      (view w).lookup p = none → e.env.junk.realfd = -1 := by
    intro p mode fi hop
    have howned := hkeep.owned
    rw [hop] at howned
    exact howned
  have hrelease : ∀ p, e.op = .release p → isMetaFile p = true → (view w).lookup p = none := by
    intro p hop
    have howned := hkeep.owned
    rw [hop] at howned
    exact howned
  refine ⟨served_directKeys hv.keys hkeep.direct h, served_content hv hfresh h,
    served_meta hv hkeep.direct hrelease h, served_numbers hv h, ?_⟩
  rw [(served_descriptor hrelease h).1]
  exact hv.closes

end Steps

/-- The teardown loop with the cells still to visit: what was closed was
legitimate, and each cell has no descriptor or one of its own. -/
structure Closing (metadir : List UInt8) (w : World) (cells : List (Cell LFile)) : Prop where
  /-- The directory is still the same. -/
  directory : w.metadir = metadir
  /-- What was closed was legitimate. -/
  closes : ∀ c ∈ w.closes, Legitimate c
  /-- What may be closed is legitimate. -/
  entries : ∀ c ∈ cells, c.value.realfd = -1 ∨
    OwnDescriptor metadir (view w) c.value.key c.value
  /-- No two cells have the same descriptor. -/
  numbers : cells.Pairwise fun c d => c.value.realfd = -1 ∨ c.value.realfd ≠ d.value.realfd

/-- One iteration of the loop closes a descriptor no other cell has. -/
theorem closing_step {metadir : List UInt8} {w : World} {c : Cell LFile}
    {cells : List (Cell LFile)} {heap : Heap} (h : Closing metadir w (c :: cells)) :
    Closing metadir { closeIfOpen c.value w with heap := heap } cells := by
  obtain ⟨hhead, hnumbers⟩ := List.pairwise_cons.mp h.numbers
  unfold closeIfOpen
  split_ifs with hopen
  · have hopen' : c.value.realfd ≠ -1 := hopen
    have hown := (h.entries c List.mem_cons_self).resolve_left hopen'
    obtain ⟨hnames, -⟩ := w.store.close_frame none c.value.realfd
    have hdesc := w.store.close_descriptor none c.value.realfd
    refine ⟨h.directory, ?_, ?_, hnumbers⟩
    · intro x hx
      simp only [closeEntry, List.mem_append, List.mem_singleton] at hx
      rcases hx with hx | rfl
      · exact h.closes x hx
      · obtain ⟨d, hd, hdown, hname⟩ := hown
        exact ⟨d, hd, hdown, by rw [h.directory]; exact hname⟩
    · intro x hx
      rcases h.entries x (List.mem_cons_of_mem _ hx) with hnone | hxown
      · exact Or.inl hnone
      · have hfd := (hhead x hx).resolve_left hopen'
        refine Or.inr (ownDescriptor_congr hxown rfl ?_ (congrFun hnames _))
        intro d hd
        exact (congrFun hdesc _).trans ((Function.update_of_ne hfd.symm _ _).trans hd)
  · exact ⟨h.directory, h.closes, fun x hx => h.entries x (List.mem_cons_of_mem _ hx), hnumbers⟩

/-- A run of these requests returns; every entry it leaves holds -1 or an open
descriptor of its own real file; and with the teardown that follows, everything
that was ever closed was legitimate. -/
def CloseLaw (metadir : List UInt8) (store : Store (List UInt8)) (es : List Event) : Prop :=
  ∃ rs w, run step (boot metadir store) es = .ok (rs, w) ∧
    (∀ p f, w.lookup p = some f → f.realfd = -1 ∨ OwnDescriptor w.metadir (view w) p f) ∧
    ∃ visited files w', lDestroy .lData w = .ok (visited, files, w') ∧
      ∀ c ∈ w'.closes, Legitimate c

/-- The law holds for every run whose requests keep the descriptors. -/
theorem only_own_descriptors_closed (metadir : List UInt8) (store : Store (List UInt8))
    (es : List Event) (hes : Always step KeepsDescriptors (boot metadir store) es) :
    CloseLaw metadir store es := by
  have hinit : Owns metadir (view (boot metadir store)) := by
    have hnone : ∀ p f, (view (boot metadir store)).lookup p ≠ some f := boot_lookup_ne
    refine ⟨fun p f hp => absurd hp (hnone p f), fun p f hp => absurd hp (hnone p f),
      fun p f hp => absurd hp (hnone p f), fun p q f g hp => absurd hp (hnone p f), ?_⟩
    intro c hc
    cases hc
  have hserved : ∀ (u : World) (g : Unit) (e : Event) r v, OwnedTable u →
      u.metadir = metadir ∧ Owns metadir (view u) → KeepsDescriptors u e →
      Served u.metadir e.env (view u) e.op r v → u.metadir = metadir ∧ Owns metadir v := by
    rintro u g e r v - ⟨rfl, hv⟩ hkeep hs
    exact ⟨rfl, served_owns hv hkeep hs⟩
  obtain ⟨rs, w, hrun, hown, -, hmetadir, hv⟩ := safe_run_rule
    (R := fun m v _ => m = metadir ∧ Owns metadir v) (fun _ _ _ hg => hg.safe) hserved
    (boot_owned metadir store) ⟨rfl, hinit⟩ hes
  have hentries : ∀ p f, w.lookup p = some f → f.realfd = -1 ∨
      OwnDescriptor metadir (view w) p f := by
    intro p f hp
    cases hmeta : isMetaFile p with
    | false => exact Or.inl (hv.content p f hp hmeta)
    | true => exact Or.inr (hv.meta p f hp hmeta)
  have hclosing : Closing metadir w w.files := by
    have hbound : ∀ c ∈ w.files, w.lookup c.value.key = some c.value :=
      fun c hc => lookup_of_mem hown.keys hc
    refine ⟨hmetadir, hv.closes, fun c hc => hentries _ _ (hbound c hc), ?_⟩
    have hkeys : w.files.Pairwise fun c d => c.value.key ≠ d.value.key :=
      List.pairwise_map.mp hown.keys
    refine hkeys.imp_of_mem ?_
    intro c d hc hd hne
    rcases hcmeta : isMetaFile c.value.key with _ | _
    · exact Or.inl (hv.content _ _ (hbound c hc) hcmeta)
    · rcases hdmeta : isMetaFile d.value.key with _ | _
      · have hminus := hv.content _ _ (hbound d hd) hdmeta
        obtain ⟨t, ht, -⟩ := hv.meta _ _ (hbound c hc) hcmeta
        have hnonneg := Store.descriptor_nonneg ht
        exact Or.inr (by omega)
      · exact Or.inr (hv.numbers _ _ _ _ (hbound c hc) (hbound d hd) hcmeta hdmeta hne)
  obtain ⟨w', hloop, -, hend⟩ := destroyLoop_rule (I := Closing metadir)
    (fun _ _ _ _ hI => closing_step hI) hown hclosing
  exact ⟨rs, w, hrun, hmetadir ▸ hentries, _, _, w', hloop, hend.closes⟩

/-- Every release of a meta file leaves a number in its entry that is closed. -/
theorem release_leaves_stale {w w' : World} {p : Path} {f : LFile} {env : Env} {r : Reply}
    (hp : w.lookup p = some f) (hmeta : isMetaFile p = true)
    (hown : OwnDescriptor w.metadir (view w) p f) (h : step w ⟨.release p, env⟩ = .ok (r, w')) :
    w'.lookup p = some f ∧ f.realfd ≠ -1 ∧ w'.store.descriptor f.realfd = none := by
  obtain ⟨c, hfind, rfl⟩ := find_of_lookup hp
  have hfind' : w.find p = some c := hfind
  obtain ⟨d, hd, -⟩ := hown
  have hnonneg : 0 ≤ c.value.realfd := Store.descriptor_nonneg hd
  have hclosed := w.store.close_descriptor env.fault c.value.realfd
  simp only [step, lRelease, hfind', hmeta, if_true] at h
  cases h
  refine ⟨hp, by omega, ?_⟩
  exact (congrFun hclosed _).trans (Function.update_self _ _ _)

/-- A meta file that is opened and released leaves a number that is closed. -/
theorem closeLaw_fails_after_release :
    let p : Path := ⟨ascii "a.mhash", by decide⟩
    ¬ CloseLaw (ascii "/meta") (Store.empty _)
      [⟨.create p 0o644 ⟨O_CREAT, 0⟩, Env.quiet⟩, ⟨.release p, Env.quiet⟩] := by
  rintro p ⟨rs, w, hrun, hentries, -⟩
  have hobserved : (run step (boot (ascii "/meta") (Store.empty _))
      [⟨.create p 0o644 ⟨O_CREAT, 0⟩, Env.quiet⟩, ⟨.release p, Env.quiet⟩]).map (fun out =>
        (out.2.lookup p).map (fun f => (f.realfd, (out.2.store.descriptor f.realfd).isSome))) =
      .ok (some (0, false)) := by
    decide +kernel
  obtain ⟨rs', w', hrun', hout⟩ := run_observe (f := fun (w : World) =>
    (w.lookup p).map (fun f => (f.realfd, (w.store.descriptor f.realfd).isSome))) hobserved
  rw [hrun] at hrun'
  cases hrun'
  obtain ⟨f, hf, hclosed⟩ := Option.map_eq_some_iff.mp hout
  obtain ⟨hzero, hnone⟩ := Prod.mk.inj hclosed
  rcases hentries p f hf with hminus | ⟨d, hd, -⟩
  · omega
  · have hd' : w.store.descriptor f.realfd = some d := hd
    rw [hd'] at hnone
    cases hnone

/-- Two meta files that stay open until the file system is unmounted. -/
theorem only_own_descriptors_closed_small :
    let p : Path := ⟨ascii "a.mhash", by decide⟩
    let q : Path := ⟨ascii "b.mbinmap", by decide⟩
    let moved : Path := ⟨ascii "c.mhash", by decide⟩
    CloseLaw (ascii "/meta") (Store.empty _) [⟨.create p 0o644 ⟨O_CREAT, 0⟩, Env.quiet⟩,
      ⟨.create q 0o644 ⟨O_CREAT, 0⟩, Env.quiet⟩, ⟨.rename p moved, Env.quiet⟩] := by
  intro p q moved
  refine only_own_descriptors_closed _ _ _ ?_
  decide +kernel

end LazyFS.CloseDiscipline
