import Rend.Structs.Assemble
import Rend.Pmap.Levels
import Rend.Vm.Deferred

/-!
# Cells with one type each

A program reads each cell at one type: `Γ` is such a layout, and `N` are the node cells, which hold
bytes. A transaction is `Laid` when what is cached, queued or walked to agrees with the layout. Then a
cell has one value, written or below the caches, whichever way and however late it is read
(`laidValue`), and no read or drain changes that.
-/

namespace Rend.Structs

open Lib Pmap Tx

variable {Γ : U128 → Ty} {N : Set U128} {tx tx' : Tx}

/-- The value of a cell at the type it is laid out for. -/
def laidValue (Γ : U128 → Ty) (tx : Tx) (c : U128) : Value :=
  (tx.writes.lookup c).getD (tx.storeValue c (Γ c))

/-- What is cached, queued or walked to agrees with the layout, and no cell holds a value that `force`
would change. -/
structure Laid (Γ : U128 → Ty) (N : Set U128) (tx : Tx) : Prop where
  cached : ∀ c v, tx.writes.lookup c = none → tx.reads.lookup c = some v → v = tx.storeValue c (Γ c)
  pending : ∀ p ∈ tx.pending, p.ty = Γ p.key
  walks : ∀ w ∈ tx.pendingWalks, w.cell ∈ N
  nodes : ∀ c ∈ N, ∀ kt vt bm cs,
    (asBytes (laidValue Γ tx c)).bind (deserializeNode kt vt) = some (.inner bm cs) → ∀ c' ∈ cs, c' ∈ N
  clean : ∀ c, containsPending (laidValue Γ tx c) = false

theorem Laid.cellValue (h : Laid Γ N tx) (c : U128) : tx.cellValue c (Γ c) = laidValue Γ tx c := by
  unfold Tx.cellValue laidValue
  cases hw : tx.writes.lookup c with
  | some v => rfl
  | none =>
    cases hr : tx.reads.lookup c with
    | some v => exact h.cached c v hw hr
    | none => rfl

/-- The value of a cell is a matter of what is written and of what lies below. -/
theorem laidValue_congr (hw : tx'.writes = tx.writes) (hs : ∀ c ty, tx'.storeValue c ty = tx.storeValue c ty) :
    laidValue Γ tx' = laidValue Γ tx := by
  funext c
  rw [laidValue, laidValue, hw, hs]

theorem laidValue_drained (h : Drained tx tx') : laidValue Γ tx' = laidValue Γ tx :=
  laidValue_congr h.writes_eq h.storeValue_eq

theorem laidValue_cached {asked : Leaves} (h : Cached asked tx tx') : laidValue Γ tx' = laidValue Γ tx :=
  laidValue_congr h.writes_eq h.storeValue_eq

/-! ### What keeps to the layout -/

/-- Caching cells at their types. -/
theorem Laid.of_cached (h : Laid Γ N tx) {asked : Leaves} (hasked : ∀ l ∈ asked, l.2 = Γ l.1)
    (hc : Cached asked tx tx') : Laid Γ N tx' := by
  have hvalue := laidValue_cached (Γ := Γ) hc
  refine ⟨fun c v hw hr => ?_, ?_, ?_, ?_, ?_⟩
  · rw [hc.writes_eq] at hw
    rw [hc.storeValue_eq]
    rcases hc.reads c with he | ⟨ty, hmem, -, he⟩
    · exact h.cached c v hw (he ▸ hr)
    · have hty : ty = Γ c := hasked _ hmem
      rw [he, hty] at hr
      exact (Option.some.inj hr).symm
  · rw [hc.frame]
    exact h.pending
  · rw [hc.frame]
    exact h.walks
  · rw [hvalue]
    exact h.nodes
  · rw [hvalue]
    exact h.clean

theorem Laid.insert (h : Laid Γ N tx) {c : U128} (hw : tx.writes.lookup c = none) (hr : tx.reads.lookup c = none) :
    Laid Γ N { tx with reads := tx.reads.insert c (tx.storeValue c (Γ c)) } :=
  have hc : Cached [(c, Γ c)] tx { tx with reads := tx.reads.insert c (tx.storeValue c (Γ c)) } :=
    (Cached.refl _ tx).insert List.mem_cons_self ⟨hw, hr⟩
  h.of_cached (fun l hl => by rw [List.mem_singleton.mp hl]) hc

theorem Laid.queue (h : Laid Γ N tx) (c : U128) : Laid Γ N (tx.queue c (Γ c)).1 := by
  refine ⟨h.cached, fun p hp => ?_, h.walks, h.nodes, h.clean⟩
  rcases List.mem_append.mp hp with hp | hp
  · exact h.pending p hp
  · rw [List.mem_singleton.mp hp]

theorem Laid.flushPending (h : Laid Γ N tx) : Laid Γ N tx.flushPending := by
  have hd := drained_flushPending tx
  have hvalue := laidValue_drained (Γ := Γ) hd
  refine ⟨fun c v hw hr => ?_, fun p hp => h.pending p (hd.pending.subset hp), ?_, ?_, ?_⟩
  · rw [hd.writes_eq] at hw
    rw [hd.storeValue_eq]
    rcases nodeReads_flushPending tx c with he | ⟨p, hp, hkey, he⟩ | ⟨hmem, -⟩
    · exact h.cached c v hw (he ▸ hr)
    · rw [he, h.pending p hp, hkey] at hr
      exact (Option.some.inj hr).symm
    · cases hmem
  · rw [flushPending_walks]
    exact h.walks
  · rw [hvalue]
    exact h.nodes
  · rw [hvalue]
    exact h.clean

/-- The bytes that a lookup finds at a node cell. -/
theorem Laid.fetchNode (h : Laid Γ N tx) (hN : ∀ c ∈ N, Γ c = .bytes) {c : U128} (hc : c ∈ N) :
    (tx.fetchNode c).2 = asBytes (laidValue Γ tx c) := by
  unfold Tx.fetchNode laidValue
  cases hw : tx.writes.lookup c with
  | some v => rfl
  | none =>
    cases hr : tx.reads.lookup c with
    | some v =>
      rw [h.cached c v hw hr]
      rfl
    | none =>
      dsimp only
      rw [← storeValue_bytes, hN c hc]
      rfl

/-- A lookup goes on to a child of the node it has read. -/
theorem cell_of_continue {w w' : PWalk} {bs : Option Bytes} (h : advancePmapWalk w bs = .continue w') :
    ∃ bm cs, bs.bind (deserializeNode w.keyTy w.valTy) = some (.inner bm cs) ∧ w'.cell ∈ cs := by
  unfold advancePmapWalk at h
  split at h
  · cases h
  · cases h
  · next bm cs hnode =>
    dsimp only at h
    split_ifs at h with hlevel hslot
    cases h
    obtain ⟨e, -, he⟩ := Option.bind_eq_some_iff.mp hnode
    exact ⟨bm, cs, hnode, child_mem he hslot⟩

theorem Laid.advanceWalk (h : Laid Γ N tx) (hN : ∀ c ∈ N, Γ c = .bytes) {w : PWalk} (hw : w.cell ∈ N) :
    Laid Γ N (tx.advanceWalk w) := by
  have hfetched : Laid Γ N (tx.fetchNode w.cell).1 := by
    rcases tx.fetchNode_fst w.cell with hf | ⟨⟨hwr, hr⟩, hf⟩
    · rw [hf]
      exact h
    · rw [hf, ← hN _ hw]
      exact h.insert hwr hr
  unfold Tx.advanceWalk
  dsimp only
  cases hadv : advancePmapWalk w (tx.fetchNode w.cell).2 with
  | done v => exact ⟨hfetched.cached, hfetched.pending, hfetched.walks, hfetched.nodes, hfetched.clean⟩
  | «continue» w' =>
    refine ⟨hfetched.cached, hfetched.pending, fun u hu => ?_, hfetched.nodes, hfetched.clean⟩
    rcases List.mem_append.mp hu with hu | hu
    · exact hfetched.walks u hu
    · obtain ⟨bm, cs, hnode, hcell⟩ := cell_of_continue hadv
      rw [h.fetchNode hN hw] at hnode
      rw [List.mem_singleton.mp hu]
      exact h.nodes _ hw _ _ bm cs hnode _ hcell

theorem Laid.foldl (hN : ∀ c ∈ N, Γ c = .bytes) (l : List PWalk) (hl : ∀ w ∈ l, w.cell ∈ N) {tx : Tx}
    (h : Laid Γ N tx) : Laid Γ N (l.foldl Tx.advanceWalk tx) := by
  induction l generalizing tx with
  | nil => exact h
  | cons w l ih =>
    exact ih (fun u hu => hl u (List.mem_cons_of_mem _ hu)) (h.advanceWalk hN (hl w List.mem_cons_self))

theorem Laid.advanceWalks (h : Laid Γ N tx) (hN : ∀ c ∈ N, Γ c = .bytes) : Laid Γ N tx.advanceWalks := by
  refine Laid.foldl hN tx.pendingWalks h.walks ⟨h.cached, h.pending, fun w hw => ?_, h.nodes, h.clean⟩
  cases hw

/-- **A drain keeps to the layout.** -/
theorem Laid.drain (h : Laid Γ N tx) (hN : ∀ c ∈ N, Γ c = .bytes) (n : ℕ) : Laid Γ N (tx.drain n) := by
  induction n generalizing tx with
  | zero => exact h
  | succ n ih =>
    rw [Vm.drain_succ]
    split_ifs
    · exact h
    · refine ih ?_
      unfold drainRound
      dsimp only
      split_ifs
      · exact h
      · exact h.flushPending
      · exact h.advanceWalks hN
      · exact h.flushPending.advanceWalks hN

theorem Laid.force (h : Laid Γ N tx) (hN : ∀ c ∈ N, Γ c = .bytes) (v : Value) : Laid Γ N (tx.force v).1 := by
  unfold Tx.force
  split_ifs
  · exact h.drain hN _
  · exact h

/-! ### Reads that are answered later -/

/-- The handle is that of a queued read of this value, or has been resolved to it. -/
def Promised (tx : Tx) (i : ℕ) (v : Value) : Prop :=
  (i ∉ tx.handles ∧ tx.resolved.lookup i = some v) ∨ ∃ p ∈ tx.pending, p.id = i ∧ tx.storeValue p.key p.ty = v

/-- Once the queues have been drained the handle is resolved. -/
theorem Promised.drain (hf : tx.Fresh) {i : ℕ} {v : Value} (h : Promised tx i v) :
    (tx.drain (maxLevels + 2)).resolved.lookup i = some v := by
  rcases h with ⟨hout, hi⟩ | ⟨p, hp, rfl, rfl⟩
  · rw [(drained_drain _ tx).resolved i hout, hi]
  · have hknown : Vm.Known tx p.id := .inl (List.mem_append_left _ (List.mem_map_of_mem hp))
    obtain ⟨v, hv⟩ := Option.isSome_iff_exists.mp (Vm.resolved_of_known hknown)
    have hforce := force_pending hf hp
    rw [Tx.force, if_pos (by rfl)] at hforce
    dsimp only at hforce
    rw [substituteResolved, hv, Option.getD_some] at hforce
    rw [hv, hforce]

theorem Promised.force (hf : tx.Fresh) {i : ℕ} {v : Value} (h : Promised tx i v) (w : Value) :
    Promised (tx.force w).1 i v := by
  unfold Tx.force
  split_ifs
  · exact .inl ⟨by rw [Vm.drain_handles]; exact List.not_mem_nil, h.drain hf⟩
  · exact h

theorem Promised.queue {i : ℕ} {v : Value} (h : Promised tx i v) (hi : i < tx.nextHandle) (c : U128) (ty : Ty) :
    Promised (tx.queue c ty).1 i v := by
  rcases h with ⟨hout, hres⟩ | ⟨p, hp, hrest⟩
  · refine .inl ⟨fun hmem => ?_, hres⟩
    rcases List.mem_cons.mp ((tx.queue_handles c ty).subset hmem) with rfl | hmem
    · exact lt_irrefl _ hi
    · exact hout hmem
  · exact .inr ⟨p, List.mem_append_left _ hp, hrest⟩

theorem Promised.of_cached {asked : Leaves} {i : ℕ} {v : Value} (h : Promised tx i v) (hc : Cached asked tx tx') :
    Promised tx' i v := by
  rw [hc.frame]
  exact h

/-- The queued read of a cell. -/
theorem promised_queue (tx : Tx) (c : U128) (ty : Ty) :
    Promised (tx.queue c ty).1 tx.nextHandle (tx.storeValue c ty) :=
  .inr ⟨⟨tx.nextHandle, c, ty⟩, List.mem_append_right _ List.mem_cons_self, rfl, rfl⟩

/-- The register holds the value, or a handle that is promised it. -/
def Yields (tx : Tx) (a v : Value) : Prop :=
  (a = v ∧ containsPending v = false) ∨ ∃ i, a = .pending i ∧ i < tx.nextHandle ∧ Promised tx i v

theorem Yields.force (hf : tx.Fresh) {a v : Value} (h : Yields tx a v) : (tx.force a).2 = v := by
  rcases h with ⟨rfl, hclean⟩ | ⟨i, rfl, -, hp⟩
  · rw [force_eq_of_not_pending hclean]
  · rw [Tx.force, if_pos (by rfl)]
    dsimp only
    rw [substituteResolved, hp.drain hf, Option.getD_some]

/-- A later state in which the handle is still promised its value. -/
theorem Yields.mono {a v : Value} (h : Yields tx a v) (hnext : tx.nextHandle ≤ tx'.nextHandle)
    (hp : ∀ i, i < tx.nextHandle → Promised tx i v → Promised tx' i v) : Yields tx' a v :=
  h.imp id fun ⟨i, ha, hi, hpromised⟩ => ⟨i, ha, lt_of_lt_of_le hi hnext, hp i hi hpromised⟩

theorem Yields.force_step (hf : tx.Fresh) {a v : Value} (h : Yields tx a v) (w : Value) :
    Yields (tx.force w).1 a v :=
  h.mono (by rw [(drained_force tx w).nextHandle_eq]) fun _ _ hp => hp.force hf w

/-! ### What only looks at the cells -/

/-- From one state to a later one every cell keeps its value and every register what it is promised. -/
structure Observes (Γ : U128 → Ty) (N : Set U128) (tx tx' : Tx) : Prop where
  laid : Laid Γ N tx'
  fresh : tx'.Fresh
  value : laidValue Γ tx' = laidValue Γ tx
  yields : ∀ a v, Yields tx a v → Yields tx' a v

theorem Observes.refl (h : Laid Γ N tx) (hf : tx.Fresh) : Observes Γ N tx tx := ⟨h, hf, rfl, fun _ _ hy => hy⟩

theorem Observes.trans {tx'' : Tx} (h : Observes Γ N tx tx') (h' : Observes Γ N tx' tx'') : Observes Γ N tx tx'' :=
  ⟨h'.laid, h'.fresh, h'.value.trans h.value, fun a v hy => h'.yields a v (h.yields a v hy)⟩

theorem observes_force (h : Laid Γ N tx) (hf : tx.Fresh) (hN : ∀ c ∈ N, Γ c = .bytes) (w : Value) :
    Observes Γ N tx (tx.force w).1 :=
  ⟨h.force hN w, (drained_force tx w).fresh hf, laidValue_drained (drained_force tx w),
    fun _ _ hy => hy.force_step hf w⟩

theorem observes_queue (h : Laid Γ N tx) (hf : tx.Fresh) (c : U128) : Observes Γ N tx (tx.queue c (Γ c)).1 :=
  ⟨h.queue c, hf.queue c _, laidValue_congr rfl fun _ _ => rfl,
    fun _ _ hy => hy.mono (Nat.le_succ _) fun _ hi hp => hp.queue hi c _⟩

theorem observes_cached (h : Laid Γ N tx) (hf : tx.Fresh) {asked : Leaves} (hasked : ∀ l ∈ asked, l.2 = Γ l.1)
    (hc : Cached asked tx tx') : Observes Γ N tx tx' := by
  refine ⟨h.of_cached hasked hc, ?_, laidValue_cached hc, fun _ _ hy => hy.mono ?_ fun _ _ hp => hp.of_cached hc⟩
  · rw [hc.frame]
    exact hf
  · rw [hc.frame]

/-! ### Reads -/

/-- A register that holds the value of a cell. -/
theorem Laid.yields_value (h : Laid Γ N tx) {c : U128} {a : Value} (ha : a = laidValue Γ tx c) (tx' : Tx) :
    Yields tx' a (laidValue Γ tx c) :=
  .inl ⟨ha, h.clean c⟩

/-- The queued read of a cell that has not been written. -/
theorem yields_queue {c : U128} (hw : tx.writes.lookup c = none) :
    Yields (tx.queue c (Γ c)).1 (tx.queue c (Γ c)).2 (laidValue Γ tx c) := by
  rw [laidValue, hw, Option.getD_none]
  exact .inr ⟨tx.nextHandle, rfl, Nat.lt_succ_self _, promised_queue tx c (Γ c)⟩

theorem laidValue_unwritten {c : U128} (hw : tx.writes.lookup c = none) :
    tx.storeValue c (Γ c) = laidValue Γ tx c := by
  rw [laidValue, hw, Option.getD_none]

/-- An answer to a read: what is written or cached, else a queued read, or what lies below the caches,
which is cached now. -/
theorem answer_yields (h : Laid Γ N tx) (hf : tx.Fresh) {c : U128} {r : Tx × Value}
    (hwritten : ∀ v, tx.writes.lookup c = some v → r = (tx, v))
    (hcached : ∀ v, tx.writes.lookup c = none → tx.reads.lookup c = some v → r = (tx, v))
    (hmiss : tx.Unknown c → r = tx.queue c (Γ c) ∨
      r = ({ tx with reads := tx.reads.insert c (tx.storeValue c (Γ c)) }, tx.storeValue c (Γ c))) :
    Observes Γ N tx r.1 ∧ Yields r.1 r.2 (laidValue Γ tx c) := by
  have hself := Observes.refl h hf
  cases hw : tx.writes.lookup c with
  | some v =>
    rw [hwritten v hw]
    exact ⟨hself, h.yields_value (by rw [laidValue, hw, Option.getD_some]) tx⟩
  | none =>
    have hstore := laidValue_unwritten (Γ := Γ) hw
    cases hr : tx.reads.lookup c with
    | some v =>
      rw [hcached v hw hr]
      exact ⟨hself, h.yields_value ((h.cached c v hw hr).trans hstore) tx⟩
    | none =>
      rcases hmiss ⟨hw, hr⟩ with he | he
      · rw [he]
        exact ⟨observes_queue h hf c, yields_queue hw⟩
      · have hc : Cached [(c, Γ c)] tx { tx with reads := tx.reads.insert c (tx.storeValue c (Γ c)) } :=
          (Cached.refl _ tx).insert List.mem_cons_self ⟨hw, hr⟩
        rw [he]
        exact ⟨observes_cached h hf (fun l hl => by rw [List.mem_singleton.mp hl]) hc, h.yields_value hstore _⟩

/-- A read at once caches what lies below the caches. -/
theorem read_unknown {c : U128} (hu : tx.Unknown c) (ty : Ty) : tx.read c ty (Value.defaultFor ty) =
    ({ tx with reads := tx.reads.insert c (tx.storeValue c ty) }, tx.storeValue c ty) := by
  simp only [Tx.read, hu.1, hu.2, Tx.storeValue]

/-- **A cell read as one value** yields the value of the cell. -/
theorem readCell_yields (h : Laid Γ N tx) (hf : tx.Fresh) (c : U128) :
    Observes Γ N tx (tx.readCell c (Γ c)).1 ∧
      Yields (tx.readCell c (Γ c)).1 (tx.readCell c (Γ c)).2 (laidValue Γ tx c) := by
  refine answer_yields h hf (fun v hw => ?_) (fun v hw hr => ?_) fun hu => ?_
  · simp only [Tx.readCell, hw]
  · simp only [Tx.readCell, hw, hr]
  · simp only [Tx.readCell, hu.1, hu.2]
    cases hp : tx.parentLookup c with
    | some v =>
      have hv : tx.storeValue c (Γ c) = v := by rw [storeValue, hp, Option.getD_some]
      exact .inr (by rw [hv])
    | none =>
      dsimp only
      split_ifs
      · exact .inl rfl
      · exact .inr (read_unknown hu _)

/-- A typed read of a cell yields the value of the cell. -/
theorem readTyped_yields (h : Laid Γ N tx) (hf : tx.Fresh) (c : U128) :
    Observes Γ N tx (tx.readTyped c (Γ c)).1 ∧
      Yields (tx.readTyped c (Γ c)).1 (tx.readTyped c (Γ c)).2 (laidValue Γ tx c) := by
  refine answer_yields h hf (fun v hw => ?_) (fun v hw hr => ?_) fun hu => ?_
  · simp only [Tx.readTyped, hw]
  · simp only [Tx.readTyped, hw, hr]
  · simp only [Tx.readTyped, hu.1, hu.2]
    split_ifs
    · exact .inl rfl
    · exact .inr (read_unknown hu _)

/-! ### Reads of structs -/

/-- The leaves of a type keep to the layout. -/
def LaidAt (Γ : U128 → Ty) (key : U128) (ty : Ty) : Prop := ∀ l ∈ (collectLeaves key ty []).1, l.2 = Γ l.1

/-- The value of a type stored at a cell. -/
def stored (Γ : U128 → Ty) (tx : Tx) (key : U128) (ty : Ty) : Value :=
  assemble (fun c _ => laidValue Γ tx c) key ty

/-- What a type is assembled from are the values of its leaves. -/
theorem assemble_congr {val val' : U128 → Ty → Value} {key : U128} {ty : Ty}
    (h : ∀ l ∈ (collectLeaves key ty []).1, val l.1 l.2 = val' l.1 l.2) : assemble val key ty = assemble val' key ty := by
  obtain ⟨-, -, hvalue⟩ := @collectLeaves_assemble val key ty []
  obtain ⟨-, -, hvalue'⟩ := @collectLeaves_assemble val' key ty []
  rw [← hvalue [], ← hvalue' [], List.append_nil, leafValues, leafValues, List.map_congr_left h]

theorem Laid.assemble (h : Laid Γ N tx) {key : U128} {ty : Ty} (hlaid : LaidAt Γ key ty) :
    assemble tx.cellValue key ty = stored Γ tx key ty :=
  assemble_congr fun l hl => by
    rw [hlaid l hl]
    exact h.cellValue l.1

theorem not_pending_lookup {fields : List (String × Value)} (h : containsPendingFields fields = false)
    {name : String} {v : Value} (hv : fields.lookup name = some v) : containsPending v = false := by
  induction fields with
  | nil => cases hv
  | cons f fields ih =>
    obtain ⟨n, u⟩ := f
    obtain ⟨hu, hrest⟩ := Bool.or_eq_false_iff.mp h
    rw [List.lookup_cons] at hv
    split at hv
    · cases hv
      exact hu
    · exact ih hrest hv

theorem not_pending_projectField {v : Value} (h : containsPending v = false) (fname : String) :
    containsPending (projectField v fname) = false := by
  cases v with
  | struct name fields =>
    rw [projectField]
    cases hl : fields.lookup fname with
    | none => rfl
    | some w => exact not_pending_lookup h hl
  | _ => rfl

mutual

/-- What is assembled from values that `force` leaves alone is left alone. -/
theorem not_pending_assemble {val : U128 → Ty → Value} (h : ∀ c ty, containsPending (val c ty) = false) (key : U128)
    (ty : Ty) : containsPending (assemble val key ty) = false := by
  cases ty with
  | explicitLiteral inner => exact not_pending_assemble h key inner
  | struct name fields groups => exact not_pending_assembleFields h key _ fields groups
  | _ => exact h key _

theorem not_pending_assembleFields {val : U128 → Ty → Value} (h : ∀ c ty, containsPending (val c ty) = false)
    (key : U128) (blob : String → Ty) (fields : List (String × Ty)) (groups : List (Option String)) :
    containsPendingFields (assembleFields val key blob fields groups) = false := by
  cases fields with
  | nil => rfl
  | cons f fields =>
    obtain ⟨fname, fty⟩ := f
    rw [assembleFields, containsPendingFields, not_pending_assembleFields h key blob fields groups.tail,
      Bool.or_false]
    cases groups.headD none with
    | none => exact not_pending_assemble h _ fty
    | some g => exact not_pending_projectField (h _ _) fname

end

/-- **A typed read** yields what is stored. -/
theorem readState_yields (h : Laid Γ N tx) (hf : tx.Fresh) (key : U128) (ty : Ty) (hlaid : LaidAt Γ key ty) :
    Observes Γ N tx (tx.readState key ty).1 ∧
      Yields (tx.readState key ty).1 (tx.readState key ty).2 (stored Γ tx key ty) := by
  have hplain : ∀ ty', (key, ty') ∈ (collectLeaves key ty []).1 → Observes Γ N tx (tx.readTyped key ty').1 ∧
      Yields (tx.readTyped key ty').1 (tx.readTyped key ty').2 (laidValue Γ tx key) := by
    intro ty' hmem
    have hty : ty' = Γ key := hlaid _ hmem
    rw [hty]
    exact readTyped_yields h hf key
  cases ty with
  | explicitLiteral inner => exact readState_yields h hf key inner hlaid
  | struct name fields groups =>
    have hall : (collectAll [(key, .struct name fields groups)] []).1 =
        (collectLeaves key (.struct name fields groups) []).1 := rfl
    have hvalue := tx.readTypedMany_eq [(key, .struct name fields groups)]
    rw [List.map_singleton, h.assemble hlaid] at hvalue
    unfold Tx.readState
    dsimp only
    rw [hvalue]
    refine ⟨observes_cached h hf hlaid (hall ▸ readLeaves_cached tx _), .inl ⟨rfl, ?_⟩⟩
    exact not_pending_assemble (fun c _ => h.clean c) key _
  | _ => exact hplain _ List.mem_cons_self

end Rend.Structs
