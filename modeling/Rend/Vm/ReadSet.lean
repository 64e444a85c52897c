import Rend.Leaves
import Rend.Pmap.Trie

/-!
# Read sets

What a run of the machine does to its transaction is a sequence of operations, in shadows too, whose
deltas are folded in (`Run`). `Stored` says that a read set records the store: each entry is what the
store gives at a type that was asked for.

The operations of a transaction without ancestors keep this. In a shadow a read falls through to what
its ancestors have written and caches it, so that an uncommitted value enters the read set and is folded
into that of the parent. `Clean` excludes just that: a read of a cell that the shadow does not know and
that an ancestor has written. `run_stored` is the theorem about runs all of whose operations are clean.
In any run the cells that are read so are among those that are written, so that the other entries record
the store (`run_storedUnwritten`).
-/

namespace Rend.Vm

open Lib Pmap Tx

/-- An operation of the machine on its transaction. -/
inductive TxOp
  | readCell (c : U128) (ty : Ty)
  | readState (c : U128) (ty : Ty)
  | readTypedMany (ops : List (U128 × Ty))
  | force (v : Value)
  | write (c : U128) (v : Value)
  | beginPmapGet (root : U128) (key : Value) (kt vt : Ty)
  | flushPending
  | recordNodeCellWrite (c : U128)
  | putNode (key : Bytes → U128) (bs : Bytes)
  | recordPmapTypes (c : U128) (kt vt : Ty)
  | recordPvecType (c : U128) (elem : Ty)
  | setLazy (lazy : Bool)

def TxOp.run (tx : Tx) : TxOp → Tx
  | .readCell c ty => (tx.readCell c ty).1
  | .readState c ty => (tx.readState c ty).1
  | .readTypedMany ops => (tx.readTypedMany ops).1
  | .force v => (tx.force v).1
  | .write c v => tx.write c v
  | .beginPmapGet root key kt vt => (tx.beginPmapGet root key kt vt).1
  | .flushPending => tx.flushPending
  | .recordNodeCellWrite c => tx.recordNodeCellWrite c
  | .putNode key bs => (Tx.putNode key tx bs).1
  | .recordPmapTypes c kt vt => tx.recordPmapTypes c kt vt
  | .recordPvecType c elem => tx.recordPvecType c elem
  | .setLazy lazy => tx.setLazy lazy

/-- The nodes that forcing a value asks for. -/
def forceAsks (tx : Tx) (v : Value) : Leaves :=
  if containsPending v then (tx.walkCells (maxLevels + 2)).map fun c => (c, .bytes) else []

/-- The cells an operation asks for, each with the type it is read at. -/
def TxOp.asks (tx : Tx) : TxOp → Leaves
  | .readCell c ty => [(c, ty)]
  | .readState c ty => (collectLeaves c ty []).1
  | .readTypedMany ops => (collectAll ops []).1
  | .force v => forceAsks tx v
  | .write _ v => forceAsks tx v
  | _ => []

/-- Some ancestor has written the cell. -/
def WrittenAbove (tx : Tx) (c : U128) : Prop := ∃ a ∈ tx.ancestors, (a.1.lookup c).isSome

/-- An operation that asks for no cell that an ancestor has written and the transaction itself does not
know. -/
def Clean (tx : Tx) (o : TxOp) : Prop := ∀ q ∈ o.asks tx, tx.Unknown q.1 → ¬ WrittenAbove tx q.1

/-- An operation that is clean, as far as it asks for other cells. -/
def CleanBut (D : Set U128) (tx : Tx) (o : TxOp) : Prop :=
  ∀ q ∈ o.asks tx, q.1 ∉ D → tx.Unknown q.1 → ¬ WrittenAbove tx q.1

/-- Runs whose operations all meet a condition, with the reads asked for. A leg runs in a shadow from an
earlier moment and is folded in later. -/
inductive Run (P : Tx → TxOp → Prop) : Tx → Leaves → Tx → Prop
  | refl (tx : Tx) : Run P tx [] tx
  | op {tx₀ tx : Tx} {asked : Leaves} (h : Run P tx₀ asked tx) (o : TxOp) (ho : P tx o) :
      Run P tx₀ (asked ++ o.asks tx) (o.run tx)
  | leg {tx₀ tx₁ tx δ : Tx} {asked before below : Leaves} (h₁ : Run P tx₀ before tx₁)
      (hδ : Run P tx₁.shadowOf below δ) (h : Run P tx₁ asked tx) :
      Run P tx₀ (before ++ below ++ asked) (tx.mergeDelta δ)

/-- Each entry is what the store gives at a type that was asked for, the default of the type when it
gives nothing. -/
def Stored (kv : Kv) (asked : Leaves) (reads : Cells) : Prop :=
  ∀ c v, reads.lookup c = some v → ∃ ty, (c, ty) ∈ asked ∧ v = observed kv c ty (Value.defaultFor ty)

/-- The entries at other cells are what the store gives. -/
def StoredBut (D : Set U128) (kv : Kv) (asked : Leaves) (reads : Cells) : Prop :=
  ∀ c v, reads.lookup c = some v → c ∉ D → ∃ ty, (c, ty) ∈ asked ∧ v = observed kv c ty (Value.defaultFor ty)

theorem StoredBut.mono {D : Set U128} {kv : Kv} {asked asked' : Leaves} {reads : Cells} (h : StoredBut D kv asked reads)
    (hsub : asked ⊆ asked') : StoredBut D kv asked' reads := by
  intro c v hv hD
  obtain ⟨ty, hmem, heq⟩ := h c v hv hD
  exact ⟨ty, hsub hmem, heq⟩

theorem storedBut_empty {kv : Kv} {asked : Leaves} {reads : Cells} :
    StoredBut ∅ kv asked reads ↔ Stored kv asked reads :=
  ⟨fun h c v hv => h c v hv (Set.notMem_empty c), fun h c v hv _ => h c v hv⟩

/-! ### What an operation does -/

/-- What an operation can do: it caches what lies below the caches, at cells that it or a queued read
asks for, and it queues reads of cells that are not known. -/
structure Effect (asked : Leaves) (tx tx' : Tx) : Prop where
  kv : tx'.kv = tx.kv
  ancestors : tx'.ancestors = tx.ancestors
  reads : ∀ c, tx'.reads.lookup c = tx.reads.lookup c ∨ ∃ ty, tx'.reads.lookup c = some (tx.storeValue c ty) ∧
    ((c, ty) ∈ asked ∧ tx.Unknown c ∨ ∃ p ∈ tx.pending, p.key = c ∧ p.ty = ty)
  pending : ∀ p ∈ tx'.pending, p ∈ tx.pending ∨ (p.key, p.ty) ∈ asked ∧ tx.Unknown p.key

section Effect

variable {asked : Leaves} {tx tx' : Tx}

/-- What does not touch the reads. -/
theorem Effect.of_frame (hkv : tx'.kv = tx.kv) (hanc : tx'.ancestors = tx.ancestors)
    (hreads : tx'.reads = tx.reads) (hpending : tx'.pending = tx.pending) : Effect asked tx tx' :=
  ⟨hkv, hanc, fun c => .inl (by rw [hreads]), fun p hp => .inl (by rwa [hpending] at hp)⟩

theorem Effect.of_cached (h : Cached asked tx tx') : Effect asked tx tx' := by
  refine ⟨by rw [h.frame], by rw [h.frame], fun c => ?_, fun p hp => .inl ?_⟩
  · exact (h.reads c).imp id fun ⟨ty, hmem, hu, hv⟩ => ⟨ty, hv, .inl ⟨hmem, hu⟩⟩
  · rw [h.frame] at hp
    exact hp

theorem Effect.of_drained {cells : List U128} (hd : Drained tx tx') (hn : NodeReads cells tx tx') :
    Effect (cells.map fun c => (c, .bytes)) tx tx' := by
  refine ⟨hd.kv_eq, hd.ancestors_eq, fun c => ?_, fun p hp => .inl (hd.pending.subset hp)⟩
  rcases hn c with h | ⟨p, hp, hc, h⟩ | ⟨hmem, hu, h⟩
  · exact .inl h
  · exact .inr ⟨p.ty, h, .inr ⟨p, hp, hc, rfl⟩⟩
  · exact .inr ⟨.bytes, h, .inl ⟨List.mem_map_of_mem hmem, hu⟩⟩

theorem effect_queue {c : U128} {ty : Ty} (hu : tx.Unknown c) : Effect [(c, ty)] tx (tx.queue c ty).1 := by
  refine ⟨rfl, rfl, fun _ => .inl rfl, fun p hp => ?_⟩
  rcases List.mem_append.mp hp with hp | hp
  · exact .inl hp
  · obtain rfl := List.mem_singleton.mp hp
    exact .inr ⟨List.mem_cons_self, hu⟩

theorem effect_read {c : U128} {ty : Ty} (hu : tx.Unknown c) :
    Effect [(c, ty)] tx { tx with reads := tx.reads.insert c (tx.storeValue c ty) } :=
  .of_cached ((Cached.refl _ tx).insert List.mem_cons_self hu)

theorem effect_readCell (tx : Tx) (c : U128) (ty : Ty) : Effect [(c, ty)] tx (tx.readCell c ty).1 := by
  by_cases hu : tx.Unknown c
  · rcases tx.readCell_cases c ty with ⟨-, hs⟩ | ⟨-, -, hs⟩ | ⟨-, he⟩ | ⟨-, he⟩
    · rw [hu.1] at hs
      cases hs
    · rw [hu.2] at hs
      cases hs
    · rw [he]
      exact effect_read hu
    · rw [he]
      exact effect_queue hu
  · have hsame : (tx.readCell c ty).1 = tx := by
      unfold readCell
      cases hw : tx.writes.lookup c with
      | some v => rfl
      | none =>
        cases hr : tx.reads.lookup c with
        | some v => rfl
        | none => exact absurd ⟨hw, hr⟩ hu
    rw [hsame]
    exact .of_frame rfl rfl rfl rfl

theorem effect_readTyped (tx : Tx) (c : U128) (ty : Ty) : Effect [(c, ty)] tx (tx.readTyped c ty).1 := by
  unfold readTyped
  cases hw : tx.writes.lookup c with
  | some v => exact .of_frame rfl rfl rfl rfl
  | none =>
    cases hr : tx.reads.lookup c with
    | some v => exact .of_frame rfl rfl rfl rfl
    | none =>
      dsimp only
      split_ifs
      · exact effect_queue ⟨hw, hr⟩
      · have hread : (tx.read c ty (Value.defaultFor ty)).1 =
            { tx with reads := tx.reads.insert c (tx.storeValue c ty) } := by
          simp only [Tx.read, hw, hr, Tx.storeValue]
        rw [hread]
        exact effect_read ⟨hw, hr⟩

theorem effect_readState (tx : Tx) (c : U128) (ty : Ty) :
    Effect (collectLeaves c ty []).1 tx (tx.readState c ty).1 := by
  cases ty with
  | explicitLiteral inner => exact effect_readState tx c inner
  | struct name fields groups => exact .of_cached (readLeaves_cached tx _)
  | _ => exact effect_readTyped tx c _

theorem effect_force (tx : Tx) (v : Value) : Effect (forceAsks tx v) tx (tx.force v).1 := by
  unfold force forceAsks
  split_ifs
  · exact .of_drained (drained_drain _ tx) (nodeReads_drain _ tx)
  · exact .of_frame rfl rfl rfl rfl

/-- **What each operation can do** to the read set and to the queue of reads. -/
theorem TxOp.effect (tx : Tx) (o : TxOp) : Effect (o.asks tx) tx (o.run tx) := by
  cases o with
  | readCell c ty => exact effect_readCell tx c ty
  | readState c ty => exact effect_readState tx c ty
  | readTypedMany ops => exact .of_cached (readLeaves_cached tx _)
  | force v => exact effect_force tx v
  | write c v =>
    obtain ⟨hkv, hanc, hreads, hpending⟩ := effect_force tx v
    exact ⟨hkv, hanc, hreads, hpending⟩
  | beginPmapGet root key kt vt =>
    change Effect [] tx (tx.beginPmapGet root key kt vt).1
    unfold Tx.beginPmapGet
    split_ifs
    · exact .of_frame rfl rfl rfl rfl
    · exact .of_frame rfl rfl rfl rfl
  | flushPending => exact .of_drained (drained_flushPending tx) (nodeReads_flushPending tx)
  | recordNodeCellWrite c => exact .of_frame rfl rfl rfl rfl
  | putNode key bs =>
    rw [TxOp.run, putNode_eq]
    exact .of_frame rfl rfl rfl rfl
  | recordPmapTypes c kt vt =>
    change Effect [] tx (tx.recordPmapTypes c kt vt)
    unfold Tx.recordPmapTypes
    split
    · exact .of_frame rfl rfl rfl rfl
    · exact .of_frame rfl rfl rfl rfl
  | recordPvecType c elem =>
    change Effect [] tx (tx.recordPvecType c elem)
    unfold Tx.recordPvecType
    split
    · exact .of_frame rfl rfl rfl rfl
    · exact .of_frame rfl rfl rfl rfl
  | setLazy lazy => exact .of_frame rfl rfl rfl rfl

end Effect

/-! ### Runs -/

/-- The read sets of a transaction and of its ancestors record the store, and so will the queued reads, as
far as other cells are concerned. -/
structure ReadsInv (D : Set U128) (kv : Kv) (asked : Leaves) (tx : Tx) : Prop where
  store : tx.kv = kv
  reads : StoredBut D kv asked tx.reads
  above : ∀ a ∈ tx.ancestors, StoredBut D kv asked a.2
  pending : ∀ p ∈ tx.pending, (p.key, p.ty) ∈ asked ∧ (p.key ∉ D → ¬ WrittenAbove tx p.key)

/-- What lies below the caches at a cell that no ancestor has written is what some ancestor has read, or
the store. -/
theorem parentLookupIn_of_not_written {c : U128} {v : Value} {ancestors : List (Cells × Cells)}
    (hwritten : ∀ a ∈ ancestors, a.1.lookup c = none) (h : parentLookupIn c ancestors = some v) :
    ∃ a ∈ ancestors, a.2.lookup c = some v := by
  induction ancestors with
  | nil => cases h
  | cons a ancestors ih =>
    obtain ⟨writes, reads⟩ := a
    have hw : writes.lookup c = none := hwritten _ List.mem_cons_self
    unfold parentLookupIn at h
    rw [hw] at h
    dsimp only at h
    split at h
    · next v' hr =>
      cases h
      exact ⟨_, List.mem_cons_self, hr⟩
    · obtain ⟨a, ha, hr⟩ := ih (fun a ha => hwritten a (List.mem_cons_of_mem _ ha)) h
      exact ⟨a, List.mem_cons_of_mem _ ha, hr⟩

section Runs

variable {D : Set U128} {kv : Kv} {asked asked' : Leaves} {tx tx' : Tx}

theorem ReadsInv.mono (h : ReadsInv D kv asked tx) (hsub : asked ⊆ asked') : ReadsInv D kv asked' tx :=
  ⟨h.store, h.reads.mono hsub, fun a ha => (h.above a ha).mono hsub,
    fun p hp => ⟨hsub (h.pending p hp).1, (h.pending p hp).2⟩⟩

theorem ReadsInv.storeValue (h : ReadsInv D kv asked tx) {c : U128} {ty : Ty} (hmem : (c, ty) ∈ asked)
    (hD : c ∉ D) (hwritten : ¬ WrittenAbove tx c) :
    ∃ ty', (c, ty') ∈ asked ∧ tx.storeValue c ty = observed kv c ty' (Value.defaultFor ty') := by
  unfold Tx.storeValue
  cases hp : tx.parentLookup c with
  | none => exact ⟨ty, hmem, by rw [Option.getD_none, h.store]⟩
  | some v =>
    have hnone : ∀ a ∈ tx.ancestors, a.1.lookup c = none := by
      intro a ha
      by_contra hne
      exact hwritten ⟨a, ha, Option.isSome_iff_ne_none.mpr hne⟩
    obtain ⟨a, ha, hr⟩ := parentLookupIn_of_not_written hnone hp
    exact h.above a ha c v hr hD

theorem writtenAbove_op (tx : Tx) (o : TxOp) (c : U128) : WrittenAbove (o.run tx) c ↔ WrittenAbove tx c := by
  rw [WrittenAbove, WrittenAbove, (TxOp.effect tx o).ancestors]

/-- What one clean operation preserves. -/
theorem ReadsInv.op (h : ReadsInv D kv asked tx) {o : TxOp} (ho : CleanBut D tx o) :
    ReadsInv D kv (asked ++ o.asks tx) (o.run tx) := by
  obtain ⟨hkv, hanc, hreads, hpending⟩ := TxOp.effect tx o
  have hleft : asked ⊆ asked ++ o.asks tx := List.subset_append_left ..
  refine ⟨hkv.trans h.store, fun c v hv hD => ?_, fun a ha => ?_, fun p hp => ?_⟩
  · rcases hreads c with hsame | ⟨ty, hnew, hasked⟩
    · rw [hsame] at hv
      exact h.reads.mono hleft c v hv hD
    · have hbelow : (c, ty) ∈ asked ++ o.asks tx ∧ ¬ WrittenAbove tx c := by
        rcases hasked with ⟨hmem, hu⟩ | ⟨p, hp, rfl, rfl⟩
        · exact ⟨List.mem_append_right _ hmem, ho _ hmem hD hu⟩
        · exact ⟨hleft (h.pending p hp).1, (h.pending p hp).2 hD⟩
      obtain ⟨ty', hmem', heq⟩ := (h.mono hleft).storeValue hbelow.1 hD hbelow.2
      rw [hnew] at hv
      cases hv
      exact ⟨ty', hmem', heq⟩
  · rw [hanc] at ha
    exact (h.above a ha).mono hleft
  · rw [writtenAbove_op]
    rcases hpending p hp with hp | ⟨hmem, hu⟩
    · exact ⟨hleft (h.pending p hp).1, (h.pending p hp).2⟩
    · exact ⟨List.mem_append_right _ hmem, fun hD => ho _ hmem hD hu⟩

theorem ReadsInv.shadowOf (h : ReadsInv D kv asked tx) : ReadsInv D kv asked tx.shadowOf := by
  refine ⟨h.store, fun c v hv => ?_, fun a ha => ?_, fun p hp => by cases hp⟩
  · cases (AList.lookup_empty c).symm.trans hv
  · rcases List.mem_cons.mp ha with rfl | ha
    · exact h.reads
    · exact h.above a ha

theorem ReadsInv.mergeDelta {δ : Tx} (h : ReadsInv D kv asked tx) (hδ : ReadsInv D kv asked δ) :
    ReadsInv D kv asked (tx.mergeDelta δ) := by
  refine ⟨h.store, fun c v hv => ?_, h.above, h.pending⟩
  rcases AList.mem_lookup_union.mp hv with hv | ⟨-, hv⟩
  · exact h.reads c v hv
  · exact hδ.reads c v hv

/-- What a run of clean operations preserves. -/
theorem ReadsInv.run {below : Leaves} (hrun : Run (CleanBut D) tx below tx') (h : ReadsInv D kv asked tx) :
    ReadsInv D kv (asked ++ below) tx' := by
  induction hrun generalizing asked with
  | refl tx => rwa [List.append_nil]
  | op hrun o ho ih =>
    rw [← List.append_assoc]
    exact (ih h).op ho
  | @leg tx₀ tx₁ tx δ later before below h₁ hδ h' ih₁ ihδ ih' =>
    have hfork := ih₁ h
    have hmerged : ∀ l, l ⊆ before ++ below ++ later → asked ++ l ⊆ asked ++ (before ++ below ++ later) :=
      fun l hl => List.append_subset.mpr
        ⟨List.subset_append_left .., List.Subset.trans hl (List.subset_append_right ..)⟩
    refine ((ih' hfork).mono ?_).mergeDelta ((ihδ hfork.shadowOf).mono ?_)
    · rw [List.append_assoc]
      refine hmerged _ (List.append_subset.mpr ⟨?_, List.subset_append_right ..⟩)
      rw [List.append_assoc]
      exact List.subset_append_left ..
    · rw [List.append_assoc]
      exact hmerged _ (List.subset_append_left ..)

theorem Run.mono {P Q : Tx → TxOp → Prop} (hPQ : ∀ tx o, P tx o → Q tx o) (h : Run P tx asked tx') :
    Run Q tx asked tx' := by
  induction h with
  | refl tx => exact .refl tx
  | op _ o ho ih => exact ih.op o (hPQ _ o ho)
  | leg _ _ _ ih₁ ihδ ih => exact ih₁.leg ihδ ih

theorem storedBut_run (hrun : Run (CleanBut D) (Tx.new kv) asked tx) : StoredBut D kv asked tx.reads := by
  have hnew : ReadsInv D kv [] (Tx.new kv) :=
    ⟨rfl, fun c v hv => (by cases (AList.lookup_empty c).symm.trans hv),
      fun a ha => (by cases ha), fun p hp => (by cases hp)⟩
  exact (hnew.run hrun).reads

end Runs

/-- **Read sets record the store.** In a run all of whose operations are clean each entry of the read set
is what the store holds, decoded at a type that was asked for, or the default of that type. -/
theorem run_stored {kv : Kv} {asked : Leaves} {tx : Tx} (hrun : Run Clean (Tx.new kv) asked tx) :
    Stored kv asked tx.reads :=
  storedBut_empty.mp (storedBut_run (hrun.mono fun _ _ ho q hq _ => ho q hq))

/-- A store that holds a number, and a string in another cell. -/
def twoCells : Kv := fun c =>
  if c = 1 then some (serialize (.int 42)) else if c = 2 then some (serialize (.str "a")) else none

/-- A transaction has read the first cell and written a third one; a leg reads the second cell and one that is
unset. -/
def readAndLeg : Tx :=
  let parent := ((Tx.new twoCells).readCell 1 .int).1.write 3 (.int 7)
  parent.mergeDelta ((parent.shadowOf.readCell 2 .string).1.readCell 4 .u64).1

/-- The values of the store and the default of the unset cell are in the read set, which records the store. -/
theorem run_stored_leg : readAndLeg.reads.lookup 1 = some (.int 42) ∧ readAndLeg.reads.lookup 2 = some (.str "a") ∧
    readAndLeg.reads.lookup 4 = some (.u64 0) ∧
    Stored twoCells [(1, .int), (2, .string), (4, .u64)] readAndLeg.reads := by
  have hclean : ∀ tx : Tx, tx.ancestors = [] → ∀ o, Clean tx o := by
    rintro tx htx o q - - ⟨a, ha, -⟩
    rw [htx] at ha
    cases ha
  have hbelow : ∀ c, c ≠ 3 → ¬ WrittenAbove (((Tx.new twoCells).readCell 1 .int).1.write 3 (.int 7)).shadowOf c := by
    rintro c hc ⟨a, ha, hw⟩
    obtain rfl := List.mem_singleton.mp ha
    have hnone : (AList.insert 3 (Value.int 7) ∅ : Cells).lookup c = none :=
      (AList.lookup_insert_ne hc).trans (AList.lookup_empty c)
    exact absurd hnone (Option.isSome_iff_ne_none.mp hw)
  refine ⟨by decide +kernel, by decide +kernel, by decide +kernel, ?_⟩
  refine run_stored (.leg (.op (.op (.refl _) (.readCell 1 .int) (hclean _ rfl _)) (.write 3 (.int 7)) (hclean _ rfl _))
    (.op (.op (.refl _) (.readCell 2 .string) ?_) (.readCell 4 .u64) ?_) (.refl _))
  · intro q hq _
    obtain rfl := List.mem_singleton.mp hq
    exact hbelow 2 (by decide)
  · intro q hq _
    obtain rfl := List.mem_singleton.mp hq
    exact hbelow 4 (by decide)

/-- A transaction writes a cell and a leg reads it: the value that nobody has committed is recorded as
read from the store. -/
theorem run_not_stored : ∃ (kv : Kv) (asked : Leaves) (tx : Tx),
    Run (fun _ _ => True) (Tx.new kv) asked tx ∧ ¬ Stored kv asked tx.reads := by
  refine ⟨fun _ => none, _, _, .leg (.op (.refl _) (.write 7 (.int 5)) trivial)
    (.op (.refl _) (.readCell 7 .int) trivial) (.refl _), fun h => ?_⟩
  obtain ⟨ty, hmem, hv⟩ := h 7 (.int 5) rfl
  have hty : (7, ty) ∈ [((7 : U128), Ty.int)] := hmem
  cases List.mem_singleton.mp hty
  cases hv

/-! ### Any run -/

section AnyRun

variable {P : Tx → TxOp → Prop} {kv : Kv} {asked : Leaves} {tx tx' : Tx}

/-- What stays written from one transaction to the other. -/
def KeepsWritten (tx tx' : Tx) : Prop := ∀ c, (tx.writes.lookup c).isSome → (tx'.writes.lookup c).isSome

theorem keepsWritten_of_eq (h : tx'.writes = tx.writes) : KeepsWritten tx tx' := fun c hc => by rwa [h]

theorem writes_force (tx : Tx) (v : Value) : (tx.force v).1.writes = tx.writes := by
  unfold force
  split_ifs
  · exact (drained_drain _ tx).writes_eq
  · rfl

theorem writes_readTyped (tx : Tx) (c : U128) (ty : Ty) : (tx.readTyped c ty).1.writes = tx.writes := by
  unfold readTyped
  split
  · rfl
  · split
    · rfl
    · split_ifs
      · rfl
      · unfold Tx.read
        split
        · rfl
        · split <;> rfl

theorem writes_readState (tx : Tx) (c : U128) (ty : Ty) : (tx.readState c ty).1.writes = tx.writes := by
  cases ty with
  | explicitLiteral inner => exact writes_readState tx c inner
  | struct name fields groups =>
    have hwrites := congrArg Tx.writes (readLeaves_cached tx (collectAll [(c, .struct name fields groups)] []).1).frame
    exact hwrites
  | _ => exact writes_readTyped tx c _

theorem isSome_insert {cells : Cells} {c d : U128} {v : Value} (h : (cells.lookup d).isSome) :
    ((cells.insert c v).lookup d).isSome := by
  by_cases hdc : d = c
  · rw [hdc, AList.lookup_insert]
    rfl
  · rwa [AList.lookup_insert_ne hdc]

/-- No operation takes back a write. -/
theorem keepsWritten_op (tx : Tx) (o : TxOp) : KeepsWritten tx (o.run tx) := by
  cases o with
  | readCell c ty =>
    refine keepsWritten_of_eq ?_
    rcases tx.readCell_cases c ty with ⟨he, -⟩ | ⟨-, he, -⟩ | ⟨-, he⟩ | ⟨-, he⟩
    · rw [TxOp.run, he]
    · rw [TxOp.run, he]
    · rw [TxOp.run, he]
    · rw [TxOp.run, he]
      rfl
  | readState c ty => exact keepsWritten_of_eq (writes_readState tx c ty)
  | readTypedMany ops =>
    have hwrites := congrArg Tx.writes (readLeaves_cached tx (collectAll ops []).1).frame
    exact keepsWritten_of_eq hwrites
  | force v => exact keepsWritten_of_eq (writes_force tx v)
  | write c v =>
    have hforce := writes_force tx v
    intro d hd
    change (((tx.force v).1.writes.insert c (tx.force v).2).lookup d).isSome
    rw [hforce]
    exact isSome_insert hd
  | beginPmapGet root key kt vt =>
    refine keepsWritten_of_eq ?_
    change (tx.beginPmapGet root key kt vt).1.writes = tx.writes
    unfold Tx.beginPmapGet
    split_ifs <;> rfl
  | flushPending => exact keepsWritten_of_eq (drained_flushPending tx).writes_eq
  | recordNodeCellWrite c => exact keepsWritten_of_eq rfl
  | putNode key bs =>
    intro d hd
    rw [TxOp.run, putNode_eq]
    exact isSome_insert hd
  | recordPmapTypes c kt vt =>
    refine keepsWritten_of_eq ?_
    change (tx.recordPmapTypes c kt vt).writes = tx.writes
    unfold Tx.recordPmapTypes
    split <;> rfl
  | recordPvecType c elem =>
    refine keepsWritten_of_eq ?_
    change (tx.recordPvecType c elem).writes = tx.writes
    unfold Tx.recordPvecType
    split <;> rfl
  | setLazy lazy => exact keepsWritten_of_eq rfl

theorem written_mergeDelta (tx δ : Tx) (c : U128) :
    ((tx.mergeDelta δ).writes.lookup c).isSome ↔ (δ.writes.lookup c).isSome ∨ (tx.writes.lookup c).isSome := by
  rw [Tx.mergeDelta, AList.lookup_isSome, AList.lookup_isSome, AList.lookup_isSome, AList.mem_union]

/-- A run keeps its ancestors and takes back no write. -/
theorem Run.kept (h : Run P tx asked tx') : tx'.ancestors = tx.ancestors ∧ KeepsWritten tx tx' := by
  induction h with
  | refl tx => exact ⟨rfl, fun _ hc => hc⟩
  | @op _ t _ _ o _ ih =>
    exact ⟨(TxOp.effect t o).ancestors.trans ih.1, fun c hc => keepsWritten_op t o c (ih.2 c hc)⟩
  | leg _ _ _ ih₁ _ ih =>
    exact ⟨ih.1.trans ih₁.1, fun c hc => (written_mergeDelta _ _ c).mpr (.inr (ih.2 c (ih₁.2 c hc)))⟩

/-- The cells that a transaction or one above it has written. -/
def written (tx : Tx) : Set U128 := {c | (tx.writes.lookup c).isSome ∨ WrittenAbove tx c}

theorem Run.written_subset (h : Run P tx asked tx') : written tx ⊆ written tx' := by
  obtain ⟨hanc, hwrites⟩ := h.kept
  intro c hc
  rcases hc with hc | hc
  · exact .inl (hwrites c hc)
  · exact .inr (by rwa [WrittenAbove, hanc])

theorem written_shadowOf (tx : Tx) : written tx.shadowOf = written tx := by
  ext c
  constructor
  · rintro (hc | ⟨a, ha, hc⟩)
    · cases hc
    · rcases List.mem_cons.mp ha with rfl | ha
      · exact .inl hc
      · exact .inr ⟨a, ha, hc⟩
  · rintro (hc | ⟨a, ha, hc⟩)
    · exact .inr ⟨_, List.mem_cons_self, hc⟩
    · exact .inr ⟨a, List.mem_cons_of_mem _ ha, hc⟩

/-- Every run is clean but for the cells that it ends up having written. -/
theorem Run.cleanBut {D : Set U128} (h : Run P tx asked tx') (hD : written tx' ⊆ D) :
    Run (CleanBut D) tx asked tx' := by
  induction h with
  | refl tx => exact .refl tx
  | @op _ t _ h o ho ih =>
    have hone : Run P t ([] ++ o.asks t) (o.run t) := (Run.refl t).op o ho
    have hbefore := hone.written_subset.trans hD
    exact (ih hbefore).op o fun q _ hq _ hw => hq (hbefore (.inr hw))
  | @leg tx₀ tx₁ tx δ _ _ _ h₁ hδ h ih₁ ihδ ih =>
    have hmerged : written tx ⊆ D := fun c hc =>
      hD (hc.imp (fun hw => (written_mergeDelta tx δ c).mpr (.inr hw)) id)
    have hleg : written δ ⊆ D := by
      rintro c (hc | hc)
      · exact hD (.inl ((written_mergeDelta tx δ c).mpr (.inl hc)))
      · have hfork : c ∈ written tx₁ := by
          rw [← written_shadowOf]
          refine .inr ?_
          rwa [WrittenAbove, ← hδ.kept.1]
        exact hmerged (h.written_subset hfork)
    exact (ih₁ (h.written_subset.trans hmerged)).leg (ihδ hleg) (ih hmerged)

/-- **What a run has not written it has read from the store**: in any run, each entry of the read set at a cell
that is not written is what the store holds, decoded at a type that was asked for, or the default of that type. -/
theorem run_storedUnwritten (h : Run P (Tx.new kv) asked tx) :
    StoredBut {c | (tx.writes.lookup c).isSome} kv asked tx.reads := by
  have hwritten : written tx ⊆ {c | (tx.writes.lookup c).isSome} := by
    rintro c (hc | ⟨a, ha, -⟩)
    · exact hc
    · rw [h.kept.1] at ha
      cases ha
  exact storedBut_run (h.cleanBut hwritten)

end AnyRun

end Rend.Vm
