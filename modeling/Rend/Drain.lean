import Rend.Tx

/-!
# Queued reads

In lazy mode a read that misses the caches is queued, and a lookup in a persistent map walks down only
when its value is wanted. Forcing a value drains both queues. `Drained` says once what a drain can do:
it caches values of the store, it resolves handles of the queues, and it touches nothing else.

`force_pending` shows that a queued read resolves to what the store holds, provided no two queued
reads share a handle (`Fresh`).
-/

namespace Rend.Tx

open Lib Pmap

/-- What a read finds below the caches of the transaction: what an ancestor knows, or the store. -/
def storeValue (tx : Tx) (c : U128) (ty : Ty) : Value :=
  (tx.parentLookup c).getD (observed tx.kv c ty (Value.defaultFor ty))

/-- The handles of the reads and lookups in flight. -/
def handles (tx : Tx) : List ℕ := tx.pending.map (·.id) ++ tx.pendingWalks.map (·.handle)

/-- Each handle has been issued once. -/
def Fresh (tx : Tx) : Prop := tx.handles.Nodup ∧ ∀ i ∈ tx.handles, i < tx.nextHandle

instance (tx : Tx) : Decidable tx.Fresh := inferInstanceAs (Decidable (_ ∧ _))

/-- What a drain makes of a transaction. -/
structure Drained (tx tx' : Tx) : Prop where
  frame : tx' = { tx with reads := tx'.reads, resolved := tx'.resolved, pending := tx'.pending,
                          pendingWalks := tx'.pendingWalks }
  pending : tx'.pending.Sublist tx.pending
  handles : tx'.handles.Sublist tx.handles
  reads : ∀ c, tx'.reads.lookup c = tx.reads.lookup c ∨
    (∃ p ∈ tx.pending, p.key = c ∧ tx'.reads.lookup c = some (tx.storeValue c p.ty)) ∨
    (tx.reads.lookup c = none ∧ tx'.reads.lookup c = some (tx.storeValue c .bytes))
  resolved : ∀ i ∉ tx.handles, tx'.resolved.lookup i = tx.resolved.lookup i

namespace Drained

variable {tx tx' tx'' : Tx}

theorem refl (tx : Tx) : Drained tx tx :=
  ⟨rfl, List.Sublist.refl _, List.Sublist.refl _, fun _ => .inl rfl, fun _ _ => rfl⟩

theorem kv_eq (h : Drained tx tx') : tx'.kv = tx.kv := by rw [h.frame]

theorem ancestors_eq (h : Drained tx tx') : tx'.ancestors = tx.ancestors := by rw [h.frame]

theorem writes_eq (h : Drained tx tx') : tx'.writes = tx.writes := by rw [h.frame]

theorem nodeLog_eq (h : Drained tx tx') : tx'.nodeLog = tx.nodeLog := by rw [h.frame]

theorem pmapTypes_eq (h : Drained tx tx') : tx'.pmapTypes = tx.pmapTypes := by rw [h.frame]

theorem nextHandle_eq (h : Drained tx tx') : tx'.nextHandle = tx.nextHandle := by rw [h.frame]

theorem storeValue_eq (h : Drained tx tx') (c : U128) (ty : Ty) :
    tx'.storeValue c ty = tx.storeValue c ty := by
  rw [storeValue, storeValue, parentLookup, parentLookup, h.kv_eq, h.ancestors_eq]

theorem trans (h : Drained tx tx') (h' : Drained tx' tx'') : Drained tx tx'' := by
  refine ⟨?_, h'.pending.trans h.pending, h'.handles.trans h.handles, fun c => ?_, fun i hi => ?_⟩
  · calc tx'' = { tx' with reads := tx''.reads, resolved := tx''.resolved, pending := tx''.pending,
                            pendingWalks := tx''.pendingWalks } := h'.frame
      _ = _ := by rw [h.frame]
  · rcases h'.reads c with hr | ⟨p, hp, hc, hr⟩ | ⟨hn, hr⟩
    · rw [hr]
      exact h.reads c
    · rw [h.storeValue_eq] at hr
      exact .inr (.inl ⟨p, h.pending.subset hp, hc, hr⟩)
    · -- a cell that is still unread after the first drain was unread before it
      rw [h.storeValue_eq] at hr
      refine .inr (.inr ⟨?_, hr⟩)
      rcases h.reads c with he | ⟨p, -, -, he⟩ | ⟨-, he⟩
      · rw [← he, hn]
      · rw [hn] at he
        cases he
      · rw [hn] at he
        cases he
  · rw [h'.resolved i fun hi' => hi (h.handles.subset hi'), h.resolved i hi]

theorem fresh (h : Drained tx tx') (hf : tx.Fresh) : tx'.Fresh :=
  ⟨hf.1.sublist h.handles, fun i hi => by
    rw [h.nextHandle_eq]
    exact hf.2 i (h.handles.subset hi)⟩

end Drained

/-! ### Queued reads -/

/-- Observing a list of reads, each with its value. -/
theorem foldl_observe (f : PendingRead → Value) (l : List PendingRead) (tx : Tx) :
    ∃ reads resolved, l.foldl (fun t p => t.observe p.id p.key (f p)) tx =
        { tx with reads := reads, resolved := resolved } ∧
      (∀ c, reads.lookup c = tx.reads.lookup c ∨ ∃ p ∈ l, p.key = c ∧ reads.lookup c = some (f p)) ∧
      (∀ i ∉ l.map (·.id), resolved.lookup i = tx.resolved.lookup i) ∧
      ((l.map (·.id)).Nodup → ∀ p ∈ l, resolved.lookup p.id = some (f p)) := by
  induction l generalizing tx with
  | nil => exact ⟨tx.reads, tx.resolved, rfl, fun _ => .inl rfl, fun _ _ => rfl, by simp⟩
  | cons q l ih =>
    obtain ⟨reads, resolved, hfold, hreads, hres, hvals⟩ := ih (tx.observe q.id q.key (f q))
    refine ⟨reads, resolved, hfold, fun c => ?_, fun i hi => ?_, fun hnd p hp => ?_⟩
    · rcases hreads c with hc | ⟨p, hp, hc, hr⟩
      · by_cases hq : c = q.key
        · exact .inr ⟨q, List.mem_cons_self, hq.symm, by rw [hc, hq]; exact AList.lookup_insert _⟩
        · exact .inl (hc.trans (AList.lookup_insert_ne hq))
      · exact .inr ⟨p, List.mem_cons_of_mem _ hp, hc, hr⟩
    · rw [List.map_cons, List.mem_cons, not_or] at hi
      rw [hres i hi.2]
      exact AList.lookup_insert_ne hi.1
    · rw [List.map_cons, List.nodup_cons] at hnd
      rcases List.mem_cons.1 hp with rfl | hp
      · rw [hres _ hnd.1]
        exact AList.lookup_insert _
      · exact hvals hnd.2 p hp

/-- The order in which the queued reads are answered. -/
def answerOrder (tx : Tx) : List PendingRead :=
  (tx.pending.filter fun p => (tx.parentLookup p.key).isNone) ++
    tx.pending.filter fun p => (tx.parentLookup p.key).isSome

theorem answerOrder_perm (tx : Tx) : tx.answerOrder.Perm tx.pending := by
  have hnot : (fun p : PendingRead => (tx.parentLookup p.key).isSome) =
      fun p => !(tx.parentLookup p.key).isNone := by
    funext p
    cases tx.parentLookup p.key <;> rfl
  rw [answerOrder, hnot]
  exact List.filter_append_perm _ _

theorem flushPending_eq (tx : Tx) : tx.flushPending = tx.answerOrder.foldl
    (fun t p => t.observe p.id p.key (tx.storeValue p.key p.ty)) { tx with pending := [] } := by
  have hcongr : ∀ {l : List PendingRead} {f g : PendingRead → Value}, (∀ p ∈ l, f p = g p) → ∀ t : Tx,
      l.foldl (fun t p => t.observe p.id p.key (f p)) t = l.foldl (fun t p => t.observe p.id p.key (g p)) t := by
    intro l f g h
    induction l with
    | nil => exact fun _ => rfl
    | cons p l ih =>
      intro t
      rw [List.foldl_cons, List.foldl_cons, h p List.mem_cons_self,
        ih fun q hq => h q (List.mem_cons_of_mem _ hq)]
  rw [flushPending, answerOrder, List.foldl_append]
  rw [@hcongr _ (fun p => observed tx.kv p.key p.ty (Value.defaultFor p.ty))
      (fun p => tx.storeValue p.key p.ty) ?_,
    @hcongr _ (fun p => (tx.parentLookup p.key).getD .unit) (fun p => tx.storeValue p.key p.ty) ?_]
  · intro p hp
    obtain ⟨v, hv⟩ := Option.isSome_iff_exists.1 (by simpa using (List.mem_filter.1 hp).2)
    simp [storeValue, hv]
  · intro p hp
    have hnone : tx.parentLookup p.key = none := by simpa using (List.mem_filter.1 hp).2
    simp [storeValue, hnone]

theorem drained_flushPending (tx : Tx) : Drained tx tx.flushPending := by
  obtain ⟨reads, resolved, hfold, hreads, hres, -⟩ := foldl_observe
    (fun p => tx.storeValue p.key p.ty) tx.answerOrder { tx with pending := [] }
  have hmem : ∀ {p}, p ∈ tx.answerOrder → p ∈ tx.pending := fun hp => tx.answerOrder_perm.mem_iff.1 hp
  rw [flushPending_eq, hfold]
  refine ⟨rfl, List.nil_sublist _, ?_, fun c => ?_, fun i hi => hres i fun hmap => hi ?_⟩
  · exact List.sublist_append_right _ _
  · rcases hreads c with hc | ⟨p, hp, hc, hr⟩
    · exact .inl hc
    · rw [hc] at hr
      exact .inr (.inl ⟨p, hmem hp, hc, hr⟩)
  · obtain ⟨p, hp, rfl⟩ := List.mem_map.1 hmap
    exact List.mem_append_left _ (List.mem_map_of_mem (hmem hp))

/-- A queued read resolves to what the store holds. -/
theorem flushPending_resolved {tx : Tx} (hf : tx.Fresh) {p : PendingRead} (hp : p ∈ tx.pending) :
    tx.flushPending.resolved.lookup p.id = some (tx.storeValue p.key p.ty) ∧
      p.id ∉ tx.flushPending.handles := by
  obtain ⟨reads, resolved, hfold, -, -, hvals⟩ := foldl_observe
    (fun p => tx.storeValue p.key p.ty) tx.answerOrder { tx with pending := [] }
  rw [Fresh, handles, List.nodup_append] at hf
  obtain ⟨⟨hnd, -, hdisj⟩, -⟩ := hf
  rw [flushPending_eq, hfold]
  refine ⟨hvals ((tx.answerOrder_perm.map _).nodup_iff.2 hnd) p (tx.answerOrder_perm.mem_iff.2 hp), ?_⟩
  intro hmem
  exact hdisj p.id (List.mem_map_of_mem hp) p.id (by simpa [handles] using hmem) rfl

/-! ### Lookups in flight -/

theorem storeValue_bytes (tx : Tx) (c : U128) :
    tx.storeValue c .bytes = (tx.parentLookup c).getD (observed tx.kv c .bytes (.bytes [])) := by
  simp [storeValue, Value.defaultFor]

/-- Reading a node for a lookup caches it at most. -/
theorem fetchNode_fst (tx : Tx) (c : U128) : (tx.fetchNode c).1 = tx ∨
    ((tx.writes.lookup c = none ∧ tx.reads.lookup c = none) ∧
      (tx.fetchNode c).1 = { tx with reads := tx.reads.insert c (tx.storeValue c .bytes) }) := by
  unfold fetchNode
  rw [storeValue_bytes]
  cases hw : tx.writes.lookup c with
  | some v => exact .inl rfl
  | none =>
    cases hr : tx.reads.lookup c with
    | some v => exact .inl rfl
    | none => exact .inr ⟨⟨rfl, rfl⟩, rfl⟩

/-- One lookup stays in flight under its handle, or its handle is resolved. -/
theorem advanceWalk_eq (tx : Tx) (w : PWalk) : ∃ resolved walks,
    tx.advanceWalk w = { (tx.fetchNode w.cell).1 with resolved := resolved, pendingWalks := walks } ∧
      (∀ i, i ≠ w.handle → resolved.lookup i = tx.resolved.lookup i) ∧
      (walks.map (·.handle)).Sublist (tx.pendingWalks.map (·.handle) ++ [w.handle]) := by
  have hres : (tx.fetchNode w.cell).1.resolved = tx.resolved := by
    rcases tx.fetchNode_fst w.cell with h | ⟨-, h⟩ <;> rw [h]
  have hwalks : (tx.fetchNode w.cell).1.pendingWalks = tx.pendingWalks := by
    rcases tx.fetchNode_fst w.cell with h | ⟨-, h⟩ <;> rw [h]
  have hhandle : ∀ bs w', advancePmapWalk w bs = .continue w' → w'.handle = w.handle := by
    intro bs w' h
    unfold advancePmapWalk at h
    split at h
    · cases h
    · cases h
    · dsimp only at h
      split_ifs at h
      cases h
      rfl
  unfold advanceWalk
  dsimp only
  cases hadv : advancePmapWalk w (tx.fetchNode w.cell).2 with
  | done v =>
    refine ⟨tx.resolved.insert w.handle v, tx.pendingWalks, ?_, ?_, List.sublist_append_left _ _⟩
    · simp only [hres, hwalks]
    · exact fun i hi => AList.lookup_insert_ne hi
  | «continue» w' =>
    refine ⟨tx.resolved, tx.pendingWalks ++ [w'], ?_, fun _ _ => rfl, ?_⟩
    · simp only [hwalks]
      rw [← hres]
    · rw [List.map_append, List.map_singleton, hhandle _ _ hadv]

/-- What the lookups of a list do one after the other. -/
theorem foldl_advanceWalk (l : List PWalk) (tx : Tx) : ∃ reads resolved walks,
    l.foldl advanceWalk tx = { tx with reads := reads, resolved := resolved, pendingWalks := walks } ∧
      (∀ c, reads.lookup c = tx.reads.lookup c ∨
        (c ∈ l.map (·.cell) ∧ (tx.writes.lookup c = none ∧ tx.reads.lookup c = none) ∧
          reads.lookup c = some (tx.storeValue c .bytes))) ∧
      (∀ i ∉ l.map (·.handle), resolved.lookup i = tx.resolved.lookup i) ∧
      (walks.map (·.handle)).Sublist (tx.pendingWalks.map (·.handle) ++ l.map (·.handle)) := by
  induction l generalizing tx with
  | nil => exact ⟨tx.reads, tx.resolved, tx.pendingWalks, rfl, fun _ => .inl rfl, fun _ _ => rfl, by simp⟩
  | cons w l ih =>
    obtain ⟨resolved₁, walks₁, hadv, hres₁, hwalks₁⟩ := tx.advanceWalk_eq w
    obtain ⟨reads, resolved, walks, hfold, hreads, hres, hwalks⟩ := ih (tx.advanceWalk w)
    have hframe : tx.advanceWalk w = { tx with
        reads := (tx.fetchNode w.cell).1.reads, resolved := resolved₁, pendingWalks := walks₁ } := by
      rw [hadv]
      rcases tx.fetchNode_fst w.cell with h | ⟨-, h⟩ <;> rw [h]
    refine ⟨reads, resolved, walks, ?_, fun c => ?_, fun i hi => ?_, ?_⟩
    · rw [List.foldl_cons, hfold, hframe]
    · have hstore : (tx.advanceWalk w).storeValue c .bytes = tx.storeValue c .bytes := by
        rw [hframe]
        rfl
      have hfetch : (tx.advanceWalk w).reads.lookup c = tx.reads.lookup c ∨
          (c = w.cell ∧ (tx.writes.lookup c = none ∧ tx.reads.lookup c = none) ∧
            (tx.advanceWalk w).reads.lookup c = some (tx.storeValue c .bytes)) := by
        rw [hframe]
        rcases tx.fetchNode_fst w.cell with h | ⟨hn, h⟩
        · exact .inl (by rw [h])
        · by_cases hc : c = w.cell
          · subst hc
            exact .inr ⟨rfl, hn, by simp [h]⟩
          · exact .inl (by simp [h, AList.lookup_insert_ne hc])
      rw [← hstore]
      rcases hreads c with hc | ⟨hmem, hn, hc⟩
      · rw [hc, hstore]
        exact hfetch.imp id fun ⟨hcell, hrest⟩ => ⟨by rw [hcell]; exact List.mem_cons_self, hrest⟩
      · refine .inr ⟨List.mem_cons_of_mem _ hmem, ⟨by rw [← hn.1, hframe], ?_⟩, hc⟩
        rcases hfetch with he | ⟨-, he, -⟩
        · rw [← he, hn.2]
        · exact he.2
    · rw [List.map_cons, List.mem_cons, not_or] at hi
      rw [hres i hi.2, hframe]
      exact hres₁ i hi.1
    · rw [hframe] at hwalks
      rw [List.map_cons, ← List.singleton_append, ← List.append_assoc]
      exact hwalks.trans (hwalks₁.append_right _)

theorem drained_advanceWalks (tx : Tx) : Drained tx tx.advanceWalks := by
  obtain ⟨reads, resolved, walks, hfold, hreads, hres, hwalks⟩ :=
    foldl_advanceWalk tx.pendingWalks { tx with pendingWalks := [] }
  rw [advanceWalks, hfold]
  refine ⟨rfl, List.Sublist.refl _, ?_, fun c => ?_, fun i hi => hres i fun h => hi ?_⟩
  · exact List.Sublist.append_left hwalks _
  · exact (hreads c).imp_right fun ⟨_, hn, hr⟩ => .inr ⟨hn.2, hr⟩
  · exact List.mem_append_right _ h

/-! ### Forcing -/

/-- One round of the loop of `force`. -/
def drainRound (tx : Tx) : Tx :=
  let tx₁ := if tx.pending.isEmpty then tx else tx.flushPending
  if tx.pendingWalks.isEmpty then tx₁ else tx₁.advanceWalks

/-- The cells of the nodes that the lookups in flight ask for, round by round. -/
def walkCells : ℕ → Tx → List U128
  | 0, _ => []
  | n + 1, tx =>
    if tx.pending.isEmpty && tx.pendingWalks.isEmpty then []
    else tx.pendingWalks.map (·.cell) ++ walkCells n tx.drainRound

theorem drained_drain (n : ℕ) (tx : Tx) : Drained tx (tx.drain n) := by
  induction n generalizing tx with
  | zero => exact .refl tx
  | succ n ih =>
    rw [drain]
    split_ifs
    · exact .refl tx
    · exact ih tx
    · exact (drained_advanceWalks tx).trans (ih _)
    · exact (drained_flushPending tx).trans (ih _)
    · exact ((drained_flushPending tx).trans (drained_advanceWalks _)).trans (ih _)

/-- What a drain caches: queued reads, and nodes at the given cells. -/
def NodeReads (cells : List U128) (tx tx' : Tx) : Prop :=
  ∀ c, tx'.reads.lookup c = tx.reads.lookup c ∨
    (∃ p ∈ tx.pending, p.key = c ∧ tx'.reads.lookup c = some (tx.storeValue c p.ty)) ∨
    (c ∈ cells ∧ (tx.writes.lookup c = none ∧ tx.reads.lookup c = none) ∧
      tx'.reads.lookup c = some (tx.storeValue c .bytes))

theorem NodeReads.trans {cells cells' : List U128} {tx tx' tx'' : Tx} (hd : Drained tx tx')
    (h : NodeReads cells tx tx') (h' : NodeReads cells' tx' tx'') : NodeReads (cells ++ cells') tx tx'' := by
  intro c
  rcases h' c with hr | ⟨p, hp, hc, hr⟩ | ⟨hmem, hn, hr⟩
  · rw [hr]
    exact (h c).imp id (Or.imp id fun ⟨hmem, hrest⟩ => ⟨List.mem_append_left _ hmem, hrest⟩)
  · rw [hd.storeValue_eq] at hr
    exact .inr (.inl ⟨p, hd.pending.subset hp, hc, hr⟩)
  · rw [hd.storeValue_eq] at hr
    refine .inr (.inr ⟨List.mem_append_right _ hmem, ⟨by rw [← hd.writes_eq, hn.1], ?_⟩, hr⟩)
    rcases h c with he | ⟨p, -, -, he⟩ | ⟨-, hn', -⟩
    · rw [← he, hn.2]
    · rw [hn.2] at he
      cases he
    · exact hn'.2

theorem nodeReads_flushPending (tx : Tx) : NodeReads [] tx tx.flushPending := by
  obtain ⟨reads, resolved, hfold, hreads, -, -⟩ := foldl_observe
    (fun p => tx.storeValue p.key p.ty) tx.answerOrder { tx with pending := [] }
  intro c
  rw [flushPending_eq, hfold]
  rcases hreads c with hc | ⟨p, hp, hc, hr⟩
  · exact .inl hc
  · rw [hc] at hr
    exact .inr (.inl ⟨p, tx.answerOrder_perm.mem_iff.1 hp, hc, hr⟩)

theorem nodeReads_advanceWalks (tx : Tx) :
    NodeReads (tx.pendingWalks.map (·.cell)) tx tx.advanceWalks := by
  obtain ⟨reads, resolved, walks, hfold, hreads, -, -⟩ :=
    foldl_advanceWalk tx.pendingWalks { tx with pendingWalks := [] }
  intro c
  rw [advanceWalks, hfold]
  exact (hreads c).imp_right .inr

theorem flushPending_walks (tx : Tx) : tx.flushPending.pendingWalks = tx.pendingWalks := by
  obtain ⟨reads, resolved, hfold, -, -, -⟩ := foldl_observe
    (fun p => tx.storeValue p.key p.ty) tx.answerOrder { tx with pending := [] }
  rw [flushPending_eq, hfold]

theorem drained_drainRound (tx : Tx) : Drained tx tx.drainRound := by
  unfold drainRound
  dsimp only
  split_ifs
  · exact .refl tx
  · exact drained_flushPending tx
  · exact drained_advanceWalks tx
  · exact (drained_flushPending tx).trans (drained_advanceWalks _)

theorem nodeReads_drainRound (tx : Tx) : NodeReads (tx.pendingWalks.map (·.cell)) tx tx.drainRound := by
  have hsub : ∀ {cells : List U128} {tx' : Tx}, NodeReads [] tx tx' → NodeReads cells tx tx' :=
    fun h c => (h c).imp id (Or.imp id fun hmem => by cases hmem.1)
  unfold drainRound
  dsimp only
  split_ifs
  · exact fun _ => .inl rfl
  · exact hsub (nodeReads_flushPending tx)
  · exact nodeReads_advanceWalks tx
  · have h := (nodeReads_flushPending tx).trans (drained_flushPending tx) (nodeReads_advanceWalks _)
    rwa [flushPending_walks, List.nil_append] at h

/-- The nodes a drain caches are those its lookups ask for. -/
theorem nodeReads_drain (n : ℕ) (tx : Tx) : NodeReads (tx.walkCells n) tx (tx.drain n) := by
  induction n generalizing tx with
  | zero => exact fun _ => .inl rfl
  | succ n ih =>
    have hround : tx.drain (n + 1) =
        if tx.pending.isEmpty && tx.pendingWalks.isEmpty then tx else drain n tx.drainRound := rfl
    rw [hround, walkCells]
    split_ifs
    · exact fun _ => .inl rfl
    · exact (nodeReads_drainRound tx).trans (drained_drainRound tx) (ih _)

theorem drained_force (tx : Tx) (v : Value) : Drained tx (tx.force v).1 := by
  rw [force]
  split_ifs
  · exact drained_drain _ tx
  · exact .refl tx

theorem force_eq_of_not_pending {v : Value} (h : containsPending v = false) (tx : Tx) :
    tx.force v = (tx, v) := by
  rw [force, h, if_neg (by simp)]

/-- **A queued read resolves to what the store holds.** -/
theorem force_pending {tx : Tx} (hf : tx.Fresh) {p : PendingRead} (hp : p ∈ tx.pending) :
    (tx.force (.pending p.id)).2 = tx.storeValue p.key p.ty := by
  obtain ⟨hres, hout⟩ := flushPending_resolved hf hp
  have hne : tx.pending.isEmpty = false := by
    cases h : tx.pending with
    | nil =>
      rw [h] at hp
      cases hp
    | cons q l => rfl
  -- the first round answers the read, the later ones keep the answer
  have hkeep : ∀ {tx' : Tx}, Drained tx.flushPending tx' →
      tx'.resolved.lookup p.id = some (tx.storeValue p.key p.ty) := fun h => by
    rw [h.resolved _ hout, hres]
  have hdrain : (tx.drain (maxLevels + 2)).resolved.lookup p.id = some (tx.storeValue p.key p.ty) := by
    rw [drain]
    simp only [hne, Bool.false_and, Bool.false_eq_true, if_false]
    split_ifs
    · exact hkeep (drained_drain _ _)
    · exact hkeep ((drained_advanceWalks _).trans (drained_drain _ _))
  rw [force, if_pos (by rfl)]
  dsimp only
  rw [substituteResolved, hdrain, Option.getD_some]

end Rend.Tx
