import Rend.Handles
import Rend.Vm.ReadSet

/-!
# Deferred reads are resolved where they are consumed

A handle is known to a transaction when its read or lookup is in flight there or has been resolved.
Forcing a value resolves every handle that is known (`resolved_of_known`).

A run now carries the values that the frame holds: operations consume held values and add what they
answer, other instructions build values from parts of those held, and a leg starts with registers of its
parent. A shadow starts with empty queues, so a handle that a register brings along is unknown to it,
and one that comes back is unknown to the parent. `ForkOk` and `JoinOk` exclude that a handle crosses.
`reached_known` is the theorem about runs in which none does.
-/

namespace Rend.Vm

open Lib Pmap Tx

/-! ### Forcing resolves what is known -/

/-- The handles a transaction can resolve. -/
def Known (tx : Tx) (i : ℕ) : Prop := i ∈ tx.handles ∨ (tx.resolved.lookup i).isSome

/-- The transaction never loses a handle. -/
def KeepsKnown (tx tx' : Tx) : Prop := ∀ i, Known tx i → Known tx' i

theorem resolved_foldl_observe (f : PendingRead → Value) (l : List PendingRead) (tx : Tx) (i : ℕ) :
    ((l.foldl (fun t p => t.observe p.id p.key (f p)) tx).resolved.lookup i).isSome ↔
      (tx.resolved.lookup i).isSome ∨ i ∈ l.map (·.id) := by
  induction l generalizing tx with
  | nil => simp
  | cons p l ih =>
    rw [List.foldl_cons, ih, List.map_cons, List.mem_cons]
    by_cases hi : i = p.id
    · subst hi
      simp [observe]
    · simp [observe, AList.lookup_insert_ne hi, hi]

theorem keepsKnown_flushPending (tx : Tx) : KeepsKnown tx tx.flushPending := by
  intro i hi
  have hwalks : tx.flushPending.pendingWalks = tx.pendingWalks := flushPending_walks tx
  have hres : (tx.flushPending.resolved.lookup i).isSome ↔
      (tx.resolved.lookup i).isSome ∨ i ∈ tx.answerOrder.map (·.id) := by
    rw [flushPending_eq]
    exact resolved_foldl_observe _ _ _ i
  rcases hi with hi | hi
  · rcases List.mem_append.mp hi with hp | hw
    · exact .inr (hres.mpr (.inr ((tx.answerOrder_perm.map _).mem_iff.mpr hp)))
    · exact .inl (List.mem_append_right _ (by rwa [hwalks]))
  · exact .inr (hres.mpr (.inl hi))

/-- No entry holds a handle. -/
def EntriesSettled (es : List (Value × Value)) : Prop := ∀ e ∈ es, handles e.1 = [] ∧ handles e.2 = []

theorem handles_of_readEntries {kt vt : Ty} {bs : Bytes} {n cursor : ℕ} {es : List (Value × Value)}
    (h : readEntries kt vt bs n cursor = some es) : EntriesSettled es := by
  induction n generalizing cursor es with
  | zero =>
    cases h
    exact fun e he => by cases he
  | succ n ih =>
    simp only [readEntries, Option.bind_eq_bind, Option.bind_eq_some_iff] at h
    obtain ⟨kl, -, kb, -, k, hk, vl, -, vb, -, v, hv, es', hes, heq⟩ := h
    cases heq
    exact List.forall_mem_cons.mpr ⟨⟨handles_deserialize kt hk, handles_deserialize vt hv⟩, ih hes⟩

theorem handles_of_leaf {kt vt : Ty} {bs : Bytes} {es : List (Value × Value)}
    (h : deserializeNode kt vt bs = some (.leaf es)) : EntriesSettled es := by
  unfold deserializeNode at h
  split_ifs at h
  · simp only [Option.bind_eq_bind, Option.bind_eq_some_iff] at h
    obtain ⟨bitmap, -, n, -, children, -, hnode⟩ := h
    split_ifs at hnode
    cases hnode
  · simp only [Option.bind_eq_bind, Option.bind_eq_some_iff] at h
    obtain ⟨n, -, entries, hes, hnode⟩ := h
    cases hnode
    exact handles_of_readEntries hes

/-- A lookup ends with a value of the store. -/
theorem handles_of_done {w : PWalk} {bs : Option Bytes} {v : Value} (h : advancePmapWalk w bs = .done v) :
    handles v = [] := by
  unfold advancePmapWalk at h
  split at h
  · cases h
    exact handles_defaultFor _
  · next entries hnode =>
    cases h
    obtain ⟨b, -, hleaf⟩ := Option.bind_eq_some_iff.mp hnode
    cases hfind : entries.find? fun e => Ops.same e.1 w.key with
    | none => exact handles_defaultFor _
    | some e => exact (handles_of_leaf hleaf e (List.mem_of_find?_eq_some hfind)).2
  · dsimp only at h
    split_ifs at h <;> cases h <;> exact handles_defaultFor _

/-- A lookup that goes on stands one level deeper, within the levels of the trie. -/
theorem level_of_continue {w w' : PWalk} {bs : Option Bytes} (h : advancePmapWalk w bs = .continue w') :
    w'.handle = w.handle ∧ w'.level = w.level + 1 ∧ w'.level ≤ maxLevels := by
  unfold advancePmapWalk at h
  split at h
  · cases h
  · cases h
  · dsimp only at h
    split_ifs at h with hlevel
    cases h
    exact ⟨rfl, rfl, Nat.le_of_not_lt hlevel⟩

theorem advanceWalk_cases (tx : Tx) (w : PWalk) :
    (∃ v, (tx.advanceWalk w).resolved = tx.resolved.insert w.handle v ∧ handles v = [] ∧
      (tx.advanceWalk w).pendingWalks = tx.pendingWalks) ∨
    ∃ w', w'.handle = w.handle ∧ w'.level = w.level + 1 ∧ w'.level ≤ maxLevels ∧
      (tx.advanceWalk w).resolved = tx.resolved ∧
      (tx.advanceWalk w).pendingWalks = tx.pendingWalks ++ [w'] := by
  have hres : (tx.fetchNode w.cell).1.resolved = tx.resolved := by
    rcases tx.fetchNode_fst w.cell with h | ⟨-, h⟩ <;> rw [h]
  have hwalks : (tx.fetchNode w.cell).1.pendingWalks = tx.pendingWalks := by
    rcases tx.fetchNode_fst w.cell with h | ⟨-, h⟩ <;> rw [h]
  unfold advanceWalk
  dsimp only
  cases hadv : advancePmapWalk w (tx.fetchNode w.cell).2 with
  | done v => exact .inl ⟨v, by rw [hres], handles_of_done hadv, hwalks⟩
  | «continue» w' =>
    obtain ⟨hhandle, hlevel, hmax⟩ := level_of_continue hadv
    exact .inr ⟨w', hhandle, hlevel, hmax, hres, by rw [hwalks]⟩

/-- What a round of lookups leaves in flight and resolves. -/
structure Advanced (l : List PWalk) (tx tx' : Tx) : Prop where
  walks : ∀ w' ∈ tx'.pendingWalks, w' ∈ tx.pendingWalks ∨
    ∃ w ∈ l, w'.level = w.level + 1 ∧ w'.level ≤ maxLevels
  kept : ∀ w ∈ tx.pendingWalks, w ∈ tx'.pendingWalks
  known : ∀ i, (tx.resolved.lookup i).isSome ∨ i ∈ l.map (·.handle) →
    (tx'.resolved.lookup i).isSome ∨ i ∈ tx'.pendingWalks.map (·.handle)
  settled : Settled tx.resolved → Settled tx'.resolved

theorem advanced_foldl (l : List PWalk) (tx : Tx) : Advanced l tx (l.foldl advanceWalk tx) := by
  induction l generalizing tx with
  | nil => exact ⟨fun w hw => .inl hw, fun w hw => hw, fun i hi => .inl (hi.resolve_right (by simp)), id⟩
  | cons w l ih =>
    obtain ⟨hwalks, hkept, hknown, hsettled⟩ := ih (tx.advanceWalk w)
    rw [List.foldl_cons]
    rcases advanceWalk_cases tx w with ⟨v, hres, hv, hw⟩ | ⟨w', hhandle, hlevel, hmax, hres, hw⟩
    · rw [hw] at hwalks hkept
      refine ⟨fun w' hw' => ?_, hkept, fun i hi => ?_, fun h => hsettled fun i v' hv' => ?_⟩
      · exact (hwalks w' hw').imp id fun ⟨w₀, hmem, hrest⟩ => ⟨w₀, List.mem_cons_of_mem _ hmem, hrest⟩
      · refine hknown i ?_
        rw [hres]
        by_cases hi' : i = w.handle
        · subst hi'
          exact .inl (by rw [AList.lookup_insert]; rfl)
        · rw [AList.lookup_insert_ne hi']
          exact hi.imp id fun h => (List.mem_cons.mp h).resolve_left hi'
      · rw [hres] at hv'
        by_cases hi' : i = w.handle
        · subst hi'
          rw [AList.lookup_insert] at hv'
          cases hv'
          exact hv
        · rw [AList.lookup_insert_ne hi'] at hv'
          exact h i v' hv'
    · rw [hw] at hwalks hkept
      refine ⟨fun w₁ hw₁ => ?_, fun w₁ hw₁ => hkept w₁ (List.mem_append_left _ hw₁), fun i hi => ?_,
        fun h => hsettled (by rwa [hres])⟩
      · rcases hwalks w₁ hw₁ with h | ⟨w₀, hmem, hrest⟩
        · rcases List.mem_append.mp h with h | h
          · exact .inl h
          · obtain rfl := List.mem_singleton.mp h
            exact .inr ⟨w, List.mem_cons_self, hlevel, hmax⟩
        · exact .inr ⟨w₀, List.mem_cons_of_mem _ hmem, hrest⟩
      · rw [hres] at hknown
        rcases hi with hi | hi
        · exact hknown i (.inl hi)
        · rcases List.mem_cons.mp hi with hi | hi
          · have hmem : w' ∈ (l.foldl advanceWalk (tx.advanceWalk w)).pendingWalks :=
              hkept w' (List.mem_append_right _ List.mem_cons_self)
            exact .inr (List.mem_map.mpr ⟨w', hmem, hhandle.trans hi.symm⟩)
          · exact hknown i (.inr hi)

theorem advanced_advanceWalks (tx : Tx) : Advanced tx.pendingWalks { tx with pendingWalks := [] } tx.advanceWalks :=
  advanced_foldl tx.pendingWalks { tx with pendingWalks := [] }

theorem keepsKnown_advanceWalks (tx : Tx) : KeepsKnown tx tx.advanceWalks := by
  intro i hi
  have hpending : tx.advanceWalks.pending = tx.pending := by
    obtain ⟨reads, resolved, walks, hfold, -⟩ := foldl_advanceWalk tx.pendingWalks { tx with pendingWalks := [] }
    rw [advanceWalks, hfold]
  have hknown := (advanced_advanceWalks tx).known i
  have hout : (tx.advanceWalks.resolved.lookup i).isSome ∨ i ∈ tx.advanceWalks.pendingWalks.map (·.handle) →
      Known tx.advanceWalks i :=
    fun h => h.elim .inr fun h => .inl (List.mem_append_right _ h)
  rcases hi with hi | hi
  · rcases List.mem_append.mp hi with hp | hw
    · exact .inl (List.mem_append_left _ (by rwa [hpending]))
    · exact hout (hknown (.inr hw))
  · exact hout (hknown (.inl hi))

theorem keepsKnown_drainRound (tx : Tx) : KeepsKnown tx tx.drainRound := by
  unfold drainRound
  dsimp only
  split_ifs
  · exact fun i hi => hi
  · exact keepsKnown_flushPending tx
  · exact keepsKnown_advanceWalks tx
  · exact fun i hi => keepsKnown_advanceWalks _ i (keepsKnown_flushPending tx i hi)

theorem drain_succ (n : ℕ) (tx : Tx) : tx.drain (n + 1) =
    if tx.pending.isEmpty && tx.pendingWalks.isEmpty then tx else tx.drainRound.drain n := rfl

theorem keepsKnown_drain (n : ℕ) (tx : Tx) : KeepsKnown tx (tx.drain n) := by
  induction n generalizing tx with
  | zero => exact fun i hi => hi
  | succ n ih =>
    rw [drain_succ]
    split_ifs
    · exact fun i hi => hi
    · exact fun i hi => ih _ i (keepsKnown_drainRound tx i hi)

theorem drainRound_pending (tx : Tx) : tx.drainRound.pending = [] := by
  have hflush : tx.flushPending.pending = [] := by
    obtain ⟨reads, resolved, hfold, -⟩ := foldl_observe
      (fun p => tx.storeValue p.key p.ty) tx.answerOrder { tx with pending := [] }
    rw [flushPending_eq, hfold]
  have hadvance : ∀ t : Tx, t.advanceWalks.pending = t.pending := by
    intro t
    obtain ⟨reads, resolved, walks, hfold, -⟩ := foldl_advanceWalk t.pendingWalks { t with pendingWalks := [] }
    rw [advanceWalks, hfold]
  unfold drainRound
  dsimp only
  split_ifs with hwalks hp hp
  · exact List.isEmpty_iff.mp hp
  · exact hflush
  · rw [hadvance, List.isEmpty_iff.mp hp]
  · rw [hadvance, hflush]

/-- Each lookup that is still in flight after a round stands one level deeper. -/
theorem drainRound_walks (tx : Tx) {w' : PWalk} (hw' : w' ∈ tx.drainRound.pendingWalks) :
    ∃ w ∈ tx.pendingWalks, w'.level = w.level + 1 ∧ w'.level ≤ maxLevels := by
  have hadvance : ∀ t : Tx, w' ∈ t.advanceWalks.pendingWalks →
      ∃ w ∈ t.pendingWalks, w'.level = w.level + 1 ∧ w'.level ≤ maxLevels :=
    fun t h => ((advanced_advanceWalks t).walks w' h).resolve_left (List.not_mem_nil)
  unfold drainRound at hw'
  dsimp only at hw'
  split_ifs at hw' with hwalks hp hp
  · rw [List.isEmpty_iff.mp hwalks] at hw'
    cases hw'
  · rw [flushPending_walks, List.isEmpty_iff.mp hwalks] at hw'
    cases hw'
  · exact hadvance _ hw'
  · rw [← flushPending_walks tx]
    exact hadvance _ hw'

theorem drain_walks (n : ℕ) (tx : Tx) {w' : PWalk} (hw' : w' ∈ (tx.drain n).pendingWalks) :
    ∃ w ∈ tx.pendingWalks, w'.level = w.level + n ∧ (0 < n → w'.level ≤ maxLevels) := by
  induction n generalizing tx with
  | zero => exact ⟨w', hw', rfl, fun h => absurd h (lt_irrefl 0)⟩
  | succ n ih =>
    rw [drain_succ] at hw'
    split_ifs at hw' with hquiet
    · rw [List.isEmpty_iff.mp (Bool.and_eq_true_iff.mp hquiet).2] at hw'
      cases hw'
    · obtain ⟨w₁, hw₁, hlevel₁, hmax₁⟩ := ih _ hw'
      obtain ⟨w, hw, hlevel, hmax⟩ := drainRound_walks tx hw₁
      refine ⟨w, hw, by omega, fun _ => ?_⟩
      rcases Nat.eq_zero_or_pos n with hn | hn
      · omega
      · exact hmax₁ hn

/-- The loop of `force` ends with empty queues. -/
theorem drain_handles (tx : Tx) : (tx.drain (maxLevels + 2)).handles = [] := by
  have hpending : (tx.drain (maxLevels + 2)).pending = [] := by
    rw [drain_succ]
    split_ifs with hquiet
    · exact List.isEmpty_iff.mp (Bool.and_eq_true_iff.mp hquiet).1
    · have hsub := (drained_drain (maxLevels + 1) tx.drainRound).pending
      rw [drainRound_pending] at hsub
      exact List.sublist_nil.mp hsub
  have hwalks : (tx.drain (maxLevels + 2)).pendingWalks = [] := by
    refine List.eq_nil_iff_forall_not_mem.mpr fun w' hw' => ?_
    obtain ⟨w, -, hlevel, hmax⟩ := drain_walks _ tx hw'
    have := hmax (by omega)
    omega
  rw [Tx.handles, hpending, hwalks]
  rfl

/-- **Forcing resolves every handle that is known.** -/
theorem resolved_of_known {tx : Tx} {i : ℕ} (h : Known tx i) :
    ((tx.drain (maxLevels + 2)).resolved.lookup i).isSome := by
  rcases keepsKnown_drain (maxLevels + 2) tx i h with h | h
  · rw [drain_handles] at h
    cases h
  · exact h

/-! ### Where handles can stand -/

/-- No cell holds a handle. -/
def CellsSettled (cells : Cells) : Prop := ∀ c v, cells.lookup c = some v → handles v = []

/-- All that a transaction holds is known to it, and nothing that it caches, has resolved or finds above
holds a handle. -/
structure DeferInv (tx : Tx) (held : List Value) : Prop where
  settled : Settled tx.resolved
  reads : CellsSettled tx.reads
  above : ∀ a ∈ tx.ancestors, CellsSettled a.1 ∧ CellsSettled a.2
  writes : ∀ c v, tx.writes.lookup c = some v → ∀ i ∈ handles v, Known tx i
  held : ∀ v ∈ held, ∀ i ∈ handles v, Known tx i

section Below

variable {tx tx' : Tx}

theorem handles_parentLookupIn {ancestors : List (Cells × Cells)} {c : U128} {v : Value}
    (h : ∀ a ∈ ancestors, CellsSettled a.1 ∧ CellsSettled a.2) (hv : parentLookupIn c ancestors = some v) :
    handles v = [] := by
  induction ancestors with
  | nil => cases hv
  | cons a ancestors ih =>
    obtain ⟨writes, reads⟩ := a
    obtain ⟨hw, hr⟩ := h _ List.mem_cons_self
    unfold parentLookupIn at hv
    split at hv
    · next w hwrite =>
      cases hv
      exact hw c _ hwrite
    · split at hv
      · next w hread =>
        cases hv
        exact hr c _ hread
      · exact ih (fun a ha => h a (List.mem_cons_of_mem _ ha)) hv

/-- What lies below the caches holds no handle. -/
theorem handles_storeValue (h : ∀ a ∈ tx.ancestors, CellsSettled a.1 ∧ CellsSettled a.2) (c : U128) (ty : Ty) :
    handles (tx.storeValue c ty) = [] := by
  unfold storeValue
  cases hp : tx.parentLookup c with
  | none => exact handles_observed _ _ _
  | some v => exact handles_parentLookupIn h hp

theorem settled_flushPending (h : ∀ c ty, handles (tx.storeValue c ty) = []) (hs : Settled tx.resolved) :
    Settled tx.flushPending.resolved := by
  have hfold : ∀ (l : List PendingRead) (t : Tx), Settled t.resolved →
      Settled (l.foldl (fun t p => t.observe p.id p.key (tx.storeValue p.key p.ty)) t).resolved := by
    intro l
    induction l with
    | nil => exact fun t ht => ht
    | cons p l ih =>
      refine fun t ht => ih _ fun i v hv => ?_
      by_cases hi : i = p.id
      · subst hi
        simp only [observe, AList.lookup_insert] at hv
        cases hv
        exact h _ _
      · simp only [observe, AList.lookup_insert_ne hi] at hv
        exact ht i v hv
  rw [flushPending_eq]
  exact hfold _ _ hs

theorem settled_drainRound (h : ∀ c ty, handles (tx.storeValue c ty) = []) (hs : Settled tx.resolved) :
    Settled tx.drainRound.resolved := by
  unfold drainRound
  dsimp only
  split_ifs
  · exact hs
  · exact settled_flushPending h hs
  · exact (advanced_advanceWalks tx).settled hs
  · exact (advanced_advanceWalks _).settled (settled_flushPending h hs)

theorem settled_drain (n : ℕ) (h : ∀ c ty, handles (tx.storeValue c ty) = []) (hs : Settled tx.resolved) :
    Settled (tx.drain n).resolved := by
  induction n generalizing tx with
  | zero => exact hs
  | succ n ih =>
    rw [drain_succ]
    split_ifs
    · exact hs
    · refine ih (fun c ty => ?_) (settled_drainRound h hs)
      rw [(drained_drainRound tx).storeValue_eq]
      exact h c ty

end Below

/-! ### Values put together from leaves -/

mutual

/-- A value put together from leaves holds handles of the leaves only. -/
theorem handles_reassemble (leaves : List Value) (spec : TreeSpec) {i : ℕ}
    (hi : i ∈ handles (reassemble leaves spec)) : ∃ v ∈ leaves, i ∈ handles v := by
  have hget : ∀ {n : ℕ}, i ∈ handles (leaves.getD n .unit) → ∃ v ∈ leaves, i ∈ handles v := by
    intro n h
    rw [List.getD_eq_getElem?_getD] at h
    cases hn : leaves[n]? with
    | none =>
      rw [hn] at h
      cases h
    | some v =>
      rw [hn] at h
      exact ⟨v, List.mem_of_getElem? hn, h⟩
  cases spec with
  | leaf n => exact hget hi
  | struct name fields => exact handles_reassembleFields leaves fields hi
  | projection n field =>
    refine hget (n := n) ?_
    rw [reassemble] at hi
    unfold projectField at hi
    split at hi
    · next name fields heq =>
      rw [heq]
      cases hf : fields.lookup field with
      | none =>
        rw [hf] at hi
        cases hi
      | some v =>
        rw [hf] at hi
        obtain ⟨l₁, l₂, hl, -⟩ := List.lookup_eq_some_iff.mp hf
        refine mem_handlesFields.mpr ⟨(field, v), ?_, hi⟩
        rw [hl]
        exact List.mem_append_right _ List.mem_cons_self
    · cases hi

theorem handles_reassembleFields (leaves : List Value) (fields : List (String × TreeSpec)) {i : ℕ}
    (hi : i ∈ handlesFields (reassembleFields leaves fields)) : ∃ v ∈ leaves, i ∈ handles v := by
  cases fields with
  | nil => cases hi
  | cons f fields =>
    obtain ⟨n, spec⟩ := f
    rcases List.mem_append.mp hi with hi | hi
    · exact handles_reassemble leaves spec hi
    · exact handles_reassembleFields leaves fields hi

end

/-! ### What an operation answers -/

/-- The values an operation answers with. -/
def TxOp.answers (tx : Tx) : TxOp → List Value
  | .readCell c ty => [(tx.readCell c ty).2]
  | .readState c ty => [(tx.readState c ty).2]
  | .readTypedMany ops => (tx.readTypedMany ops).2
  | .force v => [(tx.force v).2]
  | .beginPmapGet root key kt vt => [(tx.beginPmapGet root key kt vt).2]
  | _ => []

/-- The values an operation consumes. -/
def TxOp.operands : TxOp → List Value
  | .force v => [v]
  | .write _ v => [v]
  | .beginPmapGet _ key _ _ => [key]
  | _ => []

/-- What is known stays known, and the new values hold what is known. -/
structure Answers (tx tx' : Tx) (new : List Value) : Prop where
  kept : KeepsKnown tx tx'
  settled : Settled tx'.resolved
  writes : ∀ c v, tx'.writes.lookup c = some v → ∀ i ∈ handles v, Known tx' i
  new : ∀ v ∈ new, ∀ i ∈ handles v, Known tx' i

section Answers

variable {tx tx' : Tx} {held new : List Value}

/-- Nothing but the read cache changes. -/
theorem Answers.of_reads (h : DeferInv tx held) (hframe : tx' = { tx with reads := tx'.reads })
    (hnew : ∀ v ∈ new, ∀ i ∈ handles v, Known tx i) : Answers tx tx' new := by
  have hkept : KeepsKnown tx tx' := by
    rw [hframe]
    exact fun i hi => hi
  refine ⟨hkept, ?_, fun c v hv i hi => hkept i ?_, fun v hv i hi => hkept i (hnew v hv i hi)⟩
  · rw [hframe]
    exact h.settled
  · rw [hframe] at hv
    exact h.writes c v hv i hi

/-- A queued read is known. -/
theorem Answers.queue (h : DeferInv tx held) (c : U128) (ty : Ty) :
    Answers tx (tx.queue c ty).1 [(tx.queue c ty).2] := by
  have hhandles : ∀ i, i ∈ tx.handles ∨ i = tx.nextHandle → i ∈ (tx.queue c ty).1.handles := by
    intro i hi
    rw [Tx.handles, Tx.queue, List.map_append, List.append_assoc]
    rcases hi with hi | hi
    · rcases List.mem_append.mp hi with hi | hi
      · exact List.mem_append_left _ hi
      · exact List.mem_append_right _ (List.mem_append_right _ hi)
    · exact List.mem_append_right _ (List.mem_append_left _ (by simp [hi]))
  have hkept : KeepsKnown tx (tx.queue c ty).1 := fun i hi => hi.imp (fun hi => hhandles i (.inl hi)) id
  refine ⟨hkept, h.settled, fun c v hv i hi => hkept i (h.writes c v hv i hi), fun v hv i hi => ?_⟩
  obtain rfl := List.mem_singleton.mp hv
  exact .inl (hhandles i (.inr (List.mem_singleton.mp hi)))

/-- The value of a cell that is written or cached is known. -/
theorem DeferInv.known_cell (h : DeferInv tx held) {c : U128} {v : Value}
    (hv : tx.writes.lookup c = some v ∨ tx.reads.lookup c = some v) : ∀ i ∈ handles v, Known tx i := by
  rcases hv with hv | hv
  · exact h.writes c v hv
  · rw [h.reads c v hv]
    exact fun i hi => by cases hi

theorem known_of_nil {v : Value} (hv : handles v = []) : ∀ i ∈ handles v, Known tx i := by
  rw [hv]
  exact fun i hi => by cases hi

theorem answers_readCell (h : DeferInv tx held) (c : U128) (ty : Ty) :
    Answers tx (tx.readCell c ty).1 [(tx.readCell c ty).2] := by
  have hone : ∀ {v : Value}, (∀ i ∈ handles v, Known tx i) → ∀ w ∈ [v], ∀ i ∈ handles w, Known tx i := by
    intro v hv w hw
    obtain rfl := List.mem_singleton.mp hw
    exact hv
  have hcached : ∀ {o : Option Value}, o.isSome → (∀ v, o = some v → ∀ i ∈ handles v, Known tx i) →
      ∀ i ∈ handles (o.getD .unit), Known tx i := by
    intro o ho hv
    obtain ⟨v, rfl⟩ := Option.isSome_iff_exists.mp ho
    exact hv v rfl
  rcases tx.readCell_cases c ty with ⟨he, hs⟩ | ⟨-, he, hs⟩ | ⟨-, he⟩ | ⟨-, he⟩
  · rw [he]
    exact .of_reads h rfl (hone (hcached hs fun v hv => h.known_cell (.inl hv)))
  · rw [he]
    exact .of_reads h rfl (hone (hcached hs fun v hv => h.known_cell (.inr hv)))
  · rw [he]
    exact .of_reads h rfl (hone (known_of_nil (handles_storeValue h.above c ty)))
  · rw [he]
    exact .queue h c ty

theorem answers_readTyped (h : DeferInv tx held) (c : U128) (ty : Ty) :
    Answers tx (tx.readTyped c ty).1 [(tx.readTyped c ty).2] := by
  have hone : ∀ {v : Value}, (∀ i ∈ handles v, Known tx i) → ∀ w ∈ [v], ∀ i ∈ handles w, Known tx i := by
    intro v hv w hw
    obtain rfl := List.mem_singleton.mp hw
    exact hv
  unfold readTyped
  cases hw : tx.writes.lookup c with
  | some v => exact .of_reads h rfl (hone (h.known_cell (.inl hw)))
  | none =>
    cases hr : tx.reads.lookup c with
    | some v => exact .of_reads h rfl (hone (h.known_cell (.inr hr)))
    | none =>
      dsimp only
      split_ifs
      · exact .queue h c ty
      · have hread : tx.read c ty (Value.defaultFor ty) =
            ({ tx with reads := tx.reads.insert c (tx.storeValue c ty) }, tx.storeValue c ty) := by
          simp only [Tx.read, hw, hr, Tx.storeValue]
        rw [hread]
        exact .of_reads h rfl (hone (known_of_nil (handles_storeValue h.above c ty)))

theorem CellsSettled.insert {cells : Cells} (h : CellsSettled cells) {c : U128} {v : Value}
    (hv : handles v = []) : CellsSettled (cells.insert c v) := by
  intro d w hw
  by_cases hd : d = c
  · subst hd
    rw [AList.lookup_insert] at hw
    cases hw
    exact hv
  · rw [AList.lookup_insert_ne hd] at hw
    exact h d w hw

/-- The values of the leaves that are known without the store. -/
theorem known_knownLeaves (h : DeferInv tx held) {leaves : Leaves} (hwrites : tx'.writes = tx.writes)
    (hanc : tx'.ancestors = tx.ancestors) (hreads : CellsSettled tx'.reads) :
    ∀ v, some v ∈ (tx'.knownLeaves leaves).2 → ∀ i ∈ handles v, Known tx i := by
  induction leaves generalizing tx' with
  | nil => exact fun v hv => by cases hv
  | cons leaf leaves ih =>
    obtain ⟨key, ty⟩ := leaf
    have hcons : ∀ {t : Tx} {w : Value}, t.writes = tx.writes → t.ancestors = tx.ancestors →
        CellsSettled t.reads → (∀ i ∈ handles w, Known tx i) →
        ∀ v, some v ∈ some w :: (t.knownLeaves leaves).2 → ∀ i ∈ handles v, Known tx i := by
      intro t w htw hta htr hw v hv
      rcases List.mem_cons.mp hv with hv | hv
      · cases hv
        exact hw
      · exact ih htw hta htr v hv
    unfold knownLeaves
    cases hw : tx'.writes.lookup key with
    | some w => exact hcons hwrites hanc hreads (h.known_cell (.inl (by rw [← hwrites, hw])))
    | none =>
      dsimp only
      cases hr : tx'.reads.lookup key with
      | some w => exact hcons hwrites hanc hreads (known_of_nil (hreads key w hr))
      | none =>
        dsimp only
        cases hp : tx'.parentLookup key with
        | some w =>
          have hw : handles w = [] := by
            unfold parentLookup at hp
            rw [hanc] at hp
            exact handles_parentLookupIn h.above hp
          exact hcons (t := { tx' with reads := tx'.reads.insert key w }) hwrites hanc (hreads.insert hw)
            (known_of_nil hw)
        | none =>
          intro v hv
          rcases List.mem_cons.mp hv with hv | hv
          · cases hv
          · exact ih hwrites hanc hreads v hv

theorem known_fetchLeaves {pairs : List ((U128 × Ty) × Option Value)}
    (hpairs : ∀ p ∈ pairs, ∀ v, p.2 = some v → ∀ i ∈ handles v, Known tx i) :
    ∀ v ∈ (tx'.fetchLeaves pairs).2, ∀ i ∈ handles v, Known tx i := by
  induction pairs generalizing tx' with
  | nil => exact fun v hv => by cases hv
  | cons p pairs ih =>
    have hhead := hpairs p List.mem_cons_self
    have hrest := fun q hq => hpairs q (List.mem_cons_of_mem _ hq)
    obtain ⟨⟨key, ty⟩, _ | w⟩ := p
    · unfold fetchLeaves
      exact List.forall_mem_cons.mpr ⟨known_of_nil (handles_observed _ _ _), ih hrest⟩
    · unfold fetchLeaves
      exact List.forall_mem_cons.mpr ⟨hhead w rfl, ih hrest⟩

theorem answers_readTypedMany (h : DeferInv tx held) (ops : List (U128 × Ty)) :
    Answers tx (tx.readTypedMany ops).1 (tx.readTypedMany ops).2 := by
  refine .of_reads h (readLeaves_cached tx _).frame fun v hv i hi => ?_
  obtain ⟨spec, -, rfl⟩ := List.mem_map.mp hv
  obtain ⟨w, hw, hi⟩ := handles_reassemble _ spec hi
  refine known_fetchLeaves (fun p hp w hw i hi => ?_) w hw i hi
  have hknown := @known_knownLeaves tx tx held h (collectAll ops []).1 rfl rfl h.reads
  refine hknown w ?_ i hi
  rw [← hw]
  exact (List.of_mem_zip hp).2

theorem answers_readState (h : DeferInv tx held) (c : U128) (ty : Ty) :
    Answers tx (tx.readState c ty).1 [(tx.readState c ty).2] := by
  cases ty with
  | explicitLiteral inner => exact answers_readState h c inner
  | struct name fields groups =>
    have hmany := answers_readTypedMany h [(c, .struct name fields groups)]
    refine ⟨hmany.kept, hmany.settled, hmany.writes, fun v hv i hi => ?_⟩
    obtain rfl := List.mem_singleton.mp hv
    exact hmany.new _ List.mem_cons_self i hi
  | _ => exact answers_readTyped h c _

theorem answers_force (h : DeferInv tx held) {v : Value} (hv : v ∈ held) :
    Answers tx (tx.force v).1 [(tx.force v).2] := by
  unfold force
  split_ifs
  · have hkept := keepsKnown_drain (maxLevels + 2) tx
    have hdrained := drained_drain (maxLevels + 2) tx
    have hsettled := settled_drain (maxLevels + 2) (fun c ty => handles_storeValue h.above c ty) h.settled
    refine ⟨hkept, hsettled, fun c w hw i hi => hkept i ?_, fun w hw i hi => hkept i ?_⟩
    · rw [hdrained.writes_eq] at hw
      exact h.writes c w hw i hi
    · obtain rfl := List.mem_singleton.mp hw
      exact h.held v hv i (handles_substituteResolved hsettled v hi)
  · refine .of_reads h rfl fun w hw => ?_
    rw [List.mem_singleton.mp hw]
    exact h.held v hv

theorem answers_beginPmapGet (h : DeferInv tx held) (root : U128) (key : Value) (kt vt : Ty) :
    Answers tx (tx.beginPmapGet root key kt vt).1 [(tx.beginPmapGet root key kt vt).2] := by
  unfold beginPmapGet
  split_ifs
  · refine .of_reads h rfl fun w hw => ?_
    obtain rfl := List.mem_singleton.mp hw
    exact known_of_nil (handles_defaultFor vt)
  · have hhandles : ∀ i, i ∈ tx.handles ∨ i = tx.nextHandle →
        i ∈ tx.pending.map (·.id) ++ (tx.pendingWalks ++ [(⟨tx.nextHandle, key, hashKey key, kt, vt, 0, root⟩ :
          PWalk)]).map (·.handle) := by
      intro i hi
      rw [List.map_append, ← List.append_assoc]
      rcases hi with hi | hi
      · exact List.mem_append_left _ hi
      · exact List.mem_append_right _ (by simp [hi])
    refine ⟨fun i hi => hi.imp (fun hi => hhandles i (.inl hi)) id, h.settled, fun c v hv i hi => ?_,
      fun v hv i hi => ?_⟩
    · exact (h.writes c v hv i hi).imp (fun hi => hhandles i (.inl hi)) id
    · obtain rfl := List.mem_singleton.mp hv
      exact .inl (hhandles i (.inr (List.mem_singleton.mp hi)))

/-- **What each operation answers** holds known handles only. -/
theorem TxOp.answered (h : DeferInv tx held) {o : TxOp} (hops : ∀ v ∈ o.operands, v ∈ held) :
    Answers tx (o.run tx) (o.answers tx) := by
  have hnothing : ∀ {t : Tx}, t.pending = tx.pending → t.pendingWalks = tx.pendingWalks →
      t.resolved = tx.resolved → t.writes = tx.writes → Answers tx t [] := by
    intro t hp hw hr hwr
    have hkept : KeepsKnown tx t := by
      intro i hi
      rwa [Known, Tx.handles, hp, hw, hr]
    refine ⟨hkept, by rw [hr]; exact h.settled, fun c v hv i hi => hkept i ?_, fun v hv => by cases hv⟩
    rw [hwr] at hv
    exact h.writes c v hv i hi
  cases o with
  | readCell c ty => exact answers_readCell h c ty
  | readState c ty => exact answers_readState h c ty
  | readTypedMany ops => exact answers_readTypedMany h ops
  | force v => exact answers_force h (hops v List.mem_cons_self)
  | write c v =>
    obtain ⟨hkept, hsettled, hwrites, hnew⟩ := answers_force h (hops v List.mem_cons_self)
    refine ⟨hkept, hsettled, fun d w hw i hi => ?_, fun w hw => by cases hw⟩
    change ((tx.force v).1.writes.insert c (tx.force v).2).lookup d = some w at hw
    by_cases hd : d = c
    · subst hd
      rw [AList.lookup_insert] at hw
      cases hw
      exact hnew _ List.mem_cons_self i hi
    · rw [AList.lookup_insert_ne hd] at hw
      exact hwrites d w hw i hi
  | beginPmapGet root key kt vt => exact answers_beginPmapGet h root key kt vt
  | flushPending =>
    have hkept := keepsKnown_flushPending tx
    refine ⟨hkept, settled_flushPending (fun c ty => handles_storeValue h.above c ty) h.settled,
      fun c w hw i hi => hkept i ?_, fun w hw => by cases hw⟩
    change tx.flushPending.writes.lookup c = some w at hw
    rw [(drained_flushPending tx).writes_eq] at hw
    exact h.writes c w hw i hi
  | recordNodeCellWrite c => exact hnothing rfl rfl rfl rfl
  | putNode key bs =>
    change Answers tx (Tx.putNode key tx bs).1 []
    rw [putNode_eq]
    refine ⟨fun i hi => hi, h.settled, fun c v hv i hi => ?_, fun v hv => by cases hv⟩
    by_cases hc : c = key bs
    · rw [hc, AList.lookup_insert] at hv
      cases hv
      cases hi
    · rw [AList.lookup_insert_ne hc] at hv
      exact h.writes c v hv i hi
  | recordPmapTypes c kt vt =>
    change Answers tx (tx.recordPmapTypes c kt vt) []
    unfold Tx.recordPmapTypes
    split
    · exact hnothing rfl rfl rfl rfl
    · exact hnothing rfl rfl rfl rfl
  | recordPvecType c elem =>
    change Answers tx (tx.recordPvecType c elem) []
    unfold Tx.recordPvecType
    split
    · exact hnothing rfl rfl rfl rfl
    · exact hnothing rfl rfl rfl rfl
  | setLazy lazy => exact hnothing rfl rfl rfl rfl

/-- What one operation preserves. -/
theorem DeferInv.op (h : DeferInv tx held) {o : TxOp} (hops : ∀ v ∈ o.operands, v ∈ held) :
    DeferInv (o.run tx) (o.answers tx ++ held) := by
  obtain ⟨hkept, hsettled, hwrites, hnew⟩ := TxOp.answered h hops
  obtain ⟨-, hanc, hreads, -⟩ := TxOp.effect tx o
  refine ⟨hsettled, fun c v hv => ?_, by rw [hanc]; exact h.above, hwrites, fun v hv i hi => ?_⟩
  · rcases hreads c with hsame | ⟨ty, hstore, -⟩
    · rw [hsame] at hv
      exact h.reads c v hv
    · rw [hstore] at hv
      cases hv
      exact handles_storeValue h.above c ty
  · rcases List.mem_append.mp hv with hv | hv
    · exact hnew v hv i hi
    · exact hkept i (h.held v hv i hi)

end Answers

/-! ### Runs with the values that are held -/

/-- A transaction and the values held in the registers. -/
abbrev Frame : Type := Tx × List Value

/-- No handle goes down into a shadow, by a register that the leg uses or by a cell its parent has
written. -/
def ForkOk (parent : Tx) (inherited : List Value) : Prop :=
  (∀ v ∈ inherited, handles v = []) ∧ CellsSettled parent.writes

/-- No handle comes back from a leg, by the values handed back or by a cell the leg has written. -/
def JoinOk (delta : Tx) (back : List Value) : Prop :=
  (∀ v ∈ back, handles v = []) ∧ CellsSettled delta.writes

/-- Runs of a frame. An operation consumes held values, any other instruction builds a value from parts
of those held, and registers are overwritten. A leg starts, in a shadow of an earlier moment, with some
registers of that moment, and hands values back. When `strict` holds no handle crosses a fork. -/
inductive Flow (strict : Prop) : Frame → Frame → Prop
  | refl (m : Frame) : Flow strict m m
  | op {m : Frame} {tx : Tx} {held : List Value} (h : Flow strict m (tx, held)) (o : TxOp)
      (hops : ∀ v ∈ o.operands, v ∈ held) : Flow strict m (o.run tx, o.answers tx ++ held)
  | build {m : Frame} {tx : Tx} {held : List Value} (h : Flow strict m (tx, held)) (v : Value)
      (hv : ∀ i ∈ handles v, ∃ w ∈ held, i ∈ handles w) : Flow strict m (tx, v :: held)
  | overwrite {m : Frame} {tx : Tx} {held held' : List Value} (h : Flow strict m (tx, held))
      (hsub : held' ⊆ held) : Flow strict m (tx, held')
  | leg {m : Frame} {tx₁ tx δ : Tx} {held₁ held inherited below back : List Value}
      (h₁ : Flow strict m (tx₁, held₁)) (hsub : inherited ⊆ held₁) (hfork : strict → ForkOk tx₁ inherited)
      (hδ : Flow strict (tx₁.shadowOf, inherited) (δ, below)) (hback : back ⊆ below)
      (hjoin : strict → JoinOk δ back) (h : Flow strict (tx₁, held₁) (tx, held)) :
      Flow strict m (tx.mergeDelta δ, back ++ held)

/-- The frames that a run over a store reaches, those of its legs included. -/
inductive Reached (strict : Prop) (kv : Kv) : Frame → Prop
  | start : Reached strict kv (Tx.new kv, [])
  | flow {m m' : Frame} (h : Reached strict kv m) (hflow : Flow strict m m') : Reached strict kv m'
  | fork {tx : Tx} {held inherited : List Value} (h : Reached strict kv (tx, held))
      (hsub : inherited ⊆ held) (hfork : strict → ForkOk tx inherited) :
      Reached strict kv (tx.shadowOf, inherited)

section Runs

variable {tx : Tx} {held : List Value}

theorem DeferInv.fork {inherited : List Value} (h : DeferInv tx held) (hfork : ForkOk tx inherited) :
    DeferInv tx.shadowOf inherited := by
  refine ⟨fun i v hv => ?_, fun c v hv => ?_, fun a ha => ?_, fun c v hv => ?_,
    fun v hv => known_of_nil (hfork.1 v hv)⟩
  · cases (AList.lookup_empty i).symm.trans hv
  · cases (AList.lookup_empty c).symm.trans hv
  · rcases List.mem_cons.mp ha with rfl | ha
    · exact ⟨hfork.2, h.reads⟩
    · exact h.above a ha
  · cases (AList.lookup_empty c).symm.trans hv

theorem DeferInv.join {δ : Tx} {below back : List Value} (h : DeferInv tx held) (hδ : DeferInv δ below)
    (hjoin : JoinOk δ back) : DeferInv (tx.mergeDelta δ) (back ++ held) := by
  refine ⟨h.settled, fun c v hv => ?_, h.above, fun c v hv => ?_, fun v hv => ?_⟩
  · rcases AList.mem_lookup_union.mp hv with hv | ⟨-, hv⟩
    · exact h.reads c v hv
    · exact hδ.reads c v hv
  · rcases AList.mem_lookup_union.mp hv with hv | ⟨-, hv⟩
    · exact known_of_nil (hjoin.2 c v hv)
    · exact h.writes c v hv
  · rcases List.mem_append.mp hv with hv | hv
    · exact known_of_nil (hjoin.1 v hv)
    · exact h.held v hv

/-- What a run in which no handle crosses a fork preserves. -/
theorem DeferInv.flow {m m' : Frame} (hflow : Flow True m m') (h : DeferInv m.1 m.2) : DeferInv m'.1 m'.2 := by
  induction hflow with
  | refl m => exact h
  | op _ o hops ih => exact (ih h).op hops
  | build _ v hv ih =>
    have hinv := ih h
    refine ⟨hinv.settled, hinv.reads, hinv.above, hinv.writes, List.forall_mem_cons.mpr ⟨fun i hi => ?_, hinv.held⟩⟩
    obtain ⟨w, hw, hi⟩ := hv i hi
    exact hinv.held w hw i hi
  | overwrite _ hsub ih =>
    have hinv := ih h
    exact ⟨hinv.settled, hinv.reads, hinv.above, hinv.writes, fun v hv => hinv.held v (hsub hv)⟩
  | leg _ _ hfork _ _ hjoin _ ih₁ ihδ ih =>
    have hinv := ih₁ h
    exact (ih hinv).join (ihδ (hinv.fork (hfork trivial))) (hjoin trivial)

theorem DeferInv.reached {kv : Kv} {m : Frame} (h : Reached True kv m) : DeferInv m.1 m.2 := by
  induction h with
  | start =>
    exact ⟨fun i v hv => (by cases (AList.lookup_empty i).symm.trans hv),
      fun c v hv => (by cases (AList.lookup_empty c).symm.trans hv), fun a ha => (by cases ha),
      fun c v hv => (by cases (AList.lookup_empty c).symm.trans hv), fun v hv => (by cases hv)⟩
  | flow _ hflow ih => exact ih.flow hflow
  | fork _ _ hfork ih => exact ih.fork (hfork trivial)

end Runs

/-- **Every deferred read can be resolved where it is consumed**, in a run in which no handle crosses a
fork: each handle in a value that is held was issued by the transaction that holds it, or is resolved
there, and forcing finds what it resolves to. -/
theorem reached_known {kv : Kv} {tx : Tx} {held : List Value} (h : Reached True kv (tx, held)) :
    ∀ v ∈ held, ∀ i ∈ handles v,
      Known tx i ∧ ((tx.drain (maxLevels + 2)).resolved.lookup i).isSome := by
  intro v hv i hi
  have hknown : Known tx i := (DeferInv.reached h).held v hv i hi
  exact ⟨hknown, resolved_of_known hknown⟩

/-- A transaction that has queued the read of one cell. -/
def lazyRead : Tx := (((Tx.new fun _ => none).setLazy true).readCell 7 .int).1

theorem reached_lazyRead (strict : Prop) : Reached strict (fun _ => none) (lazyRead, [.pending 0]) := by
  have hlazy : Flow strict (Tx.new fun _ => none, []) ((Tx.new fun _ => none).setLazy true, []) :=
    .op (.refl _) (.setLazy true) (fun v hv => by cases hv)
  exact .flow .start (.op hlazy (.readCell 7 .int) (fun v hv => by cases hv))

/-- A leg that inherits nothing reads another cell: each handle is known where it is held. -/
theorem reached_known_leg : Known lazyRead 0 ∧ Known (lazyRead.shadowOf.readCell 8 .int).1 1 := by
  have hnone : ForkOk lazyRead [] := by
    refine ⟨List.forall_mem_nil _, fun c v hv => ?_⟩
    cases (AList.lookup_empty c).symm.trans hv
  have hleg : Reached True (fun _ => none) ((lazyRead.shadowOf.readCell 8 .int).1, [.pending 1]) :=
    .flow (.fork (reached_lazyRead True) (List.nil_subset _) fun _ => hnone)
      (.op (.refl _) (.readCell 8 .int) (fun v hv => by cases hv))
  refine ⟨?_, ?_⟩
  · exact (reached_known (reached_lazyRead True) (.pending 0) List.mem_cons_self 0 List.mem_cons_self).1
  · exact (reached_known hleg (.pending 1) List.mem_cons_self 1 List.mem_cons_self).1

/-- A leg inherits the register of a queued read: forcing it in the shadow finds nothing. -/
theorem reached_unknown : ∃ (kv : Kv) (tx : Tx) (held : List Value) (v : Value) (i : ℕ),
    Reached False kv (tx, held) ∧ v ∈ held ∧ containsPending v = true ∧ i ∈ handles v ∧ ¬ Known tx i ∧
      (tx.drain (maxLevels + 2)).resolved.lookup i = none := by
  refine ⟨_, lazyRead.shadowOf, [.pending 0], .pending 0, 0,
    .fork (reached_lazyRead False) (List.Subset.refl _) False.elim, List.mem_cons_self, rfl,
    List.mem_cons_self, ?_, ?_⟩
  · rintro (h | h) <;> cases h
  · rw [drain_succ]
    rfl

end Rend.Vm
