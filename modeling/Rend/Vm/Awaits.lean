import Rend.Vm.Deferred

/-!
# Lookups in flight

A round of `force` moves each lookup in flight by one node, and no lookup touches what another one reads. When
each step of a lookup ends with a value or stays on course for it (`Course`), the loop of `force` ends with this
value (`Awaits.resolved`), whatever else is in flight.

Any lookup is on course for where the nodes lead it that the transaction shows once its queued reads have been
answered (`steadyCourse`).
-/

namespace Rend.Vm

open Lib Pmap Tx

/-- Which value a lookup is on course for, as long as a transaction shows the nodes that it comes to. -/
structure Course where
  To : PWalk → Value → Prop
  Sees : Tx → Prop
  Holds : Tx → Prop
  step : ∀ {tx w v}, Sees tx → To w v → advancePmapWalk w (tx.fetchNode w.cell).2 = .done v ∨
    ∃ w', advancePmapWalk w (tx.fetchNode w.cell).2 = .continue w' ∧ To w' v
  sees_advanceWalk : ∀ {tx}, Sees tx → ∀ w, Sees (tx.advanceWalk w)
  sees : ∀ {tx}, Holds tx → Sees { tx.flushPending with pendingWalks := [] }
  holds_drainRound : ∀ {tx}, Holds tx → Holds tx.drainRound

/-- The handle has resolved to the value, or belongs to a lookup on course for it. `todo` are lookups
that have been taken out of flight for this round. -/
def Awaits (C : Course) (todo : List PWalk) (tx : Tx) (i : ℕ) (v : Value) : Prop :=
  (i ∉ todo.map (·.handle) ++ tx.handles ∧ tx.resolved.lookup i = some v) ∨
    ∃ w ∈ todo ++ tx.pendingWalks, w.handle = i ∧ C.To w v

variable {C : Course} {tx : Tx} {i : ℕ} {v : Value}

/-! ### One round -/

/-- Moving one lookup. -/
theorem Awaits.advanceWalk {w : PWalk} {todo : List PWalk} (hsees : C.Sees tx)
    (hnodup : ((w :: todo).map (·.handle) ++ tx.handles).Nodup) (h : Awaits C (w :: todo) tx i v) :
    Awaits C todo (tx.advanceWalk w) i v ∧ (todo.map (·.handle) ++ (tx.advanceWalk w).handles).Nodup := by
  have hpending : (tx.advanceWalk w).pending = tx.pending := by
    obtain ⟨resolved, walks, hadv, -, -⟩ := tx.advanceWalk_eq w
    rw [hadv]
    rcases tx.fetchNode_fst w.cell with hf | ⟨-, hf⟩ <;> rw [hf]
  rw [List.map_cons, List.cons_append, List.nodup_cons] at hnodup
  obtain ⟨hw, hrest⟩ := hnodup
  -- the outcome of this lookup, in general and when it is the one that is awaited
  have hcases : (∃ u, advancePmapWalk w (tx.fetchNode w.cell).2 = .done u ∧
      (tx.advanceWalk w).resolved = tx.resolved.insert w.handle u ∧
      (tx.advanceWalk w).pendingWalks = tx.pendingWalks) ∨
      ∃ w', advancePmapWalk w (tx.fetchNode w.cell).2 = .continue w' ∧
        (tx.advanceWalk w).resolved = tx.resolved ∧
        (tx.advanceWalk w).pendingWalks = tx.pendingWalks ++ [w'] := by
    have hres : (tx.fetchNode w.cell).1.resolved = tx.resolved := by
      rcases tx.fetchNode_fst w.cell with hf | ⟨-, hf⟩ <;> rw [hf]
    have hwalks : (tx.fetchNode w.cell).1.pendingWalks = tx.pendingWalks := by
      rcases tx.fetchNode_fst w.cell with hf | ⟨-, hf⟩ <;> rw [hf]
    unfold Tx.advanceWalk
    dsimp only
    cases advancePmapWalk w (tx.fetchNode w.cell).2 with
    | done u => exact .inl ⟨u, rfl, by rw [hres], hwalks⟩
    | «continue» w' => exact .inr ⟨w', rfl, hres, by rw [hwalks]⟩
  rcases hcases with ⟨u, hadv, hres, hwalks⟩ | ⟨w', hadv, hres, hwalks⟩
  · have hhandles : (tx.advanceWalk w).handles = tx.handles := by rw [Tx.handles, Tx.handles, hpending, hwalks]
    refine ⟨?_, hhandles ▸ hrest⟩
    rcases h with ⟨hout, hi⟩ | ⟨w₀, hmem, hi, hcourse⟩
    · rw [List.map_cons, List.cons_append, List.mem_cons, not_or] at hout
      refine .inl ⟨hhandles ▸ hout.2, ?_⟩
      rw [hres, AList.lookup_insert_ne hout.1, hi]
    · rw [List.cons_append] at hmem
      rcases List.mem_cons.mp hmem with rfl | hmem
      · -- it is the one: it has ended with what it was on course for
        rcases C.step hsees hcourse with hdone | ⟨w', hcont, -⟩
        · rw [hadv] at hdone
          cases hdone
          refine .inl ⟨?_, ?_⟩
          · rw [hhandles, ← hi]
            exact hw
          · rw [hres, ← hi, AList.lookup_insert]
        · rw [hadv] at hcont
          cases hcont
      · exact .inr ⟨w₀, hwalks ▸ hmem, hi, hcourse⟩
  · have hhandle := (level_of_continue hadv).1
    have hhandles : (tx.advanceWalk w).handles = tx.handles ++ [w.handle] := by
      rw [Tx.handles, Tx.handles, hpending, hwalks, List.map_append, List.map_singleton, hhandle,
        List.append_assoc]
    refine ⟨?_, ?_⟩
    · rcases h with ⟨hout, hi⟩ | ⟨w₀, hmem, hi, hcourse⟩
      · rw [List.map_cons, List.cons_append, List.mem_cons, not_or] at hout
        refine .inl ⟨fun hmem => ?_, by rw [hres, hi]⟩
        rw [hhandles, ← List.append_assoc] at hmem
        rcases List.mem_append.mp hmem with hmem | hmem
        · exact hout.2 hmem
        · exact hout.1 (List.mem_singleton.mp hmem)
      · rw [List.cons_append] at hmem
        rcases List.mem_cons.mp hmem with rfl | hmem
        · -- it is the one: it goes on, one level deeper
          rcases C.step hsees hcourse with hdone | ⟨w₁, hcont, hcourse'⟩
          · rw [hadv] at hdone
            cases hdone
          · rw [hadv] at hcont
            cases hcont
            refine .inr ⟨w', ?_, hhandle.trans hi, hcourse'⟩
            rw [hwalks]
            simp
        · refine .inr ⟨w₀, ?_, hi, hcourse⟩
          rw [hwalks, ← List.append_assoc]
          exact List.mem_append_left _ hmem
    · rw [hhandles, ← List.append_assoc]
      exact List.Nodup.append hrest (List.nodup_singleton _) fun j hj hj' => hw (List.mem_singleton.mp hj' ▸ hj)

theorem Awaits.foldl {todo : List PWalk} {tx : Tx} (hsees : C.Sees tx)
    (hnodup : (todo.map (·.handle) ++ tx.handles).Nodup) (h : Awaits C todo tx i v) :
    Awaits C [] (todo.foldl Tx.advanceWalk tx) i v := by
  induction todo generalizing tx with
  | nil => exact h
  | cons w todo ih =>
    obtain ⟨hstep, hnodup⟩ := h.advanceWalk hsees hnodup
    exact ih (C.sees_advanceWalk hsees w) hnodup hstep

theorem Awaits.advanceWalks (hf : tx.Fresh) (hsees : C.Sees { tx with pendingWalks := [] })
    (h : Awaits C [] tx i v) : Awaits C [] tx.advanceWalks i v := by
  have hperm : (tx.pendingWalks.map (·.handle) ++ Tx.handles { tx with pendingWalks := [] }).Perm tx.handles := by
    simp only [Tx.handles, List.map_nil, List.append_nil]
    exact List.perm_append_comm
  refine Awaits.foldl hsees (hperm.nodup_iff.mpr hf.1) ?_
  rcases h with ⟨hout, hi⟩ | ⟨w, hmem, hw⟩
  · exact .inl ⟨fun hmem => hout (hperm.subset hmem), hi⟩
  · exact .inr ⟨w, List.mem_append_left _ hmem, hw⟩

theorem Awaits.flushPending (h : Awaits C [] tx i v) : Awaits C [] tx.flushPending i v := by
  have hd := drained_flushPending tx
  rcases h with ⟨hout, hi⟩ | ⟨w, hmem, hw⟩
  · exact .inl ⟨fun hmem => hout (hd.handles.subset hmem), by rw [hd.resolved i hout, hi]⟩
  · exact .inr ⟨w, by rwa [flushPending_walks], hw⟩

/-! ### Forcing -/

theorem flushPending_of_isEmpty (h : tx.pending.isEmpty) : tx.flushPending = tx := by
  have hnil : tx.pending = [] := List.isEmpty_iff.mp h
  have hwith : { tx with pending := [] } = tx := by rw [← hnil]
  unfold Tx.flushPending
  rw [hwith, hnil]
  rfl

theorem drainRound_eq (tx : Tx) : tx.drainRound =
    if tx.pendingWalks.isEmpty then tx.flushPending else tx.flushPending.advanceWalks := by
  unfold drainRound
  dsimp only
  by_cases hp : tx.pending.isEmpty
  · rw [if_pos hp, flushPending_of_isEmpty hp]
  · rw [if_neg hp]

theorem Awaits.drainRound (hf : tx.Fresh) (hholds : C.Holds tx) (h : Awaits C [] tx i v) :
    Awaits C [] tx.drainRound i v := by
  rw [drainRound_eq]
  split_ifs
  · exact h.flushPending
  · exact h.flushPending.advanceWalks ((drained_flushPending tx).fresh hf) (C.sees hholds)

/-- **A drain keeps every lookup on course.** -/
theorem Awaits.drain (hf : tx.Fresh) (hholds : C.Holds tx) (h : Awaits C [] tx i v) (n : ℕ) :
    Awaits C [] (tx.drain n) i v := by
  induction n generalizing tx with
  | zero => exact h
  | succ n ih =>
    rw [drain_succ]
    split_ifs
    · exact h
    · exact ih ((drained_drainRound tx).fresh hf) (C.holds_drainRound hholds) (h.drainRound hf hholds)

/-- **The loop of `force` ends with the value.** -/
theorem Awaits.resolved (hf : tx.Fresh) (hholds : C.Holds tx) (h : Awaits C [] tx i v) :
    (tx.drain (maxLevels + 2)).resolved.lookup i = some v := by
  rcases h.drain hf hholds (maxLevels + 2) with ⟨-, hi⟩ | ⟨w, hmem, -⟩
  · exact hi
  · have hwalks : w.handle ∈ (tx.drain (maxLevels + 2)).handles :=
      List.mem_append_right _ (List.mem_map_of_mem hmem)
    rw [drain_handles] at hwalks
    cases hwalks

theorem Awaits.force (hf : tx.Fresh) (hholds : C.Holds tx) (h : Awaits C [] tx i v) (w : Value) :
    Awaits C [] (tx.force w).1 i v := by
  unfold Tx.force
  split_ifs
  · exact h.drain hf hholds _
  · exact h

/-- Issuing another handle, for a read or a lookup. -/
theorem Awaits.issue {tx' : Tx} (h : Awaits C [] tx i v) (hi : i < tx.nextHandle)
    (hhandles : tx'.handles.Perm (tx.nextHandle :: tx.handles)) (hresolved : tx'.resolved = tx.resolved)
    (hwalks : tx.pendingWalks ⊆ tx'.pendingWalks) : Awaits C [] tx' i v := by
  rcases h with ⟨hout, hres⟩ | ⟨w, hmem, hw⟩
  · refine .inl ⟨fun hmem => ?_, by rw [hresolved, hres]⟩
    rcases List.mem_cons.mp (hhandles.subset hmem) with rfl | hmem
    · exact lt_irrefl _ hi
    · exact hout hmem
  · exact .inr ⟨w, hwalks hmem, hw⟩

/-! ### Where the nodes lead -/

/-- The end of a lookup over the nodes that are found at the cells. -/
def walkEnd (node : U128 → Option Bytes) : ℕ → PWalk → Value
  | 0, w => Value.defaultFor w.valTy
  | n + 1, w =>
    match advancePmapWalk w (node w.cell) with
    | .done v => v
    | .continue w' => walkEnd node n w'

/-- The node that a lookup finds at a cell once the queued reads have been answered. -/
def nodeAt (tx : Tx) (c : U128) : Option Bytes := (tx.flushPending.fetchNode c).2

/-- What a lookup in flight finds. -/
def lookupEnd (tx : Tx) (w : PWalk) : Value := walkEnd (nodeAt tx) (maxLevels + 1) w

/-- What is found at a cell is what has been written or read there, or what lies below the caches. -/
theorem fetchNode_snd (tx : Tx) (c : U128) : (tx.fetchNode c).2 =
    asBytes ((tx.writes.lookup c).getD ((tx.reads.lookup c).getD (tx.storeValue c .bytes))) := by
  unfold Tx.fetchNode
  rw [storeValue_bytes]
  cases tx.writes.lookup c with
  | some v => rfl
  | none => cases tx.reads.lookup c <;> rfl

/-- What is read for a lookup is what would be found there anyway. -/
theorem fetchNode_fetchNode (tx : Tx) (d c : U128) : ((tx.fetchNode d).1.fetchNode c).2 = (tx.fetchNode c).2 := by
  rcases tx.fetchNode_fst d with hf | ⟨hu, hf⟩
  · rw [hf]
  · have hstore : ({ tx with reads := tx.reads.insert d (tx.storeValue d .bytes) } : Tx).storeValue c .bytes =
        tx.storeValue c .bytes := rfl
    rw [hf, fetchNode_snd, fetchNode_snd, hstore]
    dsimp only
    by_cases hc : c = d
    · subst hc
      rw [AList.lookup_insert, hu.2]
      rfl
    · rw [AList.lookup_insert_ne hc]

theorem fetchNode_advanceWalk (tx : Tx) (w : PWalk) (c : U128) :
    ((tx.advanceWalk w).fetchNode c).2 = (tx.fetchNode c).2 := by
  obtain ⟨resolved, walks, hadv, -, -⟩ := tx.advanceWalk_eq w
  rw [← fetchNode_fetchNode tx w.cell c, hadv, fetchNode_snd, fetchNode_snd]
  rfl

theorem fetchNode_advanceWalks (tx : Tx) (c : U128) : (tx.advanceWalks.fetchNode c).2 = (tx.fetchNode c).2 := by
  have hfold : ∀ (l : List PWalk) (t : Tx), ((l.foldl Tx.advanceWalk t).fetchNode c).2 = (t.fetchNode c).2 := by
    intro l
    induction l with
    | nil => exact fun _ => rfl
    | cons w l ih => exact fun t => (ih _).trans (fetchNode_advanceWalk t w c)
  rw [Tx.advanceWalks, hfold, fetchNode_snd, fetchNode_snd]
  rfl

theorem nodeAt_drainRound (tx : Tx) (c : U128) : nodeAt tx.drainRound c = nodeAt tx c := by
  have hflush : tx.drainRound.flushPending = tx.drainRound :=
    flushPending_of_isEmpty (List.isEmpty_iff.mpr (drainRound_pending tx))
  rw [nodeAt, hflush, drainRound_eq, nodeAt]
  split_ifs
  · rfl
  · exact fetchNode_advanceWalks _ c

/-- A lookup in flight is on course for what it finds. -/
def steadyCourse (node : U128 → Option Bytes) : Course where
  To w v := ∃ n, maxLevels ≤ n + w.level ∧ walkEnd node (n + 1) w = v
  Sees tx := ∀ c, (tx.fetchNode c).2 = node c
  Holds tx := ∀ c, nodeAt tx c = node c
  step := by
    rintro tx w v hsees ⟨n, hn, hend⟩
    rw [walkEnd, ← hsees] at hend
    cases hadv : advancePmapWalk w (tx.fetchNode w.cell).2 with
    | done u =>
      rw [hadv] at hend
      exact .inl (congrArg _ hend)
    | «continue» w' =>
      rw [hadv] at hend
      obtain ⟨-, hlevel, hmax⟩ := level_of_continue hadv
      obtain ⟨m, rfl⟩ : ∃ m, n = m + 1 := Nat.exists_eq_succ_of_ne_zero (by omega)
      exact .inr ⟨w', rfl, m, by omega, hend⟩
  sees_advanceWalk hsees w c := (fetchNode_advanceWalk _ w c).trans (hsees c)
  sees hholds c := by
    rw [← hholds c, nodeAt, fetchNode_snd, fetchNode_snd]
    rfl
  holds_drainRound hholds c := (nodeAt_drainRound _ c).trans (hholds c)

/-- **A lookup in flight resolves to what it finds.** -/
theorem resolved_lookup (hf : tx.Fresh) {w : PWalk} (hw : w ∈ tx.pendingWalks) :
    (tx.drain (maxLevels + 2)).resolved.lookup w.handle = some (lookupEnd tx w) := by
  have hawaits : Awaits (steadyCourse (nodeAt tx)) [] tx w.handle (lookupEnd tx w) :=
    .inr ⟨w, hw, rfl, maxLevels, Nat.le_add_right .., rfl⟩
  exact hawaits.resolved hf fun _ => rfl

end Rend.Vm
