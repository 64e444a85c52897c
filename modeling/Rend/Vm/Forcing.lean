import Rend.Structs.Write
import Rend.Vm.Awaits

/-!
# What forcing leaves behind

`force` looks for handles through arrays, sets, tuples, dicts and structs (`contains_pending`,
`substitute_resolved`). The payload of an enum is not among them, although `MakeEnum` fills it with
registers as they are. `mem_handles_force` says which handles a forced value still holds: those that
stand where `force` does not look, and those of other transactions.

So forcing is complete on a value exactly when no handle is hidden and each is one of this transaction
(`forcedCompletely_iff`); then writes store no handle either.
-/

namespace Rend

open Lib Pmap

mutual

/-- The handles that `force` does not see: in payloads of enums, in json, in cursors. -/
def hiddenHandles : Value → List ℕ
  | .pending _ => []
  | .array elems => hiddenHandlesList elems
  | .set elems => hiddenHandlesList elems
  | .tuple elems => hiddenHandlesList elems
  | .struct _ fields => hiddenHandlesFields fields
  | .dict pairs => hiddenHandlesPairs pairs
  | v => handles v
  termination_by structural x => x

def hiddenHandlesList : List Value → List ℕ
  | [] => []
  | v :: vs => hiddenHandles v ++ hiddenHandlesList vs
  termination_by structural x => x

def hiddenHandlesFields : List (String × Value) → List ℕ
  | [] => []
  | (_, v) :: fs => hiddenHandles v ++ hiddenHandlesFields fs
  termination_by structural x => x

def hiddenHandlesPairs : List (Value × Value) → List ℕ
  | [] => []
  | (k, v) :: ps => hiddenHandles k ++ hiddenHandles v ++ hiddenHandlesPairs ps
  termination_by structural x => x

end

mutual

/-- A value with an answer in place of each pending read, through every constructor that the machine
fills from registers. -/
def answered (answer : ℕ → Value) : Value → Value
  | .pending id => answer id
  | .array elems => .array (answeredList answer elems)
  | .set elems => .set (answeredList answer elems)
  | .tuple elems => .tuple (answeredList answer elems)
  | .dict pairs => .dict (answeredPairs answer pairs)
  | .struct name fields => .struct name (answeredFields answer fields)
  | .enum enumName variant payload => .enum enumName variant (answeredList answer payload)
  | v => v
  termination_by structural x => x

def answeredList (answer : ℕ → Value) : List Value → List Value
  | [] => []
  | v :: vs => answered answer v :: answeredList answer vs
  termination_by structural x => x

def answeredFields (answer : ℕ → Value) : List (String × Value) → List (String × Value)
  | [] => []
  | (n, v) :: fs => (n, answered answer v) :: answeredFields answer fs
  termination_by structural x => x

def answeredPairs (answer : ℕ → Value) : List (Value × Value) → List (Value × Value)
  | [] => []
  | (k, v) :: ps => (answered answer k, answered answer v) :: answeredPairs answer ps
  termination_by structural x => x

end

section Answered

variable {answer : ℕ → Value}

mutual

/-- A value without handles is its own answer. -/
theorem answered_of_handles (v : Value) (h : handles v = []) : answered answer v = v := by
  cases v with
  | pending id => cases h
  | array elems => rw [answered, answeredList_of_handles elems h]
  | set elems => rw [answered, answeredList_of_handles elems h]
  | tuple elems => rw [answered, answeredList_of_handles elems h]
  | struct name fields => rw [answered, answeredFields_of_handles fields h]
  | dict pairs => rw [answered, answeredPairs_of_handles pairs h]
  | enum enumName variant payload => rw [answered, answeredList_of_handles payload h]
  | _ => rfl

theorem answeredList_of_handles (vs : List Value) (h : handlesList vs = []) : answeredList answer vs = vs := by
  cases vs with
  | nil => rfl
  | cons v vs =>
    rw [handlesList, List.append_eq_nil_iff] at h
    rw [answeredList, answered_of_handles v h.1, answeredList_of_handles vs h.2]

theorem answeredFields_of_handles (fs : List (String × Value)) (h : handlesFields fs = []) :
    answeredFields answer fs = fs := by
  cases fs with
  | nil => rfl
  | cons f fs =>
    obtain ⟨n, v⟩ := f
    rw [handlesFields, List.append_eq_nil_iff] at h
    rw [answeredFields, answered_of_handles v h.1, answeredFields_of_handles fs h.2]

theorem answeredPairs_of_handles (ps : List (Value × Value)) (h : handlesPairs ps = []) :
    answeredPairs answer ps = ps := by
  cases ps with
  | nil => rfl
  | cons p ps =>
    obtain ⟨k, v⟩ := p
    rw [handlesPairs, List.append_eq_nil_iff, List.append_eq_nil_iff] at h
    rw [answeredPairs, answered_of_handles k h.1.1, answered_of_handles v h.1.2, answeredPairs_of_handles ps h.2]

end

end Answered

/-! ### Substitution and the handles it leaves -/

section Substitution

variable {resolved : AList fun _ : ℕ => Value} {answer : ℕ → Value}

mutual

/-- Where no handle is hidden, substitution answers all of them. -/
theorem substituteResolved_eq_answered (v : Value) (h : hiddenHandles v = [])
    (hres : ∀ i ∈ handles v, resolved.lookup i = some (answer i)) :
    substituteResolved resolved v = answered answer v := by
  cases v with
  | pending id => rw [substituteResolved, hres id List.mem_cons_self, Option.getD_some, answered]
  | array elems => rw [substituteResolved, answered, substituteResolvedList_eq_answered elems h hres]
  | set elems => rw [substituteResolved, answered, substituteResolvedList_eq_answered elems h hres]
  | tuple elems => rw [substituteResolved, answered, substituteResolvedList_eq_answered elems h hres]
  | struct name fields => rw [substituteResolved, answered, substituteResolvedFields_eq_answered fields h hres]
  | dict pairs => rw [substituteResolved, answered, substituteResolvedPairs_eq_answered pairs h hres]
  | enum enumName variant payload => exact (answered_of_handles (.enum enumName variant payload) h).symm
  | _ => rfl

theorem substituteResolvedList_eq_answered (vs : List Value) (h : hiddenHandlesList vs = [])
    (hres : ∀ i ∈ handlesList vs, resolved.lookup i = some (answer i)) :
    substituteResolvedList resolved vs = answeredList answer vs := by
  cases vs with
  | nil => rfl
  | cons v vs =>
    rw [hiddenHandlesList, List.append_eq_nil_iff] at h
    rw [handlesList, List.forall_mem_append] at hres
    rw [substituteResolvedList, answeredList, substituteResolved_eq_answered v h.1 hres.1,
      substituteResolvedList_eq_answered vs h.2 hres.2]

theorem substituteResolvedFields_eq_answered (fs : List (String × Value)) (h : hiddenHandlesFields fs = [])
    (hres : ∀ i ∈ handlesFields fs, resolved.lookup i = some (answer i)) :
    substituteResolvedFields resolved fs = answeredFields answer fs := by
  cases fs with
  | nil => rfl
  | cons f fs =>
    obtain ⟨n, v⟩ := f
    rw [hiddenHandlesFields, List.append_eq_nil_iff] at h
    rw [handlesFields, List.forall_mem_append] at hres
    rw [substituteResolvedFields, answeredFields, substituteResolved_eq_answered v h.1 hres.1,
      substituteResolvedFields_eq_answered fs h.2 hres.2]

theorem substituteResolvedPairs_eq_answered (ps : List (Value × Value)) (h : hiddenHandlesPairs ps = [])
    (hres : ∀ i ∈ handlesPairs ps, resolved.lookup i = some (answer i)) :
    substituteResolvedPairs resolved ps = answeredPairs answer ps := by
  cases ps with
  | nil => rfl
  | cons p ps =>
    obtain ⟨k, v⟩ := p
    rw [hiddenHandlesPairs, List.append_eq_nil_iff, List.append_eq_nil_iff] at h
    rw [handlesPairs, List.forall_mem_append, List.forall_mem_append] at hres
    rw [substituteResolvedPairs, answeredPairs, substituteResolved_eq_answered k h.1.1 hres.1.1,
      substituteResolved_eq_answered v h.1.2 hres.1.2, substituteResolvedPairs_eq_answered ps h.2 hres.2]

end

/-- A handle that is left at one of two places is left at either. -/
theorem left_or {a b hidden₁ hidden₂ handles₁ handles₂ unresolved : Prop}
    (ha : a ↔ hidden₁ ∨ handles₁ ∧ unresolved) (hb : b ↔ hidden₂ ∨ handles₂ ∧ unresolved) :
    (a ∨ b) ↔ (hidden₁ ∨ hidden₂) ∨ (handles₁ ∨ handles₂) ∧ unresolved := by
  rw [ha, hb]
  tauto

mutual

/-- The handles that substitution leaves: hidden ones, and those without an answer. -/
theorem mem_handles_substituteResolved (hres : Settled resolved) (v : Value) {i : ℕ} :
    i ∈ handles (substituteResolved resolved v) ↔
      i ∈ hiddenHandles v ∨ (i ∈ handles v ∧ resolved.lookup i = none) := by
  have hsame : ∀ {w : Value}, i ∈ handles w ↔ i ∈ handles w ∨ (i ∈ handles w ∧ resolved.lookup i = none) :=
    ⟨.inl, fun h => h.elim id And.left⟩
  cases v with
  | pending id =>
    rw [substituteResolved, hiddenHandles, handles, List.mem_singleton]
    cases h : resolved.lookup id with
    | none =>
      rw [Option.getD_none, handles, List.mem_singleton]
      exact ⟨fun hi => .inr ⟨hi, hi ▸ h⟩, fun hi => (hi.resolve_left (List.not_mem_nil)).1⟩
    | some w =>
      rw [Option.getD_some, hres id w h]
      refine ⟨fun hi => absurd hi List.not_mem_nil, fun hi => ?_⟩
      obtain ⟨rfl, hnone⟩ := hi.resolve_left List.not_mem_nil
      rw [h] at hnone
      cases hnone
  | array elems => exact mem_handles_substituteResolvedList hres elems
  | set elems => exact mem_handles_substituteResolvedList hres elems
  | tuple elems => exact mem_handles_substituteResolvedList hres elems
  | struct name fields => exact mem_handles_substituteResolvedFields hres fields
  | dict pairs => exact mem_handles_substituteResolvedPairs hres pairs
  | _ => exact hsame

theorem mem_handles_substituteResolvedList (hres : Settled resolved) (vs : List Value) {i : ℕ} :
    i ∈ handlesList (substituteResolvedList resolved vs) ↔
      i ∈ hiddenHandlesList vs ∨ (i ∈ handlesList vs ∧ resolved.lookup i = none) := by
  cases vs with
  | nil => simp [substituteResolvedList, handlesList, hiddenHandlesList]
  | cons v vs =>
    simp only [substituteResolvedList, handlesList, hiddenHandlesList, List.mem_append]
    exact left_or (mem_handles_substituteResolved hres v) (mem_handles_substituteResolvedList hres vs)

theorem mem_handles_substituteResolvedFields (hres : Settled resolved) (fs : List (String × Value)) {i : ℕ} :
    i ∈ handlesFields (substituteResolvedFields resolved fs) ↔
      i ∈ hiddenHandlesFields fs ∨ (i ∈ handlesFields fs ∧ resolved.lookup i = none) := by
  cases fs with
  | nil => simp [substituteResolvedFields, handlesFields, hiddenHandlesFields]
  | cons f fs =>
    obtain ⟨n, v⟩ := f
    simp only [substituteResolvedFields, handlesFields, hiddenHandlesFields, List.mem_append]
    exact left_or (mem_handles_substituteResolved hres v) (mem_handles_substituteResolvedFields hres fs)

theorem mem_handles_substituteResolvedPairs (hres : Settled resolved) (ps : List (Value × Value)) {i : ℕ} :
    i ∈ handlesPairs (substituteResolvedPairs resolved ps) ↔
      i ∈ hiddenHandlesPairs ps ∨ (i ∈ handlesPairs ps ∧ resolved.lookup i = none) := by
  cases ps with
  | nil => simp [substituteResolvedPairs, handlesPairs, hiddenHandlesPairs]
  | cons p ps =>
    obtain ⟨k, v⟩ := p
    simp only [substituteResolvedPairs, handlesPairs, hiddenHandlesPairs, List.mem_append]
    exact left_or (left_or (mem_handles_substituteResolved hres k) (mem_handles_substituteResolved hres v))
      (mem_handles_substituteResolvedPairs hres ps)

end

end Substitution

mutual

/-- A value that `force` passes by hides all its handles. -/
theorem hiddenHandles_of_not_pending (v : Value) (h : containsPending v = false) :
    hiddenHandles v = handles v := by
  cases v with
  | pending id => cases h
  | array elems => exact hiddenHandlesList_of_not_pending elems h
  | set elems => exact hiddenHandlesList_of_not_pending elems h
  | tuple elems => exact hiddenHandlesList_of_not_pending elems h
  | struct name fields => exact hiddenHandlesFields_of_not_pending fields h
  | dict pairs => exact hiddenHandlesPairs_of_not_pending pairs h
  | _ => rfl

theorem hiddenHandlesList_of_not_pending (vs : List Value) (h : containsPendingList vs = false) :
    hiddenHandlesList vs = handlesList vs := by
  cases vs with
  | nil => rfl
  | cons v vs =>
    rw [containsPendingList, Bool.or_eq_false_iff] at h
    rw [hiddenHandlesList, handlesList, hiddenHandles_of_not_pending v h.1,
      hiddenHandlesList_of_not_pending vs h.2]

theorem hiddenHandlesFields_of_not_pending (fs : List (String × Value)) (h : containsPendingFields fs = false) :
    hiddenHandlesFields fs = handlesFields fs := by
  cases fs with
  | nil => rfl
  | cons f fs =>
    obtain ⟨n, v⟩ := f
    rw [containsPendingFields, Bool.or_eq_false_iff] at h
    rw [hiddenHandlesFields, handlesFields, hiddenHandles_of_not_pending v h.1,
      hiddenHandlesFields_of_not_pending fs h.2]

theorem hiddenHandlesPairs_of_not_pending (ps : List (Value × Value)) (h : containsPendingPairs ps = false) :
    hiddenHandlesPairs ps = handlesPairs ps := by
  cases ps with
  | nil => rfl
  | cons p ps =>
    obtain ⟨k, v⟩ := p
    rw [containsPendingPairs, Bool.or_eq_false_iff, Bool.or_eq_false_iff] at h
    rw [hiddenHandlesPairs, handlesPairs, hiddenHandles_of_not_pending k h.1.1,
      hiddenHandles_of_not_pending v h.1.2, hiddenHandlesPairs_of_not_pending ps h.2]

end

namespace Vm

open Tx

/-! ### Forcing a value -/

/-- The value of the read behind a handle: what the store holds for a queued read, what the lookup
finds for one in flight, and otherwise what has been found before. -/
def answer (tx : Tx) (i : ℕ) : Value :=
  match tx.pending.find? fun p => p.id = i with
  | some p => tx.storeValue p.key p.ty
  | none =>
    match tx.pendingWalks.find? fun w => w.handle = i with
    | some w => lookupEnd tx w
    | none => (tx.resolved.lookup i).getD (.pending i)

/-- Forcing a value gives what it should: every handle has its answer, none is left, and none is
stored by a write. -/
structure ForcedCompletely (tx : Tx) (v : Value) : Prop where
  answers : (tx.force v).2 = answered (answer tx) v
  settled : handles (tx.force v).2 = []
  written : tx.StoresSettled → ∀ key, (tx.write key v).StoresSettled
  writtenTyped : tx.StoresSettled → ∀ key ty, (tx.writeTyped key ty v).StoresSettled

variable {tx : Tx} {i : ℕ}

/-- **A known handle resolves to its answer.** -/
theorem resolved_answer (hf : tx.Fresh) (hi : Known tx i) :
    (tx.drain (maxLevels + 2)).resolved.lookup i = some (answer tx i) := by
  obtain ⟨v, hv⟩ := Option.isSome_iff_exists.mp (resolved_of_known hi)
  unfold answer
  cases hp : tx.pending.find? fun p => p.id = i with
  | some p =>
    have hid : p.id = i := by simpa using List.find?_some hp
    have hforce : (tx.force (.pending i)).2 =
        ((tx.drain (maxLevels + 2)).resolved.lookup i).getD (.pending i) := rfl
    have hqueued := force_pending hf (List.mem_of_find?_eq_some hp)
    rw [hid, hforce, hv, Option.getD_some] at hqueued
    rw [hv, hqueued]
  | none =>
    cases hw : tx.pendingWalks.find? fun w => w.handle = i with
    | some w =>
      have hhandle : w.handle = i := by simpa using List.find?_some hw
      rw [← hhandle]
      exact resolved_lookup hf (List.mem_of_find?_eq_some hw)
    | none =>
      -- a handle of neither queue keeps what it has resolved to
      have hout : i ∉ tx.handles := by
        intro hmem
        rcases List.mem_append.mp hmem with hmem | hmem
        · obtain ⟨p, hmem, hid⟩ := List.mem_map.mp hmem
          simpa [hid] using List.find?_eq_none.mp hp p hmem
        · obtain ⟨w, hmem, hid⟩ := List.mem_map.mp hmem
          simpa [hid] using List.find?_eq_none.mp hw w hmem
      have hkept := (drained_drain (maxLevels + 2) tx).resolved i hout
      rw [hv] at hkept
      rw [hv, ← hkept]
      rfl

/-- **The handles that a forced value still holds.** -/
theorem mem_handles_force (h : DeferInv tx []) (v : Value) :
    i ∈ handles (tx.force v).2 ↔ i ∈ hiddenHandles v ∨ (i ∈ handles v ∧ ¬ Known tx i) := by
  unfold Tx.force
  split_ifs with hp
  · dsimp only
    have hsettled := settled_drain (maxLevels + 2) (handles_storeValue h.above) h.settled
    have hunknown : (tx.drain (maxLevels + 2)).resolved.lookup i = none ↔ ¬ Known tx i := by
      refine ⟨fun hnone hi => ?_, fun hi => ?_⟩
      · have := resolved_of_known hi
        rw [hnone] at this
        cases this
      · rw [Known, not_or] at hi
        rw [(drained_drain _ tx).resolved i hi.1]
        exact Option.not_isSome_iff_eq_none.mp hi.2
    rw [mem_handles_substituteResolved hsettled, hunknown]
  · rw [hiddenHandles_of_not_pending v (Bool.eq_false_iff.mpr hp)]
    exact ⟨.inl, fun hi => hi.elim id And.left⟩

/-- **Forcing is complete exactly on the values that hide no handle and hold none of another
transaction.** -/
theorem forcedCompletely_iff (h : DeferInv tx []) (hf : tx.Fresh) (v : Value) :
    ForcedCompletely tx v ↔ hiddenHandles v = [] ∧ ∀ i ∈ handles v, Known tx i := by
  constructor
  · intro hforced
    have hnone : ∀ i, ¬ (i ∈ hiddenHandles v ∨ (i ∈ handles v ∧ ¬ Known tx i)) := by
      intro i hi
      rw [← mem_handles_force h, hforced.settled] at hi
      cases hi
    refine ⟨List.eq_nil_iff_forall_not_mem.mpr fun i hi => hnone i (.inl hi), fun i hi => ?_⟩
    by_contra hunknown
    exact hnone i (.inr ⟨hi, hunknown⟩)
  · rintro ⟨hhidden, hknown⟩
    have hsettled : handles (tx.force v).2 = [] := by
      refine List.eq_nil_iff_forall_not_mem.mpr fun i hi => ?_
      rcases (mem_handles_force h v).mp hi with hi | ⟨hi, hunknown⟩
      · rw [hhidden] at hi
        cases hi
      · exact hunknown (hknown i hi)
    have hstores : tx.StoresSettled → (tx.force v).1.StoresSettled := fun hs => by
      unfold StoresSettled
      rwa [(drained_force tx v).writes_eq]
    refine ⟨?_, hsettled, fun hs key => ?_, fun hs key ty => ?_⟩
    · unfold Tx.force
      split_ifs with hp
      · exact substituteResolved_eq_answered v hhidden fun i hi => resolved_answer hf (hknown i hi)
      · refine (answered_of_handles v ?_).symm
        rw [← hiddenHandles_of_not_pending v (Bool.eq_false_iff.mpr hp), hhidden]
    · have hwrite := storesSettled_write (hstores hs) hsettled key
      rwa [write_settled hsettled] at hwrite
    · rw [writeTyped_force (containsPending_of_handles _ hsettled)]
      exact storesSettled_writeTyped (hstores hs) key ty hsettled

/-- A transaction in lazy mode that has one read in flight. -/
def oneInFlight : Tx := (Tx.queue { kv := fun _ => none, lazy := true } 7 .u64).1

theorem oneInFlight_inv : DeferInv oneInFlight [] where
  settled _ _ h := by cases h
  reads _ _ h := by cases h
  above _ h := by cases h
  writes _ _ h := by cases h
  held _ h := by cases h

theorem oneInFlight_fresh : oneInFlight.Fresh := by decide

/-- The read twice in a struct, once inside an array. -/
theorem forcedCompletely_struct :
    ForcedCompletely oneInFlight (.struct "P" [("a", .pending 0), ("b", .array [.pending 0, .u64 1])]) := by
  refine (forcedCompletely_iff oneInFlight_inv oneInFlight_fresh _).mpr ⟨rfl, fun i hi => ?_⟩
  have hzero : i = 0 := by simpa [handles, handlesFields, handlesList] using hi
  rw [hzero]
  exact .inl List.mem_cons_self

/-- The read in the payload of an enum: forcing passes it by, and a write stores it. -/
theorem force_passes_payload :
    Known oneInFlight 0 ∧ ¬ ForcedCompletely oneInFlight (.enum "Option" "Some" [.pending 0]) ∧
      (oneInFlight.write 9 (.enum "Option" "Some" [.pending 0])).writes.lookup 9 =
        some (.enum "Option" "Some" [.pending 0]) := by
  refine ⟨.inl List.mem_cons_self, fun h => ?_, rfl⟩
  have hsettled : [0] = [] := h.settled
  cases hsettled

end Vm

end Rend
