import Rend.Handles
import Rend.Pmap.Trie

/-!
# Reads that are forced at once

A transaction is `Quiet` when nothing is in flight and nothing lies above it. A read of a quiet
transaction whose value is forced at once leaves it quiet, in lazy mode too: it answers with what the
caches or the store hold and caches it (`Quiet.readForced`).
-/

namespace Rend

open Lib Pmap Tx

/-! ### Reading and forcing -/

namespace Tx

/-- Nothing is in flight, and the transaction is no shadow. -/
structure Quiet (tx : Tx) : Prop where
  pending : tx.pending = []
  walks : tx.pendingWalks = []
  root : tx.ancestors = []

variable {tx tx' : Tx}

theorem Quiet.parentLookup (h : tx.Quiet) (c : U128) : tx.parentLookup c = none := by
  rw [Tx.parentLookup, h.root]
  rfl

theorem Quiet.storeValue (h : tx.Quiet) (c : U128) (ty : Ty) :
    tx.storeValue c ty = observed tx.kv c ty (Value.defaultFor ty) := by
  rw [Tx.storeValue, h.parentLookup]
  rfl

theorem Quiet.drain (h : tx.Quiet) (n : ℕ) : tx.drain n = tx := by
  cases n with
  | zero => rfl
  | succ n => rw [Tx.drain, h.pending, h.walks]; rfl

/-- Reads a cell and forces the value. -/
def readForced (tx : Tx) (c : U128) (ty : Ty) : Tx × Value := (tx.readCell c ty).1.force (tx.readCell c ty).2

/-- Forcing the read that has just been queued answers it. -/
theorem Quiet.force_queue (h : tx.Quiet) (c : U128) (ty : Ty) : ∃ resolved,
    (tx.queue c ty).1.force (.pending tx.nextHandle) =
      ({ tx with reads := tx.reads.insert c (tx.storeValue c ty), resolved := resolved,
                 nextHandle := tx.nextHandle + 1 }, tx.storeValue c ty) := by
  have hnone : (tx.queue c ty).1.parentLookup c = none := h.parentLookup c
  have hpending : (tx.queue c ty).1.pending = [⟨tx.nextHandle, c, ty⟩] := by simp [queue, h.pending]
  have hwalks : (tx.queue c ty).1.pendingWalks = [] := h.walks
  have hflush : (tx.queue c ty).1.flushPending =
      { tx with reads := tx.reads.insert c (tx.storeValue c ty),
                resolved := tx.resolved.insert tx.nextHandle (tx.storeValue c ty),
                nextHandle := tx.nextHandle + 1 } := by
    rw [flushPending_eq, answerOrder, hpending]
    simp only [List.filter_cons, hnone, List.filter_nil]
    simp [observe, queue, Tx.storeValue, Tx.parentLookup, h.pending]
  have hquiet : ((tx.queue c ty).1.flushPending).Quiet := by
    rw [hflush]
    exact ⟨h.pending, h.walks, h.root⟩
  have hdrain : (tx.queue c ty).1.drain (maxLevels + 2) = (tx.queue c ty).1.flushPending := by
    rw [show maxLevels + 2 = (maxLevels + 1) + 1 from rfl, Tx.drain]
    simp only [hpending, hwalks, List.isEmpty_cons, Bool.false_and, List.isEmpty_nil, if_true,
      Bool.false_eq_true, if_false]
    exact hquiet.drain (maxLevels + 1)
  refine ⟨tx.resolved.insert tx.nextHandle (tx.storeValue c ty), ?_⟩
  have hforce : (tx.queue c ty).1.force (.pending tx.nextHandle) =
      ((tx.queue c ty).1.flushPending,
        substituteResolved (tx.queue c ty).1.flushPending.resolved (.pending tx.nextHandle)) := by
    simp only [Tx.force, containsPending, if_true, hdrain]
  rw [hforce, hflush, substituteResolved, AList.lookup_insert, Option.getD_some]

/-- **A read that is forced at once** answers with what was written, else with what is cached, else
with what the store holds, and then caches it. -/
theorem Quiet.readForced (h : tx.Quiet) (c : U128) (ty : Ty) :
    (∀ v, tx.writes.lookup c = some v → containsPending v = false → tx.readForced c ty = (tx, v)) ∧
    (tx.writes.lookup c = none → ∀ v, tx.reads.lookup c = some v → containsPending v = false →
      tx.readForced c ty = (tx, v)) ∧
    (tx.writes.lookup c = none → tx.reads.lookup c = none → ∃ resolved next,
      tx.readForced c ty = ({ tx with reads := tx.reads.insert c (tx.storeValue c ty), resolved := resolved,
                                      nextHandle := next }, tx.storeValue c ty)) := by
  refine ⟨fun v hw hv => ?_, fun hw v hr hv => ?_, fun hw hr => ?_⟩
  · rw [Tx.readForced, readCell, hw]
    exact force_eq_of_not_pending hv tx
  · rw [Tx.readForced, readCell, hw, hr]
    exact force_eq_of_not_pending hv tx
  · have hsettled : containsPending (tx.storeValue c ty) = false := by
      rw [h.storeValue]
      exact containsPending_of_handles _ (handles_observed _ _ _)
    rcases tx.readCell_cases c ty with ⟨-, hs⟩ | ⟨-, -, hs⟩ | ⟨-, he⟩ | ⟨-, he⟩
    · rw [hw] at hs
      cases hs
    · rw [hr] at hs
      cases hs
    · refine ⟨tx.resolved, tx.nextHandle, ?_⟩
      rw [Tx.readForced, he]
      exact force_eq_of_not_pending hsettled _
    · obtain ⟨resolved, hforce⟩ := h.force_queue c ty
      refine ⟨resolved, tx.nextHandle + 1, ?_⟩
      rw [Tx.readForced, he]
      exact hforce

/-- Without ancestors the two ways of reading a cell are one. -/
theorem Quiet.readTyped (h : tx.Quiet) (c : U128) (ty : Ty) : tx.readTyped c ty = tx.readCell c ty := by
  unfold Tx.readTyped readCell
  rw [h.parentLookup]

end Tx

end Rend
