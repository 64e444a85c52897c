import Rend.Vm.Collections

/-!
# The operations behind the instructions

What the instructions on persistent maps and on counters do, in terms of the operations that runs, walks and
counters are stated with: on registers without handles, `PMapPut` is `Rocks.pmapPut`, `PBTreePut` is `pbtreePut`,
and so on. `Reserve` is `Tx.reserve` on any register.
-/

namespace Rend.Vm.Data

open Lib Tx

variable {α β : Type} {m : BcModule} {tx : Tx} {regs : List Value} {c root : U128} {kt vt : Ty} {bound : ℕ}
  {stateIdx : ℕ} {dst keyReg src : Reg}

/-! ### Steps -/

/-- Carries out one step. -/
theorem run_bind {x : DataM α} {k : α → DataM β} {s s' : Frame} {a : α} (h : x s = .ok (a, s')) :
    (x >>= k) s = k a s' := by
  change (x s >>= fun p => k p.1 p.2) = k a s'
  rw [h]
  rfl

theorem set_reg (regs : List Value) (r : Reg) : regs.set r (reg regs r) = regs := by
  by_cases h : r < regs.length
  · rw [reg, List.getD_eq_getElem regs .unit h]
    exact List.set_getElem_self h
  · exact List.set_eq_of_length_le (Nat.le_of_not_lt h)

/-- A register without handles stays as it is. -/
theorem forceReg_settled {r : Reg} (h : containsPending (reg regs r) = false) (tx : Tx) :
    forceReg r (tx, regs) = .ok (reg regs r, tx, regs) := by
  have hforce : tx.force (reg regs r) = (tx, reg regs r) := force_eq_of_not_pending h tx
  have hrun : forceReg r (tx, regs) =
      .ok ((tx.force (reg regs r)).2, (tx.force (reg regs r)).1, regs.set r (tx.force (reg regs r)).2) := rfl
  rw [hrun, hforce, set_reg]

theorem stateOf_pmap (h : stateAt m stateIdx = some (c, .pmap kt vt)) :
    pmapKind.stateOf m stateIdx = some ⟨c, .pmap kt vt, kt, vt⟩ := by
  rw [MapKind.stateOf, h]
  rfl

theorem stateOf_pbtree (h : stateAt m stateIdx = some (c, .pbtree kt vt)) :
    (pbtreeKind bound).stateOf m stateIdx = some ⟨c, .pbtree kt vt, kt, vt⟩ := by
  rw [MapKind.stateOf, h]
  rfl

theorem recordTypes_run (h : stateAt m stateIdx = some (c, .pmap kt vt)) (s : Frame) :
    recordTypes m stateIdx s = .ok ((), s.1.recordPmapTypes c kt vt, s.2) := by
  rw [recordTypes, stateOf_pmap h]
  rfl

/-! ### Persistent maps -/

/-- How an operation that can fail ends. -/
def ended (regs : List Value) : Except String Tx → Except Fault (Unit × Frame)
  | .ok tx => .ok ((), tx, regs)
  | .error e => .error (.runtime e)

/-- A new root of a sorted map is stored, unless there is none. -/
theorem pbtree_store_run (r : Tx × Except String U128) (regs : List Value) :
    (do let newRoot ← ask fun _ => r; (pbtreeKind bound).store ⟨c, .pbtree kt vt, kt, vt⟩ newRoot : DataM Unit)
        (tx, regs) =
      ended regs (match r with
        | (tx, .ok newRoot) => .ok (tx.write c (.pbtree newRoot))
        | (_, .error e) => .error e) := by
  obtain ⟨tx', e | newRoot⟩ := r <;> rfl

section Maps

variable (hkey : containsPending (reg regs keyReg) = false)
include hkey

theorem pmapPut_run (h : stateAt m stateIdx = some (c, .pmap kt vt)) (hvalue : containsPending (reg regs src) = false) :
    pmapPut m stateIdx keyReg src (tx, regs) =
      .ok ((), Rocks.pmapPut tx c kt vt (reg regs keyReg) (reg regs src), regs) := by
  rw [pmapPut, run_bind (recordTypes_run h _), MapKind.putAt, run_bind (forceReg_settled hkey _),
    run_bind (forceReg_settled hvalue _), stateOf_pmap h]
  rfl

theorem pmapGet_run (h : stateAt m stateIdx = some (c, .pmap kt vt)) :
    pmapGet m dst stateIdx keyReg (tx, regs) =
      .ok ((), (Rocks.pmapGet tx c kt vt (reg regs keyReg)).1,
        regs.set dst (Rocks.pmapGet tx c kt vt (reg regs keyReg)).2) := by
  rw [pmapGet, run_bind (recordTypes_run h _), run_bind (forceReg_settled hkey _), stateOf_pmap h]
  rfl

theorem pmapDelete_run (h : stateAt m stateIdx = some (c, .pmap kt vt)) :
    pmapKind.delete m stateIdx keyReg (tx, regs) = .ok ((), Rocks.pmapDelete tx c kt vt (reg regs keyReg), regs) := by
  rw [MapKind.delete, run_bind (forceReg_settled hkey _), stateOf_pmap h]
  rfl

theorem pbtreePut_run (h : stateAt m stateIdx = some (c, .pbtree kt vt))
    (hvalue : containsPending (reg regs src) = false) :
    (pbtreeKind bound).putAt m stateIdx keyReg src (tx, regs) =
      ended regs (pbtreePut bound tx c kt vt (reg regs keyReg) (reg regs src)) := by
  rw [MapKind.putAt, run_bind (forceReg_settled hkey _), run_bind (forceReg_settled hvalue _), stateOf_pbtree h,
    pbtreePut]
  change (pbtreeKind bound).insert ⟨c, .pbtree kt vt, kt, vt⟩ (asPbtreeRoot (readRootCell tx c kt vt).2) _ _
    ((readRootCell tx c kt vt).1, regs) = _
  generalize readRootCell tx c kt vt = r
  exact pbtree_store_run _ _

theorem pbtreeDelete_run (h : stateAt m stateIdx = some (c, .pbtree kt vt)) :
    (pbtreeKind bound).delete m stateIdx keyReg (tx, regs) =
      ended regs (pbtreeDelete bound tx c kt vt (reg regs keyReg)) := by
  rw [MapKind.delete, run_bind (forceReg_settled hkey _), stateOf_pbtree h, pbtreeDelete]
  change (pbtreeKind bound).erase ⟨c, .pbtree kt vt, kt, vt⟩ (asPbtreeRoot (readRootCell tx c kt vt).2) _
    ((readRootCell tx c kt vt).1, regs) = _
  generalize readRootCell tx c kt vt = r
  exact pbtree_store_run _ _

end Maps

theorem pmapWalkInit_run (h : stateAt m stateIdx = some (c, .pmap kt vt)) :
    pmapWalkInit m dst stateIdx (tx, regs) =
      .ok ((), (Vm.pmapWalkInit tx c kt vt).1, regs.set dst (pmapCursorValue (Vm.pmapWalkInit tx c kt vt).2)) := by
  rw [pmapWalkInit, stateOf_pmap h]
  rfl

/-! ### Counters -/

def reserveFault (X : Outside) : ReserveError → Fault
  | .countNotAnInteger got =>
    unexpected X "`reserve N from ...` count must be a non-negative integer, got " got
  | .stateNotU64 got => unexpected X "`reserve ... from <state>`: state must be u64, got " got

/-- `Reserve` hands out what `Tx.reserve` does. -/
theorem reserve_run (X : Outside) (countReg : Reg) (h : m.stateRoots[stateIdx]? = some root) :
    reserve X m dst stateIdx countReg (tx, regs) =
      match tx.reserve root (reg regs countReg) with
      | (tx', .ok ids) => .ok ((), tx', (regs.set countReg (tx.force (reg regs countReg)).2).set dst ids)
      | (_, .error e) => .error (reserveFault X e) := by
  have hforce : forceReg countReg (tx, regs) = .ok ((tx.force (reg regs countReg)).2,
      (tx.force (reg regs countReg)).1, regs.set countReg (tx.force (reg regs countReg)).2) := rfl
  rw [reserve, run_bind hforce, Tx.reserve]
  generalize tx.force (reg regs countReg) = r
  obtain ⟨tx₁, countV⟩ := r
  dsimp only
  cases hn : valueToU64Arr countV with
  | none => rfl
  | some n =>
    dsimp only
    have hroot : (orPanic (some root) : DataM U128) (tx₁, regs.set countReg countV) =
      .ok (root, tx₁, regs.set countReg countV) := rfl
    have hprev : ask (fun tx => tx.readTypedMany [(root, .u64)]) (tx₁, regs.set countReg countV) =
      .ok ((tx₁.readTypedMany [(root, .u64)]).2, (tx₁.readTypedMany [(root, .u64)]).1, regs.set countReg countV) := rfl
    rw [h, run_bind hroot, run_bind hprev]
    generalize tx₁.readTypedMany [(root, .u64)] = prevs
    generalize prevs.2.headD .unit = prevV
    cases prevV <;> rfl

end Rend.Vm.Data
