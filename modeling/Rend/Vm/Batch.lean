import Rend.Structs.Laid
import Rend.Link.Dispatch
import Rend.Optimize.Pass

/-!
# Reads in a batch and reads one by one

`ReadBatch` asks for all cells of its group at once; the instructions it replaces ask for them one by
one, and a register that holds a handle is forced at some later time. Both give what is stored, whatever
is cached, queued or written and wherever the forces stand (`run_held`, `readBatch_eq`).

The exception is the path to the blob of a group: `KvGetPath` reads the blob as one value, the batch
splits it into the leaf cells of its fields, which are not where the fields are stored.
`readBatch_agrees_iff` is the condition.
-/

namespace Rend.Vm

open Lib Structs Tx

/-- The registers of a frame. -/
abbrev Regs := Reg → Value

/-- The path of an index; an index past the table is a panic. -/
def pathSpec (m : BcModule) (pathIdx : ℕ) : PathSpec := m.pathSpecs.getD pathIdx ⟨0, .unit, false⟩

/-- The cell and the type that a read asks for. -/
def readTarget (m : BcModule) : ReadOp → U128 × Ty
  | .state _ keyIdx => (m.stateRoots.getD keyIdx 0, m.stateTypes.getD keyIdx .unit)
  | .path _ pathIdx => ((pathSpec m pathIdx).leafKey, (pathSpec m pathIdx).leafType)

/-- The read asks for the blob of a group. -/
def readsBlob (m : BcModule) : ReadOp → Bool
  | .state _ _ => false
  | .path _ pathIdx => (pathSpec m pathIdx).isBlob

/-- `KvGet` or `KvGetPath`. -/
def readOne (m : BcModule) (op : ReadOp) (tx : Tx) : Tx × Value :=
  if readsBlob m op then tx.readCell (readTarget m op).1 (readTarget m op).2
  else tx.readState (readTarget m op).1 (readTarget m op).2

/-- `ReadBatch`. -/
def readBatch (m : BcModule) (group : List ReadOp) (s : Tx × Regs) : Tx × Regs :=
  let r := s.1.readTypedMany (group.map (readTarget m))
  (r.1, (group.zip r.2).foldl (fun regs p => Function.update regs p.1.dst p.2) s.2)

/-- An instruction reads a cell, or forces a register. -/
inductive Action
  | read (op : ReadOp)
  | force (r : Reg)

def Action.run (m : BcModule) (s : Tx × Regs) : Action → Tx × Regs
  | .read op => ((readOne m op s.1).1, Function.update s.2 op.dst (readOne m op s.1).2)
  | .force r => ((s.1.force (s.2 r)).1, Function.update s.2 r (s.1.force (s.2 r)).2)

def runActions (m : BcModule) (actions : List Action) (s : Tx × Regs) : Tx × Regs :=
  actions.foldl (Action.run m) s

/-- The reads among some instructions. -/
def readsOf : List Action → List ReadOp
  | [] => []
  | .read op :: actions => op :: readsOf actions
  | .force _ :: actions => readsOf actions

/-- **A batch agrees with the reads it replaces**: the register of each read holds what is forced from
it after the reads one by one, wherever forces stand between them. -/
def BatchAgrees (m : BcModule) (group : List ReadOp) (tx : Tx) : Prop :=
  ∀ regs actions, readsOf actions = group → ∀ op ∈ group,
    ((runActions m actions (tx, regs)).1.force ((runActions m actions (tx, regs)).2 op.dst)).2 =
      (readBatch m group (tx, regs)).2 op.dst

/-! ### The last read into a register -/

/-- The last read of a group into a register. -/
def lastRead : List ReadOp → Reg → Option ReadOp
  | [], _ => none
  | op :: group, r => (lastRead group r).or (if op.dst = r then some op else none)

theorem lastRead_some {group : List ReadOp} {r : Reg} {op : ReadOp} (h : lastRead group r = some op) :
    op ∈ group ∧ op.dst = r := by
  induction group with
  | nil => cases h
  | cons op' group ih =>
    rw [lastRead, Option.or_eq_some_iff] at h
    rcases h with h | ⟨-, h⟩
    · exact ⟨List.mem_cons_of_mem _ (ih h).1, (ih h).2⟩
    · split_ifs at h with hr
      cases h
      exact ⟨List.mem_cons_self, hr⟩

theorem lastRead_isSome {group : List ReadOp} {op : ReadOp} (h : op ∈ group) : (lastRead group op.dst).isSome := by
  induction group with
  | nil => cases h
  | cons op' group ih =>
    rw [lastRead, Option.isSome_or, Bool.or_eq_true]
    rcases List.mem_cons.mp h with rfl | h
    · exact .inr (by rw [if_pos rfl]; rfl)
    · exact .inl (ih h)

/-- After the registers of a group have been set in turn, each holds the value of its last read. -/
theorem foldl_update (value : ReadOp → Value) (group : List ReadOp) (regs : Regs) (r : Reg) :
    (group.foldl (fun regs op => Function.update regs op.dst (value op)) regs) r =
      ((lastRead group r).map value).getD (regs r) := by
  induction group generalizing regs with
  | nil => rfl
  | cons op group ih =>
    rw [List.foldl_cons, ih, lastRead]
    cases lastRead group r with
    | some op' => rfl
    | none =>
      by_cases hr : op.dst = r
      · subst hr
        simp
      · simp [hr, Function.update_of_ne (Ne.symm hr)]

/-! ### The batch -/

/-- **What a batch leaves in the registers.** -/
theorem readBatch_eq (m : BcModule) (group : List ReadOp) (tx : Tx) (regs : Regs) (r : Reg) :
    (readBatch m group (tx, regs)).2 r =
      ((lastRead group r).map fun op => assemble tx.cellValue (readTarget m op).1 (readTarget m op).2).getD
        (regs r) := by
  have hzip : group.zip (tx.readTypedMany (group.map (readTarget m))).2 =
      group.map fun op => (op, assemble tx.cellValue (readTarget m op).1 (readTarget m op).2) := by
    rw [readTypedMany_eq, List.map_map]
    exact List.map_prod_left_eq_zip.symm
  rw [readBatch]
  dsimp only
  rw [hzip, List.foldl_map, foldl_update]

/-! ### One by one -/

variable {Γ : U128 → Ty} {N : Set U128} {m : BcModule} {tx : Tx}

/-- A read keeps to the layout: a blob is one cell of struct type, anything else is split into leaves. -/
def ReadLaid (Γ : U128 → Ty) (m : BcModule) (op : ReadOp) : Prop :=
  if readsBlob m op then
    (readTarget m op).2 = Γ (readTarget m op).1 ∧ ∃ name fields, (readTarget m op).2 = .struct name fields []
  else LaidAt Γ (readTarget m op).1 (readTarget m op).2

/-- What is stored where a read asks. -/
def readValue (Γ : U128 → Ty) (m : BcModule) (tx : Tx) (op : ReadOp) : Value :=
  if readsBlob m op then laidValue Γ tx (readTarget m op).1
  else stored Γ tx (readTarget m op).1 (readTarget m op).2

theorem readValue_congr {tx' : Tx} (h : laidValue Γ tx' = laidValue Γ tx) (op : ReadOp) :
    readValue Γ m tx' op = readValue Γ m tx op := by
  rw [readValue, readValue, stored, stored, h]

/-- What is stored holds no handle that `force` would answer. -/
theorem readValue_clean {tx' : Tx} (h : Laid Γ N tx') (hvalue : laidValue Γ tx' = laidValue Γ tx) (op : ReadOp) :
    containsPending (readValue Γ m tx op) = false := by
  rw [← readValue_congr hvalue]
  unfold readValue
  split_ifs
  · exact h.clean _
  · exact not_pending_assemble (fun c _ => h.clean c) _ _

/-- Either read yields what is stored. -/
theorem readOne_yields (h : Laid Γ N tx) (hf : tx.Fresh) {op : ReadOp} (hlaid : ReadLaid Γ m op) :
    Observes Γ N tx (readOne m op tx).1 ∧ Yields (readOne m op tx).1 (readOne m op tx).2 (readValue Γ m tx op) := by
  unfold ReadLaid at hlaid
  unfold readOne readValue
  split_ifs at hlaid ⊢
  · rw [hlaid.1]
    exact readCell_yields h hf _
  · exact readState_yields h hf _ _ hlaid

/-- **The registers of reads one by one**: each holds what is stored where its last read asked, or a
handle that is promised it. -/
theorem run_held (hN : ∀ c ∈ N, Γ c = .bytes) {actions : List Action}
    (hlaid : ∀ op ∈ readsOf actions, ReadLaid Γ m op) {s : Tx × Regs} (hs : Observes Γ N tx s.1)
    {want : Reg → Option ReadOp} (hwant : ∀ r op, want r = some op → Yields s.1 (s.2 r) (readValue Γ m tx op)) :
    Observes Γ N tx (runActions m actions s).1 ∧ ∀ r op, (lastRead (readsOf actions) r).or (want r) = some op →
      Yields (runActions m actions s).1 ((runActions m actions s).2 r) (readValue Γ m tx op) := by
  induction actions generalizing s want with
  | nil => exact ⟨hs, hwant⟩
  | cons action actions ih =>
    rw [runActions, List.foldl_cons]
    cases action with
    | read op =>
      have hop := hlaid op List.mem_cons_self
      obtain ⟨hobs, hyields⟩ := readOne_yields hs.laid hs.fresh hop
      rw [readValue_congr hs.value] at hyields
      have hwant' : ∀ r op', Function.update want op.dst (some op) r = some op' →
          Yields (readOne m op s.1).1 (Function.update s.2 op.dst (readOne m op s.1).2 r) (readValue Γ m tx op') := by
        intro r op' hr
        by_cases hdst : r = op.dst
        · subst hdst
          rw [Function.update_self] at hr ⊢
          cases hr
          exact hyields
        · rw [Function.update_of_ne hdst] at hr ⊢
          exact hobs.yields _ _ (hwant r op' hr)
      obtain ⟨hobs', hheld⟩ := ih (s := Action.run m s (.read op))
        (fun op' h => hlaid op' (List.mem_cons_of_mem _ h)) (hs.trans hobs) hwant'
      refine ⟨hobs', fun r op' hr => hheld r op' ?_⟩
      rw [readsOf, lastRead, Option.or_assoc] at hr
      rw [← hr]
      by_cases hdst : op.dst = r
      · subst hdst
        simp
      · simp [hdst, Function.update_of_ne (Ne.symm hdst)]
    | force r =>
      have hobs := observes_force hs.laid hs.fresh hN (s.2 r)
      have hwant' : ∀ r' op', want r' = some op' →
          Yields (s.1.force (s.2 r)).1 (Function.update s.2 r (s.1.force (s.2 r)).2 r') (readValue Γ m tx op') := by
        intro r' op' hr
        by_cases hr' : r' = r
        · subst hr'
          rw [Function.update_self, (hwant r' op' hr).force hs.fresh]
          exact .inl ⟨rfl, readValue_clean hs.laid hs.value op'⟩
        · rw [Function.update_of_ne hr']
          exact hobs.yields _ _ (hwant r' op' hr)
      exact ih (s := Action.run m s (.force r)) hlaid (hs.trans hobs) hwant'

/-! ### When they agree -/

/-- **The reads one by one leave what is stored**, once they are forced. -/
theorem run_forced (hN : ∀ c ∈ N, Γ c = .bytes) (h : Laid Γ N tx) (hf : tx.Fresh) (regs : Regs)
    {actions : List Action} (hlaid : ∀ op ∈ readsOf actions, ReadLaid Γ m op) {r : Reg} {op : ReadOp}
    (hlast : lastRead (readsOf actions) r = some op) :
    ((runActions m actions (tx, regs)).1.force ((runActions m actions (tx, regs)).2 r)).2 =
      readValue Γ m tx op := by
  have hstart : Observes Γ N tx (tx, regs).1 := .refl h hf
  obtain ⟨hobs, hheld⟩ := run_held hN hlaid hstart (fun r op (hr : (fun _ => none) r = some op) => by cases hr)
  refine (hheld r op ?_).force hobs.fresh
  rw [hlast, Option.some_or]

/-- A batch leaves what is stored where a read is no blob. -/
theorem readBatch_stored (h : Laid Γ N tx) (regs : Regs) {group : List ReadOp} {r : Reg} {op : ReadOp}
    (hlaid : ReadLaid Γ m op) (hblob : readsBlob m op = false) (hlast : lastRead group r = some op) :
    (readBatch m group (tx, regs)).2 r = readValue Γ m tx op := by
  rw [ReadLaid, hblob, if_neg Bool.false_ne_true] at hlaid
  rw [readBatch_eq, hlast, Option.map_some, Option.getD_some, readValue, hblob, if_neg Bool.false_ne_true,
    h.assemble hlaid]

/-! ### When they agree -/

/-- A transaction that has written one cell and knows of nothing else. -/
def oneWritten (c : U128) (v : Value) : Tx :=
  { Tx.new (fun _ => none) with writes := (∅ : Cells).insert c v }

theorem oneWritten_writes (c : U128) (v : Value) (d : U128) :
    (oneWritten c v).writes.lookup d = if d = c then some v else none := by
  unfold oneWritten
  split_ifs with hd
  · subst hd
    exact AList.lookup_insert _
  · rw [AList.lookup_insert_ne hd]
    rfl

theorem oneWritten_storeValue (c : U128) (v : Value) (d : U128) (ty : Ty) :
    (oneWritten c v).storeValue d ty = Value.defaultFor ty := rfl

/-- A cell that is no node may hold anything that `force` leaves alone. -/
theorem laid_oneWritten (hN : ∀ c ∈ N, Γ c = .bytes) (c : U128) {v : Value} (hv : containsPending v = false)
    (hbytes : asBytes v = none) : Laid Γ N (oneWritten c v) := by
  have hvalue : ∀ d, laidValue Γ (oneWritten c v) d = if d = c then v else Value.defaultFor (Γ d) := by
    intro d
    rw [laidValue, oneWritten_writes, oneWritten_storeValue]
    split_ifs <;> rfl
  refine ⟨fun d w _ hr => ?_, fun p hp => ?_, fun w hw => ?_, fun d hd kt vt bm cs hnode => ?_, fun d => ?_⟩
  · cases hr
  · cases hp
  · cases hw
  · rw [hvalue] at hnode
    split_ifs at hnode
    · rw [hbytes] at hnode
      cases hnode
    · rw [hN d hd] at hnode
      cases hnode
  · rw [hvalue]
    split_ifs
    · exact hv
    · exact containsPending_of_handles _ (handles_defaultFor _)

/-- **A batch agrees with the reads it replaces, in every state, if and only if no register holds a blob
path**: the batch splits the blob into leaf cells that nothing is stored in. -/
theorem readBatch_agrees_iff (hN : ∀ c ∈ N, Γ c = .bytes) (group : List ReadOp)
    (hlaid : ∀ op ∈ group, ReadLaid Γ m op) :
    (∀ tx : Tx, tx.Fresh → Laid Γ N tx → BatchAgrees m group tx) ↔
      ∀ r op, lastRead group r = some op → readsBlob m op = false := by
  constructor
  · intro hagree r op hlast
    by_contra hblob
    rw [Bool.not_eq_false] at hblob
    obtain ⟨hmem, rfl⟩ := lastRead_some hlast
    have hop := hlaid op hmem
    rw [ReadLaid, if_pos hblob] at hop
    obtain ⟨-, name, fields, hty⟩ := hop
    -- a blob cell that holds a unit reads as a unit, and as a struct when it is split
    have h := laid_oneWritten (Γ := Γ) hN (readTarget m op).1 (v := .unit) rfl rfl
    have hf : (oneWritten (readTarget m op).1 .unit).Fresh := ⟨List.nodup_nil, fun i hi => by cases hi⟩
    have hreads : readsOf (group.map Action.read) = group := by
      clear hagree hlaid hlast hmem
      induction group with
      | nil => rfl
      | cons op' group ih => exact congrArg _ ih
    have heq := hagree _ hf h (fun _ => .unit) (group.map .read) hreads op hmem
    rw [run_forced hN h hf _ (by rwa [hreads]) (by rwa [hreads]), readBatch_eq, hlast, Option.map_some,
      Option.getD_some, hty, readValue, if_pos hblob, laidValue, oneWritten_writes, if_pos rfl] at heq
    cases heq
  · rintro hblob tx hf h regs actions rfl op hmem
    obtain ⟨last, hlast⟩ := Option.isSome_iff_exists.mp (lastRead_isSome hmem)
    rw [run_forced hN h hf regs hlaid hlast,
      readBatch_stored h regs (hlaid last (lastRead_some hlast).1) (hblob _ _ hlast) hlast]

/-! ### A group next to another state -/

/-- `struct Profile { group g { x: u64 } }`, the states `a: u64` and `s: Profile`, and the path `s.x`. -/
def profileModule : BcModule :=
  { Link.bareModule "profile" [] [] with
    stateRoots := [1, 2]
    stateTypes := [.u64, .struct "Profile" [("x", .u64)] [some "g"]]
    pathSpecs := [⟨child 2 (strBytes "g"), groupTy "Profile" [("x", .u64)] [some "g"] "g", true⟩] }

/-- The reads of `a + s.x`. -/
def sumReads : List ReadOp := [.state 0 0, .path 1 0]

/-- The layout of these states. -/
def profileLayout (c : U128) : Ty :=
  if c = child 2 (strBytes "g") then groupTy "Profile" [("x", .u64)] [some "g"] "g" else .u64

/-- The state after `s.x = 5`. -/
def fiveWritten : Tx :=
  oneWritten (child 2 (strBytes "g")) (.struct "Profile::group::g" [("x", .u64 5)])

theorem profile_cells : child 2 (strBytes "g") ≠ 1 ∧ child (child 2 (strBytes "g")) (strBytes "x") ≠
    child 2 (strBytes "g") := by
  decide +kernel

theorem profile_laid : ∀ op ∈ sumReads, ReadLaid profileLayout profileModule op := by
  intro op hop
  rcases List.mem_cons.mp hop with rfl | hop
  · intro l hl
    rw [List.mem_singleton.mp hl]
    exact (if_neg profile_cells.1.symm).symm
  · rw [List.mem_singleton.mp hop]
    exact ⟨(if_pos rfl).symm, "Profile::group::g", [("x", .u64)], rfl⟩

/-- The optimizer makes a batch of them. -/
example : (Optimize.optimizeFn ⟨fun _ => none, []⟩
    ⟨[.kvGet 0 0, .kvGetPath 1 0, .fieldGet 1 1 0, .bin .add 2 0 1, .ret 2], []⟩).readGroups =
    [sumReads] := by
  decide

/-- **The batch reads the field as zero.** -/
theorem readBatch_splits_blob : fiveWritten.Fresh ∧ Laid profileLayout ∅ fiveWritten ∧
    ¬ BatchAgrees profileModule sumReads fiveWritten := by
  have hN : ∀ c ∈ (∅ : Set U128), profileLayout c = .bytes := fun c hc => hc.elim
  have hf : fiveWritten.Fresh := ⟨List.nodup_nil, fun i hi => by cases hi⟩
  have h : Laid profileLayout ∅ fiveWritten := laid_oneWritten hN _ rfl rfl
  refine ⟨hf, h, fun hagree => ?_⟩
  have hlast : lastRead sumReads 1 = some (.path 1 0) := rfl
  -- one by one the blob is read as it has been written
  have hone : readValue profileLayout profileModule fiveWritten (.path 1 0) =
      .struct "Profile::group::g" [("x", .u64 5)] := by
    change laidValue profileLayout fiveWritten (child 2 (strBytes "g")) = _
    rw [laidValue, fiveWritten, oneWritten_writes, if_pos rfl, Option.getD_some]
  -- the batch reads a cell below it, which holds nothing
  have hx : fiveWritten.cellValue (child (child 2 (strBytes "g")) (strBytes "x")) .u64 = .u64 0 := by
    rw [Tx.cellValue, fiveWritten, oneWritten_writes, if_neg profile_cells.2]
    rfl
  have hbatch : assemble fiveWritten.cellValue (readTarget profileModule (.path 1 0)).1
      (readTarget profileModule (.path 1 0)).2 = .struct "Profile::group::g" [("x", .u64 0)] := by
    rw [← hx]
    rfl
  have heq := hagree (fun _ => .unit) (sumReads.map .read) rfl (.path 1 0)
    (List.mem_cons_of_mem _ List.mem_cons_self)
  have hforced := run_forced hN h hf (fun _ => .unit) (show ∀ op ∈ readsOf (sumReads.map .read), _ from profile_laid)
    (show lastRead (readsOf (sumReads.map .read)) 1 = _ from hlast)
  have hsame := hforced.symm.trans (heq.trans (readBatch_eq profileModule sumReads fiveWritten _ 1))
  rw [hone, hlast, Option.map_some, Option.getD_some, hbatch] at hsame
  exact absurd hsame (by simp)

/-- The reads `a` and `s.x`, the second of which is a blob path. -/
theorem readBatch_agrees_profile :
    (∀ tx : Tx, tx.Fresh → Laid profileLayout ∅ tx → BatchAgrees profileModule sumReads tx) ↔
      ∀ r op, lastRead sumReads r = some op → readsBlob profileModule op = false :=
  readBatch_agrees_iff (fun _ hc => hc.elim) sumReads profile_laid

end Rend.Vm
