import Rend.Lib.SeekWalk
import Rend.Pbtree.Footprint

/-!
# Walking a sorted map while the loop body writes to it

A loop over a `pbtree` state holds no nodes, only the key it has yielded last. Each advance reads the root
as it is now and asks for the first entry above that key, so the body may put and delete entries of the same
map between two steps.

While the keys and values that are put are such as the store keeps at their types, the root stands for
the bindings of each moment (`HoldsTree`), and the walk seeks in these bindings (`TreeLoop.sound`); what it
yields is then a matter of `SeekWalk` alone (`treeLoop_safe`). A value that does not read back hides its leaf from
the walk (`treeLoop_unreadable`).
-/

namespace Rend.Vm

open Lib Pbtree Tx Structs

open Pmap (RoundTrips Op RefMap refStep)

/-! ### The cursor -/

/-- A cursor into a sorted map (`PBTreeStableCursor`). -/
structure PBTreeCursor where
  rootCell : U128
  lastYielded : Option Value
  keyTy : Ty
  valueTy : Ty

/-- `PBTreeWalkInit` on the map whose root is at `c`. -/
def pbtreeWalkInit (c : U128) (kt vt : Ty) : PBTreeCursor := ⟨c, none, kt, vt⟩

/-- Reads the cell of a root (`read_cell` and `force`). -/
def readRootCell (tx : Tx) (c : U128) (kt vt : Ty) : Tx × Value :=
  let (tx, v) := tx.readCell c (.pbtree kt vt)
  tx.force v

/-- The root a value gives for a sorted map. -/
def asPbtreeRoot : Value → U128
  | .pbtree h => h
  | _ => emptyRoot

/-- `pbtree_walk_advance_stable`. -/
def pbtreeWalkAdvance (fuel : ℕ) (cursor : PBTreeCursor) (tx : Tx) : Tx × PBTreeCursor × Option (Value × Value) :=
  match readRootCell tx cursor.rootCell cursor.keyTy cursor.valueTy with
  | (tx, .pbtree rootHash) =>
    match firstGreaterThan fuel rootHash cursor.lastYielded tx cursor.keyTy cursor.valueTy with
    | (tx, some (k, v)) => (tx, { cursor with lastYielded := some k }, some (k, v))
    | (tx, none) => (tx, cursor, none)
  | (tx, _) => (tx, cursor, none)

/-- `PBTreePut` of a key and a value that have been forced. -/
def pbtreePut (fuel : ℕ) (tx : Tx) (c : U128) (kt vt : Ty) (key value : Value) : Except String Tx :=
  let (tx, rootV) := readRootCell tx c kt vt
  match set fuel (asPbtreeRoot rootV) key value tx kt vt with
  | (tx, .ok newRoot) => .ok (tx.write c (.pbtree newRoot))
  | (_, .error e) => .error e

/-- `PBTreeDelete` of a key that has been forced. -/
def pbtreeDelete (fuel : ℕ) (tx : Tx) (c : U128) (kt vt : Ty) (key : Value) : Except String Tx :=
  let (tx, rootV) := readRootCell tx c kt vt
  match remove fuel (asPbtreeRoot rootV) key tx kt vt with
  | (tx, .ok newRoot) => .ok (tx.write c (.pbtree newRoot))
  | (_, .error e) => .error e

/-! ### The loop -/

/-- What the loop body does with its transaction: calls on the map that is walked, and reads. -/
inductive TreeOp
  | call (op : Op)
  | force (v : Value)
  | read (d : U128) (ty : Ty)

def TreeOp.run (fuel : ℕ) (c : U128) (kt vt : Ty) (tx : Tx) : TreeOp → Except String Tx
  | .call (.set key value) => pbtreePut fuel tx c kt vt key value
  | .call (.remove key) => pbtreeDelete fuel tx c kt vt key
  | .force v => .ok (tx.force v).1
  | .read d ty => .ok (tx.readCell d ty).1

/-- What a body operation makes of the bindings of the map. -/
def TreeOp.bindings (m : RefMap) : TreeOp → RefMap
  | .call op => refStep m op
  | _ => m

def TreeOp.calls : TreeOp → ℕ
  | .call _ => 1
  | _ => 0

/-- The steps of a loop over the map at `c`, from a transaction and the bindings that the map has there: body
operations that satisfy `P` and steps of the cursor (`PBTreeWalkNext`), in any order. With what the cursor has
yielded, the bindings of the moment, and the number of calls. -/
inductive TreeLoop (fuel : ℕ) (c : U128) (kt vt : Ty) (P : TreeOp → Prop) (s : Tx × RefMap) :
    List (Visit Value Value) → Tx → PBTreeCursor → RefMap → ℕ → Prop
  | init : TreeLoop fuel c kt vt P s [] s.1 (pbtreeWalkInit c kt vt) s.2 0
  | body {us : List (Visit Value Value)} {tx tx' : Tx} {cursor : PBTreeCursor} {m : RefMap} {n : ℕ}
      (h : TreeLoop fuel c kt vt P s us tx cursor m n) (op : TreeOp) (hop : P op)
      (hrun : op.run fuel c kt vt tx = .ok tx') : TreeLoop fuel c kt vt P s us tx' cursor (op.bindings m) (n + op.calls)
  | next {us : List (Visit Value Value)} {tx tx' : Tx} {cursor cursor' : PBTreeCursor} {m : RefMap} {n : ℕ}
      {key value : Value} (h : TreeLoop fuel c kt vt P s us tx cursor m n)
      (hadv : pbtreeWalkAdvance fuel cursor tx = (tx', cursor', some (key, value))) :
      TreeLoop fuel c kt vt P s (us ++ [⟨m, key, value⟩]) tx' cursor' m n

/-! ### The map at its cell -/

variable {Γ : U128 → Ty} {N : Set U128} {c : U128} {kt vt : Ty} {n fuel : ℕ} {m : RefMap} {tx tx' : Tx} {root : U128}
  {es : List (Value × Value)}

/-- The cell holds the root of a tree over the nodes logged so far, with these entries. -/
structure RootAt (Γ : U128 → Ty) (N : Set U128) (c : U128) (kt vt : Ty) (n : ℕ) (root : U128)
    (es : List (Value × Value)) (tx : Tx) : Prop where
  laid : Laid Γ N tx
  fresh : tx.Fresh
  shown : LogShown nodeCellKey tx
  value : laidValue Γ tx c = .pbtree root
  rooted : Rooted kt vt tx.nodeLog n root es

/-- The map at the cell has these bindings. -/
def HoldsTree (Γ : U128 → Ty) (N : Set U128) (c : U128) (kt vt : Ty) (n : ℕ) (m : RefMap) (tx : Tx) : Prop :=
  ∃ root es, RootAt Γ N c kt vt n root es tx ∧ Lists es m

/-- What a cell of bytes shows is its value. -/
theorem shows_eq_asBytes (h : Laid Γ N tx) (hf : tx.Fresh) {d : U128} (hd : Γ d = .bytes) :
    tx.shows d = asBytes (laidValue Γ tx d) := by
  unfold Tx.shows laidValue
  cases hw : tx.writes.lookup d with
  | some v => rfl
  | none =>
    have hsettles : tx.Settles d := by
      refine ⟨hf, fun v hv => ?_, fun p hp hkey => ?_⟩
      · rw [h.cached d v hw hv, hd]
      · rw [h.pending p hp, hkey, hd]
    dsimp only
    rw [if_pos hsettles, hd, Option.getD_none]

/-- What is shown stays shown where the cells of the nodes keep their values. -/
theorem logShown_of_laid (h : Laid Γ N tx) (hf : tx.Fresh) (h' : Laid Γ N tx') (hf' : tx'.Fresh)
    (hlog : tx'.nodeLog = tx.nodeLog) (hown : OwnLaid Γ N tx)
    (hvalue : ∀ d ∈ ownCells tx, laidValue Γ tx' d = laidValue Γ tx d) (hs : LogShown nodeCellKey tx) :
    LogShown nodeCellKey tx' := by
  intro e he
  rw [hlog] at he
  have hmem : nodeCellKey e ∈ ownCells tx := ⟨e, he, rfl⟩
  obtain ⟨hne, hshow⟩ := hs e he
  refine ⟨hne, ?_⟩
  rw [shows_eq_asBytes h' hf' (hown _ hmem).1, hvalue _ hmem, ← shows_eq_asBytes h hf (hown _ hmem).1]
  exact hshow

/-- Looking at cells leaves the map as it is. -/
theorem RootAt.observes (h : RootAt Γ N c kt vt n root es tx) (hown : OwnLaid Γ N tx) (ho : Observes Γ N tx tx')
    (hlog : tx'.nodeLog = tx.nodeLog) : RootAt Γ N c kt vt n root es tx' := by
  refine ⟨ho.laid, ho.fresh, ?_, ?_, ?_⟩
  · exact logShown_of_laid h.laid h.fresh ho.laid ho.fresh hlog hown (fun d _ => by rw [ho.value]) h.shown
  · rw [ho.value]
    exact h.value
  · rw [hlog]
    exact h.rooted

theorem readRootCell_nodeLog (tx : Tx) (c : U128) (kt vt : Ty) : (readRootCell tx c kt vt).1.nodeLog = tx.nodeLog := by
  rw [readRootCell]
  exact (drained_force _ _).nodeLog_eq.trans (readCell_nodeLog tx c _)

/-- Reading the root. -/
theorem RootAt.readRootCell (h : RootAt Γ N c kt vt n root es tx) (hN : ∀ d ∈ N, Γ d = .bytes)
    (hc : Γ c = .pbtree kt vt) (hown : OwnLaid Γ N tx) :
    RootAt Γ N c kt vt n root es (readRootCell tx c kt vt).1 ∧ (readRootCell tx c kt vt).2 = .pbtree root := by
  obtain ⟨hread, hyields⟩ := readCell_yields h.laid h.fresh c
  rw [hc, h.value] at hyields
  rw [hc] at hread
  have hobs := hread.trans (observes_force hread.laid hread.fresh hN (tx.readCell c (.pbtree kt vt)).2)
  exact ⟨h.observes hown hobs (readRootCell_nodeLog tx c kt vt), hyields.force hread.fresh⟩

theorem RootAt.not_own (h : Γ c = .pbtree kt vt) (hown : OwnLaid Γ N tx) : c ∉ ownCells tx := by
  intro hc
  have hbytes := (hown c hc).1
  rw [h] at hbytes
  cases hbytes

/-- Writing a root over the one the cell holds. -/
theorem RootAt.write {n' : ℕ} {root' : U128} {es' : List (Value × Value)} (h : RootAt Γ N c kt vt n root es tx)
    (hc : Γ c = .pbtree kt vt) (hcN : c ∉ N) (hown : OwnLaid Γ N tx)
    (hroot : Rooted kt vt tx.nodeLog n' root' es') : RootAt Γ N c kt vt n' root' es' (tx.write c (.pbtree root')) := by
  have hwrite := changes_write h.laid h.fresh hcN (v := .pbtree root') rfl
  have hlog := write_nodeLog tx c (.pbtree root')
  refine ⟨hwrite.laid, hwrite.fresh, ?_, ?_, ?_⟩
  · refine logShown_of_laid h.laid h.fresh hwrite.laid hwrite.fresh hlog hown (fun d hd => hwrite.frame d ?_) h.shown
    rintro rfl
    exact RootAt.not_own hc hown hd
  · rw [laidValue_write rfl, if_pos rfl]
  · rw [hlog]
    exact hroot

/-- Steps on nodes leave the cell of the root as it is. -/
theorem RootAt.own (h : RootAt Γ N c kt vt n root es tx) (hN : ∀ d ∈ N, Γ d = .bytes) (hc : Γ c = .pbtree kt vt)
    (hsteps : OwnSteps tx tx') (hown : OwnLaid Γ N tx') (hS : Apart nodeCellKey {e | e ∈ tx'.nodeLog}) :
    RootAt Γ N c kt vt n root es tx' := by
  have hchange := hsteps.changes hN h.laid h.fresh hown
  refine ⟨hchange.laid, hchange.fresh, hsteps.keySteps.logShown hS h.shown, ?_, ?_⟩
  · rw [hchange.frame c (RootAt.not_own hc hown)]
    exact h.value
  · exact h.rooted.imp_right fun htree => htree.log hsteps.keySteps.log_subset

/-! ### One step of the loop -/

/-- A call on the map whose root is at `c`, which stays where the call fails. -/
def callAt (fuel : ℕ) (tx : Tx) (c : U128) (kt vt : Ty) (op : Op) : Tx :=
  let s := step fuel kt vt ((readRootCell tx c kt vt).1, asPbtreeRoot (readRootCell tx c kt vt).2) op
  s.1.write c (.pbtree s.2)

theorem run_call_eq {op : Op} (h : (TreeOp.call op).run fuel c kt vt tx = .ok tx') :
    tx' = callAt fuel tx c kt vt op := by
  cases op with
  | set key value =>
    rw [TreeOp.run, pbtreePut] at h
    rw [callAt, step]
    dsimp only at h ⊢
    generalize set fuel (asPbtreeRoot (readRootCell tx c kt vt).2) key value (readRootCell tx c kt vt).1 kt vt = r at h ⊢
    obtain ⟨tx₁, _ | root⟩ := r
    · cases h
    · cases h
      rfl
  | remove key =>
    rw [TreeOp.run, pbtreeDelete] at h
    rw [callAt, step]
    dsimp only at h ⊢
    generalize remove fuel (asPbtreeRoot (readRootCell tx c kt vt).2) key (readRootCell tx c kt vt).1 kt vt = r at h ⊢
    obtain ⟨tx₁, _ | root⟩ := r
    · cases h
    · cases h
      rfl

theorem callAt_log_subset (fuel : ℕ) (tx : Tx) (c : U128) (kt vt : Ty) (op : Op) :
    tx.nodeLog ⊆ (callAt fuel tx c kt vt op).nodeLog := by
  rw [callAt, write_nodeLog, ← readRootCell_nodeLog tx c kt vt]
  have hsteps := step_steps fuel kt vt ((readRootCell tx c kt vt).1, asPbtreeRoot (readRootCell tx c kt vt).2) op
  exact hsteps.log_subset

theorem run_log_subset {op : TreeOp} (h : op.run fuel c kt vt tx = .ok tx') : tx.nodeLog ⊆ tx'.nodeLog := by
  cases op with
  | call op =>
    rw [run_call_eq h]
    exact callAt_log_subset ..
  | force v =>
    cases h
    rw [(drained_force tx v).nodeLog_eq]
    exact List.Subset.refl _
  | read d ty =>
    cases h
    rw [readCell_nodeLog]
    exact List.Subset.refl _

/-- **A call on the map** leaves it with the bindings it should have. -/
theorem HoldsTree.call (hkt : IsKeyTy kt) (hN : ∀ d ∈ N, Γ d = .bytes) (hc : Γ c = .pbtree kt vt) (hcN : c ∉ N)
    (h : HoldsTree Γ N c kt vt n m tx) (hn : n ≤ fuel) {op : Op} (hop : Storable kt vt op)
    (hown : OwnLaid Γ N (callAt fuel tx c kt vt op))
    (hS : Apart nodeCellKey {e | e ∈ (callAt fuel tx c kt vt op).nodeLog}) :
    HoldsTree Γ N c kt vt (n + 1) (refStep m op) (callAt fuel tx c kt vt op) := by
  obtain ⟨root, es, hat, hl⟩ := h
  obtain ⟨hread, hvalue⟩ := hat.readRootCell hN hc (hown.of_subset (callAt_log_subset fuel tx c kt vt op))
  have hcall : callAt fuel tx c kt vt op = (step fuel kt vt ((readRootCell tx c kt vt).1, root) op).1.write c
      (.pbtree (step fuel kt vt ((readRootCell tx c kt vt).1, root) op).2) := by
    rw [callAt, hvalue]
    rfl
  rw [hcall] at hown hS ⊢
  generalize (readRootCell tx c kt vt).1 = tx₁ at *
  have hsteps := @step_own kt vt n fuel root es tx₁ hread.shown hread.rooted op
  obtain ⟨es', hroot, hl'⟩ : ∃ es', Rooted kt vt (step fuel kt vt (tx₁, root) op).1.nodeLog (n + 1)
      (step fuel kt vt (tx₁, root) op).2 es' ∧ Lists es' (refStep m op) := by
    cases op with
    | set key value => exact step_set hkt hread.shown hread.rooted hl hn hop.1 hop.2
    | remove key => exact step_remove hkt hread.shown hread.rooted hl hn hop
  have hlog := write_nodeLog (step fuel kt vt (tx₁, root) op).1 c (.pbtree (step fuel kt vt (tx₁, root) op).2)
  rw [hlog] at hS
  have hown' : OwnLaid Γ N (step fuel kt vt (tx₁, root) op).1 := hown.of_subset (by rw [hlog]; exact List.Subset.refl _)
  exact ⟨_, es', (hread.own hN hc hsteps hown' hS).write hc hcN hown' hroot, hl'⟩

/-- A call on keys and values that the store keeps does not fail. -/
theorem HoldsTree.run_call (hkt : IsKeyTy kt) (hN : ∀ d ∈ N, Γ d = .bytes) (hc : Γ c = .pbtree kt vt)
    (h : HoldsTree Γ N c kt vt n m tx) (hn : n ≤ fuel) {op : Op} (hop : Storable kt vt op) (hown : OwnLaid Γ N tx) :
    ∃ tx', (TreeOp.call op).run fuel c kt vt tx = .ok tx' := by
  obtain ⟨root, es, hat, -⟩ := h
  obtain ⟨hread, hvalue⟩ := hat.readRootCell hN hc hown
  have hroot : asPbtreeRoot (readRootCell tx c kt vt).2 = root := by
    rw [hvalue]
    rfl
  generalize hr : readRootCell tx c kt vt = r at hread hroot
  obtain ⟨tx₁, v⟩ := r
  dsimp only at hread hroot
  cases op with
  | set key value =>
    obtain ⟨res, hres⟩ := set_ok hkt hread.shown hread.rooted hn hop.1 hop.2
    rw [TreeOp.run, pbtreePut, hr]
    dsimp only
    rw [hroot]
    generalize set fuel root key value tx₁ kt vt = s at hres
    obtain ⟨tx₂, res'⟩ := s
    subst hres
    exact ⟨_, rfl⟩
  | remove key =>
    obtain ⟨res, hres⟩ := remove_ok hkt hread.shown hread.rooted hn hop
    rw [TreeOp.run, pbtreeDelete, hr]
    dsimp only
    rw [hroot]
    generalize remove fuel root key tx₁ kt vt = s at hres
    obtain ⟨tx₂, res'⟩ := s
    subst hres
    exact ⟨_, rfl⟩

/-- An advance only reads. -/
theorem pbtreeWalkAdvance_nodeLog (fuel : ℕ) (cursor : PBTreeCursor) (tx : Tx) :
    (pbtreeWalkAdvance fuel cursor tx).1.nodeLog = tx.nodeLog := by
  have hroot := readRootCell_nodeLog tx cursor.rootCell cursor.keyTy cursor.valueTy
  rw [pbtreeWalkAdvance]
  generalize readRootCell tx cursor.rootCell cursor.keyTy cursor.valueTy = r at hroot
  obtain ⟨tx₁, v⟩ := r
  cases v with
  | pbtree rootHash =>
    have hfirst := (firstGreaterThan_reads fuel rootHash cursor.lastYielded tx₁ cursor.keyTy cursor.valueTy).nodeLog
    dsimp only
    generalize firstGreaterThan fuel rootHash cursor.lastYielded tx₁ cursor.keyTy cursor.valueTy = q at hfirst
    obtain ⟨tx₂, _ | ⟨k, v⟩⟩ := q
    · exact hfirst.trans hroot
    · exact hfirst.trans hroot
  | _ => exact hroot

theorem HoldsTree.separate (hkt : IsKeyTy kt) (h : HoldsTree Γ N c kt vt n m tx) : Separate Pbtree.rank m := by
  obtain ⟨root, es, hat, hl⟩ := h
  have hkeys := (hat.rooted.sorted hkt hat.shown).2
  intro k v k' v' hk hk' heq
  exact (hkeys _ ((hl k v).mpr hk)).rank_injective (hkeys _ ((hl k' v').mpr hk')) heq

/-- **An advance** yields the first binding above the last key, or nothing where there is none. -/
theorem HoldsTree.advance (hkt : IsKeyTy kt) (hN : ∀ d ∈ N, Γ d = .bytes) (hc : Γ c = .pbtree kt vt)
    (h : HoldsTree Γ N c kt vt n m tx) (hn : n ≤ fuel) (hown : OwnLaid Γ N tx)
    (hS : Apart nodeCellKey {e | e ∈ tx.nodeLog}) {last : Option Value} (hlast : ∀ t ∈ last, KeyOf kt t) :
    ∃ tx', HoldsTree Γ N c kt vt n m tx' ∧
      ((∃ k v, pbtreeWalkAdvance fuel ⟨c, last, kt, vt⟩ tx = (tx', ⟨c, some k, kt, vt⟩, some (k, v)) ∧
          Seeks Pbtree.rank m last k v ∧ KeyOf kt k) ∨
        pbtreeWalkAdvance fuel ⟨c, last, kt, vt⟩ tx = (tx', ⟨c, last, kt, vt⟩, none) ∧
          ∀ k v, m k = some v → ¬ Beyond Pbtree.rank last k) := by
  obtain ⟨root, es, hat, hl⟩ := h
  obtain ⟨hread, hvalue⟩ := hat.readRootCell hN hc hown
  have hlog := readRootCell_nodeLog tx c kt vt
  rw [pbtreeWalkAdvance]
  dsimp only
  generalize readRootCell tx c kt vt = r at hread hvalue hlog
  obtain ⟨tx₁, rootV⟩ := r
  dsimp only at hread hvalue hlog
  subst hvalue
  dsimp only
  obtain ⟨hsorted, hkeys⟩ := hread.rooted.sorted hkt hread.shown
  have hsteps := @firstGreaterThan_own kt vt n fuel root es tx₁ hread.shown hread.rooted last
  have hfirst := firstGreaterThan_eq hkt hread.shown hread.rooted hn hlast
  have hlog' := (firstGreaterThan_reads fuel root last tx₁ kt vt).nodeLog.trans hlog
  rw [← hlog'] at hS
  have hheld := hread.own hN hc hsteps (hown.of_subset (by rw [hlog']; exact List.Subset.refl _)) hS
  generalize firstGreaterThan fuel root last tx₁ kt vt = q at hfirst hheld
  obtain ⟨tx₂, next⟩ := q
  dsimp only at hfirst hheld
  refine ⟨tx₂, ⟨root, es, hheld, hl⟩, ?_⟩
  cases next with
  | some e =>
    obtain ⟨k, v⟩ := e
    obtain ⟨hk, habove, hleast⟩ := (firstAbove_eq_some_iff hsorted hkeys hl hlast k v).mp hfirst.symm
    exact .inl ⟨k, v, rfl, ⟨hk, habove, hleast⟩, hkeys _ ((hl k v).mpr hk)⟩
  | none =>
    refine .inr ⟨rfl, fun k v hk hbeyond => ?_⟩
    have hmem := (hl k v).mpr hk
    exact List.find?_eq_none.mp hfirst.symm _ hmem ((isAbove_iff (hkeys _ hmem) hlast).mpr hbeyond)

/-! ### Any number of steps -/

/-- A body operation that the map carries out well: what is put is read back as it is, and a cell is read at
its type. -/
def TreeOp.Keeps (Γ : U128 → Ty) (kt vt : Ty) : TreeOp → Prop
  | .call op => Storable kt vt op
  | .force _ => True
  | .read d ty => ty = Γ d

/-- **A body operation.** -/
theorem HoldsTree.body (hkt : IsKeyTy kt) (hN : ∀ d ∈ N, Γ d = .bytes) (hc : Γ c = .pbtree kt vt) (hcN : c ∉ N)
    (h : HoldsTree Γ N c kt vt n m tx) {op : TreeOp} (hn : n + op.calls ≤ fuel) (hop : op.Keeps Γ kt vt)
    (hrun : op.run fuel c kt vt tx = .ok tx') (hown : OwnLaid Γ N tx')
    (hS : Apart nodeCellKey {e | e ∈ tx'.nodeLog}) : HoldsTree Γ N c kt vt (n + op.calls) (op.bindings m) tx' := by
  have hbefore := hown.of_subset (run_log_subset hrun)
  cases op with
  | call op =>
    rw [run_call_eq hrun] at hown hS ⊢
    exact h.call hkt hN hc hcN (Nat.le_of_succ_le hn) hop hown hS
  | force v =>
    obtain ⟨root, es, hat, hl⟩ := h
    cases hrun
    have hobs := observes_force hat.laid hat.fresh hN v
    exact ⟨root, es, hat.observes hbefore hobs (drained_force tx v).nodeLog_eq, hl⟩
  | read d ty =>
    obtain ⟨root, es, hat, hl⟩ := h
    cases hrun
    have hobs := (readCell_yields hat.laid hat.fresh d).1
    rw [← (show ty = Γ d from hop)] at hobs
    exact ⟨root, es, hat.observes hbefore hobs (readCell_nodeLog tx d ty), hl⟩

/-- **The loop seeks** in the bindings of each moment. -/
theorem TreeLoop.sound (hkt : IsKeyTy kt) (hN : ∀ d ∈ N, Γ d = .bytes) (hc : Γ c = .pbtree kt vt) (hcN : c ∉ N)
    {s : Tx × RefMap} {n₀ : ℕ} (hstart : HoldsTree Γ N c kt vt n₀ s.2 s.1) {us : List (Visit Value Value)}
    {cursor : PBTreeCursor} (h : TreeLoop fuel c kt vt (TreeOp.Keeps Γ kt vt) s us tx cursor m n)
    (hfuel : n₀ + n ≤ fuel) (hown : OwnLaid Γ N tx) (hS : Apart nodeCellKey {e | e ∈ tx.nodeLog}) :
    HoldsTree Γ N c kt vt (n₀ + n) m tx ∧
      ∃ last, cursor = ⟨c, last, kt, vt⟩ ∧ SeekWalk Pbtree.rank us last ∧ ∀ t ∈ last, KeyOf kt t := by
  induction h with
  | init => exact ⟨hstart, none, rfl, .start, fun t ht => (by cases ht)⟩
  | @body us tx tx' cursor m n h op hop hrun ih =>
    have hlog := run_log_subset hrun
    obtain ⟨hheld, hcursor⟩ := ih (by omega) (hown.of_subset hlog) (hS.mono fun e he => hlog he)
    rw [← Nat.add_assoc]
    exact ⟨hheld.body hkt hN hc hcN (by omega) hop hrun hown hS, hcursor⟩
  | @next us tx tx' cursor cursor' m n key value h hadv ih =>
    have hlog := pbtreeWalkAdvance_nodeLog fuel cursor tx
    rw [hadv] at hlog
    dsimp only at hlog
    have hbefore : OwnLaid Γ N tx := hown.of_subset (by rw [hlog]; exact List.Subset.refl _)
    rw [hlog] at hS
    obtain ⟨hheld, last, rfl, hwalk, hlast⟩ := ih hfuel hbefore hS
    obtain ⟨tx₁, hheld', ⟨k, v, hr, hseeks, hk⟩ | ⟨hr, -⟩⟩ := hheld.advance hkt hN hc hfuel hbefore hS hlast
    · rw [hadv] at hr
      cases hr
      refine ⟨hheld', some key, rfl, hwalk.next ⟨m, key, value⟩ (hheld.separate hkt) hseeks, fun t ht => ?_⟩
      cases ht
      exact hk
    · rw [hadv] at hr
      cases hr

/-- **A loop over a sorted map is safe while its body writes to the map.** In every state that body operations
and steps of the cursor lead to, where what has been put reads back as it is, the visits so far are as they
should be; a further call on the map does not fail; and where the next advance yields nothing, every key
that is bound has been reached or passed. -/
theorem treeLoop_safe (hkt : IsKeyTy kt) (hN : ∀ d ∈ N, Γ d = .bytes) (hc : Γ c = .pbtree kt vt) (hcN : c ∉ N)
    {s : Tx × RefMap} {n₀ : ℕ} (hstart : HoldsTree Γ N c kt vt n₀ s.2 s.1) {us : List (Visit Value Value)}
    {cursor : PBTreeCursor} (h : TreeLoop fuel c kt vt (TreeOp.Keeps Γ kt vt) s us tx cursor m n)
    (hfuel : n₀ + n ≤ fuel) (hown : OwnLaid Γ N tx) (hS : Apart nodeCellKey {e | e ∈ tx.nodeLog}) :
    MutationSafe Pbtree.rank us ∧ (∀ op, Storable kt vt op → ∃ tx', (TreeOp.call op).run fuel c kt vt tx = .ok tx') ∧
      ((pbtreeWalkAdvance fuel cursor tx).2.2 = none → ∀ k v, m k = some v → ∃ u ∈ us,
        Pbtree.rank k ≤ Pbtree.rank u.key) := by
  obtain ⟨hheld, last, rfl, hwalk, hlast⟩ := h.sound hkt hN hc hcN hstart hfuel hown hS
  refine ⟨hwalk.mutationSafe, fun op hop => hheld.run_call hkt hN hc hfuel hop hown, fun hnone k v hk => ?_⟩
  obtain ⟨tx₁, -, ⟨k', v', hr, -, -⟩ | ⟨-, hend⟩⟩ := hheld.advance hkt hN hc hfuel hown hS hlast
  · rw [hr] at hnone
    cases hnone
  · exact hwalk.ended hend hk

/-! ### Loops that run -/

/-- A layout with a sorted map at cell 7. -/
def treeLayout (kt vt : Ty) (d : U128) : Ty := if d = 7 then .pbtree kt vt else .bytes

/-- A transaction on an empty store, whose map has no bindings. -/
def emptyTree : Tx × RefMap := (Tx.new fun _ => none, fun _ => none)

theorem emptyTree_holds (kt vt : Ty) : HoldsTree (treeLayout kt vt) ∅ 7 kt vt 0 emptyTree.2 emptyTree.1 := by
  have hvalue : ∀ d, laidValue (treeLayout kt vt) emptyTree.1 d = Value.defaultFor (treeLayout kt vt d) := fun d => rfl
  refine ⟨emptyRoot, [], ⟨⟨fun d v _ hr => (by cases hr), fun p hp => (by cases hp), fun w hw => (by cases hw),
    fun d hd => hd.elim, fun d => ?_⟩, ⟨List.nodup_nil, fun i hi => (by cases hi)⟩, fun e he => (by cases he), ?_,
    .inl ⟨rfl, rfl⟩⟩, fun k v => ?_⟩
  · rw [hvalue]
    exact containsPending_of_handles _ (handles_defaultFor _)
  · rw [hvalue, treeLayout, if_pos rfl]
    rfl
  · simp [emptyTree]

theorem ownLaid_of_ne (h : ∀ e ∈ tx.nodeLog, nodeCellKey e ≠ 7) : OwnLaid (treeLayout kt vt) ∅ tx := by
  rintro d ⟨e, he, rfl⟩
  exact ⟨if_neg (h e he), fun hd => hd.elim⟩

variable {P : TreeOp → Prop} {s : Tx × RefMap} {us : List (Visit Value Value)} {cursor : PBTreeCursor}

/-- A call that does not fail. -/
theorem TreeLoop.call (h : TreeLoop fuel c kt vt P s us tx cursor m n) (op : Op) (hop : P (.call op))
    (hok : ((TreeOp.call op).run fuel c kt vt tx).isOk) :
    TreeLoop fuel c kt vt P s us (callAt fuel tx c kt vt op) cursor (refStep m op) (n + 1) := by
  cases hrun : (TreeOp.call op).run fuel c kt vt tx with
  | error e =>
    rw [hrun] at hok
    cases hok
  | ok tx' =>
    rw [← run_call_eq hrun]
    exact h.body (.call op) hop hrun

/-- A step of the cursor. -/
theorem TreeLoop.step (h : TreeLoop fuel c kt vt P s us tx cursor m n) {k v : Value}
    (hadv : (pbtreeWalkAdvance fuel cursor tx).2.2 = some (k, v)) :
    TreeLoop fuel c kt vt P s (us ++ [⟨m, k, v⟩]) (pbtreeWalkAdvance fuel cursor tx).1
      (pbtreeWalkAdvance fuel cursor tx).2.1 m n :=
  h.next (Prod.ext rfl (Prod.ext rfl hadv))

/-- `t[3] = 30; t[5] = 50;` and a step of the cursor. -/
def twoBound : Tx := callAt 3 (callAt 3 emptyTree.1 7 .u64 .int (.set (.u64 3) (.int 30))) 7 .u64 .int
  (.set (.u64 5) (.int 50))

def oneVisited : Tx × PBTreeCursor × Option (Value × Value) :=
  pbtreeWalkAdvance 3 (pbtreeWalkInit 7 .u64 .int) twoBound

set_option maxRecDepth 8000 in
/-- The body deletes 5 while the cursor is at 3: it is not yielded. -/
theorem treeLoop_safe_deleted : ∃ (us : List (Visit Value Value)) (m : RefMap),
    TreeLoop 3 7 .u64 .int (TreeOp.Keeps (treeLayout .u64 .int) .u64 .int) emptyTree us
      (callAt 3 oneVisited.1 7 .u64 .int (.remove (.u64 5))) oneVisited.2.1 m 3 ∧
    us.map Visit.key = [.u64 3] ∧ MutationSafe Pbtree.rank us := by
  have hstart : TreeLoop 3 7 .u64 .int (TreeOp.Keeps (treeLayout .u64 .int) .u64 .int) emptyTree [] emptyTree.1
    (pbtreeWalkInit 7 .u64 .int) emptyTree.2 0 := .init
  have hthree : Storable .u64 .int (.set (.u64 3) (.int 30)) := by decide +kernel
  have hfive : Storable .u64 .int (.set (.u64 5) (.int 50)) := by decide +kernel
  have htwo := (hstart.call (.set (.u64 3) (.int 30)) hthree (by decide +kernel)).call (.set (.u64 5) (.int 50)) hfive
    (by decide +kernel)
  have hone := htwo.step (k := .u64 3) (v := .int 30) (by decide +kernel)
  have hloop := hone.call (.remove (.u64 5)) trivial (by decide +kernel)
  exact ⟨_, _, hloop, rfl, (treeLoop_safe (show IsKeyTy .u64 from trivial) (fun d hd => hd.elim) (if_pos rfl) id
    (emptyTree_holds .u64 .int) hloop le_rfl (ownLaid_of_ne (by decide +kernel)) (apart_of_list (by decide +kernel))).1⟩

/-- Where the root does not read back, an advance yields nothing. -/
theorem advance_of_unreadable {last : Option Value} (hroot : (readRootCell tx c kt vt).2 = .pbtree root)
    (hlost : (readNode (readRootCell tx c kt vt).1 root kt vt).2 = none) :
    (pbtreeWalkAdvance fuel ⟨c, last, kt, vt⟩ tx).2.2 = none := by
  rw [pbtreeWalkAdvance]
  dsimp only
  generalize readRootCell tx c kt vt = r at hroot hlost
  obtain ⟨tx₁, rootV⟩ := r
  dsimp only at hroot hlost
  subst hroot
  have hfirst : (firstGreaterThan fuel root last tx₁ kt vt).2 = none := by
    rw [firstGreaterThan]
    split_ifs
    · rfl
    · cases fuel with
      | zero => rfl
      | succ fuel =>
        rw [firstGreaterAt]
        generalize readNode tx₁ root kt vt = q at hlost
        obtain ⟨tx₂, node⟩ := q
        subst hlost
        rfl
  dsimp only
  generalize firstGreaterThan fuel root last tx₁ kt vt = q at hfirst
  obtain ⟨tx₂, next⟩ := q
  subst hfirst
  rfl

/-- A map that holds a set, which does not read back. -/
def setBound : Tx × RefMap := (callAt 1 emptyTree.1 7 .u64 (.set .int) (.set (.u64 7) (.set [.int 1])),
  refStep emptyTree.2 (.set (.u64 7) (.set [.int 1])))

set_option maxRecDepth 8000 in
/-- **A value that does not read back hides its leaf**: the key is bound when the walk starts, and the walk ends
without it. -/
theorem treeLoop_unreadable : OwnLaid (treeLayout .u64 (.set .int)) ∅ setBound.1 ∧
    Apart nodeCellKey {e | e ∈ setBound.1.nodeLog} ∧ ∀ fuel,
      (TreeOp.call (.set (.u64 7) (.set [.int 1]))).run fuel 7 .u64 (.set .int) emptyTree.1 = .ok setBound.1 ∧
      TreeLoop fuel 7 .u64 (.set .int) (fun _ => True) setBound [] setBound.1 (pbtreeWalkInit 7 .u64 (.set .int))
        setBound.2 0 ∧
      ¬ (MutationSafe Pbtree.rank ([] : List (Visit Value Value)) ∧
        ((pbtreeWalkAdvance fuel (pbtreeWalkInit 7 .u64 (.set .int)) setBound.1).2.2 = none →
          ∀ k v, setBound.2 k = some v → ∃ u ∈ ([] : List (Visit Value Value)), Pbtree.rank k ≤ Pbtree.rank u.key)) := by
  refine ⟨ownLaid_of_ne (by decide +kernel), apart_of_list (by decide +kernel), fun fuel => ⟨rfl, .init, fun h => ?_⟩⟩
  have hroot : (readRootCell setBound.1 7 .u64 (.set .int)).2 =
      .pbtree (asPbtreeRoot (readRootCell setBound.1 7 .u64 (.set .int)).2) := by decide +kernel
  have hnone : (pbtreeWalkAdvance fuel (pbtreeWalkInit 7 .u64 (.set .int)) setBound.1).2.2 = none :=
    advance_of_unreadable hroot (by decide +kernel)
  obtain ⟨u, hu, -⟩ := h.2 hnone (.u64 7) (.set [.int 1]) (by simp [setBound, refStep])
  cases hu

end Rend.Vm
