import Rend.Rocks.Exec
import Rend.Vm.Lookups

/-!
# Walking a map while the loop body writes

A loop over a `pmap` state holds a cursor: a stack of nodes, each with the index of the child to visit
next, and the entries of the leaf it is in. An advance reads nodes only when it needs the next entry, so the
walk is interleaved with what the loop body does with the same transaction.

The nodes of a map are never overwritten by other nodes, and the entries that are left to the cursor are
a matter of the nodes alone (`PMapCursor.left`). One advance takes the first of them (`advances`), the body
leaves them as they are (`BodyOp.run_shown`), and so a loop yields what `entries` lists for the root at its
start (`walk_enumerates`).
-/

namespace Rend.Vm

open Lib Pmap Tx

/-! ### The cursor -/

/-- A cursor into a map. Both stacks have their top first. -/
structure PMapCursor where
  stack : List (U128 × ℕ)
  pending : List (Value × Value)
  keyTy : Ty
  valueTy : Ty

/-- `PMapWalkInit` on the map whose root is at `c`. -/
def pmapWalkInit (tx : Tx) (c : U128) (kt vt : Ty) : Tx × PMapCursor :=
  let (tx, root) := Rocks.loadRoot tx c kt vt
  (tx, ⟨if root = emptyRoot then [] else [(root, 0)], [], kt, vt⟩)

/-- The loop of `pmap_walk_advance`, `none` where the fuel runs out. -/
def pmapWalkAdvance : ℕ → PMapCursor → Tx → Option (Tx × PMapCursor × Option (Value × Value))
  | 0, _, _ => none
  | fuel + 1, cursor, tx =>
    match cursor.pending, cursor.stack with
    | pair :: pending, _ => some (tx, { cursor with pending := pending }, some pair)
    | [], [] => some (tx, cursor, none)
    | [], (nodeHash, nextChild) :: stack =>
      match readNode tx nodeHash cursor.keyTy cursor.valueTy with
      | (tx, none) => pmapWalkAdvance fuel { cursor with stack := stack } tx
      | (tx, some (.leaf entries)) => pmapWalkAdvance fuel { cursor with stack := stack, pending := entries } tx
      | (tx, some (.inner _ children)) =>
        match children[nextChild]? with
        | some child =>
          pmapWalkAdvance fuel { cursor with stack := (child, 0) :: (nodeHash, nextChild + 1) :: stack } tx
        | none => pmapWalkAdvance fuel { cursor with stack := stack } tx

/-- What a loop body does with its transaction between two steps of the cursor. The keys and values it writes
have been forced (`ask`). -/
inductive BodyOp
  | put (c : U128) (kt vt : Ty) (key value : Value)
  | delete (c : U128) (kt vt : Ty) (key : Value)
  | ask (a : Ask)

def BodyOp.run (tx : Tx) : BodyOp → Tx
  | .put c kt vt key value => Rocks.pmapPut tx c kt vt key value
  | .delete c kt vt key => Rocks.pmapDelete tx c kt vt key
  | .ask a => (a.run tx).1

def runBody (tx : Tx) (body : List BodyOp) : Tx := body.foldl BodyOp.run tx

/-- The body keeps the roots of its maps and the cells it reads as other values apart from these nodes. -/
def BodyOp.ApartFrom (K : Set Bytes) : BodyOp → Prop
  | .put c _ _ _ _ => ∀ e ∈ K, c ≠ nodeCellKey e
  | .delete c _ _ _ => ∀ e ∈ K, c ≠ nodeCellKey e
  | .ask a => ∀ c ty, a = .read c ty → ∀ e ∈ K, c = nodeCellKey e → ty = .bytes

/-- The rounds of a loop, with what the cursor has yielded. In each round the cursor is advanced
(`PMapWalkNext`) and the body runs. -/
inductive Rounds (K : Set Bytes) (s : Tx × PMapCursor) : List (Value × Value) → Tx → PMapCursor → Prop
  | start : Rounds K s [] s.1 s.2
  | next {yielded : List (Value × Value)} {tx tx' : Tx} {cursor cursor' : PMapCursor} {fuel : ℕ}
      {pair : Value × Value} (h : Rounds K s yielded tx cursor)
      (hadv : pmapWalkAdvance fuel cursor tx = some (tx', cursor', some pair)) (body : List BodyOp)
      (hbody : ∀ op ∈ body, op.ApartFrom K) : Rounds K s (yielded ++ [pair]) (runBody tx' body) cursor'

/-! ### Entries by nodes -/

/-- The entries below a node, by the nodes that a view shows. -/
def entriesBelow (view : U128 → Option Bytes) (kt vt : Ty) : ℕ → U128 → List (Value × Value)
  | 0, _ => []
  | fuel + 1, c =>
    match (view c).bind (deserializeNode kt vt) with
    | none => []
    | some (.leaf entries) => entries
    | some (.inner _ children) => children.flatMap (entriesBelow view kt vt fuel)

/-- The entries of a node from a child on. -/
def frameEntries (view : U128 → Option Bytes) (kt vt : Ty) (frame : U128 × ℕ) : List (Value × Value) :=
  match (view frame.1).bind (deserializeNode kt vt) with
  | none => []
  | some (.leaf entries) => entries
  | some (.inner _ children) => (children.drop frame.2).flatMap (entriesBelow view kt vt depth)

/-- The entries that are left to a cursor. -/
def PMapCursor.left (view : U128 → Option Bytes) (cursor : PMapCursor) : List (Value × Value) :=
  cursor.pending ++ cursor.stack.flatMap (frameEntries view cursor.keyTy cursor.valueTy)

/-- The cursor stands in a tree of these nodes. -/
def PMapCursor.OnTree (K : Set Bytes) (cursor : PMapCursor) : Prop :=
  ∀ frame ∈ cursor.stack, ∃ n, n < depth ∧ Within K n frame.1

variable {K : Set Bytes} {view : U128 → Option Bytes} {kt vt : Ty} {tx : Tx} {n : ℕ} {c : U128}

/-- The entries below a node need no more fuel than the tree has levels. -/
theorem entriesBelow_fuel (hview : ∀ e ∈ K, view (nodeCellKey e) = some e) (hc : Within K n c) {f f' : ℕ}
    (hf : n < f) (hf' : n < f') : entriesBelow view kt vt f c = entriesBelow view kt vt f' c := by
  induction n using Nat.strong_induction_on generalizing c f f' with
  | _ n ih =>
    obtain ⟨f, rfl⟩ : ∃ m, f = m + 1 := ⟨f - 1, by omega⟩
    obtain ⟨f', rfl⟩ : ∃ m, f' = m + 1 := ⟨f' - 1, by omega⟩
    obtain ⟨e, he, rfl, hkids⟩ := hc.node
    rw [entriesBelow, entriesBelow, hview e he, Option.bind_some]
    rcases hnode : deserializeNode kt vt e with _ | ⟨bm, cs⟩ | es
    · rfl
    · obtain ⟨m, rfl, hwithin⟩ := hkids kt vt bm cs hnode
      refine List.flatMap_congr fun c' hc' => ?_
      exact ih m (Nat.lt_succ_self m) (hwithin c' hc') (by omega) (by omega)
    · rfl

/-- A frame that is still to be visited stands for all entries below its node. -/
theorem frameEntries_zero (hview : ∀ e ∈ K, view (nodeCellKey e) = some e) (hc : Within K n c) (hn : n < depth) :
    frameEntries view kt vt (c, 0) = entriesBelow view kt vt depth c := by
  obtain ⟨f, hf⟩ : ∃ f, depth = f + 1 := ⟨depth - 1, rfl⟩
  obtain ⟨e, he, rfl, hkids⟩ := hc.node
  conv_rhs => rw [hf]
  rw [frameEntries, entriesBelow]
  dsimp only
  rw [hview e he, Option.bind_some]
  rcases hnode : deserializeNode kt vt e with _ | ⟨bm, cs⟩ | es
  · rfl
  · obtain ⟨m, rfl, hwithin⟩ := hkids kt vt bm cs hnode
    dsimp only
    rw [List.drop_zero]
    exact List.flatMap_congr fun c' hc' => entriesBelow_fuel hview (hwithin c' hc') (by omega) (by omega)
  · rfl

/-- `entries` lists what the nodes say. -/
theorem collectEntries_eq_below (hroots : ∀ e ∈ K, nodeCellKey e ≠ emptyRoot)
    (hview : ∀ e ∈ K, view (nodeCellKey e) = some e) {fuel : ℕ} (hc : Within K n c) (hshown : Shown K tx) :
    (collectEntries kt vt fuel c tx).2 = entriesBelow view kt vt fuel c ∧
      Reads tx (collectEntries kt vt fuel c tx).1 := by
  induction fuel generalizing n c tx with
  | zero => exact ⟨rfl, .refl⟩
  | succ fuel ih =>
    obtain ⟨e, he, rfl, hkids⟩ := hc.node
    obtain ⟨tx', hread, hreads⟩ := readNode_of_shown hshown he (hroots e he) kt vt
    rw [collectEntries, entriesBelow, hread, hview e he, Option.bind_some]
    rcases hnode : deserializeNode kt vt e with _ | ⟨bm, cs⟩ | es
    · exact ⟨rfl, hreads⟩
    · obtain ⟨m, -, hwithin⟩ := hkids kt vt bm cs hnode
      dsimp only
      have hshown' := hshown.reads hreads
      clear hnode hkids hread hshown
      induction cs generalizing tx' with
      | nil => exact ⟨rfl, hreads⟩
      | cons c' cs ihcs =>
        obtain ⟨hhead, hr⟩ := ih (hwithin c' List.mem_cons_self) hshown'
        obtain ⟨hrest, hr'⟩ := ihcs _ (hreads.trans hr) (fun d hd => hwithin d (List.mem_cons_of_mem _ hd))
          (hshown'.reads hr)
        refine ⟨?_, hr'⟩
        rw [collectChildren, List.flatMap_cons, ← hhead, ← hrest]
    · exact ⟨rfl, hreads⟩

/-! ### One advance -/

/-- The turns of an advance, whatever it ends with. -/
theorem pmapWalkAdvance_eq_some {fuel : ℕ} {cursor : PMapCursor} {r : Tx × PMapCursor × Option (Value × Value)}
    (h : pmapWalkAdvance fuel cursor tx = some r) :
    Reads tx r.1 ∧ ∀ m, fuel ≤ m → pmapWalkAdvance m cursor tx = some r := by
  induction fuel generalizing cursor tx with
  | zero => cases h
  | succ fuel ih =>
    have hmore : ∀ {cursor' : PMapCursor} {tx' : Tx}, Reads tx tx' →
        (∀ m, pmapWalkAdvance (m + 1) cursor tx = pmapWalkAdvance m cursor' tx') →
        Reads tx r.1 ∧ ∀ m, fuel + 1 ≤ m → pmapWalkAdvance m cursor tx = some r := by
      intro cursor' tx' hreads hturn
      rw [hturn] at h
      obtain ⟨hrest, hends⟩ := ih h
      refine ⟨hreads.trans hrest, fun m hm => ?_⟩
      obtain ⟨m, rfl⟩ : ∃ k, m = k + 1 := ⟨m - 1, by omega⟩
      rw [hturn, hends m (by omega)]
    have hdone : r.1 = tx → (∀ m, pmapWalkAdvance (m + 1) cursor tx = some r) →
        Reads tx r.1 ∧ ∀ m, fuel + 1 ≤ m → pmapWalkAdvance m cursor tx = some r := by
      intro htx hends
      refine ⟨htx ▸ .refl, fun m hm => ?_⟩
      obtain ⟨m, rfl⟩ : ∃ k, m = k + 1 := ⟨m - 1, by omega⟩
      exact hends m
    obtain ⟨_ | ⟨⟨c, i⟩, stack⟩, _ | ⟨pair, pending⟩, kt, vt⟩ := cursor
    · exact hdone (by cases h; rfl) fun m => h
    · exact hdone (by cases h; rfl) fun m => h
    · have hreads := Pmap.readNode_reads tx c kt vt
      rcases hread : readNode tx c kt vt with ⟨tx', _ | ⟨bm, cs⟩ | es⟩
      all_goals rw [hread] at hreads
      · exact @hmore ⟨stack, [], kt, vt⟩ tx' hreads fun m => by
          rw [pmapWalkAdvance]
          simp only [hread]
      · cases hchild : cs[i]? with
        | none =>
          exact @hmore ⟨stack, [], kt, vt⟩ tx' hreads fun m => by
            rw [pmapWalkAdvance]
            simp only [hread, hchild]
        | some child =>
          exact @hmore ⟨(child, 0) :: (c, i + 1) :: stack, [], kt, vt⟩ tx' hreads fun m => by
            rw [pmapWalkAdvance]
            simp only [hread, hchild]
      · exact @hmore ⟨stack, es, kt, vt⟩ tx' hreads fun m => by
          rw [pmapWalkAdvance]
          simp only [hread]
    · exact hdone (by cases h; rfl) fun m => h

/-- The advance has taken the first of the entries that are left. -/
structure TakesFirst (K : Set Bytes) (view : U128 → Option Bytes) (cursor : PMapCursor) (tx : Tx)
    (r : Tx × PMapCursor × Option (Value × Value)) : Prop where
  reads : Reads tx r.1
  keyTy : r.2.1.keyTy = cursor.keyTy
  valueTy : r.2.1.valueTy = cursor.valueTy
  onTree : r.2.1.OnTree K
  yields : r.2.2 = (cursor.left view).head?
  left : r.2.1.left view = (cursor.left view).tail

/-- On a transaction that shows the nodes, the advance ends. -/
def Advances (K : Set Bytes) (view : U128 → Option Bytes) (cursor : PMapCursor) : Prop :=
  ∀ tx, Shown K tx → ∃ n r, (∀ m, n ≤ m → pmapWalkAdvance m cursor tx = some r) ∧ TakesFirst K view cursor tx r

/-- One more turn of the loop. -/
theorem Advances.turn {cursor cursor' : PMapCursor} (h : Advances K view cursor')
    (hkt : cursor'.keyTy = cursor.keyTy) (hvt : cursor'.valueTy = cursor.valueTy)
    (hleft : cursor'.left view = cursor.left view)
    (hturn : ∀ tx, Shown K tx → ∃ tx', Reads tx tx' ∧
      ∀ m, pmapWalkAdvance (m + 1) cursor tx = pmapWalkAdvance m cursor' tx') : Advances K view cursor := by
  intro tx hshown
  obtain ⟨tx', hreads, hstep⟩ := hturn tx hshown
  obtain ⟨n, r, hends, htakes⟩ := h tx' (hshown.reads hreads)
  refine ⟨n + 1, r, fun m hm => ?_, ?_⟩
  · obtain ⟨m, rfl⟩ : ∃ k, m = k + 1 := ⟨m - 1, by omega⟩
    rw [hstep, hends m (by omega)]
  · exact ⟨hreads.trans htakes.reads, htakes.keyTy.trans hkt, htakes.valueTy.trans hvt, htakes.onTree,
      hleft ▸ htakes.yields, hleft ▸ htakes.left⟩

theorem advances_pending {cursor : PMapCursor} (hon : cursor.OnTree K) (hne : cursor.pending ≠ []) :
    Advances K view cursor := by
  intro tx _
  obtain ⟨stack, _ | ⟨pair, pending⟩, kt, vt⟩ := cursor
  · exact absurd rfl hne
  · refine ⟨1, (tx, ⟨stack, pending, kt, vt⟩, some pair), fun m hm => ?_, .refl, rfl, rfl, hon, rfl, rfl⟩
    obtain ⟨m, rfl⟩ : ∃ k, m = k + 1 := ⟨m - 1, by omega⟩
    rfl

theorem advances_exhausted : Advances K view ⟨[], [], kt, vt⟩ := by
  intro tx _
  refine ⟨1, (tx, ⟨[], [], kt, vt⟩, none), fun m hm => ?_, .refl, rfl, rfl, fun _ h => (by cases h), rfl, rfl⟩
  obtain ⟨m, rfl⟩ : ∃ k, m = k + 1 := ⟨m - 1, by omega⟩
  rfl

/-- **A frame is walked down to its next entry**, or given up for the frames below it. -/
theorem advances_frame (hroots : ∀ e ∈ K, nodeCellKey e ≠ emptyRoot)
    (hview : ∀ e ∈ K, view (nodeCellKey e) = some e) (hc : Within K n c) (hn : n < depth) (i : ℕ)
    {stack : List (U128 × ℕ)} (hstack : PMapCursor.OnTree K ⟨stack, [], kt, vt⟩)
    (h : Advances K view ⟨stack, [], kt, vt⟩) : Advances K view ⟨(c, i) :: stack, [], kt, vt⟩ := by
  induction n using Nat.strong_induction_on generalizing c i stack with
  | _ n ihn =>
    have hhere : ∀ i, PMapCursor.OnTree K ⟨(c, i) :: stack, [], kt, vt⟩ := fun i f hf => by
      rcases List.mem_cons.mp hf with rfl | hf
      · exact ⟨n, hn, hc⟩
      · exact hstack f hf
    obtain ⟨e, he, rfl, hkids⟩ := hc.node
    have hread : ∀ tx, Shown K tx → ∃ tx', readNode tx (nodeCellKey e) kt vt = (tx', deserializeNode kt vt e) ∧
        Reads tx tx' := fun tx hshown => readNode_of_shown hshown he (hroots e he) kt vt
    rcases hnode : deserializeNode kt vt e with _ | ⟨bm, cs⟩ | es
    · refine h.turn rfl rfl ?_ fun tx hshown => ?_
      · simp [PMapCursor.left, frameEntries, hview e he, hnode]
      · obtain ⟨tx', hr, hreads⟩ := hread tx hshown
        refine ⟨tx', hreads, fun m => ?_⟩
        rw [pmapWalkAdvance]
        simp only [hr, hnode]
    · obtain ⟨m, rfl, hwithin⟩ := hkids kt vt bm cs hnode
      induction hk : cs.length - i generalizing i with
      | zero =>
        refine h.turn rfl rfl ?_ fun tx hshown => ?_
        · simp [PMapCursor.left, frameEntries, hview e he, hnode, List.drop_eq_nil_of_le (show cs.length ≤ i by omega)]
        · obtain ⟨tx', hr, hreads⟩ := hread tx hshown
          refine ⟨tx', hreads, fun m => ?_⟩
          rw [pmapWalkAdvance]
          simp only [hr, hnode, List.getElem?_eq_none (show cs.length ≤ i by omega)]
      | succ k ihk =>
        have hi : i < cs.length := by omega
        have hchild := hwithin cs[i] (List.getElem_mem hi)
        have hnext := ihn m (Nat.lt_succ_self m) hchild (by omega) 0 (hhere (i + 1)) (ihk (i + 1) (by omega))
        refine hnext.turn rfl rfl ?_ fun tx hshown => ?_
        · have hzero := @frameEntries_zero K view kt vt m cs[i] hview hchild (by omega)
          rw [PMapCursor.left, PMapCursor.left, List.flatMap_cons, List.flatMap_cons, hzero, List.flatMap_cons,
            ← List.append_assoc (entriesBelow view kt vt depth cs[i])]
          congr 2
          rw [frameEntries, frameEntries]
          dsimp only
          rw [hview e he, Option.bind_some, hnode]
          dsimp only
          rw [List.drop_eq_getElem_cons hi, List.flatMap_cons]
        · obtain ⟨tx', hr, hreads⟩ := hread tx hshown
          refine ⟨tx', hreads, fun m => ?_⟩
          rw [pmapWalkAdvance]
          simp only [hr, hnode, List.getElem?_eq_getElem hi]
    · have hleaf : Advances K view ⟨stack, es, kt, vt⟩ := by
        by_cases hes : es = []
        · rw [hes]
          exact h
        · exact advances_pending hstack hes
      refine hleaf.turn rfl rfl ?_ fun tx hshown => ?_
      · simp [PMapCursor.left, frameEntries, hview e he, hnode]
      · obtain ⟨tx', hr, hreads⟩ := hread tx hshown
        refine ⟨tx', hreads, fun m => ?_⟩
        rw [pmapWalkAdvance]
        simp only [hr, hnode]

/-- **An advance ends, with the first of the entries that are left.** -/
theorem advances (hroots : ∀ e ∈ K, nodeCellKey e ≠ emptyRoot) (hview : ∀ e ∈ K, view (nodeCellKey e) = some e)
    {cursor : PMapCursor} (hon : cursor.OnTree K) : Advances K view cursor := by
  obtain ⟨stack, pending, kt, vt⟩ := cursor
  by_cases hne : pending = []
  · subst hne
    induction stack with
    | nil => exact advances_exhausted
    | cons frame stack ih =>
      obtain ⟨n, hn, hc⟩ := hon frame List.mem_cons_self
      have hrest : PMapCursor.OnTree K ⟨stack, [], kt, vt⟩ := fun f hf => hon f (List.mem_cons_of_mem _ hf)
      exact advances_frame hroots hview hc hn frame.2 hrest (ih hrest)
  · exact advances_pending hon hne

/-! ### What the body does to the nodes -/

section Body

theorem shown_write (hshown : Shown K tx) {c : U128} (hc : ∀ e ∈ K, c ≠ nodeCellKey e) (v : Value) :
    Shown K (tx.write c v) := by
  intro e he
  have hforced := (drained_force tx v).shows (hshown e he)
  rw [Tx.write]
  unfold Tx.shows at hforced ⊢
  simp only [AList.lookup_insert_ne (hc e he).symm]
  exact hforced

theorem shown_recordPmapTypes (hshown : Shown K tx) (c : U128) (kt vt : Ty) :
    Shown K (tx.recordPmapTypes c kt vt) := by
  unfold Tx.recordPmapTypes
  split
  · exact hshown
  · exact hshown

theorem shown_loadRoot (hshown : Shown K tx) {c : U128} (hc : ∀ e ∈ K, c ≠ nodeCellKey e) (kt vt : Ty) :
    Shown K (Rocks.loadRoot tx c kt vt).1 :=
  shown_drained (shown_readCell hshown fun e he heq => absurd heq (hc e he)) (drained_force _ _)

theorem loadRoot_nodeLog (tx : Tx) (c : U128) (kt vt : Ty) :
    (Rocks.loadRoot tx c kt vt).1.nodeLog = tx.nodeLog :=
  (drained_force _ _).nodeLog_eq.trans (readCell_nodeLog _ _ _)

theorem recordPmapTypes_nodeLog (tx : Tx) (c : U128) (kt vt : Ty) :
    (tx.recordPmapTypes c kt vt).nodeLog = tx.nodeLog := by
  unfold Tx.recordPmapTypes
  split <;> rfl

theorem Ask.run_nodeLog (tx : Tx) (a : Ask) : (a.run tx).1.nodeLog = tx.nodeLog := by
  cases a with
  | lookup r =>
    rw [Ask.run, Tx.beginPmapGet]
    split_ifs <;> rfl
  | force v => exact (drained_force tx v).nodeLog_eq
  | read c ty => exact readCell_nodeLog tx c ty

theorem BodyOp.run_nodeLog (tx : Tx) (op : BodyOp) : tx.nodeLog ⊆ (op.run tx).nodeLog := by
  cases op with
  | put c kt vt key value =>
    rw [BodyOp.run, Rocks.pmapPut]
    dsimp only
    rw [write_nodeLog]
    refine List.Subset.trans ?_ (set_steps _ _ _ _ _ _).log_subset
    rw [loadRoot_nodeLog, recordPmapTypes_nodeLog]
    exact List.Subset.refl _
  | delete c kt vt key =>
    rw [BodyOp.run, Rocks.pmapDelete]
    dsimp only
    rw [write_nodeLog]
    refine List.Subset.trans ?_ (remove_steps _ _ _ _ _).log_subset
    rw [loadRoot_nodeLog]
    exact List.Subset.refl _
  | ask a =>
    rw [BodyOp.run, Ask.run_nodeLog]
    exact List.Subset.refl _

theorem runBody_nodeLog (tx : Tx) (body : List BodyOp) : tx.nodeLog ⊆ (runBody tx body).nodeLog := by
  induction body generalizing tx with
  | nil => exact List.Subset.refl _
  | cons op body ih => exact List.Subset.trans (op.run_nodeLog tx) (ih (op.run tx))

variable {S : Set Bytes}

/-- **The body overwrites no node.** -/
theorem BodyOp.run_shown (hS : NodeSet S) (hKS : K ⊆ S) {op : BodyOp} (hop : op.ApartFrom K)
    (hlog : logged (op.run tx) ⊆ S) (hshown : Shown K tx) : Shown K (op.run tx) := by
  cases op with
  | put c kt vt key value =>
    have hloaded := shown_loadRoot (shown_recordPmapTypes hshown c kt vt) hop kt vt
    refine shown_write (fun e he => ?_) hop _
    refine (set_steps _ _ _ _ _ _).shows hS (fun e' he' => hlog ?_) (hKS he) (hloaded e he)
    change e' ∈ (Tx.write _ c _).nodeLog
    rw [write_nodeLog]
    exact he'
  | delete c kt vt key =>
    have hloaded := shown_loadRoot hshown hop kt vt
    refine shown_write (fun e he => ?_) hop _
    refine (remove_steps _ _ _ _ _).shows hS (fun e' he' => hlog ?_) (hKS he) (hloaded e he)
    change e' ∈ (Tx.write _ c _).nodeLog
    rw [write_nodeLog]
    exact he'
  | ask a => exact Ask.run_shown hshown hop

theorem runBody_shown (hS : NodeSet S) (hKS : K ⊆ S) {body : List BodyOp} (hbody : ∀ op ∈ body, op.ApartFrom K)
    (hlog : logged (runBody tx body) ⊆ S) (hshown : Shown K tx) : Shown K (runBody tx body) := by
  induction body generalizing tx with
  | nil => exact hshown
  | cons op body ih =>
    have hfirst : logged (op.run tx) ⊆ S := fun e he => hlog (runBody_nodeLog (op.run tx) body he)
    exact ih (fun o ho => hbody o (List.mem_cons_of_mem _ ho)) hlog
      (op.run_shown hS hKS (hbody op List.mem_cons_self) hfirst hshown)

end Body

/-! ### The loop -/

/-- Where the rounds of a loop lead: what has been yielded and what is left make up the whole. -/
theorem Rounds.yields {S : Set Bytes} (hS : NodeSet S) (hKS : K ⊆ S) (hroots : ∀ e ∈ K, nodeCellKey e ≠ emptyRoot)
    (hview : ∀ e ∈ K, view (nodeCellKey e) = some e) {s : Tx × PMapCursor} (hshown : Shown K s.1)
    (hon : s.2.OnTree K) {yielded : List (Value × Value)} {cursor : PMapCursor} (h : Rounds K s yielded tx cursor)
    (hlog : logged tx ⊆ S) :
    Shown K tx ∧ cursor.OnTree K ∧ yielded ++ cursor.left view = s.2.left view := by
  induction h with
  | start => exact ⟨hshown, hon, rfl⟩
  | @next yielded tx tx' cursor cursor' fuel pair h hadv body hbody ih =>
    obtain ⟨hreads, hfuel⟩ := pmapWalkAdvance_eq_some hadv
    have hlog' : logged tx' ⊆ S := fun e he => hlog (runBody_nodeLog tx' body he)
    have hbefore : logged tx ⊆ S := fun e he => hlog' (by rw [logged, hreads.nodeLog]; exact he)
    obtain ⟨hshown, hon, hall⟩ := ih hbefore
    -- the advance that has been made is the one that the nodes determine
    obtain ⟨n, r, hends, htakes⟩ := advances hroots hview hon tx hshown
    have hr : some r = some (tx', cursor', some pair) := by
      rw [← hends (max n fuel) (le_max_left _ _), hfuel (max n fuel) (le_max_right _ _)]
    obtain rfl := Option.some.inj hr
    refine ⟨runBody_shown hS hKS hbody hlog (hshown.reads hreads), htakes.onTree, ?_⟩
    have hyields : some pair = (cursor.left view).head? := htakes.yields
    have hleft : cursor'.left view = (cursor.left view).tail := htakes.left
    rw [← hall, hleft, List.append_assoc, List.singleton_append, List.cons_head?_tail hyields.symm]

/-- **A loop over a map yields the entries that the map has at its start.** Whatever maps the body writes and
deletes from between two steps, what has been yielded at any moment is where `entries`, on the root
at the start, begins; and the next advance ends, with the entry that comes next there or, behind the last, with
nothing. -/
theorem walk_enumerates {tx₀ : Tx} {c : U128} (hshown : Shown K tx₀) (hc : ∀ e ∈ K, c ≠ nodeCellKey e)
    (hroot : (Rocks.loadRoot tx₀ c kt vt).2 = emptyRoot ∨
      ∃ n, n < depth ∧ Within K n (Rocks.loadRoot tx₀ c kt vt).2)
    {yielded : List (Value × Value)} {cursor : PMapCursor}
    (h : Rounds K (pmapWalkInit tx₀ c kt vt) yielded tx cursor) (hS : NodeSet (K ∪ logged tx)) :
    yielded <+: (entries (Rocks.loadRoot tx₀ c kt vt).2 (pmapWalkInit tx₀ c kt vt).1 kt vt).2 ∧
      ∃ n r, (∀ m, n ≤ m → pmapWalkAdvance m cursor tx = some r) ∧
        r.2.2 = (entries (Rocks.loadRoot tx₀ c kt vt).2 (pmapWalkInit tx₀ c kt vt).1 kt vt).2[yielded.length]? := by
  have hroots : ∀ e ∈ K, nodeCellKey e ≠ emptyRoot := fun e he => hS.ne_empty e (.inl he)
  have hview : ∀ e ∈ K, tx₀.shows (nodeCellKey e) = some e := hshown
  have hstart : Shown K (pmapWalkInit tx₀ c kt vt).1 := shown_loadRoot hshown hc kt vt
  have hon : (pmapWalkInit tx₀ c kt vt).2.OnTree K := by
    rw [pmapWalkInit]
    dsimp only
    intro f hf
    split_ifs at hf with hempty
    · cases hf
    · rw [List.mem_singleton.mp hf]
      exact hroot.resolve_left hempty
  have hleft : (pmapWalkInit tx₀ c kt vt).2.left tx₀.shows =
      (entries (Rocks.loadRoot tx₀ c kt vt).2 (pmapWalkInit tx₀ c kt vt).1 kt vt).2 := by
    rw [entries, pmapWalkInit]
    dsimp only
    split_ifs with hempty
    · rfl
    · obtain ⟨n, hn, hwithin⟩ := hroot.resolve_left hempty
      rw [(collectEntries_eq_below hroots hview hwithin (shown_loadRoot hshown hc kt vt)).1, PMapCursor.left]
      simp only [List.nil_append, List.flatMap_cons, List.flatMap_nil, List.append_nil]
      exact frameEntries_zero hview hwithin hn
  obtain ⟨hshown', hon', hall⟩ := h.yields hS Set.subset_union_left hroots hview hstart hon Set.subset_union_right
  rw [← hleft, ← hall]
  obtain ⟨n, r, hends, htakes⟩ := advances hroots hview hon' tx hshown'
  refine ⟨List.prefix_append _ _, n, r, hends, ?_⟩
  rw [htakes.yields, List.getElem?_append_right le_rfl, Nat.sub_self, List.head?_eq_getElem?]

/-- Nodes told apart by evaluation, those of an earlier moment among them. -/
theorem nodeSet_of_log {tx' : Tx} (hgrows : ∀ e ∈ tx.nodeLog, e ∈ tx'.nodeLog)
    (h : (∀ e ∈ tx'.nodeLog, ∀ e' ∈ tx'.nodeLog, nodeCellKey e = nodeCellKey e' → e = e') ∧
      ∀ e ∈ tx'.nodeLog, nodeCellKey e ≠ emptyRoot) : NodeSet (logged tx ∪ logged tx') :=
  (nodeSet_of_list h).mono (Set.union_subset hgrows (Set.Subset.refl _))

/-- A map of two entries, in the transaction that has written it. -/
def twoEntries : Tx × U128 := entry 2

/-- The same, with its root at a cell. -/
def twoEntriesAt : Tx := twoEntries.1.write 7 (.pmap twoEntries.2)

/-- Between the steps of the cursor the body deletes both entries: the second one is yielded all the same. -/
theorem walk_enumerates_deleted : ∃ (pair : Value × Value) (tx : Tx) (cursor : PMapCursor),
    Rounds (logged twoEntries.1) (pmapWalkInit twoEntriesAt 7 .int .int) [pair] tx cursor ∧
      [pair] <+: (entries (Rocks.loadRoot twoEntriesAt 7 .int .int).2 (pmapWalkInit twoEntriesAt 7 .int .int).1
        .int .int).2 ∧
      ∃ n r, (∀ m, n ≤ m → pmapWalkAdvance m cursor tx = some r) ∧
        r.2.2 = (entries (Rocks.loadRoot twoEntriesAt 7 .int .int).2 (pmapWalkInit twoEntriesAt 7 .int .int).1
          .int .int).2[1]? := by
  let body : List BodyOp := [.delete 7 .int .int (.int 1), .delete 7 .int .int (.int 2)]
  have hnodes : ∀ e ∈ twoEntries.1.nodeLog, twoEntriesAt.shows (nodeCellKey e) = some e ∧ 7 ≠ nodeCellKey e := by
    decide +kernel
  have hroot : (Rocks.loadRoot twoEntriesAt 7 .int .int).2 = twoEntries.2 := by decide +kernel
  have hroots : ∀ e ∈ logged twoEntries.1, nodeCellKey e ≠ emptyRoot := by
    have h : ∀ e ∈ twoEntries.1.nodeLog, nodeCellKey e ≠ emptyRoot := by decide +kernel
    exact h
  have hbuilt : Built (logged twoEntries.1) twoEntries.2 := by
    have hshown : ∀ m < 2, ∀ e ∈ (entry m).1.nodeLog, (entry m).1.shows (nodeCellKey e) = some e := by decide +kernel
    exact built_entry 2 hshown
  have hwithin : twoEntries.2 = emptyRoot ∨ ∃ n, n < depth ∧ Within (logged twoEntries.1) n twoEntries.2 :=
    (hbuilt.within hroots).imp id fun h => ⟨maxLevels, by decide, h⟩
  have hsome : ((pmapWalkAdvance 5 (pmapWalkInit twoEntriesAt 7 .int .int).2
      (pmapWalkInit twoEntriesAt 7 .int .int).1).bind fun r => r.2.2).isSome := by decide +kernel
  obtain ⟨pair, hpair⟩ := Option.isSome_iff_exists.mp hsome
  obtain ⟨⟨tx', cursor', next⟩, hadv, hnext⟩ := Option.bind_eq_some_iff.mp hpair
  obtain rfl : next = some pair := hnext
  have hrounds : Rounds (logged twoEntries.1) (pmapWalkInit twoEntriesAt 7 .int .int) [pair] (runBody tx' body) cursor' :=
    .next .start hadv body (by
      intro op hop
      rcases List.mem_cons.mp hop with rfl | hop
      · exact fun e he => (hnodes e he).2
      · obtain rfl := List.mem_singleton.mp hop
        exact fun e he => (hnodes e he).2)
  have hlog : ∀ r ∈ pmapWalkAdvance 5 (pmapWalkInit twoEntriesAt 7 .int .int).2
      (pmapWalkInit twoEntriesAt 7 .int .int).1,
      ((∀ e ∈ (runBody r.1 body).nodeLog, ∀ e' ∈ (runBody r.1 body).nodeLog,
          nodeCellKey e = nodeCellKey e' → e = e') ∧
        ∀ e ∈ (runBody r.1 body).nodeLog, nodeCellKey e ≠ emptyRoot) ∧
      ∀ e ∈ twoEntries.1.nodeLog, e ∈ (runBody r.1 body).nodeLog := by decide +kernel
  obtain ⟨hapart, hgrows⟩ := hlog _ hadv
  have hS : NodeSet (logged twoEntries.1 ∪ logged (runBody tx' body)) := nodeSet_of_log hgrows hapart
  have hshown : Shown (logged twoEntries.1) twoEntriesAt := fun e he => (hnodes e he).1
  have hcell : ∀ e ∈ logged twoEntries.1, 7 ≠ nodeCellKey e := fun e he => (hnodes e he).2
  refine ⟨pair, _, _, hrounds, walk_enumerates hshown hcell ?_ hrounds hS⟩
  rw [hroot]
  exact hwithin

end Rend.Vm
