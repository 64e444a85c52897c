import Rend.Gc
import Rend.Pbtree.Readers

/-!
# What a sweep leaves to be read

`sweep` walks the maps and the vectors among the live states, and none of the sorted maps. Over any store, the nodes
its walks come to read as before, so that lookups and listings of maps and vectors answer what they did. Of a sorted
map only the cell of the state is kept. `sweep_keeps_iff` says when all reads of all live states stay what they
were: no candidate may be a node of a live sorted map with an entry at it or below it.
-/

namespace Rend.Gc

open Lib

/-! ### Transactions that read -/

/-- A transaction over the store, in one of the two modes of reading, that has read nodes at most. -/
def Reading (kv : Kv) (tx : Tx) : Prop := ∃ lazy, Tx.Reads ((Tx.new kv).setLazy lazy) tx

/-- The transaction shows at every cell what the store holds there as a node. -/
def Views (kv : Kv) (tx : Tx) : Prop := ∀ c, tx.shows c = some ((Pmap.nodeAt kv c).getD [])

theorem asBytes_observed (kv : Kv) (c : U128) :
    Tx.asBytes (Tx.observed kv c .bytes (.bytes [])) = some ((Pmap.nodeAt kv c).getD []) := by
  rw [Tx.observed, Pmap.nodeAt]
  cases kv c with
  | none => rfl
  | some bs =>
    rw [Option.bind_some]
    dsimp only
    cases hd : deserialize .bytes bs with
    | none => rfl
    | some v =>
      rw [deserialize, Option.map_eq_some_iff] at hd
      obtain ⟨b, -, rfl⟩ := hd
      rfl

theorem views_new (kv : Kv) (lazy : Bool) : Views kv ((Tx.new kv).setLazy lazy) := by
  intro c
  rw [← asBytes_observed]
  rfl

theorem Views.reads {kv : Kv} {tx tx' : Tx} (h : Views kv tx) (hr : Tx.Reads tx tx') : Views kv tx' :=
  fun c => hr.shows (h c)

theorem Reading.views {kv : Kv} {tx : Tx} (h : Reading kv tx) : Views kv tx := by
  obtain ⟨lazy, hr⟩ := h
  exact (views_new kv lazy).reads hr

theorem reading_new (kv : Kv) : Reading kv ((Tx.new kv).setLazy false) := ⟨false, .refl⟩

/-- Two runs of a read, over one store and over the other, answer alike. -/
structure Alike {α : Type} (kv kv' : Kv) (r r' : Tx × α) : Prop where
  views : Views kv r.1
  views' : Views kv' r'.1
  same : r'.2 = r.2

section Walks

variable {α : Type*} {stop : α → Prop} {next : α → List α} {P : α → Prop} {root w : α}

/-- All that a walk comes to has the property. -/
def Below (stop : α → Prop) (next : α → List α) (P : α → Prop) (root : α) : Prop :=
  ∀ x, Reached stop next root x → P x

theorem Below.self (h : Below stop next P root) (hroot : ¬ stop root) : P root := h root (reached_self hroot)

theorem Below.child (h : Below stop next P root) (hroot : ¬ stop root) (hw : w ∈ next root) :
    Below stop next P w := fun x hx => h x ((reached_iff hroot).mpr (.inr ⟨w, hw, hx⟩))

/-- Nothing is to be shown of a walk that does not start. -/
theorem below_stop (h : stop root) : Below stop next P root := fun _ hx => absurd h hx.1

end Walks

variable {kv kv' : Kv} {tx tx' : Tx} {kt vt elem : Ty} {hash : U128}

/-! ### Maps -/

section Maps

/-- Both stores have the same nodes of a map at the root and below it. -/
abbrev SamePmap (kv kv' : Kv) (kt vt : Ty) : U128 → Prop :=
  Below (· = Pmap.emptyRoot) (pmapChildren kv kt vt) fun c => Pmap.readNodeKv kv' c kt vt = Pmap.readNodeKv kv c kt vt

theorem Views.pmap_readNode (h : Views kv tx) :
    (Pmap.readNode tx hash kt vt).2 = Pmap.readNodeKv kv hash kt vt ∧ Views kv (Pmap.readNode tx hash kt vt).1 := by
  refine ⟨?_, h.reads (Pmap.readNode_reads tx hash kt vt)⟩
  rw [Pmap.readNode, Pmap.readNodeKv]
  split_ifs
  · rfl
  · change (Tx.asBytes (tx.fetch hash).2).bind _ = _
    rw [Tx.fetch_of_shows (h hash)]
    cases Pmap.nodeAt kv hash <;> rfl

theorem SamePmap.read (hv : Views kv tx) (hv' : Views kv' tx') (h : SamePmap kv kv' kt vt hash) :
    Alike kv kv' (Pmap.readNode tx hash kt vt) (Pmap.readNode tx' hash kt vt) := by
  refine ⟨hv.pmap_readNode.2, hv'.pmap_readNode.2, ?_⟩
  rw [hv.pmap_readNode.1, hv'.pmap_readNode.1]
  by_cases hroot : hash = Pmap.emptyRoot
  · rw [Pmap.readNodeKv, Pmap.readNodeKv, if_pos hroot, if_pos hroot]
  · exact h.self hroot

/-- The children of a node. -/
theorem SamePmap.children (h : SamePmap kv kv' kt vt hash) {bitmap : BitVec 32} {children : List U128}
    (hread : Pmap.readNodeKv kv hash kt vt = some (.inner bitmap children)) :
    ∀ c ∈ children, SamePmap kv kv' kt vt c := by
  intro c hc
  refine Below.child h (fun hroot => ?_) ?_
  · rw [Pmap.readNodeKv, if_pos hroot] at hread
    cases hread
  · rw [pmapChildren, hread]
    exact hc

theorem SamePmap.child (h : SamePmap kv kv' kt vt hash) {bitmap : BitVec 32} {children : List U128}
    (hread : Pmap.readNodeKv kv hash kt vt = some (.inner bitmap children)) (i : ℕ) :
    SamePmap kv kv' kt vt (children.getD i 0) := by
  rw [List.getD_eq_getElem?_getD]
  cases hc : children[i]? with
  | none => exact below_stop rfl
  | some c => exact h.children hread c (List.mem_of_getElem? hc)

theorem SamePmap.getAt (key : Value) (slots : U64) {fuel level : ℕ} (hv : Views kv tx) (hv' : Views kv' tx')
    (h : SamePmap kv kv' kt vt hash) :
    Alike kv kv' (Pmap.getAt key slots kt vt fuel hash level tx) (Pmap.getAt key slots kt vt fuel hash level tx') := by
  induction fuel generalizing hash level tx tx' with
  | zero => exact ⟨hv, hv', rfl⟩
  | succ fuel ih =>
    have hread := h.read hv hv'
    have hnode := (@Views.pmap_readNode kv tx kt vt hash hv).1
    rw [Pmap.getAt, Pmap.getAt]
    generalize Pmap.readNode tx hash kt vt = r at hread hnode
    generalize Pmap.readNode tx' hash kt vt = r' at hread
    obtain ⟨tx₁, node⟩ := r
    obtain ⟨tx₁', node'⟩ := r'
    obtain ⟨hv₁, hv₁', rfl⟩ := hread
    rcases node' with _ | ⟨bitmap, children⟩ | entries
    · exact ⟨hv₁, hv₁', rfl⟩
    · dsimp only
      split_ifs
      · exact ⟨hv₁, hv₁', rfl⟩
      · exact ih hv₁ hv₁' (h.child hnode.symm _)
    · exact ⟨hv₁, hv₁', rfl⟩

theorem alike_pmap_collectChildren {collect : U128 → Tx → Tx × List (Value × Value)} {children : List U128}
    (h : ∀ c ∈ children, ∀ {tx tx'}, Views kv tx → Views kv' tx' → Alike kv kv' (collect c tx) (collect c tx'))
    (hv : Views kv tx) (hv' : Views kv' tx') :
    Alike kv kv' (Pmap.collectChildren collect children tx) (Pmap.collectChildren collect children tx') := by
  induction children generalizing tx tx' with
  | nil => exact ⟨hv, hv', rfl⟩
  | cons c children ih =>
    have hfirst := h c List.mem_cons_self hv hv'
    have hrest := ih (fun d hd => h d (List.mem_cons_of_mem _ hd)) hfirst.views hfirst.views'
    exact ⟨hrest.views, hrest.views', congrArg₂ _ hfirst.same hrest.same⟩

theorem SamePmap.collectEntries {fuel : ℕ} (hv : Views kv tx) (hv' : Views kv' tx')
    (h : SamePmap kv kv' kt vt hash) :
    Alike kv kv' (Pmap.collectEntries kt vt fuel hash tx) (Pmap.collectEntries kt vt fuel hash tx') := by
  induction fuel generalizing hash tx tx' with
  | zero => exact ⟨hv, hv', rfl⟩
  | succ fuel ih =>
    have hread := h.read hv hv'
    have hnode := (@Views.pmap_readNode kv tx kt vt hash hv).1
    rw [Pmap.collectEntries, Pmap.collectEntries]
    generalize Pmap.readNode tx hash kt vt = r at hread hnode
    generalize Pmap.readNode tx' hash kt vt = r' at hread
    obtain ⟨tx₁, node⟩ := r
    obtain ⟨tx₁', node'⟩ := r'
    obtain ⟨hv₁, hv₁', rfl⟩ := hread
    rcases node' with _ | ⟨bitmap, children⟩ | entries
    · exact ⟨hv₁, hv₁', rfl⟩
    · exact alike_pmap_collectChildren (fun c hc _ _ hv hv' => ih hv hv' (h.children hnode.symm c hc)) hv₁ hv₁'
    · exact ⟨hv₁, hv₁', rfl⟩

end Maps

/-! ### Vectors -/

section Vectors

/-- Both stores have the same nodes of a vector at the root and below it. -/
abbrev SamePvec (kv kv' : Kv) (elem : Ty) : U128 → Prop :=
  Below (· = Pvec.emptyRoot) (pvecChildren kv elem) fun c => Pvec.readNodeKv kv' c elem = Pvec.readNodeKv kv c elem

theorem Views.pvec_readNode (h : Views kv tx) :
    (Pvec.readNode tx hash elem).2 = Pvec.readNodeKv kv hash elem ∧ Views kv (Pvec.readNode tx hash elem).1 := by
  refine ⟨?_, h.reads (Pvec.readNode_reads tx hash elem)⟩
  rw [Pvec.readNode, Pvec.readNodeKv]
  split_ifs
  · rfl
  · change (Tx.asBytes (tx.fetch hash).2).bind _ = _
    rw [Tx.fetch_of_shows (h hash)]
    cases Pmap.nodeAt kv hash <;> rfl

theorem SamePvec.read (hv : Views kv tx) (hv' : Views kv' tx') (h : SamePvec kv kv' elem hash) :
    Alike kv kv' (Pvec.readNode tx hash elem) (Pvec.readNode tx' hash elem) := by
  refine ⟨hv.pvec_readNode.2, hv'.pvec_readNode.2, ?_⟩
  rw [hv.pvec_readNode.1, hv'.pvec_readNode.1]
  by_cases hroot : hash = Pvec.emptyRoot
  · rw [Pvec.readNodeKv, Pvec.readNodeKv, if_pos hroot, if_pos hroot]
  · exact h.self hroot

/-- The children of a node. -/
theorem SamePvec.children (h : SamePvec kv kv' elem hash) {children : List U128}
    (hread : Pvec.readNodeKv kv hash elem = some (.inner children)) : ∀ c ∈ children, SamePvec kv kv' elem c := by
  intro c hc
  refine Below.child h (fun hroot => ?_) ?_
  · rw [Pvec.readNodeKv, if_pos hroot] at hread
    cases hread
  · rw [pvecChildren, hread]
    exact hc

theorem SamePvec.getNode {level i : ℕ} {below : U128 → Tx → Tx × Option Value}
    (hbelow : ∀ {hash tx tx'}, Views kv tx → Views kv' tx' → SamePvec kv kv' elem hash →
      Alike kv kv' (below hash tx) (below hash tx'))
    (hv : Views kv tx) (hv' : Views kv' tx') (h : SamePvec kv kv' elem hash) :
    Alike kv kv' (Pvec.getNode elem level i below hash tx) (Pvec.getNode elem level i below hash tx') := by
  have hread := h.read hv hv'
  have hnode := (@Views.pvec_readNode kv tx elem hash hv).1
  rw [Pvec.getNode, Pvec.getNode]
  generalize Pvec.readNode tx hash elem = r at hread hnode
  generalize Pvec.readNode tx' hash elem = r' at hread
  obtain ⟨tx₁, node⟩ := r
  obtain ⟨tx₁', node'⟩ := r'
  obtain ⟨hv₁, hv₁', rfl⟩ := hread
  rcases node' with _ | children | elements
  · exact ⟨hv₁, hv₁', rfl⟩
  · dsimp only
    cases hc : children[Pvec.slotAt i level]? with
    | none => exact ⟨hv₁, hv₁', rfl⟩
    | some c => exact hbelow hv₁ hv₁' (h.children hnode.symm c (List.mem_of_getElem? hc))
  · exact ⟨hv₁, hv₁', rfl⟩

theorem SamePvec.getAt (i level : ℕ) (hv : Views kv tx) (hv' : Views kv' tx') (h : SamePvec kv kv' elem hash) :
    Alike kv kv' (Pvec.getAt elem i level hash tx) (Pvec.getAt elem i level hash tx') := by
  induction level generalizing hash tx tx' with
  | zero => exact SamePvec.getNode (fun hv hv' _ => ⟨hv, hv', rfl⟩) hv hv' h
  | succ level ih => exact SamePvec.getNode (fun hv hv' h => ih hv hv' h) hv hv' h

theorem SamePvec.get (len i : ℕ) (hv : Views kv tx) (hv' : Views kv' tx') (h : SamePvec kv kv' elem hash) :
    (Pvec.get hash len i tx' elem).2 = (Pvec.get hash len i tx elem).2 := by
  have hget := SamePvec.getAt i (Pvec.depthFor len) hv hv' h
  rw [Pvec.get, Pvec.get]
  split_ifs
  · rfl
  · generalize Pvec.getAt elem i (Pvec.depthFor len) hash tx = r at hget
    generalize Pvec.getAt elem i (Pvec.depthFor len) hash tx' = r' at hget
    obtain ⟨tx₁, found⟩ := r
    obtain ⟨tx₁', found'⟩ := r'
    obtain ⟨-, -, rfl⟩ := hget
    cases found' <;> rfl

theorem alike_pvec_collectChildren {collect : Pvec.Collect} {children : List U128} (cap remaining : ℕ)
    {emitted : ℕ} {out : List Value}
    (h : ∀ c ∈ children, ∀ {want out tx tx'}, Views kv tx → Views kv' tx' →
      Alike kv kv' (collect c want out tx) (collect c want out tx'))
    (hv : Views kv tx) (hv' : Views kv' tx') :
    Alike kv kv' (Pvec.collectChildren collect cap remaining children emitted out tx)
      (Pvec.collectChildren collect cap remaining children emitted out tx') := by
  induction children generalizing emitted out tx tx' with
  | nil => exact ⟨hv, hv', rfl⟩
  | cons c children ih =>
    rw [Pvec.collectChildren, Pvec.collectChildren]
    split_ifs
    · exact ⟨hv, hv', rfl⟩
    · have hfirst := @h c List.mem_cons_self (min cap (remaining - emitted)) out _ _ hv hv'
      dsimp only
      generalize collect c (min cap (remaining - emitted)) out tx = r at hfirst
      generalize collect c (min cap (remaining - emitted)) out tx' = r' at hfirst
      obtain ⟨tx₁, res⟩ := r
      obtain ⟨tx₁', res'⟩ := r'
      obtain ⟨hv₁, hv₁', rfl⟩ := hfirst
      cases res' with
      | error e => exact ⟨hv₁, hv₁', rfl⟩
      | ok out' => exact ih (fun d hd => h d (List.mem_cons_of_mem _ hd)) hv₁ hv₁'

theorem SamePvec.collectNode {level remaining : ℕ} {out : List Value} {below : Pvec.Collect}
    (hbelow : ∀ {hash want out tx tx'}, Views kv tx → Views kv' tx' → SamePvec kv kv' elem hash →
      Alike kv kv' (below hash want out tx) (below hash want out tx'))
    (hv : Views kv tx) (hv' : Views kv' tx') (h : SamePvec kv kv' elem hash) :
    Alike kv kv' (Pvec.collectNode elem level below hash remaining out tx)
      (Pvec.collectNode elem level below hash remaining out tx') := by
  have hread := h.read hv hv'
  have hnode := (@Views.pvec_readNode kv tx elem hash hv).1
  rw [Pvec.collectNode, Pvec.collectNode]
  generalize Pvec.readNode tx hash elem = r at hread hnode
  generalize Pvec.readNode tx' hash elem = r' at hread
  obtain ⟨tx₁, node⟩ := r
  obtain ⟨tx₁', node'⟩ := r'
  obtain ⟨hv₁, hv₁', rfl⟩ := hread
  rcases node' with _ | children | elements
  · exact ⟨hv₁, hv₁', rfl⟩
  · exact alike_pvec_collectChildren _ remaining
      (fun c hc _ _ _ _ hv hv' => hbelow hv hv' (h.children hnode.symm c hc)) hv₁ hv₁'
  · exact ⟨hv₁, hv₁', rfl⟩

theorem SamePvec.toVec (len : ℕ) (hv : Views kv tx) (hv' : Views kv' tx') (h : SamePvec kv kv' elem hash) :
    (Pvec.toVec hash len tx' elem).2 = (Pvec.toVec hash len tx elem).2 := by
  have hcollect : ∀ level {hash want out tx tx'}, Views kv tx → Views kv' tx' → SamePvec kv kv' elem hash →
      Alike kv kv' (Pvec.collectElements elem level hash want out tx)
        (Pvec.collectElements elem level hash want out tx') := by
    intro level
    induction level with
    | zero => exact fun hv hv' h => SamePvec.collectNode (fun hv hv' _ => ⟨hv, hv', rfl⟩) hv hv' h
    | succ level ih => exact fun hv hv' h => SamePvec.collectNode (fun hv hv' h => ih hv hv' h) hv hv' h
  rw [Pvec.toVec, Pvec.toVec]
  split_ifs
  · rfl
  · exact (hcollect _ hv hv' h).same

end Vectors

/-! ### Sorted maps -/

section SortedMaps

/-- Reads a node of a sorted map from the store. -/
def pbtreeNode (kv : Kv) (kt vt : Ty) (hash : U128) : Option Pbtree.Node :=
  if hash = Pbtree.emptyRoot then none else (Pmap.nodeAt kv hash).bind (Pbtree.deserializeNode kt vt)

def pbtreeChildren (kv : Kv) (kt vt : Ty) (hash : U128) : List U128 :=
  match pbtreeNode kv kt vt hash with
  | some (.inner _ children) => children
  | _ => []

/-- Neither the node at the cell nor one below it has an entry. -/
abbrev Bare (kv : Kv) (kt vt : Ty) : U128 → Prop :=
  Below (· = Pbtree.emptyRoot) (pbtreeChildren kv kt vt) fun c =>
    ∀ es, pbtreeNode kv kt vt c = some (.leaf es) → es = []

/-- The other store has the same nodes of a sorted map at the root and below it, but for nodes with no entry at
them or below them, which may be missing. -/
abbrev SamePbtree (kv kv' : Kv) (kt vt : Ty) : U128 → Prop :=
  Below (· = Pbtree.emptyRoot) (pbtreeChildren kv kt vt) fun c =>
    pbtreeNode kv' kt vt c = pbtreeNode kv kt vt c ∨ pbtreeNode kv' kt vt c = none ∧ Bare kv kt vt c

theorem Views.pbtree_readNode (h : Views kv tx) :
    (Pbtree.readNode tx hash kt vt).2 = pbtreeNode kv kt vt hash ∧ Views kv (Pbtree.readNode tx hash kt vt).1 := by
  refine ⟨?_, h.reads (Pbtree.readNode_reads tx hash kt vt)⟩
  rw [Pbtree.readNode, pbtreeNode]
  split_ifs
  · rfl
  · change (Tx.asBytes (tx.fetch hash).2).bind _ = _
    rw [Tx.fetch_of_shows (h hash)]
    cases Pmap.nodeAt kv hash <;> rfl

/-- What holds below a node holds below its children. -/
theorem below_pbtree {P : U128 → Prop} (h : Below (· = Pbtree.emptyRoot) (pbtreeChildren kv kt vt) P hash)
    {keys : List Value} {children : List U128} (hread : pbtreeNode kv kt vt hash = some (.inner keys children)) :
    ∀ c ∈ children, Below (· = Pbtree.emptyRoot) (pbtreeChildren kv kt vt) P c := by
  intro c hc
  refine Below.child h (fun hroot => ?_) ?_
  · rw [pbtreeNode, if_pos hroot] at hread
    cases hread
  · rw [pbtreeChildren, hread]
    exact hc

theorem below_pbtree_getD {P : U128 → Prop} (h : Below (· = Pbtree.emptyRoot) (pbtreeChildren kv kt vt) P hash)
    {keys : List Value} {children : List U128} (hread : pbtreeNode kv kt vt hash = some (.inner keys children))
    (i : ℕ) : Below (· = Pbtree.emptyRoot) (pbtreeChildren kv kt vt) P (children.getD i Pbtree.emptyRoot) := by
  rw [List.getD_eq_getElem?_getD]
  cases hc : children[i]? with
  | none => exact below_stop rfl
  | some c => exact below_pbtree h hread c (List.mem_of_getElem? hc)

theorem Bare.leaf (h : Bare kv kt vt hash) {es : List (Value × Value)}
    (hread : pbtreeNode kv kt vt hash = some (.leaf es)) : es = [] := by
  refine Below.self h (fun hroot => ?_) es hread
  rw [pbtreeNode, if_pos hroot] at hread
  cases hread

/-! #### Nodes without entries answer as missing ones -/

theorem Bare.getAt (key : Value) (fuel : ℕ) (hv : Views kv tx) (h : Bare kv kt vt hash) :
    Views kv (Pbtree.getAt key kt vt fuel hash tx).1 ∧ (Pbtree.getAt key kt vt fuel hash tx).2 = none := by
  induction fuel generalizing hash tx with
  | zero => exact ⟨hv, rfl⟩
  | succ fuel ih =>
    obtain ⟨hnode, hv₁⟩ := @Views.pbtree_readNode kv tx kt vt hash hv
    rw [Pbtree.getAt]
    generalize Pbtree.readNode tx hash kt vt = r at hnode hv₁
    obtain ⟨tx₁, _ | ⟨keys, children⟩ | entries⟩ := r
    · exact ⟨hv₁, rfl⟩
    · exact ih hv₁ (below_pbtree_getD h hnode.symm _)
    · obtain rfl := h.leaf hnode.symm
      exact ⟨hv₁, rfl⟩

theorem walkChildren_bare {α : Type} {walk : U128 → List α → Tx → Tx × List α} {children : List U128} {out : List α}
    (h : ∀ c ∈ children, ∀ {out tx}, Views kv tx → Views kv (walk c out tx).1 ∧ (walk c out tx).2 = out)
    (hv : Views kv tx) :
    Views kv (Pbtree.walkChildren walk children out tx).1 ∧ (Pbtree.walkChildren walk children out tx).2 = out := by
  induction children generalizing tx with
  | nil => exact ⟨hv, rfl⟩
  | cons c children ih =>
    obtain ⟨hv₁, hout⟩ := @h c List.mem_cons_self out tx hv
    rw [Pbtree.walkChildren]
    dsimp only
    rw [hout]
    exact ih (fun d hd => h d (List.mem_cons_of_mem _ hd)) hv₁

theorem Bare.rangeAt (lo hi : Value) (fuel : ℕ) (out : List Value) (hv : Views kv tx) (h : Bare kv kt vt hash) :
    Views kv (Pbtree.rangeAt lo hi kt vt fuel hash out tx).1 ∧
      (Pbtree.rangeAt lo hi kt vt fuel hash out tx).2 = out := by
  induction fuel generalizing hash tx out with
  | zero => exact ⟨hv, rfl⟩
  | succ fuel ih =>
    obtain ⟨hnode, hv₁⟩ := @Views.pbtree_readNode kv tx kt vt hash hv
    rw [Pbtree.rangeAt]
    generalize Pbtree.readNode tx hash kt vt = r at hnode hv₁
    obtain ⟨tx₁, _ | ⟨keys, children⟩ | entries⟩ := r
    · exact ⟨hv₁, rfl⟩
    · refine walkChildren_bare (fun c hc _ _ hv => ih _ hv (below_pbtree h hnode.symm c ?_)) hv₁
      exact List.mem_of_mem_take (List.mem_of_mem_drop hc)
    · obtain rfl := h.leaf hnode.symm
      exact ⟨hv₁, rfl⟩

theorem firstOf_bare {α : Type} {ask : Option Value → U128 → Tx → Tx × Option α} {children : List U128}
    {target : Option Value}
    (h : ∀ c ∈ children, ∀ {target tx}, Views kv tx → Views kv (ask target c tx).1 ∧ (ask target c tx).2 = none)
    (hv : Views kv tx) :
    Views kv (Pbtree.firstOf ask target children tx).1 ∧ (Pbtree.firstOf ask target children tx).2 = none := by
  induction children generalizing tx target with
  | nil => exact ⟨hv, rfl⟩
  | cons c children ih =>
    have hone := @h c List.mem_cons_self target tx hv
    rw [Pbtree.firstOf]
    generalize ask target c tx = r at hone
    obtain ⟨tx₁, found⟩ := r
    obtain ⟨hv₁, rfl⟩ := hone
    exact ih (fun d hd => h d (List.mem_cons_of_mem _ hd)) hv₁

theorem Bare.firstGreaterAt (fuel : ℕ) (target : Option Value) (hv : Views kv tx) (h : Bare kv kt vt hash) :
    Views kv (Pbtree.firstGreaterAt kt vt fuel target hash tx).1 ∧
      (Pbtree.firstGreaterAt kt vt fuel target hash tx).2 = none := by
  induction fuel generalizing hash tx target with
  | zero => exact ⟨hv, rfl⟩
  | succ fuel ih =>
    obtain ⟨hnode, hv₁⟩ := @Views.pbtree_readNode kv tx kt vt hash hv
    rw [Pbtree.firstGreaterAt]
    generalize Pbtree.readNode tx hash kt vt = r at hnode hv₁
    obtain ⟨tx₁, _ | ⟨keys, children⟩ | entries⟩ := r
    · exact ⟨hv₁, rfl⟩
    · exact firstOf_bare (fun c hc _ _ hv => ih _ hv (below_pbtree h hnode.symm c (List.mem_of_mem_drop hc))) hv₁
    · obtain rfl := h.leaf hnode.symm
      exact ⟨hv₁, rfl⟩

/-! #### Reads over both stores -/

theorem SamePbtree.read (hv : Views kv tx) (hv' : Views kv' tx') (h : SamePbtree kv kv' kt vt hash) :
    Alike kv kv' (Pbtree.readNode tx hash kt vt) (Pbtree.readNode tx' hash kt vt) ∨
      (Pbtree.readNode tx' hash kt vt).2 = none ∧ Views kv' (Pbtree.readNode tx' hash kt vt).1 ∧
        Bare kv kt vt hash := by
  have hread := @Views.pbtree_readNode kv tx kt vt hash hv
  have hread' := @Views.pbtree_readNode kv' tx' kt vt hash hv'
  by_cases hroot : hash = Pbtree.emptyRoot
  · subst hroot
    exact .inl ⟨hv, hv', rfl⟩
  · rcases h.self hroot with hsame | ⟨hnone, hbare⟩
    · exact .inl ⟨hread.2, hread'.2, by rw [hread.1, hread'.1, hsame]⟩
    · exact .inr ⟨hread'.1.trans hnone, hread'.2, hbare⟩

/-- A read of a node that is missing. -/
theorem eq_of_missing {r : Tx × Option Pbtree.Node} (h : r.2 = none) : r = (r.1, none) := Prod.ext rfl h

theorem SamePbtree.getAt (key : Value) {fuel : ℕ} (hv : Views kv tx) (hv' : Views kv' tx')
    (h : SamePbtree kv kv' kt vt hash) :
    Alike kv kv' (Pbtree.getAt key kt vt fuel hash tx) (Pbtree.getAt key kt vt fuel hash tx') := by
  induction fuel generalizing hash tx tx' with
  | zero => exact ⟨hv, hv', rfl⟩
  | succ fuel ih =>
    rcases h.read hv hv' with hread | ⟨hnone, hv₁', hbare⟩
    · have hnode := (@Views.pbtree_readNode kv tx kt vt hash hv).1
      rw [Pbtree.getAt, Pbtree.getAt]
      generalize Pbtree.readNode tx hash kt vt = r at hread hnode
      generalize Pbtree.readNode tx' hash kt vt = r' at hread
      obtain ⟨tx₁, node⟩ := r
      obtain ⟨tx₁', node'⟩ := r'
      obtain ⟨hv₁, hv₁', rfl⟩ := hread
      rcases node' with _ | ⟨keys, children⟩ | entries
      · exact ⟨hv₁, hv₁', rfl⟩
      · exact ih hv₁ hv₁' (below_pbtree_getD h hnode.symm _)
      · exact ⟨hv₁, hv₁', rfl⟩
    · have hleft := hbare.getAt key (fuel + 1) hv
      have hright : Pbtree.getAt key kt vt (fuel + 1) hash tx' = ((Pbtree.readNode tx' hash kt vt).1, none) := by
        rw [Pbtree.getAt, eq_of_missing hnone]
      exact ⟨hleft.1, hright ▸ hv₁', by rw [hright, hleft.2]⟩

theorem alike_walkChildren {α : Type} {walk : U128 → List α → Tx → Tx × List α} {children : List U128} {out : List α}
    (h : ∀ c ∈ children, ∀ {out tx tx'}, Views kv tx → Views kv' tx' → Alike kv kv' (walk c out tx) (walk c out tx'))
    (hv : Views kv tx) (hv' : Views kv' tx') :
    Alike kv kv' (Pbtree.walkChildren walk children out tx) (Pbtree.walkChildren walk children out tx') := by
  induction children generalizing out tx tx' with
  | nil => exact ⟨hv, hv', rfl⟩
  | cons c children ih =>
    have hone := @h c List.mem_cons_self out _ _ hv hv'
    rw [Pbtree.walkChildren, Pbtree.walkChildren]
    dsimp only
    rw [hone.same]
    exact ih (fun d hd => h d (List.mem_cons_of_mem _ hd)) hone.views hone.views'

theorem SamePbtree.rangeAt (lo hi : Value) {fuel : ℕ} {out : List Value} (hv : Views kv tx) (hv' : Views kv' tx')
    (h : SamePbtree kv kv' kt vt hash) :
    Alike kv kv' (Pbtree.rangeAt lo hi kt vt fuel hash out tx) (Pbtree.rangeAt lo hi kt vt fuel hash out tx') := by
  induction fuel generalizing hash out tx tx' with
  | zero => exact ⟨hv, hv', rfl⟩
  | succ fuel ih =>
    rcases h.read hv hv' with hread | ⟨hnone, hv₁', hbare⟩
    · have hnode := (@Views.pbtree_readNode kv tx kt vt hash hv).1
      rw [Pbtree.rangeAt, Pbtree.rangeAt]
      generalize Pbtree.readNode tx hash kt vt = r at hread hnode
      generalize Pbtree.readNode tx' hash kt vt = r' at hread
      obtain ⟨tx₁, node⟩ := r
      obtain ⟨tx₁', node'⟩ := r'
      obtain ⟨hv₁, hv₁', rfl⟩ := hread
      rcases node' with _ | ⟨keys, children⟩ | entries
      · exact ⟨hv₁, hv₁', rfl⟩
      · refine alike_walkChildren (fun c hc _ _ _ hv hv' => ih hv hv' (below_pbtree h hnode.symm c ?_)) hv₁ hv₁'
        exact List.mem_of_mem_take (List.mem_of_mem_drop hc)
      · exact ⟨hv₁, hv₁', rfl⟩
    · have hleft := hbare.rangeAt lo hi (fuel + 1) out hv
      have hright : Pbtree.rangeAt lo hi kt vt (fuel + 1) hash out tx' =
          ((Pbtree.readNode tx' hash kt vt).1, out) := by
        rw [Pbtree.rangeAt, eq_of_missing hnone]
      exact ⟨hleft.1, hright ▸ hv₁', by rw [hright, hleft.2]⟩

theorem alike_firstOf {α : Type} {ask : Option Value → U128 → Tx → Tx × Option α} {children : List U128}
    {target : Option Value}
    (h : ∀ c ∈ children, ∀ {target tx tx'}, Views kv tx → Views kv' tx' →
      Alike kv kv' (ask target c tx) (ask target c tx'))
    (hv : Views kv tx) (hv' : Views kv' tx') :
    Alike kv kv' (Pbtree.firstOf ask target children tx) (Pbtree.firstOf ask target children tx') := by
  induction children generalizing target tx tx' with
  | nil => exact ⟨hv, hv', rfl⟩
  | cons c children ih =>
    have hone := @h c List.mem_cons_self target _ _ hv hv'
    rw [Pbtree.firstOf, Pbtree.firstOf]
    generalize ask target c tx = r at hone
    generalize ask target c tx' = r' at hone
    obtain ⟨tx₁, found⟩ := r
    obtain ⟨tx₁', found'⟩ := r'
    obtain ⟨hv₁, hv₁', rfl⟩ := hone
    cases found' with
    | none => exact ih (fun d hd => h d (List.mem_cons_of_mem _ hd)) hv₁ hv₁'
    | some a => exact ⟨hv₁, hv₁', rfl⟩

theorem SamePbtree.firstGreaterAt {fuel : ℕ} {target : Option Value} (hv : Views kv tx) (hv' : Views kv' tx')
    (h : SamePbtree kv kv' kt vt hash) :
    Alike kv kv' (Pbtree.firstGreaterAt kt vt fuel target hash tx)
      (Pbtree.firstGreaterAt kt vt fuel target hash tx') := by
  induction fuel generalizing hash target tx tx' with
  | zero => exact ⟨hv, hv', rfl⟩
  | succ fuel ih =>
    rcases h.read hv hv' with hread | ⟨hnone, hv₁', hbare⟩
    · have hnode := (@Views.pbtree_readNode kv tx kt vt hash hv).1
      rw [Pbtree.firstGreaterAt, Pbtree.firstGreaterAt]
      generalize Pbtree.readNode tx hash kt vt = r at hread hnode
      generalize Pbtree.readNode tx' hash kt vt = r' at hread
      obtain ⟨tx₁, node⟩ := r
      obtain ⟨tx₁', node'⟩ := r'
      obtain ⟨hv₁, hv₁', rfl⟩ := hread
      rcases node' with _ | ⟨keys, children⟩ | entries
      · exact ⟨hv₁, hv₁', rfl⟩
      · exact alike_firstOf
          (fun c hc _ _ _ hv hv' => ih hv hv' (below_pbtree h hnode.symm c (List.mem_of_mem_drop hc))) hv₁ hv₁'
      · exact ⟨hv₁, hv₁', rfl⟩
    · have hleft := hbare.firstGreaterAt (fuel + 1) target hv
      have hright : Pbtree.firstGreaterAt kt vt (fuel + 1) target hash tx' =
          ((Pbtree.readNode tx' hash kt vt).1, none) := by
        rw [Pbtree.firstGreaterAt, eq_of_missing hnone]
      exact ⟨hleft.1, hright ▸ hv₁', by rw [hright, hleft.2]⟩

/-! #### Listings -/

/-- The entries below a cell, from left to right. -/
def listed (kv : Kv) (kt vt : Ty) : ℕ → U128 → List (Value × Value)
  | 0, _ => []
  | fuel + 1, hash =>
    match pbtreeNode kv kt vt hash with
    | none => []
    | some (.leaf entries) => entries
    | some (.inner _ children) => children.flatMap (listed kv kt vt fuel)

theorem walkChildren_listed {walk : U128 → List (Value × Value) → Tx → Tx × List (Value × Value)}
    {f : U128 → List (Value × Value)} {children : List U128} {out : List (Value × Value)}
    (h : ∀ c out {tx}, Views kv tx → Views kv (walk c out tx).1 ∧ (walk c out tx).2 = out ++ f c) (hv : Views kv tx) :
    Views kv (Pbtree.walkChildren walk children out tx).1 ∧
      (Pbtree.walkChildren walk children out tx).2 = out ++ children.flatMap f := by
  induction children generalizing out tx with
  | nil => exact ⟨hv, (List.append_nil out).symm⟩
  | cons c children ih =>
    obtain ⟨hv₁, hout⟩ := h c out hv
    have hrest := @ih (Pbtree.walkChildren walk [c] out tx).1 (out ++ f c) hv₁
    rw [Pbtree.walkChildren, List.flatMap_cons, ← List.append_assoc]
    dsimp only
    rw [hout]
    exact hrest

/-- A listing in a transaction gives what the store lists. -/
theorem Views.collectEntries {fuel : ℕ} {out : List (Value × Value)} (hv : Views kv tx) :
    Views kv (Pbtree.collectEntries kt vt fuel hash out tx).1 ∧
      (Pbtree.collectEntries kt vt fuel hash out tx).2 = out ++ listed kv kt vt fuel hash := by
  induction fuel generalizing hash out tx with
  | zero => exact ⟨hv, (List.append_nil out).symm⟩
  | succ fuel ih =>
    obtain ⟨hnode, hv₁⟩ := @Views.pbtree_readNode kv tx kt vt hash hv
    rw [Pbtree.collectEntries, listed, ← hnode]
    generalize Pbtree.readNode tx hash kt vt = r at hv₁
    obtain ⟨tx₁, _ | ⟨keys, children⟩ | entries⟩ := r
    · exact ⟨hv₁, (List.append_nil out).symm⟩
    · exact walkChildren_listed (fun c out _ hv => ih hv) hv₁
    · exact ⟨hv₁, rfl⟩

theorem Bare.listed {fuel : ℕ} (h : Bare kv kt vt hash) : listed kv kt vt fuel hash = [] := by
  induction fuel generalizing hash with
  | zero => rfl
  | succ fuel ih =>
    rw [Gc.listed]
    rcases hnode : pbtreeNode kv kt vt hash with _ | ⟨keys, children⟩ | entries
    · rfl
    · exact List.flatMap_eq_nil_iff.mpr fun c hc => ih (below_pbtree h hnode c hc)
    · exact h.leaf hnode

theorem SamePbtree.listed {fuel : ℕ} (h : SamePbtree kv kv' kt vt hash) :
    listed kv' kt vt fuel hash = listed kv kt vt fuel hash := by
  induction fuel generalizing hash with
  | zero => rfl
  | succ fuel ih =>
    by_cases hroot : hash = Pbtree.emptyRoot
    · rw [Gc.listed, Gc.listed, pbtreeNode, pbtreeNode, if_pos hroot, if_pos hroot]
    · rcases h.self hroot with hsame | ⟨hnone, hbare⟩
      · rw [Gc.listed, Gc.listed, hsame]
        rcases hnode : pbtreeNode kv kt vt hash with _ | ⟨keys, children⟩ | entries
        · rfl
        · exact List.flatMap_congr fun c hc => ih (below_pbtree h hnode c hc)
        · rfl
      · rw [hbare.listed, Gc.listed, hnone]

/-! #### Missing nodes show in a listing -/

theorem mem_pbtreeChildren {w : U128} : w ∈ pbtreeChildren kv kt vt hash ↔
    ∃ keys children, pbtreeNode kv kt vt hash = some (.inner keys children) ∧ w ∈ children := by
  rw [pbtreeChildren]
  rcases pbtreeNode kv kt vt hash with _ | ⟨keys, children⟩ | entries <;> simp

theorem exists_listed {x : U128} (hpath : Reached (· = Pbtree.emptyRoot) (pbtreeChildren kv kt vt) hash x)
    {es : List (Value × Value)} (hleaf : pbtreeNode kv kt vt x = some (.leaf es)) (hne : es ≠ []) :
    ∃ fuel, listed kv kt vt fuel hash ≠ [] := by
  obtain ⟨-, hpath⟩ := hpath
  induction hpath using Relation.ReflTransGen.head_induction_on with
  | refl => exact ⟨1, by rwa [listed, hleaf]⟩
  | head hedge _ ih =>
    obtain ⟨keys, children, hnode, hw⟩ := mem_pbtreeChildren.mp hedge.1
    obtain ⟨fuel, hfuel⟩ := ih
    refine ⟨fuel + 1, fun hnil => hfuel ?_⟩
    rw [listed, hnode] at hnil
    exact List.flatMap_eq_nil_iff.mp hnil _ hw

/-- The other store has no other nodes. -/
def Fewer (kv kv' : Kv) (kt vt : Ty) : Prop :=
  ∀ c, pbtreeNode kv' kt vt c = pbtreeNode kv kt vt c ∨ pbtreeNode kv' kt vt c = none

theorem Fewer.length_listed (h : Fewer kv kv' kt vt) (fuel : ℕ) (hash : U128) :
    (listed kv' kt vt fuel hash).length ≤ (listed kv kt vt fuel hash).length := by
  induction fuel generalizing hash with
  | zero => exact le_rfl
  | succ fuel ih =>
    rcases h hash with hsame | hnone
    · rw [listed, listed, hsame]
      rcases pbtreeNode kv kt vt hash with _ | ⟨keys, children⟩ | entries
      · exact le_rfl
      · dsimp only
        rw [List.length_flatMap, List.length_flatMap]
        exact List.sum_le_sum fun c _ => ih c
      · exact le_rfl
    · rw [listed, hnone]
      exact Nat.zero_le _

/-- Where a node with entries below it is gone, a listing from above has become shorter. -/
theorem Fewer.exists_shorter (h : Fewer kv kv' kt vt) {c : U128}
    (hpath : Reached (· = Pbtree.emptyRoot) (pbtreeChildren kv kt vt) hash c) (hgone : pbtreeNode kv' kt vt c = none)
    (hsome : ∃ fuel, listed kv kt vt fuel c ≠ []) :
    ∃ fuel, (listed kv' kt vt fuel hash).length < (listed kv kt vt fuel hash).length := by
  obtain ⟨-, hpath⟩ := hpath
  have hmissing : ∀ {c fuel}, pbtreeNode kv' kt vt c = none → listed kv' kt vt fuel c = [] := by
    intro c fuel hnone
    cases fuel with
    | zero => rfl
    | succ fuel => rw [listed, hnone]
  induction hpath using Relation.ReflTransGen.head_induction_on with
  | refl =>
    obtain ⟨fuel, hfuel⟩ := hsome
    refine ⟨fuel, ?_⟩
    rw [hmissing hgone]
    exact List.length_pos_of_ne_nil hfuel
  | @head v w hedge _ ih =>
    obtain ⟨keys, children, hnode, hw⟩ := mem_pbtreeChildren.mp hedge.1
    obtain ⟨fuel, hfuel⟩ := ih
    refine ⟨fuel + 1, ?_⟩
    have hlt : (children.map fun c => (listed kv' kt vt fuel c).length).sum <
        (children.map fun c => (listed kv kt vt fuel c).length).sum :=
      List.sum_lt_sum _ _ (fun c _ => h.length_listed fuel c) ⟨w, hw, hfuel⟩
    rcases h v with hsame | hnone
    · rwa [listed, listed, hsame, hnode, List.length_flatMap, List.length_flatMap]
    · rw [hmissing hnone, listed, hnode, List.length_flatMap]
      exact lt_of_le_of_lt (Nat.zero_le _) hlt

end SortedMaps

/-! ### Reads of a live state -/

/-- What is read of a state answers the same over both stores, in any transaction that has only read: its value,
and lookups, ranges and listings of the collection it stands for, at any bound on the descent. -/
def SameReads (kv kv' : Kv) (cell : U128) (ty : Ty) : Prop :=
  kv' cell = kv cell ∧ ∀ bound tx tx', Reading kv tx → Reading kv' tx' →
    match ty, (kv cell).bind (deserialize ty) with
    | .pmap kt vt, some (.pmap root) =>
      (∀ key, (Pmap.getAt key (Pmap.hashKey key) kt vt bound root 0 tx').2 =
        (Pmap.getAt key (Pmap.hashKey key) kt vt bound root 0 tx).2) ∧
      (Pmap.collectEntries kt vt bound root tx').2 = (Pmap.collectEntries kt vt bound root tx).2
    | .pvec elem, some (.pvec len root) =>
      (∀ i, (Pvec.get root len.toNat i tx' elem).2 = (Pvec.get root len.toNat i tx elem).2) ∧
      (Pvec.toVec root len.toNat tx' elem).2 = (Pvec.toVec root len.toNat tx elem).2
    | .pbtree kt vt, some (.pbtree root) =>
      (∀ key, (Pbtree.get bound root key tx' kt vt).2 = (Pbtree.get bound root key tx kt vt).2) ∧
      (∀ lo hi, (Pbtree.range bound root lo hi tx' kt vt).2 = (Pbtree.range bound root lo hi tx kt vt).2) ∧
      (∀ target, (Pbtree.firstGreaterThan bound root target tx' kt vt).2 =
        (Pbtree.firstGreaterThan bound root target tx kt vt).2) ∧
      (Pbtree.entries bound root tx' kt vt).2 = (Pbtree.entries bound root tx kt vt).2
    | _, _ => True

/-- No candidate is a node of a live sorted map with an entry at it or below it, unless it is the cell of a live
state or a node of a live map or vector. -/
def TreesSpared (liveStates : List (U128 × Ty)) (candidates : Finset U128) (kv : Kv) : Prop :=
  ∀ cell kt vt root, (cell, .pbtree kt vt) ∈ liveStates →
    (kv cell).bind (deserialize (.pbtree kt vt)) = some (.pbtree root) →
    ∀ c ∈ candidates, Reached (· = Pbtree.emptyRoot) (pbtreeChildren kv kt vt) root c →
      Bare kv kt vt c ∨ ∃ p ∈ liveStates, c = p.1 ∨ c ∈ reachableFrom kv p.1 p.2

section Sweep

variable {liveStates : List (U128 × Ty)} {candidates : Finset U128} {cell root : U128}

theorem SamePbtree.reads (h : SamePbtree kv kv' kt vt root) (hv : Views kv tx) (hv' : Views kv' tx') (bound : ℕ) :
    (∀ key, (Pbtree.get bound root key tx' kt vt).2 = (Pbtree.get bound root key tx kt vt).2) ∧
    (∀ lo hi, (Pbtree.range bound root lo hi tx' kt vt).2 = (Pbtree.range bound root lo hi tx kt vt).2) ∧
    (∀ target, (Pbtree.firstGreaterThan bound root target tx' kt vt).2 =
      (Pbtree.firstGreaterThan bound root target tx kt vt).2) ∧
    (Pbtree.entries bound root tx' kt vt).2 = (Pbtree.entries bound root tx kt vt).2 := by
  by_cases hroot : root = Pbtree.emptyRoot
  · subst hroot
    exact ⟨fun _ => rfl, fun _ _ => rfl, fun _ => rfl, rfl⟩
  · simp only [Pbtree.get, Pbtree.range, Pbtree.firstGreaterThan, Pbtree.entries, if_neg hroot]
    exact ⟨fun key => (h.getAt key hv hv').same, fun lo hi => (h.rangeAt lo hi hv hv').same,
      fun target => (h.firstGreaterAt hv hv').same,
      by rw [hv.collectEntries.2, hv'.collectEntries.2, h.listed]⟩

theorem fewer_sweep (kt vt : Ty) : Fewer kv (sweep liveStates candidates kv).2 kt vt := by
  intro c
  by_cases hc : c ∈ candidates ∧ c ∉ liveCells kv liveStates
  · refine .inr ?_
    have hnone : (sweep liveStates candidates kv).2 c = none := if_pos hc
    rw [pbtreeNode, Pmap.nodeAt, hnone]
    exact ite_self _
  · have hkeep : (sweep liveStates candidates kv).2 c = kv c := if_neg hc
    exact .inl (by rw [pbtreeNode, pbtreeNode, Pmap.nodeAt, Pmap.nodeAt, hkeep])

/-- A map or a vector among the live states keeps all that its walk comes to. -/
theorem sweep_reachable {ty : Ty} (hmem : (cell, ty) ∈ liveStates) {c : U128} (hc : c ∈ reachableFrom kv cell ty) :
    Pmap.nodeAt (sweep liveStates candidates kv).2 c = Pmap.nodeAt kv c := by
  rw [Pmap.nodeAt, Pmap.nodeAt, sweep_of_live (mem_liveCells.mpr ⟨_, hmem, .inr hc⟩)]

theorem samePmap_sweep (candidates : Finset U128) (hmem : (cell, .pmap kt vt) ∈ liveStates)
    (hread : (kv cell).bind (deserialize (.pmap kt vt)) = some (.pmap root)) :
    SamePmap kv (sweep liveStates candidates kv).2 kt vt root := by
  intro c hc
  rw [Pmap.readNodeKv, Pmap.readNodeKv, sweep_reachable hmem]
  rw [reachableFrom, hread]
  exact mem_pmapReachable.mpr hc

theorem samePvec_sweep (candidates : Finset U128) {len : U64} (hmem : (cell, .pvec elem) ∈ liveStates)
    (hread : (kv cell).bind (deserialize (.pvec elem)) = some (.pvec len root)) :
    SamePvec kv (sweep liveStates candidates kv).2 elem root := by
  intro c hc
  rw [Pvec.readNodeKv, Pvec.readNodeKv, sweep_reachable hmem]
  rw [reachableFrom, hread]
  exact mem_pvecReachable.mpr hc

theorem samePbtree_sweep (hspared : TreesSpared liveStates candidates kv) (hmem : (cell, .pbtree kt vt) ∈ liveStates)
    (hread : (kv cell).bind (deserialize (.pbtree kt vt)) = some (.pbtree root)) :
    SamePbtree kv (sweep liveStates candidates kv).2 kt vt root := by
  intro c hc
  by_cases hcand : c ∈ candidates
  · rcases hspared cell kt vt root hmem hread c hcand hc with hbare | hlive
    · exact (fewer_sweep kt vt c).imp_right fun hnone => ⟨hnone, hbare⟩
    · refine .inl ?_
      rw [pbtreeNode, pbtreeNode, Pmap.nodeAt, Pmap.nodeAt, sweep_of_live (mem_liveCells.mpr hlive)]
  · have hkeep : (sweep liveStates candidates kv).2 c = kv c := if_neg fun h => hcand h.1
    exact .inl (by rw [pbtreeNode, pbtreeNode, Pmap.nodeAt, Pmap.nodeAt, hkeep])

/-- **A sweep leaves all reads of all live states as they were if and only if it spares the sorted maps.** -/
theorem sweep_keeps_iff :
    (∀ p ∈ liveStates, SameReads kv (sweep liveStates candidates kv).2 p.1 p.2) ↔
      TreesSpared liveStates candidates kv := by
  constructor
  · intro hsame cell kt vt root hmem hread c hcand hreach
    by_contra hnot
    push Not at hnot
    obtain ⟨hbare, hdead⟩ := hnot
    have hgone : (sweep liveStates candidates kv).2 c = none := by
      refine if_pos ⟨hcand, fun hlive => ?_⟩
      obtain ⟨p, hp, hc⟩ := mem_liveCells.mp hlive
      exact hc.elim (hdead p hp).1 (hdead p hp).2
    have hnone : pbtreeNode (sweep liveStates candidates kv).2 kt vt c = none := by
      rw [pbtreeNode, Pmap.nodeAt, hgone]
      exact ite_self _
    have hsome : ∃ fuel, listed kv kt vt fuel c ≠ [] := by
      unfold Bare Below at hbare
      push Not at hbare
      obtain ⟨x, hx, es, hleaf, hne⟩ := hbare
      exact exists_listed hx hleaf hne
    obtain ⟨fuel, hlt⟩ := (fewer_sweep kt vt).exists_shorter hreach hnone hsome
    have hreads := (hsame _ hmem).2 fuel _ _ (reading_new kv) (reading_new _)
    dsimp only at hreads
    rw [hread] at hreads
    have hentries := hreads.2.2.2
    rw [Pbtree.entries, Pbtree.entries, if_neg hreach.1, if_neg hreach.1,
      (views_new kv false).collectEntries.2, (views_new _ false).collectEntries.2] at hentries
    exact absurd (congrArg List.length hentries) (by simpa using hlt.ne)
  · rintro hspared ⟨cell, ty⟩ hmem
    refine ⟨sweep_of_live (mem_liveCells.mpr ⟨_, hmem, .inl rfl⟩), fun bound tx tx' htx htx' => ?_⟩
    dsimp only
    split
    · rename_i kt vt root hread
      have h := samePmap_sweep candidates hmem hread
      exact ⟨fun key => (h.getAt key _ htx.views htx'.views).same, (h.collectEntries htx.views htx'.views).same⟩
    · rename_i elem len root hread
      have h := samePvec_sweep candidates hmem hread
      exact ⟨fun i => h.get _ i htx.views htx'.views, h.toVec _ htx.views htx'.views⟩
    · rename_i kt vt root hread
      exact (samePbtree_sweep hspared hmem hread).reads htx.views htx'.views bound
    · trivial

/-- A transaction that puts one entry into a sorted map and points the state `7` at it. -/
def oneEntryTx : Tx :=
  let (tx, root) := Pbtree.set 1 Pbtree.emptyRoot (.u64 1) (.int 10) (Tx.new fun _ => none) .u64 .int
  tx.write 7 (.pbtree (root.toOption.getD Pbtree.emptyRoot))

/-- The store it leaves. -/
def oneEntryKv : Kv := fun c => (oneEntryTx.writes.lookup c).map serialize

/-- Of a live sorted map with one entry, swept with the nodes its own transaction wrote as the candidates, a listing
no longer has the entry. -/
theorem sweep_loses_entry :
    ¬ ∀ p ∈ [(7, .pbtree .u64 .int)], SameReads oneEntryKv
      (sweep [(7, .pbtree .u64 .int)] oneEntryTx.nodeCellsWritten oneEntryKv).2 p.1 p.2 := by
  intro h
  have hreads := (h _ (List.mem_singleton_self _)).2 1 _ _ (reading_new oneEntryKv) (reading_new _)
  have hroot : (oneEntryKv 7).bind (deserialize (.pbtree .u64 .int)) =
      some (.pbtree (Pbtree.nodeCellKey (Pbtree.serializeLeaf [(.u64 1, .int 10)]))) := by decide +kernel
  dsimp only at hreads
  rw [hroot] at hreads
  exact absurd hreads.2.2.2 (by decide +kernel)

end Sweep

end Rend.Gc
