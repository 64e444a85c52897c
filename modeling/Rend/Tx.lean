import Rend.Ops.Same
import Rend.Pmap.Node
import Mathlib.Data.List.AList

/-!
# Transactions

A transaction reads an immutable snapshot of the store through a read cache and a write buffer
(`tx.rs`). Reads of a written cell see the written value; a first read is recorded as observed. A
shadow transaction also sees the writes and reads of its ancestors. In lazy mode a read that misses
the caches is queued and answered with a pending handle; `force` drains the queue, and with it the
pmap lookups in flight, one trie level at a time.

A hash map is an association list. `nodeLog` is a history variable: the encodings handed to the node
writer so far, oldest first. No operation reads it.
-/

namespace Rend

open Lib Pmap

/-- The store: the bytes held at each cell. -/
abbrev Kv := U128 → Option Bytes

/-- A map from cells to values. -/
abbrev Cells := AList fun _ : U128 => Value

/-- A queued read (`PendingRead`). -/
structure PendingRead where
  id : ℕ
  key : U128
  ty : Ty

/-- A pmap lookup in flight (`PWalk`), waiting for the node at `cell`. -/
structure PWalk where
  handle : ℕ
  key : Value
  keyHash : U64
  keyTy : Ty
  valTy : Ty
  level : ℕ
  cell : U128

/-- A transaction (`Tx`). -/
structure Tx where
  kv : Kv
  /-- Writes and reads of the ancestors of a shadow transaction, nearest first. -/
  ancestors : List (Cells × Cells) := []
  /-- First-observed value of each cell read. -/
  reads : Cells := ∅
  /-- Pending writes. -/
  writes : Cells := ∅
  lazy : Bool := false
  pending : List PendingRead := []
  resolved : AList (fun _ : ℕ => Value) := ∅
  nextHandle : ℕ := 0
  /-- Key and value types of the pmap cells touched. -/
  pmapTypes : AList (fun _ : U128 => Ty × Ty) := ∅
  /-- Element types of the pvec cells touched. -/
  pvecTypes : AList (fun _ : U128 => Ty) := ∅
  /-- Cells written as tree nodes. -/
  nodeCellsWritten : Finset U128 := ∅
  pendingWalks : List PWalk := []
  /-- History: the encodings written as nodes. -/
  nodeLog : List Bytes := []

namespace Tx

/-- A root transaction over a store. -/
def new (kv : Kv) : Tx := { kv := kv }

/-- A shadow transaction over `parent`. -/
def shadowOf (parent : Tx) : Tx :=
  { kv := parent.kv, ancestors := (parent.writes, parent.reads) :: parent.ancestors,
    lazy := parent.lazy, nextHandle := parent.nextHandle }

def parentLookupIn (key : U128) : List (Cells × Cells) → Option Value
  | [] => none
  | (writes, reads) :: rest =>
    match writes.lookup key with
    | some v => some v
    | none =>
      match reads.lookup key with
      | some v => some v
      | none => parentLookupIn key rest

/-- What the nearest ancestor that knows the cell holds there. -/
def parentLookup (tx : Tx) (key : U128) : Option Value := parentLookupIn key tx.ancestors

def recordNodeCellWrite (tx : Tx) (cell : U128) : Tx :=
  { tx with nodeCellsWritten := insert cell tx.nodeCellsWritten }

def recordPmapTypes (tx : Tx) (cell : U128) (kt vt : Ty) : Tx :=
  match tx.pmapTypes.lookup cell with
  | some _ => tx
  | none => { tx with pmapTypes := tx.pmapTypes.insert cell (kt, vt) }

def recordPvecType (tx : Tx) (cell : U128) (elem : Ty) : Tx :=
  match tx.pvecTypes.lookup cell with
  | some _ => tx
  | none => { tx with pvecTypes := tx.pvecTypes.insert cell elem }

/-- The value at a cell as the store gives it at a type, its default when absent or unreadable. -/
def observed (kv : Kv) (key : U128) (ty : Ty) (default : Value) : Value :=
  match kv key with
  | some bs => (deserialize ty bs).getD default
  | none => default

/-! ### Draining queued reads -/

def observe (tx : Tx) (id : ℕ) (key : U128) (v : Value) : Tx :=
  { tx with reads := tx.reads.insert key v, resolved := tx.resolved.insert id v }

/-- Answers every queued read. Those an ancestor knows are answered last, as the code does. -/
def flushPending (tx : Tx) : Tx :=
  let fetch := tx.pending.filter fun p => (tx.parentLookup p.key).isNone
  let inline := tx.pending.filter fun p => (tx.parentLookup p.key).isSome
  let tx₁ := fetch.foldl
    (fun t p => t.observe p.id p.key (observed tx.kv p.key p.ty (Value.defaultFor p.ty)))
    { tx with pending := [] }
  inline.foldl (fun t p => t.observe p.id p.key ((tx.parentLookup p.key).getD .unit)) tx₁

/-- What one step of a lookup gives (`AdvanceResult`). -/
inductive AdvanceResult
  | done (v : Value)
  | continue (w : PWalk)

/-- Moves one lookup down by one node (`advance_pmap_walk`). -/
def advancePmapWalk (w : PWalk) (bs : Option Bytes) : AdvanceResult :=
  match bs.bind (deserializeNode w.keyTy w.valTy) with
  | none => .done (Value.defaultFor w.valTy)
  | some (.leaf entries) =>
    .done (((entries.find? fun e => Ops.same e.1 w.key).map Prod.snd).getD (Value.defaultFor w.valTy))
  | some (.inner bitmap children) =>
    if maxLevels < w.level + 1 then .done (Value.defaultFor w.valTy)
    else
      let slot := bitsAt w.keyHash w.level
      if bitmap &&& bitAt slot = 0#32 then .done (Value.defaultFor w.valTy)
      else .continue { w with level := w.level + 1, cell := children.getD (rank bitmap slot) 0 }

/-- The bytes a cell value carries. -/
def asBytes : Value → Option Bytes
  | .bytes b => some b
  | _ => none

/-- The node bytes a walk finds at a cell, with the read it records. -/
def fetchNode (tx : Tx) (cell : U128) : Tx × Option Bytes :=
  match tx.writes.lookup cell with
  | some v => (tx, asBytes v)
  | none =>
    match tx.reads.lookup cell with
    | some v => (tx, asBytes v)
    | none =>
      let v := (tx.parentLookup cell).getD (observed tx.kv cell .bytes (.bytes []))
      ({ tx with reads := tx.reads.insert cell v }, asBytes v)

/-- Moves one lookup, and keeps it in flight or installs its result. -/
def advanceWalk (tx : Tx) (w : PWalk) : Tx :=
  let (tx, bs) := tx.fetchNode w.cell
  match advancePmapWalk w bs with
  | .done v => { tx with resolved := tx.resolved.insert w.handle v }
  | .continue w => { tx with pendingWalks := tx.pendingWalks ++ [w] }

/-- Moves every lookup in flight down by one level. -/
def advanceWalks (tx : Tx) : Tx := tx.pendingWalks.foldl advanceWalk { tx with pendingWalks := [] }

/-- The loop of `force`: a lookup takes at most `maxLevels + 1` rounds. -/
def drain : ℕ → Tx → Tx
  | 0, tx => tx
  | n + 1, tx =>
    if tx.pending.isEmpty && tx.pendingWalks.isEmpty then tx
    else
      let tx₁ := if tx.pending.isEmpty then tx else tx.flushPending
      drain n (if tx.pendingWalks.isEmpty then tx₁ else tx₁.advanceWalks)

end Tx

mutual

/-- Whether a pending handle is reachable through arrays, sets, tuples, struct fields and dicts. -/
def containsPending : Value → Bool
  | .pending _ => true
  | .array elems => containsPendingList elems
  | .set elems => containsPendingList elems
  | .tuple elems => containsPendingList elems
  | .struct _ fields => containsPendingFields fields
  | .dict pairs => containsPendingPairs pairs
  | _ => false
  termination_by structural x => x

def containsPendingList : List Value → Bool
  | [] => false
  | v :: vs => containsPending v || containsPendingList vs
  termination_by structural x => x

def containsPendingFields : List (String × Value) → Bool
  | [] => false
  | (_, v) :: fs => containsPending v || containsPendingFields fs
  termination_by structural x => x

def containsPendingPairs : List (Value × Value) → Bool
  | [] => false
  | (k, v) :: ps => containsPending k || containsPending v || containsPendingPairs ps
  termination_by structural x => x

end

mutual

/-- Puts resolved values in place of their handles. A handle that was never issued makes the code
panic; here it stays. -/
def substituteResolved (resolved : AList fun _ : ℕ => Value) : Value → Value
  | .pending id => (resolved.lookup id).getD (.pending id)
  | .array elems => .array (substituteResolvedList resolved elems)
  | .set elems => .set (substituteResolvedList resolved elems)
  | .tuple elems => .tuple (substituteResolvedList resolved elems)
  | .dict pairs => .dict (substituteResolvedPairs resolved pairs)
  | .struct name fields => .struct name (substituteResolvedFields resolved fields)
  | v => v
  termination_by structural x => x

def substituteResolvedList (resolved : AList fun _ : ℕ => Value) : List Value → List Value
  | [] => []
  | v :: vs => substituteResolved resolved v :: substituteResolvedList resolved vs
  termination_by structural x => x

def substituteResolvedFields (resolved : AList fun _ : ℕ => Value) :
    List (String × Value) → List (String × Value)
  | [] => []
  | (n, v) :: fs => (n, substituteResolved resolved v) :: substituteResolvedFields resolved fs
  termination_by structural x => x

def substituteResolvedPairs (resolved : AList fun _ : ℕ => Value) :
    List (Value × Value) → List (Value × Value)
  | [] => []
  | (k, v) :: ps =>
    (substituteResolved resolved k, substituteResolved resolved v) :: substituteResolvedPairs resolved ps
  termination_by structural x => x

end

namespace Tx

/-- Resolves every pending handle in a value. -/
def force (tx : Tx) (v : Value) : Tx × Value :=
  if containsPending v then
    let tx := tx.drain (maxLevels + 2)
    (tx, substituteResolved tx.resolved v)
  else (tx, v)

/-- Reads a cell, with `default` as the value of an unset one. -/
def read (tx : Tx) (key : U128) (ty : Ty) (default : Value) : Tx × Value :=
  match tx.writes.lookup key with
  | some v => (tx, v)
  | none =>
    match tx.reads.lookup key with
    | some v => (tx, v)
    | none =>
      let v := (tx.parentLookup key).getD (observed tx.kv key ty default)
      ({ tx with reads := tx.reads.insert key v }, v)

def write (tx : Tx) (key : U128) (value : Value) : Tx :=
  let (tx, value) := tx.force value
  { tx with writes := tx.writes.insert key value }

/-- Queues a read and answers with its handle. -/
def queue (tx : Tx) (key : U128) (ty : Ty) : Tx × Value :=
  ({ tx with nextHandle := tx.nextHandle + 1,
             pending := tx.pending ++ [⟨tx.nextHandle, key, ty⟩] }, .pending tx.nextHandle)

/-- Reads a cell as one value; in lazy mode a miss is queued. -/
def readCell (tx : Tx) (key : U128) (ty : Ty) : Tx × Value :=
  match tx.writes.lookup key with
  | some v => (tx, v)
  | none =>
    match tx.reads.lookup key with
    | some v => (tx, v)
    | none =>
      match tx.parentLookup key with
      | some v => ({ tx with reads := tx.reads.insert key v }, v)
      | none => if tx.lazy then tx.queue key ty else tx.read key ty (Value.defaultFor ty)

/-- Reads a cell at a type that is no struct (`read_typed`). In lazy mode a miss is queued before the
ancestors are asked. -/
def readTyped (tx : Tx) (key : U128) (ty : Ty) : Tx × Value :=
  match tx.writes.lookup key with
  | some v => (tx, v)
  | none =>
    match tx.reads.lookup key with
    | some v => (tx, v)
    | none => if tx.lazy then tx.queue key ty else tx.read key ty (Value.defaultFor ty)

def setLazy (tx : Tx) (lazy : Bool) : Tx := { tx with lazy := lazy }

/-- Folds what a shadow transaction has done into its parent: reads as first observed, writes
overwriting. -/
def mergeDelta (tx delta : Tx) : Tx :=
  { tx with reads := tx.reads ∪ delta.reads
            writes := delta.writes ∪ tx.writes
            nodeCellsWritten := tx.nodeCellsWritten ∪ delta.nodeCellsWritten
            pmapTypes := delta.pmapTypes ∪ tx.pmapTypes
            pvecTypes := delta.pvecTypes ∪ tx.pvecTypes
            nodeLog := tx.nodeLog ++ delta.nodeLog }

/-- Begins a lazy lookup in a pmap (`begin_pmap_get`). -/
def beginPmapGet (tx : Tx) (root : U128) (key : Value) (kt vt : Ty) : Tx × Value :=
  if root = emptyRoot then (tx, Value.defaultFor vt)
  else
    let w : PWalk := ⟨tx.nextHandle, key, hashKey key, kt, vt, 0, root⟩
    ({ tx with nextHandle := tx.nextHandle + 1, pendingWalks := tx.pendingWalks ++ [w] },
      .pending tx.nextHandle)

end Tx

end Rend
