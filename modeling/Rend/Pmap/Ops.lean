import Rend.Ops.Same
import Rend.Tx

/-!
# The persistent map inside a transaction

The operations of `pmap.rs` on a root hash: `get`, `contains`, `set`, `remove` and `entries`, each
threading the transaction it reads and writes node cells in. They follow the code, including
`buildFromEntries`, which hands a batch that falls into one slot to the next level without a node of
its own.

The descent is bounded by `depth`: a hash has slots for the levels `0` to `12`, so an inner node can
stand on thirteen levels.
-/

namespace Rend.Pmap

open Lib

/-- The number of nodes on a path, the leaf included. -/
def depth : ℕ := 14

/-- Fetches and decodes a node. -/
def readNode (tx : Tx) (hash : U128) (kt vt : Ty) : Tx × Option Node :=
  if hash = emptyRoot then (tx, none)
  else
    let (tx, v) := tx.readCell hash .bytes
    let (tx, v) := tx.force v
    (tx, (Tx.asBytes v).bind (deserializeNode kt vt))

/-- Stores a node at its own cell and gives the cell's key. -/
def writeNode (tx : Tx) (bs : Bytes) : Tx × U128 :=
  let hash := nodeCellKey bs
  let tx := (tx.write hash (.bytes bs)).recordNodeCellWrite hash
  ({ tx with nodeLog := tx.nodeLog ++ [bs] }, hash)

/-- The value of the first entry whose key is equal to this one. -/
def findEntry (entries : List (Value × Value)) (key : Value) : Option Value :=
  (entries.find? fun e => Ops.same e.1 key).map Prod.snd

/-! ### Lookup -/

def getAt (key : Value) (h : U64) (kt vt : Ty) : ℕ → U128 → ℕ → Tx → Tx × Option Value
  | 0, _, _, tx => (tx, none)
  | fuel + 1, nodeHash, level, tx =>
    match readNode tx nodeHash kt vt with
    | (tx, none) => (tx, none)
    | (tx, some (.leaf entries)) => (tx, findEntry entries key)
    | (tx, some (.inner bitmap children)) =>
      let slot := bitsAt h level
      if bitmap &&& bitAt slot = 0#32 then (tx, none)
      else getAt key h kt vt fuel (children.getD (rank bitmap slot) 0) (level + 1) tx

def get (root : U128) (key : Value) (tx : Tx) (kt vt : Ty) : Tx × Option Value :=
  if root = emptyRoot then (tx, none) else getAt key (hashKey key) kt vt depth root 0 tx

def contains (root : U128) (key : Value) (tx : Tx) (kt vt : Ty) : Tx × Bool :=
  let (tx, v) := get root key tx kt vt
  (tx, v.isSome)

/-! ### Insertion -/

/-- Entries grouped by their slot at a level, slots in order (the `by_slot` map). -/
def bySlot (entries : List (Value × Value)) (level : ℕ) : List (Fin 32 × List (Value × Value)) :=
  (List.finRange 32).filterMap fun s =>
    match entries.filter fun e => bitsAt (hashKey e.1) level = s with
    | [] => none
    | es => some (s, es)

/-- Builds the children of an inner node one after the other, with its bitmap. -/
def buildChildren (build : List (Value × Value) → Tx → Tx × U128) :
    List (Fin 32 × List (Value × Value)) → Tx × BitVec 32 × List U128 → Tx × BitVec 32 × List U128
  | [], acc => acc
  | (slot, es) :: rest, (tx, bitmap, children) =>
    let (tx, c) := build es tx
    buildChildren build rest (tx, bitmap ||| bitAt slot, children ++ [c])

/-- A sub-tree from a list of entries. The first argument bounds the recursion, whose level stops
at `maxLevels`. -/
def buildFromEntries : ℕ → List (Value × Value) → ℕ → Tx → Tx × U128
  | 0, _, _, tx => (tx, emptyRoot)
  | fuel + 1, entries, level, tx =>
    if entries = [] then (tx, emptyRoot)
    else if entries.length = 1 ∨ maxLevels ≤ level then writeNode tx (serializeLeaf entries)
    else
      match bySlot entries level with
      | [(_, es)] => buildFromEntries fuel es (level + 1) tx
      | groups =>
        let (tx, bitmap, children) :=
          buildChildren (fun es tx => buildFromEntries fuel es (level + 1) tx) groups (tx, 0#32, [])
        writeNode tx (serializeInner bitmap children)

def setAt (key value : Value) (h : U64) (kt vt : Ty) : ℕ → U128 → ℕ → Tx → Tx × U128
  | 0, nodeHash, _, tx => (tx, nodeHash)
  | fuel + 1, nodeHash, level, tx =>
    if nodeHash = emptyRoot then writeNode tx (serializeLeaf [(key, value)])
    else
      match readNode tx nodeHash kt vt with
      | (tx, some (.inner bitmap children)) =>
        let slot := bitsAt h level
        let idx := rank bitmap slot
        if bitmap &&& bitAt slot = 0#32 then
          let (tx, leafHash) := writeNode tx (serializeLeaf [(key, value)])
          writeNode tx (serializeInner (bitmap ||| bitAt slot) (children.insertIdx idx leafHash))
        else
          let (tx, newChild) := setAt key value h kt vt fuel (children.getD idx 0) (level + 1) tx
          writeNode tx (serializeInner bitmap (children.set idx newChild))
      | (tx, node) =>
        let entries := match node with
          | some (.leaf entries) => entries
          | _ => []
        match entries.findIdx? fun e => Ops.same e.1 key with
        | some idx => writeNode tx (serializeLeaf (sortEntries (entries.set idx (key, value))))
        | none =>
          if entries = [] then writeNode tx (serializeLeaf [(key, value)])
          else if maxLevels ≤ level then
            writeNode tx (serializeLeaf (sortEntries (entries ++ [(key, value)])))
          else buildFromEntries (maxLevels + 1) (entries ++ [(key, value)]) level tx

def set (root : U128) (key value : Value) (tx : Tx) (kt vt : Ty) : Tx × U128 :=
  setAt key value (hashKey key) kt vt depth root 0 tx

/-! ### Removal -/

def removeAt (key : Value) (h : U64) (kt vt : Ty) : ℕ → U128 → ℕ → Tx → Tx × U128 × Bool
  | 0, nodeHash, _, tx => (tx, nodeHash, false)
  | fuel + 1, nodeHash, level, tx =>
    match readNode tx nodeHash kt vt with
    | (tx, none) => (tx, nodeHash, false)
    | (tx, some (.leaf entries)) =>
      match entries.findIdx? fun e => Ops.same e.1 key with
      | some idx =>
        if entries.eraseIdx idx = [] then (tx, emptyRoot, true)
        else
          let (tx, h) := writeNode tx (serializeLeaf (entries.eraseIdx idx))
          (tx, h, true)
      | none => (tx, nodeHash, false)
    | (tx, some (.inner bitmap children)) =>
      let slot := bitsAt h level
      if bitmap &&& bitAt slot = 0#32 then (tx, nodeHash, false)
      else
        let idx := rank bitmap slot
        let (tx, newChild, found) := removeAt key h kt vt fuel (children.getD idx 0) (level + 1) tx
        if !found then (tx, nodeHash, false)
        else if newChild = emptyRoot then
          if bitmap &&& ~~~bitAt slot = 0#32 then (tx, emptyRoot, true)
          else
            let (tx, h) := writeNode tx
              (serializeInner (bitmap &&& ~~~bitAt slot) (children.eraseIdx idx))
            (tx, h, true)
        else
          let (tx, h) := writeNode tx (serializeInner bitmap (children.set idx newChild))
          (tx, h, true)

def remove (root : U128) (key : Value) (tx : Tx) (kt vt : Ty) : Tx × U128 × Bool :=
  if root = emptyRoot then (tx, emptyRoot, false)
  else removeAt key (hashKey key) kt vt depth root 0 tx

/-! ### Listing -/

/-- Runs `collect` over the children from left to right, appending what each lists. -/
def collectChildren (collect : U128 → Tx → Tx × List (Value × Value)) :
    List U128 → Tx → Tx × List (Value × Value)
  | [], tx => (tx, [])
  | c :: cs, tx =>
    let (tx, es) := collect c tx
    let (tx, rest) := collectChildren collect cs tx
    (tx, es ++ rest)

def collectEntries (kt vt : Ty) : ℕ → U128 → Tx → Tx × List (Value × Value)
  | 0, _, tx => (tx, [])
  | fuel + 1, hash, tx =>
    match readNode tx hash kt vt with
    | (tx, none) => (tx, [])
    | (tx, some (.leaf entries)) => (tx, entries)
    | (tx, some (.inner _ children)) => collectChildren (collectEntries kt vt fuel) children tx

def entries (root : U128) (tx : Tx) (kt vt : Ty) : Tx × List (Value × Value) :=
  if root = emptyRoot then (tx, []) else collectEntries kt vt depth root tx

end Rend.Pmap
