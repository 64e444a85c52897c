import Rend.Nodes
import Rend.Pmap.Node

/-!
# The persistent vector inside a transaction

The wire format of a node cell of `pvec.rs` and its operations on a root and a length: `get`, `set`,
`push` and `toVec`, each threading the transaction it reads and writes node cells in. The depth of the
trie is computed from the length at each call (`depthFor`).

A level is a natural number. Where the code would subtract from level `0`, which it does only when it
meets an inner node there, it panics; here it answers nothing, or fails with the text of the panic.
-/

namespace Rend.Pvec

open Lib Tx

/-- `BRANCH`. -/
def branch : ℕ := 32

def bitsPerLevel : ℕ := 5

def tagInner : Byte := 0x01#8

def tagLeaf : Byte := 0x02#8

/-- The root of the empty vector (`EMPTY`). -/
def emptyRoot : U128 := 0

/-- Keeps node cells apart from those of other collections (`NODE_NS`). -/
def nodeNs : U128 := 0x505645434E4F4445505645434E4F4445#128

/-- A decoded node. -/
inductive Node
  | inner (children : List U128)
  | leaf (elements : List Value)

/-- The number of levels above the leaves. -/
def depthFor (len : ℕ) : ℕ :=
  if len ≤ branch then 0
  else
    let bits := (len - 1).log2 + 1
    (bits + bitsPerLevel - 1) / bitsPerLevel - 1

/-- The slot of an index at a level. -/
def slotAt (i level : ℕ) : ℕ := (i >>> (level * bitsPerLevel)) &&& (branch - 1)

/-- The cell a node with these bytes is stored at. -/
def nodeCellKey (bs : Bytes) : U128 := child nodeNs bs

/-! ### The format of a node -/

def serializeInner (children : List U128) : Bytes :=
  tagInner :: BitVec.ofNat 8 children.length :: children.flatMap fun h => wordBytes 16 h

def serializeLeaf (elements : List Value) : Bytes :=
  tagLeaf :: BitVec.ofNat 8 elements.length :: elements.flatMap fun v => withLen (serialize v)

/-- Reads `n` elements from position `cursor` on. -/
def readElements (elem : Ty) (bs : Bytes) : ℕ → ℕ → Option (List Value)
  | 0, _ => some []
  | n + 1, cursor => do
    let vl ← lenAt bs cursor
    let vb ← getRange bs (cursor + 4) (cursor + 4 + vl)
    let v ← deserialize elem vb
    let vs ← readElements elem bs n (cursor + 4 + vl)
    some (v :: vs)

def deserializeNode (elem : Ty) (bs : Bytes) : Option Node :=
  if bs.head? = some tagInner then do
    let n ← bs[1]?
    let children ← Pmap.readChildren bs n.toNat 2
    some (.inner children)
  else if bs.head? = some tagLeaf then do
    let n ← bs[1]?
    let elements ← readElements elem bs n.toNat 2
    some (.leaf elements)
  else none

/-- Fetches and decodes a node. -/
def readNode (tx : Tx) (hash : U128) (elem : Ty) : Tx × Option Node :=
  if hash = emptyRoot then (tx, none)
  else
    let (tx, v) := tx.readCell hash .bytes
    let (tx, v) := tx.force v
    (tx, (asBytes v).bind (deserializeNode elem))

/-- Stores a node at its own cell and gives the cell's key. -/
def writeNode (tx : Tx) (bs : Bytes) : Tx × U128 := putNode nodeCellKey tx bs

/-! ### Reading the whole vector -/

def subOverflow : String := "attempt to subtract with overflow"

/-- A walk over a sub-tree: the root, how many elements are wanted, and those collected so far. -/
abbrev Collect : Type := U128 → ℕ → List Value → Tx → Tx × Except String (List Value)

/-- Walks the children from left to right until enough has been emitted. -/
def collectChildren (collect : Collect) (subtreeCapacity remaining : ℕ) :
    List U128 → ℕ → List Value → Tx → Tx × Except String (List Value)
  | [], _, out, tx => (tx, .ok out)
  | c :: children, emitted, out, tx =>
    if remaining ≤ emitted then (tx, .ok out)
    else
      let want := min subtreeCapacity (remaining - emitted)
      match collect c want out tx with
      | (tx, .error e) => (tx, .error e)
      | (tx, .ok out') =>
        collectChildren collect subtreeCapacity remaining children (emitted + (out'.length - out.length)) out' tx

/-- One node of the walk; `below` walks its children. -/
def collectNode (elem : Ty) (level : ℕ) (below : Collect) : Collect := fun nodeHash remaining out tx =>
  match readNode tx nodeHash elem with
  | (tx, none) => (tx, .error "pvec internal: missing node during full-walk")
  | (tx, some (.leaf elements)) => (tx, .ok (out ++ elements.take (min elements.length remaining)))
  | (tx, some (.inner children)) =>
    collectChildren below (1 <<< (level * bitsPerLevel)) remaining children 0 out tx

def collectElements (elem : Ty) : ℕ → Collect
  | 0 => collectNode elem 0 fun _ _ _ tx => (tx, .error subOverflow)
  | level + 1 => collectNode elem (level + 1) (collectElements elem level)

def toVec (root : U128) (len : ℕ) (tx : Tx) (elem : Ty) : Tx × Except String (List Value) :=
  if len = 0 then (tx, .ok []) else collectElements elem (depthFor len) root len [] tx

/-! ### Lookup -/

/-- One node of a lookup; `below` looks in the child. -/
def getNode (elem : Ty) (level i : ℕ) (below : U128 → Tx → Tx × Option Value) (nodeHash : U128) (tx : Tx) :
    Tx × Option Value :=
  match readNode tx nodeHash elem with
  | (tx, none) => (tx, none)
  | (tx, some (.leaf elements)) => (tx, elements[slotAt i 0]?)
  | (tx, some (.inner children)) =>
    match children[slotAt i level]? with
    | none => (tx, none)
    | some c => below c tx

def getAt (elem : Ty) (i : ℕ) : ℕ → U128 → Tx → Tx × Option Value
  | 0 => getNode elem 0 i fun _ tx => (tx, none)
  | level + 1 => getNode elem (level + 1) i (getAt elem i level)

def outOfBounds (i len : ℕ) : String :=
  "pvec index out of bounds: " ++ toString i ++ " of length " ++ toString len

def get (root : U128) (len i : ℕ) (tx : Tx) (elem : Ty) : Tx × Except String Value :=
  if len ≤ i then (tx, .error (outOfBounds i len))
  else
    match getAt elem i (depthFor len) root tx with
    | (tx, some v) => (tx, .ok v)
    | (tx, none) => (tx, .error "pvec internal: missing node along read path")

/-! ### Replacing an element -/

/-- One node of a replacement; `below` replaces in the child. -/
def setNode (elem : Ty) (level i : ℕ) (value : Value) (below : U128 → Tx → Tx × Option U128) (nodeHash : U128)
    (tx : Tx) : Tx × Option U128 :=
  match readNode tx nodeHash elem with
  | (tx, none) => (tx, none)
  | (tx, some (.leaf elements)) =>
    let slot := slotAt i 0
    if slot < elements.length then
      let (tx, hash) := writeNode tx (serializeLeaf (elements.set slot value))
      (tx, some hash)
    else (tx, none)
  | (tx, some (.inner children)) =>
    let slot := slotAt i level
    match children[slot]? with
    | none => (tx, none)
    | some c =>
      match below c tx with
      | (tx, none) => (tx, none)
      | (tx, some c) =>
        let (tx, hash) := writeNode tx (serializeInner (children.set slot c))
        (tx, some hash)

def setAt (elem : Ty) (i : ℕ) (value : Value) : ℕ → U128 → Tx → Tx × Option U128
  | 0 => setNode elem 0 i value fun _ tx => (tx, none)
  | level + 1 => setNode elem (level + 1) i value (setAt elem i value level)

def set (root : U128) (len i : ℕ) (value : Value) (tx : Tx) (elem : Ty) : Tx × Except String U128 :=
  if len ≤ i then (tx, .error (outOfBounds i len))
  else
    match setAt elem i value (depthFor len) root tx with
    | (tx, some hash) => (tx, .ok hash)
    | (tx, none) => (tx, .error "pvec internal: missing node along write path")

/-! ### Appending an element -/

/-- What an append starts from: the elements of a leaf, or the children of an inner node. -/
def leafElements : Option Node → List Value
  | some (.leaf elements) => elements
  | _ => []

def innerChildren : Option Node → List U128
  | some (.inner children) => children
  | _ => []

def pushAt (elem : Ty) (i : ℕ) (value : Value) : ℕ → U128 → Tx → Tx × U128
  | 0, nodeHash, tx =>
    let (tx, node) := readNode tx nodeHash elem
    writeNode tx (serializeLeaf (leafElements node ++ [value]))
  | level + 1, nodeHash, tx =>
    let (tx, node) := readNode tx nodeHash elem
    let children := innerChildren node
    match children[slotAt i (level + 1)]? with
    | none =>
      let (tx, c) := pushAt elem i value level emptyRoot tx
      writeNode tx (serializeInner (children ++ [c]))
    | some c =>
      let (tx, c) := pushAt elem i value level c tx
      writeNode tx (serializeInner (children.set (slotAt i (level + 1)) c))

/-- Wraps a root in single-child inner nodes, `n` times. -/
def wrapRoot : ℕ → U128 → Tx → Tx × U128
  | 0, root, tx => (tx, root)
  | n + 1, root, tx =>
    let (tx, root) := writeNode tx (serializeInner [root])
    wrapRoot n root tx

def push (root : U128) (len : ℕ) (value : Value) (tx : Tx) (elem : Ty) : Tx × Except String (U128 × ℕ) :=
  if 2 ^ 64 ≤ len + 1 then (tx, .error "pvec length overflow")
  else
    let newDepth := depthFor (len + 1)
    let (tx, root) := wrapRoot (newDepth - depthFor len) root tx
    let (tx, root) := pushAt elem len value newDepth root tx
    (tx, .ok (root, len + 1))

end Rend.Pvec
