import Rend.Nodes
import Rend.Pmap.Node

/-!
# The persistent sorted map inside a transaction

The wire format of a node cell of `pbtree.rs` and its operations on a root hash: `get`, `contains`,
`set`, `remove`, `range`, `firstGreaterThan` and `entries`, each threading the transaction it reads and
writes node cells in. They follow the code, including `remove`, which never rebalances: it drops an empty
child with one of the separators beside it, and an inner node with one child left gives way to the child.

The tree has no fixed depth. The first argument of the operations bounds the descent; where it is used up
they answer as for a missing node.
-/

namespace Rend.Pbtree

open Lib Tx

/-- The most keys an inner node has, and the most entries a leaf has (`B`). -/
def maxKeys : ℕ := 32

def tagInner : Byte := 0x01#8

def tagLeaf : Byte := 0x02#8

/-- The root of the empty tree (`EMPTY`). -/
def emptyRoot : U128 := 0

/-- Keeps node cells apart from those of other collections (`NODE_NS`). -/
def nodeNs : U128 := 0x5042545245454E4F4445504254524545#128

/-- A decoded node. -/
inductive Node
  | inner (keys : List Value) (children : List U128)
  | leaf (entries : List (Value × Value))

/-- The cell a node with these bytes is stored at. -/
def nodeCellKey (bs : Bytes) : U128 := child nodeNs bs

/-! ### The order of keys -/

/-- Compares two keys of one type; keys of any other kind are all equal. -/
def compareKeys : Value → Value → Ordering
  | .u64 x, .u64 y => cmp x.toNat y.toNat
  | .u128 x, .u128 y => cmp x.toNat y.toNat
  | .bytes x, .bytes y => cmp x y
  | _, _ => .eq

/-- The child to descend into: the number of keys that are not above `key`. -/
def descendPos (keys : List Value) (key : Value) : ℕ :=
  (keys.takeWhile fun k => (compareKeys k key).isLE).length

/-- Where an entry with the key stands, or where it would be put (`binary_search_by`). -/
def searchEntries (entries : List (Value × Value)) (key : Value) : ℕ ⊕ ℕ :=
  let pos := (entries.takeWhile fun e => (compareKeys e.1 key).isLT).length
  if entries[pos]?.any fun e => (compareKeys e.1 key).isEq then .inl pos else .inr pos

/-! ### The format of a node -/

def serializeInner (keys : List Value) (children : List U128) : Bytes :=
  tagInner :: (lenBytes keys.length ++ (keys.flatMap fun k => withLen (serialize k)) ++
    children.flatMap fun h => wordBytes 16 h)

def serializeLeaf (entries : List (Value × Value)) : Bytes :=
  tagLeaf :: (lenBytes entries.length ++
    entries.flatMap fun e => withLen (serialize e.1) ++ withLen (serialize e.2))

/-- Reads `n` keys from position `cursor` on, with the position behind them. -/
def readKeys (kt : Ty) (bs : Bytes) : ℕ → ℕ → Option (List Value × ℕ)
  | 0, cursor => some ([], cursor)
  | n + 1, cursor => do
    let kl ← lenAt bs cursor
    let kb ← getRange bs (cursor + 4) (cursor + 4 + kl)
    let k ← deserialize kt kb
    let (ks, cursor) ← readKeys kt bs n (cursor + 4 + kl)
    some (k :: ks, cursor)

def deserializeNode (kt vt : Ty) (bs : Bytes) : Option Node :=
  if bs.head? = some tagInner then do
    let n ← lenAt bs 1
    let (keys, cursor) ← readKeys kt bs n 5
    let children ← Pmap.readChildren bs (n + 1) cursor
    some (.inner keys children)
  else if bs.head? = some tagLeaf then do
    let n ← lenAt bs 1
    let entries ← Pmap.readEntries kt vt bs n 5
    some (.leaf entries)
  else none

/-- Fetches and decodes a node. -/
def readNode (tx : Tx) (hash : U128) (kt vt : Ty) : Tx × Option Node :=
  if hash = emptyRoot then (tx, none)
  else
    let (tx, v) := tx.readCell hash .bytes
    let (tx, v) := tx.force v
    (tx, (asBytes v).bind (deserializeNode kt vt))

/-- Stores a node at its own cell and gives the cell's key. -/
def writeNode (tx : Tx) (bs : Bytes) : Tx × U128 := putNode nodeCellKey tx bs

/-! ### Lookup -/

def getAt (key : Value) (kt vt : Ty) : ℕ → U128 → Tx → Tx × Option Value
  | 0, _, tx => (tx, none)
  | fuel + 1, nodeHash, tx =>
    match readNode tx nodeHash kt vt with
    | (tx, none) => (tx, none)
    | (tx, some (.leaf entries)) =>
      (tx, (entries.find? fun e => (compareKeys e.1 key).isEq).map Prod.snd)
    | (tx, some (.inner keys children)) =>
      getAt key kt vt fuel (children.getD (descendPos keys key) emptyRoot) tx

def get (fuel : ℕ) (root : U128) (key : Value) (tx : Tx) (kt vt : Ty) : Tx × Option Value :=
  if root = emptyRoot then (tx, none) else getAt key kt vt fuel root tx

def contains (fuel : ℕ) (root : U128) (key : Value) (tx : Tx) (kt vt : Ty) : Tx × Bool :=
  let (tx, v) := get fuel root key tx kt vt
  (tx, v.isSome)

/-! ### Insertion -/

/-- What the insertion into a sub-tree gives: one new root, or two with the key that separates them. -/
inductive SetResult
  | plain (hash : U128)
  | split (left : U128) (sep : Value) (right : U128)

/-- The entries of a leaf with one entry put in its place. -/
def putEntry (entries : List (Value × Value)) (key value : Value) : List (Value × Value) :=
  match searchEntries entries key with
  | .inl pos => entries.set pos (key, value)
  | .inr pos => entries.insertIdx pos (key, value)

/-- Writes a leaf, or two where it has become too large. -/
def writeLeaf (tx : Tx) (entries : List (Value × Value)) : Tx × SetResult :=
  if entries.length ≤ maxKeys then
    let (tx, hash) := writeNode tx (serializeLeaf entries)
    (tx, .plain hash)
  else
    let mid := entries.length / 2
    let (tx, left) := writeNode tx (serializeLeaf (entries.take mid))
    let (tx, right) := writeNode tx (serializeLeaf (entries.drop mid))
    (tx, .split left ((entries.drop mid).headD (.unit, .unit)).1 right)

/-- Writes an inner node, or two where it has become too large: the middle key goes up. -/
def writeInner (tx : Tx) (keys : List Value) (children : List U128) : Tx × SetResult :=
  if keys.length ≤ maxKeys then
    let (tx, hash) := writeNode tx (serializeInner keys children)
    (tx, .plain hash)
  else
    let mid := keys.length / 2
    let (tx, left) := writeNode tx (serializeInner (keys.take mid) (children.take (mid + 1)))
    let (tx, right) := writeNode tx (serializeInner (keys.drop (mid + 1)) (children.drop (mid + 1)))
    (tx, .split left (keys.getD mid .unit) right)

/-- A hash as the code prints it. -/
def hex (hash : U128) : String := String.ofList (Nat.toDigits 16 hash.toNat)

def setInner (key value : Value) (kt vt : Ty) : ℕ → U128 → Tx → Tx × Except String SetResult
  | 0, nodeHash, tx => (tx, .error ("pbtree: cell " ++ hex nodeHash ++ " missing during set"))
  | fuel + 1, nodeHash, tx =>
    match readNode tx nodeHash kt vt with
    | (tx, none) => (tx, .error ("pbtree: cell " ++ hex nodeHash ++ " missing during set"))
    | (tx, some (.leaf entries)) =>
      let (tx, r) := writeLeaf tx (putEntry entries key value)
      (tx, .ok r)
    | (tx, some (.inner keys children)) =>
      let pos := descendPos keys key
      match setInner key value kt vt fuel (children.getD pos emptyRoot) tx with
      | (tx, .error e) => (tx, .error e)
      | (tx, .ok (.plain newChild)) =>
        let (tx, hash) := writeNode tx (serializeInner keys (children.set pos newChild))
        (tx, .ok (.plain hash))
      | (tx, .ok (.split left sep right)) =>
        let (tx, r) := writeInner tx (keys.insertIdx pos sep) ((children.set pos left).insertIdx (pos + 1) right)
        (tx, .ok r)

def set (fuel : ℕ) (root : U128) (key value : Value) (tx : Tx) (kt vt : Ty) : Tx × Except String U128 :=
  if root = emptyRoot then
    let (tx, hash) := writeNode tx (serializeLeaf [(key, value)])
    (tx, .ok hash)
  else
    match setInner key value kt vt fuel root tx with
    | (tx, .error e) => (tx, .error e)
    | (tx, .ok (.plain hash)) => (tx, .ok hash)
    | (tx, .ok (.split left sep right)) =>
      let (tx, hash) := writeNode tx (serializeInner [sep] [left, right])
      (tx, .ok hash)

/-! ### Removal -/

/-- What the removal from a sub-tree gives. -/
inductive RemoveResult
  | unchanged
  | plain (hash : U128)
  | gone

/-- Drops an empty child with one of the keys beside it. -/
def dropChild (tx : Tx) (keys : List Value) (children : List U128) (pos : ℕ) : Tx × RemoveResult :=
  let newChildren := children.eraseIdx pos
  let newKeys := if pos < keys.length then keys.eraseIdx pos else if 0 < pos then keys.eraseIdx (pos - 1) else keys
  if newChildren.isEmpty then (tx, .gone)
  else if newKeys.isEmpty && newChildren.length == 1 then (tx, .plain (newChildren.headD emptyRoot))
  else
    let (tx, hash) := writeNode tx (serializeInner newKeys newChildren)
    (tx, .plain hash)

def removeInner (key : Value) (kt vt : Ty) : ℕ → U128 → Tx → Tx × Except String RemoveResult
  | 0, nodeHash, tx => (tx, .error ("pbtree: cell " ++ hex nodeHash ++ " missing during remove"))
  | fuel + 1, nodeHash, tx =>
    match readNode tx nodeHash kt vt with
    | (tx, none) => (tx, .error ("pbtree: cell " ++ hex nodeHash ++ " missing during remove"))
    | (tx, some (.leaf entries)) =>
      match searchEntries entries key with
      | .inr _ => (tx, .ok .unchanged)
      | .inl pos =>
        if (entries.eraseIdx pos).isEmpty then (tx, .ok .gone)
        else
          let (tx, hash) := writeNode tx (serializeLeaf (entries.eraseIdx pos))
          (tx, .ok (.plain hash))
    | (tx, some (.inner keys children)) =>
      let pos := descendPos keys key
      match removeInner key kt vt fuel (children.getD pos emptyRoot) tx with
      | (tx, .error e) => (tx, .error e)
      | (tx, .ok .unchanged) => (tx, .ok .unchanged)
      | (tx, .ok (.plain newChild)) =>
        let (tx, hash) := writeNode tx (serializeInner keys (children.set pos newChild))
        (tx, .ok (.plain hash))
      | (tx, .ok .gone) =>
        let (tx, r) := dropChild tx keys children pos
        (tx, .ok r)

def remove (fuel : ℕ) (root : U128) (key : Value) (tx : Tx) (kt vt : Ty) : Tx × Except String U128 :=
  if root = emptyRoot then (tx, .ok emptyRoot)
  else
    match removeInner key kt vt fuel root tx with
    | (tx, .error e) => (tx, .error e)
    | (tx, .ok .unchanged) => (tx, .ok root)
    | (tx, .ok (.plain hash)) => (tx, .ok hash)
    | (tx, .ok .gone) => (tx, .ok emptyRoot)

/-! ### Ranges and listings -/

/-- The values of a leaf within the bounds, behind those found so far. -/
def rangeLeaf (lo hi : Value) : List (Value × Value) → List Value → List Value
  | [], out => out
  | (k, v) :: entries, out =>
    if (compareKeys k lo).isLT then rangeLeaf lo hi entries out
    else if (compareKeys k hi).isGT then out
    else rangeLeaf lo hi entries (out ++ [v])

/-- Walks children from left to right, each adding to what has been found. -/
def walkChildren {α : Type} (walk : U128 → List α → Tx → Tx × List α) : List U128 → List α → Tx → Tx × List α
  | [], out, tx => (tx, out)
  | c :: children, out, tx =>
    let (tx, out) := walk c out tx
    walkChildren walk children out tx

def rangeAt (lo hi : Value) (kt vt : Ty) : ℕ → U128 → List Value → Tx → Tx × List Value
  | 0, _, out, tx => (tx, out)
  | fuel + 1, nodeHash, out, tx =>
    match readNode tx nodeHash kt vt with
    | (tx, none) => (tx, out)
    | (tx, some (.leaf entries)) => (tx, rangeLeaf lo hi entries out)
    | (tx, some (.inner keys children)) =>
      let loPos := descendPos keys lo
      let hiPos := descendPos keys hi
      walkChildren (rangeAt lo hi kt vt fuel) ((children.take (hiPos + 1)).drop loPos) out tx

def range (fuel : ℕ) (root : U128) (lo hi : Value) (tx : Tx) (kt vt : Ty) : Tx × List Value :=
  if root = emptyRoot then (tx, []) else rangeAt lo hi kt vt fuel root [] tx

def collectEntries (kt vt : Ty) : ℕ → U128 → List (Value × Value) → Tx → Tx × List (Value × Value)
  | 0, _, out, tx => (tx, out)
  | fuel + 1, hash, out, tx =>
    match readNode tx hash kt vt with
    | (tx, none) => (tx, out)
    | (tx, some (.leaf entries)) => (tx, out ++ entries)
    | (tx, some (.inner _ children)) => walkChildren (collectEntries kt vt fuel) children out tx

def entries (fuel : ℕ) (root : U128) (tx : Tx) (kt vt : Ty) : Tx × List (Value × Value) :=
  if root = emptyRoot then (tx, []) else collectEntries kt vt fuel root [] tx

/-- Whether a key is above the target; without a target every key is. -/
def isAbove (target : Option Value) (k : Value) : Bool := target.all fun t => (compareKeys k t).isGT

/-- The first child that has an answer. Only the first of them is asked with the target. -/
def firstOf {α : Type} (ask : Option Value → U128 → Tx → Tx × Option α) :
    Option Value → List U128 → Tx → Tx × Option α
  | _, [], tx => (tx, none)
  | target, c :: children, tx =>
    match ask target c tx with
    | (tx, some a) => (tx, some a)
    | (tx, none) => firstOf ask none children tx

/-- The first child that can hold a key above the target. -/
def startPos (keys : List Value) (target : Option Value) : ℕ :=
  target.elim 0 fun t => (keys.findIdx? fun k => (compareKeys k t).isGT).getD keys.length

def firstGreaterAt (kt vt : Ty) : ℕ → Option Value → U128 → Tx → Tx × Option (Value × Value)
  | 0, _, _, tx => (tx, none)
  | fuel + 1, target, hash, tx =>
    match readNode tx hash kt vt with
    | (tx, none) => (tx, none)
    | (tx, some (.leaf entries)) => (tx, entries.find? fun e => isAbove target e.1)
    | (tx, some (.inner keys children)) =>
      firstOf (firstGreaterAt kt vt fuel) target (children.drop (startPos keys target)) tx

def firstGreaterThan (fuel : ℕ) (root : U128) (target : Option Value) (tx : Tx) (kt vt : Ty) :
    Tx × Option (Value × Value) :=
  if root = emptyRoot then (tx, none) else firstGreaterAt kt vt fuel target root tx

end Rend.Pbtree
