import Rend.Serialize
import Rend.Lib.Dense
import Rend.Lib.Hamt

/-!
# Nodes of the persistent map

The wire format of a node cell (`serialize_inner`, `serialize_leaf`, `deserialize_node`), the key it
is stored at (`node_cell_key`), and the 5-bit slices of a key's hash that route it (`hash_key`,
`bits_at`).

A node written by the code reads back as it was, provided its keys and values do
(`deserializeNode_inner`, `deserializeNode_leaf`). Leaf entries are kept here as pairs of encoded
bytes, which is what the cell holds: `leafBytes` is the cell of such a list, and `serializeLeaf`
is `leafBytes` of the encoded entries in the order of their keys.
-/

namespace Rend.Pmap

open Lib

/-- Levels below which a leaf is no longer split (`MAX_LEVELS`). -/
def maxLevels : ℕ := 10

def tagInner : Byte := 0x01#8

def tagLeaf : Byte := 0x02#8

/-- The root of the empty tree (`EMPTY`). -/
def emptyRoot : U128 := 0

/-- Keeps node cells apart from state cells (`NODE_NS`). -/
def nodeNs : U128 := 0x504D41504E4F4445504D41504E4F4445#128

/-- The cell a node with these bytes is stored at. -/
def nodeCellKey (bs : Bytes) : U128 := child nodeNs bs

/-- A decoded node. -/
inductive Node
  | inner (bitmap : BitVec 32) (children : List U128)
  | leaf (entries : List (Value × Value))

/-- The hash that routes a key: the low 64 bits of the hash of its encoding. -/
def hashBytes (kb : Bytes) : U64 := (child 0 kb).setWidth 64

def hashKey (key : Value) : U64 := hashBytes (serialize key)

/-- The slot of a hash at a level. -/
def bitsAt (h : U64) (level : ℕ) : Fin 32 :=
  ⟨(h >>> (level * 5)).toNat % 32, Nat.mod_lt _ (by norm_num)⟩

/-! ### Writing a node -/

def serializeInner (bitmap : BitVec 32) (children : List U128) : Bytes :=
  tagInner :: (wordBytes 4 bitmap ++ [BitVec.ofNat 8 children.length] ++
    children.flatMap fun h => wordBytes 16 h)

/-- Entries in the order of their encoded keys. -/
def sortEntries (entries : List (Value × Value)) : List (Value × Value) :=
  entries.insertionSort fun a b => serialize a.1 ≤ serialize b.1

def serializeLeaf (entries : List (Value × Value)) : Bytes :=
  let ordered := sortEntries entries
  tagLeaf :: (lenBytes ordered.length ++
    ordered.flatMap fun e => withLen (serialize e.1) ++ withLen (serialize e.2))

/-! ### Reading a node -/

/-- Reads `n` child hashes from position `cursor` on. -/
def readChildren (bs : Bytes) : ℕ → ℕ → Option (List U128)
  | 0, _ => some []
  | n + 1, cursor => do
    let h ← getRange bs cursor (cursor + 16)
    let hs ← readChildren bs n (cursor + 16)
    some (BitVec.ofNat 128 (ofBeBytes h) :: hs)

/-- Reads `n` entries from position `cursor` on. -/
def readEntries (kt vt : Ty) (bs : Bytes) : ℕ → ℕ → Option (List (Value × Value))
  | 0, _ => some []
  | n + 1, cursor => do
    let kl ← lenAt bs cursor
    let kb ← getRange bs (cursor + 4) (cursor + 4 + kl)
    let k ← deserialize kt kb
    let vl ← lenAt bs (cursor + 4 + kl)
    let vb ← getRange bs (cursor + 4 + kl + 4) (cursor + 4 + kl + 4 + vl)
    let v ← deserialize vt vb
    let es ← readEntries kt vt bs n (cursor + 4 + kl + 4 + vl)
    some ((k, v) :: es)

def deserializeNode (kt vt : Ty) (bs : Bytes) : Option Node :=
  if bs.head? = some tagInner then do
    let bitmap ← getRange bs 1 5
    let n ← bs[5]?
    let children ← readChildren bs n.toNat 6
    if countOnes (BitVec.ofNat 32 (ofBeBytes bitmap)) = n.toNat then
      some (.inner (BitVec.ofNat 32 (ofBeBytes bitmap)) children)
    else none
  else if bs.head? = some tagLeaf then do
    let n ← lenAt bs 1
    let entries ← readEntries kt vt bs n 5
    some (.leaf entries)
  else none

/-! ### Slices at known positions -/

theorem getRange_append {pre mid post : Bytes} {i j : ℕ} (hi : pre.length = i)
    (hj : pre.length + mid.length = j) : getRange (pre ++ (mid ++ post)) i j = some mid := by
  subst hi hj
  rw [getRange, if_pos (by simp), ← List.append_assoc, List.take_left' (by simp), List.drop_left' rfl]

theorem lenAt_append {pre post : Bytes} {i n : ℕ} (hi : pre.length = i) (hn : n < 2 ^ 32) :
    lenAt (pre ++ (lenBytes n ++ post)) i = some n := by
  rw [lenAt, getRange_append hi (by simp [hi, lenBytes]), Option.map_some, lenBytes,
    ofBeBytes_beBytes (by omega)]

/-! ### An inner node reads back -/

theorem readChildren_append (pre post : Bytes) (children : List U128) :
    readChildren (pre ++ ((children.flatMap fun h => wordBytes 16 h) ++ post)) children.length
      pre.length = some children := by
  induction children generalizing pre with
  | nil => rfl
  | cons h hs ih =>
    have hh : getRange (pre ++ (wordBytes 16 h ++ ((hs.flatMap fun h => wordBytes 16 h) ++ post)))
        pre.length (pre.length + 16) = some (wordBytes 16 h) := getRange_append rfl (by simp)
    have htail := ih (pre ++ wordBytes 16 h)
    rw [List.length_append, length_wordBytes, List.append_assoc] at htail
    rw [List.flatMap_cons, List.append_assoc, List.length_cons, readChildren, hh]
    simp only [Option.bind_eq_bind, Option.bind_some, htail]
    rw [ofBeBytes_wordBytes (by norm_num)]

theorem deserializeNode_inner (kt vt : Ty) {bitmap : BitVec 32} {children : List U128}
    (h : countOnes bitmap = children.length) :
    deserializeNode kt vt (serializeInner bitmap children) = some (.inner bitmap children) := by
  have hle : children.length ≤ 32 := by
    have hcount : countOnes bitmap ≤ (List.finRange 32).length := List.countP_le_length
    simpa [h] using hcount
  have hn : (BitVec.ofNat 8 children.length).toNat = children.length := by
    rw [BitVec.toNat_ofNat, Nat.mod_eq_of_lt (by omega)]
  have hbm : getRange (serializeInner bitmap children) 1 5 = some (wordBytes 4 bitmap) := by
    have := @getRange_append [tagInner] (wordBytes 4 bitmap)
      ([BitVec.ofNat 8 children.length] ++ children.flatMap fun h => wordBytes 16 h) 1 5 rfl (by simp)
    simpa [serializeInner] using this
  have hcount : (serializeInner bitmap children)[5]? = some (BitVec.ofNat 8 children.length) := by
    simp [serializeInner]
  have hch : readChildren (serializeInner bitmap children) children.length 6 = some children := by
    have := readChildren_append
      (tagInner :: (wordBytes 4 bitmap ++ [BitVec.ofNat 8 children.length])) [] children
    simpa [serializeInner] using this
  have hhead : (serializeInner bitmap children).head? = some tagInner := rfl
  rw [deserializeNode, if_pos hhead, hbm, hcount]
  simp only [Option.bind_eq_bind, Option.bind_some, hn, hch, ofBeBytes_wordBytes (w := 32) (n := 4)
    (by norm_num), h, if_true]

/-! ### A leaf reads back -/

/-- The cell of a list of encoded entries. -/
def leafBytes (es : List (Bytes × Bytes)) : Bytes :=
  tagLeaf :: (lenBytes es.length ++ es.flatMap fun e => withLen e.1 ++ withLen e.2)

/-- An entry as the cell holds it. -/
def encEntry (e : Value × Value) : Bytes × Bytes := (serialize e.1, serialize e.2)

theorem sortEntries_map (entries : List (Value × Value)) :
    (sortEntries entries).map encEntry = sortKeys (entries.map encEntry) := by
  rw [sortEntries, sortKeys]
  exact List.map_insertionSort _ _ encEntry entries fun a _ b _ => Iff.rfl

theorem serializeLeaf_eq (entries : List (Value × Value)) :
    serializeLeaf entries = leafBytes (sortKeys (entries.map encEntry)) := by
  rw [← sortEntries_map, serializeLeaf, leafBytes, List.length_map, List.flatMap_map]
  rfl

/-- The bytes encode a value of the type, and are short enough for a length field. -/
def Codes (ty : Ty) (bs : Bytes) : Prop :=
  bs.length < 2 ^ 32 ∧ ∃ v, deserialize ty bs = some v ∧ serialize v = bs

/-- The value these bytes encode. -/
def decode (ty : Ty) (bs : Bytes) : Value := (deserialize ty bs).getD .unit

theorem Codes.deserialize {ty : Ty} {bs : Bytes} (h : Codes ty bs) :
    deserialize ty bs = some (decode ty bs) := by
  obtain ⟨-, v, hv, -⟩ := h
  rw [decode, hv]
  rfl

@[simp] theorem Codes.serialize_decode {ty : Ty} {bs : Bytes} (h : Codes ty bs) :
    serialize (decode ty bs) = bs := by
  obtain ⟨-, v, hv, hs⟩ := h
  rw [decode, hv]
  exact hs

/-- The decoded entry. -/
def decEntry (kt vt : Ty) (e : Bytes × Bytes) : Value × Value := (decode kt e.1, decode vt e.2)

theorem encEntry_decEntry {kt vt : Ty} {e : Bytes × Bytes} (hk : Codes kt e.1) (hv : Codes vt e.2) :
    encEntry (decEntry kt vt e) = e := by
  simp [encEntry, decEntry, hk, hv]

theorem readEntries_append {kt vt : Ty} (pre post : Bytes) {es : List (Bytes × Bytes)}
    (h : ∀ e ∈ es, Codes kt e.1 ∧ Codes vt e.2) :
    readEntries kt vt (pre ++ ((es.flatMap fun e => withLen e.1 ++ withLen e.2) ++ post)) es.length
      pre.length = some (es.map (decEntry kt vt)) := by
  induction es generalizing pre with
  | nil => rfl
  | cons e es ih =>
    obtain ⟨kb, vb⟩ := e
    obtain ⟨hk, hv⟩ := h (kb, vb) (by simp)
    -- the cell, with the first entry's four fields laid out one after the other
    let rest := (es.flatMap fun e => withLen e.1 ++ withLen e.2) ++ post
    have hcell : pre ++ (((kb, vb) :: es).flatMap (fun e => withLen e.1 ++ withLen e.2) ++ post) =
        pre ++ (lenBytes kb.length ++ (kb ++ (lenBytes vb.length ++ (vb ++ rest)))) := by
      simp [rest, withLen]
    have hlen4 : ∀ n, (lenBytes n).length = 4 := fun n => by simp [lenBytes]
    rw [hcell, List.length_cons, readEntries]
    have h1 : lenAt (pre ++ (lenBytes kb.length ++ (kb ++ (lenBytes vb.length ++ (vb ++ rest)))))
        pre.length = some kb.length := lenAt_append rfl hk.1
    have h2 : getRange (pre ++ (lenBytes kb.length ++ (kb ++ (lenBytes vb.length ++ (vb ++ rest)))))
        (pre.length + 4) (pre.length + 4 + kb.length) = some kb := by
      rw [← List.append_assoc]
      exact getRange_append (by simp [hlen4]) (by simp [hlen4, Nat.add_assoc])
    have h3 : lenAt (pre ++ (lenBytes kb.length ++ (kb ++ (lenBytes vb.length ++ (vb ++ rest)))))
        (pre.length + 4 + kb.length) = some vb.length := by
      rw [← List.append_assoc, ← List.append_assoc]
      exact lenAt_append (by simp [hlen4, Nat.add_assoc]) hv.1
    have h4 : getRange (pre ++ (lenBytes kb.length ++ (kb ++ (lenBytes vb.length ++ (vb ++ rest)))))
        (pre.length + 4 + kb.length + 4) (pre.length + 4 + kb.length + 4 + vb.length) = some vb := by
      rw [← List.append_assoc, ← List.append_assoc, ← List.append_assoc]
      exact getRange_append (by simp [hlen4, Nat.add_assoc]) (by simp [hlen4, Nat.add_assoc])
    have h5 := ih (pre ++ (lenBytes kb.length ++ (kb ++ (lenBytes vb.length ++ vb))))
      fun e he => h e (List.mem_cons_of_mem _ he)
    have hpos : (pre ++ (lenBytes kb.length ++ (kb ++ (lenBytes vb.length ++ vb)))).length =
        pre.length + 4 + kb.length + 4 + vb.length := by
      simp only [List.length_append, hlen4]
      omega
    rw [hpos] at h5
    simp only [List.append_assoc] at h5
    simp only [Option.bind_eq_bind, h1, h2, h3, h4, Option.bind_some, hk.deserialize, hv.deserialize]
    rw [show (List.flatMap (fun e => withLen e.1 ++ withLen e.2) es ++ post) = rest from rfl] at h5
    rw [h5]
    rfl

theorem deserializeNode_leaf {kt vt : Ty} {es : List (Bytes × Bytes)} (hlen : es.length < 2 ^ 32)
    (h : ∀ e ∈ es, Codes kt e.1 ∧ Codes vt e.2) :
    deserializeNode kt vt (leafBytes es) = some (.leaf (es.map (decEntry kt vt))) := by
  have hn : lenAt (leafBytes es) 1 = some es.length := by
    have := @lenAt_append [tagLeaf] (es.flatMap fun e => withLen e.1 ++ withLen e.2) 1 _ rfl hlen
    simpa [leafBytes] using this
  have hes : readEntries kt vt (leafBytes es) es.length 5 = some (es.map (decEntry kt vt)) := by
    have := readEntries_append (tagLeaf :: lenBytes es.length) [] h
    simpa [leafBytes, lenBytes] using this
  have htag : ¬ (leafBytes es).head? = some tagInner := by simp [leafBytes, tagLeaf, tagInner]
  have hhead : (leafBytes es).head? = some tagLeaf := rfl
  rw [deserializeNode, if_neg htag, if_pos hhead, hn]
  simp [hes]

end Rend.Pmap
