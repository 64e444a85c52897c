import Rend.Value

/-!
# Hashing and the storage encoding of values

`fnv128` and `child` are the deterministic 128-bit hash the runtime derives cell keys from
(`hashing.rs`). `serialize` writes a value as a tag byte and a payload, `deserialize` reads it back at
an expected type, and `sizedValue` steps over one encoded value without building it
(`serialize.rs`, and `json.rs` for the composite JSON form).

The encoder refuses pending reads, tuples and cursors with a panic; here they encode to nothing. An
element whose length field points past the end of the input makes the reader fail. `deserialize` follows the
type, except inside a JSON composite, whose elements carry their own tags: there it follows the bytes, with
the length of the input as the bound on the nesting.
-/

namespace Rend

open Lib

/-! ### Hashing -/

def fnvOffset : U128 := 0x6c62272e07bb014262b821756295c58d#128

def fnvPrime : U128 := 0x0000000001000000000000000000013b#128

/-- FNV-1a with 128 bits. -/
def fnv128 (bs : Bytes) : U128 :=
  bs.foldl (fun h b => (h ^^^ b.setWidth 128) * fnvPrime) fnvOffset

/-- The key of a cell below `root`, derived from `payload`. -/
def child (root : U128) (payload : Bytes) : U128 := fnv128 (wordBytes 16 root ++ payload)

/-- The bytes of a string (`as_bytes`). -/
def strBytes (s : String) : Bytes := s.toUTF8.data.toList.map UInt8.toBitVec

/-- The string these bytes encode, when they are valid UTF-8 (`from_utf8`). -/
def strOfBytes (bs : Bytes) : Option String :=
  String.fromUTF8? ⟨(bs.map UInt8.ofBitVec).toArray⟩

/-! ### Integers of any size -/

/-- The number of bytes of the shortest two's complement form of `n`, at least one. -/
def signedLen (n : ℤ) : ℕ :=
  let m := if 0 ≤ n then n.toNat else (-n - 1).toNat
  (if m = 0 then 0 else m.log2 + 1) / 8 + 1

/-- The shortest two's complement form, most significant byte first. -/
def toSignedBytesBe (n : ℤ) : Bytes := beBytes (signedLen n) (n % 256 ^ signedLen n).toNat

def ofSignedBytesBe (bs : Bytes) : ℤ :=
  match bs with
  | [] => 0
  | b :: _ => if 0x7f < b.toNat then (ofBeBytes bs : ℤ) - 256 ^ bs.length else ofBeBytes bs

/-! ### Tags -/

def tagInt : Byte := 0x01#8
def tagBool : Byte := 0x02#8
def tagUnit : Byte := 0x03#8
def tagResource : Byte := 0x04#8
def tagString : Byte := 0x05#8
def tagAddress : Byte := 0x06#8
def tagArray : Byte := 0x07#8
def tagStruct : Byte := 0x08#8
def tagI32 : Byte := 0x10#8
def tagU32 : Byte := 0x11#8
def tagU64 : Byte := 0x12#8
def tagU128 : Byte := 0x13#8
def tagBytes : Byte := 0x14#8
def tagEnum : Byte := 0x15#8
def tagPMap : Byte := 0x16#8
def tagPVec : Byte := 0x17#8
def tagInterface : Byte := 0x18#8
def tagPBTree : Byte := 0x19#8
def tagJson : Byte := 0x1a#8
def tagUInt : Byte := 0x1b#8
def tagFloat : Byte := 0x1c#8
def jNull : Byte := 0x00#8
def jArray : Byte := 0x01#8
def jObject : Byte := 0x02#8

/-! ### Writing -/

/-- A length as the code writes it, cut to 32 bits. -/
def lenBytes (n : ℕ) : Bytes := beBytes 4 n

/-- A length and the bytes themselves. -/
def withLen (bs : Bytes) : Bytes := lenBytes bs.length ++ bs

mutual

def serialize : Value → Bytes
  | .int n => tagInt :: withLen (toSignedBytesBe n)
  | .uint n => tagUInt :: withLen (toSignedBytesBe n)
  | .float n => tagFloat :: wordBytes 8 n
  | .i32 n => tagI32 :: wordBytes 4 n
  | .u32 n => tagU32 :: wordBytes 4 n
  | .u64 n => tagU64 :: wordBytes 8 n
  | .u128 n => tagU128 :: wordBytes 16 n
  | .bool b => [tagBool, if b then 1#8 else 0#8]
  | .unit => [tagUnit]
  | .resource n => tagResource :: wordBytes 8 n
  | .str s => tagString :: withLen (strBytes s)
  | .address s => tagAddress :: withLen (strBytes s)
  | .bytes b => tagBytes :: withLen b
  | .array elems => tagArray :: (lenBytes elems.length ++ serializeList elems)
  | .set _ => []
  | .dict _ => []
  | .pending _ => []
  | .tuple _ => []
  | .enum _ variant payload => tagEnum :: (withLen (strBytes variant) ++ serializeList payload)
  | .struct _ fields => tagStruct :: serializeFields fields
  | .pmap root => tagPMap :: wordBytes 16 root
  | .pbtree root => tagPBTree :: wordBytes 16 root
  | .json j => tagJson :: serializeJson j
  | .pvec len root => tagPVec :: (wordBytes 8 len ++ wordBytes 16 root)
  | .interface iface target => tagInterface :: (withLen (strBytes iface) ++ withLen (strBytes target))
  | .pmapCursor .. => []
  | .pbtreeCursor .. => []
  termination_by structural x => x

def serializeList : List Value → Bytes
  | [] => []
  | v :: vs => serialize v ++ serializeList vs
  termination_by structural x => x

def serializeFields : List (String × Value) → Bytes
  | [] => []
  | (_, v) :: fs => serialize v ++ serializeFields fs
  termination_by structural x => x

/-- The composite JSON form (`json::serialize`). -/
def serializeJson : Json → Bytes
  | .null => [jNull]
  | .array items => jArray :: (lenBytes items.length ++ serializeList items)
  | .object fields => jObject :: (lenBytes fields.length ++ serializeObject fields)
  termination_by structural x => x

def serializeObject : List (String × Value) → Bytes
  | [] => []
  | (k, v) :: fs => withLen (strBytes k) ++ serialize v ++ serializeObject fs
  termination_by structural x => x

end

/-! ### Stepping over an encoded value -/

/-- The bytes from position `i` on (`bytes.get(i..)`). -/
def getFrom (bs : Bytes) (i : ℕ) : Option Bytes := if i ≤ bs.length then some (bs.drop i) else none

/-- The bytes from `i` to `j` (`bytes.get(i..j)`). -/
def getRange (bs : Bytes) (i j : ℕ) : Option Bytes :=
  if i ≤ j ∧ j ≤ bs.length then some ((bs.take j).drop i) else none

/-- The length field at position `i`. -/
def lenAt (bs : Bytes) (i : ℕ) : Option ℕ := (getRange bs i (i + 4)).map ofBeBytes

/-- A value of this tag and a fixed size. -/
def sizedFixed (tag : Byte) (n : ℕ) (bs : Bytes) : Option ℕ :=
  if bs.head? = some tag then some n else none

/-- A value of this tag with a length field after it. -/
def sizedVar (tag : Byte) (bs : Bytes) : Option ℕ :=
  if bs.head? = some tag then (lenAt bs 1).map (1 + 4 + ·) else none

/-- Steps over `n` values, each by `step`, from position `total` on. -/
def sizedLoop (step : Bytes → Option ℕ) (bs : Bytes) : ℕ → ℕ → Option ℕ
  | 0, total => some total
  | n + 1, total => do
    let rest ← getFrom bs total
    let inner ← step rest
    sizedLoop step bs n (total + inner)

/-- Steps over `n` keyed values of a JSON object. -/
def sizedLoopKeyed (step : Bytes → Option ℕ) (bs : Bytes) : ℕ → ℕ → Option ℕ
  | 0, total => some total
  | n + 1, total => do
    let kl ← lenAt bs total
    let rest ← getFrom bs (total + (4 + kl))
    let inner ← step rest
    sizedLoopKeyed step bs n (total + (4 + kl) + inner)

/-- A value at the type `json`: a composite, stepped over by `js`, or one of five scalars. -/
def sizedJsonWith (js : Bytes → Option ℕ) (bs : Bytes) : Option ℕ :=
  if bs.head? = some tagJson then (js bs.tail).map (1 + ·)
  else (sizedVar tagInt bs).or ((sizedVar tagUInt bs).or ((sizedFixed tagFloat 9 bs).or
    ((sizedFixed tagBool 2 bs).or (sizedVar tagString bs))))

/-- The size of a composite (`json::byte_size`), nested at most `fuel` deep. -/
def jsonByteSizeFuel : ℕ → Bytes → Option ℕ
  | 0, _ => none
  | fuel + 1, bs =>
    if bs.head? = some jNull then some 1
    else if bs.head? = some jArray then do
      let n ← lenAt bs 1
      sizedLoop (sizedJsonWith (jsonByteSizeFuel fuel)) bs n 5
    else if bs.head? = some jObject then do
      let n ← lenAt bs 1
      sizedLoopKeyed (sizedJsonWith (jsonByteSizeFuel fuel)) bs n 5
    else none

def jsonByteSize (bs : Bytes) : Option ℕ := jsonByteSizeFuel (bs.length + 1) bs

mutual

def sizedValue : Ty → Bytes → Option ℕ
  | .int, bs => sizedVar tagInt bs
  | .uint, bs => sizedVar tagUInt bs
  | .float, bs => sizedFixed tagFloat 9 bs
  | .resource, bs => sizedFixed tagResource 9 bs
  | .i32, bs => sizedFixed tagI32 5 bs
  | .u32, bs => sizedFixed tagU32 5 bs
  | .u64, bs => sizedFixed tagU64 9 bs
  | .u128, bs => sizedFixed tagU128 17 bs
  | .bool, bs => sizedFixed tagBool 2 bs
  | .unit, bs => sizedFixed tagUnit 1 bs
  | .string, bs => sizedVar tagString bs
  | .address, bs => sizedVar tagAddress bs
  | .bytes, bs => sizedVar tagBytes bs
  | .array elem, bs =>
    if bs.head? = some tagArray then do
      let n ← lenAt bs 1
      sizedLoop (sizedValue elem) bs n 5
    else none
  | .struct _ fields _, bs => if bs.head? = some tagStruct then sizedFields fields bs 1 else none
  | .cap _ fields _, bs => if bs.head? = some tagStruct then sizedFields fields bs 1 else none
  | .pmap .., bs => sizedFixed tagPMap 17 bs
  | .pbtree .., bs => sizedFixed tagPBTree 17 bs
  | .pvec _, bs => sizedFixed tagPVec 25 bs
  | .json, bs => sizedJsonWith jsonByteSize bs
  | .interface .., bs =>
    if bs.head? = some tagInterface then do
      let ilen ← lenAt bs 1
      let mlen ← lenAt bs (1 + 4 + ilen)
      some (1 + 4 + ilen + 4 + mlen)
    else none
  | .enum _ variants, bs =>
    if bs.head? = some tagEnum then do
      let nameLen ← lenAt bs 1
      let name ← getRange bs 5 (5 + nameLen) >>= strOfBytes
      sizedVariant variants name bs (5 + nameLen)
    else none
  | .explicitLiteral _, _ => none
  | .set _, _ => none
  | .dict .., _ => none
  | .map .., _ => none
  | .tuple _, _ => none
  termination_by structural x => x

def sizedFields : List (String × Ty) → Bytes → ℕ → Option ℕ
  | [], _, total => some total
  | (_, t) :: fs, bs, total => do
    let rest ← getFrom bs total
    let inner ← sizedValue t rest
    sizedFields fs bs (total + inner)
  termination_by structural x => x

def sizedList : List Ty → Bytes → ℕ → Option ℕ
  | [], _, total => some total
  | t :: ts, bs, total => do
    let rest ← getFrom bs total
    let inner ← sizedValue t rest
    sizedList ts bs (total + inner)
  termination_by structural x => x

def sizedVariant : List (String × List Ty) → String → Bytes → ℕ → Option ℕ
  | [], _, _, _ => none
  | (n, ts) :: vs, name, bs, total =>
    if n = name then sizedList ts bs total else sizedVariant vs name bs total
  termination_by structural x => x

end

/-! ### Reading -/

/-- The payload of a value of this tag. -/
def payload (tag : Byte) (bs : Bytes) : Option Bytes :=
  if bs.head? = some tag then some bs.tail else none

/-- A payload that is exactly one word of `n` bytes. -/
def exactWord (w n : ℕ) (rest : Bytes) : Option (BitVec w) :=
  if rest.length = n then some (BitVec.ofNat w (ofBeBytes rest)) else none

/-- A length and then that many bytes; what follows them is ignored. -/
def lenPrefixed (rest : Bytes) : Option Bytes := do
  let n ← lenAt rest 0
  getRange rest 4 (4 + n)

/-- A length and then exactly that many bytes of a signed integer. -/
def signedPayload (rest : Bytes) : Option ℤ := do
  let n ← lenAt rest 0
  if rest.length = 4 + n then some (ofSignedBytesBe (rest.drop 4)) else none

def deserializeInt (bs : Bytes) : Option Value := (payload tagInt bs >>= signedPayload).map .int

def deserializeUInt (bs : Bytes) : Option Value := (payload tagUInt bs >>= signedPayload).map .uint

def deserializeFloat (bs : Bytes) : Option Value := (payload tagFloat bs >>= exactWord 64 8).map .float

def deserializeBool (bs : Bytes) : Option Value := do
  let rest ← payload tagBool bs
  if rest = [0#8] then some (.bool false) else if rest = [1#8] then some (.bool true) else none

def deserializeString (bs : Bytes) : Option Value :=
  (payload tagString bs >>= lenPrefixed >>= strOfBytes).map .str

/-- Reads `n` values: each is sized by `size`, cut out and read by `read`. Gives the values and the
position after them. -/
def readLoop {α : Type} (size : Bytes → Option ℕ) (read : Bytes → Option α) (bs : Bytes) :
    ℕ → ℕ → Option (List α × ℕ)
  | 0, pos => some ([], pos)
  | n + 1, pos => do
    let rest ← getFrom bs pos
    let inner ← size rest
    let body ← getRange rest 0 inner
    let v ← read body
    let (vs, pos') ← readLoop size read bs n (pos + inner)
    some (v :: vs, pos')

/-- Puts a key into an insertion-ordered map (`IndexMap::insert`). -/
def indexInsert (m : List (String × Value)) (k : String) (v : Value) : List (String × Value) :=
  if k ∈ m.map Prod.fst then m.map fun e => if e.1 = k then (k, v) else e else m ++ [(k, v)]

/-- Reads `n` keyed values of a JSON object into `m`. -/
def readObject (size : Bytes → Option ℕ) (read : Bytes → Option Value) (bs : Bytes) :
    ℕ → ℕ → List (String × Value) → Option (List (String × Value) × ℕ)
  | 0, pos, m => some (m, pos)
  | n + 1, pos, m => do
    let kl ← lenAt bs pos
    let k ← getRange bs (pos + 4) (pos + 4 + kl) >>= strOfBytes
    let rest ← getFrom bs (pos + 4 + kl)
    let inner ← size rest
    let body ← getRange bs (pos + 4 + kl) (pos + 4 + kl + inner)
    let v ← read body
    readObject size read bs n (pos + 4 + kl + inner) (indexInsert m k v)

/-- A value at the type `json`: a composite, read by `js`, or one of five scalars. -/
def deserializeJsonWith (js : Bytes → Option Json) (bs : Bytes) : Option Value :=
  if bs.head? = some tagJson then (js bs.tail).map .json
  else (deserializeInt bs).or ((deserializeUInt bs).or ((deserializeFloat bs).or
    ((deserializeBool bs).or (deserializeString bs))))

/-- Reads a composite that takes all of `bs` (`json::deserialize`), nested at most `fuel` deep. -/
def jsonDeserializeFuel : ℕ → Bytes → Option Json
  | 0, _ => none
  | fuel + 1, bs =>
    let size := sizedJsonWith jsonByteSize
    let read := deserializeJsonWith (jsonDeserializeFuel fuel)
    if bs.head? = some jNull then if bs.length = 1 then some .null else none
    else if bs.head? = some jArray then do
      let n ← lenAt bs 1
      let (items, pos) ← readLoop size read bs n 5
      if pos = bs.length then some (.array items) else none
    else if bs.head? = some jObject then do
      let n ← lenAt bs 1
      let (fields, pos) ← readObject size read bs n 5 []
      if pos = bs.length then some (.object fields) else none
    else none

def jsonDeserialize (bs : Bytes) : Option Json := jsonDeserializeFuel (bs.length + 1) bs

mutual

def deserialize : Ty → Bytes → Option Value
  | .explicitLiteral inner, bs => deserialize inner bs
  | .int, bs => deserializeInt bs
  | .uint, bs => deserializeUInt bs
  | .float, bs => deserializeFloat bs
  | .i32, bs => (payload tagI32 bs >>= exactWord 32 4).map .i32
  | .u32, bs => (payload tagU32 bs >>= exactWord 32 4).map .u32
  | .u64, bs => (payload tagU64 bs >>= exactWord 64 8).map .u64
  | .u128, bs => (payload tagU128 bs >>= exactWord 128 16).map .u128
  | .bool, bs => deserializeBool bs
  | .unit, bs => (payload tagUnit bs).map fun _ => .unit
  | .resource, bs => (payload tagResource bs >>= exactWord 64 8).map .resource
  | .string, bs => deserializeString bs
  | .address, bs => (payload tagAddress bs >>= lenPrefixed >>= strOfBytes).map .address
  | .bytes, bs => (payload tagBytes bs >>= lenPrefixed).map .bytes
  | .enum name variants, bs => do
    let rest ← payload tagEnum bs
    let nameLen ← lenAt rest 0
    let variant ← getRange rest 4 (4 + nameLen) >>= strOfBytes
    let vs ← deserializeVariant variants variant rest (4 + nameLen)
    some (.enum name variant vs)
  | .array elem, bs => do
    let rest ← payload tagArray bs
    let n ← lenAt rest 0
    let (vs, _) ← readLoop (sizedValue elem) (deserialize elem) rest n 4
    some (.array vs)
  | .struct name fields _, bs => do
    let rest ← payload tagStruct bs
    let vs ← deserializeFields fields rest 0
    some (.struct name vs)
  | .cap name fields _, bs => do
    let rest ← payload tagStruct bs
    let vs ← deserializeFields fields rest 0
    some (.struct name vs)
  | .pmap .., bs => (payload tagPMap bs >>= exactWord 128 16).map .pmap
  | .pbtree .., bs => (payload tagPBTree bs >>= exactWord 128 16).map .pbtree
  | .json, bs => deserializeJsonWith jsonDeserialize bs
  | .pvec _, bs => do
    let rest ← payload tagPVec bs
    let len ← getRange rest 0 8
    let root ← getRange rest 8 24
    some (.pvec (BitVec.ofNat 64 (ofBeBytes len)) (BitVec.ofNat 128 (ofBeBytes root)))
  | .interface .., bs => do
    let rest ← payload tagInterface bs
    let ilen ← lenAt rest 0
    let iface ← getRange rest 4 (4 + ilen) >>= strOfBytes
    let mlen ← lenAt rest (4 + ilen)
    let target ← getRange rest (4 + ilen + 4) (4 + ilen + 4 + mlen) >>= strOfBytes
    some (.interface iface target)
  | .set _, _ => none
  | .dict .., _ => none
  | .map .., _ => none
  | .tuple _, _ => none
  termination_by structural x => x

def deserializeFields : List (String × Ty) → Bytes → ℕ → Option (List (String × Value))
  | [], _, _ => some []
  | (n, t) :: fs, bs, cursor => do
    let rest ← getFrom bs cursor
    let consumed ← sizedValue t rest
    let body ← getRange rest 0 consumed
    let v ← deserialize t body
    let vs ← deserializeFields fs bs (cursor + consumed)
    some ((n, v) :: vs)
  termination_by structural x => x

def deserializeList : List Ty → Bytes → ℕ → Option (List Value)
  | [], _, _ => some []
  | t :: ts, bs, cursor => do
    let rest ← getFrom bs cursor
    let consumed ← sizedValue t rest
    let body ← getRange rest 0 consumed
    let v ← deserialize t body
    let vs ← deserializeList ts bs (cursor + consumed)
    some (v :: vs)
  termination_by structural x => x

def deserializeVariant : List (String × List Ty) → String → Bytes → ℕ → Option (List Value)
  | [], _, _, _ => none
  | (n, ts) :: vs, name, bs, cursor =>
    if n = name then deserializeList ts bs cursor else deserializeVariant vs name bs cursor
  termination_by structural x => x

end

/-- Whether a value is the default of its type, as commit validation understands it. -/
def isDefault : Value → Bool
  | .int n => n = 0
  | .uint n => n = 0
  | .float n => n = 0
  | .i32 n => n = 0
  | .u32 n => n = 0
  | .u64 n => n = 0
  | .u128 n => n = 0
  | .bool b => !b
  | .unit => true
  | .resource n => n = 0
  | .str s => s = ""
  | .address s => s = ""
  | .array elems => elems.isEmpty
  | .bytes b => b.isEmpty
  | .pmap root => root = 0
  | .pvec len root => len = 0 && root = 0
  | _ => false

/-! ### Slices -/

theorem getFrom_append (pre w : Bytes) : getFrom (pre ++ w) pre.length = some w := by
  simp [getFrom]

theorem getRange_append (pre w rest : Bytes) :
    getRange (pre ++ (w ++ rest)) pre.length (pre.length + w.length) = some w := by
  have htake : (pre ++ (w ++ rest)).take (pre.length + w.length) = pre ++ w := by
    rw [← List.append_assoc]
    exact List.take_left' (by simp)
  rw [getRange, if_pos (by simp), htake, List.drop_left]

theorem length_withLen (b : Bytes) : (withLen b).length = 4 + b.length := by
  simp [withLen, lenBytes]

/-- The length field of a string of bytes that is written somewhere in the input. -/
theorem lenAt_withLen {b : Bytes} (h : b.length < 2 ^ 32) (pre rest : Bytes) :
    lenAt (pre ++ (withLen b ++ rest)) pre.length = some b.length := by
  have hfield := getRange_append pre (lenBytes b.length) (b ++ rest)
  rw [lenBytes, length_beBytes] at hfield
  rw [lenAt, withLen, List.append_assoc, lenBytes, hfield, Option.map_some,
    ofBeBytes_beBytes (show b.length < 256 ^ 4 by omega)]

/-- The bytes behind their length field. -/
theorem getRange_withLen (b pre rest : Bytes) :
    getRange (pre ++ (withLen b ++ rest)) (pre.length + 4) (pre.length + 4 + b.length) = some b := by
  have hbody := getRange_append (pre ++ lenBytes b.length) b rest
  rw [List.length_append, lenBytes, length_beBytes] at hbody
  rw [withLen, ← hbody]
  simp [lenBytes]

/-! ### Words and strings -/

theorem exactWord_wordBytes {w n : ℕ} (hw : 2 ^ w = 256 ^ n) (x : BitVec w) :
    exactWord w n (wordBytes n x) = some x := by
  rw [exactWord, if_pos (length_wordBytes n x), ofBeBytes_wordBytes hw]

@[simp] theorem strOfBytes_strBytes (s : String) : strOfBytes (strBytes s) = some s := by
  have hbytes : (⟨((strBytes s).map UInt8.ofBitVec).toArray⟩ : ByteArray) = s.toUTF8 := by
    simp [strBytes, List.map_map, Function.comp_def]
  rw [strOfBytes, hbytes]
  simp only [String.fromUTF8?, String.toUTF8_eq_toByteArray, dif_pos s.isValidUTF8]
  rfl

/-! ### Integers read back -/

theorem length_toSignedBytesBe (n : ℤ) : (toSignedBytesBe n).length = signedLen n := length_beBytes _ _

/-- The sign bit of a nonempty string of bytes is set exactly when its value is in the upper half. -/
theorem ofSignedBytesBe_eq {bs : Bytes} (h : bs ≠ []) : ofSignedBytesBe bs =
    if 256 ^ bs.length ≤ 2 * ofBeBytes bs then (ofBeBytes bs : ℤ) - 256 ^ bs.length else ofBeBytes bs := by
  cases bs with
  | nil => exact absurd rfl h
  | cons b bs =>
    have hlt := ofBeBytes_lt bs
    have hiff : 0x7f < b.toNat ↔ 256 ^ (b :: bs).length ≤ 2 * ofBeBytes (b :: bs) := by
      rw [ofBeBytes_cons, List.length_cons, pow_succ]
      constructor
      · intro hb
        have := Nat.mul_le_mul_right (256 ^ bs.length) (Nat.succ_le_of_lt hb)
        omega
      · intro hle
        by_contra hb
        have := Nat.mul_le_mul_right (256 ^ bs.length) (Nat.le_of_not_lt hb)
        omega
    simp only [ofSignedBytesBe, hiff]

/-- The bound on the magnitude that the length of the two's complement form gives. -/
theorem lt_signedLen (m : ℕ) :
    2 * m < 256 ^ ((if m = 0 then 0 else m.log2 + 1) / 8 + 1) := by
  have hbits : m < 2 ^ (if m = 0 then 0 else m.log2 + 1) := by
    split
    · omega
    · exact Nat.lt_log2_self
  generalize (if m = 0 then 0 else m.log2 + 1) = bits at hbits ⊢
  calc 2 * m < 2 * 2 ^ bits := by omega
    _ = 2 ^ (bits + 1) := by rw [pow_succ, Nat.mul_comm]
    _ ≤ 2 ^ (8 * (bits / 8 + 1)) := Nat.pow_le_pow_right (by omega) (by omega)
    _ = 256 ^ (bits / 8 + 1) := by rw [pow_mul]; norm_num

theorem ofSignedBytesBe_toSignedBytesBe (n : ℤ) : ofSignedBytesBe (toSignedBytesBe n) = n := by
  have hne : toSignedBytesBe n ≠ [] := by
    rw [← List.length_pos_iff, length_toSignedBytesBe]
    exact Nat.succ_pos _
  obtain ⟨P, hP⟩ : ∃ P : ℕ, P = 256 ^ signedLen n := ⟨_, rfl⟩
  have hPz : (256 : ℤ) ^ signedLen n = P := by simp [hP]
  have hpos : 0 < P := hP ▸ Nat.pow_pos (by norm_num)
  have hnonneg := Int.emod_nonneg n (show (P : ℤ) ≠ 0 by omega)
  have hlt := Int.emod_lt_of_pos n (show (0 : ℤ) < P by omega)
  have hval : ofBeBytes (toSignedBytesBe n) = (n % P).toNat := by
    rw [toSignedBytesBe, hPz]
    exact ofBeBytes_beBytes (by omega)
  rw [ofSignedBytesBe_eq hne, hval, length_toSignedBytesBe, hPz, ← hP]
  by_cases hn : 0 ≤ n
  · -- A number that is not negative is below the middle, and is its own remainder.
    have hbound : 2 * n.toNat < P := by
      have := lt_signedLen n.toNat
      rwa [hP, signedLen, if_pos hn]
    have hrem : n % P = n := Int.emod_eq_of_lt hn (by omega)
    rw [hrem, if_neg (by omega), Int.toNat_of_nonneg hn]
  · have hbound : 2 * (-n - 1).toNat < P := by
      have := lt_signedLen (-n - 1).toNat
      rwa [hP, signedLen, if_neg hn]
    have hrem : n % P = n + P := by
      have := Int.emod_eq_of_lt (a := n + P) (b := P) (by omega) (by omega)
      rwa [Int.add_emod_right] at this
    have heven : 2 ∣ P := by
      rw [hP, signedLen]
      exact dvd_pow (by norm_num) (Nat.succ_ne_zero _)
    have hupper : P ≤ 2 * (n + P).toNat := by omega
    rw [hrem, if_pos hupper]
    omega

/-! ### The cell of raw bytes -/

theorem deserialize_serialize_bytes {b : Bytes} (h : b.length < 2 ^ 32) :
    deserialize .bytes (serialize (.bytes b)) = some (.bytes b) := by
  have hlen := lenAt_withLen h [] []
  have hbody := getRange_withLen b [] []
  simp only [List.append_nil, List.nil_append, List.length_nil, Nat.zero_add] at hlen hbody
  simp [deserialize, serialize, payload, lenPrefixed, hlen, hbody]

/-! ### What the readers give -/

theorem nodup_indexInsert {m : List (String × Value)} (h : (m.map Prod.fst).Nodup) (k : String) (v : Value) :
    ((indexInsert m k v).map Prod.fst).Nodup := by
  unfold indexInsert
  split_ifs with hk
  · have hfst : (m.map fun e => if e.1 = k then (k, v) else e).map Prod.fst = m.map Prod.fst := by
      rw [List.map_map]
      refine List.map_congr_left fun e _ => ?_
      dsimp only [Function.comp_apply]
      split_ifs with he
      · exact he.symm
      · rfl
    rw [hfst]
    exact h
  · rw [List.map_append]
    refine List.nodup_append.mpr ⟨h, List.nodup_singleton k, fun a ha b hb hab => hk ?_⟩
    rw [hab, List.mem_singleton.mp hb] at ha
    exact ha

section Given

variable {size : Bytes → Option ℕ} {read : Bytes → Option Value} {bs : Bytes} {n pos : ℕ}

theorem mem_of_readLoop {vs : List Value} {p : ℕ} (h : readLoop size read bs n pos = some (vs, p)) {v : Value}
    (hv : v ∈ vs) : ∃ b b' k, size b = some k ∧ read b' = some v := by
  induction n generalizing pos vs p with
  | zero =>
    cases h
    cases hv
  | succ n ih =>
    rw [readLoop] at h
    obtain ⟨b, -, h⟩ := Option.bind_eq_some_iff.mp h
    obtain ⟨k, hk, h⟩ := Option.bind_eq_some_iff.mp h
    obtain ⟨b', -, h⟩ := Option.bind_eq_some_iff.mp h
    obtain ⟨w, hw, h⟩ := Option.bind_eq_some_iff.mp h
    obtain ⟨⟨ws, p'⟩, hrest, h⟩ := Option.bind_eq_some_iff.mp h
    cases h
    rcases List.mem_cons.mp hv with rfl | hv
    · exact ⟨b, b', k, hk, hw⟩
    · exact ih hrest hv

theorem mem_indexInsert {m : List (String × Value)} {k : String} {v : Value} {f : String × Value}
    (h : f ∈ indexInsert m k v) : f ∈ m ∨ f.2 = v := by
  rw [indexInsert] at h
  split_ifs at h
  · obtain ⟨g, hg, rfl⟩ := List.mem_map.mp h
    split_ifs
    · exact .inr rfl
    · exact .inl hg
  · rcases List.mem_append.mp h with h | h
    · exact .inl h
    · exact .inr (congrArg Prod.snd (List.mem_singleton.mp h))

theorem mem_of_readObject {m fs : List (String × Value)} {p : ℕ}
    (h : readObject size read bs n pos m = some (fs, p)) {f : String × Value} (hf : f ∈ fs) :
    f ∈ m ∨ ∃ b, read b = some f.2 := by
  induction n generalizing pos m with
  | zero =>
    cases h
    exact .inl hf
  | succ n ih =>
    rw [readObject] at h
    obtain ⟨_, -, h⟩ := Option.bind_eq_some_iff.mp h
    obtain ⟨k, -, h⟩ := Option.bind_eq_some_iff.mp h
    obtain ⟨_, -, h⟩ := Option.bind_eq_some_iff.mp h
    obtain ⟨_, -, h⟩ := Option.bind_eq_some_iff.mp h
    obtain ⟨b, -, h⟩ := Option.bind_eq_some_iff.mp h
    obtain ⟨v, hv, h⟩ := Option.bind_eq_some_iff.mp h
    rcases ih h with hm | hread
    · rcases mem_indexInsert hm with hm | hm
      · exact .inl hm
      · exact .inr ⟨b, by rw [hm]; exact hv⟩
    · exact .inr hread

theorem nodup_of_readObject {m fs : List (String × Value)} {p : ℕ} (hm : (m.map Prod.fst).Nodup)
    (h : readObject size read bs n pos m = some (fs, p)) : (fs.map Prod.fst).Nodup := by
  induction n generalizing pos m with
  | zero =>
    cases h
    exact hm
  | succ n ih =>
    simp only [readObject, Option.bind_eq_bind, Option.bind_eq_some_iff] at h
    obtain ⟨_, -, k, -, _, -, _, -, _, -, v, -, h⟩ := h
    exact ih (nodup_indexInsert hm k v) h

end Given

end Rend
