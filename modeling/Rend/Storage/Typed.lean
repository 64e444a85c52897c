import Rend.Serialize

/-!
# Values that are stored

`isStorable` is the check that a declared state passes (`typeck.rs`), and `Typed` says which values a
slot of a type can hold while a program runs. A slot of type `json` holds one of five scalars or a
composite; a literal composite is not checked any further, and its elements can be of any kind
(`JsonTyped`).

`Uncovered` and `Foreign` name the parts of a value that the storage encoding has no reader for: a part
at the type of a set, a dictionary, a map, a tuple or an explicit literal, and an element of a composite
that is neither a composite nor one of the five scalars. `Long` names the lengths that their field of 32
bits does not hold.
-/

namespace Rend

open Lib

/-! ### The check of declared states -/

mutual

/-- The types a state may be declared with. The elements of the collections are not looked at. -/
def isStorable : Ty → Bool
  | .int | .uint | .float | .i32 | .u32 | .u64 | .u128 | .bool | .string | .address | .bytes => true
  | .array elem => isStorable elem
  | .explicitLiteral inner => isStorable inner
  | .struct _ fields _ => isStorableFields fields
  | .map .. | .pmap .. | .pbtree .. | .pvec _ => true
  | .json => true
  | .interface .. => true
  | .set _ | .dict .. | .tuple _ => false
  | .enum _ variants => isStorableVariants variants
  | .cap _ fields _ => isStorableFields fields
  | .unit | .resource => false
  termination_by structural x => x

def isStorableList : List Ty → Bool
  | [] => true
  | t :: ts => isStorable t && isStorableList ts
  termination_by structural x => x

def isStorableFields : List (String × Ty) → Bool
  | [] => true
  | (_, t) :: fs => isStorable t && isStorableFields fs
  termination_by structural x => x

def isStorableVariants : List (String × List Ty) → Bool
  | [] => true
  | (_, ts) :: vs => isStorableList ts && isStorableVariants vs
  termination_by structural x => x

end

/-! ### Values of a type -/

/-- The five scalars that a slot of type `json` takes (`types_compatible`). -/
def Value.isJsonScalar : Value → Bool
  | .int _ | .uint _ | .float _ | .bool _ | .str _ => true
  | _ => false

/-- A value, or a composite whose objects have each key once (`IndexMap`). The elements of a literal are
of any kind. -/
inductive JsonTyped : Value → Prop
  | leaf {v : Value} (h : ∀ j, v ≠ .json j) : JsonTyped v
  | null : JsonTyped (.json .null)
  | array {items : List Value} (h : ∀ v ∈ items, JsonTyped v) : JsonTyped (.json (.array items))
  | object {fields : List (String × Value)} (hkeys : (fields.map Prod.fst).Nodup)
      (h : ∀ f ∈ fields, JsonTyped f.2) : JsonTyped (.json (.object fields))

/-- The values that a slot of a type holds. A map is spread over cells of its value type, and no value
stands for it. -/
inductive Typed : Ty → Value → Prop
  | int (n : ℤ) : Typed .int (.int n)
  | uint {n : ℤ} (h : 0 ≤ n) : Typed .uint (.uint n)
  | float (n : U64) : Typed .float (.float n)
  | i32 (n : BitVec 32) : Typed .i32 (.i32 n)
  | u32 (n : BitVec 32) : Typed .u32 (.u32 n)
  | u64 (n : U64) : Typed .u64 (.u64 n)
  | u128 (n : U128) : Typed .u128 (.u128 n)
  | bool (b : Bool) : Typed .bool (.bool b)
  | unit : Typed .unit .unit
  | resource (n : U64) : Typed .resource (.resource n)
  | string (s : String) : Typed .string (.str s)
  | address (s : String) : Typed .address (.address s)
  | bytes (b : Bytes) : Typed .bytes (.bytes b)
  | array {elem : Ty} {vs : List Value} (h : ∀ v ∈ vs, Typed elem v) : Typed (.array elem) (.array vs)
  | explicitLiteral {inner : Ty} {v : Value} (h : Typed inner v) : Typed (.explicitLiteral inner) v
  | set {elem : Ty} {vs : List Value} (h : ∀ v ∈ vs, Typed elem v) : Typed (.set elem) (.set vs)
  | dict {key value : Ty} {ps : List (Value × Value)} (hkey : ∀ p ∈ ps, Typed key p.1)
      (hvalue : ∀ p ∈ ps, Typed value p.2) : Typed (.dict key value) (.dict ps)
  | tuple {ts : List Ty} {vs : List Value} (hlen : vs.length = ts.length)
      (h : ∀ p ∈ ts.zip vs, Typed p.1 p.2) : Typed (.tuple ts) (.tuple vs)
  | struct {name : String} {fields : List (String × Ty)} {groups : List (Option String)}
      {fs : List (String × Value)} (hnames : fs.map Prod.fst = fields.map Prod.fst)
      (h : ∀ p ∈ (fields.map Prod.snd).zip (fs.map Prod.snd), Typed p.1 p.2) :
      Typed (.struct name fields groups) (.struct name fs)
  | cap {name : String} {fields : List (String × Ty)} {owner : String} {fs : List (String × Value)}
      (hnames : fs.map Prod.fst = fields.map Prod.fst)
      (h : ∀ p ∈ (fields.map Prod.snd).zip (fs.map Prod.snd), Typed p.1 p.2) :
      Typed (.cap name fields owner) (.struct name fs)
  | enum {name variant n : String} {variants : List (String × List Ty)} {ts : List Ty} {vs : List Value}
      (hvariant : (variants.find? fun x => x.1 = variant) = some (n, ts)) (hlen : vs.length = ts.length)
      (h : ∀ p ∈ ts.zip vs, Typed p.1 p.2) : Typed (.enum name variants) (.enum name variant vs)
  | pmap {key value : Ty} (root : U128) : Typed (.pmap key value) (.pmap root)
  | pbtree {key value : Ty} (root : U128) : Typed (.pbtree key value) (.pbtree root)
  | pvec {elem : Ty} (len : U64) (root : U128) : Typed (.pvec elem) (.pvec len root)
  | json {v : Value} (hv : v.isJsonScalar = true ∨ ∃ j, v = .json j) (h : JsonTyped v) : Typed .json v
  | interface {name : String} {methods : List InterfaceMethodSig} (target : String) :
      Typed (.interface name methods) (.interface name target)

/-! ### What the encoding does not cover -/

/-- An element of a composite that the reader of `json` does not know, however deep. -/
inductive Foreign : Value → Prop
  | leaf {v : Value} (hs : v.isJsonScalar = false) (h : ∀ j, v ≠ .json j) : Foreign v
  | item {items : List Value} {v : Value} (hv : v ∈ items) (h : Foreign v) : Foreign (.json (.array items))
  | member {fields : List (String × Value)} {f : String × Value} (hf : f ∈ fields) (h : Foreign f.2) :
      Foreign (.json (.object fields))

/-- A part of the value stands at a type that has no reader. -/
inductive Uncovered : Ty → Value → Prop
  | explicitLiteral {inner : Ty} (v : Value) : Uncovered (.explicitLiteral inner) v
  | set {elem : Ty} (v : Value) : Uncovered (.set elem) v
  | dict {key value : Ty} (v : Value) : Uncovered (.dict key value) v
  | map {key value : Ty} (v : Value) : Uncovered (.map key value) v
  | tuple {ts : List Ty} (v : Value) : Uncovered (.tuple ts) v
  | element {elem : Ty} {vs : List Value} {v : Value} (hv : v ∈ vs) (h : Uncovered elem v) :
      Uncovered (.array elem) (.array vs)
  | field {name n : String} {fields : List (String × Ty)} {groups : List (Option String)}
      {fs : List (String × Value)} {p : Ty × Value}
      (hp : p ∈ (fields.map Prod.snd).zip (fs.map Prod.snd)) (h : Uncovered p.1 p.2) :
      Uncovered (.struct name fields groups) (.struct n fs)
  | capField {name n : String} {fields : List (String × Ty)} {owner : String} {fs : List (String × Value)}
      {p : Ty × Value} (hp : p ∈ (fields.map Prod.snd).zip (fs.map Prod.snd)) (h : Uncovered p.1 p.2) :
      Uncovered (.cap name fields owner) (.struct n fs)
  | payload {name n variant v : String} {variants : List (String × List Ty)} {ts : List Ty} {vs : List Value}
      {p : Ty × Value} (hvariant : (variants.find? fun x => x.1 = variant) = some (v, ts)) (hp : p ∈ ts.zip vs)
      (h : Uncovered p.1 p.2) : Uncovered (.enum name variants) (.enum n variant vs)
  | json {v : Value} (h : Foreign v) : Uncovered .json v

/-- A length that the encoding of the value writes does not fit into 32 bits. -/
inductive Long : Value → Prop
  | int {n : ℤ} (h : 2 ^ 32 ≤ (toSignedBytesBe n).length) : Long (.int n)
  | uint {n : ℤ} (h : 2 ^ 32 ≤ (toSignedBytesBe n).length) : Long (.uint n)
  | str {s : String} (h : 2 ^ 32 ≤ (strBytes s).length) : Long (.str s)
  | address {s : String} (h : 2 ^ 32 ≤ (strBytes s).length) : Long (.address s)
  | bytes {b : Bytes} (h : 2 ^ 32 ≤ b.length) : Long (.bytes b)
  | array {vs : List Value} (h : 2 ^ 32 ≤ vs.length) : Long (.array vs)
  | element {vs : List Value} {v : Value} (hv : v ∈ vs) (h : Long v) : Long (.array vs)
  | variant {name variant : String} {vs : List Value} (h : 2 ^ 32 ≤ (strBytes variant).length) :
      Long (.enum name variant vs)
  | payload {name variant : String} {vs : List Value} {v : Value} (hv : v ∈ vs) (h : Long v) :
      Long (.enum name variant vs)
  | field {name : String} {fs : List (String × Value)} {f : String × Value} (hf : f ∈ fs) (h : Long f.2) :
      Long (.struct name fs)
  | iface {iface target : String} (h : 2 ^ 32 ≤ (strBytes iface).length) : Long (.interface iface target)
  | target {iface target : String} (h : 2 ^ 32 ≤ (strBytes target).length) : Long (.interface iface target)
  | items {items : List Value} (h : 2 ^ 32 ≤ items.length) : Long (.json (.array items))
  | item {items : List Value} {v : Value} (hv : v ∈ items) (h : Long v) : Long (.json (.array items))
  | members {fields : List (String × Value)} (h : 2 ^ 32 ≤ fields.length) : Long (.json (.object fields))
  | key {fields : List (String × Value)} {f : String × Value} (hf : f ∈ fields)
      (h : 2 ^ 32 ≤ (strBytes f.1).length) : Long (.json (.object fields))
  | member {fields : List (String × Value)} {f : String × Value} (hf : f ∈ fields) (h : Long f.2) :
      Long (.json (.object fields))

/-- The encoding of the value reads back at the type as the value, and its size is found whatever follows. -/
structure ReadsBack (t : Ty) (v : Value) : Prop where
  value : deserialize t (serialize v) = some v
  size : ∀ s, sizedValue t (serialize v ++ s) = some (serialize v).length

end Rend
