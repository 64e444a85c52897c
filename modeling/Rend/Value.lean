import Rend.Lib.Bytes

/-!
# Types and runtime values

The type syntax of the language (`ast::Type`) and the values the runtime computes with
(`value::Value`), with the default value of a type and a decidable equality of the model.

A machine integer is a `BitVec` of its width. A float is its bit pattern, since two values are
compared by their bits. A `BigInt` is an `ℤ`. The two streaming cursors are kept with the fields the
runtime gives them.
-/

namespace Rend

open Lib

/-- A 128-bit word: cell keys and node hashes. -/
abbrev U128 := BitVec 128

/-- A 64-bit word. -/
abbrev U64 := BitVec 64

mutual

/-- A type of the language (`ast::Type`). -/
inductive Ty
  | int
  | uint
  | float
  | i32
  | u32
  | u64
  | u128
  | bool
  | unit
  | resource
  | string
  | address
  | bytes
  | array (elem : Ty)
  | explicitLiteral (inner : Ty)
  | set (elem : Ty)
  | dict (key value : Ty)
  | map (key value : Ty)
  | pmap (key value : Ty)
  | pbtree (key value : Ty)
  | pvec (elem : Ty)
  | json
  | struct (name : String) (fields : List (String × Ty)) (fieldGroups : List (Option String))
  | tuple (elems : List Ty)
  | enum (name : String) (variants : List (String × List Ty))
  | cap (name : String) (fields : List (String × Ty)) (ownerModule : String)
  | interface (name : String) (methods : List InterfaceMethodSig)

/-- A method of an interface type (`InterfaceMethodSig`). -/
inductive InterfaceMethodSig
  | mk (name : String) (params : List Ty) (returnType : Ty) (isView isPure : Bool)

end

mutual

/-- A runtime value (`value::Value`). -/
inductive Value
  | int (n : ℤ)
  | uint (n : ℤ)
  | float (bits : U64)
  | i32 (n : BitVec 32)
  | u32 (n : BitVec 32)
  | u64 (n : U64)
  | u128 (n : U128)
  | bool (b : Bool)
  | unit
  | resource (n : U64)
  | str (s : String)
  | address (s : String)
  | bytes (b : Bytes)
  | array (elems : List Value)
  | set (elems : List Value)
  | dict (pairs : List (Value × Value))
  | struct (name : String) (fields : List (String × Value))
  | tuple (elems : List Value)
  | enum (enumName variant : String) (payload : List Value)
  | pending (id : ℕ)
  | pmap (root : U128)
  | pbtree (root : U128)
  | json (j : Json)
  | pvec (len : U64) (root : U128)
  | interface (iface targetModule : String)
  | pmapCursor (stack : List (U128 × ℕ)) (entries : List (Value × Value)) (keyTy valueTy : Ty)
  | pbtreeCursor (rootCell : U128) (lastYielded : Option Value) (keyTy valueTy : Ty)

/-- A composite JSON value (`json::Json`). An object keeps its keys in insertion order. -/
inductive Json
  | null
  | array (items : List Value)
  | object (fields : List (String × Value))

end

/-! ### Equality of types -/

mutual

/-- Structural equality of types. -/
def Ty.beq : Ty → Ty → Bool
  | .int, .int => true
  | .uint, .uint => true
  | .float, .float => true
  | .i32, .i32 => true
  | .u32, .u32 => true
  | .u64, .u64 => true
  | .u128, .u128 => true
  | .bool, .bool => true
  | .unit, .unit => true
  | .resource, .resource => true
  | .string, .string => true
  | .address, .address => true
  | .bytes, .bytes => true
  | .array a, .array b => Ty.beq a b
  | .explicitLiteral a, .explicitLiteral b => Ty.beq a b
  | .set a, .set b => Ty.beq a b
  | .dict k v, .dict k' v' => Ty.beq k k' && Ty.beq v v'
  | .map k v, .map k' v' => Ty.beq k k' && Ty.beq v v'
  | .pmap k v, .pmap k' v' => Ty.beq k k' && Ty.beq v v'
  | .pbtree k v, .pbtree k' v' => Ty.beq k k' && Ty.beq v v'
  | .pvec a, .pvec b => Ty.beq a b
  | .json, .json => true
  | .struct n fs gs, .struct n' fs' gs' =>
    decide (n = n') && Ty.beqFields fs fs' && decide (gs = gs')
  | .tuple ts, .tuple ts' => Ty.beqList ts ts'
  | .enum n vs, .enum n' vs' => decide (n = n') && Ty.beqVariants vs vs'
  | .cap n fs o, .cap n' fs' o' => decide (n = n') && Ty.beqFields fs fs' && decide (o = o')
  | .interface n ms, .interface n' ms' => decide (n = n') && Ty.beqMethods ms ms'
  | _, _ => false
  termination_by structural x => x

def Ty.beqList : List Ty → List Ty → Bool
  | [], [] => true
  | a :: as, b :: bs => Ty.beq a b && Ty.beqList as bs
  | _, _ => false
  termination_by structural x => x

def Ty.beqFields : List (String × Ty) → List (String × Ty) → Bool
  | [], [] => true
  | (n, a) :: as, (m, b) :: bs => decide (n = m) && Ty.beq a b && Ty.beqFields as bs
  | _, _ => false
  termination_by structural x => x

def Ty.beqVariants : List (String × List Ty) → List (String × List Ty) → Bool
  | [], [] => true
  | (n, a) :: as, (m, b) :: bs => decide (n = m) && Ty.beqList a b && Ty.beqVariants as bs
  | _, _ => false
  termination_by structural x => x

def Ty.beqMethods : List InterfaceMethodSig → List InterfaceMethodSig → Bool
  | [], [] => true
  | .mk n ps r v p :: as, .mk n' ps' r' v' p' :: bs =>
    decide (n = n') && Ty.beqList ps ps' && Ty.beq r r' && decide (v = v') && decide (p = p')
      && Ty.beqMethods as bs
  | _, _ => false
  termination_by structural x => x

end

mutual

theorem Ty.beq_iff : ∀ a b : Ty, Ty.beq a b = true ↔ a = b
  | .int, b | .uint, b | .float, b | .i32, b | .u32, b | .u64, b | .u128, b | .bool, b | .unit, b
  | .resource, b | .string, b | .address, b | .bytes, b | .json, b => by cases b <;> simp [Ty.beq]
  | .array a, b | .explicitLiteral a, b | .set a, b | .pvec a, b => by
    cases b <;> simp [Ty.beq, Ty.beq_iff a]
  | .dict k v, b | .map k v, b | .pmap k v, b | .pbtree k v, b => by
    cases b <;> simp [Ty.beq, Ty.beq_iff k, Ty.beq_iff v]
  | .struct n fs gs, b => by cases b <;> simp [Ty.beq, Ty.beqFields_iff fs, and_assoc]
  | .tuple ts, b => by cases b <;> simp [Ty.beq, Ty.beqList_iff ts]
  | .enum n vs, b => by cases b <;> simp [Ty.beq, Ty.beqVariants_iff vs]
  | .cap n fs o, b => by cases b <;> simp [Ty.beq, Ty.beqFields_iff fs, and_assoc]
  | .interface n ms, b => by cases b <;> simp [Ty.beq, Ty.beqMethods_iff ms]
  termination_by structural x => x

theorem Ty.beqList_iff : ∀ a b : List Ty, Ty.beqList a b = true ↔ a = b
  | [], b => by cases b <;> simp [Ty.beqList]
  | a :: as, b => by cases b <;> simp [Ty.beqList, Ty.beq_iff a, Ty.beqList_iff as]
  termination_by structural x => x

theorem Ty.beqFields_iff : ∀ a b : List (String × Ty), Ty.beqFields a b = true ↔ a = b
  | [], b => by cases b <;> simp [Ty.beqFields]
  | (n, a) :: as, b => by
    rcases b with _ | ⟨⟨m, b⟩, bs⟩ <;>
      simp [Ty.beqFields, Ty.beq_iff a, Ty.beqFields_iff as]
  termination_by structural x => x

theorem Ty.beqVariants_iff : ∀ a b : List (String × List Ty), Ty.beqVariants a b = true ↔ a = b
  | [], b => by cases b <;> simp [Ty.beqVariants]
  | (n, a) :: as, b => by
    rcases b with _ | ⟨⟨m, b⟩, bs⟩ <;>
      simp [Ty.beqVariants, Ty.beqList_iff a, Ty.beqVariants_iff as]
  termination_by structural x => x

theorem Ty.beqMethods_iff : ∀ a b : List InterfaceMethodSig, Ty.beqMethods a b = true ↔ a = b
  | [], b => by cases b <;> simp [Ty.beqMethods]
  | .mk n ps r v p :: as, b => by
    rcases b with _ | ⟨⟨m, qs, r', v', p'⟩, bs⟩ <;>
      simp [Ty.beqMethods, Ty.beqList_iff ps, Ty.beq_iff r, Ty.beqMethods_iff as, and_assoc]
  termination_by structural x => x

end

instance : DecidableEq Ty := fun a b => decidable_of_iff _ (Ty.beq_iff a b)

/-! ### Equality of values -/

mutual

/-- Structural equality of values, floats by bit pattern. -/
def Value.beq : Value → Value → Bool
  | .int a, .int b => decide (a = b)
  | .uint a, .uint b => decide (a = b)
  | .float a, .float b => decide (a = b)
  | .i32 a, .i32 b => decide (a = b)
  | .u32 a, .u32 b => decide (a = b)
  | .u64 a, .u64 b => decide (a = b)
  | .u128 a, .u128 b => decide (a = b)
  | .bool a, .bool b => decide (a = b)
  | .unit, .unit => true
  | .resource a, .resource b => decide (a = b)
  | .str a, .str b => decide (a = b)
  | .address a, .address b => decide (a = b)
  | .bytes a, .bytes b => decide (a = b)
  | .array a, .array b => Value.beqList a b
  | .set a, .set b => Value.beqList a b
  | .dict a, .dict b => Value.beqPairs a b
  | .struct n a, .struct m b => decide (n = m) && Value.beqFields a b
  | .tuple a, .tuple b => Value.beqList a b
  | .enum n v a, .enum m u b => decide (n = m) && decide (v = u) && Value.beqList a b
  | .pending a, .pending b => decide (a = b)
  | .pmap a, .pmap b => decide (a = b)
  | .pbtree a, .pbtree b => decide (a = b)
  | .json a, .json b => Json.beq a b
  | .pvec l a, .pvec m b => decide (l = m) && decide (a = b)
  | .interface i a, .interface j b => decide (i = j) && decide (a = b)
  | .pmapCursor s a k v, .pmapCursor t b l u =>
    decide (s = t) && Value.beqPairs a b && decide (k = l) && decide (v = u)
  | .pbtreeCursor r a k v, .pbtreeCursor q b l u =>
    decide (r = q) && Value.beqOption a b && decide (k = l) && decide (v = u)
  | _, _ => false
  termination_by structural x => x

def Value.beqList : List Value → List Value → Bool
  | [], [] => true
  | a :: as, b :: bs => Value.beq a b && Value.beqList as bs
  | _, _ => false
  termination_by structural x => x

def Value.beqPairs : List (Value × Value) → List (Value × Value) → Bool
  | [], [] => true
  | (k, a) :: as, (l, b) :: bs => Value.beq k l && Value.beq a b && Value.beqPairs as bs
  | _, _ => false
  termination_by structural x => x

def Value.beqFields : List (String × Value) → List (String × Value) → Bool
  | [], [] => true
  | (n, a) :: as, (m, b) :: bs => decide (n = m) && Value.beq a b && Value.beqFields as bs
  | _, _ => false
  termination_by structural x => x

def Value.beqOption : Option Value → Option Value → Bool
  | none, none => true
  | some a, some b => Value.beq a b
  | _, _ => false
  termination_by structural x => x

def Json.beq : Json → Json → Bool
  | .null, .null => true
  | .array a, .array b => Value.beqList a b
  | .object a, .object b => Value.beqFields a b
  | _, _ => false
  termination_by structural x => x

end

mutual

theorem Value.beq_iff : ∀ a b : Value, Value.beq a b = true ↔ a = b
  | .int a, b | .uint a, b | .float a, b | .i32 a, b | .u32 a, b | .u64 a, b | .u128 a, b
  | .bool a, b | .resource a, b | .str a, b | .address a, b | .bytes a, b | .pending a, b
  | .pmap a, b | .pbtree a, b => by cases b <;> simp [Value.beq]
  | .unit, b => by cases b <;> simp [Value.beq]
  | .array a, b | .set a, b | .tuple a, b => by cases b <;> simp [Value.beq, Value.beqList_iff a]
  | .dict a, b => by cases b <;> simp [Value.beq, Value.beqPairs_iff a]
  | .struct n a, b => by cases b <;> simp [Value.beq, Value.beqFields_iff a]
  | .enum n v a, b => by cases b <;> simp [Value.beq, Value.beqList_iff a, and_assoc]
  | .json a, b => by cases b <;> simp [Value.beq, Json.beq_iff a]
  | .pvec l a, b => by cases b <;> simp [Value.beq]
  | .interface i a, b => by cases b <;> simp [Value.beq]
  | .pmapCursor s a k v, b => by cases b <;> simp [Value.beq, Value.beqPairs_iff a, and_assoc]
  | .pbtreeCursor r a k v, b => by cases b <;> simp [Value.beq, Value.beqOption_iff a, and_assoc]
  termination_by structural x => x

theorem Value.beqList_iff : ∀ a b : List Value, Value.beqList a b = true ↔ a = b
  | [], b => by cases b <;> simp [Value.beqList]
  | a :: as, b => by cases b <;> simp [Value.beqList, Value.beq_iff a, Value.beqList_iff as]
  termination_by structural x => x

theorem Value.beqPairs_iff : ∀ a b : List (Value × Value), Value.beqPairs a b = true ↔ a = b
  | [], b => by cases b <;> simp [Value.beqPairs]
  | (k, a) :: as, b => by
    rcases b with _ | ⟨⟨l, b⟩, bs⟩ <;>
      simp [Value.beqPairs, Value.beq_iff k, Value.beq_iff a, Value.beqPairs_iff as]
  termination_by structural x => x

theorem Value.beqFields_iff : ∀ a b : List (String × Value), Value.beqFields a b = true ↔ a = b
  | [], b => by cases b <;> simp [Value.beqFields]
  | (n, a) :: as, b => by
    rcases b with _ | ⟨⟨m, b⟩, bs⟩ <;>
      simp [Value.beqFields, Value.beq_iff a, Value.beqFields_iff as]
  termination_by structural x => x

theorem Value.beqOption_iff : ∀ a b : Option Value, Value.beqOption a b = true ↔ a = b
  | none, b => by cases b <;> simp [Value.beqOption]
  | some a, b => by cases b <;> simp [Value.beqOption, Value.beq_iff a]
  termination_by structural x => x

theorem Json.beq_iff : ∀ a b : Json, Json.beq a b = true ↔ a = b
  | .null, b => by cases b <;> simp [Json.beq]
  | .array a, b => by cases b <;> simp [Json.beq, Value.beqList_iff a]
  | .object a, b => by cases b <;> simp [Json.beq, Value.beqFields_iff a]
  termination_by structural x => x

end

instance : DecidableEq Value := fun a b => decidable_of_iff _ (Value.beq_iff a b)

/-! ### Defaults -/

mutual

/-- The value an unset cell of this type reads as (`Value::default_for`). -/
def Value.defaultFor : Ty → Value
  | .explicitLiteral inner => Value.defaultFor inner
  | .int => .int 0
  | .uint => .uint 0
  | .float => .float 0
  | .i32 => .i32 0
  | .u32 => .u32 0
  | .u64 => .u64 0
  | .u128 => .u128 0
  | .bool => .bool false
  | .unit => .unit
  | .resource => .resource 0
  | .string => .str ""
  | .address => .address ""
  | .bytes => .bytes []
  | .array _ => .array []
  | .struct name fields _ => .struct name (Value.defaultForFields fields)
  | .map _ value => Value.defaultFor value
  | .pmap _ _ => .pmap 0
  | .pbtree _ _ => .pbtree 0
  | .json => .json .null
  | .pvec _ => .pvec 0 0
  | .interface name _ => .interface name ""
  | .set _ => .set []
  | .dict _ _ => .dict []
  | .tuple elems => .tuple (Value.defaultForList elems)
  | .enum name variants =>
    .enum name (Value.defaultForFirst variants).1 (Value.defaultForFirst variants).2
  | .cap name fields _ => .struct name (Value.defaultForFields fields)
  termination_by structural x => x

def Value.defaultForList : List Ty → List Value
  | [] => []
  | t :: ts => Value.defaultFor t :: Value.defaultForList ts
  termination_by structural x => x

def Value.defaultForFields : List (String × Ty) → List (String × Value)
  | [] => []
  | (n, t) :: fs => (n, Value.defaultFor t) :: Value.defaultForFields fs
  termination_by structural x => x

/-- The first variant, with default payloads. -/
def Value.defaultForFirst : List (String × List Ty) → String × List Value
  | [] => ("", [])
  | (n, ts) :: _ => (n, Value.defaultForList ts)
  termination_by structural x => x

end

end Rend
