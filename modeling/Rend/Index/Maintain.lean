import Rend.Value

/-!
# Index maintenance

A module may declare that one of its states is an index over a `pmap` state: `index` for a slot that
keeps every record with a given key, `unique_index` for a slot that keeps the only one. The checker
validates the declarations (`checkIndexes`); the compiler then adds to every write `primary[k] = v`,
`primary[k].f = x` and `delete primary[k]` the instructions that maintain the slots (`put`,
`setField`, `delete`).

The persistent collections are the maps they stand for: a store gives the content of every state.
The instructions for a `pmap` slot and for a `pbtree` slot do the same to the map, so each kind of
maintenance is one function of the slot. The registers of the code are left out: the key a declaration
projects is the value the code of `emit_index_key` leaves in its result register.
-/

namespace Rend.Index

open Lib

/-! ### Declarations -/

/-- Whether a slot keeps one record for a key or a list of them. -/
inductive IndexKind
  | unique
  | multi
  deriving DecidableEq

inductive SortDirection
  | asc
  | desc
  deriving DecidableEq

/-- A projected field: the path from the record, and the order it sorts in. -/
structure IndexField where
  path : List String
  direction : SortDirection
  deriving DecidableEq

/-- A declaration `index name on onState.fields` (`ast::IndexDecl`). -/
structure IndexDecl where
  name : String
  onState : String
  fields : List IndexField
  kind : IndexKind
  deriving DecidableEq

/-- What index maintenance reads of a module. -/
structure Module where
  structs : List (String × List (String × Ty))
  states : List (String × Ty)
  indexes : List IndexDecl

/-- The declared type of a state. -/
def Module.stateTy (m : Module) (name : String) : Option Ty := m.states.lookup name

/-- The declarations over a state, in the order of the module (`indexes_by_primary`). -/
def Module.indexesOn (m : Module) (name : String) : List IndexDecl :=
  m.indexes.filter fun idx => idx.onState = name

/-! ### Checking the declarations -/

/-- What the checker says of a declaration, with what its message shows. -/
inductive TypeError
  | duplicateState (name : String)
  | onStateNotASlot (index onState : String)
  | onStateNotAPmap (index onState : String) (got : Ty)
  | slotNotDeclared (index : String)
  | slotNotAMap (index : String) (got : Ty)
  | multiSlotNotAList (index : String) (got : Ty)
  | stepNotAStruct (index : String) (depth : ℕ) (field : String) (got : Ty)
  | structNotRegistered (index struct : String)
  | noSuchField (index struct field : String)
  | keyMismatch (index : String) (projected key : Ty)
  | compositeKeyNotBytes (index : String) (fields : ℕ) (key : Ty)
  | compositeFieldNotAnInt (index : String) (path : List String) (got : Ty)
  | valueMismatch (index : String) (kind : IndexKind) (value primaryKey : Ty)
  deriving DecidableEq

/-- The type a path leads to, through the structs of the module. -/
def projectTy (m : Module) (index : String) : ℕ → Ty → List String → Except TypeError Ty
  | _, ty, [] => .ok ty
  | depth, .struct name _ _, field :: path =>
    match m.structs.lookup name with
    | none => .error (.structNotRegistered index name)
    | some fields =>
      match fields.lookup field with
      | none => .error (.noSuchField index name field)
      | some ty => projectTy m index (depth + 1) ty path
  | depth, ty, field :: _ => .error (.stepNotAStruct index depth field ty)

/-- The integers with a fixed width, which `to_be_bytes` packs. -/
def fixedWidth : Ty → Bool
  | .u32 | .u64 | .u128 | .i32 => true
  | _ => false

/-- The type of the records a slot of this kind holds: a multi-index keeps lists of them. -/
def slotElem (idx : IndexDecl) (value : Ty) : Except TypeError Ty :=
  match idx.kind with
  | .unique => .ok value
  | .multi =>
    match value with
    | .array inner => .ok inner
    | other => .error (.multiSlotNotAList idx.name other)

/-- The key of the slot has the type of the projected field, or is packed from integers. -/
def checkKey (idx : IndexDecl) (projected : List Ty) (key : Ty) : Except TypeError Unit :=
  match idx.fields, projected with
  | [⟨_, .asc⟩], [ty] => if ty = key then .ok () else .error (.keyMismatch idx.name ty key)
  | fields, projected =>
    if key ≠ .bytes then .error (.compositeKeyNotBytes idx.name fields.length key)
    else match (fields.zip projected).find? fun f => !fixedWidth f.2 with
      | some (f, ty) => .error (.compositeFieldNotAnInt idx.name f.path ty)
      | none => .ok ()

/-- The key and value types of the slot of a declaration. -/
def slotTypes (m : Module) (idx : IndexDecl) : Except TypeError (Ty × Ty) :=
  match m.stateTy idx.name with
  | none => .error (.slotNotDeclared idx.name)
  | some (.pmap key value) => .ok (key, value)
  | some (.pbtree key value) => .ok (key, value)
  | some other => .error (.slotNotAMap idx.name other)

/-- The key and value types of the state a declaration indexes. -/
def primaryTypes (m : Module) (idx : IndexDecl) : Except TypeError (Ty × Ty) :=
  match m.stateTy idx.onState with
  | none => .error (.onStateNotASlot idx.name idx.onState)
  | some (.pmap key value) => .ok (key, value)
  | some other => .error (.onStateNotAPmap idx.name idx.onState other)

/-- A declaration connects a `pmap` state to a slot whose types fit the projection. -/
def checkIndex (m : Module) (idx : IndexDecl) : Except TypeError Unit := do
  let (primaryKey, primaryVal) ← primaryTypes m idx
  let (indexKey, indexVal) ← slotTypes m idx
  let elem ← slotElem idx indexVal
  let projected ← idx.fields.mapM fun f => projectTy m idx.name 0 primaryVal f.path
  checkKey idx projected indexKey
  if elem ≠ primaryKey then .error (.valueMismatch idx.name idx.kind elem primaryKey) else .ok ()

/-- No two states share a name. -/
def checkStates : List String → List (String × Ty) → Except TypeError Unit
  | _, [] => .ok ()
  | seen, (name, _) :: states =>
    if name ∈ seen then .error (.duplicateState name) else checkStates (name :: seen) states

/-- The checks of the states and the index declarations of a module. -/
def checkIndexes (m : Module) : Except TypeError Unit := do
  checkStates [] m.states
  m.indexes.forM (checkIndex m)

/-! ### Keys -/

/-- What stops a write, with what its message shows. -/
inductive RunError
  | noField (field : String)
  | accessOnNonStruct (got : Value)
  | assignOnNonStruct (got : Value)
  | badBuiltinArgs (usage : String)
  | compositeWithoutFields
  | notDeclared (state : String)
  | notIndexable (state : String)
  | uniqueViolation (key prior new : Value)
  deriving DecidableEq

/-- `FieldGet`. -/
def fieldGet (v : Value) (field : String) : Except RunError Value :=
  match v with
  | .struct _ fields =>
    match fields.lookup field with
    | some x => .ok x
    | none => .error (.noField field)
  | other => .error (.accessOnNonStruct other)

/-- The first field of this name gets a new value. -/
def setFirst (field : String) (new : Value) : List (String × Value) → Option (List (String × Value))
  | [] => none
  | (n, v) :: fields =>
    if n = field then some ((n, new) :: fields) else (setFirst field new fields).map ((n, v) :: ·)

/-- `FieldSet`. -/
def fieldSet (v : Value) (field : String) (new : Value) : Except RunError Value :=
  match v with
  | .struct name fields =>
    match setFirst field new fields with
    | some fields => .ok (.struct name fields)
    | none => .error (.noField field)
  | other => .error (.assignOnNonStruct other)

/-- The value a path leads to (`emit_field_path`). -/
def fieldPath (v : Value) (path : List String) : Except RunError Value := path.foldlM fieldGet v

/-- The builtin `to_be_bytes`. The sign bit of an `i32` is flipped, which keeps the order. -/
def toBeBytes : Value → Except RunError Value
  | .u32 n => .ok (.bytes (beBytes 4 n.toNat))
  | .u64 n => .ok (.bytes (beBytes 8 n.toNat))
  | .u128 n => .ok (.bytes (beBytes 16 n.toNat))
  | .i32 n => .ok (.bytes (beBytes 4 (n ^^^ 0x80000000#32).toNat))
  | _ => .error (.badBuiltinArgs "to_be_bytes(u32 | u64 | u128 | i32)")

/-- The builtin `bit_not_bytes`. -/
def bitNotBytes : Value → Except RunError Value
  | .bytes b => .ok (.bytes (b.map (~~~ ·)))
  | _ => .error (.badBuiltinArgs "bit_not_bytes(bytes)")

/-- The builtin `bytes_concat`. -/
def bytesConcat : Value → Value → Except RunError Value
  | .bytes a, .bytes b => .ok (.bytes (a ++ b))
  | _, _ => .error (.badBuiltinArgs "bytes_concat(bytes, bytes)")

/-- One component of a packed key. -/
def keyPart (v : Value) (f : IndexField) : Except RunError Value := do
  let part ← toBeBytes (← fieldPath v f.path)
  match f.direction with
  | .asc => pure part
  | .desc => bitNotBytes part

/-- The packed key, each component appended to the ones before it. -/
def packKey (v : Value) : Option Value → List IndexField → Except RunError Value
  | none, [] => .error .compositeWithoutFields
  | some packed, [] => .ok packed
  | none, f :: fs => do packKey v (some (← keyPart v f)) fs
  | some prev, f :: fs => do packKey v (some (← bytesConcat prev (← keyPart v f))) fs

/-- The key of a record in an index (`emit_index_key`). -/
def emitIndexKey (idx : IndexDecl) (v : Value) : Except RunError Value :=
  match idx.fields with
  | [⟨path, .asc⟩] => fieldPath v path
  | fields => packKey v none fields

/-! ### Slots -/

/-- The content of a `pmap` or `pbtree` state. Keys and record keys are compared as values. The runtime compares them
so too, unless JSON objects are part of them: of these it ignores the order of the members. -/
abbrev Slot := Value → Option Value

/-- The content of every state. -/
abbrev Store := String → Slot

/-- `PMapPutUnique` and `PBTreePutUnique`: a key that is taken by another record is refused. -/
def putUnique (slot : Slot) (key new : Value) : Except RunError Slot :=
  match slot key with
  | some prior => if prior ≠ new then .error (.uniqueViolation key prior new) else .ok slot
  | none => .ok (Function.update slot key (some new))

/-- The list in an entry of a multi-index; a missing entry is the empty one. -/
def entryList : Option Value → List Value
  | some (.array arr) => arr
  | _ => []

/-- `PMapAppendUnique` and `PBTreeAppendUnique`. -/
def appendUnique (slot : Slot) (key elem : Value) : Slot :=
  let arr := entryList (slot key)
  if elem ∈ arr then slot else Function.update slot key (some (.array (arr ++ [elem])))

/-- `PMapRemoveUnique` and `PBTreeRemoveUnique`: only the entry of this record is removed. -/
def removeUnique (slot : Slot) (key expected : Value) : Slot :=
  if slot key = some expected then Function.update slot key none else slot

/-- `PMapRemoveFromList` and `PBTreeRemoveFromList`: an entry that becomes empty is removed. -/
def removeFromList (slot : Slot) (key elem : Value) : Slot :=
  match slot key with
  | some (.array arr) =>
    let kept := arr.filter fun e => e ≠ elem
    if kept.length = arr.length then slot
    else if kept.isEmpty then Function.update slot key none
    else Function.update slot key (some (.array kept))
  | _ => slot

/-- The instruction that adds a record to the slot of an index. -/
def link (idx : IndexDecl) (slot : Slot) (key k : Value) : Except RunError Slot :=
  match idx.kind with
  | .unique => putUnique slot key k
  | .multi => .ok (appendUnique slot key k)

/-- The instruction that takes a record out of the slot of an index. -/
def unlink (idx : IndexDecl) (slot : Slot) (key k : Value) : Slot :=
  match idx.kind with
  | .unique => removeUnique slot key k
  | .multi => removeFromList slot key k

/-! ### Writes -/

/-- The maintenance of one index after the record `k` was set to `v`. -/
def linkRecord (k v : Value) (st : Store) (idx : IndexDecl) : Except RunError Store := do
  let key ← emitIndexKey idx v
  let slot ← link idx (st idx.name) key k
  return Function.update st idx.name slot

/-- The maintenance of one index before the record `k`, which was `prior`, is removed. -/
def unlinkRecord (k prior : Value) (st : Store) (idx : IndexDecl) : Except RunError Store := do
  let key ← emitIndexKey idx prior
  return Function.update st idx.name (unlink idx (st idx.name) key k)

/-- The content of a state with one entry changed. -/
def setEntry (st : Store) (p : String) (k : Value) (v : Option Value) : Store :=
  Function.update st p (Function.update (st p) k v)

/-- The entry `p[k]` as an expression reads it: a missing one is the default of the value type. -/
def readEntry (valueTy : Ty) (st : Store) (p : String) (k : Value) : Value :=
  (st p k).getD (Value.defaultFor valueTy)

/-- The code of `p[k] = v` (`assign_path`, indexed target). -/
def put (m : Module) (p : String) (k v : Value) (st : Store) : Except RunError Store :=
  match m.stateTy p with
  | none => .error (.notDeclared p)
  | some (.pmap _ _) => (m.indexesOn p).foldlM (linkRecord k v) (setEntry st p k (some v))
  | some (.pbtree _ _) => .ok (setEntry st p k (some v))
  | some _ => .error (.notIndexable p)

/-- The type of the values of a state that is written by key. -/
def valueTyOf (m : Module) (p : String) : Except RunError Ty :=
  match m.stateTy p with
  | none => .error (.notDeclared p)
  | some (.pmap _ value) => .ok value
  | some (.pbtree _ value) => .ok value
  | some _ => .error (.notIndexable p)

/-- The code of `p[k].f₁.….fₙ = x` (`assign_path`, field target), the path given from `fₙ` on: the
parent is read, the field is set in it, and the parent is assigned in the same way. -/
def setField (m : Module) (p : String) (k : Value) : List String → Value → Store → Except RunError Store
  | [], x, st => put m p k x st
  | field :: parents, x, st => do
    let valueTy ← valueTyOf m p
    let parent ← fieldPath (readEntry valueTy st p k) parents.reverse
    let parent ← fieldSet parent field x
    setField m p k parents parent st

/-- The code of `delete p[k]` (`compile_delete`). -/
def delete (m : Module) (p : String) (k : Value) (st : Store) : Except RunError Store := do
  let valueTy ← valueTyOf m p
  let st ← (m.indexesOn p).foldlM (unlinkRecord k (readEntry valueTy st p k)) st
  return setEntry st p k none

end Rend.Index
