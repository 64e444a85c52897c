import Rend.Ops.Eval
import Rend.Pvec.Ops
import Rend.Structs.Registers
import Rend.Vm.PbtreeWalk
import Rend.Vm.PmapWalk
import Rend.Vm.Batch
import Rend.Vm.Reserve
import Rend.Vm.Trace

/-!
# The data instructions

What the instructions of the machine do that neither call nor fork nor jump nor return (`call_body_at`): they
work on the registers of the frame and on its transaction. `dataKernel` puts them together to the kernel of the
machine.

The operations of floats, the display of values, the host, the builtins over values and the block that a
transaction runs in come from outside. The descents of a `pbtree` and the steps of a cursor are bounded by
`bound`; a cursor that has not found its next entry by then counts as a panic.
-/

namespace Rend.Vm

open Lib

/-- What the instructions use of the code around the machine. What the host and the builtins answer with is built
from their arguments. -/
structure Outside where
  runtime : Ops.Runtime
  host : String → List Value → Except (ℤ × String) Value
  host_covers : ∀ {name args v}, host name args = .ok v → Covers args [v]
  callBuiltin : String → List Value → Except String Value
  callBuiltin_covers : ∀ {name args v}, callBuiltin name args = .ok v → Covers args [v]
  sender : String
  blockTimestamp : U64
  blockNumber : U64

/-- A step on the transaction and the registers of a frame. -/
abbrev DataM (α : Type) : Type := StateT Frame (Except Fault) α

namespace Data

/-! ### Steps -/

section Steps

variable {α : Type}

def fail (e : Fault) : DataM α := fun _ => .error e

def orFault : Except Fault α → DataM α
  | .ok a => pure a
  | .error e => fail e

/-- An error that the instruction passes on. -/
def orRuntime : Except String α → DataM α
  | .ok a => pure a
  | .error msg => fail (.runtime msg)

/-- An index out of range, or a state of another type than the compiler has seen. -/
def orPanic : Option α → DataM α
  | some a => pure a
  | none => fail .panic

/-- What the transaction does and answers with. -/
def ask (f : Tx → Tx × α) : DataM α := fun s => .ok ((f s.1).2, (f s.1).1, s.2)

def onTx (f : Tx → Tx) : DataM Unit := ask fun tx => (f tx, ())

/-- The value of a register, as it stands there. -/
def peek (r : Reg) : DataM Value := fun s => .ok (reg s.2 r, s)

/-- The values of consecutive registers, as they stand there. -/
def peekAll (argsStart : Reg) (n : ℕ) : DataM (List Value) := fun s => .ok (callArgs s.2 argsStart n, s)

def put (r : Reg) (v : Value) : DataM Unit := fun s => .ok ((), s.1, s.2.set r v)

end Steps

/-- `force_reg`. -/
def forceReg (r : Reg) : DataM Value := do
  let v ← peek r
  let v ← ask fun tx => tx.force v
  put r v
  return v

/-- `force_reg_spine`. -/
def forceRegSpine (r : Reg) : DataM Value := do
  let v ← peek r
  let v ← ask fun tx => Structs.forceSpine tx v
  put r v
  return v

/-- The forced values of consecutive registers. -/
def forceArgs (argsStart : Reg) (n : ℕ) : DataM (List Value) :=
  (List.range n).foldlM (fun vs i => do let v ← forceReg (argsStart + i); return vs ++ [v]) []

/-! ### Values -/

def constValue : Const → Value
  | .int n => .int n
  | .uint n => .uint n
  | .float bits => .float bits
  | .i32 n => .i32 n
  | .u32 n => .u32 n
  | .u64 n => .u64 n
  | .u128 n => .u128 n
  | .bool b => .bool b
  | .str s => .str s

section Values

variable (X : Outside) (m : BcModule) (f : BcFn)

def unexpected (what : String) (v : Value) : Fault := .runtime (what ++ X.runtime.display v)

def loadConst (dst : Reg) (idx : ℕ) : DataM Unit := do
  let c ← orPanic f.consts[idx]?
  put dst (constValue c)

def move (dst src : Reg) : DataM Unit := do
  let v ← peek src
  put dst v

def convert (dst src : Reg) (target : ℕ) : DataM Unit := do
  let v ← forceReg src
  match Ops.convert v target with
  | .ok w => put dst w
  | .error e => fail (.runtime (e.message X.runtime.display))

def bin (op : BinOp) (dst lhs rhs : Reg) : DataM Unit := do
  let l ← forceReg lhs
  let r ← forceReg rhs
  let v ← orRuntime (Ops.evalBinary X.runtime op l r)
  put dst v

def un (op : UnOp) (dst src : Reg) : DataM Unit := do
  let v ← forceReg src
  let w ← orRuntime (Ops.evalUnary X.runtime op v)
  put dst w

def incReg (r : Reg) : DataM Unit := do
  let v ← forceReg r
  let w ← orRuntime (Ops.inc X.runtime v)
  put r w

def callHost (dst : Reg) (importIdx : ℕ) (argsStart : Reg) (nArgs : ℕ) : DataM Unit := do
  let args ← forceArgs argsStart nArgs
  let name ← orPanic m.imports[importIdx]?
  match X.host name args with
  | .ok v => put dst v
  | .error (code, msg) => fail (.runtime ("host '" ++ name ++ "' [code " ++ toString code ++ "]: " ++ msg))

def builtinCall (dst : Reg) (nameIdx : ℕ) (argsStart : Reg) (nArgs : ℕ) : DataM Unit := do
  let name ← orFault (constStr f nameIdx)
  let args ← forceArgs argsStart nArgs
  let v ← orRuntime (X.callBuiltin name args)
  put dst v

def makeInterface (modules : List BcModule) (dst : Reg) (ifaceNameIdx : ℕ) (targetReg : Reg) : DataM Unit := do
  let iface ← orPanic f.consts[ifaceNameIdx]?
  let target ← forceReg targetReg
  match Link.makeInterface modules iface target with
  | .ok v => put dst v
  | .error e => fail (.bind e)

def builtinResource (dst src : Reg) : DataM Unit := do
  match ← forceReg src with
  | .int n =>
    if -2 ^ 63 ≤ n ∧ n < 2 ^ 63 then put dst (.resource (BitVec.ofInt 64 n))
    else fail (.runtime ("resource(): int out of i64 range: " ++ toString n))
  | other => fail (unexpected X "resource() expects int, got " other)

def builtinUnwrap (dst src : Reg) : DataM Unit := do
  match ← forceReg src with
  | .resource n => put dst (.int n.toInt)
  | other => fail (unexpected X "unwrap() expects Resource, got " other)

def builtinAddress (dst src : Reg) : DataM Unit := do
  match ← forceReg src with
  | .str s => put dst (.address s)
  | other => fail (unexpected X "address() expects string, got " other)

def builtinLen (dst src : Reg) : DataM Unit := do
  match ← forceRegSpine src with
  | .array elems => put dst (.int elems.length)
  | .str s => put dst (.int s.utf8ByteSize)
  | .set elems => put dst (.int elems.length)
  | .dict pairs => put dst (.int pairs.length)
  | other => fail (unexpected X "len() expects array or string, got " other)

def context (dst : Reg) (kind : ℕ) : DataM Unit :=
  match kind with
  | 0 => put dst (.address X.sender)
  | 1 => put dst (.u64 X.blockTimestamp)
  | 2 => put dst (.u64 X.blockNumber)
  | other => fail (.runtime ("unknown context kind " ++ toString other))

/-! ### Collections in memory -/

def makeArray (dst argsStart : Reg) (n : ℕ) : DataM Unit := do
  let elems ← peekAll argsStart n
  put dst (.array elems)

def makeTuple (dst argsStart : Reg) (n : ℕ) : DataM Unit := do
  let elems ← peekAll argsStart n
  put dst (.tuple elems)

def arrayAlloc (dst lenReg defaultReg : Reg) : DataM Unit := do
  let lenV ← forceReg lenReg
  match valueToU64Arr lenV with
  | none => fail (unexpected X "`arr<T>[N]` length must be a non-negative integer, got " lenV)
  | some n =>
    let default ← forceReg defaultReg
    put dst (.array (List.replicate n.toNat default))

def arrayAppend (dst arr elem : Reg) : DataM Unit := do
  match ← forceRegSpine arr with
  | .array elems =>
    let v ← peek elem
    put dst (.array (elems ++ [v]))
  | other => fail (unexpected X "array_append on non-array: " other)

def arrayGet (dst arr idx : Reg) : DataM Unit := do
  let arrVal ← forceRegSpine arr
  let idxVal ← forceReg idx
  match arrVal, idxVal with
  | .array elems, .int i =>
    match if 0 ≤ i then elems[i.toNat]? else none with
    | some v => put dst v
    | none => fail (.runtime ("array index out of bounds: " ++ toString i ++ " of " ++ toString elems.length))
  | _, _ => fail (.runtime "array index requires [T] and int")

/-- Elements are forced, so that two reads of one cell are seen to be equal. -/
def makeSet (dst argsStart : Reg) (n : ℕ) : DataM Unit := do
  let elems ← (List.range n).foldlM (fun elems i => do
    let v ← forceReg (argsStart + i)
    return if elems.any fun x => Ops.same x v then elems else elems ++ [v]) []
  put dst (.set elems)

/-- Puts a value at a key, in the place of the first key that is equal to it. -/
def putPair (k v : Value) : List (Value × Value) → List (Value × Value)
  | [] => [(k, v)]
  | (k', v') :: pairs => if Ops.same k' k then (k', v) :: pairs else (k', v') :: putPair k v pairs

def makeDict (dst argsStart : Reg) (nPairs : ℕ) : DataM Unit := do
  let pairs ← (List.range nPairs).foldlM (fun pairs i => do
    let k ← forceReg (argsStart + i * 2)
    let v ← peek (argsStart + i * 2 + 1)
    return putPair k v pairs) []
  put dst (.dict pairs)

def makeStruct (dst : Reg) (shapeIdx : ℕ) (argsStart : Reg) (n : ℕ) : DataM Unit := do
  let shape ← orPanic m.structShapes[shapeIdx]?
  let vs ← peekAll argsStart n
  if shape.fieldNames.length < n then fail .panic else put dst (.struct shape.name (shape.fieldNames.zip vs))

def fieldGet (dst src : Reg) (nameIdx : ℕ) : DataM Unit := do
  let fieldName ← orFault (constStr f nameIdx)
  match ← forceRegSpine src with
  | .struct _ fields =>
    match fields.lookup fieldName with
    | some v => put dst v
    | none => fail (.runtime ("no field '" ++ fieldName ++ "'"))
  | other => fail (unexpected X "field access on non-struct: " other)

def fieldSet (dst : Reg) (nameIdx : ℕ) (val : Reg) : DataM Unit := do
  let fieldName ← orFault (constStr f nameIdx)
  let newVal ← peek val
  match ← forceRegSpine dst with
  | .struct name fields =>
    match Structs.setField (.struct name fields) fieldName newVal with
    | some v => put dst v
    | none => fail (.runtime ("no field '" ++ fieldName ++ "'"))
  | other => fail (unexpected X "field assignment on non-struct: " other)

def makeEnum (dst : Reg) (shapeIdx variantIdx : ℕ) (argsStart : Reg) (n : ℕ) : DataM Unit := do
  let shape ← orPanic m.enumShapes[shapeIdx]?
  let variant ← orPanic shape.variantNames[variantIdx]?
  let payload ← peekAll argsStart n
  put dst (.enum shape.name variant payload)

def enumTag (dst src : Reg) : DataM Unit := do
  match ← forceRegSpine src with
  | .enum enumName variant _ =>
    match m.enumIndex.lookup enumName with
    | none => fail (.runtime ("unknown enum '" ++ enumName ++ "'"))
    | some shapeIdx =>
      let shape ← orPanic m.enumShapes[shapeIdx]?
      match shape.variantNames.findIdx? fun n => n = variant with
      | some idx => put dst (.int idx)
      | none => fail (.runtime ("variant '" ++ variant ++ "' not found in '" ++ enumName ++ "'"))
  | other => fail (unexpected X "EnumTag on non-enum: " other)

def enumPayload (dst src : Reg) (index : ℕ) : DataM Unit := do
  match ← forceRegSpine src with
  | .enum _ _ payload =>
    match payload[index]? with
    | some v => put dst v
    | none =>
      fail (.runtime
        ("EnumPayload index " ++ toString index ++ " out of bounds (len " ++ toString payload.length ++ ")"))
  | other => fail (unexpected X "EnumPayload on non-enum: " other)

def tupleGet (dst src : Reg) (index : ℕ) : DataM Unit := do
  match ← forceRegSpine src with
  | .tuple elems =>
    match elems[index]? with
    | some v => put dst v
    | none =>
      fail (.runtime ("tuple index " ++ toString index ++ " out of bounds (len " ++ toString elems.length ++ ")"))
  | other => fail (unexpected X "tuple index on non-tuple: " other)

end Values

end Data

end Rend.Vm
