import Rend.Lib.SortedMap
import Rend.Value

/-!
# Bytecode

The instructions of the register machine (`bc.rs`), the reads an optimized function batches, and the
functions and modules they stand in. A register, a constant and an index into a table of the module are
natural numbers. A jump is relative to the instruction after it.
-/

namespace Rend

/-- A register of the frame. -/
abbrev Reg := ℕ

/-- The binary operators (`ast::BinOp`). -/
inductive BinOp
  | add | sub | mul | div | mod
  | eq | notEq | lt | gt | ltEq | gtEq
  | and | or
  | bitAnd | bitOr | bitXor | shl | shr
  deriving DecidableEq

/-- The unary operators (`ast::UnOp`). -/
inductive UnOp
  | neg | not
  deriving DecidableEq

/-- A constant of the pool of a function (`bc::Const`). -/
inductive Const
  | int (n : ℤ)
  | uint (n : ℤ)
  | float (bits : U64)
  | i32 (n : BitVec 32)
  | u32 (n : BitVec 32)
  | u64 (n : U64)
  | u128 (n : U128)
  | bool (b : Bool)
  | str (s : String)
  deriving DecidableEq

/-- One leg of a `parallel` block. -/
structure ParallelRange where
  start : ℕ
  «end» : ℕ
  dst : Option Reg
  deriving DecidableEq

/-- A state read inside a batch. -/
inductive ReadOp
  | state (dst : Reg) (keyIdx : ℕ)
  | path (dst : Reg) (pathIdx : ℕ)
  deriving DecidableEq

def ReadOp.dst : ReadOp → Reg
  | .state dst _ => dst
  | .path dst _ => dst

/-- An instruction (`bc::Instr`). -/
inductive Instr
  | loadConst (dst : Reg) (idx : ℕ)
  | move (dst src : Reg)
  | bin (op : BinOp) (dst lhs rhs : Reg)
  | un (op : UnOp) (dst src : Reg)
  | jump (offset : ℤ)
  | jumpIfFalse (cond : Reg) (offset : ℤ)
  | call (dst : Reg) (fnIdx : ℕ) (argsStart : Reg) (nArgs : ℕ)
  | callHost (dst : Reg) (importIdx : ℕ) (argsStart : Reg) (nArgs : ℕ)
  | callExternal (dst : Reg) (moduleNameIdx fnNameIdx : ℕ) (argsStart : Reg) (nArgs : ℕ)
      (isView isPure : Bool)
  | makeInterface (dst : Reg) (ifaceNameIdx : ℕ) (targetReg : Reg)
  | callExternalDyn (dst targetReg : Reg) (fnNameIdx : ℕ) (argsStart : Reg) (nArgs : ℕ)
      (isView isPure : Bool)
  | ret (src : Reg)
  | returnUnit
  | builtinResource (dst src : Reg)
  | builtinUnwrap (dst src : Reg)
  | builtinAddress (dst src : Reg)
  | builtinLen (dst src : Reg)
  | convert (dst src : Reg) (target : ℕ)
  | makeArray (dst argsStart : Reg) (n : ℕ)
  | arrayGet (dst arr idx : Reg)
  | arrayAppend (dst arr elem : Reg)
  | makeSet (dst argsStart : Reg) (n : ℕ)
  | makeDict (dst argsStart : Reg) (nPairs : ℕ)
  | builtinCall (dst : Reg) (nameIdx : ℕ) (argsStart : Reg) (nArgs : ℕ)
  | makeStruct (dst : Reg) (shapeIdx : ℕ) (argsStart : Reg) (n : ℕ)
  | fieldGet (dst src : Reg) (nameIdx : ℕ)
  | fieldSet (dst : Reg) (nameIdx : ℕ) (val : Reg)
  | kvGet (dst : Reg) (keyIdx : ℕ)
  | kvPut (src : Reg) (keyIdx : ℕ)
  | kvGetPath (dst : Reg) (pathIdx : ℕ)
  | kvPutPath (src : Reg) (pathIdx : ℕ)
  | readBatch (groupIdx : ℕ)
  | prefetchMap (arrReg : Reg) (stateIdx : ℕ)
  | emit (value : Reg)
  | parallelBegin (ranges : List ParallelRange) (afterPc : ℕ)
  | parallelYield (value : Option Reg)
  | parallelForBegin (bodyStart bodyEnd : ℕ) (sourceReg outputReg idReg idxReg : Reg) (afterPc : ℕ)
  | arrayAlloc (dst lenReg defaultReg : Reg)
  | reserve (dst : Reg) (stateIdx : ℕ) (countReg : Reg)
  | parallelForSkip
  | context (dst : Reg) (kind : ℕ)
  | makeTuple (dst argsStart : Reg) (n : ℕ)
  | tupleGet (dst src : Reg) (index : ℕ)
  | makeEnum (dst : Reg) (shapeIdx variantIdx : ℕ) (argsStart : Reg) (n : ℕ)
  | enumTag (dst src : Reg)
  | enumPayload (dst src : Reg) (index : ℕ)
  | mapGet (dst : Reg) (stateIdx : ℕ) (keyReg : Reg)
  | mapPut (stateIdx : ℕ) (keyReg src : Reg)
  | pmapGet (dst : Reg) (stateIdx : ℕ) (keyReg : Reg)
  | pmapPut (stateIdx : ℕ) (keyReg src : Reg)
  | pmapContains (dst : Reg) (stateIdx : ℕ) (keyReg : Reg)
  | pvecGet (dst : Reg) (stateIdx : ℕ) (idxReg : Reg)
  | pvecSet (stateIdx : ℕ) (idxReg src : Reg)
  | pvecPush (dst : Reg) (stateIdx : ℕ) (src : Reg)
  | pvecLen (dst : Reg) (stateIdx : ℕ)
  | pmapEntries (dst : Reg) (stateIdx : ℕ)
  | pmapKeys (dst : Reg) (stateIdx : ℕ)
  | pmapValues (dst : Reg) (stateIdx : ℕ)
  | pvecToArray (dst : Reg) (stateIdx : ℕ)
  | pmapAppendUnique (stateIdx : ℕ) (keyReg elemReg : Reg)
  | pmapPutUnique (stateIdx : ℕ) (keyReg src : Reg)
  | pmapWalkInit (dst : Reg) (stateIdx : ℕ)
  | pmapWalkNext (cursorReg valueReg : Reg) (endOffset : ℤ)
  | pbtreeGet (dst : Reg) (stateIdx : ℕ) (keyReg : Reg)
  | pbtreePut (stateIdx : ℕ) (keyReg src : Reg)
  | pbtreeContains (dst : Reg) (stateIdx : ℕ) (keyReg : Reg)
  | pbtreeRange (dst : Reg) (stateIdx : ℕ) (loReg hiReg : Reg)
  | pbtreeWalkInit (dst : Reg) (stateIdx : ℕ)
  | pbtreeWalkNext (cursorReg valueReg : Reg) (endOffset : ℤ)
  | pbtreePutUnique (stateIdx : ℕ) (keyReg src : Reg)
  | pbtreeAppendUnique (stateIdx : ℕ) (keyReg elemReg : Reg)
  | pmapDelete (stateIdx : ℕ) (keyReg : Reg)
  | pbtreeDelete (stateIdx : ℕ) (keyReg : Reg)
  | pmapRemoveUnique (stateIdx : ℕ) (keyReg expectedReg : Reg)
  | pmapRemoveFromList (stateIdx : ℕ) (keyReg elemReg : Reg)
  | pbtreeRemoveUnique (stateIdx : ℕ) (keyReg expectedReg : Reg)
  | pbtreeRemoveFromList (stateIdx : ℕ) (keyReg elemReg : Reg)
  | incReg (reg : Reg)
  deriving DecidableEq

/-- The read an instruction of a batch stands for. -/
def ReadOp.instr : ReadOp → Instr
  | .state dst keyIdx => .kvGet dst keyIdx
  | .path dst pathIdx => .kvGetPath dst pathIdx

theorem ReadOp.instr_injective : Function.Injective ReadOp.instr := by
  rintro ⟨⟩ ⟨⟩ h <;> cases h <;> rfl

theorem ReadOp.instr_ne_readBatch (op : ReadOp) (g : ℕ) : op.instr ≠ .readBatch g := by
  cases op <;> exact fun h => by cases h

/-- The code of a function, with the batches of its reads (`bc::BcFn`). -/
structure BcCode where
  code : List Instr
  readGroups : List (List ReadOp) := []

/-- A compiled function (`bc::BcFn`). -/
structure BcFn extends BcCode where
  name : String
  nParams : ℕ
  nRegs : ℕ
  consts : List Const
  isEntry : Bool
  isNore : Bool
  paramTypes : List Ty
  returnType : Ty
  isView : Bool
  isPure : Bool

/-! ### Modules -/

/-- A struct or capability: the names, types and storage groups of its fields (`bc::StructShape`). -/
structure StructShape where
  name : String
  fieldNames : List String
  fieldTypes : List Ty
  fieldGroups : List (Option String)
  isPub : Bool

/-- An enum and its variants (`bc::EnumShape`). -/
structure EnumShape where
  name : String
  variantNames : List String

/-- The cell a field path of a state leads to (`bc::PathSpec`). -/
structure PathSpec where
  leafKey : U128
  leafType : Ty
  isBlob : Bool

/-- A range of the source text (`token::Span`). -/
structure Span where
  start : ℕ
  «end» : ℕ
  deriving DecidableEq

/-- The range of what has no source text. -/
def Span.default : Span := ⟨0, 0⟩

/-- A parameter of a declared function (`ast::Param`). -/
structure Param where
  name : String
  ty : Ty
  span : Span

/-- A method of a declared interface (`ast::InterfaceMethod`). -/
structure InterfaceMethod where
  name : String
  params : List Param
  returnType : Ty
  isView : Bool
  isPure : Bool
  span : Span

/-- A declared interface (`ast::InterfaceDecl`). -/
structure InterfaceDecl where
  name : String
  methods : List InterfaceMethod
  span : Span

/-- A compiled module (`bc::BcModule`). -/
structure BcModule where
  name : String
  imports : List String
  importIndex : Lib.SortedMap String ℕ
  stateRoots : List U128
  stateTypes : List Ty
  stateDefaults : List Value
  stateNames : List String
  stateIndex : Lib.SortedMap String ℕ
  structShapes : List StructShape
  structIndex : Lib.SortedMap String ℕ
  functions : List BcFn
  fnIndex : Lib.SortedMap String ℕ
  pathSpecs : List PathSpec
  handlerDispatch : Lib.SortedMap String (List ℕ)
  enumShapes : List EnumShape
  enumIndex : Lib.SortedMap String ℕ
  interfaces : List InterfaceDecl
  interfaceIndex : Lib.SortedMap String ℕ

/-- The position of each name, the last one for a name that is repeated. -/
def nameIndex (names : List String) : Lib.SortedMap String ℕ := Lib.SortedMap.ofEntries names.zipIdx

/-- The index of a name leads to an item of that name. -/
theorem mem_of_nameIndex {α : Type} {items : List α} {key : α → String} {name : String} {x : α}
    (h : ((nameIndex (items.map key)).lookup name).bind (fun i => items[i]?) = some x) :
    x ∈ items ∧ key x = name := by
  obtain ⟨i, hi, hx⟩ := Option.bind_eq_some_iff.mp h
  obtain ⟨l₁, l₂, heq, -⟩ := List.lookup_eq_some_iff.mp hi
  have hentry : (name, i) ∈ nameIndex (items.map key) := by
    rw [heq]
    exact List.mem_append_right l₁ List.mem_cons_self
  have hmem : (name, i) ∈ (items.map key).zipIdx := Lib.SortedMap.mem_ofEntries hentry
  have hname := List.mem_zipIdx_iff_getElem?.mp hmem
  rw [List.getElem?_map, hx] at hname
  exact ⟨List.mem_of_getElem? hx, Option.some.inj hname⟩

end Rend
