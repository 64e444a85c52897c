import Rend.Compile.Prefetch

/-!
# The forms of expressions

How each form of an expression is lowered (`compile_expr_into`), over the lowering of its operands. An operand
goes either into a register of its own, or with its neighbours into a window of registers that an instruction
takes as a whole. The window of most forms is taken before the first operand is lowered; the two forms of
JSON take a register at a time.
-/

namespace Rend.Compile

open Ast Index

/-- The lowering of an expression into a register. -/
abbrev Operand : Type 1 := Reg → Low Unit

/-! ### Operands -/

/-- Lowers an operand into a register of its own. -/
def viaReg (operand : Operand) (finish : Reg → Low Unit) : Low Unit := do
  let r ← alloc
  operand r
  finish r
  free r

/-- Lowers two operands into registers of their own. -/
def viaRegs (first second : Operand) (finish : Reg → Reg → Low Unit) : Low Unit :=
  viaReg first fun r => viaReg second fun r' => finish r r'

def compileEach : List Operand → List Reg → Low Unit
  | operand :: operands, r :: regs => do
    operand r
    compileEach operands regs
  | _, _ => pure ()

/-- Lowers the operands into a window, which is taken before. -/
def viaWindow (operands : List Operand) (finish : Reg → Low Unit) : Low Unit := do
  let (start, regs) ← window operands.length
  compileEach operands regs
  finish start
  release operands.length

/-- A call of a builtin on a window. -/
def callBuiltin (dst : Reg) (name : String) (argsStart : Reg) (nArgs : ℕ) : Low Unit := do
  let nameIdx ← constIdx (.str name)
  push (.builtinCall dst nameIdx argsStart nArgs)

/-! ### JSON -/

/-- The registers of the keys and values of an object, each taken when its turn comes. -/
def compilePairs : List (String × Operand) → Low (List Reg)
  | [] => pure []
  | (key, value) :: pairs => do
    let keyReg ← alloc
    loadConst keyReg (.str key)
    let valueReg ← alloc
    value valueReg
    let regs ← compilePairs pairs
    return keyReg :: valueReg :: regs

def compileJsonObject (pairs : List (String × Operand)) (dst : Reg) : Low Unit := do
  let regs ← compilePairs pairs
  callBuiltin dst "_json_object" (regs.headD 0) (2 * pairs.length)
  freeAll regs.reverse

/-- The registers of the items of an array, each taken when its turn comes. -/
def compileItems : List Operand → Low (List Reg)
  | [] => pure []
  | item :: items => do
    let r ← alloc
    item r
    let regs ← compileItems items
    return r :: regs

def compileJsonArray (items : List Operand) (dst : Reg) : Low Unit := do
  let regs ← compileItems items
  callBuiltin dst "_json_array" (regs.headD 0) items.length
  freeAll regs.reverse

/-! ### Names and fields -/

section Forms

-- `inline` lowers the expressions that are no part of the tree: constants at their use, default values
variable (env : Env) (inline : Expr → Operand)

def compileIdent (name : String) (dst : Reg) : Low Unit := do
  match (← context).lookupLocal name with
  | some r => if r ≠ dst then push (.move dst r)
  | none =>
    match env.stateIndex name with
    | some idx => push (.kvGet dst idx)
    | none =>
      match env.moduleConsts name with
      | some value => inline value dst
      | none => .fail s!"undefined variable '{name}'"

/-- `$$`. -/
def compilePrev (dst : Reg) : Low Unit := do
  let r ← expect "$$ used outside of a pipe stage" (← context).pipeStack.head?
  if r ≠ dst then push (.move dst r)

def compilePipe (head step : Operand) (dst : Reg) : Low Unit :=
  viaReg head fun stash => do
    pushPipe stash
    step dst
    popPipe

/-- The fields that lead on inside the cell of a group; the last goes into `dst`. -/
def fieldGets (tmp dst : Reg) : List String → Low Unit
  | [] => pure ()
  | [name] => do
    let nameIdx ← constIdx (.str name)
    push (.fieldGet dst tmp nameIdx)
  | name :: chain => do
    let nameIdx ← constIdx (.str name)
    push (.fieldGet tmp tmp nameIdx)
    fieldGets tmp dst chain

/-- A field, read from the cell of a state or from a value. -/
def compileField (target : Expr) (operand : Operand) (name : String) (dst : Reg) : Low Unit := do
  match tryStateFieldPath env (← context) (.field target name) with
  | some (stateIdx, path) => do
    let (pathIdx, chain) ← internPath stateIdx path
    if chain.isEmpty then push (.kvGetPath dst pathIdx)
    else do
      let tmp ← alloc
      push (.kvGetPath tmp pathIdx)
      fieldGets tmp dst chain
      free tmp
  | none =>
    viaReg operand fun src => do
      let nameIdx ← constIdx (.str name)
      push (.fieldGet dst src nameIdx)

/-! ### Indexing -/

def isIndexable : Ty → Bool
  | .map _ _ | .pmap _ _ | .pbtree _ _ | .pvec _ => true
  | _ => false

/-- The read of a cell of a state by its key. -/
def stateGet (dst : Reg) (stateIdx : ℕ) (keyReg : Reg) : Ty → Instr
  | .pmap _ _ => .pmapGet dst stateIdx keyReg
  | .pbtree _ _ => .pbtreeGet dst stateIdx keyReg
  | .pvec _ => .pvecGet dst stateIdx keyReg
  | _ => .mapGet dst stateIdx keyReg

/-- The write of a cell of a state by its key. -/
def statePut (stateIdx : ℕ) (keyReg src : Reg) : Ty → Instr
  | .pmap _ _ => .pmapPut stateIdx keyReg src
  | .pbtree _ _ => .pbtreePut stateIdx keyReg src
  | .pvec _ => .pvecSet stateIdx keyReg src
  | _ => .mapPut stateIdx keyReg src

/-- The index and the type of the state a name stands for. -/
def stateOf (name : String) : Low (Option (ℕ × Ty)) :=
  match env.stateIndex name with
  | none => pure none
  | some idx => do
    let ty ← expect "panicked" env.stateTypes[idx]?
    return some (idx, ty)

def stateOfTarget : Expr → Low (Option (ℕ × Ty))
  | .ident name => stateOf env name
  | _ => pure none

/-- A cell of a state, or an element of an array. A local does not hide the state. -/
def compileIndex (target : Expr) (operand key : Operand) (dst : Reg) : Low Unit := do
  match (← stateOfTarget env target).filter fun p => isIndexable p.2 with
  | some (stateIdx, ty) => viaReg key fun keyReg => push (stateGet dst stateIdx keyReg ty)
  | none => viaRegs operand key fun arr idx => push (.arrayGet dst arr idx)

/-! ### Aggregates -/

mutual

/-- The default of a type as an expression (`default_expr_for_type`). -/
def defaultExprForType : Ty → Except String Expr
  | .bool => .ok (.bool false)
  | .i32 => .ok (.i32 0)
  | .u32 => .ok (.u32 0)
  | .u64 => .ok (.u64 0)
  | .u128 => .ok (.u128 0)
  | .int => .ok (.int 0)
  | .uint => .ok (.uint 0)
  | .string => .ok (.str "")
  | .struct name fields _ => do
    let fields ← defaultFields fields
    return .structLit name fields
  | ty => .error ("`arr<T>[N]` not yet supported for element type " ++ env.typeText ty)

def defaultFields : List (String × Ty) → Except String (List (String × Expr))
  | [] => .ok []
  | (name, ty) :: fields => do
    let value ← defaultExprForType ty
    let rest ← defaultFields fields
    return (name, value) :: rest

end

/-- `arr<T>[len]`. Neither register is given back. -/
def compileArrayAlloc (elemTy : Ty) (len : Operand) (dst : Reg) : Low Unit := do
  let lenReg ← alloc
  len lenReg
  let defaultReg ← alloc
  match defaultExprForType env elemTy with
  | .error e => .fail e
  | .ok value => inline value defaultReg
  push (.arrayAlloc dst lenReg defaultReg)

/-- `reserve count from state`. The register is not given back. -/
def compileReserve (count : Operand) (state : String) (dst : Reg) : Low Unit := do
  let countReg ← alloc
  count countReg
  let stateIdx ← expect s!"`reserve ... from {state}`: `{state}` is not a state slot" (env.stateIndex state)
  push (.reserve dst stateIdx countReg)

/-- The operands of a struct in the order of its declaration. -/
def structOperands (name : String) (fields : List (String × Operand)) (declared : List String) : List Operand :=
  declared.map fun field =>
    match fields.lookup field with
    | some operand => operand
    | none => fun _ => .fail s!"missing field '{field}' in struct '{name}'"

def compileStruct (name : String) (fields : List (String × Operand)) (dst : Reg) : Low Unit := do
  let shapeIdx ← expect s!"unknown struct '{name}'" (env.structIndex name)
  let shape ← expect "panicked" env.structShapes[shapeIdx]?
  viaWindow (structOperands name fields shape.fieldNames) fun start =>
    push (.makeStruct dst shapeIdx start shape.fieldNames.length)

def compileEnum (enumName variant : String) (args : List Operand) (dst : Reg) : Low Unit := do
  let shapeIdx ← expect s!"unknown enum '{enumName}'" (env.enumIndex enumName)
  let shape ← expect "panicked" env.enumShapes[shapeIdx]?
  let variantIdx ← expect s!"enum '{enumName}' has no variant '{variant}'"
    (shape.variantNames.findIdx? (· = variant))
  viaWindow args fun start => push (.makeEnum dst shapeIdx variantIdx start args.length)

/-! ### Calls -/

/-- The builtins that are called by their name. -/
def genericBuiltins : List String :=
  ["set_insert", "set_remove", "set_contains", "set_len", "dict_set", "dict_remove", "dict_get", "dict_has",
    "dict_len", "assert", "to_bytes", "bytes_len", "bytes_concat", "bytes_eq", "bytes_slice", "to_be_bytes",
    "bit_not_bytes", "string_concat", "string_slice", "string_contains", "sum", "max", "min", "parse_json",
    "json_stringify", "json_get_field", "json_get_index", "json_to_string", "json_to_i64", "json_to_u64",
    "json_to_bool", "json_is_null"]

/-- The builtins of one operand that have an instruction. -/
def unaryBuiltin : String → Option (Reg → Reg → Instr)
  | "resource" => some .builtinResource
  | "unwrap" => some .builtinUnwrap
  | "address" => some .builtinAddress
  | "len" => some .builtinLen
  | _ => none

/-- The builtins that ask for the block. -/
def contextKind : String → Option ℕ
  | "msg_sender" => some 0
  | "block_timestamp" => some 1
  | "block_number" => some 2
  | _ => none

/-- The target of a conversion. -/
def convertTarget : String → Option ℕ
  | "i64" => some 0
  | "i32" => some 1
  | "u32" => some 2
  | "u64" => some 3
  | "u128" => some 4
  | _ => none

/-- The state the first argument names. -/
def stateArg (e : String) : List Expr → Low ℕ
  | .ident name :: _ => expect s!"'{name}' is not a state" (env.stateIndex name)
  | _ => .fail e

/-- An argument after the first; a call that lacks it makes the compiler panic. -/
def operandAt (operands : List Operand) (i : ℕ) : Operand := fun r =>
  match operands[i]? with
  | some operand => operand r
  | none => .fail "panicked"

/-- The builtins on a state that is named by the first argument. -/
def stateBuiltin (name : String) (args : List Expr) (operands : List Operand) (dst : Reg) : Option (Low Unit) :=
  match name with
  | "pvec_push" => some do
    let idx ← stateArg env s!"{name}() arg 0 must name a pvec state" args
    viaReg (operandAt operands 1) fun src => push (.pvecPush dst idx src)
  | "pvec_len" => some do
    let idx ← stateArg env s!"{name}() arg 0 must name a pvec state" args
    push (.pvecLen dst idx)
  | "pbtree_contains" => some do
    let idx ← stateArg env "pbtree_contains() arg 0 must name a pbtree state" args
    viaReg (operandAt operands 1) fun keyReg => push (.pbtreeContains dst idx keyReg)
  | "pbtree_range" => some do
    let idx ← stateArg env "pbtree_range() arg 0 must name a pbtree state" args
    viaRegs (operandAt operands 1) (operandAt operands 2) fun lo hi => push (.pbtreeRange dst idx lo hi)
  | "pmap_contains" => some do
    let idx ← stateArg env s!"{name}() arg 0 must name a pmap state" args
    viaReg (operandAt operands 1) fun keyReg => push (.pmapContains dst idx keyReg)
  | "pmap_entries" => some do
    let idx ← stateArg env s!"{name}() arg 0 must name a state slot" args
    push (.pmapEntries dst idx)
  | "pmap_keys" => some do
    let idx ← stateArg env s!"{name}() arg 0 must name a state slot" args
    push (.pmapKeys dst idx)
  | "pmap_values" => some do
    let idx ← stateArg env s!"{name}() arg 0 must name a state slot" args
    push (.pmapValues dst idx)
  | "pvec_to_array" => some do
    let idx ← stateArg env s!"{name}() arg 0 must name a state slot" args
    push (.pvecToArray dst idx)
  | _ => none

/-- The call of a function by its kind, on the window of its arguments. -/
def finishCall (module : Option String) (name : String) (nArgs : ℕ) (dst start : Reg) : Low Unit :=
  match module with
  | some modName =>
    if name = "bind" ∧ env.ifaceIndex modName ∧ nArgs = 1 then do
      let ifaceNameIdx ← constIdx (.str modName)
      push (.makeInterface dst ifaceNameIdx start)
    else do
      let moduleNameIdx ← constIdx (.str modName)
      let fnNameIdx ← constIdx (.str name)
      let flags := (env.externFnFlags (modName, name)).getD (false, false)
      push (.callExternal dst moduleNameIdx fnNameIdx start nArgs flags.1 flags.2)
  | none =>
    match env.importIndex name with
    | some importIdx => push (.callHost dst importIdx start nArgs)
    | none => do
      let fnIdx ← expect s!"unknown function '{name}'" (env.fnIndex name)
      push (.call dst fnIdx start nArgs)

/-- Whether a function of the module hides the aggregation of this name. -/
def aggregatorShadowed (name : String) : Bool :=
  name ∈ ["sum", "max", "min"] && (env.fnIndex name).isSome

/-- A call, by its name: the builtins come before the functions of the module. -/
def compileCall (module : Option String) (name : String) (args : List Expr) (operands : List Operand) (dst : Reg) :
    Low Unit :=
  match (unaryBuiltin name).filter fun _ => operands.length = 1 with
  | some instr => viaReg (operandAt operands 0) fun src => push (instr dst src)
  | none =>
    match stateBuiltin env name args operands dst with
    | some call => call
    | none =>
      if ¬ aggregatorShadowed env name ∧ name ∈ genericBuiltins then
        viaWindow operands fun start => callBuiltin dst name start operands.length
      else match (contextKind name).filter fun _ => operands.isEmpty with
        | some kind => push (.context dst kind)
        | none =>
          match (convertTarget name).filter fun _ => operands.length = 1 with
          | some target => viaReg (operandAt operands 0) fun src => push (.convert dst src target)
          | none => viaWindow operands (finishCall env module name operands.length dst)

def compileDynCall (targetIdent method : String) (args : List Operand) (isView isPure : Bool) (dst : Reg) :
    Low Unit :=
  viaReg (compileIdent env inline targetIdent) fun target =>
    viaWindow args fun start => do
      let fnNameIdx ← constIdx (.str method)
      push (.callExternalDyn dst target fnNameIdx start args.length isView isPure)

end Forms

end Rend.Compile
