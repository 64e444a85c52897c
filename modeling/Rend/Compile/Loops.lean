import Rend.Compile.Forms

/-!
# Branches, loops and statements

The forms that jump (`if`, `match`, the loops and comprehensions) and the forms of statements. A loop over a
`pvec`, a `pmap` or a `pbtree` state reads an element at a time; every other loop goes through an array.
The body of a loop answers with the jumps that lead behind the loop.
-/

namespace Rend.Compile

open Ast Index

/-! ### Branches -/

/-- `if`, as a statement and as an expression. -/
def branch (cond : Operand) (body orElse : Low Unit) : Low Unit := do
  let r ← alloc
  cond r
  let skip ← pushJump (.jumpIfFalse r 0)
  free r
  body
  let exit ← pushJump (.jump 0)
  patch (← here) skip
  orElse
  patch (← here) exit

/-- Binds the fields of a variant to registers of their own. -/
def bindPayloads (scrut : Reg) : ℕ → List String → Low (List Reg)
  | _, [] => pure []
  | i, name :: names => do
    let r ← alloc
    push (.enumPayload r scrut i)
    bindLocal name r
    let regs ← bindPayloads scrut (i + 1) names
    return r :: regs

def compileMatchBody (body : Operand) (dst scrut : Reg) (bindings : List String) : Low Unit := do
  pushScope
  let regs ← bindPayloads scrut 0 bindings
  body dst
  popScope
  freeAll regs.reverse

/-- The arms up to the first wildcard, with the places of the jumps behind the match. The register of the
index is freed below that of the comparison, so it is not given back. -/
def compileArms (shape : Option EnumShape) (dst scrut tag : Reg) : List (MatchPattern × Operand) → Low (List ℕ)
  | [] => pure []
  | (.wildcard, body) :: _ => do
    compileMatchBody body dst scrut []
    let exit ← pushJump (.jump 0)
    return [exit]
  | (.enumVariant _ variant bindings, body) :: arms => do
    let variantIdx ← expect s!"unknown variant '{variant}'"
      (shape.bind fun s => s.variantNames.findIdx? (· = variant))
    let constReg ← alloc
    loadConst constReg (.int variantIdx)
    let cmp ← alloc
    push (.bin .eq cmp tag constReg)
    free constReg
    let skip ← pushJump (.jumpIfFalse cmp 0)
    free cmp
    compileMatchBody body dst scrut bindings
    let exit ← pushJump (.jump 0)
    patch (← here) skip
    let exits ← compileArms shape dst scrut tag arms
    return exit :: exits

/-- The enum of the first arm that names one. -/
def enumOfArms (arms : List (MatchPattern × Operand)) : Option String :=
  arms.findSome? fun arm =>
    match arm.1 with
    | .enumVariant enumName _ _ => some enumName
    | .wildcard => none

section Control

variable (env : Env)

def shapeOfArms (arms : List (MatchPattern × Operand)) : Low (Option EnumShape) :=
  match (enumOfArms arms).bind env.enumIndex with
  | none => pure none
  | some idx => do
    let shape ← expect "panicked" env.enumShapes[idx]?
    return some shape

def compileMatch (scrut : Operand) (arms : List (MatchPattern × Operand)) (dst : Reg) : Low Unit := do
  let scrutReg ← alloc
  scrut scrutReg
  let tag ← alloc
  push (.enumTag tag scrutReg)
  let shape ← shapeOfArms env arms
  let exits ← compileArms shape dst scrutReg tag arms
  push .returnUnit
  patchAll (← here) exits
  free tag
  free scrutReg

/-! ### Loops -/

/-- The reads of all elements that are made before the loop. -/
def prefetch (arr : Reg) : List String → Low Unit
  | [] => pure ()
  | name :: names => do
    match env.stateIndex name with
    | some idx => push (.prefetchMap arr idx)
    | none => pure ()
    prefetch arr names

/-- The loop over the elements of an array. -/
def arrayLoop (iter : Operand) (targets : List String) (var : String) (body : Low (List ℕ)) : Low Unit := do
  let arr ← alloc
  iter arr
  prefetch env arr targets
  let len ← alloc
  push (.builtinLen len arr)
  let counter ← alloc
  loadConst counter (.int 0)
  let one ← alloc
  loadConst one (.int 1)
  let varReg ← alloc
  pushScope
  bindLocal var varReg
  let start ← here
  let check ← alloc
  push (.bin .lt check counter len)
  let exit ← pushJump (.jumpIfFalse check 0)
  free check
  push (.arrayGet varReg arr counter)
  let breaks ← body
  push (.bin .add counter counter one)
  pushBack start
  let finish ← here
  patch finish exit
  patchAll finish breaks
  popScope
  freeAll [varReg, one, counter, len, arr]

/-- The loop over a `pvec`. -/
def vecLoop (stateIdx : ℕ) (var : String) (body : Low (List ℕ)) : Low Unit := do
  let len ← alloc
  push (.pvecLen len stateIdx)
  let counter ← alloc
  loadConst counter (.u64 0)
  let varReg ← alloc
  pushScope
  bindLocal var varReg
  let start ← here
  let check ← alloc
  push (.bin .lt check counter len)
  let exit ← pushJump (.jumpIfFalse check 0)
  free check
  push (.pvecGet varReg stateIdx counter)
  let breaks ← body
  push (.incReg counter)
  pushBack start
  let finish ← here
  patch finish exit
  patchAll finish breaks
  popScope
  freeAll [varReg, counter, len]

/-- The loop over a `pmap` or a `pbtree`, which a cursor goes through. -/
def cursorLoop (init : Reg → Instr) (next : Reg → Reg → Instr) (var : String) (body : Low (List ℕ)) :
    Low Unit := do
  let cursor ← alloc
  push (init cursor)
  let varReg ← alloc
  pushScope
  bindLocal var varReg
  let start ← here
  let exit ← pushJump (next cursor varReg)
  let breaks ← body
  pushBack start
  let finish ← here
  patch finish exit
  patchAll finish breaks
  popScope
  freeAll [varReg, cursor]

/-- The loop over the value of an expression. -/
def loopOver (iterExpr : Expr) (iter : Operand) (targets : List String) (var : String) (body : Low (List ℕ)) :
    Low Unit := do
  match ← stateOfTarget env iterExpr with
  | some (idx, .pvec _) => vecLoop idx var body
  | some (idx, .pmap _ _) => cursorLoop (.pmapWalkInit · idx) (.pmapWalkNext · · 0) var body
  | some (idx, .pbtree _ _) => cursorLoop (.pbtreeWalkInit · idx) (.pbtreeWalkNext · · 0) var body
  | _ => arrayLoop env iter targets var body

/-- The check of `limit`, made before the body of each turn. -/
def emitLimitCheck : Option (Reg × Reg) → Low (Option ℕ)
  | none => pure none
  | some (remaining, one) => do
    let bound ← alloc
    loadConst bound (.u64 0)
    let check ← alloc
    push (.bin .gt check remaining bound)
    let exit ← pushJump (.jumpIfFalse check 0)
    free check
    free bound
    push (.bin .sub remaining remaining one)
    return some exit

/-- The body of a `for`: `continue` leads behind it, `break` behind the loop. -/
def forBody (limit : Option (Reg × Reg)) (block : Low Unit) : Low (List ℕ) := do
  pushLoop
  let check ← emitLimitCheck limit
  block
  let frame ← popLoop
  patchAll (← here) frame.continueJumps
  return frame.breakJumps ++ check.toList

/-- The registers of `limit` and of the step it is counted down by, which are not given back. -/
def limitRegs : Option Operand → Low (Option (Reg × Reg))
  | none => pure none
  | some limit => do
    let remaining ← alloc
    limit remaining
    let one ← alloc
    loadConst one (.u64 1)
    return some (remaining, one)

def compileFor (var : String) (iterExpr : Expr) (iter : Operand) (limit : Option Operand) (body : Block)
    (block : Low Unit) : Low Unit := do
  let regs ← limitRegs limit
  loopOver env iterExpr iter (scanLoopBody var env.statesByName env.summaries body) var (forBody regs block)

def compileForRange (var : String) (first last : Operand) (inclusive : Bool) (block : Low Unit) : Low Unit := do
  let counter ← alloc
  first counter
  let limit ← alloc
  last limit
  pushScope
  bindLocal var counter
  let start ← here
  let check ← alloc
  push (.bin (if inclusive then .ltEq else .lt) check counter limit)
  let exit ← pushJump (.jumpIfFalse check 0)
  free check
  let breaks ← forBody none block
  push (.incReg counter)
  pushBack start
  let finish ← here
  patch finish exit
  patchAll finish breaks
  popScope
  free limit
  free counter

def compileWhile (cond : Operand) (block : Low Unit) : Low Unit := do
  let start ← here
  let r ← alloc
  cond r
  let exit ← pushJump (.jumpIfFalse r 0)
  free r
  pushLoop
  block
  let frame ← popLoop
  pushBack start
  patchAll start frame.continueJumps
  let finish ← here
  patch finish exit
  patchAll finish frame.breakJumps

/-! ### Comprehensions -/

/-- A filter: the rest of the clauses, or nothing. -/
def compileFilter (cond : Operand) (rest : Low Unit) : Low Unit := do
  let r ← alloc
  cond r
  let skip ← pushJump (.jumpIfFalse r 0)
  free r
  rest
  patch (← here) skip

/-- The body of a clause, which no `break` leaves. -/
def clauseBody (rest : Low Unit) : Low (List ℕ) := do
  rest
  return []

def listAppend (mapper : Operand) (dst : Reg) : Low Unit :=
  viaReg mapper fun elem => push (.arrayAppend dst dst elem)

def setInsert (mapper : Operand) (dst : Reg) : Low Unit :=
  viaReg mapper fun elem => do
    let base ← alloc
    push (.move base dst)
    let arg ← alloc
    push (.move arg elem)
    callBuiltin dst "set_insert" base 2
    free arg
    free base

/-- The key and the value of an entry of a dictionary. The register of the value is taken after the key
has been lowered. -/
def dictSet (key value : Operand) (dst : Reg) : Low Unit := do
  let base ← alloc
  push (.move base dst)
  let keyReg ← alloc
  key keyReg
  let valueReg ← alloc
  value valueReg
  callBuiltin dst "dict_set" base 3
  free valueReg
  free keyReg
  free base

/-! ### Index keys -/

/-- The register of what a path leads to inside a value. -/
def emitFieldPathFrom : Option Reg → List String → Reg → Low Reg
  | _, [], cur => pure cur
  | owned, field :: path, cur => do
    let nameIdx ← constIdx (.str field)
    let next ← alloc
    push (.fieldGet next cur nameIdx)
    match owned with
    | some prev => free prev
    | none => pure ()
    emitFieldPathFrom (some next) path next

def emitFieldPath (path : List String) (valueReg : Reg) : Low Reg := emitFieldPathFrom none path valueReg

/-- `bytes_concat` of two registers. -/
def concatParts (concatName : ℕ) (prev part : Reg) : Low Reg := do
  let args ← alloc
  let arg₁ ← alloc
  push (.move args prev)
  push (.move arg₁ part)
  free prev
  free part
  push (.builtinCall args concatName args 2)
  free arg₁
  return args

/-- Packs the fields of a composite key. -/
def packFields (toBeBytesName bitNotName concatName : ℕ) (valueReg : Reg) :
    List IndexField → Option Reg → Low (Option Reg)
  | [], packed => pure packed
  | f :: fields, packed => do
    let projected ← emitFieldPath f.path valueReg
    let part ← alloc
    push (.move part projected)
    free projected
    push (.builtinCall part toBeBytesName part 1)
    if f.direction = .desc then push (.builtinCall part bitNotName part 1)
    let packed ← match packed with
      | none => pure part
      | some prev => concatParts concatName prev part
    packFields toBeBytesName bitNotName concatName valueReg fields (some packed)

/-- The register of the key of a record in an index (`emit_index_key`). -/
def emitIndexKey (idx : IndexDecl) (valueReg : Reg) : Low Reg :=
  match idx.fields with
  | [⟨path, .asc⟩] => emitFieldPath path valueReg
  | fields => do
    let toBeBytesName ← constIdx (.str "to_be_bytes")
    let bitNotName ← constIdx (.str "bit_not_bytes")
    let concatName ← constIdx (.str "bytes_concat")
    let packed ← packFields toBeBytesName bitNotName concatName valueReg fields none
    expect "panicked" packed

def isPbtree : Ty → Bool
  | .pbtree _ _ => true
  | _ => false

def isPmap : Ty → Bool
  | .pmap _ _ => true
  | _ => false

/-- The instruction that enters a record into an index, by the kind and the backend of the index. -/
def indexPut (stateIdx : ℕ) (keyReg src : Reg) : IndexKind → Bool → Instr
  | .unique, false => .pmapPutUnique stateIdx keyReg src
  | .unique, true => .pbtreePutUnique stateIdx keyReg src
  | .multi, false => .pmapAppendUnique stateIdx keyReg src
  | .multi, true => .pbtreeAppendUnique stateIdx keyReg src

/-- The instruction that takes a record out of an index. -/
def indexRemove (stateIdx : ℕ) (keyReg src : Reg) : IndexKind → Bool → Instr
  | .unique, false => .pmapRemoveUnique stateIdx keyReg src
  | .unique, true => .pbtreeRemoveUnique stateIdx keyReg src
  | .multi, false => .pmapRemoveFromList stateIdx keyReg src
  | .multi, true => .pbtreeRemoveFromList stateIdx keyReg src

/-- Maintains the indexes over a state for one record. -/
def maintain (instr : ℕ → Reg → Reg → IndexKind → Bool → Instr) (valueReg keyReg : Reg) :
    List IndexDecl → Low Unit
  | [] => pure ()
  | idx :: idxs => do
    let cur ← emitIndexKey idx valueReg
    let stateIdx ← expect "panicked" (env.stateIndex idx.name)
    let ty ← expect "panicked" env.stateTypes[stateIdx]?
    push (instr stateIdx cur keyReg idx.kind (isPbtree ty))
    free cur
    maintain instr valueReg keyReg idxs

/-! ### Assignments -/

def assignIdent (name : String) (valueReg : Reg) : Low Unit := do
  match (← context).lookupLocal name with
  | some localReg => if valueReg ≠ localReg then push (.move localReg valueReg)
  | none => do
    let idx ← expect s!"'{name}' is not assignable" (env.stateIndex name)
    push (.kvPut valueReg idx)

def assignIndex (target : Expr) (key : Operand) (valueReg : Reg) : Low Unit :=
  match target with
  | .ident stateName => do
    let stateIdx ← expect s!"'{stateName}' is not a state" (env.stateIndex stateName)
    let ty ← expect "panicked" env.stateTypes[stateIdx]?
    if ¬ isIndexable ty then
      .fail s!"'{stateName}' is not indexable; only map/pmap/pvec cells can be assigned by index"
    else
      viaReg key fun keyReg => do
        push (statePut stateIdx keyReg valueReg ty)
        if isPmap ty then maintain env indexPut valueReg keyReg (env.indexesByPrimary stateName)
  | _ => .fail "indexed assignment target must be a state name"

def allocAll : ℕ → Low (List Reg)
  | 0 => pure []
  | n + 1 => do
    let r ← alloc
    let regs ← allocAll n
    return r :: regs

/-- Reads the structs on the way to a field of a group, each into its register. -/
def descend : List Reg → List String → Low Unit
  | r :: r' :: regs, name :: chain => do
    let nameIdx ← constIdx (.str name)
    push (.fieldGet r' r nameIdx)
    descend (r' :: regs) chain
  | _, _ => pure ()

/-- Puts the structs back, from the innermost on. -/
def ascend : List Reg → List String → Low Unit
  | r :: r' :: regs, name :: chain => do
    ascend (r' :: regs) chain
    let nameIdx ← constIdx (.str name)
    push (.fieldSet r nameIdx r')
  | _, _ => pure ()

/-- Writes a field inside the cell of a group. -/
def writeGroup (pathIdx : ℕ) (chain : List String) (valueReg : Reg) : Low Unit := do
  let tmps ← allocAll chain.length
  push (.kvGetPath (tmps.headD 0) pathIdx)
  descend tmps chain
  let leafName ← constIdx (.str (chain.getLastD ""))
  push (.fieldSet (tmps.getLastD 0) leafName valueReg)
  ascend tmps chain
  push (.kvPutPath (tmps.headD 0) pathIdx)
  freeAll tmps.reverse

def assignField (inner : Expr) (operand : Operand) (assignInner : Reg → Low Unit) (name : String)
    (valueReg : Reg) : Low Unit := do
  match tryStateFieldPath env (← context) (.field inner name) with
  | some (stateIdx, path) => do
    let (pathIdx, chain) ← internPath stateIdx path
    if chain.isEmpty then push (.kvPutPath valueReg pathIdx) else writeGroup pathIdx chain valueReg
  | none =>
    viaReg operand fun tmp => do
      let nameIdx ← constIdx (.str name)
      push (.fieldSet tmp nameIdx valueReg)
      assignInner tmp

/-- `delete state[key]`. -/
def compileDelete (target : Expr) (key : Operand) : Low Unit :=
  match target with
  | .ident stateName => do
    let stateIdx ← expect s!"'{stateName}' is not a state" (env.stateIndex stateName)
    let ty ← expect "panicked" env.stateTypes[stateIdx]?
    if ¬ isPmap ty ∧ ¬ isPbtree ty then .fail s!"delete: '{stateName}' must be a pmap or pbtree state"
    else
      viaReg key fun keyReg => do
        let prior ← alloc
        push (if isPbtree ty then .pbtreeGet prior stateIdx keyReg else .pmapGet prior stateIdx keyReg)
        maintain env indexRemove prior keyReg (env.indexesByPrimary stateName)
        push (if isPbtree ty then .pbtreeDelete stateIdx keyReg else .pmapDelete stateIdx keyReg)
        free prior
  | _ => .fail "delete target must be a state slot"

/-! ### Other statements -/

def compileLet (name : String) (value : Operand) : Low Reg := do
  let r ← alloc
  value r
  bindLocal name r
  return r

def compileBreak : Low Unit := do
  if (← context).loopStack.isEmpty then .fail "'break' outside of a loop"
  else do
    let pos ← pushJump (.jump 0)
    onLoop fun frame => { frame with breakJumps := frame.breakJumps ++ [pos] }

/-- Whether `continue` leaves the leg of a `parallel for`, with no loop in between. -/
def inParallelForBody (c : Context) : Bool :=
  0 < c.parallelForDepth && c.loopStack.length = c.parallelForLoopBase.headD 0

def compileContinue : Low Unit := do
  if inParallelForBody (← context) then push .parallelForSkip
  else if (← context).loopStack.isEmpty then .fail "'continue' outside of a loop"
  else do
    let pos ← pushJump (.jump 0)
    onLoop fun frame => { frame with continueJumps := frame.continueJumps ++ [pos] }

/-- Binds the elements of a tuple to registers of their own. -/
def bindElems (tuple : Reg) : ℕ → List String → Low Unit
  | _, [] => pure ()
  | i, name :: names => do
    let r ← alloc
    push (.tupleGet r tuple i)
    bindLocal name r
    bindElems tuple (i + 1) names

def compileLetTuple (names : List String) (value : Operand) : Low Unit := do
  let tuple ← alloc
  value tuple
  bindElems tuple 0 names

/-- A leg of a `parallel` block; `leg` answers with the register it binds. -/
def compileLeg (leg : Low (Option Reg)) : Low ParallelRange := do
  let start ← here
  let dst ← leg
  push (.parallelYield dst)
  let finish ← here
  return { start := start, «end» := finish, dst := dst }

def compileParallel (legs : Low (List ParallelRange)) : Low Unit := do
  let pos ← here
  push (.parallelBegin [] 0)
  let ranges ← legs
  let afterPc ← here
  fill pos (.legs ranges afterPc)

/-- The register of the output of a `parallel for`. -/
def outputReg : Expr → Low Reg
  | .ident name => do
    expect s!"parallel-for output `{name}` must be a local array binding" ((← context).lookupLocal name)
  | _ => .fail "parallel-for output must be a local array binding (slice 1)"

def enterParallelFor : Low Unit := change fun c =>
  { c with
    parallelForDepth := c.parallelForDepth + 1
    parallelForLoopBase := c.loopStack.length :: c.parallelForLoopBase }

def leaveParallelFor : Low Unit := change fun c =>
  { c with parallelForDepth := c.parallelForDepth - 1, parallelForLoopBase := c.parallelForLoopBase.tail }

def compileParallelFor (idVar : String) (idxVar : Option String) (source : Operand) (output : Expr)
    (body : Operand) : Low Unit := do
  let sourceReg ← alloc
  source sourceReg
  let outReg ← outputReg output
  let idReg ← alloc
  let idxReg ← alloc
  pushScope
  bindLocal idVar idReg
  match idxVar with
  | some idx => bindLocal idx idxReg
  | none => pure ()
  let pos ← here
  push (.parallelForBegin 0 0 sourceReg outReg idReg idxReg 0)
  let bodyStart ← here
  let tail ← alloc
  enterParallelFor
  body tail
  leaveParallelFor
  push (.parallelYield (some tail))
  let bodyEnd ← here
  popScope
  let afterPc ← here
  fill pos (.body bodyStart bodyEnd afterPc)

/-! ### Blocks -/

/-- A block: its own scope, and the registers it takes are given back. -/
def inBlock (stmts : Low Unit) (tail : Low Unit) : Low Unit := do
  pushScope
  let saved ← nextReg
  stmts
  tail
  popScope
  restore saved

/-- The value of a block that ends without one. -/
def noTail (dst : Reg) : Low Unit := loadConst dst (.bool false)

end Control

end Rend.Compile
