import Rend.Compile.Loops

/-!
# Lowering

The lowering of expressions, blocks and statements (`compile_expr_into`, `compile_block`, `compile_stmt`),
which puts the forms together by recursion over the tree, and the compilation of the functions of a module.

A constant is lowered anew at each use, and so is the default value of an array. Neither is part of the tree,
so the depth of such expressions within each other is bounded; beyond it the compiler has no stack left.
-/

namespace Rend.Compile

open Ast

section Lower

variable (env : Env) (inline : Expr → Operand)

mutual

/-- Emits the code that puts the value of an expression into a register (`compile_expr_into`). -/
def compileExprInto : Expr → Operand
  | .int n, dst => loadConst dst (.int n)
  | .uint n, dst => loadConst dst (.uint n)
  | .float bits, dst => loadConst dst (.float bits)
  | .jsonNull, dst => callBuiltin dst "_json_null" 0 0
  | .jsonObject pairs, dst => compileJsonObject (fieldOperands pairs) dst
  | .jsonArray items, dst => compileJsonArray (exprOperands items) dst
  | .i32 n, dst => loadConst dst (.i32 n)
  | .u32 n, dst => loadConst dst (.u32 n)
  | .u64 n, dst => loadConst dst (.u64 n)
  | .u128 n, dst => loadConst dst (.u128 n)
  | .bool b, dst => loadConst dst (.bool b)
  | .str s, dst => loadConst dst (.str s)
  | .ident name, dst => compileIdent env inline name dst
  | .binary op lhs rhs, dst => do
    compileExprInto lhs dst
    viaReg (compileExprInto rhs) fun r => push (.bin op dst dst r)
  | .unary op operand, dst => do
    compileExprInto operand dst
    push (.un op dst dst)
  | .index target key, dst => compileIndex env target (compileExprInto target) (compileExprInto key) dst
  | .array elems, dst => viaWindow (exprOperands elems) fun start => push (.makeArray dst start elems.length)
  | .arrayAlloc elemTy len, dst => compileArrayAlloc env inline elemTy (compileExprInto len) dst
  | .reserve count state, dst => compileReserve env (compileExprInto count) state dst
  | .explicitLiteral inner, dst => compileExprInto inner dst
  | .structLit name fields, dst => compileStruct env name (fieldOperands fields) dst
  | .field target name, dst => compileField env target (compileExprInto target) name dst
  | .prev, dst => compilePrev dst
  | .pipe head step, dst => compilePipe (compileExprInto head) (compileExprInto step) dst
  | .setLit elems, dst => viaWindow (exprOperands elems) fun start => push (.makeSet dst start elems.length)
  | .dictLit pairs, dst => viaWindow (pairOperands pairs) fun start => push (.makeDict dst start pairs.length)
  | .setComp mapper clauses, dst => do
    push (.makeSet dst 0 0)
    lowerComp true [mapper] (setInsert (compileExprInto mapper) dst) clauses
  | .dictComp key value clauses, dst => do
    push (.makeDict dst 0 0)
    lowerComp true [key, value] (dictSet (compileExprInto key) (compileExprInto value) dst) clauses
  | .listComp mapper clauses, dst => do
    push (.makeArray dst 0 0)
    lowerComp true [mapper] (listAppend (compileExprInto mapper) dst) clauses
  | .dynCall targetIdent method args methodIsView methodIsPure, dst =>
    compileDynCall env inline targetIdent method (exprOperands args) methodIsView methodIsPure dst
  | .call module name args, dst => compileCall env module name args (exprOperands args) dst
  | .tupleLit elems, dst => viaWindow (exprOperands elems) fun start => push (.makeTuple dst start elems.length)
  | .tupleIndex target index, dst => viaReg (compileExprInto target) fun src => push (.tupleGet dst src index)
  | .block b, dst => compileBlockInto b dst
  | .ifElse cond body orElse, dst =>
    branch (compileExprInto cond) (compileBlockInto body dst) (compileElseInto orElse dst)
  | .enumCtor enumName variant args, dst => compileEnum env enumName variant (exprOperands args) dst
  | .matchOn scrut arms, dst => compileMatch env (compileExprInto scrut) (armOperands arms) dst

def exprOperands : List Expr → List Operand
  | [] => []
  | e :: es => compileExprInto e :: exprOperands es

def fieldOperands : List (String × Expr) → List (String × Operand)
  | [] => []
  | (name, e) :: fields => (name, compileExprInto e) :: fieldOperands fields

def pairOperands : List (Expr × Expr) → List Operand
  | [] => []
  | (k, v) :: pairs => compileExprInto k :: compileExprInto v :: pairOperands pairs

def armOperands : List MatchArm → List (MatchPattern × Operand)
  | [] => []
  | .mk pattern body :: arms => (pattern, compileExprInto body) :: armOperands arms

/-- The clauses of a comprehension around its leaf (`lower_comp`). The cells the rest reads at the first
variable are read before its loop. -/
def lowerComp (first : Bool) (leafExprs : List Expr) (leaf : Low Unit) : List CompClause → Low Unit
  | [] => leaf
  | .bind var iter :: clauses =>
    loopOver env iter (compileExprInto iter)
      (if first then scanCompInner var env.statesByName env.summaries clauses leafExprs else []) var
      (clauseBody (lowerComp false leafExprs leaf clauses))
  | .filter cond :: clauses => compileFilter (compileExprInto cond) (lowerComp false leafExprs leaf clauses)

/-- A block whose value goes into a register (`compile_block_into`). -/
def compileBlockInto : Block → Operand
  | .mk stmts tail, dst => inBlock (compileStmts stmts) (compileTailInto tail dst)

def compileTailInto : Option Expr → Operand
  | some e, dst => compileExprInto e dst
  | none, dst => noTail dst

/-- The other branch of an `if` that has a value. -/
def compileElseInto : ElseBranch → Operand
  | .none, dst => noTail dst
  | .block b, dst => compileBlockInto b dst
  | .elseIf inner, dst => compileIfInto inner dst

def compileIfInto : IfStmt → Operand
  | .mk cond body orElse, dst =>
    branch (compileExprInto cond) (compileBlockInto body dst) (compileElseInto orElse dst)

/-- A block whose value is dropped (`compile_block`). -/
def compileBlock : Block → Low Unit
  | .mk stmts tail => inBlock (compileStmts stmts) (compileTail tail)

def compileTail : Option Expr → Low Unit
  | some e => viaReg (compileExprInto e) fun _ => pure ()
  | none => pure ()

def compileElse : ElseBranch → Low Unit
  | .none => pure ()
  | .block b => compileBlock b
  | .elseIf inner => compileIf inner

def compileIf : IfStmt → Low Unit
  | .mk cond body orElse => branch (compileExprInto cond) (compileBlock body) (compileElse orElse)

def compileStmts : List Stmt → Low Unit
  | [] => pure ()
  | stmt :: stmts => do
    compileStmt stmt
    compileStmts stmts

/-- The legs of a `parallel` block; a `let` binds its name around the block. -/
def compileLegs : List Stmt → Low (List ParallelRange)
  | [] => pure []
  | .letVar name _ value :: stmts => do
    let range ← compileLeg do
      let r ← compileLet name (compileExprInto value)
      return some r
    let ranges ← compileLegs stmts
    return range :: ranges
  | stmt :: stmts => do
    let range ← compileLeg do
      compileStmt stmt
      return none
    let ranges ← compileLegs stmts
    return range :: ranges

/-- Assigns a register to a target (`assign_path`). -/
def assignPath : Expr → Reg → Low Unit
  | .ident name, valueReg => assignIdent env name valueReg
  | .index target key, valueReg => assignIndex env target (compileExprInto key) valueReg
  | .field inner name, valueReg =>
    assignField env inner (compileExprInto inner) (assignPath inner) name valueReg
  | _, _ => .fail "invalid assignment target"

/-- The optional bound of a `for`. -/
def limitOperand : Option Expr → Option Operand
  | none => none
  | some e => some (compileExprInto e)

def compileStmt : Stmt → Low Unit
  | .letVar name _ value => do
    let _ ← compileLet name (compileExprInto value)
  | .assign target value => viaReg (compileExprInto value) (assignPath target)
  | .ret (some e) => viaReg (compileExprInto e) fun r => push (.ret r)
  | .ret none => push .returnUnit
  | .ifStmt s => compileIf s
  | .whileLoop cond body => compileWhile (compileExprInto cond) (compileBlock body)
  | .forLoop var iter limit body =>
    compileFor env var iter (compileExprInto iter) (limitOperand limit) body (compileBlock body)
  | .forRange var start finish inclusive body =>
    compileForRange var (compileExprInto start) (compileExprInto finish) inclusive (compileBlock body)
  | .placeholder => .fail "panicked"
  | .breakStmt => compileBreak
  | .continueStmt => compileContinue
  | .expr e => viaReg (compileExprInto e) fun _ => pure ()
  | .delete (.index target key) => compileDelete env target (compileExprInto key)
  | .delete _ => .fail "delete target must be `state[key]`"
  | .emit value => viaReg (compileExprInto value) fun r => push (.emit r)
  | .letTuple names value => compileLetTuple names (compileExprInto value)
  | .parallel stmts => compileParallel (compileLegs stmts)
  | .parallelForTo idVar idxVar source output body =>
    compileParallelFor idVar idxVar (compileExprInto source) output (compileBlockInto body)

end

end Lower

/-! ### Functions -/

/-- The lowering of an expression in which such expressions stand within each other to this depth. -/
def compileExprAt (env : Env) : ℕ → Expr → Operand
  | 0, _, _ => .fail "stack overflow"
  | depth + 1, e, dst => compileExprInto env (compileExprAt env depth) e dst

section Functions

variable (env : Env) (depth : ℕ)

/-- The value at the end of a body is returned. -/
def returnTail : Option Expr → Low Unit
  | some e => viaReg (compileExprInto env (compileExprAt env depth) e) fun r => push (.ret r)
  | none => pure ()

def compileFnBody (body : Block) : Low Unit :=
  inBlock (compileStmts env (compileExprAt env depth) body.stmts) (returnTail env depth body.tail)

/-- Whether code ends by returning. -/
def endsInReturn (code : List Instr) : Bool :=
  match code.getLast? with
  | some (.ret _) | some .returnUnit => true
  | _ => false

variable (w : Widths)

/-- The tables of field paths that the functions of a module share. -/
structure PathTables where
  specs : List PathSpec
  index : List ((ℕ × List String) × ℕ)

/-- The compiler at the start of a function. -/
def initial (f : FnDef) (paths : PathTables) : FnCompiler where
  scopes := [(f.params.zipIdx.map fun p => (p.1.name, w.u16 p.2)).reverse]
  pipeStack := []
  loopStack := []
  parallelForDepth := 0
  parallelForLoopBase := []
  code := []
  consts := []
  nextReg := w.u16 f.params.length
  maxReg := w.u16 f.params.length
  pathSpecs := paths.specs
  pathIndex := paths.index

/-- The function and the tables after it (`compile_fn`). -/
def compileFn (f : FnDef) (paths : PathTables) : Except String (BcFn × PathTables) := do
  let r ← (compileFnBody env depth f.body).run (exec w env) (initial w f paths)
  let s := r.2
  let fn : BcFn := {
    code := if endsInReturn s.code then s.code else s.code ++ [.returnUnit]
    name := f.name
    nParams := w.u16 f.params.length
    nRegs := s.maxReg
    consts := s.consts
    isEntry := f.isEntry
    isNore := f.isNore
    paramTypes := f.params.map fun p => p.ty
    returnType := f.returnType
    isView := f.isView
    isPure := f.isPure }
  return (fn, ⟨s.pathSpecs, s.pathIndex⟩)

/-- The functions of a module, one after the other, and the tables after the last. -/
def compileFunctions : List FnDef → PathTables → Except String (List BcFn × PathTables)
  | [], paths => .ok ([], paths)
  | f :: fs, paths => do
    let (fn, paths) ← compileFn env depth w f paths
    let (fns, paths) ← compileFunctions fs paths
    return (fn :: fns, paths)

end Functions

end Rend.Compile
