import Rend.Compile.State

/-!
# Prefetching in loops

Which state maps the body of a loop, or the rest of a comprehension, reads at the variable of the loop
(`prefetch.rs`): by indexing the map with it, or by calling a function that does nothing else. The compiler
emits an instruction before the loop that reads the cells of all elements at once.
-/

namespace Rend.Compile

open Ast

def isMap : Option Ty → Bool
  | some (.map _ _) => true
  | _ => false

/-- The map that a function of the form `return map[p];` reads (`single_map_read`). -/
def singleMapRead (f : FnDef) (states : String → Option Ty) : Option MapReadSummary :=
  match f.body.stmts with
  | [.ret (some (.index (.ident stateName) (.ident keyName)))] =>
    if isMap (states stateName) then
      (f.params.findIdx? fun p => p.name = keyName).map fun i => ⟨stateName, i⟩
    else none
  | _ => none

/-- The summaries of the functions of a module; of two with one name, that of the last (`summarize_fns`). -/
def summarizeFns (functions : List FnDef) (states : String → Option Ty) (name : String) : Option MapReadSummary :=
  functions.reverse.findSome? fun f => if f.name = name then singleMapRead f states else none

section Scan

variable (iterVar : String) (states : String → Option Ty) (summaries : String → Option MapReadSummary)

/-- Notes a map once. -/
def note (stateName : String) (found : List String) : List String :=
  if stateName ∈ found then found else found ++ [stateName]

/-- `state_map[iter_var]`. -/
def noteIndex (target key : Expr) (found : List String) : List String :=
  match target, key with
  | .ident stateName, .ident keyName =>
    if keyName = iterVar && isMap (states stateName) then note stateName found else found
  | _, _ => found

/-- `f(iter_var)` for a function that reads a map at its argument. -/
def noteCall (name : String) (args : List Expr) (found : List String) : List String :=
  match summaries name with
  | some s =>
    match args[s.paramIdx]? with
    | some (.ident argName) => if argName = iterVar then note s.stateName found else found
    | _ => found
  | none => found

mutual

def scanExpr : Expr → List String → List String
  | .index target key, found =>
    scanExpr key (scanExpr target (noteIndex iterVar states target key found))
  | .call none name args, found => scanExprs args (noteCall iterVar summaries name args found)
  | .binary _ lhs rhs, found => scanExpr rhs (scanExpr lhs found)
  | .unary _ operand, found => scanExpr operand found
  | .field target _, found => scanExpr target found
  | .array elems, found => scanExprs elems found
  | .setLit elems, found => scanExprs elems found
  | .arrayAlloc _ len, found => scanExpr len found
  | .reserve count _, found => scanExpr count found
  | .explicitLiteral inner, found => scanExpr inner found
  | .dictLit pairs, found => scanPairs pairs found
  | .structLit _ fields, found => scanFields fields found
  | .pipe head step, found => scanExpr step (scanExpr head found)
  | .call (some _) _ args, found => scanExprs args found
  | .dynCall _ _ args _ _, found => scanExprs args found
  | .listComp mapper clauses, found => scanClauses clauses (scanExpr mapper found)
  | .setComp mapper clauses, found => scanClauses clauses (scanExpr mapper found)
  | .dictComp key value clauses, found => scanClauses clauses (scanExpr value (scanExpr key found))
  | .tupleLit elems, found => scanExprs elems found
  | .tupleIndex target _, found => scanExpr target found
  | .enumCtor _ _ args, found => scanExprs args found
  | .matchOn scrut arms, found => scanArms arms (scanExpr scrut found)
  | .block b, found => scanValueBlock b found
  | .ifElse cond body orElse, found => scanValueElse orElse (scanValueBlock body (scanExpr cond found))
  | .jsonObject pairs, found => scanFields pairs found
  | .jsonArray items, found => scanExprs items found
  | _, found => found

def scanExprs : List Expr → List String → List String
  | [], found => found
  | e :: es, found => scanExprs es (scanExpr e found)

def scanFields : List (String × Expr) → List String → List String
  | [], found => found
  | (_, e) :: fields, found => scanFields fields (scanExpr e found)

def scanPairs : List (Expr × Expr) → List String → List String
  | [], found => found
  | (k, v) :: pairs, found => scanPairs pairs (scanExpr v (scanExpr k found))

/-- The clauses of an inner comprehension, up to one that binds the variable again. -/
def scanClauses : List CompClause → List String → List String
  | [], found => found
  | .bind var iter :: clauses, found =>
    let found := scanExpr iter found
    if var = iterVar then found else scanClauses clauses found
  | .filter cond :: clauses, found => scanClauses clauses (scanExpr cond found)

def scanArms : List MatchArm → List String → List String
  | [], found => found
  | .mk _ body :: arms, found => scanArms arms (scanExpr body found)

def scanOption : Option Expr → List String → List String
  | none, found => found
  | some e, found => scanExpr e found

/-- A block that has a value. -/
def scanValueBlock : Block → List String → List String
  | .mk stmts tail, found => scanOption tail (scanStmts stmts found)

def scanValueElse : ElseBranch → List String → List String
  | .none, found => found
  | .block b, found => scanValueBlock b found
  | .elseIf inner, found => scanIf inner found

def scanStmt : Stmt → List String → List String
  | .letVar _ _ value, found => scanExpr value found
  | .assign target value, found => scanExpr value (scanExpr target found)
  | .ret value, found => scanOption value found
  | .ifStmt s, found => scanIf s found
  | .whileLoop cond (.mk stmts _), found => scanStmts stmts (scanExpr cond found)
  | .forLoop var iter _ (.mk stmts _), found =>
    let found := scanExpr iter found
    if var = iterVar then found else scanStmts stmts found
  | .forRange var start finish _ (.mk stmts _), found =>
    let found := scanExpr finish (scanExpr start found)
    if var = iterVar then found else scanStmts stmts found
  | .breakStmt, found => found
  | .continueStmt, found => found
  | .placeholder, found => found
  | .expr e, found => scanExpr e found
  | .emit value, found => scanExpr value found
  | .delete target, found => scanExpr target found
  | .letTuple _ value, found => scanExpr value found
  | .parallel stmts, found => scanStmts stmts found
  | .parallelForTo _ _ source output (.mk stmts _), found => scanStmts stmts (scanExpr output (scanExpr source found))

def scanStmts : List Stmt → List String → List String
  | [], found => found
  | s :: stmts, found => scanStmts stmts (scanStmt s found)

/-- An `if` whose blocks have no value: their tails are not looked at. -/
def scanIf : IfStmt → List String → List String
  | .mk cond (.mk stmts _) orElse, found => scanElse orElse (scanStmts stmts (scanExpr cond found))

def scanElse : ElseBranch → List String → List String
  | .none, found => found
  | .block (.mk stmts _), found => scanStmts stmts found
  | .elseIf inner, found => scanIf inner found

end

def scanLoopBody (body : Block) : List String := scanStmts iterVar states summaries body.stmts []

/-- The clauses after the first of a comprehension: its filters, and the next iterated expression. -/
def scanInner : List CompClause → List String → List String
  | [], found => found
  | .bind _ iter :: _, found => scanExpr iterVar states summaries iter found
  | .filter cond :: clauses, found => scanInner clauses (scanExpr iterVar states summaries cond found)

def scanCompInner (innerClauses : List CompClause) (leaves : List Expr) : List String :=
  scanExprs iterVar states summaries leaves (scanInner iterVar states summaries innerClauses [])

end Scan

end Rend.Compile
