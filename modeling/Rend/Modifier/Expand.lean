import Rend.Syntax.Ast

/-!
# The expansion of modifiers

Before the types are checked, the body of a function with modifiers is put in place of the `_;` of the
innermost one, the result in place of the `_;` of the next, and so on (`modifier.rs`). The parameters of a
modifier are replaced by the arguments of its application, name by name, in a walk over its statements.

An error is its text. The walk over a statement leaves the tail of a nested block as it is, and so it does
with the limit of a loop and the target of a call on an interface.
-/

namespace Rend.Modifier

open Ast

/-- What the names of parameters stand for. -/
abbrev Subst := String → Option Expr

/-! ### Substitution -/

mutual

def substituteInExpr (subst : Subst) : Expr → Expr
  | .ident name => (subst name).getD (.ident name)
  | .binary op lhs rhs => .binary op (substituteInExpr subst lhs) (substituteInExpr subst rhs)
  | .unary op operand => .unary op (substituteInExpr subst operand)
  | .index target key => .index (substituteInExpr subst target) (substituteInExpr subst key)
  | .field target name => .field (substituteInExpr subst target) name
  | .array elems => .array (substituteInExprs subst elems)
  | .setLit elems => .setLit (substituteInExprs subst elems)
  | .tupleLit elems => .tupleLit (substituteInExprs subst elems)
  | .arrayAlloc elemTy len => .arrayAlloc elemTy (substituteInExpr subst len)
  | .reserve count state => .reserve (substituteInExpr subst count) state
  | .explicitLiteral inner => .explicitLiteral (substituteInExpr subst inner)
  | .dictLit pairs => .dictLit (substituteInPairs subst pairs)
  | .call module name args => .call module name (substituteInExprs subst args)
  | .dynCall target method args isView isPure => .dynCall target method (substituteInExprs subst args) isView isPure
  | .structLit name fields => .structLit name (substituteInFields subst fields)
  | .pipe head step => .pipe (substituteInExpr subst head) (substituteInExpr subst step)
  | .listComp mapper clauses => .listComp (substituteInExpr subst mapper) (substituteInClauses subst clauses)
  | .setComp mapper clauses => .setComp (substituteInExpr subst mapper) (substituteInClauses subst clauses)
  | .dictComp key value clauses =>
    .dictComp (substituteInExpr subst key) (substituteInExpr subst value) (substituteInClauses subst clauses)
  | .tupleIndex target index => .tupleIndex (substituteInExpr subst target) index
  | .enumCtor enumName variant args => .enumCtor enumName variant (substituteInExprs subst args)
  | .matchOn scrut arms => .matchOn (substituteInExpr subst scrut) (substituteInArms subst arms)
  | .block (.mk stmts tail) => .block (.mk (substituteInStmts subst stmts) (substituteInOption subst tail))
  | .ifElse cond (.mk stmts tail) orElse =>
    .ifElse (substituteInExpr subst cond) (.mk (substituteInStmts subst stmts) (substituteInOption subst tail))
      (substituteInExprElse subst orElse)
  | .jsonObject pairs => .jsonObject (substituteInFields subst pairs)
  | .jsonArray items => .jsonArray (substituteInExprs subst items)
  | .int n => .int n
  | .uint n => .uint n
  | .float bits => .float bits
  | .i32 n => .i32 n
  | .u32 n => .u32 n
  | .u64 n => .u64 n
  | .u128 n => .u128 n
  | .jsonNull => .jsonNull
  | .bool b => .bool b
  | .str s => .str s
  | .prev => .prev

/-- The `else` of an `if` expression: a block has its tail replaced, an `else if` is walked as a statement. -/
def substituteInExprElse (subst : Subst) : ElseBranch → ElseBranch
  | .none => .none
  | .block (.mk stmts tail) => .block (.mk (substituteInStmts subst stmts) (substituteInOption subst tail))
  | .elseIf inner => .elseIf (substituteInIf subst inner)

def substituteInExprs (subst : Subst) : List Expr → List Expr
  | [] => []
  | e :: es => substituteInExpr subst e :: substituteInExprs subst es

def substituteInFields (subst : Subst) : List (String × Expr) → List (String × Expr)
  | [] => []
  | (name, e) :: fields => (name, substituteInExpr subst e) :: substituteInFields subst fields

def substituteInPairs (subst : Subst) : List (Expr × Expr) → List (Expr × Expr)
  | [] => []
  | (k, v) :: pairs => (substituteInExpr subst k, substituteInExpr subst v) :: substituteInPairs subst pairs

def substituteInOption (subst : Subst) : Option Expr → Option Expr
  | none => none
  | some e => some (substituteInExpr subst e)

def substituteInClauses (subst : Subst) : List CompClause → List CompClause
  | [] => []
  | .bind var iter :: clauses => .bind var (substituteInExpr subst iter) :: substituteInClauses subst clauses
  | .filter cond :: clauses => .filter (substituteInExpr subst cond) :: substituteInClauses subst clauses

def substituteInArms (subst : Subst) : List MatchArm → List MatchArm
  | [] => []
  | .mk pattern body :: arms => .mk pattern (substituteInExpr subst body) :: substituteInArms subst arms

def substituteParamsInStmt (subst : Subst) : Stmt → Stmt
  | .letVar name ty value => .letVar name ty (substituteInExpr subst value)
  | .assign target value => .assign (substituteInExpr subst target) (substituteInExpr subst value)
  | .ret value => .ret (substituteInOption subst value)
  | .ifStmt s => .ifStmt (substituteInIf subst s)
  | .whileLoop cond (.mk stmts tail) => .whileLoop (substituteInExpr subst cond) (.mk (substituteInStmts subst stmts) tail)
  | .forLoop var iter limit (.mk stmts tail) =>
    .forLoop var (substituteInExpr subst iter) limit (.mk (substituteInStmts subst stmts) tail)
  | .forRange var start finish inclusive (.mk stmts tail) =>
    .forRange var (substituteInExpr subst start) (substituteInExpr subst finish) inclusive
      (.mk (substituteInStmts subst stmts) tail)
  | .breakStmt => .breakStmt
  | .continueStmt => .continueStmt
  | .placeholder => .placeholder
  | .expr e => .expr (substituteInExpr subst e)
  | .emit value => .emit (substituteInExpr subst value)
  | .delete target => .delete (substituteInExpr subst target)
  | .letTuple names value => .letTuple names (substituteInExpr subst value)
  | .parallel stmts => .parallel (substituteInStmts subst stmts)
  | .parallelForTo idVar idxVar source output (.mk stmts tail) =>
    .parallelForTo idVar idxVar (substituteInExpr subst source) (substituteInExpr subst output)
      (.mk (substituteInStmts subst stmts) tail)

def substituteInStmts (subst : Subst) : List Stmt → List Stmt
  | [] => []
  | s :: stmts => substituteParamsInStmt subst s :: substituteInStmts subst stmts

def substituteInIf (subst : Subst) : IfStmt → IfStmt
  | .mk cond (.mk stmts tail) orElse =>
    .mk (substituteInExpr subst cond) (.mk (substituteInStmts subst stmts) tail) (substituteInElse subst orElse)

def substituteInElse (subst : Subst) : ElseBranch → ElseBranch
  | .none => .none
  | .block (.mk stmts tail) => .block (.mk (substituteInStmts subst stmts) tail)
  | .elseIf inner => .elseIf (substituteInIf subst inner)

end

/-! ### Placeholders that are left -/

/-- The text of the error on a `_;` that is left. -/
def strayPlaceholder : String := "`_;` is only valid inside a modifier body"

mutual

/-- Looks for a `_;` in the bodies of `if`, `while` and `for` over a collection. -/
def ensureNoPlaceholders : List Stmt → Except String Unit
  | [] => .ok ()
  | s :: stmts => do
    ensureNoPlaceholder s
    ensureNoPlaceholders stmts

def ensureNoPlaceholder : Stmt → Except String Unit
  | .placeholder => .error strayPlaceholder
  | .ifStmt s => checkIfForPlaceholder s
  | .whileLoop _ (.mk stmts _) => ensureNoPlaceholders stmts
  | .forLoop _ _ _ (.mk stmts _) => ensureNoPlaceholders stmts
  | _ => .ok ()

def checkIfForPlaceholder : IfStmt → Except String Unit
  | .mk _ (.mk stmts _) orElse => do
    ensureNoPlaceholders stmts
    match orElse with
    | .none => .ok ()
    | .block (.mk stmts _) => ensureNoPlaceholders stmts
    | .elseIf inner => checkIfForPlaceholder inner

end

/-! ### Expansion -/

/-- The declarations the expansion reads and changes. -/
structure Module where
  modifiers : List ModifierDecl
  functions : List FnDef

/-- Binds the parameters to the arguments. Of two parameters of one name the later holds. -/
def bindParams (params : List Ast.Param) (args : List Expr) : Subst := fun name =>
  ((params.zip args).reverse.find? fun pa => pa.1.name = name).map Prod.snd

def isPlaceholder : Stmt → Bool
  | .placeholder => true
  | _ => false

/-- Puts statements in place of each `_;` of a list. -/
def splice (stmts current : List Stmt) : List Stmt := stmts.flatMap fun s => if isPlaceholder s then current else [s]

/-- Wraps statements with one applied modifier. -/
def applyModifier (modifiers : List ModifierDecl) (current : List Stmt) (applied : String × List Expr) :
    Except String (List Stmt) :=
  match modifiers.find? fun m => m.name = applied.1 with
  | none => .error ("unknown modifier '" ++ applied.1 ++ "'")
  | some m =>
    if applied.2.length ≠ m.params.length then
      .error ("modifier '" ++ applied.1 ++ "' expects " ++ toString m.params.length ++ " arg(s), got " ++
        toString applied.2.length)
    else if m.body.stmts.any isPlaceholder then
      .ok (splice (substituteInStmts (bindParams m.params applied.2) m.body.stmts) current)
    else .error ("modifier '" ++ applied.1 ++ "' has no `_;` placeholder")

def expandFn (modifiers : List ModifierDecl) (f : FnDef) : Except String FnDef :=
  if f.modifiers.isEmpty then do
    ensureNoPlaceholders f.body.stmts
    .ok f
  else do
    let current ← f.modifiers.reverse.foldlM (applyModifier modifiers) f.body.stmts
    ensureNoPlaceholders current
    .ok { f with body := .mk current f.body.tail, modifiers := [] }

/-- The check that no two modifiers have one name. -/
def checkNames (modifiers : List ModifierDecl) (seen : List String) : Except String Unit :=
  match modifiers with
  | [] => .ok ()
  | m :: modifiers =>
    if m.name ∈ seen then .error ("duplicate modifier '" ++ m.name ++ "'") else checkNames modifiers (m.name :: seen)

def expand (m : Module) : Except String Module := do
  checkNames m.modifiers []
  let functions ← m.functions.mapM (expandFn m.modifiers)
  .ok { m with functions := functions }

end Rend.Modifier
