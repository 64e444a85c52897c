import Rend.Bytecode

/-!
# The syntax tree

The tree that the parser hands to the passes before the compiler (`ast.rs`), without its spans. A boxed or
optional part is the part itself or an `Option` of it. What a module declares besides functions and modifiers
is left to the passes that read it.
-/

namespace Rend.Ast

/-- The pattern of an arm (`MatchPattern`). -/
inductive MatchPattern
  | wildcard
  | enumVariant (enumName variant : String) (bindings : List String)

mutual

/-- An expression (`ExprKind`). -/
inductive Expr
  | int (n : ℤ)
  | uint (n : ℤ)
  | float (bits : U64)
  | i32 (n : BitVec 32)
  | u32 (n : BitVec 32)
  | u64 (n : U64)
  | u128 (n : U128)
  | jsonObject (pairs : List (String × Expr))
  | jsonArray (items : List Expr)
  | jsonNull
  | bool (b : Bool)
  | str (s : String)
  | ident (name : String)
  | binary (op : BinOp) (lhs rhs : Expr)
  | unary (op : UnOp) (operand : Expr)
  | call (module : Option String) (name : String) (args : List Expr)
  | dynCall (targetIdent method : String) (args : List Expr) (methodIsView methodIsPure : Bool)
  | index (target key : Expr)
  | array (elems : List Expr)
  | explicitLiteral (inner : Expr)
  | arrayAlloc (elemTy : Ty) (len : Expr)
  | reserve (count : Expr) (state : String)
  | structLit (name : String) (fields : List (String × Expr))
  | field (target : Expr) (name : String)
  | pipe (head step : Expr)
  | prev
  | listComp (mapper : Expr) (clauses : List CompClause)
  | setLit (elems : List Expr)
  | setComp (mapper : Expr) (clauses : List CompClause)
  | dictLit (pairs : List (Expr × Expr))
  | dictComp (key value : Expr) (clauses : List CompClause)
  | tupleLit (elems : List Expr)
  | tupleIndex (target : Expr) (index : ℕ)
  | enumCtor (enumName variant : String) (args : List Expr)
  | matchOn (scrut : Expr) (arms : List MatchArm)
  | block (b : Block)
  | ifElse (cond : Expr) (body : Block) (orElse : ElseBranch)

/-- Statements, and the expression without `;` the value of the block is. -/
inductive Block
  | mk (stmts : List Stmt) (tail : Option Expr)

/-- A statement (`Stmt`). -/
inductive Stmt
  | letVar (name : String) (ty : Option Ty) (value : Expr)
  | assign (target value : Expr)
  | ret (value : Option Expr)
  | ifStmt (s : IfStmt)
  | whileLoop (cond : Expr) (body : Block)
  | forLoop (var : String) (iter : Expr) (limit : Option Expr) (body : Block)
  | forRange (var : String) (start finish : Expr) (inclusive : Bool) (body : Block)
  | breakStmt
  | continueStmt
  | expr (e : Expr)
  | parallel (stmts : List Stmt)
  | parallelForTo (idVar : String) (idxVar : Option String) (source output : Expr) (body : Block)
  | emit (value : Expr)
  | delete (target : Expr)
  | letTuple (names : List String) (value : Expr)
  | placeholder

/-- An `if` statement. -/
inductive IfStmt
  | mk (cond : Expr) (body : Block) (orElse : ElseBranch)

inductive ElseBranch
  | none
  | block (b : Block)
  | elseIf (s : IfStmt)

inductive MatchArm
  | mk (pattern : MatchPattern) (body : Expr)

/-- A clause of a comprehension. -/
inductive CompClause
  | bind (var : String) (iter : Expr)
  | filter (cond : Expr)

end

def Block.stmts : Block → List Stmt
  | .mk stmts _ => stmts

def Block.tail : Block → Option Expr
  | .mk _ tail => tail

@[simp] theorem Block.stmts_mk (stmts : List Stmt) (tail : Option Expr) : (Block.mk stmts tail).stmts = stmts := rfl

@[simp] theorem Block.tail_mk (stmts : List Stmt) (tail : Option Expr) : (Block.mk stmts tail).tail = tail := rfl

/-- A parameter with its type. -/
structure Param where
  name : String
  ty : Ty

/-- A modifier: `modifier name(params) { ... _; ... }`. -/
structure ModifierDecl where
  name : String
  params : List Param
  body : Block

/-- A function, with the modifiers that are applied to it from the outermost on. -/
structure FnDef where
  name : String
  params : List Param
  returnType : Ty
  body : Block
  isNore : Bool
  isEntry : Bool
  isView : Bool
  isPure : Bool
  modifiers : List (String × List Expr)

end Rend.Ast
