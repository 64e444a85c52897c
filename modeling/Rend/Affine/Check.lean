import Rend.Bytecode

/-!
# The ownership pass

The pass walks each function once and keeps, scope by scope, whether a variable has been moved. A use of
a variable whose type is not Copy moves it, and a use of a moved variable is an error. The types the
pass keeps are its own: a result it has no interest in is `int`, which is Copy.

The tree is the one the type checker leaves: what introduces a variable carries the type the checker
gives it, beside what is written in the source. Of the source text it keeps what the pass reads. A constant is a name
to the pass, as a state is; what stands for it in the code that is compiled is a form of its own.
-/

namespace Rend

open Lib

/-! ### Copy types -/

mutual

/-- The value is duplicated, not moved, on each use (`Type::is_copy`). -/
def Ty.isCopy : Ty → Bool
  | .int | .uint | .float | .i32 | .u32 | .u64 | .u128 | .bool | .unit | .string | .address | .bytes => true
  | .array elem => elem.isCopy
  | .explicitLiteral inner => inner.isCopy
  | .set elem => elem.isCopy
  | .dict key value => key.isCopy && value.isCopy
  | .struct _ fields _ => Ty.allFieldsCopy fields
  | .tuple elems => Ty.allCopy elems
  | .enum _ variants => Ty.allVariantsCopy variants
  | .cap .. => false
  | .interface .. => true
  | .json => true
  | .resource | .map .. | .pmap .. | .pbtree .. | .pvec _ => false

/-- All of the types are Copy. -/
def Ty.allCopy : List Ty → Bool
  | [] => true
  | t :: ts => t.isCopy && Ty.allCopy ts

/-- All of the fields have Copy types. -/
def Ty.allFieldsCopy : List (String × Ty) → Bool
  | [] => true
  | (_, t) :: fs => t.isCopy && Ty.allFieldsCopy fs

/-- All of the payloads have Copy types. -/
def Ty.allVariantsCopy : List (String × List Ty) → Bool
  | [] => true
  | (_, payload) :: vs => Ty.allCopy payload && Ty.allVariantsCopy vs

end

namespace Affine

/-! ### The tree -/

/-- A form of expression whose operands are walked in order and whose result the pass does not type. -/
inductive Op
  | binary
  /-- `&&` and `||`, of the binary operators. -/
  | logical
  | unary
  | array
  | arrayAlloc
  | reserve
  | setLit
  | dictLit
  | tupleLit
  | tupleIndex
  | enumCtor

mutual

/-- An expression (`ast::ExprKind`). -/
inductive Expr
  /-- A literal, of its type. -/
  | lit (ty : Ty)
  /-- A JSON object, array or null. -/
  | json (items : List Expr)
  | ident (name : String) (span : Span)
  /-- The name of a constant, with the expression that is compiled in its place. -/
  | const (name : String) (span : Span) (value : Expr)
  | op (op : Op) (operands : List Expr)
  | call (module : Option String) (name : String) (args : List Expr) (span : Span)
  | dynCall (targetIdent : String) (args : List Expr)
  | index (target key : Expr)
  | explicitLiteral (inner : Expr)
  | structLit (name : String) (fields : List Expr)
  /-- A chain of field accesses on a root that is not one itself, and the type of the last field. -/
  | field (root : Expr) (path : List String) (ty : Ty)
  | prev
  /-- A pipe stage; `ty` is the type of the head. -/
  | pipe (head : Expr) (ty : Ty) (step : Expr)
  /-- A list or set comprehension, of one result, or one of a dict, of a key and a value. -/
  | comp (results : List Expr) (clauses : List CompClause)
  | matchArms (scrut : Expr) (arms : List MatchArm)
  | block (body : Block)
  | ite (branch : IfStmt)

/-- A clause of a comprehension (`ast::CompClause`). -/
inductive CompClause
  | for (var : String) (ty : Ty) (iter : Expr)
  | if (cond : Expr)

/-- An arm of a match with the variables its pattern introduces (`ast::MatchArm`). -/
inductive MatchArm
  | mk (bindings : List (String × Ty)) (body : Expr)

/-- What an assignment writes to (`check_lvalue`). -/
inductive Place
  | var (name : String)
  | index (state : String) (key : Expr)
  | field (base : Place) (name : String)

/-- Statements and the expression that follows them (`ast::Block`). -/
inductive Block
  | mk (stmts : List Stmt) (tail : Option Expr)

/-- A conditional (`ast::IfStmt`). -/
inductive IfStmt
  | mk (cond : Expr) (then' : Block) (elseBranch : ElseBranch)

/-- What follows `else` (`ast::ElseBranch`). -/
inductive ElseBranch
  | none
  | block (body : Block)
  | if (inner : IfStmt)

/-- A statement (`ast::Stmt`). -/
inductive Stmt
  /-- A binding with the type that is written, if one is, and the type of its value. -/
  | let (name : String) (declared : Option Ty) (inferred : Ty) (value : Expr)
  | letTuple (names : List (String × Ty)) (value : Expr)
  | assign (target : Place) (value : Expr)
  | return (value : Option Expr)
  | if (branch : IfStmt)
  | while (cond : Expr) (body : Block)
  | for (var : String) (ty : Ty) (iter : Expr) (limit : Option Expr) (body : Block)
  | forRange (var : String) (ty : Ty) (start stop : Expr) (body : Block)
  | break
  | continue
  | placeholder
  /-- An expression, what is emitted, or what is deleted. -/
  | expr (e : Expr)
  | parallel (stmts : List Stmt)
  | parallelForTo (idVar : String) (ty : Ty) (idxVar : Option String) (source output : Expr) (body : Block)

end

/-- A function (`ast::FnDef`). -/
structure FnDef where
  name : String
  params : List Param
  returnType : Ty
  body : Block

/-- A constant (`ast::ConstDecl`). -/
structure ConstDecl where
  name : String
  ty : Ty
  value : Expr

/-- The declarations of types in a module, as `resolve_types` leaves them. -/
structure Decls where
  structs : List (String × List (String × Ty))
  enums : List (String × List (String × List Ty))
  caps : List (String × List (String × Ty))

/-- The declarations of a module (`ast::Module`), and those of the types in the modules it is compiled with. -/
structure Module extends Decls where
  name : String
  imports : List (String × Ty)
  states : List (String × Ty)
  consts : List ConstDecl
  functions : List FnDef
  others : List (String × Decls)

/-! ### What the pass knows of the module -/

/-- The results of the built-in functions; `int` stands for one the pass does not type. -/
def builtinSigs : List (String × Ty) :=
  [("resource", .resource), ("unwrap", .int), ("address", .address), ("len", .int), ("assert", .unit),
   ("msg_sender", .address), ("block_timestamp", .u64), ("block_number", .u64), ("to_bytes", .bytes),
   ("bytes_len", .int), ("bytes_concat", .bytes), ("bytes_eq", .bool), ("bytes_slice", .bytes),
   ("to_be_bytes", .bytes), ("bit_not_bytes", .bytes), ("string_concat", .string),
   ("pmap_contains", .bool), ("pvec_push", .u64), ("pvec_len", .u64), ("pmap_entries", .int),
   ("pmap_keys", .int), ("pmap_values", .int), ("pvec_to_array", .int), ("sum", .int), ("max", .int),
   ("min", .int), ("pbtree_contains", .bool), ("pbtree_range", .int), ("parse_json", .json),
   ("json_stringify", .string), ("json_get_field", .json), ("json_get_index", .json),
   ("json_to_string", .string), ("json_to_i64", .int), ("json_to_u64", .u64), ("json_to_bool", .bool),
   ("json_is_null", .bool), ("string_slice", .string), ("string_contains", .bool), ("i64", .int),
   ("i32", .i32), ("u32", .u32), ("u64", .u64), ("u128", .u128), ("set_insert", .int),
   ("set_remove", .int), ("set_contains", .bool), ("set_len", .int), ("dict_set", .int),
   ("dict_remove", .int), ("dict_get", .int), ("dict_has", .bool), ("dict_len", .int)]

/-- The result types of the functions a module can call by name. -/
def buildSigs (m : Module) : SortedMap String Ty :=
  .ofEntries (builtinSigs ++ m.imports ++ m.functions.map fun f => (f.name, f.returnType))

/-- The tables the pass is given. -/
structure Ctx where
  sigs : SortedMap String Ty
  states : SortedMap String Ty
  capDecls : SortedMap String (List (String × Ty))

/-- The tables of a module. A constant is looked up as a state is. -/
def Module.ctx (m : Module) : Ctx where
  sigs := buildSigs m
  states := .ofEntries (m.states ++ m.consts.map fun c => (c.name, c.ty))
  capDecls := .ofEntries m.caps

/-! ### Scopes -/

/-- What the pass knows of a variable: its type, and where it was moved. -/
structure Binding where
  ty : Ty
  movedAt : Option Span

/-- The variables of a scope. -/
abbrev Scope := String → Option Binding

/-- The scopes, the innermost first. -/
abbrev Env := List Scope

/-- The binding a name stands for: the innermost one. -/
def Env.get (env : Env) (x : String) : Option Binding := env.findSome? fun s => s x

/-- The outermost binding of a name. -/
def Env.getOuter (env : Env) (x : String) : Option Binding := env.reverse.findSome? fun s => s x

/-- Opens a scope. -/
def Env.push (env : Env) : Env := (fun _ => none) :: env

/-- Binds a name in the innermost scope. -/
def Env.insert (env : Env) (x : String) (ty : Ty) : Env :=
  match env with
  | [] => []
  | s :: outer => Function.update s x (some ⟨ty, none⟩) :: outer

/-- Marks the binding a name stands for as moved. -/
def Env.move : Env → String → Span → Env
  | [], _, _ => []
  | s :: outer, x, at_ =>
    match s x with
    | some b => Function.update s x (some { b with movedAt := some at_ }) :: outer
    | none => s :: Env.move outer x at_

/-- The scopes after one of two branches: a binding is moved when it is moved in either. -/
def merge (a b : Env) : Env :=
  List.zipWith (fun sa sb k => (sa k).map fun va => ⟨va.ty, va.movedAt.or ((sb k).getD va).movedAt⟩) a b

/-- An error of the pass. -/
structure Error where
  message : String
  span : Span
  deriving DecidableEq

/-- The error of a use of a moved variable. -/
def usedAfterMove (x : String) (prev span : Span) : Error :=
  ⟨"value '" ++ x ++ "' used after move (moved at " ++ toString prev.start ++ ".." ++ toString prev.end ++ ")",
    span⟩

/-! ### The walk -/

/-- The use of a variable. -/
def checkIdent (C : Ctx) (x : String) (span : Span) (env : Env) : Except Error (Ty × Env) :=
  match env.get x with
  | some b =>
    match b.movedAt with
    | some prev => .error (usedAfterMove x prev span)
    | none => .ok (b.ty, if b.ty.isCopy then env else env.move x span)
  | none =>
    match C.states.lookup x with
    | some t => .ok (t, env)
    | none => .error ⟨"undefined variable '" ++ x ++ "'", span⟩

/-- A look at a variable that does not move it (`field_peek`), at the outermost binding of the name. -/
def peekIdent (x : String) (span : Span) (env : Env) : Except Error Unit :=
  match env.getOuter x with
  | some b =>
    match b.movedAt with
    | some prev => .error (usedAfterMove x prev span)
    | none => .ok ()
  | none => .ok ()

/-- The result type of a call. -/
def callType (C : Ctx) (module : Option String) (name : String) (span : Span) : Except Error Ty :=
  match module with
  | some _ => .ok .int
  | none =>
    match C.sigs.lookup name with
    | some t => .ok t
    | none => .error ⟨"unknown function '" ++ name ++ "'", span⟩

/-- The type of an element: that of a value of a map state, by the name of the state. -/
def indexType (C : Ctx) : Expr → Ty
  | .ident name _ | .const name _ _ =>
    match C.states.lookup name with
    | some (.map _ value) => value
    | _ => .int
  | _ => .int

/-- The type of a literal of a struct or a capability. -/
def structLitType (C : Ctx) (name : String) : Ty :=
  match C.capDecls.lookup name with
  | some fields => .cap name fields ""
  | none => .int

/-- Binds names the pass does not type. -/
def bindUntyped (names : List (String × Ty)) (env : Env) : Env :=
  names.foldl (fun env n => env.insert n.1 .int) env

/-- The scopes the clauses of a comprehension open. -/
def pushed : List CompClause → ℕ
  | [] => 0
  | .for .. :: clauses => pushed clauses + 1
  | .if _ :: clauses => pushed clauses

mutual

/-- The walk of an expression. -/
def checkExpr (C : Ctx) : Expr → Env → Except Error (Ty × Env)
  | .lit ty, env => .ok (ty, env)
  | .json _, env => .ok (.json, env)
  | .ident x span, env => checkIdent C x span env
  | .const x span _, env => checkIdent C x span env
  | .op _ operands, env => do
    let env ← checkExprs C operands env
    return (.int, env)
  | .call module name args span, env => do
    let env ← checkExprs C args env
    let ty ← callType C module name span
    return (ty, env)
  | .dynCall _ args, env => do
    let env ← checkExprs C args env
    return (.int, env)
  | .index target key, env => do
    let k ← checkExpr C key env
    let t ← checkExpr C target k.2
    return (indexType C target, t.2)
  | .explicitLiteral inner, env => checkExpr C inner env
  | .structLit name fields, env => do
    let env ← checkExprs C fields env
    return (structLitType C name, env)
  | .field (.ident x span) _ _, env => do
    peekIdent x span env
    return (.int, env)
  | .field (.const x span _) _ _, env => do
    peekIdent x span env
    return (.int, env)
  | .field root _ _, env => do
    let r ← checkExpr C root env
    return (.int, r.2)
  | .prev, env => .ok (.int, env)
  | .pipe head _ step, env => do
    let h ← checkExpr C head env
    let s ← checkExpr C step h.2
    return (.int, s.2)
  | .comp results clauses, env => do
    let inner ← checkCompClauses C clauses env
    let inner ← checkExprs C results inner
    return (.int, inner.drop (pushed clauses))
  | .matchArms scrut arms, env => do
    let s ← checkExpr C scrut env
    let env ← checkArms C arms s.2
    return (.int, env)
  | .block body, env => do
    let env ← checkValueBlock C body env
    return (.int, env)
  | .ite branch, env => do
    let env ← checkIfExpr C branch env
    return (.int, env)

/-- The walk of expressions in order. -/
def checkExprs (C : Ctx) : List Expr → Env → Except Error Env
  | [], env => .ok env
  | e :: es, env => do
    let r ← checkExpr C e env
    checkExprs C es r.2

/-- The walk of the clauses of a comprehension. Their scopes stay open. -/
def checkCompClauses (C : Ctx) : List CompClause → Env → Except Error Env
  | [], env => .ok env
  | .for var _ iter :: clauses, env => do
    let r ← checkExpr C iter env
    checkCompClauses C clauses (r.2.push.insert var .int)
  | .if cond :: clauses, env => do
    let r ← checkExpr C cond env
    checkCompClauses C clauses r.2

/-- The walk of the arms of a match, one after the other. -/
def checkArms (C : Ctx) : List MatchArm → Env → Except Error Env
  | [], env => .ok env
  | .mk bindings body :: arms, env => do
    let r ← checkExpr C body (bindUntyped bindings env.push)
    checkArms C arms r.2.tail

/-- The walk of a block in the place of a value: its statements and its tail. -/
def checkValueBlock (C : Ctx) : Block → Env → Except Error Env
  | .mk stmts none, env => do
    let inner ← checkStmts C stmts env.push
    return inner.tail
  | .mk stmts (some tail), env => do
    let inner ← checkStmts C stmts env.push
    let r ← checkExpr C tail inner
    return r.2.tail

/-- The walk of a conditional in the place of a value: its branches one after the other. -/
def checkIfExpr (C : Ctx) : IfStmt → Env → Except Error Env
  | .mk cond then' elseBranch, env => do
    let c ← checkExpr C cond env
    let env ← checkValueBlock C then' c.2
    match elseBranch with
    | .none => return env
    | .block body => checkValueBlock C body env
    | .if inner => checkIfExpr C inner env

/-- The walk of a block in the place of a statement: its statements. -/
def checkBlock (C : Ctx) : Block → Env → Except Error Env
  | .mk stmts _, env => do
    let inner ← checkStmts C stmts env.push
    return inner.tail

/-- The walk of a conditional statement: both branches start alike, and their ends are merged. -/
def checkIf (C : Ctx) : IfStmt → Env → Except Error Env
  | .mk cond then' elseBranch, env => do
    let c ← checkExpr C cond env
    let afterThen ← checkBlock C then' c.2
    match elseBranch with
    | .none => return merge c.2 afterThen
    | .block body => do
      let afterElse ← checkBlock C body c.2
      return merge afterThen afterElse
    | .if inner => do
      let afterElse ← checkIf C inner c.2
      return merge afterThen afterElse

/-- The walk of a statement. A loop is walked once, and what it moved is forgotten. -/
def checkStmt (C : Ctx) : Stmt → Env → Except Error Env
  | .let x declared _ value, env => do
    let v ← checkExpr C value env
    return v.2.insert x (declared.getD v.1)
  | .letTuple names value, env => do
    let v ← checkExpr C value env
    return bindUntyped names v.2
  | .assign (.index _ key) value, env => do
    let k ← checkExpr C key env
    let v ← checkExpr C value k.2
    return v.2
  | .assign _ value, env => do
    let v ← checkExpr C value env
    return v.2
  | .return none, env => .ok env
  | .return (some e), env => do
    let v ← checkExpr C e env
    return v.2
  | .if branch, env => checkIf C branch env
  | .while cond body, env => do
    let c ← checkExpr C cond env
    let _ ← checkBlock C body c.2
    return c.2
  | .for var _ iter _ body, env => do
    let i ← checkExpr C iter env
    let _ ← checkBlock C body (i.2.push.insert var .int)
    return i.2
  | .forRange var _ start stop body, env => do
    let a ← checkExpr C start env
    let b ← checkExpr C stop a.2
    let _ ← checkBlock C body (b.2.push.insert var .int)
    return b.2
  | .break, env => .ok env
  | .continue, env => .ok env
  | .placeholder, env => .ok env
  | .expr e, env => do
    let v ← checkExpr C e env
    return v.2
  | .parallel stmts, env => checkStmts C stmts env
  | .parallelForTo idVar _ _ source output body, env => do
    let s ← checkExpr C source env
    let o ← checkExpr C output s.2
    let _ ← checkBlock C body (o.2.push.insert idVar .u64)
    return o.2

/-- The walk of statements in order. -/
def checkStmts (C : Ctx) : List Stmt → Env → Except Error Env
  | [], env => .ok env
  | s :: ss, env => do
    let env ← checkStmt C s env
    checkStmts C ss env

end

/-- The scope of the parameters. -/
def paramEnv (params : List Param) : Env := params.foldl (fun env p => env.insert p.name p.ty) (Env.push [])

/-- The walk of a function. -/
def checkFn (C : Ctx) (f : FnDef) : Except Error Unit := do
  let _ ← checkBlock C f.body (paramEnv f.params)
  return ()

/-- The pass over a module. -/
def check (m : Module) : Except Error Unit := m.functions.forM (checkFn m.ctx)

end Affine

end Rend
