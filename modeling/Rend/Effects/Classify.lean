import Mathlib.Order.Lattice
import Rend.Artifact.Assemble

/-!
# The effects of a function

The classifier walks each function and joins what it finds into a class: whether the function reads the
state, writes it, or does what nothing is known of. The functions of a module start as pure and are walked
in rounds until no class changes. A function that is declared `pure` or `view` is refused when its class
is too high.

* `classifyExpr`, `classifyStmt`: the walk.
* `classifyLoop`: the rounds.
* `verifyPurityAnnotations`: the check of the declarations.
-/

namespace Rend.Effects

/-! ### Classes -/

/-- What a function may do (`effects::EffectClass`). -/
inductive EffectClass
  | pure
  | readOnly
  | writeOnly
  | readWrite
  | impure
  deriving DecidableEq, Repr

namespace EffectClass

/-- The state may be read. -/
def reads : EffectClass → Bool
  | .readOnly | .readWrite | .impure => true
  | .pure | .writeOnly => false

/-- The state may be written. -/
def writes : EffectClass → Bool
  | .writeOnly | .readWrite | .impure => true
  | .pure | .readOnly => false

/-- Nothing is known. -/
def isImpure : EffectClass → Bool
  | .impure => true
  | _ => false

/-- Both together. -/
def join (a b : EffectClass) : EffectClass :=
  let r := a.reads || b.reads
  let w := a.writes || b.writes
  if a.isImpure || b.isImpure then .impure
  else
    match r, w with
    | false, false => .pure
    | true, false => .readOnly
    | false, true => .writeOnly
    | true, true => .readWrite

theorem join_comm (a b : EffectClass) : a.join b = b.join a := by
  cases a <;> cases b <;> rfl

theorem join_assoc (a b c : EffectClass) : (a.join b).join c = a.join (b.join c) := by
  cases a <;> cases b <;> cases c <;> rfl

theorem join_self (a : EffectClass) : a.join a = a := by
  cases a <;> rfl

instance : Max EffectClass := ⟨join⟩

/-- The classes are ordered by what they join to. -/
instance : SemilatticeSup EffectClass := SemilatticeSup.mk' join_comm join_assoc join_self

@[simp] theorem pure_join (a : EffectClass) : EffectClass.pure.join a = a := by
  cases a <;> rfl

@[simp] theorem join_pure (a : EffectClass) : a.join .pure = a := by
  cases a <;> rfl

end EffectClass

/-! ### The tree -/

/-- What an arm of a match matches, with the names it introduces (`ast::MatchPattern`). -/
inductive MatchPattern
  | wildcard
  | enumVariant (bindings : List String)

mutual

/-- An expression (`ast::ExprKind`). -/
inductive Expr
  /-- A literal, JSON null, or `$$`. -/
  | lit
  /-- A form whose operands are walked and evaluated in order, and that does nothing else: a JSON, set,
  dict, struct or tuple literal, an operator, an array or its allocation, an explicit literal, a pipe, a
  component of a tuple, a variant. -/
  | node (operands : List Expr)
  | ident (name : String)
  | index (target key : Expr)
  | field (target : Expr) (name : String)
  | reserve (count : Expr) (state : String)
  /-- A list or set comprehension, of one result, or one of a dict, of a key and a value. -/
  | comp (results : List Expr) (clauses : List CompClause)
  | dynCall (targetIdent method : String) (args : List Expr) (methodIsView methodIsPure : Bool)
  | call (module : Option String) (name : String) (args : List Expr)
  | matchArms (scrut : Expr) (arms : List MatchArm)
  | block (body : Block)
  | ite (branch : IfStmt)

/-- A clause of a comprehension (`ast::CompClause`). -/
inductive CompClause
  | for (var : String) (iter : Expr)
  | if (cond : Expr)

/-- An arm of a match (`ast::MatchArm`). -/
inductive MatchArm
  | mk (pattern : MatchPattern) (body : Expr)

/-- Statements and the expression that follows them (`ast::Block`). -/
inductive Block
  | mk (stmts : List Stmt) (tail : Option Expr)

/-- A conditional (`ast::IfStmt`). -/
inductive IfStmt
  | mk (cond : Expr) (then' : Block) (elseBranch : ElseBranch)

/-- What follows `else` (`ast::ElseBranch`). -/
inductive ElseBranch
  | none
  | block (body : Block)
  | if (inner : IfStmt)

/-- A statement (`ast::Stmt`). -/
inductive Stmt
  | let (name : String) (value : Expr)
  | letTuple (names : List String) (value : Expr)
  | assign (target value : Expr)
  | return (value : Option Expr)
  | if (branch : IfStmt)
  | while (cond : Expr) (body : Block)
  | for (var : String) (iter : Expr) (limit : Option Expr) (body : Block)
  | forRange (var : String) (start stop : Expr) (body : Block)
  | break
  | continue
  | placeholder
  | expr (e : Expr)
  | delete (target : Expr)
  | emit (value : Expr)
  | parallel (stmts : List Stmt)
  | parallelForTo (idVar : String) (idxVar : Option String) (source output : Expr) (body : Block)

end

/-- A function, with the names of its parameters (`ast::FnDef`). -/
structure FnDef where
  name : String
  params : List String
  body : Block
  isView : Bool
  isPure : Bool
  span : Span

/-- The declarations of a module that the classifier and the compiler resolve names by (`ast::Module`).
The type checker refuses a function that has the name of another or of an import. -/
structure Module where
  imports : List String
  states : List (String × Ty)
  interfaces : List String
  consts : List (String × Expr)
  functions : List FnDef
  names_nodup : (imports ++ functions.map FnDef.name).Nodup

/-- What is known of other modules: the classes of their entries, by `module::name`, and the names of
their interfaces. -/
structure Known where
  externals : String → Option EffectClass
  extraIfaceNames : List String

/-- The classes of the functions of a module. -/
abbrev Classes := String → Option EffectClass

/-- A class is set. -/
def Classes.insert (effects : Classes) (name : String) (c : EffectClass) : Classes :=
  fun x => if x = name then some c else effects x

/-- The tables of the walk (`effects::Ctx`). -/
structure Ctx where
  locals : Classes
  externals : String → Option EffectClass
  imports : List String
  states : List String
  stateTypes : List (String × Ty)
  ifaceNames : List String

/-- The names of the states of a module. -/
def Module.stateNames (m : Module) : List String := m.states.map Prod.fst

/-- The names of the interfaces a module can bind. -/
def Module.ifaceNames (m : Module) (K : Known) : List String := m.interfaces ++ K.extraIfaceNames

/-- The tables of a module. -/
def Module.ctx (m : Module) (K : Known) (effects : Classes) : Ctx where
  locals := effects
  externals := K.externals
  imports := m.imports
  states := m.stateNames
  stateTypes := m.states
  ifaceNames := m.ifaceNames K

/-! ### Calls -/

/-- The names that are taken to be pure (`is_pure_builtin`). -/
def isPureBuiltin (name : String) : Bool :=
  ["resource", "unwrap", "address", "len", "assert", "set_insert", "set_remove", "set_contains", "set_len",
   "dict_set", "dict_remove", "dict_get", "dict_has", "dict_len", "i64", "i32", "u32", "u64", "u128",
   "msg_sender", "block_timestamp", "block_number", "to_bytes", "bytes_len", "bytes_concat", "bytes_eq",
   "bytes_slice", "to_be_bytes", "bit_not_bytes", "string_concat", "string_slice", "string_contains",
   "pmap_contains", "pvec_len", "pmap_entries", "pmap_keys", "pmap_values", "pvec_to_array",
   "pbtree_contains", "pbtree_range", "sum", "max", "min", "parse_json", "json_stringify",
   "json_get_field", "json_get_index", "json_to_string", "json_to_i64", "json_to_u64", "json_to_bool",
   "json_is_null"].contains name

/-- The names that are taken to read a state. -/
def isReadBuiltin (name : String) : Bool :=
  ["pmap_contains", "pvec_len", "pmap_entries", "pmap_keys", "pmap_values", "pvec_to_array",
   "pbtree_contains", "pbtree_range"].contains name

/-- The key of an entry of another module. -/
def externalKey (module name : String) : String := module ++ "::" ++ name

/-- What a call adds, its arguments apart. -/
def classifyCall (C : Ctx) (module : Option String) (name : String) (acc : EffectClass) : EffectClass :=
  match module with
  | some modName =>
    if name = "bind" ∧ modName ∈ C.ifaceNames then acc
    else acc.join ((C.externals (externalKey modName name)).getD .impure)
  | none =>
    if isPureBuiltin name then acc
    else if isReadBuiltin name then acc.join .readOnly
    else if name ∈ C.imports then acc.join .impure
    else
      match C.locals name with
      | some c => acc.join c
      | none => acc.join .impure

/-- The class of a declared method. -/
def methodClass : InterfaceMethodSig → EffectClass
  | .mk _ _ _ isView isPure => if isPure then .pure else if isView then .readOnly else .impure

/-- The name of a declared method. -/
def methodName : InterfaceMethodSig → String
  | .mk name .. => name

/-- The class of a call through an interface value, from what the type checker found of the method, or
else from the type of the state of that name. -/
def dynClass (stateTypes : List (String × Ty)) (targetIdent method : String) (isView isPure : Bool) :
    EffectClass :=
  if isPure then .pure
  else if isView then .readOnly
  else
    match stateTypes.lookup targetIdent with
    | some (.interface _ methods) =>
      match methods.find? fun s => methodName s == method with
      | some s => methodClass s
      | none => .impure
    | _ => .impure

/-! ### The walk -/

/-- The root of an assignment's target is a state (`assign_target_is_state_with_ctx`). -/
def assignTargetIsState (states : List String) : Expr → Bool
  | .ident name => decide (name ∈ states)
  | .index target _ => assignTargetIsState states target
  | .field target _ => assignTargetIsState states target
  | _ => false

/-- A read of a state by its name. -/
def classifyName (C : Ctx) (name : String) (acc : EffectClass) : EffectClass :=
  if name ∈ C.states then acc.join .readOnly else acc

/-- What an index adds when what is indexed is a name. -/
def classifyIndexed (C : Ctx) (target : Expr) (acc : EffectClass) : EffectClass :=
  match target with
  | .ident name => classifyName C name acc
  | _ => acc

mutual

/-- The walk of an expression (`classify_expr`). -/
def classifyExpr (C : Ctx) : Expr → EffectClass → EffectClass
  | .lit, acc => acc
  | .node operands, acc => classifyExprs C operands acc
  | .ident name, acc => classifyName C name acc
  | .index target key, acc => classifyExpr C key (classifyExpr C target (classifyIndexed C target acc))
  | .field target _, acc => classifyExpr C target acc
  | .reserve count _, acc => classifyExpr C count (acc.join .writeOnly)
  | .comp results clauses, acc => classifyExprs C results (classifyClauses C clauses acc)
  | .dynCall targetIdent method args isView isPure, acc =>
    (classifyExprs C args acc).join (dynClass C.stateTypes targetIdent method isView isPure)
  | .call module name args, acc => classifyCall C module name (classifyExprs C args acc)
  | .matchArms scrut arms, acc => classifyArms C arms (classifyExpr C scrut acc)
  | .block (.mk stmts tail), acc => classifyOpt C tail (classifyStmts C stmts acc)
  | .ite (.mk cond (.mk stmts tail) elseBranch), acc =>
    classifyElse C elseBranch (classifyOpt C tail (classifyStmts C stmts (classifyExpr C cond acc)))

/-- The walk of expressions. -/
def classifyExprs (C : Ctx) : List Expr → EffectClass → EffectClass
  | [], acc => acc
  | e :: es, acc => classifyExprs C es (classifyExpr C e acc)

/-- The walk of an expression that may be absent. -/
def classifyOpt (C : Ctx) : Option Expr → EffectClass → EffectClass
  | none, acc => acc
  | some e, acc => classifyExpr C e acc

/-- The walk of the clauses of a comprehension. -/
def classifyClauses (C : Ctx) : List CompClause → EffectClass → EffectClass
  | [], acc => acc
  | .for _ iter :: clauses, acc => classifyClauses C clauses (classifyExpr C iter acc)
  | .if cond :: clauses, acc => classifyClauses C clauses (classifyExpr C cond acc)

/-- The walk of the arms of a match. -/
def classifyArms (C : Ctx) : List MatchArm → EffectClass → EffectClass
  | [], acc => acc
  | .mk _ body :: arms, acc => classifyArms C arms (classifyExpr C body acc)

/-- The walk of what follows `else` in an expression. -/
def classifyElse (C : Ctx) : ElseBranch → EffectClass → EffectClass
  | .none, acc => acc
  | .block (.mk stmts tail), acc => classifyOpt C tail (classifyStmts C stmts acc)
  | .if inner, acc => classifyIf C inner acc

/-- The walk of a block in a statement, which passes over the tail (`classify_block`). -/
def classifyBlock (C : Ctx) : Block → EffectClass → EffectClass
  | .mk stmts _, acc => classifyStmts C stmts acc

/-- The walk of a conditional in a statement (`classify_if`). -/
def classifyIf (C : Ctx) : IfStmt → EffectClass → EffectClass
  | .mk cond then' elseBranch, acc =>
    classifyElseStmt C elseBranch (classifyBlock C then' (classifyExpr C cond acc))

/-- The walk of what follows `else` in a statement. -/
def classifyElseStmt (C : Ctx) : ElseBranch → EffectClass → EffectClass
  | .none, acc => acc
  | .block body, acc => classifyBlock C body acc
  | .if inner, acc => classifyIf C inner acc

/-- The walk of a statement (`classify_stmt`). -/
def classifyStmt (C : Ctx) : Stmt → EffectClass → EffectClass
  | .let _ value, acc => classifyExpr C value acc
  | .letTuple _ value, acc => classifyExpr C value acc
  | .assign target value, acc =>
    classifyExpr C value (if assignTargetIsState C.states target then acc.join .writeOnly else acc)
  | .return value, acc => classifyOpt C value acc
  | .if branch, acc => classifyIf C branch acc
  | .while cond body, acc => classifyBlock C body (classifyExpr C cond acc)
  -- The limit is not walked.
  | .for _ iter _ body, acc => classifyBlock C body (classifyExpr C iter acc)
  | .forRange _ start stop body, acc => classifyBlock C body (classifyExpr C stop (classifyExpr C start acc))
  | .break, acc => acc
  | .continue, acc => acc
  | .placeholder, acc => acc
  | .expr e, acc => classifyExpr C e acc
  | .delete target, acc => classifyExpr C target (acc.join .writeOnly)
  | .emit value, acc => classifyExpr C value (acc.join .writeOnly)
  | .parallel stmts, acc => classifyStmts C stmts acc
  | .parallelForTo _ _ source output body, acc =>
    classifyBlock C body (classifyExpr C output (classifyExpr C source acc))

/-- The walk of statements. -/
def classifyStmts (C : Ctx) : List Stmt → EffectClass → EffectClass
  | [], acc => acc
  | s :: ss, acc => classifyStmts C ss (classifyStmt C s acc)

end

/-- The class of a function (`classify_fn`). -/
def classifyFn (C : Ctx) (f : FnDef) : EffectClass := classifyBlock C f.body .pure

/-! ### The rounds -/

section Rounds

variable (m : Module) (K : Known)

/-- The walk of one function in a round, with whether a class has changed. -/
def classifyStep (s : Classes × Bool) (f : FnDef) : Classes × Bool :=
  let newClass := classifyFn (m.ctx K s.1) f
  if s.1 f.name = some newClass then s else (s.1.insert f.name newClass, true)

/-- A round over the functions. -/
def classifyRound (effects : Classes) : Classes × Bool := m.functions.foldl (classifyStep m K) (effects, false)

/-- Rounds until no class changes, within a number of them. -/
def classifyLoop : ℕ → Classes → Option Classes
  | 0, _ => none
  | n + 1, effects =>
    let r := classifyRound m K effects
    if r.2 then classifyLoop n r.1 else some r.1

/-- Every function is pure to begin with. -/
def Module.initial : Classes := fun x => if x ∈ m.functions.map FnDef.name then some .pure else none

/-- The classifier gives the functions of the module these classes
(`classify_with_externals_and_iface_names`). -/
def Classifies (effects : Classes) : Prop := ∃ n, classifyLoop m K n m.initial = some effects

end Rounds

/-! ### The declarations -/

/-- An error of the check. -/
structure Error where
  message : String
  span : Span
  deriving DecidableEq

/-- What a class is called in an error (`effect_label`). -/
def effectLabel : EffectClass → String
  | .pure => "pure"
  | .readOnly => "read-only"
  | .writeOnly => "write-only"
  | .readWrite => "read+write"
  | .impure => "impure (host imports or unknown effects)"

/-- A class meets the declaration of a function. -/
def FnDef.allowed (f : FnDef) (actual : EffectClass) : Bool :=
  if f.isPure then actual == .pure else actual == .pure || actual == .readOnly

/-- The check of one function. -/
def verifyFn (effects : Classes) (f : FnDef) : Except Error Unit :=
  if !(f.isView || f.isPure) then .ok ()
  else
    let actual := (effects f.name).getD .impure
    if f.allowed actual then .ok ()
    else
      .error ⟨"function '" ++ f.name ++ "' is declared `" ++ (if f.isPure then "pure" else "view") ++
        "` but its body is " ++ effectLabel actual ++ " (it must avoid " ++
        (if f.isPure then "all state access, host imports, and events"
          else "state writes, host imports, and events") ++ ")", f.span⟩

/-- The check of the declarations of a module (`verify_purity_annotations`). -/
def verifyPurityAnnotations (m : Module) (effects : Classes) : Except Error Unit :=
  m.functions.forM (verifyFn effects)

end Rend.Effects
