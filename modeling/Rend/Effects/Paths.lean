import Rend.Effects.Classify
import Rend.Lib.UsePaths

/-!
# What running a function does

A path of a function lists what is done on it, in order: through either branch of a conditional, through
any number of rounds of a loop or a comprehension, through any arm of a match. Names are resolved as the
compiler resolves them. A variable comes before a state and a state before a constant, whose expression is
put in place of its name; and some calls are operations of the machine whatever functions the module has.

Beside each thing done stands what the classifier joins for that place, if it looks there at all. It does
not look at the tail of a block in a statement, of a function or of a branch after `else if`, at the limit
of a loop, at what the target of an assignment evaluates, at the expression of a constant and at the
target of a dynamic call.

* `FnDef.paths`: the paths of a function.
* `Performs`: what comes of a thing done, through the functions that are called.
-/

namespace Rend.Effects

open Lib Lib.UsePaths

/-! ### Acts and looks -/

/-- What leaves a trace outside a function. -/
inductive Effect
  | read
  | write
  | emit
  /-- A call of a host import. -/
  | host
  deriving DecidableEq

/-- A thing done on a path. -/
inductive Act
  | does (e : Effect)
  | call (fn : String)
  /-- The expression of a constant, among the variables of the place where its name stands. -/
  | const (scope : List String) (name : String)
  | external (module name : String)
  | dynamic (targetIdent method : String)

/-- What the classifier joins at a place: a class, or that of a function of the module. -/
inductive Look
  | cls (c : EffectClass)
  | local (fn : String)

/-- A thing done, with what the classifier joins for it. -/
abbrev Done := Act × Option Look

/-- What is joined at a place, if the classifier looks there. -/
def looked (see : Bool) (l : Look) : Option Look := if see then some l else none

/-- Effects on the state of a place, with what is joined for each. -/
def touch : List (Effect × Option Look) → Set (Path Done)
  | [] => skip
  | (e, l) :: es => seq (use (.does e, l)) (touch es)

/-! ### Names -/

section Names

variable (m : Module)

/-- The type of a state, as the compiler keeps it. -/
def Module.stateType (s : String) : Option Ty := (m.states.lookup s).map Artifact.stripExplicitLiteral

/-- A type whose entries are read by key. -/
def isKeyed : Ty → Bool
  | .map .. | .pmap .. | .pbtree .. | .pvec _ => true
  | _ => false

/-- A type a loop goes through entry by entry. -/
def isStreamed : Ty → Bool
  | .pmap .. | .pbtree .. | .pvec _ => true
  | _ => false

/-- A type whose entries can be deleted. -/
def isDeletable : Ty → Bool
  | .pmap .. | .pbtree .. => true
  | _ => false

/-- An expression that is the name of a state of a kind. -/
def isStateOf (kind : Ty → Bool) : Expr → Bool
  | .ident s => (m.stateType s).any kind
  | _ => false

/-- A chain of fields of a state that no variable hides, with the state (`try_state_field_path`). -/
def statePath (Γ : List String) : Expr → Option (String × List String)
  | .ident x => if x ∉ Γ ∧ x ∈ m.stateNames then some (x, []) else none
  | .field target name => (statePath Γ target).map fun p => (p.1, p.2 ++ [name])
  | _ => none

/-- One of the fields on a path is kept in one cell with others. -/
def inGroup : Ty → List String → Bool
  | .struct _ fields fieldGroups, name :: path =>
    ((fieldGroups[fields.findIdx fun f => f.1 == name]?).getD none).isSome ||
      (match fields.lookup name with
        | some t => inGroup t path
        | none => false)
  | _, _ => false

/-- The paths of a name. -/
def identPaths (see : Bool) (Γ : List String) (x : String) : Set (Path Done) :=
  if x ∈ Γ then skip
  else if x ∈ m.stateNames then touch [(.read, looked see (.cls .readOnly))]
  else if x ∈ m.consts.map Prod.fst then use (.const Γ x, none)
  else ∅

/-- The output of a parallel loop, which must be a variable. -/
def outputPaths (Γ : List String) : Expr → Set (Path Done)
  | .ident x => if x ∈ Γ then skip else ∅
  | _ => ∅

end Names

/-! ### Calls -/

/-- What a call runs. -/
inductive Target
  /-- An operation on the values of the arguments. -/
  | builtin
  /-- An operation on the state the first argument names, with this many further arguments. -/
  | state (operands : ℕ) (writes : Bool)
  | external (module name : String)
  | host
  | function (name : String)
  /-- Nothing: the module is not compiled. -/
  | undefined

/-- The operations on a state: how many arguments follow its name, and whether the state is written. -/
def stateOps : List (String × ℕ × Bool) :=
  [("pvec_push", 1, true), ("pvec_len", 0, false), ("pbtree_contains", 1, false), ("pbtree_range", 2, false),
   ("pmap_contains", 1, false), ("pmap_entries", 0, false), ("pmap_keys", 0, false),
   ("pmap_values", 0, false), ("pvec_to_array", 0, false)]

/-- The operations on values with any number of arguments. -/
def valueOps : List String :=
  ["set_insert", "set_remove", "set_contains", "set_len", "dict_set", "dict_remove", "dict_get", "dict_has",
   "dict_len", "assert", "to_bytes", "bytes_len", "bytes_concat", "bytes_eq", "bytes_slice", "to_be_bytes",
   "bit_not_bytes", "string_concat", "string_slice", "string_contains", "sum", "max", "min", "parse_json",
   "json_stringify", "json_get_field", "json_get_index", "json_to_string", "json_to_i64", "json_to_u64",
   "json_to_bool", "json_is_null"]

section Calls

variable (m : Module) (K : Known)

/-- The names of the functions of a module. -/
def Module.fnNames : List String := m.functions.map FnDef.name

/-- An operation on a state, when the first argument names one. -/
def resolveState (op : ℕ × Bool) : List Expr → Target
  | .ident s :: _ => if s ∈ m.stateNames then .state op.1 op.2 else .undefined
  | _ => .undefined

/-- What the compiler makes of a call. Operations come first, whatever module is written before them; a
function named `sum`, `max` or `min` comes before the operation of that name. -/
def resolve (module : Option String) (name : String) (args : List Expr) : Target :=
  if name ∈ ["resource", "unwrap", "address", "len"] ∧ args.length = 1 then .builtin
  else
    match stateOps.lookup name with
    | some op => resolveState m op args
    | none =>
      if name ∈ valueOps ∧ ¬ (name ∈ ["sum", "max", "min"] ∧ name ∈ m.fnNames) then .builtin
      else if name ∈ ["msg_sender", "block_timestamp", "block_number"] ∧ args.length = 0 then .builtin
      else if name ∈ ["i64", "i32", "u32", "u64", "u128"] ∧ args.length = 1 then .builtin
      else
        match module with
        | some modName =>
          if name = "bind" ∧ modName ∈ m.ifaceNames K ∧ args.length = 1 then .builtin else .external modName name
        | none =>
          if name ∈ m.imports then .host else if name ∈ m.fnNames then .function name else .undefined

/-- What the classifier joins for a call, its arguments apart. -/
def callLook (module : Option String) (name : String) : Look :=
  match module with
  | some modName =>
    if name = "bind" ∧ modName ∈ m.ifaceNames K then .cls .pure
    else .cls ((K.externals (externalKey modName name)).getD .impure)
  | none =>
    if isPureBuiltin name then .cls .pure
    else if isReadBuiltin name then .cls .readOnly
    else if name ∈ m.imports then .cls .impure
    else if name ∈ m.fnNames then .local name
    else .cls .impure

/-- Which arguments of a call are evaluated. -/
def Target.evaluates : Target → ℕ → Bool
  | .state operands _, i => decide (1 ≤ i ∧ i ≤ operands)
  | _, _ => true

/-- The paths of a call once its arguments are evaluated. -/
def Target.paths (see : Bool) (look : Look) : Target → Set (Path Done)
  | .builtin => skip
  -- The read is joined where the name of the state stands.
  | .state _ writes =>
    touch ((.read, looked see (.cls .readOnly)) :: if writes then [(.write, looked see look)] else [])
  | .external module name => use (.external module name, looked see look)
  | .host => touch [(.host, looked see look)]
  | .function name => use (.call name, looked see look)
  | .undefined => ∅

end Calls

/-! ### Paths -/

/-- The names the clauses of a comprehension introduce. -/
def clauseVars : List CompClause → List String
  | [] => []
  | .for var _ :: clauses => clauseVars clauses ++ [var]
  | .if _ :: clauses => clauseVars clauses

/-- The names a pattern introduces. -/
def MatchPattern.vars : MatchPattern → List String
  | .wildcard => []
  | .enumVariant bindings => bindings

mutual

/-- The names a statement introduces for those after it. -/
def Stmt.vars : Stmt → List String
  | .let name _ => [name]
  | .letTuple names _ => names
  | .parallel stmts => stmtsVars stmts
  | _ => []

/-- The names statements introduce for what follows them. -/
def stmtsVars : List Stmt → List String
  | [] => []
  | s :: ss => stmtsVars ss ++ s.vars

end

section Walk

variable (m : Module) (K : Known)

mutual

/-- The paths of an expression. `see` says whether the classifier walks it, `Γ` which variables there are. -/
def exprPaths (see : Bool) (Γ : List String) : Expr → Set (Path Done)
  | .lit => skip
  | .node operands => exprsPaths see Γ (fun _ => true) operands
  | .ident x => identPaths m see Γ x
  | .index target key =>
    let keyed := isStateOf m isKeyed target
    seq (if keyed then skip else exprPaths see Γ target)
      (seq (exprPaths see Γ key) (if keyed then touch [(.read, looked see (.cls .readOnly))] else skip))
  | .field target _ => exprPaths see Γ target
  | .reserve count state =>
    seq (exprPaths see Γ count)
      (if state ∈ m.stateNames then
        touch [(.read, looked see (.cls .writeOnly)), (.write, looked see (.cls .writeOnly))]
      else ∅)
  | .comp results clauses =>
    compPaths see Γ clauses (exprsPaths see (clauseVars clauses ++ Γ) (fun _ => true) results)
  | .dynCall targetIdent method args isView isPure =>
    seq (identPaths m false Γ targetIdent) (seq (exprsPaths see Γ (fun _ => true) args)
      (use (.dynamic targetIdent method,
        looked see (.cls (dynClass m.states targetIdent method isView isPure)))))
  | .call module name args =>
    let target := resolve m K module name args
    seq (exprsPaths see Γ target.evaluates args) (target.paths see (callLook m K module name))
  | .matchArms scrut arms => seq (exprPaths see Γ scrut) (armsPaths see Γ arms)
  | .block body => blockPaths see true Γ body
  | .ite branch => ifPaths see true Γ branch

/-- The paths of those of the expressions that are evaluated, in order. -/
def exprsPaths (see : Bool) (Γ : List String) (evaluated : ℕ → Bool) : List Expr → Set (Path Done)
  | [] => skip
  | e :: es =>
    seq (if evaluated 0 then exprPaths see Γ e else skip) (exprsPaths see Γ (fun i => evaluated (i + 1)) es)

/-- The paths of an expression that may be absent. -/
def optPaths (see : Bool) (Γ : List String) : Option Expr → Set (Path Done)
  | none => skip
  | some e => exprPaths see Γ e

/-- The paths of the clauses of a comprehension over those of its results. -/
def compPaths (see : Bool) (Γ : List String) : List CompClause → Set (Path Done) → Set (Path Done)
  | [], A => A
  | .for var iter :: clauses, A =>
    seq (if isStateOf m isStreamed iter then touch [(.read, looked see (.cls .readOnly))] else exprPaths see Γ iter)
      (rounds skip (compPaths see (var :: Γ) clauses A))
  | .if cond :: clauses, A => seq (exprPaths see Γ cond) (skip ∪ compPaths see Γ clauses A)

/-- The paths of the arms of a match. No arm after `_` is run. -/
def armsPaths (see : Bool) (Γ : List String) : List MatchArm → Set (Path Done)
  | [] => ∅
  | .mk .wildcard body :: _ => exprPaths see Γ body
  | .mk (.enumVariant bindings) body :: arms => exprPaths see (bindings ++ Γ) body ∪ armsPaths see Γ arms

/-- The paths of a block. `tailSeen` says whether the classifier walks its tail. -/
def blockPaths (see tailSeen : Bool) (Γ : List String) : Block → Set (Path Done)
  | .mk stmts tail => seq (stmtsPaths see Γ stmts) (optPaths (see && tailSeen) (stmtsVars stmts ++ Γ) tail)

/-- The paths of a conditional. After `else if` the tails are not walked. -/
def ifPaths (see tailSeen : Bool) (Γ : List String) : IfStmt → Set (Path Done)
  | .mk cond then' elseBranch =>
    seq (exprPaths see Γ cond) (blockPaths see tailSeen Γ then' ∪ elsePaths see tailSeen Γ elseBranch)

/-- The paths of what follows `else`. -/
def elsePaths (see tailSeen : Bool) (Γ : List String) : ElseBranch → Set (Path Done)
  | .none => skip
  | .block body => blockPaths see tailSeen Γ body
  | .if inner => ifPaths see false Γ inner

/-- The paths of the write of an assignment (`assign_path`). The nodes of a tree and the cell of a group are
read first. What has a field that is no state's is evaluated, and written back. -/
def assignPaths (Γ : List String) (look : Option Look) : Expr → Set (Path Done)
  | .ident x =>
    if x ∈ Γ then skip else if x ∈ m.stateNames then touch [(.write, look)] else ∅
  | .index target key =>
    if isStateOf m isKeyed target then
      seq (exprPaths false Γ key)
        (touch ((if isStateOf m isStreamed target then [(.read, look)] else []) ++ [(.write, look)]))
    else ∅
  | .field inner name =>
    match statePath m Γ (.field inner name) with
    | some (s, path) =>
      touch ((if (m.stateType s).any (inGroup · path) then [(.read, look)] else []) ++ [(.write, look)])
    | none => seq (exprPaths false Γ inner) (assignPaths Γ look inner)
  | _ => ∅

/-- The paths of a deletion (`compile_delete`). -/
def deletePaths (see : Bool) (Γ : List String) : Expr → Set (Path Done)
  | .index target key =>
    if isStateOf m isDeletable target then
      seq (exprPaths see Γ key)
        (touch [(.read, looked see (.cls .writeOnly)), (.write, looked see (.cls .writeOnly))])
    else ∅
  | _ => ∅

/-- The paths of a statement. -/
def stmtPaths (see : Bool) (Γ : List String) : Stmt → Set (Path Done)
  | .let _ value => exprPaths see Γ value
  | .letTuple _ value => exprPaths see Γ value
  | .assign target value =>
    seq (exprPaths see Γ value)
      (assignPaths Γ (looked (see && assignTargetIsState m.stateNames target) (.cls .writeOnly)) target)
  | .return value => seq (optPaths see Γ value) (jump .return)
  | .if branch => ifPaths see false Γ branch
  | .while cond body => loop (exprPaths see Γ cond) (seq (exprPaths see Γ cond) (blockPaths see false Γ body))
  | .for var iter limit body =>
    seq (optPaths false Γ limit)
      (seq (if isStateOf m isStreamed iter then touch [(.read, looked see (.cls .readOnly))] else exprPaths see Γ iter)
        (loop skip (blockPaths see false (var :: Γ) body)))
  | .forRange var start stop body =>
    seq (exprPaths see Γ start) (seq (exprPaths see Γ stop) (loop skip (blockPaths see false (var :: Γ) body)))
  | .break => jump .break
  | .continue => jump .continue
  | .placeholder => ∅
  | .expr e => exprPaths see Γ e
  | .delete target => deletePaths see Γ target
  | .emit value => seq (exprPaths see Γ value) (touch [(.emit, looked see (.cls .writeOnly))])
  | .parallel stmts => legsPaths see Γ stmts
  | .parallelForTo idVar idxVar source output body =>
    seq (exprPaths see Γ source) (seq (outputPaths Γ output)
      (rounds skip (Set.image Path.finish (blockPaths see false (idVar :: idxVar.toList ++ Γ) body))))

/-- The paths of statements. -/
def stmtsPaths (see : Bool) (Γ : List String) : List Stmt → Set (Path Done)
  | [] => skip
  | s :: ss => seq (stmtPaths see Γ s) (stmtsPaths see (s.vars ++ Γ) ss)

/-- The paths of the statements of a parallel block. A jump ends one of them only. -/
def legsPaths (see : Bool) (Γ : List String) : List Stmt → Set (Path Done)
  | [] => skip
  | s :: ss => seq (Set.image Path.finish (stmtPaths see Γ s)) (legsPaths see (s.vars ++ Γ) ss)

end

/-- The paths of a function, whose tail the classifier does not walk. -/
def FnDef.paths (f : FnDef) : Set (Path Done) := blockPaths m K true false f.params f.body

/-- What the entries of other modules do, and the methods that may be bound to an interface value. -/
structure World where
  external : String → String → Effect → Prop
  dynamic : String → String → Effect → Prop

/-- What comes of a thing done: an effect of its own, or one of what it calls or stands for. -/
inductive Performs (W : World) : Act → Effect → Prop
  | does {e : Effect} : Performs W (.does e) e
  | call {f : FnDef} {p : Path Done} {d : Done} {e : Effect} (hf : f ∈ m.functions) (hp : p ∈ f.paths m K)
      (hd : d ∈ p.uses) (h : Performs W d.1 e) : Performs W (.call f.name) e
  | const {Γ : List String} {c : String} {value : Expr} {p : Path Done} {d : Done} {e : Effect}
      (hc : (c, value) ∈ m.consts) (hp : p ∈ exprPaths m K false Γ value) (hd : d ∈ p.uses)
      (h : Performs W d.1 e) : Performs W (.const Γ c) e
  | external {modName name : String} {e : Effect} (h : W.external modName name e) :
      Performs W (.external modName name) e
  | dynamic {target method : String} {e : Effect} (h : W.dynamic target method e) :
      Performs W (.dynamic target method) e

variable {m K}

/-- The more other modules do, the more comes of a thing done. -/
theorem Performs.mono {W W' : World} (hext : ∀ modName name e, W.external modName name e → W'.external modName name e)
    (hdyn : ∀ target method e, W.dynamic target method e → W'.dynamic target method e) {a : Act} {e : Effect}
    (h : Performs m K W a e) : Performs m K W' a e := by
  induction h with
  | does => exact .does
  | call hf hp hd _ ih => exact .call hf hp hd ih
  | const hc hp hd _ ih => exact .const hc hp hd ih
  | external h => exact .external (hext _ _ _ h)
  | dynamic h => exact .dynamic (hdyn _ _ _ h)

end Walk

end Rend.Effects
