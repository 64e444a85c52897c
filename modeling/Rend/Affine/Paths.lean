import Rend.Affine.Inline
import Rend.Lib.UsePaths

/-!
# The paths of a function

What running a piece of the tree uses by value, on every path: through either branch of a conditional,
through any number of rounds of a loop or a comprehension, through any arm of a match and through the
tails of the blocks. A field whose type is not Copy takes its value out of the variable it is read from.
What a pipe stage leads on is a variable too, `$$`. What counts as Copy is left open: the pass has its own opinion.

Beside it stands what the pass makes of the same piece: where it does not look (`Spot.unseen`), and where
it looks once at what is run again and again (`Spot.looped`). `careful` asks of a variable whose type is
not Copy that the pass looks at it wherever it stands, or that it stands in one place only.
-/

namespace Rend.Affine

open Lib Lib.UsePaths

/-! ### Paths -/

variable (copy : Ty → Bool)

/-- The variables that are bound, with whether they are to be used once. -/
def once (names : List (String × Ty)) : List (String × Bool) := names.map fun n => (n.1, !copy n.2)

/-- The variable and the index of a round of a parallel loop. -/
def roundVars (idVar : String) (ty : Ty) (idxVar : Option String) : List (String × Ty) :=
  (idVar, ty) :: idxVar.toList.map fun i => (i, .int)

/-- What a pipe stage is named in the stage after it. -/
def pipeVar : String := "$$"

mutual

/-- The paths of an expression. -/
def exprPaths : Expr → Set (Path String)
  | .lit _ => skip
  | .json items => exprsPaths false items
  | .ident x _ => use x
  | .const _ _ value => exprPaths value
  | .op .logical operands => exprsPaths true operands
  | .op _ operands => exprsPaths false operands
  | .call _ _ args _ => exprsPaths false args
  | .dynCall x args => seq (use x) (exprsPaths false args)
  | .index target key => seq (exprPaths target) (exprPaths key)
  | .explicitLiteral inner => exprPaths inner
  | .structLit _ fields => exprsPaths false fields
  | .field (.ident x _) _ ty => if copy ty then skip else use x
  | .field root _ _ => exprPaths root
  | .prev => use pipeVar
  | .pipe head ty step => seq (exprPaths head) (bind pipeVar (!copy ty) (exprPaths step))
  | .comp results clauses => compPaths clauses (exprsPaths false results)
  | .matchArms scrut arms => seq (exprPaths scrut) (armsPaths arms)
  | .block body => blockPaths body
  | .ite branch => ifPaths branch

/-- The paths of expressions in order. Those of `&&` and `||` may stop after any of them. -/
def exprsPaths (short : Bool) : List Expr → Set (Path String)
  | [] => skip
  | e :: es => seq (exprPaths e) (if short then skip ∪ exprsPaths short es else exprsPaths short es)

/-- The paths of an expression that may be absent. -/
def optPaths : Option Expr → Set (Path String)
  | none => skip
  | some e => exprPaths e

/-- The paths of the clauses of a comprehension over those of its results. -/
def compPaths : List CompClause → Set (Path String) → Set (Path String)
  | [], K => K
  | .for x ty iter :: clauses, K =>
    seq (exprPaths iter) (rounds skip (bind x (!copy ty) (compPaths clauses K)))
  | .if cond :: clauses, K => seq (exprPaths cond) (skip ∪ compPaths clauses K)

/-- The paths of the arms of a match. -/
def armsPaths : List MatchArm → Set (Path String)
  | [] => ∅
  | .mk bindings body :: arms => bindAll (once copy bindings) (exprPaths body) ∪ armsPaths arms

/-- The paths of what an assignment evaluates to find its place. -/
def placePaths : Place → Set (Path String)
  | .var _ => skip
  | .index _ key => exprPaths key
  | .field base _ => placePaths base

/-- The paths of a block. -/
def blockPaths : Block → Set (Path String)
  | .mk stmts tail => stmtsPaths stmts (optPaths tail)

/-- The paths of a conditional. -/
def ifPaths : IfStmt → Set (Path String)
  | .mk cond then' elseBranch => seq (exprPaths cond) (blockPaths then' ∪ elsePaths elseBranch)

/-- The paths of what follows `else`. -/
def elsePaths : ElseBranch → Set (Path String)
  | .none => skip
  | .block body => blockPaths body
  | .if inner => ifPaths inner

/-- The paths of a statement and of what follows it in its block. -/
def stmtPaths : Stmt → Set (Path String) → Set (Path String)
  | .let x declared inferred value, K =>
    seq (exprPaths value) (bind x (!copy (declared.getD inferred)) K)
  | .letTuple names value, K => seq (exprPaths value) (bindAll (once copy names) K)
  | .assign target value, K => seq (exprPaths value) (seq (placePaths target) K)
  | .return value, _ => seq (optPaths value) (jump .return)
  | .if branch, K => seq (ifPaths branch) K
  | .while cond body, K => seq (loop (exprPaths cond) (seq (exprPaths cond) (blockPaths body))) K
  | .for x ty iter limit body, K =>
    seq (exprPaths iter) (seq (optPaths limit) (seq (loop skip (bind x (!copy ty) (blockPaths body))) K))
  | .forRange x ty start stop body, K =>
    seq (exprPaths start) (seq (exprPaths stop) (seq (loop skip (bind x (!copy ty) (blockPaths body))) K))
  | .break, _ => jump .break
  | .continue, _ => jump .continue
  | .placeholder, K => K
  | .expr e, K => seq (exprPaths e) K
  | .parallel stmts, K => stmtsPaths stmts K
  | .parallelForTo x ty idx source output body, K =>
    seq (exprPaths source) (seq (exprPaths output)
      (seq (loop skip (bindAll (once copy (roundVars x ty idx)) (blockPaths body))) K))

/-- The paths of statements and of what follows them. -/
def stmtsPaths : List Stmt → Set (Path String) → Set (Path String)
  | [], K => K
  | s :: ss, K => stmtPaths s (stmtsPaths ss K)

end

/-- The parameters of a function with their types. -/
def FnDef.vars (f : FnDef) : List (String × Ty) := f.params.map fun p => (p.name, p.ty)

/-- The paths of a function. -/
def FnDef.paths (f : FnDef) : Set (Path String) := bindAll (once copy f.vars) (blockPaths copy f.body)

/-! ### Where the variables stand -/

/-- How the pass looks at a place where a variable stands: where it is run at most once, at all or not;
or where it is run again and again. -/
inductive Spot
  | seen
  | unseen
  | looped
  deriving DecidableEq

/-- A free variable and the place where it stands. -/
abbrev Occ := String × Spot

/-- The places in a part that the pass passes over. -/
def hide (l : List Occ) : List Occ := l.map fun o => (o.1, if o.2 = .looped then .looped else .unseen)

/-- The places in a part that is run again and again. -/
def repeated (l : List Occ) : List Occ := l.map fun o => (o.1, .looped)

/-- The places of other variables. -/
def without (names : List String) (l : List Occ) : List Occ := l.filter fun o => o.1 ∉ names

mutual

/-- The places in an expression. -/
def exprOccs : Expr → List Occ
  | .lit _ => []
  | .json items => hide (exprsOccs items)
  | .ident x _ => [(x, .seen)]
  | .const _ _ value => hide (exprOccs value)
  | .op _ operands => exprsOccs operands
  | .call _ _ args _ => exprsOccs args
  | .dynCall x args => (x, .unseen) :: exprsOccs args
  | .index target key => exprOccs target ++ exprOccs key
  | .explicitLiteral inner => exprOccs inner
  | .structLit _ fields => exprsOccs fields
  | .field (.ident x _) _ ty => if copy ty then [] else [(x, .unseen)]
  | .field root _ _ => exprOccs root
  | .prev => [(pipeVar, .unseen)]
  | .pipe head _ step => exprOccs head ++ without [pipeVar] (exprOccs step)
  | .comp results clauses => compOccs clauses (exprsOccs results)
  | .matchArms scrut arms => exprOccs scrut ++ armsOccs arms
  | .block body => blockOccs true body
  | .ite branch => ifOccs true branch

/-- The places in expressions. -/
def exprsOccs : List Expr → List Occ
  | [] => []
  | e :: es => exprOccs e ++ exprsOccs es

/-- The places in an expression that may be absent. -/
def optOccs : Option Expr → List Occ
  | none => []
  | some e => exprOccs e

/-- The places in the clauses of a comprehension and in its results. -/
def compOccs : List CompClause → List Occ → List Occ
  | [], k => k
  | .for x _ iter :: clauses, k => exprOccs iter ++ repeated (without [x] (compOccs clauses k))
  | .if cond :: clauses, k => exprOccs cond ++ compOccs clauses k

/-- The places in the arms of a match. -/
def armsOccs : List MatchArm → List Occ
  | [] => []
  | .mk bindings body :: arms => without (bindings.map Prod.fst) (exprOccs body) ++ armsOccs arms

/-- The places in the place of an assignment: the pass looks at a key that stands outermost. -/
def placeOccs : Place → List Occ
  | .var _ => []
  | .index _ key => exprOccs key
  | .field base _ => hide (placeOccs base)

/-- The places in a block, whose tail the pass walks or does not. -/
def blockOccs (walked : Bool) : Block → List Occ
  | .mk stmts tail => stmtsOccs stmts (if walked then optOccs tail else hide (optOccs tail))

/-- The places in a conditional. -/
def ifOccs (walked : Bool) : IfStmt → List Occ
  | .mk cond then' elseBranch => exprOccs cond ++ (blockOccs walked then' ++ elseOccs walked elseBranch)

/-- The places in what follows `else`. -/
def elseOccs (walked : Bool) : ElseBranch → List Occ
  | .none => []
  | .block body => blockOccs walked body
  | .if inner => ifOccs walked inner

/-- The places in a statement and in what follows it in its block. -/
def stmtOccs : Stmt → List Occ → List Occ
  | .let x _ _ value, k => exprOccs value ++ without [x] k
  | .letTuple names value, k => exprOccs value ++ without (names.map Prod.fst) k
  | .assign target value, k => exprOccs value ++ (placeOccs target ++ k)
  | .return value, k => optOccs value ++ k
  | .if branch, k => ifOccs false branch ++ k
  | .while cond body, k => repeated (exprOccs cond ++ blockOccs false body) ++ k
  | .for x _ iter limit body, k =>
    exprOccs iter ++ (hide (optOccs limit) ++ (repeated (without [x] (blockOccs false body)) ++ k))
  | .forRange x _ start stop body, k =>
    exprOccs start ++ (exprOccs stop ++ (repeated (without [x] (blockOccs false body)) ++ k))
  | .break, k => k
  | .continue, k => k
  | .placeholder, k => k
  | .expr e, k => exprOccs e ++ k
  | .parallel stmts, k => stmtsOccs stmts k
  | .parallelForTo x ty idx source output body, k =>
    exprOccs source ++ (exprOccs output ++
      (repeated (without ((roundVars x ty idx).map Prod.fst) (blockOccs false body)) ++ k))

/-- The places in statements and in what follows them. -/
def stmtsOccs : List Stmt → List Occ → List Occ
  | [], k => k
  | s :: ss, k => stmtOccs s (stmtsOccs ss k)

end

/-! ### The variables the pass keeps track of -/

/-- The types the pass keeps for the variables in scope. -/
abbrev Types := String → Option Ty

/-- The type the pass gives an expression. -/
def passType (C : Ctx) (Γ : Types) : Expr → Ty
  | .lit ty => ty
  | .json _ => .json
  | .ident x _ | .const x _ _ => (Γ x).getD ((C.states.lookup x).getD .int)
  | .call none name _ _ => (C.sigs.lookup name).getD .int
  | .index target _ => indexType C target
  | .explicitLiteral inner => passType C Γ inner
  | .structLit name _ => structLitType C name
  | _ => .int

/-- Names the pass does not type. -/
def untyped (Γ : Types) (names : List (String × Ty)) : Types :=
  names.foldl (fun Γ n => Function.update Γ n.1 (some .int)) Γ

mutual

/-- The types after a statement. -/
def stmtTypes (C : Ctx) : Stmt → Types → Types
  | .let x declared _ value, Γ => Function.update Γ x (some (declared.getD (passType C Γ value)))
  | .letTuple names _, Γ => untyped Γ names
  | .parallel stmts, Γ => stmtsTypes C stmts Γ
  | _, Γ => Γ

/-- The types after statements. -/
def stmtsTypes (C : Ctx) : List Stmt → Types → Types
  | [], Γ => Γ
  | s :: ss, Γ => stmtsTypes C ss (stmtTypes C s Γ)

end

/-- The types in the results of a comprehension. -/
def compTypes : List CompClause → Types → Types
  | [], Γ => Γ
  | .for x _ _ :: clauses, Γ => compTypes clauses (Function.update Γ x (some .int))
  | .if _ :: clauses, Γ => compTypes clauses Γ

/-- A variable, of a type and of a type the pass keeps for it, may be consumed once at most. Its type is
Copy; or the pass walks its scope, keeps a type that is not Copy and looks at the variable wherever it
stands; or it stands in one place of its scope, and not in a loop. -/
def careful (walked : Bool) (x : String) (ty kept : Ty) (scope : List Occ) : Bool :=
  copy ty || (walked && !kept.isCopy && scope.all fun o => o.1 ≠ x || o.2 = .seen)
    || (decide (scope.countP (fun o => o.1 = x) ≤ 1) && decide ((x, Spot.looped) ∉ scope))

/-- `careful` for variables the pass does not type. -/
def carefulAll : List (String × Ty) → List Occ → Bool
  | [], _ => true
  | n :: ns, scope => careful copy false n.1 n.2 .int (without (ns.map Prod.fst) scope) && carefulAll ns scope

mutual

/-- Every variable an expression binds is `careful`. -/
def exprTame (C : Ctx) (walked : Bool) : Expr → Types → Bool
  | .lit _, _ => true
  | .json items, Γ => exprsTame C false items Γ
  | .ident .., _ => true
  | .const _ _ value, Γ => exprTame C false value Γ
  | .op _ operands, Γ => exprsTame C walked operands Γ
  | .call _ _ args _, Γ => exprsTame C walked args Γ
  | .dynCall _ args, Γ => exprsTame C walked args Γ
  | .index target key, Γ => exprTame C walked target Γ && exprTame C walked key Γ
  | .explicitLiteral inner, Γ => exprTame C walked inner Γ
  | .structLit _ fields, Γ => exprsTame C walked fields Γ
  | .field root _ _, Γ => exprTame C walked root Γ
  | .prev, _ => true
  | .pipe head ty step, Γ =>
    exprTame C walked head Γ && (careful copy false pipeVar ty .int (exprOccs copy step) && exprTame C walked step Γ)
  | .comp results clauses, Γ =>
    compTame C walked clauses (exprsOccs copy results) Γ && exprsTame C walked results (compTypes clauses Γ)
  | .matchArms scrut arms, Γ => exprTame C walked scrut Γ && armsTame C walked arms Γ
  | .block body, Γ => blockTame C walked true body Γ
  | .ite branch, Γ => ifTame C walked true branch Γ

/-- Every variable the expressions bind is `careful`. -/
def exprsTame (C : Ctx) (walked : Bool) : List Expr → Types → Bool
  | [], _ => true
  | e :: es, Γ => exprTame C walked e Γ && exprsTame C walked es Γ

/-- Every variable an expression binds, if it is there, is `careful`. -/
def optTame (C : Ctx) (walked : Bool) : Option Expr → Types → Bool
  | none, _ => true
  | some e, Γ => exprTame C walked e Γ

/-- Every variable the clauses of a comprehension bind is `careful`. -/
def compTame (C : Ctx) (walked : Bool) : List CompClause → List Occ → Types → Bool
  | [], _, _ => true
  | .for x ty iter :: clauses, k, Γ =>
    exprTame C walked iter Γ && (careful copy false x ty .int (compOccs copy clauses k)
      && compTame C walked clauses k (Function.update Γ x (some .int)))
  | .if cond :: clauses, k, Γ => exprTame C walked cond Γ && compTame C walked clauses k Γ

/-- Every variable the arms of a match bind is `careful`. -/
def armsTame (C : Ctx) (walked : Bool) : List MatchArm → Types → Bool
  | [], _ => true
  | .mk bindings body :: arms, Γ => carefulAll copy bindings (exprOccs copy body)
      && (exprTame C walked body (untyped Γ bindings) && armsTame C walked arms Γ)

/-- Every variable the place of an assignment binds is `careful`. -/
def placeTame (C : Ctx) (walked : Bool) : Place → Types → Bool
  | .var _, _ => true
  | .index _ key, Γ => exprTame C walked key Γ
  | .field base _, Γ => placeTame C false base Γ

/-- Every variable a block binds is `careful`. The pass may walk the block and not its tail. -/
def blockTame (C : Ctx) (walked seesTail : Bool) : Block → Types → Bool
  | .mk stmts tail, Γ =>
    stmtsTame C walked stmts (if seesTail then optOccs copy tail else hide (optOccs copy tail)) Γ
      && optTame C (walked && seesTail) tail (stmtsTypes C stmts Γ)

/-- Every variable a conditional binds is `careful`. -/
def ifTame (C : Ctx) (walked seesTail : Bool) : IfStmt → Types → Bool
  | .mk cond then' elseBranch, Γ => exprTame C walked cond Γ
      && (blockTame C walked seesTail then' Γ && elseTame C walked seesTail elseBranch Γ)

/-- Every variable bound after `else` is `careful`. -/
def elseTame (C : Ctx) (walked seesTail : Bool) : ElseBranch → Types → Bool
  | .none, _ => true
  | .block body, Γ => blockTame C walked seesTail body Γ
  | .if inner, Γ => ifTame C walked seesTail inner Γ

/-- Every variable a statement binds, for itself or for what follows, is `careful`. -/
def stmtTame (C : Ctx) (walked : Bool) : Stmt → List Occ → Types → Bool
  | .let x declared inferred value, k, Γ => exprTame C walked value Γ
      && careful copy walked x (declared.getD inferred) (declared.getD (passType C Γ value)) k
  | .letTuple names value, k, Γ => exprTame C walked value Γ && carefulAll copy names k
  | .assign target value, _, Γ => exprTame C walked value Γ && placeTame C walked target Γ
  | .return value, _, Γ => optTame C walked value Γ
  | .if branch, _, Γ => ifTame C walked false branch Γ
  | .while cond body, _, Γ => exprTame C walked cond Γ && blockTame C walked false body Γ
  | .for x ty iter limit body, _, Γ =>
    exprTame C walked iter Γ && (optTame C false limit Γ && (careful copy false x ty .int (blockOccs copy false body)
      && blockTame C walked false body (Function.update Γ x (some .int))))
  | .forRange x ty start stop body, _, Γ =>
    exprTame C walked start Γ && (exprTame C walked stop Γ && (careful copy false x ty .int (blockOccs copy false body)
      && blockTame C walked false body (Function.update Γ x (some .int))))
  | .break, _, _ => true
  | .continue, _, _ => true
  | .placeholder, _, _ => true
  | .expr e, _, Γ => exprTame C walked e Γ
  | .parallel stmts, k, Γ => stmtsTame C walked stmts k Γ
  | .parallelForTo x ty idx source output body, _, Γ =>
    exprTame C walked source Γ && (exprTame C walked output Γ &&
      (carefulAll copy (roundVars x ty idx) (blockOccs copy false body)
        && blockTame C walked false body (Function.update Γ x (some .u64))))

/-- Every variable the statements bind is `careful`. -/
def stmtsTame (C : Ctx) (walked : Bool) : List Stmt → List Occ → Types → Bool
  | [], _, _ => true
  | s :: ss, k, Γ => stmtTame C walked s (stmtsOccs copy ss k) Γ && stmtsTame C walked ss k (stmtTypes C s Γ)

end

/-- `careful` for the parameters of a function, in the scope of those after them. -/
def carefulParams : List Param → List Occ → Bool
  | [], _ => true
  | p :: ps, scope => careful copy true p.name p.ty p.ty (without (ps.map fun q => q.name) scope)
      && carefulParams ps scope

/-- The types of the parameters. -/
def paramTypes (params : List Param) : Types :=
  params.foldl (fun Γ p => Function.update Γ p.name (some p.ty)) fun _ => none

/-- Every variable of a function is `careful`. -/
def FnDef.tame (C : Ctx) (f : FnDef) : Bool :=
  carefulParams copy f.params (blockOccs copy false f.body) && blockTame copy C true false f.body (paramTypes f.params)

end Rend.Affine
