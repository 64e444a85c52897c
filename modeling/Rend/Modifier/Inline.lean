import Rend.Modifier.Expand

/-!
# Complete inlining

What the expansion should do to the parameters of a modifier: `inlineExpr` and its companions replace them
wherever a name stands for a value. The target of a call on an interface is a name and stays one, so an
argument in its place has to be a name too (`Named`).

`identsExpr` and its companions list the names that stand for values, each with the place it stands at: where
the walk of the expansion goes, where it does not, or as the target of a call on an interface. The walk and
complete inlining give one result exactly when no name at the other places is replaced (`walkStmt`).
-/

namespace Rend.Modifier

open Ast

/-! ### Complete inlining -/

/-- The name a target becomes. -/
def inlineTarget (subst : Subst) (target : String) : String :=
  match subst target with
  | some (.ident name) => name
  | _ => target

mutual

def inlineExpr (subst : Subst) : Expr → Expr
  | .ident name => (subst name).getD (.ident name)
  | .binary op lhs rhs => .binary op (inlineExpr subst lhs) (inlineExpr subst rhs)
  | .unary op operand => .unary op (inlineExpr subst operand)
  | .index target key => .index (inlineExpr subst target) (inlineExpr subst key)
  | .field target name => .field (inlineExpr subst target) name
  | .array elems => .array (inlineExprs subst elems)
  | .setLit elems => .setLit (inlineExprs subst elems)
  | .tupleLit elems => .tupleLit (inlineExprs subst elems)
  | .arrayAlloc elemTy len => .arrayAlloc elemTy (inlineExpr subst len)
  | .reserve count state => .reserve (inlineExpr subst count) state
  | .explicitLiteral inner => .explicitLiteral (inlineExpr subst inner)
  | .dictLit pairs => .dictLit (inlinePairs subst pairs)
  | .call module name args => .call module name (inlineExprs subst args)
  | .dynCall target method args isView isPure =>
    .dynCall (inlineTarget subst target) method (inlineExprs subst args) isView isPure
  | .structLit name fields => .structLit name (inlineFields subst fields)
  | .pipe head step => .pipe (inlineExpr subst head) (inlineExpr subst step)
  | .listComp mapper clauses => .listComp (inlineExpr subst mapper) (inlineClauses subst clauses)
  | .setComp mapper clauses => .setComp (inlineExpr subst mapper) (inlineClauses subst clauses)
  | .dictComp key value clauses =>
    .dictComp (inlineExpr subst key) (inlineExpr subst value) (inlineClauses subst clauses)
  | .tupleIndex target index => .tupleIndex (inlineExpr subst target) index
  | .enumCtor enumName variant args => .enumCtor enumName variant (inlineExprs subst args)
  | .matchOn scrut arms => .matchOn (inlineExpr subst scrut) (inlineArms subst arms)
  | .block b => .block (inlineBlock subst b)
  | .ifElse cond body orElse =>
    .ifElse (inlineExpr subst cond) (inlineBlock subst body) (inlineElse subst orElse)
  | .jsonObject pairs => .jsonObject (inlineFields subst pairs)
  | .jsonArray items => .jsonArray (inlineExprs subst items)
  | .int n => .int n
  | .uint n => .uint n
  | .float bits => .float bits
  | .i32 n => .i32 n
  | .u32 n => .u32 n
  | .u64 n => .u64 n
  | .u128 n => .u128 n
  | .jsonNull => .jsonNull
  | .bool b => .bool b
  | .str s => .str s
  | .prev => .prev

def inlineExprs (subst : Subst) : List Expr → List Expr
  | [] => []
  | e :: es => inlineExpr subst e :: inlineExprs subst es

def inlineFields (subst : Subst) : List (String × Expr) → List (String × Expr)
  | [] => []
  | (name, e) :: fields => (name, inlineExpr subst e) :: inlineFields subst fields

def inlinePairs (subst : Subst) : List (Expr × Expr) → List (Expr × Expr)
  | [] => []
  | (k, v) :: pairs => (inlineExpr subst k, inlineExpr subst v) :: inlinePairs subst pairs

def inlineOption (subst : Subst) : Option Expr → Option Expr
  | none => none
  | some e => some (inlineExpr subst e)

def inlineClauses (subst : Subst) : List CompClause → List CompClause
  | [] => []
  | .bind var iter :: clauses => .bind var (inlineExpr subst iter) :: inlineClauses subst clauses
  | .filter cond :: clauses => .filter (inlineExpr subst cond) :: inlineClauses subst clauses

def inlineArms (subst : Subst) : List MatchArm → List MatchArm
  | [] => []
  | .mk pattern body :: arms => .mk pattern (inlineExpr subst body) :: inlineArms subst arms

def inlineBlock (subst : Subst) : Block → Block
  | .mk stmts tail => .mk (inlineStmts subst stmts) (inlineOption subst tail)

def inlineStmt (subst : Subst) : Stmt → Stmt
  | .letVar name ty value => .letVar name ty (inlineExpr subst value)
  | .assign target value => .assign (inlineExpr subst target) (inlineExpr subst value)
  | .ret value => .ret (inlineOption subst value)
  | .ifStmt s => .ifStmt (inlineIf subst s)
  | .whileLoop cond body => .whileLoop (inlineExpr subst cond) (inlineBlock subst body)
  | .forLoop var iter limit body =>
    .forLoop var (inlineExpr subst iter) (inlineOption subst limit) (inlineBlock subst body)
  | .forRange var start finish inclusive body =>
    .forRange var (inlineExpr subst start) (inlineExpr subst finish) inclusive (inlineBlock subst body)
  | .breakStmt => .breakStmt
  | .continueStmt => .continueStmt
  | .placeholder => .placeholder
  | .expr e => .expr (inlineExpr subst e)
  | .emit value => .emit (inlineExpr subst value)
  | .delete target => .delete (inlineExpr subst target)
  | .letTuple names value => .letTuple names (inlineExpr subst value)
  | .parallel stmts => .parallel (inlineStmts subst stmts)
  | .parallelForTo idVar idxVar source output body =>
    .parallelForTo idVar idxVar (inlineExpr subst source) (inlineExpr subst output) (inlineBlock subst body)

def inlineStmts (subst : Subst) : List Stmt → List Stmt
  | [] => []
  | s :: stmts => inlineStmt subst s :: inlineStmts subst stmts

def inlineIf (subst : Subst) : IfStmt → IfStmt
  | .mk cond body orElse => .mk (inlineExpr subst cond) (inlineBlock subst body) (inlineElse subst orElse)

def inlineElse (subst : Subst) : ElseBranch → ElseBranch
  | .none => .none
  | .block b => .block (inlineBlock subst b)
  | .elseIf inner => .elseIf (inlineIf subst inner)

end

/-! ### The names that stand for values -/

/-- Where a name stands: where the walk of the expansion goes, where it does not, or before `::` in a call on
an interface. -/
inductive Place
  | walked
  | skipped
  | target
  deriving DecidableEq

structure Occ where
  name : String
  place : Place

/-- The names of a part that the walk skips. -/
def skip (occs : List Occ) : List Occ :=
  occs.map fun o => if o.place = .walked then { o with place := .skipped } else o

mutual

def identsExpr : Expr → List Occ
  | .ident name => [⟨name, .walked⟩]
  | .binary _ lhs rhs => identsExpr lhs ++ identsExpr rhs
  | .unary _ operand => identsExpr operand
  | .index target key => identsExpr target ++ identsExpr key
  | .field target _ => identsExpr target
  | .array elems => identsExprs elems
  | .setLit elems => identsExprs elems
  | .tupleLit elems => identsExprs elems
  | .arrayAlloc _ len => identsExpr len
  | .reserve count _ => identsExpr count
  | .explicitLiteral inner => identsExpr inner
  | .dictLit pairs => identsPairs pairs
  | .call _ _ args => identsExprs args
  | .dynCall target _ args _ _ => ⟨target, .target⟩ :: identsExprs args
  | .structLit _ fields => identsFields fields
  | .pipe head step => identsExpr head ++ identsExpr step
  | .listComp mapper clauses => identsExpr mapper ++ identsClauses clauses
  | .setComp mapper clauses => identsExpr mapper ++ identsClauses clauses
  | .dictComp key value clauses => identsExpr key ++ (identsExpr value ++ identsClauses clauses)
  | .tupleIndex target _ => identsExpr target
  | .enumCtor _ _ args => identsExprs args
  | .matchOn scrut arms => identsExpr scrut ++ identsArms arms
  | .block (.mk stmts tail) => identsStmts stmts ++ identsOption tail
  | .ifElse cond (.mk stmts tail) orElse =>
    identsExpr cond ++ (identsStmts stmts ++ (identsOption tail ++ identsExprElse orElse))
  | .jsonObject pairs => identsFields pairs
  | .jsonArray items => identsExprs items
  | _ => []

def identsExprElse : ElseBranch → List Occ
  | .none => []
  | .block (.mk stmts tail) => identsStmts stmts ++ identsOption tail
  | .elseIf inner => identsIf inner

def identsExprs : List Expr → List Occ
  | [] => []
  | e :: es => identsExpr e ++ identsExprs es

def identsFields : List (String × Expr) → List Occ
  | [] => []
  | (_, e) :: fields => identsExpr e ++ identsFields fields

def identsPairs : List (Expr × Expr) → List Occ
  | [] => []
  | (k, v) :: pairs => identsExpr k ++ (identsExpr v ++ identsPairs pairs)

def identsOption : Option Expr → List Occ
  | none => []
  | some e => identsExpr e

def identsClauses : List CompClause → List Occ
  | [] => []
  | .bind _ iter :: clauses => identsExpr iter ++ identsClauses clauses
  | .filter cond :: clauses => identsExpr cond ++ identsClauses clauses

def identsArms : List MatchArm → List Occ
  | [] => []
  | .mk _ body :: arms => identsExpr body ++ identsArms arms

def identsStmt : Stmt → List Occ
  | .letVar _ _ value => identsExpr value
  | .assign target value => identsExpr target ++ identsExpr value
  | .ret value => identsOption value
  | .ifStmt s => identsIf s
  | .whileLoop cond (.mk stmts tail) => identsExpr cond ++ (identsStmts stmts ++ skip (identsOption tail))
  | .forLoop _ iter limit (.mk stmts tail) =>
    identsExpr iter ++ (skip (identsOption limit) ++ (identsStmts stmts ++ skip (identsOption tail)))
  | .forRange _ start finish _ (.mk stmts tail) =>
    identsExpr start ++ (identsExpr finish ++ (identsStmts stmts ++ skip (identsOption tail)))
  | .expr e => identsExpr e
  | .emit value => identsExpr value
  | .delete target => identsExpr target
  | .letTuple _ value => identsExpr value
  | .parallel stmts => identsStmts stmts
  | .parallelForTo _ _ source output (.mk stmts tail) =>
    identsExpr source ++ (identsExpr output ++ (identsStmts stmts ++ skip (identsOption tail)))
  | _ => []

def identsStmts : List Stmt → List Occ
  | [] => []
  | s :: stmts => identsStmt s ++ identsStmts stmts

def identsIf : IfStmt → List Occ
  | .mk cond (.mk stmts tail) orElse =>
    identsExpr cond ++ (identsStmts stmts ++ (skip (identsOption tail) ++ identsElse orElse))

def identsElse : ElseBranch → List Occ
  | .none => []
  | .block (.mk stmts tail) => identsStmts stmts ++ skip (identsOption tail)
  | .elseIf inner => identsIf inner

end

/-- The names of a whole block. -/
def identsBlock (b : Block) : List Occ := identsStmts b.stmts ++ identsOption b.tail

/-! ### When the two agree -/

/-- The name is not replaced, or by itself. -/
def Same (subst : Subst) (name : String) : Prop := subst name = none ∨ subst name = some (.ident name)

/-- The target of a call on an interface can be inlined. -/
def Occ.named (subst : Subst) (o : Occ) : Bool :=
  match o.place, subst o.name with
  | .target, some (.ident _) => true
  | .target, some _ => false
  | _, _ => true

/-- Where the targets can be inlined, the statement is that the names at some places are not replaced. -/
def Decides (subst : Subst) (at_ : Place → Prop) (occs : List Occ) (p : Prop) : Prop :=
  (∀ o ∈ occs, o.named subst) → (p ↔ ∀ o ∈ occs, at_ o.place → Same subst o.name)

section Decides

variable {subst : Subst} {at_ : Place → Prop} {occs occs' : List Occ} {p q : Prop}

theorem Decides.nil : Decides subst at_ [] True := fun _ => by simp

theorem Decides.and (hp : Decides subst at_ occs p) (hq : Decides subst at_ occs' q) :
    Decides subst at_ (occs ++ occs') (p ∧ q) := by
  intro hnamed
  obtain ⟨hleft, hright⟩ := List.forall_mem_append.mp hnamed
  rw [hp hleft, hq hright, List.forall_mem_append]

/-- A part that the walk skips is as complete inlining leaves it when none of its names is replaced. -/
theorem Decides.skip (hp : Decides subst (fun _ => True) occs p) (at_ : Place → Prop) (hs : at_ .skipped)
    (ht : at_ .target) : Decides subst at_ (skip occs) p := by
  intro hnamed
  have hplace : ∀ o : Occ, (if o.place = .walked then { o with place := .skipped } else o).name = o.name ∧
      at_ (if o.place = .walked then { o with place := .skipped } else o).place := by
    rintro ⟨name, place⟩
    cases place
    · exact ⟨rfl, hs⟩
    · exact ⟨rfl, hs⟩
    · exact ⟨rfl, ht⟩
  rw [hp]
  · simp [Modifier.skip, hplace]
  · intro o ho
    have hmem := hnamed _ (List.mem_map_of_mem ho)
    rcases o with ⟨name, place⟩
    cases place
    · simp [Occ.named]
    · exact hmem
    · exact hmem

theorem Decides.kept (hp : Decides subst (fun _ => True) occs p) :
    Decides subst (fun _ => True) (Modifier.skip occs) p :=
  hp.skip _ trivial trivial

theorem Decides.skipped (hp : Decides subst (fun _ => True) occs p) :
    Decides subst (· ≠ .walked) (Modifier.skip occs) p :=
  hp.skip _ (by simp) (by simp)

end Decides

theorem decides_ident (subst : Subst) (name : String) :
    Decides subst (fun _ => True) [⟨name, .walked⟩] ((subst name).getD (.ident name) = .ident name) := by
  intro _
  cases hsubst : subst name <;> simp [Same, hsubst]

theorem decides_target (subst : Subst) (at_ : Place → Prop) (hat : at_ .target) (target : String) :
    Decides subst at_ [⟨target, .target⟩] (inlineTarget subst target = target) := by
  intro hnamed
  have htarget := hnamed _ List.mem_cons_self
  cases hsubst : subst target with
  | none => simp [inlineTarget, Same, hsubst, hat]
  | some e =>
    cases e
    case ident name => simp [inlineTarget, Same, hsubst, hat]
    all_goals simp [Occ.named, hsubst] at htarget

/-! ### Inlining that changes nothing -/

mutual

theorem selfExpr (subst : Subst) : ∀ e : Expr, Decides subst (fun _ => True) (identsExpr e) (inlineExpr subst e = e)
  | .ident name => by simpa [inlineExpr, identsExpr] using decides_ident subst name
  | .binary _ lhs rhs => by simpa [inlineExpr, identsExpr] using (selfExpr subst lhs).and (selfExpr subst rhs)
  | .unary _ operand => by simpa [inlineExpr, identsExpr] using selfExpr subst operand
  | .index target key => by simpa [inlineExpr, identsExpr] using (selfExpr subst target).and (selfExpr subst key)
  | .field target _ => by simpa [inlineExpr, identsExpr] using selfExpr subst target
  | .array elems => by simpa [inlineExpr, identsExpr] using selfExprs subst elems
  | .setLit elems => by simpa [inlineExpr, identsExpr] using selfExprs subst elems
  | .tupleLit elems => by simpa [inlineExpr, identsExpr] using selfExprs subst elems
  | .arrayAlloc _ len => by simpa [inlineExpr, identsExpr] using selfExpr subst len
  | .reserve count _ => by simpa [inlineExpr, identsExpr] using selfExpr subst count
  | .explicitLiteral inner => by simpa [inlineExpr, identsExpr] using selfExpr subst inner
  | .dictLit pairs => by simpa [inlineExpr, identsExpr] using selfPairs subst pairs
  | .call _ _ args => by simpa [inlineExpr, identsExpr] using selfExprs subst args
  | .dynCall target _ args _ _ => by
    simpa [inlineExpr, identsExpr] using (decides_target subst _ trivial target).and (selfExprs subst args)
  | .structLit _ fields => by simpa [inlineExpr, identsExpr] using selfFields subst fields
  | .pipe head step => by simpa [inlineExpr, identsExpr] using (selfExpr subst head).and (selfExpr subst step)
  | .listComp mapper clauses => by
    simpa [inlineExpr, identsExpr] using (selfExpr subst mapper).and (selfClauses subst clauses)
  | .setComp mapper clauses => by
    simpa [inlineExpr, identsExpr] using (selfExpr subst mapper).and (selfClauses subst clauses)
  | .dictComp key value clauses => by
    simpa [inlineExpr, identsExpr] using
      (selfExpr subst key).and ((selfExpr subst value).and (selfClauses subst clauses))
  | .tupleIndex target _ => by simpa [inlineExpr, identsExpr] using selfExpr subst target
  | .enumCtor _ _ args => by simpa [inlineExpr, identsExpr] using selfExprs subst args
  | .matchOn scrut arms => by simpa [inlineExpr, identsExpr] using (selfExpr subst scrut).and (selfArms subst arms)
  | .block (.mk stmts tail) => by
    simpa [inlineExpr, identsExpr, inlineBlock] using (selfStmts subst stmts).and (selfOption subst tail)
  | .ifElse cond (.mk stmts tail) orElse => by
    simpa [inlineExpr, identsExpr, inlineBlock, and_assoc] using
      (selfExpr subst cond).and ((selfStmts subst stmts).and ((selfOption subst tail).and
        (selfExprElse subst orElse)))
  | .jsonObject pairs => by simpa [inlineExpr, identsExpr] using selfFields subst pairs
  | .jsonArray items => by simpa [inlineExpr, identsExpr] using selfExprs subst items
  | .int _ => by simpa [inlineExpr, identsExpr] using Decides.nil
  | .uint _ => by simpa [inlineExpr, identsExpr] using Decides.nil
  | .float _ => by simpa [inlineExpr, identsExpr] using Decides.nil
  | .i32 _ => by simpa [inlineExpr, identsExpr] using Decides.nil
  | .u32 _ => by simpa [inlineExpr, identsExpr] using Decides.nil
  | .u64 _ => by simpa [inlineExpr, identsExpr] using Decides.nil
  | .u128 _ => by simpa [inlineExpr, identsExpr] using Decides.nil
  | .jsonNull => by simpa [inlineExpr, identsExpr] using Decides.nil
  | .bool _ => by simpa [inlineExpr, identsExpr] using Decides.nil
  | .str _ => by simpa [inlineExpr, identsExpr] using Decides.nil
  | .prev => by simpa [inlineExpr, identsExpr] using Decides.nil

theorem selfExprElse (subst : Subst) : ∀ orElse : ElseBranch,
    Decides subst (fun _ => True) (identsExprElse orElse) (inlineElse subst orElse = orElse)
  | .none => by simpa [inlineElse, identsExprElse] using Decides.nil
  | .block (.mk stmts tail) => by
    simpa [inlineElse, identsExprElse, inlineBlock] using (selfStmts subst stmts).and (selfOption subst tail)
  | .elseIf inner => by simpa [inlineElse, identsExprElse] using selfIf subst inner

theorem selfExprs (subst : Subst) : ∀ es : List Expr,
    Decides subst (fun _ => True) (identsExprs es) (inlineExprs subst es = es)
  | [] => by simpa [inlineExprs, identsExprs] using Decides.nil
  | e :: es => by simpa [inlineExprs, identsExprs] using (selfExpr subst e).and (selfExprs subst es)

theorem selfFields (subst : Subst) : ∀ fields : List (String × Expr),
    Decides subst (fun _ => True) (identsFields fields) (inlineFields subst fields = fields)
  | [] => by simpa [inlineFields, identsFields] using Decides.nil
  | (_, e) :: fields => by simpa [inlineFields, identsFields] using (selfExpr subst e).and (selfFields subst fields)

theorem selfPairs (subst : Subst) : ∀ pairs : List (Expr × Expr),
    Decides subst (fun _ => True) (identsPairs pairs) (inlinePairs subst pairs = pairs)
  | [] => by simpa [inlinePairs, identsPairs, and_assoc] using Decides.nil
  | (k, v) :: pairs => by
    simpa [inlinePairs, identsPairs, and_assoc] using (selfExpr subst k).and ((selfExpr subst v).and (selfPairs subst pairs))

theorem selfOption (subst : Subst) : ∀ o : Option Expr,
    Decides subst (fun _ => True) (identsOption o) (inlineOption subst o = o)
  | none => by simpa [inlineOption, identsOption] using Decides.nil
  | some e => by simpa [inlineOption, identsOption] using selfExpr subst e

theorem selfClauses (subst : Subst) : ∀ clauses : List CompClause,
    Decides subst (fun _ => True) (identsClauses clauses) (inlineClauses subst clauses = clauses)
  | [] => by simpa [inlineClauses, identsClauses] using Decides.nil
  | .bind _ iter :: clauses => by
    simpa [inlineClauses, identsClauses] using (selfExpr subst iter).and (selfClauses subst clauses)
  | .filter cond :: clauses => by
    simpa [inlineClauses, identsClauses] using (selfExpr subst cond).and (selfClauses subst clauses)

theorem selfArms (subst : Subst) : ∀ arms : List MatchArm,
    Decides subst (fun _ => True) (identsArms arms) (inlineArms subst arms = arms)
  | [] => by simpa [inlineArms, identsArms] using Decides.nil
  | .mk _ body :: arms => by simpa [inlineArms, identsArms] using (selfExpr subst body).and (selfArms subst arms)

theorem selfStmt (subst : Subst) : ∀ s : Stmt, Decides subst (fun _ => True) (identsStmt s) (inlineStmt subst s = s)
  | .letVar _ _ value => by simpa [inlineStmt, identsStmt] using selfExpr subst value
  | .assign target value => by simpa [inlineStmt, identsStmt] using (selfExpr subst target).and (selfExpr subst value)
  | .ret value => by simpa [inlineStmt, identsStmt] using selfOption subst value
  | .ifStmt s => by simpa [inlineStmt, identsStmt] using selfIf subst s
  | .whileLoop cond (.mk stmts tail) => by
    simpa [inlineStmt, identsStmt, inlineBlock] using
      (selfExpr subst cond).and ((selfStmts subst stmts).and ((selfOption subst tail).kept))
  | .forLoop _ iter limit (.mk stmts tail) => by
    simpa [inlineStmt, identsStmt, inlineBlock] using
      (selfExpr subst iter).and (((selfOption subst limit).kept).and ((selfStmts subst stmts).and
        ((selfOption subst tail).kept)))
  | .forRange _ start finish _ (.mk stmts tail) => by
    simpa [inlineStmt, identsStmt, inlineBlock] using
      (selfExpr subst start).and ((selfExpr subst finish).and ((selfStmts subst stmts).and
        ((selfOption subst tail).kept)))
  | .expr e => by simpa [inlineStmt, identsStmt] using selfExpr subst e
  | .emit value => by simpa [inlineStmt, identsStmt] using selfExpr subst value
  | .delete target => by simpa [inlineStmt, identsStmt] using selfExpr subst target
  | .letTuple _ value => by simpa [inlineStmt, identsStmt] using selfExpr subst value
  | .parallel stmts => by simpa [inlineStmt, identsStmt] using selfStmts subst stmts
  | .parallelForTo _ _ source output (.mk stmts tail) => by
    simpa [inlineStmt, identsStmt, inlineBlock] using
      (selfExpr subst source).and ((selfExpr subst output).and ((selfStmts subst stmts).and
        ((selfOption subst tail).kept)))
  | .breakStmt => by simpa [inlineStmt, identsStmt] using Decides.nil
  | .continueStmt => by simpa [inlineStmt, identsStmt] using Decides.nil
  | .placeholder => by simpa [inlineStmt, identsStmt] using Decides.nil

theorem selfStmts (subst : Subst) : ∀ stmts : List Stmt,
    Decides subst (fun _ => True) (identsStmts stmts) (inlineStmts subst stmts = stmts)
  | [] => by simpa [inlineStmts, identsStmts] using Decides.nil
  | s :: stmts => by simpa [inlineStmts, identsStmts] using (selfStmt subst s).and (selfStmts subst stmts)

theorem selfIf (subst : Subst) : ∀ s : IfStmt, Decides subst (fun _ => True) (identsIf s) (inlineIf subst s = s)
  | .mk cond (.mk stmts tail) orElse => by
    simpa [inlineIf, identsIf, inlineBlock, and_assoc] using
      (selfExpr subst cond).and ((selfStmts subst stmts).and (((selfOption subst tail).kept).and
        (selfElse subst orElse)))

theorem selfElse (subst : Subst) : ∀ orElse : ElseBranch,
    Decides subst (fun _ => True) (identsElse orElse) (inlineElse subst orElse = orElse)
  | .none => by simpa [inlineElse, identsElse] using Decides.nil
  | .block (.mk stmts tail) => by
    simpa [inlineElse, identsElse, inlineBlock] using
      (selfStmts subst stmts).and ((selfOption subst tail).kept)
  | .elseIf inner => by simpa [inlineElse, identsElse] using selfIf subst inner

end

/-! ### Inlining and the walk -/

mutual

theorem walkExpr (subst : Subst) : ∀ e : Expr,
    Decides subst (· ≠ .walked) (identsExpr e) (inlineExpr subst e = substituteInExpr subst e)
  | .ident _ => fun _ => by simp [inlineExpr, identsExpr, substituteInExpr]
  | .binary _ lhs rhs => by
    simpa [inlineExpr, identsExpr, substituteInExpr] using (walkExpr subst lhs).and (walkExpr subst rhs)
  | .unary _ operand => by simpa [inlineExpr, identsExpr, substituteInExpr] using walkExpr subst operand
  | .index target key => by
    simpa [inlineExpr, identsExpr, substituteInExpr] using (walkExpr subst target).and (walkExpr subst key)
  | .field target _ => by simpa [inlineExpr, identsExpr, substituteInExpr] using walkExpr subst target
  | .array elems => by simpa [inlineExpr, identsExpr, substituteInExpr] using walkExprs subst elems
  | .setLit elems => by simpa [inlineExpr, identsExpr, substituteInExpr] using walkExprs subst elems
  | .tupleLit elems => by simpa [inlineExpr, identsExpr, substituteInExpr] using walkExprs subst elems
  | .arrayAlloc _ len => by simpa [inlineExpr, identsExpr, substituteInExpr] using walkExpr subst len
  | .reserve count _ => by simpa [inlineExpr, identsExpr, substituteInExpr] using walkExpr subst count
  | .explicitLiteral inner => by simpa [inlineExpr, identsExpr, substituteInExpr] using walkExpr subst inner
  | .dictLit pairs => by simpa [inlineExpr, identsExpr, substituteInExpr] using walkPairs subst pairs
  | .call _ _ args => by simpa [inlineExpr, identsExpr, substituteInExpr] using walkExprs subst args
  | .dynCall target _ args _ _ => by
    simpa [inlineExpr, identsExpr, substituteInExpr] using
      (decides_target subst _ (by simp) target).and (walkExprs subst args)
  | .structLit _ fields => by simpa [inlineExpr, identsExpr, substituteInExpr] using walkFields subst fields
  | .pipe head step => by
    simpa [inlineExpr, identsExpr, substituteInExpr] using (walkExpr subst head).and (walkExpr subst step)
  | .listComp mapper clauses => by
    simpa [inlineExpr, identsExpr, substituteInExpr] using (walkExpr subst mapper).and (walkClauses subst clauses)
  | .setComp mapper clauses => by
    simpa [inlineExpr, identsExpr, substituteInExpr] using (walkExpr subst mapper).and (walkClauses subst clauses)
  | .dictComp key value clauses => by
    simpa [inlineExpr, identsExpr, substituteInExpr] using
      (walkExpr subst key).and ((walkExpr subst value).and (walkClauses subst clauses))
  | .tupleIndex target _ => by simpa [inlineExpr, identsExpr, substituteInExpr] using walkExpr subst target
  | .enumCtor _ _ args => by simpa [inlineExpr, identsExpr, substituteInExpr] using walkExprs subst args
  | .matchOn scrut arms => by
    simpa [inlineExpr, identsExpr, substituteInExpr] using (walkExpr subst scrut).and (walkArms subst arms)
  | .block (.mk stmts tail) => by
    simpa [inlineExpr, identsExpr, substituteInExpr, inlineBlock] using
      (walkStmts subst stmts).and (walkOption subst tail)
  | .ifElse cond (.mk stmts tail) orElse => by
    simpa [inlineExpr, identsExpr, substituteInExpr, inlineBlock, and_assoc] using
      (walkExpr subst cond).and ((walkStmts subst stmts).and ((walkOption subst tail).and
        (walkExprElse subst orElse)))
  | .jsonObject pairs => by simpa [inlineExpr, identsExpr, substituteInExpr] using walkFields subst pairs
  | .jsonArray items => by simpa [inlineExpr, identsExpr, substituteInExpr] using walkExprs subst items
  | .int _ => by simpa [inlineExpr, identsExpr, substituteInExpr] using Decides.nil
  | .uint _ => by simpa [inlineExpr, identsExpr, substituteInExpr] using Decides.nil
  | .float _ => by simpa [inlineExpr, identsExpr, substituteInExpr] using Decides.nil
  | .i32 _ => by simpa [inlineExpr, identsExpr, substituteInExpr] using Decides.nil
  | .u32 _ => by simpa [inlineExpr, identsExpr, substituteInExpr] using Decides.nil
  | .u64 _ => by simpa [inlineExpr, identsExpr, substituteInExpr] using Decides.nil
  | .u128 _ => by simpa [inlineExpr, identsExpr, substituteInExpr] using Decides.nil
  | .jsonNull => by simpa [inlineExpr, identsExpr, substituteInExpr] using Decides.nil
  | .bool _ => by simpa [inlineExpr, identsExpr, substituteInExpr] using Decides.nil
  | .str _ => by simpa [inlineExpr, identsExpr, substituteInExpr] using Decides.nil
  | .prev => by simpa [inlineExpr, identsExpr, substituteInExpr] using Decides.nil

theorem walkExprElse (subst : Subst) : ∀ orElse : ElseBranch,
    Decides subst (· ≠ .walked) (identsExprElse orElse) (inlineElse subst orElse = substituteInExprElse subst orElse)
  | .none => by simpa [inlineElse, identsExprElse, substituteInExprElse] using Decides.nil
  | .block (.mk stmts tail) => by
    simpa [inlineElse, identsExprElse, substituteInExprElse, inlineBlock] using
      (walkStmts subst stmts).and (walkOption subst tail)
  | .elseIf inner => by simpa [inlineElse, identsExprElse, substituteInExprElse] using walkIf subst inner

theorem walkExprs (subst : Subst) : ∀ es : List Expr,
    Decides subst (· ≠ .walked) (identsExprs es) (inlineExprs subst es = substituteInExprs subst es)
  | [] => by simpa [inlineExprs, identsExprs, substituteInExprs] using Decides.nil
  | e :: es => by
    simpa [inlineExprs, identsExprs, substituteInExprs] using (walkExpr subst e).and (walkExprs subst es)

theorem walkFields (subst : Subst) : ∀ fields : List (String × Expr),
    Decides subst (· ≠ .walked) (identsFields fields) (inlineFields subst fields = substituteInFields subst fields)
  | [] => by simpa [inlineFields, identsFields, substituteInFields] using Decides.nil
  | (_, e) :: fields => by
    simpa [inlineFields, identsFields, substituteInFields] using (walkExpr subst e).and (walkFields subst fields)

theorem walkPairs (subst : Subst) : ∀ pairs : List (Expr × Expr),
    Decides subst (· ≠ .walked) (identsPairs pairs) (inlinePairs subst pairs = substituteInPairs subst pairs)
  | [] => by simpa [inlinePairs, identsPairs, substituteInPairs, and_assoc] using Decides.nil
  | (k, v) :: pairs => by
    simpa [inlinePairs, identsPairs, substituteInPairs, and_assoc] using
      (walkExpr subst k).and ((walkExpr subst v).and (walkPairs subst pairs))

theorem walkOption (subst : Subst) : ∀ o : Option Expr,
    Decides subst (· ≠ .walked) (identsOption o) (inlineOption subst o = substituteInOption subst o)
  | none => by simpa [inlineOption, identsOption, substituteInOption] using Decides.nil
  | some e => by simpa [inlineOption, identsOption, substituteInOption] using walkExpr subst e

theorem walkClauses (subst : Subst) : ∀ clauses : List CompClause,
    Decides subst (· ≠ .walked) (identsClauses clauses) (inlineClauses subst clauses = substituteInClauses subst clauses)
  | [] => by simpa [inlineClauses, identsClauses, substituteInClauses] using Decides.nil
  | .bind _ iter :: clauses => by
    simpa [inlineClauses, identsClauses, substituteInClauses] using
      (walkExpr subst iter).and (walkClauses subst clauses)
  | .filter cond :: clauses => by
    simpa [inlineClauses, identsClauses, substituteInClauses] using
      (walkExpr subst cond).and (walkClauses subst clauses)

theorem walkArms (subst : Subst) : ∀ arms : List MatchArm,
    Decides subst (· ≠ .walked) (identsArms arms) (inlineArms subst arms = substituteInArms subst arms)
  | [] => by simpa [inlineArms, identsArms, substituteInArms] using Decides.nil
  | .mk _ body :: arms => by
    simpa [inlineArms, identsArms, substituteInArms] using (walkExpr subst body).and (walkArms subst arms)

theorem walkStmt (subst : Subst) : ∀ s : Stmt,
    Decides subst (· ≠ .walked) (identsStmt s) (inlineStmt subst s = substituteParamsInStmt subst s)
  | .letVar _ _ value => by simpa [inlineStmt, identsStmt, substituteParamsInStmt] using walkExpr subst value
  | .assign target value => by
    simpa [inlineStmt, identsStmt, substituteParamsInStmt] using (walkExpr subst target).and (walkExpr subst value)
  | .ret value => by simpa [inlineStmt, identsStmt, substituteParamsInStmt] using walkOption subst value
  | .ifStmt s => by simpa [inlineStmt, identsStmt, substituteParamsInStmt] using walkIf subst s
  | .whileLoop cond (.mk stmts tail) => by
    simpa [inlineStmt, identsStmt, substituteParamsInStmt, inlineBlock] using
      (walkExpr subst cond).and ((walkStmts subst stmts).and ((selfOption subst tail).skipped))
  | .forLoop _ iter limit (.mk stmts tail) => by
    simpa [inlineStmt, identsStmt, substituteParamsInStmt, inlineBlock] using
      (walkExpr subst iter).and (((selfOption subst limit).skipped).and ((walkStmts subst stmts).and
        ((selfOption subst tail).skipped)))
  | .forRange _ start finish _ (.mk stmts tail) => by
    simpa [inlineStmt, identsStmt, substituteParamsInStmt, inlineBlock] using
      (walkExpr subst start).and ((walkExpr subst finish).and ((walkStmts subst stmts).and
        ((selfOption subst tail).skipped)))
  | .expr e => by simpa [inlineStmt, identsStmt, substituteParamsInStmt] using walkExpr subst e
  | .emit value => by simpa [inlineStmt, identsStmt, substituteParamsInStmt] using walkExpr subst value
  | .delete target => by simpa [inlineStmt, identsStmt, substituteParamsInStmt] using walkExpr subst target
  | .letTuple _ value => by simpa [inlineStmt, identsStmt, substituteParamsInStmt] using walkExpr subst value
  | .parallel stmts => by simpa [inlineStmt, identsStmt, substituteParamsInStmt] using walkStmts subst stmts
  | .parallelForTo _ _ source output (.mk stmts tail) => by
    simpa [inlineStmt, identsStmt, substituteParamsInStmt, inlineBlock] using
      (walkExpr subst source).and ((walkExpr subst output).and ((walkStmts subst stmts).and
        ((selfOption subst tail).skipped)))
  | .breakStmt => by simpa [inlineStmt, identsStmt, substituteParamsInStmt] using Decides.nil
  | .continueStmt => by simpa [inlineStmt, identsStmt, substituteParamsInStmt] using Decides.nil
  | .placeholder => by simpa [inlineStmt, identsStmt, substituteParamsInStmt] using Decides.nil

theorem walkStmts (subst : Subst) : ∀ stmts : List Stmt,
    Decides subst (· ≠ .walked) (identsStmts stmts) (inlineStmts subst stmts = substituteInStmts subst stmts)
  | [] => by simpa [inlineStmts, identsStmts, substituteInStmts] using Decides.nil
  | s :: stmts => by
    simpa [inlineStmts, identsStmts, substituteInStmts] using (walkStmt subst s).and (walkStmts subst stmts)

theorem walkIf (subst : Subst) : ∀ s : IfStmt,
    Decides subst (· ≠ .walked) (identsIf s) (inlineIf subst s = substituteInIf subst s)
  | .mk cond (.mk stmts tail) orElse => by
    simpa [inlineIf, identsIf, substituteInIf, inlineBlock, and_assoc] using
      (walkExpr subst cond).and ((walkStmts subst stmts).and (((selfOption subst tail).skipped).and
        (walkElse subst orElse)))

theorem walkElse (subst : Subst) : ∀ orElse : ElseBranch,
    Decides subst (· ≠ .walked) (identsElse orElse) (inlineElse subst orElse = substituteInElse subst orElse)
  | .none => by simpa [inlineElse, identsElse, substituteInElse] using Decides.nil
  | .block (.mk stmts tail) => by
    simpa [inlineElse, identsElse, substituteInElse, inlineBlock] using
      (walkStmts subst stmts).and ((selfOption subst tail).skipped)
  | .elseIf inner => by simpa [inlineElse, identsElse, substituteInElse] using walkIf subst inner

end

end Rend.Modifier
