import Rend.Compile.Lossless
import Rend.Compile.SoundStmts

/-!
# Whole trees keep the limits

The names that a tree assigns to, and the lowering of a tree under the rules for its forms: it keeps the limits
when these names are among those that are assigned to. Constants are lowered at their uses, so the names they
assign to count; a default value assigns to none.
-/

namespace Rend.Compile

open Ast Lib

/-! ### Assigned names -/

section Assigned

mutual

/-- The names that are assigned to within an expression. -/
def assignedExpr : Expr → List String
  | .jsonObject pairs | .structLit _ pairs => assignedFields pairs
  | .jsonArray es | .array es | .setLit es | .tupleLit es | .call _ _ es | .dynCall _ _ es _ _ | .enumCtor _ _ es =>
    assignedExprs es
  | .binary _ e e' | .index e e' | .pipe e e' => assignedExpr e ++ assignedExpr e'
  | .unary _ e | .arrayAlloc _ e | .reserve e _ | .explicitLiteral e | .field e _ | .tupleIndex e _ => assignedExpr e
  | .dictLit pairs => assignedPairs pairs
  | .listComp mapper clauses | .setComp mapper clauses => assignedExpr mapper ++ assignedClauses clauses
  | .dictComp key value clauses => assignedExpr key ++ (assignedExpr value ++ assignedClauses clauses)
  | .block b => assignedBlock b
  | .ifElse cond body orElse => assignedExpr cond ++ (assignedBlock body ++ assignedElse orElse)
  | .matchOn scrut arms => assignedExpr scrut ++ assignedArms arms
  | .int _ | .uint _ | .float _ | .i32 _ | .u32 _ | .u64 _ | .u128 _ | .jsonNull | .bool _ | .str _ | .ident _ | .prev =>
    []

def assignedExprs : List Expr → List String
  | [] => []
  | e :: es => assignedExpr e ++ assignedExprs es

def assignedFields : List (String × Expr) → List String
  | [] => []
  | (_, e) :: fields => assignedExpr e ++ assignedFields fields

def assignedPairs : List (Expr × Expr) → List String
  | [] => []
  | (k, v) :: pairs => assignedExpr k ++ (assignedExpr v ++ assignedPairs pairs)

def assignedArms : List MatchArm → List String
  | [] => []
  | .mk _ body :: arms => assignedExpr body ++ assignedArms arms

def assignedClauses : List CompClause → List String
  | [] => []
  | .bind _ e :: clauses | .filter e :: clauses => assignedExpr e ++ assignedClauses clauses

def assignedOption : Option Expr → List String
  | none => []
  | some e => assignedExpr e

def assignedBlock : Block → List String
  | .mk stmts tail => assignedStmts stmts ++ assignedOption tail

def assignedElse : ElseBranch → List String
  | .none => []
  | .block b => assignedBlock b
  | .elseIf s => assignedIf s

def assignedIf : IfStmt → List String
  | .mk cond body orElse => assignedExpr cond ++ (assignedBlock body ++ assignedElse orElse)

def assignedStmts : List Stmt → List String
  | [] => []
  | stmt :: stmts => assignedStmt stmt ++ assignedStmts stmts

/-- The local a target stands for or lies in, and the names that are assigned to on the way to it. -/
def assignedTarget : Expr → List String
  | .ident name => [name]
  | .index _ key => assignedExpr key
  | .field inner _ => assignedExpr inner ++ assignedTarget inner
  | _ => []

def assignedStmt : Stmt → List String
  | .letVar _ _ e | .expr e | .emit e | .letTuple _ e => assignedExpr e
  | .assign target value => assignedExpr value ++ assignedTarget target
  | .ret e => assignedOption e
  | .ifStmt s => assignedIf s
  | .whileLoop e body => assignedExpr e ++ assignedBlock body
  | .forLoop _ iter limit body => assignedExpr iter ++ (assignedOption limit ++ assignedBlock body)
  | .forRange _ first last _ body => assignedExpr first ++ (assignedExpr last ++ assignedBlock body)
  | .parallel stmts => assignedStmts stmts
  | .parallelForTo _ _ source output body => assignedExpr source ++ (assignedTarget output ++ assignedBlock body)
  | .delete (.index _ key) => assignedExpr key
  | .delete _ | .breakStmt | .continueStmt | .placeholder => []

end

mutual

/-- A default value assigns to no name. -/
theorem assigned_default {env : Env} {ty : Ty} {value : Expr} (h : defaultExprForType env ty = .ok value) :
    assignedExpr value = [] := by
  cases ty with
  | struct name fields nore =>
    rw [defaultExprForType] at h
    obtain ⟨values, hvalues, h⟩ := bind_ok h
    cases h
    exact assigned_defaults hvalues
  | bool | i32 | u32 | u64 | u128 | int | uint | string =>
    cases h
    rfl
  | _ => cases h

theorem assigned_defaults {env : Env} {fields : List (String × Ty)} {values : List (String × Expr)}
    (h : defaultFields env fields = .ok values) : assignedFields values = [] := by
  match fields with
  | [] =>
    cases h
    rfl
  | (name, ty) :: fields =>
    rw [defaultFields] at h
    obtain ⟨value, hvalue, h⟩ := bind_ok h
    obtain ⟨rest, hrest, h⟩ := bind_ok h
    cases h
    rw [assignedFields, assigned_default hvalue, assigned_defaults hrest]
    rfl

end

end Assigned

/-! ### The tree -/

theorem length_pairOperands (env : Env) (inline : Expr → Operand) (pairs : List (Expr × Expr)) :
    (pairOperands env inline pairs).length = 2 * pairs.length := by
  induction pairs with
  | nil => rfl
  | cons p pairs ih =>
    simp only [pairOperands, List.length_cons, ih]
    omega

section Tree

set_option linter.unusedSectionVars false

variable {env : Env} {L : Limits env} {inline : Expr → Operand} (hin : Inlines L inline)

include hin

mutual

theorem good_expr (e : Expr) (h : ∀ name ∈ assignedExpr e, L.assignable name) :
    Good L (compileExprInto env inline e) := by
  intro floor dst hdst
  cases e with
  | jsonObject pairs => exact sound_compileJsonObject (good_fields pairs h) hdst
  | jsonArray items => exact sound_compileJsonArray (good_exprs items h) hdst
  | ident name => exact good_compileIdent hin name floor dst hdst
  | binary op lhs rhs =>
    obtain ⟨hl, hr⟩ := List.forall_mem_append.mp h
    refine (good_expr lhs hl floor dst hdst).next (sound_viaReg (good_expr rhs hr) fun r hreg => ?_)
    exact sound_push ⟨hdst, L.writes_reads hdst, hreg.reads⟩ fun _ _ => trivial
  | unary op operand =>
    refine (good_expr operand h floor dst hdst).next ?_
    exact sound_push ⟨hdst, L.writes_reads hdst⟩ fun _ _ => trivial
  | index target key =>
    obtain ⟨ht, hk⟩ := List.forall_mem_append.mp h
    exact sound_compileIndex (good_expr target ht) (good_expr key hk) hdst
  | array elems | setLit elems | tupleLit elems =>
    refine sound_viaWindow (good_exprs elems h) fun floor first hwindow => ?_
    exact sound_push ⟨hdst, length_exprOperands env inline elems ▸ hwindow⟩ fun _ _ => trivial
  | arrayAlloc elemTy len => exact sound_compileArrayAlloc hin (good_expr len h) hdst
  | reserve count state => exact sound_compileReserve (good_expr count h) hdst
  | explicitLiteral inner => exact good_expr inner h floor dst hdst
  | structLit name fields => exact sound_compileStruct (good_fields fields h) hdst
  | field target name => exact sound_compileField (good_expr target h) name hdst
  | prev => exact good_compilePrev floor dst hdst
  | pipe head step =>
    obtain ⟨hh, hs⟩ := List.forall_mem_append.mp h
    exact sound_compilePipe (good_expr head hh) (good_expr step hs) hdst
  | dictLit pairs =>
    refine sound_viaWindow (good_pairs pairs h) fun floor first hwindow => ?_
    exact sound_push ⟨hdst, length_pairOperands env inline pairs ▸ hwindow⟩ fun _ _ => trivial
  | listComp mapper clauses =>
    obtain ⟨hm, hc⟩ := List.forall_mem_append.mp h
    refine Sound.next (sound_push ⟨hdst, L.window_nil⟩ fun _ _ => trivial) ?_
    exact sound_comp (sound_listAppend (good_expr mapper hm) hdst) clauses hc
  | setComp mapper clauses =>
    obtain ⟨hm, hc⟩ := List.forall_mem_append.mp h
    refine Sound.next (sound_push ⟨hdst, L.window_nil⟩ fun _ _ => trivial) ?_
    exact sound_comp (sound_setInsert (good_expr mapper hm) hdst) clauses hc
  | dictComp key value clauses =>
    obtain ⟨hk, h⟩ := List.forall_mem_append.mp h
    obtain ⟨hv, hc⟩ := List.forall_mem_append.mp h
    refine Sound.next (sound_push ⟨hdst, L.window_nil⟩ fun _ _ => trivial) ?_
    exact sound_comp (sound_dictSet (good_expr key hk) (good_expr value hv) hdst) clauses hc
  | dynCall targetIdent method args isView isPure => exact sound_compileDynCall hin (good_exprs args h) hdst
  | call module name args => exact sound_compileCall (good_exprs args h) hdst
  | tupleIndex target index =>
    exact sound_viaReg (good_expr target h) fun r hr => sound_push ⟨hdst, hr.reads⟩ fun _ _ => trivial
  | block b => exact good_blockInto b h floor dst hdst
  | ifElse cond body orElse =>
    obtain ⟨hc, h⟩ := List.forall_mem_append.mp h
    obtain ⟨hb, he⟩ := List.forall_mem_append.mp h
    exact sound_branch (good_expr cond hc) (good_blockInto body hb floor dst hdst)
      (good_elseInto orElse he floor dst hdst)
  | enumCtor enumName variant args => exact sound_compileEnum (good_exprs args h) hdst
  | matchOn scrut arms =>
    obtain ⟨hs, ha⟩ := List.forall_mem_append.mp h
    exact sound_compileMatch (good_expr scrut hs) (good_arms arms ha) hdst
  | jsonNull => exact sound_callBuiltin hdst L.window_nil
  | _ => exact sound_loadConst hdst

theorem good_exprs (es : List Expr) (h : ∀ name ∈ assignedExprs es, L.assignable name) :
    ∀ o ∈ exprOperands env inline es, Good L o := by
  match es with
  | [] => exact fun o ho => absurd ho List.not_mem_nil
  | e :: es =>
    obtain ⟨he, hes⟩ := List.forall_mem_append.mp h
    exact List.forall_mem_cons.mpr ⟨good_expr e he, good_exprs es hes⟩

theorem good_fields (fields : List (String × Expr)) (h : ∀ name ∈ assignedFields fields, L.assignable name) :
    ∀ p ∈ fieldOperands env inline fields, Good L p.2 := by
  match fields with
  | [] => exact fun o ho => absurd ho List.not_mem_nil
  | (name, e) :: fields =>
    obtain ⟨he, hrest⟩ := List.forall_mem_append.mp h
    exact List.forall_mem_cons.mpr ⟨good_expr e he, good_fields fields hrest⟩

theorem good_pairs (pairs : List (Expr × Expr)) (h : ∀ name ∈ assignedPairs pairs, L.assignable name) :
    ∀ o ∈ pairOperands env inline pairs, Good L o := by
  match pairs with
  | [] => exact fun o ho => absurd ho List.not_mem_nil
  | (k, v) :: pairs =>
    obtain ⟨hk, h⟩ := List.forall_mem_append.mp h
    obtain ⟨hv, hrest⟩ := List.forall_mem_append.mp h
    exact List.forall_mem_cons.mpr ⟨good_expr k hk, List.forall_mem_cons.mpr ⟨good_expr v hv, good_pairs pairs hrest⟩⟩

theorem good_arms (arms : List MatchArm) (h : ∀ name ∈ assignedArms arms, L.assignable name) :
    ∀ arm ∈ armOperands env inline arms, Good L arm.2 := by
  match arms with
  | [] => exact fun o ho => absurd ho List.not_mem_nil
  | .mk pattern body :: arms =>
    obtain ⟨hb, hrest⟩ := List.forall_mem_append.mp h
    exact List.forall_mem_cons.mpr ⟨good_expr body hb, good_arms arms hrest⟩

theorem sound_comp {floor : ℕ} {first : Bool} {leafExprs : List Expr} {leaf : Low Unit}
    (hleaf : Sound L floor leaf fun _ => True) (clauses : List CompClause)
    (h : ∀ name ∈ assignedClauses clauses, L.assignable name) :
    Sound L floor (lowerComp env inline first leafExprs leaf clauses) fun _ => True := by
  match clauses with
  | [] => exact hleaf
  | .bind var iter :: clauses =>
    obtain ⟨hi, hrest⟩ := List.forall_mem_append.mp h
    exact sound_loopOver (sound_clauseBody (sound_comp hleaf clauses hrest)) (good_expr iter hi)
  | .filter cond :: clauses =>
    obtain ⟨hc, hrest⟩ := List.forall_mem_append.mp h
    exact sound_compileFilter (good_expr cond hc) (sound_comp hleaf clauses hrest)

theorem good_blockInto (b : Block) (h : ∀ name ∈ assignedBlock b, L.assignable name) :
    Good L (compileBlockInto env inline b) := by
  intro floor dst hdst
  match b with
  | .mk stmts tail =>
    obtain ⟨hs, ht⟩ := List.forall_mem_append.mp h
    exact sound_inBlock (sound_stmts stmts hs floor) (good_tailInto tail ht floor dst hdst)

theorem good_tailInto (tail : Option Expr) (h : ∀ name ∈ assignedOption tail, L.assignable name) :
    Good L (compileTailInto env inline tail) := by
  intro floor dst hdst
  match tail with
  | none => exact sound_loadConst hdst
  | some e => exact good_expr e h floor dst hdst

theorem good_elseInto (orElse : ElseBranch) (h : ∀ name ∈ assignedElse orElse, L.assignable name) :
    Good L (compileElseInto env inline orElse) := by
  intro floor dst hdst
  match orElse with
  | .none => exact sound_loadConst hdst
  | .block b => exact good_blockInto b h floor dst hdst
  | .elseIf (.mk cond body orElse) =>
    obtain ⟨hc, h⟩ := List.forall_mem_append.mp h
    obtain ⟨hb, he⟩ := List.forall_mem_append.mp h
    exact sound_branch (good_expr cond hc) (good_blockInto body hb floor dst hdst)
      (good_elseInto orElse he floor dst hdst)

theorem sound_block (b : Block) (h : ∀ name ∈ assignedBlock b, L.assignable name) (floor : ℕ) :
    Sound L floor (compileBlock env inline b) fun _ => True := by
  match b with
  | .mk stmts none =>
    obtain ⟨hs, -⟩ := List.forall_mem_append.mp h
    exact sound_inBlock (sound_stmts stmts hs floor) sound_done
  | .mk stmts (some e) =>
    obtain ⟨hs, he⟩ := List.forall_mem_append.mp h
    exact sound_inBlock (sound_stmts stmts hs floor) (sound_viaReg (good_expr e he) fun _ _ => sound_done)

theorem sound_else (orElse : ElseBranch) (h : ∀ name ∈ assignedElse orElse, L.assignable name) (floor : ℕ) :
    Sound L floor (compileElse env inline orElse) fun _ => True := by
  match orElse with
  | .none => exact sound_done
  | .block b => exact sound_block b h floor
  | .elseIf s => exact sound_if s h floor

theorem sound_if (s : IfStmt) (h : ∀ name ∈ assignedIf s, L.assignable name) (floor : ℕ) :
    Sound L floor (compileIf env inline s) fun _ => True := by
  match s with
  | .mk cond body orElse =>
    obtain ⟨hc, h⟩ := List.forall_mem_append.mp h
    obtain ⟨hb, he⟩ := List.forall_mem_append.mp h
    exact sound_branch (good_expr cond hc) (sound_block body hb floor) (sound_else orElse he floor)

theorem sound_stmts (stmts : List Stmt) (h : ∀ name ∈ assignedStmts stmts, L.assignable name) (floor : ℕ) :
    Sound L floor (compileStmts env inline stmts) fun _ => True := by
  match stmts with
  | [] => exact sound_done
  | stmt :: stmts =>
    obtain ⟨hs, hrest⟩ := List.forall_mem_append.mp h
    exact (sound_stmt stmt hs floor).next (sound_stmts stmts hrest floor)

theorem sound_legs (stmts : List Stmt) (h : ∀ name ∈ assignedStmts stmts, L.assignable name) (floor : ℕ) :
    Sound L floor (compileLegs env inline stmts) fun ranges => ∀ range ∈ ranges, LegOk L range := by
  match stmts with
  | [] => exact sound_pure fun range hrange => absurd hrange List.not_mem_nil
  | stmt :: stmts =>
    obtain ⟨hs, h⟩ := List.forall_mem_append.mp h
    have hrest : ∀ range : ParallelRange, LegOk L range → Sound L floor (do
        let ranges ← compileLegs env inline stmts
        return range :: ranges) fun ranges => ∀ range ∈ ranges, LegOk L range := fun range hrange =>
      (sound_legs stmts h floor).bind fun _ hranges => sound_pure (List.forall_mem_cons.mpr ⟨hrange, hranges⟩)
    cases stmt with
    | letVar name ty value =>
      refine (sound_compileLeg ?_).bind hrest
      refine (sound_compileLet (good_expr value hs)).bind fun r hr => sound_pure fun r' hr' => ?_
      exact Option.some.inj hr' ▸ hr.writes
    | _ =>
      refine (sound_compileLeg ?_).bind hrest
      exact (sound_stmt _ hs floor).next (sound_pure fun r hr => by cases hr)

theorem sound_assignPath {floor : ℕ} (target : Expr) (h : ∀ name ∈ assignedTarget target, L.assignable name) {r : Reg}
    (hr : Owned L floor r) : Sound L floor (assignPath env inline target r) fun _ => True := by
  cases target with
  | ident name => exact sound_assignIdent (h name List.mem_cons_self) hr.reads
  | index target key => exact sound_assignIndex (good_expr key h) hr
  | field inner name =>
    obtain ⟨hi, ht⟩ := List.forall_mem_append.mp h
    exact sound_assignField (good_expr inner hi) (fun tmp htmp => sound_assignPath inner ht htmp) hr.reads
  | _ => exact sound_fail _

theorem good_limit (limit : Option Expr) (h : ∀ name ∈ assignedOption limit, L.assignable name) :
    ∀ o ∈ limitOperand env inline limit, Good L o := by
  match limit with
  | none => exact fun o ho => by cases ho
  | some e => exact fun o ho => Option.some.inj ho ▸ good_expr e h

theorem sound_stmt (stmt : Stmt) (h : ∀ name ∈ assignedStmt stmt, L.assignable name) (floor : ℕ) :
    Sound L floor (compileStmt env inline stmt) fun _ => True := by
  match stmt with
  | .letVar name ty value => exact (sound_compileLet (good_expr value h)).bind fun _ _ => sound_done
  | .assign target value =>
    obtain ⟨hv, ht⟩ := List.forall_mem_append.mp h
    exact sound_viaReg (good_expr value hv) fun r hr => sound_assignPath target ht hr
  | .ret (some e) | .emit e =>
    exact sound_viaReg (good_expr e h) fun r hr => sound_push hr.reads fun _ _ => trivial
  | .ret none => exact sound_push trivial fun _ _ => trivial
  | .ifStmt s => exact sound_if s h floor
  | .whileLoop cond body =>
    obtain ⟨hc, hb⟩ := List.forall_mem_append.mp h
    exact sound_compileWhile (good_expr cond hc) (sound_block body hb floor)
  | .forLoop var iter limit body =>
    obtain ⟨hi, h⟩ := List.forall_mem_append.mp h
    obtain ⟨hl, hb⟩ := List.forall_mem_append.mp h
    exact sound_compileFor (good_expr iter hi) (good_limit limit hl) (sound_block body hb floor)
  | .forRange var first last inclusive body =>
    obtain ⟨hf, h⟩ := List.forall_mem_append.mp h
    obtain ⟨hl, hb⟩ := List.forall_mem_append.mp h
    exact sound_compileForRange (good_expr first hf) (good_expr last hl) (sound_block body hb floor)
  | .placeholder => exact sound_fail _
  | .breakStmt => exact sound_compileBreak
  | .continueStmt => exact sound_compileContinue
  | .expr e => exact sound_viaReg (good_expr e h) fun _ _ => sound_done
  | .delete target =>
    cases target with
    | index target key => exact sound_compileDelete (good_expr key h)
    | _ => exact sound_fail _
  | .letTuple names value => exact sound_compileLetTuple (good_expr value h)
  | .parallel stmts => exact sound_compileParallel (sound_legs stmts h floor)
  | .parallelForTo idVar idxVar source output body =>
    obtain ⟨hs, h⟩ := List.forall_mem_append.mp h
    obtain ⟨ho, hb⟩ := List.forall_mem_append.mp h
    refine sound_compileParallelFor (good_expr source hs) (fun name hname => ?_) (good_blockInto body hb)
    exact ho name (hname ▸ List.mem_cons_self)

end

end Tree

end Rend.Compile
