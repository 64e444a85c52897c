import Rend.Compile.Frees
import Rend.Lib.Checks

/-!
# Operands that are not truncated

The lowering of a whole tree gives only registers back that it has taken (`frees_expr`), so the functions of a
module are compiled without loss exactly when the numbers that the lowering counts to fit the fields they are
written into (`lossless_iff`).
-/

namespace Rend.Compile

open Ast Lib

/-! ### The tree -/

section Tree

set_option linter.unusedSectionVars false

variable {env : Env} {inline : Expr → Operand} (hin : ∀ e, Frugal (inline e))

include hin

mutual

theorem frees_expr (e : Expr) : Frugal (compileExprInto env inline e) := by
  intro dst
  cases e with
  | jsonObject pairs => exact frees_compileJsonObject (frees_fields pairs)
  | jsonArray items => exact frees_compileJsonArray (frees_exprs items)
  | ident name => exact frees_compileIdent hin name dst
  | binary op lhs rhs =>
    refine gives_bind.mpr ((frees_expr lhs dst).then fun _ => ?_)
    exact frees_viaReg_push (frees_expr rhs)
  | unary op operand => exact gives_bind.mpr ((frees_expr operand dst).then fun _ => gives_push.mpr trivial)
  | index target key => exact frees_compileIndex (frees_expr target) (frees_expr key)
  | array elems | setLit elems | tupleLit elems =>
    exact frees_viaWindow (frees_exprs elems) fun start => gives_push.mpr trivial
  | arrayAlloc elemTy len => exact frees_compileArrayAlloc hin (frees_expr len)
  | reserve count state => exact frees_compileReserve (frees_expr count)
  | explicitLiteral inner => exact frees_expr inner dst
  | structLit name fields => exact frees_compileStruct (frees_fields fields)
  | field target name => exact frees_compileField (frees_expr target) name
  | prev => exact frees_compilePrev dst
  | pipe head step => exact frees_compilePipe (frees_expr head) (frees_expr step)
  | dictLit pairs => exact frees_viaWindow (frees_pairs pairs) fun start => gives_push.mpr trivial
  | listComp mapper clauses =>
    exact gives_bind.mpr (gives_push.mpr (frees_comp (frees_viaReg_push (frees_expr mapper)) clauses))
  | setComp mapper clauses =>
    exact gives_bind.mpr (gives_push.mpr (frees_comp (frees_setInsert (frees_expr mapper)) clauses))
  | dictComp key value clauses =>
    exact gives_bind.mpr (gives_push.mpr (frees_comp (frees_dictSet (frees_expr key) (frees_expr value)) clauses))
  | dynCall targetIdent method args isView isPure => exact frees_compileDynCall hin (frees_exprs args)
  | call module name args => exact frees_compileCall (frees_exprs args)
  | tupleIndex target index => exact frees_viaReg_push (frees_expr target)
  | block b => exact frees_blockInto b dst
  | ifElse cond body orElse => exact frees_branch (frees_expr cond) (frees_blockInto body dst) (frees_elseInto orElse dst)
  | enumCtor enumName variant args => exact frees_compileEnum (frees_exprs args)
  | matchOn scrut arms => exact frees_compileMatch (frees_expr scrut) (frees_arms arms)
  | jsonNull => exact gives_callBuiltin.mpr trivial
  | _ => exact gives_loadConst.mpr trivial

theorem frees_exprs (es : List Expr) : ∀ o ∈ exprOperands env inline es, Frugal o := by
  cases es with
  | nil => exact fun o ho => absurd ho List.not_mem_nil
  | cons e es => exact List.forall_mem_cons.mpr ⟨frees_expr e, frees_exprs es⟩

theorem frees_fields (fields : List (String × Expr)) : ∀ p ∈ fieldOperands env inline fields, Frugal p.2 := by
  match fields with
  | [] => exact fun o ho => absurd ho List.not_mem_nil
  | (name, e) :: fields => exact List.forall_mem_cons.mpr ⟨frees_expr e, frees_fields fields⟩

theorem frees_pairs (pairs : List (Expr × Expr)) : ∀ o ∈ pairOperands env inline pairs, Frugal o := by
  match pairs with
  | [] => exact fun o ho => absurd ho List.not_mem_nil
  | (k, v) :: pairs =>
    exact List.forall_mem_cons.mpr ⟨frees_expr k, List.forall_mem_cons.mpr ⟨frees_expr v, frees_pairs pairs⟩⟩

theorem frees_arms (arms : List MatchArm) : ∀ arm ∈ armOperands env inline arms, Frugal arm.2 := by
  match arms with
  | [] => exact fun o ho => absurd ho List.not_mem_nil
  | .mk pattern body :: arms => exact List.forall_mem_cons.mpr ⟨frees_expr body, frees_arms arms⟩

theorem frees_comp {first : Bool} {leafExprs : List Expr} {leaf : Low Unit} (hleaf : FreesTaken leaf)
    (clauses : List CompClause) : FreesTaken (lowerComp env inline first leafExprs leaf clauses) := by
  match clauses with
  | [] => exact hleaf
  | .bind var iter :: clauses => exact frees_loopOver (frees_expr iter) (frees_clauseBody (frees_comp hleaf clauses))
  | .filter cond :: clauses => exact frees_compileFilter (frees_expr cond) (frees_comp hleaf clauses)

theorem frees_blockInto (b : Block) : Frugal (compileBlockInto env inline b) := by
  intro dst
  match b with
  | .mk stmts tail => exact frees_inBlock (frees_stmts stmts) (frees_tailInto tail dst)

theorem frees_tailInto (tail : Option Expr) : Frugal (compileTailInto env inline tail) := by
  intro dst
  match tail with
  | none => exact gives_loadConst.mpr trivial
  | some e => exact frees_expr e dst

theorem frees_elseInto (orElse : ElseBranch) : Frugal (compileElseInto env inline orElse) := by
  intro dst
  match orElse with
  | .none => exact gives_loadConst.mpr trivial
  | .block b => exact frees_blockInto b dst
  | .elseIf (.mk cond body orElse) =>
    exact frees_branch (frees_expr cond) (frees_blockInto body dst) (frees_elseInto orElse dst)

theorem frees_block (b : Block) : FreesTaken (compileBlock env inline b) := by
  match b with
  | .mk stmts none => exact frees_inBlock (frees_stmts stmts) (gives_pure _ |>.mpr trivial)
  | .mk stmts (some e) =>
    exact frees_inBlock (frees_stmts stmts) (frees_viaReg (frees_expr e) fun _ _ => (gives_pure _).mpr trivial)

theorem frees_else (orElse : ElseBranch) : FreesTaken (compileElse env inline orElse) := by
  match orElse with
  | .none => exact (gives_pure _).mpr trivial
  | .block b => exact frees_block b
  | .elseIf s => exact frees_if s

theorem frees_if (s : IfStmt) : FreesTaken (compileIf env inline s) := by
  match s with
  | .mk cond body orElse => exact frees_branch (frees_expr cond) (frees_block body) (frees_else orElse)

theorem frees_stmts (stmts : List Stmt) : FreesTaken (compileStmts env inline stmts) := by
  match stmts with
  | [] => exact (gives_pure _).mpr trivial
  | stmt :: stmts => exact gives_bind.mpr ((frees_stmt stmt).then fun _ => frees_stmts stmts)

theorem frees_legs (stmts : List Stmt) : FreesTaken (compileLegs env inline stmts) := by
  match stmts with
  | [] => exact (gives_pure _).mpr trivial
  | stmt :: stmts =>
    have hrest : ∀ range : ParallelRange, FreesTaken (do
        let ranges ← compileLegs env inline stmts
        return range :: ranges) := fun range =>
      gives_bind.mpr ((frees_legs stmts).then fun _ => trivial)
    cases stmt with
    | letVar name ty value =>
      refine gives_bind.mpr (FreesTaken.then (frees_compileLeg ?_) hrest)
      exact gives_bind.mpr ((frees_compileLet (frees_expr value)).then fun _ => trivial)
    | _ =>
      refine gives_bind.mpr (FreesTaken.then (frees_compileLeg ?_) hrest)
      exact gives_bind.mpr ((frees_stmt _).then fun _ => trivial)

theorem frees_assignPath (target : Expr) {r : Reg} (hr : Taken r) : FreesTaken (assignPath env inline target r) := by
  cases target with
  | ident name => exact frees_assignIdent
  | index target key => exact frees_assignIndex (frees_expr key) hr
  | field inner name => exact frees_assignField (frees_expr inner) fun tmp htmp => frees_assignPath inner htmp
  | _ => exact gives_fail _

theorem frees_limit (limit : Option Expr) : ∀ o ∈ limitOperand env inline limit, Frugal o := by
  match limit with
  | none => exact fun o ho => by cases ho
  | some e => exact fun o ho => Option.some.inj ho ▸ frees_expr e

theorem frees_stmt (stmt : Stmt) : FreesTaken (compileStmt env inline stmt) := by
  match stmt with
  | .letVar name ty value => exact gives_bind.mpr ((frees_compileLet (frees_expr value)).then fun _ => trivial)
  | .assign target value => exact frees_viaReg (frees_expr value) fun r hr => frees_assignPath target hr
  | .ret (some e) | .emit e => exact frees_viaReg_push (frees_expr e)
  | .ret none => exact gives_push.mpr trivial
  | .ifStmt s => exact frees_if s
  | .whileLoop cond body => exact frees_compileWhile (frees_expr cond) (frees_block body)
  | .forLoop var iter limit body => exact frees_compileFor (frees_expr iter) (frees_limit limit) (frees_block body)
  | .forRange var first last inclusive body =>
    exact frees_compileForRange (frees_expr first) (frees_expr last) (frees_block body)
  | .placeholder => exact gives_fail _
  | .breakStmt => exact frees_compileBreak
  | .continueStmt => exact frees_compileContinue
  | .expr e => exact frees_viaReg (frees_expr e) fun _ _ => (gives_pure _).mpr trivial
  | .delete target =>
    cases target with
    | index target key => exact frees_compileDelete (frees_expr key)
    | _ => exact gives_fail _
  | .letTuple names value => exact frees_compileLetTuple (frees_expr value)
  | .parallel stmts => exact frees_compileParallel (frees_legs stmts)
  | .parallelForTo idVar idxVar source output body =>
    exact frees_compileParallelFor (frees_expr source) (frees_blockInto body)

end

end Tree

/-! ### Functions -/

section Functions

variable {env : Env} {depth : ℕ}

theorem frees_exprAt (depth : ℕ) (e : Expr) : Frugal (compileExprAt env depth e) := by
  induction depth generalizing e with
  | zero => exact fun dst => gives_fail _
  | succ depth ih => exact frees_expr ih e

theorem frees_returnTail (tail : Option Expr) : FreesTaken (returnTail env depth tail) := by
  cases tail with
  | none => exact (gives_pure _).mpr trivial
  | some e => exact frees_viaReg_push (frees_expr (frees_exprAt depth) e)

theorem frees_fnBody (body : Block) : FreesTaken (compileFnBody env depth body) :=
  frees_inBlock (frees_stmts (frees_exprAt depth) body.stmts) (frees_returnTail body.tail)

/-- The numbers of functions and of the paths they share fit their fields. -/
structure Fitting (r : List BcFn × PathTables) : Prop where
  regs : ∀ f ∈ r.1, f.nRegs < 2 ^ 16
  code : ∀ f ∈ r.1, ∀ i ∈ f.code, FitsFields i
  paths : ∀ p ∈ r.2.index, p.1.1 < 2 ^ 16

/-- The parameters that fit are bound to the registers they are meant for. -/
theorem initial_agree {f : FnDef} (h : f.params.length < 2 ^ 16) (paths : PathTables) :
    initial machine f paths = initial unbounded f paths := by
  have hlen : f.params.length % 2 ^ 16 = f.params.length := Nat.mod_eq_of_lt h
  have hnames : (f.params.zipIdx.map fun p => (p.1.name, p.2 % 2 ^ 16)) =
      f.params.zipIdx.map fun p => (p.1.name, p.2) := by
    refine List.map_congr_left fun p hp => ?_
    have hp2 : p.2 < f.params.length := by simpa using List.snd_lt_of_mem_zipIdx hp
    rw [Nat.mod_eq_of_lt (hp2.trans h)]
  show ({ initial unbounded f paths with
    scopes := [(f.params.zipIdx.map fun p => (p.1.name, p.2 % 2 ^ 16)).reverse]
    nextReg := f.params.length % 2 ^ 16
    maxReg := f.params.length % 2 ^ 16 } : FnCompiler) = _
  rw [hlen, hnames]
  rfl

/-- The code of a function is what its body is lowered to, but for a return at its end. -/
theorem forall_code {code : List Instr} {P : Instr → Prop} (hP : P .returnUnit) :
    (∀ i ∈ if endsInReturn code then code else code ++ [.returnUnit], P i) ↔ ∀ i ∈ code, P i := by
  split
  · rfl
  · simp only [List.forall_mem_append, List.forall_mem_singleton]
    exact and_iff_left hP

/-- **A function is compiled without loss**, when its numbers fit; what came before it fits too. -/
theorem compileFn_agree {f : FnDef} {paths paths' : PathTables} {fn : BcFn}
    (h : compileFn env depth unbounded f paths = .ok (fn, paths')) (hregs : fn.nRegs < 2 ^ 16)
    (hcode : ∀ i ∈ fn.code, FitsFields i) (hpaths : ∀ p ∈ paths'.index, p.1.1 < 2 ^ 16) :
    compileFn env depth machine f paths = .ok (fn, paths') ∧ ∀ p ∈ paths.index, p.1.1 < 2 ^ 16 := by
  unfold compileFn at h
  obtain ⟨⟨u, s⟩, hrun, h⟩ := bind_ok h
  cases h
  have hfit : Fits s := ⟨hregs, (forall_code (P := FitsFields) rfl).mp hcode, hpaths⟩
  have hstart : Fits (initial unbounded f paths) := fits_run_back hrun hfit
  have hinit : initial machine f paths = initial unbounded f paths := initial_agree hstart.regs paths
  have hlen : machine.u16 f.params.length = f.params.length := Nat.mod_eq_of_lt hstart.regs
  have hmachine := run_agree (frees_fnBody f.body) hrun hfit
  refine ⟨?_, hstart.paths⟩
  unfold compileFn
  rw [hinit, hmachine, hlen]
  rfl

/-- What the code compiles fits. -/
theorem compileFn_fits {f : FnDef} {paths paths' : PathTables} {fn : BcFn}
    (h : compileFn env depth machine f paths = .ok (fn, paths')) (hpaths : ∀ p ∈ paths.index, p.1.1 < 2 ^ 16) :
    fn.nRegs < 2 ^ 16 ∧ (∀ i ∈ fn.code, FitsFields i) ∧ ∀ p ∈ paths'.index, p.1.1 < 2 ^ 16 := by
  unfold compileFn at h
  obtain ⟨⟨u, s⟩, hrun, h⟩ := bind_ok h
  cases h
  have hstart : Fits (initial machine f paths) :=
    ⟨Nat.mod_lt _ (by decide), fun i hi => absurd hi List.not_mem_nil, hpaths⟩
  have hfit : Fits s := fits_run hstart hrun
  exact ⟨hfit.regs, (forall_code (P := FitsFields) rfl).mpr hfit.code, hfit.paths⟩

theorem compileFunctions_agree {fns : List FnDef} {paths : PathTables} {r : List BcFn × PathTables}
    (h : compileFunctions env depth unbounded fns paths = .ok r) (hfit : Fitting r) :
    compileFunctions env depth machine fns paths = .ok r ∧ ∀ p ∈ paths.index, p.1.1 < 2 ^ 16 := by
  induction fns generalizing paths r with
  | nil =>
    cases h
    exact ⟨rfl, hfit.paths⟩
  | cons f fns ih =>
    obtain ⟨⟨fn, mid⟩, hfn, h⟩ := bind_ok h
    obtain ⟨⟨rest, last⟩, hrest, h⟩ := bind_ok h
    cases h
    obtain ⟨hregs, hregsRest⟩ := List.forall_mem_cons.mp hfit.regs
    obtain ⟨hcode, hcodeRest⟩ := List.forall_mem_cons.mp hfit.code
    obtain ⟨htail, hmid⟩ := ih hrest ⟨hregsRest, hcodeRest, hfit.paths⟩
    obtain ⟨hhead, hpaths⟩ := compileFn_agree hfn hregs hcode hmid
    refine ⟨?_, hpaths⟩
    rw [compileFunctions, hhead]
    show (compileFunctions env depth machine fns mid >>= _) = _
    rw [htail]
    rfl

theorem compileFunctions_fits {fns : List FnDef} {paths : PathTables} {r : List BcFn × PathTables}
    (h : compileFunctions env depth machine fns paths = .ok r) (hpaths : ∀ p ∈ paths.index, p.1.1 < 2 ^ 16) :
    Fitting r := by
  induction fns generalizing paths r with
  | nil =>
    cases h
    exact ⟨fun f hf => absurd hf List.not_mem_nil, fun f hf => absurd hf List.not_mem_nil, hpaths⟩
  | cons f fns ih =>
    obtain ⟨⟨fn, mid⟩, hfn, h⟩ := bind_ok h
    obtain ⟨⟨rest, last⟩, hrest, h⟩ := bind_ok h
    cases h
    obtain ⟨hregs, hcode, hmid⟩ := compileFn_fits hfn hpaths
    have htail : Fitting (rest, last) := ih hrest hmid
    exact ⟨List.forall_mem_cons.mpr ⟨hregs, htail.regs⟩, List.forall_mem_cons.mpr ⟨hcode, htail.code⟩, htail.paths⟩

/-- **Compilation loses nothing exactly when what is meant fits.** The functions that the compiler accepts are
those that the lowering means, number for number, if and only if the numbers it means fit their fields. -/
theorem lossless_iff {fns : List FnDef} {r : List BcFn × PathTables}
    (h : compileFunctions env depth machine fns ⟨[], []⟩ = .ok r) :
    compileFunctions env depth unbounded fns ⟨[], []⟩ = .ok r ↔
      ∃ meant, compileFunctions env depth unbounded fns ⟨[], []⟩ = .ok meant ∧ Fitting meant := by
  constructor
  · intro hmeant
    exact ⟨r, hmeant, compileFunctions_fits h fun p hp => absurd hp List.not_mem_nil⟩
  · rintro ⟨meant, hmeant, hfit⟩
    have hagree := (compileFunctions_agree hmeant hfit).1
    rw [h] at hagree
    cases hagree
    exact hmeant

end Functions

/-! ### Long literals -/

section Literals

variable (env : Env) (inline : Expr → Operand) (w : Widths) (depth : ℕ)

/-- A function that returns a JSON object with an array of `n` nulls. -/
def nullArray (n : ℕ) : FnDef where
  name := "nulls"
  params := []
  returnType := .json
  body := .mk [] (some (.jsonObject [("nulls", .jsonArray (List.replicate n .jsonNull))]))
  isNore := false
  isEntry := false
  isView := false
  isPure := true
  modifiers := []

theorem run_freeAll (rs : List Reg) (s : FnCompiler) :
    ∃ t, (freeAll rs).run (exec w env) s = .ok ((), t) ∧ t.code = s.code := by
  induction rs generalizing s with
  | nil => exact ⟨s, rfl, rfl⟩
  | cons r rs ih =>
    have hfree : ∃ t, (free r).run (exec w env) s = .ok ((), t) ∧ t.code = s.code := by
      refine ⟨_, rfl, ?_⟩
      split <;> rfl
    obtain ⟨mid, hmid, hcode⟩ := hfree
    obtain ⟨t, ht, hcode'⟩ := ih mid
    exact ⟨t, Script.run_bind_ok.mpr ⟨(), mid, hmid, ht⟩, hcode'.trans hcode⟩

theorem run_nulls (n : ℕ) (s : FnCompiler) :
    ∃ regs t, (compileItems (exprOperands env inline (List.replicate n .jsonNull))).run (exec w env) s =
      .ok (regs, t) := by
  induction n generalizing s with
  | zero => exact ⟨[], s, rfl⟩
  | succ n ih =>
    obtain ⟨mid, hmid⟩ : ∃ mid, (callBuiltin s.nextReg "_json_null" 0 0).run (exec w env) (bump w s) = .ok ((), mid) :=
      ⟨_, rfl⟩
    obtain ⟨regs, t, ht⟩ := ih mid
    refine ⟨s.nextReg :: regs, t, ?_⟩
    refine Script.run_bind_ok.mpr ⟨s.nextReg, bump w s, rfl, Script.run_bind_ok.mpr ⟨(), mid, hmid, ?_⟩⟩
    exact Script.run_bind_ok.mpr ⟨regs, t, ht, rfl⟩

theorem length_exprOperands (es : List Expr) : (exprOperands env inline es).length = es.length := by
  induction es with
  | nil => rfl
  | cons e es ih => exact congrArg Nat.succ ih

/-- The call of a builtin on `n` operands is among the code. -/
def CallsWith (code : List Instr) (n : ℕ) : Prop := ∃ dst nameIdx start, .builtinCall dst nameIdx start n ∈ code

theorem run_nullArray (n : ℕ) (dst : Reg) (s : FnCompiler) :
    ∃ t, (compileExprInto env inline (.jsonArray (List.replicate n .jsonNull)) dst).run (exec w env) s = .ok ((), t) ∧
      CallsWith t.code (w.u8 n) := by
  obtain ⟨regs, mid, hitems⟩ := run_nulls env inline w n s
  obtain ⟨mid', hcall, hcode⟩ : ∃ mid', (callBuiltin dst "_json_array" (regs.headD 0) n).run (exec w env) mid =
      .ok ((), mid') ∧ CallsWith mid'.code (w.u8 n) :=
    ⟨_, rfl, _, _, _, List.mem_append_right _ (List.mem_singleton.mpr rfl)⟩
  obtain ⟨t, hfree, hsame⟩ := run_freeAll env w regs.reverse mid'
  refine ⟨t, ?_, hsame ▸ hcode⟩
  refine Script.run_bind_ok.mpr ⟨regs, mid, hitems, Script.run_bind_ok.mpr ⟨(), mid', ?_, hfree⟩⟩
  rw [length_exprOperands, List.length_replicate]
  exact hcall

theorem CallsWith.mono {code code' : List Instr} {n : ℕ} (h : CallsWith code n) (hsub : code ⊆ code') :
    CallsWith code' n := by
  obtain ⟨dst, nameIdx, start, hmem⟩ := h
  exact ⟨dst, nameIdx, start, hsub hmem⟩

theorem run_nullObject (n : ℕ) (dst : Reg) (s : FnCompiler) :
    ∃ t, (compileExprInto env inline (.jsonObject [("nulls", .jsonArray (List.replicate n .jsonNull))]) dst).run
      (exec w env) s = .ok ((), t) ∧ CallsWith t.code (w.u8 n) := by
  obtain ⟨keyed, hkey⟩ : ∃ keyed, (loadConst s.nextReg (.str "nulls")).run (exec w env) (bump w s) = .ok ((), keyed) :=
    ⟨_, rfl⟩
  obtain ⟨mid, hmid, hcalls⟩ :=
    run_nullArray env inline w n keyed.nextReg (bump w keyed)
  obtain ⟨mid', hcall, hsub⟩ : ∃ mid', (callBuiltin dst "_json_object" s.nextReg 2).run (exec w env) mid =
      .ok ((), mid') ∧ mid.code ⊆ mid'.code := by
    have hsame : (addConst (.str "_json_object") mid).2.code = mid.code := by
      unfold addConst
      split <;> rfl
    refine ⟨_, rfl, ?_⟩
    show mid.code ⊆ (addConst (.str "_json_object") mid).2.code ++ [_]
    rw [hsame]
    exact List.subset_append_left _ _
  obtain ⟨t, hfree, hsame⟩ := run_freeAll env w [keyed.nextReg, s.nextReg] mid'
  refine ⟨t, ?_, hcalls.mono (hsame ▸ hsub)⟩
  refine Script.run_bind_ok.mpr ⟨[s.nextReg, keyed.nextReg], mid, ?_, Script.run_bind_ok.mpr ⟨(), mid', hcall, hfree⟩⟩
  refine Script.run_bind_ok.mpr ⟨s.nextReg, bump w s, rfl, Script.run_bind_ok.mpr ⟨(), keyed, hkey, ?_⟩⟩
  refine Script.run_bind_ok.mpr ⟨keyed.nextReg, bump w keyed, rfl, Script.run_bind_ok.mpr ⟨(), mid, hmid, rfl⟩⟩

theorem run_nullBody (n : ℕ) (s : FnCompiler) :
    ∃ t, (compileFnBody env depth (nullArray n).body).run (exec w env) s = .ok ((), t) ∧ CallsWith t.code (w.u8 n) := by
  have htail : ∀ s, ∃ t, (returnTail env depth (nullArray n).body.tail).run (exec w env) s = .ok ((), t) ∧
      CallsWith t.code (w.u8 n) := by
    intro s
    obtain ⟨mid, hmid, hcalls⟩ :=
      run_nullObject env (compileExprAt env depth) w n s.nextReg (bump w s)
    refine ⟨_, Script.run_bind_ok.mpr ⟨s.nextReg, _, rfl, Script.run_bind_ok.mpr ⟨(), mid, hmid, rfl⟩⟩, ?_⟩
    split <;> exact hcalls.mono (List.subset_append_left _ _)
  obtain ⟨t, ht, hcalls⟩ := htail { s with scopes := [] :: s.scopes }
  refine ⟨{ t with scopes := t.scopes.tail, nextReg := s.nextReg }, ?_, hcalls⟩
  refine Script.run_bind_ok.mpr ⟨(), _, rfl, Script.run_bind_ok.mpr ⟨s.nextReg, _, rfl, ?_⟩⟩
  exact Script.run_bind_ok.mpr ⟨(), _, rfl, Script.run_bind_ok.mpr ⟨(), t, ht, rfl⟩⟩

/-- The literal is built from as many operands as the conversion to `u8` leaves of their number. -/
theorem nullArray_calls (n : ℕ) :
    ∃ r, compileFunctions env depth w [nullArray n] ⟨[], []⟩ = .ok r ∧ ∃ fn ∈ r.1, CallsWith fn.code (w.u8 n) := by
  obtain ⟨s, hrun, hcalls⟩ :=
    run_nullBody env w depth n (initial w (nullArray n) ⟨[], []⟩)
  cases hfn : compileFn env depth w (nullArray n) ⟨[], []⟩ with
  | error e =>
    rw [compileFn, hrun] at hfn
    cases hfn
  | ok r =>
    refine ⟨([r.1], r.2), by rw [compileFunctions, hfn]; rfl, r.1, List.mem_singleton.mpr rfl, hcalls.mono ?_⟩
    rw [compileFn, hrun] at hfn
    cases hfn
    show s.code ⊆ if endsInReturn s.code then s.code else s.code ++ [.returnUnit]
    split
    · exact List.Subset.refl _
    · exact List.subset_append_left _ _

end Literals

/-- A module without states, constants and other declarations. -/
def emptyModule : Env where
  fnIndex _ := none
  importIndex _ := none
  stateIndex _ := none
  stateTypes := []
  stateRoots := []
  structIndex _ := none
  structShapes := []
  statesByName _ := none
  summaries _ := none
  enumIndex _ := none
  enumShapes := []
  ifaceIndex _ := false
  moduleConsts _ := none
  externFnFlags _ := none
  indexesByPrimary _ := []
  typeText _ := ""

/-- `pure fn twice(x: int) -> int { x + x }` -/
def twice : FnDef where
  name := "twice"
  params := [⟨"x", .int⟩]
  returnType := .int
  body := .mk [] (some (.binary .add (.ident "x") (.ident "x")))
  isNore := false
  isEntry := false
  isView := false
  isPure := true
  modifiers := []

/-- A function that calls the first one and returns
`{ "n": n, "twice": m, "list": [1, null, 2, true, "x", { "a": 3 }, null, m] }`. -/
def report : FnDef where
  name := "report"
  params := [⟨"n", .int⟩]
  returnType := .json
  body := .mk [.letVar "m" none (.call none "twice" [.ident "n"])]
    (some (.jsonObject [("n", .ident "n"), ("twice", .ident "m"),
      ("list", .jsonArray [.int 1, .jsonNull, .int 2, .bool true, .str "x", .jsonObject [("a", .int 3)], .jsonNull,
        .ident "m"])]))
  isNore := false
  isEntry := false
  isView := false
  isPure := true
  modifiers := []

/-- The module of the two functions. -/
def reporting : Env :=
  { emptyModule with fnIndex := fun name => if name = "twice" then some 0 else if name = "report" then some 1 else none }

/-- A call, an object and a longer literal are compiled as they are meant, and so all numbers meant fit. -/
theorem lossless_iff_report :
    ∃ r, compileFunctions reporting 0 machine [twice, report] ⟨[], []⟩ = .ok r ∧
      ∃ meant, compileFunctions reporting 0 unbounded [twice, report] ⟨[], []⟩ = .ok meant ∧ Fitting meant :=
  ⟨_, rfl, (lossless_iff rfl).mp rfl⟩

/-- An array of 256 nulls is compiled to a call on no operand, where 256 are meant. -/
theorem nulls_truncated :
    ∃ r, compileFunctions emptyModule 0 machine [nullArray 256] ⟨[], []⟩ = .ok r ∧
      (∃ fn ∈ r.1, CallsWith fn.code 0) ∧
      compileFunctions emptyModule 0 unbounded [nullArray 256] ⟨[], []⟩ ≠ .ok r := by
  obtain ⟨r, hr, hcode⟩ := nullArray_calls emptyModule machine 0 256
  refine ⟨r, hr, hcode, fun hmeant => ?_⟩
  obtain ⟨r', hr', fn, hfn, dst, nameIdx, start, hmem⟩ :=
    nullArray_calls emptyModule unbounded 0 256
  cases hmeant.symm.trans hr'
  have hfit : FitsFields (.builtinCall dst nameIdx start 256) :=
    (compileFunctions_fits hr fun p hp => absurd hp List.not_mem_nil).code fn hfn _ hmem
  have hargs : 256 % 2 ^ 8 = 256 := by
    injection hfit
  exact absurd hargs (by decide)

end Rend.Compile
