import Rend.Affine.Check

/-!
# Constants in place

A constant is compiled by putting its right-hand side where its name stands (`compile.rs`). The right-hand side is
compiled in the scope of the use: a name in it is a variable there first, then a state, then a constant. `inlined`
makes the function that is compiled out of the one that is written, and the pass makes no difference between the two
(`checkFn_inlined`): it looks a constant up as a name, and never at its right-hand side.

Whether a value may be used twice is a matter of the declarations (`Module.copy`, `copy_iff`). A type the pass is given
may keep less than its declaration says: `resolve_types` leaves a name inside a name without its content, and the struct
of another module with the names that module has written.
-/

namespace Rend.Affine

open Lib

/-! ### The scope of a name -/

mutual

/-- The names a statement binds for what follows it. -/
def binds : Stmt → List String
  | .let x _ _ _ => [x]
  | .letTuple names _ => names.map Prod.fst
  | .parallel stmts => bindsAll stmts
  | _ => []

/-- The names statements bind for what follows them. -/
def bindsAll : List Stmt → List String
  | [] => []
  | s :: ss => binds s ++ bindsAll ss

end

/-- The names the clauses of a comprehension bind. -/
def clauseNames : List CompClause → List String
  | [] => []
  | .for x _ _ :: clauses => x :: clauseNames clauses
  | .if _ :: clauses => clauseNames clauses

/-! ### Putting constants in place -/

/-- What a name is compiled to in the scope of some variables. -/
abbrev NameUse := List String → String → Span → Expr

mutual

/-- An expression in the scope of the variables `L`, its names as they are compiled. -/
def inlineExpr (use : NameUse) (L : List String) : Expr → Expr
  | .lit ty => .lit ty
  | .json items => .json (inlineExprs use L items)
  | .ident x span => use L x span
  | .const x span value => .const x span value
  | .op op operands => .op op (inlineExprs use L operands)
  | .call module name args span => .call module name (inlineExprs use L args) span
  | .dynCall target args => .dynCall target (inlineExprs use L args)
  | .index target key => .index (inlineExpr use L target) (inlineExpr use L key)
  | .explicitLiteral inner => .explicitLiteral (inlineExpr use L inner)
  | .structLit name fields => .structLit name (inlineExprs use L fields)
  | .field root path ty => .field (inlineExpr use L root) path ty
  | .prev => .prev
  | .pipe head ty step => .pipe (inlineExpr use L head) ty (inlineExpr use L step)
  | .comp results clauses =>
    .comp (inlineExprs use (clauseNames clauses ++ L) results) (inlineClauses use L clauses)
  | .matchArms scrut arms => .matchArms (inlineExpr use L scrut) (inlineArms use L arms)
  | .block body => .block (inlineBlock use L body)
  | .ite branch => .ite (inlineIf use L branch)

/-- Expressions in one scope. -/
def inlineExprs (use : NameUse) (L : List String) : List Expr → List Expr
  | [] => []
  | e :: es => inlineExpr use L e :: inlineExprs use L es

/-- An expression that may be absent. -/
def inlineOpt (use : NameUse) (L : List String) : Option Expr → Option Expr
  | none => none
  | some e => some (inlineExpr use L e)

/-- The clauses of a comprehension, each in the scope of those before it. -/
def inlineClauses (use : NameUse) (L : List String) : List CompClause → List CompClause
  | [] => []
  | .for x ty iter :: clauses => .for x ty (inlineExpr use L iter) :: inlineClauses use (x :: L) clauses
  | .if cond :: clauses => .if (inlineExpr use L cond) :: inlineClauses use L clauses

/-- The arms of a match. -/
def inlineArms (use : NameUse) (L : List String) : List MatchArm → List MatchArm
  | [] => []
  | .mk bindings body :: arms =>
    .mk bindings (inlineExpr use (bindings.map Prod.fst ++ L) body) :: inlineArms use L arms

/-- The place of an assignment. -/
def inlinePlace (use : NameUse) (L : List String) : Place → Place
  | .var name => .var name
  | .index state key => .index state (inlineExpr use L key)
  | .field base name => .field (inlinePlace use L base) name

/-- A block. -/
def inlineBlock (use : NameUse) (L : List String) : Block → Block
  | .mk stmts tail => .mk (inlineStmts use L stmts) (inlineOpt use (bindsAll stmts ++ L) tail)

/-- A conditional. -/
def inlineIf (use : NameUse) (L : List String) : IfStmt → IfStmt
  | .mk cond then' elseBranch =>
    .mk (inlineExpr use L cond) (inlineBlock use L then') (inlineElse use L elseBranch)

/-- What follows `else`. -/
def inlineElse (use : NameUse) (L : List String) : ElseBranch → ElseBranch
  | .none => .none
  | .block body => .block (inlineBlock use L body)
  | .if inner => .if (inlineIf use L inner)

/-- A statement. -/
def inlineStmt (use : NameUse) (L : List String) : Stmt → Stmt
  | .let x declared inferred value => .let x declared inferred (inlineExpr use L value)
  | .letTuple names value => .letTuple names (inlineExpr use L value)
  | .assign target value => .assign (inlinePlace use L target) (inlineExpr use L value)
  | .return value => .return (inlineOpt use L value)
  | .if branch => .if (inlineIf use L branch)
  | .while cond body => .while (inlineExpr use L cond) (inlineBlock use L body)
  | .for x ty iter limit body =>
    .for x ty (inlineExpr use L iter) (inlineOpt use L limit) (inlineBlock use (x :: L) body)
  | .forRange x ty start stop body =>
    .forRange x ty (inlineExpr use L start) (inlineExpr use L stop) (inlineBlock use (x :: L) body)
  | .break => .break
  | .continue => .continue
  | .placeholder => .placeholder
  | .expr e => .expr (inlineExpr use L e)
  | .parallel stmts => .parallel (inlineStmts use L stmts)
  | .parallelForTo x ty idx source output body =>
    .parallelForTo x ty idx (inlineExpr use L source) (inlineExpr use L output)
      (inlineBlock use (x :: (idx.toList ++ L)) body)

/-- Statements, each in the scope of those before it. -/
def inlineStmts (use : NameUse) (L : List String) : List Stmt → List Stmt
  | [] => []
  | s :: ss => inlineStmt use L s :: inlineStmts use (binds s ++ L) ss

end

/-- What a name stands for in the scope of the variables `L`: a variable, a state, or a constant whose right-hand side
is put in its place. The number bounds how deep constants stand in constants. -/
def Module.nameUse (m : Module) : ℕ → NameUse
  | 0, _, x, span => .ident x span
  | depth + 1, L, x, span =>
    if x ∈ L ∨ x ∈ m.states.map Prod.fst then .ident x span
    else
      match m.consts.find? fun c => c.name = x with
      | some c => .const x span (inlineExpr (m.nameUse depth) L c.value)
      | none => .ident x span

/-- The function as it is compiled. Constants that do not lead back to themselves are no deeper than there are
constants. -/
def Module.inlined (m : Module) (f : FnDef) : FnDef :=
  { f with body := inlineBlock (m.nameUse m.consts.length) (f.params.map fun p => p.name) f.body }

/-! ### Copy types by the declarations -/

mutual

/-- The declared names whose content decides whether the type is Copy. -/
def Ty.named : Ty → List String
  | .array elem => Ty.named elem
  | .explicitLiteral inner => Ty.named inner
  | .set elem => Ty.named elem
  | .dict key value => Ty.named key ++ Ty.named value
  | .struct name fields _ => name :: Ty.namedFields fields
  | .tuple elems => Ty.namedAll elems
  | .enum name variants => name :: Ty.namedVariants variants
  | _ => []

/-- The names in types. -/
def Ty.namedAll : List Ty → List String
  | [] => []
  | t :: ts => Ty.named t ++ Ty.namedAll ts

/-- The names in fields. -/
def Ty.namedFields : List (String × Ty) → List String
  | [] => []
  | (_, t) :: fs => Ty.named t ++ Ty.namedFields fs

/-- The names in payloads. -/
def Ty.namedVariants : List (String × List Ty) → List String
  | [] => []
  | (_, payload) :: vs => Ty.namedAll payload ++ Ty.namedVariants vs

end

/-- Every module's declarations of types, under its name. -/
def Module.known (m : Module) : List (String × Decls) := (m.name, m.toDecls) :: m.others

/-- The names that are declared. The struct `T` of the module `a` is `a::T` too. -/
def Decls.names (module : String) (d : Decls) : List String :=
  d.structs.flatMap (fun s => [s.1, module ++ "::" ++ s.1]) ++ d.enums.map Prod.fst ++ d.caps.map Prod.fst

/-- The types in the declarations of a name; a capability stands for itself. -/
def Decls.content (module : String) (d : Decls) (name : String) : List Ty :=
  (d.structs.filter fun s => name ∈ [s.1, module ++ "::" ++ s.1]).flatMap (fun s => s.2.map Prod.snd) ++
    (d.enums.filter fun e => e.1 = name).flatMap (fun e => e.2.flatMap Prod.snd) ++
    (d.caps.filter fun c => c.1 = name).map fun c => .cap c.1 c.2 module

def Module.names (m : Module) : List String := m.known.flatMap fun d => d.2.names d.1

/-- The types in the declarations of a name, in whichever module: what comes out of another module's struct keeps the
name it has there. -/
def Module.content (m : Module) (name : String) : List Ty := m.known.flatMap fun d => d.2.content d.1 name

/-- The type is Copy, and so is what stands behind its names, down to a depth. -/
def Module.copyTo (m : Module) : ℕ → Ty → Bool
  | 0, ty => ty.isCopy
  | depth + 1, ty => ty.isCopy && (Ty.named ty).all fun name => (m.content name).all (m.copyTo depth)

/-- The type is Copy by the declarations: neither it nor anything it is made of is a resource or a capability. -/
def Module.copy (m : Module) (ty : Ty) : Bool := m.copyTo m.names.length ty

section Copy

variable {m : Module} {n : ℕ} {ty : Ty} {name : String}

/-- A value of the one type may hold one of the other, by the declaration of a name in it. -/
def Module.Holds (m : Module) (t u : Ty) : Prop := ∃ name ∈ Ty.named t, u ∈ m.content name

theorem mem_names {u : Ty} (h : u ∈ m.content name) : name ∈ m.names := by
  obtain ⟨d, hd, hu⟩ := List.mem_flatMap.mp h
  refine List.mem_flatMap.mpr ⟨d, hd, ?_⟩
  simp only [Decls.content, List.mem_append, List.mem_flatMap, List.mem_filter, List.mem_map, decide_eq_true_iff] at hu
  simp only [Decls.names, List.mem_append, List.mem_flatMap, List.mem_map]
  rcases hu with (⟨s, ⟨hs, hname⟩, -⟩ | ⟨e, ⟨he, rfl⟩, -⟩) | ⟨c, ⟨hc, rfl⟩, -⟩
  · exact .inl (.inl ⟨s, hs, hname⟩)
  · exact .inl (.inr ⟨e, he, rfl⟩)
  · exact .inr ⟨c, hc, rfl⟩

theorem copyTo_succ :
    m.copyTo (n + 1) ty = true ↔ ty.isCopy = true ∧ ∀ u, m.Holds ty u → m.copyTo n u = true := by
  simp only [Module.copyTo, Module.Holds, Bool.and_eq_true, List.all_eq_true]
  constructor
  · rintro ⟨hty, h⟩
    exact ⟨hty, fun u ⟨name, hname, hu⟩ => h name hname u hu⟩
  · rintro ⟨hty, h⟩
    exact ⟨hty, fun name hname u hu => h u ⟨name, hname, hu⟩⟩

theorem copyTo_pred (h : m.copyTo (n + 1) ty = true) : m.copyTo n ty = true := by
  induction n generalizing ty with
  | zero => exact (copyTo_succ.mp h).1
  | succ n ih =>
    obtain ⟨hty, hholds⟩ := copyTo_succ.mp h
    exact copyTo_succ.mpr ⟨hty, fun u hu => ih (hholds u hu)⟩

theorem copyTo_of_le {k : ℕ} (hk : k ≤ n) (h : m.copyTo n ty = true) : m.copyTo k ty = true := by
  induction hk with
  | refl => exact h
  | step _ ih => exact ih (copyTo_pred h)

/-- What stands behind the name is not Copy at this depth, and is at any lesser one. -/
def FailsAt (m : Module) (n : ℕ) (name : String) : Prop :=
  (∃ u ∈ m.content name, m.copyTo n u = false) ∧ ∀ k < n, ∀ u ∈ m.content name, m.copyTo k u = true

theorem exists_failsAt (h : m.copyTo n ty = true) (hfail : m.copyTo (n + 1) ty = false) : ∃ name, FailsAt m n name := by
  have hholds : ∃ u, m.Holds ty u ∧ m.copyTo n u = false := by
    by_contra hall
    push Not at hall
    have hcopy := copyTo_succ.mpr ⟨copyTo_of_le (Nat.zero_le n) h, fun u hu => by simpa using hall u hu⟩
    exact Bool.false_ne_true (hfail.symm.trans hcopy)
  obtain ⟨u, ⟨name, hname, hu⟩, hufail⟩ := hholds
  refine ⟨name, ⟨u, hu, hufail⟩, fun k hk v hv => ?_⟩
  obtain ⟨n, rfl⟩ := Nat.exists_eq_add_one_of_ne_zero (Nat.ne_zero_of_lt hk)
  exact copyTo_of_le (Nat.le_of_lt_succ hk) ((copyTo_succ.mp h).2 v ⟨name, hname, hv⟩)

theorem FailsAt.below (h : FailsAt m n name) {k : ℕ} (hk : k ≤ n) : ∃ name', FailsAt m k name' := by
  induction n generalizing name with
  | zero =>
    obtain rfl := Nat.le_zero.mp hk
    exact ⟨name, h⟩
  | succ n ih =>
    rcases Nat.lt_or_eq_of_le hk with hlt | rfl
    · obtain ⟨⟨u, hu, hfail⟩, hless⟩ := h
      obtain ⟨name', h'⟩ := exists_failsAt (hless n (Nat.lt_succ_self n) u hu) hfail
      exact ih h' (Nat.le_of_lt_succ hlt)
    · exact ⟨name, h⟩

theorem FailsAt.depth_unique {k : ℕ} (h : FailsAt m n name) (h' : FailsAt m k name) : n = k := by
  obtain ⟨u, hu, hfail⟩ := h.1
  obtain ⟨v, hv, hfail'⟩ := h'.1
  rcases Nat.lt_trichotomy n k with hlt | heq | hlt
  · exact absurd (hfail.symm.trans (h'.2 n hlt u hu)) Bool.false_ne_true
  · exact heq
  · exact absurd (hfail'.symm.trans (h.2 k hlt v hv)) Bool.false_ne_true

/-- There is a name for each depth up to that of a failure. -/
theorem FailsAt.lt (h : FailsAt m n name) : n < m.names.length := by
  choose! f hf using fun k (hk : k ∈ Finset.range (n + 1)) => h.below (Nat.le_of_lt_succ (Finset.mem_range.mp hk))
  have hmaps : ∀ k ∈ Finset.range (n + 1), f k ∈ m.names.toFinset := by
    intro k hk
    obtain ⟨u, hu, -⟩ := (hf k hk).1
    exact List.mem_toFinset.mpr (mem_names hu)
  have hcard := Finset.card_le_card_of_injOn f hmaps fun k hk k' hk' heq =>
    (hf k hk).depth_unique (heq ▸ hf k' hk')
  rw [Finset.card_range] at hcard
  exact hcard.trans (List.toFinset_card_le _)

/-- A type is Copy by the declarations exactly when all that a value of it may hold, however deep, is Copy. -/
theorem copy_iff : m.copy ty = true ↔ ∀ u, Relation.ReflTransGen m.Holds ty u → u.isCopy = true := by
  constructor
  · intro h u hu
    have hall : ∀ n, m.copyTo n ty = true := by
      intro n
      induction n with
      | zero => exact copyTo_of_le (Nat.zero_le _) h
      | succ n ih =>
        by_contra hfail
        obtain ⟨name, hname⟩ := exists_failsAt ih (Bool.not_eq_true _ ▸ hfail)
        exact hfail (copyTo_of_le hname.lt h)
    induction hu using Relation.ReflTransGen.head_induction_on with
    | refl => exact hall 0
    | head hedge _ ih =>
      have hnext := fun n => (copyTo_succ.mp (hall (n + 1))).2 _ hedge
      exact ih (hnext _) hnext
  · intro h
    have hall : ∀ n ty, (∀ u, Relation.ReflTransGen m.Holds ty u → u.isCopy = true) → m.copyTo n ty = true := by
      intro n
      induction n with
      | zero => exact fun ty h => h ty .refl
      | succ n ih =>
        exact fun ty h => copyTo_succ.mpr ⟨h ty .refl, fun u hu => ih u fun v hv => h v (.head hu hv)⟩
    exact hall _ ty h

end Copy

/-! ### The pass sees no difference -/

variable {C : Ctx}

/-- A name stays, or becomes that of a constant. -/
def Keeps (use : NameUse) : Prop :=
  ∀ L x span, use L x span = .ident x span ∨ ∃ value, use L x span = .const x span value

theorem keeps_nameUse (m : Module) (depth : ℕ) : Keeps (m.nameUse depth) := by
  intro L x span
  cases depth with
  | zero => exact .inl rfl
  | succ depth =>
    rw [Module.nameUse]
    split_ifs
    · exact .inl rfl
    · split
      · exact .inr ⟨_, rfl⟩
      · exact .inl rfl

theorem pushed_inlineClauses (use : NameUse) (L : List String) (cs : List CompClause) :
    pushed (inlineClauses use L cs) = pushed cs := by
  induction cs generalizing L with
  | nil => rfl
  | cons c cs ih =>
    cases c with
    | «for» x ty iter => rw [inlineClauses, pushed, pushed, ih]
    | «if» cond => rw [inlineClauses, pushed, pushed, ih]

variable {use : NameUse}

theorem indexType_inline (h : Keeps use) (L : List String) (e : Expr) :
    indexType C (inlineExpr use L e) = indexType C e := by
  cases e with
  | ident x span =>
    rw [inlineExpr]
    rcases h L x span with hkeep | ⟨value, hconst⟩
    · rw [hkeep]
    · rw [hconst]
      rfl
  | _ => rfl

/-- A chain of fields starts from what it started from. -/
theorem checkExpr_inline_field (h : Keeps use) (L : List String) (root : Expr) (path : List String) (ty : Ty)
    (env : Env) (hroot : checkExpr C (inlineExpr use L root) env = checkExpr C root env) :
    checkExpr C (inlineExpr use L (.field root path ty)) env = checkExpr C (.field root path ty) env := by
  cases root with
  | ident x span =>
    rw [inlineExpr, inlineExpr]
    rcases h L x span with hkeep | ⟨value, hconst⟩
    · rw [hkeep]
    · rw [hconst]
      rfl
  | const x span value => rfl
  | _ => exact congrArg (fun c => do let r ← c; return (Ty.int, r.2)) hroot

mutual

theorem checkExpr_inline (h : Keeps use) (L : List String) (e : Expr) (env : Env) :
    checkExpr C (inlineExpr use L e) env = checkExpr C e env := by
  cases e with
  | lit ty => rfl
  | json items => rfl
  | ident x span =>
    rw [inlineExpr]
    rcases h L x span with hkeep | ⟨value, hconst⟩
    · rw [hkeep]
    · rw [hconst]
      rfl
  | const x span value => rfl
  | op op operands => simp only [inlineExpr, checkExpr, checkExprs_inline h L operands]
  | call module name args span => simp only [inlineExpr, checkExpr, checkExprs_inline h L args]
  | dynCall target args => simp only [inlineExpr, checkExpr, checkExprs_inline h L args]
  | index target key =>
    simp only [inlineExpr, checkExpr, checkExpr_inline h L key, checkExpr_inline h L target, indexType_inline h]
  | explicitLiteral inner => simp only [inlineExpr, checkExpr, checkExpr_inline h L inner]
  | structLit name fields => simp only [inlineExpr, checkExpr, checkExprs_inline h L fields]
  | field root path ty => exact checkExpr_inline_field h L root path ty env (checkExpr_inline h L root env)
  | prev => rfl
  | pipe head ty step =>
    simp only [inlineExpr, checkExpr, checkExpr_inline h L head, checkExpr_inline h L step]
  | comp results clauses =>
    simp only [inlineExpr, checkExpr, checkCompClauses_inline h L clauses, checkExprs_inline h _ results,
      pushed_inlineClauses]
  | matchArms scrut arms => simp only [inlineExpr, checkExpr, checkExpr_inline h L scrut, checkArms_inline h L arms]
  | block body => simp only [inlineExpr, checkExpr, checkValueBlock_inline h L body]
  | ite branch => simp only [inlineExpr, checkExpr, checkIfExpr_inline h L branch]

theorem checkExprs_inline (h : Keeps use) (L : List String) (es : List Expr) (env : Env) :
    checkExprs C (inlineExprs use L es) env = checkExprs C es env := by
  cases es with
  | nil => rfl
  | cons e es => simp only [inlineExprs, checkExprs, checkExpr_inline h L e, checkExprs_inline h L es]

theorem checkCompClauses_inline (h : Keeps use) (L : List String) (cs : List CompClause) (env : Env) :
    checkCompClauses C (inlineClauses use L cs) env = checkCompClauses C cs env := by
  cases cs with
  | nil => rfl
  | cons c cs =>
    cases c with
    | «for» x ty iter =>
      simp only [inlineClauses, checkCompClauses, checkExpr_inline h L iter, checkCompClauses_inline h (x :: L) cs]
    | «if» cond =>
      simp only [inlineClauses, checkCompClauses, checkExpr_inline h L cond, checkCompClauses_inline h L cs]

theorem checkArms_inline (h : Keeps use) (L : List String) (arms : List MatchArm) (env : Env) :
    checkArms C (inlineArms use L arms) env = checkArms C arms env := by
  cases arms with
  | nil => rfl
  | cons a arms =>
    cases a with
    | mk bindings body =>
      simp only [inlineArms, checkArms, checkExpr_inline h _ body, checkArms_inline h L arms]

theorem checkValueBlock_inline (h : Keeps use) (L : List String) (b : Block) (env : Env) :
    checkValueBlock C (inlineBlock use L b) env = checkValueBlock C b env := by
  cases b with
  | mk stmts tail =>
    cases tail with
    | none => simp only [inlineBlock, inlineOpt, checkValueBlock, checkStmts_inline h L stmts]
    | some t =>
      simp only [inlineBlock, inlineOpt, checkValueBlock, checkStmts_inline h L stmts, checkExpr_inline h _ t]

theorem checkIfExpr_inline (h : Keeps use) (L : List String) (i : IfStmt) (env : Env) :
    checkIfExpr C (inlineIf use L i) env = checkIfExpr C i env := by
  cases i with
  | mk cond then' els =>
    cases els with
    | none =>
      simp only [inlineIf, inlineElse, checkIfExpr, checkExpr_inline h L cond, checkValueBlock_inline h L then']
    | block body =>
      simp only [inlineIf, inlineElse, checkIfExpr, checkExpr_inline h L cond, checkValueBlock_inline h L then',
        checkValueBlock_inline h L body]
    | «if» inner =>
      simp only [inlineIf, inlineElse, checkIfExpr, checkExpr_inline h L cond, checkValueBlock_inline h L then',
        checkIfExpr_inline h L inner]

theorem checkBlock_inline (h : Keeps use) (L : List String) (b : Block) (env : Env) :
    checkBlock C (inlineBlock use L b) env = checkBlock C b env := by
  cases b with
  | mk stmts tail => simp only [inlineBlock, checkBlock, checkStmts_inline h L stmts]

theorem checkIf_inline (h : Keeps use) (L : List String) (i : IfStmt) (env : Env) :
    checkIf C (inlineIf use L i) env = checkIf C i env := by
  cases i with
  | mk cond then' els =>
    cases els with
    | none => simp only [inlineIf, inlineElse, checkIf, checkExpr_inline h L cond, checkBlock_inline h L then']
    | block body =>
      simp only [inlineIf, inlineElse, checkIf, checkExpr_inline h L cond, checkBlock_inline h L then',
        checkBlock_inline h L body]
    | «if» inner =>
      simp only [inlineIf, inlineElse, checkIf, checkExpr_inline h L cond, checkBlock_inline h L then',
        checkIf_inline h L inner]

theorem checkStmt_inline (h : Keeps use) (L : List String) (s : Stmt) (env : Env) :
    checkStmt C (inlineStmt use L s) env = checkStmt C s env := by
  cases s with
  | «let» x declared inferred value => simp only [inlineStmt, checkStmt, checkExpr_inline h L value]
  | letTuple names value => simp only [inlineStmt, checkStmt, checkExpr_inline h L value]
  | assign target value =>
    cases target with
    | index state key =>
      simp only [inlineStmt, inlinePlace, checkStmt, checkExpr_inline h L key, checkExpr_inline h L value]
    | var name => simp only [inlineStmt, inlinePlace, checkStmt, checkExpr_inline h L value]
    | field base name => simp only [inlineStmt, inlinePlace, checkStmt, checkExpr_inline h L value]
  | «return» value =>
    cases value with
    | none => rfl
    | some e => simp only [inlineStmt, inlineOpt, checkStmt, checkExpr_inline h L e]
  | «if» branch => simp only [inlineStmt, checkStmt, checkIf_inline h L branch]
  | «while» cond body => simp only [inlineStmt, checkStmt, checkExpr_inline h L cond, checkBlock_inline h L body]
  | «for» x ty iter limit body =>
    simp only [inlineStmt, checkStmt, checkExpr_inline h L iter, checkBlock_inline h (x :: L) body]
  | forRange x ty start stop body =>
    simp only [inlineStmt, checkStmt, checkExpr_inline h L start, checkExpr_inline h L stop,
      checkBlock_inline h (x :: L) body]
  | «break» => rfl
  | «continue» => rfl
  | placeholder => rfl
  | expr e => simp only [inlineStmt, checkStmt, checkExpr_inline h L e]
  | parallel stmts => simp only [inlineStmt, checkStmt, checkStmts_inline h L stmts]
  | parallelForTo x ty idx source output body =>
    simp only [inlineStmt, checkStmt, checkExpr_inline h L source, checkExpr_inline h L output,
      checkBlock_inline h _ body]

theorem checkStmts_inline (h : Keeps use) (L : List String) (ss : List Stmt) (env : Env) :
    checkStmts C (inlineStmts use L ss) env = checkStmts C ss env := by
  cases ss with
  | nil => rfl
  | cons s ss => simp only [inlineStmts, checkStmts, checkStmt_inline h L s, checkStmts_inline h _ ss]

end

/-- **The pass sees no constant in place**: it accepts the compiled form of a function as the function. -/
theorem checkFn_inlined (m : Module) (f : FnDef) : checkFn C (m.inlined f) = checkFn C f := by
  simp only [checkFn, Module.inlined, checkBlock_inline (keeps_nameUse m _)]

end Rend.Affine
