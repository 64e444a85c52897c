import Rend.Typeck.Mentions

/-!
# What a resolved module should be

A module is canonical (`Canonical`) when every type in it has, for each name of a declaration in it at any
depth, the content of that declaration. Types stand in declarations, in signatures and in the annotations of
`let`, at any depth of statements and expressions; those of `let` in places that resolution does not go to
are kept apart (`hiddenTypes`).

`Resolvable` is what a module as the parser leaves it has to be for its resolution to be canonical.
-/

namespace Rend.Typeck

open Ast

/-! ### Every name in a type -/

mutual

/-- The types of declarations in a type, at any depth. -/
def Every (Q : Ty → Prop) : Ty → Prop
  | .struct name fields groups => Q (.struct name fields groups) ∧ EveryField Q fields
  | .cap name fields owner => Q (.cap name fields owner) ∧ EveryField Q fields
  | .enum name variants => Q (.enum name variants) ∧ EveryVariant Q variants
  | .interface name methods => Q (.interface name methods) ∧ EveryMethod Q methods
  | .array elem | .set elem | .pvec elem | .explicitLiteral elem => Every Q elem
  | .dict key value | .map key value | .pmap key value | .pbtree key value => Every Q key ∧ Every Q value
  | .tuple elems => EveryOf Q elems
  | _ => True

def EveryField (Q : Ty → Prop) : List (String × Ty) → Prop
  | [] => True
  | (_, t) :: fields => Every Q t ∧ EveryField Q fields

def EveryOf (Q : Ty → Prop) : List Ty → Prop
  | [] => True
  | t :: ts => Every Q t ∧ EveryOf Q ts

def EveryVariant (Q : Ty → Prop) : List (String × List Ty) → Prop
  | [] => True
  | (_, payload) :: variants => EveryOf Q payload ∧ EveryVariant Q variants

def EveryMethod (Q : Ty → Prop) : List InterfaceMethodSig → Prop
  | [] => True
  | .mk _ params returnType _ _ :: methods => (EveryOf Q params ∧ Every Q returnType) ∧ EveryMethod Q methods

end

theorem everyField_iff {Q : Ty → Prop} {fields : List (String × Ty)} :
    EveryField Q fields ↔ ∀ f ∈ fields, Every Q f.2 := by
  induction fields with
  | nil => simp [EveryField]
  | cons f fields ih => rw [EveryField, ih, List.forall_mem_cons]

theorem everyOf_iff {Q : Ty → Prop} {ts : List Ty} : EveryOf Q ts ↔ ∀ t ∈ ts, Every Q t := by
  induction ts with
  | nil => simp [EveryOf]
  | cons t ts ih => rw [EveryOf, ih, List.forall_mem_cons]

theorem everyVariant_iff {Q : Ty → Prop} {variants : List (String × List Ty)} :
    EveryVariant Q variants ↔ ∀ v ∈ variants, ∀ t ∈ v.2, Every Q t := by
  induction variants with
  | nil => simp [EveryVariant]
  | cons v variants ih => rw [EveryVariant, everyOf_iff, ih, List.forall_mem_cons]

def sigTypes : InterfaceMethodSig → List Ty
  | .mk _ params returnType _ _ => params ++ [returnType]

theorem everyMethod_iff {Q : Ty → Prop} {methods : List InterfaceMethodSig} :
    EveryMethod Q methods ↔ ∀ m ∈ methods, ∀ t ∈ sigTypes m, Every Q t := by
  induction methods with
  | nil => simp [EveryMethod]
  | cons m methods ih =>
    obtain ⟨name, params, returnType, isView, isPure⟩ := m
    rw [EveryMethod, everyOf_iff, ih, List.forall_mem_cons, sigTypes, List.forall_mem_append]
    simp

mutual

/-- The names in a filled type are those in what it is filled with. -/
theorem every_fillAt {Q : Ty → Prop} {σ : Filling} : ∀ {t : Ty} (reach : Reach), Raw t →
    (Every Q (fillAt σ reach t) ↔ ∀ m ∈ mentionsAt reach t, Every Q (σ m.1 m.2))
  | .struct _ _ _, _, _ | .enum _ _, _, _ | .interface _ _, _, _ => by simp [fillAt, mentionsAt]
  | .array elem, reach, h => every_fillAt (t := elem) reach h
  | .pvec elem, reach, h => every_fillAt (t := elem) reach h
  | .explicitLiteral inner, reach, h => every_fillAt (t := inner) reach.quote h
  | .set elem, _, h => every_fillAt (t := elem) .buried h
  | .dict _ _, _, h =>
    (and_congr (every_fillAt .buried h.1) (every_fillAt .buried h.2)).trans List.forall_mem_append.symm
  | .map _ _, reach, h | .pmap _ _, reach, h | .pbtree _ _, reach, h =>
    (and_congr (every_fillAt reach h.1) (every_fillAt reach h.2)).trans List.forall_mem_append.symm
  | .tuple elems, reach, h => everyOf_fillAllAt reach (show RawAll elems from h)
  | .cap _ _ _, _, h => h.elim
  | .int, _, _ | .uint, _, _ | .float, _, _ | .i32, _, _ | .u32, _, _ | .u64, _, _ | .u128, _, _
  | .bool, _, _ | .unit, _, _ | .resource, _, _ | .string, _, _ | .address, _, _ | .bytes, _, _ | .json, _, _ => by
    simp [fillAt, mentionsAt, Every]

theorem everyOf_fillAllAt {Q : Ty → Prop} {σ : Filling} : ∀ {ts : List Ty} (reach : Reach), RawAll ts →
    (EveryOf Q (fillAllAt σ reach ts) ↔ ∀ m ∈ mentionsAllAt reach ts, Every Q (σ m.1 m.2))
  | [], _, _ => by simp [fillAllAt, mentionsAllAt, EveryOf]
  | _ :: _, reach, h =>
    (and_congr (every_fillAt reach h.1) (everyOf_fillAllAt reach h.2)).trans List.forall_mem_append.symm

end

mutual

theorem Every.imp {Q Q' : Ty → Prop} (h : ∀ u, Q u → Q' u) : ∀ {t : Ty}, Every Q t → Every Q' t
  | .struct _ _ _, ht | .cap _ _ _, ht => ⟨h _ ht.1, EveryField.imp h ht.2⟩
  | .enum _ _, ht => ⟨h _ ht.1, EveryVariant.imp h ht.2⟩
  | .interface _ _, ht => ⟨h _ ht.1, EveryMethod.imp h ht.2⟩
  | .array elem, ht | .set elem, ht | .pvec elem, ht | .explicitLiteral elem, ht => Every.imp h (t := elem) ht
  | .dict _ _, ht | .map _ _, ht | .pmap _ _, ht | .pbtree _ _, ht => ⟨Every.imp h ht.1, Every.imp h ht.2⟩
  | .tuple elems, ht => EveryOf.imp h (show EveryOf Q elems from ht)
  | .int, _ | .uint, _ | .float, _ | .i32, _ | .u32, _ | .u64, _ | .u128, _ | .bool, _ | .unit, _ | .resource, _
  | .string, _ | .address, _ | .bytes, _ | .json, _ => trivial

theorem EveryField.imp {Q Q' : Ty → Prop} (h : ∀ u, Q u → Q' u) : ∀ {fields : List (String × Ty)},
    EveryField Q fields → EveryField Q' fields
  | [], _ => trivial
  | (_, _) :: _, ht => ⟨Every.imp h ht.1, EveryField.imp h ht.2⟩

theorem EveryOf.imp {Q Q' : Ty → Prop} (h : ∀ u, Q u → Q' u) : ∀ {ts : List Ty}, EveryOf Q ts → EveryOf Q' ts
  | [], _ => trivial
  | _ :: _, ht => ⟨Every.imp h ht.1, EveryOf.imp h ht.2⟩

theorem EveryVariant.imp {Q Q' : Ty → Prop} (h : ∀ u, Q u → Q' u) : ∀ {variants : List (String × List Ty)},
    EveryVariant Q variants → EveryVariant Q' variants
  | [], _ => trivial
  | (_, _) :: _, ht => ⟨EveryOf.imp h ht.1, EveryVariant.imp h ht.2⟩

theorem EveryMethod.imp {Q Q' : Ty → Prop} (h : ∀ u, Q u → Q' u) : ∀ {methods : List InterfaceMethodSig},
    EveryMethod Q methods → EveryMethod Q' methods
  | [], _ => trivial
  | .mk _ _ _ _ _ :: _, ht => ⟨⟨EveryOf.imp h ht.1.1, Every.imp h ht.1.2⟩, EveryMethod.imp h ht.2⟩

end

/-! ### The annotations of `let` -/

mutual

/-- The annotations of `let` anywhere in an expression. -/
def letsExpr : Expr → List Ty
  | .binary _ lhs rhs => letsExpr lhs ++ letsExpr rhs
  | .unary _ operand => letsExpr operand
  | .index target key => letsExpr target ++ letsExpr key
  | .field target _ => letsExpr target
  | .array elems | .setLit elems | .tupleLit elems => letsExprs elems
  | .arrayAlloc _ len => letsExpr len
  | .reserve count _ => letsExpr count
  | .explicitLiteral inner => letsExpr inner
  | .dictLit pairs => letsPairs pairs
  | .call _ _ args | .dynCall _ _ args _ _ | .enumCtor _ _ args => letsExprs args
  | .structLit _ fields => letsFields fields
  | .pipe head step => letsExpr head ++ letsExpr step
  | .listComp mapper clauses | .setComp mapper clauses => letsExpr mapper ++ letsClauses clauses
  | .dictComp key value clauses => letsExpr key ++ letsExpr value ++ letsClauses clauses
  | .tupleIndex target _ => letsExpr target
  | .matchOn scrut arms => letsExpr scrut ++ letsArms arms
  | .block b => letsBlock b
  | .ifElse cond body orElse => letsExpr cond ++ letsBlock body ++ letsElse orElse
  | .jsonObject pairs => letsFields pairs
  | .jsonArray items => letsExprs items
  | _ => []

def letsExprs : List Expr → List Ty
  | [] => []
  | e :: es => letsExpr e ++ letsExprs es

def letsFields : List (String × Expr) → List Ty
  | [] => []
  | (_, e) :: fields => letsExpr e ++ letsFields fields

def letsPairs : List (Expr × Expr) → List Ty
  | [] => []
  | (k, v) :: pairs => letsExpr k ++ letsExpr v ++ letsPairs pairs

def letsOption : Option Expr → List Ty
  | none => []
  | some e => letsExpr e

def letsClauses : List CompClause → List Ty
  | [] => []
  | .bind _ iter :: clauses => letsExpr iter ++ letsClauses clauses
  | .filter cond :: clauses => letsExpr cond ++ letsClauses clauses

def letsArms : List MatchArm → List Ty
  | [] => []
  | .mk _ body :: arms => letsExpr body ++ letsArms arms

def letsBlock : Block → List Ty
  | .mk stmts tail => letsStmts stmts ++ letsOption tail

def letsStmt : Stmt → List Ty
  | .letVar _ ty value => ty.toList ++ letsExpr value
  | .assign target value => letsExpr target ++ letsExpr value
  | .ret value => letsOption value
  | .ifStmt s => letsIf s
  | .whileLoop cond body => letsExpr cond ++ letsBlock body
  | .forLoop _ iter limit body => letsExpr iter ++ letsOption limit ++ letsBlock body
  | .forRange _ start finish _ body => letsExpr start ++ letsExpr finish ++ letsBlock body
  | .expr e => letsExpr e
  | .parallel stmts => letsStmts stmts
  | .parallelForTo _ _ source output body => letsExpr source ++ letsExpr output ++ letsBlock body
  | .emit value => letsExpr value
  | .delete target => letsExpr target
  | .letTuple _ value => letsExpr value
  | .breakStmt | .continueStmt | .placeholder => []

def letsStmts : List Stmt → List Ty
  | [] => []
  | s :: stmts => letsStmt s ++ letsStmts stmts

def letsIf : IfStmt → List Ty
  | .mk cond body orElse => letsExpr cond ++ letsBlock body ++ letsElse orElse

def letsElse : ElseBranch → List Ty
  | .none => []
  | .block b => letsBlock b
  | .elseIf inner => letsIf inner

end

/-- Annotations that resolution does not go to. -/
def hidden (ts : List Ty) : List (Bool × Ty) := ts.map fun t => (false, t)

mutual

/-- The annotations in a statement, each with whether resolution goes there. -/
def taggedStmt : Stmt → List (Bool × Ty)
  | .letVar _ (some ty) value => (true, ty) :: hidden (letsExpr value)
  | .ifStmt s => taggedIf s
  | .whileLoop cond (.mk stmts tail) => hidden (letsExpr cond) ++ taggedStmts stmts ++ hidden (letsOption tail)
  | .forLoop _ iter limit (.mk stmts tail) =>
    hidden (letsExpr iter ++ letsOption limit) ++ taggedStmts stmts ++ hidden (letsOption tail)
  | .forRange _ start finish _ (.mk stmts tail) =>
    hidden (letsExpr start ++ letsExpr finish) ++ taggedStmts stmts ++ hidden (letsOption tail)
  | s => hidden (letsStmt s)

def taggedStmts : List Stmt → List (Bool × Ty)
  | [] => []
  | s :: stmts => taggedStmt s ++ taggedStmts stmts

def taggedIf : IfStmt → List (Bool × Ty)
  | .mk cond (.mk stmts tail) orElse =>
    hidden (letsExpr cond) ++ taggedStmts stmts ++ hidden (letsOption tail) ++ taggedElse orElse

def taggedElse : ElseBranch → List (Bool × Ty)
  | .none => []
  | .block (.mk stmts tail) => taggedStmts stmts ++ hidden (letsOption tail)
  | .elseIf inner => taggedIf inner

end

/-! ### The types of a module -/

/-- The annotations that resolution goes to, or those that it does not. -/
def lets (visited : Bool) (f : FnDef) : List Ty :=
  (taggedStmts f.body.stmts ++ hidden (letsOption f.body.tail)).filterMap fun l =>
    if l.1 = visited then some l.2 else none

namespace Module

variable (m : Module)

def structTypes : List Ty := m.structs.flatMap fun d => d.fields.map StructField.ty

def enumTypes : List Ty := m.enums.flatMap fun d => d.variants.flatMap EnumVariant.payload

def capTypes : List Ty := m.caps.flatMap fun d => d.fields.map StructField.ty

def interfaceTypes : List Ty :=
  m.interfaces.flatMap fun d => d.methods.flatMap fun m => m.params.map Ast.Param.ty ++ [m.returnType]

/-- The types of states, functions, imports and constants, and the annotations in functions that resolution
goes to. -/
def plainTypes : List Ty :=
  m.states.map StateDecl.ty ++
    m.functions.flatMap (fun f => f.params.map Ast.Param.ty ++ [f.returnType] ++ lets true f) ++
    m.imports.flatMap (fun i => i.params ++ [i.returnType]) ++ m.consts.map ConstDecl.ty

/-- The annotations that resolution does not go to. -/
def hiddenTypes : List Ty := m.functions.flatMap (lets false) ++ m.consts.flatMap fun c => letsExpr c.value

def allTypes : List Ty :=
  m.structTypes ++ m.enumTypes ++ m.capTypes ++ m.interfaceTypes ++ m.plainTypes ++ m.hiddenTypes

def owner : String := m.name.getD "main"

end Module

/-! ### Canonical modules -/

/-- The name a type has in place of content, or with it. -/
def refOf : Ty → Option Ref
  | .struct name _ _ => some (.struct name)
  | .cap name _ _ => some (.struct name)
  | .enum name _ => some (.enum name)
  | .interface name _ => some (.interface name)
  | _ => none

/-- A type with the name of a declaration has its content. -/
structure HasContent (m : Module) (u : Ty) : Prop where
  struct : ∀ d ∈ m.structs, refOf u = some (.struct d.name) →
    u = .struct d.name (structInfo d.fields).1 (structInfo d.fields).2
  cap : ∀ d ∈ m.caps, refOf u = some (.struct d.name) → u = .cap d.name (fieldTypes d.fields) m.owner
  enum : ∀ d ∈ m.enums, refOf u = some (.enum d.name) → u = .enum d.name (variantTypes d.variants)
  interface : ∀ d ∈ m.interfaces, refOf u = some (.interface d.name) → u = .interface d.name (methodSigs d.methods)

/-- Every type of the module has the content of its declarations in place of their names. -/
def Canonical (m : Module) : Prop := ∀ t ∈ m.allTypes, Every (HasContent m) t

/-- The module has a declaration of this name. -/
def Declared (m : Module) : Ref → Prop
  | .struct name => (∃ d ∈ m.structs, d.name = name) ∨ ∃ d ∈ m.caps, d.name = name
  | .enum name => ∃ d ∈ m.enums, d.name = name
  | .interface name => ∃ d ∈ m.interfaces, d.name = name

/-- A declared name stands for one type wherever it is mentioned. -/
def Uniform (m : Module) : Prop :=
  ∀ r, Declared m r → ∃ c, ∀ t ∈ m.allTypes, Every (fun u => refOf u = some r → u = c) t

theorem Canonical.uniform {m : Module} (h : Canonical m) : Uniform m := by
  have hone : ∀ {r c}, (∀ u, HasContent m u → refOf u = some r → u = c) →
      ∀ t ∈ m.allTypes, Every (fun u => refOf u = some r → u = c) t := fun hc t ht => (h t ht).imp hc
  intro r hr
  cases r with
  | struct name =>
    rcases hr with ⟨d, hd, rfl⟩ | ⟨d, hd, rfl⟩
    · exact ⟨_, hone fun u hu => hu.struct d hd⟩
    · exact ⟨_, hone fun u hu => hu.cap d hd⟩
  | enum name =>
    obtain ⟨d, hd, rfl⟩ := hr
    exact ⟨_, hone fun u hu => hu.enum d hd⟩
  | interface name =>
    obtain ⟨d, hd, rfl⟩ := hr
    exact ⟨_, hone fun u hu => hu.interface d hd⟩

/-! ### Modules that resolve -/

/-- The name is of no declaration, or of one without content. -/
def Harmless (m : Module) : Ref → Prop
  | .struct name => (∀ d ∈ m.structs, d.name = name → d.fields = []) ∧ ∀ d ∈ m.caps, d.name ≠ name
  | .enum name => ∀ d ∈ m.enums, d.name = name → d.variants = []
  | .interface name => ∀ d ∈ m.interfaces, d.name = name → d.methods = []

/-- The first pass over the structs leaves nothing to the second in a struct of this name. -/
def Settled (m : Module) (name : String) : Prop :=
  ∀ d ∈ m.structs, d.name = name → ∀ f ∈ d.fields, ∀ r ∈ mentions f.ty,
    (r.2 = .quoted → Harmless m r.1) ∧ (r.2 = .walked → ∀ enum, r.1 = .enum enum → Harmless m r.1)

/-- What a module as the parser leaves it has to be for its resolution to be canonical. -/
structure Resolvable (m : Module) : Prop where
  buried : ∀ t ∈ m.allTypes, ∀ r ∈ mentions t, r.2 = .buried → Harmless m r.1
  hidden : ∀ t ∈ m.hiddenTypes, ∀ r ∈ mentions t, Harmless m r.1
  structs : ∀ before d after, m.structs = before ++ d :: after → ∀ f ∈ d.fields, ∀ name reach,
    (.struct name, reach) ∈ mentions f.ty →
      (reach = .walked → Settled m name) ∧
      (reach = .quoted → name ∈ before.map StructDecl.name ∨ Settled m name)
  copied : ∀ t ∈ m.enumTypes ++ m.capTypes ++ m.interfaceTypes, ∀ name reach, (.struct name, reach) ∈ mentions t →
    reach ≠ .buried → Settled m name

end Rend.Typeck
