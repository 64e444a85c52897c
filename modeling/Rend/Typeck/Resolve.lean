import Rend.Syntax.Ast

/-!
# The resolution of types

The parser leaves the name of a declaration in a type as a node without content. Before the types are
checked, `typeck.rs` puts the content of the declaration there: it resolves the structs in order, then the
enums, the capabilities and the interfaces, then the structs again, and with the tables it has by then the
rest of the module.

A table is a map from names. An error is its text.
-/

namespace Rend.Typeck

open Ast

/-! ### Declarations -/

structure StructField where
  name : String
  ty : Ty
  group : Option String

structure StructDecl where
  name : String
  fields : List StructField
  isPub : Bool

structure EnumVariant where
  name : String
  payload : List Ty

structure EnumDecl where
  name : String
  variants : List EnumVariant

structure CapDecl where
  name : String
  fields : List StructField

structure InterfaceMethod where
  name : String
  params : List Ast.Param
  returnType : Ty
  isView : Bool
  isPure : Bool

structure InterfaceDecl where
  name : String
  methods : List InterfaceMethod

structure StateDecl where
  name : String
  ty : Ty

structure Import where
  name : String
  params : List Ty
  returnType : Ty

structure ConstDecl where
  name : String
  ty : Ty
  value : Expr

/-- The declarations of a module that have types. -/
structure Module where
  name : Option String
  imports : List Import
  states : List StateDecl
  functions : List FnDef
  structs : List StructDecl
  enums : List EnumDecl
  consts : List ConstDecl
  caps : List CapDecl
  interfaces : List InterfaceDecl

/-! ### Tables -/

/-- A map from names (`HashMap<String, _>`). -/
abbrev Table (α : Type) := String → Option α

namespace Table

variable {α : Type}

def empty : Table α := fun _ => none

def insert (t : Table α) (name : String) (a : α) : Table α := fun x => if x = name then some a else t x

def contains (t : Table α) (name : String) : Bool := (t name).isSome

end Table

/-- The fields of a struct and their groups. -/
abbrev StructInfo := List (String × Ty) × List (Option String)

/-- The contents of the declarations that are known. -/
structure Tables where
  structs : Table StructInfo
  enums : Table (List (String × List Ty))
  caps : Table (List (String × Ty) × String)
  ifaces : Table (List InterfaceMethodSig)

/-- No group at all is written as the empty list. -/
def normalizeGroups (groups : List (Option String)) : List (Option String) :=
  if groups.all Option.isNone then [] else groups

/-! ### One type -/

mutual

def resolveOne (structs : Table StructInfo) : Ty → Except String Ty
  | .struct name [] _ =>
    match structs name with
    | none => .error ("unknown struct '" ++ name ++ "'")
    | some (fields, groups) => .ok (.struct name fields groups)
  | .array elem => do
    let elem ← resolveOne structs elem
    .ok (.array elem)
  | .map key value => do
    let key ← resolveOne structs key
    let value ← resolveOne structs value
    .ok (.map key value)
  | .pmap key value => do
    let key ← resolveOne structs key
    let value ← resolveOne structs value
    .ok (.pmap key value)
  | .pbtree key value => do
    let key ← resolveOne structs key
    let value ← resolveOne structs value
    .ok (.pbtree key value)
  | .pvec elem => do
    let elem ← resolveOne structs elem
    .ok (.pvec elem)
  | .tuple elems => do
    let elems ← resolveOnes structs elems
    .ok (.tuple elems)
  | .interface name [] => .error ("interface '" ++ name ++ "' referenced where iface map isn't available")
  | other => .ok other

def resolveOnes (structs : Table StructInfo) : List Ty → Except String (List Ty)
  | [] => .ok []
  | t :: ts => do
    let t ← resolveOne structs t
    let ts ← resolveOnes structs ts
    .ok (t :: ts)

end

mutual

def resolveOneWithEnums (T : Tables) : Ty → Except String Ty
  | .enum name [] =>
    match T.enums name with
    | none => .error ("unknown enum '" ++ name ++ "'")
    | some variants => .ok (.enum name variants)
  | .enum name variants => .ok (.enum name variants)
  | .interface name [] =>
    match T.ifaces name with
    | none => .error ("unknown interface '" ++ name ++ "'")
    | some methods => .ok (.interface name methods)
  | .interface name methods => .ok (.interface name methods)
  | .struct name [] groups =>
    match T.caps name with
    | some (fields, owner) => .ok (.cap name fields owner)
    | none => resolveOne T.structs (.struct name [] groups)
  | .array elem => do
    let elem ← resolveOneWithEnums T elem
    .ok (.array elem)
  | .map key value => do
    let key ← resolveOneWithEnums T key
    let value ← resolveOneWithEnums T value
    .ok (.map key value)
  | .pmap key value => do
    let key ← resolveOneWithEnums T key
    let value ← resolveOneWithEnums T value
    .ok (.pmap key value)
  | .pbtree key value => do
    let key ← resolveOneWithEnums T key
    let value ← resolveOneWithEnums T value
    .ok (.pbtree key value)
  | .pvec elem => do
    let elem ← resolveOneWithEnums T elem
    .ok (.pvec elem)
  | .tuple elems => do
    let elems ← resolveOnesWithEnums T elems
    .ok (.tuple elems)
  | .explicitLiteral inner => do
    let inner ← resolveOneWithEnums T inner
    .ok (.explicitLiteral inner)
  | ty => resolveOne T.structs ty

def resolveOnesWithEnums (T : Tables) : List Ty → Except String (List Ty)
  | [] => .ok []
  | t :: ts => do
    let t ← resolveOneWithEnums T t
    let ts ← resolveOnesWithEnums T ts
    .ok (t :: ts)

end

/-! ### Bodies -/

mutual

def resolveStmts (T : Tables) : List Stmt → Except String (List Stmt)
  | [] => .ok []
  | s :: stmts => do
    let s ← resolveStmt T s
    let stmts ← resolveStmts T stmts
    .ok (s :: stmts)

/-- Only the annotations of `let` in these forms of statements are resolved. -/
def resolveStmt (T : Tables) : Stmt → Except String Stmt
  | .letVar name (some ty) value => do
    let ty ← resolveOneWithEnums T ty
    .ok (.letVar name (some ty) value)
  | .ifStmt s => do
    let s ← resolveIf T s
    .ok (.ifStmt s)
  | .whileLoop cond (.mk stmts tail) => do
    let stmts ← resolveStmts T stmts
    .ok (.whileLoop cond (.mk stmts tail))
  | .forLoop var iter limit (.mk stmts tail) => do
    let stmts ← resolveStmts T stmts
    .ok (.forLoop var iter limit (.mk stmts tail))
  | .forRange var start finish inclusive (.mk stmts tail) => do
    let stmts ← resolveStmts T stmts
    .ok (.forRange var start finish inclusive (.mk stmts tail))
  | s => .ok s

def resolveIf (T : Tables) : IfStmt → Except String IfStmt
  | .mk cond (.mk stmts tail) orElse => do
    let stmts ← resolveStmts T stmts
    let orElse ← resolveElse T orElse
    .ok (.mk cond (.mk stmts tail) orElse)

def resolveElse (T : Tables) : ElseBranch → Except String ElseBranch
  | .none => .ok .none
  | .block (.mk stmts tail) => do
    let stmts ← resolveStmts T stmts
    .ok (.block (.mk stmts tail))
  | .elseIf inner => do
    let inner ← resolveIf T inner
    .ok (.elseIf inner)

end

/-! ### The passes -/

/-- The fields of a declaration with their types resolved. -/
def resolveFields (resolve : Ty → Except String Ty) (fields : List StructField) : Except String (List StructField) :=
  fields.mapM fun f => do
    let ty ← resolve f.ty
    .ok { f with ty := ty }

def fieldTypes (fields : List StructField) : List (String × Ty) := fields.map fun f => (f.name, f.ty)

def structInfo (fields : List StructField) : StructInfo :=
  (fieldTypes fields, normalizeGroups (fields.map StructField.group))

/-- The first pass over the structs, with the structs before each. -/
def resolveStructs : List StructDecl → Table StructInfo → Except String (List StructDecl × Table StructInfo)
  | [], structs => .ok ([], structs)
  | decl :: decls, structs => do
    let fields ← resolveFields (resolveOne structs) decl.fields
    if structs.contains decl.name then .error ("duplicate struct '" ++ decl.name ++ "'")
    else do
      let (decls, structs) ← resolveStructs decls (structs.insert decl.name (structInfo fields))
      .ok ({ decl with fields := fields } :: decls, structs)

def resolveVariants (T : Tables) (variants : List EnumVariant) : Except String (List EnumVariant) :=
  variants.mapM fun v => do
    let payload ← resolveOnesWithEnums T v.payload
    .ok { v with payload := payload }

def variantTypes (variants : List EnumVariant) : List (String × List Ty) := variants.map fun v => (v.name, v.payload)

/-- The pass over the enums, with the structs and the enums before each. -/
def resolveEnums (structs : Table StructInfo) :
    List EnumDecl → Table (List (String × List Ty)) → Except String (List EnumDecl × Table (List (String × List Ty)))
  | [], enums => .ok ([], enums)
  | decl :: decls, enums => do
    let variants ← resolveVariants ⟨structs, enums, .empty, .empty⟩ decl.variants
    if enums.contains decl.name then .error ("duplicate enum '" ++ decl.name ++ "'")
    else do
      let (decls, enums) ← resolveEnums structs decls (enums.insert decl.name (variantTypes variants))
      .ok ({ decl with variants := variants } :: decls, enums)

/-- The pass over the capabilities, with the structs and the enums. -/
def resolveCaps (structs : Table StructInfo) (enums : Table (List (String × List Ty))) (owner : String) :
    List CapDecl → Table (List (String × Ty) × String) →
      Except String (List CapDecl × Table (List (String × Ty) × String))
  | [], caps => .ok ([], caps)
  | decl :: decls, caps => do
    let fields ← resolveFields (resolveOneWithEnums ⟨structs, enums, .empty, .empty⟩) decl.fields
    if caps.contains decl.name || structs.contains decl.name || enums.contains decl.name then
      .error ("duplicate type '" ++ decl.name ++ "'")
    else do
      let (decls, caps) ← resolveCaps structs enums owner decls (caps.insert decl.name (fieldTypes fields, owner))
      .ok ({ decl with fields := fields } :: decls, caps)

def resolveParams (T : Tables) (params : List Ast.Param) : Except String (List Ast.Param) :=
  params.mapM fun p => do
    let ty ← resolveOneWithEnums T p.ty
    .ok { p with ty := ty }

def resolveMethods (T : Tables) (methods : List InterfaceMethod) : Except String (List InterfaceMethod) :=
  methods.mapM fun m => do
    let params ← resolveParams T m.params
    let returnType ← resolveOneWithEnums T m.returnType
    .ok { m with params := params, returnType := returnType }

def methodSigs (methods : List InterfaceMethod) : List InterfaceMethodSig :=
  methods.map fun m => .mk m.name (m.params.map Ast.Param.ty) m.returnType m.isView m.isPure

/-- The pass over the interfaces, with the structs, the enums and the capabilities. -/
def resolveInterfaces (structs : Table StructInfo) (enums : Table (List (String × List Ty)))
    (caps : Table (List (String × Ty) × String)) :
    List InterfaceDecl → Table (List InterfaceMethodSig) →
      Except String (List InterfaceDecl × Table (List InterfaceMethodSig))
  | [], ifaces => .ok ([], ifaces)
  | decl :: decls, ifaces => do
    let methods ← resolveMethods ⟨structs, enums, caps, .empty⟩ decl.methods
    if ifaces.contains decl.name || structs.contains decl.name || enums.contains decl.name ||
        caps.contains decl.name then
      .error ("duplicate type '" ++ decl.name ++ "'")
    else do
      let (decls, ifaces) ← resolveInterfaces structs enums caps decls (ifaces.insert decl.name (methodSigs methods))
      .ok ({ decl with methods := methods } :: decls, ifaces)

/-- The second pass over the structs, with all tables. -/
def resolveStructsAgain : List StructDecl → Tables → Except String (List StructDecl × Tables)
  | [], T => .ok ([], T)
  | decl :: decls, T => do
    let fields ← resolveFields (resolveOneWithEnums T) decl.fields
    let (decls, T) ← resolveStructsAgain decls { T with structs := T.structs.insert decl.name (structInfo fields) }
    .ok ({ decl with fields := fields } :: decls, T)

def resolveFn (T : Tables) (f : FnDef) : Except String FnDef := do
  let params ← resolveParams T f.params
  let returnType ← resolveOneWithEnums T f.returnType
  let stmts ← resolveStmts T f.body.stmts
  .ok { f with params := params, returnType := returnType, body := .mk stmts f.body.tail }

def resolveState (T : Tables) (s : StateDecl) : Except String StateDecl := do
  let ty ← resolveOneWithEnums T s.ty
  .ok { s with ty := ty }

def resolveImport (T : Tables) (i : Import) : Except String Import := do
  let params ← resolveOnesWithEnums T i.params
  let returnType ← resolveOneWithEnums T i.returnType
  .ok { i with params := params, returnType := returnType }

def resolveConst (T : Tables) (c : ConstDecl) : Except String ConstDecl := do
  let ty ← resolveOneWithEnums T c.ty
  .ok { c with ty := ty }

/-- The structs of other modules, by their qualified names, with whether they are public. -/
abbrev CrossModuleStructs := List (String × List (String × Ty) × List (Option String) × Bool)

def loadCross (cross : CrossModuleStructs) : Table StructInfo :=
  cross.foldl (fun t (qname, fields, groups, isPub) => if isPub then t.insert qname (fields, groups) else t) .empty

def resolveTypesWithExternals (m : Module) (cross : CrossModuleStructs) (ifaceExternals : Table (List InterfaceMethodSig)) :
    Except String Module := do
  let owner := m.name.getD "main"
  let (structs, structTable) ← resolveStructs m.structs (loadCross cross)
  let (enums, enumTable) ← resolveEnums structTable m.enums .empty
  let (caps, capTable) ← resolveCaps structTable enumTable owner m.caps .empty
  let (interfaces, ifaceTable) ← resolveInterfaces structTable enumTable capTable m.interfaces ifaceExternals
  let (structs, T) ← resolveStructsAgain structs ⟨structTable, enumTable, capTable, ifaceTable⟩
  let states ← m.states.mapM (resolveState T)
  let functions ← m.functions.mapM (resolveFn T)
  let imports ← m.imports.mapM (resolveImport T)
  let consts ← m.consts.mapM (resolveConst T)
  .ok ⟨m.name, imports, states, functions, structs, enums, consts, caps, interfaces⟩

def resolveTypes (m : Module) : Except String Module := resolveTypesWithExternals m [] .empty

end Rend.Typeck
