import Rend.Artifact.Assemble
import Rend.Artifact.Format
import Rend.Link.Dispatch
import Mathlib.Data.Prod.Lex

/-!
# Linking

What the engine does around the front end and the machine (`engine.rs`): it gathers the signatures,
structs, interfaces and effects the modules see of each other, hands them to the front end, compiles
each module, checks the calls between modules, and runs the modules or puts them into an artifact. A
set of sources is given in the order its map is iterated in.

The front end and the machine are a parameter, `Frontend`. A refusal is `none`: which error is reported
is left out.
-/

namespace Rend.Link

open Lib Optimize

/-! ### What modules see of each other -/

/-- The signature of an entry function (`typeck::ModuleSig`). -/
structure ModuleSig where
  params : List Ty
  ret : Ty

/-- A struct as other modules see it: its fields, their groups, and whether it is public. -/
structure CrossStruct where
  fields : List (String × Ty)
  groups : List (Option String)
  isPub : Bool

/-- The head of a declared function. -/
structure FnDecl where
  name : String
  isEntry : Bool
  isView : Bool
  isPure : Bool

/-- What the front end is told of other modules: the signatures of their entries, their interfaces, and
the flags and effects of their entries. -/
structure Manifest where
  externals : SortedMap String ModuleSig
  ifaceExternals : SortedMap String (List InterfaceMethodSig)
  ifaceNames : List String
  fnFlags : SortedMap (String ×ₗ String) (Bool × Bool)
  effects : SortedMap String EffectClass

/-- How the machine sees the loaded modules: a module by its name, an interface by the first declaration
of its name, and the handlers of an event in the order they are run in. -/
structure World where
  module : String → Option BcModule
  iface : String → Option (List InterfaceMethodSig)
  handlers : String → List (String × ℕ)

/-- The front end and the machine. `parse` goes to the end of modifier expansion; `lower` is the type
checker, the affine checker, the check of the host imports, the compiler of the functions, the check of
their annotations and the optimizer. -/
structure Frontend (Ast Outcome : Type) where
  parse : List String → String → Option Ast
  declared : Ast → Option String
  structs : Ast → List (String × CrossStruct)
  resolve : SortedMap String CrossStruct → SortedMap String (List InterfaceMethodSig) → Ast → Option Ast
  entrySigs : Ast → List (String × ModuleSig)
  functions : Ast → List FnDecl
  handlers : Ast → List Artifact.HandlerDecl
  interfaces : Ast → List InterfaceDecl
  lower : Manifest → Ast → Option Artifact.Source
  runWorld : World → String → Option Outcome
  /-- The name a module declares is an identifier. -/
  ident : ∀ m n, declared m = some n → ':' ∉ n.toList
  lower_handlers : ∀ M m src, lower M m = some src → src.handlers = handlers m
  lower_interfaces : ∀ M m src, lower M m = some src → src.interfaces = interfaces m

variable {Ast Outcome : Type}

/-- The name of an item of a module in the other modules. -/
def qualified (module name : String) : String := module ++ "::" ++ name

/-- The effect an entry advertises. -/
def declEffect (isView isPure : Bool) : EffectClass :=
  if isPure then .pure else if isView then .readOnly else .impure

/-! ### Sets of sources -/

section Sources

variable (F : Frontend Ast Outcome)

/-- The struct declarations of all modules, before their types are resolved. -/
def crossStructs (parsed : List (String × Ast)) : SortedMap String CrossStruct :=
  .ofEntries (parsed.flatMap fun p => (F.structs p.2).map fun s => (qualified p.1 s.1, s.2))

def collectManifest (parsed : List (String × Ast)) : SortedMap String ModuleSig :=
  .ofEntries (parsed.flatMap fun p => (F.entrySigs p.2).map fun s => (qualified p.1 s.1, s.2))

def collectDeclEffects (parsed : List (String × Ast)) : SortedMap String EffectClass :=
  .ofEntries (parsed.flatMap fun p => ((F.functions p.2).filter FnDecl.isEntry).map fun f =>
    (qualified p.1 f.name, declEffect f.isView f.isPure))

def collectDeclFnFlags (parsed : List (String × Ast)) : SortedMap (String ×ₗ String) (Bool × Bool) :=
  .ofEntries (parsed.flatMap fun p => ((F.functions p.2).filter FnDecl.isEntry).map fun f =>
    (toLex (p.1, f.name), (f.isView, f.isPure)))

/-- The call goes to an entry of one of the modules. -/
def callResolves (modules : List BcModule) (f : BcFn) : Instr → Bool
  | .callExternal _ moduleNameIdx fnNameIdx _ _ _ _ =>
    match f.consts[moduleNameIdx]?, f.consts[fnNameIdx]? with
    | some (.str mn), some (.str fnn) =>
      match modules.find? fun m => m.name = mn with
      | none => false
      | some target =>
        match fnAt target fnn with
        | none => false
        | some g => g.isEntry
    | _, _ => false
  | _ => true

def validateCrossModuleCalls (modules : List BcModule) : Bool :=
  modules.all fun m => m.functions.all fun f => f.code.all (callResolves modules f)

/-- Compiles the modules of a set, once their types are resolved. -/
def linkModules (resolved : List (String × Ast)) : Option (List BcModule) := do
  let manifest : Manifest :=
    { externals := collectManifest F resolved
      ifaceExternals := []
      ifaceNames := []
      fnFlags := collectDeclFnFlags F resolved
      effects := collectDeclEffects F resolved }
  let compiled ← resolved.mapM fun p => (F.lower manifest p.2).bind fun src =>
    (Artifact.compileNamed src p.1).toOption
  if validateCrossModuleCalls compiled then some compiled else none

/-- Parses the sources; the name a source declares must be the one it is loaded as. -/
def parseSources (order : List (String × String)) : Option (List (String × Ast)) :=
  order.mapM fun e => (F.parse [] e.2).bind fun m =>
    if (F.declared m).all (fun n => n = e.1) then some (e.1, m) else none

/-- `compile_module_set`: no module sees the structs of another. -/
def compileModuleSet (order : List (String × String)) : Option (List BcModule) := do
  let parsed ← parseSources F order
  let resolved ← parsed.mapM fun p => (F.resolve [] [] p.2).map fun m => (p.1, m)
  linkModules F resolved

/-- The modules of a run, with the types resolved against the structs of all of them. -/
def resolveSet (order : List (String × String)) : Option (List (String × Ast)) := do
  let parsed ← parseSources F order
  parsed.mapM fun p => (F.resolve (crossStructs F parsed) [] p.2).map fun m => (p.1, m)

/-- The sources by name, as they are put into the map: each must declare its name, and no two the same. -/
def byName (sources : List String) : Option (List (String × String)) := do
  let entries ← sources.mapM fun src => (F.parse [] src).bind fun m =>
    (F.declared m).map fun n => (n, src)
  if (entries.map Prod.fst).Nodup then some entries else none

/-- The handlers of an event: by module in their order, in a module by declaration. -/
def handlersOf (modules : List BcModule) (key : String) : List (String × ℕ) :=
  modules.flatMap fun m => ((m.handlerDispatch.lookup key).getD []).map fun i => (m.name, i)

def worldOf (modules : List BcModule) : World where
  module := fun name => modules.find? fun m => m.name = name
  iface := fun name => (firstDecl modules name).map methodSigs
  handlers := handlersOf modules

/-- `execute_main_with_context`. -/
def executeMain (mainModule : String) (order : List (String × String)) : Option Outcome := do
  let resolved ← resolveSet F order
  let compiled ← linkModules F resolved
  if compiled.any (fun m => m.name = mainModule) then F.runWorld (worldOf compiled) mainModule else none

end Sources

/-! ### Artifacts -/

/-- A compiled artifact: its bytes, their hash, and its modules. -/
structure Artifact where
  bytes : Bytes
  contentHash : U128
  modules : List BcModule

def Artifact.fromModules (modules : List BcModule) : Artifact where
  bytes := Artifact.encode modules
  contentHash := child 0 (Artifact.encode modules)
  modules := modules

def Artifact.fromBytes (bytes : Bytes) : Except Artifact.DecodeError Artifact := do
  let modules ← Artifact.decode bytes
  return { bytes := bytes, contentHash := child 0 bytes, modules := modules }

/-- `compile_modules`, once the sources are in their map. -/
def compileModules (F : Frontend Ast Outcome) (order : List (String × String)) : Option Artifact :=
  (compileModuleSet F order).map Artifact.fromModules

/-! ### Transactions against artifacts -/

section Deps

variable (deps : List Artifact)

/-- The modules of the dependencies. -/
def depModules : List BcModule := deps.flatMap Artifact.modules

def collectExternals : SortedMap String ModuleSig :=
  .ofEntries ((depModules deps).flatMap fun m => (m.functions.filter BcFn.isEntry).map fun f =>
    (qualified m.name f.name, ⟨f.paramTypes, f.returnType⟩))

def collectExternalEffects : SortedMap String EffectClass :=
  .ofEntries ((depModules deps).flatMap fun m => (m.functions.filter BcFn.isEntry).map fun f =>
    (qualified m.name f.name, declEffect f.isView f.isPure))

def collectDepFnFlags : SortedMap (String ×ₗ String) (Bool × Bool) :=
  .ofEntries ((depModules deps).flatMap fun m => (m.functions.filter BcFn.isEntry).map fun f =>
    (toLex (m.name, f.name), (f.isView, f.isPure)))

def depIfaceNames : List String := (depModules deps).flatMap fun m => m.interfaces.map fun d => d.name

def depIfaceMethods : SortedMap String (List InterfaceMethodSig) :=
  .ofEntries ((depModules deps).flatMap fun m => m.interfaces.map fun d => (d.name, methodSigs d))

/-- The public structs of the dependencies. -/
def depCrossStructs : SortedMap String CrossStruct :=
  .ofEntries ((depModules deps).flatMap fun m => (m.structShapes.filter StructShape.isPub).map fun s =>
    (qualified m.name s.name, ⟨s.fieldNames.zip s.fieldTypes, s.fieldGroups, s.isPub⟩))

/-- The modules a transaction is linked with: its own, and the first one of each other name. -/
def linkedWith (tx : BcModule) : List BcModule :=
  (depModules deps).foldl (fun all m => if all.any (fun a => a.name = m.name) then all else all ++ [m]) [tx]

/-- `compile_tx`. -/
def compileTx (F : Frontend Ast Outcome) (src : String) : Option Artifact := do
  let parsed ← F.parse (depIfaceNames deps) src
  let module ← F.resolve (depCrossStructs deps) (depIfaceMethods deps) parsed
  if (F.functions module).any (fun f => f.name = "main") then
    let moduleName := (F.declared module).getD "main"
    if (depModules deps).any (fun m => m.name = moduleName) then none
    else
      let lowered ← F.lower
        { externals := collectExternals deps
          ifaceExternals := depIfaceMethods deps
          ifaceNames := depIfaceNames deps
          fnFlags := collectDepFnFlags deps
          effects := collectExternalEffects deps } module
      let bc ← (Artifact.compileNamed lowered moduleName).toOption
      if validateCrossModuleCalls (linkedWith deps bc) then some (.fromModules [bc]) else none
  else none

end Deps

end Rend.Link
