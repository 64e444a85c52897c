import Rend.Artifact.Assemble
import Rend.Compile.WellFormed

/-!
# Modules

A module is compiled function by function under the tables of its declarations, and the results are put
together (`compile_named_with_extras`). What is compiled as meant is well formed: every function refers to what
exists in the module and leads into its own code.
-/

namespace Rend.Ast

/-- A module after its types are resolved (`ast::Module`). -/
structure Module where
  imports : List String
  states : List (String × Ty)
  structs : List Artifact.StructDecl
  caps : List Artifact.StructDecl
  enums : List EnumShape
  interfaces : List InterfaceDecl
  handlers : List Artifact.HandlerDecl
  functions : List FnDef
  consts : List (String × Expr)
  indexes : List Index.IndexDecl

end Rend.Ast

namespace Rend.Compile

open Lib Artifact

section Module

variable (module : Ast.Module)

/-- The shapes of the structs, then those of the capabilities. -/
def structShapes : List StructShape :=
  module.structs.map (fun d => shapeOf d.isPub d) ++ module.caps.map (shapeOf false)

/-- A state by its name, with its declared type. -/
def stateOfName (name : String) : Option Ty := (SortedMap.ofEntries module.states).lookup name

variable (moduleName : String) (ifaceExternals : List String) (externFnFlags : String × String → Option (Bool × Bool))
  (typeText : Ty → String)

/-- What the functions of a module are lowered under. -/
def moduleEnv : Env where
  fnIndex name := (nameIndex (module.functions.map fun f => f.name)).lookup name
  importIndex name := (nameIndex module.imports).lookup name
  stateIndex name := (nameIndex (module.states.map fun s => s.1)).lookup name
  stateTypes := module.states.map fun s => stripExplicitLiteral s.2
  stateRoots := module.states.map fun s => stateRoot moduleName s.1
  structIndex name := (nameIndex ((structShapes module).map fun s => s.name)).lookup name
  structShapes := structShapes module
  statesByName := stateOfName module
  summaries := summarizeFns module.functions (stateOfName module)
  enumIndex name := (nameIndex (module.enums.map fun e => e.name)).lookup name
  enumShapes := module.enums
  ifaceIndex name := decide (name ∈ (module.interfaces.map fun d => d.name) ++ ifaceExternals)
  moduleConsts name := (SortedMap.ofEntries module.consts).lookup name
  externFnFlags := externFnFlags
  indexesByPrimary name := module.indexes.filter fun idx => idx.onState = name
  typeText := typeText

variable (depth : ℕ) (w : Widths)

def compileNamedWithExtras : Except String BcModule := do
  let (fns, paths) ←
    compileFunctions (moduleEnv module moduleName ifaceExternals externFnFlags typeText) depth w module.functions ⟨[], []⟩
  compileNamed
    { imports := module.imports
      states := module.states
      structs := module.structs
      caps := module.caps
      enums := module.enums
      interfaces := module.interfaces
      handlers := module.handlers
      functions := fns
      pathSpecs := paths.specs } moduleName

end Module

/-! ### Well-formed modules -/

/-- The place of a name is that of an item. -/
theorem lt_of_nameIndex {names : List String} {name : String} {i : ℕ} (h : (nameIndex names).lookup name = some i) :
    i < names.length := by
  obtain ⟨l₁, l₂, heq, -⟩ := List.lookup_eq_some_iff.mp h
  have hentry : (name, i) ∈ nameIndex names := by
    rw [heq]
    exact List.mem_append_right l₁ List.mem_cons_self
  have hmem : (name, i) ∈ names.zipIdx := SortedMap.mem_ofEntries hentry
  exact (List.getElem?_eq_some_iff.mp (List.mem_zipIdx_iff_getElem?.mp hmem)).1

section WellFormed

variable {module : Ast.Module} {moduleName : String} {ifaceExternals : List String}
  {externFnFlags : String × String → Option (Bool × Bool)} {typeText : Ty → String} {depth : ℕ}

theorem length_compileFunctions {env : Env} {w : Widths} {fns : List Ast.FnDef} {paths : PathTables}
    {r : List BcFn × PathTables} (h : compileFunctions env depth w fns paths = .ok r) : r.1.length = fns.length := by
  induction fns generalizing paths r with
  | nil =>
    cases h
    rfl
  | cons f fns ih =>
    obtain ⟨⟨fn, mid⟩, -, h⟩ := bind_ok h
    obtain ⟨⟨rest, last⟩, hrest, h⟩ := bind_ok h
    cases h
    exact congrArg Nat.succ (ih hrest)

/-- The tables of a compiled module are those its functions were lowered under. -/
theorem compileNamed_tables {src : Source} {m : BcModule} (h : compileNamed src moduleName = .ok m) :
    m.imports = src.imports ∧ m.functions = src.functions ∧ m.pathSpecs = src.pathSpecs ∧
      m.stateTypes = (src.states.map fun s => stripExplicitLiteral s.2) ∧ m.enumShapes = src.enums ∧
      m.structShapes = src.structs.map (fun d => shapeOf d.isPub d) ++ src.caps.map (shapeOf false) := by
  unfold compileNamed at h
  obtain ⟨dispatch, -, h⟩ := bind_ok h
  cases h
  exact ⟨rfl, rfl, rfl, rfl, rfl, rfl⟩

theorem wellFormed_of_meant {m : BcModule}
    (h : compileNamedWithExtras module moduleName ifaceExternals externFnFlags typeText depth unbounded = .ok m) :
    ∀ f ∈ m.functions, WellFormedFn m f ∧ StaysInside f := by
  obtain ⟨⟨fns, paths⟩, hfns, h⟩ := bind_ok h
  obtain ⟨himports, hfunctions, hspecs, hstates, henums, hstructs⟩ := compileNamed_tables h
  have hserves : Serves m (moduleEnv module moduleName ifaceExternals externFnFlags typeText) := by
    refine ⟨fun hi => ?_, fun hi => ?_, fun hi => ?_, hstructs.symm, henums.symm⟩
    · rw [hfunctions, length_compileFunctions hfns]
      simpa using lt_of_nameIndex hi
    · rw [himports]
      exact lt_of_nameIndex hi
    · rw [hstates, List.length_map]
      simpa using lt_of_nameIndex hi
  rw [hfunctions]
  exact compileFunctions_wellFormed hserves hfns (fun p hp => absurd hp List.not_mem_nil) (hspecs ▸ le_rfl)

/-- What fits is compiled as meant. -/
theorem compileNamedWithExtras_meant {meant : List BcFn × PathTables}
    (hmeant : compileFunctions (moduleEnv module moduleName ifaceExternals externFnFlags typeText) depth unbounded
      module.functions ⟨[], []⟩ = .ok meant) (hfit : Fitting meant) :
    compileNamedWithExtras module moduleName ifaceExternals externFnFlags typeText depth machine =
      compileNamedWithExtras module moduleName ifaceExternals externFnFlags typeText depth unbounded := by
  rw [compileNamedWithExtras, compileNamedWithExtras, hmeant, (compileFunctions_agree hmeant hfit).1]

/-- **Compiled modules are well formed**, when the numbers of their functions fit the fields they are written into:
every register an instruction names lies in the frame of its function, every index in the constants of the function
or the tables of the module, and every jump leads into the code of the function or to its end. -/
theorem compiled_wellFormed {m : BcModule} {meant : List BcFn × PathTables}
    (hmeant : compileFunctions (moduleEnv module moduleName ifaceExternals externFnFlags typeText) depth unbounded
      module.functions ⟨[], []⟩ = .ok meant) (hfit : Fitting meant)
    (h : compileNamedWithExtras module moduleName ifaceExternals externFnFlags typeText depth machine = .ok m) :
    ∀ f ∈ m.functions, WellFormedFn m f ∧ StaysInside f := by
  rw [compileNamedWithExtras_meant hmeant hfit] at h
  exact wellFormed_of_meant h

end WellFormed

/-- A module of one function, which answers with its argument or with a sum of two reads. -/
def pickModule : Ast.Module where
  imports := []
  states := [("n", .int)]
  structs := []
  caps := []
  enums := []
  interfaces := []
  handlers := []
  functions := [{
    name := "pick"
    params := [⟨"c", .bool⟩, ⟨"x", .int⟩]
    returnType := .int
    body := .mk [.letVar "y" none (.ident "x"),
      .ifStmt (.mk (.ident "c") (.mk [.assign (.ident "y") (.binary .add (.ident "n") (.ident "n"))] none) .none)]
      (some (.ident "y"))
    isNore := false
    isEntry := false
    isView := true
    isPure := false
    modifiers := [] }]
  consts := []
  indexes := []

theorem compiled_wellFormed_pick :
    ∃ m, compileNamedWithExtras pickModule "main" [] (fun _ => none) (fun _ => "") 1 machine = .ok m ∧
      ∀ f ∈ m.functions, WellFormedFn m f ∧ StaysInside f := by
  obtain ⟨meant, hmeant, hfit⟩ : ∃ meant, compileFunctions (moduleEnv pickModule "main" [] (fun _ => none) fun _ => "") 1
      unbounded pickModule.functions ⟨[], []⟩ = .ok meant ∧ Fitting meant :=
    ⟨_, rfl, by decide, by decide, by decide⟩
  exact ⟨_, rfl, compiled_wellFormed hmeant hfit rfl⟩

end Rend.Compile
