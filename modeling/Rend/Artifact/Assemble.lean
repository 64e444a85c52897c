import Rend.Bytecode
import Rend.Serialize

/-!
# Compiled modules

What the compiler puts around the compiled functions of a module (`compile_named_with_extras`): the
tables of its imports, states, structs, enums and interfaces, the index of each table, and the dispatch
of its event handlers. The functions and the field paths they use come from the function compiler and
the optimizer.
-/

namespace Rend.Artifact

open Lib

/-- A declared field (`ast::StructField`). -/
structure FieldDecl where
  name : String
  ty : Ty
  group : Option String

/-- A declared struct (`ast::StructDecl`); a capability is declared in the same way. -/
structure StructDecl where
  name : String
  fields : List FieldDecl
  isPub : Bool

/-- An event handler: the function it is compiled to, and the event it is for. -/
structure HandlerDecl where
  fnName : String
  eventModule : Option String
  eventType : String

/-- A module after its types are resolved, with its compiled functions. -/
structure Source where
  imports : List String
  states : List (String × Ty)
  structs : List StructDecl
  caps : List StructDecl
  enums : List EnumShape
  interfaces : List InterfaceDecl
  handlers : List HandlerDecl
  functions : List BcFn
  pathSpecs : List PathSpec

mutual

/-- Drops explicit-literal tags. Those inside an enum, a capability or an interface stay. -/
def stripExplicitLiteral : Ty → Ty
  | .explicitLiteral inner => stripExplicitLiteral inner
  | .array elem => .array (stripExplicitLiteral elem)
  | .set elem => .set (stripExplicitLiteral elem)
  | .dict key value => .dict (stripExplicitLiteral key) (stripExplicitLiteral value)
  | .map key value => .map (stripExplicitLiteral key) (stripExplicitLiteral value)
  | .pmap key value => .pmap (stripExplicitLiteral key) (stripExplicitLiteral value)
  | .pbtree key value => .pbtree (stripExplicitLiteral key) (stripExplicitLiteral value)
  | .pvec elem => .pvec (stripExplicitLiteral elem)
  | .struct name fields groups => .struct name (stripFields fields) groups
  | .tuple elems => .tuple (stripTypes elems)
  | .int => .int | .uint => .uint | .float => .float | .i32 => .i32 | .u32 => .u32 | .u64 => .u64
  | .u128 => .u128 | .bool => .bool | .unit => .unit | .resource => .resource | .string => .string
  | .address => .address | .bytes => .bytes | .json => .json
  | .enum name variants => .enum name variants
  | .cap name fields owner => .cap name fields owner
  | .interface name methods => .interface name methods
  termination_by structural x => x

def stripTypes : List Ty → List Ty
  | [] => []
  | t :: ts => stripExplicitLiteral t :: stripTypes ts
  termination_by structural x => x

def stripFields : List (String × Ty) → List (String × Ty)
  | [] => []
  | (n, t) :: fs => (n, stripExplicitLiteral t) :: stripFields fs
  termination_by structural x => x

end

mutual

theorem defaultFor_strip : ∀ t : Ty, Value.defaultFor (stripExplicitLiteral t) = Value.defaultFor t
  | .explicitLiteral inner => defaultFor_strip inner
  | .map _ value => defaultFor_strip value
  | .struct name fields _ => congrArg (Value.struct name) (defaultForFields_strip fields)
  | .tuple elems => congrArg Value.tuple (defaultForList_strip elems)
  | .array _ | .set _ | .dict .. | .pmap .. | .pbtree .. | .pvec _ | .enum .. | .cap .. | .interface ..
  | .int | .uint | .float | .i32 | .u32 | .u64 | .u128 | .bool | .unit | .resource | .string
  | .address | .bytes | .json => rfl
  termination_by structural x => x

theorem defaultForList_strip : ∀ ts : List Ty,
    Value.defaultForList (stripTypes ts) = Value.defaultForList ts
  | [] => rfl
  | t :: ts => congrArg₂ List.cons (defaultFor_strip t) (defaultForList_strip ts)
  termination_by structural x => x

theorem defaultForFields_strip : ∀ fs : List (String × Ty),
    Value.defaultForFields (stripFields fs) = Value.defaultForFields fs
  | [] => rfl
  | (n, t) :: fs =>
    congrArg₂ List.cons (congrArg (Prod.mk n) (defaultFor_strip t)) (defaultForFields_strip fs)
  termination_by structural x => x

end

/-- The key of the cell of a state (`hashing::state_root`). -/
def stateRoot (moduleId stateName : String) : U128 :=
  fnv128 (strBytes moduleId ++ [0#8] ++ (strBytes stateName ++ [0#8]))

/-- The shape of a struct or a capability; a capability is never public. -/
def shapeOf (isPub : Bool) (d : StructDecl) : StructShape where
  name := d.name
  fieldNames := d.fields.map fun f => f.name
  fieldTypes := d.fields.map fun f => stripExplicitLiteral f.ty
  fieldGroups := d.fields.map fun f => f.group
  isPub := isPub

/-- The functions that handle each event, in the order of the declarations. An event is keyed by the
module that declares it; a handler without a function stops the compilation. -/
def handlerDispatch (moduleName : String) (fnIndex : SortedMap String ℕ) :
    List HandlerDecl → SortedMap String (List ℕ) → Except String (SortedMap String (List ℕ))
  | [], m => .ok m
  | h :: hs, m =>
    match fnIndex.lookup h.fnName with
    | none => .error ("handler '" ++ h.fnName ++ "' missing from fn index (internal)")
    | some idx =>
      let key := h.eventModule.getD moduleName ++ "::" ++ h.eventType
      handlerDispatch moduleName fnIndex hs (m.insert key ((m.lookup key).getD [] ++ [idx % 2 ^ 16]))

def compileNamed (src : Source) (moduleName : String) : Except String BcModule := do
  let structShapes := src.structs.map (fun d => shapeOf d.isPub d) ++ src.caps.map (shapeOf false)
  let fnIndex := nameIndex (src.functions.map fun f => f.name)
  let dispatch ← handlerDispatch moduleName fnIndex src.handlers []
  return { name := moduleName
           imports := src.imports
           importIndex := nameIndex src.imports
           stateRoots := src.states.map fun s => stateRoot moduleName s.1
           stateTypes := src.states.map fun s => stripExplicitLiteral s.2
           stateDefaults := src.states.map fun s => Value.defaultFor s.2
           stateNames := src.states.map fun s => s.1
           stateIndex := nameIndex (src.states.map fun s => s.1)
           structShapes := structShapes
           structIndex := nameIndex (structShapes.map fun s => s.name)
           functions := src.functions
           fnIndex := fnIndex
           pathSpecs := src.pathSpecs
           handlerDispatch := dispatch
           enumShapes := src.enums
           enumIndex := nameIndex (src.enums.map fun e => e.name)
           interfaces := src.interfaces
           interfaceIndex := nameIndex (src.interfaces.map fun d => d.name) }

/-! ### What every compiled module has -/

/-- The index tables are those of the names, the defaults those of the state types, the parts of a shape
are of one length, and the handlers are a map. -/
structure Built (m : BcModule) : Prop where
  importIndex : m.importIndex = nameIndex m.imports
  stateDefaults : m.stateDefaults = m.stateTypes.map Value.defaultFor
  stateIndex : m.stateIndex = nameIndex m.stateNames
  structIndex : m.structIndex = nameIndex (m.structShapes.map fun s => s.name)
  shapes : ∀ s ∈ m.structShapes, s.fieldTypes.length = s.fieldNames.length ∧
    s.fieldGroups.length = s.fieldNames.length
  fnIndex : m.fnIndex = nameIndex (m.functions.map fun f => f.name)
  enumIndex : m.enumIndex = nameIndex (m.enumShapes.map fun e => e.name)
  interfaceIndex : m.interfaceIndex = nameIndex (m.interfaces.map fun d => d.name)
  handlers : SortedMap.Sorted m.handlerDispatch

theorem handlerDispatch_sorted {moduleName : String} {fnIndex : SortedMap String ℕ}
    {hs : List HandlerDecl} {m m' : SortedMap String (List ℕ)} (hm : SortedMap.Sorted m)
    (h : handlerDispatch moduleName fnIndex hs m = .ok m') : SortedMap.Sorted m' := by
  induction hs generalizing m with
  | nil =>
    cases h
    exact hm
  | cons d hs ih =>
    rw [handlerDispatch] at h
    split at h
    · cases h
    · exact ih (hm.insert _ _) h

theorem shapeOf_lengths (isPub : Bool) (d : StructDecl) :
    (shapeOf isPub d).fieldTypes.length = (shapeOf isPub d).fieldNames.length ∧
      (shapeOf isPub d).fieldGroups.length = (shapeOf isPub d).fieldNames.length := by
  simp [shapeOf]

theorem compileNamed_built {src : Source} {moduleName : String} {m : BcModule}
    (h : compileNamed src moduleName = .ok m) : Built m := by
  unfold compileNamed at h
  cases hd : handlerDispatch moduleName (nameIndex (src.functions.map fun f => f.name)) src.handlers [] with
  | error e => simp [hd, bind, Except.bind] at h
  | ok dispatch =>
    simp only [hd, bind, Except.bind, pure, Except.pure, Except.ok.injEq] at h
    subst h
    refine ⟨rfl, ?_, rfl, rfl, ?_, rfl, rfl, rfl, handlerDispatch_sorted List.Pairwise.nil hd⟩
    · simp [defaultFor_strip]
    · intro s hs
      rcases List.mem_append.mp hs with hs | hs
      · obtain ⟨d, -, rfl⟩ := List.mem_map.mp hs
        exact shapeOf_lengths d.isPub d
      · obtain ⟨d, -, rfl⟩ := List.mem_map.mp hs
        exact shapeOf_lengths false d

end Rend.Artifact
