import Rend.Artifact.Assemble
import Rend.Artifact.Defaults
import Rend.Artifact.Erase

/-!
# Encoding and decoding an artifact

`decode_encode_iff` says when the decoder gives back what was encoded, up to explicit-literal tags: when
the default of every state can be read at the type of the state, the field groups of every struct type
are in normal form, and no interface has a position in the source (`Clean`). In every other case the
difference is known: a default that cannot be read makes the decoder refuse the artifact
(`decode_encode_error`), and otherwise the modules come back in canonical form (`decode_encode`).

The default of a `map` state is the default of its values, which is not a value of the map type, so that
no artifact with such a state can be read (`map_state_not_decoded`).
-/

namespace Rend.Artifact

open Lib

/-! ### Functions and tables -/

theorem reads_vec_self {α : Type} {p : Dec α} {w : α → Bytes} {P : α → Prop} {l : List α}
    (hl : FitsVec P l) (h : ∀ x, P x → Reads p (w x) x) : Reads (readVec p) (writeVec w l) l := by
  have hread := reads_vec hl.1 (g := id) fun x hx => h x (hl.2 x hx)
  rwa [List.map_id] at hread

theorem reads_vec_map {α β : Type} {p : Dec β} {w : α → Bytes} {g : α → β} {P : α → Prop} {l : List α}
    (hl : FitsVec P l) (h : ∀ x, P x → Reads p (w x) (g x)) : Reads (readVec p) (writeVec w l) (l.map g) :=
  reads_vec hl.1 fun x hx => h x (hl.2 x hx)

structure FitsFn (f : BcFn) : Prop where
  name : FitsStr f.name
  nParams : FitsU16 f.nParams
  nRegs : FitsU16 f.nRegs
  paramTypes : FitsVec FitsTy f.paramTypes
  returnType : FitsTy f.returnType
  consts : FitsVec FitsConst f.consts
  code : FitsVec FitsInstr f.code
  readGroups : FitsVec (FitsVec FitsReadOp) f.readGroups

/-- A function as it is read back. -/
def canonFn (f : BcFn) : BcFn :=
  { f with paramTypes := f.paramTypes.map canonTy, returnType := canonTy f.returnType }

theorem reads_fn {f : BcFn} (h : FitsFn f) : Reads readBcFn (writeBcFn f) (canonFn f) :=
  (reads_str h.name).bind <| (reads_u16 h.nParams).bind <| (reads_u16 h.nRegs).bind <|
    (reads_bool _).bind <| (reads_bool _).bind <| (reads_bool _).bind <| (reads_bool _).bind <|
      (reads_vec_map h.paramTypes fun _ => reads_type).bind <| (reads_type h.returnType).bind <|
        (reads_vec_self h.consts fun _ => reads_const).bind <|
          (reads_vec_self h.code fun _ => reads_instr).bind <|
            (reads_vec_self h.readGroups fun _ hg => reads_vec_self hg fun _ => reads_readOp).bind_pure

structure FitsShape (s : StructShape) : Prop where
  name : FitsStr s.name
  fieldNames : FitsVec FitsStr s.fieldNames
  fieldTypes : ∀ t ∈ s.fieldTypes, FitsTy t
  fieldGroups : ∀ g ∈ s.fieldGroups, FitsOption FitsStr g

def canonShape (s : StructShape) : StructShape := { s with fieldTypes := s.fieldTypes.map canonTy }

theorem reads_shapeField {f : String × Ty × Option String} (hn : FitsStr f.1) (ht : FitsTy f.2.1)
    (hg : FitsOption FitsStr f.2.2) :
    Reads readShapeField (writeShapeField f) (f.1, canonTy f.2.1, f.2.2) :=
  (reads_str hn).bind <| (reads_type ht).bind (readOption_str hg).bind_pure

theorem reads_shape {s : StructShape} (h : FitsShape s) (hl : s.fieldTypes.length = s.fieldNames.length ∧
    s.fieldGroups.length = s.fieldNames.length) : Reads readShape (writeShape s) (canonShape s) := by
  have hzip : (s.fieldNames.zip (s.fieldTypes.zip s.fieldGroups)).length = s.fieldNames.length := by
    simp [hl.1, hl.2]
  have hfields := Reads.many (l := s.fieldNames.zip (s.fieldTypes.zip s.fieldGroups))
    (g := fun f => (f.1, canonTy f.2.1, f.2.2)) fun f hf => by
      obtain ⟨hn, htg⟩ := List.of_mem_zip hf
      obtain ⟨ht, hg⟩ := List.of_mem_zip htg
      exact reads_shapeField (h.fieldNames.2 _ hn) (h.fieldTypes _ ht) (h.fieldGroups _ hg)
  rw [hzip] at hfields
  have hread := (reads_str h.name).bind (f := fun name => do
    let fields ← readVec readShapeField
    let isPub ← readBool
    return StructShape.mk name (fields.map fun f => f.1) (fields.map fun f => f.2.1)
      (fields.map fun f => f.2.2) isPub)
    (((reads_u32 h.fieldNames.1).bind hfields).bind (reads_bool s.isPub).bind_pure)
  -- The three lists of the shape are those of the fields that were read.
  have hnames : (s.fieldNames.zip (s.fieldTypes.zip s.fieldGroups)).map (fun f => f.1) = s.fieldNames :=
    List.map_fst_zip (by simp [hl.1, hl.2])
  have hpairs : (s.fieldNames.zip (s.fieldTypes.zip s.fieldGroups)).map (fun f => f.2) =
      s.fieldTypes.zip s.fieldGroups := List.map_snd_zip (by simp [hl.1, hl.2])
  have htypes : (s.fieldTypes.zip s.fieldGroups).map (fun f => f.1) = s.fieldTypes :=
    List.map_fst_zip (by simp [hl.1, hl.2])
  have hgroups : (s.fieldTypes.zip s.fieldGroups).map (fun f => f.2) = s.fieldGroups :=
    List.map_snd_zip (by simp [hl.1, hl.2])
  have htypes' : (s.fieldNames.zip (s.fieldTypes.zip s.fieldGroups)).map (fun f => canonTy f.2.1) =
      s.fieldTypes.map canonTy := by
    rw [← hpairs, List.map_map] at htypes
    have hcanon := congrArg (List.map canonTy) htypes
    rwa [List.map_map] at hcanon
  have hgroups' : (s.fieldNames.zip (s.fieldTypes.zip s.fieldGroups)).map (fun f => f.2.2) =
      s.fieldGroups := by
    rw [← hpairs, List.map_map] at hgroups
    exact hgroups
  simp only [List.map_map, Function.comp_def, hnames, htypes', hgroups', List.append_assoc] at hread
  exact hread

def canonPathSpec (p : PathSpec) : PathSpec := { p with leafType := canonTy p.leafType }

theorem reads_pathSpec {p : PathSpec} (h : FitsTy p.leafType) :
    Reads readPathSpec (writePathSpec p) (canonPathSpec p) :=
  (reads_u128 _).bind <| (reads_type h).bind (reads_bool _).bind_pure

structure FitsEnumShape (e : EnumShape) : Prop where
  name : FitsStr e.name
  variantNames : FitsVec FitsStr e.variantNames

theorem reads_enumShape {e : EnumShape} (h : FitsEnumShape e) : Reads readEnumShape (writeEnumShape e) e :=
  (reads_str h.name).bind (reads_vec_self h.variantNames fun _ => reads_str).bind_pure

def FitsParam (p : Param) : Prop := FitsStr p.name ∧ FitsTy p.ty

/-- A parameter as it is read back, without its position. -/
def canonParam (p : Param) : Param := ⟨p.name, canonTy p.ty, .default⟩

theorem reads_param {p : Param} (h : FitsParam p) : Reads readParam (writeParam p) (canonParam p) :=
  (reads_str h.1).bind (reads_type h.2).bind_pure

structure FitsMethod (m : InterfaceMethod) : Prop where
  name : FitsStr m.name
  params : FitsVec FitsParam m.params
  returnType : FitsTy m.returnType

def canonMethod (m : InterfaceMethod) : InterfaceMethod :=
  ⟨m.name, m.params.map canonParam, canonTy m.returnType, m.isView, m.isPure, .default⟩

theorem reads_method {m : InterfaceMethod} (h : FitsMethod m) :
    Reads readMethod (writeMethod m) (canonMethod m) :=
  (reads_str h.name).bind <| (reads_bool _).bind <| (reads_bool _).bind <|
    (reads_vec_map h.params fun _ => reads_param).bind (reads_type h.returnType).bind_pure

structure FitsInterface (d : InterfaceDecl) : Prop where
  name : FitsStr d.name
  methods : FitsVec FitsMethod d.methods

def canonInterface (d : InterfaceDecl) : InterfaceDecl := ⟨d.name, d.methods.map canonMethod, .default⟩

theorem reads_interface {d : InterfaceDecl} (h : FitsInterface d) :
    Reads readInterface (writeInterface d) (canonInterface d) :=
  (reads_str h.name).bind (reads_vec_map h.methods fun _ => reads_method).bind_pure

def FitsHandler (h : String × List ℕ) : Prop := FitsStr h.1 ∧ FitsVec FitsU16 h.2

theorem reads_handler {h : String × List ℕ} (hh : FitsHandler h) : Reads readHandler (writeHandler h) h :=
  (reads_str hh.1).bind (reads_vec_self hh.2 fun _ => reads_u16).bind_pure

/-! ### Modules -/

/-- Every number of the module fits the width the code gives it, and every list can be counted in 32
bits. -/
structure FitsModule (m : BcModule) : Prop where
  name : FitsStr m.name
  imports : FitsVec FitsStr m.imports
  stateRoots : FitsU32 m.stateRoots.length
  stateTypes : FitsVec FitsState m.stateTypes
  stateNames : FitsVec FitsStr m.stateNames
  structShapes : FitsVec FitsShape m.structShapes
  functions : FitsVec FitsFn m.functions
  pathSpecs : FitsVec (fun p => FitsTy p.leafType) m.pathSpecs
  enumShapes : FitsVec FitsEnumShape m.enumShapes
  interfaces : FitsVec FitsInterface m.interfaces
  handlerDispatch : FitsVec FitsHandler m.handlerDispatch

/-- A module as it is read back: its types in canonical form, its interfaces without positions. -/
def canonModule (m : BcModule) : BcModule :=
  { m with
    stateTypes := m.stateTypes.map canonTy
    structShapes := m.structShapes.map canonShape
    functions := m.functions.map canonFn
    pathSpecs := m.pathSpecs.map canonPathSpec
    interfaces := m.interfaces.map canonInterface }

/-- The defaults of the states of the module can be read. -/
def ReadableStates (m : BcModule) : Prop := ∀ t ∈ m.stateTypes, readable t = true

theorem writeVec_defaults {m : BcModule} (hb : Built m) :
    writeVec (fun v => writeBytes (serialize v)) m.stateDefaults =
      writeU32 m.stateTypes.length ++ writeDefaults m.stateTypes := by
  rw [writeVec, hb.stateDefaults, List.length_map, List.flatMap_map]
  rfl

theorem writeModule_eq {m : BcModule} (hb : Built m) : writeModule m =
    writeStr m.name ++ (writeVec writeStr m.imports ++ (writeVec writeU128 m.stateRoots ++
      (writeVec writeType m.stateTypes ++ (writeU32 m.stateTypes.length ++ (writeDefaults m.stateTypes ++
        (writeVec writeStr m.stateNames ++ (writeVec writeShape m.structShapes ++
          (writeVec writeBcFn m.functions ++ (writeVec writePathSpec m.pathSpecs ++
            (writeVec writeEnumShape m.enumShapes ++ (writeVec writeInterface m.interfaces ++
              writeVec writeHandler m.handlerDispatch))))))))))) := by
  rw [writeModule, writeVec_defaults hb, List.append_assoc]

/-- The module the decoder puts together from what it has read. -/
def reassembled (m : BcModule) : BcModule where
  name := m.name
  imports := m.imports
  importIndex := nameIndex m.imports
  stateRoots := m.stateRoots
  stateTypes := m.stateTypes.map canonTy
  stateDefaults := m.stateTypes.map Value.defaultFor
  stateNames := m.stateNames
  stateIndex := nameIndex m.stateNames
  structShapes := m.structShapes.map canonShape
  structIndex := nameIndex ((m.structShapes.map canonShape).map fun s => s.name)
  functions := m.functions.map canonFn
  fnIndex := nameIndex ((m.functions.map canonFn).map fun f => f.name)
  pathSpecs := m.pathSpecs.map canonPathSpec
  handlerDispatch := SortedMap.ofEntries m.handlerDispatch
  enumShapes := m.enumShapes
  enumIndex := nameIndex (m.enumShapes.map fun e => e.name)
  interfaces := m.interfaces.map canonInterface
  interfaceIndex := nameIndex ((m.interfaces.map canonInterface).map fun d => d.name)

theorem reassembled_eq {m : BcModule} (hb : Built m) : reassembled m = canonModule m := by
  have hshapes : (m.structShapes.map canonShape).map (fun s => s.name) = m.structShapes.map fun s => s.name :=
    List.map_map
  have hfns : (m.functions.map canonFn).map (fun f => f.name) = m.functions.map fun f => f.name := List.map_map
  have hifaces : (m.interfaces.map canonInterface).map (fun d => d.name) = m.interfaces.map fun d => d.name :=
    List.map_map
  rw [reassembled, canonModule, hshapes, hfns, hifaces, hb.handlers.ofEntries, ← hb.importIndex,
    ← hb.stateDefaults, ← hb.stateIndex, ← hb.structIndex, ← hb.fnIndex, ← hb.enumIndex, ← hb.interfaceIndex]

section Module

variable {m : BcModule} (hb : Built m) (h : FitsModule m)
include hb h

theorem reads_module (hr : ReadableStates m) : Reads readModule (writeModule m) (canonModule m) := by
  have hroots : FitsVec (fun _ => True) m.stateRoots := ⟨h.stateRoots, fun _ _ => trivial⟩
  have hshapes : FitsVec (fun s => FitsShape s ∧ s.fieldTypes.length = s.fieldNames.length ∧
      s.fieldGroups.length = s.fieldNames.length) m.structShapes :=
    ⟨h.structShapes.1, fun s hs => ⟨h.structShapes.2 s hs, hb.shapes s hs⟩⟩
  rw [writeModule_eq hb, ← reassembled_eq hb]
  exact (reads_str h.name).bind <| (reads_vec_self h.imports fun _ => reads_str).bind <|
    (reads_vec_self hroots fun x _ => reads_u128 x).bind <|
    (reads_vec_map h.stateTypes fun _ ht => reads_type ht.1).bind <|
    (reads_u32 h.stateTypes.1).bind <| (reads_defaults h.stateTypes.2 hr).bind <|
    (reads_vec_self h.stateNames fun _ => reads_str).bind <|
    (reads_vec_map hshapes fun _ hs => reads_shape hs.1 hs.2).bind <|
    (reads_vec_map h.functions fun _ => reads_fn).bind <|
    (reads_vec_map h.pathSpecs fun _ => reads_pathSpec).bind <|
    (reads_vec_self h.enumShapes fun _ => reads_enumShape).bind <|
    (reads_vec_map h.interfaces fun _ => reads_interface).bind
    (reads_vec_self h.handlerDispatch fun _ => reads_handler).bind_pure

theorem fails_module (hr : ¬ ReadableStates m) : Fails readModule (writeModule m) := by
  have hroots : FitsVec (fun _ => True) m.stateRoots := ⟨h.stateRoots, fun _ _ => trivial⟩
  have hbad : ∃ t ∈ m.stateTypes, readable t ≠ true := by
    unfold ReadableStates at hr
    push Not at hr
    exact hr
  rw [writeModule_eq hb]
  exact (reads_str h.name).bind_fails <| (reads_vec_self h.imports fun _ => reads_str).bind_fails <|
    (reads_vec_self hroots fun x _ => reads_u128 x).bind_fails <|
    (reads_vec_map h.stateTypes fun _ ht => reads_type ht.1).bind_fails <|
    (reads_u32 h.stateTypes.1).bind_fails <| (fails_defaults h.stateTypes.2 hbad).bind _

end Module

/-! ### Artifacts -/

/-- The modules come after the magic number and the version. -/
theorem reads_header {ms ms' : List BcModule} (h : Reads (readVec readModule) (writeVec writeModule ms) ms') :
    Reads readArtifact (encode ms) ms' :=
  (Reads.takeBytes DecodeError.truncated magic).bind <| (reads_byte versionMajor).bind <|
    (reads_byte versionMinor).bind h

theorem fails_header {ms : List BcModule} (h : Fails (readVec readModule) (writeVec writeModule ms)) :
    Fails readArtifact (encode ms) :=
  (Reads.takeBytes DecodeError.truncated magic).bind_fails <| (reads_byte versionMajor).bind_fails <|
    (reads_byte versionMinor).bind_fails h

section Artifact

variable {ms : List BcModule} (hb : ∀ m ∈ ms, Built m) (hn : FitsU32 ms.length)
  (h : ∀ m ∈ ms, FitsModule m)
include hb hn h

/-- The modules come back in canonical form, if their defaults can be read. -/
theorem decode_encode (hr : ∀ m ∈ ms, ReadableStates m) :
    decode (encode ms) = .ok (ms.map canonModule) := by
  have hread := reads_header (reads_vec hn fun m hm => reads_module (hb m hm) (h m hm) (hr m hm)) [] 0
  rw [List.append_nil] at hread
  rw [decode, hread]
  rfl

/-- An artifact with a default that cannot be read is refused. -/
theorem decode_encode_error (hr : ¬ ∀ m ∈ ms, ReadableStates m) : ∃ e, decode (encode ms) = .error e := by
  have hbad : ∃ m ∈ ms, Fails readModule (writeModule m) := by
    push Not at hr
    obtain ⟨m, hm, hr⟩ := hr
    exact ⟨m, hm, fails_module (hb m hm) (h m hm) hr⟩
  have hfail := Fails.many (g := canonModule) (fun m hm => (Classical.em (ReadableStates m)).imp
    (reads_module (hb m hm) (h m hm)) (fails_module (hb m hm) (h m hm))) hbad
  obtain ⟨e, he⟩ := fails_header ((reads_u32 hn).bind_fails hfail) [] 0
  refine ⟨e, ?_⟩
  rw [List.append_nil] at he
  rw [decode, he]

end Artifact

/-! ### Clean modules -/

def eraseShape (s : StructShape) : StructShape := { s with fieldTypes := s.fieldTypes.map eraseTy }

def eraseFn (f : BcFn) : BcFn :=
  { f with paramTypes := f.paramTypes.map eraseTy, returnType := eraseTy f.returnType }

def erasePathSpec (p : PathSpec) : PathSpec := { p with leafType := eraseTy p.leafType }

def eraseParam (p : Param) : Param := { p with ty := eraseTy p.ty }

def eraseMethod (m : InterfaceMethod) : InterfaceMethod :=
  { m with params := m.params.map eraseParam, returnType := eraseTy m.returnType }

def eraseInterface (d : InterfaceDecl) : InterfaceDecl := { d with methods := d.methods.map eraseMethod }

/-- A module without explicit-literal tags. -/
def eraseModule (m : BcModule) : BcModule :=
  { m with
    stateTypes := m.stateTypes.map eraseTy
    structShapes := m.structShapes.map eraseShape
    functions := m.functions.map eraseFn
    pathSpecs := m.pathSpecs.map erasePathSpec
    interfaces := m.interfaces.map eraseInterface }

/-- The types of the method are in normal form, and it has no position. -/
structure CleanMethod (m : InterfaceMethod) : Prop where
  params : ∀ p ∈ m.params, normalTy p.ty = true ∧ p.span = .default
  returnType : normalTy m.returnType = true
  span : m.span = .default

structure CleanInterface (d : InterfaceDecl) : Prop where
  methods : ∀ m ∈ d.methods, CleanMethod m
  span : d.span = .default

/-- The defaults can be read, the types are in normal form, and the interfaces have no positions. -/
structure Clean (m : BcModule) : Prop where
  defaults : ReadableStates m
  stateTypes : ∀ t ∈ m.stateTypes, normalTy t = true
  structShapes : ∀ s ∈ m.structShapes, ∀ t ∈ s.fieldTypes, normalTy t = true
  functions : ∀ f ∈ m.functions, (∀ t ∈ f.paramTypes, normalTy t = true) ∧ normalTy f.returnType = true
  pathSpecs : ∀ p ∈ m.pathSpecs, normalTy p.leafType = true
  interfaces : ∀ d ∈ m.interfaces, CleanInterface d

theorem canonShape_eq_iff (s : StructShape) :
    canonShape s = eraseShape s ↔ ∀ t ∈ s.fieldTypes, normalTy t = true := by
  simp [canonShape, eraseShape, canonTy_eq_iff]

theorem canonFn_eq_iff (f : BcFn) :
    canonFn f = eraseFn f ↔ (∀ t ∈ f.paramTypes, normalTy t = true) ∧ normalTy f.returnType = true := by
  simp [canonFn, eraseFn, canonTy_eq_iff]

theorem canonPathSpec_eq_iff (p : PathSpec) :
    canonPathSpec p = erasePathSpec p ↔ normalTy p.leafType = true := by
  simp [canonPathSpec, erasePathSpec, canonTy_eq_iff]

theorem canonParam_eq_iff (p : Param) :
    canonParam p = eraseParam p ↔ normalTy p.ty = true ∧ p.span = .default := by
  simp only [canonParam, eraseParam, Param.mk.injEq, canonTy_eq_iff, true_and]
  exact and_congr_right fun _ => eq_comm

theorem canonMethod_eq_iff (m : InterfaceMethod) : canonMethod m = eraseMethod m ↔ CleanMethod m := by
  simp only [canonMethod, eraseMethod, InterfaceMethod.mk.injEq, List.map_inj_left, canonParam_eq_iff,
    canonTy_eq_iff, true_and]
  exact ⟨fun ⟨hp, hr, hs⟩ => ⟨hp, hr, hs.symm⟩, fun h => ⟨h.params, h.returnType, h.span.symm⟩⟩

theorem canonInterface_eq_iff (d : InterfaceDecl) :
    canonInterface d = eraseInterface d ↔ CleanInterface d := by
  simp only [canonInterface, eraseInterface, InterfaceDecl.mk.injEq, List.map_inj_left, canonMethod_eq_iff,
    true_and]
  exact ⟨fun ⟨hm, hs⟩ => ⟨hm, hs.symm⟩, fun h => ⟨h.methods, h.span.symm⟩⟩

/-- Apart from the defaults, a module is clean exactly when its canonical form only lacks the tags. -/
theorem clean_iff (m : BcModule) : Clean m ↔ ReadableStates m ∧ canonModule m = eraseModule m := by
  simp only [canonModule, eraseModule, BcModule.mk.injEq, List.map_inj_left, canonTy_eq_iff,
    canonShape_eq_iff, canonFn_eq_iff, canonPathSpec_eq_iff, canonInterface_eq_iff, true_and, and_true]
  exact ⟨fun h => ⟨h.defaults, h.stateTypes, h.structShapes, h.functions, h.pathSpecs, h.interfaces⟩,
    fun ⟨hd, ht, hs, hf, hp, hi⟩ => ⟨hd, ht, hs, hf, hp, hi⟩⟩

/-- A list of modules the compiler can produce, within the widths of the format. -/
structure Encodable (ms : List BcModule) : Prop where
  compiled : ∀ m ∈ ms, ∃ src name, compileNamed src name = .ok m
  length : FitsU32 ms.length
  fits : ∀ m ∈ ms, FitsModule m

theorem Encodable.built {ms : List BcModule} (h : Encodable ms) : ∀ m ∈ ms, Built m := by
  intro m hm
  obtain ⟨src, name, hsrc⟩ := h.compiled m hm
  exact compileNamed_built hsrc

theorem Encodable.decode_iff {ms : List BcModule} (h : Encodable ms) :
    decode (encode ms) = .ok (ms.map eraseModule) ↔ ∀ m ∈ ms, Clean m := by
  by_cases hr : ∀ m ∈ ms, ReadableStates m
  · rw [decode_encode h.built h.length h.fits hr, Except.ok.injEq, List.map_inj_left]
    exact forall₂_congr fun m hm => by rw [clean_iff, and_iff_right (hr m hm)]
  · obtain ⟨e, he⟩ := decode_encode_error h.built h.length h.fits hr
    rw [he]
    constructor
    · intro hok
      cases hok
    · intro hclean
      exact absurd (fun m hm => (hclean m hm).defaults) hr

/-- **The decoder gives back what was encoded, up to explicit-literal tags, exactly when every module is
clean; and the encoder does not confuse two lists of clean modules.** -/
theorem decode_encode_iff {ms : List BcModule} (h : Encodable ms) :
    (decode (encode ms) = .ok (ms.map eraseModule) ↔ ∀ m ∈ ms, Clean m) ∧
      ∀ ms', Encodable ms' → (∀ m ∈ ms, Clean m) → (∀ m ∈ ms', Clean m) → encode ms = encode ms' →
        ms.map eraseModule = ms'.map eraseModule := by
  refine ⟨h.decode_iff, fun ms' h' hclean hclean' henc => ?_⟩
  have hms := h.decode_iff.mpr hclean
  rw [henc, h'.decode_iff.mpr hclean'] at hms
  exact (Except.ok.inj hms).symm

/-! ### A module with one state -/

/-- The source `state n: ty;`. -/
def stateSource (ty : Ty) : Source where
  imports := []
  states := [("n", ty)]
  structs := []
  caps := []
  enums := []
  interfaces := []
  handlers := []
  functions := []
  pathSpecs := []

/-- The module it is compiled to, for a type without explicit-literal tags. -/
def stateModule (ty : Ty) : BcModule where
  name := "main"
  imports := []
  importIndex := []
  stateRoots := [stateRoot "main" "n"]
  stateTypes := [ty]
  stateDefaults := [Value.defaultFor ty]
  stateNames := ["n"]
  stateIndex := [("n", 0)]
  structShapes := []
  structIndex := []
  functions := []
  fnIndex := []
  pathSpecs := []
  handlerDispatch := []
  enumShapes := []
  enumIndex := []
  interfaces := []
  interfaceIndex := []

theorem fitsVec_nil {α : Type} (P : α → Prop) : FitsVec P [] := ⟨by simp [FitsU32], by simp⟩

theorem fitsVec_singleton {α : Type} {P : α → Prop} {x : α} (h : P x) : FitsVec P [x] :=
  ⟨by simp [FitsU32], by simpa using h⟩

theorem encodable_stateModule (ty : Ty) (hstrip : stripExplicitLiteral ty = ty) (hfits : FitsState ty) :
    Encodable [stateModule ty] := by
  refine ⟨?_, by simp [FitsU32], ?_⟩
  · intro m hm
    rw [List.mem_singleton.mp hm]
    refine ⟨stateSource ty, "main", ?_⟩
    show Except.ok { stateModule ty with stateTypes := [stripExplicitLiteral ty] } = _
    rw [hstrip]
    rfl
  · intro m hm
    rw [List.mem_singleton.mp hm]
    have hmain : (strBytes "main").length < 2 ^ 32 := by decide +kernel
    have hn : (strBytes "n").length < 2 ^ 32 := by decide +kernel
    exact ⟨hmain, fitsVec_nil _, by simp [FitsU32, stateModule], fitsVec_singleton hfits,
      fitsVec_singleton hn, fitsVec_nil _, fitsVec_nil _, fitsVec_nil _, fitsVec_nil _, fitsVec_nil _,
      fitsVec_nil _⟩

/-- A module with a counter is decoded. -/
theorem decode_encode_iff_counter : (∀ m ∈ [stateModule .u64], Clean m) ∧
    decode (encode [stateModule .u64]) = .ok ([stateModule .u64].map eraseModule) := by
  have hclean : ∀ m ∈ [stateModule .u64], Clean m := by
    intro m hm
    rw [List.mem_singleton.mp hm]
    constructor <;> simp [stateModule, ReadableStates, readable, normalTy]
  have henc := encodable_stateModule .u64 rfl ⟨trivial, by decide +kernel⟩
  exact ⟨hclean, (decode_encode_iff henc).1.mpr hclean⟩

/-- An artifact with a map state is refused by the decoder. -/
theorem map_state_not_decoded : Encodable [stateModule (.map .u64 .u64)] ∧
    decode (encode [stateModule (.map .u64 .u64)]) = .error .unreadableDefault :=
  ⟨encodable_stateModule (.map .u64 .u64) rfl ⟨⟨trivial, trivial⟩, by decide +kernel⟩, rfl⟩

end Rend.Artifact
