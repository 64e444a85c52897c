import Rend.Artifact.RoundTrip
import Rend.Lib.Reorder
import Rend.Link.Engine

/-!
# Stored dependencies

A transaction is compiled against the artifacts of deployed programs: freshly compiled ones, or ones read
back from their bytes. What comes back is in canonical form (`Artifact.canonModule`): without
explicit-literal tags, with the field groups of a struct left out where it has none. Compiling sees the
entries, interfaces and public structs of the dependencies, and the names their calls go to.

* `stored_links_alike`: dependencies can be read back exactly when the defaults of their states can be
  read, and the transaction is then compiled alike if the types it sees are in canonical form.
-/

namespace Rend.Link

open Lib Optimize

/-! ### Calls between modules -/

/-- A module without the types of its states, fields, functions and interfaces. -/
def typeless (m : BcModule) : BcModule :=
  { m with
    stateTypes := []
    structShapes := []
    functions := m.functions.map fun f => { f with paramTypes := [], returnType := .unit }
    pathSpecs := []
    interfaces := [] }

theorem typeless_canonModule (m : BcModule) : typeless (Artifact.canonModule m) = typeless m := by
  simp [typeless, Artifact.canonModule, Artifact.canonFn, List.map_map, Function.comp_def]

theorem fnAt_typeless (m : BcModule) (name : String) :
    fnAt (typeless m) name = (fnAt m name).map fun f => { f with paramTypes := [], returnType := .unit } := by
  unfold fnAt typeless
  cases m.fnIndex.lookup name with
  | none => rfl
  | some i => simp [List.getElem?_map]

theorem find_typeless (l : List BcModule) (name : String) :
    ((l.map typeless).find? fun m => m.name = name) = (l.find? fun m => m.name = name).map typeless := by
  rw [List.find?_map]
  rfl

theorem callResolves_typeless (l : List BcModule) (f : BcFn) (i : Instr) :
    callResolves (l.map typeless) { f with paramTypes := [], returnType := .unit } i =
      callResolves l f i := by
  cases i with
  | callExternal dst moduleNameIdx fnNameIdx argsStart nArgs isView isPure =>
    unfold callResolves
    dsimp only
    split
    · rename_i mn fnn _ _
      rw [find_typeless]
      cases hfind : l.find? (fun m => m.name = mn) with
      | none => rfl
      | some target =>
        dsimp only [Option.map_some]
        rw [fnAt_typeless]
        cases fnAt target fnn <;> rfl
    · rfl
  | _ => rfl

/-- The check of the calls does not look at types. -/
theorem validateCrossModuleCalls_typeless (l : List BcModule) :
    validateCrossModuleCalls (l.map typeless) = validateCrossModuleCalls l := by
  unfold validateCrossModuleCalls
  rw [List.all_map]
  refine List.all_congr rfl fun m => ?_
  dsimp only [Function.comp_apply, typeless]
  rw [List.all_map]
  refine List.all_congr rfl fun f => ?_
  exact List.all_congr rfl fun i => callResolves_typeless l f i

/-- The modules a transaction is linked with, in the order they are added. -/
theorem linked_typeless (ms all : List BcModule) :
    (ms.foldl (fun all m => if all.any (fun a => a.name = m.name) then all else all ++ [m]) all).map typeless =
      (ms.map typeless).foldl (fun all m => if all.any (fun a => a.name = m.name) then all else all ++ [m])
        (all.map typeless) := by
  induction ms generalizing all with
  | nil => rfl
  | cons m ms ih =>
    rw [List.foldl_cons, ih, List.map_cons, List.foldl_cons, List.any_map]
    congr 1
    show List.map typeless (if all.any (fun a => a.name = m.name) then all else all ++ [m]) =
      if all.any (fun a => a.name = m.name) then all.map typeless else all.map typeless ++ [typeless m]
    split_ifs
    · rfl
    · rw [List.map_append, List.map_singleton]

/-! ### Reading dependencies back -/

/-- The artifacts, read back from their bytes. -/
def reload (deps : List Artifact) : Option (List Artifact) :=
  deps.mapM fun d => (Artifact.fromBytes d.bytes).toOption

/-- The artifact holds modules of the compiler, within the widths of the format. -/
def Compiled (d : Artifact) : Prop := d = .fromModules d.modules ∧ Artifact.Encodable d.modules

/-- An artifact as it is read back. -/
def canonArtifact (d : Artifact) : Artifact := { d with modules := d.modules.map Artifact.canonModule }

theorem fromBytes_of_readable {d : Artifact} (hd : Compiled d)
    (hr : ∀ m ∈ d.modules, Artifact.ReadableStates m) : Artifact.fromBytes d.bytes = .ok (canonArtifact d) := by
  obtain ⟨bytes, contentHash, modules⟩ := d
  obtain ⟨heq, henc⟩ := hd
  simp only [Artifact.fromModules, Artifact.mk.injEq, and_true] at heq
  obtain ⟨rfl, rfl⟩ := heq
  rw [Artifact.fromBytes, Artifact.decode_encode henc.built henc.length henc.fits hr]
  simp only [bind, Except.bind, pure, Except.pure, canonArtifact]

theorem readable_of_fromBytes {d d' : Artifact} (hd : Compiled d)
    (h : Artifact.fromBytes d.bytes = .ok d') : ∀ m ∈ d.modules, Artifact.ReadableStates m := by
  obtain ⟨bytes, contentHash, modules⟩ := d
  obtain ⟨heq, henc⟩ := hd
  simp only [Artifact.fromModules, Artifact.mk.injEq, and_true] at heq
  obtain ⟨rfl, rfl⟩ := heq
  by_contra hr
  obtain ⟨e, he⟩ := Artifact.decode_encode_error henc.built henc.length henc.fits hr
  rw [Artifact.fromBytes, he] at h
  cases h

section Reload

variable {deps : List Artifact} (hd : ∀ d ∈ deps, Compiled d)
include hd

theorem reload_of_readable (hr : ∀ m ∈ depModules deps, Artifact.ReadableStates m) :
    reload deps = some (deps.map canonArtifact) := by
  refine mapM_eq_map fun d hm => ?_
  rw [fromBytes_of_readable (hd d hm) fun m hmm => hr m (List.mem_flatMap.mpr ⟨d, hm, hmm⟩)]
  rfl

/-- The dependencies can be read back exactly when the defaults of their states can. -/
theorem reload_isSome_iff :
    (reload deps).isSome = true ↔ ∀ m ∈ depModules deps, Artifact.ReadableStates m := by
  constructor
  · intro h m hm
    obtain ⟨r, hr⟩ := Option.isSome_iff_exists.mp h
    obtain ⟨d, hdm, hmm⟩ := List.mem_flatMap.mp hm
    obtain ⟨d', hd'⟩ := exists_of_mapM hr hdm
    cases hb : Artifact.fromBytes d.bytes with
    | error e =>
      rw [hb] at hd'
      cases hd'
    | ok d'' => exact readable_of_fromBytes (hd d hdm) hb m hmm
  · intro h
    rw [reload_of_readable hd h]
    rfl

end Reload

/-! ### What a transaction sees -/

/-- The types a transaction sees of a module are in canonical form: those of its entries, of its
interfaces and of its public structs. -/
structure Transparent (m : BcModule) : Prop where
  entries : ∀ f ∈ m.functions, f.isEntry = true →
    (∀ t ∈ f.paramTypes, Artifact.canonTy t = t) ∧ Artifact.canonTy f.returnType = f.returnType
  interfaces : ∀ d ∈ m.interfaces, ∀ method ∈ d.methods,
    (∀ p ∈ method.params, Artifact.canonTy p.ty = p.ty) ∧
      Artifact.canonTy method.returnType = method.returnType
  structs : ∀ s ∈ m.structShapes, s.isPub = true → ∀ t ∈ s.fieldTypes, Artifact.canonTy t = t

theorem map_canonTy {ts : List Ty} (h : ∀ t ∈ ts, Artifact.canonTy t = t) : ts.map Artifact.canonTy = ts := by
  rw [List.map_congr_left h, List.map_id']

namespace Transparent

variable {m : BcModule} (h : Transparent m)
include h

theorem filter_entries :
    (Artifact.canonModule m).functions.filter BcFn.isEntry = m.functions.filter BcFn.isEntry := by
  show (m.functions.map Artifact.canonFn).filter BcFn.isEntry = _
  rw [List.filter_map]
  show (m.functions.filter BcFn.isEntry).map Artifact.canonFn = _
  conv_rhs => rw [← List.map_id' (m.functions.filter BcFn.isEntry)]
  refine List.map_congr_left fun f hf => ?_
  obtain ⟨hmem, hentry⟩ := List.mem_filter.mp hf
  obtain ⟨hparams, hret⟩ := h.entries f hmem hentry
  rw [Artifact.canonFn, map_canonTy hparams, hret]

theorem filter_pub :
    (Artifact.canonModule m).structShapes.filter StructShape.isPub = m.structShapes.filter StructShape.isPub := by
  show (m.structShapes.map Artifact.canonShape).filter StructShape.isPub = _
  rw [List.filter_map]
  show (m.structShapes.filter StructShape.isPub).map Artifact.canonShape = _
  conv_rhs => rw [← List.map_id' (m.structShapes.filter StructShape.isPub)]
  refine List.map_congr_left fun s hs => ?_
  obtain ⟨hmem, hpub⟩ := List.mem_filter.mp hs
  rw [Artifact.canonShape, map_canonTy (h.structs s hmem hpub)]

theorem map_interfaces : ((Artifact.canonModule m).interfaces.map fun d => (d.name, methodSigs d)) =
    m.interfaces.map fun d => (d.name, methodSigs d) := by
  show ((m.interfaces.map Artifact.canonInterface).map _) = _
  rw [List.map_map]
  refine List.map_congr_left fun d hd => congrArg (Prod.mk d.name) ?_
  show ((d.methods.map Artifact.canonMethod).map _) = d.methods.map _
  rw [List.map_map]
  refine List.map_congr_left fun method hm => ?_
  obtain ⟨hparams, hret⟩ := h.interfaces d hd method hm
  have hmap : ((method.params.map Artifact.canonParam).map fun p => p.ty) = method.params.map fun p => p.ty := by
    rw [List.map_map]
    exact List.map_congr_left hparams
  show InterfaceMethodSig.mk method.name ((method.params.map Artifact.canonParam).map fun p => p.ty)
    (Artifact.canonTy method.returnType) method.isView method.isPure = _
  rw [hmap, hret]

end Transparent

section Seen

variable {deps : List Artifact} (h : ∀ m ∈ depModules deps, Transparent m)

theorem depModules_canon (deps : List Artifact) :
    depModules (deps.map canonArtifact) = (depModules deps).map Artifact.canonModule := by
  unfold depModules
  rw [List.flatMap_map, List.map_flatMap]
  rfl

/-- A catalog of the dependencies, when each module has the same part in it after it is read back. -/
theorem catalog_canon {K V : Type} [LinearOrder K] {part : BcModule → List (K × V)}
    (hpart : ∀ m ∈ depModules deps, part (Artifact.canonModule m) = part m) :
    SortedMap.ofEntries ((depModules (deps.map canonArtifact)).flatMap part) =
      SortedMap.ofEntries ((depModules deps).flatMap part) := by
  rw [depModules_canon, List.flatMap_map]
  exact congrArg SortedMap.ofEntries (List.flatMap_congr hpart)

include h

theorem collectExternals_canon : collectExternals (deps.map canonArtifact) = collectExternals deps :=
  catalog_canon fun m hm => by rw [(h m hm).filter_entries]; rfl

theorem collectExternalEffects_canon :
    collectExternalEffects (deps.map canonArtifact) = collectExternalEffects deps :=
  catalog_canon fun m hm => by rw [(h m hm).filter_entries]; rfl

theorem collectDepFnFlags_canon : collectDepFnFlags (deps.map canonArtifact) = collectDepFnFlags deps :=
  catalog_canon fun m hm => by rw [(h m hm).filter_entries]; rfl

theorem depIfaceMethods_canon : depIfaceMethods (deps.map canonArtifact) = depIfaceMethods deps :=
  catalog_canon fun m hm => (h m hm).map_interfaces

theorem depCrossStructs_canon : depCrossStructs (deps.map canonArtifact) = depCrossStructs deps :=
  catalog_canon fun m hm => by rw [(h m hm).filter_pub]; rfl

omit h

theorem depIfaceNames_canon (deps : List Artifact) :
    depIfaceNames (deps.map canonArtifact) = depIfaceNames deps := by
  unfold depIfaceNames
  rw [depModules_canon, List.flatMap_map]
  refine List.flatMap_congr fun m _ => ?_
  show ((m.interfaces.map Artifact.canonInterface).map _) = _
  rw [List.map_map]
  rfl

theorem any_name_canon (deps : List Artifact) (name : String) :
    ((depModules (deps.map canonArtifact)).any fun m => m.name = name) =
      (depModules deps).any fun m => m.name = name := by
  rw [depModules_canon, List.any_map]
  rfl

theorem validate_linkedWith_canon (deps : List Artifact) (tx : BcModule) :
    validateCrossModuleCalls (linkedWith (deps.map canonArtifact) tx) =
      validateCrossModuleCalls (linkedWith deps tx) := by
  rw [← validateCrossModuleCalls_typeless, ← validateCrossModuleCalls_typeless (linkedWith deps tx)]
  unfold linkedWith
  rw [linked_typeless, linked_typeless, depModules_canon, List.map_map]
  congr 2
  exact List.map_congr_left fun m _ => typeless_canonModule m

end Seen

/-- **Linking against stored artifacts.** Dependencies are read back exactly when the defaults of their
states can be read; the transaction is then compiled as against the fresh ones, if the types it sees are
in canonical form. -/
theorem stored_links_alike {Ast Outcome : Type} (F : Frontend Ast Outcome) {deps : List Artifact}
    (hd : ∀ d ∈ deps, Compiled d) :
    ((reload deps).isSome = true ↔ ∀ m ∈ depModules deps, Artifact.ReadableStates m) ∧
      ((∀ m ∈ depModules deps, Artifact.ReadableStates m ∧ Transparent m) →
        ∀ src, ((reload deps).bind fun stored => compileTx stored F src) = compileTx deps F src) := by
  refine ⟨reload_isSome_iff hd, fun h src => ?_⟩
  have ht : ∀ m ∈ depModules deps, Transparent m := fun m hm => (h m hm).2
  rw [reload_of_readable hd fun m hm => (h m hm).1, Option.bind_some]
  unfold compileTx
  simp only [collectExternals_canon ht, collectExternalEffects_canon ht, collectDepFnFlags_canon ht,
    depIfaceMethods_canon ht, depCrossStructs_canon ht, depIfaceNames_canon, any_name_canon,
    validate_linkedWith_canon]

/-! ### An entry that asks for a literal -/

/-- A value of the first type can flow into a slot of the second (`types_compatible`). -/
def typesCompatible : Ty → Ty → Bool
  | .explicitLiteral a, .explicitLiteral e => a = e || typesCompatible a e
  | .explicitLiteral a, e => typesCompatible a e
  | a, e => a = e || match e with
    | .json => a = .bool || a = .int || a = .uint || a = .float || a = .string
    | _ => false

/-- `module vault; entry fn pay(x: ty) { }`. -/
def vaultSource (ty : Ty) : Artifact.Source where
  imports := []
  states := []
  structs := []
  caps := []
  enums := []
  interfaces := []
  handlers := []
  functions := [{ name := "pay", nParams := 1, nRegs := 1, consts := [], isEntry := true, isNore := false
                  paramTypes := [ty], returnType := .unit, isView := false, isPure := false
                  code := [.returnUnit] }]
  pathSpecs := []

def vaultModule (ty : Ty) : BcModule := bareModule "vault" [] (vaultSource ty).functions

def payText : String := "fn main() \x7b let s = \"a\"; vault::pay(s); \x7d"

/-- This transaction, lowered. -/
def paySource : Artifact.Source where
  imports := []
  states := []
  structs := []
  caps := []
  enums := []
  interfaces := []
  handlers := []
  functions := [{ name := "main", nParams := 0, nRegs := 2, consts := [.str "a", .str "vault", .str "pay"]
                  isEntry := false, isNore := false, paramTypes := [], returnType := .unit, isView := false
                  isPure := false
                  code := [.loadConst 0 0, .callExternal 1 1 2 0 1 false false, .returnUnit] }]
  pathSpecs := []

/-- A front end that reads this transaction: the call is checked as the type checker checks a call of
another module, with an argument of type `string`. -/
def payFrontend : Frontend Unit Unit where
  parse := fun _ src => if src = payText then some () else none
  declared := fun _ => none
  structs := fun _ => []
  resolve := fun _ _ m => some m
  entrySigs := fun _ => []
  functions := fun _ => [⟨"main", false, false, false⟩]
  handlers := fun _ => []
  interfaces := fun _ => []
  lower := fun M _ =>
    match M.externals.lookup "vault::pay" with
    | some sig => if sig.params.length = 1 && sig.params.all (typesCompatible .string) then some paySource
      else none
    | none => some paySource
  runWorld := fun _ _ => none
  ident := by
    intro _ _ h
    cases h
  lower_handlers := by
    intro M _ src h
    split at h
    · split_ifs at h
      rw [← Option.some.inj h]
      rfl
    · rw [← Option.some.inj h]
      rfl
  lower_interfaces := by
    intro M _ src h
    split at h
    · split_ifs at h
      rw [← Option.some.inj h]
      rfl
    · rw [← Option.some.inj h]
      rfl

theorem compiled_vault {ty : Ty} (h : Artifact.FitsTy ty) : Compiled (.fromModules [vaultModule ty]) := by
  refine ⟨rfl, ?_, by simp [Artifact.FitsU32, Artifact.fromModules], ?_⟩
  · intro m hm
    rw [List.mem_singleton.mp hm]
    exact ⟨vaultSource ty, "vault", rfl⟩
  · intro m hm
    rw [List.mem_singleton.mp hm]
    have hname : (strBytes "vault").length < 2 ^ 32 := by decide +kernel
    have hpay : (strBytes "pay").length < 2 ^ 32 := by decide +kernel
    refine ⟨hname, Artifact.fitsVec_nil _, by simp [Artifact.FitsU32, vaultModule, bareModule],
      Artifact.fitsVec_nil _, Artifact.fitsVec_nil _, Artifact.fitsVec_nil _,
      Artifact.fitsVec_singleton ?_, Artifact.fitsVec_nil _, Artifact.fitsVec_nil _, Artifact.fitsVec_nil _,
      Artifact.fitsVec_nil _⟩
    have hone : 1 < 2 ^ 16 := by decide
    exact ⟨hpay, hone, hone, Artifact.fitsVec_singleton h, trivial, Artifact.fitsVec_nil _,
      Artifact.fitsVec_singleton trivial, Artifact.fitsVec_nil _⟩

/-- A transaction is compiled against a stored program as against the fresh one. -/
theorem stored_links_alike_vault :
    ((reload [.fromModules [vaultModule .string]]).bind fun stored => compileTx stored payFrontend payText) =
      compileTx [.fromModules [vaultModule .string]] payFrontend payText := by
  have hcompiled : ∀ d ∈ [Artifact.fromModules [vaultModule .string]], Compiled d := by
    intro d hd
    rw [List.mem_singleton.mp hd]
    exact compiled_vault trivial
  refine (stored_links_alike payFrontend hcompiled).2 ?_ payText
  intro m hm
  have heq : m = vaultModule .string := by simpa [depModules, Artifact.fromModules] using hm
  subst heq
  refine ⟨by simp [Artifact.ReadableStates, vaultModule, bareModule], ?_, by simp [vaultModule, bareModule],
    by simp [vaultModule, bareModule]⟩
  intro f hf _
  have heq : f = (vaultModule .string).functions[0] := by simpa [vaultModule, bareModule, vaultSource] using hf
  subst heq
  exact ⟨by decide, rfl⟩

/-- A parameter that asks for a backtick literal forgets it when the program is stored: a transaction that
passes a variable is refused against the fresh artifact and accepted against the stored one. -/
theorem tagged_entry_forgotten : Compiled (.fromModules [vaultModule (.explicitLiteral .string)]) ∧
    ((reload [.fromModules [vaultModule (.explicitLiteral .string)]]).bind fun stored =>
      compileTx stored payFrontend payText) ≠
      compileTx [.fromModules [vaultModule (.explicitLiteral .string)]] payFrontend payText := by
  refine ⟨compiled_vault trivial, ?_⟩
  have hfresh : compileTx [.fromModules [vaultModule (.explicitLiteral .string)]] payFrontend payText = none := by
    decide +kernel
  rw [hfresh]
  decide +kernel

end Rend.Link
