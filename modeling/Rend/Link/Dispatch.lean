import Rend.Lib.Checks
import Rend.Optimize.Pass

/-!
# Dynamic dispatch

An interface value names an interface and the module it is bound to. The type checker resolves the
interface where the value is used: in the module's own declarations, then in those of the artifacts it
is compiled against. The instruction that binds a module takes the first declaration of that name among
all loaded modules and checks the bound module against it (`check_iface_conformance`); the value keeps
the two names, and the instruction that calls a method finds it by the name of the module and of the
method.

* `makeInterface`, `callExternalDyn`: the two instructions.
* `checkMethod_meets`: what the check gives, where the count of parameters has not wrapped around.
-/

namespace Rend.Link

open Lib Optimize

/-! ### The declarations a module sees -/

/-- The signatures of a declared interface. -/
def methodSigs (d : InterfaceDecl) : List InterfaceMethodSig :=
  d.methods.map fun m => .mk m.name (m.params.map fun p => p.ty) m.returnType m.isView m.isPure

/-- The name of a method. -/
def sigName : InterfaceMethodSig → String
  | .mk name .. => name

/-- The method is promised to be `pure`. -/
def sigIsPure : InterfaceMethodSig → Bool
  | .mk _ _ _ _ isPure => isPure

/-- The method is promised to be `view`. -/
def sigIsView : InterfaceMethodSig → Bool
  | .mk _ _ _ isView _ => isView

/-! ### The two instructions -/

/-- Why a module does not implement an interface. -/
inductive ConformanceError
  | missing (iface method target : String)
  | notEntry (iface method target : String)
  | paramCount (iface method : String) (want : ℕ) (target : String) (got : ℕ)
  | paramType (iface method : String) (i : ℕ) (want : Ty) (target : String) (got : Option Ty)
  | returnType (iface method : String) (want : Ty) (target : String) (got : Ty)
  | notPure (iface method target : String)
  | notView (iface method target : String)

/-- Why binding an interface or calling through it fails. -/
inductive DispatchError
  | ifaceNameNotString
  | targetNotString (v : Value)
  | ifaceNotDeclared (iface : String)
  | targetNotLoaded (target : String)
  | notConforming (e : ConformanceError)
  | notInterface (v : Value)
  | unbound
  | fnNameNotString
  | moduleNotLoaded (target : String)
  | notDefined (target method : String)
  | notEntry (target method : String)

/-- The function a module has under a name. -/
def fnAt (m : BcModule) (name : String) : Option BcFn := (m.fnIndex.lookup name).bind fun i => m.functions[i]?

/-- The first parameter whose type is not the one wanted. -/
def firstMismatch (i : ℕ) : List Param → List Ty → Option (ℕ × Ty × Option Ty)
  | [], _ => none
  | want :: _, [] => some (i, want.ty, none)
  | want :: wants, got :: gots => if got ≠ want.ty then some (i, want.ty, some got)
    else firstMismatch (i + 1) wants gots

/-- The check of one method. -/
def checkMethod (iface : String) (target : BcModule) (method : InterfaceMethod) :
    Except ConformanceError Unit :=
  match fnAt target method.name with
  | none => .error (.missing iface method.name target.name)
  | some f =>
    if !f.isEntry then .error (.notEntry iface method.name target.name)
    else if f.nParams ≠ method.params.length then
      .error (.paramCount iface method.name method.params.length target.name f.nParams)
    else match firstMismatch 0 method.params f.paramTypes with
      | some (i, want, got) => .error (.paramType iface method.name i want target.name got)
      | none =>
        if f.returnType ≠ method.returnType then
          .error (.returnType iface method.name method.returnType target.name f.returnType)
        else if method.isPure && !f.isPure then .error (.notPure iface method.name target.name)
        else if method.isView && !(f.isView || f.isPure) then
          .error (.notView iface method.name target.name)
        else .ok ()

/-- Checks that a module implements every method of an interface. -/
def checkIfaceConformance (iface : InterfaceDecl) (target : BcModule) : Except ConformanceError Unit :=
  iface.methods.forM (checkMethod iface.name target)

/-- The declaration a bind finds: the first one of that name among the loaded modules. -/
def firstDecl (modules : List BcModule) (iface : String) : Option InterfaceDecl :=
  modules.findSome? fun m => (m.interfaceIndex.lookup iface).bind fun i => m.interfaces[i]?

/-- `Instr::MakeInterface`. -/
def makeInterface (modules : List BcModule) (ifaceName : Const) (target : Value) :
    Except DispatchError Value :=
  match ifaceName with
  | .str iface =>
    match target with
    | .str targetModule =>
      match firstDecl modules iface with
      | none => .error (.ifaceNotDeclared iface)
      | some decl =>
        match modules.find? fun m => m.name = targetModule with
        | none => .error (.targetNotLoaded targetModule)
        | some m =>
          match checkIfaceConformance decl m with
          | .error e => .error (.notConforming e)
          | .ok () => .ok (.interface iface targetModule)
    | v => .error (.targetNotString v)
  | _ => .error .ifaceNameNotString

/-- `Instr::CallExternalDyn` up to the call: the function that is called. -/
def callExternalDyn (modules : List BcModule) (target : Value) (fnName : Const) :
    Except DispatchError (BcModule × BcFn) :=
  match target with
  | .interface _ targetModule =>
    if targetModule = "" then .error .unbound
    else match fnName with
      | .str method =>
        match modules.find? fun m => m.name = targetModule with
        | none => .error (.moduleNotLoaded targetModule)
        | some m =>
          match fnAt m method with
          | none => .error (.notDefined targetModule method)
          | some f => if !f.isEntry then .error (.notEntry targetModule method) else .ok (m, f)
      | _ => .error .fnNameNotString
  | v => .error (.notInterface v)

/-! ### What the check gives -/

/-- The function is an entry of the types a signature promises, and within its bound. -/
def Meets (f : BcFn) : InterfaceMethodSig → Prop
  | .mk _ params returnType isView isPure =>
    f.isEntry = true ∧ f.paramTypes = params ∧ f.returnType = returnType ∧
      (isPure = true → f.isPure = true) ∧ (isView = true → f.isView = true ∨ f.isPure = true)

theorem Meets.bound {f : BcFn} {sig : InterfaceMethodSig} (h : Meets f sig) : f.isEntry = true ∧
    (sigIsPure sig = true → f.isPure = true) ∧ (sigIsView sig = true → f.isView = true ∨ f.isPure = true) := by
  cases sig
  exact ⟨h.1, h.2.2.2⟩

theorem makeInterface_eq_ok_iff {modules : List BcModule} {iface target : String} {v : Value} :
    makeInterface modules (.str iface) (.str target) = .ok v ↔
      ∃ decl m, firstDecl modules iface = some decl ∧
        (modules.find? fun m => m.name = target) = some m ∧
        checkIfaceConformance decl m = .ok () ∧ v = .interface iface target := by
  unfold makeInterface
  constructor
  · intro h
    dsimp only at h
    split at h
    · cases h
    · rename_i decl hdecl
      split at h
      · cases h
      · rename_i m hm
        split at h
        · cases h
        · rename_i hok
          cases h
          exact ⟨decl, m, hdecl, hm, hok, rfl⟩
  · rintro ⟨decl, m, hdecl, hm, hok, rfl⟩
    simp [hdecl, hm, hok]

theorem callExternalDyn_eq_ok_iff {modules : List BcModule} {iface target method : String} {m : BcModule}
    {f : BcFn} : callExternalDyn modules (.interface iface target) (.str method) = .ok (m, f) ↔
      target ≠ "" ∧ (modules.find? fun m => m.name = target) = some m ∧ fnAt m method = some f ∧
        f.isEntry = true := by
  unfold callExternalDyn
  constructor
  · intro h
    dsimp only at h
    split_ifs at h with hne
    split at h
    · cases h
    · rename_i m' hm
      split at h
      · cases h
      · rename_i f' hf
        split_ifs at h with hentry
        cases h
        exact ⟨hne, hm, hf, by simpa using hentry⟩
  · rintro ⟨hne, hm, hf, hentry⟩
    simp [hne, hm, hf, hentry]

theorem firstMismatch_eq_none {i : ℕ} {wants : List Param} {gots : List Ty}
    (h : firstMismatch i wants gots = none) (hlen : gots.length = wants.length) :
    gots = wants.map fun p => p.ty := by
  induction wants generalizing i gots with
  | nil => exact List.length_eq_zero_iff.mp hlen
  | cons want wants ih =>
    obtain _ | ⟨got, gots⟩ := gots
    · cases hlen
    · unfold firstMismatch at h
      split_ifs at h with hty
      rw [not_not] at hty
      rw [List.map_cons, hty, ih h (Nat.succ.inj hlen)]

theorem checkMethod_meets {iface : String} {target : BcModule} {method : InterfaceMethod}
    (h : checkMethod iface target method = .ok ())
    (hcount : ∀ f ∈ target.functions, f.nParams = f.paramTypes.length) :
    ∃ f, fnAt target method.name = some f ∧ Meets f (.mk method.name (method.params.map fun p => p.ty)
      method.returnType method.isView method.isPure) := by
  unfold checkMethod at h
  split at h
  · cases h
  · rename_i f hf
    have hmem : f ∈ target.functions := by
      obtain ⟨i, -, hi⟩ := Option.bind_eq_some_iff.mp hf
      exact List.mem_of_getElem? hi
    cases hmis : firstMismatch 0 method.params f.paramTypes with
    | some e =>
      rw [hmis] at h
      split_ifs at h
    | none =>
      rw [hmis] at h
      dsimp only at h
      split_ifs at h with hentry hparams hret hpure hview
      rw [not_not] at hparams hret
      refine ⟨f, hf, by simpa using hentry, ?_, hret, ?_, ?_⟩
      · exact firstMismatch_eq_none hmis ((hcount f hmem).symm.trans hparams)
      · simpa using hpure
      · simpa [or_iff_not_imp_left] using hview

theorem checkMethod_of_conforms {iface : InterfaceDecl} {target : BcModule} {method : InterfaceMethod}
    (h : checkIfaceConformance iface target = .ok ()) (hm : method ∈ iface.methods) :
    checkMethod iface.name target method = .ok () := by
  exact forM_ok h method hm

/-- A module with these interfaces and functions, and nothing else. -/
def bareModule (name : String) (interfaces : List InterfaceDecl) (functions : List BcFn) : BcModule where
  name := name
  imports := []
  importIndex := []
  stateRoots := []
  stateTypes := []
  stateDefaults := []
  stateNames := []
  stateIndex := []
  structShapes := []
  structIndex := []
  functions := functions
  fnIndex := nameIndex (functions.map fun f => f.name)
  pathSpecs := []
  handlerDispatch := []
  enumShapes := []
  enumIndex := []
  interfaces := interfaces
  interfaceIndex := nameIndex (interfaces.map fun d => d.name)

end Rend.Link
