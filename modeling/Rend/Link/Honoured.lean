import Rend.Effects.Sound
import Rend.Link.Dispatch
import Mathlib.Order.FixedPoints

/-!
# Calls through interfaces

The modules that run together were accepted one by one: the type checker has resolved each call of a method at
the static type of its target, and the declarations `pure` and `view` were checked against the classes of the
functions. In a run, a bind in the code of a module gives an interface value, which goes to locations of its
type; a call in the code of a module takes one from a location of the type it was resolved at.

* `Does`: what an entry of a loaded module does, through everything it calls in the loaded modules.
* `honoured_iff`: where nothing slips past the classifier in what is called as `pure` or `view`, each call in every
  state of every run invokes an entry as its caller's view promises, exactly when every module that a bind accepts
  has the methods called at the type of that bind.
* `viewsServed_of_agree`: this is so when the modules that bind a name see it as the first loaded declaration has
  it, and no function has so many parameters that their count wraps around.
-/

namespace Rend.Link

open Lib

/-! ### Loaded modules -/

/-- The static type of an interface value. -/
structure IfaceTy where
  name : String
  methods : List InterfaceMethodSig

/-- The method a call is resolved to (`ExprKind::DynCall`). -/
def IfaceTy.method (t : IfaceTy) (method : String) : Option InterfaceMethodSig :=
  t.methods.find? fun s => sigName s = method

/-- A module that was accepted and loaded: its bytecode, the interfaces of the artifacts it was compiled
against (none in a set of sources), the types the type checker has found for the targets of its calls, and its
source with the classes of its functions. -/
structure Loaded where
  bc : BcModule
  ifaceExternals : SortedMap String (List InterfaceMethodSig)
  /-- The type of the target of the call at this place: a function and an instruction in it. -/
  targetTy : ℕ → ℕ → Option IfaceTy
  source : Effects.Module
  known : Effects.Known
  classes : Effects.Classes
  classified : Effects.Classifies source known classes
  purity : Effects.verifyPurityAnnotations source classes = .ok ()
  /-- Each compiled function is a function of the source, declared as it is there. -/
  declared : ∀ f ∈ bc.functions, ∃ g ∈ source.functions, g.name = f.name ∧ g.isView = f.isView ∧ g.isPure = f.isPure

/-- The methods of an interface as the type checker of the module sees them. -/
def Loaded.view (m : Loaded) (iface : String) : Option (List InterfaceMethodSig) :=
  match (SortedMap.ofEntries (m.bc.interfaces.map fun d => (d.name, methodSigs d))).lookup iface with
  | some sigs => some sigs
  | none => m.ifaceExternals.lookup iface

/-- The code of the module binds an interface, of this type there. -/
def Loaded.Binds (m : Loaded) (t : IfaceTy) : Prop :=
  ∃ f ∈ m.bc.functions, ∃ dst ifaceNameIdx targetReg, Instr.makeInterface dst ifaceNameIdx targetReg ∈ f.code ∧
    f.consts[ifaceNameIdx]? = some (.str t.name) ∧ m.view t.name = some t.methods

/-- A call through an interface: the type of its target, the method it was resolved to, and what the instruction
is stamped with, which the optimizer goes by. -/
structure DynCall where
  target : IfaceTy
  name : String
  sig : InterfaceMethodSig
  isView : Bool
  isPure : Bool

/-- The code of the module makes the call. -/
def Loaded.Calls (m : Loaded) (c : DynCall) : Prop :=
  c.target.method c.name = some c.sig ∧
    ∃ k f pc dst targetReg fnNameIdx argsStart nArgs, m.bc.functions[k]? = some f ∧
      f.code[pc]? = some (.callExternalDyn dst targetReg fnNameIdx argsStart nArgs c.isView c.isPure) ∧
      f.consts[fnNameIdx]? = some (.str c.name) ∧ m.targetTy k pc = some c.target

section Runs

variable (W : List Loaded)

/-- The code of a loaded module may bind an interface of this type to the target. -/
def Bindable (t : IfaceTy) (target : String) : Prop :=
  (∃ b ∈ W, b.Binds t) ∧
    ∃ v, makeInterface (W.map Loaded.bc) (.str t.name) (.str target) = .ok v

/-! ### What an entry does -/

/-- What other modules do, given what each function of a module does: a call goes to the entry of that name, a
call through an interface to the method of any module that may be bound there. -/
def worldWith (R : String → String → Effects.Effect → Prop) : Effects.World where
  external modName name e := ∃ m f, ((W.map Loaded.bc).find? fun m => m.name = modName) = some m ∧
    fnAt m name = some f ∧ f.isEntry = true ∧ R modName f.name e
  dynamic _ method e := ∃ c target m f, (∃ a ∈ W, a.Calls c) ∧ c.name = method ∧ Bindable W c.target target ∧
    ((W.map Loaded.bc).find? fun m => m.name = target) = some m ∧ fnAt m method = some f ∧ R target f.name e

/-- What the functions of the loaded modules do, given what they do where they are called from other modules. -/
def effectStep : (String → String → Effects.Effect → Prop) →o (String → String → Effects.Effect → Prop) where
  toFun R modName fn e := ∃ T ∈ W, ((W.map Loaded.bc).find? fun m => m.name = modName) = some T.bc ∧
    Effects.Performs T.source T.known (worldWith W R) (.call fn) e
  monotone' := by
    rintro R R' hle modName fn e ⟨T, hT, hfind, hperf⟩
    refine ⟨T, hT, hfind, hperf.mono ?_ ?_⟩
    · rintro modName name e ⟨m, f, hm, hf, hentry, h⟩
      exact ⟨m, f, hm, hf, hentry, hle _ _ _ h⟩
    · rintro - method e ⟨c, target, m, f, hc, hname, hbind, hm, hf, h⟩
      exact ⟨c, target, m, f, hc, hname, hbind, hm, hf, hle _ _ _ h⟩

/-- The function of the loaded module of this name has the effect, itself or through what it calls. -/
def Does : String → String → Effects.Effect → Prop := (effectStep W).lfp

/-- What other modules do in these. -/
def world : Effects.World := worldWith W (Does W)

theorem does_iff {modName fn : String} {e : Effects.Effect} :
    Does W modName fn e ↔ ∃ T ∈ W, ((W.map Loaded.bc).find? fun m => m.name = modName) = some T.bc ∧
      Effects.Performs T.source T.known (world W) (.call fn) e := by
  have h : effectStep W (Does W) = Does W := OrderHom.map_lfp (effectStep W)
  conv_lhs => rw [← h]
  rfl

/-! ### Runs -/

/-- An interface value in a run, and the type of the location it stands in. -/
structure Holding where
  type : IfaceTy
  value : Value

/-- The value was bound with these modules loaded, or stands where nothing was stored yet. -/
def BoundWith (h : Holding) : Prop :=
  h.value = Value.defaultFor (.interface h.type.name h.type.methods) ∨
    (∃ b ∈ W, b.Binds h.type) ∧
      ∃ target, makeInterface (W.map Loaded.bc) (.str h.type.name) (.str target) = .ok h.value

/-- A step of a run, as far as interface values go. A bind in the code of a module is executed, with any string as
its target; a location is read before it was set; a value goes to another location of its type: a register, a
state cell, a parameter or a result, of this module or of another; and locations are dropped or overwritten. -/
inductive Step : List Holding → List Holding → Prop
  | bind {s : List Holding} {b : Loaded} {t : IfaceTy} {target : String} {v : Value} (hb : b ∈ W)
      (hbinds : b.Binds t) (hv : makeInterface (W.map Loaded.bc) (.str t.name) (.str target) = .ok v) :
      Step s (⟨t, v⟩ :: s)
  | unset {s : List Holding} (t : IfaceTy) : Step s (⟨t, Value.defaultFor (.interface t.name t.methods)⟩ :: s)
  | copy {s : List Holding} {h : Holding} (hh : h ∈ s) : Step s (h :: s)
  | drop {s s' : List Holding} (hs : s' ⊆ s) : Step s s'

/-- A state the run can start in: what the store holds was bound with these modules loaded. -/
def Initial (s : List Holding) : Prop := ∀ h ∈ s, BoundWith W h

/-- The call honours the caller's view on this value: nothing is bound yet and it is refused, or it invokes an
entry of a loaded module with the types and within the bound of the method it was resolved to. What is called as
`pure`, by the view or by the stamp, has no effects, and what is called as `view` only reads. -/
def CallHonoured (v : Value) (c : DynCall) : Prop :=
  callExternalDyn (W.map Loaded.bc) v (.str c.name) = .error .unbound ∨
    ∃ m f, callExternalDyn (W.map Loaded.bc) v (.str c.name) = .ok (m, f) ∧ Meets f c.sig ∧
      (sigIsPure c.sig = true ∨ c.isPure = true → ∀ e, ¬ Does W m.name f.name e) ∧
      (sigIsView c.sig = true ∨ c.isView = true → ∀ e, Does W m.name f.name e → e = .read)

/-- **Every call honours the caller's interface**: in every state a run reaches, every call in the code of a
module, on every value in a location of the type it was resolved at. -/
def Honours : Prop :=
  ∀ s₀ s, Initial W s₀ → Relation.ReflTransGen (Step W) s₀ s → ∀ h ∈ s, ∀ a ∈ W, ∀ c, a.Calls c →
    c.target = h.type → CallHonoured W h.value c

/-- Every module that a bind accepts has the methods that are called at the type of that bind. -/
def ViewsServed : Prop :=
  ∀ a ∈ W, ∀ c, a.Calls c → ∀ target m, target ≠ "" → Bindable W c.target target →
    ((W.map Loaded.bc).find? fun m => m.name = target) = some m → ∃ f, fnAt m c.name = some f ∧ Meets f c.sig

/-- What is called as `pure` or `view` is stamped so by the view only, and nothing slips past the classifier in
what it comes to. -/
structure CalledQuietly : Prop where
  stamped : ∀ a ∈ W, ∀ c, a.Calls c → (c.isPure = true → sigIsPure c.sig = true) ∧
    (c.isView = true → sigIsView c.sig = true)
  quiet : ∀ a ∈ W, ∀ c, a.Calls c → sigIsPure c.sig = true ∨ sigIsView c.sig = true →
    ∀ target, Bindable W c.target target → ∀ T ∈ W, ((W.map Loaded.bc).find? fun m => m.name = target) = some T.bc →
      ∀ f, fnAt T.bc c.name = some f → Effects.NothingSlipsBelow T.source T.known (world W) f.name

variable {W}

theorem Step.initial {s s' : List Holding} (hs : Initial W s) (h : Step W s s') : Initial W s' := by
  cases h with
  | bind hb hbinds hv => exact List.forall_mem_cons.2 ⟨.inr ⟨⟨_, hb, hbinds⟩, _, hv⟩, hs⟩
  | unset t => exact List.forall_mem_cons.2 ⟨.inl rfl, hs⟩
  | copy hh => exact List.forall_mem_cons.2 ⟨hs _ hh, hs⟩
  | drop hsub => exact fun h hh => hs h (hsub hh)

theorem run_initial {s₀ s : List Holding} (h₀ : Initial W s₀)
    (h : Relation.ReflTransGen (Step W) s₀ s) : Initial W s := by
  induction h with
  | refl => exact h₀
  | tail _ hstep ih => exact hstep.initial ih

/-- What a function that is declared `pure` or `view` does, where nothing slips past the classifier. -/
theorem Loaded.quiet {T : Loaded} {f : BcFn} (hf : f ∈ T.bc.functions)
    (hslips : Effects.NothingSlipsBelow T.source T.known (world W) f.name) {e : Effects.Effect}
    (hperf : Effects.Performs T.source T.known (world W) (.call f.name) e) :
    f.isPure = false ∧ (f.isView = true → e = .read) := by
  obtain ⟨g, hg, hname, hview, hpure⟩ := T.declared f hf
  rw [← hname] at hslips hperf
  rw [← hview, ← hpure]
  exact Effects.declared_quiet T.classified T.purity hg hslips hperf

/-- A call on a value bound with these modules loaded. -/
theorem BoundWith.callHonoured (hq : CalledQuietly W) (hW : ViewsServed W) {h : Holding} (hb : BoundWith W h)
    {a : Loaded} (ha : a ∈ W) {c : DynCall} (hc : a.Calls c) (ht : c.target = h.type) :
    CallHonoured W h.value c := by
  obtain ⟨t, v⟩ := h
  obtain rfl : c.target = t := ht
  dsimp only [BoundWith] at hb ⊢
  rcases hb with rfl | ⟨hbinds, target, hv⟩
  · exact .inl rfl
  have hbind : Bindable W c.target target := ⟨hbinds, v, hv⟩
  obtain ⟨-, m, -, hm, -, rfl⟩ := makeInterface_eq_ok_iff.mp hv
  by_cases htarget : target = ""
  · subst htarget
    exact .inl rfl
  obtain ⟨f, hf, hmeets⟩ := hW a ha c hc target m htarget hbind hm
  have hmem : f ∈ m.functions := by
    obtain ⟨i, -, hi⟩ := Option.bind_eq_some_iff.mp hf
    exact List.mem_of_getElem? hi
  have hname : m.name = target := by simpa using List.find?_some hm
  obtain ⟨hentry, hpureBound, hviewBound⟩ := hmeets.bound
  have hquiet : sigIsPure c.sig = true ∨ sigIsView c.sig = true → ∀ e, Does W m.name f.name e →
      f.isPure = false ∧ (f.isView = true → e = .read) := by
    intro hsig e hdoes
    obtain ⟨T, hT, hfind, hperf⟩ := (does_iff W).mp hdoes
    rw [hname] at hfind
    obtain rfl : m = T.bc := Option.some.inj (hm.symm.trans hfind)
    exact Loaded.quiet hmem (hq.quiet a ha c hc hsig target hbind T hT hfind f hf) hperf
  refine .inr ⟨m, f, callExternalDyn_eq_ok_iff.mpr ⟨htarget, hm, hf, hentry⟩, hmeets, ?_, ?_⟩
  · intro hpure e hdoes
    have hsig : sigIsPure c.sig = true := hpure.elim id (hq.stamped a ha c hc).1
    simpa [hpureBound hsig] using (hquiet (.inl hsig) e hdoes).1
  · intro hview e hdoes
    have hsig : sigIsView c.sig = true := hview.elim id (hq.stamped a ha c hc).2
    obtain ⟨hnot, hread⟩ := hquiet (.inr hsig) e hdoes
    -- a `view` method may be implemented by a `view` function or by a `pure` one, which does nothing at all
    exact hread ((hviewBound hsig).resolve_right (by simp [hnot]))

/-- **Dynamic dispatch honours the caller's interface.** Where nothing slips past the classifier in what is called
as `pure` or `view`, every call in every run of these modules is honoured exactly when every module that a bind in
their code accepts has the methods that their code calls at the type of that bind. -/
theorem honoured_iff (W : List Loaded) (hq : CalledQuietly W) : Honours W ↔ ViewsServed W := by
  constructor
  · intro hall a ha c hc target m htarget ⟨⟨b, hb, hbinds⟩, v, hv⟩ hm
    -- the interface is bound to `target`, and then the method is called
    have hcall := hall [] [⟨c.target, v⟩] (by simp [Initial]) (.single (.bind hb hbinds hv)) _
      (List.mem_singleton.mpr rfl) a ha c hc rfl
    obtain ⟨-, -, -, -, -, rfl⟩ := makeInterface_eq_ok_iff.mp hv
    rcases hcall with hcall | ⟨m', f, hcall, hmeets, -⟩
    · simp only [callExternalDyn, if_neg htarget, hm] at hcall
      split at hcall
      · cases hcall
      · split_ifs at hcall
        cases hcall
    · obtain ⟨-, hm', hf, -⟩ := callExternalDyn_eq_ok_iff.mp hcall
      obtain rfl := Option.some.inj (hm.symm.trans hm')
      exact ⟨f, hf, hmeets⟩
  · intro hW s₀ s h₀ hrun h hmem a ha c hc ht
    exact (run_initial h₀ hrun h hmem).callHonoured hq hW ha hc ht

/-- The views are served when each module that binds an interface sees it as the first loaded declaration has it,
and no count of parameters has wrapped around. -/
theorem viewsServed_of_agree
    (hagree : ∀ b ∈ W, ∀ t decl, b.Binds t → firstDecl (W.map Loaded.bc) t.name = some decl →
      t.methods = methodSigs decl)
    (hcount : ∀ a ∈ W, ∀ f ∈ a.bc.functions, f.nParams = f.paramTypes.length) : ViewsServed W := by
  intro a ha c hc target m htarget ⟨⟨b, hb, hbinds⟩, v, hv⟩ hm
  obtain ⟨decl, m', hdecl, hm', hok, -⟩ := makeInterface_eq_ok_iff.mp hv
  obtain rfl := Option.some.inj (hm.symm.trans hm')
  have hfind := hc.1
  rw [IfaceTy.method, hagree b hb _ decl hbinds hdecl] at hfind
  obtain ⟨d, hd, hsig⟩ := List.mem_map.mp (List.mem_of_find?_eq_some hfind)
  have hname : d.name = c.name := by
    have := List.find?_some hfind
    rw [← hsig] at this
    exact of_decide_eq_true this
  obtain ⟨T, hT, rfl⟩ := List.mem_map.mp (List.mem_of_find?_eq_some hm)
  rw [← hname, ← hsig]
  exact checkMethod_meets (checkMethod_of_conforms hok hd) (hcount T hT)

end Runs

/-! ### A ledger and its vault -/

/-- The type of `Token` where it is declared as `interface Token { view fn total() -> u64; }`. -/
def tokenTy : IfaceTy := ⟨"Token", [.mk "total" [] .u64 true false]⟩

/-- The functions of the ledger: `fn main() -> u64 { let t = Token::bind("vault"); return t::total(); }`. -/
def ledgerFns : Effects.Module where
  imports := []
  states := []
  interfaces := ["Token"]
  consts := []
  functions := [⟨"main", [], .mk [.let "t" (.call (some "Token") "bind" [.lit]),
    .return (some (.dynCall "t" "total" [] true false))] none, false, false, .default⟩]
  names_nodup := by decide

/-- `module ledger;`, which declares `interface Token { view fn total() -> u64; }`. -/
def ledger : Loaded where
  bc := bareModule "ledger"
    [{ name := "Token", span := ⟨0, 0⟩
       methods := [{ name := "total", params := [], returnType := .u64, isView := true, isPure := false
                     span := ⟨0, 0⟩ }] }]
    [{ name := "main", nParams := 0, nRegs := 2, consts := [.str "Token", .str "vault", .str "total"]
       isEntry := false, isNore := false, paramTypes := [], returnType := .u64, isView := false
       isPure := false
       code := [.loadConst 1 1, .makeInterface 0 0 1, .callExternalDyn 1 0 2 2 0 true false, .ret 1] }]
  ifaceExternals := []
  targetTy := fun fi pc => if fi = 0 ∧ pc = 2 then some tokenTy else none
  source := ledgerFns
  known := Effects.alone
  classes := ledgerFns.initial.insert "main" .readOnly
  classified := ⟨2, rfl⟩
  purity := rfl
  declared := by
    intro f hf
    obtain rfl := List.mem_singleton.mp hf
    exact ⟨_, List.mem_singleton_self _, rfl, rfl, rfl⟩

/-- `state held: u64;` and `view entry fn total() -> u64 { return held; }`. -/
def vaultFns : Effects.Module where
  imports := []
  states := [("held", .u64)]
  interfaces := []
  consts := []
  functions := [⟨"total", [], .mk [.return (some (.ident "held"))] none, true, false, .default⟩]
  names_nodup := by decide

/-- `module vault;` as the ledger sees it. -/
def vault : Loaded where
  bc := bareModule "vault" []
    [{ name := "total", nParams := 0, nRegs := 1, consts := [.str "held"], isEntry := true, isNore := false
       paramTypes := [], returnType := .u64, isView := true, isPure := false
       code := [.kvGet 0 0, .ret 0] }]
  ifaceExternals := []
  targetTy := fun _ _ => none
  source := vaultFns
  known := Effects.alone
  classes := vaultFns.initial.insert "total" .readOnly
  classified := ⟨2, rfl⟩
  purity := rfl
  declared := by
    intro f hf
    obtain rfl := List.mem_singleton.mp hf
    exact ⟨_, List.mem_singleton_self _, rfl, rfl, rfl⟩

/-- The one call of the ledger. -/
theorem ledger_calls {c : DynCall} (h : ledger.Calls c) :
    c = ⟨tokenTy, "total", .mk "total" [] .u64 true false, true, false⟩ := by
  obtain ⟨hsig, fi, f, pc, dst, targetReg, fnNameIdx, argsStart, nArgs, hf, hcode, hname, hty⟩ := h
  obtain ⟨target, name, sig, isView, isPure⟩ := c
  obtain _ | fi := fi
  · cases hf
    obtain _ | _ | _ | _ | pc := pc <;> cases hcode
    cases hty
    cases hname
    cases hsig
    rfl
  · cases hf

theorem vault_calls {c : DynCall} (h : vault.Calls c) : False := by
  obtain ⟨-, fi, f, pc, dst, targetReg, fnNameIdx, argsStart, nArgs, hf, hcode, -, -⟩ := h
  obtain _ | fi := fi
  · cases hf
    obtain _ | _ | pc := pc <;> cases hcode
  · cases hf

open Effects Lib.UsePaths in
/-- All that the vault's function does is to read the state, where the classifier sees it. -/
theorem vault_reads : ∀ f ∈ vaultFns.functions,
    Only (fun d => d = (.does .read, some (.cls .readOnly))) (f.paths vaultFns alone) := by
  intro f hf
  obtain rfl := List.mem_singleton.mp hf
  have hread : Only (fun d => d = (.does .read, some (.cls .readOnly))) (identPaths vaultFns true [] "held") :=
    .seq (.use rfl) .skip
  simp only [FnDef.paths, blockPaths, stmtsPaths, stmtPaths, optPaths, exprPaths]
  exact .seq (.seq (.seq hread .jump) .skip) .skip

theorem vault_quiet {W : Effects.World} {x : String} : Effects.NothingSlipsBelow vaultFns Effects.alone W x := by
  intro f hf _ p hp d hd e hperf hnot
  obtain rfl := vault_reads f hf p hp d hd
  cases hperf
  exact absurd (.inl ⟨.readOnly, rfl, rfl⟩) hnot

/-- The ledger's calls of the vault, which only reads, are honoured. -/
theorem honoured_ledger : Honours [vault, ledger] := by
  have hcalls : ∀ a ∈ [vault, ledger], ∀ c, a.Calls c →
      c = ⟨tokenTy, "total", .mk "total" [] .u64 true false, true, false⟩ := by
    intro a ha c hc
    rcases List.mem_pair.mp ha with rfl | rfl
    · exact (vault_calls hc).elim
    · exact ledger_calls hc
  refine (honoured_iff [vault, ledger] ⟨fun a ha c hc => ?_, fun a ha c hc _ target hbind T hT hfind f hf => ?_⟩).mpr
    (viewsServed_of_agree (fun b hb t decl hbinds hdecl => ?_) (by decide))
  · rw [hcalls a ha c hc]
    exact ⟨id, id⟩
  · rcases List.mem_pair.mp hT with rfl | rfl
    · exact vault_quiet
    · -- the ledger has no function of that name
      rw [hcalls a ha c hc] at hf
      cases hf
  · obtain ⟨f, hf, dst, idx, reg, hcode, hname, hsees⟩ := hbinds
    rcases List.mem_pair.mp hb with rfl | rfl
    · obtain rfl := List.mem_singleton.mp hf
      simp at hcode
    · obtain rfl := List.mem_singleton.mp hf
      obtain ⟨name, methods⟩ := t
      obtain ⟨-, rfl, -⟩ : dst = 0 ∧ idx = 0 ∧ reg = 1 := by simpa using hcode
      cases hname
      cases hsees
      cases hdecl
      rfl

/-! ### Two declarations of one name -/

/-- `entry fn total() -> bool { return true; }`. -/
def boolVaultFns : Effects.Module where
  imports := []
  states := []
  interfaces := ["Token"]
  consts := []
  functions := [⟨"total", [], .mk [.return (some .lit)] none, false, false, .default⟩]
  names_nodup := by decide

/-- `module vault;` with another view of the name, `interface Token { fn total() -> bool; }`. -/
def boolVault : Loaded where
  bc := bareModule "vault"
    [{ name := "Token", span := ⟨0, 0⟩
       methods := [{ name := "total", params := [], returnType := .bool, isView := false, isPure := false
                     span := ⟨0, 0⟩ }] }]
    [{ name := "total", nParams := 0, nRegs := 1, consts := [.bool true], isEntry := true, isNore := false
       paramTypes := [], returnType := .bool, isView := false, isPure := false
       code := [.loadConst 0 0, .ret 0] }]
  ifaceExternals := []
  targetTy := fun _ _ => none
  source := boolVaultFns
  known := Effects.alone
  classes := boolVaultFns.initial
  classified := ⟨1, rfl⟩
  purity := rfl
  declared := by
    intro f hf
    obtain rfl := List.mem_singleton.mp hf
    exact ⟨_, List.mem_singleton_self _, rfl, rfl, rfl⟩

/-- The ledger binds its own interface to this vault, which the check accepts against the vault's declaration;
the method it calls then returns a `bool` where a `u64` was promised. -/
theorem redeclared_interface_not_honoured : ¬ Honours [boolVault, ledger] := by
  intro hall
  have hbinds : ledger.Binds tokenTy := ⟨_, List.mem_singleton_self _, 0, 0, 1, by decide, rfl, rfl⟩
  have hbind : makeInterface ([boolVault, ledger].map Loaded.bc) (.str "Token") (.str "vault") =
      .ok (.interface "Token" "vault") := rfl
  have hcalls : ledger.Calls ⟨tokenTy, "total", .mk "total" [] .u64 true false, true, false⟩ :=
    ⟨rfl, 0, _, 2, 1, 0, 2, 2, 0, rfl, rfl, rfl, rfl⟩
  have hcall := hall [] [⟨tokenTy, .interface "Token" "vault"⟩] (by simp [Initial])
    (.single (.bind (b := ledger) (by simp) hbinds hbind)) _ (List.mem_singleton.mpr rfl) ledger (by simp) _ hcalls rfl
  rcases hcall with hcall | ⟨m, f, hcall, hmeets, -⟩
  · cases hcall
  · obtain rfl : f = _ := (congrArg Prod.snd (Except.ok.inj hcall)).symm
    cases hmeets.2.2.1

end Rend.Link
