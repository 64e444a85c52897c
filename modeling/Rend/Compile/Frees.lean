import Rend.Compile.Fits
import Rend.Compile.Lower

/-!
# Registers that are given back

Every form of the lowering gives only registers back that it has taken, when its operands do
(`FreesTaken`). An index key is the one place that gives back a register it was handed: the register of the
record itself, when the path of the index is empty.
-/

namespace Rend.Compile

open Ast Index

/-! ### The steps -/

section Steps

variable {α β : Type} {Q : α → Prop} {R : Unit → Prop}

theorem forall_unit : (∀ u, R u) ↔ R () := ⟨fun h => h (), fun h _ => h⟩

@[simp] theorem gives_bind {x : Low β} {f : β → Low α} : Gives (x >>= f) Q ↔ Gives x fun b => Gives (f b) Q :=
  Lib.Script.asks_bind

@[simp] theorem gives_pure (a : α) : Gives (pure a) Q ↔ Q a := Iff.rfl

@[simp] theorem gives_fail (e : String) : Gives (.fail e : Low α) Q := trivial

theorem FreesTaken.then {x : Low α} (hx : FreesTaken x) (hQ : ∀ a, Q a) : Gives x Q :=
  Lib.Script.Asks.mono hx fun a _ => hQ a

/-- A step that nothing is asked of and whose answer nothing is promised of. -/
theorem gives_ask {o : Step α} (hpre : Pre o) (hpost : ∀ a, Post o a) : Gives (.ask o) Q ↔ ∀ a, Q a :=
  ⟨fun h a => h.2 a (hpost a), fun h => ⟨hpre, fun a _ => h a⟩⟩

theorem gives_ask_unit {o : Step Unit} (hpre : Pre o) (hpost : ∀ a, Post o a) : Gives (.ask o) R ↔ R () :=
  (gives_ask hpre hpost).trans forall_unit

@[simp] theorem gives_alloc {P : Reg → Prop} : Gives alloc P ↔ ∀ r, Taken r → P r :=
  ⟨fun h => h.2, fun h => ⟨trivial, h⟩⟩

@[simp] theorem gives_free {r : Reg} : Gives (free r) R ↔ Taken r ∧ R () :=
  ⟨fun h => ⟨h.1, h.2 () trivial⟩, fun h => ⟨h.1, fun _ _ => h.2⟩⟩

@[simp] theorem gives_window {n : ℕ} {P : Reg × List Reg → Prop} : Gives (window n) P ↔ ∀ p, P p :=
  gives_ask trivial fun _ => trivial

@[simp] theorem gives_release {n : ℕ} : Gives (release n) R ↔ R () := gives_ask_unit trivial fun _ => trivial

@[simp] theorem gives_nextReg {P : Reg → Prop} : Gives nextReg P ↔ ∀ r, P r := gives_ask trivial fun _ => trivial

@[simp] theorem gives_restore {r : Reg} : Gives (restore r) R ↔ R () := gives_ask_unit trivial fun _ => trivial

@[simp] theorem gives_push {i : Instr} : Gives (push i) R ↔ R () := gives_ask_unit trivial fun _ => trivial

@[simp] theorem gives_here {P : ℕ → Prop} : Gives here P ↔ ∀ n, P n := gives_ask trivial fun _ => trivial

@[simp] theorem gives_fill {pos : ℕ} {hole : Hole} : Gives (fill pos hole) R ↔ R () :=
  gives_ask_unit trivial fun _ => trivial

@[simp] theorem gives_constIdx {c : Const} {P : ℕ → Prop} : Gives (constIdx c) P ↔ ∀ n, P n :=
  gives_ask trivial fun _ => trivial

@[simp] theorem gives_internPath {idx : ℕ} {path : List String} {P : ℕ × List String → Prop} :
    Gives (internPath idx path) P ↔ ∀ p, P p :=
  gives_ask trivial fun _ => trivial

@[simp] theorem gives_context {P : Context → Prop} : Gives context P ↔ ∀ c, P c := gives_ask trivial fun _ => trivial

@[simp] theorem gives_change {f : Context → Context} : Gives (change f) R ↔ R () :=
  gives_ask_unit trivial fun _ => trivial

theorem gives_expect {e : String} {o : Option α} (h : ∀ a, Q a) : Gives (expect e o) Q := by
  cases o with
  | none => exact gives_fail e
  | some a => exact h a

@[simp] theorem gives_patch {target pos : ℕ} : Gives (patch target pos) R ↔ R () := gives_fill

@[simp] theorem gives_pushJump {i : Instr} {P : ℕ → Prop} : Gives (pushJump i) P ↔ ∀ n, P n := by simp [pushJump]

@[simp] theorem gives_pushBack {target : ℕ} : Gives (pushBack target) R ↔ R () := by simp [pushBack]

@[simp] theorem gives_loadConst {dst : Reg} {c : Const} : Gives (loadConst dst c) R ↔ R () := by simp [loadConst]

@[simp] theorem gives_pushScope : Gives pushScope R ↔ R () := gives_change

@[simp] theorem gives_popScope : Gives popScope R ↔ R () := gives_change

@[simp] theorem gives_bindLocal {name : String} {r : Reg} : Gives (bindLocal name r) R ↔ R () := gives_change

@[simp] theorem gives_callBuiltin {dst : Reg} {name : String} {start : Reg} {n : ℕ} :
    Gives (callBuiltin dst name start n) R ↔ R () := by simp [callBuiltin]

@[simp] theorem gives_patchAll {target : ℕ} {ps : List ℕ} : Gives (patchAll target ps) R ↔ R () := by
  induction ps with
  | nil => rfl
  | cons p ps ih => simp [patchAll, ih]

theorem gives_freeAll {rs : List Reg} (h : ∀ r ∈ rs, Taken r) (hR : R ()) : Gives (freeAll rs) R := by
  induction rs with
  | nil => exact hR
  | cons r rs ih =>
    simp only [freeAll, gives_bind, gives_free]
    exact ⟨h r List.mem_cons_self, ih fun r' hr' => h r' (List.mem_cons_of_mem _ hr')⟩

end Steps

/-! ### Expressions -/

/-- An operand gives only registers back that it has taken. -/
def Frugal (operand : Operand) : Prop := ∀ r, FreesTaken (operand r)

section Forms

variable {env : Env} {inline : Expr → Operand} {dst : Reg}

theorem frees_viaReg {operand : Operand} {finish : Reg → Low Unit} (ho : Frugal operand)
    (hf : ∀ r, Taken r → FreesTaken (finish r)) : FreesTaken (viaReg operand finish) := by
  simp only [FreesTaken, viaReg, gives_bind, gives_alloc, gives_free]
  intro r hr
  refine (ho r).then fun _ => (hf r hr).then fun _ => ?_
  exact ⟨hr, trivial⟩

theorem frees_viaReg_push {operand : Operand} {instr : Reg → Instr} (ho : Frugal operand) :
    FreesTaken (viaReg operand fun r => push (instr r)) :=
  frees_viaReg ho fun _ _ => gives_push.mpr trivial

theorem frees_viaRegs_push {first second : Operand} {instr : Reg → Reg → Instr} (h : Frugal first)
    (h' : Frugal second) : FreesTaken (viaRegs first second fun r r' => push (instr r r')) :=
  frees_viaReg h fun _ _ => frees_viaReg_push h'

theorem frees_compileEach {operands : List Operand} {regs : List Reg} (h : ∀ o ∈ operands, Frugal o) :
    FreesTaken (compileEach operands regs) := by
  induction operands generalizing regs with
  | nil => exact (gives_pure ()).mpr trivial
  | cons o os ih =>
    cases regs with
    | nil => exact (gives_pure ()).mpr trivial
    | cons r rs =>
      simp only [FreesTaken, compileEach, gives_bind]
      exact (h o List.mem_cons_self r).then fun _ => ih fun o' ho' => h o' (List.mem_cons_of_mem _ ho')

theorem frees_viaWindow {operands : List Operand} {finish : Reg → Low Unit} (h : ∀ o ∈ operands, Frugal o)
    (hf : ∀ start, FreesTaken (finish start)) : FreesTaken (viaWindow operands finish) := by
  simp only [FreesTaken, viaWindow, gives_bind, gives_window]
  intro p
  exact (frees_compileEach h).then fun _ => (hf p.1).then fun _ => gives_release.mpr trivial

theorem gives_compilePairs {pairs : List (String × Operand)} (h : ∀ p ∈ pairs, Frugal p.2) :
    Gives (compilePairs pairs) fun rs => ∀ r ∈ rs, Taken r := by
  induction pairs with
  | nil => simp [compilePairs]
  | cons p pairs ih =>
    simp only [compilePairs, gives_bind, gives_alloc, gives_loadConst, gives_pure]
    intro kr hkr vr hvr
    refine (h p List.mem_cons_self vr).then fun _ => ?_
    refine Lib.Script.Asks.mono (ih fun q hq => h q (List.mem_cons_of_mem _ hq)) fun rs hrs => ?_
    simp only [List.mem_cons, forall_eq_or_imp]
    exact ⟨hkr, hvr, hrs⟩

theorem frees_compileJsonObject {pairs : List (String × Operand)} (h : ∀ p ∈ pairs, Frugal p.2) :
    FreesTaken (compileJsonObject pairs dst) := by
  simp only [FreesTaken, compileJsonObject, gives_bind, gives_callBuiltin]
  refine Lib.Script.Asks.mono (gives_compilePairs h) fun rs hrs => ?_
  exact gives_freeAll (fun r hr => hrs r (List.mem_reverse.mp hr)) trivial

theorem gives_compileItems {items : List Operand} (h : ∀ o ∈ items, Frugal o) :
    Gives (compileItems items) fun rs => ∀ r ∈ rs, Taken r := by
  induction items with
  | nil => simp [compileItems]
  | cons o items ih =>
    simp only [compileItems, gives_bind, gives_alloc, gives_pure]
    intro r hr
    refine (h o List.mem_cons_self r).then fun _ => ?_
    refine Lib.Script.Asks.mono (ih fun q hq => h q (List.mem_cons_of_mem _ hq)) fun rs hrs => ?_
    simp only [List.mem_cons, forall_eq_or_imp]
    exact ⟨hr, hrs⟩

theorem frees_compileJsonArray {items : List Operand} (h : ∀ o ∈ items, Frugal o) :
    FreesTaken (compileJsonArray items dst) := by
  simp only [FreesTaken, compileJsonArray, gives_bind, gives_callBuiltin]
  refine Lib.Script.Asks.mono (gives_compileItems h) fun rs hrs => ?_
  exact gives_freeAll (fun r hr => hrs r (List.mem_reverse.mp hr)) trivial

theorem frees_compileIdent (hin : ∀ e, Frugal (inline e)) (name : String) : Frugal (compileIdent env inline name) := by
  intro r
  simp only [FreesTaken, compileIdent, gives_bind, gives_context]
  intro c
  split
  · split <;> simp
  · split
    · simp
    · split
      · exact hin _ r
      · exact gives_fail _

theorem frees_compilePrev : Frugal compilePrev := by
  intro r
  simp only [FreesTaken, compilePrev, gives_bind, gives_context]
  intro c
  refine gives_expect fun r' => ?_
  split <;> simp

theorem frees_compilePipe {head step : Operand} (hh : Frugal head) (hs : Frugal step) :
    FreesTaken (compilePipe head step dst) := by
  refine frees_viaReg hh fun r _ => ?_
  simp only [FreesTaken, pushPipe, popPipe, gives_bind, gives_change]
  exact (hs dst).then fun _ => trivial

theorem frees_fieldGets {tmp : Reg} {chain : List String} : FreesTaken (fieldGets tmp dst chain) := by
  unfold FreesTaken
  fun_induction fieldGets tmp dst chain <;> simp_all

theorem frees_compileField {target : Expr} {operand : Operand} (ho : Frugal operand) (name : String) :
    FreesTaken (compileField env target operand name dst) := by
  simp only [FreesTaken, compileField, gives_bind, gives_context]
  intro c
  split
  · simp only [gives_bind, gives_internPath]
    intro p
    split
    · simp
    · simp only [gives_bind, gives_alloc, gives_push, gives_free]
      intro tmp htmp
      exact frees_fieldGets.then fun _ => ⟨htmp, trivial⟩
  · exact frees_viaReg ho fun r _ => by simp [FreesTaken]

theorem gives_stateOf {name : String} {Q : Option (ℕ × Ty) → Prop} (h : ∀ o, Q o) : Gives (stateOf env name) Q := by
  unfold stateOf
  split
  · exact h none
  · simp only [gives_bind]
    exact gives_expect fun ty => h _

theorem gives_stateOfTarget {target : Expr} {Q : Option (ℕ × Ty) → Prop} (h : ∀ o, Q o) :
    Gives (stateOfTarget env target) Q := by
  unfold stateOfTarget
  split
  · exact gives_stateOf h
  · exact h none

theorem frees_compileIndex {target : Expr} {operand key : Operand} (ho : Frugal operand) (hk : Frugal key) :
    FreesTaken (compileIndex env target operand key dst) := by
  simp only [FreesTaken, compileIndex, gives_bind]
  refine gives_stateOfTarget fun o => ?_
  split
  · exact frees_viaReg_push hk
  · exact frees_viaRegs_push ho hk

theorem frees_compileArrayAlloc {elemTy : Ty} {len : Operand} (hin : ∀ e, Frugal (inline e)) (hl : Frugal len) :
    FreesTaken (compileArrayAlloc env inline elemTy len dst) := by
  simp only [FreesTaken, compileArrayAlloc, gives_bind, gives_alloc]
  intro r _
  refine (hl r).then fun _ r' _ => ?_
  split
  · exact gives_fail _
  · simp only [gives_bind]
    exact (hin _ r').then fun _ => gives_push.mpr trivial

theorem frees_compileReserve {count : Operand} {state : String} (hc : Frugal count) :
    FreesTaken (compileReserve env count state dst) := by
  simp only [FreesTaken, compileReserve, gives_bind, gives_alloc]
  intro r _
  exact (hc r).then fun _ => gives_expect fun idx => gives_push.mpr trivial

theorem frees_compileStruct {name : String} {fields : List (String × Operand)} (h : ∀ p ∈ fields, Frugal p.2) :
    FreesTaken (compileStruct env name fields dst) := by
  simp only [FreesTaken, compileStruct, gives_bind]
  refine gives_expect fun idx => gives_expect fun shape => ?_
  refine frees_viaWindow (fun o ho => ?_) fun start => gives_push.mpr trivial
  obtain ⟨field, -, rfl⟩ := List.mem_map.mp ho
  split
  · next operand hop =>
    obtain ⟨l₁, l₂, heq, -⟩ := List.lookup_eq_some_iff.mp hop
    exact h (field, operand) (by rw [heq]; simp)
  · exact fun r => gives_fail _

theorem frees_compileEnum {enumName variant : String} {args : List Operand} (h : ∀ o ∈ args, Frugal o) :
    FreesTaken (compileEnum env enumName variant args dst) := by
  simp only [FreesTaken, compileEnum, gives_bind]
  refine gives_expect fun idx => gives_expect fun shape => gives_expect fun variantIdx => ?_
  exact frees_viaWindow h fun start => gives_push.mpr trivial

theorem frees_operandAt {operands : List Operand} (h : ∀ o ∈ operands, Frugal o) (i : ℕ) :
    Frugal (operandAt operands i) := by
  intro r
  unfold operandAt
  split
  · next o ho => exact h o (List.mem_of_getElem? ho) r
  · exact gives_fail _

theorem gives_stateArg {e : String} {args : List Expr} {Q : ℕ → Prop} (h : ∀ n, Q n) : Gives (stateArg env e args) Q := by
  unfold stateArg
  split
  · exact gives_expect h
  · exact gives_fail _

theorem frees_stateBuiltin {name : String} {args : List Expr} {operands : List Operand}
    (h : ∀ o ∈ operands, Frugal o) {call : Low Unit} (hcall : stateBuiltin env name args operands dst = some call) :
    FreesTaken call := by
  have hat := frees_operandAt h
  unfold stateBuiltin at hcall
  split at hcall <;> cases hcall <;> simp only [FreesTaken, gives_bind] <;> refine gives_stateArg fun idx => ?_
  case h_1 | h_3 | h_5 => exact frees_viaReg_push (hat 1)
  case h_4 => exact frees_viaRegs_push (hat 1) (hat 2)
  all_goals exact gives_push.mpr trivial

theorem frees_finishCall {module : Option String} {name : String} {n : ℕ} (start : Reg) :
    FreesTaken (finishCall env module name n dst start) := by
  unfold FreesTaken finishCall
  split
  · split <;> simp
  · split
    · simp
    · simp only [gives_bind]
      exact gives_expect fun idx => gives_push.mpr trivial

theorem frees_compileCall {module : Option String} {name : String} {args : List Expr} {operands : List Operand}
    (h : ∀ o ∈ operands, Frugal o) : FreesTaken (compileCall env module name args operands dst) := by
  have hat := frees_operandAt h
  unfold compileCall
  split
  · exact frees_viaReg_push (hat 0)
  · split
    · next hcall => exact frees_stateBuiltin h hcall
    · split_ifs
      · exact frees_viaWindow h fun start => gives_callBuiltin.mpr trivial
      · split
        · exact gives_push.mpr trivial
        · split
          · exact frees_viaReg_push (hat 0)
          · exact frees_viaWindow h frees_finishCall

theorem frees_compileDynCall {targetIdent method : String} {args : List Operand} {isView isPure : Bool}
    (hin : ∀ e, Frugal (inline e)) (h : ∀ o ∈ args, Frugal o) :
    FreesTaken (compileDynCall env inline targetIdent method args isView isPure dst) := by
  refine frees_viaReg (frees_compileIdent hin targetIdent) fun target _ => ?_
  exact frees_viaWindow h fun start => by simp [FreesTaken]

end Forms

/-! ### Branches and loops -/

section Control

variable {env : Env} {dst : Reg}

theorem frees_branch {cond : Operand} {body orElse : Low Unit} (hc : Frugal cond) (hb : FreesTaken body)
    (he : FreesTaken orElse) : FreesTaken (branch cond body orElse) := by
  simp only [FreesTaken, branch, gives_bind, gives_alloc, gives_pushJump, gives_free, gives_here, gives_patch]
  intro r hr
  refine (hc r).then fun _ skip => ⟨hr, hb.then fun _ exit pos => ?_⟩
  exact he.then fun _ _ => trivial

theorem gives_bindPayloads {scrut : Reg} {i : ℕ} {names : List String} :
    Gives (bindPayloads scrut i names) fun rs => ∀ r ∈ rs, Taken r := by
  induction names generalizing i with
  | nil => simp [bindPayloads]
  | cons name names ih =>
    simp only [bindPayloads, gives_bind, gives_alloc, gives_push, gives_bindLocal, gives_pure]
    intro r hr
    refine Lib.Script.Asks.mono ih fun rs hrs => ?_
    simp only [List.mem_cons, forall_eq_or_imp]
    exact ⟨hr, hrs⟩

theorem frees_compileMatchBody {body : Operand} {scrut : Reg} {bindings : List String} (hb : Frugal body) :
    FreesTaken (compileMatchBody body dst scrut bindings) := by
  simp only [FreesTaken, compileMatchBody, gives_bind, gives_pushScope, gives_popScope]
  refine Lib.Script.Asks.mono gives_bindPayloads fun rs hrs => ?_
  refine (hb dst).then fun _ => ?_
  exact gives_freeAll (fun r hr => hrs r (List.mem_reverse.mp hr)) trivial

theorem frees_compileArms {shape : Option EnumShape} {scrut tag : Reg} {arms : List (MatchPattern × Operand)}
    (h : ∀ arm ∈ arms, Frugal arm.2) : FreesTaken (compileArms shape dst scrut tag arms) := by
  induction arms with
  | nil => exact (gives_pure _).mpr trivial
  | cons arm arms ih =>
    obtain ⟨pattern, body⟩ := arm
    have hbody : Frugal body := h _ List.mem_cons_self
    have hrest := ih fun arm harm => h arm (List.mem_cons_of_mem _ harm)
    cases pattern with
    | wildcard =>
      simp only [FreesTaken, compileArms, gives_bind, gives_pushJump, gives_pure]
      exact (frees_compileMatchBody hbody).then fun _ _ => trivial
    | enumVariant enumName variant bindings =>
      simp only [FreesTaken, compileArms, gives_bind, gives_alloc, gives_loadConst, gives_push, gives_free,
        gives_pushJump, gives_here, gives_patch, gives_pure]
      refine gives_expect fun idx r hr r' hr' => ⟨hr, fun skip => ⟨hr', ?_⟩⟩
      exact (frees_compileMatchBody hbody).then fun _ exit pos => hrest.then fun _ => trivial

theorem frees_compileMatch {scrut : Operand} {arms : List (MatchPattern × Operand)} (hs : Frugal scrut)
    (h : ∀ arm ∈ arms, Frugal arm.2) : FreesTaken (compileMatch env scrut arms dst) := by
  simp only [FreesTaken, compileMatch, shapeOfArms, gives_bind, gives_alloc, gives_push, gives_here, gives_patchAll,
    gives_free]
  intro r hr
  refine (hs r).then fun _ tag htag => ?_
  have hrest : ∀ shape, Gives (compileArms shape dst r tag arms) fun _ => ∀ n : ℕ, Taken tag ∧ Taken r ∧ True :=
    fun shape => (frees_compileArms h).then fun _ _ => ⟨htag, hr, trivial⟩
  split
  · exact hrest none
  · exact gives_bind.mpr (gives_expect fun shape => hrest (some shape))

theorem frees_prefetch {arr : Reg} {targets : List String} : FreesTaken (prefetch env arr targets) := by
  unfold FreesTaken
  induction targets with
  | nil => simp [prefetch]
  | cons name names ih =>
    unfold prefetch
    split <;> simpa using ih

theorem frees_arrayLoop {iter : Operand} {targets : List String} {var : String} {body : Low (List ℕ)}
    (hi : Frugal iter) (hb : FreesTaken body) : FreesTaken (arrayLoop env iter targets var body) := by
  simp only [FreesTaken, arrayLoop, gives_bind, gives_alloc, gives_push, gives_loadConst, gives_pushScope,
    gives_bindLocal, gives_here, gives_pushJump, gives_free, gives_pushBack, gives_patch, gives_patchAll, gives_popScope]
  intro arr harr
  refine (hi arr).then fun _ => frees_prefetch.then fun _ => ?_
  intro len hlen counter hcounter one hone varReg hvar start check hcheck exit
  refine ⟨hcheck, hb.then fun breaks finish => gives_freeAll (fun r hr => ?_) trivial⟩
  simp only [List.mem_cons, List.not_mem_nil, or_false] at hr
  rcases hr with rfl | rfl | rfl | rfl | rfl <;> assumption

theorem frees_vecLoop {idx : ℕ} {var : String} {body : Low (List ℕ)} (hb : FreesTaken body) :
    FreesTaken (vecLoop idx var body) := by
  simp only [FreesTaken, vecLoop, gives_bind, gives_alloc, gives_push, gives_loadConst, gives_pushScope,
    gives_bindLocal, gives_here, gives_pushJump, gives_free, gives_pushBack, gives_patch, gives_patchAll, gives_popScope]
  intro len hlen counter hcounter varReg hvar start check hcheck exit
  refine ⟨hcheck, hb.then fun breaks finish => gives_freeAll (fun r hr => ?_) trivial⟩
  simp only [List.mem_cons, List.not_mem_nil, or_false] at hr
  rcases hr with rfl | rfl | rfl <;> assumption

theorem frees_cursorLoop {init : Reg → Instr} {next : Reg → Reg → Instr} {var : String} {body : Low (List ℕ)}
    (hb : FreesTaken body) : FreesTaken (cursorLoop init next var body) := by
  simp only [FreesTaken, cursorLoop, gives_bind, gives_alloc, gives_push, gives_pushScope, gives_bindLocal, gives_here,
    gives_pushJump, gives_pushBack, gives_patch, gives_patchAll, gives_popScope]
  intro cursor hcursor varReg hvar start exit
  refine hb.then fun breaks finish => gives_freeAll (fun r hr => ?_) trivial
  simp only [List.mem_cons, List.not_mem_nil, or_false] at hr
  rcases hr with rfl | rfl <;> assumption

theorem frees_loopOver {iterExpr : Expr} {iter : Operand} {targets : List String} {var : String}
    {body : Low (List ℕ)} (hi : Frugal iter) (hb : FreesTaken body) :
    FreesTaken (loopOver env iterExpr iter targets var body) := by
  simp only [FreesTaken, loopOver, gives_bind]
  refine gives_stateOfTarget fun o => ?_
  split
  · exact frees_vecLoop hb
  · exact frees_cursorLoop hb
  · exact frees_cursorLoop hb
  · exact frees_arrayLoop hi hb

theorem frees_emitLimitCheck {limit : Option (Reg × Reg)} : FreesTaken (emitLimitCheck limit) := by
  cases limit with
  | none => exact (gives_pure _).mpr trivial
  | some regs =>
    simp only [FreesTaken, emitLimitCheck, gives_bind, gives_alloc, gives_loadConst, gives_push, gives_pushJump,
      gives_free, gives_pure]
    intro bound hbound check hcheck exit
    exact ⟨hcheck, hbound, trivial⟩

theorem gives_popLoop {Q : LoopFrame → Prop} (h : ∀ frame, Q frame) : Gives popLoop Q := by
  simp only [popLoop, gives_bind, gives_context, gives_change, gives_pure]
  exact fun c => gives_expect h

theorem frees_forBody {limit : Option (Reg × Reg)} {block : Low Unit} (hb : FreesTaken block) :
    FreesTaken (forBody limit block) := by
  simp only [FreesTaken, forBody, pushLoop, gives_bind, gives_change, gives_here, gives_patchAll, gives_pure]
  refine frees_emitLimitCheck.then fun check => hb.then fun _ => gives_popLoop fun frame _ => trivial

theorem frees_limitRegs {limit : Option Operand} (h : ∀ o ∈ limit, Frugal o) : FreesTaken (limitRegs limit) := by
  cases limit with
  | none => exact (gives_pure _).mpr trivial
  | some limit =>
    simp only [FreesTaken, limitRegs, gives_bind, gives_alloc, gives_loadConst, gives_pure]
    intro r _
    exact (h limit rfl r).then fun _ _ _ => trivial

theorem frees_compileFor {var : String} {iterExpr : Expr} {iter : Operand} {limit : Option Operand} {body : Block}
    {block : Low Unit} (hi : Frugal iter) (hl : ∀ o ∈ limit, Frugal o) (hb : FreesTaken block) :
    FreesTaken (compileFor env var iterExpr iter limit body block) := by
  simp only [FreesTaken, compileFor, gives_bind]
  exact (frees_limitRegs hl).then fun regs => frees_loopOver hi (frees_forBody hb)

theorem frees_compileForRange {var : String} {first last : Operand} {inclusive : Bool} {block : Low Unit}
    (hf : Frugal first) (hl : Frugal last) (hb : FreesTaken block) :
    FreesTaken (compileForRange var first last inclusive block) := by
  simp only [FreesTaken, compileForRange, gives_bind, gives_alloc, gives_push, gives_pushScope, gives_bindLocal,
    gives_here, gives_pushJump, gives_free, gives_pushBack, gives_patch, gives_patchAll, gives_popScope]
  intro counter hcounter
  refine (hf counter).then fun _ limit hlimit => (hl limit).then fun _ start check hcheck exit => ?_
  exact ⟨hcheck, (frees_forBody hb).then fun breaks finish => ⟨hlimit, hcounter, trivial⟩⟩

theorem frees_compileWhile {cond : Operand} {block : Low Unit} (hc : Frugal cond) (hb : FreesTaken block) :
    FreesTaken (compileWhile cond block) := by
  simp only [FreesTaken, compileWhile, pushLoop, gives_bind, gives_alloc, gives_here, gives_pushJump, gives_free,
    gives_change, gives_pushBack, gives_patch, gives_patchAll]
  intro start r hr
  refine (hc r).then fun _ exit => ⟨hr, hb.then fun _ => gives_popLoop fun frame finish => trivial⟩

theorem frees_compileFilter {cond : Operand} {rest : Low Unit} (hc : Frugal cond) (hr : FreesTaken rest) :
    FreesTaken (compileFilter cond rest) := by
  simp only [FreesTaken, compileFilter, gives_bind, gives_alloc, gives_pushJump, gives_free, gives_here, gives_patch]
  intro r hreg
  exact (hc r).then fun _ skip => ⟨hreg, hr.then fun _ _ => trivial⟩

theorem frees_clauseBody {rest : Low Unit} (hr : FreesTaken rest) : FreesTaken (clauseBody rest) := by
  simp only [FreesTaken, clauseBody, gives_bind, gives_pure]
  exact hr.then fun _ => trivial

theorem frees_setInsert {mapper : Operand} (hm : Frugal mapper) : FreesTaken (setInsert mapper dst) := by
  refine frees_viaReg hm fun elem _ => ?_
  simp only [FreesTaken, gives_bind, gives_alloc, gives_push, gives_callBuiltin, gives_free]
  exact fun base hbase arg harg => ⟨harg, hbase, trivial⟩

theorem frees_dictSet {key value : Operand} (hk : Frugal key) (hv : Frugal value) :
    FreesTaken (dictSet key value dst) := by
  simp only [FreesTaken, dictSet, gives_bind, gives_alloc, gives_push, gives_callBuiltin, gives_free]
  intro base hbase r hr
  refine (hk r).then fun _ r' hr' => (hv r').then fun _ => ?_
  exact ⟨hr', hr, hbase, trivial⟩

/-! ### Index keys -/

/-- The register of a path is a fresh one, or the one the path starts from. -/
theorem gives_emitFieldPathFrom {owned : Option Reg} {path : List String} {cur : Reg} (ho : ∀ r ∈ owned, Taken r)
    (hc : Taken cur) : Gives (emitFieldPathFrom owned path cur) Taken := by
  induction path generalizing owned cur with
  | nil => exact (gives_pure _).mpr hc
  | cons field path ih =>
    simp only [emitFieldPathFrom, gives_bind, gives_constIdx, gives_alloc, gives_push]
    intro idx next hnext
    have hrest : Gives (emitFieldPathFrom (some next) path next) Taken :=
      ih (fun r hr => Option.some.inj hr ▸ hnext) hnext
    cases owned with
    | none => exact hrest
    | some prev => exact gives_free.mpr ⟨ho prev rfl, hrest⟩

theorem gives_emitFieldPath {path : List String} {r : Reg} (hr : Taken r) : Gives (emitFieldPath path r) Taken :=
  gives_emitFieldPathFrom (fun _ h => by cases h) hr

theorem gives_concatParts {name : ℕ} {prev part : Reg} (hprev : Taken prev) (hpart : Taken part) :
    Gives (concatParts name prev part) Taken := by
  simp only [concatParts, gives_bind, gives_alloc, gives_push, gives_free, gives_pure]
  exact fun args hargs arg harg => ⟨hprev, hpart, harg, hargs⟩

theorem gives_packFields {toBe bitNot concat : ℕ} {valueReg : Reg} {fields : List IndexField} {packed : Option Reg}
    (hr : Taken valueReg) (hp : ∀ r ∈ packed, Taken r) :
    Gives (packFields toBe bitNot concat valueReg fields packed) fun o => ∀ r ∈ o, Taken r := by
  induction fields generalizing packed with
  | nil => exact (gives_pure _).mpr hp
  | cons f fields ih =>
    have hrest : ∀ r, Taken r →
        Gives (packFields toBe bitNot concat valueReg fields (some r)) fun o => ∀ r ∈ o, Taken r :=
      fun r hr => ih fun r' hr' => Option.some.inj hr' ▸ hr
    cases packed with
    | none =>
      simp only [packFields, gives_bind, gives_alloc, gives_push, gives_free]
      refine Lib.Script.Asks.mono (gives_emitFieldPath hr) fun projected hprojected part hpart => ⟨hprojected, ?_⟩
      have hlast : Gives (do
          let p ← pure part
          packFields toBe bitNot concat valueReg fields (some p)) fun o => ∀ r ∈ o, Taken r :=
        gives_bind.mpr (hrest part hpart)
      split
      · exact gives_bind.mpr (gives_push.mpr hlast)
      · exact hlast
    | some prev =>
      simp only [packFields, gives_bind, gives_alloc, gives_push, gives_free]
      refine Lib.Script.Asks.mono (gives_emitFieldPath hr) fun projected hprojected part hpart => ⟨hprojected, ?_⟩
      have hlast : Gives (do
          let p ← concatParts concat prev part
          packFields toBe bitNot concat valueReg fields (some p)) fun o => ∀ r ∈ o, Taken r :=
        gives_bind.mpr (Lib.Script.Asks.mono (gives_concatParts (hp prev rfl) hpart) hrest)
      split
      · exact gives_bind.mpr (gives_push.mpr hlast)
      · exact hlast

theorem gives_emitIndexKey {idx : IndexDecl} {r : Reg} (hr : Taken r) : Gives (emitIndexKey idx r) Taken := by
  unfold emitIndexKey
  split
  · exact gives_emitFieldPath hr
  · simp only [gives_bind, gives_constIdx]
    intro a b c
    refine Lib.Script.Asks.mono (gives_packFields hr fun _ h => by cases h) fun o ho => ?_
    cases o with
    | none => exact gives_fail _
    | some key => exact ho key rfl

theorem frees_maintain {instr : ℕ → Reg → Reg → IndexKind → Bool → Instr} {valueReg keyReg : Reg}
    {idxs : List IndexDecl} (hr : Taken valueReg) : FreesTaken (maintain env instr valueReg keyReg idxs) := by
  induction idxs with
  | nil => exact (gives_pure _).mpr trivial
  | cons idx idxs ih =>
    simp only [FreesTaken, maintain, gives_bind, gives_push, gives_free]
    refine Lib.Script.Asks.mono (gives_emitIndexKey hr) fun cur hcur => ?_
    exact gives_expect fun stateIdx => gives_expect fun ty => ⟨hcur, ih⟩

/-! ### Statements -/

theorem frees_assignIdent {name : String} {r : Reg} : FreesTaken (assignIdent env name r) := by
  simp only [FreesTaken, assignIdent, gives_bind, gives_context]
  intro c
  split
  · split <;> simp
  · simp only [gives_bind]
    exact gives_expect fun idx => gives_push.mpr trivial

theorem frees_assignIndex {target : Expr} {key : Operand} {r : Reg} (hk : Frugal key) (hr : Taken r) :
    FreesTaken (assignIndex env target key r) := by
  unfold FreesTaken assignIndex
  split
  · simp only [gives_bind]
    refine gives_expect fun idx => gives_expect fun ty => ?_
    split
    · exact gives_fail _
    · refine frees_viaReg hk fun keyReg _ => ?_
      simp only [FreesTaken, gives_bind, gives_push]
      split
      · exact frees_maintain hr
      · simp
  · exact gives_fail _

theorem gives_allocAll {n : ℕ} : Gives (allocAll n) fun rs => ∀ r ∈ rs, Taken r := by
  induction n with
  | zero => simp [allocAll]
  | succ n ih =>
    simp only [allocAll, gives_bind, gives_alloc, gives_pure]
    intro r hr
    refine Lib.Script.Asks.mono ih fun rs hrs => ?_
    simp only [List.mem_cons, forall_eq_or_imp]
    exact ⟨hr, hrs⟩

theorem frees_descend {regs : List Reg} {chain : List String} : FreesTaken (descend regs chain) := by
  unfold FreesTaken
  fun_induction descend regs chain <;> simp_all

theorem frees_ascend {regs : List Reg} {chain : List String} : FreesTaken (ascend regs chain) := by
  unfold FreesTaken
  fun_induction ascend regs chain with
  | case1 r r' regs name chain ih =>
    simp only [gives_bind, gives_constIdx, gives_push]
    exact FreesTaken.then ih fun _ _ => trivial
  | case2 => simp

theorem frees_writeGroup {pathIdx : ℕ} {chain : List String} {r : Reg} : FreesTaken (writeGroup pathIdx chain r) := by
  simp only [FreesTaken, writeGroup, gives_bind, gives_push, gives_constIdx]
  refine Lib.Script.Asks.mono gives_allocAll fun tmps htmps => ?_
  refine frees_descend.then fun _ _ => frees_ascend.then fun _ => ?_
  exact gives_freeAll (fun r hr => htmps r (List.mem_reverse.mp hr)) trivial

theorem frees_assignField {inner : Expr} {operand : Operand} {assignInner : Reg → Low Unit} {name : String} {r : Reg}
    (ho : Frugal operand) (ha : ∀ tmp, Taken tmp → FreesTaken (assignInner tmp)) :
    FreesTaken (assignField env inner operand assignInner name r) := by
  simp only [FreesTaken, assignField, gives_bind, gives_context]
  intro c
  split
  · simp only [gives_bind, gives_internPath]
    intro p
    split
    · simp
    · exact frees_writeGroup
  · refine frees_viaReg ho fun tmp htmp => ?_
    simp only [FreesTaken, gives_bind, gives_constIdx, gives_push]
    exact fun _ => ha tmp htmp

theorem frees_compileDelete {target : Expr} {key : Operand} (hk : Frugal key) :
    FreesTaken (compileDelete env target key) := by
  unfold FreesTaken compileDelete
  split
  · simp only [gives_bind]
    refine gives_expect fun idx => gives_expect fun ty => ?_
    split
    · exact gives_fail _
    · refine frees_viaReg hk fun keyReg _ => ?_
      simp only [FreesTaken, gives_bind, gives_alloc, gives_push, gives_free]
      intro prior hprior
      exact (frees_maintain hprior).then fun _ => ⟨hprior, trivial⟩
  · exact gives_fail _

theorem frees_compileLet {name : String} {value : Operand} (hv : Frugal value) : FreesTaken (compileLet name value) := by
  simp only [FreesTaken, compileLet, gives_bind, gives_alloc, gives_bindLocal, gives_pure]
  intro r _
  exact (hv r).then fun _ => trivial

theorem frees_compileBreak : FreesTaken compileBreak := by
  simp only [FreesTaken, compileBreak, onLoop, gives_bind, gives_context]
  intro c
  split <;> simp

theorem frees_compileContinue : FreesTaken compileContinue := by
  simp only [FreesTaken, compileContinue, onLoop, gives_bind, gives_context]
  intro c
  split
  · simp
  · simp only [gives_bind, gives_context]
    intro c'
    split <;> simp

theorem frees_bindElems {tuple : Reg} {i : ℕ} {names : List String} : FreesTaken (bindElems tuple i names) := by
  unfold FreesTaken
  induction names generalizing i with
  | nil => simp [bindElems]
  | cons name names ih =>
    simp only [bindElems, gives_bind, gives_alloc, gives_push, gives_bindLocal]
    exact fun _ _ => ih

theorem frees_compileLetTuple {names : List String} {value : Operand} (hv : Frugal value) :
    FreesTaken (compileLetTuple names value) := by
  simp only [FreesTaken, compileLetTuple, gives_bind, gives_alloc]
  intro r _
  exact (hv r).then fun _ => frees_bindElems

theorem frees_compileLeg {leg : Low (Option Reg)} (hl : FreesTaken leg) : FreesTaken (compileLeg leg) := by
  simp only [FreesTaken, compileLeg, gives_bind, gives_here, gives_push, gives_pure]
  exact fun _ => hl.then fun _ _ => trivial

theorem frees_compileParallel {legs : Low (List ParallelRange)} (hl : FreesTaken legs) :
    FreesTaken (compileParallel legs) := by
  simp only [FreesTaken, compileParallel, gives_bind, gives_here, gives_push, gives_fill]
  exact fun _ => hl.then fun _ _ => trivial

theorem frees_compileParallelFor {idVar : String} {idxVar : Option String} {source : Operand} {output : Expr}
    {body : Operand} (hs : Frugal source) (hb : Frugal body) :
    FreesTaken (compileParallelFor idVar idxVar source output body) := by
  simp only [FreesTaken, compileParallelFor, enterParallelFor, leaveParallelFor, gives_bind, gives_alloc,
    gives_pushScope, gives_bindLocal]
  intro r _
  refine (hs r).then fun _ => ?_
  have hout : ∀ Q : Reg → Prop, (∀ out, Q out) → Gives (outputReg output) Q := by
    intro Q hQ
    unfold outputReg
    split
    · simp only [gives_bind, gives_context]
      exact fun c => gives_expect hQ
    · exact gives_fail _
  refine hout _ fun out id _ idx _ => ?_
  split <;> simp only [gives_bind, gives_bindLocal, gives_here, gives_push, gives_alloc, gives_change,
    gives_popScope, gives_fill] <;> exact fun pos start tail _ => (hb tail).then fun _ _ _ => trivial

theorem frees_inBlock {stmts tail : Low Unit} (hs : FreesTaken stmts) (ht : FreesTaken tail) :
    FreesTaken (inBlock stmts tail) := by
  simp only [FreesTaken, inBlock, gives_bind, gives_pushScope, gives_nextReg, gives_popScope, gives_restore]
  exact fun _ => hs.then fun _ => ht.then fun _ => trivial

end Control

end Rend.Compile
