import Rend.Compile.Sound

/-!
# The forms keep the limits

Every form of an expression, of a branch or loop and of a statement keeps the limits of its function, when its
operands do.
-/

namespace Rend.Compile

open Ast Index

variable {env : Env} {L : Limits env} {floor : ℕ} {dst : Reg}

/-- What the lowering inlines keeps the limits: constants at their use, default values. -/
structure Inlines (L : Limits env) (inline : Expr → Operand) : Prop where
  const : ∀ {name value}, env.moduleConsts name = some value → Good L (inline value)
  default : ∀ {ty value}, defaultExprForType env ty = .ok value → Good L (inline value)

/-! ### Names and fields -/

section Names

variable {inline : Expr → Operand}

theorem sound_move {src : Reg} (hdst : L.demands.writes dst) (hsrc : L.demands.reads src) :
    Sound L floor (if src ≠ dst then push (.move dst src) else pure ()) fun _ => True := by
  split
  · exact sound_push ⟨hdst, hsrc⟩ fun _ _ => trivial
  · exact sound_done

theorem good_compileIdent (hin : Inlines L inline) (name : String) : Good L (compileIdent env inline name) := by
  intro floor r hr
  refine sound_context.bind fun c hc => ?_
  split
  · next hlocal => exact sound_move hr (hc.local hlocal).1
  · split
    · next hstate => exact sound_push ⟨hr, L.state hstate⟩ fun _ _ => trivial
    · split
      · next hconst => exact hin.const hconst floor r hr
      · exact sound_fail _

theorem good_compilePrev : Good L compilePrev := by
  intro floor r hr
  refine sound_context.bind fun c hc => sound_expect.bind fun src hsrc => ?_
  exact sound_move hr (hc.pipe hsrc)

theorem sound_compilePipe {head step : Operand} (hh : Good L head) (hs : Good L step) (hdst : L.demands.writes dst) :
    Sound L floor (compilePipe head step dst) fun _ => True := by
  refine sound_viaReg hh fun stash hstash => ?_
  exact (sound_pushPipe hstash.reads).next ((hs floor dst hdst).next sound_popPipe)

theorem sound_fieldGet {src : Reg} {name : String} (hdst : L.demands.writes dst) (hsrc : L.demands.reads src) :
    Sound L floor (do
      let nameIdx ← constIdx (.str name)
      push (.fieldGet dst src nameIdx)) fun _ => True :=
  sound_constIdx.bind fun _ hc => sound_push ⟨hdst, hsrc, hc⟩ fun _ _ => trivial

theorem sound_fieldGets {tmp : Reg} {chain : List String} (htmp : L.demands.writes tmp) (hdst : L.demands.writes dst) :
    Sound L floor (fieldGets tmp dst chain) fun _ => True := by
  fun_induction fieldGets tmp dst chain with
  | case1 => exact sound_done
  | case2 name => exact sound_fieldGet hdst (L.writes_reads htmp)
  | case3 name chain _ ih =>
    refine sound_constIdx.bind fun _ hc => ?_
    exact Sound.next (sound_push ⟨htmp, L.writes_reads htmp, hc⟩ fun _ _ => trivial) ih

theorem sound_compileField {target : Expr} {operand : Operand} (ho : Good L operand) (name : String)
    (hdst : L.demands.writes dst) : Sound L floor (compileField env target operand name dst) fun _ => True := by
  refine sound_context.bind fun c _ => ?_
  split
  · refine sound_internPath.bind fun p hp => ?_
    obtain ⟨pathIdx, chain⟩ := p
    dsimp only
    split
    · exact sound_push ⟨hdst, hp⟩ fun _ _ => trivial
    · refine sound_alloc.bind fun tmp htmp => Sound.next (sound_push ⟨htmp.writes, hp⟩ fun _ _ => trivial) ?_
      exact (sound_fieldGets htmp.writes hdst).next (sound_free htmp)
  · exact sound_viaReg ho fun src hsrc => sound_fieldGet hdst hsrc.reads

theorem sound_stateOf {name : String} : Sound L floor (stateOf env name) fun o => ∀ p ∈ o, L.demands.state p.1 := by
  unfold stateOf
  split
  · exact sound_pure fun p hp => by cases hp
  · next hstate =>
    refine sound_expect.bind fun ty _ => sound_pure fun p hp => ?_
    cases hp
    exact L.state hstate

theorem sound_stateOfTarget {target : Expr} :
    Sound L floor (stateOfTarget env target) fun o => ∀ p ∈ o, L.demands.state p.1 := by
  unfold stateOfTarget
  split
  · exact sound_stateOf
  · exact sound_pure fun p hp => by cases hp

theorem meets_stateGet {stateIdx : ℕ} {keyReg : Reg} (ty : Ty) (hdst : L.demands.writes dst)
    (hstate : L.demands.state stateIdx) (hkey : L.demands.reads keyReg) :
    (stateGet dst stateIdx keyReg ty).Meets L.demands ∧
      ∀ size pos, (stateGet dst stateIdx keyReg ty).Lands size pos := by
  unfold stateGet
  split <;> exact ⟨⟨hdst, hstate, hkey⟩, fun _ _ => trivial⟩

theorem sound_compileIndex {target : Expr} {operand key : Operand} (ho : Good L operand) (hk : Good L key)
    (hdst : L.demands.writes dst) : Sound L floor (compileIndex env target operand key dst) fun _ => True := by
  refine sound_stateOfTarget.bind fun o hstate => ?_
  split
  · next stateIdx ty hfilter =>
    have hidx := hstate _ (Option.filter_eq_some_iff.mp hfilter).1
    refine sound_viaReg hk fun keyReg hkey => ?_
    obtain ⟨hmeets, hlands⟩ := meets_stateGet ty hdst hidx hkey.reads
    exact sound_push hmeets fun pos _ => hlands _ pos
  · exact sound_viaRegs ho hk fun arr idx harr hidx => sound_push ⟨hdst, harr.reads, hidx.reads⟩ fun _ _ => trivial

end Names

/-! ### Aggregates -/

section Aggregates

variable {inline : Expr → Operand}

theorem sound_compileArrayAlloc {elemTy : Ty} {len : Operand} (hin : Inlines L inline) (hl : Good L len)
    (hdst : L.demands.writes dst) : Sound L floor (compileArrayAlloc env inline elemTy len dst) fun _ => True := by
  refine sound_alloc.bind fun lenReg hlen => (hl floor lenReg hlen.writes).next ?_
  refine sound_alloc.bind fun defaultReg hdefault => ?_
  split
  · exact (sound_fail (Q := fun _ => True) _).next (sound_push ⟨hdst, hlen.reads, hdefault.reads⟩ fun _ _ => trivial)
  · next hvalue =>
    refine (hin.default hvalue floor defaultReg hdefault.writes).next ?_
    exact sound_push ⟨hdst, hlen.reads, hdefault.reads⟩ fun _ _ => trivial

theorem sound_compileReserve {count : Operand} {state : String} (hc : Good L count) (hdst : L.demands.writes dst) :
    Sound L floor (compileReserve env count state dst) fun _ => True := by
  refine sound_alloc.bind fun countReg hcount => (hc floor countReg hcount.writes).next ?_
  exact sound_expect.bind fun idx hidx => sound_push ⟨hdst, L.state hidx, hcount.reads⟩ fun _ _ => trivial

theorem length_structOperands {name : String} {fields : List (String × Operand)} {declared : List String} :
    (structOperands name fields declared).length = declared.length :=
  List.length_map _

theorem sound_compileStruct {name : String} {fields : List (String × Operand)} (h : ∀ p ∈ fields, Good L p.2)
    (hdst : L.demands.writes dst) : Sound L floor (compileStruct env name fields dst) fun _ => True := by
  refine sound_expect.bind fun idx hidx => sound_expect.bind fun shape hshape => ?_
  refine sound_viaWindow (fun o ho => ?_) fun floor first hwindow => ?_
  · obtain ⟨field, -, rfl⟩ := List.mem_map.mp ho
    split
    · next operand hop =>
      obtain ⟨l₁, l₂, heq, -⟩ := List.lookup_eq_some_iff.mp hop
      exact h (field, operand) (by rw [heq]; simp)
    · exact fun floor r _ => sound_fail _
  · rw [length_structOperands] at hwindow
    exact sound_push ⟨hdst, L.struct hidx hshape, hwindow⟩ fun _ _ => trivial

theorem sound_compileEnum {enumName variant : String} {args : List Operand} (h : ∀ o ∈ args, Good L o)
    (hdst : L.demands.writes dst) : Sound L floor (compileEnum env enumName variant args dst) fun _ => True := by
  refine sound_expect.bind fun idx hidx => sound_expect.bind fun shape hshape => ?_
  refine sound_expect.bind fun variantIdx hvariant => sound_viaWindow h fun floor first hwindow => ?_
  obtain ⟨hlt, -⟩ := List.findIdx?_eq_some_iff_getElem.mp hvariant
  exact sound_push ⟨hdst, L.variant hidx hshape hlt, hwindow⟩ fun _ _ => trivial

end Aggregates

/-! ### Calls -/

section Calls

variable {inline : Expr → Operand} {operands : List Operand}

theorem good_operandAt (h : ∀ o ∈ operands, Good L o) (i : ℕ) : Good L (operandAt operands i) := by
  intro floor r hr
  unfold operandAt
  split
  · next o ho => exact h o (List.mem_of_getElem? ho) floor r hr
  · exact sound_fail _

theorem sound_stateArg {e : String} {args : List Expr} : Sound L floor (stateArg env e args) L.demands.state := by
  unfold stateArg
  split
  · exact sound_expect.mono fun idx hidx => L.state hidx
  · exact sound_fail _

theorem sound_stateBuiltin {name : String} {args : List Expr} (h : ∀ o ∈ operands, Good L o)
    (hdst : L.demands.writes dst) {call : Low Unit}
    (hcall : stateBuiltin env name args operands dst = some call) : Sound L floor call fun _ => True := by
  have hat := good_operandAt h
  unfold stateBuiltin at hcall
  split at hcall <;> cases hcall <;> refine sound_stateArg.bind fun idx hidx => ?_
  case h_1 | h_3 | h_5 =>
    exact sound_viaReg (hat 1) fun r hr => sound_push ⟨hdst, hidx, hr.reads⟩ fun _ _ => trivial
  case h_4 =>
    refine sound_viaRegs (hat 1) (hat 2) fun lo hi hlo hhi => ?_
    exact sound_push ⟨hdst, hidx, hlo.reads, hhi.reads⟩ fun _ _ => trivial
  all_goals exact sound_push ⟨hdst, hidx⟩ fun _ _ => trivial

theorem meets_unaryBuiltin {name : String} {instr : Reg → Reg → Instr} (hinstr : unaryBuiltin name = some instr)
    {src : Reg} (hdst : L.demands.writes dst) (hsrc : L.demands.reads src) :
    (instr dst src).Meets L.demands ∧ ∀ size pos, (instr dst src).Lands size pos := by
  unfold unaryBuiltin at hinstr
  split at hinstr <;> cases hinstr <;> exact ⟨⟨hdst, hsrc⟩, fun _ _ => trivial⟩

theorem sound_finishCall {module : Option String} {name : String} {n : ℕ} {first : Reg} (hdst : L.demands.writes dst)
    (hwindow : L.demands.window first n) : Sound L floor (finishCall env module name n dst first) fun _ => True := by
  unfold finishCall
  split
  · split
    · next hbind =>
      refine sound_constIdx.bind fun _ hc => sound_push ⟨hdst, hc, ?_⟩ fun _ _ => trivial
      exact L.window_reads (i := 0) hwindow (by omega)
    · refine sound_constIdx.bind fun _ hc => sound_constIdx.bind fun _ hc' => ?_
      exact sound_push ⟨hdst, hc, hc', hwindow⟩ fun _ _ => trivial
  · split
    · next hidx => exact sound_push ⟨hdst, L.import hidx, hwindow⟩ fun _ _ => trivial
    · exact sound_expect.bind fun idx hidx => sound_push ⟨hdst, L.fn hidx, hwindow⟩ fun _ _ => trivial

theorem sound_compileCall {module : Option String} {name : String} {args : List Expr} (h : ∀ o ∈ operands, Good L o)
    (hdst : L.demands.writes dst) :
    Sound L floor (compileCall env module name args operands dst) fun _ => True := by
  have hat := good_operandAt h
  unfold compileCall
  split
  · next hunary =>
    refine sound_viaReg (hat 0) fun src hsrc => ?_
    obtain ⟨hmeets, hlands⟩ := meets_unaryBuiltin (Option.filter_eq_some_iff.mp hunary).1 hdst hsrc.reads
    exact sound_push hmeets fun pos _ => hlands _ pos
  · split
    · next hcall => exact sound_stateBuiltin h hdst hcall
    · split_ifs
      · exact sound_viaWindow h fun floor first hwindow => sound_callBuiltin hdst hwindow
      · split
        · exact sound_push hdst fun _ _ => trivial
        · split
          · exact sound_viaReg (hat 0) fun src hsrc => sound_push ⟨hdst, hsrc.reads⟩ fun _ _ => trivial
          · exact sound_viaWindow h fun floor first hwindow => sound_finishCall hdst hwindow

theorem sound_compileDynCall {targetIdent method : String} {isView isPure : Bool} (hin : Inlines L inline)
    (h : ∀ o ∈ operands, Good L o) (hdst : L.demands.writes dst) :
    Sound L floor (compileDynCall env inline targetIdent method operands isView isPure dst) fun _ => True := by
  refine sound_viaReg (good_compileIdent hin targetIdent) fun target htarget => ?_
  refine sound_viaWindow h fun floor first hwindow => sound_constIdx.bind fun _ hc => ?_
  exact sound_push ⟨hdst, htarget.reads, hc, hwindow⟩ fun _ _ => trivial

end Calls

end Rend.Compile
