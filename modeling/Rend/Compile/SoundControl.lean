import Rend.Compile.SoundForms

/-!
# Branches, loops and statements keep the limits

The forms that jump, and those of statements. A jump waits for its offset at a place in the code and gets one
that leads to a place in the code. A register that is assigned to is one of a name that is assigned to.
-/

namespace Rend.Compile

open Ast Index Lib

variable {env : Env} {L : Limits env} {floor : ℕ} {dst : Reg}

/-! ### Branches -/

section Branches

theorem sound_branch {cond : Operand} {body orElse : Low Unit} (hc : Good L cond)
    (hb : Sound L floor body fun _ => True) (he : Sound L floor orElse fun _ => True) :
    Sound L floor (branch cond body orElse) fun _ => True := by
  refine sound_alloc.bind fun r hr => (hc floor r hr.writes).next ?_
  refine (sound_jumpIfFalse hr.reads).bind fun skip _ => (sound_free hr).next (hb.next ?_)
  refine sound_jump.bind fun exit _ => sound_here.bind fun pos hpos => (sound_patch hpos).next (he.next ?_)
  exact sound_here.bind fun pos hpos => sound_patch hpos

theorem sound_bindPayloads {scrut : Reg} {i : ℕ} {names : List String} (hs : L.demands.reads scrut) :
    Sound L floor (bindPayloads scrut i names) fun rs => ∀ r ∈ rs, Owned L floor r := by
  induction names generalizing i with
  | nil => exact sound_pure fun r hr => absurd hr List.not_mem_nil
  | cons name names ih =>
    refine sound_alloc.bind fun r hr => Sound.next (sound_push ⟨hr.writes, hs⟩ fun _ _ => trivial) ?_
    refine (sound_bindLocal hr.writes).next (ih.bind fun rs hrs => sound_pure ?_)
    exact List.forall_mem_cons.mpr ⟨hr, hrs⟩

theorem sound_compileMatchBody {body : Operand} {scrut : Reg} {bindings : List String} (hb : Good L body)
    (hdst : L.demands.writes dst) (hs : L.demands.reads scrut) :
    Sound L floor (compileMatchBody body dst scrut bindings) fun _ => True := by
  refine sound_pushScope.next ((sound_bindPayloads hs).bind fun rs hrs => ?_)
  refine (hb floor dst hdst).next (sound_popScope.next ?_)
  exact sound_freeAll fun r hr => hrs r (List.mem_reverse.mp hr)

theorem sound_compileArms {shape : Option EnumShape} {scrut tag : Reg} {arms : List (MatchPattern × Operand)}
    (h : ∀ arm ∈ arms, Good L arm.2) (hdst : L.demands.writes dst) (hs : L.demands.reads scrut)
    (ht : L.demands.reads tag) : Sound L floor (compileArms shape dst scrut tag arms) fun _ => True := by
  induction arms with
  | nil => exact sound_pure trivial
  | cons arm arms ih =>
    obtain ⟨hbody, hrest⟩ := List.forall_mem_cons.mp h
    obtain ⟨pattern, body⟩ := arm
    cases pattern with
    | wildcard =>
      exact (sound_compileMatchBody hbody hdst hs).next (sound_jump.bind fun _ _ => sound_pure trivial)
    | enumVariant enumName variant bindings =>
      refine sound_expect.bind fun idx _ => sound_alloc.bind fun constReg hconst => ?_
      refine (sound_loadConst hconst.writes).next (sound_alloc.bind fun cmp hcmp => ?_)
      refine Sound.next (sound_push ⟨hcmp.writes, ht, hconst.reads⟩ fun _ _ => trivial) ?_
      refine (sound_free hconst).next ((sound_jumpIfFalse hcmp.reads).bind fun skip _ => ?_)
      refine (sound_free hcmp).next ((sound_compileMatchBody hbody hdst hs).next ?_)
      refine sound_jump.bind fun exit _ => sound_here.bind fun pos hpos => (sound_patch hpos).next ?_
      exact (ih hrest).bind fun exits _ => sound_pure trivial

theorem sound_shapeOfArms {arms : List (MatchPattern × Operand)} :
    Sound L floor (shapeOfArms env arms) fun _ => True := by
  unfold shapeOfArms
  split
  · exact sound_pure trivial
  · exact sound_expect.bind fun shape _ => sound_pure trivial

theorem sound_compileMatch {scrut : Operand} {arms : List (MatchPattern × Operand)} (hs : Good L scrut)
    (h : ∀ arm ∈ arms, Good L arm.2) (hdst : L.demands.writes dst) :
    Sound L floor (compileMatch env scrut arms dst) fun _ => True := by
  refine sound_alloc.bind fun r hr => (hs floor r hr.writes).next (sound_alloc.bind fun tag htag => ?_)
  refine Sound.next (sound_push ⟨htag.writes, hr.reads⟩ fun _ _ => trivial) (sound_shapeOfArms.bind fun shape _ => ?_)
  refine (sound_compileArms h hdst hr.reads htag.reads).bind fun exits _ => ?_
  refine Sound.next (sound_push trivial fun _ _ => trivial) (sound_here.bind fun pos hpos => ?_)
  exact (sound_patchAll hpos).next ((sound_free htag).next (sound_free hr))

end Branches

/-! ### Loops -/

section Loops

theorem sound_prefetch {arr : Reg} {targets : List String} (harr : L.demands.reads arr) :
    Sound L floor (prefetch env arr targets) fun _ => True := by
  induction targets with
  | nil => exact sound_done
  | cons name names ih =>
    unfold prefetch
    split
    · next hidx => exact Sound.next (sound_push ⟨harr, L.state hidx⟩ fun _ _ => trivial) ih
    · exact sound_done.next ih

variable {var : String} {body : Low (List ℕ)} (hbody : Sound L floor body fun _ => True)

include hbody

theorem sound_arrayLoop {iter : Operand} {targets : List String} (hi : Good L iter) :
    Sound L floor (arrayLoop env iter targets var body) fun _ => True := by
  refine sound_alloc.bind fun arr harr => (hi floor arr harr.writes).next ?_
  refine (sound_prefetch harr.reads).next (sound_alloc.bind fun len hlen => ?_)
  refine Sound.next (sound_push ⟨hlen.writes, harr.reads⟩ fun _ _ => trivial) (sound_alloc.bind fun counter hcounter => ?_)
  refine (sound_loadConst hcounter.writes).next (sound_alloc.bind fun one hone => ?_)
  refine (sound_loadConst hone.writes).next (sound_alloc.bind fun varReg hvar => sound_pushScope.next ?_)
  refine (sound_bindLocal hvar.writes).next (sound_here.bind fun start hstart => ?_)
  refine sound_alloc.bind fun check hcheck => ?_
  refine Sound.next (sound_push ⟨hcheck.writes, hcounter.reads, hlen.reads⟩ fun _ _ => trivial) ?_
  refine (sound_jumpIfFalse hcheck.reads).bind fun exit _ => (sound_free hcheck).next ?_
  refine Sound.next (sound_push ⟨hvar.writes, harr.reads, hcounter.reads⟩ fun _ _ => trivial) ?_
  refine hbody.bind fun breaks _ => ?_
  refine Sound.next (sound_push ⟨hcounter.writes, hcounter.reads, hone.reads⟩ fun _ _ => trivial) ?_
  refine (sound_pushBack hstart).next (sound_here.bind fun finish hfinish => ?_)
  refine (sound_patch hfinish).next ((sound_patchAll hfinish).next (sound_popScope.next ?_))
  refine sound_freeAll fun r hr => ?_
  simp only [List.mem_cons, List.not_mem_nil, or_false] at hr
  rcases hr with rfl | rfl | rfl | rfl | rfl <;> assumption

theorem sound_vecLoop {stateIdx : ℕ} (hstate : L.demands.state stateIdx) :
    Sound L floor (vecLoop stateIdx var body) fun _ => True := by
  refine sound_alloc.bind fun len hlen => Sound.next (sound_push ⟨hlen.writes, hstate⟩ fun _ _ => trivial) ?_
  refine sound_alloc.bind fun counter hcounter => (sound_loadConst hcounter.writes).next ?_
  refine sound_alloc.bind fun varReg hvar => sound_pushScope.next ((sound_bindLocal hvar.writes).next ?_)
  refine sound_here.bind fun start hstart => sound_alloc.bind fun check hcheck => ?_
  refine Sound.next (sound_push ⟨hcheck.writes, hcounter.reads, hlen.reads⟩ fun _ _ => trivial) ?_
  refine (sound_jumpIfFalse hcheck.reads).bind fun exit _ => (sound_free hcheck).next ?_
  refine Sound.next (sound_push ⟨hvar.writes, hstate, hcounter.reads⟩ fun _ _ => trivial) ?_
  refine hbody.bind fun breaks _ => ?_
  refine Sound.next (sound_push ⟨hcounter.writes, hcounter.reads⟩ fun _ _ => trivial) ?_
  refine (sound_pushBack hstart).next (sound_here.bind fun finish hfinish => ?_)
  refine (sound_patch hfinish).next ((sound_patchAll hfinish).next (sound_popScope.next ?_))
  refine sound_freeAll fun r hr => ?_
  simp only [List.mem_cons, List.not_mem_nil, or_false] at hr
  rcases hr with rfl | rfl | rfl <;> assumption

theorem sound_cursorLoop {init : Reg → Instr} {next : Reg → Reg → Instr}
    (hinit : ∀ r, L.demands.writes r → (init r).Meets L.demands ∧ ∀ size pos, (init r).Lands size pos)
    (hnext : ∀ r r', L.demands.writes r → L.demands.writes r' →
      (next r r').Meets L.demands ∧ ∀ pos, pos < L.size → (next r r').Lands L.size pos) :
    Sound L floor (cursorLoop init next var body) fun _ => True := by
  refine sound_alloc.bind fun cursor hcursor => ?_
  obtain ⟨hmeets, hlands⟩ := hinit cursor hcursor.writes
  refine (sound_push hmeets fun pos _ => hlands _ pos).next (sound_alloc.bind fun varReg hvar => ?_)
  refine sound_pushScope.next ((sound_bindLocal hvar.writes).next (sound_here.bind fun start hstart => ?_))
  obtain ⟨hmeets', hlands'⟩ := hnext cursor varReg hcursor.writes hvar.writes
  refine (sound_pushJump hmeets' hlands').bind fun exit _ => hbody.bind fun breaks _ => ?_
  refine (sound_pushBack hstart).next (sound_here.bind fun finish hfinish => ?_)
  refine (sound_patch hfinish).next ((sound_patchAll hfinish).next (sound_popScope.next ?_))
  refine sound_freeAll fun r hr => ?_
  simp only [List.mem_cons, List.not_mem_nil, or_false] at hr
  rcases hr with rfl | rfl <;> assumption

theorem sound_loopOver {iterExpr : Expr} {iter : Operand} {targets : List String} (hi : Good L iter) :
    Sound L floor (loopOver env iterExpr iter targets var body) fun _ => True := by
  refine sound_stateOfTarget.bind fun o hstate => ?_
  split
  · exact sound_vecLoop hbody (hstate _ rfl)
  · refine sound_cursorLoop hbody (fun r hr => ⟨⟨hr, hstate _ rfl⟩, fun _ _ => trivial⟩) fun r r' hr hr' => ?_
    exact ⟨⟨hr, L.writes_reads hr, hr'⟩, fun _ h => within_zero h⟩
  · refine sound_cursorLoop hbody (fun r hr => ⟨⟨hr, hstate _ rfl⟩, fun _ _ => trivial⟩) fun r r' hr hr' => ?_
    exact ⟨⟨hr, L.writes_reads hr, hr'⟩, fun _ h => within_zero h⟩
  · exact sound_arrayLoop hbody hi

end Loops

section Bodies

variable {block : Low Unit}

/-- The registers that `limit` counts down with may be written. -/
def LimitOk (L : Limits env) (limit : Option (Reg × Reg)) : Prop :=
  ∀ regs ∈ limit, L.demands.writes regs.1 ∧ L.demands.writes regs.2

theorem sound_emitLimitCheck {limit : Option (Reg × Reg)} (hl : LimitOk L limit) :
    Sound L floor (emitLimitCheck limit) fun _ => True := by
  cases limit with
  | none => exact sound_pure trivial
  | some regs =>
    obtain ⟨hremaining, hone⟩ := hl regs rfl
    refine sound_alloc.bind fun bound hbound => (sound_loadConst hbound.writes).next ?_
    refine sound_alloc.bind fun check hcheck => ?_
    refine Sound.next (sound_push ⟨hcheck.writes, L.writes_reads hremaining, hbound.reads⟩ fun _ _ => trivial) ?_
    refine (sound_jumpIfFalse hcheck.reads).bind fun exit _ => (sound_free hcheck).next ((sound_free hbound).next ?_)
    refine Sound.next (sound_push ⟨hremaining, L.writes_reads hremaining, L.writes_reads hone⟩ fun _ _ => trivial) ?_
    exact sound_pure trivial

theorem sound_forBody {limit : Option (Reg × Reg)} (hl : LimitOk L limit) (hb : Sound L floor block fun _ => True) :
    Sound L floor (forBody limit block) fun _ => True := by
  refine sound_pushLoop.next ((sound_emitLimitCheck hl).bind fun check _ => hb.next ?_)
  refine sound_popLoop.bind fun frame _ => sound_here.bind fun pos hpos => (sound_patchAll hpos).next ?_
  exact sound_pure trivial

theorem sound_limitRegs {limit : Option Operand} (h : ∀ o ∈ limit, Good L o) :
    Sound L floor (limitRegs limit) (LimitOk L) := by
  cases limit with
  | none => exact sound_pure fun regs hregs => by cases hregs
  | some limit =>
    refine sound_alloc.bind fun remaining hremaining => (h limit rfl floor remaining hremaining.writes).next ?_
    refine sound_alloc.bind fun one hone => (sound_loadConst hone.writes).next (sound_pure fun regs hregs => ?_)
    cases hregs
    exact ⟨hremaining.writes, hone.writes⟩

theorem sound_compileFor {var : String} {iterExpr : Expr} {iter : Operand} {limit : Option Operand} {body : Block}
    (hi : Good L iter) (hl : ∀ o ∈ limit, Good L o) (hb : Sound L floor block fun _ => True) :
    Sound L floor (compileFor env var iterExpr iter limit body block) fun _ => True :=
  (sound_limitRegs hl).bind fun _ hregs => sound_loopOver (sound_forBody hregs hb) hi

theorem sound_compileForRange {var : String} {first last : Operand} {inclusive : Bool} (hf : Good L first)
    (hl : Good L last) (hb : Sound L floor block fun _ => True) :
    Sound L floor (compileForRange var first last inclusive block) fun _ => True := by
  refine sound_alloc.bind fun counter hcounter => (hf floor counter hcounter.writes).next ?_
  refine sound_alloc.bind fun limit hlimit => (hl floor limit hlimit.writes).next (sound_pushScope.next ?_)
  refine (sound_bindLocal hcounter.writes).next (sound_here.bind fun start hstart => ?_)
  refine sound_alloc.bind fun check hcheck => ?_
  refine Sound.next (sound_push ⟨hcheck.writes, hcounter.reads, hlimit.reads⟩ fun _ _ => trivial) ?_
  refine (sound_jumpIfFalse hcheck.reads).bind fun exit _ => (sound_free hcheck).next ?_
  refine (sound_forBody (fun regs hregs => by cases hregs) hb).bind fun breaks _ => ?_
  refine Sound.next (sound_push ⟨hcounter.writes, hcounter.reads⟩ fun _ _ => trivial) ?_
  refine (sound_pushBack hstart).next (sound_here.bind fun finish hfinish => (sound_patch hfinish).next ?_)
  exact (sound_patchAll hfinish).next (sound_popScope.next ((sound_free hlimit).next (sound_free hcounter)))

theorem sound_compileWhile {cond : Operand} (hc : Good L cond) (hb : Sound L floor block fun _ => True) :
    Sound L floor (compileWhile cond block) fun _ => True := by
  refine sound_here.bind fun start hstart => sound_alloc.bind fun r hr => (hc floor r hr.writes).next ?_
  refine (sound_jumpIfFalse hr.reads).bind fun exit _ => (sound_free hr).next (sound_pushLoop.next (hb.next ?_))
  refine sound_popLoop.bind fun frame _ => (sound_pushBack hstart).next ((sound_patchAll hstart).next ?_)
  exact sound_here.bind fun finish hfinish => (sound_patch hfinish).next (sound_patchAll hfinish)

end Bodies

/-! ### Comprehensions -/

section Comprehensions

theorem sound_compileFilter {cond : Operand} {rest : Low Unit} (hc : Good L cond)
    (hr : Sound L floor rest fun _ => True) : Sound L floor (compileFilter cond rest) fun _ => True := by
  refine sound_alloc.bind fun r hreg => (hc floor r hreg.writes).next ?_
  refine (sound_jumpIfFalse hreg.reads).bind fun skip _ => (sound_free hreg).next (hr.next ?_)
  exact sound_here.bind fun pos hpos => sound_patch hpos

theorem sound_clauseBody {rest : Low Unit} (hr : Sound L floor rest fun _ => True) :
    Sound L floor (clauseBody rest) fun _ => True :=
  hr.next (sound_pure trivial)

theorem sound_listAppend {mapper : Operand} (hm : Good L mapper) (hdst : L.demands.writes dst) :
    Sound L floor (listAppend mapper dst) fun _ => True :=
  sound_viaReg hm fun _ helem => sound_push ⟨hdst, L.writes_reads hdst, helem.reads⟩ fun _ _ => trivial

/-- The base and the element of an insertion into a set, in a row. -/
def setRow (elem dst : Reg) : Low (List Reg) := do
  let base ← alloc
  push (.move base dst)
  let arg ← alloc
  push (.move arg elem)
  return [base, arg]

theorem sound_setRow {elem : Reg} (helem : L.demands.reads elem) (hdst : L.demands.writes dst) :
    Sound L floor (setRow elem dst) fun rs => Row L floor rs 2 := by
  refine sound_raise fun base hbase => ?_
  refine Sound.next (sound_push ⟨hbase.writes, L.writes_reads hdst⟩ fun _ _ => trivial) (sound_raise fun arg harg => ?_)
  refine Sound.next (sound_push ⟨harg.writes, helem⟩ fun _ _ => trivial) (sound_pure ?_)
  exact (row_nil.cons harg).cons hbase

theorem setInsert_eq {mapper : Operand} :
    setInsert mapper dst = viaReg mapper fun elem => (do
      let rs ← setRow elem dst
      callBuiltin dst "set_insert" (rs.headD 0) 2
      freeAll rs.reverse) :=
  rfl

theorem sound_setInsert {mapper : Operand} (hm : Good L mapper) (hdst : L.demands.writes dst) :
    Sound L floor (setInsert mapper dst) fun _ => True := by
  rw [setInsert_eq]
  refine sound_viaReg hm fun elem helem => (sound_setRow helem.reads hdst).bind fun rs hrs => ?_
  refine (sound_callBuiltin hdst hrs.window).next (sound_freeAll fun r hr => ?_)
  exact hrs.owned r (List.mem_reverse.mp hr)

/-- The base, the key and the value of an entry of a dictionary, in a row. -/
def dictRow (key value : Operand) (dst : Reg) : Low (List Reg) := do
  let base ← alloc
  push (.move base dst)
  let keyReg ← alloc
  key keyReg
  let valueReg ← alloc
  value valueReg
  return [base, keyReg, valueReg]

theorem sound_dictRow {key value : Operand} (hk : Good L key) (hv : Good L value) (hdst : L.demands.writes dst) :
    Sound L floor (dictRow key value dst) fun rs => Row L floor rs 3 := by
  refine sound_raise fun base hbase => ?_
  refine Sound.next (sound_push ⟨hbase.writes, L.writes_reads hdst⟩ fun _ _ => trivial) ?_
  refine sound_raise fun keyReg hkey => (hk _ keyReg hkey.writes).next (sound_raise fun valueReg hvalue => ?_)
  exact (hv _ valueReg hvalue.writes).next (sound_pure (((row_nil.cons hvalue).cons hkey).cons hbase))

theorem dictSet_eq {key value : Operand} :
    dictSet key value dst = (do
      let rs ← dictRow key value dst
      callBuiltin dst "dict_set" (rs.headD 0) 3
      freeAll rs.reverse) := by
  simp only [dictSet, dictRow, Script.bind_assoc]
  rfl

theorem sound_dictSet {key value : Operand} (hk : Good L key) (hv : Good L value) (hdst : L.demands.writes dst) :
    Sound L floor (dictSet key value dst) fun _ => True := by
  rw [dictSet_eq]
  refine (sound_dictRow hk hv hdst).bind fun rs hrs => (sound_callBuiltin hdst hrs.window).next ?_
  exact sound_freeAll fun r hr => hrs.owned r (List.mem_reverse.mp hr)

end Comprehensions

/-! ### Index keys -/

section Keys

/-- The register of a path is a fresh one, or the one the path starts from. -/
theorem sound_emitFieldPathFrom {owned : Option Reg} {path : List String} {cur : Reg}
    (ho : ∀ r ∈ owned, Owned L floor r) (hc : Owned L floor cur) :
    Sound L floor (emitFieldPathFrom owned path cur) (Owned L floor) := by
  induction path generalizing owned cur with
  | nil => exact sound_pure hc
  | cons field path ih =>
    refine sound_constIdx.bind fun idx hidx => sound_alloc.bind fun next hnext => ?_
    refine Sound.next (sound_push ⟨hnext.writes, hc.reads, hidx⟩ fun _ _ => trivial) ?_
    have hrest : Sound L floor (emitFieldPathFrom (some next) path next) (Owned L floor) :=
      ih (fun r hr => Option.some.inj hr ▸ hnext) hnext
    cases owned with
    | none => exact hrest
    | some prev => exact (sound_free (ho prev rfl)).next hrest

theorem sound_emitFieldPath {path : List String} {r : Reg} (hr : Owned L floor r) :
    Sound L floor (emitFieldPath path r) (Owned L floor) :=
  sound_emitFieldPathFrom (fun _ h => by cases h) hr

/-- Two registers that are taken one after the other. -/
theorem sound_allocTwo {α : Type} {Q : α → Prop} {g : Reg → Reg → Low α}
    (hg : ∀ r : ℕ, Owned L floor r → Owned L floor (r + 1) → Sound L floor (g r (r + 1)) Q) :
    Sound L floor (alloc >>= fun r => alloc >>= fun r' => g r r') Q := by
  intro s s' a h hrun hfin
  obtain ⟨r, t, halloc, hrun⟩ := Script.run_bind_ok.mp hrun
  have hbelow : Below L t := Script.run_back below_back _ hrun hfin
  obtain ⟨ht, hr⟩ := sound_alloc s t r h halloc hbelow
  obtain ⟨r', t', halloc', hrun⟩ := Script.run_bind_ok.mp hrun
  have hbelow' : Below L t' := Script.run_back below_back _ hrun hfin
  obtain ⟨ht', hr'⟩ := sound_alloc t t' r' ht halloc' hbelow'
  rw [alloc, Script.run_ask] at halloc halloc'
  cases halloc
  cases halloc'
  exact hg s.nextReg hr hr' _ s' a ht' hrun hfin

theorem sound_concatParts {name : ℕ} {prev part : Reg} (hn : L.demands.const name) (hprev : Owned L floor prev)
    (hpart : Owned L floor part) : Sound L floor (concatParts name prev part) (Owned L floor) := by
  refine sound_allocTwo fun args hargs harg => ?_
  have hwindow : L.demands.window args 2 := L.window hargs.base harg.lt
  refine Sound.next (sound_push ⟨hargs.writes, hprev.reads⟩ fun _ _ => trivial) ?_
  refine Sound.next (sound_push ⟨harg.writes, hpart.reads⟩ fun _ _ => trivial) ?_
  refine (sound_free hprev).next ((sound_free hpart).next ?_)
  refine Sound.next (sound_push ⟨hargs.writes, hn, hwindow⟩ fun _ _ => trivial) ?_
  exact (sound_free harg).next (sound_pure hargs)

theorem Owned.window {r : ℕ} (h : Owned L floor r) : L.demands.window r 1 := L.window h.base h.lt

theorem sound_packFields {toBe bitNot concat : ℕ} {valueReg : Reg} {fields : List IndexField} {packed : Option Reg}
    (htoBe : L.demands.const toBe) (hbitNot : L.demands.const bitNot) (hconcat : L.demands.const concat)
    (hr : Owned L floor valueReg) (hp : ∀ r ∈ packed, Owned L floor r) :
    Sound L floor (packFields toBe bitNot concat valueReg fields packed) fun o => ∀ r ∈ o, Owned L floor r := by
  induction fields generalizing packed with
  | nil => exact sound_pure hp
  | cons f fields ih =>
    have hrest : ∀ r, Owned L floor r →
        Sound L floor (packFields toBe bitNot concat valueReg fields (some r)) fun o => ∀ r ∈ o, Owned L floor r :=
      fun r hr => ih fun r' hr' => Option.some.inj hr' ▸ hr
    refine (sound_emitFieldPath hr).bind fun projected hprojected => sound_alloc.bind fun part hpart => ?_
    refine Sound.next (sound_push ⟨hpart.writes, hprojected.reads⟩ fun _ _ => trivial) ((sound_free hprojected).next ?_)
    refine Sound.next (sound_push ⟨hpart.writes, htoBe, hpart.window⟩ fun _ _ => trivial) ?_
    cases packed with
    | none =>
      dsimp only
      split
      · refine Sound.next (sound_push ⟨hpart.writes, hbitNot, hpart.window⟩ fun _ _ => trivial) ?_
        exact hrest part hpart
      · exact hrest part hpart
    | some prev =>
      have hlast := (sound_concatParts hconcat (hp prev rfl) hpart).bind hrest
      dsimp only
      split
      · refine Sound.next (sound_push ⟨hpart.writes, hbitNot, hpart.window⟩ fun _ _ => trivial) ?_
        exact hlast
      · exact hlast

theorem sound_emitIndexKey {idx : IndexDecl} {r : Reg} (hr : Owned L floor r) :
    Sound L floor (emitIndexKey idx r) (Owned L floor) := by
  unfold emitIndexKey
  split
  · exact sound_emitFieldPath hr
  · refine sound_constIdx.bind fun a ha => sound_constIdx.bind fun b hb => sound_constIdx.bind fun c hc => ?_
    refine (sound_packFields ha hb hc hr fun _ h => by cases h).bind fun o ho => ?_
    exact sound_expect.mono fun key hkey => ho key hkey

/-- The instructions that maintain an index refer to the state, the key and the record. -/
def MaintainsWith (instr : ℕ → Reg → Reg → IndexKind → Bool → Instr) : Prop :=
  ∀ (D : Demands) idx key src kind tree, D.state idx → D.reads key → D.reads src →
    (instr idx key src kind tree).Meets D ∧ ∀ size pos, (instr idx key src kind tree).Lands size pos

theorem maintainsWith_indexPut : MaintainsWith indexPut := by
  intro D idx key src kind tree hidx hkey hsrc
  cases kind <;> cases tree <;> exact ⟨⟨hidx, hkey, hsrc⟩, fun _ _ => trivial⟩

theorem maintainsWith_indexRemove : MaintainsWith indexRemove := by
  intro D idx key src kind tree hidx hkey hsrc
  cases kind <;> cases tree <;> exact ⟨⟨hidx, hkey, hsrc⟩, fun _ _ => trivial⟩

theorem sound_maintain {instr : ℕ → Reg → Reg → IndexKind → Bool → Instr} {valueReg keyReg : Reg}
    {idxs : List IndexDecl} (hinstr : MaintainsWith instr) (hr : Owned L floor valueReg)
    (hk : L.demands.reads keyReg) : Sound L floor (maintain env instr valueReg keyReg idxs) fun _ => True := by
  induction idxs with
  | nil => exact sound_done
  | cons idx idxs ih =>
    refine (sound_emitIndexKey hr).bind fun cur hcur => sound_expect.bind fun stateIdx hstate => ?_
    refine sound_expect.bind fun ty _ => ?_
    obtain ⟨hmeets, hlands⟩ :=
      hinstr L.demands stateIdx cur keyReg idx.kind (isPbtree ty) (L.state hstate) hcur.reads hk
    exact (sound_push hmeets fun pos _ => hlands _ pos).next ((sound_free hcur).next ih)

end Keys

end Rend.Compile
