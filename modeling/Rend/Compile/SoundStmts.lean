import Rend.Compile.SoundControl

/-!
# Statements keep the limits

An assignment to a local writes the register of a name that is assigned to, and so does the output of a
`parallel for`. All other statements write registers they take. The legs of a `parallel` lie in the code.
-/

namespace Rend.Compile

open Ast Index Lib

variable {env : Env} {L : Limits env} {floor : ℕ} {dst : Reg}

/-! ### Assignments -/

section Assignments

theorem sound_assignIdent {name : String} {r : Reg} (hname : L.assignable name) (hr : L.demands.reads r) :
    Sound L floor (assignIdent env name r) fun _ => True := by
  refine sound_context.bind fun c hc => ?_
  cases hlocal : c.lookupLocal name with
  | some localReg =>
    have hwrites : L.demands.writes localReg := (hc.local hlocal).2 hname
    dsimp only
    split
    · exact sound_push ⟨hwrites, hr⟩ fun _ _ => trivial
    · exact sound_done
  | none => exact sound_expect.bind fun idx hidx => sound_push ⟨hr, L.state hidx⟩ fun _ _ => trivial

theorem meets_statePut {stateIdx : ℕ} {keyReg src : Reg} (ty : Ty) (hstate : L.demands.state stateIdx)
    (hkey : L.demands.reads keyReg) (hsrc : L.demands.reads src) :
    (statePut stateIdx keyReg src ty).Meets L.demands ∧
      ∀ size pos, (statePut stateIdx keyReg src ty).Lands size pos := by
  unfold statePut
  split <;> exact ⟨⟨hstate, hkey, hsrc⟩, fun _ _ => trivial⟩

theorem sound_assignIndex {target : Expr} {key : Operand} {r : Reg} (hk : Good L key) (hr : Owned L floor r) :
    Sound L floor (assignIndex env target key r) fun _ => True := by
  unfold assignIndex
  split
  · refine sound_expect.bind fun idx hidx => sound_expect.bind fun ty _ => ?_
    split
    · exact sound_fail _
    · refine sound_viaReg hk fun keyReg hkey => ?_
      obtain ⟨hmeets, hlands⟩ := meets_statePut ty (L.state hidx) hkey.reads hr.reads
      refine Sound.next (sound_push hmeets fun pos _ => hlands _ pos) ?_
      split
      · exact sound_maintain maintainsWith_indexPut hr hkey.reads
      · exact sound_done
  · exact sound_fail _

theorem sound_allocAll {n : ℕ} :
    Sound L floor (allocAll n) fun rs => rs.length = n ∧ ∀ r ∈ rs, Owned L floor r := by
  induction n with
  | zero => exact sound_pure ⟨rfl, fun r hr => absurd hr List.not_mem_nil⟩
  | succ n ih =>
    refine sound_alloc.bind fun r hr => ih.bind fun rs hrs => sound_pure ?_
    exact ⟨congrArg Nat.succ hrs.1, List.forall_mem_cons.mpr ⟨hr, hrs.2⟩⟩

theorem sound_descend {regs : List Reg} {chain : List String} (h : ∀ r ∈ regs, Owned L floor r) :
    Sound L floor (descend regs chain) fun _ => True := by
  fun_induction descend regs chain with
  | case1 r r' regs name chain ih =>
    obtain ⟨hr, hrest⟩ := List.forall_mem_cons.mp h
    have hr' : Owned L floor r' := hrest r' List.mem_cons_self
    refine sound_constIdx.bind fun idx hidx => ?_
    exact Sound.next (sound_push ⟨hr'.writes, hr.reads, hidx⟩ fun _ _ => trivial) (ih hrest)
  | case2 => exact sound_done

theorem sound_ascend {regs : List Reg} {chain : List String} (h : ∀ r ∈ regs, Owned L floor r) :
    Sound L floor (ascend regs chain) fun _ => True := by
  fun_induction ascend regs chain with
  | case1 r r' regs name chain ih =>
    obtain ⟨hr, hrest⟩ := List.forall_mem_cons.mp h
    have hr' : Owned L floor r' := hrest r' List.mem_cons_self
    refine (ih hrest).next (sound_constIdx.bind fun idx hidx => ?_)
    exact sound_push ⟨hr.writes, hidx, hr'.reads⟩ fun _ _ => trivial
  | case2 => exact sound_done

/-- The first and the last register of a row that is not empty have been taken. -/
theorem owned_ends {rs : List Reg} (h : ∀ r ∈ rs, Owned L floor r) (hne : rs ≠ []) :
    Owned L floor (rs.headD 0) ∧ Owned L floor (rs.getLastD 0) := by
  cases rs with
  | nil => exact absurd rfl hne
  | cons r rs =>
    refine ⟨h r List.mem_cons_self, ?_⟩
    rw [List.getLastD_cons, List.getLastD_eq_getLast?]
    cases hlast : rs.getLast? with
    | none => exact h r List.mem_cons_self
    | some r' => exact h r' (List.mem_cons_of_mem _ (List.mem_of_mem_getLast? hlast))

theorem sound_writeGroup {pathIdx : ℕ} {chain : List String} {r : Reg} (hpath : L.demands.path pathIdx)
    (hchain : chain ≠ []) (hr : L.demands.reads r) : Sound L floor (writeGroup pathIdx chain r) fun _ => True := by
  refine sound_allocAll.bind fun tmps htmps => ?_
  obtain ⟨hlen, howned⟩ := htmps
  have hne : tmps ≠ [] := by
    rintro rfl
    exact hchain (List.eq_nil_of_length_eq_zero hlen.symm)
  obtain ⟨hhead, hlast⟩ := owned_ends howned hne
  refine Sound.next (sound_push ⟨hhead.writes, hpath⟩ fun _ _ => trivial) ((sound_descend howned).next ?_)
  refine sound_constIdx.bind fun idx hidx => ?_
  refine Sound.next (sound_push ⟨hlast.writes, hidx, hr⟩ fun _ _ => trivial) ((sound_ascend howned).next ?_)
  refine Sound.next (sound_push ⟨hhead.reads, hpath⟩ fun _ _ => trivial) ?_
  exact sound_freeAll fun r' hr' => howned r' (List.mem_reverse.mp hr')

theorem sound_assignField {inner : Expr} {operand : Operand} {assignInner : Reg → Low Unit} {name : String} {r : Reg}
    (ho : Good L operand) (ha : ∀ tmp, Owned L floor tmp → Sound L floor (assignInner tmp) fun _ => True)
    (hr : L.demands.reads r) : Sound L floor (assignField env inner operand assignInner name r) fun _ => True := by
  refine sound_context.bind fun c _ => ?_
  split
  · refine sound_internPath.bind fun p hp => ?_
    dsimp only
    split
    · exact sound_push ⟨hr, hp⟩ fun _ _ => trivial
    · next hchain => exact sound_writeGroup hp (fun h => hchain (by rw [h]; rfl)) hr
  · refine sound_viaReg ho fun tmp htmp => sound_constIdx.bind fun idx hidx => ?_
    exact Sound.next (sound_push ⟨htmp.writes, hidx, hr⟩ fun _ _ => trivial) (ha tmp htmp)

theorem sound_compileDelete {target : Expr} {key : Operand} (hk : Good L key) :
    Sound L floor (compileDelete env target key) fun _ => True := by
  unfold compileDelete
  split
  · refine sound_expect.bind fun idx hidx => sound_expect.bind fun ty _ => ?_
    have hstate : L.demands.state idx := L.state hidx
    split
    · exact sound_fail _
    · refine sound_viaReg hk fun keyReg hkey => sound_alloc.bind fun prior hprior => ?_
      have hget : Sound L floor
          (push (if isPbtree ty then .pbtreeGet prior idx keyReg else .pmapGet prior idx keyReg)) fun _ => True := by
        split <;> exact sound_push ⟨hprior.writes, hstate, hkey.reads⟩ fun _ _ => trivial
      have hdelete : Sound L floor
          (push (if isPbtree ty then .pbtreeDelete idx keyReg else .pmapDelete idx keyReg)) fun _ => True := by
        split <;> exact sound_push ⟨hstate, hkey.reads⟩ fun _ _ => trivial
      refine hget.next ((sound_maintain maintainsWith_indexRemove hprior hkey.reads).next ?_)
      exact hdelete.next (sound_free hprior)
  · exact sound_fail _

end Assignments

/-! ### Other statements -/

section Statements

theorem sound_compileLet {name : String} {value : Operand} (hv : Good L value) :
    Sound L floor (compileLet name value) (Owned L floor) := by
  refine sound_alloc.bind fun r hr => (hv floor r hr.writes).next ?_
  exact (sound_bindLocal hr.writes).next (sound_pure hr)

theorem sound_compileBreak : Sound L floor compileBreak fun _ => True := by
  refine sound_context.bind fun c _ => ?_
  split
  · exact sound_fail _
  · exact sound_jump.bind fun pos _ => sound_onLoop

theorem sound_compileContinue : Sound L floor compileContinue fun _ => True := by
  refine sound_context.bind fun c _ => ?_
  split
  · exact sound_push trivial fun _ _ => trivial
  · refine sound_context.bind fun c' _ => ?_
    split
    · exact sound_fail _
    · exact sound_jump.bind fun pos _ => sound_onLoop

theorem sound_bindElems {tuple : Reg} {i : ℕ} {names : List String} (ht : L.demands.reads tuple) :
    Sound L floor (bindElems tuple i names) fun _ => True := by
  induction names generalizing i with
  | nil => exact sound_done
  | cons name names ih =>
    refine sound_alloc.bind fun r hr => Sound.next (sound_push ⟨hr.writes, ht⟩ fun _ _ => trivial) ?_
    exact (sound_bindLocal hr.writes).next ih

theorem sound_compileLetTuple {names : List String} {value : Operand} (hv : Good L value) :
    Sound L floor (compileLetTuple names value) fun _ => True :=
  sound_alloc.bind fun r hr => (hv floor r hr.writes).next (sound_bindElems hr.reads)

theorem sound_inBlock {stmts tail : Low Unit} (hs : Sound L floor stmts fun _ => True)
    (ht : Sound L floor tail fun _ => True) : Sound L floor (inBlock stmts tail) fun _ => True := by
  refine sound_pushScope.next (sound_nextReg.bind fun saved hsaved => ?_)
  exact hs.next (ht.next (sound_popScope.next (sound_restore hsaved)))

end Statements

/-! ### Parallel statements -/

section Parallel

variable (L)

/-- A leg lies in the code, and the register it binds may be written. -/
structure LegOk (range : ParallelRange) : Prop where
  start : range.start ≤ L.size
  «end» : range.end ≤ L.size
  dst : ∀ r ∈ range.dst, L.demands.writes r

variable {L}

theorem sound_compileLeg {leg : Low (Option Reg)}
    (hl : Sound L floor leg fun dst => ∀ r ∈ dst, L.demands.writes r) :
    Sound L floor (compileLeg leg) (LegOk L) := by
  refine sound_here.bind fun start hstart => hl.bind fun dst hdst => ?_
  refine Sound.next (sound_push (fun r hr => L.writes_reads (hdst r hr)) fun _ _ => trivial) ?_
  exact sound_here.bind fun finish hfinish => sound_pure ⟨hstart, hfinish, hdst⟩

theorem sound_fillLegs {pos afterPc : ℕ} {ranges : List ParallelRange} (hranges : ∀ range ∈ ranges, LegOk L range)
    (hafter : afterPc ≤ L.size) : Sound L floor (fill pos (.legs ranges afterPc)) fun _ => True := by
  refine sound_fill fun i hi hl => ?_
  unfold Hole.fill
  split
  · next h => cases h
  · next h =>
    cases h
    have hsame : ranges.map (narrowRange unbounded) = ranges :=
      (List.map_congr_left fun r _ => by cases r; simp [narrowRange, unbounded]).trans ranges.map_id
    rw [hsame]
    exact ⟨fun range hrange => (hranges range hrange).dst,
      fun range hrange => ⟨(hranges range hrange).start, (hranges range hrange).end⟩, hafter⟩
  · next h => cases h
  · exact ⟨hi, hl⟩

theorem sound_compileParallel {legs : Low (List ParallelRange)}
    (hl : Sound L floor legs fun ranges => ∀ range ∈ ranges, LegOk L range) :
    Sound L floor (compileParallel legs) fun _ => True := by
  refine sound_here.bind fun pos _ => Sound.next (sound_push ?_ fun _ _ => ?_) ?_
  · exact fun range hrange => absurd hrange List.not_mem_nil
  · exact ⟨fun range hrange => absurd hrange List.not_mem_nil, Nat.zero_le _⟩
  · exact hl.bind fun ranges hranges => sound_here.bind fun after hafter => sound_fillLegs hranges hafter

theorem sound_fillBody {pos bodyStart bodyEnd afterPc : ℕ} (hstart : bodyStart ≤ L.size) (hend : bodyEnd ≤ L.size)
    (hafter : afterPc ≤ L.size) : Sound L floor (fill pos (.body bodyStart bodyEnd afterPc)) fun _ => True := by
  refine sound_fill fun i hi hl => ?_
  unfold Hole.fill
  split
  · next h => cases h
  · next h => cases h
  · next h =>
    cases h
    exact ⟨hi, hstart, hend, hafter⟩
  · exact ⟨hi, hl⟩

/-- The output of a `parallel for` is the register of a name that is assigned to. -/
theorem sound_outputReg {output : Expr} (hout : ∀ name, output = .ident name → L.assignable name) :
    Sound L floor (outputReg output) L.demands.writes := by
  unfold outputReg
  split
  · next name =>
    refine sound_context.bind fun c hc => sound_expect.mono fun r hr => ?_
    exact (hc.local hr).2 (hout name rfl)
  · exact sound_fail _

theorem sound_enterParallelFor : Sound L floor enterParallelFor fun _ => True := sound_change fun _ h => h

theorem sound_leaveParallelFor : Sound L floor leaveParallelFor fun _ => True := sound_change fun _ h => h

theorem sound_compileParallelFor {idVar : String} {idxVar : Option String} {source : Operand} {output : Expr}
    {body : Operand} (hs : Good L source) (hout : ∀ name, output = .ident name → L.assignable name)
    (hb : Good L body) : Sound L floor (compileParallelFor idVar idxVar source output body) fun _ => True := by
  refine sound_alloc.bind fun sourceReg hsource => (hs floor sourceReg hsource.writes).next ?_
  refine (sound_outputReg hout).bind fun out houtReg => sound_alloc.bind fun id hid => sound_alloc.bind fun idx hidx => ?_
  refine sound_pushScope.next ((sound_bindLocal hid.writes).next ?_)
  have hrest : Sound L floor (do
      let pos ← here
      push (.parallelForBegin 0 0 sourceReg out id idx 0)
      let bodyStart ← here
      let tail ← alloc
      enterParallelFor
      body tail
      leaveParallelFor
      push (.parallelYield (some tail))
      let bodyEnd ← here
      popScope
      let afterPc ← here
      fill pos (.body bodyStart bodyEnd afterPc)) fun _ => True := by
    refine sound_here.bind fun pos _ => Sound.next (sound_push ⟨hsource.reads, houtReg, hid.writes, hidx.writes⟩
      fun _ _ => ⟨Nat.zero_le _, Nat.zero_le _, Nat.zero_le _⟩) ?_
    refine sound_here.bind fun start hstart => sound_alloc.bind fun tail htail => sound_enterParallelFor.next ?_
    refine (hb floor tail htail.writes).next (sound_leaveParallelFor.next ?_)
    refine Sound.next (sound_push (fun r hr => Option.some.inj hr ▸ htail.reads) fun _ _ => trivial) ?_
    refine sound_here.bind fun finish hfinish => sound_popScope.next (sound_here.bind fun after hafter => ?_)
    exact sound_fillBody hstart hfinish hafter
  cases idxVar with
  | none => exact hrest
  | some name => exact (sound_bindLocal hidx.writes).next hrest

end Parallel

end Rend.Compile
