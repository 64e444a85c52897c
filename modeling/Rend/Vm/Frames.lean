import Rend.Compile.Module
import Rend.Vm.Fuel

/-!
# Checks that never fail

The machine indexes the register file of a frame, the constants and batches of a function and the tables of a
module, and panics at an index out of range. `checkedAt` is the machine that looks at all of these before it
carries out an instruction. On modules that are well formed it is the machine without the checks: every frame is
entered with as many registers as its function asks for, and no instruction changes their number.
-/

namespace Rend.Vm

open Lib

variable {α β ι σ : Type}

/-! ### Computations that are the same -/

section Same

variable {P : α → Prop} {Q : β → Prop} {x y : VmM α} {k k' : α → VmM β}

/-- What a computation answers with is as told. -/
def Yields (x : VmM α) (P : α → Prop) : Prop := ∀ ⦃s o⦄, x s = some o → ∀ a, o.result = .ok a → P a

/-- Two computations are the same, and what they answer with is as told. -/
structure Same (P : α → Prop) (x y : VmM α) : Prop where
  eq : x = y
  yields : Yields y P

theorem Yields.same (h : Yields x P) : Same P x x := ⟨rfl, h⟩

theorem same_self (x : VmM α) : Same (fun _ => True) x x := ⟨rfl, fun _ _ _ _ _ => trivial⟩

theorem Same.bind (hx : Same P x y) (hk : ∀ a, P a → Same Q (k a) (k' a)) : Same Q (x >>= k) (y >>= k') := by
  obtain rfl := hx.eq
  refine ⟨?_, fun s o ho b hb => ?_⟩
  · funext s
    cases hxs : x s with
    | none =>
      change VmM.andThen x k s = VmM.andThen x k' s
      rw [VmM.andThen, VmM.andThen, hxs]
    | some o =>
      obtain ⟨r, s', n⟩ := o
      cases r with
      | error e => rw [bind_of_error k hxs, bind_of_error k' hxs]
      | ok a => rw [bind_of_ok k hxs, bind_of_ok k' hxs, (hk a (hx.yields hxs a rfl)).eq]
  · rcases bind_eq_some ho with ⟨e, s', n, -, rfl⟩ | ⟨a, s', n, o', hxs, hks, rfl⟩
    · cases hb
    · exact (hk a (hx.yields hxs a rfl)).yields hks b hb

/-- Goes on after a computation whose answer does not matter. -/
theorem Same.next (hx : x = y) (hk : ∀ a, Same Q (k a) (k' a)) : Same Q (x >>= k) (y >>= k') :=
  Same.bind (P := fun _ => True) ⟨hx, fun _ _ _ _ _ => trivial⟩ fun a _ => hk a

theorem same_pure {a : α} (h : P a) : Same P (pure a : VmM α) (pure a) :=
  Yields.same fun _ _ ho b hb => by
    cases ho
    cases hb
    exact h

theorem same_fault (e : Fault) : Same P (fault e : VmM α) (fault e) :=
  Yields.same fun _ _ ho b hb => by
    cases ho
    cases hb

theorem same_ofOption (e : Fault) (o : Option α) : Same (fun a => o = some a) (ofOption e o) (ofOption e o) := by
  cases o with
  | none => exact same_fault e
  | some a => exact same_pure rfl

end Same

/-! ### Legs -/

section Legs

variable {leg leg' : ι → σ → VmM α} {bindResult : ι → σ → α → Bool → σ} {G : σ → Prop}

/-- The merge of legs that are the same on all results that occur. -/
theorem same_mergeLegs (hleg : ∀ i acc, G acc → leg i acc = leg' i acc)
    (hbind : ∀ i acc v skip, G acc → G (bindResult i acc v skip)) {budget : ℕ} {outs : List (ι × Out α)}
    {batch : Finset U128} {acc : σ} (hacc : G acc) :
    Same G (mergeLegs leg bindResult budget outs batch acc) (mergeLegs leg' bindResult budget outs batch acc) := by
  induction outs generalizing batch acc with
  | nil => exact same_pure hacc
  | cons out outs ih =>
    obtain ⟨i, out⟩ := out
    refine Same.next rfl fun value => Same.next rfl fun _ => Same.next ?_ fun final => Same.next rfl fun _ => ?_
    · rw [hleg i acc hacc]
    · exact ih (hbind i acc final.1 _ hacc)

theorem same_parallel (hleg : ∀ i acc, G acc → leg i acc = leg' i acc)
    (hbind : ∀ i acc v skip, G acc → G (bindResult i acc v skip)) {legs : List ι} {acc : σ} (hacc : G acc) :
    Same G (parallel legs leg bindResult acc) (parallel legs leg' bindResult acc) := by
  have hmerge : ∀ budget (outs : List (ι × Out α)),
      Same G (mergeLegs leg bindResult budget outs ∅ acc) (mergeLegs leg' bindResult budget outs ∅ acc) :=
    fun _ _ => same_mergeLegs hleg hbind hacc
  have hstart : (fun i => leg i acc) = fun i => leg' i acc := funext fun i => hleg i acc hacc
  refine ⟨?_, fun s o ho a ha => ?_⟩
  · funext s
    have hforked : (fun i => leg i acc s.fork) = fun i => leg' i acc s.fork := by
      funext i
      rw [hleg i acc hacc]
    simp only [parallel, hforked, (hmerge _ _).eq]
  · unfold parallel at ho
    split at ho
    · cases ho
    · obtain ⟨o', ho', rfl⟩ := Option.map_eq_some_iff.mp ho
      exact (hmerge _ _).yields ho' a ha

end Legs

/-! ### The checked machine -/

section Checked

variable (K : Kernel) (modules : List BcModule)

/-- What an instruction refers to exists, given these registers, and so does what its batch refers to. -/
def InRange (m : BcModule) (f : BcFn) (regs : List Value) (instr : Instr) : Prop :=
  instr.Meets (frameDemands m { f with nRegs := regs.length }) ∧
    ∀ g ops, instr = .readBatch g → f.readGroups[g]? = some ops →
      ∀ op ∈ ops, op.instr.Meets (frameDemands m { f with nRegs := regs.length })

open Classical in
/-- The instruction at the program counter, unless it refers to what does not exist. -/
noncomputable def checkedStep (body : Body) (mi fi : ℕ) (regs : List Value) (pc : ℕ) : VmM Next := do
  let (m, f) ← ofOption .panic (fnAt modules mi fi)
  let instr ← ofOption .pcOutOfBounds f.code[pc]?
  if InRange m f regs instr then exec K modules body m mi f fi instr (pc + 1) regs else fault .panic

/-- The loop of `call_body_at` with the checks. -/
noncomputable def checkedAt : ℕ → Body
  | 0, _, _, _, _ => exhausted
  | n + 1, mi, fi, regs, pc => do
    tick
    match ← checkedStep K modules (checkedAt n) mi fi regs pc with
    | .goto pc regs => checkedAt n mi fi regs pc
    | .ret v => pure v

/-- A kernel does not change the number of registers. -/
def Kernel.KeepsFrame (K : Kernel) : Prop :=
  ∀ m f instr pc regs tx pc' regs' tx', K m f instr pc regs tx = .ok (pc', regs', tx') → regs'.length = regs.length

end Checked

/-! ### Frames keep their size -/

section Frames

variable {K : Kernel} {modules : List BcModule} {body body' : Body}

/-- A register file has as many registers as the function asks for. -/
def Framed (modules : List BcModule) (mi fi : ℕ) (regs : List Value) : Prop :=
  ∃ p, fnAt modules mi fi = some p ∧ regs.length = p.2.nRegs

theorem same_forceReg (regs : List Value) (r : Reg) :
    Same (fun p => p.2.length = regs.length) (forceReg regs r) (forceReg regs r) :=
  Same.next rfl fun _ => same_pure List.length_set

/-- Every function of the modules refers to what exists. -/
def WellFormed (modules : List BcModule) : Prop := ∀ m ∈ modules, ∀ f ∈ m.functions, WellFormedFn m f

theorem wellFormedFn_of_fnAt (hwf : WellFormed modules) {mi fi : ℕ} {p : BcModule × BcFn}
    (h : fnAt modules mi fi = some p) : WellFormedFn p.1 p.2 := by
  obtain ⟨m, hm, h⟩ := Option.bind_eq_some_iff.mp h
  obtain ⟨f, hf, h⟩ := Option.bind_eq_some_iff.mp h
  cases h
  exact hwf m (List.mem_of_getElem? hm) f (List.mem_of_getElem? hf)

variable (hwf : WellFormed modules) (hbody : ∀ mi fi regs pc, Framed modules mi fi regs → body mi fi regs pc = body' mi fi regs pc)

include hwf hbody

/-- A call enters the function with a frame of the size it asks for. -/
theorem call_same (mi fi : ℕ) (args : List Value) : call modules body mi fi args = call modules body' mi fi args := by
  refine (Same.bind (Q := fun _ => True) (same_ofOption .panic (fnAt modules mi fi)) fun p hp => ?_).eq
  obtain ⟨m, f⟩ := p
  by_cases harity : args.length = f.nParams
  · have hroom : args.length ≤ f.nRegs := harity ▸ (wellFormedFn_of_fnAt hwf hp).params
    have hframed : Framed modules mi fi (frame f args) := by
      refine ⟨(m, f), hp, ?_⟩
      rw [frame, List.length_append, List.length_replicate]
      exact Nat.add_sub_cancel' hroom
    simp only [hbody mi fi (frame f args) 0 hframed]
    exact same_self _
  · simp only [harity, ne_eq, not_false_eq_true, if_true]
    exact same_fault _

theorem dispatch_same (emitModule structName : String) (v : Value) :
    dispatchHandlersParallel modules body emitModule structName v =
      dispatchHandlersParallel modules body' emitModule structName v := by
  unfold dispatchHandlersParallel
  simp only [call_same hwf hbody]

theorem emit_same (m : BcModule) (value : Reg) (regs : List Value) :
    Same (fun regs' => regs'.length = regs.length) (emit modules body m value regs)
      (emit modules body' m value regs) := by
  refine (same_forceReg regs value).bind fun p hp => ?_
  obtain ⟨v, regs'⟩ := p
  cases v with
  | struct name fields =>
    refine Same.next rfl fun _ => Same.next ?_ fun _ => same_pure hp
    exact dispatch_same hwf hbody _ _ _
  | _ => exact same_fault _

omit hwf

theorem parallelBegin_same {mi fi : ℕ} {regs : List Value} (h : Framed modules mi fi regs) (ranges : List ParallelRange) :
    Same (fun regs' => Framed modules mi fi regs') (parallelBegin body mi fi ranges regs)
      (parallelBegin body' mi fi ranges regs) := by
  refine same_parallel (G := Framed modules mi fi) (fun range acc hacc => hbody _ _ _ _ hacc)
    (fun range acc v _ hacc => ?_) h
  obtain ⟨p, hp, hlen⟩ := hacc
  refine ⟨p, hp, ?_⟩
  split
  · rw [List.length_set, hlen]
  · exact hlen

theorem parallelForBegin_same {mi fi : ℕ} {regs : List Value} (h : Framed modules mi fi regs)
    (bodyStart : ℕ) (sourceReg outputReg idReg idxReg : Reg) :
    Same (fun regs' => regs'.length = regs.length)
      (parallelForBegin body mi fi bodyStart sourceReg outputReg idReg idxReg regs)
      (parallelForBegin body' mi fi bodyStart sourceReg outputReg idReg idxReg regs) := by
  refine (same_forceReg regs sourceReg).bind fun p hp => ?_
  obtain ⟨source, regs₁⟩ := p
  refine (same_forceReg regs₁ outputReg).bind fun p hp' => ?_
  obtain ⟨output, regs₂⟩ := p
  have hlen : regs₂.length = regs.length := hp'.trans hp
  refine Same.next rfl fun sourceElems => Same.next rfl fun outputElems => ?_
  split
  · exact same_fault _
  · have hlegs : ∀ (leg : Value × ℕ) (output : List Value),
        body mi fi (legRegs regs₂ idReg idxReg leg.1 leg.2) bodyStart =
          body' mi fi (legRegs regs₂ idReg idxReg leg.1 leg.2) bodyStart := by
      intro leg _
      obtain ⟨q, hq, hregs⟩ := h
      refine hbody _ _ _ _ ⟨q, hq, ?_⟩
      rw [legRegs, List.length_set, List.length_set, hlen, hregs]
    refine Same.next ?_ fun outputElems => same_pure (by rw [List.length_set, hlen])
    exact (same_parallel (G := fun _ => True) (fun leg output _ => hlegs leg output) (fun _ _ _ _ _ => trivial)
      trivial).eq

/-- Where the machine goes on, it does so with a frame of the same size. -/
def Stays (modules : List BcModule) (mi fi : ℕ) : Next → Prop
  | .goto _ regs => Framed modules mi fi regs
  | .ret _ => True

omit hbody

theorem Framed.resize {mi fi : ℕ} {regs regs' : List Value} (h : Framed modules mi fi regs)
    (hlen : regs'.length = regs.length) : Framed modules mi fi regs' := by
  obtain ⟨p, hp, hregs⟩ := h
  exact ⟨p, hp, hlen.trans hregs⟩

theorem runKernel_same (hK : K.KeepsFrame) {mi fi : ℕ} {regs : List Value} (h : Framed modules mi fi regs) (m : BcModule)
    (f : BcFn) (instr : Instr) (pc : ℕ) :
    Same (Stays modules mi fi) (runKernel K m f instr pc regs) (runKernel K m f instr pc regs) := by
  refine Yields.same fun s o ho next hnext => ?_
  unfold runKernel at ho
  split at ho
  · cases ho
    cases hnext
  · next hk =>
    cases ho
    cases hnext
    exact h.resize (hK _ _ _ _ _ _ _ _ _ hk)

include hwf hbody

/-- Every instruction that goes on leaves a frame of the same size, and calls with frames of the right size. -/
theorem exec_same (hK : K.KeepsFrame) {mi fi : ℕ} {regs : List Value} (h : Framed modules mi fi regs) (m : BcModule)
    (f : BcFn) (instr : Instr) (pc : ℕ) :
    Same (Stays modules mi fi) (exec K modules body m mi f fi instr pc regs)
      (exec K modules body' m mi f fi instr pc regs) := by
  have hset : ∀ {regs' : List Value} {dst : Reg} {v : Value}, regs'.length = regs.length →
      Framed modules mi fi (regs'.set dst v) := fun hlen => h.resize (List.length_set.trans hlen)
  have hcall := call_same hwf hbody
  cases instr with
  | jump offset => exact same_pure h
  | jumpIfFalse cond offset =>
    refine (same_forceReg regs cond).bind fun p hp => ?_
    obtain ⟨v, regs'⟩ := p
    dsimp only
    split <;> exact same_pure (h.resize hp)
  | call dst callee argsStart nArgs => exact Same.next (hcall _ _ _) fun v => same_pure (hset rfl)
  | callExternal dst moduleNameIdx fnNameIdx argsStart nArgs isView isPure =>
    refine Same.next rfl fun moduleName => Same.next rfl fun fnName => Same.next rfl fun target => ?_
    exact Same.next (hcall _ _ _) fun v => same_pure (hset rfl)
  | callExternalDyn dst targetReg fnNameIdx argsStart nArgs isView isPure =>
    refine (same_forceReg regs targetReg).bind fun p hp => ?_
    refine Same.next rfl fun moduleName => Same.next rfl fun fnName => Same.next rfl fun target => ?_
    exact Same.next (hcall _ _ _) fun v => same_pure (hset hp)
  | ret src => exact same_pure trivial
  | returnUnit => exact same_pure trivial
  | parallelYield value =>
    cases value with
    | none => exact same_pure trivial
    | some r => exact Same.next rfl fun p => same_pure trivial
  | parallelForSkip => exact Same.next rfl fun _ => same_pure trivial
  | parallelBegin ranges afterPc =>
    exact (parallelBegin_same hbody h ranges).bind fun regs' hregs' => same_pure hregs'
  | parallelForBegin bodyStart bodyEnd sourceReg outputReg idReg idxReg afterPc =>
    refine (parallelForBegin_same hbody h bodyStart sourceReg outputReg idReg idxReg).bind fun regs' hregs' => ?_
    exact same_pure (h.resize hregs')
  | emit value => exact (emit_same hwf hbody m value regs).bind fun regs' hregs' => same_pure (h.resize hregs')
  | _ => exact runKernel_same hK h _ _ _ _

/-- The checks of one instruction do not fail, and the rest of the machine may be exchanged. -/
theorem checkedStep_same (hK : K.KeepsFrame) {mi fi : ℕ} {regs : List Value} (h : Framed modules mi fi regs) (pc : ℕ) :
    Same (Stays modules mi fi) (checkedStep K modules body mi fi regs pc) (step K modules body' mi fi regs pc) := by
  refine (same_ofOption .panic (fnAt modules mi fi)).bind fun p hp => ?_
  obtain ⟨m, f⟩ := p
  refine (same_ofOption .pcOutOfBounds f.code[pc]?).bind fun instr hinstr => ?_
  have hfn : WellFormedFn m f := wellFormedFn_of_fnAt hwf hp
  obtain ⟨q, hq, hlen⟩ := h
  cases hp.symm.trans hq
  have hsize : ({ f with nRegs := regs.length } : BcFn) = f := by rw [hlen]
  have hrange : InRange m f regs instr := by
    unfold InRange
    rw [hsize]
    exact ⟨hfn.meets instr (List.mem_of_getElem? hinstr), fun g ops _ hops => hfn.batches ops (List.mem_of_getElem? hops)⟩
  rw [if_pos hrange]
  exact exec_same hwf hbody hK ⟨(m, f), hp, hlen⟩ m f instr (pc + 1)

omit hbody

/-- Started with a frame of the right size, the machine runs as without the checks. -/
theorem checkedAt_eq (hK : K.KeepsFrame) (n mi fi : ℕ) (regs : List Value) (pc : ℕ) (h : Framed modules mi fi regs) :
    checkedAt K modules n mi fi regs pc = callBodyAt K modules n mi fi regs pc := by
  induction n generalizing mi fi regs pc with
  | zero => rfl
  | succ n ih =>
    rw [checkedAt, callBodyAt]
    refine (Same.next (Q := fun _ => True) rfl fun _ => ?_).eq
    refine (checkedStep_same hwf ih hK h pc).bind fun next hnext => ?_
    cases next with
    | goto pc' regs' => exact ⟨ih mi fi regs' pc' hnext, fun _ _ _ _ _ => trivial⟩
    | ret v => exact same_self _

/-- **The checks of the machine never fail.** On well-formed modules, every call of a function, with any arguments,
in any state and under any bound on the recursion, runs as it does on the machine that looks at every register, window
and index of an instruction before it carries it out. -/
theorem checks_never_fail (hK : K.KeepsFrame) (bound mi fi : ℕ) (args : List Value) :
    call modules (checkedAt K modules bound) mi fi args = call modules (callBodyAt K modules bound) mi fi args :=
  call_same hwf (checkedAt_eq hwf hK bound) mi fi args

end Frames

/-- What moves and the jumps of the machine need. -/
def moveKernel : Kernel := fun _ _ instr pc regs tx =>
  match instr with
  | .move dst src => .ok (pc, regs.set dst (reg regs src), tx)
  | _ => .error (.runtime "not modelled")

theorem checks_never_fail_pick :
    ∃ m, Compile.compileNamedWithExtras Compile.pickModule "main" [] (fun _ => none) (fun _ => "") 1 Compile.unbounded = .ok m ∧
      call [m] (checkedAt moveKernel [m] 9) 0 0 [.bool false, .int 3] =
        call [m] (callBodyAt moveKernel [m] 9) 0 0 [.bool false, .int 3] := by
  obtain ⟨m, hm⟩ : ∃ m, Compile.compileNamedWithExtras Compile.pickModule "main" [] (fun _ => none) (fun _ => "") 1
      Compile.unbounded = .ok m := ⟨_, rfl⟩
  refine ⟨m, hm, checks_never_fail (fun m' hm' f hf => ?_) (fun m f instr pc regs tx pc' regs' tx' h => ?_) 9 0 0 _⟩
  · cases List.mem_singleton.mp hm'
    exact (Compile.wellFormed_of_meant hm f hf).1
  · unfold moveKernel at h
    split at h <;> cases h
    exact List.length_set

end Rend.Vm
