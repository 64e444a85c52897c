import Rend.Vm.Run

/-!
# Fuel metering

A computation is `Exact` when it never gains fuel and, if it succeeds, has paid for every instruction it
carried out. The body of a function is exact. A construct that forks is only `Metered`: its legs are
charged by subtraction down to zero, so that it may succeed with more instructions than there was fuel.
But then no fuel is left, and the body that goes on fails at its next instruction.

`Defined` and `Extends` say that the bound on the recursion does not matter as long as it exceeds the
fuel. `fuel_bounds_run` puts the two together.
-/

namespace Rend.Vm

open Lib

variable {α β ι σ : Type}

theorem bind_eq_some {x : VmM α} {k : α → VmM β} {s : VmState} {o : Out β} (h : (x >>= k) s = some o) :
    (∃ e s' n, x s = some ⟨.error e, s', n⟩ ∧ o = ⟨.error e, s', n⟩) ∨
      ∃ a s' n o', x s = some ⟨.ok a, s', n⟩ ∧ k a s' = some o' ∧ o = ⟨o'.result, o'.state, n + o'.steps⟩ := by
  change VmM.andThen x k s = some o at h
  unfold VmM.andThen at h
  split at h
  · cases h
  · next e s' n hx => exact .inl ⟨e, s', n, hx, by cases h; rfl⟩
  · next a s' n hx =>
    obtain ⟨o', ho', rfl⟩ := Option.map_eq_some_iff.mp h
    exact .inr ⟨a, s', n, o', hx, ho', rfl⟩

theorem bind_of_error {x : VmM α} (k : α → VmM β) {s s' : VmState} {e : Fault} {n : ℕ}
    (h : x s = some ⟨.error e, s', n⟩) : (x >>= k) s = some ⟨.error e, s', n⟩ := by
  change VmM.andThen x k s = _
  rw [VmM.andThen, h]

theorem bind_of_ok {x : VmM α} (k : α → VmM β) {s s' : VmState} {a : α} {n : ℕ}
    (h : x s = some ⟨.ok a, s', n⟩) :
    (x >>= k) s = (k a s').map fun o => { o with steps := n + o.steps } := by
  change VmM.andThen x k s = _
  rw [VmM.andThen, h]

/-! ### What a computation pays -/

/-- A computation that never gains fuel and, when it succeeds, has paid for what it carried out, or has
no fuel left and a result of a kind for which that is allowed. -/
def Metered (loose : α → Prop) (x : VmM α) : Prop :=
  ∀ ⦃s o⦄, x s = some o → o.state.fuel ≤ s.fuel ∧
    ∀ a, o.result = .ok a → o.steps + o.state.fuel = s.fuel ∨ o.state.fuel = 0 ∧ loose a

/-- A computation that pays for what it carries out. -/
abbrev Exact (x : VmM α) : Prop := Metered (fun _ => False) x

/-- A computation that carries out no instruction and leaves the fuel alone. -/
def Free (x : VmM α) : Prop := ∀ s, ∃ o, x s = some o ∧ o.state.fuel = s.fuel ∧ o.steps = 0

section Metered

variable {loose : α → Prop} {x : VmM α}

theorem Metered.mono {loose' : α → Prop} (h : Metered loose x) (himp : ∀ a, loose a → loose' a) :
    Metered loose' x := by
  intro s o ho
  refine ⟨(h ho).1, fun a ha => ?_⟩
  exact ((h ho).2 a ha).imp id fun hz => ⟨hz.1, himp a hz.2⟩

theorem Exact.metered (h : Exact x) : Metered loose x := h.mono fun _ => False.elim

theorem Exact.paid (h : Exact x) {s : VmState} {o : Out α} (ho : x s = some o) {a : α}
    (ha : o.result = .ok a) : o.steps + o.state.fuel = s.fuel :=
  ((h ho).2 a ha).resolve_right fun hz => hz.2

theorem Free.exact (h : Free x) : Exact x := by
  intro s o ho
  obtain ⟨o', ho', hfuel, hsteps⟩ := h s
  cases ho.symm.trans ho'
  exact ⟨hfuel.le, fun a _ => .inl (by rw [hfuel, hsteps, Nat.zero_add])⟩

theorem Exact.bind {loose : β → Prop} {k : α → VmM β} (hx : Exact x) (hk : ∀ a, Metered loose (k a)) :
    Metered loose (x >>= k) := by
  intro s o ho
  rcases bind_eq_some ho with ⟨e, s', n, hx', rfl⟩ | ⟨a, s', n, o', hx', hk', rfl⟩
  · exact ⟨(hx hx').1, fun a ha => by cases ha⟩
  · have hle := (hx hx').1
    have hpaid : n + s'.fuel = s.fuel := hx.paid hx' rfl
    refine ⟨(hk a hk').1.trans hle, fun b hb => ?_⟩
    refine ((hk a hk').2 b hb).imp (fun h => ?_) id
    dsimp only
    omega

/-- After a construct that may have used up the fuel only a pure step is allowed. -/
theorem Metered.map {loose' : β → Prop} (hx : Metered loose x) (f : α → β) (hf : ∀ a, loose a → loose' (f a)) :
    Metered loose' (x >>= fun a => pure (f a)) := by
  intro s o ho
  rcases bind_eq_some ho with ⟨e, s', n, hx', rfl⟩ | ⟨a, s', n, o', hx', hk', rfl⟩
  · exact ⟨(hx hx').1, fun a ha => by cases ha⟩
  · cases hk'
    refine ⟨(hx hx').1, fun b hb => ?_⟩
    cases hb
    exact ((hx hx').2 a rfl).imp id fun h => ⟨h.1, hf a h.2⟩

end Metered

theorem free_pure (a : α) : Free (pure a : VmM α) := fun s => ⟨⟨.ok a, s, 0⟩, rfl, rfl, rfl⟩

theorem free_fault (e : Fault) : Free (fault e : VmM α) := fun s => ⟨⟨.error e, s, 0⟩, rfl, rfl, rfl⟩

theorem free_ofExcept (r : Except Fault α) : Free (ofExcept r) := by
  cases r with
  | ok a => exact free_pure a
  | error e => exact free_fault e

theorem free_ofOption (e : Fault) (r : Option α) : Free (ofOption e r) := by
  cases r with
  | some a => exact free_pure a
  | none => exact free_fault e

theorem free_onTx (f : VmTx → VmTx) : Free (onTx f) := fun s => ⟨⟨.ok (), { s with tx := f s.tx }, 0⟩, rfl, rfl, rfl⟩

theorem free_setSkip : Free setSkip := fun s => ⟨⟨.ok (), { s with parallelSkip := true }, 0⟩, rfl, rfl, rfl⟩

theorem free_force (v : Value) : Free (force v) := fun _ => ⟨_, rfl, rfl, rfl⟩

theorem free_noreEnter (key : ℕ × ℕ) : Free (noreEnter key) := fun _ => ⟨_, rfl, rfl, rfl⟩

theorem free_runKernel (K : Kernel) (m : BcModule) (f : BcFn) (instr : Instr) (pc : ℕ) (regs : List Value) :
    Free (runKernel K m f instr pc regs) := by
  intro s
  unfold runKernel
  split
  · exact ⟨_, rfl, rfl, rfl⟩
  · exact ⟨_, rfl, rfl, rfl⟩

theorem Free.bind {x : VmM α} {k : α → VmM β} (hx : Free x) (hk : ∀ a, Free (k a)) : Free (x >>= k) := by
  intro s
  obtain ⟨⟨r, s', n⟩, ho, hfuel, hsteps⟩ := hx s
  cases r with
  | error e => exact ⟨_, bind_of_error k ho, hfuel, hsteps⟩
  | ok a =>
    obtain ⟨o', ho', hfuel', hsteps'⟩ := hk a s'
    refine ⟨{ o' with steps := n + o'.steps }, ?_, hfuel'.trans hfuel, ?_⟩
    · rw [bind_of_ok k ho, ho']
      rfl
    · dsimp only at hsteps ⊢
      rw [hsteps, hsteps']

theorem free_forceReg (regs : List Value) (r : Reg) : Free (forceReg regs r) :=
  (free_force _).bind fun _ => free_pure _

theorem exact_tick : Exact tick := by
  intro s o ho
  unfold tick at ho
  split_ifs at ho with hzero
  · cases ho
    exact ⟨le_rfl, fun a ha => by cases ha⟩
  · cases ho
    exact ⟨Nat.sub_le .., fun _ _ => .inl (by dsimp only; omega)⟩

/-! ### Legs are charged -/

section Legs

variable {leg : ι → σ → VmM α} {bindResult : ι → σ → α → Bool → σ} {budget : ℕ}

/-- A repetition is charged in full. -/
theorem rerunLeg_paid {x : VmM α} (hx : Exact x) {s : VmState} {o : Out (α × VmState)}
    (ho : rerunLeg x s = some o) : o.state.fuel ≤ s.fuel ∧
      ∀ r, o.result = .ok r → o.steps + o.state.fuel = s.fuel := by
  unfold rerunLeg at ho
  split at ho
  · cases ho
  · cases ho
    exact ⟨le_rfl, fun a ha => by cases ha⟩
  · next v sub n hrun =>
    cases ho
    have hle : sub.fuel ≤ s.fuel := (hx hrun).1
    have hpaid : n + sub.fuel = s.fuel := hx.paid hrun rfl
    refine ⟨Nat.sub_le .., fun _ _ => ?_⟩
    dsimp only
    omega

theorem finalLeg_exact {x : VmM α} (hx : Exact x) (batch : Finset U128) (final : α × VmState) :
    Exact (finalLeg x batch final) := by
  unfold finalLeg
  split_ifs
  · exact fun s o h => ⟨(rerunLeg_paid hx h).1, fun r hr => .inl ((rerunLeg_paid hx h).2 r hr)⟩
  · exact (free_pure _).exact

/-- The merge charges what the legs have used beforehand, unless that leaves no fuel. -/
theorem mergeLegs_paid (hleg : ∀ i acc, Exact (leg i acc)) {outs : List (ι × Out α)}
    (houts : ∀ p ∈ outs, ∀ a, p.2.result = .ok a → p.2.steps + p.2.state.fuel = budget)
    {batch : Finset U128} {acc : σ} {s : VmState} {o : Out σ}
    (ho : mergeLegs leg bindResult budget outs batch acc s = some o) :
    o.state.fuel ≤ s.fuel ∧ ∀ a, o.result = .ok a →
      (outs.map fun p => p.2.steps).sum + o.steps + o.state.fuel = s.fuel ∨ o.state.fuel = 0 := by
  induction outs generalizing batch acc s o with
  | nil =>
    cases ho
    exact ⟨le_rfl, fun _ _ => .inl (by simp)⟩
  | cons p outs ih =>
    obtain ⟨i, out⟩ := p
    have hhead := houts _ List.mem_cons_self
    have htail := fun p hp => houts p (List.mem_cons_of_mem _ hp)
    obtain ⟨result, sub, k⟩ := out
    rw [mergeLegs] at ho
    cases result with
    | error e =>
      cases ho
      exact ⟨le_rfl, fun a ha => by cases ha⟩
    | ok value =>
      have hused : k + sub.fuel = budget := hhead value rfl
      rcases bind_eq_some ho with ⟨e, s', n, hx, rfl⟩ | ⟨v, s', n, o₁, hx, ho₁, rfl⟩
      · cases hx
      cases hx
      rcases bind_eq_some ho₁ with ⟨e, s', n, hx, rfl⟩ | ⟨_, s₁, n, o₂, hx, ho₂, rfl⟩
      · cases hx
      cases hx
      have hfinal : Exact (finalLeg (leg i acc) batch (value, sub)) := finalLeg_exact (hleg i acc) ..
      rcases bind_eq_some ho₂ with ⟨e, s', n, hx, rfl⟩ | ⟨final, s₂, n, o₃, hx, ho₃, rfl⟩
      · have hle : s'.fuel ≤ s.fuel - (budget - sub.fuel) := (hfinal hx).1
        refine ⟨?_, fun a ha => by cases ha⟩
        dsimp only
        omega
      have hle : s₂.fuel ≤ s.fuel - (budget - sub.fuel) := (hfinal hx).1
      have hpaid : n + s₂.fuel = s.fuel - (budget - sub.fuel) := hfinal.paid hx rfl
      rcases bind_eq_some ho₃ with ⟨e, s', n', hx, rfl⟩ | ⟨_, s₃, n', o₄, hx, ho₄, rfl⟩
      · cases hx
      cases hx
      obtain ⟨hle', hpaid'⟩ := ih htail ho₄
      dsimp only at hle'
      refine ⟨by dsimp only; omega, fun a ha => ?_⟩
      rcases hpaid' a ha with h | h
      · dsimp only at h
        simp only [List.map_cons, List.sum_cons]
        omega
      · exact .inr h

/-- A construct that runs legs has paid for all of them, or has no fuel left. -/
theorem parallel_metered (hleg : ∀ i acc, Exact (leg i acc)) (legs : List ι) (acc : σ) :
    Metered (fun _ => True) (parallel legs leg bindResult acc) := by
  intro s o ho
  unfold parallel at ho
  split at ho
  · cases ho
  · next outs houts =>
    obtain ⟨o', ho', rfl⟩ := Option.map_eq_some_iff.mp ho
    have hbudget : ∀ p ∈ legs.zip outs, ∀ a, p.2.result = .ok a → p.2.steps + p.2.state.fuel = s.fuel := by
      intro p hp a ha
      obtain ⟨i, -, hrun⟩ := mem_of_mapM houts (List.of_mem_zip hp).2
      exact (hleg i acc).paid (s := s.fork) hrun ha
    have hsum : ((legs.zip outs).map fun p => p.2.steps).sum = (outs.map Out.steps).sum := by
      rw [show (legs.zip outs).map (fun p => p.2.steps) = ((legs.zip outs).map Prod.snd).map Out.steps by
        rw [List.map_map]; rfl, List.map_snd_zip (length_of_mapM houts).le]
    obtain ⟨hle, hpaid⟩ := mergeLegs_paid hleg hbudget ho'
    refine ⟨hle, fun a ha => ?_⟩
    rcases hpaid a ha with h | h
    · exact .inl (by rw [← hsum]; exact h)
    · exact .inr ⟨h, trivial⟩

end Legs

/-! ### Instructions and bodies -/

/-- A body that pays for what it carries out. -/
def ExactBody (body : Body) : Prop := ∀ mi fi regs pc, Exact (body mi fi regs pc)

section Exec

variable {modules : List BcModule} {body : Body}

theorem withNoreExit_exact (key : ℕ × ℕ) {x : VmM Value} (hx : Exact x) : Exact (withNoreExit key x) := by
  intro s o ho
  obtain ⟨o', ho', rfl⟩ := Option.map_eq_some_iff.mp ho
  exact ⟨(hx ho').1, (hx ho').2⟩

theorem call_exact (hbody : ExactBody body) (mi fi : ℕ) (args : List Value) :
    Exact (call modules body mi fi args) := by
  unfold call
  refine (free_ofOption _ _).exact.bind fun mf => ?_
  obtain ⟨m, f⟩ := mf
  dsimp only
  split_ifs
  · exact (free_fault _).exact
  · refine (free_noreEnter _).exact.bind fun fresh => ?_
    split_ifs
    · exact (free_fault _).exact
    · exact withNoreExit_exact _ (hbody ..)
  · exact hbody ..

theorem dispatchHandlersParallel_metered (hbody : ExactBody body) (emitModule structName : String)
    (v : Value) : Metered (fun _ => True) (dispatchHandlersParallel modules body emitModule structName v) := by
  unfold dispatchHandlersParallel
  split
  · exact (free_pure _).exact.metered
  · exact (call_exact hbody ..).bind fun _ => (free_pure _).exact.metered
  · exact parallel_metered (fun h _ => call_exact hbody ..) _ _

theorem emit_metered (hbody : ExactBody body) (m : BcModule) (value : Reg) (regs : List Value) :
    Metered (fun _ => True) (emit modules body m value regs) := by
  unfold emit
  refine (free_forceReg _ _).exact.bind fun r => ?_
  obtain ⟨v, regs⟩ := r
  dsimp only
  split
  · refine (free_onTx _).exact.bind fun _ => ?_
    exact (dispatchHandlersParallel_metered hbody ..).map _ fun _ _ => trivial
  · exact (free_fault _).exact.metered

theorem parallelForBegin_metered (hbody : ExactBody body) (mi fi bodyStart : ℕ)
    (sourceReg outputReg idReg idxReg : Reg) (regs : List Value) : Metered (fun _ => True)
      (parallelForBegin body mi fi bodyStart sourceReg outputReg idReg idxReg regs) := by
  unfold parallelForBegin
  refine (free_forceReg _ _).exact.bind fun r => ?_
  obtain ⟨source, regs⟩ := r
  refine (free_forceReg _ _).exact.bind fun r => ?_
  obtain ⟨output, regs⟩ := r
  refine (free_ofExcept _).exact.bind fun sourceElems => (free_ofExcept _).exact.bind fun outputElems => ?_
  split_ifs
  · exact (free_fault _).exact.metered
  · exact (parallel_metered (fun leg _ => hbody ..) _ _).map _ fun _ _ => trivial

/-- What goes on after the instruction. -/
def Next.IsGoto (next : Next) : Prop := ∃ pc regs, next = .goto pc regs

/-- An instruction that may have used up the fuel goes on in the body. -/
theorem exec_metered (hbody : ExactBody body) (K : Kernel) (m : BcModule) (mi : ℕ) (f : BcFn) (fi : ℕ)
    (instr : Instr) (pc : ℕ) (regs : List Value) :
    Metered Next.IsGoto (exec K modules body m mi f fi instr pc regs) := by
  unfold exec
  split
  · exact (free_pure _).exact.metered
  · refine (free_forceReg _ _).exact.bind fun r => ?_
    obtain ⟨v, regs⟩ := r
    dsimp only
    split
    · exact (free_pure _).exact.metered
    · exact (free_pure _).exact.metered
  · exact (call_exact hbody ..).bind fun _ => (free_pure _).exact.metered
  · refine (free_ofExcept _).exact.bind fun _ => (free_ofExcept _).exact.bind fun _ => ?_
    refine (free_ofExcept _).exact.bind fun _ => ?_
    exact (call_exact hbody ..).bind fun _ => (free_pure _).exact.metered
  · refine (free_forceReg _ _).exact.bind fun r => ?_
    obtain ⟨bound, regs⟩ := r
    refine (free_ofExcept _).exact.bind fun _ => (free_ofExcept _).exact.bind fun _ => ?_
    refine (free_ofExcept _).exact.bind fun _ => ?_
    exact (call_exact hbody ..).bind fun _ => (free_pure _).exact.metered
  · exact (free_pure _).exact.metered
  · exact (free_pure _).exact.metered
  · exact (free_pure _).exact.metered
  · refine (free_forceReg _ _).exact.bind fun r => ?_
    obtain ⟨v, regs⟩ := r
    exact (free_pure _).exact.metered
  · exact free_setSkip.exact.bind fun _ => (free_pure _).exact.metered
  · exact (parallel_metered (fun range regs => hbody ..) _ _).map _ fun _ _ => ⟨_, _, rfl⟩
  · exact (parallelForBegin_metered hbody ..).map _ fun _ _ => ⟨_, _, rfl⟩
  · exact (emit_metered hbody ..).map _ fun _ _ => ⟨_, _, rfl⟩
  · exact (free_runKernel _ _ _ _ _ _).exact.metered

theorem step_metered (hbody : ExactBody body) (K : Kernel) (mi fi : ℕ) (regs : List Value) (pc : ℕ) :
    Metered Next.IsGoto (step K modules body mi fi regs pc) := by
  unfold step
  refine (free_ofOption _ _).exact.bind fun mf => ?_
  obtain ⟨m, f⟩ := mf
  exact (free_ofOption _ _).exact.bind fun instr => exec_metered hbody ..

/-- A body that is out of fuel does not succeed. -/
theorem callBodyAt_of_no_fuel {K : Kernel} {n mi fi pc : ℕ} {regs : List Value} {s : VmState} {o : Out Value}
    (hs : s.fuel = 0) (ho : callBodyAt K modules n mi fi regs pc s = some o) {v : Value} :
    o.result ≠ .ok v := by
  cases n with
  | zero => cases ho
  | succ n =>
    rw [callBodyAt] at ho
    have htick : tick s = some ⟨.error .outOfFuel, s, 0⟩ := by rw [tick, if_pos hs]
    cases (bind_of_error _ htick).symm.trans ho
    exact fun h => by cases h

/-- **Every body pays for what it carries out**, its callees, its legs and their repetitions included. -/
theorem callBodyAt_exact (K : Kernel) (modules : List BcModule) (n : ℕ) :
    ExactBody (callBodyAt K modules n) := by
  induction n with
  | zero => exact fun _ _ _ _ s o ho => by cases ho
  | succ n ih =>
    intro mi fi regs pc
    rw [callBodyAt]
    refine exact_tick.bind fun _ => ?_
    intro s o ho
    have hstep : Metered Next.IsGoto (step K modules (callBodyAt K modules n) mi fi regs pc) :=
      step_metered ih K mi fi regs pc
    rcases bind_eq_some ho with ⟨e, s', k, hx, rfl⟩ | ⟨next, s', k, o', hx, hk, rfl⟩
    · exact ⟨(hstep hx).1, fun a ha => by cases ha⟩
    · have hle : s'.fuel ≤ s.fuel := (hstep hx).1
      cases next with
      | ret v =>
        cases hk
        refine ⟨hle, fun a _ => ?_⟩
        rcases (hstep hx).2 _ rfl with h | ⟨-, pc', regs', hgoto⟩
        · exact .inl h
        · cases hgoto
      | goto pc' regs' =>
        have hrest := ih mi fi regs' pc'
        refine ⟨(hrest hk).1.trans hle, fun a ha => .inl ?_⟩
        rcases (hstep hx).2 _ rfl with h | ⟨h, -⟩
        · have hpaid := hrest.paid hk ha
          dsimp only at h ⊢
          omega
        · exact absurd ha (callBodyAt_of_no_fuel h hk)

end Exec

/-! ### The bound on the recursion -/

/-- With less than `b` fuel both computations end, and as the same. -/
def Agree (b : ℕ) (x y : VmM α) : Prop := ∀ ⦃s⦄, s.fuel < b → ∃ o, x s = some o ∧ y s = some o

section Agree

variable {b : ℕ} {x y : VmM α}

theorem Free.agree (h : Free x) : Agree b x x := by
  intro s _
  obtain ⟨o, ho, -⟩ := h s
  exact ⟨o, ho, ho⟩

theorem Agree.bind {loose : α → Prop} {k k' : α → VmM β} (h : Agree b x y) (hx : Metered loose x)
    (hk : ∀ a, Agree b (k a) (k' a)) : Agree b (x >>= k) (y >>= k') := by
  intro s hs
  obtain ⟨⟨r, s', n⟩, hx', hy⟩ := h hs
  cases r with
  | error e => exact ⟨_, bind_of_error k hx', bind_of_error k' hy⟩
  | ok a =>
    obtain ⟨o, ho, ho'⟩ := hk a ((hx hx').1.trans_lt hs)
    refine ⟨{ o with steps := n + o.steps }, ?_, ?_⟩
    · rw [bind_of_ok k hx', ho]
      rfl
    · rw [bind_of_ok k' hy, ho']
      rfl

theorem Free.agree_bind {k k' : α → VmM β} (hx : Free x) (hk : ∀ a, Agree b (k a) (k' a)) :
    Agree b (x >>= k) (x >>= k') := hx.agree.bind hx.exact hk

theorem rerunLeg_agree (h : Agree b x y) : Agree b (rerunLeg x) (rerunLeg y) := by
  intro s hs
  obtain ⟨o, hx, hy⟩ := h (s := s.fork) hs
  unfold rerunLeg
  rw [hx, hy]
  obtain ⟨r, sub, n⟩ := o
  cases r with
  | error e => exact ⟨_, rfl, rfl⟩
  | ok v => exact ⟨_, rfl, rfl⟩

theorem finalLeg_agree (h : Agree b x y) (batch : Finset U128) (final : α × VmState) :
    Agree b (finalLeg x batch final) (finalLeg y batch final) := by
  unfold finalLeg
  split_ifs
  · exact rerunLeg_agree h
  · exact (free_pure _).agree

variable {leg leg' : ι → σ → VmM α} {bindResult : ι → σ → α → Bool → σ}

theorem charge_bind (used : ℕ) (k : Unit → VmM β) (s : VmState) :
    (charge used >>= k) s = k () { s with fuel := s.fuel - used } := by
  rw [bind_of_ok k rfl]
  simp

theorem mergeLegs_agree (h : ∀ i acc, Agree b (leg i acc) (leg' i acc)) (hleg : ∀ i acc, Exact (leg i acc))
    (budget : ℕ) (outs : List (ι × Out α)) (batch : Finset U128) (acc : σ) :
    Agree b (mergeLegs leg bindResult budget outs batch acc) (mergeLegs leg' bindResult budget outs batch acc) := by
  induction outs generalizing batch acc with
  | nil => exact (free_pure _).agree
  | cons p outs ih =>
    obtain ⟨i, out⟩ := p
    rw [mergeLegs, mergeLegs]
    refine (free_ofExcept _).agree_bind fun value s hs => ?_
    have hfuel : s.fuel - (budget - out.state.fuel) < b := (Nat.sub_le ..).trans_lt hs
    rw [charge_bind, charge_bind]
    refine (finalLeg_agree (h i acc) batch _).bind (finalLeg_exact (hleg i acc) batch _) (fun final => ?_) hfuel
    exact (free_onTx _).agree_bind fun _ => ih _ _

theorem mapM_eq_some {f g : ι → Option α} {l : List ι} (h : ∀ i ∈ l, ∃ a, f i = some a ∧ g i = some a) :
    ∃ r, l.mapM f = some r ∧ l.mapM g = some r := by
  induction l with
  | nil => exact ⟨[], rfl, rfl⟩
  | cons i l ih =>
    obtain ⟨a, hf, hg⟩ := h i List.mem_cons_self
    obtain ⟨r, hrf, hrg⟩ := ih fun j hj => h j (List.mem_cons_of_mem _ hj)
    exact ⟨a :: r, by simp [List.mapM_cons, hf, hrf], by simp [List.mapM_cons, hg, hrg]⟩

theorem parallel_agree (h : ∀ i acc, Agree b (leg i acc) (leg' i acc)) (hleg : ∀ i acc, Exact (leg i acc))
    (legs : List ι) (acc : σ) : Agree b (parallel legs leg bindResult acc) (parallel legs leg' bindResult acc) := by
  intro s hs
  obtain ⟨outs, houts, houts'⟩ := mapM_eq_some (l := legs) fun i _ => h i acc (s := s.fork) hs
  have hmerge : Agree b (mergeLegs leg bindResult s.fuel (legs.zip outs) ∅ acc)
      (mergeLegs leg' bindResult s.fuel (legs.zip outs) ∅ acc) :=
    mergeLegs_agree h hleg s.fuel (legs.zip outs) ∅ acc
  obtain ⟨o, ho, ho'⟩ := hmerge hs
  unfold parallel
  rw [houts, houts']
  dsimp only
  rw [ho, ho']
  exact ⟨_, rfl, rfl⟩

end Agree

section Bodies

variable {b : ℕ} {modules : List BcModule} {body body' : Body}

theorem call_agree (h : ∀ mi fi regs pc, Agree b (body mi fi regs pc) (body' mi fi regs pc)) (mi fi : ℕ)
    (args : List Value) : Agree b (call modules body mi fi args) (call modules body' mi fi args) := by
  unfold call
  refine (free_ofOption _ _).agree_bind fun mf => ?_
  obtain ⟨m, f⟩ := mf
  dsimp only
  split_ifs
  · exact (free_fault _).agree
  · refine (free_noreEnter _).agree_bind fun fresh => ?_
    split_ifs
    · exact (free_fault _).agree
    · intro s hs
      obtain ⟨o, ho, ho'⟩ := h mi fi (frame f args) 0 hs
      unfold withNoreExit
      rw [ho, ho']
      exact ⟨_, rfl, rfl⟩
  · exact h ..

variable (h : ∀ mi fi regs pc, Agree b (body mi fi regs pc) (body' mi fi regs pc)) (hbody : ExactBody body)
include h hbody

theorem dispatchHandlersParallel_agree (emitModule structName : String) (v : Value) :
    Agree b (dispatchHandlersParallel modules body emitModule structName v)
      (dispatchHandlersParallel modules body' emitModule structName v) := by
  unfold dispatchHandlersParallel
  split
  · exact (free_pure _).agree
  · exact (call_agree h ..).bind (call_exact hbody ..) fun _ => (free_pure _).agree
  · exact parallel_agree (fun _ _ => call_agree h ..) (fun _ _ => call_exact hbody ..) _ _

theorem emit_agree (m : BcModule) (value : Reg) (regs : List Value) :
    Agree b (emit modules body m value regs) (emit modules body' m value regs) := by
  unfold emit
  refine (free_forceReg _ _).agree_bind fun r => ?_
  obtain ⟨v, regs⟩ := r
  dsimp only
  split
  · refine (free_onTx _).agree_bind fun _ => ?_
    exact (dispatchHandlersParallel_agree h hbody ..).bind (dispatchHandlersParallel_metered hbody ..)
      fun _ => (free_pure _).agree
  · exact (free_fault _).agree

theorem parallelForBegin_agree (mi fi bodyStart : ℕ) (sourceReg outputReg idReg idxReg : Reg)
    (regs : List Value) :
    Agree b (parallelForBegin body mi fi bodyStart sourceReg outputReg idReg idxReg regs)
      (parallelForBegin body' mi fi bodyStart sourceReg outputReg idReg idxReg regs) := by
  unfold parallelForBegin
  refine (free_forceReg _ _).agree_bind fun r => ?_
  obtain ⟨source, regs⟩ := r
  refine (free_forceReg _ _).agree_bind fun r => ?_
  obtain ⟨output, regs⟩ := r
  refine (free_ofExcept _).agree_bind fun sourceElems => (free_ofExcept _).agree_bind fun outputElems => ?_
  split_ifs
  · exact (free_fault _).agree
  · exact (parallel_agree (fun _ _ => h ..) (fun _ _ => hbody ..) _ _).bind
      (parallel_metered (fun _ _ => hbody ..) _ _) fun _ => (free_pure _).agree

theorem exec_agree (K : Kernel) (m : BcModule) (mi : ℕ) (f : BcFn) (fi : ℕ) (instr : Instr) (pc : ℕ)
    (regs : List Value) : Agree b (exec K modules body m mi f fi instr pc regs)
      (exec K modules body' m mi f fi instr pc regs) := by
  unfold exec
  split
  · exact (free_pure _).agree
  · refine (free_forceReg _ _).agree_bind fun r => ?_
    obtain ⟨v, regs⟩ := r
    dsimp only
    split
    · exact (free_pure _).agree
    · exact (free_pure _).agree
  · exact (call_agree h ..).bind (call_exact hbody ..) fun _ => (free_pure _).agree
  · refine (free_ofExcept _).agree_bind fun _ => (free_ofExcept _).agree_bind fun _ => ?_
    refine (free_ofExcept _).agree_bind fun _ => ?_
    exact (call_agree h ..).bind (call_exact hbody ..) fun _ => (free_pure _).agree
  · refine (free_forceReg _ _).agree_bind fun r => ?_
    obtain ⟨bound, regs⟩ := r
    refine (free_ofExcept _).agree_bind fun _ => (free_ofExcept _).agree_bind fun _ => ?_
    refine (free_ofExcept _).agree_bind fun _ => ?_
    exact (call_agree h ..).bind (call_exact hbody ..) fun _ => (free_pure _).agree
  · exact (free_pure _).agree
  · exact (free_pure _).agree
  · exact (free_pure _).agree
  · refine (free_forceReg _ _).agree_bind fun r => ?_
    obtain ⟨v, regs⟩ := r
    exact (free_pure _).agree
  · exact free_setSkip.agree_bind fun _ => (free_pure _).agree
  · exact (parallel_agree (fun _ _ => h ..) (fun _ _ => hbody ..) _ _).bind
      (parallel_metered (fun _ _ => hbody ..) _ _) fun _ => (free_pure _).agree
  · exact (parallelForBegin_agree h hbody ..).bind (parallelForBegin_metered hbody ..) fun _ => (free_pure _).agree
  · exact (emit_agree h hbody ..).bind (emit_metered hbody ..) fun _ => (free_pure _).agree
  · exact (free_runKernel _ _ _ _ _ _).agree

theorem step_agree (K : Kernel) (mi fi : ℕ) (regs : List Value) (pc : ℕ) :
    Agree b (step K modules body mi fi regs pc) (step K modules body' mi fi regs pc) := by
  unfold step
  refine (free_ofOption _ _).agree_bind fun mf => ?_
  obtain ⟨m, f⟩ := mf
  exact (free_ofOption _ _).agree_bind fun instr => exec_agree h hbody ..

end Bodies

theorem tick_agree_bind {b : ℕ} {k k' : Unit → VmM β} (h : ∀ a, Agree b (k a) (k' a)) :
    Agree (b + 1) (tick >>= k) (tick >>= k') := by
  intro s hs
  by_cases hzero : s.fuel = 0
  · have htick : tick s = some ⟨.error .outOfFuel, s, 0⟩ := by rw [tick, if_pos hzero]
    exact ⟨_, bind_of_error k htick, bind_of_error k' htick⟩
  · have htick : tick s = some ⟨.ok (), { s with fuel := s.fuel - 1 }, 1⟩ := by rw [tick, if_neg hzero]
    obtain ⟨o, ho, ho'⟩ := h () (s := { s with fuel := s.fuel - 1 }) (by dsimp only; omega)
    refine ⟨{ o with steps := 1 + o.steps }, ?_, ?_⟩
    · rw [bind_of_ok k htick, ho]
      rfl
    · rw [bind_of_ok k' htick, ho']
      rfl

/-- Each instruction takes one unit of fuel, so a bound above the fuel is never reached. -/
theorem callBodyAt_agree (K : Kernel) (modules : List BcModule) {n k : ℕ} (hnk : n ≤ k) (mi fi : ℕ)
    (regs : List Value) (pc : ℕ) :
    Agree n (callBodyAt K modules n mi fi regs pc) (callBodyAt K modules k mi fi regs pc) := by
  induction n generalizing k mi fi regs pc with
  | zero => exact fun s hs => absurd hs (Nat.not_lt_zero _)
  | succ n ih =>
    obtain _ | k := k
    · exact absurd hnk (Nat.not_succ_le_zero _)
    have hle : n ≤ k := Nat.le_of_succ_le_succ hnk
    have hexact := callBodyAt_exact K modules n
    rw [callBodyAt, callBodyAt]
    refine tick_agree_bind fun _ => (step_agree (ih hle) hexact ..).bind (step_metered hexact ..) fun next => ?_
    cases next with
    | goto pc regs => exact ih hle ..
    | ret v => exact (free_pure _).agree

/-- **Fuel bounds every run**: whatever the instructions do, a run ends, and the same for every bound on
the recursion above the fuel; if it succeeds, the instructions carried out in the function, its callees,
handlers and legs and in all repetitions are at most the fuel it was given. -/
theorem fuel_bounds_run (K : Kernel) (modules : List BcModule) (mainIdx : ℕ) (name : String)
    (args : List Value) (fuel : ℕ) (tx : VmTx) :
    ∃ o : Out Value, (∀ bound, fuel < bound → runWorld K modules bound mainIdx name args fuel tx = some o) ∧
      ∀ v, o.result = .ok v → o.steps ≤ fuel := by
  unfold runWorld
  split
  · exact ⟨_, fun _ _ => rfl, fun v hv => by cases hv⟩
  · split
    · exact ⟨_, fun _ _ => rfl, fun v hv => by cases hv⟩
    · next fi _ =>
      have hcall : ∀ k, fuel + 1 ≤ k → Agree (fuel + 1) (call modules (callBodyAt K modules (fuel + 1)) mainIdx fi args)
          (call modules (callBodyAt K modules k) mainIdx fi args) :=
        fun k hk => call_agree (callBodyAt_agree K modules hk) mainIdx fi args
      have hagree := fun k (hk : fuel + 1 ≤ k) =>
        hcall k hk (s := { fuel := fuel, tx := { tx with toTx := tx.toTx.setLazy true } }) (Nat.lt_succ_self fuel)
      obtain ⟨o, ho, -⟩ := hagree (fuel + 1) le_rfl
      refine ⟨settle o, fun bound hbound => ?_, fun v hv => ?_⟩
      · obtain ⟨o', ho', hk⟩ := hagree bound hbound
        rw [hk, ← ho', ho]
        rfl
      · have hok : ∃ w, o.result = .ok w := by
          cases hr : o.result with
          | ok w => exact ⟨w, rfl⟩
          | error e =>
            simp only [settle, hr] at hv
            cases hv
        obtain ⟨w, hw⟩ := hok
        have hpaid := (call_exact (callBodyAt_exact K modules (fuel + 1)) ..).paid ho hw
        change o.steps ≤ fuel
        dsimp only at hpaid
        omega

end Rend.Vm
