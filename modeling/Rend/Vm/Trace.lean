import Rend.Vm.Deferred
import Rend.Vm.Fuel

/-!
# Runs of the machine as runs of its frames

When what the data instructions do to registers and transaction is a flow of a frame, so is what the machine
does: calls, emits, parallel blocks and their repetitions included (`callBodyAt_flows`). What holds of all
runs of a frame, or of a transaction, therefore holds of all runs of the machine. `runWorld_reached` is the
theorem about whole programs, `runWorld_stored` and `runWorld_known` say what follows for what they read.
-/

namespace Rend.Vm

open Lib Pmap

/-! ### Flows -/

/-- Every handle in one of the values is one of a value that is held. -/
def Covers (held vs : List Value) : Prop := ∀ v ∈ vs, ∀ i ∈ handles v, ∃ w ∈ held, i ∈ handles w

theorem Covers.of_subset {held vs : List Value} (h : vs ⊆ held) : Covers held vs := fun v hv _ hi => ⟨v, h hv, hi⟩

theorem Covers.trans {held mid vs : List Value} (h : Covers held mid) (h' : Covers mid vs) : Covers held vs := by
  intro v hv i hi
  obtain ⟨w, hw, hi⟩ := h' v hv i hi
  exact h w hw i hi

theorem Covers.mono {held held' vs : List Value} (h : Covers held vs) (hsub : held ⊆ held') : Covers held' vs :=
  (Covers.of_subset hsub).trans h

theorem Covers.cons {held vs : List Value} {v : Value} (hv : Covers held [v]) (hvs : Covers held vs) :
    Covers held (v :: vs) :=
  List.forall_mem_cons.mpr ⟨hv v List.mem_cons_self, hvs⟩

theorem Covers.append {held vs ws : List Value} (hvs : Covers held vs) (hws : Covers held ws) :
    Covers held (vs ++ ws) := fun v hv => (List.mem_append.mp hv).elim (hvs v) (hws v)

/-- A value without handles. -/
theorem covers_settled {held : List Value} {v : Value} (h : handles v = []) : Covers held [v] := by
  intro w hw i hi
  obtain rfl := List.mem_singleton.mp hw
  rw [h] at hi
  cases hi

/-- A register file in which one register is overwritten. -/
theorem covers_set (regs : List Value) (r : Reg) (v : Value) : Covers (v :: regs) (regs.set r v) :=
  .of_subset fun _ hw => (List.mem_or_eq_of_mem_set hw).elim (List.mem_cons_of_mem _) fun h => h ▸ List.mem_cons_self

theorem covers_arrayElems {v : Value} {elems : List Value} (h : arrayElems v = .ok elems) : Covers [v] elems := by
  unfold arrayElems at h
  split at h <;> cases h
  exact fun w hw i hi => ⟨_, List.mem_cons_self, mem_handlesList.mpr ⟨w, hw, hi⟩⟩

theorem covers_array {held elems : List Value} (h : elems ⊆ held) : Covers held [.array elems] := by
  intro v hv i hi
  obtain rfl := List.mem_singleton.mp hv
  obtain ⟨w, hw, hi⟩ := mem_handlesList.mp hi
  exact ⟨w, h hw, hi⟩

theorem covers_reg (regs : List Value) (r : Reg) : Covers regs [reg regs r] := by
  unfold reg
  rw [List.getD_eq_getElem?_getD]
  cases hr : regs[r]? with
  | none => exact covers_settled rfl
  | some v => exact .of_subset (List.cons_subset.mpr ⟨List.mem_of_getElem? hr, List.nil_subset _⟩)

theorem covers_callArgs (regs : List Value) (argsStart : Reg) (nArgs : ℕ) :
    Covers regs (callArgs regs argsStart nArgs) := by
  intro v hv i hi
  obtain ⟨k, -, rfl⟩ := List.mem_map.mp hv
  exact covers_reg regs (argsStart + k) _ List.mem_cons_self i hi

section Flow

variable {strict : Prop} {m : Frame} {tx tx' tx₁ δ : Tx} {held held' held₁ : List Value}

theorem Flow.trans {m' m'' : Frame} (h : Flow strict m m') (h' : Flow strict m' m'') : Flow strict m m'' := by
  induction h' with
  | refl m => exact h
  | op _ o hops ih => exact (ih h).op o hops
  | build _ v hv ih => exact (ih h).build v hv
  | overwrite _ hsub ih => exact (ih h).overwrite hsub
  | leg _ hsub hfork hδ hback hjoin h₂ ih₁ _ _ => exact (ih₁ h).leg hsub hfork hδ hback hjoin h₂

/-- Values whose handles are held can take the place of those held. -/
theorem Flow.covered {vs : List Value} (h : Flow strict m (tx, held)) (hvs : Covers held vs) :
    Flow strict m (tx, vs) := by
  have hbuilt : Flow strict m (tx, vs ++ held) := by
    induction vs with
    | nil => exact h
    | cons v vs ih =>
      refine (ih (List.forall_mem_cons.mp hvs).2).build v fun i hi => ?_
      obtain ⟨w, hw, hi⟩ := hvs v List.mem_cons_self i hi
      exact ⟨w, List.mem_append_right _ hw, hi⟩
  exact hbuilt.overwrite (List.subset_append_left ..)

/-- What else is held stays held. -/
theorem Flow.frame {m m' : Frame} (h : Flow strict m m') (extra : List Value) :
    Flow strict (m.1, extra ++ m.2) (m'.1, extra ++ m'.2) := by
  induction h with
  | refl m => exact .refl _
  | @op _ tx held _ o hops ih =>
    refine (ih.op o fun v hv => List.mem_append_right _ (hops v hv)).overwrite ?_
    exact List.append_subset.mpr ⟨List.subset_append_of_subset_right _ (List.subset_append_left ..),
      List.append_subset.mpr ⟨List.subset_append_left ..,
        List.subset_append_of_subset_right _ (List.subset_append_right ..)⟩⟩
  | build _ v hv ih =>
    refine (ih.build v fun i hi => ?_).overwrite ?_
    · obtain ⟨w, hw, hi⟩ := hv i hi
      exact ⟨w, List.mem_append_right _ hw, hi⟩
    · exact List.append_subset.mpr ⟨List.subset_cons_of_subset _ (List.subset_append_left ..),
        List.cons_subset.mpr ⟨List.mem_cons_self, List.subset_cons_of_subset _ (List.subset_append_right ..)⟩⟩
  | overwrite _ hsub ih => exact ih.overwrite (List.append_subset.mpr
    ⟨List.subset_append_left .., List.subset_append_of_subset_right _ hsub⟩)
  | leg _ hsub hfork hδ hback hjoin _ ih₁ _ ih =>
    refine (ih₁.leg (List.subset_append_of_subset_right _ hsub) hfork hδ hback hjoin ih).overwrite ?_
    exact List.append_subset.mpr ⟨List.subset_append_of_subset_right _ (List.subset_append_left ..),
      List.append_subset.mpr ⟨List.subset_append_left ..,
        List.subset_append_of_subset_right _ (List.subset_append_right ..)⟩⟩

/-- Without the values, a flow is a run of the transaction. -/
theorem Flow.run {m m' : Frame} (h : Flow strict m m') : ∃ asked, Run (fun _ _ => True) m.1 asked m'.1 := by
  induction h with
  | refl m => exact ⟨_, .refl _⟩
  | op _ o _ ih =>
    obtain ⟨_, hrun⟩ := ih
    exact ⟨_, hrun.op o trivial⟩
  | build _ _ _ ih => exact ih
  | overwrite _ _ ih => exact ih
  | leg _ _ _ _ _ _ _ ih₁ ihδ ih =>
    obtain ⟨_, hrun₁⟩ := ih₁
    obtain ⟨_, hrunδ⟩ := ihδ
    obtain ⟨_, hrun⟩ := ih
    exact ⟨_, hrun₁.leg hrunδ hrun⟩

end Flow

/-! ### Computations -/

variable {α β ι σ : Type} {strict : Prop}

/-- The values that are held when a computation ends. -/
def Out.holds (Q : α → List Value) (o : Out α) : List Value :=
  match o.result with
  | .ok a => Q a
  | .error _ => []

/-- Started with some values held, a computation is a flow of its frame. -/
def Flows (strict : Prop) (held : List Value) (x : VmM α) (Q : α → List Value) : Prop :=
  ∀ ⦃s o⦄, x s = some o → Flow strict (s.tx.toTx, held) (o.state.tx.toTx, o.holds Q)

section Flows

variable {held held' : List Value} {x : VmM α} {Q Q' : α → List Value} {regs : List Value}

theorem Flows.bind {M : α → List Value} {k : α → VmM β} {Q : β → List Value} (hx : Flows strict held x M)
    (hk : ∀ a, Flows strict (M a) (k a) Q) : Flows strict held (x >>= k) Q := by
  intro s o ho
  rcases bind_eq_some ho with ⟨e, s', n, hx', rfl⟩ | ⟨a, s', n, o', hx', hk', rfl⟩
  · exact hx hx'
  · have hbefore := hx hx'
    have hafter := hk a hk'
    exact hbefore.trans hafter

/-- Before, values of the same handles may be held; afterwards, values that can be built may be asked for. -/
theorem Flows.conseq (h : Flows strict held x Q) (hheld : Covers held' held) (hout : ∀ a, Covers (Q a) (Q' a)) :
    Flows strict held' x Q' := by
  intro s o ho
  refine (((Flow.refl _).covered hheld).trans (h ho)).covered ?_
  unfold Out.holds
  split
  · exact hout _
  · exact .of_subset (List.Subset.refl _)

theorem Flows.frame (h : Flows strict held x Q) (extra : List Value) :
    Flows strict (extra ++ held) x fun a => extra ++ Q a := by
  intro s o ho
  refine ((h ho).frame extra).overwrite ?_
  unfold Out.holds
  split
  · exact List.Subset.refl _
  · exact List.nil_subset _

/-- What does not touch the transaction and answers with what is held. -/
theorem Flows.of_tx (h : ∀ ⦃s o⦄, x s = some o →
    o.state.tx.toTx = s.tx.toTx ∧ ∀ a, o.result = .ok a → Covers held (Q a)) : Flows strict held x Q := by
  intro s o ho
  obtain ⟨htx, hout⟩ := h ho
  rw [htx]
  refine (Flow.refl _).covered ?_
  unfold Out.holds
  split
  · next a ha => exact hout a ha
  · exact .of_subset (List.nil_subset _)

theorem flows_pure {a : α} (h : Covers held (Q a)) : Flows strict held (pure a) Q :=
  .of_tx fun s o ho => by
    cases ho
    exact ⟨rfl, fun b hb => by cases hb; exact h⟩

theorem flows_fault (e : Fault) : Flows strict held (fault e : VmM α) Q :=
  .of_tx fun s o ho => by
    cases ho
    exact ⟨rfl, fun b hb => by cases hb⟩

theorem flows_ofExcept {r : Except Fault α} (h : ∀ a, r = .ok a → Covers held (Q a)) :
    Flows strict held (ofExcept r) Q := by
  cases r with
  | ok a => exact flows_pure (h a rfl)
  | error e => exact flows_fault e

/-- An answer in which no value stands. -/
theorem flows_data (r : Except Fault α) : Flows strict held (ofExcept r) fun _ => held :=
  flows_ofExcept fun _ _ => .of_subset (List.Subset.refl _)

theorem flows_ofOption {e : Fault} {r : Option α} {k : α → VmM β} {Q : β → List Value}
    (hk : ∀ a, r = some a → Flows strict held (k a) Q) : Flows strict held (ofOption e r >>= k) Q := by
  intro s o ho
  rcases bind_eq_some ho with ⟨e', s', n, hx, rfl⟩ | ⟨a, s', n, o', hx, hrun, rfl⟩
  · cases r with
    | none =>
      cases hx
      exact (Flow.refl _).overwrite (List.nil_subset _)
    | some a => cases hx
  · cases r with
    | none => cases hx
    | some b =>
      cases hx
      have hflow := hk a rfl hrun
      exact hflow

theorem flows_tick : Flows strict held tick fun _ => held :=
  .of_tx fun s o ho => by
    unfold tick at ho
    split_ifs at ho <;> cases ho <;> exact ⟨rfl, fun _ _ => .of_subset (List.Subset.refl _)⟩

theorem flows_setSkip : Flows strict held setSkip fun _ => held :=
  .of_tx fun s o ho => by
    cases ho
    exact ⟨rfl, fun _ _ => .of_subset (List.Subset.refl _)⟩

theorem flows_noreEnter (key : ℕ × ℕ) : Flows strict held (noreEnter key) fun _ => held :=
  .of_tx fun s o ho => by
    cases ho
    exact ⟨rfl, fun _ _ => .of_subset (List.Subset.refl _)⟩

theorem flows_forceReg (regs : List Value) (r : Reg) :
    Flows strict regs (forceReg regs r) fun p => p.1 :: p.2 := by
  refine Flows.bind (M := fun v => v :: regs) ?_ fun v => flows_pure ?_
  · intro s o ho
    cases ho
    have hheld : Flow strict (s.tx.toTx, regs) (s.tx.toTx, reg regs r :: regs) :=
      (Flow.refl _).covered ((covers_reg regs r).cons (.of_subset (List.Subset.refl _)))
    have hforced := hheld.op (.force (reg regs r)) (List.forall_mem_singleton.mpr List.mem_cons_self)
    exact hforced.overwrite (List.cons_subset_cons _ (List.subset_cons_self _ _))
  · exact Covers.cons (.of_subset (List.cons_subset.mpr ⟨List.mem_cons_self, List.nil_subset _⟩)) (covers_set regs r v)

end Flows

/-! ### Legs -/

section Legs

variable {leg : ι → σ → VmM α} {bindResult : ι → σ → α → Bool → σ} {budget : ℕ} {Q : α → List Value}
  {G : σ → List Value}

/-- The merge folds in legs that have run over the transaction at the fork, or that are run again over
the merged one. -/
theorem mergeLegs_flows (hstrict : ¬ strict)
    (hbind : ∀ i acc v skip, Covers (Q v ++ G acc) (G (bindResult i acc v skip)))
    {tx₀ : Tx} {start : List Value} {outs : List (ι × Out α)}
    (hleg : ∀ p ∈ outs, ∀ acc, Flows strict (G acc) (leg p.1 acc) Q)
    (houts : ∀ p ∈ outs, Flow strict (tx₀.shadowOf, start) (p.2.state.tx.toTx, p.2.holds Q))
    {batch : Finset U128} {acc : σ} {s : VmState} {o : Out σ} (hs : Flow strict (tx₀, start) (s.tx.toTx, G acc))
    (ho : mergeLegs leg bindResult budget outs batch acc s = some o) :
    Flow strict (tx₀, start) (o.state.tx.toTx, o.holds G) := by
  have hfail : ∀ {tx : Tx} {held : List Value}, Flow strict (tx₀, start) (tx, held) →
      Flow strict (tx₀, start) (tx, []) := fun h => h.overwrite (List.nil_subset _)
  induction outs generalizing batch acc s o with
  | nil =>
    cases ho
    exact hs
  | cons p outs ih =>
    obtain ⟨i, ⟨result, sub, k⟩⟩ := p
    have hhead : Flow strict (tx₀.shadowOf, start) (sub.tx.toTx, Out.holds Q ⟨result, sub, k⟩) :=
      houts _ List.mem_cons_self
    have hrest := @ih (fun p hp => hleg p (List.mem_cons_of_mem _ hp)) fun p hp => houts p (List.mem_cons_of_mem _ hp)
    rw [mergeLegs] at ho
    cases result with
    | error e =>
      cases ho
      exact hfail hs
    | ok value =>
      rcases bind_eq_some ho with ⟨e, s', n, hx, rfl⟩ | ⟨v, s', n, o₁, hx, ho₁, rfl⟩
      · cases hx
      cases hx
      rw [charge_bind] at ho₁
      rcases bind_eq_some ho₁ with ⟨e, s', n, hx, rfl⟩ | ⟨final, s₂, n, o₂, hx, ho₂, rfl⟩
      all_goals unfold finalLeg at hx; split_ifs at hx
      · unfold rerunLeg at hx
        split at hx <;> cases hx
        exact hfail hs
      · cases hx
      · unfold rerunLeg at hx
        split at hx <;> cases hx
        next v' sub' n' hrun =>
        rcases bind_eq_some ho₂ with ⟨e, s', n, hx, rfl⟩ | ⟨_, s₃, n, o₃, hx, ho₃, rfl⟩
        · cases hx
        cases hx
        have hmerged := hs.leg (List.Subset.refl _) (fun h => absurd h hstrict) (hleg _ List.mem_cons_self acc hrun)
          (List.Subset.refl _) (fun h => absurd h hstrict) (.refl _)
        have hafter := hrest (hmerged.covered (hbind i acc _ _)) ho₃
        exact hafter
      · cases hx
        rcases bind_eq_some ho₂ with ⟨e, s', n, hx, rfl⟩ | ⟨_, s₃, n, o₃, hx, ho₃, rfl⟩
        · cases hx
        cases hx
        have hmerged := (Flow.refl (tx₀, start)).leg (List.Subset.refl _) (fun h => absurd h hstrict) hhead
          (List.Subset.refl _) (fun h => absurd h hstrict) hs
        have hafter := hrest (hmerged.covered (hbind i acc _ _)) ho₃
        exact hafter

/-- Legs start with what is held at the fork, the results bound so far included. -/
theorem flows_parallel (hstrict : ¬ strict)
    (hbind : ∀ i acc v skip, Covers (Q v ++ G acc) (G (bindResult i acc v skip)))
    {legs : List ι} (hleg : ∀ i ∈ legs, ∀ acc, Flows strict (G acc) (leg i acc) Q) (acc : σ) :
    Flows strict (G acc) (parallel legs leg bindResult acc) G := by
  intro s o ho
  unfold parallel at ho
  split at ho
  · cases ho
  · next outs houts =>
    obtain ⟨o', ho', rfl⟩ := Option.map_eq_some_iff.mp ho
    have hbefore : ∀ p ∈ legs.zip outs,
        Flow strict (s.tx.toTx.shadowOf, G acc) (p.2.state.tx.toTx, p.2.holds Q) := by
      intro p hp
      obtain ⟨i, hi, hrun⟩ := mem_of_mapM houts (List.of_mem_zip hp).2
      exact hleg i hi acc hrun
    have hmerged := mergeLegs_flows hstrict hbind (fun p hp => hleg p.1 (List.of_mem_zip hp).1) hbefore (.refl _) ho'
    exact hmerged

end Legs

/-! ### Bodies -/

/-- An instruction that starts legs, or may. -/
def Forks : Instr → Prop
  | .parallelBegin .. | .parallelForBegin .. | .emit .. => True
  | _ => False

/-- The values a function goes on with. -/
def Next.holds : Next → List Value
  | .goto _ regs => regs
  | .ret v => [v]

/-- What the kernel does is a flow of the frame, in which no handle crosses a fork. -/
def Kernel.ByFlow (K : Kernel) : Prop :=
  ∀ m f instr pc regs tx r, K m f instr pc regs tx = .ok r → Flow True (tx, regs) (r.2.2, r.2.1)

theorem Flow.mono {s s' : Prop} {m m' : Frame} (hs : s' → s) (h : Flow s m m') : Flow s' m m' := by
  induction h with
  | refl m => exact .refl m
  | op _ o hops ih => exact ih.op o hops
  | build _ v hv ih => exact ih.build v hv
  | overwrite _ hsub ih => exact ih.overwrite hsub
  | leg _ hsub hfork _ hback hjoin _ ih₁ ihδ ih =>
    exact ih₁.leg hsub (fun h => hfork (hs h)) ihδ hback (fun h => hjoin (hs h)) ih

theorem flows_runKernel {K : Kernel} (hK : K.ByFlow) (m : BcModule) (f : BcFn) (instr : Instr) (pc : ℕ)
    (regs : List Value) : Flows strict regs (runKernel K m f instr pc regs) Next.holds := by
  intro s o ho
  unfold runKernel at ho
  split at ho
  · cases ho
    exact (Flow.refl _).overwrite (List.nil_subset _)
  · next pc' regs' tx' hrun =>
    cases ho
    have hflow := hK _ _ _ _ _ _ _ hrun
    exact hflow.mono fun _ => trivial

section Bodies

variable {modules : List BcModule} {body : Body}
  (hbody : ∀ mi fi regs pc, Flows strict regs (body mi fi regs pc) fun v => [v])
include hbody

theorem flows_call (mi fi : ℕ) (args : List Value) : Flows strict args (call modules body mi fi args) fun v => [v] := by
  have hframe : ∀ f : BcFn, Covers args (frame f args) := fun f =>
    Covers.append (.of_subset (List.Subset.refl _)) fun v hv => by
      rw [List.eq_of_mem_replicate hv]
      exact covers_settled rfl _ List.mem_cons_self
  have hrun : ∀ f : BcFn, Flows strict args (body mi fi (frame f args) 0) fun v => [v] := fun f =>
    (hbody mi fi (frame f args) 0).conseq (hframe f) fun _ => .of_subset (List.Subset.refl _)
  unfold call
  refine flows_ofOption fun mf _ => ?_
  obtain ⟨m, f⟩ := mf
  dsimp only
  split_ifs
  · exact flows_fault _
  · refine (flows_noreEnter _).bind fun fresh => ?_
    split_ifs
    · exact flows_fault _
    · intro s o ho
      obtain ⟨o', ho', rfl⟩ := Option.map_eq_some_iff.mp ho
      have hflow := hrun f ho'
      exact hflow
  · exact hrun f

/-- A call whose arguments stand in the registers, which are kept. -/
theorem flows_call_kept {regs args : List Value} (hargs : Covers regs args) (mi fi : ℕ) :
    Flows strict regs (call modules body mi fi args) fun v => v :: regs := by
  have hcall : Flows strict (regs ++ args) (call modules body mi fi args) fun v => regs ++ [v] :=
    (flows_call hbody mi fi args).frame regs
  refine hcall.conseq (Covers.append (.of_subset (List.Subset.refl _)) hargs) fun v => .of_subset ?_
  exact List.cons_subset.mpr ⟨List.mem_append_right _ List.mem_cons_self, List.subset_append_left ..⟩

/-- The result of a call is stored in a register. -/
theorem flows_call_stored {regs : List Value} (pc argsStart nArgs mi fi : ℕ) (dst : Reg) :
    Flows strict regs
      (do let v ← call modules body mi fi (callArgs regs argsStart nArgs); return Next.goto pc (regs.set dst v))
      Next.holds :=
  (flows_call_kept hbody (covers_callArgs _ _ _) mi fi).bind fun _ => flows_pure (covers_set _ _ _)

theorem flows_dispatch (hstrict : ¬ strict) (emitModule structName : String) (v : Value) (regs : List Value) :
    Flows strict (v :: regs) (dispatchHandlersParallel modules body emitModule structName v) fun _ => regs := by
  have hv : Covers (v :: regs) [v] := .of_subset (List.cons_subset.mpr ⟨List.mem_cons_self, List.nil_subset _⟩)
  have hregs : Covers (v :: regs) regs := .of_subset (List.subset_cons_self _ _)
  have hcall : ∀ h : ℕ × ℕ, Flows strict (v :: regs) (call modules body h.1 h.2 [v]) fun w => w :: v :: regs :=
    fun h => flows_call_kept hbody hv h.1 h.2
  unfold dispatchHandlersParallel
  split
  · exact flows_pure hregs
  · next mi fi _ => exact (hcall (mi, fi)).bind fun w => flows_pure (hregs.mono (List.subset_cons_self _ _))
  · exact Flows.conseq (flows_parallel (G := fun _ => v :: regs) hstrict
      (fun _ _ _ _ => .of_subset (List.subset_append_right ..)) (fun h _ _ => hcall h) ())
      (.of_subset (List.Subset.refl _)) fun _ => hregs

theorem flows_emit (hstrict : ¬ strict) (m : BcModule) (value : Reg) (regs : List Value) :
    Flows strict regs (emit modules body m value regs) fun regs => regs := by
  unfold emit
  refine (flows_forceReg _ _).bind fun p => ?_
  obtain ⟨v, regs⟩ := p
  dsimp only
  split
  · next name fields =>
    refine Flows.bind (M := fun _ => .struct name fields :: regs) ?_ fun _ => ?_
    · exact .of_tx fun s o ho => by
        cases ho
        exact ⟨rfl, fun _ _ => .of_subset (List.Subset.refl _)⟩
    · exact (flows_dispatch hbody hstrict ..).bind fun _ => flows_pure (.of_subset (List.Subset.refl _))
  · exact flows_fault _

theorem flows_parallelBegin (hstrict : ¬ strict) (mi fi : ℕ) (ranges : List ParallelRange) (regs : List Value) :
    Flows strict regs (parallelBegin body mi fi ranges regs) fun regs => regs := by
  refine flows_parallel (Q := fun v => [v]) (G := fun regs => regs) hstrict (fun range acc v _ => ?_)
    (fun range _ acc => hbody mi fi acc range.start) regs
  split
  · exact covers_set _ _ _
  · exact .of_subset (List.subset_cons_self _ _)

theorem flows_parallelForBegin (hstrict : ¬ strict) (mi fi bodyStart : ℕ) (sourceReg outputReg idReg idxReg : Reg)
    (regs : List Value) :
    Flows strict regs (parallelForBegin body mi fi bodyStart sourceReg outputReg idReg idxReg regs)
      fun regs => regs := by
  unfold parallelForBegin
  refine (flows_forceReg _ _).bind fun p => ?_
  obtain ⟨source, regs⟩ := p
  refine ((flows_forceReg regs outputReg).frame [source]).bind fun p => ?_
  obtain ⟨output, regs⟩ := p
  refine Flows.bind (M := fun elems => output :: (elems ++ regs)) (flows_ofExcept fun elems h => ?_) fun elems => ?_
  · have helems : Covers (source :: output :: regs) elems :=
      (covers_arrayElems h).mono (List.cons_subset_cons source (List.nil_subset _))
    exact Covers.cons (.of_subset (by simp)) (helems.append (.of_subset (by simp)))
  refine Flows.bind (M := fun slots => slots ++ (elems ++ regs)) (flows_ofExcept fun slots h => ?_) fun slots => ?_
  · exact ((covers_arrayElems h).mono (List.cons_subset_cons output (List.nil_subset _))).append
      (.of_subset (List.subset_cons_self _ _))
  split_ifs
  · exact flows_fault _
  · have hleg : ∀ leg ∈ elems.zipIdx, ∀ acc : List Value,
        Covers (acc ++ (elems ++ regs)) (legRegs regs idReg idxReg leg.1 leg.2) := by
      intro leg hmem acc
      have hregs : Covers (.int leg.2 :: leg.1 :: regs) (legRegs regs idReg idxReg leg.1 leg.2) :=
        (Covers.cons (.of_subset (by simp)) ((covers_set regs idReg leg.1).mono (List.subset_cons_self _ _))).trans
          (covers_set _ idxReg _)
      have hheld : Covers (acc ++ (elems ++ regs)) (.int leg.2 :: leg.1 :: regs) := by
        refine (covers_settled rfl).cons (.of_subset (List.cons_subset.mpr ⟨?_, by simp⟩))
        exact List.mem_append_right _ (List.mem_append_left _ (List.fst_mem_of_mem_zipIdx hmem))
      exact hheld.trans hregs
    refine Flows.bind (flows_parallel (G := fun slots => slots ++ (elems ++ regs)) (Q := fun v => [v]) hstrict ?_
      (fun leg hmem acc => (hbody ..).conseq (hleg leg hmem acc) fun _ => .of_subset (List.Subset.refl _)) slots) ?_
    · intro leg slots v skip
      refine Covers.append ?_ (.of_subset (by simp))
      split
      · exact .of_subset (by simp)
      · exact (covers_set slots leg.2 v).mono (List.cons_subset_cons v (List.subset_append_left ..))
    · exact fun slots => flows_pure ((Covers.cons (covers_array (List.subset_append_left ..))
        (.of_subset (by simp))).trans (covers_set regs outputReg _))

theorem flows_exec {K : Kernel} (hK : K.ByFlow) (m : BcModule) (mi : ℕ) (f : BcFn) (fi : ℕ) (instr : Instr)
    (hforks : strict → ¬ Forks instr) (pc : ℕ) (regs : List Value) :
    Flows strict regs (exec K modules body m mi f fi instr pc regs) Next.holds := by
  have hsame : ∀ regs : List Value, Covers regs regs := fun _ => .of_subset (List.Subset.refl _)
  have hstrict : Forks instr → ¬ strict := fun hfork hs => hforks hs hfork
  cases instr with
  | jump offset => exact flows_pure (hsame _)
  | jumpIfFalse cond offset =>
    refine (flows_forceReg _ _).bind fun p => ?_
    obtain ⟨v, regs⟩ := p
    dsimp only
    split
    · exact flows_pure (.of_subset (List.subset_cons_self _ _))
    · exact flows_pure (.of_subset (List.subset_cons_self _ _))
  | call dst callee argsStart nArgs => exact flows_call_stored hbody ..
  | callExternal dst moduleNameIdx fnNameIdx argsStart nArgs isView isPure =>
    refine (flows_data _).bind fun moduleName => (flows_data _).bind fun fnName => ?_
    exact (flows_data _).bind fun target => flows_call_stored hbody ..
  | callExternalDyn dst targetReg fnNameIdx argsStart nArgs isView isPure =>
    refine (flows_forceReg _ _).bind fun p => ?_
    obtain ⟨bound, regs⟩ := p
    refine (flows_data _).bind fun moduleName => (flows_data _).bind fun fnName => (flows_data _).bind fun target => ?_
    exact (flows_call_stored hbody ..).conseq (.of_subset (List.subset_cons_self _ _)) fun _ => hsame _
  | ret src => exact flows_pure (covers_reg _ _)
  | returnUnit => exact flows_pure (covers_settled rfl)
  | parallelYield value =>
    cases value with
    | none => exact flows_pure (covers_settled rfl)
    | some r =>
      refine (flows_forceReg _ _).bind fun p => flows_pure (.of_subset ?_)
      exact List.cons_subset.mpr ⟨List.mem_cons_self, List.nil_subset _⟩
  | parallelForSkip => exact flows_setSkip.bind fun _ => flows_pure (covers_settled rfl)
  | parallelBegin ranges afterPc =>
    exact (flows_parallelBegin hbody (hstrict trivial) ..).bind fun _ => flows_pure (hsame _)
  | parallelForBegin bodyStart bodyEnd sourceReg outputReg idReg idxReg afterPc =>
    exact (flows_parallelForBegin hbody (hstrict trivial) ..).bind fun _ => flows_pure (hsame _)
  | emit value => exact (flows_emit hbody (hstrict trivial) ..).bind fun _ => flows_pure (hsame _)
  | _ => exact flows_runKernel hK ..

end Bodies

/-! ### The machine -/

section Machine

variable {K : Kernel} {modules : List BcModule}

/-- No function has an instruction that starts legs. -/
def ForkFree (modules : List BcModule) : Prop :=
  ∀ m ∈ modules, ∀ f ∈ m.functions, ∀ instr ∈ f.code, ¬ Forks instr

theorem forkFree_step (h : ForkFree modules) {mi fi pc : ℕ} {m : BcModule} {f : BcFn} {instr : Instr}
    (hf : fnAt modules mi fi = some (m, f)) (hi : f.code[pc]? = some instr) : ¬ Forks instr := by
  obtain ⟨m', hm, hf⟩ := Option.bind_eq_some_iff.mp hf
  obtain ⟨f', hf', heq⟩ := Option.bind_eq_some_iff.mp hf
  cases heq
  exact h m (List.mem_of_getElem? hm) f (List.mem_of_getElem? hf') instr (List.mem_of_getElem? hi)

/-- **Every run of the machine is a run of its frame**, in which no handle crosses a fork when nothing forks. -/
theorem callBodyAt_flows (hK : K.ByFlow) (hforks : strict → ForkFree modules) (n mi fi : ℕ) (regs : List Value)
    (pc : ℕ) : Flows strict regs (callBodyAt K modules n mi fi regs pc) fun v => [v] := by
  induction n generalizing mi fi regs pc with
  | zero => exact fun s o ho => by cases ho
  | succ n ih =>
    rw [callBodyAt]
    refine flows_tick.bind fun _ => Flows.bind (M := Next.holds) ?_ fun next => ?_
    · unfold step
      refine flows_ofOption fun mf hf => ?_
      obtain ⟨m, f⟩ := mf
      refine flows_ofOption fun instr hi => ?_
      exact flows_exec ih hK m mi f fi instr (fun hs => forkFree_step (hforks hs) hf hi) (pc + 1) regs
    · cases next with
      | goto pc regs => exact ih ..
      | ret v => exact flows_pure (.of_subset (List.Subset.refl _))

theorem flow_settle {m : Frame} {o : Out Value} (h : Flow strict m (o.state.tx.toTx, o.holds fun v => [v])) :
    Flow strict m ((settle o).state.tx.toTx, (settle o).holds fun v => [v]) := by
  obtain ⟨result, s, n⟩ := o
  cases result with
  | error e => exact (h.op .flushPending (List.forall_mem_nil _)).op (.setLazy false) (List.forall_mem_nil _)
  | ok v =>
    have hforced := (h.op (.force v) (List.forall_mem_singleton.mpr List.mem_cons_self)).overwrite
      (List.subset_append_left ..)
    exact (hforced.op .flushPending (List.forall_mem_nil _)).op (.setLazy false) (List.forall_mem_nil _)

variable {bound mainIdx fuel : ℕ} {name : String} {args : List Value} {tx : VmTx} {kv : Kv} {o : Out Value}

/-- A program that is run on arguments from outside, which hold no handle, is a flow from a new transaction. -/
theorem runWorld_flow (hK : K.ByFlow) (hforks : strict → ForkFree modules) (hargs : ∀ v ∈ args, handles v = [])
    (htx : tx.toTx = Tx.new kv) (h : runWorld K modules bound mainIdx name args fuel tx = some o) :
    Flow strict (Tx.new kv, []) (o.state.tx.toTx, o.holds fun v => [v]) := by
  have hfault : ∀ (e : Fault) (s : VmState), s.tx = tx →
      Flow strict (Tx.new kv, []) (s.tx.toTx, Out.holds (fun v : Value => [v]) ⟨.error e, s, 0⟩) := by
    rintro e s rfl
    rw [htx]
    exact .refl _
  unfold runWorld at h
  split at h
  · cases h
    exact hfault _ _ rfl
  · split at h
    · cases h
      exact hfault _ _ rfl
    · obtain ⟨o', ho', rfl⟩ := Option.map_eq_some_iff.mp h
      have hcall := flows_call (callBodyAt_flows hK hforks bound) _ _ _ ho'
      have hstart : Flow strict (Tx.new kv, []) (tx.toTx.setLazy true, args) := by
        have hlazy : Flow strict (Tx.new kv, []) ((Tx.new kv).setLazy true, []) :=
          (Flow.refl _).op (.setLazy true) (List.forall_mem_nil _)
        rw [htx]
        exact hlazy.covered fun v hv i hi => absurd hi (by rw [hargs v hv]; exact List.not_mem_nil)
      exact flow_settle (hstart.trans hcall)

/-- **Every run of a program is a run over the store**, as far as its transaction and its answer are concerned. -/
theorem runWorld_reached (hK : K.ByFlow) (hforks : strict → ForkFree modules) (hargs : ∀ v ∈ args, handles v = [])
    (htx : tx.toTx = Tx.new kv) (h : runWorld K modules bound mainIdx name args fuel tx = some o) :
    Reached strict kv (o.state.tx.toTx, o.holds fun v => [v]) :=
  .flow .start (runWorld_flow hK hforks hargs htx h)

/-- **What a program has not written it has read from the store**: each entry of its read set, at a cell it has not
written, is what the store holds there at a type that was asked for. -/
theorem runWorld_stored (hK : K.ByFlow) (hargs : ∀ v ∈ args, handles v = []) (htx : tx.toTx = Tx.new kv)
    (h : runWorld K modules bound mainIdx name args fuel tx = some o) :
    ∃ asked, Run (fun _ _ => True) (Tx.new kv) asked o.state.tx.toTx ∧
      StoredBut {c | (o.state.tx.writes.lookup c).isSome} kv asked o.state.tx.reads := by
  have hflow : Flow False (Tx.new kv, []) (o.state.tx.toTx, o.holds fun v => [v]) :=
    runWorld_flow hK False.elim hargs htx h
  obtain ⟨asked, hrun⟩ := hflow.run
  exact ⟨asked, hrun, run_storedUnwritten hrun⟩

/-- **A program without legs answers with resolved handles only.** -/
theorem runWorld_known (hK : K.ByFlow) (hforks : ForkFree modules) (hargs : ∀ v ∈ args, handles v = [])
    (htx : tx.toTx = Tx.new kv) (h : runWorld K modules bound mainIdx name args fuel tx = some o) :
    ∀ v, o.result = .ok v → ∀ i ∈ handles v,
      ((o.state.tx.toTx.drain (maxLevels + 2)).resolved.lookup i).isSome := by
  intro v hv i hi
  have hreached : Reached True kv (o.state.tx.toTx, o.holds fun v => [v]) :=
    runWorld_reached hK (fun _ => hforks) hargs htx h
  have hinv := DeferInv.reached hreached
  refine resolved_of_known (hinv.held v ?_ i hi)
  rw [Out.holds, hv]
  exact List.mem_cons_self

end Machine

end Rend.Vm
