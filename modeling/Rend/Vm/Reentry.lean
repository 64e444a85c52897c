import Rend.Vm.Fuel

/-!
# The guard of non-reentrant functions

The machine keeps the non-reentrant functions that are running in a set inside the transaction. The set is
copied into every shadow, never merged back, and a function is taken out of it when its call returns or
fails.

Beside it stands a machine that has no such set: each of its bodies is run under the chain of the calls that
are active, and a call of a non-reentrant function is refused if it is on the chain. A `Chain` has no
non-reentrant function in it twice. `guard_exact` says that the two machines do the same in every run.
-/

namespace Rend.Vm

open Lib

/-! ### Chains of calls -/

/-- The function is declared `nore`. -/
def isNore (modules : List BcModule) (key : ℕ × ℕ) : Bool :=
  match fnAt modules key.1 key.2 with
  | some (_, f) => f.isNore
  | none => false

/-- The calls that are active, the innermost first. No non-reentrant function is among them twice. -/
structure Chain (modules : List BcModule) where
  calls : List (ℕ × ℕ)
  once : (calls.filter fun key => isNore modules key).Nodup

namespace Chain

variable {modules : List BcModule}

/-- No call is active. -/
def empty : Chain modules := ⟨[], List.nodup_nil⟩

/-- One more call. -/
def push (c : Chain modules) (key : ℕ × ℕ) (h : isNore modules key = true → key ∉ c.calls) :
    Chain modules where
  calls := key :: c.calls
  once := by
    rw [List.filter_cons]
    split_ifs with hn
    · exact List.nodup_cons.mpr ⟨fun hmem => h hn (List.mem_of_mem_filter hmem), c.once⟩
    · exact c.once

/-- The non-reentrant functions on the chain. -/
def guards (c : Chain modules) : Finset (ℕ × ℕ) := (c.calls.filter fun key => isNore modules key).toFinset

theorem mem_guards {c : Chain modules} {key : ℕ × ℕ} :
    key ∈ c.guards ↔ key ∈ c.calls ∧ isNore modules key = true := by
  simp [guards]

@[simp] theorem guards_empty : (empty : Chain modules).guards = ∅ := rfl

theorem guards_push_nore (c : Chain modules) {key : ℕ × ℕ} (h : isNore modules key = true → key ∉ c.calls)
    (hn : isNore modules key = true) : (c.push key h).guards = insert key c.guards := by
  simp [guards, push, hn]

theorem guards_push (c : Chain modules) {key : ℕ × ℕ} (h : isNore modules key = true → key ∉ c.calls)
    (hn : isNore modules key = false) : (c.push key h).guards = c.guards := by
  simp [guards, push, hn]

end Chain

/-! ### The machine on chains -/

section Machine

variable (K : Kernel) {modules : List BcModule} (body : Chain modules → Body)

/-- A call under a chain. -/
def callOn (c : Chain modules) (mi fi : ℕ) (args : List Value) : VmM Value :=
  match hf : fnAt modules mi fi with
  | none => fault .panic
  | some (_, f) =>
    if args.length ≠ f.nParams then fault (.badArity f.name f.nParams args.length)
    else if hr : f.isNore = true ∧ (mi, fi) ∈ c.calls then fault (.reentry f.name)
    else body (c.push (mi, fi) fun hn hmem => hr ⟨by simpa [isNore, hf] using hn, hmem⟩) mi fi (frame f args) 0

def dispatchHandlersOn (c : Chain modules) (emitModule structName : String) (v : Value) : VmM Unit :=
  match dispatchList modules (emitModule ++ "::" ++ structName) with
  | [] => pure ()
  | [(mi, fi)] => do
    let _ ← callOn body c mi fi [v]
    return ()
  | dispatch => parallel dispatch (fun h _ => callOn body c h.1 h.2 [v]) (fun _ _ _ _ => ()) ()

def emitOn (c : Chain modules) (m : BcModule) (value : Reg) (regs : List Value) : VmM (List Value) := do
  let (v, regs) ← forceReg regs value
  match v with
  | .struct name fields =>
    onTx fun tx => { tx with events := tx.events ++ [⟨m.name, name, fields.map Prod.snd⟩] }
    dispatchHandlersOn body c m.name name v
    return regs
  | v => fault (.notStruct v)

/-- One instruction: those that call do so under the chain, the others are those of the machine. The legs of
a parallel construct belong to the activation that forks them. -/
def execOn (c : Chain modules) (m : BcModule) (mi : ℕ) (f : BcFn) (fi : ℕ) (instr : Instr) (pc : ℕ)
    (regs : List Value) : VmM Next :=
  match instr with
  | .call dst callee argsStart nArgs => do
    let v ← callOn body c mi callee (callArgs regs argsStart nArgs)
    return .goto pc (regs.set dst v)
  | .callExternal dst moduleNameIdx fnNameIdx argsStart nArgs _ _ => do
    let moduleName ← ofExcept (constStr f moduleNameIdx)
    let fnName ← ofExcept (constStr f fnNameIdx)
    let target ← ofExcept (resolveEntry modules moduleName fnName)
    let v ← callOn body c target.1 target.2 (callArgs regs argsStart nArgs)
    return .goto pc (regs.set dst v)
  | .callExternalDyn dst targetReg fnNameIdx argsStart nArgs _ _ => do
    let (bound, regs) ← forceReg regs targetReg
    let moduleName ← ofExcept (boundModule bound)
    let fnName ← ofExcept (constStr f fnNameIdx)
    let target ← ofExcept (resolveEntry modules moduleName fnName)
    let v ← callOn body c target.1 target.2 (callArgs regs argsStart nArgs)
    return .goto pc (regs.set dst v)
  | .emit value => do
    let regs ← emitOn body c m value regs
    return .goto pc regs
  | instr => exec K modules (body c) m mi f fi instr pc regs

def stepOn (c : Chain modules) (mi fi : ℕ) (regs : List Value) (pc : ℕ) : VmM Next := do
  let (m, f) ← ofOption .panic (fnAt modules mi fi)
  let instr ← ofOption .pcOutOfBounds f.code[pc]?
  execOn K body c m mi f fi instr (pc + 1) regs

variable (modules)

/-- The loop of a body that runs under a chain. -/
def callBodyOn : ℕ → Chain modules → Body
  | 0, _, _, _, _, _ => exhausted
  | n + 1, c, mi, fi, regs, pc => do
    tick
    match ← stepOn K (callBodyOn n) c mi fi regs pc with
    | .goto pc regs => callBodyOn n c mi fi regs pc
    | .ret v => pure v

/-- Runs a function of a module, with no call active. -/
def runWorldOn (bound mainIdx : ℕ) (name : String) (args : List Value) (fuel : ℕ) (tx : VmTx) :
    Option (Out Value) :=
  match modules[mainIdx]? with
  | none => some ⟨.error .panic, { fuel := fuel, tx := tx }, 0⟩
  | some m =>
    match m.fnIndex.lookup name with
    | none => some ⟨.error (.unknownFunction name m.name), { fuel := fuel, tx := tx }, 0⟩
    | some fi =>
      (callOn (callBodyOn K modules bound) .empty mainIdx fi args
        { fuel := fuel, tx := { tx with toTx := tx.toTx.setLazy true } }).map settle

end Machine

/-! ### Forgetting the set -/

def VmTx.forget (tx : VmTx) : VmTx := { tx with noreActive := ∅ }

def VmState.forget (s : VmState) : VmState := { s with tx := s.tx.forget }

/-- A leg that has run, without its set. -/
def forgetLeg {α : Type} (r : α × VmState) : α × VmState := (r.1, r.2.forget)

variable {α β ι σ : Type}

/-- What a computation ends with, without the set. -/
def Out.forget (g : α → α) (o : Out α) : Out α :=
  { result := o.result.map g, state := o.state.forget, steps := o.steps }

theorem fork_forget (s : VmState) : s.forget.fork = s.fork.forget := rfl

/-- From a state whose set is the given one, both computations do the same up to the set, which stays as
it is. -/
def Mirrors (N : Finset (ℕ × ℕ)) (g : α → α) (x y : VmM α) : Prop :=
  ∀ ⦃s⦄, s.tx.noreActive = N →
    (∀ o, x s = some o → o.state.tx.noreActive = N) ∧ y s.forget = (x s).map (Out.forget g)

section Mirrors

variable {N : Finset (ℕ × ℕ)} {g : α → α} {g' : β → β} {x y : VmM α}

theorem Mirrors.bind {k k' : α → VmM β} (h : Mirrors N g x y) (hk : ∀ a, Mirrors N g' (k a) (k' (g a))) :
    Mirrors N g' (x >>= k) (y >>= k') := by
  intro s hs
  obtain ⟨hkeep, heq⟩ := h hs
  cases hx : x s with
  | none =>
    have hy : y s.forget = none := by rw [heq, hx, Option.map_none]
    have hxk : (x >>= k) s = none := by
      change VmM.andThen x k s = none
      rw [VmM.andThen, hx]
    have hyk : (y >>= k') s.forget = none := by
      change VmM.andThen y k' s.forget = none
      rw [VmM.andThen, hy]
    rw [hxk, hyk]
    exact ⟨fun o ho => (by cases ho), rfl⟩
  | some o =>
    obtain ⟨r, s', n⟩ := o
    have hs' : s'.tx.noreActive = N := hkeep _ hx
    rw [hx] at heq
    cases r with
    | error e =>
      rw [bind_of_error k hx, bind_of_error k' heq]
      exact ⟨fun o ho => by cases ho; exact hs', rfl⟩
    | ok a =>
      obtain ⟨hkeep', heq'⟩ := hk a hs'
      rw [bind_of_ok k hx, bind_of_ok k' heq]
      refine ⟨fun o ho => ?_, ?_⟩
      · obtain ⟨o', ho', rfl⟩ := Option.map_eq_some_iff.mp ho
        exact hkeep' o' ho'
      · change (k' (g a) s'.forget).map _ = _
        rw [heq', Option.map_map, Option.map_map]
        rfl

/-- A computation that does not look at the set. -/
def Blind (x : VmM α) : Prop := ∀ N, Mirrors N id x x

theorem Blind.bind {x : VmM α} {k k' : α → VmM β} (hx : Blind x) (hk : ∀ a, Mirrors N g' (k a) (k' a)) :
    Mirrors N g' (x >>= k) (x >>= k') := (hx N).bind hk

theorem blind_of_some {r : VmState → Except Fault α} {f : VmState → VmState} {n : VmState → ℕ}
    (hr : ∀ s, r s.forget = r s) (hf : ∀ s, f s.forget = (f s).forget) (hn : ∀ s, n s.forget = n s)
    (hN : ∀ s, (f s).tx.noreActive = s.tx.noreActive) : Blind fun s => some ⟨r s, f s, n s⟩ := by
  intro N s hs
  refine ⟨fun o ho => ?_, ?_⟩
  · cases ho
    exact (hN s).trans hs
  · have hid : (r s).map id = r s := by cases r s <;> rfl
    dsimp only
    rw [hr, hf, hn, Option.map_some, Out.forget, hid]

theorem blind_pure (a : α) : Blind (pure a : VmM α) :=
  blind_of_some (r := fun _ => .ok a) (f := id) (n := fun _ => 0) (fun _ => rfl) (fun _ => rfl) (fun _ => rfl)
    fun _ => rfl

theorem blind_fault (e : Fault) : Blind (fault e : VmM α) :=
  blind_of_some (r := fun _ => .error e) (f := id) (n := fun _ => 0) (fun _ => rfl) (fun _ => rfl) (fun _ => rfl)
    fun _ => rfl

theorem blind_ofExcept (r : Except Fault α) : Blind (ofExcept r) := by
  cases r with
  | ok a => exact blind_pure a
  | error e => exact blind_fault e

theorem blind_ofOption (e : Fault) (r : Option α) : Blind (ofOption e r) := by
  cases r with
  | some a => exact blind_pure a
  | none => exact blind_fault e

theorem blind_force (v : Value) : Blind (force v) :=
  blind_of_some (fun _ => rfl) (fun _ => rfl) (fun _ => rfl) fun _ => rfl

theorem blind_setSkip : Blind setSkip := blind_of_some (fun _ => rfl) (fun _ => rfl) (fun _ => rfl) fun _ => rfl

theorem blind_charge (used : ℕ) : Blind (charge used) :=
  blind_of_some (fun _ => rfl) (fun _ => rfl) (fun _ => rfl) fun _ => rfl

theorem blind_forceReg (regs : List Value) (r : Reg) : Blind (forceReg regs r) := fun N =>
  (blind_force _).bind fun _ => blind_pure _ N

theorem blind_tick : Blind tick := by
  intro N s hs
  unfold tick
  by_cases h : s.fuel = 0
  · rw [if_pos h, if_pos (show s.forget.fuel = 0 from h)]
    exact ⟨fun o ho => by cases ho; exact hs, rfl⟩
  · rw [if_neg h, if_neg (show s.forget.fuel ≠ 0 from h)]
    exact ⟨fun o ho => by cases ho; exact hs, rfl⟩

theorem blind_runKernel (K : Kernel) (m : BcModule) (f : BcFn) (instr : Instr) (pc : ℕ) (regs : List Value) :
    Blind (runKernel K m f instr pc regs) := by
  intro N s hs
  unfold runKernel
  rw [show s.forget.tx.toTx = s.tx.toTx from rfl]
  cases K m f instr pc regs s.tx.toTx with
  | error e => exact ⟨fun o ho => by cases ho; exact hs, rfl⟩
  | ok r => exact ⟨fun o ho => by cases ho; exact hs, rfl⟩

/-- A change of the transaction that neither reads nor writes the set. -/
theorem blind_onTx {f : VmTx → VmTx} (hf : ∀ tx, f tx.forget = (f tx).forget)
    (hN : ∀ tx, (f tx).noreActive = tx.noreActive) : Blind (onTx f) :=
  blind_of_some (r := fun _ => .ok ()) (f := fun s => { s with tx := f s.tx }) (n := fun _ => 0) (fun _ => rfl)
    (fun s => by
      simp only [VmState.forget]
      rw [hf])
    (fun _ => rfl) fun s => hN s.tx

/-! ### Legs -/

section Legs

variable {leg leg' : ι → σ → VmM α} (hleg : ∀ i acc, Mirrors N id (leg i acc) (leg' i acc))
  (bindResult : ι → σ → α → Bool → σ)

theorem rerunLeg_mirrors (h : Mirrors N id x y) : Mirrors N forgetLeg (rerunLeg x) (rerunLeg y) := by
  intro s hs
  obtain ⟨-, heq⟩ := h (s := s.fork) hs
  unfold rerunLeg
  rw [fork_forget, heq]
  cases x s.fork with
  | none => exact ⟨fun o ho => (by cases ho), rfl⟩
  | some o =>
    obtain ⟨r, sub, n⟩ := o
    cases r with
    | error e => exact ⟨fun o ho => by cases ho; exact hs, rfl⟩
    | ok v => exact ⟨fun o ho => by cases ho; exact hs, rfl⟩

theorem finalLeg_mirrors (h : Mirrors N id x y) (batch : Finset U128) (final : α × VmState) :
    Mirrors N forgetLeg (finalLeg x batch final) (finalLeg y batch (forgetLeg final)) := by
  unfold finalLeg
  have hconflict : conflict (forgetLeg final).2.tx batch = conflict final.2.tx batch := rfl
  rw [hconflict]
  split_ifs
  · exact rerunLeg_mirrors h
  · intro s hs
    exact ⟨fun o ho => by cases ho; exact hs, rfl⟩

include hleg in
theorem mergeLegs_mirrors (budget : ℕ) (outs : List (ι × Out α)) (batch : Finset U128) (acc : σ) :
    Mirrors N id (mergeLegs leg bindResult budget outs batch acc)
      (mergeLegs leg' bindResult budget (outs.map fun p => (p.1, p.2.forget id)) batch acc) := by
  induction outs generalizing batch acc with
  | nil => exact blind_pure acc N
  | cons p outs ih =>
    obtain ⟨i, ⟨result, sub, k⟩⟩ := p
    simp only [List.map_cons]
    rw [mergeLegs, mergeLegs]
    have hresult : (Out.forget id ⟨result, sub, k⟩).result = result := by cases result <;> rfl
    dsimp only
    rw [hresult]
    refine (blind_ofExcept result).bind fun value => ?_
    refine (blind_charge (budget - sub.fuel)).bind fun _ => ?_
    refine (finalLeg_mirrors (hleg i acc) batch (value, sub)).bind fun final => ?_
    have hmerge : Mirrors N id (onTx fun tx => tx.mergeDelta final.2.tx)
        (onTx fun tx => tx.mergeDelta (forgetLeg final).2.tx) := fun s hs =>
      ⟨fun o ho => by cases ho; exact hs, rfl⟩
    exact hmerge.bind fun _ => ih _ _

theorem mapM_mirrors {x y : ι → Option (Out α)} (h : ∀ i, y i = (x i).map (Out.forget id)) (legs : List ι) :
    legs.mapM y = (legs.mapM x).map (List.map (Out.forget id)) := by
  induction legs with
  | nil => rfl
  | cons i legs ih =>
    rw [List.mapM_cons, List.mapM_cons, h, ih]
    cases x i with
    | none => rfl
    | some o => cases legs.mapM x <;> rfl

include hleg in
/-- Every leg starts with the set of the activation that forks it, and its set is not merged. -/
theorem parallel_mirrors (legs : List ι) (acc : σ) :
    Mirrors N id (parallel legs leg bindResult acc) (parallel legs leg' bindResult acc) := by
  intro s hs
  have houts : (legs.mapM fun i => leg' i acc s.forget.fork) =
      (legs.mapM fun i => leg i acc s.fork).map (List.map (Out.forget id)) :=
    mapM_mirrors (fun i => (hleg i acc (s := s.fork) hs).2) legs
  unfold parallel
  rw [houts]
  cases legs.mapM fun i => leg i acc s.fork with
  | none => exact ⟨fun o ho => (by cases ho), rfl⟩
  | some outs =>
    obtain ⟨hkeep, heq⟩ := mergeLegs_mirrors hleg bindResult s.fuel (legs.zip outs) ∅ acc hs
    have hzip : (legs.zip (outs.map (Out.forget id))) = (legs.zip outs).map fun p => (p.1, p.2.forget id) := by
      rw [List.zip_map_right]
      rfl
    have hsteps : ((outs.map (Out.forget id)).map Out.steps).sum = (outs.map Out.steps).sum := by
      rw [List.map_map]
      rfl
    simp only [Option.map_some]
    rw [hzip, hsteps]
    refine ⟨fun o ho => ?_, ?_⟩
    · obtain ⟨o', ho', rfl⟩ := Option.map_eq_some_iff.mp ho
      exact hkeep o' ho'
    · change (mergeLegs leg' bindResult s.fuel _ ∅ acc s.forget).map _ = _
      rw [heq, Option.map_map, Option.map_map]
      rfl

end Legs

end Mirrors

/-! ### Calls and instructions -/

section Bodies

variable {K : Kernel} {modules : List BcModule} {body : Chain modules → Body} {body' : Body}

/-- The bodies under a chain do what those of the machine do when the set is that of the chain. -/
def Tracks (modules : List BcModule) (body : Chain modules → Body) (body' : Body) : Prop :=
  ∀ c mi fi regs pc, Mirrors c.guards id (body' mi fi regs pc) (body c mi fi regs pc)

theorem isNore_eq {mi fi : ℕ} {m : BcModule} {f : BcFn} (hf : fnAt modules mi fi = some (m, f)) :
    isNore modules (mi, fi) = f.isNore := by
  simp [isNore, hf]

theorem ofOption_bind {e : Fault} (a : α) (k : α → VmM β) : (ofOption e (some a) >>= k) = k a := by
  funext s
  rw [bind_of_ok k (show ofOption e (some a) s = some ⟨.ok a, s, 0⟩ from rfl)]
  cases k a s with
  | none => rfl
  | some o => simp

theorem call_of_fnAt (body' : Body) {mi fi : ℕ} {m : BcModule} {f : BcFn} (hf : fnAt modules mi fi = some (m, f))
    (args : List Value) :
    call modules body' mi fi args =
      if args.length ≠ f.nParams then fault (.badArity f.name f.nParams args.length)
      else if f.isNore then do
        let fresh ← noreEnter (mi, fi)
        if !fresh then fault (.reentry f.name) else withNoreExit (mi, fi) (body' mi fi (frame f args) 0)
      else body' mi fi (frame f args) 0 := by
  rw [call, hf, ofOption_bind]

theorem noreEnter_bind (key : ℕ × ℕ) (k : Bool → VmM β) (s : VmState) :
    (noreEnter key >>= k) s = k (key ∉ s.tx.noreActive)
      { s with tx := { s.tx with noreActive := insert key s.tx.noreActive } } := by
  rw [bind_of_ok k (show noreEnter key s = some ⟨.ok _, _, 0⟩ from rfl)]
  cases k _ _ with
  | none => rfl
  | some o => simp

variable (h : Tracks modules body body')
include h

/-- A call that enters a non-reentrant function: the set gains it and loses it again. -/
theorem withNoreExit_mirrors {c : Chain modules} {key : ℕ × ℕ} {args : List Value} {pc : ℕ}
    (hfresh : key ∉ c.calls) (hn : isNore modules key = true) {s : VmState} (hs : s.tx.noreActive = c.guards) :
    (∀ o, withNoreExit key (body' key.1 key.2 args pc)
        { s with tx := { s.tx with noreActive := insert key s.tx.noreActive } } = some o →
          o.state.tx.noreActive = c.guards) ∧
      body (c.push key fun _ => hfresh) key.1 key.2 args pc s.forget =
        (withNoreExit key (body' key.1 key.2 args pc)
          { s with tx := { s.tx with noreActive := insert key s.tx.noreActive } }).map (Out.forget id) := by
  have hguards : (c.push key fun _ => hfresh).guards = insert key c.guards := c.guards_push_nore _ hn
  have hnot : key ∉ c.guards := fun hmem => hfresh (Chain.mem_guards.mp hmem).1
  obtain ⟨hkeep, heq⟩ := h (c.push key fun _ => hfresh) key.1 key.2 args pc
    (s := { s with tx := { s.tx with noreActive := insert key s.tx.noreActive } }) (by rw [hguards, ← hs])
  unfold withNoreExit
  refine ⟨fun o ho => ?_, ?_⟩
  · obtain ⟨o', ho', rfl⟩ := Option.map_eq_some_iff.mp ho
    change o'.state.tx.noreActive.erase key = _
    rw [hkeep o' ho', hguards, Finset.erase_insert hnot]
  · rw [Option.map_map]
    exact heq

theorem call_mirrors (c : Chain modules) (mi fi : ℕ) (args : List Value) :
    Mirrors c.guards id (call modules body' mi fi args) (callOn body c mi fi args) := by
  unfold callOn
  split
  · next hf =>
    rw [call, hf]
    exact blind_fault .panic c.guards
  · next m f hf =>
    have hnore : isNore modules (mi, fi) = f.isNore := isNore_eq hf
    rw [call_of_fnAt body' hf args]
    by_cases harity : args.length ≠ f.nParams
    · rw [if_pos harity, if_pos harity]
      exact blind_fault _ _
    rw [if_neg harity, if_neg harity]
    by_cases hn : f.isNore = true
    · rw [if_pos hn]
      intro s hs
      rw [noreEnter_bind]
      by_cases hmem : (mi, fi) ∈ c.calls
      · have hin : (mi, fi) ∈ s.tx.noreActive := by
          rw [hs]
          exact Chain.mem_guards.mpr ⟨hmem, hnore.trans hn⟩
        rw [dif_pos ⟨hn, hmem⟩, Finset.insert_eq_of_mem hin]
        simp only [hin, not_true_eq_false, decide_false, Bool.not_false, if_true]
        exact blind_fault _ _ hs
      · have hout : (mi, fi) ∉ s.tx.noreActive := by
          rw [hs]
          exact fun hin => hmem (Chain.mem_guards.mp hin).1
        rw [dif_neg fun hr => hmem hr.2]
        simp only [hout, not_false_eq_true, decide_true, Bool.not_true, Bool.false_eq_true, if_false]
        exact withNoreExit_mirrors h hmem (hnore.trans hn) hs
    · have hguards : (c.push (mi, fi) fun hk => absurd (hnore.symm.trans hk) hn).guards = c.guards :=
        c.guards_push _ (Bool.eq_false_iff.mpr fun hk => hn (hnore.symm.trans hk))
      rw [if_neg hn, dif_neg fun hr => hn hr.1, ← hguards]
      exact h _ mi fi (frame f args) 0

theorem dispatchHandlersParallel_mirrors (c : Chain modules) (emitModule structName : String) (v : Value) :
    Mirrors c.guards id (dispatchHandlersParallel modules body' emitModule structName v)
      (dispatchHandlersOn body c emitModule structName v) := by
  unfold dispatchHandlersParallel dispatchHandlersOn
  rcases dispatchList modules (emitModule ++ "::" ++ structName) with _ | ⟨⟨mi, fi⟩, _ | ⟨second, rest⟩⟩
  · exact blind_pure _ _
  · exact (call_mirrors h c mi fi [v]).bind fun _ => blind_pure _ _
  · exact parallel_mirrors (fun (i : ℕ × ℕ) _ => call_mirrors h c i.1 i.2 [v]) _ _ _

theorem emit_mirrors (c : Chain modules) (m : BcModule) (value : Reg) (regs : List Value) :
    Mirrors c.guards id (emit modules body' m value regs) (emitOn body c m value regs) := by
  unfold emit emitOn
  refine (blind_forceReg _ _).bind fun r => ?_
  obtain ⟨v, regs⟩ := r
  cases v
  case struct name fields =>
    have hlog : Blind (onTx fun tx => { tx with events := tx.events ++ [⟨m.name, name, fields.map Prod.snd⟩] }) :=
      blind_onTx (fun _ => rfl) fun _ => rfl
    exact hlog.bind fun _ => (dispatchHandlersParallel_mirrors h c _ _ _).bind fun _ => blind_pure _ _
  all_goals exact blind_fault _ _

omit h in
theorem parallelForBegin_mirrors {N : Finset (ℕ × ℕ)} {body body' : Body}
    (h : ∀ mi fi regs pc, Mirrors N id (body' mi fi regs pc) (body mi fi regs pc)) (mi fi bodyStart : ℕ)
    (sourceReg outputReg idReg idxReg : Reg) (regs : List Value) :
    Mirrors N id (parallelForBegin body' mi fi bodyStart sourceReg outputReg idReg idxReg regs)
      (parallelForBegin body mi fi bodyStart sourceReg outputReg idReg idxReg regs) := by
  unfold parallelForBegin
  refine (blind_forceReg _ _).bind fun r => ?_
  obtain ⟨source, regs⟩ := r
  refine (blind_forceReg _ _).bind fun r => ?_
  obtain ⟨output, regs⟩ := r
  refine (blind_ofExcept _).bind fun sourceElems => (blind_ofExcept _).bind fun outputElems => ?_
  split_ifs
  · exact blind_fault _ _
  · exact (parallel_mirrors (fun _ _ => h _ _ _ _) _ _ _).bind fun _ => blind_pure _ _

theorem execOn_mirrors (K : Kernel) (c : Chain modules) (m : BcModule) (mi : ℕ) (f : BcFn) (fi : ℕ) (instr : Instr)
    (pc : ℕ) (regs : List Value) : Mirrors c.guards id (exec K modules body' m mi f fi instr pc regs)
      (execOn K body c m mi f fi instr pc regs) := by
  cases instr
  case call => exact (call_mirrors h c _ _ _).bind fun _ => blind_pure _ _
  case callExternal =>
    refine (blind_ofExcept _).bind fun _ => (blind_ofExcept _).bind fun _ => (blind_ofExcept _).bind fun _ => ?_
    exact (call_mirrors h c _ _ _).bind fun _ => blind_pure _ _
  case callExternalDyn =>
    refine (blind_forceReg _ _).bind fun _ => (blind_ofExcept _).bind fun _ => ?_
    refine (blind_ofExcept _).bind fun _ => (blind_ofExcept _).bind fun _ => ?_
    exact (call_mirrors h c _ _ _).bind fun _ => blind_pure _ _
  case emit => exact (emit_mirrors h c m _ _).bind fun _ => blind_pure _ _
  case jump => exact blind_pure _ _
  case jumpIfFalse =>
    refine (blind_forceReg _ _).bind fun r => ?_
    obtain ⟨v, regs⟩ := r
    dsimp only
    split
    · exact blind_pure _ _
    · exact blind_pure _ _
  case ret => exact blind_pure _ _
  case returnUnit => exact blind_pure _ _
  case parallelYield r =>
    cases r with
    | none => exact blind_pure _ _
    | some r => exact (blind_forceReg _ _).bind fun _ => blind_pure _ _
  case parallelForSkip => exact blind_setSkip.bind fun _ => blind_pure _ _
  case parallelBegin =>
    exact (parallel_mirrors (fun _ _ => h c _ _ _ _) _ _ _).bind fun _ => blind_pure _ _
  case parallelForBegin =>
    exact (parallelForBegin_mirrors (h c) _ _ _ _ _ _ _ _).bind fun _ => blind_pure _ _
  all_goals exact blind_runKernel _ _ _ _ _ _ _

theorem stepOn_mirrors (K : Kernel) (c : Chain modules) (mi fi : ℕ) (regs : List Value) (pc : ℕ) :
    Mirrors c.guards id (step K modules body' mi fi regs pc) (stepOn K body c mi fi regs pc) := by
  unfold step stepOn
  refine (blind_ofOption _ _).bind fun mf => ?_
  obtain ⟨m, f⟩ := mf
  exact (blind_ofOption _ _).bind fun instr => execOn_mirrors h K c m mi f fi instr _ regs

end Bodies

/-- The loops of the two machines, under every chain whose functions are those of the set. -/
theorem callBodyOn_tracks (K : Kernel) (modules : List BcModule) (n : ℕ) :
    Tracks modules (callBodyOn K modules n) (callBodyAt K modules n) := by
  induction n with
  | zero => exact fun c mi fi regs pc s hs => ⟨fun o ho => (by cases ho), rfl⟩
  | succ n ih =>
    intro c mi fi regs pc
    rw [callBodyAt, callBodyOn]
    refine blind_tick.bind fun _ => (stepOn_mirrors ih K c mi fi regs pc).bind fun next => ?_
    cases next with
    | goto pc regs => exact ih c mi fi regs pc
    | ret v => exact blind_pure v _

/-! ### Whole runs -/

theorem settle_forget (o : Out Value) : settle (o.forget id) = (settle o).forget id := by
  obtain ⟨r, s, n⟩ := o
  cases r with
  | error e => rfl
  | ok v => rfl

theorem settle_noreActive (o : Out Value) : (settle o).state.tx.noreActive = o.state.tx.noreActive := by
  obtain ⟨r, s, n⟩ := o
  cases r with
  | error e => rfl
  | ok v => rfl

/-- **The guard is exact**: a run that starts with no function in the set does what the machine on chains
does, which refuses a call of a non-reentrant function if and only if it is on the chain of the active
calls, and whose chains have no such function in them twice. The run ends with no function in the set. -/
theorem guard_exact (K : Kernel) (modules : List BcModule) (bound mainIdx : ℕ) (name : String) (args : List Value)
    (fuel : ℕ) (tx : VmTx) :
    runWorldOn K modules bound mainIdx name args fuel tx.forget =
        (runWorld K modules bound mainIdx name args fuel tx.forget).map (Out.forget id) ∧
      ∀ o, runWorld K modules bound mainIdx name args fuel tx.forget = some o → o.state.tx.noreActive = ∅ := by
  unfold runWorld runWorldOn
  cases modules[mainIdx]? with
  | none => exact ⟨rfl, fun o ho => by cases ho; rfl⟩
  | some m =>
  dsimp only
  cases m.fnIndex.lookup name with
  | none => exact ⟨rfl, fun o ho => by cases ho; rfl⟩
  | some fi =>
    have hcall := call_mirrors (callBodyOn_tracks K modules bound) .empty mainIdx fi args
    obtain ⟨hkeep, heq⟩ := hcall
      (s := { fuel := fuel, tx := { tx.forget with toTx := tx.forget.toTx.setLazy true } }) rfl
    refine ⟨?_, fun o ho => ?_⟩
    · change (callOn (callBodyOn K modules bound) .empty mainIdx fi args
        (VmState.forget { fuel := fuel, tx := { tx.forget with toTx := tx.forget.toTx.setLazy true } })).map settle = _
      rw [heq, Option.map_map, Option.map_map]
      exact congrFun (congrArg Option.map (funext settle_forget)) _
    · obtain ⟨o', ho', rfl⟩ := Option.map_eq_some_iff.mp ho
      rw [settle_noreActive]
      exact hkeep o' ho'

end Rend.Vm
