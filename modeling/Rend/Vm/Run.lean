import Rend.Link.Dispatch
import Rend.Tx
import Mathlib.Data.Finset.Image

/-!
# The virtual machine

The register machine with fuel metering (`vm.rs`). Each instruction costs one unit of fuel. The
instructions that call, fork, emit, jump or return are modelled here; what every other instruction does
to the registers and to the transaction is a parameter, since none of them sees the fuel.

A `parallel` block, a `parallel for` and an emit with several handlers run their legs in shadows of the
transaction, each with the whole remaining budget. The deltas are merged in order; a leg that has read
what an earlier leg wrote is run again on the merged transaction. What a leg has used is charged
afterwards, by subtraction down to zero.

A computation is a function of the state of the machine. It answers nothing when the bound on its
recursion was too small. `steps` is a history variable that no instruction reads: the number of
instructions carried out so far, in all legs and all repetitions.
-/

namespace Rend.Vm

open Lib

/-- Why a run fails. `panic` stands for an index out of range, at which the code panics. -/
inductive Fault
  | outOfFuel
  | pcOutOfBounds
  | badArity (name : String) (want got : ℕ)
  | reentry (name : String)
  | nameNotString
  | unknownModule (module : String)
  | unknownFunction (name module : String)
  | notEntry (name module : String)
  | notInterface (v : Value)
  | unbound
  | notArray (v : Value)
  | lengthMismatch (source output : ℕ)
  | notStruct (v : Value)
  | bind (e : Link.DispatchError)
  | runtime (msg : String)
  | panic

/-- An event of the log (`tx::EmittedEvent`). -/
structure EmittedEvent where
  module : String
  name : String
  args : List Value

/-- A transaction with its event log and the non-reentrant functions on its call stack. -/
structure VmTx extends Tx where
  events : List EmittedEvent := []
  noreActive : Finset (ℕ × ℕ) := ∅

def VmTx.shadowOf (parent : VmTx) : VmTx :=
  { toTx := parent.toTx.shadowOf, noreActive := parent.noreActive }

def VmTx.mergeDelta (tx delta : VmTx) : VmTx :=
  { tx with toTx := tx.toTx.mergeDelta delta.toTx, events := tx.events ++ delta.events }

/-- The state of the machine. `parallelSkip` is set by a leg that leaves its output slot as it is. -/
structure VmState where
  fuel : ℕ
  tx : VmTx
  parallelSkip : Bool := false

/-- The state in which a leg starts: a shadow of the transaction and the whole budget. -/
def VmState.fork (s : VmState) : VmState := { fuel := s.fuel, tx := s.tx.shadowOf }

/-- What a computation ends with. -/
structure Out (α : Type) where
  result : Except Fault α
  state : VmState
  steps : ℕ

/-- A computation of the machine. -/
def VmM (α : Type) : Type := VmState → Option (Out α)

/-- One computation after the other; a failure ends the run. -/
def VmM.andThen {α β : Type} (x : VmM α) (k : α → VmM β) : VmM β := fun s =>
  match x s with
  | none => none
  | some ⟨.error e, s, n⟩ => some ⟨.error e, s, n⟩
  | some ⟨.ok a, s, n⟩ => (k a s).map fun o => { o with steps := n + o.steps }

instance : Monad VmM where
  pure a := fun s => some ⟨.ok a, s, 0⟩
  bind := VmM.andThen

section Primitives

variable {α : Type}

def fault (e : Fault) : VmM α := fun s => some ⟨.error e, s, 0⟩

/-- The bound on the recursion is used up. -/
def exhausted : VmM α := fun _ => none

def ofExcept : Except Fault α → VmM α
  | .ok a => pure a
  | .error e => fault e

def ofOption (e : Fault) : Option α → VmM α
  | some a => pure a
  | none => fault e

/-- Changes the transaction. -/
def onTx (f : VmTx → VmTx) : VmM Unit := fun s => some ⟨.ok (), { s with tx := f s.tx }, 0⟩

/-- Pays for one instruction, which is then carried out. -/
def tick : VmM Unit := fun s =>
  if s.fuel = 0 then some ⟨.error .outOfFuel, s, 0⟩ else some ⟨.ok (), { s with fuel := s.fuel - 1 }, 1⟩

/-- Charges what a leg has used. -/
def charge (used : ℕ) : VmM Unit := fun s => some ⟨.ok (), { s with fuel := s.fuel - used }, 0⟩

def setSkip : VmM Unit := fun s => some ⟨.ok (), { s with parallelSkip := true }, 0⟩

/-- Forces a value. -/
def force (v : Value) : VmM Value := fun s =>
  let r := s.tx.toTx.force v
  some ⟨.ok r.2, { s with tx := { s.tx with toTx := r.1 } }, 0⟩

end Primitives

/-- A register; one out of range makes the code panic, here it reads as unit and is not written. -/
def reg (regs : List Value) (r : Reg) : Value := regs.getD r .unit

/-- Forces a register and stores the value back (`force_reg`). -/
def forceReg (regs : List Value) (r : Reg) : VmM (Value × List Value) := do
  let v ← force (reg regs r)
  return (v, regs.set r v)

/-- The arguments of a call. -/
def callArgs (regs : List Value) (argsStart : Reg) (nArgs : ℕ) : List Value :=
  (List.range nArgs).map fun i => reg regs (argsStart + i)

/-! ### Legs -/

section Legs

variable {ι α σ : Type}

/-- Runs a leg again on the merged transaction and charges it. -/
def rerunLeg (leg : VmM α) : VmM (α × VmState) := fun s =>
  match leg s.fork with
  | none => none
  | some ⟨.error e, _, n⟩ => some ⟨.error e, s, n⟩
  | some ⟨.ok v, sub, n⟩ => some ⟨.ok (v, sub), { s with fuel := s.fuel - (s.fuel - sub.fuel) }, n⟩

/-- Whether a leg has read a cell that an earlier leg wrote. -/
def conflict (delta : VmTx) (batchWrites : Finset U128) : Bool :=
  delta.reads.keys.any fun k => k ∈ batchWrites

/-- What is merged for a leg that has run as `final`. -/
def finalLeg (leg : VmM α) (batchWrites : Finset U128) (final : α × VmState) : VmM (α × VmState) :=
  if conflict final.2.tx batchWrites then rerunLeg leg else pure final

/-- The stable-order merge. `rerun` is a leg on the results bound so far, `bindResult` binds one more. -/
def mergeLegs (rerun : ι → σ → VmM α) (bindResult : ι → σ → α → Bool → σ) (budget : ℕ) :
    List (ι × Out α) → Finset U128 → σ → VmM σ
  | [], _, acc => pure acc
  | (i, out) :: rest, batchWrites, acc => do
    let value ← ofExcept out.result
    charge (budget - out.state.fuel)
    let final ← finalLeg (rerun i acc) batchWrites (value, out.state)
    onTx fun tx => tx.mergeDelta final.2.tx
    mergeLegs rerun bindResult budget rest (batchWrites ∪ final.2.tx.writes.keys.toFinset)
      (bindResult i acc final.1 final.2.parallelSkip)

/-- Runs every leg in a shadow of the transaction, then merges. -/
def parallel (legs : List ι) (leg : ι → σ → VmM α) (bindResult : ι → σ → α → Bool → σ) (acc : σ) : VmM σ :=
  fun s =>
    match legs.mapM fun i => leg i acc s.fork with
    | none => none
    | some outs =>
      (mergeLegs leg bindResult s.fuel (legs.zip outs) ∅ acc s).map fun o =>
        { o with steps := (outs.map Out.steps).sum + o.steps }

end Legs

/-! ### Calls -/

/-- Runs the code of a function from a program counter, on a register file. -/
abbrev Body : Type := ℕ → ℕ → List Value → ℕ → VmM Value

section Calls

variable (modules : List BcModule) (body : Body)

def fnAt (mi fi : ℕ) : Option (BcModule × BcFn) := do
  let m ← modules[mi]?
  let f ← m.functions[fi]?
  return (m, f)

def noreEnter (key : ℕ × ℕ) : VmM Bool := fun s =>
  some ⟨.ok (key ∉ s.tx.noreActive),
    { s with tx := { s.tx with noreActive := insert key s.tx.noreActive } }, 0⟩

/-- Runs a computation and leaves the function, whether it succeeds or fails. -/
def withNoreExit (key : ℕ × ℕ) (x : VmM Value) : VmM Value := fun s =>
  (x s).map fun o =>
    { o with state := { o.state with
        tx := { o.state.tx with noreActive := o.state.tx.noreActive.erase key } } }

/-- The register file a function starts with. -/
def frame (f : BcFn) (args : List Value) : List Value :=
  args ++ List.replicate (f.nRegs - args.length) .unit

def call (mi fi : ℕ) (args : List Value) : VmM Value := do
  let (_, f) ← ofOption .panic (fnAt modules mi fi)
  if args.length ≠ f.nParams then fault (.badArity f.name f.nParams args.length)
  else if f.isNore then
    let fresh ← noreEnter (mi, fi)
    if !fresh then fault (.reentry f.name) else withNoreExit (mi, fi) (body mi fi (frame f args) 0)
  else body mi fi (frame f args) 0

/-- The entry function of a name in the module of a name. -/
def resolveEntry (moduleName fnName : String) : Except Fault (ℕ × ℕ) :=
  match modules.findIdx? fun m => m.name = moduleName with
  | none => .error (.unknownModule moduleName)
  | some mi =>
    match modules[mi]?.bind fun m => m.fnIndex.lookup fnName with
    | none => .error (.unknownFunction fnName moduleName)
    | some fi =>
      match fnAt modules mi fi with
      | none => .error .panic
      | some (_, f) => if !f.isEntry then .error (.notEntry fnName moduleName) else .ok (mi, fi)

/-- A string of the constant pool. -/
def constStr (f : BcFn) (idx : ℕ) : Except Fault String :=
  match f.consts[idx]? with
  | some (.str s) => .ok s
  | some _ => .error .nameNotString
  | none => .error .panic

/-- The handlers of an event, in the order of the modules and of their declarations. -/
def dispatchList (key : String) : List (ℕ × ℕ) :=
  modules.zipIdx.flatMap fun m => ((m.1.handlerDispatch.lookup key).getD []).map fun i => (m.2, i)

def dispatchHandlersParallel (emitModule structName : String) (v : Value) : VmM Unit :=
  match dispatchList modules (emitModule ++ "::" ++ structName) with
  | [] => pure ()
  | [(mi, fi)] => do
    let _ ← call modules body mi fi [v]
    return ()
  | dispatch => parallel dispatch (fun h _ => call modules body h.1 h.2 [v]) (fun _ _ _ _ => ()) ()

end Calls

/-! ### Instructions -/

/-- How a function goes on after an instruction. -/
inductive Next
  | goto (pc : ℕ) (regs : List Value)
  | ret (v : Value)

/-- What the instructions do that neither call nor fork nor return: to the registers, to the transaction
and, when they end a loop, to the program counter. -/
abbrev Kernel : Type := BcModule → BcFn → Instr → ℕ → List Value → Tx → Except Fault (ℕ × List Value × Tx)

def runKernel (K : Kernel) (m : BcModule) (f : BcFn) (instr : Instr) (pc : ℕ) (regs : List Value) :
    VmM Next := fun s =>
  match K m f instr pc regs s.tx.toTx with
  | .error e => some ⟨.error e, s, 0⟩
  | .ok (pc, regs, tx) => some ⟨.ok (.goto pc regs), { s with tx := { s.tx with toTx := tx } }, 0⟩

/-- The target of a relative jump, as a machine word. -/
def jumpTo (pc : ℕ) (offset : ℤ) : ℕ := ((pc + offset) % 2 ^ 64).toNat

/-- The elements of an array. -/
def arrayElems : Value → Except Fault (List Value)
  | .array elems => .ok elems
  | v => .error (.notArray v)

section Exec

variable (K : Kernel) (modules : List BcModule) (body : Body)

/-- `Instr::ParallelBegin`. -/
def parallelBegin (mi fi : ℕ) (ranges : List ParallelRange) (regs : List Value) : VmM (List Value) :=
  parallel ranges (fun range regs => body mi fi regs range.start)
    (fun range regs v _ => match range.dst with | some dst => regs.set dst v | none => regs) regs

/-- The registers of one leg of a `parallel for`. -/
def legRegs (regs : List Value) (idReg idxReg : Reg) (elem : Value) (i : ℕ) : List Value :=
  (regs.set idReg elem).set idxReg (.int i)

/-- `Instr::ParallelForBegin`. -/
def parallelForBegin (mi fi bodyStart : ℕ) (sourceReg outputReg idReg idxReg : Reg) (regs : List Value) :
    VmM (List Value) := do
  let (source, regs) ← forceReg regs sourceReg
  let (output, regs) ← forceReg regs outputReg
  let sourceElems ← ofExcept (arrayElems source)
  let outputElems ← ofExcept (arrayElems output)
  if outputElems.length ≠ sourceElems.length then
    fault (.lengthMismatch sourceElems.length outputElems.length)
  else
    let outputElems ← parallel sourceElems.zipIdx
      (fun leg _ => body mi fi (legRegs regs idReg idxReg leg.1 leg.2) bodyStart)
      (fun leg output v skip => if skip then output else output.set leg.2 v) outputElems
    return regs.set outputReg (.array outputElems)

/-- `Instr::Emit`. -/
def emit (m : BcModule) (value : Reg) (regs : List Value) : VmM (List Value) := do
  let (v, regs) ← forceReg regs value
  match v with
  | .struct name fields =>
    onTx fun tx => { tx with events := tx.events ++ [⟨m.name, name, fields.map Prod.snd⟩] }
    dispatchHandlersParallel modules body m.name name v
    return regs
  | v => fault (.notStruct v)

/-- The module a value of an interface is bound to. -/
def boundModule : Value → Except Fault String
  | .interface _ target => if target = "" then .error .unbound else .ok target
  | v => .error (.notInterface v)

/-- One instruction that has been paid for; `pc` is the place of the next one. -/
def exec (m : BcModule) (mi : ℕ) (f : BcFn) (fi : ℕ) (instr : Instr) (pc : ℕ) (regs : List Value) : VmM Next :=
  match instr with
  | .jump offset => return .goto (jumpTo pc offset) regs
  | .jumpIfFalse cond offset => do
    let (v, regs) ← forceReg regs cond
    match v with
    | .bool false => return .goto (jumpTo pc offset) regs
    | _ => return .goto pc regs
  | .call dst callee argsStart nArgs => do
    let v ← call modules body mi callee (callArgs regs argsStart nArgs)
    return .goto pc (regs.set dst v)
  | .callExternal dst moduleNameIdx fnNameIdx argsStart nArgs _ _ => do
    let moduleName ← ofExcept (constStr f moduleNameIdx)
    let fnName ← ofExcept (constStr f fnNameIdx)
    let target ← ofExcept (resolveEntry modules moduleName fnName)
    let v ← call modules body target.1 target.2 (callArgs regs argsStart nArgs)
    return .goto pc (regs.set dst v)
  | .callExternalDyn dst targetReg fnNameIdx argsStart nArgs _ _ => do
    let (bound, regs) ← forceReg regs targetReg
    let moduleName ← ofExcept (boundModule bound)
    let fnName ← ofExcept (constStr f fnNameIdx)
    let target ← ofExcept (resolveEntry modules moduleName fnName)
    let v ← call modules body target.1 target.2 (callArgs regs argsStart nArgs)
    return .goto pc (regs.set dst v)
  | .ret src => return .ret (reg regs src)
  | .returnUnit => return .ret .unit
  | .parallelYield none => return .ret .unit
  | .parallelYield (some r) => do
    let (v, _) ← forceReg regs r
    return .ret v
  | .parallelForSkip => do
    setSkip
    return .ret .unit
  | .parallelBegin ranges afterPc => do
    let regs ← parallelBegin body mi fi ranges regs
    return .goto afterPc regs
  | .parallelForBegin bodyStart _ sourceReg outputReg idReg idxReg afterPc => do
    let regs ← parallelForBegin body mi fi bodyStart sourceReg outputReg idReg idxReg regs
    return .goto afterPc regs
  | .emit value => do
    let regs ← emit modules body m value regs
    return .goto pc regs
  | instr => runKernel K m f instr pc regs

/-- The instruction at the program counter. -/
def step (mi fi : ℕ) (regs : List Value) (pc : ℕ) : VmM Next := do
  let (m, f) ← ofOption .panic (fnAt modules mi fi)
  let instr ← ofOption .pcOutOfBounds f.code[pc]?
  exec K modules body m mi f fi instr (pc + 1) regs

/-- The loop of `call_body_at`. The first argument bounds the recursion. -/
def callBodyAt : ℕ → Body
  | 0, _, _, _, _ => exhausted
  | n + 1, mi, fi, regs, pc => do
    tick
    match ← step K modules (callBodyAt n) mi fi regs pc with
    | .goto pc regs => callBodyAt n mi fi regs pc
    | .ret v => pure v

/-- Forces the result and empties the queue of reads (the end of `run_world`). -/
def settle (o : Out Value) : Out Value :=
  let r : Tx × Except Fault Value :=
    match o.result with
    | .ok v => ((o.state.tx.toTx.force v).1, .ok (o.state.tx.toTx.force v).2)
    | .error e => (o.state.tx.toTx, .error e)
  { o with result := r.2
           state := { o.state with tx := { o.state.tx with toTx := r.1.flushPending.setLazy false } } }

/-- Runs a function of a module with a budget of fuel (`run_world`). -/
def runWorld (bound mainIdx : ℕ) (name : String) (args : List Value) (fuel : ℕ) (tx : VmTx) :
    Option (Out Value) :=
  match modules[mainIdx]? with
  | none => some ⟨.error .panic, { fuel := fuel, tx := tx }, 0⟩
  | some m =>
    match m.fnIndex.lookup name with
    | none => some ⟨.error (.unknownFunction name m.name), { fuel := fuel, tx := tx }, 0⟩
    | some fi =>
      (call modules (callBodyAt K modules bound) mainIdx fi args
        { fuel := fuel, tx := { tx with toTx := tx.toTx.setLazy true } }).map settle

end Exec

end Rend.Vm
