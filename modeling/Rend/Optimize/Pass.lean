import Rend.Bytecode

/-!
# Read clustering

The pass over the code of a function that gathers state reads into batches (`optimize.rs`). A read
joins the cluster that is open. Any other instruction closes the cluster when it is a barrier or reads
a register the cluster is to write; otherwise it waits behind the cluster. A cluster is emitted at the
place of its first read, the instructions that waited come after it, and at the end the two kinds of
jump are relocated.
-/

namespace Rend.Optimize

/-- What a function can do (`effects::EffectClass`). -/
inductive EffectClass
  | pure
  | readOnly
  | writeOnly
  | readWrite
  | impure
  deriving DecidableEq

/-- The effects of the functions of the module, by name, and the index of each name. -/
structure Effects where
  fnEffects : String → Option EffectClass
  localFnIndex : List (String × ℕ)

/-- `n` consecutive registers. -/
def regRange (start n : ℕ) : List Reg := (List.range n).map (start + ·)

/-- The registers an instruction reads, as the pass sees them. -/
def srcs : Instr → List Reg
  | .kvGet _ _ | .kvGetPath _ _ | .loadConst _ _ | .returnUnit => []
  | .move _ src => [src]
  | .bin _ _ lhs rhs => [lhs, rhs]
  | .un _ _ src => [src]
  | .jump _ => []
  | .jumpIfFalse cond _ => [cond]
  | .call _ _ argsStart nArgs | .callHost _ _ argsStart nArgs
  | .callExternal _ _ _ argsStart nArgs _ _ | .builtinCall _ _ argsStart nArgs => regRange argsStart nArgs
  | .callExternalDyn _ targetReg _ argsStart nArgs _ _ => targetReg :: regRange argsStart nArgs
  | .makeInterface _ _ targetReg => [targetReg]
  | .ret src => [src]
  | .arrayGet _ arr idx => [arr, idx]
  | .arrayAppend _ arr elem => [arr, elem]
  | .makeArray _ argsStart n | .makeStruct _ _ argsStart n | .makeSet _ argsStart n
  | .makeTuple _ argsStart n | .makeEnum _ _ _ argsStart n => regRange argsStart n
  | .fieldGet _ src _ => [src]
  | .fieldSet dst _ val => [dst, val]
  | .makeDict _ argsStart nPairs => regRange argsStart (nPairs * 2)
  | .kvPut src _ | .kvPutPath src _ => [src]
  | .mapGet _ _ keyReg => [keyReg]
  | .mapPut _ keyReg src => [keyReg, src]
  | .convert _ src _ | .builtinResource _ src | .builtinUnwrap _ src | .builtinAddress _ src
  | .builtinLen _ src => [src]
  | .readBatch _ => []
  | .prefetchMap arrReg _ => [arrReg]
  | .emit value => [value]
  | .parallelBegin _ _ => []
  | .parallelYield value => value.toList
  | .parallelForBegin _ _ sourceReg outputReg _ _ _ => [sourceReg, outputReg]
  | .arrayAlloc _ lenReg defaultReg => [lenReg, defaultReg]
  | .reserve _ _ countReg => [countReg]
  | .parallelForSkip => []
  | .context _ _ => []
  | .tupleGet _ src _ | .enumTag _ src | .enumPayload _ src _ => [src]
  | .incReg reg => [reg]
  | .pmapGet _ _ keyReg | .pmapContains _ _ keyReg | .pbtreeGet _ _ keyReg
  | .pbtreeContains _ _ keyReg => [keyReg]
  | .pmapPut _ keyReg src | .pmapPutUnique _ keyReg src | .pbtreePut _ keyReg src
  | .pbtreePutUnique _ keyReg src => [keyReg, src]
  | .pvecGet _ _ idxReg => [idxReg]
  | .pvecSet _ idxReg src => [idxReg, src]
  | .pvecPush _ _ src => [src]
  | .pvecLen _ _ | .pmapEntries _ _ | .pmapKeys _ _ | .pmapValues _ _ | .pvecToArray _ _ => []
  | .pmapAppendUnique _ keyReg elemReg | .pbtreeAppendUnique _ keyReg elemReg => [keyReg, elemReg]
  | .pmapWalkInit _ _ | .pbtreeWalkInit _ _ => []
  | .pmapWalkNext cursorReg _ _ | .pbtreeWalkNext cursorReg _ _ => [cursorReg]
  | .pbtreeRange _ _ loReg hiReg => [loReg, hiReg]
  | .pmapDelete _ keyReg | .pbtreeDelete _ keyReg => [keyReg]
  | .pmapRemoveUnique _ keyReg expectedReg | .pbtreeRemoveUnique _ keyReg expectedReg =>
    [keyReg, expectedReg]
  | .pmapRemoveFromList _ keyReg elemReg | .pbtreeRemoveFromList _ keyReg elemReg => [keyReg, elemReg]

/-- Whether an instruction reads a register that the open cluster is to write. -/
def readsPendingDst (i : Instr) (pending : List Reg) : Bool := (srcs i).any (pending.contains ·)

/-- Whether a cluster has to be closed before this instruction. -/
def clusterBreaker (E : Effects) : Instr → Bool
  | .kvPut _ _ | .kvPutPath _ _ | .mapPut _ _ _ | .pmapPut _ _ _ | .pvecSet _ _ _ | .pvecPush _ _ _
  | .pmapAppendUnique _ _ _ | .pmapPutUnique _ _ _ | .pbtreePut _ _ _ | .pbtreePutUnique _ _ _
  | .pbtreeAppendUnique _ _ _ | .pmapDelete _ _ | .pbtreeDelete _ _ | .pmapRemoveUnique _ _ _
  | .pmapRemoveFromList _ _ _ | .pbtreeRemoveUnique _ _ _ | .pbtreeRemoveFromList _ _ _ => true
  | .callHost _ _ _ _ => true
  | .callExternal _ _ _ _ _ isView isPure | .callExternalDyn _ _ _ _ _ isView isPure =>
    !(isView || isPure)
  | .call _ fnIdx _ _ =>
    match (E.localFnIndex.find? fun p => p.2 % 65536 = fnIdx).bind fun p => E.fnEffects p.1 with
    | some .pure | some .readOnly => false
    | _ => true
  | .jump _ | .jumpIfFalse _ _ | .ret _ | .returnUnit => true
  | .parallelBegin _ _ | .parallelYield _ | .parallelForBegin .. | .reserve _ _ _
  | .parallelForSkip => true
  | _ => false

/-- The two instructions whose offset the pass relocates. -/
def isJump : Instr → Bool
  | .jump _ | .jumpIfFalse _ _ => true
  | _ => false

/-- The state read an instruction makes, if it may join a cluster. -/
def readOp? : Instr → Option ReadOp
  | .kvGet dst keyIdx => some (.state dst keyIdx)
  | .kvGetPath dst pathIdx => some (.path dst pathIdx)
  | _ => none

/-- What the pass carries from instruction to instruction. -/
structure State where
  newCode : List Instr := []
  cluster : List ReadOp := []
  /-- Where the reads of the cluster stood. -/
  clusterOld : List ℕ := []
  clusterDsts : List Reg := []
  /-- The instructions waiting behind the cluster, with their places. -/
  pendingNonreads : List (ℕ × Instr) := []
  /-- Where each instruction has gone. -/
  idxMap : ℕ → Option ℕ := fun _ => none
  /-- Where each jump of the new code stood. -/
  newJumpOld : ℕ → Option ℕ := fun _ => none
  readGroups : List (List ReadOp) := []

/-- Emits an instruction that is no read. -/
def State.emit (s : State) (old : ℕ) (i : Instr) : State :=
  { s with newCode := s.newCode ++ [i]
           idxMap := Function.update s.idxMap old (some s.newCode.length)
           newJumpOld := if isJump i then Function.update s.newJumpOld s.newCode.length (some old)
             else s.newJumpOld }

/-- Emits the reads of the open cluster: one read as it is, several as a batch. -/
def State.emitCluster (s : State) : State :=
  match s.cluster with
  | [] => s
  | [op] =>
    { s with newCode := s.newCode ++ [op.instr]
             idxMap := s.clusterOld.foldl (fun m old => Function.update m old (some s.newCode.length)) s.idxMap
             cluster := []
             clusterOld := [] }
  | ops =>
    { s with newCode := s.newCode ++ [.readBatch (s.readGroups.length % 65536)]
             idxMap := s.clusterOld.foldl (fun m old => Function.update m old (some s.newCode.length)) s.idxMap
             cluster := []
             clusterOld := []
             readGroups := s.readGroups ++ [ops] }

/-- Closes the cluster: its reads, then what waited behind it. -/
def State.flush (s : State) : State :=
  let s₁ := s.emitCluster
  let s₂ := s₁.pendingNonreads.foldl (fun s p => s.emit p.1 p.2) s₁
  { s₂ with pendingNonreads := [], clusterDsts := [] }

/-- A read joins the open cluster, or opens one. -/
def State.addRead (s : State) (old : ℕ) (op : ReadOp) : State :=
  { s with cluster := s.cluster ++ [op]
           clusterOld := s.clusterOld ++ [old]
           clusterDsts := s.clusterDsts ++ [op.dst] }

/-- One instruction of the function. -/
def State.step (E : Effects) (s : State) (old : ℕ) (i : Instr) : State :=
  match readOp? i with
  | some op => (if readsPendingDst i s.clusterDsts then s.flush else s).addRead old op
  | none =>
    if clusterBreaker E i || readsPendingDst i s.clusterDsts then s.flush.emit old i
    else if s.cluster.isEmpty then s.emit old i
    else { s with pendingNonreads := s.pendingNonreads ++ [(old, i)] }

/-- The pass over the instructions from place `old` on. -/
def State.run (E : Effects) (s : State) (old : ℕ) : List Instr → State
  | [] => s
  | i :: code => (s.step E old i).run E (old + 1) code

/-- The place of the first instruction at or after `t` that has one, `newLen` if there is none. -/
def firstFrom (idxMap : ℕ → Option ℕ) (newLen : ℕ) (t : ℕ) : ℕ → ℕ
  | 0 => newLen
  | n + 1 =>
    match idxMap t with
    | some v => v
    | none => firstFrom idxMap newLen (t + 1) n

/-- Where a jump to the old place `t` is to go. -/
def mapOrEnd (idxMap : ℕ → Option ℕ) (oldLen newLen : ℕ) (t : ℤ) : ℤ :=
  if t < 0 then 0
  else if oldLen ≤ t.toNat then newLen
  else firstFrom idxMap newLen t.toNat (oldLen - t.toNat)

/-- Relocates the offset of an instruction at the new place `newPc`. -/
def relocate (s : State) (oldLen newPc : ℕ) (i : Instr) : Instr :=
  let oldPc : ℤ := (s.newJumpOld newPc).getD 0
  let offset' (offset : ℤ) := mapOrEnd s.idxMap oldLen s.newCode.length (oldPc + 1 + offset) - newPc - 1
  match i with
  | .jump offset => .jump (offset' offset)
  | .jumpIfFalse cond offset => .jumpIfFalse cond (offset' offset)
  | i => i

/-- The pass before the jumps are relocated. -/
def clustered (E : Effects) (f : BcCode) : State :=
  (State.run E { readGroups := f.readGroups } 0 f.code).flush

/-- Read clustering on one function. -/
def optimizeFn (E : Effects) (f : BcCode) : BcCode where
  code := (clustered E f).newCode.mapIdx (relocate (clustered E f) f.code.length)
  readGroups := (clustered E f).readGroups

end Rend.Optimize
