import Rend.Compile.Operands

/-!
# What an instruction refers to

The registers that an instruction writes and reads in the frame, the windows it takes its operands from, and
its indices into the constants of the function and the tables of the module (`vm.rs`). `Demands` says which
numbers are allowed, `Instr.Meets` that those of an instruction are. A deferred read that is resolved in the
register it stands in counts as a read. `Instr.Lands` says where a jump leads.
-/

namespace Rend

/-- What is asked of the numbers in an instruction. -/
structure Demands where
  writes : Reg → Prop
  reads : Reg → Prop
  /-- A window of registers, by the first and their number. -/
  window : Reg → ℕ → Prop
  const : ℕ → Prop
  path : ℕ → Prop
  state : ℕ → Prop
  fn : ℕ → Prop
  «import» : ℕ → Prop
  /-- A struct and how many of its fields are set. -/
  struct : ℕ → ℕ → Prop
  /-- An enum and one of its variants. -/
  variant : ℕ → ℕ → Prop
  /-- A batch of reads. -/
  batch : ℕ → Prop

section Meets

variable (D : Demands)

/-- The numbers of an instruction are as asked. -/
def Instr.Meets : Instr → Prop
  | .loadConst dst idx => D.writes dst ∧ D.const idx
  | .move dst src | .un _ dst src | .builtinResource dst src | .builtinUnwrap dst src | .builtinAddress dst src
  | .builtinLen dst src | .convert dst src _ | .tupleGet dst src _ | .enumTag dst src | .enumPayload dst src _ =>
    D.writes dst ∧ D.reads src
  | .bin _ dst lhs rhs => D.writes dst ∧ D.reads lhs ∧ D.reads rhs
  | .jump _ => True
  | .jumpIfFalse cond _ => D.reads cond
  | .call dst fnIdx argsStart nArgs => D.writes dst ∧ D.fn fnIdx ∧ D.window argsStart nArgs
  | .callHost dst importIdx argsStart nArgs => D.writes dst ∧ D.import importIdx ∧ D.window argsStart nArgs
  | .callExternal dst moduleNameIdx fnNameIdx argsStart nArgs _ _ =>
    D.writes dst ∧ D.const moduleNameIdx ∧ D.const fnNameIdx ∧ D.window argsStart nArgs
  | .makeInterface dst ifaceNameIdx targetReg => D.writes dst ∧ D.const ifaceNameIdx ∧ D.reads targetReg
  | .callExternalDyn dst targetReg fnNameIdx argsStart nArgs _ _ =>
    D.writes dst ∧ D.reads targetReg ∧ D.const fnNameIdx ∧ D.window argsStart nArgs
  | .ret src => D.reads src
  | .returnUnit | .parallelForSkip => True
  | .readBatch groupIdx => D.batch groupIdx
  | .makeArray dst argsStart n | .makeSet dst argsStart n | .makeTuple dst argsStart n =>
    D.writes dst ∧ D.window argsStart n
  | .makeDict dst argsStart nPairs => D.writes dst ∧ D.window argsStart (2 * nPairs)
  | .arrayGet dst arr idx => D.writes dst ∧ D.reads arr ∧ D.reads idx
  | .arrayAppend dst arr elem => D.writes dst ∧ D.reads arr ∧ D.reads elem
  | .builtinCall dst nameIdx argsStart nArgs => D.writes dst ∧ D.const nameIdx ∧ D.window argsStart nArgs
  | .makeStruct dst shapeIdx argsStart n => D.writes dst ∧ D.struct shapeIdx n ∧ D.window argsStart n
  | .fieldGet dst src nameIdx => D.writes dst ∧ D.reads src ∧ D.const nameIdx
  | .fieldSet dst nameIdx val => D.writes dst ∧ D.const nameIdx ∧ D.reads val
  | .kvGet dst keyIdx => D.writes dst ∧ D.state keyIdx
  | .kvPut src keyIdx => D.reads src ∧ D.state keyIdx
  | .kvGetPath dst pathIdx => D.writes dst ∧ D.path pathIdx
  | .kvPutPath src pathIdx => D.reads src ∧ D.path pathIdx
  | .prefetchMap arrReg stateIdx => D.reads arrReg ∧ D.state stateIdx
  | .emit value => D.reads value
  | .parallelBegin ranges _ => ∀ range ∈ ranges, ∀ dst ∈ range.dst, D.writes dst
  | .parallelYield value => ∀ r ∈ value, D.reads r
  | .parallelForBegin _ _ sourceReg outputReg idReg idxReg _ =>
    D.reads sourceReg ∧ D.writes outputReg ∧ D.writes idReg ∧ D.writes idxReg
  | .arrayAlloc dst lenReg defaultReg => D.writes dst ∧ D.reads lenReg ∧ D.reads defaultReg
  | .reserve dst stateIdx countReg => D.writes dst ∧ D.state stateIdx ∧ D.reads countReg
  | .context dst _ => D.writes dst
  | .makeEnum dst shapeIdx variantIdx argsStart n =>
    D.writes dst ∧ D.variant shapeIdx variantIdx ∧ D.window argsStart n
  | .mapGet dst stateIdx keyReg | .pmapGet dst stateIdx keyReg | .pmapContains dst stateIdx keyReg
  | .pvecGet dst stateIdx keyReg | .pvecPush dst stateIdx keyReg | .pbtreeGet dst stateIdx keyReg
  | .pbtreeContains dst stateIdx keyReg => D.writes dst ∧ D.state stateIdx ∧ D.reads keyReg
  | .mapPut stateIdx keyReg src | .pmapPut stateIdx keyReg src | .pvecSet stateIdx keyReg src
  | .pmapAppendUnique stateIdx keyReg src | .pmapPutUnique stateIdx keyReg src | .pbtreePut stateIdx keyReg src
  | .pbtreePutUnique stateIdx keyReg src | .pbtreeAppendUnique stateIdx keyReg src
  | .pmapRemoveUnique stateIdx keyReg src | .pmapRemoveFromList stateIdx keyReg src
  | .pbtreeRemoveUnique stateIdx keyReg src | .pbtreeRemoveFromList stateIdx keyReg src =>
    D.state stateIdx ∧ D.reads keyReg ∧ D.reads src
  | .pvecLen dst stateIdx | .pmapEntries dst stateIdx | .pmapKeys dst stateIdx | .pmapValues dst stateIdx
  | .pvecToArray dst stateIdx | .pmapWalkInit dst stateIdx | .pbtreeWalkInit dst stateIdx =>
    D.writes dst ∧ D.state stateIdx
  | .pmapWalkNext cursorReg valueReg _ | .pbtreeWalkNext cursorReg valueReg _ =>
    D.writes cursorReg ∧ D.reads cursorReg ∧ D.writes valueReg
  | .pbtreeRange dst stateIdx loReg hiReg => D.writes dst ∧ D.state stateIdx ∧ D.reads loReg ∧ D.reads hiReg
  | .pmapDelete stateIdx keyReg | .pbtreeDelete stateIdx keyReg => D.state stateIdx ∧ D.reads keyReg
  | .incReg reg => D.writes reg ∧ D.reads reg

end Meets

/-- An offset from an instruction leads into code of this length, or to its end. -/
def OffsetWithin (size pos : ℕ) (offset : ℤ) : Prop := 0 ≤ (pos : ℤ) + 1 + offset ∧ (pos : ℤ) + 1 + offset ≤ size

/-- Every place an instruction leads to lies in code of this length, or at its end. -/
def Instr.Lands (size pos : ℕ) : Instr → Prop
  | .jump offset | .jumpIfFalse _ offset | .pmapWalkNext _ _ offset | .pbtreeWalkNext _ _ offset =>
    OffsetWithin size pos offset
  | .parallelBegin ranges afterPc => (∀ range ∈ ranges, range.start ≤ size ∧ range.end ≤ size) ∧ afterPc ≤ size
  | .parallelForBegin bodyStart bodyEnd _ _ _ _ afterPc =>
    bodyStart ≤ size ∧ bodyEnd ≤ size ∧ afterPc ≤ size
  | _ => True

/-! ### Frames -/

/-- What the instructions of a function may refer to. -/
def frameDemands (m : BcModule) (f : BcFn) : Demands where
  writes r := r < f.nRegs
  reads r := r < f.nRegs
  window first n := first + n ≤ f.nRegs
  const i := i < f.consts.length
  path i := i < m.pathSpecs.length
  state i := i < m.stateTypes.length
  fn i := i < m.functions.length
  «import» i := i < m.imports.length
  struct i n := ∃ shape, m.structShapes[i]? = some shape ∧ n = shape.fieldNames.length
  variant i j := ∃ shape, m.enumShapes[i]? = some shape ∧ j < shape.variantNames.length
  batch i := i < f.readGroups.length

/-- A function refers to what exists: to the registers of its frame, to its constants and batches, to the tables of
its module. -/
structure WellFormedFn (m : BcModule) (f : BcFn) : Prop where
  params : f.nParams ≤ f.nRegs
  meets : ∀ i ∈ f.code, i.Meets (frameDemands m f)
  batches : ∀ ops ∈ f.readGroups, ∀ op ∈ ops, op.instr.Meets (frameDemands m f)

/-- A function leads into its own code, or to its end. -/
def StaysInside (f : BcFn) : Prop :=
  ∀ (pos : ℕ) (i : Instr), f.code[pos]? = some i → i.Lands f.code.length pos

namespace Compile

variable {D : Demands} {size pos target : ℕ}

/-- Another offset does not matter to the numbers of an instruction. -/
theorem meets_withOffset {offset : ℤ} {i : Instr} : (withOffset offset i).Meets D ↔ i.Meets D := by
  cases i <;> rfl

theorem within_offsetTo (h : target ≤ size) : OffsetWithin size pos (target - pos - 1) := by
  unfold OffsetWithin
  omega

theorem lands_withOffset {offset : ℤ} {i : Instr} (h : i.Lands size pos) (hoff : OffsetWithin size pos offset) :
    (withOffset offset i).Lands size pos := by
  cases i <;> first | exact h | exact hoff

end Compile

end Rend
