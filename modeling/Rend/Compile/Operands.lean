import Rend.Bytecode

/-!
# The operands of instructions

The compiler counts in `usize` and writes into an instruction what fits its fields: a `u8` for the arguments
of a call, a `u16` for a register or an index. `narrow` is what becomes of the numbers when an
instruction is built, under the conversions `Widths`: `machine` is the code as it is, `unbounded` keeps
every number. The targets of jumps are kept as they are.
-/

namespace Rend.Compile

/-- What the conversions to `u8` and `u16` do. -/
structure Widths where
  u8 : ℕ → ℕ
  u16 : ℕ → ℕ

/-- The conversions of the code. -/
def machine : Widths := ⟨(· % 2 ^ 8), (· % 2 ^ 16)⟩

/-- No conversion loses anything. -/
def unbounded : Widths := ⟨id, id⟩

def narrowRange (w : Widths) (r : ParallelRange) : ParallelRange := { r with dst := r.dst.map w.u16 }

/-- The instruction that is built from operands of any size. -/
def narrow (w : Widths) : Instr → Instr
  | .loadConst dst idx => .loadConst (w.u16 dst) (w.u16 idx)
  | .move dst src => .move (w.u16 dst) (w.u16 src)
  | .bin op dst lhs rhs => .bin op (w.u16 dst) (w.u16 lhs) (w.u16 rhs)
  | .un op dst src => .un op (w.u16 dst) (w.u16 src)
  | .jump offset => .jump offset
  | .jumpIfFalse cond offset => .jumpIfFalse (w.u16 cond) offset
  | .call dst fnIdx argsStart nArgs => .call (w.u16 dst) (w.u16 fnIdx) (w.u16 argsStart) (w.u8 nArgs)
  | .callHost dst importIdx argsStart nArgs => .callHost (w.u16 dst) (w.u16 importIdx) (w.u16 argsStart) (w.u8 nArgs)
  | .callExternal dst moduleNameIdx fnNameIdx argsStart nArgs isView isPure =>
    .callExternal (w.u16 dst) (w.u16 moduleNameIdx) (w.u16 fnNameIdx) (w.u16 argsStart) (w.u8 nArgs) isView isPure
  | .makeInterface dst ifaceNameIdx targetReg => .makeInterface (w.u16 dst) (w.u16 ifaceNameIdx) (w.u16 targetReg)
  | .callExternalDyn dst targetReg fnNameIdx argsStart nArgs isView isPure =>
    .callExternalDyn (w.u16 dst) (w.u16 targetReg) (w.u16 fnNameIdx) (w.u16 argsStart) (w.u8 nArgs) isView isPure
  | .ret src => .ret (w.u16 src)
  | .returnUnit => .returnUnit
  | .builtinResource dst src => .builtinResource (w.u16 dst) (w.u16 src)
  | .builtinUnwrap dst src => .builtinUnwrap (w.u16 dst) (w.u16 src)
  | .builtinAddress dst src => .builtinAddress (w.u16 dst) (w.u16 src)
  | .builtinLen dst src => .builtinLen (w.u16 dst) (w.u16 src)
  | .convert dst src target => .convert (w.u16 dst) (w.u16 src) (w.u8 target)
  | .makeArray dst argsStart n => .makeArray (w.u16 dst) (w.u16 argsStart) (w.u16 n)
  | .arrayGet dst arr idx => .arrayGet (w.u16 dst) (w.u16 arr) (w.u16 idx)
  | .arrayAppend dst arr elem => .arrayAppend (w.u16 dst) (w.u16 arr) (w.u16 elem)
  | .makeSet dst argsStart n => .makeSet (w.u16 dst) (w.u16 argsStart) (w.u16 n)
  | .makeDict dst argsStart nPairs => .makeDict (w.u16 dst) (w.u16 argsStart) (w.u16 nPairs)
  | .builtinCall dst nameIdx argsStart nArgs =>
    .builtinCall (w.u16 dst) (w.u16 nameIdx) (w.u16 argsStart) (w.u8 nArgs)
  | .makeStruct dst shapeIdx argsStart n => .makeStruct (w.u16 dst) (w.u16 shapeIdx) (w.u16 argsStart) (w.u16 n)
  | .fieldGet dst src nameIdx => .fieldGet (w.u16 dst) (w.u16 src) (w.u16 nameIdx)
  | .fieldSet dst nameIdx val => .fieldSet (w.u16 dst) (w.u16 nameIdx) (w.u16 val)
  | .kvGet dst keyIdx => .kvGet (w.u16 dst) (w.u16 keyIdx)
  | .kvPut src keyIdx => .kvPut (w.u16 src) (w.u16 keyIdx)
  | .kvGetPath dst pathIdx => .kvGetPath (w.u16 dst) (w.u16 pathIdx)
  | .kvPutPath src pathIdx => .kvPutPath (w.u16 src) (w.u16 pathIdx)
  | .readBatch groupIdx => .readBatch (w.u16 groupIdx)
  | .prefetchMap arrReg stateIdx => .prefetchMap (w.u16 arrReg) (w.u16 stateIdx)
  | .emit value => .emit (w.u16 value)
  | .parallelBegin ranges afterPc => .parallelBegin (ranges.map (narrowRange w)) afterPc
  | .parallelYield value => .parallelYield (value.map w.u16)
  | .parallelForBegin bodyStart bodyEnd sourceReg outputReg idReg idxReg afterPc =>
    .parallelForBegin bodyStart bodyEnd (w.u16 sourceReg) (w.u16 outputReg) (w.u16 idReg) (w.u16 idxReg) afterPc
  | .arrayAlloc dst lenReg defaultReg => .arrayAlloc (w.u16 dst) (w.u16 lenReg) (w.u16 defaultReg)
  | .reserve dst stateIdx countReg => .reserve (w.u16 dst) (w.u16 stateIdx) (w.u16 countReg)
  | .parallelForSkip => .parallelForSkip
  | .context dst kind => .context (w.u16 dst) (w.u8 kind)
  | .makeTuple dst argsStart n => .makeTuple (w.u16 dst) (w.u16 argsStart) (w.u16 n)
  | .tupleGet dst src index => .tupleGet (w.u16 dst) (w.u16 src) (w.u16 index)
  | .makeEnum dst shapeIdx variantIdx argsStart n =>
    .makeEnum (w.u16 dst) (w.u16 shapeIdx) (w.u16 variantIdx) (w.u16 argsStart) (w.u16 n)
  | .enumTag dst src => .enumTag (w.u16 dst) (w.u16 src)
  | .enumPayload dst src index => .enumPayload (w.u16 dst) (w.u16 src) (w.u16 index)
  | .mapGet dst stateIdx keyReg => .mapGet (w.u16 dst) (w.u16 stateIdx) (w.u16 keyReg)
  | .mapPut stateIdx keyReg src => .mapPut (w.u16 stateIdx) (w.u16 keyReg) (w.u16 src)
  | .pmapGet dst stateIdx keyReg => .pmapGet (w.u16 dst) (w.u16 stateIdx) (w.u16 keyReg)
  | .pmapPut stateIdx keyReg src => .pmapPut (w.u16 stateIdx) (w.u16 keyReg) (w.u16 src)
  | .pmapContains dst stateIdx keyReg => .pmapContains (w.u16 dst) (w.u16 stateIdx) (w.u16 keyReg)
  | .pvecGet dst stateIdx idxReg => .pvecGet (w.u16 dst) (w.u16 stateIdx) (w.u16 idxReg)
  | .pvecSet stateIdx idxReg src => .pvecSet (w.u16 stateIdx) (w.u16 idxReg) (w.u16 src)
  | .pvecPush dst stateIdx src => .pvecPush (w.u16 dst) (w.u16 stateIdx) (w.u16 src)
  | .pvecLen dst stateIdx => .pvecLen (w.u16 dst) (w.u16 stateIdx)
  | .pmapEntries dst stateIdx => .pmapEntries (w.u16 dst) (w.u16 stateIdx)
  | .pmapKeys dst stateIdx => .pmapKeys (w.u16 dst) (w.u16 stateIdx)
  | .pmapValues dst stateIdx => .pmapValues (w.u16 dst) (w.u16 stateIdx)
  | .pvecToArray dst stateIdx => .pvecToArray (w.u16 dst) (w.u16 stateIdx)
  | .pmapAppendUnique stateIdx keyReg elemReg => .pmapAppendUnique (w.u16 stateIdx) (w.u16 keyReg) (w.u16 elemReg)
  | .pmapPutUnique stateIdx keyReg src => .pmapPutUnique (w.u16 stateIdx) (w.u16 keyReg) (w.u16 src)
  | .pmapWalkInit dst stateIdx => .pmapWalkInit (w.u16 dst) (w.u16 stateIdx)
  | .pmapWalkNext cursorReg valueReg endOffset => .pmapWalkNext (w.u16 cursorReg) (w.u16 valueReg) endOffset
  | .pbtreeGet dst stateIdx keyReg => .pbtreeGet (w.u16 dst) (w.u16 stateIdx) (w.u16 keyReg)
  | .pbtreePut stateIdx keyReg src => .pbtreePut (w.u16 stateIdx) (w.u16 keyReg) (w.u16 src)
  | .pbtreeContains dst stateIdx keyReg => .pbtreeContains (w.u16 dst) (w.u16 stateIdx) (w.u16 keyReg)
  | .pbtreeRange dst stateIdx loReg hiReg => .pbtreeRange (w.u16 dst) (w.u16 stateIdx) (w.u16 loReg) (w.u16 hiReg)
  | .pbtreeWalkInit dst stateIdx => .pbtreeWalkInit (w.u16 dst) (w.u16 stateIdx)
  | .pbtreeWalkNext cursorReg valueReg endOffset => .pbtreeWalkNext (w.u16 cursorReg) (w.u16 valueReg) endOffset
  | .pbtreePutUnique stateIdx keyReg src => .pbtreePutUnique (w.u16 stateIdx) (w.u16 keyReg) (w.u16 src)
  | .pbtreeAppendUnique stateIdx keyReg elemReg => .pbtreeAppendUnique (w.u16 stateIdx) (w.u16 keyReg) (w.u16 elemReg)
  | .pmapDelete stateIdx keyReg => .pmapDelete (w.u16 stateIdx) (w.u16 keyReg)
  | .pbtreeDelete stateIdx keyReg => .pbtreeDelete (w.u16 stateIdx) (w.u16 keyReg)
  | .pmapRemoveUnique stateIdx keyReg expectedReg =>
    .pmapRemoveUnique (w.u16 stateIdx) (w.u16 keyReg) (w.u16 expectedReg)
  | .pmapRemoveFromList stateIdx keyReg elemReg => .pmapRemoveFromList (w.u16 stateIdx) (w.u16 keyReg) (w.u16 elemReg)
  | .pbtreeRemoveUnique stateIdx keyReg expectedReg =>
    .pbtreeRemoveUnique (w.u16 stateIdx) (w.u16 keyReg) (w.u16 expectedReg)
  | .pbtreeRemoveFromList stateIdx keyReg elemReg =>
    .pbtreeRemoveFromList (w.u16 stateIdx) (w.u16 keyReg) (w.u16 elemReg)
  | .incReg reg => .incReg (w.u16 reg)

/-- The operands of an instruction fit its fields. -/
def FitsFields (i : Instr) : Prop := narrow machine i = i

instance (i : Instr) : Decidable (FitsFields i) := inferInstanceAs (Decidable (narrow machine i = i))

@[simp] theorem narrow_unbounded (i : Instr) : narrow unbounded i = i := by
  have hrange : narrowRange unbounded = id := by
    funext r
    cases r with
    | mk start finish dst => cases dst <;> rfl
  cases i with
  | parallelBegin ranges afterPc => simp [narrow, hrange]
  | parallelYield value => cases value <;> rfl
  | _ => rfl

/-- What has been built fits. -/
theorem fitsFields_narrow (i : Instr) : FitsFields (narrow machine i) := by
  have hrange : narrowRange machine ∘ narrowRange machine = narrowRange machine := by
    funext r
    cases r with
    | mk start finish dst => cases dst <;> simp [narrowRange, machine]
  unfold FitsFields
  cases i with
  | parallelBegin ranges afterPc => simp [narrow, hrange]
  | parallelYield value => cases value <;> simp [narrow, machine]
  | _ => simp [narrow, machine]

/-- A jump with another offset. -/
def withOffset (offset : ℤ) : Instr → Instr
  | .jump _ => .jump offset
  | .jumpIfFalse cond _ => .jumpIfFalse cond offset
  | .pmapWalkNext cursorReg valueReg _ => .pmapWalkNext cursorReg valueReg offset
  | .pbtreeWalkNext cursorReg valueReg _ => .pbtreeWalkNext cursorReg valueReg offset
  | i => i

theorem narrow_withOffset (w : Widths) (offset : ℤ) (i : Instr) :
    narrow w (withOffset offset i) = withOffset offset (narrow w i) := by
  cases i <;> rfl

/-- Another offset does not matter to the fields. -/
theorem fitsFields_withOffset {offset : ℤ} {i : Instr} : FitsFields (withOffset offset i) ↔ FitsFields i := by
  unfold FitsFields
  rw [narrow_withOffset]
  cases i <;> simp [withOffset, narrow]

end Rend.Compile
