import Rend.Lib.Codec
import Rend.Bytecode
import Rend.Serialize

/-!
# The artifact format

A list of compiled modules as one string of bytes, and back (`artifact.rs`): `encode` writes the magic
number, the version, and the modules one after the other; `decode` reads them and rebuilds the index
tables, which are not written. Numbers are big-endian, a string and a list come after their length in
32 bits, and an instruction, a type and a constant after a tag.

An explicit-literal type is written as its inner type. A type is read with the length of the input as
the bound on its nesting: each level takes at least its tag.
-/

namespace Rend.Artifact

open Lib

/-! ### Writing -/

def writeU8 (n : ℕ) : Bytes := beBytes 1 n
def writeU16 (n : ℕ) : Bytes := beBytes 2 n
def writeU32 (n : ℕ) : Bytes := beBytes 4 n
def writeU128 (n : U128) : Bytes := wordBytes 16 n

/-- A signed word in two's complement. -/
def writeI32 (n : ℤ) : Bytes := beBytes 4 (n % 2 ^ 32).toNat

def writeBool (b : Bool) : Bytes := [if b then 1#8 else 0#8]

def writeBytes (b : Bytes) : Bytes := writeU32 b.length ++ b

def writeStr (s : String) : Bytes := writeBytes (strBytes s)

/-- The length of a list and then its elements. -/
def writeVec {α : Type} (w : α → Bytes) (l : List α) : Bytes := writeU32 l.length ++ l.flatMap w

/-- A flag and then the value, if there is one. -/
def writeOption {α : Type} (w : α → Bytes) : Option α → Bytes
  | some x => 1#8 :: w x
  | none => [0#8]

mutual

def writeType : Ty → Bytes
  | .int => [0x01#8]
  | .uint => [0x1d#8]
  | .float => [0x1e#8]
  | .i32 => [0x02#8]
  | .u32 => [0x03#8]
  | .u64 => [0x04#8]
  | .u128 => [0x05#8]
  | .bool => [0x06#8]
  | .unit => [0x07#8]
  | .resource => [0x08#8]
  | .string => [0x09#8]
  | .address => [0x0a#8]
  | .bytes => [0x0b#8]
  | .array elem => 0x10#8 :: writeType elem
  | .explicitLiteral inner => writeType inner
  | .set elem => 0x11#8 :: writeType elem
  | .dict key value => 0x12#8 :: (writeType key ++ writeType value)
  | .map key value => 0x13#8 :: (writeType key ++ writeType value)
  | .pmap key value => 0x17#8 :: (writeType key ++ writeType value)
  | .pbtree key value => 0x1b#8 :: (writeType key ++ writeType value)
  | .json => [0x1c#8]
  | .pvec elem => 0x18#8 :: writeType elem
  | .struct name fields groups =>
    0x14#8 :: (writeStr name ++ (writeU32 fields.length ++ writeGrouped fields groups))
  | .tuple elems => 0x15#8 :: (writeU32 elems.length ++ writeTypes elems)
  | .enum name variants =>
    0x16#8 :: (writeStr name ++ (writeU32 variants.length ++ writeVariants variants))
  | .cap name fields owner =>
    0x19#8 :: (writeStr name ++ (writeStr owner ++ (writeU32 fields.length ++ writeFields fields)))
  | .interface name methods =>
    0x1a#8 :: (writeStr name ++ (writeU32 methods.length ++ writeMethods methods))
  termination_by structural x => x

def writeTypes : List Ty → Bytes
  | [] => []
  | t :: ts => writeType t ++ writeTypes ts
  termination_by structural x => x

/-- The fields of a struct with their groups. A group list that is too short is filled up. -/
def writeGrouped : List (String × Ty) → List (Option String) → Bytes
  | [], _ => []
  | (n, t) :: fs, groups =>
    (writeStr n ++ (writeType t ++ writeOption writeStr groups.head?.join)) ++ writeGrouped fs groups.tail
  termination_by structural x => x

def writeFields : List (String × Ty) → Bytes
  | [] => []
  | (n, t) :: fs => (writeStr n ++ writeType t) ++ writeFields fs
  termination_by structural x => x

def writeVariants : List (String × List Ty) → Bytes
  | [] => []
  | (n, ts) :: vs => (writeStr n ++ (writeU32 ts.length ++ writeTypes ts)) ++ writeVariants vs
  termination_by structural x => x

def writeMethods : List InterfaceMethodSig → Bytes
  | [] => []
  | .mk n params ret isView isPure :: ms =>
    (writeStr n ++ (writeBool isView ++ (writeBool isPure ++ (writeU32 params.length ++
      (writeTypes params ++ writeType ret))))) ++ writeMethods ms
  termination_by structural x => x

end

def writeConst : Const → Bytes
  | .int n => 0x01#8 :: writeBytes (toSignedBytesBe n)
  | .uint n => 0x08#8 :: writeBytes (toSignedBytesBe n)
  | .float n => 0x09#8 :: wordBytes 8 n
  | .i32 n => 0x02#8 :: wordBytes 4 n
  | .u32 n => 0x03#8 :: wordBytes 4 n
  | .u64 n => 0x04#8 :: wordBytes 8 n
  | .u128 n => 0x05#8 :: wordBytes 16 n
  | .bool b => 0x06#8 :: writeBool b
  | .str s => 0x07#8 :: writeStr s

def writeReadOp : ReadOp → Bytes
  | .state dst keyIdx => 0x01#8 :: (writeU16 dst ++ writeU16 keyIdx)
  | .path dst pathIdx => 0x02#8 :: (writeU16 dst ++ writeU16 pathIdx)

def binopToByte : BinOp → Byte
  | .add => 0x01#8 | .sub => 0x02#8 | .mul => 0x03#8 | .div => 0x04#8 | .mod => 0x05#8
  | .eq => 0x06#8 | .notEq => 0x07#8 | .lt => 0x08#8 | .gt => 0x09#8
  | .ltEq => 0x0a#8 | .gtEq => 0x0b#8
  | .and => 0x0c#8 | .or => 0x0d#8
  | .bitAnd => 0x0e#8 | .bitOr => 0x0f#8 | .bitXor => 0x10#8
  | .shl => 0x11#8 | .shr => 0x12#8

def unopToByte : UnOp → Byte
  | .neg => 0x01#8
  | .not => 0x02#8

def writeRange (r : ParallelRange) : Bytes :=
  writeU32 r.start ++ (writeU32 r.end ++ writeOption writeU16 r.dst)

/-- An instruction, after its number in `mod op`. -/
def writeInstr : Instr → Bytes
  | .loadConst dst idx => 0x01#8 :: (writeU16 dst ++ writeU16 idx)
  | .move dst src => 0x02#8 :: (writeU16 dst ++ writeU16 src)
  | .bin op dst lhs rhs =>
    0x03#8 :: ([binopToByte op] ++ (writeU16 dst ++ (writeU16 lhs ++ writeU16 rhs)))
  | .un op dst src => 0x04#8 :: ([unopToByte op] ++ (writeU16 dst ++ writeU16 src))
  | .jump offset => 0x05#8 :: writeI32 offset
  | .jumpIfFalse cond offset => 0x06#8 :: (writeU16 cond ++ writeI32 offset)
  | .call dst fnIdx argsStart nArgs =>
    0x07#8 :: (writeU16 dst ++ (writeU16 fnIdx ++ (writeU16 argsStart ++ writeU8 nArgs)))
  | .callHost dst importIdx argsStart nArgs =>
    0x08#8 :: (writeU16 dst ++ (writeU16 importIdx ++ (writeU16 argsStart ++ writeU8 nArgs)))
  | .callExternal dst moduleNameIdx fnNameIdx argsStart nArgs isView isPure =>
    0x09#8 :: (writeU16 dst ++ (writeU16 moduleNameIdx ++ (writeU16 fnNameIdx ++
      (writeU16 argsStart ++ (writeU8 nArgs ++ (writeBool isView ++ writeBool isPure))))))
  | .makeInterface dst ifaceNameIdx targetReg =>
    0x32#8 :: (writeU16 dst ++ (writeU16 ifaceNameIdx ++ writeU16 targetReg))
  | .callExternalDyn dst targetReg fnNameIdx argsStart nArgs isView isPure =>
    0x31#8 :: (writeU16 dst ++ (writeU16 targetReg ++ (writeU16 fnNameIdx ++ (writeU16 argsStart ++
      (writeU8 nArgs ++ (writeBool isView ++ writeBool isPure))))))
  | .ret src => 0x0a#8 :: writeU16 src
  | .returnUnit => [0x0b#8]
  | .builtinResource dst src => 0x0c#8 :: (writeU16 dst ++ writeU16 src)
  | .builtinUnwrap dst src => 0x0d#8 :: (writeU16 dst ++ writeU16 src)
  | .builtinAddress dst src => 0x0e#8 :: (writeU16 dst ++ writeU16 src)
  | .builtinLen dst src => 0x0f#8 :: (writeU16 dst ++ writeU16 src)
  | .convert dst src target => 0x10#8 :: (writeU16 dst ++ (writeU16 src ++ writeU8 target))
  | .makeArray dst argsStart n => 0x11#8 :: (writeU16 dst ++ (writeU16 argsStart ++ writeU16 n))
  | .arrayGet dst arr idx => 0x12#8 :: (writeU16 dst ++ (writeU16 arr ++ writeU16 idx))
  | .arrayAppend dst arr elem => 0x13#8 :: (writeU16 dst ++ (writeU16 arr ++ writeU16 elem))
  | .makeSet dst argsStart n => 0x14#8 :: (writeU16 dst ++ (writeU16 argsStart ++ writeU16 n))
  | .makeDict dst argsStart nPairs =>
    0x15#8 :: (writeU16 dst ++ (writeU16 argsStart ++ writeU16 nPairs))
  | .builtinCall dst nameIdx argsStart nArgs =>
    0x16#8 :: (writeU16 dst ++ (writeU16 nameIdx ++ (writeU16 argsStart ++ writeU8 nArgs)))
  | .makeStruct dst shapeIdx argsStart n =>
    0x17#8 :: (writeU16 dst ++ (writeU16 shapeIdx ++ (writeU16 argsStart ++ writeU16 n)))
  | .fieldGet dst src nameIdx => 0x18#8 :: (writeU16 dst ++ (writeU16 src ++ writeU16 nameIdx))
  | .fieldSet dst nameIdx val => 0x19#8 :: (writeU16 dst ++ (writeU16 nameIdx ++ writeU16 val))
  | .kvGet dst keyIdx => 0x1a#8 :: (writeU16 dst ++ writeU16 keyIdx)
  | .kvPut src keyIdx => 0x1b#8 :: (writeU16 src ++ writeU16 keyIdx)
  | .kvGetPath dst pathIdx => 0x1c#8 :: (writeU16 dst ++ writeU16 pathIdx)
  | .kvPutPath src pathIdx => 0x1d#8 :: (writeU16 src ++ writeU16 pathIdx)
  | .readBatch groupIdx => 0x1e#8 :: writeU16 groupIdx
  | .prefetchMap arrReg stateIdx => 0x1f#8 :: (writeU16 arrReg ++ writeU16 stateIdx)
  | .emit value => 0x20#8 :: writeU16 value
  | .parallelBegin ranges afterPc =>
    0x49#8 :: (writeU32 ranges.length ++ (ranges.flatMap writeRange ++ writeU32 afterPc))
  | .parallelYield value => 0x4a#8 :: writeOption writeU16 value
  | .parallelForBegin bodyStart bodyEnd sourceReg outputReg idReg idxReg afterPc =>
    0x4b#8 :: (writeU32 bodyStart ++ (writeU32 bodyEnd ++ (writeU16 sourceReg ++
      (writeU16 outputReg ++ (writeU16 idReg ++ (writeU16 idxReg ++ writeU32 afterPc))))))
  | .arrayAlloc dst lenReg defaultReg =>
    0x4c#8 :: (writeU16 dst ++ (writeU16 lenReg ++ writeU16 defaultReg))
  | .reserve dst stateIdx countReg =>
    0x4d#8 :: (writeU16 dst ++ (writeU16 stateIdx ++ writeU16 countReg))
  | .parallelForSkip => [0x4e#8]
  | .context dst kind => 0x21#8 :: (writeU16 dst ++ writeU8 kind)
  | .makeTuple dst argsStart n => 0x22#8 :: (writeU16 dst ++ (writeU16 argsStart ++ writeU16 n))
  | .tupleGet dst src index => 0x23#8 :: (writeU16 dst ++ (writeU16 src ++ writeU16 index))
  | .makeEnum dst shapeIdx variantIdx argsStart n =>
    0x24#8 :: (writeU16 dst ++ (writeU16 shapeIdx ++ (writeU16 variantIdx ++ (writeU16 argsStart ++
      writeU16 n))))
  | .enumTag dst src => 0x25#8 :: (writeU16 dst ++ writeU16 src)
  | .enumPayload dst src index => 0x26#8 :: (writeU16 dst ++ (writeU16 src ++ writeU16 index))
  | .mapGet dst stateIdx keyReg => 0x27#8 :: (writeU16 dst ++ (writeU16 stateIdx ++ writeU16 keyReg))
  | .mapPut stateIdx keyReg src => 0x28#8 :: (writeU16 stateIdx ++ (writeU16 keyReg ++ writeU16 src))
  | .pmapGet dst stateIdx keyReg => 0x29#8 :: (writeU16 dst ++ (writeU16 stateIdx ++ writeU16 keyReg))
  | .pmapPut stateIdx keyReg src => 0x2a#8 :: (writeU16 stateIdx ++ (writeU16 keyReg ++ writeU16 src))
  | .pmapContains dst stateIdx keyReg =>
    0x2b#8 :: (writeU16 dst ++ (writeU16 stateIdx ++ writeU16 keyReg))
  | .pvecGet dst stateIdx idxReg => 0x2c#8 :: (writeU16 dst ++ (writeU16 stateIdx ++ writeU16 idxReg))
  | .pvecSet stateIdx idxReg src => 0x2d#8 :: (writeU16 stateIdx ++ (writeU16 idxReg ++ writeU16 src))
  | .pvecPush dst stateIdx src => 0x2e#8 :: (writeU16 dst ++ (writeU16 stateIdx ++ writeU16 src))
  | .pvecLen dst stateIdx => 0x2f#8 :: (writeU16 dst ++ writeU16 stateIdx)
  | .pmapEntries dst stateIdx => 0x33#8 :: (writeU16 dst ++ writeU16 stateIdx)
  | .pmapKeys dst stateIdx => 0x34#8 :: (writeU16 dst ++ writeU16 stateIdx)
  | .pmapValues dst stateIdx => 0x35#8 :: (writeU16 dst ++ writeU16 stateIdx)
  | .pvecToArray dst stateIdx => 0x36#8 :: (writeU16 dst ++ writeU16 stateIdx)
  | .pmapAppendUnique stateIdx keyReg elemReg =>
    0x37#8 :: (writeU16 stateIdx ++ (writeU16 keyReg ++ writeU16 elemReg))
  | .pmapPutUnique stateIdx keyReg src =>
    0x38#8 :: (writeU16 stateIdx ++ (writeU16 keyReg ++ writeU16 src))
  | .pmapWalkInit dst stateIdx => 0x39#8 :: (writeU16 dst ++ writeU16 stateIdx)
  | .pmapWalkNext cursorReg valueReg endOffset =>
    0x3a#8 :: (writeU16 cursorReg ++ (writeU16 valueReg ++ writeI32 endOffset))
  | .pbtreeGet dst stateIdx keyReg => 0x3b#8 :: (writeU16 dst ++ (writeU16 stateIdx ++ writeU16 keyReg))
  | .pbtreePut stateIdx keyReg src => 0x3c#8 :: (writeU16 stateIdx ++ (writeU16 keyReg ++ writeU16 src))
  | .pbtreeContains dst stateIdx keyReg =>
    0x3d#8 :: (writeU16 dst ++ (writeU16 stateIdx ++ writeU16 keyReg))
  | .pbtreeRange dst stateIdx loReg hiReg =>
    0x3e#8 :: (writeU16 dst ++ (writeU16 stateIdx ++ (writeU16 loReg ++ writeU16 hiReg)))
  | .pbtreeWalkInit dst stateIdx => 0x3f#8 :: (writeU16 dst ++ writeU16 stateIdx)
  | .pbtreeWalkNext cursorReg valueReg endOffset =>
    0x40#8 :: (writeU16 cursorReg ++ (writeU16 valueReg ++ writeI32 endOffset))
  | .pbtreePutUnique stateIdx keyReg src =>
    0x41#8 :: (writeU16 stateIdx ++ (writeU16 keyReg ++ writeU16 src))
  | .pbtreeAppendUnique stateIdx keyReg elemReg =>
    0x42#8 :: (writeU16 stateIdx ++ (writeU16 keyReg ++ writeU16 elemReg))
  | .pmapDelete stateIdx keyReg => 0x43#8 :: (writeU16 stateIdx ++ writeU16 keyReg)
  | .pbtreeDelete stateIdx keyReg => 0x44#8 :: (writeU16 stateIdx ++ writeU16 keyReg)
  | .pmapRemoveUnique stateIdx keyReg expectedReg =>
    0x45#8 :: (writeU16 stateIdx ++ (writeU16 keyReg ++ writeU16 expectedReg))
  | .pmapRemoveFromList stateIdx keyReg elemReg =>
    0x46#8 :: (writeU16 stateIdx ++ (writeU16 keyReg ++ writeU16 elemReg))
  | .pbtreeRemoveUnique stateIdx keyReg expectedReg =>
    0x47#8 :: (writeU16 stateIdx ++ (writeU16 keyReg ++ writeU16 expectedReg))
  | .pbtreeRemoveFromList stateIdx keyReg elemReg =>
    0x48#8 :: (writeU16 stateIdx ++ (writeU16 keyReg ++ writeU16 elemReg))
  | .incReg reg => 0x30#8 :: writeU16 reg

def writeBcFn (f : BcFn) : Bytes :=
  writeStr f.name ++ (writeU16 f.nParams ++ (writeU16 f.nRegs ++
    (writeBool f.isEntry ++ (writeBool f.isNore ++ (writeBool f.isView ++ (writeBool f.isPure ++
      (writeVec writeType f.paramTypes ++ (writeType f.returnType ++ (writeVec writeConst f.consts ++
        (writeVec writeInstr f.code ++ writeVec (writeVec writeReadOp) f.readGroups))))))))))

/-- A field of a shape: its name, its type and its group. -/
def writeShapeField (f : String × Ty × Option String) : Bytes :=
  writeStr f.1 ++ (writeType f.2.1 ++ writeOption writeStr f.2.2)

def writeShape (s : StructShape) : Bytes :=
  writeStr s.name ++ (writeU32 s.fieldNames.length ++
    ((s.fieldNames.zip (s.fieldTypes.zip s.fieldGroups)).flatMap writeShapeField ++ writeBool s.isPub))

def writePathSpec (p : PathSpec) : Bytes :=
  writeU128 p.leafKey ++ (writeType p.leafType ++ writeBool p.isBlob)

def writeEnumShape (e : EnumShape) : Bytes := writeStr e.name ++ writeVec writeStr e.variantNames

def writeParam (p : Param) : Bytes := writeStr p.name ++ writeType p.ty

def writeMethod (m : InterfaceMethod) : Bytes :=
  writeStr m.name ++ (writeBool m.isView ++ (writeBool m.isPure ++
    (writeVec writeParam m.params ++ writeType m.returnType)))

def writeInterface (d : InterfaceDecl) : Bytes := writeStr d.name ++ writeVec writeMethod d.methods

/-- The handlers of an event. The keys are written in their order. -/
def writeHandler (h : String × List ℕ) : Bytes := writeStr h.1 ++ writeVec writeU16 h.2

def writeModule (m : BcModule) : Bytes :=
  writeStr m.name ++ (writeVec writeStr m.imports ++ (writeVec writeU128 m.stateRoots ++
    (writeVec writeType m.stateTypes ++ (writeVec (fun v => writeBytes (serialize v)) m.stateDefaults ++
      (writeVec writeStr m.stateNames ++ (writeVec writeShape m.structShapes ++
        (writeVec writeBcFn m.functions ++ (writeVec writePathSpec m.pathSpecs ++
          (writeVec writeEnumShape m.enumShapes ++ (writeVec writeInterface m.interfaces ++
            writeVec writeHandler m.handlerDispatch))))))))))

/-- The magic number `REND-BC0`. -/
def magic : Bytes := [0x52#8, 0x45#8, 0x4e#8, 0x44#8, 0x2d#8, 0x42#8, 0x43#8, 0x30#8]

def versionMajor : Byte := 0#8
def versionMinor : Byte := 17#8

def encode (ms : List BcModule) : Bytes :=
  magic ++ ([versionMajor] ++ ([versionMinor] ++ writeVec writeModule ms))

/-! ### Reading -/

/-- Why an input is not an artifact. -/
inductive DecodeError
  | truncated (needed offset had : ℕ)
  | magicMismatch
  | unsupportedMajor (major minor : Byte)
  | trailingBytes (n : ℕ)
  | unreadableDefault
  | invalidUtf8
  | unknownConst (tag : Byte)
  | unknownReadOp (tag : Byte)
  | unknownType (tag : Byte)
  | unknownBinop (b : Byte)
  | unknownUnop (b : Byte)
  | unknownInstr (tag : Byte)
  deriving DecidableEq

/-- A reader of a part of an artifact. -/
abbrev Dec (α : Type) := Read DecodeError α

def takeN (n : ℕ) : Dec Bytes := takeBytes .truncated n

def readByte : Dec Byte := do return (← takeN 1).headD 0#8

/-- A number of `n` bytes. -/
def readNat (n : ℕ) : Dec ℕ := do return ofBeBytes (← takeN n)

def readU8 : Dec ℕ := readNat 1
def readU16 : Dec ℕ := readNat 2
def readU32 : Dec ℕ := readNat 4

/-- A word of `w` bits, written in `n` bytes. -/
def readWord (w n : ℕ) : Dec (BitVec w) := do return BitVec.ofNat w (← readNat n)

def readU128 : Dec U128 := readWord 128 16

def readI32 : Dec ℤ := do return (← readWord 32 4).toInt

def readBool : Dec Bool := do return decide ((← readByte) ≠ 0#8)

def readBytes : Dec Bytes := do takeN (← readU32)

def readStr : Dec String := do
  match strOfBytes (← readBytes) with
  | some s => return s
  | none => throw .invalidUtf8

def readVec {α : Type} (p : Dec α) : Dec (List α) := do readMany p (← readU32)

def readOption {α : Type} (p : Dec α) : Dec (Option α) := do
  if (← readByte) ≠ 0#8 then return some (← p) else return none

/-- All ungrouped is no list of groups, as the checker has it. -/
def normalizeGroups (groups : List (Option String)) : List (Option String) :=
  if groups.all Option.isNone then [] else groups

/-- A type, nested at most `fuel` deep. -/
def readTypeFuel : ℕ → Dec Ty
  | 0 => do throw (.unknownType (← readByte))
  | fuel + 1 => do
    let tag ← readByte
    match tag.toNat with
    | 0x01 => return .int
    | 0x1d => return .uint
    | 0x1e => return .float
    | 0x02 => return .i32
    | 0x03 => return .u32
    | 0x04 => return .u64
    | 0x05 => return .u128
    | 0x06 => return .bool
    | 0x07 => return .unit
    | 0x08 => return .resource
    | 0x09 => return .string
    | 0x0a => return .address
    | 0x0b => return .bytes
    | 0x10 => return .array (← readTypeFuel fuel)
    | 0x11 => return .set (← readTypeFuel fuel)
    | 0x12 => return .dict (← readTypeFuel fuel) (← readTypeFuel fuel)
    | 0x13 => return .map (← readTypeFuel fuel) (← readTypeFuel fuel)
    | 0x17 => return .pmap (← readTypeFuel fuel) (← readTypeFuel fuel)
    | 0x1b => return .pbtree (← readTypeFuel fuel) (← readTypeFuel fuel)
    | 0x1c => return .json
    | 0x18 => return .pvec (← readTypeFuel fuel)
    | 0x14 => do
      let name ← readStr
      let fields ← readVec do
        return ((← readStr), (← readTypeFuel fuel), (← readOption readStr))
      return .struct name (fields.map fun f => (f.1, f.2.1)) (normalizeGroups (fields.map fun f => f.2.2))
    | 0x15 => return .tuple (← readVec (readTypeFuel fuel))
    | 0x16 => return .enum (← readStr) (← readVec do return ((← readStr), (← readVec (readTypeFuel fuel))))
    | 0x19 => do
      let name ← readStr
      let owner ← readStr
      let fields ← readVec do return ((← readStr), (← readTypeFuel fuel))
      return .cap name fields owner
    | 0x1a => do
      let name ← readStr
      let methods ← readVec do
        let n ← readStr
        let isView ← readBool
        let isPure ← readBool
        let params ← readVec (readTypeFuel fuel)
        let ret ← readTypeFuel fuel
        return .mk n params ret isView isPure
      return .interface name methods
    | _ => throw (.unknownType tag)

def readType : Dec Ty := fun r => readTypeFuel r.rest.length r

def readConst : Dec Const := do
  let tag ← readByte
  match tag.toNat with
  | 0x01 => return .int (ofSignedBytesBe (← readBytes))
  | 0x08 => return .uint (ofSignedBytesBe (← readBytes))
  | 0x09 => return .float (← readWord 64 8)
  | 0x02 => return .i32 (← readWord 32 4)
  | 0x03 => return .u32 (← readWord 32 4)
  | 0x04 => return .u64 (← readWord 64 8)
  | 0x05 => return .u128 (← readU128)
  | 0x06 => return .bool (← readBool)
  | 0x07 => return .str (← readStr)
  | _ => throw (.unknownConst tag)

def readReadOp : Dec ReadOp := do
  let tag ← readByte
  match tag.toNat with
  | 0x01 => return .state (← readU16) (← readU16)
  | 0x02 => return .path (← readU16) (← readU16)
  | _ => throw (.unknownReadOp tag)

def binopFromByte (b : Byte) : Dec BinOp :=
  match b.toNat with
  | 0x01 => return .add | 0x02 => return .sub | 0x03 => return .mul | 0x04 => return .div
  | 0x05 => return .mod
  | 0x06 => return .eq | 0x07 => return .notEq | 0x08 => return .lt | 0x09 => return .gt
  | 0x0a => return .ltEq | 0x0b => return .gtEq
  | 0x0c => return .and | 0x0d => return .or
  | 0x0e => return .bitAnd | 0x0f => return .bitOr | 0x10 => return .bitXor
  | 0x11 => return .shl | 0x12 => return .shr
  | _ => throw (.unknownBinop b)

def unopFromByte (b : Byte) : Dec UnOp :=
  match b.toNat with
  | 0x01 => return .neg
  | 0x02 => return .not
  | _ => throw (.unknownUnop b)

def readRange : Dec ParallelRange := do
  let start ← readU32
  let stop ← readU32
  let dst ← readOption readU16
  return ⟨start, stop, dst⟩

/-- The instruction with this number. -/
def readInstrOf (tag : Byte) : Dec Instr :=
  match tag.toNat with
  | 0x01 => return .loadConst (← readU16) (← readU16)
  | 0x02 => return .move (← readU16) (← readU16)
  | 0x03 => return .bin (← binopFromByte (← readByte)) (← readU16) (← readU16) (← readU16)
  | 0x04 => return .un (← unopFromByte (← readByte)) (← readU16) (← readU16)
  | 0x05 => return .jump (← readI32)
  | 0x06 => return .jumpIfFalse (← readU16) (← readI32)
  | 0x07 => return .call (← readU16) (← readU16) (← readU16) (← readU8)
  | 0x08 => return .callHost (← readU16) (← readU16) (← readU16) (← readU8)
  | 0x09 =>
    return .callExternal (← readU16) (← readU16) (← readU16) (← readU16) (← readU8) (← readBool) (← readBool)
  | 0x0a => return .ret (← readU16)
  | 0x0b => return .returnUnit
  | 0x0c => return .builtinResource (← readU16) (← readU16)
  | 0x0d => return .builtinUnwrap (← readU16) (← readU16)
  | 0x0e => return .builtinAddress (← readU16) (← readU16)
  | 0x0f => return .builtinLen (← readU16) (← readU16)
  | 0x10 => return .convert (← readU16) (← readU16) (← readU8)
  | 0x11 => return .makeArray (← readU16) (← readU16) (← readU16)
  | 0x12 => return .arrayGet (← readU16) (← readU16) (← readU16)
  | 0x13 => return .arrayAppend (← readU16) (← readU16) (← readU16)
  | 0x14 => return .makeSet (← readU16) (← readU16) (← readU16)
  | 0x15 => return .makeDict (← readU16) (← readU16) (← readU16)
  | 0x16 => return .builtinCall (← readU16) (← readU16) (← readU16) (← readU8)
  | 0x17 => return .makeStruct (← readU16) (← readU16) (← readU16) (← readU16)
  | 0x18 => return .fieldGet (← readU16) (← readU16) (← readU16)
  | 0x19 => return .fieldSet (← readU16) (← readU16) (← readU16)
  | 0x1a => return .kvGet (← readU16) (← readU16)
  | 0x1b => return .kvPut (← readU16) (← readU16)
  | 0x1c => return .kvGetPath (← readU16) (← readU16)
  | 0x1d => return .kvPutPath (← readU16) (← readU16)
  | 0x1e => return .readBatch (← readU16)
  | 0x1f => return .prefetchMap (← readU16) (← readU16)
  | 0x20 => return .emit (← readU16)
  | 0x21 => return .context (← readU16) (← readU8)
  | 0x22 => return .makeTuple (← readU16) (← readU16) (← readU16)
  | 0x23 => return .tupleGet (← readU16) (← readU16) (← readU16)
  | 0x24 => return .makeEnum (← readU16) (← readU16) (← readU16) (← readU16) (← readU16)
  | 0x25 => return .enumTag (← readU16) (← readU16)
  | 0x26 => return .enumPayload (← readU16) (← readU16) (← readU16)
  | 0x27 => return .mapGet (← readU16) (← readU16) (← readU16)
  | 0x28 => return .mapPut (← readU16) (← readU16) (← readU16)
  | 0x29 => return .pmapGet (← readU16) (← readU16) (← readU16)
  | 0x2a => return .pmapPut (← readU16) (← readU16) (← readU16)
  | 0x2b => return .pmapContains (← readU16) (← readU16) (← readU16)
  | 0x2c => return .pvecGet (← readU16) (← readU16) (← readU16)
  | 0x2d => return .pvecSet (← readU16) (← readU16) (← readU16)
  | 0x2e => return .pvecPush (← readU16) (← readU16) (← readU16)
  | 0x2f => return .pvecLen (← readU16) (← readU16)
  | 0x30 => return .incReg (← readU16)
  | 0x31 =>
    return .callExternalDyn (← readU16) (← readU16) (← readU16) (← readU16) (← readU8) (← readBool) (← readBool)
  | 0x32 => return .makeInterface (← readU16) (← readU16) (← readU16)
  | 0x33 => return .pmapEntries (← readU16) (← readU16)
  | 0x34 => return .pmapKeys (← readU16) (← readU16)
  | 0x35 => return .pmapValues (← readU16) (← readU16)
  | 0x36 => return .pvecToArray (← readU16) (← readU16)
  | 0x37 => return .pmapAppendUnique (← readU16) (← readU16) (← readU16)
  | 0x38 => return .pmapPutUnique (← readU16) (← readU16) (← readU16)
  | 0x39 => return .pmapWalkInit (← readU16) (← readU16)
  | 0x3a => return .pmapWalkNext (← readU16) (← readU16) (← readI32)
  | 0x3b => return .pbtreeGet (← readU16) (← readU16) (← readU16)
  | 0x3c => return .pbtreePut (← readU16) (← readU16) (← readU16)
  | 0x3d => return .pbtreeContains (← readU16) (← readU16) (← readU16)
  | 0x3e => return .pbtreeRange (← readU16) (← readU16) (← readU16) (← readU16)
  | 0x3f => return .pbtreeWalkInit (← readU16) (← readU16)
  | 0x40 => return .pbtreeWalkNext (← readU16) (← readU16) (← readI32)
  | 0x41 => return .pbtreePutUnique (← readU16) (← readU16) (← readU16)
  | 0x42 => return .pbtreeAppendUnique (← readU16) (← readU16) (← readU16)
  | 0x43 => return .pmapDelete (← readU16) (← readU16)
  | 0x44 => return .pbtreeDelete (← readU16) (← readU16)
  | 0x45 => return .pmapRemoveUnique (← readU16) (← readU16) (← readU16)
  | 0x46 => return .pmapRemoveFromList (← readU16) (← readU16) (← readU16)
  | 0x47 => return .pbtreeRemoveUnique (← readU16) (← readU16) (← readU16)
  | 0x48 => return .pbtreeRemoveFromList (← readU16) (← readU16) (← readU16)
  | 0x49 => do
    let n ← readU32
    let ranges ← readMany readRange n
    return .parallelBegin ranges (← readU32)
  | 0x4a => return .parallelYield (← readOption readU16)
  | 0x4b =>
    return .parallelForBegin (← readU32) (← readU32) (← readU16) (← readU16) (← readU16) (← readU16)
      (← readU32)
  | 0x4c => return .arrayAlloc (← readU16) (← readU16) (← readU16)
  | 0x4d => return .reserve (← readU16) (← readU16) (← readU16)
  | 0x4e => return .parallelForSkip
  | _ => throw (.unknownInstr tag)

def readInstr : Dec Instr := do readInstrOf (← readByte)

def readBcFn : Dec BcFn := do
  let name ← readStr
  let nParams ← readU16
  let nRegs ← readU16
  let isEntry ← readBool
  let isNore ← readBool
  let isView ← readBool
  let isPure ← readBool
  let paramTypes ← readVec readType
  let returnType ← readType
  let consts ← readVec readConst
  let code ← readVec readInstr
  let readGroups ← readVec (readVec readReadOp)
  return { name, nParams, nRegs, code, consts, isEntry, isNore, readGroups, paramTypes, returnType,
           isView, isPure }

def readShapeField : Dec (String × Ty × Option String) := do
  return ((← readStr), (← readType), (← readOption readStr))

def readShape : Dec StructShape := do
  let name ← readStr
  let fields ← readVec readShapeField
  let isPub ← readBool
  return ⟨name, fields.map fun f => f.1, fields.map fun f => f.2.1, fields.map fun f => f.2.2, isPub⟩

def readPathSpec : Dec PathSpec := do return ⟨(← readU128), (← readType), (← readBool)⟩

def readEnumShape : Dec EnumShape := do return ⟨(← readStr), (← readVec readStr)⟩

def readParam : Dec Param := do return ⟨(← readStr), (← readType), .default⟩

def readMethod : Dec InterfaceMethod := do
  let name ← readStr
  let isView ← readBool
  let isPure ← readBool
  let params ← readVec readParam
  let returnType ← readType
  return ⟨name, params, returnType, isView, isPure, .default⟩

def readInterface : Dec InterfaceDecl := do return ⟨(← readStr), (← readVec readMethod), .default⟩

def readHandler : Dec (String × List ℕ) := do return ((← readStr), (← readVec readU16))

/-- A state default, at the type of its state. -/
def readDefault (ty : Ty) : Dec Value := do
  match deserialize ty (← readBytes) with
  | some v => return v
  | none => throw .unreadableDefault

/-- The state defaults; one without a state is read at the unit type. -/
def readDefaults : ℕ → List Ty → Dec (List Value)
  | 0, _ => return []
  | n + 1, tys => do
    let v ← readDefault (tys.headD .unit)
    let vs ← readDefaults n tys.tail
    return v :: vs

def readModule : Dec BcModule := do
  let name ← readStr
  let imports ← readVec readStr
  let stateRoots ← readVec readU128
  let stateTypes ← readVec readType
  let stateDefaults ← readDefaults (← readU32) stateTypes
  let stateNames ← readVec readStr
  let structShapes ← readVec readShape
  let functions ← readVec readBcFn
  let pathSpecs ← readVec readPathSpec
  let enumShapes ← readVec readEnumShape
  let interfaces ← readVec readInterface
  let handlers ← readVec readHandler
  return { name, imports, importIndex := nameIndex imports, stateRoots, stateTypes, stateDefaults,
           stateNames, stateIndex := nameIndex stateNames, structShapes,
           structIndex := nameIndex (structShapes.map fun s => s.name), functions,
           fnIndex := nameIndex (functions.map fun f => f.name), pathSpecs,
           handlerDispatch := SortedMap.ofEntries handlers, enumShapes,
           enumIndex := nameIndex (enumShapes.map fun e => e.name), interfaces,
           interfaceIndex := nameIndex (interfaces.map fun d => d.name) }

/-- The modules of an artifact, up to the bytes behind them. -/
def readArtifact : Dec (List BcModule) := do
  let m ← takeN 8
  if m ≠ magic then throw .magicMismatch
  let major ← readByte
  let minor ← readByte
  if major ≠ versionMajor then throw (.unsupportedMajor major minor)
  readVec readModule

def decode (bytes : Bytes) : Except DecodeError (List BcModule) :=
  match readArtifact ⟨bytes, 0⟩ with
  | .error e => .error e
  | .ok (ms, r) => if r.rest = [] then .ok ms else .error (.trailingBytes r.rest.length)

end Rend.Artifact
