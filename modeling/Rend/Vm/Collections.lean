import Rend.Structs.Write
import Rend.Vm.Data
import Rend.Vm.NodeValues

/-!
# The instructions on state

What the instructions do that read and write the state of a module: cells, maps whose cells are composed from
their keys, and the persistent collections. The instructions on a `pmap` and those on a `pbtree` are the same
but for the calls that they make (`MapKind`).

`dataKernel` puts the instructions together.
-/

namespace Rend.Vm

open Lib Tx

namespace Data

section State

variable (X : Outside) (m : BcModule) (f : BcFn)

/-- The cell and the type of a state. -/
def stateAt (stateIdx : ℕ) : Option (U128 × Ty) := do
  let root ← m.stateRoots[stateIdx]?
  let ty ← m.stateTypes[stateIdx]?
  return (root, ty)

/-! ### Cells -/

def kvGet (dst : Reg) (keyIdx : ℕ) : DataM Unit := do
  let (key, ty) ← orPanic (stateAt m keyIdx)
  let v ← ask fun tx => tx.readState key ty
  put dst v

def kvPut (src : Reg) (keyIdx : ℕ) : DataM Unit := do
  let (key, ty) ← orPanic (stateAt m keyIdx)
  let v ← peek src
  onTx fun tx => tx.writeTyped key ty v

/-- The blob of a group is read as it is stored, in one piece. -/
def kvGetPath (dst : Reg) (pathIdx : ℕ) : DataM Unit := do
  let spec ← orPanic m.pathSpecs[pathIdx]?
  let v ← ask fun tx =>
    if spec.isBlob then tx.readCell spec.leafKey spec.leafType else tx.readState spec.leafKey spec.leafType
  put dst v

def kvPutPath (src : Reg) (pathIdx : ℕ) : DataM Unit := do
  let spec ← orPanic m.pathSpecs[pathIdx]?
  let v ← peek src
  onTx fun tx => if spec.isBlob then tx.write spec.leafKey v else tx.writeTyped spec.leafKey spec.leafType v

/-- The cell and the type that a read of a batch asks for. -/
def batchTarget : ReadOp → Option (U128 × Ty)
  | .state _ keyIdx => stateAt m keyIdx
  | .path _ pathIdx => m.pathSpecs[pathIdx]?.map fun spec => (spec.leafKey, spec.leafType)

def readBatch (groupIdx : ℕ) : DataM Unit := do
  let group ← orPanic f.readGroups[groupIdx]?
  let ops ← orPanic (group.mapM (batchTarget m))
  let values ← ask fun tx => tx.readTypedMany ops
  (group.zip values).foldlM (fun _ p => put p.1.dst p.2) ()

/-- The counter is read past the queue of lazy reads. -/
def reserve (dst : Reg) (stateIdx : ℕ) (countReg : Reg) : DataM Unit := do
  let countV ← forceReg countReg
  match valueToU64Arr countV with
  | none => fail (unexpected X "`reserve N from ...` count must be a non-negative integer, got " countV)
  | some n =>
    let root ← orPanic m.stateRoots[stateIdx]?
    let prevV ← ask fun tx => tx.readTypedMany [(root, .u64)]
    match prevV.headD .unit with
    | .u64 prev =>
      onTx fun tx => tx.writeTyped root .u64 (.u64 (prev + n))
      put dst (.array ((idsAfter prev n).map .u64))
    | other => fail (unexpected X "`reserve ... from <state>`: state must be u64, got " other)

end State

/-! ### Maps of cells -/

mutual

def isKeyableValue : Value → Bool
  | .int _ => true
  | .i32 _ => true
  | .u32 _ => true
  | .u64 _ => true
  | .u128 _ => true
  | .bool _ => true
  | .str _ => true
  | .address _ => true
  | .bytes _ => true
  | .array elems => isKeyableList elems
  | .struct _ fields => isKeyableFields fields
  | .enum _ _ payload => isKeyableList payload
  | _ => false
  termination_by structural x => x

def isKeyableList : List Value → Bool
  | [] => true
  | v :: vs => isKeyableValue v && isKeyableList vs
  termination_by structural x => x

def isKeyableFields : List (String × Value) → Bool
  | [] => true
  | (_, v) :: fs => isKeyableValue v && isKeyableFields fs
  termination_by structural x => x

end

section Maps

variable (X : Outside) (m : BcModule)

def composeMapCell (root : U128) (key : Value) : DataM U128 :=
  if isKeyableValue key then pure (child root (serialize key))
  else fail (unexpected X "map key value not keyable: " key)

/-- The values at the keys of an array are read at once. What is no array, or no map, is let be. -/
def prefetchMap (arrReg : Reg) (stateIdx : ℕ) : DataM Unit := do
  match ← forceReg arrReg with
  | .array elems =>
    match ← orPanic (stateAt m stateIdx) with
    | (root, .map _ value) => onTx fun tx =>
        (tx.readTypedMany ((elems.filter isKeyableValue).map fun key => (child root (serialize key), value))).1
    | _ => return ()
  | _ => return ()

/-- The type of what a map holds at a key. -/
def mapValueTy : Ty → Ty
  | .map _ value => value
  | other => other

def mapGet (dst : Reg) (stateIdx : ℕ) (keyReg : Reg) : DataM Unit := do
  let (root, ty) ← orPanic (stateAt m stateIdx)
  let key ← forceReg keyReg
  let cell ← composeMapCell X root key
  let v ← ask fun tx => tx.readCell cell (mapValueTy ty)
  put dst v

def mapPut (stateIdx : ℕ) (keyReg src : Reg) : DataM Unit := do
  let (root, _) ← orPanic (stateAt m stateIdx)
  let key ← forceReg keyReg
  let cell ← composeMapCell X root key
  let v ← peek src
  onTx fun tx => tx.write cell v

end Maps

/-! ### Persistent maps -/

/-- A kind of persistent map, by the calls that its instructions make. They read and write nodes, and what they
find has been read out of a node. -/
structure MapKind where
  types : Ty → Option (Ty × Ty)
  asRoot : Value → U128
  ofRoot : U128 → Value
  nodeKey : Bytes → U128
  get : U128 → Value → Tx → Ty → Ty → Tx × Option Value
  set : U128 → Value → Value → Tx → Ty → Ty → Tx × Except String U128
  remove : U128 → Value → Tx → Ty → Ty → Tx × Except String U128
  handles_ofRoot : ∀ root, handles (ofRoot root) = []
  get_reads : ∀ root key tx kt vt, Reads tx (get root key tx kt vt).1 ∧ FoundSettled (get root key tx kt vt).2
  set_steps : ∀ root key value tx kt vt, KeySteps nodeKey tx (set root key value tx kt vt).1
  remove_steps : ∀ root key tx kt vt, KeySteps nodeKey tx (remove root key tx kt vt).1

def pmapKind : MapKind where
  types
    | .pmap kt vt => some (kt, vt)
    | _ => none
  asRoot := Rocks.asRoot
  ofRoot := .pmap
  nodeKey := Pmap.nodeCellKey
  get := Pmap.get
  set root key value tx kt vt :=
    let r := Pmap.set root key value tx kt vt
    (r.1, .ok r.2)
  remove root key tx kt vt :=
    let r := Pmap.remove root key tx kt vt
    (r.1, .ok r.2.1)
  handles_ofRoot _ := rfl
  get_reads := Pmap.get_reads
  set_steps root key value tx kt vt := (Pmap.set_steps root key value tx kt vt).keySteps
  remove_steps root key tx kt vt := (Pmap.remove_steps root key tx kt vt).keySteps

def pbtreeKind (bound : ℕ) : MapKind where
  types
    | .pbtree kt vt => some (kt, vt)
    | _ => none
  asRoot := asPbtreeRoot
  ofRoot := .pbtree
  nodeKey := Pbtree.nodeCellKey
  get := Pbtree.get bound
  set := Pbtree.set bound
  remove := Pbtree.remove bound
  handles_ofRoot _ := rfl
  get_reads := Pbtree.get_reads bound
  set_steps := Pbtree.set_steps bound
  remove_steps := Pbtree.remove_steps bound

/-- A state that holds a persistent map. -/
structure MapState where
  cell : U128
  ty : Ty
  keyTy : Ty
  valueTy : Ty

namespace MapKind

variable (M : MapKind) (X : Outside) (m : BcModule)

def stateOf (stateIdx : ℕ) : Option MapState := do
  let (cell, ty) ← stateAt m stateIdx
  let (keyTy, valueTy) ← M.types ty
  return ⟨cell, ty, keyTy, valueTy⟩

def loadRoot (s : MapState) : DataM U128 := do
  let v ← ask fun tx => tx.readCell s.cell s.ty
  let v ← ask fun tx => tx.force v
  return M.asRoot v

def lookup (s : MapState) (root : U128) (key : Value) : DataM (Option Value) :=
  ask fun tx => M.get root key tx s.keyTy s.valueTy

def store (s : MapState) (newRoot : Except String U128) : DataM Unit := do
  let newRoot ← orRuntime newRoot
  onTx fun tx => tx.write s.cell (M.ofRoot newRoot)

def insert (s : MapState) (root : U128) (key value : Value) : DataM Unit := do
  let newRoot ← ask fun tx => M.set root key value tx s.keyTy s.valueTy
  M.store s newRoot

def erase (s : MapState) (root : U128) (key : Value) : DataM Unit := do
  let newRoot ← ask fun tx => M.remove root key tx s.keyTy s.valueTy
  M.store s newRoot

/-- `PBTreePut`, and `PMapPut` behind the record of the types. -/
def putAt (stateIdx : ℕ) (keyReg src : Reg) : DataM Unit := do
  let key ← forceReg keyReg
  let value ← forceReg src
  let s ← orPanic (M.stateOf m stateIdx)
  let root ← M.loadRoot s
  M.insert s root key value

def contains (dst : Reg) (stateIdx : ℕ) (keyReg : Reg) : DataM Unit := do
  let key ← forceReg keyReg
  let s ← orPanic (M.stateOf m stateIdx)
  let root ← M.loadRoot s
  let found ← M.lookup s root key
  put dst (.bool found.isSome)

def delete (stateIdx : ℕ) (keyReg : Reg) : DataM Unit := do
  let key ← forceReg keyReg
  let s ← orPanic (M.stateOf m stateIdx)
  let root ← M.loadRoot s
  M.erase s root key

/-- A key that already maps to the value is left alone. -/
def putUnique (stateIdx : ℕ) (keyReg src : Reg) : DataM Unit := do
  let key ← forceReg keyReg
  let newValue ← forceReg src
  let s ← orPanic (M.stateOf m stateIdx)
  let root ← M.loadRoot s
  match ← M.lookup s root key with
  | some prior =>
    if Ops.same prior newValue then return ()
    else fail (.runtime ("unique constraint violation: key " ++ X.runtime.display key ++ " already maps to " ++
      X.runtime.display prior ++ ", refused to remap to " ++ X.runtime.display newValue))
  | none => M.insert s root key newValue

/-- The list at a key; what is no list counts as the empty one. -/
def listOf : Option Value → List Value
  | some (.array elems) => elems
  | _ => []

def appendUnique (stateIdx : ℕ) (keyReg elemReg : Reg) : DataM Unit := do
  let key ← forceReg keyReg
  let elem ← forceReg elemReg
  let s ← orPanic (M.stateOf m stateIdx)
  let root ← M.loadRoot s
  let elems := listOf (← M.lookup s root key)
  if elems.any fun e => Ops.same e elem then return ()
  else M.insert s root key (.array (elems ++ [elem]))

/-- A key that maps to another value by now is left alone. -/
def removeUnique (stateIdx : ℕ) (keyReg expectedReg : Reg) : DataM Unit := do
  let key ← forceReg keyReg
  let expected ← forceReg expectedReg
  let s ← orPanic (M.stateOf m stateIdx)
  let root ← M.loadRoot s
  match ← M.lookup s root key with
  | some v => if Ops.same v expected then M.erase s root key else return ()
  | none => return ()

/-- The last element of a list takes its key with it. -/
def removeFromList (stateIdx : ℕ) (keyReg elemReg : Reg) : DataM Unit := do
  let key ← forceReg keyReg
  let elem ← forceReg elemReg
  let s ← orPanic (M.stateOf m stateIdx)
  let root ← M.loadRoot s
  match ← M.lookup s root key with
  | some (.array elems) =>
    let kept := elems.filter fun e => !Ops.same e elem
    if kept.length = elems.length then return ()
    else if kept.isEmpty then M.erase s root key
    else M.insert s root key (.array kept)
  | _ => return ()

end MapKind

section Collections

variable (X : Outside) (m : BcModule) (bound : ℕ)

/-- The types of a `pmap` state are recorded with its cell. -/
def recordTypes (stateIdx : ℕ) : DataM Unit := do
  let s ← orPanic (pmapKind.stateOf m stateIdx)
  onTx fun tx => tx.recordPmapTypes s.cell s.keyTy s.valueTy

def pmapPut (stateIdx : ℕ) (keyReg src : Reg) : DataM Unit := do
  recordTypes m stateIdx
  pmapKind.putAt m stateIdx keyReg src

/-- The lookup goes on when its handle is forced. -/
def pmapGet (dst : Reg) (stateIdx : ℕ) (keyReg : Reg) : DataM Unit := do
  recordTypes m stateIdx
  let key ← forceReg keyReg
  let s ← orPanic (pmapKind.stateOf m stateIdx)
  let root ← pmapKind.loadRoot s
  let v ← ask fun tx => tx.beginPmapGet root key s.keyTy s.valueTy
  put dst v

/-- `pmap_walk_entries`. -/
def pmapWalkEntries (stateIdx : ℕ) : DataM (List (Value × Value)) := do
  let s ← orPanic (pmapKind.stateOf m stateIdx)
  let root ← pmapKind.loadRoot s
  ask fun tx => Pmap.entries root tx s.keyTy s.valueTy

def pmapEntries (dst : Reg) (stateIdx : ℕ) : DataM Unit := do
  let entries ← pmapWalkEntries m stateIdx
  put dst (.array (entries.map fun e => .tuple [e.1, e.2]))

def pmapKeys (dst : Reg) (stateIdx : ℕ) : DataM Unit := do
  let entries ← pmapWalkEntries m stateIdx
  put dst (.array (entries.map Prod.fst))

def pmapValues (dst : Reg) (stateIdx : ℕ) : DataM Unit := do
  let entries ← pmapWalkEntries m stateIdx
  put dst (.array (entries.map Prod.snd))

def pbtreeGet (dst : Reg) (stateIdx : ℕ) (keyReg : Reg) : DataM Unit := do
  let key ← forceReg keyReg
  let s ← orPanic ((pbtreeKind bound).stateOf m stateIdx)
  let root ← (pbtreeKind bound).loadRoot s
  let found ← (pbtreeKind bound).lookup s root key
  put dst (found.getD (Value.defaultFor s.valueTy))

def pbtreeRange (dst : Reg) (stateIdx : ℕ) (loReg hiReg : Reg) : DataM Unit := do
  let lo ← forceReg loReg
  let hi ← forceReg hiReg
  let s ← orPanic ((pbtreeKind bound).stateOf m stateIdx)
  let root ← (pbtreeKind bound).loadRoot s
  let values ← ask fun tx => Pbtree.range bound root lo hi tx s.keyTy s.valueTy
  put dst (.array values)

/-! ### Cursors -/

def pmapCursorValue (cursor : PMapCursor) : Value :=
  .pmapCursor cursor.stack cursor.pending cursor.keyTy cursor.valueTy

def pbtreeCursorValue (cursor : PBTreeCursor) : Value :=
  .pbtreeCursor cursor.rootCell cursor.lastYielded cursor.keyTy cursor.valueTy

def pmapWalkInit (dst : Reg) (stateIdx : ℕ) : DataM Unit := do
  let s ← orPanic (pmapKind.stateOf m stateIdx)
  let root ← pmapKind.loadRoot s
  let stack := if root = Pmap.emptyRoot then [] else [(root, 0)]
  put dst (pmapCursorValue ⟨stack, [], s.keyTy, s.valueTy⟩)

def pbtreeWalkInit (dst : Reg) (stateIdx : ℕ) : DataM Unit := do
  let s ← orPanic ((pbtreeKind bound).stateOf m stateIdx)
  put dst (pbtreeCursorValue (Vm.pbtreeWalkInit s.cell s.keyTy s.valueTy))

def advancePmap (cursor : PMapCursor) : DataM (PMapCursor × Option (Value × Value)) := fun s =>
  match pmapWalkAdvance bound cursor s.1 with
  | none => .error .panic
  | some (tx, cursor, next) => .ok ((cursor, next), tx, s.2)

/-- The cursor goes back into its register; the next value is yielded, or the loop is left. -/
def yieldNext (cursorReg valueReg : Reg) (endOffset : ℤ) (pc : ℕ) (cursor : Value) (next : Option (Value × Value)) :
    DataM ℕ := do
  put cursorReg cursor
  match next with
  | some (_, v) =>
    put valueReg v
    return pc
  | none => return jumpTo pc endOffset

def pmapWalkNext (cursorReg valueReg : Reg) (endOffset : ℤ) (pc : ℕ) : DataM ℕ := do
  match ← peek cursorReg with
  | .pmapCursor stack pending keyTy valueTy =>
    let (cursor, next) ← advancePmap bound ⟨stack, pending, keyTy, valueTy⟩
    yieldNext cursorReg valueReg endOffset pc (pmapCursorValue cursor) next
  | _ => fail (.runtime "PMapWalkNext: cursor register doesn't hold a cursor")

def pbtreeWalkNext (cursorReg valueReg : Reg) (endOffset : ℤ) (pc : ℕ) : DataM ℕ := do
  match ← peek cursorReg with
  | .pbtreeCursor rootCell lastYielded keyTy valueTy =>
    let (cursor, next) ← ask fun tx =>
      let r := pbtreeWalkAdvance bound ⟨rootCell, lastYielded, keyTy, valueTy⟩ tx
      (r.1, r.2)
    yieldNext cursorReg valueReg endOffset pc (pbtreeCursorValue cursor) next
  | _ => fail (.runtime "PBTreeWalkNext: cursor register doesn't hold a pbtree cursor")

/-! ### Persistent vectors -/

/-- The cell, the type and the element type of a state that holds a vector. -/
def vecState (stateIdx : ℕ) : Option (U128 × Ty × Ty) := do
  let (cell, ty) ← stateAt m stateIdx
  match ty with
  | .pvec elem => some (cell, ty, elem)
  | _ => none

def loadVec (cell : U128) (ty : Ty) : DataM (U64 × U128) := do
  let v ← ask fun tx => tx.readCell cell ty
  let v ← ask fun tx => tx.force v
  match v with
  | .pvec len root => return (len, root)
  | _ => return (0, Pvec.emptyRoot)

/-- An `int` as an index. -/
def intIndex (n : ℤ) : DataM ℕ :=
  if 0 ≤ n ∧ n < 2 ^ 64 then pure n.toNat else fail (.runtime ("pvec index out of u64 range: " ++ toString n))

/-- The index of an element that is read. -/
def readIndex : Value → DataM ℕ
  | .int n => intIndex n
  | .u64 n => pure n.toNat
  | other => fail (unexpected X "pvec index must be int or u64, got " other)

/-- The index of an element that is assigned to, which has to be an `int`. -/
def writeIndex : Value → DataM ℕ
  | .int n => intIndex n
  | other => fail (unexpected X "pvec index: expected non-negative i64, got " other)

def pvecGet (dst : Reg) (stateIdx : ℕ) (idxReg : Reg) : DataM Unit := do
  let idxV ← forceReg idxReg
  let (cell, ty, elem) ← orPanic (vecState m stateIdx)
  onTx fun tx => tx.recordPvecType cell elem
  let (len, root) ← loadVec cell ty
  let i ← readIndex X idxV
  let v ← ask fun tx => Pvec.get root len.toNat i tx elem
  let v ← orRuntime v
  put dst v

def pvecSet (stateIdx : ℕ) (idxReg src : Reg) : DataM Unit := do
  let idxV ← forceReg idxReg
  let value ← forceReg src
  let (cell, ty, elem) ← orPanic (vecState m stateIdx)
  onTx fun tx => tx.recordPvecType cell elem
  let (len, root) ← loadVec cell ty
  let i ← writeIndex X idxV
  let newRoot ← ask fun tx => Pvec.set root len.toNat i value tx elem
  let newRoot ← orRuntime newRoot
  onTx fun tx => tx.write cell (.pvec len newRoot)

def pvecPush (dst : Reg) (stateIdx : ℕ) (src : Reg) : DataM Unit := do
  let value ← forceReg src
  let (cell, ty, elem) ← orPanic (vecState m stateIdx)
  onTx fun tx => tx.recordPvecType cell elem
  let (len, root) ← loadVec cell ty
  let r ← ask fun tx => Pvec.push root len.toNat value tx elem
  let (newRoot, newLen) ← orRuntime r
  onTx fun tx => tx.write cell (.pvec (BitVec.ofNat 64 newLen) newRoot)
  put dst (.u64 len)

def pvecLen (dst : Reg) (stateIdx : ℕ) : DataM Unit := do
  let (cell, ty) ← orPanic (stateAt m stateIdx)
  let (len, _) ← loadVec cell ty
  put dst (.u64 len)

def pvecToArray (dst : Reg) (stateIdx : ℕ) : DataM Unit := do
  let (cell, ty, elem) ← orPanic (vecState m stateIdx)
  onTx fun tx => tx.recordPvecType cell elem
  let (len, root) ← loadVec cell ty
  let elements ← ask fun tx => Pvec.toVec root len.toNat tx elem
  let elements ← orRuntime elements
  put dst (.array elements)

end Collections

/-! ### The kernel -/

section Kernel

variable (X : Outside) (modules : List BcModule) (bound : ℕ) (m : BcModule) (f : BcFn)

/-- An instruction that goes on with the next one. -/
def straight : Instr → DataM Unit
  | .loadConst dst idx => loadConst f dst idx
  | .move dst src => move dst src
  | .bin op dst lhs rhs => bin X op dst lhs rhs
  | .un op dst src => un X op dst src
  | .callHost dst importIdx argsStart nArgs => callHost X m dst importIdx argsStart nArgs
  | .makeInterface dst ifaceNameIdx targetReg => makeInterface f modules dst ifaceNameIdx targetReg
  | .builtinResource dst src => builtinResource X dst src
  | .builtinUnwrap dst src => builtinUnwrap X dst src
  | .builtinAddress dst src => builtinAddress X dst src
  | .builtinLen dst src => builtinLen X dst src
  | .convert dst src target => convert X dst src target
  | .makeArray dst argsStart n => makeArray dst argsStart n
  | .arrayGet dst arr idx => arrayGet dst arr idx
  | .arrayAppend dst arr elem => arrayAppend X dst arr elem
  | .makeSet dst argsStart n => makeSet dst argsStart n
  | .makeDict dst argsStart nPairs => makeDict dst argsStart nPairs
  | .builtinCall dst nameIdx argsStart nArgs => builtinCall X f dst nameIdx argsStart nArgs
  | .makeStruct dst shapeIdx argsStart n => makeStruct m dst shapeIdx argsStart n
  | .fieldGet dst src nameIdx => fieldGet X f dst src nameIdx
  | .fieldSet dst nameIdx val => fieldSet X f dst nameIdx val
  | .kvGet dst keyIdx => kvGet m dst keyIdx
  | .kvPut src keyIdx => kvPut m src keyIdx
  | .kvGetPath dst pathIdx => kvGetPath m dst pathIdx
  | .kvPutPath src pathIdx => kvPutPath m src pathIdx
  | .readBatch groupIdx => readBatch m f groupIdx
  | .prefetchMap arrReg stateIdx => prefetchMap m arrReg stateIdx
  | .arrayAlloc dst lenReg defaultReg => arrayAlloc X dst lenReg defaultReg
  | .reserve dst stateIdx countReg => reserve X m dst stateIdx countReg
  | .context dst kind => context X dst kind
  | .makeTuple dst argsStart n => makeTuple dst argsStart n
  | .tupleGet dst src index => tupleGet X dst src index
  | .makeEnum dst shapeIdx variantIdx argsStart n => makeEnum m dst shapeIdx variantIdx argsStart n
  | .enumTag dst src => enumTag X m dst src
  | .enumPayload dst src index => enumPayload X dst src index
  | .mapGet dst stateIdx keyReg => mapGet X m dst stateIdx keyReg
  | .mapPut stateIdx keyReg src => mapPut X m stateIdx keyReg src
  | .pmapGet dst stateIdx keyReg => pmapGet m dst stateIdx keyReg
  | .pmapPut stateIdx keyReg src => pmapPut m stateIdx keyReg src
  | .pmapContains dst stateIdx keyReg => pmapKind.contains m dst stateIdx keyReg
  | .pmapDelete stateIdx keyReg => pmapKind.delete m stateIdx keyReg
  | .pmapPutUnique stateIdx keyReg src => pmapKind.putUnique X m stateIdx keyReg src
  | .pmapAppendUnique stateIdx keyReg elemReg => pmapKind.appendUnique m stateIdx keyReg elemReg
  | .pmapRemoveUnique stateIdx keyReg expectedReg => pmapKind.removeUnique m stateIdx keyReg expectedReg
  | .pmapRemoveFromList stateIdx keyReg elemReg => pmapKind.removeFromList m stateIdx keyReg elemReg
  | .pmapEntries dst stateIdx => pmapEntries m dst stateIdx
  | .pmapKeys dst stateIdx => pmapKeys m dst stateIdx
  | .pmapValues dst stateIdx => pmapValues m dst stateIdx
  | .pmapWalkInit dst stateIdx => pmapWalkInit m dst stateIdx
  | .pbtreeGet dst stateIdx keyReg => pbtreeGet m bound dst stateIdx keyReg
  | .pbtreePut stateIdx keyReg src => (pbtreeKind bound).putAt m stateIdx keyReg src
  | .pbtreeContains dst stateIdx keyReg => (pbtreeKind bound).contains m dst stateIdx keyReg
  | .pbtreeDelete stateIdx keyReg => (pbtreeKind bound).delete m stateIdx keyReg
  | .pbtreePutUnique stateIdx keyReg src => (pbtreeKind bound).putUnique X m stateIdx keyReg src
  | .pbtreeAppendUnique stateIdx keyReg elemReg => (pbtreeKind bound).appendUnique m stateIdx keyReg elemReg
  | .pbtreeRemoveUnique stateIdx keyReg expectedReg => (pbtreeKind bound).removeUnique m stateIdx keyReg expectedReg
  | .pbtreeRemoveFromList stateIdx keyReg elemReg => (pbtreeKind bound).removeFromList m stateIdx keyReg elemReg
  | .pbtreeRange dst stateIdx loReg hiReg => pbtreeRange m bound dst stateIdx loReg hiReg
  | .pbtreeWalkInit dst stateIdx => pbtreeWalkInit m bound dst stateIdx
  | .pvecGet dst stateIdx idxReg => pvecGet X m dst stateIdx idxReg
  | .pvecSet stateIdx idxReg src => pvecSet X m stateIdx idxReg src
  | .pvecPush dst stateIdx src => pvecPush m dst stateIdx src
  | .pvecLen dst stateIdx => pvecLen m dst stateIdx
  | .pvecToArray dst stateIdx => pvecToArray m dst stateIdx
  | .incReg r => incReg X r
  -- the instructions that call, fork, jump or return, and those that end a loop
  | _ => fail .panic

/-- An instruction, with the place where the function goes on. -/
def dataInstr (instr : Instr) (pc : ℕ) : DataM ℕ :=
  match instr with
  | .pmapWalkNext cursorReg valueReg endOffset => pmapWalkNext bound cursorReg valueReg endOffset pc
  | .pbtreeWalkNext cursorReg valueReg endOffset => pbtreeWalkNext bound cursorReg valueReg endOffset pc
  | instr => do
    straight X modules bound m f instr
    return pc

end Kernel

end Data

/-- **What the instructions do** that neither call nor fork nor return. -/
def dataKernel (X : Outside) (modules : List BcModule) (bound : ℕ) : Kernel := fun m f instr pc regs tx =>
  (Data.dataInstr X modules bound m f instr pc (tx, regs)).map fun r => (r.1, r.2.2, r.2.1)

end Rend.Vm
