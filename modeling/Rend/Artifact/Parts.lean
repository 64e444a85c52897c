import Rend.Artifact.Format

/-!
# What an artifact keeps

Every part of a module is read back as it was written, if its numbers fit the width they are written in
(`Fits`): this is shown part by part, in the order of the format. A type comes back without its
explicit-literal tags and with its field groups in normal form (`canonTy`), and an instruction as it was.
-/

namespace Rend.Artifact

open Lib

/-! ### Widths -/

abbrev FitsU8 (n : ℕ) : Prop := n < 2 ^ 8
abbrev FitsU16 (n : ℕ) : Prop := n < 2 ^ 16
abbrev FitsU32 (n : ℕ) : Prop := n < 2 ^ 32
abbrev FitsI32 (n : ℤ) : Prop := -2 ^ 31 ≤ n ∧ n < 2 ^ 31

/-- The bytes of the string can be counted in 32 bits. -/
def FitsStr (s : String) : Prop := FitsU32 (strBytes s).length

/-- A list that can be counted, of elements that fit. -/
def FitsVec {α : Type} (P : α → Prop) (l : List α) : Prop := FitsU32 l.length ∧ ∀ x ∈ l, P x

def FitsOption {α : Type} (P : α → Prop) (o : Option α) : Prop := ∀ x ∈ o, P x

/-! ### Primitives -/

theorem reads_nat {n x : ℕ} (h : x < 256 ^ n) : Reads (readNat n) (beBytes n x) x := by
  have hread := (Reads.takeBytes DecodeError.truncated (beBytes n x)).bind_pure (g := ofBeBytes)
  rw [length_beBytes, ofBeBytes_beBytes h] at hread
  exact hread

theorem reads_u8 {n : ℕ} (h : FitsU8 n) : Reads readU8 (writeU8 n) n := reads_nat h

theorem reads_u16 {n : ℕ} (h : FitsU16 n) : Reads readU16 (writeU16 n) n := reads_nat h

theorem reads_u32 {n : ℕ} (h : FitsU32 n) : Reads readU32 (writeU32 n) n := reads_nat h

theorem reads_word {w n : ℕ} (hw : 2 ^ w = 256 ^ n) (x : BitVec w) :
    Reads (readWord w n) (wordBytes n x) x := by
  have hread := (reads_nat (hw ▸ x.isLt)).bind_pure (g := BitVec.ofNat w)
  rw [BitVec.ofNat_toNat, BitVec.setWidth_eq] at hread
  exact hread

theorem reads_u128 (x : U128) : Reads readU128 (writeU128 x) x := reads_word (by norm_num) x

theorem reads_i32 {n : ℤ} (h : FitsI32 n) : Reads readI32 (writeI32 n) n := by
  have hread := (reads_word (w := 32) (n := 4) (by norm_num) (BitVec.ofInt 32 n)).bind_pure
    (g := BitVec.toInt)
  have hval : (BitVec.ofInt 32 n).toInt = n := by
    rw [BitVec.toInt_ofInt, Int.bmod_def]
    obtain ⟨h₁, h₂⟩ := h
    split <;> omega
  rw [hval] at hread
  exact hread

theorem reads_byte (b : Byte) : Reads readByte [b] b := by
  have hread := (Reads.takeBytes DecodeError.truncated [b]).bind_pure (g := fun bs => bs.headD 0#8)
  exact hread

theorem reads_bool (b : Bool) : Reads readBool (writeBool b) b := by
  have hread := (reads_byte (if b then 1#8 else 0#8)).bind_pure (g := fun x => decide (x ≠ 0#8))
  cases b <;> exact hread

theorem reads_bytes {b : Bytes} (h : FitsU32 b.length) : Reads readBytes (writeBytes b) b :=
  (reads_u32 h).bind (Reads.takeBytes DecodeError.truncated b)

theorem reads_str {s : String} (h : FitsStr s) : Reads readStr (writeStr s) s := by
  rw [← List.append_nil (writeStr s)]
  refine (reads_bytes h).bind ?_
  rw [strOfBytes_strBytes]
  exact Reads.pure s

theorem reads_vec {α β : Type} {p : Dec β} {w : α → Bytes} {g : α → β} {l : List α}
    (hl : FitsU32 l.length) (h : ∀ x ∈ l, Reads p (w x) (g x)) :
    Reads (readVec p) (writeVec w l) (l.map g) :=
  (reads_u32 hl).bind (Reads.many h)

theorem reads_option {α : Type} {p : Dec α} {w : α → Bytes} {o : Option α}
    (h : ∀ x ∈ o, Reads p (w x) x) : Reads (readOption p) (writeOption w o) o := by
  cases o with
  | none => exact (reads_byte 0#8).bind (Reads.pure none)
  | some x => exact (reads_byte 1#8).bind (h x rfl).bind_pure

/-- A reader that dispatches on a tag, on the tag and what follows it. -/
theorem Reads.tag {α : Type} {f : Byte → Dec α} {b : Byte} {w : Bytes} {x : α} (h : Reads (f b) w x) :
    Reads (readByte >>= f) (b :: w) x := (reads_byte b).bind h

/-! ### Types -/

/-- The groups of the fields, one for each of them. -/
def padGroups : List (String × Ty) → List (Option String) → List (Option String)
  | [], _ => []
  | _ :: fs, groups => groups.head?.join :: padGroups fs groups.tail

mutual

/-- A type as it is read back: without explicit-literal tags, with its groups in normal form. -/
def canonTy : Ty → Ty
  | .explicitLiteral inner => canonTy inner
  | .array elem => .array (canonTy elem)
  | .set elem => .set (canonTy elem)
  | .dict key value => .dict (canonTy key) (canonTy value)
  | .map key value => .map (canonTy key) (canonTy value)
  | .pmap key value => .pmap (canonTy key) (canonTy value)
  | .pbtree key value => .pbtree (canonTy key) (canonTy value)
  | .pvec elem => .pvec (canonTy elem)
  | .struct name fields groups =>
    .struct name (canonFields fields) (normalizeGroups (padGroups fields groups))
  | .tuple elems => .tuple (canonTypes elems)
  | .enum name variants => .enum name (canonVariants variants)
  | .cap name fields owner => .cap name (canonFields fields) owner
  | .interface name methods => .interface name (canonMethods methods)
  | .int => .int | .uint => .uint | .float => .float | .i32 => .i32 | .u32 => .u32 | .u64 => .u64
  | .u128 => .u128 | .bool => .bool | .unit => .unit | .resource => .resource | .string => .string
  | .address => .address | .bytes => .bytes | .json => .json
  termination_by structural x => x

def canonTypes : List Ty → List Ty
  | [] => []
  | t :: ts => canonTy t :: canonTypes ts
  termination_by structural x => x

def canonFields : List (String × Ty) → List (String × Ty)
  | [] => []
  | (n, t) :: fs => (n, canonTy t) :: canonFields fs
  termination_by structural x => x

def canonVariants : List (String × List Ty) → List (String × List Ty)
  | [] => []
  | (n, ts) :: vs => (n, canonTypes ts) :: canonVariants vs
  termination_by structural x => x

def canonMethods : List InterfaceMethodSig → List InterfaceMethodSig
  | [] => []
  | .mk n params ret isView isPure :: ms =>
    .mk n (canonTypes params) (canonTy ret) isView isPure :: canonMethods ms
  termination_by structural x => x

end

mutual

/-- The names and lists of the type can be counted in 32 bits. -/
def FitsTy : Ty → Prop
  | .explicitLiteral inner => FitsTy inner
  | .array elem => FitsTy elem
  | .set elem => FitsTy elem
  | .dict key value => FitsTy key ∧ FitsTy value
  | .map key value => FitsTy key ∧ FitsTy value
  | .pmap key value => FitsTy key ∧ FitsTy value
  | .pbtree key value => FitsTy key ∧ FitsTy value
  | .pvec elem => FitsTy elem
  | .struct name fields groups =>
    FitsStr name ∧ FitsU32 fields.length ∧ FitsFields fields ∧ ∀ g ∈ groups, FitsOption FitsStr g
  | .tuple elems => FitsU32 elems.length ∧ FitsTypes elems
  | .enum name variants => FitsStr name ∧ FitsU32 variants.length ∧ FitsVariants variants
  | .cap name fields owner => FitsStr name ∧ FitsStr owner ∧ FitsU32 fields.length ∧ FitsFields fields
  | .interface name methods => FitsStr name ∧ FitsU32 methods.length ∧ FitsMethods methods
  | .int | .uint | .float | .i32 | .u32 | .u64 | .u128 | .bool | .unit | .resource | .string
  | .address | .bytes | .json => True
  termination_by structural x => x

def FitsTypes : List Ty → Prop
  | [] => True
  | t :: ts => FitsTy t ∧ FitsTypes ts
  termination_by structural x => x

def FitsFields : List (String × Ty) → Prop
  | [] => True
  | (n, t) :: fs => FitsStr n ∧ FitsTy t ∧ FitsFields fs
  termination_by structural x => x

def FitsVariants : List (String × List Ty) → Prop
  | [] => True
  | (n, ts) :: vs => FitsStr n ∧ FitsU32 ts.length ∧ FitsTypes ts ∧ FitsVariants vs
  termination_by structural x => x

def FitsMethods : List InterfaceMethodSig → Prop
  | [] => True
  | .mk n params ret _ _ :: ms =>
    FitsStr n ∧ FitsU32 params.length ∧ FitsTypes params ∧ FitsTy ret ∧ FitsMethods ms
  termination_by structural x => x

end

theorem fitsOption_head {groups : List (Option String)} (h : ∀ g ∈ groups, FitsOption FitsStr g) :
    FitsOption FitsStr groups.head?.join := by
  cases groups with
  | nil =>
    intro s hs
    cases hs
  | cons g groups => exact h g List.mem_cons_self

theorem readOption_str {o : Option String} (h : FitsOption FitsStr o) :
    Reads (readOption readStr) (writeOption writeStr o) o := reads_option fun s hs => reads_str (h s hs)

/-- A constructor over two types. -/
theorem reads_pair {p : Dec Ty} {f : Ty → Ty → Ty} {w w' : Bytes} {t t' : Ty} (h : Reads p w t)
    (h' : Reads p w' t') : Reads (do return f (← p) (← p)) (w ++ w') (f t t') := h.bind h'.bind_pure

/-- The fields of a struct as they are read back, each with its group. -/
def groupedFields : List (String × Ty) → List (Option String) → List (String × Ty × Option String)
  | [], _ => []
  | (n, t) :: fs, groups => (n, canonTy t, groups.head?.join) :: groupedFields fs groups.tail

theorem map_groupedFields (fs : List (String × Ty)) (groups : List (Option String)) :
    (groupedFields fs groups).map (fun f => (f.1, f.2.1)) = canonFields fs := by
  induction fs generalizing groups with
  | nil => rfl
  | cons f fs ih => simp only [groupedFields, canonFields, List.map_cons, ih]

theorem map_groupedGroups (fs : List (String × Ty)) (groups : List (Option String)) :
    (groupedFields fs groups).map (fun f => f.2.2) = padGroups fs groups := by
  induction fs generalizing groups with
  | nil => rfl
  | cons f fs ih => simp only [groupedFields, padGroups, List.map_cons, ih]

theorem writeType_pos : ∀ t : Ty, 0 < (writeType t).length
  | .explicitLiteral inner => writeType_pos inner
  | .int | .uint | .float | .i32 | .u32 | .u64 | .u128 | .bool | .unit | .resource | .string
  | .address | .bytes | .json | .array _ | .set _ | .dict .. | .map .. | .pmap .. | .pbtree ..
  | .pvec _ | .struct .. | .tuple _ | .enum .. | .cap .. | .interface .. => Nat.succ_pos _

mutual

/-- A type is read back in normal form, if the bound on the nesting is at least its length. -/
theorem reads_typeFuel : ∀ (t : Ty) (fuel : ℕ), FitsTy t → (writeType t).length ≤ fuel →
    Reads (readTypeFuel fuel) (writeType t) (canonTy t)
  | t, 0, _, hfuel => absurd hfuel (Nat.not_le_of_lt (writeType_pos t))
  | .int, _ + 1, _, _ | .uint, _ + 1, _, _ | .float, _ + 1, _, _ | .i32, _ + 1, _, _
  | .u32, _ + 1, _, _ | .u64, _ + 1, _, _ | .u128, _ + 1, _, _ | .bool, _ + 1, _, _
  | .unit, _ + 1, _, _ | .resource, _ + 1, _, _ | .string, _ + 1, _, _ | .address, _ + 1, _, _
  | .bytes, _ + 1, _, _ | .json, _ + 1, _, _ => Reads.tag (Reads.pure _)
  | .explicitLiteral inner, fuel + 1, h, hfuel => reads_typeFuel inner (fuel + 1) h hfuel
  | .array elem, fuel + 1, h, hfuel | .set elem, fuel + 1, h, hfuel | .pvec elem, fuel + 1, h, hfuel =>
    Reads.tag (reads_typeFuel elem fuel h (Nat.le_of_succ_le_succ hfuel)).bind_pure
  | .dict k v, fuel + 1, h, hfuel | .map k v, fuel + 1, h, hfuel | .pmap k v, fuel + 1, h, hfuel
  | .pbtree k v, fuel + 1, h, hfuel => by
    simp only [writeType, List.length_cons, List.length_append] at hfuel
    exact Reads.tag (reads_pair (reads_typeFuel k fuel h.1 (by omega)) (reads_typeFuel v fuel h.2 (by omega)))
  | .struct name fields groups, fuel + 1, h, hfuel => by
    simp only [writeType, List.length_cons, List.length_append] at hfuel
    obtain ⟨hname, hn, hfields, hgroups⟩ := h
    have hread := reads_groupedFuel fields groups fuel hfields hgroups (by omega)
    rw [canonTy, ← map_groupedFields fields groups, ← map_groupedGroups fields groups]
    exact Reads.tag ((reads_str hname).bind ((reads_u32 hn).bind hread).bind_pure)
  | .tuple elems, fuel + 1, h, hfuel => by
    simp only [writeType, List.length_cons, List.length_append] at hfuel
    exact Reads.tag ((reads_u32 h.1).bind (reads_typesFuel elems fuel h.2 (by omega))).bind_pure
  | .enum name variants, fuel + 1, h, hfuel => by
    simp only [writeType, List.length_cons, List.length_append] at hfuel
    obtain ⟨hname, hn, hvariants⟩ := h
    exact Reads.tag ((reads_str hname).bind
      ((reads_u32 hn).bind (reads_variantsFuel variants fuel hvariants (by omega))).bind_pure)
  | .cap name fields owner, fuel + 1, h, hfuel => by
    simp only [writeType, List.length_cons, List.length_append] at hfuel
    obtain ⟨hname, howner, hn, hfields⟩ := h
    exact Reads.tag ((reads_str hname).bind ((reads_str howner).bind
      ((reads_u32 hn).bind (reads_fieldsFuel fields fuel hfields (by omega))).bind_pure))
  | .interface name methods, fuel + 1, h, hfuel => by
    simp only [writeType, List.length_cons, List.length_append] at hfuel
    obtain ⟨hname, hn, hmethods⟩ := h
    exact Reads.tag ((reads_str hname).bind
      ((reads_u32 hn).bind (reads_methodsFuel methods fuel hmethods (by omega))).bind_pure)
  termination_by structural x => x

theorem reads_typesFuel : ∀ (ts : List Ty) (fuel : ℕ), FitsTypes ts → (writeTypes ts).length ≤ fuel →
    Reads (readMany (readTypeFuel fuel) ts.length) (writeTypes ts) (canonTypes ts)
  | [], _, _, _ => Reads.pure []
  | t :: ts, fuel, h, hfuel => by
    simp only [writeTypes, List.length_append] at hfuel
    exact (reads_typeFuel t fuel h.1 (by omega)).bind (reads_typesFuel ts fuel h.2 (by omega)).bind_pure
  termination_by structural x => x

theorem reads_groupedFuel : ∀ (fs : List (String × Ty)) (groups : List (Option String)) (fuel : ℕ),
    FitsFields fs → (∀ g ∈ groups, FitsOption FitsStr g) → (writeGrouped fs groups).length ≤ fuel →
    Reads (readMany (do return ((← readStr), (← readTypeFuel fuel), (← readOption readStr))) fs.length)
      (writeGrouped fs groups) (groupedFields fs groups)
  | [], _, _, _, _, _ => Reads.pure []
  | (n, t) :: fs, groups, fuel, h, hg, hfuel => by
    simp only [writeGrouped, List.length_append] at hfuel
    obtain ⟨hname, ht, hfs⟩ := h
    have hfield := (reads_str hname).bind
      (f := fun a => do return (a, (← readTypeFuel fuel), (← readOption readStr)))
      ((reads_typeFuel t fuel ht (by omega)).bind (readOption_str (fitsOption_head hg)).bind_pure)
    have hrest := reads_groupedFuel fs groups.tail fuel hfs (fun g hg' => hg g (List.mem_of_mem_tail hg'))
      (by omega)
    exact hfield.bind hrest.bind_pure
  termination_by structural x => x

theorem reads_fieldsFuel : ∀ (fs : List (String × Ty)) (fuel : ℕ), FitsFields fs →
    (writeFields fs).length ≤ fuel →
    Reads (readMany (do return ((← readStr), (← readTypeFuel fuel))) fs.length) (writeFields fs)
      (canonFields fs)
  | [], _, _, _ => Reads.pure []
  | (n, t) :: fs, fuel, h, hfuel => by
    simp only [writeFields, List.length_append] at hfuel
    obtain ⟨hname, ht, hfs⟩ := h
    have hfield := (reads_str hname).bind (f := fun a => do return (a, (← readTypeFuel fuel)))
      (reads_typeFuel t fuel ht (by omega)).bind_pure
    exact hfield.bind (reads_fieldsFuel fs fuel hfs (by omega)).bind_pure
  termination_by structural x => x

theorem reads_variantsFuel : ∀ (vs : List (String × List Ty)) (fuel : ℕ), FitsVariants vs →
    (writeVariants vs).length ≤ fuel →
    Reads (readMany (do return ((← readStr), (← readVec (readTypeFuel fuel)))) vs.length)
      (writeVariants vs) (canonVariants vs)
  | [], _, _, _ => Reads.pure []
  | (n, ts) :: vs, fuel, h, hfuel => by
    simp only [writeVariants, List.length_append] at hfuel
    obtain ⟨hname, hn, hts, hvs⟩ := h
    have hvariant := (reads_str hname).bind (f := fun a => do return (a, (← readVec (readTypeFuel fuel))))
      ((reads_u32 hn).bind (reads_typesFuel ts fuel hts (by omega))).bind_pure
    exact hvariant.bind (reads_variantsFuel vs fuel hvs (by omega)).bind_pure
  termination_by structural x => x

theorem reads_methodsFuel : ∀ (ms : List InterfaceMethodSig) (fuel : ℕ), FitsMethods ms →
    (writeMethods ms).length ≤ fuel →
    Reads (readMany (do
      let n ← readStr
      let isView ← readBool
      let isPure ← readBool
      let params ← readVec (readTypeFuel fuel)
      let ret ← readTypeFuel fuel
      return InterfaceMethodSig.mk n params ret isView isPure) ms.length) (writeMethods ms) (canonMethods ms)
  | [], _, _, _ => Reads.pure []
  | .mk n params ret isView isPure :: ms, fuel, h, hfuel => by
    simp only [writeMethods, List.length_append] at hfuel
    obtain ⟨hname, hn, hparams, hret, hms⟩ := h
    have hparams := (reads_u32 hn).bind (reads_typesFuel params fuel hparams (by omega))
    have hret := reads_typeFuel ret fuel hret (by omega)
    have hrest := reads_methodsFuel ms fuel hms (by omega)
    have hmethod := (reads_str hname).bind (f := fun n => do
      let isView ← readBool
      let isPure ← readBool
      let params ← readVec (readTypeFuel fuel)
      let ret ← readTypeFuel fuel
      return InterfaceMethodSig.mk n params ret isView isPure)
      ((reads_bool isView).bind ((reads_bool isPure).bind (hparams.bind hret.bind_pure)))
    rw [List.append_assoc] at hmethod
    exact hmethod.bind hrest.bind_pure
  termination_by structural x => x

end

theorem reads_type {t : Ty} (h : FitsTy t) : Reads readType (writeType t) (canonTy t) := by
  intro rest pos
  exact reads_typeFuel t _ h (by simp) rest pos

/-! ### Constants and batches -/

/-- The digits of the constant can be counted in 32 bits. -/
def FitsConst : Const → Prop
  | .int n => FitsU32 (signedLen n)
  | .uint n => FitsU32 (signedLen n)
  | .str s => FitsStr s
  | .float _ | .i32 _ | .u32 _ | .u64 _ | .u128 _ | .bool _ => True

theorem reads_signed {α : Type} {f : ℤ → α} {n : ℤ} (h : FitsU32 (signedLen n)) :
    Reads (do return f (ofSignedBytesBe (← readBytes))) (writeBytes (toSignedBytesBe n)) (f n) := by
  rw [← length_toSignedBytesBe] at h
  have hread := (reads_bytes h).bind_pure (g := fun b => f (ofSignedBytesBe b))
  rwa [ofSignedBytesBe_toSignedBytesBe] at hread

theorem reads_const {c : Const} (h : FitsConst c) : Reads readConst (writeConst c) c := by
  cases c with
  | int n | uint n => exact Reads.tag (reads_signed h)
  | float n => exact Reads.tag (reads_word (by norm_num) n).bind_pure
  | i32 n | u32 n => exact Reads.tag (reads_word (by norm_num) n).bind_pure
  | u64 n => exact Reads.tag (reads_word (by norm_num) n).bind_pure
  | u128 n => exact Reads.tag (reads_u128 n).bind_pure
  | bool b => exact Reads.tag (reads_bool b).bind_pure
  | str s => exact Reads.tag (reads_str h).bind_pure

def FitsReadOp : ReadOp → Prop
  | .state dst keyIdx => FitsU16 dst ∧ FitsU16 keyIdx
  | .path dst pathIdx => FitsU16 dst ∧ FitsU16 pathIdx

theorem reads_readOp {op : ReadOp} (h : FitsReadOp op) : Reads readReadOp (writeReadOp op) op := by
  cases op with
  | state | path => exact Reads.tag ((reads_u16 h.1).bind (reads_u16 h.2).bind_pure)

/-! ### Instructions -/

/-- The operands of the instruction fit the width they have in the code. -/
def FitsInstr : Instr → Prop
  | .loadConst dst idx => FitsU16 dst ∧ FitsU16 idx
  | .move dst src => FitsU16 dst ∧ FitsU16 src
  | .bin _ dst lhs rhs => FitsU16 dst ∧ FitsU16 lhs ∧ FitsU16 rhs
  | .un _ dst src => FitsU16 dst ∧ FitsU16 src
  | .jump offset => FitsI32 offset
  | .jumpIfFalse cond offset => FitsU16 cond ∧ FitsI32 offset
  | .call dst fnIdx argsStart nArgs => FitsU16 dst ∧ FitsU16 fnIdx ∧ FitsU16 argsStart ∧ FitsU8 nArgs
  | .callHost dst importIdx argsStart nArgs =>
    FitsU16 dst ∧ FitsU16 importIdx ∧ FitsU16 argsStart ∧ FitsU8 nArgs
  | .callExternal dst moduleNameIdx fnNameIdx argsStart nArgs _ _ =>
    FitsU16 dst ∧ FitsU16 moduleNameIdx ∧ FitsU16 fnNameIdx ∧ FitsU16 argsStart ∧ FitsU8 nArgs
  | .makeInterface dst ifaceNameIdx targetReg => FitsU16 dst ∧ FitsU16 ifaceNameIdx ∧ FitsU16 targetReg
  | .callExternalDyn dst targetReg fnNameIdx argsStart nArgs _ _ =>
    FitsU16 dst ∧ FitsU16 targetReg ∧ FitsU16 fnNameIdx ∧ FitsU16 argsStart ∧ FitsU8 nArgs
  | .ret src => FitsU16 src
  | .returnUnit => True
  | .builtinResource dst src => FitsU16 dst ∧ FitsU16 src
  | .builtinUnwrap dst src => FitsU16 dst ∧ FitsU16 src
  | .builtinAddress dst src => FitsU16 dst ∧ FitsU16 src
  | .builtinLen dst src => FitsU16 dst ∧ FitsU16 src
  | .convert dst src target => FitsU16 dst ∧ FitsU16 src ∧ FitsU8 target
  | .makeArray dst argsStart n => FitsU16 dst ∧ FitsU16 argsStart ∧ FitsU16 n
  | .arrayGet dst arr idx => FitsU16 dst ∧ FitsU16 arr ∧ FitsU16 idx
  | .arrayAppend dst arr elem => FitsU16 dst ∧ FitsU16 arr ∧ FitsU16 elem
  | .makeSet dst argsStart n => FitsU16 dst ∧ FitsU16 argsStart ∧ FitsU16 n
  | .makeDict dst argsStart nPairs => FitsU16 dst ∧ FitsU16 argsStart ∧ FitsU16 nPairs
  | .builtinCall dst nameIdx argsStart nArgs =>
    FitsU16 dst ∧ FitsU16 nameIdx ∧ FitsU16 argsStart ∧ FitsU8 nArgs
  | .makeStruct dst shapeIdx argsStart n =>
    FitsU16 dst ∧ FitsU16 shapeIdx ∧ FitsU16 argsStart ∧ FitsU16 n
  | .fieldGet dst src nameIdx => FitsU16 dst ∧ FitsU16 src ∧ FitsU16 nameIdx
  | .fieldSet dst nameIdx val => FitsU16 dst ∧ FitsU16 nameIdx ∧ FitsU16 val
  | .kvGet dst keyIdx => FitsU16 dst ∧ FitsU16 keyIdx
  | .kvPut src keyIdx => FitsU16 src ∧ FitsU16 keyIdx
  | .kvGetPath dst pathIdx => FitsU16 dst ∧ FitsU16 pathIdx
  | .kvPutPath src pathIdx => FitsU16 src ∧ FitsU16 pathIdx
  | .readBatch groupIdx => FitsU16 groupIdx
  | .prefetchMap arrReg stateIdx => FitsU16 arrReg ∧ FitsU16 stateIdx
  | .emit value => FitsU16 value
  | .parallelBegin ranges afterPc =>
    FitsU32 ranges.length ∧ (∀ r ∈ ranges, FitsU32 r.start ∧ FitsU32 r.end ∧ FitsOption FitsU16 r.dst) ∧ FitsU32 afterPc
  | .parallelYield value => FitsOption FitsU16 value
  | .parallelForBegin bodyStart bodyEnd sourceReg outputReg idReg idxReg afterPc =>
    FitsU32 bodyStart ∧ FitsU32 bodyEnd ∧ FitsU16 sourceReg ∧ FitsU16 outputReg ∧ FitsU16 idReg ∧
      FitsU16 idxReg ∧ FitsU32 afterPc
  | .arrayAlloc dst lenReg defaultReg => FitsU16 dst ∧ FitsU16 lenReg ∧ FitsU16 defaultReg
  | .reserve dst stateIdx countReg => FitsU16 dst ∧ FitsU16 stateIdx ∧ FitsU16 countReg
  | .parallelForSkip => True
  | .context dst kind => FitsU16 dst ∧ FitsU8 kind
  | .makeTuple dst argsStart n => FitsU16 dst ∧ FitsU16 argsStart ∧ FitsU16 n
  | .tupleGet dst src index => FitsU16 dst ∧ FitsU16 src ∧ FitsU16 index
  | .makeEnum dst shapeIdx variantIdx argsStart n =>
    FitsU16 dst ∧ FitsU16 shapeIdx ∧ FitsU16 variantIdx ∧ FitsU16 argsStart ∧ FitsU16 n
  | .enumTag dst src => FitsU16 dst ∧ FitsU16 src
  | .enumPayload dst src index => FitsU16 dst ∧ FitsU16 src ∧ FitsU16 index
  | .mapGet dst stateIdx keyReg => FitsU16 dst ∧ FitsU16 stateIdx ∧ FitsU16 keyReg
  | .mapPut stateIdx keyReg src => FitsU16 stateIdx ∧ FitsU16 keyReg ∧ FitsU16 src
  | .pmapGet dst stateIdx keyReg => FitsU16 dst ∧ FitsU16 stateIdx ∧ FitsU16 keyReg
  | .pmapPut stateIdx keyReg src => FitsU16 stateIdx ∧ FitsU16 keyReg ∧ FitsU16 src
  | .pmapContains dst stateIdx keyReg => FitsU16 dst ∧ FitsU16 stateIdx ∧ FitsU16 keyReg
  | .pvecGet dst stateIdx idxReg => FitsU16 dst ∧ FitsU16 stateIdx ∧ FitsU16 idxReg
  | .pvecSet stateIdx idxReg src => FitsU16 stateIdx ∧ FitsU16 idxReg ∧ FitsU16 src
  | .pvecPush dst stateIdx src => FitsU16 dst ∧ FitsU16 stateIdx ∧ FitsU16 src
  | .pvecLen dst stateIdx => FitsU16 dst ∧ FitsU16 stateIdx
  | .pmapEntries dst stateIdx => FitsU16 dst ∧ FitsU16 stateIdx
  | .pmapKeys dst stateIdx => FitsU16 dst ∧ FitsU16 stateIdx
  | .pmapValues dst stateIdx => FitsU16 dst ∧ FitsU16 stateIdx
  | .pvecToArray dst stateIdx => FitsU16 dst ∧ FitsU16 stateIdx
  | .pmapAppendUnique stateIdx keyReg elemReg => FitsU16 stateIdx ∧ FitsU16 keyReg ∧ FitsU16 elemReg
  | .pmapPutUnique stateIdx keyReg src => FitsU16 stateIdx ∧ FitsU16 keyReg ∧ FitsU16 src
  | .pmapWalkInit dst stateIdx => FitsU16 dst ∧ FitsU16 stateIdx
  | .pmapWalkNext cursorReg valueReg endOffset =>
    FitsU16 cursorReg ∧ FitsU16 valueReg ∧ FitsI32 endOffset
  | .pbtreeGet dst stateIdx keyReg => FitsU16 dst ∧ FitsU16 stateIdx ∧ FitsU16 keyReg
  | .pbtreePut stateIdx keyReg src => FitsU16 stateIdx ∧ FitsU16 keyReg ∧ FitsU16 src
  | .pbtreeContains dst stateIdx keyReg => FitsU16 dst ∧ FitsU16 stateIdx ∧ FitsU16 keyReg
  | .pbtreeRange dst stateIdx loReg hiReg =>
    FitsU16 dst ∧ FitsU16 stateIdx ∧ FitsU16 loReg ∧ FitsU16 hiReg
  | .pbtreeWalkInit dst stateIdx => FitsU16 dst ∧ FitsU16 stateIdx
  | .pbtreeWalkNext cursorReg valueReg endOffset =>
    FitsU16 cursorReg ∧ FitsU16 valueReg ∧ FitsI32 endOffset
  | .pbtreePutUnique stateIdx keyReg src => FitsU16 stateIdx ∧ FitsU16 keyReg ∧ FitsU16 src
  | .pbtreeAppendUnique stateIdx keyReg elemReg => FitsU16 stateIdx ∧ FitsU16 keyReg ∧ FitsU16 elemReg
  | .pmapDelete stateIdx keyReg => FitsU16 stateIdx ∧ FitsU16 keyReg
  | .pbtreeDelete stateIdx keyReg => FitsU16 stateIdx ∧ FitsU16 keyReg
  | .pmapRemoveUnique stateIdx keyReg expectedReg =>
    FitsU16 stateIdx ∧ FitsU16 keyReg ∧ FitsU16 expectedReg
  | .pmapRemoveFromList stateIdx keyReg elemReg => FitsU16 stateIdx ∧ FitsU16 keyReg ∧ FitsU16 elemReg
  | .pbtreeRemoveUnique stateIdx keyReg expectedReg =>
    FitsU16 stateIdx ∧ FitsU16 keyReg ∧ FitsU16 expectedReg
  | .pbtreeRemoveFromList stateIdx keyReg elemReg => FitsU16 stateIdx ∧ FitsU16 keyReg ∧ FitsU16 elemReg
  | .incReg reg => FitsU16 reg

theorem reads_binop (op : BinOp) : Reads (binopFromByte (binopToByte op)) [] op := by
  cases op <;> exact Reads.pure _

theorem reads_unop (op : UnOp) : Reads (unopFromByte (unopToByte op)) [] op := by
  cases op <;> exact Reads.pure _

theorem reads_range {r : ParallelRange} (h : FitsU32 r.start ∧ FitsU32 r.end ∧ FitsOption FitsU16 r.dst) :
    Reads readRange (writeRange r) r := by
  obtain ⟨hstart, hend, hdst⟩ := h
  exact (reads_u32 hstart).bind ((reads_u32 hend).bind (reads_option fun x hx => reads_u16 (hdst x hx)).bind_pure)

/-- Two registers in a row. -/
theorem reads_u16x2 {α : Type} {f : ℕ → ℕ → α} {a b : ℕ} (h : FitsU16 a ∧ FitsU16 b) :
    Reads (do return f (← readU16) (← readU16)) (writeU16 a ++ writeU16 b) (f a b) :=
  (reads_u16 h.1).bind (reads_u16 h.2).bind_pure

/-- Three registers in a row. -/
theorem reads_u16x3 {α : Type} {f : ℕ → ℕ → ℕ → α} {a b c : ℕ} (h : FitsU16 a ∧ FitsU16 b ∧ FitsU16 c) :
    Reads (do return f (← readU16) (← readU16) (← readU16)) (writeU16 a ++ (writeU16 b ++ writeU16 c))
      (f a b c) :=
  (reads_u16 h.1).bind (reads_u16x2 h.2)

/-- Every instruction is read back. The cases are grouped by the layout of the operands. -/
theorem reads_instr {i : Instr} (h : FitsInstr i) : Reads readInstr (writeInstr i) i := by
  cases i with
  | ret | readBatch | emit | incReg => exact Reads.tag (reads_u16 h).bind_pure
  | loadConst | move | builtinResource | builtinUnwrap | builtinAddress | builtinLen | kvGet
  | kvPut | kvGetPath | kvPutPath | prefetchMap | enumTag | pvecLen | pmapEntries | pmapKeys
  | pmapValues | pvecToArray | pmapWalkInit | pbtreeWalkInit | pmapDelete | pbtreeDelete =>
    exact Reads.tag (reads_u16x2 h)
  | makeInterface | makeArray | arrayGet | arrayAppend | makeSet | makeDict | fieldGet | fieldSet
  | arrayAlloc | reserve | makeTuple | tupleGet | enumPayload | mapGet | mapPut | pmapGet | pmapPut
  | pmapContains | pvecGet | pvecSet | pvecPush | pmapAppendUnique | pmapPutUnique | pbtreeGet
  | pbtreePut | pbtreeContains | pbtreePutUnique | pbtreeAppendUnique | pmapRemoveUnique
  | pmapRemoveFromList | pbtreeRemoveUnique | pbtreeRemoveFromList =>
    exact Reads.tag (reads_u16x3 h)
  | makeStruct | pbtreeRange =>
    exact Reads.tag ((reads_u16 h.1).bind (reads_u16x3 h.2))
  | makeEnum => exact Reads.tag ((reads_u16 h.1).bind ((reads_u16 h.2.1).bind (reads_u16x3 h.2.2)))
  | returnUnit | parallelForSkip => exact Reads.tag (Reads.pure _)
  | bin op =>
    obtain ⟨hdst, hlhs, hrhs⟩ := h
    exact Reads.tag ((reads_byte _).bind ((reads_binop op).bind (reads_u16x3 ⟨hdst, hlhs, hrhs⟩)))
  | un op => exact Reads.tag ((reads_byte _).bind ((reads_unop op).bind (reads_u16x2 h)))
  | jump => exact Reads.tag (reads_i32 h).bind_pure
  | jumpIfFalse => exact Reads.tag ((reads_u16 h.1).bind (reads_i32 h.2).bind_pure)
  | pmapWalkNext | pbtreeWalkNext =>
    exact Reads.tag ((reads_u16 h.1).bind ((reads_u16 h.2.1).bind (reads_i32 h.2.2).bind_pure))
  | context => exact Reads.tag ((reads_u16 h.1).bind (reads_u8 h.2).bind_pure)
  | convert =>
    exact Reads.tag ((reads_u16 h.1).bind ((reads_u16 h.2.1).bind (reads_u8 h.2.2).bind_pure))
  | call | callHost | builtinCall =>
    obtain ⟨hdst, hidx, hargs, hn⟩ := h
    exact Reads.tag ((reads_u16 hdst).bind ((reads_u16 hidx).bind ((reads_u16 hargs).bind
      (reads_u8 hn).bind_pure)))
  | callExternal | callExternalDyn =>
    obtain ⟨hdst, htarget, hfn, hargs, hn⟩ := h
    exact Reads.tag ((reads_u16 hdst).bind ((reads_u16 htarget).bind ((reads_u16 hfn).bind
      ((reads_u16 hargs).bind ((reads_u8 hn).bind ((reads_bool _).bind (reads_bool _).bind_pure))))))
  | parallelBegin =>
    obtain ⟨hn, hranges, hafter⟩ := h
    have hread := Reads.many (g := id) fun r hr => reads_range (hranges r hr)
    rw [List.map_id] at hread
    exact Reads.tag ((reads_u32 hn).bind (hread.bind (reads_u32 hafter).bind_pure))
  | parallelYield => exact Reads.tag (reads_option fun x hx => reads_u16 (h x hx)).bind_pure
  | parallelForBegin =>
    obtain ⟨hstart, hend, hsource, hout, hid, hidx, hafter⟩ := h
    exact Reads.tag ((reads_u32 hstart).bind ((reads_u32 hend).bind ((reads_u16 hsource).bind
      ((reads_u16 hout).bind ((reads_u16 hid).bind ((reads_u16 hidx).bind (reads_u32 hafter).bind_pure))))))

end Rend.Artifact
