import Rend.Artifact.Parts

/-!
# The defaults of states

An artifact keeps the default value of each state in its storage encoding, and the decoder reads it at
the type of the state. `defaultRead` says what this comes to for every type: the default comes back, or,
if the type holds a map, a set, a dictionary, a tuple or an enum without variants where its default has a
value (`readable`), the decoder refuses it.
-/

namespace Rend.Artifact

open Lib

/-! ### Types whose default can be read -/

mutual

/-- The default of the type can be read back at the type. -/
def readable : Ty → Bool
  | .explicitLiteral inner => readable inner
  | .map .. => false
  | .set _ => false
  | .dict .. => false
  | .tuple _ => false
  | .struct _ fields _ => readableFields fields
  | .cap _ fields _ => readableFields fields
  | .enum _ variants => readableFirst variants
  | .int | .uint | .float | .i32 | .u32 | .u64 | .u128 | .bool | .unit | .resource | .string
  | .address | .bytes | .array _ | .pmap .. | .pbtree .. | .pvec _ | .json | .interface .. => true
  termination_by structural x => x

def readableList : List Ty → Bool
  | [] => true
  | t :: ts => readable t && readableList ts
  termination_by structural x => x

def readableFields : List (String × Ty) → Bool
  | [] => true
  | (_, t) :: fs => readable t && readableFields fs
  termination_by structural x => x

/-- The default of an enum is its first variant. -/
def readableFirst : List (String × List Ty) → Bool
  | [] => false
  | (_, ts) :: _ => readableList ts
  termination_by structural x => x

end

/-- What reading the default of a type comes to, when other bytes follow it. -/
structure DefaultRead (t : Ty) : Prop where
  size : ∀ rest, sizedValue (canonTy t) (serialize (Value.defaultFor t) ++ rest) =
    if readable t then some (serialize (Value.defaultFor t)).length else none
  value : deserialize (canonTy t) (serialize (Value.defaultFor t)) =
    if readable t then some (Value.defaultFor t) else none

/-- A default of a fixed size. -/
theorem DefaultRead.of_fixed {t : Ty} {tag : Byte} {n : ℕ} (hr : readable t = true)
    (hhead : ∃ w, serialize (Value.defaultFor t) = tag :: w ∧ w.length + 1 = n)
    (hsize : ∀ bs, sizedValue (canonTy t) bs = sizedFixed tag n bs)
    (hval : deserialize (canonTy t) (serialize (Value.defaultFor t)) = some (Value.defaultFor t)) :
    DefaultRead t := by
  obtain ⟨w, hw, hlen⟩ := hhead
  refine ⟨fun rest => ?_, ?_⟩
  · rw [hr, hsize, hw]
    simp [sizedFixed, hlen]
  · rw [hr, hval]
    rfl

/-- A default that is a tag and a counted string of bytes. -/
theorem DefaultRead.of_var {t : Ty} {tag : Byte} {b : Bytes} (hr : readable t = true)
    (hb : b.length < 2 ^ 32) (hhead : serialize (Value.defaultFor t) = tag :: withLen b)
    (hsize : ∀ bs, sizedValue (canonTy t) bs = sizedVar tag bs)
    (hval : deserialize (canonTy t) (serialize (Value.defaultFor t)) = some (Value.defaultFor t)) :
    DefaultRead t := by
  refine ⟨fun rest => ?_, ?_⟩
  · have hlen := lenAt_withLen hb [tag] rest
    rw [List.singleton_append, List.length_singleton] at hlen
    rw [hr, hsize, hhead, sizedVar, List.cons_append, hlen]
    simp only [List.head?_cons, if_true, Option.map_some, List.length_cons, length_withLen]
    congr 1
    omega
  · rw [hr, hval]
    rfl

/-- A default that is a list without elements. -/
theorem defaultRead_array (elem : Ty) : DefaultRead (.array elem) := by
  have hlen : ∀ pre rest : Bytes, lenAt (pre ++ (beBytes 4 0 ++ rest)) pre.length = some 0 := by
    intro pre rest
    have := getRange_append pre (beBytes 4 0) rest
    rw [length_beBytes] at this
    rw [lenAt, this]
    rfl
  refine ⟨fun rest => ?_, ?_⟩
  · have hlen := hlen [tagArray] rest
    rw [List.singleton_append, List.length_singleton] at hlen
    simp [canonTy, Value.defaultFor, serialize, serializeList, sizedValue, readable, hlen, sizedLoop, lenBytes]
  · have hlen := hlen [] []
    rw [List.nil_append, List.append_nil, List.length_nil] at hlen
    simp [canonTy, Value.defaultFor, serialize, serializeList, deserialize, payload, readable, hlen, readLoop,
      lenBytes]

theorem defaultRead_pvec (elem : Ty) : DefaultRead (.pvec elem) := by
  refine .of_fixed rfl ⟨_, rfl, rfl⟩ (fun _ => rfl) ?_
  show deserialize (.pvec .unit) (serialize (.pvec 0 0)) = some (.pvec 0 0)
  decide +kernel

theorem defaultRead_json : DefaultRead .json := by
  refine ⟨fun rest => ?_, by decide +kernel⟩
  simp [canonTy, Value.defaultFor, serialize, serializeJson, sizedValue, sizedJsonWith, jsonByteSize,
    jsonByteSizeFuel, readable]

/-- The name of the interface, without a target. -/
theorem defaultRead_interface {name : String} (h : FitsStr name) (methods : List InterfaceMethodSig) :
    DefaultRead (.interface name methods) := by
  have hs : serialize (Value.defaultFor (.interface name methods)) =
      tagInterface :: (withLen (strBytes name) ++ withLen []) := rfl
  have hpre : (tagInterface :: withLen (strBytes name)).length = 1 + 4 + (strBytes name).length := by
    rw [List.length_cons, length_withLen]
    omega
  refine ⟨fun rest => ?_, ?_⟩
  · have hi := lenAt_withLen h [tagInterface] (withLen [] ++ rest)
    have hm := lenAt_withLen (b := []) (by decide) (tagInterface :: withLen (strBytes name)) rest
    rw [hpre] at hm
    rw [hs]
    simp only [List.cons_append, List.nil_append, List.append_assoc, List.length_cons, List.length_nil,
      Nat.zero_add] at hi hm ⊢
    simp only [canonTy, sizedValue, List.head?_cons, if_true, hi, hm, readable, Option.bind_eq_bind,
      Option.bind_some, List.length_append, length_withLen, List.length_nil]
    congr 1
    omega
  · have hi := lenAt_withLen h [] (withLen [])
    have hib := getRange_withLen (strBytes name) [] (withLen [])
    have hm := lenAt_withLen (b := []) (by decide) (withLen (strBytes name)) []
    have hmb := getRange_withLen [] (withLen (strBytes name)) []
    simp only [List.nil_append, List.append_nil, List.length_nil, Nat.zero_add, length_withLen,
      Nat.add_zero] at hi hib hm hmb
    rw [hs]
    have hempty : strOfBytes [] = some "" := strOfBytes_strBytes ""
    simp [canonTy, deserialize, payload, readable, hi, hib, hm, hmb, hempty, Value.defaultFor]

/-- What reading the defaults of a list of types comes to, somewhere in the input. -/
structure ListRead (ts : List Ty) : Prop where
  size : ∀ pre rest,
    sizedList (canonTypes ts) (pre ++ (serializeList (Value.defaultForList ts) ++ rest)) pre.length =
      if readableList ts then some (pre.length + (serializeList (Value.defaultForList ts)).length) else none
  value : ∀ pre rest,
    deserializeList (canonTypes ts) (pre ++ (serializeList (Value.defaultForList ts) ++ rest)) pre.length =
      if readableList ts then some (Value.defaultForList ts) else none

/-- What reading the defaults of fields comes to, somewhere in the input. -/
structure FieldsRead (fs : List (String × Ty)) : Prop where
  size : ∀ pre rest,
    sizedFields (canonFields fs) (pre ++ (serializeFields (Value.defaultForFields fs) ++ rest)) pre.length =
      if readableFields fs then some (pre.length + (serializeFields (Value.defaultForFields fs)).length)
      else none
  value : ∀ pre rest,
    deserializeFields (canonFields fs) (pre ++ (serializeFields (Value.defaultForFields fs) ++ rest))
      pre.length = if readableFields fs then some (Value.defaultForFields fs) else none

theorem DefaultRead.cons {t : Ty} {ts : List Ty} (ht : DefaultRead t) (hts : ListRead ts) :
    ListRead (t :: ts) := by
  refine ⟨fun pre rest => ?_, fun pre rest => ?_⟩
  · have hfrom := getFrom_append pre (serialize (Value.defaultFor t) ++
      (serializeList (Value.defaultForList ts) ++ rest))
    have hrest := hts.size (pre ++ serialize (Value.defaultFor t)) rest
    simp only [List.append_assoc, List.length_append] at hrest
    simp only [canonTypes, Value.defaultForList, serializeList, sizedList, List.append_assoc, hfrom, ht.size,
      readableList, Option.bind_eq_bind, Option.bind_some]
    cases readable t with
    | false => rfl
    | true => simp [hrest, Nat.add_assoc]
  · have hfrom := getFrom_append pre (serialize (Value.defaultFor t) ++
      (serializeList (Value.defaultForList ts) ++ rest))
    have hbody := getRange_append [] (serialize (Value.defaultFor t))
      (serializeList (Value.defaultForList ts) ++ rest)
    have hrest := hts.value (pre ++ serialize (Value.defaultFor t)) rest
    simp only [List.append_assoc, List.length_append, List.nil_append, List.length_nil, Nat.zero_add]
      at hbody hrest
    simp only [canonTypes, Value.defaultForList, serializeList, deserializeList, List.append_assoc, hfrom,
      ht.size, readableList, Option.bind_eq_bind, Option.bind_some]
    by_cases hr : readable t = true
    · have hval := ht.value
      rw [if_pos hr] at hval
      simp only [hr, if_true, Option.bind_some, hbody, hval, hrest, Bool.true_and]
      by_cases hl : readableList ts = true <;> simp [hl]
    · simp [hr]

theorem DefaultRead.consField {t : Ty} {fs : List (String × Ty)} (n : String) (ht : DefaultRead t)
    (hfs : FieldsRead fs) : FieldsRead ((n, t) :: fs) := by
  refine ⟨fun pre rest => ?_, fun pre rest => ?_⟩
  · have hfrom := getFrom_append pre (serialize (Value.defaultFor t) ++
      (serializeFields (Value.defaultForFields fs) ++ rest))
    have hrest := hfs.size (pre ++ serialize (Value.defaultFor t)) rest
    simp only [List.append_assoc, List.length_append] at hrest
    simp only [canonFields, Value.defaultForFields, serializeFields, sizedFields, List.append_assoc, hfrom,
      ht.size, readableFields, Option.bind_eq_bind, Option.bind_some]
    cases readable t with
    | false => rfl
    | true => simp [hrest, Nat.add_assoc]
  · have hfrom := getFrom_append pre (serialize (Value.defaultFor t) ++
      (serializeFields (Value.defaultForFields fs) ++ rest))
    have hbody := getRange_append [] (serialize (Value.defaultFor t))
      (serializeFields (Value.defaultForFields fs) ++ rest)
    have hrest := hfs.value (pre ++ serialize (Value.defaultFor t)) rest
    simp only [List.append_assoc, List.length_append, List.nil_append, List.length_nil, Nat.zero_add]
      at hbody hrest
    simp only [canonFields, Value.defaultForFields, serializeFields, deserializeFields, List.append_assoc,
      hfrom, ht.size, readableFields, Option.bind_eq_bind, Option.bind_some]
    by_cases hr : readable t = true
    · have hval := ht.value
      rw [if_pos hr] at hval
      simp only [hr, if_true, Option.bind_some, hbody, hval, hrest, Bool.true_and]
      by_cases hl : readableFields fs = true <;> simp [hl]
    · simp [hr]

/-- A struct and a capability are stored alike. -/
theorem defaultRead_struct {t : Ty} {name : String} {fields : List (String × Ty)} (h : FieldsRead fields)
    (hsize : ∀ bs, sizedValue (canonTy t) bs =
      if bs.head? = some tagStruct then sizedFields (canonFields fields) bs 1 else none)
    (hval : ∀ bs, deserialize (canonTy t) bs = (payload tagStruct bs >>= fun rest =>
      deserializeFields (canonFields fields) rest 0 >>= fun vs => some (.struct name vs)))
    (hdef : Value.defaultFor t = .struct name (Value.defaultForFields fields))
    (hr : readable t = readableFields fields) : DefaultRead t := by
  refine ⟨fun rest => ?_, ?_⟩
  · have hfields := h.size [tagStruct] rest
    simp only [List.singleton_append, List.length_singleton] at hfields
    rw [hsize, hdef, hr, serialize, List.cons_append, hfields]
    simp [Nat.add_comm]
  · have hfields := h.value [] []
    simp only [List.nil_append, List.append_nil, List.length_nil] at hfields
    rw [hval, hdef, hr, serialize]
    simp only [payload, List.head?_cons, if_true, List.tail_cons, Option.bind_eq_bind, Option.bind_some,
      hfields]
    cases readableFields fields <;> rfl

/-- An enum without variants has no default that could be read. -/
theorem defaultRead_enum_nil (name : String) : DefaultRead (.enum name []) := by
  refine ⟨fun rest => ?_, ?_⟩
  · simp [canonTy, canonVariants, sizedValue, sizedVariant, readable, readableFirst]
  · simp [canonTy, canonVariants, deserialize, deserializeVariant, readable, readableFirst]

theorem defaultRead_enum_cons (name n : String) (ts : List Ty) (vs : List (String × List Ty))
    (hn : FitsStr n) (h : ListRead ts) : DefaultRead (.enum name ((n, ts) :: vs)) := by
  have hs : serialize (Value.defaultFor (.enum name ((n, ts) :: vs))) =
      tagEnum :: (withLen (strBytes n) ++ serializeList (Value.defaultForList ts)) := rfl
  refine ⟨fun rest => ?_, ?_⟩
  · have hlen := lenAt_withLen hn [tagEnum] (serializeList (Value.defaultForList ts) ++ rest)
    have hname := getRange_withLen (strBytes n) [tagEnum] (serializeList (Value.defaultForList ts) ++ rest)
    have hlist := h.size (tagEnum :: withLen (strBytes n)) rest
    have hpre : (tagEnum :: withLen (strBytes n)).length = 5 + (strBytes n).length := by
      rw [List.length_cons, length_withLen]
      omega
    rw [hpre] at hlist
    simp only [List.cons_append, List.nil_append, List.length_cons, List.length_nil, Nat.zero_add,
      Nat.reduceAdd] at hlen hname hlist
    rw [hs]
    simp only [List.cons_append, List.append_assoc, canonTy, canonVariants, sizedValue, List.head?_cons,
      if_true, hlen, hname, Option.bind_eq_bind, Option.bind_some, strOfBytes_strBytes, sizedVariant, hlist,
      readable, readableFirst, List.length_cons, List.length_append, length_withLen]
    cases readableList ts with
    | false => rfl
    | true =>
      simp only [if_true]
      congr 1
      omega
  · have hlen := lenAt_withLen hn [] (serializeList (Value.defaultForList ts))
    have hname := getRange_withLen (strBytes n) [] (serializeList (Value.defaultForList ts))
    have hlist := h.value (withLen (strBytes n)) []
    simp only [List.nil_append, List.append_nil, List.length_nil, Nat.zero_add, length_withLen]
      at hlen hname hlist
    rw [hs]
    simp only [canonTy, canonVariants, deserialize, payload, List.head?_cons, if_true, List.tail_cons, hlen,
      hname, Option.bind_eq_bind, Option.bind_some, strOfBytes_strBytes, deserializeVariant, hlist, readable,
      readableFirst]
    by_cases hl : readableList ts = true <;> simp [hl, Value.defaultFor, Value.defaultForFirst]

mutual

/-- The default of a readable type is read back, and the default of any other type is refused. -/
theorem defaultRead : ∀ t : Ty, FitsTy t → DefaultRead t
  | .explicitLiteral inner, h => ⟨(defaultRead inner h).size, (defaultRead inner h).value⟩
  | .int, _ => .of_var rfl (by decide) rfl (fun _ => rfl) (by decide +kernel)
  | .uint, _ => .of_var rfl (by decide) rfl (fun _ => rfl) (by decide +kernel)
  | .float, _ => .of_fixed rfl ⟨_, rfl, rfl⟩ (fun _ => rfl) (by decide +kernel)
  | .i32, _ => .of_fixed rfl ⟨_, rfl, rfl⟩ (fun _ => rfl) (by decide +kernel)
  | .u32, _ => .of_fixed rfl ⟨_, rfl, rfl⟩ (fun _ => rfl) (by decide +kernel)
  | .u64, _ => .of_fixed rfl ⟨_, rfl, rfl⟩ (fun _ => rfl) (by decide +kernel)
  | .u128, _ => .of_fixed rfl ⟨_, rfl, rfl⟩ (fun _ => rfl) (by decide +kernel)
  | .bool, _ => .of_fixed rfl ⟨_, rfl, rfl⟩ (fun _ => rfl) (by decide +kernel)
  | .unit, _ => .of_fixed rfl ⟨_, rfl, rfl⟩ (fun _ => rfl) (by decide +kernel)
  | .resource, _ => .of_fixed rfl ⟨_, rfl, rfl⟩ (fun _ => rfl) (by decide +kernel)
  | .string, _ => .of_var (b := []) rfl (by decide) rfl (fun _ => rfl) (by decide +kernel)
  | .address, _ => .of_var (b := []) rfl (by decide) rfl (fun _ => rfl) (by decide +kernel)
  | .bytes, _ => .of_var (b := []) rfl (by decide) rfl (fun _ => rfl) (by decide +kernel)
  | .json, _ => defaultRead_json
  | .array elem, _ => defaultRead_array elem
  | .set _, _ | .dict .., _ | .tuple _, _ | .map .., _ => ⟨fun _ => rfl, rfl⟩
  | .pmap _ _, _ | .pbtree _ _, _ => by
    refine .of_fixed rfl ⟨_, rfl, rfl⟩ (fun _ => rfl) ?_
    simp [canonTy, Value.defaultFor, serialize, deserialize, payload, exactWord_wordBytes]
  | .pvec elem, _ => defaultRead_pvec elem
  | .struct name fields groups, h => defaultRead_struct (fieldsRead fields h.2.2.1)
      (fun _ => rfl) (fun _ => rfl) rfl rfl
  | .cap name fields owner, h => defaultRead_struct (fieldsRead fields h.2.2.2)
      (fun _ => rfl) (fun _ => rfl) rfl rfl
  | .enum name [], h => defaultRead_enum_nil name
  | .enum name ((n, ts) :: vs), h => defaultRead_enum_cons name n ts vs h.2.2.1 (listRead ts h.2.2.2.2.1)
  | .interface _ methods, h => defaultRead_interface h.1 methods
  termination_by structural x => x

theorem listRead : ∀ ts : List Ty, FitsTypes ts → ListRead ts
  | [], _ => ⟨fun _ _ => rfl, fun _ _ => rfl⟩
  | t :: ts, h => (defaultRead t h.1).cons (listRead ts h.2)
  termination_by structural x => x

theorem fieldsRead : ∀ fs : List (String × Ty), FitsFields fs → FieldsRead fs
  | [], _ => ⟨fun _ _ => rfl, fun _ _ => rfl⟩
  | (n, t) :: fs, h => (defaultRead t h.2.1).consField n (fieldsRead fs h.2.2)
  termination_by structural x => x

end

theorem reads_default {t : Ty} (h : FitsTy t) (hlen : FitsU32 (serialize (Value.defaultFor t)).length)
    (hr : readable t = true) :
    Reads (readDefault (canonTy t)) (writeBytes (serialize (Value.defaultFor t))) (Value.defaultFor t) := by
  have hval := (defaultRead t h).value
  rw [if_pos hr] at hval
  rw [← List.append_nil (writeBytes _)]
  refine (reads_bytes hlen).bind ?_
  rw [hval]
  exact Reads.pure _

theorem fails_default {t : Ty} (h : FitsTy t) (hlen : FitsU32 (serialize (Value.defaultFor t)).length)
    (hr : readable t ≠ true) :
    Fails (readDefault (canonTy t)) (writeBytes (serialize (Value.defaultFor t))) := by
  have hval := (defaultRead t h).value
  rw [if_neg hr] at hval
  rw [← List.append_nil (writeBytes _)]
  refine (reads_bytes hlen).bind_fails ?_
  rw [hval]
  exact fun _ _ => ⟨_, rfl⟩

/-- The defaults of a list of state types, as they are written. -/
def writeDefaults (tys : List Ty) : Bytes := tys.flatMap fun t => writeBytes (serialize (Value.defaultFor t))

/-- The type of a state and its default can be counted. -/
def FitsState (t : Ty) : Prop := FitsTy t ∧ FitsU32 (serialize (Value.defaultFor t)).length

theorem reads_defaults {tys : List Ty} (h : ∀ t ∈ tys, FitsState t) (hr : ∀ t ∈ tys, readable t = true) :
    Reads (readDefaults tys.length (tys.map canonTy)) (writeDefaults tys) (tys.map Value.defaultFor) := by
  induction tys with
  | nil => exact Reads.pure []
  | cons t tys ih =>
    have ht := h t List.mem_cons_self
    have hrest := ih (fun t' ht' => h t' (List.mem_cons_of_mem t ht'))
      (fun t' ht' => hr t' (List.mem_cons_of_mem t ht'))
    exact (reads_default ht.1 ht.2 (hr t List.mem_cons_self)).bind hrest.bind_pure

theorem fails_defaults {tys : List Ty} (h : ∀ t ∈ tys, FitsState t) (hr : ∃ t ∈ tys, readable t ≠ true) :
    Fails (readDefaults tys.length (tys.map canonTy)) (writeDefaults tys) := by
  induction tys with
  | nil =>
    obtain ⟨t, ht, -⟩ := hr
    cases ht
  | cons t tys ih =>
    have ht := h t List.mem_cons_self
    by_cases hrt : readable t = true
    · have hr' : ∃ t' ∈ tys, readable t' ≠ true := by
        obtain ⟨t', ht', hrt'⟩ := hr
        rcases List.mem_cons.mp ht' with rfl | ht'
        · exact absurd hrt hrt'
        · exact ⟨t', ht', hrt'⟩
      have hrest := ih (fun t' ht' => h t' (List.mem_cons_of_mem t ht')) hr'
      exact (reads_default ht.1 ht.2 hrt).bind_fails hrest.bind_nil
    · exact (fails_default ht.1 ht.2 hrt).bind _

end Rend.Artifact
