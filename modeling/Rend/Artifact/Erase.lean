import Rend.Artifact.Parts

/-!
# Types up to explicit-literal tags

The encoder drops explicit-literal tags, and the decoder puts the field groups of a struct into normal
form. `canonTy_eq_iff` says that nothing else happens to a type: it comes back without its tags exactly
when its groups were in normal form.
-/

namespace Rend.Artifact

/-! ### Erasure -/

mutual

/-- A type without its explicit-literal tags. -/
def eraseTy : Ty → Ty
  | .explicitLiteral inner => eraseTy inner
  | .array elem => .array (eraseTy elem)
  | .set elem => .set (eraseTy elem)
  | .dict key value => .dict (eraseTy key) (eraseTy value)
  | .map key value => .map (eraseTy key) (eraseTy value)
  | .pmap key value => .pmap (eraseTy key) (eraseTy value)
  | .pbtree key value => .pbtree (eraseTy key) (eraseTy value)
  | .pvec elem => .pvec (eraseTy elem)
  | .struct name fields groups => .struct name (eraseFields fields) groups
  | .tuple elems => .tuple (eraseTypes elems)
  | .enum name variants => .enum name (eraseVariants variants)
  | .cap name fields owner => .cap name (eraseFields fields) owner
  | .interface name methods => .interface name (eraseMethods methods)
  | .int => .int | .uint => .uint | .float => .float | .i32 => .i32 | .u32 => .u32 | .u64 => .u64
  | .u128 => .u128 | .bool => .bool | .unit => .unit | .resource => .resource | .string => .string
  | .address => .address | .bytes => .bytes | .json => .json
  termination_by structural x => x

def eraseTypes : List Ty → List Ty
  | [] => []
  | t :: ts => eraseTy t :: eraseTypes ts
  termination_by structural x => x

def eraseFields : List (String × Ty) → List (String × Ty)
  | [] => []
  | (n, t) :: fs => (n, eraseTy t) :: eraseFields fs
  termination_by structural x => x

def eraseVariants : List (String × List Ty) → List (String × List Ty)
  | [] => []
  | (n, ts) :: vs => (n, eraseTypes ts) :: eraseVariants vs
  termination_by structural x => x

def eraseMethods : List InterfaceMethodSig → List InterfaceMethodSig
  | [] => []
  | .mk n params ret isView isPure :: ms =>
    .mk n (eraseTypes params) (eraseTy ret) isView isPure :: eraseMethods ms
  termination_by structural x => x

end

/-! ### Normal form -/

/-- Groups in normal form: none at all, or one entry for each field and not all of them empty. -/
def normalGroups (fields : List (String × Ty)) (groups : List (Option String)) : Bool :=
  groups = [] || groups.length = fields.length && groups.any Option.isSome

mutual

/-- The groups of every struct in the type are in normal form. -/
def normalTy : Ty → Bool
  | .explicitLiteral inner => normalTy inner
  | .array elem => normalTy elem
  | .set elem => normalTy elem
  | .dict key value => normalTy key && normalTy value
  | .map key value => normalTy key && normalTy value
  | .pmap key value => normalTy key && normalTy value
  | .pbtree key value => normalTy key && normalTy value
  | .pvec elem => normalTy elem
  | .struct _ fields groups => normalFields fields && normalGroups fields groups
  | .tuple elems => normalTypes elems
  | .enum _ variants => normalVariants variants
  | .cap _ fields _ => normalFields fields
  | .interface _ methods => normalMethods methods
  | .int | .uint | .float | .i32 | .u32 | .u64 | .u128 | .bool | .unit | .resource | .string
  | .address | .bytes | .json => true
  termination_by structural x => x

def normalTypes : List Ty → Bool
  | [] => true
  | t :: ts => normalTy t && normalTypes ts
  termination_by structural x => x

def normalFields : List (String × Ty) → Bool
  | [] => true
  | (_, t) :: fs => normalTy t && normalFields fs
  termination_by structural x => x

def normalVariants : List (String × List Ty) → Bool
  | [] => true
  | (_, ts) :: vs => normalTypes ts && normalVariants vs
  termination_by structural x => x

def normalMethods : List InterfaceMethodSig → Bool
  | [] => true
  | .mk _ params ret _ _ :: ms => normalTypes params && normalTy ret && normalMethods ms
  termination_by structural x => x

end

theorem length_padGroups (fields : List (String × Ty)) (groups : List (Option String)) :
    (padGroups fields groups).length = fields.length := by
  induction fields generalizing groups with
  | nil => rfl
  | cons f fs ih => rw [padGroups, List.length_cons, ih, List.length_cons]

theorem padGroups_eq {fields : List (String × Ty)} {groups : List (Option String)}
    (h : groups.length = fields.length) : padGroups fields groups = groups := by
  induction fields generalizing groups with
  | nil =>
    rw [List.length_nil, List.length_eq_zero_iff] at h
    rw [h]
    rfl
  | cons f fs ih =>
    cases groups with
    | nil => cases h
    | cons g groups =>
      rw [padGroups, List.tail_cons, ih (Nat.succ.inj h)]
      rfl

theorem padGroups_nil (fields : List (String × Ty)) : (padGroups fields []).all Option.isNone = true := by
  induction fields with
  | nil => rfl
  | cons f fs ih =>
    rw [padGroups, List.all_cons, List.tail_nil, ih]
    rfl

theorem normalize_padGroups_iff (fields : List (String × Ty)) (groups : List (Option String)) :
    normalizeGroups (padGroups fields groups) = groups ↔ normalGroups fields groups = true := by
  simp only [normalGroups, Bool.or_eq_true, Bool.and_eq_true, decide_eq_true_eq]
  constructor
  · intro h
    unfold normalizeGroups at h
    split at h
    · exact .inl h.symm
    · rename_i hall
      rw [h] at hall
      refine .inr ⟨by rw [← length_padGroups fields groups, h], ?_⟩
      simpa [Option.isSome_iff_ne_none] using hall
  · rintro (rfl | ⟨hlen, hany⟩)
    · rw [normalizeGroups, if_pos (padGroups_nil fields)]
    · rw [padGroups_eq hlen, normalizeGroups, if_neg]
      simpa [Option.isSome_iff_ne_none] using hany

mutual

/-- A type comes back without its tags exactly when its groups are in normal form. -/
theorem canonTy_eq_iff : ∀ t : Ty, canonTy t = eraseTy t ↔ normalTy t = true
  | .explicitLiteral inner => canonTy_eq_iff inner
  | .array elem | .set elem | .pvec elem => by simp [canonTy, eraseTy, normalTy, canonTy_eq_iff elem]
  | .dict key value | .map key value | .pmap key value | .pbtree key value => by
    simp [canonTy, eraseTy, normalTy, canonTy_eq_iff key, canonTy_eq_iff value]
  | .struct _ fields groups => by
    simp [canonTy, eraseTy, normalTy, canonFields_eq_iff fields, normalize_padGroups_iff]
  | .tuple elems => by simp [canonTy, eraseTy, normalTy, canonTypes_eq_iff elems]
  | .enum _ variants => by simp [canonTy, eraseTy, normalTy, canonVariants_eq_iff variants]
  | .cap _ fields _ => by simp [canonTy, eraseTy, normalTy, canonFields_eq_iff fields]
  | .interface _ methods => by simp [canonTy, eraseTy, normalTy, canonMethods_eq_iff methods]
  | .int | .uint | .float | .i32 | .u32 | .u64 | .u128 | .bool | .unit | .resource | .string
  | .address | .bytes | .json => by simp [canonTy, eraseTy, normalTy]
  termination_by structural x => x

theorem canonTypes_eq_iff : ∀ ts : List Ty, canonTypes ts = eraseTypes ts ↔ normalTypes ts = true
  | [] => by simp [canonTypes, eraseTypes, normalTypes]
  | t :: ts => by simp [canonTypes, eraseTypes, normalTypes, canonTy_eq_iff t, canonTypes_eq_iff ts]
  termination_by structural x => x

theorem canonFields_eq_iff : ∀ fs : List (String × Ty), canonFields fs = eraseFields fs ↔ normalFields fs = true
  | [] => by simp [canonFields, eraseFields, normalFields]
  | (_, t) :: fs => by
    simp [canonFields, eraseFields, normalFields, canonTy_eq_iff t, canonFields_eq_iff fs]
  termination_by structural x => x

theorem canonVariants_eq_iff : ∀ vs : List (String × List Ty),
    canonVariants vs = eraseVariants vs ↔ normalVariants vs = true
  | [] => by simp [canonVariants, eraseVariants, normalVariants]
  | (_, ts) :: vs => by
    simp [canonVariants, eraseVariants, normalVariants, canonTypes_eq_iff ts, canonVariants_eq_iff vs]
  termination_by structural x => x

theorem canonMethods_eq_iff : ∀ ms : List InterfaceMethodSig,
    canonMethods ms = eraseMethods ms ↔ normalMethods ms = true
  | [] => by simp [canonMethods, eraseMethods, normalMethods]
  | .mk _ params ret _ _ :: ms => by
    simp [canonMethods, eraseMethods, normalMethods, canonTypes_eq_iff params, canonTy_eq_iff ret,
      canonMethods_eq_iff ms]
  termination_by structural x => x

end

end Rend.Artifact
