import Rend.Drain

/-!
# Handles of deferred reads

A pending handle can stand anywhere in a value, also where `force` does not look: in the payload of an
enum, in json, in a cursor. `handles` collects them all. A value that comes from the store holds none
(`handles_deserialize`), nor does a default; substitution brings in no others than those of the values
it substitutes (`handles_substituteResolved`).
-/

namespace Rend

open Lib

mutual

/-- The handles that stand in a value, at any depth. -/
def handles : Value → List ℕ
  | .pending id => [id]
  | .array elems => handlesList elems
  | .set elems => handlesList elems
  | .tuple elems => handlesList elems
  | .struct _ fields => handlesFields fields
  | .dict pairs => handlesPairs pairs
  | .enum _ _ payload => handlesList payload
  | .json j => handlesJson j
  | .pmapCursor _ entries _ _ => handlesPairs entries
  | .pbtreeCursor _ lastYielded _ _ => handlesOption lastYielded
  | _ => []
  termination_by structural x => x

def handlesList : List Value → List ℕ
  | [] => []
  | v :: vs => handles v ++ handlesList vs
  termination_by structural x => x

def handlesFields : List (String × Value) → List ℕ
  | [] => []
  | (_, v) :: fs => handles v ++ handlesFields fs
  termination_by structural x => x

def handlesPairs : List (Value × Value) → List ℕ
  | [] => []
  | (k, v) :: ps => handles k ++ handles v ++ handlesPairs ps
  termination_by structural x => x

def handlesOption : Option Value → List ℕ
  | none => []
  | some v => handles v
  termination_by structural x => x

def handlesJson : Json → List ℕ
  | .null => []
  | .array items => handlesList items
  | .object fields => handlesFields fields
  termination_by structural x => x

end

theorem mem_handlesList {i : ℕ} {vs : List Value} : i ∈ handlesList vs ↔ ∃ v ∈ vs, i ∈ handles v := by
  induction vs with
  | nil => simp [handlesList]
  | cons v vs ih => simp [handlesList, ih]

theorem mem_handlesFields {i : ℕ} {fs : List (String × Value)} :
    i ∈ handlesFields fs ↔ ∃ f ∈ fs, i ∈ handles f.2 := by
  induction fs with
  | nil => simp [handlesFields]
  | cons f fs ih => simp [handlesFields, ih]

theorem handlesList_eq_nil {vs : List Value} (h : ∀ v ∈ vs, handles v = []) : handlesList vs = [] := by
  refine List.eq_nil_iff_forall_not_mem.mpr fun i hi => ?_
  obtain ⟨v, hv, hi⟩ := mem_handlesList.mp hi
  rw [h v hv] at hi
  cases hi

theorem handlesFields_eq_nil {fs : List (String × Value)} (h : ∀ f ∈ fs, handles f.2 = []) :
    handlesFields fs = [] := by
  refine List.eq_nil_iff_forall_not_mem.mpr fun i hi => ?_
  obtain ⟨f, hf, hi⟩ := mem_handlesFields.mp hi
  rw [h f hf] at hi
  cases hi

mutual

/-- What `force` looks at is part of the value. -/
theorem containsPending_of_handles (v : Value) (h : handles v = []) : containsPending v = false := by
  cases v with
  | pending id => cases h
  | array elems => exact containsPendingList_of_handles elems h
  | set elems => exact containsPendingList_of_handles elems h
  | tuple elems => exact containsPendingList_of_handles elems h
  | struct name fields => exact containsPendingFields_of_handles fields h
  | dict pairs => exact containsPendingPairs_of_handles pairs h
  | _ => rfl

theorem containsPendingList_of_handles (vs : List Value) (h : handlesList vs = []) :
    containsPendingList vs = false := by
  cases vs with
  | nil => rfl
  | cons v vs =>
    rw [handlesList, List.append_eq_nil_iff] at h
    rw [containsPendingList, containsPending_of_handles v h.1, containsPendingList_of_handles vs h.2]
    rfl

theorem containsPendingFields_of_handles (fs : List (String × Value)) (h : handlesFields fs = []) :
    containsPendingFields fs = false := by
  cases fs with
  | nil => rfl
  | cons f fs =>
    obtain ⟨n, v⟩ := f
    rw [handlesFields, List.append_eq_nil_iff] at h
    rw [containsPendingFields, containsPending_of_handles v h.1, containsPendingFields_of_handles fs h.2]
    rfl

theorem containsPendingPairs_of_handles (ps : List (Value × Value)) (h : handlesPairs ps = []) :
    containsPendingPairs ps = false := by
  cases ps with
  | nil => rfl
  | cons p ps =>
    obtain ⟨k, v⟩ := p
    rw [handlesPairs, List.append_eq_nil_iff, List.append_eq_nil_iff] at h
    rw [containsPendingPairs, containsPending_of_handles k h.1.1, containsPending_of_handles v h.1.2,
      containsPendingPairs_of_handles ps h.2]
    rfl

end

/-! ### Values that force leaves alone -/

section Untouched

variable {resolved : AList fun _ : ℕ => Value}

mutual

/-- Substitution changes no value that `force` does not look into. -/
theorem substituteResolved_of_not_pending (v : Value) (h : containsPending v = false) :
    substituteResolved resolved v = v := by
  cases v with
  | pending id => cases h
  | array elems => rw [substituteResolved, substituteResolvedList_of_not_pending elems h]
  | set elems => rw [substituteResolved, substituteResolvedList_of_not_pending elems h]
  | tuple elems => rw [substituteResolved, substituteResolvedList_of_not_pending elems h]
  | struct name fields => rw [substituteResolved, substituteResolvedFields_of_not_pending fields h]
  | dict pairs => rw [substituteResolved, substituteResolvedPairs_of_not_pending pairs h]
  | _ => rfl

theorem substituteResolvedList_of_not_pending (vs : List Value) (h : containsPendingList vs = false) :
    substituteResolvedList resolved vs = vs := by
  cases vs with
  | nil => rfl
  | cons v vs =>
    obtain ⟨hv, hvs⟩ := Bool.or_eq_false_iff.mp h
    rw [substituteResolvedList, substituteResolved_of_not_pending v hv,
      substituteResolvedList_of_not_pending vs hvs]

theorem substituteResolvedFields_of_not_pending (fs : List (String × Value))
    (h : containsPendingFields fs = false) : substituteResolvedFields resolved fs = fs := by
  cases fs with
  | nil => rfl
  | cons f fs =>
    obtain ⟨n, v⟩ := f
    obtain ⟨hv, hfs⟩ := Bool.or_eq_false_iff.mp h
    rw [substituteResolvedFields, substituteResolved_of_not_pending v hv,
      substituteResolvedFields_of_not_pending fs hfs]

theorem substituteResolvedPairs_of_not_pending (ps : List (Value × Value))
    (h : containsPendingPairs ps = false) : substituteResolvedPairs resolved ps = ps := by
  cases ps with
  | nil => rfl
  | cons p ps =>
    obtain ⟨k, v⟩ := p
    obtain ⟨hkv, hps⟩ := Bool.or_eq_false_iff.mp h
    obtain ⟨hk, hv⟩ := Bool.or_eq_false_iff.mp hkv
    rw [substituteResolvedPairs, substituteResolved_of_not_pending k hk,
      substituteResolved_of_not_pending v hv, substituteResolvedPairs_of_not_pending ps hps]

end

end Untouched

/-! ### Values of the store -/

theorem handles_of_map {α : Type} {o : Option α} {f : α → Value} {v : Value}
    (hf : ∀ x, handles (f x) = []) (h : o.map f = some v) : handles v = [] := by
  obtain ⟨x, -, rfl⟩ := Option.map_eq_some_iff.1 h
  exact hf x

theorem handles_deserializeBool {bs : Bytes} {v : Value} (h : deserializeBool bs = some v) :
    handles v = [] := by
  simp only [deserializeBool, Option.bind_eq_bind, Option.bind_eq_some_iff] at h
  obtain ⟨rest, -, hv⟩ := h
  split_ifs at hv <;> cases hv <;> rfl

theorem handles_deserializeJsonWith {js : Bytes → Option Json} (hjs : ∀ b j, js b = some j → handlesJson j = [])
    {bs : Bytes} {v : Value} (h : deserializeJsonWith js bs = some v) : handles v = [] := by
  rw [deserializeJsonWith] at h
  split_ifs at h
  · obtain ⟨j, hj, rfl⟩ := Option.map_eq_some_iff.1 h
    exact hjs _ j hj
  · simp only [Option.or_eq_some_iff] at h
    rcases h with h | ⟨-, h | ⟨-, h | ⟨-, h | ⟨-, h⟩⟩⟩⟩
    · exact handles_of_map (fun _ => rfl) h
    · exact handles_of_map (fun _ => rfl) h
    · exact handles_of_map (fun _ => rfl) h
    · exact handles_deserializeBool h
    · exact handles_of_map (fun _ => rfl) h

theorem handlesJson_of_jsonDeserializeFuel {fuel : ℕ} {bs : Bytes} {j : Json}
    (h : jsonDeserializeFuel fuel bs = some j) : handlesJson j = [] := by
  induction fuel generalizing bs j with
  | zero => cases h
  | succ fuel ih =>
    have hread : ∀ b v, deserializeJsonWith (jsonDeserializeFuel fuel) b = some v → handles v = [] :=
      fun b v hv => handles_deserializeJsonWith (fun _ _ => ih) hv
    rw [jsonDeserializeFuel] at h
    dsimp only at h
    split_ifs at h
    · cases h
      rfl
    · simp only [Option.bind_eq_bind, Option.bind_eq_some_iff] at h
      obtain ⟨n, -, r, hr, hend⟩ := h
      split_ifs at hend
      cases hend
      refine handlesList_eq_nil fun v hv => ?_
      obtain ⟨-, b, -, -, hb⟩ := mem_of_readLoop hr hv
      exact hread b v hb
    · simp only [Option.bind_eq_bind, Option.bind_eq_some_iff] at h
      obtain ⟨n, -, r, hr, hend⟩ := h
      split_ifs at hend
      cases hend
      refine handlesFields_eq_nil fun f hf => ?_
      obtain hf | ⟨b, hb⟩ := mem_of_readObject hr hf
      · cases hf
      · exact hread b _ hb

mutual

/-- **A value of the store holds no handle.** -/
theorem handles_deserialize (ty : Ty) {bs : Bytes} {v : Value} (h : deserialize ty bs = some v) :
    handles v = [] := by
  cases ty with
  | explicitLiteral inner => exact handles_deserialize inner (by rwa [deserialize] at h)
  | array elem =>
    simp only [deserialize, Option.bind_eq_bind, Option.bind_eq_some_iff] at h
    obtain ⟨rest, -, n, -, r, hr, heq⟩ := h
    cases heq
    refine handlesList_eq_nil fun v hv => ?_
    obtain ⟨-, b, -, -, hb⟩ := mem_of_readLoop hr hv
    exact handles_deserialize elem hb
  | struct name fields groups =>
    simp only [deserialize, Option.bind_eq_bind, Option.bind_eq_some_iff] at h
    obtain ⟨rest, -, vs, hvs, heq⟩ := h
    cases heq
    exact handles_deserializeFields fields hvs
  | cap name fields owner =>
    simp only [deserialize, Option.bind_eq_bind, Option.bind_eq_some_iff] at h
    obtain ⟨rest, -, vs, hvs, heq⟩ := h
    cases heq
    exact handles_deserializeFields fields hvs
  | bool => exact handles_deserializeBool h
  | json => exact handles_deserializeJsonWith (fun _ _ => handlesJson_of_jsonDeserializeFuel) h
  | enum name variants =>
    simp only [deserialize, Option.bind_eq_bind, Option.bind_eq_some_iff] at h
    obtain ⟨rest, -, nameLen, -, variant, -, vs, hvs, heq⟩ := h
    cases heq
    exact handles_deserializeVariant variants hvs
  | pvec elem =>
    simp only [deserialize, Option.bind_eq_bind, Option.bind_eq_some_iff] at h
    obtain ⟨rest, -, len, -, root, -, heq⟩ := h
    cases heq
    rfl
  | interface name methods =>
    simp only [deserialize, Option.bind_eq_bind, Option.bind_eq_some_iff] at h
    obtain ⟨rest, -, ilen, -, iface, -, mlen, -, target, -, heq⟩ := h
    cases heq
    rfl
  | set elem => cases h
  | dict k v => cases h
  | map k v => cases h
  | tuple elems => cases h
  | _ => exact handles_of_map (fun _ => rfl) h

theorem handles_deserializeFields (fields : List (String × Ty)) {bs : Bytes} {cursor : ℕ}
    {vs : List (String × Value)} (h : deserializeFields fields bs cursor = some vs) :
    handlesFields vs = [] := by
  cases fields with
  | nil =>
    cases h
    rfl
  | cons f fs =>
    obtain ⟨n, t⟩ := f
    simp only [deserializeFields, Option.bind_eq_bind, Option.bind_eq_some_iff] at h
    obtain ⟨rest, -, consumed, -, body, -, v, hv, vs', hvs, heq⟩ := h
    cases heq
    rw [handlesFields, handles_deserialize t hv, handles_deserializeFields fs hvs]
    rfl

theorem handles_deserializeList (tys : List Ty) {bs : Bytes} {cursor : ℕ} {vs : List Value}
    (h : deserializeList tys bs cursor = some vs) : handlesList vs = [] := by
  cases tys with
  | nil =>
    cases h
    rfl
  | cons t ts =>
    simp only [deserializeList, Option.bind_eq_bind, Option.bind_eq_some_iff] at h
    obtain ⟨rest, -, consumed, -, body, -, v, hv, vs', hvs, heq⟩ := h
    cases heq
    rw [handlesList, handles_deserialize t hv, handles_deserializeList ts hvs]
    rfl

theorem handles_deserializeVariant (variants : List (String × List Ty)) {variant : String} {bs : Bytes}
    {cursor : ℕ} {vs : List Value} (h : deserializeVariant variants variant bs cursor = some vs) :
    handlesList vs = [] := by
  cases variants with
  | nil => cases h
  | cons p variants =>
    obtain ⟨n, ts⟩ := p
    rw [deserializeVariant] at h
    split_ifs at h
    · exact handles_deserializeList ts h
    · exact handles_deserializeVariant variants h

end

mutual

theorem handles_defaultFor (ty : Ty) : handles (Value.defaultFor ty) = [] := by
  cases ty with
  | explicitLiteral inner => exact handles_defaultFor inner
  | map k v => exact handles_defaultFor v
  | struct name fields groups => exact handles_defaultForFields fields
  | cap name fields owner => exact handles_defaultForFields fields
  | tuple elems => exact handles_defaultForList elems
  | enum name variants => exact handles_defaultForFirst variants
  | _ => rfl

theorem handles_defaultForFields (fields : List (String × Ty)) :
    handlesFields (Value.defaultForFields fields) = [] := by
  cases fields with
  | nil => rfl
  | cons f fs =>
    obtain ⟨n, t⟩ := f
    rw [Value.defaultForFields, handlesFields, handles_defaultFor t, handles_defaultForFields fs]
    rfl

theorem handles_defaultForList (tys : List Ty) : handlesList (Value.defaultForList tys) = [] := by
  cases tys with
  | nil => rfl
  | cons t ts =>
    rw [Value.defaultForList, handlesList, handles_defaultFor t, handles_defaultForList ts]
    rfl

theorem handles_defaultForFirst (variants : List (String × List Ty)) :
    handlesList (Value.defaultForFirst variants).2 = [] := by
  cases variants with
  | nil => rfl
  | cons p variants =>
    obtain ⟨n, ts⟩ := p
    exact handles_defaultForList ts

end

theorem handles_observed (kv : Kv) (c : U128) (ty : Ty) :
    handles (Tx.observed kv c ty (Value.defaultFor ty)) = [] := by
  unfold Tx.observed
  cases kv c with
  | none => exact handles_defaultFor ty
  | some bs =>
    dsimp only
    cases h : deserialize ty bs with
    | none => exact handles_defaultFor ty
    | some v => exact handles_deserialize ty h

/-! ### Substitution -/

/-- No value that a handle resolves to holds a handle itself. -/
def Settled (resolved : AList fun _ : ℕ => Value) : Prop :=
  ∀ i v, resolved.lookup i = some v → handles v = []

section Substitution

variable {resolved : AList fun _ : ℕ => Value}

mutual

/-- Substituting values without handles brings in no handle. -/
theorem handles_substituteResolved (hres : Settled resolved) (v : Value) :
    handles (substituteResolved resolved v) ⊆ handles v := by
  cases v with
  | pending id =>
    rw [substituteResolved]
    cases h : resolved.lookup id with
    | none => exact fun _ hi => hi
    | some w =>
      rw [Option.getD_some, hres id w h]
      exact fun _ hi => by cases hi
  | array elems => exact handles_substituteResolvedList hres elems
  | set elems => exact handles_substituteResolvedList hres elems
  | tuple elems => exact handles_substituteResolvedList hres elems
  | struct name fields => exact handles_substituteResolvedFields hres fields
  | dict pairs => exact handles_substituteResolvedPairs hres pairs
  | _ => exact fun _ hi => hi

theorem handles_substituteResolvedList (hres : Settled resolved) (vs : List Value) :
    handlesList (substituteResolvedList resolved vs) ⊆ handlesList vs := by
  cases vs with
  | nil => exact fun _ hi => hi
  | cons v vs =>
    exact List.append_subset.mpr
      ⟨List.Subset.trans (handles_substituteResolved hres v) (List.subset_append_left ..),
        List.Subset.trans (handles_substituteResolvedList hres vs) (List.subset_append_right ..)⟩

theorem handles_substituteResolvedFields (hres : Settled resolved) (fs : List (String × Value)) :
    handlesFields (substituteResolvedFields resolved fs) ⊆ handlesFields fs := by
  cases fs with
  | nil => exact fun _ hi => hi
  | cons f fs =>
    obtain ⟨n, v⟩ := f
    exact List.append_subset.mpr
      ⟨List.Subset.trans (handles_substituteResolved hres v) (List.subset_append_left ..),
        List.Subset.trans (handles_substituteResolvedFields hres fs) (List.subset_append_right ..)⟩

theorem handles_substituteResolvedPairs (hres : Settled resolved) (ps : List (Value × Value)) :
    handlesPairs (substituteResolvedPairs resolved ps) ⊆ handlesPairs ps := by
  cases ps with
  | nil => exact fun _ hi => hi
  | cons p ps =>
    obtain ⟨k, v⟩ := p
    refine List.append_subset.mpr ⟨?_,
      List.Subset.trans (handles_substituteResolvedPairs hres ps) (List.subset_append_right ..)⟩
    refine List.Subset.trans ?_ (List.subset_append_left ..)
    exact List.append_subset.mpr
      ⟨List.Subset.trans (handles_substituteResolved hres k) (List.subset_append_left ..),
        List.Subset.trans (handles_substituteResolved hres v) (List.subset_append_right ..)⟩

end

end Substitution

end Rend
