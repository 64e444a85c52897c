import Rend.Leaves

/-!
# What a typed read gives

A batch of typed reads is flattened to leaves, answered, and put together again by positions in the list
of leaves. `assemble` says what comes out without the positions: each field from the cell below its
struct, or from the blob of its group. `readTypedMany_eq` is the value of a batch, a cell at a time:
what has been written, what is cached, or what lies below the caches (`cellValue`).
-/

namespace Rend

open Lib

mutual

/-- The value of a type stored at a cell, from the values of the cells. -/
def assemble (val : U128 → Ty → Value) (key : U128) : Ty → Value
  | .explicitLiteral inner => assemble val key inner
  | .struct name fields groups =>
    .struct name (assembleFields val key (groupTy name fields groups) fields groups)
  | ty => val key ty
  termination_by structural x => x

/-- The fields of a struct: each from its own cell, or from the blob of its group. -/
def assembleFields (val : U128 → Ty → Value) (key : U128) (blob : String → Ty) :
    List (String × Ty) → List (Option String) → List (String × Value)
  | [], _ => []
  | (fname, fty) :: fields, groups =>
    (fname, match groups.headD none with
      | none => assemble val (child key (strBytes fname)) fty
      | some g => projectField (val (child key (strBytes g)) (blob g)) fname) ::
      assembleFields val key blob fields groups.tail
  termination_by structural x => x

end

/-! ### Leaves by position -/

section Leaves

variable {val : U128 → Ty → Value}

/-- The values of leaves, in the order of their collection. -/
def leafValues (val : U128 → Ty → Value) (leaves : Leaves) : List Value := leaves.map fun l => val l.1 l.2

theorem leafValues_getD {acc : Leaves} {i : ℕ} {c : U128} {ty : Ty} (h : acc[i]? = some (c, ty))
    (more : Leaves) : (leafValues val (acc ++ more)).getD i .unit = val c ty := by
  have hlt : i < acc.length := (List.getElem?_eq_some_iff.mp h).1
  rw [leafValues, List.map_append, List.getD_eq_getElem?_getD,
    List.getElem?_append_left (by rwa [List.length_map]), List.getElem?_map, h]
  rfl

theorem getElem?_collected (acc more : Leaves) (l : U128 × Ty) : (acc ++ l :: more)[acc.length]? = some l := by
  simp

mutual

/-- **The leaves of a type**: they are added behind those collected so far, and the value is put together
from theirs, whatever leaves follow. -/
theorem collectLeaves_assemble (key : U128) (ty : Ty) (acc : Leaves) : ∃ leaves,
    (collectLeaves key ty acc).1 = acc ++ leaves ∧ ∀ more,
      reassemble (leafValues val ((collectLeaves key ty acc).1 ++ more)) (collectLeaves key ty acc).2 =
        assemble val key ty := by
  cases ty with
  | explicitLiteral inner => exact collectLeaves_assemble key inner acc
  | struct name fields groups =>
    obtain ⟨leaves, hleaves, hvalue⟩ := collectFields_assemble key (groupTy name fields groups) fields groups [] acc
      fun g i h => by cases h
    refine ⟨leaves, hleaves, fun more => ?_⟩
    rw [collectLeaves, assemble]
    dsimp only
    rw [reassemble, hvalue]
  | _ =>
    refine ⟨[(key, _)], rfl, fun more => ?_⟩
    rw [collectLeaves, assemble]
    · exact leafValues_getD (getElem?_collected acc [] _) more
    all_goals simp

theorem collectFields_assemble (key : U128) (blob : String → Ty) (fields : List (String × Ty))
    (groups : List (Option String)) (seen : List (String × ℕ)) (acc : Leaves)
    (hseen : ∀ g i, seen.lookup g = some i → acc[i]? = some (child key (strBytes g), blob g)) : ∃ leaves,
    (collectFields key blob fields groups seen acc).1 = acc ++ leaves ∧ ∀ more,
      reassembleFields (leafValues val ((collectFields key blob fields groups seen acc).1 ++ more))
        (collectFields key blob fields groups seen acc).2 = assembleFields val key blob fields groups := by
  -- leaves that have been collected stay where they are
  have hkeep : ∀ {acc leaves : Leaves} {i : ℕ} {l : U128 × Ty}, acc[i]? = some l → (acc ++ leaves)[i]? = some l := by
    intro acc leaves i l h
    rw [List.getElem?_append_left (List.getElem?_eq_some_iff.mp h).1, h]
  cases fields with
  | nil => exact ⟨[], (List.append_nil acc).symm, fun more => rfl⟩
  | cons f fields =>
    obtain ⟨fname, fty⟩ := f
    unfold collectFields assembleFields
    cases hg : groups.headD none with
    | none =>
      obtain ⟨here, hhere, hvalue⟩ := collectLeaves_assemble (child key (strBytes fname)) fty acc
      obtain ⟨leaves, hleaves, hrest⟩ := collectFields_assemble key blob fields groups.tail seen
        (collectLeaves (child key (strBytes fname)) fty acc).1
        fun g i h => by rw [hhere]; exact hkeep (hseen g i h)
      dsimp only
      refine ⟨here ++ leaves, by rw [hleaves, hhere, List.append_assoc], fun more => ?_⟩
      rw [reassembleFields, hrest]
      rw [hleaves, List.append_assoc, hvalue]
    | some g =>
      dsimp only
      cases hi : seen.lookup g with
      | some i =>
        obtain ⟨leaves, hleaves, hrest⟩ := collectFields_assemble key blob fields groups.tail seen acc hseen
        dsimp only
        refine ⟨leaves, hleaves, fun more => ?_⟩
        rw [reassembleFields, hrest, reassemble, hleaves, List.append_assoc, leafValues_getD (hseen g i hi)]
      | none =>
        obtain ⟨leaves, hleaves, hrest⟩ := collectFields_assemble key blob fields groups.tail
          ((g, acc.length) :: seen) (acc ++ [(child key (strBytes g), blob g)]) (by
            intro g' i h
            rw [List.lookup_cons] at h
            by_cases hgg : g' = g
            · subst hgg
              rw [beq_self_eq_true] at h
              cases h
              exact getElem?_collected acc [] _
            · rw [beq_eq_false_iff_ne.mpr hgg] at h
              exact hkeep (hseen g' i h))
        dsimp only
        refine ⟨(child key (strBytes g), blob g) :: leaves, by rw [hleaves, List.append_assoc]; rfl, fun more => ?_⟩
        rw [reassembleFields, hrest, reassemble, hleaves, List.append_assoc,
          leafValues_getD (getElem?_collected acc [] _)]

end

/-- The values of a batch are put together one by one. -/
theorem collectAll_assemble (ops : List (U128 × Ty)) (acc : Leaves) : ∃ leaves,
    (collectAll ops acc).1 = acc ++ leaves ∧ ∀ more,
      (collectAll ops acc).2.map (reassemble (leafValues val ((collectAll ops acc).1 ++ more))) =
        ops.map fun op => assemble val op.1 op.2 := by
  induction ops generalizing acc with
  | nil => exact ⟨[], (List.append_nil acc).symm, fun more => rfl⟩
  | cons op ops ih =>
    obtain ⟨key, ty⟩ := op
    obtain ⟨here, hhere, hvalue⟩ := @collectLeaves_assemble val key ty acc
    obtain ⟨leaves, hleaves, hrest⟩ := ih (collectLeaves key ty acc).1
    refine ⟨here ++ leaves, ?_, fun more => ?_⟩
    · rw [collectAll]
      dsimp only
      rw [hleaves, hhere, List.append_assoc]
    · rw [collectAll]
      dsimp only
      rw [List.map_cons, List.map_cons, hrest more, hleaves, List.append_assoc, hvalue]

end Leaves

namespace Tx

/-! ### The values of the leaves -/

/-- What a cell gives at a type: what has been written, what is cached, or what lies below. -/
def cellValue (tx : Tx) (c : U128) (ty : Ty) : Value :=
  match tx.writes.lookup c with
  | some v => v
  | none =>
    match tx.reads.lookup c with
    | some v => v
    | none => tx.storeValue c ty

/-- The value a batch has for a leaf once it has asked the caches and the ancestors. -/
def leafAnswer (kv : Kv) (leaf : U128 × Ty) (known : Option Value) : Value :=
  known.getD (observed kv leaf.1 leaf.2 (Value.defaultFor leaf.2))

theorem fetchLeaves_snd (tx : Tx) (pairs : List ((U128 × Ty) × Option Value)) :
    (tx.fetchLeaves pairs).2 = pairs.map fun p => leafAnswer tx.kv p.1 p.2 := by
  induction pairs generalizing tx with
  | nil => rfl
  | cons p pairs ih =>
    obtain ⟨⟨key, ty⟩, _ | v⟩ := p
    · rw [fetchLeaves, List.map_cons, ih]
      rfl
    · rw [fetchLeaves, List.map_cons, ih]
      rfl

/-- Caching what an ancestor knows changes no cell. -/
theorem cellValue_insert_parent {tx : Tx} {key : U128} {v : Value} (hr : tx.reads.lookup key = none)
    (hp : tx.parentLookup key = some v) (c : U128) (ty : Ty) :
    cellValue { tx with reads := tx.reads.insert key v } c ty = tx.cellValue c ty := by
  unfold cellValue
  by_cases hc : c = key
  · subst hc
    simp only [AList.lookup_insert, hr]
    rw [storeValue, hp, Option.getD_some]
  · simp only [AList.lookup_insert_ne hc]
    rfl

theorem knownLeaves_snd (tx : Tx) (leaves : Leaves) :
    (leaves.zip (tx.knownLeaves leaves).2).map (fun p => leafAnswer tx.kv p.1 p.2) =
      leafValues tx.cellValue leaves := by
  induction leaves generalizing tx with
  | nil => rfl
  | cons leaf leaves ih =>
    obtain ⟨key, ty⟩ := leaf
    rw [leafValues, List.map_cons]
    unfold knownLeaves
    cases hw : tx.writes.lookup key with
    | some v =>
      have hv : tx.cellValue key ty = v := by simp only [cellValue, hw]
      dsimp only
      rw [List.zip_cons_cons, List.map_cons, ih, hv]
      rfl
    | none =>
      dsimp only
      cases hr : tx.reads.lookup key with
      | some v =>
        have hv : tx.cellValue key ty = v := by simp only [cellValue, hw, hr]
        dsimp only
        rw [List.zip_cons_cons, List.map_cons, ih, hv]
        rfl
      | none =>
        dsimp only
        cases hp : tx.parentLookup key with
        | some v =>
          have hv : tx.cellValue key ty = v := by
            simp only [cellValue, hw, hr]
            rw [storeValue, hp, Option.getD_some]
          have hrest := ih { tx with reads := tx.reads.insert key v }
          dsimp only at hrest ⊢
          rw [List.zip_cons_cons, List.map_cons, hrest, hv]
          refine congrArg₂ List.cons rfl (List.map_congr_left fun l _ => ?_)
          exact cellValue_insert_parent hr hp l.1 l.2
        | none =>
          have hv : tx.cellValue key ty = leafAnswer tx.kv (key, ty) none := by
            simp only [cellValue, hw, hr]
            rw [storeValue, hp, Option.getD_none]
            rfl
          dsimp only
          rw [List.zip_cons_cons, List.map_cons, ih, hv]
          rfl

theorem knownLeaves_kv (tx : Tx) (leaves : Leaves) : (tx.knownLeaves leaves).1.kv = tx.kv := by
  rw [(knownLeaves_cached (List.Subset.refl leaves) (Cached.refl leaves tx)).1.frame]

theorem readLeaves_snd (tx : Tx) (leaves : Leaves) : (tx.readLeaves leaves).2 = leafValues tx.cellValue leaves := by
  rw [readLeaves, fetchLeaves_snd]
  rw [knownLeaves_kv, knownLeaves_snd]

/-- **The values of a batch.** -/
theorem readTypedMany_eq (tx : Tx) (ops : List (U128 × Ty)) :
    (tx.readTypedMany ops).2 = ops.map fun op => assemble tx.cellValue op.1 op.2 := by
  obtain ⟨leaves, -, hvalues⟩ := @collectAll_assemble tx.cellValue ops []
  have hmore := hvalues []
  rw [List.append_nil] at hmore
  rw [readTypedMany, ← hmore]
  dsimp only
  rw [readLeaves_snd]

end Tx

end Rend
