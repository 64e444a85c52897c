import Rend.Leaves
import Rend.Handles

/-!
# Writes that are split into leaf cells

A typed write splits a struct as a typed read does: a field without a group goes to its own leaf cell,
the fields of a storage group go to one cell as the blob of a synthetic struct (`write_typed`,
`build_group_blob`). A value that is no struct is written to one cell whatever the type.

What a write stores is forced first; a value without handles is stored without one
(`storesSettled_writeTyped`).
-/

namespace Rend

open Lib

/-- The field of a struct value; one that it lacks has its default. -/
def fieldOrDefault (actual : List (String × Value)) (fname : String) (fty : Ty) : Value :=
  (actual.lookup fname).getD (Value.defaultFor fty)

/-- The type and the value of the blob of a group. -/
def buildGroupBlob (parent : String) (declared : List (String × Ty)) (groups : List (Option String))
    (actual : List (String × Value)) (group : String) : Ty × Value :=
  (groupTy parent declared groups group,
    .struct (syntheticGroupName parent group)
      ((groupFields declared groups group).map fun f => (f.1, fieldOrDefault actual f.1 f.2)))

namespace Tx

mutual

/-- Writes a value at a type, a struct leaf by leaf. -/
def writeTyped (tx : Tx) (key : U128) : Ty → Value → Tx
  | .explicitLiteral inner, value => writeTyped tx key inner value
  | .struct name fields groups, value =>
    let (tx, value) := tx.force value
    match value with
    | .struct _ actual =>
      writeFields tx key (fun g => (buildGroupBlob name fields groups actual g).2) actual fields groups []
    | v => tx.write key v
  | _, value =>
    let (tx, value) := tx.force value
    tx.write key value
  termination_by structural x => x

/-- Writes the fields of a struct. `blob` gives the value of a group, `emitted` the groups that have
been written. -/
def writeFields (tx : Tx) (key : U128) (blob : String → Value) (actual : List (String × Value)) :
    List (String × Ty) → List (Option String) → List String → Tx
  | [], _, _ => tx
  | (fname, fty) :: fields, groups, emitted =>
    match groups.headD none with
    | none =>
      writeFields (writeTyped tx (child key (strBytes fname)) fty (fieldOrDefault actual fname fty)) key blob
        actual fields groups.tail emitted
    | some g =>
      if g ∈ emitted then writeFields tx key blob actual fields groups.tail emitted
      else writeFields (tx.write (child key (strBytes g)) (blob g)) key blob actual fields groups.tail (g :: emitted)
  termination_by structural x => x

end

/-! ### Writes of values without handles -/

/-- No write stores a handle. -/
def StoresSettled (tx : Tx) : Prop := ∀ c v, tx.writes.lookup c = some v → Rend.handles v = []

theorem force_settled {v : Value} (hv : Rend.handles v = []) (tx : Tx) : tx.force v = (tx, v) :=
  force_eq_of_not_pending (containsPending_of_handles v hv) tx

theorem write_settled {v : Value} (hv : Rend.handles v = []) (tx : Tx) (c : U128) :
    tx.write c v = { tx with writes := tx.writes.insert c v } := by
  rw [write, force_settled hv]

theorem storesSettled_write {tx : Tx} (h : tx.StoresSettled) {v : Value} (hv : Rend.handles v = [])
    (c : U128) : (tx.write c v).StoresSettled := by
  rw [write_settled hv]
  intro d w hw
  by_cases hd : d = c
  · subst hd
    rw [AList.lookup_insert] at hw
    cases hw
    exact hv
  · rw [AList.lookup_insert_ne hd] at hw
    exact h d w hw

theorem handles_fieldOrDefault {actual : List (String × Value)} (h : handlesFields actual = [])
    (fname : String) (fty : Ty) : Rend.handles (fieldOrDefault actual fname fty) = [] := by
  unfold fieldOrDefault
  cases hv : actual.lookup fname with
  | none => exact handles_defaultFor fty
  | some v =>
    obtain ⟨l₁, l₂, hl, -⟩ := List.lookup_eq_some_iff.mp hv
    refine List.eq_nil_iff_forall_not_mem.mpr fun i hi => ?_
    have hmem : i ∈ handlesFields actual :=
      mem_handlesFields.mpr ⟨(fname, v), hl ▸ List.mem_append_right _ List.mem_cons_self, hi⟩
    rw [h] at hmem
    cases hmem

theorem handles_buildGroupBlob {actual : List (String × Value)} (h : handlesFields actual = [])
    (parent : String) (declared : List (String × Ty)) (groups : List (Option String)) (group : String) :
    Rend.handles (buildGroupBlob parent declared groups actual group).2 = [] := by
  refine handlesFields_eq_nil fun f hf => ?_
  obtain ⟨d, -, rfl⟩ := List.mem_map.mp hf
  exact handles_fieldOrDefault h d.1 d.2

mutual

theorem storesSettled_writeTyped {tx : Tx} (h : tx.StoresSettled) (key : U128) (ty : Ty) {v : Value}
    (hv : Rend.handles v = []) : (tx.writeTyped key ty v).StoresSettled := by
  have hplain : ((tx.force v).1.write key (tx.force v).2).StoresSettled := by
    rw [force_settled hv]
    exact storesSettled_write h hv key
  cases ty with
  | explicitLiteral inner => exact storesSettled_writeTyped h key inner hv
  | struct name fields groups =>
    unfold writeTyped
    rw [force_settled hv] at hplain ⊢
    dsimp only at hplain ⊢
    split
    · next name' actual =>
      exact storesSettled_writeFields h key actual hv (handles_buildGroupBlob hv name fields groups) fields
        groups []
    · exact hplain
  | _ => exact hplain

theorem storesSettled_writeFields {tx : Tx} (h : tx.StoresSettled) (key : U128) {blob : String → Value}
    (actual : List (String × Value)) (hactual : handlesFields actual = [])
    (hblob : ∀ g, Rend.handles (blob g) = []) (fields : List (String × Ty)) (groups : List (Option String))
    (emitted : List String) : (tx.writeFields key blob actual fields groups emitted).StoresSettled := by
  cases fields with
  | nil => exact h
  | cons f fields =>
    obtain ⟨fname, fty⟩ := f
    have hrest := fun {t : Tx} (ht : t.StoresSettled) (emitted : List String) =>
      storesSettled_writeFields ht key actual hactual hblob fields groups.tail emitted
    unfold writeFields
    split
    · exact hrest (storesSettled_writeTyped h _ fty (handles_fieldOrDefault hactual fname fty)) _
    · next g _ =>
      split_ifs
      · exact hrest h _
      · exact hrest (storesSettled_write h (hblob g) _) _

end

/-- Forcing a value first does not change what is written. -/
theorem writeTyped_force {tx : Tx} {v : Value} (hv : containsPending (tx.force v).2 = false) (key : U128) (ty : Ty) :
    tx.writeTyped key ty v = (tx.force v).1.writeTyped key ty (tx.force v).2 := by
  cases ty with
  | explicitLiteral inner => exact writeTyped_force hv key inner
  | struct name fields groups =>
    unfold writeTyped
    rw [force_eq_of_not_pending hv]
  | _ =>
    unfold writeTyped
    rw [force_eq_of_not_pending hv]

end Tx

end Rend
