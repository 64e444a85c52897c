import Rend.Serialize

/-!
# Equality of values

`same` is the equality that the code compares values by (`PartialEq`). It is the equality of what two values are made
of but for JSON objects, which are equal whatever the order of their keys. On values whose objects have each key once
(`Keyed`), as an `IndexMap` has, it is an equivalence (`same_refl`, `same_symm`, `same_trans`), and every value
that is read from bytes is such a value (`keyed_of_deserialize`).
-/

namespace Rend.Ops

open Lib

mutual

/-- `PartialEq` of values. Two JSON objects are equal when they hold the same keys with the same values. -/
def same : Value → Value → Bool
  | .array xs, .array ys => sameList xs ys
  | .set xs, .set ys => sameList xs ys
  | .tuple xs, .tuple ys => sameList xs ys
  | .dict ps, .dict qs => samePairs ps qs
  | .struct n fs, .struct m gs => n = m && sameFields fs gs
  | .enum n v xs, .enum m w ys => n = m && v = w && sameList xs ys
  | .json j, .json k => sameJson j k
  | a, b => a == b

def sameList : List Value → List Value → Bool
  | [], [] => true
  | x :: xs, y :: ys => same x y && sameList xs ys
  | _, _ => false

def samePairs : List (Value × Value) → List (Value × Value) → Bool
  | [], [] => true
  | (k, v) :: ps, (l, w) :: qs => same k l && same v w && samePairs ps qs
  | _, _ => false

def sameFields : List (String × Value) → List (String × Value) → Bool
  | [], [] => true
  | (n, v) :: fs, (m, w) :: gs => n = m && same v w && sameFields fs gs
  | _, _ => false

def sameJson : Json → Json → Bool
  | .null, .null => true
  | .array xs, .array ys => sameList xs ys
  | .object fs, .object gs => fs.length = gs.length && sameEntries fs gs
  | _, _ => false

def sameEntries : List (String × Value) → List (String × Value) → Bool
  | [], _ => true
  | (key, v) :: fs, gs => (match gs.lookup key with | some w => same v w | none => false) && sameEntries fs gs

end

/-- The code takes the values for equal. -/
abbrev Same (v w : Value) : Prop := same v w = true

theorem sameList_iff {xs ys : List Value} : sameList xs ys = true ↔ List.Forall₂ (same · · = true) xs ys := by
  induction xs generalizing ys with
  | nil => cases ys <;> simp [sameList]
  | cons x xs ih => cases ys <;> simp [sameList, ih]

theorem samePairs_iff {ps qs : List (Value × Value)} : samePairs ps qs = true ↔
    List.Forall₂ (fun p q => same p.1 q.1 = true ∧ same p.2 q.2 = true) ps qs := by
  induction ps generalizing qs with
  | nil => cases qs <;> simp [samePairs]
  | cons p ps ih =>
    obtain ⟨k, v⟩ := p
    obtain _ | ⟨⟨l, w⟩, qs⟩ := qs <;> simp [samePairs, ih]

theorem sameFields_iff {fs gs : List (String × Value)} : sameFields fs gs = true ↔
    List.Forall₂ (fun f g => f.1 = g.1 ∧ same f.2 g.2 = true) fs gs := by
  induction fs generalizing gs with
  | nil => cases gs <;> simp [sameFields]
  | cons f fs ih =>
    obtain ⟨n, v⟩ := f
    obtain _ | ⟨⟨m, w⟩, gs⟩ := gs <;> simp [sameFields, ih]

theorem sameEntries_iff {fs gs : List (String × Value)} : sameEntries fs gs = true ↔
    ∀ f ∈ fs, ∃ w, gs.lookup f.1 = some w ∧ same f.2 w = true := by
  induction fs with
  | nil => simp [sameEntries]
  | cons f fs ih =>
    obtain ⟨key, v⟩ := f
    rw [sameEntries, Bool.and_eq_true, ih, List.forall_mem_cons]
    refine and_congr_left fun _ => ?_
    cases gs.lookup key <;> simp

/-! ### What a value equals -/

section Forms

variable {xs ys : List Value} {ps qs : List (Value × Value)} {fs gs : List (String × Value)} {n m v : String}
  {w : Value}

theorem same_array : same (.array xs) w = true ↔ ∃ ys, w = .array ys ∧ List.Forall₂ (same · · = true) xs ys := by
  cases w <;> simp [same, sameList_iff]

theorem same_set : same (.set xs) w = true ↔ ∃ ys, w = .set ys ∧ List.Forall₂ (same · · = true) xs ys := by
  cases w <;> simp [same, sameList_iff]

theorem same_tuple : same (.tuple xs) w = true ↔ ∃ ys, w = .tuple ys ∧ List.Forall₂ (same · · = true) xs ys := by
  cases w <;> simp [same, sameList_iff]

theorem same_dict : same (.dict ps) w = true ↔ ∃ qs, w = .dict qs ∧
    List.Forall₂ (fun p q => same p.1 q.1 = true ∧ same p.2 q.2 = true) ps qs := by
  cases w <;> simp [same, samePairs_iff]

theorem same_struct : same (.struct n fs) w = true ↔ ∃ gs, w = .struct n gs ∧
    List.Forall₂ (fun f g => f.1 = g.1 ∧ same f.2 g.2 = true) fs gs := by
  cases w <;> simp [same, sameFields_iff]
  tauto

theorem same_enum : same (.enum n v xs) w = true ↔ ∃ ys, w = .enum n v ys ∧
    List.Forall₂ (same · · = true) xs ys := by
  cases w <;> simp [same, sameList_iff]
  tauto

theorem same_null : same (.json .null) w = true ↔ w = .json .null := by
  cases w with
  | json j => cases j <;> simp [same, sameJson]
  | _ => simp [same]

theorem same_items : same (.json (.array xs)) w = true ↔ ∃ ys, w = .json (.array ys) ∧
    List.Forall₂ (same · · = true) xs ys := by
  cases w with
  | json j => cases j <;> simp [same, sameJson, sameList_iff]
  | _ => simp [same]

theorem same_object : same (.json (.object fs)) w = true ↔ ∃ gs, w = .json (.object gs) ∧ fs.length = gs.length ∧
    ∀ f ∈ fs, ∃ w, gs.lookup f.1 = some w ∧ same f.2 w = true := by
  cases w with
  | json j => cases j <;> simp [same, sameJson, sameEntries_iff]
  | _ => simp [same]

end Forms

/-! ### Values whose objects have each key once -/

/-- The value is not made of other values. -/
def atomic : Value → Bool
  | .array _ | .set _ | .tuple _ | .dict _ | .struct .. | .enum .. | .json _ => false
  | _ => true

/-- Every JSON object in the value has each key once. -/
inductive Keyed : Value → Prop
  | atom {v : Value} (h : atomic v = true) : Keyed v
  | array {elems : List Value} (h : ∀ v ∈ elems, Keyed v) : Keyed (.array elems)
  | set {elems : List Value} (h : ∀ v ∈ elems, Keyed v) : Keyed (.set elems)
  | tuple {elems : List Value} (h : ∀ v ∈ elems, Keyed v) : Keyed (.tuple elems)
  | dict {pairs : List (Value × Value)} (hkey : ∀ p ∈ pairs, Keyed p.1) (hvalue : ∀ p ∈ pairs, Keyed p.2) :
      Keyed (.dict pairs)
  | struct {name : String} {fields : List (String × Value)} (h : ∀ f ∈ fields, Keyed f.2) : Keyed (.struct name fields)
  | enum {name variant : String} {payload : List Value} (h : ∀ v ∈ payload, Keyed v) :
      Keyed (.enum name variant payload)
  | null : Keyed (.json .null)
  | items {items : List Value} (h : ∀ v ∈ items, Keyed v) : Keyed (.json (.array items))
  | object {fields : List (String × Value)} (hkeys : (fields.map Prod.fst).Nodup) (h : ∀ f ∈ fields, Keyed f.2) :
      Keyed (.json (.object fields))

theorem same_atom {v w : Value} (hv : atomic v = true) : same v w = true ↔ v = w := by
  have heq : same v w = (v == w) := by
    rw [same]
    all_goals
      intros
      subst_vars
      cases hv
  rw [heq, beq_iff_eq]

theorem lookup_of_mem {fs : List (String × Value)} (hkeys : (fs.map Prod.fst).Nodup) {f : String × Value}
    (hf : f ∈ fs) : fs.lookup f.1 = some f.2 := by
  induction fs with
  | nil => cases hf
  | cons g fs ih =>
    obtain ⟨hg, hkeys⟩ := List.nodup_cons.mp hkeys
    rcases List.mem_cons.mp hf with rfl | hf
    · rw [List.lookup_cons, beq_self_eq_true]
    · have hne : (f.1 == g.1) = false := by
        rw [beq_eq_false_iff_ne]
        exact fun h => hg (List.mem_map.mpr ⟨f, hf, h⟩)
      rw [List.lookup_cons, hne]
      exact ih hkeys hf

theorem mem_of_lookup {fs : List (String × Value)} {key : String} {v : Value} (h : fs.lookup key = some v) :
    (key, v) ∈ fs := by
  obtain ⟨l₁, l₂, rfl, -⟩ := List.lookup_eq_some_iff.mp h
  exact List.mem_append_right _ List.mem_cons_self

/-- The code's equality is reflexive. -/
theorem same_refl {v : Value} (hv : Keyed v) : same v v = true := by
  induction hv with
  | atom h => exact (same_atom h).mpr rfl
  | array _ ih => exact same_array.mpr ⟨_, rfl, List.forall₂_same.mpr ih⟩
  | set _ ih => exact same_set.mpr ⟨_, rfl, List.forall₂_same.mpr ih⟩
  | tuple _ ih => exact same_tuple.mpr ⟨_, rfl, List.forall₂_same.mpr ih⟩
  | dict _ _ ihkey ihvalue => exact same_dict.mpr ⟨_, rfl, List.forall₂_same.mpr fun p hp => ⟨ihkey p hp, ihvalue p hp⟩⟩
  | struct _ ih => exact same_struct.mpr ⟨_, rfl, List.forall₂_same.mpr fun f hf => ⟨rfl, ih f hf⟩⟩
  | enum _ ih => exact same_enum.mpr ⟨_, rfl, List.forall₂_same.mpr ih⟩
  | null => exact same_null.mpr rfl
  | items _ ih => exact same_items.mpr ⟨_, rfl, List.forall₂_same.mpr ih⟩
  | object hkeys _ ih => exact same_object.mpr ⟨_, rfl, rfl, fun f hf => ⟨f.2, lookup_of_mem hkeys hf, ih f hf⟩⟩

section Relations

variable {α : Type} {r : α → α → Prop} {xs ys zs : List α}

theorem forall₂_symm (h : List.Forall₂ r xs ys) (hr : ∀ x ∈ xs, ∀ y ∈ ys, r x y → r y x) : List.Forall₂ r ys xs := by
  induction h with
  | nil => exact .nil
  | cons hxy _ ih =>
    refine .cons (hr _ List.mem_cons_self _ List.mem_cons_self hxy) (ih fun x hx y hy => ?_)
    exact hr x (List.mem_cons_of_mem _ hx) y (List.mem_cons_of_mem _ hy)

theorem forall₂_trans (h : List.Forall₂ r xs ys) (h' : List.Forall₂ r ys zs)
    (hr : ∀ x ∈ xs, ∀ y z, r x y → r y z → r x z) : List.Forall₂ r xs zs := by
  induction h generalizing zs with
  | nil =>
    cases h'
    exact .nil
  | cons hxy _ ih =>
    cases h' with
    | cons hyz h' =>
      exact .cons (hr _ List.mem_cons_self _ _ hxy hyz) (ih h' fun x hx => hr x (List.mem_cons_of_mem _ hx))

end Relations

/-- Objects of one size have the same keys if the keys of one are among those of the other. -/
theorem keys_subset {fs gs : List (String × Value)} (hf : (fs.map Prod.fst).Nodup) (hlen : fs.length = gs.length)
    (h : ∀ f ∈ fs, ∃ w, gs.lookup f.1 = some w ∧ same f.2 w = true) : gs.map Prod.fst ⊆ fs.map Prod.fst := by
  have hsub : fs.map Prod.fst ⊆ gs.map Prod.fst := by
    intro key hkey
    obtain ⟨f, hf, rfl⟩ := List.mem_map.mp hkey
    obtain ⟨w, hw, -⟩ := h f hf
    exact List.mem_map.mpr ⟨_, mem_of_lookup hw, rfl⟩
  have hperm : (fs.map Prod.fst).Perm (gs.map Prod.fst) :=
    (hf.subperm hsub).perm_of_length_le (by simp [hlen])
  exact hperm.symm.subset

/-- The code's equality is symmetric. -/
theorem same_symm {v w : Value} (hv : Keyed v) (hw : Keyed w) (h : same v w = true) : same w v = true := by
  induction hv generalizing w with
  | atom hatom =>
    rw [same_atom hatom] at h
    rw [← h]
    exact (same_atom hatom).mpr rfl
  | array _ ih =>
    obtain ⟨ys, rfl, hall⟩ := same_array.mp h
    cases hw with
    | atom hw => cases hw
    | array hys => exact same_array.mpr ⟨_, rfl, forall₂_symm hall fun x hx y hy => ih x hx (hys y hy)⟩
  | set _ ih =>
    obtain ⟨ys, rfl, hall⟩ := same_set.mp h
    cases hw with
    | atom hw => cases hw
    | set hys => exact same_set.mpr ⟨_, rfl, forall₂_symm hall fun x hx y hy => ih x hx (hys y hy)⟩
  | tuple _ ih =>
    obtain ⟨ys, rfl, hall⟩ := same_tuple.mp h
    cases hw with
    | atom hw => cases hw
    | tuple hys => exact same_tuple.mpr ⟨_, rfl, forall₂_symm hall fun x hx y hy => ih x hx (hys y hy)⟩
  | dict _ _ ihkey ihvalue =>
    obtain ⟨qs, rfl, hall⟩ := same_dict.mp h
    cases hw with
    | atom hw => cases hw
    | dict hkey hvalue =>
      refine same_dict.mpr ⟨_, rfl, forall₂_symm hall fun p hp q hq hpq => ?_⟩
      exact ⟨ihkey p hp (hkey q hq) hpq.1, ihvalue p hp (hvalue q hq) hpq.2⟩
  | struct _ ih =>
    obtain ⟨gs, rfl, hall⟩ := same_struct.mp h
    cases hw with
    | atom hw => cases hw
    | struct hgs =>
      refine same_struct.mpr ⟨_, rfl, forall₂_symm hall fun f hf g hg hfg => ?_⟩
      exact ⟨hfg.1.symm, ih f hf (hgs g hg) hfg.2⟩
  | enum _ ih =>
    obtain ⟨ys, rfl, hall⟩ := same_enum.mp h
    cases hw with
    | atom hw => cases hw
    | enum hys => exact same_enum.mpr ⟨_, rfl, forall₂_symm hall fun x hx y hy => ih x hx (hys y hy)⟩
  | null =>
    rw [same_null] at h
    rw [h]
    exact same_null.mpr rfl
  | items _ ih =>
    obtain ⟨ys, rfl, hall⟩ := same_items.mp h
    cases hw with
    | atom hw => cases hw
    | items hys => exact same_items.mpr ⟨_, rfl, forall₂_symm hall fun x hx y hy => ih x hx (hys y hy)⟩
  | object hkeys _ ih =>
    obtain ⟨gs, rfl, hlen, hall⟩ := same_object.mp h
    cases hw with
    | atom hw => cases hw
    | object hgkeys hgs =>
      refine same_object.mpr ⟨_, rfl, hlen.symm, fun g hg => ?_⟩
      obtain ⟨f, hf, hfg⟩ := List.mem_map.mp (keys_subset hkeys hlen hall (List.mem_map_of_mem hg))
      obtain ⟨w, hw, hfw⟩ := hall f hf
      rw [hfg, lookup_of_mem hgkeys hg] at hw
      obtain rfl := Option.some.inj hw
      exact ⟨f.2, hfg ▸ lookup_of_mem hkeys hf, ih f hf (hgs g hg) hfw⟩

/-- The code's equality is transitive. -/
theorem same_trans {u v w : Value} (hu : Keyed u) (huv : same u v = true) (hvw : same v w = true) :
    same u w = true := by
  induction hu generalizing v w with
  | atom hatom =>
    rw [same_atom hatom] at huv
    rwa [huv]
  | array _ ih =>
    obtain ⟨ys, rfl, hxy⟩ := same_array.mp huv
    obtain ⟨zs, rfl, hyz⟩ := same_array.mp hvw
    exact same_array.mpr ⟨_, rfl, forall₂_trans hxy hyz fun x hx y z => ih x hx⟩
  | set _ ih =>
    obtain ⟨ys, rfl, hxy⟩ := same_set.mp huv
    obtain ⟨zs, rfl, hyz⟩ := same_set.mp hvw
    exact same_set.mpr ⟨_, rfl, forall₂_trans hxy hyz fun x hx y z => ih x hx⟩
  | tuple _ ih =>
    obtain ⟨ys, rfl, hxy⟩ := same_tuple.mp huv
    obtain ⟨zs, rfl, hyz⟩ := same_tuple.mp hvw
    exact same_tuple.mpr ⟨_, rfl, forall₂_trans hxy hyz fun x hx y z => ih x hx⟩
  | dict _ _ ihkey ihvalue =>
    obtain ⟨qs, rfl, hpq⟩ := same_dict.mp huv
    obtain ⟨rs, rfl, hqr⟩ := same_dict.mp hvw
    refine same_dict.mpr ⟨_, rfl, forall₂_trans hpq hqr fun p hp q r hpq hqr => ?_⟩
    exact ⟨ihkey p hp hpq.1 hqr.1, ihvalue p hp hpq.2 hqr.2⟩
  | struct _ ih =>
    obtain ⟨gs, rfl, hfg⟩ := same_struct.mp huv
    obtain ⟨hs, rfl, hgh⟩ := same_struct.mp hvw
    refine same_struct.mpr ⟨_, rfl, forall₂_trans hfg hgh fun f hf g h hfg hgh => ?_⟩
    exact ⟨hfg.1.trans hgh.1, ih f hf hfg.2 hgh.2⟩
  | enum _ ih =>
    obtain ⟨ys, rfl, hxy⟩ := same_enum.mp huv
    obtain ⟨zs, rfl, hyz⟩ := same_enum.mp hvw
    exact same_enum.mpr ⟨_, rfl, forall₂_trans hxy hyz fun x hx y z => ih x hx⟩
  | null =>
    rw [same_null] at huv
    rwa [huv] at hvw
  | items _ ih =>
    obtain ⟨ys, rfl, hxy⟩ := same_items.mp huv
    obtain ⟨zs, rfl, hyz⟩ := same_items.mp hvw
    exact same_items.mpr ⟨_, rfl, forall₂_trans hxy hyz fun x hx y z => ih x hx⟩
  | object _ _ ih =>
    obtain ⟨gs, rfl, hlen, hfg⟩ := same_object.mp huv
    obtain ⟨hs, rfl, hlen', hgh⟩ := same_object.mp hvw
    refine same_object.mpr ⟨_, rfl, hlen.trans hlen', fun f hf => ?_⟩
    obtain ⟨g, hg, hfg⟩ := hfg f hf
    obtain ⟨h, hh, hgh⟩ := hgh (f.1, g) (mem_of_lookup hg)
    exact ⟨h, hh, ih f hf hfg hgh⟩

/-! ### What is read from bytes -/

theorem keyed_of_map {α : Type} {o : Option α} {f : α → Value} {v : Value} (hf : ∀ x, atomic (f x) = true)
    (h : o.map f = some v) : Keyed v := by
  obtain ⟨x, -, rfl⟩ := Option.map_eq_some_iff.mp h
  exact .atom (hf x)

theorem keyed_deserializeBool {bs : Bytes} {v : Value} (h : deserializeBool bs = some v) : Keyed v := by
  simp only [deserializeBool, Option.bind_eq_bind, Option.bind_eq_some_iff] at h
  obtain ⟨rest, -, hv⟩ := h
  split_ifs at hv <;> cases hv <;> exact .atom rfl

theorem keyed_deserializeJsonWith {js : Bytes → Option Json} (hjs : ∀ b j, js b = some j → Keyed (.json j))
    {bs : Bytes} {v : Value} (h : deserializeJsonWith js bs = some v) : Keyed v := by
  rw [deserializeJsonWith] at h
  split_ifs at h
  · obtain ⟨j, hj, rfl⟩ := Option.map_eq_some_iff.mp h
    exact hjs _ j hj
  · simp only [Option.or_eq_some_iff] at h
    rcases h with h | ⟨-, h | ⟨-, h | ⟨-, h | ⟨-, h⟩⟩⟩⟩
    · exact keyed_of_map (fun _ => rfl) h
    · exact keyed_of_map (fun _ => rfl) h
    · exact keyed_of_map (fun _ => rfl) h
    · exact keyed_deserializeBool h
    · exact keyed_of_map (fun _ => rfl) h

theorem keyed_of_jsonDeserializeFuel {fuel : ℕ} {bs : Bytes} {j : Json} (h : jsonDeserializeFuel fuel bs = some j) :
    Keyed (.json j) := by
  induction fuel generalizing bs j with
  | zero => cases h
  | succ fuel ih =>
    have hread : ∀ b v, deserializeJsonWith (jsonDeserializeFuel fuel) b = some v → Keyed v :=
      fun b v hv => keyed_deserializeJsonWith (fun _ _ => ih) hv
    rw [jsonDeserializeFuel] at h
    dsimp only at h
    split_ifs at h
    · cases h
      exact .null
    · simp only [Option.bind_eq_bind, Option.bind_eq_some_iff] at h
      obtain ⟨n, -, r, hr, hend⟩ := h
      split_ifs at hend
      cases hend
      refine .items fun v hv => ?_
      obtain ⟨-, b, -, -, hb⟩ := mem_of_readLoop hr hv
      exact hread b v hb
    · simp only [Option.bind_eq_bind, Option.bind_eq_some_iff] at h
      obtain ⟨n, -, r, hr, hend⟩ := h
      split_ifs at hend
      cases hend
      refine .object (nodup_of_readObject (m := []) List.nodup_nil hr) fun f hf => ?_
      obtain hf | ⟨b, hb⟩ := mem_of_readObject hr hf
      · cases hf
      · exact hread b _ hb

mutual

/-- **A value of the store has each key of an object once.** -/
theorem keyed_of_deserialize (ty : Ty) {bs : Bytes} {v : Value} (h : deserialize ty bs = some v) : Keyed v := by
  cases ty with
  | explicitLiteral inner => exact keyed_of_deserialize inner (by rwa [deserialize] at h)
  | array elem =>
    simp only [deserialize, Option.bind_eq_bind, Option.bind_eq_some_iff] at h
    obtain ⟨rest, -, n, -, r, hr, heq⟩ := h
    cases heq
    refine .array fun v hv => ?_
    obtain ⟨-, b, -, -, hb⟩ := mem_of_readLoop hr hv
    exact keyed_of_deserialize elem hb
  | struct name fields groups =>
    simp only [deserialize, Option.bind_eq_bind, Option.bind_eq_some_iff] at h
    obtain ⟨rest, -, vs, hvs, heq⟩ := h
    cases heq
    exact .struct (keyed_of_deserializeFields fields hvs)
  | cap name fields owner =>
    simp only [deserialize, Option.bind_eq_bind, Option.bind_eq_some_iff] at h
    obtain ⟨rest, -, vs, hvs, heq⟩ := h
    cases heq
    exact .struct (keyed_of_deserializeFields fields hvs)
  | bool => exact keyed_deserializeBool h
  | json => exact keyed_deserializeJsonWith (fun _ _ => keyed_of_jsonDeserializeFuel) h
  | enum name variants =>
    simp only [deserialize, Option.bind_eq_bind, Option.bind_eq_some_iff] at h
    obtain ⟨rest, -, nameLen, -, variant, -, vs, hvs, heq⟩ := h
    cases heq
    exact .enum (keyed_of_deserializeVariant variants hvs)
  | pvec elem =>
    simp only [deserialize, Option.bind_eq_bind, Option.bind_eq_some_iff] at h
    obtain ⟨rest, -, len, -, root, -, heq⟩ := h
    cases heq
    exact .atom rfl
  | interface name methods =>
    simp only [deserialize, Option.bind_eq_bind, Option.bind_eq_some_iff] at h
    obtain ⟨rest, -, ilen, -, iface, -, mlen, -, target, -, heq⟩ := h
    cases heq
    exact .atom rfl
  | set elem => cases h
  | dict k v => cases h
  | map k v => cases h
  | tuple elems => cases h
  | _ => exact keyed_of_map (fun _ => rfl) h

theorem keyed_of_deserializeFields (fields : List (String × Ty)) {bs : Bytes} {cursor : ℕ}
    {vs : List (String × Value)} (h : deserializeFields fields bs cursor = some vs) : ∀ f ∈ vs, Keyed f.2 := by
  cases fields with
  | nil =>
    cases h
    exact fun f hf => by cases hf
  | cons f fs =>
    obtain ⟨n, t⟩ := f
    simp only [deserializeFields, Option.bind_eq_bind, Option.bind_eq_some_iff] at h
    obtain ⟨rest, -, consumed, -, body, -, v, hv, vs', hvs, heq⟩ := h
    cases heq
    exact List.forall_mem_cons.mpr ⟨keyed_of_deserialize t hv, keyed_of_deserializeFields fs hvs⟩

theorem keyed_of_deserializeList (tys : List Ty) {bs : Bytes} {cursor : ℕ} {vs : List Value}
    (h : deserializeList tys bs cursor = some vs) : ∀ v ∈ vs, Keyed v := by
  cases tys with
  | nil =>
    cases h
    exact fun v hv => by cases hv
  | cons t ts =>
    simp only [deserializeList, Option.bind_eq_bind, Option.bind_eq_some_iff] at h
    obtain ⟨rest, -, consumed, -, body, -, v, hv, vs', hvs, heq⟩ := h
    cases heq
    exact List.forall_mem_cons.mpr ⟨keyed_of_deserialize t hv, keyed_of_deserializeList ts hvs⟩

theorem keyed_of_deserializeVariant (variants : List (String × List Ty)) {variant : String} {bs : Bytes}
    {cursor : ℕ} {vs : List Value} (h : deserializeVariant variants variant bs cursor = some vs) :
    ∀ v ∈ vs, Keyed v := by
  cases variants with
  | nil => cases h
  | cons p variants =>
    obtain ⟨n, ts⟩ := p
    rw [deserializeVariant] at h
    split_ifs at h
    · exact keyed_of_deserializeList ts h
    · exact keyed_of_deserializeVariant variants h

end

end Rend.Ops
