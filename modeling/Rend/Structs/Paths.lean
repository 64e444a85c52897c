import Rend.Structs.Assemble

/-!
# Paths into structs

A path of field names leads into a struct value in memory, and into the cells of a struct type in the
store: the compiler follows it from cell to cell until it meets a group, and the rest of the path leads
into the value of the blob (`intern_path`). `Stores` says that cells hold a value of a type; it carries
reads and writes along paths from the cells to the value in memory (`stores_get`, `stores_set`).

Two leaves of a type have distinct paths if the type is `Proper`: a name stands for one thing only.
-/

namespace Rend.Structs

open Lib

attribute [local irreducible] child

/-! ### Structs in memory -/

/-- `FieldGet` on a value. -/
def getField (v : Value) (name : String) : Option Value :=
  match v with
  | .struct _ fields => fields.lookup name
  | _ => none

/-- Replaces the first field of a name. -/
def replaceField (name : String) (w : Value) : List (String × Value) → List (String × Value)
  | [] => []
  | (n, v) :: fields => if n = name then (n, w) :: fields else (n, v) :: replaceField name w fields

/-- `FieldSet` on a value. -/
def setField (v : Value) (name : String) (w : Value) : Option Value :=
  match v with
  | .struct sname fields =>
    if (fields.lookup name).isSome then some (.struct sname (replaceField name w fields)) else none
  | _ => none

def getPath : List String → Value → Option Value
  | [], v => some v
  | name :: path, v => (getField v name).bind (getPath path)

/-- Assigns to a path: the struct at its end is changed, and put back into each struct above it. -/
def setPath : List String → Value → Value → Option Value
  | [], _, w => some w
  | [name], v, w => setField v name w
  | name :: path, v, w => (getField v name).bind fun c => (setPath path c w).bind fun c' => setField v name c'

theorem lookup_replaceField {name : String} {w : Value} {fields : List (String × Value)}
    (h : (fields.lookup name).isSome) (m : String) :
    (replaceField name w fields).lookup m = if m = name then some w else fields.lookup m := by
  induction fields with
  | nil => cases h
  | cons f fields ih =>
    obtain ⟨n, v⟩ := f
    rw [replaceField]
    by_cases hn : n = name
    · subst hn
      rw [if_pos rfl, List.lookup_cons, List.lookup_cons]
      by_cases hm : m = n
      · subst hm
        rw [beq_self_eq_true, if_pos rfl]
      · rw [beq_false_of_ne hm, if_neg hm]
    · rw [List.lookup_cons, beq_false_of_ne (Ne.symm hn)] at h
      rw [if_neg hn, List.lookup_cons, ih h, List.lookup_cons]
      by_cases hm : m = n
      · subst hm
        simp only [beq_self_eq_true, if_neg hn]
      · rw [beq_false_of_ne hm]

/-- What assigning to a field gives. -/
theorem setField_eq_some {v v' w : Value} {name : String} (h : setField v name w = some v') :
    (getField v name).isSome ∧ ∀ m, getField v' m = if m = name then some w else getField v m := by
  unfold setField at h
  split at h
  · next sname fields =>
    split_ifs at h with hname
    cases h
    exact ⟨hname, lookup_replaceField hname⟩
  · cases h

theorem setField_isSome (v : Value) (name : String) (w : Value) :
    (setField v name w).isSome = (getField v name).isSome := by
  unfold setField getField
  split
  · split_ifs with h
    · exact h.symm
    · exact (Bool.not_eq_true _ ▸ h).symm
  · rfl

theorem setPath_cons (name : String) (path : List String) (v w : Value) :
    setPath (name :: path) v w =
      (getField v name).bind fun c => (setPath path c w).bind fun c' => setField v name c' := by
  cases path with
  | nil =>
    rw [setPath]
    cases hg : getField v name with
    | some c => rfl
    | none =>
      have hs := setField_isSome v name w
      rw [hg] at hs
      exact Option.not_isSome_iff_eq_none.mp (by rw [hs]; exact Bool.false_ne_true)
  | cons n path => rfl

theorem setPath_eq_some {name : String} {path : List String} {v w v' : Value}
    (h : setPath (name :: path) v w = some v') :
    ∃ c c', getField v name = some c ∧ setPath path c w = some c' ∧ setField v name c' = some v' := by
  rw [setPath_cons] at h
  obtain ⟨c, hc, h⟩ := Option.bind_eq_some_iff.mp h
  obtain ⟨c', hc', h⟩ := Option.bind_eq_some_iff.mp h
  exact ⟨c, c', hc, hc', h⟩

theorem setPath_struct {sname name : String} {path : List String} {vs : List (String × Value)} {v v' w : Value}
    (hv : vs.lookup name = some v) (h : setPath path v w = some v') :
    setPath (name :: path) (.struct sname vs) w = some (.struct sname (replaceField name v' vs)) := by
  rw [setPath_cons, getField, hv, Option.bind_some, h, Option.bind_some, setField, hv,
    if_pos Option.isSome_some]

/-- A path can be assigned to as far as it can be read. -/
theorem setPath_isSome (path : List String) (v w : Value) :
    (setPath path v w).isSome = (getPath path v).isSome := by
  induction path generalizing v with
  | nil => rfl
  | cons name path ih =>
    rw [setPath_cons, getPath]
    cases hg : getField v name with
    | none => rfl
    | some c =>
      rw [Option.bind_some, Option.bind_some, ← ih c]
      cases hs : setPath path c w with
      | none => rfl
      | some c' => rw [Option.bind_some, setField_isSome, hg]; rfl

/-- **An assignment changes no other field**: a path that neither leads through the assigned one nor is
led through by it reads the same. -/
theorem getPath_setPath {p q : List String} {v w v' : Value} (h : setPath p v w = some v') (hpq : ¬ p <+: q)
    (hqp : ¬ q <+: p) : getPath q v' = getPath q v := by
  induction p generalizing q v v' with
  | nil => exact absurd List.nil_prefix hpq
  | cons name p ih =>
    cases q with
    | nil => exact absurd List.nil_prefix hqp
    | cons m q =>
      obtain ⟨c, c', hc, hset, hv'⟩ := setPath_eq_some h
      rw [getPath, getPath, (setField_eq_some hv').2]
      by_cases hm : m = name
      · subst hm
        rw [if_pos rfl, hc]
        exact ih hset (fun hp => hpq (List.prefix_cons_inj m |>.mpr hp))
          (fun hp => hqp (List.prefix_cons_inj m |>.mpr hp))
      · rw [if_neg hm]

/-! ### Leaves by path -/

mutual

/-- The leaves of a type: the path to each from the cell of the type, and the type it is stored at. -/
def leafPaths : Ty → List (List String × Ty)
  | .explicitLiteral inner => leafPaths inner
  | .struct name fields groups => fieldPaths (groupTy name fields groups) fields groups []
  | ty => [([], ty)]
  termination_by structural x => x

def fieldPaths (blob : String → Ty) :
    List (String × Ty) → List (Option String) → List String → List (List String × Ty)
  | [], _, _ => []
  | (fname, fty) :: fields, groups, emitted =>
    match groups.headD none with
    | none => (leafPaths fty).map (fun l => (fname :: l.1, l.2)) ++ fieldPaths blob fields groups.tail emitted
    | some g =>
      if g ∈ emitted then fieldPaths blob fields groups.tail emitted
      else ([g], blob g) :: fieldPaths blob fields groups.tail (g :: emitted)
  termination_by structural x => x

end

/-- The cell that a path leads to. -/
def pathCell : U128 → List String → U128
  | key, [] => key
  | key, name :: path => pathCell (child key (strBytes name)) path

def cellAt (key : U128) (leaf : List String × Ty) : U128 × Ty := (pathCell key leaf.1, leaf.2)

theorem cellAt_cons (key : U128) (name : String) (leaves : List (List String × Ty)) :
    (leaves.map fun l => (name :: l.1, l.2)).map (cellAt key) = leaves.map (cellAt (child key (strBytes name))) := by
  rw [List.map_map]
  refine List.map_congr_left fun l _ => ?_
  rw [Function.comp_apply, cellAt, cellAt, pathCell]

theorem pathCell_group (key : U128) (g : String) : pathCell key [g] = child key (strBytes g) := by
  rw [pathCell, pathCell]

theorem cellAt_group (key : U128) (g : String) (ty : Ty) : cellAt key ([g], ty) = (child key (strBytes g), ty) := by
  rw [cellAt, pathCell_group]

mutual

/-- The leaves that a read collects are those the paths lead to. -/
theorem collectLeaves_paths (key : U128) (ty : Ty) (acc : Leaves) :
    (collectLeaves key ty acc).1 = acc ++ (leafPaths ty).map (cellAt key) := by
  cases ty with
  | explicitLiteral inner => exact collectLeaves_paths key inner acc
  | struct name fields groups =>
    rw [collectLeaves, leafPaths]
    exact collectFields_paths key (groupTy name fields groups) fields groups [] [] acc fun g => by simp
  | _ => rfl

theorem collectFields_paths (key : U128) (blob : String → Ty) (fields : List (String × Ty))
    (groups : List (Option String)) (seen : List (String × ℕ)) (emitted : List String) (acc : Leaves)
    (hseen : ∀ g, (seen.lookup g).isSome ↔ g ∈ emitted) :
    (collectFields key blob fields groups seen acc).1 =
      acc ++ (fieldPaths blob fields groups emitted).map (cellAt key) := by
  cases fields with
  | nil => exact (List.append_nil acc).symm
  | cons f fields =>
    obtain ⟨fname, fty⟩ := f
    unfold collectFields fieldPaths
    cases hg : groups.headD none with
    | none =>
      dsimp only
      rw [collectFields_paths key blob fields groups.tail seen emitted _ hseen,
        collectLeaves_paths (child key (strBytes fname)) fty acc, List.map_append, cellAt_cons, List.append_assoc]
    | some g =>
      dsimp only
      cases hi : seen.lookup g with
      | some i =>
        rw [if_pos ((hseen g).mp (by rw [hi]; rfl))]
        exact collectFields_paths key blob fields groups.tail seen emitted acc hseen
      | none =>
        rw [if_neg (fun hmem => by rw [← hseen g, hi] at hmem; cases hmem)]
        dsimp only
        rw [collectFields_paths key blob fields groups.tail ((g, acc.length) :: seen) (g :: emitted) _ (by
          intro g'
          rw [List.lookup_cons, List.mem_cons]
          by_cases hgg : g' = g
          · subst hgg
            simp
          · rw [beq_false_of_ne hgg]
            simpa [hgg] using hseen g'), List.append_assoc, List.map_cons, cellAt_group, List.singleton_append]

end

/-! ### Names that stand for one thing -/

/-- The type is split into the leaves of its fields. -/
def Splits : Ty → Prop
  | .explicitLiteral inner => Splits inner
  | .struct _ _ _ => True
  | _ => False

/-- A field, with its group. -/
def FieldAt (fields : List (String × Ty)) (groups : List (Option String)) (f : String × Ty) (group : Option String) :
    Prop :=
  ∃ i, fields[i]? = some f ∧ groups.getD i none = group

theorem fieldAt_cons {f f' : String × Ty} {fields : List (String × Ty)} {groups : List (Option String)}
    {group : Option String} : FieldAt (f :: fields) groups f' group ↔
      (f' = f ∧ group = groups.headD none) ∨ FieldAt fields groups.tail f' group := by
  constructor
  · rintro ⟨i, hf, hg⟩
    cases i with
    | zero =>
      refine .inl ⟨(Option.some.inj hf).symm, hg ▸ ?_⟩
      cases groups <;> rfl
    | succ i =>
      refine .inr ⟨i, hf, hg ▸ ?_⟩
      cases groups <;> rfl
  · rintro (⟨rfl, rfl⟩ | ⟨i, hf, rfl⟩)
    · refine ⟨0, rfl, ?_⟩
      cases groups <;> rfl
    · refine ⟨i + 1, hf, ?_⟩
      cases groups <;> rfl

theorem FieldAt.mem {fields : List (String × Ty)} {groups : List (Option String)} {f : String × Ty}
    {group : Option String} (h : FieldAt fields groups f group) : f ∈ fields := by
  obtain ⟨i, hi, -⟩ := h
  exact List.mem_of_getElem? hi

/-- The names of a struct are distinct, and a field that has a cell of its own is not named as a group. -/
structure NamesApart (fields : List (String × Ty)) (groups : List (Option String)) : Prop where
  nodup : (fields.map Prod.fst).Nodup
  group : ∀ f f' g, FieldAt fields groups f none → FieldAt fields groups f' (some g) → f.1 = g → Splits f.2

mutual

/-- In every struct that is split the names stand for one thing. -/
def Proper : Ty → Prop
  | .explicitLiteral inner => Proper inner
  | .struct _ fields groups => NamesApart fields groups ∧ ProperFields fields groups
  | _ => True
  termination_by structural x => x

/-- The fields outside groups are proper. -/
def ProperFields : List (String × Ty) → List (Option String) → Prop
  | [], _ => True
  | (_, fty) :: fields, groups => (groups.headD none = none → Proper fty) ∧ ProperFields fields groups.tail
  termination_by structural x => x

end

theorem ProperFields.of_fieldAt {fields : List (String × Ty)} {groups : List (Option String)}
    (h : ProperFields fields groups) {f : String × Ty} (hf : FieldAt fields groups f none) : Proper f.2 := by
  induction fields generalizing groups with
  | nil => obtain ⟨i, hi, -⟩ := hf; cases hi
  | cons f' fields ih =>
    obtain ⟨hhead, hrest⟩ := h
    rcases fieldAt_cons.mp hf with ⟨rfl, hg⟩ | hf
    · exact hhead hg.symm
    · exact ih hrest hf

/-- The leaves of the fields of a struct: those of the fields with cells of their own, and the blobs. -/
theorem mem_fieldPaths {blob : String → Ty} {fields : List (String × Ty)} {groups : List (Option String)}
    {emitted : List String} {l : List String × Ty} : l ∈ fieldPaths blob fields groups emitted ↔
      (∃ f, FieldAt fields groups f none ∧ ∃ l' ∈ leafPaths f.2, l = (f.1 :: l'.1, l'.2)) ∨
        ∃ f g, FieldAt fields groups f (some g) ∧ g ∉ emitted ∧ l = ([g], blob g) := by
  induction fields generalizing groups emitted with
  | nil =>
    refine iff_of_false (fun h => by cases h) ?_
    rintro (⟨f, hf, -⟩ | ⟨f, g, hf, -⟩)
    · cases hf.mem
    · cases hf.mem
  | cons f fields ih =>
    obtain ⟨fname, fty⟩ := f
    unfold fieldPaths
    cases hg : groups.headD none with
    | none =>
      dsimp only
      rw [List.mem_append, ih]
      constructor
      · rintro (h | ⟨f, hf, h⟩ | ⟨f, g, hf, h⟩)
        · obtain ⟨l', hl', rfl⟩ := List.mem_map.mp h
          exact .inl ⟨(fname, fty), fieldAt_cons.mpr (.inl ⟨rfl, hg.symm⟩), l', hl', rfl⟩
        · exact .inl ⟨f, fieldAt_cons.mpr (.inr hf), h⟩
        · exact .inr ⟨f, g, fieldAt_cons.mpr (.inr hf), h⟩
      · rintro (⟨f, hf, l', hl', rfl⟩ | ⟨f, g, hf, h⟩)
        · rcases fieldAt_cons.mp hf with ⟨rfl, -⟩ | hf
          · exact .inl (List.mem_map.mpr ⟨l', hl', rfl⟩)
          · exact .inr (.inl ⟨f, hf, l', hl', rfl⟩)
        · rcases fieldAt_cons.mp hf with ⟨rfl, he⟩ | hf
          · rw [hg] at he
            cases he
          · exact .inr (.inr ⟨f, g, hf, h⟩)
    | some g =>
      have hhead : FieldAt ((fname, fty) :: fields) groups (fname, fty) (some g) :=
        fieldAt_cons.mpr (.inl ⟨rfl, hg.symm⟩)
      dsimp only
      split_ifs with hmem
      · rw [ih]
        constructor
        · rintro (⟨f, hf, h⟩ | ⟨f, g', hf, h⟩)
          · exact .inl ⟨f, fieldAt_cons.mpr (.inr hf), h⟩
          · exact .inr ⟨f, g', fieldAt_cons.mpr (.inr hf), h⟩
        · rintro (⟨f, hf, h⟩ | ⟨f, g', hf, hout, h⟩)
          · rcases fieldAt_cons.mp hf with ⟨-, he⟩ | hf
            · rw [hg] at he
              cases he
            · exact .inl ⟨f, hf, h⟩
          · rcases fieldAt_cons.mp hf with ⟨-, he⟩ | hf
            · rw [hg] at he
              cases he
              exact absurd hmem hout
            · exact .inr ⟨f, g', hf, hout, h⟩
      · rw [List.mem_cons, ih]
        constructor
        · rintro (rfl | ⟨f, hf, h⟩ | ⟨f, g', hf, hout, h⟩)
          · exact .inr ⟨_, g, hhead, hmem, rfl⟩
          · exact .inl ⟨f, fieldAt_cons.mpr (.inr hf), h⟩
          · exact .inr ⟨f, g', fieldAt_cons.mpr (.inr hf), fun h' => hout (List.mem_cons_of_mem _ h'), h⟩
        · rintro (⟨f, hf, h⟩ | ⟨f, g', hf, hout, rfl⟩)
          · rcases fieldAt_cons.mp hf with ⟨-, he⟩ | hf
            · rw [hg] at he
              cases he
            · exact .inr (.inl ⟨f, hf, h⟩)
          · by_cases hgg : g' = g
            · exact .inl (by rw [hgg])
            · rcases fieldAt_cons.mp hf with ⟨-, he⟩ | hf
              · rw [hg] at he
                exact absurd (Option.some.inj he) hgg
              · refine .inr (.inr ⟨f, g', hf, fun h' => ?_, rfl⟩)
                exact (List.mem_cons.mp h').elim hgg hout

/-- The leaves of a field with cells of its own. -/
theorem mem_fieldPath {sname : String} {fields : List (String × Ty)} {groups : List (Option String)} {f : String × Ty}
    (hf : FieldAt fields groups f none) {l : List String × Ty} (hl : l ∈ leafPaths f.2) :
    (f.1 :: l.1, l.2) ∈ leafPaths (.struct sname fields groups) :=
  mem_fieldPaths.mpr (.inl ⟨f, hf, l, hl, rfl⟩)

/-- The blob of a group. -/
theorem mem_groupPath {sname : String} {fields : List (String × Ty)} {groups : List (Option String)} {f : String × Ty}
    {g : String} (hf : FieldAt fields groups f (some g)) :
    ([g], groupTy sname fields groups g) ∈ leafPaths (.struct sname fields groups) :=
  mem_fieldPaths.mpr (.inr ⟨f, g, hf, List.not_mem_nil, rfl⟩)

/-- A type that is split has no leaf at its own cell. -/
theorem ne_nil_of_splits {ty : Ty} (h : Splits ty) {l : List String × Ty} (hl : l ∈ leafPaths ty) : l.1 ≠ [] := by
  cases ty with
  | explicitLiteral inner => exact @ne_nil_of_splits inner h l hl
  | struct name fields groups =>
    rcases mem_fieldPaths.mp hl with ⟨f, -, l', -, rfl⟩ | ⟨f, g, -, -, rfl⟩ <;> exact List.cons_ne_nil _ _
  | _ => exact h.elim

/-- Distinct leaves of a type have distinct cells. -/
def CellsApart (key : U128) (ty : Ty) : Prop :=
  ∀ l ∈ leafPaths ty, ∀ l' ∈ leafPaths ty, pathCell key l.1 = pathCell key l'.1 → l.1 = l'.1

theorem CellsApart.field {key : U128} {name : String} {fields : List (String × Ty)} {groups : List (Option String)}
    (h : CellsApart key (.struct name fields groups)) {f : String × Ty} (hf : FieldAt fields groups f none) :
    CellsApart (child key (strBytes f.1)) f.2 := by
  intro l hl l' hl' heq
  have hpath := h _ (mem_fieldPath hf hl) _ (mem_fieldPath hf hl') (by rw [pathCell, pathCell, heq])
  exact (List.cons.inj hpath).2

/-! ### Cells that hold a value -/

mutual

/-- The cells of a type hold a value: a struct has each field in its own cells, or in the blob of its
group. -/
def Stores (V : U128 → Value) (key : U128) : Ty → Value → Prop
  | .explicitLiteral inner, v => Stores V key inner v
  | .struct name fields groups, v => ∃ vs, v = .struct name vs ∧ StoresFields V key fields groups vs
  | _, v => V key = v
  termination_by structural x => x

def StoresFields (V : U128 → Value) (key : U128) :
    List (String × Ty) → List (Option String) → List (String × Value) → Prop
  | [], _, vs => vs = []
  | (fname, fty) :: fields, groups, vs => ∃ v rest, vs = (fname, v) :: rest ∧
      (match groups.headD none with
        | none => Stores V (child key (strBytes fname)) fty v
        | some g => getField (V (child key (strBytes g))) fname = some v) ∧
      StoresFields V key fields groups.tail rest
  termination_by structural x => x

end

/-- The cells of a field hold a value. -/
def StoresField (V : U128 → Value) (key : U128) (f : String × Ty) (group : Option String) (v : Value) : Prop :=
  match group with
  | none => Stores V (child key (strBytes f.1)) f.2 v
  | some g => getField (V (child key (strBytes g))) f.1 = some v

theorem storesFields_cons {V : U128 → Value} {key : U128} {f : String × Ty} {fields : List (String × Ty)}
    {groups : List (Option String)} {vs : List (String × Value)} :
    StoresFields V key (f :: fields) groups vs ↔ ∃ v rest, vs = (f.1, v) :: rest ∧
      StoresField V key f (groups.headD none) v ∧ StoresFields V key fields groups.tail rest := by
  rw [StoresFields]
  rfl

variable {V V' : U128 → Value} {key : U128}

theorem projectField_of_getField {v w : Value} {name : String} (h : getField v name = some w) :
    projectField v name = w := by
  cases v with
  | struct sname fields =>
    rw [getField] at h
    rw [projectField, h, Option.getD_some]
  | _ => cases h

mutual

/-- What is stored is what a read puts together. -/
theorem Stores.assemble {ty : Ty} {key : U128} {v : Value} (h : Stores V key ty v) :
    assemble (fun c _ => V c) key ty = v := by
  cases ty with
  | explicitLiteral inner => exact @Stores.assemble inner key v h
  | struct name fields groups =>
    obtain ⟨vs, rfl, hvs⟩ := h
    rw [Rend.assemble, StoresFields.assemble hvs]
  | _ => exact h

theorem StoresFields.assemble {blob : String → Ty} {fields : List (String × Ty)} {groups : List (Option String)}
    {key : U128} {vs : List (String × Value)} (h : StoresFields V key fields groups vs) :
    assembleFields (fun c _ => V c) key blob fields groups = vs := by
  cases fields with
  | nil => exact h.symm
  | cons f fields =>
    obtain ⟨v, rest, rfl, hfield, hrest⟩ := h
    rw [assembleFields, StoresFields.assemble hrest]
    congr 2
    cases hg : groups.headD none with
    | none =>
      rw [hg] at hfield
      exact Stores.assemble hfield
    | some g =>
      rw [hg] at hfield
      exact projectField_of_getField hfield

end

mutual

/-- A value stays stored as long as the leaves of its type stay as they are. -/
theorem Stores.congr {ty : Ty} {key : U128} {v : Value} (h : Stores V key ty v)
    (hV : ∀ l ∈ leafPaths ty, V' (pathCell key l.1) = V (pathCell key l.1)) : Stores V' key ty v := by
  cases ty with
  | explicitLiteral inner => exact @Stores.congr inner key v h hV
  | struct name fields groups =>
    obtain ⟨vs, rfl, hvs⟩ := h
    refine ⟨vs, rfl, StoresFields.congr hvs (fun f hf l hl => ?_) fun f g hf => ?_⟩
    · rw [← pathCell]
      exact hV _ (mem_fieldPath hf hl)
    · have hcell := hV _ (mem_groupPath hf)
      rwa [pathCell_group] at hcell
  | _ =>
    have hcell := hV ([], _) List.mem_cons_self
    rw [pathCell] at hcell
    exact hcell.trans h

theorem StoresFields.congr {fields : List (String × Ty)} {groups : List (Option String)} {key : U128}
    {vs : List (String × Value)} (h : StoresFields V key fields groups vs)
    (hnone : ∀ f, FieldAt fields groups f none → ∀ l ∈ leafPaths f.2,
      V' (pathCell (child key (strBytes f.1)) l.1) = V (pathCell (child key (strBytes f.1)) l.1))
    (hsome : ∀ f g, FieldAt fields groups f (some g) → V' (child key (strBytes g)) = V (child key (strBytes g))) :
    StoresFields V' key fields groups vs := by
  cases fields with
  | nil => exact h
  | cons f fields =>
    obtain ⟨v, rest, rfl, hfield, hrest⟩ := h
    refine ⟨v, rest, rfl, ?_, StoresFields.congr hrest (fun f hf => hnone f (fieldAt_cons.mpr (.inr hf)))
      fun f g hf => hsome f g (fieldAt_cons.mpr (.inr hf))⟩
    cases hg : groups.headD none with
    | none =>
      rw [hg] at hfield
      exact Stores.congr hfield (hnone f (fieldAt_cons.mpr (.inl ⟨rfl, hg.symm⟩)))
    | some g =>
      rw [hg] at hfield
      dsimp only at hfield ⊢
      rw [hsome f g (fieldAt_cons.mpr (.inl ⟨rfl, hg.symm⟩))]
      exact hfield

end

/-- A field with cells of its own keeps its value as long as its leaves stay as they are. -/
theorem StoresField.none_congr {f : String × Ty} {v : Value} (h : StoresField V key f none v)
    (hV : ∀ l ∈ leafPaths f.2, V' (pathCell key (f.1 :: l.1)) = V (pathCell key (f.1 :: l.1))) :
    StoresField V' key f none v := by
  refine Stores.congr (V := V) h fun l hl => ?_
  rw [← pathCell]
  exact hV l hl

/-- A field by its name. -/
theorem StoresFields.field {fields : List (String × Ty)} {groups : List (Option String)}
    {vs : List (String × Value)} (h : StoresFields V key fields groups vs) (hnodup : (fields.map Prod.fst).Nodup)
    {f : String × Ty} {group : Option String} (hf : FieldAt fields groups f group) :
    ∃ v, vs.lookup f.1 = some v ∧ StoresField V key f group v := by
  induction fields generalizing groups vs with
  | nil => cases hf.mem
  | cons f' fields ih =>
    obtain ⟨v, rest, rfl, hfield, hrest⟩ := storesFields_cons.mp h
    obtain ⟨hout, hnodup⟩ := List.nodup_cons.mp hnodup
    rcases fieldAt_cons.mp hf with ⟨rfl, rfl⟩ | hf
    · exact ⟨v, by rw [List.lookup_cons, beq_self_eq_true], hfield⟩
    · have hne : f.1 ≠ f'.1 := fun he => hout (he ▸ List.mem_map_of_mem hf.mem)
      rw [List.lookup_cons, beq_false_of_ne hne]
      exact ih hrest hnodup hf

/-- Every field keeps its value. -/
theorem StoresFields.mono {fields : List (String × Ty)} {groups : List (Option String)}
    {vs : List (String × Value)} (h : StoresFields V key fields groups vs)
    (hV : ∀ f group v, FieldAt fields groups f group → StoresField V key f group v → StoresField V' key f group v) :
    StoresFields V' key fields groups vs := by
  induction fields generalizing groups vs with
  | nil => exact h
  | cons f fields ih =>
    obtain ⟨v, rest, rfl, hfield, hrest⟩ := storesFields_cons.mp h
    exact storesFields_cons.mpr ⟨v, rest, rfl, hV f _ v (fieldAt_cons.mpr (.inl ⟨rfl, rfl⟩)) hfield,
      ih hrest fun f group v hf => hV f group v (fieldAt_cons.mpr (.inr hf))⟩

/-- Other fields keep their values, and one gets a new one. -/
theorem StoresFields.replace {fields : List (String × Ty)} {groups : List (Option String)}
    {vs : List (String × Value)} (h : StoresFields V key fields groups vs) (hnodup : (fields.map Prod.fst).Nodup)
    {f : String × Ty} {group : Option String} (hf : FieldAt fields groups f group) {w : Value}
    (hnew : StoresField V' key f group w)
    (hother : ∀ f' group' v, FieldAt fields groups f' group' → f'.1 ≠ f.1 →
      StoresField V key f' group' v → StoresField V' key f' group' v) :
    StoresFields V' key fields groups (replaceField f.1 w vs) := by
  induction fields generalizing groups vs with
  | nil => cases hf.mem
  | cons f' fields ih =>
    obtain ⟨v, rest, rfl, hfield, hrest⟩ := storesFields_cons.mp h
    obtain ⟨hout, hnodup⟩ := List.nodup_cons.mp hnodup
    have hotherRest := fun f' group' v hf' => hother f' group' v (fieldAt_cons.mpr (.inr hf'))
    rw [replaceField]
    rcases fieldAt_cons.mp hf with ⟨rfl, rfl⟩ | hf
    · rw [if_pos rfl]
      refine storesFields_cons.mpr ⟨w, rest, rfl, hnew, hrest.mono fun f' group' v' hf' => ?_⟩
      -- the fields behind it have other names
      exact hotherRest f' group' v' hf' fun he => hout (he ▸ List.mem_map_of_mem hf'.mem)
    · have hne : f'.1 ≠ f.1 := fun he => hout (he ▸ List.mem_map_of_mem hf.mem)
      rw [if_neg hne]
      exact storesFields_cons.mpr ⟨v, _, rfl,
        hother f' _ v (fieldAt_cons.mpr (.inl ⟨rfl, rfl⟩)) hne hfield, ih hrest hnodup hf hotherRest⟩

/-! ### From a path to a cell -/

/-- The group of the first field of a name. -/
def groupOf (fields : List (String × Ty)) (groups : List (Option String)) (name : String) : Option String :=
  (fields.findIdx? fun f => f.1 = name).bind fun i => groups.getD i none

/-- The cell a path leads to, the type stored there, and the names that lead on into its value
(`intern_path`). A path that the type does not have is a panic. -/
def internPath (key : U128) : Ty → List String → Option (U128 × Ty × List String)
  | ty, [] => some (key, ty, [])
  | .struct sname fields groups, name :: path =>
    match groupOf fields groups name with
    | some g => some (child key (strBytes g), groupTy sname fields groups g, name :: path)
    | none => (fields.lookup name).bind fun fty => internPath (child key (strBytes name)) fty path
  | _, _ :: _ => none
  termination_by structural _ path => path

theorem internPath_nil (key : U128) (ty : Ty) : internPath key ty [] = some (key, ty, []) := by
  unfold internPath
  rfl

theorem groupOf_cons (f : String × Ty) (fields : List (String × Ty)) (groups : List (Option String)) (name : String) :
    groupOf (f :: fields) groups name = if f.1 = name then groups.headD none else groupOf fields groups.tail name := by
  unfold groupOf
  rw [List.findIdx?_cons]
  by_cases hf : f.1 = name
  · rw [if_pos hf, decide_eq_true hf]
    cases groups <;> rfl
  · rw [if_neg hf, decide_eq_false hf]
    cases List.findIdx? (fun f => decide (f.1 = name)) fields with
    | none => rfl
    | some i => cases groups <;> rfl

/-- A name in a group. -/
theorem fieldAt_of_groupOf {fields : List (String × Ty)} {groups : List (Option String)} {name g : String}
    (h : groupOf fields groups name = some g) : ∃ fty, FieldAt fields groups (name, fty) (some g) := by
  induction fields generalizing groups with
  | nil => cases h
  | cons f fields ih =>
    rw [groupOf_cons] at h
    split_ifs at h with hf
    · exact ⟨f.2, fieldAt_cons.mpr (.inl ⟨by rw [← hf], h.symm⟩)⟩
    · obtain ⟨fty, hfty⟩ := ih h
      exact ⟨fty, fieldAt_cons.mpr (.inr hfty)⟩

/-- A name that is in no group. -/
theorem fieldAt_of_lookup {fields : List (String × Ty)} {groups : List (Option String)} {name : String} {fty : Ty}
    (hg : groupOf fields groups name = none) (h : fields.lookup name = some fty) :
    FieldAt fields groups (name, fty) none := by
  induction fields generalizing groups with
  | nil => cases h
  | cons f fields ih =>
    obtain ⟨n, t⟩ := f
    rw [groupOf_cons] at hg
    rw [List.lookup_cons] at h
    by_cases hf : n = name
    · subst hf
      rw [if_pos rfl] at hg
      rw [beq_self_eq_true] at h
      cases h
      exact fieldAt_cons.mpr (.inl ⟨rfl, hg.symm⟩)
    · rw [if_neg hf] at hg
      rw [beq_false_of_ne (Ne.symm hf)] at h
      exact fieldAt_cons.mpr (.inr (ih hg h))

/-- What a path leads to in a struct: a blob and the way into it, or the cells of a field. -/
theorem internPath_cases {ty ty' : Ty} {key' : U128} {name : String} {path chain : List String}
    (h : internPath key ty (name :: path) = some (key', ty', chain)) : ∃ sname fields groups,
    ty = .struct sname fields groups ∧
      ((∃ g fty, FieldAt fields groups (name, fty) (some g) ∧ child key (strBytes g) = key' ∧
          groupTy sname fields groups g = ty' ∧ chain = name :: path) ∨
        ∃ fty, FieldAt fields groups (name, fty) none ∧
          internPath (child key (strBytes name)) fty path = some (key', ty', chain)) := by
  cases ty with
  | struct sname fields groups =>
    refine ⟨sname, fields, groups, rfl, ?_⟩
    rw [internPath] at h
    cases hg : groupOf fields groups name with
    | some g =>
      simp only [hg, Option.some.injEq, Prod.mk.injEq] at h
      obtain ⟨hkey, hty, hchain⟩ := h
      obtain ⟨fty, hfty⟩ := fieldAt_of_groupOf hg
      exact .inl ⟨g, fty, hfty, hkey, hty, hchain.symm⟩
    | none =>
      simp only [hg] at h
      obtain ⟨fty, hfty, hi⟩ := Option.bind_eq_some_iff.mp h
      exact .inr ⟨fty, fieldAt_of_lookup hg hfty, hi⟩
  | _ => cases h

/-- What stands at the end of a path in the store: the value of a type, or a blob that the rest of the
path leads into. -/
def Slot (V : U128 → Value) (key : U128) (ty : Ty) (chain : List String) (b : Value) : Prop :=
  if chain = [] then Stores V key ty b else V key = b

/-- The leaves at the end of a path. -/
def slotLeaves (key : U128) (ty : Ty) (chain : List String) : Leaves :=
  if chain = [] then (leafPaths ty).map (cellAt key) else [(key, ty)]

/-- A path leads to leaves of the type. -/
theorem slotLeaves_subset {ty ty' : Ty} {key key' : U128} {path chain : List String}
    (h : internPath key ty path = some (key', ty', chain)) :
    ∀ l ∈ slotLeaves key' ty' chain, ∃ p ∈ leafPaths ty, cellAt key p = l := by
  induction path generalizing key ty with
  | nil =>
    rw [internPath_nil] at h
    cases h
    intro l hl
    rw [slotLeaves, if_pos rfl] at hl
    exact List.mem_map.mp hl
  | cons name path ih =>
    obtain ⟨sname, fields, groups, rfl, ⟨g, fty, hf, rfl, rfl, rfl⟩ | ⟨fty, hf, hi⟩⟩ := internPath_cases h
    · intro l hl
      rw [slotLeaves, if_neg (List.cons_ne_nil _ _)] at hl
      rw [List.mem_singleton.mp hl]
      exact ⟨_, mem_groupPath hf, cellAt_group key g _⟩
    · intro l hl
      obtain ⟨p, hp, rfl⟩ := ih hi l hl
      refine ⟨(name :: p.1, p.2), mem_fieldPath hf hp, ?_⟩
      rw [cellAt, cellAt, pathCell]

/-- The type at the end of a path is proper, and its leaves have cells of their own. -/
theorem internPath_proper {ty ty' : Ty} {key key' : U128} {path : List String} (hp : Proper ty) (ha : CellsApart key ty)
    (h : internPath key ty path = some (key', ty', [])) : Proper ty' ∧ CellsApart key' ty' := by
  induction path generalizing key ty with
  | nil =>
    rw [internPath_nil] at h
    cases h
    exact ⟨hp, ha⟩
  | cons name path ih =>
    obtain ⟨sname, fields, groups, rfl, ⟨-, -, -, -, -, hchain⟩ | ⟨fty, hf, hi⟩⟩ := internPath_cases h
    · cases hchain
    · exact ih (hp.2.of_fieldAt hf) (ha.field hf) hi

/-- **A path read in the store is the path read in memory.** -/
theorem stores_get {ty ty' : Ty} {key key' : U128} {path chain : List String} {mem : Value} (hp : Proper ty)
    (h : Stores V key ty mem) (hi : internPath key ty path = some (key', ty', chain)) :
    ∃ b, Slot V key' ty' chain b ∧ getPath path mem = getPath chain b := by
  induction path generalizing key ty mem with
  | nil =>
    rw [internPath_nil] at hi
    cases hi
    exact ⟨mem, by rw [Slot, if_pos rfl]; exact h, rfl⟩
  | cons name path ih =>
    obtain ⟨sname, fields, groups, rfl, hcases⟩ := internPath_cases hi
    obtain ⟨vs, rfl, hvs⟩ := h
    obtain ⟨hnames, hfields⟩ := hp
    rcases hcases with ⟨g, fty, hf, rfl, rfl, rfl⟩ | ⟨fty, hf, hi⟩
    · obtain ⟨v, hv, hblob⟩ := hvs.field hnames.nodup hf
      refine ⟨V (child key (strBytes g)), by rw [Slot, if_neg (List.cons_ne_nil _ _)], ?_⟩
      have hfield : getField (V (child key (strBytes g))) name = some v := hblob
      rw [getPath, getPath, getField, hv, hfield]
    · obtain ⟨v, hv, hcells⟩ := hvs.field hnames.nodup hf
      obtain ⟨b, hb, hget⟩ := ih (hfields.of_fieldAt hf) hcells hi
      refine ⟨b, hb, ?_⟩
      rw [getPath, getField, hv, Option.bind_some, hget]

/-- **A path assigned to in the store is the path assigned to in memory**, as long as nothing else has
changed than what stands at its end. -/
theorem stores_set {ty ty' : Ty} {key key' : U128} {path chain : List String} {mem b b' w : Value} (hp : Proper ty)
    (ha : CellsApart key ty) (h : Stores V key ty mem)
    (hi : internPath key ty path = some (key', ty', chain)) (hb : Slot V key' ty' chain b)
    (hset : setPath chain b w = some b') (hb' : Slot V' key' ty' chain b')
    (hframe : ∀ c, (∀ l ∈ slotLeaves key' ty' chain, l.1 ≠ c) → V' c = V c) :
    ∃ mem', setPath path mem w = some mem' ∧ Stores V' key ty mem' := by
  induction path generalizing key ty mem with
  | nil =>
    rw [internPath_nil] at hi
    cases hi
    rw [Slot, if_pos rfl] at hb'
    exact ⟨b', hset, hb'⟩
  | cons name path ih =>
    obtain ⟨sname, fields, groups, rfl, hcases⟩ := internPath_cases hi
    obtain ⟨vs, rfl, hvs⟩ := h
    obtain ⟨hnames, hfields⟩ := hp
    rcases hcases with ⟨g, fty, hf, rfl, rfl, rfl⟩ | ⟨fty, hf, hi⟩
    · -- the rest of the path leads into the blob of a group
      rw [Slot, if_neg (List.cons_ne_nil _ _)] at hb hb'
      subst hb hb'
      obtain ⟨v, hv, hblob⟩ := hvs.field hnames.nodup hf
      obtain ⟨c, c', hc, hset', hput⟩ := setPath_eq_some hset
      obtain rfl : v = c := Option.some.inj (hblob.symm.trans hc)
      obtain ⟨-, hother⟩ := setField_eq_some hput
      have hgroup := @mem_groupPath sname _ _ _ _ hf
      have hframe' : ∀ p, pathCell key p ≠ child key (strBytes g) → V' (pathCell key p) = V (pathCell key p) := by
        intro p hp
        refine hframe _ fun l hl => ?_
        rw [slotLeaves, if_neg (List.cons_ne_nil _ _)] at hl
        rw [List.mem_singleton.mp hl]
        exact hp.symm
      refine ⟨.struct sname (replaceField name c' vs), ?_, _, rfl, hvs.replace hnames.nodup hf ?_ ?_⟩
      · exact setPath_struct hv hset'
      · rw [StoresField, hother, if_pos rfl]
      · intro f' group' v' hf' hne hstored
        cases group' with
        | none =>
          refine hstored.none_congr fun l hl => hframe' _ fun heq => ?_
          rw [← pathCell_group] at heq
          have hpath := ha _ (mem_fieldPath hf' hl) _ hgroup heq
          obtain ⟨hname, hnil⟩ := List.cons.inj hpath
          exact ne_nil_of_splits (hnames.group f' _ g hf' hf hname) hl hnil
        | some g' =>
          by_cases hgg : g' = g
          · subst hgg
            rw [StoresField, hother, if_neg hne]
            exact hstored
          · rw [StoresField, ← pathCell_group, hframe' [g'] fun heq => ?_, pathCell_group]
            · exact hstored
            · rw [← pathCell_group] at heq
              exact hgg (List.cons.inj (ha _ (mem_groupPath hf') _ hgroup heq)).1
    · -- the path goes on in the cells of the field
      obtain ⟨v, hv, hcells⟩ := hvs.field hnames.nodup hf
      obtain ⟨v', hset', hcells'⟩ := ih (hfields.of_fieldAt hf) (ha.field hf) hcells hi
      -- no other leaf of the struct is among them
      have hframe' : ∀ p ∈ leafPaths (.struct sname fields groups), (∀ q ∈ leafPaths fty, p.1 ≠ name :: q.1) →
          V' (pathCell key p.1) = V (pathCell key p.1) := by
        intro p hp hne
        refine hframe _ fun l hl heq => ?_
        obtain ⟨q, hq, rfl⟩ := slotLeaves_subset hi l hl
        rw [cellAt, ← pathCell] at heq
        exact hne q hq (ha _ hp _ (mem_fieldPath hf hq) heq.symm)
      refine ⟨.struct sname (replaceField name v' vs), ?_, _, rfl, hvs.replace hnames.nodup hf hcells' ?_⟩
      · exact setPath_struct hv hset'
      · intro f' group' u hf' hne hstored
        cases group' with
        | none =>
          refine hstored.none_congr fun l hl => hframe' _ (mem_fieldPath hf' hl) fun q hq hpath => ?_
          exact hne (List.cons.inj hpath).1
        | some g' =>
          rw [StoresField, ← pathCell_group, hframe' _ (mem_groupPath hf') fun q hq hpath => ?_, pathCell_group]
          · exact hstored
          · obtain ⟨hname, hnil⟩ := List.cons.inj hpath
            exact ne_nil_of_splits (hnames.group _ f' g' hf hf' hname.symm) hq hnil.symm

end Rend.Structs
