import Rend.Lib.Checks
import Rend.Typeck.Resolve

/-!
# The names in a type

A type as the parser leaves it (`Raw`) has names where declarations go. `mentionsAt` lists them with the place
each stands at: where both forms of resolution go (`walked`), inside an explicit literal, where only one of
them goes (`quoted`), or inside a set or a dict, where neither does (`buried`). `fillAt` puts something in
place of each, and resolution is `fillAt` with what the tables have (`resolveOne_ok`,
`resolveOneWithEnums_ok`, and `resolveAgain_ok` for one after the other).
-/

namespace Rend.Typeck

open Lib

/-- A name in a type, by what the parser takes it for. The name of a capability is taken for a struct. -/
inductive Ref
  | struct (name : String)
  | enum (name : String)
  | interface (name : String)
  deriving DecidableEq

/-- What the parser leaves for a name. -/
def Ref.bare : Ref → Ty
  | .struct name => .struct name [] []
  | .enum name => .enum name []
  | .interface name => .interface name []

inductive Reach
  | walked
  | quoted
  | buried
  deriving DecidableEq

/-- Inside an explicit literal. -/
def Reach.quote : Reach → Reach
  | .walked => .quoted
  | reach => reach

/-- What stands for each name at each place. -/
abbrev Filling := Ref → Reach → Ty

mutual

/-- The type has names without content only. -/
def Raw : Ty → Prop
  | .struct _ fields groups => fields = [] ∧ groups = []
  | .enum _ variants => variants = []
  | .interface _ methods => methods = []
  | .cap _ _ _ => False
  | .array elem | .set elem | .pvec elem | .explicitLiteral elem => Raw elem
  | .dict key value | .map key value | .pmap key value | .pbtree key value => Raw key ∧ Raw value
  | .tuple elems => RawAll elems
  | _ => True

def RawAll : List Ty → Prop
  | [] => True
  | t :: ts => Raw t ∧ RawAll ts

end

mutual

def mentionsAt (reach : Reach) : Ty → List (Ref × Reach)
  | .struct name _ _ => [(.struct name, reach)]
  | .enum name _ => [(.enum name, reach)]
  | .interface name _ => [(.interface name, reach)]
  | .array elem | .pvec elem => mentionsAt reach elem
  | .explicitLiteral inner => mentionsAt reach.quote inner
  | .set elem => mentionsAt .buried elem
  | .dict key value => mentionsAt .buried key ++ mentionsAt .buried value
  | .map key value | .pmap key value | .pbtree key value => mentionsAt reach key ++ mentionsAt reach value
  | .tuple elems => mentionsAllAt reach elems
  | _ => []

def mentionsAllAt (reach : Reach) : List Ty → List (Ref × Reach)
  | [] => []
  | t :: ts => mentionsAt reach t ++ mentionsAllAt reach ts

end

mutual

def fillAt (σ : Filling) (reach : Reach) : Ty → Ty
  | .struct name _ _ => σ (.struct name) reach
  | .enum name _ => σ (.enum name) reach
  | .interface name _ => σ (.interface name) reach
  | .array elem => .array (fillAt σ reach elem)
  | .pvec elem => .pvec (fillAt σ reach elem)
  | .explicitLiteral inner => .explicitLiteral (fillAt σ reach.quote inner)
  | .set elem => .set (fillAt σ .buried elem)
  | .dict key value => .dict (fillAt σ .buried key) (fillAt σ .buried value)
  | .map key value => .map (fillAt σ reach key) (fillAt σ reach value)
  | .pmap key value => .pmap (fillAt σ reach key) (fillAt σ reach value)
  | .pbtree key value => .pbtree (fillAt σ reach key) (fillAt σ reach value)
  | .tuple elems => .tuple (fillAllAt σ reach elems)
  | ty => ty

def fillAllAt (σ : Filling) (reach : Reach) : List Ty → List Ty
  | [] => []
  | t :: ts => fillAt σ reach t :: fillAllAt σ reach ts

end

/-- The names in a type. -/
abbrev mentions (t : Ty) : List (Ref × Reach) := mentionsAt .walked t

/-! ### Filling -/

mutual

theorem fillAt_congr {σ σ' : Filling} : ∀ (t : Ty) (reach : Reach),
    (∀ m ∈ mentionsAt reach t, σ m.1 m.2 = σ' m.1 m.2) → fillAt σ reach t = fillAt σ' reach t
  | .struct _ _ _, _, h | .enum _ _, _, h | .interface _ _, _, h => h _ List.mem_cons_self
  | .array elem, reach, h => congrArg Ty.array (fillAt_congr elem reach h)
  | .pvec elem, reach, h => congrArg Ty.pvec (fillAt_congr elem reach h)
  | .explicitLiteral inner, reach, h => congrArg Ty.explicitLiteral (fillAt_congr inner reach.quote h)
  | .set elem, _, h => congrArg Ty.set (fillAt_congr elem .buried h)
  | .dict key value, _, h =>
    congrArg₂ Ty.dict (fillAt_congr key .buried (List.forall_mem_append.mp h).1)
      (fillAt_congr value .buried (List.forall_mem_append.mp h).2)
  | .map key value, reach, h =>
    congrArg₂ Ty.map (fillAt_congr key reach (List.forall_mem_append.mp h).1)
      (fillAt_congr value reach (List.forall_mem_append.mp h).2)
  | .pmap key value, reach, h =>
    congrArg₂ Ty.pmap (fillAt_congr key reach (List.forall_mem_append.mp h).1)
      (fillAt_congr value reach (List.forall_mem_append.mp h).2)
  | .pbtree key value, reach, h =>
    congrArg₂ Ty.pbtree (fillAt_congr key reach (List.forall_mem_append.mp h).1)
      (fillAt_congr value reach (List.forall_mem_append.mp h).2)
  | .tuple elems, reach, h => congrArg Ty.tuple (fillAllAt_congr elems reach h)
  | .cap _ _ _, _, _ | .int, _, _ | .uint, _, _ | .float, _, _ | .i32, _, _ | .u32, _, _ | .u64, _, _ | .u128, _, _
  | .bool, _, _ | .unit, _, _ | .resource, _, _ | .string, _, _ | .address, _, _ | .bytes, _, _ | .json, _, _ => rfl

theorem fillAllAt_congr {σ σ' : Filling} : ∀ (ts : List Ty) (reach : Reach),
    (∀ m ∈ mentionsAllAt reach ts, σ m.1 m.2 = σ' m.1 m.2) → fillAllAt σ reach ts = fillAllAt σ' reach ts
  | [], _, _ => rfl
  | t :: ts, reach, h =>
    congrArg₂ List.cons (fillAt_congr t reach (List.forall_mem_append.mp h).1)
      (fillAllAt_congr ts reach (List.forall_mem_append.mp h).2)

end

mutual

/-- What a type is filled with can be read from the result. -/
theorem fillAt_inj {σ σ' : Filling} : ∀ (t : Ty) (reach : Reach), fillAt σ reach t = fillAt σ' reach t →
    ∀ m ∈ mentionsAt reach t, σ m.1 m.2 = σ' m.1 m.2
  | .struct _ _ _, _, h | .enum _ _, _, h | .interface _ _, _, h => by
    simpa [mentionsAt, fillAt] using h
  | .array elem, reach, h => fillAt_inj elem reach (Ty.array.inj h)
  | .pvec elem, reach, h => fillAt_inj elem reach (Ty.pvec.inj h)
  | .explicitLiteral inner, reach, h => fillAt_inj inner reach.quote (Ty.explicitLiteral.inj h)
  | .set elem, _, h => fillAt_inj elem .buried (Ty.set.inj h)
  | .dict key value, _, h =>
    List.forall_mem_append.mpr ⟨fillAt_inj key .buried (Ty.dict.inj h).1, fillAt_inj value .buried (Ty.dict.inj h).2⟩
  | .map key value, reach, h =>
    List.forall_mem_append.mpr ⟨fillAt_inj key reach (Ty.map.inj h).1, fillAt_inj value reach (Ty.map.inj h).2⟩
  | .pmap key value, reach, h =>
    List.forall_mem_append.mpr ⟨fillAt_inj key reach (Ty.pmap.inj h).1, fillAt_inj value reach (Ty.pmap.inj h).2⟩
  | .pbtree key value, reach, h =>
    List.forall_mem_append.mpr ⟨fillAt_inj key reach (Ty.pbtree.inj h).1, fillAt_inj value reach (Ty.pbtree.inj h).2⟩
  | .tuple elems, reach, h => fillAllAt_inj elems reach (Ty.tuple.inj h)
  | .cap _ _ _, _, _ | .int, _, _ | .uint, _, _ | .float, _, _ | .i32, _, _ | .u32, _, _ | .u64, _, _ | .u128, _, _
  | .bool, _, _ | .unit, _, _ | .resource, _, _ | .string, _, _ | .address, _, _ | .bytes, _, _ | .json, _, _ => by
    simp [mentionsAt]

theorem fillAllAt_inj {σ σ' : Filling} : ∀ (ts : List Ty) (reach : Reach), fillAllAt σ reach ts = fillAllAt σ' reach ts →
    ∀ m ∈ mentionsAllAt reach ts, σ m.1 m.2 = σ' m.1 m.2
  | [], _, _ => by simp [mentionsAllAt]
  | t :: ts, reach, h =>
    List.forall_mem_append.mpr
      ⟨fillAt_inj t reach (List.cons.inj h).1, fillAllAt_inj ts reach (List.cons.inj h).2⟩

end

/-- Names without content in place of names. -/
def bareFilling : Filling := fun r _ => r.bare

mutual

theorem fillAt_bare : ∀ (t : Ty) (reach : Reach), Raw t → fillAt bareFilling reach t = t
  | .struct _ _ _, _, h => by
    obtain ⟨rfl, rfl⟩ := h
    rfl
  | .enum _ _, _, h => by
    cases h
    rfl
  | .interface _ _, _, h => by
    cases h
    rfl
  | .array elem, reach, h => congrArg Ty.array (fillAt_bare elem reach h)
  | .pvec elem, reach, h => congrArg Ty.pvec (fillAt_bare elem reach h)
  | .explicitLiteral inner, reach, h => congrArg Ty.explicitLiteral (fillAt_bare inner reach.quote h)
  | .set elem, _, h => congrArg Ty.set (fillAt_bare elem .buried h)
  | .dict key value, _, h => congrArg₂ Ty.dict (fillAt_bare key .buried h.1) (fillAt_bare value .buried h.2)
  | .map key value, reach, h => congrArg₂ Ty.map (fillAt_bare key reach h.1) (fillAt_bare value reach h.2)
  | .pmap key value, reach, h => congrArg₂ Ty.pmap (fillAt_bare key reach h.1) (fillAt_bare value reach h.2)
  | .pbtree key value, reach, h => congrArg₂ Ty.pbtree (fillAt_bare key reach h.1) (fillAt_bare value reach h.2)
  | .tuple elems, reach, h => congrArg Ty.tuple (fillAllAt_bare elems reach h)
  | .cap _ _ _, _, _ | .int, _, _ | .uint, _, _ | .float, _, _ | .i32, _, _ | .u32, _, _ | .u64, _, _ | .u128, _, _
  | .bool, _, _ | .unit, _, _ | .resource, _, _ | .string, _, _ | .address, _, _ | .bytes, _, _ | .json, _, _ => rfl

theorem fillAllAt_bare : ∀ (ts : List Ty) (reach : Reach), RawAll ts → fillAllAt bareFilling reach ts = ts
  | [], _, _ => rfl
  | t :: ts, reach, h => congrArg₂ List.cons (fillAt_bare t reach h.1) (fillAllAt_bare ts reach h.2)

end

mutual

/-- The places inside a place. -/
theorem reach_of_quoted : ∀ (t : Ty) (reach : Reach), reach ≠ .walked → ∀ m ∈ mentionsAt reach t, m.2 ≠ .walked
  | .struct _ _ _, _, h | .enum _ _, _, h | .interface _ _, _, h => by simpa [mentionsAt] using h
  | .array elem, reach, h | .pvec elem, reach, h => reach_of_quoted elem reach h
  | .explicitLiteral inner, reach, h => reach_of_quoted inner reach.quote (by cases reach <;> simp [Reach.quote])
  | .set elem, _, _ => reach_of_quoted elem .buried (by simp)
  | .dict key value, _, _ =>
    List.forall_mem_append.mpr ⟨reach_of_quoted key .buried (by simp), reach_of_quoted value .buried (by simp)⟩
  | .map key value, reach, h | .pmap key value, reach, h | .pbtree key value, reach, h =>
    List.forall_mem_append.mpr ⟨reach_of_quoted key reach h, reach_of_quoted value reach h⟩
  | .tuple elems, reach, h => reachAll_of_quoted elems reach h
  | .cap _ _ _, _, _ | .int, _, _ | .uint, _, _ | .float, _, _ | .i32, _, _ | .u32, _, _ | .u64, _, _ | .u128, _, _
  | .bool, _, _ | .unit, _, _ | .resource, _, _ | .string, _, _ | .address, _, _ | .bytes, _, _ | .json, _, _ => by
    simp [mentionsAt]

theorem reachAll_of_quoted : ∀ (ts : List Ty) (reach : Reach), reach ≠ .walked →
    ∀ m ∈ mentionsAllAt reach ts, m.2 ≠ .walked
  | [], _, _ => by simp [mentionsAllAt]
  | t :: ts, reach, h => List.forall_mem_append.mpr ⟨reach_of_quoted t reach h, reachAll_of_quoted ts reach h⟩

end

mutual

theorem reach_of_buried : ∀ t : Ty, ∀ m ∈ mentionsAt .buried t, m.2 = .buried
  | .struct _ _ _ | .enum _ _ | .interface _ _ => by simp [mentionsAt]
  | .array elem | .pvec elem | .explicitLiteral elem | .set elem => reach_of_buried elem
  | .dict key value | .map key value | .pmap key value | .pbtree key value =>
    List.forall_mem_append.mpr ⟨reach_of_buried key, reach_of_buried value⟩
  | .tuple elems => reachAll_of_buried elems
  | .cap _ _ _ | .int | .uint | .float | .i32 | .u32 | .u64 | .u128 | .bool | .unit | .resource | .string | .address
  | .bytes | .json => by
    simp [mentionsAt]

theorem reachAll_of_buried : ∀ ts : List Ty, ∀ m ∈ mentionsAllAt .buried ts, m.2 = .buried
  | [] => by simp [mentionsAllAt]
  | t :: ts => List.forall_mem_append.mpr ⟨reach_of_buried t, reachAll_of_buried ts⟩

end

theorem fillAt_eq_self {σ : Filling} {t : Ty} {reach : Reach} (ht : Raw t)
    (h : ∀ m ∈ mentionsAt reach t, σ m.1 m.2 = m.1.bare) : fillAt σ reach t = t :=
  (fillAt_congr t reach h).trans (fillAt_bare t reach ht)

/-! ### Resolution is filling -/

/-- What the tables have for a name. -/
def Tables.value (T : Tables) : Ref → Option Ty
  | .struct name =>
    match T.caps name with
    | some (fields, owner) => some (.cap name fields owner)
    | none => (T.structs name).map fun info => .struct name info.1 info.2
  | .enum name => (T.enums name).map (.enum name)
  | .interface name => (T.ifaces name).map (.interface name)

/-- What resolution with the structs alone puts in place of names. -/
def structFilling (structs : Table StructInfo) : Filling
  | .struct name, .walked => ((structs name).map fun info => .struct name info.1 info.2).getD (Ref.struct name).bare
  | r, _ => r.bare

/-- What resolution with all tables puts in place of names. -/
def tablesFilling (T : Tables) : Filling
  | r, .buried => r.bare
  | r, _ => (T.value r).getD r.bare

/-- What is in place of names when both are done, one after the other. -/
def againFilling (structs : Table StructInfo) (T : Tables) : Filling
  | .struct name, .walked => structFilling structs (.struct name) .walked
  | r, reach => tablesFilling T r reach

/-- A name that resolution with the structs alone accepts where it goes. -/
def Accepted (structs : Table StructInfo) : Ref → Prop
  | .struct name => (structs name).isSome = true
  | .enum _ => True
  | .interface _ => False

theorem structFilling_of_ne {structs : Table StructInfo} {r : Ref} {reach : Reach} (h : reach ≠ .walked) :
    structFilling structs r reach = r.bare := by
  cases r <;> cases reach <;> first | rfl | exact absurd rfl h

theorem fill_struct_skipped {structs : Table StructInfo} {t : Ty} {reach : Reach} (ht : Raw t) (h : reach ≠ .walked) :
    fillAt (structFilling structs) reach t = t :=
  fillAt_eq_self ht fun m hm => structFilling_of_ne (reach_of_quoted t reach h m hm)

theorem fill_tables_buried {T : Tables} {t : Ty} (ht : Raw t) : fillAt (tablesFilling T) .buried t = t :=
  fillAt_eq_self ht fun m hm => by rw [reach_of_buried t m hm]; rfl

theorem fill_again_skipped {structs : Table StructInfo} {T : Tables} {t : Ty} {reach : Reach} (h : reach ≠ .walked) :
    fillAt (againFilling structs T) reach t = fillAt (tablesFilling T) reach t := by
  refine fillAt_congr t reach fun m hm => ?_
  have hne := reach_of_quoted t reach h m hm
  rcases m with ⟨r, place⟩
  cases r <;> cases place <;> first | rfl | exact absurd rfl hne

mutual

theorem resolveOne_ok {structs : Table StructInfo} : ∀ {t t' : Ty}, Raw t → resolveOne structs t = .ok t' →
    t' = fillAt (structFilling structs) .walked t ∧ ∀ m ∈ mentions t, m.2 = .walked → Accepted structs m.1
  | .struct name _ _, t', ⟨hfields, hgroups⟩, h => by
    subst hfields hgroups
    rw [resolveOne] at h
    cases hname : structs name with
    | none =>
      rw [hname] at h
      cases h
    | some info =>
      rw [hname] at h
      cases h
      simp [fillAt, structFilling, mentionsAt, Accepted, hname]
  | .enum name _, t', hraw, h => by
    cases hraw
    cases h
    simp [fillAt, structFilling, mentionsAt, Accepted, Ref.bare]
  | .interface name _, t', hraw, h => by
    cases hraw
    cases h
  | .array elem, t', hraw, h => by
    obtain ⟨elem', helem, h⟩ := bind_ok h
    obtain ⟨rfl, hacc⟩ := resolveOne_ok (t := elem) hraw helem
    cases h
    exact ⟨rfl, hacc⟩
  | .pvec elem, t', hraw, h => by
    obtain ⟨elem', helem, h⟩ := bind_ok h
    obtain ⟨rfl, hacc⟩ := resolveOne_ok (t := elem) hraw helem
    cases h
    exact ⟨rfl, hacc⟩
  | .explicitLiteral inner, t', hraw, h => by
    cases h
    refine ⟨congrArg Ty.explicitLiteral (fill_struct_skipped (t := inner) hraw (by simp [Reach.quote])).symm, fun m hm hplace => ?_⟩
    exact absurd hplace (reach_of_quoted inner _ (by simp [Reach.quote]) m hm)
  | .set elem, t', hraw, h => by
    cases h
    refine ⟨congrArg Ty.set (fill_struct_skipped (t := elem) hraw (by simp)).symm, fun m hm hplace => ?_⟩
    exact absurd hplace (reach_of_quoted elem .buried (by simp) m hm)
  | .dict key value, t', hraw, h => by
    cases h
    refine ⟨congrArg₂ Ty.dict (fill_struct_skipped hraw.1 (by simp)).symm (fill_struct_skipped hraw.2 (by simp)).symm,
      List.forall_mem_append.mpr ⟨fun m hm hplace => ?_, fun m hm hplace => ?_⟩⟩
    · exact absurd hplace (reach_of_quoted key .buried (by simp) m hm)
    · exact absurd hplace (reach_of_quoted value .buried (by simp) m hm)
  | .map key value, t', hraw, h => by
    obtain ⟨key', hkey, h⟩ := bind_ok h
    obtain ⟨value', hvalue, h⟩ := bind_ok h
    obtain ⟨rfl, hk⟩ := resolveOne_ok hraw.1 hkey
    obtain ⟨rfl, hv⟩ := resolveOne_ok hraw.2 hvalue
    cases h
    exact ⟨rfl, List.forall_mem_append.mpr ⟨hk, hv⟩⟩
  | .pmap key value, t', hraw, h => by
    obtain ⟨key', hkey, h⟩ := bind_ok h
    obtain ⟨value', hvalue, h⟩ := bind_ok h
    obtain ⟨rfl, hk⟩ := resolveOne_ok hraw.1 hkey
    obtain ⟨rfl, hv⟩ := resolveOne_ok hraw.2 hvalue
    cases h
    exact ⟨rfl, List.forall_mem_append.mpr ⟨hk, hv⟩⟩
  | .pbtree key value, t', hraw, h => by
    obtain ⟨key', hkey, h⟩ := bind_ok h
    obtain ⟨value', hvalue, h⟩ := bind_ok h
    obtain ⟨rfl, hk⟩ := resolveOne_ok hraw.1 hkey
    obtain ⟨rfl, hv⟩ := resolveOne_ok hraw.2 hvalue
    cases h
    exact ⟨rfl, List.forall_mem_append.mpr ⟨hk, hv⟩⟩
  | .tuple elems, t', hraw, h => by
    obtain ⟨elems', helems, h⟩ := bind_ok h
    obtain ⟨rfl, hacc⟩ := resolveOnes_ok hraw helems
    cases h
    exact ⟨rfl, hacc⟩
  | .cap _ _ _, _, hraw, _ => hraw.elim
  | .int, _, _, h | .uint, _, _, h | .float, _, _, h | .i32, _, _, h | .u32, _, _, h | .u64, _, _, h | .u128, _, _, h
  | .bool, _, _, h | .unit, _, _, h | .resource, _, _, h | .string, _, _, h | .address, _, _, h | .bytes, _, _, h
  | .json, _, _, h => by
    cases h
    exact ⟨rfl, by simp [mentionsAt]⟩

theorem resolveOnes_ok {structs : Table StructInfo} : ∀ {ts ts' : List Ty}, RawAll ts → resolveOnes structs ts = .ok ts' →
    ts' = fillAllAt (structFilling structs) .walked ts ∧
      ∀ m ∈ mentionsAllAt .walked ts, m.2 = .walked → Accepted structs m.1
  | [], _, _, h => by
    cases h
    exact ⟨rfl, by simp [mentionsAllAt]⟩
  | t :: ts, _, hraw, h => by
    obtain ⟨t', ht, h⟩ := bind_ok h
    obtain ⟨ts', hts, h⟩ := bind_ok h
    obtain ⟨rfl, hhead⟩ := resolveOne_ok hraw.1 ht
    obtain ⟨rfl, htail⟩ := resolveOnes_ok hraw.2 hts
    cases h
    exact ⟨rfl, List.forall_mem_append.mpr ⟨hhead, htail⟩⟩

end

theorem getD_of_isSome {o : Option Ty} {t t' : Ty} (h : o = some t) : t = o.getD t' := by rw [h]; rfl

mutual

theorem resolveOneWithEnums_ok {T : Tables} : ∀ {t t' : Ty} {reach : Reach}, reach ≠ .buried → Raw t →
    resolveOneWithEnums T t = .ok t' →
      t' = fillAt (tablesFilling T) reach t ∧ ∀ m ∈ mentionsAt reach t, m.2 ≠ .buried → (T.value m.1).isSome = true
  | .struct name _ _, t', reach, hreach, ⟨hfields, hgroups⟩, h => by
    subst hfields hgroups
    have hvalue : T.value (.struct name) = some t' := by
      rw [resolveOneWithEnums] at h
      cases hcap : T.caps name with
      | some info =>
        rw [hcap] at h
        cases h
        rw [Tables.value, hcap]
      | none =>
        rw [hcap, resolveOne] at h
        cases hname : T.structs name with
        | none =>
          rw [hname] at h
          cases h
        | some info =>
          rw [hname] at h
          cases h
          rw [Tables.value, hcap, hname]
          rfl
    refine ⟨?_, by simp [mentionsAt, hvalue]⟩
    cases reach <;> first | exact absurd rfl hreach | exact getD_of_isSome hvalue
  | .enum name _, t', reach, hreach, hraw, h => by
    cases hraw
    have hvalue : T.value (.enum name) = some t' := by
      rw [resolveOneWithEnums] at h
      cases hname : T.enums name <;> rw [hname] at h <;> cases h
      rw [Tables.value, hname]
      rfl
    refine ⟨?_, by simp [mentionsAt, hvalue]⟩
    cases reach <;> first | exact absurd rfl hreach | exact getD_of_isSome hvalue
  | .interface name _, t', reach, hreach, hraw, h => by
    cases hraw
    have hvalue : T.value (.interface name) = some t' := by
      rw [resolveOneWithEnums] at h
      cases hname : T.ifaces name <;> rw [hname] at h <;> cases h
      rw [Tables.value, hname]
      rfl
    refine ⟨?_, by simp [mentionsAt, hvalue]⟩
    cases reach <;> first | exact absurd rfl hreach | exact getD_of_isSome hvalue
  | .array elem, t', reach, hreach, hraw, h => by
    obtain ⟨elem', helem, h⟩ := bind_ok h
    obtain ⟨rfl, hsome⟩ := resolveOneWithEnums_ok (t := elem) hreach hraw helem
    cases h
    exact ⟨rfl, hsome⟩
  | .pvec elem, t', reach, hreach, hraw, h => by
    obtain ⟨elem', helem, h⟩ := bind_ok h
    obtain ⟨rfl, hsome⟩ := resolveOneWithEnums_ok (t := elem) hreach hraw helem
    cases h
    exact ⟨rfl, hsome⟩
  | .explicitLiteral inner, t', reach, hreach, hraw, h => by
    obtain ⟨inner', hinner, h⟩ := bind_ok h
    have hquote : reach.quote ≠ .buried := by cases reach <;> simp_all [Reach.quote]
    obtain ⟨rfl, hsome⟩ := resolveOneWithEnums_ok (t := inner) hquote hraw hinner
    cases h
    exact ⟨rfl, hsome⟩
  | .set elem, t', reach, hreach, hraw, h => by
    cases h
    refine ⟨congrArg Ty.set (fill_tables_buried (t := elem) hraw).symm, fun m hm hplace => ?_⟩
    exact absurd (reach_of_buried elem m hm) hplace
  | .dict key value, t', reach, hreach, hraw, h => by
    cases h
    refine ⟨congrArg₂ Ty.dict (fill_tables_buried hraw.1).symm (fill_tables_buried hraw.2).symm,
      List.forall_mem_append.mpr ⟨fun m hm hplace => ?_, fun m hm hplace => ?_⟩⟩
    · exact absurd (reach_of_buried key m hm) hplace
    · exact absurd (reach_of_buried value m hm) hplace
  | .map key value, t', reach, hreach, hraw, h => by
    obtain ⟨key', hkey, h⟩ := bind_ok h
    obtain ⟨value', hvalue, h⟩ := bind_ok h
    obtain ⟨rfl, hk⟩ := resolveOneWithEnums_ok hreach hraw.1 hkey
    obtain ⟨rfl, hv⟩ := resolveOneWithEnums_ok hreach hraw.2 hvalue
    cases h
    exact ⟨rfl, List.forall_mem_append.mpr ⟨hk, hv⟩⟩
  | .pmap key value, t', reach, hreach, hraw, h => by
    obtain ⟨key', hkey, h⟩ := bind_ok h
    obtain ⟨value', hvalue, h⟩ := bind_ok h
    obtain ⟨rfl, hk⟩ := resolveOneWithEnums_ok hreach hraw.1 hkey
    obtain ⟨rfl, hv⟩ := resolveOneWithEnums_ok hreach hraw.2 hvalue
    cases h
    exact ⟨rfl, List.forall_mem_append.mpr ⟨hk, hv⟩⟩
  | .pbtree key value, t', reach, hreach, hraw, h => by
    obtain ⟨key', hkey, h⟩ := bind_ok h
    obtain ⟨value', hvalue, h⟩ := bind_ok h
    obtain ⟨rfl, hk⟩ := resolveOneWithEnums_ok hreach hraw.1 hkey
    obtain ⟨rfl, hv⟩ := resolveOneWithEnums_ok hreach hraw.2 hvalue
    cases h
    exact ⟨rfl, List.forall_mem_append.mpr ⟨hk, hv⟩⟩
  | .tuple elems, t', reach, hreach, hraw, h => by
    obtain ⟨elems', helems, h⟩ := bind_ok h
    obtain ⟨rfl, hsome⟩ := resolveOnesWithEnums_ok hreach (show RawAll elems from hraw) helems
    cases h
    exact ⟨rfl, hsome⟩
  | .cap _ _ _, _, _, _, hraw, _ => hraw.elim
  | .int, _, _, _, _, h | .uint, _, _, _, _, h | .float, _, _, _, _, h | .i32, _, _, _, _, h | .u32, _, _, _, _, h
  | .u64, _, _, _, _, h | .u128, _, _, _, _, h | .bool, _, _, _, _, h | .unit, _, _, _, _, h
  | .resource, _, _, _, _, h | .string, _, _, _, _, h | .address, _, _, _, _, h | .bytes, _, _, _, _, h
  | .json, _, _, _, _, h => by
    cases h
    exact ⟨rfl, by simp [mentionsAt]⟩

theorem resolveOnesWithEnums_ok {T : Tables} : ∀ {ts ts' : List Ty} {reach : Reach}, reach ≠ .buried → RawAll ts →
    resolveOnesWithEnums T ts = .ok ts' →
      ts' = fillAllAt (tablesFilling T) reach ts ∧
        ∀ m ∈ mentionsAllAt reach ts, m.2 ≠ .buried → (T.value m.1).isSome = true
  | [], _, _, _, _, h => by
    cases h
    exact ⟨rfl, by simp [mentionsAllAt]⟩
  | t :: ts, _, _, hreach, hraw, h => by
    obtain ⟨t', ht, h⟩ := bind_ok h
    obtain ⟨ts', hts, h⟩ := bind_ok h
    obtain ⟨rfl, hhead⟩ := resolveOneWithEnums_ok hreach hraw.1 ht
    obtain ⟨rfl, htail⟩ := resolveOnesWithEnums_ok hreach hraw.2 hts
    cases h
    exact ⟨rfl, List.forall_mem_append.mpr ⟨hhead, htail⟩⟩

end

/-- A name is a struct where both forms of resolution go, or the tables have something for it. -/
def Filled (T : Tables) (m : Ref × Reach) : Prop :=
  m.2 ≠ .buried → (m.2 = .walked ∧ ∃ name, m.1 = .struct name) ∨ (T.value m.1).isSome = true

theorem filled_skipped {T : Tables} {t : Ty} {reach : Reach}
    (h : ∀ m ∈ mentionsAt reach t, m.2 ≠ .buried → (T.value m.1).isSome = true) :
    ∀ m ∈ mentionsAt reach t, Filled T m := fun m hm hplace => .inr (h m hm hplace)

mutual

/-- Resolution with all tables of what resolution with the structs gave. A struct without fields is resolved
again, to the same. -/
theorem resolveAgain_ok {structs : Table StructInfo} {T : Tables}
    (hempty : ∀ name groups, structs name = some ([], groups) →
      T.caps name = none ∧ T.structs name = some ([], groups)) :
    ∀ {t t' : Ty}, Raw t → (∀ m ∈ mentions t, m.2 = .walked → Accepted structs m.1) →
      resolveOneWithEnums T (fillAt (structFilling structs) .walked t) = .ok t' →
        t' = fillAt (againFilling structs T) .walked t ∧ ∀ m ∈ mentions t, Filled T m
  | .struct name _ _, t', _, hacc, h => by
    have hname := hacc _ List.mem_cons_self rfl
    obtain ⟨⟨fields, groups⟩, hinfo⟩ := Option.isSome_iff_exists.mp hname
    have hfill : structFilling structs (.struct name) .walked = .struct name fields groups := by
      rw [structFilling, hinfo]
      rfl
    refine ⟨?_, fun m hm _ => .inl ?_⟩
    · rw [fillAt, hfill] at h
      rw [fillAt, againFilling, hfill]
      cases fields with
      | nil =>
        obtain ⟨hcap, hstruct⟩ := hempty name groups hinfo
        rw [resolveOneWithEnums, hcap, resolveOne, hstruct] at h
        exact (Except.ok.inj h).symm
      | cons field fields =>
        rw [resolveOneWithEnums, resolveOne] at h
        · exact (Except.ok.inj h).symm
        all_goals simp
    · rw [List.mem_singleton.mp hm]
      exact ⟨rfl, name, rfl⟩
  | .enum name variants, t', hraw, _, h => by
    cases hraw
    obtain ⟨rfl, hsome⟩ := resolveOneWithEnums_ok (t := .enum name []) (show Reach.walked ≠ .buried by simp) rfl h
    exact ⟨rfl, filled_skipped hsome⟩
  | .interface name _, t', _, hacc, _ => (hacc _ List.mem_cons_self rfl).elim
  | .array elem, t', hraw, hacc, h => by
    obtain ⟨elem', helem, h⟩ := bind_ok h
    obtain ⟨rfl, hfilled⟩ := resolveAgain_ok hempty (t := elem) hraw hacc helem
    cases h
    exact ⟨rfl, hfilled⟩
  | .pvec elem, t', hraw, hacc, h => by
    obtain ⟨elem', helem, h⟩ := bind_ok h
    obtain ⟨rfl, hfilled⟩ := resolveAgain_ok hempty (t := elem) hraw hacc helem
    cases h
    exact ⟨rfl, hfilled⟩
  | .explicitLiteral inner, t', hraw, _, h => by
    obtain ⟨inner', hinner, h⟩ := bind_ok h
    rw [fill_struct_skipped (t := inner) hraw (by simp [Reach.quote])] at hinner
    obtain ⟨rfl, hsome⟩ := resolveOneWithEnums_ok (t := inner) (show Reach.quoted ≠ .buried by simp) hraw hinner
    cases h
    exact ⟨congrArg Ty.explicitLiteral (fill_again_skipped (by simp)).symm, filled_skipped hsome⟩
  | .set elem, t', hraw, _, h => by
    rw [fillAt, fill_struct_skipped (t := elem) hraw (by simp)] at h
    obtain ⟨rfl, hsome⟩ := resolveOneWithEnums_ok (t := .set elem) (show Reach.walked ≠ .buried by simp) hraw h
    exact ⟨congrArg Ty.set (fill_again_skipped (by simp)).symm, filled_skipped hsome⟩
  | .dict key value, t', hraw, _, h => by
    rw [fillAt, fill_struct_skipped hraw.1 (by simp), fill_struct_skipped hraw.2 (by simp)] at h
    obtain ⟨rfl, hsome⟩ := resolveOneWithEnums_ok (t := .dict key value) (show Reach.walked ≠ .buried by simp) hraw h
    exact ⟨congrArg₂ Ty.dict (fill_again_skipped (by simp)).symm (fill_again_skipped (by simp)).symm,
      filled_skipped hsome⟩
  | .map key value, t', hraw, hacc, h => by
    obtain ⟨key', hkey, h⟩ := bind_ok h
    obtain ⟨value', hvalue, h⟩ := bind_ok h
    obtain ⟨hak, hav⟩ := List.forall_mem_append.mp hacc
    obtain ⟨rfl, hk⟩ := resolveAgain_ok hempty hraw.1 hak hkey
    obtain ⟨rfl, hv⟩ := resolveAgain_ok hempty hraw.2 hav hvalue
    cases h
    exact ⟨rfl, List.forall_mem_append.mpr ⟨hk, hv⟩⟩
  | .pmap key value, t', hraw, hacc, h => by
    obtain ⟨key', hkey, h⟩ := bind_ok h
    obtain ⟨value', hvalue, h⟩ := bind_ok h
    obtain ⟨hak, hav⟩ := List.forall_mem_append.mp hacc
    obtain ⟨rfl, hk⟩ := resolveAgain_ok hempty hraw.1 hak hkey
    obtain ⟨rfl, hv⟩ := resolveAgain_ok hempty hraw.2 hav hvalue
    cases h
    exact ⟨rfl, List.forall_mem_append.mpr ⟨hk, hv⟩⟩
  | .pbtree key value, t', hraw, hacc, h => by
    obtain ⟨key', hkey, h⟩ := bind_ok h
    obtain ⟨value', hvalue, h⟩ := bind_ok h
    obtain ⟨hak, hav⟩ := List.forall_mem_append.mp hacc
    obtain ⟨rfl, hk⟩ := resolveAgain_ok hempty hraw.1 hak hkey
    obtain ⟨rfl, hv⟩ := resolveAgain_ok hempty hraw.2 hav hvalue
    cases h
    exact ⟨rfl, List.forall_mem_append.mpr ⟨hk, hv⟩⟩
  | .tuple elems, t', hraw, hacc, h => by
    obtain ⟨elems', helems, h⟩ := bind_ok h
    obtain ⟨rfl, hfilled⟩ := resolveAgains_ok hempty (show RawAll elems from hraw) hacc helems
    cases h
    exact ⟨rfl, hfilled⟩
  | .cap _ _ _, _, hraw, _, _ => hraw.elim
  | .int, _, _, _, h | .uint, _, _, _, h | .float, _, _, _, h | .i32, _, _, _, h | .u32, _, _, _, h
  | .u64, _, _, _, h | .u128, _, _, _, h | .bool, _, _, _, h | .unit, _, _, _, h | .resource, _, _, _, h
  | .string, _, _, _, h | .address, _, _, _, h | .bytes, _, _, _, h | .json, _, _, _, h => by
    cases h
    exact ⟨rfl, by simp [mentionsAt]⟩

theorem resolveAgains_ok {structs : Table StructInfo} {T : Tables}
    (hempty : ∀ name groups, structs name = some ([], groups) →
      T.caps name = none ∧ T.structs name = some ([], groups)) :
    ∀ {ts ts' : List Ty}, RawAll ts → (∀ m ∈ mentionsAllAt .walked ts, m.2 = .walked → Accepted structs m.1) →
      resolveOnesWithEnums T (fillAllAt (structFilling structs) .walked ts) = .ok ts' →
        ts' = fillAllAt (againFilling structs T) .walked ts ∧ ∀ m ∈ mentionsAllAt .walked ts, Filled T m
  | [], _, _, _, h => by
    cases h
    exact ⟨rfl, by simp [mentionsAllAt]⟩
  | t :: ts, _, hraw, hacc, h => by
    obtain ⟨t', ht, h⟩ := bind_ok h
    obtain ⟨ts', hts, h⟩ := bind_ok h
    obtain ⟨hat, hats⟩ := List.forall_mem_append.mp hacc
    obtain ⟨rfl, hhead⟩ := resolveAgain_ok hempty hraw.1 hat ht
    obtain ⟨rfl, htail⟩ := resolveAgains_ok hempty hraw.2 hats hts
    cases h
    exact ⟨rfl, List.forall_mem_append.mpr ⟨hhead, htail⟩⟩

end

end Rend.Typeck
