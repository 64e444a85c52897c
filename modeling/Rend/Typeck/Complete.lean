import Rend.Typeck.Resolved

/-!
# Resolution is complete

The module that resolution gives is canonical exactly when the module was `Resolvable`
(`canonical_iff_resolvable`). The content of a name is right when its own names are (`Good`), so the names are
taken in the order of the passes: the structs that the first pass settles, the enums, the capabilities, the
interfaces, and then all structs.
-/

namespace Rend.Typeck

open Ast Lib

/-- A type with a name that the tables know has what they have for it. -/
def Content (T : Tables) (u : Ty) : Prop := ∀ r c, refOf u = some r → T.value r = some c → u = c

/-- What the tables have for a name is right at every depth. -/
def Good (T : Tables) (r : Ref) : Prop := ∀ c, T.value r = some c → Every (Content T) c

@[simp] theorem refOf_bare (r : Ref) : refOf r.bare = some r := by cases r <;> rfl

theorem value_struct {T : Tables} {n : String} (h : T.caps n = none) :
    T.value (.struct n) = (T.structs n).map fun info => .struct n info.1 info.2 := by
  rw [Tables.value, h]

theorem value_cap {T : Tables} {n : String} {fields : List (String × Ty)} {owner : String}
    (h : T.caps n = some (fields, owner)) : T.value (.struct n) = some (.cap n fields owner) := by
  rw [Tables.value, h]

/-- A name that the tables know stands for a type with this name. -/
theorem refOf_value {T : Tables} {r : Ref} {c : Ty} (h : T.value r = some c) : refOf c = some r := by
  cases r with
  | struct n =>
    cases hcap : T.caps n with
    | some info =>
      rw [value_cap hcap] at h
      cases h
      rfl
    | none =>
      rw [value_struct hcap] at h
      obtain ⟨info, _, rfl⟩ := Option.map_eq_some_iff.mp h
      rfl
  | enum n =>
    obtain ⟨info, _, rfl⟩ := Option.map_eq_some_iff.mp h
    rfl
  | interface n =>
    obtain ⟨info, _, rfl⟩ := Option.map_eq_some_iff.mp h
    rfl

theorem content_value {T : Tables} {r : Ref} {c : Ty} (h : T.value r = some c) : Content T c := by
  intro r' c' hr' hc'
  obtain rfl : r = r' := Option.some.inj ((refOf_value h).symm.trans hr')
  exact Option.some.inj (h.symm.trans hc')

/-- A name without content is right when the tables have nothing else for it. -/
theorem every_bare {T : Tables} {r : Ref} : Every (Content T) r.bare ↔ ∀ c, T.value r = some c → c = r.bare := by
  have hcontent : Content T r.bare ↔ ∀ c, T.value r = some c → c = r.bare := by
    constructor
    · intro h c hc
      exact (h r c (refOf_bare r) hc).symm
    · intro h r' c hr' hc
      obtain rfl : r = r' := Option.some.inj ((refOf_bare r).symm.trans hr')
      exact (h c hc).symm
  rw [← hcontent]
  cases r <;> simp [Ref.bare, Every, EveryField, EveryVariant, EveryMethod]

/-! ### The names of filled declarations -/

section Filled

variable {Q : Ty → Prop} {σ : Filling}

theorem every_fillFields {fields : List StructField} (hraw : ∀ f ∈ fields, Raw f.ty) :
    EveryField Q (fieldTypes (fillFields σ fields)) ↔ ∀ f ∈ fields, ∀ r ∈ mentions f.ty, Every Q (σ r.1 r.2) := by
  rw [everyField_iff, fieldTypes, fillFields, List.map_map, List.forall_mem_map]
  exact forall₂_congr fun f hf => every_fillAt .walked (hraw f hf)

theorem every_fillVariants {variants : List EnumVariant} (hraw : ∀ t ∈ variants.flatMap EnumVariant.payload, Raw t) :
    EveryVariant Q (variantTypes (fillVariants σ variants)) ↔
      ∀ t ∈ variants.flatMap EnumVariant.payload, ∀ r ∈ mentions t, Every Q (σ r.1 r.2) := by
  rw [everyVariant_iff, variantTypes, fillVariants, List.map_map, List.forall_mem_map, List.forall_mem_flatMap]
  refine forall₂_congr fun v hv => ?_
  rw [Function.comp_apply, List.forall_mem_map]
  exact forall₂_congr fun t ht => every_fillAt .walked (hraw t (List.mem_flatMap_of_mem hv ht))

theorem every_fillMethods {methods : List InterfaceMethod} (hraw : ∀ t ∈ methods.flatMap methodTypes, Raw t) :
    EveryMethod Q (methodSigs (fillMethods σ methods)) ↔
      ∀ t ∈ methods.flatMap methodTypes, ∀ r ∈ mentions t, Every Q (σ r.1 r.2) := by
  rw [everyMethod_iff, methodSigs, fillMethods, List.map_map, List.forall_mem_map, List.forall_mem_flatMap]
  refine forall₂_congr fun v hv => ?_
  have htypes : sigTypes (.mk v.name ((v.params.map fun p => { p with ty := fillAt σ .walked p.ty }).map Ast.Param.ty)
      (fillAt σ .walked v.returnType) v.isView v.isPure) = (methodTypes v).map (fillAt σ .walked) := by
    simp [sigTypes, methodTypes]
  rw [Function.comp_apply, htypes, List.forall_mem_map]
  exact forall₂_congr fun t ht => every_fillAt .walked (hraw t (List.mem_flatMap_of_mem hv ht))

end Filled

namespace Resolved

variable {m m' : Module} {S : Table StructInfo} {T : Tables}

/-! ### What the tables have -/

/-- Tables with the structs of one of the passes for each name. -/
structure During (S : Table StructInfo) (T U : Tables) : Prop where
  enums : U.enums = T.enums
  caps : U.caps = T.caps
  ifaces : U.ifaces = T.ifaces
  structs : ∀ n, U.structs n = S n ∨ U.structs n = T.structs n

theorem During.after (S : Table StructInfo) (T : Tables) : During S T T := ⟨rfl, rfl, rfl, fun _ => .inr rfl⟩

theorem During.midway (S : Table StructInfo) (T : Tables) (names : List String) : During S T (midway S T names) := by
  refine ⟨rfl, rfl, rfl, fun n => ?_⟩
  by_cases hn : n ∈ names
  · exact .inr (if_pos hn)
  · exact .inl (if_neg hn)

theorem split_of_mem {α : Type} {as : List α} {name : α → String} {n : String} (hn : n ∈ as.map name) :
    ∃ before a after, as = before ++ a :: after ∧ name a = n := by
  obtain ⟨a, ha, rfl⟩ := List.mem_map.mp hn
  obtain ⟨before, after, heq⟩ := List.append_of_mem ha
  exact ⟨before, a, after, heq, rfl⟩

theorem caps_of_structs (hr : Resolved m m' S T) {n : String} (hn : n ∈ m.structs.map StructDecl.name) :
    T.caps n = none := by
  apply hr.capNames
  intro hcap
  obtain ⟨d, hd, rfl⟩ := List.mem_map.mp hcap
  exact hr.apart d hd hn

theorem names_of_first (hr : Resolved m m' S T) {n : String} {info : StructInfo} (h : S n = some info) :
    n ∈ m.structs.map StructDecl.name := by
  by_contra hn
  rw [(hr.structNames n hn).1] at h
  cases h

theorem names_of_structs (hr : Resolved m m' S T) {n : String} {info : StructInfo} (h : T.structs n = some info) :
    n ∈ m.structs.map StructDecl.name := by
  by_contra hn
  rw [(hr.structNames n hn).2] at h
  cases h

theorem during_struct (hr : Resolved m m' S T) {U : Tables} (hU : During S T U) {d : StructDecl} (hd : d ∈ m.structs) :
    ∃ σ, U.structs d.name = some (structInfo (fillFields σ d.fields)) := by
  obtain ⟨before, after, heq⟩ := List.append_of_mem hd
  rcases hU.structs d.name with hname | hname
  · exact ⟨_, hname.trans (hr.first before d after heq).1⟩
  · exact ⟨_, hname.trans (hr.again before d after heq).1⟩

/-- The names without content are those that tables have no content for. -/
theorem harmless_iff (hr : Resolved m m' S T) {U : Tables} (hU : During S T U) {r : Ref} :
    Harmless m r ↔ ∀ c, U.value r = some c → c = r.bare := by
  cases r with
  | struct n =>
    constructor
    · rintro ⟨hstructs, hcaps⟩ c hc
      have hcap : U.caps n = none := by
        rw [hU.caps]
        apply hr.capNames
        simpa [eq_comm] using hcaps
      rw [value_struct hcap] at hc
      obtain ⟨info, hinfo, rfl⟩ := Option.map_eq_some_iff.mp hc
      have hn : n ∈ m.structs.map StructDecl.name := by
        rcases hU.structs n with hname | hname
        · exact hr.names_of_first (hname.symm.trans hinfo)
        · exact hr.names_of_structs (hname.symm.trans hinfo)
      obtain ⟨d, hd, rfl⟩ := List.mem_map.mp hn
      obtain ⟨σ, hσ⟩ := hr.during_struct hU hd
      obtain rfl := Option.some.inj (hσ.symm.trans hinfo)
      rw [hstructs d hd rfl]
      rfl
    · intro h
      refine ⟨fun d hd hname => ?_, fun d hd hname => ?_⟩
      · subst hname
        obtain ⟨σ, hσ⟩ := hr.during_struct hU hd
        have hcap : U.caps d.name = none := by rw [hU.caps, hr.caps_of_structs (List.mem_map_of_mem hd)]
        have hbare := h _ (by rw [value_struct hcap, hσ]; rfl)
        simpa [Ref.bare, structInfo, fieldTypes, fillFields] using (Ty.struct.inj hbare).2.1
      · subst hname
        have hcap : U.caps d.name = _ := (congrFun hU.caps d.name).trans (hr.caps d hd).1
        cases h _ (value_cap hcap)
  | enum n =>
    have hvalue : U.value (.enum n) = (T.enums n).map (.enum n) := by rw [Tables.value, hU.enums]
    rw [hvalue]
    constructor
    · intro h c hc
      obtain ⟨variants, hvariants, rfl⟩ := Option.map_eq_some_iff.mp hc
      have hn : n ∈ m.enums.map EnumDecl.name := by
        by_contra hn
        rw [hr.enumNames n hn] at hvariants
        cases hvariants
      obtain ⟨before, d, after, heq, rfl⟩ := split_of_mem hn
      obtain rfl := Option.some.inj ((hr.enums before d after heq).1.symm.trans hvariants)
      rw [h d (heq ▸ List.mem_append_right _ List.mem_cons_self) rfl]
      rfl
    · rintro h d hd rfl
      obtain ⟨before, after, heq⟩ := List.append_of_mem hd
      have hbare := h _ (by rw [(hr.enums before d after heq).1]; rfl)
      simpa [Ref.bare, variantTypes, fillVariants] using (Ty.enum.inj hbare).2
  | interface n =>
    have hvalue : U.value (.interface n) = (T.ifaces n).map (.interface n) := by rw [Tables.value, hU.ifaces]
    rw [hvalue]
    constructor
    · intro h c hc
      obtain ⟨sigs, hsigs, rfl⟩ := Option.map_eq_some_iff.mp hc
      have hn : n ∈ m.interfaces.map InterfaceDecl.name := by
        by_contra hn
        rw [hr.ifaceNames n hn] at hsigs
        cases hsigs
      obtain ⟨d, hd, rfl⟩ := List.mem_map.mp hn
      obtain rfl := Option.some.inj ((hr.ifaces d hd).1.symm.trans hsigs)
      rw [h d hd rfl]
      rfl
    · rintro h d hd rfl
      have hbare := h _ (by rw [(hr.ifaces d hd).1]; rfl)
      simpa [Ref.bare, methodSigs, fillMethods] using (Ty.interface.inj hbare).2

theorem harmless_iff_bare (hr : Resolved m m' S T) {r : Ref} : Harmless m r ↔ Every (Content T) r.bare :=
  (hr.harmless_iff (During.after S T)).trans every_bare.symm

/-! ### The structs of both passes -/

/-- What a name in a struct needs for the first pass to have left it as the second does. -/
def Left (m : Module) (r : Ref × Reach) : Prop :=
  (r.2 = .quoted → Harmless m r.1) ∧ (r.2 = .walked → ∀ enum, r.1 = .enum enum → Harmless m r.1)

theorem filling_eq_iff (hr : Resolved m m' S T) {names : List String} {r : Ref × Reach}
    (hwalked : r.2 = .walked → Earlier names r.1) (hfilled : Filled (midway S T names) r) :
    structFilling S r.1 r.2 = againFilling S (midway S T names) r.1 r.2 ↔ Left m r := by
  obtain ⟨r, reach⟩ := r
  have hbare : ∀ {c}, (midway S T names).value r = some c → (r.bare = c ↔ Harmless m r) := by
    intro c hc
    rw [hr.harmless_iff (During.midway S T names), hc]
    simp [eq_comm]
  cases reach with
  | buried =>
    have hsame : structFilling S r .buried = againFilling S (midway S T names) r .buried := by cases r <;> rfl
    exact iff_of_true hsame ⟨nofun, nofun⟩
  | quoted =>
    have hsome : ((midway S T names).value r).isSome = true := by simpa [Filled] using hfilled
    obtain ⟨c, hc⟩ := Option.isSome_iff_exists.mp hsome
    have hagain : againFilling S (midway S T names) r .quoted = c := by cases r <;> simp [againFilling, tablesFilling, hc]
    rw [structFilling_of_ne (by simp), hagain, hbare hc]
    exact ⟨fun h => ⟨fun _ => h, nofun⟩, fun h => h.1 rfl⟩
  | walked =>
    cases r with
    | struct name => exact iff_of_true rfl ⟨nofun, nofun⟩
    | interface name => exact (hwalked rfl).elim
    | enum name =>
      have hsome : ((midway S T names).value (.enum name)).isSome = true := by simpa [Filled] using hfilled
      obtain ⟨c, hc⟩ := Option.isSome_iff_exists.mp hsome
      have hagain : againFilling S (midway S T names) (.enum name) .walked = c := by
        simp [againFilling, tablesFilling, hc]
      rw [hagain]
      refine (hbare hc).trans ⟨fun h => ⟨nofun, fun _ _ _ => h⟩, fun h => h.2 rfl name rfl⟩

theorem structInfo_fill_inj {σ σ' : Filling} {fields : List StructField} :
    structInfo (fillFields σ fields) = structInfo (fillFields σ' fields) ↔
      ∀ f ∈ fields, ∀ r ∈ mentions f.ty, σ r.1 r.2 = σ' r.1 r.2 := by
  have hgroups : ∀ τ : Filling, (fillFields τ fields).map StructField.group = fields.map StructField.group := by
    intro τ
    rw [fillFields, List.map_map]
    rfl
  rw [structInfo, structInfo, hgroups, hgroups, Prod.mk.injEq, fieldTypes, fieldTypes, fillFields, fillFields,
    List.map_map, List.map_map, List.map_inj_left]
  simp only [Function.comp_apply, Prod.mk.injEq, true_and, and_true]
  exact forall₂_congr fun f _ => ⟨fillAt_inj f.ty .walked, fillAt_congr f.ty .walked⟩

/-- **The structs that the first pass settles are those that the second leaves as they are.** -/
theorem settled_iff (hr : Resolved m m' S T) {name : String} : Settled m name ↔ S name = T.structs name := by
  have hone : ∀ d ∈ m.structs, d.name = name →
      ((∀ f ∈ d.fields, ∀ r ∈ mentions f.ty, Left m r) ↔ S name = T.structs name) := by
    rintro d hd rfl
    obtain ⟨before, after, heq⟩ := List.append_of_mem hd
    obtain ⟨hS, hwalked⟩ := hr.first before d after heq
    obtain ⟨hT, hfilled⟩ := hr.again before d after heq
    rw [hS, hT, Option.some_inj, structInfo_fill_inj]
    exact forall₂_congr fun f hf => forall₂_congr fun r hmem =>
      (hr.filling_eq_iff (hwalked f hf r hmem) (hfilled f hf r hmem)).symm
  constructor
  · intro h
    by_cases hn : name ∈ m.structs.map StructDecl.name
    · obtain ⟨d, hd, hname⟩ := List.mem_map.mp hn
      exact (hone d hd hname).mp (h d hd hname)
    · rw [(hr.structNames name hn).1, (hr.structNames name hn).2]
  · intro h d hd hname
    exact (hone d hd hname).mpr h

/-- A struct of the first pass where the final one belongs. -/
theorem settled_of_content (hr : Resolved m m' S T) {name : String} {info : StructInfo} (hS : S name = some info)
    (h : Content T (.struct name info.1 info.2)) : Settled m name := by
  have hn := hr.names_of_first hS
  obtain ⟨before, d, after, heq, rfl⟩ := split_of_mem hn
  have hT := (hr.again before d after heq).1
  rw [hr.settled_iff, hS, hT, Option.some_inj]
  have hvalue := h (.struct d.name) _ rfl (by rw [value_struct (hr.caps_of_structs hn), hT]; rfl)
  obtain ⟨-, hfields, hgroups⟩ := Ty.struct.inj hvalue
  exact Prod.ext hfields hgroups

theorem settled_of_cap (hr : Resolved m m' S T) {name : String} (hcap : T.caps name ≠ none) : Settled m name := by
  intro d hd hname
  exact absurd (hr.caps_of_structs (hname ▸ List.mem_map_of_mem hd)) hcap

/-! ### The contents, by their names -/

theorem good_iff {r : Ref} {c : Ty} (h : T.value r = some c) : Good T r ↔ Every (Content T) c := by
  simp [Good, h]

section Contents

variable (hr : Resolved m m' S T) (hraw : m.Parsed)

include hr hraw

theorem good_struct {before after : List StructDecl} {d : StructDecl} (heq : m.structs = before ++ d :: after) :
    Good T (.struct d.name) ↔ ∀ f ∈ d.fields, ∀ r ∈ mentions f.ty,
      Every (Content T) (againFilling S (midway S T (before.map StructDecl.name)) r.1 r.2) := by
  have hd : d ∈ m.structs := heq ▸ List.mem_append_right _ List.mem_cons_self
  have hvalue := value_struct (hr.caps_of_structs (List.mem_map_of_mem hd))
  rw [(hr.again before d after heq).1, Option.map_some] at hvalue
  rw [good_iff hvalue, Every, and_iff_right (content_value hvalue)]
  exact every_fillFields fun f hf => (allTypes_forall.mp hraw).1 _ (mem_structTypes hd hf)

theorem good_enum {before after : List EnumDecl} {d : EnumDecl} (heq : m.enums = before ++ d :: after) :
    Good T (.enum d.name) ↔ ∀ t ∈ d.variants.flatMap EnumVariant.payload, ∀ r ∈ mentions t,
      Every (Content T) (tablesFilling (enumTables S T (before.map EnumDecl.name)) r.1 r.2) := by
  have hd : d ∈ m.enums := heq ▸ List.mem_append_right _ List.mem_cons_self
  have hvalue : T.value (.enum d.name) = (T.enums d.name).map (.enum d.name) := rfl
  rw [(hr.enums before d after heq).1, Option.map_some] at hvalue
  rw [good_iff hvalue, Every, and_iff_right (content_value hvalue)]
  exact every_fillVariants fun t ht => (allTypes_forall.mp hraw).2.1 _ (List.mem_flatMap_of_mem hd ht)

theorem good_cap {d : CapDecl} (hd : d ∈ m.caps) : Good T (.struct d.name) ↔ ∀ f ∈ d.fields, ∀ r ∈ mentions f.ty,
    Every (Content T) (tablesFilling (capTables S T) r.1 r.2) := by
  have hvalue := value_cap (hr.caps d hd).1
  rw [good_iff hvalue, Every, and_iff_right (content_value hvalue)]
  exact every_fillFields fun f hf => (allTypes_forall.mp hraw).2.2.1 _ (mem_capTypes hd hf)

theorem good_iface {d : InterfaceDecl} (hd : d ∈ m.interfaces) :
    Good T (.interface d.name) ↔ ∀ t ∈ d.methods.flatMap methodTypes, ∀ r ∈ mentions t,
      Every (Content T) (tablesFilling (interfaceTables S T) r.1 r.2) := by
  have hvalue : T.value (.interface d.name) = (T.ifaces d.name).map (.interface d.name) := rfl
  rw [(hr.ifaces d hd).1, Option.map_some] at hvalue
  rw [good_iff hvalue, Every, and_iff_right (content_value hvalue)]
  exact every_fillMethods fun t ht => (allTypes_forall.mp hraw).2.2.2.1 _ (List.mem_flatMap_of_mem hd ht)

end Contents

/-- The tables have what a type of the module should have for a name. -/
theorem hasContent_eq (hr : Resolved m m' S T) : HasContent m' = Content T := by
  funext u
  refine propext ⟨fun h => ?_, fun h => ⟨?_, ?_, ?_, ?_⟩⟩
  · intro r c hu hc
    cases r with
    | struct n =>
      cases hcap : T.caps n with
      | some info =>
        obtain ⟨d, hd, rfl, rfl⟩ := hr.tabled.caps.mp hcap
        rw [value_cap hcap] at hc
        cases hc
        exact h.cap d hd hu
      | none =>
        rw [value_struct hcap] at hc
        obtain ⟨info, hinfo, rfl⟩ := Option.map_eq_some_iff.mp hc
        obtain ⟨d, hd, rfl, rfl⟩ := hr.tabled.structs.mp hinfo
        exact h.struct d hd hu
    | enum n =>
      obtain ⟨info, hinfo, rfl⟩ := Option.map_eq_some_iff.mp hc
      obtain ⟨d, hd, rfl, rfl⟩ := hr.tabled.enums.mp hinfo
      exact h.enum d hd hu
    | interface n =>
      obtain ⟨info, hinfo, rfl⟩ := Option.map_eq_some_iff.mp hc
      obtain ⟨d, hd, rfl, rfl⟩ := hr.tabled.ifaces.mp hinfo
      exact h.interface d hd hu
  · intro d hd hu
    have hinfo := hr.tabled.structs.mpr ⟨d, hd, rfl, rfl⟩
    exact h _ _ hu (by rw [value_struct (hr.caps_of_structs (hr.names_of_structs hinfo)), hinfo]; rfl)
  · intro d hd hu
    exact h _ _ hu (value_cap (hr.tabled.caps.mpr ⟨d, hd, rfl, rfl⟩))
  · intro d hd hu
    exact h _ _ hu (by rw [Tables.value, hr.tabled.enums.mpr ⟨d, hd, rfl, rfl⟩]; rfl)
  · intro d hd hu
    exact h _ _ hu (by rw [Tables.value, hr.tabled.ifaces.mpr ⟨d, hd, rfl, rfl⟩]; rfl)

/-- The types of the declarations are right when the contents of the tables are. -/
theorem declared_good (hr : Resolved m m' S T) :
    (∀ r, Good T r) ↔ (∀ t ∈ m'.structTypes, Every (Content T) t) ∧ (∀ t ∈ m'.enumTypes, Every (Content T) t) ∧
      (∀ t ∈ m'.capTypes, Every (Content T) t) ∧ ∀ t ∈ m'.interfaceTypes, Every (Content T) t := by
  simp only [Module.structTypes, Module.enumTypes, Module.capTypes, Module.interfaceTypes, List.forall_mem_flatMap,
    List.forall_mem_map]
  constructor
  · intro h
    refine ⟨fun d hd => ?_, fun d hd => ?_, fun d hd => ?_, fun d hd => ?_⟩
    · have hinfo := hr.tabled.structs.mpr ⟨d, hd, rfl, rfl⟩
      have hgood := h _ _ (by rw [value_struct (hr.caps_of_structs (hr.names_of_structs hinfo)), hinfo]; rfl)
      simpa [structInfo, fieldTypes] using everyField_iff.mp hgood.2
    · have hgood := h (.enum d.name) _ (by rw [Tables.value, hr.tabled.enums.mpr ⟨d, hd, rfl, rfl⟩]; rfl)
      simpa [variantTypes] using everyVariant_iff.mp hgood.2
    · have hgood := h _ _ (value_cap (hr.tabled.caps.mpr ⟨d, hd, rfl, rfl⟩))
      simpa [fieldTypes] using everyField_iff.mp hgood.2
    · have hgood := h (.interface d.name) _ (by rw [Tables.value, hr.tabled.ifaces.mpr ⟨d, hd, rfl, rfl⟩]; rfl)
      simpa [methodSigs, sigTypes] using everyMethod_iff.mp hgood.2
  · rintro ⟨hstructs, henums, hcaps, hifaces⟩ r c hc
    have hcontent := content_value hc
    cases r with
    | struct n =>
      cases hcap : T.caps n with
      | some info =>
        obtain ⟨d, hd, rfl, rfl⟩ := hr.tabled.caps.mp hcap
        rw [value_cap hcap] at hc
        cases hc
        exact ⟨hcontent, everyField_iff.mpr (by simpa [fieldTypes] using hcaps d hd)⟩
      | none =>
        rw [value_struct hcap] at hc
        obtain ⟨info, hinfo, rfl⟩ := Option.map_eq_some_iff.mp hc
        obtain ⟨d, hd, rfl, rfl⟩ := hr.tabled.structs.mp hinfo
        exact ⟨hcontent, everyField_iff.mpr (by simpa [structInfo, fieldTypes] using hstructs d hd)⟩
    | enum n =>
      obtain ⟨info, hinfo, rfl⟩ := Option.map_eq_some_iff.mp hc
      obtain ⟨d, hd, rfl, rfl⟩ := hr.tabled.enums.mp hinfo
      exact ⟨hcontent, everyVariant_iff.mpr (by simpa [variantTypes] using henums d hd)⟩
    | interface n =>
      obtain ⟨info, hinfo, rfl⟩ := Option.map_eq_some_iff.mp hc
      obtain ⟨d, hd, rfl, rfl⟩ := hr.tabled.ifaces.mp hinfo
      exact ⟨hcontent, everyMethod_iff.mpr (by simpa [methodSigs, sigTypes] using hifaces d hd)⟩

/-- A module is canonical when the contents are right and the types outside declarations are. -/
theorem canonical_iff_good (hr : Resolved m m' S T) (hraw : m.Parsed) : Canonical m' ↔ (∀ r, Good T r) ∧
    (∀ t ∈ m.plainTypes, ∀ r ∈ mentions t, Every (Content T) (tablesFilling T r.1 r.2)) ∧
      ∀ t ∈ m.hiddenTypes, ∀ r ∈ mentions t, Harmless m r.1 := by
  obtain ⟨-, -, -, -, hplain, hhidden⟩ := allTypes_forall.mp hraw
  have hplainIff : (∀ t ∈ m'.plainTypes, Every (Content T) t) ↔
      ∀ t ∈ m.plainTypes, ∀ r ∈ mentions t, Every (Content T) (tablesFilling T r.1 r.2) := by
    rw [hr.plain.eq, List.forall_mem_map]
    exact forall₂_congr fun t ht => every_fillAt .walked (hplain t ht)
  have hhiddenIff : (∀ t ∈ m'.hiddenTypes, Every (Content T) t) ↔
      ∀ t ∈ m.hiddenTypes, ∀ r ∈ mentions t, Harmless m r.1 := by
    rw [hr.hidden]
    refine forall₂_congr fun t ht => ?_
    rw [← fillAt_bare t .walked (hhidden t ht), every_fillAt .walked (hhidden t ht), fillAt_bare t .walked (hhidden t ht)]
    exact forall₂_congr fun r _ => hr.harmless_iff_bare.symm
  rw [Canonical, hr.hasContent_eq, allTypes_forall, hplainIff, hhiddenIff, hr.declared_good]
  simp only [and_assoc]

/-! ### The names in the types of a module -/

/-- A name at a place where the tables `U` were put in place of names. -/
theorem every_tablesFilling (hr : Resolved m m' S T) {U : Tables} {r : Ref × Reach}
    (hknown : r.2 ≠ .buried → (U.value r.1).isSome = true) : Every (Content T) (tablesFilling U r.1 r.2) ↔
      (r.2 = .buried → Harmless m r.1) ∧ (r.2 ≠ .buried → ∀ c, U.value r.1 = some c → Every (Content T) c) := by
  obtain ⟨r, reach⟩ := r
  have hfilling : reach ≠ .buried → ∀ c, U.value r = some c → tablesFilling U r reach = c := by
    intro hreach c hc
    cases reach <;> simp_all [tablesFilling]
  by_cases hreach : reach = .buried
  · subst hreach
    have hbare : tablesFilling U r .buried = r.bare := by cases r <;> rfl
    rw [hbare, ← hr.harmless_iff_bare]
    simp
  · obtain ⟨c, hc⟩ := Option.isSome_iff_exists.mp (hknown hreach)
    rw [hfilling hreach c hc]
    simp [hreach, hc]

/-- Tables of a pass between those over the structs. -/
structure Copying (S : Table StructInfo) (T U : Tables) : Prop where
  structs : U.structs = S
  caps : ∀ n info, U.caps n = some info → T.caps n = some info
  enums : ∀ n info, U.enums n = some info → T.enums n = some info
  ifaces : U.ifaces = .empty

theorem Copying.enum (S : Table StructInfo) (T : Tables) (names : List String) : Copying S T (enumTables S T names) := by
  refine ⟨rfl, nofun, fun n info h => ?_, rfl⟩
  by_cases hn : n ∈ names
  · exact (if_pos hn).symm.trans h
  · exact nomatch (if_neg hn).symm.trans h

theorem Copying.cap (S : Table StructInfo) (T : Tables) : Copying S T (capTables S T) :=
  ⟨rfl, nofun, fun _ _ h => h, rfl⟩

theorem Copying.interface (S : Table StructInfo) (T : Tables) : Copying S T (interfaceTables S T) :=
  ⟨rfl, fun _ _ h => h, fun _ _ h => h, rfl⟩

theorem copied_value (hr : Resolved m m' S T) {U : Tables} (hU : Copying S T U) {r : Ref} {c : Ty}
    (hc : U.value r = some c) (hsettled : ∀ name, r = .struct name → Settled m name) : T.value r = some c := by
  cases r with
  | struct n =>
    cases hcap : U.caps n with
    | some info =>
      rw [value_cap hcap] at hc
      exact (value_cap (hU.caps n info hcap)).trans hc
    | none =>
      rw [value_struct hcap, hU.structs, hr.settled_iff.mp (hsettled n rfl)] at hc
      obtain ⟨info, hinfo, _⟩ := Option.map_eq_some_iff.mp hc
      rwa [value_struct (hr.caps_of_structs (hr.names_of_structs hinfo))]
  | enum n =>
    obtain ⟨info, hinfo, rfl⟩ := Option.map_eq_some_iff.mp hc
    rw [Tables.value, hU.enums n info hinfo]
    rfl
  | interface n =>
    rw [Tables.value, hU.ifaces] at hc
    cases hc

theorem settled_of_copied (hr : Resolved m m' S T) {U : Tables} (hU : Copying S T U) {n : String} {c : Ty}
    (hc : U.value (.struct n) = some c) (hevery : Every (Content T) c) : Settled m n := by
  cases hcap : U.caps n with
  | some info => exact hr.settled_of_cap (by simp [hU.caps n info hcap])
  | none =>
    rw [value_struct hcap, hU.structs] at hc
    obtain ⟨info, hinfo, rfl⟩ := Option.map_eq_some_iff.mp hc
    exact hr.settled_of_content hinfo hevery.1

/-- What resolution puts in place of a struct in a struct, where the first pass goes. -/
theorem walked_struct (hr : Resolved m m' S T) {before after : List StructDecl} {d : StructDecl}
    (heq : m.structs = before ++ d :: after) {f : StructField} (hf : f ∈ d.fields) {name : String}
    (hmem : (.struct name, .walked) ∈ mentions f.ty) :
    ∃ info, S name = some info ∧ againFilling S (midway S T (before.map StructDecl.name)) (.struct name) .walked =
      .struct name info.1 info.2 := by
  have hearlier := (hr.first before d after heq).2 f hf _ hmem rfl
  obtain ⟨c, hc, rfl⟩ := List.mem_map.mp hearlier
  have hcs : c ∈ m.structs := heq ▸ List.mem_append_left _ hc
  obtain ⟨before', after', heq'⟩ := List.append_of_mem hcs
  have hS := (hr.first before' c after' heq').1
  exact ⟨_, hS, by rw [againFilling, structFilling, hS]; rfl⟩

/-- Where only the second pass goes, and where none goes. -/
theorem again_skipped {U : Tables} {r : Ref} {reach : Reach} (h : reach ≠ .walked) :
    againFilling S U r reach = tablesFilling U r reach := by
  cases r <;> cases reach <;> first | rfl | exact absurd rfl h

theorem quoted_known {U : Tables} {r : Ref × Reach} (h : Filled U r) (hreach : r.2 ≠ .walked) :
    r.2 ≠ .buried → (U.value r.1).isSome = true := fun hburied => (h hburied).resolve_left fun h => hreach h.1

/-- A settled struct of the first pass is the final one. -/
theorem settled_value (hr : Resolved m m' S T) {name : String} (hsettled : Settled m name) {info : StructInfo}
    (hS : S name = some info) : T.value (.struct name) = some (.struct name info.1 info.2) := by
  rw [value_struct (hr.caps_of_structs (hr.names_of_first hS)), ← hr.settled_iff.mp hsettled, hS]
  rfl

/-! ### What a canonical module shows -/

section Shown

variable (hr : Resolved m m' S T) (hraw : m.Parsed)

include hr hraw

theorem buried_harmless (hgood : ∀ r, Good T r)
    (hplain : ∀ t ∈ m.plainTypes, ∀ r ∈ mentions t, Every (Content T) (tablesFilling T r.1 r.2))
    (hhidden : ∀ t ∈ m.hiddenTypes, ∀ r ∈ mentions t, Harmless m r.1) :
    ∀ t ∈ m.allTypes, ∀ r ∈ mentions t, r.2 = .buried → Harmless m r.1 := by
  have htables : ∀ {U : Tables} {r : Ref × Reach}, Every (Content T) (tablesFilling U r.1 r.2) → r.2 = .buried →
      Harmless m r.1 := by
    rintro U ⟨r, reach⟩ hevery rfl
    have hbare : tablesFilling U r .buried = r.bare := by cases r <;> rfl
    rw [hbare] at hevery
    exact hr.harmless_iff_bare.mpr hevery
  refine allTypes_forall.mpr ⟨?_, ?_, ?_, ?_, fun t ht r hmem => htables (hplain t ht r hmem),
    fun t ht r hmem _ => hhidden t ht r hmem⟩
  · intro t ht r hmem hburied
    obtain ⟨d, hd, ht⟩ := List.mem_flatMap.mp ht
    obtain ⟨f, hf, rfl⟩ := List.mem_map.mp ht
    obtain ⟨before, after, heq⟩ := List.append_of_mem hd
    have hevery := (hr.good_struct hraw heq).mp (hgood _) f hf r hmem
    rw [again_skipped (by simp [hburied])] at hevery
    exact htables hevery hburied
  · intro t ht r hmem
    obtain ⟨d, hd, ht⟩ := List.mem_flatMap.mp ht
    obtain ⟨before, after, heq⟩ := List.append_of_mem hd
    exact htables ((hr.good_enum hraw heq).mp (hgood _) t ht r hmem)
  · intro t ht r hmem
    obtain ⟨d, hd, ht⟩ := List.mem_flatMap.mp ht
    obtain ⟨f, hf, rfl⟩ := List.mem_map.mp ht
    exact htables ((hr.good_cap hraw hd).mp (hgood _) f hf r hmem)
  · intro t ht r hmem
    obtain ⟨d, hd, ht⟩ := List.mem_flatMap.mp ht
    exact htables ((hr.good_iface hraw hd).mp (hgood _) t ht r hmem)

theorem structs_settled (hgood : ∀ r, Good T r) {before after : List StructDecl} {d : StructDecl}
    (heq : m.structs = before ++ d :: after) {f : StructField} (hf : f ∈ d.fields) {name : String} {reach : Reach}
    (hmem : (.struct name, reach) ∈ mentions f.ty) : (reach = .walked → Settled m name) ∧
      (reach = .quoted → name ∈ before.map StructDecl.name ∨ Settled m name) := by
  have hevery := (hr.good_struct hraw heq).mp (hgood _) f hf _ hmem
  constructor
  · rintro rfl
    obtain ⟨info, hS, hfilling⟩ := hr.walked_struct heq hf hmem
    rw [hfilling] at hevery
    exact hr.settled_of_content hS hevery.1
  · rintro rfl
    have hknown := quoted_known ((hr.again before d after heq).2 f hf _ hmem) (by simp)
    obtain ⟨c, hc⟩ := Option.isSome_iff_exists.mp (hknown (by simp))
    rw [again_skipped (by simp), hr.every_tablesFilling hknown] at hevery
    refine or_iff_not_imp_left.mpr fun hname => ?_
    cases hcap : T.caps name with
    | some info => exact hr.settled_of_cap (by simp [hcap])
    | none =>
      have hS : (midway S T (before.map StructDecl.name)).structs name = S name := if_neg hname
      have hcontent := hevery.2 (by simp) c hc
      rw [value_struct (show (midway S T _).caps name = none from hcap), hS] at hc
      obtain ⟨info, hinfo, rfl⟩ := Option.map_eq_some_iff.mp hc
      exact hr.settled_of_content hinfo hcontent.1

theorem copied_settled (hgood : ∀ r, Good T r) : ∀ t ∈ m.enumTypes ++ m.capTypes ++ m.interfaceTypes,
    ∀ name reach, (.struct name, reach) ∈ mentions t → reach ≠ .buried → Settled m name := by
  have htables : ∀ {U : Tables}, Copying S T U → ∀ {t : Ty}, Known U t → ∀ {name reach},
      (.struct name, reach) ∈ mentions t → reach ≠ .buried → Every (Content T) (tablesFilling U (.struct name) reach) →
        Settled m name := by
    intro U hU t hknown name reach hmem hreach hevery
    obtain ⟨c, hc⟩ := Option.isSome_iff_exists.mp (hknown _ hmem hreach)
    exact hr.settled_of_copied hU hc (((hr.every_tablesFilling (hknown _ hmem)).mp hevery).2 hreach c hc)
  rw [List.forall_mem_append, List.forall_mem_append]
  refine ⟨⟨?_, ?_⟩, ?_⟩
  · intro t ht name reach hmem hreach
    obtain ⟨d, hd, ht⟩ := List.mem_flatMap.mp ht
    obtain ⟨before, after, heq⟩ := List.append_of_mem hd
    exact htables (Copying.enum S T _) ((hr.enums before d after heq).2 t ht) hmem hreach
      ((hr.good_enum hraw heq).mp (hgood _) t ht _ hmem)
  · intro t ht name reach hmem hreach
    obtain ⟨d, hd, ht⟩ := List.mem_flatMap.mp ht
    obtain ⟨f, hf, rfl⟩ := List.mem_map.mp ht
    exact htables (Copying.cap S T) ((hr.caps d hd).2 f hf) hmem hreach
      ((hr.good_cap hraw hd).mp (hgood _) f hf _ hmem)
  · intro t ht name reach hmem hreach
    obtain ⟨d, hd, ht⟩ := List.mem_flatMap.mp ht
    exact htables (Copying.interface S T) ((hr.ifaces d hd).2 t ht) hmem hreach
      ((hr.good_iface hraw hd).mp (hgood _) t ht _ hmem)

end Shown

/-! ### What a resolvable module gives -/

section Given

variable (hr : Resolved m m' S T) (hraw : m.Parsed) (hres : Resolvable m)

include hr hraw hres

theorem good_settled : ∀ d ∈ m.structs, Settled m d.name → Good T (.struct d.name) := by
  apply forall_mem_of_before
  intro before d after heq ih hsettled
  have hd : d ∈ m.structs := heq ▸ List.mem_append_right _ List.mem_cons_self
  refine (hr.good_struct hraw heq).mpr fun f hf r hmem => ?_
  obtain ⟨hwalked, hfilled⟩ := And.intro ((hr.first before d after heq).2 f hf r hmem)
    ((hr.again before d after heq).2 f hf r hmem)
  -- The two passes leave the same here, so what the first left can be looked at.
  rw [← (hr.filling_eq_iff hwalked hfilled).mpr (hsettled d hd rfl f hf r hmem)]
  have hleft := hsettled d hd rfl f hf r hmem
  obtain ⟨r, reach⟩ := r
  cases reach with
  | buried =>
    rw [structFilling_of_ne (by simp)]
    exact hr.harmless_iff_bare.mp ((allTypes_forall.mp hres.buried).1 _ (mem_structTypes hd hf) _ hmem rfl)
  | quoted =>
    rw [structFilling_of_ne (by simp)]
    exact hr.harmless_iff_bare.mp (hleft.1 rfl)
  | walked =>
    cases r with
    | enum name => exact hr.harmless_iff_bare.mp (hleft.2 rfl name rfl)
    | interface name => exact (hwalked rfl).elim
    | struct name =>
      obtain ⟨c, hc, rfl⟩ := List.mem_map.mp (hwalked rfl)
      have hname : Settled m c.name := (hres.structs before d after heq f hf _ _ hmem).1 rfl
      obtain ⟨info, hS, hfilling⟩ := hr.walked_struct heq hf hmem
      rw [show structFilling S (.struct c.name) .walked = .struct c.name info.1 info.2 from hfilling]
      exact ih c hc hname _ (hr.settled_value hname hS)

theorem copied_good {U : Tables} (hU : Copying S T U) (henums : ∀ n info, U.enums n = some info → Good T (.enum n))
    (hcaps : ∀ n info, U.caps n = some info → Good T (.struct n)) {t : Ty}
    (ht : t ∈ m.enumTypes ++ m.capTypes ++ m.interfaceTypes) (hknown : Known U t) :
    ∀ r ∈ mentions t, Every (Content T) (tablesFilling U r.1 r.2) := by
  intro r hmem
  have hall : t ∈ m.allTypes := by
    simp only [Module.allTypes, List.mem_append] at ht ⊢
    tauto
  refine (hr.every_tablesFilling (hknown r hmem)).mpr ⟨hres.buried t hall r hmem, fun hreach c hc => ?_⟩
  obtain ⟨r, reach⟩ := r
  have hsettled : ∀ name, r = .struct name → Settled m name := by
    rintro name rfl
    exact hres.copied t ht name reach hmem hreach
  refine (?_ : Good T r) c (hr.copied_value hU hc hsettled)
  cases r with
  | struct n =>
    cases hcap : U.caps n with
    | some info => exact hcaps n info hcap
    | none =>
      rw [value_struct hcap, hU.structs] at hc
      obtain ⟨info, hinfo, _⟩ := Option.map_eq_some_iff.mp hc
      obtain ⟨d, hd, rfl⟩ := List.mem_map.mp (hr.names_of_first hinfo)
      exact hr.good_settled hraw hres d hd (hsettled _ rfl)
  | enum n =>
    obtain ⟨info, hinfo, _⟩ := Option.map_eq_some_iff.mp hc
    exact henums n info hinfo
  | interface n =>
    rw [Tables.value, hU.ifaces] at hc
    cases hc

theorem good_enums : ∀ d ∈ m.enums, Good T (.enum d.name) := by
  apply forall_mem_of_before
  intro before d after heq ih
  have hd : d ∈ m.enums := heq ▸ List.mem_append_right _ List.mem_cons_self
  refine (hr.good_enum hraw heq).mpr fun t ht => ?_
  refine hr.copied_good hraw hres (Copying.enum S T _) (fun n info hn => ?_) nofun ?_ ((hr.enums before d after heq).2 t ht)
  · have hmem : n ∈ before.map EnumDecl.name := by
      by_contra hmem
      exact nomatch (if_neg hmem).symm.trans hn
    obtain ⟨c, hc, rfl⟩ := List.mem_map.mp hmem
    exact ih c hc
  · exact List.mem_append_left _ (List.mem_append_left _ (List.mem_flatMap_of_mem hd ht))

theorem good_enum_of_some {n : String} {info : List (String × List Ty)} (hn : T.enums n = some info) :
    Good T (.enum n) := by
  have hmem : n ∈ m.enums.map EnumDecl.name := by
    by_contra hmem
    rw [hr.enumNames n hmem] at hn
    cases hn
  obtain ⟨d, hd, rfl⟩ := List.mem_map.mp hmem
  exact hr.good_enums hraw hres d hd

theorem good_cap_of_some {n : String} {info : List (String × Ty) × String} (hn : T.caps n = some info) :
    Good T (.struct n) := by
  have hmem : n ∈ m.caps.map CapDecl.name := by
    by_contra hmem
    rw [hr.capNames n hmem] at hn
    cases hn
  obtain ⟨d, hd, rfl⟩ := List.mem_map.mp hmem
  refine (hr.good_cap hraw hd).mpr fun f hf => ?_
  refine hr.copied_good hraw hres (Copying.cap S T) (fun n info hn => hr.good_enum_of_some hraw hres hn) nofun ?_
    ((hr.caps d hd).2 f hf)
  exact List.mem_append_left _ (List.mem_append_right _ (mem_capTypes hd hf))

theorem good_iface_of_some {n : String} {info : List InterfaceMethodSig} (hn : T.ifaces n = some info) :
    Good T (.interface n) := by
  have hmem : n ∈ m.interfaces.map InterfaceDecl.name := by
    by_contra hmem
    rw [hr.ifaceNames n hmem] at hn
    cases hn
  obtain ⟨d, hd, rfl⟩ := List.mem_map.mp hmem
  refine (hr.good_iface hraw hd).mpr fun t ht => ?_
  refine hr.copied_good hraw hres (Copying.interface S T) (fun n info hn => hr.good_enum_of_some hraw hres hn)
    (fun n info hn => hr.good_cap_of_some hraw hres hn) ?_ ((hr.ifaces d hd).2 t ht)
  exact List.mem_append_right _ (List.mem_flatMap_of_mem hd ht)

/-- The structs, in order: a struct has those before it as the second pass left them, and others only where the
first pass had settled them. -/
theorem good_structs : ∀ d ∈ m.structs, Good T (.struct d.name) := by
  apply forall_mem_of_before
  intro before d after heq ih
  have hd : d ∈ m.structs := heq ▸ List.mem_append_right _ List.mem_cons_self
  refine (hr.good_struct hraw heq).mpr fun f hf r hmem => ?_
  obtain ⟨r, reach⟩ := r
  have hfilled := (hr.again before d after heq).2 f hf _ hmem
  have hplaces := fun name (hname : r = .struct name) => hres.structs before d after heq f hf name reach (hname ▸ hmem)
  cases reach with
  | buried =>
    rw [again_skipped (by simp)]
    exact (hr.every_tablesFilling (quoted_known hfilled (by simp))).mpr
      ⟨(allTypes_forall.mp hres.buried).1 _ (mem_structTypes hd hf) _ hmem, fun h => absurd rfl h⟩
  | walked =>
    cases r with
    | struct name =>
      have hname := (hplaces name rfl).1 rfl
      obtain ⟨info, hS, hfilling⟩ := hr.walked_struct heq hf hmem
      obtain ⟨c, hc, rfl⟩ := List.mem_map.mp (hr.names_of_first hS)
      rw [hfilling]
      exact hr.good_settled hraw hres c hc hname _ (hr.settled_value hname hS)
    | enum name =>
      refine (hr.every_tablesFilling (r := (.enum name, .walked)) fun _ => by simpa [Filled] using hfilled).mpr
        ⟨nofun, fun _ c hc => ?_⟩
      obtain ⟨info, hinfo, _⟩ := Option.map_eq_some_iff.mp hc
      exact hr.good_enum_of_some hraw hres hinfo c hc
    | interface name => exact ((hr.first before d after heq).2 f hf _ hmem rfl).elim
  | quoted =>
    rw [again_skipped (by simp)]
    refine (hr.every_tablesFilling (quoted_known hfilled (by simp))).mpr ⟨nofun, fun _ c hc => ?_⟩
    cases r with
    | struct name =>
      cases hcap : T.caps name with
      | some info =>
        rw [value_cap (show (midway S T _).caps name = some info from hcap)] at hc
        exact hr.good_cap_of_some hraw hres hcap c ((value_cap hcap).trans hc)
      | none =>
        rw [value_struct (show (midway S T _).caps name = none from hcap)] at hc
        obtain ⟨info, hinfo, rfl⟩ := Option.map_eq_some_iff.mp hc
        rcases (hplaces name rfl).2 rfl with hname | hname
        · obtain ⟨b, hb, rfl⟩ := List.mem_map.mp hname
          have hT : T.structs b.name = some info := (if_pos hname).symm.trans hinfo
          exact ih b hb _ (by rw [value_struct hcap, hT]; rfl)
        · have hS : S name = some info := by
            rcases (During.midway S T (before.map StructDecl.name)).structs name with h | h
            · exact h.symm.trans hinfo
            · exact (hr.settled_iff.mp hname).trans (h.symm.trans hinfo)
          obtain ⟨b, hb, rfl⟩ := List.mem_map.mp (hr.names_of_first hS)
          exact hr.good_settled hraw hres b hb hname _ (hr.settled_value hname hS)
    | enum name =>
      obtain ⟨info, hinfo, _⟩ := Option.map_eq_some_iff.mp hc
      exact hr.good_enum_of_some hraw hres hinfo c hc
    | interface name =>
      obtain ⟨info, hinfo, _⟩ := Option.map_eq_some_iff.mp hc
      exact hr.good_iface_of_some hraw hres hinfo c hc

theorem good_all : ∀ r, Good T r := by
  intro r c hc
  refine (?_ : Good T r) c hc
  cases r with
  | struct n =>
    cases hcap : T.caps n with
    | some info => exact hr.good_cap_of_some hraw hres hcap
    | none =>
      rw [value_struct hcap] at hc
      obtain ⟨info, hinfo, _⟩ := Option.map_eq_some_iff.mp hc
      obtain ⟨d, hd, rfl⟩ := List.mem_map.mp (hr.names_of_structs hinfo)
      exact hr.good_structs hraw hres d hd
  | enum n =>
    obtain ⟨info, hinfo, _⟩ := Option.map_eq_some_iff.mp hc
    exact hr.good_enum_of_some hraw hres hinfo
  | interface n =>
    obtain ⟨info, hinfo, _⟩ := Option.map_eq_some_iff.mp hc
    exact hr.good_iface_of_some hraw hres hinfo

end Given

end Resolved

/-- **A module that resolves is canonical exactly when it was resolvable**, with one type for all mentions of a
name. -/
theorem canonical_iff_resolvable {m m' : Module} (hraw : m.Parsed) (h : resolveTypes m = .ok m') :
    Canonical m' ∧ Uniform m' ↔ Resolvable m := by
  obtain ⟨S, T, hr⟩ := resolved_of_ok hraw h
  rw [and_iff_left_of_imp Canonical.uniform, hr.canonical_iff_good hraw]
  constructor
  · rintro ⟨hgood, hplain, hhidden⟩
    exact {
      buried := hr.buried_harmless hraw hgood hplain hhidden
      hidden := hhidden
      structs := fun before d after heq f hf name reach hmem => hr.structs_settled hraw hgood heq hf hmem
      copied := hr.copied_settled hraw hgood }
  · intro hres
    have hgood := hr.good_all hraw hres
    obtain ⟨-, -, -, -, hplain, -⟩ := allTypes_forall.mp hres.buried
    refine ⟨hgood, fun t ht r hmem => ?_, hres.hidden⟩
    exact (hr.every_tablesFilling (hr.plain.known t ht r hmem)).mpr ⟨hplain t ht r hmem, fun _ => hgood r.1⟩

/-- `enum Color \x7b Red(int) \x7d`, `struct Point \x7b x: int \x7d` and states of both. -/
def palette : Module where
  name := none
  imports := []
  states := [⟨"at", .struct "Point" [] []⟩, ⟨"colors", .pmap (.struct "Point" [] []) (.enum "Color" [])⟩]
  functions := []
  structs := [⟨"Point", [⟨"x", .int, none⟩], false⟩]
  enums := [⟨"Color", [⟨"Red", [.int]⟩]⟩]
  consts := []
  caps := []
  interfaces := []

/-- The same with the contents. -/
def paletteResolved : Module :=
  { palette with
    states := [⟨"at", .struct "Point" [("x", .int)] []⟩,
      ⟨"colors", .pmap (.struct "Point" [("x", .int)] []) (.enum "Color" [("Red", [.int])])⟩] }

theorem palette_canonical : Canonical paletteResolved ∧ Uniform paletteResolved := by
  have hraw : palette.Parsed := by
    simp [Module.Parsed, Module.allTypes, Module.structTypes, Module.enumTypes, Module.capTypes, Module.interfaceTypes,
      Module.plainTypes, Module.hiddenTypes, palette, Raw]
  have hok : resolveTypes palette = .ok paletteResolved := rfl
  refine (canonical_iff_resolvable hraw hok).mpr ⟨?_, ?_, ?_, ?_⟩
  · simp [Module.allTypes, Module.structTypes, Module.enumTypes, Module.capTypes, Module.interfaceTypes,
      Module.plainTypes, Module.hiddenTypes, palette, mentionsAt]
    rintro r reach (⟨rfl, rfl⟩ | ⟨rfl, rfl⟩) hburied <;> cases hburied
  · simp [Module.hiddenTypes, palette]
  · intro before d after heq f hf name reach hmem
    have hd : d ∈ palette.structs := heq ▸ List.mem_append_right _ List.mem_cons_self
    rw [palette, List.mem_singleton] at hd
    subst hd
    rw [List.mem_singleton.mp hf] at hmem
    simp [mentionsAt] at hmem
  · simp [Module.enumTypes, Module.capTypes, Module.interfaceTypes, palette, mentionsAt]

/-- `enum Coin \x7b Gold(int) \x7d`, `struct Inner \x7b coin: Coin \x7d`, `struct Outer \x7b inner: Inner \x7d`. -/
def nested : Module where
  name := none
  imports := []
  states := []
  functions := []
  structs := [⟨"Inner", [⟨"coin", .enum "Coin" [], none⟩], false⟩, ⟨"Outer", [⟨"inner", .struct "Inner" [] [], none⟩], false⟩]
  enums := [⟨"Coin", [⟨"Gold", [.int]⟩]⟩]
  consts := []
  caps := []
  interfaces := []

/-- What resolution leaves of it: `Outer` has the struct of the first pass, where the enum has no content. -/
def nestedResolved : Module :=
  { nested with
    structs := [⟨"Inner", [⟨"coin", .enum "Coin" [("Gold", [.int])], none⟩], false⟩,
      ⟨"Outer", [⟨"inner", .struct "Inner" [("coin", .enum "Coin" [])] [], none⟩], false⟩] }

theorem nested_not_canonical : nested.Parsed ∧ resolveTypes nested = .ok nestedResolved ∧ ¬ Canonical nestedResolved := by
  refine ⟨?_, rfl, fun h => ?_⟩
  · simp [Module.Parsed, Module.allTypes, Module.structTypes, Module.enumTypes, Module.capTypes, Module.interfaceTypes,
      Module.plainTypes, Module.hiddenTypes, nested, Raw]
  · have hinner : Ty.struct "Inner" [("coin", .enum "Coin" [])] [] ∈ nestedResolved.allTypes := by
      simp [Module.allTypes, Module.structTypes, nestedResolved]
    have hcoin := (h _ hinner).1.struct ⟨"Inner", [⟨"coin", .enum "Coin" [("Gold", [.int])], none⟩], false⟩
      List.mem_cons_self rfl
    simp [structInfo, fieldTypes] at hcoin

end Rend.Typeck
