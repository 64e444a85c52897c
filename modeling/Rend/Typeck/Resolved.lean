import Rend.Typeck.Passes

/-!
# A resolved module

`Resolved` says what the passes leave of a module, in terms of the structs after the first pass and of the
tables after all of them. A module that resolves is so (`resolved_of_ok`).
-/

namespace Rend.Typeck

open Ast Lib

/-- A module as the parser leaves it. -/
def Module.Parsed (m : Module) : Prop := ∀ t ∈ m.allTypes, Raw t

/-- The tables at a struct of the second pass. -/
def midway (S : Table StructInfo) (T : Tables) (names : List String) : Tables :=
  { T with structs := between S T.structs names }

/-- The tables at an enum. -/
def enumTables (S : Table StructInfo) (T : Tables) (names : List String) : Tables :=
  ⟨S, between Table.empty T.enums names, .empty, .empty⟩

def capTables (S : Table StructInfo) (T : Tables) : Tables := ⟨S, T.enums, .empty, .empty⟩

def interfaceTables (S : Table StructInfo) (T : Tables) : Tables := ⟨S, T.enums, T.caps, .empty⟩

/-- What a name that the first pass goes to is of. -/
def Earlier (names : List String) : Ref → Prop
  | .struct name => name ∈ names
  | .enum _ => True
  | .interface _ => False

/-- The tables have the declarations of a module. -/
structure Tabled (m : Module) (T : Tables) : Prop where
  structs : ∀ {n info}, T.structs n = some info ↔ ∃ d ∈ m.structs, d.name = n ∧ structInfo d.fields = info
  enums : ∀ {n info}, T.enums n = some info ↔ ∃ d ∈ m.enums, d.name = n ∧ variantTypes d.variants = info
  caps : ∀ {n info}, T.caps n = some info ↔ ∃ d ∈ m.caps, d.name = n ∧ (fieldTypes d.fields, m.owner) = info
  ifaces : ∀ {n info}, T.ifaces n = some info ↔ ∃ d ∈ m.interfaces, d.name = n ∧ methodSigs d.methods = info

/-- What the passes leave of `m`: the structs `S` after the first pass, and the tables `T` after all. -/
structure Resolved (m m' : Module) (S : Table StructInfo) (T : Tables) : Prop where
  tabled : Tabled m' T
  first : ∀ before d after, m.structs = before ++ d :: after →
    S d.name = some (structInfo (fillFields (structFilling S) d.fields)) ∧
      ∀ f ∈ d.fields, ∀ r ∈ mentions f.ty, r.2 = .walked → Earlier (before.map StructDecl.name) r.1
  again : ∀ before d after, m.structs = before ++ d :: after →
    T.structs d.name =
        some (structInfo (fillFields (againFilling S (midway S T (before.map StructDecl.name))) d.fields)) ∧
      ∀ f ∈ d.fields, ∀ r ∈ mentions f.ty, Filled (midway S T (before.map StructDecl.name)) r
  enums : ∀ before d after, m.enums = before ++ d :: after →
    T.enums d.name =
        some (variantTypes (fillVariants (tablesFilling (enumTables S T (before.map EnumDecl.name))) d.variants)) ∧
      ∀ t ∈ d.variants.flatMap EnumVariant.payload, Known (enumTables S T (before.map EnumDecl.name)) t
  caps : ∀ d ∈ m.caps,
    T.caps d.name = some (fieldTypes (fillFields (tablesFilling (capTables S T)) d.fields), m.owner) ∧
      ∀ f ∈ d.fields, Known (capTables S T) f.ty
  ifaces : ∀ d ∈ m.interfaces,
    T.ifaces d.name = some (methodSigs (fillMethods (tablesFilling (interfaceTables S T)) d.methods)) ∧
      ∀ t ∈ d.methods.flatMap methodTypes, Known (interfaceTables S T) t
  plain : Full T m.plainTypes m'.plainTypes
  hidden : m'.hiddenTypes = m.hiddenTypes
  structNames : ∀ n, n ∉ m.structs.map StructDecl.name → S n = none ∧ T.structs n = none
  enumNames : ∀ n, n ∉ m.enums.map EnumDecl.name → T.enums n = none
  capNames : ∀ n, n ∉ m.caps.map CapDecl.name → T.caps n = none
  ifaceNames : ∀ n, n ∉ m.interfaces.map InterfaceDecl.name → T.ifaces n = none
  apart : ∀ d ∈ m.caps, d.name ∉ m.structs.map StructDecl.name

/-! ### The first pass over the structs -/

theorem accepted_between {S : Table StructInfo} {names : List String} {r : Ref}
    (h : Accepted (between Table.empty S names) r) : Earlier names r := by
  cases r with
  | struct name =>
    by_contra hname
    have hnone : between Table.empty S names name = none := if_neg hname
    rw [Accepted, hnone] at h
    cases h
  | enum _ => trivial
  | interface _ => exact h

theorem structFilling_between {S : Table StructInfo} {names : List String} {r : Ref × Reach}
    (h : r.2 = .walked → Earlier names r.1) :
    structFilling (between Table.empty S names) r.1 r.2 = structFilling S r.1 r.2 := by
  obtain ⟨r, reach⟩ := r
  cases reach with
  | walked =>
    cases r with
    | struct name =>
      have hname : between Table.empty S names name = S name := if_pos (h rfl)
      rw [structFilling, structFilling, hname]
    | enum _ => rfl
    | interface _ => rfl
  | quoted => rw [structFilling_of_ne (by simp), structFilling_of_ne (by simp)]
  | buried => rw [structFilling_of_ne (by simp), structFilling_of_ne (by simp)]

theorem first_fields {S : Table StructInfo} {names : List String} {fields fields' : List StructField}
    (hraw : ∀ f ∈ fields, Raw f.ty) (h : resolveFields (resolveOne (between Table.empty S names)) fields = .ok fields') :
    fields' = fillFields (structFilling S) fields ∧
      ∀ f ∈ fields, ∀ r ∈ mentions f.ty, r.2 = .walked → Earlier names r.1 := by
  have hwalked : ∀ f ∈ fields, ∀ r ∈ mentions f.ty, r.2 = .walked → Earlier names r.1 := by
    intro f hf r hr hplace
    obtain ⟨ty, hty⟩ := field_resolved h hf
    exact accepted_between ((resolveOne_ok (hraw f hf) hty).2 r hr hplace)
  refine ⟨fields_filled (fun f hf ty hty => ?_) h, hwalked⟩
  rw [(resolveOne_ok (hraw f hf) hty).1]
  exact fillAt_congr f.ty .walked fun r hr => structFilling_between (hwalked f hf r hr)

/-! ### The second pass -/

theorem again_fields {S : Table StructInfo} {T : Tables} {fields fields' : List StructField}
    (hempty : ∀ name groups, S name = some ([], groups) → T.caps name = none ∧ T.structs name = some ([], groups))
    (hraw : ∀ f ∈ fields, Raw f.ty)
    (haccepted : ∀ f ∈ fields, ∀ r ∈ mentions f.ty, r.2 = .walked → Accepted S r.1)
    (h : resolveFields (resolveOneWithEnums T) (fillFields (structFilling S) fields) = .ok fields') :
    fields' = fillFields (againFilling S T) fields ∧ ∀ f ∈ fields, ∀ r ∈ mentions f.ty, Filled T r := by
  refine ⟨?_, fun f hf => ?_⟩
  · rw [resolveFields, fillFields, List.mapM_map] at h
    rw [← List.map_id fields']
    refine map_of_mapM_ok (fun f hf f' hf' => ?_) h
    obtain ⟨ty, hty, hf'⟩ := bind_ok hf'
    cases hf'
    rw [(resolveAgain_ok hempty (hraw f hf) (haccepted f hf) hty).1]
    rfl
  · obtain ⟨ty, hty⟩ := field_resolved h (List.mem_map_of_mem hf)
    exact (resolveAgain_ok hempty (hraw f hf) (haccepted f hf) hty).2

/-! ### Both passes over the structs -/

/-- A struct after the first pass. -/
def firstForm (S : Table StructInfo) (d : StructDecl) : StructDecl :=
  { d with fields := fillFields (structFilling S) d.fields }

section Structs

variable {decls first decls' : List StructDecl} {S structs : Table StructInfo} {T : Tables}

theorem first_pass (hraw : ∀ d ∈ decls, ∀ f ∈ d.fields, Raw f.ty)
    (h : InOrder StructDecl.name FirstStep decls Table.empty first S) :
    first = decls.map (firstForm S) ∧ ∀ before d after, decls = before ++ d :: after →
      S d.name = some (structInfo (fillFields (structFilling S) d.fields)) ∧
        ∀ f ∈ d.fields, ∀ r ∈ mentions f.ty, r.2 = .walked → Earlier (before.map StructDecl.name) r.1 := by
  obtain ⟨hnodup, _⟩ := h.fresh fun hstep => hstep.1
  refine ⟨h.eq_map hnodup fun before d after heq d' info hstep => ?_, fun before d after heq => ?_⟩
  · obtain ⟨_, hfields, hd', _⟩ := hstep
    have hd : d ∈ decls := heq ▸ List.mem_append_right _ List.mem_cons_self
    rw [hd', (first_fields (hraw d hd) hfields).1]
    rfl
  · obtain ⟨d', _, info, ⟨_, hfields, _, rfl⟩, hinfo⟩ := h.step_at hnodup before d after heq
    have hd : d ∈ decls := heq ▸ List.mem_append_right _ List.mem_cons_self
    obtain ⟨hfilled, hwalked⟩ := first_fields (hraw d hd) hfields
    rw [hfilled] at hinfo
    exact ⟨hinfo, hwalked⟩

theorem accepted_of_earlier (hS : ∀ d ∈ decls, ∃ info, S d.name = some info) {before after : List StructDecl}
    {d : StructDecl} (heq : decls = before ++ d :: after) {r : Ref} (h : Earlier (before.map StructDecl.name) r) :
    Accepted S r := by
  cases r with
  | struct name =>
    obtain ⟨c, hc, rfl⟩ := List.mem_map.mp h
    obtain ⟨info, hinfo⟩ := hS c (heq ▸ List.mem_append_left _ hc)
    rw [Accepted, hinfo]
    rfl
  | enum _ => trivial
  | interface _ => exact h

/-- The second pass leaves a struct without fields as it is. -/
theorem empty_stays (hnodup : (decls.map StructDecl.name).Nodup)
    (hS : ∀ d ∈ decls, S d.name = some (structInfo (fillFields (structFilling S) d.fields)))
    (h : InOrder StructDecl.name (AgainStep (firstForm S) T) decls S decls' structs) {d : StructDecl} (hd : d ∈ decls)
    {groups : List (Option String)} (hempty : S d.name = some ([], groups)) : structs d.name = some ([], groups) := by
  obtain ⟨before, after, heq⟩ := List.append_of_mem hd
  obtain ⟨d', _, info, ⟨hfields, _, rfl⟩, hinfo⟩ := h.step_at hnodup before d after heq
  have hcontent : structInfo (fillFields (structFilling S) d.fields) = ([], groups) :=
    Option.some.inj ((hS d hd).symm.trans hempty)
  have hnone : d.fields = [] := by simpa [structInfo, fieldTypes, fillFields] using congrArg Prod.fst hcontent
  have hd' : d'.fields = [] := by
    rw [firstForm, hnone] at hfields
    exact (Except.ok.inj hfields).symm
  rw [hinfo, hd', ← hcontent, hnone]
  rfl

theorem again_pass (hraw : ∀ d ∈ decls, ∀ f ∈ d.fields, Raw f.ty)
    (hfirst : InOrder StructDecl.name FirstStep decls Table.empty first S)
    (hcaps : ∀ n, S n ≠ none → T.caps n = none)
    (h : InOrder StructDecl.name (AgainStep (firstForm S) T) decls S decls' structs) :
    ∀ before d after, decls = before ++ d :: after →
      structs d.name = some (structInfo (fillFields
          (againFilling S { T with structs := between S structs (before.map StructDecl.name) }) d.fields)) ∧
        ∀ f ∈ d.fields, ∀ r ∈ mentions f.ty,
          Filled { T with structs := between S structs (before.map StructDecl.name) } r := by
  intro before d after heq
  obtain ⟨hnodup, _⟩ := hfirst.fresh fun hstep => hstep.1
  obtain ⟨_, hall⟩ := first_pass hraw hfirst
  have hS : ∀ d ∈ decls, S d.name = some (structInfo (fillFields (structFilling S) d.fields)) := by
    intro d hd
    obtain ⟨before, after, heq⟩ := List.append_of_mem hd
    exact (hall before d after heq).1
  have hd : d ∈ decls := heq ▸ List.mem_append_right _ List.mem_cons_self
  have hempty : ∀ name groups, S name = some ([], groups) → T.caps name = none ∧
      between S structs (before.map StructDecl.name) name = some ([], groups) := by
    intro name groups hname
    refine ⟨hcaps name (by simp [hname]), ?_⟩
    unfold between
    split_ifs with hmem
    · obtain ⟨c, hc, rfl⟩ := List.mem_map.mp hmem
      exact empty_stays hnodup hS h (heq ▸ List.mem_append_left _ hc) hname
    · exact hname
  obtain ⟨d', _, info, ⟨hfields, _, rfl⟩, hinfo⟩ := h.step_at hnodup before d after heq
  have haccepted : ∀ f ∈ d.fields, ∀ r ∈ mentions f.ty, r.2 = .walked → Accepted S r.1 := fun f hf r hr hplace =>
    accepted_of_earlier (fun d hd => ⟨_, hS d hd⟩) heq ((hall before d after heq).2 f hf r hr hplace)
  obtain ⟨hfilled, hknown⟩ := again_fields hempty (hraw d hd) haccepted hfields
  rw [hfilled] at hinfo
  exact ⟨hinfo, hknown⟩

end Structs

/-! ### All passes -/

theorem allTypes_forall {m : Module} {P : Ty → Prop} : (∀ t ∈ m.allTypes, P t) ↔
    (∀ t ∈ m.structTypes, P t) ∧ (∀ t ∈ m.enumTypes, P t) ∧ (∀ t ∈ m.capTypes, P t) ∧
      (∀ t ∈ m.interfaceTypes, P t) ∧ (∀ t ∈ m.plainTypes, P t) ∧ ∀ t ∈ m.hiddenTypes, P t := by
  simp only [Module.allTypes, List.forall_mem_append, and_assoc]

theorem mem_structTypes {m : Module} {d : StructDecl} (hd : d ∈ m.structs) {f : StructField} (hf : f ∈ d.fields) :
    f.ty ∈ m.structTypes := List.mem_flatMap.mpr ⟨d, hd, List.mem_map_of_mem hf⟩

theorem mem_capTypes {m : Module} {d : CapDecl} (hd : d ∈ m.caps) {f : StructField} (hf : f ∈ d.fields) :
    f.ty ∈ m.capTypes := List.mem_flatMap.mpr ⟨d, hd, List.mem_map_of_mem hf⟩

/-- The rest of the module is filled with what the tables have. -/
theorem plain_full {T : Tables} {m m' : Module} (hraw : ∀ t ∈ m.plainTypes, Raw t) (hhidden : ∀ t ∈ m.hiddenTypes, Raw t)
    (hstates : m.states.mapM (resolveState T) = .ok m'.states)
    (hfunctions : m.functions.mapM (resolveFn T) = .ok m'.functions)
    (himports : m.imports.mapM (resolveImport T) = .ok m'.imports)
    (hconsts : m.consts.mapM (resolveConst T) = .ok m'.consts) :
    Full T m.plainTypes m'.plainTypes ∧ m'.hiddenTypes = m.hiddenTypes := by
  obtain ⟨hraw, hconst⟩ := List.forall_mem_append.mp hraw
  obtain ⟨hraw, himport⟩ := List.forall_mem_append.mp hraw
  obtain ⟨hstate, hfn⟩ := List.forall_mem_append.mp hraw
  obtain ⟨hlets, _⟩ := List.forall_mem_append.mp hhidden
  have hfnFull : ∀ f ∈ m.functions, ∀ f', resolveFn T f = .ok f' →
      Full T (fnTypes f) (fnTypes f') ∧ lets false f' = lets false f := fun f hf f' hf' =>
    fn_full (fun t ht => hfn t (List.mem_flatMap_of_mem hf ht)) (fun t ht => hlets t (List.mem_flatMap_of_mem hf ht)) hf'
  have hconstFull : ∀ c ∈ m.consts, ∀ c', resolveConst T c = .ok c' →
      Full T [c.ty] [c'.ty] ∧ c'.value = c.value := fun c hc c' hc' =>
    const_full (hconst _ (List.mem_map_of_mem hc)) hc'
  constructor
  · have hs : Full T (m.states.map StateDecl.ty) (m'.states.map StateDecl.ty) := by
      rw [List.map_eq_flatMap, List.map_eq_flatMap]
      exact Full.flatMap (fun s hs s' hs' => state_full (hstate _ (List.mem_map_of_mem hs)) hs') hstates
    have hf : Full T (m.functions.flatMap fnTypes) (m'.functions.flatMap fnTypes) :=
      Full.flatMap (fun f hf f' hf' => (hfnFull f hf f' hf').1) hfunctions
    have hi : Full T (m.imports.flatMap importTypes) (m'.imports.flatMap importTypes) :=
      Full.flatMap (fun i hi i' hi' => import_full (fun t ht => himport t (List.mem_flatMap_of_mem hi ht)) hi') himports
    have hc : Full T (m.consts.map ConstDecl.ty) (m'.consts.map ConstDecl.ty) := by
      rw [List.map_eq_flatMap, List.map_eq_flatMap]
      exact Full.flatMap (fun c hc c' hc' => (hconstFull c hc c' hc').1) hconsts
    exact ((hs.append hf).append hi).append hc
  · have hf : m'.functions.map (lets false) = m.functions.map (lets false) :=
      map_of_mapM_ok (fun f hf f' hf' => (hfnFull f hf f' hf').2) hfunctions
    have hc : m'.consts.map (fun c => letsExpr c.value) = m.consts.map fun c => letsExpr c.value :=
      map_of_mapM_ok (fun c hc c' hc' => congrArg letsExpr (hconstFull c hc c' hc').2) hconsts
    rw [Module.hiddenTypes, Module.hiddenTypes, List.flatMap_def, List.flatMap_def, hf, hc, ← List.flatMap_def,
      ← List.flatMap_def]

theorem resolved_of_ok {m m' : Module} (hraw : m.Parsed) (h : resolveTypes m = .ok m') :
    ∃ S T, Resolved m m' S T := by
  obtain ⟨hstruct, henum, hcap, hiface, hplain, hhidden⟩ := allTypes_forall.mp hraw
  obtain ⟨⟨first, S⟩, hfirst, h⟩ := bind_ok h
  obtain ⟨⟨enums, E⟩, henums, h⟩ := bind_ok h
  obtain ⟨⟨caps, C⟩, hcaps, h⟩ := bind_ok h
  obtain ⟨⟨interfaces, I⟩, hinterfaces, h⟩ := bind_ok h
  obtain ⟨⟨structs, T⟩, hagain, h⟩ := bind_ok h
  obtain ⟨states, hstates, h⟩ := bind_ok h
  obtain ⟨functions, hfunctions, h⟩ := bind_ok h
  obtain ⟨imports, himports, h⟩ := bind_ok h
  obtain ⟨consts, hconsts, h⟩ := bind_ok h
  cases h
  have hfields : ∀ d ∈ m.structs, ∀ f ∈ d.fields, Raw f.ty := fun d hd f hf => hstruct _ (mem_structTypes hd hf)
  have hfirst : InOrder StructDecl.name FirstStep m.structs Table.empty first S := structs_inOrder hfirst
  have henums := enums_inOrder henums
  have hcaps := caps_inOrder hcaps
  have hinterfaces := interfaces_inOrder hinterfaces
  obtain ⟨rfl, _⟩ := first_pass hfields hfirst
  obtain ⟨hT, hagain⟩ := structsAgain_inOrder (show ∀ d, (firstForm S d).name = d.name from fun _ => rfl) hagain
  obtain ⟨T, E', C', I'⟩ := T
  obtain ⟨rfl, rfl, rfl⟩ : E' = E ∧ C' = C ∧ I' = I := by simpa using hT
  obtain ⟨hstructNodup, _⟩ := hfirst.fresh fun hstep => hstep.1
  obtain ⟨henumNodup, _⟩ := henums.fresh fun hstep => hstep.1
  obtain ⟨hcapNodup, _⟩ := hcaps.fresh fun hstep => hstep.1.1
  obtain ⟨hifaceNodup, _⟩ := hinterfaces.fresh fun hstep => hstep.1
  have hS : ∀ n, n ∉ m.structs.map StructDecl.name → S n = none := fun n hn => hfirst.of_not_mem hn
  have hapart : ∀ d ∈ m.caps, S d.name = none := by
    intro d hd
    obtain ⟨before, after, heq⟩ := List.append_of_mem hd
    obtain ⟨_, _, _, hstep, _⟩ := hcaps.step_at hcapNodup before d after heq
    exact hstep.1.2
  have hnoCap : ∀ n, S n ≠ none → C' n = none := by
    intro n hn
    apply hcaps.of_not_mem
    intro hmem
    obtain ⟨d, hd, rfl⟩ := List.mem_map.mp hmem
    exact hn (hapart d hd)
  have hrest : Full ⟨T, E', C', I'⟩ m.plainTypes
        (Module.mk m.name imports states functions structs enums consts caps interfaces).plainTypes ∧
      (Module.mk m.name imports states functions structs enums consts caps interfaces).hiddenTypes = m.hiddenTypes :=
    plain_full hplain hhidden hstates hfunctions himports hconsts
  refine ⟨S, ⟨T, E', C', I'⟩, {
    tabled := ⟨?_, ?_, ?_, ?_⟩
    first := (first_pass hfields hfirst).2
    again := again_pass hfields hfirst hnoCap hagain
    enums := ?_
    caps := ?_
    ifaces := ?_
    plain := hrest.1
    hidden := hrest.2
    structNames := fun n hn => ⟨hS n hn, (hagain.of_not_mem hn).trans (hS n hn)⟩
    enumNames := fun n hn => henums.of_not_mem hn
    capNames := fun n hn => hcaps.of_not_mem hn
    ifaceNames := fun n hn => hinterfaces.of_not_mem hn
    apart := ?_ }⟩
  · exact hagain.content_iff (fun hstep => ⟨hstep.2.1, hstep.2.2⟩) hstructNodup hS
  · exact henums.content_iff (fun hstep => ⟨hstep.2.2.1, hstep.2.2.2⟩) henumNodup fun _ _ => rfl
  · exact hcaps.content_iff (fun hstep => ⟨hstep.2.2.1, hstep.2.2.2⟩) hcapNodup fun _ _ => rfl
  · exact hinterfaces.content_iff (fun hstep => ⟨hstep.2.2.1, hstep.2.2.2⟩) hifaceNodup fun _ _ => rfl
  · intro before d after heq
    obtain ⟨d', _, info, ⟨_, hvariants, _, rfl⟩, hinfo⟩ := henums.step_at henumNodup before d after heq
    have hd : d ∈ m.enums := heq ▸ List.mem_append_right _ List.mem_cons_self
    obtain ⟨hfilled, hknown⟩ := variants_full (fun t ht => henum t (List.mem_flatMap_of_mem hd ht)) hvariants
    rw [hfilled] at hinfo
    exact ⟨hinfo, hknown⟩
  · intro d hd
    obtain ⟨before, after, heq⟩ := List.append_of_mem hd
    obtain ⟨d', _, info, ⟨_, hcapFields, _, rfl⟩, hinfo⟩ := hcaps.step_at hcapNodup before d after heq
    obtain ⟨hfilled, hknown⟩ := fields_full (fun f hf => hcap _ (mem_capTypes hd hf)) hcapFields
    rw [hfilled] at hinfo
    exact ⟨hinfo, hknown⟩
  · intro d hd
    obtain ⟨before, after, heq⟩ := List.append_of_mem hd
    obtain ⟨d', _, info, ⟨_, hmethods, _, rfl⟩, hinfo⟩ := hinterfaces.step_at hifaceNodup before d after heq
    obtain ⟨hfilled, hknown⟩ := methods_full (fun t ht => hiface t (List.mem_flatMap_of_mem hd ht)) hmethods
    rw [hfilled] at hinfo
    exact ⟨hinfo, hknown⟩
  · intro d hd hmem
    obtain ⟨c, hc, hname⟩ := List.mem_map.mp hmem
    obtain ⟨before, after, heq⟩ := List.append_of_mem hc
    have hcS := ((first_pass hfields hfirst).2 before c after heq).1
    rw [hname, hapart d hd] at hcS
    cases hcS

end Rend.Typeck
