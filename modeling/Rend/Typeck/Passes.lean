import Rend.Lib.InOrder
import Rend.Typeck.Annotations

/-!
# The passes

Every pass over declarations takes them in order (`Lib.InOrder`). `Resolved` says what each pass leaves, with
the tables after all passes in place of those at each step, and `resolved_of_ok` that a module that resolves
is so.
-/

namespace Rend.Typeck

open Ast Lib

/-! ### Declarations with their names filled -/

def fillFields (σ : Filling) (fields : List StructField) : List StructField :=
  fields.map fun f => { f with ty := fillAt σ .walked f.ty }

def fillVariants (σ : Filling) (variants : List EnumVariant) : List EnumVariant :=
  variants.map fun v => { v with payload := v.payload.map (fillAt σ .walked) }

def fillMethods (σ : Filling) (methods : List InterfaceMethod) : List InterfaceMethod :=
  methods.map fun m =>
    { m with
      params := m.params.map fun p => { p with ty := fillAt σ .walked p.ty }
      returnType := fillAt σ .walked m.returnType }

def methodTypes (m : InterfaceMethod) : List Ty := m.params.map Ast.Param.ty ++ [m.returnType]

theorem fields_filled {resolve : Ty → Except String Ty} {σ : Filling} {fields fields' : List StructField}
    (hone : ∀ f ∈ fields, ∀ ty, resolve f.ty = .ok ty → ty = fillAt σ .walked f.ty)
    (h : resolveFields resolve fields = .ok fields') : fields' = fillFields σ fields := by
  rw [← List.map_id fields']
  refine map_of_mapM_ok (fun f hf f' hf' => ?_) h
  obtain ⟨ty, hty, hf'⟩ := bind_ok hf'
  cases hf'
  rw [hone f hf ty hty]
  rfl

theorem field_resolved {resolve : Ty → Except String Ty} {fields fields' : List StructField}
    (h : resolveFields resolve fields = .ok fields') {f : StructField} (hf : f ∈ fields) :
    ∃ ty, resolve f.ty = .ok ty := by
  obtain ⟨f', hf'⟩ := exists_of_mapM_ok h hf
  obtain ⟨ty, hty, _⟩ := bind_ok hf'
  exact ⟨ty, hty⟩

section WithTables

variable {T : Tables}

theorem fields_full {fields fields' : List StructField} (hraw : ∀ f ∈ fields, Raw f.ty)
    (h : resolveFields (resolveOneWithEnums T) fields = .ok fields') :
    fields' = fillFields (tablesFilling T) fields ∧ ∀ f ∈ fields, Known T f.ty := by
  refine ⟨fields_filled (fun f hf ty hty => ?_) h, fun f hf => ?_⟩
  · exact List.head_eq_of_cons_eq (Full.one (hraw f hf) hty).eq
  · obtain ⟨ty, hty⟩ := field_resolved h hf
    exact (Full.one (hraw f hf) hty).known _ List.mem_cons_self

theorem variants_full {variants variants' : List EnumVariant}
    (hraw : ∀ t ∈ variants.flatMap EnumVariant.payload, Raw t) (h : resolveVariants T variants = .ok variants') :
    variants' = fillVariants (tablesFilling T) variants ∧ ∀ t ∈ variants.flatMap EnumVariant.payload, Known T t := by
  have hone : ∀ v ∈ variants, ∀ v', (do let payload ← resolveOnesWithEnums T v.payload; .ok { v with payload := payload }) = .ok v' →
      Full T v.payload v'.payload ∧ v' = { v with payload := v.payload.map (fillAt (tablesFilling T) .walked) } := by
    intro v hv v' h
    obtain ⟨payload, hpayload, h⟩ := bind_ok h
    cases h
    have hfull := Full.all (fun t ht => hraw t (List.mem_flatMap_of_mem hv ht)) hpayload
    exact ⟨hfull, by rw [hfull.eq]⟩
  refine ⟨?_, (Full.flatMap (fun v hv v' hv' => (hone v hv v' hv').1) h).known⟩
  rw [← List.map_id variants']
  exact map_of_mapM_ok (fun v hv v' hv' => (hone v hv v' hv').2) h

theorem params_eq {params params' : List Ast.Param} (hraw : ∀ t ∈ params.map Ast.Param.ty, Raw t)
    (h : resolveParams T params = .ok params') :
    params' = params.map fun p => { p with ty := fillAt (tablesFilling T) .walked p.ty } := by
  rw [← List.map_id params']
  refine map_of_mapM_ok (fun p hp p' hp' => ?_) h
  obtain ⟨ty, hty, hp'⟩ := bind_ok hp'
  cases hp'
  rw [List.head_eq_of_cons_eq (Full.one (hraw _ (List.mem_map_of_mem hp)) hty).eq]
  rfl

theorem methods_full {methods methods' : List InterfaceMethod} (hraw : ∀ t ∈ methods.flatMap methodTypes, Raw t)
    (h : resolveMethods T methods = .ok methods') :
    methods' = fillMethods (tablesFilling T) methods ∧ ∀ t ∈ methods.flatMap methodTypes, Known T t := by
  have hone : ∀ m ∈ methods, ∀ m', (do
      let params ← resolveParams T m.params
      let returnType ← resolveOneWithEnums T m.returnType
      .ok { m with params := params, returnType := returnType }) = .ok m' →
      Full T (methodTypes m) (methodTypes m') ∧
        m' = { m with
          params := m.params.map fun p => { p with ty := fillAt (tablesFilling T) .walked p.ty }
          returnType := fillAt (tablesFilling T) .walked m.returnType } := by
    intro m hm m' h
    obtain ⟨hparams, hreturn⟩ := List.forall_mem_append.mp fun t ht => hraw t (List.mem_flatMap_of_mem hm ht)
    obtain ⟨params', hparams', h⟩ := bind_ok h
    obtain ⟨returnType', hreturn', h⟩ := bind_ok h
    cases h
    have hone := Full.one (hreturn _ List.mem_cons_self) hreturn'
    refine ⟨(params_full hparams hparams').append hone, ?_⟩
    rw [params_eq hparams hparams', List.head_eq_of_cons_eq hone.eq]
  refine ⟨?_, (Full.flatMap (fun m hm m' hm' => (hone m hm m' hm').1) h).known⟩
  rw [← List.map_id methods']
  exact map_of_mapM_ok (fun m hm m' hm' => (hone m hm m' hm').2) h

end WithTables

/-! ### The passes in order -/

def FirstStep (structs : Table StructInfo) (d d' : StructDecl) (info : StructInfo) : Prop :=
  structs d.name = none ∧ resolveFields (resolveOne structs) d.fields = .ok d'.fields ∧
    d' = { d with fields := d'.fields } ∧ info = structInfo d'.fields

def EnumStep (structs : Table StructInfo) (enums : Table (List (String × List Ty))) (d d' : EnumDecl)
    (info : List (String × List Ty)) : Prop :=
  enums d.name = none ∧ resolveVariants ⟨structs, enums, .empty, .empty⟩ d.variants = .ok d'.variants ∧
    d'.name = d.name ∧ info = variantTypes d'.variants

def CapStep (structs : Table StructInfo) (enums : Table (List (String × List Ty))) (owner : String)
    (caps : Table (List (String × Ty) × String)) (d d' : CapDecl) (info : List (String × Ty) × String) : Prop :=
  (caps d.name = none ∧ structs d.name = none) ∧
    resolveFields (resolveOneWithEnums ⟨structs, enums, .empty, .empty⟩) d.fields = .ok d'.fields ∧
      d'.name = d.name ∧ info = (fieldTypes d'.fields, owner)

def InterfaceStep (structs : Table StructInfo) (enums : Table (List (String × List Ty)))
    (caps : Table (List (String × Ty) × String)) (ifaces : Table (List InterfaceMethodSig)) (d d' : InterfaceDecl)
    (info : List InterfaceMethodSig) : Prop :=
  ifaces d.name = none ∧ resolveMethods ⟨structs, enums, caps, .empty⟩ d.methods = .ok d'.methods ∧
    d'.name = d.name ∧ info = methodSigs d'.methods

/-- The second pass, over structs that the first has been over. -/
def AgainStep (first : StructDecl → StructDecl) (T : Tables) (structs : Table StructInfo) (d d' : StructDecl)
    (info : StructInfo) : Prop :=
  resolveFields (resolveOneWithEnums { T with structs := structs }) (first d).fields = .ok d'.fields ∧
    d'.name = (first d).name ∧ info = structInfo d'.fields

theorem contains_eq_false {α : Type} {t : Table α} {name : String} : t.contains name = false ↔ t name = none := by
  rw [Table.contains, Option.isSome_eq_false_iff, Option.isNone_iff_eq_none]

theorem structs_inOrder {decls decls' : List StructDecl} {t t' : Table StructInfo}
    (h : resolveStructs decls t = .ok (decls', t')) : InOrder StructDecl.name FirstStep decls t decls' t' := by
  induction decls generalizing t decls' with
  | nil =>
    cases h
    exact .nil _
  | cons d decls ih =>
    rw [resolveStructs] at h
    obtain ⟨fields, hfields, h⟩ := bind_ok h
    split at h
    · cases h
    · rename_i hnew
      obtain ⟨⟨ds, u⟩, hrest, h⟩ := bind_ok h
      cases h
      exact .cons ⟨contains_eq_false.mp (by simpa using hnew), hfields, rfl, rfl⟩ (ih hrest)

theorem enums_inOrder {structs : Table StructInfo} {decls decls' : List EnumDecl}
    {t t' : Table (List (String × List Ty))} (h : resolveEnums structs decls t = .ok (decls', t')) :
    InOrder EnumDecl.name (EnumStep structs) decls t decls' t' := by
  induction decls generalizing t decls' with
  | nil =>
    cases h
    exact .nil _
  | cons d decls ih =>
    rw [resolveEnums] at h
    obtain ⟨variants, hvariants, h⟩ := bind_ok h
    split at h
    · cases h
    · rename_i hnew
      obtain ⟨⟨ds, u⟩, hrest, h⟩ := bind_ok h
      cases h
      exact .cons ⟨contains_eq_false.mp (by simpa using hnew), hvariants, rfl, rfl⟩ (ih hrest)

theorem caps_inOrder {structs : Table StructInfo} {enums : Table (List (String × List Ty))} {owner : String}
    {decls decls' : List CapDecl} {t t' : Table (List (String × Ty) × String)}
    (h : resolveCaps structs enums owner decls t = .ok (decls', t')) :
    InOrder CapDecl.name (CapStep structs enums owner) decls t decls' t' := by
  induction decls generalizing t decls' with
  | nil =>
    cases h
    exact .nil _
  | cons d decls ih =>
    rw [resolveCaps] at h
    obtain ⟨fields, hfields, h⟩ := bind_ok h
    split at h
    · cases h
    · rename_i hnew
      obtain ⟨⟨ds, u⟩, hrest, h⟩ := bind_ok h
      cases h
      simp only [Bool.or_eq_true, not_or, Bool.not_eq_true, contains_eq_false] at hnew
      exact .cons ⟨hnew.1, hfields, rfl, rfl⟩ (ih hrest)

theorem interfaces_inOrder {structs : Table StructInfo} {enums : Table (List (String × List Ty))}
    {caps : Table (List (String × Ty) × String)} {decls decls' : List InterfaceDecl} {t t' : Table (List InterfaceMethodSig)}
    (h : resolveInterfaces structs enums caps decls t = .ok (decls', t')) :
    InOrder InterfaceDecl.name (InterfaceStep structs enums caps) decls t decls' t' := by
  induction decls generalizing t decls' with
  | nil =>
    cases h
    exact .nil _
  | cons d decls ih =>
    rw [resolveInterfaces] at h
    obtain ⟨methods, hmethods, h⟩ := bind_ok h
    split at h
    · cases h
    · rename_i hnew
      obtain ⟨⟨ds, u⟩, hrest, h⟩ := bind_ok h
      cases h
      simp only [Bool.or_eq_true, not_or, Bool.not_eq_true, contains_eq_false] at hnew
      exact .cons ⟨hnew.1.1.1, hmethods, rfl, rfl⟩ (ih hrest)

theorem structsAgain_inOrder {first : StructDecl → StructDecl} (hname : ∀ d, (first d).name = d.name)
    {decls decls' : List StructDecl} {T T' : Tables} (h : resolveStructsAgain (decls.map first) T = .ok (decls', T')) :
    T' = { T with structs := T'.structs } ∧
      InOrder StructDecl.name (AgainStep first T) decls T.structs decls' T'.structs := by
  induction decls generalizing T decls' with
  | nil =>
    cases h
    exact ⟨rfl, .nil _⟩
  | cons d decls ih =>
    rw [List.map_cons, resolveStructsAgain] at h
    obtain ⟨fields, hfields, h⟩ := bind_ok h
    obtain ⟨⟨ds, U⟩, hrest, h⟩ := bind_ok h
    cases h
    obtain ⟨hU, hds⟩ := ih hrest
    refine ⟨hU, .cons ⟨hfields, rfl, rfl⟩ ?_⟩
    have henter : enter T.structs d.name (structInfo fields) = T.structs.insert (first d).name (structInfo fields) := by
      rw [hname]
      rfl
    rw [henter]
    exact hds

end Rend.Typeck
