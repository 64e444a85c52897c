import Rend.Structs.Registers
import Rend.Structs.Write

/-!
# What a typed write stores

A typed write of a value stores it in the cells of its type: a field in its own cells or in the blob of
its group, each blob written once, when the first of its fields comes up. What it has written it does not
write again, since the names of a `Proper` type stand for one thing only (`ToWrite`). Then the cells of
the type hold the value, and every other cell what it held (`writeTyped_stores`).
-/

namespace Rend.Structs

open Lib Tx

attribute [local irreducible] child

variable {Γ : U128 → Ty} {N : Set U128} {tx tx' : Tx} {V : U128 → Value} {key : U128}

/-! ### Writing cells -/

/-- From one state to a later one the cells outside a set keep their values, and the registers what they
are promised. -/
structure Changes (Γ : U128 → Ty) (N cells : Set U128) (tx tx' : Tx) : Prop where
  laid : Laid Γ N tx'
  fresh : tx'.Fresh
  frame : ∀ c ∉ cells, laidValue Γ tx' c = laidValue Γ tx c
  yields : ∀ a v, Yields tx a v → Yields tx' a v

theorem Observes.changes (h : Observes Γ N tx tx') (cells : Set U128) : Changes Γ N cells tx tx' :=
  ⟨h.laid, h.fresh, fun _ _ => by rw [h.value], h.yields⟩

theorem Changes.trans {cells cells' : Set U128} {tx'' : Tx} (h : Changes Γ N cells tx tx')
    (h' : Changes Γ N cells' tx' tx'') : Changes Γ N (cells ∪ cells') tx tx'' := by
  refine ⟨h'.laid, h'.fresh, fun c hc => ?_, fun a v hy => h'.yields a v (h.yields a v hy)⟩
  rw [h'.frame c fun hmem => hc (.inr hmem), h.frame c fun hmem => hc (.inl hmem)]

theorem Changes.mono {cells cells' : Set U128} (h : Changes Γ N cells tx tx') (hsub : cells ⊆ cells') :
    Changes Γ N cells' tx tx' :=
  ⟨h.laid, h.fresh, fun c hc => h.frame c fun hmem => hc (hsub hmem), h.yields⟩

theorem write_of_not_pending {v : Value} (hv : containsPending v = false) (tx : Tx) (c : U128) :
    tx.write c v = { tx with writes := tx.writes.insert c v } := by
  rw [Tx.write, force_eq_of_not_pending hv]

theorem laidValue_write {v : Value} (hv : containsPending v = false) (c d : U128) :
    laidValue Γ (tx.write c v) d = if d = c then v else laidValue Γ tx d := by
  rw [write_of_not_pending hv]
  unfold laidValue
  split_ifs with hd
  · subst hd
    rw [AList.lookup_insert, Option.getD_some]
  · rw [AList.lookup_insert_ne hd]
    rfl

/-- A write of a value to a cell that is no node. -/
theorem changes_write (h : Laid Γ N tx) (hf : tx.Fresh) {c : U128} (hc : c ∉ N) {v : Value}
    (hv : containsPending v = false) : Changes Γ N {c} tx (tx.write c v) := by
  have hvalue : ∀ d ≠ c, laidValue Γ (tx.write c v) d = laidValue Γ tx d := fun d hd => by
    rw [laidValue_write hv, if_neg hd]
  refine ⟨⟨fun d w hw hr => ?_, ?_, ?_, fun d hd kt vt bm cs hnode => ?_, fun d => ?_⟩, ?_, hvalue, fun a u hy => ?_⟩
  · rw [write_of_not_pending hv] at hw hr ⊢
    by_cases hd : d = c
    · subst hd
      rw [AList.lookup_insert] at hw
      cases hw
    · rw [AList.lookup_insert_ne hd] at hw
      exact h.cached d w hw hr
  · rw [write_of_not_pending hv]
    exact h.pending
  · rw [write_of_not_pending hv]
    exact h.walks
  · rw [hvalue d fun hd' => hc (hd' ▸ hd)] at hnode
    exact h.nodes d hd kt vt bm cs hnode
  · rw [laidValue_write hv]
    split_ifs
    · exact hv
    · exact h.clean d
  · rw [write_of_not_pending hv]
    exact hf
  · rw [write_of_not_pending hv]
    exact hy

/-! ### Writing a value at a type -/

mutual

/-- The value is a struct wherever the type is split, with the fields of the type in their order. -/
def Shaped : Ty → Value → Prop
  | .explicitLiteral inner, v => Shaped inner v
  | .struct name fields groups, v =>
    ∃ vs, v = .struct name vs ∧ vs.map Prod.fst = fields.map Prod.fst ∧ ShapedFields vs fields groups
  | _, _ => True
  termination_by structural x => x

def ShapedFields (vs : List (String × Value)) : List (String × Ty) → List (Option String) → Prop
  | [], _ => True
  | (fname, fty) :: fields, groups =>
    (groups.headD none = none → Shaped fty (fieldOrDefault vs fname fty)) ∧ ShapedFields vs fields groups.tail
  termination_by structural x => x

end

theorem ShapedFields.of_fieldAt {vs : List (String × Value)} {fields : List (String × Ty)}
    {groups : List (Option String)} (h : ShapedFields vs fields groups) {f : String × Ty}
    (hf : FieldAt fields groups f none) : Shaped f.2 (fieldOrDefault vs f.1 f.2) := by
  induction fields generalizing groups with
  | nil => cases hf.mem
  | cons f' fields ih =>
    obtain ⟨hhead, hrest⟩ := h
    rcases fieldAt_cons.mp hf with ⟨rfl, hg⟩ | hf
    · exact hhead hg.symm
    · exact ih hrest hf

/-- The cells of the leaves of a type. -/
def cells (key : U128) (ty : Ty) : Set U128 := {c | ∃ l ∈ leafPaths ty, pathCell key l.1 = c}

/-- The cells of fields, but for those of the groups in `emitted`. -/
def fieldCells (key : U128) (blobTy : String → Ty) (fields : List (String × Ty)) (groups : List (Option String))
    (emitted : List String) : Set U128 :=
  {c | ∃ l ∈ fieldPaths blobTy fields groups emitted, pathCell key l.1 = c}

/-- The fields of a struct that are still to be written, behind those of the groups in `emitted`. -/
structure ToWrite (N : Set U128) (key : U128) (blobTy : String → Ty) (blob : String → Value)
    (vs : List (String × Value)) (fields : List (String × Ty)) (groups : List (Option String))
    (emitted : List String) : Prop where
  nodup : (fields.map Prod.fst).Nodup
  proper : ProperFields fields groups
  shaped : ShapedFields vs fields groups
  /-- A field that has a cell of its own is not named as a group. -/
  group : ∀ f g, FieldAt fields groups f none → (g ∈ emitted ∨ ∃ f', FieldAt fields groups f' (some g)) →
    f.1 = g → Splits f.2
  apart : ∀ p p', (p ∈ (fieldPaths blobTy fields groups emitted).map Prod.fst ∨ ∃ g ∈ emitted, p = [g]) →
    (p' ∈ (fieldPaths blobTy fields groups emitted).map Prod.fst ∨ ∃ g ∈ emitted, p' = [g]) →
    pathCell key p = pathCell key p' → p = p'
  outside : ∀ l ∈ fieldPaths blobTy fields groups emitted, pathCell key l.1 ∉ N
  blob_field : ∀ f g, FieldAt fields groups f (some g) → getField (blob g) f.1 = some (fieldOrDefault vs f.1 f.2)

section ToWrite

variable {blobTy : String → Ty} {blob : String → Value} {vs : List (String × Value)} {f : String × Ty}
  {fields : List (String × Ty)} {groups : List (Option String)} {emitted emitted' : List String}

theorem mem_fieldPaths_of_tail (hsub : emitted ⊆ emitted')
    {l : List String × Ty} (hl : l ∈ fieldPaths blobTy fields groups.tail emitted') :
    l ∈ fieldPaths blobTy (f :: fields) groups emitted := by
  rcases mem_fieldPaths.mp hl with ⟨f', hf', hrest⟩ | ⟨f', g, hf', hg, rfl⟩
  · exact mem_fieldPaths.mpr (.inl ⟨f', fieldAt_cons.mpr (.inr hf'), hrest⟩)
  · exact mem_fieldPaths.mpr (.inr ⟨f', g, fieldAt_cons.mpr (.inr hf'), fun hmem => hg (hsub hmem), rfl⟩)

/-- Behind a field: its group has been written with it. -/
theorem ToWrite.tail (h : ToWrite N key blobTy blob vs (f :: fields) groups emitted) (hsub : emitted ⊆ emitted')
    (hnew : ∀ g ∈ emitted', g ∈ emitted ∨ groups.headD none = some g) :
    ToWrite N key blobTy blob vs fields groups.tail emitted' := by
  have hleaf : ∀ l ∈ fieldPaths blobTy fields groups.tail emitted', l ∈ fieldPaths blobTy (f :: fields) groups emitted :=
    fun l hl => mem_fieldPaths_of_tail hsub hl
  have hpath : ∀ p, (p ∈ (fieldPaths blobTy fields groups.tail emitted').map Prod.fst ∨ ∃ g ∈ emitted', p = [g]) →
      p ∈ (fieldPaths blobTy (f :: fields) groups emitted).map Prod.fst ∨ ∃ g ∈ emitted, p = [g] := by
    rintro p (hp | ⟨g, hg, rfl⟩)
    · obtain ⟨l, hl, rfl⟩ := List.mem_map.mp hp
      exact .inl (List.mem_map_of_mem (hleaf l hl))
    · by_cases hmem : g ∈ emitted
      · exact .inr ⟨g, hmem, rfl⟩
      · have hhead := (hnew g hg).resolve_left hmem
        exact .inl (List.mem_map_of_mem
          (mem_fieldPaths.mpr (.inr ⟨f, g, fieldAt_cons.mpr (.inl ⟨rfl, hhead.symm⟩), hmem, rfl⟩)))
  refine ⟨(List.nodup_cons.mp h.nodup).2, h.proper.2, h.shaped.2, fun f' g hf' hg => ?_,
    fun p p' hp hp' => h.apart p p' (hpath p hp) (hpath p' hp'), fun l hl => h.outside l (hleaf l hl),
    fun f' g hf' => h.blob_field f' g (fieldAt_cons.mpr (.inr hf'))⟩
  refine h.group f' g (fieldAt_cons.mpr (.inr hf')) ?_
  rcases hg with hg | ⟨f'', hf''⟩
  · exact (hnew g hg).imp_right fun hhead => ⟨f, fieldAt_cons.mpr (.inl ⟨rfl, hhead.symm⟩)⟩
  · exact .inr ⟨f'', fieldAt_cons.mpr (.inr hf'')⟩

/-- A group that has been written is not written again. -/
theorem ToWrite.group_cell (h : ToWrite N key blobTy blob vs fields groups emitted) {g : String} (hg : g ∈ emitted) :
    child key (strBytes g) ∉ fieldCells key blobTy fields groups emitted := by
  rintro ⟨l, hl, heq⟩
  rw [← pathCell_group] at heq
  have hpath := h.apart _ _ (.inl (List.mem_map_of_mem hl)) (.inr ⟨g, hg, rfl⟩) heq
  rcases mem_fieldPaths.mp hl with ⟨f, hf, l', hl', rfl⟩ | ⟨f, g', hf, hout, rfl⟩
  · obtain ⟨hname, hnil⟩ := List.cons.inj hpath
    exact ne_nil_of_splits (h.group f g hf (.inl hg) hname) hl' hnil
  · rw [(List.cons.inj hpath).1] at hout
    exact hout hg

/-- The cells of the first field are neither those of a group that has been written nor written again. -/
theorem ToWrite.head_cell (h : ToWrite N key blobTy blob vs (f :: fields) groups emitted)
    (hf : groups.headD none = none) {l : List String × Ty} (hl : l ∈ leafPaths f.2) :
    (∀ g ∈ emitted, pathCell key (f.1 :: l.1) ≠ child key (strBytes g)) ∧
      pathCell key (f.1 :: l.1) ∉ fieldCells key blobTy fields groups.tail emitted := by
  have hhead : FieldAt (f :: fields) groups f none := fieldAt_cons.mpr (.inl ⟨rfl, hf.symm⟩)
  have hmem : f.1 :: l.1 ∈ (fieldPaths blobTy (f :: fields) groups emitted).map Prod.fst :=
    List.mem_map.mpr ⟨_, mem_fieldPaths.mpr (.inl ⟨f, hhead, l, hl, rfl⟩), rfl⟩
  refine ⟨fun g hg heq => ?_, ?_⟩
  · rw [← pathCell_group] at heq
    obtain ⟨hname, hnil⟩ := List.cons.inj (h.apart _ _ (.inl hmem) (.inr ⟨g, hg, rfl⟩) heq)
    exact ne_nil_of_splits (h.group f g hhead (.inl hg) hname) hl hnil
  · rintro ⟨l', hl', heq⟩
    rcases mem_fieldPaths.mp hl' with ⟨f', hf', l'', hl'', rfl⟩ | ⟨f', g, hf', hout, rfl⟩
    · have hmem' : f'.1 :: l''.1 ∈ (fieldPaths blobTy (f :: fields) groups emitted).map Prod.fst :=
        List.mem_map.mpr ⟨_, mem_fieldPaths.mpr (.inl ⟨f', fieldAt_cons.mpr (.inr hf'), l'', hl'', rfl⟩), rfl⟩
      have hname := (List.cons.inj (h.apart _ _ (.inl hmem') (.inl hmem) heq)).1
      exact (List.nodup_cons.mp h.nodup).1 (hname ▸ List.mem_map_of_mem hf'.mem)
    · have hmem' : [g] ∈ (fieldPaths blobTy (f :: fields) groups emitted).map Prod.fst :=
        List.mem_map.mpr ⟨_, mem_fieldPaths.mpr (.inr ⟨f', g, fieldAt_cons.mpr (.inr hf'), hout, rfl⟩), rfl⟩
      obtain ⟨hname, hnil⟩ := List.cons.inj (h.apart _ _ (.inl hmem) (.inl hmem') heq.symm)
      exact ne_nil_of_splits (h.group f g hhead (.inr ⟨f', fieldAt_cons.mpr (.inr hf')⟩) hname) hl hnil

end ToWrite

theorem not_pending_fieldOrDefault {vs : List (String × Value)} (h : containsPendingFields vs = false)
    (fname : String) (fty : Ty) : containsPending (fieldOrDefault vs fname fty) = false := by
  unfold fieldOrDefault
  cases hv : vs.lookup fname with
  | none => exact containsPending_of_handles _ (handles_defaultFor fty)
  | some v => exact not_pending_lookup h hv

theorem not_pending_buildGroupBlob {vs : List (String × Value)} (h : containsPendingFields vs = false) (parent : String)
    (declared : List (String × Ty)) (groups : List (Option String)) (group : String) :
    containsPending (buildGroupBlob parent declared groups vs group).2 = false := by
  rw [buildGroupBlob, containsPending]
  induction groupFields declared groups group with
  | nil => rfl
  | cons f fields ih => rw [List.map_cons, containsPendingFields, not_pending_fieldOrDefault h, ih, Bool.false_or]

/-- The fields of a group. -/
theorem mem_groupFields {fields : List (String × Ty)} {groups : List (Option String)} {f : String × Ty} {g : String} :
    f ∈ groupFields fields groups g ↔ FieldAt fields groups f (some g) := by
  unfold groupFields FieldAt
  constructor
  · intro h
    obtain ⟨⟨f', i⟩, hmem, rfl⟩ := List.mem_map.mp h
    obtain ⟨hzip, hg⟩ := List.mem_filter.mp hmem
    exact ⟨i, List.mem_zipIdx_iff_getElem?.mp hzip, of_decide_eq_true hg⟩
  · rintro ⟨i, hf, hg⟩
    exact List.mem_map.mpr ⟨(f, i), List.mem_filter.mpr ⟨List.mem_zipIdx_iff_getElem?.mpr hf, decide_eq_true hg⟩, rfl⟩

theorem lookup_map_of_nodup {fields : List (String × Ty)} (hnodup : (fields.map Prod.fst).Nodup) {f : String × Ty}
    (hf : f ∈ fields) (value : String × Ty → Value) :
    (fields.map fun f => (f.1, value f)).lookup f.1 = some (value f) := by
  induction fields with
  | nil => cases hf
  | cons f' fields ih =>
    obtain ⟨hout, hnodup⟩ := List.nodup_cons.mp hnodup
    rw [List.map_cons, List.lookup_cons]
    rcases List.mem_cons.mp hf with rfl | hf
    · rw [beq_self_eq_true]
    · have hne : f.1 ≠ f'.1 := fun he => hout (he ▸ List.mem_map_of_mem hf)
      rw [beq_false_of_ne hne]
      exact ih hnodup hf

/-- The blob of a group has the values of its fields. -/
theorem getField_buildGroupBlob {parent : String} {declared : List (String × Ty)} {groups : List (Option String)}
    {vs : List (String × Value)} (hnodup : (declared.map Prod.fst).Nodup) {f : String × Ty} {g : String}
    (hf : FieldAt declared groups f (some g)) :
    getField (buildGroupBlob parent declared groups vs g).2 f.1 = some (fieldOrDefault vs f.1 f.2) := by
  have hsub : ((groupFields declared groups g).map Prod.fst).Sublist (declared.map Prod.fst) := by
    have hzip : declared.map Prod.fst = (declared.zipIdx.map Prod.fst).map Prod.fst := by rw [List.zipIdx_map_fst]
    rw [hzip]
    exact (List.filter_sublist.map Prod.fst).map Prod.fst
  rw [buildGroupBlob, getField]
  exact lookup_map_of_nodup (hnodup.sublist hsub) (mem_groupFields.mpr hf) fun f => fieldOrDefault vs f.1 f.2

/-- A struct with the fields of its type in their order. -/
theorem map_fieldOrDefault {fields : List (String × Ty)} {vs : List (String × Value)}
    (hnames : vs.map Prod.fst = fields.map Prod.fst) (hnodup : (fields.map Prod.fst).Nodup) :
    (fields.map fun f => (f.1, fieldOrDefault vs f.1 f.2)) = vs := by
  induction fields generalizing vs with
  | nil => exact (List.map_eq_nil_iff.mp hnames).symm
  | cons f fields ih =>
    cases vs with
    | nil => cases hnames
    | cons v vs =>
      obtain ⟨hname, hrest⟩ := List.cons.inj hnames
      obtain ⟨hout, hnodup⟩ := List.nodup_cons.mp hnodup
      have htail : (fields.map fun f => (f.1, fieldOrDefault (v :: vs) f.1 f.2)) =
          fields.map fun f => (f.1, fieldOrDefault vs f.1 f.2) := by
        refine List.map_congr_left fun f' hf' => ?_
        have hne : f'.1 ≠ v.1 := fun he => hout (by rw [← hname, ← he]; exact List.mem_map_of_mem hf')
        rw [fieldOrDefault, fieldOrDefault, List.lookup_cons, beq_false_of_ne hne]
      rw [List.map_cons, htail, ih hrest hnodup, fieldOrDefault, List.lookup_cons, ← hname, beq_self_eq_true]
      rfl

mutual

/-- **A typed write stores the value**, and changes no other cell. -/
theorem writeTyped_stores {tx : Tx} (h : Laid Γ N tx) (hf : tx.Fresh) {key : U128} {ty : Ty} {v : Value} (hp : Proper ty)
    (ha : CellsApart key ty) (hN : ∀ l ∈ leafPaths ty, pathCell key l.1 ∉ N) (hv : containsPending v = false)
    (hs : Shaped ty v) : Changes Γ N (cells key ty) tx (tx.writeTyped key ty v) ∧
      Stores (laidValue Γ (tx.writeTyped key ty v)) key ty v := by
  have hplain : ∀ {ty' : Ty}, leafPaths ty' = [([], ty')] → (∀ l ∈ leafPaths ty', pathCell key l.1 ∉ N) →
      Changes Γ N (cells key ty') tx ((tx.force v).1.write key (tx.force v).2) ∧
        laidValue Γ ((tx.force v).1.write key (tx.force v).2) key = v := by
    intro ty' hleaf hN'
    rw [force_eq_of_not_pending hv]
    have hmem : ([], ty') ∈ leafPaths ty' := hleaf ▸ List.mem_cons_self
    have hout := hN' _ hmem
    rw [pathCell] at hout
    refine ⟨(changes_write h hf hout hv).mono ?_, by rw [laidValue_write hv, if_pos rfl]⟩
    rintro c rfl
    exact ⟨_, hmem, by rw [pathCell]⟩
  cases ty with
  | explicitLiteral inner =>
    have hp' : Proper inner := hp
    have hinner := writeTyped_stores h hf hp' ha hN hv hs
    exact hinner
  | struct name fields groups =>
    obtain ⟨vs, rfl, hnames, hshaped⟩ := hs
    rw [writeTyped, force_eq_of_not_pending hv]
    dsimp only
    have hw : ToWrite N key (groupTy name fields groups) (fun g => (buildGroupBlob name fields groups vs g).2) vs fields
        groups [] := by
      refine ⟨hp.1.nodup, hp.2, hshaped, fun f g hf hg hname => ?_, fun p p' hp hp' heq => ?_, hN,
        fun f g hf => getField_buildGroupBlob hp.1.nodup hf⟩
      · rcases hg with hg | ⟨f', hf'⟩
        · cases hg
        · exact hp.1.group f f' g hf hf' hname
      · have hleaf : ∀ {p : List String}, (p ∈ (fieldPaths (groupTy name fields groups) fields groups []).map Prod.fst ∨
            ∃ g ∈ ([] : List String), p = [g]) → ∃ l ∈ leafPaths (.struct name fields groups), l.1 = p := by
          rintro p (hp | ⟨g, hg, -⟩)
          · exact List.mem_map.mp hp
          · cases hg
        obtain ⟨l, hl, rfl⟩ := hleaf hp
        obtain ⟨l', hl', rfl⟩ := hleaf hp'
        exact ha l hl l' hl' heq
    obtain ⟨hchange, hfields⟩ := writeFields_stores h hf hw hv
      (fun g => not_pending_buildGroupBlob hv name fields groups g) fun g hg => by cases hg
    refine ⟨hchange, vs, rfl, ?_⟩
    rwa [map_fieldOrDefault hnames hp.1.nodup] at hfields
  | _ => exact hplain rfl hN

theorem writeFields_stores {tx : Tx} (h : Laid Γ N tx) (hf : tx.Fresh) {key : U128} {blobTy : String → Ty}
    {blob : String → Value} {vs : List (String × Value)} {fields : List (String × Ty)}
    {groups : List (Option String)} {emitted : List String}
    (hw : ToWrite N key blobTy blob vs fields groups emitted) (hvs : containsPendingFields vs = false)
    (hblob : ∀ g, containsPending (blob g) = false)
    (hemitted : ∀ g ∈ emitted, laidValue Γ tx (child key (strBytes g)) = blob g) :
    Changes Γ N (fieldCells key blobTy fields groups emitted) tx
        (tx.writeFields key blob vs fields groups emitted) ∧
      StoresFields (laidValue Γ (tx.writeFields key blob vs fields groups emitted)) key fields groups
        (fields.map fun f => (f.1, fieldOrDefault vs f.1 f.2)) := by
  cases fields with
  | nil => exact ⟨(Observes.refl h hf).changes _, rfl⟩
  | cons f fields =>
    obtain ⟨fname, fty⟩ := f
    unfold writeFields
    rw [List.map_cons]
    cases hg : groups.headD none with
    | none =>
      dsimp only
      have hhead : FieldAt ((fname, fty) :: fields) groups (fname, fty) none := fieldAt_cons.mpr (.inl ⟨rfl, hg.symm⟩)
      -- the field is written to its own cells, which nothing else is written to
      have hcell := fun {l} hl => hw.head_cell hg (l := l) hl
      have hapart : CellsApart (child key (strBytes fname)) fty := by
        intro l hl l' hl' heq
        have hmem : ∀ l ∈ leafPaths fty, fname :: l.1 ∈ (fieldPaths blobTy ((fname, fty) :: fields) groups emitted).map Prod.fst :=
          fun l hl => List.mem_map.mpr ⟨_, mem_fieldPaths.mpr (.inl ⟨_, hhead, l, hl, rfl⟩), rfl⟩
        have hpath := hw.apart _ _ (.inl (hmem l hl)) (.inl (hmem l' hl')) (by rw [pathCell, pathCell, heq])
        exact (List.cons.inj hpath).2
      have hout : ∀ l ∈ leafPaths fty, pathCell (child key (strBytes fname)) l.1 ∉ N := fun l hl => by
        rw [← pathCell]
        exact hw.outside _ (mem_fieldPaths.mpr (.inl ⟨_, hhead, l, hl, rfl⟩))
      obtain ⟨hchange, hstored⟩ := writeTyped_stores h hf (hw.proper.1 hg) hapart hout
        (not_pending_fieldOrDefault hvs fname fty) (hw.shaped.1 hg)
      obtain ⟨hrest, hfields⟩ := writeFields_stores hchange.laid hchange.fresh
        (hw.tail (List.Subset.refl emitted) fun g hg => .inl hg) hvs hblob (by
          intro g hmem
          rw [hchange.frame _ ?_, hemitted g hmem]
          rintro ⟨l, hl, heq⟩
          rw [← pathCell] at heq
          exact (hcell hl).1 g hmem heq)
      refine ⟨(hchange.trans hrest).mono ?_, _, _, rfl, ?_, hfields⟩
      · rintro c (⟨l, hl, rfl⟩ | ⟨l, hl, rfl⟩)
        · exact ⟨_, mem_fieldPaths.mpr (.inl ⟨_, hhead, l, hl, rfl⟩), by rw [pathCell]⟩
        · exact ⟨l, mem_fieldPaths_of_tail (List.Subset.refl emitted) hl, rfl⟩
      · rw [hg]
        refine hstored.congr fun l hl => hrest.frame _ ?_
        rw [← pathCell]
        exact (hcell hl).2
    | some g =>
      have hhead : FieldAt ((fname, fty) :: fields) groups (fname, fty) (some g) :=
        fieldAt_cons.mpr (.inl ⟨rfl, hg.symm⟩)
      -- the field is in the blob of its group, which is not written again
      have hstored : ∀ {tx' : Tx} {emitted' : List String}, Changes Γ N (fieldCells key blobTy fields groups.tail emitted')
          tx' (tx'.writeFields key blob vs fields groups.tail emitted') →
          child key (strBytes g) ∉ fieldCells key blobTy fields groups.tail emitted' →
          laidValue Γ tx' (child key (strBytes g)) = blob g →
          getField (laidValue Γ (tx'.writeFields key blob vs fields groups.tail emitted') (child key (strBytes g)))
            fname = some (fieldOrDefault vs fname fty) := by
        intro tx' emitted' hchange hcell hvalue
        rw [hchange.frame _ hcell, hvalue]
        exact hw.blob_field _ g hhead
      dsimp only
      split_ifs with hmem
      · have htail := hw.tail (List.Subset.refl emitted) fun g' hg' => .inl hg'
        obtain ⟨hrest, hfields⟩ := writeFields_stores h hf htail hvs hblob hemitted
        refine ⟨hrest.mono ?_, _, _, rfl, ?_, hfields⟩
        · rintro c ⟨l, hl, rfl⟩
          exact ⟨l, mem_fieldPaths_of_tail (List.Subset.refl emitted) hl, rfl⟩
        · rw [hg]
          exact hstored hrest (htail.group_cell hmem) (hemitted g hmem)
      · have hsub : emitted ⊆ g :: emitted := fun g' hg' => List.mem_cons_of_mem g hg'
        have htail := hw.tail hsub fun g' hg' => (List.mem_cons.mp hg').symm.imp_right fun he => by rw [hg, he]
        have hleaf : ([g], blobTy g) ∈ fieldPaths blobTy ((fname, fty) :: fields) groups emitted :=
          mem_fieldPaths.mpr (.inr ⟨_, g, hhead, hmem, rfl⟩)
        have hout : child key (strBytes g) ∉ N := by
          rw [← pathCell_group]
          exact hw.outside _ hleaf
        have hchange := changes_write h hf hout (hblob g)
        have hemitted' : ∀ g' ∈ g :: emitted,
            laidValue Γ (tx.write (child key (strBytes g)) (blob g)) (child key (strBytes g')) = blob g' := by
          intro g' hg'
          rw [laidValue_write (hblob g)]
          split_ifs with heq
          · rw [← pathCell_group, ← pathCell_group] at heq
            have hpath := htail.apart _ _ (.inr ⟨g', hg', rfl⟩) (.inr ⟨g, List.mem_cons_self, rfl⟩) heq
            rw [(List.cons.inj hpath).1]
          · rcases List.mem_cons.mp hg' with rfl | hg'
            · exact absurd rfl heq
            · exact hemitted g' hg'
        obtain ⟨hrest, hfields⟩ := writeFields_stores hchange.laid hchange.fresh htail hvs hblob hemitted'
        refine ⟨(hchange.trans hrest).mono ?_, _, _, rfl, ?_, hfields⟩
        · rintro c (rfl | ⟨l, hl, rfl⟩)
          · exact ⟨_, hleaf, pathCell_group key g⟩
          · exact ⟨l, mem_fieldPaths_of_tail hsub hl, rfl⟩
        · rw [hg]
          exact hstored hrest (htail.group_cell List.mem_cons_self) (hemitted' g List.mem_cons_self)

end

end Rend.Structs
