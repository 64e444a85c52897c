import Rend.Lib.Checks
import Rend.Index.Maintain

/-!
# Indexes are complete and unique

An index is complete when every live record is found under its key (`Complete`): a unique index holds
the record itself there, a multi-index a list it is in. Overwritten records leave their old entries
behind, so the converse does not hold. `complete_of_separate` shows that the indexes of a checked module
are complete in every state of every history, if each slot belongs to one primary and none is itself an
indexed primary (`Separate`). Two records with one unique key then cannot both be live, and the write of
the second one fails.

The checker does not ask for `Separate`. Two primaries that share a slot share its entries as well, and
the removal of a record of one of them takes away the entry of a record of the other
(`shared_slot_incomplete`).
-/

namespace Rend.Index

/-! ### The invariant -/

/-- The slot finds the record `k` under this key. -/
def Backs (kind : IndexKind) (slot : Slot) (key k : Value) : Prop :=
  match kind with
  | .unique => slot key = some k
  | .multi => k ∈ entryList (slot key)

/-- Every live record is found under its key, in every index over its state. -/
def Complete (m : Module) (st : Store) : Prop :=
  ∀ idx ∈ m.indexes, ∀ k v, st idx.onState k = some v →
    ∃ key, emitIndexKey idx v = .ok key ∧ Backs idx.kind (st idx.name) key k

/-- No two live records share the key of a unique index. -/
def Unique (m : Module) (st : Store) : Prop :=
  ∀ idx ∈ m.indexes, idx.kind = .unique → ∀ k k' v v', st idx.onState k = some v →
    st idx.onState k' = some v' → emitIndexKey idx v = emitIndexKey idx v' → k = k'

/-- Another live record has the key of `v` in a unique index. -/
def Taken (m : Module) (st : Store) (p : String) (k v : Value) : Prop :=
  ∃ idx ∈ m.indexes, idx.kind = .unique ∧ idx.onState = p ∧
    ∃ k' v', k' ≠ k ∧ st p k' = some v' ∧ emitIndexKey idx v = emitIndexKey idx v'

/-- Each slot belongs to the indexes of one primary, and is not an indexed primary. -/
structure Separate (m : Module) : Prop where
  owner : ∀ idx ∈ m.indexes, ∀ idx' ∈ m.indexes, idx.name = idx'.name → idx.onState = idx'.onState
  primary : ∀ idx ∈ m.indexes, ∀ idx' ∈ m.indexes, idx.name ≠ idx'.onState

theorem Complete.unique {m : Module} {st : Store} (h : Complete m st) : Unique m st := by
  intro idx hidx hkind k k' v v' hv hv' hkey
  obtain ⟨key, hk, hb⟩ := h idx hidx k v hv
  obtain ⟨key', hk', hb'⟩ := h idx hidx k' v' hv'
  obtain rfl : key = key' := by simpa [hkey, hk'] using hk.symm
  rw [hkind] at hb hb'
  have hb : st idx.name key = some k := hb
  have hb' : st idx.name key = some k' := hb'
  simpa [hb] using hb'

theorem complete_empty (m : Module) : Complete m fun _ _ => none := by
  intro idx _ k v h
  cases h

/-! ### Slots -/

/-- After the instruction the slot finds the record. -/
theorem backs_link {idx : IndexDecl} {slot slot' : Slot} {key k : Value}
    (h : link idx slot key k = .ok slot') : Backs idx.kind slot' key k := by
  unfold link at h
  cases hk : idx.kind with
  | unique =>
    rw [hk] at h
    simp only [putUnique] at h
    split at h
    · rename_i prior hp
      split at h
      · cases h
      · rename_i heq
        cases h
        show slot key = some k
        rw [hp, not_not.mp heq]
    · cases h
      show Function.update slot key (some k) key = some k
      simp
  | multi =>
    rw [hk] at h
    cases h
    show k ∈ entryList (appendUnique slot key k key)
    dsimp only [appendUnique]
    split
    · assumption
    · simp [entryList]

/-- What the slot found before, it finds after the instruction. -/
theorem Backs.link {idx : IndexDecl} {slot slot' : Slot} {key k key' k' : Value}
    (h : link idx slot key k = .ok slot') (hb : Backs idx.kind slot key' k') :
    Backs idx.kind slot' key' k' := by
  unfold Index.link at h
  cases hk : idx.kind with
  | unique =>
    rw [hk] at h hb
    have hb : slot key' = some k' := hb
    simp only [putUnique] at h
    split at h
    · split at h
      · cases h
      · cases h
        exact hb
    · rename_i hn
      cases h
      -- The key is free, so it is not the one of the entry.
      have hne : key' ≠ key := by
        rintro rfl
        rw [hn] at hb
        cases hb
      show Function.update slot key (some k) key' = some k'
      rw [Function.update_of_ne hne, hb]
  | multi =>
    rw [hk] at h hb
    cases h
    have hb : k' ∈ entryList (slot key') := hb
    show k' ∈ entryList (appendUnique slot key k key')
    dsimp only [appendUnique]
    split
    · exact hb
    · by_cases hkey : key' = key
      · subst hkey
        rw [Function.update_self]
        exact List.mem_append_left [k] hb
      · rwa [Function.update_of_ne hkey]

/-- The slot is as before, or its list for the key has lost the element. -/
theorem removeFromList_cases (slot : Slot) (key elem : Value) :
    removeFromList slot key elem = slot ∨
      ∃ arr, slot key = some (.array arr) ∧ ∃ entry, removeFromList slot key elem =
        Function.update slot key entry ∧ entryList entry = arr.filter fun e => e ≠ elem := by
  unfold removeFromList
  split
  · rename_i arr harr
    dsimp only
    split
    · exact .inl rfl
    · refine .inr ⟨arr, harr, ?_⟩
      split
      · rename_i he
        exact ⟨none, rfl, (List.isEmpty_iff.mp he).symm⟩
      · exact ⟨_, rfl, rfl⟩
  · exact .inl rfl

/-- Taking one record out leaves the entries of the others. -/
theorem Backs.unlink {idx : IndexDecl} {slot : Slot} {key k key' k' : Value} (hne : k' ≠ k)
    (hb : Backs idx.kind slot key' k') : Backs idx.kind (unlink idx slot key k) key' k' := by
  unfold Index.unlink
  cases hk : idx.kind with
  | unique =>
    rw [hk] at hb
    have hb : slot key' = some k' := hb
    show removeUnique slot key k key' = some k'
    unfold removeUnique
    split
    · rename_i heq
      have : key' ≠ key := by
        rintro rfl
        exact hne (Option.some.inj (hb.symm.trans heq))
      rw [Function.update_of_ne this, hb]
    · exact hb
  | multi =>
    rw [hk] at hb
    have hb : k' ∈ entryList (slot key') := hb
    show k' ∈ entryList (removeFromList slot key k key')
    obtain heq | ⟨arr, harr, entry, heq, hentry⟩ := removeFromList_cases slot key k
    · rwa [heq]
    · rw [heq]
      by_cases hkey : key' = key
      · subst hkey
        have : k' ∈ arr := by simpa [entryList, harr] using hb
        rw [Function.update_self, hentry]
        simp [this, hne]
      · rwa [Function.update_of_ne hkey]

/-! ### Kinds -/

/-- What a declaration that passes the check says about the types of its states. -/
theorem checkIndex_slot {m : Module} {idx : IndexDecl} (h : checkIndex m idx = .ok ()) :
    ∃ pk pv ik iv, primaryTypes m idx = .ok (pk, pv) ∧ slotTypes m idx = .ok (ik, iv) ∧
      slotElem idx iv = .ok pk := by
  unfold checkIndex at h
  cases hp : primaryTypes m idx with
  | error e => rw [hp] at h; cases h
  | ok p =>
    cases hs : slotTypes m idx with
    | error e => rw [hp, hs] at h; cases h
    | ok s =>
      cases he : slotElem idx s.2 with
      | error e => simp [hp, hs, he, bind, Except.bind] at h
      | ok elem =>
        simp only [hp, hs, he, bind, Except.bind] at h
        split at h
        · cases h
        · split at h
          · cases h
          · split at h
            · cases h
            · rename_i heq
              exact ⟨p.1, p.2, s.1, s.2, rfl, rfl, by rw [he, not_not.mp heq]⟩

theorem Ty.array_ne (t : Ty) : Ty.array t ≠ t := by
  intro h
  have := congrArg sizeOf h
  simp at this

/-- The type of the entries of a slot, by its kind. -/
def entryTy (kind : IndexKind) (k : Ty) : Ty :=
  match kind with
  | .unique => k
  | .multi => .array k

theorem slotElem_ok {idx : IndexDecl} {value k : Ty} (h : slotElem idx value = .ok k) :
    value = entryTy idx.kind k := by
  unfold slotElem at h
  cases hk : idx.kind with
  | unique =>
    rw [hk] at h
    cases h
    rfl
  | multi =>
    rw [hk] at h
    cases value <;> first | cases h; rfl | cases h

/-- Indexes of one primary that share a slot are of one kind. -/
theorem kind_eq {m : Module} {idx idx' : IndexDecl} (h : checkIndex m idx = .ok ())
    (h' : checkIndex m idx' = .ok ()) (hname : idx.name = idx'.name) (hon : idx.onState = idx'.onState) :
    idx.kind = idx'.kind := by
  obtain ⟨pk, pv, ik, iv, hp, hs, he⟩ := checkIndex_slot h
  obtain ⟨pk', pv', ik', iv', hp', hs', he'⟩ := checkIndex_slot h'
  obtain rfl : pk = pk' := by
    unfold primaryTypes at hp hp'
    rw [hon] at hp
    cases hty : m.stateTy idx'.onState with
    | none => rw [hty] at hp; cases hp
    | some ty =>
      rw [hty] at hp hp'
      cases ty <;> first | cases hp; cases hp'; rfl | cases hp
  obtain rfl : iv = iv' := by
    unfold slotTypes at hs hs'
    rw [hname] at hs
    cases hty : m.stateTy idx'.name with
    | none => rw [hty] at hs; cases hs
    | some ty =>
      rw [hty] at hs hs'
      cases ty <;> first | cases hs; cases hs'; rfl | cases hs
  have hv := slotElem_ok he
  rw [slotElem_ok he'] at hv
  -- A type is not the type of its own lists.
  cases hk : idx.kind <;> cases hk' : idx'.kind
  · rfl
  · rw [hk, hk'] at hv
    exact absurd hv (Ty.array_ne pk)
  · rw [hk, hk'] at hv
    exact absurd hv.symm (Ty.array_ne pk)
  · rfl

/-! ### Writes -/

/-- The index finds the record `k` with the value `v`. -/
def Found (idx : IndexDecl) (st : Store) (k v : Value) : Prop :=
  ∃ key, emitIndexKey idx v = .ok key ∧ Backs idx.kind (st idx.name) key k

theorem Found.congr {idx : IndexDecl} {st st' : Store} {k v : Value} (h : Found idx st k v)
    (hst : st' idx.name = st idx.name) : Found idx st' k v := by
  obtain ⟨key, hkey, hb⟩ := h
  exact ⟨key, hkey, by rwa [hst]⟩

theorem linkRecord_ok {idx : IndexDecl} {st st' : Store} {k v : Value}
    (h : linkRecord k v st idx = .ok st') :
    ∃ key slot, emitIndexKey idx v = .ok key ∧ link idx (st idx.name) key k = .ok slot ∧
      st' = Function.update st idx.name slot := by
  unfold linkRecord at h
  cases hkey : emitIndexKey idx v with
  | error e => rw [hkey] at h; cases h
  | ok key =>
    cases hl : link idx (st idx.name) key k with
    | error e => simp [hkey, hl, bind, Except.bind] at h
    | ok slot =>
      simp only [hkey, hl, bind, Except.bind, pure, Except.pure, Except.ok.injEq] at h
      exact ⟨key, slot, rfl, hl, h.symm⟩

theorem unlinkRecord_ok {idx : IndexDecl} {st st' : Store} {k v : Value}
    (h : unlinkRecord k v st idx = .ok st') :
    ∃ key, emitIndexKey idx v = .ok key ∧
      st' = Function.update st idx.name (unlink idx (st idx.name) key k) := by
  unfold unlinkRecord at h
  cases hkey : emitIndexKey idx v with
  | error e => rw [hkey] at h; cases h
  | ok key =>
    simp only [hkey, bind, Except.bind, pure, Except.pure, Except.ok.injEq] at h
    exact ⟨key, rfl, h.symm⟩

section Checked

variable {m : Module} (hc : ∀ idx ∈ m.indexes, checkIndex m idx = .ok ()) (hs : Separate m)
include hc hs

/-- Adding a record to one index loses nothing in any index. -/
theorem Found.linkRecord {idx idx' : IndexDecl} (hidx : idx ∈ m.indexes) (hidx' : idx' ∈ m.indexes)
    {st st' : Store} {k v k' v' : Value} (h : linkRecord k v st idx = .ok st')
    (hf : Found idx' st k' v') : Found idx' st' k' v' := by
  obtain ⟨key, slot, -, hl, rfl⟩ := linkRecord_ok h
  by_cases hname : idx'.name = idx.name
  · obtain ⟨key', hkey', hb⟩ := hf
    have hkind := kind_eq (hc idx' hidx') (hc idx hidx) hname (hs.owner idx' hidx' idx hidx hname)
    rw [hname, hkind] at hb
    refine ⟨key', hkey', ?_⟩
    rw [hname, hkind, Function.update_self]
    exact hb.link hl
  · exact hf.congr (Function.update_of_ne hname _ _)

/-- Taking a record out of one index loses no other record of its state, and none of another state. -/
theorem Found.unlinkRecord {idx idx' : IndexDecl} (hidx : idx ∈ m.indexes) (hidx' : idx' ∈ m.indexes)
    {st st' : Store} {k v k' v' : Value} (h : unlinkRecord k v st idx = .ok st')
    (hne : idx'.onState = idx.onState → k' ≠ k) (hf : Found idx' st k' v') : Found idx' st' k' v' := by
  obtain ⟨key, -, rfl⟩ := unlinkRecord_ok h
  by_cases hname : idx'.name = idx.name
  · obtain ⟨key', hkey', hb⟩ := hf
    have hon := hs.owner idx' hidx' idx hidx hname
    have hkind := kind_eq (hc idx' hidx') (hc idx hidx) hname hon
    rw [hname, hkind] at hb
    refine ⟨key', hkey', ?_⟩
    rw [hname, hkind, Function.update_self]
    exact hb.unlink (hne hon)
  · exact hf.congr (Function.update_of_ne hname _ _)

/-- After the maintenance of a list of indexes the record is found in each of them, and nothing that
was found before is lost. -/
theorem found_foldlM_linkRecord {k v : Value} {l : List IndexDecl} (hl : ∀ idx ∈ l, idx ∈ m.indexes)
    {st st' : Store} (h : l.foldlM (linkRecord k v) st = .ok st') :
    (∀ idx ∈ l, Found idx st' k v) ∧
      (∀ idx ∈ m.indexes, ∀ k' v', Found idx st k' v' → Found idx st' k' v') ∧
      ∀ q, (∀ idx ∈ l, idx.name ≠ q) → st' q = st q := by
  induction l generalizing st with
  | nil =>
    cases h
    exact ⟨by simp, fun _ _ _ _ hf => hf, fun _ _ => rfl⟩
  | cons idx l ih =>
    rw [List.foldlM_cons] at h
    cases h₁ : linkRecord k v st idx with
    | error e => rw [h₁] at h; cases h
    | ok st₁ =>
      rw [h₁] at h
      have hidx : idx ∈ m.indexes := hl idx List.mem_cons_self
      obtain ⟨hnew, hold, hframe⟩ := ih (fun i hi => hl i (List.mem_cons_of_mem _ hi)) h
      obtain ⟨key, slot, hkey, hlink, hst₁⟩ := linkRecord_ok h₁
      refine ⟨?_, ?_, ?_⟩
      · intro i hi
        rcases List.mem_cons.mp hi with rfl | hi
        · refine hold i hidx k v ⟨key, hkey, ?_⟩
          rw [hst₁, Function.update_self]
          exact backs_link hlink
        · exact hnew i hi
      · intro i hi k' v' hf
        exact hold i hi k' v' (hf.linkRecord hc hs hidx hi h₁)
      · intro q hq
        rw [hframe q fun i hi => hq i (List.mem_cons_of_mem _ hi), hst₁]
        exact Function.update_of_ne (hq idx List.mem_cons_self).symm _ _

theorem found_foldlM_unlinkRecord {p : String} {k v : Value} {l : List IndexDecl}
    (hl : ∀ idx ∈ l, idx ∈ m.indexes ∧ idx.onState = p) {st st' : Store}
    (h : l.foldlM (unlinkRecord k v) st = .ok st') :
    (∀ idx ∈ m.indexes, ∀ k' v', (idx.onState = p → k' ≠ k) → Found idx st k' v' → Found idx st' k' v') ∧
      ∀ q, (∀ idx ∈ l, idx.name ≠ q) → st' q = st q := by
  induction l generalizing st with
  | nil =>
    cases h
    exact ⟨fun _ _ _ _ _ hf => hf, fun _ _ => rfl⟩
  | cons idx l ih =>
    rw [List.foldlM_cons] at h
    cases h₁ : unlinkRecord k v st idx with
    | error e => rw [h₁] at h; cases h
    | ok st₁ =>
      rw [h₁] at h
      obtain ⟨hidx, rfl⟩ := hl idx List.mem_cons_self
      obtain ⟨hold, hframe⟩ := ih (fun i hi => hl i (List.mem_cons_of_mem _ hi)) h
      obtain ⟨key, -, hst₁⟩ := unlinkRecord_ok h₁
      refine ⟨?_, ?_⟩
      · intro i hi k' v' hne hf
        exact hold i hi k' v' hne (hf.unlinkRecord hc hs hidx hi h₁ hne)
      · intro q hq
        rw [hframe q fun i hi => hq i (List.mem_cons_of_mem _ hi), hst₁]
        exact Function.update_of_ne (hq idx List.mem_cons_self).symm _ _

/-- A write of a record keeps the indexes complete. -/
theorem Complete.put {p : String} (hp : ∀ idx ∈ m.indexes, idx.name ≠ p) {k v : Value} {st st' : Store}
    (h : Complete m st) (hput : put m p k v st = .ok st') : Complete m st' := by
  have hset : ∀ idx ∈ m.indexes, ∀ k' v', Found idx st k' v' →
      Found idx (setEntry st p k (some v)) k' v' :=
    fun idx hidx k' v' hf => hf.congr (Function.update_of_ne (hp idx hidx) _ _)
  unfold Index.put at hput
  split at hput
  · cases hput
  · have hl : ∀ idx ∈ m.indexesOn p, idx ∈ m.indexes := fun idx hidx => List.mem_of_mem_filter hidx
    obtain ⟨hnew, hold, hframe⟩ := found_foldlM_linkRecord hc hs hl hput
    intro idx hidx k' v' hv
    -- No slot is a primary, so the live records are those of the store before the maintenance.
    rw [hframe idx.onState fun i hi => hs.primary i (hl i hi) idx hidx] at hv
    by_cases hon : idx.onState = p
    · rw [hon, setEntry, Function.update_self] at hv
      by_cases hk : k' = k
      · rw [hk, Function.update_self, Option.some.injEq] at hv
        rw [hk, ← hv]
        exact hnew idx (List.mem_filter.mpr ⟨hidx, by simpa using hon⟩)
      · rw [Function.update_of_ne hk, ← hon] at hv
        exact hold idx hidx k' v' (hset idx hidx k' v' (h idx hidx k' v' hv))
    · rw [setEntry, Function.update_of_ne hon] at hv
      exact hold idx hidx k' v' (hset idx hidx k' v' (h idx hidx k' v' hv))
  · rename_i hty
    cases hput
    intro idx hidx k' v' hv
    -- A declaration is over a `pmap`, so there is none over this state.
    have hon : idx.onState ≠ p := by
      rintro rfl
      obtain ⟨pk, pv, ik, iv, hprim, -, -⟩ := checkIndex_slot (hc idx hidx)
      rw [primaryTypes, hty] at hprim
      cases hprim
    rw [setEntry, Function.update_of_ne hon] at hv
    exact hset idx hidx k' v' (h idx hidx k' v' hv)
  · cases hput

/-- The records of an indexed state after a write. -/
theorem put_entries {idx : IndexDecl} (hidx : idx ∈ m.indexes) {k v : Value} {st st' : Store}
    (hput : Index.put m idx.onState k v st = .ok st') :
    st' idx.onState k = some v ∧ ∀ k', k' ≠ k → st' idx.onState k' = st idx.onState k' := by
  have hst' : st' idx.onState = Function.update (st idx.onState) k (some v) := by
    unfold Index.put at hput
    split at hput
    · cases hput
    · have hl : ∀ i ∈ m.indexesOn idx.onState, i ∈ m.indexes := fun i hi => List.mem_of_mem_filter hi
      obtain ⟨-, -, hframe⟩ := found_foldlM_linkRecord hc hs hl hput
      rw [hframe idx.onState fun i hi => hs.primary i (hl i hi) idx hidx, setEntry, Function.update_self]
    · cases hput
      rw [setEntry, Function.update_self]
    · cases hput
  rw [hst']
  exact ⟨Function.update_self _ _ _, fun k' hk' => Function.update_of_ne hk' _ _⟩

omit hc hs in
/-- A write of a field is the write of the record with that field set. -/
theorem setField_ok {p : String} {k : Value} {path : List String} {x : Value} {st st' : Store}
    (h : setField m p k path x st = .ok st') : ∃ v, Index.put m p k v st = .ok st' := by
  induction path generalizing x with
  | nil => exact ⟨x, h⟩
  | cons field parents ih =>
    rw [setField] at h
    cases hty : valueTyOf m p with
    | error e => rw [hty] at h; cases h
    | ok ty =>
      cases hpath : fieldPath (readEntry ty st p k) parents.reverse with
      | error e => simp [hty, hpath, bind, Except.bind] at h
      | ok parent =>
        cases hset : fieldSet parent field x with
        | error e => simp [hty, hpath, hset, bind, Except.bind] at h
        | ok parent' =>
          simp only [hty, hpath, hset, bind, Except.bind] at h
          exact ih h

/-- The removal of a record keeps the indexes complete. -/
theorem Complete.delete {p : String} (hp : ∀ idx ∈ m.indexes, idx.name ≠ p) {k : Value} {st st' : Store}
    (h : Complete m st) (hdel : delete m p k st = .ok st') : Complete m st' := by
  unfold Index.delete at hdel
  cases hty : valueTyOf m p with
  | error e => rw [hty] at hdel; cases hdel
  | ok ty =>
    cases hfold : (m.indexesOn p).foldlM (Index.unlinkRecord k (readEntry ty st p k)) st with
    | error e => simp [hty, hfold, bind, Except.bind] at hdel
    | ok st₁ =>
      simp only [hty, hfold, bind, Except.bind, pure, Except.pure, Except.ok.injEq] at hdel
      have hl : ∀ idx ∈ m.indexesOn p, idx ∈ m.indexes ∧ idx.onState = p := by
        intro idx hidx
        obtain ⟨hidx, hon⟩ := List.mem_filter.mp hidx
        exact ⟨hidx, by simpa using hon⟩
      obtain ⟨hold, hframe⟩ := found_foldlM_unlinkRecord hc hs hl hfold
      subst hdel
      intro idx hidx k' v' hv
      have hst₁ := hframe idx.onState fun i hi => hs.primary i (hl i hi).1 idx hidx
      -- A record that is still live is not the removed one.
      have hlive : (idx.onState = p → k' ≠ k) ∧ st idx.onState k' = some v' := by
        by_cases hon : idx.onState = p
        · rw [hon, setEntry, Function.update_self] at hv
          have hk : k' ≠ k := by
            rintro rfl
            simp at hv
          rw [Function.update_of_ne hk, ← hon, hst₁] at hv
          exact ⟨fun _ => hk, hv⟩
        · rw [setEntry, Function.update_of_ne hon, hst₁] at hv
          exact ⟨fun h => absurd h hon, hv⟩
      refine (hold idx hidx k' v' hlive.1 (h idx hidx k' v' hlive.2)).congr ?_
      exact Function.update_of_ne (hp idx hidx) _ _

end Checked

/-! ### Histories -/

/-- A write of a program. The path of a field is given from its last step on. -/
inductive Op
  | put (p : String) (k v : Value)
  | setField (p : String) (k : Value) (path : List String) (x : Value)
  | delete (p : String) (k : Value)

/-- The state a program names in a write. -/
def Op.target : Op → String
  | .put p _ _ => p
  | .setField p _ _ _ => p
  | .delete p _ => p

def Op.run (m : Module) : Op → Store → Except RunError Store
  | .put p k v, st => Index.put m p k v st
  | .setField p k path x, st => Index.setField m p k path x st
  | .delete p k, st => Index.delete m p k st

/-- The committed store, and the one of the running transaction. -/
structure World where
  committed : Store
  working : Store

/-- The worlds of the histories of a module. Only maintenance writes a slot, and a transaction with a
write that fails leaves nothing behind. -/
inductive Reach (m : Module) : World → Prop
  | start : Reach m ⟨fun _ _ => none, fun _ _ => none⟩
  | write {w : World} (h : Reach m w) (op : Op) (ht : ∀ idx ∈ m.indexes, idx.name ≠ op.target)
      {st : Store} (hr : op.run m w.working = .ok st) : Reach m ⟨w.committed, st⟩
  | fail {w : World} (h : Reach m w) (op : Op) (ht : ∀ idx ∈ m.indexes, idx.name ≠ op.target)
      {e : RunError} (hr : op.run m w.working = .error e) : Reach m ⟨w.committed, w.committed⟩
  | commit {w : World} (h : Reach m w) : Reach m ⟨w.working, w.working⟩

theorem checkIndex_of_checkIndexes {m : Module} (h : checkIndexes m = .ok ()) :
    ∀ idx ∈ m.indexes, checkIndex m idx = .ok () := by
  unfold checkIndexes at h
  cases hst : checkStates [] m.states with
  | error e => rw [hst] at h; cases h
  | ok u =>
    rw [hst] at h
    have h : m.indexes.forM (checkIndex m) = .ok () := h
    exact Lib.forM_ok h

theorem Complete.run {m : Module} (hc : checkIndexes m = .ok ()) (hs : Separate m) {op : Op}
    (ht : ∀ idx ∈ m.indexes, idx.name ≠ op.target) {st st' : Store} (h : Complete m st)
    (hr : op.run m st = .ok st') : Complete m st' := by
  have hc := checkIndex_of_checkIndexes hc
  cases op with
  | put p k v => exact h.put hc hs ht hr
  | setField p k path x =>
    obtain ⟨v, hv⟩ := setField_ok hr
    exact h.put hc hs ht hv
  | delete p k => exact h.delete hc hs ht hr

theorem Reach.complete {m : Module} (hc : checkIndexes m = .ok ()) (hs : Separate m) {w : World}
    (h : Reach m w) : Complete m w.working ∧ Complete m w.committed := by
  induction h with
  | start => exact ⟨complete_empty m, complete_empty m⟩
  | write h op ht hr ih => exact ⟨ih.1.run hc hs ht hr, ih.2⟩
  | fail h op ht hr ih => exact ⟨ih.2, ih.2⟩
  | commit h ih => exact ⟨ih.1, ih.1⟩

/-- A write that would give a second record the key of a live one fails. -/
theorem Complete.put_fails {m : Module} (hc : checkIndexes m = .ok ()) (hs : Separate m) {p : String}
    (hp : ∀ idx ∈ m.indexes, idx.name ≠ p) {st : Store} (h : Complete m st) {k v : Value}
    (ht : Taken m st p k v) : ∃ e, Index.put m p k v st = .error e := by
  cases hput : Index.put m p k v st with
  | error e => exact ⟨e, rfl⟩
  | ok st' =>
    obtain ⟨idx, hidx, hkind, rfl, k', v', hne, hv', hkey⟩ := ht
    have hc' := checkIndex_of_checkIndexes hc
    -- Both records would be live after the write, with one unique key.
    have huniq := (h.put hc' hs hp hput).unique idx hidx hkind k' k v' v
    obtain ⟨hlive, hkept⟩ := put_entries hc' hs hidx hput
    exact absurd (huniq (by rw [hkept k' hne, hv']) hlive hkey.symm) hne

/-! ### Completeness -/

/-- **The indexes of a checked module with separate slots are complete and unique in every history.** -/
theorem complete_of_separate {m : Module} (hc : checkIndexes m = .ok ()) (hs : Separate m) {w : World}
    (h : Reach m w) :
    (Complete m w.working ∧ Unique m w.working) ∧ (Complete m w.committed ∧ Unique m w.committed) ∧
      ∀ p, (∀ idx ∈ m.indexes, idx.name ≠ p) → ∀ k v, Taken m w.working p k v →
        ∃ e, put m p k v w.working = .error e := by
  obtain ⟨hw, hcommitted⟩ := h.complete hc hs
  refine ⟨⟨hw, hw.unique⟩, ⟨hcommitted, hcommitted.unique⟩, ?_⟩
  intro p hp k v ht
  exact hw.put_fails hc hs hp ht

/-- The record `R { f: u64 }`. -/
def recTy : Ty := .struct "R" [("f", .u64)] [none]

def record (f : U64) : Value := .struct "R" [("f", .u64 f)]

/-- A module with the states `p` and `q` of records and a unique index over `p`. -/
def oneIndex : Module where
  structs := [("R", [("f", .u64)])]
  states := [("p", .pmap .u64 recTy), ("q", .pmap .u64 recTy), ("s", .pmap .u64 .u64)]
  indexes := [⟨"s", "p", [⟨["f"], .asc⟩], .unique⟩]

/-- After `p[1] = R { f: 5 }` the record is found in the index, and `p[2] = R { f: 5 }` fails. -/
theorem complete_of_separate_put : ∃ w, Reach oneIndex w ∧ w.working "p" (.u64 1) = some (record 5) ∧
    Complete oneIndex w.working ∧ ∃ e, put oneIndex "p" (.u64 2) (record 5) w.working = .error e := by
  refine ⟨⟨_, _⟩, .write .start (.put "p" (.u64 1) (record 5)) (by decide) rfl, by decide +kernel, ?_⟩
  have h := complete_of_separate (m := oneIndex) (by decide +kernel) ⟨by decide, by decide⟩
    (.write .start (.put "p" (.u64 1) (record 5)) (by decide) rfl)
  refine ⟨h.1.1, h.2.2 "p" (by decide) (.u64 2) (record 5) ?_⟩
  exact ⟨⟨"s", "p", [⟨["f"], .asc⟩], .unique⟩, by decide, rfl, rfl, .u64 1, record 5, by decide +kernel,
    by decide +kernel, rfl⟩

/-! ### A shared slot -/

/-- The same slot is declared as an index over `q` as well. -/
def sharedSlot : Module :=
  { oneIndex with indexes := oneIndex.indexes ++ [⟨"s", "q", [⟨["f"], .asc⟩], .unique⟩] }

/-- After `p[1] = R { f: 5 }`, `q[1] = R { f: 5 }` and `delete p[1]` the record `q[1]` is live and not
in its index. -/
theorem shared_slot_incomplete : checkIndexes sharedSlot = .ok () ∧
    ∃ w, Reach sharedSlot w ∧ ¬ Complete sharedSlot w.working := by
  refine ⟨by decide +kernel, ⟨_, _⟩, .write (.write (.write .start
    (.put "p" (.u64 1) (record 5)) (by decide) rfl)
    (.put "q" (.u64 1) (record 5)) (by decide) rfl)
    (.delete "p" (.u64 1)) (by decide) rfl, ?_⟩
  intro h
  obtain ⟨key, hkey, hb⟩ := h ⟨"s", "q", [⟨["f"], .asc⟩], .unique⟩ (by decide) (.u64 1) (record 5)
    (by decide +kernel)
  cases hkey
  revert hb
  unfold Backs
  decide +kernel

end Rend.Index
