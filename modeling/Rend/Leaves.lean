import Rend.Drain

/-!
# Reads that are split into leaf cells

A struct in a state does not have a cell of its own: each field has a leaf cell below it, and the fields
of a storage group share one, the blob of a synthetic struct (`collect_leaves`, `reassemble`). A batch of
typed reads collects the leaves of all its reads, answers those that the transaction or an ancestor
knows, fetches the others at once, and puts the values together again (`read_typed_many`).

`readLeaves_reads` is what a batch can do to the read cache: it caches what lies below the caches at a
leaf that was not cached.
-/

namespace Rend

open Lib

/-- How a value is put together from the values of its leaves (`TreeSpec`). -/
inductive TreeSpec
  | leaf (idx : ℕ)
  | struct (name : String) (fields : List (String × TreeSpec))
  | projection (leafIdx : ℕ) (fieldName : String)

/-- The leaf cells of a batch, each with its type. -/
abbrev Leaves : Type := List (U128 × Ty)

def syntheticGroupName (parent group : String) : String := parent ++ "::group::" ++ group

/-- The fields of a group, in the order of their declaration. -/
def groupFields (fields : List (String × Ty)) (groups : List (Option String)) (group : String) :
    List (String × Ty) :=
  (fields.zipIdx.filter fun f => groups.getD f.2 none = some group).map Prod.fst

/-- The type of the blob of a group. -/
def groupTy (name : String) (fields : List (String × Ty)) (groups : List (Option String)) (group : String) :
    Ty :=
  .struct (syntheticGroupName name group) (groupFields fields groups group) []

mutual

/-- The leaves of a type stored at a cell, appended to those collected so far. -/
def collectLeaves (key : U128) : Ty → Leaves → Leaves × TreeSpec
  | .explicitLiteral inner, acc => collectLeaves key inner acc
  | .struct name fields groups, acc =>
    let r := collectFields key (groupTy name fields groups) fields groups [] acc
    (r.1, .struct name r.2)
  | ty, acc => (acc ++ [(key, ty)], .leaf acc.length)
  termination_by structural x => x

/-- The leaves of the fields of a struct. `blob` gives the type of a group, `seen` the leaves of the
groups met so far. -/
def collectFields (key : U128) (blob : String → Ty) :
    List (String × Ty) → List (Option String) → List (String × ℕ) → Leaves → Leaves × List (String × TreeSpec)
  | [], _, _, acc => (acc, [])
  | (fname, fty) :: fields, groups, seen, acc =>
    match groups.headD none with
    | none =>
      let leaf := collectLeaves (child key (strBytes fname)) fty acc
      let rest := collectFields key blob fields groups.tail seen leaf.1
      (rest.1, (fname, leaf.2) :: rest.2)
    | some g =>
      match seen.lookup g with
      | some idx =>
        let rest := collectFields key blob fields groups.tail seen acc
        (rest.1, (fname, .projection idx fname) :: rest.2)
      | none =>
        let rest := collectFields key blob fields groups.tail ((g, acc.length) :: seen)
          (acc ++ [(child key (strBytes g), blob g)])
        (rest.1, (fname, .projection acc.length fname) :: rest.2)
  termination_by structural x => x

end

/-- The leaves of a batch of reads. -/
def collectAll : List (U128 × Ty) → Leaves → Leaves × List TreeSpec
  | [], acc => (acc, [])
  | (key, ty) :: ops, acc =>
    let leaf := collectLeaves key ty acc
    let rest := collectAll ops leaf.1
    (rest.1, leaf.2 :: rest.2)

/-- A field of the value of a blob; the code panics when it has none. -/
def projectField (v : Value) (fieldName : String) : Value :=
  match v with
  | .struct _ fields => (fields.lookup fieldName).getD .unit
  | _ => .unit

mutual

def reassemble (leaves : List Value) : TreeSpec → Value
  | .leaf i => leaves.getD i .unit
  | .struct name fields => .struct name (reassembleFields leaves fields)
  | .projection leafIdx fieldName => projectField (leaves.getD leafIdx .unit) fieldName
  termination_by structural x => x

def reassembleFields (leaves : List Value) : List (String × TreeSpec) → List (String × Value)
  | [] => []
  | (n, sub) :: fields => (n, reassemble leaves sub) :: reassembleFields leaves fields
  termination_by structural x => x

end

namespace Tx

/-! ### The batch -/

/-- The leaves that are known without the store: written, cached, or known to an ancestor, in which case
they are cached now. -/
def knownLeaves : Tx → Leaves → Tx × List (Option Value)
  | tx, [] => (tx, [])
  | tx, (key, _) :: leaves =>
    match tx.writes.lookup key with
    | some v => let r := knownLeaves tx leaves; (r.1, some v :: r.2)
    | none =>
      match tx.reads.lookup key with
      | some v => let r := knownLeaves tx leaves; (r.1, some v :: r.2)
      | none =>
        match tx.parentLookup key with
        | some v =>
          let r := knownLeaves { tx with reads := tx.reads.insert key v } leaves
          (r.1, some v :: r.2)
        | none => let r := knownLeaves tx leaves; (r.1, none :: r.2)

/-- Fetches the leaves that are not known from the store. -/
def fetchLeaves : Tx → List ((U128 × Ty) × Option Value) → Tx × List Value
  | tx, [] => (tx, [])
  | tx, (_, some v) :: leaves => let r := fetchLeaves tx leaves; (r.1, v :: r.2)
  | tx, ((key, ty), none) :: leaves =>
    let v := observed tx.kv key ty (Value.defaultFor ty)
    let r := fetchLeaves { tx with reads := tx.reads.insert key v } leaves
    (r.1, v :: r.2)

def readLeaves (tx : Tx) (leaves : Leaves) : Tx × List Value :=
  let known := tx.knownLeaves leaves
  known.1.fetchLeaves (leaves.zip known.2)

/-- A batch of typed reads (`read_typed_many`). -/
def readTypedMany (tx : Tx) (ops : List (U128 × Ty)) : Tx × List Value :=
  let all := collectAll ops []
  let r := tx.readLeaves all.1
  (r.1, all.2.map (reassemble r.2))

/-- A typed read; a struct is read leaf by leaf (`read_typed`). -/
def readState (tx : Tx) (key : U128) : Ty → Tx × Value
  | .explicitLiteral inner => readState tx key inner
  | .struct name fields groups =>
    let r := tx.readTypedMany [(key, .struct name fields groups)]
    (r.1, r.2.headD .unit)
  | ty => tx.readTyped key ty

/-! ### What a batch caches -/

/-- A cell that the transaction has neither written nor cached. -/
def Unknown (tx : Tx) (c : U128) : Prop := tx.writes.lookup c = none ∧ tx.reads.lookup c = none

/-- Some cells at their types have been cached with what lies below the caches. -/
structure Cached (asked : Leaves) (tx tx' : Tx) : Prop where
  frame : tx' = { tx with reads := tx'.reads }
  reads : ∀ c, tx'.reads.lookup c = tx.reads.lookup c ∨
    ∃ ty, (c, ty) ∈ asked ∧ tx.Unknown c ∧ tx'.reads.lookup c = some (tx.storeValue c ty)

namespace Cached

variable {asked asked' : Leaves} {tx tx' tx'' : Tx}

theorem refl (asked : Leaves) (tx : Tx) : Cached asked tx tx := ⟨rfl, fun _ => .inl rfl⟩

theorem mono (h : Cached asked tx tx') (hsub : asked ⊆ asked') : Cached asked' tx tx' :=
  ⟨h.frame, fun c => (h.reads c).imp id fun ⟨ty, hmem, hrest⟩ => ⟨ty, hsub hmem, hrest⟩⟩

theorem writes_eq (h : Cached asked tx tx') : tx'.writes = tx.writes := by rw [h.frame]

theorem storeValue_eq (h : Cached asked tx tx') (c : U128) (ty : Ty) :
    tx'.storeValue c ty = tx.storeValue c ty := by
  rw [h.frame]
  rfl

theorem trans (h : Cached asked tx tx') (h' : Cached asked tx' tx'') : Cached asked tx tx'' := by
  refine ⟨?_, fun c => ?_⟩
  · calc tx'' = { tx' with reads := tx''.reads } := h'.frame
      _ = _ := by rw [h.frame]
  · rcases h'.reads c with hr | ⟨ty, hmem, hu, hr⟩
    · rw [hr]
      exact h.reads c
    · rw [h.storeValue_eq] at hr
      refine .inr ⟨ty, hmem, ⟨by rw [← h.writes_eq]; exact hu.1, ?_⟩, hr⟩
      -- a cell that is still unread after the first part was unread before it
      rcases h.reads c with he | ⟨_, -, -, he⟩
      · rw [← he, hu.2]
      · rw [hu.2] at he
        cases he

/-- Caching one cell. -/
theorem insert (h : Cached asked tx tx') {c : U128} {ty : Ty} (hmem : (c, ty) ∈ asked) (hu : tx.Unknown c) :
    Cached asked tx { tx' with reads := tx'.reads.insert c (tx.storeValue c ty) } := by
  refine ⟨?_, fun d => ?_⟩
  · calc { tx' with reads := tx'.reads.insert c (tx.storeValue c ty) }
        = { ({ tx with reads := tx'.reads } : Tx) with reads := tx'.reads.insert c (tx.storeValue c ty) } := by
          rw [← h.frame]
      _ = _ := rfl
  · by_cases hd : d = c
    · subst hd
      exact .inr ⟨ty, hmem, hu, AList.lookup_insert _⟩
    · rw [AList.lookup_insert_ne hd]
      exact h.reads d

end Cached

variable {tx : Tx} {asked : Leaves}

/-- The leaves an ancestor knows are cached, the others that nobody knows are left for the store. -/
theorem knownLeaves_cached {leaves : Leaves} (hsub : leaves ⊆ asked) {tx' : Tx} (h : Cached asked tx tx') :
    Cached asked tx (tx'.knownLeaves leaves).1 ∧
      ∀ p ∈ leaves.zip (tx'.knownLeaves leaves).2, p.2 = none →
        p.1 ∈ asked ∧ tx.Unknown p.1.1 ∧ tx.parentLookup p.1.1 = none := by
  induction leaves generalizing tx' with
  | nil => exact ⟨h, fun p hp => by cases hp⟩
  | cons leaf leaves ih =>
    obtain ⟨key, ty⟩ := leaf
    obtain ⟨hmem, hrest⟩ := List.cons_subset.mp hsub
    have hparent : tx'.parentLookup key = tx.parentLookup key := by
      rw [h.frame]
      rfl
    -- a leaf that is known leaves nothing to fetch
    have hknown : ∀ {t : Tx} {v : Value}, Cached asked tx t →
        Cached asked tx (t.knownLeaves leaves).1 ∧
          ∀ p ∈ ((key, ty) :: leaves).zip (some v :: (t.knownLeaves leaves).2), p.2 = none →
            p.1 ∈ asked ∧ tx.Unknown p.1.1 ∧ tx.parentLookup p.1.1 = none := by
      intro t v ht
      refine ⟨(ih hrest ht).1, fun p hp hnone => ?_⟩
      rw [List.zip_cons_cons] at hp
      rcases List.mem_cons.mp hp with rfl | hp
      · cases hnone
      · exact (ih hrest ht).2 p hp hnone
    unfold knownLeaves
    cases hw : tx'.writes.lookup key with
    | some v => exact hknown h
    | none =>
      dsimp only
      cases hr : tx'.reads.lookup key with
      | some v => exact hknown h
      | none =>
        have hu : tx.Unknown key := by
          refine ⟨by rw [← h.writes_eq, hw], ?_⟩
          rcases h.reads key with he | ⟨_, -, hu, -⟩
          · rw [← he, hr]
          · exact hu.2
        dsimp only
        cases hp : tx'.parentLookup key with
        | some v =>
          have hvalue : tx.storeValue key ty = v := by
            rw [storeValue, ← hparent, hp, Option.getD_some]
          exact hknown (hvalue ▸ h.insert hmem hu)
        | none =>
          refine ⟨(ih hrest h).1, fun p hp' hnone => ?_⟩
          rw [List.zip_cons_cons] at hp'
          rcases List.mem_cons.mp hp' with rfl | hp'
          · exact ⟨hmem, hu, by rw [← hparent, hp]⟩
          · exact (ih hrest h).2 p hp' hnone

theorem fetchLeaves_cached {pairs : List ((U128 × Ty) × Option Value)}
    (hpairs : ∀ p ∈ pairs, p.2 = none → p.1 ∈ asked ∧ tx.Unknown p.1.1 ∧ tx.parentLookup p.1.1 = none)
    {tx' : Tx} (h : Cached asked tx tx') : Cached asked tx (tx'.fetchLeaves pairs).1 := by
  induction pairs generalizing tx' with
  | nil => exact h
  | cons p pairs ih =>
    have hrest := fun q hq => hpairs q (List.mem_cons_of_mem _ hq)
    obtain ⟨⟨key, ty⟩, _ | v⟩ := p
    · obtain ⟨hmem, hu, hparent⟩ := hpairs _ List.mem_cons_self rfl
      have hvalue : tx.storeValue key ty = observed tx'.kv key ty (Value.defaultFor ty) := by
        rw [storeValue, hparent, Option.getD_none, h.frame]
      unfold fetchLeaves
      exact ih hrest (hvalue ▸ h.insert hmem hu)
    · unfold fetchLeaves
      exact ih hrest h

/-- **A batch caches what lies below the caches**, at leaves that it asks for and that were not cached. -/
theorem readLeaves_cached (tx : Tx) (leaves : Leaves) : Cached leaves tx (tx.readLeaves leaves).1 := by
  obtain ⟨hknown, hpairs⟩ := knownLeaves_cached (List.Subset.refl leaves) (Cached.refl leaves tx)
  exact fetchLeaves_cached hpairs hknown

end Tx

end Rend
