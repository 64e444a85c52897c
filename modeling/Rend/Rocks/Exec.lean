import Rend.Rocks.Commit
import Rend.Pmap.Shape

/-!
# Executing a transaction

`Exec` is what a run of the machine does with its transaction: it reads cells, at once or lazily, forces
values, writes cells, calls the operations of the persistent map on roots it has come by, and runs
handlers and parallel legs in shadow transactions that are folded back. A `Layout` says which cells
hold the roots of maps, and which nodes may ever be written; no two of these share a cell, and none
shares one with a root.

`TxInv` is what holds at every moment of a run over a store whose roots are sound: every node in reach is
shown, and every root the transaction holds is sound. `Exec.inv` shows that no step breaks it.
-/

namespace Rend.Rocks

open Lib Pmap Tx

/-- Where the roots of maps are, and the nodes that may be written. -/
structure Layout where
  /-- Key and value types of the cells that hold the root of a map. -/
  schema : U128 → Option (Ty × Ty)
  nodes : Set Bytes
  keepable : Keepable nodes
  apart : ∀ e ∈ nodes, schema (nodeCellKey e) = none

namespace Layout

variable (Λ : Layout)

def NodeCell (c : U128) : Prop := ∃ e ∈ Λ.nodes, nodeCellKey e = c

/-- A cell may be read as a node; but the root of a map is otherwise read at the type of the map, and
a node is read as nothing else. -/
def ReadAt (c : U128) (ty : Ty) : Prop :=
  ty = .bytes ∨ (¬ Λ.NodeCell c ∧ ∀ kt vt, Λ.schema c = some (kt, vt) → ty = .pmap kt vt)

end Layout

/-- A root in a register, with the types of its map. -/
abbrev Root := Ty × Ty × U128

/-- A transaction, and the roots the machine has come by. -/
abbrev Machine := Tx × List Root

/-- The root a value gives for a map. -/
def asRoot : Value → U128
  | .pmap h => h
  | _ => emptyRoot

/-- Reads the root of a map (`read_cell` and `force`). -/
def loadRoot (tx : Tx) (c : U128) (kt vt : Ty) : Tx × U128 :=
  let (tx, v) := tx.readCell c (.pmap kt vt)
  let (tx, v) := tx.force v
  (tx, asRoot v)

/-- What a run does with its transaction. Lookups, listings and cursors read nodes
(`look`). `P` is what is asked of the types, key and value of each insertion. -/
inductive Exec (Λ : Layout) (P : Ty → Ty → Value → Value → Prop) : Machine → Machine → Prop
  | refl (m : Machine) : Exec Λ P m m
  | readCell {m : Machine} {tx : Tx} {rs : List Root} (h : Exec Λ P m (tx, rs)) {c : U128} {ty : Ty}
      (hc : Λ.ReadAt c ty) : Exec Λ P m ((tx.readCell c ty).1, rs)
  | readTyped {m : Machine} {tx : Tx} {rs : List Root} (h : Exec Λ P m (tx, rs)) {c : U128} {ty : Ty}
      (hc : Λ.ReadAt c ty) : Exec Λ P m ((tx.readTyped c ty).1, rs)
  | read {m : Machine} {tx : Tx} {rs : List Root} (h : Exec Λ P m (tx, rs)) {c : U128} {ty : Ty}
      (hc : Λ.ReadAt c ty) : Exec Λ P m ((tx.read c ty (Value.defaultFor ty)).1, rs)
  | force {m : Machine} {tx : Tx} {rs : List Root} (h : Exec Λ P m (tx, rs)) (v : Value) :
      Exec Λ P m ((tx.force v).1, rs)
  | write {m : Machine} {tx : Tx} {rs : List Root} (h : Exec Λ P m (tx, rs)) {c : U128} (v : Value)
      (hnode : ¬ Λ.NodeCell c) (hroot : Λ.schema c = none) : Exec Λ P m (tx.write c v, rs)
  | look {m : Machine} {tx tx' : Tx} {rs : List Root} (h : Exec Λ P m (tx, rs)) (hr : Reads tx tx') :
      Exec Λ P m (tx', rs)
  | beginPmapGet {m : Machine} {tx : Tx} {rs : List Root} (h : Exec Λ P m (tx, rs)) (root : U128)
      (key : Value) (kt vt : Ty) : Exec Λ P m ((tx.beginPmapGet root key kt vt).1, rs)
  | recordPmapTypes {m : Machine} {tx : Tx} {rs : List Root} (h : Exec Λ P m (tx, rs)) {c : U128}
      {kt vt : Ty} (hc : Λ.schema c = some (kt, vt)) : Exec Λ P m (tx.recordPmapTypes c kt vt, rs)
  | setLazy {m : Machine} {tx : Tx} {rs : List Root} (h : Exec Λ P m (tx, rs)) (lazy : Bool) :
      Exec Λ P m (tx.setLazy lazy, rs)
  | newRoot {m : Machine} {tx : Tx} {rs : List Root} (h : Exec Λ P m (tx, rs)) (kt vt : Ty) :
      Exec Λ P m (tx, (kt, vt, emptyRoot) :: rs)
  | loadRoot {m : Machine} {tx : Tx} {rs : List Root} (h : Exec Λ P m (tx, rs)) {c : U128} {kt vt : Ty}
      (hc : Λ.schema c = some (kt, vt)) :
      Exec Λ P m ((loadRoot tx c kt vt).1, (kt, vt, (loadRoot tx c kt vt).2) :: rs)
  | storeRoot {m : Machine} {tx : Tx} {rs : List Root} (h : Exec Λ P m (tx, rs)) {c root : U128} {kt vt : Ty}
      (hc : Λ.schema c = some (kt, vt)) (hr : (kt, vt, root) ∈ rs) : Exec Λ P m (tx.write c (.pmap root), rs)
  | set {m : Machine} {tx : Tx} {rs : List Root} (h : Exec Λ P m (tx, rs)) {root : U128} {kt vt : Ty}
      {key value : Value} (hr : (kt, vt, root) ∈ rs) (hP : P kt vt key value)
      (hn : logged (set root key value tx kt vt).1 ⊆ Λ.nodes) :
      Exec Λ P m ((set root key value tx kt vt).1, (kt, vt, (set root key value tx kt vt).2) :: rs)
  | remove {m : Machine} {tx : Tx} {rs : List Root} (h : Exec Λ P m (tx, rs)) {root : U128} {kt vt : Ty}
      (key : Value) (hr : (kt, vt, root) ∈ rs) (hn : logged (remove root key tx kt vt).1 ⊆ Λ.nodes) :
      Exec Λ P m ((remove root key tx kt vt).1, (kt, vt, (remove root key tx kt vt).2.1) :: rs)
  /-- A shadow transaction runs from an earlier moment and is folded in later. -/
  | shadow {m : Machine} {tx₀ tx δ : Tx} {rs₀ rs rs' : List Root} (h₀ : Exec Λ P m (tx₀, rs₀))
      (hδ : Exec Λ P (tx₀.shadowOf, rs₀) (δ, rs')) (h : Exec Λ P (tx₀, rs₀) (tx, rs)) :
      Exec Λ P m (tx.mergeDelta δ, rs' ++ rs)

/-! ### Instructions -/

/-- `PMapPut` on the map whose root is at `c`. -/
def pmapPut (tx : Tx) (c : U128) (kt vt : Ty) (key value : Value) : Tx :=
  let tx := tx.recordPmapTypes c kt vt
  let (tx, root) := loadRoot tx c kt vt
  let (tx, root) := set root key value tx kt vt
  tx.write c (.pmap root)

/-- `PMapDelete` on the map whose root is at `c`. -/
def pmapDelete (tx : Tx) (c : U128) (kt vt : Ty) (key : Value) : Tx :=
  let (tx, root) := loadRoot tx c kt vt
  let (tx, root, _) := remove root key tx kt vt
  tx.write c (.pmap root)

/-- `PMapGet` on the map whose root is at `c`. -/
def pmapGet (tx : Tx) (c : U128) (kt vt : Ty) (key : Value) : Tx × Value :=
  let tx := tx.recordPmapTypes c kt vt
  let (tx, root) := loadRoot tx c kt vt
  tx.beginPmapGet root key kt vt

section Instructions

variable {Λ : Layout} {P : Ty → Ty → Value → Value → Prop} {m : Machine} {tx : Tx} {rs : List Root}
  {c : U128} {kt vt : Ty} {key value : Value}

theorem Exec.pmapPut (h : Exec Λ P m (tx, rs)) (hc : Λ.schema c = some (kt, vt)) (hP : P kt vt key value)
    (hn : logged (pmapPut tx c kt vt key value) ⊆ Λ.nodes) :
    ∃ rs', Exec Λ P m (pmapPut tx c kt vt key value, rs') := by
  have hload := (h.recordPmapTypes hc).loadRoot hc
  have hlog : logged (Pmap.set (Rocks.loadRoot (tx.recordPmapTypes c kt vt) c kt vt).2 key value
      (Rocks.loadRoot (tx.recordPmapTypes c kt vt) c kt vt).1 kt vt).1 ⊆ Λ.nodes := by
    intro e he
    refine hn ?_
    change e ∈ (Tx.write _ c _).nodeLog
    rwa [show (Tx.write _ c _).nodeLog = _ from (drained_force _ _).nodeLog_eq]
  exact ⟨_, (hload.set (List.mem_cons_self ..) hP hlog).storeRoot hc (List.mem_cons_self ..)⟩

theorem Exec.pmapDelete (h : Exec Λ P m (tx, rs)) (hc : Λ.schema c = some (kt, vt))
    (hn : logged (pmapDelete tx c kt vt key) ⊆ Λ.nodes) :
    ∃ rs', Exec Λ P m (pmapDelete tx c kt vt key, rs') := by
  have hload := h.loadRoot hc
  have hlog : logged (Pmap.remove (Rocks.loadRoot tx c kt vt).2 key (Rocks.loadRoot tx c kt vt).1 kt vt).1 ⊆
      Λ.nodes := by
    intro e he
    refine hn ?_
    change e ∈ (Tx.write _ c _).nodeLog
    rwa [show (Tx.write _ c _).nodeLog = _ from (drained_force _ _).nodeLog_eq]
  exact ⟨_, (hload.remove key (List.mem_cons_self ..) hlog).storeRoot hc (List.mem_cons_self ..)⟩

theorem Exec.pmapGet (h : Exec Λ P m (tx, rs)) (hc : Λ.schema c = some (kt, vt)) (key : Value) :
    ∃ rs', Exec Λ P m ((pmapGet tx c kt vt key).1, rs') :=
  ⟨_, ((h.recordPmapTypes hc).loadRoot hc).beginPmapGet _ key kt vt⟩

end Instructions

/-! ### The invariant -/

/-- A value that may stand where the root of a map is kept: a sound root, or bytes read as a node. -/
def RootValue (K : Set Bytes) (kt vt : Ty) (v : Value) : Prop :=
  (∃ h, v = .pmap h ∧ Sound K kt vt h) ∨ ∃ b, v = .bytes b

theorem RootValue.mono {K K' : Set Bytes} {kt vt : Ty} {v : Value} (h : RootValue K kt vt v)
    (hK : K ⊆ K') : RootValue K' kt vt v :=
  h.imp_left fun ⟨r, hv, hr⟩ => ⟨r, hv, hr.mono hK⟩

theorem RootValue.sound {K : Set Bytes} {kt vt : Ty} {v : Value} (h : RootValue K kt vt v) :
    Sound K kt vt (asRoot v) := by
  rcases h with ⟨r, rfl, hr⟩ | ⟨b, rfl⟩
  · exact hr
  · exact sound_empty K

theorem RootValue.not_pending {K : Set Bytes} {kt vt : Ty} {v : Value} (h : RootValue K kt vt v) :
    containsPending v = false := by
  rcases h with ⟨r, rfl, -⟩ | ⟨b, rfl⟩ <;> rfl

/-- What holds of a transaction at every moment of a run. `K` are the nodes in reach. -/
structure TxInv (Λ : Layout) (K : Set Bytes) (tx : Tx) : Prop where
  nodes : K ⊆ Λ.nodes
  fresh : tx.Fresh
  shown : Shown K tx
  log : ∀ e ∈ tx.nodeLog, e ∈ K ∧ tx.writes.lookup (nodeCellKey e) = some (.bytes e)
  written : ∀ c v, tx.writes.lookup c = some v → Λ.NodeCell c → ∃ e ∈ K, nodeCellKey e = c ∧ v = .bytes e
  queued : ∀ p ∈ tx.pending, Λ.ReadAt p.key p.ty
  roots : ∀ c kt vt, Λ.schema c = some (kt, vt) → ∀ v, (tx.writes.lookup c = some v ∨
    tx.reads.lookup c = some v ∨ tx.parentLookup c = some v) → RootValue K kt vt v
  store : ∀ c kt vt, Λ.schema c = some (kt, vt) → Sound K kt vt (liveRoot (tx.kv c) kt vt)
  types : ∀ c t, tx.pmapTypes.lookup c = some t → Λ.schema c = some t

variable {Λ : Layout} {K : Set Bytes} {tx tx' : Tx}

theorem Layout.node_inj {e e' : Bytes} (he : e ∈ Λ.nodes) (he' : e' ∈ Λ.nodes)
    (h : nodeCellKey e = nodeCellKey e') : e = e' := Λ.keepable.inj e he e' he' h

theorem Layout.ReadAt.bytes {c : U128} {ty : Ty} (h : Λ.ReadAt c ty) {e : Bytes} (he : e ∈ Λ.nodes)
    (hc : nodeCellKey e = c) : ty = .bytes :=
  h.resolve_right fun hn => hn.1 ⟨e, he, hc⟩

/-- What the store holds for the root of a map. -/
theorem TxInv.storeValue (h : TxInv Λ K tx) {c : U128} {kt vt : Ty} (hc : Λ.schema c = some (kt, vt))
    {ty : Ty} (hty : Λ.ReadAt c ty) : RootValue K kt vt (tx.storeValue c ty) := by
  rw [Tx.storeValue]
  cases hp : tx.parentLookup c with
  | some v => exact h.roots c kt vt hc v (.inr (.inr hp))
  | none =>
    rw [Option.getD_none, observed]
    have hstore := h.store c kt vt hc
    rcases hty with rfl | ⟨-, hpmap⟩
    · refine .inr ?_
      cases tx.kv c with
      | none => exact ⟨[], rfl⟩
      | some bs =>
        dsimp only
        cases hd : deserialize .bytes bs with
        | none => exact ⟨[], rfl⟩
        | some v =>
          rw [deserialize, Option.map_eq_some_iff] at hd
          obtain ⟨b, -, rfl⟩ := hd
          exact ⟨b, rfl⟩
    · rw [hpmap kt vt hc]
      refine .inl ?_
      cases hkv : tx.kv c with
      | none => exact ⟨emptyRoot, rfl, sound_empty K⟩
      | some bs =>
        rw [hkv, liveRoot, Option.bind_some] at hstore
        dsimp only
        cases hd : deserialize (.pmap kt vt) bs with
        | none => exact ⟨emptyRoot, rfl, sound_empty K⟩
        | some v =>
          have hd' := hd
          rw [deserialize, Option.map_eq_some_iff] at hd
          obtain ⟨r, -, rfl⟩ := hd
          rw [hd'] at hstore
          exact ⟨r, rfl, hstore⟩

theorem parentLookup_congr {tx tx' : Tx} (h : tx'.ancestors = tx.ancestors) (c : U128) :
    tx'.parentLookup c = tx.parentLookup c := by
  rw [parentLookup, parentLookup, h]

/-! ### Reading -/

theorem TxInv.drained (h : TxInv Λ K tx) (hd : Drained tx tx') : TxInv Λ K tx' where
  nodes := h.nodes
  fresh := hd.fresh h.fresh
  shown e he := hd.shows (h.shown e he)
  log := by
    rw [hd.nodeLog_eq, hd.writes_eq]
    exact h.log
  written := by
    rw [hd.writes_eq]
    exact h.written
  queued p hp := h.queued p (hd.pending.subset hp)
  roots c kt vt hc v hv := by
    rw [hd.writes_eq, parentLookup_congr hd.ancestors_eq] at hv
    rcases hv with hv | hv | hv
    · exact h.roots c kt vt hc v (.inl hv)
    · rcases hd.reads c with he | ⟨p, hp, rfl, he⟩ | ⟨-, he⟩
      · exact h.roots c kt vt hc v (.inr (.inl (he ▸ hv)))
      · rw [he, Option.some.injEq] at hv
        exact hv ▸ h.storeValue hc (h.queued p hp)
      · rw [he, Option.some.injEq] at hv
        exact hv ▸ h.storeValue hc (.inl rfl)
    · exact h.roots c kt vt hc v (.inr (.inr hv))
  store := by
    rw [hd.kv_eq]
    exact h.store
  types := by
    rw [hd.pmapTypes_eq]
    exact h.types

theorem TxInv.force (h : TxInv Λ K tx) (v : Value) : TxInv Λ K (tx.force v).1 := h.drained (drained_force tx v)

theorem TxInv.queue (h : TxInv Λ K tx) {c : U128} {ty : Ty} (hc : Λ.ReadAt c ty) :
    TxInv Λ K (tx.queue c ty).1 where
  nodes := h.nodes
  fresh := h.fresh.queue c ty
  shown e he := shows_queue (h.shown e he) fun hec => hc.bytes (h.nodes he) hec
  log := h.log
  written := h.written
  queued p hp := by
    rcases List.mem_append.1 hp with hp | hp
    · exact h.queued p hp
    · rw [List.mem_singleton.1 hp]
      exact hc
  roots := h.roots
  store := h.store
  types := h.types

/-- Caching what the store holds for a cell. -/
theorem TxInv.insertRead (h : TxInv Λ K tx) {c : U128} {ty : Ty} (hc : Λ.ReadAt c ty) :
    TxInv Λ K { tx with reads := tx.reads.insert c (tx.storeValue c ty) } where
  nodes := h.nodes
  fresh := h.fresh
  shown e he := shows_insert_read (h.shown e he) fun hec => by rw [hc.bytes (h.nodes he) hec]
  log := h.log
  written := h.written
  queued := h.queued
  roots d kt vt hd v hv := by
    rcases hv with hv | hv | hv
    · exact h.roots d kt vt hd v (.inl hv)
    · by_cases hdc : d = c
      · subst hdc
        simp only [AList.lookup_insert, Option.some.injEq] at hv
        exact hv ▸ h.storeValue hd hc
      · simp only [AList.lookup_insert_ne hdc] at hv
        exact h.roots d kt vt hd v (.inr (.inl hv))
    · exact h.roots d kt vt hd v (.inr (.inr hv))
  store := h.store
  types := h.types

theorem TxInv.readCell (h : TxInv Λ K tx) {c : U128} {ty : Ty} (hc : Λ.ReadAt c ty) :
    TxInv Λ K (tx.readCell c ty).1 := by
  rcases tx.readCell_cases c ty with ⟨he, -⟩ | ⟨-, he, -⟩ | ⟨-, he⟩ | ⟨-, he⟩
  · rwa [he]
  · rwa [he]
  · rw [he]
    exact h.insertRead hc
  · rw [he]
    exact h.queue hc

theorem TxInv.read (h : TxInv Λ K tx) {c : U128} {ty : Ty} (hc : Λ.ReadAt c ty) :
    TxInv Λ K (tx.read c ty (Value.defaultFor ty)).1 := by
  unfold Tx.read
  cases tx.writes.lookup c with
  | some v => exact h
  | none =>
    cases tx.reads.lookup c with
    | some v => exact h
    | none => exact h.insertRead hc

theorem TxInv.readTyped (h : TxInv Λ K tx) {c : U128} {ty : Ty} (hc : Λ.ReadAt c ty) :
    TxInv Λ K (tx.readTyped c ty).1 := by
  unfold Tx.readTyped
  cases tx.writes.lookup c with
  | some v => exact h
  | none =>
    cases tx.reads.lookup c with
    | some v => exact h
    | none =>
      dsimp only
      split_ifs
      · exact h.queue hc
      · exact h.read hc

theorem TxInv.reads (h : TxInv Λ K tx) (hr : Reads tx tx') : TxInv Λ K tx' := by
  induction hr with
  | refl => exact h
  | tail _ hstep ih =>
    cases hstep with
    | read c => exact (ih.readCell (.inl rfl)).force _

/-- The root that is read is sound. -/
theorem TxInv.loadRoot (h : TxInv Λ K tx) {c : U128} {kt vt : Ty} (hc : Λ.schema c = some (kt, vt)) :
    TxInv Λ K (loadRoot tx c kt vt).1 ∧ Sound K kt vt (loadRoot tx c kt vt).2 := by
  have hread : Λ.ReadAt c (.pmap kt vt) := by
    refine .inr ⟨fun ⟨e, he, hec⟩ => ?_, fun kt' vt' hc' => ?_⟩
    · have := Λ.apart e he
      rw [hec, hc] at this
      cases this
    · rw [hc] at hc'
      cases hc'
      rfl
  refine ⟨(h.readCell hread).force _, ?_⟩
  have hvalue : ∀ {v : Value} (tx : Tx), RootValue K kt vt v → Sound K kt vt (asRoot (tx.force v).2) := by
    intro v tx hv
    rw [force_eq_of_not_pending hv.not_pending]
    exact hv.sound
  change Sound K kt vt (asRoot ((tx.readCell c (.pmap kt vt)).1.force (tx.readCell c (.pmap kt vt)).2).2)
  rcases tx.readCell_cases c (.pmap kt vt) with ⟨he, hs⟩ | ⟨-, he, hs⟩ | ⟨-, he⟩ | ⟨-, he⟩
  · obtain ⟨v, hv⟩ := Option.isSome_iff_exists.1 hs
    rw [he, hv]
    exact hvalue _ (h.roots c kt vt hc v (.inl hv))
  · obtain ⟨v, hv⟩ := Option.isSome_iff_exists.1 hs
    rw [he, hv]
    exact hvalue _ (h.roots c kt vt hc v (.inr (.inl hv)))
  · rw [he]
    exact hvalue _ (h.storeValue hc hread)
  · have hp : ⟨tx.nextHandle, c, .pmap kt vt⟩ ∈ (tx.queue c (.pmap kt vt)).1.pending := by simp [Tx.queue]
    rw [he]
    change Sound K kt vt (asRoot ((tx.queue c (.pmap kt vt)).1.force (.pending tx.nextHandle)).2)
    rw [force_pending (h.fresh.queue c (.pmap kt vt)) hp]
    exact (h.storeValue hc hread).sound

theorem TxInv.beginPmapGet (h : TxInv Λ K tx) (root : U128) (key : Value) (kt vt : Ty) :
    TxInv Λ K (tx.beginPmapGet root key kt vt).1 := by
  have hfresh := h.fresh.beginPmapGet root key kt vt
  have hshown : Shown K (tx.beginPmapGet root key kt vt).1 := fun e he =>
    shows_beginPmapGet (h.shown e he) root key kt vt
  revert hfresh hshown
  rw [Tx.beginPmapGet]
  split_ifs
  · exact fun _ _ => h
  · exact fun hfresh hshown => { h with fresh := hfresh, shown := hshown }

theorem TxInv.setLazy (h : TxInv Λ K tx) (lazy : Bool) : TxInv Λ K (tx.setLazy lazy) :=
  { h with shown := fun e he => shows_mono (h.shown e he) rfl rfl id }

theorem TxInv.recordPmapTypes (h : TxInv Λ K tx) {c : U128} {kt vt : Ty}
    (hc : Λ.schema c = some (kt, vt)) : TxInv Λ K (tx.recordPmapTypes c kt vt) := by
  rw [Tx.recordPmapTypes]
  split
  · exact h
  · refine { h with shown := fun e he => shows_mono (h.shown e he) rfl rfl id, types := fun d t hd => ?_ }
    by_cases hdc : d = c
    · subst hdc
      simp only [AList.lookup_insert, Option.some.injEq] at hd
      rw [hc, hd]
    · simp only [AList.lookup_insert_ne hdc] at hd
      exact h.types d t hd

/-! ### Writing -/

/-- A cell is written: a node in reach at its own cell, a sound root at the cell of a map, or anything
elsewhere. -/
theorem TxInv.insertWrite (h : TxInv Λ K tx) {c : U128} {v : Value}
    (hnode : Λ.NodeCell c → ∃ e ∈ K, nodeCellKey e = c ∧ v = .bytes e)
    (hroot : ∀ kt vt, Λ.schema c = some (kt, vt) → RootValue K kt vt v) :
    TxInv Λ K { tx with writes := tx.writes.insert c v } := by
  -- a node in reach that has this cell is the one written
  have hself : ∀ e ∈ K, nodeCellKey e = c → v = .bytes e := by
    intro e he hec
    obtain ⟨e', he', hec', hv⟩ := hnode ⟨e, h.nodes he, hec⟩
    rw [hv, Layout.node_inj (h.nodes he') (h.nodes he) (hec'.trans hec.symm)]
  refine { h with shown := fun e he => ?_, log := fun e he => ?_, written := fun d w hw hd => ?_,
                  roots := fun d kt vt hd w hw => ?_ }
  · by_cases hec : nodeCellKey e = c
    · rw [shows_eq_some_iff, hec]
      exact .inl (by simp [hself e he hec])
    · have hshow := h.shown e he
      rw [shows_eq_some_iff] at hshow ⊢
      simp only [AList.lookup_insert_ne hec]
      exact hshow
  · obtain ⟨heK, hw⟩ := h.log e he
    refine ⟨heK, ?_⟩
    by_cases hec : nodeCellKey e = c
    · rw [hec]
      simp [hself e heK hec]
    · simp only [AList.lookup_insert_ne hec]
      exact hw
  · by_cases hdc : d = c
    · subst hdc
      simp only [AList.lookup_insert, Option.some.injEq] at hw
      exact hw ▸ hnode hd
    · simp only [AList.lookup_insert_ne hdc] at hw
      exact h.written d w hw hd
  · rcases hw with hw | hw
    · by_cases hdc : d = c
      · subst hdc
        simp only [AList.lookup_insert, Option.some.injEq] at hw
        exact hw ▸ hroot kt vt hd
      · simp only [AList.lookup_insert_ne hdc] at hw
        exact h.roots d kt vt hd w (.inl hw)
    · exact h.roots d kt vt hd w (.inr hw)

theorem TxInv.write (h : TxInv Λ K tx) {c : U128} (v : Value) (hnode : ¬ Λ.NodeCell c)
    (hroot : Λ.schema c = none) : TxInv Λ K (tx.write c v) := by
  refine (h.force v).insertWrite (fun hc => absurd hc hnode) fun kt vt hc => ?_
  rw [hroot] at hc
  cases hc

theorem TxInv.storeRoot (h : TxInv Λ K tx) {c root : U128} {kt vt : Ty} (hc : Λ.schema c = some (kt, vt))
    (hr : Sound K kt vt root) : TxInv Λ K (tx.write c (.pmap root)) := by
  have hwrite : tx.write c (.pmap root) = { tx with writes := tx.writes.insert c (.pmap root) } := by
    rw [Tx.write, force_eq_of_not_pending rfl]
  rw [hwrite]
  refine h.insertWrite ?_ fun kt' vt' hc' => ?_
  · rintro ⟨e, he, hec⟩
    have := Λ.apart e he
    rw [hec, hc] at this
    cases this
  · rw [hc] at hc'
    cases hc'
    exact .inl ⟨root, rfl, hr⟩

/-- One more node comes into reach by being written. -/
theorem TxInv.writeNode (h : TxInv Λ K tx) {bs : Bytes} (hbs : bs ∈ Λ.nodes) :
    TxInv Λ (insert bs K) (writeNode tx bs).1 := by
  have hsub : K ⊆ insert bs K := Set.subset_insert bs K
  rw [writeNode_eq]
  refine ⟨Set.insert_subset hbs h.nodes, h.fresh, ?_, ?_, ?_, h.queued, ?_, ?_, h.types⟩
  · intro e he
    by_cases hec : nodeCellKey e = nodeCellKey bs
    · obtain rfl : e = bs := Layout.node_inj (Set.insert_subset hbs h.nodes he) hbs hec
      rw [shows_eq_some_iff]
      exact .inl (by simp)
    · have heK : e ∈ K := (Set.mem_insert_iff.1 he).resolve_left fun heq => hec (by rw [heq])
      have hshow := h.shown e heK
      rw [shows_eq_some_iff] at hshow ⊢
      simp only [AList.lookup_insert_ne hec]
      exact hshow
  · intro e he
    simp only [List.mem_append, List.mem_singleton] at he
    by_cases hec : nodeCellKey e = nodeCellKey bs
    · have heN : e ∈ Λ.nodes := by
        rcases he with he | rfl
        · exact h.nodes (h.log e he).1
        · exact hbs
      obtain rfl := Layout.node_inj heN hbs hec
      exact ⟨Set.mem_insert _ _, by simp⟩
    · obtain ⟨heK, hw⟩ := h.log e (he.resolve_right fun heq => hec (by rw [heq]))
      refine ⟨hsub heK, ?_⟩
      simp only [AList.lookup_insert_ne hec]
      exact hw
  · intro c v hv hc
    by_cases hcb : c = nodeCellKey bs
    · subst hcb
      simp only [AList.lookup_insert, Option.some.injEq] at hv
      exact ⟨bs, Set.mem_insert _ _, rfl, hv.symm⟩
    · simp only [AList.lookup_insert_ne hcb] at hv
      obtain ⟨e, he, hec, hev⟩ := h.written c v hv hc
      exact ⟨e, hsub he, hec, hev⟩
  · intro c kt vt hc v hv
    have hcb : c ≠ nodeCellKey bs := by
      rintro rfl
      have := Λ.apart bs hbs
      rw [hc] at this
      cases this
    simp only [AList.lookup_insert_ne hcb] at hv
    exact (h.roots c kt vt hc v hv).mono hsub
  · exact fun c kt vt hc => (h.store c kt vt hc).mono hsub

theorem TxInv.logged_subset (h : TxInv Λ K tx) : logged tx ⊆ K := fun e he => (h.log e he).1

/-- A call of the map brings the nodes it writes into reach. -/
theorem TxInv.steps (h : TxInv Λ K tx) (hsteps : Steps tx tx') (hlog : logged tx' ⊆ Λ.nodes) :
    TxInv Λ (K ∪ logged tx') tx' := by
  induction hsteps with
  | refl => rwa [Set.union_eq_self_of_subset_right h.logged_subset]
  | tail _ hstep ih =>
    cases hstep with
    | read hr =>
      have hlogeq : logged _ = logged _ := congrArg (fun l => {e | e ∈ l}) hr.nodeLog
      rw [hlogeq] at hlog ⊢
      exact (ih hlog).reads (.single hr)
    | write bs =>
      rename_i tx₁ _
      have hlogeq : logged (Pmap.writeNode tx₁ bs).1 = insert bs (logged tx₁) := by
        ext e
        simp [logged, or_comm]
      rw [hlogeq] at hlog ⊢
      rw [Set.union_insert]
      exact (ih ((Set.subset_insert _ _).trans hlog)).writeNode (hlog (Set.mem_insert _ _))

/-! ### Shadow transactions -/

/-- A shadow transaction sees what its parent sees. -/
theorem TxInv.shadowOf (h : TxInv Λ K tx) : TxInv Λ K tx.shadowOf := by
  have hlookup : ∀ c, tx.shadowOf.parentLookup c =
      (tx.writes.lookup c).or ((tx.reads.lookup c).or (tx.parentLookup c)) := by
    intro c
    rw [Tx.parentLookup, Tx.shadowOf, parentLookupIn]
    cases tx.writes.lookup c <;> cases tx.reads.lookup c <;> rfl
  refine ⟨h.nodes, ?_, fun e he => ?_, ?_, ?_, ?_, fun c kt vt hc v hv => ?_, h.store, ?_⟩
  · exact ⟨List.nodup_nil, by simp [Tx.handles, Tx.shadowOf]⟩
  · rw [shows_eq_some_iff]
    refine .inr ⟨rfl, ⟨⟨List.nodup_nil, by simp [Tx.handles, Tx.shadowOf]⟩, by simp [Tx.shadowOf],
      by simp [Tx.shadowOf]⟩, ?_⟩
    rw [Tx.storeValue, hlookup]
    rcases shows_eq_some_iff.1 (h.shown e he) with hw | ⟨hw, ⟨-, hr, -⟩, hv⟩
    · rw [hw]
      rfl
    · rw [hw]
      cases hread : tx.reads.lookup (nodeCellKey e) with
      | some v =>
        rw [← hv, ← hr v hread]
        rfl
      | none => exact hv
  · simp [Tx.shadowOf]
  · simp [Tx.shadowOf]
  · simp [Tx.shadowOf]
  · rcases hv with hv | hv | hv
    · cases hv
    · cases hv
    · rw [hlookup] at hv
      cases hw : tx.writes.lookup c with
      | some w =>
        rw [hw] at hv
        exact h.roots c kt vt hc v (.inl (hw.trans hv))
      | none =>
        rw [hw] at hv
        cases hr : tx.reads.lookup c with
        | some w =>
          rw [hr] at hv
          exact h.roots c kt vt hc v (.inr (.inl (hr.trans hv)))
        | none =>
          rw [hr] at hv
          exact h.roots c kt vt hc v (.inr (.inr hv))
  · simp [Tx.shadowOf]

theorem lookup_union_cases {α : Type*} {β : α → Type*} [DecidableEq α] {s t : AList β} {a : α} {b : β a}
    (h : (s ∪ t).lookup a = some b) : s.lookup a = some b ∨ (s.lookup a = none ∧ t.lookup a = some b) := by
  rcases AList.lookup_union_eq_some.1 h with h | ⟨hn, h⟩
  · exact .inl h
  · exact .inr ⟨AList.lookup_eq_none.2 hn, h⟩

theorem lookup_union_none {α : Type*} {β : α → Type*} [DecidableEq α] {s t : AList β} {a : α}
    (h : (s ∪ t).lookup a = none) : s.lookup a = none ∧ t.lookup a = none := by
  rw [AList.lookup_eq_none, AList.mem_union, not_or] at h
  exact ⟨AList.lookup_eq_none.2 h.1, AList.lookup_eq_none.2 h.2⟩

/-- Folding a shadow transaction back keeps all nodes in reach, those it has written included. -/
theorem TxInv.mergeDelta {δ : Tx} (h : TxInv Λ (K ∪ logged tx) tx) (hδ : TxInv Λ (K ∪ logged δ) δ) :
    TxInv Λ (K ∪ logged (tx.mergeDelta δ)) (tx.mergeDelta δ) := by
  have hlog : logged (tx.mergeDelta δ) = logged tx ∪ logged δ := by
    ext e
    simp [logged, Tx.mergeDelta]
  have hl : K ∪ logged tx ⊆ K ∪ logged (tx.mergeDelta δ) := by
    rw [hlog]
    exact Set.union_subset_union_right K Set.subset_union_left
  have hr : K ∪ logged δ ⊆ K ∪ logged (tx.mergeDelta δ) := by
    rw [hlog]
    exact Set.union_subset_union_right K Set.subset_union_right
  have hmem : ∀ e ∈ K ∪ logged (tx.mergeDelta δ), e ∈ K ∨ e ∈ tx.nodeLog ∨ e ∈ δ.nodeLog := by
    intro e he
    rw [hlog] at he
    exact he
  have hnodes : K ∪ logged (tx.mergeDelta δ) ⊆ Λ.nodes := by
    intro e he
    rcases hmem e he with he | he | he
    · exact h.nodes (.inl he)
    · exact h.nodes (.inr he)
    · exact hδ.nodes (.inr he)
  -- what either has written at the cell of a node is that node
  have hwritten : ∀ c v, (tx.mergeDelta δ).writes.lookup c = some v → Λ.NodeCell c →
      ∃ e ∈ K ∪ logged (tx.mergeDelta δ), nodeCellKey e = c ∧ v = .bytes e := by
    intro c v hv hc
    rcases lookup_union_cases hv with hv | ⟨-, hv⟩
    · obtain ⟨e, he, hec⟩ := hδ.written c v hv hc
      exact ⟨e, hr he, hec⟩
    · obtain ⟨e, he, hec⟩ := h.written c v hv hc
      exact ⟨e, hl he, hec⟩
  have hself : ∀ e ∈ K ∪ logged (tx.mergeDelta δ), ∀ v,
      (tx.mergeDelta δ).writes.lookup (nodeCellKey e) = some v → v = .bytes e := by
    intro e he v hv
    obtain ⟨e', he', hec, rfl⟩ := hwritten _ v hv ⟨e, hnodes he, rfl⟩
    rw [Layout.node_inj (hnodes he') (hnodes he) hec]
  refine ⟨hnodes, h.fresh, fun e he => ?_, fun e he => ?_, hwritten, h.queued, fun c kt vt hc v hv => ?_,
    fun c kt vt hc => (h.store c kt vt hc).mono hl, fun c t hc => ?_⟩
  · rw [shows_eq_some_iff]
    cases hw : (tx.mergeDelta δ).writes.lookup (nodeCellKey e) with
    | some v => exact .inl (by rw [hself e he v hw])
    | none =>
      -- neither has written the node, so both have it from below
      obtain ⟨hwδ, hwtx⟩ := lookup_union_none hw
      have heK : e ∈ K := by
        rcases hmem e he with he | he | he
        · exact he
        · rw [(h.log e he).2] at hwtx
          cases hwtx
        · rw [(hδ.log e he).2] at hwδ
          cases hwδ
      obtain ⟨-, ⟨hf, hrd, hp⟩, hv⟩ :=
        (shows_eq_some_iff.1 (h.shown e (.inl heK))).resolve_left (by rw [hwtx]; simp)
      obtain ⟨-, ⟨-, hrdδ, -⟩, hvδ⟩ :=
        (shows_eq_some_iff.1 (hδ.shown e (.inl heK))).resolve_left (by rw [hwδ]; simp)
      refine .inr ⟨rfl, ⟨hf, fun v hread => ?_, hp⟩, hv⟩
      change v = tx.storeValue (nodeCellKey e) .bytes
      rcases lookup_union_cases hread with hread | ⟨-, hread⟩
      · exact hrd v hread
      · rw [hrdδ v hread, hvδ, hv]
  · have he' : e ∈ K ∪ logged (tx.mergeDelta δ) := .inr he
    refine ⟨he', ?_⟩
    cases hw : (tx.mergeDelta δ).writes.lookup (nodeCellKey e) with
    | some v => rw [hself e he' v hw]
    | none =>
      obtain ⟨hwδ, hwtx⟩ := lookup_union_none hw
      rcases List.mem_append.1 he with he | he
      · rw [(h.log e he).2] at hwtx
        cases hwtx
      · rw [(hδ.log e he).2] at hwδ
        cases hwδ
  · rcases hv with hv | hv | hv
    · rcases lookup_union_cases hv with hv | ⟨-, hv⟩
      · exact (hδ.roots c kt vt hc v (.inl hv)).mono hr
      · exact (h.roots c kt vt hc v (.inl hv)).mono hl
    · rcases lookup_union_cases hv with hv | ⟨-, hv⟩
      · exact (h.roots c kt vt hc v (.inr (.inl hv))).mono hl
      · exact (hδ.roots c kt vt hc v (.inr (.inl hv))).mono hr
    · exact (h.roots c kt vt hc v (.inr (.inr hv))).mono hl
  · rcases lookup_union_cases hc with hc | ⟨-, hc⟩
    · exact hδ.types c t hc
    · exact h.types c t hc

/-! ### Runs -/

/-- The roots the machine has come by are sound. -/
def RootsSound (K : Set Bytes) (rs : List Root) : Prop := ∀ r ∈ rs, Sound K r.1 r.2.1 r.2.2

theorem RootsSound.mono {K' : Set Bytes} {rs : List Root} (h : RootsSound K rs) (hK : K ⊆ K') :
    RootsSound K' rs := fun r hr => (h r hr).mono hK

theorem RootsSound.cons {rs : List Root} {kt vt : Ty} {root : U128} (h : RootsSound K rs)
    (hr : Sound K kt vt root) : RootsSound K ((kt, vt, root) :: rs) := by
  intro r hmem
  rcases List.mem_cons.1 hmem with rfl | hmem
  · exact hr
  · exact h r hmem

/-- The log only grows. -/
theorem Exec.nodeLog_subset {P : Ty → Ty → Value → Value → Prop} {m m' : Machine} (h : Exec Λ P m m') :
    m.1.nodeLog ⊆ m'.1.nodeLog := by
  induction h with
  | refl => exact fun _ h => h
  | readCell _ _ ih => rwa [readCell_nodeLog]
  | readTyped _ _ ih => rwa [readTyped_nodeLog]
  | read _ _ ih => rwa [read_nodeLog]
  | force _ v ih => rwa [(drained_force _ v).nodeLog_eq]
  | write _ v _ _ ih => rwa [write_nodeLog]
  | look _ hr ih => rwa [hr.nodeLog]
  | beginPmapGet _ root key kt vt ih =>
    rw [Tx.beginPmapGet]
    split_ifs <;> exact ih
  | recordPmapTypes _ _ ih =>
    rw [Tx.recordPmapTypes]
    split <;> exact ih
  | setLazy _ _ ih => exact ih
  | newRoot _ _ _ ih => exact ih
  | loadRoot _ _ ih =>
    refine fun e he => ?_
    rw [Rocks.loadRoot, (drained_force _ _).nodeLog_eq, readCell_nodeLog]
    exact ih he
  | storeRoot _ _ _ ih => rwa [write_nodeLog]
  | set _ _ _ _ ih => exact fun e he => setAt_nodeLog _ _ _ _ _ _ _ _ _ (ih he)
  | remove _ key _ _ ih => exact fun e he => remove_nodeLog _ key _ (ih he)
  | shadow _ _ _ ih₀ _ ih => exact fun e he => List.mem_append_left _ (ih (ih₀ he))

theorem union_logged_congr {tx' : Tx} (h : tx'.nodeLog = tx.nodeLog) : K ∪ logged tx' = K ∪ logged tx := by
  rw [logged, h, logged]

/-- A call that leads to a sound root. -/
theorem TxInv.call {rs : List Root} (h : TxInv Λ (K ∪ logged tx) tx) (hrs : RootsSound (K ∪ logged tx) rs)
    (hsteps : Steps tx tx') (hn : logged tx' ⊆ Λ.nodes) {kt vt : Ty} {root : U128}
    (hsound : Sound (K ∪ logged tx ∪ logged tx') kt vt root) :
    TxInv Λ (K ∪ logged tx') tx' ∧ RootsSound (K ∪ logged tx') ((kt, vt, root) :: rs) := by
  have hsub : logged tx ⊆ logged tx' := fun e he => hsteps.log_subset he
  have hsets : K ∪ logged tx ∪ logged tx' = K ∪ logged tx' := by
    rw [Set.union_assoc, Set.union_eq_self_of_subset_left hsub]
  have hi := h.steps hsteps hn
  rw [hsets] at hsound hi
  exact ⟨hi, (hrs.mono (Set.union_subset_union_right K hsub)).cons hsound⟩

/-- A key and a value that read back at the types of the map. -/
def ReadsBack (kt vt : Ty) (key value : Value) : Prop := RoundTrips kt key ∧ RoundTrips vt value

/-- **A run whose keys and values read back keeps every node in reach and every root sound.** -/
theorem Exec.inv {m m' : Machine} (h : Exec Λ ReadsBack m m') (hm : TxInv Λ (K ∪ logged m.1) m.1)
    (hr : RootsSound (K ∪ logged m.1) m.2) :
    TxInv Λ (K ∪ logged m'.1) m'.1 ∧ RootsSound (K ∪ logged m'.1) m'.2 := by
  induction h generalizing K with
  | refl => exact ⟨hm, hr⟩
  | readCell _ hc ih =>
    obtain ⟨hi, hrs⟩ := ih hm hr
    rw [union_logged_congr (readCell_nodeLog _ _ _)]
    exact ⟨hi.readCell hc, hrs⟩
  | readTyped _ hc ih =>
    obtain ⟨hi, hrs⟩ := ih hm hr
    rw [union_logged_congr (readTyped_nodeLog _ _ _)]
    exact ⟨hi.readTyped hc, hrs⟩
  | read _ hc ih =>
    obtain ⟨hi, hrs⟩ := ih hm hr
    rw [union_logged_congr (read_nodeLog _ _ _ _)]
    exact ⟨hi.read hc, hrs⟩
  | force _ v ih =>
    obtain ⟨hi, hrs⟩ := ih hm hr
    rw [union_logged_congr (drained_force _ v).nodeLog_eq]
    exact ⟨hi.force v, hrs⟩
  | write _ v hnode hroot ih =>
    obtain ⟨hi, hrs⟩ := ih hm hr
    rw [union_logged_congr (write_nodeLog _ _ _)]
    exact ⟨hi.write v hnode hroot, hrs⟩
  | look _ hreads ih =>
    obtain ⟨hi, hrs⟩ := ih hm hr
    rw [union_logged_congr hreads.nodeLog]
    exact ⟨hi.reads hreads, hrs⟩
  | @beginPmapGet _ tx _ _ root key kt vt ih =>
    obtain ⟨hi, hrs⟩ := ih hm hr
    have hlog : (tx.beginPmapGet root key kt vt).1.nodeLog = tx.nodeLog := by
      rw [Tx.beginPmapGet]
      split_ifs <;> rfl
    rw [union_logged_congr hlog]
    exact ⟨hi.beginPmapGet root key kt vt, hrs⟩
  | @recordPmapTypes _ tx _ _ c kt vt hc ih =>
    obtain ⟨hi, hrs⟩ := ih hm hr
    have hlog : (tx.recordPmapTypes c kt vt).nodeLog = tx.nodeLog := by
      rw [Tx.recordPmapTypes]
      split <;> rfl
    rw [union_logged_congr hlog]
    exact ⟨hi.recordPmapTypes hc, hrs⟩
  | setLazy _ lazy ih =>
    obtain ⟨hi, hrs⟩ := ih hm hr
    exact ⟨hi.setLazy lazy, hrs⟩
  | newRoot _ kt vt ih =>
    obtain ⟨hi, hrs⟩ := ih hm hr
    exact ⟨hi, hrs.cons (sound_empty _)⟩
  | @loadRoot _ tx _ _ c kt vt hc ih =>
    obtain ⟨hi, hrs⟩ := ih hm hr
    have hlog : (Rocks.loadRoot tx c kt vt).1.nodeLog = tx.nodeLog :=
      (drained_force _ _).nodeLog_eq.trans (readCell_nodeLog _ _ _)
    rw [union_logged_congr hlog]
    exact ⟨(hi.loadRoot hc).1, hrs.cons (hi.loadRoot hc).2⟩
  | storeRoot _ hc hroot ih =>
    obtain ⟨hi, hrs⟩ := ih hm hr
    rw [union_logged_congr (write_nodeLog _ _ _)]
    exact ⟨hi.storeRoot hc (hrs _ hroot), hrs⟩
  | set h hroot hP hn ih =>
    obtain ⟨hi, hrs⟩ := ih hm hr
    obtain ⟨tx', root', hset, hsteps, hsound⟩ :=
      (hrs _ hroot).set (Λ.keepable.anti hi.nodes) hi.shown hP.1 hP.2
    rw [hset] at hn ⊢
    exact hi.call hrs hsteps hn hsound
  | remove h key hroot hn ih =>
    obtain ⟨hi, hrs⟩ := ih hm hr
    obtain ⟨tx', root', found, hrem, hsteps, hsound⟩ :=
      (hrs _ hroot).remove (Λ.keepable.anti hi.nodes) hi.shown fun e he => Λ.keepable.ne_empty e (hn he)
    rw [hrem] at hn ⊢
    exact hi.call hrs hsteps hn hsound
  | @shadow _ tx₀ tx δ rs₀ rs rs' h₀ hδ h ih₀ ihδ ih =>
    obtain ⟨hi₀, hrs₀⟩ := ih₀ hm hr
    have hempty : logged tx₀.shadowOf = ∅ := by
      ext e
      simp [logged, Tx.shadowOf]
    obtain ⟨hiδ, hrsδ⟩ := @ihδ (K ∪ logged tx₀) (by rw [hempty, Set.union_empty]; exact hi₀.shadowOf)
      (by rw [hempty, Set.union_empty]; exact hrs₀)
    have hself : K ∪ logged tx₀ ∪ logged tx₀ = K ∪ logged tx₀ := by rw [Set.union_assoc, Set.union_self]
    obtain ⟨hi, hrs⟩ := @ih (K ∪ logged tx₀) (by rw [hself]; exact hi₀) (by rw [hself]; exact hrs₀)
    have hmerged := hi.mergeDelta hiδ
    have hlog : logged tx₀ ⊆ logged (tx.mergeDelta δ) := fun e he => List.mem_append_left _ (h.nodeLog_subset he)
    have hsets : K ∪ logged tx₀ ∪ logged (tx.mergeDelta δ) = K ∪ logged (tx.mergeDelta δ) := by
      rw [Set.union_assoc, Set.union_eq_self_of_subset_left hlog]
    rw [hsets] at hmerged
    refine ⟨hmerged, fun r hmem => ?_⟩
    rw [← hsets]
    rcases List.mem_append.1 hmem with hmem | hmem
    · exact (hrsδ r hmem).mono (Set.union_subset_union_right _ fun e he => List.mem_append_right _ he)
    · exact (hrs r hmem).mono (Set.union_subset_union_right _ fun e he => List.mem_append_left _ he)

end Rend.Rocks
