import Rend.Drain

/-!
# Node cells

The persistent collections keep their nodes in cells of their own, each at the hash of its bytes. What
a transaction shows at such a cell is what it has written there, or what lies below its caches when
nothing in flight can answer otherwise (`Tx.shows`).

The operations of a collection touch node cells in two ways: they read a cell into the cache, and they
write a node at its own cell (`Tx.KeySteps`). From this one description follow the facts that all later
proofs use: the log of written encodings grows (`KeySteps.log_subset`), and where the keys of nodes do
not collide a node that is shown stays shown (`KeySteps.shows`, `KeySteps.log_shows`).
-/

namespace Rend.Tx

open Lib Pmap

/-! ### Reading a node cell -/

/-- Nothing in flight can make a read of the cell answer with anything but the node in the store: each
handle is issued once, and what is cached or queued for the cell is a node. -/
def Settles (tx : Tx) (c : U128) : Prop :=
  tx.Fresh ∧ (∀ v ∈ tx.reads.lookup c, v = tx.storeValue c .bytes) ∧
    ∀ p ∈ tx.pending, p.key = c → p.ty = .bytes

instance (tx : Tx) (c : U128) : Decidable (tx.Settles c) := inferInstanceAs (Decidable (_ ∧ _ ∧ _))

/-- The node bytes a read of the cell answers with. -/
def shows (tx : Tx) (c : U128) : Option Bytes :=
  match tx.writes.lookup c with
  | some v => asBytes v
  | none => if tx.Settles c then asBytes (tx.storeValue c .bytes) else none

/-- Reads a cell as a node, with the drain this sets off in lazy mode. -/
def fetch (tx : Tx) (c : U128) : Tx × Value := (tx.readCell c .bytes).1.force (tx.readCell c .bytes).2

/-- Reading a cell as a node. -/
inductive ReadStep : Tx → Tx → Prop
  | read (tx : Tx) (c : U128) : ReadStep tx (tx.fetch c).1

abbrev Reads : Tx → Tx → Prop := Relation.ReflTransGen ReadStep


theorem shows_eq_some_iff {tx : Tx} {c : U128} {bs : Bytes} : tx.shows c = some bs ↔
    tx.writes.lookup c = some (.bytes bs) ∨
      (tx.writes.lookup c = none ∧ tx.Settles c ∧ tx.storeValue c .bytes = .bytes bs) := by
  have hbytes : ∀ v : Value, asBytes v = some bs ↔ v = .bytes bs := by
    intro v
    cases v <;> simp [asBytes]
  unfold shows
  cases hw : tx.writes.lookup c with
  | some v => simp [hbytes]
  | none =>
    by_cases hs : tx.Settles c
    · simp [hs, hbytes]
    · simp [hs]

/-- The cell keeps showing its node as long as writes and the store stay and it settles. -/
theorem shows_mono {tx tx' : Tx} {c : U128} {bs : Bytes} (h : tx.shows c = some bs)
    (hwrites : tx'.writes = tx.writes) (hstore : tx'.storeValue c .bytes = tx.storeValue c .bytes)
    (hsettles : tx.Settles c → tx'.Settles c) : tx'.shows c = some bs := by
  rw [shows_eq_some_iff] at h ⊢
  rw [hwrites, hstore]
  exact h.imp_right fun ⟨hw, hs, hv⟩ => ⟨hw, hsettles hs, hv⟩

theorem Drained.shows {tx tx' : Tx} (h : Drained tx tx') {c : U128} {bs : Bytes}
    (hc : tx.shows c = some bs) : tx'.shows c = some bs := by
  refine shows_mono hc h.writes_eq (h.storeValue_eq c .bytes) fun ⟨hf, hr, hp⟩ => ⟨h.fresh hf, ?_, ?_⟩
  · intro v hv
    rw [h.storeValue_eq]
    rcases h.reads c with he | ⟨p, hp', hpc, he⟩ | ⟨-, he⟩
    · exact hr v (he ▸ hv)
    · rw [he, hp p hp' hpc] at hv
      exact (Option.some.inj hv).symm
    · rw [he] at hv
      exact (Option.some.inj hv).symm
  · exact fun p hp' => hp p (h.pending.subset hp')

/-- Issuing the next handle. -/
theorem Fresh.issue {tx tx' : Tx} (h : tx.Fresh) (hperm : tx'.handles.Perm (tx.nextHandle :: tx.handles))
    (hnext : tx'.nextHandle = tx.nextHandle + 1) : tx'.Fresh := by
  constructor
  · rw [hperm.nodup_iff, List.nodup_cons]
    exact ⟨fun hmem => absurd (h.2 _ hmem) (lt_irrefl _), h.1⟩
  · intro i hi
    rw [hnext]
    rcases List.mem_cons.1 (hperm.mem_iff.1 hi) with rfl | hi
    · exact Nat.lt_succ_self _
    · exact lt_trans (h.2 i hi) (Nat.lt_succ_self _)

theorem queue_handles (tx : Tx) (c : U128) (ty : Ty) :
    (tx.queue c ty).1.handles.Perm (tx.nextHandle :: tx.handles) := by
  simp only [handles, Tx.queue, List.map_append, List.map_singleton, List.append_assoc,
    List.singleton_append]
  exact List.perm_middle

theorem Fresh.queue {tx : Tx} (h : tx.Fresh) (c : U128) (ty : Ty) : (tx.queue c ty).1.Fresh :=
  h.issue (tx.queue_handles c ty) rfl

/-- Beginning a lookup does nothing below the empty root, and issues a handle otherwise. -/
theorem beginPmapGet_handles (tx : Tx) {root : U128} (hroot : root ≠ emptyRoot) (key : Value) (kt vt : Ty) :
    (tx.beginPmapGet root key kt vt).1.handles.Perm (tx.nextHandle :: tx.handles) := by
  rw [Tx.beginPmapGet, if_neg hroot]
  simp only [handles, List.map_append, List.map_singleton]
  rw [← List.append_assoc]
  exact List.perm_append_singleton _ _

theorem Fresh.beginPmapGet {tx : Tx} (h : tx.Fresh) (root : U128) (key : Value) (kt vt : Ty) :
    (tx.beginPmapGet root key kt vt).1.Fresh := by
  by_cases hroot : root = emptyRoot
  · rw [Tx.beginPmapGet, if_pos hroot]
    exact h
  · refine h.issue (tx.beginPmapGet_handles hroot key kt vt) ?_
    rw [Tx.beginPmapGet, if_neg hroot]

theorem shows_beginPmapGet {tx : Tx} {c : U128} {bs : Bytes} (h : tx.shows c = some bs) (root : U128)
    (key : Value) (kt vt : Ty) : (tx.beginPmapGet root key kt vt).1.shows c = some bs := by
  have hfresh : tx.Fresh → (tx.beginPmapGet root key kt vt).1.Fresh := fun hf => hf.beginPmapGet root key kt vt
  rw [Tx.beginPmapGet] at hfresh ⊢
  split_ifs at hfresh ⊢
  · exact h
  · exact shows_mono h rfl rfl fun ⟨hf, hr, hp⟩ => ⟨hfresh hf, hr, hp⟩

/-- Queueing a read of the cell as a node, or of another cell. -/
theorem shows_queue {tx : Tx} {c d : U128} {ty : Ty} {bs : Bytes} (h : tx.shows d = some bs)
    (hty : d = c → ty = .bytes) : (tx.queue c ty).1.shows d = some bs := by
  refine shows_mono h rfl rfl fun ⟨hf, hr, hp⟩ => ⟨hf.queue c ty, hr, fun p hp' hpd => ?_⟩
  rcases List.mem_append.1 hp' with hp' | hp'
  · exact hp p hp' hpd
  · rw [List.mem_singleton.1 hp'] at hpd ⊢
    exact hty hpd.symm

/-- Caching the cell as a node, or another cell. -/
theorem shows_insert_read {tx : Tx} {c d : U128} {v : Value} {bs : Bytes} (h : tx.shows d = some bs)
    (hv : d = c → v = tx.storeValue c .bytes) :
    shows { tx with reads := tx.reads.insert c v } d = some bs := by
  refine shows_mono h rfl rfl fun ⟨hf, hr, hp⟩ => ⟨hf, fun w hw => ?_, hp⟩
  by_cases hd : d = c
  · subst hd
    simp only [AList.lookup_insert, Option.mem_def, Option.some.injEq] at hw
    rw [← hw, hv rfl]
    rfl
  · simp only [AList.lookup_insert_ne hd] at hw
    exact hr w hw

/-- What reading a cell does to a transaction that has not written it. -/
theorem readCell_cases (tx : Tx) (c : U128) (ty : Ty) :
    (tx.readCell c ty = (tx, (tx.writes.lookup c).getD .unit) ∧ (tx.writes.lookup c).isSome) ∨
    (tx.writes.lookup c = none ∧ tx.readCell c ty = (tx, (tx.reads.lookup c).getD .unit) ∧
      (tx.reads.lookup c).isSome) ∨
    (tx.writes.lookup c = none ∧ tx.readCell c ty =
      ({ tx with reads := tx.reads.insert c (tx.storeValue c ty) }, tx.storeValue c ty)) ∨
    (tx.writes.lookup c = none ∧ tx.readCell c ty = tx.queue c ty) := by
  unfold readCell storeValue
  cases hw : tx.writes.lookup c with
  | some v => exact .inl ⟨rfl, rfl⟩
  | none =>
    cases hr : tx.reads.lookup c with
    | some v => exact .inr (.inl ⟨rfl, rfl, rfl⟩)
    | none =>
      cases hp : tx.parentLookup c with
      | some v => exact .inr (.inr (.inl ⟨rfl, rfl⟩))
      | none =>
        by_cases hl : tx.lazy
        · exact .inr (.inr (.inr ⟨rfl, by simp [hl]⟩))
        · exact .inr (.inr (.inl ⟨rfl, by simp [hl, read, hw, hr, hp]⟩))

theorem ReadStep.shows {tx tx' : Tx} (h : ReadStep tx tx') {d : U128} {bs : Bytes}
    (hd : tx.shows d = some bs) : tx'.shows d = some bs := by
  cases h with
  | read c =>
    refine (drained_force _ _).shows ?_
    rcases tx.readCell_cases c .bytes with ⟨h, -⟩ | ⟨-, h, -⟩ | ⟨-, h⟩ | ⟨-, h⟩
    · rwa [h]
    · rwa [h]
    · rw [h]
      exact shows_insert_read hd fun _ => rfl
    · rw [h]
      exact shows_queue hd fun _ => rfl

theorem Reads.shows {tx tx' : Tx} (h : Reads tx tx') {d : U128} {bs : Bytes}
    (hd : tx.shows d = some bs) : tx'.shows d = some bs := by
  induction h with
  | refl => exact hd
  | tail _ hstep ih => exact hstep.shows ih

theorem readCell_nodeLog (tx : Tx) (c : U128) (ty : Ty) : (tx.readCell c ty).1.nodeLog = tx.nodeLog := by
  rcases tx.readCell_cases c ty with ⟨he, -⟩ | ⟨-, he, -⟩ | ⟨-, he⟩ | ⟨-, he⟩
  · rw [he]
  · rw [he]
  · rw [he]
  · rw [he]
    rfl

theorem read_nodeLog (tx : Tx) (c : U128) (ty : Ty) (d : Value) :
    (tx.read c ty d).1.nodeLog = tx.nodeLog := by
  unfold Tx.read
  cases tx.writes.lookup c with
  | some v => rfl
  | none => cases tx.reads.lookup c <;> rfl

theorem readTyped_nodeLog (tx : Tx) (c : U128) (ty : Ty) : (tx.readTyped c ty).1.nodeLog = tx.nodeLog := by
  unfold Tx.readTyped
  cases tx.writes.lookup c with
  | some v => rfl
  | none =>
    cases tx.reads.lookup c with
    | some v => rfl
    | none =>
      dsimp only
      split_ifs
      · rfl
      · exact read_nodeLog tx c ty _

theorem write_nodeLog (tx : Tx) (c : U128) (v : Value) : (tx.write c v).nodeLog = tx.nodeLog :=
  (drained_force tx v).nodeLog_eq

theorem ReadStep.nodeLog {tx tx' : Tx} (h : ReadStep tx tx') : tx'.nodeLog = tx.nodeLog := by
  cases h with
  | read c =>
    exact (drained_force _ _).nodeLog_eq.trans (readCell_nodeLog tx c .bytes)

theorem Reads.nodeLog {tx tx' : Tx} (h : Reads tx tx') : tx'.nodeLog = tx.nodeLog := by
  induction h with
  | refl => rfl
  | tail _ hstep ih => rw [hstep.nodeLog, ih]

theorem write_bytes (tx : Tx) (c : U128) (bs : Bytes) :
    tx.write c (.bytes bs) = { tx with writes := tx.writes.insert c (.bytes bs) } := by
  simp [write, force, containsPending]

/-- Reading a shown node. -/
theorem fetch_of_shows {tx : Tx} {c : U128} {bs : Bytes} (h : tx.shows c = some bs) :
    (tx.fetch c).2 = .bytes bs := by
  have hforce : ∀ tx : Tx, (tx.force (.bytes bs)).2 = .bytes bs := fun tx => by
    rw [force_eq_of_not_pending rfl]
  unfold fetch
  rcases shows_eq_some_iff.1 h with hw | ⟨hw, ⟨hf, hr, -⟩, hv⟩
  · have hread : tx.readCell c .bytes = (tx, .bytes bs) := by simp [readCell, hw]
    rw [hread]
    exact hforce tx
  · rcases tx.readCell_cases c .bytes with ⟨-, hs⟩ | ⟨-, hread, hs⟩ | ⟨-, hread⟩ | ⟨-, hread⟩
    · rw [hw] at hs
      cases hs
    · obtain ⟨v, hv'⟩ := Option.isSome_iff_exists.1 hs
      rw [hread, hv', Option.getD_some, hr v hv', hv]
      exact hforce tx
    · rw [hread, hv]
      exact hforce _
    · -- the read is queued last and resolves to what the store holds
      have hp : ⟨tx.nextHandle, c, .bytes⟩ ∈ (tx.queue c .bytes).1.pending := by simp [queue]
      rw [hread]
      exact (force_pending (hf.queue c .bytes) hp).trans hv

/-! ### Writing a node -/

/-- Stores a node at its own cell and gives the key of the cell. -/
def putNode (key : Bytes → U128) (tx : Tx) (bs : Bytes) : Tx × U128 :=
  let hash := key bs
  let tx := (tx.write hash (.bytes bs)).recordNodeCellWrite hash
  ({ tx with nodeLog := tx.nodeLog ++ [bs] }, hash)

/-- Reading a cell as a node, or writing a node at its key. -/
inductive KeyStep (key : Bytes → U128) : Tx → Tx → Prop
  | read {tx tx' : Tx} (h : ReadStep tx tx') : KeyStep key tx tx'
  | write (tx : Tx) (bs : Bytes) : KeyStep key tx (putNode key tx bs).1

abbrev KeySteps (key : Bytes → U128) : Tx → Tx → Prop := Relation.ReflTransGen (KeyStep key)

/-- A set of node encodings on which the keys do not collide and are never that of the empty root. -/
structure Apart (key : Bytes → U128) (S : Set Bytes) : Prop where
  inj : ∀ e ∈ S, ∀ e' ∈ S, key e = key e' → e = e'
  ne_empty : ∀ e ∈ S, key e ≠ 0

section KeySteps

variable {key : Bytes → U128} {tx tx' : Tx}

theorem Apart.mono {S S' : Set Bytes} (h : Apart key S') (hs : S ⊆ S') : Apart key S :=
  ⟨fun e he e' he' => h.inj e (hs he) e' (hs he'), fun e he => h.ne_empty e (hs he)⟩

/-- Finitely many encodings whose keys are told apart by evaluation. -/
theorem apart_of_list {l : List Bytes} (h : (∀ e ∈ l, ∀ e' ∈ l, key e = key e' → e = e') ∧ ∀ e ∈ l, key e ≠ 0) :
    Apart key {e | e ∈ l} :=
  ⟨h.1, h.2⟩

theorem putNode_eq (key : Bytes → U128) (tx : Tx) (bs : Bytes) : putNode key tx bs =
    ({ tx with writes := tx.writes.insert (key bs) (.bytes bs)
               nodeCellsWritten := insert (key bs) tx.nodeCellsWritten
               nodeLog := tx.nodeLog ++ [bs] }, key bs) := by
  simp [putNode, write_bytes, recordNodeCellWrite]

@[simp] theorem putNode_snd (key : Bytes → U128) (tx : Tx) (bs : Bytes) : (putNode key tx bs).2 = key bs := rfl

@[simp] theorem putNode_nodeLog (key : Bytes → U128) (tx : Tx) (bs : Bytes) :
    (putNode key tx bs).1.nodeLog = tx.nodeLog ++ [bs] := by
  rw [putNode_eq]

theorem putNode_shows_self (key : Bytes → U128) (tx : Tx) (bs : Bytes) :
    (putNode key tx bs).1.shows (key bs) = some bs := by
  simp [putNode_eq, shows, asBytes]

theorem putNode_shows_of_ne (tx : Tx) {bs : Bytes} {c : U128} (h : c ≠ key bs) :
    (putNode key tx bs).1.shows c = tx.shows c := by
  rw [putNode_eq]
  unfold shows
  simp only [AList.lookup_insert_ne h]
  rfl

theorem KeySteps.log_subset (h : KeySteps key tx tx') : tx.nodeLog ⊆ tx'.nodeLog := by
  induction h with
  | refl => exact List.Subset.refl _
  | tail _ hstep ih =>
    cases hstep with
    | read hr =>
      rw [hr.nodeLog]
      exact ih
    | write bs =>
      rw [putNode_nodeLog]
      exact fun e he => List.mem_append_left _ (ih he)

/-- A node shown before is shown after. -/
theorem KeySteps.shows {S : Set Bytes} (hS : Apart key S) (h : KeySteps key tx tx')
    (hlog : ∀ e ∈ tx'.nodeLog, e ∈ S) {e : Bytes} (he : e ∈ S)
    (hshow : tx.shows (key e) = some e) : tx'.shows (key e) = some e := by
  induction h with
  | refl => exact hshow
  | tail _ hstep ih =>
    cases hstep with
    | read hr =>
      rw [hr.nodeLog] at hlog
      exact hr.shows (ih hlog)
    | write bs =>
      rw [putNode_nodeLog] at hlog
      by_cases hk : key e = key bs
      · have hbs : e = bs := hS.inj e he bs (hlog bs (by simp)) hk
        rw [hbs]
        exact putNode_shows_self key _ bs
      · rw [putNode_shows_of_ne _ hk]
        exact ih fun e he => hlog e (by simp [he])

/-- What has been logged is shown. -/
theorem KeySteps.log_shows {S : Set Bytes} (hS : Apart key S) (h : KeySteps key tx tx')
    (hlog : ∀ e ∈ tx'.nodeLog, e ∈ S) (hinit : ∀ e ∈ tx.nodeLog, tx.shows (key e) = some e)
    {e : Bytes} (he : e ∈ tx'.nodeLog) : tx'.shows (key e) = some e := by
  induction h with
  | refl => exact hinit e he
  | tail hsteps hstep ih =>
    cases hstep with
    | read hr =>
      rw [hr.nodeLog] at hlog he
      exact hr.shows (ih hlog he)
    | write bs =>
      have hlog' := hlog
      rw [putNode_nodeLog] at hlog he
      rcases List.mem_append.1 he with he | he
      · exact KeySteps.shows hS (.single (.write _ bs)) hlog' (hlog e (by simp [he]))
          (ih (fun e he => hlog e (by simp [he])) he)
      · rw [List.mem_singleton] at he
        rw [he]
        exact putNode_shows_self key _ bs

/-- What has been logged is shown, at cells that are not the empty root. -/
def LogShown (key : Bytes → U128) (tx : Tx) : Prop := ∀ e ∈ tx.nodeLog, key e ≠ 0 ∧ tx.shows (key e) = some e

theorem KeySteps.logShown (h : KeySteps key tx tx') (hS : Apart key {e | e ∈ tx'.nodeLog}) (hs : LogShown key tx) :
    LogShown key tx' :=
  fun e he => ⟨hS.ne_empty e he, h.log_shows hS (fun _ he => he) (fun e he => (hs e he).2) he⟩

end KeySteps

theorem Reads.logShown {key : Bytes → U128} {tx tx' : Tx} (h : Reads tx tx') (hs : LogShown key tx) :
    LogShown key tx' := by
  intro e he
  rw [h.nodeLog] at he
  exact ⟨(hs e he).1, h.shows (hs e he).2⟩

/-! ### Runs over node cells -/

section Runs

variable {σ ρ Op : Type} (key : Bytes → U128) (step : Tx × σ → Op → Tx × σ) (refStep : ρ → Op → ρ)
  (Stands : List Bytes → σ → ρ → Prop) (Ok : Op → Prop)

/-- A collection in a transaction: its calls move the transaction by key steps, and a handle that stands
for a reference value over the nodes logged so far leads to one that stands for the updated value. -/
structure Stepwise : Prop where
  steps : ∀ s op, KeySteps key s.1 (step s op).1
  mono : ∀ {log log' : List Bytes} {h r}, log ⊆ log' → Stands log h r → Stands log' h r
  stands : ∀ {s r op}, Ok op → LogShown key s.1 → Apart key {e | e ∈ (step s op).1.nodeLog} →
    Stands s.1.nodeLog s.2 r → Stands (step s op).1.nodeLog (step s op).2 (refStep r op)

variable {key step refStep Stands Ok}

theorem Stepwise.run_steps (h : Stepwise key step refStep Stands Ok) (s : Tx × σ) (ops : List Op) :
    KeySteps key s.1 (ops.foldl step s).1 := by
  induction ops generalizing s with
  | nil => exact .refl
  | cons op ops ih => exact (h.steps s op).trans (ih _)

/-- **Every handle of a run keeps standing for the value of its own moment.** -/
theorem Stepwise.run_stands (h : Stepwise key step refStep Stands Ok) {s₀ : Tx × σ} {r₀ : ρ}
    (hlog : s₀.1.nodeLog = []) (h₀ : Stands [] s₀.2 r₀) (ops : List Op) (hok : ∀ op ∈ ops, Ok op)
    (hS : Apart key {e | e ∈ (ops.foldl step s₀).1.nodeLog}) :
    LogShown key (ops.foldl step s₀).1 ∧ ∀ p q, ops = p ++ q →
      Stands (ops.foldl step s₀).1.nodeLog (p.foldl step s₀).2 (p.foldl refStep r₀) := by
  induction ops using List.reverseRecOn with
  | nil =>
    refine ⟨fun e he => ?_, fun p q hpq => ?_⟩
    · rw [List.foldl_nil, hlog] at he
      cases he
    · obtain ⟨rfl, rfl⟩ := List.append_eq_nil_iff.1 hpq.symm
      rwa [List.foldl_nil, List.foldl_nil, hlog]
  | append_singleton ops op ih =>
    rw [List.foldl_append, List.foldl_cons, List.foldl_nil] at hS ⊢
    have hsteps := h.steps (ops.foldl step s₀) op
    obtain ⟨hshown, hstands⟩ := ih (fun o ho => hok o (List.mem_append_left _ ho))
      (hS.mono fun e he => hsteps.log_subset he)
    refine ⟨hsteps.logShown hS hshown, fun p q hpq => ?_⟩
    rcases List.eq_nil_or_concat' q with rfl | ⟨q', op', rfl⟩
    · rw [List.append_nil] at hpq
      subst hpq
      rw [List.foldl_append, List.foldl_append]
      have hop : Ok op := hok op (List.mem_append_right _ List.mem_cons_self)
      exact h.stands hop hshown hS (hstands ops [] (List.append_nil ops).symm)
    · have hops : ops = p ++ q' := by
        rw [← List.append_assoc] at hpq
        exact (List.append_inj' hpq rfl).1
      exact h.mono hsteps.log_subset (hstands p q' hops)

end Runs

end Rend.Tx
