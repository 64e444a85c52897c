import Rend.Pbtree.Writers
import Rend.Pmap.Runs

/-!
# Runs of insertions and removals in the sorted map

A run applies a list of `set` and `remove` calls in one transaction, starting from the empty root; the
reference map applies them to a function. Each call makes the tree at most one level higher, so that a
bound for the descent that is not below the number of calls is never used up.

`run_sorted` shows that every root of a run is the root of a search tree and answers as the reference map
of its own moment, with the listing, the ranges and the successors in the order of the keys, then and at
every later moment, provided that the keys and the values are such as the store keeps at their types. A
value that does not read back takes its leaf with it (`unreadable_value`).
-/

namespace Rend.Pbtree

open Lib Tx

open Pmap (RoundTrips Op RefMap refStep refRun)

variable {kt vt : Ty} {fuel n : ℕ} {tx : Tx} {root : U128} {m : RefMap}

/-- Applies a call to a root inside a transaction. A call that fails leaves the root. -/
def step (fuel : ℕ) (kt vt : Ty) (s : Tx × U128) : Op → Tx × U128
  | .set key value =>
    match set fuel s.2 key value s.1 kt vt with
    | (tx, .ok root) => (tx, root)
    | (tx, .error _) => (tx, s.2)
  | .remove key =>
    match remove fuel s.2 key s.1 kt vt with
    | (tx, .ok root) => (tx, root)
    | (tx, .error _) => (tx, s.2)

def run (fuel : ℕ) (kt vt : Ty) (tx : Tx) (ops : List Op) : Tx × U128 := ops.foldl (step fuel kt vt) (tx, emptyRoot)

/-- A call that the map carries out well: its key is of the key type, and what a `set` stores is read back
as it is. -/
def Storable (kt vt : Ty) : Op → Prop
  | .set key value => RoundTrips kt key ∧ RoundTrips vt value
  | .remove key => KeyOf kt key

/-- The key is above the target; without a target every key is. -/
def Above (target : Option Value) (key : Value) : Prop := ∀ t ∈ target, rank t < rank key

/-- The root is that of a search tree and answers as the reference map does: lookups, membership, the
sorted listing, the values between two bounds, and the least binding above a bound. -/
structure Answers (fuel : ℕ) (kt vt : Ty) (tx : Tx) (root : U128) (m : RefMap) : Prop where
  tree : root = emptyRoot ∨ ∃ n es, BTree (fun h node => (readNode tx h kt vt).2 = some node) n root es
  get : ∀ key, KeyOf kt key → (get fuel root key tx kt vt).2 = m key
  contains : ∀ key, KeyOf kt key → (contains fuel root key tx kt vt).2 = (m key).isSome
  sorted : SortedBy entryRank (entries fuel root tx kt vt).2
  mem_entries : ∀ key value, (key, value) ∈ (entries fuel root tx kt vt).2 ↔ m key = some value
  range : ∀ lo hi, KeyOf kt lo → KeyOf kt hi →
    (range fuel root lo hi tx kt vt).2 = valuesIn lo hi (entries fuel root tx kt vt).2
  firstGreater : ∀ target, (∀ t ∈ target, KeyOf kt t) → ∀ key value,
    (firstGreaterThan fuel root target tx kt vt).2 = some (key, value) ↔
      m key = some value ∧ Above target key ∧
        ∀ key' value', m key' = some value' → Above target key' → rank key ≤ rank key'

/-! ### What a root stands for -/

/-- The entries are the bindings of the map. -/
def Lists (es : List (Value × Value)) (m : RefMap) : Prop := ∀ k v, (k, v) ∈ es ↔ m k = some v

/-- The root is empty, or that of a tree over the log. -/
def Rooted (kt vt : Ty) (log : List Bytes) (n : ℕ) (root : U128) (es : List (Value × Value)) : Prop :=
  root = emptyRoot ∧ es = [] ∨ Tree kt vt log n root es

/-- The root is that of a tree over the log whose entries are the bindings of the map, with at most as
many levels as there have been calls. -/
def Stands (fuel : ℕ) (kt vt : Ty) (log : List Bytes) (root : U128) (r : RefMap × ℕ) : Prop :=
  r.2 ≤ fuel → ∃ es, Rooted kt vt log r.2 root es ∧ Lists es r.1

/-- The reference map with the number of calls. -/
def countStep (r : RefMap × ℕ) (op : Op) : RefMap × ℕ := (refStep r.1 op, r.2 + 1)

theorem foldl_countStep (ops : List Op) (r : RefMap × ℕ) :
    ops.foldl countStep r = (ops.foldl refStep r.1, r.2 + ops.length) := by
  induction ops generalizing r with
  | nil => rfl
  | cons op ops ih =>
    rw [List.foldl_cons, ih, List.foldl_cons, List.length_cons]
    exact Prod.ext rfl (Nat.add_right_comm r.2 1 ops.length)

/-- A tree over a log has its root at a cell that is not the empty one. -/
theorem Held.root_ne {hash : U128} {es : List (Value × Value)} (h : Held kt vt tx n hash es) : hash ≠ emptyRoot := by
  cases n with
  | zero => exact h.tree.elim
  | succ n =>
    rcases h.tree with ⟨hleaf, -, -⟩ | ⟨keys, kids, hinner, -, -, -, -⟩
    · rw [hleaf.key]
      exact (h.shown _ hleaf.mem).1
    · rw [hinner.key]
      exact (h.shown _ hinner.mem).1

section Lookup

variable {es : List (Value × Value)}

theorem Lists.find? (hl : Lists es m) (hes : ∀ e ∈ es, KeyOf kt e.1) {key : Value} (hkey : KeyOf kt key) :
    (es.find? fun e => entryRank e = rank key).map Prod.snd = m key := by
  cases hfind : es.find? fun e => entryRank e = rank key with
  | none =>
    cases hm : m key with
    | none => rfl
    | some v =>
      have hnot := List.find?_eq_none.mp hfind _ ((hl key v).mpr hm)
      exact absurd (decide_eq_true rfl) hnot
  | some e =>
    obtain ⟨k, v⟩ := e
    have hmem := List.mem_of_find?_eq_some hfind
    have hrank : entryRank (k, v) = rank key := by simpa using List.find?_some hfind
    have hk : k = key := (hes _ hmem).rank_injective hkey hrank
    rw [hk] at hmem
    exact ((hl key v).mp hmem).symm

theorem isAbove_iff {key : Value} (hkey : KeyOf kt key) {target : Option Value} (ht : ∀ t ∈ target, KeyOf kt t) :
    isAbove target key = true ↔ Above target key := by
  cases target with
  | none => simp [isAbove, Above]
  | some t => simp [isAbove, Above, hkey.isGT (ht t rfl)]

/-- In a sorted list the first entry above a bound is the least. -/
theorem firstAbove_eq_some_iff (hs : SortedBy entryRank es) (hes : ∀ e ∈ es, KeyOf kt e.1) (hl : Lists es m)
    {target : Option Value} (ht : ∀ t ∈ target, KeyOf kt t) (key value : Value) :
    firstAbove target es = some (key, value) ↔ m key = some value ∧ Above target key ∧
      ∀ key' value', m key' = some value' → Above target key' → rank key ≤ rank key' := by
  have habove : ∀ e ∈ es, isAbove target e.1 = true ↔ Above target e.1 := fun e he => isAbove_iff (hes e he) ht
  rw [firstAbove, List.find?_eq_some_iff_append]
  constructor
  · rintro ⟨hkey, as, bs, hes', hbefore⟩
    have hmem : (key, value) ∈ es := by
      rw [hes']
      exact List.mem_append_right _ List.mem_cons_self
    refine ⟨(hl key value).mp hmem, (habove _ hmem).mp hkey, fun key' value' hm hab => ?_⟩
    have hmem' := (hl key' value').mpr hm
    have hin := hmem'
    rw [hes'] at hin
    rcases List.mem_append.mp hin with hin | hin
    · exact absurd ((habove _ hmem').mpr hab) (by simpa using hbefore _ hin)
    · rcases List.mem_cons.mp hin with heq | hin
      · rw [(Prod.mk.inj heq).1]
      · rw [hes'] at hs
        exact ((List.pairwise_cons.mp (List.pairwise_append.mp hs).2.1).1 _ hin).le
  · rintro ⟨hm, hab, hleast⟩
    have hmem := (hl key value).mpr hm
    obtain ⟨as, bs, rfl⟩ := List.append_of_mem hmem
    refine ⟨(habove _ hmem).mpr hab, as, bs, rfl, fun e he => ?_⟩
    have hlt : entryRank e < rank key := (List.pairwise_append.mp hs).2.2 e he _ List.mem_cons_self
    have hin : e ∈ as ++ (key, value) :: bs := List.mem_append_left _ he
    have hnot : ¬ Above target e.1 := fun h => absurd (hleast e.1 e.2 ((hl e.1 e.2).mp hin) h) (not_le.mpr hlt)
    simpa using fun h => hnot ((habove e hin).mp h)

end Lookup

/-- A root that stands for a map answers as the map. -/
theorem Stands.answers (hkt : IsKeyTy kt) (h : Stands fuel kt vt tx.nodeLog root (m, n)) (hn : n ≤ fuel)
    (hs : LogShown nodeCellKey tx) : Answers fuel kt vt tx root m := by
  obtain ⟨es, hroot, hl⟩ := h hn
  dsimp only at hroot hl
  rcases hroot with ⟨rfl, rfl⟩ | htree
  · have hnone : ∀ k, m k = none := by
      intro k
      cases hm : m k with
      | none => rfl
      | some v => exact absurd ((hl k v).mpr hm) List.not_mem_nil
    have hentries : (entries fuel emptyRoot tx kt vt).2 = [] := rfl
    refine ⟨.inl rfl, fun key _ => (hnone key).symm, fun key _ => ?_, List.Pairwise.nil, fun k v => ?_,
      fun lo hi _ _ => rfl, fun target _ key value => ?_⟩
    · rw [hnone key]
      rfl
    · rw [hentries]
      exact hl k v
    · have hans : (firstGreaterThan fuel emptyRoot target tx kt vt).2 = none := rfl
      rw [hans, hnone key]
      simp
  · have hheld : Held kt vt tx n root es := ⟨hs, htree⟩
    have hne := hheld.root_ne
    have hkeys := hheld.keyOf hkt
    have hget : ∀ key, KeyOf kt key → (get fuel root key tx kt vt).2 = m key := by
      intro key hkey
      rw [get, if_neg hne, getAt_eq hkt hheld hn hkey]
      exact hl.find? hkeys hkey
    have hentries : (entries fuel root tx kt vt).2 = es := by
      rw [entries, if_neg hne]
      exact collectEntries_eq hheld hn []
    refine ⟨.inr ⟨n, es, htree.mono fun h node => readNode_logged hs⟩, hget, fun key hkey => ?_, ?_, ?_, ?_, ?_⟩
    · rw [← hget key hkey]
      rfl
    · rw [hentries]
      exact htree.sorted
    · rw [hentries]
      exact hl
    · intro lo hi hlo hhi
      rw [hentries, range, if_neg hne]
      exact rangeAt_eq hkt hheld hn hlo hhi []
    · intro target ht key value
      rw [firstGreaterThan, if_neg hne, firstGreaterAt_eq hkt hheld hn ht]
      exact firstAbove_eq_some_iff htree.sorted hkeys hl ht key value

/-- What a root stands for is sorted, over keys of the key type. -/
theorem Rooted.sorted (hkt : IsKeyTy kt) (hs : LogShown nodeCellKey tx) {es : List (Value × Value)}
    (h : Rooted kt vt tx.nodeLog n root es) : SortedBy entryRank es ∧ ∀ e ∈ es, KeyOf kt e.1 := by
  rcases h with ⟨-, rfl⟩ | htree
  · exact ⟨List.Pairwise.nil, List.forall_mem_nil _⟩
  · exact ⟨htree.sorted, Held.keyOf hkt ⟨hs, htree⟩⟩

/-- The first entry above a bound, below any root. -/
theorem firstGreaterThan_eq (hkt : IsKeyTy kt) (hs : LogShown nodeCellKey tx) {es : List (Value × Value)}
    (hroot : Rooted kt vt tx.nodeLog n root es) (hn : n ≤ fuel) {target : Option Value}
    (ht : ∀ t ∈ target, KeyOf kt t) : (firstGreaterThan fuel root target tx kt vt).2 = firstAbove target es := by
  rcases hroot with ⟨rfl, rfl⟩ | htree
  · rfl
  · have hheld : Held kt vt tx n root es := ⟨hs, htree⟩
    rw [firstGreaterThan, if_neg hheld.root_ne, firstGreaterAt_eq hkt hheld hn ht]

/-! ### One call -/

theorem Lists.insertBy {es : List (Value × Value)} (hl : Lists es m) (hes : ∀ e ∈ es, KeyOf kt e.1) {key : Value}
    (hkey : KeyOf kt key) (value : Value) :
    Lists (Lib.insertBy entryRank (key, value) es) (Function.update m key (some value)) := by
  intro k v
  rw [mem_insertBy, hl k v]
  by_cases hk : k = key
  · subst hk
    simp [entryRank, eq_comm]
  · rw [Function.update_of_ne hk]
    refine ⟨fun h => ?_, fun h => .inr ⟨h, fun heq => hk ?_⟩⟩
    · rcases h with h | h
      · exact absurd (Prod.mk.inj h).1 hk
      · exact h.1
    · exact (hes _ ((hl k v).mpr h)).rank_injective hkey heq

theorem Lists.eraseBy {es : List (Value × Value)} (hl : Lists es m) (hes : ∀ e ∈ es, KeyOf kt e.1) {key : Value}
    (hkey : KeyOf kt key) : Lists (Lib.eraseBy entryRank (rank key) es) (Function.update m key none) := by
  intro k v
  rw [mem_eraseBy, hl k v]
  by_cases hk : k = key
  · subst hk
    simp [entryRank]
  · rw [Function.update_of_ne hk]
    refine ⟨fun h => h.1, fun h => ⟨h, fun heq => hk ?_⟩⟩
    exact (hes _ ((hl k v).mpr h)).rank_injective hkey heq

theorem step_set (hkt : IsKeyTy kt) (hs : LogShown nodeCellKey tx) {es : List (Value × Value)}
    (hroot : Rooted kt vt tx.nodeLog n root es) (hl : Lists es m) (hn : n ≤ fuel) {key value : Value}
    (hkey : RoundTrips kt key) (hvalue : RoundTrips vt value) :
    ∃ es', Rooted kt vt (step fuel kt vt (tx, root) (.set key value)).1.nodeLog (n + 1)
      (step fuel kt vt (tx, root) (.set key value)).2 es' ∧ Lists es' (Function.update m key (some value)) := by
  have hkey' := keyOf_of_roundTrips hkt hkey
  rw [step, set]
  dsimp only
  rcases hroot with ⟨rfl, rfl⟩ | htree
  · refine ⟨[(key, value)], .inr ?_, hl.insertBy (List.forall_mem_nil _) hkey' value⟩
    rw [if_pos rfl]
    dsimp only
    rw [writeNode_snd, writeNode_nodeLog]
    refine tree_leaf (List.mem_append_right _ List.mem_cons_self) (List.cons_ne_nil _ _) (List.pairwise_singleton ..)
      ⟨Nat.succ_le_succ (Nat.zero_le _), fun e he => ?_⟩ n
    rw [List.mem_singleton.mp he]
    exact ⟨hkey, hvalue⟩
  · have hheld : Held kt vt tx n root es := ⟨hs, htree⟩
    obtain ⟨r, hr, hok⟩ := setInner_eq hkt hheld hn hkey hvalue
    refine ⟨_, .inr ?_, hl.insertBy (hheld.keyOf hkt) hkey' value⟩
    rw [if_neg hheld.root_ne]
    generalize setInner key value kt vt fuel root tx = b at hr hok
    obtain ⟨tx₁, res⟩ := b
    subst hr
    cases r with
    | plain hash => exact BTree.succ hok
    | split left sep right =>
      obtain ⟨l, r, hlr, hleft, hright, hbelow, habove, hround⟩ := hok
      dsimp only
      rw [writeNode_snd, writeNode_nodeLog, hlr]
      have hsub : tx₁.nodeLog ⊆ tx₁.nodeLog ++ [serializeInner [sep] [left, right]] := List.subset_append_left ..
      have hkids : ∀ kid ∈ [(left, l), (right, r)],
          Tree kt vt (tx₁.nodeLog ++ [serializeInner [sep] [left, right]]) n kid.1 kid.2 :=
        List.forall_mem_cons.mpr ⟨hleft.log hsub, List.forall_mem_singleton.mpr (hright.log hsub)⟩
      have hinner := tree_inner (List.mem_append_right _ List.mem_cons_self) hkids (separates_two hbelow habove)
        (List.cons_ne_nil _ _) (Nat.succ_le_succ (Nat.zero_le _)) (List.forall_mem_singleton.mpr hround)
      simpa using hinner

theorem step_remove (hkt : IsKeyTy kt) (hs : LogShown nodeCellKey tx) {es : List (Value × Value)}
    (hroot : Rooted kt vt tx.nodeLog n root es) (hl : Lists es m) (hn : n ≤ fuel) {key : Value}
    (hkey : KeyOf kt key) :
    ∃ es', Rooted kt vt (step fuel kt vt (tx, root) (.remove key)).1.nodeLog (n + 1)
      (step fuel kt vt (tx, root) (.remove key)).2 es' ∧ Lists es' (Function.update m key none) := by
  rw [step, remove]
  dsimp only
  rcases hroot with ⟨rfl, rfl⟩ | htree
  · exact ⟨[], .inl ⟨rfl, rfl⟩, hl.eraseBy (List.forall_mem_nil _) hkey⟩
  · have hheld : Held kt vt tx n root es := ⟨hs, htree⟩
    obtain ⟨r, hr, hok⟩ := removeInner_eq hkt hheld hn hkey
    have hsteps := removeInner_steps key kt vt fuel root tx
    refine ⟨_, ?_, hl.eraseBy (hheld.keyOf hkt) hkey⟩
    rw [if_neg hheld.root_ne]
    generalize removeInner key kt vt fuel root tx = b at hr hok hsteps
    obtain ⟨tx₁, res⟩ := b
    subst hr
    cases r with
    | unchanged =>
      dsimp only [RemoveOk] at hok ⊢
      rw [hok]
      exact .inr (htree.log hsteps.log_subset).succ
    | plain hash => exact .inr (BTree.succ hok)
    | gone => exact .inl ⟨rfl, hok⟩

/-- An insertion of what the store keeps finds its way. -/
theorem set_ok (hkt : IsKeyTy kt) (hs : LogShown nodeCellKey tx) {es : List (Value × Value)}
    (hroot : Rooted kt vt tx.nodeLog n root es) (hn : n ≤ fuel) {key value : Value} (hkey : RoundTrips kt key)
    (hvalue : RoundTrips vt value) : ∃ r, (set fuel root key value tx kt vt).2 = .ok r := by
  rw [set]
  rcases hroot with ⟨rfl, -⟩ | htree
  · exact ⟨_, rfl⟩
  · have hheld : Held kt vt tx n root es := ⟨hs, htree⟩
    obtain ⟨r, hr, -⟩ := setInner_eq hkt hheld hn hkey hvalue
    rw [if_neg hheld.root_ne]
    generalize setInner key value kt vt fuel root tx = b at hr
    obtain ⟨tx₁, res⟩ := b
    subst hr
    cases r <;> exact ⟨_, rfl⟩

theorem remove_ok (hkt : IsKeyTy kt) (hs : LogShown nodeCellKey tx) {es : List (Value × Value)}
    (hroot : Rooted kt vt tx.nodeLog n root es) (hn : n ≤ fuel) {key : Value} (hkey : KeyOf kt key) :
    ∃ r, (remove fuel root key tx kt vt).2 = .ok r := by
  rw [remove]
  rcases hroot with ⟨rfl, -⟩ | htree
  · exact ⟨_, rfl⟩
  · have hheld : Held kt vt tx n root es := ⟨hs, htree⟩
    obtain ⟨r, hr, -⟩ := removeInner_eq hkt hheld hn hkey
    rw [if_neg hheld.root_ne]
    generalize removeInner key kt vt fuel root tx = b at hr
    obtain ⟨tx₁, res⟩ := b
    subst hr
    cases r <;> exact ⟨_, rfl⟩

theorem step_steps (fuel : ℕ) (kt vt : Ty) (s : Tx × U128) (op : Op) :
    KeySteps nodeCellKey s.1 (step fuel kt vt s op).1 := by
  cases op with
  | set key value =>
    have hset := set_steps fuel s.2 key value s.1 kt vt
    rw [step]
    generalize set fuel s.2 key value s.1 kt vt = r at hset
    obtain ⟨tx', _ | _⟩ := r <;> exact hset
  | remove key =>
    have hremove := remove_steps fuel s.2 key s.1 kt vt
    rw [step]
    generalize remove fuel s.2 key s.1 kt vt = r at hremove
    obtain ⟨tx', _ | _⟩ := r <;> exact hremove

/-- The calls of a sorted map, one after the other. -/
theorem stepwise (fuel : ℕ) (hkt : IsKeyTy kt) : Stepwise nodeCellKey (step fuel kt vt) countStep
    (Stands fuel kt vt) (Storable kt vt) where
  steps := step_steps fuel kt vt
  mono := by
    intro log log' root r hsub h hn
    obtain ⟨es, hroot, hl⟩ := h hn
    exact ⟨es, hroot.imp_right fun htree => htree.log hsub, hl⟩
  stands := by
    intro s r op hop hs _ h hn
    have hle : r.2 ≤ fuel := (Nat.le_succ r.2).trans hn
    obtain ⟨es, hroot, hl⟩ := h hle
    cases op with
    | set key value => exact step_set hkt hs hroot hl hle hop.1 hop.2
    | remove key => exact step_remove hkt hs hroot hl hle hop

/-- **A run answers as the reference map, in the order of the keys.** In one transaction, starting from
the empty map over a supported key type, with keys and values that the store keeps at their types, every
root is the root of a search tree and answers as the map of its own moment, then and at each later
moment. The descent needs no larger bound than the number of calls. -/
theorem run_sorted (hkt : IsKeyTy kt) (tx₀ : Tx) (h₀ : tx₀.nodeLog = []) (ops : List Op) (hfuel : ops.length ≤ fuel)
    (hS : Apart nodeCellKey {e | e ∈ (run fuel kt vt tx₀ ops).1.nodeLog}) (hops : ∀ op ∈ ops, Storable kt vt op) :
    ∀ p q r, ops = p ++ q ++ r →
      Answers fuel kt vt (run fuel kt vt tx₀ (p ++ q)).1 (run fuel kt vt tx₀ p).2 (refRun p) := by
  intro p q r hpqr
  have hstart : Stands fuel kt vt [] emptyRoot (fun _ => none, 0) :=
    fun _ => ⟨[], .inl ⟨rfl, rfl⟩, fun k v => by simp⟩
  have hS' : Apart nodeCellKey {e | e ∈ ((p ++ q).foldl (step fuel kt vt) (tx₀, emptyRoot)).1.nodeLog} := by
    refine hS.mono fun e he => ?_
    rw [Set.mem_ofPred_eq, run, hpqr, List.foldl_append]
    exact ((stepwise fuel hkt).run_steps _ r).log_subset he
  obtain ⟨hshown, hstands⟩ := (stepwise fuel hkt).run_stands h₀ hstart (p ++ q)
    (fun op hop => hops op (by rw [hpqr]; exact List.mem_append_left _ hop)) hS'
  have hroot := hstands p q rfl
  rw [foldl_countStep, Nat.zero_add] at hroot
  refine hroot.answers hkt ?_ hshown
  rw [hpqr, List.append_assoc, List.length_append] at hfuel
  omega

instance (kt : Ty) (k : Value) : Decidable (KeyOf kt k) := by
  unfold KeyOf
  split <;> infer_instance

instance (kt vt : Ty) : (op : Op) → Decidable (Storable kt vt op)
  | .set key value => inferInstanceAs (Decidable (RoundTrips kt key ∧ RoundTrips vt value))
  | .remove key => inferInstanceAs (Decidable (KeyOf kt key))

/-- Two insertions and a removal: the root before the removal still answers behind it. -/
theorem run_sorted_three :
    Answers 3 .u64 .int (run 3 .u64 .int (Tx.new fun _ => none)
        ([.set (.u64 7) (.int 1), .set (.u64 3) (.int 2)] ++ [.remove (.u64 7)])).1
      (run 3 .u64 .int (Tx.new fun _ => none) [.set (.u64 7) (.int 1), .set (.u64 3) (.int 2)]).2
      (refRun [.set (.u64 7) (.int 1), .set (.u64 3) (.int 2)]) :=
  run_sorted (show IsKeyTy .u64 from trivial) (Tx.new fun _ => none) rfl
    [.set (.u64 7) (.int 1), .set (.u64 3) (.int 2), .remove (.u64 7)] (by decide)
    (apart_of_list (by decide +kernel)) (by decide +kernel) _ _ [] rfl

/-- A sorted map of sets: the leaf that holds one does not read back. -/
theorem unreadable_value :
    Apart nodeCellKey {e | e ∈ (run 1 .u64 (.set .int) (Tx.new fun _ => none)
      [.set (.u64 7) (.set [.int 1])]).1.nodeLog} ∧
    ∀ fuel, ¬ Answers fuel .u64 (.set .int)
      (run fuel .u64 (.set .int) (Tx.new fun _ => none) [.set (.u64 7) (.set [.int 1])]).1
      (run fuel .u64 (.set .int) (Tx.new fun _ => none) [.set (.u64 7) (.set [.int 1])]).2
      (refRun [.set (.u64 7) (.set [.int 1])]) := by
  refine ⟨apart_of_list (by decide +kernel), fun fuel h => ?_⟩
  have hrun : run fuel .u64 (.set .int) (Tx.new fun _ => none) [.set (.u64 7) (.set [.int 1])] =
      run 1 .u64 (.set .int) (Tx.new fun _ => none) [.set (.u64 7) (.set [.int 1])] := rfl
  have hget := h.get (.u64 7) trivial
  have hstored : refRun [Op.set (.u64 7) (.set [.int 1])] (.u64 7) = some (.set [.int 1]) := by
    simp [refRun, refStep]
  have hlost : (readNode (run 1 .u64 (.set .int) (Tx.new fun _ => none) [.set (.u64 7) (.set [.int 1])]).1
      (run 1 .u64 (.set .int) (Tx.new fun _ => none) [.set (.u64 7) (.set [.int 1])]).2 .u64 (.set .int)).2 = none := by
    decide +kernel
  rw [hrun, hstored] at hget
  have hnone : (get fuel (run 1 .u64 (.set .int) (Tx.new fun _ => none) [.set (.u64 7) (.set [.int 1])]).2 (.u64 7)
      (run 1 .u64 (.set .int) (Tx.new fun _ => none) [.set (.u64 7) (.set [.int 1])]).1 .u64 (.set .int)).2 = none := by
    rw [get]
    split_ifs
    · rfl
    · cases fuel with
      | zero => rfl
      | succ fuel =>
        rw [getAt]
        generalize readNode (run 1 .u64 (.set .int) (Tx.new fun _ => none) [.set (.u64 7) (.set [.int 1])]).1
          (run 1 .u64 (.set .int) (Tx.new fun _ => none) [.set (.u64 7) (.set [.int 1])]).2 .u64 (.set .int) = r at hlost
        obtain ⟨tx, node⟩ := r
        subst hlost
        rfl
  rw [hnone] at hget
  cases hget

end Rend.Pbtree
