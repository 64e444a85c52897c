import Rend.Pmap.Refine

/-!
# Runs of insertions and removals

A run applies a list of `set` and `remove` calls in one transaction, starting from the empty root; the
reference map applies them to a function. `Answers` says that a root answers as a reference map does.

`run_answers` shows that every root of a run answers as the reference map of its own moment, then and
at every later moment of the transaction, provided the keys are told apart and each `set` lands well: where it
splits a leaf, the keys of the leaf and the new one split (`HTree.Splits`). Without that the splitting rule puts a
node one level too high, and a key is lost (`split_loses_keys`). Keys that are not told apart are JSON objects with
the same members in another order, for which no reference map fits: two such keys are one key in one leaf and two
keys in two.
-/

namespace Rend.Pmap

open Lib Tx

/-- A call on the map. -/
inductive Op
  | set (key value : Value)
  | remove (key : Value)

/-- The key a call is about. -/
def Op.key : Op → Value
  | .set key _ => key
  | .remove key => key

/-- Applies a call to a root inside a transaction. -/
def step (kt vt : Ty) (s : Tx × U128) : Op → Tx × U128
  | .set key value => set s.2 key value s.1 kt vt
  | .remove key => ((remove s.2 key s.1 kt vt).1, (remove s.2 key s.1 kt vt).2.1)

def run (kt vt : Ty) (s : Tx × U128) (ops : List Op) : Tx × U128 := ops.foldl (step kt vt) s

/-- The reference map, and what a call does to it. -/
abbrev RefMap := Value → Option Value

def refStep (m : RefMap) : Op → RefMap
  | .set key value => Function.update m key (some value)
  | .remove key => Function.update m key none

def refRun (ops : List Op) : RefMap := ops.foldl refStep fun _ => none

/-- The root answers as the reference map: lookups of these keys, membership, and a listing that has each binding
once. -/
structure Answers (K : Set Value) (kt vt : Ty) (tx : Tx) (root : U128) (m : RefMap) : Prop where
  get : ∀ key ∈ K, (get root key tx kt vt).2 = m key
  contains : ∀ key ∈ K, (contains root key tx kt vt).2 = (m key).isSome
  nodup : (entries root tx kt vt).2.Nodup
  mem_entries : ∀ key value, (key, value) ∈ (entries root tx kt vt).2 ↔ m key = some value

/-! ### Where a new key lands -/

/-- The leaf a key is routed to, with its level; none where the route ends at a free slot. -/
def landing (h : U64) (kt vt : Ty) : ℕ → U128 → ℕ → Tx → Option (ℕ × List (Value × Value))
  | 0, _, _, _ => none
  | fuel + 1, nodeHash, level, tx =>
    match readNode tx nodeHash kt vt with
    | (_, none) => none
    | (_, some (.leaf entries)) => some (level, entries)
    | (tx, some (.inner bitmap children)) =>
      let slot := bitsAt h level
      if bitmap &&& bitAt slot = 0#32 then none
      else landing h kt vt fuel (children.getD (rank bitmap slot) 0) (level + 1) tx

/-- A leaf at a level takes a new key: it holds the key already, or it has room for one more entry
and its keys with the new one split, unless the level is the last. -/
def Takes (key : Value) (level : ℕ) (entries : List (Value × Value)) : Prop :=
  (∃ e ∈ entries, Ops.Same e.1 key) ∨ (entries.length + 1 < 2 ^ 32 ∧ (maxLevels ≤ level ∨
    HTree.Splits slotOf (maxLevels - level) level
      (entries.map (fun e => serialize e.1) ++ [serialize key])))

/-- A call that the map carries out well: its arguments are storable at the map's types, and a `set`
lands on a leaf that takes the key. -/
def LandsWell (kt vt : Ty) (s : Tx × U128) : Op → Prop
  | .set key value => RoundTrips kt key ∧ RoundTrips vt value ∧
      ∀ leaf ∈ landing (hashKey key) kt vt depth s.2 0 s.1, Takes key leaf.1 leaf.2
  | .remove key => RoundTrips kt key

/-- Each call of the run lands well, at the root and in the transaction it meets. -/
def AllLandWell (kt vt : Ty) : Tx × U128 → List Op → Prop
  | _, [] => True
  | s, op :: ops => LandsWell kt vt s op ∧ AllLandWell kt vt (step kt vt s op) ops

instance decidableSplits : (f L : ℕ) → (ks : List Bytes) → Decidable (HTree.Splits slotOf f L ks)
  | 0, _, _ => isTrue trivial
  | f + 1, L, ks =>
    have : ∀ s, Decidable (HTree.Splits slotOf f (L + 1) (ks.filter fun a => slotOf a L = s)) :=
      fun _ => decidableSplits f (L + 1) _
    inferInstanceAs (Decidable (ks.length ≤ 1 ∨
      (∀ a ∈ ks, ∀ b ∈ ks, ∀ l < L + (f + 1), L ≤ l → slotOf a l = slotOf b l) ∨
      ((¬ ∃ s, ∀ a ∈ ks, slotOf a L = s) ∧
        ∀ s, HTree.Splits slotOf f (L + 1) (ks.filter fun a => slotOf a L = s))))

instance (key : Value) (level : ℕ) (entries : List (Value × Value)) :
    Decidable (Takes key level entries) :=
  inferInstanceAs (Decidable (_ ∨ _))

instance (kt vt : Ty) (s : Tx × U128) : (op : Op) → Decidable (LandsWell kt vt s op)
  | .set key value =>
    have : Decidable (∀ leaf ∈ landing (hashKey key) kt vt depth s.2 0 s.1, Takes key leaf.1 leaf.2) :=
      match landing (hashKey key) kt vt depth s.2 0 s.1 with
      | none => isTrue (by simp)
      | some leaf => decidable_of_iff (Takes key leaf.1 leaf.2) (by simp)
    inferInstanceAs (Decidable (RoundTrips kt key ∧ RoundTrips vt value ∧ _))
  | .remove key => inferInstanceAs (Decidable (RoundTrips kt key))

instance decidableAllLandWell (kt vt : Ty) :
    (s : Tx × U128) → (ops : List Op) → Decidable (AllLandWell kt vt s ops)
  | _, [] => isTrue trivial
  | s, op :: ops =>
    have := decidableAllLandWell kt vt (step kt vt s op) ops
    inferInstanceAs (Decidable (LandsWell kt vt s op ∧ _))

variable {kt vt : Ty} {K : Set Value}

theorem Trie.Fits.codes {T : Trie} (h : T.Fits kt vt) {e : Bytes × Bytes} (he : e ∈ T.entries) :
    Codes kt e.1 ∧ Codes vt e.2 := by
  induction T with
  | empty => simp at he
  | leaf es => exact h.2.2 e he
  | inner kids ih =>
    obtain ⟨s, hs⟩ := HTree.mem_entries_inner.1 he
    exact ih s (h.2 s) hs

theorem Trie.shallow_of_wf {H L : ℕ} {T : Trie} (h : T.WF slotOf H L) : T.Shallow H L := by
  induction T generalizing L with
  | empty => exact trivial
  | leaf es => exact trivial
  | inner kids ih => exact ⟨h.1, fun s => ih s (h.2.2 s).1⟩

theorem Trie.fits_leaf_sort {es : List (Bytes × Bytes)} (hne : es ≠ []) (hlen : es.length < 2 ^ 32)
    (hc : ∀ e ∈ es, Codes kt e.1 ∧ Codes vt e.2) : Trie.Fits kt vt (.leaf (sortKeys es)) :=
  ⟨sortKeys_ne_nil.2 hne, by rwa [(sortKeys_perm es).length_eq], fun e he => hc e (mem_sortKeys.1 he)⟩

theorem Trie.fits_build {f L : ℕ} {es : List (Bytes × Bytes)} (hlen : es.length < 2 ^ 32)
    (hc : ∀ e ∈ es, Codes kt e.1 ∧ Codes vt e.2) : Trie.Fits kt vt (HTree.build slotOf f L es) := by
  induction f generalizing L es with
  | zero =>
    rw [HTree.build]
    split_ifs with hnil
    · exact trivial
    · exact fits_leaf_sort hnil hlen hc
  | succ f ih =>
    rw [HTree.build]
    split_ifs with hnil hone hslot
    · exact trivial
    · exact fits_leaf_sort hnil hlen hc
    · exact ih hlen hc
    · refine ⟨?_, fun s => ih (lt_of_le_of_lt (List.length_filter_le _ _) hlen)
        fun e he => hc e (List.mem_of_mem_filter he)⟩
      obtain ⟨e, he⟩ := List.exists_mem_of_ne_nil es hnil
      exact ⟨slotOf e.1 L, HTree.build_ne_empty (List.ne_nil_of_mem (a := e) (by simpa using he))⟩

/-- The new trie fits where the landing leaf has room. -/
theorem Trie.Fits.put_leaf {es : List (Bytes × Bytes)} {L : ℕ} {key value : Value}
    (h : Trie.Fits kt vt (.leaf es)) (hk : RoundTrips kt key) (hv : RoundTrips vt value)
    (hroom : (∃ e ∈ es, Ops.Same (decode kt e.1) key) ∨ es.length + 1 < 2 ^ 32) :
    Trie.Fits kt vt (Trie.put kt key value (.leaf es) L) := by
  obtain ⟨hne, hlen, hc⟩ := h
  rw [Trie.put]
  cases hpos : position kt key es with
  | some idx =>
    refine fits_leaf_sort (by simpa using hne) (by simpa using hlen) fun e he => ?_
    rcases List.mem_or_eq_of_mem_set he with he | rfl
    · exact hc e he
    · exact ⟨hk.codes, hv.codes⟩
  | none =>
    have hnone : ¬ ∃ e ∈ es, Ops.Same (decode kt e.1) key := by
      rintro ⟨e, he, hsame⟩
      have hno := List.findIdx?_eq_none_iff.1 hpos e he
      rw [hsame] at hno
      cases hno
    have hlen' : (es ++ [(serialize key, serialize value)]).length < 2 ^ 32 := by
      have := hroom.resolve_left hnone
      simpa using this
    have hc' : ∀ e ∈ es ++ [(serialize key, serialize value)], Codes kt e.1 ∧ Codes vt e.2 := by
      intro e he
      rcases List.mem_append.1 he with he | he
      · exact hc e he
      · rw [List.mem_singleton.1 he]
        exact ⟨hk.codes, hv.codes⟩
    dsimp only
    split_ifs
    · exact fits_leaf_sort (by simp) hlen' hc'
    · exact fits_build hlen' hc'

theorem Trie.Fits.update {kids : Fin 32 → Trie} (h : Trie.Fits kt vt (.inner kids)) (s : Fin 32)
    {c : Trie} (hne : c ≠ .empty) (hc : c.Fits kt vt) :
    Trie.Fits kt vt (.inner (Function.update kids s c)) := by
  refine ⟨⟨s, by rwa [Function.update_self]⟩, fun t => ?_⟩
  by_cases ht : t = s
  · subst ht
    rwa [Function.update_self]
  · rw [Function.update_of_ne ht]
    exact h.2 t

theorem lands_of_takes {key value : Value} (hK : Told K) (hkey : key ∈ K) (hk : RoundTrips kt key)
    (hv : RoundTrips vt value) {T : Trie} {tx : Tx} {fuel L : ℕ} (h : Trie.Held tx.shows T) (hf : T.Fits kt vt)
    (hT : T.KeysIn kt K) (hs : T.Shallow 13 L) (hfuel : 14 ≤ fuel + L) (hL : L ≤ 13)
    (htakes : ∀ leaf ∈ landing (hashKey key) kt vt fuel T.hash L tx, Takes key leaf.1 leaf.2) :
    T.Lands slotOf maxLevels L (serialize key) ∧ Trie.Fits kt vt (T.put kt key value L) := by
  induction T generalizing tx fuel L with
  | empty => exact ⟨trivial, by simp, by simp, by simpa using ⟨hk.codes, hv.codes⟩⟩
  | leaf es =>
    obtain ⟨fuel, rfl⟩ : ∃ n, fuel = n + 1 := ⟨fuel - 1, by omega⟩
    obtain ⟨tx', hread, -⟩ := readNode_leaf h hf
    have ht := htakes (L, es.map (decEntry kt vt)) (by rw [landing, hread]; rfl)
    have hkeys : (es.map (decEntry kt vt)).map (fun e => serialize e.1) = es.map Prod.fst := by
      rw [List.map_map]
      exact List.map_congr_left fun e he => (hf.2.2 e he).1.serialize_decode
    have hmem : (∃ e ∈ es.map (decEntry kt vt), Ops.Same e.1 key) ↔ ∃ e ∈ es, Ops.Same (decode kt e.1) key := by
      simp [decEntry]
    rw [Takes, hkeys, List.length_map, hmem] at ht
    constructor
    · rcases ht with ⟨e, he, hsame⟩ | ⟨-, ht⟩
      · refine .inl (List.mem_map.2 ⟨e, he, ?_⟩)
        exact ((hK.same_iff hkey (hf.2.2 e he).1 (hT e he)).1 hsame).2
      · exact .inr ht
    · exact hf.put_leaf hk hv (ht.imp_right And.left)
  | inner kids ih =>
    obtain ⟨fuel, rfl⟩ : ∃ n, fuel = n + 1 := ⟨fuel - 1, by omega⟩
    obtain ⟨tx₁, hread, hsteps⟩ := readNode_inner h kt vt
    have hL' := hs.1
    have hslot : bitsAt (hashKey key) L = slotOf (serialize key) L := rfl
    by_cases hkid : kids (slotOf (serialize key) L) = .empty
    · refine ⟨by rw [HTree.Lands, hkid]; exact trivial, ?_⟩
      rw [Trie.put, hkid]
      exact hf.update _ (Trie.put_ne_empty _ _ _ _ _) ⟨by simp, by simp, by simpa using ⟨hk.codes, hv.codes⟩⟩
    · obtain ⟨hlands, hfits⟩ := @ih (slotOf (serialize key) L) tx₁ fuel (L + 1) (hsteps.held (h.kid _))
        (hf.2 _) (hT.kid _) (hs.2 _) (by omega) (by omega) (fun leaf hl => htakes leaf (by
          rw [landing, hread]
          dsimp only
          rw [hslot, if_neg (mt Trie.and_bitAt_link.1 hkid), Trie.dense_getD_link hkid]
          exact hl))
      exact ⟨hlands, hf.update _ (Trie.put_ne_empty _ _ _ _ _) hfits⟩

theorem Trie.Fits.dropped {kids : Fin 32 → Trie} (h : Trie.Fits kt vt (.inner kids)) (s : Fin 32)
    {r : Trie × Bool} (hr : r.1.Fits kt vt) : Trie.Fits kt vt (Trie.dropped kids s r).1 := by
  rw [Trie.dropped]
  split_ifs
  · rw [HTree.node]
    split_ifs with hall
    · exact trivial
    · refine ⟨not_forall.1 hall, fun t => ?_⟩
      by_cases ht : t = s
      · subst ht
        rwa [Function.update_self]
      · rw [Function.update_of_ne ht]
        exact h.2 t
  · exact h

theorem Trie.Fits.drop {T : Trie} (h : T.Fits kt vt) (key : Value) (L : ℕ) :
    Trie.Fits kt vt (T.drop kt key L).1 := by
  induction T generalizing L with
  | empty => exact trivial
  | leaf es =>
    rw [Trie.drop]
    cases position kt key es with
    | some idx =>
      dsimp only
      split_ifs with hnil
      · exact trivial
      · refine fits_leaf_sort hnil (lt_of_le_of_lt (List.length_eraseIdx_le _ _) h.2.1) fun e he => ?_
        exact h.2.2 e (List.mem_of_mem_eraseIdx he)
    | none => exact h
  | inner kids ih => exact h.dropped _ (ih _ (h.2 _) (L + 1))

/-! ### A trie that stands for a reference map -/

/-- The root is that of a well-levelled trie with these keys that answers as the map does, with all its nodes
logged. -/
structure Stands (K : Set Value) (kt vt : Ty) (tx : Tx) (root : U128) (m : RefMap) (T : Trie) : Prop where
  root_eq : root = T.hash
  wf : T.WF slotOf 13 0
  fits : T.Fits kt vt
  keys : T.KeysIn kt K
  logged : ∀ e ∈ T.encs, e ∈ tx.nodeLog
  answer : ∀ key, T.answer kt vt 0 key = m key

theorem serialize_eq_iff {ty : Ty} {a b : Value} (ha : deserialize ty (serialize a) = some a)
    (hb : deserialize ty (serialize b) = some b) : serialize a = serialize b ↔ a = b := by
  constructor
  · intro h
    rw [h, hb] at ha
    exact (Option.some.inj ha).symm
  · rintro rfl
    rfl

theorem Stands.held {tx : Tx} {root : U128} {m : RefMap} {T : Trie} (h : Stands K kt vt tx root m T)
    (hshow : ∀ e ∈ tx.nodeLog, nodeCellKey e ≠ emptyRoot ∧ tx.shows (nodeCellKey e) = some e) :
    Trie.Held tx.shows T :=
  fun e he => hshow e (h.logged e he)

theorem Stands.mono {tx tx' : Tx} {root : U128} {m : RefMap} {T : Trie}
    (h : Stands K kt vt tx root m T) (hlog : tx.nodeLog ⊆ tx'.nodeLog) : Stands K kt vt tx' root m T :=
  { h with logged := fun e he => hlog (h.logged e he) }

/-- A root that stands for a map answers as the map does. -/
theorem Stands.answers (hK : Told K) {tx : Tx} {root : U128} {m : RefMap} {T : Trie}
    (h : Stands K kt vt tx root m T) (hheld : Trie.Held tx.shows T) : Answers K kt vt tx root m := by
  obtain ⟨rfl, hwf, hfits, hkeys, -, hanswer⟩ := h
  have hsh := Trie.shallow_of_wf hwf
  have hget : ∀ key ∈ K, (get T.hash key tx kt vt).2 = m key := by
    intro key hkey
    obtain ⟨tx', hg, -⟩ := get_eq key hheld hfits hsh
    rw [hg, Trie.find_eq hK hkey hfits hkeys]
    exact hanswer key
  obtain ⟨tx', hent, -⟩ := entries_eq hheld hfits hsh
  have hcodes : ∀ e ∈ T.entries, Codes kt e.1 ∧ Codes vt e.2 := fun e he => hfits.codes he
  refine ⟨hget, fun key hkey => ?_, ?_, ?_⟩
  · rw [contains, ← hget key hkey]
  · rw [hent]
    refine List.Nodup.map_on ?_ hwf.nodup.of_map
    intro a ha b hb hab
    rw [← encEntry_decEntry (hcodes a ha).1 (hcodes a ha).2, hab,
      encEntry_decEntry (hcodes b hb).1 (hcodes b hb).2]
  · intro key value
    rw [hent, ← hanswer key, List.mem_map]
    constructor
    · rintro ⟨⟨kb, vb⟩, he, hdec⟩
      obtain ⟨hck, hcv⟩ := hcodes _ he
      rw [decEntry, Prod.mk.injEq] at hdec
      obtain ⟨rfl, rfl⟩ := hdec
      have hkey : deserialize kt (serialize (decode kt kb)) = some (decode kt kb) := by
        rw [hck.serialize_decode]
        exact hck.deserialize
      rw [Trie.answer, if_pos hkey, hck.serialize_decode, hwf.lookup_eq_some_iff.2 he]
      rfl
    · intro ha
      rw [Trie.answer] at ha
      split_ifs at ha with hkey
      obtain ⟨vb, hvb, rfl⟩ := Option.map_eq_some_iff.1 ha
      refine ⟨(serialize key, vb), hwf.lookup_eq_some_iff.1 hvb, ?_⟩
      rw [decEntry, decode, hkey]
      rfl

/-- A `set` that lands well stands for the updated map. -/
theorem Stands.set (hK : Told K) {tx : Tx} {root : U128} {m : RefMap} {T : Trie}
    (h : Stands K kt vt tx root m T) (hheld : Trie.Held tx.shows T) {key value : Value} (hkey : key ∈ K)
    (hl : LandsWell kt vt (tx, root) (.set key value)) :
    ∃ T', Stands K kt vt (set root key value tx kt vt).1 (set root key value tx kt vt).2
        (Function.update m key (some value)) T' ∧ Steps tx (set root key value tx kt vt).1 := by
  obtain ⟨rfl, hwf, hfits, hkeys, hlogged, hanswer⟩ := h
  obtain ⟨hk, hv, htakes⟩ := hl
  have hsh := Trie.shallow_of_wf hwf
  obtain ⟨hlands, hfits'⟩ := lands_of_takes hK hkey hk hv hheld hfits hkeys hsh (by simp [depth]) (by omega) htakes
  obtain ⟨tx', hset, hsteps, hlog⟩ := set_eq key value hheld hfits hsh
  rw [Trie.put_eq hK hkey hk.1 hwf hfits hkeys] at hset hlog hfits'
  rw [hset]
  refine ⟨_, ⟨rfl, hwf.insert (by simp [maxLevels]) hlands, hfits', hkeys.insert hwf hkey hk.1 _, ?_, ?_⟩,
    hsteps.steps⟩
  · intro e he
    rcases hlog e he with he | he
    · exact hsteps.steps.log_subset (hlogged e he)
    · exact he
  · intro k
    rw [Trie.answer, hwf.lookup_insert (by simp [maxLevels]) hlands]
    by_cases hkk : k = key
    · subst hkk
      rw [if_pos hk.1, if_pos rfl, Function.update_self, Option.map_some, hv.decode]
    · rw [Function.update_of_ne hkk, ← hanswer k, Trie.answer]
      split_ifs with hrt hser
      · exact absurd ((serialize_eq_iff hrt hk.1).1 hser) hkk
      · rfl
      · rfl

/-- A `remove` stands for the updated map, and reports whether the key was there. -/
theorem Stands.remove (hK : Told K) {tx : Tx} {root : U128} {m : RefMap} {T : Trie}
    (h : Stands K kt vt tx root m T) (hheld : Trie.Held tx.shows T) {key : Value} (hkey : key ∈ K) (hk : RoundTrips kt key)
    (hz : ∀ e ∈ (remove root key tx kt vt).1.nodeLog, nodeCellKey e ≠ emptyRoot) :
    (∃ T', Stands K kt vt (remove root key tx kt vt).1 (remove root key tx kt vt).2.1
        (Function.update m key none) T' ∧ Steps tx (remove root key tx kt vt).1) ∧
      (remove root key tx kt vt).2.2 = (m key).isSome := by
  obtain ⟨rfl, hwf, hfits, hkeys, hlogged, hanswer⟩ := h
  have hfits' := hfits.drop key 0
  obtain ⟨tx', hrem, hsteps, hlog⟩ := remove_eq key hheld hfits (Trie.shallow_of_wf hwf) hz
  rw [Trie.drop_eq hK hkey hk.1 hwf hfits hkeys] at hrem hlog hfits'
  rw [hrem]
  refine ⟨⟨_, ⟨rfl, hwf.erase _, hfits', hkeys.erase hwf _, ?_, ?_⟩, hsteps.steps⟩, ?_⟩
  · intro e he
    rcases hlog e he with he | he
    · exact hsteps.steps.log_subset (hlogged e he)
    · exact he
  · intro k
    rw [Trie.answer, hwf.lookup_erase]
    by_cases hkk : k = key
    · subst hkk
      rw [if_pos hk.1, if_pos rfl, Function.update_self, Option.map_none]
    · rw [Function.update_of_ne hkk, ← hanswer k, Trie.answer]
      split_ifs with hrt hser
      · exact absurd ((serialize_eq_iff hrt hk.1).1 hser) hkk
      · rfl
      · rfl
  · have hfound := HTree.erase_found_iff hwf (k := serialize key)
    have hnone := hwf.lookup_eq_none_iff (k := serialize key)
    rw [← hanswer key, Trie.answer, if_pos hk.1, Option.isSome_map, Bool.eq_iff_iff, hfound,
      Option.isSome_iff_ne_none, Ne, hnone, not_not]

/-! ### Whole runs -/

theorem run_concat (s : Tx × U128) (ops : List Op) (op : Op) :
    run kt vt s (ops ++ [op]) = step kt vt (run kt vt s ops) op := by
  simp [run]

theorem AllLandWell.at {s : Tx × U128} {ops p q : List Op} {op : Op} (h : AllLandWell kt vt s ops)
    (hops : ops = p ++ op :: q) : LandsWell kt vt (run kt vt s p) op := by
  subst hops
  induction p generalizing s with
  | nil => exact h.1
  | cons o p ih => exact ih h.2

theorem refRun_concat (ops : List Op) (op : Op) : refRun (ops ++ [op]) = refStep (refRun ops) op := by
  simp [refRun]

/-- What holds after a run that lands well: each of its roots stands for the map of its moment, and
what has been logged is shown. -/
structure RunInv (K : Set Value) (kt vt : Ty) (tx₀ : Tx) (ops : List Op) : Prop where
  shows : ∀ e ∈ (run kt vt (tx₀, emptyRoot) ops).1.nodeLog, nodeCellKey e ≠ emptyRoot ∧
    (run kt vt (tx₀, emptyRoot) ops).1.shows (nodeCellKey e) = some e
  stands : ∀ p q, ops = p ++ q → ∃ T,
    Stands K kt vt (run kt vt (tx₀, emptyRoot) ops).1 (run kt vt (tx₀, emptyRoot) p).2 (refRun p) T
  found : ∀ p key q, ops = p ++ .remove key :: q →
    (remove (run kt vt (tx₀, emptyRoot) p).2 key (run kt vt (tx₀, emptyRoot) p).1 kt vt).2.2 =
      (refRun p key).isSome

theorem stands_empty (tx : Tx) : Stands K kt vt tx emptyRoot (fun _ => none) .empty :=
  ⟨rfl, trivial, trivial, by simp [Trie.KeysIn], by simp [Trie.encs],
    fun key => by simp [Trie.answer, HTree.lookup]⟩

/-- One more call keeps the invariant. -/
theorem RunInv.step (hK : Told K) {tx₀ : Tx} {ops : List Op} (h : RunInv K kt vt tx₀ ops) {op : Op}
    (hkey : op.key ∈ K) (hl : LandsWell kt vt (run kt vt (tx₀, emptyRoot) ops) op)
    (hS : NodeSet {e | e ∈ (run kt vt (tx₀, emptyRoot) (ops ++ [op])).1.nodeLog}) :
    RunInv K kt vt tx₀ (ops ++ [op]) := by
  obtain ⟨T, hT⟩ := h.stands ops [] (by simp)
  have hheld := hT.held h.shows
  -- the call moves the transaction by node steps and its root stands for the updated map
  have hcall : (∃ T', Stands K kt vt (run kt vt (tx₀, emptyRoot) (ops ++ [op])).1
      (run kt vt (tx₀, emptyRoot) (ops ++ [op])).2 (refRun (ops ++ [op])) T' ∧
      Steps (run kt vt (tx₀, emptyRoot) ops).1 (run kt vt (tx₀, emptyRoot) (ops ++ [op])).1) ∧
      ∀ key, op = .remove key → (remove (run kt vt (tx₀, emptyRoot) ops).2 key
        (run kt vt (tx₀, emptyRoot) ops).1 kt vt).2.2 = (refRun ops key).isSome := by
    rw [run_concat, refRun_concat] at *
    cases op with
    | set key value => exact ⟨hT.set hK hheld hkey hl, by simp⟩
    | remove key =>
      obtain ⟨hstands, hfound⟩ := hT.remove hK hheld hkey hl hS.ne_empty
      exact ⟨hstands, fun k hk => by cases hk; exact hfound⟩
  obtain ⟨⟨T', hT', hsteps⟩, hfound⟩ := hcall
  refine ⟨fun e he => ⟨hS.ne_empty e he, ?_⟩, ?_, ?_⟩
  · exact hsteps.log_shows hS (fun e he => he) (fun e he => (h.shows e he).2) he
  · intro p q hpq
    rcases List.eq_nil_or_concat' q with rfl | ⟨q', op', rfl⟩
    · rw [List.append_nil] at hpq
      subst hpq
      exact ⟨T', hT'⟩
    · have hops : ops = p ++ q' := by
        rw [← List.append_assoc] at hpq
        exact (List.append_inj' hpq rfl).1
      obtain ⟨T₀, hT₀⟩ := h.stands p q' hops
      exact ⟨T₀, hT₀.mono hsteps.log_subset⟩
  · intro p key q hpq
    rcases List.eq_nil_or_concat' q with rfl | ⟨q', op', rfl⟩
    · obtain ⟨rfl, hop⟩ := List.append_inj' hpq rfl
      exact hfound key (by simpa using hop)
    · have hops : ops = p ++ .remove key :: q' := by
        rw [show p ++ Op.remove key :: (q' ++ [op']) = (p ++ .remove key :: q') ++ [op'] by simp] at hpq
        exact (List.append_inj' hpq rfl).1
      exact h.found p key q' hops

/-! ### The operations read and write nodes -/

theorem readNode_reads (tx : Tx) (hash : U128) (kt vt : Ty) : Reads tx (readNode tx hash kt vt).1 := by
  rw [readNode]
  split_ifs
  · exact .refl
  · exact .single (.read tx hash)

theorem readNode_steps (tx : Tx) (hash : U128) (kt vt : Ty) : Steps tx (readNode tx hash kt vt).1 :=
  (readNode_reads tx hash kt vt).steps

theorem step_writeNode (tx : Tx) (bs : Bytes) : Steps tx (writeNode tx bs).1 := .single (.write tx bs)

theorem buildChildren_nodeLog {build : List (Value × Value) → Tx → Tx × U128}
    (hb : ∀ es tx, tx.nodeLog ⊆ (build es tx).1.nodeLog) (groups : List (Fin 32 × List (Value × Value)))
    (acc : Tx × BitVec 32 × List U128) :
    acc.1.nodeLog ⊆ (buildChildren build groups acc).1.nodeLog := by
  induction groups generalizing acc with
  | nil => exact fun _ h => h
  | cons g groups ih =>
    obtain ⟨s, es⟩ := g
    obtain ⟨tx, bm, ch⟩ := acc
    exact fun e he => ih _ (hb es tx he)

theorem buildChildren_steps {build : List (Value × Value) → Tx → Tx × U128}
    (hb : ∀ es tx, Steps tx (build es tx).1) (groups : List (Fin 32 × List (Value × Value)))
    (acc : Tx × BitVec 32 × List U128) : Steps acc.1 (buildChildren build groups acc).1 := by
  induction groups generalizing acc with
  | nil => exact .refl
  | cons g groups ih =>
    obtain ⟨s, es⟩ := g
    obtain ⟨tx, bm, ch⟩ := acc
    exact (hb es tx).trans (ih ((build es tx).1, bm ||| bitAt s, ch ++ [(build es tx).2]))

theorem buildFromEntries_steps (fuel : ℕ) (es : List (Value × Value)) (level : ℕ) (tx : Tx) :
    Steps tx (buildFromEntries fuel es level tx).1 := by
  induction fuel generalizing es level tx with
  | zero => exact .refl
  | succ fuel ih =>
    rw [buildFromEntries]
    split_ifs
    · exact .refl
    · exact step_writeNode tx _
    · split
      · exact ih _ _ tx
      · exact (buildChildren_steps (fun es tx => ih es (level + 1) tx) _ (tx, _, _)).trans
          (step_writeNode _ _)

theorem setAt_steps (key value : Value) (h : U64) (kt vt : Ty) (fuel : ℕ) (nodeHash : U128)
    (level : ℕ) (tx : Tx) : Steps tx (setAt key value h kt vt fuel nodeHash level tx).1 := by
  induction fuel generalizing nodeHash level tx with
  | zero => exact .refl
  | succ fuel ih =>
    have hread := readNode_steps tx nodeHash kt vt
    rw [setAt]
    by_cases hroot : nodeHash = emptyRoot
    · rw [if_pos hroot]
      exact step_writeNode tx _
    · rw [if_neg hroot]
      generalize readNode tx nodeHash kt vt = r at hread
      obtain ⟨tx₁, node⟩ := r
      dsimp only at hread
      refine hread.trans ?_
      rcases node with _ | ⟨bm, ch⟩ | es
      · exact step_writeNode tx₁ _
      · dsimp only
        split
        · exact (step_writeNode tx₁ _).trans (step_writeNode _ _)
        · exact (ih _ _ tx₁).trans (step_writeNode _ _)
      · dsimp only
        split
        · exact step_writeNode tx₁ _
        · split
          · exact step_writeNode tx₁ _
          · split
            · exact step_writeNode tx₁ _
            · exact buildFromEntries_steps _ _ _ _

theorem removeChild_steps (nodeHash : U128) (bitmap : BitVec 32) (children : List U128) (slot : Fin 32)
    (r : Tx × U128 × Bool) : Steps r.1 (removeChild nodeHash bitmap children slot r).1 := by
  rw [removeChild]
  split_ifs
  · exact .refl
  · exact .refl
  · exact step_writeNode r.1 _
  · exact step_writeNode r.1 _

theorem removeAt_steps (key : Value) (h : U64) (kt vt : Ty) (fuel : ℕ) (nodeHash : U128)
    (level : ℕ) (tx : Tx) : Steps tx (removeAt key h kt vt fuel nodeHash level tx).1 := by
  induction fuel generalizing nodeHash level tx with
  | zero => exact .refl
  | succ fuel ih =>
    have hread := readNode_steps tx nodeHash kt vt
    rw [removeAt]
    generalize readNode tx nodeHash kt vt = r at hread
    obtain ⟨tx₁, node⟩ := r
    dsimp only at hread
    refine hread.trans ?_
    rcases node with _ | ⟨bm, ch⟩ | es
    · exact .refl
    · dsimp only
      split
      · exact .refl
      · exact (ih _ _ tx₁).trans (removeChild_steps nodeHash bm ch (bitsAt h level) _)
    · dsimp only
      split
      · split_ifs
        · exact .refl
        · exact step_writeNode tx₁ _
      · exact .refl

theorem set_steps (root : U128) (key value : Value) (tx : Tx) (kt vt : Ty) :
    Steps tx (set root key value tx kt vt).1 :=
  setAt_steps key value (hashKey key) kt vt depth root 0 tx

theorem remove_steps (root : U128) (key : Value) (tx : Tx) (kt vt : Ty) :
    Steps tx (remove root key tx kt vt).1 := by
  rw [remove]
  split_ifs
  · exact .refl
  · exact removeAt_steps key (hashKey key) kt vt depth root 0 tx

/-! ### The log only grows -/

theorem buildFromEntries_nodeLog (fuel : ℕ) (es : List (Value × Value)) (level : ℕ) (tx : Tx) :
    tx.nodeLog ⊆ (buildFromEntries fuel es level tx).1.nodeLog :=
  (buildFromEntries_steps fuel es level tx).log_subset

theorem setAt_nodeLog (key value : Value) (h : U64) (kt vt : Ty) (fuel : ℕ) (nodeHash : U128)
    (level : ℕ) (tx : Tx) :
    tx.nodeLog ⊆ (setAt key value h kt vt fuel nodeHash level tx).1.nodeLog :=
  (setAt_steps key value h kt vt fuel nodeHash level tx).log_subset

theorem remove_nodeLog (root : U128) (key : Value) (tx : Tx) :
    tx.nodeLog ⊆ (remove root key tx kt vt).1.nodeLog :=
  (remove_steps root key tx kt vt).log_subset

theorem step_nodeLog (s : Tx × U128) (op : Op) : s.1.nodeLog ⊆ (step kt vt s op).1.nodeLog := by
  cases op with
  | set key value => exact setAt_nodeLog _ _ _ _ _ _ _ _ _
  | remove key => exact remove_nodeLog s.2 key s.1

/-- The log of a prefix is part of the whole log. -/
theorem run_nodeLog {s : Tx × U128} (p r : List Op) :
    (run kt vt s p).1.nodeLog ⊆ (run kt vt s (p ++ r)).1.nodeLog := by
  induction r using List.reverseRecOn with
  | nil => simp
  | append_singleton r op ih =>
    rw [← List.append_assoc, run_concat]
    exact fun e he => step_nodeLog _ op (ih he)

/-- Every run that lands well keeps the invariant. -/
theorem runInv (hK : Told K) {tx₀ : Tx} (h₀ : tx₀.nodeLog = []) (ops : List Op) (hkeys : ∀ op ∈ ops, op.key ∈ K)
    (hl : ∀ p op q, ops = p ++ op :: q → LandsWell kt vt (run kt vt (tx₀, emptyRoot) p) op)
    (hS : NodeSet {e | e ∈ (run kt vt (tx₀, emptyRoot) ops).1.nodeLog}) : RunInv K kt vt tx₀ ops := by
  induction ops using List.reverseRecOn with
  | nil =>
    refine ⟨?_, ?_, ?_⟩
    · simp [run, h₀]
    · intro p q hpq
      obtain ⟨rfl, rfl⟩ := List.append_eq_nil_iff.1 hpq.symm
      exact ⟨.empty, stands_empty tx₀⟩
    · intro p key q hpq
      simp at hpq
  | append_singleton ops op ih =>
    refine RunInv.step hK (ih (fun o ho => hkeys o (List.mem_append_left _ ho)) ?_ ?_)
      (hkeys op (by simp)) (hl ops op [] rfl) hS
    · intro p op' q hpq
      exact hl p op' (q ++ [op]) (by simp [hpq])
    · refine hS.mono fun e he => ?_
      simp only [Set.mem_ofPred_eq, run_concat] at he ⊢
      exact step_nodeLog _ op he

/-- **A run answers as the reference map.** In one transaction, starting from the empty root and
landing well at each call, every root answers as the reference map of its own moment, then and at
each later moment, and `remove` reports exactly whether the map held the key. The keys of the calls and those
asked for are told apart. -/
theorem run_answers (kt vt : Ty) (K : Set Value) (hK : Told K) (tx₀ : Tx) (h₀ : tx₀.nodeLog = []) (ops : List Op)
    (hkeys : ∀ op ∈ ops, op.key ∈ K)
    (hS : NodeSet {e | e ∈ (run kt vt (tx₀, emptyRoot) ops).1.nodeLog})
    (hl : AllLandWell kt vt (tx₀, emptyRoot) ops) :
    (∀ p q r, ops = p ++ q ++ r → Answers K kt vt (run kt vt (tx₀, emptyRoot) (p ++ q)).1
      (run kt vt (tx₀, emptyRoot) p).2 (refRun p)) ∧
    ∀ p key q, ops = p ++ .remove key :: q →
      (remove (run kt vt (tx₀, emptyRoot) p).2 key (run kt vt (tx₀, emptyRoot) p).1 kt vt).2.2 =
        (refRun p key).isSome := by
  have hpre : ∀ p r, ops = p ++ r → RunInv K kt vt tx₀ p := by
    intro p r hpr
    refine runInv hK h₀ p (fun op hop => hkeys op (by simp [hpr, hop]))
      (fun p' op q hp => hl.at (q := q ++ r) (by simp [hpr, hp])) (hS.mono ?_)
    rw [hpr]
    exact fun e he => run_nodeLog p r he
  refine ⟨fun p q r hpqr => ?_, (hpre ops [] (by simp)).found⟩
  have hinv := hpre (p ++ q) r hpqr
  obtain ⟨T, hT⟩ := hinv.stands p q rfl
  exact hT.answers hK (hT.held hinv.shows)

/-- Finitely many encodings whose hashes are told apart by evaluation. -/
theorem nodeSet_of_list {l : List Bytes}
    (h : (∀ e ∈ l, ∀ e' ∈ l, nodeCellKey e = nodeCellKey e' → e = e') ∧
      ∀ e ∈ l, nodeCellKey e ≠ emptyRoot) : NodeSet {e | e ∈ l} :=
  ⟨h.1, h.2⟩

/-- A run that splits a leaf and empties a slot, landing well throughout. -/
theorem run_answers_three :
    (∀ p q r, [Op.set (.int 0) (.int 10), .set (.int 1) (.int 11), .remove (.int 0)] = p ++ q ++ r →
      Answers {k | Ops.atomic k = true} .int .int (run .int .int (Tx.new fun _ => none, emptyRoot) (p ++ q)).1
        (run .int .int (Tx.new fun _ => none, emptyRoot) p).2 (refRun p)) ∧
    ∀ p key q, [Op.set (.int 0) (.int 10), .set (.int 1) (.int 11), .remove (.int 0)] =
        p ++ .remove key :: q →
      (remove (run .int .int (Tx.new fun _ => none, emptyRoot) p).2 key
        (run .int .int (Tx.new fun _ => none, emptyRoot) p).1 .int .int).2.2 = (refRun p key).isSome :=
  run_answers .int .int _ told_atomic (Tx.new fun _ => none) rfl _ (by decide) (nodeSet_of_list (by decide +kernel))
    (by decide +kernel)

/-- **A split can lose keys.** The keys `0` and `32` share their first slot and differ in the second:
after both are put, the root answers for neither. -/
theorem split_loses_keys :
    NodeSet {e | e ∈ (run .int .int (Tx.new fun _ => none, emptyRoot)
      [.set (.int 0) (.int 10), .set (.int 32) (.int 20)]).1.nodeLog} ∧
    (∀ v ∈ [Value.int 0, .int 10, .int 32, .int 20], RoundTrips .int v) ∧
    ¬ Answers {k | Ops.atomic k = true} .int .int
      (run .int .int (Tx.new fun _ => none, emptyRoot)
        [.set (.int 0) (.int 10), .set (.int 32) (.int 20)]).1
      (run .int .int (Tx.new fun _ => none, emptyRoot)
        [.set (.int 0) (.int 10), .set (.int 32) (.int 20)]).2
      (refRun [.set (.int 0) (.int 10), .set (.int 32) (.int 20)]) := by
  refine ⟨nodeSet_of_list (by decide +kernel), by decide +kernel, fun h => ?_⟩
  have hlost : (get (run .int .int (Tx.new fun _ => none, emptyRoot)
      [.set (.int 0) (.int 10), .set (.int 32) (.int 20)]).2 (.int 0)
      (run .int .int (Tx.new fun _ => none, emptyRoot)
        [.set (.int 0) (.int 10), .set (.int 32) (.int 20)]).1 .int .int).2 = none := by decide +kernel
  have href : refRun [.set (.int 0) (.int 10), .set (.int 32) (.int 20)] (.int 0) = some (.int 10) := by
    decide +kernel
  rw [h.get _ rfl, href] at hlost
  cases hlost

end Rend.Pmap
