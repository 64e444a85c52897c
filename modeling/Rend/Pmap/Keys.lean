import Rend.Pmap.Trie

/-!
# Keys of a persistent map

The operations look for a key in a leaf by the runtime's equality of values (`Ops.same`). JSON objects with the same
members in another order are equal, though their encodings and their hashes differ. `Trie.find`, `Trie.put` and
`Trie.drop` are what the operations make of a trie, with its leaves searched in this way.

Keys are told apart (`Told`) when they are equal only if they are the same value. Among such keys the three are the
lookup, the insertion and the erasure of the trie by encoded keys (`Trie.find_eq`, `Trie.put_eq`, `Trie.drop_eq`).
-/

namespace Rend.Pmap

open Lib

/-! ### Values that read back -/

/-- A value that the store keeps at this type: its encoding reads back. -/
def RoundTrips (ty : Ty) (v : Value) : Prop :=
  deserialize ty (serialize v) = some v ∧ (serialize v).length < 2 ^ 32

instance (ty : Ty) (v : Value) : Decidable (RoundTrips ty v) := inferInstanceAs (Decidable (_ ∧ _))

theorem RoundTrips.codes {ty : Ty} {v : Value} (h : RoundTrips ty v) : Codes ty (serialize v) :=
  ⟨h.2, v, h.1, rfl⟩

/-- A value that reads back is equal to itself for the code. -/
theorem RoundTrips.same_refl {ty : Ty} {v : Value} (h : RoundTrips ty v) : Ops.Same v v :=
  Ops.same_refl (Ops.keyed_of_deserialize ty h.1)

theorem RoundTrips.decode {ty : Ty} {v : Value} (h : RoundTrips ty v) :
    decode ty (serialize v) = v := by
  rw [Pmap.decode, h.1]
  rfl

theorem decode_eq_iff {kt : Ty} {kb : Bytes} (h : Codes kt kb) {key : Value} :
    decode kt kb = key ↔ deserialize kt (serialize key) = some key ∧ kb = serialize key := by
  constructor
  · rintro rfl
    rw [h.serialize_decode]
    exact ⟨h.deserialize, rfl⟩
  · rintro ⟨hkey, rfl⟩
    rw [decode, hkey]
    rfl

/-- A decoded value has each key of an object once. -/
theorem keyed_decode (ty : Ty) (bs : Bytes) : Ops.Keyed (decode ty bs) := by
  rw [decode]
  cases h : deserialize ty bs with
  | none => exact .atom rfl
  | some v => exact Ops.keyed_of_deserialize ty h

/-! ### Entries of a leaf -/

variable {kt vt : Ty}

theorem map_encEntry_decEntry {es : List (Bytes × Bytes)}
    (h : ∀ e ∈ es, Codes kt e.1 ∧ Codes vt e.2) : (es.map (decEntry kt vt)).map encEntry = es := by
  rw [List.map_map]
  exact (List.map_congr_left fun e he => encEntry_decEntry (h e he).1 (h e he).2).trans (List.map_id es)

theorem map_encEntry_set {es : List (Bytes × Bytes)} (h : ∀ e ∈ es, Codes kt e.1 ∧ Codes vt e.2) (idx : ℕ)
    (key value : Value) : ((es.map (decEntry kt vt)).set idx (key, value)).map encEntry =
      es.set idx (serialize key, serialize value) := by
  rw [List.map_set, map_encEntry_decEntry h]
  rfl

theorem map_encEntry_eraseIdx {es : List (Bytes × Bytes)} (h : ∀ e ∈ es, Codes kt e.1 ∧ Codes vt e.2) (idx : ℕ) :
    ((es.map (decEntry kt vt)).eraseIdx idx).map encEntry = es.eraseIdx idx := by
  rw [← List.eraseIdx_map, map_encEntry_decEntry h]

/-- The position of the first entry whose key is equal to this one. -/
def position (kt : Ty) (key : Value) (es : List (Bytes × Bytes)) : Option ℕ :=
  es.findIdx? fun e => Ops.same (decode kt e.1) key

theorem findIdx?_map_decEntry (kt vt : Ty) (key : Value) (es : List (Bytes × Bytes)) :
    (es.map (decEntry kt vt)).findIdx? (fun e => Ops.same e.1 key) = position kt key es := by
  rw [List.findIdx?_map]
  rfl

/-! ### What the operations make of a trie -/

/-- What a lookup of `key` finds in the trie standing at level `L`. -/
def Trie.find (kt vt : Ty) (key : Value) : Trie → ℕ → Option Value
  | .empty, _ => none
  | .leaf es, _ => findEntry (es.map (decEntry kt vt)) key
  | .inner kids, L => Trie.find kt vt key (kids (slotOf (serialize key) L)) (L + 1)

/-- What putting `value` at `key` makes of the trie standing at level `L`. -/
noncomputable def Trie.put (kt : Ty) (key value : Value) : Trie → ℕ → Trie
  | .empty, _ => .leaf [(serialize key, serialize value)]
  | .leaf es, L =>
    match position kt key es with
    | some idx => .leaf (sortKeys (es.set idx (serialize key, serialize value)))
    | none =>
      if maxLevels ≤ L then .leaf (sortKeys (es ++ [(serialize key, serialize value)]))
      else HTree.build slotOf (maxLevels - L) L (es ++ [(serialize key, serialize value)])
  | .inner kids, L => .inner (Function.update kids (slotOf (serialize key) L)
      (Trie.put kt key value (kids (slotOf (serialize key) L)) (L + 1)))

/-- An inner node after one of its children has given up a key, unless that key was not there. -/
noncomputable def Trie.dropped (kids : Fin 32 → Trie) (s : Fin 32) (r : Trie × Bool) : Trie × Bool :=
  if r.2 then (HTree.node (Function.update kids s r.1), true) else (.inner kids, false)

/-- What taking `key` out makes of the trie standing at level `L`; the flag says whether it was there. -/
noncomputable def Trie.drop (kt : Ty) (key : Value) : Trie → ℕ → Trie × Bool
  | .empty, _ => (.empty, false)
  | .leaf es, _ =>
    match position kt key es with
    | some idx => (if es.eraseIdx idx = [] then .empty else .leaf (sortKeys (es.eraseIdx idx)), true)
    | none => (.leaf es, false)
  | .inner kids, L => Trie.dropped kids (slotOf (serialize key) L)
      (Trie.drop kt key (kids (slotOf (serialize key) L)) (L + 1))

theorem Trie.put_ne_empty (kt : Ty) (key value : Value) (T : Trie) (L : ℕ) : T.put kt key value L ≠ .empty := by
  cases T with
  | empty => simp [put]
  | leaf es =>
    rw [put]
    split
    · simp
    · split_ifs
      · simp
      · exact HTree.build_ne_empty (by simp)
  | inner kids => simp [put]

/-! ### Keys told apart -/

/-- Values that are equal only when they are the same. -/
def Told (K : Set Value) : Prop := ∀ k ∈ K, ∀ k' ∈ K, Ops.Same k k' → k = k'

/-- Values that are not made of others are told apart. -/
theorem told_atomic : Told {k | Ops.atomic k = true} := fun _ hk _ _ h => (Ops.same_atom hk).mp h

/-- The keys of the trie are among these. -/
def Trie.KeysIn (kt : Ty) (K : Set Value) (T : Trie) : Prop := ∀ e ∈ T.entries, decode kt e.1 ∈ K

/-- What a lookup of `key` answers on the trie standing at level `L`, by its encoding. -/
noncomputable def Trie.answer (kt vt : Ty) (T : Trie) (L : ℕ) (key : Value) : Option Value :=
  if deserialize kt (serialize key) = some key then
    (T.lookup slotOf L (serialize key)).map (decode vt)
  else none

variable {K : Set Value} {key : Value}

theorem Trie.KeysIn.kid {kids : Fin 32 → Trie} (h : Trie.KeysIn kt K (.inner kids)) (s : Fin 32) :
    Trie.KeysIn kt K (kids s) := fun e he => h e (HTree.mem_entries_inner.2 ⟨s, he⟩)

theorem Trie.KeysIn.insert {T : Trie} {H L : ℕ} (h : T.KeysIn kt K) (hwf : T.WF slotOf H L) (hkey : key ∈ K)
    (hread : deserialize kt (serialize key) = some key) (vb : Bytes) :
    Trie.KeysIn kt K (T.insert slotOf maxLevels L (serialize key) vb) := by
  intro e he
  rcases (HTree.mem_entries_insert hwf).1 he with rfl | ⟨-, he⟩
  · rwa [decode, hread]
  · exact h e he

theorem Trie.KeysIn.erase {T : Trie} {H L : ℕ} (h : T.KeysIn kt K) (hwf : T.WF slotOf H L) (kb : Bytes) :
    Trie.KeysIn kt K (T.erase slotOf L kb).1 :=
  fun e he => h e ((HTree.mem_entries_erase hwf).1 he).2

/-- Among keys told apart, the code finds a key by its encoding. -/
theorem Told.same_iff (hK : Told K) (hkey : key ∈ K) {kb : Bytes} (hkb : Codes kt kb) (hin : decode kt kb ∈ K) :
    Ops.same (decode kt kb) key = true ↔ deserialize kt (serialize key) = some key ∧ kb = serialize key := by
  rw [← decode_eq_iff hkb]
  refine ⟨hK _ hin _ hkey, ?_⟩
  rintro rfl
  exact Ops.same_refl (keyed_decode kt kb)

theorem findEntry_eq (hK : Told K) (hkey : key ∈ K) {es : List (Bytes × Bytes)}
    (h : ∀ e ∈ es, Codes kt e.1 ∧ Codes vt e.2) (hin : ∀ e ∈ es, decode kt e.1 ∈ K) :
    findEntry (es.map (decEntry kt vt)) key =
      if deserialize kt (serialize key) = some key then (assoc es (serialize key)).map (decode vt)
      else none := by
  induction es with
  | nil => simp [findEntry, assoc]
  | cons e es ih =>
    obtain ⟨kb, vb⟩ := e
    have hiff := hK.same_iff hkey (h (kb, vb) (by simp)).1 (hin (kb, vb) (by simp))
    have htail := ih (fun e he => h e (List.mem_cons_of_mem _ he)) fun e he => hin e (List.mem_cons_of_mem _ he)
    simp only [findEntry, assoc, List.map_cons, List.find?_cons, decEntry] at htail hiff ⊢
    by_cases hd : Ops.same (decode kt kb) key = true
    · obtain ⟨hread, hkb⟩ := hiff.1 hd
      subst hkb
      simp [hd, hread]
    · rw [Bool.not_eq_true] at hd
      simp only [hd, htail]
      split_ifs with hread
      · have hkb : ¬ kb = serialize key := fun hkb => by simp [hiff.2 ⟨hread, hkb⟩] at hd
        simp [hkb]
      · rfl

/-- Among keys told apart, **a lookup** is that of the encoded key. -/
theorem Trie.find_eq (hK : Told K) (hkey : key ∈ K) {T : Trie} (hf : T.Fits kt vt) (hT : T.KeysIn kt K) (L : ℕ) :
    T.find kt vt key L = T.answer kt vt L key := by
  induction T generalizing L with
  | empty => simp [find, answer, HTree.lookup]
  | leaf es => exact findEntry_eq hK hkey hf.2.2 hT
  | inner kids ih => exact ih _ (hf.2 _) (hT.kid _) (L + 1)

/-- Where the code finds a key by its encoding, and what replacing or dropping the entry there does. -/
theorem position_eq {es : List (Bytes × Bytes)} {kb : Bytes}
    (h : ∀ e ∈ es, Ops.same (decode kt e.1) key = true ↔ e.1 = kb) (hnd : (es.map Prod.fst).Nodup) :
    if kb ∈ es.map Prod.fst then
      ∃ idx, position kt key es = some idx ∧ (∀ vb, es.set idx (kb, vb) = replaceKey es kb vb) ∧
        es.eraseIdx idx = eraseKey es kb
    else position kt key es = none := by
  induction es with
  | nil => simp [position]
  | cons e es ih =>
    rw [List.map_cons, List.nodup_cons] at hnd
    have htail := ih (fun e he => h e (List.mem_cons_of_mem _ he)) hnd.2
    have hhead := h e List.mem_cons_self
    by_cases hkb : e.1 = kb
    · -- found at the head: no later entry has the key
      have hrest : ∀ e' ∈ es, ¬ e'.1 = kb := fun e' he' hek =>
        hnd.1 (List.mem_map.2 ⟨e', he', hek.trans hkb.symm⟩)
      rw [if_pos (by simp [hkb])]
      refine ⟨0, ?_, fun vb => ?_, ?_⟩
      · simp [position, List.findIdx?_cons, hhead.2 hkb]
      · rw [List.set_cons_zero, replaceKey, List.map_cons, if_pos hkb]
        congr 1
        exact ((List.map_congr_left fun e' he' => if_neg (hrest e' he')).trans (List.map_id es)).symm
      · rw [List.eraseIdx_cons_zero, eraseKey, List.filter_cons_of_neg (by simp [hkb]),
          List.filter_eq_self.2 fun e' he' => by simpa using hrest e' he']
    · have hd : Ops.same (decode kt e.1) key = false := by simpa using mt hhead.1 hkb
      have hpos : position kt key (e :: es) = (position kt key es).map (· + 1) := by
        simp [position, List.findIdx?_cons, hd]
      by_cases hmem : kb ∈ es.map Prod.fst
      · rw [if_pos hmem] at htail
        obtain ⟨idx, hidx, hset, herase⟩ := htail
        rw [if_pos (by rw [List.map_cons]; exact List.mem_cons_of_mem _ hmem)]
        refine ⟨idx + 1, by rw [hpos, hidx]; rfl, fun vb => ?_, ?_⟩
        · rw [List.set_cons_succ, hset, replaceKey, replaceKey, List.map_cons, if_neg hkb]
        · rw [List.eraseIdx_cons_succ, herase, eraseKey, eraseKey, List.filter_cons_of_pos (by simp [hkb])]
      · rw [if_neg hmem] at htail
        rw [if_neg (by rw [List.map_cons, List.mem_cons, not_or]; exact ⟨Ne.symm hkb, hmem⟩), hpos, htail]
        rfl

theorem Told.position_eq (hK : Told K) (hkey : key ∈ K) (hread : deserialize kt (serialize key) = some key)
    {es : List (Bytes × Bytes)} (h : ∀ e ∈ es, Codes kt e.1 ∧ Codes vt e.2) (hin : ∀ e ∈ es, decode kt e.1 ∈ K)
    (hnd : (es.map Prod.fst).Nodup) :
    if serialize key ∈ es.map Prod.fst then
      ∃ idx, position kt key es = some idx ∧
        (∀ vb, es.set idx (serialize key, vb) = replaceKey es (serialize key) vb) ∧
        es.eraseIdx idx = eraseKey es (serialize key)
    else position kt key es = none := by
  refine Pmap.position_eq (fun e he => ?_) hnd
  rw [hK.same_iff hkey (h e he).1 (hin e he)]
  exact and_iff_right hread

/-- Among keys told apart, **putting** is inserting the encoded key. -/
theorem Trie.put_eq (hK : Told K) (hkey : key ∈ K) (hread : deserialize kt (serialize key) = some key) {T : Trie}
    {H L : ℕ} (hwf : T.WF slotOf H L) (hf : T.Fits kt vt) (hT : T.KeysIn kt K) (value : Value) :
    T.put kt key value L = T.insert slotOf maxLevels L (serialize key) (serialize value) := by
  induction T generalizing L with
  | empty => rfl
  | leaf es =>
    have hpos := hK.position_eq hkey hread hf.2.2 hT hwf.2.nodup
    rw [put, HTree.insert]
    by_cases hmem : serialize key ∈ es.map Prod.fst
    · rw [if_pos hmem] at hpos ⊢
      obtain ⟨idx, hidx, hset, -⟩ := hpos
      rw [hidx]
      dsimp only
      rw [hset]
    · rw [if_neg hmem] at hpos ⊢
      rw [hpos]
  | inner kids ih => rw [put, HTree.insert, ih _ (hwf.2.2 _).1 (hf.2 _) (hT.kid _)]

/-- Among keys told apart, **taking out** is erasing the encoded key. -/
theorem Trie.drop_eq (hK : Told K) (hkey : key ∈ K) (hread : deserialize kt (serialize key) = some key) {T : Trie}
    {H L : ℕ} (hwf : T.WF slotOf H L) (hf : T.Fits kt vt) (hT : T.KeysIn kt K) :
    T.drop kt key L = T.erase slotOf L (serialize key) := by
  induction T generalizing L with
  | empty => rfl
  | leaf es =>
    have hpos := hK.position_eq hkey hread hf.2.2 hT hwf.2.nodup
    rw [drop, HTree.erase]
    split_ifs at hpos ⊢ with hmem hnil
    · obtain ⟨idx, hidx, -, herase⟩ := hpos
      rw [hidx]
      dsimp only
      rw [herase, if_pos hnil]
    · obtain ⟨idx, hidx, -, herase⟩ := hpos
      rw [hidx]
      dsimp only
      have hsorted : SortedKeys (eraseKey es (serialize key)) := hwf.2.filter _
      rw [herase, if_neg hnil, hsorted.sortKeys_eq]
    · rw [hpos]
  | inner kids ih => rw [drop, HTree.erase, ih _ (hwf.2.2 _).1 (hf.2 _) (hT.kid _), dropped]

end Rend.Pmap
