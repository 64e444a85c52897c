import Rend.Pmap.Store
import Rend.Lib.HamtMerge

/-!
# The three-way merge of stored maps

`mergeThreeWay` walks two roots together against the root they both come from. It reads nodes straight
from the store and collects the nodes it makes, without writing them.

`mergeAt_eq` shows that on held tries it computes `HTree.merge`, with leaves fused as the code does it (`fuseLeaves`).
Where the keys of leaves are sorted this is a merge entry by entry, the values compared by the runtime's equality
(`fuseLeaves_eq`), so that on stored roots the code merges the tries they stand for (`mergeThreeWay_eq`).
-/

namespace Rend.Pmap

open Lib Tx

def readNodeKv (kv : Kv) (hash : U128) (kt vt : Ty) : Option Node :=
  if hash = emptyRoot then none else (nodeAt kv hash).bind (deserializeNode kt vt)

/-- Output of a successful merge (`MergeResult`). -/
structure MergeResult where
  root : U128
  newCells : NewCells

/-! ### Leaves -/

/-- The value at an encoded key of the map filled from these entries in order (`to_map`). -/
def mapGet (entries : List (Value × Value)) (kb : Bytes) : Option Value :=
  (entries.reverse.find? fun e => serialize e.1 = kb).map Prod.snd

/-- Equality of a value or its absence with another. -/
def sameValue : Option Value → Option Value → Bool
  | some v, some w => Ops.same v w
  | none, none => true
  | _, _ => false

/-- The merge of one value, absence counting as a value. -/
def mergeValue (va vb vbase : Option Value) : Option (Option Value) :=
  if sameValue va vb then some va
  else if sameValue va vbase then some vb
  else if sameValue vb vbase then some va
  else none

/-- The key with this encoding, from any side. -/
def recoverKey (entries : List (Value × Value)) (kb : Bytes) : Option Value :=
  (entries.find? fun e => serialize e.1 = kb).map Prod.fst

/-- The entries merged key by key. -/
def mergeLeafKeys (ea eb ebase : List (Value × Value)) : List Bytes → Option (List (Value × Value))
  | [] => some []
  | kb :: rest => do
    let merged ← mergeValue (mapGet ea kb) (mapGet eb kb) (mapGet ebase kb)
    let tail ← mergeLeafKeys ea eb ebase rest
    match merged with
    | none => some tail
    | some v =>
      let key ← recoverKey (ea ++ eb ++ ebase) kb
      some ((key, v) :: tail)

/-- Every key of the three leaves in order (`all_keys`). -/
def allKeys (ea eb ebase : List (Value × Value)) : List Bytes :=
  unionKeys ((ea ++ eb ++ ebase).map fun e => serialize e.1)

/-! ### Inner nodes -/

/-- The child of an inner node at a slot. -/
def childAt (bitmap : BitVec 32) (children : List U128) (slot : Fin 32) : U128 :=
  if bitmap &&& bitAt slot = 0#32 then emptyRoot else children.getD (rank bitmap slot) 0

/-- Merges slot after slot, collecting the bitmap and the children of the merged node. -/
def mergeSlots (merge : U128 → U128 → U128 → NewCells → Option (U128 × NewCells))
    (ba : BitVec 32) (ca : List U128) (bb : BitVec 32) (cb : List U128) (bbase : BitVec 32)
    (cbase : List U128) :
    List (Fin 32) → BitVec 32 → List U128 → NewCells → Option (BitVec 32 × List U128 × NewCells)
  | [], bitmap, children, out => some (bitmap, children, out)
  | slot :: slots, bitmap, children, out =>
    if (ba ||| bb ||| bbase) &&& bitAt slot = 0#32 then
      mergeSlots merge ba ca bb cb bbase cbase slots bitmap children out
    else
      (merge (childAt ba ca slot) (childAt bb cb slot) (childAt bbase cbase slot) out).bind fun r =>
        if r.1 = emptyRoot then mergeSlots merge ba ca bb cb bbase cbase slots bitmap children r.2
        else mergeSlots merge ba ca bb cb bbase cbase slots (bitmap ||| bitAt slot)
          (children ++ [r.1]) r.2

/-- Stores a merged leaf, unless it is empty. -/
def mergedLeaf (merged : List (Value × Value)) (out : NewCells) : U128 × NewCells :=
  if merged = [] then (emptyRoot, out)
  else
    let bs := serializeLeaf (sortEntries merged)
    (nodeCellKey bs, out ++ [(nodeCellKey bs, bs)])

/-- Stores a merged inner node, unless it has no child. -/
def mergedInner (bitmap : BitVec 32) (children : List U128) (out : NewCells) : U128 × NewCells :=
  if bitmap = 0#32 then (emptyRoot, out)
  else
    let bs := serializeInner bitmap children
    (nodeCellKey bs, out ++ [(nodeCellKey bs, bs)])

/-- The entries of a base node; one that is no leaf counts as an empty leaf. -/
def leafOrEmpty : Option Node → List (Value × Value)
  | some (.leaf entries) => entries
  | _ => []

/-- The bitmap and children of a base node; one that is no inner node counts as one without
children. -/
def innerOrEmpty : Option Node → BitVec 32 × List U128
  | some (.inner bitmap children) => (bitmap, children)
  | _ => (0#32, [])

/-- Merges two nodes over a base node. -/
def mergeNodes (merge : U128 → U128 → U128 → NewCells → Option (U128 × NewCells))
    (nbase : Option Node) (out : NewCells) : Node → Node → Option (U128 × NewCells)
  | .leaf ea, .leaf eb =>
    let ebase := leafOrEmpty nbase
    (mergeLeafKeys ea eb ebase (allKeys ea eb ebase)).map fun merged => mergedLeaf merged out
  | .inner ba ca, .inner bb cb =>
    let (bbase, cbase) := innerOrEmpty nbase
    (mergeSlots merge ba ca bb cb bbase cbase (List.finRange 32) 0#32 [] out).map
      fun (bitmap, children, out) => mergedInner bitmap children out
  | _, _ => none

def mergeAt (kv : Kv) (kt vt : Ty) :
    ℕ → U128 → U128 → U128 → NewCells → Option (U128 × NewCells)
  | 0, _, _, _, _ => none
  | fuel + 1, a, b, base, out =>
    if a = b then some (a, out)
    else if a = base then some (b, out)
    else if b = base then some (a, out)
    else
      (readNodeKv kv a kt vt).bind fun na => (readNodeKv kv b kt vt).bind fun nb =>
        mergeNodes (mergeAt kv kt vt fuel) (readNodeKv kv base kt vt) out na nb

/-- Three-way merge of two roots against their common ancestor. The recursion is bounded by the
number of nodes on a path. -/
def mergeThreeWay (newA liveB ancestor : U128) (kv : Kv) (kt vt : Ty) : Option MergeResult :=
  (mergeAt kv kt vt depth newA liveB ancestor []).map fun r => ⟨r.1, r.2⟩

/-! ### Merged leaves are merged entries -/

variable {kt vt : Ty}

/-- Encodings of values that the runtime takes for equal. -/
def sameBytes (vt : Ty) (x y : Bytes) : Prop := Ops.Same (decode vt x) (decode vt y)

theorem sameBytes_equivalence (vt : Ty) : Equivalence (sameBytes vt) :=
  ⟨fun x => Ops.same_refl (keyed_decode vt x), fun h => Ops.same_symm (keyed_decode vt _) (keyed_decode vt _) h,
    fun h h' => Ops.same_trans (keyed_decode vt _) h h'⟩

theorem sameValue_iff {v w : Option Value} : sameValue v w = true ↔ Alike Ops.Same v w := by
  constructor
  · intro h
    cases v with
    | none =>
      cases w with
      | none => exact .none
      | some w => cases h
    | some v =>
      cases w with
      | none => cases h
      | some w => exact .some h
  · rintro (h | -)
    · exact h
    · rfl

theorem alike_map_decode {x y : Option Bytes} :
    Alike Ops.Same (x.map (decode vt)) (y.map (decode vt)) ↔ Alike (sameBytes vt) x y := by
  cases x with
  | none => cases y <;> simp
  | some x =>
    cases y with
    | none => simp
    | some y => simp [sameBytes]

theorem mergeValue_map_decode (x y z : Option Bytes) :
    mergeValue (x.map (decode vt)) (y.map (decode vt)) (z.map (decode vt)) =
      (merge3 (sameBytes vt) x y z).map (Option.map (decode vt)) := by
  have hsame : ∀ p q : Option Bytes, sameValue (p.map (decode vt)) (q.map (decode vt)) = true ↔
      Alike (sameBytes vt) p q := fun p q => sameValue_iff.trans alike_map_decode
  rw [mergeValue, merge3]
  by_cases hxy : Alike (sameBytes vt) x y
  · rw [if_pos ((hsame x y).2 hxy), if_pos hxy]
    rfl
  rw [if_neg (mt (hsame x y).1 hxy), if_neg hxy]
  by_cases hxz : Alike (sameBytes vt) x z
  · rw [if_pos ((hsame x z).2 hxz), if_pos hxz]
    rfl
  rw [if_neg (mt (hsame x z).1 hxz), if_neg hxz]
  by_cases hyz : Alike (sameBytes vt) y z
  · rw [if_pos ((hsame y z).2 hyz), if_pos hyz]
    rfl
  · rw [if_neg (mt (hsame y z).1 hyz), if_neg hyz]
    rfl

theorem mapGet_map_decEntry {es : List (Bytes × Bytes)} (h : ∀ e ∈ es, Codes kt e.1 ∧ Codes vt e.2)
    (hnd : (es.map Prod.fst).Nodup) (kb : Bytes) :
    mapGet (es.map (decEntry kt vt)) kb = (assoc es kb).map (decode vt) := by
  have hmem : ∀ v, (mapGet (es.map (decEntry kt vt)) kb = some v → ∃ vb, (kb, vb) ∈ es ∧ decode vt vb = v) := by
    intro v hv
    obtain ⟨e, he, rfl⟩ := Option.map_eq_some_iff.1 hv
    have hke := List.find?_some he
    obtain ⟨⟨k, vb⟩, hes, rfl⟩ := List.mem_map.1 (List.mem_reverse.1 (List.mem_of_find?_eq_some he))
    rw [decide_eq_true_eq, decEntry, (h _ hes).1.serialize_decode] at hke
    subst hke
    exact ⟨vb, hes, rfl⟩
  cases hget : mapGet (es.map (decEntry kt vt)) kb with
  | some v =>
    obtain ⟨vb, hvb, rfl⟩ := hmem v hget
    rw [(assoc_eq_some_iff hnd).2 hvb]
    rfl
  | none =>
    have hno : kb ∉ es.map Prod.fst := by
      intro hkb
      obtain ⟨e, he, rfl⟩ := List.mem_map.1 hkb
      rw [mapGet, Option.map_eq_none_iff, List.find?_eq_none] at hget
      have := hget (decEntry kt vt e) (List.mem_reverse.2 (List.mem_map_of_mem he))
      simp [decEntry, (h e he).1] at this
    rw [assoc_eq_none_iff.2 hno]
    rfl

theorem recoverKey_map_decEntry {es : List (Bytes × Bytes)} (h : ∀ e ∈ es, Codes kt e.1)
    {kb : Bytes} (hk : kb ∈ es.map Prod.fst) :
    recoverKey (es.map (decEntry kt vt)) kb = some (decode kt kb) := by
  obtain ⟨e₀, he₀, rfl⟩ := List.mem_map.1 hk
  cases hf : (es.map (decEntry kt vt)).find? fun e => serialize e.1 = e₀.1 with
  | none =>
    have := List.find?_eq_none.1 hf _ (List.mem_map_of_mem he₀)
    simp [decEntry, h e₀ he₀] at this
  | some e =>
    have hke := List.find?_some hf
    obtain ⟨e', he', rfl⟩ := List.mem_map.1 (List.mem_of_find?_eq_some hf)
    rw [decide_eq_true_eq, decEntry, (h e' he').serialize_decode] at hke
    rw [recoverKey, hf, Option.map_some, decEntry, hke]

/-- What the code makes of the entries of two leaves over a third: their merge, in the order of the keys. -/
def fuseLeaves (kt vt : Ty) (ea eb ec : List (Bytes × Bytes)) : Option (List (Bytes × Bytes)) :=
  let (ea, eb, ec) := (ea.map (decEntry kt vt), eb.map (decEntry kt vt), ec.map (decEntry kt vt))
  (mergeLeafKeys ea eb ec (allKeys ea eb ec)).map fun es => sortKeys (es.map encEntry)

theorem mem_of_mapGet {es : List (Value × Value)} {kb : Bytes} {v : Value} (h : mapGet es kb = some v) :
    ∃ e ∈ es, e.2 = v := by
  obtain ⟨e, he, rfl⟩ := Option.map_eq_some_iff.1 h
  exact ⟨e, List.mem_reverse.1 (List.mem_of_find?_eq_some he), rfl⟩

/-- A merged entry has a key of the three leaves, and a value of the two sides. -/
theorem mem_mergeLeafKeys {ea eb ec es : List (Value × Value)} {ks : List Bytes}
    (h : mergeLeafKeys ea eb ec ks = some es) {e : Value × Value} (he : e ∈ es) :
    (∃ k ∈ ea ++ eb ++ ec, k.1 = e.1) ∧ ∃ v ∈ ea ++ eb, v.2 = e.2 := by
  induction ks generalizing es with
  | nil =>
    cases h
    cases he
  | cons kb ks ih =>
    simp only [mergeLeafKeys, Option.bind_eq_bind, Option.bind_eq_some_iff] at h
    obtain ⟨merged, hmerged, tail, htail, h⟩ := h
    cases merged with
    | none =>
      cases h
      exact ih htail he
    | some v =>
      simp only [Option.bind_eq_some_iff] at h
      obtain ⟨key, hkey, h⟩ := h
      cases h
      rcases List.mem_cons.1 he with rfl | he
      · obtain ⟨k, hk, rfl⟩ := Option.map_eq_some_iff.1 hkey
        refine ⟨⟨k, List.mem_of_find?_eq_some hk, rfl⟩, ?_⟩
        rw [mergeValue] at hmerged
        have hside : mapGet ea kb = some v ∨ mapGet eb kb = some v := by
          split_ifs at hmerged <;> simp_all
        rcases hside with hv | hv
        · obtain ⟨e, he, hev⟩ := mem_of_mapGet hv
          exact ⟨e, List.mem_append_left _ he, hev⟩
        · obtain ⟨e, he, hev⟩ := mem_of_mapGet hv
          exact ⟨e, List.mem_append_right _ he, hev⟩
      · exact ih htail he

section Leaves

variable {ea eb ec : List (Bytes × Bytes)} (hca : ∀ e ∈ ea, Codes kt e.1 ∧ Codes vt e.2)
  (hcb : ∀ e ∈ eb, Codes kt e.1 ∧ Codes vt e.2) (hcc : ∀ e ∈ ec, Codes kt e.1 ∧ Codes vt e.2)

include hca hcb hcc

/-- The code keeps encodings of keys and values. -/
theorem codes_mergeLeafKeys {es : List (Value × Value)} {ks : List Bytes} (h : mergeLeafKeys
      (ea.map (decEntry kt vt)) (eb.map (decEntry kt vt)) (ec.map (decEntry kt vt)) ks = some es) :
    ∀ e ∈ es, Codes kt (serialize e.1) ∧ Codes vt (serialize e.2) := by
  intro e he
  obtain ⟨⟨k, hk, hke⟩, v, hv, hve⟩ := mem_mergeLeafKeys h he
  rw [← List.map_append, ← List.map_append] at hk
  rw [← List.map_append] at hv
  obtain ⟨k', hk', rfl⟩ := List.mem_map.1 hk
  obtain ⟨v', hv', rfl⟩ := List.mem_map.1 hv
  have hck : Codes kt k'.1 := by
    simp only [List.mem_append] at hk'
    rcases hk' with (hk' | hk') | hk'
    · exact (hca k' hk').1
    · exact (hcb k' hk').1
    · exact (hcc k' hk').1
  have hcv : Codes vt v'.2 := by
    rcases List.mem_append.1 hv' with hv' | hv'
    · exact (hca v' hv').2
    · exact (hcb v' hv').2
  rw [← hke, ← hve, decEntry, decEntry, hck.serialize_decode, hcv.serialize_decode]
  exact ⟨hck, hcv⟩

/-- The code merges the entries of leaves with sorted keys as the trie does. -/
theorem mergeLeafKeys_eq (hna : (ea.map Prod.fst).Nodup) (hnb : (eb.map Prod.fst).Nodup)
    (hnc : (ec.map Prod.fst).Nodup) {ks : List Bytes} (hks : ∀ k ∈ ks, k ∈ (ea ++ eb ++ ec).map Prod.fst) :
    mergeLeafKeys (ea.map (decEntry kt vt)) (eb.map (decEntry kt vt)) (ec.map (decEntry kt vt)) ks =
      (mergeKeys (fun k => merge3 (sameBytes vt) (assoc ea k) (assoc eb k) (assoc ec k)) ks).map
        (List.map (decEntry kt vt)) := by
  induction ks with
  | nil => rfl
  | cons k ks ih =>
    have htail := ih fun k hk => hks k (List.mem_cons_of_mem _ hk)
    rw [mergeLeafKeys, mergeKeys, htail, mapGet_map_decEntry hca hna, mapGet_map_decEntry hcb hnb,
      mapGet_map_decEntry hcc hnc, mergeValue_map_decode]
    have hkeys : ∀ e ∈ ea ++ eb ++ ec, Codes kt e.1 := by
      intro e he
      simp only [List.mem_append] at he
      rcases he with (he | he) | he
      · exact (hca e he).1
      · exact (hcb e he).1
      · exact (hcc e he).1
    have hrec : recoverKey _ k = some (decode kt k) :=
      @recoverKey_map_decEntry kt vt _ hkeys k (hks k (by simp))
    rw [List.map_append, List.map_append, List.append_assoc] at hrec
    cases merge3 (sameBytes vt) (assoc ea k) (assoc eb k) (assoc ec k) with
    | none => rfl
    | some r =>
      cases mergeKeys (fun k => merge3 (sameBytes vt) (assoc ea k) (assoc eb k) (assoc ec k)) ks with
      | none => rfl
      | some es =>
        cases r with
        | none => rfl
        | some v => simp [hrec, decEntry]

theorem allKeys_eq : allKeys (ea.map (decEntry kt vt)) (eb.map (decEntry kt vt)) (ec.map (decEntry kt vt)) =
    unionKeys (ea.map Prod.fst ++ eb.map Prod.fst ++ ec.map Prod.fst) := by
  have hkeys : ∀ {es : List (Bytes × Bytes)}, (∀ e ∈ es, Codes kt e.1 ∧ Codes vt e.2) →
      (es.map (decEntry kt vt)).map (fun e => serialize e.1) = es.map Prod.fst := by
    intro es hes
    rw [List.map_map]
    exact List.map_congr_left fun e he => (hes e he).1.serialize_decode
  rw [allKeys, List.map_append, List.map_append, hkeys hca, hkeys hcb, hkeys hcc]

/-- **Leaves are fused** entry by entry. -/
theorem fuseLeaves_eq (hsa : SortedKeys ea) (hsb : SortedKeys eb) (hsc : SortedKeys ec) :
    fuseLeaves kt vt ea eb ec = mergeEntries (sameBytes vt) ea eb ec := by
  have hall : ∀ k ∈ unionKeys (ea.map Prod.fst ++ eb.map Prod.fst ++ ec.map Prod.fst),
      k ∈ (ea ++ eb ++ ec).map Prod.fst := fun k hk => by simpa using hk
  have hmerge := mergeLeafKeys_eq hca hcb hcc hsa.nodup hsb.nodup hsc.nodup hall
  simp only [fuseLeaves]
  rw [allKeys_eq hca hcb hcc, hmerge, Option.map_map]
  change _ = mergeKeys _ _
  cases hes : mergeKeys (fun k => merge3 (sameBytes vt) (assoc ea k) (assoc eb k) (assoc ec k))
      (unionKeys (ea.map Prod.fst ++ eb.map Prod.fst ++ ec.map Prod.fst)) with
  | none => rfl
  | some es =>
    have hcodes : ∀ e ∈ es, Codes kt e.1 ∧ Codes vt e.2 := by
      intro e he
      rcases mem_mergeEntries hsa.nodup hsb.nodup hes he with he | he
      · exact hca e he
      · exact hcb e he
    rw [Option.map_some, Function.comp_apply, map_encEntry_decEntry hcodes,
      (mergeKeys_sorted (unionKeys_sorted _) hes).sortKeys_eq]

end Leaves

theorem Trie.Fits.leafEntries {T : Trie} (h : T.Fits kt vt) : ∀ e ∈ T.leafEntries, Codes kt e.1 ∧ Codes vt e.2 := by
  cases T with
  | leaf es => exact h.2.2
  | empty => simp [HTree.leafEntries]
  | inner kids => simp [HTree.leafEntries]

/-! ### Roots of one store -/

theorem readNodeKv_of_held {kv : Kv} {T : Trie} (h : T.Held (nodeAt kv)) (hne : T ≠ .empty)
    (kt vt : Ty) : readNodeKv kv T.hash kt vt = deserializeNode kt vt T.enc := by
  obtain ⟨hroot, hnode⟩ := h.root hne
  rw [readNodeKv, if_neg hroot, hnode]
  rfl

theorem bits_dense_injective {g g' : Fin 32 → Option U128} (hb : bits g = bits g')
    (hd : dense g = dense g') : g = g' := by
  funext s
  have hs : (g s).isSome = (g' s).isSome := by rw [← bitSet_bits, hb, bitSet_bits]
  by_cases h : (g s).isSome
  · rw [← dense_getElem? h, hb, hd, dense_getElem? (hs ▸ h)]
  · have h' : ¬ (g' s).isSome := hs ▸ h
    rw [Option.not_isSome_iff_eq_none.1 h, Option.not_isSome_iff_eq_none.1 h']

theorem Trie.Held.enc_eq {view : U128 → Option Bytes} {A B : Trie} (hA : A.Held view)
    (hB : B.Held view) (hne : A ≠ .empty) (h : A.hash = B.hash) : B ≠ .empty ∧ A.enc = B.enc := by
  have hBne : B ≠ .empty := fun hB' => (hA.root hne).1 (by rw [h, hB']; rfl)
  have hroot := (hA.root hne).2
  rw [h, (hB.root hBne).2] at hroot
  exact ⟨hBne, (Option.some.inj hroot).symm⟩

/-- Two tries held by one view with the same root are the same. -/
theorem Trie.Held.ext {view : U128 → Option Bytes} {A B : Trie} (hA : A.Held view) (hB : B.Held view)
    (hfA : A.Fits kt vt) (hfB : B.Fits kt vt) (h : A.hash = B.hash) : A = B := by
  induction A generalizing B with
  | empty => exact (hB.hash_ne.1 h.symm).symm
  | leaf es =>
    obtain ⟨hBne, henc⟩ := hA.enc_eq hB (by simp) h
    have hdec := Trie.deserializeNode_enc_leaf hfA
    rw [henc] at hdec
    cases B with
    | empty => exact absurd rfl hBne
    | leaf es' =>
      rw [Trie.deserializeNode_enc_leaf hfB, Option.some.injEq, Node.leaf.injEq] at hdec
      have henc' := congrArg (List.map encEntry) hdec
      rw [map_encEntry_decEntry hfB.2.2, map_encEntry_decEntry hfA.2.2] at henc'
      rw [henc']
    | inner kids =>
      rw [Trie.deserializeNode_enc_inner] at hdec
      cases hdec
  | inner kids ih =>
    obtain ⟨hBne, henc⟩ := hA.enc_eq hB (by simp) h
    have hdec := Trie.deserializeNode_enc_inner kt vt kids
    rw [henc] at hdec
    cases B with
    | empty => exact absurd rfl hBne
    | leaf es' =>
      rw [Trie.deserializeNode_enc_leaf hfB] at hdec
      cases hdec
    | inner kids' =>
      rw [Trie.deserializeNode_enc_inner, Option.some.injEq, Node.inner.injEq] at hdec
      have hlinks := bits_dense_injective hdec.1 hdec.2
      have hkids : kids = kids' := by
        funext s
        refine ih s (hA.kid s) (hB.kid s) (hfA.2 s) (hfB.2 s) ?_
        rw [Trie.hash, Trie.hash, congrFun hlinks s]
      rw [hkids]

theorem childAt_link (kids : Fin 32 → Trie) (s : Fin 32) :
    childAt (bits fun s => (kids s).link) (dense fun s => (kids s).link) s = (kids s).hash := by
  rw [childAt]
  by_cases hs : kids s = .empty
  · rw [if_pos (Trie.and_bitAt_link.2 hs), hs]
    rfl
  · rw [if_neg (mt Trie.and_bitAt_link.1 hs), Trie.dense_getD_link hs]

theorem leafOrEmpty_eq {kv : Kv} {C : Trie} (h : C.Held (nodeAt kv)) (hf : C.Fits kt vt) :
    leafOrEmpty (readNodeKv kv C.hash kt vt) = C.leafEntries.map (decEntry kt vt) := by
  cases C with
  | empty => simp [readNodeKv, leafOrEmpty, HTree.leafEntries]
  | leaf es =>
    rw [readNodeKv_of_held h (by simp), Trie.deserializeNode_enc_leaf hf]
    rfl
  | inner kids =>
    rw [readNodeKv_of_held h (by simp), Trie.deserializeNode_enc_inner]
    rfl

theorem innerOrEmpty_eq {kv : Kv} {C : Trie} (h : C.Held (nodeAt kv)) (hf : C.Fits kt vt) :
    innerOrEmpty (readNodeKv kv C.hash kt vt) =
      (bits fun s => Trie.link (C.kid s), dense fun s => Trie.link (C.kid s)) := by
  have hnone : (fun s => Trie.link ((fun _ => .empty : Fin 32 → Trie) s)) = fun _ => none := rfl
  have hbits : bits (fun _ : Fin 32 => (none : Option U128)) = 0#32 :=
    (bits_eq_zero_iff _).2 fun _ => rfl
  have hdense : dense (fun _ : Fin 32 => (none : Option U128)) = [] := by simp [dense]
  cases C with
  | empty =>
    simp only [HTree.kid]
    rw [hnone, hbits, hdense]
    simp [readNodeKv, innerOrEmpty]
  | leaf es =>
    rw [readNodeKv_of_held h (by simp), Trie.deserializeNode_enc_leaf hf]
    simp only [HTree.kid]
    rw [hnone, hbits, hdense]
    rfl
  | inner kids =>
    rw [readNodeKv_of_held h (by simp), Trie.deserializeNode_enc_inner]
    rfl

/-! ### The merge walks the tries -/

/-- The new cells are good nodes: no key is the empty root, and the bytes fit a cell. -/
def GoodCells (cells : NewCells) : Prop := ∀ c ∈ cells, c.1 ≠ emptyRoot ∧ c.2.length < 2 ^ 32

theorem GoodCells.left {l l' : NewCells} (h : GoodCells (l ++ l')) : GoodCells l :=
  fun c hc => h c (List.mem_append_left _ hc)

theorem GoodCells.right {l l' : NewCells} (h : GoodCells (l ++ l')) : GoodCells l' :=
  fun c hc => h c (List.mem_append_right _ hc)

/-- The trie `M` fits, and each of its nodes is one of `A` or `B` or a new cell. -/
def MadeOf (kt vt : Ty) (A B : Trie) (new : NewCells) (M : Trie) : Prop :=
  M.Fits kt vt ∧ ∀ e ∈ M.encs, e ∈ A.encs ∨ e ∈ B.encs ∨ e ∈ new.map Prod.snd

/-- What the code answers where the trie merge gives `m`: it gives up, or it answers the root of the
merged trie, whose nodes it has taken over or made. Only bad new cells could spoil this. -/
def MergesTo (kt vt : Ty) (A B : Trie) (out : NewCells) (r : Option (U128 × NewCells)) :
    Option Trie → Prop
  | none => r = none
  | some M => ∃ h new, r = some (h, out ++ new) ∧ (∀ c ∈ new, c.1 = nodeCellKey c.2) ∧
      (GoodCells new → h = M.hash ∧ MadeOf kt vt A B new M)

theorem mergesTo_left {A B : Trie} {out : NewCells} (h : A.Fits kt vt) :
    MergesTo kt vt A B out (some (A.hash, out)) (some A) :=
  ⟨A.hash, [], by simp, by simp, fun _ => ⟨rfl, h, fun _ he => .inl he⟩⟩

theorem mergesTo_right {A B : Trie} {out : NewCells} (h : B.Fits kt vt) :
    MergesTo kt vt A B out (some (B.hash, out)) (some B) :=
  ⟨B.hash, [], by simp, by simp, fun _ => ⟨rfl, h, fun _ he => .inr (.inl he)⟩⟩

theorem length_lt_leafBytes (es : List (Bytes × Bytes)) : es.length < (leafBytes es).length := by
  have hle : es.length ≤ (es.flatMap fun e => withLen e.1 ++ withLen e.2).length := by
    induction es with
    | nil => simp
    | cons e es ih =>
      have hpos : 4 ≤ (withLen e.1).length := by simp [withLen, lenBytes]
      rw [List.flatMap_cons, List.length_append, List.length_append, List.length_cons]
      omega
  rw [leafBytes, List.length_cons, List.length_append]
  omega

theorem mergedLeaf_eq {A B : Trie} {es : List (Value × Value)}
    (hc : ∀ e ∈ es, Codes kt (serialize e.1) ∧ Codes vt (serialize e.2)) (out : NewCells) :
    MergesTo kt vt A B out (some (mergedLeaf es out)) (some (HTree.leafOf (sortKeys (es.map encEntry)))) := by
  by_cases hnil : es = []
  · subst hnil
    exact ⟨emptyRoot, [], by simp [mergedLeaf], by simp,
      by simp [HTree.leafOf, sortKeys, MadeOf, Trie.encs, Trie.Fits]⟩
  · have hne : sortKeys (es.map encEntry) ≠ [] := sortKeys_ne_nil.2 (by simpa using hnil)
    rw [HTree.leafOf_of_ne_nil hne]
    refine ⟨nodeCellKey (leafBytes (sortKeys (es.map encEntry))),
      [(nodeCellKey (leafBytes (sortKeys (es.map encEntry))), leafBytes (sortKeys (es.map encEntry)))],
      ?_, by simp, fun hgood => ⟨?_, ?_, ?_⟩⟩
    · rw [mergedLeaf, if_neg hnil, serializeLeaf_sortEntries]
    · rw [Trie.hash_leaf]
    · refine ⟨hne, lt_trans (length_lt_leafBytes _) (hgood _ (List.mem_singleton.2 rfl)).2, fun e he => ?_⟩
      obtain ⟨e', he', rfl⟩ := List.mem_map.1 (mem_sortKeys.1 he)
      exact hc e' he'
    · intro x hx
      rw [Trie.encs] at hx
      exact .inr (.inr (by simpa using hx))

theorem MadeOf.hash_eq_empty_iff {kv : Kv} {A B M : Trie} {new : NewCells} (h : MadeOf kt vt A B new M)
    (hA : A.Held (nodeAt kv)) (hB : B.Held (nodeAt kv)) (hkey : ∀ c ∈ new, c.1 = nodeCellKey c.2)
    (hgood : GoodCells new) : M.hash = emptyRoot ↔ M = .empty := by
  refine ⟨fun hM => ?_, fun hM => by rw [hM]; rfl⟩
  by_contra hM'
  rw [Trie.hash_of_ne_empty hM'] at hM
  rcases h.2 _ (Trie.enc_mem_encs hM') with he | he | he
  · exact (hA _ he).1 hM
  · exact (hB _ he).1 hM
  · obtain ⟨c, hc, hce⟩ := List.mem_map.1 he
    exact (hgood c hc).1 (by rw [hkey c hc, hce, hM])

section Slots

variable {kv : Kv} {ka kb kc km : Fin 32 → Trie}
  {f : U128 → U128 → U128 → NewCells → Option (U128 × NewCells)}

/-- The loop over the slots, on the children of three inner nodes. -/
def slotsOf (f : U128 → U128 → U128 → NewCells → Option (U128 × NewCells)) (ka kb kc : Fin 32 → Trie) :
    List (Fin 32) → BitVec 32 → List U128 → NewCells → Option (BitVec 32 × List U128 × NewCells) :=
  mergeSlots f (bits fun s => (ka s).link) (dense fun s => (ka s).link) (bits fun s => (kb s).link)
    (dense fun s => (kb s).link) (bits fun s => (kc s).link) (dense fun s => (kc s).link)

theorem slotsOf_skip {s : Fin 32} (h : ka s = .empty ∧ kb s = .empty ∧ kc s = .empty)
    (l : List (Fin 32)) (bm : BitVec 32) (ch : List U128) (out : NewCells) :
    slotsOf f ka kb kc (s :: l) bm ch out = slotsOf f ka kb kc l bm ch out := by
  unfold slotsOf
  rw [mergeSlots, if_pos]
  rw [and_bitAt_eq_zero_iff, bitSet_or, bitSet_or, bitSet_bits, bitSet_bits, bitSet_bits, h.1, h.2.1,
    h.2.2]
  rfl

theorem slotsOf_cons {s : Fin 32} (h : ¬ (ka s = .empty ∧ kb s = .empty ∧ kc s = .empty))
    (l : List (Fin 32)) (bm : BitVec 32) (ch : List U128) (out : NewCells) :
    slotsOf f ka kb kc (s :: l) bm ch out =
      (f (ka s).hash (kb s).hash (kc s).hash out).bind fun r =>
        if r.1 = emptyRoot then slotsOf f ka kb kc l bm ch r.2
        else slotsOf f ka kb kc l (bm ||| bitAt s) (ch ++ [r.1]) r.2 := by
  unfold slotsOf
  rw [mergeSlots, childAt_link, childAt_link, childAt_link, if_neg]
  rw [and_bitAt_eq_zero_iff, bitSet_or, bitSet_or, bitSet_bits, bitSet_bits, bitSet_bits]
  simpa [and_assoc] using h

theorem slotsOf_none (hf : ∀ s out, MergesTo kt vt (ka s) (kb s) out
      (f (ka s).hash (kb s).hash (kc s).hash out) (HTree.merge (fuseLeaves kt vt) (ka s) (kb s) (kc s)))
    {l : List (Fin 32)} (h : ∃ s ∈ l, HTree.merge (fuseLeaves kt vt) (ka s) (kb s) (kc s) = none) (bm : BitVec 32)
    (ch : List U128) (out : NewCells) : slotsOf f ka kb kc l bm ch out = none := by
  induction l generalizing bm ch out with
  | nil => simp at h
  | cons s l ih =>
    have hs := hf s out
    by_cases hskip : ka s = .empty ∧ kb s = .empty ∧ kc s = .empty
    · rw [slotsOf_skip hskip]
      obtain ⟨t, ht, hnone⟩ := h
      rcases List.mem_cons.1 ht with rfl | ht
      · rw [hskip.1, hskip.2.1] at hnone
        simp [HTree.merge, HTree.mergeTop] at hnone
      · exact ih ⟨t, ht, hnone⟩ bm ch out
    · rw [slotsOf_cons hskip]
      cases hm : HTree.merge (fuseLeaves kt vt) (ka s) (kb s) (kc s) with
      | none =>
        rw [hm] at hs
        rw [show f (ka s).hash (kb s).hash (kc s).hash out = none from hs]
        rfl
      | some M =>
        rw [hm] at hs
        obtain ⟨h', new, hr, -⟩ := hs
        have hrest : ∃ s ∈ l, HTree.merge (fuseLeaves kt vt) (ka s) (kb s) (kc s) = none := by
          obtain ⟨t, ht, hnone⟩ := h
          rcases List.mem_cons.1 ht with rfl | ht
          · rw [hm] at hnone
            cases hnone
          · exact ⟨t, ht, hnone⟩
        rw [hr, Option.bind_some]
        split_ifs
        · exact ih hrest _ _ _
        · exact ih hrest _ _ _

/-- The loop has collected the merged children of these slots, from low to high. -/
def SlotsTo (kt vt : Ty) (ka kb km : Fin 32 → Trie) (l : List (Fin 32)) (bm : BitVec 32)
    (ch : List U128) (out : NewCells) (r : Option (BitVec 32 × List U128 × NewCells)) : Prop :=
  ∃ bm' ch' new, r = some (bm', ch', out ++ new) ∧ (∀ c ∈ new, c.1 = nodeCellKey c.2) ∧
    (GoodCells new →
      bm' = l.foldl (fun b s => if ((km s).link).isSome then b ||| bitAt s else b) bm ∧
      ch' = ch ++ l.filterMap (fun s => (km s).link) ∧
      ∀ s ∈ l, MadeOf kt vt (ka s) (kb s) new (km s))

theorem MadeOf.mono {A B M : Trie} {new new' : NewCells} (h : MadeOf kt vt A B new M)
    (hsub : ∀ c ∈ new, c ∈ new') : MadeOf kt vt A B new' M := by
  refine ⟨h.1, fun e he => (h.2 e he).imp_right fun h => h.imp_right fun h => ?_⟩
  obtain ⟨c, hc, rfl⟩ := List.mem_map.1 h
  exact List.mem_map_of_mem (hsub c hc)

/-- One more slot in front: its child has been collected, or left out when it is empty. -/
theorem SlotsTo.cons {s : Fin 32} {l : List (Fin 32)} {bm bm₁ : BitVec 32} {ch ch₁ : List U128}
    {out new₁ : NewCells} {r : Option (BitVec 32 × List U128 × NewCells)}
    (hkey₁ : ∀ c ∈ new₁, c.1 = nodeCellKey c.2)
    (hacc : GoodCells new₁ →
      bm₁ = (if ((km s).link).isSome then bm ||| bitAt s else bm) ∧ ch₁ = ch ++ ((km s).link).toList ∧
      MadeOf kt vt (ka s) (kb s) new₁ (km s))
    (h : SlotsTo kt vt ka kb km l bm₁ ch₁ (out ++ new₁) r) :
    SlotsTo kt vt ka kb km (s :: l) bm ch out r := by
  obtain ⟨bm', ch', new₂, hrun, hkey₂, hok₂⟩ := h
  refine ⟨bm', ch', new₁ ++ new₂, by rw [hrun, List.append_assoc], ?_, fun hgood => ?_⟩
  · exact fun c hc => (List.mem_append.1 hc).elim (hkey₁ c) (hkey₂ c)
  · obtain ⟨hbm, hch, hmade⟩ := hok₂ hgood.right
    obtain ⟨hbm₁, hch₁, hmade₁⟩ := hacc hgood.left
    refine ⟨by rw [hbm, hbm₁, List.foldl_cons], ?_, fun t ht => ?_⟩
    · rw [hch, hch₁]
      cases hl : (km s).link with
      | none => simp [hl]
      | some x => simp [hl]
    · rcases List.mem_cons.1 ht with hts | ht
      · rw [hts]
        exact hmade₁.mono fun c hc => List.mem_append_left _ hc
      · exact (hmade t ht).mono fun c hc => List.mem_append_right _ hc

theorem slotsOf_some (hf : ∀ s out, MergesTo kt vt (ka s) (kb s) out
      (f (ka s).hash (kb s).hash (kc s).hash out) (HTree.merge (fuseLeaves kt vt) (ka s) (kb s) (kc s)))
    (hA : ∀ s, (ka s).Held (nodeAt kv)) (hB : ∀ s, (kb s).Held (nodeAt kv))
    (hm : ∀ s, HTree.merge (fuseLeaves kt vt) (ka s) (kb s) (kc s) = some (km s))
    (l : List (Fin 32)) (bm : BitVec 32) (ch : List U128) (out : NewCells) :
    SlotsTo kt vt ka kb km l bm ch out (slotsOf f ka kb kc l bm ch out) := by
  have hempty : ∀ {s new}, km s = .empty → MadeOf kt vt (ka s) (kb s) new (km s) := by
    intro s new hs
    rw [hs]
    exact ⟨trivial, by simp [Trie.encs]⟩
  induction l generalizing bm ch out with
  | nil => exact ⟨bm, ch, [], by simp [slotsOf, mergeSlots], by simp, by simp⟩
  | cons s l ih =>
    by_cases hskip : ka s = .empty ∧ kb s = .empty ∧ kc s = .empty
    · have hkm : km s = .empty := by
        have := hm s
        rw [hskip.1, hskip.2.1] at this
        simpa [HTree.merge, HTree.mergeTop, eq_comm] using this
      rw [slotsOf_skip hskip]
      have htail : SlotsTo kt vt ka kb km l bm ch (out ++ []) (slotsOf f ka kb kc l bm ch out) := by
        rw [List.append_nil]
        exact ih bm ch out
      exact htail.cons (by simp) fun _ => ⟨by simp [hkm, Trie.link], by simp [hkm, Trie.link], hempty hkm⟩
    · have hs := hf s out
      rw [hm s] at hs
      obtain ⟨h, new₁, hr, hkey₁, hok₁⟩ := hs
      rw [slotsOf_cons hskip, hr, Option.bind_some]
      -- whether the child is kept depends on its hash
      split_ifs with hz
      · refine (ih bm ch (out ++ new₁)).cons hkey₁ fun hgood => ?_
        obtain ⟨hh, hmade⟩ := hok₁ hgood
        have hkm : km s = .empty := (hmade.hash_eq_empty_iff (hA s) (hB s) hkey₁ hgood).1 (hh ▸ hz)
        exact ⟨by simp [hkm, Trie.link], by simp [hkm, Trie.link], hmade⟩
      · refine (ih (bm ||| bitAt s) (ch ++ [h]) (out ++ new₁)).cons hkey₁ fun hgood => ?_
        obtain ⟨hh, hmade⟩ := hok₁ hgood
        have hkm : km s ≠ .empty := fun hkm => hz (by rw [hh, hkm]; rfl)
        rw [Trie.link_of_ne_empty hkm, hh]
        exact ⟨rfl, rfl, hmade⟩

end Slots

theorem mergedInner_eq {ka kb km : Fin 32 → Trie} {bm : BitVec 32} {ch : List U128}
    {out new : NewCells} (hkey : ∀ c ∈ new, c.1 = nodeCellKey c.2)
    (hok : GoodCells new → bm = (bits fun s => (km s).link) ∧ ch = (dense fun s => (km s).link) ∧
      ∀ s, MadeOf kt vt (ka s) (kb s) new (km s)) :
    MergesTo kt vt (.inner ka) (.inner kb) out (some (mergedInner bm ch (out ++ new)))
      (some (HTree.node km)) := by
  rw [mergedInner]
  split_ifs with hz
  · refine ⟨emptyRoot, new, rfl, hkey, fun hgood => ?_⟩
    obtain ⟨hbm, -, -⟩ := hok hgood
    have hall : ∀ s, km s = .empty := fun s =>
      Trie.link_eq_none_iff.1 ((bits_eq_zero_iff _).1 (hbm ▸ hz) s)
    rw [HTree.node, if_pos hall]
    exact ⟨rfl, trivial, by simp [Trie.encs]⟩
  · refine ⟨_, new ++ [(nodeCellKey (serializeInner bm ch), serializeInner bm ch)],
      by rw [← List.append_assoc], ?_, fun hgood => ?_⟩
    · intro c hc
      rcases List.mem_append.1 hc with hc | hc
      · exact hkey c hc
      · rw [List.mem_singleton.1 hc]
    · obtain ⟨rfl, rfl, hmade⟩ := hok hgood.left
      have hall : ¬ ∀ s, km s = .empty := fun hall =>
        hz ((bits_eq_zero_iff _).2 fun s => Trie.link_eq_none_iff.2 (hall s))
      rw [HTree.node, if_neg hall, Trie.hash_inner]
      refine ⟨rfl, ⟨not_forall.1 hall, fun s => (hmade s).1⟩, fun e he => ?_⟩
      rw [List.map_append, List.mem_append]
      rcases Trie.mem_encs_inner.1 he with rfl | ⟨s, hs⟩
      · exact .inr (.inr (.inr (by simp [Trie.enc])))
      · rcases (hmade s).2 e hs with he | he | he
        · exact .inl (Trie.mem_encs_inner.2 (.inr ⟨s, he⟩))
        · exact .inr (.inl (Trie.mem_encs_inner.2 (.inr ⟨s, he⟩)))
        · exact .inr (.inr (.inl he))

theorem Trie.Held.kid_of {view : U128 → Option Bytes} {C : Trie} (h : C.Held view) (s : Fin 32) :
    Trie.Held view (C.kid s) := by
  cases C with
  | inner kids => exact h.kid s
  | _ => exact Trie.held_empty view

theorem Trie.Fits.kid_of {C : Trie} (h : C.Fits kt vt) (s : Fin 32) : Trie.Fits kt vt (C.kid s) := by
  cases C with
  | inner kids => exact h.2 s
  | _ => exact trivial


section MergeAt

variable {kv : Kv} {A B C : Trie}

theorem mergeAt_of_not_apart (hA : A.Held (nodeAt kv)) (hB : B.Held (nodeAt kv))
    (hC : C.Held (nodeAt kv)) (hfA : A.Fits kt vt) (hfB : B.Fits kt vt) (hfC : C.Fits kt vt)
    (h : ¬ HTree.Apart A B C) (fuel : ℕ) (out : NewCells) :
    MergesTo kt vt A B out (mergeAt kv kt vt (fuel + 1) A.hash B.hash C.hash out)
      (HTree.merge (fuseLeaves kt vt) A B C) := by
  obtain ⟨rest, hrest⟩ : ∃ rest, HTree.merge (fuseLeaves kt vt) A B C = HTree.mergeTop A B C rest :=
    HTree.exists_merge_eq_mergeTop A B C
  rw [hrest, HTree.mergeTop, mergeAt]
  by_cases hab : A = B
  · rw [if_pos hab, if_pos (congrArg _ hab)]
    exact mergesTo_left hfA
  · rw [if_neg hab, if_neg (mt (hA.ext hB hfA hfB) hab)]
    by_cases hac : A = C
    · rw [if_pos hac, if_pos (congrArg _ hac)]
      exact mergesTo_right hfB
    · rw [if_neg hac, if_neg (mt (hA.ext hC hfA hfC) hac)]
      have hbc : B = C := by
        by_contra hbc
        exact h ⟨hab, hac, hbc⟩
      rw [if_pos hbc, if_pos (congrArg _ hbc)]
      exact mergesTo_left hfA

theorem mergeAt_of_apart (hA : A.Held (nodeAt kv)) (hB : B.Held (nodeAt kv))
    (hC : C.Held (nodeAt kv)) (hfA : A.Fits kt vt) (hfB : B.Fits kt vt) (hfC : C.Fits kt vt)
    (h : HTree.Apart A B C) (fuel : ℕ) (out : NewCells) :
    mergeAt kv kt vt (fuel + 1) A.hash B.hash C.hash out =
      (readNodeKv kv A.hash kt vt).bind fun na => (readNodeKv kv B.hash kt vt).bind fun nb =>
        mergeNodes (mergeAt kv kt vt fuel) (readNodeKv kv C.hash kt vt) out na nb := by
  rw [mergeAt, if_neg (mt (hA.ext hB hfA hfB) h.1), if_neg (mt (hA.ext hC hfA hfC) h.2.1),
    if_neg (mt (hB.ext hC hfB hfC) h.2.2)]

theorem merge_of_apart_leaf {ea eb : List (Bytes × Bytes)} (h : HTree.Apart (.leaf ea) (.leaf eb) C) :
    HTree.merge (fuseLeaves kt vt) (.leaf ea) (.leaf eb) C =
      (fuseLeaves kt vt ea eb C.leafEntries).map HTree.leafOf := by
  rw [HTree.merge, HTree.mergeTop, if_neg h.1, if_neg h.2.1, if_neg h.2.2]

theorem merge_of_apart_inner {ka kb : Fin 32 → Trie} (h : HTree.Apart (.inner ka) (.inner kb) C) :
    HTree.merge (fuseLeaves kt vt) (.inner ka) (.inner kb) C =
      HTree.mergeKids fun s => HTree.merge (fuseLeaves kt vt) (ka s) (kb s) (C.kid s) := by
  rw [HTree.merge, HTree.mergeTop, if_neg h.1, if_neg h.2.1, if_neg h.2.2]

end MergeAt

/-- **The code merges the tries.** -/
theorem mergeAt_eq {kv : Kv} {A B C : Trie} {fuel L : ℕ} (hA : A.Held (nodeAt kv))
    (hB : B.Held (nodeAt kv)) (hC : C.Held (nodeAt kv)) (hfA : A.Fits kt vt) (hfB : B.Fits kt vt)
    (hfC : C.Fits kt vt) (hs : A.Shallow 13 L) (hfuel : 14 ≤ fuel + L) (hL : L ≤ 13)
    (out : NewCells) :
    MergesTo kt vt A B out (mergeAt kv kt vt fuel A.hash B.hash C.hash out)
      (HTree.merge (fuseLeaves kt vt) A B C) := by
  induction A generalizing B C fuel L out with
  | empty =>
    obtain ⟨fuel, rfl⟩ : ∃ n, fuel = n + 1 := ⟨fuel - 1, by omega⟩
    by_cases hap : HTree.Apart .empty B C
    · rw [mergeAt_of_apart hA hB hC hfA hfB hfC hap]
      simp only [HTree.merge, HTree.mergeTop_eq_none_iff.2 ⟨hap, rfl⟩]
      simp [MergesTo, readNodeKv]
    · exact mergeAt_of_not_apart hA hB hC hfA hfB hfC hap fuel out
  | leaf ea =>
    obtain ⟨fuel, rfl⟩ : ∃ n, fuel = n + 1 := ⟨fuel - 1, by omega⟩
    by_cases hap : HTree.Apart (.leaf ea) B C
    · rw [mergeAt_of_apart hA hB hC hfA hfB hfC hap, readNodeKv_of_held hA (by simp),
        Trie.deserializeNode_enc_leaf hfA, Option.bind_some]
      cases B with
      | empty =>
        simp only [HTree.merge, HTree.mergeTop_eq_none_iff.2 ⟨hap, rfl⟩]
        simp [MergesTo, readNodeKv]
      | inner kb =>
        simp only [HTree.merge, HTree.mergeTop_eq_none_iff.2 ⟨hap, rfl⟩]
        rw [readNodeKv_of_held hB (by simp), Trie.deserializeNode_enc_inner, Option.bind_some]
        rfl
      | leaf eb =>
        rw [merge_of_apart_leaf hap, readNodeKv_of_held hB (by simp),
          Trie.deserializeNode_enc_leaf hfB, Option.bind_some, mergeNodes, leafOrEmpty_eq hC hfC]
        simp only [fuseLeaves]
        cases hes : mergeLeafKeys (ea.map (decEntry kt vt)) (eb.map (decEntry kt vt))
            (C.leafEntries.map (decEntry kt vt)) (allKeys (ea.map (decEntry kt vt)) (eb.map (decEntry kt vt))
              (C.leafEntries.map (decEntry kt vt))) with
        | none => rfl
        | some es => exact mergedLeaf_eq (codes_mergeLeafKeys hfA.2.2 hfB.2.2 hfC.leafEntries hes) out
    · exact mergeAt_of_not_apart hA hB hC hfA hfB hfC hap fuel out
  | inner ka ih =>
    obtain ⟨fuel, rfl⟩ : ∃ n, fuel = n + 1 := ⟨fuel - 1, by omega⟩
    by_cases hap : HTree.Apart (.inner ka) B C
    · rw [mergeAt_of_apart hA hB hC hfA hfB hfC hap, readNodeKv_of_held hA (by simp),
        Trie.deserializeNode_enc_inner, Option.bind_some]
      cases B with
      | empty =>
        simp only [HTree.merge, HTree.mergeTop_eq_none_iff.2 ⟨hap, rfl⟩]
        simp [MergesTo, readNodeKv]
      | leaf eb =>
        simp only [HTree.merge, HTree.mergeTop_eq_none_iff.2 ⟨hap, rfl⟩]
        rw [readNodeKv_of_held hB (by simp), Trie.deserializeNode_enc_leaf hfB, Option.bind_some]
        rfl
      | inner kb =>
        have hL' := hs.1
        have hslots := fun s out' => @ih s (kb s) (C.kid s) fuel (L + 1) (hA.kid s) (hB.kid s)
          (hC.kid_of s) (hfA.2 s) (hfB.2 s) (hfC.kid_of s) (hs.2 s) (by omega) (by omega) out'
        rw [merge_of_apart_inner hap, readNodeKv_of_held hB (by simp), Trie.deserializeNode_enc_inner,
          Option.bind_some, mergeNodes, innerOrEmpty_eq hC hfC]
        change MergesTo kt vt _ _ _ ((slotsOf (mergeAt kv kt vt fuel) ka kb C.kid (List.finRange 32) 0#32 []
          out).map _) _
        cases hkids : HTree.mergeKids fun s => HTree.merge (fuseLeaves kt vt) (ka s) (kb s) (C.kid s) with
        | none =>
          obtain ⟨s, hnone⟩ := HTree.mergeKids_eq_none_iff.1 hkids
          rw [slotsOf_none hslots ⟨s, List.mem_finRange s, hnone⟩]
          rfl
        | some M =>
          obtain ⟨km, hkm, rfl⟩ := HTree.mergeKids_eq_some hkids
          obtain ⟨bm, ch, new, hrun, hkey, hok⟩ := slotsOf_some hslots (fun s => hA.kid s)
            (fun s => hB.kid s) hkm (List.finRange 32) 0#32 [] out
          rw [hrun]
          refine mergedInner_eq hkey fun hgood => ?_
          obtain ⟨hbm, hch, hmade⟩ := hok hgood
          exact ⟨hbm, by rw [hch, List.nil_append, dense], fun s => hmade s (List.mem_finRange s)⟩
    · exact mergeAt_of_not_apart hA hB hC hfA hfB hfC hap fuel out

/-- On well-levelled tries the code's merge is the merge entry by entry. -/
theorem merge_fuseLeaves {A B C : Trie} {H L : ℕ} (hfA : A.Fits kt vt) (hfB : B.Fits kt vt) (hfC : C.Fits kt vt)
    (hA : A.WF slotOf H L) (hB : B.WF slotOf H L) (hC : C.WF slotOf H L) :
    HTree.merge (fuseLeaves kt vt) A B C = HTree.merge (mergeEntries (sameBytes vt)) A B C := by
  induction A generalizing B C L with
  | empty => cases B <;> simp only [HTree.merge]
  | leaf ea =>
    cases B with
    | leaf eb =>
      rw [HTree.merge, HTree.merge, fuseLeaves_eq hfA.2.2 hfB.2.2 hfC.leafEntries hA.2 hB.2 hC.leafEntries]
    | _ => simp only [HTree.merge]
  | inner ka ih =>
    cases B with
    | inner kb =>
      have hkids : ∀ s, HTree.merge (fuseLeaves kt vt) (ka s) (kb s) (C.kid s) =
          HTree.merge (mergeEntries (sameBytes vt)) (ka s) (kb s) (C.kid s) := fun s =>
        ih s (hfA.2 s) (hfB.2 s) (hfC.kid_of s) (hA.2.2 s).1 (hB.2.2 s).1 (hC.kid s).1
      rw [HTree.merge, HTree.merge]
      simp only [hkids]
    | _ => simp only [HTree.merge]

/-- The code gives up exactly where the tries get stuck, and else stores the merged trie. -/
theorem mergeThreeWay_eq {kv : Kv} {a b base : U128} {A B C : Trie} (hA : Stored kv kt vt a A)
    (hB : Stored kv kt vt b B) (hC : Stored kv kt vt base C)
    (hcells : ∀ r ∈ mergeThreeWay a b base kv kt vt, Storable kv r.newCells) :
    match HTree.merge (mergeEntries (sameBytes vt)) A B C with
    | none => mergeThreeWay a b base kv kt vt = none
    | some M => ∃ r, mergeThreeWay a b base kv kt vt = some r ∧
        Stored (storeCells kv r.newCells) kt vt r.root M := by
  have hspec := @mergeAt_eq kt vt kv A B C depth 0 hA.held hB.held hC.held hA.fits hB.fits hC.fits
    (Trie.shallow_of_wf hA.wf) (by simp [depth]) (by omega) []
  rw [← hA.root_eq, ← hB.root_eq, ← hC.root_eq,
    merge_fuseLeaves hA.fits hB.fits hC.fits hA.wf hB.wf hC.wf] at hspec
  cases hm : HTree.merge (mergeEntries (sameBytes vt)) A B C with
  | none =>
    rw [hm] at hspec
    simp only [mergeThreeWay, Option.map_eq_none_iff]
    exact hspec
  | some M =>
    rw [hm] at hspec
    obtain ⟨h, new, hr, hkey, hok⟩ := hspec
    have hrun : mergeThreeWay a b base kv kt vt = some ⟨h, new⟩ := by
      rw [mergeThreeWay, hr, Option.map_some, List.nil_append]
    have hst := hcells _ hrun
    obtain ⟨hh, hfits, hencs⟩ := hok fun c hc => ⟨hst.ne_empty c hc, hst.small c hc⟩
    refine ⟨⟨h, new⟩, hrun, hh, fun e he => ?_, hfits, hA.wf.merge hB.wf hm⟩
    rcases hencs e he with he | he | he
    · exact hst.held hA.held e he
    · exact hst.held hB.held e he
    · obtain ⟨c, hc, rfl⟩ := List.mem_map.1 he
      rw [← hkey c hc]
      exact ⟨hst.ne_empty c hc, hst.nodeAt_new hc⟩

end Rend.Pmap
