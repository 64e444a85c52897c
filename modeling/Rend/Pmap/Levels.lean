import Rend.Pmap.Shape

/-!
# How deep the nodes of a map stand

A root that `set` and `remove` have led to is `Built` over the nodes that have been written on the way,
by any number of transactions and at any types. No claim is made on where its keys sit, nor that its
leaves can be decoded.

What holds of each such root is that no inner node stands below level `9` (`Built.within`): a split
stops at level `maxLevels`, and nothing else makes an inner node. So a descent from the root ends after
at most `maxLevels + 1` nodes, and what it finds is a matter of the nodes alone (`getAt_eq_lookup`).
-/

namespace Rend.Pmap

open Lib Tx

/-! ### What a node says about its children -/

theorem readChildren_length {bs : Bytes} {n cursor : ℕ} {cs : List U128} (h : readChildren bs n cursor = some cs) :
    cs.length = n := by
  induction n generalizing cursor cs with
  | zero =>
    cases h
    rfl
  | succ n ih =>
    simp only [readChildren, Option.bind_eq_bind, Option.bind_eq_some_iff] at h
    obtain ⟨c, -, cs', hcs, heq⟩ := h
    cases heq
    rw [List.length_cons, ih hcs]

/-- An inner node has a child for each bit of its bitmap. -/
theorem length_of_inner {kt vt : Ty} {bs : Bytes} {bm : BitVec 32} {cs : List U128}
    (h : deserializeNode kt vt bs = some (.inner bm cs)) : cs.length = countOnes bm := by
  unfold deserializeNode at h
  split_ifs at h
  · simp only [Option.bind_eq_bind, Option.bind_eq_some_iff] at h
    obtain ⟨bitmap, -, n, -, children, hch, hnode⟩ := h
    split_ifs at hnode with hcount
    cases hnode
    rw [readChildren_length hch, hcount]
  · simp only [Option.bind_eq_bind, Option.bind_eq_some_iff] at h
    obtain ⟨n, -, entries, -, hnode⟩ := h
    cases hnode

theorem countOnes_le (bm : BitVec 32) : countOnes bm ≤ 32 := by
  have hcount : countOnes bm ≤ (List.finRange 32).length := List.countP_le_length
  simpa using hcount

/-- The child at a slot that is taken. -/
theorem child_mem {kt vt : Ty} {bs : Bytes} {bm : BitVec 32} {cs : List U128}
    (h : deserializeNode kt vt bs = some (.inner bm cs)) {slot : Fin 32} (hslot : ¬ bm &&& bitAt slot = 0#32) :
    cs.getD (rank bm slot) 0 ∈ cs := by
  have hset : bitSet bm slot = true := by
    rw [and_bitAt_eq_zero_iff] at hslot
    simpa using hslot
  have hlt : rank bm slot < cs.length := by
    rw [length_of_inner h]
    exact rank_lt hset
  rw [List.getD_eq_getElem?_getD, List.getElem?_eq_getElem hlt, Option.getD_some]
  exact List.getElem_mem hlt

/-- What is written as a leaf is never read as an inner node. -/
theorem leaf_not_inner (es : List (Value × Value)) (kt vt : Ty) (bm : BitVec 32) (cs : List U128) :
    deserializeNode kt vt (serializeLeaf es) ≠ some (.inner bm cs) := by
  intro h
  have hhead : (serializeLeaf es).head? = some tagLeaf := rfl
  unfold deserializeNode at h
  rw [hhead, if_neg (by decide), if_pos rfl] at h
  simp only [Option.bind_eq_bind, Option.bind_eq_some_iff] at h
  obtain ⟨n, -, entries, -, hnode⟩ := h
  cases hnode

/-- What is written as an inner node is read with its own children, if it is read at all. -/
theorem children_of_serializeInner {bm bm' : BitVec 32} {cs cs' : List U128} (hlen : cs.length < 256)
    {kt vt : Ty} (h : deserializeNode kt vt (serializeInner bm cs) = some (.inner bm' cs')) : cs' = cs := by
  have hn : (BitVec.ofNat 8 cs.length).toNat = cs.length := by
    rw [BitVec.toNat_ofNat, Nat.mod_eq_of_lt hlen]
  have hcount : (serializeInner bm cs)[5]? = some (BitVec.ofNat 8 cs.length) := by
    simp [serializeInner]
  have hch : readChildren (serializeInner bm cs) cs.length 6 = some cs := by
    have := readChildren_append
      (tagInner :: (wordBytes 4 bm ++ [BitVec.ofNat 8 cs.length])) [] cs
    simpa [serializeInner] using this
  have hhead : (serializeInner bm cs).head? = some tagInner := rfl
  rw [deserializeNode, if_pos hhead, hcount] at h
  simp only [Option.bind_eq_bind, Option.bind_some, hn, hch, Option.bind_eq_some_iff] at h
  obtain ⟨bitmap, -, hnode⟩ := h
  split_ifs at hnode
  cases hnode
  rfl

/-! ### Inner nodes on few levels -/

/-- The node at the cell is one of these, and inner nodes stand on at most `n` levels from it on. -/
def Within (K : Set Bytes) : ℕ → U128 → Prop
  | 0, c => ∃ e ∈ K, c = nodeCellKey e ∧ ∀ kt vt bm cs, deserializeNode kt vt e ≠ some (.inner bm cs)
  | n + 1, c => ∃ e ∈ K, c = nodeCellKey e ∧
      ∀ kt vt bm cs, deserializeNode kt vt e = some (.inner bm cs) → ∀ c' ∈ cs, Within K n c'

variable {K K' : Set Bytes} {n : ℕ} {c root : U128}

theorem Within.mono (hK : K ⊆ K') (h : Within K n c) : Within K' n c := by
  induction n generalizing c with
  | zero =>
    obtain ⟨e, he, hc, hleaf⟩ := h
    exact ⟨e, hK he, hc, hleaf⟩
  | succ n ih =>
    obtain ⟨e, he, hc, hkids⟩ := h
    exact ⟨e, hK he, hc, fun kt vt bm cs hnode c' hc' => ih (hkids kt vt bm cs hnode c' hc')⟩

theorem Within.succ (h : Within K n c) : Within K (n + 1) c := by
  induction n generalizing c with
  | zero =>
    obtain ⟨e, he, hc, hleaf⟩ := h
    exact ⟨e, he, hc, fun kt vt bm cs hnode => absurd hnode (hleaf kt vt bm cs)⟩
  | succ n ih =>
    obtain ⟨e, he, hc, hkids⟩ := h
    exact ⟨e, he, hc, fun kt vt bm cs hnode c' hc' => ih (hkids kt vt bm cs hnode c' hc')⟩

/-- The node at such a cell. -/
theorem Within.node (h : Within K n c) : ∃ e ∈ K, c = nodeCellKey e ∧
    ∀ kt vt bm cs, deserializeNode kt vt e = some (.inner bm cs) →
      ∃ m, n = m + 1 ∧ ∀ c' ∈ cs, Within K m c' := by
  cases n with
  | zero =>
    obtain ⟨e, he, hc, hleaf⟩ := h
    exact ⟨e, he, hc, fun kt vt bm cs hnode => absurd hnode (hleaf kt vt bm cs)⟩
  | succ n =>
    obtain ⟨e, he, hc, hkids⟩ := h
    exact ⟨e, he, hc, fun kt vt bm cs hnode => ⟨n, rfl, hkids kt vt bm cs hnode⟩⟩

theorem within_leaf {es : List (Value × Value)} (h : serializeLeaf es ∈ K) (n : ℕ) :
    Within K n (nodeCellKey (serializeLeaf es)) := by
  induction n with
  | zero => exact ⟨_, h, rfl, leaf_not_inner es⟩
  | succ n ih => exact ih.succ

theorem within_inner {bm : BitVec 32} {cs : List U128} (h : serializeInner bm cs ∈ K) (hlen : cs.length < 256)
    (hkids : ∀ c ∈ cs, Within K n c) : Within K (n + 1) (nodeCellKey (serializeInner bm cs)) := by
  refine ⟨_, h, rfl, fun kt vt bm' cs' hnode => ?_⟩
  obtain rfl := children_of_serializeInner hlen hnode
  exact hkids

/-! ### Reading -/

/-- Reading a shown node. -/
theorem readNode_of_shown {tx : Tx} (hshown : Shown K tx) {e : Bytes} (he : e ∈ K)
    (hne : nodeCellKey e ≠ emptyRoot) (kt vt : Ty) :
    ∃ tx', readNode tx (nodeCellKey e) kt vt = (tx', deserializeNode kt vt e) ∧ Reads tx tx' := by
  refine ⟨(tx.fetch (nodeCellKey e)).1, ?_, .single (.read _ _)⟩
  have hread : readNode tx (nodeCellKey e) kt vt =
      ((tx.fetch (nodeCellKey e)).1, (asBytes (tx.fetch (nodeCellKey e)).2).bind (deserializeNode kt vt)) := by
    rw [readNode, if_neg hne]
    rfl
  rw [hread, fetch_of_shows (hshown e he)]
  rfl

theorem Shown.reads {tx tx' : Tx} (h : Shown K tx) (hreads : Reads tx tx') : Shown K tx' :=
  fun e he => hreads.shows (h e he)

/-- What a lookup finds in the nodes that a view shows. -/
def lookup (view : U128 → Option Bytes) (key : Value) (h : U64) (kt vt : Ty) : ℕ → U128 → ℕ → Option Value
  | 0, _, _ => none
  | fuel + 1, c, level =>
    match (view c).bind (deserializeNode kt vt) with
    | none => none
    | some (.leaf entries) => findEntry entries key
    | some (.inner bitmap children) =>
      if bitmap &&& bitAt (bitsAt h level) = 0#32 then none
      else lookup view key h kt vt fuel (children.getD (rank bitmap (bitsAt h level)) 0) (level + 1)

variable {view : U128 → Option Bytes} (key : Value) (h : U64) (kt vt : Ty)

/-- A lookup needs no more fuel than the tree has levels. -/
theorem lookup_fuel (hview : ∀ e ∈ K, view (nodeCellKey e) = some e) (hc : Within K n c) {f f' : ℕ}
    (hf : n < f) (hf' : n < f') (level : ℕ) : lookup view key h kt vt f c level = lookup view key h kt vt f' c level := by
  induction n generalizing c f f' level with
  | zero =>
    obtain ⟨f, rfl⟩ : ∃ m, f = m + 1 := ⟨f - 1, by omega⟩
    obtain ⟨f', rfl⟩ : ∃ m, f' = m + 1 := ⟨f' - 1, by omega⟩
    obtain ⟨e, he, rfl, hleaf⟩ := hc
    rw [lookup, lookup, hview e he, Option.bind_some]
    cases hnode : deserializeNode kt vt e with
    | none => rfl
    | some node =>
      cases node with
      | leaf entries => rfl
      | inner bm cs => exact absurd hnode (hleaf kt vt bm cs)
  | succ n ih =>
    obtain ⟨f, rfl⟩ : ∃ m, f = m + 1 := ⟨f - 1, by omega⟩
    obtain ⟨f', rfl⟩ : ∃ m, f' = m + 1 := ⟨f' - 1, by omega⟩
    obtain ⟨e, he, rfl, hkids⟩ := hc
    rw [lookup, lookup, hview e he, Option.bind_some]
    cases hnode : deserializeNode kt vt e with
    | none => rfl
    | some node =>
      cases node with
      | leaf entries => rfl
      | inner bm cs =>
        dsimp only
        split_ifs with hslot
        · rfl
        · exact ih (hkids kt vt bm cs hnode _ (child_mem hnode hslot)) (by omega) (by omega) _

/-- **A lookup finds what the nodes say.** -/
theorem getAt_eq_lookup {tx : Tx} (hshown : Shown K tx) (hroots : ∀ e ∈ K, nodeCellKey e ≠ emptyRoot)
    (hview : ∀ e ∈ K, view (nodeCellKey e) = some e) (hc : Within K n c) (fuel level : ℕ) :
    (getAt key h kt vt fuel c level tx).2 = lookup view key h kt vt fuel c level := by
  induction fuel generalizing n c level tx with
  | zero => rfl
  | succ fuel ih =>
    obtain ⟨e, he, rfl, hkids⟩ := hc.node
    obtain ⟨tx', hread, hreads⟩ := readNode_of_shown hshown he (hroots e he) kt vt
    rw [getAt, lookup, hread, hview e he, Option.bind_some]
    cases hnode : deserializeNode kt vt e with
    | none => rfl
    | some node =>
      cases node with
      | leaf entries => rfl
      | inner bm cs =>
        obtain ⟨m, -, hwithin⟩ := hkids kt vt bm cs hnode
        dsimp only
        split_ifs with hslot
        · rfl
        · exact ih (hshown.reads hreads) (hwithin _ (child_mem hnode hslot)) _

/-! ### Splitting, insertion and removal -/

section Writes

/-- Writing a leaf. -/
theorem writeNode_leaf_within {tx : Tx} {es : List (Value × Value)}
    (hlog : ∀ e ∈ (writeNode tx (serializeLeaf es)).1.nodeLog, e ∈ K') (n : ℕ) :
    Within K' n (writeNode tx (serializeLeaf es)).2 := by
  rw [writeNode_snd]
  exact within_leaf (hlog _ (by simp)) n

/-- Writing an inner node. -/
theorem writeNode_inner_within {tx : Tx} {bm : BitVec 32} {cs : List U128}
    (hlog : ∀ e ∈ (writeNode tx (serializeInner bm cs)).1.nodeLog, e ∈ K') (hlen : cs.length < 256)
    (hkids : ∀ c ∈ cs, Within K' n c) : Within K' (n + 1) (writeNode tx (serializeInner bm cs)).2 := by
  rw [writeNode_snd]
  exact within_inner (hlog _ (by simp)) hlen hkids

theorem buildChildren_within {build : List (Value × Value) → Tx → Tx × U128}
    (hmono : ∀ es tx, tx.nodeLog ⊆ (build es tx).1.nodeLog)
    (hbuild : ∀ es tx, es ≠ [] → (∀ e ∈ (build es tx).1.nodeLog, e ∈ K') → Within K' n (build es tx).2)
    {groups : List (Fin 32 × List (Value × Value))} (hne : ∀ g ∈ groups, g.2 ≠ [])
    (acc : Tx × BitVec 32 × List U128) (hlog : ∀ e ∈ (buildChildren build groups acc).1.nodeLog, e ∈ K')
    (hacc : ∀ c ∈ acc.2.2, Within K' n c) :
    (∀ c ∈ (buildChildren build groups acc).2.2, Within K' n c) ∧
      (buildChildren build groups acc).2.2.length = acc.2.2.length + groups.length := by
  induction groups generalizing acc with
  | nil => exact ⟨hacc, rfl⟩
  | cons g groups ih =>
    obtain ⟨s, es⟩ := g
    obtain ⟨tx, bm, ch⟩ := acc
    have hhere : ∀ e ∈ (build es tx).1.nodeLog, e ∈ K' := fun e he =>
      hlog e (buildChildren_nodeLog hmono groups ((build es tx).1, bm ||| bitAt s, ch ++ [(build es tx).2]) he)
    have hrest := ih (fun g hg => hne g (List.mem_cons_of_mem _ hg))
      ((build es tx).1, bm ||| bitAt s, ch ++ [(build es tx).2]) hlog (by
        intro c hc
        rcases List.mem_append.mp hc with hc | hc
        · exact hacc c hc
        · rw [List.mem_singleton.mp hc]
          exact hbuild es tx (hne _ List.mem_cons_self) hhere)
    refine ⟨hrest.1, hrest.2.trans ?_⟩
    rw [List.length_append, List.length_singleton, List.length_cons]
    dsimp only
    omega

/-- **A split makes inner nodes down to level `maxLevels` at most.** -/
theorem buildFromEntries_within {fuel level : ℕ} {es : List (Value × Value)} (hes : es ≠ [])
    (hlevel : n + level = maxLevels) (hfuel : n < fuel) {tx : Tx}
    (hlog : ∀ e ∈ (buildFromEntries fuel es level tx).1.nodeLog, e ∈ K') :
    Within K' n (buildFromEntries fuel es level tx).2 := by
  induction fuel generalizing n es level tx with
  | zero => omega
  | succ fuel ih =>
    rw [buildFromEntries, if_neg hes] at hlog ⊢
    split_ifs at hlog ⊢ with hstop
    · exact writeNode_leaf_within hlog n
    · rw [not_or] at hstop
      obtain ⟨n, rfl⟩ : ∃ m, n = m + 1 := ⟨n - 1, by omega⟩
      have hnonempty : ∀ g ∈ bySlot es level, g.2 ≠ [] := fun g hg => (mem_bySlot.mp hg).2
      have hlength : (bySlot es level).length ≤ 32 := by
        have := List.length_filterMap_le (fun s : Fin 32 =>
          if group es level s = [] then none else some (s, group es level s)) (List.finRange 32)
        rw [bySlot_eq]
        simpa using this
      split at hlog
      · next s es' hgroups =>
        have hes' : es' ≠ [] := hnonempty (s, es') (by rw [hgroups]; exact List.mem_cons_self)
        exact (ih hes' (by omega) (by omega) hlog).succ
      · have hkids := @buildChildren_within K' n (fun es tx => buildFromEntries fuel es (level + 1) tx)
          (fun es tx => buildFromEntries_nodeLog fuel es (level + 1) tx)
          (fun es tx hes hlog => ih hes (by omega) (by omega) hlog) _ hnonempty (tx, 0#32, [])
          (fun e he => hlog e (by simp [he])) (fun c hc => by cases hc)
        refine writeNode_inner_within hlog ?_ hkids.1
        rw [hkids.2]
        simp only [List.length_nil]
        omega

/-- **Insertion keeps the inner nodes above level `maxLevels`.** -/
theorem setAt_within (key value : Value) (h : U64) (kt vt : Ty) (hroots : ∀ e ∈ K, nodeCellKey e ≠ emptyRoot)
    (hK : K ⊆ K') {fuel level : ℕ} (hlevel : n + level = maxLevels) {tx : Tx} (hshown : Shown K tx)
    (hc : Within K n c ∨ (c = emptyRoot ∧ 0 < fuel))
    (hlog : ∀ e ∈ (setAt key value h kt vt fuel c level tx).1.nodeLog, e ∈ K') :
    Within K' n (setAt key value h kt vt fuel c level tx).2 := by
  induction fuel generalizing n c level tx with
  | zero => exact (hc.resolve_right fun hc => absurd hc.2 (lt_irrefl 0)).mono hK
  | succ fuel ih =>
    rw [setAt] at hlog ⊢
    by_cases hroot : c = emptyRoot
    · rw [if_pos hroot] at hlog ⊢
      exact writeNode_leaf_within hlog n
    · rw [if_neg hroot] at hlog ⊢
      have hwithin := hc.resolve_right fun hc => hroot hc.1
      obtain ⟨e, he, rfl, hkids⟩ := hwithin.node
      obtain ⟨tx', hread, hreads⟩ := readNode_of_shown hshown he (hroots e he) kt vt
      rw [hread] at hlog ⊢
      rcases hnode : deserializeNode kt vt e with _ | ⟨bm, cs⟩ | es
      · -- a node that cannot be decoded gives way to a leaf
        rw [hnode] at hlog
        exact writeNode_leaf_within hlog n
      · rw [hnode] at hlog
        obtain ⟨m, rfl, hkid⟩ := hkids kt vt bm cs hnode
        have hlen : cs.length ≤ 32 := by
          rw [length_of_inner hnode]
          exact countOnes_le bm
        dsimp only at hlog ⊢
        split_ifs at hlog ⊢ with hslot
        · -- a free slot takes a leaf
          refine writeNode_inner_within hlog ?_ fun c hc => ?_
          · have := @List.length_insertIdx_le_succ _ cs (writeNode tx' (serializeLeaf [(key, value)])).2
              (rank bm (bitsAt h level))
            omega
          · rcases List.eq_or_mem_of_mem_insertIdx hc with rfl | hc
            · refine writeNode_leaf_within (fun e' he' => hlog e' ?_) m
              rw [writeNode_nodeLog]
              exact List.mem_append_left _ he'
            · exact (hkid c hc).mono hK
        · have hmem := child_mem hnode hslot
          refine writeNode_inner_within hlog (by rw [List.length_set]; omega) fun c hc => ?_
          rcases List.mem_or_eq_of_mem_set hc with hc | rfl
          · exact (hkid c hc).mono hK
          · refine ih (by omega) (hshown.reads hreads) (.inl (hkid _ hmem)) fun e' he' => hlog e' ?_
            rw [writeNode_nodeLog]
            exact List.mem_append_left _ he'
      · rw [hnode] at hlog
        dsimp only at hlog ⊢
        split at hlog
        · exact writeNode_leaf_within hlog n
        · split_ifs at hlog ⊢ with hnil hstop
          · exact writeNode_leaf_within hlog n
          · exact writeNode_leaf_within hlog n
          · refine buildFromEntries_within (by simp) hlevel ?_ hlog
            omega

/-- An inner node whose child has been dealt with. -/
theorem removeChild_within {nodeHash : U128} {bm : BitVec 32} {cs : List U128} {slot : Fin 32}
    {r : Tx × U128 × Bool} (hlen : cs.length ≤ 32) (hkids : ∀ c ∈ cs, Within K' n c)
    (hsame : Within K' (n + 1) nodeHash) (hchild : r.2.1 = emptyRoot ∨ Within K' n r.2.1)
    (hlog : ∀ e ∈ (removeChild nodeHash bm cs slot r).1.nodeLog, e ∈ K') :
    (removeChild nodeHash bm cs slot r).2.1 = emptyRoot ∨ Within K' (n + 1) (removeChild nodeHash bm cs slot r).2.1 := by
  rw [removeChild] at hlog ⊢
  split_ifs at hlog ⊢ with hfound hempty hlast
  · exact .inr hsame
  · exact .inl rfl
  · dsimp only at hlog ⊢
    refine .inr (writeNode_inner_within hlog ?_ fun c hc => hkids c (List.mem_of_mem_eraseIdx hc))
    have := List.length_eraseIdx_le cs (rank bm slot)
    omega
  · dsimp only at hlog ⊢
    refine .inr (writeNode_inner_within hlog (by rw [List.length_set]; omega) fun c hc => ?_)
    rcases List.mem_or_eq_of_mem_set hc with hc | rfl
    · exact hkids c hc
    · exact hchild.resolve_left hempty

/-- **Removal keeps the inner nodes above level `maxLevels`.** -/
theorem removeAt_within (key : Value) (h : U64) (kt vt : Ty) (hroots : ∀ e ∈ K, nodeCellKey e ≠ emptyRoot)
    (hK : K ⊆ K') {fuel level : ℕ} {tx : Tx} (hshown : Shown K tx) (hc : Within K n c)
    (hlog : ∀ e ∈ (removeAt key h kt vt fuel c level tx).1.nodeLog, e ∈ K') :
    (removeAt key h kt vt fuel c level tx).2.1 = emptyRoot ∨
      Within K' n (removeAt key h kt vt fuel c level tx).2.1 := by
  induction fuel generalizing n c level tx with
  | zero => exact .inr (hc.mono hK)
  | succ fuel ih =>
    have hsame := hc.mono hK
    obtain ⟨e, he, rfl, hkids⟩ := hc.node
    obtain ⟨tx', hread, hreads⟩ := readNode_of_shown hshown he (hroots e he) kt vt
    rw [removeAt, hread] at hlog ⊢
    rcases hnode : deserializeNode kt vt e with _ | ⟨bm, cs⟩ | es
    · exact .inr hsame
    · rw [hnode] at hlog
      obtain ⟨m, rfl, hkid⟩ := hkids kt vt bm cs hnode
      have hlen : cs.length ≤ 32 := by
        rw [length_of_inner hnode]
        exact countOnes_le bm
      dsimp only at hlog ⊢
      by_cases hslot : bm &&& bitAt (bitsAt h level) = 0#32
      · rw [if_pos hslot]
        exact .inr hsame
      · rw [if_neg hslot] at hlog ⊢
        refine removeChild_within hlen (fun c hc => (hkid c hc).mono hK) hsame
          (ih (hshown.reads hreads) (hkid _ (child_mem hnode hslot)) fun e' he' => hlog e' ?_) hlog
        exact removeChild_log_subset (nodeCellKey e) bm cs (bitsAt h level) _ he'
    · rw [hnode] at hlog
      dsimp only at hlog ⊢
      split at hlog
      · split_ifs at hlog ⊢ with hnil
        · exact .inl rfl
        · dsimp only at hlog ⊢
          exact .inr (writeNode_leaf_within hlog n)
      · exact .inr hsame

end Writes

/-! ### Roots that insertions and removals have built -/

/-- A root that insertions and removals have led to, from the empty one and in any transactions that
show what has been written so far. -/
inductive Built : Set Bytes → U128 → Prop
  | empty (K : Set Bytes) : Built K emptyRoot
  | set {K : Set Bytes} {root : U128} (hroot : Built K root) (tx : Tx) (hshown : Shown K tx)
      (key value : Value) (kt vt : Ty) :
      Built (K ∪ logged (set root key value tx kt vt).1) (set root key value tx kt vt).2
  | remove {K : Set Bytes} {root : U128} (hroot : Built K root) (tx : Tx) (hshown : Shown K tx)
      (key : Value) (kt vt : Ty) :
      Built (K ∪ logged (remove root key tx kt vt).1) (remove root key tx kt vt).2.1
  | mono {K K' : Set Bytes} {root : U128} (hroot : Built K root) (hK : K ⊆ K') : Built K' root

/-- **Inner nodes of a built map stand on the first `maxLevels` levels.** -/
theorem Built.within (h : Built K root) (hroots : ∀ e ∈ K, nodeCellKey e ≠ emptyRoot) :
    root = emptyRoot ∨ Within K maxLevels root := by
  induction h with
  | empty K => exact .inl rfl
  | @set K root _ tx hshown key value kt vt ih =>
    have hroots' : ∀ e ∈ K, nodeCellKey e ≠ emptyRoot := fun e he => hroots e (.inl he)
    refine .inr (setAt_within key value (hashKey key) kt vt hroots' Set.subset_union_left (Nat.add_zero _) hshown ?_
      fun e he => .inr he)
    rcases ih hroots' with rfl | hwithin
    · exact .inr ⟨rfl, by decide⟩
    · exact .inl hwithin
  | @remove K root _ tx hshown key kt vt ih =>
    have hroots' : ∀ e ∈ K, nodeCellKey e ≠ emptyRoot := fun e he => hroots e (.inl he)
    rcases ih hroots' with rfl | hwithin
    · exact .inl (by rw [Pmap.remove, if_pos rfl])
    · by_cases hempty : root = emptyRoot
      · exact .inl (by rw [Pmap.remove, if_pos hempty])
      · have hunion : ∀ e ∈ (Pmap.remove root key tx kt vt).1.nodeLog,
            e ∈ K ∪ logged (Pmap.remove root key tx kt vt).1 := fun e he => .inr he
        generalize hK' : K ∪ logged (Pmap.remove root key tx kt vt).1 = K' at hunion ⊢
        have hsub : K ⊆ K' := hK' ▸ Set.subset_union_left
        rw [Pmap.remove, if_neg hempty] at hunion ⊢
        exact removeAt_within key (hashKey key) kt vt hroots' hsub hshown hwithin hunion
  | mono _ hK ih => exact (ih fun e he => hroots e (hK he)).imp id fun hwithin => hwithin.mono hK

end Rend.Pmap
