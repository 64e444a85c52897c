import Rend.Pmap.Keys

/-!
# The operations refine the trie

On a held trie each operation of the persistent map computes what the abstract trie does: `get` what
`Trie.find` finds, `entries` its listing, `set` the root of `Trie.put` and `remove` that of `Trie.drop`. The
transaction moves by node reads and node writes only, and each node of the new trie is an old node or
has been logged. None of this needs the trie to be well-levelled, or its keys to be told apart.
-/

namespace Rend.Pmap

open Lib Tx

/-! ### Reading a held trie -/

variable {kt vt : Ty}

theorem readNode_leaf {tx : Tx} {es : List (Bytes × Bytes)} (h : Trie.Held tx.shows (.leaf es))
    (hf : Trie.Fits kt vt (.leaf es)) :
    ∃ tx', readNode tx (Trie.hash (.leaf es)) kt vt =
      (tx', some (.leaf (es.map (decEntry kt vt)))) ∧ ReadsIn (Trie.nodes (.leaf es)) tx tx' := by
  rw [← Trie.deserializeNode_enc_leaf hf]
  exact readNode_of_held h (by simp) kt vt

theorem readNode_inner {tx : Tx} {kids : Fin 32 → Trie} (h : Trie.Held tx.shows (.inner kids))
    (kt vt : Ty) :
    ∃ tx', readNode tx (Trie.hash (.inner kids)) kt vt =
      (tx', some (.inner (bits fun s => (kids s).link) (dense fun s => (kids s).link))) ∧
      ReadsIn (Trie.nodes (.inner kids)) tx tx' := by
  rw [← Trie.deserializeNode_enc_inner kt vt kids]
  exact readNode_of_held h (by simp) kt vt

theorem readNode_empty (tx : Tx) (kt vt : Ty) : readNode tx emptyRoot kt vt = (tx, none) := by
  rw [readNode, if_pos rfl]

/-- **Lookup** follows the trie. -/
theorem getAt_eq (key : Value) {T : Trie} {tx : Tx} {fuel L : ℕ} (h : Trie.Held tx.shows T)
    (hf : T.Fits kt vt) (hs : T.Shallow 13 L) (hfuel : 14 ≤ fuel + L) (hL : L ≤ 13) :
    ∃ tx', getAt key (hashKey key) kt vt fuel T.hash L tx = (tx', T.find kt vt key L) ∧
      ReadsIn T.nodes tx tx' := by
  induction T generalizing tx fuel L with
  | empty =>
    obtain ⟨fuel, rfl⟩ : ∃ n, fuel = n + 1 := ⟨fuel - 1, by omega⟩
    refine ⟨tx, ?_, .refl⟩
    simp [getAt, readNode_empty, Trie.find]
  | leaf es =>
    obtain ⟨fuel, rfl⟩ : ∃ n, fuel = n + 1 := ⟨fuel - 1, by omega⟩
    obtain ⟨tx', hread, hsteps⟩ := readNode_leaf h hf
    exact ⟨tx', by rw [getAt, hread, Trie.find], hsteps⟩
  | inner kids ih =>
    obtain ⟨fuel, rfl⟩ : ∃ n, fuel = n + 1 := ⟨fuel - 1, by omega⟩
    obtain ⟨tx₁, hread, hsteps⟩ := readNode_inner h kt vt
    have hfind : Trie.find kt vt key (.inner kids) L =
        Trie.find kt vt key (kids (bitsAt (hashKey key) L)) (L + 1) := rfl
    rw [getAt, hread, hfind]
    dsimp only
    by_cases hkid : kids (bitsAt (hashKey key) L) = .empty
    · rw [if_pos (Trie.and_bitAt_link.2 hkid)]
      exact ⟨tx₁, by simp [hkid, Trie.find], hsteps⟩
    · rw [if_neg (mt Trie.and_bitAt_link.1 hkid), Trie.dense_getD_link hkid]
      have hL' := hs.1
      obtain ⟨tx₂, hget, hsteps₂⟩ := @ih (bitsAt (hashKey key) L) tx₁ fuel (L + 1)
        (hsteps.held (h.kid _)) (hf.2 _) (hs.2 _) (by omega) (by omega)
      exact ⟨tx₂, hget, hsteps.trans (hsteps₂.mono (Trie.nodes_kid _))⟩

theorem get_eq (key : Value) {T : Trie} {tx : Tx} (h : Trie.Held tx.shows T) (hf : T.Fits kt vt)
    (hs : T.Shallow 13 0) :
    ∃ tx', get T.hash key tx kt vt = (tx', T.find kt vt key 0) ∧ ReadsIn T.nodes tx tx' := by
  rw [get]
  split_ifs with hroot
  · obtain rfl := h.hash_ne.1 hroot
    exact ⟨tx, by simp [Trie.find], .refl⟩
  · exact getAt_eq key h hf hs (by simp [depth]) (by omega)

theorem collectChildren_eq {S : Set Bytes} {kids : Fin 32 → Trie} {fuel : ℕ}
    {f : Fin 32 → List (Value × Value)} (hkid : ∀ s tx, Trie.Held tx.shows (kids s) → kids s ≠ .empty →
      ∃ tx', collectEntries kt vt fuel (kids s).hash tx = (tx', f s) ∧ ReadsIn S tx tx')
    (hempty : ∀ s, kids s = .empty → f s = []) (l : List (Fin 32)) (tx : Tx)
    (h : ∀ s, Trie.Held tx.shows (kids s)) :
    ∃ tx', collectChildren (collectEntries kt vt fuel) (l.filterMap fun s => (kids s).link) tx =
      (tx', l.flatMap f) ∧ ReadsIn S tx tx' := by
  induction l generalizing tx with
  | nil => exact ⟨tx, rfl, .refl⟩
  | cons s l ih =>
    by_cases hs : kids s = .empty
    · have hlink : (kids s).link = none := Trie.link_eq_none_iff.2 hs
      rw [List.filterMap_cons_none (f := fun s => (kids s).link) hlink, List.flatMap_cons, hempty s hs,
        List.nil_append]
      exact ih tx h
    · rw [List.filterMap_cons_some (f := fun s => (kids s).link) (Trie.link_of_ne_empty hs),
        List.flatMap_cons]
      obtain ⟨tx₁, hcol, hsteps⟩ := hkid s tx (h s) hs
      obtain ⟨tx₂, hrest, hsteps₂⟩ := ih tx₁ fun s => hsteps.held (h s)
      refine ⟨tx₂, ?_, hsteps.trans hsteps₂⟩
      simp only [collectChildren, hcol, hrest]

/-- **Listing** gives the entries of the trie. -/
theorem collectEntries_eq {T : Trie} {tx : Tx} {fuel L : ℕ} (h : Trie.Held tx.shows T)
    (hf : T.Fits kt vt) (hs : T.Shallow 13 L) (hfuel : 14 ≤ fuel + L) (hL : L ≤ 13) :
    ∃ tx', collectEntries kt vt fuel T.hash tx = (tx', T.entries.map (decEntry kt vt)) ∧
      ReadsIn T.nodes tx tx' := by
  induction T generalizing tx fuel L with
  | empty =>
    obtain ⟨fuel, rfl⟩ : ∃ n, fuel = n + 1 := ⟨fuel - 1, by omega⟩
    exact ⟨tx, by simp [collectEntries, readNode_empty], .refl⟩
  | leaf es =>
    obtain ⟨fuel, rfl⟩ : ∃ n, fuel = n + 1 := ⟨fuel - 1, by omega⟩
    obtain ⟨tx', hread, hsteps⟩ := readNode_leaf h hf
    exact ⟨tx', by rw [collectEntries, hread]; rfl, hsteps⟩
  | inner kids ih =>
    obtain ⟨fuel, rfl⟩ : ∃ n, fuel = n + 1 := ⟨fuel - 1, by omega⟩
    obtain ⟨tx₁, hread, hsteps⟩ := readNode_inner h kt vt
    have hL' := hs.1
    obtain ⟨tx₂, hcol, hsteps₂⟩ := @collectChildren_eq kt vt (Trie.nodes (.inner kids)) kids fuel
      (fun s => (kids s).entries.map (decEntry kt vt))
      (fun s tx hheld _ => by
        obtain ⟨tx', hrun, hreads⟩ := @ih s tx fuel (L + 1) hheld (hf.2 s) (hs.2 s) (by omega) (by omega)
        exact ⟨tx', hrun, hreads.mono (Trie.nodes_kid s)⟩)
      (fun s hs => by simp [hs]) (List.finRange 32) tx₁ fun s => hsteps.held (h.kid s)
    refine ⟨tx₂, ?_, hsteps.trans hsteps₂⟩
    rw [collectEntries, hread, HTree.entries, List.map_flatMap]
    exact hcol

theorem entries_eq {T : Trie} {tx : Tx} (h : Trie.Held tx.shows T) (hf : T.Fits kt vt)
    (hs : T.Shallow 13 0) :
    ∃ tx', entries T.hash tx kt vt = (tx', T.entries.map (decEntry kt vt)) ∧ ReadsIn T.nodes tx tx' := by
  rw [entries]
  split_ifs with hroot
  · obtain rfl := h.hash_ne.1 hroot
    exact ⟨tx, by simp, .refl⟩
  · exact collectEntries_eq h hf hs (by simp [depth]) (by omega)

/-! ### Splitting a leaf -/

/-- Writing a node moves the transaction by one step. -/
theorem writeNode_steps {S : Set Bytes} {tx tx' : Tx} (h : StepsIn S tx tx') (bs : Bytes) :
    StepsIn S tx (writeNode tx' bs).1 :=
  h.tail (.inr ⟨bs, rfl⟩)

/-- Writing a leaf gives its hash. -/
theorem writeNode_leaf {S : Set Bytes} {tx tx' : Tx} (h : StepsIn S tx tx') (es : List (Bytes × Bytes))
    {P : Bytes → Prop} :
    ∃ tx'', writeNode tx' (leafBytes es) = (tx'', Trie.hash (.leaf es)) ∧ StepsIn S tx tx'' ∧
      ∀ e ∈ Trie.encs (.leaf es), P e ∨ e ∈ tx''.nodeLog := by
  refine ⟨(writeNode tx' (leafBytes es)).1, ?_, writeNode_steps h _, ?_⟩
  · rw [Trie.hash_leaf]
    rfl
  · intro e he
    rw [Trie.encs, List.mem_singleton] at he
    rw [writeNode_nodeLog, he]
    exact .inr (List.mem_append_right _ (List.mem_singleton.2 rfl))

/-- Writing an inner node gives its hash. The nodes below it are old or have been logged. -/
theorem writeNode_inner {S : Set Bytes} {tx tx' : Tx} (h : StepsIn S tx tx') {kids : Fin 32 → Trie}
    {P : Bytes → Prop} (hkids : ∀ e, (∃ s, e ∈ (kids s).encs) → P e ∨ e ∈ tx'.nodeLog) :
    ∃ tx'', writeNode tx' (serializeInner (bits fun s => (kids s).link) (dense fun s => (kids s).link)) =
        (tx'', Trie.hash (.inner kids)) ∧ StepsIn S tx tx'' ∧
      ∀ e ∈ Trie.encs (.inner kids), P e ∨ e ∈ tx''.nodeLog := by
  refine ⟨(writeNode tx' (Trie.enc (.inner kids))).1, ?_, writeNode_steps h _, ?_⟩
  · rw [Trie.hash_inner]
    rfl
  · intro e he
    rw [writeNode_nodeLog]
    rcases Trie.mem_encs_inner.1 he with rfl | hs
    · exact .inr (List.mem_append_right _ (List.mem_singleton.2 rfl))
    · exact (hkids e hs).imp_right (List.mem_append_left _)

/-- The entries of one slot. -/
def group (es : List (Value × Value)) (level : ℕ) (s : Fin 32) : List (Value × Value) :=
  es.filter fun e => bitsAt (hashKey e.1) level = s

theorem group_map_encEntry (es : List (Value × Value)) (level : ℕ) (s : Fin 32) :
    (group es level s).map encEntry = (es.map encEntry).filter fun e => slotOf e.1 level = s := by
  rw [List.filter_map]
  rfl

theorem bySlot_eq (es : List (Value × Value)) (level : ℕ) : bySlot es level =
    (List.finRange 32).filterMap fun s =>
      if group es level s = [] then none else some (s, group es level s) := by
  refine List.filterMap_congr fun s _ => ?_
  unfold group
  cases es.filter fun e => bitsAt (hashKey e.1) level = s <;> rfl

theorem mem_bySlot {es : List (Value × Value)} {level : ℕ} {s : Fin 32} {g : List (Value × Value)} :
    (s, g) ∈ bySlot es level ↔ group es level s = g ∧ g ≠ [] := by
  rw [bySlot_eq]
  simp only [List.mem_filterMap, List.mem_finRange, true_and]
  constructor
  · rintro ⟨t, ht⟩
    split_ifs at ht with hnil
    simp only [Option.some.injEq, Prod.mk.injEq] at ht
    obtain ⟨rfl, rfl⟩ := ht
    exact ⟨rfl, hnil⟩
  · rintro ⟨rfl, hg⟩
    exact ⟨s, by rw [if_neg hg]⟩

/-- All entries share one slot exactly when there is one group. -/
theorem bySlot_single {es : List (Value × Value)} {level : ℕ} (hne : es ≠ []) {s : Fin 32}
    (h : ∀ e ∈ es, bitsAt (hashKey e.1) level = s) : bySlot es level = [(s, es)] := by
  have hgroup : ∀ t, group es level t = if t = s then es else [] := by
    intro t
    split_ifs with ht
    · exact List.filter_eq_self.2 fun e he => by simp [h e he, ht]
    · exact List.filter_eq_nil_iff.2 fun e he => by simp [h e he, Ne.symm ht]
  have hfun : (fun t => if group es level t = [] then none else some (t, group es level t)) =
      Function.update (fun _ : Fin 32 => (none : Option (Fin 32 × List (Value × Value)))) s
        (some (s, es)) := by
    funext t
    by_cases ht : t = s
    · subst ht
      simp [hgroup, hne]
    · simp [hgroup, ht]
  have hnone : ∀ l : List (Fin 32),
      l.filterMap (fun _ => (none : Option (Fin 32 × List (Value × Value)))) = [] := by
    intro l
    induction l with
    | nil => rfl
    | cons a l ih => simp
  rw [bySlot_eq, hfun]
  change dense _ = _
  rw [dense_update, below, above, hnone, hnone]
  rfl

theorem exists_slot_of_bySlot {es g : List (Value × Value)} {level : ℕ} {s : Fin 32}
    (h : bySlot es level = [(s, g)]) : ∀ e ∈ es, bitsAt (hashKey e.1) level = s := by
  intro e he
  have hmem : (bitsAt (hashKey e.1) level, group es level (bitsAt (hashKey e.1) level)) ∈
      bySlot es level :=
    mem_bySlot.2 ⟨rfl, List.ne_nil_of_mem (a := e) (by simp [group, he])⟩
  rw [h, List.mem_singleton, Prod.mk.injEq] at hmem
  exact hmem.1

theorem buildChildren_eq {S : Set Bytes} {es : List (Value × Value)} {level : ℕ} {kids : Fin 32 → Trie}
    {build : List (Value × Value) → Tx → Tx × U128}
    (hbuild : ∀ s tx, group es level s ≠ [] → ∃ tx', build (group es level s) tx = (tx', (kids s).hash) ∧
      StepsIn S tx tx' ∧ ∀ e ∈ (kids s).encs, False ∨ e ∈ tx'.nodeLog)
    (hkids : ∀ s, kids s = .empty ↔ group es level s = []) (l : List (Fin 32)) (tx : Tx)
    (bm : BitVec 32) (ch : List U128) :
    ∃ tx', buildChildren build (l.filterMap fun s =>
        if group es level s = [] then none else some (s, group es level s)) (tx, bm, ch) =
      (tx', l.foldl (fun b s => if ((kids s).link).isSome then b ||| bitAt s else b) bm,
        ch ++ l.filterMap fun s => (kids s).link) ∧
      StepsIn S tx tx' ∧ ∀ s ∈ l, ∀ e ∈ (kids s).encs, e ∈ tx'.nodeLog := by
  induction l generalizing tx bm ch with
  | nil => exact ⟨tx, by simp [buildChildren], .refl, by simp⟩
  | cons s l ih =>
    by_cases hs : group es level s = []
    · have hlink : (kids s).link = none := Trie.link_eq_none_iff.2 ((hkids s).2 hs)
      obtain ⟨tx', hrun, hsteps, hlog⟩ := ih tx bm ch
      refine ⟨tx', ?_, hsteps, ?_⟩
      · rw [List.filterMap_cons_none (by rw [if_pos hs]),
          List.filterMap_cons_none (f := fun s => (kids s).link) hlink, List.foldl_cons, hrun]
        simp [hlink]
      · intro t ht
        rcases List.mem_cons.1 ht with rfl | ht
        · simp [(hkids t).2 hs, Trie.encs]
        · exact hlog t ht
    · have hkid : kids s ≠ .empty := mt (hkids s).1 hs
      obtain ⟨tx₁, hb, hsteps₁, hlog₁⟩ := hbuild s tx hs
      obtain ⟨tx', hrun, hsteps, hlog⟩ := ih tx₁ (bm ||| bitAt s) (ch ++ [(kids s).hash])
      refine ⟨tx', ?_, hsteps₁.trans hsteps, ?_⟩
      · rw [List.filterMap_cons_some (by rw [if_neg hs]),
          List.filterMap_cons_some (f := fun s => (kids s).link) (Trie.link_of_ne_empty hkid)]
        simp only [buildChildren, hb]
        rw [hrun, List.foldl_cons, if_pos (Trie.link_isSome_iff.2 hkid)]
        simp
      · intro t ht
        rcases List.mem_cons.1 ht with rfl | ht
        · exact fun e he => hsteps.steps.log_subset ((hlog₁ e he).resolve_left id)
        · exact hlog t ht

theorem build_group_eq_empty_iff {es : List (Value × Value)} {level f L : ℕ} {s : Fin 32} :
    (HTree.build slotOf f L ((group es level s).map encEntry) : Trie) = .empty ↔ group es level s = [] := by
  constructor
  · intro hk
    by_contra hg
    exact HTree.build_ne_empty (by simpa using hg) hk
  · intro hg
    simp [hg]

/-- A batch over several slots gets an inner node. -/
theorem buildFromEntries_fan {fuel : ℕ} {es : List (Value × Value)} {level : ℕ} (tx : Tx)
    (hnil : es ≠ []) (hone : ¬ (es.length = 1 ∨ maxLevels ≤ level))
    (hslot : ¬ ∃ s, ∀ e ∈ es, bitsAt (hashKey e.1) level = s) :
    buildFromEntries (fuel + 1) es level tx =
      let r := buildChildren (fun es tx => buildFromEntries fuel es (level + 1) tx) (bySlot es level)
        (tx, 0#32, [])
      writeNode r.1 (serializeInner r.2.1 r.2.2) := by
  rw [buildFromEntries, if_neg hnil, if_neg hone]
  split
  · next s g heq => exact absurd ⟨s, exists_slot_of_bySlot heq⟩ hslot
  · rfl

/-- **Splitting** builds the trie `HTree.build` and logs all its nodes. -/
theorem buildFromEntries_eq {S : Set Bytes} {fuel : ℕ} {es : List (Value × Value)} {level : ℕ} (tx : Tx)
    (hfuel : maxLevels < fuel + level) (hlevel : level ≤ maxLevels) :
    ∃ tx', buildFromEntries fuel es level tx =
        (tx', Trie.hash (HTree.build slotOf (maxLevels - level) level (es.map encEntry))) ∧
      StepsIn S tx tx' ∧ ∀ e ∈ Trie.encs (HTree.build slotOf (maxLevels - level) level (es.map encEntry)),
        False ∨ e ∈ tx'.nodeLog := by
  induction fuel generalizing es level tx with
  | zero => omega
  | succ fuel ih =>
    by_cases hnil : es = []
    · subst hnil
      exact ⟨tx, by simp [buildFromEntries], .refl, by simp [Trie.encs]⟩
    have hnil' : es.map encEntry ≠ [] := by simpa using hnil
    by_cases hone : es.length = 1 ∨ maxLevels ≤ level
    · have hleaf : HTree.build slotOf (maxLevels - level) level (es.map encEntry) =
          .leaf (sortKeys (es.map encEntry)) := by
        rcases Nat.eq_zero_or_pos (maxLevels - level) with hz | hpos
        · rw [hz, HTree.build, if_neg hnil']
        · obtain ⟨f, hf⟩ : ∃ f, maxLevels - level = f + 1 := ⟨maxLevels - level - 1, by omega⟩
          have hlen : (es.map encEntry).length = 1 := by
            rw [List.length_map]
            omega
          rw [hf, HTree.build, if_neg hnil', if_pos hlen]
      rw [buildFromEntries, if_neg hnil, if_pos hone, hleaf, serializeLeaf_eq]
      exact writeNode_leaf .refl _
    · obtain ⟨hone', hlt⟩ := not_or.1 hone
      have hf : maxLevels - level = (maxLevels - (level + 1)) + 1 := by omega
      have hlen : ¬ (es.map encEntry).length = 1 := by rwa [List.length_map]
      by_cases hslot : ∃ s, ∀ e ∈ es, bitsAt (hashKey e.1) level = s
      · -- one slot: the batch goes down as a whole
        obtain ⟨s, hs⟩ := hslot
        have htree : HTree.build slotOf (maxLevels - level) level (es.map encEntry) =
            HTree.build slotOf (maxLevels - (level + 1)) (level + 1) (es.map encEntry) := by
          rw [hf, HTree.build, if_neg hnil', if_neg hlen, if_pos]
          refine ⟨s, fun e he => ?_⟩
          obtain ⟨a, ha, rfl⟩ := List.mem_map.1 he
          exact hs a ha
        rw [buildFromEntries, if_neg hnil, if_neg hone, bySlot_single hnil hs, htree]
        exact ih tx (by omega) (by omega)
      · have htree : HTree.build slotOf (maxLevels - level) level (es.map encEntry) = .inner fun s =>
            HTree.build slotOf (maxLevels - (level + 1)) (level + 1) ((group es level s).map encEntry) := by
          rw [hf, HTree.build, if_neg hnil', if_neg hlen, if_neg]
          · simp only [group_map_encEntry]
          · rintro ⟨s, hs⟩
            exact hslot ⟨s, fun e he => hs (encEntry e) (List.mem_map_of_mem he)⟩
        obtain ⟨tx', hrun, hsteps, hlog⟩ := @buildChildren_eq S es level
          (fun s => HTree.build slotOf (maxLevels - (level + 1)) (level + 1)
            ((group es level s).map encEntry))
          (fun es tx => buildFromEntries fuel es (level + 1) tx)
          (fun s tx _ => ih tx (by omega) (by omega)) (fun s => build_group_eq_empty_iff)
          (List.finRange 32) tx 0#32 []
        rw [← bySlot_eq, List.nil_append] at hrun
        rw [buildFromEntries_fan tx hnil hone hslot, htree, hrun]
        exact writeNode_inner hsteps fun e he => by
          obtain ⟨s, hs⟩ := he
          exact .inr (hlog s (List.mem_finRange s) e hs)

/-! ### Insertion -/

theorem sortKeys_sortKeys (es : List (Bytes × Bytes)) : sortKeys (sortKeys es) = sortKeys es := by
  have htot : Std.Total (fun a b : Bytes × Bytes => a.1 ≤ b.1) := ⟨fun a b => le_total a.1 b.1⟩
  have htrans : IsTrans (Bytes × Bytes) (fun a b => a.1 ≤ b.1) := ⟨fun _ _ _ hab hbc => le_trans hab hbc⟩
  exact (List.pairwise_insertionSort _ es).insertionSort_eq

/-- A leaf is written in the order of its keys. -/
theorem serializeLeaf_sortEntries (entries : List (Value × Value)) :
    serializeLeaf (sortEntries entries) = leafBytes (sortKeys (entries.map encEntry)) := by
  rw [serializeLeaf_eq, sortEntries_map, sortKeys_sortKeys]

theorem bits_update_some {g : Fin 32 → Option U128} {s : Fin 32} (h : (g s).isSome) (x : U128) :
    bits (Function.update g s (some x)) = bits g := by
  refine bits_congr fun i => ?_
  by_cases hi : i = s
  · subst hi
    simp [h]
  · rw [Function.update_of_ne hi]

/-- **Insertion into a leaf.** -/
theorem setAt_leaf (key value : Value) {es : List (Bytes × Bytes)} {tx : Tx} {fuel L : ℕ}
    (h : Trie.Held tx.shows (.leaf es)) (hf : Trie.Fits kt vt (.leaf es)) :
    ∃ tx', setAt key value (hashKey key) kt vt (fuel + 1) (Trie.hash (.leaf es)) L tx =
        (tx', Trie.hash (Trie.put kt key value (.leaf es) L)) ∧
      StepsIn (Trie.nodes (.leaf es)) tx tx' ∧ ∀ e ∈ Trie.encs (Trie.put kt key value (.leaf es) L),
        e ∈ Trie.encs (.leaf es) ∨ e ∈ tx'.nodeLog := by
  have hroot : Trie.hash (.leaf es) ≠ emptyRoot := (h.root (by simp)).1
  obtain ⟨tx₁, hread, hsteps⟩ := readNode_leaf h hf
  obtain ⟨hne, -, hcodes⟩ := hf
  have hmap : (es.map (decEntry kt vt) ++ [(key, value)]).map encEntry =
      es ++ [(serialize key, serialize value)] := by
    rw [List.map_append, map_encEntry_decEntry hcodes]
    rfl
  rw [setAt, if_neg hroot, hread, Trie.put]
  dsimp only
  rw [findIdx?_map_decEntry]
  cases position kt key es with
  | some idx =>
    -- the entry is replaced in place
    dsimp only
    rw [serializeLeaf_sortEntries, map_encEntry_set hcodes]
    exact writeNode_leaf hsteps.stepsIn _
  | none =>
    dsimp only
    rw [if_neg (by simpa using hne)]
    by_cases hL : maxLevels ≤ L
    · rw [if_pos hL, if_pos hL, serializeLeaf_sortEntries, hmap]
      exact writeNode_leaf hsteps.stepsIn _
    · rw [if_neg hL, if_neg hL]
      obtain ⟨tx', hrun, hsteps', hlog⟩ := @buildFromEntries_eq (Trie.nodes (.leaf es)) (maxLevels + 1)
        (es.map (decEntry kt vt) ++ [(key, value)]) L tx₁ (by omega) (by omega)
      rw [hmap] at hrun hlog
      exact ⟨tx', hrun, hsteps.stepsIn.trans hsteps', fun e he => .inr ((hlog e he).resolve_left id)⟩

theorem encs_update {kids : Fin 32 → Trie} {s : Fin 32} {c : Trie} {tx : Tx}
    (hc : ∀ e ∈ c.encs, e ∈ (kids s).encs ∨ e ∈ tx.nodeLog) (e : Bytes)
    (he : ∃ t, e ∈ (Function.update kids s c t).encs) :
    e ∈ Trie.encs (.inner kids) ∨ e ∈ tx.nodeLog := by
  obtain ⟨t, ht⟩ := he
  by_cases hts : t = s
  · subst hts
    rw [Function.update_self] at ht
    exact (hc e ht).imp_left fun he => Trie.mem_encs_inner.2 (.inr ⟨t, he⟩)
  · rw [Function.update_of_ne hts] at ht
    exact .inl (Trie.mem_encs_inner.2 (.inr ⟨t, ht⟩))

/-- **Insertion** gives the root of `Trie.put`. -/
theorem setAt_eq (key value : Value) {T : Trie} {tx : Tx} {fuel L : ℕ}
    (h : Trie.Held tx.shows T) (hf : T.Fits kt vt) (hs : T.Shallow 13 L) (hfuel : 14 ≤ fuel + L)
    (hL : L ≤ 13) :
    ∃ tx', setAt key value (hashKey key) kt vt fuel T.hash L tx = (tx', Trie.hash (T.put kt key value L)) ∧
      StepsIn T.nodes tx tx' ∧ ∀ e ∈ Trie.encs (T.put kt key value L), e ∈ T.encs ∨ e ∈ tx'.nodeLog := by
  induction T generalizing tx fuel L with
  | empty =>
    obtain ⟨fuel, rfl⟩ : ∃ n, fuel = n + 1 := ⟨fuel - 1, by omega⟩
    rw [Trie.hash_empty, setAt, if_pos rfl, serializeLeaf_eq, Trie.put]
    exact writeNode_leaf .refl _
  | leaf es =>
    obtain ⟨fuel, rfl⟩ : ∃ n, fuel = n + 1 := ⟨fuel - 1, by omega⟩
    exact setAt_leaf key value h hf
  | inner kids ih =>
    obtain ⟨fuel, rfl⟩ : ∃ n, fuel = n + 1 := ⟨fuel - 1, by omega⟩
    have hroot : Trie.hash (.inner kids) ≠ emptyRoot := (h.root (by simp)).1
    obtain ⟨tx₁, hread, hsteps⟩ := readNode_inner h kt vt
    have hslot : bitsAt (hashKey key) L = slotOf (serialize key) L := rfl
    rw [setAt, if_neg hroot, hread, Trie.put]
    dsimp only
    rw [hslot]
    by_cases hkid : kids (slotOf (serialize key) L) = .empty
    · -- a fresh leaf goes into a free slot
      have hnone : (fun s => Trie.link (kids s)) (slotOf (serialize key) L) = none :=
        Trie.link_eq_none_iff.2 hkid
      rw [if_pos (Trie.and_bitAt_link.2 hkid), serializeLeaf_eq, hkid, Trie.put]
      obtain ⟨tx₂, hleaf, hsteps₂, hlog₂⟩ := writeNode_leaf (P := fun _ => False) hsteps.stepsIn
        (sortKeys ([(key, value)].map encEntry))
      rw [hleaf]
      dsimp only
      rw [dense_insert hnone, bits_or_bitAt _ _ (Trie.hash (.leaf (sortKeys ([(key, value)].map encEntry)))),
        ← Trie.link_of_ne_empty (by simp), ← Trie.link_update]
      exact writeNode_inner hsteps₂ (encs_update fun e he =>
        .inr ((hlog₂ e he).resolve_left id))
    · have hsome : ((fun s => Trie.link (kids s)) (slotOf (serialize key) L)).isSome :=
        Trie.link_isSome_iff.2 hkid
      have hL' := hs.1
      rw [if_neg (mt Trie.and_bitAt_link.1 hkid), Trie.dense_getD_link hkid]
      obtain ⟨tx₂, hset, hsteps₂, hlog₂⟩ := @ih (slotOf (serialize key) L) tx₁ fuel (L + 1)
        (hsteps.held (h.kid _)) (hf.2 _) (hs.2 _) (by omega) (by omega)
      rw [hset]
      dsimp only
      rw [dense_set hsome, ← bits_update_some hsome (Trie.hash (Trie.put kt key value
          (kids (slotOf (serialize key) L)) (L + 1))),
        ← Trie.link_of_ne_empty (Trie.put_ne_empty _ _ _ _ _), ← Trie.link_update]
      exact writeNode_inner (hsteps.stepsIn.trans (hsteps₂.mono (Trie.nodes_kid _))) (encs_update hlog₂)

theorem set_eq (key value : Value) {T : Trie} {tx : Tx}
    (h : Trie.Held tx.shows T) (hf : T.Fits kt vt) (hs : T.Shallow 13 0) :
    ∃ tx', set T.hash key value tx kt vt = (tx', Trie.hash (T.put kt key value 0)) ∧
      StepsIn T.nodes tx tx' ∧ ∀ e ∈ Trie.encs (T.put kt key value 0), e ∈ T.encs ∨ e ∈ tx'.nodeLog :=
  setAt_eq key value h hf hs (by simp [depth]) (by omega)

/-! ### Removal -/

/-- What `removeAt` makes of an inner node once its child has been dealt with. -/
def removeChild (nodeHash : U128) (bitmap : BitVec 32) (children : List U128) (slot : Fin 32)
    (r : Tx × U128 × Bool) : Tx × U128 × Bool :=
  if !r.2.2 then (r.1, nodeHash, false)
  else if r.2.1 = emptyRoot then
    if bitmap &&& ~~~bitAt slot = 0#32 then (r.1, emptyRoot, true)
    else
      let w := writeNode r.1 (serializeInner (bitmap &&& ~~~bitAt slot)
        (children.eraseIdx (rank bitmap slot)))
      (w.1, w.2, true)
  else
    let w := writeNode r.1 (serializeInner bitmap (children.set (rank bitmap slot) r.2.1))
    (w.1, w.2, true)

theorem removeChild_log_subset (nodeHash : U128) (bitmap : BitVec 32) (children : List U128)
    (slot : Fin 32) (r : Tx × U128 × Bool) :
    r.1.nodeLog ⊆ (removeChild nodeHash bitmap children slot r).1.nodeLog := by
  rw [removeChild]
  split_ifs <;> simp

theorem removeAt_leaf (key : Value) {es : List (Bytes × Bytes)} {tx : Tx} {fuel L : ℕ}
    (h : Trie.Held tx.shows (.leaf es)) (hf : Trie.Fits kt vt (.leaf es)) :
    ∃ tx', removeAt key (hashKey key) kt vt (fuel + 1) (Trie.hash (.leaf es)) L tx =
        (tx', Trie.hash (Trie.drop kt key (.leaf es) L).1, (Trie.drop kt key (.leaf es) L).2) ∧
      StepsIn (Trie.nodes (.leaf es)) tx tx' ∧ ∀ e ∈ Trie.encs (Trie.drop kt key (.leaf es) L).1,
        e ∈ Trie.encs (.leaf es) ∨ e ∈ tx'.nodeLog := by
  obtain ⟨tx₁, hread, hsteps⟩ := readNode_leaf h hf
  rw [removeAt, hread, Trie.drop]
  dsimp only
  rw [findIdx?_map_decEntry]
  cases position kt key es with
  | some idx =>
    have hmap := map_encEntry_eraseIdx hf.2.2 idx
    have hnil : (es.map (decEntry kt vt)).eraseIdx idx = [] ↔ es.eraseIdx idx = [] := by
      rw [← hmap, List.map_eq_nil_iff]
    dsimp only
    by_cases hempty : es.eraseIdx idx = []
    · rw [if_pos (hnil.2 hempty), if_pos hempty]
      exact ⟨tx₁, rfl, hsteps.stepsIn, by simp [Trie.encs]⟩
    · rw [if_neg (mt hnil.1 hempty), if_neg hempty, serializeLeaf_eq, hmap]
      obtain ⟨tx₂, hw, hsteps₂, hlog⟩ := writeNode_leaf (P := fun e => e ∈ Trie.encs (.leaf es))
        hsteps.stepsIn (sortKeys (es.eraseIdx idx))
      exact ⟨tx₂, by rw [hw], hsteps₂, hlog⟩
  | none => exact ⟨tx₁, rfl, hsteps.stepsIn, fun e he => .inl he⟩

theorem removeChild_eq {S : Set Bytes} {kids : Fin 32 → Trie} {tx tx₂ : Tx} {s : Fin 32} {c : Trie} {found : Bool}
    (hsteps : StepsIn S tx tx₂) (hkid : kids s ≠ .empty) (hne : ∀ e ∈ c.encs, nodeCellKey e ≠ emptyRoot)
    (hlog : ∀ e ∈ c.encs, e ∈ (kids s).encs ∨ e ∈ tx₂.nodeLog) :
    ∃ tx', removeChild (Trie.hash (.inner kids)) (bits fun s => (kids s).link)
        (dense fun s => (kids s).link) s (tx₂, c.hash, found) =
        (tx', Trie.hash (Trie.dropped kids s (c, found)).1, (Trie.dropped kids s (c, found)).2) ∧
      StepsIn S tx tx' ∧ ∀ e ∈ Trie.encs (Trie.dropped kids s (c, found)).1,
        e ∈ Trie.encs (.inner kids) ∨ e ∈ tx'.nodeLog := by
  have hsome : ((fun s => Trie.link (kids s)) s).isSome := Trie.link_isSome_iff.2 hkid
  rw [removeChild, Trie.dropped]
  cases found with
  | false => exact ⟨tx₂, rfl, hsteps, fun e he => .inl he⟩
  | true =>
    simp only [Bool.not_true, Bool.false_eq_true, if_false, if_true]
    by_cases hc : c = .empty
    · -- the child is gone: its bit is cleared
      subst hc
      have hlink : (fun t => Trie.link (Function.update kids s .empty t)) =
          Function.update (fun t => Trie.link (kids t)) s none := Trie.link_update _ _ _
      have hzero : (bits fun t => Trie.link (Function.update kids s .empty t)) = 0#32 ↔
          ∀ t, Function.update kids s .empty t = .empty := by
        rw [bits_eq_zero_iff]
        exact forall_congr' fun t => Trie.link_eq_none_iff
      rw [Trie.hash_empty, if_pos rfl, bits_and_not_bitAt, ← hlink, HTree.node]
      by_cases hall : ∀ t, Function.update kids s .empty t = .empty
      · rw [if_pos (hzero.2 hall), if_pos hall]
        exact ⟨tx₂, rfl, hsteps, by simp [Trie.encs]⟩
      · rw [if_neg (mt hzero.1 hall), if_neg hall, dense_erase hsome, ← hlink]
        obtain ⟨tx', hw, hsteps', hlog'⟩ := writeNode_inner hsteps (encs_update hlog)
        exact ⟨tx', by rw [hw], hsteps', hlog'⟩
    · have hhash : Trie.hash c ≠ emptyRoot := by
        rw [Trie.hash_of_ne_empty hc]
        exact hne _ (Trie.enc_mem_encs hc)
      have hnode : HTree.node (Function.update kids s c) = .inner (Function.update kids s c) := by
        rw [HTree.node, if_neg]
        intro hall
        exact hc (by simpa using hall s)
      rw [if_neg hhash, hnode, dense_set hsome, ← bits_update_some hsome (Trie.hash c),
        ← Trie.link_of_ne_empty hc, ← Trie.link_update]
      obtain ⟨tx', hw, hsteps', hlog'⟩ := writeNode_inner hsteps (encs_update hlog)
      exact ⟨tx', by rw [hw], hsteps', hlog'⟩

/-- **Removal** gives the root of `Trie.drop`, and its flag. -/
theorem removeAt_eq (key : Value) {T : Trie} {tx : Tx} {fuel L : ℕ} (h : Trie.Held tx.shows T)
    (hf : T.Fits kt vt) (hs : T.Shallow 13 L) (hfuel : 14 ≤ fuel + L) (hL : L ≤ 13)
    (hz : ∀ e ∈ (removeAt key (hashKey key) kt vt fuel T.hash L tx).1.nodeLog, nodeCellKey e ≠ emptyRoot) :
    ∃ tx', removeAt key (hashKey key) kt vt fuel T.hash L tx =
        (tx', Trie.hash (T.drop kt key L).1, (T.drop kt key L).2) ∧
      StepsIn T.nodes tx tx' ∧ ∀ e ∈ Trie.encs (T.drop kt key L).1, e ∈ T.encs ∨ e ∈ tx'.nodeLog := by
  induction T generalizing tx fuel L with
  | empty =>
    obtain ⟨fuel, rfl⟩ : ∃ n, fuel = n + 1 := ⟨fuel - 1, by omega⟩
    rw [Trie.hash_empty, removeAt, readNode_empty, Trie.drop]
    exact ⟨tx, rfl, .refl, by simp [Trie.encs]⟩
  | leaf es =>
    obtain ⟨fuel, rfl⟩ : ∃ n, fuel = n + 1 := ⟨fuel - 1, by omega⟩
    exact removeAt_leaf key h hf
  | inner kids ih =>
    obtain ⟨fuel, rfl⟩ : ∃ n, fuel = n + 1 := ⟨fuel - 1, by omega⟩
    obtain ⟨tx₁, hread, hsteps⟩ := readNode_inner h kt vt
    have hslot : bitsAt (hashKey key) L = slotOf (serialize key) L := rfl
    have hL' := hs.1
    rw [removeAt, hread] at hz ⊢
    dsimp only at hz ⊢
    rw [hslot] at hz ⊢
    by_cases hkid : kids (slotOf (serialize key) L) = .empty
    · rw [if_pos (Trie.and_bitAt_link.2 hkid), Trie.drop, hkid, Trie.drop, Trie.dropped, if_neg (by simp)]
      exact ⟨tx₁, rfl, hsteps.stepsIn, fun e he => .inl he⟩
    rw [if_neg (mt Trie.and_bitAt_link.1 hkid), Trie.dense_getD_link hkid] at hz ⊢
    change ∀ e ∈ (removeChild _ _ _ _ _).1.nodeLog, _ at hz
    change ∃ tx', removeChild _ _ _ _ _ = _ ∧ _
    obtain ⟨tx₂, hrem, hsteps₂, hlog₂⟩ := @ih (slotOf (serialize key) L) tx₁ fuel (L + 1)
      (hsteps.held (h.kid _)) (hf.2 _) (hs.2 _) (by omega) (by omega)
      fun e he => hz e (removeChild_log_subset _ _ _ _ _ he)
    rw [hrem]
    have hne : ∀ e ∈ Trie.encs (Trie.drop kt key (kids (slotOf (serialize key) L)) (L + 1)).1,
        nodeCellKey e ≠ emptyRoot := by
      intro e he
      rcases hlog₂ e he with he | he
      · exact ((h.kid _) e he).1
      · rw [hrem] at hz
        exact hz e (removeChild_log_subset _ _ _ _ _ he)
    rw [Trie.drop]
    exact removeChild_eq (hsteps.stepsIn.trans (hsteps₂.mono (Trie.nodes_kid _))) hkid hne hlog₂

theorem remove_eq (key : Value) {T : Trie} {tx : Tx} (h : Trie.Held tx.shows T) (hf : T.Fits kt vt)
    (hs : T.Shallow 13 0) (hz : ∀ e ∈ (remove T.hash key tx kt vt).1.nodeLog, nodeCellKey e ≠ emptyRoot) :
    ∃ tx', remove T.hash key tx kt vt = (tx', Trie.hash (T.drop kt key 0).1, (T.drop kt key 0).2) ∧
      StepsIn T.nodes tx tx' ∧ ∀ e ∈ Trie.encs (T.drop kt key 0).1, e ∈ T.encs ∨ e ∈ tx'.nodeLog := by
  rw [remove] at hz ⊢
  split_ifs at hz ⊢ with hroot
  · obtain rfl := h.hash_ne.1 hroot
    exact ⟨tx, rfl, .refl, by simp [Trie.drop, Trie.encs]⟩
  · exact removeAt_eq key h hf hs (by simp [depth]) (by omega) hz

end Rend.Pmap
