import Rend.Lib.HamtMerge

/-!
# The shape insertions give a trie

Where insertions split leaves cleanly (`HTree.Lands`), the trie they make depends only on where they
started and on what is held in the end, not on their order: `ext c L es` is the trie that grows out
of `c` when it holds `es`. Slots that were free and leaves that got a new key take the shape `canon`:
one leaf for keys that share every slot left, an inner node otherwise.

* `foldl_insert_eq`: insertions into `c` make `ext c L` of what is held in the end.
* `merge_eq_ext_iff`: the merge of two tries grown out of `c` has the shape insertions would have
  given it exactly when the merge is `Tidy`: where it fuses two leaves, one has all keys of the
  other, or their keys share every slot left.
* `merge_eq_iff`: where each key was changed on one side at most, the merge is the trie with all changes exactly
  when it is tidy and `Exact`: where it fuses two leaves, it takes no value of the unchanged side for a changed
  one that is equal to it.
-/

namespace Rend.Lib

open scoped Classical

section Put

variable {K V : Type*} [LinearOrder K]

theorem mem_put {es : List (K × V)} {k : K} {v : V} {e : K × V} :
    e ∈ put es k v ↔ e = (k, v) ∨ (e.1 ≠ k ∧ e ∈ es) := by
  rw [put, mem_sortKeys]
  split_ifs with hk
  · exact mem_replaceKey hk
  · rw [List.mem_append, List.mem_singleton, or_comm]
    refine or_congr_right ⟨fun he => ⟨fun hek => hk ?_, he⟩, And.right⟩
    exact hek ▸ List.mem_map_of_mem he

theorem mem_put_map_fst {es : List (K × V)} {k a : K} {v : V} :
    a ∈ (put es k v).map Prod.fst ↔ a = k ∨ a ∈ es.map Prod.fst := by
  constructor
  · intro ha
    obtain ⟨e, he, rfl⟩ := List.mem_map.1 ha
    rcases mem_put.1 he with rfl | ⟨-, he⟩
    · exact .inl rfl
    · exact .inr (List.mem_map_of_mem he)
  · rintro (rfl | ha)
    · exact List.mem_map.2 ⟨_, mem_put.2 (.inl rfl), rfl⟩
    · by_cases hak : a = k
      · exact hak ▸ List.mem_map.2 ⟨_, mem_put.2 (.inl rfl), rfl⟩
      · obtain ⟨e, he, rfl⟩ := List.mem_map.1 ha
        exact List.mem_map_of_mem (mem_put.2 (.inr ⟨hak, he⟩))

omit [LinearOrder K] in
theorem nodup_append_new {es : List (K × V)} {k : K} (hes : (es.map Prod.fst).Nodup)
    (hk : k ∉ es.map Prod.fst) (v : V) : ((es ++ [(k, v)]).map Prod.fst).Nodup := by
  rw [List.map_append, List.nodup_append]
  refine ⟨hes, by simp, ?_⟩
  intro a ha b hb hab
  rw [List.map_singleton, List.mem_singleton] at hb
  exact hk (hb ▸ hab ▸ ha : (k, v).1 ∈ es.map Prod.fst)

theorem SortedKeys.put {es : List (K × V)} (h : SortedKeys es) (k : K) (v : V) :
    SortedKeys (put es k v) := by
  refine sortedKeys_sortKeys ?_
  split_ifs with hk
  · rw [replaceKey_map_fst]
    exact h.nodup
  · exact nodup_append_new h.nodup hk v

theorem put_filter_of_pos {es : List (K × V)} (h : SortedKeys es) {k : K} {v : V} {p : K → Bool}
    (hp : p k = true) : (put es k v).filter (fun e => p e.1) = put (es.filter fun e => p e.1) k v := by
  refine ((h.put k v).filter _).ext ((h.filter _).put k v) fun e => ?_
  rw [List.mem_filter, mem_put, mem_put, List.mem_filter]
  constructor
  · rintro ⟨rfl | ⟨hne, he⟩, hpe⟩
    · exact .inl rfl
    · exact .inr ⟨hne, he, hpe⟩
  · rintro (rfl | ⟨hne, he, hpe⟩)
    · exact ⟨.inl rfl, hp⟩
    · exact ⟨.inr ⟨hne, he⟩, hpe⟩

theorem put_filter_of_neg {es : List (K × V)} (h : SortedKeys es) {k : K} {v : V} {p : K → Bool}
    (hp : p k = false) : (put es k v).filter (fun e => p e.1) = es.filter fun e => p e.1 := by
  refine ((h.put k v).filter _).ext (h.filter _) fun e => ?_
  rw [List.mem_filter, mem_put, List.mem_filter]
  constructor
  · rintro ⟨rfl | ⟨-, he⟩, hpe⟩
    · rw [hp] at hpe
      cases hpe
    · exact ⟨he, hpe⟩
  · rintro ⟨he, hpe⟩
    refine ⟨.inr ⟨fun hek => ?_, he⟩, hpe⟩
    rw [hek, hp] at hpe
    cases hpe

/-- Two sorted lists with the same keys list them alike. -/
theorem SortedKeys.map_fst_eq {es es' : List (K × V)} (h : SortedKeys es) (h' : SortedKeys es')
    (hk : ∀ k, k ∈ es.map Prod.fst ↔ k ∈ es'.map Prod.fst) : es.map Prod.fst = es'.map Prod.fst := by
  have hs : ∀ {l : List (K × V)}, SortedKeys l → (l.map Prod.fst).Pairwise (· < ·) := fun hl =>
    List.pairwise_map.2 hl
  exact List.Pairwise.eq_of_mem_iff (hs h) (hs h') fun k => hk k

end Put

namespace HTree

variable {K V : Type*} {w : ℕ} [LinearOrder K] (slot : K → ℕ → Fin w)

/-- The shape of fresh entries at level `L`, with `f` levels left below it. -/
noncomputable def canon : ℕ → ℕ → List (K × V) → HTree K V w
  | 0, _, es => leafOf es
  | f + 1, L, es =>
    if ∀ a ∈ es.map Prod.fst, ∀ b ∈ es.map Prod.fst, Agree slot (L + (f + 1)) L a b then leafOf es
    else inner fun s => canon f (L + 1) (es.filter fun e => slot e.1 L = s)

/-- The trie at level `L` that grows out of another when it holds `es`: inner nodes stay, a leaf that
got a new key and a free slot take the shape of fresh entries. -/
noncomputable def ext (D : ℕ) : HTree K V w → ℕ → List (K × V) → HTree K V w
  | empty, L, es => canon slot (D - L) L es
  | leaf es₀, L, es => if es.map Prod.fst = es₀.map Prod.fst then leaf es else canon slot (D - L) L es
  | inner kids, L, es => inner fun s => (kids s).ext D (L + 1) (es.filter fun e => slot e.1 L = s)

variable {slot} {H D L : ℕ} {r : V → V → Prop}

omit [LinearOrder K] in
@[simp] theorem canon_nil (f L : ℕ) : canon slot f L ([] : List (K × V)) = empty := by
  cases f <;> simp [canon, leafOf]

omit [LinearOrder K] in
theorem mem_entries_canon {f L : ℕ} {es : List (K × V)} {e : K × V} :
    e ∈ (canon slot f L es).entries ↔ e ∈ es := by
  induction f generalizing L es with
  | zero => exact mem_leafOf
  | succ f ih =>
    rw [canon]
    split_ifs
    · exact mem_leafOf
    · simp [ih]

omit [LinearOrder K] in
theorem canon_eq_leaf_iff {es : List (K × V)} (hne : es ≠ []) :
    canon slot (D - L) L es = leaf es ↔
      ∀ a ∈ es.map Prod.fst, ∀ b ∈ es.map Prod.fst, Agree slot D L a b := by
  cases hf : D - L with
  | zero =>
    rw [canon, leafOf_of_ne_nil hne]
    exact iff_of_true rfl fun a _ b _ l hl hL => by omega
  | succ f =>
    have hD : L + (f + 1) = D := by omega
    rw [canon, hD, leafOf_of_ne_nil hne]
    split_ifs with h
    · exact iff_of_true rfl h
    · exact iff_of_false (by simp) h

/-- A batch that splits takes the shape of fresh entries. -/
theorem build_eq_canon {f L : ℕ} {es : List (K × V)} (hnd : (es.map Prod.fst).Nodup)
    (hs : Splits slot f L (es.map Prod.fst)) : build slot f L es = canon slot f L (sortKeys es) := by
  have hkeys : ∀ {l : List (K × V)} {a : K}, a ∈ (sortKeys l).map Prod.fst ↔ a ∈ l.map Prod.fst :=
    fun {l} {a} => ((sortKeys_perm l).map Prod.fst).mem_iff
  induction f generalizing L es with
  | zero =>
    rw [build, canon]
    split_ifs with h
    · simp [h, sortKeys, leafOf]
    · rw [leafOf_of_ne_nil (sortKeys_ne_nil.2 h)]
  | succ f ih =>
    by_cases hnil : es = []
    · simp [hnil, sortKeys]
    have hleaf : (∀ a ∈ es.map Prod.fst, ∀ b ∈ es.map Prod.fst, Agree slot (L + (f + 1)) L a b) →
        canon slot (f + 1) L (sortKeys es) = leaf (sortKeys es) := by
      intro hagree
      rw [canon, if_pos fun a ha b hb => hagree a (hkeys.1 ha) b (hkeys.1 hb),
        leafOf_of_ne_nil (sortKeys_ne_nil.2 hnil)]
    rcases hs with hlen | hagree | ⟨hfan, hparts⟩
    · have hone : es.length = 1 := by
        have : es.length ≠ 0 := by simpa using hnil
        rw [List.length_map] at hlen
        omega
      obtain ⟨e, rfl⟩ := List.length_eq_one_iff.1 hone
      rw [build, if_neg hnil, if_pos hone, hleaf]
      intro a ha b hb l _ _
      rw [List.mem_singleton.1 ha, List.mem_singleton.1 hb]
    · rw [build_of_agree hnil hagree, hleaf hagree]
    · have hfan' : ¬ ∃ s, ∀ e ∈ es, slot e.1 L = s := by
        rintro ⟨s, hs⟩
        refine hfan ⟨s, fun a ha => ?_⟩
        obtain ⟨e, he, rfl⟩ := List.mem_map.1 ha
        exact hs e he
      have hone : ¬ es.length = 1 := by
        intro hone
        obtain ⟨e, rfl⟩ := List.length_eq_one_iff.1 hone
        exact hfan' ⟨slot e.1 L, by simp⟩
      have hdis : ¬ ∀ a ∈ (sortKeys es).map Prod.fst, ∀ b ∈ (sortKeys es).map Prod.fst,
          Agree slot (L + (f + 1)) L a b := by
        intro hagree
        obtain ⟨e, he⟩ := List.exists_mem_of_ne_nil es hnil
        refine hfan' ⟨slot e.1 L, fun e' he' => ?_⟩
        exact hagree _ (hkeys.2 (List.mem_map_of_mem he')) _ (hkeys.2 (List.mem_map_of_mem he)) L
          (by omega) le_rfl
      rw [build, if_neg hnil, if_neg hone, if_neg hfan', canon, if_neg hdis]
      congr 1
      funext s
      have hfilter := hparts s
      rw [List.filter_map] at hfilter
      have hnd' : ((es.filter fun e => slot e.1 L = s).map Prod.fst).Nodup :=
        hnd.sublist (List.filter_sublist.map _)
      rw [ih hnd' hfilter]
      congr 1
      refine (sortedKeys_sortKeys hnd').ext ((sortedKeys_sortKeys hnd).filter _) fun e => ?_
      simp only [mem_sortKeys, List.mem_filter]

/-! ### Insertions keep the shape -/

/-- A new key put into a leaf gives its entries the shape of fresh ones. -/
theorem insert_leaf_eq_canon {es : List (K × V)} (hes : SortedKeys es) {k : K} (v : V)
    (hk : k ∉ es.map Prod.fst) (hl : (leaf es : HTree K V w).Lands slot D L k) :
    (leaf es).insert slot D L k v = canon slot (D - L) L (put es k v) := by
  rw [insert, if_neg hk, put, if_neg hk]
  split_ifs with hD
  · rw [Nat.sub_eq_zero_of_le hD, canon, leafOf_of_ne_nil (sortKeys_ne_nil.2 (by simp))]
  · refine build_eq_canon (nodup_append_new hes.nodup hk v) ?_
    have hsplits := (hl.resolve_left hk).resolve_left hD
    simpa using hsplits

theorem insert_leaf_of_mem {es : List (K × V)} {k : K} (v : V) (hk : k ∈ es.map Prod.fst) :
    (leaf es : HTree K V w).insert slot D L k v = leaf (put es k v) := by
  rw [insert, if_pos hk, put, if_pos hk]

theorem put_ne_nil (es : List (K × V)) (k : K) (v : V) : put es k v ≠ [] :=
  List.ne_nil_of_mem (mem_put.2 (.inl rfl))

/-- Entries that fit one leaf. -/
theorem insert_leafOf {es : List (K × V)} (hes : SortedKeys es) {k : K} (v : V)
    (hagree : ∀ a ∈ es.map Prod.fst, ∀ b ∈ es.map Prod.fst, Agree slot D L a b)
    (hl : (leafOf es : HTree K V w).Lands slot D L k) :
    (leafOf es : HTree K V w).insert slot D L k v = canon slot (D - L) L (put es k v) := by
  by_cases hnil : es = []
  · subst hnil
    have hput : put ([] : List (K × V)) k v = [(k, v)] := by simp [put, sortKeys]
    rw [leafOf, insert, hput, eq_comm, canon_eq_leaf_iff (by simp)]
    intro a ha b hb l _ _
    rw [List.mem_singleton.1 ha, List.mem_singleton.1 hb]
  · rw [leafOf_of_ne_nil hnil] at hl ⊢
    by_cases hk : k ∈ es.map Prod.fst
    · rw [insert_leaf_of_mem v hk, eq_comm, canon_eq_leaf_iff (put_ne_nil es k v)]
      have hsub : ∀ a, a ∈ (put es k v).map Prod.fst → a ∈ es.map Prod.fst := fun a ha =>
        (mem_put_map_fst.1 ha).elim (fun h => h ▸ hk) id
      exact fun a ha b hb => hagree a (hsub a ha) b (hsub b hb)
    · exact insert_leaf_eq_canon hes v hk hl

theorem insert_canon {es : List (K × V)} (hes : SortedKeys es) {k : K} (v : V) {f : ℕ} (hf : D - L = f)
    (hl : (canon slot f L es).Lands slot D L k) :
    (canon slot f L es).insert slot D L k v = canon slot f L (put es k v) := by
  induction f generalizing L es with
  | zero =>
    have hleaf := insert_leafOf hes v (fun a _ b _ l hl hL => by omega) hl
    rwa [hf] at hleaf
  | succ f ih =>
    have hD : L + (f + 1) = D := by omega
    rw [canon, hD] at hl ⊢
    split_ifs at hl ⊢ with hagree
    · have hleaf := insert_leafOf hes v hagree hl
      rwa [hf] at hleaf
    · have hdis : ¬ ∀ a ∈ (put es k v).map Prod.fst, ∀ b ∈ (put es k v).map Prod.fst,
          Agree slot D L a b := fun h => hagree fun a ha b hb =>
        h a (mem_put_map_fst.2 (.inr ha)) b (mem_put_map_fst.2 (.inr hb))
      rw [canon, hD, if_neg hdis, insert]
      congr 1
      funext s
      by_cases hs : s = slot k L
      · subst hs
        rw [Function.update_self, put_filter_of_pos hes (p := fun a => slot a L = slot k L) (by simp)]
        exact ih (hes.filter _) (by omega) hl
      · rw [Function.update_of_ne hs, put_filter_of_neg hes (p := fun a => slot a L = s)
          (by simpa using Ne.symm hs)]

/-- **Insertion keeps the shape** of a trie grown out of `c`. -/
theorem insert_ext {c : HTree K V w} (hc : c.WF slot H L) {es : List (K × V)} (hes : SortedKeys es)
    (hsub : ∀ k, c.Has k → k ∈ es.map Prod.fst) {k : K} (v : V)
    (hl : (c.ext slot D L es).Lands slot D L k) :
    (c.ext slot D L es).insert slot D L k v = c.ext slot D L (put es k v) := by
  induction c generalizing L es with
  | empty => exact insert_canon hes v rfl hl
  | leaf es₀ =>
    rw [ext] at hl ⊢
    split_ifs at hl with hkeys
    · rw [if_pos hkeys]
      by_cases hk : k ∈ es.map Prod.fst
      · have hput : (put es k v).map Prod.fst = es₀.map Prod.fst := by
          rw [← hkeys]
          refine (hes.put k v).map_fst_eq hes fun a => ?_
          rw [mem_put_map_fst]
          exact ⟨fun h => h.elim (fun h => h ▸ hk) id, .inr⟩
        rw [insert_leaf_of_mem v hk, ext, if_pos hput]
      · have hput : ¬ (put es k v).map Prod.fst = es₀.map Prod.fst := by
          intro h
          rw [← hkeys] at h
          exact hk (h ▸ mem_put_map_fst.2 (.inl rfl))
        rw [insert_leaf_eq_canon hes v hk hl, ext, if_neg hput]
    · have hput : ¬ (put es k v).map Prod.fst = es₀.map Prod.fst := by
        intro h
        refine hkeys (hes.map_fst_eq hc.2 fun a => ⟨fun ha => ?_, fun ha => ?_⟩)
        · exact h ▸ mem_put_map_fst.2 (.inr ha)
        · obtain ⟨e, he, rfl⟩ := List.mem_map.1 ha
          exact hsub e.1 ⟨e.2, he⟩
      rw [if_neg hkeys, insert_canon hes v rfl hl, ext, if_neg hput]
  | inner kids ih =>
    rw [ext] at hl
    rw [ext, ext, insert]
    congr 1
    funext s
    by_cases hs : s = slot k L
    · subst hs
      rw [Function.update_self, put_filter_of_pos hes (p := fun a => slot a L = slot k L) (by simp)]
      refine ih _ (hc.2.2 _).1 (hes.filter _) (fun a ha => ?_) hl
      obtain ⟨v', hv'⟩ := ha
      obtain ⟨e, he, rfl⟩ := List.mem_map.1 (hsub a ⟨v', mem_entries_inner.2 ⟨_, hv'⟩⟩)
      refine List.mem_map_of_mem (List.mem_filter.2 ⟨he, ?_⟩)
      simpa using (hc.2.2 _).2 _ hv'
    · rw [Function.update_of_ne hs, put_filter_of_neg hes (p := fun a => slot a L = s)
        (by simpa using Ne.symm hs)]

theorem mem_entries_ext {c : HTree K V w} {es : List (K × V)} {e : K × V} :
    e ∈ (c.ext slot D L es).entries ↔ e ∈ es := by
  induction c generalizing L es with
  | empty => exact mem_entries_canon
  | leaf es₀ =>
    rw [ext]
    split_ifs
    · rfl
    · exact mem_entries_canon
  | inner kids ih => simp [ext, ih]

/-- The entries a well-levelled trie holds, in the order of their keys. -/
theorem WF.sorted_entries {T : HTree K V w} (h : T.WF slot H L) : SortedKeys (sortKeys T.entries) :=
  sortedKeys_sortKeys h.nodup

theorem sorted_filter_entries {kids : Fin w → HTree K V w} (h : (inner kids).WF slot H L) (s : Fin w) :
    (sortKeys (inner kids).entries).filter (fun e => slot e.1 L = s) = sortKeys (kids s).entries := by
  refine (h.sorted_entries.filter _).ext (h.2.2 s).1.sorted_entries fun e => ?_
  simp only [List.mem_filter, mem_sortKeys, mem_entries_inner, decide_eq_true_eq]
  constructor
  · rintro ⟨⟨t, ht⟩, hs⟩
    rwa [← hs, (h.2.2 t).2 e ht]
  · exact fun he => ⟨⟨s, he⟩, (h.2.2 s).2 e he⟩

/-- A trie grows out of itself. -/
theorem ext_self {c : HTree K V w} (hc : c.WF slot H L) : c.ext slot D L (sortKeys c.entries) = c := by
  induction c generalizing L with
  | empty => simp [ext, sortKeys]
  | leaf es => rw [entries_leaf, hc.2.sortKeys_eq, ext, if_pos rfl]
  | inner kids ih =>
    rw [ext]
    congr 1
    funext s
    rw [sorted_filter_entries hc s]
    exact ih s (hc.2.2 s).1

/-- Each of these insertions lands well, one after the other. -/
def AllLand (slot : K → ℕ → Fin w) (D : ℕ) : HTree K V w → List (K × V) → Prop
  | _, [] => True
  | T, e :: es => T.Lands slot D 0 e.1 ∧ AllLand slot D (T.insert slot D 0 e.1 e.2) es

/-- **Insertions into `c`** make the trie that grows out of `c`, whatever their order. -/
theorem foldl_insert_eq {c : HTree K V w} (hc : c.WF slot H 0) {es : List (K × V)} (hes : SortedKeys es)
    (hsub : ∀ k, c.Has k → k ∈ es.map Prod.fst) {edits : List (K × V)}
    (hl : AllLand slot D (c.ext slot D 0 es) edits) :
    edits.foldl (fun T e => T.insert slot D 0 e.1 e.2) (c.ext slot D 0 es) =
      c.ext slot D 0 (edits.foldl (fun es e => put es e.1 e.2) es) := by
  induction edits generalizing es with
  | nil => rfl
  | cons e edits ih =>
    have hstep := insert_ext hc hes hsub e.2 hl.1
    rw [List.foldl_cons, List.foldl_cons, hstep]
    refine ih (hes.put e.1 e.2) (fun k hk => mem_put_map_fst.2 (.inr (hsub k hk))) ?_
    rw [← hstep]
    exact hl.2

/-! ### Merging tries grown out of the base -/

/-- Wherever the merge fuses two leaves, one has all keys of the other, or their keys share every
slot left. -/
def Tidy (slot : K → ℕ → Fin w) (D : ℕ) : HTree K V w → HTree K V w → HTree K V w → ℕ → Prop
  | leaf ea, leaf eb, c, L => Apart (leaf ea) (leaf eb) c →
      ea.map Prod.fst ⊆ eb.map Prod.fst ∨ eb.map Prod.fst ⊆ ea.map Prod.fst ∨
      ∀ k ∈ ea.map Prod.fst ++ eb.map Prod.fst, ∀ k' ∈ ea.map Prod.fst ++ eb.map Prod.fst,
        Agree slot D L k k'
  | inner ka, inner kb, c, L => Apart (inner ka) (inner kb) c →
      ∀ s, Tidy slot D (ka s) (kb s) (c.kid s) (L + 1)
  | _, _, _, _ => True

omit [LinearOrder K] in
theorem tidy_of_not_apart {a b c : HTree K V w} (h : ¬ Apart a b c) : Tidy slot D a b c L := by
  cases a <;> cases b <;> simp [Tidy, h]

/-- The children of an inner node grown out of `c`. -/
theorem ext_eq_inner {c : HTree K V w} {es : List (K × V)} {kids : Fin w → HTree K V w}
    (h : c.ext slot D L es = inner kids) :
    kids = fun s => (c.kid s).ext slot D (L + 1) (es.filter fun e => slot e.1 L = s) := by
  have hcanon : ∀ {f}, D - L = f → canon slot f L es = inner kids →
      kids = fun s => (empty : HTree K V w).ext slot D (L + 1) (es.filter fun e => slot e.1 L = s) := by
    intro f hf hk
    cases f with
    | zero => cases es <;> simp [canon, leafOf] at hk
    | succ f =>
      rw [canon] at hk
      split_ifs at hk
      · cases es <;> simp [leafOf] at hk
      · rw [inner.injEq] at hk
        funext s
        rw [← hk, ext, show D - (L + 1) = f by omega]
  cases c with
  | empty => exact hcanon rfl h
  | leaf es₀ =>
    rw [ext] at h
    split_ifs at h
    exact hcanon rfl h
  | inner kc =>
    rw [ext, inner.injEq] at h
    exact h.symm

/-- An inner node stays one when more keys are held. -/
theorem ext_inner_of_subset {c : HTree K V w} (hc : c.WF slot H L) {es es' : List (K × V)}
    (hes : SortedKeys es) {kids : Fin w → HTree K V w} (h : c.ext slot D L es = inner kids)
    (hcov : ∀ k, c.Has k → k ∈ es.map Prod.fst) (hsub : es.map Prod.fst ⊆ es'.map Prod.fst) :
    c.ext slot D L es' =
      inner fun s => (c.kid s).ext slot D (L + 1) (es'.filter fun e => slot e.1 L = s) := by
  have hcanon : ∀ {f}, D - L = f → canon slot f L es = inner kids → canon slot f L es' =
      inner fun s => (empty : HTree K V w).ext slot D (L + 1) (es'.filter fun e => slot e.1 L = s) := by
    intro f hf hk
    cases f with
    | zero => cases es <;> simp [canon, leafOf] at hk
    | succ f =>
      rw [canon] at hk ⊢
      split_ifs at hk with hagree
      · cases es <;> simp [leafOf] at hk
      · rw [if_neg fun h => hagree fun a ha b hb => h a (hsub ha) b (hsub hb)]
        simp only [ext, show D - (L + 1) = f by omega]
  cases c with
  | empty => exact hcanon rfl h
  | leaf es₀ =>
    rw [ext] at h ⊢
    split_ifs at h with hkeys
    rw [if_neg fun hkeys' => hkeys (hes.map_fst_eq hc.2 fun a => ⟨fun ha => ?_, fun ha => ?_⟩)]
    · exact hcanon rfl h
    · exact hkeys' ▸ hsub ha
    · obtain ⟨e, he, rfl⟩ := List.mem_map.1 ha
      exact hcov e.1 ⟨e.2, he⟩
  | inner kc => rw [ext]; rfl

/-- When what grows out of `c` is one leaf. -/
theorem ext_eq_leaf_iff {c : HTree K V w} {es₁ : List (K × V)} {ea : List (K × V)}
    (h : c.ext slot D L es₁ = leaf ea) {es : List (K × V)} (hne : es ≠ []) :
    c.ext slot D L es = leaf es ↔ es.map Prod.fst = c.leafEntries.map Prod.fst ∨
      ∀ a ∈ es.map Prod.fst, ∀ b ∈ es.map Prod.fst, Agree slot D L a b := by
  cases c with
  | empty =>
    rw [ext, canon_eq_leaf_iff hne]
    simp [leafEntries, hne]
  | leaf es₀ =>
    rw [ext, leafEntries]
    split_ifs with hkeys
    · exact iff_of_true rfl (.inl hkeys)
    · rw [canon_eq_leaf_iff hne, or_iff_right hkeys]
  | inner kc =>
    rw [ext] at h
    cases h

/-- Three tries, two grown out of the third. -/
structure Grown (slot : K → ℕ → Fin w) (D H L : ℕ) (a b c : HTree K V w) (ea eb : List (K × V)) :
    Prop where
  wfa : a.WF slot H L
  wfb : b.WF slot H L
  wfc : c.WF slot H L
  sorteda : SortedKeys ea
  sortedb : SortedKeys eb
  eqa : c.ext slot D L ea = a
  eqb : c.ext slot D L eb = b
  suba : ∀ k, c.Has k → k ∈ ea.map Prod.fst
  subb : ∀ k, c.Has k → k ∈ eb.map Prod.fst

omit [LinearOrder K] in
theorem has_kid {c : HTree K V w} {s : Fin w} {k : K} (h : (c.kid s).Has k) : c.Has k := by
  obtain ⟨v, hv⟩ := h
  cases c with
  | inner kc => exact ⟨v, mem_entries_inner.2 ⟨s, hv⟩⟩
  | _ => simp [kid] at hv

omit [LinearOrder K] in
theorem mem_filter_map_fst {es : List (K × V)} {s : Fin w} {k : K} (hk : k ∈ es.map Prod.fst)
    (hs : slot k L = s) : k ∈ (es.filter fun e => slot e.1 L = s).map Prod.fst := by
  obtain ⟨e, he, rfl⟩ := List.mem_map.1 hk
  exact List.mem_map_of_mem (List.mem_filter.2 ⟨he, by simpa using hs⟩)

/-- The children at a slot are again grown. -/
theorem Grown.kid {ka kb : Fin w → HTree K V w} {c : HTree K V w} {ea eb : List (K × V)}
    (h : Grown slot D H L (inner ka) (inner kb) c ea eb) (s : Fin w) :
    Grown slot D H (L + 1) (ka s) (kb s) (c.kid s) (ea.filter fun e => slot e.1 L = s)
      (eb.filter fun e => slot e.1 L = s) := by
  have hroute : ∀ k, (c.kid s).Has k → slot k L = s := by
    rintro k ⟨v, hv⟩
    exact (h.wfc.kid s).2 _ hv
  refine ⟨(h.wfa.2.2 s).1, (h.wfb.2.2 s).1, (h.wfc.kid s).1, h.sorteda.filter _, h.sortedb.filter _,
    ?_, ?_, fun k hk => ?_, fun k hk => ?_⟩
  · exact (congrFun (ext_eq_inner h.eqa) s).symm
  · exact (congrFun (ext_eq_inner h.eqb) s).symm
  · exact mem_filter_map_fst (h.suba k (has_kid hk)) (hroute k hk)
  · exact mem_filter_map_fst (h.subb k (has_kid hk)) (hroute k hk)

theorem Grown.entries_left {a b c : HTree K V w} {ea eb : List (K × V)}
    (h : Grown slot D H L a b c ea eb) : sortKeys a.entries = ea :=
  h.wfa.sorted_entries.ext h.sorteda fun e => by rw [mem_sortKeys, ← h.eqa, mem_entries_ext]

theorem Grown.symm {a b c : HTree K V w} {ea eb : List (K × V)} (h : Grown slot D H L a b c ea eb) :
    Grown slot D H L b a c eb ea :=
  ⟨h.wfb, h.wfa, h.wfc, h.sortedb, h.sorteda, h.eqb, h.eqa, h.subb, h.suba⟩

theorem Grown.has_left {a b c : HTree K V w} {ea eb : List (K × V)} (h : Grown slot D H L a b c ea eb)
    {k : K} : a.Has k ↔ k ∈ ea.map Prod.fst := by
  simp only [Has, ← h.eqa, mem_entries_ext, List.mem_map, Prod.exists, exists_and_right, exists_eq_right]

/-- Tries grown out of the base that merge agree on what the merge took as empty. -/
theorem Grown.aligned (hr : Equivalence r) {a b c m : HTree K V w} {ea eb : List (K × V)}
    (h : Grown slot D H L a b c ea eb) (hm : merge (mergeEntries r) a b c = some m) : Aligned r slot a b c L := by
  induction a generalizing b c m L ea eb with
  | empty => cases b <;> cases c <;> exact trivial
  | leaf es =>
    cases c with
    | inner kc =>
      have := h.eqa
      rw [ext] at this
      cases this
    | empty => exact aligned_empty _ _ _
    | leaf ec => cases b <;> exact trivial
  | inner ka ih =>
    by_cases hap : Apart (inner ka) b c
    swap
    · exact aligned_of_eq hap
    cases b with
    | empty => cases c <;> exact trivial
    | leaf eb => cases c <;> exact trivial
    | inner kb =>
      obtain ⟨km, hkm⟩ : ∃ km : Fin w → HTree K V w,
          ∀ s, merge (mergeEntries r) (ka s) (kb s) (c.kid s) = some (km s) := by
        rcases merge_cases hm with ⟨hab, -⟩ | ⟨hac, -⟩ | ⟨hbc, -⟩ | ⟨_, _, _, h1, -⟩ |
          ⟨_, _, km, h1, h2, -, hkm, -⟩
        · exact absurd hab hap.1
        · exact absurd hac hap.2.1
        · exact absurd hbc hap.2.2
        · cases h1
        · cases h1
          cases h2
          exact ⟨km, hkm⟩
      cases c with
      | empty => exact aligned_empty _ _ _
      | inner kc => exact fun _ s => ih s (h.kid s) (hkm s)
      | leaf ec =>
        intro _ k hk
        have hkid := (merge_spec_iff hr (h.kid (slot k L)).wfa (h.kid (slot k L)).wfb
          (h.kid (slot k L)).wfc (hkm (slot k L))).1 (aligned_empty _ _ _) k
        have hne : ∀ {x : HTree K V w}, x.WF slot H L → x.Has k → x.lookup slot L k ≠ none :=
          fun hx hk => mt hx.lookup_eq_none_iff.1 (not_not.2 hk)
        exact (hkid.both (mt alike_none_iff.1 (hne h.wfa (h.has_left.2 (h.suba k hk))))
          (mt alike_none_iff.1 (hne h.wfb (h.symm.has_left.2 (h.subb k hk))))).1

theorem Grown.merge_has (hr : Equivalence r) {a b c m : HTree K V w} {ea eb : List (K × V)}
    (h : Grown slot D H L a b c ea eb) (hm : merge (mergeEntries r) a b c = some m) {k : K} :
    m.Has k ↔ a.Has k ∨ b.Has k := by
  constructor
  · rintro ⟨v, hv⟩
    exact (mem_entries_merge h.wfa h.wfb hm hv).imp (fun h => ⟨v, h⟩) fun h => ⟨v, h⟩
  · intro hab
    have hspec := (merge_spec_iff hr h.wfa h.wfb h.wfc hm).1 (h.aligned hr hm) k
    by_contra hno
    have hwf := WF.merge h.wfa h.wfb hm
    refine hspec.ne_none (fun hc => ?_) ?_ (hwf.lookup_eq_none_iff.2 hno)
    · rw [Ne, h.wfc.lookup_eq_none_iff, not_not] at hc
      rw [Ne, Ne, h.wfa.lookup_eq_none_iff, h.wfb.lookup_eq_none_iff, not_not, not_not]
      exact ⟨h.has_left.2 (h.suba k hc), h.symm.has_left.2 (h.subb k hc)⟩
    · rwa [Ne, Ne, h.wfa.lookup_eq_none_iff, h.wfb.lookup_eq_none_iff, not_not, not_not]

theorem Grown.leaf_left {es : List (K × V)} {b c : HTree K V w} {ea eb : List (K × V)}
    (h : Grown slot D H L (leaf es) b c ea eb) : ea = es := by
  rw [← h.entries_left, entries_leaf, h.wfa.2.sortKeys_eq]

/-- Two fused leaves have the shape of fresh entries exactly when they are tidy. -/
theorem Grown.fused_iff {la lb es : List (K × V)} {c : HTree K V w} {ea eb : List (K × V)}
    (h : Grown slot D H L (leaf la) (leaf lb) c ea eb) (hes : SortedKeys es)
    (hkeys : ∀ k, k ∈ es.map Prod.fst ↔ k ∈ la.map Prod.fst ∨ k ∈ lb.map Prod.fst) :
    c.ext slot D L es = leaf es ↔ la.map Prod.fst ⊆ lb.map Prod.fst ∨
      lb.map Prod.fst ⊆ la.map Prod.fst ∨ ∀ k ∈ la.map Prod.fst ++ lb.map Prod.fst,
        ∀ k' ∈ la.map Prod.fst ++ lb.map Prod.fst, Agree slot D L k k' := by
  have hne : es ≠ [] := by
    obtain ⟨e, he⟩ := List.exists_mem_of_ne_nil la h.wfa.1
    intro hnil
    have := (hkeys e.1).2 (.inl (List.mem_map_of_mem he))
    simp [hnil] at this
  obtain rfl := h.leaf_left
  obtain rfl := h.symm.leaf_left
  -- a side with all keys is a leaf, so that the same keys make one leaf again
  have hside : ∀ {l : List (K × V)}, SortedKeys l → l ≠ [] → c.ext slot D L l = leaf l →
      (∀ k, k ∈ es.map Prod.fst → k ∈ l.map Prod.fst) → (∀ k, k ∈ l.map Prod.fst → k ∈ es.map Prod.fst) →
      c.ext slot D L es = leaf es := by
    intro l hl hlne hleaf hsub hsub'
    rw [ext_eq_leaf_iff h.eqa hlne] at hleaf
    rwa [ext_eq_leaf_iff h.eqa hne, hes.map_fst_eq hl fun k => ⟨hsub k, hsub' k⟩]
  constructor
  · intro hleaf
    rcases (ext_eq_leaf_iff h.eqa hne).1 hleaf with hc | hagree
    · refine .inl fun k hk => ?_
      have hk' : k ∈ c.leafEntries.map Prod.fst := hc ▸ (hkeys k).2 (.inl hk)
      refine h.subb k ?_
      cases c with
      | leaf ec =>
        obtain ⟨e, he, rfl⟩ := List.mem_map.1 hk'
        exact ⟨e.2, he⟩
      | _ => simp [leafEntries] at hk'
    · refine .inr (.inr fun k hk k' hk' => ?_)
      exact hagree k ((hkeys k).2 (List.mem_append.1 hk)) k' ((hkeys k').2 (List.mem_append.1 hk'))
  · rintro (hsub | hsub | hagree)
    · exact hside h.sortedb h.wfb.1 h.eqb (fun k hk => ((hkeys k).1 hk).elim (hsub ·) id)
        fun k hk => (hkeys k).2 (.inr hk)
    · exact hside h.sorteda h.wfa.1 h.eqa (fun k hk => ((hkeys k).1 hk).elim id (hsub ·))
        fun k hk => (hkeys k).2 (.inl hk)
    · rw [ext_eq_leaf_iff h.eqa hne]
      exact .inr fun a ha b hb => hagree a (List.mem_append.2 ((hkeys a).1 ha)) b
        (List.mem_append.2 ((hkeys b).1 hb))

/-- A merge settled at once has the shape of one of the sides. -/
theorem Grown.merge_eq_ext_of_not_apart {a b c m : HTree K V w} {ea eb : List (K × V)}
    (h : Grown slot D H L a b c ea eb) (hm : merge (mergeEntries r) a b c = some m) (hap : ¬ Apart a b c) :
    c.ext slot D L (sortKeys m.entries) = m ↔ Tidy slot D a b c L := by
  refine iff_of_true ?_ (tidy_of_not_apart hap)
  rcases merge_cases hm with ⟨-, rfl⟩ | ⟨-, rfl⟩ | ⟨-, rfl⟩ | ⟨_, _, _, -, -, h', -⟩ |
    ⟨_, _, _, -, -, h', -⟩
  · rw [h.entries_left, h.eqa]
  · rw [h.symm.entries_left, h.eqb]
  · rw [h.entries_left, h.eqa]
  · exact absurd h' hap
  · exact absurd h' hap

/-- **A merged trie has the shape insertions give** exactly when the merge is tidy. -/
theorem Grown.merge_eq_ext_iff (hr : Equivalence r) {a b c m : HTree K V w} {ea eb : List (K × V)}
    (h : Grown slot D H L a b c ea eb) (hm : merge (mergeEntries r) a b c = some m) :
    c.ext slot D L (sortKeys m.entries) = m ↔ Tidy slot D a b c L := by
  induction a generalizing b c m L ea eb with
  | empty =>
    refine h.merge_eq_ext_of_not_apart hm fun hap => ?_
    rcases merge_cases hm with ⟨h', -⟩ | ⟨h', -⟩ | ⟨h', -⟩ | ⟨_, _, _, h', -⟩ | ⟨_, _, _, h', -⟩
    · exact hap.1 h'
    · exact hap.2.1 h'
    · exact hap.2.2 h'
    · cases h'
    · cases h'
  | leaf la =>
    by_cases hap : Apart (leaf la) b c
    swap
    · exact h.merge_eq_ext_of_not_apart hm hap
    rcases merge_cases hm with ⟨h', -⟩ | ⟨h', -⟩ | ⟨h', -⟩ | ⟨_, lb, es, h1, rfl, -, hes, rfl⟩ |
      ⟨_, _, _, h', -⟩
    · exact absurd h' hap.1
    · exact absurd h' hap.2.1
    · exact absurd h' hap.2.2
    · cases h1
      have hsorted := mergeKeys_sorted (unionKeys_sorted _) hes
      have hkeys : ∀ k, k ∈ es.map Prod.fst ↔ k ∈ la.map Prod.fst ∨ k ∈ lb.map Prod.fst := by
        intro k
        have := h.merge_has hr hm (k := k)
        simpa [Has, mem_leafOf] using this
      have hne : es ≠ [] := by
        obtain ⟨e, he⟩ := List.exists_mem_of_ne_nil la h.wfa.1
        intro hnil
        have := (hkeys e.1).2 (.inl (List.mem_map_of_mem he))
        simp [hnil] at this
      rw [leafOf_of_ne_nil hne, entries_leaf, hsorted.sortKeys_eq, h.fused_iff hsorted hkeys, Tidy]
      exact ⟨fun h _ => h, fun h => h hap⟩
    · cases h'
  | inner ka ih =>
    by_cases hap : Apart (inner ka) b c
    swap
    · exact h.merge_eq_ext_of_not_apart hm hap
    rcases merge_cases hm with ⟨h', -⟩ | ⟨h', -⟩ | ⟨h', -⟩ | ⟨_, _, _, h', -⟩ |
      ⟨_, kb, km, h1, rfl, -, hkm, rfl⟩
    · exact absurd h' hap.1
    · exact absurd h' hap.2.1
    · exact absurd h' hap.2.2
    · cases h'
    · cases h1
      have hwf := WF.merge h.wfa h.wfb hm
      have hkeep : ∀ k ∈ ea.map Prod.fst, (node km).Has k := fun k hk =>
        (h.merge_has hr hm).2 (.inl (h.has_left.2 hk))
      have hnode : node km = inner km := by
        obtain ⟨s, hs⟩ := h.wfa.2.1
        obtain ⟨e, he⟩ := List.exists_mem_of_ne_nil _ (mt (h.wfa.2.2 s).1.eq_empty_iff.2 hs)
        obtain ⟨v, hv⟩ := (h.merge_has hr hm).2 (.inl ⟨e.2, mem_entries_inner.2 ⟨s, he⟩⟩)
        rw [node, if_neg]
        intro hall
        rw [node, if_pos hall] at hv
        simp at hv
      rw [hnode] at hwf hkeep ⊢
      have hsub : ea.map Prod.fst ⊆ (sortKeys (inner km).entries).map Prod.fst := by
        intro k hk
        obtain ⟨v, hv⟩ := hkeep k hk
        exact List.mem_map.2 ⟨(k, v), mem_sortKeys.2 hv, rfl⟩
      rw [ext_inner_of_subset h.wfc h.sorteda h.eqa h.suba hsub, inner.injEq, funext_iff, Tidy]
      simp only [sorted_filter_entries hwf]
      exact ⟨fun hall _ s => (ih s (h.kid s) (hkm s)).1 (hall s),
        fun hall s => (ih s (h.kid s) (hkm s)).2 (hall hap s)⟩

/-! ### Merging changes to different keys -/

/-- Wherever the merge fuses two leaves, a key that the first side has as the base, `g`, has it is not there, on
the second side, with a value that is equal without being the same: the merge would keep the first side's. -/
def Exact (r : V → V → Prop) (g : K → Option V) : HTree K V w → HTree K V w → HTree K V w → Prop
  | leaf ea, leaf eb, c => Apart (leaf ea) (leaf eb) c →
      ∀ k, assoc ea k = g k → Alike r (assoc ea k) (assoc eb k) → assoc ea k = assoc eb k
  | inner ka, inner kb, c => Apart (inner ka) (inner kb) c → ∀ s, Exact r g (ka s) (kb s) (c.kid s)
  | _, _, _ => True

/-- At most one side has changed the value, and `t` is the changed one. -/
def Changed (a b base t : Option V) : Prop := (t = a ∧ b = base) ∨ (t = b ∧ a = base)

omit [LinearOrder K] in
theorem exact_of_not_apart {g : K → Option V} {a b c : HTree K V w} (h : ¬ Apart a b c) : Exact r g a b c := by
  cases a <;> cases b <;> simp [Exact, h]

/-- The merge of one change gives the change, unless that is equal to what was there. A base that is not seen
is none that a side has dropped. -/
theorem Changed.merge3_iff (hr : Equivalence r) {a b base g t m : Option V} (h : Changed a b g t)
    (hbase : base = g ∨ (base = none ∧ a ≠ none ∧ b ≠ none)) (hm : merge3 r a b base = some m) :
    m = t ↔ (a = g → Alike r a b → a = b) := by
  have hm' : (Alike r a b ∧ m = a) ∨ (¬ Alike r a b ∧ base = g ∧ Alike r a base ∧ m = b) ∨
      (¬ Alike r a b ∧ base = g ∧ Alike r b base ∧ m = a) := by
    rcases merge3_cases hm with hm | ⟨hab, hac, hm⟩ | ⟨hab, hbc, hm⟩
    · exact .inl hm
    · refine .inr (.inl ⟨hab, hbase.resolve_right fun h => ?_, hac, hm⟩)
      exact h.2.1 (alike_none_iff.1 (h.1 ▸ hac))
    · refine .inr (.inr ⟨hab, hbase.resolve_right fun h => ?_, hbc, hm⟩)
      exact h.2.2 (alike_none_iff.1 (h.1 ▸ hbc))
  rcases h with ⟨rfl, rfl⟩ | ⟨rfl, rfl⟩
  · refine iff_of_true ?_ fun h _ => h
    rcases hm' with ⟨-, hm⟩ | ⟨hab, rfl, hac, -⟩ | ⟨-, -, -, hm⟩
    · exact hm
    · exact absurd hac hab
    · exact hm
  · rcases hm' with ⟨hab, rfl⟩ | ⟨hab, -, -, rfl⟩ | ⟨hab, rfl, hbc, -⟩
    · exact ⟨fun h _ _ => h, fun h => h rfl hab⟩
    · exact iff_of_true rfl fun _ h => absurd h hab
    · exact absurd (hbc.symm hr) hab

omit [LinearOrder K] in
theorem WF.has_inner {kids : Fin w → HTree K V w} (h : ∀ s, ∀ e ∈ (kids s).entries, slot e.1 L = s) {k : K} :
    (inner kids).Has k ↔ (kids (slot k L)).Has k := by
  constructor
  · rintro ⟨v, hv⟩
    obtain ⟨s, hs⟩ := mem_entries_inner.1 hv
    exact ⟨v, by rwa [← h s _ hs] at hs⟩
  · rintro ⟨v, hv⟩
    exact ⟨v, mem_entries_inner.2 ⟨_, hv⟩⟩

/-- What the walk sees of the base at a key: what the base holds, or nothing, where neither side lacks it. -/
def Seen (slot : K → ℕ → Fin w) (g : K → Option V) (a b c : HTree K V w) (L : ℕ) : Prop :=
  ∀ k, a.Has k ∨ b.Has k → c.lookup slot L k = g k ∨ (c = empty ∧ a.Has k ∧ b.Has k)

theorem Grown.seen_kid {ka kb : Fin w → HTree K V w} {c : HTree K V w} {ea eb : List (K × V)} {g : K → Option V}
    (h : Grown slot D H L (inner ka) (inner kb) c ea eb) (hg : Seen slot g (inner ka) (inner kb) c L) (s : Fin w) :
    Seen slot g (ka s) (kb s) (c.kid s) (L + 1) := by
  intro k hk
  have hs : slot k L = s := by
    rcases hk with ⟨v, hv⟩ | ⟨v, hv⟩
    · exact (h.wfa.2.2 s).2 _ hv
    · exact (h.wfb.2.2 s).2 _ hv
  subst hs
  have hina := WF.has_inner (fun s => (h.wfa.2.2 s).2) (k := k)
  have hinb := WF.has_inner (fun s => (h.wfb.2.2 s).2) (k := k)
  have hseen := hg k (hk.imp hina.2 hinb.2)
  rw [hina, hinb] at hseen
  cases c with
  | empty => exact hseen
  | inner kc => exact .inl (hseen.resolve_right fun h => by cases h.1)
  | leaf ec =>
    -- a leaf of the base is not seen below: a key of it is on both sides
    have hlookup := hseen.resolve_right fun h => by cases h.1
    by_cases hhas : (leaf ec : HTree K V w).Has k
    · exact .inr ⟨rfl, hina.1 (h.has_left.2 (h.suba k hhas)), hinb.1 (h.symm.has_left.2 (h.subb k hhas))⟩
    · rw [h.wfc.lookup_eq_none_iff.2 hhas] at hlookup
      exact .inl hlookup

/-- A merge settled at once has every change. -/
theorem lookup_of_not_apart {a b c m : HTree K V w} {g : K → Option V} (hg : Seen slot g a b c L)
    (hm : merge (mergeEntries r) a b c = some m) (hap : ¬ Apart a b c) {k : K} (hk : a.Has k ∨ b.Has k)
    {t : Option V} (ht : Changed (a.lookup slot L k) (b.lookup slot L k) (g k) t) : m.lookup slot L k = t := by
  have hno : ¬ (empty : HTree K V w).Has k := by simp [Has]
  rcases merge_cases hm with ⟨rfl, rfl⟩ | ⟨rfl, rfl⟩ | ⟨rfl, rfl⟩ | ⟨_, _, _, -, -, h, -⟩ |
    ⟨_, _, _, -, -, h, -⟩
  · rcases ht with ⟨rfl, -⟩ | ⟨rfl, -⟩ <;> rfl
  · rcases hg k hk with hseen | ⟨rfl, ha, -⟩
    · rcases ht with ⟨rfl, hb⟩ | ⟨rfl, -⟩
      · rw [hb, hseen]
      · rfl
    · exact absurd ha hno
  · rcases hg k hk with hseen | ⟨rfl, -, hb⟩
    · rcases ht with ⟨rfl, -⟩ | ⟨rfl, ha⟩
      · rfl
      · rw [ha, hseen]
    · exact absurd hb hno
  · exact absurd h hap
  · exact absurd h hap

/-- **The merge has every change** exactly when it is exact. -/
theorem Grown.lookup_merge_iff (hr : Equivalence r) {a b c m : HTree K V w} {ea eb : List (K × V)}
    (h : Grown slot D H L a b c ea eb) (hm : merge (mergeEntries r) a b c = some m) {g t : K → Option V}
    (hg : Seen slot g a b c L)
    (ht : ∀ k, a.Has k ∨ b.Has k → Changed (a.lookup slot L k) (b.lookup slot L k) (g k) (t k)) :
    (∀ k, a.Has k ∨ b.Has k → m.lookup slot L k = t k) ↔ Exact r g a b c := by
  induction a generalizing b c m L ea eb with
  | empty =>
    refine iff_of_true (fun k hk => lookup_of_not_apart hg hm (fun hap => ?_) hk (ht k hk)) trivial
    rcases merge_cases hm with ⟨h', -⟩ | ⟨h', -⟩ | ⟨h', -⟩ | ⟨_, _, _, h', -⟩ | ⟨_, _, _, h', -⟩
    · exact hap.1 h'
    · exact hap.2.1 h'
    · exact hap.2.2 h'
    · cases h'
    · cases h'
  | leaf la =>
    by_cases hap : Apart (leaf la) b c
    swap
    · exact iff_of_true (fun k hk => lookup_of_not_apart hg hm hap hk (ht k hk)) (exact_of_not_apart hap)
    rcases merge_cases hm with ⟨h', -⟩ | ⟨h', -⟩ | ⟨h', -⟩ | ⟨_, lb, es, h1, rfl, -, hes, rfl⟩ |
      ⟨_, _, _, h', -⟩
    · exact absurd h' hap.1
    · exact absurd h' hap.2.1
    · exact absurd h' hap.2.2
    · cases h1
      have hseen : ∀ k, c.lookup slot L k = assoc c.leafEntries k := by
        intro k
        cases c with
        | empty => simp [lookup, leafEntries, assoc]
        | leaf ec => rfl
        | inner kc =>
          have heq := h.eqa
          rw [ext] at heq
          cases heq
      have hkey : ∀ k, (leaf la : HTree K V w).Has k ∨ (leaf lb : HTree K V w).Has k → (assoc es k = t k ↔
          (assoc la k = g k → Alike r (assoc la k) (assoc lb k) → assoc la k = assoc lb k)) := by
        intro k hk
        refine (ht k hk).merge3_iff hr ?_ (merge3_of_mergeEntries hes k)
        rw [← hseen]
        refine (hg k hk).imp_right ?_
        rintro ⟨rfl, ha, hb⟩
        rw [← not_not (a := (leaf la : HTree K V w).Has k), ← h.wfa.lookup_eq_none_iff] at ha
        rw [← not_not (a := (leaf lb : HTree K V w).Has k), ← h.wfb.lookup_eq_none_iff] at hb
        exact ⟨rfl, ha, hb⟩
      simp only [lookup_leafOf, Exact]
      constructor
      · intro hall _ k
        by_cases hk : (leaf la : HTree K V w).Has k ∨ (leaf lb : HTree K V w).Has k
        · exact (hkey k hk).1 (hall k hk)
        · rw [not_or, ← h.wfa.lookup_eq_none_iff, ← h.wfb.lookup_eq_none_iff] at hk
          exact fun _ _ => hk.1.trans hk.2.symm
      · exact fun hall k hk => (hkey k hk).2 (hall hap k)
    · cases h'
  | inner ka ih =>
    by_cases hap : Apart (inner ka) b c
    swap
    · exact iff_of_true (fun k hk => lookup_of_not_apart hg hm hap hk (ht k hk)) (exact_of_not_apart hap)
    rcases merge_cases hm with ⟨h', -⟩ | ⟨h', -⟩ | ⟨h', -⟩ | ⟨_, _, _, h', -⟩ |
      ⟨_, kb, km, h1, rfl, -, hkm, rfl⟩
    · exact absurd h' hap.1
    · exact absurd h' hap.2.1
    · exact absurd h' hap.2.2
    · cases h'
    · cases h1
      have hina := fun k => WF.has_inner (fun s => (h.wfa.2.2 s).2) (k := k)
      have hinb := fun k => WF.has_inner (fun s => (h.wfb.2.2 s).2) (k := k)
      have hroute : ∀ {s k}, (ka s).Has k ∨ (kb s).Has k → slot k L = s := by
        rintro s k (⟨v, hv⟩ | ⟨v, hv⟩)
        · exact (h.wfa.2.2 s).2 _ hv
        · exact (h.wfb.2.2 s).2 _ hv
      simp only [hina, hinb] at ht
      have hih := fun s => ih s (h.kid s) (hkm s) (h.seen_kid hg s) fun k hk => by
        obtain rfl := hroute hk
        exact ht k hk
      simp only [lookup_node, hina, hinb, Exact]
      constructor
      · refine fun hall _ s => (hih s).1 fun k hk => ?_
        obtain rfl := hroute hk
        exact hall k hk
      · exact fun hall k hk => (hih _).2 (hall hap _) k hk

/-- **Merging is inserting** exactly when the merge is tidy and exact: `t` is the trie that grows out of the base
and has the changes of both sides, which are to different keys. -/
theorem Grown.merge_eq_iff (hr : Equivalence r) {a b c m t : HTree K V w} {ea eb et : List (K × V)}
    (h : Grown slot D H 0 a b c ea eb) (hm : merge (mergeEntries r) a b c = some m)
    (ht : Grown slot D H 0 t b c et eb)
    (hchanged : ∀ k, Changed (a.lookup slot 0 k) (b.lookup slot 0 k) (c.lookup slot 0 k) (t.lookup slot 0 k)) :
    m = t ↔ Tidy slot D a b c 0 ∧ Exact r (fun k => c.lookup slot 0 k) a b c := by
  have hwf := WF.merge h.wfa h.wfb hm
  have hexact := h.lookup_merge_iff hr hm (g := fun k => c.lookup slot 0 k) (t := fun k => t.lookup slot 0 k)
    (fun k _ => .inl rfl) fun k _ => hchanged k
  rw [← h.merge_eq_ext_iff hr hm, ← hexact]
  constructor
  · rintro rfl
    rw [ht.entries_left, ht.eqa]
    exact ⟨rfl, fun _ _ => rfl⟩
  · rintro ⟨hext, hlookup⟩
    have hall : ∀ k, m.lookup slot 0 k = t.lookup slot 0 k := by
      intro k
      by_cases hk : a.Has k ∨ b.Has k
      · exact hlookup k hk
      · have hmk : ¬ m.Has k := mt (h.merge_has hr hm).1 hk
        rw [not_or, ← h.wfa.lookup_eq_none_iff, ← h.wfb.lookup_eq_none_iff] at hk
        rw [hwf.lookup_eq_none_iff.2 hmk]
        rcases hchanged k with ⟨htk, -⟩ | ⟨htk, -⟩
        · rw [htk, hk.1]
        · rw [htk, hk.2]
    have hentries : sortKeys m.entries = et := by
      rw [← ht.entries_left]
      refine hwf.sorted_entries.ext ht.wfa.sorted_entries fun e => ?_
      rw [mem_sortKeys, mem_sortKeys, ← hwf.lookup_eq_some_iff, hall, ht.wfa.lookup_eq_some_iff]
    rw [← hext, hentries, ht.eqa]

end HTree

end Rend.Lib
