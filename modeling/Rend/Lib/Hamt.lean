import Mathlib.Tactic
import Mathlib.Data.List.Sort
import Mathlib.Data.List.FinRange

/-!
# Hash-array-mapped tries

A trie over keys `K` with `w` children at an inner node. A key is routed by its slots: at level `L` it
goes to the child `slot k L`. A leaf holds a list of entries sorted by key; leaves stop being split
at level `D`.

`HTree.WF L T` says that the trie `T`, placed at level `L`, is well-levelled: each key sits below the
slots of its own route. On such a trie `lookup` reads exactly the listed entries
(`WF.lookup_eq_some_iff`), and `insert` and `erase` change the listed entries as a map does
(`mem_entries_insert`, `mem_entries_erase`).

The splitting rule `build` pushes a batch that shares one slot down a level without leaving a node
behind. The trie it then makes for the next level stands one level too high, so `insert` keeps a
trie well-levelled exactly where the batch `Splits`: it shares every slot that is left, or it fans
out at once and each part splits in turn.
-/

namespace Rend.Lib

open scoped Classical

section Assoc

variable {K V : Type*}

/-- The value a list of entries gives to `k`: that of the first entry with this key. -/
noncomputable def assoc (es : List (K × V)) (k : K) : Option V :=
  (es.find? fun e => decide (e.1 = k)).map Prod.snd

theorem assoc_eq_some_iff {es : List (K × V)} (h : (es.map Prod.fst).Nodup) {k : K} {v : V} :
    assoc es k = some v ↔ (k, v) ∈ es := by
  induction es with
  | nil => simp [assoc]
  | cons e es ih =>
    obtain ⟨a, b⟩ := e
    simp only [List.map_cons, List.nodup_cons, List.mem_map, Prod.exists, exists_and_right,
      exists_eq_right, not_exists] at h
    by_cases ha : a = k
    · subst ha
      simp only [assoc, List.find?_cons, decide_true, Option.map_some, Option.some.injEq,
        List.mem_cons, Prod.mk.injEq, true_and]
      constructor
      · intro hb
        exact .inl hb.symm
      · rintro (hb | hb)
        · exact hb.symm
        · exact absurd hb (h.1 v)
    · have hk : ¬ k = a := fun hk => ha hk.symm
      have hstep : assoc ((a, b) :: es) k = assoc es k := by
        simp [assoc, ha]
      rw [hstep, ih h.2]
      simp [hk]

theorem assoc_eq_none_iff {es : List (K × V)} {k : K} :
    assoc es k = none ↔ k ∉ es.map Prod.fst := by
  simp only [assoc, Option.map_eq_none_iff, List.find?_eq_none, decide_eq_true_eq, List.mem_map,
    not_exists, not_and]

/-- The entries with the value at `k` replaced. -/
noncomputable def replaceKey (es : List (K × V)) (k : K) (v : V) : List (K × V) :=
  es.map fun e => if e.1 = k then (k, v) else e

/-- The entries without those of `k`. -/
noncomputable def eraseKey (es : List (K × V)) (k : K) : List (K × V) := es.filter fun e => ¬ e.1 = k

theorem mem_replaceKey {es : List (K × V)} {k : K} {v : V} (hk : k ∈ es.map Prod.fst) {e : K × V} :
    e ∈ replaceKey es k v ↔ e = (k, v) ∨ (e.1 ≠ k ∧ e ∈ es) := by
  obtain ⟨e₀, he₀, hk₀⟩ := List.mem_map.1 hk
  simp only [replaceKey, List.mem_map]
  constructor
  · rintro ⟨a, ha, rfl⟩
    by_cases hak : a.1 = k
    · simp [hak]
    · simp [hak, ha]
  · rintro (rfl | ⟨hne, he⟩)
    · exact ⟨e₀, he₀, by simp [hk₀]⟩
    · exact ⟨e, he, by simp [hne]⟩

@[simp] theorem replaceKey_map_fst (es : List (K × V)) (k : K) (v : V) :
    (replaceKey es k v).map Prod.fst = es.map Prod.fst := by
  rw [replaceKey, List.map_map]
  refine List.map_congr_left fun e _ => ?_
  by_cases h : e.1 = k <;> simp [h]

@[simp] theorem mem_eraseKey {es : List (K × V)} {k : K} {e : K × V} :
    e ∈ eraseKey es k ↔ e.1 ≠ k ∧ e ∈ es := by
  simp [eraseKey, and_comm]

variable [LinearOrder K]

/-- Entries in the order of their keys. -/
def sortKeys (es : List (K × V)) : List (K × V) :=
  es.insertionSort fun a b => a.1 ≤ b.1

/-- Entries strictly sorted by key, so that no key comes twice. -/
def SortedKeys (es : List (K × V)) : Prop := es.Pairwise fun a b => a.1 < b.1

theorem sortKeys_perm (es : List (K × V)) : (sortKeys es).Perm es :=
  List.perm_insertionSort _ es

@[simp] theorem mem_sortKeys {es : List (K × V)} {e : K × V} : e ∈ sortKeys es ↔ e ∈ es :=
  (sortKeys_perm es).mem_iff

@[simp] theorem sortKeys_ne_nil {es : List (K × V)} : sortKeys es ≠ [] ↔ es ≠ [] := by
  rw [not_iff_not]
  constructor
  · intro h
    exact (h ▸ sortKeys_perm es).nil_eq.symm
  · intro h
    subst h
    rfl

theorem SortedKeys.nodup {es : List (K × V)} (h : SortedKeys es) : (es.map Prod.fst).Nodup := by
  rw [List.Nodup, List.pairwise_map]
  exact h.imp fun hab => ne_of_lt hab

theorem sortedKeys_sortKeys {es : List (K × V)} (h : (es.map Prod.fst).Nodup) :
    SortedKeys (sortKeys es) := by
  have htot : Std.Total (fun a b : K × V => a.1 ≤ b.1) := ⟨fun a b => le_total a.1 b.1⟩
  have htrans : IsTrans (K × V) (fun a b => a.1 ≤ b.1) := ⟨fun _ _ _ hab hbc => le_trans hab hbc⟩
  have hle := List.pairwise_insertionSort (fun a b : K × V => a.1 ≤ b.1) es
  have hne : ((sortKeys es).map Prod.fst).Nodup := ((sortKeys_perm es).map Prod.fst).nodup_iff.2 h
  rw [List.Nodup, List.pairwise_map] at hne
  exact (hle.and hne).imp fun hab => lt_of_le_of_ne hab.1 hab.2

/-- A strictly sorted list of entries is determined by what it holds. -/
theorem SortedKeys.ext {es es' : List (K × V)} (h : SortedKeys es) (h' : SortedKeys es')
    (hmem : ∀ e, e ∈ es ↔ e ∈ es') : es = es' := by
  have hirr : Std.Irrefl (fun a b : K × V => a.1 < b.1) := ⟨fun a => lt_irrefl a.1⟩
  have hanti : Std.Antisymm (fun a b : K × V => a.1 < b.1) :=
    ⟨fun _ _ hab hba => absurd hba (lt_asymm hab)⟩
  exact List.Pairwise.eq_of_mem_iff h h' hmem

theorem SortedKeys.sortKeys_eq {es : List (K × V)} (h : SortedKeys es) : sortKeys es = es :=
  (sortedKeys_sortKeys h.nodup).ext h fun _ => mem_sortKeys

theorem SortedKeys.filter {es : List (K × V)} (h : SortedKeys es) (p : K × V → Bool) :
    SortedKeys (es.filter p) :=
  List.Pairwise.filter p h

end Assoc

/-! ### The trie -/

/-- A trie with `w`-way inner nodes. An absent child is `empty`. -/
inductive HTree (K V : Type*) (w : ℕ)
  | empty
  | leaf (es : List (K × V))
  | inner (kids : Fin w → HTree K V w)

namespace HTree

variable {K V : Type*} {w : ℕ}

/-- Everything the trie lists, children from left to right. -/
def entries : HTree K V w → List (K × V)
  | empty => []
  | leaf es => es
  | inner kids => (List.finRange w).flatMap fun s => (kids s).entries

@[simp] theorem entries_empty : (empty : HTree K V w).entries = [] := rfl

@[simp] theorem entries_leaf (es : List (K × V)) : (leaf es : HTree K V w).entries = es := rfl

@[simp] theorem mem_entries_inner {kids : Fin w → HTree K V w} {e : K × V} :
    e ∈ (inner kids).entries ↔ ∃ s, e ∈ (kids s).entries := by
  simp [entries]

/-- An inner node over these children, or nothing when there is no child. -/
noncomputable def node (kids : Fin w → HTree K V w) : HTree K V w :=
  if ∀ s, kids s = empty then empty else inner kids

@[simp] theorem mem_entries_node {kids : Fin w → HTree K V w} {e : K × V} :
    e ∈ (node kids).entries ↔ ∃ s, e ∈ (kids s).entries := by
  rw [node]
  split_ifs with h
  · simp [h]
  · exact mem_entries_inner

/-- Whether the trie holds the key. -/
def Has (T : HTree K V w) (k : K) : Prop := ∃ v, (k, v) ∈ T.entries

section Ops

variable [LinearOrder K] (slot : K → ℕ → Fin w)

/-- Follows the slots of `k` down from level `L`. -/
noncomputable def lookup : HTree K V w → ℕ → K → Option V
  | empty, _, _ => none
  | leaf es, _, k => assoc es k
  | inner kids, L, k => (kids (slot k L)).lookup (L + 1) k

/-- Splits a batch of entries into a trie, with `f` levels left below `L`. A batch that falls into
one slot is pushed down a level as a whole. -/
noncomputable def build : ℕ → ℕ → List (K × V) → HTree K V w
  | 0, _, es => if es = [] then empty else leaf (sortKeys es)
  | f + 1, L, es =>
    if es = [] then empty
    else if es.length = 1 then leaf (sortKeys es)
    else if ∃ s, ∀ e ∈ es, slot e.1 L = s then build f (L + 1) es
    else inner fun s => build f (L + 1) (es.filter fun e => slot e.1 L = s)

/-- Puts `v` at `k`, in the trie standing at level `L`. -/
noncomputable def insert (D : ℕ) : HTree K V w → ℕ → K → V → HTree K V w
  | empty, _, k, v => leaf [(k, v)]
  | leaf es, L, k, v =>
    if k ∈ es.map Prod.fst then leaf (sortKeys (replaceKey es k v))
    else if D ≤ L then leaf (sortKeys (es ++ [(k, v)]))
    else build slot (D - L) L (es ++ [(k, v)])
  | inner kids, L, k, v =>
    inner (Function.update kids (slot k L) ((kids (slot k L)).insert D (L + 1) k v))

/-- Takes `k` out of the trie standing at level `L`; the flag says whether it was there. -/
noncomputable def erase : HTree K V w → ℕ → K → HTree K V w × Bool
  | empty, _, _ => (empty, false)
  | leaf es, _, k =>
    if k ∈ es.map Prod.fst then
      (if eraseKey es k = [] then empty else leaf (eraseKey es k), true)
    else (leaf es, false)
  | inner kids, L, k =>
    if ((kids (slot k L)).erase (L + 1) k).2 then
      (node (Function.update kids (slot k L) ((kids (slot k L)).erase (L + 1) k).1), true)
    else (inner kids, false)

/-- The trie standing at level `L` is well-levelled: leaves are sorted and not empty, an inner node
has a child, stands above level `H`, and holds each key below the slot of its route. -/
def WF (H : ℕ) : HTree K V w → ℕ → Prop
  | empty, _ => True
  | leaf es, _ => es ≠ [] ∧ SortedKeys es
  | inner kids, L => L < H ∧ (∃ s, kids s ≠ empty) ∧
      ∀ s, (kids s).WF H (L + 1) ∧ ∀ e ∈ (kids s).entries, slot e.1 L = s

/-- The keys `k` and `k'` take the same slots from level `L` to `D`. -/
def Agree (D L : ℕ) (k k' : K) : Prop := ∀ l < D, L ≤ l → slot k l = slot k' l

/-- A batch of keys that `build` splits into a well-levelled trie at level `L`. -/
def Splits : ℕ → ℕ → List K → Prop
  | 0, _, _ => True
  | f + 1, L, ks => ks.length ≤ 1 ∨ (∀ a ∈ ks, ∀ b ∈ ks, Agree slot (L + (f + 1)) L a b) ∨
      ((¬ ∃ s, ∀ a ∈ ks, slot a L = s) ∧ ∀ s, Splits f (L + 1) (ks.filter fun a => slot a L = s))

/-- Putting `k` into the trie at level `L` splits no leaf, or one whose keys with `k` split. -/
def Lands (D : ℕ) : HTree K V w → ℕ → K → Prop
  | empty, _, _ => True
  | leaf es, L, k => k ∈ es.map Prod.fst ∨ D ≤ L ∨ Splits slot (D - L) L (es.map Prod.fst ++ [k])
  | inner kids, L, k => (kids (slot k L)).Lands D (L + 1) k

/-! ### Reading -/

variable {slot} {H D L : ℕ}

theorem WF.nodup {T : HTree K V w} (h : T.WF slot H L) : (T.entries.map Prod.fst).Nodup := by
  induction T generalizing L with
  | empty => simp
  | leaf es => exact h.2.nodup
  | inner kids ih =>
    have hroute : ∀ s, ∀ e ∈ (kids s).entries, slot e.1 L = s := fun s => (h.2.2 s).2
    rw [entries, List.map_flatMap, List.nodup_flatMap]
    refine ⟨fun s _ => ih s (h.2.2 s).1, (List.nodup_finRange w).imp ?_⟩
    intro s t hst k hs ht
    obtain ⟨e, he, rfl⟩ := List.mem_map.1 hs
    obtain ⟨e', he', hk⟩ := List.mem_map.1 ht
    -- a key below two children would be routed to both
    exact hst (by rw [← hroute s e he, ← hroute t e' he', hk])

/-- A well-levelled trie gives to a key exactly the value it lists with it. -/
theorem WF.lookup_eq_some_iff {T : HTree K V w} (h : T.WF slot H L) {k : K} {v : V} :
    T.lookup slot L k = some v ↔ (k, v) ∈ T.entries := by
  induction T generalizing L with
  | empty => simp [lookup]
  | leaf es => exact assoc_eq_some_iff h.2.nodup
  | inner kids ih =>
    rw [lookup, ih _ (h.2.2 _).1, mem_entries_inner]
    constructor
    · intro he
      exact ⟨_, he⟩
    · rintro ⟨s, he⟩
      rwa [(h.2.2 s).2 _ he]

theorem WF.lookup_eq_none_iff {T : HTree K V w} (h : T.WF slot H L) {k : K} :
    T.lookup slot L k = none ↔ ¬ T.Has k := by
  rw [Option.eq_none_iff_forall_ne_some, Has, not_exists]
  exact forall_congr' fun v => not_congr h.lookup_eq_some_iff

/-! ### Splitting a batch -/

@[simp] theorem build_nil (f L : ℕ) : build slot f L ([] : List (K × V)) = empty := by
  cases f <;> simp [build]

theorem mem_entries_build {f L : ℕ} {es : List (K × V)} {e : K × V} :
    e ∈ (build slot f L es).entries ↔ e ∈ es := by
  induction f generalizing L es with
  | zero =>
    rw [build]
    split
    · next h => simp [h]
    · simp
  | succ f ih =>
    rw [build]
    split_ifs with hnil hone hs
    · simp [hnil]
    · simp
    · exact ih
    · simp [ih]

theorem build_ne_empty {f L : ℕ} {es : List (K × V)} (h : es ≠ []) : build slot f L es ≠ empty := by
  obtain ⟨e, he⟩ := List.exists_mem_of_ne_nil es h
  intro hb
  have hmem : e ∈ (build slot f L es).entries := mem_entries_build.2 he
  simp [hb] at hmem

/-- Keys that share every slot left stay in one leaf. -/
theorem build_of_agree {f L : ℕ} {es : List (K × V)} (hne : es ≠ [])
    (h : ∀ a ∈ es.map Prod.fst, ∀ b ∈ es.map Prod.fst, Agree slot (L + f) L a b) :
    build slot f L es = leaf (sortKeys es) := by
  induction f generalizing L with
  | zero => simp [build, hne]
  | succ f ih =>
    rw [build, if_neg hne]
    split_ifs with hone hs
    · rfl
    · apply ih
      intro a ha b hb l hlf hl
      exact h a ha b hb l (by omega) (by omega)
    · obtain ⟨e, he⟩ := List.exists_mem_of_ne_nil es hne
      refine absurd ⟨slot e.1 L, fun e' he' => ?_⟩ hs
      exact h _ (List.mem_map_of_mem he') _ (List.mem_map_of_mem he) L (by omega) le_rfl

/-- A batch that splits is built into a well-levelled trie. -/
theorem WF.build {f L : ℕ} {es : List (K × V)} (hf : L + f ≤ H) (hnd : (es.map Prod.fst).Nodup)
    (hs : Splits slot f L (es.map Prod.fst)) : (build slot f L es).WF slot H L := by
  induction f generalizing L es with
  | zero =>
    rw [HTree.build]
    split
    · exact trivial
    · next h => exact ⟨sortKeys_ne_nil.2 h, sortedKeys_sortKeys hnd⟩
  | succ f ih =>
    by_cases hnil : es = []
    · simp [hnil, WF]
    have hleaf : (leaf (sortKeys es) : HTree K V w).WF slot H L :=
      ⟨sortKeys_ne_nil.2 hnil, sortedKeys_sortKeys hnd⟩
    rcases hs with hlen | hagree | ⟨hfan, hparts⟩
    · have hone : es.length = 1 := by
        have : es.length ≠ 0 := by simpa using hnil
        rw [List.length_map] at hlen
        omega
      rwa [HTree.build, if_neg hnil, if_pos hone]
    · rwa [build_of_agree hnil hagree]
    · have hfan' : ¬ ∃ s, ∀ e ∈ es, slot e.1 L = s := by
        rintro ⟨s, hs⟩
        refine hfan ⟨s, fun a ha => ?_⟩
        obtain ⟨e, he, rfl⟩ := List.mem_map.1 ha
        exact hs e he
      rw [HTree.build, if_neg hnil, if_neg hfan']
      split_ifs with hone
      · exact hleaf
      refine ⟨by omega, ?_, fun s => ⟨?_, ?_⟩⟩
      · obtain ⟨e, he⟩ := List.exists_mem_of_ne_nil es hnil
        refine ⟨slot e.1 L, build_ne_empty (List.ne_nil_of_mem (a := e) ?_)⟩
        simpa using he
      · refine ih (by omega) (hnd.sublist (List.filter_sublist.map _)) ?_
        have hfilter := hparts s
        rwa [List.filter_map] at hfilter
      · intro e he
        rw [mem_entries_build] at he
        simpa using (List.mem_filter.1 he).2

/-! ### Putting a key -/

omit [LinearOrder K] in
theorem mem_entries_update {kids : Fin w → HTree K V w} {s : Fin w} {c : HTree K V w} {e : K × V}
    (hroute : ∀ t, ∀ e ∈ (kids t).entries, slot e.1 L = t) :
    e ∈ (inner (Function.update kids s c)).entries ↔
      e ∈ c.entries ∨ (slot e.1 L ≠ s ∧ e ∈ (inner kids).entries) := by
  simp only [mem_entries_inner]
  constructor
  · rintro ⟨t, ht⟩
    by_cases hts : t = s
    · subst hts
      rw [Function.update_self] at ht
      exact .inl ht
    · rw [Function.update_of_ne hts] at ht
      exact .inr ⟨by rw [hroute t e ht]; exact hts, t, ht⟩
  · rintro (he | ⟨hne, t, ht⟩)
    · exact ⟨s, by rwa [Function.update_self]⟩
    · refine ⟨t, ?_⟩
      rw [hroute t e ht] at hne
      rwa [Function.update_of_ne hne]

/-- **What `insert` lists.** The new entry, and every old entry of another key. -/
theorem mem_entries_insert {T : HTree K V w} (h : T.WF slot H L) {k : K} {v : V} {e : K × V} :
    e ∈ (T.insert slot D L k v).entries ↔ e = (k, v) ∨ (e.1 ≠ k ∧ e ∈ T.entries) := by
  induction T generalizing L with
  | empty => simp [insert]
  | leaf es =>
    rw [insert]
    split_ifs with hk hD
    · simp only [entries_leaf, mem_sortKeys]
      exact mem_replaceKey hk
    all_goals
      have hne : ∀ e ∈ es, e.1 ≠ k := fun e he hek => hk (List.mem_map.2 ⟨e, he, hek⟩)
      simp only [entries_leaf, mem_sortKeys, mem_entries_build, List.mem_append, List.mem_singleton]
      constructor
      · rintro (he | he)
        · exact .inr ⟨hne e he, he⟩
        · exact .inl he
      · rintro (he | ⟨-, he⟩)
        · exact .inr he
        · exact .inl he
  | inner kids ih =>
    have hroute : ∀ s, ∀ e ∈ (kids s).entries, slot e.1 L = s := fun s => (h.2.2 s).2
    rw [insert, mem_entries_update hroute, ih _ (h.2.2 _).1]
    constructor
    · rintro ((rfl | ⟨hne, he⟩) | ⟨hs, he⟩)
      · exact .inl rfl
      · exact .inr ⟨hne, mem_entries_inner.2 ⟨_, he⟩⟩
      · exact .inr ⟨fun hek => hs (by rw [hek]), he⟩
    · rintro (rfl | ⟨hne, he⟩)
      · exact .inl (.inl rfl)
      · by_cases hs : slot e.1 L = slot k L
        · obtain ⟨t, ht⟩ := mem_entries_inner.1 he
          refine .inl (.inr ⟨hne, ?_⟩)
          rwa [← hs, hroute t e ht]
        · exact .inr ⟨hs, he⟩

theorem insert_ne_empty (T : HTree K V w) (k : K) (v : V) : T.insert slot D L k v ≠ empty := by
  cases T with
  | empty => simp [insert]
  | leaf es =>
    rw [insert]
    split_ifs
    · simp
    · simp
    · exact build_ne_empty (by simp)
  | inner kids => simp [insert]

/-- **`insert` keeps a trie well-levelled** where the key lands on a leaf that splits. -/
theorem WF.insert {T : HTree K V w} (hDH : D ≤ H) (h : T.WF slot H L) {k : K} {v : V}
    (hl : T.Lands slot D L k) : (T.insert slot D L k v).WF slot H L := by
  induction T generalizing L with
  | empty => exact ⟨by simp, by simp [SortedKeys]⟩
  | leaf es =>
    rw [HTree.insert]
    have hnd : k ∉ es.map Prod.fst → ((es ++ [(k, v)]).map Prod.fst).Nodup := by
      intro hk
      rw [List.map_append, List.nodup_append]
      refine ⟨h.2.nodup, by simp, ?_⟩
      intro a ha b hb hab
      simp only [List.map_cons, List.map_nil, List.mem_singleton] at hb
      exact hk (hb ▸ hab ▸ ha)
    split_ifs with hk hD
    · refine ⟨?_, sortedKeys_sortKeys ?_⟩
      · simpa [replaceKey] using h.1
      · rw [replaceKey_map_fst]
        exact h.2.nodup
    · exact ⟨by simp, sortedKeys_sortKeys (hnd hk)⟩
    · have hs : Splits slot (D - L) L ((es ++ [(k, v)]).map Prod.fst) := by
        rcases hl with hl | hl | hl
        · exact absurd hl hk
        · exact absurd hl hD
        · simpa using hl
      exact WF.build (by omega) (hnd hk) hs
  | inner kids ih =>
    obtain ⟨hL, -, hkids⟩ := h
    refine ⟨hL, ⟨slot k L, ?_⟩, fun s => ?_⟩
    · rw [Function.update_self]
      exact insert_ne_empty _ k v
    · by_cases hs : s = slot k L
      · subst hs
        rw [Function.update_self]
        refine ⟨ih _ (hkids _).1 hl, fun e he => ?_⟩
        rcases (mem_entries_insert (hkids _).1).1 he with rfl | ⟨-, he⟩
        · rfl
        · exact (hkids _).2 e he
      · rw [Function.update_of_ne hs]
        exact hkids s

theorem WF.lookup_insert {T : HTree K V w} (hDH : D ≤ H) (h : T.WF slot H L) {k : K} {v : V}
    (hl : T.Lands slot D L k) (k' : K) :
    (T.insert slot D L k v).lookup slot L k' = if k' = k then some v else T.lookup slot L k' := by
  ext v'
  rw [(h.insert hDH hl).lookup_eq_some_iff, mem_entries_insert h]
  split_ifs with hk
  · subst hk
    simp [eq_comm]
  · rw [h.lookup_eq_some_iff]
    simp [hk]

/-! ### Taking a key out -/

theorem WF.eq_empty_iff {T : HTree K V w} (h : T.WF slot H L) : T = empty ↔ T.entries = [] := by
  constructor
  · rintro rfl
    rfl
  · intro he
    induction T generalizing L with
    | empty => rfl
    | leaf es => exact absurd he h.1
    | inner kids ih =>
      obtain ⟨-, ⟨s, hs⟩, hkids⟩ := h
      refine absurd (ih s (hkids s).1 ?_) hs
      rw [entries, List.flatMap_eq_nil_iff] at he
      exact he s (List.mem_finRange s)

theorem WF.node {kids : Fin w → HTree K V w} (hL : L < H)
    (hkids : ∀ s, (kids s).WF slot H (L + 1) ∧ ∀ e ∈ (kids s).entries, slot e.1 L = s) :
    (node kids).WF slot H L := by
  rw [HTree.node]
  split_ifs with hall
  · exact trivial
  · exact ⟨hL, not_forall.1 hall, hkids⟩

/-- The flag of `erase` says whether the key was there. -/
theorem erase_found_iff {T : HTree K V w} (h : T.WF slot H L) {k : K} :
    (T.erase slot L k).2 = true ↔ T.Has k := by
  induction T generalizing L with
  | empty => simp [erase, Has]
  | leaf es =>
    have hhas : (leaf es : HTree K V w).Has k ↔ k ∈ es.map Prod.fst := by simp [Has]
    rw [erase, hhas]
    split_ifs with hk <;> simp [hk]
  | inner kids ih =>
    have hiff := ih (slot k L) (h.2.2 _).1
    have hhas : (inner kids).Has k ↔ (kids (slot k L)).Has k := by
      simp only [Has, mem_entries_inner]
      constructor
      · rintro ⟨v, s, hs⟩
        exact ⟨v, by rwa [← (h.2.2 s).2 _ hs] at hs⟩
      · rintro ⟨v, hv⟩
        exact ⟨v, _, hv⟩
    rw [erase, hhas, ← hiff]
    split_ifs with hf <;> simp [hf]

/-- **What `erase` lists.** Every old entry of another key. -/
theorem mem_entries_erase {T : HTree K V w} (h : T.WF slot H L) {k : K} {e : K × V} :
    e ∈ (T.erase slot L k).1.entries ↔ e.1 ≠ k ∧ e ∈ T.entries := by
  induction T generalizing L with
  | empty => simp [erase]
  | leaf es =>
    rw [erase]
    split_ifs with hk hnil
    · simp only [entries_empty, List.not_mem_nil, false_iff, not_and, entries_leaf]
      intro hne he
      have hmem : e ∈ eraseKey es k := mem_eraseKey.2 ⟨hne, he⟩
      rw [hnil] at hmem
      exact List.not_mem_nil hmem
    · simp
    · simp only [entries_leaf, iff_and_self]
      intro he hek
      exact hk (List.mem_map.2 ⟨e, he, hek⟩)
  | inner kids ih =>
    have hroute : ∀ s, ∀ e ∈ (kids s).entries, slot e.1 L = s := fun s => (h.2.2 s).2
    have hupd : e ∈ (inner (Function.update kids (slot k L)
        ((kids (slot k L)).erase slot (L + 1) k).1)).entries ↔ e.1 ≠ k ∧ e ∈ (inner kids).entries := by
      rw [mem_entries_update hroute, ih _ (h.2.2 _).1]
      constructor
      · rintro (⟨hne, he⟩ | ⟨hs, he⟩)
        · exact ⟨hne, mem_entries_inner.2 ⟨_, he⟩⟩
        · exact ⟨fun hek => hs (by rw [hek]), he⟩
      · rintro ⟨hne, he⟩
        by_cases hs : slot e.1 L = slot k L
        · obtain ⟨t, ht⟩ := mem_entries_inner.1 he
          refine .inl ⟨hne, ?_⟩
          rwa [← hs, hroute t e ht]
        · exact .inr ⟨hs, he⟩
    rw [erase]
    split_ifs with hf
    · rw [← hupd, mem_entries_inner, mem_entries_node]
    · -- nothing was found below the slot, so the key is nowhere in the trie
      have hno : ¬ (inner kids).Has k := by
        rw [← erase_found_iff h, erase, if_neg hf]
        simp
      simp only [iff_and_self]
      rintro he rfl
      exact hno ⟨e.2, he⟩

theorem WF.erase {T : HTree K V w} (h : T.WF slot H L) (k : K) : (T.erase slot L k).1.WF slot H L := by
  induction T generalizing L with
  | empty => exact trivial
  | leaf es =>
    rw [HTree.erase]
    split_ifs with hk hnil
    · exact trivial
    · exact ⟨hnil, h.2.filter _⟩
    · exact h
  | inner kids ih =>
    rw [HTree.erase]
    split_ifs with hf
    · obtain ⟨hL, -, hkids⟩ := h
      refine WF.node hL fun s => ?_
      by_cases hs : s = slot k L
      · subst hs
        rw [Function.update_self]
        exact ⟨ih _ (hkids _).1, fun e he => (hkids _).2 e ((mem_entries_erase (hkids _).1).1 he).2⟩
      · rw [Function.update_of_ne hs]
        exact hkids s
    · exact h

theorem WF.lookup_erase {T : HTree K V w} (h : T.WF slot H L) (k k' : K) :
    (T.erase slot L k).1.lookup slot L k' = if k' = k then none else T.lookup slot L k' := by
  ext v'
  rw [(h.erase k).lookup_eq_some_iff, mem_entries_erase h]
  split_ifs with hk
  · simp [hk]
  · rw [h.lookup_eq_some_iff]
    simp [hk]

end Ops

end HTree

section Put

variable {K V : Type*} [LinearOrder K]

/-- The entries with `v` at `k`, in the order of their keys. -/
noncomputable def put (es : List (K × V)) (k : K) (v : V) : List (K × V) :=
  sortKeys (if k ∈ es.map Prod.fst then replaceKey es k v else es ++ [(k, v)])

end Put

end Rend.Lib
