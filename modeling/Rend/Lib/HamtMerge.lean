import Rend.Lib.Hamt

/-!
# Three-way merge of tries

`merge3 r a b base` merges one value, where `r` is the equality the values are compared by: a side that did not
change gives way to the other, and two different changes do not merge. `HTree.merge` merges two tries against a
third by walking them together. It stops as soon as two of the three agree, fuses a leaf with a leaf by the rule it
is given, merges inner node with inner node, and gives up where a leaf meets an inner node or two leaves do not
fuse. Where the base is of the other shape than the two sides, it is taken as empty.

With the rule `mergeEntries r`, which merges two leaves entry by entry:

* `merge_eq_none_iff`: the merge gives up exactly where it is `Stuck`.
* `merge_spec_iff`: a merged trie is the per-key merge exactly when the three are `Aligned`, that is,
  when both sides agree on every key of a base that was taken as empty.
* `Stuck.excused`: aligned tries get stuck only on a conflict or on different shapes.
-/

namespace Rend.Lib

open scoped Classical

section Merge3

variable {V : Type*} (r : V → V → Prop)

/-- Two values that are equal, or no value twice. -/
abbrev Alike (a b : Option V) : Prop := Option.Rel r a b

/-- The merge of one value, absence counting as a value. -/
noncomputable def merge3 (a b base : Option V) : Option (Option V) :=
  if Alike r a b then some a else if Alike r a base then some b else if Alike r b base then some a else none

/-- `m` is the three-way merge of `a` and `b` over `base`, and is the one or the other. -/
structure Merges (a b base m : Option V) : Prop where
  taken : m = a ∨ m = b
  left : Alike r a base → Alike r m b
  right : Alike r b base → Alike r m a
  both : ¬ Alike r a base → ¬ Alike r b base → Alike r a b ∧ Alike r m a

/-- Both sides changed the value, to different values. -/
def Clash (a b base : Option V) : Prop := ¬ Alike r a b ∧ ¬ Alike r a base ∧ ¬ Alike r b base

variable {r} {a b base m : Option V}

@[simp] theorem alike_none_iff : Alike r a none ↔ a = none := by
  constructor
  · rintro ⟨⟩
    rfl
  · rintro rfl
    exact .none

theorem Alike.eq_none_iff (h : Alike r a b) : a = none ↔ b = none := by
  cases h <;> simp

theorem alike_refl (hr : Equivalence r) (a : Option V) : Alike r a a := by
  cases a with
  | none => exact .none
  | some v => exact .some (hr.refl v)

theorem Alike.symm (hr : Equivalence r) (h : Alike r a b) : Alike r b a := by
  cases h with
  | none => exact .none
  | some h => exact .some (hr.symm h)

theorem Alike.trans (hr : Equivalence r) {c : Option V} (h : Alike r a b) (h' : Alike r b c) : Alike r a c := by
  cases h with
  | none => exact h'
  | some h =>
    cases h' with
    | some h' => exact .some (hr.trans h h')

theorem alike_of_eq (hr : Equivalence r) (h : a = b) : Alike r a b := h ▸ alike_refl hr a

theorem alike_comm (hr : Equivalence r) : Alike r a b ↔ Alike r b a := ⟨.symm hr, .symm hr⟩

theorem merge3_eq_none_iff : merge3 r a b base = none ↔ Clash r a b base := by
  unfold merge3 Clash
  split_ifs with hab hac hbc <;> simp [*]

theorem merge3_cases (h : merge3 r a b base = some m) :
    (Alike r a b ∧ m = a) ∨ (¬ Alike r a b ∧ Alike r a base ∧ m = b) ∨
      (¬ Alike r a b ∧ Alike r b base ∧ m = a) := by
  unfold merge3 at h
  split_ifs at h with hab hac hbc
  · exact .inl ⟨hab, (Option.some.inj h).symm⟩
  · exact .inr (.inl ⟨hab, hac, (Option.some.inj h).symm⟩)
  · exact .inr (.inr ⟨hab, hbc, (Option.some.inj h).symm⟩)

/-- Sides that agree merge to either of them, over any base. -/
theorem merges_of_alike (hr : Equivalence r) (h : Alike r a b) (hm : m = a ∨ m = b) : Merges r a b base m := by
  have hma : Alike r m a := hm.elim (alike_of_eq hr) fun hm => (alike_of_eq hr hm).trans hr (h.symm hr)
  exact ⟨hm, fun _ => hma.trans hr h, fun _ => hma, fun _ _ => ⟨h, hma⟩⟩

theorem merges_of_eq (hr : Equivalence r) : Merges r a a base a := merges_of_alike hr (alike_refl hr a) (.inl rfl)

theorem merges_left (hr : Equivalence r) : Merges r a b a b :=
  ⟨.inr rfl, fun _ => alike_refl hr b, id, fun h => absurd (alike_refl hr a) h⟩

theorem merges_right (hr : Equivalence r) : Merges r a b b a :=
  ⟨.inl rfl, id, fun _ => alike_refl hr a, fun _ h => absurd (alike_refl hr b) h⟩

theorem merges_of_merge3 (hr : Equivalence r) (h : merge3 r a b base = some m) : Merges r a b base m := by
  rcases merge3_cases h with ⟨hab, rfl⟩ | ⟨-, hac, rfl⟩ | ⟨-, hbc, rfl⟩
  · exact merges_of_alike hr hab (.inl rfl)
  · exact ⟨.inr rfl, fun _ => alike_refl hr m, fun hbc => hbc.trans hr (hac.symm hr), fun hne => absurd hac hne⟩
  · exact ⟨.inl rfl, fun hac => hac.trans hr (hbc.symm hr), fun _ => alike_refl hr m, fun _ hne => absurd hbc hne⟩

/-- One result that merges over a value and over its absence: the sides agree. -/
theorem Merges.alike_of_none (hr : Equivalence r) (hbase : base ≠ none) (h : Merges r a b base m)
    (h' : Merges r a b none m) : Alike r a b := by
  by_cases hac : Alike r a base
  · have hm := h.left hac
    have ha : a ≠ none := mt hac.eq_none_iff.1 hbase
    by_cases hb : b = none
    · exact (h'.right (alike_none_iff.2 hb)).symm hr |>.trans hr hm
    · exact (h'.both (mt alike_none_iff.1 ha) (mt alike_none_iff.1 hb)).1
  · by_cases hbc : Alike r b base
    · have hm := h.right hbc
      have hb : b ≠ none := mt hbc.eq_none_iff.1 hbase
      by_cases ha : a = none
      · exact (hm.symm hr).trans hr (h'.left (alike_none_iff.2 ha))
      · exact (h'.both (mt alike_none_iff.1 ha) (mt alike_none_iff.1 hb)).1
    · exact (h.both hac hbc).1

/-- A merge that may not drop a key of the base drops no key. -/
theorem Merges.ne_none {c : Option V} (h : Merges r a b c m) (hc : c ≠ none → a ≠ none ∧ b ≠ none)
    (hab : a ≠ none ∨ b ≠ none) : m ≠ none := by
  by_cases hac : Alike r a c
  · rw [Ne, (h.left hac).eq_none_iff]
    rcases hab with ha | hb
    · exact (hc (mt hac.eq_none_iff.2 ha)).2
    · exact hb
  · by_cases hbc : Alike r b c
    · rw [Ne, (h.right hbc).eq_none_iff]
      rcases hab with ha | hb
      · exact ha
      · exact (hc (mt hbc.eq_none_iff.2 hb)).1
    · obtain ⟨heq, hma⟩ := h.both hac hbc
      rw [Ne, hma.eq_none_iff]
      rcases hab with ha | hb
      · exact ha
      · rwa [heq.eq_none_iff]

end Merge3

section MergeEntries

variable {K V : Type*} [LinearOrder K]

/-- The keys in increasing order, each once. -/
def unionKeys (ks : List K) : List K := ks.dedup.insertionSort (· ≤ ·)

@[simp] theorem mem_unionKeys {ks : List K} {k : K} : k ∈ unionKeys ks ↔ k ∈ ks := by
  rw [unionKeys, (List.perm_insertionSort _ _).mem_iff, List.mem_dedup]

theorem unionKeys_sorted (ks : List K) : (unionKeys ks).Pairwise (· < ·) := by
  have hle : (unionKeys ks).Pairwise (· ≤ ·) := List.pairwise_insertionSort _ _
  have hnd : (unionKeys ks).Nodup := (List.perm_insertionSort _ _).nodup_iff.2 (List.nodup_dedup ks)
  exact (hle.and hnd).imp fun hab => lt_of_le_of_ne hab.1 hab.2

/-- Merges each key in turn, dropping those merged to absence, and gives up at a clash. -/
def mergeKeys (f : K → Option (Option V)) : List K → Option (List (K × V))
  | [] => some []
  | k :: ks => (f k).bind fun r => (mergeKeys f ks).map fun es => (r.map fun v => (k, v)).toList ++ es

omit [LinearOrder K] in
theorem mergeKeys_eq_none_iff {f : K → Option (Option V)} {ks : List K} :
    mergeKeys f ks = none ↔ ∃ k ∈ ks, f k = none := by
  induction ks with
  | nil => simp [mergeKeys]
  | cons k ks ih =>
    cases hk : f k with
    | none => simp [mergeKeys, hk]
    | some r =>
      cases hks : mergeKeys f ks with
      | none => simpa [mergeKeys, hk, hks] using ih.1 hks
      | some es => simpa [mergeKeys, hk, hks] using mt ih.2 (by simp [hks])

omit [LinearOrder K] in
theorem mem_mergeKeys {f : K → Option (Option V)} {ks : List K} {es : List (K × V)}
    (h : mergeKeys f ks = some es) {e : K × V} : e ∈ es ↔ e.1 ∈ ks ∧ f e.1 = some (some e.2) := by
  induction ks generalizing es with
  | nil =>
    simp only [mergeKeys, Option.some.injEq] at h
    simp [← h]
  | cons k ks ih =>
    cases hk : f k with
    | none => simp [mergeKeys, hk] at h
    | some r =>
      cases hks : mergeKeys f ks with
      | none => simp [mergeKeys, hk, hks] at h
      | some es' =>
        simp only [mergeKeys, hk, hks, Option.bind_some, Option.map_some, Option.some.injEq] at h
        obtain ⟨a, b⟩ := e
        rw [← h, List.mem_append, ih hks]
        simp only [Option.mem_toList, Option.map_eq_some_iff, Prod.mk.injEq, List.mem_cons]
        constructor
        · rintro (⟨v, rfl, rfl, rfl⟩ | ⟨ha, hf⟩)
          · exact ⟨.inl rfl, hk⟩
          · exact ⟨.inr ha, hf⟩
        · rintro ⟨rfl | ha, hf⟩
          · rw [hk, Option.some.injEq] at hf
            exact .inl ⟨b, hf, rfl, rfl⟩
          · exact .inr ⟨ha, hf⟩

theorem mergeKeys_sorted {f : K → Option (Option V)} {ks : List K} {es : List (K × V)}
    (hks : ks.Pairwise (· < ·)) (h : mergeKeys f ks = some es) : SortedKeys es := by
  induction ks generalizing es with
  | nil =>
    simp only [mergeKeys, Option.some.injEq] at h
    simp [← h, SortedKeys]
  | cons k ks ih =>
    cases hk : f k with
    | none => simp [mergeKeys, hk] at h
    | some r =>
      cases hes : mergeKeys f ks with
      | none => simp [mergeKeys, hk, hes] at h
      | some es' =>
        simp only [mergeKeys, hk, hes, Option.bind_some, Option.map_some, Option.some.injEq] at h
        rw [List.pairwise_cons] at hks
        have htail := ih hks.2 hes
        cases r with
        | none => simpa [← h] using htail
        | some v =>
          simp only [Option.map_some, Option.toList_some, List.singleton_append] at h
          rw [← h, SortedKeys, List.pairwise_cons]
          exact ⟨fun e he => hks.1 _ ((mem_mergeKeys hes).1 he).1, htail⟩

/-- The merge of three lists of entries, in the order of the keys. -/
noncomputable def mergeEntries (r : V → V → Prop) (ea eb ec : List (K × V)) : Option (List (K × V)) :=
  mergeKeys (fun k => merge3 r (assoc ea k) (assoc eb k) (assoc ec k))
    (unionKeys (ea.map Prod.fst ++ eb.map Prod.fst ++ ec.map Prod.fst))

variable {r : V → V → Prop}

/-- A merged list holds at each key what `merge3` gives. -/
theorem merge3_of_mergeEntries {ea eb ec es : List (K × V)} (h : mergeEntries r ea eb ec = some es) (k : K) :
    merge3 r (assoc ea k) (assoc eb k) (assoc ec k) = some (assoc es k) := by
  have hsorted := mergeKeys_sorted (unionKeys_sorted _) h
  by_cases hk : k ∈ unionKeys (ea.map Prod.fst ++ eb.map Prod.fst ++ ec.map Prod.fst)
  · have hne : merge3 r (assoc ea k) (assoc eb k) (assoc ec k) ≠ none := by
      intro hnone
      have hgive : mergeEntries r ea eb ec = none := mergeKeys_eq_none_iff.2 ⟨k, hk, hnone⟩
      rw [h] at hgive
      cases hgive
    obtain ⟨x, hx⟩ := Option.ne_none_iff_exists'.1 hne
    have hes : assoc es k = x := by
      ext v
      rw [assoc_eq_some_iff hsorted.nodup, mem_mergeKeys h]
      simp only [hk, hx, true_and, Option.some.injEq]
    rw [hes, hx]
  · have hnone : ∀ l : List (K × V), (∀ a ∈ l.map Prod.fst, a ∈ unionKeys (ea.map Prod.fst ++
        eb.map Prod.fst ++ ec.map Prod.fst)) → assoc l k = none :=
      fun l hl => assoc_eq_none_iff.2 fun hkl => hk (hl k hkl)
    rw [hnone ea fun a ha => by simp_all, hnone eb fun a ha => by simp_all,
      hnone ec fun a ha => by simp_all, hnone es fun a ha => ?_]
    · exact if_pos .none
    · obtain ⟨e, he, rfl⟩ := List.mem_map.1 ha
      exact ((mem_mergeKeys h).1 he).1

/-- A merged list is the per-key merge of the three. -/
theorem mergeEntries_spec (hr : Equivalence r) {ea eb ec es : List (K × V)}
    (h : mergeEntries r ea eb ec = some es) (k : K) :
    Merges r (assoc ea k) (assoc eb k) (assoc ec k) (assoc es k) :=
  merges_of_merge3 hr (merge3_of_mergeEntries h k)

/-- A merged list has entries of the two sides only. -/
theorem mem_mergeEntries {ea eb ec es : List (K × V)} (hna : (ea.map Prod.fst).Nodup)
    (hnb : (eb.map Prod.fst).Nodup) (h : mergeEntries r ea eb ec = some es) {e : K × V}
    (he : e ∈ es) : e ∈ ea ∨ e ∈ eb := by
  have hsorted := mergeKeys_sorted (unionKeys_sorted _) h
  have hval := merge3_of_mergeEntries h e.1
  rw [(assoc_eq_some_iff hsorted.nodup).2 he] at hval
  rcases merge3_cases hval with ⟨-, hm⟩ | ⟨-, -, hm⟩ | ⟨-, -, hm⟩
  · exact .inl ((assoc_eq_some_iff hna).1 hm.symm)
  · exact .inr ((assoc_eq_some_iff hnb).1 hm.symm)
  · exact .inl ((assoc_eq_some_iff hna).1 hm.symm)

theorem mergeEntries_eq_none_iff {ea eb ec : List (K × V)} : mergeEntries r ea eb ec = none ↔
    ∃ k, Clash r (assoc ea k) (assoc eb k) (assoc ec k) := by
  rw [mergeEntries, mergeKeys_eq_none_iff]
  constructor
  · rintro ⟨k, -, hk⟩
    exact ⟨k, merge3_eq_none_iff.1 hk⟩
  · rintro ⟨k, hk⟩
    refine ⟨k, ?_, merge3_eq_none_iff.2 hk⟩
    -- a clash needs a key that one side holds
    rw [mem_unionKeys, List.mem_append, List.mem_append]
    by_contra hno
    simp only [not_or] at hno
    refine hk.1 ?_
    rw [assoc_eq_none_iff.2 hno.1.1, assoc_eq_none_iff.2 hno.1.2]
    exact .none

end MergeEntries

namespace HTree

variable {K V : Type*} {w : ℕ}

/-- The entries of a leaf; other shapes count as an empty leaf. -/
def leafEntries : HTree K V w → List (K × V)
  | leaf es => es
  | _ => []

/-- The child of an inner node; other shapes count as an inner node without children. -/
def kid : HTree K V w → Fin w → HTree K V w
  | inner kids, s => kids s
  | _, _ => empty

/-- A leaf with these entries, or nothing when there are none. -/
def leafOf : List (K × V) → HTree K V w
  | [] => empty
  | es => leaf es

theorem leafOf_of_ne_nil {es : List (K × V)} (h : es ≠ []) : (leafOf es : HTree K V w) = leaf es := by
  cases es with
  | nil => exact absurd rfl h
  | cons e es => rfl

/-- Puts merged children together, unless one did not merge. -/
noncomputable def mergeKids (f : Fin w → Option (HTree K V w)) : Option (HTree K V w) :=
  if ∀ s, (f s).isSome then some (node fun s => (f s).getD empty) else none

/-- Settles a merge at once when two of the three agree. -/
noncomputable def mergeTop (a b c : HTree K V w) (rest : Option (HTree K V w)) : Option (HTree K V w) :=
  if a = b then some a else if a = c then some b else if b = c then some a else rest

/-- No two of the three agree, so that the merge has to look inside. -/
def Apart (a b c : HTree K V w) : Prop := a ≠ b ∧ a ≠ c ∧ b ≠ c

theorem mergeTop_eq_none_iff {a b c : HTree K V w} {rest : Option (HTree K V w)} :
    mergeTop a b c rest = none ↔ Apart a b c ∧ rest = none := by
  unfold mergeTop Apart
  split_ifs <;> simp_all

theorem mergeKids_eq_none_iff {f : Fin w → Option (HTree K V w)} :
    mergeKids f = none ↔ ∃ s, f s = none := by
  unfold mergeKids
  split_ifs with h
  · simp only [false_iff, not_exists]
    exact fun s hs => by simpa [hs] using h s
  · simpa using h

theorem mergeTop_eq_some {a b c m : HTree K V w} {rest : Option (HTree K V w)}
    (h : mergeTop a b c rest = some m) :
    (a = b ∧ m = a) ∨ (a = c ∧ m = b) ∨ (b = c ∧ m = a) ∨ (Apart a b c ∧ rest = some m) := by
  unfold mergeTop at h
  split_ifs at h with hab hac hbc
  · exact .inl ⟨hab, (Option.some.inj h).symm⟩
  · exact .inr (.inl ⟨hac, (Option.some.inj h).symm⟩)
  · exact .inr (.inr (.inl ⟨hbc, (Option.some.inj h).symm⟩))
  · exact .inr (.inr (.inr ⟨⟨hab, hac, hbc⟩, h⟩))

theorem mergeKids_eq_some {f : Fin w → Option (HTree K V w)} {m : HTree K V w}
    (h : mergeKids f = some m) :
    ∃ kids : Fin w → HTree K V w, (∀ s, f s = some (kids s)) ∧ m = node kids := by
  unfold mergeKids at h
  split_ifs at h with hall
  refine ⟨fun s => (f s).getD empty, fun s => ?_, (Option.some.inj h).symm⟩
  obtain ⟨x, hx⟩ := Option.isSome_iff_exists.1 (hall s)
  simp [hx]

/-- The three-way merge of `a` and `b` over `c`, where `fuse` merges the entries of leaves. -/
noncomputable def merge (fuse : List (K × V) → List (K × V) → List (K × V) → Option (List (K × V))) :
    HTree K V w → HTree K V w → HTree K V w → Option (HTree K V w)
  | leaf ea, leaf eb, c =>
    mergeTop (leaf ea) (leaf eb) c ((fuse ea eb c.leafEntries).map leafOf)
  | inner ka, inner kb, c =>
    mergeTop (inner ka) (inner kb) c (mergeKids fun s => merge fuse (ka s) (kb s) (c.kid s))
  | a, b, c => mergeTop a b c none

/-- The merge gives up: at an entry that clashes, or where the sides differ in shape. -/
def Stuck (r : V → V → Prop) : HTree K V w → HTree K V w → HTree K V w → Prop
  | leaf ea, leaf eb, c => Apart (leaf ea) (leaf eb) c ∧
      ∃ k, Clash r (assoc ea k) (assoc eb k) (assoc c.leafEntries k)
  | inner ka, inner kb, c => Apart (inner ka) (inner kb) c ∧ ∃ s, Stuck r (ka s) (kb s) (c.kid s)
  | a, b, c => Apart a b c

/-- The merge meets sides of different shapes. -/
def Mismatch : HTree K V w → HTree K V w → HTree K V w → Prop
  | leaf _, leaf _, _ => False
  | inner ka, inner kb, c => Apart (inner ka) (inner kb) c ∧ ∃ s, Mismatch (ka s) (kb s) (c.kid s)
  | a, b, c => Apart a b c

/-- Wherever the merge takes a base of the other shape as empty, both sides agree on its keys. -/
def Aligned (r : V → V → Prop) (slot : K → ℕ → Fin w) :
    HTree K V w → HTree K V w → HTree K V w → ℕ → Prop
  | leaf ea, leaf eb, inner kc, _ => Apart (leaf ea) (leaf eb) (inner kc) →
      ∀ k, (inner kc).Has k → Alike r (assoc ea k) (assoc eb k)
  | inner ka, inner kb, leaf ec, L => Apart (inner ka) (inner kb) (leaf ec) →
      ∀ k, (leaf ec : HTree K V w).Has k →
        Alike r ((inner ka).lookup slot L k) ((inner kb).lookup slot L k)
  | inner ka, inner kb, inner kc, L => Apart (inner ka) (inner kb) (inner kc) →
      ∀ s, Aligned r slot (ka s) (kb s) (kc s) (L + 1)
  | _, _, _, _ => True

/-- The walk comes to sides of different shapes, or to a key that each side has otherwise than the other and
than the base. Below a base of another shape the walk sees no base: `g` is what the base holds there. -/
def Excused (r : V → V → Prop) (slot : K → ℕ → Fin w) (g : K → Option V) :
    HTree K V w → HTree K V w → HTree K V w → ℕ → Prop
  | leaf ea, leaf eb, _, _ => ∃ k, Clash r (assoc ea k) (assoc eb k) (g k)
  | inner ka, inner kb, c, L => Apart (inner ka) (inner kb) c ∧
      ∃ s, Excused r slot g (ka s) (kb s) (c.kid s) (L + 1)
  | a, b, c, L => Apart a b c ∨ ∃ k, Clash r (a.lookup slot L k) (b.lookup slot L k) (g k)

variable {fuse : List (K × V) → List (K × V) → List (K × V) → Option (List (K × V))} {r : V → V → Prop}
  {slot : K → ℕ → Fin w} {H L : ℕ}

/-! ### When the merge gives up -/

/-- The three-way merge first settles what it can at once. -/
theorem exists_merge_eq_mergeTop (a b c : HTree K V w) : ∃ rest, merge fuse a b c = mergeTop a b c rest := by
  cases a <;> cases b <;> simp only [merge] <;> exact ⟨_, rfl⟩

/-- The merge gives up exactly where it is stuck. -/
theorem merge_eq_none_iff [LinearOrder K] {a b c : HTree K V w} :
    merge (mergeEntries r) a b c = none ↔ Stuck r a b c := by
  induction a generalizing b c with
  | empty => cases b <;> simp [merge, Stuck, mergeTop_eq_none_iff]
  | leaf ea =>
    cases b with
    | leaf eb =>
      rw [merge, mergeTop_eq_none_iff, Option.map_eq_none_iff, mergeEntries_eq_none_iff, Stuck]
    | _ => simp [merge, Stuck, mergeTop_eq_none_iff]
  | inner ka ih =>
    cases b with
    | inner kb =>
      rw [merge, mergeTop_eq_none_iff, mergeKids_eq_none_iff, Stuck]
      simp only [ih]
    | _ => simp [merge, Stuck, mergeTop_eq_none_iff]

/-! ### What a merged trie holds -/

/-- The ways a merge can come out: two of the three agree, or two leaves or two inner nodes have
been merged. -/
theorem merge_cases {a b c m : HTree K V w} (h : merge fuse a b c = some m) :
    (a = b ∧ m = a) ∨ (a = c ∧ m = b) ∨ (b = c ∧ m = a) ∨
    (∃ ea eb es, a = leaf ea ∧ b = leaf eb ∧ Apart a b c ∧
      fuse ea eb c.leafEntries = some es ∧ m = leafOf es) ∨
    (∃ ka kb km, a = inner ka ∧ b = inner kb ∧ Apart a b c ∧
      (∀ s, merge fuse (ka s) (kb s) (c.kid s) = some (km s)) ∧ m = node km) := by
  have hshape : ∀ {rest}, mergeTop a b c rest = some m → rest = none →
      (a = b ∧ m = a) ∨ (a = c ∧ m = b) ∨ (b = c ∧ m = a) := by
    intro rest hm hrest
    rcases mergeTop_eq_some hm with h | h | h | ⟨-, h⟩
    · exact .inl h
    · exact .inr (.inl h)
    · exact .inr (.inr h)
    · rw [hrest] at h
      cases h
  have hwiden : ∀ {P : Prop}, (a = b ∧ m = a) ∨ (a = c ∧ m = b) ∨ (b = c ∧ m = a) →
      (a = b ∧ m = a) ∨ (a = c ∧ m = b) ∨ (b = c ∧ m = a) ∨ P := fun h =>
    h.imp_right fun h => h.imp_right .inl
  cases a with
  | empty => exact hwiden (hshape (by simpa only [merge] using h) rfl)
  | leaf ea =>
    cases b with
    | leaf eb =>
      rw [merge] at h
      rcases mergeTop_eq_some h with h | h | h | ⟨hapart, hm⟩
      · exact .inl h
      · exact .inr (.inl h)
      · exact .inr (.inr (.inl h))
      · obtain ⟨es, hes, rfl⟩ := Option.map_eq_some_iff.1 hm
        exact .inr (.inr (.inr (.inl ⟨ea, eb, es, rfl, rfl, hapart, hes, rfl⟩)))
    | empty => exact hwiden (hshape (by simpa only [merge] using h) rfl)
    | inner kb => exact hwiden (hshape (by simpa only [merge] using h) rfl)
  | inner ka =>
    cases b with
    | inner kb =>
      rw [merge] at h
      rcases mergeTop_eq_some h with h | h | h | ⟨hapart, hm⟩
      · exact .inl h
      · exact .inr (.inl h)
      · exact .inr (.inr (.inl h))
      · obtain ⟨km, hkm, rfl⟩ := mergeKids_eq_some hm
        exact .inr (.inr (.inr (.inr ⟨ka, kb, km, rfl, rfl, hapart, hkm, rfl⟩)))
    | empty => exact hwiden (hshape (by simpa only [merge] using h) rfl)
    | leaf eb => exact hwiden (hshape (by simpa only [merge] using h) rfl)

theorem mem_leafOf {es : List (K × V)} {e : K × V} : e ∈ (leafOf es : HTree K V w).entries ↔ e ∈ es := by
  cases es <;> simp [leafOf]

theorem lookup_leafOf (es : List (K × V)) (k : K) :
    (leafOf es : HTree K V w).lookup slot L k = assoc es k := by
  cases es with
  | nil => simp [leafOf, lookup, assoc]
  | cons e es => rfl

theorem lookup_node (kids : Fin w → HTree K V w) (k : K) :
    (node kids).lookup slot L k = (kids (slot k L)).lookup slot (L + 1) k := by
  rw [node]
  split_ifs with h
  · rw [h]
    rfl
  · rfl

variable [LinearOrder K]

/-- A merged trie holds nothing that neither side holds. -/
theorem mem_entries_merge {a b c m : HTree K V w} (ha : a.WF slot H L) (hb : b.WF slot H L)
    (h : merge (mergeEntries r) a b c = some m) {e : K × V} (he : e ∈ m.entries) : e ∈ a.entries ∨ e ∈ b.entries := by
  induction a generalizing b c m L with
  | empty =>
    rcases merge_cases h with ⟨-, rfl⟩ | ⟨-, rfl⟩ | ⟨-, rfl⟩ | ⟨_, _, _, h, -⟩ | ⟨_, _, _, h, -⟩
    · exact .inl he
    · exact .inr he
    · exact .inl he
    · cases h
    · cases h
  | leaf ea =>
    rcases merge_cases h with ⟨-, rfl⟩ | ⟨-, rfl⟩ | ⟨-, rfl⟩ | ⟨_, eb, es, h1, rfl, -, hes, rfl⟩ |
      ⟨_, _, _, h, -⟩
    · exact .inl he
    · exact .inr he
    · exact .inl he
    · cases h1
      rw [mem_leafOf] at he
      exact mem_mergeEntries ha.2.nodup hb.2.nodup hes he
    · cases h
  | inner ka ih =>
    rcases merge_cases h with ⟨-, rfl⟩ | ⟨-, rfl⟩ | ⟨-, rfl⟩ | ⟨_, _, _, h, -⟩ |
      ⟨_, kb, km, h1, rfl, -, hkm, rfl⟩
    · exact .inl he
    · exact .inr he
    · exact .inl he
    · cases h
    · cases h1
      obtain ⟨s, hs⟩ := mem_entries_node.1 he
      rcases ih s (ha.2.2 s).1 (hb.2.2 s).1 (hkm s) hs with hs | hs
      · exact .inl (mem_entries_inner.2 ⟨s, hs⟩)
      · exact .inr (mem_entries_inner.2 ⟨s, hs⟩)

/-- A merged trie is well-levelled. -/
theorem WF.merge {a b c m : HTree K V w} (ha : a.WF slot H L) (hb : b.WF slot H L)
    (h : merge (mergeEntries r) a b c = some m) : m.WF slot H L := by
  induction a generalizing b c m L with
  | empty =>
    rcases merge_cases h with ⟨-, rfl⟩ | ⟨-, rfl⟩ | ⟨-, rfl⟩ | ⟨_, _, _, h, -⟩ | ⟨_, _, _, h, -⟩
    · exact ha
    · exact hb
    · exact ha
    · cases h
    · cases h
  | leaf ea =>
    rcases merge_cases h with ⟨-, rfl⟩ | ⟨-, rfl⟩ | ⟨-, rfl⟩ | ⟨_, eb, es, h1, rfl, -, hes, rfl⟩ |
      ⟨_, _, _, h, -⟩
    · exact ha
    · exact hb
    · exact ha
    · have hsorted := mergeKeys_sorted (unionKeys_sorted _) hes
      cases es with
      | nil => exact trivial
      | cons e es => exact ⟨by simp, hsorted⟩
    · cases h
  | inner ka ih =>
    rcases merge_cases h with ⟨-, rfl⟩ | ⟨-, rfl⟩ | ⟨-, rfl⟩ | ⟨_, _, _, h, -⟩ |
      ⟨_, kb, km, h1, rfl, -, hkm, rfl⟩
    · exact ha
    · exact hb
    · exact ha
    · cases h
    · cases h1
      refine WF.node ha.1 fun s => ⟨ih s (ha.2.2 s).1 (hb.2.2 s).1 (hkm s), fun e he => ?_⟩
      rcases mem_entries_merge (ha.2.2 s).1 (hb.2.2 s).1 (hkm s) he with he | he
      · exact (ha.2.2 s).2 e he
      · exact (hb.2.2 s).2 e he

theorem WF.leafEntries {c : HTree K V w} (h : c.WF slot H L) : SortedKeys c.leafEntries := by
  cases c with
  | leaf es => exact h.2
  | _ => exact .nil

theorem WF.kid {c : HTree K V w} (h : c.WF slot H L) (s : Fin w) :
    (c.kid s).WF slot H (L + 1) ∧ ∀ e ∈ (c.kid s).entries, slot e.1 L = s := by
  cases c with
  | inner kc => exact h.2.2 s
  | _ => exact ⟨trivial, by simp [HTree.kid]⟩

/-- A key that is not routed to a child is not found there. -/
theorem WF.lookup_of_ne {T : HTree K V w} {s : Fin w} {k : K} (h : T.WF slot H (L + 1))
    (hroute : ∀ e ∈ T.entries, slot e.1 L = s) (hk : slot k L ≠ s) : T.lookup slot (L + 1) k = none := by
  rw [h.lookup_eq_none_iff]
  rintro ⟨v, hv⟩
  exact hk (hroute _ hv)

omit [LinearOrder K] in
theorem aligned_empty (a b : HTree K V w) (L : ℕ) : Aligned r slot a b empty L := by
  cases a <;> cases b <;> trivial

omit [LinearOrder K] in
theorem aligned_leaf (ea ec : List (K × V)) (b : HTree K V w) (L : ℕ) :
    Aligned r slot (leaf ea) b (leaf ec) L := by
  cases b <;> trivial

omit [LinearOrder K] in
theorem aligned_of_eq {a b c : HTree K V w} (h : ¬ Apart a b c) : Aligned r slot a b c L := by
  cases a <;> cases b <;> cases c <;> first | trivial | exact fun ha => absurd ha h

/-- **A merged trie is the per-key merge** of the two sides over the base exactly when the three are
aligned. -/
theorem merge_spec_iff (hr : Equivalence r) {a b c m : HTree K V w} (ha : a.WF slot H L) (hb : b.WF slot H L)
    (hc : c.WF slot H L) (h : merge (mergeEntries r) a b c = some m) : Aligned r slot a b c L ↔
      ∀ k, Merges r (a.lookup slot L k) (b.lookup slot L k) (c.lookup slot L k) (m.lookup slot L k) := by
  induction a generalizing b c m L with
  | empty =>
    rcases merge_cases h with ⟨rfl, rfl⟩ | ⟨rfl, rfl⟩ | ⟨rfl, rfl⟩ | ⟨_, _, _, h, -⟩ | ⟨_, _, _, h, -⟩
    · exact iff_of_true (aligned_of_eq fun h => h.1 rfl) fun k => merges_of_eq hr
    · exact iff_of_true (aligned_of_eq fun h => h.2.1 rfl) fun k => merges_left hr
    · exact iff_of_true (aligned_of_eq fun h => h.2.2 rfl) fun k => merges_right hr
    · cases h
    · cases h
  | leaf ea =>
    rcases merge_cases h with ⟨rfl, rfl⟩ | ⟨rfl, rfl⟩ | ⟨rfl, rfl⟩ | ⟨_, eb, es, h1, rfl, hapart, hes, rfl⟩ |
      ⟨_, _, _, h, -⟩
    · exact iff_of_true (aligned_of_eq fun h => h.1 rfl) fun k => merges_of_eq hr
    · exact iff_of_true (aligned_of_eq fun h => h.2.1 rfl) fun k => merges_left hr
    · exact iff_of_true (aligned_of_eq fun h => h.2.2 rfl) fun k => merges_right hr
    · cases h1
      have hspec := mergeEntries_spec hr hes
      simp only [lookup_leafOf]
      cases c with
      | empty => exact iff_of_true trivial fun k => hspec k
      | leaf ec => exact iff_of_true trivial fun k => hspec k
      | inner kc =>
        -- the base was taken as empty
        have hnone : ∀ k, assoc (inner kc : HTree K V w).leafEntries k = none := fun k => by
          simp [leafEntries, assoc]
        simp only [hnone] at hspec
        constructor
        · intro hal k
          by_cases hk : (inner kc).Has k
          · exact merges_of_alike hr (hal hapart k hk) (hspec k).taken
          · rw [hc.lookup_eq_none_iff.2 hk]
            exact hspec k
        · intro hall _ k hk
          exact (hall k).alike_of_none hr (mt hc.lookup_eq_none_iff.1 (not_not.2 hk)) (hspec k)
    · cases h
  | inner ka ih =>
    rcases merge_cases h with ⟨rfl, rfl⟩ | ⟨rfl, rfl⟩ | ⟨rfl, rfl⟩ | ⟨_, _, _, h, -⟩ |
      ⟨_, kb, km, h1, rfl, hapart, hkm, rfl⟩
    · exact iff_of_true (aligned_of_eq fun h => h.1 rfl) fun k => merges_of_eq hr
    · exact iff_of_true (aligned_of_eq fun h => h.2.1 rfl) fun k => merges_left hr
    · exact iff_of_true (aligned_of_eq fun h => h.2.2 rfl) fun k => merges_right hr
    · cases h
    · cases h1
      have hih := fun s => ih s (ha.2.2 s).1 (hb.2.2 s).1 (hc.kid s).1 (hkm s)
      simp only [lookup_node]
      cases c with
      | empty =>
        exact iff_of_true trivial fun k => (hih (slot k L)).1 (aligned_empty _ _ _) k
      | leaf ec =>
        have hspec : ∀ k, Merges r ((ka (slot k L)).lookup slot (L + 1) k)
            ((kb (slot k L)).lookup slot (L + 1) k) none ((km (slot k L)).lookup slot (L + 1) k) :=
          fun k => (hih (slot k L)).1 (aligned_empty _ _ _) k
        constructor
        · intro hal k
          by_cases hk : (leaf ec : HTree K V w).Has k
          · exact merges_of_alike hr (hal hapart k hk) (hspec k).taken
          · rw [hc.lookup_eq_none_iff.2 hk]
            exact hspec k
        · intro hall _ k hk
          exact (hall k).alike_of_none hr (mt hc.lookup_eq_none_iff.1 (not_not.2 hk)) (hspec k)
      | inner kc =>
        constructor
        · intro hal k
          exact (hih (slot k L)).1 (hal hapart (slot k L)) k
        · intro hall _ s
          refine (hih s).2 fun k => ?_
          by_cases hs : slot k L = s
          · subst hs
            exact hall k
          · -- a key of another route is in none of the four
            rw [(ha.2.2 s).1.lookup_of_ne (ha.2.2 s).2 hs, (hb.2.2 s).1.lookup_of_ne (hb.2.2 s).2 hs,
              (hc.kid s).1.lookup_of_ne (hc.kid s).2 hs,
              (WF.merge (ha.2.2 s).1 (hb.2.2 s).1 (hkm s)).lookup_of_ne (fun e he => ?_) hs]
            · exact merges_of_eq hr
            · rcases mem_entries_merge (ha.2.2 s).1 (hb.2.2 s).1 (hkm s) he with he | he
              · exact (ha.2.2 s).2 e he
              · exact (hb.2.2 s).2 e he

/-! ### Reasons to give up -/

/-- A key at which two tries of one slot clash is routed to that slot. -/
theorem routed_of_clash {a b : HTree K V w} {s : Fin w} (ha : a.WF slot H (L + 1)) (hb : b.WF slot H (L + 1))
    (hsa : ∀ e ∈ a.entries, slot e.1 L = s) (hsb : ∀ e ∈ b.entries, slot e.1 L = s) {k : K} {x : Option V}
    (h : Clash r (a.lookup slot (L + 1) k) (b.lookup slot (L + 1) k) x) : slot k L = s := by
  by_contra hne
  refine h.1 ?_
  rw [ha.lookup_of_ne hsa hne, hb.lookup_of_ne hsb hne]
  exact .none

/-- The walk finds a reason to give up exactly when there is one: a key changed to different values on both sides,
or sides of different shapes. -/
theorem excused_iff (hr : Equivalence r) {g : K → Option V} {a b c : HTree K V w} (ha : a.WF slot H L)
    (hb : b.WF slot H L) (hg : c ≠ empty → ∀ k, a.Has k ∨ b.Has k → g k = c.lookup slot L k) :
    Excused r slot g a b c L ↔
      (∃ k, Clash r (a.lookup slot L k) (b.lookup slot L k) (g k)) ∨ Mismatch a b c := by
  induction a generalizing b c L with
  | empty => cases b <;> exact or_comm
  | leaf ea =>
    cases b with
    | leaf eb => exact (or_iff_left id).symm
    | _ => exact or_comm
  | inner ka ih =>
    cases b with
    | empty => exact or_comm
    | leaf eb => exact or_comm
    | inner kb =>
      have hkid : ∀ s, c.kid s ≠ empty → ∀ k, (ka s).Has k ∨ (kb s).Has k →
          g k = (c.kid s).lookup slot (L + 1) k := by
        intro s hne k hk
        have hs : slot k L = s := by
          rcases hk with ⟨v, hv⟩ | ⟨v, hv⟩
          · exact (ha.2.2 s).2 _ hv
          · exact (hb.2.2 s).2 _ hv
        subst hs
        cases c with
        | inner kc =>
          refine hg (by simp) k (hk.imp ?_ ?_) <;>
          · rintro ⟨v, hv⟩
            exact ⟨v, mem_entries_inner.2 ⟨_, hv⟩⟩
        | _ => exact absurd rfl hne
      have hih := fun s => ih s (ha.2.2 s).1 (hb.2.2 s).1 (hkid s)
      constructor
      · rintro ⟨hap, s, hs⟩
        rcases (hih s).1 hs with ⟨k, hk⟩ | hmis
        · have hs := routed_of_clash (ha.2.2 s).1 (hb.2.2 s).1 (ha.2.2 s).2 (hb.2.2 s).2 hk
          subst hs
          exact .inl ⟨k, hk⟩
        · exact .inr ⟨hap, s, hmis⟩
      · rintro (⟨k, hk⟩ | ⟨hap, s, hmis⟩)
        · have hhas : (inner ka).Has k ∨ (inner kb).Has k := by
            by_contra hno
            rw [not_or, ← ha.lookup_eq_none_iff, ← hb.lookup_eq_none_iff] at hno
            exact hk.1 (alike_of_eq hr (hno.1.trans hno.2.symm))
          refine ⟨⟨?_, ?_, ?_⟩, slot k L, (hih _).2 (.inl ⟨k, hk⟩)⟩
          · intro hab
            exact hk.1 (hab ▸ alike_refl hr _)
          · rintro rfl
            exact hk.2.1 (alike_of_eq hr (hg (by simp) k hhas).symm)
          · rintro rfl
            exact hk.2.2 (alike_of_eq hr (hg (by simp) k hhas).symm)
        · exact ⟨hap, s, (hih s).2 (.inr hmis)⟩

/-- **Aligned tries get stuck** only on a conflict or on sides of different shapes. -/
theorem Stuck.excused {a b c : HTree K V w} (ha : a.WF slot H L) (hb : b.WF slot H L)
    (hc : c.WF slot H L) (hal : Aligned r slot a b c L) (h : Stuck r a b c) :
    (∃ k, Clash r (a.lookup slot L k) (b.lookup slot L k) (c.lookup slot L k)) ∨ Mismatch a b c := by
  induction a generalizing b c L with
  | empty => cases b <;> exact .inr h
  | leaf ea =>
    cases b with
    | empty => exact .inr h
    | inner kb => exact .inr h
    | leaf eb =>
      obtain ⟨hapart, k, hk⟩ := h
      refine .inl ⟨k, ?_⟩
      cases c with
      | empty => exact hk
      | leaf ec => exact hk
      | inner kc =>
        have hno : ¬ (inner kc).Has k := fun hhas => hk.1 (hal hapart k hhas)
        have hnone : assoc (inner kc : HTree K V w).leafEntries k = none := by
          simp [leafEntries, assoc]
        rw [hnone] at hk
        rw [hc.lookup_eq_none_iff.2 hno]
        exact hk
  | inner ka ih =>
    cases b with
    | empty => exact .inr h
    | leaf eb => exact .inr h
    | inner kb =>
      obtain ⟨hapart, s, hs⟩ := h
      have hal' : Aligned r slot (ka s) (kb s) (c.kid s) (L + 1) := by
        cases c with
        | inner kc => exact hal hapart s
        | _ => exact aligned_empty _ _ _
      rcases ih s (ha.2.2 s).1 (hb.2.2 s).1 (hc.kid s).1 hal' hs with ⟨k, hk⟩ | hmis
      · have hroute := routed_of_clash (ha.2.2 s).1 (hb.2.2 s).1 (ha.2.2 s).2 (hb.2.2 s).2 hk
        subst hroute
        refine .inl ⟨k, ?_⟩
        cases c with
        | inner kc => exact hk
        | empty => exact hk
        | leaf ec =>
          have hno : ¬ (leaf ec : HTree K V w).Has k := fun hhas => hk.1 (hal hapart k hhas)
          rw [hc.lookup_eq_none_iff.2 hno]
          exact hk
      · exact .inr ⟨hapart, s, hmis⟩

end HTree

end Rend.Lib
