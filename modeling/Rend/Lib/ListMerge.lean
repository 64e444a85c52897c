import Mathlib.Tactic

/-!
# Three-way merges of lists

Two lists are merged index by index over a base, where elements are compared by a relation `r` that need not be
equality. A merge (`Merged`) has at each index an element of one of the two sides: one that agrees with the second
side where the first agrees with the base, and else that of the first; and no index clashes. `mergeLists` finds a
merge whenever there is one (`merged_of_mergeLists`, `not_merged_of_mergeLists`), and merges may be put together and
taken apart part by part (`Merged.append`, `Merged.split`).
-/

namespace Rend.Lib

variable {α : Type*} {r : α → α → Prop}

/-- The element `m` merges `a` and `b` over `c`. -/
structure MergedElement (r : α → α → Prop) (a b c m : α) : Prop where
  mem : m = a ∨ m = b
  unchanged : r a c → r m b
  changed : ¬ r a c → m = a
  noClash : r a c ∨ r b c ∨ r a b

/-- The last list merges the first two over the third. -/
inductive Merged (r : α → α → Prop) : List α → List α → List α → List α → Prop
  | nil : Merged r [] [] [] []
  | cons {a b c m : α} {as bs cs ms : List α} (h : MergedElement r a b c m) (hs : Merged r as bs cs ms) :
      Merged r (a :: as) (b :: bs) (c :: cs) (m :: ms)

variable {as bs cs ms : List α}

theorem Merged.length (h : Merged r as bs cs ms) : ms.length = as.length := by
  induction h with
  | nil => rfl
  | cons _ _ ih => rw [List.length_cons, List.length_cons, ih]

theorem Merged.ne_nil (h : Merged r as bs cs ms) (hne : as ≠ []) : ms ≠ [] := by
  rw [← List.length_pos_iff, h.length]
  exact List.length_pos_iff.mpr hne

theorem Merged.mem (h : Merged r as bs cs ms) {m : α} (hm : m ∈ ms) : m ∈ as ∨ m ∈ bs := by
  induction h with
  | nil => cases hm
  | cons h _ ih =>
    rcases List.mem_cons.mp hm with rfl | hm
    · rcases h.mem with rfl | rfl
      · exact .inl List.mem_cons_self
      · exact .inr List.mem_cons_self
    · exact (ih hm).imp (List.mem_cons_of_mem _) (List.mem_cons_of_mem _)

/-! ### One side is the other, or the base -/

theorem Merged.self (hlen : as.length = cs.length) (hr : ∀ a ∈ as, r a a) : Merged r as as cs as := by
  induction as generalizing cs with
  | nil =>
    rw [List.length_eq_zero_iff.mp hlen.symm]
    exact .nil
  | cons a as ih =>
    obtain ⟨ha, hr⟩ := List.forall_mem_cons.mp hr
    cases cs with
    | nil => cases hlen
    | cons c cs =>
      exact .cons ⟨.inl rfl, fun _ => ha, fun _ => rfl, .inr (.inr ha)⟩ (ih (Nat.succ_injective hlen) hr)

theorem Merged.left (hlen : as.length = bs.length) (ha : ∀ a ∈ as, r a a) (hb : ∀ b ∈ bs, r b b) :
    Merged r as bs as bs := by
  induction as generalizing bs with
  | nil =>
    rw [List.length_eq_zero_iff.mp hlen.symm]
    exact .nil
  | cons a as ih =>
    obtain ⟨haa, ha⟩ := List.forall_mem_cons.mp ha
    cases bs with
    | nil => cases hlen
    | cons b bs =>
      obtain ⟨hbb, hb⟩ := List.forall_mem_cons.mp hb
      exact .cons ⟨.inr rfl, fun _ => hbb, fun h => absurd haa h, .inl haa⟩ (ih (Nat.succ_injective hlen) ha hb)

theorem Merged.right (hlen : as.length = bs.length) (hb : ∀ b ∈ bs, r b b) : Merged r as bs bs as := by
  induction as generalizing bs with
  | nil =>
    rw [List.length_eq_zero_iff.mp hlen.symm]
    exact .nil
  | cons a as ih =>
    cases bs with
    | nil => cases hlen
    | cons b bs =>
      obtain ⟨hbb, hb⟩ := List.forall_mem_cons.mp hb
      exact .cons ⟨.inl rfl, id, fun _ => rfl, .inr (.inl hbb)⟩ (ih (Nat.succ_injective hlen) hb)

/-! ### Part by part -/

variable {as' bs' cs' ms' : List α}

theorem Merged.append (h : Merged r as bs cs ms) (h' : Merged r as' bs' cs' ms') :
    Merged r (as ++ as') (bs ++ bs') (cs ++ cs') (ms ++ ms') := by
  induction h with
  | nil => exact h'
  | cons hm _ ih => exact .cons hm ih

theorem Merged.split (hab : as.length = bs.length) (hac : as.length = cs.length)
    (h : Merged r (as ++ as') (bs ++ bs') (cs ++ cs') ms) :
    (∃ ms₁, Merged r as bs cs ms₁) ∧ ∃ ms₂, Merged r as' bs' cs' ms₂ := by
  induction as generalizing bs cs ms with
  | nil =>
    rw [List.length_eq_zero_iff.mp hab.symm, List.length_eq_zero_iff.mp hac.symm] at h ⊢
    exact ⟨⟨[], .nil⟩, ms, h⟩
  | cons a as ih =>
    cases bs with
    | nil => cases hab
    | cons b bs =>
      cases cs with
      | nil => cases hac
      | cons c cs =>
        obtain _ | ⟨hm, h⟩ := h
        obtain ⟨⟨ms₁, h₁⟩, hrest⟩ := ih (Nat.succ_injective hab) (Nat.succ_injective hac) h
        exact ⟨⟨_, .cons hm h₁⟩, hrest⟩

/-! ### Index by index -/

/-- **What a merge has at an index.** -/
theorem Merged.getElem? (h : Merged r as bs cs ms) {i : ℕ} {a b c m : α} (ha : as[i]? = some a) (hb : bs[i]? = some b)
    (hc : cs[i]? = some c) (hm : ms[i]? = some m) : MergedElement r a b c m := by
  induction h generalizing i with
  | nil => cases ha
  | cons h _ ih =>
    cases i with
    | zero =>
      cases ha
      cases hb
      cases hc
      cases hm
      exact h
    | succ i => exact ih ha hb hc hm

/-- **When there is a merge**: no index has been changed on both sides to elements that disagree. -/
theorem exists_merged_iff (hab : as.length = bs.length) (hac : as.length = cs.length) (hr : ∀ b ∈ bs, r b b) :
    (∃ ms, Merged r as bs cs ms) ↔ ∀ (i : ℕ) (a b c : α), as[i]? = some a → bs[i]? = some b → cs[i]? = some c →
      r a c ∨ r b c ∨ r a b := by
  constructor
  · rintro ⟨ms, h⟩ i a b c ha hb hc
    obtain ⟨m, hm⟩ : ∃ m, ms[i]? = some m := by
      have hi : i < ms.length := by
        rw [h.length]
        exact (List.getElem?_eq_some_iff.mp ha).1
      exact ⟨_, List.getElem?_eq_getElem hi⟩
    exact (h.getElem? ha hb hc hm).noClash
  · intro h
    induction as generalizing bs cs with
    | nil =>
      rw [List.length_eq_zero_iff.mp hab.symm, List.length_eq_zero_iff.mp hac.symm]
      exact ⟨[], .nil⟩
    | cons a as ih =>
      cases bs with
      | nil => cases hab
      | cons b bs =>
        cases cs with
        | nil => cases hac
        | cons c cs =>
          obtain ⟨hbb, hr⟩ := List.forall_mem_cons.mp hr
          obtain ⟨ms, hms⟩ := ih (Nat.succ_injective hab) (Nat.succ_injective hac) hr fun i => h (i + 1)
          have hclash := h 0 a b c rfl rfl rfl
          by_cases hc : r a c
          · exact ⟨b :: ms, .cons ⟨.inr rfl, fun _ => hbb, fun h => absurd hc h, hclash⟩ hms⟩
          · exact ⟨a :: ms, .cons ⟨.inl rfl, fun h => absurd h hc, fun _ => rfl, hclash⟩ hms⟩

/-! ### Merging -/

variable (r) [DecidableRel r]

/-- The merge of one element over that of the base, which may lack it. -/
def mergeElement (a b : α) (base : Option α) : Option α :=
  if r a b then some a else if ∃ c ∈ base, r a c then some b else if ∃ c ∈ base, r b c then some a else none

/-- The merge index by index. -/
def mergeLists : List α → List α → List α → Option (List α)
  | a :: as, b :: bs, base => (mergeElement r a b base.head?).bind fun m => (mergeLists as bs base.tail).map (m :: ·)
  | _, _, _ => some []

variable {r}

theorem merged_of_mergeElement {a b c m : α} (hb : r b b) (h : mergeElement r a b (some c) = some m) :
    MergedElement r a b c m := by
  simp only [mergeElement, Option.mem_some_iff, exists_eq_left'] at h
  split_ifs at h with hab hac hbc <;> cases h
  · exact ⟨.inl rfl, fun _ => hab, fun _ => rfl, .inr (.inr hab)⟩
  · exact ⟨.inr rfl, fun _ => hb, fun h => absurd hac h, .inl hac⟩
  · exact ⟨.inl rfl, fun h => absurd h hac, fun _ => rfl, .inr (.inl hbc)⟩

theorem not_merged_of_mergeElement {a b c m : α} (h : mergeElement r a b (some c) = none) :
    ¬ MergedElement r a b c m := by
  simp only [mergeElement, Option.mem_some_iff, exists_eq_left'] at h
  split_ifs at h with hab hac hbc
  exact fun hm => hm.noClash.elim hac fun h => h.elim hbc hab

/-- What is merged is a merge. -/
theorem merged_of_mergeLists (hab : as.length = bs.length) (hac : as.length = cs.length) (hr : ∀ b ∈ bs, r b b)
    (h : mergeLists r as bs cs = some ms) : Merged r as bs cs ms := by
  induction as generalizing bs cs ms with
  | nil =>
    cases h
    rw [List.length_eq_zero_iff.mp hab.symm, List.length_eq_zero_iff.mp hac.symm]
    exact .nil
  | cons a as ih =>
    cases bs with
    | nil => cases hab
    | cons b bs =>
      cases cs with
      | nil => cases hac
      | cons c cs =>
        obtain ⟨hb, hr⟩ := List.forall_mem_cons.mp hr
        rw [mergeLists] at h
        obtain ⟨m, hm, h⟩ := Option.bind_eq_some_iff.mp h
        obtain ⟨ms', hms, rfl⟩ := Option.map_eq_some_iff.mp h
        exact .cons (merged_of_mergeElement hb hm) (ih (Nat.succ_injective hab) (Nat.succ_injective hac) hr hms)

/-- Where nothing is merged, there is no merge. -/
theorem not_merged_of_mergeLists (h : mergeLists r as bs cs = none) : ¬ Merged r as bs cs ms := by
  intro hm
  induction hm with
  | nil => cases h
  | @cons a b c m as bs cs ms hm _ ih =>
    rw [mergeLists, List.head?_cons, List.tail_cons] at h
    cases helem : mergeElement r a b (some c) with
    | none => exact not_merged_of_mergeElement helem hm
    | some m' =>
      rw [helem, Option.bind_some, Option.map_eq_none_iff] at h
      exact ih h

end Rend.Lib
