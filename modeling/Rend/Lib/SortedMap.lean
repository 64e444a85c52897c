import Mathlib.Data.List.Sort
import Mathlib.Data.String.Basic
import Mathlib.Tactic

/-!
# Maps as sorted lists

A finite map as the list of its entries in the order of their keys. The list is determined by the map, so
two maps are equal as lists exactly when they have the same entries: this is a hash map whose order
of iteration is left out.
-/

namespace Rend.Lib

variable {K V : Type} [LinearOrder K]

/-- The entries of a map, by increasing keys. -/
abbrev SortedMap (K V : Type) := List (K × V)

namespace SortedMap

/-- Puts an entry into a map, in the place of an old entry of its key. -/
def insert (k : K) (v : V) : SortedMap K V → SortedMap K V
  | [] => [(k, v)]
  | (k', v') :: m =>
    if k < k' then (k, v) :: (k', v') :: m
    else if k = k' then (k, v) :: m
    else (k', v') :: insert k v m

/-- The map after these insertions, from the empty one. -/
def ofEntries (l : List (K × V)) : SortedMap K V := l.foldl (fun m e => insert e.1 e.2 m) []

/-- The keys are strictly increasing. -/
def Sorted (m : SortedMap K V) : Prop := m.Pairwise fun a b => a.1 < b.1

theorem mem_insert {k : K} {v : V} {m : SortedMap K V} {e : K × V} (h : e ∈ insert k v m) :
    e = (k, v) ∨ e ∈ m := by
  induction m with
  | nil => exact .inl (List.mem_singleton.mp h)
  | cons a m ih =>
    rw [insert] at h
    split at h
    · exact List.mem_cons.mp h
    · split at h
      · rcases List.mem_cons.mp h with h | h
        · exact .inl h
        · exact .inr (List.mem_cons_of_mem a h)
      · rcases List.mem_cons.mp h with rfl | h
        · exact .inr List.mem_cons_self
        · exact (ih h).imp id (List.mem_cons_of_mem a)

theorem Sorted.insert {m : SortedMap K V} (h : Sorted m) (k : K) (v : V) :
    Sorted (SortedMap.insert k v m) := by
  induction m with
  | nil => exact List.pairwise_singleton _ _
  | cons a m ih =>
    obtain ⟨ha, hm⟩ := List.pairwise_cons.mp h
    rw [SortedMap.insert]
    split
    · rename_i hlt
      refine List.pairwise_cons.mpr ⟨fun e he => ?_, h⟩
      rcases List.mem_cons.mp he with rfl | he
      · exact hlt
      · exact hlt.trans (ha e he)
    · rename_i hge
      split
      · rename_i heq
        exact List.pairwise_cons.mpr ⟨fun e he => heq ▸ ha e he, hm⟩
      · rename_i hne
        refine List.pairwise_cons.mpr ⟨fun e he => ?_, ih hm⟩
        rcases mem_insert he with rfl | he
        · exact lt_of_le_of_ne (not_lt.mp hge) (Ne.symm hne)
        · exact ha e he

theorem mem_ofEntries {l : List (K × V)} {e : K × V} (h : e ∈ ofEntries l) : e ∈ l := by
  induction l using List.reverseRecOn with
  | nil => exact h
  | append_singleton l a ih =>
    rw [ofEntries, List.foldl_append] at h
    rcases mem_insert h with rfl | h
    · exact List.mem_append_right _ (List.mem_singleton_self a)
    · exact List.mem_append_left _ (ih h)

theorem lookup_insert_of_ne [BEq K] [LawfulBEq K] {k k' : K} (h : k' ≠ k) (v : V) (m : SortedMap K V) :
    (insert k v m).lookup k' = m.lookup k' := by
  have hne : (k' == k) = false := by simpa using h
  induction m with
  | nil => simp [insert, List.lookup_cons, hne]
  | cons a m ih =>
    rw [insert]
    split
    · rw [List.lookup_cons, hne]
    · split
      · rename_i heq
        rw [List.lookup_cons, List.lookup_cons, hne, ← heq, hne]
      · rw [List.lookup_cons, List.lookup_cons, ih]

/-- A key behind all others is put at the end. -/
theorem insert_of_lt {m : SortedMap K V} {k : K} (v : V) (h : ∀ e ∈ m, e.1 < k) :
    insert k v m = m ++ [(k, v)] := by
  induction m with
  | nil => rfl
  | cons a m ih =>
    have ha : a.1 < k := h a List.mem_cons_self
    rw [insert, if_neg (not_lt.mpr ha.le), if_neg ha.ne', ih fun e he => h e (List.mem_cons_of_mem a he)]
    rfl

/-- The entries of a map, inserted in their order, give the map. -/
theorem Sorted.ofEntries {m : SortedMap K V} (h : Sorted m) : SortedMap.ofEntries m = m := by
  induction m using List.reverseRecOn with
  | nil => rfl
  | append_singleton m e ih =>
    obtain ⟨hm, -, hlt⟩ := List.pairwise_append.mp h
    rw [SortedMap.ofEntries, List.foldl_append]
    show SortedMap.insert e.1 e.2 (SortedMap.ofEntries m) = _
    rw [ih hm, insert_of_lt]
    exact fun a ha => hlt a ha e (List.mem_singleton_self e)

end SortedMap

end Rend.Lib
