import Mathlib.Data.List.Basic
import Mathlib.Order.Basic
import Mathlib.Order.Defs.LinearOrder
import Mathlib.Order.Lattice

/-!
# Walking a map that changes

A walk over a map remembers the last key it has yielded, and seeks the least key above it in the map as it is
now. Between two steps the map may change in any way. The keys are compared by a rank into a linear
order, on which the keys of one moment do not collide.

The walk yields keys in increasing order, each with the value it has at that moment. What stands in its
way is caught (`SeekWalk.caught`): the first visit that reaches or passes a key, while the key is bound,
is the visit to the key. When nothing is above the last key, every key has been passed (`SeekWalk.ended`).
-/

namespace Rend.Lib

/-- A step of a walk: what the map holds at that moment, and the entry that is yielded. -/
structure Visit (κ ν : Type) where
  bindings : κ → Option ν
  key : κ
  value : ν

variable {κ ν ι : Type} [LinearOrder ι] {rank : κ → ι}

/-- The key is above the bound; without a bound every key is. -/
def Beyond (rank : κ → ι) (bound : Option κ) (k : κ) : Prop := ∀ b ∈ bound, rank b < rank k

/-- The entry of the least key above the bound. -/
structure Seeks (rank : κ → ι) (m : κ → Option ν) (bound : Option κ) (k : κ) (v : ν) : Prop where
  held : m k = some v
  beyond : Beyond rank bound k
  least : ∀ k' v', m k' = some v' → Beyond rank bound k' → rank k ≤ rank k'

/-- The keys of one moment do not collide. -/
def Separate (rank : κ → ι) (m : κ → Option ν) : Prop :=
  ∀ k v k' v', m k = some v → m k' = some v' → rank k = rank k' → k = k'

/-- The visits of a walk so far, and the key of the last. Nothing relates the maps of two visits. -/
inductive SeekWalk (rank : κ → ι) : List (Visit κ ν) → Option κ → Prop
  | start : SeekWalk rank [] none
  | next {us : List (Visit κ ν)} {last : Option κ} (h : SeekWalk rank us last) (u : Visit κ ν)
      (hm : Separate rank u.bindings) (hu : Seeks rank u.bindings last u.key u.value) :
      SeekWalk rank (us ++ [u]) (some u.key)

variable {us : List (Visit κ ν)} {last : Option κ} {k : κ}

/-- What is above the last key is above every key that has been yielded. -/
theorem SeekWalk.lt_of_beyond (h : SeekWalk rank us last) (hk : Beyond rank last k) :
    ∀ u ∈ us, rank u.key < rank k := by
  induction h generalizing k with
  | start => simp
  | @next us last h w hm hw ih =>
    have hwk : rank w.key < rank k := hk w.key rfl
    intro u hu
    rcases List.mem_append.mp hu with hu | hu
    · exact (ih hw.beyond u hu).trans hwk
    · rw [List.mem_singleton.mp hu]
      exact hwk

/-- The last key is one that has been yielded. -/
theorem SeekWalk.exists_of_last (h : SeekWalk rank us last) : ∀ b ∈ last, ∃ u ∈ us, u.key = b := by
  cases h with
  | start => simp
  | next h w hm hw =>
    intro b hb
    cases hb
    exact ⟨w, by simp, rfl⟩

/-- **The keys increase.** -/
theorem SeekWalk.increasing (h : SeekWalk rank us last) : us.Pairwise fun u w => rank u.key < rank w.key := by
  induction h with
  | start => exact List.Pairwise.nil
  | next h w hm hw ih =>
    refine List.pairwise_append.mpr ⟨ih, List.pairwise_singleton .., fun u hu w' hw' => ?_⟩
    rw [List.mem_singleton.mp hw']
    exact h.lt_of_beyond hw.beyond u hu

/-- Each key is yielded while it is bound, with its value. -/
theorem SeekWalk.present (h : SeekWalk rank us last) : ∀ u ∈ us, u.bindings u.key = some u.value := by
  induction h with
  | start => simp
  | next h w hm hw ih =>
    intro u hu
    rcases List.mem_append.mp hu with hu | hu
    · exact ih u hu
    · rw [List.mem_singleton.mp hu]
      exact hw.held

/-- **A key that is bound when it would be passed is caught.** -/
theorem SeekWalk.caught (h : SeekWalk rank us last) {v : ν} {p s : List (Visit κ ν)} {u : Visit κ ν}
    (hus : us = p ++ u :: s) (hbefore : ∀ w ∈ p, rank w.key < rank k) (hpast : rank k ≤ rank u.key)
    (hbound : u.bindings k = some v) : u.key = k ∧ u.value = v := by
  induction h generalizing s with
  | start => simp at hus
  | @next us last h w hm hw ih =>
    rcases List.eq_nil_or_concat' s with rfl | ⟨s, w', rfl⟩
    · -- the key is above all that came before, so that the visit does not pass it
      obtain ⟨rfl, hlast⟩ := List.append_inj' hus rfl
      obtain rfl : w = u := by simpa using hlast
      have hbeyond : Beyond rank last k := by
        intro b hb
        obtain ⟨u, hu, rfl⟩ := h.exists_of_last b hb
        exact hbefore u hu
      have hkey : w.key = k :=
        hm _ _ _ _ hw.held hbound (le_antisymm (hw.least k v hbound hbeyond) hpast)
      refine ⟨hkey, Option.some.inj ?_⟩
      rw [← hw.held, hkey, hbound]
    · rw [← List.cons_append, ← List.append_assoc] at hus
      exact ih (List.append_inj' hus rfl).1

/-- A key is yielded at most once. -/
theorem SeekWalk.once (h : SeekWalk rank us last) {p s : List (Visit κ ν)} {u : Visit κ ν} (hus : us = p ++ u :: s) :
    ∀ w ∈ p ++ s, w.key ≠ u.key := by
  have hinc := h.increasing
  rw [hus] at hinc
  obtain ⟨-, hrest, hcross⟩ := List.pairwise_append.mp hinc
  intro w hw heq
  rcases List.mem_append.mp hw with hw | hw
  · have hlt := hcross w hw u List.mem_cons_self
    rw [heq] at hlt
    exact lt_irrefl _ hlt
  · have hlt := (List.pairwise_cons.mp hrest).1 w hw
    rw [heq] at hlt
    exact lt_irrefl _ hlt

/-- **When nothing is left above the last key**, every bound key has been reached or passed. -/
theorem SeekWalk.ended (h : SeekWalk rank us last) {m : κ → Option ν}
    (hnone : ∀ k v, m k = some v → ¬ Beyond rank last k) {v : ν} (hk : m k = some v) :
    ∃ u ∈ us, rank k ≤ rank u.key := by
  have hnot := hnone k v hk
  simp only [Beyond, not_forall, not_lt] at hnot
  obtain ⟨b, hb, hle⟩ := hnot
  obtain ⟨u, hu, rfl⟩ := h.exists_of_last b hb
  exact ⟨u, hu, hle⟩

/-- What a walk over a map that changes should yield: the keys increase; a key that is bound at the visit that
reaches or passes it is yielded there, once and with its value; a key that is unbound from before it is
reached is not yielded. -/
structure MutationSafe (rank : κ → ι) (us : List (Visit κ ν)) : Prop where
  increasing : us.Pairwise fun u w => rank u.key < rank w.key
  caught : ∀ k v p u s, us = p ++ u :: s → (∀ w ∈ p, rank w.key < rank k) → rank k ≤ rank u.key →
    u.bindings k = some v → u.key = k ∧ u.value = v ∧ ∀ w ∈ p ++ s, w.key ≠ k
  deleted : ∀ k p s, us = p ++ s → (∀ u ∈ p, rank u.key < rank k) → (∀ u ∈ s, u.bindings k = none) →
    ∀ u ∈ us, u.key ≠ k

/-- **Seeking from the last key is safe.** -/
theorem SeekWalk.mutationSafe (h : SeekWalk rank us last) : MutationSafe rank us := by
  refine ⟨h.increasing, fun k v p u s hus hbefore hpast hk => ?_, fun k p s hus hbefore hunbound u hu heq => ?_⟩
  · obtain ⟨rfl, hvalue⟩ := h.caught hus hbefore hpast hk
    exact ⟨rfl, hvalue, h.once hus⟩
  · subst heq
    have hpresent := h.present u hu
    rw [hus] at hu
    rcases List.mem_append.mp hu with hu | hu
    · exact lt_irrefl _ (hbefore u hu)
    · rw [hunbound u hu] at hpresent
      cases hpresent

end Rend.Lib
