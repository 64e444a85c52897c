import Mathlib.Data.Fintype.Card
import Mathlib.Logic.Relation
import Mathlib.Tactic

/-!
# Depth-first search

`visit` walks a graph from a vertex and adds what it comes to, to what has been seen. It neither enters a vertex at
which it is to stop nor one it has seen. Its first argument bounds the length of a path: as the vertices on a path
differ, more than there are vertices is enough, and then exactly what can be reached is seen (`mem_visit`).
-/

namespace Rend.Lib

variable {α : Type*} (stop : α → Prop) (next : α → List α)

section Visit

variable [DecidableEq α] [DecidablePred stop]

def visit : ℕ → α → Finset α → Finset α
  | 0, _, seen => seen
  | fuel + 1, v, seen =>
    if stop v ∨ v ∈ seen then seen else (next v).foldl (fun seen w => visit fuel w seen) (insert v seen)

end Visit

/-- The walk goes on from one vertex to the other. -/
def Edge (v w : α) : Prop := w ∈ next v ∧ ¬ stop w

/-- What a walk from a root comes to. -/
def Reached (root x : α) : Prop := ¬ stop root ∧ Relation.ReflTransGen (Edge stop next) root x

/-- The vertices seen after the walks from some roots: all that is new has been reached from a root, and the walks
went on from it. -/
structure Visited (roots : List α) (seen seen' : Finset α) : Prop where
  mono : seen ⊆ seen'
  covers : ∀ r ∈ roots, stop r ∨ r ∈ seen'
  closed : ∀ x ∈ seen', x ∈ seen ∨ ∀ y ∈ next x, stop y ∨ y ∈ seen'
  reached : ∀ x ∈ seen', x ∈ seen ∨ ∃ r ∈ roots, Reached stop next r x

variable {stop next}

theorem visited_nil (seen : Finset α) : Visited stop next [] seen seen :=
  ⟨Finset.Subset.refl _, fun _ hr => absurd hr List.not_mem_nil, fun _ hx => .inl hx, fun _ hx => .inl hx⟩

theorem Visited.cons {r : α} {rs : List α} {seen seen₁ seen₂ : Finset α} (h : Visited stop next [r] seen seen₁)
    (h' : Visited stop next rs seen₁ seen₂) : Visited stop next (r :: rs) seen seen₂ := by
  refine ⟨h.mono.trans h'.mono, ?_, fun x hx => ?_, fun x hx => ?_⟩
  · refine List.forall_mem_cons.mpr ⟨?_, h'.covers⟩
    exact (h.covers r List.mem_cons_self).imp id fun hr => h'.mono hr
  · rcases h'.closed x hx with hx | hx
    · exact (h.closed x hx).imp id fun hy y hmem => (hy y hmem).imp id fun hy => h'.mono hy
    · exact .inr hx
  · rcases h'.reached x hx with hx | ⟨r', hr', hx⟩
    · rcases h.reached x hx with hx | ⟨r', hr', hx⟩
      · exact .inl hx
      · exact .inr ⟨r', List.mem_singleton.mp hr' ▸ List.mem_cons_self, hx⟩
    · exact .inr ⟨r', List.mem_cons_of_mem _ hr', hx⟩

theorem visited_foldl {walk : Finset α → α → Finset α} {rs : List α} {seen : Finset α}
    (h : ∀ r seen', seen ⊆ seen' → Visited stop next [r] seen' (walk seen' r)) :
    Visited stop next rs seen (rs.foldl walk seen) := by
  induction rs generalizing seen with
  | nil => exact visited_nil seen
  | cons r rs ih =>
    have hfirst : Visited stop next [r] seen (walk seen r) := h r seen (Finset.Subset.refl _)
    exact hfirst.cons (ih fun r' seen' hle => h r' seen' (hfirst.mono.trans hle))

theorem reached_self {root : α} (h : ¬ stop root) : Reached stop next root root := ⟨h, .refl⟩

/-- What is reached is the root, or is reached from one of its neighbours. -/
theorem reached_iff {root x : α} (h : ¬ stop root) :
    Reached stop next root x ↔ x = root ∨ ∃ w ∈ next root, Reached stop next w x := by
  constructor
  · rintro ⟨-, hpath⟩
    rcases hpath.cases_head with rfl | ⟨w, hedge, hpath⟩
    · exact .inl rfl
    · exact .inr ⟨w, hedge.1, hedge.2, hpath⟩
  · rintro (rfl | ⟨w, hw, hstop, hpath⟩)
    · exact reached_self h
    · exact ⟨h, .head ⟨hw, hstop⟩ hpath⟩

/-- Graphs that agree on what the one reaches reach the same. -/
theorem reached_congr {next' : α → List α} {root x : α}
    (hsame : ∀ y, Reached stop next root y → next' y = next y) :
    Reached stop next' root x ↔ Reached stop next root x := by
  constructor
  · rintro ⟨hroot, hpath⟩
    induction hpath with
    | refl => exact reached_self hroot
    | tail _ hedge ih => exact ⟨hroot, ih.2.tail ⟨by rw [← hsame _ ih]; exact hedge.1, hedge.2⟩⟩
  · rintro ⟨hroot, hpath⟩
    induction hpath with
    | refl => exact reached_self hroot
    | tail hpath hedge ih => exact ⟨hroot, ih.2.tail ⟨by rw [hsame _ ⟨hroot, hpath⟩]; exact hedge.1, hedge.2⟩⟩

variable [DecidableEq α] [DecidablePred stop] [Fintype α]

/-- Each vertex that is entered is new, so the walk needs no more fuel than there are vertices not seen yet. -/
theorem visit_visited {fuel : ℕ} {v : α} {seen : Finset α} (hfuel : Fintype.card α < fuel + seen.card) :
    Visited stop next [v] seen (visit stop next fuel v seen) := by
  induction fuel generalizing v seen with
  | zero =>
    have hle : seen.card ≤ Fintype.card α := Finset.card_le_univ seen
    omega
  | succ fuel ih =>
    rw [visit]
    split_ifs with hv
    · refine ⟨Finset.Subset.refl _, fun r hr => ?_, fun _ hx => .inl hx, fun _ hx => .inl hx⟩
      exact List.mem_singleton.mp hr ▸ hv
    · obtain ⟨hstop, hnew⟩ := not_or.mp hv
      have hbelow : Visited stop next (next v) (insert v seen)
          ((next v).foldl (fun seen w => visit stop next fuel w seen) (insert v seen)) := by
        refine visited_foldl fun w seen' hle => ih ?_
        have hcard : (insert v seen).card ≤ seen'.card := Finset.card_le_card hle
        rw [Finset.card_insert_of_notMem hnew] at hcard
        omega
      refine ⟨(Finset.subset_insert v seen).trans hbelow.mono, fun r hr => ?_, fun x hx => ?_, fun x hx => ?_⟩
      · exact .inr (List.mem_singleton.mp hr ▸ hbelow.mono (Finset.mem_insert_self v seen))
      · rcases hbelow.closed x hx with hx | hx
        · rcases Finset.mem_insert.mp hx with rfl | hx
          · exact .inr hbelow.covers
          · exact .inl hx
        · exact .inr hx
      · rcases hbelow.reached x hx with hx | ⟨r, hr, hrstop, hpath⟩
        · rcases Finset.mem_insert.mp hx with rfl | hx
          · exact .inr ⟨x, List.mem_singleton_self x, hstop, .refl⟩
          · exact .inl hx
        · exact .inr ⟨v, List.mem_singleton_self v, hstop, .head ⟨hr, hrstop⟩ hpath⟩

/-- **A walk with enough fuel sees exactly what can be reached.** -/
theorem mem_visit {fuel : ℕ} {root x : α} (hfuel : Fintype.card α < fuel) :
    x ∈ visit stop next fuel root ∅ ↔ Reached stop next root x := by
  have h : Visited stop next [root] ∅ (visit stop next fuel root ∅) := visit_visited (by simpa using hfuel)
  have hnone : ∀ {y : α}, y ∉ (∅ : Finset α) := fun hy => absurd hy (Finset.notMem_empty _)
  constructor
  · intro hx
    obtain ⟨r, hr, hreach⟩ := (h.reached x hx).resolve_left hnone
    exact List.mem_singleton.mp hr ▸ hreach
  · rintro ⟨hroot, hpath⟩
    induction hpath with
    | refl => exact (h.covers root (List.mem_singleton_self root)).resolve_left hroot
    | tail _ hedge ih => exact (((h.closed _ ih).resolve_left hnone) _ hedge.1).resolve_left hedge.2

end Rend.Lib
