import Mathlib.Data.Set.Basic
import Mathlib.Data.List.Count
import Mathlib.Tactic

/-!
# Paths and the variables they use

A path through a piece of a program lists the free variables it uses by value, in order, and says how it
ends. Pieces are put together as sets of paths: one after the other, under a binder, and in rounds. Where
a variable that must not be used twice is bound, the path remembers whether it was.

* `Within.seq`, `Within.bind`, `Within.rounds`: how a bound on the uses of one variable goes through the
  operations.
* `Clean.bind`: a binder whose variable is used at most once adds no double use.
* `Only.seq`, `Only.loop`: what holds of everything the parts use holds of everything the whole uses.
-/

namespace Rend.Lib.UsePaths

variable {α : Type}

/-- How a path ends: at what follows, or at a jump. -/
inductive Flow
  | next
  | break
  | continue
  | return
  deriving DecidableEq

/-- A path: the free variables it uses by value, whether a variable bound on it was used twice against
its kind, and how it ends. -/
structure Path (α : Type) where
  uses : List α
  twice : Bool
  flow : Flow

/-- One path and then another. -/
def Path.append (p q : Path α) : Path α := ⟨p.uses ++ q.uses, p.twice || q.twice, q.flow⟩

/-- The end of a round: `continue` leads to what follows. -/
def Path.resume (p : Path α) : Path α := { p with flow := if p.flow = .continue then .next else p.flow }

/-- The end of a loop: `break` leads to what follows. -/
def Path.settle (p : Path α) : Path α := { p with flow := if p.flow = .break then .next else p.flow }

/-- The end of a piece that no jump leaves. -/
def Path.finish (p : Path α) : Path α := { p with flow := .next }

/-- Nothing is used. -/
def skip : Set (Path α) := {⟨[], false, .next⟩}

/-- Nothing is used, and a jump follows. -/
def jump (f : Flow) : Set (Path α) := {⟨[], false, f⟩}

/-- A variable is used. -/
def use (x : α) : Set (Path α) := {⟨[x], false, .next⟩}

/-- One piece and then the other, unless the first jumps. -/
def seq (A B : Set (Path α)) : Set (Path α) :=
  {r | (r ∈ A ∧ r.flow ≠ .next) ∨ ∃ p ∈ A, ∃ q ∈ B, p.flow = .next ∧ r = p.append q}

/-- A piece in the scope of a variable. With `once` the variable must not be used twice. -/
def bind [DecidableEq α] (x : α) (once : Bool) (A : Set (Path α)) : Set (Path α) :=
  Set.image (fun p => ⟨p.uses.filter (· ≠ x), p.twice || (once && decide (2 ≤ p.uses.count x)), p.flow⟩) A

/-- A piece in the scope of several variables, each in the scope of those before it. -/
def bindAll [DecidableEq α] (xs : List (α × Bool)) (A : Set (Path α)) : Set (Path α) :=
  xs.foldr (fun x A => bind x.1 x.2 A) A

/-- Rounds of a body, any number of them, and then `last`. A jump ends them. -/
inductive Rounds (last body : Set (Path α)) : Path α → Prop
  | done {p : Path α} (h : p ∈ last) : Rounds last body p
  | leave {p : Path α} (h : p ∈ body) (hf : p.flow ≠ .next) : Rounds last body p
  | round {p q : Path α} (h : p ∈ body) (hf : p.flow = .next) (hq : Rounds last body q) :
      Rounds last body (p.append q)

/-- The paths through rounds of a body. -/
def rounds (last body : Set (Path α)) : Set (Path α) := {p | Rounds last body p}

/-- A loop: rounds that `continue` resumes and `break` ends. -/
def loop (last body : Set (Path α)) : Set (Path α) :=
  Set.image Path.settle (rounds last (Set.image Path.resume body))

/-! ### Bounds on the uses of a variable -/

/-- From `a` uses of a variable, every path stays within `b`. -/
def Within [DecidableEq α] (x : α) (a : ℕ) (A : Set (Path α)) (b : ℕ) : Prop := ∀ p ∈ A, a + p.uses.count x ≤ b

namespace Within

variable [DecidableEq α] {x y : α} {a a' b b' c : ℕ} {A B K : Set (Path α)}

theorem mono (h : Within x a A b) (ha : a' ≤ a) (hb : b ≤ b') : Within x a' A b' := by
  intro p hp
  have := h p hp
  omega

theorem shift (h : Within x 0 A b) : Within x a A (a + b) := by
  intro p hp
  have := h p hp
  omega

/-- The same number of uses, from elsewhere. -/
theorem slide (h : Within x a A b) (hab : a ≤ b) (hb : a' + (b - a) ≤ b') : Within x a' A b' := by
  intro p hp
  have := h p hp
  omega

theorem skip (h : a ≤ b) : Within x a skip b := by
  rintro p rfl
  simpa using h

theorem jump {f : Flow} (h : a ≤ b) : Within x a (jump f) b := by
  rintro p rfl
  simpa using h

theorem use_self (h : a + 1 ≤ b) : Within x a (use x) b := by
  rintro p rfl
  simpa using h

theorem use_of_ne (hxy : y ≠ x) (h : a ≤ b) : Within x a (use y) b := by
  rintro p rfl
  simpa [List.count_singleton, hxy] using h

theorem union (hA : Within x a A b) (hB : Within x a B b) : Within x a (A ∪ B) b := by
  rintro p (hp | hp)
  · exact hA p hp
  · exact hB p hp

theorem seq (hA : Within x a A b) (hB : Within x b B c) (hbc : b ≤ c) : Within x a (seq A B) c := by
  rintro r (⟨hr, -⟩ | ⟨p, hp, q, hq, -, rfl⟩)
  · exact (hA r hr).trans hbc
  · have h₁ := hA p hp
    have h₂ := hB q hq
    rw [Path.append, List.count_append]
    omega

theorem seq_add (hA : Within x 0 A a) (hB : Within x 0 B b) : Within x 0 (UsePaths.seq A B) (a + b) :=
  seq hA hB.shift (Nat.le_add_right a b)

/-- A binder hides the uses of its variable. -/
theorem bind_self {once : Bool} (h : a ≤ b) : Within x a (bind x once A) b := by
  rintro p ⟨q, -, rfl⟩
  have : (q.uses.filter (· ≠ x)).count x = 0 := List.count_eq_zero.mpr (by simp)
  simp only
  omega

theorem bind_of_ne {once : Bool} (hxy : y ≠ x) (h : Within x a A b) : Within x a (UsePaths.bind y once A) b := by
  rintro p ⟨q, hq, rfl⟩
  have : (q.uses.filter (· ≠ y)).count x = q.uses.count x := List.count_filter (by simpa using hxy.symm)
  have := h q hq
  simp only
  omega

/-- A bound under binders. Nothing is asked of a variable that one of them hides. -/
theorem bindAll {xs : List (α × Bool)} (hab : a ≤ b) (h : x ∉ xs.map Prod.fst → Within x a A b) :
    Within x a (bindAll xs A) b := by
  induction xs with
  | nil => exact h List.not_mem_nil
  | cons y xs ih =>
    by_cases hy : y.1 = x
    · subst hy
      exact bind_self hab
    · refine bind_of_ne hy (ih fun hx => h ?_)
      rw [List.map_cons, List.mem_cons]
      rintro (rfl | hmem)
      · exact hy rfl
      · exact hx hmem

/-- Rounds of a body that does not use the variable. -/
theorem rounds (hlast : Within x a A b) (hbody : Within x 0 B 0) (hab : a ≤ b) :
    Within x a (rounds A B) b := by
  intro p hp
  induction hp with
  | done h => exact hlast _ h
  | leave h _ =>
    have := hbody _ h
    omega
  | round h _ _ ih =>
    have := hbody _ h
    rw [Path.append, List.count_append]
    omega

theorem loop (hlast : Within x a A b) (hbody : Within x 0 B 0) (hab : a ≤ b) : Within x a (loop A B) b := by
  rintro p ⟨q, hq, rfl⟩
  refine rounds (B := Set.image Path.resume B) hlast ?_ hab q hq
  rintro r ⟨s, hs, rfl⟩
  exact hbody s hs

end Within

/-! ### Paths without a double use -/

/-- No path uses a variable twice that is to be used once. -/
def Clean (A : Set (Path α)) : Prop := ∀ p ∈ A, p.twice = false

namespace Clean

variable {x : α} {A B : Set (Path α)}

theorem skip : Clean (skip : Set (Path α)) := by
  rintro p rfl
  rfl

theorem jump {f : Flow} : Clean (jump f : Set (Path α)) := by
  rintro p rfl
  rfl

theorem use : Clean (use x) := by
  rintro p rfl
  rfl

theorem union (hA : Clean A) (hB : Clean B) : Clean (A ∪ B) := by
  rintro p (hp | hp)
  · exact hA p hp
  · exact hB p hp

theorem seq (hA : Clean A) (hB : Clean B) : Clean (seq A B) := by
  rintro r (⟨hr, -⟩ | ⟨p, hp, q, hq, -, rfl⟩)
  · exact hA r hr
  · rw [Path.append, hA p hp, hB q hq]
    rfl

theorem bind [DecidableEq α] {once : Bool} (hA : Clean A) (h : once = true → Within x 0 A 1) : Clean (bind x once A) := by
  rintro p ⟨q, hq, rfl⟩
  cases once with
  | false => simpa using hA q hq
  | true =>
    have := h rfl q hq
    simp only [hA q hq, Bool.false_or, Bool.true_and, decide_eq_false_iff_not]
    omega

theorem rounds (hA : Clean A) (hB : Clean B) : Clean (rounds A B) := by
  intro p hp
  induction hp with
  | done h => exact hA _ h
  | leave h _ => exact hB _ h
  | round h _ _ ih => rw [Path.append, hB _ h, ih]; rfl

theorem loop (hA : Clean A) (hB : Clean B) : Clean (loop A B) := by
  rintro p ⟨q, hq, rfl⟩
  refine rounds (B := Set.image Path.resume B) hA ?_ q hq
  rintro r ⟨s, hs, rfl⟩
  exact hB s hs

end Clean

/-! ### What holds of everything used -/

/-- Everything a path uses satisfies `P`. -/
def Only (P : α → Prop) (A : Set (Path α)) : Prop := ∀ p ∈ A, ∀ x ∈ p.uses, P x

namespace Only

variable {P Q : α → Prop} {x : α} {A B : Set (Path α)}

theorem mono (h : Only P A) (hPQ : ∀ x, P x → Q x) : Only Q A := fun p hp x hx => hPQ x (h p hp x hx)

theorem empty : Only P (∅ : Set (Path α)) := fun _ hp => hp.elim

theorem skip : Only P (skip : Set (Path α)) := by
  rintro p rfl x hx
  cases hx

theorem jump {f : Flow} : Only P (jump f : Set (Path α)) := by
  rintro p rfl x hx
  cases hx

theorem use (h : P x) : Only P (use x) := by
  rintro p rfl y hy
  rwa [List.mem_singleton.mp hy]

theorem union (hA : Only P A) (hB : Only P B) : Only P (A ∪ B) := by
  rintro p (hp | hp)
  · exact hA p hp
  · exact hB p hp

theorem seq (hA : Only P A) (hB : Only P B) : Only P (seq A B) := by
  rintro r (⟨hr, -⟩ | ⟨p, hp, q, hq, -, rfl⟩) x hx
  · exact hA r hr x hx
  · rcases List.mem_append.mp hx with hx | hx
    · exact hA p hp x hx
    · exact hB q hq x hx

/-- Another end changes nothing that is used. -/
theorem image {f : Path α → Path α} (hf : ∀ p, (f p).uses = p.uses) (hA : Only P A) :
    Only P (Set.image f A) := by
  rintro p ⟨q, hq, rfl⟩ x hx
  rw [hf] at hx
  exact hA q hq x hx

theorem rounds (hA : Only P A) (hB : Only P B) : Only P (rounds A B) := by
  intro p hp
  induction hp with
  | done h => exact hA _ h
  | leave h _ => exact hB _ h
  | round h _ _ ih =>
    intro x hx
    rcases List.mem_append.mp hx with hx | hx
    · exact hB _ h x hx
    · exact ih x hx

theorem loop (hA : Only P A) (hB : Only P B) : Only P (loop A B) :=
  image (fun _ => rfl) (rounds hA (image (fun _ => rfl) hB))

end Only

end Rend.Lib.UsePaths
