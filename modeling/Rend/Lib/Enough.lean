import Mathlib.Tactic.Common

/-!
# Enough fuel

A computation that counts its nested calls down gives a result *for enough fuel* when it gives that result
for every amount from some bound on (`Enough`). One unit is spent on a call, and what is called gives its
own result for enough fuel; the rules put the bounds together.
-/

namespace Rend.Lib

variable {ε α β : Type}

/-- For enough fuel, the computation gives the result. -/
def Enough (f : ℕ → Except ε α) (a : α) : Prop := ∃ k, ∀ n ≥ k, f n = .ok a

namespace Enough

variable {f : ℕ → Except ε α} {h : ℕ → Except ε β} {a : α} {b : β}

/-- A result that does not depend on the fuel, but for the unit of the call. -/
theorem done (hstep : ∀ n, f (n + 1) = .ok a) : Enough f a := by
  refine ⟨1, fun n hn => ?_⟩
  obtain ⟨m, rfl⟩ := Nat.exists_eq_add_of_le' hn
  exact hstep m

/-- A call that only passes to another. -/
theorem call {g : ℕ → Except ε α} (hstep : ∀ n, f (n + 1) = g n) (hg : Enough g a) : Enough f a := by
  obtain ⟨k, hk⟩ := hg
  refine ⟨k + 1, fun n hn => ?_⟩
  obtain ⟨m, rfl⟩ := Nat.exists_eq_add_of_le' (Nat.le_of_add_left_le hn)
  rw [hstep]
  exact hk m (by omega)

/-- A call that goes on as another once an inner call has given its result. -/
theorem next {g : ℕ → Except ε β} (hf : Enough f a) (hg : Enough g b)
    (hstep : ∀ n, f n = .ok a → h (n + 1) = g n) : Enough h b := by
  obtain ⟨k, hk⟩ := hf
  obtain ⟨k', hk'⟩ := hg
  refine ⟨k + k' + 1, fun n hn => ?_⟩
  obtain ⟨m, rfl⟩ := Nat.exists_eq_add_of_le' (Nat.le_of_add_left_le hn)
  rw [hstep m (hk m (by omega))]
  exact hk' m (by omega)

/-- A call that ends once an inner call has given its result. -/
theorem last (hf : Enough f a) (hstep : ∀ n, f n = .ok a → h (n + 1) = .ok b) : Enough h b :=
  hf.next (g := fun _ => .ok b) ⟨0, fun _ _ => rfl⟩ hstep

/-- There is one result for enough fuel. -/
theorem unique {a' : α} (ha : Enough f a) (ha' : Enough f a') : a = a' := by
  obtain ⟨k, hk⟩ := ha
  obtain ⟨k', hk'⟩ := ha'
  have heq := (hk (k + k') (by omega)).symm.trans (hk' (k + k') (by omega))
  exact Except.ok.inj heq

end Enough

end Rend.Lib
