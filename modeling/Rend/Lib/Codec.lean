import Rend.Lib.Bytes

/-!
# Reading what was written

A reader of a binary format takes its input from the front and keeps the position it has reached, for
its errors. `Reads p w x` says that `p` takes exactly the bytes `w` and gives `x`, whatever follows
them; `Fails p w` says that it fails on them. The two compose along the monad (`Reads.bind`,
`Fails.bind`, `Reads.bind_fails`) and along counted repetition (`Reads.many`, `Fails.many`), so that a
round trip is proved in the order in which the format is written.
-/

namespace Rend.Lib

/-- The input that is left, and the position it starts at. -/
structure Reader where
  rest : Bytes
  pos : ℕ

/-- A reader of the front of its input. -/
abbrev Read (ε α : Type) := StateT Reader (Except ε) α

variable {ε α β : Type}

/-- The next `n` bytes. -/
def takeBytes (truncated : ℕ → ℕ → ℕ → ε) (n : ℕ) : Read ε Bytes := fun r =>
  if r.rest.length < n then .error (truncated n r.pos r.rest.length)
  else .ok (r.rest.take n, ⟨r.rest.drop n, r.pos + n⟩)

/-- The reader `n` times. -/
def readMany (p : Read ε α) : ℕ → Read ε (List α)
  | 0 => pure []
  | n + 1 => do
    let x ← p
    let xs ← readMany p n
    pure (x :: xs)

/-- The reader takes the bytes `w` and gives `x`. -/
def Reads (p : Read ε α) (w : Bytes) (x : α) : Prop :=
  ∀ rest pos, p ⟨w ++ rest, pos⟩ = .ok (x, ⟨rest, pos + w.length⟩)

/-- The reader fails on the bytes `w`. -/
def Fails (p : Read ε α) (w : Bytes) : Prop := ∀ rest pos, ∃ e, p ⟨w ++ rest, pos⟩ = .error e

/-! ### Sequences -/

theorem Reads.pure (x : α) : Reads (ε := ε) (pure x) [] x := fun _ _ => rfl

theorem Reads.bind {p : Read ε α} {f : α → Read ε β} {w u : Bytes} {x : α} {y : β} (h : Reads p w x)
    (h' : Reads (f x) u y) : Reads (p >>= f) (w ++ u) y := by
  intro rest pos
  show (p ⟨w ++ u ++ rest, pos⟩ >>= fun r => f r.1 r.2) = _
  rw [List.append_assoc, h, List.length_append, ← Nat.add_assoc]
  exact h' rest (pos + w.length)

theorem Reads.bind_pure {p : Read ε α} {g : α → β} {w : Bytes} {x : α} (h : Reads p w x) :
    Reads (p >>= fun a => Pure.pure (g a)) w (g x) := by
  have := h.bind (f := fun a => Pure.pure (g a)) (Reads.pure (g x))
  rwa [List.append_nil] at this

theorem Fails.bind {p : Read ε α} {f : α → Read ε β} {w : Bytes} (h : Fails p w) (u : Bytes) :
    Fails (p >>= f) (w ++ u) := by
  intro rest pos
  obtain ⟨e, he⟩ := h (u ++ rest) pos
  refine ⟨e, ?_⟩
  show (p ⟨w ++ u ++ rest, pos⟩ >>= fun r => f r.1 r.2) = _
  rw [List.append_assoc, he]
  rfl

theorem Fails.bind_nil {p : Read ε α} {f : α → Read ε β} {w : Bytes} (h : Fails p w) :
    Fails (p >>= f) w := by
  have := h.bind (f := f) []
  rwa [List.append_nil] at this

theorem Reads.bind_fails {p : Read ε α} {f : α → Read ε β} {w u : Bytes} {x : α} (h : Reads p w x)
    (h' : Fails (f x) u) : Fails (p >>= f) (w ++ u) := by
  intro rest pos
  obtain ⟨e, he⟩ := h' rest (pos + w.length)
  refine ⟨e, ?_⟩
  show (p ⟨w ++ u ++ rest, pos⟩ >>= fun r => f r.1 r.2) = _
  rw [List.append_assoc, h]
  exact he

theorem Reads.takeBytes (truncated : ℕ → ℕ → ℕ → ε) (w : Bytes) :
    Reads (takeBytes truncated w.length) w w := by
  intro rest pos
  simp [Lib.takeBytes]

/-! ### Repetition -/

theorem Reads.many {γ : Type} {p : Read ε β} {w : γ → Bytes} {g : γ → β} {l : List γ}
    (h : ∀ x ∈ l, Reads p (w x) (g x)) : Reads (readMany p l.length) (l.flatMap w) (l.map g) := by
  induction l with
  | nil => exact Reads.pure []
  | cons x l ih =>
    have hl := ih fun y hy => h y (List.mem_cons_of_mem x hy)
    exact (h x List.mem_cons_self).bind hl.bind_pure

/-- The repetition fails at the first element the reader fails on. -/
theorem Fails.many {γ : Type} {p : Read ε β} {w : γ → Bytes} {g : γ → β} {l : List γ}
    (h : ∀ x ∈ l, Reads p (w x) (g x) ∨ Fails p (w x)) (hf : ∃ x ∈ l, Fails p (w x)) :
    Fails (readMany p l.length) (l.flatMap w) := by
  induction l with
  | nil =>
    obtain ⟨x, hx, -⟩ := hf
    cases hx
  | cons x l ih =>
    rcases h x List.mem_cons_self with hx | hx
    · by_cases hl : ∃ y ∈ l, Fails p (w y)
      · exact hx.bind_fails (ih (fun y hy => h y (List.mem_cons_of_mem x hy)) hl).bind_nil
      · obtain ⟨y, hy, hfy⟩ := hf
        rcases List.mem_cons.mp hy with rfl | hy
        · exact hfy.bind _
        · exact absurd ⟨y, hy, hfy⟩ hl
    · exact hx.bind _

end Rend.Lib
