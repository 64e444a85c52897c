import Mathlib.Tactic.Common

/-!
# Scripts

A script is a computation whose steps are named but not yet carried out: it ends with a value, fails, or
asks for a step and goes on with the answer. An interpreter says what a step does to a state.

* `Script.run`: a script under an interpreter. `Script.run_bind_ok` takes a run apart.
* `Script.Asks`: what the steps of a script are given, when their answers are as promised.
* `Script.agree`: two interpreters that agree on the steps whose result is good agree on every run
  whose result is good.
* `Script.Keeps`: what every run keeps that ends within a bound, and what is known of its result.
-/

namespace Rend.Lib

/-- A script over steps `Op`, with failures in `ε` and results in `α`. -/
inductive Script (ε : Type) (Op : Type → Type) (α : Type) : Type 1
  | done (a : α)
  | fail (e : ε)
  | step {β : Type} (o : Op β) (k : β → Script ε Op α)

namespace Script

variable {ε σ α β : Type} {Op : Type → Type}

def andThen : Script ε Op α → (α → Script ε Op β) → Script ε Op β
  | done a, f => f a
  | fail e, _ => fail e
  | step o k, f => step o fun b => (k b).andThen f

instance : Monad (Script ε Op) where
  pure := done
  bind := andThen

/-- The script of one step. -/
def ask (o : Op α) : Script ε Op α := step o done

theorem bind_assoc {γ : Type} (x : Script ε Op α) (f : α → Script ε Op β) (g : β → Script ε Op γ) :
    x >>= f >>= g = x >>= fun a => f a >>= g := by
  induction x with
  | done a => rfl
  | fail e => rfl
  | step o k ih => exact congrArg (step o) (funext ih)

/-! ### Runs -/

/-- What the steps do to a state. -/
abbrev Interp (ε : Type) (Op : Type → Type) (σ : Type) : Type 1 :=
  ∀ β : Type, Op β → σ → Except ε (β × σ)

def run (exec : Interp ε Op σ) : Script ε Op α → σ → Except ε (α × σ)
  | done a, s => .ok (a, s)
  | fail e, _ => .error e
  | step o k, s =>
    match exec _ o s with
    | .error e => .error e
    | .ok r => (k r.1).run exec r.2

section Run

variable {exec : Interp ε Op σ}

@[simp] theorem run_pure (a : α) (s : σ) : run exec (pure a) s = .ok (a, s) := rfl

@[simp] theorem run_fail (e : ε) (s : σ) : run exec (fail e : Script ε Op α) s = .error e := rfl

@[simp] theorem run_ask (o : Op α) (s : σ) : run exec (ask o) s = exec _ o s := by
  rw [ask, run]
  cases exec _ o s <;> rfl

/-- A run goes on where its first step leads. -/
theorem run_step_ok {o : Op β} {k : β → Script ε Op α} {s s' : σ} {a : α} :
    run exec (step o k) s = .ok (a, s') ↔ ∃ b t, exec _ o s = .ok (b, t) ∧ run exec (k b) t = .ok (a, s') := by
  rw [run]
  cases exec _ o s with
  | error e => simp
  | ok r =>
    constructor
    · intro h
      exact ⟨r.1, r.2, rfl, h⟩
    · rintro ⟨b, t, ⟨⟩, h⟩
      exact h

/-- A run of two scripts is a run of the first and then of the second. -/
theorem run_bind (x : Script ε Op α) (f : α → Script ε Op β) (s : σ) :
    run exec (x >>= f) s = match run exec x s with
      | .error e => .error e
      | .ok r => run exec (f r.1) r.2 := by
  induction x generalizing s with
  | done a => rfl
  | fail e => rfl
  | step o k ih =>
    show run exec (step o fun b => (k b).andThen f) s = _
    rw [run, run]
    cases exec _ o s with
    | error e => rfl
    | ok r => exact ih r.1 r.2

theorem run_bind_ok {x : Script ε Op α} {f : α → Script ε Op β} {s s' : σ} {b : β} :
    run exec (x >>= f) s = .ok (b, s') ↔
      ∃ a t, run exec x s = .ok (a, t) ∧ run exec (f a) t = .ok (b, s') := by
  rw [run_bind]
  cases run exec x s with
  | error e => simp
  | ok r =>
    constructor
    · intro h
      exact ⟨r.1, r.2, rfl, h⟩
    · rintro ⟨a, t, ⟨⟩, h⟩
      exact h

/-- What every step keeps, every run keeps. -/
theorem run_keeps {Inv : σ → Prop}
    (hexec : ∀ (β : Type) (o : Op β) (s s' : σ) (b : β), Inv s → exec _ o s = .ok (b, s') → Inv s')
    (x : Script ε Op α) {s s' : σ} {a : α} (hs : Inv s) (h : run exec x s = .ok (a, s')) : Inv s' := by
  induction x generalizing s with
  | done a =>
    cases h
    exact hs
  | fail e => cases h
  | step o k ih =>
    obtain ⟨b, t, ho, h⟩ := run_step_ok.mp h
    exact ih b (hexec _ o s t b hs ho) h

/-- What holds after a run and is passed back by every step holds before it. -/
theorem run_back {Good : σ → Prop}
    (hexec : ∀ (β : Type) (o : Op β) (s s' : σ) (b : β), exec _ o s = .ok (b, s') → Good s' → Good s)
    (x : Script ε Op α) {s s' : σ} {a : α} (h : run exec x s = .ok (a, s')) (hgood : Good s') : Good s := by
  induction x generalizing s with
  | done a =>
    cases h
    exact hgood
  | fail e => cases h
  | step o k ih =>
    obtain ⟨b, t, ho, h⟩ := run_step_ok.mp h
    exact hexec _ o s t b ho (ih b h)

end Run

/-! ### What a script asks -/

section Asks

variable (Pre : ∀ {β : Type}, Op β → Prop) (Post : ∀ {β : Type}, Op β → β → Prop)

/-- Every step of the script is as `Pre` wants it, as long as the answers are as `Post` promises, and so is
the result by `Q`. -/
def Asks : Script ε Op α → (α → Prop) → Prop
  | done a, Q => Q a
  | fail _, _ => True
  | step o k, Q => Pre o ∧ ∀ b, Post o b → Asks (k b) Q

variable {Pre Post} {Q R : α → Prop}

@[simp] theorem asks_pure (a : α) : Asks Pre Post (pure a : Script ε Op α) Q ↔ Q a := Iff.rfl

@[simp] theorem asks_fail (e : ε) : Asks Pre Post (fail e : Script ε Op α) Q := trivial

@[simp] theorem asks_ask (o : Op α) :
    Asks Pre Post (ask o : Script ε Op α) Q ↔ Pre o ∧ ∀ b, Post o b → Q b := Iff.rfl

theorem Asks.mono {x : Script ε Op α} (h : Asks Pre Post x Q) (hQ : ∀ a, Q a → R a) : Asks Pre Post x R := by
  induction x with
  | done a => exact hQ a h
  | fail e => trivial
  | step o k ih => exact ⟨h.1, fun b hb => ih b (h.2 b hb)⟩

@[simp] theorem asks_bind {x : Script ε Op α} {f : α → Script ε Op β} {Q : β → Prop} :
    Asks Pre Post (x >>= f) Q ↔ Asks Pre Post x fun a => Asks Pre Post (f a) Q := by
  induction x with
  | done a => rfl
  | fail e => rfl
  | step o k ih => exact and_congr_right fun _ => forall₂_congr fun b _ => ih b

end Asks

/-! ### Two interpreters -/

/-- **Agreement.** Two interpreters that agree on a step with a good result, when it is asked as `Pre` wants it,
agree on a run with a good result. -/
theorem agree {exec exec' : Interp ε Op σ} {Good : σ → Prop} {Pre : ∀ {β : Type}, Op β → Prop}
    {Post : ∀ {β : Type}, Op β → β → Prop}
    (hback : ∀ (β : Type) (o : Op β) (s s' : σ) (b : β), exec' _ o s = .ok (b, s') → Good s' → Good s)
    (hstep : ∀ (β : Type) (o : Op β) (s s' : σ) (b : β), Pre o → exec' _ o s = .ok (b, s') → Good s' →
      exec _ o s = .ok (b, s') ∧ Post o b)
    {x : Script ε Op α} {Q : α → Prop} (hx : Asks Pre Post x Q) {s s' : σ} {a : α}
    (h : run exec' x s = .ok (a, s')) (hgood : Good s') : run exec x s = .ok (a, s') ∧ Q a := by
  induction x generalizing s with
  | done a =>
    cases h
    exact ⟨rfl, hx⟩
  | fail e => cases h
  | step o k ih =>
    obtain ⟨b, t, ho, h⟩ := run_step_ok.mp h
    have hmid : Good t := run_back hback (k b) h hgood
    obtain ⟨hexec, hpost⟩ := hstep _ o s t b hx.1 ho hmid
    obtain ⟨hrun, hQ⟩ := ih b (hx.2 b hpost) h
    exact ⟨run_step_ok.mpr ⟨b, t, hexec, hrun⟩, hQ⟩

/-! ### What a script keeps -/

section Keeps

variable (exec : Interp ε Op σ) (Inv Fin : σ → Prop)

/-- Every run that starts with the invariant and ends within the bound `Fin` ends with the invariant, and its
result is as told. -/
def Keeps (x : Script ε Op α) (Q : α → Prop) : Prop :=
  ∀ s s' a, Inv s → run exec x s = .ok (a, s') → Fin s' → Inv s' ∧ Q a

variable {exec Inv Fin} {Q R : α → Prop}

theorem keeps_pure {a : α} (h : Q a) : Keeps exec Inv Fin (pure a) Q := by
  intro s s' b hs hrun _
  cases hrun
  exact ⟨hs, h⟩

theorem keeps_fail (e : ε) : Keeps exec Inv Fin (fail e : Script ε Op α) Q := by
  intro s s' b _ hrun _
  cases hrun

theorem Keeps.mono {x : Script ε Op α} (h : Keeps exec Inv Fin x Q) (hQ : ∀ a, Q a → R a) :
    Keeps exec Inv Fin x R := by
  intro s s' a hs hrun hfin
  obtain ⟨hs', ha⟩ := h s s' a hs hrun hfin
  exact ⟨hs', hQ a ha⟩

/-- One script after the other; the bound is passed back by the steps of the second. -/
theorem Keeps.bind {x : Script ε Op α} {f : α → Script ε Op β} {P : β → Prop}
    (hback : ∀ (γ : Type) (o : Op γ) (s s' : σ) (c : γ), exec _ o s = .ok (c, s') → Fin s' → Fin s)
    (hx : Keeps exec Inv Fin x Q) (hf : ∀ a, Q a → Keeps exec Inv Fin (f a) P) :
    Keeps exec Inv Fin (x >>= f) P := by
  intro s s' b hs hrun hfin
  obtain ⟨a, t, hxrun, hfrun⟩ := run_bind_ok.mp hrun
  obtain ⟨ht, ha⟩ := hx s t a hs hxrun (run_back hback (f a) hfrun hfin)
  exact hf a ha t s' b ht hfrun hfin

theorem keeps_ask {o : Op α}
    (h : ∀ s s' a, Inv s → exec _ o s = .ok (a, s') → Fin s' → Inv s' ∧ Q a) : Keeps exec Inv Fin (ask o) Q := by
  intro s s' a hs hrun hfin
  rw [run_ask] at hrun
  exact h s s' a hs hrun hfin

end Keeps

end Script

end Rend.Lib
