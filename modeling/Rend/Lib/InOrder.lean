import Mathlib.Data.List.Induction
import Mathlib.Data.List.Nodup

/-!
# Declarations taken in order

Declarations are taken one after the other, and what each stands for is put into a table under its name, for
those after it to read (`InOrder`). When no two have one name, each declaration was read with a table that has
the final content of those before it and nothing new besides (`InOrder.step_at`).
-/

namespace Rend.Lib

variable {α β κ : Type} [DecidableEq κ]

/-- A table with the contents of some names. -/
abbrev Contents (κ β : Type) := κ → Option β

/-- A table with one more entry. -/
def enter (t : Contents κ β) (k : κ) (b : β) : Contents κ β := fun x => if x = k then some b else t x

/-- The final table where it concerns some names, and the first elsewhere. -/
def between (t t' : Contents κ β) (names : List κ) : Contents κ β := fun x => if x ∈ names then t' x else t x

@[simp] theorem between_nil (t t' : Contents κ β) : between t t' [] = t := by
  funext x
  simp [between]

theorem between_enter {t t' : Contents κ β} {k : κ} {b : β} (h : t' k = some b) (names : List κ) :
    between (enter t k b) t' names = between t t' (k :: names) := by
  funext x
  unfold between enter
  by_cases hx : x ∈ names
  · simp [hx]
  · by_cases hk : x = k
    · subst hk
      simp [hx, h]
    · simp [hx, hk]

/-- Declarations `as` are taken in order from the table `t`: each gives a new form and a content. -/
inductive InOrder (name : α → κ) (step : Contents κ β → α → α → β → Prop) :
    List α → Contents κ β → List α → Contents κ β → Prop
  | nil (t : Contents κ β) : InOrder name step [] t [] t
  | cons {t t' : Contents κ β} {a a' : α} {b : β} {as as' : List α} (hstep : step t a a' b)
      (hrest : InOrder name step as (enter t (name a) b) as' t') : InOrder name step (a :: as) t (a' :: as') t'

namespace InOrder

variable {name : α → κ} {step : Contents κ β → α → α → β → Prop} {as as' : List α} {t t' : Contents κ β}

theorem of_not_mem (h : InOrder name step as t as' t') {k : κ} (hk : k ∉ as.map name) : t' k = t k := by
  induction h with
  | nil => rfl
  | cons _ _ ih =>
    rw [List.map_cons, List.mem_cons, not_or] at hk
    rw [ih hk.2, enter, if_neg hk.1]

/-- When a step asks for a new name, no two declarations have one name. -/
theorem fresh (hnew : ∀ {t a a' b}, step t a a' b → t (name a) = none) (h : InOrder name step as t as' t') :
    (as.map name).Nodup ∧ ∀ k ∈ as.map name, t k = none := by
  induction h with
  | nil => exact ⟨List.nodup_nil, by simp⟩
  | @cons t t' a a' b as as' hstep _ ih =>
    obtain ⟨hnodup, hnone⟩ := ih
    have hrest : ∀ k ∈ as.map name, k ≠ name a ∧ t k = none := by
      intro k hk
      have hk := hnone k hk
      unfold enter at hk
      split_ifs at hk with heq
      exact ⟨heq, hk⟩
    refine ⟨List.nodup_cons.mpr ⟨fun hmem => (hrest _ hmem).1 rfl, hnodup⟩, ?_⟩
    exact List.forall_mem_cons.mpr ⟨hnew hstep, fun k hk => (hrest k hk).2⟩

/-- Each new form comes from a declaration, which was read with the final contents of those before it. -/
theorem forms (h : InOrder name step as t as' t') (hnodup : (as.map name).Nodup) :
    ∀ a' ∈ as', ∃ before a after b, as = before ++ a :: after ∧
      step (between t t' (before.map name)) a a' b ∧ t' (name a) = some b := by
  induction h with
  | nil => simp
  | @cons t t' a₀ a₀' b₀ as as' hstep hrest ih =>
    obtain ⟨hne, hnodup⟩ := List.nodup_cons.mp hnodup
    have hhead : t' (name a₀) = some b₀ := by rw [hrest.of_not_mem hne, enter, if_pos rfl]
    refine List.forall_mem_cons.mpr ⟨⟨[], a₀, as, b₀, rfl, ?_, hhead⟩, fun a' ha' => ?_⟩
    · rwa [List.map_nil, between_nil]
    · obtain ⟨before, a, after, b, rfl, hb, hcontent⟩ := ih hnodup a' ha'
      refine ⟨a₀ :: before, a, after, b, rfl, ?_, hcontent⟩
      rwa [between_enter hhead] at hb

/-- Each declaration was read with the final contents of those before it, and has a new form. -/
theorem step_at (h : InOrder name step as t as' t') (hnodup : (as.map name).Nodup) :
    ∀ before a after, as = before ++ a :: after → ∃ a' ∈ as', ∃ b,
      step (between t t' (before.map name)) a a' b ∧ t' (name a) = some b := by
  induction h with
  | nil => intro before a after heq; simp at heq
  | @cons t t' a₀ a₀' b₀ as as' hstep hrest ih =>
    obtain ⟨hne, hnodup⟩ := List.nodup_cons.mp hnodup
    have hhead : t' (name a₀) = some b₀ := by rw [hrest.of_not_mem hne, enter, if_pos rfl]
    intro before a after heq
    cases before with
    | nil =>
      cases heq
      refine ⟨_, List.mem_cons_self, b₀, ?_, hhead⟩
      rwa [List.map_nil, between_nil]
    | cons c before =>
      obtain ⟨rfl, htail⟩ := List.cons.inj heq
      obtain ⟨a', ha', b, hb, hcontent⟩ := ih hnodup before a after htail
      refine ⟨a', List.mem_cons_of_mem _ ha', b, ?_, hcontent⟩
      rwa [between_enter hhead] at hb

/-- The new forms, when the form of each is known from the declaration. -/
theorem eq_map {g : α → α} (h : InOrder name step as t as' t') (hnodup : (as.map name).Nodup)
    (hform : ∀ before a after, as = before ++ a :: after →
      ∀ a' b, step (between t t' (before.map name)) a a' b → a' = g a) : as' = as.map g := by
  induction h with
  | nil => rfl
  | @cons t t' a₀ a₀' b₀ as as' hstep hrest ih =>
    obtain ⟨hne, hnodup⟩ := List.nodup_cons.mp hnodup
    have hhead : t' (name a₀) = some b₀ := by rw [hrest.of_not_mem hne, enter, if_pos rfl]
    rw [List.map_cons]
    refine congrArg₂ List.cons ?_ (ih hnodup fun before a after heq a' b hb => ?_)
    · apply hform [] a₀ as rfl
      rwa [List.map_nil, between_nil]
    · apply hform (a₀ :: before) a after (congrArg (a₀ :: ·) heq)
      rwa [List.map_cons, ← between_enter hhead]

/-- The final table has the contents of the new forms. -/
theorem content_iff {content : α → β} (hform : ∀ {t a a' b}, step t a a' b → name a' = name a ∧ b = content a')
    (h : InOrder name step as t as' t') (hnodup : (as.map name).Nodup) (hnone : ∀ k, k ∉ as.map name → t k = none)
    {k : κ} {b : β} : t' k = some b ↔ ∃ a' ∈ as', name a' = k ∧ content a' = b := by
  constructor
  · intro hk
    have hmem : k ∈ as.map name := by
      by_contra hmem
      rw [h.of_not_mem hmem, hnone k hmem] at hk
      cases hk
    obtain ⟨a, ha, rfl⟩ := List.mem_map.mp hmem
    obtain ⟨before, after, heq⟩ := List.append_of_mem ha
    obtain ⟨a', ha', b', hstep, hb'⟩ := h.step_at hnodup before a after heq
    obtain ⟨hname, rfl⟩ := hform hstep
    exact ⟨a', ha', hname, Option.some.inj (hb'.symm.trans hk)⟩
  · rintro ⟨a', ha', rfl, rfl⟩
    obtain ⟨before, a, after, b, _, hstep, hb⟩ := h.forms hnodup a' ha'
    obtain ⟨hname, rfl⟩ := hform hstep
    rw [hname, hb]

end InOrder

/-- What holds of each element when it holds of those before it holds of all. -/
theorem forall_mem_of_before {P : α → Prop} {l : List α}
    (h : ∀ before a after, l = before ++ a :: after → (∀ b ∈ before, P b) → P a) : ∀ a ∈ l, P a := by
  induction l using List.reverseRecOn with
  | nil => simp
  | append_singleton l a ih =>
    have hl : ∀ b ∈ l, P b := ih fun before b after heq => h before b (after ++ [a]) (by rw [heq]; simp)
    exact List.forall_mem_append.mpr ⟨hl, List.forall_mem_singleton.mpr (h l a [] rfl hl)⟩

end Rend.Lib
