import Mathlib.Data.List.Basic
import Mathlib.Tactic

/-!
# Steps that may fail

What is known of the parts when a computation in steps has succeeded: of two steps (`bind_ok`), of a check
of every element of a list (`forM_ok`), and of a partial map over a list (`mem_of_mapM`, `map_of_mapM`).
-/

namespace Rend.Lib

variable {α β κ ε : Type}

theorem bind_ok {x : Except ε α} {f : α → Except ε β} {b : β} (h : (x >>= f) = .ok b) :
    ∃ a, x = .ok a ∧ f a = .ok b := by
  cases x with
  | error e => cases h
  | ok a => exact ⟨a, rfl, h⟩

theorem toOption_eq_some {e : Except ε α} {a : α} (h : e.toOption = some a) : e = .ok a := by
  cases e with
  | error _ => cases h
  | ok _ => exact congrArg Except.ok (Option.some.inj h)

theorem getElem?_of_mapM_ok {f : α → Except ε β} {l : List α} {r : List β} (h : l.mapM f = .ok r) {i : ℕ} {a : α} {b : β}
    (ha : l[i]? = some a) (hb : r[i]? = some b) : f a = .ok b := by
  induction l generalizing r i with
  | nil => simp at ha
  | cons x l ih =>
    rw [List.mapM_cons] at h
    obtain ⟨y, hy, hrest⟩ := bind_ok h
    obtain ⟨ys, hys, hr⟩ := bind_ok hrest
    cases hr
    cases i with
    | zero =>
      cases ha
      cases hb
      exact hy
    | succ i => exact ih hys ha hb

theorem forM_ok {f : α → Except ε Unit} {l : List α} (h : l.forM f = .ok ()) : ∀ a ∈ l, f a = .ok () := by
  induction l with
  | nil => simp
  | cons b l ih =>
    obtain ⟨u, hb, h⟩ := bind_ok (x := f b) (f := fun _ => l.forM f) h
    intro a ha
    rcases List.mem_cons.mp ha with rfl | ha
    · exact hb
    · exact ih h a ha

/-- The elements a partial map was applied to, one for each result. -/
theorem mem_of_mapM {f : α → Option β} {l : List α} {r : List β} (h : l.mapM f = some r) {b : β}
    (hb : b ∈ r) : ∃ a ∈ l, f a = some b := by
  induction l generalizing r with
  | nil =>
    cases h
    cases hb
  | cons a l ih =>
    simp only [List.mapM_cons, Option.pure_def, Option.bind_eq_bind, Option.bind_eq_some_iff,
      Option.some.injEq] at h
    obtain ⟨c, hc, s, hs, rfl⟩ := h
    rcases List.mem_cons.mp hb with rfl | hb
    · exact ⟨a, List.mem_cons_self, hc⟩
    · obtain ⟨a', ha', hf⟩ := ih hs hb
      exact ⟨a', List.mem_cons_of_mem a ha', hf⟩

/-- A partial map over a list is defined at every element. -/
theorem exists_of_mapM {f : α → Option β} {l : List α} {r : List β} (h : l.mapM f = some r) {a : α}
    (ha : a ∈ l) : ∃ b, f a = some b := by
  induction l generalizing r with
  | nil => cases ha
  | cons c l ih =>
    simp only [List.mapM_cons, Option.pure_def, Option.bind_eq_bind, Option.bind_eq_some_iff,
      Option.some.injEq] at h
    obtain ⟨b, hb, s, hs, rfl⟩ := h
    rcases List.mem_cons.mp ha with rfl | ha
    · exact ⟨b, hb⟩
    · exact ih hs ha

theorem mapM_eq_map {f : α → Option β} {g : α → β} {l : List α} (h : ∀ a ∈ l, f a = some (g a)) :
    l.mapM f = some (l.map g) := by
  induction l with
  | nil => rfl
  | cons a l ih =>
    rw [List.mapM_cons, h a List.mem_cons_self, ih fun b hb => h b (List.mem_cons_of_mem a hb)]
    rfl

/-- A key of the elements that the partial map keeps. -/
theorem map_of_mapM {f : α → Option β} {key : α → κ} {key' : β → κ}
    (hkey : ∀ a b, f a = some b → key' b = key a) {l : List α} {r : List β} (h : l.mapM f = some r) :
    r.map key' = l.map key := by
  induction l generalizing r with
  | nil =>
    cases h
    rfl
  | cons a l ih =>
    simp only [List.mapM_cons, Option.pure_def, Option.bind_eq_bind, Option.bind_eq_some_iff,
      Option.some.injEq] at h
    obtain ⟨c, hc, s, hs, rfl⟩ := h
    rw [List.map_cons, List.map_cons, hkey a c hc, ih hs]

theorem length_of_mapM {f : α → Option β} {l : List α} {r : List β} (h : l.mapM f = some r) :
    r.length = l.length := by
  have hmap : r.map (fun _ => ()) = l.map fun _ => () := map_of_mapM (fun _ _ _ => rfl) h
  simpa using congrArg List.length hmap

/-- The same for checks that may fail. -/
theorem map_of_mapM_ok {f : α → Except ε β} {key : α → κ} {key' : β → κ} {l : List α} {r : List β}
    (hkey : ∀ a ∈ l, ∀ b, f a = .ok b → key' b = key a) (h : l.mapM f = .ok r) : r.map key' = l.map key := by
  induction l generalizing r with
  | nil =>
    cases h
    rfl
  | cons a l ih =>
    rw [List.mapM_cons] at h
    obtain ⟨b, hb, h⟩ := bind_ok h
    obtain ⟨bs, hbs, h⟩ := bind_ok h
    cases h
    rw [List.map_cons, List.map_cons, hkey a List.mem_cons_self b hb,
      ih (fun a ha => hkey a (List.mem_cons_of_mem _ ha)) hbs]

theorem exists_of_mapM_ok {f : α → Except ε β} {l : List α} {r : List β} (h : l.mapM f = .ok r) {a : α}
    (ha : a ∈ l) : ∃ b, f a = .ok b := by
  induction l generalizing r with
  | nil => cases ha
  | cons c l ih =>
    rw [List.mapM_cons] at h
    obtain ⟨b, hb, h⟩ := bind_ok h
    obtain ⟨bs, hbs, h⟩ := bind_ok h
    rcases List.mem_cons.mp ha with rfl | ha
    · exact ⟨b, hb⟩
    · exact ih hbs ha

end Rend.Lib
