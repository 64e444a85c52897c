import Rend.Lib.Checks
import Rend.Lib.SortedMap

/-!
# Lists in another order

What does not change when a list is enumerated in another order: the results of a partial map over it, up
to their order (`mapM_perm`), the entry of a key (`find_perm`), the first answer when all answers agree
(`findSome_perm`), the parts when only one element has any (`flatMap_perm`), and the map the elements
put their entries into when no two of them share a key (`ofEntries_flatMap_perm`).
-/

namespace Rend.Lib

variable {α β κ : Type}

theorem mapM_perm {f : α → Option β} {l l' : List α} (h : l.Perm l') {r : List β} (hr : l.mapM f = some r) :
    ∃ r', l'.mapM f = some r' ∧ r.Perm r' := by
  induction h generalizing r with
  | nil => exact ⟨r, hr, .refl r⟩
  | cons a _ ih =>
    simp only [List.mapM_cons, Option.pure_def, Option.bind_eq_bind, Option.bind_eq_some_iff,
      Option.some.injEq] at hr ⊢
    obtain ⟨b, hb, s, hs, rfl⟩ := hr
    obtain ⟨s', hs', hperm⟩ := ih hs
    exact ⟨b :: s', ⟨b, hb, s', hs', rfl⟩, hperm.cons b⟩
  | swap a c l =>
    simp only [List.mapM_cons, Option.pure_def, Option.bind_eq_bind, Option.bind_eq_some_iff,
      Option.some.injEq] at hr ⊢
    obtain ⟨b, hb, t, ⟨d, hd, s, hs, rfl⟩, rfl⟩ := hr
    exact ⟨d :: b :: s, ⟨d, hd, b :: s, ⟨b, hb, s, hs, rfl⟩, rfl⟩, .swap d b s⟩
  | trans _ _ ih ih' =>
    obtain ⟨s, hs, hrs⟩ := ih hr
    obtain ⟨s', hs', hss'⟩ := ih' hs
    exact ⟨s', hs', hrs.trans hss'⟩

theorem find_perm [DecidableEq κ] {key : α → κ} {l l' : List α} (h : l.Perm l') (hn : (l.map key).Nodup)
    (k : κ) : (l.find? fun a => key a = k) = l'.find? fun a => key a = k := by
  induction h with
  | nil => rfl
  | cons a _ ih =>
    rw [List.find?_cons, List.find?_cons, ih (List.nodup_cons.mp hn).2]
  | swap a b l =>
    have hne : key b ≠ key a := fun heq => by simp [heq] at hn
    by_cases ha : key a = k
    · have hb : key b ≠ k := fun hb => hne (hb.trans ha.symm)
      simp [ha, hb]
    · simp [List.find?_cons, ha]
  | trans hp _ ih ih' => rw [ih hn, ih' ((hp.map key).nodup_iff.mp hn)]

/-- The first answer, when any two answers are the same. -/
theorem findSome_perm {f : α → Option β} {l l' : List α} (h : l.Perm l')
    (hagree : ∀ a ∈ l, ∀ a' ∈ l, ∀ b b', f a = some b → f a' = some b' → b = b') :
    l.findSome? f = l'.findSome? f := by
  induction h with
  | nil => rfl
  | cons a _ ih =>
    rw [List.findSome?_cons, List.findSome?_cons]
    rw [ih fun x hx y hy => hagree x (List.mem_cons_of_mem a hx) y (List.mem_cons_of_mem a hy)]
  | swap a c l =>
    simp only [List.findSome?_cons]
    cases hc : f c with
    | none => rfl
    | some b =>
      cases ha : f a with
      | none => rfl
      | some b' =>
        rw [hagree c (by simp) a (by simp) b b' hc ha]
  | trans hp _ ih ih' =>
    rw [ih hagree]
    exact ih' fun x hx y hy => hagree x (hp.mem_iff.mpr hx) y (hp.mem_iff.mpr hy)

/-- The parts of the elements, when no two elements at different places have any. -/
theorem flatMap_perm {f : α → List β} {l l' : List α} (h : l.Perm l')
    (hone : l.Pairwise fun a a' => f a = [] ∨ f a' = []) : l.flatMap f = l'.flatMap f := by
  induction h with
  | nil => rfl
  | cons a _ ih => rw [List.flatMap_cons, List.flatMap_cons, ih (List.pairwise_cons.mp hone).2]
  | swap a c l =>
    have hac := (List.pairwise_cons.mp hone).1 a List.mem_cons_self
    simp only [List.flatMap_cons]
    rcases hac with hac | hac <;> simp [hac]
  | trans hp _ ih ih' =>
    rw [ih hone]
    exact ih' ((hp.pairwise_iff fun {_ _} h => h.symm).mp hone)

namespace SortedMap

variable {K V : Type} [LinearOrder K]

theorem insert_comm {k k' : K} (h : k ≠ k') (v v' : V) (m : SortedMap K V) :
    insert k v (insert k' v' m) = insert k' v' (insert k v m) := by
  induction m with
  | nil =>
    rcases lt_or_gt_of_ne h with hlt | hlt
    · simp [insert, hlt, hlt.not_gt, hlt.ne']
    · simp [insert, hlt, hlt.not_gt, hlt.ne']
  | cons a m ih =>
    rcases lt_trichotomy k a.1 with hk | hk | hk <;> rcases lt_trichotomy k' a.1 with hk' | hk' | hk'
    · rcases lt_or_gt_of_ne h with hlt | hlt
      · simp [insert, hk, hk', hlt, hlt.not_gt, hlt.ne']
      · simp [insert, hk, hk', hlt, hlt.not_gt, hlt.ne']
    · subst hk'
      simp [insert, hk, hk.not_gt, hk.ne']
    · simp [insert, hk, hk'.not_gt, hk'.ne', (hk.trans hk').not_gt, (hk.trans hk').ne']
    · subst hk
      simp [insert, hk', hk'.not_gt, hk'.ne']
    · exact absurd (hk.trans hk'.symm) h
    · subst hk
      simp [insert, hk'.not_gt, hk'.ne']
    · simp [insert, hk', hk.not_gt, hk.ne', (hk'.trans hk).not_gt, (hk'.trans hk).ne']
    · subst hk'
      simp [insert, hk.not_gt, hk.ne']
    · simp [insert, hk.not_gt, hk.ne', hk'.not_gt, hk'.ne', ih]

theorem insert_foldl {k : K} (v : V) {es : List (K × V)} (h : ∀ e ∈ es, e.1 ≠ k) (m : SortedMap K V) :
    insert k v (es.foldl (fun m e => insert e.1 e.2 m) m) =
      es.foldl (fun m e => insert e.1 e.2 m) (insert k v m) := by
  induction es generalizing m with
  | nil => rfl
  | cons e es ih =>
    rw [List.foldl_cons, List.foldl_cons, ih fun e' he' => h e' (List.mem_cons_of_mem e he'),
      insert_comm (h e List.mem_cons_self).symm]

theorem foldl_comm {es es' : List (K × V)} (h : ∀ e ∈ es, ∀ e' ∈ es', e.1 ≠ e'.1) (m : SortedMap K V) :
    es'.foldl (fun m e => insert e.1 e.2 m) (es.foldl (fun m e => insert e.1 e.2 m) m) =
      es.foldl (fun m e => insert e.1 e.2 m) (es'.foldl (fun m e => insert e.1 e.2 m) m) := by
  induction es' generalizing m with
  | nil => rfl
  | cons e' es' ih =>
    rw [List.foldl_cons, List.foldl_cons, insert_foldl e'.2 fun e he => h e he e' List.mem_cons_self]
    exact ih (fun e he x hx => h e he x (List.mem_cons_of_mem e' hx)) _

/-- The map the elements put their entries into, when different elements have different keys. -/
theorem ofEntries_flatMap_perm {f : α → List (K × V)} {l l' : List α} (h : l.Perm l')
    (hkeys : ∀ a ∈ l, ∀ a' ∈ l, a ≠ a' → ∀ e ∈ f a, ∀ e' ∈ f a', e.1 ≠ e'.1) :
    ofEntries (l.flatMap f) = ofEntries (l'.flatMap f) := by
  unfold ofEntries
  rw [List.foldl_flatMap, List.foldl_flatMap]
  refine h.foldl_eq' (fun a ha a' ha' m => ?_) []
  by_cases heq : a = a'
  · rw [heq]
  · exact foldl_comm (hkeys a ha a' ha' heq) m

end SortedMap

end Rend.Lib
