import Mathlib.Data.List.TakeWhile
import Rend.Lib.Dense

/-!
# Sorted lists cut by separators

A sorted list is spread over consecutive parts with a separator between each two of them. A value is in
the slot `j` when the separators before `j` are not above it and those from `j` on are (`InSlot`);
`Separates` says that each element is in the slot of its part. This is what a search tree with routing
keys keeps in each of its inner nodes.

The lemmas say what remains separated when one part is replaced, split in two or dropped, and when the
whole is cut at a separator. `place` is the slot a search follows: everything in an earlier part is below
the value that is searched, everything in a later part is above it (`Separates.lt_of_before`,
`Separates.lt_of_behind`).
-/

namespace Rend.Lib

variable {ε K : Type*} [LinearOrder K]

/-! ### Sorted lists -/

section Sorted

variable (r : ε → K)

/-- The elements are strictly increasing in rank. -/
def SortedBy (es : List ε) : Prop := es.Pairwise fun a b => r a < r b

/-- Puts an element in its place, for the one of its rank. -/
def insertBy (e : ε) (es : List ε) : List ε :=
  es.filter (fun a => r a < r e) ++ e :: es.filter (fun a => r e < r a)

/-- Leaves out the element of a rank. -/
def eraseBy (k : K) (es : List ε) : List ε := es.filter fun a => r a ≠ k

variable {r}

theorem mem_insertBy {e a : ε} {es : List ε} : a ∈ insertBy r e es ↔ a = e ∨ a ∈ es ∧ r a ≠ r e := by
  simp only [insertBy, List.mem_append, List.mem_cons, List.mem_filter, decide_eq_true_eq, ne_iff_lt_or_gt]
  tauto

theorem mem_eraseBy {k : K} {a : ε} {es : List ε} : a ∈ eraseBy r k es ↔ a ∈ es ∧ r a ≠ k := by
  simp [eraseBy]

theorem SortedBy.insertBy {es : List ε} (h : SortedBy r es) (e : ε) : SortedBy r (insertBy r e es) := by
  refine List.pairwise_append.mpr ⟨h.filter _, List.pairwise_cons.mpr ⟨?_, h.filter _⟩, ?_⟩
  · intro a ha
    simpa using (List.mem_filter.mp ha).2
  · intro a ha b hb
    have hlt : r a < r e := by simpa using (List.mem_filter.mp ha).2
    rcases List.mem_cons.mp hb with rfl | hb
    · exact hlt
    · exact hlt.trans (by simpa using (List.mem_filter.mp hb).2)

theorem SortedBy.eraseBy {es : List ε} (h : SortedBy r es) (k : K) : SortedBy r (eraseBy r k es) := h.filter _

/-- Insertion works in the middle of a list when what stands around is smaller and larger. -/
theorem insertBy_append {e : ε} {A x C : List ε} (hA : ∀ a ∈ A, r a < r e) (hC : ∀ c ∈ C, r e < r c) :
    insertBy r e (A ++ x ++ C) = A ++ insertBy r e x ++ C := by
  have hA₁ : A.filter (fun a => r a < r e) = A := List.filter_eq_self.mpr fun a ha => by simpa using hA a ha
  have hA₂ : A.filter (fun a => r e < r a) = [] :=
    List.filter_eq_nil_iff.mpr fun a ha => by simpa using (hA a ha).le
  have hC₁ : C.filter (fun a => r a < r e) = [] :=
    List.filter_eq_nil_iff.mpr fun a ha => by simpa using (hC a ha).le
  have hC₂ : C.filter (fun a => r e < r a) = C := List.filter_eq_self.mpr fun a ha => by simpa using hC a ha
  simp only [insertBy, List.filter_append, hA₁, hA₂, hC₁, hC₂, List.append_nil, List.nil_append,
    List.append_assoc, List.cons_append]

theorem eraseBy_append {k : K} {A x C : List ε} (hA : ∀ a ∈ A, r a < k) (hC : ∀ c ∈ C, k < r c) :
    eraseBy r k (A ++ x ++ C) = A ++ eraseBy r k x ++ C := by
  have hA' : A.filter (fun a => r a ≠ k) = A := List.filter_eq_self.mpr fun a ha => by simpa using (hA a ha).ne
  have hC' : C.filter (fun a => r a ≠ k) = C := List.filter_eq_self.mpr fun a ha => by simpa using (hC a ha).ne'
  simp only [eraseBy, List.filter_append, hA', hC']

end Sorted

/-! ### Slots -/

/-- The separators before `j` are not above the value, and those from `j` on are. -/
def InSlot (keys : List K) (j : ℕ) (x : K) : Prop :=
  ∀ ⦃i k⦄, keys[i]? = some k → (i < j → k ≤ x) ∧ (j ≤ i → x < k)

/-- The slot a search follows. -/
def place (keys : List K) (x : K) : ℕ := (keys.takeWhile (· ≤ x)).length

section Slots

variable {keys : List K} {x s : K} {i j q : ℕ}

theorem place_le (keys : List K) (x : K) : place keys x ≤ keys.length := (List.takeWhile_prefix _).length_le

theorem le_of_lt_place {k : K} (hk : keys[i]? = some k) (hi : i < place keys x) : k ≤ x := by
  have hmem : k ∈ keys.takeWhile (· ≤ x) := by
    have hget := (List.takeWhile_prefix (l := keys) (· ≤ x)).getElem hi
    rw [List.getElem?_eq_some_iff] at hk
    obtain ⟨hlt, rfl⟩ := hk
    rw [← hget]
    exact List.getElem_mem _
  simpa using List.mem_takeWhile_imp hmem

/-- What stands right behind a taken prefix ends it. -/
theorem not_of_takeWhile_length {α : Type*} {p : α → Bool} {l : List α} {a : α}
    (h : l[(l.takeWhile p).length]? = some a) : p a = false := by
  induction l with
  | nil => cases h
  | cons b l ih =>
    by_cases hb : p b
    · rw [List.takeWhile_cons_of_pos hb, List.length_cons, List.getElem?_cons_succ] at h
      exact ih h
    · rw [List.takeWhile_cons_of_neg hb, List.length_nil, List.getElem?_cons_zero] at h
      cases h
      exact Bool.eq_false_iff.mpr hb

theorem lt_of_place {k : K} (hk : keys[place keys x]? = some k) : x < k := by
  simpa using not_of_takeWhile_length hk

omit [LinearOrder K] in
theorem exists_key (hj : j < keys.length) : ∃ k, keys[j]? = some k := ⟨_, List.getElem?_eq_getElem hj⟩

theorem InSlot.insertIdx_left (h : InSlot keys j x) (hj : j ≤ q) (hx : x < s) : InSlot (keys.insertIdx q s) j x := by
  intro i k hk
  rw [List.getElem?_insertIdx] at hk
  split_ifs at hk with h₁ h₂ h₃
  · exact h hk
  · cases hk
    exact ⟨fun hi => absurd hi (by omega), fun _ => hx⟩
  · exact ⟨fun hi => absurd hi (by omega), fun _ => (h hk).2 (by omega)⟩

theorem InSlot.insertIdx_right (h : InSlot keys j x) (hj : q ≤ j) (hx : s ≤ x) :
    InSlot (keys.insertIdx q s) (j + 1) x := by
  intro i k hk
  rw [List.getElem?_insertIdx] at hk
  split_ifs at hk with h₁ h₂ h₃
  · exact ⟨fun _ => (h hk).1 (by omega), fun hi => absurd hi (by omega)⟩
  · cases hk
    exact ⟨fun _ => hx, fun hi => absurd hi (by omega)⟩
  · exact ⟨fun hi => (h hk).1 (by omega), fun hi => (h hk).2 (by omega)⟩

theorem InSlot.eraseIdx_left (h : InSlot keys j x) (hj : j ≤ q) : InSlot (keys.eraseIdx q) j x := by
  intro i k hk
  rw [List.getElem?_eraseIdx] at hk
  split_ifs at hk with h₁
  · exact h hk
  · exact ⟨fun hi => absurd hi (by omega), fun hi => (h hk).2 (by omega)⟩

theorem InSlot.eraseIdx_right (h : InSlot keys (j + 1) x) (hj : q ≤ j) : InSlot (keys.eraseIdx q) j x := by
  intro i k hk
  rw [List.getElem?_eraseIdx] at hk
  split_ifs at hk with h₁
  · exact ⟨fun hi => (h hk).1 (by omega), fun hi => absurd hi (by omega)⟩
  · exact ⟨fun hi => (h hk).1 (by omega), fun hi => (h hk).2 (by omega)⟩

theorem InSlot.take (h : InSlot keys j x) (n : ℕ) : InSlot (keys.take n) j x := by
  intro i k hk
  rw [List.getElem?_take] at hk
  split_ifs at hk
  exact h hk

theorem InSlot.drop {n : ℕ} (h : InSlot keys (n + j) x) : InSlot (keys.drop n) j x := by
  intro i k hk
  rw [List.getElem?_drop] at hk
  exact ⟨fun hi => (h hk).1 (by omega), fun hi => (h hk).2 (by omega)⟩

end Slots

/-! ### Separated parts -/

/-- Each element is in the slot of its part. -/
structure Separates (r : ε → K) (keys : List K) (parts : List (List ε)) : Prop where
  length : parts.length = keys.length + 1
  inSlot : ∀ ⦃j p⦄, parts[j]? = some p → ∀ e ∈ p, InSlot keys j (r e)

section Separates

variable {r : ε → K} {keys : List K} {parts : List (List ε)} {x s : K} {pos : ℕ}

/-- What stands in an earlier part is below. -/
theorem Separates.lt_of_before (h : Separates r keys parts) {j : ℕ} {p : List ε} (hp : parts[j]? = some p)
    (hj : j < place keys x) {e : ε} (he : e ∈ p) : r e < x := by
  obtain ⟨k, hk⟩ := exists_key (hj.trans_le (place_le keys x))
  exact ((h.inSlot hp e he hk).2 le_rfl).trans_le (le_of_lt_place hk hj)

/-- What stands in a later part is above. -/
theorem Separates.lt_of_behind (h : Separates r keys parts) {j : ℕ} {p : List ε} (hp : parts[j]? = some p)
    (hj : place keys x < j) {e : ε} (he : e ∈ p) : x < r e := by
  have hlt : j < parts.length := (List.getElem?_eq_some_iff.mp hp).1
  have hlen := h.length
  obtain ⟨k, hk⟩ := exists_key (show place keys x < keys.length by omega)
  exact (lt_of_place hk).trans_le ((h.inSlot hp e he hk).1 hj)

/-- The separators increase, when no part is empty. -/
theorem Separates.keys_lt (h : Separates r keys parts) (hne : ∀ p ∈ parts, p ≠ []) {i j : ℕ} {k k' : K}
    (hk : keys[i]? = some k) (hk' : keys[j]? = some k') (hij : i < j) : k < k' := by
  have hlt : i + 1 < parts.length := by
    have := (List.getElem?_eq_some_iff.mp hk).1
    have := h.length
    omega
  obtain ⟨e, he⟩ := List.exists_mem_of_ne_nil _ (hne _ (List.getElem_mem hlt))
  have hin := h.inSlot (List.getElem?_eq_getElem hlt) e he
  exact ((hin hk).1 (Nat.lt_succ_self i)).trans_lt ((hin hk').2 hij)

/-- A value is in the slot where a search for it ends. -/
theorem Separates.inSlot_place (h : Separates r keys parts) (hne : ∀ p ∈ parts, p ≠ []) (x : K) :
    InSlot keys (place keys x) x := by
  intro i k hk
  refine ⟨le_of_lt_place hk, fun hi => ?_⟩
  have hlt := (List.getElem?_eq_some_iff.mp hk).1
  obtain ⟨k₀, hk₀⟩ := exists_key (hi.trans_lt hlt)
  rcases hi.lt_or_eq with hi | rfl
  · exact (lt_of_place hk₀).trans (h.keys_lt hne hk₀ hk hi)
  · exact lt_of_place hk

theorem Separates.sorted_flatten (h : Separates r keys parts) (hs : ∀ p ∈ parts, SortedBy r p) :
    SortedBy r parts.flatten := by
  refine List.pairwise_flatten.mpr ⟨hs, List.pairwise_iff_getElem.mpr fun i j hi hj hij a ha b hb => ?_⟩
  obtain ⟨k, hk⟩ := exists_key (show i < keys.length by have := h.length; omega)
  have hbelow := (h.inSlot (List.getElem?_eq_getElem hi) a ha hk).2 le_rfl
  exact hbelow.trans_le ((h.inSlot (List.getElem?_eq_getElem hj) b hb hk).1 hij)

/-- One part is replaced. -/
theorem Separates.set (h : Separates r keys parts) {p' : List ε} (hp' : ∀ e ∈ p', InSlot keys pos (r e)) :
    Separates r keys (parts.set pos p') := by
  refine ⟨by rw [List.length_set, h.length], fun j p hp => ?_⟩
  by_cases hj : pos = j
  · subst hj
    have hlt : pos < (parts.set pos p').length := (List.getElem?_eq_some_iff.mp hp).1
    rw [List.length_set] at hlt
    rw [List.getElem?_set_self hlt] at hp
    cases hp
    exact hp'
  · rw [List.getElem?_set_ne hj] at hp
    exact h.inSlot hp

/-- One part is split in two, with a new separator between them. -/
theorem Separates.split (h : Separates r keys parts) (hpos : pos < parts.length) {left right : List ε}
    (hl : ∀ e ∈ left, InSlot keys pos (r e)) (hr : ∀ e ∈ right, InSlot keys pos (r e))
    (hlne : left ≠ []) (hrne : right ≠ []) (hls : ∀ e ∈ left, r e < s) (hrs : ∀ e ∈ right, s ≤ r e) :
    Separates r (keys.insertIdx pos s) ((parts.set pos left).insertIdx (pos + 1) right) := by
  have hlen := h.length
  obtain ⟨a, ha⟩ := List.exists_mem_of_ne_nil _ hlne
  obtain ⟨b, hb⟩ := List.exists_mem_of_ne_nil _ hrne
  refine ⟨?_, fun j p hp => ?_⟩
  · have hkeys : (keys.insertIdx pos s).length = keys.length + 1 := List.length_insertIdx_of_le_length (by omega) s
    have hparts : ((parts.set pos left).insertIdx (pos + 1) right).length = (parts.set pos left).length + 1 :=
      List.length_insertIdx_of_le_length (by rw [List.length_set]; omega) right
    rw [hkeys, hparts, List.length_set, hlen]
  · rw [List.getElem?_insertIdx] at hp
    split_ifs at hp with h₁ h₂ h₃
    · rcases Nat.lt_succ_iff_lt_or_eq.mp h₁ with hj | rfl
      · -- an earlier part lies below the new separator, since some element of `left` does
        rw [List.getElem?_set_ne (by omega)] at hp
        intro e he
        obtain ⟨k, hk⟩ := exists_key (show j < keys.length by omega)
        have hlt : r e < s := ((h.inSlot hp e he hk).2 le_rfl).trans (((hl a ha hk).1 hj).trans_lt (hls a ha))
        exact (h.inSlot hp e he).insertIdx_left hj.le hlt
      · rw [List.getElem?_set_self hpos] at hp
        cases hp
        exact fun e he => (hl e he).insertIdx_left le_rfl (hls e he)
    · cases hp
      subst h₂
      exact fun e he => (hr e he).insertIdx_right le_rfl (hrs e he)
    · obtain ⟨j, rfl⟩ : ∃ n, j = n + 1 := ⟨j - 1, by omega⟩
      rw [Nat.add_sub_cancel, List.getElem?_set_ne (by omega)] at hp
      intro e he
      have hlt := (List.getElem?_eq_some_iff.mp hp).1
      obtain ⟨k, hk⟩ := exists_key (show pos < keys.length by omega)
      have hle : s ≤ r e := (hrs b hb).trans (((hr b hb hk).2 le_rfl).le.trans ((h.inSlot hp e he hk).1 (by omega)))
      exact (h.inSlot hp e he).insertIdx_right (by omega) hle

/-- Two parts with a separator between them. -/
theorem separates_two {left right : List ε} (hl : ∀ e ∈ left, r e < s) (hr : ∀ e ∈ right, s ≤ r e) :
    Separates r [s] [left, right] := by
  refine ⟨rfl, fun j p hp e he i k hk => ?_⟩
  obtain ⟨rfl, rfl⟩ : i = 0 ∧ s = k := by
    cases i with
    | zero => exact ⟨rfl, Option.some.inj hk⟩
    | succ i => cases hk
  rcases j with _ | _ | j
  · cases hp
    exact ⟨fun h => absurd h (Nat.lt_irrefl 0), fun _ => hl e he⟩
  · cases hp
    exact ⟨fun _ => hr e he, fun h => absurd h (by decide)⟩
  · cases hp

/-- One part is dropped, with a separator beside it. -/
theorem Separates.erase (h : Separates r keys parts) {q : ℕ} (hpos : pos < parts.length) (hq : q < keys.length)
    (hbeside : q = pos ∨ q + 1 = pos) : Separates r (keys.eraseIdx q) (parts.eraseIdx pos) := by
  have hlen := h.length
  refine ⟨?_, fun j p hp e he => ?_⟩
  · rw [List.length_eraseIdx_of_lt hq, List.length_eraseIdx_of_lt hpos]
    omega
  · rw [List.getElem?_eraseIdx] at hp
    split_ifs at hp with hj
    · exact (h.inSlot hp e he).eraseIdx_left (by omega)
    · exact (h.inSlot hp e he).eraseIdx_right (by omega)

/-- The whole is cut at a separator. -/
theorem Separates.cut (h : Separates r keys parts) {mid : ℕ} (hmid : keys[mid]? = some s) :
    Separates r (keys.take mid) (parts.take (mid + 1)) ∧ Separates r (keys.drop (mid + 1)) (parts.drop (mid + 1)) ∧
      (∀ e ∈ (parts.take (mid + 1)).flatten, r e < s) ∧ ∀ e ∈ (parts.drop (mid + 1)).flatten, s ≤ r e := by
  have hlen := h.length
  have hlt := (List.getElem?_eq_some_iff.mp hmid).1
  refine ⟨⟨?_, fun j p hp e he => ?_⟩, ⟨?_, fun j p hp e he => ?_⟩, fun e he => ?_, fun e he => ?_⟩
  · rw [List.length_take, List.length_take]
    omega
  · rw [List.getElem?_take] at hp
    split_ifs at hp
    exact (h.inSlot hp e he).take mid
  · rw [List.length_drop, List.length_drop]
    omega
  · rw [List.getElem?_drop] at hp
    exact (h.inSlot hp e he).drop
  · obtain ⟨p, hp, he⟩ := List.mem_flatten.mp he
    obtain ⟨j, hj⟩ := List.mem_iff_getElem?.mp hp
    rw [List.getElem?_take] at hj
    split_ifs at hj with hle
    exact (h.inSlot hj e he hmid).2 (by omega)
  · obtain ⟨p, hp, he⟩ := List.mem_flatten.mp he
    obtain ⟨j, hj⟩ := List.mem_iff_getElem?.mp hp
    rw [List.getElem?_drop] at hj
    exact (h.inSlot hj e he hmid).1 (by omega)

/-! ### The list behind the parts -/

/-- The elements before, in and behind a part. -/
theorem flatten_eq {p : List ε} (hp : parts[pos]? = some p) :
    parts.flatten = (parts.take pos).flatten ++ p ++ (parts.drop (pos + 1)).flatten := by
  obtain ⟨hlt, rfl⟩ := List.getElem?_eq_some_iff.mp hp
  conv_lhs => rw [← List.take_append_drop pos parts, List.drop_eq_getElem_cons hlt]
  rw [List.flatten_append, List.flatten_cons, List.append_assoc]

theorem flatten_set {p' : List ε} (hpos : pos < parts.length) :
    (parts.set pos p').flatten = (parts.take pos).flatten ++ p' ++ (parts.drop (pos + 1)).flatten := by
  rw [List.set_eq_take_append_cons_drop, if_pos hpos, List.flatten_append, List.flatten_cons, List.append_assoc]

theorem flatten_insertIdx {left right : List ε} (hpos : pos < parts.length) :
    ((parts.set pos left).insertIdx (pos + 1) right).flatten =
      (parts.take pos).flatten ++ (left ++ right) ++ (parts.drop (pos + 1)).flatten := by
  have hinsert := insertIdx_length_append (parts.take pos ++ [left]) (parts.drop (pos + 1)) right
  rw [List.length_append, List.length_take_of_le hpos.le, List.length_singleton] at hinsert
  have hset : parts.set pos left = parts.take pos ++ [left] ++ parts.drop (pos + 1) := by
    rw [List.set_eq_take_append_cons_drop, if_pos hpos, List.append_assoc]
    rfl
  rw [hset, hinsert]
  simp only [List.flatten_append, List.flatten_cons, List.flatten_nil, List.append_nil, List.append_assoc]

theorem flatten_eraseIdx (pos : ℕ) (parts : List (List ε)) :
    (parts.eraseIdx pos).flatten = (parts.take pos).flatten ++ (parts.drop (pos + 1)).flatten := by
  rw [List.eraseIdx_eq_take_drop_succ, List.flatten_append]

/-- The parts before the place of a value are below it, those behind it above. -/
theorem Separates.around (h : Separates r keys parts) (x : K) :
    (∀ e ∈ (parts.take (place keys x)).flatten, r e < x) ∧
      ∀ e ∈ (parts.drop (place keys x + 1)).flatten, x < r e := by
  refine ⟨fun e he => ?_, fun e he => ?_⟩
  · obtain ⟨p, hp, he⟩ := List.mem_flatten.mp he
    obtain ⟨j, hj⟩ := List.mem_iff_getElem?.mp hp
    rw [List.getElem?_take] at hj
    split_ifs at hj with hlt
    exact h.lt_of_before hj hlt he
  · obtain ⟨p, hp, he⟩ := List.mem_flatten.mp he
    obtain ⟨j, hj⟩ := List.mem_iff_getElem?.mp hp
    rw [List.getElem?_drop] at hj
    exact h.lt_of_behind hj (by omega) he

end Separates

end Rend.Lib
