import Mathlib.Tactic

/-!
# Lists cut into chunks

`chunks m xs` cuts a list into consecutive parts of length `m`, the last of which may be shorter. The
element at index `i` stands in the chunk `i / m` at place `i % m`. Replacing it replaces one chunk
(`chunks_set`), and a new last element either goes to the last chunk or begins a new one
(`chunks_concat_of_dvd`, `chunks_concat_of_not_dvd`).
-/

namespace Rend.Lib

variable {α : Type*} {m : ℕ} {xs : List α}

/-- The part of a list that starts at `i * m`. -/
def chunk (m : ℕ) (xs : List α) (i : ℕ) : List α := (xs.drop (i * m)).take m

/-- Consecutive parts of length `m`. -/
def chunks (m : ℕ) (xs : List α) : List (List α) :=
  (List.range ((xs.length + m - 1) / m)).map (chunk m xs)

@[simp] theorem length_chunk (m : ℕ) (xs : List α) (i : ℕ) :
    (chunk m xs i).length = min m (xs.length - i * m) := by
  simp [chunk]

@[simp] theorem length_chunks (m : ℕ) (xs : List α) : (chunks m xs).length = (xs.length + m - 1) / m := by
  simp [chunks]

/-- An index stands in a chunk that exists. -/
theorem div_lt_length_chunks {i : ℕ} (hm : 0 < m) (hi : i < xs.length) : i / m < (chunks m xs).length := by
  rw [length_chunks, Nat.div_lt_iff_lt_mul hm]
  have hmod := Nat.div_add_mod (xs.length + m - 1) m
  have hlt := Nat.mod_lt (xs.length + m - 1) hm
  have hcomm := Nat.mul_comm m ((xs.length + m - 1) / m)
  omega

theorem chunks_getElem? {i : ℕ} (hi : i < (chunks m xs).length) : (chunks m xs)[i]? = some (chunk m xs i) := by
  rw [length_chunks] at hi
  simp [chunks, hi]

@[simp] theorem chunks_nil (hm : 0 < m) : chunks m ([] : List α) = [] := by
  rw [← List.length_eq_zero_iff, length_chunks, List.length_nil]
  exact Nat.div_eq_of_lt (by omega)

theorem chunks_eq_cons (hm : 0 < m) (hne : xs ≠ []) : chunks m xs = xs.take m :: chunks m (xs.drop m) := by
  have hpos := List.length_pos_iff.mpr hne
  have hcount : (xs.length + m - 1) / m = ((xs.drop m).length + m - 1) / m + 1 := by
    rw [List.length_drop, ← Nat.add_div_right _ hm]
    rcases le_total m xs.length with hle | hle
    · congr 1
      omega
    · rw [Nat.sub_eq_zero_of_le hle, show xs.length + m - 1 = (xs.length - 1) + m by omega,
        show 0 + m - 1 + m = (m - 1) + m by omega, Nat.add_div_right _ hm, Nat.add_div_right _ hm,
        Nat.div_eq_of_lt (show xs.length - 1 < m by omega), Nat.div_eq_of_lt (show m - 1 < m by omega)]
  rw [chunks, hcount, List.range_succ_eq_map, List.map_cons, List.map_map]
  refine congrArg₂ _ (by simp [chunk]) ?_
  rw [chunks]
  refine List.map_congr_left fun i _ => ?_
  simp only [Function.comp, chunk, List.drop_drop, Nat.succ_eq_add_one]
  congr 2
  ring

/-- A list that fits one chunk. -/
theorem chunks_of_length_le (hne : xs ≠ []) (hle : xs.length ≤ m) : chunks m xs = [xs] := by
  have hm : 0 < m := (List.length_pos_iff.mpr hne).trans_le hle
  rw [chunks_eq_cons hm hne, List.take_of_length_le hle, List.drop_eq_nil_of_le hle, chunks_nil hm]

/-- A list behind a first chunk, which is full unless it is the last. -/
theorem chunks_append {ys : List α} (hne : xs ≠ []) (hle : xs.length ≤ m) (hfull : xs.length = m ∨ ys = []) :
    chunks m (xs ++ ys) = xs :: chunks m ys := by
  have hm : 0 < m := (List.length_pos_iff.mpr hne).trans_le hle
  rcases hfull with rfl | rfl
  · rw [chunks_eq_cons hm (by simp [hne]), List.take_left, List.drop_left]
  · rw [List.append_nil, chunks_of_length_le hne hle, chunks_nil hm]

theorem mem_chunks_ne_nil (hm : 0 < m) {c : List α} (hc : c ∈ chunks m xs) : c ≠ [] := by
  obtain ⟨i, hi, rfl⟩ := List.mem_map.mp hc
  rw [List.mem_range, Nat.lt_iff_add_one_le, Nat.le_div_iff_mul_le hm] at hi
  have hlen : i * m < xs.length := by
    rw [Nat.add_mul, Nat.one_mul] at hi
    omega
  rw [← List.length_pos_iff, length_chunk]
  omega

theorem mem_of_mem_chunks {c : List α} (hc : c ∈ chunks m xs) {x : α} (hx : x ∈ c) : x ∈ xs := by
  obtain ⟨i, -, rfl⟩ := List.mem_map.mp hc
  exact List.mem_of_mem_drop (List.mem_of_mem_take hx)

theorem length_le_of_mem_chunks {c : List α} (hc : c ∈ chunks m xs) : c.length ≤ m := by
  obtain ⟨i, -, rfl⟩ := List.mem_map.mp hc
  rw [length_chunk]
  exact min_le_left ..

theorem length_chunks_of_dvd (hm : 0 < m) (h : m ∣ xs.length) : (chunks m xs).length = xs.length / m := by
  obtain ⟨k, hk⟩ := h
  rw [length_chunks, hk, Nat.mul_div_cancel_left k hm, Nat.add_sub_assoc hm, Nat.mul_add_div hm,
    Nat.div_eq_of_lt (show m - 1 < m by omega), Nat.add_zero]

theorem div_lt_length_chunks_of_not_dvd (hm : 0 < m) (h : ¬ m ∣ xs.length) :
    xs.length / m < (chunks m xs).length := by
  have hmod : 0 < xs.length % m := Nat.pos_of_ne_zero fun h0 => h (Nat.dvd_of_mod_eq_zero h0)
  have hdiv := Nat.div_add_mod' xs.length m
  have hlt := Nat.mod_lt xs.length hm
  rw [length_chunks, Nat.lt_iff_add_one_le, Nat.le_div_iff_mul_le hm, Nat.add_mul, Nat.one_mul]
  omega

/-! ### Elements -/

theorem getElem?_chunk {i : ℕ} (hm : 0 < m) : (chunk m xs (i / m))[i % m]? = xs[i]? := by
  rw [chunk, List.getElem?_take_of_lt (Nat.mod_lt i hm), List.getElem?_drop, Nat.div_add_mod' i m]

theorem chunk_set (m : ℕ) (xs : List α) (i j : ℕ) (v : α) : chunk m (xs.set i v) j =
    if i < j * m then chunk m xs j else (chunk m xs j).set (i - j * m) v := by
  rw [chunk, List.drop_set]
  split_ifs
  · rfl
  · rw [List.take_set, chunk]

theorem chunks_set {i : ℕ} {v : α} (hm : 0 < m) :
    chunks m (xs.set i v) = (chunks m xs).set (i / m) ((chunk m xs (i / m)).set (i % m) v) := by
  refine List.ext_getElem? fun j => ?_
  have hlen : (chunks m (xs.set i v)).length = (chunks m xs).length := by simp
  have hdiv := Nat.div_add_mod' i m
  by_cases hj : j < (chunks m xs).length
  · rw [chunks_getElem? (hlen ▸ hj), chunk_set]
    by_cases hij : i / m = j
    · subst hij
      rw [List.getElem?_set_self hj, if_neg (by omega), show i - i / m * m = i % m by omega]
    · rw [List.getElem?_set_ne hij, chunks_getElem? hj]
      split_ifs with hlt
      · rfl
      · -- the index lies behind the chunk
        rw [List.set_eq_of_length_le]
        have hle : m ≤ i - j * m := by
          have hlt' : j < i / m := lt_of_le_of_ne ((Nat.le_div_iff_mul_le hm).mpr (by omega)) (Ne.symm hij)
          have := (Nat.le_div_iff_mul_le hm).mp (Nat.succ_le_of_lt hlt')
          rw [Nat.succ_mul] at this
          omega
        rw [length_chunk]
        exact (min_le_left ..).trans hle
  · rw [List.getElem?_eq_none (by rw [hlen]; omega), List.getElem?_eq_none (by rw [List.length_set]; omega)]

/-! ### A new last element -/

/-- The last chunk is full: the element begins a new one. -/
theorem chunks_concat_of_dvd {v : α} (hm : 0 < m) (h : m ∣ xs.length) : chunks m (xs ++ [v]) = chunks m xs ++ [[v]] := by
  obtain ⟨k, hk⟩ := h
  induction k generalizing xs with
  | zero =>
    obtain rfl := List.length_eq_zero_iff.mp hk
    rw [chunks_nil hm]
    exact chunks_of_length_le (by simp) hm
  | succ k ih =>
    have hle : m ≤ xs.length := by
      rw [hk, Nat.mul_succ]
      exact Nat.le_add_left ..
    have hne : xs ≠ [] := List.length_pos_iff.mp (hm.trans_le hle)
    have hrest : (xs.drop m).length = m * k := by
      rw [List.length_drop, hk, Nat.mul_succ, Nat.add_sub_cancel]
    rw [chunks_eq_cons hm (by simp), chunks_eq_cons hm hne, List.take_append_of_le_length hle,
      List.drop_append_of_le_length hle, ih hrest, List.cons_append]

/-- The last chunk has room for the element. -/
theorem chunks_concat_of_not_dvd {v : α} (hm : 0 < m) (h : ¬ m ∣ xs.length) : chunks m (xs ++ [v]) =
    (chunks m xs).set (xs.length / m) (chunk m xs (xs.length / m) ++ [v]) := by
  induction hn : xs.length / m generalizing xs with
  | zero =>
    have hlt : xs.length < m := (Nat.div_eq_zero_iff.mp hn).resolve_left hm.ne'
    have hne : xs ≠ [] := by
      rintro rfl
      exact h (dvd_zero m)
    rw [chunks_of_length_le hne hlt.le, chunks_of_length_le (by simp) (by simpa using hlt)]
    simp [chunk, List.take_of_length_le hlt.le]
  | succ n ih =>
    have hle : m ≤ xs.length := by
      by_contra hlt
      rw [Nat.div_eq_of_lt (by omega)] at hn
      cases hn
    have hne : xs ≠ [] := List.length_pos_iff.mp (hm.trans_le hle)
    have hrest : ¬ m ∣ (xs.drop m).length := by
      rw [List.length_drop]
      exact fun hd => h ((Nat.dvd_sub_iff_left hle dvd_rfl).mp hd)
    have hdiv : (xs.drop m).length / m = n := by
      rw [Nat.div_eq_sub_div hm hle] at hn
      rw [List.length_drop]
      exact Nat.succ_injective hn
    rw [chunks_eq_cons hm (by simp), chunks_eq_cons hm hne, List.take_append_of_le_length hle,
      List.drop_append_of_le_length hle, ih hrest hdiv, List.set_cons_succ]
    simp only [chunk, List.drop_drop]
    congr 5
    ring

end Rend.Lib
