import Mathlib.Tactic
import Mathlib.Data.List.FinRange

/-!
# Bitmap-indexed dense lists

A partial function `g : Fin w → Option α` is kept as the bitmap `bits g` of the places where it is
defined, together with the dense list `dense g` of its values from low to high. The value at `s` then
stands at the position `rank (bits g) s`, the number of bits set below `s`. Changing `g` at one place
inserts, replaces or removes the element at that position (`dense_insert`, `dense_set`,
`dense_erase`).
-/

namespace Rend.Lib

variable {w : ℕ} {α : Type*}

/-- Whether bit `i` is set. -/
def bitSet (b : BitVec w) (i : Fin w) : Bool := b.toNat.testBit i

/-- The number of bits set (`count_ones`). -/
def countOnes (b : BitVec w) : ℕ := (List.finRange w).countP fun i => bitSet b i

/-- The word with the single bit `s`. -/
def bitAt (s : Fin w) : BitVec w := 1#w <<< s.val

/-- The number of bits of `b` set below `s`. -/
def rank (b : BitVec w) (s : Fin w) : ℕ := countOnes (b &&& (bitAt s - 1#w))

/-- The places where `g` is defined. -/
def bits (g : Fin w → Option α) : BitVec w :=
  (List.finRange w).foldl (fun b s => if (g s).isSome then b ||| bitAt s else b) 0#w

/-- The values of `g`, from low to high. -/
def dense (g : Fin w → Option α) : List α := (List.finRange w).filterMap g

theorem toNat_bitAt (s : Fin w) : (bitAt s).toNat = 2 ^ s.val := by
  have hs : 2 ^ s.val < 2 ^ w := Nat.pow_lt_pow_right (by norm_num) s.isLt
  have h1 : (1#w).toNat = 1 := by
    rw [BitVec.toNat_ofNat, Nat.mod_eq_of_lt]
    exact Nat.one_lt_two_pow (by have := s.isLt; omega)
  rw [bitAt, BitVec.toNat_shiftLeft, h1, Nat.one_shiftLeft, Nat.mod_eq_of_lt hs]

theorem bitSet_bitAt (s i : Fin w) : bitSet (bitAt s) i = decide (s = i) := by
  rw [bitSet, toNat_bitAt, Nat.testBit_two_pow]
  simp [Fin.ext_iff]

theorem bitSet_below (s i : Fin w) : bitSet (bitAt s - 1#w) i = decide (i < s) := by
  have hpos : 0 < 2 ^ s.val := by positivity
  have hs : 2 ^ s.val < 2 ^ w := Nat.pow_lt_pow_right (by norm_num) s.isLt
  have h1 : (1#w).toNat = 1 := by
    rw [BitVec.toNat_ofNat, Nat.mod_eq_of_lt]
    exact Nat.one_lt_two_pow (by have := s.isLt; omega)
  have hle : 1#w ≤ bitAt s := by rw [BitVec.le_def, toNat_bitAt, h1]; omega
  rw [bitSet, BitVec.toNat_sub_of_le hle, toNat_bitAt, h1, Nat.testBit_two_pow_sub_one]
  rfl

theorem bitSet_ext {a b : BitVec w} (h : ∀ i, bitSet a i = bitSet b i) : a = b := by
  apply BitVec.eq_of_getLsbD_eq
  intro i hi
  exact h ⟨i, hi⟩

@[simp] theorem bitSet_or (a b : BitVec w) (i : Fin w) :
    bitSet (a ||| b) i = (bitSet a i || bitSet b i) := by
  simp [bitSet]

@[simp] theorem bitSet_and (a b : BitVec w) (i : Fin w) :
    bitSet (a &&& b) i = (bitSet a i && bitSet b i) := by
  simp [bitSet]

@[simp] theorem bitSet_not (a : BitVec w) (i : Fin w) : bitSet (~~~a) i = !bitSet a i := by
  have h : (~~~a).getLsbD i = (decide (i.val < w) && !a.getLsbD i) := BitVec.getLsbD_not
  simpa [bitSet, BitVec.getLsbD] using h

@[simp] theorem bitSet_zero (i : Fin w) : bitSet (0#w) i = false := by
  simp [bitSet]

/-- Testing a bit with a mask. -/
theorem and_bitAt_eq_zero_iff (b : BitVec w) (s : Fin w) :
    b &&& bitAt s = 0#w ↔ bitSet b s = false := by
  constructor
  · intro h
    have := congrArg (fun c => bitSet c s) h
    simpa [bitSet_bitAt] using this
  · intro h
    apply bitSet_ext
    intro i
    rw [bitSet_and, bitSet_bitAt, bitSet_zero]
    by_cases hi : s = i
    · subst hi
      simp [h]
    · simp [hi]

private theorem bitSet_foldl_bits (g : Fin w → Option α) (l : List (Fin w)) (b : BitVec w) (i : Fin w) :
    bitSet (l.foldl (fun b s => if (g s).isSome then b ||| bitAt s else b) b) i =
      (bitSet b i || (decide (i ∈ l) && (g i).isSome)) := by
  induction l generalizing b with
  | nil => simp
  | cons s l ih =>
    rw [List.foldl_cons, ih]
    by_cases hs : (g s).isSome
    · rw [if_pos hs, bitSet_or, bitSet_bitAt]
      by_cases hi : s = i
      · subst hi
        simp [hs]
      · simp [hi, Ne.symm hi]
    · rw [if_neg hs]
      by_cases hi : i = s
      · subst hi
        simp [Bool.eq_false_iff.2 hs]
      · simp [hi]

@[simp] theorem bitSet_bits (g : Fin w → Option α) (i : Fin w) : bitSet (bits g) i = (g i).isSome := by
  simp [bits, bitSet_foldl_bits]

theorem bits_congr {β : Type*} {g : Fin w → Option α} {g' : Fin w → Option β}
    (h : ∀ i, (g i).isSome = (g' i).isSome) : bits g = bits g' := by
  apply bitSet_ext
  intro i
  rw [bitSet_bits, bitSet_bits, h]

theorem bits_eq_zero_iff (g : Fin w → Option α) : bits g = 0#w ↔ ∀ s, g s = none := by
  constructor
  · intro h s
    have := congrArg (fun c => bitSet c s) h
    simpa using this
  · intro h
    apply bitSet_ext
    intro i
    simp [h]

theorem bits_or_bitAt (g : Fin w → Option α) (s : Fin w) (x : α) :
    bits g ||| bitAt s = bits (Function.update g s (some x)) := by
  apply bitSet_ext
  intro i
  rw [bitSet_or, bitSet_bitAt, bitSet_bits, bitSet_bits]
  by_cases hi : s = i
  · subst hi
    simp
  · simp [hi, Function.update_of_ne (Ne.symm hi)]

theorem bits_and_not_bitAt (g : Fin w → Option α) (s : Fin w) :
    bits g &&& ~~~bitAt s = bits (Function.update g s none) := by
  apply bitSet_ext
  intro i
  rw [bitSet_and, bitSet_not, bitSet_bitAt, bitSet_bits, bitSet_bits]
  by_cases hi : s = i
  · subst hi
    simp
  · simp [hi, Function.update_of_ne (Ne.symm hi)]

/-! ### Positions in the dense list -/

/-- The values of `g` below `s`. -/
def below (g : Fin w → Option α) (s : Fin w) : List α := ((List.finRange w).take s).filterMap g

/-- The values of `g` above `s`. -/
def above (g : Fin w → Option α) (s : Fin w) : List α := ((List.finRange w).drop (s + 1)).filterMap g

theorem dense_eq (g : Fin w → Option α) (s : Fin w) :
    dense g = below g s ++ ((g s).toList ++ above g s) := by
  have hlt : s.val < (List.finRange w).length := by simp
  have hsplit : List.finRange w = (List.finRange w).take s ++ s :: (List.finRange w).drop (s + 1) := by
    conv_lhs => rw [← List.take_append_drop s.val (List.finRange w)]
    rw [List.drop_eq_getElem_cons hlt, List.getElem_finRange]
    rfl
  rw [dense, hsplit, List.filterMap_append, List.filterMap_cons]
  cases h : g s <;> simp [below, above]

theorem mem_take_finRange {s i : Fin w} : i ∈ (List.finRange w).take s ↔ i < s := by
  rw [List.mem_take_iff_getElem]
  constructor
  · rintro ⟨j, hj, rfl⟩
    simp only [List.length_finRange] at hj
    rw [Fin.lt_def, List.getElem_finRange]
    simp only [Fin.cast_mk]
    omega
  · intro hi
    refine ⟨i, ?_, ?_⟩
    · have := i.isLt
      rw [Fin.lt_def] at hi
      simp only [List.length_finRange]
      omega
    · simp

theorem mem_drop_finRange {s i : Fin w} : i ∈ (List.finRange w).drop (s + 1) ↔ s < i := by
  rw [List.mem_drop_iff_getElem]
  constructor
  · rintro ⟨j, hj, rfl⟩
    rw [Fin.lt_def, List.getElem_finRange]
    simp only [Fin.cast_mk]
    omega
  · intro hi
    rw [Fin.lt_def] at hi
    refine ⟨i - (s + 1), ?_, ?_⟩
    · have := i.isLt
      simp only [List.length_finRange]
      omega
    · apply Fin.ext
      rw [List.getElem_finRange]
      simp only [Fin.cast_mk]
      omega

@[simp] theorem below_update (g : Fin w → Option α) (s : Fin w) (o : Option α) :
    below (Function.update g s o) s = below g s := by
  refine List.filterMap_congr fun i hi => ?_
  rw [Function.update_of_ne (ne_of_lt (mem_take_finRange.1 hi))]

@[simp] theorem above_update (g : Fin w → Option α) (s : Fin w) (o : Option α) :
    above (Function.update g s o) s = above g s := by
  refine List.filterMap_congr fun i hi => ?_
  rw [Function.update_of_ne (ne_of_gt (mem_drop_finRange.1 hi))]

theorem dense_update (g : Fin w → Option α) (s : Fin w) (o : Option α) :
    dense (Function.update g s o) = below g s ++ (o.toList ++ above g s) := by
  rw [dense_eq _ s, below_update, above_update, Function.update_self]

theorem countOnes_bits (g : Fin w → Option α) : countOnes (bits g) = (dense g).length := by
  simp [countOnes, dense, List.length_filterMap_eq_countP]

theorem rank_bits (g : Fin w → Option α) (s : Fin w) : rank (bits g) s = (below g s).length := by
  have hcount : ∀ l : List (Fin w), l.countP (fun i => bitSet (bits g &&& (bitAt s - 1#w)) i) =
      (l.filter fun i => decide (i < s)).countP fun i => (g i).isSome := by
    intro l
    rw [List.countP_filter]
    refine List.countP_congr fun i _ => ?_
    simp [bitSet_below]
  have hfilter : (List.finRange w).filter (fun i => decide (i < s)) = (List.finRange w).take s := by
    conv_lhs => rw [← List.take_append_drop s.val (List.finRange w)]
    rw [List.filter_append, List.filter_eq_self.2, List.filter_eq_nil_iff.2, List.append_nil]
    · intro i hi
      have hsi : s ≤ i := by
        rw [List.mem_drop_iff_getElem] at hi
        obtain ⟨j, hj, rfl⟩ := hi
        rw [Fin.le_def, List.getElem_finRange]
        simp
      simpa using hsi
    · intro i hi
      simpa using mem_take_finRange.1 hi
  rw [rank, countOnes, hcount, hfilter, below, List.length_filterMap_eq_countP]

theorem dense_getElem? {g : Fin w → Option α} {s : Fin w} (h : (g s).isSome) :
    (dense g)[rank (bits g) s]? = g s := by
  obtain ⟨x, hx⟩ := Option.isSome_iff_exists.1 h
  rw [rank_bits, dense_eq g s, hx]
  simp

/-- The position of a bit that is set, among those that are. -/
theorem rank_lt {b : BitVec w} {s : Fin w} (h : bitSet b s = true) : rank b s < countOnes b := by
  let g : Fin w → Option Unit := fun i => if bitSet b i = true then some () else none
  have hb : b = bits g := by
    refine bitSet_ext fun i => ?_
    rw [bitSet_bits]
    by_cases hi : bitSet b i = true <;> simp [g, hi]
  have hs : (g s).isSome := by simp [g, h]
  rw [hb, countOnes_bits]
  obtain ⟨x, hx⟩ := Option.isSome_iff_exists.1 hs
  exact (List.getElem?_eq_some_iff.1 ((dense_getElem? hs).trans hx)).1

theorem insertIdx_length_append (l l' : List α) (x : α) :
    (l ++ l').insertIdx l.length x = l ++ x :: l' := by
  induction l with
  | nil => simp
  | cons a l ih => simp [ih]

theorem dense_insert {g : Fin w → Option α} {s : Fin w} (h : g s = none) (x : α) :
    (dense g).insertIdx (rank (bits g) s) x = dense (Function.update g s (some x)) := by
  rw [rank_bits, dense_update, dense_eq g s, h]
  exact insertIdx_length_append _ _ x

theorem dense_set {g : Fin w → Option α} {s : Fin w} (h : (g s).isSome) (x : α) :
    (dense g).set (rank (bits g) s) x = dense (Function.update g s (some x)) := by
  obtain ⟨y, hy⟩ := Option.isSome_iff_exists.1 h
  rw [rank_bits, dense_update, dense_eq g s, hy]
  simp

theorem dense_erase {g : Fin w → Option α} {s : Fin w} (h : (g s).isSome) :
    (dense g).eraseIdx (rank (bits g) s) = dense (Function.update g s none) := by
  obtain ⟨y, hy⟩ := Option.isSome_iff_exists.1 h
  rw [rank_bits, dense_update, dense_eq g s, hy]
  simp [List.eraseIdx_append_of_length_le]

end Rend.Lib
