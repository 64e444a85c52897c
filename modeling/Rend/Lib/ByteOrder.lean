import Mathlib.Order.Compare
import Rend.Lib.Bytes

/-!
# The order of byte strings

Lists are compared lexicographically (`List.compareLex`). Lists that are put together from parts of equal
lengths are compared part by part (`compareLex_append`), a map that reverses the order of the elements
reverses that of lists of equal lengths (`compareLex_map`), and numbers written in a fixed number of bytes,
most significant first, are compared as numbers (`compareLex_beBytes`).
-/

namespace Rend.Lib

open List (compareLex compareLex_cons_cons)

section Lists

variable {α β : Type} {c : α → α → Ordering} {c' : β → β → Ordering}

/-- Lists with prefixes of one length are compared by the prefixes first. -/
theorem compareLex_append {as bs : List α} (h : as.length = bs.length) (as' bs' : List α) :
    compareLex c (as ++ as') (bs ++ bs') = (compareLex c as bs).then (compareLex c as' bs') := by
  induction as generalizing bs with
  | nil =>
    obtain rfl := List.length_eq_zero_iff.mp h.symm
    rfl
  | cons a as ih =>
    cases bs with
    | nil => cases h
    | cons b bs =>
      rw [List.cons_append, List.cons_append, compareLex_cons_cons, compareLex_cons_cons, ih (Nat.succ.inj h),
        Ordering.then_assoc]

/-- A map that reverses the order reverses that of lists of one length. -/
theorem compareLex_map {f : α → β} (hf : ∀ a b, c' (f a) (f b) = c b a) {as bs : List α}
    (h : as.length = bs.length) : compareLex c' (as.map f) (bs.map f) = compareLex c bs as := by
  induction as generalizing bs with
  | nil =>
    obtain rfl := List.length_eq_zero_iff.mp h.symm
    rfl
  | cons a as ih =>
    cases bs with
    | nil => cases h
    | cons b bs =>
      rw [List.map_cons, List.map_cons, compareLex_cons_cons, compareLex_cons_cons, hf, ih (Nat.succ.inj h)]

end Lists

/-- The order of bytes. -/
def cmpByte (a b : Byte) : Ordering := cmp a.toNat b.toNat

theorem cmpByte_not (a b : Byte) : cmpByte (~~~a) (~~~b) = cmpByte b a := by
  have ha := a.isLt
  have hb := b.isLt
  unfold cmpByte
  rw [BitVec.toNat_not, BitVec.toNat_not]
  rcases lt_trichotomy a.toNat b.toNat with h | h | h
  · rw [(cmp_eq_gt_iff _ _).mpr h, (cmp_eq_gt_iff _ _).mpr (by omega)]
  · rw [h, cmp_self_eq_eq, cmp_self_eq_eq]
  · rw [(cmp_eq_lt_iff _ _).mpr h, (cmp_eq_lt_iff _ _).mpr (by omega)]

/-- The order of byte strings. -/
def cmpBytes : Bytes → Bytes → Ordering := compareLex cmpByte

theorem lt_iff_cmpBytes {as bs : Bytes} : as < bs ↔ cmpBytes as bs = .lt := by
  induction as generalizing bs with
  | nil =>
    cases bs with
    | nil => exact ⟨fun h => absurd h (List.not_lt_nil _), fun h => nomatch h⟩
    | cons b bs => exact ⟨fun _ => rfl, fun _ => List.nil_lt_cons b bs⟩
  | cons a as ih =>
    cases bs with
    | nil => exact ⟨fun h => absurd h (List.not_lt_nil _), fun h => nomatch h⟩
    | cons b bs =>
      rw [List.cons_lt_cons_iff, ih, cmpBytes, compareLex_cons_cons, Ordering.then_eq_lt, cmpByte, cmp_eq_lt_iff,
        cmp_eq_eq_iff, BitVec.toNat_inj, BitVec.lt_def]

theorem cmpBytes_swap (as bs : Bytes) : (cmpBytes as bs).swap = cmpBytes bs as := by
  induction as generalizing bs with
  | nil => cases bs <;> rfl
  | cons a as ih =>
    cases bs with
    | nil => rfl
    | cons b bs =>
      unfold cmpBytes at *
      rw [compareLex_cons_cons, compareLex_cons_cons, Ordering.swap_then, ih, cmpByte, cmp_swap, cmpByte]

theorem cmpBytes_eq {as bs : Bytes} : cmpBytes as bs = .eq ↔ as = bs := by
  induction as generalizing bs with
  | nil =>
    cases bs with
    | nil => exact ⟨fun _ => rfl, fun _ => rfl⟩
    | cons b bs => exact ⟨fun h => (nomatch h), fun h => (nomatch h)⟩
  | cons a as ih =>
    cases bs with
    | nil => exact ⟨fun h => (nomatch h), fun h => (nomatch h)⟩
    | cons b bs =>
      rw [cmpBytes, compareLex_cons_cons, Ordering.then_eq_eq, cmpByte, cmp_eq_eq_iff, BitVec.toNat_inj, ← cmpBytes, ih,
        List.cons.injEq]

/-- What comparing byte strings with `<` gives. -/
theorem cmp_eq_cmpBytes (as bs : Bytes) : cmp as bs = cmpBytes as bs := by
  unfold cmp cmpUsing
  split
  · rename_i h
    exact (lt_iff_cmpBytes.mp h).symm
  split
  · rename_i _ h
    rw [← cmpBytes_swap, lt_iff_cmpBytes.mp h]
    rfl
  · rename_i h h'
    replace h := mt lt_iff_cmpBytes.mpr h
    replace h' := mt lt_iff_cmpBytes.mpr h'
    rw [← cmpBytes_swap] at h'
    cases ho : cmpBytes as bs with
    | lt => exact absurd ho h
    | eq => rfl
    | gt => exact absurd (by rw [ho]; rfl) h'

/-- Byte strings of one length are in the order of the numbers they denote. -/
theorem cmp_ofBeBytes {as bs : Bytes} (h : as.length = bs.length) :
    cmp (ofBeBytes as) (ofBeBytes bs) = cmpBytes as bs := by
  induction as generalizing bs with
  | nil =>
    obtain rfl := List.length_eq_zero_iff.mp h.symm
    rfl
  | cons a as ih =>
    cases bs with
    | nil => cases h
    | cons b bs =>
      have hlen : as.length = bs.length := Nat.succ.inj h
      have ha := ofBeBytes_lt as
      have hb := ofBeBytes_lt bs
      unfold cmpBytes at *
      rw [compareLex_cons_cons, ofBeBytes_cons, ofBeBytes_cons, ← ih hlen, cmpByte]
      rw [hlen] at ha ⊢
      rcases lt_trichotomy a.toNat b.toNat with hab | hab | hab
      · rw [(cmp_eq_lt_iff _ _).mpr hab]
        exact (cmp_eq_lt_iff _ _).mpr (by nlinarith)
      · rw [hab, cmp_self_eq_eq]
        exact (strictMono_id.const_add _).cmp_map_eq _ _
      · rw [(cmp_eq_gt_iff _ _).mpr hab]
        exact (cmp_eq_gt_iff _ _).mpr (by nlinarith)

/-- Numbers in one number of bytes are in the order of the numbers. -/
theorem cmpBytes_beBytes {n x y : ℕ} (hx : x < 256 ^ n) (hy : y < 256 ^ n) :
    cmpBytes (beBytes n x) (beBytes n y) = cmp x y := by
  rw [← cmp_ofBeBytes (by rw [length_beBytes, length_beBytes]), ofBeBytes_beBytes hx, ofBeBytes_beBytes hy]

/-- The complement of every byte reverses the order. -/
theorem cmpBytes_not {as bs : Bytes} (h : as.length = bs.length) :
    cmpBytes (as.map (~~~ ·)) (bs.map (~~~ ·)) = cmpBytes bs as :=
  compareLex_map cmpByte_not h

/-- Flipping the top bit of a number that does not have it adds the bit. -/
theorem xor_two_pow {n b : ℕ} (h : b < 2 ^ n) : b ^^^ 2 ^ n = b + 2 ^ n := by
  have hor : 2 ^ n + b = 2 ^ n ||| b := by simpa using Nat.two_pow_add_eq_or_of_lt h 1
  rw [Nat.add_comm, hor]
  apply Nat.eq_of_testBit_eq
  intro j
  rw [Nat.testBit_xor, Nat.testBit_or, Nat.testBit_two_pow]
  by_cases hj : n = j
  · subst hj
    simp [Nat.testBit_lt_two_pow h]
  · simp [hj]

/-- Flipping the sign bit puts two's complement in the order of the numbers. -/
theorem toNat_flipSign (n : BitVec 32) : ((n ^^^ 0x80000000#32).toNat : ℤ) = n.toInt + 2 ^ 31 := by
  have hlt := n.isLt
  rw [BitVec.toNat_xor, BitVec.toInt_eq_toNat_cond]
  change ((n.toNat ^^^ 2 ^ 31 : ℕ) : ℤ) = _
  by_cases h : n.toNat < 2 ^ 31
  · rw [xor_two_pow h, if_pos (by omega)]
    push_cast
    rfl
  · obtain ⟨b, hb⟩ := Nat.exists_eq_add_of_le (not_lt.mp h)
    have hb' : b < 2 ^ 31 := by omega
    rw [hb, Nat.add_comm (2 ^ 31) b, ← xor_two_pow hb', Nat.xor_assoc, Nat.xor_self, Nat.xor_zero,
      xor_two_pow hb', if_neg (by omega)]
    push_cast
    ring

end Rend.Lib
