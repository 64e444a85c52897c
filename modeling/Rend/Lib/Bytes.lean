import Mathlib.Tactic
import Mathlib.Data.List.Lex

/-!
# Bytes and big-endian words

`beBytes n x` is the number `x` written in `n` bytes, most significant first, and `ofBeBytes` reads
a list of bytes back. The two are inverse to each other on numbers below `256 ^ n`
(`ofBeBytes_beBytes`) and on lists of length `n` (`beBytes_ofBeBytes`). `takeN` is the bounded slice
a reader takes from the front of its input.
-/

namespace Rend.Lib

/-- A byte. -/
abbrev Byte := BitVec 8

/-- A string of bytes. -/
abbrev Bytes := List Byte

/-- Bytes in their numeric order; lists of bytes are then compared lexicographically. -/
instance : LinearOrder Byte where
  le_refl := BitVec.le_refl
  le_trans := fun _ _ _ => BitVec.le_trans
  le_antisymm := fun _ _ => BitVec.le_antisymm
  le_total := BitVec.le_total
  lt_iff_le_not_ge := by
    intro a b
    simp only [BitVec.lt_def, BitVec.le_def]
    omega
  toDecidableLE := inferInstance
  toDecidableEq := inferInstance

/-- The low `n` bytes of `x`, most significant first. -/
def beBytes : ℕ → ℕ → Bytes
  | 0, _ => []
  | n + 1, x => beBytes n (x / 256) ++ [BitVec.ofNat 8 x]

/-- The number a list of bytes denotes, most significant first. -/
def ofBeBytes (bs : Bytes) : ℕ := bs.foldl (fun acc b => acc * 256 + b.toNat) 0

@[simp] theorem length_beBytes (n x : ℕ) : (beBytes n x).length = n := by
  induction n generalizing x with
  | zero => rfl
  | succ n ih => simp [beBytes, ih]

@[simp] theorem ofBeBytes_nil : ofBeBytes [] = 0 := rfl

@[simp] theorem ofBeBytes_concat (bs : Bytes) (b : Byte) :
    ofBeBytes (bs ++ [b]) = ofBeBytes bs * 256 + b.toNat := by
  simp [ofBeBytes]

theorem ofBeBytes_cons (b : Byte) (bs : Bytes) :
    ofBeBytes (b :: bs) = b.toNat * 256 ^ bs.length + ofBeBytes bs := by
  induction bs using List.reverseRecOn with
  | nil => simp [ofBeBytes]
  | append_singleton bs c ih =>
    rw [← List.cons_append, ofBeBytes_concat, ih, ofBeBytes_concat, List.length_append,
      List.length_singleton, pow_succ]
    ring

theorem ofBeBytes_lt (bs : Bytes) : ofBeBytes bs < 256 ^ bs.length := by
  induction bs using List.reverseRecOn with
  | nil => simp
  | append_singleton bs b ih =>
    have hb : b.toNat < 256 := b.isLt
    rw [ofBeBytes_concat, List.length_append, List.length_singleton, pow_succ]
    omega

/-- Reading back what was written gives the number, reduced to the width. -/
theorem ofBeBytes_beBytes_mod (n x : ℕ) : ofBeBytes (beBytes n x) = x % 256 ^ n := by
  induction n generalizing x with
  | zero => simp [beBytes, Nat.mod_one]
  | succ n ih =>
    have byte : (BitVec.ofNat 8 x).toNat = x % 256 := by simp
    rw [beBytes, ofBeBytes_concat, ih, byte, Nat.pow_succ, Nat.mul_comm (256 ^ n) 256, Nat.mod_mul]
    omega

theorem ofBeBytes_beBytes {n x : ℕ} (h : x < 256 ^ n) : ofBeBytes (beBytes n x) = x := by
  rw [ofBeBytes_beBytes_mod, Nat.mod_eq_of_lt h]

/-- Writing back what was read gives the bytes. -/
theorem beBytes_ofBeBytes (bs : Bytes) : beBytes bs.length (ofBeBytes bs) = bs := by
  induction bs using List.reverseRecOn with
  | nil => rfl
  | append_singleton bs b ih =>
    have hb : b.toNat < 256 := b.isLt
    have hdiv : (ofBeBytes bs * 256 + b.toNat) / 256 = ofBeBytes bs := by omega
    have hbyte : BitVec.ofNat 8 (ofBeBytes bs * 256 + b.toNat) = b := by
      apply BitVec.eq_of_toNat_eq
      rw [BitVec.toNat_ofNat]
      omega
    rw [List.length_append, List.length_singleton, beBytes, ofBeBytes_concat, hdiv, ih, hbyte]

theorem beBytes_inj {n x y : ℕ} (hx : x < 256 ^ n) (hy : y < 256 ^ n)
    (h : beBytes n x = beBytes n y) : x = y := by
  rw [← ofBeBytes_beBytes hx, ← ofBeBytes_beBytes hy, h]

/-- The first `n` bytes and the rest, or nothing when fewer than `n` are left. -/
def takeN (n : ℕ) (bs : Bytes) : Option (Bytes × Bytes) :=
  if n ≤ bs.length then some (bs.take n, bs.drop n) else none

@[simp] theorem takeN_append {n : ℕ} {xs ys : Bytes} (h : xs.length = n) :
    takeN n (xs ++ ys) = some (xs, ys) := by
  subst h
  simp [takeN]

theorem takeN_eq_some {n : ℕ} {bs xs ys : Bytes} (h : takeN n bs = some (xs, ys)) :
    bs = xs ++ ys ∧ xs.length = n := by
  unfold takeN at h
  split at h
  · next hn =>
    simp only [Option.some.injEq, Prod.mk.injEq] at h
    obtain ⟨rfl, rfl⟩ := h
    exact ⟨(List.take_append_drop n bs).symm, by simp [hn]⟩
  · cases h

/-- A word of `8 * n` bits as `n` bytes, most significant first (`to_be_bytes`). -/
def wordBytes (n : ℕ) {w : ℕ} (x : BitVec w) : Bytes := beBytes n x.toNat

@[simp] theorem length_wordBytes (n : ℕ) {w : ℕ} (x : BitVec w) : (wordBytes n x).length = n :=
  length_beBytes n _

theorem ofBeBytes_wordBytes {n w : ℕ} (hw : 2 ^ w = 256 ^ n) (x : BitVec w) :
    BitVec.ofNat w (ofBeBytes (wordBytes n x)) = x := by
  rw [wordBytes, ofBeBytes_beBytes (hw ▸ x.isLt), BitVec.ofNat_toNat, BitVec.setWidth_eq]

theorem wordBytes_inj {n w : ℕ} (hw : 2 ^ w = 256 ^ n) {x y : BitVec w}
    (h : wordBytes n x = wordBytes n y) : x = y := by
  rw [← ofBeBytes_wordBytes hw x, ← ofBeBytes_wordBytes hw y, h]

end Rend.Lib
