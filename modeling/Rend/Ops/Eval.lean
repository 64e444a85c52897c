import Mathlib.Data.Int.Bitwise
import Rend.Bytecode
import Rend.Ops.Convert
import Rend.Ops.Same

/-!
# Operators

The arithmetic, the comparisons and the logic that both executors share (`ops.rs`): `evalBinary`, `evalUnary`
and `inc`. An operator takes two values of one type. Integers of fixed width go through their checked
operations, `int` and `uint` through `BigInt`, floats through `f64`, which is a parameter. Any two values of
one type can be compared for equality.

Arithmetic never wraps: `evalBinary_exact` says that the sum, the difference, the product, the quotient and
the remainder of two integers are the exact ones, and that the operation fails when the type cannot hold
them. `inc_exact` and `evalUnary_neg_exact` say the same of counting on and of negation. The bits that a shift
pushes out at the top are lost without an error.
-/

namespace Rend.Ops

/-! ### Forms -/

/-- The form of a value (`mem::discriminant`). -/
def form : Value → ℕ
  | .int _ => 0 | .uint _ => 1 | .float _ => 2 | .i32 _ => 3 | .u32 _ => 4 | .u64 _ => 5 | .u128 _ => 6
  | .bool _ => 7 | .unit => 8 | .resource _ => 9 | .str _ => 10 | .address _ => 11 | .bytes _ => 12
  | .array _ => 13 | .set _ => 14 | .dict _ => 15 | .struct _ _ => 16 | .tuple _ => 17 | .enum _ _ _ => 18
  | .pending _ => 19 | .pmap _ => 20 | .pbtree _ => 21 | .json _ => 22 | .pvec _ _ => 23
  | .interface _ _ => 24 | .pmapCursor _ _ _ _ => 25 | .pbtreeCursor _ _ _ _ => 26

/-! ### What the code takes from outside -/

/-- The operations of `f64` on its bits, and the display of values. -/
structure Runtime where
  add : U64 → U64 → U64
  sub : U64 → U64 → U64
  mul : U64 → U64 → U64
  div : U64 → U64 → U64
  rem : U64 → U64 → U64
  neg : U64 → U64
  lt : U64 → U64 → Bool
  le : U64 → U64 → Bool
  eq : U64 → U64 → Bool
  display : Value → String

/-- `Debug` of an operator. -/
def debugOp : BinOp → String
  | .add => "Add" | .sub => "Sub" | .mul => "Mul" | .div => "Div" | .mod => "Mod"
  | .eq => "Eq" | .notEq => "NotEq" | .lt => "Lt" | .gt => "Gt" | .ltEq => "LtEq" | .gtEq => "GtEq"
  | .and => "And" | .or => "Or"
  | .bitAnd => "BitAnd" | .bitOr => "BitOr" | .bitXor => "BitXor" | .shl => "Shl" | .shr => "Shr"

def debugUnOp : UnOp → String
  | .neg => "Neg"
  | .not => "Not"

/-! ### Integers of fixed width -/

/-- An integer type of `w` bits. -/
structure Word (w : ℕ) where
  signed : Bool
  variant : BitVec w → Value
  name : String

def i32Word : Word 32 := ⟨true, .i32, "I32"⟩
def u32Word : Word 32 := ⟨false, .u32, "U32"⟩
def u64Word : Word 64 := ⟨false, .u64, "U64"⟩
def u128Word : Word 128 := ⟨false, .u128, "U128"⟩

/-- The exponent of a shift (`u32::try_from`). -/
def shiftAmount (n : ℤ) : Option ℕ := if 0 ≤ n ∧ n < 2 ^ 32 then some n.toNat else none

section Word

variable {w : ℕ} (t : Word w)

def Word.number (a : BitVec w) : ℤ := if t.signed then a.toInt else a.toNat

def Word.lowest : ℤ := if t.signed then -2 ^ (w - 1) else 0

def Word.highest : ℤ := if t.signed then 2 ^ (w - 1) - 1 else 2 ^ w - 1

/-- A result, when the type holds it (`checked_add` and its like). -/
def Word.checked (n : ℤ) : Option (BitVec w) :=
  if t.lowest ≤ n ∧ n ≤ t.highest then some (BitVec.ofInt w n) else none

/-- `checked_rem` on a divisor that is not zero. -/
def Word.checkedRem (x y : ℤ) : Option (BitVec w) :=
  if t.signed ∧ x = t.lowest ∧ y = -1 then none else some (BitVec.ofInt w (x.tmod y))

def Word.orOverflow : Option (BitVec w) → Except String Value
  | some a => .ok (t.variant a)
  | none => .error "integer overflow"

def Word.shiftLeft (a : BitVec w) (n : ℕ) : Option (BitVec w) := if n < w then some (a <<< n) else none

def Word.shiftRight (a : BitVec w) (n : ℕ) : Option (BitVec w) :=
  if n < w then some (if t.signed then a.sshiftRight n else a >>> n) else none

/-- `int_arith!`. -/
def intArith (op : BinOp) (a b : BitVec w) : Except String Value :=
  let x := t.number a
  let y := t.number b
  match op with
  | .add => t.orOverflow (t.checked (x + y))
  | .sub => t.orOverflow (t.checked (x - y))
  | .mul => t.orOverflow (t.checked (x * y))
  | .div => if y = 0 then .error "division by zero" else t.orOverflow (t.checked (x.tdiv y))
  | .mod => if y = 0 then .error "division by zero" else t.orOverflow (t.checkedRem x y)
  | .lt => .ok (.bool (x < y))
  | .gt => .ok (.bool (x > y))
  | .ltEq => .ok (.bool (x ≤ y))
  | .gtEq => .ok (.bool (x ≥ y))
  | .eq => .ok (.bool (a = b))
  | .notEq => .ok (.bool (a ≠ b))
  | .bitAnd => .ok (t.variant (a &&& b))
  | .bitOr => .ok (t.variant (a ||| b))
  | .bitXor => .ok (t.variant (a ^^^ b))
  | .shl => t.orOverflow ((shiftAmount y).bind (Word.shiftLeft a))
  | .shr => t.orOverflow ((shiftAmount y).bind (t.shiftRight a))
  | op => .error ("operator " ++ debugOp op ++ " not defined for " ++ t.name ++ " values")

end Word

/-! ### Integers of any size -/

def wrap (unsigned : Bool) (n : ℤ) : Value := if unsigned then .uint n else .int n

def bigintArith (op : BinOp) (a b : ℤ) (unsigned : Bool) : Except String Value :=
  match op with
  | .add => .ok (wrap unsigned (a + b))
  | .sub => if unsigned ∧ a - b < 0 then .error "uint underflow" else .ok (wrap unsigned (a - b))
  | .mul => .ok (wrap unsigned (a * b))
  | .div => if b = 0 then .error "division by zero" else .ok (wrap unsigned (a.tdiv b))
  | .mod => if b = 0 then .error "division by zero" else .ok (wrap unsigned (a.tmod b))
  | .lt => .ok (.bool (a < b))
  | .gt => .ok (.bool (a > b))
  | .ltEq => .ok (.bool (a ≤ b))
  | .gtEq => .ok (.bool (a ≥ b))
  | .eq => .ok (.bool (a = b))
  | .notEq => .ok (.bool (a ≠ b))
  | .bitAnd => .ok (wrap unsigned (Int.land a b))
  | .bitOr => .ok (wrap unsigned (Int.lor a b))
  | .bitXor => .ok (wrap unsigned (Int.xor a b))
  | .shl => match shiftAmount b with
    | some n => .ok (wrap unsigned (a * 2 ^ n))
    | none => .error "shift amount out of range"
  | .shr => match shiftAmount b with
    | some n => .ok (wrap unsigned (a / 2 ^ n))
    | none => .error "shift amount out of range"
  | op => .error ("operator " ++ debugOp op ++ " not defined for " ++ (if unsigned then "uint" else "int") ++ " values")

section Eval

variable (R : Runtime)

def floatArith (op : BinOp) (a b : U64) : Except String Value :=
  match op with
  | .add => .ok (.float (R.add a b))
  | .sub => .ok (.float (R.sub a b))
  | .mul => .ok (.float (R.mul a b))
  | .div => .ok (.float (R.div a b))
  | .mod => .ok (.float (R.rem a b))
  | .lt => .ok (.bool (R.lt a b))
  | .gt => .ok (.bool (R.lt b a))
  | .ltEq => .ok (.bool (R.le a b))
  | .gtEq => .ok (.bool (R.le b a))
  | .eq => .ok (.bool (R.eq a b))
  | .notEq => .ok (.bool !(R.eq a b))
  | op => .error ("operator " ++ debugOp op ++ " not defined for float values")

def mismatch (op : BinOp) (l r : Value) : Except String Value :=
  .error ("type error: " ++ R.display l ++ " " ++ debugOp op ++ " " ++ R.display r)

def boolArith (op : BinOp) (a b : Bool) : Except String Value :=
  match op with
  | .and => .ok (.bool (a && b))
  | .or => .ok (.bool (a || b))
  | .eq => .ok (.bool (a == b))
  | .notEq => .ok (.bool (a != b))
  | op => mismatch R op (.bool a) (.bool b)

/-- The only operators on values of one type that is none of the above. -/
def compareSame (op : BinOp) (l r : Value) : Except String Value :=
  match op with
  | .eq => .ok (.bool (same l r))
  | .notEq => .ok (.bool !(same l r))
  | op => mismatch R op l r

def evalBinary (op : BinOp) (l r : Value) : Except String Value :=
  match l, r with
  | .int a, .int b => bigintArith op a b false
  | .uint a, .uint b => bigintArith op a b true
  | .float a, .float b => floatArith R op a b
  | .i32 a, .i32 b => intArith i32Word op a b
  | .u32 a, .u32 b => intArith u32Word op a b
  | .u64 a, .u64 b => intArith u64Word op a b
  | .u128 a, .u128 b => intArith u128Word op a b
  | .bool a, .bool b => boolArith R op a b
  | l, r => if form l = form r then compareSame R op l r else mismatch R op l r

/-- The bits of `1.0`. -/
def floatOne : U64 := 0x3ff0000000000000#64

def inc (v : Value) : Except String Value :=
  match v with
  | .int n => .ok (.int (n + 1))
  | .uint n => .ok (.uint (n + 1))
  | .float bits => .ok (.float (R.add bits floatOne))
  | .i32 n => i32Word.orOverflow (i32Word.checked (i32Word.number n + 1))
  | .u32 n => u32Word.orOverflow (u32Word.checked (u32Word.number n + 1))
  | .u64 n => u64Word.orOverflow (u64Word.checked (u64Word.number n + 1))
  | .u128 n => u128Word.orOverflow (u128Word.checked (u128Word.number n + 1))
  | v => .error ("IncReg on non-numeric value: " ++ R.display v)

/-- The negation of an unsigned integer of fixed width. -/
def negUnsigned {w : ℕ} (t : Word w) (n : BitVec w) : Except String Value :=
  if n = 0 then .ok (t.variant 0) else .error "integer overflow"

def evalUnary (op : UnOp) (v : Value) : Except String Value :=
  match op, v with
  | .neg, .int n => .ok (.int (-n))
  | .neg, .uint n => if n = 0 then .ok (.uint n) else .error "uint underflow on negation"
  | .neg, .float bits => .ok (.float (R.neg bits))
  | .neg, .i32 n => i32Word.orOverflow (i32Word.checked (-i32Word.number n))
  | .neg, .u32 n => negUnsigned u32Word n
  | .neg, .u64 n => negUnsigned u64Word n
  | .neg, .u128 n => negUnsigned u128Word n
  | .not, .bool b => .ok (.bool !b)
  | op, v => .error ("type error: " ++ debugUnOp op ++ " " ++ R.display v)

end Eval

/-! ### Arithmetic is exact -/

/-- The operators of arithmetic on integers. -/
def isArith : BinOp → Bool
  | .add | .sub | .mul | .div | .mod => true
  | _ => false

/-- The integer an operation is about. Quotients are cut off towards zero. -/
def exactly : BinOp → ℤ → ℤ → ℤ
  | .sub, x, y => x - y
  | .mul, x, y => x * y
  | .div, x, y => x.tdiv y
  | .mod, x, y => x.tmod y
  | _, x, y => x + y

/-- When an operation succeeds: there is something to divide by, and the type holds the result. A remainder
fails with its quotient. -/
def Legal (k : IntKind) (op : BinOp) (x y : ℤ) : Prop :=
  (op = .div ∨ op = .mod → y ≠ 0) ∧ k.InRange (exactly (if op = .mod then .div else op) x y)

/-- A result that is there just when it is legal, and is then the integer of its kind. -/
def Computes (k : IntKind) (n : ℤ) (legal : Prop) (res : Except String Value) : Prop :=
  ((∃ v, res = .ok v) ↔ legal) ∧ ∀ v, res = .ok v → integerOf v = some (k, n)

theorem Computes.intro {k : IntKind} {n : ℤ} {legal : Prop} {v : Value} (h : legal) (hv : integerOf v = some (k, n)) :
    Computes k n legal (.ok v) := by
  refine ⟨⟨fun _ => h, fun _ => ⟨v, rfl⟩⟩, ?_⟩
  intro _ heq
  cases heq
  exact hv

theorem Computes.refuse {k : IntKind} {n : ℤ} {legal : Prop} {e : String} (h : ¬ legal) :
    Computes k n legal (.error e) := by
  refine ⟨⟨?_, fun hlegal => absurd hlegal h⟩, ?_⟩
  · rintro ⟨_, heq⟩
    cases heq
  · intro _ heq
    cases heq

theorem Computes.congr {k : IntKind} {n : ℤ} {p q : Prop} {res : Except String Value} (h : Computes k n p res)
    (hpq : p ↔ q) : Computes k n q res :=
  ⟨h.1.trans hpq, h.2⟩

/-- The range of a kind has no gaps and holds zero. -/
theorem IntKind.InRange.between {k : IntKind} {x z : ℤ} (h : k.InRange x) (hz : 0 ≤ z ∧ z ≤ x ∨ x ≤ z ∧ z ≤ 0) :
    k.InRange z := by
  cases k <;> simp only [IntKind.InRange] at h ⊢ <;> omega

theorem tmod_between (x y : ℤ) : 0 ≤ x.tmod y ∧ x.tmod y ≤ x ∨ x ≤ x.tmod y ∧ x.tmod y ≤ 0 := by
  have habs : (x.tmod y).natAbs ≤ x.natAbs := by
    rw [Int.natAbs_tmod]
    exact Nat.mod_le _ _
  rcases le_total 0 x with hx | hx
  · have hsign := Int.tmod_nonneg y hx
    omega
  · have hsign := Int.tmod_nonneg y (Int.neg_nonneg.mpr hx)
    rw [Int.neg_tmod] at hsign
    omega

/-- A quotient is closer to zero, but for the divisors `1` and `-1`. -/
theorem tdiv_between {x y : ℤ} (h : y.natAbs ≠ 1) : (x.tdiv y).natAbs < x.natAbs ∨ x.tdiv y = 0 := by
  by_cases hx : x = 0
  · exact .inr (by rw [hx, Int.zero_tdiv])
  · by_cases hy : y = 0
    · exact .inr (by rw [hy, Int.tdiv_zero])
    · refine .inl ?_
      rw [Int.natAbs_tdiv]
      exact Nat.div_lt_self (Int.natAbs_pos.mpr hx) (by omega)

/-- An integer type of fixed width carries a kind. -/
structure Word.Carries {w : ℕ} (t : Word w) (k : IntKind) : Prop where
  kind : ∀ a, integerOf (t.variant a) = some (k, t.number a)
  range : ∀ n, k.InRange n ↔ t.lowest ≤ n ∧ n ≤ t.highest
  number_ofInt : ∀ n, k.InRange n → t.number (BitVec.ofInt w n) = n

theorem carries_i32 : i32Word.Carries .i32 := by
  refine ⟨fun _ => rfl, fun n => ?_, fun n hn => ?_⟩
  · simp only [IntKind.InRange, Word.lowest, Word.highest, i32Word, if_true]
    omega
  · exact BitVec.toInt_ofInt_eq_self (by decide) hn.1 hn.2

theorem carries_unsigned {w : ℕ} {t : Word w} {k : IntKind} (hsigned : t.signed = false)
    (hkind : ∀ a, integerOf (t.variant a) = some (k, (a.toNat : ℤ))) (hrange : ∀ n, k.InRange n ↔ 0 ≤ n ∧ n < 2 ^ w) :
    t.Carries k := by
  refine ⟨fun a => ?_, fun n => ?_, fun n hn => ?_⟩
  · simpa [Word.number, hsigned] using hkind a
  · rw [hrange]
    simp only [Word.lowest, Word.highest, hsigned, Bool.false_eq_true, if_false]
    omega
  · obtain ⟨h0, hw⟩ := (hrange n).mp hn
    simpa [Word.number, hsigned] using toNat_ofInt h0 hw

theorem carries_u32 : u32Word.Carries .u32 := carries_unsigned rfl (fun _ => rfl) fun _ => Iff.rfl

theorem carries_u64 : u64Word.Carries .u64 := carries_unsigned rfl (fun _ => rfl) fun _ => Iff.rfl

theorem carries_u128 : u128Word.Carries .u128 := carries_unsigned rfl (fun _ => rfl) fun _ => Iff.rfl

section Exact

variable {w : ℕ} {t : Word w} {k : IntKind}

theorem checked_computes (ht : t.Carries k) (n : ℤ) : Computes k n (k.InRange n) (t.orOverflow (t.checked n)) := by
  unfold Word.checked
  split
  · next h =>
    have hn : k.InRange n := (ht.range n).mpr h
    exact .intro hn (by rw [ht.kind, ht.number_ofInt n hn])
  · next h => exact .refuse fun hn => h ((ht.range n).mp hn)

theorem Word.highest_of_signed (h : t.signed) : t.highest = -t.lowest - 1 := by simp [Word.highest, Word.lowest, h]

theorem Word.lowest_of_unsigned (h : t.signed = false) : t.lowest = 0 := by simp [Word.lowest, h]

/-- The type holds every quotient but that of its least number and `-1`. -/
theorem tdiv_inRange (ht : t.Carries k) {x y : ℤ} (hx : k.InRange x) (hy : k.InRange y)
    (h : ¬ (t.signed ∧ x = t.lowest ∧ y = -1)) : k.InRange (x.tdiv y) := by
  rw [ht.range] at hx hy ⊢
  by_cases habs : y.natAbs = 1
  · rcases Int.natAbs_eq y with hone | hone <;> rw [habs, Nat.cast_one] at hone
    · rw [hone, Int.tdiv_one]
      exact hx
    · rw [hone, Int.tdiv_neg, Int.tdiv_one]
      cases hs : t.signed with
      | true =>
        have hwidth := Word.highest_of_signed hs
        have hne : x ≠ t.lowest := fun heq => h ⟨hs, heq, hone⟩
        omega
      | false =>
        have hlow := Word.lowest_of_unsigned hs
        omega
  · have hclose := tdiv_between (x := x) habs
    cases hs : t.signed with
    | true =>
      have hwidth := Word.highest_of_signed hs
      omega
    | false =>
      have hlow := Word.lowest_of_unsigned hs
      have hsign := Int.tdiv_nonneg (a := x) (b := y) (by omega) (by omega)
      omega

/-- The one remainder that overflows is the one whose quotient does. -/
theorem checkedRem_computes (ht : t.Carries k) {x y : ℤ} (hx : k.InRange x) (hy : k.InRange y) :
    Computes k (x.tmod y) (k.InRange (x.tdiv y)) (t.orOverflow (t.checkedRem x y)) := by
  unfold Word.checkedRem
  split
  · next h =>
    obtain ⟨hsigned, rfl, rfl⟩ := h
    refine .refuse fun hn => ?_
    have hover := ((ht.range _).mp hn).2
    rw [Int.tdiv_neg, Int.tdiv_one, Word.highest_of_signed hsigned] at hover
    omega
  · next h =>
    have hmod : k.InRange (x.tmod y) := hx.between (tmod_between x y)
    exact .intro (tdiv_inRange ht hx hy h) (by rw [ht.kind, ht.number_ofInt _ hmod])

theorem intArith_computes (ht : t.Carries k) {op : BinOp} (hop : isArith op) (a b : BitVec w)
    (ha : k.InRange (t.number a)) (hb : k.InRange (t.number b)) :
    Computes k (exactly op (t.number a) (t.number b)) (Legal k op (t.number a) (t.number b)) (intArith t op a b) := by
  unfold intArith
  cases op with
  | add | sub | mul => exact (checked_computes ht _).congr (by simp [Legal, exactly])
  | div =>
    dsimp only
    split
    · next h => exact .refuse fun hlegal => hlegal.1 (.inl rfl) h
    · next h => exact (checked_computes ht _).congr (by simp [Legal, exactly, h])
  | mod =>
    dsimp only
    split
    · next h => exact .refuse fun hlegal => hlegal.1 (.inr rfl) h
    · next h => exact (checkedRem_computes ht ha hb).congr (by simp [Legal, exactly, h])
  | _ => cases hop

end Exact

theorem bigintArith_computes {op : BinOp} (hop : isArith op) {unsigned : Bool} {k : IntKind}
    (hkind : ∀ n, integerOf (wrap unsigned n) = some (k, n)) (hrange : ∀ n, k.InRange n ↔ (unsigned = true → 0 ≤ n))
    {x y : ℤ} (hx : k.InRange x) (hy : k.InRange y) :
    Computes k (exactly op x y) (Legal k op x y) (bigintArith op x y unsigned) := by
  rw [hrange] at hx hy
  unfold bigintArith
  cases op with
  | add =>
    refine Computes.intro ⟨by simp, (hrange _).mpr fun hu => ?_⟩ (hkind _)
    exact add_nonneg (hx hu) (hy hu)
  | mul => exact Computes.intro ⟨by simp, (hrange _).mpr fun hu => mul_nonneg (hx hu) (hy hu)⟩ (hkind _)
  | sub =>
    dsimp only
    split
    · next h =>
      obtain ⟨hu, hneg⟩ := h
      refine Computes.refuse fun hlegal => ?_
      have : 0 ≤ x - y := (hrange _).mp hlegal.2 hu
      omega
    · next h =>
      refine Computes.intro ⟨by simp, (hrange _).mpr fun hu => ?_⟩ (hkind _)
      show 0 ≤ x - y
      by_contra hneg
      exact h ⟨hu, not_le.mp hneg⟩
  | div =>
    dsimp only
    split
    · next h => exact Computes.refuse fun hlegal => hlegal.1 (.inl rfl) h
    · next h => exact Computes.intro ⟨fun _ => h, (hrange _).mpr fun hu => Int.tdiv_nonneg (hx hu) (hy hu)⟩ (hkind _)
  | mod =>
    dsimp only
    split
    · next h => exact Computes.refuse fun hlegal => hlegal.1 (.inr rfl) h
    · next h => exact Computes.intro ⟨fun _ => h, (hrange _).mpr fun hu => Int.tdiv_nonneg (hx hu) (hy hu)⟩ (hkind _)
  | _ => cases hop

/-- **Integer arithmetic never wraps.** On two integers of one kind, an operation gives the exact result, and it
fails just when there is nothing to divide by or the kind does not hold the result. -/
theorem evalBinary_exact (R : Runtime) {op : BinOp} (hop : isArith op) {k : IntKind} {x y : ℤ} {l r : Value}
    (hl : integerOf l = some (k, x)) (hr : integerOf r = some (k, y)) (hx : k.InRange x) (hy : k.InRange y) :
    Computes k (exactly op x y) (Legal k op x y) (evalBinary R op l r) := by
  cases l <;> cases hl <;> cases r <;> cases hr
  · exact bigintArith_computes hop (fun _ => rfl) (fun _ => by simp [IntKind.InRange]) hx hy
  · exact bigintArith_computes hop (fun _ => rfl) (fun _ => by simp [IntKind.InRange]) hx hy
  · exact intArith_computes carries_i32 hop _ _ hx hy
  · exact intArith_computes carries_u32 hop _ _ hx hy
  · exact intArith_computes carries_u64 hop _ _ hx hy
  · exact intArith_computes carries_u128 hop _ _ hx hy

/-- A counter is counted on exactly, or it fails. -/
theorem inc_exact (R : Runtime) {k : IntKind} {x : ℤ} {v : Value} (hv : integerOf v = some (k, x)) (hx : k.InRange x) :
    Computes k (x + 1) (k.InRange (x + 1)) (inc R v) := by
  cases v <;> cases hv
  · exact .intro trivial rfl
  · exact .intro (add_nonneg hx zero_le_one) rfl
  · exact checked_computes carries_i32 _
  · exact checked_computes carries_u32 _
  · exact checked_computes carries_u64 _
  · exact checked_computes carries_u128 _

theorem negUnsigned_computes {w : ℕ} {t : Word w} {k : IntKind} (ht : t.Carries k) (hsigned : t.signed = false)
    (n : BitVec w) : Computes k (-t.number n) (k.InRange (-t.number n)) (negUnsigned t n) := by
  have hnumber : t.number n = n.toNat := by simp [Word.number, hsigned]
  have hlowest := Word.lowest_of_unsigned hsigned
  unfold negUnsigned
  split
  · next h =>
    subst h
    have hzero : t.number 0 = 0 := by simp [Word.number, hsigned]
    refine .intro ?_ (by rw [ht.kind, hzero, neg_zero])
    rw [hzero, neg_zero, ht.range, hlowest]
    refine ⟨le_rfl, ?_⟩
    have : (0 : ℤ) < 2 ^ w := by positivity
    simp only [Word.highest, hsigned, Bool.false_eq_true, if_false]
    omega
  · next h =>
    refine .refuse fun hn => h ?_
    have hle := ((ht.range _).mp hn).1
    rw [hlowest, hnumber] at hle
    exact BitVec.eq_of_toNat_eq (by simpa using hle)

/-- A negation is exact, or it fails. -/
theorem evalUnary_neg_exact (R : Runtime) {k : IntKind} {x : ℤ} {v : Value} (hv : integerOf v = some (k, x))
    (hx : k.InRange x) : Computes k (-x) (k.InRange (-x)) (evalUnary R .neg v) := by
  cases v <;> cases hv
  · exact .intro trivial rfl
  · have hx : 0 ≤ x := hx
    simp only [evalUnary]
    split
    · next h => exact .intro (by rw [h]; exact le_rfl) (by rw [h]; rfl)
    · next h =>
      refine .refuse fun hn => h ?_
      have hn : 0 ≤ -x := hn
      omega
  · exact checked_computes carries_i32 _
  · exact negUnsigned_computes carries_u32 rfl _
  · exact negUnsigned_computes carries_u64 rfl _
  · exact negUnsigned_computes carries_u128 rfl _

/-- For what uses neither floats nor the display. -/
def plainRuntime : Runtime where
  add := fun a _ => a
  sub := fun a _ => a
  mul := fun a _ => a
  div := fun a _ => a
  rem := fun a _ => a
  neg := fun a => a
  lt := fun _ _ => false
  le := fun _ _ => false
  eq := fun a b => a = b
  display := fun _ => ""

theorem evalBinary_exact_least :
    Computes .i32 (2 ^ 31) (Legal .i32 .div (-2 ^ 31) (-1))
        (evalBinary plainRuntime .div (.i32 (BitVec.intMin 32)) (.i32 (-1))) ∧
      ¬ Legal .i32 .div (-2 ^ 31) (-1) :=
  ⟨evalBinary_exact plainRuntime rfl (x := -2 ^ 31) (y := -1) rfl rfl ⟨by norm_num, by norm_num⟩ ⟨by norm_num, by norm_num⟩, by
    rintro ⟨-, -, h⟩
    exact absurd h (by decide)⟩

end Rend.Ops
