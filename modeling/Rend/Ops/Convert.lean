import Rend.Value
import Mathlib.Tactic.Linarith

/-!
# Integer conversion

`ops::convert`, which the conversion builtins `i32`, `u32`, `u64`, `u128` and `int` run, with its two
routes: a `BigInt` is narrowed directly, every other source is widened to an `i128` first.

`ConvertsExactly` says that a conversion keeps the number; `convertsExactly_iff` gives the sources for
which it does. Two kinds of source fall outside: a `uint`, which no route takes, and a `u128` above the
largest `i128` on its way to an `int`. The span of an error is left out, being the caller's.
-/

namespace Rend.Ops

/-- An error of `convert`. -/
inductive ConvertError
  | outOfRange
  | mismatch (value : Value) (target : ℕ)

/-- The text of an error, over the display of a value. -/
def ConvertError.message (display : Value → String) : ConvertError → String
  | .outOfRange => "integer out of range"
  | .mismatch value target => "can't convert " ++ display value ++ " to int kind " ++ toString target

/-! ### The code -/

/-- `BigInt::to_i32` and `i32::try_from`. -/
def toI32 (n : ℤ) : Option (BitVec 32) :=
  if -2 ^ 31 ≤ n ∧ n < 2 ^ 31 then some (BitVec.ofInt 32 n) else none

/-- `BigInt::to_u32`, `to_u64`, `to_u128` and the `try_from` of these types. -/
def toUnsigned (w : ℕ) (n : ℤ) : Option (BitVec w) :=
  if 0 ≤ n ∧ n < 2 ^ w then some (BitVec.ofInt w n) else none

/-- `map(variant).ok_or_else(bounds)`. -/
def okOrBounds {α : Type} (variant : α → Value) : Option α → Except ConvertError Value
  | some a => .ok (variant a)
  | none => .error .outOfRange

/-- `from_i128`, the second half of the route through `i128`. -/
def fromI128 (target : ℕ) (n : ℤ) : Except ConvertError Value :=
  match target with
  | 0 => .ok (.int n)
  | 1 => okOrBounds .i32 (toI32 n)
  | 2 => okOrBounds .u32 (toUnsigned 32 n)
  | 3 => okOrBounds .u64 (toUnsigned 64 n)
  | 4 => if n < 0 then .error .outOfRange else .ok (.u128 (BitVec.ofInt 128 n))
  | _ => .error .outOfRange

/-- The route of an `int`: a `BigInt` straight to the target. -/
def convertInt (target : ℕ) (n : ℤ) : Except ConvertError Value :=
  if target = 0 then .ok (.int n)
  else match target with
    | 1 => okOrBounds .i32 (toI32 n)
    | 2 => okOrBounds .u32 (toUnsigned 32 n)
    | 3 => okOrBounds .u64 (toUnsigned 64 n)
    | 4 => okOrBounds .u128 (toUnsigned 128 n)
    | _ => .error .outOfRange

/-- `i128::MAX as u128`. -/
def i128Max : ℕ := 2 ^ 127 - 1

/-- `ops::convert`. -/
def convert (value : Value) (target : ℕ) : Except ConvertError Value :=
  match value with
  | .int n => convertInt target n
  | .i32 n => fromI128 target n.toInt
  | .u32 n => fromI128 target n.toNat
  | .u64 n => fromI128 target n.toNat
  | .u128 n =>
    if target = 4 then .ok (.u128 n)
    else if i128Max < n.toNat then .error .outOfRange
    else fromI128 target n.toNat
  | value => .error (.mismatch value target)

/-! ### What a conversion is for -/

/-- The integer kinds of the language. -/
inductive IntKind
  | int | uint | i32 | u32 | u64 | u128
  deriving DecidableEq

/-- The numbers a kind holds. -/
def IntKind.InRange (n : ℤ) : IntKind → Prop
  | .int => True
  | .uint => 0 ≤ n
  | .i32 => -2 ^ 31 ≤ n ∧ n < 2 ^ 31
  | .u32 => 0 ≤ n ∧ n < 2 ^ 32
  | .u64 => 0 ≤ n ∧ n < 2 ^ 64
  | .u128 => 0 ≤ n ∧ n < 2 ^ 128

/-- The kind that a target byte stands for. -/
def targetKind : ℕ → Option IntKind
  | 0 => some .int
  | 1 => some .i32
  | 2 => some .u32
  | 3 => some .u64
  | 4 => some .u128
  | _ => none

/-- The kind of an integer value and the number it stands for. -/
def integerOf : Value → Option (IntKind × ℤ)
  | .int n => some (.int, n)
  | .uint n => some (.uint, n)
  | .i32 n => some (.i32, n.toInt)
  | .u32 n => some (.u32, n.toNat)
  | .u64 n => some (.u64, n.toNat)
  | .u128 n => some (.u128, n.toNat)
  | _ => none

/-- A result is exact at a number and a kind when it is there just for the numbers of the kind, and
is then that number in that kind. -/
def Exact (k : IntKind) (n : ℤ) (res : Except ConvertError Value) : Prop :=
  ((∃ r, res = .ok r) ↔ k.InRange n) ∧ ∀ r, res = .ok r → integerOf r = some (k, n)

/-- The conversion of an integer value keeps its number, and fails just where the target cannot hold it. -/
def ConvertsExactly (value : Value) (target : ℕ) : Prop :=
  ∀ s n k, integerOf value = some (s, n) → targetKind target = some k → Exact k n (convert value target)

/-! ### The two routes -/

theorem Exact.intro {k : IntKind} {n : ℤ} {r : Value} (hn : k.InRange n) (hr : integerOf r = some (k, n)) :
    Exact k n (.ok r) := by
  refine ⟨⟨fun _ => hn, fun _ => ⟨r, rfl⟩⟩, ?_⟩
  intro _ h
  cases h
  exact hr

theorem Exact.refuse {k : IntKind} {n : ℤ} {e : ConvertError} (hn : ¬ k.InRange n) : Exact k n (.error e) := by
  refine ⟨⟨?_, fun h => absurd h hn⟩, ?_⟩
  · rintro ⟨_, h⟩
    cases h
  · intro _ h
    cases h

theorem toI32_exact (n : ℤ) : Exact .i32 n (okOrBounds .i32 (toI32 n)) := by
  unfold toI32
  split
  · next h =>
    refine Exact.intro h ?_
    have : (BitVec.ofInt 32 n).toInt = n := by
      rw [BitVec.toInt_ofInt]
      exact Int.bmod_eq_of_le (by omega) (by omega)
    simp [integerOf, this]
  · next h => exact Exact.refuse h

/-- A number in the range of a word is the word's number. -/
theorem toNat_ofInt {w : ℕ} {n : ℤ} (h : 0 ≤ n) (hw : n < 2 ^ w) : ((BitVec.ofInt w n).toNat : ℤ) = n := by
  rw [BitVec.toNat_ofInt]
  have hmod : n % ((2 ^ w : ℕ) : ℤ) = n := Int.emod_eq_of_lt h (by exact_mod_cast hw)
  rw [hmod]
  exact Int.toNat_of_nonneg h

theorem toUnsigned_exact {w : ℕ} {k : IntKind} {variant : BitVec w → Value}
    (hk : ∀ n, k.InRange n ↔ 0 ≤ n ∧ n < 2 ^ w) (hv : ∀ m, integerOf (variant m) = some (k, (m.toNat : ℤ)))
    (n : ℤ) : Exact k n (okOrBounds variant (toUnsigned w n)) := by
  unfold toUnsigned
  split
  · next h =>
    refine Exact.intro ((hk n).mpr h) ?_
    rw [hv, toNat_ofInt h.1 h.2]
  · next h => exact Exact.refuse fun hr => h ((hk n).mp hr)

theorem convertInt_exact {target : ℕ} {k : IntKind} (n : ℤ) (hk : targetKind target = some k) :
    Exact k n (convertInt target n) := by
  unfold targetKind at hk
  split at hk <;> cases hk
  · exact Exact.intro trivial rfl
  · exact toI32_exact n
  · exact toUnsigned_exact (fun _ => Iff.rfl) (fun _ => rfl) n
  · exact toUnsigned_exact (fun _ => Iff.rfl) (fun _ => rfl) n
  · exact toUnsigned_exact (fun _ => Iff.rfl) (fun _ => rfl) n

/-- The route through `i128` is exact for the numbers an `i128` holds. -/
theorem fromI128_exact {target : ℕ} {k : IntKind} {n : ℤ} (hn : n < 2 ^ 127) (hk : targetKind target = some k) :
    Exact k n (fromI128 target n) := by
  unfold targetKind at hk
  split at hk <;> cases hk
  · exact Exact.intro trivial rfl
  · exact toI32_exact n
  · exact toUnsigned_exact (fun _ => Iff.rfl) (fun _ => rfl) n
  · exact toUnsigned_exact (fun _ => Iff.rfl) (fun _ => rfl) n
  · -- the guard looks at the sign alone: an `i128` is below `2 ^ 128` anyway
    show Exact .u128 n (if n < 0 then _ else _)
    split
    · next h => exact Exact.refuse fun hr => absurd hr.1 (by omega)
    · next h =>
      have hlt : n < 2 ^ 128 := by omega
      refine Exact.intro ⟨by omega, hlt⟩ ?_
      rw [integerOf, toNat_ofInt (by omega) hlt]

/-- A word below `2 ^ 127` takes the route through `i128`. -/
theorem word_exact {w target : ℕ} {k : IntKind} (n : BitVec w) (hw : w < 128) (hk : targetKind target = some k) :
    Exact k n.toNat (fromI128 target n.toNat) := by
  refine fromI128_exact ?_ hk
  have hlt : n.toNat < 2 ^ 127 := lt_of_lt_of_le n.isLt (Nat.pow_le_pow_right (by omega) (by omega))
  exact_mod_cast hlt

/-! ### The sources that lose -/

/-- The conversions that fail though the target holds the number: a `uint` is of no route, and an `int`
is refused to a `u128` above the largest `i128`. -/
def Stuck (value : Value) (target : ℕ) : Prop :=
  (∃ n k, value = .uint n ∧ targetKind target = some k ∧ k.InRange n) ∨
    (target = 0 ∧ ∃ n, value = .u128 n ∧ 2 ^ 127 ≤ n.toNat)

/-- A `u128` that no `i128` holds fits no target but `int` and its own. -/
theorem wide_not_inRange {target : ℕ} {k : IntKind} {n : U128} (hn : 2 ^ 127 ≤ n.toNat) (h0 : target ≠ 0)
    (h4 : target ≠ 4) (hk : targetKind target = some k) : ¬ k.InRange n.toNat := by
  have hn : (2 : ℤ) ^ 127 ≤ n.toNat := by exact_mod_cast hn
  unfold targetKind at hk
  split at hk <;> cases hk
  · exact absurd rfl h0
  · intro h; have := h.2; omega
  · intro h; have := h.2; omega
  · intro h; have := h.2; omega
  · exact absurd rfl h4

theorem u128_exact {target : ℕ} {k : IntKind} {n : U128} (hs : ¬ (target = 0 ∧ 2 ^ 127 ≤ n.toNat))
    (hk : targetKind target = some k) : Exact k n.toNat (convert (.u128 n) target) := by
  show Exact k n.toNat (if target = 4 then _ else if i128Max < n.toNat then _ else _)
  split
  · next h4 =>
    subst h4
    cases hk
    have hlt := n.isLt
    exact Exact.intro ⟨by omega, by exact_mod_cast hlt⟩ rfl
  · next h4 =>
    split
    · next hmax =>
      have hn : 2 ^ 127 ≤ n.toNat := by unfold i128Max at hmax; omega
      have h0 : target ≠ 0 := fun h => hs ⟨h, hn⟩
      exact Exact.refuse (wide_not_inRange hn h0 h4 hk)
    · next hmax =>
      refine fromI128_exact ?_ hk
      unfold i128Max at hmax
      omega

/-- **When an integer conversion is exact.** For every value and every target, the conversion keeps the
number, and fails just where the target cannot hold it, unless the value is a `uint` that the target
holds or a `u128` from `2 ^ 127` on is to become an `int`. -/
theorem convertsExactly_iff (value : Value) (target : ℕ) : ConvertsExactly value target ↔ ¬ Stuck value target := by
  constructor
  · rintro hex (⟨n, k, rfl, hk, hn⟩ | ⟨rfl, n, rfl, hn⟩)
    · obtain ⟨r, hr⟩ := (hex _ _ _ rfl hk).1.mpr hn
      cases hr
    · obtain ⟨r, hr⟩ := (hex .u128 n.toNat .int rfl rfl).1.mpr trivial
      have hmax : i128Max < n.toNat := by unfold i128Max; omega
      have hfail : convert (.u128 n) 0 = .error .outOfRange := by simp [convert, hmax]
      rw [hfail] at hr
      cases hr
  · intro hs s n k hv hk
    cases value with
    | int m =>
      cases hv
      exact convertInt_exact n hk
    | uint m =>
      cases hv
      exact Exact.refuse fun hn => hs (.inl ⟨n, k, rfl, hk, hn⟩)
    | i32 m =>
      cases hv
      have := BitVec.toInt_lt (x := m)
      exact fromI128_exact (by omega) hk
    | u32 m =>
      cases hv
      exact word_exact m (by omega) hk
    | u64 m =>
      cases hv
      exact word_exact m (by omega) hk
    | u128 m =>
      cases hv
      exact u128_exact (fun h => hs (.inr ⟨h.1, m, rfl, h.2⟩)) hk
    | _ => cases hv

/-- The `uint` 5 does not become a `u64`, and the `u128` `2 ^ 127` does not become an `int`. -/
theorem uint_and_wide_not_exact :
    ¬ ConvertsExactly (.uint 5) 3 ∧ ¬ ConvertsExactly (.u128 (BitVec.ofNat 128 (2 ^ 127))) 0 := by
  constructor
  · intro hex
    obtain ⟨r, hr⟩ := (hex .uint 5 .u64 rfl rfl).1.mpr ⟨by omega, by omega⟩
    cases hr
  · intro hex
    obtain ⟨r, hr⟩ := (hex .u128 _ .int rfl rfl).1.mpr trivial
    cases hr

end Rend.Ops
