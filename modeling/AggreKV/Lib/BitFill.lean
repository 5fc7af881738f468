import Mathlib.Data.Nat.Bitwise
import Mathlib.Data.Nat.Size
import Mathlib.Tactic.Common

/-! # Filling the bits below the leading one

    `fill w x` copies the bits of `x` down by `w` places. Doubling the width
    from 1 on fills everything below the leading one, and the next number
    is a power of two.

    * `Spread k x y`: bit `i` of `y` is set if one of the `k` bits of `x` from
      `i` on is.
    * `Spread.fill`: one step doubles `k`.
    * `Spread.eq_two_pow_sub_one`: a wide enough spread is all ones.
    * `powerOfTwo_iff`: the test `(x - 1) & x = 0`. -/

namespace AggreKV

/-- The bits of `x`, and again `w` places lower. -/
def fill (w x : Nat) : Nat := x ||| x >>> w

/-- Bit `i` of `y` is the disjunction of `k` bits of `x`. -/
def Spread (k x y : Nat) : Prop :=
  ∀ i, y.testBit i = true ↔ ∃ j, j < k ∧ x.testBit (i + j) = true

theorem Spread.refl (x : Nat) : Spread 1 x x := by
  intro i
  constructor
  · intro h
    exact ⟨0, Nat.zero_lt_one, h⟩
  · rintro ⟨j, hj, h⟩
    have hj0 : j = 0 := by omega
    rw [hj0] at h
    exact h

theorem Spread.fill {k x y : Nat} (h : Spread k x y) : Spread (k + k) x (fill k y) := by
  intro i
  unfold AggreKV.fill
  rw [Nat.testBit_or, Nat.testBit_shiftRight, Bool.or_eq_true, h i, h (k + i)]
  constructor
  · intro hor
    rcases hor with ⟨j, hj, hx⟩ | ⟨j, hj, hx⟩
    · exact ⟨j, by omega, hx⟩
    · exact ⟨k + j, by omega, by rwa [show i + (k + j) = k + i + j by omega]⟩
  · rintro ⟨j, hj, hx⟩
    by_cases hlt : j < k
    · exact Or.inl ⟨j, hlt, hx⟩
    · exact Or.inr ⟨j - k, by omega, by rwa [show k + i + (j - k) = i + j by omega]⟩

/-- All bits below the leading one are set. -/
theorem Spread.eq_two_pow_sub_one {k x y : Nat} (h : Spread k x y) (hk : x.size ≤ k) :
    y = 2 ^ x.size - 1 := by
  apply Nat.eq_of_testBit_eq
  intro i
  rw [Nat.testBit_two_pow_sub_one, Bool.eq_iff_iff, h i, decide_eq_true_iff]
  constructor
  · rintro ⟨j, -, hx⟩
    by_contra hi
    have hlt : x < 2 ^ (i + j) := by
      apply Nat.lt_of_lt_of_le (Nat.lt_size_self x)
      apply Nat.pow_le_pow_right (by omega)
      omega
    simp [Nat.testBit_lt_two_pow hlt] at hx
  · intro hi
    -- the leading one itself
    refine ⟨x.size - 1 - i, by omega, ?_⟩
    rw [show i + (x.size - 1 - i) = x.size - 1 by omega]
    by_contra hbit
    have hsmall : x < 2 ^ (x.size - 1) := by
      apply Nat.lt_pow_two_of_testBit
      intro j hj
      by_cases heq : j = x.size - 1
      · rw [heq]
        simpa using hbit
      · apply Nat.testBit_lt_two_pow
        apply Nat.lt_of_lt_of_le (Nat.lt_size_self x)
        apply Nat.pow_le_pow_right (by omega)
        omega
    have hsize := Nat.size_le.mpr hsmall
    omega

/-- `x - 1` and `x` share a bit unless `x` is a power of two. -/
theorem powerOfTwo_iff {x : Nat} (hx : 0 < x) : (x - 1) &&& x = 0 ↔ ∃ k, x = 2 ^ k := by
  constructor
  · intro h
    refine ⟨x.size - 1, ?_⟩
    have hsize : 0 < x.size := Nat.size_pos.mpr hx
    have hle : 2 ^ (x.size - 1) ≤ x := by
      apply Nat.lt_size.mp
      omega
    have hlt : x < 2 ^ (x.size - 1 + 1) := by
      rw [show x.size - 1 + 1 = x.size by omega]
      exact Nat.lt_size_self x
    by_contra hne
    -- otherwise both have the leading bit
    have hbit : ∀ y, 2 ^ (x.size - 1) ≤ y → y < 2 ^ (x.size - 1 + 1) →
        y.testBit (x.size - 1) = true := by
      intro y hy hy'
      rw [Nat.testBit_eq_decide_div_mod_eq, decide_eq_true_iff]
      have hdiv : y / 2 ^ (x.size - 1) = 1 := by
        apply Nat.div_eq_of_lt_le
        · omega
        · rw [Nat.pow_succ] at hy'
          omega
      rw [hdiv]
    have hboth := congrArg (fun y => Nat.testBit y (x.size - 1)) h
    simp [hbit x hle hlt, hbit (x - 1) (by omega) (by omega)] at hboth
  · rintro ⟨k, rfl⟩
    apply Nat.eq_of_testBit_eq
    intro i
    rw [Nat.testBit_and, Nat.testBit_two_pow_sub_one, Nat.zero_testBit, Nat.testBit_two_pow]
    by_cases hi : k = i
    · simp [hi]
    · simp [hi]

end AggreKV
