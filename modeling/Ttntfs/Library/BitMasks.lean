import Mathlib.Tactic

/-!
# Masks of high and of low bits

Masking a number with the bits from some place on rounds it down to a multiple of a power of
two, and setting the bits below that place rounds it up to the last number before the next one.
-/

namespace Ttntfs.Library.BitMasks

/-- The high bits of a number. -/
theorem and_high_eq {n k x mask : Nat} (small : x < 2 ^ n) (within : k ≤ n) (highBits : mask = 2 ^ n - 2 ^ k) :
    x &&& mask = x / 2 ^ k * 2 ^ k := by
  have split : mask = (2 ^ (n - k) - 1) <<< k := by
    rw [highBits, Nat.shiftLeft_eq, Nat.sub_mul, ← Nat.pow_add, Nat.sub_add_cancel within, Nat.one_mul]
  have cut : x >>> k &&& (2 ^ (n - k) - 1) = x >>> k := by
    rw [Nat.and_two_pow_sub_one_eq_mod, Nat.shiftRight_eq_div_pow, Nat.mod_eq_of_lt]
    rw [Nat.div_lt_iff_lt_mul (Nat.two_pow_pos k), ← Nat.pow_add, Nat.sub_add_cancel within]
    exact small
  have shifted : x &&& mask = (x >>> k) <<< k := by
    rw [split, ← cut, Nat.shiftLeft_and_distrib]
    refine Nat.eq_of_testBit_eq fun i => ?_
    simp only [Nat.testBit_and, Nat.testBit_shiftLeft, Nat.testBit_shiftRight]
    by_cases lower : k ≤ i
    · simp [lower, Nat.add_sub_cancel' lower]
    · simp [lower]
  rw [shifted, Nat.shiftLeft_eq, Nat.shiftRight_eq_div_pow]

/-- What a mask of high bits keeps of a number is told by a division. -/
theorem and_high_iff {n k x v mask value : Nat} (small : x < 2 ^ n) (within : k ≤ n) (highBits : mask = 2 ^ n - 2 ^ k)
    (kept : value = v * 2 ^ k) : x &&& mask = value ↔ x / 2 ^ k = v := by
  rw [and_high_eq small within highBits, kept]
  exact ⟨fun same => Nat.eq_of_mul_eq_mul_right (Nat.two_pow_pos k) same, fun same => by rw [same]⟩

/-- A number with its low bits set. -/
theorem or_low_eq (x k : Nat) : x ||| (2 ^ k - 1) = x / 2 ^ k * 2 ^ k + (2 ^ k - 1) := by
  have low : 2 ^ k - 1 < 2 ^ k := Nat.sub_lt (Nat.two_pow_pos k) Nat.one_pos
  have same : x / 2 ^ k * 2 ^ k + (2 ^ k - 1) = (x >>> k) <<< k ||| (2 ^ k - 1) := by
    rw [← Nat.shiftLeft_add_eq_or_of_lt low, Nat.shiftLeft_eq, Nat.shiftRight_eq_div_pow]
  rw [same]
  refine Nat.eq_of_testBit_eq fun i => ?_
  simp only [Nat.testBit_or, Nat.testBit_shiftLeft, Nat.testBit_shiftRight, Nat.testBit_two_pow_sub_one]
  by_cases lower : k ≤ i
  · simp [lower, Nat.add_sub_cancel' lower]
  · simp [lower, Nat.lt_of_not_le lower]

end Ttntfs.Library.BitMasks
