import Mathlib.Tactic
import Ttntfs.Library.ByteMemory

/-!
# Signed integers of variable width

A signed integer can be stored in as few bytes as hold it in two's complement, least
significant byte first. A reader starts with the topmost byte, which carries the sign,
and shifts the others in below it. When the integer fits into the width the reader gets
it back, and the arithmetic of a machine word never wraps on the way.
-/

namespace Ttntfs.Library.SignedBytes

open Ttntfs.Library.ByteMemory

/-- The byte of an integer with a given index, from the least significant one. -/
def byteOf (n : Int) (i : Nat) : UInt8 := UInt8.ofNat (n / 256 ^ i % 256).toNat

/-- A byte as a signed number. -/
def signedByte (b : UInt8) : Int := if b.toNat < 128 then b.toNat else (b.toNat : Int) - 256

/-- The value of a 64-bit signed word after an operation that may wrap. -/
def s64 (n : Int) : Int := n.bmod (2 ^ 64)

/-- The range of a 64-bit signed word. -/
def InS64 (n : Int) : Prop := -2 ^ 63 ≤ n ∧ n < 2 ^ 63

/-- Shift the bytes below a number that has been read already in behind it. -/
def shiftIn (m : Mem) (off : Nat) : Nat → Int → Int
  | 0, value => value
  | i + 1, value => shiftIn m off i (s64 (value * 256 + (m (off + i)).toNat))

/-- The signed integer in the `width` bytes from `off` on. -/
def readSigned (m : Mem) (off width : Nat) : Int :=
  shiftIn m off (width - 1) (signedByte (m (off + width - 1)))

/-- An integer fits into a number of bytes when what is left for the topmost of them is
a signed byte. -/
def FitsSigned (width : Nat) (n : Int) : Prop :=
  -128 ≤ n / 256 ^ (width - 1) ∧ n / 256 ^ (width - 1) < 128

instance (width : Nat) (n : Int) : Decidable (FitsSigned width n) :=
  inferInstanceAs (Decidable (_ ∧ _))

/-- The number of bytes an integer needs. -/
def significantWidth (n : Int) : Nat :=
  if -128 ≤ n ∧ n < 128 then 1 else significantWidth (n / 256) + 1
termination_by n.natAbs
decreasing_by omega

/-- The bytes from an offset on hold an integer that fits. -/
structure SignedAt (m : Mem) (off width : Nat) (n : Int) : Prop where
  some_byte : 0 < width
  fits : FitsSigned width n
  bytes : ∀ i < width, m (off + i) = byteOf n i

section Bytes

variable {m m' : Mem} {off width : Nat} {n : Int}

/-- A number in range is its own word. -/
theorem s64_of_range (range : InS64 n) : s64 n = n := by
  have lower := range.1
  have upper := range.2
  rw [s64]
  apply Int.bmod_eq_of_le
  · norm_num
    omega
  · norm_num
    omega

/-- A byte of an integer as a number. -/
theorem byteOf_toNat (n : Int) (i : Nat) : ((byteOf n i).toNat : Int) = n / 256 ^ i % 256 := by
  have lower : 0 ≤ n / 256 ^ i % 256 := Int.emod_nonneg _ (by norm_num)
  have upper : n / 256 ^ i % 256 < 256 := Int.emod_lt_of_pos _ (by norm_num)
  rw [byteOf, UInt8.toNat_ofNat']
  omega

/-- Dividing by one more byte. -/
theorem div_pow_succ (n : Int) (i : Nat) : n / 256 ^ (i + 1) = n / 256 ^ i / 256 := by
  rw [pow_succ, Int.ediv_ediv_of_nonneg (by positivity)]

/-- The first byte taken off before the others. -/
theorem div_div_pow (n : Int) (i : Nat) : n / 256 / 256 ^ i = n / 256 ^ (i + 1) := by
  rw [pow_succ', Int.ediv_ediv_of_nonneg (by norm_num)]

/-- The bytes of an integer above the first are those of what is left without it. -/
theorem byteOf_succ (n : Int) (i : Nat) : byteOf n (i + 1) = byteOf (n / 256) i := by
  rw [byteOf, byteOf, div_div_pow]

/-- What is left of an integer without its low bytes is in the range as well. -/
theorem InS64.div_pow (range : InS64 n) (i : Nat) : InS64 (n / 256 ^ i) := by
  induction i with
  | zero => simpa using range
  | succ i ih =>
    obtain ⟨lower, upper⟩ := ih
    rw [div_pow_succ]
    constructor <;> omega

/-- Shifting the bytes of an integer in behind its upper part restores it. -/
theorem shiftIn_bytes (range : InS64 n) {count : Nat} (bytes : ∀ i < count, m (off + i) = byteOf n i) :
    shiftIn m off count (n / 256 ^ count) = n := by
  induction count with
  | zero => simp [shiftIn]
  | succ count ih =>
    have joined : n / 256 ^ (count + 1) * 256 + ((m (off + count)).toNat : Int) = n / 256 ^ count := by
      rw [bytes count (by omega), byteOf_toNat, div_pow_succ]
      omega
    rw [shiftIn, joined, s64_of_range (range.div_pow count)]
    exact ih fun i below => bytes i (by omega)

/-- The topmost byte of an integer that fits carries its sign. -/
theorem signedByte_top (fits : FitsSigned width n) :
    signedByte (byteOf n (width - 1)) = n / 256 ^ (width - 1) := by
  obtain ⟨lower, upper⟩ := fits
  have byte := byteOf_toNat n (width - 1)
  rw [signedByte]
  split <;> omega

/-- A stored integer reads back. -/
theorem readSigned_of_signedAt (range : InS64 n) (stored : SignedAt m off width n) :
    readSigned m off width = n := by
  have some_byte := stored.some_byte
  have top : m (off + width - 1) = byteOf n (width - 1) := by
    rw [Nat.add_sub_assoc some_byte]
    exact stored.bytes (width - 1) (by omega)
  rw [readSigned, top, signedByte_top stored.fits]
  exact shiftIn_bytes range fun i below => stored.bytes i (by omega)

/-- A stored integer depends only on its bytes. -/
theorem SignedAt.congr (stored : SignedAt m off width n)
    (same : ∀ i, off ≤ i → i < off + width → m' i = m i) : SignedAt m' off width n where
  some_byte := stored.some_byte
  fits := stored.fits
  bytes i below := by
    rw [same (off + i) (by omega) (by omega)]
    exact stored.bytes i below

/-- The bytes of a field. -/
theorem getLE_byte (m : Mem) {i : Nat} (below : i < width) :
    getLE m width off / 256 ^ i % 256 = (m (off + i)).toNat := by
  induction width generalizing off i with
  | zero => omega
  | succ width ih =>
    have byte : (m off).toNat < 256 := (m off).toNat_lt
    cases i with
    | zero =>
      simp only [getLE, pow_zero, Nat.div_one, Nat.add_zero]
      omega
    | succ i =>
      have dropped : getLE m (width + 1) off / 256 ^ (i + 1) = getLE m width (off + 1) / 256 ^ i := by
        rw [getLE, pow_succ', ← Nat.div_div_eq_div_mul]
        congr 1
        omega
      rw [dropped, ih (by omega : i < width), Nat.add_assoc, Nat.add_comm 1 i]

/-- The topmost byte of a field. -/
theorem getLE_top (m : Mem) (some_byte : 0 < width) :
    getLE m width off / 256 ^ (width - 1) = (m (off + width - 1)).toNat := by
  have bound := getLE_lt m width off
  have scaled : 256 ^ width = 256 * 256 ^ (width - 1) := by
    rw [← pow_succ']
    congr 1
    omega
  have small : getLE m width off / 256 ^ (width - 1) < 256 := by
    rw [Nat.div_lt_iff_lt_mul (by positivity), ← scaled]
    exact bound
  have byte := @getLE_byte off width m (width - 1) (by omega)
  rw [Nat.mod_eq_of_lt small] at byte
  rw [byte, Nat.add_sub_assoc some_byte]

/-- The value of a field in two's complement. -/
def fieldValue (m : Mem) (width off : Nat) : Int :=
  if (m (off + width - 1)).toNat < 128 then getLE m width off else (getLE m width off : Int) - 256 ^ width

/-- A field holds its value in two's complement. -/
theorem signedAt_fieldValue (m : Mem) (off : Nat) (some_byte : 0 < width) :
    SignedAt m off width (fieldValue m width off) where
  some_byte := some_byte
  fits := by
    have top := @getLE_top off width m some_byte
    have byte : (m (off + width - 1)).toNat < 256 := (m (off + width - 1)).toNat_lt
    have scaled : (256 : Int) ^ width = 256 ^ (width - 1) * 256 := by
      rw [← pow_succ]
      congr 1
      omega
    have quotient : (getLE m width off : Int) / 256 ^ (width - 1) = (m (off + width - 1)).toNat := by
      exact_mod_cast top
    rw [FitsSigned, fieldValue]
    split
    · omega
    · rw [scaled, Int.sub_mul_ediv_left _ _ (by positivity), quotient]
      omega
  bytes i below := by
    have byte := @getLE_byte off width m i below
    have cast : (getLE m width off : Int) / 256 ^ i % 256 = (m (off + i)).toNat := by exact_mod_cast byte
    have same : fieldValue m width off / 256 ^ i % 256 = (m (off + i)).toNat := by
      rw [fieldValue]
      split
      · exact cast
      · have scaled : (256 : Int) ^ width = 256 ^ i * (256 * 256 ^ (width - 1 - i)) := by
          rw [← pow_succ', ← pow_add]
          congr 1
          omega
        rw [scaled, Int.sub_mul_ediv_left _ _ (by positivity), Int.sub_mul_emod_self_left, cast]
    rw [byteOf, same, Int.toNat_natCast, UInt8.ofNat_toNat]

/-- A field of at most eight bytes holds a 64-bit signed word. -/
theorem fieldValue_range (m : Mem) (off : Nat) (some_byte : 0 < width) (word : width ≤ 8) :
    InS64 (fieldValue m width off) := by
  obtain ⟨lower, upper⟩ := (signedAt_fieldValue m off some_byte).fits
  have positive : (0 : Int) < 256 ^ (width - 1) := by positivity
  have small : (256 : Int) ^ (width - 1) ≤ 256 ^ 7 := pow_le_pow_right₀ (by norm_num) (by omega)
  rw [Int.le_ediv_iff_mul_le positive] at lower
  rw [Int.ediv_lt_iff_lt_mul positive] at upper
  constructor <;> norm_num at small ⊢ <;> omega

/-- A reader of at most eight bytes gets their value in two's complement. -/
theorem readSigned_eq_fieldValue (m : Mem) (off : Nat) (some_byte : 0 < width) (word : width ≤ 8) :
    readSigned m off width = fieldValue m width off :=
  readSigned_of_signedAt (fieldValue_range m off some_byte word) (signedAt_fieldValue m off some_byte)

theorem significantWidth_pos (n : Int) : 0 < significantWidth n := by
  rw [significantWidth]
  split <;> omega

/-- An integer that is no signed byte needs one byte more than without its low byte. -/
theorem significantWidth_succ (large : ¬ (-128 ≤ n ∧ n < 128)) :
    significantWidth n = significantWidth (n / 256) + 1 := by
  rw [significantWidth, if_neg large]

theorem significantWidth_one (small : -128 ≤ n ∧ n < 128) : significantWidth n = 1 := by
  rw [significantWidth, if_pos small]

/-- An integer that fits into a number of bytes needs no more of them. -/
theorem significantWidth_le {width : Nat} (fits : FitsSigned (width + 1) n) :
    significantWidth n ≤ width + 1 := by
  induction width generalizing n with
  | zero =>
    have small : -128 ≤ n ∧ n < 128 := by simpa [FitsSigned] using fits
    rw [significantWidth_one small]
  | succ width ih =>
    by_cases small : -128 ≤ n ∧ n < 128
    · rw [significantWidth_one small]
      omega
    · have shorter : FitsSigned (width + 1) (n / 256) := by
        simpa only [FitsSigned, Nat.add_sub_cancel, div_div_pow] using fits
      have bound := ih shorter
      rw [significantWidth_succ small]
      omega

/-- A 64-bit signed word fits into eight bytes. -/
theorem InS64.fits (range : InS64 n) : FitsSigned 8 n := by
  obtain ⟨lower, upper⟩ := range
  simp only [FitsSigned]
  constructor <;> norm_num <;> omega

theorem InS64.significantWidth_le_eight (range : InS64 n) : significantWidth n ≤ 8 :=
  significantWidth_le range.fits

end Bytes

end Ttntfs.Library.SignedBytes
