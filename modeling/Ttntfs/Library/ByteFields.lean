import Ttntfs.Library.ByteMemory

/-!
# Fields of a list of bytes

A value that is laid out field by field is a list of bytes. A field is read at its place whatever
stands before and behind it.
-/

namespace Ttntfs.Library.ByteFields

open ByteMemory

/-- The low `width` bytes of a number, least significant first. -/
def leBytes : Nat → Nat → List UInt8
  | 0, _ => []
  | width + 1, value => UInt8.ofNat value :: leBytes width (value / 256)

/-- A little-endian field of a list. -/
def fieldAt (v : List UInt8) (width off : Nat) : Nat := getLE (fun i => v.getD i 0) width off

@[simp] theorem length_leBytes (width value : Nat) : (leBytes width value).length = width := by
  induction width generalizing value with
  | zero => rfl
  | succ width ih => rw [leBytes, List.length_cons, ih]

/-- A field behind what stands before it. -/
theorem fieldAt_append (before v : List UInt8) (width off : Nat) :
    fieldAt (before ++ v) width (before.length + off) = fieldAt v width off := by
  have behind : (fun i => v.getD i 0) = fun i => (before ++ v).getD (before.length + i) 0 := by
    funext i
    rw [List.getD_eq_getElem?_getD, List.getD_eq_getElem?_getD, List.getElem?_append_right (by omega),
      Nat.add_sub_cancel_left]
  rw [fieldAt, fieldAt, behind]
  exact (getLE_shifted (fun i => (before ++ v).getD i 0) before.length width off).symm

/-- A field at the beginning is read back, reduced to its width. -/
theorem fieldAt_leBytes (width value : Nat) (behind : List UInt8) :
    fieldAt (leBytes width value ++ behind) width 0 = value % 256 ^ width := by
  induction width generalizing value with
  | zero => simp [fieldAt, getLE, Nat.mod_one]
  | succ width ih =>
    have rest : fieldAt (leBytes (width + 1) value ++ behind) width 1 = value / 256 % 256 ^ width := by
      rw [leBytes, List.cons_append]
      exact (fieldAt_append [UInt8.ofNat value] _ width 0).trans (ih (value / 256))
    rw [fieldAt] at rest
    have first : (UInt8.ofNat value).toNat = value % 256 := UInt8.toNat_ofNat'
    rw [fieldAt, getLE, rest, leBytes, List.cons_append, List.getD_cons_zero, first, Nat.pow_succ', ← Nat.mod_mul]

/-- A field behind another one. -/
theorem fieldAt_skip (first value : Nat) (v : List UInt8) (width off : Nat) :
    fieldAt (leBytes first value ++ v) width (first + off) = fieldAt v width off := by
  have behind := fieldAt_append (leBytes first value) v width off
  rwa [length_leBytes] at behind

/-- The first field is read back. -/
theorem fieldAt_first {width value : Nat} {behind : List UInt8} (fits : value < 256 ^ width) :
    fieldAt (leBytes width value ++ behind) width 0 = value := by
  rw [fieldAt_leBytes, Nat.mod_eq_of_lt fits]

/-- A field that is written at a place is read back there. -/
theorem fieldAt_written {width value off : Nat} {before behind : List UInt8} (place : before.length = off)
    (fits : value < 256 ^ width) : fieldAt (before ++ (leBytes width value ++ behind)) width off = value := by
  rw [← place]
  exact (fieldAt_append before _ width 0).trans (fieldAt_first fits)

end Ttntfs.Library.ByteFields
