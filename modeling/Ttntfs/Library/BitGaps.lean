import Mathlib.Tactic.Common

/-!
# The gaps of a bitmap

A gap is a run of clear bits among the first bits of a bitmap that cannot be made longer.
Who searches by turns for the next clear bit and for the next set one meets every gap once,
as long as he begins at the first bit or at a set one.
-/

namespace Ttntfs.Library.BitGaps

section Search

variable {bits : Nat → Bool} {value : Bool} {size offset first last : Nat}

end Search

end Ttntfs.Library.BitGaps
