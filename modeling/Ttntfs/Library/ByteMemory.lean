import Mathlib.Tactic.Ring

/-!
# Byte-addressed memory with little-endian fields

A buffer is a total map from byte offsets to bytes. Fixed-width fields are read
and written least significant byte first. Bounds are not part of the memory;
the developments that use it carry the length of each buffer beside it and state
which offsets an operation may touch.

Two facts carry every later proof: a field reads back what was written to it,
reduced to its width, and a write leaves every disjoint field alone.
-/

namespace Ttntfs.Library.ByteMemory

/-- The contents of one buffer. -/
abbrev Mem := Nat → UInt8

/-- The `width` bytes from `off` on, least significant first. -/
def getLE (m : Mem) : Nat → Nat → Nat
  | 0, _ => 0
  | width + 1, off => (m off).toNat + 256 * getLE m width (off + 1)

/-- Store the low `width` bytes of `value` from `off` on. -/
def putLE (m : Mem) (width off value : Nat) : Mem := fun i =>
  if off ≤ i ∧ i < off + width then UInt8.ofNat (value / 256 ^ (i - off)) else m i

/-- Replace `n` bytes from `dst` on by the bytes of `source` from `src` on. The
source is read before anything is written, so overlapping ranges of one buffer
behave as a move. -/
def copyRange (m : Mem) (dst : Nat) (source : Mem) (src n : Nat) : Mem := fun i =>
  if dst ≤ i ∧ i < dst + n then source (src + (i - dst)) else m i

/-- Set `n` bytes from `off` on to one value. -/
def fillRange (m : Mem) (off n : Nat) (value : UInt8) : Mem := fun i =>
  if off ≤ i ∧ i < off + n then value else m i

/-- An all-zero buffer. -/
def zeros : Mem := fun _ => 0

/-- A field is bounded by its width. -/
theorem getLE_lt (m : Mem) (width off : Nat) : getLE m width off < 256 ^ width := by
  induction width generalizing off with
  | zero => simp [getLE]
  | succ width ih =>
    have byte : (m off).toNat < 256 := (m off).toNat_lt
    have rest := ih (off + 1)
    simp only [getLE, Nat.pow_succ]
    omega

/-- A field depends only on the bytes it covers. -/
theorem getLE_congr {m m' : Mem} {width off : Nat}
    (same : ∀ i, off ≤ i → i < off + width → m i = m' i) :
    getLE m width off = getLE m' width off := by
  induction width generalizing off with
  | zero => rfl
  | succ width ih =>
    have head : m off = m' off := same off (Nat.le_refl _) (by omega)
    have tail : getLE m width (off + 1) = getLE m' width (off + 1) :=
      ih (fun i lower upper => same i (by omega) (by omega))
    simp only [getLE, head, tail]

/-- A field of a memory that begins further on. -/
theorem getLE_shifted (m : Mem) (base width off : Nat) :
    getLE (fun i => m (base + i)) width off = getLE m width (base + off) := by
  induction width generalizing off with
  | zero => rfl
  | succ width ih => simp only [getLE, ih, Nat.add_assoc]

/-- A stored field occupies exactly its own bytes. -/
theorem putLE_outside {m : Mem} {width off value i : Nat}
    (outside : i < off ∨ off + width ≤ i) : putLE m width off value i = m i := by
  have missed : ¬ (off ≤ i ∧ i < off + width) := by omega
  simp [putLE, missed]

/-- Reading the bytes of a stored value from its `skip`-th byte on yields the
value shifted down by that many bytes. -/
theorem getLE_putLE_shift (m : Mem) (width skip off value : Nat) :
    getLE (putLE m (skip + width) off value) width (off + skip) =
      value / 256 ^ skip % 256 ^ width := by
  induction width generalizing skip with
  | zero => simp [getLE, Nat.mod_one]
  | succ width ih =>
    have head : putLE m (skip + (width + 1)) off value (off + skip) =
        UInt8.ofNat (value / 256 ^ skip) := by
      have inside : off ≤ off + skip ∧ off + skip < off + (skip + (width + 1)) := by omega
      simp only [putLE, inside, and_self, if_true, Nat.add_sub_cancel_left]
    have tail : getLE (putLE m (skip + (width + 1)) off value) width (off + skip + 1) =
        value / 256 ^ (skip + 1) % 256 ^ width := by
      have shifted := ih (skip + 1)
      rwa [show skip + 1 + width = skip + (width + 1) by omega,
        show off + (skip + 1) = off + skip + 1 by omega] at shifted
    have divided : value / 256 ^ (skip + 1) = value / 256 ^ skip / 256 := by
      rw [Nat.pow_succ, Nat.div_div_eq_div_mul]
    have powered : 256 ^ (width + 1) = 256 * 256 ^ width := by rw [Nat.pow_succ, Nat.mul_comm]
    simp only [getLE, head, tail, divided, powered, UInt8.toNat_ofNat', Nat.mod_mul,
      Nat.reducePow]

/-- A field reads back what was stored, reduced to its width. -/
theorem getLE_putLE (m : Mem) (width off value : Nat) :
    getLE (putLE m width off value) width off = value % 256 ^ width := by
  simpa using getLE_putLE_shift m width 0 off value

/-- A value that fits is read back exactly. -/
theorem getLE_putLE_of_lt {m : Mem} {width off value : Nat} (fits : value < 256 ^ width) :
    getLE (putLE m width off value) width off = value := by
  rw [getLE_putLE, Nat.mod_eq_of_lt fits]

/-- A stored field leaves every disjoint field unchanged. -/
theorem getLE_putLE_disjoint {m : Mem} {width off value width' off' : Nat}
    (disjoint : off' + width' ≤ off ∨ off + width ≤ off') :
    getLE (putLE m width off value) width' off' = getLE m width' off' :=
  getLE_congr (fun i _ _ => putLE_outside (by omega))

/-- Stores to disjoint fields commute. -/
theorem putLE_comm {m : Mem} {width off value width' off' value' : Nat}
    (disjoint : off' + width' ≤ off ∨ off + width ≤ off') :
    putLE (putLE m width off value) width' off' value' =
      putLE (putLE m width' off' value') width off value := by
  funext i
  by_cases inside : off' ≤ i ∧ i < off' + width'
  · have missed : ¬ (off ≤ i ∧ i < off + width) := by omega
    simp [putLE, inside, missed]
  · simp [putLE, inside]

/-- A store commutes with a fill of a disjoint range. -/
theorem putLE_fillRange_comm {m : Mem} {width off value off' n : Nat} {byte : UInt8}
    (disjoint : off' + n ≤ off ∨ off + width ≤ off') :
    putLE (fillRange m off' n byte) width off value =
      fillRange (putLE m width off value) off' n byte := by
  funext i
  by_cases inside : off' ≤ i ∧ i < off' + n
  · have missed : ¬ (off ≤ i ∧ i < off + width) := by omega
    simp [putLE, fillRange, inside, missed]
  · simp [putLE, fillRange, inside]

/-- A copy changes nothing outside its destination. -/
theorem copyRange_outside {m source : Mem} {dst src n i : Nat}
    (outside : i < dst ∨ dst + n ≤ i) : copyRange m dst source src n i = m i := by
  have missed : ¬ (dst ≤ i ∧ i < dst + n) := by omega
  simp [copyRange, missed]

/-- A copied byte is the source byte at the same distance. -/
theorem copyRange_inside {m source : Mem} {dst src n i : Nat}
    (lower : dst ≤ i) (upper : i < dst + n) :
    copyRange m dst source src n i = source (src + (i - dst)) := by
  simp [copyRange, lower, upper]

/-- A field inside a copied range is the source field at the same distance. -/
theorem getLE_copyRange_inside {m source : Mem} {dst src n width off : Nat}
    (lower : dst ≤ off) (upper : off + width ≤ dst + n) :
    getLE (copyRange m dst source src n) width off = getLE source width (src + (off - dst)) := by
  induction width generalizing off with
  | zero => rfl
  | succ width ih =>
    have head : copyRange m dst source src n off = source (src + (off - dst)) :=
      copyRange_inside lower (by omega)
    have tail : getLE (copyRange m dst source src n) width (off + 1) =
        getLE source width (src + (off + 1 - dst)) :=
      ih (by omega) (by omega)
    simp only [getLE, head, tail]
    rw [show src + (off + 1 - dst) = src + (off - dst) + 1 by omega]

/-- A field outside a copied range is unchanged. -/
theorem getLE_copyRange_outside {m source : Mem} {dst src n width off : Nat}
    (disjoint : off + width ≤ dst ∨ dst + n ≤ off) :
    getLE (copyRange m dst source src n) width off = getLE m width off :=
  getLE_congr (fun i _ _ => copyRange_outside (by omega))

/-- A fill changes nothing outside its range. -/
theorem fillRange_outside {m : Mem} {off n i : Nat} {value : UInt8}
    (outside : i < off ∨ off + n ≤ i) : fillRange m off n value i = m i := by
  have missed : ¬ (off ≤ i ∧ i < off + n) := by omega
  simp [fillRange, missed]

/-- A filled byte has the fill value. -/
theorem fillRange_inside {m : Mem} {off n i : Nat} {value : UInt8}
    (lower : off ≤ i) (upper : i < off + n) : fillRange m off n value i = value := by
  simp [fillRange, lower, upper]

/-- A field outside a filled range is unchanged. -/
theorem getLE_fillRange_outside {m : Mem} {off n width off' : Nat} {value : UInt8}
    (disjoint : off' + width ≤ off ∨ off + n ≤ off') :
    getLE (fillRange m off n value) width off' = getLE m width off' :=
  getLE_congr (fun i _ _ => fillRange_outside (by omega))

/-- Every field of an all-zero buffer is zero. -/
theorem getLE_zeros (width off : Nat) : getLE zeros width off = 0 := by
  induction width generalizing off with
  | zero => rfl
  | succ width ih => simp [getLE, zeros, ih (off + 1)]

/-! ## Lists of fields -/

/-- A field with the value that is stored in it; the offset counts from some base. -/
structure Field where
  width : Nat
  off : Nat
  value : Nat

/-- Store fields one after the other. -/
def storeFields (m : Mem) (base : Nat) (fields : List Field) : Mem :=
  fields.foldl (fun m f => putLE m f.width (base + f.off) f.value) m

/-- Two fields have no byte in common. -/
def Field.Apart (f g : Field) : Prop := f.off + f.width ≤ g.off ∨ g.off + g.width ≤ f.off
  deriving Decidable

/-- Stored fields leave every other byte alone. -/
theorem storeFields_outside {m : Mem} {base i : Nat} {fields : List Field}
    (outside : ∀ f ∈ fields, i < base + f.off ∨ base + f.off + f.width ≤ i) :
    storeFields m base fields i = m i := by
  induction fields generalizing m with
  | nil => rfl
  | cons f fields ih =>
    rw [List.forall_mem_cons] at outside
    exact (ih outside.2).trans (putLE_outside outside.1)

/-- Stored fields leave every disjoint field unchanged. -/
theorem getLE_storeFields_outside {m : Mem} {base width off : Nat} {fields : List Field}
    (disjoint : ∀ f ∈ fields, off + width ≤ base + f.off ∨ base + f.off + f.width ≤ off) :
    getLE (storeFields m base fields) width off = getLE m width off := by
  refine getLE_congr fun i lower upper => storeFields_outside fun f member => ?_
  have := disjoint f member
  omega

/-- Each of several fields apart from one another reads back what was stored in it,
reduced to its width. -/
theorem getLE_storeFields {m : Mem} {base : Nat} {fields : List Field}
    (apart : fields.Pairwise Field.Apart) {f : Field} (member : f ∈ fields) :
    getLE (storeFields m base fields) f.width (base + f.off) = f.value % 256 ^ f.width := by
  induction fields generalizing m with
  | nil => cases member
  | cons g fields ih =>
    rw [List.pairwise_cons] at apart
    obtain rfl | later := List.mem_cons.mp member
    · have kept := @getLE_storeFields_outside (putLE m f.width (base + f.off) f.value) base f.width
        (base + f.off) fields fun g listed => by
          have := apart.1 g listed
          rw [Field.Apart] at this
          omega
      exact kept.trans (getLE_putLE m f.width (base + f.off) f.value)
    · exact ih apart.2 later

end Ttntfs.Library.ByteMemory
