import Ttntfs.Ntfs.MappingPairs

/-!
# The array that is built

The runs that are asked for are those of the run list from the first to the last vcn, cut
off at both ends. The buffer takes the longest beginning of them whose pairs and
terminator fit, and this is what `ntfs_mapping_pairs_build` leaves in it.
-/

namespace Ttntfs.Ntfs

open Ttntfs.Library.ByteMemory
open Ttntfs.Library.SignedBytes

section Bytes

variable {mem : Mem} {dst dstMax fuel i : Nat} {l n : Int}

@[simp] theorem storeByte_same (m : Mem) (off : Nat) (byte : UInt8) :
    storeByte m off byte off = byte := by
  simp [storeByte]

theorem storeByte_other {off a : Nat} (m : Mem) (byte : UInt8) (other : a ≠ off) :
    storeByte m off byte a = m a := by
  simp [storeByte, other]

/-- The number of rounds of the loop that writes the bytes of an integer. -/
def loopWidth (l : Int) : Nat :=
  if l / 256 ≠ 0 ∧ l / 256 ≠ -1 then loopWidth (l / 256) + 1 else 1
termination_by l.natAbs
decreasing_by omega

theorem loopWidth_pos (l : Int) : 0 < loopWidth l := by
  rw [loopWidth]
  split <;> omega

/-- The loop stops at the width that is needed or one byte before it, when the sign bit is
wrong. -/
theorem significantWidth_loop (l : Int) :
    significantWidth l = if FitsSigned (loopWidth l) l then loopWidth l else loopWidth l + 1 := by
  induction l using loopWidth.induct with
  | case1 l more ih =>
    have large : ¬ (-128 ≤ l ∧ l < 128) := by omega
    have positive := loopWidth_pos (l / 256)
    have same : FitsSigned (loopWidth (l / 256) + 1) l ↔ FitsSigned (loopWidth (l / 256)) (l / 256) := by
      rw [FitsSigned, FitsSigned, div_div_pow, Nat.sub_add_cancel positive, Nat.add_sub_cancel]
    rw [loopWidth, if_pos more, significantWidth_succ large, ih]
    by_cases fits : FitsSigned (loopWidth (l / 256)) (l / 256)
    · rw [if_pos fits, if_pos (same.mpr fits)]
    · rw [if_neg fits, if_neg (fun whole => fits (same.mp whole))]
  | case2 l last =>
    rw [loopWidth, if_neg last]
    by_cases small : -128 ≤ l ∧ l < 128
    · rw [significantWidth_one small, if_pos (by simpa [FitsSigned] using small)]
    · have top : -128 ≤ l / 256 ∧ l / 256 < 128 := by omega
      rw [significantWidth_succ small, significantWidth_one top,
        if_neg (by simpa [FitsSigned] using small)]

theorem div_loopWidth (l : Int) : l / 256 ^ loopWidth l = 0 ∨ l / 256 ^ loopWidth l = -1 := by
  induction l using loopWidth.induct with
  | case1 l more ih =>
    rw [loopWidth, if_pos more, ← div_div_pow]
    exact ih
  | case2 l last =>
    rw [loopWidth, if_neg last, pow_one]
    omega

theorem loopWidth_le (fits : FitsSigned (fuel + 1) l) : loopWidth l ≤ fuel + 1 := by
  have needed := significantWidth_le fits
  rw [significantWidth_loop] at needed
  split at needed <;> omega

/-- The loop writes the bytes of an integer when there is room for them. -/
theorem writeBytes_room (enough : loopWidth l ≤ fuel) (room : dst + loopWidth l ≤ dstMax + 1) :
    ∃ mem', writeBytes dstMax fuel mem dst l i = (mem', some (i + loopWidth l)) ∧
      (∀ a < dst, mem' a = mem a) ∧ ∀ k < loopWidth l, mem' (dst + k) = byteOf l k := by
  induction l using loopWidth.induct generalizing fuel mem dst i with
  | case1 l more ih =>
    rw [loopWidth, if_pos more] at enough room ⊢
    obtain ⟨fuel, rfl⟩ : ∃ rounds, fuel = rounds + 1 := ⟨fuel - 1, by omega⟩
    obtain ⟨mem', written, frame, bytes⟩ := @ih (storeByte mem dst (byteOf l 0))
      (dst + 1) fuel (i + 1) (by omega) (by omega)
    refine ⟨mem', ?_, ?_, ?_⟩
    · rw [writeBytes, if_neg (by omega), if_pos more, written]
      congr 2
      omega
    · intro a below
      rw [frame a (by omega), storeByte_other _ _ (by omega)]
    · intro k inside
      cases k with
      | zero => rw [Nat.add_zero, frame dst (by omega), storeByte_same]
      | succ k => rw [byteOf_succ, ← bytes k (by omega), Nat.add_right_comm, Nat.add_assoc]
  | case2 l last =>
    rw [loopWidth, if_neg last] at enough room ⊢
    obtain ⟨fuel, rfl⟩ : ∃ rounds, fuel = rounds + 1 := ⟨fuel - 1, by omega⟩
    refine ⟨storeByte mem dst (byteOf l 0), ?_, ?_, ?_⟩
    · rw [writeBytes, if_neg (by omega), if_neg last]
    · intro a below
      exact storeByte_other _ _ (by omega)
    · intro k inside
      obtain rfl : k = 0 := by omega
      exact storeByte_same _ _ _

/-- The loop stops when there is no room for the bytes. -/
theorem writeBytes_full (full : dstMax + 1 < dst + loopWidth l) :
    ∃ mem', writeBytes dstMax fuel mem dst l i = (mem', none) ∧ ∀ a < dst, mem' a = mem a := by
  induction l using loopWidth.induct generalizing fuel mem dst i with
  | case1 l more ih =>
    rw [loopWidth, if_pos more] at full
    cases fuel with
    | zero => exact ⟨mem, rfl, fun _ _ => rfl⟩
    | succ fuel =>
      by_cases behind : dst > dstMax
      · exact ⟨mem, by rw [writeBytes, if_pos behind], fun _ _ => rfl⟩
      · obtain ⟨mem', stopped, frame⟩ := @ih (storeByte mem dst (byteOf l 0))
          (dst + 1) fuel (i + 1) (by omega)
        refine ⟨mem', ?_, ?_⟩
        · rw [writeBytes, if_neg behind, if_pos more, stopped]
        · intro a below
          rw [frame a (by omega), storeByte_other _ _ (by omega)]
  | case2 l last =>
    rw [loopWidth, if_neg last] at full
    cases fuel with
    | zero => exact ⟨mem, rfl, fun _ _ => rfl⟩
    | succ fuel => exact ⟨mem, by rw [writeBytes, if_pos (by omega)], fun _ _ => rfl⟩

/-- The sign bit of the last byte of the loop is wrong just when the integer does not fit
into the bytes that are written. -/
theorem wrong_sign_iff (n : Int) :
    ((n < 0 ∧ 0 ≤ signedByte (byteOf n (loopWidth n - 1))) ∨
      (n > 0 ∧ signedByte (byteOf n (loopWidth n - 1)) < 0)) ↔ ¬ FitsSigned (loopWidth n) n := by
  have positive := loopWidth_pos n
  have top := div_loopWidth n
  have byte := byteOf_toNat n (loopWidth n - 1)
  have split := div_pow_succ n (loopWidth n - 1)
  rw [Nat.sub_add_cancel positive] at split
  have sign : 0 ≤ n / 256 ^ (loopWidth n - 1) ↔ 0 ≤ n := Int.ediv_nonneg_iff_of_pos (by positivity)
  have zero : n = 0 → n / 256 ^ (loopWidth n - 1) = 0 := by
    rintro rfl
    simp
  rw [FitsSigned, signedByte]
  split <;> omega

theorem signedAt_extra {mem' : Mem} (bytes : ∀ k < loopWidth n, mem' (dst + k) = byteOf n k)
    (byte : UInt8) (sign : byte = byteOf n (loopWidth n)) :
    SignedAt (storeByte mem' (dst + loopWidth n) byte) dst (loopWidth n + 1) n where
  some_byte := by omega
  fits := by
    have top := div_loopWidth n
    rw [FitsSigned, Nat.add_sub_cancel]
    omega
  bytes k inside := by
    by_cases last : k = loopWidth n
    · rw [last, storeByte_same, sign]
    · rw [storeByte_other _ _ (by omega)]
      exact bytes k (by omega)

/-- An integer is stored in the width it needs when there is room for it. -/
theorem ntfsWriteSignificantBytes_room (range : InS64 n)
    (room : dst + significantWidth n ≤ dstMax + 1) :
    ∃ mem', ntfsWriteSignificantBytes mem dst dstMax n = (mem', some (significantWidth n)) ∧
      (∀ a < dst, mem' a = mem a) ∧ SignedAt mem' dst (significantWidth n) n := by
  have positive := loopWidth_pos n
  have width := significantWidth_loop n
  have wrong := wrong_sign_iff n
  have top := div_loopWidth n
  have sign : 0 ≤ n / 256 ^ loopWidth n ↔ 0 ≤ n := Int.ediv_nonneg_iff_of_pos (by positivity)
  have loopRoom : dst + loopWidth n ≤ dstMax + 1 := by
    split at width <;> omega
  obtain ⟨mem', written, frame, bytes⟩ :=
    @writeBytes_room mem dst dstMax 8 0 n (loopWidth_le range.fits) loopRoom
  rw [Nat.zero_add] at written
  by_cases fits : FitsSigned (loopWidth n) n
  · rw [if_pos fits] at width
    refine ⟨mem', ?_, frame, ?_⟩
    · simp only [ntfsWriteSignificantBytes, written]
      rw [if_neg (fun bad => wrong.mp (.inl bad) fits), if_neg (fun bad => wrong.mp (.inr bad) fits),
        width]
    · rw [width]
      exact ⟨positive, fits, bytes⟩
  · rw [if_neg fits] at width
    have space : ¬ dst + loopWidth n > dstMax := by omega
    rw [width]
    have below (byte : UInt8) : ∀ a < dst, storeByte mem' (dst + loopWidth n) byte a = mem a := by
      intro a before
      rw [storeByte_other _ _ (by omega), frame a before]
    rcases wrong.mpr fits with negative | nonnegative
    · refine ⟨storeByte mem' (dst + loopWidth n) 255, ?_, below 255, signedAt_extra bytes 255 ?_⟩
      · simp only [ntfsWriteSignificantBytes, written]
        rw [if_pos negative, if_neg space]
      · have minus : n / 256 ^ loopWidth n = -1 := by omega
        rw [byteOf, minus]
        rfl
    · refine ⟨storeByte mem' (dst + loopWidth n) 0, ?_, below 0, signedAt_extra bytes 0 ?_⟩
      · simp only [ntfsWriteSignificantBytes, written]
        rw [if_neg (by omega), if_pos nonnegative, if_neg space]
      · have none_left : n / 256 ^ loopWidth n = 0 := by omega
        rw [byteOf, none_left]
        rfl

/-- Nothing below the destination changes when there is no room for an integer. -/
theorem ntfsWriteSignificantBytes_full (range : InS64 n)
    (full : dstMax + 1 < dst + significantWidth n) :
    ∃ mem', ntfsWriteSignificantBytes mem dst dstMax n = (mem', none) ∧
      ∀ a < dst, mem' a = mem a := by
  have width := significantWidth_loop n
  have wrong := wrong_sign_iff n
  by_cases loopFull : dstMax + 1 < dst + loopWidth n
  · obtain ⟨mem', stopped, frame⟩ := @writeBytes_full mem dst dstMax 8 0 n loopFull
    exact ⟨mem', by simp only [ntfsWriteSignificantBytes, stopped], frame⟩
  obtain ⟨mem', written, frame, _⟩ :=
    @writeBytes_room mem dst dstMax 8 0 n (loopWidth_le range.fits) (by omega)
  rw [Nat.zero_add] at written
  have unfit : ¬ FitsSigned (loopWidth n) n := by
    intro fits
    rw [if_pos fits] at width
    omega
  rw [if_neg unfit] at width
  have space : dst + loopWidth n > dstMax := by omega
  refine ⟨mem', ?_, frame⟩
  simp only [ntfsWriteSignificantBytes, written]
  rcases wrong.mpr unfit with negative | nonnegative
  · rw [if_pos negative, if_pos space]
  · rw [if_neg (by omega), if_pos nonnegative, if_pos space]

end Bytes

section Pairs

variable {mem mem' : Mem} {dst dstMax : Nat} {length : Int} {change : Option Int}

/-- The number of bytes of a change of the lcn. -/
def changeWidth : Option Int → Nat
  | none => 0
  | some change => significantWidth change

/-- The number of bytes of a mapping pair. -/
def pairSize (length : Int) (change : Option Int) : Nat :=
  significantWidth length + changeWidth change + 1

/-- A mapping pair stands at an offset. -/
structure PairAt (m : Mem) (off : Nat) (length : Int) (change : Option Int) : Prop where
  header : m off = UInt8.ofNat (changeWidth change <<< 4 ||| significantWidth length)
  length_field : SignedAt m (off + 1) (significantWidth length) length
  change_field : ∀ value, change = some value →
    SignedAt m (off + 1 + significantWidth length) (significantWidth value) value

theorem PairAt.congr (pair : PairAt mem dst length change)
    (same : ∀ a < dst + pairSize length change, mem' a = mem a) :
    PairAt mem' dst length change where
  header := by
    rw [same dst (by rw [pairSize]; omega)]
    exact pair.header
  length_field := pair.length_field.congr fun a _ below => same a (by rw [pairSize]; omega)
  change_field value stored := (pair.change_field value stored).congr fun a _ below => by
    apply same
    rw [pairSize, stored, changeWidth]
    omega

/-- A pair is written when there is room for it and the byte behind it. -/
theorem writePair_room (lengthRange : InS64 length)
    (changeRange : ∀ value, change = some value → InS64 value)
    (room : dst + pairSize length change ≤ dstMax) :
    ∃ mem', writePair mem dst dstMax length change = (mem', some (dst + pairSize length change)) ∧
      (∀ a < dst, mem' a = mem a) ∧ PairAt mem' dst length change := by
  rw [pairSize] at room ⊢
  obtain ⟨lengthMem, written, frame, lengthAt⟩ :=
    @ntfsWriteSignificantBytes_room mem (dst + 1) dstMax length lengthRange (by omega)
  cases change with
  | none =>
    have behind : ¬ dst + significantWidth length + 0 + 1 > dstMax := by
      rw [changeWidth] at room
      omega
    refine ⟨storeByte lengthMem dst (UInt8.ofNat (0 <<< 4 ||| significantWidth length)), ?_, ?_, ?_, ?_, ?_⟩
    · simp only [writePair, written]
      rw [if_neg behind, changeWidth]
      rfl
    · intro a below
      rw [storeByte_other _ _ (by omega), frame a (by omega)]
    · exact storeByte_same _ _ _
    · exact lengthAt.congr fun a above _ => storeByte_other _ _ (by omega)
    · intro value stored
      cases stored
  | some value =>
    rw [changeWidth] at room ⊢
    obtain ⟨changeMem, stored, changeFrame, changeAt⟩ :=
      @ntfsWriteSignificantBytes_room lengthMem (dst + 1 + significantWidth length) dstMax value
        (changeRange value rfl) (by omega)
    have behind : ¬ dst + significantWidth length + significantWidth value + 1 > dstMax := by omega
    refine ⟨storeByte changeMem dst
      (UInt8.ofNat (significantWidth value <<< 4 ||| significantWidth length)), ?_, ?_, ?_, ?_, ?_⟩
    · simp only [writePair, written, stored]
      rw [if_neg behind, Nat.add_assoc dst, Nat.add_assoc dst]
    · intro a below
      rw [storeByte_other _ _ (by omega), changeFrame a (by omega), frame a (by omega)]
    · exact storeByte_same _ _ _
    · apply lengthAt.congr
      intro a above below
      rw [storeByte_other _ _ (by omega), changeFrame a (by omega)]
    · rintro _ ⟨⟩
      exact changeAt.congr fun a above _ => storeByte_other _ _ (by omega)

/-- Nothing before a pair changes when there is no room for it. -/
theorem writePair_full (lengthRange : InS64 length)
    (changeRange : ∀ value, change = some value → InS64 value)
    (full : dstMax < dst + pairSize length change) :
    ∃ mem', writePair mem dst dstMax length change = (mem', none) ∧ ∀ a < dst, mem' a = mem a := by
  rw [pairSize] at full
  by_cases lengthFull : dstMax + 1 < dst + 1 + significantWidth length
  · obtain ⟨mem', stopped, frame⟩ :=
      @ntfsWriteSignificantBytes_full mem (dst + 1) dstMax length lengthRange lengthFull
    refine ⟨mem', ?_, fun a below => frame a (by omega)⟩
    simp only [writePair, stopped]
  obtain ⟨lengthMem, written, frame, _⟩ :=
    @ntfsWriteSignificantBytes_room mem (dst + 1) dstMax length lengthRange (by omega)
  cases change with
  | none =>
    rw [changeWidth] at full
    refine ⟨lengthMem, ?_, fun a below => frame a (by omega)⟩
    simp only [writePair, written]
    rw [if_pos (by omega)]
  | some value =>
    rw [changeWidth] at full
    have range := changeRange value rfl
    by_cases changeFull : dstMax + 1 < dst + 1 + significantWidth length + significantWidth value
    · obtain ⟨mem', stopped, changeFrame⟩ := @ntfsWriteSignificantBytes_full lengthMem
        (dst + 1 + significantWidth length) dstMax value range changeFull
      refine ⟨mem', ?_, ?_⟩
      · simp only [writePair, written, stopped]
      · intro a below
        rw [changeFrame a (by omega), frame a (by omega)]
    · obtain ⟨mem', stored, changeFrame, _⟩ := @ntfsWriteSignificantBytes_room lengthMem
        (dst + 1 + significantWidth length) dstMax value range (by omega)
      refine ⟨mem', ?_, ?_⟩
      · simp only [writePair, written, stored]
        rw [if_pos (by omega)]
      · intro a below
        rw [changeFrame a (by omega), frame a (by omega)]

end Pairs

/-- The change of the lcn that is stored for a run behind a stored lcn. -/
def runChange (vol : PairsVolume) (prevLcn : Int) (run : RunlistElement) : Option Int :=
  if storesLcn vol run then some (s64 (run.lcn - prevLcn)) else none

/-- The lcn that counts as the previous one behind a run. -/
def lcnBehind (vol : PairsVolume) (prevLcn : Int) (run : RunlistElement) : Int :=
  if storesLcn vol run then run.lcn else prevLcn

/-- The number of bytes of the mapping pair of a run. -/
def runSize (vol : PairsVolume) (prevLcn : Int) (run : RunlistElement) : Nat :=
  pairSize run.length (runChange vol prevLcn run)

/-- The longest beginning of a list of runs whose pairs fit into a number of bytes. -/
def fittingRuns (vol : PairsVolume) : Nat → Int → List RunlistElement → List RunlistElement
  | _, _, [] => []
  | room, prevLcn, run :: rest =>
    if runSize vol prevLcn run ≤ room then
      run :: fittingRuns vol (room - runSize vol prevLcn run) (lcnBehind vol prevLcn run) rest
    else []

/-- The runs of a run list up to a last vcn, or all of them for `-1`. -/
def cappedRuns (lastVcn : Int) : List RunlistElement → List RunlistElement
  | [] => []
  | element :: rest =>
    if element.length = 0 then []
    else if 0 ≤ lastVcn ∧ lastVcn < element.vcn + element.length then
      [{ element with length := (lastVcn + 1 - element.vcn).toNat }]
    else element :: cappedRuns lastVcn rest

/-- A run without the clusters before a vcn. -/
def trimmed (firstVcn : Nat) (element : RunlistElement) : RunlistElement where
  vcn := firstVcn
  lcn := if 0 ≤ element.lcn then element.lcn + (firstVcn - element.vcn : Nat) else element.lcn
  length := element.length - (firstVcn - element.vcn)

/-- The runs of a run list from a first to a last vcn. -/
def wantedRuns (firstVcn : Nat) (lastVcn : Int) (rl : List RunlistElement) : List RunlistElement :=
  match rlSeek firstVcn rl with
  | [] => []
  | element :: rest => cappedRuns lastVcn (trimmed firstVcn element :: rest)

/-- The array of mapping pairs of some runs stands at an offset, with its terminator. -/
def ArrayAt (vol : PairsVolume) (m : Mem) : Nat → Int → List RunlistElement → Prop
  | off, _, [] => m off = 0
  | off, prevLcn, run :: rest =>
    PairAt m off run.length (runChange vol prevLcn run) ∧
      ArrayAt vol m (off + runSize vol prevLcn run) (lcnBehind vol prevLcn run) rest

/-- A run whose numbers are those of a volume: it is a hole, or its clusters have lcns. -/
structure Encodable (element : RunlistElement) : Prop where
  lcn : element.lcn = lcnHole ∨ 0 ≤ element.lcn
  clusters : element.lcn + element.length ≤ 2 ^ 63
  vcns : element.vcn + element.length < 2 ^ 63

section Runs

variable {vol : PairsVolume} {mem : Mem} {dst dstMax deCnt start : Nat} {prevLcn lastVcn : Int}
  {element : RunlistElement} {rl rest : List RunlistElement}

theorem inS64_s64 (n : Int) : InS64 (s64 n) := by
  have lower := @Int.le_bmod n (2 ^ 64) (by norm_num)
  have upper := @Int.bmod_lt n (2 ^ 64) (by norm_num)
  rw [s64]
  constructor
  · norm_num at lower ⊢
    omega
  · norm_num at upper ⊢
    omega

theorem runChange_range (value : Int) (stored : runChange vol prevLcn element = some value) :
    InS64 value := by
  rw [runChange] at stored
  split at stored
  · cases stored
    exact inS64_s64 _
  · cases stored

theorem writeRun_room {run : RunlistElement} (short : run.length < 2 ^ 63)
    (room : dst + runSize vol prevLcn run ≤ dstMax) :
    ∃ mem', writePair mem dst dstMax run.length (runChange vol prevLcn run) =
        (mem', some (dst + runSize vol prevLcn run)) ∧
      (∀ a < dst, mem' a = mem a) ∧ PairAt mem' dst run.length (runChange vol prevLcn run) :=
  writePair_room ⟨by omega, by omega⟩ runChange_range room

theorem writeRun_full {run : RunlistElement} (short : run.length < 2 ^ 63)
    (full : dstMax < dst + runSize vol prevLcn run) :
    ∃ mem', writePair mem dst dstMax run.length (runChange vol prevLcn run) = (mem', none) ∧
      ∀ a < dst, mem' a = mem a :=
  writePair_full ⟨by omega, by omega⟩ runChange_range full

/-- A run up to the last vcn that is wanted. -/
def cappedRun (lastVcn : Int) (element next : RunlistElement) : RunlistElement :=
  { element with
    length := if endsInside lastVcn next then (lastVcn + 1 - element.vcn).toNat else element.length }

theorem cappedLength_eq {next : RunlistElement} (wanted : lastVcn = -1 ∨ (element.vcn : Int) ≤ lastVcn)
    (follows : next.vcn = element.vcn + element.length) :
    cappedLength lastVcn element next = (cappedRun lastVcn element next).length := by
  rw [cappedLength, cappedRun]
  cases ends : endsInside lastVcn next with
  | false => simp
  | true =>
    have inside : 0 ≤ lastVcn ∧ lastVcn < next.vcn := by simpa [endsInside] using ends
    by_cases cut : next.vcn > lastVcn + 1
    · rw [if_pos ⟨rfl, cut⟩, if_pos rfl, Int.toNat_of_nonneg (by omega)]
    · rw [if_neg (fun both => cut both.2), if_pos rfl, Int.toNat_of_nonneg (by omega)]
      omega

theorem cappedRun_length_le {next : RunlistElement}
    (follows : next.vcn = element.vcn + element.length) :
    (cappedRun lastVcn element next).length ≤ element.length := by
  rw [cappedRun]
  cases ends : endsInside lastVcn next with
  | false => simp
  | true =>
    have inside : 0 ≤ lastVcn ∧ lastVcn < next.vcn := by simpa [endsInside] using ends
    simp only [if_true]
    omega

theorem cappedRuns_cons {next : RunlistElement} (some_cluster : element.length ≠ 0)
    (follows : next.vcn = element.vcn + element.length) :
    cappedRuns lastVcn (element :: next :: rest) = cappedRun lastVcn element next ::
      (if endsInside lastVcn next then [] else cappedRuns lastVcn (next :: rest)) := by
  rw [cappedRuns, if_neg some_cluster, cappedRun]
  cases ends : endsInside lastVcn next with
  | true =>
    have inside : 0 ≤ lastVcn ∧ lastVcn < next.vcn := by simpa [endsInside] using ends
    rw [if_pos ⟨inside.1, by omega⟩]
    simp
  | false =>
    have outside : ¬ (0 ≤ lastVcn ∧ lastVcn < next.vcn) := by
      intro inside
      rw [endsInside, decide_eq_true inside.1, decide_eq_true inside.2] at ends
      cases ends
    rw [if_neg (by omega)]
    simp

theorem cappedRuns_ne_nil (some_cluster : element.length ≠ 0) :
    cappedRuns lastVcn (element :: rest) ≠ [] := by
  rw [cappedRuns, if_neg some_cluster]
  split <;> exact List.cons_ne_nil _ _

theorem Encodable.supported (code : Encodable element) :
    ¬ element.lcn < lcnHole ∧ element.lcn ≠ lcnDelalloc := by
  have lcn := code.lcn
  rw [lcnHole] at lcn ⊢
  rw [lcnDelalloc]
  omega

/-- One full run: its pair is written, and then the array ends or the next run follows. -/
theorem buildRuns_cons {next : RunlistElement} {others : List RunlistElement}
    (some_cluster : element.length ≠ 0) (code : Encodable element)
    (wanted : lastVcn = -1 ∨ (element.vcn : Int) ≤ lastVcn)
    (follows : next.vcn = element.vcn + element.length) :
    buildRuns vol dstMax lastVcn (element :: next :: others) mem dst prevLcn deCnt =
      match writePair mem dst dstMax (cappedRun lastVcn element next).length
        (runChange vol prevLcn (cappedRun lastVcn element next)) with
      | (mem, none) => endArray mem dst (.enospc element.vcn (element :: next :: others))
      | (mem, some dstNext) =>
        if endsInside lastVcn next then
          endArray mem dstNext (.success next.vcn (next :: others) deCnt)
        else buildRuns vol dstMax lastVcn (next :: others) mem dstNext
          (lcnBehind vol prevLcn (cappedRun lastVcn element next)) deCnt := by
  obtain ⟨supported, real⟩ := code.supported
  rw [buildRuns, if_neg some_cluster, if_neg supported, ← cappedLength_eq wanted follows]
  simp only [real, and_false, if_false]
  rfl

/-- What is left in the buffer by the loop over the full runs. -/
structure Leaves (vol : PairsVolume) (mem mem' : Mem) (dst : Nat) (prevLcn : Int) (start : Nat)
    (runs fit : List RunlistElement) (outcome : BuildOutcome) : Prop where
  frame : ∀ a < dst, mem' a = mem a
  array : ArrayAt vol mem' dst prevLcn fit
  success : fit = runs → ∃ stopVcn stopRl count, outcome = .success stopVcn stopRl count
  enospc : fit ≠ runs → ∃ stopRl, outcome = .enospc (start + rlClusters fit) stopRl

theorem leaves_nothing {mem' : Mem} {runs : List RunlistElement} {outcome : BuildOutcome}
    (frame : ∀ a < dst, mem' a = mem a)
    (success : [] = runs → ∃ stopVcn stopRl count, outcome = .success stopVcn stopRl count)
    (enospc : [] ≠ runs → ∃ stopRl, outcome = .enospc start stopRl) :
    Leaves vol mem (storeByte mem' dst 0) dst prevLcn start runs [] outcome where
  frame a below := by
    rw [storeByte_other _ _ (by omega), frame a below]
  array := storeByte_same _ _ _
  success := success
  enospc := by simpa [rlClusters] using enospc

theorem leaves_pair {pairMem mem' : Mem} {run : RunlistElement} {runs fit : List RunlistElement}
    {outcome : BuildOutcome} (frame : ∀ a < dst, pairMem a = mem a)
    (pair : PairAt pairMem dst run.length (runChange vol prevLcn run))
    (others : Leaves vol pairMem mem' (dst + runSize vol prevLcn run) (lcnBehind vol prevLcn run)
      (start + run.length) runs fit outcome) :
    Leaves vol mem mem' dst prevLcn start (run :: runs) (run :: fit) outcome where
  frame a below := by
    rw [others.frame a (by rw [runSize, pairSize]; omega), frame a below]
  array := ⟨pair.congr others.frame, others.array⟩
  success whole := others.success (by simpa using whole)
  enospc part := by
    obtain ⟨stopRl, stopped⟩ := others.enospc (by simpa using part)
    exact ⟨stopRl, by rw [stopped, rlClusters_cons, Nat.add_assoc]⟩

/-- The full runs: the buffer takes the longest beginning of the runs that fits. -/
theorem buildRuns_leaves (valid : RlFrom start rl)
    (encodable : ∀ element ∈ rl, element.length ≠ 0 → Encodable element)
    (wanted : lastVcn = -1 ∨ (start : Int) ≤ lastVcn) (inside : dst ≤ dstMax) :
    ∃ mem' outcome, buildRuns vol dstMax lastVcn rl mem dst prevLcn deCnt = (mem', outcome) ∧
      Leaves vol mem mem' dst prevLcn start (cappedRuns lastVcn rl)
        (fittingRuns vol (dstMax - dst) prevLcn (cappedRuns lastVcn rl)) outcome := by
  induction valid generalizing mem dst prevLcn deCnt with
  | @terminator element start first ends negative =>
    refine ⟨_, _, by rw [buildRuns, if_pos ends, endArray], ?_⟩
    rw [cappedRuns, if_pos ends, fittingRuns]
    exact leaves_nothing (fun _ _ => rfl) (fun _ => ⟨_, _, _, rfl⟩) (fun part => absurd rfl part)
  | @run element rest start first some_cluster others ih =>
    obtain ⟨next, tail, rfl, nextStart⟩ := others.head
    have some_length : element.length ≠ 0 := by omega
    have code := encodable element (by simp) some_length
    have follows : next.vcn = element.vcn + element.length := by omega
    have shorter := @cappedRun_length_le lastVcn element next follows
    have short : (cappedRun lastVcn element next).length < 2 ^ 63 := by
      have bound := code.vcns
      omega
    rw [buildRuns_cons some_length code (by omega) follows, cappedRuns_cons some_length follows,
      fittingRuns]
    by_cases room : runSize vol prevLcn (cappedRun lastVcn element next) ≤ dstMax - dst
    · obtain ⟨pairMem, written, frame, pair⟩ :=
        @writeRun_room vol mem dst dstMax prevLcn _ short (by omega)
      rw [if_pos room, written]
      cases ends : endsInside lastVcn next with
      | true =>
        refine ⟨_, _, rfl, leaves_pair frame pair ?_⟩
        exact leaves_nothing (fun _ _ => rfl) (fun _ => ⟨_, _, _, rfl⟩) (fun part => absurd rfl part)
      | false =>
        have whole : (cappedRun lastVcn element next).length = element.length := by
          simp [cappedRun, ends]
        have onward : lastVcn = -1 ∨ ((start + element.length : Nat) : Int) ≤ lastVcn := by
          have outside : ¬ (0 ≤ lastVcn ∧ lastVcn < next.vcn) := by
            simpa [endsInside] using ends
          omega
        obtain ⟨mem', outcome, built, leaves⟩ := @ih pairMem
          (dst + runSize vol prevLcn (cappedRun lastVcn element next)) deCnt
          (lcnBehind vol prevLcn (cappedRun lastVcn element next))
          (fun later listed => encodable later (by simp [listed])) onward (by omega)
        refine ⟨mem', outcome, built, leaves_pair frame pair ?_⟩
        rw [whole, Nat.sub_sub]
        exact leaves
    · obtain ⟨mem', stopped, frame⟩ :=
        @writeRun_full vol mem dst dstMax prevLcn _ short (by omega)
      rw [if_neg room, stopped]
      refine ⟨_, _, rfl, leaves_nothing frame (fun whole => nomatch whole) ?_⟩
      intro part
      exact ⟨element :: next :: tail, by rw [first]⟩

section Partial

variable {firstVcn : Nat}

theorem Encodable.trimmed (code : Encodable element) (lower : element.vcn ≤ firstVcn)
    (upper : firstVcn < element.vcn + element.length) : Encodable (trimmed firstVcn element) where
  lcn := by
    have lcn := code.lcn
    simp only [Ntfs.trimmed]
    split <;> omega
  clusters := by
    have clusters := code.clusters
    simp only [Ntfs.trimmed]
    split <;> omega
  vcns := by
    have vcns := code.vcns
    simp only [Ntfs.trimmed]
    omega

theorem RlFrom.trimmed (valid : RlFrom element.vcn (element :: rest)) (lower : element.vcn ≤ firstVcn)
    (upper : firstVcn < element.vcn + element.length) :
    RlFrom firstVcn (trimmed firstVcn element :: rest) := by
  cases valid with
  | terminator _ ends _ => omega
  | run _ _ others =>
    refine RlFrom.run (by rw [Ntfs.trimmed]) ?_ ?_
    · simp only [Ntfs.trimmed]
      omega
    · have same : firstVcn + (Ntfs.trimmed firstVcn element).length = element.vcn + element.length := by
        simp only [Ntfs.trimmed]
        omega
      rw [same]
      exact others

/-- The partial run is written as the run without its beginning, up to where the encoding
stops when there is no room for it. -/
theorem buildPartial_eq {next : RunlistElement} {others : List RunlistElement} (code : Encodable element)
    (lower : element.vcn ≤ firstVcn) (upper : firstVcn < element.vcn + element.length)
    (wanted : lastVcn = -1 ∨ (firstVcn : Int) ≤ lastVcn)
    (follows : next.vcn = element.vcn + element.length) :
    buildPartial vol mem dst dstMax firstVcn lastVcn element (next :: others) =
      match writePair mem dst dstMax (cappedRun lastVcn (trimmed firstVcn element) next).length
        (runChange vol 0 (cappedRun lastVcn (trimmed firstVcn element) next)) with
      | (mem, none) => endArray mem dst (.enospc element.vcn (element :: next :: others))
      | (mem, some dstNext) =>
        if endsInside lastVcn next then
          endArray mem dstNext (.success next.vcn (next :: others) 0)
        else buildRuns vol dstMax lastVcn (next :: others) mem dstNext
          (lcnBehind vol 0 (cappedRun lastVcn (trimmed firstVcn element) next)) 0 := by
  have bounds := code.clusters
  have vcns := code.vcns
  have small : InS64 (trimmed firstVcn element).lcn := by
    have trim := code.trimmed lower upper
    have clusters := trim.clusters
    have lcn := trim.lcn
    have some_cluster : 0 < (trimmed firstVcn element).length := by
      simp only [trimmed]
      omega
    rw [lcnHole] at lcn
    constructor <;> omega
  have shift : ((firstVcn - element.vcn : Nat) : Int) = firstVcn - element.vcn := by omega
  have lcn : (if 0 ≤ element.lcn then s64 (element.lcn + ((firstVcn : Int) - element.vcn)) else element.lcn) =
      (trimmed firstVcn element).lcn := by
    simp only [trimmed, shift]
    split
    · exact s64_of_range ⟨by omega, by omega⟩
    · rfl
  have length : cappedLength lastVcn element next - ((firstVcn : Int) - element.vcn) =
      (cappedRun lastVcn (trimmed firstVcn element) next).length := by
    rw [cappedLength_eq (by omega) follows, cappedRun, cappedRun]
    simp only [trimmed]
    cases ends : endsInside lastVcn next with
    | true =>
      have inside : 0 ≤ lastVcn ∧ lastVcn < next.vcn := by simpa [endsInside] using ends
      simp only [if_true]
      omega
    | false =>
      simp only [Bool.false_eq_true, if_false]
      omega
  have stores : storesLcn vol (cappedRun lastVcn (trimmed firstVcn element) next) = storesLcn vol element := by
    simp only [storesLcn, cappedRun, trimmed]
    congr 2
    split
    · rw [eq_iff_iff]
      omega
    · rfl
  have same : (cappedRun lastVcn (trimmed firstVcn element) next).lcn = (trimmed firstVcn element).lcn := by
    rw [cappedRun]
  rcases wrote : writePair mem dst dstMax (cappedRun lastVcn (trimmed firstVcn element) next).length
    (runChange vol 0 (cappedRun lastVcn (trimmed firstVcn element) next)) with ⟨after, _ | dstNext⟩
  all_goals
    simp only [runChange, stores, same, sub_zero, s64_of_range small] at wrote
    rw [buildPartial, if_neg code.supported.1]
    simp only [lcn, length, wrote, lcnBehind, stores, same]

/-- The partial run: when there is room for it the runs from it on are written, and
otherwise the encoding stops before it. -/
theorem buildPartial_leaves (valid : RlFrom element.vcn (element :: rest))
    (encodable : ∀ run ∈ element :: rest, run.length ≠ 0 → Encodable run)
    (lower : element.vcn ≤ firstVcn) (upper : firstVcn < element.vcn + element.length)
    (wanted : lastVcn = -1 ∨ (firstVcn : Int) ≤ lastVcn) (inside : dst ≤ dstMax) :
    ∃ mem' outcome, buildPartial vol mem dst dstMax firstVcn lastVcn element rest = (mem', outcome) ∧
      ((fittingRuns vol (dstMax - dst) 0 (cappedRuns lastVcn (trimmed firstVcn element :: rest)) = [] ∧
          mem' dst = 0 ∧ ∃ stopRl, outcome = .enospc element.vcn stopRl) ∨
        (fittingRuns vol (dstMax - dst) 0 (cappedRuns lastVcn (trimmed firstVcn element :: rest)) ≠ [] ∧
          Leaves vol mem mem' dst 0 firstVcn (cappedRuns lastVcn (trimmed firstVcn element :: rest))
            (fittingRuns vol (dstMax - dst) 0 (cappedRuns lastVcn (trimmed firstVcn element :: rest)))
            outcome)) := by
  cases valid with
  | terminator _ ends _ => omega
  | run first some_cluster others =>
    obtain ⟨next, tail, rfl, nextStart⟩ := others.head
    have code := encodable element (by simp) (by omega)
    have trim := code.trimmed lower upper
    have whole := (RlFrom.run first some_cluster others).trimmed lower upper
    have some_length : (trimmed firstVcn element).length ≠ 0 := by
      simp only [trimmed]
      omega
    have follows : next.vcn = (trimmed firstVcn element).vcn + (trimmed firstVcn element).length := by
      simp only [trimmed]
      omega
    have shorter := @cappedRun_length_le lastVcn (trimmed firstVcn element) next follows
    have short : (cappedRun lastVcn (trimmed firstVcn element) next).length < 2 ^ 63 := by
      have bound := trim.vcns
      omega
    rw [buildPartial_eq code lower upper wanted nextStart]
    by_cases room : runSize vol 0 (cappedRun lastVcn (trimmed firstVcn element) next) ≤ dstMax - dst
    · obtain ⟨mem', outcome, built, leaves⟩ := @buildRuns_leaves vol mem dst dstMax 0 firstVcn 0 lastVcn _
        whole (by
          intro run listed
          rcases List.mem_cons.mp listed with rfl | listed
          · exact fun _ => trim
          · exact encodable run (by simp [listed])) wanted inside
      rw [buildRuns_cons some_length trim (by simpa [trimmed] using wanted) follows] at built
      obtain ⟨pairMem, written, _⟩ := @writeRun_room vol mem dst dstMax 0 _ short (by omega)
      rw [written] at built ⊢
      refine ⟨mem', outcome, built, .inr ⟨?_, leaves⟩⟩
      rw [cappedRuns_cons some_length follows, fittingRuns, if_pos room]
      exact List.cons_ne_nil _ _
    · obtain ⟨mem', stopped, frame⟩ := @writeRun_full vol mem dst dstMax 0 _ short (by omega)
      rw [stopped]
      refine ⟨_, _, rfl, .inl ⟨?_, storeByte_same _ _ _, _, rfl⟩⟩
      rw [cappedRuns_cons some_length follows, fittingRuns, if_neg room]

end Partial

end Runs

/-- A run list of a volume: its runs follow one another, and each is a hole or has lcns. -/
structure ValidRunlist (start : Nat) (rl : List RunlistElement) : Prop where
  contiguous : RlFrom start rl
  encodable : ∀ element ∈ rl, element.length ≠ 0 → Encodable element

/-- Whether a vcn is the first of its run. -/
def BeginsRun (firstVcn : Nat) (rl : List RunlistElement) : Prop :=
  ∃ element ∈ (rlSeek firstVcn rl).head?, element.vcn = firstVcn

section Build

variable {vol : PairsVolume} {mem : Mem} {dst dstLen start firstVcn : Nat} {lastVcn : Int}
  {rl : List RunlistElement}

/-- The array that is built: the pairs of the runs that are wanted as far as there is room
for them, and where the encoding stops. -/
structure Builds (vol : PairsVolume) (mem' : Mem) (dst firstVcn : Nat)
    (rl runs fit : List RunlistElement) (outcome : BuildOutcome) : Prop where
  array : ArrayAt vol mem' dst 0 fit
  success : fit = runs → ∃ stopVcn stopRl count, outcome = .success stopVcn stopRl count
  enospc : fit ≠ runs → BeginsRun firstVcn rl ∨ fit ≠ [] →
    ∃ stopRl, outcome = .enospc (firstVcn + rlClusters fit) stopRl
  /-- A partial run for which there is no room is left with the vcn of its beginning. -/
  before : ¬ BeginsRun firstVcn rl → fit = [] →
    ∃ stopVcn stopRl, stopVcn < firstVcn ∧ outcome = .enospc stopVcn stopRl

/-- What `ntfs_mapping_pairs_build` does with a valid run list. -/
theorem ntfsMappingPairsBuild_builds (valid : ValidRunlist start rl) (lower : start ≤ firstVcn)
    (inside : firstVcn < start + rlClusters rl) (wanted : lastVcn = -1 ∨ (firstVcn : Int) ≤ lastVcn)
    (room : 1 ≤ dstLen) :
    ∃ mem' outcome, ntfsMappingPairsBuild vol mem dst dstLen rl firstVcn lastVcn = (mem', outcome) ∧
      Builds vol mem' dst firstVcn rl (wantedRuns firstVcn lastVcn rl)
        (fittingRuns vol (dstLen - 1) 0 (wantedRuns firstVcn lastVcn rl)) outcome := by
  obtain ⟨element, rest, sought, suffix, below, above, within, _, _⟩ :=
    valid.contiguous.seek_inside lower inside
  have encodable : ∀ run ∈ element :: rest, run.length ≠ 0 → Encodable run :=
    fun run listed => valid.encodable run (within.subset listed)
  have some_list : rl ≠ [] := by
    rintro rfl
    simp at within
  have begins : BeginsRun firstVcn rl ↔ element.vcn = firstVcn := by
    simp [BeginsRun, sought]
  have size : dst + dstLen - 1 - dst = dstLen - 1 := by omega
  rw [ntfsMappingPairsBuild, if_neg (by omega), if_neg (by omega), if_neg some_list,
    Int.toNat_natCast, sought]
  simp only [wantedRuns, sought]
  rw [if_neg (by omega)]
  by_cases partly : (element.vcn : Int) < firstVcn
  · rw [if_pos partly]
    obtain ⟨mem', outcome, built, stopped | written⟩ := @buildPartial_leaves vol mem dst
      (dst + dstLen - 1) lastVcn element rest firstVcn suffix encodable below above wanted (by omega)
    · refine ⟨mem', outcome, built, ?_⟩
      obtain ⟨nothing, terminator, stopRl, outcome_eq⟩ := stopped
      rw [size] at nothing
      have some_run : cappedRuns lastVcn (trimmed firstVcn element :: rest) ≠ [] := by
        apply cappedRuns_ne_nil
        simp only [trimmed]
        omega
      rw [nothing]
      refine ⟨terminator, fun none_wanted => absurd none_wanted.symm some_run, ?_, ?_⟩
      · rintro _ (atStart | some_fit)
        · rw [begins] at atStart
          omega
        · exact absurd rfl some_fit
      · intro _ _
        exact ⟨element.vcn, stopRl, by omega, outcome_eq⟩
    · refine ⟨mem', outcome, built, ?_⟩
      obtain ⟨something, leaves⟩ := written
      rw [size] at something leaves
      exact ⟨leaves.array, leaves.success, fun part _ => leaves.enospc part,
        fun _ nothing => absurd nothing something⟩
  · rw [if_neg partly]
    have first : element.vcn = firstVcn := by omega
    have whole : trimmed firstVcn element = element := by
      simp only [trimmed, ← first, Nat.sub_self, Nat.sub_zero]
      split <;> simp
    obtain ⟨mem', outcome, built, leaves⟩ := @buildRuns_leaves vol mem dst (dst + dstLen - 1) 0
      element.vcn 0 lastVcn _ suffix encodable (by omega) (by omega)
    rw [size, first] at leaves
    rw [whole]
    exact ⟨mem', outcome, built, leaves.array, leaves.success, fun part _ => leaves.enospc part,
      fun inner => absurd (begins.mpr first) inner⟩

end Build

end Ttntfs.Ntfs
