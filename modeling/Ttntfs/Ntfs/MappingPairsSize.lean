import Mathlib.Data.List.GetD
import Ttntfs.Ntfs.MappingPairsBuild

/-!
# The size of an array before it is built

`ntfs_get_size_for_mapping_pairs` walks a run list as `ntfs_mapping_pairs_build` does, but
adds up the sizes of the pairs instead of writing them. Both walks meet the same runs with
the same lengths and changes, and the width that is counted for an integer is the one in
which it is written. So a buffer of the size that is returned takes the array, a shorter
one does not, and what is refused by one walk is refused by the other.
-/

namespace Ttntfs.Ntfs

open Ttntfs.Library.ByteMemory
open Ttntfs.Library.SignedBytes

/-- The loop of `ntfs_get_nr_significant_bytes`. -/
def significantRounds : Nat → Int → Nat → Nat
  | 0, _, i => i
  | fuel + 1, l, i =>
    let l := l / 256
    if l ≠ 0 ∧ l ≠ -1 then significantRounds fuel l (i + 1) else i + 1

/-- `ntfs_get_nr_significant_bytes` -/
def ntfsGetNrSignificantBytes (n : Int) : Nat :=
  let i := significantRounds 8 n 0
  let j := signedByte (byteOf n (i - 1))
  -- The sign bit is wrong: an extra byte is needed.
  if (n < 0 ∧ j ≥ 0) ∨ (n > 0 ∧ j < 0) then i + 1 else i

/-- What `ntfs_get_size_for_mapping_pairs` returns. A run list that ends without a
terminator is read beyond its end. -/
inductive SizeOutcome where
  | size (bytes : Nat)
  | einval
  | eio
  | overrun
  deriving DecidableEq

/-- The error for a run that cannot be encoded. -/
def sizeError (element : RunlistElement) : SizeOutcome :=
  if element.lcn = lcnRlNotMapped then .einval else .eio

/-- The full runs. -/
def sizeRuns (vol : PairsVolume) (maxMpSize lastVcn : Int) :
    List RunlistElement → Int → Nat → SizeOutcome
  | [], _, _ => .overrun
  | element :: rest, prevLcn, rls =>
    if element.length = 0 then .size rls
    else if element.lcn < lcnHole then sizeError element
    else
      match rest with
      | [] => .overrun
      | next :: others =>
        let rls := rls + (1 + ntfsGetNrSignificantBytes (cappedLength lastVcn element next))
        let rls := if storesLcn vol element then
          rls + ntfsGetNrSignificantBytes (s64 (element.lcn - prevLcn)) else rls
        if (rls : Int) > maxMpSize then .size rls
        else if endsInside lastVcn next then .size rls
        else
          sizeRuns vol maxMpSize lastVcn (next :: others)
            (if storesLcn vol element then element.lcn else prevLcn) rls

/-- The first run when the array begins within it. -/
def sizePartial (vol : PairsVolume) (maxMpSize firstVcn lastVcn : Int) (element : RunlistElement)
    (rest : List RunlistElement) (rls : Nat) : SizeOutcome :=
  if element.lcn < lcnHole then sizeError element
  else
    match rest with
    | [] => .overrun
    | next :: others =>
      let delta := firstVcn - element.vcn
      let prevLcn := if 0 ≤ element.lcn then s64 (element.lcn + delta) else element.lcn
      let rls := rls + (1 + ntfsGetNrSignificantBytes (cappedLength lastVcn element next - delta))
      let rls := if storesLcn vol element then rls + ntfsGetNrSignificantBytes prevLcn else rls
      if endsInside lastVcn next then .size rls
      else
        sizeRuns vol maxMpSize lastVcn (next :: others) (if storesLcn vol element then prevLcn else 0) rls

/-- `ntfs_get_size_for_mapping_pairs` -/
def ntfsGetSizeForMappingPairs (vol : PairsVolume) (rl : List RunlistElement)
    (firstVcn lastVcn maxMpSize : Int) : SizeOutcome :=
  if firstVcn < 0 ∨ lastVcn < -1 then .einval
  else if 0 ≤ lastVcn ∧ lastVcn < firstVcn then .einval
  else if rl = [] then .size 1
  else
    let maxMpSize := if maxMpSize ≤ 0 then 2 ^ 31 - 1 else maxMpSize
    match rlSeek firstVcn.toNat rl with
    | [] => .overrun
    | element :: rest =>
      if (element.length = 0 ∧ (element.vcn : Int) < firstVcn) ∨ firstVcn < element.vcn then .einval
      -- The terminating zero byte is always needed.
      else if (element.vcn : Int) < firstVcn then
        sizePartial vol maxMpSize firstVcn lastVcn element rest 1
      else sizeRuns vol maxMpSize lastVcn (element :: rest) 0 1

/-- Store some bytes from an offset on. -/
def storeBytes (m : Mem) (off : Nat) (bytes : List UInt8) : Mem := fun a =>
  if off ≤ a ∧ a < off + bytes.length then bytes.getD (a - off) 0 else m a

section Widths

variable {mem : Mem} {dst dstMax fuel i : Nat} {l n : Int}

theorem significantRounds_eq (enough : loopWidth l ≤ fuel) :
    significantRounds fuel l i = i + loopWidth l := by
  induction l using loopWidth.induct generalizing fuel i with
  | case1 l more ih =>
    rw [loopWidth, if_pos more] at enough ⊢
    obtain ⟨fuel, rfl⟩ : ∃ rounds, fuel = rounds + 1 := ⟨fuel - 1, by omega⟩
    rw [significantRounds, if_pos more, ih (by omega)]
    omega
  | case2 l last =>
    rw [loopWidth, if_neg last] at enough ⊢
    obtain ⟨fuel, rfl⟩ : ∃ rounds, fuel = rounds + 1 := ⟨fuel - 1, by omega⟩
    rw [significantRounds, if_neg last]

theorem ntfsGetNrSignificantBytes_eq (range : InS64 n) :
    ntfsGetNrSignificantBytes n = significantWidth n := by
  have rounds := @significantRounds_eq 8 0 n (loopWidth_le range.fits)
  have width := significantWidth_loop n
  have wrong := wrong_sign_iff n
  rw [Nat.zero_add] at rounds
  simp only [ntfsGetNrSignificantBytes, rounds, ge_iff_le, wrong]
  by_cases fits : FitsSigned (loopWidth n) n
  · rw [if_neg (fun unfit => unfit fits), width, if_pos fits]
  · rw [if_pos fits, width, if_neg fits]

theorem writeBytes_above {a : Nat} (above : dst + loopWidth l ≤ a) :
    (writeBytes dstMax fuel mem dst l i).1 a = mem a := by
  induction l using loopWidth.induct generalizing fuel mem dst i with
  | case1 l more ih =>
    rw [loopWidth, if_pos more] at above
    cases fuel with
    | zero => rfl
    | succ fuel =>
      rw [writeBytes]
      split
      · rfl
      · rw [if_pos more, ih (by omega), storeByte_other _ _ (by omega)]
  | case2 l last =>
    rw [loopWidth, if_neg last] at above
    cases fuel with
    | zero => rfl
    | succ fuel =>
      rw [writeBytes]
      split
      · rfl
      · rw [if_neg last]
        exact storeByte_other _ _ (by omega)

/-- Nothing behind the bytes of an integer changes. -/
theorem ntfsWriteSignificantBytes_above {a : Nat} (range : InS64 n)
    (room : dst + significantWidth n ≤ dstMax + 1) (above : dst + significantWidth n ≤ a) :
    (ntfsWriteSignificantBytes mem dst dstMax n).1 a = mem a := by
  have width := significantWidth_loop n
  have wrong := wrong_sign_iff n
  have short : loopWidth n ≤ significantWidth n := by
    split at width <;> omega
  obtain ⟨mem', written, _⟩ :=
    @writeBytes_room mem dst dstMax 8 0 n (loopWidth_le range.fits) (by omega)
  have frame := @writeBytes_above mem dst dstMax 8 0 n a (by omega)
  rw [written] at frame
  rw [Nat.zero_add] at written
  simp only [ntfsWriteSignificantBytes, written]
  by_cases fits : FitsSigned (loopWidth n) n
  · rw [if_neg (fun bad => wrong.mp (.inl bad) fits), if_neg (fun bad => wrong.mp (.inr bad) fits)]
    exact frame
  rw [if_neg fits] at width
  rcases wrong.mpr fits with negative | nonnegative
  · rw [if_pos negative, if_neg (by omega)]
    dsimp only
    rw [storeByte_other _ _ (by omega)]
    exact frame
  · rw [if_neg (by omega), if_pos nonnegative, if_neg (by omega)]
    dsimp only
    rw [storeByte_other _ _ (by omega)]
    exact frame

end Widths

/-- The bytes of an integer in the width it needs. -/
def signedBytes (n : Int) : List UInt8 := (List.range (significantWidth n)).map (byteOf n)

/-- The bytes of a mapping pair. -/
def pairBytes (length : Int) (change : Option Int) : List UInt8 :=
  UInt8.ofNat (changeWidth change <<< 4 ||| significantWidth length) ::
    (signedBytes length ++ change.elim [] signedBytes)

section Bytes

variable {mem mem' : Mem} {dst dstMax off : Nat} {length n : Int} {change : Option Int}
  {bytes others : List UInt8}

@[simp] theorem length_signedBytes (n : Int) : (signedBytes n).length = significantWidth n := by
  simp [signedBytes]

@[simp] theorem length_pairBytes (length : Int) (change : Option Int) :
    (pairBytes length change).length = pairSize length change := by
  cases change with
  | none => simp [pairBytes, pairSize, changeWidth]
  | some value => simp [pairBytes, pairSize, changeWidth]

theorem storeBytes_outside {a : Nat} (outside : a < off ∨ off + bytes.length ≤ a) :
    storeBytes mem off bytes a = mem a := by
  rw [storeBytes, if_neg (by omega)]

theorem storeBytes_inside {i : Nat} (inside : i < bytes.length) :
    storeBytes mem off bytes (off + i) = bytes.getD i 0 := by
  rw [storeBytes, if_pos (by omega), Nat.add_sub_cancel_left]

theorem eq_storeBytes (inside : ∀ i < bytes.length, mem' (off + i) = bytes.getD i 0)
    (outside : ∀ a, a < off ∨ off + bytes.length ≤ a → mem' a = mem a) :
    mem' = storeBytes mem off bytes := by
  funext a
  by_cases within : off ≤ a ∧ a < off + bytes.length
  · have place : off + (a - off) = a := by omega
    rw [storeBytes, if_pos within, ← inside (a - off) (by omega), place]
  · rw [storeBytes_outside (by omega), outside a (by omega)]

theorem storeBytes_append :
    storeBytes (storeBytes mem off bytes) (off + bytes.length) others =
      storeBytes mem off (bytes ++ others) := by
  apply eq_storeBytes
  · intro i inside
    rw [List.length_append] at inside
    by_cases first : i < bytes.length
    · rw [storeBytes_outside (by omega), storeBytes_inside first, List.getD_append _ _ _ _ first]
    · have place : off + i = off + bytes.length + (i - bytes.length) := by omega
      rw [place, storeBytes_inside (by omega), List.getD_append_right _ _ _ _ (by omega)]
  · intro a outside
    rw [List.length_append] at outside
    rw [storeBytes_outside (by omega), storeBytes_outside (by omega)]

theorem storeByte_eq (mem : Mem) (off : Nat) (byte : UInt8) :
    storeByte mem off byte = storeBytes mem off [byte] := by
  apply eq_storeBytes
  · intro i inside
    obtain rfl : i = 0 := by simpa using inside
    simp
  · intro a outside
    rw [List.length_singleton] at outside
    exact storeByte_other _ _ (by omega)

theorem signedAt_getD (stored : SignedAt mem off (significantWidth n) n) {i : Nat}
    (inside : i < significantWidth n) : mem (off + i) = (signedBytes n).getD i 0 := by
  rw [stored.bytes i inside, signedBytes, List.getD_eq_getElem _ _ (by simpa using inside)]
  simp

/-- Nothing behind a pair changes. -/
theorem writePair_above {a : Nat} (lengthRange : InS64 length)
    (changeRange : ∀ value, change = some value → InS64 value)
    (room : dst + pairSize length change ≤ dstMax) (above : dst + pairSize length change ≤ a) :
    (writePair mem dst dstMax length change).1 a = mem a := by
  rw [pairSize] at room above
  obtain ⟨lengthMem, written, _⟩ :=
    @ntfsWriteSignificantBytes_room mem (dst + 1) dstMax length lengthRange (by omega)
  have lengthFrame := @ntfsWriteSignificantBytes_above mem (dst + 1) dstMax length a lengthRange
    (by omega) (by omega)
  rw [written] at lengthFrame
  cases change with
  | none =>
    rw [changeWidth] at room
    simp only [writePair, written]
    rw [if_neg (by omega)]
    dsimp only
    rw [storeByte_other _ _ (by omega)]
    exact lengthFrame
  | some value =>
    rw [changeWidth] at room above
    have range := changeRange value rfl
    obtain ⟨changeMem, stored, _⟩ := @ntfsWriteSignificantBytes_room lengthMem
      (dst + 1 + significantWidth length) dstMax value range (by omega)
    have changeFrame := @ntfsWriteSignificantBytes_above lengthMem
      (dst + 1 + significantWidth length) dstMax value a range (by omega) (by omega)
    rw [stored] at changeFrame
    simp only [writePair, written, stored]
    rw [if_neg (by omega)]
    dsimp only
    rw [storeByte_other _ _ (by omega)]
    exact changeFrame.trans lengthFrame

/-- A pair is written by its bytes when there is room for it. -/
theorem writePair_bytes (lengthRange : InS64 length)
    (changeRange : ∀ value, change = some value → InS64 value)
    (room : dst + pairSize length change ≤ dstMax) :
    writePair mem dst dstMax length change =
      (storeBytes mem dst (pairBytes length change), some (dst + pairSize length change)) := by
  obtain ⟨mem', written, below, pair⟩ := @writePair_room mem dst dstMax length change lengthRange changeRange room
  have above : ∀ a, dst + pairSize length change ≤ a → mem' a = mem a := by
    intro a behind
    have frame := @writePair_above mem dst dstMax length change a lengthRange changeRange room behind
    rw [written] at frame
    exact frame
  rw [written]
  congr 1
  apply eq_storeBytes
  · intro i inside
    rw [length_pairBytes] at inside
    cases i with
    | zero => simpa [pairBytes] using pair.header
    | succ i =>
      rw [pairBytes, List.getD_cons_succ, Nat.add_comm i 1, ← Nat.add_assoc]
      by_cases first : i < significantWidth length
      · rw [List.getD_append _ _ _ _ (by simpa using first)]
        exact signedAt_getD pair.length_field first
      rw [List.getD_append_right _ _ _ _ (by simpa using first), length_signedBytes]
      cases change with
      | none =>
        simp only [pairSize, changeWidth] at inside
        omega
      | some value =>
        simp only [pairSize, changeWidth] at inside
        have place : dst + 1 + i =
            dst + 1 + significantWidth length + (i - significantWidth length) := by omega
        rw [place]
        exact signedAt_getD (pair.change_field value rfl) (by omega)
  · intro a outside
    rw [length_pairBytes] at outside
    rcases outside with before | behind
    · exact below a before
    · exact above a behind

theorem pairSize_le (lengthRange : InS64 length)
    (changeRange : ∀ value, change = some value → InS64 value) : pairSize length change ≤ 17 := by
  have lengthWidth := lengthRange.significantWidth_le_eight
  rw [pairSize]
  cases change with
  | none =>
    rw [changeWidth]
    omega
  | some value =>
    have width := (changeRange value rfl).significantWidth_le_eight
    rw [changeWidth]
    omega

end Bytes

/-- A walk that has counted some bytes foresees what a walk from the same run on writes
up to the last byte of a buffer: the bytes that are still counted and the terminator when
they fit, `-ENOSPC` when they do not, and the same error when the run list has one and the
pairs before it fit. -/
def Foresees (build : Mem → Nat → Nat → Mem × BuildOutcome) (rls : Nat) : SizeOutcome → Prop
  | .size total => ∃ bytes, rls + bytes.length = total ∧ ∀ mem dst dstMax, dst ≤ dstMax →
      (dst + bytes.length ≤ dstMax → ∃ stopVcn stopRl count, build mem dst dstMax =
        (storeBytes mem dst (bytes ++ [0]), .success stopVcn stopRl count)) ∧
      (dstMax < dst + bytes.length → ∃ mem' stopVcn stopRl, build mem dst dstMax =
        (mem', .enospc stopVcn stopRl))
  | .einval => ∃ room, ∀ mem dst dstMax, dst + room ≤ dstMax → (build mem dst dstMax).2 = .einval
  | .eio => ∃ room, ∀ mem dst dstMax, dst + room ≤ dstMax → (build mem dst dstMax).2 = .eio
  | .overrun => False

section Walks

variable {vol : PairsVolume} {build rest : Mem → Nat → Nat → Mem × BuildOutcome} {rls stopVcn count : Nat}
  {length : Int} {change : Option Int} {outcome : SizeOutcome} {stopRl : List RunlistElement}
  {element next : RunlistElement}

theorem foresees_end : Foresees (fun mem dst _ => endArray mem dst (.success stopVcn stopRl count)) rls
    (.size rls) := by
  refine ⟨[], rfl, fun mem dst dstMax inside => ⟨fun _ => ⟨stopVcn, stopRl, count, ?_⟩, ?_⟩⟩
  · simp only [endArray, storeByte_eq, List.nil_append]
  · intro full
    simp at full
    omega

theorem foresees_error : Foresees (fun mem _ _ => (mem, buildError element)) rls (sizeError element) := by
  rw [sizeError]
  split
  · exact ⟨0, fun _ _ _ _ => by simp [buildError, *]⟩
  · exact ⟨0, fun _ _ _ _ => by simp [buildError, *]⟩

/-- A pair is counted and written before the others. -/
theorem Foresees.pair (others : Foresees rest (rls + pairSize length change) outcome)
    (lengthRange : InS64 length) (changeRange : ∀ value, change = some value → InS64 value)
    (written : ∀ mem dst dstMax, build mem dst dstMax =
      match writePair mem dst dstMax length change with
      | (mem, none) => endArray mem dst (.enospc stopVcn stopRl)
      | (mem, some dstNext) => rest mem dstNext dstMax) : Foresees build rls outcome := by
  have fits (mem : Mem) {dst dstMax : Nat} (room : dst + pairSize length change ≤ dstMax) :
      build mem dst dstMax =
        rest (storeBytes mem dst (pairBytes length change)) (dst + pairSize length change) dstMax := by
    rw [written, writePair_bytes lengthRange changeRange room]
  cases outcome with
  | size total =>
    obtain ⟨bytes, counted, builds⟩ := others
    refine ⟨pairBytes length change ++ bytes, ?_, fun mem dst dstMax inside => ⟨?_, ?_⟩⟩
    · rw [List.length_append, length_pairBytes]
      omega
    · intro room
      rw [List.length_append, length_pairBytes] at room
      obtain ⟨stopVcn, stopRl, count, built⟩ :=
        (builds (storeBytes mem dst (pairBytes length change)) (dst + pairSize length change) dstMax
          (by omega)).1 (by omega)
      refine ⟨stopVcn, stopRl, count, ?_⟩
      rw [fits mem (by omega), built, ← length_pairBytes, storeBytes_append, List.append_assoc]
    · intro full
      rw [List.length_append, length_pairBytes] at full
      by_cases room : dst + pairSize length change ≤ dstMax
      · obtain ⟨mem', stopVcn, stopRl, stopped⟩ :=
          (builds (storeBytes mem dst (pairBytes length change)) (dst + pairSize length change) dstMax
            (by omega)).2 (by omega)
        exact ⟨mem', stopVcn, stopRl, by rw [fits mem room, stopped]⟩
      · obtain ⟨mem', stopped, _⟩ :=
          @writePair_full mem dst dstMax length change lengthRange changeRange (by omega)
        exact ⟨storeByte mem' dst 0, stopVcn, stopRl, by simp only [written, stopped, endArray]⟩
  | einval | eio =>
    obtain ⟨room, refused⟩ := others
    refine ⟨pairSize length change + room, fun mem dst dstMax inside => ?_⟩
    rw [fits mem (by omega)]
    exact refused _ _ _ (by omega)
  | overrun => exact others.elim

variable {start firstVcn : Nat} {maxMpSize lastVcn prevLcn : Int} {rl others : List RunlistElement}

theorem counted_eq {stores : Bool} {value : Int} (lengthRange : InS64 length) (range : InS64 value) :
    (if stores then rls + (1 + ntfsGetNrSignificantBytes length) + ntfsGetNrSignificantBytes value
      else rls + (1 + ntfsGetNrSignificantBytes length)) =
      rls + pairSize length (if stores then some value else none) := by
  rw [ntfsGetNrSignificantBytes_eq lengthRange, ntfsGetNrSignificantBytes_eq range, pairSize]
  cases stores with
  | false =>
    simp only [Bool.false_eq_true, if_false, changeWidth]
    omega
  | true =>
    simp only [if_true, changeWidth]
    omega

theorem changes_range {stores : Bool} {value : Int} (range : InS64 value) (change : Int)
    (stored : (if stores then some value else none) = some change) : InS64 change := by
  cases stores with
  | false => cases stored
  | true =>
    cases stored
    exact range

/-- The runs that are counted are those that are written. -/
theorem sizeRuns_foresees (valid : RlFrom start rl) (vcns : start + rlClusters rl < 2 ^ 63)
    (wanted : lastVcn = -1 ∨ (start : Int) ≤ lastVcn) (unlimited : (rls + 17 * rl.length : Nat) ≤ maxMpSize) :
    Foresees (fun mem dst dstMax => buildRuns vol dstMax lastVcn rl mem dst prevLcn count) rls
      (sizeRuns vol maxMpSize lastVcn rl prevLcn rls) := by
  induction valid generalizing rls prevLcn count with
  | terminator _ ends _ =>
    simp only [sizeRuns, buildRuns, ends, if_true]
    exact foresees_end
  | @run element rest start first some_cluster behind ih =>
    obtain ⟨next, tail, rfl, nextStart⟩ := behind.head
    have some_length : element.length ≠ 0 := by omega
    rw [rlClusters_cons] at vcns
    simp only [sizeRuns, buildRuns, if_neg some_length]
    by_cases unsupported : element.lcn < lcnHole
    · simp only [if_pos unsupported]
      exact foresees_error
    simp only [if_neg unsupported]
    have lengthEq := @cappedLength_eq lastVcn element next (by omega) (by omega)
    have shorter := @cappedRun_length_le lastVcn element next (by omega)
    have lengthRange : InS64 (cappedLength lastVcn element next) := by
      rw [lengthEq]
      constructor <;> omega
    have range := inS64_s64 (element.lcn - prevLcn)
    have small := pairSize_le lengthRange (@changes_range (storesLcn vol element) _ range)
    have more : ¬ ((rls + pairSize (cappedLength lastVcn element next)
        (if storesLcn vol element then some (s64 (element.lcn - prevLcn)) else none) : Nat) : Int) >
        maxMpSize := by
      rw [List.length_cons] at unlimited
      omega
    rw [counted_eq lengthRange range, if_neg more]
    refine Foresees.pair ?_ lengthRange (changes_range range) (fun mem dst dstMax => rfl)
    by_cases ends : endsInside lastVcn next
    · simp only [if_pos ends]
      exact foresees_end
    · simp only [if_neg ends]
      have outside : ¬ (0 ≤ lastVcn ∧ lastVcn < next.vcn) := by
        simpa [endsInside] using ends
      rw [List.length_cons] at unlimited
      exact ih (by omega) (by omega) (by omega)

/-- The beginning of a run is not counted, and not written. -/
theorem sizePartial_foresees (valid : RlFrom element.vcn (element :: others))
    (vcns : element.vcn + rlClusters (element :: others) < 2 ^ 63) (lower : element.vcn < firstVcn)
    (upper : firstVcn < element.vcn + element.length) (wanted : lastVcn = -1 ∨ (firstVcn : Int) ≤ lastVcn)
    (unlimited : (18 + 17 * others.length : Nat) ≤ maxMpSize) :
    Foresees (fun mem dst dstMax => buildPartial vol mem dst dstMax firstVcn lastVcn element others) 1
      (sizePartial vol maxMpSize firstVcn lastVcn element others 1) := by
  cases valid with
  | terminator _ ends _ => omega
  | run first some_cluster behind =>
    obtain ⟨next, tail, rfl, nextStart⟩ := behind.head
    rw [rlClusters_cons] at vcns
    simp only [sizePartial, buildPartial]
    by_cases unsupported : element.lcn < lcnHole
    · simp only [if_pos unsupported]
      exact foresees_error
    simp only [if_neg unsupported]
    have lengthEq := @cappedLength_eq lastVcn element next (by omega) (by omega)
    have shorter := @cappedRun_length_le lastVcn element next (by omega)
    have lengthRange : InS64 (cappedLength lastVcn element next - ((firstVcn : Int) - element.vcn)) := by
      rw [lengthEq]
      constructor <;> omega
    have range : InS64 (if 0 ≤ element.lcn then s64 (element.lcn + ((firstVcn : Int) - element.vcn))
        else element.lcn) := by
      split
      · exact inS64_s64 _
      · rw [lcnHole] at unsupported
        constructor <;> omega
    have small := pairSize_le lengthRange (@changes_range (storesLcn vol element) _ range)
    rw [counted_eq lengthRange range]
    refine Foresees.pair ?_ lengthRange (changes_range range) (fun mem dst dstMax => rfl)
    by_cases ends : endsInside lastVcn next
    · simp only [if_pos ends]
      exact foresees_end
    · simp only [if_neg ends]
      have outside : ¬ (0 ≤ lastVcn ∧ lastVcn < next.vcn) := by
        simpa [endsInside] using ends
      exact sizeRuns_foresees behind (by omega) (by omega) (by omega)

end Walks

/-- Where a vcn is sought, a run list goes on from the element that is found. -/
theorem RlFrom.sought {start vcn : Nat} {rl : List RunlistElement} (valid : RlFrom start rl) :
    ∃ element rest, rlSeek vcn rl = element :: rest ∧ RlFrom element.vcn (element :: rest) ∧
      (element :: rest) <:+ rl ∧ element.vcn + rlClusters (element :: rest) = start + rlClusters rl ∧
      (element.length ≠ 0 → vcn < element.vcn + element.length) := by
  induction valid with
  | @terminator element start first ends negative =>
    refine ⟨element, [], rfl, .terminator rfl ends negative, List.suffix_rfl, by rw [first], ?_⟩
    exact fun some_cluster => absurd ends some_cluster
  | @run element rest start first some_cluster others ih =>
    obtain ⟨next, tail, rfl, nextStart⟩ := others.head
    by_cases here : vcn < start + element.length
    · refine ⟨element, next :: tail, ?_, ?_, List.suffix_rfl, by rw [first], fun _ => by omega⟩
      · rw [rlSeek, if_neg]
        omega
      · rw [first]
        exact .run first some_cluster others
    · obtain ⟨found, behind, sought, suffix, within, clusters, inside⟩ := ih
      refine ⟨found, behind, ?_, suffix, within.trans (List.suffix_cons _ _), ?_, inside⟩
      · rw [rlSeek, if_pos ⟨by omega, by omega⟩]
        exact sought
      · rw [clusters, rlClusters_cons element]
        omega

/-- A run list in memory: its runs follow one another, its vcns are signed 64-bit words,
and the size of its array of elements is an `int`. -/
structure StoredRunlist (start : Nat) (rl : List RunlistElement) : Prop where
  contiguous : RlFrom start rl
  vcns : start + rlClusters rl < 2 ^ 63
  bytes : 24 * rl.length < 2 ^ 31

/-- What is predicted of an array is what is built: just as many bytes are written into
every buffer that has them, the last of them the terminator, and a shorter buffer is too
short. Where an error is predicted the array cannot be built. -/
def Predicts (build : Mem → Nat → Nat → Mem × BuildOutcome) : SizeOutcome → Prop
  | .size n => ∃ array : List UInt8, array.length = n ∧ array.getLast? = some 0 ∧ ∀ mem dst dstLen,
      (n ≤ dstLen → ∃ stopVcn stopRl count, build mem dst dstLen =
        (storeBytes mem dst array, .success stopVcn stopRl count)) ∧
      (1 ≤ dstLen → dstLen < n → ∃ mem' stopVcn stopRl, build mem dst dstLen =
        (mem', .enospc stopVcn stopRl))
  | .einval => ∃ room, ∀ mem dst dstLen, room ≤ dstLen → (build mem dst dstLen).2 = .einval
  | .eio => ∃ room, ∀ mem dst dstLen, room ≤ dstLen → (build mem dst dstLen).2 = .eio
  | .overrun => False

section Predictions

variable {vol : PairsVolume} {start : Nat} {firstVcn lastVcn maxMpSize : Int} {rl : List RunlistElement}
  {outcome : SizeOutcome} {build walk : Mem → Nat → Nat → Mem × BuildOutcome}

/-- What the walk over the runs foresees is predicted of a buffer with room for its end. -/
theorem Foresees.predicts (foreseen : Foresees walk 1 outcome)
    (walks : ∀ mem dst dstLen, 1 ≤ dstLen → build mem dst dstLen = walk mem dst (dst + dstLen - 1)) :
    Predicts build outcome := by
  cases outcome with
  | size n =>
    obtain ⟨bytes, counted, builds⟩ := foreseen
    refine ⟨bytes ++ [0], by simp; omega, by simp, fun mem dst dstLen => ⟨?_, ?_⟩⟩
    · intro room
      rw [walks mem dst dstLen (by omega)]
      exact (builds mem dst _ (by omega)).1 (by omega)
    · intro some_byte full
      rw [walks mem dst dstLen some_byte]
      exact (builds mem dst _ (by omega)).2 (by omega)
  | einval | eio =>
    obtain ⟨room, refused⟩ := foreseen
    refine ⟨room + 1, fun mem dst dstLen inside => ?_⟩
    rw [walks mem dst dstLen (by omega)]
    exact refused _ _ _ (by omega)
  | overrun => exact foreseen.elim

theorem predicts_refusal (refused : ∀ mem dst dstLen, 1 ≤ dstLen → build mem dst dstLen = (mem, .einval)) :
    Predicts build .einval :=
  ⟨1, fun mem dst dstLen some_byte => by rw [refused mem dst dstLen some_byte]⟩

/-- Without a maximum the size that is returned for a part of a run list is the number of
bytes `ntfs_mapping_pairs_build` writes for it. -/
theorem size_for_mapping_pairs_predicts (stored : rl = [] ∨ StoredRunlist start rl)
    (unlimited : maxMpSize ≤ 0) :
    Predicts (fun mem dst dstLen => ntfsMappingPairsBuild vol mem dst dstLen rl firstVcn lastVcn)
      (ntfsGetSizeForMappingPairs vol rl firstVcn lastVcn maxMpSize) := by
  rw [ntfsGetSizeForMappingPairs]
  by_cases arguments : firstVcn < 0 ∨ lastVcn < -1
  · rw [if_pos arguments]
    apply predicts_refusal
    intro mem dst dstLen some_byte
    rw [ntfsMappingPairsBuild, if_pos (by omega)]
  rw [if_neg arguments]
  by_cases order : 0 ≤ lastVcn ∧ lastVcn < firstVcn
  · rw [if_pos order]
    apply predicts_refusal
    intro mem dst dstLen some_byte
    rw [ntfsMappingPairsBuild, if_neg (by omega), if_pos order]
  rw [if_neg order]
  rcases stored with rfl | stored
  · rw [if_pos rfl]
    apply (@foresees_end 1 0 0 []).predicts
    intro mem dst dstLen some_byte
    rw [ntfsMappingPairsBuild, if_neg (by omega), if_neg order, if_pos rfl]
  obtain ⟨element, rest, sought, suffix, within, clusters, inside⟩ :=
    @RlFrom.sought start firstVcn.toNat rl stored.contiguous
  have some_list : rl ≠ [] := by
    rintro rfl
    simp at within
  have build (mem : Mem) (dst dstLen : Nat) (some_byte : 1 ≤ dstLen) :
      ntfsMappingPairsBuild vol mem dst dstLen rl firstVcn lastVcn =
        if (element.length = 0 ∧ (element.vcn : Int) < firstVcn) ∨ firstVcn < element.vcn then (mem, .einval)
        else if (element.vcn : Int) < firstVcn then
          buildPartial vol mem dst (dst + dstLen - 1) firstVcn lastVcn element rest
        else buildRuns vol (dst + dstLen - 1) lastVcn (element :: rest) mem dst 0 0 := by
    rw [ntfsMappingPairsBuild, if_neg (by omega), if_neg order, if_neg some_list, sought]
  have vcns := stored.vcns
  have bytes := stored.bytes
  have shorter := within.length_le
  rw [List.length_cons] at shorter
  rw [if_neg some_list, if_pos unlimited, sought]
  dsimp only
  by_cases outside : (element.length = 0 ∧ (element.vcn : Int) < firstVcn) ∨ firstVcn < element.vcn
  · rw [if_pos outside]
    apply predicts_refusal
    intro mem dst dstLen some_byte
    rw [build mem dst dstLen some_byte, if_pos outside]
  rw [if_neg outside]
  by_cases partly : (element.vcn : Int) < firstVcn
  · rw [if_pos partly]
    have word : ((firstVcn.toNat : Nat) : Int) = firstVcn := by omega
    have foreseen := @sizePartial_foresees vol element firstVcn.toNat (2 ^ 31 - 1) lastVcn rest suffix
      (by omega) (by omega) (inside (by omega)) (by omega) (by omega)
    rw [word] at foreseen
    apply foreseen.predicts
    intro mem dst dstLen some_byte
    rw [build mem dst dstLen some_byte, if_neg outside, if_pos partly]
  · rw [if_neg partly]
    have foreseen := @sizeRuns_foresees vol 1 0 element.vcn (2 ^ 31 - 1) lastVcn 0 (element :: rest) suffix
      (by omega) (by omega) (by rw [List.length_cons]; omega)
    apply foreseen.predicts
    intro mem dst dstLen some_byte
    rw [build mem dst dstLen some_byte, if_neg outside, if_neg partly]

/-- Eight clusters, a hole of four, and four clusters further on. -/
theorem size_for_mapping_pairs_predicts_sparse :
    ntfsGetSizeForMappingPairs ⟨3, 4096, 12⟩ [⟨0, 100, 8⟩, ⟨8, lcnHole, 4⟩, ⟨12, 400, 4⟩, ⟨16, lcnEnoent, 0⟩]
        2 (-1) 0 = .size 10 ∧
      Predicts (fun mem dst dstLen => ntfsMappingPairsBuild ⟨3, 4096, 12⟩ mem dst dstLen
          [⟨0, 100, 8⟩, ⟨8, lcnHole, 4⟩, ⟨12, 400, 4⟩, ⟨16, lcnEnoent, 0⟩] 2 (-1))
        (ntfsGetSizeForMappingPairs ⟨3, 4096, 12⟩
          [⟨0, 100, 8⟩, ⟨8, lcnHole, 4⟩, ⟨12, 400, 4⟩, ⟨16, lcnEnoent, 0⟩] 2 (-1) 0) := by
  constructor
  · decide
  · refine @size_for_mapping_pairs_predicts ⟨3, 4096, 12⟩ 0 2 (-1) 0 _ (.inr ⟨?_, by decide, by decide⟩)
      (by decide)
    exact .run rfl (by decide) (.run rfl (by decide) (.run rfl (by decide) (.terminator rfl rfl (by decide))))

end Predictions

end Ttntfs.Ntfs
