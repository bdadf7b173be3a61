import Ttntfs.Library.SignedBytes
import Ttntfs.Ntfs.Runlist

/-!
# Mapping pairs

A non-resident attribute keeps its run list as an array of mapping pairs: a header byte
with the sizes of two fields, the length of a run and the distance of its first cluster
from the one of the run before. `ntfs_mapping_pairs_build` writes the array for a part of
a run list into a buffer and stops where the buffer ends; `ntfs_mapping_pairs_decompress`
makes a run list of it again.
-/

namespace Ttntfs.Ntfs

open Ttntfs.Library.ByteMemory
open Ttntfs.Library.SignedBytes

/-- `LCN_DELALLOC` -/
def lcnDelalloc : Int := -1

/-- What the functions read of `struct ntfs_volume`. -/
structure PairsVolume where
  majorVer : Nat
  clusterSize : Nat
  clusterSizeBits : Nat

/-- Store one byte. -/
def storeByte (m : Mem) (off : Nat) (byte : UInt8) : Mem := Function.update m off byte

/-- The loop of `ntfs_write_significant_bytes`: the memory and the number of bytes, none
of them when the buffer ends. A word of 64 bits takes eight rounds at most. -/
def writeBytes (dstMax : Nat) : Nat → Mem → Nat → Int → Nat → Mem × Option Nat
  | 0, mem, _, _, _ => (mem, none)
  | fuel + 1, mem, dst, l, i =>
    if dst > dstMax then (mem, none)
    else
      let mem := storeByte mem dst (byteOf l 0)
      let l := l / 256
      if l ≠ 0 ∧ l ≠ -1 then writeBytes dstMax fuel mem (dst + 1) l (i + 1)
      else (mem, some (i + 1))

/-- `ntfs_write_significant_bytes`, with no result for `-ENOSPC`. -/
def ntfsWriteSignificantBytes (mem : Mem) (dst dstMax : Nat) (n : Int) : Mem × Option Nat :=
  match writeBytes dstMax 8 mem dst n 0 with
  | (mem, none) => (mem, none)
  | (mem, some i) =>
    let j := signedByte (byteOf n (i - 1))
    -- The sign bit is wrong: an extra byte is needed.
    if n < 0 ∧ j ≥ 0 then
      if dst + i > dstMax then (mem, none) else (storeByte mem (dst + i) 255, some (i + 1))
    else if n > 0 ∧ j < 0 then
      if dst + i > dstMax then (mem, none) else (storeByte mem (dst + i) 0, some (i + 1))
    else (mem, some i)

/-- One mapping pair: the length, the change of the lcn if one is stored, and the header
byte. The result is the position of the next pair, none when the buffer ends. -/
def writePair (mem : Mem) (dst dstMax : Nat) (length : Int) (change : Option Int) :
    Mem × Option Nat :=
  match ntfsWriteSignificantBytes mem (dst + 1) dstMax length with
  | (mem, none) => (mem, none)
  | (mem, some lenLen) =>
    let (mem, lcnLen) :=
      match change with
      | none => (mem, some 0)
      | some change => ntfsWriteSignificantBytes mem (dst + 1 + lenLen) dstMax change
    match lcnLen with
    | none => (mem, none)
    | some lcnLen =>
      let dstNext := dst + lenLen + lcnLen + 1
      if dstNext > dstMax then (mem, none)
      else (storeByte mem dst (UInt8.ofNat (lcnLen <<< 4 ||| lenLen)), some dstNext)

/-- What `ntfs_mapping_pairs_build` returns. A run list that ends without a terminator is
read beyond its end. -/
inductive BuildOutcome where
  | success (stopVcn : Nat) (stopRl : List RunlistElement) (deClusterCount : Nat)
  | enospc (stopVcn : Nat) (stopRl : List RunlistElement)
  | einval
  | eio
  | overrun
  deriving DecidableEq

/-- The error for a run that cannot be encoded. -/
def buildError (element : RunlistElement) : BuildOutcome :=
  if element.lcn = lcnRlNotMapped then .einval else .eio

/-- Whether the encoding ends within a run. -/
def endsInside (lastVcn : Int) (next : RunlistElement) : Bool :=
  0 ≤ lastVcn && lastVcn < next.vcn

/-- The length of a run up to the last vcn that is wanted. -/
def cappedLength (lastVcn : Int) (element next : RunlistElement) : Int :=
  if endsInside lastVcn next ∧ next.vcn > lastVcn + 1 then lastVcn + 1 - element.vcn
  else element.length

/-- Whether an lcn is stored: holes have none from NTFS 3.0 on. -/
def storesLcn (vol : PairsVolume) (element : RunlistElement) : Bool :=
  0 ≤ element.lcn || vol.majorVer < 3

/-- The end of `ntfs_mapping_pairs_build`: the terminator byte behind the last pair. -/
def endArray (mem : Mem) (dst : Nat) (outcome : BuildOutcome) : Mem × BuildOutcome :=
  (storeByte mem dst 0, outcome)

/-- The full runs. -/
def buildRuns (vol : PairsVolume) (dstMax : Nat) (lastVcn : Int) :
    List RunlistElement → Mem → Nat → Int → Nat → Mem × BuildOutcome
  | [], mem, _, _, _ => (mem, .overrun)
  | element :: rest, mem, dst, prevLcn, deCnt =>
    if element.length = 0 then
      endArray mem dst (.success element.vcn (element :: rest) deCnt)
    else if element.lcn < lcnHole then (mem, buildError element)
    else
      match rest with
      | [] => (mem, .overrun)
      | next :: others =>
        let change := if storesLcn vol element then some (s64 (element.lcn - prevLcn)) else none
        let deCnt := if ¬ storesLcn vol element ∧ element.lcn = lcnDelalloc then
          (deCnt + element.length) % 2 ^ 32 else deCnt
        match writePair mem dst dstMax (cappedLength lastVcn element next) change with
        | (mem, none) => endArray mem dst (.enospc element.vcn (element :: next :: others))
        | (mem, some dstNext) =>
          if endsInside lastVcn next then
            endArray mem dstNext (.success next.vcn (next :: others) deCnt)
          else
            buildRuns vol dstMax lastVcn (next :: others) mem dstNext
              (if storesLcn vol element then element.lcn else prevLcn) deCnt

/-- The first run when the encoding begins within it. -/
def buildPartial (vol : PairsVolume) (mem : Mem) (dst dstMax : Nat) (firstVcn lastVcn : Int)
    (element : RunlistElement) (rest : List RunlistElement) : Mem × BuildOutcome :=
  if element.lcn < lcnHole then (mem, buildError element)
  else
    match rest with
    | [] => (mem, .overrun)
    | next :: others =>
      let delta := firstVcn - element.vcn
      let prevLcn := if 0 ≤ element.lcn then s64 (element.lcn + delta) else element.lcn
      let change := if storesLcn vol element then some prevLcn else none
      match writePair mem dst dstMax (cappedLength lastVcn element next - delta) change with
      | (mem, none) => endArray mem dst (.enospc element.vcn (element :: next :: others))
      | (mem, some dstNext) =>
        if endsInside lastVcn next then
          endArray mem dstNext (.success next.vcn (next :: others) 0)
        else
          buildRuns vol dstMax lastVcn (next :: others) mem dstNext
            (if storesLcn vol element then prevLcn else 0) 0

/-- `ntfs_mapping_pairs_build` -/
def ntfsMappingPairsBuild (vol : PairsVolume) (mem : Mem) (dst dstLen : Nat)
    (rl : List RunlistElement) (firstVcn lastVcn : Int) : Mem × BuildOutcome :=
  if firstVcn < 0 ∨ lastVcn < -1 ∨ dstLen < 1 then (mem, .einval)
  else if 0 ≤ lastVcn ∧ lastVcn < firstVcn then (mem, .einval)
  else if rl = [] then endArray mem dst (.success 0 [] 0)
  else
    match rlSeek firstVcn.toNat rl with
    | [] => (mem, .overrun)
    | element :: rest =>
      if (element.length = 0 ∧ (element.vcn : Int) < firstVcn) ∨ firstVcn < element.vcn then
        (mem, .einval)
      else if (element.vcn : Int) < firstVcn then
        buildPartial vol mem dst (dst + dstLen - 1) firstVcn lastVcn element rest
      else buildRuns vol (dst + dstLen - 1) lastVcn (element :: rest) mem dst 0 0

/-- What `ntfs_mapping_pairs_decompress` reads of an attribute record, whose bytes are in
a memory from `attr` on. -/
structure PairsAttribute where
  attr : Nat
  length : Nat
  mappingPairsOffset : Nat
  lowestVcn : Nat
  highestVcn : Int
  allocatedSize : Nat

/-- The state of the loop of `ntfs_mapping_pairs_decompress`: the next vcn, the last lcn,
the place in the array, the elements that are filled in and the 16-bit index of the next
one. -/
structure Decompression where
  vcn : Nat
  lcn : Int
  buf : Nat
  rl : Nat → RunlistElement
  rlpos : Nat

/-- Fill in the current element. -/
def Decompression.setElement (d : Decompression) (element : RunlistElement) : Decompression :=
  { d with rl := Function.update d.rl d.rlpos element }

/-- Get to the next element. -/
def Decompression.nextElement (d : Decompression) : Decompression :=
  { d with rlpos := (d.rlpos + 1) % 2 ^ 16 }

/-- The lcn of a mapping pair, with the last lcn that is stored, or no result for `-EIO`. -/
def pairLcn (mem : Mem) (attrEnd : Nat) (d : Decompression) (length : Int) : Option (Int × Int) :=
  let lenLen := (mem d.buf).toNat % 16
  let lcnLen := (mem d.buf).toNat / 16
  if lcnLen = 0 then some (lcnHole, d.lcn)
  else if d.buf + (lenLen + lcnLen) > attrEnd then none
  else
    let lcn := s64 (d.lcn + readSigned mem (d.buf + 1 + lenLen) lcnLen)
    if lcn < -1 then none
    -- chkdsk accepts zero-sized runs only for holes.
    else if lcn ≠ -1 ∧ length = 0 then none
    else some (lcn, lcn)

/-- One mapping pair of `ntfs_mapping_pairs_decompress`, with no result for `-EIO`. -/
def decompressPair (mem : Mem) (attrEnd : Nat) (d : Decompression) : Option Decompression :=
  let lenLen := (mem d.buf).toNat % 16
  let lcnLen := (mem d.buf).toNat / 16
  if lenLen ≠ 0 ∧ d.buf + lenLen > attrEnd then none
  else
    let length := if lenLen = 0 then -1 else readSigned mem (d.buf + 1) lenLen
    if length < 0 then none
    else if d.vcn + length ≥ 2 ^ 63 then none
    else
      match pairLcn mem attrEnd d length with
      | none => none
      | some (lcn, lastLcn) =>
        let filled := d.setElement ⟨d.vcn, lcn, length.toNat⟩
        -- Zero-sized holes are skipped.
        let next := if length = 0 then filled else filled.nextElement
        some { next with vcn := d.vcn + length.toNat, lcn := lastLcn, buf := d.buf + lenLen + lcnLen + 1 }

/-- The loop of `ntfs_mapping_pairs_decompress`. -/
def decompressPairs (mem : Mem) (attrEnd : Nat) : Nat → Decompression → Option Decompression
  | 0, _ => none
  | fuel + 1, d =>
    if d.buf < attrEnd ∧ mem d.buf ≠ 0 then
      match decompressPair mem attrEnd d with
      | none => none
      | some d => decompressPairs mem attrEnd fuel d
    else some d

/-- The last cluster of the attribute, in the arithmetic of an unsigned 64-bit word. -/
def maxCluster (vol : PairsVolume) (attr : PairsAttribute) : Int :=
  s64 ((((attr.allocatedSize + vol.clusterSize - 1) % 2 ^ 64) >>> vol.clusterSizeBits : Nat) - 1)

/-- The elements behind the runs, with no result for `-EIO`. -/
def terminate (vol : PairsVolume) (attr : PairsAttribute) (d : Decompression) :
    Option Decompression :=
  let highest := attr.highestVcn
  if highest ≠ 0 ∧ (d.vcn : Int) - 1 ≠ highest then none
  else if attr.lowestVcn = 0 then
    -- More extents follow when the attribute has clusters behind the highest vcn.
    if highest ≠ 0 ∧ highest < maxCluster vol attr then
      let rest := (maxCluster vol attr - highest).toNat
      let d := (d.setElement ⟨d.vcn, lcnRlNotMapped, rest⟩).nextElement
      some ({ d with vcn := d.vcn + rest }.setElement ⟨d.vcn + rest, lcnEnoent, 0⟩)
    else if highest ≠ 0 ∧ maxCluster vol attr < highest then none
    else some (d.setElement ⟨d.vcn, lcnEnoent, 0⟩)
  else some (d.setElement ⟨d.vcn, lcnRlNotMapped, 0⟩)

/-- The state before the first mapping pair, with the unmapped element before the lowest
vcn. -/
def startDecompression (attr : PairsAttribute) : Decompression :=
  let d : Decompression :=
    ⟨attr.lowestVcn, 0, attr.attr + attr.mappingPairsOffset, fun _ => ⟨0, 0, 0⟩, 0⟩
  if attr.lowestVcn = 0 then d
  else (d.setElement ⟨0, lcnRlNotMapped, attr.lowestVcn⟩).nextElement

/-- `ntfs_mapping_pairs_decompress` without an old run list: the new one, or no result for
`-EIO`. -/
def ntfsMappingPairsDecompress (vol : PairsVolume) (mem : Mem) (attr : PairsAttribute) :
    Option (List RunlistElement) :=
  if attr.lowestVcn ≥ 2 ^ 63 then none
  else
    let attrEnd := attr.attr + attr.length
    if attr.mappingPairsOffset > attr.length then none
    else
      match decompressPairs mem attrEnd (attr.length + 1) (startDecompression attr) with
      | none => none
      | some d =>
        if d.buf ≥ attrEnd then none
        else
          match terminate vol attr d with
          | none => none
          | some d => some ((List.range (d.rlpos + 1)).map d.rl)

end Ttntfs.Ntfs
