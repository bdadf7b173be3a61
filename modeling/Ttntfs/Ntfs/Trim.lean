import Ttntfs.Library.BitGaps
import Ttntfs.Library.SignedBytes
import Ttntfs.Ntfs.LcnBitmap

/-!
# Trimming free space

`ntfs_trim_fs` goes over the bitmap pages of a range of clusters, searches each page for
gaps and has the device discard the clusters of a gap, with the start and the length rounded
to the granularity of the device. The positions in a page are taken relative to the first
cluster of the range, but the buffer that is searched begins where the page does.
-/

namespace Ttntfs.Ntfs

open Ttntfs.Library.BitGaps
open Ttntfs.Library.SignedBytes

/-- The part of `struct ntfs_volume` that trimming reads, and `bdev_discard_granularity`. -/
structure TrimVolume where
  clusterBits : Nat
  nrClusters : Nat
  bits : Nat → Bool
  discardGranularity : Nat
  granularityWord : discardGranularity < 2 ^ 32
  /-- The volume has a size in bytes. -/
  sized : nrClusters * 2 ^ clusterBits < 2 ^ 63

/-- What goes wrong: whether memory is short, the bitmap pages that cannot be read and the
discards that fail, by their number. -/
structure TrimFaults where
  someMemory : Bool
  readPage : Nat → Option ErrorCode
  discard : Nat → Option ErrorCode

/-- The arguments of a call of `blkdev_issue_discard`. -/
structure Discard where
  sector : Nat
  sectors : Nat
deriving DecidableEq

/-- `cluster_size` -/
def TrimVolume.clusterSize (v : TrimVolume) : Nat := 2 ^ v.clusterBits

/-- `ntfs_bytes_to_cluster` -/
def TrimVolume.bytesToCluster (v : TrimVolume) (bytes : Nat) : Nat :=
  (s64 bytes / (v.clusterSize : Int) % 2 ^ 64).toNat

/-- The bits of a page of the bitmap. -/
def TrimVolume.page (v : TrimVolume) (index : Nat) : Nat → Bool := fun i => v.bits (index * bitmapPageBits + i)

/-- A cluster with a byte that a discard takes. -/
def Discard.Takes (v : TrimVolume) (d : Discard) (cluster : Nat) : Prop :=
  ∃ byte, d.sector * 512 ≤ byte ∧ byte < (d.sector + d.sectors) * 512 ∧ byte / v.clusterSize = cluster

/-- A discard is of bytes of some clusters. -/
def Discard.Within (v : TrimVolume) (d : Discard) (first last : Nat) : Prop :=
  first * v.clusterSize ≤ d.sector * 512 ∧ (d.sector + d.sectors) * 512 ≤ last * v.clusterSize

section Range

variable {v : TrimVolume} {range : FstrimRange} {x : Nat}

theorem Discard.Within.takes {d : Discard} {first last cluster : Nat} (within : d.Within v first last)
    (takes : d.Takes v cluster) : first ≤ cluster ∧ cluster < last := by
  obtain ⟨byte, lower, upper, rfl⟩ := takes
  have size : 0 < v.clusterSize := Nat.two_pow_pos _
  rw [Nat.le_div_iff_mul_le size, Nat.div_lt_iff_lt_mul size]
  exact ⟨within.1.trans lower, upper.trans_le within.2⟩

end Range

section Gaps

variable {v : TrimVolume} {range : FstrimRange} {faults : TrimFaults} {bitmap : Nat → Bool} {startBuf endBuf : Nat}

end Gaps

/-- Nothing fails. -/
def TrimFaults.never : TrimFaults := ⟨true, fun _ => none, fun _ => none⟩

end Ttntfs.Ntfs
