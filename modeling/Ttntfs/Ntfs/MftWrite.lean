import Ttntfs.Library.ByteMemory
import Ttntfs.Ntfs.Runlist

/-!
# Writing an MFT record

The write path of one MFT record: `ntfs_get_block_mft_record` looks up at most two
clusters of the record in the run list of `$MFT`, and `write_mft_record_nolock` protects
the record in its page and issues one transfer for each of these clusters, and one for
the copy in `$MFTMirr`. A transfer is kept as the sector it starts at and the part of
the page it sends, so that the device bytes a record byte reaches can be read off.

The record ends up where `$MFT` maps it exactly when it spans at most two clusters, or
when all of its clusters follow one another on the device and the first two are in one
run.
-/

namespace Ttntfs.Ntfs

open Ttntfs.Library.ByteMemory

/-! ## Protecting a record -/

/-- `NTFS_BLOCK_SIZE` -/
def ntfsBlockSize : Nat := 512
/-- `SECTOR_SHIFT`, as the sector size it stands for. -/
def sectorSize : Nat := 512
/-- `magic_BAAD` -/
def magicBaad : Nat := 0x44414142
/-- `magic_HOLE` -/
def magicHole : Nat := 0x454c4f48
/-- The offset of `usa_ofs` in `struct ntfs_record`. -/
def recordUsaOfs : Nat := 0x04
/-- The offset of `usa_count` in `struct ntfs_record`. -/
def recordUsaCount : Nat := 0x06

/-- The `while (usa_count--)` of `pre_write_mst_fixup`: the last word of each block goes
to the update sequence array and is replaced by the update sequence number. -/
def protectBlocks (usn usaPos dataPos : Nat) : Nat → Mem → Mem
  | 0, record => record
  | count + 1, record =>
    protectBlocks usn (usaPos + 2) (dataPos + ntfsBlockSize) count
      (putLE (putLE record 2 (usaPos + 2) (getLE record 2 dataPos)) 2 dataPos usn)

/-- `pre_write_mst_fixup`; none is `-EINVAL`. -/
def preWriteMstFixup (record : Mem) (size : Nat) : Option Mem :=
  let magic := getLE record 4 0
  let usaOfs := getLE record 2 recordUsaOfs
  let usaCount := (getLE record 2 recordUsaCount + 2 ^ 16 - 1) % 2 ^ 16
  let raised := (getLE record 2 usaOfs + 1) % 2 ^ 16
  let usn := if raised = 0xffff ∨ raised = 0 then 1 else raised
  if magic = magicBaad ∨ magic = magicHole then none
  else if size % ntfsBlockSize ≠ 0 ∨ usaOfs % 2 ≠ 0 ∨ usaOfs + usaCount * 2 > size ∨
      size / ntfsBlockSize ≠ usaCount then none
  else some (protectBlocks usn usaOfs (ntfsBlockSize - 2) usaCount (putLE record 2 usaOfs usn))

/-! ## The write path -/

/-- The sizes of a volume, by their bits. `parse_ntfs_boot_sector` refuses record sizes
above the page size, and no size is below a sector. -/
structure Geometry where
  clusterBits : Nat
  recordBits : Nat
  pageBits : Nat
  cluster_sectors : 9 ≤ clusterBits
  record_sectors : 9 ≤ recordBits
  record_page : recordBits ≤ pageBits

namespace Geometry

/-- `vol->cluster_size` -/
def clusterSize (g : Geometry) : Nat := 2 ^ g.clusterBits
/-- `vol->mft_record_size` -/
def mftRecordSize (g : Geometry) : Nat := 2 ^ g.recordBits
/-- `PAGE_SIZE` -/
def pageSize (g : Geometry) : Nat := 2 ^ g.pageBits

end Geometry

/-- What the volume knows of `$MFTMirr`: whether its inode is there and its page can be
read, the first cluster, and how many records it copies. -/
structure MftMirror where
  readable : Bool
  lcn : Nat
  size : Nat

/-- A write request of one page fragment: `bi_sector`, and where in the page the
fragment lies. -/
structure Bio where
  sector : Nat
  folioOfs : Nat
  length : Nat
  deriving DecidableEq

/-- Errors of the write path. -/
inductive Errno where
  | einval
  | eio
  deriving DecidableEq

/-- `bio_add_folio` refuses a fragment that leaves the page. -/
def bioAddFolio (g : Geometry) (bio : Bio) : Bool := bio.folioOfs + bio.length ≤ g.pageSize

/-- `NTFS_MFT_NR_TO_POFS` -/
def mftNrToPofs (g : Geometry) (mftNo : Nat) : Nat := mftNo * g.mftRecordSize % g.pageSize

/-- `NTFS_MFT_NR_TO_PIDX` -/
def mftNrToPidx (g : Geometry) (mftNo : Nat) : Nat := mftNo / (g.pageSize / g.mftRecordSize)

/-- `NTFS_MFT_NR_TO_CLU`, the vcn of the first cluster of a record. -/
def mftNrToClu (g : Geometry) (mftNo : Nat) : Nat := mftNo * g.mftRecordSize / g.clusterSize

/-- How many clusters the element that a vcn was sought to has from that vcn on. -/
def clustersLeft (rl : List RunlistElement) (vcn : Nat) : Nat :=
  match rl with
  | [] => 0
  | element :: _ => element.length - (vcn - element.vcn)

/-- `ntfs_get_block_mft_record`: the entries of `mft_lcn` it fills in, for an inode whose
`mft_lcn[0]` is not known yet. -/
def getBlockMftRecord (g : Geometry) (rl : List RunlistElement) (mftNo : Nat) : List Int :=
  let vcn := mftNrToClu g mftNo
  let sought := rlSeek vcn rl
  let first := ntfsRlVcnToLcn sought vcn
  if g.clusterSize < g.mftRecordSize ∧ clustersLeft sought vcn ≤ 1 then
    [first, ntfsRlVcnToLcn sought.tail (vcn + 1)]
  else [first]

/-- The request for the part of a record at one of its clusters. -/
def recordBio (g : Geometry) (mftNo chunk offset : Nat) (lcn : Int) : Bio where
  sector :=
    (lcn.toNat * g.clusterSize + (mftNo * g.mftRecordSize + offset) % g.clusterSize) / sectorSize
  folioOfs := mftNrToPofs g mftNo + offset
  length := chunk

/-- The loop of `write_mft_record_nolock`: the requests it submits, and whether it got
through. -/
def submitRecord (g : Geometry) (mftNo chunk : Nat) : Nat → List Int → List Bio × Bool
  | _, [] => ([], true)
  | offset, lcn :: rest =>
    if bioAddFolio g (recordBio g mftNo chunk offset lcn) then
      let (bios, finished) := submitRecord g mftNo chunk (offset + g.clusterSize) rest
      (recordBio g mftNo chunk offset lcn :: bios, finished)
    else ([], false)

/-- The request of `ntfs_sync_mft_mirror`. Its page holds a copy of the protected record
at the place the record has in its own page. -/
def mirrorBio (g : Geometry) (mirror : MftMirror) (mftNo : Nat) : Bio where
  sector := (mirror.lcn * g.clusterSize + mftNrToPidx g mftNo * g.pageSize + mftNrToPofs g mftNo) /
    sectorSize
  folioOfs := mftNrToPofs g mftNo
  length := g.mftRecordSize

/-- `ntfs_sync_mft_mirror`: the requests it submits, and its error. -/
def syncMftMirror (g : Geometry) (mirror : MftMirror) (mftNo : Nat) : List Bio × Option Errno :=
  if mirror.readable then
    if bioAddFolio g (mirrorBio g mirror mftNo) then ([mirrorBio g mirror mftNo], none)
    else ([], some .eio)
  else ([], some .eio)

/-- What a call of `write_mft_record_nolock` leaves: the bytes of the record in its page,
the requests for the record and for its mirror copy, and the error it returns. -/
structure Written where
  record : Mem
  bios : List Bio
  mirror : List Bio
  error : Option Errno

/-- `write_mft_record_nolock` of a dirty inode, on a device that takes every request. The
mirror is synchronised once behind the loop, or once in every round when the caller does
not wait. -/
def writeMftRecordNolock (g : Geometry) (mirror : MftMirror) (mftNo : Nat) (mftLcn : List Int)
    (record : Mem) (sync : Bool) : Written :=
  match preWriteMstFixup record g.mftRecordSize with
  | none => ⟨record, [], [], some .einval⟩
  | some fixed =>
    let (bios, finished) := submitRecord g mftNo (g.mftRecordSize / mftLcn.length) 0 mftLcn
    let (copies, error) :=
      if mftNo < mirror.size then syncMftMirror g mirror mftNo else ([], none)
    if sync then
      if finished then ⟨fixed, bios, copies, error⟩ else ⟨fixed, bios, [], some .eio⟩
    else
      let rounds := (List.replicate bios.length copies).flatten
      if finished then ⟨fixed, bios, rounds, error⟩ else ⟨fixed, bios, rounds, some .eio⟩

/-! ## Where the record goes -/

/-- A request stores a byte of its page at a device byte. -/
def Bio.Stores (bio : Bio) (pageByte deviceByte : Nat) : Prop :=
  ∃ d < bio.length, pageByte = bio.folioOfs + d ∧ deviceByte = bio.sector * sectorSize + d

/-- Some request stores a byte of the page at a device byte. -/
def Stored (bios : List Bio) (pageByte deviceByte : Nat) : Prop :=
  ∃ bio ∈ bios, bio.Stores pageByte deviceByte

/-- The device byte that a run list assigns to an offset. -/
def runlistByte (g : Geometry) (rl : List RunlistElement) (offset : Nat) : Option Nat :=
  let lcn := ntfsRlVcnToLcn rl (offset / g.clusterSize)
  if 0 ≤ lcn then some (lcn.toNat * g.clusterSize + offset % g.clusterSize) else none

/-- The requests store every byte of the record, and nothing else, where the run list of
`$MFT` has it. -/
def RecordStored (g : Geometry) (rl : List RunlistElement) (mftNo : Nat) (bios : List Bio) : Prop :=
  ∀ pageByte deviceByte, Stored bios pageByte deviceByte ↔
    ∃ k < g.mftRecordSize, pageByte = mftNrToPofs g mftNo + k ∧
      runlistByte g rl (mftNo * g.mftRecordSize + k) = some deviceByte

/-- A call wrote every byte of the protected record where the run list of `$MFT` has it
and at its place in the mirror, and nothing else. -/
structure WrittenInPlace (g : Geometry) (mirror : MftMirror) (rl : List RunlistElement) (mftNo : Nat)
    (record : Mem) (written : Written) : Prop where
  fixed : preWriteMstFixup record g.mftRecordSize = some written.record
  no_error : written.error = none
  record_bytes : RecordStored g rl mftNo written.bios
  mirror_bytes : ∀ pageByte deviceByte, Stored written.mirror pageByte deviceByte ↔
    mftNo < mirror.size ∧ ∃ k < g.mftRecordSize, pageByte = mftNrToPofs g mftNo + k ∧
      deviceByte = mirror.lcn * g.clusterSize + mftNo * g.mftRecordSize + k

/-- Every cluster of a record is mapped. -/
def RecordMapped (g : Geometry) (rl : List RunlistElement) (mftNo : Nat) : Prop :=
  ∀ k < g.mftRecordSize,
    0 ≤ ntfsRlVcnToLcn rl ((mftNo * g.mftRecordSize + k) / g.clusterSize)

/-- The clusters of a record follow one another on the device, and the run of the first
one holds the second one too. -/
structure RecordContiguous (g : Geometry) (rl : List RunlistElement) (mftNo : Nat) : Prop where
  two_left : 2 ≤ clustersLeft (rlSeek (mftNrToClu g mftNo) rl) (mftNrToClu g mftNo)
  consecutive : ∀ j < g.mftRecordSize / g.clusterSize,
    ntfsRlVcnToLcn rl (mftNrToClu g mftNo + j) = ntfsRlVcnToLcn rl (mftNrToClu g mftNo) + j

theorem multiple_mod_add_le {unit block : Nat} (positive : 0 < block) (divides : unit ∣ block)
    (n : Nat) : n * unit % block + unit ≤ block := by
  obtain ⟨count, rfl⟩ := divides
  have below : n % count < count := Nat.mod_lt n (Nat.pos_of_mul_pos_left positive)
  rw [Nat.mul_comm n, Nat.mul_mod_mul_left]
  calc unit * (n % count) + unit = unit * (n % count + 1) := by ring
    _ ≤ unit * count := Nat.mul_le_mul_left _ below

namespace Geometry

variable (g : Geometry)

theorem clusterSize_pos : 0 < g.clusterSize := Nat.two_pow_pos _

theorem mftRecordSize_pos : 0 < g.mftRecordSize := Nat.two_pow_pos _

theorem sector_dvd_cluster : sectorSize ∣ g.clusterSize :=
  Nat.pow_dvd_pow 2 g.cluster_sectors

theorem sector_dvd_record : sectorSize ∣ g.mftRecordSize :=
  Nat.pow_dvd_pow 2 g.record_sectors

theorem record_dvd_page : g.mftRecordSize ∣ g.pageSize :=
  Nat.pow_dvd_pow 2 g.record_page

theorem record_dvd_cluster (small : g.mftRecordSize ≤ g.clusterSize) :
    g.mftRecordSize ∣ g.clusterSize :=
  Nat.pow_dvd_pow 2 ((Nat.pow_le_pow_iff_right (by decide)).mp small)

theorem two_clusters_dvd_record (large : g.clusterSize < g.mftRecordSize) :
    2 * g.clusterSize ∣ g.mftRecordSize := by
  have bits : g.clusterBits < g.recordBits := (Nat.pow_lt_pow_iff_right (by decide)).mp large
  have doubled : 2 * g.clusterSize = 2 ^ (g.clusterBits + 1) := by
    rw [Nat.pow_succ, Nat.mul_comm]
    rfl
  rw [doubled]
  exact Nat.pow_dvd_pow 2 bits

theorem record_in_page (mftNo : Nat) : mftNrToPofs g mftNo + g.mftRecordSize ≤ g.pageSize :=
  multiple_mod_add_le (Nat.two_pow_pos _) g.record_dvd_page mftNo

theorem cluster_dvd_record (large : g.clusterSize < g.mftRecordSize) :
    g.clusterSize ∣ g.mftRecordSize :=
  Dvd.dvd.trans (Nat.dvd_mul_left _ _) (g.two_clusters_dvd_record large)

theorem page_offset (mftNo : Nat) :
    mftNrToPidx g mftNo * g.pageSize + mftNrToPofs g mftNo = mftNo * g.mftRecordSize := by
  obtain ⟨count, page⟩ := g.record_dvd_page
  rw [mftNrToPidx, mftNrToPofs, page, Nat.mul_div_cancel_left _ g.mftRecordSize_pos,
    Nat.mul_comm mftNo, Nat.mul_mod_mul_left]
  calc mftNo / count * (g.mftRecordSize * count) + g.mftRecordSize * (mftNo % count)
      = g.mftRecordSize * (count * (mftNo / count) + mftNo % count) := by ring
    _ = g.mftRecordSize * mftNo := by rw [Nat.div_add_mod]

end Geometry

section Requests

variable {g : Geometry} {mirror : MftMirror} {rl : List RunlistElement} {mftNo : Nat}

theorem bioAddFolio_iff (bio : Bio) :
    bioAddFolio g bio = true ↔ bio.folioOfs + bio.length ≤ g.pageSize := by
  rw [bioAddFolio, decide_eq_true_iff]

/-- Where the request at one cluster of a record stores its bytes. -/
theorem recordBio_stores {chunk offset : Nat} (whole : sectorSize ∣ offset) (lcn : Int)
    (pageByte deviceByte : Nat) :
    (recordBio g mftNo chunk offset lcn).Stores pageByte deviceByte ↔
      ∃ d < chunk, pageByte = mftNrToPofs g mftNo + offset + d ∧
        deviceByte = lcn.toNat * g.clusterSize +
          (mftNo * g.mftRecordSize + offset) % g.clusterSize + d := by
  have aligned : sectorSize ∣
      lcn.toNat * g.clusterSize + (mftNo * g.mftRecordSize + offset) % g.clusterSize := by
    have inRecord : sectorSize ∣ mftNo * g.mftRecordSize + offset :=
      Nat.dvd_add (Dvd.dvd.mul_left g.sector_dvd_record mftNo) whole
    apply Nat.dvd_add
    · exact Dvd.dvd.mul_left g.sector_dvd_cluster _
    · exact (Nat.dvd_mod_iff g.sector_dvd_cluster).mpr inRecord
  simp only [Bio.Stores, recordBio, Nat.div_mul_cancel aligned]

theorem submitRecord_one (lcn : Int) : submitRecord g mftNo g.mftRecordSize 0 [lcn] =
    ([recordBio g mftNo g.mftRecordSize 0 lcn], true) := by
  have fits := g.record_in_page mftNo
  have added : bioAddFolio g (recordBio g mftNo g.mftRecordSize 0 lcn) = true := by
    rw [bioAddFolio_iff]
    exact fits
  simp only [submitRecord, added, if_true]

/-- The requests of a record of which two clusters are known. -/
theorem submitRecord_two (large : g.clusterSize < g.mftRecordSize) (first second : Int) :
    submitRecord g mftNo (g.mftRecordSize / 2) 0 [first, second] =
      ([recordBio g mftNo (g.mftRecordSize / 2) 0 first,
        recordBio g mftNo (g.mftRecordSize / 2) g.clusterSize second], true) := by
  have fits := g.record_in_page mftNo
  obtain ⟨half, clusters⟩ := g.two_clusters_dvd_record large
  have half_pos : 0 < half := by
    rcases Nat.eq_zero_or_pos half with none | some
    · rw [clusters, none, Nat.mul_zero] at large
      omega
    · exact some
  have cluster_le : g.clusterSize ≤ g.clusterSize * half := Nat.le_mul_of_pos_right _ half_pos
  rw [Nat.mul_assoc] at clusters
  have firstAdded : bioAddFolio g (recordBio g mftNo (g.mftRecordSize / 2) 0 first) = true := by
    rw [bioAddFolio_iff]
    simp only [recordBio]
    omega
  have secondAdded :
      bioAddFolio g (recordBio g mftNo (g.mftRecordSize / 2) g.clusterSize second) = true := by
    rw [bioAddFolio_iff]
    simp only [recordBio]
    omega
  simp only [submitRecord, firstAdded, Nat.zero_add, secondAdded, if_true]

theorem syncMftMirror_readable (readable : mirror.readable = true) :
    syncMftMirror g mirror mftNo = ([mirrorBio g mirror mftNo], none) := by
  have added : bioAddFolio g (mirrorBio g mirror mftNo) = true := by
    rw [bioAddFolio_iff]
    exact g.record_in_page mftNo
  simp only [syncMftMirror, readable, added, if_true]

theorem mirrorBio_stores (pageByte deviceByte : Nat) :
    (mirrorBio g mirror mftNo).Stores pageByte deviceByte ↔
      ∃ k < g.mftRecordSize, pageByte = mftNrToPofs g mftNo + k ∧
        deviceByte = mirror.lcn * g.clusterSize + mftNo * g.mftRecordSize + k := by
  have place : mirror.lcn * g.clusterSize + mftNrToPidx g mftNo * g.pageSize + mftNrToPofs g mftNo =
      mirror.lcn * g.clusterSize + mftNo * g.mftRecordSize := by
    rw [Nat.add_assoc, g.page_offset]
  have aligned : sectorSize ∣ mirror.lcn * g.clusterSize + mftNo * g.mftRecordSize :=
    Nat.dvd_add (Dvd.dvd.mul_left g.sector_dvd_cluster _) (Dvd.dvd.mul_left g.sector_dvd_record _)
  simp only [Bio.Stores, mirrorBio, place, Nat.div_mul_cancel aligned]

theorem stored_rounds {rounds : Nat} (some_round : 0 < rounds) (copies : List Bio)
    (pageByte deviceByte : Nat) :
    Stored (List.replicate rounds copies).flatten pageByte deviceByte ↔
      Stored copies pageByte deviceByte := by
  have nonzero : rounds ≠ 0 := by omega
  simp [Stored, List.mem_flatten, List.mem_replicate, nonzero]

/-- What remains to be seen of a call whose requests were all submitted: the mirror copy
and the result are right. -/
theorem writtenInPlace_iff {record fixed : Mem} {lcns : List Int} {bios : List Bio} {sync : Bool}
    (protectable : preWriteMstFixup record g.mftRecordSize = some fixed)
    (readable : mirror.readable = true) (some_request : 0 < bios.length)
    (submitted : submitRecord g mftNo (g.mftRecordSize / lcns.length) 0 lcns = (bios, true)) :
    WrittenInPlace g mirror rl mftNo record
        (writeMftRecordNolock g mirror mftNo lcns record sync) ↔
      RecordStored g rl mftNo bios := by
  -- the mirror requests of a call that waits for them
  have copies : ∀ pageByte deviceByte,
      Stored (if mftNo < mirror.size then syncMftMirror g mirror mftNo else ([], none)).1
          pageByte deviceByte ↔
        mftNo < mirror.size ∧ ∃ k < g.mftRecordSize, pageByte = mftNrToPofs g mftNo + k ∧
          deviceByte = mirror.lcn * g.clusterSize + mftNo * g.mftRecordSize + k := by
    intro pageByte deviceByte
    by_cases mirrored : mftNo < mirror.size
    · rw [if_pos mirrored, syncMftMirror_readable readable, ← mirrorBio_stores]
      simp [Stored, mirrored]
    · simp [Stored, mirrored]
  have quiet :
      (if mftNo < mirror.size then syncMftMirror g mirror mftNo else ([], none)).2 = none := by
    split
    · rw [syncMftMirror_readable readable]
    · rfl
  constructor
  · intro inPlace
    have requests := inPlace.record_bytes
    cases sync <;> simpa [writeMftRecordNolock, protectable, submitted] using requests
  · intro stored
    cases sync
    · simp only [writeMftRecordNolock, protectable, submitted]
      exact ⟨protectable, quiet, stored, fun pageByte deviceByte =>
        (stored_rounds some_request _ pageByte deviceByte).trans (copies pageByte deviceByte)⟩
    · simp only [writeMftRecordNolock, protectable, submitted]
      exact ⟨protectable, quiet, stored, copies⟩

theorem RecordMapped.first (mapped : RecordMapped g rl mftNo) :
    0 ≤ ntfsRlVcnToLcn rl (mftNrToClu g mftNo) :=
  mapped 0 g.mftRecordSize_pos

/-- The clusters that are looked up for a record: the first one, and the second one where
the run of the first ends with it. -/
theorem getBlockMftRecord_mapped (valid : RlFrom 0 rl) (mapped : RecordMapped g rl mftNo) :
    getBlockMftRecord g rl mftNo =
      if g.clusterSize < g.mftRecordSize ∧
          clustersLeft (rlSeek (mftNrToClu g mftNo) rl) (mftNrToClu g mftNo) ≤ 1 then
        [ntfsRlVcnToLcn rl (mftNrToClu g mftNo), ntfsRlVcnToLcn rl (mftNrToClu g mftNo + 1)]
      else [ntfsRlVcnToLcn rl (mftNrToClu g mftNo)] := by
  generalize start : mftNrToClu g mftNo = vcn
  have here : 0 ≤ ntfsRlVcnToLcn rl vcn := by
    rw [← start]
    exact mapped.first
  obtain ⟨element, rest, sought, suffix, below, above, same⟩ := valid.seek (Nat.zero_le vcn) here
  have firstLcn : ntfsRlVcnToLcn (rlSeek vcn rl) vcn = ntfsRlVcnToLcn rl vcn := by
    rw [sought]
    exact same vcn (Nat.le_refl vcn)
  by_cases short : g.clusterSize < g.mftRecordSize ∧ clustersLeft (rlSeek vcn rl) vcn ≤ 1
  · have last : element.vcn + element.length ≤ vcn + 1 := by
      have left := short.2
      rw [sought] at left
      simp only [clustersLeft] at left
      omega
    have secondLcn : ntfsRlVcnToLcn (rlSeek vcn rl).tail (vcn + 1) = ntfsRlVcnToLcn rl (vcn + 1) := by
      rw [sought, List.tail_cons, ← suffix.behind (by omega) last]
      exact same (vcn + 1) (Nat.le_succ vcn)
    rw [if_pos short, getBlockMftRecord, start, if_pos short, firstLcn, secondLcn]
  · rw [if_neg short, getBlockMftRecord, start, if_neg short, firstLcn]

/-- One request stores the record in place exactly when the run list has its bytes one
behind the other. -/
theorem one_request_iff (lcn : Int) :
    RecordStored g rl mftNo [recordBio g mftNo g.mftRecordSize 0 lcn] ↔
      ∀ k < g.mftRecordSize, runlistByte g rl (mftNo * g.mftRecordSize + k) =
        some (lcn.toNat * g.clusterSize + mftNo * g.mftRecordSize % g.clusterSize + k) := by
  have stores := @recordBio_stores g mftNo g.mftRecordSize 0 (Nat.dvd_zero sectorSize) lcn
  simp only [Nat.add_zero] at stores
  simp only [RecordStored, Stored, List.mem_singleton, exists_eq_left, stores]
  constructor
  · intro inPlace k below
    obtain ⟨other, _, same, device⟩ := (inPlace _ _).mp ⟨k, below, rfl, rfl⟩
    have offset : other = k := by omega
    rw [← offset, device, offset]
  · intro bytes pageByte deviceByte
    constructor
    · rintro ⟨d, below, page, device⟩
      exact ⟨d, below, page, by rw [bytes d below, device]⟩
    · rintro ⟨k, below, page, device⟩
      rw [bytes k below, Option.some.injEq] at device
      exact ⟨k, below, page, device.symm⟩

/-- The byte that the run list has for an offset of a record in one cluster. -/
theorem runlistByte_small (small : g.mftRecordSize ≤ g.clusterSize)
    (mapped : RecordMapped g rl mftNo) {k : Nat} (below : k < g.mftRecordSize) :
    runlistByte g rl (mftNo * g.mftRecordSize + k) =
      some ((ntfsRlVcnToLcn rl (mftNrToClu g mftNo)).toNat * g.clusterSize +
        mftNo * g.mftRecordSize % g.clusterSize + k) := by
  have room := multiple_mod_add_le g.clusterSize_pos (g.record_dvd_cluster small) mftNo
  have inside : mftNo * g.mftRecordSize % g.clusterSize + k < g.clusterSize := by omega
  have split : mftNo * g.mftRecordSize + k =
      g.clusterSize * (mftNo * g.mftRecordSize / g.clusterSize) +
        (mftNo * g.mftRecordSize % g.clusterSize + k) := by
    rw [← Nat.add_assoc, Nat.div_add_mod]
  have cluster : (mftNo * g.mftRecordSize + k) / g.clusterSize =
      mftNrToClu g mftNo := by
    rw [mftNrToClu, split, Nat.mul_add_div g.clusterSize_pos, Nat.div_eq_of_lt inside, Nat.add_zero]
  have place : (mftNo * g.mftRecordSize + k) % g.clusterSize =
      mftNo * g.mftRecordSize % g.clusterSize + k := by
    rw [split, Nat.mul_add_mod, Nat.mod_eq_of_lt inside]
  have here := mapped k below
  rw [runlistByte, place, ← cluster, if_pos here, Nat.add_assoc]

theorem runlistByte_large (large : g.clusterSize < g.mftRecordSize)
    (mapped : RecordMapped g rl mftNo) {k : Nat} (below : k < g.mftRecordSize) :
    runlistByte g rl (mftNo * g.mftRecordSize + k) =
      some ((ntfsRlVcnToLcn rl (mftNrToClu g mftNo + k / g.clusterSize)).toNat *
        g.clusterSize + k % g.clusterSize) := by
  have whole : g.clusterSize ∣ mftNo * g.mftRecordSize :=
    Dvd.dvd.mul_left (g.cluster_dvd_record large) mftNo
  have place : (mftNo * g.mftRecordSize + k) % g.clusterSize = k % g.clusterSize := by
    obtain ⟨clusters, start⟩ := whole
    rw [start, Nat.mul_add_mod]
  have here := mapped k below
  rw [mftNrToClu, ← Nat.add_div_of_dvd_right whole, runlistByte, if_pos here, place]

/-- One request stores a record of several clusters in place exactly when these follow
one another on the device. -/
theorem one_request_large (large : g.clusterSize < g.mftRecordSize)
    (mapped : RecordMapped g rl mftNo) :
    RecordStored g rl mftNo
        [recordBio g mftNo g.mftRecordSize 0 (ntfsRlVcnToLcn rl (mftNrToClu g mftNo))] ↔
      ∀ j < g.mftRecordSize / g.clusterSize,
        ntfsRlVcnToLcn rl (mftNrToClu g mftNo + j) = ntfsRlVcnToLcn rl (mftNrToClu g mftNo) + j := by
  have positive := g.clusterSize_pos
  have whole : g.clusterSize ∣ mftNo * g.mftRecordSize :=
    Dvd.dvd.mul_left (g.cluster_dvd_record large) mftNo
  have first := mapped.first
  have later : ∀ j < g.mftRecordSize / g.clusterSize,
      0 ≤ ntfsRlVcnToLcn rl (mftNrToClu g mftNo + j) := by
    intro j below
    have inside : g.clusterSize * j < g.mftRecordSize :=
      (Nat.lt_div_iff_mul_lt' (g.cluster_dvd_record large) j).mp below
    have there := mapped _ inside
    rwa [Nat.add_div_of_dvd_right whole, Nat.mul_div_cancel_left _ positive] at there
  rw [one_request_iff, Nat.mod_eq_zero_of_dvd whole, Nat.add_zero]
  constructor
  · intro bytes j below
    have inside : g.clusterSize * j < g.mftRecordSize :=
      (Nat.lt_div_iff_mul_lt' (g.cluster_dvd_record large) j).mp below
    have device := bytes _ inside
    have there := later j below
    rw [runlistByte_large large mapped inside, Nat.mul_mod_right, Nat.add_zero,
      Nat.mul_div_cancel_left _ positive, Option.some.injEq, Nat.mul_comm g.clusterSize,
      ← Nat.add_mul] at device
    have lcns := Nat.eq_of_mul_eq_mul_right positive device
    omega
  · intro consecutive k below
    have inside : k / g.clusterSize < g.mftRecordSize / g.clusterSize :=
      Nat.div_lt_div_of_lt_of_dvd (g.cluster_dvd_record large) below
    have there := later _ inside
    have lcn : (ntfsRlVcnToLcn rl (mftNrToClu g mftNo + k / g.clusterSize)).toNat =
        (ntfsRlVcnToLcn rl (mftNrToClu g mftNo)).toNat + k / g.clusterSize := by
      have next := consecutive _ inside
      generalize k / g.clusterSize = j at next there ⊢
      omega
    rw [runlistByte_large large mapped below, lcn, Nat.add_mul, Nat.add_assoc, Nat.mul_comm (k / _),
      Nat.div_add_mod]

/-- Two requests store a record of several clusters in place exactly when it has two. -/
theorem two_requests_iff (large : g.clusterSize < g.mftRecordSize)
    (mapped : RecordMapped g rl mftNo) :
    RecordStored g rl mftNo
        [recordBio g mftNo (g.mftRecordSize / 2) 0 (ntfsRlVcnToLcn rl (mftNrToClu g mftNo)),
          recordBio g mftNo (g.mftRecordSize / 2) g.clusterSize
            (ntfsRlVcnToLcn rl (mftNrToClu g mftNo + 1))] ↔
      g.mftRecordSize ≤ 2 * g.clusterSize := by
  have positive := g.clusterSize_pos
  have whole : g.clusterSize ∣ mftNo * g.mftRecordSize :=
    Dvd.dvd.mul_left (g.cluster_dvd_record large) mftNo
  have firstStores := @recordBio_stores g mftNo (g.mftRecordSize / 2) 0 (Nat.dvd_zero sectorSize)
    (ntfsRlVcnToLcn rl (mftNrToClu g mftNo))
  have secondStores := @recordBio_stores g mftNo (g.mftRecordSize / 2) g.clusterSize
    g.sector_dvd_cluster (ntfsRlVcnToLcn rl (mftNrToClu g mftNo + 1))
  simp only [Nat.add_mod_right, Nat.mod_eq_zero_of_dvd whole, Nat.add_zero] at firstStores secondStores
  simp only [RecordStored, Stored, List.mem_cons, List.not_mem_nil, or_false, exists_eq_or_imp,
    exists_eq_left, firstStores, secondStores]
  constructor
  · intro inPlace
    -- the last byte of a longer record is in neither request
    by_contra longer
    have last : g.mftRecordSize - 1 < g.mftRecordSize := by omega
    have stored := (inPlace _ _).mpr ⟨g.mftRecordSize - 1, last, rfl, runlistByte_large large mapped last⟩
    obtain ⟨half, clusters⟩ := g.two_clusters_dvd_record large
    have several : 2 ≤ half := by
      by_contra few
      have bound : 2 * g.clusterSize * half ≤ 2 * g.clusterSize * 1 :=
        Nat.mul_le_mul_left _ (by omega)
      omega
    have many : 2 * g.clusterSize * 2 ≤ g.mftRecordSize := by
      rw [clusters]
      exact Nat.mul_le_mul_left _ several
    rcases stored with ⟨d, below, page, _⟩ | ⟨d, below, page, _⟩
    · omega
    · omega
  · intro short pageByte deviceByte
    have size : g.mftRecordSize = 2 * g.clusterSize :=
      Nat.le_antisymm short (Nat.le_of_dvd g.mftRecordSize_pos (g.two_clusters_dvd_record large))
    have chunk : g.mftRecordSize / 2 = g.clusterSize := by omega
    rw [chunk]
    constructor
    · rintro (⟨d, below, page, device⟩ | ⟨d, below, page, device⟩)
      · have inside : d < g.mftRecordSize := by omega
        refine ⟨d, inside, by omega, ?_⟩
        rw [runlistByte_large large mapped inside, Nat.div_eq_of_lt below, Nat.mod_eq_of_lt below,
          device]
        rfl
      · have inside : g.clusterSize + d < g.mftRecordSize := by omega
        refine ⟨g.clusterSize + d, inside, by omega, ?_⟩
        rw [runlistByte_large large mapped inside, Nat.add_div_left _ positive,
          Nat.add_mod_left, Nat.div_eq_of_lt below, Nat.mod_eq_of_lt below, device]
    · rintro ⟨k, below, page, device⟩
      rw [runlistByte_large large mapped below, Option.some.injEq] at device
      by_cases firstCluster : k < g.clusterSize
      · left
        rw [Nat.div_eq_of_lt firstCluster, Nat.mod_eq_of_lt firstCluster] at device
        exact ⟨k, firstCluster, by omega, device.symm⟩
      · right
        obtain ⟨d, rfl⟩ : ∃ d, k = g.clusterSize + d := ⟨k - g.clusterSize, by omega⟩
        have inside : d < g.clusterSize := by omega
        rw [Nat.add_div_left _ positive, Nat.add_mod_left, Nat.div_eq_of_lt inside,
          Nat.mod_eq_of_lt inside] at device
        exact ⟨d, inside, by omega, device.symm⟩

theorem second_cluster (valid : RlFrom 0 rl) (mapped : RecordMapped g rl mftNo)
    (two_left : 2 ≤ clustersLeft (rlSeek (mftNrToClu g mftNo) rl) (mftNrToClu g mftNo)) :
    ntfsRlVcnToLcn rl (mftNrToClu g mftNo + 1) = ntfsRlVcnToLcn rl (mftNrToClu g mftNo) + 1 := by
  have here := mapped.first
  generalize mftNrToClu g mftNo = vcn at two_left here ⊢
  obtain ⟨element, rest, sought, suffix, below, above, same⟩ := valid.seek (Nat.zero_le vcn) here
  rw [sought] at two_left
  simp only [clustersLeft] at two_left
  have inRun : vcn + 1 < element.vcn + element.length := by omega
  rw [← same vcn (Nat.le_refl vcn)] at here ⊢
  rw [← same (vcn + 1) (Nat.le_succ vcn)]
  exact suffix.within below inRun here

/-- A record is written where `$MFT` maps it, and nothing else is, exactly when it spans
at most two clusters, or when its clusters follow one another on the device and the run
of the first one does not end with it. -/
theorem mft_record_written_in_place_iff {record : Mem} (sync : Bool) (valid : RlFrom 0 rl)
    (mapped : RecordMapped g rl mftNo)
    (protectable : (preWriteMstFixup record g.mftRecordSize).isSome)
    (readable : mirror.readable = true) :
    WrittenInPlace g mirror rl mftNo record
        (writeMftRecordNolock g mirror mftNo (getBlockMftRecord g rl mftNo) record sync) ↔
      g.mftRecordSize ≤ 2 * g.clusterSize ∨ RecordContiguous g rl mftNo := by
  obtain ⟨fixed, protectable⟩ := Option.isSome_iff_exists.mp protectable
  rw [getBlockMftRecord_mapped valid mapped]
  by_cases two : g.clusterSize < g.mftRecordSize ∧
      clustersLeft (rlSeek (mftNrToClu g mftNo) rl) (mftNrToClu g mftNo) ≤ 1
  · rw [if_pos two, writtenInPlace_iff protectable readable (by simp) (submitRecord_two two.1 _ _),
      two_requests_iff two.1 mapped]
    constructor
    · exact Or.inl
    · rintro (size | contiguous)
      · exact size
      · have left := contiguous.two_left
        omega
  · have submitted := @submitRecord_one g mftNo (ntfsRlVcnToLcn rl (mftNrToClu g mftNo))
    rw [← Nat.div_one g.mftRecordSize] at submitted
    rw [if_neg two, writtenInPlace_iff protectable readable (by simp) submitted, Nat.div_one]
    by_cases large : g.clusterSize < g.mftRecordSize
    · have two_left : 2 ≤ clustersLeft (rlSeek (mftNrToClu g mftNo) rl) (mftNrToClu g mftNo) := by
        by_contra few
        exact two ⟨large, by omega⟩
      rw [one_request_large large mapped]
      constructor
      · intro consecutive
        exact Or.inr ⟨two_left, consecutive⟩
      · rintro (size | contiguous)
        · intro j below
          have clusters : g.mftRecordSize / g.clusterSize ≤ 2 := Nat.div_le_of_le_mul (by omega)
          obtain rfl | rfl : j = 0 ∨ j = 1 := by omega
          · simp
          · exact second_cluster valid mapped two_left
        · exact contiguous.consecutive
    · have small : g.mftRecordSize ≤ g.clusterSize := by omega
      rw [one_request_iff]
      constructor
      · intro _
        left
        omega
      · intro _ k below
        exact runlistByte_small small mapped below

end Requests

/-! ## Small volumes -/

/-- Records of two clusters. -/
def twoClusterRecords : Geometry := ⟨9, 10, 12, by decide, by decide, by decide⟩

/-- Records of four clusters. -/
def fourClusterRecords : Geometry := ⟨9, 11, 12, by decide, by decide, by decide⟩

/-- A run list whose first run has three clusters. -/
def brokenRuns : List RunlistElement := [⟨0, 100, 3⟩, ⟨3, 200, 9⟩, ⟨12, lcnEnoent, 0⟩]

/-- `$MFTMirr` of the small volumes. -/
def smallMirror : MftMirror := ⟨true, 50, 4⟩

/-- A record with an update sequence array for a number of blocks. -/
def blankRecord (blocks : Nat) : Mem := putLE (putLE zeros 2 recordUsaOfs 0x30) 2 recordUsaCount (blocks + 1)

theorem brokenRuns_valid : RlFrom 0 brokenRuns :=
  .run rfl (by decide) (.run rfl (by decide) (.terminator rfl rfl (by decide)))

/-- A record that a run break cuts in two is written in place. -/
theorem mft_record_written_in_place_broken_run :
    WrittenInPlace twoClusterRecords smallMirror brokenRuns 1 (blankRecord 2)
      (writeMftRecordNolock twoClusterRecords smallMirror 1
        (getBlockMftRecord twoClusterRecords brokenRuns 1) (blankRecord 2) true) := by
  apply (mft_record_written_in_place_iff true brokenRuns_valid _ (by decide +kernel) rfl).mpr
  · left
    decide
  · intro k below
    simp only [Geometry.mftRecordSize, Geometry.clusterSize, twoClusterRecords] at below ⊢
    obtain vcn | vcn : (1 * 2 ^ 10 + k) / 2 ^ 9 = 2 ∨ (1 * 2 ^ 10 + k) / 2 ^ 9 = 3 := by omega
    · rw [vcn]
      decide
    · rw [vcn]
      decide

/-- A record of four clusters with a run break behind the third one has its last cluster
written behind the third one, not where the next run has it. -/
theorem four_cluster_record_misplaced :
    RlFrom 0 brokenRuns ∧ RecordMapped fourClusterRecords brokenRuns 0 ∧
      (preWriteMstFixup (blankRecord 4) fourClusterRecords.mftRecordSize).isSome ∧
      ¬ WrittenInPlace fourClusterRecords smallMirror brokenRuns 0 (blankRecord 4)
        (writeMftRecordNolock fourClusterRecords smallMirror 0
          (getBlockMftRecord fourClusterRecords brokenRuns 0) (blankRecord 4) true) := by
  refine ⟨brokenRuns_valid, ?_, by decide +kernel, ?_⟩
  · intro k below
    simp only [Geometry.mftRecordSize, Geometry.clusterSize, fourClusterRecords] at below ⊢
    obtain vcn | vcn | vcn | vcn : (0 * 2 ^ 11 + k) / 2 ^ 9 = 0 ∨ (0 * 2 ^ 11 + k) / 2 ^ 9 = 1 ∨
        (0 * 2 ^ 11 + k) / 2 ^ 9 = 2 ∨ (0 * 2 ^ 11 + k) / 2 ^ 9 = 3 := by omega
    · rw [vcn]
      decide
    · rw [vcn]
      decide
    · rw [vcn]
      decide
    · rw [vcn]
      decide
  · intro inPlace
    -- the first byte of the fourth cluster goes to cluster 103
    have requests : (writeMftRecordNolock fourClusterRecords smallMirror 0
        (getBlockMftRecord fourClusterRecords brokenRuns 0) (blankRecord 4) true).bios =
          [⟨100, 0, 2048⟩] := by decide +kernel
    have stored : Stored [(⟨100, 0, 2048⟩ : Bio)] 1536 (103 * 512) :=
      ⟨_, List.mem_singleton_self _, 1536, by decide, rfl, rfl⟩
    have bytes := inPlace.record_bytes
    rw [requests] at bytes
    obtain ⟨k, _, page, device⟩ := (bytes _ _).mp stored
    have offset : k = 1536 := by
      simp only [mftNrToPofs, Nat.zero_mul, Nat.zero_mod] at page
      omega
    subst offset
    exact absurd device (by decide)

end Ttntfs.Ntfs
