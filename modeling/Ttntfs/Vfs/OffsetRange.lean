import Ttntfs.Library.StatefulSteps
import Ttntfs.Vfs.FileOffsets

/-!
# Offsets that stay in range

`ntfs_write` and `ntfs_fallocate` compare the end of a request with the maximum file size
after the sum may have wrapped, `ntfs_read` and `ntfs_seek_data_hole` compare nothing, and
`ntfs_compress_write` keeps the offset of a compression block in an `int`. So a request
whose offset is no signed one is served wherever no function further down happens to refuse
it. This is exactly when a request stays in range: it is turned away, or it ends within the
maximum file size and what it rounds does as well.
-/

namespace Ttntfs.Vfs

open Ttntfs.Ntfs Ttntfs.Library.SignedBytes Ttntfs.Library.StatefulSteps

/-- However the functions answer that a call uses, it either fails or computes with a
signed offset, with an end within the maximum file size and with offsets that fit. -/
def StaysInRange (f : OpenFile) (request : FileRequest) : Prop :=
  ∀ callees done, request.serve f callees = .ok done → 0 ≤ done.answer →
    0 ≤ loff request.offset ∧ loff request.offset + request.count.toNat ≤ sMaxbytes ∧
      ∀ computed ∈ done.offsets, computed.InRange

/-- The stream would grow to a size whose last cluster has no signed offset. -/
def Outgrows (f : OpenFile) (stop prealloc : Int) : Prop := (f.size : Int) < stop ∧ tooBig f stop prealloc = true

/-- The stream is not resident, or it grows out of its record. -/
def LeavesRecord (f : OpenFile) (stop : Int) : Prop :=
  f.nonResident = true ∨ (f.size : Int) < stop ∧ f.mftRecordSize ≤ stop

/-- The preallocation for which `do_write` asks. -/
def preallocOf (f : OpenFile) (stop : Int) : Int :=
  if WritesBlocks f then s64 (roundUp stop f.blockSize) else 0

/-- The checks that turn a request away. -/
def FileRequest.TurnedAway (f : OpenFile) : FileRequest → Prop
  | read buffer count offset =>
    (buffer = false ∧ count ≠ 0) ∨ f.type = .directory ∨ f.type = .symlink ∨ f.shutdown = true ∨
      (count ≠ 0 ∧ loff offset < f.size ∧
        (f.encrypted = true ∨ (2 : Int) ^ 63 ≤ min (count.toNat : Int) (f.size - loff offset)))
  | write buffer count offset =>
    (buffer = false ∧ count ≠ 0) ∨ f.type = .directory ∨ f.type = .symlink ∨ f.shutdown = true ∨
      f.readOnly = true ∨ f.encrypted = true ∨
      (count ≠ 0 ∧ (sMaxbytes < (offset + count).toNat ∨ 2 ^ 63 ≤ count.toNat ∨
        Outgrows f (offset + count).toNat (preallocOf f (offset + count).toNat) ∨
        (¬ WritesBlocks f ∧ loff offset < 0 ∧ LeavesRecord f (offset + count).toNat)))
  | fallocate offset len _ =>
    len ≠ 0 ∧ (sMaxbytes < (offset + len).toNat ∨ f.shutdown = true ∨ f.readOnly = true ∨ f.type ≠ .regular ∨
      f.noMftZone = true ∨ f.compressed = true ∨ f.encrypted = true ∨
      shortOfSpace f (loff offset) (loff len) = true ∨ f.otherAttribute = true ∨
      Outgrows f (offset + len).toNat 0 ∨ (loff offset < 0 ∧ LeavesRecord f (offset + len).toNat))
  | seekDataHole offset wantHole =>
    (f.size : Int) ≤ loff offset ∨
      (f.nonResident = true ∧ f.compressed = false ∧ loff offset < 0 ∧ wantHole = false)

/-- The request ends within the maximum file size, and so does what is rounded for it. -/
def FileRequest.Fits (f : OpenFile) (request : FileRequest) : Prop :=
  request.offset.toNat + request.count.toNat ≤ sMaxbytes ∧
    match request with
    | read _ count offset =>
      count ≠ 0 → f.compressed = false → loff offset < f.size → loff offset < f.initializedSize →
        roundUp (loff offset) pageBytes ≤ sMaxbytes
    | write _ count offset =>
      count ≠ 0 → if WritesBlocks f then offset.toNat + count.toNat ≤ 2 ^ 31
        else roundUp (loff offset) pageBytes ≤ sMaxbytes
    | fallocate offset len keepSize =>
      len ≠ 0 → zeroesTail f keepSize (loff offset) = true → roundUp f.size pageBytes ≤ sMaxbytes
    | seekDataHole _ _ => True

section Arithmetic

variable {offset count : UInt64} {n unit : Int}

theorem loff_eq (offset : UInt64) :
    loff offset = if offset.toNat < 2 ^ 63 then (offset.toNat : Int) else offset.toNat - 2 ^ 64 := by
  have word := offset.toNat_lt
  simp only [loff, s64, Int.bmod]
  omega

theorem stop_eq (offset count : UInt64) : s64 (loff offset + count.toNat) = s64 (offset + count).toNat := by
  have word := offset.toNat_lt
  simp only [UInt64.toNat_add, s64, loff_eq]
  simp only [Int.bmod]
  omega

theorem stop_of_le (within : ((offset + count).toNat : Int) ≤ sMaxbytes) :
    s64 (loff offset + count.toNat) = (offset + count).toNat := by
  rw [stop_eq, s64_of_range]
  rw [sMaxbytes] at within
  constructor <;> omega

theorem loff_len (len : UInt64) (pos : Int) : s64 (pos + loff len) = s64 (pos + len.toNat) := by
  simp only [s64, loff_eq, Int.bmod]
  omega

theorem fitting (within : (offset.toNat : Int) + count.toNat ≤ sMaxbytes) :
    loff offset = offset.toNat ∧ (offset + count).toNat = offset.toNat + count.toNat := by
  rw [sMaxbytes] at within
  rw [loff_eq, UInt64.toNat_add]
  constructor
  · rw [if_pos (by omega)]
  · omega

theorem roundUp_bounds (n : Int) (positive : 0 < unit) : n ≤ roundUp n unit ∧ roundUp n unit < n + unit := by
  have whole := Int.mul_ediv_add_emod (n + unit - 1) unit
  have lower := Int.emod_nonneg (n + unit - 1) (by omega : unit ≠ 0)
  have upper := Int.emod_lt_of_pos (n + unit - 1) positive
  rw [roundUp, Int.mul_comm]
  omega

theorem roundDown_bounds (n : Int) (positive : 0 < unit) : n - unit < roundDown n unit ∧ roundDown n unit ≤ n := by
  have whole := Int.mul_ediv_add_emod n unit
  have lower := Int.emod_nonneg n (by omega : unit ≠ 0)
  have upper := Int.emod_lt_of_pos n positive
  rw [roundDown, Int.mul_comm]
  omega

theorem roundDown_nonneg (lower : 0 ≤ n) (positive : 0 < unit) : 0 ≤ roundDown n unit :=
  Int.mul_nonneg (Int.ediv_nonneg lower positive.le) positive.le

theorem offset64_inRange : (offset64 n).InRange ↔ 0 ≤ n ∧ n ≤ sMaxbytes := by
  simp only [Computed.InRange, offset64, sMaxbytes]
  omega

end Arithmetic

/-- Functions that all succeed. -/
def Callees.succeeding : Callees where
  lookupResident := .ok false
  cachedTransfer _ _ := .ok ()
  directTransfer _ _ := .ok ()
  resize _ _ := .ok true
  mapCluster _ count := .ok count
  zeroRange _ _ := .ok ()
  setInitializedSize _ := .ok ()
  readPages _ := .ok ()
  writeBlock _ := .ok ()
  prepare := .ok ()
  allocate _ _ := .ok ()
  mapFailure _ := none

section Reads

variable {f : OpenFile} {callees : Callees} {count : Nat} {pos stop : Int} {done : Done}

theorem splitOffsets_inRange (lower : 0 ≤ pos) (ordered : pos ≤ stop) (within : stop ≤ sMaxbytes)
    (rounded : roundUp pos pageBytes ≤ sMaxbytes) : ∀ computed ∈ splitOffsets pos stop, computed.InRange := by
  have up := roundUp_bounds pos (by decide : 0 < pageBytes)
  have down := roundDown_bounds stop (by decide : 0 < pageBytes)
  have positive := roundDown_nonneg (lower.trans ordered) (by decide : 0 < pageBytes)
  simp only [splitOffsets, List.forall_mem_cons, offset64_inRange, List.not_mem_nil, false_imp_iff, implies_true,
    and_true]
  omega

theorem nonResidentRead_inRange (read : nonResidentRead f callees count pos stop = .ok done) (lower : 0 ≤ pos)
    (ordered : pos ≤ stop) (within : stop ≤ sMaxbytes)
    (rounded : f.compressed = false → pos < f.initializedSize → roundUp pos pageBytes ≤ sMaxbytes) :
    ∀ computed ∈ done.offsets, computed.InRange := by
  have stopRange : (offset64 stop).InRange := offset64_inRange.mpr ⟨by omega, within⟩
  rw [nonResidentRead] at read
  split at read
  · obtain ⟨_, _, ends⟩ := bind_eq_ok.mp read
    obtain rfl := pure_eq_ok.mp ends
    simpa using stopRange
  · rename_i plain
    obtain ⟨_, _, ends⟩ := bind_eq_ok.mp read
    obtain rfl := pure_eq_ok.mp ends
    refine List.forall_mem_cons.mpr ⟨stopRange, ?_⟩
    split
    · exact splitOffsets_inRange lower (by omega) (by omega) (rounded (by simpa using plain) (by omega))
    · simp

theorem residentRead_inRange (read : residentRead f callees count pos = .ok (some done)) :
    ∀ computed ∈ done.offsets, computed.InRange := by
  obtain ⟨converted, _, ends⟩ := bind_eq_ok.mp read
  cases converted with
  | true => cases ends
  | false =>
    simp only [Bool.false_eq_true, if_false] at ends
    split at ends
    · cases pure_eq_ok.mp ends
      simp
    · cases pure_eq_ok.mp ends
      simp

theorem bytesLeft_eq (lower : -2 ^ 63 ≤ pos) (inside : pos < f.size) : (bytesLeft f pos : Int) = f.size - pos := by
  have sizes := f.size_allocated
  have word := f.allocated_word
  rw [bytesLeft, Int.toNat_of_nonneg (by omega)]
  omega

/-- A read that begins in the file stays in it. -/
theorem doRead_inRange (read : doRead f callees count pos = .ok done) (lower : 0 ≤ pos)
    (rounded : f.compressed = false → pos < f.size → pos < f.initializedSize → roundUp pos pageBytes ≤ sMaxbytes) :
    ∀ computed ∈ done.offsets, computed.InRange := by
  have sizes := f.size_allocated
  have word := f.allocated_word
  rw [doRead] at read
  split at read
  · cases read
    simp
  rename_i inside
  have left := bytesLeft_eq (by omega) (Int.not_le.mp inside)
  have ordered : pos ≤ s64 (pos + ↑(min count (bytesLeft f pos))) ∧
      s64 (pos + ↑(min count (bytesLeft f pos))) ≤ sMaxbytes := by
    rw [sMaxbytes, s64_of_range ⟨by omega, by omega⟩]
    omega
  have direct (served : nonResidentRead f callees (min count (bytesLeft f pos)) pos
      (s64 (pos + ↑(min count (bytesLeft f pos)))) = .ok done) : ∀ computed ∈ done.offsets, computed.InRange :=
    nonResidentRead_inRange served lower ordered.1 ordered.2 fun plain => rounded plain (Int.not_le.mp inside)
  dsimp only at read
  split at read
  · cases read
  split at read
  · exact direct read
  · obtain ⟨resident, looked, ends⟩ := bind_eq_ok.mp read
    cases resident with
    | some result =>
      cases ends
      exact residentRead_inRange looked
    | none => exact direct ends

end Reads

section Writes

variable {f : OpenFile} {callees : Callees} {count : Nat} {pos stop prealloc : Int} {done : Done} {resident : Bool}

theorem growAttr_cases (grown : growAttr f callees stop prealloc = .ok resident) :
    (resident = true ∧ f.nonResident = false ∧ stop < f.mftRecordSize) ∨
      (resident = false ∧ tooBig f stop prealloc = false) := by
  obtain ⟨_, grown⟩ := check_eq_ok.mp grown
  obtain ⟨_, grown⟩ := check_eq_ok.mp grown
  obtain ⟨stays, _, ends⟩ := bind_eq_ok.mp grown
  split at ends
  · rename_i kept
    exact .inl ⟨(Except.ok.inj ends).symm, kept.1, kept.2.2⟩
  · obtain ⟨small, ends⟩ := check_eq_ok.mp ends
    exact .inr ⟨(Except.ok.inj ends).symm, by simpa using small⟩

theorem growTo_resident (grown : growTo f callees stop prealloc = .ok true) :
    f.nonResident = false ∧ ((f.size : Int) < stop → stop < f.mftRecordSize) := by
  rw [growTo] at grown
  split at grown
  · rcases growAttr_cases grown with ⟨_, kept, short⟩ | ⟨no, _⟩
    · exact ⟨kept, fun _ => short⟩
    · cases no
  · rename_i long
    exact ⟨by simpa using grown, fun grows => absurd grows long⟩

theorem growTo_fits (grown : growTo f callees stop prealloc = .ok resident) (grows : (f.size : Int) < stop) :
    tooBig f stop prealloc = false ∨ f.nonResident = false ∧ stop < f.mftRecordSize := by
  rw [growTo, if_pos grows] at grown
  rcases growAttr_cases grown with ⟨_, kept⟩ | ⟨_, small⟩
  · exact .inr kept
  · exact .inl small

theorem clusterOffsets_inRange (lower : 0 ≤ pos) (ordered : 0 < stop) (within : pos + stop ≤ sMaxbytes) :
    ∀ computed ∈ clusterOffsets f pos stop, computed.InRange := by
  have size := f.clusterSize_pos
  have first := Int.ediv_nonneg lower size.le
  have firstLe := Int.ediv_le_self f.clusterSize lower
  have last := Int.ediv_nonneg (by omega : 0 ≤ pos + stop - 1) size.le
  have lastLe := Int.ediv_le_self f.clusterSize (by omega : 0 ≤ pos + stop - 1)
  simp only [clusterOffsets, List.forall_mem_cons, offset64_inRange, List.not_mem_nil, false_imp_iff, implies_true,
    and_true, OpenFile.bytesToCluster]
  omega

theorem nonResidentWrite_ends (written : nonResidentWrite f callees count pos stop = .ok done) :
    done = ⟨s64 count, offset64 (pos + count) :: (clusterOffsets f pos count ++ splitOffsets pos stop)⟩ := by
  obtain ⟨_, _, zeroed⟩ := bind_eq_ok.mp written
  obtain ⟨_, _, transferred⟩ := bind_eq_ok.mp zeroed
  obtain ⟨_, _, extended⟩ := bind_eq_ok.mp transferred
  obtain ⟨_, _, ends⟩ := bind_eq_ok.mp extended
  exact (pure_eq_ok.mp ends).symm

theorem nonResidentWrite_inRange (written : nonResidentWrite f callees count pos (pos + count) = .ok done)
    (lower : 0 ≤ pos) (some_byte : 0 < count) (within : pos + count ≤ sMaxbytes)
    (rounded : roundUp pos pageBytes ≤ sMaxbytes) : ∀ computed ∈ done.offsets, computed.InRange := by
  rw [nonResidentWrite_ends written]
  have stopRange : (offset64 (pos + count)).InRange := offset64_inRange.mpr ⟨by omega, within⟩
  have clusters := clusterOffsets_inRange (f := f) lower (by omega : (0 : Int) < count) within
  have pages := splitOffsets_inRange lower (by omega) within rounded
  simp only [List.forall_mem_cons, List.forall_mem_append]
  exact ⟨stopRange, clusters, pages⟩

theorem residentWrite_ends {length : Int} (written : residentWrite callees length count pos = .ok (some done)) :
    done = ⟨s64 count, [offset64 (pos + count)]⟩ := by
  obtain ⟨converted, _, ends⟩ := bind_eq_ok.mp written
  cases converted with
  | true => cases ends
  | false =>
    simp only [Bool.false_eq_true, if_false] at ends
    split at ends
    · cases ends
    · exact (Option.some.inj (pure_eq_ok.mp ends)).symm

/-- The blocks of a compressed write begin below its end. -/
theorem compressBlocks_inRange {blocks : List Computed} (written : compressBlocks f callees count pos = .ok blocks)
    (lower : 0 ≤ pos) (within : pos + count ≤ 2 ^ 31) : ∀ computed ∈ blocks, computed.InRange := by
  have size := f.blockSize_pos
  induction count using Nat.strong_induction_on generalizing pos blocks with
  | _ count ih =>
    rw [compressBlocks] at written
    split at written
    · cases written
      simp
    rename_i some_byte
    obtain ⟨_, _, wrote⟩ := bind_eq_ok.mp written
    obtain ⟨_, _, others⟩ := bind_eq_ok.mp wrote
    obtain ⟨rest, behind, ends⟩ := bind_eq_ok.mp others
    cases ends
    have inBlock := Int.emod_lt_of_pos pos size
    have block := roundDown_bounds pos size
    have positive := roundDown_nonneg lower size
    refine List.forall_mem_cons.mpr ⟨?_, ih _ (by omega) behind (by omega) (by omega)⟩
    simp only [Computed.InRange, offset32]
    omega

theorem ntfsCompressWrite_inRange (written : ntfsCompressWrite f callees count pos = .ok done) (lower : 0 ≤ pos)
    (within : pos + count ≤ 2 ^ 31) : ∀ computed ∈ done.offsets, computed.InRange := by
  obtain ⟨_, _, grown⟩ := bind_eq_ok.mp written
  obtain ⟨blocks, wrote, extended⟩ := bind_eq_ok.mp grown
  obtain ⟨_, _, ends⟩ := bind_eq_ok.mp extended
  obtain rfl := pure_eq_ok.mp ends
  have stop : s64 (pos + count) = pos + count := s64_of_range ⟨by omega, by omega⟩
  have up := roundUp_bounds (pos + count) f.blockSize_pos
  have small := f.blockSize_le
  have listed := compressBlocks_inRange wrote lower within
  refine List.forall_mem_cons.mpr ⟨offset64_inRange.mpr ⟨by omega, by rw [sMaxbytes]; omega⟩, ?_⟩
  rw [List.forall_mem_append]
  refine ⟨?_, listed⟩
  rw [stop]
  split
  · simp only [List.forall_mem_singleton, offset64_inRange, sMaxbytes]
    omega
  · simp

/-- A write within the maximum file size stays in range if its first page ends there too. -/
theorem doWrite_inRange (written : doWrite f callees count pos = .ok done) (lower : 0 ≤ pos) (some_byte : 0 < count)
    (within : pos + count ≤ sMaxbytes)
    (rounded : if WritesBlocks f then pos + count ≤ 2 ^ 31 else roundUp pos pageBytes ≤ sMaxbytes) :
    ∀ computed ∈ done.offsets, computed.InRange := by
  have stop : s64 (pos + count) = pos + count := by
    rw [sMaxbytes] at within
    exact s64_of_range ⟨by omega, by omega⟩
  rw [doWrite] at written
  split at written
  · rename_i blocks
    rw [if_pos blocks] at rounded
    exact ntfsCompressWrite_inRange written lower rounded
  rename_i plain
  rw [if_neg plain] at rounded
  obtain ⟨resident, grown, behind⟩ := bind_eq_ok.mp written
  rw [stop] at behind
  have direct (served : nonResidentWrite f callees count pos (pos + count) = .ok done) :=
    nonResidentWrite_inRange served lower some_byte within rounded
  cases resident with
  | false => exact direct (by simpa using behind)
  | true =>
    obtain ⟨result, wrote, ends⟩ := bind_eq_ok.mp (by simpa using behind)
    cases result with
    | none => exact direct ends
    | some result =>
      cases ends
      rw [residentWrite_ends wrote]
      simp only [List.forall_mem_singleton, offset64_inRange]
      omega

end Writes

section Allocations

variable {f : OpenFile} {callees : Callees} {offset len : Int} {keepSize resident : Bool} {done : Done}
  {offsets : List Computed}

theorem tooBig_iff {stop : Int} (lower : 0 ≤ stop) (within : stop ≤ sMaxbytes) :
    tooBig f stop 0 = true ↔ sMaxbytes < stop + f.clusterSize - 1 := by
  have size := f.clusterSize_pos
  have small := f.clusterSize_le
  have sign (n : Int) : n / f.clusterSize < 0 ↔ n < 0 := by
    rw [Int.ediv_lt_iff_lt_mul size, Int.zero_mul]
  simp only [tooBig, decide_eq_true_eq, OpenFile.bytesToCluster, sign, ne_eq, not_true_eq_false, if_false, s64,
    Int.bmod, sMaxbytes] at within ⊢
  omega

theorem roundUp_le {n k unit : Int} (positive : 0 < unit) (below : n ≤ k * unit) : roundUp n unit ≤ k * unit := by
  have quotient : (n + unit - 1) / unit < k + 1 := Int.ediv_lt_of_lt_mul positive (by rw [Int.add_mul]; omega)
  exact Int.mul_le_mul_of_nonneg_right (by omega) positive.le

theorem roundUp_allocated (stored : f.nonResident = true) {n : Int} (below : n ≤ f.allocatedSize) :
    roundUp n f.clusterSize ≤ f.allocatedSize := by
  have whole : (f.allocatedSize : Int) = rlClusters f.rl * f.clusterSize := by
    rw [← f.runs_allocated stored]
    push_cast [OpenFile.clusterSize]
    rfl
  rw [whole] at below ⊢
  exact roundUp_le f.clusterSize_pos below

theorem rounded_stop {stop : Int} (grown : growTo f callees stop 0 = .ok false) (lower : 0 ≤ stop)
    (within : stop ≤ sMaxbytes) : roundUp stop f.clusterSize ≤ sMaxbytes := by
  have up := roundUp_bounds stop f.clusterSize_pos
  have small := f.clusterSize_le
  by_cases grows : (f.size : Int) < stop
  · rcases growTo_fits grown grows with fits | ⟨_, record⟩
    · have last := (tooBig_iff (f := f) lower within).not.mp (by simp [fits])
      omega
    · have recordSmall := f.record_small
      rw [sMaxbytes]
      omega
  · rw [growTo, if_neg grows] at grown
    have stored : f.nonResident = true := by simpa using grown
    have sizes := f.size_allocated
    have word := f.allocated_word
    have below := roundUp_allocated stored (by omega : stop ≤ f.allocatedSize)
    rw [sMaxbytes]
    omega

theorem rounded_initialized : roundUp f.initializedSize f.clusterSize ≤ sMaxbytes := by
  have up := roundUp_bounds f.initializedSize f.clusterSize_pos
  have small := f.clusterSize_le
  have sizes := f.initialized_allocated
  have word := f.allocated_word
  rw [sMaxbytes]
  by_cases stored : f.nonResident = true
  · have below := roundUp_allocated stored (by omega : (f.initializedSize : Int) ≤ f.allocatedSize)
    omega
  · have short := f.resident_small (by simpa using stored)
    omega

theorem ntfsAttrFallocate_inRange (allocated : ntfsAttrFallocate f callees offset len = .ok (resident, offsets))
    (lower : 0 ≤ offset + len) (within : offset + len ≤ sMaxbytes) : ∀ computed ∈ offsets, computed.InRange := by
  have stop : s64 (offset + len) = offset + len := by
    rw [sMaxbytes] at within
    exact s64_of_range ⟨by omega, by omega⟩
  obtain ⟨_, allocated⟩ := check_eq_ok.mp allocated
  obtain ⟨stays, grown, behind⟩ := bind_eq_ok.mp allocated
  rw [stop] at grown behind
  cases stays with
  | true =>
    obtain ⟨_, rfl⟩ := Prod.mk.inj (pure_eq_ok.mp (by simpa using behind))
    simp
  | false =>
    rw [if_neg (by decide)] at behind
    obtain ⟨_, _, ends⟩ := bind_eq_ok.mp behind
    obtain ⟨_, rfl⟩ := Prod.mk.inj (pure_eq_ok.mp ends)
    have stopUp := roundUp_bounds (offset + len) f.clusterSize_pos
    have initializedUp := roundUp_bounds f.initializedSize f.clusterSize_pos
    have stopRange := rounded_stop grown lower within
    have initializedRange := rounded_initialized (f := f)
    simp only [List.forall_mem_cons, offset64_inRange, List.not_mem_nil, false_imp_iff, implies_true, and_true]
    omega

/-- An allocation that goes ahead has passed its checks, and computes the offsets of the
attribute, and of the tail that it zeroes. -/
theorem ntfsVfsFallocate_cases (allocated : ntfsVfsFallocate f callees keepSize offset len = .ok done) :
    (f.shutdown = false ∧ f.readOnly = false ∧ f.type = .regular ∧ f.noMftZone = false ∧ f.compressed = false ∧
      f.encrypted = false ∧ shortOfSpace f offset len = false) ∧
    ∃ resident offsets, ntfsAttrFallocate f callees offset len = .ok (resident, offsets) ∧
      (done.offsets = offset64 (offset + len) :: (clusterOffsets f offset len ++ offsets) ∨
        zeroesTail f keepSize offset = true ∧ done.offsets = offset64 (roundUp f.size pageBytes) ::
          offset64 (offset + len) :: (clusterOffsets f offset len ++ offsets)) := by
  simp only [ntfsVfsFallocate, check_eq_ok] at allocated
  obtain ⟨mounted, writable, regular, zone, allocated⟩ := allocated
  obtain ⟨_, _, prepared⟩ := bind_eq_ok.mp allocated
  obtain ⟨plain, prepared⟩ := check_eq_ok.mp prepared
  obtain ⟨⟨resident, others⟩, ranged, behind⟩ := bind_eq_ok.mp prepared
  simp only [ntfsAllocateRange, check_eq_ok] at ranged
  obtain ⟨_, _, space, ranged⟩ := ranged
  obtain ⟨⟨stays, offsets⟩, inner, ends⟩ := bind_eq_ok.mp ranged
  obtain ⟨_, rfl⟩ := Prod.mk.inj (pure_eq_ok.mp ends)
  refine ⟨by simp_all, stays, offsets, inner, ?_⟩
  dsimp only at behind
  split at behind
  · rename_i zeroes
    obtain ⟨_, _, ends⟩ := bind_eq_ok.mp behind
    cases ends
    exact .inr ⟨zeroes.2, rfl⟩
  · cases behind
    exact .inl rfl

/-- An allocation within the maximum file size stays in range if the page that it zeroes
behind the old end does. -/
theorem ntfsVfsFallocate_inRange (allocated : ntfsVfsFallocate f callees keepSize offset len = .ok done)
    (lower : 0 ≤ offset) (some_byte : 0 < len) (within : offset + len ≤ sMaxbytes)
    (rounded : zeroesTail f keepSize offset = true → roundUp f.size pageBytes ≤ sMaxbytes) :
    ∀ computed ∈ done.offsets, computed.InRange := by
  obtain ⟨_, resident, offsets, inner, reached⟩ := ntfsVfsFallocate_cases allocated
  have stopRange : (offset64 (offset + len)).InRange := offset64_inRange.mpr ⟨by omega, within⟩
  have listed : ∀ computed ∈ offset64 (offset + len) :: (clusterOffsets f offset len ++ offsets),
      computed.InRange := by
    simp only [List.forall_mem_cons, List.forall_mem_append]
    exact ⟨stopRange, clusterOffsets_inRange lower some_byte within,
      ntfsAttrFallocate_inRange inner (by omega) within⟩
  rcases reached with same | ⟨zeroes, same⟩
  · rw [same]
    exact listed
  · rw [same]
    have up := roundUp_bounds f.size (by decide : 0 < pageBytes)
    exact List.forall_mem_cons.mpr ⟨offset64_inRange.mpr ⟨by omega, rounded zeroes⟩, listed⟩

end Allocations

section Searches

variable {f : OpenFile} {callees : Callees} {wantHole : Bool} {pos : Int} {done : Done}

theorem offset64_size (f : OpenFile) : (offset64 f.size).InRange := by
  have sizes := f.size_allocated
  have word := f.allocated_word
  rw [offset64_inRange, sMaxbytes]
  omega

/-- A search that begins in the file comes to ends of runs only. -/
theorem seekRuns_inRange (stored : f.nonResident = true) (sought : seekRuns f callees stored wantHole pos = .ok done)
    (lower : 0 ≤ pos) : ∀ computed ∈ done.offsets, computed.InRange := by
  fun_induction seekRuns f callees stored wantHole pos generalizing done with
  | case1 | case4 | case7 => cases sought
  | case2 pos inside =>
    -- the run under the position is of the kind that is sought
    cases sought
    have sizes := f.size_allocated
    have word := f.allocated_word
    simp only [List.forall_mem_singleton, offset64_inRange, sMaxbytes]
    omega
  | case3 | case6 =>
    cases sought
    simpa using offset64_size f
  | case5 pos inside =>
    rename_i ahead _ ih
    obtain ⟨found, further, ends⟩ := bind_eq_ok.mp sought
    cases ends
    obtain ⟨_, within⟩ := runEnd_bounds stored lower inside
    have word := f.allocated_word
    have next : (offset64 (runEnd f (f.bytesToCluster pos) * f.clusterSize)).InRange := by
      rw [offset64_inRange, sMaxbytes]
      constructor
      · have behind := (runEnd_bounds stored lower inside).1
        have first := Int.ediv_nonneg lower f.clusterSize_pos.le
        rw [OpenFile.bytesToCluster] at behind ⊢
        exact Int.mul_nonneg (by omega) f.clusterSize_pos.le
      · omega
    exact List.forall_mem_cons.mpr ⟨next, ih further (lower.trans ahead.2.le)⟩

end Searches

section Refusals

variable {f : OpenFile} {callees : Callees} {count : Nat} {pos stop prealloc offset len : Int} {done : Done}
  {resident keepSize : Bool} {offsets : List Computed}

/-- What a read returns that begins in the file. -/
theorem doRead_answer (read : doRead f callees count pos = .ok done) (lower : -2 ^ 63 ≤ pos) (inside : pos < f.size) :
    f.encrypted = false ∧ done.answer = s64 (min (count : Int) (f.size - pos)) := by
  have left := bytesLeft_eq lower inside
  have direct {n : Nat} (served : nonResidentRead f callees n pos (s64 (pos + n)) = .ok done) :
      done.answer = s64 n := by
    rw [nonResidentRead] at served
    split at served
    · obtain ⟨_, _, ends⟩ := bind_eq_ok.mp served
      rw [← pure_eq_ok.mp ends]
    · obtain ⟨_, _, ends⟩ := bind_eq_ok.mp served
      rw [← pure_eq_ok.mp ends]
  rw [← left, ← Nat.cast_min]
  rw [doRead, if_neg (by omega)] at read
  dsimp only at read
  split at read
  · cases read
  rename_i plain
  refine ⟨by simpa using plain, ?_⟩
  split at read
  · exact direct read
  obtain ⟨result, looked, ends⟩ := bind_eq_ok.mp read
  cases result with
  | none => exact direct ends
  | some result =>
    cases ends
    obtain ⟨converted, _, found⟩ := bind_eq_ok.mp looked
    cases converted with
    | true => cases found
    | false =>
      rw [if_neg (by decide), if_neg (by omega)] at found
      cases pure_eq_ok.mp found
      simp

theorem doWrite_answer (written : doWrite f callees count pos = .ok done) : done.answer = s64 count := by
  rw [doWrite] at written
  split at written
  · obtain ⟨_, _, grown⟩ := bind_eq_ok.mp written
    obtain ⟨_, _, wrote⟩ := bind_eq_ok.mp grown
    obtain ⟨_, _, ends⟩ := bind_eq_ok.mp wrote
    rw [← pure_eq_ok.mp ends]
  · obtain ⟨resident, _, behind⟩ := bind_eq_ok.mp written
    cases resident with
    | false => rw [nonResidentWrite_ends behind]
    | true =>
      obtain ⟨result, wrote, ends⟩ := bind_eq_ok.mp behind
      cases result with
      | none => rw [nonResidentWrite_ends ends]
      | some result =>
        cases ends
        rw [residentWrite_ends wrote]

theorem LeavesRecord.stored (leaves : LeavesRecord f stop) (grown : growTo f callees stop prealloc = .ok resident) :
    resident = false := by
  rw [← Bool.not_eq_true]
  rintro rfl
  obtain ⟨before, short⟩ := growTo_resident grown
  rcases leaves with stored | ⟨grows, long⟩
  · simp [stored] at before
  · have := short grows
    omega

theorem Outgrows.refused (outgrows : Outgrows f stop prealloc) (asked : prealloc = 0 ∨ f.nonResident = true)
    (within : stop ≤ sMaxbytes) : growTo f callees stop prealloc ≠ .ok resident := by
  intro grown
  obtain ⟨grows, big⟩ := outgrows
  rcases growTo_fits grown grows with fits | ⟨before, record⟩
  · simp [big] at fits
  · rcases asked with rfl | stored
    · have last := (tooBig_iff (by omega) within).mp big
      have small := f.clusterSize_le
      have recordSmall := f.record_small
      rw [sMaxbytes] at last
      omega
    · simp [stored] at before

theorem allocRange_negative (below : pos < 0) (lower : -2 ^ 63 ≤ pos) (some_byte : 0 < count) (word : count < 2 ^ 63) :
    allocRange f callees pos count ≠ .ok () := by
  have size := f.clusterSize_pos
  have stop : s64 (pos + count - 1) = pos + count - 1 := s64_of_range ⟨by omega, by omega⟩
  have negative : f.bytesToCluster pos < 0 := Int.ediv_neg_of_neg_of_pos below size
  have ordered : f.bytesToCluster pos ≤ f.bytesToCluster (pos + count - 1) :=
    Int.ediv_le_ediv size (by omega)
  rw [allocRange, stop, allocFrom, if_pos (by omega), ntfsAttrMapCluster, if_pos negative]
  simp

theorem nonResidentWrite_negative (below : pos < 0) (lower : -2 ^ 63 ≤ pos) (some_byte : 0 < count)
    (word : count < 2 ^ 63) : nonResidentWrite f callees count pos stop ≠ .ok done := by
  intro written
  obtain ⟨_, allocated, _⟩ := bind_eq_ok.mp written
  exact allocRange_negative below lower some_byte word allocated

/-- A write that goes ahead has had no reason to be refused. -/
theorem doWrite_unrefused (written : doWrite f callees count pos = .ok done) (stop_of : s64 (pos + count) = stop)
    (within : stop ≤ sMaxbytes) (lower : -2 ^ 63 ≤ pos) (some_byte : 0 < count) (word : count < 2 ^ 63) :
    ¬ Outgrows f stop (preallocOf f stop) ∧ ¬ (¬ WritesBlocks f ∧ pos < 0 ∧ LeavesRecord f stop) := by
  rw [doWrite] at written
  by_cases blocks : WritesBlocks f
  · rw [if_pos blocks, ntfsCompressWrite] at written
    obtain ⟨_, grown, _⟩ := bind_eq_ok.mp written
    rw [stop_of] at grown
    rw [preallocOf, if_pos blocks]
    exact ⟨fun outgrows => outgrows.refused (.inr blocks.1) within grown, fun plain => plain.1 blocks⟩
  · rw [if_neg blocks] at written
    obtain ⟨resident, grown, behind⟩ := bind_eq_ok.mp written
    rw [stop_of] at grown
    rw [preallocOf, if_neg blocks]
    refine ⟨fun outgrows => outgrows.refused (.inl rfl) within grown, ?_⟩
    rintro ⟨_, below, leaves⟩
    obtain rfl := leaves.stored grown
    exact nonResidentWrite_negative below lower some_byte word behind

/-- A negative offset ends an allocation outside the record. -/
theorem ntfsAttrFallocate_unrefused (allocated : ntfsAttrFallocate f callees offset len = .ok (resident, offsets))
    {stop : Int} (stop_of : s64 (offset + len) = stop) (positive : 0 ≤ stop) (within : stop ≤ sMaxbytes) :
    f.otherAttribute = false ∧ ¬ Outgrows f stop 0 ∧ ¬ (offset < 0 ∧ LeavesRecord f stop) := by
  obtain ⟨plain, allocated⟩ := check_eq_ok.mp allocated
  obtain ⟨stays, grown, behind⟩ := bind_eq_ok.mp allocated
  rw [stop_of] at grown behind
  refine ⟨by simpa using plain, fun outgrows => outgrows.refused (.inl rfl) within grown, ?_⟩
  rintro ⟨below, leaves⟩
  obtain rfl := leaves.stored grown
  rw [if_neg (by decide)] at behind
  obtain ⟨_, runs, _⟩ := bind_eq_ok.mp behind
  have up := roundUp_bounds stop f.clusterSize_pos
  have upper := rounded_stop grown positive within
  rw [sMaxbytes] at upper
  have word : s64 (roundUp stop f.clusterSize) = roundUp stop f.clusterSize := s64_of_range ⟨by omega, by omega⟩
  have first : f.bytesToCluster offset < 0 := Int.ediv_neg_of_neg_of_pos below f.clusterSize_pos
  have last : 0 ≤ f.bytesToCluster (roundUp stop f.clusterSize) :=
    Int.ediv_nonneg (by omega) f.clusterSize_pos.le
  rw [word, allocateRuns, if_pos (by omega), if_pos first] at runs
  cases runs

/-- An allocation that goes ahead has had no reason to be refused. -/
theorem ntfsVfsFallocate_unrefused (allocated : ntfsVfsFallocate f callees keepSize offset len = .ok done)
    {stop : Int} (stop_of : s64 (offset + len) = stop) (positive : 0 ≤ stop) (within : stop ≤ sMaxbytes) :
    f.shutdown = false ∧ f.readOnly = false ∧ f.type = .regular ∧ f.noMftZone = false ∧ f.compressed = false ∧
      f.encrypted = false ∧ shortOfSpace f offset len = false ∧ f.otherAttribute = false ∧ ¬ Outgrows f stop 0 ∧
      ¬ (offset < 0 ∧ LeavesRecord f stop) := by
  obtain ⟨⟨mounted, writable, regular, zone, unpacked, plain, space⟩, resident, offsets, inner, _⟩ :=
    ntfsVfsFallocate_cases allocated
  obtain ⟨same, fits, direct⟩ := ntfsAttrFallocate_unrefused inner stop_of positive within
  exact ⟨mounted, writable, regular, zone, unpacked, plain, space, same, fits, direct⟩

theorem attrVcnToLcn_negative (f : OpenFile) (callees : Callees) {vcn : Int} (below : vcn < 0) : attrVcnToLcn f callees vcn = lcnEnoent ∨
    (attrVcnToLcn f callees vcn < lcnHole ∧ attrVcnToLcn f callees vcn ≠ lcnEnoent) := by
  rw [attrVcnToLcn, if_pos below]
  split
  · exact .inl rfl
  · exact .inr (by decide)
  · exact .inr (by decide)
  · exact .inl rfl

theorem seekRuns_negative (stored : f.nonResident = true) (below : pos < 0) :
    seekRuns f callees stored false pos ≠ .ok done := by
  have before : f.bytesToCluster pos < 0 := Int.ediv_neg_of_neg_of_pos below f.clusterSize_pos
  rw [seekRuns, dif_pos (by omega)]
  rcases attrVcnToLcn_negative f callees before with behind | lost
  · simp [behind, lcnEnoent, lcnHole, lcnDelalloc]
  · simp [lost]

end Refusals

section Served

variable {f : OpenFile} {count : Nat} {pos stop prealloc offset len : Int} {keepSize : Bool}

theorem transferParts_succeeding : transferParts .succeeding pos stop = .ok () := by
  simp [transferParts, Callees.succeeding, onlyIf, Bind.bind, Except.bind]

/-- The offsets of a read behind the resident case. -/
theorem nonResidentRead_succeeding : nonResidentRead f .succeeding count pos stop =
    .ok ⟨s64 count, offset64 stop :: if f.compressed = true ∨ ¬ pos < min stop f.initializedSize then []
      else splitOffsets pos (min stop f.initializedSize)⟩ := by
  have parts : onlyIf (pos < min stop f.initializedSize) (transferParts .succeeding pos (min stop f.initializedSize)) =
      .ok () := by
    rw [transferParts_succeeding, onlyIf, ite_self]
  rw [nonResidentRead]
  by_cases packed : f.compressed = true
  · simp [packed, Callees.succeeding, Bind.bind, Except.bind, Pure.pure, Except.pure]
  · dsimp only
    rw [if_neg packed, parts]
    by_cases transfers : pos < min stop f.initializedSize
    · rw [if_pos transfers, if_neg (by simp [packed, transfers])]
      rfl
    · rw [if_neg transfers, if_pos (.inr transfers)]
      rfl

/-- A read that nothing refuses. -/
theorem doRead_served (count : Nat) (plain : f.encrypted = false) (lower : -2 ^ 63 ≤ pos) (inside : pos < f.size) :
    ∃ done, doRead f .succeeding count pos = .ok done ∧
      (f.nonResident = true → f.compressed = false → 0 < count → pos < f.initializedSize →
        offset64 (roundUp pos pageBytes) ∈ done.offsets) := by
  have left := bytesLeft_eq lower inside
  have sizes := f.size_allocated
  have word := f.allocated_word
  rw [doRead, if_neg (by omega)]
  dsimp only
  rw [if_neg (by simp [plain])]
  by_cases stored : f.nonResident = true
  · rw [if_pos stored, nonResidentRead_succeeding]
    refine ⟨_, rfl, fun _ unpacked some_byte initialized => ?_⟩
    have stop : s64 (pos + ↑(min count (bytesLeft f pos))) = pos + ↑(min count (bytesLeft f pos)) :=
      s64_of_range ⟨by omega, by omega⟩
    have transfers : pos < min (pos + ↑(min count (bytesLeft f pos))) (f.initializedSize : Int) := by omega
    rw [stop, if_neg (by simp only [unpacked, Bool.false_eq_true, transfers, not_true_eq_false, or_self, not_false_eq_true])]
    exact List.mem_cons_of_mem _ (List.mem_cons_self ..)
  · rw [if_neg stored]
    have found : residentRead f .succeeding (min count (bytesLeft f pos)) pos =
        .ok (some ⟨s64 (min (min count (bytesLeft f pos)) (bytesLeft f pos) : Nat), []⟩) := by
      rw [residentRead]
      simp [Callees.succeeding, Bind.bind, Except.bind, inside, Pure.pure, Except.pure]
    rw [found]
    exact ⟨_, rfl, fun resident => absurd resident stored⟩

theorem growTo_succeeding (positive : 0 ≤ stop) (plain : f.encrypted = false) (fits : ¬ Outgrows f stop prealloc) :
    ∃ resident, growTo f .succeeding stop prealloc = .ok resident ∧ (resident = true ↔ ¬ LeavesRecord f stop) := by
  by_cases grows : (f.size : Int) < stop
  · have small : tooBig f stop prealloc = false := by
      rw [← Bool.not_eq_true]
      exact fun big => fits ⟨grows, big⟩
    rw [growTo, if_pos grows, growAttr, if_neg (by omega), if_neg (by simp [plain])]
    by_cases stays : f.nonResident = false ∧ stop < f.mftRecordSize
    · refine ⟨true, by simp [Callees.succeeding, Bind.bind, Except.bind, stays], ?_⟩
      simp [LeavesRecord, stays]
    refine ⟨false, ?_, ?_⟩
    · have leaves : ¬ (f.nonResident = false ∧ True ∧ stop < f.mftRecordSize) := by simpa using stays
      simp only [Callees.succeeding, Bind.bind, Except.bind]
      rw [if_neg leaves, if_neg (by simp [small])]
    · simp only [Bool.false_eq_true, false_iff, not_not, LeavesRecord, grows, true_and]
      by_cases stored : f.nonResident = true
      · exact .inl stored
      · exact .inr (by by_contra short; exact stays ⟨by simpa using stored, by omega⟩)
  · refine ⟨!f.nonResident, by rw [growTo, if_neg grows], ?_⟩
    simp [LeavesRecord, grows]

theorem allocRange_succeeding (lower : 0 ≤ pos) : allocRange f .succeeding pos count = .ok () := by
  have first : 0 ≤ f.bytesToCluster pos := Int.ediv_nonneg lower f.clusterSize_pos.le
  rw [allocRange]
  generalize f.bytesToCluster (s64 (pos + count - 1)) + 1 = last
  rw [allocFrom]
  split
  · rename_i ordered
    rw [ntfsAttrMapCluster, if_neg (by omega)]
    simp only [Callees.succeeding]
    rw [if_neg (by omega), allocFrom, if_neg (by omega)]
  · rfl

theorem nonResidentWrite_succeeding (lower : 0 ≤ pos) : nonResidentWrite f .succeeding count pos stop =
    .ok ⟨s64 count, offset64 (pos + count) :: (clusterOffsets f pos count ++ splitOffsets pos stop)⟩ := by
  rw [nonResidentWrite, allocRange_succeeding lower, transferParts_succeeding]
  simp [onlyIf, Callees.succeeding, Bind.bind, Except.bind, Pure.pure, Except.pure]

/-- The blocks of a compressed write, each from its beginning on. -/
theorem compressBlocks_served (f : OpenFile) (count : Nat) (pos : Int) : ∃ blocks, compressBlocks f .succeeding count pos = .ok blocks ∧
    ∀ p, pos ≤ p → p < pos + count → offset32 (roundDown p f.blockSize) ∈ blocks := by
  have size := f.blockSize_pos
  induction count using Nat.strong_induction_on generalizing pos with
  | _ count ih =>
    rw [compressBlocks]
    by_cases ends : count = 0
    · refine ⟨[], by rw [if_pos ends], fun p lower upper => ?_⟩
      omega
    have inBlock := Int.emod_lt_of_pos pos size
    have positive := Int.emod_nonneg pos (by omega : f.blockSize ≠ 0)
    obtain ⟨blocks, wrote, listed⟩ := ih
      (count - min (f.blockSize - pos % f.blockSize).toNat count) (by omega)
      (pos + ↑(min (f.blockSize - pos % f.blockSize).toNat count))
    refine ⟨offset32 (roundDown pos f.blockSize) :: blocks, ?_, ?_⟩
    · rw [if_neg ends]
      simp only [Callees.succeeding, Bind.bind, Except.bind] at wrote ⊢
      rw [wrote]
      rfl
    · intro p lower upper
      by_cases here : p < pos + ↑(min (f.blockSize - pos % f.blockSize).toNat count)
      · have same : roundDown p f.blockSize = roundDown pos f.blockSize := by
          have whole := Int.mul_ediv_add_emod pos f.blockSize
          rw [Int.mul_comm] at whole
          have quotient : p / f.blockSize = pos / f.blockSize := by
            rw [Int.ediv_eq_iff_of_pos size]
            omega
          rw [roundDown, roundDown, quotient]
        rw [same]
        exact List.mem_cons_self ..
      · exact List.mem_cons_of_mem _ (listed p (by omega) (by omega))

theorem residentWrite_succeeding (stop_of : s64 (pos + count) = stop) (positive : 0 ≤ stop) :
    residentWrite .succeeding (max f.size stop) count pos = .ok (some ⟨s64 count, [offset64 (pos + count)]⟩) := by
  have wrapped : (pos + count) % 2 ^ 64 = stop := by
    rw [← stop_of] at positive ⊢
    simp only [s64, Int.bmod] at positive ⊢
    omega
  simp only [residentWrite, Callees.succeeding, Bind.bind, Except.bind, Bool.false_eq_true, if_false, wrapped]
  rw [if_neg (by omega)]
  rfl

/-- A write that nothing refuses, and the offsets it has rounded. -/
theorem doWrite_served (count : Nat) (plain : f.encrypted = false) (stop_of : s64 (pos + count) = stop) (positive : 0 ≤ stop)
    (fits : ¬ Outgrows f stop (preallocOf f stop))
    (unrefused : ¬ (¬ WritesBlocks f ∧ pos < 0 ∧ LeavesRecord f stop)) :
    ∃ done, doWrite f .succeeding count pos = .ok done ∧
      (WritesBlocks f → ∀ p, pos ≤ p → p < pos + count → offset32 (roundDown p f.blockSize) ∈ done.offsets) ∧
      (¬ WritesBlocks f → LeavesRecord f stop → offset64 (roundUp pos pageBytes) ∈ done.offsets) := by
  rw [doWrite]
  obtain ⟨resident, grown, stays⟩ := growTo_succeeding positive plain fits
  by_cases blocks : WritesBlocks f
  · obtain ⟨listed, wrote, inside⟩ := compressBlocks_served f count pos
    rw [preallocOf, if_pos blocks] at grown
    refine ⟨⟨s64 count, offset64 (pos + count) ::
      ((if (f.size : Int) < stop then [offset64 (roundUp stop f.blockSize)] else []) ++ listed)⟩, ?_, ?_, ?_⟩
    · have extended : onlyIf ((f.initializedSize : Int) < stop) (Callees.succeeding.setInitializedSize stop) = .ok () := by
        simp [onlyIf, Callees.succeeding]
      rw [if_pos blocks, ntfsCompressWrite]
      simp only [stop_of, grown, wrote, extended, Bind.bind, Except.bind, Pure.pure, Except.pure]
    · intro _ p lower upper
      exact List.mem_cons_of_mem _ (List.mem_append_right _ (inside p lower upper))
    · exact fun direct => absurd blocks direct
  · rw [preallocOf, if_neg blocks] at grown
    rw [if_neg blocks]
    simp only [stop_of, grown, Bind.bind, Except.bind]
    by_cases leaves : LeavesRecord f stop
    · have lower : 0 ≤ pos := by
        by_contra below
        exact unrefused ⟨blocks, by omega, leaves⟩
      have direct : resident = false := by
        rw [← Bool.not_eq_true, stays]
        exact not_not.mpr leaves
      rw [direct, if_neg (by decide), nonResidentWrite_succeeding lower]
      refine ⟨_, rfl, fun packed => absurd packed blocks, fun _ _ => ?_⟩
      exact List.mem_cons_of_mem _ (List.mem_append_right _ (List.mem_cons_self ..))
    · rw [stays.mpr leaves, if_pos rfl, residentWrite_succeeding stop_of positive]
      exact ⟨_, rfl, fun packed => absurd packed blocks, fun _ left => absurd left leaves⟩

theorem allocateRuns_succeeding {first last : Int} (lower : 0 ≤ first) : allocateRuns .succeeding first last = .ok () := by
  rw [allocateRuns]
  split
  · rw [if_neg (by omega)]
    rfl
  · rfl

/-- An allocation that nothing refuses. -/
theorem ntfsAttrFallocate_served (plain : f.encrypted = false) (same : f.otherAttribute = false)
    (stop_of : s64 (offset + len) = stop) (positive : 0 ≤ stop) (fits : ¬ Outgrows f stop 0)
    (unrefused : ¬ (offset < 0 ∧ LeavesRecord f stop)) :
    ∃ resident offsets, ntfsAttrFallocate f .succeeding offset len = .ok (resident, offsets) ∧
      (resident = true ↔ ¬ LeavesRecord f stop) := by
  obtain ⟨resident, grown, stays⟩ := growTo_succeeding positive plain fits
  rw [ntfsAttrFallocate, if_neg (by simp [same])]
  simp only [stop_of, grown, Bind.bind, Except.bind]
  by_cases leaves : LeavesRecord f stop
  · have lower : 0 ≤ offset := by
      by_contra below
      exact unrefused ⟨by omega, leaves⟩
    have direct : resident = false := by
      rw [← Bool.not_eq_true, stays]
      exact not_not.mpr leaves
    have first : 0 ≤ f.bytesToCluster offset := Int.ediv_nonneg lower f.clusterSize_pos.le
    rw [direct, if_neg (by decide), allocateRuns_succeeding first]
    exact ⟨false, _, rfl, by simp [leaves]⟩
  · rw [stays.mpr leaves, if_pos rfl]
    exact ⟨true, _, rfl, by simp [leaves]⟩

/-- An allocation that nothing refuses, and the end of the file it has rounded. -/
theorem ntfsVfsFallocate_served (keepSize : Bool) (mounted : f.shutdown = false) (writable : f.readOnly = false)
    (regular : f.type = .regular) (zone : f.noMftZone = false) (unpacked : f.compressed = false)
    (plain : f.encrypted = false) (space : shortOfSpace f offset len = false) (same : f.otherAttribute = false)
    (stop_of : s64 (offset + len) = stop) (positive : 0 ≤ stop) (within : stop ≤ sMaxbytes)
    (fits : ¬ Outgrows f stop 0) (unrefused : ¬ (offset < 0 ∧ LeavesRecord f stop)) :
    ∃ done, ntfsVfsFallocate f .succeeding keepSize offset len = .ok done ∧ done.answer = 0 ∧
      (zeroesTail f keepSize offset = true → LeavesRecord f stop →
        offset64 (roundUp f.size pageBytes) ∈ done.offsets) := by
  have sizes := f.size_allocated
  have word := f.allocated_word
  obtain ⟨resident, offsets, allocated, stays⟩ := ntfsAttrFallocate_served plain same stop_of positive fits unrefused
  have ranged : ntfsAllocateRange f .succeeding offset len =
      .ok (resident, offset64 (offset + len) :: (clusterOffsets f offset len ++ offsets)) := by
    rw [ntfsAllocateRange]
    simp only [stop_of, allocated, Bind.bind, Except.bind]
    rw [if_neg (by omega), if_neg (by rw [sMaxbytes] at within ⊢; omega), if_neg (by simp [space])]
    rfl
  have prepared : Callees.succeeding.prepare = .ok () := rfl
  have zeroed (from_ count : Int) : Callees.succeeding.zeroRange from_ count = .ok () := rfl
  simp only [ntfsVfsFallocate, mounted, writable, regular, zone, unpacked, plain, prepared, ranged, zeroed, Bind.bind,
    Except.bind]
  by_cases tail : resident = false ∧ zeroesTail f keepSize offset = true
  · refine ⟨⟨0, offset64 (roundUp f.size pageBytes) ::
      offset64 (offset + len) :: (clusterOffsets f offset len ++ offsets)⟩, ?_, rfl, fun _ _ => List.mem_cons_self ..⟩
    simp [tail, Pure.pure, Except.pure]
  · refine ⟨⟨0, offset64 (offset + len) :: (clusterOffsets f offset len ++ offsets)⟩, ?_, rfl, fun zeroes leaves => ?_⟩
    · simp [tail, Pure.pure, Except.pure]
    · have direct : resident = false := by
        rw [← Bool.not_eq_true, stays]
        exact not_not.mpr leaves
      exact absurd ⟨direct, zeroes⟩ tail

end Served

section Requests

variable {f : OpenFile} {callees : Callees} {done : Done} {buffer keepSize wantHole : Bool} {count offset len : UInt64}

theorem loff_range (offset : UInt64) : InS64 (loff offset) := by
  have word := offset.toNat_lt
  rw [loff_eq]
  split <;> constructor <;> omega

theorem toNat_pos_of_ne {n : UInt64} (nonzero : n ≠ 0) : 0 < n.toNat := by
  rw [Nat.pos_iff_ne_zero]
  exact fun zero => nonzero (UInt64.toNat_inj.mp zero)

theorem ntfsRead_cases (served : ntfsRead f callees buffer count offset = .ok done) :
    ¬ (buffer = false ∧ count ≠ 0) ∧ f.type ≠ .directory ∧ f.type ≠ .symlink ∧ f.shutdown = false ∧
      (count = 0 ∧ done = ⟨0, []⟩ ∨ count ≠ 0 ∧ doRead f callees count.toNat (loff offset) = .ok done) := by
  simp only [ntfsRead, check_eq_ok] at served
  obtain ⟨handed, file, link, mounted, served⟩ := served
  refine ⟨handed, file, link, by simpa using mounted, ?_⟩
  split at served
  · rename_i empty
    exact .inl ⟨empty, (Except.ok.inj served).symm⟩
  · rename_i some_byte
    exact .inr ⟨some_byte, served⟩

/-- Behind the checks of `ntfs_write` there is nothing to write, or `do_write` does it. -/
theorem ntfsWrite_cases (served : ntfsWrite f callees buffer count offset = .ok done) :
    ¬ (buffer = false ∧ count ≠ 0) ∧ f.type ≠ .directory ∧ f.type ≠ .symlink ∧ f.shutdown = false ∧
      f.readOnly = false ∧ f.encrypted = false ∧
      (count = 0 ∧ done = ⟨0, []⟩ ∨ count ≠ 0 ∧ ((offset + count).toNat : Int) ≤ sMaxbytes ∧
        doWrite f callees count.toNat (loff offset) = .ok done) := by
  simp only [ntfsWrite, check_eq_ok] at served
  obtain ⟨handed, file, link, mounted, writable, plain, served⟩ := served
  refine ⟨handed, file, link, by simpa using mounted, by simpa using writable, by simpa using plain, ?_⟩
  split at served
  · rename_i empty
    exact .inl ⟨empty, (Except.ok.inj served).symm⟩
  · rename_i some_byte
    obtain ⟨within, served⟩ := check_eq_ok.mp served
    exact .inr ⟨some_byte, Int.not_lt.mp within, served⟩

theorem ntfsFallocate_cases (served : ntfsFallocate f callees offset len keepSize = .ok done) :
    len = 0 ∧ done = ⟨0, []⟩ ∨ len ≠ 0 ∧ ((offset + len).toNat : Int) ≤ sMaxbytes ∧
      ntfsVfsFallocate f callees keepSize (loff offset) (loff len) = .ok done := by
  rw [ntfsFallocate] at served
  split at served
  · rename_i empty
    exact .inl ⟨empty, (Except.ok.inj served).symm⟩
  · rename_i some_byte
    obtain ⟨within, served⟩ := check_eq_ok.mp served
    exact .inr ⟨some_byte, Int.not_lt.mp within, served⟩

/-- A request that is turned away ends with an error. -/
theorem turned_away {request : FileRequest} (away : request.TurnedAway f)
    (served : request.serve f callees = .ok done) : done.answer < 0 := by
  cases request with
  | read buffer count offset =>
    have bounds := loff_range offset
    obtain ⟨handed, file, link, mounted, none | ⟨some_byte, read⟩⟩ := ntfsRead_cases served
    · rcases away with no | dir | sym | down | ⟨some_byte, _⟩ <;> simp_all
    · rcases away with no | dir | sym | down | ⟨_, inside, refused⟩
      · exact absurd no handed
      · exact absurd dir file
      · exact absurd sym link
      · simp [mounted] at down
      · obtain ⟨plain, answer⟩ := doRead_answer read bounds.1 inside
        have word := count.toNat_lt
        rcases refused with secret | long
        · simp [plain] at secret
        · have sizes := f.size_allocated
          have small := f.allocated_word
          have lower := bounds.1
          rw [answer]
          simp only [s64, Int.bmod]
          omega
  | write buffer count offset =>
    have bounds := loff_range offset
    obtain ⟨handed, file, link, mounted, writable, plain, none | ⟨some_byte, within, written⟩⟩ := ntfsWrite_cases served
    · rcases away with no | dir | sym | down | locked | secret | ⟨some_byte, _⟩ <;> simp_all
    · rcases away with no | dir | sym | down | locked | secret | ⟨_, refused⟩
      · exact absurd no handed
      · exact absurd dir file
      · exact absurd sym link
      · simp [mounted] at down
      · simp [writable] at locked
      · simp [plain] at secret
      · by_cases word : count.toNat < 2 ^ 63
        · have unrefused := doWrite_unrefused written (stop_of_le within) within bounds.1
            (toNat_pos_of_ne some_byte) word
          rcases refused with large | long | outgrows | negative
          · omega
          · omega
          · exact absurd outgrows unrefused.1
          · exact absurd negative unrefused.2
        · have upper := count.toNat_lt
          rw [doWrite_answer written]
          simp only [s64, Int.bmod]
          omega
  | fallocate offset len keepSize =>
    rcases ntfsFallocate_cases served with ⟨empty, _⟩ | ⟨some_byte, within, allocated⟩
    · exact absurd empty away.1
    have stop : s64 (loff offset + loff len) = (offset + len).toNat := by rw [loff_len, stop_of_le within]
    obtain ⟨mounted, writable, regular, zone, unpacked, plain, space, same, fits, lower⟩ :=
      ntfsVfsFallocate_unrefused allocated stop (by omega) within
    exfalso
    rcases away.2 with large | down | locked | other | none | packed | secret | short | foreign | outgrows | below
    · omega
    · simp [mounted] at down
    · simp [writable] at locked
    · exact other regular
    · simp [zone] at none
    · simp [unpacked] at packed
    · simp [plain] at secret
    · simp [space] at short
    · simp [same] at foreign
    · exact fits outgrows
    · exact lower below
  | seekDataHole offset wantHole =>
    rw [FileRequest.serve, ntfsSeekDataHole] at served
    rcases away with behind | ⟨stored, unpacked, below, rfl⟩
    · rw [if_pos behind] at served
      cases served
    · rw [if_neg (by omega), dif_pos ⟨stored, unpacked⟩] at served
      exact absurd served (seekRuns_negative stored below)

/-- A request that fits stays in range. -/
theorem fits_inRange {request : FileRequest} (fits : request.Fits f)
    (served : request.serve f callees = .ok done) : ∀ computed ∈ done.offsets, computed.InRange := by
  obtain ⟨signed, sum⟩ := fitting fits.1
  have within := fits.1
  have lower : 0 ≤ loff request.offset := by omega
  cases request with
  | read buffer count offset =>
    obtain ⟨_, _, _, _, ⟨_, rfl⟩ | ⟨some_byte, read⟩⟩ := ntfsRead_cases served
    · simp
    · exact doRead_inRange read lower (fits.2 some_byte)
  | write buffer count offset =>
    obtain ⟨_, _, _, _, _, _, ⟨_, rfl⟩ | ⟨some_byte, _, written⟩⟩ := ntfsWrite_cases served
    · simp
    · have rounded := fits.2 some_byte
      simp only [FileRequest.offset, FileRequest.count] at signed within
      refine doWrite_inRange written lower (toNat_pos_of_ne some_byte) (by omega) ?_
      split
      · rename_i blocks
        rw [if_pos blocks] at rounded
        omega
      · rename_i plain
        rw [if_neg plain] at rounded
        exact rounded
  | fallocate offset len keepSize =>
    rcases ntfsFallocate_cases served with ⟨_, rfl⟩ | ⟨some_byte, _, allocated⟩
    · simp
    · have positive := toNat_pos_of_ne some_byte
      simp only [FileRequest.offset, FileRequest.count] at signed within
      have length : loff len = len.toNat := by
        rw [loff_eq, if_pos (by rw [sMaxbytes] at within; omega)]
      exact ntfsVfsFallocate_inRange allocated lower (by omega) (by omega) (fits.2 some_byte)
  | seekDataHole offset wantHole =>
    rw [FileRequest.serve, ntfsSeekDataHole] at served
    split at served
    · cases served
    rename_i inside
    split at served
    · rename_i stored
      exact seekRuns_inRange stored.1 served lower
    · cases served
      have file := offset64_inRange.mp (offset64_size f)
      simp only [FileRequest.offset] at lower
      simp only [List.forall_mem_singleton, offset64_inRange]
      split <;> omega

theorem unwrapped (count : UInt64) (lower : 0 ≤ loff offset) (within : loff offset + count.toNat ≤ sMaxbytes) :
    (offset.toNat : Int) + count.toNat ≤ sMaxbytes := by
  have word := offset.toNat_lt
  rw [loff_eq] at lower within
  split at lower <;> omega

theorem rounded_record {n stop : Int} (stays : ¬ LeavesRecord f stop) (inside : n ≤ stop) :
    roundUp n pageBytes ≤ sMaxbytes := by
  have up := roundUp_bounds n (by decide : 0 < pageBytes)
  simp only [LeavesRecord, not_or, Bool.not_eq_true] at stays
  have sizes := f.size_allocated
  have short := f.resident_small stays.1
  have record := f.record_small
  rw [pageBytes] at up ⊢
  rw [sMaxbytes]
  omega

theorem last_block {stop : Int} (fit : (offset32 (roundDown (stop - 1) f.blockSize)).InRange) : stop ≤ 2 ^ 31 := by
  have size := f.blockSize_pos
  have whole : (2 : Int) ^ 31 = 2 ^ (31 - f.blockBits) * f.blockSize := by
    have small := f.block_bits
    rw [OpenFile.blockSize, ← pow_add]
    congr 1
    omega
  simp only [Computed.InRange, offset32, roundDown, Nat.add_one_sub_one] at fit
  have below : (stop - 1) / f.blockSize < 2 ^ (31 - f.blockBits) := by
    have upper := fit.2
    rw [whole] at upper
    exact Int.lt_of_mul_lt_mul_right upper size.le
  have upper := (Int.ediv_lt_iff_lt_mul size).mp below
  rw [← whole] at upper
  omega

/-- A request that stays in range when nothing refuses it fits. -/
theorem inRange_fits {request : FileRequest} (unrefused : ¬ request.TurnedAway f)
    (inRange : StaysInRange f request) : request.Fits f := by
  have sizes := f.size_allocated
  have initialized := f.initialized_allocated
  have word := f.allocated_word
  cases request with
  | read buffer count offset =>
    have bounds := loff_range offset
    simp only [FileRequest.TurnedAway, not_or] at unrefused
    obtain ⟨handed, file, link, mounted, clean⟩ := unrefused
    have passes : ntfsRead f .succeeding buffer count offset =
        if count = 0 then .ok ⟨0, []⟩ else doRead f .succeeding count.toNat (loff offset) := by
      rw [ntfsRead, if_neg handed, if_neg file, if_neg link, if_neg mounted]
    by_cases empty : count = 0
    · obtain ⟨lower, within, _⟩ := inRange .succeeding ⟨0, []⟩ (passes.trans (if_pos empty)) (le_refl 0)
      exact ⟨unwrapped _ lower within, fun some_byte => absurd empty some_byte⟩
    rw [if_neg empty] at passes
    by_cases inside : loff offset < f.size
    · have plain : f.encrypted = false := by
        rw [← Bool.not_eq_true]
        exact fun secret => clean ⟨empty, inside, .inl secret⟩
      have short : min (count.toNat : Int) (f.size - loff offset) < 2 ^ 63 := by
        by_contra long
        exact clean ⟨empty, inside, .inr (Int.not_lt.mp long)⟩
      obtain ⟨done, read, listed⟩ := doRead_served count.toNat plain bounds.1 inside
      have answered : 0 ≤ done.answer := by
        rw [(doRead_answer read bounds.1 inside).2, s64_of_range ⟨by omega, by omega⟩]
        omega
      obtain ⟨lower, within, fit⟩ := inRange .succeeding done (passes.trans read) answered
      refine ⟨unwrapped _ lower within, fun _ unpacked inside begun => ?_⟩
      by_cases stored : f.nonResident = true
      · have page := fit _ (listed stored unpacked (toNat_pos_of_ne empty) begun)
        exact (offset64_inRange.mp page).2
      · have stays : ¬ LeavesRecord f f.size := by simp [LeavesRecord, stored]
        exact rounded_record stays inside.le
    · have served : doRead f .succeeding count.toNat (loff offset) = .ok ⟨0, []⟩ := by
        rw [doRead, if_pos (by omega)]
      obtain ⟨lower, within, _⟩ := inRange .succeeding ⟨0, []⟩ (passes.trans served) (le_refl 0)
      exact ⟨unwrapped _ lower within, fun _ _ begun => absurd begun inside⟩
  | write buffer count offset =>
    have bounds := loff_range offset
    simp only [FileRequest.TurnedAway, not_or] at unrefused
    obtain ⟨handed, file, link, mounted, writable, plain, clean⟩ := unrefused
    have passes : ntfsWrite f .succeeding buffer count offset =
        if count = 0 then .ok ⟨0, []⟩ else if sMaxbytes < (offset + count).toNat then .error .efbig
          else doWrite f .succeeding count.toNat (loff offset) := by
      rw [ntfsWrite, if_neg handed, if_neg file, if_neg link, if_neg mounted, if_neg writable, if_neg plain]
    by_cases empty : count = 0
    · obtain ⟨lower, within, _⟩ := inRange .succeeding ⟨0, []⟩ (passes.trans (if_pos empty)) (le_refl 0)
      exact ⟨unwrapped _ lower within, fun some_byte => absurd empty some_byte⟩
    simp only [not_and, not_or] at clean
    obtain ⟨large, long, fits, direct⟩ := clean empty
    have stop := stop_of_le (Int.not_lt.mp large)
    obtain ⟨done, written, blocks, pages⟩ := doWrite_served count.toNat (by simpa using plain) stop
      (by omega) fits fun refused => direct refused.1 refused.2.1 refused.2.2
    rw [if_neg empty, if_neg large, written] at passes
    have answered : 0 ≤ done.answer := by
      rw [doWrite_answer written, s64_of_range ⟨by omega, by omega⟩]
      omega
    obtain ⟨lower, within, fit⟩ := inRange .succeeding done passes answered
    have whole := unwrapped _ lower within
    obtain ⟨signed, sum⟩ := fitting whole
    have positive := toNat_pos_of_ne empty
    simp only [FileRequest.offset, FileRequest.count] at lower within whole signed sum
    refine ⟨whole, fun _ => ?_⟩
    split
    · rename_i packed
      have last := fit _ (blocks packed (loff offset + count.toNat - 1) (by omega) (by omega))
      have upper := last_block last
      omega
    · rename_i plainly
      by_cases leaves : LeavesRecord f (offset + count).toNat
      · exact (offset64_inRange.mp (fit _ (pages plainly leaves))).2
      · exact rounded_record leaves (by omega)
  | fallocate offset len keepSize =>
    by_cases empty : len = 0
    · have served : ntfsFallocate f .succeeding offset len keepSize = .ok ⟨0, []⟩ := by
        rw [ntfsFallocate, if_pos empty]
      obtain ⟨lower, within, _⟩ := inRange .succeeding ⟨0, []⟩ served (le_refl 0)
      exact ⟨unwrapped _ lower within, fun some_byte => absurd empty some_byte⟩
    simp only [FileRequest.TurnedAway, not_and, not_or] at unrefused
    obtain ⟨large, mounted, writable, regular, zone, unpacked, plain, space, same, fits, direct⟩ := unrefused empty
    have stop : s64 (loff offset + loff len) = (offset + len).toNat := by
      rw [loff_len, stop_of_le (Int.not_lt.mp large)]
    obtain ⟨done, allocated, answer, tail⟩ := ntfsVfsFallocate_served keepSize
      (by simpa using mounted) (by simpa using writable) (not_not.mp regular) (by simpa using zone)
      (by simpa using unpacked) (by simpa using plain) (by simpa using space) (by simpa using same) stop (by omega)
      (Int.not_lt.mp large) fits fun refused => direct refused.1 refused.2
    have served : ntfsFallocate f .succeeding offset len keepSize = .ok done := by
      rw [ntfsFallocate, if_neg empty, if_neg large, allocated]
    obtain ⟨lower, within, fit⟩ := inRange .succeeding done served (by omega)
    have whole := unwrapped _ lower within
    obtain ⟨signed, sum⟩ := fitting whole
    refine ⟨whole, fun _ zeroes => ?_⟩
    by_cases leaves : LeavesRecord f (offset + len).toNat
    · exact (offset64_inRange.mp (fit _ (tail zeroes leaves))).2
    · have behind := (of_decide_eq_true zeroes).2.1
      simp only [FileRequest.offset, FileRequest.count] at signed sum
      have inside : (f.size : Int) ≤ (offset + len).toNat := by
        rw [signed] at behind
        rw [sum]
        exact behind.le.trans (Int.ofNat_le.mpr (Nat.le_add_right ..))
      exact rounded_record leaves inside
  | seekDataHole offset wantHole =>
    refine ⟨?_, trivial⟩
    simp only [FileRequest.TurnedAway, not_or] at unrefused
    by_cases below : loff offset < 0
    · have before : f.bytesToCluster (loff offset) < 0 := Int.ediv_neg_of_neg_of_pos below f.clusterSize_pos
      have served : ∃ done, ntfsSeekDataHole f .succeeding offset wantHole = .ok done ∧ 0 ≤ done.answer := by
        rw [ntfsSeekDataHole, if_neg unrefused.1]
        split
        · rename_i stored
          have hole : wantHole = true := by
            by_contra data
            exact unrefused.2 ⟨stored.1, stored.2, below, by simpa using data⟩
          have behind : attrVcnToLcn f .succeeding (f.bytesToCluster (loff offset)) = lcnEnoent := by
            rw [attrVcnToLcn]
            simp [Callees.succeeding, before]
          rw [seekRuns, dif_pos (by omega)]
          simp [behind, hole, lcnEnoent, lcnHole, lcnDelalloc]
        · exact ⟨_, rfl, le_refl 0⟩
      obtain ⟨done, served, answered⟩ := served
      have lower := (inRange .succeeding done served answered).1
      simp only [FileRequest.offset] at lower
      omega
    · have file : (f.size : Int) ≤ sMaxbytes := by rw [sMaxbytes]; omega
      simpa [FileRequest.offset, FileRequest.count] using
        unwrapped 0 (Int.not_lt.mp below) (by simp only [UInt64.toNat_zero]; omega)

end Requests

/-- A small file on a volume with clusters of a page, whose value lies in its record. -/
def smallFile : OpenFile where
  type := .regular
  shutdown := false
  readOnly := false
  encrypted := false
  compressed := false
  nonResident := false
  otherAttribute := false
  size := 100
  initializedSize := 100
  allocatedSize := 104
  clusterBits := 12
  blockBits := 16
  mftRecordSize := 1024
  noMftZone := false
  freeClusters := 1000
  dirtyClusters := 0
  rl := []
  cluster_bits := by decide
  block_bits := by decide
  record_small := by decide
  size_allocated := by decide
  initialized_allocated := by decide
  allocated_word := by decide
  resident_small _ := by decide
  runs_follow stored := by cases stored
  runs_allocated stored := by cases stored

/-- A page written 4096 bytes before the offset zero passes the check on the end, which is
zero, and reports that it has been written. -/
theorem write_before_file :
    (∃ done, (FileRequest.write true 4096 0xfffffffffffff000).serve smallFile .succeeding = .ok done ∧
      done.answer = 4096) ∧ ¬ StaysInRange smallFile (.write true 4096 0xfffffffffffff000) := by
  have served : (FileRequest.write true 4096 0xfffffffffffff000).serve smallFile .succeeding =
      .ok ⟨4096, [offset64 0]⟩ := by decide +kernel
  refine ⟨⟨_, served, rfl⟩, fun inRange => ?_⟩
  have lower := (inRange .succeeding _ served (by decide)).1
  revert lower
  decide

/-- A request stays in range exactly when it is turned away or when it fits. -/
theorem stays_in_range_iff (f : OpenFile) (request : FileRequest) :
    StaysInRange f request ↔ request.TurnedAway f ∨ request.Fits f := by
  constructor
  · intro inRange
    by_cases away : request.TurnedAway f
    · exact .inl away
    · exact .inr (inRange_fits away inRange)
  · rintro (away | fits) callees done served answered
    · have refused := turned_away away served
      omega
    · obtain ⟨signed, _⟩ := fitting fits.1
      have within := fits.1
      rw [signed]
      exact ⟨by omega, within, fits_inRange fits served⟩

end Ttntfs.Vfs
