import Ttntfs.Ntfs.ClusterFree

/-!
# Allocating clusters

The allocator searches the lcn bitmap zone after zone. The mft zone lies between its start and
its end, the first data zone behind it and the second data zone in front of it. A zone is
searched from the position where its last allocation ended and then, in a second pass, from its
start up to there. Of each page of the bitmap that the search comes to it takes the largest gap
only, unless a hint says where to begin. When all zones are done, a request from the data zone
halves the mft zone and searches the first data zone again.

The state of the search holds the run list with the latest run first. The program counter of
the source, as far as its labels need one, is the field `place`. Locks stay outside.
-/

namespace Ttntfs.Ntfs

/-- `MFT_ZONE` -/
def mftZone : Int := 0
/-- `DATA_ZONE` -/
def dataZone : Int := 1

/-- The values of `search_zone`: 1, 2 and 4. -/
inductive SearchZone where
  | mft
  | data1
  | data2
  deriving DecidableEq

/-- The bits of `done_zones`. -/
structure DoneZones where
  mft : Bool
  data1 : Bool
  data2 : Bool

/-- `done_zones |= search_zone` -/
def DoneZones.mark (done : DoneZones) : SearchZone → DoneZones
  | .mft => { done with mft := true }
  | .data1 => { done with data1 := true }
  | .data2 => { done with data2 := true }

/-- `done_zones == 7` -/
def DoneZones.all (done : DoneZones) : Bool := done.mft && done.data1 && done.data2

/-- The arguments of `ntfs_cluster_alloc`. -/
structure AllocRequest where
  startVcn : Int
  count : Int
  startLcn : Int
  zone : Int
  isExtension : Bool
  isContig : Bool
  isDealloc : Bool

/-- What may go wrong around `ntfs_cluster_alloc`: the reads of the bitmap pages and the memory
allocations of the search, by their numbers, and the reads of the rollback, by run. -/
structure AllocFaults where
  readPage : Nat → Option ErrorCode
  noMemory : Nat → Bool
  rollback : Nat → RunFaults

/-- Where the search goes on: at the start of the outer loop or at `done_zones_check`. -/
inductive SearchPlace where
  | outerLoop
  | doneZonesCheck
  deriving DecidableEq

/-- The local variables of `ntfs_cluster_alloc`, with the numbers of pages read and of
allocations made so far. -/
structure Search where
  vol : LcnVolume
  place : SearchPlace
  zoneStart : Nat
  zoneEnd : Nat
  bmpPos : Nat
  bmpInitialPos : Nat
  pass : Nat
  doneZones : DoneZones
  searchZone : SearchZone
  hasGuess : Bool
  usedZonePos : Bool
  clusters : Nat
  rl : List RunlistElement
  rlsize : Nat
  prevLcn : Nat
  prevRunLen : Nat
  reads : Nat
  allocations : Nat

/-- The local variables of `max_empty_bit_range`; no start position stands for `-1`. -/
structure EmptyScan where
  run : Nat
  maxRange : Nat
  startPos : Option Nat

/-- A run of clear bits ends in front of the bit `pos`. -/
def EmptyScan.endRun (s : EmptyScan) (pos : Nat) : EmptyScan :=
  if s.maxRange < s.run then { run := 0, maxRange := s.run, startPos := some (pos - s.run) }
  else { s with run := 0 }

/-- One bit of a byte that is neither empty nor full. -/
def EmptyScan.bit (s : EmptyScan) (pos : Nat) (bit : Bool) : EmptyScan :=
  if bit then s.endRun pos else { s with run := s.run + 1 }

/-- The `i`-th byte of the buffer. -/
def EmptyScan.byte (buf : Nat → Bool) (s : EmptyScan) (i : Nat) : EmptyScan :=
  if (List.range 8).all fun j => !buf (8 * i + j) then { s with run := s.run + 8 }
  else if (List.range 8).all fun j => buf (8 * i + j) then s.endRun (8 * i)
  else (List.range 8).foldl (fun s j => s.bit (8 * i + j) (buf (8 * i + j))) s

/-- `max_empty_bit_range` -/
def maxEmptyBitRange (buf : Nat → Bool) (size : Nat) : Option Nat :=
  let s := (List.range size).foldl (EmptyScan.byte buf) { run := 0, maxRange := 0, startPos := none }
  if s.maxRange < s.run then some (8 * size - s.run) else s.startPos

/-- Grow the run list if needed, including space for the terminator element; the size of an
element is 24 bytes. -/
def Search.grow (s : Search) (faults : AllocFaults) : Option Search :=
  if s.rlsize < (s.rl.length + 2) * 24 then
    if faults.noMemory s.allocations then none
    else some { s with rlsize := s.rlsize + bitmapPageSize, allocations := s.allocations + 1 }
  else some s

/-- Allocate the cluster `pos`, a bit of the page `index`, and add it to the run list. -/
def Search.takeBit (s : Search) (req : AllocRequest) (index pos : Nat) : Search :=
  let s := { s with vol := (s.vol.setPart index pos 1 true).decFreeClusters 1, clusters := s.clusters - 1 }
  match s.rl with
  | [] =>
    { s with
      rl := [{ vcn := req.startVcn.toNat, lcn := pos, length := 1 }], prevLcn := pos, prevRunLen := 1 }
  | last :: runs =>
    -- Coalesce with the previous run if adjacent, otherwise append a new run.
    if s.prevLcn + s.prevRunLen = pos then
      { s with rl := { last with length := s.prevRunLen + 1 } :: runs, prevRunLen := s.prevRunLen + 1 }
    else
      { s with
        rl := { vcn := last.vcn + s.prevRunLen, lcn := pos, length := 1 } :: last :: runs
        prevLcn := pos, prevRunLen := 1 }

/-- How the inner loop ends: at the label `done` with the current position, with an error, or
at its condition. -/
inductive TakeEnd where
  | done (pos : Nat)
  | failed (err : ErrorCode)
  | left

/-- The inner loop from the position `pos` on, with `n` bits left in the buffer. -/
def takeBits (req : AllocRequest) (faults : AllocFaults) (index : Nat) : Nat → Nat → Search → Search × TakeEnd
  | 0, _, s => (s, .left)
  | n + 1, pos, s =>
    if s.zoneEnd ≤ pos then (s, .left)
    else if s.vol.bits pos then
      if req.isContig ∧ 0 < s.prevRunLen then (s, .done pos) else ({ s with hasGuess := false }, .left)
    else
      match s.grow faults with
      | none => (s, .failed codeNomem)
      | some s =>
        let s := s.takeBit req index pos
        if s.clusters = 0 then (s, .done pos) else takeBits req faults index n (pos + 1) s

/-- The inner loop over a page of the bitmap: without a guess it first looks for the largest gap
of the buffer. -/
def Search.takeFromPage (s : Search) (req : AllocRequest) (faults : AllocFaults) (index bufSize lcn : Nat) :
    Search × TakeEnd :=
  if lcn < bufSize ∧ lcn + s.bmpPos < s.zoneEnd then
    if s.hasGuess then takeBits req faults index (bufSize - lcn) (s.bmpPos + lcn) s
    else
      match maxEmptyBitRange (fun i => s.vol.bits (s.bmpPos + i)) (bufSize / 8) with
      | none => (s, .left)
      | some lcn => takeBits req faults index (bufSize - lcn) (s.bmpPos + lcn) { s with hasGuess := true }
  else (s, .left)

/-- The current position of a zone. -/
def LcnVolume.zonePos (vol : LcnVolume) : SearchZone → Nat
  | .mft => vol.mftZonePos
  | .data1 => vol.data1ZonePos
  | .data2 => vol.data2ZonePos

/-- Update the current position of a zone behind the cluster in front of `tc`. -/
def LcnVolume.updateZonePos (vol : LcnVolume) (zone : SearchZone) (tc bmpInitialPos : Nat) : LcnVolume :=
  match zone with
  | .mft =>
    if vol.mftZoneEnd ≤ tc then { vol with mftZonePos := if vol.mftZoneEnd = 0 then 0 else vol.mftLcn }
    else if (vol.mftZonePos ≤ bmpInitialPos ∨ vol.mftZonePos < tc) ∧ vol.mftLcn ≤ tc then
      { vol with mftZonePos := tc }
    else vol
  | .data1 =>
    if vol.nrClusters ≤ tc then { vol with data1ZonePos := vol.mftZoneEnd }
    else if (vol.data1ZonePos ≤ bmpInitialPos ∨ vol.data1ZonePos < tc) ∧ vol.mftZoneEnd ≤ tc then
      { vol with data1ZonePos := tc }
    else vol
  | .data2 =>
    if vol.mftZoneStart ≤ tc then { vol with data2ZonePos := 0 }
    else if vol.data2ZonePos ≤ bmpInitialPos ∨ vol.data2ZonePos < tc then { vol with data2ZonePos := tc }
    else vol

/-- How one round of the search ends: another one follows, or it goes to the label `out`. -/
inductive RoundEnd where
  | again (s : Search)
  | out (s : Search) (err : Option ErrorCode)

/-- The code at the label `zone_pass_done`. -/
def Search.zonePassDone (s : Search) : Search :=
  if s.pass = 1 then
    let zoneStart :=
      match s.searchZone with
      | .mft => s.vol.mftZoneStart
      | .data1 => s.vol.mftZoneEnd
      | .data2 => 0
    { s with pass := 2, zoneEnd := max s.zoneStart zoneStart, zoneStart, bmpPos := zoneStart }
  else { s with place := .doneZonesCheck }

/-- The end of the outer loop's page: go on in the zone while it is not over. -/
def Search.afterPage (s : Search) : Search := if s.bmpPos < s.zoneEnd then s else s.zonePassDone

/-- A zone that begins at one of these places needs a single pass. -/
def LcnVolume.singlePass (vol : LcnVolume) (zoneStart : Nat) : Bool :=
  zoneStart = 0 ∨ zoneStart = vol.mftZoneStart ∨ zoneStart = vol.mftZoneEnd

/-- The number of bits of the buffer from the byte of the current position on. -/
def Search.bufSize (s : Search) : Nat :=
  8 * min (bitmapPageSize - s.bmpPos / 8 % bitmapPageSize) (s.vol.iSize - s.bmpPos / 8)

/-- The search at the label `done`: update the current zone position. -/
def Search.doneAt (s : Search) (pos : Nat) : Search :=
  if s.usedZonePos then { s with vol := s.vol.updateZonePos s.searchZone (pos + 1) s.bmpInitialPos } else s

/-- Behind the inner loop: after a hint go to the position of the zone, otherwise behind the buffer. -/
def Search.leavePage (s : Search) (bufSize : Nat) : Search :=
  if s.usedZonePos then { s with bmpPos := s.bmpPos + bufSize }.afterPage
  else
    let zoneStart := s.vol.zonePos s.searchZone
    { s with
      usedZonePos := true, zoneStart, pass := if s.vol.singlePass zoneStart then 2 else s.pass
      bmpPos := zoneStart }.afterPage

/-- Go on behind the inner loop. -/
def Search.afterTake (s : Search) (bufSize : Nat) : TakeEnd → RoundEnd
  | .done pos => .out (s.doneAt pos) none
  | .failed err => .out s (some err)
  | .left => .again (s.leavePage bufSize)

/-- The search at the first bit of the byte of its position, with one more page read. -/
def Search.atByte (s : Search) : Search := { s with bmpPos := s.bmpPos - s.bmpPos % 8, reads := s.reads + 1 }

/-- The outer loop from its start over one page of the bitmap. -/
def Search.pageRound (s : Search) (req : AllocRequest) (faults : AllocFaults) : RoundEnd :=
  let index := s.bmpPos / 8 / bitmapPageSize
  if s.vol.iSize ≤ s.bmpPos / 8 then .again s.zonePassDone
  else if s.vol.emptyBits index = 0 then
    .again { s with bmpPos := s.bmpPos - s.bmpPos % 8 + s.bufSize }.afterPage
  else
    match faults.readPage s.reads with
    | some err => .out s (some err)
    | none =>
      let out := s.atByte.takeFromPage req faults index s.bufSize (s.bmpPos % 8)
      out.1.afterTake s.bufSize out.2

/-- The code at the label `switch_to_data1_zone`. -/
def Search.switchToData1 (s : Search) : Search :=
  let zoneStart := s.vol.data1ZonePos
  let s := { s with
    searchZone := .data1, zoneStart, bmpInitialPos := zoneStart, zoneEnd := s.vol.nrClusters
    pass := if zoneStart = s.vol.mftZoneEnd then 2 else s.pass }
  if s.zoneEnd ≤ s.zoneStart then
    { s with vol := { s.vol with data1ZonePos := s.vol.mftZoneEnd }, zoneStart := s.vol.mftZoneEnd, pass := 2 }
  else s

/-- The switch from the first data zone to the second one. -/
def Search.switchToData2 (s : Search) : Search :=
  let zoneStart := s.vol.data2ZonePos
  let s := { s with
    searchZone := .data2, zoneStart, bmpInitialPos := zoneStart, zoneEnd := s.vol.mftZoneStart
    pass := if zoneStart = 0 then 2 else s.pass }
  if s.zoneEnd ≤ s.zoneStart then
    { s with vol := { s.vol with data2ZonePos := 0 }, zoneStart := 0, bmpInitialPos := 0, pass := 2 }
  else s

/-- The volume with its mft zone halved. -/
def LcnVolume.shrinkMftZone (vol : LcnVolume) : LcnVolume :=
  let size := (vol.mftZoneEnd - vol.mftZoneStart) / 2
  let vol := if 0 < size then { vol with mftZoneEnd := vol.mftZoneStart + size }
    else { vol with data2ZonePos := 0, mftZoneStart := 0, mftZoneEnd := 0 }
  let vol := if vol.mftZoneEnd ≤ vol.mftZonePos then
      { vol with mftZonePos := if vol.mftZoneEnd = 0 then 0 else vol.mftLcn }
    else vol
  { vol with data1ZonePos := vol.mftZoneEnd }

/-- The volume when a zone is left: the positions of scanned zones are updated during the switch. -/
def Search.leaveZone (s : Search) : LcnVolume :=
  match s.rl with
  | last :: _ =>
    if s.usedZonePos then s.vol.updateZonePos s.searchZone (last.lcn.toNat + last.length) s.bmpInitialPos
    else s.vol
  | [] => s.vol

/-- Switch to the next zone that is not done yet; an empty one is not searched. -/
def Search.switchZone (s : Search) : Search :=
  let left := { s with doneZones := s.doneZones.mark s.searchZone, pass := 1, vol := s.leaveZone }
  let next := if s.searchZone = .data1 then left.switchToData2 else left.switchToData1
  { next with
    bmpPos := next.zoneStart, place := if next.zoneStart = next.zoneEnd then .doneZonesCheck else .outerLoop }

/-- Halve the mft zone and search the first data zone again. -/
def Search.shrinkZone (s : Search) : Search :=
  let vol := s.vol.shrinkMftZone
  { s with
    vol, zoneEnd := s.vol.mftZoneEnd, bmpPos := vol.mftZoneEnd, zoneStart := vol.mftZoneEnd
    bmpInitialPos := vol.mftZoneEnd, searchZone := .data1, pass := 2
    doneZones := { s.doneZones.mark s.searchZone with data1 := false }, place := .outerLoop }

/-- The code at the label `done_zones_check`. -/
def Search.zonesRound (s : Search) (req : AllocRequest) : RoundEnd :=
  if !(s.doneZones.mark s.searchZone).all then .again s.switchZone
  else if req.zone = mftZone ∨ s.vol.mftZoneEnd ≤ s.vol.mftZoneStart then .out s (some codeNospc)
  else .again s.shrinkZone

/-- One round of the search. -/
def Search.round (s : Search) (req : AllocRequest) (faults : AllocFaults) : RoundEnd :=
  match s.place with
  | .outerLoop => s.pageRound req faults
  | .doneZonesCheck => s.zonesRound req

/-- The outer loop of `ntfs_cluster_alloc` with a number of rounds to go. -/
def searchLoop (req : AllocRequest) (faults : AllocFaults) : Nat → Search → Option (Search × Option ErrorCode)
  | 0, _ => none
  | fuel + 1, s =>
    match s.round req faults with
    | .again s => searchLoop req faults fuel s
    | .out s err => some (s, err)

/-- The search in its initial state. -/
def Search.start (vol : LcnVolume) (req : AllocRequest) : Search :=
  let hasGuess := decide (0 ≤ req.startLcn)
  let zoneStart := if hasGuess then req.startLcn.toNat
    else if req.zone = dataZone then vol.data1ZonePos else vol.mftZonePos
  let searchZone : SearchZone := if zoneStart < vol.mftZoneStart then .data2
    else if zoneStart < vol.mftZoneEnd then .mft else .data1
  { vol, place := .outerLoop, zoneStart
    zoneEnd := match searchZone with
      | .data2 => vol.mftZoneStart
      | .mft => vol.mftZoneEnd
      | .data1 => vol.nrClusters
    bmpPos := zoneStart, bmpInitialPos := zoneStart, pass := if vol.singlePass zoneStart then 2 else 1
    doneZones := { mft := searchZone ≠ .mft, data1 := false, data2 := false }, searchZone, hasGuess
    usedZonePos := !hasGuess, clusters := req.count.toNat, rl := [], rlsize := 0, prevLcn := 0
    prevRunLen := 0, reads := 0, allocations := 0 }

/-- The run list that was built, with its terminator. -/
def Search.runlist (s : Search) (req : AllocRequest) : List RunlistElement :=
  match s.rl with
  | [] => []
  | last :: runs =>
    ({ vcn := last.vcn + last.length, lcn := if req.isExtension then lcnEnoent else lcnRlNotMapped, length := 0 } ::
      last :: runs).reverse

/-- `ntfs_release_dirty_clusters` -/
def LcnVolume.releaseDirtyClusters (vol : LcnVolume) (nr : Nat) : LcnVolume :=
  { vol with dirtyClusters := if vol.dirtyClusters < nr then 0 else vol.dirtyClusters - nr }

/-- The code at the label `out`. -/
def Search.finish (s : Search) (req : AllocRequest) (faults : AllocFaults) (err : Option ErrorCode) :
    LcnVolume × Except ErrorCode (List RunlistElement) :=
  let rl := s.runlist req
  match err with
  | none =>
    match rl with
    | [] => (s.vol, .error codeIo)
    | first :: _ => (if req.isDealloc then s.vol.releaseDirtyClusters first.length else s.vol, .ok rl)
  | some err =>
    -- Deallocate all allocated clusters.
    let out := s.vol.ntfsClusterFreeFromRlNolock rl faults.rollback
    ({ out.1 with errors := out.1.errors || out.2.isSome, dirtyClusters := 0 }, .error err)

/-- The free clusters that a request may take. -/
def LcnVolume.availableClusters (vol : LcnVolume) (isDealloc : Bool) : Int :=
  if isDealloc then vol.freeClusters else vol.freeClusters - vol.dirtyClusters

/-- The arguments that `ntfs_cluster_alloc` refuses. -/
def AllocRequest.invalid (req : AllocRequest) : Bool :=
  req.startVcn < 0 ∨ req.startLcn < lcnHole ∨ req.zone < mftZone ∨ dataZone < req.zone ∨ req.count ≤ 0

/-- The number of zones of a search that are not done. -/
def DoneZones.left (done : DoneZones) : Nat := (!done.mft).toNat + (!done.data1).toNat + (!done.data2).toNat

/-- A bound on the number of rounds that a search goes on: the mft zone can be halved, each zone
be done, the second pass be made and each page be come to. -/
def Search.rank (s : Search) : Nat :=
  let stage := match s.place with
    | .doneZonesCheck => 0
    | .outerLoop => if s.pass = 1 then 2 else 1
  ((((s.vol.mftZoneEnd - s.vol.mftZoneStart) * 4 + s.doneZones.left) * 3 + stage) * 2 + (!s.usedZonePos).toNat) *
    (8 * s.vol.iSize + 1) + (8 * s.vol.iSize - s.bmpPos)

/-- `ntfs_cluster_alloc` -/
def LcnVolume.ntfsClusterAlloc (vol : LcnVolume) (req : AllocRequest) (faults : AllocFaults) :
    Option (LcnVolume × Except ErrorCode (List RunlistElement)) :=
  if req.invalid then some (vol, .error codeInval)
  else if vol.availableClusters req.isDealloc < req.count then some (vol, .error codeNospc)
  else
    let s := Search.start vol req
    (searchLoop req faults (s.rank + 1) s).map fun out => out.1.finish req faults out.2

end Ttntfs.Ntfs
