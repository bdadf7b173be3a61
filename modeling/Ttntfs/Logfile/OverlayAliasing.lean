import Ttntfs.Logfile.OpenAttributes
import Ttntfs.Logfile.FlushFaithful
import Ttntfs.Library.StatefulSteps

/-!
# The aliasing check of the overlay

The overlay keeps MFT records and clusters apart, so a replay refuses to write a
dirty cluster that lies inside `$MFT:$DATA` (heuristic H3). The check takes the runs
from the first unnamed non-resident `$DATA` attribute of record 0. The runs of
`$MFT:$DATA` may be in more places: in a further attribute of record 0 and in the
extent records that `$ATTRIBUTE_LIST` names. The check is sound exactly where these
other runs hold no dirty cluster of their own, or where it refuses the replay on
account of another cluster.
-/

namespace Ttntfs.Logfile

open Library.ByteMemory Library.StatefulSteps

/-! ## The check -/

/-- The first unnamed non-resident `$DATA` attribute of a checked record. -/
def mftDataAttr (rs : Nat) (record : Mem) : Option Nat :=
  (attrOffsets rs record).find? fun o =>
    lfGet32 record (o + atType) = attrTypeData && record (o + atNameLength) = 0 &&
      record (o + atNonResident) ≠ 0

/-- The end of `mft_runs_load`: what was decoded is kept, and refused where it is
incomplete or empty. -/
def mftRunsKeep (data : OpenAttr) (ok : Bool) : ReplayM Unit := do
  modify fun r => { r with mftdata := data }
  if !ok then throw .mftUndecodable
  else if data.runs.isEmpty then throw .mftResident
  else modify fun r => { r with mftLoaded := true }

/-- `mft_runs_load` -/
def mftRunsLoad : ReplayM Unit := do
  if (← get).mftLoaded then return
  let m ← getMft 0
  let rs := (← get).ovl.rs
  if m.bad || !checkFileRecord rs m.record then throw .mftUnusable
  else
    match mftDataAttr rs m.record with
    | none => mftRunsKeep OpenAttr.empty true
    | some o =>
      let (data, ok) := oaLoadExtent OpenAttr.empty m.record o
      mftRunsKeep data ok

/-- The test whether a run holds a cluster; its end may wrap. -/
def inRun (lcn : Nat) (rl : Run) : Bool :=
  rl.lcn ≠ sparseLcn && lcn ≥ rl.lcn && lcn < (rl.lcn + rl.len) % 2 ^ 64

/-- A run holds a cluster. -/
def Run.Holds (run : Run) (lcn : Nat) : Prop :=
  run.lcn ≠ sparseLcn ∧ run.lcn ≤ lcn ∧ lcn < run.lcn + run.len
  deriving Decidable

/-- The record as replay leaves it, where it can be used. -/
def usableRecord (r : Replay) (mftNo : Nat) : Option Mem :=
  match (ovlGetMft r.ovl r.ap r.dev mftNo).2 with
  | none => none
  | some m => if m.bad || !checkFileRecord r.ovl.rs m.record then none else some m.record

/-- The cluster as replay leaves it, where it can be read. -/
def clusterData (r : Replay) (lcn : Nat) : Option Mem :=
  match (ovlCluFind r.ovl.clu lcn).bind r.ovl.clu.slot with
  | some { state := .clean data, .. } => some data
  | some { state := .dirty data, .. } => some data
  | _ => if r.ap.readable lcn then some (r.dev lcn) else none

/-- The byte at an offset of a non-resident attribute. -/
def attrByte (r : Replay) (oa : OpenAttr) (i : Nat) : Option UInt8 :=
  match runLookup oa (i / r.ovl.cs) with
  | none => none
  | some lcn =>
    if lcn = sparseLcn then none else (clusterData r lcn).map fun data => data (i % r.ovl.cs)

/-- The value of an attribute and its length. Bytes that cannot be read are zero. -/
def attrValue (r : Replay) (record : Mem) (off : Nat) : Mem × Nat :=
  if record (off + atNonResident) = 0 then
    (fun i => record (off + lfGet16 record (off + atValueOffset) + i),
      lfGet32 record (off + atValueLength))
  else
    let tmp := (oaLoadExtent OpenAttr.empty record off).1
    (fun i => (attrByte r tmp i).getD 0, tmp.dataSize % 2 ^ 32)

/-- The offsets of the entries of an attribute list. -/
def listEntries (al : Mem) (alLen : Nat) : Nat → Nat → List Nat
  | 0, _ => []
  | fuel + 1, p =>
    let elen := lfGet16 al (p + alLength)
    if p + alName > alLen then []
    else if elen < alName || p + elen > alLen then []
    else p :: listEntries al alLen fuel (p + elen)

/-- The runs of the unnamed `$DATA` attribute at an offset of a record. -/
def dataRunsAt (record : Mem) (off : Nat) : List Run :=
  if lfGet32 record (off + atType) = attrTypeData && record (off + atNameLength) = 0 &&
      record (off + atNonResident) ≠ 0 then
    (oaLoadExtent OpenAttr.empty record off).1.runs
  else []

/-- The runs that the extent record an entry of the attribute list names has for it. -/
def listedRuns (r : Replay) (al : Mem) (p : Nat) : List Run :=
  if lfGet32 al (p + alType) = attrTypeData && al (p + alNameLength) = 0 &&
      mftRefNo al (p + alMftReference) ≠ 0 then
    match usableRecord r (mftRefNo al (p + alMftReference)) with
    | none => []
    | some record =>
      ((attrOffsets r.ovl.rs record).filter fun off =>
        lfGet64 record (off + atLowestVcn) = lfGet64 al (p + alLowestVcn)).flatMap (dataRunsAt record)
  else []

/-- The runs in the extent records that the attribute list at `off` of a record names. -/
def extentRuns (r : Replay) (record : Mem) (off : Nat) : List Run :=
  let (al, alLen) := attrValue r record off
  (listEntries al alLen (alLen + 1) 0).flatMap (listedRuns r al)

/-- The runs of the first unnamed non-resident `$DATA` attribute of record 0, where
they can be decoded and there are any. -/
def firstDataRuns (r : Replay) : Option (List Run) :=
  match usableRecord r 0 with
  | none => none
  | some record =>
    match mftDataAttr r.ovl.rs record with
    | none => none
    | some o =>
      match oaLoadExtent OpenAttr.empty record o with
      | (_, false) => none
      | (data, true) => if data.runs.isEmpty then none else some data.runs

theorem ovlGetMft_frame (ovl : Overlay) (ap : Apply) (dev : Device) (mftNo : Nat) :
    (ovlGetMft ovl ap dev mftNo).1.rs = ovl.rs ∧ (ovlGetMft ovl ap dev mftNo).1.clu = ovl.clu := by
  rw [ovlGetMft]
  cases ovlMftLookup ovl mftNo with
  | some m => exact ⟨rfl, rfl⟩
  | none =>
    cases ap.readMftRecord dev mftNo with
    | none => exact ⟨rfl, rfl⟩
    | some raw => exact ⟨rfl, rfl⟩

theorem mftRunsKeep_ok {data : OpenAttr} (nonempty : data.runs.isEmpty = false) (r : Replay) :
    mftRunsKeep data true r = .ok () { r with mftdata := data, mftLoaded := true } := by
  rw [mftRunsKeep, modify_bind, nonempty]
  rfl

theorem mftRunsKeep_empty {data : OpenAttr} (empty : data.runs.isEmpty = true) (r : Replay) :
    mftRunsKeep data true r = .error .mftResident { r with mftdata := data } := by
  rw [mftRunsKeep, modify_bind, empty]
  rfl

/-- Loading the runs of record 0 keeps the clusters of the overlay. It succeeds where
there are runs to be found, and these are then the runs compared. -/
theorem mftRunsLoad_fresh {r : Replay} (fresh : r.mftLoaded = false) :
    match firstDataRuns r with
    | none => ∃ e s, mftRunsLoad r = .error e s
    | some runs => ∃ s, mftRunsLoad r = .ok () s ∧ s.ovl.clu = r.ovl.clu ∧ s.mftLoaded = true ∧
        s.mftdata.runs = runs := by
  obtain ⟨sameSize, sameClusters⟩ := ovlGetMft_frame r.ovl r.ap r.dev 0
  rw [mftRunsLoad, get_bind, fresh, firstDataRuns, usableRecord, if_neg Bool.false_ne_true]
  rcases read : ovlGetMft r.ovl r.ap r.dev 0 with ⟨ovl, _ | m⟩
  · have failed : getMft 0 r = .error (.readMftRecord 0) { r with ovl } := by
      rw [getMft, read]
    exact ⟨_, _, bind_error failed⟩
  have got : getMft 0 r = .ok m { r with ovl } := by
    rw [getMft, read]
  rw [read] at sameSize sameClusters
  rw [bind_ok got, get_bind, sameSize]
  dsimp only
  cases unusable : m.bad || !checkFileRecord r.ovl.rs m.record with
  | true => exact ⟨.mftUnusable, _, rfl⟩
  | false =>
    rw [if_neg Bool.false_ne_true, if_neg Bool.false_ne_true]
    dsimp only
    cases mftDataAttr r.ovl.rs m.record with
    | none => exact ⟨.mftResident, _, rfl⟩
    | some o =>
      dsimp only
      rcases oaLoadExtent OpenAttr.empty m.record o with ⟨data, _ | _⟩
      · exact ⟨.mftUndecodable, _, rfl⟩
      dsimp only
      cases empty : data.runs.isEmpty with
      | true =>
        exact ⟨_, _, mftRunsKeep_empty empty _⟩
      | false =>
        exact ⟨_, mftRunsKeep_ok empty _, sameClusters, rfl, rfl⟩

/-- Between two rounds of the check nothing has been loaded yet, or the runs of record 0
are those compared. -/
def BetweenRounds (r s : Replay) : Prop :=
  s = r ∨ s.ovl.clu = r.ovl.clu ∧ s.mftLoaded = true ∧ firstDataRuns r = some s.mftdata.runs

theorem BetweenRounds.clu {r s : Replay} (between : BetweenRounds r s) : s.ovl.clu = r.ovl.clu := by
  obtain rfl | ⟨same, -, -⟩ := between
  · rfl
  · exact same

theorem BetweenRounds.load {r s : Replay} (fresh : r.mftLoaded = false)
    (between : BetweenRounds r s) :
    match firstDataRuns r with
    | none => ∃ e t, mftRunsLoad s = .error e t
    | some runs => ∃ t, mftRunsLoad s = .ok () t ∧ BetweenRounds r t ∧ t.mftdata.runs = runs := by
  obtain rfl | ⟨same, loaded, first⟩ := between
  · have loading := mftRunsLoad_fresh fresh
    cases first : firstDataRuns s with
    | none =>
      rw [first] at loading
      exact loading
    | some runs =>
      rw [first] at loading
      obtain ⟨t, load, same, loaded, runsEq⟩ := loading
      exact ⟨t, load, .inr ⟨same, loaded, by rw [first, runsEq]⟩, runsEq⟩
  · rw [first]
    refine ⟨s, ?_, .inr ⟨same, loaded, first⟩, rfl⟩
    rw [mftRunsLoad, get_bind, loaded]
    rfl

/-- A cluster passes the check. -/
def Passes (r : Replay) (lcn : Nat) : Prop :=
  ∃ runs, firstDataRuns r = some runs ∧ runs.any (inRun lcn) = false

end Ttntfs.Logfile
