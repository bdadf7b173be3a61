import Ttntfs.Logfile.Overlay
import Ttntfs.Library.CappedDrain

/-!
# Writing the overlay

`flush_overlay`: first every dirty MFT record, records 0 to 3 also into the copy
`$MFTMirr` keeps of them; then the dirty clusters in the order of their slots,
each together with the run of dirty clusters around it, 256 at a time.
-/

namespace Ttntfs.Logfile

open Library.ByteMemory Library.CappedDrain

/-- The state of a flush: the device, the overlay, what is known of `$MFTMirr`, and
the counters of the result. -/
structure FlushState where
  dev : Device
  ovl : Overlay
  mirr : OpenAttr
  mftRecordsWritten : Nat
  clustersWritten : Nat

/-- The state in which a flush starts. -/
def FlushState.start (ovl : Overlay) (dev : Device) : FlushState :=
  { dev, ovl, mirr := OpenAttr.empty, mftRecordsWritten := 0, clustersWritten := 0 }

/-- `MFT_REC_MIRR` -/
def mftRecMirr : Nat := 1
/-- `MFT_REC_VOL` -/
def mftRecVol : Nat := 3

/-- The record made ready for the device. Only `FILE` records are protected. -/
def protectRecord (rs : Nat) (m : OvlMft) : Option Mem :=
  if lfGet32 m.record 0 = lfsMagicFile then lfsFixupPreWrite m.record rs lfsSectorSize
  else some m.record

/-- An lcn is found in the table and dirty. -/
def dirtyAt (t : CluTable) (lcn : Nat) : Bool :=
  match ovlCluFind t lcn with
  | none => false
  | some i =>
    match t.slot i with
    | some { state := .dirty _, .. } => true
    | _ => false

/-- The data of an lcn in the table. -/
def dataAt (t : CluTable) (lcn : Nat) : Mem :=
  match (ovlCluFind t lcn).bind t.slot with
  | some { state := .dirty data, .. } => data
  | some { state := .clean data, .. } => data
  | _ => zeros

end Ttntfs.Logfile
