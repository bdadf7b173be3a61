import Mathlib.Tactic.Tauto

/-!
# The read-only decision of a mount

`ntfs_mount` of `super_glue.c`. A volume is always loaded read-only; it is switched
read-write by `ntfs_glue_make_rw`, either for discarding a saved Windows session or
at the end, when no reason to stay read-only was found. The checks and writes it
performs are answered from outside: each call's outcome is an input here, so a
statement over all outcomes is one over all volumes, devices and failures.

Read-only status is kept twice: in the superblock flag, and as the recorded reason.
-/

namespace Ttntfs.Vfs

/-- `EROFS` -/
def erofs : Int := 30
/-- `EINVAL` -/
def einval : Int := 22
/-- `ENOMEM` -/
def enomem : Int := 12

/-- `NTFS_MOUNT_RDONLY` -/
def mountRdonly : UInt32 := 0x001
/-- `NTFS_MOUNT_RDONLY_FALLBACK` -/
def mountRdonlyFallback : UInt32 := 0x002
/-- `NTFS_MOUNT_DISCARD_HIBERNATION` -/
def mountDiscardHibernation : UInt32 := 0x080

/-- `VOLUME_IS_DIRTY` -/
def volumeIsDirty : UInt16 := 0x0001
/-- `VOLUME_MODIFIED_BY_CHKDSK` -/
def volumeModifiedByChkdsk : UInt16 := 0x8000
/-- `VOLUME_MUST_MOUNT_RO_MASK` -/
def volumeMustMountRoMask : UInt16 := 0xc027

/-- `enum ntfs_ro_reason` -/
inductive RoReason where
  | none
  | requested
  | device
  | dirty
  | hibernated
  | logfile
  | unsupported
  | errors
  deriving DecidableEq

/-- What the mount path reads and writes of the superblock and the volume. -/
structure Volume where
  /-- `SB_RDONLY` -/
  rdonly : Bool
  /-- `NV_Errors` -/
  errors : Bool
  volFlags : UInt16
  /-- `logfile_ino` is set. -/
  hasLogfile : Bool

/-- The calls by which `ntfs_glue_make_rw` retires the journal. -/
structure RetireOutcome where
  /-- Result of `ntfs_logfile_mark_clean_device`. -/
  markClean : Int
  /-- Result of `ntfs_empty_logfile`. -/
  emptyLogfile : Bool

/-- What `ntfs_glue_zero_hiberfil` does to the volume. -/
structure ZeroOutcome where
  err : Int
  /-- A step of the write flagged an error on the volume. -/
  errors : Bool
  /-- `ntfs_handle_error` set the superblock read-only. -/
  remountRo : Bool

/-- The outcomes of all calls a mount makes. -/
structure Outcomes where
  /-- The device and the options are given. -/
  arguments : Bool
  moduleInit : Int
  /-- The handle could be allocated. -/
  handle : Bool
  initFsContext : Int
  applyOptions : Int
  getTree : Int
  volFlags : UInt16
  hasLogfile : Bool
  /-- Some check other than the one for hibernation flagged an error, such as
  `$MFTMirr` not matching `$MFT`. -/
  otherErrors : Bool
  /-- `check_windows_hibernation_status`, which flags an error when it is not zero. -/
  hibernationStatus : Int
  /-- `ntfs_glue_logfile_clean` -/
  logfileClean : Bool
  /-- `ntfs_glue_hibernated` -/
  hibernated : Int
  discardRetire : RetireOutcome
  zeroHiberfil : ZeroOutcome
  mountRetire : RetireOutcome

/-- The mounted volume: `struct ntfs_volume_handle`. -/
structure Handle where
  vol : Volume
  dirty : Bool
  logfileClean : Bool
  hibernated : Bool
  roReason : RoReason

/-- `ntfs_glue_make_rw` -/
def glueMakeRw (vol : Volume) (retire : RetireOutcome) : Volume × Int :=
  if vol.errors then (vol, -erofs)
  else if vol.volFlags &&& (volumeIsDirty ||| volumeModifiedByChkdsk ||| volumeMustMountRoMask) ≠ 0
    then (vol, -erofs)
  else if vol.hasLogfile && retire.markClean ≠ 0 && !retire.emptyLogfile then
    ({ vol with errors := true }, -erofs)
  else ({ vol with rdonly := false }, 0)

/-- The volume as `get_tree` leaves it. -/
def loadedVolume (o : Outcomes) : Volume :=
  { rdonly := true
    errors := o.otherErrors || o.hibernationStatus ≠ 0
    volFlags := o.volFlags
    hasLogfile := o.hasLogfile }

/-- Read-write was asked for. -/
def wantRw (flags : UInt32) : Bool := flags &&& mountRdonly = 0

/-- The volume flags say it is dirty. -/
def isDirty (o : Outcomes) : Bool := o.volFlags &&& volumeIsDirty ≠ 0

/-- The conditions under which a saved session is discarded. -/
def discardAsked (flags : UInt32) (readOnly : Bool) (o : Outcomes) : Bool :=
  o.hibernated > 0 && wantRw flags && !readOnly && o.logfileClean && !isDirty o &&
    flags &&& mountDiscardHibernation ≠ 0

/-- The discarding of a saved session: the volume and the hibernation status
afterwards, and whether the volume was switched read-write. -/
def discardSession (vol : Volume) (hib : Int) (o : Outcomes) : Volume × Int × Bool :=
  let hadErrors := vol.errors
  let (switched, err) := glueMakeRw { vol with errors := false } o.discardRetire
  if err ≠ 0 then
    ({ switched with errors := switched.errors || hadErrors }, hib, false)
  else
    let zeroed := { switched with
      errors := switched.errors || o.zeroHiberfil.errors
      rdonly := switched.rdonly || o.zeroHiberfil.remountRo }
    if o.zeroHiberfil.err ≠ 0 then
      ({ zeroed with errors := zeroed.errors || hadErrors }, hib, true)
    else (zeroed, 0, true)

/-- The ladder of reasons to stay read-only. -/
def decideReason (flags : UInt32) (readOnly : Bool) (o : Outcomes) (vol : Volume) (hib : Int) :
    RoReason :=
  if !wantRw flags then .requested
  else if readOnly then .device
  else if hib ≠ 0 then .hibernated
  else if isDirty o then .dirty
  else if vol.volFlags &&& volumeMustMountRoMask ≠ 0 then .unsupported
  else if !o.logfileClean then .logfile
  else if vol.errors then .errors
  else .none

/-- The switch read-write when no reason was found; a volume that was switched for
the discard already stays as it is. -/
def switchRw (flags : UInt32) (o : Outcomes) (vol : Volume) (reason : RoReason) (madeRw : Bool) :
    Volume × RoReason :=
  if wantRw flags && reason = .none && madeRw then (vol, reason)
  else if wantRw flags && reason = .none then
    let (switched, err) := glueMakeRw vol o.mountRetire
    if err = 0 then (switched, reason) else (switched, .errors)
  else (vol, reason)

/-- The part of `ntfs_mount` behind the switch: fail, or return the handle. -/
def finishMount (flags : UInt32) (o : Outcomes) (hib : Int) (final : Volume × RoReason) :
    Except Int Handle :=
  if wantRw flags && final.2 ≠ .none && flags &&& mountRdonlyFallback = 0 then .error (-erofs)
  else .ok { vol := final.1, dirty := isDirty o, logfileClean := o.logfileClean,
             hibernated := hib ≠ 0, roReason := final.2 }

/-- The part of `ntfs_mount` behind `get_tree`. -/
def inspectAndSwitch (flags : UInt32) (readOnly : Bool) (o : Outcomes) : Except Int Handle :=
  let (vol, hib, madeRw) :=
    if discardAsked flags readOnly o then discardSession (loadedVolume o) o.hibernated o
    else (loadedVolume o, o.hibernated, false)
  finishMount flags o hib
    (switchRw flags o vol (decideReason flags readOnly o vol hib) madeRw)

/-- `ntfs_mount`; an error is the negated code. -/
def ntfsMount (flags : UInt32) (readOnly : Bool) (o : Outcomes) : Except Int Handle :=
  if !o.arguments then .error (-einval)
  else if o.moduleInit ≠ 0 then .error o.moduleInit
  else if !o.handle then .error (-enomem)
  else if o.initFsContext ≠ 0 then .error o.initFsContext
  else if o.applyOptions ≠ 0 then .error o.applyOptions
  else if o.getTree ≠ 0 then .error o.getTree
  else inspectAndSwitch flags readOnly o

end Ttntfs.Vfs
