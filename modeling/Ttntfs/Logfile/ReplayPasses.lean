import Ttntfs.Logfile.Actions
import Ttntfs.Logfile.ForwardWalk

/-!
# The passes over the log

The walk of `ntfs_logfile_walk`, the loops of `analysis_pass` and `redo_pass` on it, and
`undo_pass`, which goes back along the chains of the transactions that were active. The tail of
the log has been scanned and the checkpoint loaded before; the counters of the result are left
out.
-/

namespace Ttntfs.Logfile

open Library.ByteMemory

/-- `LOP_Noop` -/
def lopNoop : Nat := 0x00
/-- `LOP_OpenAttributeTableDump` -/
def lopOpenAttributeTableDump : Nat := 0x1d
/-- `LOP_AttributeNamesDump` -/
def lopAttributeNamesDump : Nat := 0x1e
/-- `LOP_DirtyPageTableDump` -/
def lopDirtyPageTableDump : Nat := 0x1f
/-- `LOP_TransactionTableDump` -/
def lopTransactionTableDump : Nat := 0x20

/-- `can_skip_action` -/
def canSkipAction (op : Nat) : Bool :=
  [lopNoop, lopDeleteDirtyClusters, lopHotFix, lopEndTopLevelAction, lopPrepareTransaction,
    lopCommitTransaction, lopForgetTransaction, lopCompensationLogRecord,
    lopOpenNonresidentAttribute, lopOpenAttributeTableDump, lopAttributeNamesDump,
    lopDirtyPageTableDump, lopTransactionTableDump].contains op

section Passes

variable (log : Handle) (content : Mem)

/-! ## The public walk -/

/-- `ntfs_logfile_walk` from a record on: every record is given to the callback with its context,
until the callback asks for an end. -/
def ntfsLogfileWalk {σ : Type} (cb : LfsRecord → σ → Bool × σ) (rounds from_lsn : Nat) (ctx : σ) :
    Option (EStateM.Result (WalkError Empty) σ Unit) :=
  forwardWalk log content (fun record ctx => let (stop, ctx) := cb record ctx; .ok stop ctx) rounds
    from_lsn ctx

/-! ## Analysis -/

/-- What the loop of `analysis_pass` keeps: whether the checkpoint record lies behind, the tables,
and the number of the first record behind the checkpoint. -/
structure AnalysisState where
  behind : Bool
  tables : LogTables
  rlsn : Nat

/-- A round of the loop of `analysis_pass`. The record at the checkpoint itself is only read. -/
def analysisVisit (info : LogInfo) (record : LfsRecord) :
    EStateM AnalysisError AnalysisState Bool := fun s =>
  if !s.behind then .ok false { s with behind := true }
  else
    let s := { s with rlsn := if s.rlsn = 0 then record.lsn else s.rlsn }
    match analyseRecord info s.tables record with
    | .error e => .error e s
    | .ok tables => .ok false { s with tables }

/-- The loop of `analysis_pass` over the log, from a checkpoint that is not zero. -/
def analysisWalk (info : LogInfo) (tables : LogTables) (rounds checkpoint : Nat) :
    Option (EStateM.Result (WalkError AnalysisError) AnalysisState Unit) :=
  forwardWalk log content (analysisVisit info) rounds checkpoint
    { behind := false, tables := startTables info tables, rlsn := 0 }

/-! ## Redo -/

/-- How redo and undo fail. -/
inductive PassError where
  /-- "redo: malformed client record at lsn 0x%llx: %s", "undo: malformed record at lsn 0x%llx" -/
  | malformedRecord (lsn : Nat)
  /-- "redo: lsn 0x%llx targets unloadable attribute 0x%x" -/
  | unloadableAttribute (lsn targetAttr : Nat)
  /-- "redo: lsn 0x%llx targets $MFT vcn %llu outside its run list" -/
  | outsideRunList (lsn vcn : Nat)
  /-- A record on an undo chain cannot be read. -/
  | unreadable (e : RecordError)
  /-- An operation cannot be applied. -/
  | action (e : ReplayError)
  deriving DecidableEq

/-- A step of a pass. -/
abbrev PassM := EStateM PassError Replay

/-- A step of a replay as one of a pass, with the error that the pass makes of its own. -/
def inPass {α : Type} (error : ReplayError → PassError) (step : ReplayM α) : PassM α := fun r =>
  match step r with
  | .ok x r => .ok x r
  | .error e r => .error (error e) r

/-- The operation of a record as redo applies it. -/
def redoCtx (record : LfsRecord) (dlen : Nat) : ActionCtx where
  lsn := record.lsn
  record := record
  op := record.redoOp
  data := bytesFrom record.data record.redoOffset
  dlen := dlen
  undo := false

/-- The operation of a record as undo applies it. -/
def undoCtx (record : LfsRecord) : ActionCtx where
  lsn := 0
  record := record
  op := record.undoOp
  data := bytesFrom record.data record.undoOffset
  dlen := record.undoLength
  undo := true

/-- The loop of `redo_pass` that shortens the data by the clusters deleted since, from the last of
`i` clusters on: the length of the data, and the length to tell whether there was any. -/
def shortenDeleted (m : Mem) (dp j voff cs : Nat) : Nat → Nat × Nat → Nat × Nat
  | 0, lens => lens
  | i + 1, (dlen, savedLen) =>
    if dpLcn m dp (j + i) ≠ 0 then (dlen, savedLen)
    else
      let alen := i * cs % 2 ^ 32
      let dlen := if voff ≥ alen then 0 else if voff + dlen > alen then alen - voff else dlen
      shortenDeleted m dp j voff cs i (dlen, if savedLen = 0 then 1 else savedLen)

/-- The part of a round of `redo_pass` behind the look-up of the cluster. -/
def redoOnClusters (record : LfsRecord) (m : Mem) (dp : Nat) : PassM Unit := do
  let voff := lfGet16 record.data nrRecordOffset + lfGet16 record.data nrAttributeOffset +
    lfGet16 record.data nrClusterBlockOffset * lfsSectorSize
  let (dlen, savedLen) := shortenDeleted m dp (record.targetVcn - dpVcn m dp) voff (← get).ovl.cs
    record.lcnsToFollow (record.redoLength, record.redoLength)
  if dlen = 0 && savedLen ≠ 0 then return ()
  else if canSkipAction record.redoOp then return ()
  else
    let _ ← inPass .action (doAction record.targetAttribute (redoCtx record dlen))
    return ()

/-- The part of a round of `redo_pass` for a record whose page is dirty. -/
def redoOnPage (record : LfsRecord) (m : Mem) (dp : Nat) : PassM Unit := do
  let oa ← inPass (fun _ => .unloadableAttribute record.lsn record.targetAttribute)
    (oaLoad record.targetAttribute)
  let lcn := (runLookup oa.toOpenAttr record.targetVcn).getD sparseLcn
  if lcn = sparseLcn then
    if opIsMft record.redoOp then throw (.outsideRunList record.lsn record.targetVcn)
    else
      let _ ← inPass .action (planSkip (redoCtx record 0) "target vcn not allocated")
      return ()
  else redoOnClusters record m dp

/-- A round of the loop of `redo_pass`. -/
def redoRecord (bytesPerAttrEntry : Nat) (record : LfsRecord) : PassM Unit := do
  let dptbl := (← get).tables.dptbl
  if !record.isClient then return ()
  else if (lfsCheckClientRec record bytesPerAttrEntry).isSome then throw (.malformedRecord record.lsn)
  else if record.lcnsToFollow = 0 then return ()
  else
    match dptbl, findDp dptbl record.targetAttribute record.targetVcn with
    | some t, some dp =>
      if record.lsn < dpOldest t.buf dp then return () else redoOnPage record t.buf dp
    | _, _ => return ()

/-- `redo_pass` -/
def redoPass (bytesPerAttrEntry rounds rlsn : Nat) (r : Replay) :
    Option (EStateM.Result (WalkError PassError) Replay Unit) :=
  if (r.tables.dptbl.map Table.total).getD 0 = 0 || rlsn = 0 then some (.ok () r)
  else
    forwardWalk log content (fun record => redoRecord bytesPerAttrEntry record *> pure false) rounds
      rlsn r

/-! ## Undo -/

/-- The undo operation of a record, unless it is one that undo skips. -/
def undoRecord (bytesPerAttrEntry : Nat) (record : LfsRecord) : PassM Unit := do
  if !record.isClient || (lfsCheckClientRec record bytesPerAttrEntry).isSome then
    throw (.malformedRecord record.lsn)
  else if record.undoOp ≠ lopNoop && !canSkipAction record.undoOp then
    let _ ← inPass .action (doAction record.targetAttribute (undoCtx record))
    return ()
  else return ()

/-- The inner loop of `undo_pass`: back along the chain of a transaction. None is a chain that has
not ended within its rounds. -/
def undoChain (bytesPerAttrEntry : Nat) :
    Nat → Nat → Replay → Option (EStateM.Result PassError Replay Unit)
  | 0, _, _ => none
  | rounds + 1, lsn, r =>
    if lsn = 0 || !lfsLsnInFile log lsn then some (.ok () r)
    else
      match lfsReadRecord log content lsn with
      | .error e => some (.error (.unreadable e) r)
      | .ok record =>
        match undoRecord bytesPerAttrEntry record r with
        | .error e r => some (.error e r)
        | .ok () r => undoChain bytesPerAttrEntry rounds record.clientUndoNextLsn r

/-- The loop of `undo_pass` over transactions, here over the records at which their chains begin. -/
def undoChains (bytesPerAttrEntry rounds : Nat) :
    List Nat → Replay → Option (EStateM.Result PassError Replay Unit)
  | [], r => some (.ok () r)
  | lsn :: lsns, r =>
    match undoChain log content bytesPerAttrEntry rounds lsn r with
    | some (.ok () r) => undoChains bytesPerAttrEntry rounds lsns r
    | ended => ended

/-- The records at which the chains of the active transactions begin, in the order of the table. -/
def undoStarts : Option Table → List Nat
  | none => []
  | some t =>
    ((tableEntries (some t)).filter fun tr => t.buf (tr + trState) = transactionActive).map fun tr =>
      lfGet64 t.buf (tr + trUndoNextLsn)

/-- `undo_pass`. A chain that begins at zero has ended. -/
def undoPass (bytesPerAttrEntry rounds : Nat) (r : Replay) :
    Option (EStateM.Result PassError Replay Unit) :=
  undoChains log content bytesPerAttrEntry rounds (undoStarts r.tables.trtbl) r

end Passes

end Ttntfs.Logfile
