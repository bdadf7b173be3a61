import Mathlib.Logic.Function.Basic
import Mathlib.Data.List.Sort

/-!
# Dirty inodes and their write-back

The dirty state of inodes and of the folios of their mappings, the maybe-dirty list of
the superblock, and the calls that change them: `__mark_inode_dirty` and
`folio_mark_dirty`, `write_inode_now` and `sync_inodes_sb`. A thread is in at most one
of these calls; one step is one section under a lock, or the return of a callback of the
file system. A call that a callback makes counts as a thread of its own.

What was dirtied and what was written is counted beside the state: every dirtying call
takes the next number of its inode or folio, a write takes along the number it found
when it cleared the dirty state, and a write that succeeds records it.
-/

namespace Ttntfs.Platform.Writeback

/-- `WB_REDIRTY_RETRIES` -/
def wbRedirtyRetries : Nat := 16

/-- `struct inode` and its mapping, as far as write-back reads and writes them. -/
structure Inode where
  /-- `i_ino` -/
  ino : Nat
  /-- `i_seq` -/
  seq : Nat
  /-- on `s_inodes` -/
  attached : Bool
  /-- `I_NEW` -/
  isNew : Bool
  /-- `inode_dying` -/
  dying : Bool
  /-- some bit of `I_DIRTY_ALL` -/
  dirty : Bool
  /-- the dirty folios of the mapping, whose number is `nrdirty` -/
  folios : List Nat
  /-- the folios under writeback -/
  writeback : List Nat
  /-- `wb_err` -/
  wbErr : Bool
  /-- the number of the last change, and of the last changes that returned and that a
  write took to the device -/
  dirtied : Nat
  returned : Nat
  written : Nat
  folioDirtied : Nat → Nat
  folioReturned : Nat → Nat
  folioWritten : Nat → Nat

/-- The change with which a dirtying call left an inode. -/
inductive Change where
  | state (number : Nat)
  | folio (f number : Nat)

/-- Where a thread is in `write_inode_now`. -/
inductive Phase where
  /-- before `collect_dirty` -/
  | collect (attempt : Nat)
  /-- in the loop of `write_range` -/
  | flush (attempt : Nat) (todo : List Nat) (redirtied err : Bool)
  /-- in `write_folio` -/
  | folio (attempt f captured : Nat) (todo : List Nat) (redirtied err : Bool)
  /-- in `wait_range` -/
  | wait (err : Bool)
  /-- before the section that clears the dirty bits -/
  | clear (err : Bool)
  /-- in `write_inode` -/
  | call (err : Bool) (captured : Nat)
  /-- before the section that restores the dirty bits -/
  | restore (captured : Nat)

/-- A call of `write_inode_now`. -/
structure Write where
  inode : Nat
  sync : Bool
  phase : Phase

/-- The call goes on to a phase. -/
def Write.enter (call : Write) (phase : Phase) : Write := { call with phase := phase }

/-- A call of `sync_inodes_sb`: the rest of its array and its error, and the changes
that had returned when it started. -/
structure SyncRun where
  todo : List Nat
  err : Bool
  due : Nat → Nat
  dueFolio : Nat → Nat → Nat

/-- What a thread is in. -/
inductive Frame where
  | idle
  /-- a dirtying call before `inode_note_dirty` takes the superblock lock -/
  | note (i : Nat) (change : Change)
  /-- `write_inode_now`, called from `sync_inodes_sb` or not -/
  | write (call : Write) (run : Option SyncRun)
  /-- `sync_inodes_sb` behind a write that succeeded -/
  | prune (i : Nat) (run : SyncRun)
  /-- `sync_inodes_sb` between two inodes -/
  | sync (run : SyncRun)

/-- The inodes of a superblock and the threads. -/
structure State where
  inode : Nat → Inode
  frame : Nat → Frame
  /-- `s_dirty_inodes` -/
  dirtyInodes : List Nat

/-- How `write_folio` comes back: with the folio written, with an error, or with the
folio dirtied again in place of writing it. -/
inductive Outcome where
  | written
  | failed
  | handedBack
  deriving DecidableEq

/-- What may happen next. Allocations that fail cut an array after a number of entries. -/
inductive Event where
  | unlockNewInode (i : Nat)
  /-- `I_WILL_FREE` -/
  | claim (i : Nat)
  /-- the last section of `evict` -/
  | evict (i : Nat)
  | markInodeDirty (t i : Nat)
  | folioMarkDirty (t i f : Nat)
  | inodeNoteDirty (t : Nat)
  | writeInodeNow (t i : Nat) (sync : Bool)
  | collectDirty (t kept : Nat)
  | startFolio (t : Nat)
  | endFolio (t : Nat) (outcome : Outcome)
  | endRange (t : Nat)
  | waitRange (t : Nat)
  | clearDirty (t : Nat)
  | writeInode (t : Nat) (ok : Bool)
  | restoreDirty (t : Nat)
  | syncInodesSb (t kept : Nat)
  | nextInode (t : Nat)
  | prune (t : Nat)
  | syncReturn (t : Nat)

/-! ## The sections -/

namespace Inode

/-- The inode needs writing: `i_state & I_DIRTY_ALL`, or `nrdirty`. -/
def needsWrite (inode : Inode) : Bool := inode.dirty || !inode.folios.isEmpty

/-- The section of `__mark_inode_dirty`. -/
def markDirty (inode : Inode) : Inode :=
  { inode with dirty := true, dirtied := inode.dirtied + 1 }

/-- The section of `folio_mark_dirty`. -/
def folioMarkDirty (inode : Inode) (f : Nat) : Inode :=
  { inode with
    folios := if f ∈ inode.folios then inode.folios else inode.folios ++ [f]
    folioDirtied := Function.update inode.folioDirtied f (inode.folioDirtied f + 1) }

/-- A change has returned. -/
def changeReturned (inode : Inode) : Change → Inode
  | .state number => { inode with returned := max inode.returned number }
  | .folio f number =>
    { inode with
      folioReturned := Function.update inode.folioReturned f (max (inode.folioReturned f) number) }

/-- `folio_clear_dirty_for_io` with `folio_start_writeback`. -/
def startFolio (inode : Inode) (f : Nat) : Inode :=
  { inode with folios := inode.folios.filter (· ≠ f), writeback := f :: inode.writeback }

/-- `folio_end_writeback` behind a folio that was written, or not. -/
def endFolio (inode : Inode) (f captured : Nat) (outcome : Outcome) : Inode :=
  { inode with
    writeback := inode.writeback.filter (· ≠ f)
    wbErr := inode.wbErr || outcome = .failed
    folioWritten := if outcome = .written then
        Function.update inode.folioWritten f (max (inode.folioWritten f) captured)
      else inode.folioWritten }

/-- The end of a `write_inode` that succeeded. -/
def stateWritten (inode : Inode) (captured : Nat) : Inode :=
  { inode with written := max inode.written captured }

end Inode

/-- `sync_rank` -/
def syncRank (inode : Inode) : Nat :=
  if inode.ino = 0 then 2 else if inode.ino < 16 then 0 else 1

/-- `cmp_sync_order` puts the first inode before the second, or takes them for equal. -/
def syncOrder (x y : Inode) : Bool :=
  if syncRank x ≠ syncRank y then syncRank x < syncRank y
  else if x.seq ≠ y.seq then x.seq > y.seq
  else true

namespace State

/-- Change one inode. -/
def modify (s : State) (i : Nat) (change : Inode → Inode) : State :=
  { s with inode := Function.update s.inode i (change (s.inode i)) }

/-- A thread goes on to a frame. -/
def goto (s : State) (t : Nat) (frame : Frame) : State :=
  { s with frame := Function.update s.frame t frame }

/-- Take an inode off the maybe-dirty list. -/
def unlist (s : State) (i : Nat) : State :=
  { s with dirtyInodes := s.dirtyInodes.filter (· ≠ i) }

/-- `snapshot_inodes` takes the inode. -/
def selected (s : State) (i : Nat) : Bool :=
  !(s.inode i).dying && !(s.inode i).isNew && (s.inode i).needsWrite

/-- The array of `snapshot_inodes`. -/
def snapshot (s : State) (kept : Nat) : List Nat :=
  ((s.dirtyInodes.filter s.selected).take kept).insertionSort
    fun i j => syncOrder (s.inode i) (s.inode j) = true

/-- A dirtying call behind its first section: it returns, or goes on to
`inode_note_dirty` where it made the inode, or its mapping, dirty. -/
def dirtied (s : State) (t i : Nat) (edge : Bool) (change : Change) : State :=
  if edge then s.goto t (.note i change) else s.modify i (·.changeReturned change)

/-- `inode_note_dirty` -/
def noteDirty (s : State) (i : Nat) : State :=
  if i ∉ s.dirtyInodes ∧ (s.inode i).attached then { s with dirtyInodes := s.dirtyInodes ++ [i] }
  else s

/-- `write_inode_now` returns. -/
def writeReturns (s : State) (t i : Nat) (run : Option SyncRun) (err : Bool) : State :=
  match run with
  | none => s.goto t .idle
  | some run => s.goto t (if err then .sync { run with err := true } else .prune i run)

/-- The next step of a thread that is in `write_inode_now`. -/
def runWrite (s : State) (t : Nat) (call : Write) (run : Option SyncRun) : Event → Option State
  | .collectDirty _ kept =>
    match call.phase with
    | .collect attempt =>
      let todo := ((s.inode call.inode).folios.take kept).insertionSort (· ≤ ·)
      some (s.goto t (.write (call.enter (.flush attempt todo false false)) run))
    | _ => none
  | .startFolio _ =>
    match call.phase with
    | .flush attempt (f :: todo) redirtied err =>
      -- the folio lock is free
      if f ∈ (s.inode call.inode).writeback then none
      else if f ∈ (s.inode call.inode).folios then
        let captured := (s.inode call.inode).folioDirtied f
        some ((s.modify call.inode (·.startFolio f)).goto t
          (.write (call.enter (.folio attempt f captured todo redirtied err)) run))
      else some (s.goto t (.write (call.enter (.flush attempt todo redirtied err)) run))
    | _ => none
  | .endFolio _ outcome =>
    match call.phase with
    | .folio attempt f captured todo redirtied err =>
      let again := outcome ≠ .failed && f ∈ (s.inode call.inode).folios
      if outcome = .handedBack ∧ f ∉ (s.inode call.inode).folios then none
      else some ((s.modify call.inode (·.endFolio f captured outcome)).goto t
        (.write (call.enter (.flush attempt todo (redirtied || again) (err || outcome = .failed))) run))
    | _ => none
  | .endRange _ =>
    match call.phase with
    | .flush attempt [] redirtied err =>
      if err || !redirtied || attempt ≥ wbRedirtyRetries then
        some (s.goto t (.write (call.enter (if call.sync then .wait err else .clear err)) run))
      else some (s.goto t (.write (call.enter (.collect (attempt + 1))) run))
    | _ => none
  | .waitRange _ =>
    match call.phase with
    | .wait err =>
      if (s.inode call.inode).writeback = [] then
        some ((s.modify call.inode fun inode => { inode with wbErr := false }).goto t
          (.write (call.enter (.clear (err || (s.inode call.inode).wbErr))) run))
      else none
    | _ => none
  | .clearDirty _ =>
    match call.phase with
    | .clear err =>
      if (s.inode call.inode).dirty then
        let captured := (s.inode call.inode).dirtied
        some ((s.modify call.inode fun inode => { inode with dirty := false }).goto t
          (.write (call.enter (.call err captured)) run))
      else some (s.writeReturns t call.inode run err)
    | _ => none
  | .writeInode _ ok =>
    match call.phase with
    | .call err captured =>
      if ok then
        some ((s.modify call.inode (·.stateWritten captured)).writeReturns t call.inode run err)
      else some (s.goto t (.write (call.enter (.restore captured)) run))
    | _ => none
  | .restoreDirty _ =>
    match call.phase with
    | .restore _ =>
      some ((s.modify call.inode fun inode => { inode with dirty := true }).writeReturns t call.inode
        run true)
    | _ => none
  | _ => none

/-- The thread whose step an event is. -/
def thread : Event → Option Nat
  | .unlockNewInode _ | .claim _ | .evict _ => none
  | .markInodeDirty t _ | .folioMarkDirty t _ _ | .inodeNoteDirty t | .writeInodeNow t _ _
  | .collectDirty t _ | .startFolio t | .endFolio t _ | .endRange t | .waitRange t | .clearDirty t
  | .writeInode t _ | .restoreDirty t | .syncInodesSb t _ | .nextInode t | .prune t
  | .syncReturn t => some t

/-- The next step of a thread. -/
def runThread (s : State) (t : Nat) (event : Event) : Option State :=
  match s.frame t, event with
  | .idle, .markInodeDirty _ i =>
    some ((s.modify i (·.markDirty)).dirtied t i (!(s.inode i).dirty)
      (.state ((s.inode i).dirtied + 1)))
  | .idle, .folioMarkDirty _ i f =>
    some ((s.modify i (·.folioMarkDirty f)).dirtied t i (s.inode i).folios.isEmpty
      (.folio f ((s.inode i).folioDirtied f + 1)))
  | .idle, .writeInodeNow _ i sync => some (s.goto t (.write ⟨i, sync, .collect 0⟩ none))
  | .idle, .syncInodesSb _ kept =>
    some (s.goto t (.sync ⟨s.snapshot kept, false, fun i => (s.inode i).returned,
      fun i => (s.inode i).folioReturned⟩))
  | .note i change, .inodeNoteDirty _ =>
    some (((s.noteDirty i).modify i (·.changeReturned change)).goto t .idle)
  | .sync run, .nextInode _ =>
    match run.todo with
    | [] => none
    | i :: rest =>
      some (s.goto t (.write ⟨i, true, .collect 0⟩ (some { run with todo := rest })))
  | .sync run, .syncReturn _ => if run.todo = [] then some (s.goto t .idle) else none
  | .prune i run, .prune _ =>
    some ((if (s.inode i).needsWrite then s else s.unlist i).goto t (.sync run))
  | .write call run, event => s.runWrite t call run event
  | _, _ => none

/-- The step of an event; none where it cannot happen. -/
def next (s : State) (event : Event) : Option State :=
  match thread event, event with
  | some t, event => s.runThread t event
  | none, .unlockNewInode i => some (s.modify i fun inode => { inode with isNew := false })
  | none, .claim i => some (s.modify i fun inode => { inode with dying := true })
  | none, .evict i =>
    if (s.inode i).dying then
      some ((s.modify i fun inode => { inode with attached := false }).unlist i)
    else none
  | none, _ => none

end State

end Ttntfs.Platform.Writeback
