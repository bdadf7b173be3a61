import Ttntfs.Logfile.ReplayPasses
import Ttntfs.Logfile.RestartRoundTrip

/-!
# That the passes end

The forward passes end with the numbers of the log, whatever they do with its records. The undo
pass follows what the records themselves name as the next to undo: nothing but the records bounds
its steps. It never comes back from a chain that leads in a circle, unless an operation fails on
the way round; and such a chain harms only where the pass comes to it, past the chains before.

What an operation does to the volume is that of the action it names; here it matters only whether
it fails.
-/

namespace Ttntfs.Logfile

open Library.ByteMemory Library.SuccessorWalks

section Undo

variable (log : Handle) (content : Mem) (bytesPerAttrEntry : Nat)

/-- The record that a record names as the next to undo, zero where it cannot be read. -/
def undoNext (lsn : Nat) : Nat :=
  match lfsReadRecord log content lsn with
  | .error _ => 0
  | .ok record => record.clientUndoNextLsn

/-- Undo takes the record for one that it can apply. -/
def UndoableRecord (record : LfsRecord) : Prop :=
  record.isClient ∧ lfsCheckClientRec record bytesPerAttrEntry = none

/-- A chain goes no farther: there is no record, none in the log, or none that can be read and
undone. -/
def UndoStops (lsn : Nat) : Prop :=
  lsn = 0 ∨ lfsLsnInFile log lsn = false ∨
    ¬ ∃ record, lfsReadRecord log content lsn = .ok record ∧ UndoableRecord bytesPerAttrEntry record

/-- The chain from a record on comes to an end. -/
def UndoChainEnds (lsn : Nat) : Prop :=
  Ends (undoNext log content) (UndoStops log content bytesPerAttrEntry) lsn

/-- The chain from a record on comes to some record a second time. -/
def Circular (lsn : Nat) : Prop :=
  ∃ i j, i < j ∧ (∀ k ≤ j, ¬ UndoStops log content bytesPerAttrEntry ((undoNext log content)^[k] lsn)) ∧
    (undoNext log content)^[i] lsn = (undoNext log content)^[j] lsn

/-- The volume behind the first records of a chain, none where one of them cannot be undone. -/
def undone : Nat → Nat → Replay → Option Replay
  | 0, _, r => some r
  | records + 1, lsn, r =>
    match lfsReadRecord log content lsn with
    | .error _ => none
    | .ok record =>
      match undoRecord bytesPerAttrEntry record r with
      | .error _ _ => none
      | .ok () r => undone records (undoNext log content lsn) r

/-- A chain is left: it names no further record, or none in the log. -/
def ChainLeft (lsn : Nat) : Prop := lsn = 0 ∨ lfsLsnInFile log lsn = false

/-- No chain that undo comes to leads in a circle without an operation that fails on it. Undo comes
to a chain when the chains before it have been undone to their ends. -/
def CirclesCut : List Nat → Replay → Prop
  | [], _ => True
  | lsn :: lsns, r =>
    (Circular log content bytesPerAttrEntry lsn →
        ∃ records, undone log content bytesPerAttrEntry records lsn r = none) ∧
      ∀ records r', ChainLeft log ((undoNext log content)^[records] lsn) →
        undone log content bytesPerAttrEntry records lsn r = some r' → CirclesCut lsns r'

variable {log content bytesPerAttrEntry} {lsn : Nat} {record : LfsRecord}

theorem undoRecord_malformed (malformed : ¬ UndoableRecord bytesPerAttrEntry record) (r : Replay) :
    undoRecord bytesPerAttrEntry record r = .error (.malformedRecord record.lsn) r := by
  have refused : (!record.isClient || (lfsCheckClientRec record bytesPerAttrEntry).isSome) = true := by
    rw [UndoableRecord, not_and_or] at malformed
    rw [Bool.or_eq_true, Option.isSome_iff_ne_none]
    exact malformed.imp (fun other => by simpa using other) id
  rw [undoRecord, if_pos refused]
  rfl

theorem not_undoStops_iff : ¬ UndoStops log content bytesPerAttrEntry lsn ↔ lsn ≠ 0 ∧
    lfsLsnInFile log lsn = true ∧ ∃ record, lfsReadRecord log content lsn = .ok record ∧
      UndoableRecord bytesPerAttrEntry record ∧
        undoNext log content lsn = record.clientUndoNextLsn := by
  rw [UndoStops, not_or, not_or, not_not, Bool.not_eq_false, undoNext]
  cases lfsReadRecord log content lsn <;> simp

/-- The records in a log are finitely many, so that a chain without an end leads in a circle. -/
theorem circular_iff :
    Circular log content bytesPerAttrEntry lsn ↔ ¬ UndoChainEnds log content bytesPerAttrEntry lsn := by
  refine (not_ends_iff_returns (log.lastLsn + 1) fun i running => ?_).symm
  have inFile := (not_undoStops_iff.mp running).2.1
  simp only [lfsLsnInFile, Bool.and_eq_true, decide_eq_true_eq] at inFile
  omega

theorem undoChain_succ {rounds : Nat} (running : ¬ UndoStops log content bytesPerAttrEntry lsn)
    (read : lfsReadRecord log content lsn = .ok record) (r : Replay) :
    undoChain log content bytesPerAttrEntry (rounds + 1) lsn r =
      match undoRecord bytesPerAttrEntry record r with
      | .error e r => some (.error e r)
      | .ok () r => undoChain log content bytesPerAttrEntry rounds (undoNext log content lsn) r := by
  have goesOn := running
  rw [not_undoStops_iff] at goesOn
  obtain ⟨nonzero, inFile, -⟩ := goesOn
  cases undone : undoRecord bytesPerAttrEntry record r <;>
    simp only [undoChain, undoNext, read, nonzero, inFile, Bool.not_true, Bool.or_false, decide_false,
      Bool.false_eq_true, if_false, undone]

theorem undoChain_stopped {rounds : Nat} (stopped : UndoStops log content bytesPerAttrEntry lsn)
    (r : Replay) : ∃ result, undoChain log content bytesPerAttrEntry (rounds + 1) lsn r = some result := by
  rw [undoChain]
  split
  · exact ⟨_, rfl⟩
  rename_i inside
  rw [Bool.or_eq_true, not_or, decide_eq_true_eq] at inside
  split
  · exact ⟨_, rfl⟩
  rename_i record read
  obtain zero | outside | none := stopped
  · exact absurd zero inside.1
  · exact absurd (by simp [outside]) inside.2
  · rw [undoRecord_malformed fun undoable => none ⟨record, read, undoable⟩]
    exact ⟨_, rfl⟩

theorem undoChain_mono {rounds more : Nat} {r : Replay} {result : EStateM.Result PassError Replay Unit}
    (ended : undoChain log content bytesPerAttrEntry rounds lsn r = some result)
    (enough : rounds ≤ more) : undoChain log content bytesPerAttrEntry more lsn r = some result := by
  induction rounds generalizing more lsn r with
  | zero => cases ended
  | succ rounds ih =>
    obtain ⟨more, rfl⟩ := Nat.exists_eq_succ_of_ne_zero (by omega : more ≠ 0)
    rw [undoChain] at ended ⊢
    split at ended
    · rwa [if_pos ‹_›]
    · rw [if_neg ‹_›]
      split at ended
      · exact ended
      · split at ended
        · exact ended
        · exact ih ended (by omega)

/-- A chain that comes to an end is followed to it, unless an operation fails before. -/
theorem undoChain_returns (ends : UndoChainEnds log content bytesPerAttrEntry lsn) (r : Replay) :
    ∃ rounds result, undoChain log content bytesPerAttrEntry rounds lsn r = some result := by
  obtain ⟨k, stopped⟩ := ends
  induction k generalizing lsn r with
  | zero => exact ⟨1, undoChain_stopped stopped r⟩
  | succ k ih =>
    by_cases here : UndoStops log content bytesPerAttrEntry lsn
    · exact ⟨1, undoChain_stopped here r⟩
    have goesOn := here
    rw [not_undoStops_iff] at goesOn
    obtain ⟨-, -, record, read, -⟩ := goesOn
    match applied : undoRecord bytesPerAttrEntry record r with
    | .error e r' =>
      refine ⟨1, .error e r', ?_⟩
      rw [undoChain_succ here read, applied]
    | .ok () r' =>
      obtain ⟨rounds, result, ended⟩ := ih r' stopped
      refine ⟨rounds + 1, result, ?_⟩
      rw [undoChain_succ here read, applied]
      exact ended

theorem undone_succ {records : Nat} (read : lfsReadRecord log content lsn = .ok record) (r : Replay) :
    undone log content bytesPerAttrEntry (records + 1) lsn r =
      match undoRecord bytesPerAttrEntry record r with
      | .error _ _ => none
      | .ok () r => undone log content bytesPerAttrEntry records (undoNext log content lsn) r := by
  simp only [undone, read]

/-- Undo ends at a record that it cannot undo, if not before. -/
theorem undoChain_of_undone_none {records : Nat} {r : Replay}
    (failed : undone log content bytesPerAttrEntry records lsn r = none) :
    ∃ result, undoChain log content bytesPerAttrEntry records lsn r = some result := by
  induction records generalizing lsn r with
  | zero => cases failed
  | succ records ih =>
    by_cases here : UndoStops log content bytesPerAttrEntry lsn
    · exact undoChain_stopped here r
    obtain ⟨-, -, record, read, -⟩ := not_undoStops_iff.mp here
    rw [undone_succ read] at failed
    rw [undoChain_succ here read]
    split at failed
    · exact ⟨_, rfl⟩
    · exact ih failed

/-- A chain that has no end is followed for ever where no operation on it fails. -/
theorem undoChain_endless {r : Replay} (endless : ¬ UndoChainEnds log content bytesPerAttrEntry lsn)
    (succeeds : ∀ records, undone log content bytesPerAttrEntry records lsn r ≠ none) (rounds : Nat) :
    undoChain log content bytesPerAttrEntry rounds lsn r = none := by
  induction rounds generalizing lsn r with
  | zero => rw [undoChain]
  | succ rounds ih =>
    have here : ¬ UndoStops log content bytesPerAttrEntry lsn := fun stopped => endless (.here stopped)
    obtain ⟨-, -, record, read, -⟩ := not_undoStops_iff.mp here
    have first := succeeds 1
    rw [undone_succ read] at first
    rw [undoChain_succ here read]
    split
    · rename_i applied
      rw [applied] at first
      exact absurd rfl first
    · rename_i applied
      refine ih (fun ends => endless ((ends_next_iff here).mp ends)) fun records failed => ?_
      refine succeeds (records + 1) ?_
      rw [undone_succ read, applied]
      exact failed

/-- A chain is undone without a failure exactly where it is left behind records that are. -/
theorem undoChain_ok_iff {r r' : Replay} :
    (∃ rounds, undoChain log content bytesPerAttrEntry rounds lsn r = some (.ok () r')) ↔
      ∃ records, ChainLeft log ((undoNext log content)^[records] lsn) ∧
        undone log content bytesPerAttrEntry records lsn r = some r' := by
  constructor
  · rintro ⟨rounds, ended⟩
    induction rounds generalizing lsn r with
    | zero => cases ended
    | succ rounds ih =>
      by_cases here : UndoStops log content bytesPerAttrEntry lsn
      · rw [undoChain] at ended
        split at ended
        · rename_i left
          rw [Bool.or_eq_true, decide_eq_true_eq, Bool.not_eq_true'] at left
          cases ended
          exact ⟨0, left, rfl⟩
        · rename_i inside
          rw [Bool.or_eq_true, decide_eq_true_eq, Bool.not_eq_true'] at inside
          split at ended
          · cases ended
          · rename_i record read
            have malformed : ¬ UndoableRecord bytesPerAttrEntry record := fun undoable =>
              (here.resolve_left fun zero => inside (.inl zero)).elim (fun outside => inside (.inr outside))
                fun none => none ⟨record, read, undoable⟩
            rw [undoRecord_malformed malformed] at ended
            cases ended
      · obtain ⟨-, -, record, read, -⟩ := not_undoStops_iff.mp here
        rw [undoChain_succ here read] at ended
        split at ended
        · cases ended
        · rename_i applied
          obtain ⟨records, left, done⟩ := ih ended
          refine ⟨records + 1, left, ?_⟩
          rw [undone_succ read, applied]
          exact done
  · rintro ⟨records, left, done⟩
    refine ⟨records + 1, ?_⟩
    induction records generalizing lsn r with
    | zero =>
      cases done
      have out : (decide (lsn = 0) || !lfsLsnInFile log lsn) = true := by
        rw [Bool.or_eq_true, decide_eq_true_eq, Bool.not_eq_true']
        exact left
      rw [undoChain, if_pos out]
    | succ records ih =>
      rw [undone] at done
      split at done
      · cases done
      rename_i record read
      split at done
      · cases done
      rename_i applied
      have inFile := (lfsReadRecord_ok read).2.1
      have nonzero : lsn ≠ 0 := by
        rintro rfl
        simp [lfsLsnInFile] at inFile
      have here : ¬ UndoStops log content bytesPerAttrEntry lsn := by
        rintro (zero | outside | none)
        · exact nonzero zero
        · exact absurd (inFile.symm.trans outside) (by decide)
        · have failed := undoRecord_malformed (fun undoable => none ⟨record, read, undoable⟩) r
          rw [applied] at failed
          cases failed
      rw [undoChain_succ here read, applied]
      exact ih left done

theorem undoChains_mono {rounds more : Nat} {lsns : List Nat} {r : Replay}
    {result : EStateM.Result PassError Replay Unit}
    (ended : undoChains log content bytesPerAttrEntry rounds lsns r = some result)
    (enough : rounds ≤ more) : undoChains log content bytesPerAttrEntry more lsns r = some result := by
  induction lsns generalizing r with
  | nil => exact ended
  | cons lsn lsns ih =>
    rw [undoChains] at ended ⊢
    split at ended
    · rename_i first
      rw [undoChain_mono first enough]
      exact ih ended
    · rename_i other
      rw [undoChain_mono ended enough]
      split
      · rename_i done
        exact absurd (ended.trans done) (other _)
      · rfl

/-- Undo comes back from the chains of the transactions exactly where circles are cut. -/
theorem undoChains_returns_iff {lsns : List Nat} {r : Replay} :
    (∃ rounds result, undoChains log content bytesPerAttrEntry rounds lsns r = some result) ↔
      CirclesCut log content bytesPerAttrEntry lsns r := by
  induction lsns generalizing r with
  | nil => exact iff_of_true ⟨0, .ok () r, rfl⟩ trivial
  | cons lsn lsns ih =>
    constructor
    · rintro ⟨rounds, result, ended⟩
      refine ⟨fun circular => ?_, fun records r' left done => ?_⟩
      · by_contra succeeds
        rw [undoChains, undoChain_endless (circular_iff.mp circular)
          (fun records failed => succeeds ⟨records, failed⟩)] at ended
        cases ended
      · obtain ⟨more, first⟩ := undoChain_ok_iff.mpr ⟨records, left, done⟩
        have ended := undoChains_mono ended (Nat.le_max_left rounds more)
        rw [undoChains, undoChain_mono first (Nat.le_max_right rounds more)] at ended
        exact ih.mp ⟨_, _, ended⟩
    · rintro ⟨cut, others⟩
      have returns : ∃ rounds result,
          undoChain log content bytesPerAttrEntry rounds lsn r = some result := by
        by_cases circular : Circular log content bytesPerAttrEntry lsn
        · obtain ⟨records, failed⟩ := cut circular
          exact ⟨records, undoChain_of_undone_none failed⟩
        · exact undoChain_returns (not_not.mp (mt circular_iff.mpr circular)) r
      obtain ⟨rounds, result, first⟩ := returns
      cases result with
      | error e r' => exact ⟨rounds, .error e r', by rw [undoChains, first]⟩
      | ok _ r' =>
        obtain ⟨records, left, done⟩ := undoChain_ok_iff.mp ⟨rounds, first⟩
        obtain ⟨more, result, ended⟩ := ih.mpr (others records r' left done)
        refine ⟨max rounds more, result, ?_⟩
        rw [undoChains, undoChain_mono first (Nat.le_max_left _ _)]
        exact undoChains_mono ended (Nat.le_max_right _ _)

/-- A chain whose records name records before them leads in no circle. -/
theorem not_circular_of_lowers
    (lowers : ∀ k, ¬ UndoStops log content bytesPerAttrEntry ((undoNext log content)^[k] lsn) →
      (undoNext log content)^[k + 1] lsn < (undoNext log content)^[k] lsn) :
    ¬ Circular log content bytesPerAttrEntry lsn :=
  mt circular_iff.mp (not_not.mpr (ends_of_measure id lowers))

/-- `undo_pass` returns exactly where no chain that it comes to leads in a circle without an
operation that fails on it; and none leads in a circle whose records name records before them. -/
theorem undo_pass_returns (log : Handle) (content : Mem) (bytesPerAttrEntry : Nat) (r : Replay) :
    ((∃ rounds result, undoPass log content bytesPerAttrEntry rounds r = some result) ↔
        CirclesCut log content bytesPerAttrEntry (undoStarts r.tables.trtbl) r) ∧
      ∀ lsn, (∀ k, ¬ UndoStops log content bytesPerAttrEntry ((undoNext log content)^[k] lsn) →
          (undoNext log content)^[k + 1] lsn < (undoNext log content)^[k] lsn) →
        ¬ Circular log content bytesPerAttrEntry lsn :=
  ⟨undoChains_returns_iff, fun _ lowers => not_circular_of_lowers lowers⟩

/-! ## A log that undo never leaves -/

/-- A log of 50 pages of 4 KiB with one client, whose restart area names a last record. -/
def restartedLog (current : Nat) : Mem :=
  storeFields zeros 0
    [⟨4, rpMagic, lfsMagicRstr⟩, ⟨2, rpUsaOfs, 0x1e⟩, ⟨2, rpUsaCount, 9⟩,
      ⟨4, rpSystemPageSize, 4096⟩, ⟨4, rpLogPageSize, 4096⟩, ⟨2, rpRestartAreaOffset, 0x30⟩,
      ⟨2, rpMajorVer, 1⟩, ⟨2, rpMinorVer, 1⟩, ⟨8, 0x30 + raCurrentLsn, current⟩,
      ⟨2, 0x30 + raLogClients, 1⟩, ⟨2, 0x30 + raClientFreeList, lfsNoClient⟩,
      ⟨2, 0x30 + raClientInUseList, 0⟩, ⟨4, 0x30 + raSeqNumberBits, 49⟩,
      ⟨2, 0x30 + raRestartAreaLength, 0xe0⟩, ⟨2, 0x30 + raClientArrayOffset, 0x40⟩,
      ⟨8, 0x30 + raFileSize, 204800⟩, ⟨2, 0x30 + raLogRecordHeaderLength, lrHeaderSize⟩,
      ⟨2, 0x30 + raLogPageDataOffset, 0x40⟩, ⟨2, 0x70 + crPrevClient, lfsNoClient⟩,
      ⟨2, 0x70 + crNextClient, lfsNoClient⟩, ⟨8, 0x70 + crOldestLsn, 8⟩,
      ⟨4, 0x70 + crClientNameLength, 8⟩, ⟨2, 0x70 + crClientName, 0x4e⟩,
      ⟨2, 0x70 + crClientName + 2, 0x54⟩, ⟨2, 0x70 + crClientName + 4, 0x46⟩,
      ⟨2, 0x70 + crClientName + 6, 0x53⟩]

/-- The header of a page of records, of which the last one is given. -/
def pageFields (start last : Nat) : List Field :=
  [⟨4, start + pgMagic, lfsMagicRcrd⟩, ⟨2, start + 4, 0x28⟩, ⟨2, start + 6, 9⟩, ⟨8, start + pgLastLsn, last⟩,
    ⟨8, start + pgLastEndLsn, last⟩, ⟨4, start + pgFlags, lfsPageLogRecordEnd⟩]

/-- The header of a record of the client, whose data are zeros. -/
def recordFields (start lsn undoNext len : Nat) : List Field :=
  [⟨8, start + lrThisLsn, lsn⟩, ⟨8, start + lrClientUndoNextLsn, undoNext⟩,
    ⟨4, start + lrClientDataLength, len⟩, ⟨4, start + lrRecordType, lfsRecordTypeClient⟩,
    ⟨4, start + lrTransactionId, rtHeaderSize⟩]

/-- The handle of such a log behind the scan of its tail. -/
def restartedHandle (content : Mem) (last : Nat) : Handle :=
  ((ntfsLogfileOpen zeroStray content 204800).getD { origSize := 0 }).withTail last []

/-- A log with a record 34835 that names itself as the next to undo, behind the checkpoint record
34824. -/
def circularLog : Mem :=
  storeFields (restartedLog 34835) 0
    (pageFields 16384 34835 ++ recordFields (16384 + 0x40) 34824 0 40 ++
      recordFields (16384 + 0x98) 34835 34835 40)

/-- What undo meets at the circular record: it can be undone, names itself and has no undo
operation. -/
theorem circularLog_record : ∃ record,
    lfsReadRecord (restartedHandle circularLog 34835) circularLog 34835 = .ok record ∧
      UndoableRecord 0x2c record ∧ record.clientUndoNextLsn = 34835 ∧ record.undoOp = lopNoop := by
  have met : (match lfsReadRecord (restartedHandle circularLog 34835) circularLog 34835 with
      | .ok record => record.isClient && (lfsCheckClientRec record 0x2c).isNone &&
          record.clientUndoNextLsn = 34835 && record.undoOp = lopNoop
      | .error _ => false) = true := by
    decide +kernel
  split at met
  · rename_i record read
    simp only [Bool.and_eq_true, decide_eq_true_eq, Option.isNone_iff_eq_none] at met
    exact ⟨record, read, ⟨met.1.1.1, met.1.1.2⟩, met.1.2, met.2⟩
  · cases met

/-- The chain of the circular record does not end, in whatever state of the volume undo comes
to it. -/
theorem circularLog_endless (rounds : Nat) (r : Replay) :
    undoChain (restartedHandle circularLog 34835) circularLog 0x2c rounds 34835 r = none := by
  obtain ⟨record, read, undoable, next, noop⟩ := circularLog_record
  have same : undoNext (restartedHandle circularLog 34835) circularLog 34835 = 34835 := by
    rw [undoNext, read]
    exact next
  have running : ¬ UndoStops (restartedHandle circularLog 34835) circularLog 0x2c 34835 :=
    not_undoStops_iff.mpr ⟨by decide, (lfsReadRecord_ok read).2.1, record, read, undoable, same.trans next.symm⟩
  have applied : undoRecord 0x2c record r = .ok () r := by
    rw [undoRecord, if_neg (by simp [undoable.1, undoable.2]), if_neg (by simp [noop])]
    rfl
  refine undoChain_endless ?_ (fun records => ?_) rounds
  · refine not_ends_of_trap (· = 34835) rfl ?_ ?_
    · rintro _ rfl
      exact same
    · rintro _ rfl
      exact running
  · induction records with
    | zero => simp [undone]
    | succ records ih =>
      rw [undone_succ read, applied]
      simpa [same] using ih

/-- Whether the analysis ends and the undo after it starts at these records. -/
def startsUndoAt (starts : List Nat) :
    Option (EStateM.Result (WalkError AnalysisError) AnalysisState Unit) → Bool
  | some (.ok () s) => undoStarts s.tables.trtbl = starts
  | _ => false

/-- The analysis of a log with a record that names itself leaves a transaction whose undo chain
has no end, so that `undo_pass` does not return for every log. -/
theorem circular_chain_endless :
    ∃ opened s, ntfsLogfileOpen zeroStray circularLog 204800 = some opened ∧
      analysisWalk (opened.withTail 34835 []) circularLog ⟨0x2c, 1, 4096⟩ ⟨none, none, none, zeros, 0⟩
          3 34824 = some (.ok () s) ∧
        ∀ r : Replay, r.tables = s.tables → ∀ rounds,
          undoPass (opened.withTail 34835 []) circularLog 0x2c rounds r = none := by
  have opens : (ntfsLogfileOpen zeroStray circularLog 204800).isSome := by decide +kernel
  obtain ⟨opened, isOpened⟩ := Option.isSome_iff_exists.mp opens
  have same : restartedHandle circularLog 34835 = opened.withTail 34835 [] := by
    rw [restartedHandle, isOpened]
    rfl
  have analysed : startsUndoAt [34835] (analysisWalk (restartedHandle circularLog 34835) circularLog
      ⟨0x2c, 1, 4096⟩ ⟨none, none, none, zeros, 0⟩ 3 34824) = true := by
    decide +kernel
  unfold startsUndoAt at analysed
  split at analysed
  · rename_i s walked
    refine ⟨opened, s, isOpened, same ▸ walked, fun r tables rounds => ?_⟩
    rw [← same, undoPass, tables, of_decide_eq_true analysed, undoChains, circularLog_endless]
  · cases analysed

end Undo

/-! ## Forward -/

section Forward

variable {log : Handle} {content : Mem}

/-- The walks over a log end. -/
structure WalksEnd (log : Handle) (content : Mem) (start : Nat) : Prop where
  walk : ∀ {σ : Type} (cb : LfsRecord → σ → Bool × σ) (ctx : σ),
    ∃ rounds result, ntfsLogfileWalk log content cb rounds start ctx = some result
  analysis : ∀ info tables, ∃ rounds result,
    analysisWalk log content info tables rounds start = some result
  redo : ∀ bytesPerAttrEntry r, ∃ rounds result,
    redoPass log content bytesPerAttrEntry rounds start r = some result

theorem walksEnd_of_ends {start : Nat}
    (ends : Ends (walkStep log content) (WalkStops log content) start) :
    WalksEnd log content start where
  walk _ ctx := forwardWalk_returns ends ctx
  analysis _ _ := forwardWalk_returns ends _
  redo bytesPerAttrEntry r := by
    by_cases none : ((r.tables.dptbl.map Table.total).getD 0 = 0 || start = 0) = true
    · exact ⟨0, .ok () r, by rw [redoPass, if_pos none]⟩
    · obtain ⟨rounds, result, walked⟩ := @forwardWalk_returns _ _ log content
        (fun record => redoRecord bytesPerAttrEntry record *> pure false) start ends r
      exact ⟨rounds, result, by rw [redoPass, if_neg none, walked]⟩

/-- In a log with the geometry that an open accepted, the number behind a record is greater, and
not behind the last one, exactly where it fits: its sequence number into its bits, and the
offset of the record into 32. The walks end where that is so for the records that they
come to; and anywhere where offsets take no more than 29 bits of a number, as they do unless a
sector tail lies in the size of the file. -/
theorem forward_walks_progress {stray : Stray} {ioSize : Nat} {opened : Handle}
    (isOpened : ntfsLogfileOpen stray content ioSize = some opened) (area : opened.ra.isSome)
    (supported : opened.state ≠ .unsupported) (geometry : log.geometry = opened.geometry)
    (firstPage : log.firstPage = opened.firstPage) :
    (∀ lsn record next, lfsReadRecord log content lsn = .ok record →
        lfsNextLsn log content record = some next → next ≠ 0 →
          ((lsn < next ∧ next ≤ log.lastLsn) ↔ NextLsnFits log content record)) ∧
      (∀ start, (∀ k record,
          lfsReadRecord log content ((walkStep log content)^[k] start) = .ok record →
            NextLsnFits log content record) → WalksEnd log content start) ∧
      (35 ≤ log.seqNumBits → ∀ start, WalksEnd log content start) ∧
      (log.raOfs ≠ 480 → 35 ≤ log.seqNumBits) := by
  obtain ⟨shape, bits⟩ := logShape_of_open isOpened area supported
  have shape : LogShape log := shape.of_geometry geometry firstPage
  have raOfs : log.raOfs = opened.raOfs := congrArg Geometry.raOfs geometry
  have seqNumBits : log.seqNumBits = opened.seqNumBits := congrArg Geometry.seqNumBits geometry
  refine ⟨fun _ _ _ read follows nonzero => shape.rises_iff read follows nonzero,
    fun _ fits => walksEnd_of_ends (shape.walk_ends_of_fits fits),
    fun bits start => walksEnd_of_ends (shape.walk_ends bits content start), fun place => ?_⟩
  rw [seqNumBits]
  exact bits (raOfs ▸ place)

/-- The walks over the circular log end, which undo never leaves. -/
theorem circularLog_walks_end :
    WalksEnd (restartedHandle circularLog 34835) circularLog 34824 := by
  have opens : ((ntfsLogfileOpen zeroStray circularLog 204800).map fun log =>
      (log.ra.isSome, decide (log.state ≠ .unsupported), decide (35 ≤ log.seqNumBits))) =
        some (true, true, true) := by
    decide +kernel
  obtain ⟨opened, isOpened, fields⟩ := Option.map_eq_some_iff.mp opens
  have area : opened.ra.isSome = true := congrArg Prod.fst fields
  have supported : decide (opened.state ≠ .unsupported) = true := congrArg (·.2.1) fields
  have bits : decide (35 ≤ opened.seqNumBits) = true := congrArg (·.2.2) fields
  have same : restartedHandle circularLog 34835 = opened.withTail 34835 [] := by
    rw [restartedHandle, isOpened]
    rfl
  rw [same]
  exact (@forward_walks_progress (opened.withTail 34835 []) circularLog zeroStray 204800 opened isOpened
    area (of_decide_eq_true supported) rfl rfl).2.2.1 (of_decide_eq_true bits) 34824

/-- A log whose last record, on its last page, has the greatest sequence number. -/
def lastSequenceLog : Mem :=
  storeFields (restartedLog (2 ^ 64 - 2 ^ 15 + 25096)) 0
    (pageFields 200704 (2 ^ 64 - 2 ^ 15 + 25096) ++
      recordFields (200704 + 0x40) (2 ^ 64 - 2 ^ 15 + 25096) 0 0)

/-- Behind the greatest sequence number the numbers start again: the number behind a record that
can be read is smaller, and no progress in the log. -/
theorem last_sequence_number_falls :
    ∃ opened record, ntfsLogfileOpen zeroStray lastSequenceLog 204800 = some opened ∧
      opened.ra.isSome ∧ opened.state ≠ .unsupported ∧
      lfsReadRecord (opened.withTail (2 ^ 64 - 2 ^ 15 + 25096) []) lastSequenceLog
        (2 ^ 64 - 2 ^ 15 + 25096) = .ok record ∧
      lfsNextLsn (opened.withTail (2 ^ 64 - 2 ^ 15 + 25096) []) lastSequenceLog record = some 2056 ∧
      ¬ 2 ^ 64 - 2 ^ 15 + 25096 < 2056 := by
  have opens : ((ntfsLogfileOpen zeroStray lastSequenceLog 204800).map fun log =>
      (log.ra.isSome, decide (log.state ≠ .unsupported))) = some (true, true) := by
    decide +kernel
  obtain ⟨opened, isOpened, fields⟩ := Option.map_eq_some_iff.mp opens
  have area : opened.ra.isSome = true := congrArg Prod.fst fields
  have supported : decide (opened.state ≠ .unsupported) = true := congrArg Prod.snd fields
  have same : restartedHandle lastSequenceLog (2 ^ 64 - 2 ^ 15 + 25096) =
      opened.withTail (2 ^ 64 - 2 ^ 15 + 25096) [] := by
    rw [restartedHandle, isOpened]
    rfl
  have met : (match lfsReadRecord (restartedHandle lastSequenceLog (2 ^ 64 - 2 ^ 15 + 25096))
        lastSequenceLog (2 ^ 64 - 2 ^ 15 + 25096) with
      | .ok record => decide (lfsNextLsn (restartedHandle lastSequenceLog (2 ^ 64 - 2 ^ 15 + 25096))
          lastSequenceLog record = some 2056)
      | .error _ => false) = true := by
    decide +kernel
  split at met
  · rename_i record read
    exact ⟨opened, record, isOpened, area, of_decide_eq_true supported, same ▸ read,
      same ▸ of_decide_eq_true met, by decide⟩
  · cases met

end Forward

end Ttntfs.Logfile
