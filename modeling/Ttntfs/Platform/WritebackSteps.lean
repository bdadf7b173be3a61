import Ttntfs.Platform.InodeWriteback

/-!
# What a step of write-back can do

The steps of the write-back model, one constructor for each way in which an event
happens, with the frame it starts from, its guards and the state it leaves. Every later
fact about a step is a case analysis over these.
-/

namespace Ttntfs.Platform.Writeback

open State

/-- One step, by what happens in it. -/
inductive Step (s : State) : Event → State → Prop where
  | unlockNewInode (i : Nat) :
      Step s (.unlockNewInode i) (s.modify i fun inode => { inode with isNew := false })
  | claim (i : Nat) : Step s (.claim i) (s.modify i fun inode => { inode with dying := true })
  | evict {i : Nat} (dying : (s.inode i).dying = true) :
      Step s (.evict i) ((s.modify i fun inode => { inode with attached := false }).unlist i)
  | markEdge {t i : Nat} (idle : s.frame t = .idle) (clean : (s.inode i).dirty = false) :
      Step s (.markInodeDirty t i)
        ((s.modify i (·.markDirty)).goto t (.note i (.state ((s.inode i).dirtied + 1))))
  | markAgain {t i : Nat} (idle : s.frame t = .idle) (dirty : (s.inode i).dirty = true) :
      Step s (.markInodeDirty t i) (s.modify i
        (·.markDirty.changeReturned (.state ((s.inode i).dirtied + 1))))
  | folioEdge {t i f : Nat} (idle : s.frame t = .idle) (clean : (s.inode i).folios = []) :
      Step s (.folioMarkDirty t i f)
        ((s.modify i (·.folioMarkDirty f)).goto t (.note i (.folio f ((s.inode i).folioDirtied f + 1))))
  | folioAgain {t i f : Nat} (idle : s.frame t = .idle) (dirty : (s.inode i).folios ≠ []) :
      Step s (.folioMarkDirty t i f) (s.modify i
        fun inode => (inode.folioMarkDirty f).changeReturned
          (.folio f ((s.inode i).folioDirtied f + 1)))
  | note {t i : Nat} {change : Change} (noting : s.frame t = .note i change) :
      Step s (.inodeNoteDirty t) (((s.noteDirty i).modify i (·.changeReturned change)).goto t .idle)
  | writeInodeNow {t i : Nat} {sync : Bool} (idle : s.frame t = .idle) :
      Step s (.writeInodeNow t i sync) (s.goto t (.write ⟨i, sync, .collect 0⟩ none))
  | collect {t kept attempt i : Nat} {sync : Bool} {run : Option SyncRun}
      (here : s.frame t = .write ⟨i, sync, .collect attempt⟩ run) :
      Step s (.collectDirty t kept) (s.goto t (.write ⟨i, sync, .flush attempt
        (((s.inode i).folios.take kept).insertionSort (· ≤ ·)) false false⟩ run))
  | startFolio {t i attempt f : Nat} {todo : List Nat} {redirtied err sync : Bool}
      {run : Option SyncRun}
      (here : s.frame t = .write ⟨i, sync, .flush attempt (f :: todo) redirtied err⟩ run)
      (unlocked : f ∉ (s.inode i).writeback) (dirty : f ∈ (s.inode i).folios) :
      Step s (.startFolio t) ((s.modify i (·.startFolio f)).goto t (.write ⟨i, sync,
        .folio attempt f ((s.inode i).folioDirtied f) todo redirtied err⟩ run))
  | skipFolio {t i attempt f : Nat} {todo : List Nat} {redirtied err sync : Bool}
      {run : Option SyncRun}
      (here : s.frame t = .write ⟨i, sync, .flush attempt (f :: todo) redirtied err⟩ run)
      (unlocked : f ∉ (s.inode i).writeback) (clean : f ∉ (s.inode i).folios) :
      Step s (.startFolio t) (s.goto t (.write ⟨i, sync, .flush attempt todo redirtied err⟩ run))
  | endFolio {t i attempt f captured : Nat} {todo : List Nat} {redirtied redirtied' err err' sync : Bool}
      {run : Option SyncRun} {outcome : Outcome}
      (here : s.frame t = .write ⟨i, sync, .folio attempt f captured todo redirtied err⟩ run) :
      Step s (.endFolio t outcome) ((s.modify i (·.endFolio f captured outcome)).goto t
        (.write ⟨i, sync, .flush attempt todo redirtied' err'⟩ run))
  | endRange {t i attempt : Nat} {redirtied err sync : Bool} {run : Option SyncRun}
      (here : s.frame t = .write ⟨i, sync, .flush attempt [] redirtied err⟩ run) :
      Step s (.endRange t)
        (s.goto t (.write ⟨i, sync, if sync then .wait err else .clear err⟩ run))
  | nextRange {t i attempt : Nat} {redirtied err sync : Bool} {run : Option SyncRun}
      (here : s.frame t = .write ⟨i, sync, .flush attempt [] redirtied err⟩ run) :
      Step s (.endRange t) (s.goto t (.write ⟨i, sync, .collect (attempt + 1)⟩ run))
  | waitRange {t i : Nat} {err sync : Bool} {run : Option SyncRun}
      (here : s.frame t = .write ⟨i, sync, .wait err⟩ run) (ended : (s.inode i).writeback = []) :
      Step s (.waitRange t) ((s.modify i fun inode => { inode with wbErr := false }).goto t
        (.write ⟨i, sync, .clear (err || (s.inode i).wbErr)⟩ run))
  | clearDirty {t i : Nat} {err sync : Bool} {run : Option SyncRun}
      (here : s.frame t = .write ⟨i, sync, .clear err⟩ run) (dirty : (s.inode i).dirty = true) :
      Step s (.clearDirty t) ((s.modify i fun inode => { inode with dirty := false }).goto t
        (.write ⟨i, sync, .call err (s.inode i).dirtied⟩ run))
  | nothingDirty {t i : Nat} {err sync : Bool} {run : Option SyncRun}
      (here : s.frame t = .write ⟨i, sync, .clear err⟩ run) (clean : (s.inode i).dirty = false) :
      Step s (.clearDirty t) (s.writeReturns t i run err)
  | writeInode {t i captured : Nat} {err sync : Bool} {run : Option SyncRun}
      (here : s.frame t = .write ⟨i, sync, .call err captured⟩ run) :
      Step s (.writeInode t true)
        ((s.modify i (·.stateWritten captured)).writeReturns t i run err)
  | writeFails {t i captured : Nat} {err sync : Bool} {run : Option SyncRun}
      (here : s.frame t = .write ⟨i, sync, .call err captured⟩ run) :
      Step s (.writeInode t false) (s.goto t (.write ⟨i, sync, .restore captured⟩ run))
  | restore {t i captured : Nat} {sync : Bool} {run : Option SyncRun}
      (here : s.frame t = .write ⟨i, sync, .restore captured⟩ run) :
      Step s (.restoreDirty t)
        ((s.modify i fun inode => { inode with dirty := true }).writeReturns t i run true)
  | syncInodesSb {t kept : Nat} (idle : s.frame t = .idle) :
      Step s (.syncInodesSb t kept) (s.goto t (.sync ⟨s.snapshot kept, false,
        fun i => (s.inode i).returned, fun i => (s.inode i).folioReturned⟩))
  | nextInode {t i : Nat} {rest : List Nat} {err : Bool} {due : Nat → Nat} {dueFolio : Nat → Nat → Nat}
      (here : s.frame t = .sync ⟨i :: rest, err, due, dueFolio⟩) :
      Step s (.nextInode t)
        (s.goto t (.write ⟨i, true, .collect 0⟩ (some ⟨rest, err, due, dueFolio⟩)))
  | syncReturn {t : Nat} {err : Bool} {due : Nat → Nat} {dueFolio : Nat → Nat → Nat}
      (here : s.frame t = .sync ⟨[], err, due, dueFolio⟩) : Step s (.syncReturn t) (s.goto t .idle)
  | pruneKeeps {t i : Nat} {run : SyncRun} (here : s.frame t = .prune i run)
      (dirty : (s.inode i).needsWrite = true) : Step s (.prune t) (s.goto t (.sync run))
  | pruneDrops {t i : Nat} {run : SyncRun} (here : s.frame t = .prune i run)
      (clean : (s.inode i).needsWrite = false) :
      Step s (.prune t) ((s.unlist i).goto t (.sync run))

theorem modify_modify (s : State) (i : Nat) (first second : Inode → Inode) :
    (s.modify i first).modify i second = s.modify i fun inode => second (first inode) := by
  simp [State.modify]

/-- The steps of a thread that is in `write_inode_now`. -/
theorem runWrite_step {s s' : State} {t : Nat} {call : Write} {run : Option SyncRun} {event : Event}
    (here : s.frame t = .write call run) (mine : thread event = some t)
    (happens : s.runWrite t call run event = some s') : Step s event s' := by
  obtain ⟨i, sync, phase⟩ := call
  cases event with
  | collectDirty _ kept =>
    cases mine
    cases phase with
    | collect attempt =>
      cases happens
      exact .collect here
    | _ => cases happens
  | startFolio =>
    cases mine
    cases phase with
    | flush attempt todo redirtied err =>
      cases todo with
      | nil => cases happens
      | cons f todo =>
        simp only [runWrite] at happens
        split at happens
        · cases happens
        next unlocked =>
        split at happens
        · next dirty =>
          cases happens
          exact .startFolio here unlocked dirty
        · next clean =>
          cases happens
          exact .skipFolio here unlocked clean
    | _ => cases happens
  | endFolio _ outcome =>
    cases mine
    cases phase with
    | folio attempt f captured todo redirtied err =>
      simp only [runWrite] at happens
      split at happens
      · cases happens
      · cases happens
        exact .endFolio here
    | _ => cases happens
  | endRange =>
    cases mine
    cases phase with
    | flush attempt todo redirtied err =>
      cases todo with
      | nil =>
        simp only [runWrite] at happens
        split at happens
        · cases happens
          exact .endRange here
        · cases happens
          exact .nextRange here
      | cons f todo => cases happens
    | _ => cases happens
  | waitRange =>
    cases mine
    cases phase with
    | wait err =>
      simp only [runWrite] at happens
      split at happens
      · next ended =>
        cases happens
        exact .waitRange here ended
      · cases happens
    | _ => cases happens
  | clearDirty =>
    cases mine
    cases phase with
    | clear err =>
      simp only [runWrite] at happens
      split at happens
      · next dirty =>
        cases happens
        exact .clearDirty here dirty
      · next clean =>
        cases happens
        exact .nothingDirty here (Bool.eq_false_iff.mpr clean)
    | _ => cases happens
  | writeInode _ ok =>
    cases mine
    cases phase with
    | call err captured =>
      cases ok with
      | true =>
        cases happens
        exact .writeInode here
      | false =>
        cases happens
        exact .writeFails here
    | _ => cases happens
  | restoreDirty =>
    cases mine
    cases phase with
    | restore captured =>
      cases happens
      exact .restore here
    | _ => cases happens
  | _ => cases happens

/-- The steps of a thread. -/
theorem runThread_step {s s' : State} {t : Nat} {event : Event} (mine : thread event = some t)
    (happens : s.runThread t event = some s') : Step s event s' := by
  cases here : s.frame t with
  | write call run =>
    simp only [runThread, here] at happens
    exact runWrite_step here mine happens
  | idle =>
    cases event with
    | markInodeDirty _ i =>
      cases mine
      simp only [runThread, here, dirtied, modify_modify, Option.some.injEq] at happens
      subst happens
      cases dirty : (s.inode i).dirty with
      | false => exact .markEdge here dirty
      | true => exact .markAgain here dirty
    | folioMarkDirty _ i f =>
      cases mine
      simp only [runThread, here, dirtied, modify_modify, Option.some.injEq] at happens
      subst happens
      cases dirty : (s.inode i).folios with
      | nil => exact .folioEdge here dirty
      | cons first others => exact .folioAgain here (by simp [dirty])
    | writeInodeNow _ i sync =>
      cases mine
      simp only [runThread, here, Option.some.injEq] at happens
      exact happens ▸ .writeInodeNow here
    | syncInodesSb _ kept =>
      cases mine
      simp only [runThread, here, Option.some.injEq] at happens
      exact happens ▸ .syncInodesSb here
    | _ => simp [runThread, here] at happens
  | note i change =>
    cases event with
    | inodeNoteDirty =>
      cases mine
      simp only [runThread, here, Option.some.injEq] at happens
      exact happens ▸ .note here
    | _ => simp [runThread, here] at happens
  | prune i run =>
    cases event with
    | prune =>
      cases mine
      simp only [runThread, here, Option.some.injEq] at happens
      subst happens
      cases needs : (s.inode i).needsWrite with
      | true => exact .pruneKeeps here needs
      | false => exact .pruneDrops here needs
    | _ => simp [runThread, here] at happens
  | sync run =>
    obtain ⟨todo, err, due, dueFolio⟩ := run
    cases event with
    | nextInode =>
      cases mine
      cases todo with
      | nil => simp [runThread, here] at happens
      | cons i rest =>
        simp only [runThread, here, Option.some.injEq] at happens
        exact happens ▸ .nextInode here
    | syncReturn =>
      cases mine
      cases todo with
      | nil =>
        simp only [runThread, here, if_true, Option.some.injEq] at happens
        exact happens ▸ .syncReturn here
      | cons i rest => simp [runThread, here] at happens
    | _ => simp [runThread, here] at happens

/-- A step of the machine is one of the listed kinds. -/
theorem next_step {s s' : State} {event : Event} (happens : s.next event = some s') :
    Step s event s' := by
  cases mine : thread event with
  | some t =>
    simp only [next, mine] at happens
    exact runThread_step mine happens
  | none =>
    cases event with
    | unlockNewInode i =>
      simp only [next, mine, Option.some.injEq] at happens
      exact happens ▸ .unlockNewInode i
    | claim i =>
      simp only [next, mine, Option.some.injEq] at happens
      exact happens ▸ .claim i
    | evict i =>
      simp only [next, mine] at happens
      split at happens
      · next dying =>
        cases happens
        exact .evict dying
      · cases happens
    | _ => cases mine

end Ttntfs.Platform.Writeback
