import Ttntfs.Platform.WritebackListing

/-!
# What `sync_inodes_sb` guarantees

A sync follows the inodes of its snapshot one by one; what is known of each of them at
each point of `write_inode_now` carries over to the whole array. In every run whose steps
keep to `StepOk`, inodes that need writing are listed, and a sync that returns no error
has written every change whose call had returned before it started.
-/

namespace Ttntfs.Platform.Writeback

open State

/-! ## How far a sync is -/

section Frames

variable {s s' : State} {event : Event} {t i : Nat} {frame : Frame} {run : SyncRun}

theorem FolioCovered.advance {f number : Nat} {todo : List Nat} (advances : Advances s s')
    (covered : FolioCovered s i f number todo) : FolioCovered s' i f number todo := by
  rcases covered with written | coming | ⟨t, c, flight, covers⟩
  · exact .inl (written.trans (advances.folioWritten i f))
  · exact .inr (.inl coming)
  · rcases advances.flight t i f c flight with still | written
    · exact .inr (.inr ⟨t, c, still, covers⟩)
    · exact .inl (covers.trans written)

theorem Done.advance (advances : Advances s s') (done : Done s run i) : Done s' run i :=
  ⟨done.1.trans (advances.written i), fun f => (done.2 f).trans (advances.folioWritten i f)⟩

theorem RunOk.advance {current : List Nat} (advances : Advances s s') (ok : RunOk s run current) :
    RunOk s' run current where
  due_le i := (ok.due_le i).trans (advances.dirtied i)
  dueFolio_le i f := (ok.dueFolio_le i f).trans (advances.folioDirtied i f)
  done fine i finished other := (ok.done fine i finished other).advance advances

theorem PhaseOk.advance {phase : Phase} (advances : Advances s s') (ok : PhaseOk s i run phase) :
    PhaseOk s' i run phase := by
  cases phase with
  | collect attempt => trivial
  | restore captured => trivial
  | flush attempt todo redirtied err | folio attempt f captured todo redirtied err | wait err =>
    exact fun f => (ok f).advance advances
  | clear err => exact fun f => (ok f).trans (advances.folioWritten i f)
  | call err captured => exact ⟨fun f => (ok.1 f).trans (advances.folioWritten i f), ok.2⟩

theorem FrameOk.advance (advances : Advances s s') (ok : FrameOk s frame) : FrameOk s' frame := by
  cases frame with
  | idle => trivial
  | note i change =>
    cases change with
    | state number => exact Nat.le_trans ok (advances.dirtied i)
    | folio f number => exact Nat.le_trans ok (advances.folioDirtied i f)
  | write call run =>
    cases run with
    | none => trivial
    | some run => exact ⟨ok.1, ok.2.1.advance advances, PhaseOk.advance advances ok.2.2⟩
  | prune i run => exact RunOk.advance advances ok
  | sync run => exact RunOk.advance advances ok

theorem frames_goto (frames : ∀ t, FrameOk s (s.frame t)) (advances : Advances s (s'.goto t frame))
    (others : s'.frame = s.frame) (mine : FrameOk (s'.goto t frame) frame) :
    ∀ t', FrameOk (s'.goto t frame) ((s'.goto t frame).frame t') := by
  intro t'
  rw [goto_frame]
  split
  · exact mine
  · rw [others]
    exact (frames t').advance advances

theorem returnFrame_ok {owner : Option SyncRun} {err : Bool}
    (ok : ∀ run, owner = some run → RunOk s run [i])
    (done : ∀ run, owner = some run → err = false → Done s run i) :
    FrameOk s (returnFrame i owner err) := by
  cases owner with
  | none => trivial
  | some run =>
    have known := ok run rfl
    cases err with
    | true => exact ⟨known.due_le, known.dueFolio_le, fun fine => by cases fine⟩
    | false =>
      refine ⟨known.due_le, known.dueFolio_le, fun fine j finished _ => ?_⟩
      by_cases same : j = i
      · exact same ▸ done run rfl rfl
      · exact known.done fine j finished (by simpa using same)

theorem Ok.call (ok : Ok s) {call : Write} (here : s.frame t = .write call (some run)) :
    call.sync = true ∧ RunOk s run [call.inode] ∧ PhaseOk s call.inode run call.phase := by
  have frame := ok.frames t
  rwa [here] at frame

/-- The snapshot has every inode with a change that is due. -/
theorem snapshot_ok (ok : Ok s) {kept : Nat} (meets : StepOk s (.syncInodesSb t kept)) :
    RunOk s ⟨s.snapshot kept, false, fun i => (s.inode i).returned,
      fun i => (s.inode i).folioReturned⟩ [] := by
  refine ⟨ok.kept.returned_le, ok.kept.folioReturned_le, fun _ i leftOut _ => ?_⟩
  have quiet : i ∈ s.dirtyInodes ∨ (s.inode i).dying = true →
      (s.inode i).dirtied ≤ (s.inode i).written ∧
        ∀ f, (s.inode i).folioDirtied f ≤ (s.inode i).folioWritten f := by
    intro seen
    have unmarked := meets i seen leftOut
    exact written_of_quiet ok.stateCovered ok.folios unmarked.1 unmarked.2
  constructor
  · by_contra behind
    have seen : i ∈ s.dirtyInodes ∨ (s.inode i).dying = true := by
      cases dying : (s.inode i).dying with
      | true => exact .inr rfl
      | false => exact .inl (ok.kept.state i dying (Nat.lt_of_not_le behind))
    exact behind ((ok.kept.returned_le i).trans (quiet seen).1)
  · intro f
    by_contra behind
    have seen : i ∈ s.dirtyInodes ∨ (s.inode i).dying = true := by
      cases dying : (s.inode i).dying with
      | true => exact .inr rfl
      | false => exact .inl (ok.kept.folio i f dying (Nat.lt_of_not_le behind))
    exact behind ((ok.kept.folioReturned_le i f).trans ((quiet seen).2 f))

/-- Every step keeps the frames right. -/
theorem Ok.frames_step (ok : Ok s) (step : Step s event s') (meets : StepOk s event) :
    ∀ t, FrameOk s' (s'.frame t) := by
  have advances := step.advances meets
  have frames := ok.frames
  cases step with
  | unlockNewInode i | claim i | evict dying | markAgain idle dirty | folioAgain idle dirty =>
    exact fun t => (frames t).advance advances
  | markEdge idle clean =>
    apply frames_goto frames advances rfl
    simp [FrameOk, Inode.markDirty]
  | folioEdge idle clean =>
    apply frames_goto frames advances rfl
    simp [FrameOk, Inode.folioMarkDirty]
  | note noting => exact frames_goto frames advances (by simp) trivial
  | writeInodeNow idle | syncReturn here => exact frames_goto frames advances rfl trivial
  | @collect t kept attempt i sync run here =>
    apply frames_goto frames advances rfl
    cases run with
    | none => trivial
    | some run =>
      have known := ok.call here
      refine ⟨known.1, known.2.1.advance advances, fun f => ?_⟩
      have whole : (s.inode i).folios.length ≤ kept := meets _ run here
      have covered : FolioCovered s i f (run.dueFolio i f) (s.inode i).folios := by
        rcases ok.folios.covered i f with written | dirty | ⟨t', c, flight, covers⟩
        · exact .inl ((known.2.1.dueFolio_le i f).trans written)
        · exact .inr (.inl dirty)
        · exact .inr (.inr ⟨t', c, flight, (known.2.1.dueFolio_le i f).trans covers⟩)
      rcases covered.advance advances with written | dirty | flight
      · exact .inl written
      · right
        left
        rwa [List.take_of_length_le whole, List.mem_insertionSort]
      · exact .inr (.inr flight)
  | @startFolio t i attempt f todo redirtied err sync run here unlocked dirty =>
    apply frames_goto frames advances rfl
    cases run with
    | none => trivial
    | some run =>
      have known := ok.call here
      refine ⟨known.1, known.2.1.advance advances, fun f' => ?_⟩
      rcases (known.2.2 f').advance advances with written | coming | flight
      · exact .inl written
      · rcases List.mem_cons.mp coming with same | later
        · -- the folio that is in flight now
          refine .inr (.inr ⟨t, (s.inode i).folioDirtied f, ?_, ?_⟩)
          · rw [goto_frame, if_pos rfl, same]
            rfl
          · rw [same]
            exact known.2.1.dueFolio_le i f
        · exact .inr (.inl later)
      · exact .inr (.inr flight)
  | @skipFolio t i attempt f todo redirtied err sync run here unlocked clean =>
    apply frames_goto frames advances rfl
    cases run with
    | none => trivial
    | some run =>
      have known := ok.call here
      refine ⟨known.1, known.2.1.advance advances, fun f' => ?_⟩
      rcases (known.2.2 f').advance advances with written | coming | flight
      · exact .inl written
      · rcases List.mem_cons.mp coming with same | later
        · left
          rw [same]
          rcases ok.folios.covered i f with written | dirty | ⟨t', c, flight, _⟩
          · exact (known.2.1.dueFolio_le i f).trans written
          · exact absurd dirty clean
          · exact absurd (ok.folios.writeback t' i f c flight) unlocked
        · exact .inr (.inl later)
      · exact .inr (.inr flight)
  | @endFolio t i attempt f captured todo redirtied redirtied' err err' sync run outcome here =>
    apply frames_goto frames advances rfl
    cases run with
    | none => trivial
    | some run =>
      have known := ok.call here
      exact ⟨known.1, known.2.1.advance advances, fun f' => (known.2.2 f').advance advances⟩
  | @endRange t i attempt redirtied err sync run here =>
    apply frames_goto frames advances rfl
    cases run with
    | none => trivial
    | some run =>
      have known := ok.call here
      have sync : sync = true := known.1
      subst sync
      exact ⟨rfl, known.2.1.advance advances, fun f => (known.2.2 f).advance advances⟩
  | @nextRange t i attempt redirtied err sync run here
  | @writeFails t i captured err sync run here =>
    apply frames_goto frames advances rfl
    cases run with
    | none => trivial
    | some run => exact ⟨(ok.call here).1, (ok.call here).2.1.advance advances, trivial⟩
  | @waitRange t i err sync run here ended =>
    apply frames_goto frames advances rfl
    cases run with
    | none => trivial
    | some run =>
      have known := ok.call here
      refine ⟨known.1, known.2.1.advance advances, fun f => ?_⟩
      have written : run.dueFolio i f ≤ (s.inode i).folioWritten f := by
        rcases known.2.2 f with written | coming | ⟨t', c, flight, _⟩
        · exact written
        · cases coming
        · have locked := ok.folios.writeback t' i f c flight
          rw [ended] at locked
          cases locked
      exact written.trans (advances.folioWritten i f)
  | @clearDirty t i err sync run here dirty =>
    apply frames_goto frames advances rfl
    cases run with
    | none => trivial
    | some run =>
      have known := ok.call here
      exact ⟨known.1, known.2.1.advance advances,
        fun f => (known.2.2 f).trans (advances.folioWritten i f), known.2.1.due_le i⟩
  | @nothingDirty t i err sync run here clean =>
    rw [writeReturns_eq] at advances ⊢
    apply frames_goto frames advances rfl
    apply returnFrame_ok
    · rintro run rfl
      exact (ok.call here).2.1.advance advances
    rintro run rfl _
    have known := ok.call here
    have still := meets _ run here clean
    refine ⟨?_, fun f => known.2.2 f⟩
    rcases ok.stateCovered i with written | dirty | ⟨t', flight⟩
    · exact (known.2.1.due_le i).trans written
    · rw [clean] at dirty
      cases dirty
    · exact absurd flight ((still t').1 _)
  | @writeInode t i captured err sync run here =>
    rw [writeReturns_eq] at advances ⊢
    apply frames_goto frames advances rfl
    apply returnFrame_ok
    · rintro run rfl
      exact (ok.call here).2.1.advance advances
    · rintro run rfl _
      have known := ok.call here
      refine ⟨?_, fun f => (known.2.2.1 f).trans (advances.folioWritten i f)⟩
      simp only [goto_inode, modify_inode, if_true]
      exact known.2.2.2.trans (Nat.le_max_right _ _)
  | @restore t i captured sync run here =>
    rw [writeReturns_eq] at advances ⊢
    apply frames_goto frames advances rfl
    apply returnFrame_ok
    · rintro run rfl
      exact (ok.call here).2.1.advance advances
    · intro run _ failed
      cases failed
  | syncInodesSb idle =>
    exact frames_goto frames advances rfl ((snapshot_ok ok meets).advance advances)
  | @nextInode t i rest err due dueFolio here =>
    apply frames_goto frames advances rfl
    have known : RunOk s ⟨i :: rest, err, due, dueFolio⟩ [] := by
      have frame := frames t
      rwa [here] at frame
    refine ⟨rfl, RunOk.advance advances ⟨known.due_le, known.dueFolio_le, ?_⟩, trivial⟩
    intro fine j finished other
    apply known.done fine j _ (List.not_mem_nil)
    simp only [List.mem_cons, not_or]
    exact ⟨by simpa using other, finished⟩
  | @pruneKeeps t i run here dirty | @pruneDrops t i run here clean =>
    apply frames_goto frames advances rfl
    have known : RunOk s run [] := by
      have frame := frames t
      rwa [here] at frame
    exact known.advance advances

theorem Ok.step (ok : Ok s) (step : Step s event s') (meets : StepOk s event) : Ok s' where
  stateCovered := ok.stateCovered.step step
  folios := ok.folios.step step meets
  listed := ok.listed.step ok.kept.attached step meets
  kept := Kept.step ok step meets
  frames := ok.frames_step step meets

end Frames

/-! ## Whole runs -/

/-- The state after the file system is mounted: every inode is clean. -/
structure Fresh (s : State) : Prop where
  attached : ∀ i, (s.inode i).attached = true
  clean : ∀ i, (s.inode i).dirty = false ∧ (s.inode i).folios = [] ∧ (s.inode i).writeback = []
  changes : ∀ i, (s.inode i).dirtied = 0 ∧ (s.inode i).returned = 0
  folioChanges : ∀ i f, (s.inode i).folioDirtied f = 0 ∧ (s.inode i).folioReturned f = 0
  idle : ∀ t, s.frame t = .idle

/-- The states that a run reaches whose steps all keep to `StepOk`. -/
inductive Reachable : State → Prop where
  | start {s : State} (fresh : Fresh s) : Reachable s
  | step {s s' : State} {event : Event} (before : Reachable s) (happens : s.next event = some s')
      (meets : StepOk s event) : Reachable s'

/-- What is promised in every state: an inode that needs writing and is not being freed is
listed once no thread is about to list it, and once a change of it has returned that is not
on the device; and where a sync is about to return no error, every change that had returned
when it started is on the device. -/
structure SyncSound (s : State) : Prop where
  dirty_listed : ∀ i, (s.inode i).dying = false → (s.inode i).needsWrite = true →
    (∀ t, (s.frame t).noting ≠ some i) → i ∈ s.dirtyInodes
  returned_listed : ∀ i, (s.inode i).dying = false →
    ((s.inode i).written < (s.inode i).returned ∨
      ∃ f, (s.inode i).folioWritten f < (s.inode i).folioReturned f) → i ∈ s.dirtyInodes
  sync_wrote : ∀ t run, s.frame t = .sync run → run.todo = [] → run.err = false →
    ∀ i, Done s run i

/-- The invariant holds in the beginning. -/
theorem Fresh.ok {s : State} (fresh : Fresh s) : Ok s where
  stateCovered i := .inl (by rw [(fresh.changes i).1]; exact Nat.zero_le _)
  folios := by
    refine ⟨fun i f => .inl (by rw [(fresh.folioChanges i f).1]; exact Nat.zero_le _), ?_, ?_⟩
    · intro t i f c flight
      rw [fresh.idle] at flight
      cases flight
    · intro t t' i f c c' flight
      rw [fresh.idle] at flight
      cases flight
  listed i _ held := by
    rcases held with needs | ⟨t, c, flight⟩
    · simp [Inode.needsWrite, fresh.clean i] at needs
    · rw [fresh.idle] at flight
      cases flight
  kept := by
    refine ⟨fun i _ => fresh.attached i, fun i => ?_, fun i f => ?_, fun i _ behind => ?_,
      fun i f _ behind => ?_⟩
    · rw [(fresh.changes i).2]
      exact Nat.zero_le _
    · rw [(fresh.folioChanges i f).2]
      exact Nat.zero_le _
    · rw [(fresh.changes i).2] at behind
      exact absurd behind (Nat.not_lt_zero _)
    · rw [(fresh.folioChanges i f).2] at behind
      exact absurd behind (Nat.not_lt_zero _)
  frames t := by
    rw [fresh.idle]
    trivial

theorem Reachable.ok {s : State} (reachable : Reachable s) : Ok s := by
  induction reachable with
  | start fresh => exact fresh.ok
  | step _ happens meets ih => exact ih.step (next_step happens) meets

/-- In every run whose steps keep to `StepOk`, dirty inodes are listed and a sync without
error has written every change that had returned when it started. -/
theorem sync_writes_dirty_inodes {s : State} (reachable : Reachable s) : SyncSound s := by
  have ok := reachable.ok
  constructor
  · intro i alive needs settled
    rcases ok.listed i alive (.inl needs) with member | ⟨t, noting⟩
    · exact member
    · exact absurd noting (settled t)
  · rintro i alive (behind | ⟨f, behind⟩)
    · exact ok.kept.state i alive behind
    · exact ok.kept.folio i f alive behind
  · intro t run here finished fine i
    have frame := ok.frames t
    rw [here] at frame
    apply frame.done fine i
    · rw [finished]
      exact List.not_mem_nil
    · exact List.not_mem_nil

/-! ## Two short runs -/

/-- Several events, one behind the other. -/
def State.nexts (s : State) (events : List Event) : Option State := events.foldlM State.next s

/-- A volume right after it was mounted. -/
def mounted : State where
  inode i :=
    { ino := i, seq := i, attached := true, isNew := false, dying := false, dirty := false
      folios := [], writeback := [], wbErr := false, dirtied := 0, returned := 0, written := 0
      folioDirtied := fun _ => 0, folioReturned := fun _ => 0, folioWritten := fun _ => 0 }
  frame _ := .idle
  dirtyInodes := []

theorem mounted_fresh : Fresh mounted :=
  ⟨fun _ => rfl, fun _ => ⟨rfl, rfl, rfl⟩, fun _ => ⟨rfl, rfl⟩, fun _ _ => ⟨rfl, rfl⟩, fun _ => rfl⟩

theorem Reachable.next {s s' : State} (before : Reachable s) (event : Event)
    (happens : s.next event = some s') (meets : StepOk s event) : Reachable s' :=
  .step before happens meets

/-- An inode that is dirtied and synced. -/
theorem sync_writes_dirty_inode_twenty : ∃ s,
    mounted.nexts [.markInodeDirty 0 20, .inodeNoteDirty 0, .syncInodesSb 1 64, .nextInode 1,
      .collectDirty 1 64, .endRange 1, .waitRange 1, .clearDirty 1, .writeInode 1 true] =
        some s ∧ (s.inode 20).written = 1 ∧ SyncSound s := by
  refine ⟨_, rfl, rfl, sync_writes_dirty_inodes ?_⟩
  have marked := (Reachable.start mounted_fresh).next (.markInodeDirty 0 20) rfl (fun dirty => by cases dirty)
  have listed := marked.next (.inodeNoteDirty 0) rfl trivial
  have started := listed.next (.syncInodesSb 1 64) rfl (by
    intro i seen leftOut
    by_cases same : i = 20
    · subst same
      exact absurd leftOut (by decide)
    · rcases seen with member | dying
      · exact absurd (List.mem_singleton.mp member) same
      · simp [mounted, same, State.dirtied] at dying)
  have writing := started.next (.nextInode 1) rfl trivial
  have collected := writing.next (.collectDirty 1 64) rfl (by
    intro call run here
    cases here
    decide)
  have flushed := collected.next (.endRange 1) rfl trivial
  have waited := flushed.next (.waitRange 1) rfl trivial
  have cleared := waited.next (.clearDirty 1) rfl (by
    intro call run here clean
    cases here
    cases clean)
  exact cleared.next (.writeInode 1 true) rfl trivial

/-- A second dirtying call returns while the first one has not listed the inode yet, and a
sync that starts then returns no error and writes nothing. -/
theorem second_dirtier_is_not_synced : Fresh mounted ∧ ∃ s,
    mounted.nexts [.markInodeDirty 0 20, .markInodeDirty 1 20, .syncInodesSb 2 64] = some s ∧
      (s.inode 20).needsWrite = true ∧ s.frame 1 = .idle ∧ 20 ∉ s.dirtyInodes ∧ ¬ SyncSound s := by
  refine ⟨mounted_fresh, _, rfl, rfl, rfl, ?_, ?_⟩
  · decide
  · intro sound
    have wrote := (sound.sync_wrote 2 _ rfl rfl rfl 20).1
    exact absurd wrote (by decide)

end Ttntfs.Platform.Writeback
