import Ttntfs.Platform.WritebackSteps

/-!
# Changes, marks and writes in flight

The invariant of write-back. A change of an inode or of a folio is on the device, or still
marked, or in a write in flight; what is marked is listed; and a sync has written what it
is through with. The steps of a run keep to `StepOk`: they take none of the branches that
lose an inode. A dirtying call that finds the inode dirty returns only when the inode is
listed already; the snapshot, the write of an inode found clean and the pruning pass over
an inode only while no other thread has a write of it in flight; and folios are written
when they are handed to the file system.

This module has the invariant and the part of it on changes.
-/

namespace Ttntfs.Platform.Writeback

open State

/-! ## Writes in flight -/

namespace Frame

/-- The inode whose state the thread has cleared and is writing, with the number of the
change it found. -/
def stateFlight : Frame → Option (Nat × Nat)
  | .write ⟨i, _, .call _ captured⟩ _ => some (i, captured)
  | .write ⟨i, _, .restore captured⟩ _ => some (i, captured)
  | _ => none

/-- The folio that the thread is writing, with its inode and the number of the change it
found. -/
def folioFlight : Frame → Option (Nat × Nat × Nat)
  | .write ⟨i, _, .folio _ f captured _ _ _⟩ _ => some (i, f, captured)
  | _ => none

/-- The inode that the thread has dirtied and not listed yet. -/
def noting : Frame → Option Nat
  | .note i _ => some i
  | _ => none

end Frame

/-- No thread has a write of the inode in flight. -/
def NoFlight (s : State) (i : Nat) : Prop :=
  ∀ t, (∀ c, (s.frame t).stateFlight ≠ some (i, c)) ∧ ∀ f c, (s.frame t).folioFlight ≠ some (i, f, c)

/-- What the steps of a run have to keep to. -/
def StepOk (s : State) : Event → Prop
  | .markInodeDirty _ i =>
    (s.inode i).dirty = true → i ∈ s.dirtyInodes ∨ (s.inode i).dying = true
  | .folioMarkDirty _ i _ =>
    (s.inode i).folios ≠ [] → i ∈ s.dirtyInodes ∨ (s.inode i).dying = true
  | .collectDirty t kept =>
    ∀ call run, s.frame t = .write call (some run) → (s.inode call.inode).folios.length ≤ kept
  | .endFolio _ outcome => outcome = .written
  | .clearDirty t =>
    ∀ call run, s.frame t = .write call (some run) → (s.inode call.inode).dirty = false →
      NoFlight s call.inode
  | .syncInodesSb _ kept =>
    ∀ i, i ∈ s.dirtyInodes ∨ (s.inode i).dying = true → i ∉ s.snapshot kept →
      (s.inode i).needsWrite = false ∧ NoFlight s i
  | .prune t =>
    ∀ i run, s.frame t = .prune i run → (s.inode i).needsWrite = false → NoFlight s i
  | _ => True

/-! ## The invariant -/

/-- A change of a folio is on the device, still to come in a list, or in flight. -/
def FolioCovered (s : State) (i f number : Nat) (todo : List Nat) : Prop :=
  number ≤ (s.inode i).folioWritten f ∨ f ∈ todo ∨
    ∃ t c, (s.frame t).folioFlight = some (i, f, c) ∧ number ≤ c

/-- Every change of an inode that was due for a sync is on the device. -/
def Done (s : State) (run : SyncRun) (i : Nat) : Prop :=
  run.due i ≤ (s.inode i).written ∧ ∀ f, run.dueFolio i f ≤ (s.inode i).folioWritten f

/-- How far a sync is with the inode it writes. -/
def PhaseOk (s : State) (i : Nat) (run : SyncRun) : Phase → Prop
  | .collect _ | .restore _ => True
  | .flush _ todo _ _ | .folio _ _ _ todo _ _ => ∀ f, FolioCovered s i f (run.dueFolio i f) todo
  | .wait _ => ∀ f, FolioCovered s i f (run.dueFolio i f) []
  | .clear _ => ∀ f, run.dueFolio i f ≤ (s.inode i).folioWritten f
  | .call _ captured =>
    (∀ f, run.dueFolio i f ≤ (s.inode i).folioWritten f) ∧ run.due i ≤ captured

/-- How far a sync is with the whole of its array, apart from the inodes in a list. -/
structure RunOk (s : State) (run : SyncRun) (current : List Nat) : Prop where
  due_le : ∀ i, run.due i ≤ (s.inode i).dirtied
  dueFolio_le : ∀ i f, run.dueFolio i f ≤ (s.inode i).folioDirtied f
  done : run.err = false → ∀ i, i ∉ run.todo → i ∉ current → Done s run i

/-- What holds of the frame of a thread. -/
def FrameOk (s : State) : Frame → Prop
  | .note i (.state number) => number ≤ (s.inode i).dirtied
  | .note i (.folio f number) => number ≤ (s.inode i).folioDirtied f
  | .write call (some run) =>
    call.sync = true ∧ RunOk s run [call.inode] ∧ PhaseOk s call.inode run call.phase
  | .prune _ run => RunOk s run []
  | .sync run => RunOk s run []
  | _ => True

/-- Every change of the state of an inode is on the device, still marked, or in flight. -/
def StateCovered (s : State) : Prop :=
  ∀ i, (s.inode i).dirtied ≤ (s.inode i).written ∨ (s.inode i).dirty = true ∨
    ∃ t, (s.frame t).stateFlight = some (i, (s.inode i).dirtied)

/-- Every change of a folio is covered, and a folio in flight is locked by the thread that
writes it. -/
structure FoliosOk (s : State) : Prop where
  covered : ∀ i f, FolioCovered s i f ((s.inode i).folioDirtied f) (s.inode i).folios
  writeback : ∀ t i f c, (s.frame t).folioFlight = some (i, f, c) → f ∈ (s.inode i).writeback
  alone : ∀ t t' i f c c', (s.frame t).folioFlight = some (i, f, c) →
    (s.frame t').folioFlight = some (i, f, c') → t = t'

/-- An inode is marked, or may be marked again by a write that fails. -/
def Held (s : State) (i : Nat) : Prop :=
  (s.inode i).needsWrite = true ∨ ∃ t c, (s.frame t).stateFlight = some (i, c)

/-- An inode is listed, or a thread is about to list it. -/
def Found (s : State) (i : Nat) : Prop :=
  i ∈ s.dirtyInodes ∨ ∃ t, (s.frame t).noting = some i

/-- An inode that is marked, or may be marked again, is listed or about to be. -/
def Listed (s : State) : Prop :=
  ∀ i, (s.inode i).dying = false → Held s i → Found s i

/-- An inode with a change that returned and is not on the device is listed. -/
structure Kept (s : State) : Prop where
  attached : ∀ i, (s.inode i).dying = false → (s.inode i).attached = true
  returned_le : ∀ i, (s.inode i).returned ≤ (s.inode i).dirtied
  folioReturned_le : ∀ i f, (s.inode i).folioReturned f ≤ (s.inode i).folioDirtied f
  state : ∀ i, (s.inode i).dying = false → (s.inode i).written < (s.inode i).returned →
    i ∈ s.dirtyInodes
  folio : ∀ i f, (s.inode i).dying = false →
    (s.inode i).folioWritten f < (s.inode i).folioReturned f → i ∈ s.dirtyInodes

/-- The invariant of the runs. -/
structure Ok (s : State) : Prop where
  stateCovered : StateCovered s
  folios : FoliosOk s
  listed : Listed s
  kept : Kept s
  frames : ∀ t, FrameOk s (s.frame t)

/-! ## The sections, field by field -/

section Fields

variable (s : State) (t i : Nat) (frame : Frame) (change : Inode → Inode)

@[simp] theorem goto_inode : (s.goto t frame).inode = s.inode := rfl

@[simp] theorem goto_frame (t' : Nat) :
    (s.goto t frame).frame t' = if t' = t then frame else s.frame t' := by
  simp [goto, Function.update_apply]

theorem goto_self : s.goto t (s.frame t) = s := by
  simp [goto]

@[simp] theorem modify_inode (j : Nat) :
    (s.modify i change).inode j = if j = i then change (s.inode i) else s.inode j := by
  simp [State.modify, Function.update_apply]

theorem modify_keeps {α : Type} (field : Inode → α)
    (kept : field (change (s.inode i)) = field (s.inode i)) (j : Nat) :
    field ((s.modify i change).inode j) = field (s.inode j) := by
  rw [modify_inode]
  split
  · next same => rw [same, kept]
  · rfl

theorem modify_grows (field : Inode → Nat)
    (grows : field (s.inode i) ≤ field (change (s.inode i))) (j : Nat) :
    field (s.inode j) ≤ field ((s.modify i change).inode j) := by
  rw [modify_inode]
  split
  · next same => rwa [same]
  · exact Nat.le_refl _

@[simp] theorem modify_frame : (s.modify i change).frame = s.frame := rfl

/-- The frame to which `write_inode_now` returns. -/
def returnFrame (i : Nat) (run : Option SyncRun) (err : Bool) : Frame :=
  match run with
  | none => .idle
  | some run => if err then .sync { run with err := true } else .prune i run

theorem writeReturns_eq (run : Option SyncRun) (err : Bool) :
    s.writeReturns t i run err = s.goto t (returnFrame i run err) := by
  cases run <;> rfl

@[simp] theorem returnFrame_flight (run : Option SyncRun) (err : Bool) :
    (returnFrame i run err).stateFlight = none ∧ (returnFrame i run err).folioFlight = none := by
  cases run <;> cases err <;> exact ⟨rfl, rfl⟩

@[simp] theorem unlist_inode : (s.unlist i).inode = s.inode := rfl

@[simp] theorem unlist_frame : (s.unlist i).frame = s.frame := rfl

variable (r : Inode) (c : Change)

/-- A change that returns alters its number only. -/
@[simp] theorem changeReturned_same : (r.changeReturned c).dirty = r.dirty ∧
    (r.changeReturned c).dirtied = r.dirtied ∧ (r.changeReturned c).written = r.written ∧
    (r.changeReturned c).folios = r.folios ∧ (r.changeReturned c).writeback = r.writeback ∧
    (r.changeReturned c).folioDirtied = r.folioDirtied ∧
    (r.changeReturned c).folioWritten = r.folioWritten ∧ (r.changeReturned c).dying = r.dying ∧
    (r.changeReturned c).attached = r.attached := by
  cases c <;> exact ⟨rfl, rfl, rfl, rfl, rfl, rfl, rfl, rfl, rfl⟩

@[simp] theorem mem_unlist (j : Nat) :
    j ∈ (s.unlist i).dirtyInodes ↔ j ∈ s.dirtyInodes ∧ j ≠ i := by
  simp [unlist]

@[simp] theorem noteDirty_inode : (s.noteDirty i).inode = s.inode := by
  unfold noteDirty
  split <;> rfl

@[simp] theorem noteDirty_frame : (s.noteDirty i).frame = s.frame := by
  unfold noteDirty
  split <;> rfl

/-- What is listed after `inode_note_dirty`. -/
theorem mem_noteDirty (j : Nat) : j ∈ (s.noteDirty i).dirtyInodes ↔
    j ∈ s.dirtyInodes ∨ (j = i ∧ (s.inode i).attached = true) := by
  unfold noteDirty
  split
  · next fresh => simp [fresh.2]
  · next old =>
    constructor
    · exact Or.inl
    · rintro (listed | ⟨rfl, attached⟩)
      · exact listed
      · by_contra unlisted
        exact old ⟨unlisted, attached⟩

end Fields

/-! ## Every change is covered -/

section Covered

variable {s s' : State} {event : Event} {t i : Nat} {frame : Frame} {change : Inode → Inode}

/-- Two states agree on what is said of the state of inodes. -/
structure SameState (s s' : State) : Prop where
  dirty : ∀ j, (s'.inode j).dirty = (s.inode j).dirty
  dirtied : ∀ j, (s'.inode j).dirtied = (s.inode j).dirtied
  written : ∀ j, (s'.inode j).written = (s.inode j).written
  flight : ∀ t, (s'.frame t).stateFlight = (s.frame t).stateFlight

theorem SameState.goto (flight : (s.frame t).stateFlight = frame.stateFlight) :
    SameState s (s.goto t frame) := by
  refine ⟨fun _ => rfl, fun _ => rfl, fun _ => rfl, fun t' => ?_⟩
  rw [goto_frame]
  split
  · next same => rw [same, flight]
  · rfl

theorem SameState.modify (dirty : (change (s.inode i)).dirty = (s.inode i).dirty)
    (dirtied : (change (s.inode i)).dirtied = (s.inode i).dirtied)
    (written : (change (s.inode i)).written = (s.inode i).written) :
    SameState s (s.modify i change) :=
  ⟨modify_keeps s i change Inode.dirty dirty, modify_keeps s i change Inode.dirtied dirtied,
    modify_keeps s i change Inode.written written, fun _ => rfl⟩

theorem SameState.trans {s'' : State} (first : SameState s s') (second : SameState s' s'') :
    SameState s s'' where
  dirty j := (second.dirty j).trans (first.dirty j)
  dirtied j := (second.dirtied j).trans (first.dirtied j)
  written j := (second.written j).trans (first.written j)
  flight t := (second.flight t).trans (first.flight t)

theorem SameState.unlist : SameState s (s.unlist i) :=
  ⟨fun _ => rfl, fun _ => rfl, fun _ => rfl, fun _ => rfl⟩

theorem SameState.noteDirty : SameState s (s.noteDirty i) :=
  ⟨fun _ => by rw [noteDirty_inode], fun _ => by rw [noteDirty_inode],
    fun _ => by rw [noteDirty_inode], fun _ => by rw [noteDirty_frame]⟩

theorem StateCovered.same (covered : StateCovered s) (same : SameState s s') : StateCovered s' := by
  intro j
  simp only [same.dirty, same.dirtied, same.written, same.flight]
  exact covered j

/-- A step of a thread that has at most the inode in flight which the step changes. -/
theorem StateCovered.changed (covered : StateCovered s)
    (mine : ∀ j c, (s.frame t).stateFlight = some (j, c) → j = i)
    (here : (change (s.inode i)).dirtied ≤ (change (s.inode i)).written ∨
      (change (s.inode i)).dirty = true ∨
      frame.stateFlight = some (i, (change (s.inode i)).dirtied) ∨
      ∃ t', t' ≠ t ∧ (s.frame t').stateFlight = some (i, (change (s.inode i)).dirtied)) :
    StateCovered ((s.modify i change).goto t frame) := by
  intro j
  simp only [goto_inode, modify_inode, goto_frame, modify_frame]
  by_cases touched : j = i
  · subst touched
    rw [if_pos rfl]
    rcases here with written | dirty | flight | ⟨t', other, flight⟩
    · exact .inl written
    · exact .inr (.inl dirty)
    · exact .inr (.inr ⟨t, by rw [if_pos rfl, flight]⟩)
    · exact .inr (.inr ⟨t', by rw [if_neg other, flight]⟩)
  · rw [if_neg touched]
    rcases covered j with written | dirty | ⟨t', flight⟩
    · exact .inl written
    · exact .inr (.inl dirty)
    · have other : t' ≠ t := by
        rintro rfl
        exact touched (mine _ _ flight)
      exact .inr (.inr ⟨t', by rw [if_neg other, flight]⟩)

/-- Every step keeps the changes of inodes covered. -/
theorem StateCovered.step (covered : StateCovered s) (step : Step s event s') : StateCovered s' := by
  cases step with
  | unlockNewInode i | claim i | folioAgain idle dirty => exact covered.same (.modify rfl rfl rfl)
  | evict dying => exact covered.same (.trans (.modify rfl rfl rfl) .unlist)
  | markEdge idle clean =>
    apply covered.changed
    · simp [idle, Frame.stateFlight]
    · exact .inr (.inl rfl)
  | @markAgain t i idle dirty =>
    rw [← goto_self (s.modify i _) t, modify_frame, idle]
    apply covered.changed
    · simp [idle, Frame.stateFlight]
    · exact .inr (.inl rfl)
  | folioEdge here clean | startFolio here unlocked dirty | endFolio here
  | waitRange here ended =>
    exact covered.same (.trans (.modify rfl rfl rfl) (.goto (by rw [modify_frame, here]; rfl)))
  | @note t i change noting =>
    have listed : SameState s (s.noteDirty i) := .noteDirty
    have returned : SameState (s.noteDirty i) ((s.noteDirty i).modify i (·.changeReturned change)) :=
      .modify (by simp) (by simp) (by simp)
    exact covered.same (.trans (.trans listed returned) (.goto (by simp [noting, Frame.stateFlight])))
  | writeInodeNow here | collect here | skipFolio here unlocked clean | nextRange here
  | writeFails here | syncInodesSb here | nextInode here | syncReturn here
  | pruneKeeps here dirty => exact covered.same (.goto (by rw [here]; rfl))
  | @endRange _ _ _ _ _ sync _ here =>
    exact covered.same (.goto (by rw [here]; cases sync <;> rfl))
  | clearDirty here dirty =>
    apply covered.changed
    · simp [here, Frame.stateFlight]
    · exact .inr (.inr (.inl rfl))
  | nothingDirty here clean =>
    rw [writeReturns_eq]
    exact covered.same (.goto (by rw [here, (returnFrame_flight ..).1]; rfl))
  | @writeInode t i captured err sync run here =>
    rw [writeReturns_eq]
    apply covered.changed
    · simp [here, Frame.stateFlight]
    rcases covered i with written | dirty | ⟨t', flight⟩
    · exact .inl (written.trans (Nat.le_max_left _ _))
    · exact .inr (.inl dirty)
    · by_cases mine : t' = t
      · rw [mine, here] at flight
        simp only [Frame.stateFlight, Option.some.injEq, Prod.mk.injEq, true_and] at flight
        exact .inl (flight ▸ Nat.le_max_right _ _)
      · exact .inr (.inr (.inr ⟨t', mine, flight⟩))
  | restore here =>
    rw [writeReturns_eq]
    apply covered.changed
    · simp [here, Frame.stateFlight]
    · exact .inr (.inl rfl)
  | pruneDrops here clean =>
    exact covered.same (.trans .unlist (.goto (by rw [unlist_frame, here]; rfl)))

/-- Two states agree on what is said of folios. -/
structure SameFolios (s s' : State) : Prop where
  folios : ∀ j, (s'.inode j).folios = (s.inode j).folios
  writeback : ∀ j, (s'.inode j).writeback = (s.inode j).writeback
  dirtied : ∀ j, (s'.inode j).folioDirtied = (s.inode j).folioDirtied
  written : ∀ j, (s'.inode j).folioWritten = (s.inode j).folioWritten
  flight : ∀ t, (s'.frame t).folioFlight = (s.frame t).folioFlight

theorem SameFolios.goto (flight : (s.frame t).folioFlight = frame.folioFlight) :
    SameFolios s (s.goto t frame) := by
  refine ⟨fun _ => rfl, fun _ => rfl, fun _ => rfl, fun _ => rfl, fun t' => ?_⟩
  rw [goto_frame]
  split
  · next same => rw [same, flight]
  · rfl

theorem SameFolios.modify (folios : (change (s.inode i)).folios = (s.inode i).folios)
    (writeback : (change (s.inode i)).writeback = (s.inode i).writeback)
    (dirtied : (change (s.inode i)).folioDirtied = (s.inode i).folioDirtied)
    (written : (change (s.inode i)).folioWritten = (s.inode i).folioWritten) :
    SameFolios s (s.modify i change) :=
  ⟨modify_keeps s i change Inode.folios folios, modify_keeps s i change Inode.writeback writeback,
    modify_keeps s i change Inode.folioDirtied dirtied,
    modify_keeps s i change Inode.folioWritten written, fun _ => rfl⟩

theorem SameFolios.trans {s'' : State} (first : SameFolios s s') (second : SameFolios s' s'') :
    SameFolios s s'' where
  folios j := (second.folios j).trans (first.folios j)
  writeback j := (second.writeback j).trans (first.writeback j)
  dirtied j := (second.dirtied j).trans (first.dirtied j)
  written j := (second.written j).trans (first.written j)
  flight t := (second.flight t).trans (first.flight t)

theorem SameFolios.unlist : SameFolios s (s.unlist i) :=
  ⟨fun _ => rfl, fun _ => rfl, fun _ => rfl, fun _ => rfl, fun _ => rfl⟩

theorem SameFolios.noteDirty : SameFolios s (s.noteDirty i) :=
  ⟨fun _ => by rw [noteDirty_inode], fun _ => by rw [noteDirty_inode],
    fun _ => by rw [noteDirty_inode], fun _ => by rw [noteDirty_inode], fun _ => by rw [noteDirty_frame]⟩

theorem FoliosOk.same (ok : FoliosOk s) (same : SameFolios s s') : FoliosOk s' := by
  constructor
  · intro j f
    simp only [FolioCovered, same.folios, same.dirtied, same.written, same.flight]
    exact ok.covered j f
  · intro t j f c
    rw [same.flight, same.writeback]
    exact ok.writeback t j f c
  · intro t t' j f c c'
    rw [same.flight, same.flight]
    exact ok.alone t t' j f c c'

/-- A step that dirties a folio. -/
theorem FoliosOk.marked (ok : FoliosOk s) {f : Nat}
    (folios : (change (s.inode i)).folios = ((s.inode i).folioMarkDirty f).folios)
    (writeback : (change (s.inode i)).writeback = (s.inode i).writeback)
    (dirtied : (change (s.inode i)).folioDirtied = ((s.inode i).folioMarkDirty f).folioDirtied)
    (written : (change (s.inode i)).folioWritten = (s.inode i).folioWritten) :
    FoliosOk (s.modify i change) := by
  constructor
  · intro j f'
    simp only [FolioCovered, modify_inode, modify_frame]
    by_cases touched : j = i
    · subst touched
      rw [if_pos rfl, folios, dirtied, written]
      by_cases same : f' = f
      · right
        left
        simp only [Inode.folioMarkDirty]
        split
        · next listed => rwa [same]
        · simp [same]
      · have number : ((s.inode j).folioMarkDirty f).folioDirtied f' = (s.inode j).folioDirtied f' := by
          simp [Inode.folioMarkDirty, same]
        have kept : f' ∈ (s.inode j).folios → f' ∈ ((s.inode j).folioMarkDirty f).folios := by
          intro listed
          simp only [Inode.folioMarkDirty]
          split
          · exact listed
          · exact List.mem_append_left _ listed
        rw [number]
        exact (ok.covered j f').imp id (Or.imp kept id)
    · rw [if_neg touched]
      exact ok.covered j f'
  · intro t j f' c flight
    have locked := ok.writeback t j f' c flight
    rw [modify_inode]
    split
    · next same => rwa [writeback, ← same]
    · exact locked
  · exact ok.alone

/-- A thread starts to write a folio that no other thread has locked. -/
theorem FoliosOk.started (ok : FoliosOk s) {f : Nat} (idle : (s.frame t).folioFlight = none)
    (unlocked : f ∉ (s.inode i).writeback)
    (flight : frame.folioFlight = some (i, f, (s.inode i).folioDirtied f)) :
    FoliosOk ((s.modify i (·.startFolio f)).goto t frame) := by
  have others : ∀ t', (s.frame t').folioFlight ≠ none → t' ≠ t := by
    rintro t' inFlight rfl
    exact inFlight idle
  constructor
  · intro j f'
    simp only [FolioCovered, goto_inode, modify_inode, goto_frame, modify_frame]
    rcases ok.covered j f' with written | dirty | ⟨t', c, inFlight, covers⟩
    · left
      split
      · next same => rwa [same] at written
      · exact written
    · right
      by_cases touched : j = i
      · subst touched
        rw [if_pos rfl]
        by_cases same : f' = f
        · right
          refine ⟨t, (s.inode j).folioDirtied f, ?_, ?_⟩
          · rw [if_pos rfl, flight, same]
          · rw [same]
            exact Nat.le_refl _
        · left
          simp only [Inode.startFolio, List.mem_filter, decide_eq_true_eq]
          exact ⟨dirty, same⟩
      · left
        rwa [if_neg touched]
    · right
      right
      refine ⟨t', c, ?_, ?_⟩
      · rwa [if_neg (others t' (by simp [inFlight]))]
      · split
        · next same => rwa [same] at covers
        · exact covers
  · intro t' j f' c inFlight
    rw [goto_frame] at inFlight
    simp only [goto_inode, modify_inode]
    by_cases mine : t' = t
    · rw [if_pos mine, flight] at inFlight
      cases inFlight
      rw [if_pos rfl]
      exact List.mem_cons_self
    · rw [if_neg mine] at inFlight
      have locked := ok.writeback t' j f' c inFlight
      split
      · next same => exact List.mem_cons_of_mem _ (same ▸ locked)
      · exact locked
  · intro t₁ t₂ j f' c₁ c₂ first second
    rw [goto_frame] at first second
    by_cases mine₁ : t₁ = t
    · by_cases mine₂ : t₂ = t
      · rw [mine₁, mine₂]
      · rw [if_pos mine₁, flight] at first
        rw [if_neg mine₂] at second
        cases first
        exact absurd (ok.writeback _ _ _ _ second) unlocked
    · by_cases mine₂ : t₂ = t
      · rw [if_neg mine₁] at first
        rw [if_pos mine₂, flight] at second
        cases second
        exact absurd (ok.writeback _ _ _ _ first) unlocked
      · rw [if_neg mine₁] at first
        rw [if_neg mine₂] at second
        exact ok.alone t₁ t₂ j f' c₁ c₂ first second

/-- A thread has written its folio. -/
theorem FoliosOk.ended (ok : FoliosOk s) {f captured : Nat}
    (mine : (s.frame t).folioFlight = some (i, f, captured)) (idle : frame.folioFlight = none) :
    FoliosOk ((s.modify i (·.endFolio f captured .written)).goto t frame) := by
  have elsewhere : ∀ t' j f' c, (s.frame t').folioFlight = some (j, f', c) → t' ≠ t →
      ¬ (j = i ∧ f' = f) := by
    rintro t' j f' c flight other ⟨rfl, rfl⟩
    exact other (ok.alone t' t j f' c captured flight mine)
  constructor
  · intro j f'
    simp only [FolioCovered, goto_inode, modify_inode, goto_frame, modify_frame]
    rcases ok.covered j f' with written | dirty | ⟨t', c, flight, covers⟩
    · left
      split
      · next same =>
        subst same
        exact written.trans (by simp [Inode.endFolio, Function.update_apply]; grind)
      · exact written
    · right
      left
      split
      · next same => rwa [same] at dirty
      · exact dirty
    · by_cases other : t' = t
      · rw [other, mine] at flight
        cases flight
        left
        rw [if_pos rfl]
        exact covers.trans (by simp [Inode.endFolio])
      · right
        right
        refine ⟨t', c, ?_, ?_⟩
        · rwa [if_neg other]
        · split
          · next same => rwa [same] at covers
          · exact covers
  · intro t' j f' c flight
    rw [goto_frame] at flight
    simp only [goto_inode, modify_inode]
    by_cases other : t' = t
    · rw [if_pos other, idle] at flight
      cases flight
    rw [if_neg other] at flight
    have locked := ok.writeback t' j f' c flight
    have kept := elsewhere t' j f' c flight other
    split
    · next same =>
      simp only [Inode.endFolio, List.mem_filter, decide_eq_true_eq]
      exact ⟨same ▸ locked, fun equal => kept ⟨same, equal⟩⟩
    · exact locked
  · intro t₁ t₂ j f' c₁ c₂ first second
    rw [goto_frame] at first second
    by_cases mine₁ : t₁ = t
    · rw [if_pos mine₁, idle] at first
      cases first
    · by_cases mine₂ : t₂ = t
      · rw [if_pos mine₂, idle] at second
        cases second
      · rw [if_neg mine₁] at first
        rw [if_neg mine₂] at second
        exact ok.alone t₁ t₂ j f' c₁ c₂ first second

/-- Every step keeps the changes of folios covered and the folios in flight locked. -/
theorem FoliosOk.step (ok : FoliosOk s) (step : Step s event s') (meets : StepOk s event) :
    FoliosOk s' := by
  cases step with
  | unlockNewInode i | claim i | markAgain idle dirty => exact ok.same (.modify rfl rfl rfl rfl)
  | evict dying => exact ok.same (.trans (.modify rfl rfl rfl rfl) .unlist)
  | markEdge here clean | waitRange here ended | clearDirty here dirty =>
    exact ok.same (.trans (.modify rfl rfl rfl rfl) (.goto (by rw [modify_frame, here]; rfl)))
  | folioEdge idle clean =>
    exact (ok.marked rfl rfl rfl rfl).same (.goto (by rw [modify_frame, idle]; rfl))
  | folioAgain idle dirty => exact ok.marked rfl rfl rfl rfl
  | @note t i change noting =>
    have listed : SameFolios s (s.noteDirty i) := .noteDirty
    have returned : SameFolios (s.noteDirty i) ((s.noteDirty i).modify i (·.changeReturned change)) :=
      .modify (by simp) (by simp) (by simp) (by simp)
    exact ok.same (.trans (.trans listed returned) (.goto (by simp [noting, Frame.folioFlight])))
  | writeInodeNow here | collect here | skipFolio here unlocked clean | nextRange here
  | writeFails here | syncInodesSb here | nextInode here | syncReturn here
  | pruneKeeps here dirty => exact ok.same (.goto (by rw [here]; rfl))
  | startFolio here unlocked dirty => exact ok.started (by rw [here]; rfl) unlocked rfl
  | endFolio here =>
    simp only [StepOk] at meets
    subst meets
    exact ok.ended (by rw [here]; rfl) rfl
  | @endRange _ _ _ _ _ sync _ here =>
    exact ok.same (.goto (by rw [here]; cases sync <;> rfl))
  | nothingDirty here clean =>
    rw [writeReturns_eq]
    exact ok.same (.goto (by rw [here, (returnFrame_flight ..).2]; rfl))
  | writeInode here | restore here =>
    rw [writeReturns_eq]
    exact ok.same (.trans (.modify rfl rfl rfl rfl)
      (.goto (by rw [modify_frame, here, (returnFrame_flight ..).2]; rfl)))
  | pruneDrops here clean =>
    exact ok.same (.trans .unlist (.goto (by rw [unlist_frame, here]; rfl)))

end Covered

/-! ## Nothing goes back -/

section Advance

variable {s s' : State} {event : Event} {t i : Nat} {frame : Frame} {change : Inode → Inode}

/-- The numbers of changes and of writes only grow, and a folio in flight stays there until
it is written. -/
structure Advances (s s' : State) : Prop where
  dirtied : ∀ j, (s.inode j).dirtied ≤ (s'.inode j).dirtied
  written : ∀ j, (s.inode j).written ≤ (s'.inode j).written
  folioDirtied : ∀ j f, (s.inode j).folioDirtied f ≤ (s'.inode j).folioDirtied f
  folioWritten : ∀ j f, (s.inode j).folioWritten f ≤ (s'.inode j).folioWritten f
  flight : ∀ t j f c, (s.frame t).folioFlight = some (j, f, c) →
    (s'.frame t).folioFlight = some (j, f, c) ∨ c ≤ (s'.inode j).folioWritten f

theorem Advances.goto (idle : (s.frame t).folioFlight = none) : Advances s (s.goto t frame) := by
  refine ⟨fun _ => Nat.le_refl _, fun _ => Nat.le_refl _, fun _ _ => Nat.le_refl _,
    fun _ _ => Nat.le_refl _, fun t' j f c flight => ?_⟩
  left
  rw [goto_frame]
  split
  · next same =>
    rw [same, idle] at flight
    cases flight
  · exact flight

theorem Advances.modify (dirtied : (s.inode i).dirtied ≤ (change (s.inode i)).dirtied)
    (written : (s.inode i).written ≤ (change (s.inode i)).written)
    (folioDirtied : ∀ f, (s.inode i).folioDirtied f ≤ (change (s.inode i)).folioDirtied f)
    (folioWritten : ∀ f, (s.inode i).folioWritten f ≤ (change (s.inode i)).folioWritten f) :
    Advances s (s.modify i change) :=
  ⟨modify_grows s i change Inode.dirtied dirtied, modify_grows s i change Inode.written written,
    fun j f => modify_grows s i change (·.folioDirtied f) (folioDirtied f) j,
    fun j f => modify_grows s i change (·.folioWritten f) (folioWritten f) j,
    fun _ _ _ _ flight => .inl flight⟩

theorem Advances.trans {s'' : State} (first : Advances s s') (second : Advances s' s'') :
    Advances s s'' where
  dirtied j := (first.dirtied j).trans (second.dirtied j)
  written j := (first.written j).trans (second.written j)
  folioDirtied j f := (first.folioDirtied j f).trans (second.folioDirtied j f)
  folioWritten j f := (first.folioWritten j f).trans (second.folioWritten j f)
  flight t j f c inFlight := by
    rcases first.flight t j f c inFlight with still | written
    · exact second.flight t j f c still
    · exact .inr (written.trans (second.folioWritten j f))

theorem Advances.kept (dirtied : (change (s.inode i)).dirtied = (s.inode i).dirtied)
    (written : (change (s.inode i)).written = (s.inode i).written)
    (folioDirtied : (change (s.inode i)).folioDirtied = (s.inode i).folioDirtied)
    (folioWritten : (change (s.inode i)).folioWritten = (s.inode i).folioWritten) :
    Advances s (s.modify i change) :=
  .modify (Nat.le_of_eq dirtied.symm) (Nat.le_of_eq written.symm)
    (fun f => Nat.le_of_eq (congrFun folioDirtied f).symm)
    (fun f => Nat.le_of_eq (congrFun folioWritten f).symm)

theorem Advances.unlist : Advances s (s.unlist i) :=
  ⟨fun _ => Nat.le_refl _, fun _ => Nat.le_refl _, fun _ _ => Nat.le_refl _,
    fun _ _ => Nat.le_refl _, fun _ _ _ _ flight => .inl flight⟩

theorem Advances.noteDirty : Advances s (s.noteDirty i) := by
  constructor <;> simp
  intro t j f c flight
  exact .inl flight

theorem le_folioMarkDirty (r : Inode) (f f' : Nat) :
    r.folioDirtied f' ≤ (r.folioMarkDirty f).folioDirtied f' := by
  by_cases same : f' = f
  · simp [Inode.folioMarkDirty, same]
  · simp [Inode.folioMarkDirty, same]

theorem le_endFolio (r : Inode) (f f' captured : Nat) :
    r.folioWritten f' ≤ (r.endFolio f captured .written).folioWritten f' := by
  by_cases same : f' = f
  · simp [Inode.endFolio, same]
  · simp [Inode.endFolio, same]

/-- Every step goes forward. -/
theorem Step.advances (step : Step s event s') (meets : StepOk s event) : Advances s s' := by
  cases step with
  | unlockNewInode i | claim i => exact .kept rfl rfl rfl rfl
  | evict dying => exact .trans (.kept rfl rfl rfl rfl) .unlist
  | markEdge idle clean =>
    exact .trans (.modify (Nat.le_succ _) le_rfl (fun _ => Nat.le_refl _)
      (fun _ => Nat.le_refl _)) (.goto (by rw [modify_frame, idle]; rfl))
  | markAgain idle dirty =>
    exact .modify (Nat.le_succ _) le_rfl (fun _ => Nat.le_refl _) (fun _ => Nat.le_refl _)
  | folioEdge idle clean =>
    exact .trans (.modify le_rfl le_rfl (le_folioMarkDirty _ _)
      (fun _ => Nat.le_refl _)) (.goto (by rw [modify_frame, idle]; rfl))
  | folioAgain idle dirty =>
    exact .modify le_rfl le_rfl (le_folioMarkDirty _ _) (fun _ => Nat.le_refl _)
  | @note t i change noting =>
    have returned : Advances (s.noteDirty i) ((s.noteDirty i).modify i (·.changeReturned change)) :=
      .kept (by simp) (by simp) (by simp) (by simp)
    exact .trans (.trans .noteDirty returned) (.goto (by simp [noting, Frame.folioFlight]))
  | writeInodeNow here | collect here | skipFolio here unlocked clean | endRange here
  | nextRange here | writeFails here | syncInodesSb here | nextInode here | syncReturn here
  | pruneKeeps here dirty => exact .goto (by rw [here]; rfl)
  | startFolio here unlocked dirty | waitRange here ended | clearDirty here dirty =>
    exact .trans (.kept rfl rfl rfl rfl) (.goto (by rw [modify_frame, here]; rfl))
  | @endFolio t i attempt f captured todo redirtied redirtied' err err' sync run outcome here =>
    simp only [StepOk] at meets
    subst meets
    have grows := @Advances.modify s i (·.endFolio f captured .written) le_rfl
      le_rfl (fun _ => Nat.le_refl _) (fun f' => le_endFolio _ f f' captured)
    refine ⟨grows.dirtied, grows.written, grows.folioDirtied, grows.folioWritten, ?_⟩
    intro t' j f' c flight
    by_cases mine : t' = t
    · rw [mine, here] at flight
      cases flight
      right
      simp [Inode.endFolio]
    · left
      simpa [mine] using flight
  | nothingDirty here clean =>
    rw [writeReturns_eq]
    exact .goto (by rw [here]; rfl)
  | writeInode here =>
    rw [writeReturns_eq]
    exact .trans (.modify le_rfl (Nat.le_max_left _ _) (fun _ => Nat.le_refl _)
      (fun _ => Nat.le_refl _)) (.goto (by rw [modify_frame, here]; rfl))
  | restore here =>
    rw [writeReturns_eq]
    exact .trans (.kept rfl rfl rfl rfl) (.goto (by rw [modify_frame, here]; rfl))
  | pruneDrops here clean => exact .trans .unlist (.goto (by rw [unlist_frame, here]; rfl))

end Advance

end Ttntfs.Platform.Writeback
