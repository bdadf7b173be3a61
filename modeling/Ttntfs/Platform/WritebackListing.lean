import Ttntfs.Platform.WritebackCoverage

/-!
# The maybe-dirty list

What is marked is listed, or about to be, and a change that has returned keeps its inode
on the list until it is on the device.
-/

namespace Ttntfs.Platform.Writeback

open State

/-! ## What is marked is listed -/

section Listing

variable {s s' : State} {event : Event} {t i : Nat} {frame : Frame} {change : Inode → Inode}

/-- A step marks no inode anew and takes none off the list. -/
structure KeepsList (s s' : State) : Prop where
  dying : ∀ j, (s'.inode j).dying = false → (s.inode j).dying = false
  held : ∀ j, Held s' j → Held s j
  found : ∀ j, Found s j → Found s' j

theorem KeepsList.trans {s'' : State} (first : KeepsList s s') (second : KeepsList s' s'') :
    KeepsList s s'' where
  dying j alive := first.dying j (second.dying j alive)
  held j holds := first.held j (second.held j holds)
  found j finds := second.found j (first.found j finds)

theorem KeepsList.goto (held : ∀ j c, frame.stateFlight = some (j, c) → Held s j)
    (noting : (s.frame t).noting = none) : KeepsList s (s.goto t frame) := by
  refine ⟨fun _ alive => alive, fun j holds => ?_, fun j finds => ?_⟩
  · rcases holds with needs | ⟨t', c, flight⟩
    · exact .inl needs
    · rw [goto_frame] at flight
      split at flight
      · exact held j c flight
      · exact .inr ⟨t', c, flight⟩
  · rcases finds with listed | ⟨t', noted⟩
    · exact .inl listed
    · have other : t' ≠ t := by
        rintro rfl
        rw [noting] at noted
        cases noted
      exact .inr ⟨t', by rw [goto_frame, if_neg other, noted]⟩

theorem KeepsList.modify
    (dying : (change (s.inode i)).dying = false → (s.inode i).dying = false)
    (held : (change (s.inode i)).needsWrite = true → Held s i) : KeepsList s (s.modify i change) := by
  refine ⟨fun j alive => ?_, fun j holds => ?_, fun j finds => finds⟩
  · rw [modify_inode] at alive
    split at alive
    · next same => rw [same]; exact dying alive
    · exact alive
  · rcases holds with needs | flight
    · rw [modify_inode] at needs
      split at needs
      · next same => rw [same]; exact held needs
      · exact .inl needs
    · exact .inr flight

theorem KeepsList.quiet (flight : frame.stateFlight = none) (noting : (s.frame t).noting = none) :
    KeepsList s (s.goto t frame) :=
  .goto (fun j c inFlight => by rw [flight] at inFlight; cases inFlight) noting

theorem Listed.keeps (listed : Listed s) (keeps : KeepsList s s') : Listed s' :=
  fun j alive holds => keeps.found j (listed j (keeps.dying j alive) (keeps.held j holds))

/-- A step after which the inode it marks is found. -/
theorem Listed.marked (listed : Listed s) (idle : (s.frame t).noting = none)
    (flight : ∀ j c, frame.stateFlight = some (j, c) → j = i)
    (dying : (change (s.inode i)).dying = false → (s.inode i).dying = false)
    (found : Held s i ∨ frame.noting = some i) :
    Listed ((s.modify i change).goto t frame) := by
  intro j alive holds
  by_cases touched : j = i
  · rcases found with held | noting
    · subst touched
      have was := listed j (dying (by simpa using alive)) held
      rcases was with member | ⟨t', noted⟩
      · exact .inl member
      · have other : t' ≠ t := by
          rintro rfl
          rw [idle] at noted
          cases noted
        exact .inr ⟨t', by rw [goto_frame, if_neg other, modify_frame, noted]⟩
    · exact .inr ⟨t, by rw [goto_frame, if_pos rfl, noting, touched]⟩
  · have alive : (s.inode j).dying = false := by simpa [touched] using alive
    have held : Held s j := by
      rcases holds with needs | ⟨t', c, inFlight⟩
      · left
        simpa [touched] using needs
      · rw [goto_frame] at inFlight
        split at inFlight
        · exact absurd (flight j c inFlight) touched
        · exact .inr ⟨t', c, inFlight⟩
    rcases listed j alive held with member | ⟨t', noted⟩
    · exact .inl member
    · have other : t' ≠ t := by
        rintro rfl
        rw [idle] at noted
        cases noted
      exact .inr ⟨t', by rw [goto_frame, if_neg other, modify_frame, noted]⟩

theorem Listed.unlisted (listed : Listed s) (gone : (s.inode i).dying = true ∨ ¬ Held s i) :
    Listed (s.unlist i) := by
  intro j alive holds
  have other : j ≠ i := by
    rintro rfl
    rcases gone with dying | clean
    · rw [unlist_inode, dying] at alive
      cases alive
    · exact clean holds
  rcases listed j alive holds with member | noting
  · exact .inl ((mem_unlist s i j).mpr ⟨member, other⟩)
  · exact .inr noting

theorem needsWrite_of_startFolio {r : Inode} {f : Nat} (needs : (r.startFolio f).needsWrite = true) :
    r.needsWrite = true := by
  simp only [Inode.needsWrite, Inode.startFolio, Bool.or_eq_true, Bool.not_eq_true',
    List.isEmpty_eq_false_iff] at needs ⊢
  rcases needs with dirty | folios
  · exact .inl dirty
  · right
    intro empty
    exact folios (by rw [empty]; rfl)

/-- `inode_note_dirty` finds the inode for good. -/
theorem Listed.noted (listed : Listed s) {changed : Change}
    (attached : (s.inode i).dying = false → (s.inode i).attached = true)
    (noting : s.frame t = .note i changed) :
    Listed (((s.noteDirty i).modify i (·.changeReturned changed)).goto t .idle) := by
  intro j alive holds
  have alive : (s.inode j).dying = false := by
    simp only [goto_inode, modify_inode, noteDirty_inode] at alive
    split at alive
    · next same => simpa [same] using alive
    · exact alive
  have held : Held s j := by
    rcases holds with needs | ⟨t', c, flight⟩
    · left
      simp only [goto_inode, modify_inode, noteDirty_inode] at needs
      split at needs
      · next same => simpa [Inode.needsWrite, same] using needs
      · exact needs
    · right
      rw [goto_frame] at flight
      split at flight
      · cases flight
      · exact ⟨t', c, by simpa using flight⟩
  rcases listed j alive held with member | ⟨t', noted⟩
  · exact .inl ((mem_noteDirty s i j).mpr (.inl member))
  · by_cases mine : t' = t
    · rw [mine, noting] at noted
      cases noted
      exact .inl ((mem_noteDirty s i i).mpr (.inr ⟨rfl, attached alive⟩))
    · exact .inr ⟨t', by rw [goto_frame, if_neg mine, modify_frame, noteDirty_frame, noted]⟩

/-- Every step keeps what is marked on the list. -/
theorem Listed.step (listed : Listed s)
    (attached : ∀ i, (s.inode i).dying = false → (s.inode i).attached = true)
    (step : Step s event s') (meets : StepOk s event) : Listed s' := by
  cases step with
  | unlockNewInode i => exact listed.keeps (.modify id fun needs => .inl needs)
  | claim i => exact listed.keeps (.modify (fun alive => by cases alive) fun needs => .inl needs)
  | evict dying =>
    apply (listed.keeps (.modify id fun needs => .inl needs)).unlisted
    left
    simpa using dying
  | markEdge here clean | folioEdge here clean =>
    exact listed.marked (by rw [here]; rfl) (by simp [Frame.stateFlight]) id (.inr rfl)
  | @markAgain t i idle dirty | @folioAgain t i f idle dirty =>
    have held : Held s i := .inl (by simp [Inode.needsWrite, dirty])
    exact listed.keeps (.modify id fun _ => held)
  | note noting => exact listed.noted (attached _) noting
  | writeInodeNow here | collect here | skipFolio here unlocked clean | nextRange here
  | syncInodesSb here | nextInode here | syncReturn here | pruneKeeps here dirty =>
    exact listed.keeps (.quiet rfl (by rw [here]; rfl))
  | startFolio here unlocked dirty =>
    exact listed.keeps (.trans (.modify id fun needs => .inl (needsWrite_of_startFolio needs))
      (.quiet rfl (by rw [modify_frame, here]; rfl)))
  | endFolio here | waitRange here ended =>
    exact listed.keeps (.trans (.modify id fun needs => .inl needs)
      (.quiet rfl (by rw [modify_frame, here]; rfl)))
  | @endRange _ _ _ _ _ sync _ here =>
    exact listed.keeps (.quiet (by cases sync <;> rfl) (by rw [here]; rfl))
  | @clearDirty t i err sync run here dirty =>
    -- the mark goes over to the write in flight
    have held : Held s i := .inl (by simp [Inode.needsWrite, dirty])
    apply listed.marked (by rw [here]; rfl) _ id (.inl held)
    intro j c flight
    cases flight
    rfl
  | nothingDirty here clean =>
    rw [writeReturns_eq]
    exact listed.keeps (.quiet (by simp) (by rw [here]; rfl))
  | @writeInode t i captured err sync run here =>
    rw [writeReturns_eq]
    exact listed.keeps (.trans (.modify id fun needs => .inl needs)
      (.quiet (by simp) (by rw [modify_frame, here]; rfl)))
  | @writeFails t i captured err sync run here =>
    apply listed.keeps
    apply KeepsList.goto
    · intro j c flight
      cases flight
      exact .inr ⟨t, captured, by rw [here]; rfl⟩
    · rw [here]
      rfl
  | @restore t i captured sync run here =>
    rw [writeReturns_eq]
    have held : Held s i := .inr ⟨t, captured, by rw [here]; rfl⟩
    exact listed.marked (by rw [here]; rfl) (by simp) id (.inl held)
  | @pruneDrops t i run here clean =>
    have still := meets i run here clean
    have free : ¬ Held s i := by
      rintro (needs | ⟨t', c, flight⟩)
      · rw [clean] at needs
        cases needs
      · exact (still t').1 c flight
    exact (listed.unlisted (.inr free)).keeps (.quiet rfl (by rw [unlist_frame, here]; rfl))

/-- A step lets no change return, and takes no inode off the list. -/
structure KeepsReturned (s s' : State) : Prop where
  dying : ∀ j, (s'.inode j).dying = false → (s.inode j).dying = false
  attached : ∀ j, (s'.inode j).dying = false → (s'.inode j).attached = (s.inode j).attached
  returned : ∀ j, (s'.inode j).returned = (s.inode j).returned
  folioReturned : ∀ j, (s'.inode j).folioReturned = (s.inode j).folioReturned
  listed : ∀ j, j ∈ s.dirtyInodes → j ∈ s'.dirtyInodes

theorem KeepsReturned.goto : KeepsReturned s (s.goto t frame) :=
  ⟨fun _ => id, fun _ _ => rfl, fun _ => rfl, fun _ => rfl, fun _ => id⟩

theorem KeepsReturned.trans {s'' : State} (first : KeepsReturned s s')
    (second : KeepsReturned s' s'') : KeepsReturned s s'' where
  dying j alive := first.dying j (second.dying j alive)
  attached j alive := (second.attached j alive).trans (first.attached j (second.dying j alive))
  returned j := (second.returned j).trans (first.returned j)
  folioReturned j := (second.folioReturned j).trans (first.folioReturned j)
  listed j member := second.listed j (first.listed j member)

theorem KeepsReturned.modify
    (dying : (change (s.inode i)).dying = false → (s.inode i).dying = false)
    (attached : (change (s.inode i)).dying = false →
      (change (s.inode i)).attached = (s.inode i).attached)
    (returned : (change (s.inode i)).returned = (s.inode i).returned)
    (folioReturned : (change (s.inode i)).folioReturned = (s.inode i).folioReturned) :
    KeepsReturned s (s.modify i change) := by
  refine ⟨fun j => ?_, fun j => ?_, modify_keeps s i change Inode.returned returned,
    modify_keeps s i change Inode.folioReturned folioReturned, fun _ member => member⟩
  · rw [modify_inode]
    split
    · next same => rwa [same]
    · exact id
  · rw [modify_inode]
    split
    · next same => rw [same]; exact attached
    · exact fun _ => rfl

theorem Kept.keeps (kept : Kept s) (advances : Advances s s') (keeps : KeepsReturned s s') :
    Kept s' := by
  constructor
  · intro j alive
    rw [keeps.attached j alive]
    exact kept.attached j (keeps.dying j alive)
  · intro j
    rw [keeps.returned]
    exact (kept.returned_le j).trans (advances.dirtied j)
  · intro j f
    rw [keeps.folioReturned]
    exact (kept.folioReturned_le j f).trans (advances.folioDirtied j f)
  · intro j alive behind
    rw [keeps.returned] at behind
    exact keeps.listed j (kept.state j (keeps.dying j alive) ((advances.written j).trans_lt behind))
  · intro j f alive behind
    rw [keeps.folioReturned] at behind
    exact keeps.listed j
      (kept.folio j f (keeps.dying j alive) ((advances.folioWritten j f).trans_lt behind))

/-- A change of an inode that is listed, or going away, may return. -/
theorem Kept.returns (kept : Kept s)
    (listed : (s.inode i).dying = false → i ∈ s.dirtyInodes)
    (dying : (change (s.inode i)).dying = (s.inode i).dying)
    (attached : (change (s.inode i)).attached = (s.inode i).attached)
    (returned : (change (s.inode i)).returned ≤ (change (s.inode i)).dirtied)
    (folioReturned : ∀ f, (change (s.inode i)).folioReturned f ≤ (change (s.inode i)).folioDirtied f) :
    Kept (s.modify i change) := by
  constructor
  · intro j alive
    rw [modify_inode] at alive ⊢
    split
    · next same =>
      rw [if_pos same, dying] at alive
      rw [attached]
      exact kept.attached i alive
    · next other =>
      rw [if_neg other] at alive
      exact kept.attached j alive
  · intro j
    rw [modify_inode]
    split
    · exact returned
    · exact kept.returned_le j
  · intro j f
    rw [modify_inode]
    split
    · exact folioReturned f
    · exact kept.folioReturned_le j f
  · intro j alive behind
    rw [modify_inode] at alive behind
    by_cases same : j = i
    · rw [if_pos same, dying] at alive
      exact same ▸ listed alive
    · rw [if_neg same] at alive behind
      exact kept.state j alive behind
  · intro j f alive behind
    rw [modify_inode] at alive behind
    by_cases same : j = i
    · rw [if_pos same, dying] at alive
      exact same ▸ listed alive
    · rw [if_neg same] at alive behind
      exact kept.folio j f alive behind

theorem Kept.unlisted (kept : Kept s)
    (done : (s.inode i).dying = false → (s.inode i).returned ≤ (s.inode i).written ∧
      ∀ f, (s.inode i).folioReturned f ≤ (s.inode i).folioWritten f) : Kept (s.unlist i) := by
  refine ⟨kept.attached, kept.returned_le, kept.folioReturned_le, ?_, ?_⟩
  · intro j alive behind
    rw [mem_unlist]
    refine ⟨kept.state j alive behind, ?_⟩
    rintro rfl
    exact absurd (done alive).1 (Nat.not_le_of_lt behind)
  · intro j f alive behind
    rw [mem_unlist]
    refine ⟨kept.folio j f alive behind, ?_⟩
    rintro rfl
    exact absurd ((done alive).2 f) (Nat.not_le_of_lt behind)

theorem written_of_quiet (state : StateCovered s) (folios : FoliosOk s)
    (clean : (s.inode i).needsWrite = false) (still : NoFlight s i) :
    (s.inode i).dirtied ≤ (s.inode i).written ∧
      ∀ f, (s.inode i).folioDirtied f ≤ (s.inode i).folioWritten f := by
  simp only [Inode.needsWrite, Bool.or_eq_false_iff, Bool.not_eq_false', List.isEmpty_iff] at clean
  constructor
  · rcases state i with written | dirty | ⟨t, flight⟩
    · exact written
    · rw [clean.1] at dirty
      cases dirty
    · exact absurd flight ((still t).1 _)
  · intro f
    rcases folios.covered i f with written | dirty | ⟨t, c, flight, _⟩
    · exact written
    · rw [clean.2] at dirty
      cases dirty
    · exact absurd flight ((still t).2 f c)

theorem KeepsReturned.noteDirty : KeepsReturned s (s.noteDirty i) := by
  refine ⟨fun j => ?_, fun j _ => ?_, fun j => ?_, fun j => ?_, fun j member => ?_⟩
  · rw [noteDirty_inode]
    exact id
  · rw [noteDirty_inode]
  · rw [noteDirty_inode]
  · rw [noteDirty_inode]
  · exact (mem_noteDirty s i j).mpr (.inl member)

/-- The number of a change that returns is one that was given out. -/
theorem changeReturned_le {changed : Change} {r : Inode}
    (number : match changed with
      | .state n => n ≤ r.dirtied
      | .folio f n => n ≤ r.folioDirtied f)
    (returned : r.returned ≤ r.dirtied) (folioReturned : ∀ f, r.folioReturned f ≤ r.folioDirtied f) :
    (r.changeReturned changed).returned ≤ (r.changeReturned changed).dirtied ∧
      ∀ f, (r.changeReturned changed).folioReturned f ≤ (r.changeReturned changed).folioDirtied f := by
  cases changed with
  | state n => exact ⟨Nat.max_le.mpr ⟨returned, number⟩, folioReturned⟩
  | folio f n =>
    refine ⟨returned, fun f' => ?_⟩
    by_cases same : f' = f
    · subst same
      simp only [Inode.changeReturned, Function.update_self]
      exact Nat.max_le.mpr ⟨folioReturned f', number⟩
    · simpa [Inode.changeReturned, same] using folioReturned f'

/-- Every step keeps the changes that returned on the list. -/
theorem Kept.step (ok : Ok s) (step : Step s event s') (meets : StepOk s event) : Kept s' := by
  have kept := ok.kept
  have advances := step.advances meets
  cases step with
  | unlockNewInode i => exact kept.keeps advances (.modify id (fun _ => rfl) rfl rfl)
  | claim i =>
    exact kept.keeps advances
      (.modify (fun alive => by cases alive) (fun _ => rfl) rfl rfl)
  | @evict i dying =>
    have detached : Kept (s.modify i fun inode => { inode with attached := false }) :=
      kept.keeps (.kept rfl rfl rfl rfl)
        (.modify id (fun alive => by rw [dying] at alive; cases alive) rfl rfl)
    apply detached.unlisted
    intro alive
    simp [dying] at alive
  | markEdge idle clean | folioEdge idle clean | startFolio here unlocked dirty | endFolio here
  | waitRange here ended | clearDirty here dirty =>
    exact kept.keeps advances (.trans (.modify id (fun _ => rfl) rfl rfl) .goto)
  | @markAgain t i idle dirty =>
    have number := @changeReturned_le (.state ((s.inode i).dirtied + 1)) (s.inode i).markDirty
      le_rfl ((kept.returned_le i).trans (Nat.le_succ _)) (kept.folioReturned_le i)
    apply kept.returns _ rfl rfl number.1 number.2
    intro alive
    rcases meets dirty with listed | dying
    · exact listed
    · rw [dying] at alive
      cases alive
  | @folioAgain t i f idle dirty =>
    have number := @changeReturned_le (.folio f ((s.inode i).folioDirtied f + 1))
      ((s.inode i).folioMarkDirty f) (by simp [Inode.folioMarkDirty]) (kept.returned_le i)
      (fun f' => (kept.folioReturned_le i f').trans (le_folioMarkDirty _ _ _))
    apply kept.returns _ rfl rfl number.1 number.2
    intro alive
    rcases meets dirty with listed | dying
    · exact listed
    · rw [dying] at alive
      cases alive
  | @note t i change noting =>
    have noted : Kept (s.noteDirty i) := kept.keeps .noteDirty .noteDirty
    have frame := ok.frames t
    rw [noting] at frame
    have number := @changeReturned_le change (s.inode i) (by cases change <;> exact frame)
      (kept.returned_le i) (kept.folioReturned_le i)
    have returned : Kept ((s.noteDirty i).modify i (·.changeReturned change)) := by
      apply noted.returns
      · rw [noteDirty_inode, mem_noteDirty]
        exact fun alive => .inr ⟨rfl, kept.attached i alive⟩
      · simp
      · simp
      · simpa using number.1
      · simpa using number.2
    exact returned.keeps (.goto (by simp [noting, Frame.folioFlight])) .goto
  | writeInodeNow idle | collect here | skipFolio here unlocked clean | endRange here
  | nextRange here | writeFails here | syncInodesSb idle | nextInode here | syncReturn here
  | pruneKeeps here dirty => exact kept.keeps advances .goto
  | nothingDirty here clean =>
    rw [writeReturns_eq] at advances ⊢
    exact kept.keeps advances .goto
  | writeInode here | restore here =>
    rw [writeReturns_eq] at advances ⊢
    exact kept.keeps advances (.trans (.modify id (fun _ => rfl) rfl rfl) .goto)
  | @pruneDrops t i run here clean =>
    have written := written_of_quiet ok.stateCovered ok.folios clean (meets i run here clean)
    have unlisted : Kept (s.unlist i) := kept.unlisted fun _ =>
      ⟨(kept.returned_le i).trans written.1, fun f => (kept.folioReturned_le i f).trans (written.2 f)⟩
    exact unlisted.keeps (.goto (by rw [unlist_frame, here]; rfl)) .goto

end Listing

end Ttntfs.Platform.Writeback
