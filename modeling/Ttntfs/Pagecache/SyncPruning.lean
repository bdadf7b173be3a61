import Ttntfs.Pagecache.DirtyListing

/-!
# What leaves the list of dirty mappings

A sync drops mappings in its second pass. For a mapping of an inode other than 0 that pass
does not write and does not wait: the sync has waited for the mapping in its first pass, if
it was listed then. A writeback that another thread starts after the wait brings `nrdirty`
back to zero while the folio is in flight, and the second pass drops the mapping. Where no
folio of a mapping is put under writeback and no error is recorded for it once a sync is
past its wait for the mapping, whatever leaves the list is clean.
-/

namespace Ttntfs.Pagecache

open Ttntfs.Library.CursorWalk

namespace PageCache

/-- The mapping has no dirty folio, none under writeback, and no error to report. -/
structure Clean (s : PageCache) (m : Nat) : Prop where
  undirtied : ∀ f, (s.folio f).mapping = some m → (s.folio f).dirty = false
  written : NoWriteback s m
  reported : (s.mapping m).wbErr = 0

/-- Every mapping that leaves the list in a step of a sync that returns success is clean
then. -/
def LeavesClean (hosts : Nat → Option Host) (events : List Event) : Prop :=
  ∀ before event after s s' final t m, events = before ++ event :: after →
    (empty hosts).run before = some s → s.next event = some s' → s'.run after = some final →
    event = .run t → .mapping m ∈ s.gDirty → .mapping m ∉ s'.gDirty →
    (final.results t)[(s.results t).length]? = some 0 → Clean s m

/-- The thread is in a sync of the mapping's superblock. -/
def InSync (s : PageCache) (t m : Nat) : Prop :=
  ∃ sb, s.onSb sb m = true ∧ ∃ frame ∈ s.stack t, frame = .syncLast sb ∨ ∃ err, frame = .syncDone sb err

/-- No mapping is disturbed once a sync is past its wait for it, and a mapping that is
linked behind a sync's back is settled. -/
structure Undisturbed (s : PageCache) (event : Event) : Prop where
  disturbs : ∀ m, Disturbs s m event → ∀ t, InSync s t m → Awaits s t m
  links : ∀ t m rest, event = .run t → s.stack t = .noteDirty m :: rest → .mapping m ∉ s.gDirty →
    ∀ u, InSync s u m → Awaits (s.noteDirty m) u m ∨ Settled s m

/-! ## Waits -/

/-- A sync has its wait for a listed mapping before it, or has seen all its writebacks end
and is to report its error, or the mapping is settled. -/
def Drained (s : PageCache) : Prop :=
  ∀ t m, InSync s t m → .mapping m ∈ s.gDirty →
    Awaits s t m ∨ (.reportWbErr m ∈ s.stack t ∧ NoWriteback s m) ∨ Settled s m

section Waits

variable {s s' : PageCache} {event : Event} {t u m : Nat} {g frame : Frame} {rest frames : List Frame}

/-- A thread in a sync was in it before, unless the sync begins. -/
theorem inSync_step (step : Step s event s') (counts : Counts s) (inside : InSync s' t m) :
    InSync s t m ∨ ∃ sb, event = .call t (.pagecacheSyncSb sb) ∧
      s' = s.begin t (.pagecacheSyncSb sb) ∧ s.onSb sb m = true := by
  have host := host_step step
  obtain ⟨sb, on, g, member, isSync⟩ := inside
  rw [onSb_congr host] at on
  -- A frame of the sync that was there before will do.
  have old : g ∈ s.stack t → InSync s t m := fun before => ⟨sb, on, g, before, isSync⟩
  have plain : ∀ u frame rest frames, s.stack u = frame :: rest →
      s'.stack = Function.update s.stack u (frames ++ rest) → (∀ g' ∈ frames, g'.isSync = false) →
      InSync s t m := by
    intro u frame rest frames here stack none
    refine old ?_
    rw [stack, Function.update_apply] at member
    split at member
    · rename_i same
      rw [same, here]
      rcases List.mem_append.mp member with new | below
      · rcases isSync with rfl | ⟨err, rfl⟩
        · cases none _ new
        · cases none _ new
      · exact List.mem_cons_of_mem _ below
    · exact member
  have visits : ∀ k w err, ∀ g' ∈ s.visitFrames k w.visit ++ [.visited w k err], g'.isSync = false := by
    intro k w err g' member'
    rcases List.mem_append.mp member' with call | last
    · have quiet := visitFrames_plain s k w.visit g' call
      cases g' <;> first | rfl | cases quiet
    · rw [List.mem_singleton.mp last]
      rfl
  cases step with
  | idle same stack =>
    rw [stack] at member
    exact Or.inl (old member)
  | @move u frame rest frames here actor moves same stack =>
    refine Or.inl ?_
    cases moves with
    | secondPass sb' err =>
      rw [stack, Function.update_apply] at member
      split at member
      · rename_i this
        rw [this]
        rcases List.mem_cons.mp member with rfl | member'
        · rcases isSync with walk | ⟨err, walk⟩
          · cases walk
          · cases walk
        rcases List.mem_cons.mp member' with rfl | below
        · have same : sb' = sb := by
            rcases isSync with wrong | ⟨err, right⟩
            · cases wrong
            · cases right
              rfl
          refine ⟨sb, on, .syncLast sb', ?_, Or.inl (by rw [same])⟩
          rw [here]
          exact List.mem_cons_self
        · refine ⟨sb, on, g, ?_, isSync⟩
          rw [here]
          exact List.mem_cons_of_mem _ below
      · exact old member
    | other before after =>
      refine plain u _ rest frames here stack ?_
      intro g' new
      have quiet := after g' new
      cases g' <;> first | rfl | cases quiet
    | collect | lock | start | clean | further | wait | waitMore | waited | report | unmapped =>
      exact plain u _ rest _ here stack (by simp [Frame.isSync])
  | mark u f' m' rest here owner running result =>
    subst result
    obtain ⟨frames, stack, rfl | rfl⟩ := mark_stack counts owner
    · exact Or.inl (plain u _ rest _ here stack (by simp [Frame.isSync]))
    · exact Or.inl (plain u _ rest _ here stack (by simp))
  | note u m' rest here running result =>
    subst result
    exact Or.inl (plain u _ rest _ here (note_stack s u m' rest) (by simp))
  | clear u f' m' m'' rest here owner dirty frame quiet result =>
    subst result
    refine Or.inl (plain u _ rest _ here (clear_stack dirty) ?_)
    intro g' new
    rw [List.mem_singleton.mp new]
    cases frame <;> first | rfl | cases quiet
  | walk u w rest here result =>
    subst result
    obtain ⟨frames, stack, rfl | ⟨j, -, rfl⟩⟩ :=
      advance_stack s u w 0 (if w.reverse then s.gDirty.reverse else s.gDirty) rest
    · exact Or.inl (plain u _ rest _ here stack (by simp))
    · exact Or.inl (plain u _ rest _ here stack (visits j w _))
  | resume u w k err rest here result =>
    subst result
    obtain ⟨frames, stack, rfl | ⟨j, err', -, rfl⟩⟩ := resume_stack s u w k err rest
    · exact Or.inl (plain u _ rest _ here stack (by simp))
    · exact Or.inl (plain u _ rest _ here stack (visits j w _))
  | call u c here calling result =>
    subst result
    obtain ⟨-, -, -, -, stack⟩ := begin_cache s u c
    rw [stack, Function.update_apply] at member
    split at member
    · rename_i this
      subst this
      cases c with
      | pagecacheSyncSb sb' =>
        have same : sb' = sb := by
          rcases isSync with rfl | ⟨err, rfl⟩
          · simpa [Call.frames, eq_comm] using member
          · simp [Call.frames] at member
        exact Or.inr ⟨sb, by rw [calling, same], by rw [same], on⟩
      | _ =>
        rcases isSync with rfl | ⟨err, rfl⟩
        · simp [Call.frames, writeAndWait] at member
        · simp [Call.frames, writeAndWait] at member
    · exact Or.inl (old member)
  | insert m' f' index free result =>
    subst result
    exact Or.inl (old member)

/-- A mapping on the list was on it before the step, or is linked by it. -/
theorem listed_step (step : Step s event s') (listed : .mapping m ∈ s'.gDirty) :
    .mapping m ∈ s.gDirty ∨ ∃ u rest, event = .run u ∧ s.stack u = .noteDirty m :: rest ∧
      s' = ((s.noteDirty m).markReturns m).goto u rest := by
  have walked : ∀ (s₀ : PageCache) u w err nodes rest, s₀.gDirty.Sublist s.gDirty →
      .mapping m ∈ (s₀.advance u w err nodes rest).gDirty → .mapping m ∈ s.gDirty := by
    intro s₀ u w err nodes rest fewer member
    rcases advance_cases s₀ u w err nodes rest with ⟨-, gDirty, -⟩ | ⟨k, -, gDirty, -⟩
    · rw [gDirty] at member
      exact fewer.subset member
    · rw [gDirty, mem_park] at member
      rcases member with old | ⟨same, -⟩
      · exact fewer.subset old
      · cases same
  cases step with
  | idle same stack =>
    rw [same.gDirty] at listed
    exact Or.inl listed
  | move u here actor moves same stack =>
    rw [same.gDirty] at listed
    exact Or.inl listed
  | mark u f' m' rest here owner running result =>
    subst result
    rw [(folioMarkDirty_cache u rest owner).2.2.1] at listed
    exact Or.inl listed
  | note u m' rest here running result =>
    have noted : .mapping m ∈ (s.noteDirty m').gDirty := by
      rw [result] at listed
      exact listed
    rcases mem_noteDirty.mp noted with old | same
    · exact Or.inl old
    · cases same
      exact Or.inr ⟨u, rest, running, here, result⟩
  | clear u f' m' m'' rest here owner dirty frame quiet result =>
    rw [result, PageCache.clearDirty, dirty, if_pos rfl] at listed
    exact Or.inl listed
  | walk u w rest here result =>
    subst result
    exact Or.inl (walked s u w _ _ rest (List.Sublist.refl _) listed)
  | resume u w k err rest here result =>
    subst result
    rw [PageCache.resume] at listed
    exact Or.inl (walked _ u w _ _ rest (List.erase_sublist.trans (drop_sublist s w k _)) listed)
  | call u c here calling result =>
    subst result
    rw [(begin_cache s u c).2.2.1] at listed
    exact Or.inl listed
  | insert m' f' index free result =>
    subst result
    exact Or.inl listed

theorem not_disturbs_of_wait (actor : event.actor = some t)
    (here : ∃ rest, s.stack t = .waitRange m 0 none :: rest) : ¬ Disturbs s m event := by
  obtain ⟨rest, here⟩ := here
  intro disturbs
  cases disturbs with
  | starts u k f rest' there owner | backendStarts u k f stored rest' there owner
  | records u f err rest' there =>
    cases actor
    rw [here] at there
    cases there

theorem not_disturbs_of_note (running : event = .run u) (here : s.stack u = .noteDirty m :: rest) :
    ¬ Disturbs s m event := by
  subst running
  intro disturbs
  cases disturbs with
  | starts u k f rest' there owner =>
    rw [here] at there
    cases there
  | records u f err rest' there =>
    rw [here] at there
    cases there

theorem awaits_of_noted (here : s.stack u = .noteDirty m :: rest) (awaits : Awaits (s.noteDirty m) t m) :
    Awaits (((s.noteDirty m).markReturns m).goto u rest) t m := by
  obtain ⟨g, member, either⟩ := awaits
  have stack : (s.noteDirty m).stack = s.stack := (noteDirty_cache s m).2.2.2.2
  rw [stack] at member
  rcases mem_or_top here (note_stack s u m rest) member with stays | ⟨-, rfl⟩
  · refine ⟨g, stays, ?_⟩
    rcases either with heads | waits
    · exact Or.inl (heads.keep (fun _ => rfl) (fun _ => OrderKept.of_eq rfl))
    · exact Or.inr waits
  · rcases either with heads | waits
    · exact heads.elim
    · exact waits.elim

/-- Where no mapping is disturbed behind a sync's wait, every step keeps the listed mappings
of a sync awaited or settled. -/
theorem drained_step (drained : Drained s) (happens : s.next event = some s') (meets : Undisturbed s event)
    (counts : Counts s) (walks : Walks s) (shaped : ∀ t, Shaped s (s.stack t)) (tabled : Tabled s) :
    Drained s' := by
  intro t m inside listed'
  have step := next_step counts.unmapped happens
  rcases inSync_step step counts inside with before | ⟨sb, -, rfl, on⟩
  · by_cases listed : Node.mapping m ∈ s.gDirty
    · by_cases disturbs : Disturbs s m event
      · have awaits := meets.disturbs m disturbs t before
        rcases awaits_step step counts walks (shaped t) tabled listed listed' awaits with
          still | ⟨actor, top, -, -⟩
        · exact Or.inl still
        · exact absurd disturbs (not_disturbs_of_wait actor top)
      · have calm := next_calm happens disturbs
        rcases drained t m before listed with awaits | ⟨report, none⟩ | settled
        · rcases awaits_step step counts walks (shaped t) tabled listed listed' awaits with
            still | ⟨-, -, report, none⟩
          · exact Or.inl still
          · exact Or.inr (Or.inl ⟨report, none.calm calm⟩)
        · rcases works_step step counts report rfl with
            stays | ⟨rest, frames, -, -, moves, -⟩ | ⟨k, f, wrong, -⟩
          · exact Or.inr (Or.inl ⟨stays, none.calm calm⟩)
          · cases moves with
            | report k reported => exact Or.inr (Or.inr ⟨none.calm calm, reported⟩)
            | other isReport after => cases isReport
          · cases wrong
        · exact Or.inr (Or.inr (settled.calm calm))
    · rcases listed_step step listed' with old | ⟨u, rest, running, here, result⟩
      · exact absurd old listed
      · have calm := next_calm happens (not_disturbs_of_note running here)
        rcases meets.links u m rest running here listed t before with awaits | settled
        · rw [result]
          exact Or.inl (awaits_of_noted here awaits)
        · exact Or.inr (Or.inr (settled.calm calm))
  · obtain ⟨-, mapping, gDirty, -, stack⟩ := begin_cache s t (.pagecacheSyncSb sb)
    obtain ⟨g, member, heads⟩ := begin_heads (t := t) on
    refine Or.inl ⟨g, ?_, Or.inl (heads.keep ?_ (fun _ => OrderKept.of_eq gDirty))⟩
    · rw [stack, Function.update_self]
      exact member
    · intro n
      rw [mapping]

/-- What a walk drops is settled. -/
theorem Drained.settled (drained : Drained s) (shaped : Shaped s (s.stack t)) {w : Walk} {err : Int}
    (here : s.stack t = .visited w m err :: rest) (pruning : w.prune = true)
    (listed : .mapping m ∈ s.gDirty) : Settled s m := by
  rw [here] at shaped
  obtain ⟨based, selected⟩ := shaped
  rcases based with ⟨-, unpruned⟩ | ⟨sb, -, rfl⟩ | ⟨sb, err', rfl, rfl⟩
  · rw [unpruned] at pruning
    cases pruning
  · cases pruning
  · have on : s.onSb sb m = true := by
      by_contra off
      simp [selects, secondPass, off] at selected
    have inside : InSync s t m := by
      refine ⟨sb, on, .syncDone sb err', ?_, Or.inr ⟨err', rfl⟩⟩
      rw [here]
      exact List.mem_cons_of_mem _ List.mem_cons_self
    rcases drained t m inside listed with ⟨g, member, either⟩ | ⟨report, -⟩ | settled
    · rw [here] at member
      rcases List.mem_cons.mp member with rfl | below
      · rcases either with heads | waits
        · exact absurd rfl heads.1.2.2
        · exact waits.elim
      · rw [List.mem_singleton.mp below] at either
        exact either.elim False.elim False.elim
    · rw [here] at report
      simp at report
    · exact settled

end Waits

/-! ## Runs -/

section Runs

variable {hosts : Nat → Option Host} {s : PageCache}

theorem Reaches.drained (reached : Reaches hosts Undisturbed s) : Drained s := by
  induction reached with
  | start =>
    intro t m inside listed
    cases listed
  | step before meets happens ih =>
    have kept := before.kept
    exact drained_step ih happens meets kept.counts kept.walks kept.shaped kept.tabled

/-- In every run in which no mapping is disturbed behind a sync's wait for it, whatever a
sync drops from the list is clean. -/
theorem dropped_mappings_clean (hosts : Nat → Option Host) (events : List Event)
    (meets : ∀ before event after s, events = before ++ event :: after →
      (empty hosts).run before = some s → Undisturbed s event) : LeavesClean hosts events := by
  intro before event after s s' final t m split reached happens _ _ listed left _
  have reaches : Reaches hosts Undisturbed s := AtSteps.reaches meets split reached
  have kept := reaches.kept
  obtain ⟨u, w, err, rest, -, here, dropped⟩ := leaves_dropped (next_step kept.counts.unmapped happens) listed left
  have pruning : w.prune = true := by
    rw [drops, Bool.and_eq_true, Bool.and_eq_true] at dropped
    exact dropped.1.1
  obtain ⟨noWriteback, reported⟩ := reaches.drained.settled (kept.shaped u) here pruning listed
  refine ⟨?_, noWriteback, reported⟩
  intro f owner
  cases dirty : (s.folio f).dirty with
  | false => rfl
  | true => exact absurd (drops_clean dropped) (Nat.ne_of_gt (kept.counts.positive dirty owner))

/-! ## A run -/

theorem not_inSync (reached : Reaches hosts (fun _ event => ∀ t sb, event ≠ .call t (.pagecacheSyncSb sb)) s)
    (t m : Nat) : ¬ InSync s t m := by
  induction reached with
  | start =>
    rintro ⟨sb, -, g, member, -⟩
    cases member
  | step before meets happens ih =>
    intro inside
    rcases inSync_step (next_step before.kept.counts.unmapped happens) before.kept.counts inside with old | ⟨sb, calling, -⟩
    · exact ih old
    · exact meets t sb calling

/-- The event neither disturbs a mapping nor links one. -/
def quietEvent (s : PageCache) : Event → Bool
  | .run t =>
    match s.stack t with
    | .startWriteback _ _ :: _ | .recordError _ _ _ :: _ | .noteDirty _ :: _ => false
    | _ => true
  | .writeFolio _ .startWriteback => false
  | _ => true

theorem undisturbed_of_quiet {event : Event} (quiet : s.quietEvent event = true) : Undisturbed s event := by
  constructor
  · intro m disturbs
    cases disturbs with
    | starts t k f rest here owner => simp [quietEvent, here] at quiet
    | backendStarts t k f stored rest here owner => simp [quietEvent] at quiet
    | records t f err rest here => simp [quietEvent, here] at quiet
  · rintro t m rest rfl here
    simp [quietEvent, here] at quiet

/-- A thread marks a folio and writes it back. -/
def markAndWrite : List Event :=
  [.insert 0 0 0, .call 0 (.folioMarkDirty 0), .run 0, .run 0, .call 0 (.filemapFdatawriteRange 0 0 none),
    .run 0, .run 0, .run 0, .run 0, .writeFolio 0 (.returns 0), .run 0, .run 0, .run 0, .run 0, .run 0]

/-- The thread syncs. -/
def thenSync : List Event := .call 0 (.pagecacheSyncSb 1) :: List.replicate 13 (.run 0)

/-- A sync that finds a mapping written back drops it, and the mapping is clean. -/
theorem dropped_mappings_clean_written : LeavesClean oneSuperblock (markAndWrite ++ thenSync) ∧
    ((empty oneSuperblock).run markAndWrite).map (fun s => (s.gDirty, s.stack 0)) =
      some ([.mapping 0], []) ∧
    ((empty oneSuperblock).run (markAndWrite ++ thenSync)).map (fun s => (s.gDirty, s.results 0)) =
      some ([], [0]) := by
  have quiet : (((empty oneSuperblock).run markAndWrite).all fun s => passes quietEvent s thenSync) = true := by
    decide
  refine ⟨dropped_mappings_clean oneSuperblock _ ?_, by decide, by decide⟩
  intro before event after s split reached
  rcases List.append_eq_append_iff.mp split with ⟨more, rfl, rest⟩ | ⟨more, first, rest⟩
  · -- The event is one of the sync.
    rw [run_append, Option.bind_eq_some_iff] at reached
    obtain ⟨middle, ran, reached'⟩ := reached
    rw [ran] at quiet
    exact undisturbed_of_quiet (check_of_passes quiet rest reached')
  · -- The event comes before the sync, or is its call.
    have free : Reaches oneSuperblock (fun _ event => ∀ t sb, event ≠ .call t (.pagecacheSyncSb sb)) s := by
      refine reaches_of_run before reached ?_
      rintro before' event' after' s' rfl - t sb rfl
      have member : Event.call t (.pagecacheSyncSb sb) ∈ markAndWrite := by
        rw [first]
        simp
      simp [markAndWrite] at member
    exact ⟨fun m _ t inside => absurd inside (not_inSync free t m),
      fun _ m _ _ _ _ u inside => absurd inside (not_inSync free u m)⟩

/-- A sync writes a folio and waits for it; before its second pass comes to the mapping,
the folio is marked again and the writer thread takes it up. -/
def writtenBehindTheWait : List Event :=
  [.insert 0 0 0, .call 1 (.folioMarkDirty 0), .run 1, .run 1, .call 0 (.pagecacheSyncSb 1), .run 0, .run 0,
    .run 0, .run 0, .run 0, .writeFolio 0 (.returns 0)] ++ List.replicate 11 (.run 0) ++
  [.call 1 (.folioMarkDirty 0), .run 1, .run 1, .call 2 (.writerPass 5), .run 2, .run 2, .run 2, .run 2,
    .run 2, .run 0]

/-- The sync drops the mapping while a folio of it is under writeback, and returns
success. -/
theorem dropped_under_writeback : ¬ LeavesClean oneSuperblock (writtenBehindTheWait ++ [.run 0, .run 0]) := by
  intro leaves
  have facts : ((empty oneSuperblock).run writtenBehindTheWait).map (fun s =>
      (s.gDirty, (s.folio 0).mapping, (s.folio 0).writeback, (s.results 0).length)) =
        some ([.cursor 0, .mapping 0, .cursor 2], some 0, true, 0) := by decide
  have next : (((empty oneSuperblock).run writtenBehindTheWait).bind fun s => s.next (.run 0)).map
      (fun s => s.gDirty) = some [.cursor 2] := by decide
  have final : ((((empty oneSuperblock).run writtenBehindTheWait).bind fun s => s.next (.run 0)).bind
      fun s => s.run [.run 0]).map (fun s => s.results 0) = some [0] := by decide
  rw [Option.map_eq_some_iff] at facts
  obtain ⟨s, reached, fields⟩ := facts
  simp only [Prod.mk.injEq] at fields
  obtain ⟨gDirty, owner, writeback, results⟩ := fields
  rw [reached, Option.bind_some, Option.map_eq_some_iff] at next
  obtain ⟨s', happens, gDirty'⟩ := next
  rw [reached, Option.bind_some, happens, Option.bind_some, Option.map_eq_some_iff] at final
  obtain ⟨last, ran, results'⟩ := final
  have clean := leaves writtenBehindTheWait (.run 0) [.run 0] s s' last 0 0 rfl reached happens ran rfl
    (by rw [gDirty]; simp) (by rw [gDirty']; simp) (by rw [results', results]; rfl)
  rw [clean.written 0 owner] at writeback
  cases writeback

end Runs

end PageCache

end Ttntfs.Pagecache
