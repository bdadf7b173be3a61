import Mathlib.Data.List.Induction
import Ttntfs.Pagecache.SyncAttempts

/-!
# The list of dirty mappings is complete

Only the mark that takes a mapping from no dirty folio to one notes the mapping, and it
does so in a section of its own. A mark by another thread between the two finds a dirty
folio, trusts that the mapping is listed and returns: then the mapping is not listed, and
a sync of that thread passes the folio by. Where no mark falls between the two, a mapping
is listed whenever a mark has returned. A sync then comes to every folio that was dirty
when it began, and `write_folio` has stored the folio when the sync ends, as long as what
`write_folio` fails to store or hands back is left to the attempts of the sync.
-/

namespace Ttntfs.Pagecache

open Ttntfs.Library.CursorWalk

namespace PageCache

/-- A mapping that a mark has returned for is listed for as long as it has a dirty folio. -/
def Listed (s : PageCache) : Prop := ∀ m, s.owed m = true → .mapping m ∈ s.gDirty

/-- The list is complete: it holds the mappings that marks have returned for, and when a sync is at
its end, `write_folio` has stored every folio that the sync had to write since it began. -/
structure Complete (s : PageCache) : Prop where
  listed : Listed s
  written : ∀ t sb err f, s.stack t = [.syncDone sb err] → s.unwritten t f = false

/-- No thread is about to link a mapping with dirty folios into the list when another
marks a folio of it. -/
def NoLinkPending (s : PageCache) (event : Event) : Prop :=
  ∀ t f m rest, event = .run t → s.stack t = .markDirty f :: rest → (s.folio f).mapping = some m →
    0 < (s.mapping m).nrdirty → ∀ u, .noteDirty m ∈ s.stack u → .mapping m ∈ s.gDirty

/-- No sync drops a mapping with a folio under writeback that a sync must write. -/
def DropsSettled (s : PageCache) (event : Event) : Prop :=
  ∀ t w m err rest, event = .run t → s.stack t = .visited w m err :: rest → s.drops w m (s.ret t).1 = true →
    ∀ f, (s.folio f).mapping = some m → (s.folio f).writeback = true → ∀ u, s.unwritten u f = false

/-- What a step must not do for syncs to write what they have to. -/
structure Careful (s : PageCache) (event : Event) : Prop where
  links : NoLinkPending s event
  stores : StoresOrLeaves s event
  tries : TriesAgain s event
  ends : EndsOwn s event
  drops : DropsSettled s event

/-- A mapping that a mark has returned for has a dirty folio and is listed. -/
def Owed (s : PageCache) : Prop :=
  ∀ m, s.owed m = true → 0 < (s.mapping m).nrdirty ∧ .mapping m ∈ s.gDirty

/-- Every folio that a sync has to write is dirty and the sync has yet to come to it, or it is in
flight and the sync waits for its mapping. -/
def Covered (s : PageCache) : Prop :=
  ∀ t f, s.unwritten t f = true → ∃ m, (s.folio f).mapping = some m ∧ .mapping m ∈ s.gDirty ∧
    ((s.folio f).dirty = true ∧ Leads s t m f ∨ Awaits s t m ∧ ∃ w, InFlight s f w)

/-! ## Steps -/

section Steps

variable {s s' : PageCache} {event : Event} {t u m f : Nat} {frame : Frame} {rest frames : List Frame}

theorem clearDirty_owed (dirty : (s.folio f).dirty = true) {n : Nat}
    (owed : (s.clearDirty m f).1.owed n = true) :
    s.owed n = true ∧ (n = m → ((s.clearDirty m f).1.mapping m).nrdirty ≠ 0) := by
  rw [PageCache.clearDirty, dirty, if_pos rfl] at owed ⊢
  simp only [Bool.and_eq_true, Bool.not_eq_true', Bool.and_eq_false_iff, decide_eq_false_iff_not] at owed
  refine ⟨owed.1, fun same => ?_⟩
  rcases owed.2 with other | positive
  · exact absurd same other
  · exact positive

theorem clearDirty_other {n : Nat} (other : n ≠ m) : (s.clearDirty m f).1.mapping n = s.mapping n := by
  rw [PageCache.clearDirty]
  split
  · have field := modifyMapping_mapping (s.modifyFolio f fun folio => { folio with dirty := false }) m n
      fun mapping => { mapping with dirty := mapping.dirty.erase f, nrdirty := mapping.nrdirty - 1 }
    rw [if_neg other] at field
    exact field
  · rfl

theorem setDirty_grows {n : Nat} (positive : 0 < (s.mapping n).nrdirty) :
    0 < ((s.setDirty m f).1.mapping n).nrdirty := by
  rw [PageCache.setDirty]
  split
  · exact positive
  · rw [modifyMapping_mapping]
    split
    · exact Nat.succ_pos _
    · exact positive

/-- Where no link is pending, every step keeps what is owed listed. -/
theorem Owed.step (owed : Owed s) (step : Step s event s') (counts : Counts s) (noted : Noted s)
    (meets : NoLinkPending s event) : Owed s' := by
  intro n due
  cases step with
  | idle same stack | move t here actor moves same stack =>
    rw [same.owed] at due
    rw [same.count, same.gDirty]
    exact owed n due
  | mark t f m rest here owner running result =>
    subst result
    obtain ⟨-, mapping, gDirty, -⟩ := folioMarkDirty_cache t rest owner
    rw [mapping, gDirty]
    rcases folioMarkDirty_cases counts t rest owner with ⟨-, -, same⟩ | ⟨dirty, -, same⟩
    · rw [same] at due
      exact ⟨setDirty_grows (owed n due).1, (owed n due).2⟩
    · rw [same, Bool.or_eq_true, decide_eq_true_eq] at due
      rcases due with old | rfl
      · exact ⟨setDirty_grows (owed n old).1, (owed n old).2⟩
      · refine ⟨setDirty_grows dirty, ?_⟩
        rcases noted n dirty with listed | ⟨u, pending⟩
        · exact listed
        · exact meets t f n rest running here owner dirty u pending
  | note t m rest here running result =>
    subst result
    obtain ⟨-, mapping, same, -, -⟩ := noteDirty_cache s m
    change ((s.noteDirty m).owed n || decide (n = m) && decide (0 < ((s.noteDirty m).mapping m).nrdirty)) =
      true at due
    change 0 < ((s.noteDirty m).mapping n).nrdirty ∧ Node.mapping n ∈ (s.noteDirty m).gDirty
    rw [same, mapping] at due
    rw [mapping, mem_noteDirty]
    simp only [Bool.or_eq_true, Bool.and_eq_true, decide_eq_true_eq] at due
    rcases due with old | ⟨rfl, positive⟩
    · exact ⟨(owed n old).1, Or.inl (owed n old).2⟩
    · exact ⟨positive, Or.inr rfl⟩
  | clear t f m m' rest here owner dirty frame plain result =>
    subst result
    obtain ⟨old, left⟩ := clearDirty_owed dirty due
    have listed : Node.mapping n ∈ ((s.clearDirty m f).1.goto t (frame :: rest)).gDirty := by
      rw [PageCache.clearDirty, dirty, if_pos rfl]
      exact (owed n old).2
    refine ⟨?_, listed⟩
    by_cases same : n = m
    · rw [same]
      exact Nat.pos_of_ne_zero (left same)
    · have kept := clearDirty_other (s := s) (f := f) same
      exact Nat.lt_of_lt_of_eq (owed n old).1 (congrArg Mapping.nrdirty kept.symm)
  | walk t w rest here result =>
    subst result
    obtain ⟨-, mapping, same, -⟩ :=
      advance_cache s t w 0 (if w.reverse then s.gDirty.reverse else s.gDirty) rest
    rw [same] at due
    rw [mapping]
    exact ⟨(owed n due).1, mem_advance (owed n due).2⟩
  | resume t w m err rest here result =>
    subst result
    obtain ⟨-, mapping, same, -⟩ := resume_cache s t w m err rest
    rw [same] at due
    rw [mapping]
    refine ⟨(owed n due).1, mem_resume (owed n due).2 ?_⟩
    rintro dropped rfl
    exact absurd (drops_clean dropped) (Nat.ne_of_gt (owed n due).1)
  | call t c here calling result =>
    subst result
    obtain ⟨-, mapping, gDirty, same, -⟩ := begin_cache s t c
    rw [same] at due
    rw [mapping, gDirty]
    exact owed n due
  | insert m f index free result =>
    subst result
    refine ⟨?_, (owed n due).2⟩
    rw [modifyMapping_mapping]
    split
    · rename_i same
      rw [same] at due
      exact (owed m due).1
    · exact (owed n due).1

/-- A folio that a sync has to write was one before the step, or the sync begins. -/
theorem unwritten_step (step : Step s event s') (unwritten : s'.unwritten t f = true) :
    (∃ sb, s' = s.begin t (.pagecacheSyncSb sb) ∧ s.mustWrite sb f = true) ∨ s.unwritten t f = true := by
  cases step with
  | idle same stack => exact Or.inr (same.unwritten t f unwritten)
  | move u here actor moves same stack => exact Or.inr (same.unwritten t f unwritten)
  | mark u f' m' rest here owner running result =>
    subst result
    obtain ⟨-, -, -, same⟩ := folioMarkDirty_cache u rest owner
    rw [same] at unwritten
    exact Or.inr unwritten
  | note u m' rest here running result =>
    subst result
    obtain ⟨-, -, -, same, -⟩ := noteDirty_cache s m'
    change (s.noteDirty m').unwritten t f = true at unwritten
    rw [same] at unwritten
    exact Or.inr unwritten
  | clear u f' m' m'' rest here owner dirty frame plain result =>
    rw [result, PageCache.clearDirty, dirty, if_pos rfl] at unwritten
    exact Or.inr unwritten
  | walk u w rest here result =>
    subst result
    obtain ⟨-, -, -, same⟩ := advance_cache s u w 0 (if w.reverse then s.gDirty.reverse else s.gDirty) rest
    rw [same] at unwritten
    exact Or.inr unwritten
  | resume u w k err rest here result =>
    subst result
    obtain ⟨-, -, -, same⟩ := resume_cache s u w k err rest
    rw [same] at unwritten
    exact Or.inr unwritten
  | call u c here calling result =>
    subst result
    cases c with
    | pagecacheSyncSb sb =>
      by_cases same : t = u
      · subst same
        exact Or.inl ⟨sb, rfl, by simpa [PageCache.begin] using unwritten⟩
      · exact Or.inr (by simpa [PageCache.begin, Function.update_of_ne same] using unwritten)
    | _ => exact Or.inr unwritten
  | insert m' f' index free result =>
    subst result
    exact Or.inr unwritten

/-- A dirty folio stays dirty, or a thread that writes it clears it. -/
theorem dirty_step (step : Step s event s') (counts : Counts s) (dirty : (s.folio f).dirty = true) :
    (s'.folio f).dirty = true ∨ ∃ u k rest, event = .run u ∧ s.stack u = .clearDirtyForIo k f :: rest := by
  have kept : s'.folio = s.folio → (s'.folio f).dirty = true := by
    intro same
    rw [same]
    exact dirty
  cases step with
  | idle same stack => exact Or.inl ((same.dirty f).trans dirty)
  | move u here actor moves same stack => exact Or.inl ((same.dirty f).trans dirty)
  | mark u f' m' rest here owner running result =>
    subst result
    rw [(folioMarkDirty_cache u rest owner).1]
    exact Or.inl ((setDirty_folio (s := s) (m := m') (f := f') f).2 dirty)
  | note u m' rest here running result =>
    subst result
    exact Or.inl (kept (noteDirty_cache s m').1)
  | clear u f' m' m'' rest here owner dirty frame plain result running =>
    by_cases this : f = f'
    · subst this
      exact Or.inr ⟨u, m'', rest, running, here⟩
    · subst result
      exact Or.inl ((congrArg Folio.dirty (clearDirty_folio (s := s) (m := m') this)).trans ‹_›)
  | walk u w rest here result =>
    subst result
    exact Or.inl (kept (advance_cache s u w 0 (if w.reverse then s.gDirty.reverse else s.gDirty) rest).1)
  | resume u w k err rest here result =>
    subst result
    exact Or.inl (kept (resume_cache s u w k err rest).1)
  | call u c here calling result =>
    subst result
    exact Or.inl (kept (begin_cache s u c).1)
  | insert m' f' index free result =>
    subst result
    have other : f ≠ f' := by
      rintro rfl
      rw [counts.unmapped f free] at dirty
      cases dirty
    have folio := (modifyFolio_folio s f' f fun _ => freshFolio m' index).trans (if_neg other)
    exact Or.inl ((congrArg Folio.dirty folio).trans dirty)

/-- A mapping leaves the list where a walk drops it. -/
theorem leaves_dropped (step : Step s event s') (listed : .mapping m ∈ s.gDirty)
    (left : .mapping m ∉ s'.gDirty) : ∃ t w err rest, event = .run t ∧ s.stack t = .visited w m err :: rest ∧
      s.drops w m (s.ret t).1 = true := by
  cases step with
  | idle same stack => exact absurd (same.gDirty ▸ listed) left
  | move u here actor moves same stack => exact absurd (same.gDirty ▸ listed) left
  | mark u f' m' rest here owner running result =>
    subst result
    rw [(folioMarkDirty_cache u rest owner).2.2.1] at left
    exact absurd listed left
  | note u m' rest here running result =>
    subst result
    exact absurd (mem_noteDirty.mpr (Or.inl listed)) left
  | clear u f' m' m'' rest here owner dirty frame quiet result =>
    rw [result, PageCache.clearDirty, dirty, if_pos rfl] at left
    exact absurd listed left
  | walk u w rest here result =>
    subst result
    exact absurd (mem_advance listed) left
  | resume u w k err rest here result running =>
    subst result
    by_cases dropped : s.drops w k (s.ret u).1 = true ∧ m = k
    · obtain ⟨drops, rfl⟩ := dropped
      exact ⟨u, w, err, rest, running, here, drops⟩
    · exact absurd (mem_resume listed fun drops same => dropped ⟨drops, same⟩) left
  | call u c here calling result =>
    subst result
    rw [(begin_cache s u c).2.2.1] at left
    exact absurd listed left
  | insert m' f' index free result =>
    subst result
    exact absurd listed left

theorem Covered.begin (owed : Owed s) {sb : Nat} (must : s.mustWrite sb f = true) :
    ∃ m, (s.folio f).mapping = some m ∧ (s.folio f).dirty = true ∧ .mapping m ∈ s.gDirty ∧
      ∃ g ∈ Call.frames (.pagecacheSyncSb sb), HeadsFor s t m g := by
  rw [mustWrite] at must
  cases owner : (s.folio f).mapping with
  | none =>
    rw [owner] at must
    cases must
  | some m =>
    rw [owner] at must
    simp only [Bool.and_eq_true] at must
    obtain ⟨⟨dirty, due⟩, on⟩ := must
    exact ⟨m, rfl, dirty, (owed m due).2, begin_heads on⟩

/-- The bookkeeping of every run: what is dirty, what is listed, and where the threads are. -/
structure Kept (s : PageCache) : Prop where
  counts : Counts s
  walks : Walks s
  noted : Noted s
  shaped : ∀ t, Shaped s (s.stack t)
  tabled : Tabled s

/-- Every careful step keeps a sync on its way to the folios it has to write. -/
theorem Covered.step (covered : Covered s) (kept : Kept s) (owed : Owed s) (writing : ∀ t, Writing s t (s.stack t))
    (careful : Careful s event) (happens : s.next event = some s') : Covered s' := by
  intro t f unwritten
  have step := next_step kept.counts.unmapped happens
  rcases unwritten_step step unwritten with ⟨sb, rfl, must⟩ | due
  · obtain ⟨folio, mapping, gDirty, -, stack⟩ := begin_cache s t (.pagecacheSyncSb sb)
    obtain ⟨m, owner, dirty, listed, g, member, heads⟩ := Covered.begin (t := t) owed must
    have host : ∀ n, ((s.begin t (.pagecacheSyncSb sb)).mapping n).host = (s.mapping n).host := by
      intro n
      rw [mapping]
    refine ⟨m, by rw [folio, owner], by rw [gDirty]; exact listed, Or.inl ⟨by rw [folio, dirty], Or.inl ⟨g, ?_, ?_⟩⟩⟩
    · rw [stack, Function.update_self]
      exact member
    · exact heads.keep host fun _ => OrderKept.of_eq gDirty
  obtain ⟨m, owner, listed, state⟩ := covered t f due
  have owner' : (s'.folio f).mapping = some m := by
    obtain ⟨u, other⟩ : ∃ u, event.actor ≠ some u := by
      cases event.actor with
      | none => exact ⟨0, by simp⟩
      | some u => exact ⟨u + 1, by simp⟩
    exact ((next_writing kept.counts writing careful.ends happens).2 u other).owner f m owner
  have listed' : .mapping m ∈ s'.gDirty := by
    by_contra left
    obtain ⟨u, w, err, rest, running, here, dropped⟩ := leaves_dropped step listed left
    rcases state with ⟨dirty, -⟩ | ⟨-, v, -, -, on⟩
    · exact absurd (drops_clean dropped) (Nat.ne_of_gt (kept.counts.positive dirty owner))
    · rw [careful.drops u w m err rest running here dropped f owner on t] at due
      cases due
  have awaited (awaits : Awaits s t m) :=
    awaits_step step kept.counts kept.walks (kept.shaped t) kept.tabled listed listed' awaits
  have leading (dirty : (s.folio f).dirty = true) (leads : Leads s t m f) :
      (s'.folio f).dirty = true ∧ Leads s' t m f ∨ Awaits s' t m ∧ ∃ w, InFlight s' f w := by
    rcases dirty_step step kept.counts dirty with still | ⟨w, k, rest, rfl, here⟩
    · exact Or.inl ⟨still, leads.next kept.counts kept.walks listed listed' owner dirty still due unwritten
        careful.stores careful.tries happens⟩
    · refine Or.inr ⟨?_, w, clear_inFlight (writing w) here dirty happens⟩
      rcases awaited leads.awaits with still | ⟨actor, ⟨rest', top⟩, -, -⟩
      · exact still
      · cases actor
        rw [here] at top
        cases top
  refine ⟨m, owner', listed', ?_⟩
  rcases state with ⟨dirty, leads⟩ | ⟨awaits, w, flight⟩
  · exact leading dirty leads
  rcases flight.next kept.counts writing careful.ends careful.stores owner due happens with
    still | stored | ⟨dirty, leads⟩
  · rcases awaited awaits with waits | ⟨-, -, -, quiet⟩
    · exact Or.inr ⟨waits, w, still⟩
    · -- The wait does not end while the folio is in flight.
      have on := flight.2.2
      rw [quiet f owner] at on
      cases on
  · rw [stored] at unwritten
    cases unwritten
  · exact leading dirty leads

end Steps

/-! ## Runs -/

section Runs

variable {hosts : Nat → Option Host} {s s' : PageCache} {event : Event}

theorem counts_empty : Counts (empty hosts) := by
  constructor
  · exact fun _ => rfl
  · intro m f
    constructor
    · intro member
      cases member
    · intro dirty
      cases dirty.1
  · exact fun _ => List.nodup_nil
  · exact fun _ _ => rfl

theorem walks_empty : Walks (empty hosts) := by
  constructor
  · exact List.nodup_nil
  · intro t member
    cases member
  · exact fun _ => List.Pairwise.nil

theorem kept_empty : Kept (empty hosts) := by
  refine ⟨counts_empty, walks_empty, ?_, fun _ => trivial, ?_⟩
  · intro m positive
    exact absurd positive (Nat.lt_irrefl 0)
  · intro m f owner
    cases owner

/-- Every state that is reached keeps its books. -/
theorem Reaches.kept {condition : PageCache → Event → Prop} (reached : Reaches hosts condition s) : Kept s := by
  induction reached with
  | start => exact kept_empty
  | step before meets happens ih =>
    have step := next_step ih.counts.unmapped happens
    exact ⟨ih.counts.step step, ih.walks.step step ih.counts, ih.noted.step step ih.counts,
      shaped_step step ih.counts ih.shaped, tabled_step step ih.tabled⟩

theorem Reaches.owed {condition : PageCache → Event → Prop}
    (links : ∀ s event, condition s event → NoLinkPending s event) (reached : Reaches hosts condition s) : Owed s := by
  induction reached with
  | start =>
    intro m due
    cases due
  | @step s s' event before meets happens ih =>
    exact ih.step (next_step before.kept.counts.unmapped happens) before.kept.counts before.kept.noted (links s event meets)

/-- In careful runs, syncs are on their way to what they have to write. -/
theorem Reaches.covered (reached : Reaches hosts Careful s) :
    (∀ t, Writing s t (s.stack t)) ∧ Covered s := by
  induction reached with
  | start =>
    refine ⟨fun t => .quiet (by simp [empty]), ?_⟩
    intro t f unwritten
    cases unwritten
  | step before meets happens ih =>
    obtain ⟨writing, covered⟩ := ih
    have owed := before.owed fun _ _ careful => careful.links
    exact ⟨(next_writing before.kept.counts writing meets.ends happens).1,
      covered.step before.kept owed writing meets happens⟩

theorem Owed.listed (owed : Owed s) : Listed s := fun m due => (owed m due).2

theorem Reaches.complete (reached : Reaches hosts Careful s) : Complete s := by
  refine ⟨(reached.owed fun _ _ careful => careful.links).listed, ?_⟩
  intro t sb err f ending
  cases unwritten : s.unwritten t f with
  | false => rfl
  | true =>
    obtain ⟨m, -, -, state⟩ := reached.covered.2 t f unwritten
    -- A thread at the end of its sync waits for nothing.
    have awaits : Awaits s t m := by
      rcases state with ⟨-, leads⟩ | ⟨awaits, -⟩
      · exact leads.awaits
      · exact awaits
    obtain ⟨frame, member, either⟩ := awaits
    rw [ending, List.mem_singleton] at member
    subst member
    exact either.elim False.elim False.elim

/-- A run in two parts. -/
theorem run_append (s : PageCache) (before after : List Event) :
    s.run (before ++ after) = (s.run before).bind fun s' => s'.run after := by
  induction before generalizing s with
  | nil => rfl
  | cons event before ih =>
    rw [List.cons_append, run, run]
    cases s.next event with
    | none => rfl
    | some s' => exact ih s'

/-- A run whose steps all meet a condition reaches its states under the condition. -/
theorem reaches_of_run {condition : PageCache → Event → Prop} (events : List Event)
    (ran : (empty hosts).run events = some s)
    (meets : ∀ before event after s, events = before ++ event :: after →
      (empty hosts).run before = some s → condition s event) : Reaches hosts condition s := by
  induction events using List.reverseRecOn generalizing s with
  | nil =>
    cases ran
    exact .start
  | append_singleton events event ih =>
    rw [run_append, Option.bind_eq_some_iff] at ran
    obtain ⟨middle, first, last⟩ := ran
    rw [run, Option.bind_eq_some_iff] at last
    obtain ⟨s', happens, ended⟩ := last
    cases ended
    have reached := ih first fun before event' after s'' split =>
      meets before event' (after ++ [event]) s'' (by rw [split]; simp)
    exact .step reached (meets events event [] middle rfl first) happens

/-- The steps of a run all meet a condition. -/
def AtSteps (hosts : Nat → Option Host) (events : List Event) (condition : PageCache → Event → Prop) : Prop :=
  ∀ before event after s, events = before ++ event :: after → (empty hosts).run before = some s → condition s event

theorem AtSteps.reaches {condition : PageCache → Event → Prop} {events before after : List Event}
    (meets : AtSteps hosts events condition) (split : events = before ++ after)
    (reached : (empty hosts).run before = some s) : Reaches hosts condition s := by
  refine reaches_of_run before reached ?_
  intro before' event' after' s' split'
  exact meets before' event' (after' ++ after) s' (by rw [split, split']; simp)

/-- The steps of a run, from a state on, all pass a check. -/
def passes (check : PageCache → Event → Bool) (s : PageCache) : List Event → Bool
  | [] => true
  | event :: events => check s event && (s.next event).all fun s' => passes check s' events

theorem check_of_passes {check : PageCache → Event → Bool} {events before after : List Event}
    (passed : passes check s events = true) (split : events = before ++ event :: after)
    (reached : s.run before = some s') : check s' event = true := by
  induction before generalizing s events with
  | nil =>
    cases reached
    rw [split, List.nil_append, passes, Bool.and_eq_true] at passed
    exact passed.1
  | cons first before ih =>
    rw [run, Option.bind_eq_some_iff] at reached
    obtain ⟨middle, happens, rest⟩ := reached
    rw [split, List.cons_append, passes, happens, Bool.and_eq_true] at passed
    exact ih passed.2 rfl rest

/-- One superblock with the mappings of one file each. -/
def oneSuperblock : Nat → Option Host := fun m => some { ino := m + 5, sb := 1 }

end Runs

end PageCache

end Ttntfs.Pagecache
