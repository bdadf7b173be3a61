import Ttntfs.Pagecache.WritebackFlags

/-!
# A sync waits for the mappings it comes to

A thread in a sync heads for every mapping on the list and then has the wait for it before
it. The wait ends only where no folio of the mapping is under writeback.
-/

namespace Ttntfs.Pagecache

open Ttntfs.Library.CursorWalk

namespace PageCache

/-- The frame waits for the writebacks of the whole mapping. -/
def Waits (m : Nat) : Frame → Prop
  | .thenWait m' first last => m' = m ∧ first = 0 ∧ last = none
  | .waitRange m' first last => m' = m ∧ first = 0 ∧ last = none
  | _ => False

/-- The thread has its wait for the mapping before it. -/
def Awaits (s : PageCache) (t m : Nat) : Prop :=
  ∃ frame ∈ s.stack t, HeadsFor s t m frame ∨ Waits m frame

/-! ## The shape of stacks -/

/-- What is below a walk: nothing, or the pass of a sync that it is. -/
def Based (w : Walk) (rest : List Frame) : Prop :=
  (rest = [] ∧ w.prune = false) ∨ (∃ sb, rest = [.syncLast sb] ∧ w = firstPass sb) ∨
    ∃ sb err, rest = [.syncDone sb err] ∧ w = secondPass sb

/-- The stacks that calls build. -/
def Shaped (s : PageCache) : List Frame → Prop
  | [] => True
  | .walkFrom w :: rest => Based w rest
  | .visited w m _ :: rest => Based w rest ∧ s.selects w (.mapping m) = some m
  | .syncLast _ :: rest => rest = []
  | .syncDone _ _ :: rest => rest = []
  | .waitRange m _ _ :: rest => (∃ rest', rest = .reportWbErr m :: rest') ∧ Shaped s rest
  | _ :: rest => Shaped s rest

section Shape

variable {s s' : PageCache} {event : Event} {t : Nat} {frame : Frame} {rest frames : List Frame}

theorem shaped_of_based {w : Walk} (based : Based w rest) : Shaped s rest := by
  rcases based with ⟨rfl, -⟩ | ⟨sb, rfl, -⟩ | ⟨sb, err, rfl, -⟩
  · trivial
  · rfl
  · rfl

theorem Shaped.below (shaped : Shaped s (frame :: rest)) : Shaped s rest := by
  cases frame with
  | walkFrom w => exact shaped_of_based shaped
  | visited w m err => exact shaped_of_based shaped.1
  | syncLast sb =>
    rw [show rest = [] from shaped]
    trivial
  | syncDone sb err =>
    rw [show rest = [] from shaped]
    trivial
  | waitRange m first last => exact shaped.2
  | _ => exact shaped

theorem Shaped.append (shaped : Shaped s rest) (plain : ∀ g ∈ frames, g.pends = false) :
    Shaped s (frames ++ rest) := by
  induction frames with
  | nil => exact shaped
  | cons g frames ih =>
    have below := ih fun g' member => plain g' (List.mem_cons_of_mem g member)
    have top := plain g List.mem_cons_self
    cases g <;> first | exact below | cases top

theorem Shaped.congr (host : ∀ n, (s'.mapping n).host = (s.mapping n).host) {stack : List Frame}
    (shaped : Shaped s stack) : Shaped s' stack := by
  induction stack with
  | nil => trivial
  | cons frame rest ih =>
    cases frame with
    | visited w m err =>
      refine ⟨shaped.1, ?_⟩
      rw [selects_congr host]
      exact shaped.2
    | walkFrom w => exact shaped
    | syncLast sb => exact shaped
    | syncDone sb err => exact shaped
    | waitRange m first last => exact ⟨shaped.1, ih shaped.2⟩
    | _ => exact ih shaped

theorem Shaped.moves (shaped : Shaped s (frame :: rest)) (moves : Moves s s' frame frames) :
    Shaped s (frames ++ rest) := by
  have below := shaped.below
  cases moves with
  | wait m first last err => exact ⟨⟨_, rfl⟩, below⟩
  | waitMore m first last f => exact shaped
  | secondPass sb err =>
    rw [show rest = [] from shaped]
    exact Or.inr (Or.inr ⟨sb, err, rfl, rfl⟩)
  | other before after => exact below.append after
  | collect | lock | start | clean | further | waited | report | unmapped =>
    exact below.append (by simp [Frame.pends])

theorem shaped_walk {w : Walk} {j : Nat} {err : Int} (based : Based w rest)
    (selected : s.selects w (.mapping j) = some j) :
    Shaped s (s.visitFrames j w.visit ++ [.visited w j err] ++ rest) := by
  have below : Shaped s (.visited w j err :: rest) := ⟨based, selected⟩
  rw [List.append_assoc]
  exact below.append (visitFrames_plain s j w.visit)

/-- Every step keeps the shape of the stacks. -/
theorem shaped_step (step : Step s event s') (counts : Counts s) (shaped : ∀ t, Shaped s (s.stack t)) :
    ∀ t, Shaped s' (s'.stack t) := by
  have host := host_step step
  -- It is enough to look at the thread that moves, with the hosts of before.
  have replaced : ∀ u (stack : List Frame), s'.stack = Function.update s.stack u stack → Shaped s stack →
      ∀ t, Shaped s' (s'.stack t) := by
    intro u stack same new t
    refine Shaped.congr host ?_
    rw [same, Function.update_apply]
    split
    · exact new
    · exact shaped t
  cases step with
  | idle same stack =>
    intro t
    rw [stack]
    exact (shaped t).congr host
  | move u here actor moves same stack =>
    refine replaced u _ stack (Shaped.moves ?_ moves)
    rw [← here]
    exact shaped u
  | mark u f m rest here owner running result =>
    have top := shaped u
    rw [here] at top
    subst result
    obtain ⟨frames, stack, rfl | rfl⟩ := mark_stack counts owner
    · exact replaced u _ stack top
    · exact replaced u _ stack top
  | note u m rest here running result =>
    have top := shaped u
    rw [here] at top
    subst result
    exact replaced u _ (note_stack s u m rest) top
  | clear u f m m' rest here owner dirty frame plain result =>
    have top := shaped u
    rw [here] at top
    subst result
    exact replaced u _ (clear_stack dirty) (top.below.append (by simpa using plain))
  | walk u w rest here result =>
    have top := shaped u
    rw [here] at top
    subst result
    obtain ⟨frames, stack, rfl | ⟨j, selected, rfl⟩⟩ :=
      advance_stack s u w 0 (if w.reverse then s.gDirty.reverse else s.gDirty) rest
    · exact replaced u _ stack top.below
    · exact replaced u _ stack (shaped_walk top selected)
  | resume u w m err rest here result =>
    have top := shaped u
    rw [here] at top
    subst result
    obtain ⟨frames, stack, rfl | ⟨j, err', selected, rfl⟩⟩ := resume_stack s u w m err rest
    · exact replaced u _ stack top.below
    · exact replaced u _ stack (shaped_walk top.1 selected)
  | call u c here calling result =>
    subst result
    obtain ⟨-, -, -, -, stack⟩ := begin_cache s u c
    refine replaced u _ stack ?_
    cases c with
    | pagecacheSyncSb sb => exact Or.inr (Or.inl ⟨sb, rfl, rfl⟩)
    | writerPass cutoff => exact Or.inl ⟨rfl, rfl⟩
    | filemapFdatawaitRange m first last => exact ⟨⟨[], rfl⟩, trivial⟩
    | _ => trivial
  | insert m f index free result =>
    subst result
    exact fun t => (shaped t).congr host

end Shape

/-- The folios of a mapping are in its table. -/
def Tabled (s : PageCache) : Prop := ∀ m f, (s.folio f).mapping = some m → f ∈ (s.mapping m).pages

section Waits

variable {s s' : PageCache} {event : Event} {t u m : Nat} {g frame : Frame} {rest frames : List Frame}

/-- Folios join a mapping and its table together. -/
theorem tabled_step (step : Step s event s') (tabled : Tabled s) : Tabled s' := by
  have kept : s'.folio = s.folio → s'.mapping = s.mapping → Tabled s' := by
    intro folio mapping n f
    rw [folio, mapping]
    exact tabled n f
  intro n f owner
  cases step with
  | idle same stack | move u here actor moves same stack =>
    rw [same.owner] at owner
    rw [same.pages]
    exact tabled n f owner
  | mark u f' m' rest here owner' running result =>
    subst result
    obtain ⟨folio, mapping, -, -⟩ := folioMarkDirty_cache u rest owner'
    rw [folio, (setDirty_folio (s := s) (m := m') (f := f') f).1] at owner
    rw [mapping, setDirty]
    split
    · exact tabled n f owner
    · rw [modifyMapping_mapping]
      split
      · rename_i same
        rw [same] at owner
        exact tabled m' f owner
      · exact tabled n f owner
  | note u m' rest here running result =>
    subst result
    obtain ⟨folio, mapping, -⟩ := noteDirty_cache s m'
    exact kept folio mapping n f owner
  | clear u f' m' m'' rest here owner' dirty frame plain result =>
    subst result
    have before : (s.folio f).mapping = some n := by
      by_cases same : f = f'
      · subst same
        rw [PageCache.clearDirty, dirty, if_pos rfl] at owner
        have field := modifyFolio_folio s f f fun folio => { folio with dirty := false }
        rw [if_pos rfl] at field
        exact (congrArg Folio.mapping field).symm.trans owner
      · exact (congrArg Folio.mapping (clearDirty_folio (s := s) (m := m') same)).symm.trans owner
    rw [PageCache.clearDirty, dirty, if_pos rfl]
    have field := modifyMapping_mapping (s.modifyFolio f' fun folio => { folio with dirty := false }) m' n
      fun mapping => { mapping with dirty := mapping.dirty.erase f', nrdirty := mapping.nrdirty - 1 }
    have pages : _ = (s.mapping n).pages := (congrArg Mapping.pages field).trans (by
      split
      · rename_i same
        rw [same]
        rfl
      · rfl)
    exact pages ▸ tabled n f before
  | walk u w rest here result =>
    subst result
    obtain ⟨folio, mapping, -⟩ :=
      advance_cache s u w 0 (if w.reverse then s.gDirty.reverse else s.gDirty) rest
    exact kept folio mapping n f owner
  | resume u w k err rest here result =>
    subst result
    obtain ⟨folio, mapping, -⟩ := resume_cache s u w k err rest
    exact kept folio mapping n f owner
  | call u c here calling result =>
    subst result
    obtain ⟨folio, mapping, -⟩ := begin_cache s u c
    exact kept folio mapping n f owner
  | insert m' f' index free result =>
    subst result
    have folio := modifyFolio_folio s f' f fun _ => freshFolio m' index
    have old : f ≠ f' → (s.folio f).mapping = some n := by
      intro other
      rw [if_neg other] at folio
      exact (congrArg Folio.mapping folio).symm.trans owner
    rw [modifyMapping_mapping]
    split
    · rename_i same
      subst same
      by_cases this : f = f'
      · rw [this]
        exact List.mem_append_right _ (List.mem_singleton_self f')
      · exact List.mem_append_left _ (tabled n f (old this))
    · rename_i other
      refine tabled n f (old ?_)
      rintro rfl
      rw [if_pos rfl] at folio
      have joined : some m' = some n := (congrArg Folio.mapping folio).symm.trans owner
      exact other (Option.some.inj joined).symm

theorem noWriteback_of_scan (tabled : Tabled s) (none : s.waitVictim m 0 none = none) :
    NoWriteback s m := by
  intro f owner
  rw [waitVictim, List.find?_eq_none] at none
  have passed := none f (tabled m f owner)
  simpa [inRange] using passed

theorem Waits.works (waits : Waits m frame) : frame.works = true := by
  cases frame <;> first | rfl | exact waits.elim

/-- A sync that has its wait for a listed mapping before it still has it behind the step,
or the step is the end of that wait. -/
theorem awaits_step (step : Step s event s') (counts : Counts s) (walks : Walks s)
    (shaped : Shaped s (s.stack t)) (tabled : Tabled s) (listed : .mapping m ∈ s.gDirty)
    (kept : .mapping m ∈ s'.gDirty) (awaits : Awaits s t m) :
    Awaits s' t m ∨ event.actor = some t ∧ (∃ rest, s.stack t = .waitRange m 0 none :: rest) ∧
      .reportWbErr m ∈ s'.stack t ∧ NoWriteback s m := by
  obtain ⟨g, member, heads | waits⟩ := awaits
  · refine Or.inl ?_
    rcases heads_step step counts walks listed kept member heads with ⟨below, called⟩ | ⟨g', inside, heads'⟩
    · exact ⟨.thenWait m 0 none, by simp [called, writeAndWait], Or.inr ⟨rfl, rfl, rfl⟩⟩
    · exact ⟨g', inside, Or.inl heads'⟩
  · rcases works_step step counts member waits.works with
      stays | ⟨rest, frames, actor, here, moves, stack⟩ | ⟨k, f, rfl, -⟩
    · exact Or.inl ⟨g, stays, Or.inr waits⟩
    · cases moves with
      | wait m' first last err =>
        refine Or.inl ⟨.waitRange m' first last, ?_, Or.inr waits⟩
        rw [stack]
        exact List.mem_cons_self
      | waitMore m' first last f =>
        refine Or.inl ⟨.waitRange m' first last, ?_, Or.inr waits⟩
        rw [stack]
        exact List.mem_cons_of_mem _ List.mem_cons_self
      | waited m' first last none =>
        obtain ⟨rfl, rfl, rfl⟩ := waits
        rw [here] at shaped
        obtain ⟨⟨rest', rfl⟩, -⟩ := shaped
        refine Or.inr ⟨actor, ⟨_, here⟩, ?_, noWriteback_of_scan tabled none⟩
        rw [stack]
        exact List.mem_cons_self
      | other before after => cases g <;> first | exact waits.elim | cases before
      | collect | lock | start | clean | further | report | unmapped | secondPass => exact waits.elim
    · exact waits.elim

end Waits

end PageCache

end Ttntfs.Pagecache
