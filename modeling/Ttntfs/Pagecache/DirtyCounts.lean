import Ttntfs.Pagecache.CacheSteps

/-!
# The bookkeeping of dirty folios and of walks

Three invariants of every run: the dirty list of a mapping holds the folios of the mapping
that are dirty, each once, and `nrdirty` is its length; the list of dirty mappings holds
no node twice, and a cursor only while its thread is in a walk; a mapping with dirty
folios is listed, or a thread is about to note it.
-/

namespace Ttntfs.Pagecache

open Ttntfs.Library.CursorWalk

namespace PageCache

/-- The dirty lists agree with the flags. -/
structure Counts (s : PageCache) : Prop where
  counted : ∀ m, (s.mapping m).nrdirty = (s.mapping m).dirty.length
  member : ∀ m f, f ∈ (s.mapping m).dirty ↔ (s.folio f).dirty = true ∧ (s.folio f).mapping = some m
  nodup : ∀ m, (s.mapping m).dirty.Nodup
  unmapped : ∀ f, (s.folio f).mapping = none → (s.folio f).dirty = false

/-- Cursors stand for walks, and no walk is begun within a walk. -/
structure Walks (s : PageCache) : Prop where
  nodup : s.gDirty.Nodup
  cursors : ∀ t, .cursor t ∈ s.gDirty → ∃ w m err, .visited w m err ∈ s.stack t
  nested : ∀ t, (s.stack t).Pairwise fun frame below => frame.bearsWalk = true → below.isWalk = false

/-- A mapping with dirty folios is listed, or a thread is about to note it. -/
def Noted (s : PageCache) : Prop :=
  ∀ m, 0 < (s.mapping m).nrdirty → .mapping m ∈ s.gDirty ∨ ∃ t, .noteDirty m ∈ s.stack t

section Counts

variable {s s' : PageCache} {event : Event} {m f : Nat}

theorem Counts.positive (counts : Counts s) (dirty : (s.folio f).dirty = true)
    (owner : (s.folio f).mapping = some m) : 0 < (s.mapping m).nrdirty := by
  rw [counts.counted]
  exact List.length_pos_of_mem ((counts.member m f).mpr ⟨dirty, owner⟩)

theorem Counts.congr (counts : Counts s) (folio : s'.folio = s.folio) (mapping : s'.mapping = s.mapping) :
    Counts s' := by
  constructor
  · intro m
    rw [mapping]
    exact counts.counted m
  · intro m f
    rw [mapping, folio]
    exact counts.member m f
  · intro m
    rw [mapping]
    exact counts.nodup m
  · intro f
    rw [folio]
    exact counts.unmapped f

theorem Counts.same (counts : Counts s) (same : SameDirty s s') : Counts s' := by
  constructor
  · intro m
    rw [same.count, same.list]
    exact counts.counted m
  · intro m f
    rw [same.list, same.dirty, same.owner]
    exact counts.member m f
  · intro m
    rw [same.list]
    exact counts.nodup m
  · intro f
    rw [same.owner, same.dirty]
    exact counts.unmapped f

theorem setDirty_of_clean (clean : (s.folio f).dirty = false) :
    s.setDirty m f = ((s.modifyFolio f fun folio =>
      { folio with dirty := true, dirtiedAt := s.now }).modifyMapping m fun mapping =>
        { mapping with dirty := mapping.dirty ++ [f], nrdirty := mapping.nrdirty + 1 }, true) := by
  rw [setDirty, clean, if_neg Bool.false_ne_true]

theorem setDirty_of_dirty (dirty : (s.folio f).dirty = true) : s.setDirty m f = (s, false) := by
  rw [setDirty, dirty, if_pos rfl]

/-- Marking a clean folio keeps the bookkeeping. -/
theorem Counts.markClean (counts : Counts s) (owner : (s.folio f).mapping = some m)
    (clean : (s.folio f).dirty = false) (now : Nat) :
    Counts ((s.modifyFolio f fun folio => { folio with dirty := true, dirtiedAt := now }).modifyMapping m
      fun mapping => { mapping with dirty := mapping.dirty ++ [f], nrdirty := mapping.nrdirty + 1 }) := by
  have absent : f ∉ (s.mapping m).dirty := by
    intro member
    rw [((counts.member m f).mp member).1] at clean
    cases clean
  have folio := modifyFolio_folio s f
  constructor
  · intro n
    rw [modifyMapping_mapping]
    split
    · simp [counts.counted m, modifyFolio]
    · exact counts.counted n
  · intro n g
    have old := counts.member n g
    rw [modifyMapping_mapping]
    simp only [modifyMapping, folio]
    by_cases this : g = f
    · subst this
      by_cases here : n = m
      · subst here
        simp [modifyFolio, owner]
      · simp [modifyFolio, here, owner, Ne.symm here, old]
    · by_cases here : n = m
      · subst here
        simp [modifyFolio, this, old]
      · simp [modifyFolio, this, here, old]
  · intro n
    rw [modifyMapping_mapping]
    split
    · exact List.nodup_append.mpr ⟨counts.nodup m, List.nodup_singleton f, by
        intro g member h inside
        rw [List.mem_singleton.mp inside]
        exact fun equal => absent (equal ▸ member)⟩
    · exact counts.nodup n
  · intro g
    simp only [modifyMapping, folio]
    by_cases this : g = f
    · simp [this, owner]
    · simpa [this] using counts.unmapped g

theorem Counts.setDirty (counts : Counts s) (owner : (s.folio f).mapping = some m) :
    Counts (s.setDirty m f).1 := by
  cases dirty : (s.folio f).dirty with
  | true =>
    rw [setDirty_of_dirty dirty]
    exact counts
  | false =>
    rw [setDirty_of_clean dirty]
    exact counts.markClean owner dirty s.now

/-- Clearing a dirty folio keeps the bookkeeping. -/
theorem Counts.clearDirty (counts : Counts s) (owner : (s.folio f).mapping = some m)
    (dirty : (s.folio f).dirty = true) : Counts (s.clearDirty m f).1 := by
  have listed : f ∈ (s.mapping m).dirty := (counts.member m f).mpr ⟨dirty, owner⟩
  have folio := modifyFolio_folio s f
  have cleared : Counts ((s.modifyFolio f fun folio => { folio with dirty := false }).modifyMapping m
      fun mapping => { mapping with dirty := mapping.dirty.erase f, nrdirty := mapping.nrdirty - 1 }) := by
    constructor
    · intro n
      rw [modifyMapping_mapping]
      split
      · simp [modifyFolio, counts.counted m, List.length_erase_of_mem listed]
      · exact counts.counted n
    · intro n g
      have old := counts.member n g
      rw [modifyMapping_mapping]
      simp only [modifyMapping, folio]
      by_cases this : g = f
      · subst this
        by_cases here : n = m
        · subst here
          simp [modifyFolio, (counts.nodup n).mem_erase_iff]
        · simp [modifyFolio, here, old, owner, Ne.symm here]
      · by_cases here : n = m
        · subst here
          simp [modifyFolio, this, (counts.nodup n).mem_erase_iff, old]
        · simp [modifyFolio, this, here, old]
    · intro n
      rw [modifyMapping_mapping]
      split
      · exact (counts.nodup m).erase f
      · exact counts.nodup n
    · intro g
      simp only [modifyMapping, folio]
      by_cases this : g = f
      · simp [this]
      · simpa [this] using counts.unmapped g
  rw [PageCache.clearDirty, dirty, if_pos rfl]
  exact cleared.congr rfl rfl

/-- A clean folio that joins a mapping keeps the bookkeeping. -/
theorem Counts.insert (counts : Counts s) (free : (s.folio f).mapping = none) (index : Nat) :
    Counts ((s.modifyFolio f fun _ => freshFolio m index).modifyMapping m
      fun mapping => { mapping with pages := mapping.pages ++ [f] }) := by
  have clean := counts.unmapped f free
  have folio := modifyFolio_folio s f
  have same : ∀ n, (((s.modifyFolio f fun _ => freshFolio m index).modifyMapping m
      fun mapping => { mapping with pages := mapping.pages ++ [f] }).mapping n).dirty =
        (s.mapping n).dirty := by
    intro n
    rw [modifyMapping_mapping]
    split
    · rename_i here
      rw [here]
      rfl
    · rfl
  constructor
  · intro n
    rw [same, ← counts.counted n, modifyMapping_mapping]
    split
    · rename_i here
      rw [here]
      rfl
    · rfl
  · intro n g
    have old := counts.member n g
    rw [same]
    simp only [modifyMapping, folio]
    by_cases this : g = f
    · subst this
      simp [old, clean, freshFolio]
    · simp [this, old]
  · intro n
    rw [same]
    exact counts.nodup n
  · intro g
    simp only [modifyMapping, folio]
    by_cases this : g = f
    · simp [this, freshFolio]
    · simpa [this] using counts.unmapped g

/-- A walk that goes on touches no folio and no mapping. -/
theorem advance_cache (s : PageCache) (t : Nat) (w : Walk) (err : Int) (nodes : List Node)
    (rest : List Frame) : (s.advance t w err nodes rest).folio = s.folio ∧
      (s.advance t w err nodes rest).mapping = s.mapping ∧
      (s.advance t w err nodes rest).owed = s.owed ∧
      (s.advance t w err nodes rest).unwritten = s.unwritten := by
  rw [advance]
  split
  · exact ⟨rfl, rfl, rfl, rfl⟩
  · exact ⟨rfl, rfl, rfl, rfl⟩

/-- A walk that is resumed touches no folio and no mapping. -/
theorem resume_cache (s : PageCache) (t : Nat) (w : Walk) (m : Nat) (err : Int) (rest : List Frame) :
    (s.resume t w m err rest).folio = s.folio ∧ (s.resume t w m err rest).mapping = s.mapping ∧
      (s.resume t w m err rest).owed = s.owed ∧ (s.resume t w m err rest).unwritten = s.unwritten := by
  rw [resume]
  exact advance_cache _ t w _ _ rest

/-- A call that begins touches no folio, mapping or list. -/
theorem begin_cache (s : PageCache) (t : Nat) (c : Call) :
    (s.begin t c).folio = s.folio ∧ (s.begin t c).mapping = s.mapping ∧
      (s.begin t c).gDirty = s.gDirty ∧ (s.begin t c).owed = s.owed ∧
      (s.begin t c).stack = Function.update s.stack t c.frames := by
  cases c <;> exact ⟨rfl, rfl, rfl, rfl, rfl⟩

/-- `mapping_note_dirty` touches no folio. -/
theorem noteDirty_cache (s : PageCache) (m : Nat) :
    (s.noteDirty m).folio = s.folio ∧ (s.noteDirty m).mapping = s.mapping ∧
      (s.noteDirty m).owed = s.owed ∧ (s.noteDirty m).unwritten = s.unwritten ∧
      (s.noteDirty m).stack = s.stack := by
  rw [noteDirty]
  split
  · exact ⟨rfl, rfl, rfl, rfl, rfl⟩
  · exact ⟨rfl, rfl, rfl, rfl, rfl⟩

/-- Of the cache `folio_mark_dirty` changes what `__folio_set_dirty` does. -/
theorem folioMarkDirty_cache (t : Nat) (rest : List Frame) (owner : (s.folio f).mapping = some m) :
    (s.folioMarkDirty t f rest).folio = (s.setDirty m f).1.folio ∧
      (s.folioMarkDirty t f rest).mapping = (s.setDirty m f).1.mapping ∧
      (s.folioMarkDirty t f rest).gDirty = s.gDirty ∧
      (s.folioMarkDirty t f rest).unwritten = s.unwritten := by
  have kept : (s.setDirty m f).1.gDirty = s.gDirty ∧ (s.setDirty m f).1.unwritten = s.unwritten := by
    rw [PageCache.setDirty]
    split
    · exact ⟨rfl, rfl⟩
    · exact ⟨rfl, rfl⟩
  simp only [folioMarkDirty, owner]
  split
  · exact ⟨rfl, rfl, kept⟩
  · exact ⟨rfl, rfl, kept⟩

/-- A mark is the first one of its mapping and is to be noted, or returns at once. -/
theorem folioMarkDirty_cases (counts : Counts s) (t : Nat) (rest : List Frame)
    (owner : (s.folio f).mapping = some m) :
    ((s.mapping m).nrdirty = 0 ∧
        (s.folioMarkDirty t f rest).stack = Function.update s.stack t (.noteDirty m :: rest) ∧
        (s.folioMarkDirty t f rest).owed = s.owed) ∨
      (0 < (s.mapping m).nrdirty ∧
        (s.folioMarkDirty t f rest).stack = Function.update s.stack t rest ∧
        (s.folioMarkDirty t f rest).owed = fun n => s.owed n || decide (n = m)) := by
  cases dirty : (s.folio f).dirty with
  | true =>
    have positive := counts.positive dirty owner
    simp only [folioMarkDirty, owner, setDirty_of_dirty dirty]
    exact Or.inr ⟨positive, rfl, by simp [PageCache.goto, markReturns, positive]⟩
  | false =>
    simp only [folioMarkDirty, owner, setDirty_of_clean dirty, modifyMapping_mapping, if_true]
    by_cases first : (s.mapping m).nrdirty = 0
    · rw [if_pos (by simp [modifyFolio, first])]
      exact Or.inl ⟨first, rfl, rfl⟩
    · rw [if_neg (by simp [modifyFolio, first])]
      exact Or.inr ⟨Nat.pos_of_ne_zero first, rfl, by
        simp [PageCache.goto, markReturns, modifyMapping, modifyFolio]⟩

/-- A folio that is marked dirty stays in its mapping, and others stay dirty. -/
theorem setDirty_folio (g : Nat) : ((s.setDirty m f).1.folio g).mapping = (s.folio g).mapping ∧
    ((s.folio g).dirty = true → ((s.setDirty m f).1.folio g).dirty = true) := by
  rw [PageCache.setDirty]
  split
  · exact ⟨rfl, id⟩
  constructor
  · simp only [modifyMapping, modifyFolio_folio]
    split
    · rename_i same
      rw [same]
    · rfl
  · simp only [modifyMapping, modifyFolio_folio]
    split
    · exact fun _ => rfl
    · exact id

theorem clearDirty_folio {g : Nat} (other : g ≠ f) : (s.clearDirty m f).1.folio g = s.folio g := by
  rw [PageCache.clearDirty]
  split
  · exact (modifyFolio_folio s f g fun folio => { folio with dirty := false }).trans (if_neg other)
  · rfl

/-- Every step keeps the bookkeeping. -/
theorem Counts.step (counts : Counts s) (step : Step s event s') : Counts s' := by
  cases step with
  | idle same stack => exact counts.same same
  | move t here actor moves same stack => exact counts.same same
  | mark t f m rest here owner running result =>
    rw [result]
    obtain ⟨folio, mapping, -, -⟩ := folioMarkDirty_cache t rest owner
    exact (counts.setDirty owner).congr folio mapping
  | note t m rest here running result =>
    rw [result]
    obtain ⟨folio, mapping, -⟩ := noteDirty_cache s m
    exact counts.congr folio mapping
  | clear t f m m' rest here owner dirty frame plain result =>
    rw [result]
    exact (counts.clearDirty owner dirty).congr rfl rfl
  | walk t w rest here result =>
    rw [result]
    obtain ⟨folio, mapping, -⟩ := advance_cache s t w 0 (if w.reverse then s.gDirty.reverse else s.gDirty) rest
    exact counts.congr folio mapping
  | resume t w m err rest here result =>
    rw [result]
    obtain ⟨folio, mapping, -⟩ := resume_cache s t w m err rest
    exact counts.congr folio mapping
  | call t c here calling result =>
    rw [result]
    obtain ⟨folio, mapping, -⟩ := begin_cache s t c
    exact counts.congr folio mapping
  | insert m f index free result =>
    rw [result]
    exact counts.insert free index

end Counts

/-! ## Walks -/

section Walks

variable {s s' : PageCache} {event : Event} {t : Nat} {frame : Frame} {rest frames : List Frame}

theorem mem_park {m : Nat} {reverse : Bool} {n : Node} :
    n ∈ (s.park t m reverse).gDirty ↔ n ∈ s.gDirty ∨ n = .cursor t ∧ .mapping m ∈ s.gDirty := by
  simp only [park]
  split
  · exact mem_placeBefore
  · exact mem_placeAfter

theorem nodup_park {m : Nat} {reverse : Bool} (nodup : s.gDirty.Nodup) (absent : .cursor t ∉ s.gDirty) :
    (s.park t m reverse).gDirty.Nodup := by
  simp only [park]
  split
  · exact nodup_placeBefore nodup absent
  · exact nodup_placeAfter nodup absent

/-- A walk ends, or parks its node at the next mapping that it takes. -/
theorem advance_cases (s : PageCache) (t : Nat) (w : Walk) (err : Int) (nodes : List Node)
    (rest : List Frame) :
    (nodes.findSome? (s.selects w) = none ∧ (s.advance t w err nodes rest).gDirty = s.gDirty ∧
        (s.advance t w err nodes rest).stack = Function.update s.stack t rest) ∨
      ∃ m, nodes.findSome? (s.selects w) = some m ∧
        (s.advance t w err nodes rest).gDirty = (s.park t m w.reverse).gDirty ∧
        (s.advance t w err nodes rest).stack =
          Function.update s.stack t (s.visitFrames m w.visit ++ .visited w m err :: rest) := by
  rw [advance]
  cases found : nodes.findSome? (s.selects w) with
  | none => exact Or.inl ⟨rfl, rfl, rfl⟩
  | some m => exact Or.inr ⟨m, rfl, rfl, rfl⟩

theorem visitFrames_plain (s : PageCache) (m : Nat) (visit : Visit) :
    ∀ frame ∈ s.visitFrames m visit, frame.pends = false := by
  cases visit with
  | writerPass cutoff => simp [visitFrames, Frame.pends]
  | sync last =>
    rw [visitFrames]
    split
    · simp [writeAndWait, Frame.pends]
    · simp

theorem bearsWalk_of_plain (plain : frame.pends = false) : frame.bearsWalk = false := by
  cases frame <;> simp_all [Frame.pends, Frame.bearsWalk]

theorem nested_append (below : rest.Pairwise fun frame below => frame.bearsWalk = true → below.isWalk = false)
    (plain : ∀ g ∈ frames, g.bearsWalk = false) :
    (frames ++ rest).Pairwise fun frame below => frame.bearsWalk = true → below.isWalk = false := by
  refine List.pairwise_append.mpr ⟨?_, below, ?_⟩
  · refine List.Pairwise.imp_of_mem ?_ (List.pairwise_of_forall (fun _ _ => trivial))
    intro a b member _ _ bears
    rw [plain a member] at bears
    cases bears
  · intro a member b _ bears
    rw [plain a member] at bears
    cases bears

/-- A step that leaves the list moves a thread from a place that is no call of a walk. -/
theorem Walks.replace (walks : Walks s) (here : s.stack t = frame :: rest) (gDirty : s'.gDirty = s.gDirty)
    (stack : s'.stack = Function.update s.stack t (frames ++ rest))
    (unvisited : ∀ w m err, frame ≠ .visited w m err)
    (nested : (frames ++ rest).Pairwise fun frame below => frame.bearsWalk = true → below.isWalk = false) :
    Walks s' := by
  constructor
  · rw [gDirty]
    exact walks.nodup
  · intro u member
    rw [gDirty] at member
    obtain ⟨w, m, err, visited⟩ := walks.cursors u member
    refine ⟨w, m, err, ?_⟩
    rw [stack, Function.update_apply]
    split
    · rename_i same
      rw [same, here] at visited
      rcases List.mem_cons.mp visited with this | below
      · exact absurd this.symm (unvisited w m err)
      · exact List.mem_append_right _ below
    · exact visited
  · intro u
    rw [stack, Function.update_apply]
    split
    · exact nested
    · exact walks.nested u

theorem Walks.below (walks : Walks s) (here : s.stack t = frame :: rest) :
    (frame.bearsWalk = true → ∀ g ∈ rest, g.isWalk = false) ∧
      rest.Pairwise fun frame below => frame.bearsWalk = true → below.isWalk = false := by
  have nested := walks.nested t
  rw [here, List.pairwise_cons] at nested
  exact ⟨fun bears g member => nested.1 g member bears, nested.2⟩

/-- No thread moves from the call of a walk, or begins one within one, without the list. -/
theorem Walks.moves (walks : Walks s) (here : s.stack t = frame :: rest) (moves : Moves s s' frame frames)
    (gDirty : s'.gDirty = s.gDirty) (stack : s'.stack = Function.update s.stack t (frames ++ rest)) :
    Walks s' := by
  obtain ⟨bears, below⟩ := walks.below here
  refine walks.replace here gDirty stack ?_ ?_
  · intro w m err same
    subst same
    cases moves with
    | other before after => cases before
  · cases moves with
    | secondPass sb err =>
      have none := bears rfl
      refine List.pairwise_cons.mpr ⟨?_, List.pairwise_cons.mpr ⟨?_, below⟩⟩
      · intro g member _
        rcases List.mem_cons.mp member with rfl | inside
        · rfl
        · exact none g inside
      · intro g _ done
        cases done
    | other before after => exact nested_append below fun g member => bearsWalk_of_plain (after g member)
    | collect | lock | start | clean | further | wait | waitMore | waited | report | unmapped =>
      exact nested_append below (by simp [Frame.bearsWalk])

/-- A walk goes on from a list without its cursor. -/
theorem Walks.advance {w : Walk} {err : Int} {nodes : List Node} (nodup : s.gDirty.Nodup)
    (absent : .cursor t ∉ s.gDirty)
    (cursors : ∀ u, u ≠ t → .cursor u ∈ s.gDirty → ∃ w m err, .visited w m err ∈ s.stack u)
    (others : ∀ u, u ≠ t → (s.stack u).Pairwise fun frame below =>
      frame.bearsWalk = true → below.isWalk = false)
    (below : rest.Pairwise fun frame below => frame.bearsWalk = true → below.isWalk = false)
    (outermost : ∀ g ∈ rest, g.isWalk = false) : Walks (s.advance t w err nodes rest) := by
  rcases advance_cases s t w err nodes rest with ⟨-, gDirty, stack⟩ | ⟨m, -, gDirty, stack⟩
  · constructor
    · rw [gDirty]
      exact nodup
    · intro u member
      rw [gDirty] at member
      rw [stack, Function.update_apply]
      split
      · rename_i same
        rw [same] at member
        exact absurd member absent
      · rename_i other
        exact cursors u other member
    · intro u
      rw [stack, Function.update_apply]
      split
      · exact below
      · rename_i other
        exact others u other
  · constructor
    · rw [gDirty]
      exact nodup_park nodup absent
    · intro u member
      rw [gDirty, mem_park] at member
      rw [stack, Function.update_apply]
      split
      · exact ⟨w, m, err, List.mem_append_right _ List.mem_cons_self⟩
      · rename_i other
        rcases member with old | ⟨same, -⟩
        · exact cursors u other old
        · cases same
          exact absurd rfl other
    · intro u
      rw [stack, Function.update_apply]
      split
      · refine nested_append (List.pairwise_cons.mpr ⟨?_, below⟩) fun g member =>
          bearsWalk_of_plain (visitFrames_plain s m w.visit g member)
        exact fun g member _ => outermost g member
      · rename_i other
        exact others u other

/-- Every step keeps the order of walks. -/
theorem Walks.step (walks : Walks s) (step : Step s event s') (counts : Counts s) : Walks s' := by
  cases step with
  | idle same stack =>
    constructor
    · rw [same.gDirty]
      exact walks.nodup
    · rw [same.gDirty, stack]
      exact walks.cursors
    · rw [stack]
      exact walks.nested
  | move t here actor moves same stack => exact walks.moves here moves same.gDirty stack
  | mark t f m rest here owner running result =>
    obtain ⟨-, below⟩ := walks.below here
    obtain ⟨-, -, gDirty, -⟩ := folioMarkDirty_cache t rest owner
    rw [result]
    rcases folioMarkDirty_cases counts t rest owner with ⟨-, stack, -⟩ | ⟨-, stack, -⟩
    · refine @Walks.replace s _ t _ rest [.noteDirty m] walks here gDirty stack (by simp) ?_
      exact List.pairwise_cons.mpr ⟨fun _ _ bears => absurd bears Bool.false_ne_true, below⟩
    · exact @Walks.replace s _ t _ rest [] walks here gDirty stack (by simp) below
  | note t m rest here running result =>
    obtain ⟨-, below⟩ := walks.below here
    rw [result]
    have noted : Walks (s.noteDirty m) := by
      rw [noteDirty]
      split
      · exact walks
      rename_i absent
      constructor
      · refine List.nodup_append.mpr ⟨walks.nodup, List.nodup_singleton _, ?_⟩
        intro n member n' new
        rw [List.mem_singleton.mp new]
        exact fun same => absent (same ▸ member)
      · intro u member
        rcases List.mem_append.mp member with old | new
        · exact walks.cursors u old
        · cases List.mem_singleton.mp new
      · exact walks.nested
    have here' : (s.noteDirty m).stack t = .noteDirty m :: rest := by
      rw [(noteDirty_cache s m).2.2.2.2, here]
    exact @Walks.replace (s.noteDirty m) _ t _ rest [] noted here' rfl rfl (by simp) below
  | clear t f m m' rest here owner dirty frame plain result =>
    obtain ⟨-, below⟩ := walks.below here
    rw [result, PageCache.clearDirty, dirty, if_pos rfl]
    refine @Walks.replace s _ t _ rest [frame] walks here rfl rfl (by simp) ?_
    exact nested_append below (by simpa using bearsWalk_of_plain plain)
  | walk t w rest here result =>
    obtain ⟨bears, below⟩ := walks.below here
    have outermost := bears rfl
    rw [result]
    refine Walks.advance walks.nodup ?_ (fun u _ => walks.cursors u) (fun u _ => walks.nested u) below
      outermost
    intro member
    obtain ⟨w', m, err, visited⟩ := walks.cursors t member
    rw [here] at visited
    rcases List.mem_cons.mp visited with same | inside
    · cases same
    · cases outermost _ inside
  | resume t w m err rest here result =>
    obtain ⟨bears, below⟩ := walks.below here
    rw [result, PageCache.resume]
    have fewer : (if s.drops w m (s.ret t).1 then s.gDirty.erase (.mapping m) else s.gDirty).Sublist
        s.gDirty := by
      split
      · exact List.erase_sublist
      · exact List.Sublist.refl _
    have nodup := walks.nodup.sublist fewer
    refine Walks.advance (nodup.erase _) nodup.not_mem_erase ?_ (fun u _ => walks.nested u) below (bears rfl)
    intro u _ member
    exact walks.cursors u (fewer.subset (List.mem_of_mem_erase member))
  | call t c here calling result =>
    obtain ⟨-, -, gDirty, -, stack⟩ := begin_cache s t c
    rw [result]
    constructor
    · rw [gDirty]
      exact walks.nodup
    · intro u member
      rw [gDirty] at member
      obtain ⟨w, m, err, visited⟩ := walks.cursors u member
      rw [stack, Function.update_apply]
      split
      · rename_i same
        rw [same, here] at visited
        cases visited
      · exact ⟨w, m, err, visited⟩
    · intro u
      rw [stack, Function.update_apply]
      split
      · cases c <;> simp [Call.frames, writeAndWait, Frame.bearsWalk, Frame.isWalk]
      · exact walks.nested u
  | insert m f index free result =>
    rw [result]
    exact ⟨walks.nodup, walks.cursors, walks.nested⟩

end Walks

/-! ## Notes -/

section Noted

variable {s s' : PageCache} {event : Event} {t : Nat} {frame : Frame} {rest frames : List Frame}

theorem mem_advance {w : Walk} {err : Int} {nodes : List Node} {n : Nat} (listed : .mapping n ∈ s.gDirty) :
    .mapping n ∈ (s.advance t w err nodes rest).gDirty := by
  rcases advance_cases s t w err nodes rest with ⟨-, gDirty, -⟩ | ⟨m, -, gDirty, -⟩
  · rw [gDirty]
    exact listed
  · rw [gDirty, mem_park]
    exact Or.inl listed

theorem mem_resume {w : Walk} {m : Nat} {err : Int} {n : Nat} (listed : .mapping n ∈ s.gDirty)
    (kept : s.drops w m (s.ret t).1 = true → n ≠ m) : .mapping n ∈ (s.resume t w m err rest).gDirty := by
  have still : .mapping n ∈ if s.drops w m (s.ret t).1 then s.gDirty.erase (.mapping m) else s.gDirty := by
    split
    · rename_i dropped
      exact (List.mem_erase_of_ne fun same => kept dropped (Node.mapping.inj same)).mpr listed
    · exact listed
  have different : Node.mapping n ≠ .cursor t := nofun
  rw [PageCache.resume]
  exact mem_advance ((List.mem_erase_of_ne different).mpr still)

theorem drops_clean {w : Walk} {m : Nat} {err : Int} (dropped : s.drops w m err = true) :
    (s.mapping m).nrdirty = 0 := by
  rw [drops, Bool.and_eq_true, decide_eq_true_eq] at dropped
  exact dropped.2

/-- What is listed after `mapping_note_dirty`. -/
theorem mem_noteDirty {m : Nat} {n : Node} : n ∈ (s.noteDirty m).gDirty ↔ n ∈ s.gDirty ∨ n = .mapping m := by
  rw [noteDirty]
  split
  · rename_i listed
    exact ⟨Or.inl, fun either => either.elim id fun same => same ▸ listed⟩
  · simp

theorem mem_update (here : s.stack t = frame :: rest) {u : Nat} {g : Frame} (member : g ∈ s.stack u)
    (other : g ≠ frame) : g ∈ Function.update s.stack t (frames ++ rest) u := by
  rw [Function.update_apply]
  split
  · rename_i same
    rw [same, here] at member
    rcases List.mem_cons.mp member with top | below
    · exact absurd top other
    · exact List.mem_append_right _ below
  · exact member

theorem Noted.keep (noted : Noted s) {m : Nat} (positive : 0 < (s.mapping m).nrdirty)
    (listed : .mapping m ∈ s.gDirty → .mapping m ∈ s'.gDirty)
    (pending : ∀ u, .noteDirty m ∈ s.stack u → .noteDirty m ∈ s'.stack u) :
    .mapping m ∈ s'.gDirty ∨ ∃ u, .noteDirty m ∈ s'.stack u := by
  rcases noted m positive with before | ⟨u, before⟩
  · exact Or.inl (listed before)
  · exact Or.inr ⟨u, pending u before⟩

theorem Moves.not_note (moves : Moves s s' frame frames) (m : Nat) : .noteDirty m ≠ frame := by
  rintro rfl
  cases moves with
  | other before after => cases before

theorem setDirty_count {m f n : Nat} (positive : 0 < ((s.setDirty m f).1.mapping n).nrdirty) :
    0 < (s.mapping n).nrdirty ∨ n = m := by
  by_cases same : n = m
  · exact Or.inr same
  · rw [setDirty] at positive
    split at positive
    · exact Or.inl positive
    · rw [modifyMapping_mapping, if_neg same] at positive
      exact Or.inl positive

theorem clearDirty_count {m f n : Nat} (positive : 0 < ((s.clearDirty m f).1.mapping n).nrdirty) :
    0 < (s.mapping n).nrdirty := by
  rw [clearDirty] at positive
  split at positive
  · have field := modifyMapping_mapping (s.modifyFolio f fun folio => { folio with dirty := false }) m n
      fun mapping => { mapping with dirty := mapping.dirty.erase f, nrdirty := mapping.nrdirty - 1 }
    have count := Nat.lt_of_lt_of_eq positive (congrArg Mapping.nrdirty field)
    split at count
    · rename_i same
      rw [same]
      exact Nat.lt_of_lt_of_le count (Nat.sub_le _ _)
    · exact count
  · exact positive

/-- Every step keeps the mappings with dirty folios noted. -/
theorem Noted.step (noted : Noted s) (step : Step s event s') (counts : Counts s) : Noted s' := by
  intro n positive
  cases step with
  | idle same stack =>
    rw [same.count] at positive
    refine noted.keep positive ?_ ?_
    · rw [same.gDirty]
      exact id
    · rw [stack]
      exact fun _ => id
  | move t here actor moves same stack =>
    rw [same.count] at positive
    refine noted.keep positive ?_ ?_
    · rw [same.gDirty]
      exact id
    · intro u pending
      rw [stack]
      exact mem_update here pending (moves.not_note n)
  | mark t f m rest here owner running result =>
    subst result
    obtain ⟨-, mapping, gDirty, -⟩ := folioMarkDirty_cache t rest owner
    rw [mapping] at positive
    have before : (s.folioMarkDirty t f rest).stack = Function.update s.stack t (.noteDirty m :: rest) ∧
        n = m ∨ 0 < (s.mapping n).nrdirty := by
      rcases folioMarkDirty_cases counts t rest owner with ⟨-, stack, -⟩ | ⟨dirty, -, -⟩
      · rcases setDirty_count positive with old | same
        · exact Or.inr old
        · exact Or.inl ⟨stack, same⟩
      · rcases setDirty_count positive with old | same
        · exact Or.inr old
        · exact Or.inr (same ▸ dirty)
    rcases before with ⟨stack, same⟩ | old
    · refine Or.inr ⟨t, ?_⟩
      rw [stack, same, Function.update_self]
      exact List.mem_cons_self
    · refine noted.keep old ?_ ?_
      · rw [gDirty]
        exact id
      · intro u pending
        rcases folioMarkDirty_cases counts t rest owner with ⟨-, stack, -⟩ | ⟨-, stack, -⟩
        · rw [stack]
          exact @mem_update s t _ rest [_] here u _ pending (by simp)
        · rw [stack]
          exact @mem_update s t _ rest [] here u _ pending (by simp)
  | note t m rest here running result =>
    subst result
    obtain ⟨-, mapping, -, -, stack⟩ := noteDirty_cache s m
    change 0 < ((s.noteDirty m).mapping n).nrdirty at positive
    rw [mapping] at positive
    by_cases same : n = m
    · exact Or.inl (mem_noteDirty.mpr (Or.inr (same ▸ rfl)))
    · refine noted.keep positive (fun listed => mem_noteDirty.mpr (Or.inl listed)) ?_
      intro u pending
      change _ ∈ Function.update (s.noteDirty m).stack t rest u
      rw [stack]
      exact @mem_update s t _ rest [] here u _ pending (by simpa using same)
  | clear t f m m' rest here owner dirty frame plain result =>
    subst result
    have old := clearDirty_count (show 0 < ((s.clearDirty m f).1.mapping n).nrdirty from positive)
    rw [PageCache.clearDirty, dirty, if_pos rfl]
    exact noted.keep old id (fun u pending => @mem_update s t _ rest [frame] here u _ pending (by simp))
  | walk t w rest here result =>
    subst result
    rw [(advance_cache s t w 0 _ rest).2.1] at positive
    refine noted.keep positive mem_advance ?_
    intro u pending
    rcases advance_cases s t w 0 (if w.reverse then s.gDirty.reverse else s.gDirty) rest with
      ⟨-, -, stack⟩ | ⟨m, -, -, stack⟩
    · rw [stack]
      exact @mem_update s t _ rest [] here u _ pending (by simp)
    · rw [stack, List.append_cons]
      exact mem_update here pending (by simp)
  | resume t w m err rest here result =>
    subst result
    rw [(resume_cache s t w m err rest).2.1] at positive
    refine noted.keep positive ?_ ?_
    · intro listed
      refine mem_resume listed ?_
      rintro dropped rfl
      rw [drops_clean dropped] at positive
      exact absurd positive (Nat.lt_irrefl 0)
    · intro u pending
      rw [PageCache.resume]
      rcases advance_cases _ t w _ _ rest with ⟨-, -, stack⟩ | ⟨m', -, -, stack⟩
      · rw [stack]
        exact @mem_update s t _ rest [] here u _ pending (by simp)
      · rw [stack, List.append_cons]
        exact @mem_update s t _ rest _ here u _ pending (by simp)
  | call t c here calling result =>
    subst result
    obtain ⟨-, mapping, gDirty, -, stack⟩ := begin_cache s t c
    rw [mapping] at positive
    refine noted.keep positive ?_ ?_
    · rw [gDirty]
      exact id
    · intro u pending
      rw [stack, Function.update_apply]
      split
      · rename_i same
        rw [same, here] at pending
        cases pending
      · exact pending
  | insert m f index free result =>
    subst result
    refine noted.keep ?_ id (fun _ => id)
    rw [modifyMapping_mapping] at positive
    split at positive
    · rename_i same
      rw [same]
      exact positive
    · exact positive

end Noted

end PageCache

end Ttntfs.Pagecache
