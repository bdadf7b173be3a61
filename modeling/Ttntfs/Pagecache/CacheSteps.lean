import Ttntfs.Pagecache.PageCache

/-!
# What a step of the page cache can do

Most steps move a thread on and touch nothing that decides which folios are dirty and
which mappings are listed. The others are few: a folio becomes dirty, a mapping is noted,
a folio is cleared for its write, a walk goes on along the list, a call begins, a folio is
inserted. Every event is one of them.
-/

namespace Ttntfs.Pagecache

open Ttntfs.Library.CursorWalk

/-- The frame walks the list of dirty mappings. -/
def Frame.isWalk : Frame → Bool
  | .walkFrom _ | .visited _ _ _ => true
  | _ => false

/-- No walk is called from within the frame. -/
def Frame.bearsWalk : Frame → Bool
  | .walkFrom _ | .visited _ _ _ | .syncLast _ => true
  | _ => false

/-- The frames that say which folios a thread is about to write, which mappings it is
about to note or to wait for, and where it walks. -/
def Frame.carries : Frame → Bool
  | .markDirty _ | .noteDirty _ | .writeRange _ _ _ _ | .writeFolios _ (_ :: _) _ _ | .startWriteback _ _
  | .clearDirtyForIo _ _ | .wroteFolio _ _ _ _ _ | .thenWait _ _ _ | .waitRange _ _ _ | .reportWbErr _
  | .walkFrom _ | .visited _ _ _ | .syncLast _ => true
  | _ => false

/-- The frame is one of a sync itself. -/
def Frame.isSync : Frame → Bool
  | .syncLast _ | .syncDone _ _ => true
  | _ => false

/-- The frame is one of a note, of a wait, or of a sync and its walks. -/
def Frame.pends : Frame → Bool
  | .noteDirty _ | .waitRange _ _ _ | .walkFrom _ | .visited _ _ _ | .syncLast _ | .syncDone _ _ => true
  | _ => false

namespace PageCache

/-- The thread whose step the event is. -/
def Event.actor : Event → Option Nat
  | .call t _ | .run t | .writeFolio t _ => some t
  | _ => none

/-! ## Fields -/

section Fields

variable (s : PageCache)

theorem modifyFolio_folio (f g : Nat) (change : Folio → Folio) :
    (s.modifyFolio f change).folio g = if g = f then change (s.folio f) else s.folio g :=
  Function.update_apply _ _ _ _

theorem modifyMapping_mapping (m n : Nat) (change : Mapping → Mapping) :
    (s.modifyMapping m change).mapping n = if n = m then change (s.mapping m) else s.mapping n :=
  Function.update_apply _ _ _ _

end Fields

/-- Nothing changes that decides which folios are dirty and which mappings are listed. -/
structure SameDirty (s s' : PageCache) : Prop where
  dirty : ∀ f, (s'.folio f).dirty = (s.folio f).dirty
  owner : ∀ f, (s'.folio f).mapping = (s.folio f).mapping
  list : ∀ m, (s'.mapping m).dirty = (s.mapping m).dirty
  count : ∀ m, (s'.mapping m).nrdirty = (s.mapping m).nrdirty
  host : ∀ m, (s'.mapping m).host = (s.mapping m).host
  pages : ∀ m, (s'.mapping m).pages = (s.mapping m).pages
  gDirty : s'.gDirty = s.gDirty
  owed : s'.owed = s.owed
  unwritten : ∀ t f, s'.unwritten t f = true → s.unwritten t f = true

section Same

variable {s s' s'' : PageCache}

theorem SameDirty.refl (s : PageCache) : SameDirty s s :=
  ⟨fun _ => rfl, fun _ => rfl, fun _ => rfl, fun _ => rfl, fun _ => rfl, fun _ => rfl, rfl, rfl, fun _ _ => id⟩

theorem SameDirty.trans (first : SameDirty s s') (second : SameDirty s' s'') : SameDirty s s'' :=
  { dirty := fun f => (second.dirty f).trans (first.dirty f)
    owner := fun f => (second.owner f).trans (first.owner f)
    list := fun m => (second.list m).trans (first.list m)
    count := fun m => (second.count m).trans (first.count m)
    host := fun m => (second.host m).trans (first.host m)
    pages := fun m => (second.pages m).trans (first.pages m)
    gDirty := second.gDirty.trans first.gDirty
    owed := second.owed.trans first.owed
    unwritten := fun t f later => first.unwritten t f (second.unwritten t f later) }

theorem SameDirty.goto (s : PageCache) (t : Nat) (stack : List Frame) : SameDirty s (s.goto t stack) :=
  ⟨fun _ => rfl, fun _ => rfl, fun _ => rfl, fun _ => rfl, fun _ => rfl, fun _ => rfl, rfl, rfl, fun _ _ => id⟩

theorem SameDirty.finish (s : PageCache) (t : Nat) (rest : List Frame) (err : Int) (redirtied : Nat) :
    SameDirty s (s.finish t rest err redirtied) :=
  ⟨fun _ => rfl, fun _ => rfl, fun _ => rfl, fun _ => rfl, fun _ => rfl, fun _ => rfl, rfl, rfl, fun _ _ => id⟩

theorem SameDirty.modifyFolio (f : Nat) {change : Folio → Folio}
    (dirty : (change (s.folio f)).dirty = (s.folio f).dirty)
    (owner : (change (s.folio f)).mapping = (s.folio f).mapping) : SameDirty s (s.modifyFolio f change) := by
  constructor
  · intro g
    rw [modifyFolio_folio]
    split
    · rename_i same
      rw [same, dirty]
    · rfl
  · intro g
    rw [modifyFolio_folio]
    split
    · rename_i same
      rw [same, owner]
    · rfl
  all_goals first | rfl | exact fun _ => rfl | exact fun _ _ => id

theorem SameDirty.setWriteback (s : PageCache) (f : Nat) (on : Bool) : SameDirty s (s.setWriteback f on) :=
  SameDirty.modifyFolio f rfl rfl

theorem SameDirty.setHolder (s : PageCache) (f : Nat) (holder : Option Nat) :
    SameDirty s (s.setHolder f holder) :=
  SameDirty.modifyFolio f rfl rfl

theorem SameDirty.setWbErr (s : PageCache) (m : Nat) (err : Int) :
    SameDirty s (s.modifyMapping m fun mapping => { mapping with wbErr := err }) := by
  have field : ∀ n, (s.modifyMapping m fun mapping => { mapping with wbErr := err }).mapping n =
      if n = m then { s.mapping m with wbErr := err } else s.mapping n :=
    fun n => modifyMapping_mapping s m n _
  constructor
  · exact fun _ => rfl
  · exact fun _ => rfl
  · intro n
    rw [field]
    split
    · rename_i same
      rw [same]
    · rfl
  · intro n
    rw [field]
    split
    · rename_i same
      rw [same]
    · rfl
  · intro n
    rw [field]
    split
    · rename_i same
      rw [same]
    · rfl
  · intro n
    rw [field]
    split
    · rename_i same
      rw [same]
    · rfl
  all_goals first | rfl | exact fun _ _ => id

end Same

/-! ## Kinds of steps -/

/-- The places to which a thread moves from a place, where nothing changes that decides
which folios are dirty. -/
inductive Moves (s s' : PageCache) : Frame → List Frame → Prop
  | collect (m first : Nat) (last : Option Nat) (older : Nat) :
      Moves s s' (.writeRange m first last older)
        [.writeFolios m (s.collectDirty m first last older) 0 0]
  | lock (m f : Nat) (arr : List Nat) (err : Int) (redirtied : Nat) :
      Moves s s' (.writeFolios m (f :: arr) err redirtied)
        [.startWriteback m f, .wroteFolio m f arr err redirtied]
  | start (m f : Nat) : Moves s s' (.startWriteback m f) [.clearDirtyForIo m f]
  | clean (m f : Nat) (clean : (s.folio f).dirty = false) :
      Moves s s' (.clearDirtyForIo m f) [.abandonWriteback f]
  | further (m f : Nat) (arr : List Nat) (err err' : Int) (redirtied redirtied' : Nat) :
      Moves s s' (.wroteFolio m f arr err redirtied) [.writeFolios m arr err' redirtied']
  | wait (m first : Nat) (last : Option Nat) (err : Int) :
      Moves s s' (.thenWait m first last) [.waitRange m first last, .reportWbErr m, .bothErrors err]
  | waitMore (m first : Nat) (last : Option Nat) (f : Nat) :
      Moves s s' (.waitRange m first last) [.waitWriteback f, .waitRange m first last]
  | waited (m first : Nat) (last : Option Nat) (none : s.waitVictim m first last = none) :
      Moves s s' (.waitRange m first last) []
  | report (m : Nat) (reported : (s'.mapping m).wbErr = 0) : Moves s s' (.reportWbErr m) []
  | secondPass (sb : Nat) (err : Int) :
      Moves s s' (.syncLast sb) [.walkFrom (secondPass sb), .syncDone sb err]
  | unmapped (f : Nat) (unmapped : (s.folio f).mapping = none) : Moves s s' (.markDirty f) []
  | other {frame : Frame} {frames : List Frame} (before : frame.carries = false)
      (after : ∀ g ∈ frames, g.pends = false) : Moves s s' frame frames

/-- What the step of an event can do. -/
inductive Step (s : PageCache) (event : Event) (s' : PageCache) : Prop
  | idle (same : SameDirty s s') (stack : s'.stack = s.stack)
  | move (t : Nat) {frame : Frame} {rest frames : List Frame} (here : s.stack t = frame :: rest)
      (actor : event.actor = some t) (moves : Moves s s' frame frames) (same : SameDirty s s')
      (stack : s'.stack = Function.update s.stack t (frames ++ rest))
  | mark (t f m : Nat) (rest : List Frame) (here : s.stack t = .markDirty f :: rest)
      (owner : (s.folio f).mapping = some m) (running : event = .run t)
      (result : s' = s.folioMarkDirty t f rest)
  | note (t m : Nat) (rest : List Frame) (here : s.stack t = .noteDirty m :: rest)
      (running : event = .run t) (result : s' = ((s.noteDirty m).markReturns m).goto t rest)
  | clear (t f m m' : Nat) (rest : List Frame) (here : s.stack t = .clearDirtyForIo m' f :: rest)
      (owner : (s.folio f).mapping = some m) (dirty : (s.folio f).dirty = true) (frame : Frame)
      (plain : frame.pends = false) (result : s' = (s.clearDirty m f).1.goto t (frame :: rest))
      (running : event = .run t)
  | walk (t : Nat) (w : Walk) (rest : List Frame) (here : s.stack t = .walkFrom w :: rest)
      (result : s' = s.advance t w 0 (if w.reverse then s.gDirty.reverse else s.gDirty) rest)
      (running : event = .run t)
  | resume (t : Nat) (w : Walk) (m : Nat) (err : Int) (rest : List Frame)
      (here : s.stack t = .visited w m err :: rest) (result : s' = s.resume t w m err rest)
      (running : event = .run t)
  | call (t : Nat) (c : Call) (here : s.stack t = []) (calling : event = .call t c)
      (result : s' = s.begin t c)
  | insert (m f index : Nat) (free : (s.folio f).mapping = none)
      (result : s' = (s.modifyFolio f fun _ => freshFolio m index).modifyMapping m
        fun mapping => { mapping with pages := mapping.pages ++ [f] })

section Inversion

variable {s s' : PageCache} {event : Event} {t : Nat} {frame : Frame} {rest : List Frame}

theorem Step.moves (actor : event.actor = some t) (here : s.stack t = frame :: rest) (frames : List Frame)
    (moves : Moves s (s'.goto t (frames ++ rest)) frame frames) (same : SameDirty s s')
    (stack : s'.stack = s.stack) : Step s event (s'.goto t (frames ++ rest)) := by
  refine .move t here actor moves (same.trans (SameDirty.goto s' t _)) ?_
  rw [goto, stack]

theorem Step.returns (actor : event.actor = some t) (here : s.stack t = frame :: rest) (err : Int) (redirtied : Nat)
    (moves : Moves s (s'.finish t rest err redirtied) frame []) (same : SameDirty s s')
    (stack : s'.stack = s.stack) : Step s event (s'.finish t rest err redirtied) := by
  refine .move t here actor moves (same.trans (SameDirty.finish s' t _ _ _)) ?_
  rw [finish, goto, stack, List.nil_append]

/-- The step of a thread at a place. -/
theorem runFrame_step (unmapped : ∀ f, (s.folio f).mapping = none → (s.folio f).dirty = false)
    (here : s.stack t = frame :: rest) (happens : s.runFrame t rest frame = some s') : Step s (.run t) s' := by
  cases frame with
  | markDirty f =>
    cases owner : (s.folio f).mapping with
    | none =>
      rw [runFrame, folioMarkDirty, owner] at happens
      cases happens
      exact Step.moves rfl here [] (.unmapped f owner) (SameDirty.refl s) rfl
    | some m =>
      cases happens
      exact .mark t f m rest here owner rfl rfl
  | noteDirty m =>
    cases happens
    exact .note t m rest here rfl rfl
  | writeRange m first last older =>
    cases happens
    exact Step.moves rfl here [_] (.collect m first last older) (SameDirty.refl s) rfl
  | writeFolios m arr err redirtied =>
    cases arr with
    | nil =>
      cases happens
      exact Step.returns rfl here err redirtied (.other rfl (by simp)) (SameDirty.refl s) rfl
    | cons f arr =>
      rw [runFrame] at happens
      split at happens
      · cases happens
        exact Step.moves rfl here [_, _] (.lock m f arr err redirtied) (SameDirty.setHolder s f _) rfl
      · cases happens
  | startWriteback m f =>
    cases happens
    exact Step.moves rfl here [_] (.start m f) (SameDirty.setWriteback s f true) rfl
  | clearDirtyForIo m' f =>
    cases dirty : (s.folio f).dirty with
    | false =>
      have unchanged : (s.folioClearDirtyForIo f).2 = false ∧ SameDirty s (s.folioClearDirtyForIo f).1 ∧
          (s.folioClearDirtyForIo f).1.stack = s.stack := by
        rw [folioClearDirtyForIo]
        split
        · have same : SameDirty s (s.modifyFolio f fun folio => { folio with dirty := false }) :=
            SameDirty.modifyFolio f dirty.symm rfl
          exact ⟨dirty, same, rfl⟩
        · rw [clearDirty, dirty, if_neg Bool.false_ne_true]
          exact ⟨rfl, SameDirty.refl s, rfl⟩
      obtain ⟨was, same, stack⟩ := unchanged
      simp only [runFrame, was, Bool.not_false, Bool.true_or, if_true] at happens
      cases happens
      exact Step.moves rfl here [_] (.clean m' f dirty) same stack
    | true =>
      cases owner : (s.folio f).mapping with
      | none =>
        rw [unmapped f owner] at dirty
        cases dirty
      | some m =>
        simp only [runFrame, folioClearDirtyForIo, owner] at happens
        split at happens
        · cases happens
          exact .clear t f m m' rest here owner dirty (.abandonWriteback f) rfl rfl rfl
        · cases happens
          exact .clear t f m m' rest here owner dirty (.writeFolio m' f false) rfl rfl rfl
  | abandonWriteback f =>
    cases happens
    exact Step.returns rfl here 0 0 (.other rfl (by simp)) (SameDirty.setWriteback s f false) rfl
  | writeFolio m f stored => cases happens
  | recordError m f err =>
    cases happens
    exact Step.moves rfl here [_] (.other rfl (by simp [Frame.pends])) (SameDirty.setWbErr s m _) rfl
  | endWriteback f err =>
    cases happens
    exact Step.moves rfl here [_] (.other rfl (by simp [Frame.pends])) (SameDirty.setWriteback s f false) rfl
  | testDirty f err | bothErrors err =>
    cases happens
    exact Step.returns rfl here _ 0 (.other rfl (by simp)) (SameDirty.refl s) rfl
  | wroteFolio m f arr err redirtied =>
    simp only [runFrame] at happens
    split at happens
    · cases happens
      exact Step.moves rfl here [_] (.further m f arr err _ redirtied _) (SameDirty.setHolder s f none) rfl
    · cases happens
      exact Step.moves rfl here [_] (.further m f arr err _ redirtied _) (SameDirty.setHolder s f none) rfl
  | retry m first last attempt =>
    rw [runFrame] at happens
    split at happens
    · cases happens
      exact Step.returns rfl here _ 0 (.other rfl (by simp)) (SameDirty.refl s) rfl
    · cases happens
      exact Step.moves rfl here [_, _] (.other rfl (by simp [Frame.pends])) (SameDirty.refl s) rfl
  | thenWait m first last =>
    cases happens
    exact Step.moves rfl here [_, _, _] (.wait m first last _) (SameDirty.refl s) rfl
  | waitRange m first last =>
    rw [runFrame] at happens
    cases victim : s.waitVictim m first last with
    | none =>
      rw [victim] at happens
      cases happens
      exact Step.moves rfl here [] (.waited m first last victim) (SameDirty.refl s) rfl
    | some f =>
      rw [victim] at happens
      cases happens
      exact Step.moves rfl here [_, _] (.waitMore m first last f) (SameDirty.refl s) rfl
  | waitWriteback f =>
    rw [runFrame] at happens
    split at happens
    · cases happens
    · cases happens
      exact Step.moves rfl here [] (.other rfl (by simp)) (SameDirty.refl s) rfl
  | reportWbErr m =>
    cases happens
    refine Step.returns rfl here _ 0 (.report m ?_) (SameDirty.setWbErr s m 0) rfl
    have field := modifyMapping_mapping s m m fun mapping => { mapping with wbErr := 0 }
    rw [if_pos rfl] at field
    exact congrArg Mapping.wbErr field
  | walkFrom w =>
    cases happens
    exact .walk t w rest here rfl rfl
  | visited w m err =>
    cases happens
    exact .resume t w m err rest here rfl rfl
  | syncLast sb =>
    cases happens
    exact Step.moves rfl here [_, _] (.secondPass sb _) (SameDirty.refl s) rfl
  | syncDone sb err =>
    cases happens
    refine @Step.move _ _ _ t _ rest [] here rfl (.other rfl (by simp)) ?_ ?_
    · exact ⟨fun _ => rfl, fun _ => rfl, fun _ => rfl, fun _ => rfl, fun _ => rfl, fun _ => rfl, rfl, rfl,
        fun _ _ => id⟩
    · rfl

/-- The step of a thread in the file system's `write_folio`. -/
theorem backend_step {m f : Nat} {stored : Bool} {b : Backend} (actor : event.actor = some t)
    (here : s.stack t = .writeFolio m f stored :: rest) (happens : s.backend t m f stored rest b = some s') :
    Step s event s' := by
  cases b with
  | store =>
    cases happens
    refine @Step.move _ _ _ t _ rest [.writeFolio m f true] here actor (.other rfl (by simp [Frame.pends])) ?_ rfl
    exact ⟨fun _ => rfl, fun _ => rfl, fun _ => rfl, fun _ => rfl, fun _ => rfl, fun _ => rfl, rfl, rfl,
      fun _ _ later => (Bool.and_eq_true _ _ ▸ later).1⟩
  | markDirty f' =>
    cases happens
    exact Step.moves actor here [_, _] (.other rfl (by simp [Frame.pends])) (SameDirty.refl s) rfl
  | startWriteback =>
    cases happens
    exact .idle (SameDirty.setWriteback s f true) rfl
  | endWriteback =>
    cases happens
    exact .idle (SameDirty.setWriteback s f false) rfl
  | unlock =>
    rw [backend] at happens
    split at happens
    · cases happens
      exact .idle (SameDirty.setHolder s f none) rfl
    · cases happens
  | lock =>
    rw [backend] at happens
    split at happens
    · cases happens
      exact .idle (SameDirty.setHolder s f (some t)) rfl
    · cases happens
  | returns err =>
    rw [backend] at happens
    split at happens
    · split at happens
      · cases happens
        exact Step.moves actor here [_] (.other rfl (by simp [Frame.pends])) (SameDirty.refl s) rfl
      · cases happens
        exact Step.moves actor here [_] (.other rfl (by simp [Frame.pends])) (SameDirty.refl s) rfl
    · cases happens

/-- Where the folios without a mapping are clean, every event is a step of one of the kinds. -/
theorem next_step (unmapped : ∀ f, (s.folio f).mapping = none → (s.folio f).dirty = false)
    (happens : s.next event = some s') : Step s event s' := by
  cases event with
  | tick =>
    cases happens
    refine .idle ?_ rfl
    exact ⟨fun _ => rfl, fun _ => rfl, fun _ => rfl, fun _ => rfl, fun _ => rfl, fun _ => rfl, rfl, rfl,
      fun _ _ => id⟩
  | insert m f index =>
    rw [next] at happens
    split at happens
    · rename_i free
      cases happens
      exact .insert m f index free rfl
    · cases happens
  | call t c =>
    rw [next] at happens
    split at happens
    · rename_i idle
      cases happens
      exact .call t c idle rfl rfl
    · cases happens
  | run t =>
    rw [next] at happens
    cases here : s.stack t with
    | nil =>
      rw [here] at happens
      cases happens
    | cons frame rest =>
      rw [here] at happens
      exact runFrame_step unmapped here happens
  | writeFolio t b =>
    rw [next] at happens
    split at happens
    · rename_i m f stored rest here
      exact backend_step rfl here happens
    · cases happens

end Inversion

end PageCache

end Ttntfs.Pagecache
