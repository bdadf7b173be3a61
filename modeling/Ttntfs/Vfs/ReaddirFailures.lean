import Ttntfs.Ntfs.IndexChange
import Ttntfs.Vfs.Readdir

/-!
# Enumerating a directory that cannot be read

An enumeration fails where a buffer cannot be allocated, a node of the index cannot be read
or an entry is inconsistent. Three of the allocations are made before the index is looked at
and are reported. All other failures end the listing: `ntfs_readdir` goes to its exit, where
an error is turned into success, and since no entry was refused the caller is told that the
directory is at its end. What is behind the failure is lost without a word.
-/

namespace Ttntfs.Vfs

open Ttntfs.Ntfs

/-- What `ntfs_readdir` has to do before it comes to the entries. -/
inductive Preparation where
  | nameBuffer
  | indexContext
  | readaheadState
  | privateData
  | searchContext
  | indexRoot
  | blockSize
  | indexAllocation
  | blocksReadahead
  deriving DecidableEq

/-- The preparations whose failure is returned. -/
def Preparation.reported : Preparation → Bool
  | .nameBuffer => true
  | .indexContext => true
  | .readaheadState => true
  | _ => false

/-- The index allocation is opened if the first entry has a child node. -/
def Preparation.needed (dir : DirectoryIndex) : Preparation → Bool
  | .indexAllocation => ((entryAt dir ⟨none, 0⟩).bind IndexEntry.child).isSome
  | .blocksReadahead => ((entryAt dir ⟨none, 0⟩).bind IndexEntry.child).isSome
  | _ => true

/-- The failures of a call: the preparation that fails, the steps of the walk with a read or an
allocation that fails, and the entries that are inconsistent. The 0th step leads to the first
entry, the 0th. -/
structure ReaddirFailures where
  preparation : Option Preparation
  reads : Nat → Bool
  check : Nat → Bool

/-- Whether the step from a position goes up. -/
def goesUp (dir : DirectoryIndex) (frames : List WalkFrame) (entry : IndexEntry) : Bool :=
  match frames with
  | [] => false
  | [_] => false
  | frame :: _ :: _ =>
    entry.isEnd ||
      match entryAt dir ⟨frame.node, frame.pos + 1⟩ with
      | none => false
      | some next => next.isEnd && next.child.isNone

/-- `ntfs_index_next`, where reading and allocating may fail: an error on the way down, but on
the way up there is no entry, as at the end of the index. -/
def ntfsIndexNextWith (fails : Bool) (dir : DirectoryIndex) (frames : List WalkFrame) (entry : IndexEntry) :
    WalkStep :=
  if fails && goesUp dir frames entry then .ended
  else if fails && !entry.isEnd && (stepDown dir frames).isSome then .failed
  else ntfsIndexNext dir frames entry

/-- The beginning of the walk: down from the first entry of the root, and up again from a
block without names. -/
def walkStart (fails : Bool) (dir : DirectoryIndex) : WalkStep :=
  match entryAt dir ⟨none, 0⟩ with
  | none => .failed
  | some entry =>
    match entry.child with
    | none => if entry.isEnd then ntfsIndexNextWith fails dir [⟨none, 0⟩] entry else .moved [⟨none, 0⟩] entry
    | some vcn =>
      if fails then .failed
      else
        match ntfsIndexWalkDown dir (maxParentVcn - 1) [⟨none, 0⟩] vcn with
        | none => .failed
        | some (frames, entry) =>
          if entry.isEnd then ntfsIndexNextWith fails dir frames entry else .moved frames entry

/-- The entries from the nth on, and whether the walk comes to what it takes for its end. -/
def walkFromWith (failures : ReaddirFailures) (dir : DirectoryIndex) :
    Nat → Nat → List WalkFrame → IndexEntry → List (IndexKey × Nat) × Bool
  | 0, _, _, _ => ([], false)
  | fuel + 1, n, frames, entry =>
    match entry with
    | .named key child =>
      if failures.check n then ([], false)
      else
        match ntfsIndexNextWith (failures.reads (n + 1)) dir frames entry with
        | .failed => ([readdirItem key child], false)
        | .ended => ([readdirItem key child], true)
        | .moved frames next =>
          let others := walkFromWith failures dir fuel (n + 1) frames next
          (readdirItem key child :: others.1, others.2)
    | _ => ([], false)

/-- The entries that the loop of `ntfs_readdir` comes to. -/
def walkIndexWith (failures : ReaddirFailures) (dir : DirectoryIndex) (fuel : Nat) :
    List (IndexKey × Nat) × Bool :=
  match walkStart (failures.reads 0) dir with
  | .failed => ([], false)
  | .ended => ([], true)
  | .moved frames entry => walkFromWith failures dir fuel 0 frames entry

/-- The way to the entries: an error that is returned, or the entries that are come to. -/
def readdirEntries (failures : ReaddirFailures) (dir : DirectoryIndex) (fuel : Nat) :
    Except NameError (List (IndexKey × Nat) × Bool) :=
  match failures.preparation.filter (Preparation.needed dir) with
  | none => .ok (walkIndexWith failures dir fuel)
  | some preparation => if preparation.reported then .error .enomem else .ok ([], false)

/-- Whether the callback refuses `.` or `..`. -/
def dotsRefused (cookie budget : Nat) : Bool := decide (cookie + budget < 2)

/-- `ntfs_readdir` with failures. -/
def ntfsReaddirWith (vol : ReaddirVolume) (failures : ReaddirFailures) (dir : DirectoryIndex)
    (fuel cookie budget : Nat) : Except NameError ReaddirCall :=
  if dotsRefused cookie budget then .ok (emitDots (fun pos _ => ⟨[], pos, false⟩) cookie budget)
  else
    match readdirEntries failures dir fuel with
    | .error error => .error error
    | .ok walked => .ok (emitDots (fillEntries vol walked.2 walked.1 2) cookie budget)

/-- The end of the directory, as `ntfs_readdir` of the interface tells it. -/
def ReaddirCall.eof (call : ReaddirCall) : Bool := !call.stopped

/-- The entries that are to be passed from a cookie on. -/
def shownFrom (vol : ReaddirVolume) (cookie : Nat) (entries : List (IndexKey × Nat)) : List (IndexKey × Nat) :=
  entries.filter fun entry => decide (cookie ≤ entry.2) && !isSkipped vol entry.1

/-- What the step to the next entry depends on: on nothing, on a read, or it leads nowhere. -/
inductive StepRisk where
  | inside
  | reading
  | stuck
  deriving DecidableEq

/-- The risk of the step from an entry with a name. It leads nowhere if the index is too deep
or if the next block has no name. -/
def stepRisk (dir : DirectoryIndex) (frames : List WalkFrame) (entry : IndexEntry) : StepRisk :=
  match frames, stepDown dir frames with
  | frame :: outer, some vcn =>
    match ntfsIndexWalkDown dir (maxParentVcn - (outer.length + 1)) (⟨frame.node, frame.pos + 1⟩ :: outer) vcn with
    | none => .stuck
    | some (_, next) => if next.isEnd then .stuck else .reading
  | _, _ => if goesUp dir frames entry then .reading else .inside

/-- The risk of the beginning of the walk. -/
def startRisk (dir : DirectoryIndex) : StepRisk :=
  match (entryAt dir ⟨none, 0⟩).bind IndexEntry.child with
  | none => .inside
  | some vcn => if (ntfsIndexWalkDown dir (maxParentVcn - 1) [⟨none, 0⟩] vcn).isSome then .reading else .stuck

/-- The risks of the steps of the walk that are behind a position. -/
def risksFrom (dir : DirectoryIndex) : Nat → List WalkFrame → IndexEntry → List StepRisk
  | 0, _, _ => []
  | fuel + 1, frames, entry =>
    stepRisk dir frames entry ::
      match ntfsIndexNext dir frames entry with
      | .moved frames next => risksFrom dir fuel frames next
      | _ => []

/-- The risks of all steps of the walk, the nth of which leads to the nth entry. -/
def walkRisks (dir : DirectoryIndex) (fuel : Nat) : List StepRisk :=
  startRisk dir ::
    match walkStart false dir with
    | .moved frames entry => risksFrom dir fuel frames entry
    | _ => []

/-- Whether a step with this risk comes to nothing. -/
def Breaks (fails : Bool) (risk : StepRisk) : Prop := (risk = .reading ∧ fails = true) ∨ risk = .stuck

/-- Whether the nth step or the nth entry ends the walk. -/
def Disturbs (failures : ReaddirFailures) (dir : DirectoryIndex) (fuel n : Nat) : Prop :=
  failures.check n = true ∨ Breaks (failures.reads n) ((walkRisks dir fuel).getD n .inside)

/-- Whether an unreported failure hits the nth step or what is before it. -/
def CutsAt (failures : ReaddirFailures) (dir : DirectoryIndex) (fuel n : Nat) : Prop :=
  (n = 0 ∧ (failures.preparation.filter (Preparation.needed dir)).isSome) ∨
    Disturbs failures dir fuel n

/-- An index with its entries in the order of the tree. -/
def HoldsItems (dir : DirectoryIndex) (items : List (IndexKey × Nat)) : Prop :=
  ∃ depth, listEntries readdirItem (listBlock readdirItem dir depth) dir.root = some items

/-- Whether a failure before the entries is reported. -/
def failureReported (failures : ReaddirFailures) (dir : DirectoryIndex) : Bool :=
  (failures.preparation.filter (Preparation.needed dir)).any Preparation.reported

section Walk

variable {dir : DirectoryIndex} {failures : ReaddirFailures} {frames : List WalkFrame}
variable {items : List (IndexKey × Nat)} {key : IndexKey} {child : Option Int} {bound fuel n : Nat}

theorem next_of_stepDown {node : Option Int} {pos : Nat} {outer : List WalkFrame} {vcn : Int}
    (down : stepDown dir (⟨node, pos⟩ :: outer) = some vcn) :
    goesUp dir (⟨node, pos⟩ :: outer) (.named key child) = false ∧
      ntfsIndexNext dir (⟨node, pos⟩ :: outer) (.named key child) =
        match ntfsIndexWalkDown dir (maxParentVcn - (outer.length + 1)) (⟨node, pos + 1⟩ :: outer) vcn with
        | none => .failed
        | some found => walkStep (some found) := by
  simp only [stepDown] at down
  obtain ⟨next, found, under⟩ := Option.bind_eq_some_iff.mp down
  constructor
  · cases outer with
    | nil => rfl
    | cons parent rest => simp [goesUp, IndexEntry.isEnd, found, under]
  · cases walked : ntfsIndexWalkDown dir (maxParentVcn - (outer.length + 1)) (⟨node, pos + 1⟩ :: outer) vcn <;>
      simp only [ntfsIndexNext, IndexEntry.isEnd, Bool.false_eq_true, if_false, found, under, walked]

/-- A step that breaks leads to no entry. -/
theorem step_breaks {node : Option Int} {pos : Nat} {outer : List WalkFrame} {fails : Bool}
    (breaks : Breaks fails (stepRisk dir (⟨node, pos⟩ :: outer) (.named key child))) :
    ntfsIndexNextWith fails dir (⟨node, pos⟩ :: outer) (.named key child) = .failed ∨
      ntfsIndexNextWith fails dir (⟨node, pos⟩ :: outer) (.named key child) = .ended := by
  cases down : stepDown dir (⟨node, pos⟩ :: outer) with
  | none =>
    have up : goesUp dir (⟨node, pos⟩ :: outer) (.named key child) = true ∧ fails = true := by
      simp only [Breaks, stepRisk, down] at breaks
      cases up : goesUp dir (⟨node, pos⟩ :: outer) (.named key child) <;> simp [up] at breaks
      exact ⟨rfl, breaks⟩
    right
    simp [ntfsIndexNextWith, up.1, up.2]
  | some vcn =>
    obtain ⟨level, onward⟩ := @next_of_stepDown dir key child node pos outer vcn down
    cases fails with
    | true =>
      left
      simp [ntfsIndexNextWith, level, down, IndexEntry.isEnd]
    | false =>
      have stuck : stepRisk dir (⟨node, pos⟩ :: outer) (.named key child) = .stuck := by
        simpa [Breaks] using breaks
      simp only [stepRisk, down] at stuck
      simp only [ntfsIndexNextWith, Bool.false_and, Bool.false_eq_true, if_false, onward]
      cases walked : ntfsIndexWalkDown dir (maxParentVcn - (outer.length + 1)) (⟨node, pos + 1⟩ :: outer) vcn with
      | none => exact .inl rfl
      | some found =>
        obtain ⟨frames, next⟩ := found
        have last : next.isEnd = true := by
          simp only [walked] at stuck
          by_contra named
          simp [named] at stuck
        right
        simp [walkStep, last]

/-- A step that does not break is a step of `ntfs_index_next`, and leads to the next item. -/
theorem step_walksOn (walk : WalkAt readdirItem dir frames (.named key child) bound items) {fails : Bool}
    (whole : ¬ Breaks fails (stepRisk dir frames (.named key child))) :
    ntfsIndexNextWith fails dir frames (.named key child) = ntfsIndexNext dir frames (.named key child) ∧
      ∃ rest, items = readdirItem key child :: rest ∧
        WalksOn readdirItem dir bound rest (ntfsIndexNext dir frames (.named key child)) := by
  constructor
  · obtain ⟨⟨node, pos⟩, outer, rfl, _⟩ := walk.place
    cases fails with
    | false => simp [ntfsIndexNextWith]
    | true =>
      cases down : stepDown dir (⟨node, pos⟩ :: outer) with
      | none =>
        have level : goesUp dir (⟨node, pos⟩ :: outer) (.named key child) = false := by
          by_contra up
          exact whole (by simp [Breaks, stepRisk, down, up])
        simp [ntfsIndexNextWith, level, down]
      | some vcn =>
        refine absurd ?_ whole
        simp only [Breaks, stepRisk, down]
        split
        · exact .inr rfl
        · split
          · exact .inr rfl
          · exact .inl ⟨rfl, trivial⟩
  · apply next_of_descends walk
    rintro node pos outer vcn depth left here rfl down listed stack room
    simp only [Breaks, stepRisk, down] at whole
    cases walked : ntfsIndexWalkDown dir (maxParentVcn - (outer.length + 1)) (⟨node, pos + 1⟩ :: outer) vcn with
    | none => simp [walked] at whole
    | some found =>
      obtain ⟨frames, next⟩ := found
      have named : next.isEnd = false := by
        by_contra last
        simp [walked, last] at whole
      exact ⟨frames, next, rfl, (walkDown_reaches listed stack room walked).1 named⟩

/-- A list of entries is cut before a failure: it is what stands before the first step that is
disturbed. -/
structure CutBefore (disturbed : Nat → Prop) (items found : List (IndexKey × Nat)) : Prop where
  cut : ∃ k ≤ items.length, found = items.take k ∧ (k < items.length → disturbed k) ∧
    ∀ i < k, i < items.length → ¬ disturbed i

theorem CutBefore.nothing {disturbed : Nat → Prop} (first : items ≠ [] → disturbed 0) :
    CutBefore disturbed items [] where
  cut := by
    refine ⟨0, Nat.zero_le _, rfl, ?_, ?_⟩
    · intro some
      exact first (List.ne_nil_of_length_pos some)
    · intro i early
      cases early

theorem CutBefore.congr {disturbed disturbed' : Nat → Prop} {found : List (IndexKey × Nat)}
    (cut : CutBefore disturbed items found) (same : ∀ i, disturbed i ↔ disturbed' i) :
    CutBefore disturbed' items found where
  cut := by
    obtain ⟨k, within, rfl, last, before⟩ := cut.cut
    exact ⟨k, within, rfl, fun more => (same k).mp (last more), fun i early inside disturb =>
      before i early inside ((same i).mpr disturb)⟩

theorem CutBefore.cons {disturbed : Nat → Prop} {item : IndexKey × Nat} {found : List (IndexKey × Nat)}
    (others : CutBefore (fun i => disturbed (i + 1)) items found) (first : ¬ disturbed 0) :
    CutBefore disturbed (item :: items) (item :: found) where
  cut := by
    obtain ⟨k, within, rfl, last, before⟩ := others.cut
    refine ⟨k + 1, ?_, rfl, ?_, ?_⟩
    · rw [List.length_cons]
      omega
    · intro more
      exact last (by rw [List.length_cons] at more; omega)
    · intro i early inside
      cases i with
      | zero => exact first
      | succ i => exact before i (by omega) (by rw [List.length_cons] at inside; omega)

/-- The entries that a walk comes to are those before the first failure. -/
theorem walkFromWith_cut {entry : IndexEntry} (walk : WalkAt readdirItem dir frames entry bound items)
    (enough : items.length ≤ fuel) :
    CutBefore
      (fun i => failures.check (n + i) = true ∨
        (0 < i ∧ Breaks (failures.reads (n + i)) ((risksFrom dir fuel frames entry).getD (i - 1) .inside)))
      items (walkFromWith failures dir fuel n frames entry).1 := by
  induction fuel generalizing frames entry items n with
  | zero =>
    obtain rfl : items = [] := List.eq_nil_of_length_eq_zero (by omega)
    exact .nothing (fun some => absurd rfl some)
  | succ fuel ih =>
    obtain ⟨key, child, rfl⟩ := walk.named
    rw [walkFromWith]
    cases check : failures.check n with
    | true => exact .nothing (fun _ => .inl (by simpa using check))
    | false =>
      simp only [Bool.false_eq_true, if_false]
      by_cases breaks : Breaks (failures.reads (n + 1)) (stepRisk dir frames (.named key child))
      · obtain ⟨rest, rfl⟩ := walk.items_named
        obtain ⟨⟨node, pos⟩, outer, rfl, _⟩ := walk.place
        have here : CutBefore
            (fun i => failures.check (n + i) = true ∨ (0 < i ∧ Breaks (failures.reads (n + i))
              ((risksFrom dir (fuel + 1) (⟨node, pos⟩ :: outer) (.named key child)).getD (i - 1) .inside)))
            (readdirItem key child :: rest) [readdirItem key child] := by
          refine .cons (.nothing fun _ => .inr ⟨by omega, ?_⟩) (by simp [check])
          simpa [risksFrom] using breaks
        obtain failed | ended := step_breaks breaks
        · rw [failed]
          exact here
        · rw [ended]
          exact here
      · obtain ⟨same, rest, rfl, walks⟩ := step_walksOn walk breaks
        rw [same]
        obtain ⟨frames', next, moved, onward⟩ | ⟨ended, rfl⟩ := walks
        · have others := @ih frames' rest (n + 1) next onward (by simpa using enough)
          simp only [moved, risksFrom]
          refine .cons (others.congr ?_) (by simp [check])
          intro i
          rw [show n + 1 + i = n + (i + 1) by omega]
          cases i with
          | zero => simp [breaks]
          | succ i => simp
        · rw [ended]
          refine .cons (.nothing fun some => absurd rfl some) (by simp [check])

theorem walkStart_breaks {fails : Bool} (breaks : Breaks fails (startRisk dir)) : walkStart fails dir = .failed := by
  simp only [startRisk] at breaks
  rw [walkStart]
  cases first : entryAt dir ⟨none, 0⟩ with
  | none => rfl
  | some entry =>
    cases under : entry.child with
    | none => simp [Breaks, first, under] at breaks
    | some vcn =>
      cases fails with
      | true => simp [under]
      | false =>
        cases walked : ntfsIndexWalkDown dir (maxParentVcn - 1) [⟨none, 0⟩] vcn with
        | none => simp [under, walked]
        | some found => simp [Breaks, first, under, walked] at breaks

/-- The beginning of the walk leads to the first item. -/
theorem walkStart_walksOn (holds : HoldsItems dir items) {fails : Bool} (whole : ¬ Breaks fails (startRisk dir)) :
    walkStart fails dir = walkStart false dir ∧ ∃ bound, WalksOn readdirItem dir bound items (walkStart false dir) := by
  obtain ⟨depth, listed⟩ := holds
  have start : entryAt dir ⟨none, 0⟩ = dir.root[0]? := rfl
  have stackAt {list : List (IndexKey × Nat)}
      (here : frameItems readdirItem (listBlock readdirItem dir depth) dir.root = some list) :
      WalkStack readdirItem dir depth [⟨none, 0⟩] list := .root (by rw [List.drop_zero]; exact here)
  have down {vcn : Int} {left here : List (IndexKey × Nat)}
      (first : ∃ entry, entryAt dir ⟨none, 0⟩ = some entry ∧ entry.child = some vcn)
      (inner : listBlock readdirItem dir depth vcn = some left)
      (stack : WalkStack readdirItem dir depth [⟨none, 0⟩] here) :
      walkStart fails dir = walkStart false dir ∧
        ∃ bound, WalksOn readdirItem dir bound (left ++ here) (walkStart false dir) := by
    obtain ⟨entry, found, under⟩ := first
    simp only [Breaks, startRisk, found, Option.bind_some, under] at whole
    cases walked : ntfsIndexWalkDown dir (maxParentVcn - 1) [⟨none, 0⟩] vcn with
    | none => simp [walked] at whole
    | some reached =>
      obtain ⟨frames, next⟩ := reached
      obtain rfl : fails = false := by simpa [walked] using whole
      refine ⟨rfl, 1 + depth, ?_⟩
      have room : [(⟨none, 0⟩ : WalkFrame)].length + depth ≤ 1 + depth := Nat.le_refl _
      obtain ⟨named, up⟩ := walkDown_reaches inner stack room walked
      simp only [walkStart, found, under, walked, Bool.false_eq_true, if_false]
      cases last : next.isEnd with
      | true =>
        simp only [if_true, ntfsIndexNextWith, Bool.false_and, Bool.false_eq_true, if_false, ntfsIndexNext, last]
        exact up last
      | false => exact .inl ⟨frames, next, rfl, named last⟩
  cases root : dir.root with
  | nil => simp [root, listEntries] at listed
  | cons entry rest =>
    rw [root] at listed stackAt start
    rw [List.getElem?_cons_zero] at start
    cases entry with
    | corrupt => cases listed
    | last child =>
      cases child with
      | none =>
        obtain rfl : items = [] := by simpa [listEntries, listChild] using listed.symm
        have ended (fails : Bool) : walkStart fails dir = .ended := by
          cases fails <;> simp only [walkStart, start, IndexEntry.child] <;> rfl
        exact ⟨by rw [ended, ended], 0, .inr ⟨ended false, rfl⟩⟩
      | some vcn =>
        have found := down ⟨_, start, rfl⟩ listed (stackAt rfl)
        rwa [List.append_nil] at found
    | named key child =>
      obtain ⟨left, right, leftItems, rightItems, rfl⟩ := listEntries_named readdirItem listed
      have stack := stackAt (show frameItems readdirItem _ _ = some (readdirItem key child :: right) by
        rw [frameItems, rightItems]; rfl)
      cases child with
      | none =>
        obtain rfl : left = [] := by simpa [listChild] using leftItems.symm
        have moved (fails : Bool) : walkStart fails dir = .moved [⟨none, 0⟩] (.named key none) := by
          simp only [walkStart, start, IndexEntry.child, IndexEntry.isEnd, Bool.false_eq_true, if_false]
        refine ⟨by rw [moved, moved], 1 + depth, .inl ⟨_, _, moved false, ?_⟩⟩
        exact ⟨⟨_, _, rfl⟩, ⟨_, _, rfl, start⟩, depth, stack, by simp⟩
      | some vcn => exact down ⟨_, start, rfl⟩ leftItems stack

theorem walkIndexWith_cut (holds : HoldsItems dir items) (enough : items.length ≤ fuel) :
    CutBefore (Disturbs failures dir fuel) items (walkIndexWith failures dir fuel).1 := by
  rw [walkIndexWith]
  by_cases breaks : Breaks (failures.reads 0) (startRisk dir)
  · rw [walkStart_breaks breaks]
    exact .nothing fun _ => .inr breaks
  obtain ⟨same, bound, walks⟩ := walkStart_walksOn holds breaks
  rw [same]
  obtain ⟨frames, entry, moved, walk⟩ | ⟨ended, rfl⟩ := walks
  · simp only [moved]
    refine (@walkFromWith_cut dir failures _ _ _ _ 0 entry walk enough).congr ?_
    intro i
    rw [Disturbs, walkRisks, moved, Nat.zero_add]
    cases i with
    | zero => simp [breaks]
    | succ i => simp
  · rw [ended]
    exact .nothing fun some => absurd rfl some

end Walk

section Call

variable {vol : ReaddirVolume} {dir : DirectoryIndex} {failures : ReaddirFailures}
variable {items : List (IndexKey × Nat)} {fuel cookie budget : Nat}

theorem shownFrom_of_le {iePos pos other : Nat} (low : pos ≤ iePos) (otherLow : other ≤ iePos) :
    shownFrom vol pos (places iePos items) = shownFrom vol other (places iePos items) := by
  apply List.filter_congr
  rintro ⟨key, place⟩ listed
  have lower := places_ge listed
  have first : pos ≤ place := le_trans low lower
  have second : other ≤ place := le_trans otherLow lower
  simp [first, second]

/-- The loop over the entries takes as many of those that are to be passed as the callback
takes, and is stopped if there are more. -/
theorem fillEntries_shown (complete : Bool) (iePos pos budget : Nat) :
    (fillEntries vol complete items iePos pos budget).taken =
        ((shownFrom vol pos (places iePos items)).take budget).map (fun entry => .entry entry.1) ∧
      (fillEntries vol complete items iePos pos budget).stopped =
        decide (budget < (shownFrom vol pos (places iePos items)).length) := by
  induction items generalizing iePos pos budget with
  | nil => simp [fillEntries, places, shownFrom]
  | cons item rest ih =>
    obtain ⟨key, length⟩ := item
    rw [fillEntries, places]
    by_cases before : iePos < pos
    · have out : shownFrom vol pos ((key, iePos) :: places (iePos + length) rest) =
          shownFrom vol pos (places (iePos + length) rest) := by
        rw [shownFrom, List.filter_cons_of_neg]
        · rfl
        · simp [Nat.not_le.mpr before]
      rw [if_pos before, out]
      exact ih (iePos + length) pos budget
    · rw [if_neg before]
      have here : pos ≤ iePos := Nat.le_of_not_lt before
      have same : shownFrom vol pos (places (iePos + length) rest) =
          shownFrom vol iePos (places (iePos + length) rest) := shownFrom_of_le (by omega) (by omega)
      cases skipped : isSkipped vol key with
      | true =>
        have out : shownFrom vol pos ((key, iePos) :: places (iePos + length) rest) =
            shownFrom vol iePos (places (iePos + length) rest) := by
          rw [← same, shownFrom, List.filter_cons_of_neg]
          · rfl
          · simp [skipped]
        simp only [if_true]
        rw [out]
        exact ih (iePos + length) iePos budget
      | false =>
        have taken : shownFrom vol pos ((key, iePos) :: places (iePos + length) rest) =
            (key, iePos) :: shownFrom vol iePos (places (iePos + length) rest) := by
          rw [← same, shownFrom, List.filter_cons_of_pos]
          · rfl
          · simp [here, skipped]
        simp only [Bool.false_eq_true, if_false]
        rw [taken]
        cases budget with
        | zero => simp
        | succ budget =>
          obtain ⟨others, stopped⟩ := ih (iePos + length) iePos budget
          simp [others, stopped]

/-- `.` and `..`, where they are not refused, and what follows them. -/
theorem emitDots_entries (entries : Nat → Nat → ReaddirCall) (passed : dotsRefused cookie budget = false) :
    ∃ dots : List Dirent, (∀ dirent ∈ dots, dirent = .dot ∨ dirent = .dotdot) ∧
      emitDots entries cookie budget =
        let others := entries (max cookie 2) (budget - (2 - cookie))
        { others with taken := dots ++ others.taken } := by
  simp only [dotsRefused, decide_eq_false_iff_not] at passed
  rcases cookie with _ | _ | cookie
  · obtain ⟨more, rfl⟩ : ∃ more, budget = more + 2 := ⟨budget - 2, by omega⟩
    exact ⟨[.dot, .dotdot], by simp, rfl⟩
  · obtain ⟨more, rfl⟩ : ∃ more, budget = more + 1 := ⟨budget - 1, by omega⟩
    exact ⟨[.dotdot], by simp, rfl⟩
  · refine ⟨[], by simp, ?_⟩
    rw [show max (cookie + 2) 2 = cookie + 2 by omega, show budget - (2 - (cookie + 2)) = budget by omega]
    rfl

/-- Where no failure is reported the entries that are come to are those before the first
failure. -/
theorem readdirEntries_cut (holds : HoldsItems dir items) (enough : items.length ≤ fuel)
    (unreported : failureReported failures dir = false) :
    ∃ walked, readdirEntries failures dir fuel = .ok walked ∧ CutBefore (CutsAt failures dir fuel) items walked.1 := by
  simp only [failureReported] at unreported
  simp only [readdirEntries]
  cases failed : failures.preparation.filter (Preparation.needed dir) with
  | none =>
    refine ⟨_, rfl, (walkIndexWith_cut holds enough).congr ?_⟩
    intro n
    simp [CutsAt, failed]
  | some preparation =>
    rw [failed, Option.any_some] at unreported
    simp only [unreported, Bool.false_eq_true, if_false]
    exact ⟨([], false), rfl, .nothing fun _ => .inl ⟨rfl, by rw [failed]; rfl⟩⟩

theorem places_take (iePos k : Nat) : places iePos (items.take k) = (places iePos items).take k := by
  induction items generalizing iePos k with
  | nil => simp [places]
  | cons item rest ih =>
    cases k with
    | zero => rfl
    | succ k =>
      simp only [List.take_succ_cons, places]
      rw [ih]

/-- A call whose entries are cut before the first failure passes all that are to be passed, if it
is not stopped, just when no failure comes before one of them. -/
theorem call_whole_iff {disturbed : Nat → Prop} {found : List (IndexKey × Nat)} (cut : CutBefore disturbed items found)
    (passed : dotsRefused cookie budget = false) (complete : Bool) :
    ((emitDots (fillEntries vol complete found 2) cookie budget).eof = true →
        ((shownFrom vol cookie (places 2 items)).map fun entry => Dirent.entry entry.1).Sublist
          (emitDots (fillEntries vol complete found 2) cookie budget).taken) ↔
      ∀ n, disturbed n → budget - (2 - cookie) < (shownFrom vol cookie ((places 2 items).take n)).length ∨
        shownFrom vol cookie ((places 2 items).drop n) = [] := by
  obtain ⟨k, within, rfl, last, before⟩ := cut.cut
  obtain ⟨dots, onlyDots, call⟩ := emitDots_entries (fillEntries vol complete (items.take k) 2) passed
  obtain ⟨taken, stopped⟩ := @fillEntries_shown vol (items.take k) complete 2 (max cookie 2) (budget - (2 - cookie))
  have cookies : shownFrom vol (max cookie 2) (places 2 (items.take k)) =
      shownFrom vol cookie ((places 2 items).take k) := by
    rw [places_take]
    rcases Nat.lt_or_ge cookie 2 with low | high
    · rw [show max cookie 2 = 2 by omega, ← places_take, shownFrom_of_le (Nat.le_refl 2) (Nat.le_of_lt low)]
    · rw [show max cookie 2 = cookie by omega]
  have parts (n : Nat) : shownFrom vol cookie (places 2 items) =
      shownFrom vol cookie ((places 2 items).take n) ++ shownFrom vol cookie ((places 2 items).drop n) := by
    rw [shownFrom, shownFrom, shownFrom, ← List.filter_append, List.take_append_drop]
  have grows {m n : Nat} (le : m ≤ n) : (shownFrom vol cookie ((places 2 items).take m)).length ≤
      (shownFrom vol cookie ((places 2 items).take n)).length :=
    ((List.take_sublist_take_left le).filter _).length_le
  rw [cookies] at taken stopped
  rw [call]
  simp only [ReaddirCall.eof, taken, stopped, Bool.not_eq_true', decide_eq_false_iff_not, Nat.not_lt]
  constructor
  · intro whole n cuts
    rcases Nat.lt_or_ge n k with early | late
    · exact absurd cuts (before n early (by omega))
    rcases Nat.lt_or_ge (budget - (2 - cookie)) (shownFrom vol cookie ((places 2 items).take k)).length with
      refused | room
    · exact .inl (lt_of_lt_of_le refused (grows late))
    · right
      have counted := @List.Sublist.countP_le _ (fun dirent => decide (dirent ≠ .dot ∧ dirent ≠ .dotdot)) _ _
        (whole room)
      have noDots : dots.countP (fun dirent => decide (dirent ≠ .dot ∧ dirent ≠ .dotdot)) = 0 := by
        rw [List.countP_eq_zero]
        intro dirent member
        rcases onlyDots dirent member with rfl | rfl <;> simp
      have entries (list : List (IndexKey × Nat)) :
          (list.map fun entry => Dirent.entry entry.1).countP
            (fun dirent => decide (dirent ≠ .dot ∧ dirent ≠ .dotdot)) = list.length := by
        rw [List.countP_map, List.countP_eq_length]
        intro entry _
        simp
      rw [List.countP_append, noDots, entries, entries, List.take_of_length_le room, parts n,
        List.length_append] at counted
      have most := grows late
      exact List.eq_nil_of_length_eq_zero (by omega)
  · intro holds room
    have all : shownFrom vol cookie (places 2 items) = shownFrom vol cookie ((places 2 items).take k) := by
      rcases Nat.lt_or_ge k items.length with inside | whole
      · obtain refused | nothing := holds k (last inside)
        · omega
        · rw [parts k, nothing, List.append_nil]
      · rw [← places_take, List.take_of_length_le whole]
    rw [List.take_of_length_le room, all]
    exact List.sublist_append_right _ _

/-- When the end of a directory is told, every entry from the cookie on that is not skipped has
been passed, if and only if no unreported failure comes before such an entry: the callback
refuses an entry before, or the failure is one of an allocation that is made before the
index is looked at. -/
theorem readdir_end_iff (holds : HoldsItems dir items) (enough : items.length ≤ fuel) :
    (∀ call, ntfsReaddirWith vol failures dir fuel cookie budget = .ok call → call.eof = true →
        ((shownFrom vol cookie (places 2 items)).map fun entry => Dirent.entry entry.1).Sublist call.taken) ↔
      dotsRefused cookie budget = true ∨ failureReported failures dir = true ∨
        ∀ n, CutsAt failures dir fuel n →
          budget - (2 - cookie) < (shownFrom vol cookie ((places 2 items).take n)).length ∨
            shownFrom vol cookie ((places 2 items).drop n) = [] := by
  rw [ntfsReaddirWith]
  cases refused : dotsRefused cookie budget with
  | true =>
    simp only [if_true, true_or, iff_true, Except.ok.injEq, forall_eq']
    intro finished
    exfalso
    simp only [dotsRefused, decide_eq_true_eq] at refused
    obtain ⟨rfl, rfl⟩ | ⟨rfl, rfl⟩ | ⟨rfl, rfl⟩ : (cookie = 0 ∧ budget = 0) ∨ (cookie = 0 ∧ budget = 1) ∨
      (cookie = 1 ∧ budget = 0) := by omega
    all_goals cases finished
  | false =>
    simp only [Bool.false_eq_true, if_false, false_or]
    cases reported : failureReported failures dir with
    | true =>
      simp only [readdirEntries, true_or, iff_true]
      cases failed : failures.preparation.filter (Preparation.needed dir) with
      | none => simp [failureReported, failed] at reported
      | some preparation =>
        have returned : preparation.reported = true := by simpa [failureReported, failed] using reported
        simp [returned]
    | false =>
      obtain ⟨walked, entries, cut⟩ := readdirEntries_cut holds enough reported
      simp only [entries, Except.ok.injEq, forall_eq', Bool.false_eq_true, false_or]
      exact call_whole_iff cut refused walked.2

end Call

/-- The second of three entries is inconsistent, and a call that passes only the first tells the
end of the directory. -/
theorem readdir_inconsistent_entry :
    ∃ call, HoldsItems (letterIndex [97, 98, 99]) (letterItems [97, 98, 99]) ∧
      ntfsReaddirWith openVolume ⟨none, fun _ => false, fun n => n == 1⟩ (letterIndex [97, 98, 99]) 3 0 9 = .ok call ∧
      call.eof = true ∧ ¬ ((shownFrom openVolume 0 (places 2 (letterItems [97, 98, 99]))).map fun entry =>
        Dirent.entry entry.1).Sublist call.taken :=
  ⟨⟨[.dot, .dotdot, .entry (letterKey 97)], 2, false⟩, ⟨0, rfl⟩, rfl, rfl, by decide⟩

/-- A call that passes all three entries is told the end of the directory, which no failure
comes before. -/
theorem readdir_end_iff_reached :
    (∀ call, ntfsReaddirWith openVolume ⟨none, fun _ => false, fun n => n == 3⟩ (letterIndex [97, 98, 99]) 3 0 9 =
        .ok call →
      call.eof = true → ((shownFrom openVolume 0 (places 2 (letterItems [97, 98, 99]))).map fun entry =>
        Dirent.entry entry.1).Sublist call.taken) ∧
      ∃ call, ntfsReaddirWith openVolume ⟨none, fun _ => false, fun n => n == 3⟩ (letterIndex [97, 98, 99]) 3 0 9 =
        .ok call ∧ call.eof = true := by
  refine ⟨(readdir_end_iff ⟨0, rfl⟩ (Nat.le_refl 3)).mpr (.inr (.inr ?_)), _, rfl, rfl⟩
  rintro n (⟨rfl, failed⟩ | disturbed)
  · cases failed
  · have risks : walkRisks (letterIndex [97, 98, 99]) 3 = [.inside, .inside, .inside, .inside] := rfl
    simp only [Disturbs, Breaks, risks] at disturbed
    obtain rfl : n = 3 := by
      rcases n with _ | _ | _ | _ | n <;> simp at disturbed
      rfl
    exact .inr (by decide)

end Ttntfs.Vfs
