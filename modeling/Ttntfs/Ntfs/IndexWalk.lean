import Ttntfs.Ntfs.DirectoryIndex

/-!
# Walking an index in order

`ntfs_index_next` goes from one entry of an index to the next. The context keeps a stack of
nodes, each with the position in it: the walk goes down to the first entry of the leftmost
leaf below an entry, and up again when a node is at its end. The items that are left at
any moment are those behind the positions of all nodes on the stack.
-/

namespace Ttntfs.Ntfs

/-- `MAX_PARENT_VCN` -/
def maxParentVcn : Nat := 32

/-- A level of the walk: the vcn of its block, none for the root, and the position in it. -/
structure WalkFrame where
  node : Option Int
  pos : Nat
  deriving DecidableEq

/-- The child node of an entry. -/
def IndexEntry.child : IndexEntry → Option Int
  | .corrupt => none
  | .named _ child => child
  | .last child => child

/-- `INDEX_ENTRY_END` -/
def IndexEntry.isEnd : IndexEntry → Bool
  | .last _ => true
  | _ => false

/-- The entries of a node, if it can be read. -/
def nodeEntries (dir : DirectoryIndex) : Option Int → Option (List IndexEntry)
  | none => some dir.root
  | some vcn => (dir.block vcn).map (·.entries)

/-- `ntfs_ie_get_by_pos` -/
def entryAt (dir : DirectoryIndex) (frame : WalkFrame) : Option IndexEntry :=
  match nodeEntries dir frame.node with
  | none => none
  | some entries => entries[frame.pos]?

/-- `ntfs_index_walk_down`, with the number of levels that are left for the context. There
is no result when a block cannot be read or the index is too deep. -/
def ntfsIndexWalkDown (dir : DirectoryIndex) :
    Nat → List WalkFrame → Int → Option (List WalkFrame × IndexEntry)
  | 0, _, _ => none
  | levels + 1, frames, vcn =>
    match entryAt dir ⟨some vcn, 0⟩ with
    | none => none
    | some entry =>
      match entry.child with
      | some child => ntfsIndexWalkDown dir levels (⟨some vcn, 0⟩ :: frames) child
      | none => some (⟨some vcn, 0⟩ :: frames, entry)

/-- `ntfs_index_walk_up` -/
def ntfsIndexWalkUp (dir : DirectoryIndex) : List WalkFrame → Option (List WalkFrame × IndexEntry)
  | [] => none
  | [_] => none
  | _ :: parent :: rest =>
    match entryAt dir parent with
    | none => none
    | some entry =>
      if entry.isEnd ∧ rest ≠ [] then ntfsIndexWalkUp dir (parent :: rest)
      else some (parent :: rest, entry)

/-- Where a step of the walk leads to. -/
inductive WalkStep where
  | failed
  | ended
  | moved (frames : List WalkFrame) (entry : IndexEntry)

/-- The end of `ntfs_index_next`: an entry without a name is the end of the walk. -/
def walkStep : Option (List WalkFrame × IndexEntry) → WalkStep
  | none => .ended
  | some (frames, entry) => if entry.isEnd then .ended else .moved frames entry

/-- `ntfs_index_next` -/
def ntfsIndexNext (dir : DirectoryIndex) (frames : List WalkFrame) (entry : IndexEntry) : WalkStep :=
  if entry.isEnd then walkStep (ntfsIndexWalkUp dir frames)
  else
    match frames with
    | [] => .failed
    | frame :: outer =>
      let frame : WalkFrame := ⟨frame.node, frame.pos + 1⟩
      match entryAt dir frame with
      | none => .failed
      | some next =>
        match next.child with
        | some vcn =>
          match ntfsIndexWalkDown dir (maxParentVcn - (outer.length + 1)) (frame :: outer) vcn with
          | none => .failed
          | some found => walkStep (some found)
        | none =>
          if next.isEnd then walkStep (ntfsIndexWalkUp dir (frame :: outer))
          else .moved (frame :: outer) next

/-- The child that the step from a position goes down to. -/
def stepDown (dir : DirectoryIndex) : List WalkFrame → Option Int
  | [] => none
  | frame :: _ => (entryAt dir ⟨frame.node, frame.pos + 1⟩).bind IndexEntry.child

section Walk

variable {α : Type} (item : IndexKey → Option Int → α)

/-- The items from an entry on, and whether the walk comes to its end. An entry that fails
the consistency check ends it early. -/
def walkFrom (dir : DirectoryIndex) : Nat → List WalkFrame → IndexEntry → List α × Bool
  | 0, _, _ => ([], false)
  | fuel + 1, frames, entry =>
    match entry with
    | .named key child =>
      match ntfsIndexNext dir frames entry with
      | .failed => ([item key child], false)
      | .ended => ([item key child], true)
      | .moved frames next =>
        let others := walkFrom dir fuel frames next
        (item key child :: others.1, others.2)
    | _ => ([], false)

/-- The items from the first entry that the walk comes to. -/
def visitFrom (dir : DirectoryIndex) (fuel : Nat) (frames : List WalkFrame) (entry : IndexEntry) :
    List α × Bool :=
  if entry.isEnd then
    match ntfsIndexNext dir frames entry with
    | .failed => ([], false)
    | .ended => ([], true)
    | .moved frames entry => walkFrom item dir fuel frames entry
  else walkFrom item dir fuel frames entry

/-- The entries of an index as a walk from its first entry finds them. -/
def walkIndex (dir : DirectoryIndex) (fuel : Nat) : List α × Bool :=
  match entryAt dir ⟨none, 0⟩ with
  | none => ([], false)
  | some entry =>
    match entry.child with
    | none => visitFrom item dir fuel [⟨none, 0⟩] entry
    | some vcn =>
      match ntfsIndexWalkDown dir (maxParentVcn - 1) [⟨none, 0⟩] vcn with
      | none => ([], false)
      | some (frames, entry) => visitFrom item dir fuel frames entry

/-- The items of a node from a position on whose child has been walked. -/
def frameItems (below : Int → Option (List α)) : List IndexEntry → Option (List α)
  | .named key child :: rest => (listEntries item below rest).map (item key child :: ·)
  | .last _ :: _ => some []
  | _ => none

/-- The items below a block. -/
def blockBelow (dir : DirectoryIndex) (block : IndexBlock) (depth : Nat) (child : Int) : Option (List α) :=
  if block.leaf ∨ child < 0 then none else listBlock item dir depth child

/-- A stack of nodes, with the items that are left behind its positions. -/
inductive WalkStack (dir : DirectoryIndex) : Nat → List WalkFrame → List α → Prop where
  | root {depth pos : Nat} {items : List α}
      (here : frameItems item (listBlock item dir depth) (dir.root.drop pos) = some items) :
      WalkStack dir depth [⟨none, pos⟩] items
  | block {depth pos : Nat} {vcn : Int} {block : IndexBlock} {items others : List α}
      {frames : List WalkFrame} (node : dir.block vcn = some block)
      (here : frameItems item (blockBelow item dir block depth) (block.entries.drop pos) = some items)
      (outer : WalkStack dir (depth + 1) frames others) :
      WalkStack dir depth (⟨some vcn, pos⟩ :: frames) (items ++ others)

/-- Every index block has an entry with a name. -/
def BlocksHoldKeys (dir : DirectoryIndex) : Prop :=
  ∀ vcn block, dir.block vcn = some block →
    ∃ key child rest, block.entries = .named key child :: rest

/-- The walk stands at an entry with a name. -/
structure WalkAt (dir : DirectoryIndex) (frames : List WalkFrame) (entry : IndexEntry)
    (bound : Nat) (items : List α) : Prop where
  named : ∃ key child, entry = .named key child
  place : ∃ frame outer, frames = frame :: outer ∧ entryAt dir frame = some entry
  stack : ∃ depth, WalkStack item dir depth frames items ∧ frames.length + depth ≤ bound

section Steps

variable {item} {dir : DirectoryIndex} {frames : List WalkFrame} {items others : List α} {depth bound : Nat}

theorem walkStack_ne_nil (stack : WalkStack item dir depth frames items) : frames ≠ [] := by
  cases stack with
  | root here => exact List.cons_ne_nil _ _
  | block node here outer => exact List.cons_ne_nil _ _

/-- The first entry of a block, with the items to its left and from it on. -/
theorem first_of_block (filled : BlocksHoldKeys dir) {vcn : Int} {below : List α}
    (listed : listBlock item dir (depth + 1) vcn = some below)
    (stack : WalkStack item dir (depth + 1) frames others) :
    ∃ block key child left right, dir.block vcn = some block ∧
      entryAt dir ⟨some vcn, 0⟩ = some (.named key child) ∧
      listChild (blockBelow item dir block depth) child = some left ∧ below = left ++ item key child :: right ∧
      WalkStack item dir depth (⟨some vcn, 0⟩ :: frames) (item key child :: right ++ others) := by
  rw [listBlock] at listed
  cases node : dir.block vcn with
  | none => simp [node] at listed
  | some block =>
    obtain ⟨key, child, rest, entries⟩ := filled vcn block node
    simp only [node, entries] at listed
    obtain ⟨left, right, leftItems, rightItems, whole⟩ := listEntries_named item listed
    refine ⟨block, key, child, left, right, rfl, ?_, leftItems, whole, .block node ?_ stack⟩
    · simp [entryAt, nodeEntries, node, entries]
    · have tail : listEntries item (blockBelow item dir block depth) rest = some right := rightItems
      rw [List.drop_zero, entries, frameItems, tail]
      rfl

/-- Going down from an entry leads to the first of the items below it. -/
theorem walkDown_at (filled : BlocksHoldKeys dir) {vcn : Int} {levels : Nat} {below : List α}
    (listed : listBlock item dir (depth + 1) vcn = some below)
    (stack : WalkStack item dir (depth + 1) frames others)
    (room : frames.length + (depth + 1) ≤ bound) (enough : depth + 1 ≤ levels) :
    ∃ frames' entry, ntfsIndexWalkDown dir levels frames vcn = some (frames', entry) ∧
      WalkAt item dir frames' entry bound (below ++ others) := by
  induction depth generalizing frames vcn levels below others with
  | zero =>
    obtain ⟨levels, rfl⟩ : ∃ fewer, levels = fewer + 1 := ⟨levels - 1, by omega⟩
    obtain ⟨block, key, child, left, right, node, first, leftItems, rfl, stack'⟩ :=
      first_of_block filled listed stack
    cases child with
    | some deeper => simp [listChild, blockBelow, listBlock] at leftItems
    | none =>
      obtain rfl : left = [] := by simpa [listChild] using leftItems.symm
      refine ⟨_, _, by rw [ntfsIndexWalkDown, first]; rfl, ⟨_, _, rfl⟩, ⟨_, _, rfl, first⟩, 0, stack', ?_⟩
      rw [List.length_cons]
      omega
  | succ depth ih =>
    obtain ⟨levels, rfl⟩ : ∃ fewer, levels = fewer + 1 := ⟨levels - 1, by omega⟩
    obtain ⟨block, key, child, left, right, node, first, leftItems, rfl, stack'⟩ :=
      first_of_block filled listed stack
    cases child with
    | some deeper =>
      have inner : listBlock item dir (depth + 1) deeper = some left := by
        simp only [listChild, blockBelow] at leftItems
        split at leftItems
        · cases leftItems
        · exact leftItems
      obtain ⟨frames', entry, found, walk⟩ := @ih _ _ deeper levels left inner stack'
        (by rw [List.length_cons]; omega) (by omega)
      refine ⟨frames', entry, ?_, ?_⟩
      · rw [ntfsIndexWalkDown, first]
        exact found
      · rw [List.append_assoc]
        exact walk
    | none =>
      obtain rfl : left = [] := by simpa [listChild] using leftItems.symm
      refine ⟨_, _, by rw [ntfsIndexWalkDown, first]; rfl, ⟨_, _, rfl⟩, ⟨_, _, rfl, first⟩, depth + 1, stack', ?_⟩
      rw [List.length_cons]
      omega

/-- Where a walk stands after a step: at the first of the items that are left, or at its
end when none are left. -/
def WalksOn (item : IndexKey → Option Int → α) (dir : DirectoryIndex) (bound : Nat) (items : List α)
    (step : WalkStep) : Prop :=
  (∃ frames entry, step = .moved frames entry ∧ WalkAt item dir frames entry bound items) ∨
    (step = .ended ∧ items = [])

/-- The entry at a position of a node: one with a name, or the last one, behind which the
node has no items. -/
theorem frame_entry {below : Int → Option (List α)} {entries : List IndexEntry} {pos : Nat}
    (here : frameItems item below (entries.drop pos) = some items) :
    ∃ entry, entries[pos]? = some entry ∧
      ((∃ key child, entry = .named key child) ∨ ((∃ child, entry = .last child) ∧ items = [])) := by
  rw [← List.head?_drop]
  cases suffix : entries.drop pos with
  | nil => simp [suffix, frameItems] at here
  | cons entry rest =>
    refine ⟨entry, rfl, ?_⟩
    cases entry with
    | corrupt => simp [suffix, frameItems] at here
    | named key child => exact .inl ⟨key, child, rfl⟩
    | last child =>
      refine .inr ⟨⟨child, rfl⟩, ?_⟩
      simpa [suffix, frameItems] using here.symm

/-- Going up leads to the first of the items of the outer nodes. -/
theorem walkUp_walksOn (stack : WalkStack item dir depth frames items)
    (room : frames.length + depth ≤ bound) (frame : WalkFrame) :
    WalksOn item dir bound items (walkStep (ntfsIndexWalkUp dir (frame :: frames))) := by
  induction stack generalizing frame with
  | @root depth pos items here =>
    obtain ⟨entry, found, shape⟩ := frame_entry here
    have place : entryAt dir ⟨none, pos⟩ = some entry := found
    rw [ntfsIndexWalkUp, place]
    obtain ⟨key, child, rfl⟩ | ⟨⟨child, rfl⟩, nothing⟩ := shape
    · exact .inl ⟨_, _, rfl, ⟨_, _, rfl⟩, ⟨_, _, rfl, place⟩, depth, .root here, room⟩
    · exact .inr ⟨rfl, nothing⟩
  | @block depth pos vcn block items others frames node here outer ih =>
    obtain ⟨entry, found, shape⟩ := frame_entry here
    have place : entryAt dir ⟨some vcn, pos⟩ = some entry := by
      simp [entryAt, nodeEntries, node, found]
    rw [ntfsIndexWalkUp, place]
    obtain ⟨key, child, rfl⟩ | ⟨⟨child, rfl⟩, nothing⟩ := shape
    · exact .inl ⟨_, _, rfl, ⟨_, _, rfl⟩, ⟨_, _, rfl, place⟩, depth, .block node here outer, room⟩
    · have inner : frames ≠ [] := walkStack_ne_nil outer
      simp only [IndexEntry.isEnd, inner, ne_eq, not_false_iff, and_self, if_true]
      rw [nothing, List.nil_append]
      apply ih
      rw [List.length_cons] at room
      omega

/-- Where going down from an entry leads to: an entry with a name, which is the first of the items
below it, or a block without names, from which the way leads up to it. -/
theorem walkDown_reaches {vcn : Int} {levels : Nat} {below : List α} {frames' : List WalkFrame}
    {entry : IndexEntry} (listed : listBlock item dir depth vcn = some below)
    (stack : WalkStack item dir depth frames others) (room : frames.length + depth ≤ bound)
    (found : ntfsIndexWalkDown dir levels frames vcn = some (frames', entry)) :
    (entry.isEnd = false → WalkAt item dir frames' entry bound (below ++ others)) ∧
      (entry.isEnd = true → WalksOn item dir bound (below ++ others) (walkStep (ntfsIndexWalkUp dir frames'))) := by
  induction levels generalizing frames vcn depth below others with
  | zero => cases found
  | succ levels ih =>
    cases depth with
    | zero => cases listed
    | succ depth =>
      rw [listBlock] at listed
      cases node : dir.block vcn with
      | none => simp [node] at listed
      | some block =>
        simp only [node] at listed
        have inner {child : Int} {left : List α}
            (childItems : listChild (blockBelow item dir block depth) (some child) = some left) :
            listBlock item dir depth child = some left := by
          simp only [listChild, blockBelow] at childItems
          split at childItems
          · cases childItems
          · exact childItems
        have room' : (⟨some vcn, 0⟩ :: frames : List WalkFrame).length + depth ≤ bound := by
          rw [List.length_cons]
          omega
        rw [ntfsIndexWalkDown, entryAt, nodeEntries, node] at found
        cases entries : block.entries with
        | nil => simp [entries, listEntries] at listed
        | cons first rest =>
          have place : entryAt dir ⟨some vcn, 0⟩ = some first := by simp [entryAt, nodeEntries, node, entries]
          simp only [Option.map_some, entries, List.getElem?_cons_zero] at found
          rw [entries] at listed
          cases first with
          | corrupt => cases listed
          | last child =>
            have stack' : WalkStack item dir depth (⟨some vcn, 0⟩ :: frames) ([] ++ others) :=
              .block node (by rw [List.drop_zero, entries]; rfl) stack
            cases child with
            | none =>
              cases found
              obtain rfl : below = [] := by simpa [listEntries, listChild] using listed.symm
              refine ⟨fun named => (by cases named), fun _ => ?_⟩
              exact walkUp_walksOn stack room _
            | some child => exact ih (inner listed) stack' room' found
          | named key child =>
            obtain ⟨left, right, leftItems, rightItems, rfl⟩ := listEntries_named item listed
            have stack' : WalkStack item dir depth (⟨some vcn, 0⟩ :: frames) (item key child :: right ++ others) := by
              refine .block node ?_ stack
              have tail : listEntries item (blockBelow item dir block depth) rest = some right := rightItems
              rw [List.drop_zero, entries, frameItems, tail]
              rfl
            cases child with
            | none =>
              obtain rfl : left = [] := by simpa [listChild] using leftItems.symm
              cases found
              refine ⟨fun _ => ?_, fun last => by cases last⟩
              exact ⟨⟨_, _, rfl⟩, ⟨_, _, rfl, place⟩, depth, stack', room'⟩
            | some child =>
              rw [List.append_assoc]
              exact ih (inner leftItems) stack' room' found

/-- The step from one entry of a node to the next: into the child of the next entry, to the
next entry itself, or up when the node is at its end. -/
theorem next_within {node : Option Int} {pos : Nat} {outer : List WalkFrame} {entries : List IndexEntry}
    {below : Int → Option (List α)} {key : IndexKey} {child : Option Int}
    (descends : ∀ vcn left here, stepDown dir (⟨node, pos⟩ :: outer) = some vcn →
      listBlock item dir depth vcn = some left → WalkStack item dir depth (⟨node, pos + 1⟩ :: outer) here →
      ∃ frames entry, ntfsIndexWalkDown dir (maxParentVcn - (outer.length + 1)) (⟨node, pos + 1⟩ :: outer) vcn =
        some (frames, entry) ∧ WalkAt item dir frames entry bound (left ++ here))
    (read : nodeEntries dir node = some entries)
    (here : frameItems item below (entries.drop pos) = some items)
    (current : entries[pos]? = some (.named key child))
    (levels_of : ∀ pos items, frameItems item below (entries.drop pos) = some items →
      WalkStack item dir depth (⟨node, pos⟩ :: outer) (items ++ others))
    (children : ∀ vcn list, below vcn = some list → listBlock item dir depth vcn = some list)
    (room : (outer.length + 1) + depth ≤ bound)
    (up : WalksOn item dir bound others (walkStep (ntfsIndexWalkUp dir (⟨node, pos + 1⟩ :: outer)))) :
    ∃ rest, items = item key child :: rest ∧
      WalksOn item dir bound (rest ++ others)
        (ntfsIndexNext dir (⟨node, pos⟩ :: outer) (.named key child)) := by
  obtain ⟨inside, element⟩ := List.getElem?_eq_some_iff.mp current
  have suffix : entries.drop pos = .named key child :: entries.drop (pos + 1) := by
    rw [List.drop_eq_getElem_cons inside, element]
  rw [suffix, frameItems] at here
  obtain ⟨right, rightItems, rfl⟩ := Option.map_eq_some_iff.mp here
  refine ⟨right, rfl, ?_⟩
  have below_of {next : IndexEntry} (found : entries[pos + 1]? = some next) :
      stepDown dir (⟨node, pos⟩ :: outer) = next.child := by
    simp only [stepDown, entryAt, read, found, Option.bind_some]
  have step (next : IndexEntry) (found : entries[pos + 1]? = some next) :
      ntfsIndexNext dir (⟨node, pos⟩ :: outer) (.named key child) =
        match next.child with
        | some vcn =>
          match ntfsIndexWalkDown dir (maxParentVcn - (outer.length + 1)) (⟨node, pos + 1⟩ :: outer) vcn with
          | none => .failed
          | some found => walkStep (some found)
        | none =>
          if next.isEnd then walkStep (ntfsIndexWalkUp dir (⟨node, pos + 1⟩ :: outer))
          else .moved (⟨node, pos + 1⟩ :: outer) next := by
    simp only [ntfsIndexNext, IndexEntry.isEnd, Bool.false_eq_true, if_false, entryAt, read, found]
  have moved {frames : List WalkFrame} {entry : IndexEntry} {list : List α}
      (walk : WalkAt item dir frames entry bound list) :
      WalksOn item dir bound list (walkStep (some (frames, entry))) := by
    obtain ⟨key, child, rfl⟩ := walk.named
    exact .inl ⟨frames, _, rfl, walk⟩
  cases behind : entries.drop (pos + 1) with
  | nil => simp [behind, listEntries] at rightItems
  | cons next tail =>
    have found : entries[pos + 1]? = some next := by rw [← List.head?_drop, behind]; rfl
    have stackAt := levels_of (pos + 1)
    rw [behind] at rightItems stackAt
    rw [step next found]
    cases next with
    | corrupt => cases rightItems
    | last under =>
      have stack := stackAt [] rfl
      cases under with
      | none =>
        obtain rfl : right = [] := by simpa [listEntries, listChild] using rightItems.symm
        exact up
      | some vcn =>
        obtain ⟨frames, entry, walked, walk⟩ := descends vcn right _ (below_of found)
          (children vcn right rightItems) stack
        simp only [IndexEntry.child, walked]
        exact moved walk
    | named key' under =>
      obtain ⟨left, rest, leftItems, restItems, rfl⟩ := listEntries_named item rightItems
      have stack := stackAt (item key' under :: rest) (by rw [frameItems, restItems]; rfl)
      cases under with
      | none =>
        obtain rfl : left = [] := by simpa [listChild] using leftItems.symm
        have place : entryAt dir ⟨node, pos + 1⟩ = some (.named key' none) := by
          simp only [entryAt, read, found]
        exact .inl ⟨_, _, rfl, ⟨_, _, rfl⟩, ⟨_, _, rfl, place⟩, depth, stack, room⟩
      | some vcn =>
        obtain ⟨frames, entry, walked, walk⟩ := descends vcn left _ (below_of found)
          (children vcn left leftItems) stack
        simp only [IndexEntry.child, walked]
        rw [List.append_assoc]
        exact moved walk

theorem frameItems_named {below : Int → Option (List α)} {entries : List IndexEntry} {pos : Nat}
    {key : IndexKey} {child : Option Int} (here : frameItems item below (entries.drop pos) = some items)
    (current : entries[pos]? = some (.named key child)) : ∃ rest, items = item key child :: rest := by
  obtain ⟨inside, element⟩ := List.getElem?_eq_some_iff.mp current
  rw [List.drop_eq_getElem_cons inside, element, frameItems] at here
  obtain ⟨rest, _, rfl⟩ := Option.map_eq_some_iff.mp here
  exact ⟨rest, rfl⟩

theorem WalkAt.items_named {key : IndexKey} {child : Option Int}
    (walk : WalkAt item dir frames (.named key child) bound items) : ∃ rest, items = item key child :: rest := by
  obtain ⟨frame, outer, rfl, place⟩ := walk.place
  obtain ⟨depth, stack, _⟩ := walk.stack
  cases stack with
  | root here => exact frameItems_named here place
  | block node here inner =>
    obtain ⟨rest, rfl⟩ := frameItems_named here (by simpa [entryAt, nodeEntries, node] using place)
    exact ⟨rest ++ _, rfl⟩

/-- The step from an entry with a name leads to the next item, or to the end of the walk, if the
way down that it may take comes to an entry with a name. -/
theorem next_of_descends {key : IndexKey} {child : Option Int}
    (walk : WalkAt item dir frames (.named key child) bound items)
    (descends : ∀ node pos outer vcn depth left here, frames = ⟨node, pos⟩ :: outer →
      stepDown dir frames = some vcn → listBlock item dir depth vcn = some left →
      WalkStack item dir depth (⟨node, pos + 1⟩ :: outer) here → outer.length + 1 + depth ≤ bound →
      ∃ frames entry, ntfsIndexWalkDown dir (maxParentVcn - (outer.length + 1)) (⟨node, pos + 1⟩ :: outer) vcn =
        some (frames, entry) ∧ WalkAt item dir frames entry bound (left ++ here)) :
    ∃ rest, items = item key child :: rest ∧
      WalksOn item dir bound rest (ntfsIndexNext dir frames (.named key child)) := by
  obtain ⟨frame, outer, rfl, place⟩ := walk.place
  obtain ⟨depth, stack, room⟩ := walk.stack
  cases stack with
  | @root _ pos items here =>
    have next := @next_within α item dir items [] depth bound none pos [] dir.root _ key child
      (fun vcn left here down listed stack => descends none pos [] vcn depth left here rfl down listed stack room)
      rfl here place (fun pos items listed => by rw [List.append_nil]; exact .root listed)
      (fun _ _ listed => listed) room (.inr ⟨rfl, rfl⟩)
    obtain ⟨rest, whole, walks⟩ := next
    rw [List.append_nil] at walks
    exact ⟨rest, whole, walks⟩
  | @block _ pos vcn block items others frames node here inner =>
    have read : nodeEntries dir (some vcn) = some block.entries := by simp [nodeEntries, node]
    have current : block.entries[pos]? = some (.named key child) := by
      simpa only [entryAt, read] using place
    obtain ⟨rest, rfl, walks⟩ := @next_within α item dir items others depth bound (some vcn) pos outer
      block.entries _ key child
      (fun child left here down listed stack =>
        descends (some vcn) pos outer child depth left here rfl down listed stack room)
      read here current
      (fun pos items listed => .block node listed inner)
      (fun vcn list listed => by
        rw [blockBelow] at listed
        split at listed
        · cases listed
        · exact listed)
      room (walkUp_walksOn inner (by rw [List.length_cons] at room; omega) _)
    exact ⟨rest ++ others, rfl, walks⟩

theorem next_walksOn (filled : BlocksHoldKeys dir) (levels : bound ≤ maxParentVcn) {key : IndexKey}
    {child : Option Int} (walk : WalkAt item dir frames (.named key child) bound items) :
    ∃ rest, items = item key child :: rest ∧
      WalksOn item dir bound rest (ntfsIndexNext dir frames (.named key child)) := by
  apply next_of_descends walk
  intro node pos outer vcn depth left here _ _ listed stack room
  cases depth with
  | zero => cases listed
  | succ depth =>
    apply walkDown_at filled listed stack
    · rw [List.length_cons]
      exact room
    · omega

theorem walkFrom_items (filled : BlocksHoldKeys dir) (levels : bound ≤ maxParentVcn) {entry : IndexEntry}
    {fuel : Nat} (walk : WalkAt item dir frames entry bound items) (enough : items.length ≤ fuel) :
    walkFrom item dir fuel frames entry = (items, true) := by
  induction fuel generalizing frames entry items with
  | zero =>
    obtain ⟨key, child, rfl⟩ := walk.named
    obtain ⟨rest, rfl, _⟩ := next_walksOn filled levels walk
    simp at enough
  | succ fuel ih =>
    obtain ⟨key, child, rfl⟩ := walk.named
    obtain ⟨rest, rfl, walks⟩ := next_walksOn filled levels walk
    rw [List.length_cons] at enough
    rw [walkFrom]
    obtain ⟨frames', next, moved, onward⟩ | ⟨ended, rfl⟩ := walks
    · rw [moved]
      simp only [ih onward (by omega)]
    · rw [ended]

/-- The walk over an index in order visits its items in order. -/
theorem walkIndex_items (filled : BlocksHoldKeys dir) (shallow : depth < maxParentVcn)
    (listed : listEntries item (listBlock item dir depth) dir.root = some items) {fuel : Nat}
    (enough : items.length ≤ fuel) : walkIndex item dir fuel = (items, true) := by
  have stackAt {list : List α} (here : frameItems item (listBlock item dir depth) dir.root = some list) :
      WalkStack item dir depth [⟨none, 0⟩] list := .root (by rw [List.drop_zero]; exact here)
  have down {vcn : Int} {left here' : List α} (inner : listBlock item dir depth vcn = some left)
      (stack : WalkStack item dir depth [⟨none, 0⟩] here') (few : (left ++ here').length ≤ fuel) :
      ∃ frames entry, ntfsIndexWalkDown dir (maxParentVcn - 1) [⟨none, 0⟩] vcn = some (frames, entry) ∧
        visitFrom item dir fuel frames entry = (left ++ here', true) := by
    cases depth with
    | zero => cases inner
    | succ depth =>
      obtain ⟨frames, entry, walked, walk⟩ := @walkDown_at α item dir _ _ depth maxParentVcn filled vcn
        (maxParentVcn - 1) left inner stack (by rw [List.length_singleton]; omega) (by omega)
      refine ⟨frames, entry, walked, ?_⟩
      obtain ⟨key, child, rfl⟩ := walk.named
      simp only [visitFrom, IndexEntry.isEnd, Bool.false_eq_true, if_false]
      exact walkFrom_items filled le_rfl walk few
  have start : entryAt dir ⟨none, 0⟩ = dir.root[0]? := rfl
  rw [walkIndex, start]
  cases root : dir.root with
  | nil => simp [root, listEntries] at listed
  | cons entry rest =>
    rw [root] at listed stackAt
    simp only [List.getElem?_cons_zero]
    cases entry with
    | corrupt => cases listed
    | last child =>
      cases child with
      | none =>
        obtain rfl : items = [] := by simpa [listEntries, listChild] using listed.symm
        rfl
      | some vcn =>
        obtain ⟨frames, entry, walked, visited⟩ := down listed (stackAt rfl) (by simpa using enough)
        simp only [IndexEntry.child, walked, visited, List.append_nil]
    | named key child =>
      obtain ⟨left, right, leftItems, rightItems, rfl⟩ := listEntries_named item listed
      have stack := stackAt (show frameItems item _ _ = some (item key child :: right) by
        rw [frameItems, rightItems]; rfl)
      cases child with
      | none =>
        obtain rfl : left = [] := by simpa [listChild] using leftItems.symm
        have place : entryAt dir ⟨none, 0⟩ = some (.named key none) := by rw [start, root]; rfl
        have walk : WalkAt item dir [⟨none, 0⟩] (.named key none) maxParentVcn (item key none :: right) :=
          ⟨⟨_, _, rfl⟩, ⟨_, _, rfl, place⟩, depth, stack, by rw [List.length_singleton]; omega⟩
        simp only [IndexEntry.child, visitFrom, IndexEntry.isEnd, Bool.false_eq_true, if_false]
        exact walkFrom_items filled le_rfl walk enough
      | some vcn =>
        obtain ⟨frames, entry, walked, visited⟩ := down leftItems stack enough
        simp only [IndexEntry.child, walked, visited]

end Steps

end Walk

end Ttntfs.Ntfs
