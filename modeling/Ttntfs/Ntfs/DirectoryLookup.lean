import Ttntfs.Ntfs.DirectoryIndex

/-!
# Looking a name up in a directory

`ntfs_lookup_inode_by_name` goes down the index of a directory from the root by collation.
Every entry it passes is compared with the name, and the first that equals it without
regard to case is kept for the case that the name itself is not there.
-/

namespace Ttntfs.Ntfs

/-- What the lookup reads of `struct ntfs_volume`. -/
structure NameVolume where
  upcase : Upcase
  caseSensitive : Bool

/-- `struct ntfs_name`; the name is left out for the DOS name space. -/
structure NtfsName where
  mref : Nat
  type : FileNameType
  name : Uname
  deriving DecidableEq

/-- The errors of the lookup. -/
inductive LookupError where
  | enoent
  | eio
  deriving DecidableEq

/-- What `ntfs_lookup_inode_by_name` returns, with `*res`. -/
structure LookupResult where
  mref : Except LookupError Nat
  res : Option NtfsName

/-- The name that is kept of an entry that matches without regard to case. -/
def keptName (key : IndexKey) : NtfsName :=
  ⟨key.mref, key.type, if key.type = .dos then [] else key.name⟩

/-- Whether an entry counts as a match without regard to case: on a volume that is not case
sensitive, or in the DOS name space. -/
def isCandidate (vol : NameVolume) (uname : Uname) (key : IndexKey) : Bool :=
  (!vol.caseSensitive || key.type = .dos) && ntfsAreNamesEqual uname key.name .ignoreCase vol.upcase

/-- How the search of one node ends. -/
inductive NodeSearch where
  | corrupt
  | found (key : IndexKey)
  | stopped (child : Option Int) (name : Option NtfsName)

/-- The loop over the entries of a node. -/
def searchNode (vol : NameVolume) (uname : Uname) : List IndexEntry → Option NtfsName → NodeSearch
  | [], _ => .corrupt
  | .corrupt :: _, _ => .corrupt
  | .last child :: _, name => .stopped child name
  | .named key child :: rest, name =>
    if ntfsAreNamesEqual uname key.name .caseSensitive vol.upcase then .found key
    -- The first candidate is kept, and the search carries on with the next entry.
    else if isCandidate vol uname key ∧ name.isSome then searchNode vol uname rest name
    else
      let name := if isCandidate vol uname key then some (keptName key) else name
      let rc := ntfsCollateNames 1 .ignoreCase vol.upcase uname key.name
      if rc = -1 then .stopped child name
      else if rc ≠ 0 then searchNode vol uname rest name
      else
        let rc := ntfsCollateNames 1 .caseSensitive vol.upcase uname key.name
        if rc = -1 then .stopped child name
        else if rc ≠ 0 then searchNode vol uname rest name
        else .found key

/-- A lookup that fails. -/
def lookupFails (error : LookupError) : LookupResult := ⟨.error error, none⟩

/-- What is returned after a node: the entry, the name that was kept, or the result of the
child node. -/
def afterNode (next : Int → Option NtfsName → LookupResult) : NodeSearch → LookupResult
  | .corrupt => lookupFails .eio
  | .found key => ⟨.ok key.mref, if key.type = .dos then some ⟨key.mref, .dos, []⟩ else none⟩
  | .stopped none none => lookupFails .enoent
  | .stopped none (some name) => ⟨.ok name.mref, some name⟩
  | .stopped (some vcn) name => next vcn name

/-- The descent into the child nodes. -/
def descendIntoChild (vol : NameVolume) (dir : DirectoryIndex) (uname : Uname) :
    Nat → Int → Option NtfsName → LookupResult
  | 0, _, _ => lookupFails .eio
  | depth + 1, vcn, name =>
    match dir.block vcn with
    | none => lookupFails .eio
    | some block =>
      afterNode (fun child name =>
        if block.leaf ∨ child < 0 then lookupFails .eio
        else descendIntoChild vol dir uname depth child name) (searchNode vol uname block.entries name)

/-- `ntfs_lookup_inode_by_name`, down to a depth. -/
def ntfsLookupInodeByName (vol : NameVolume) (dir : DirectoryIndex) (depth : Nat) (uname : Uname) :
    LookupResult :=
  afterNode (descendIntoChild vol dir uname depth) (searchNode vol uname dir.root none)

/-- Keys in collation order, with names as they can be in a directory. -/
structure SortedKeys (upcase : Upcase) (keys : List IndexKey) : Prop where
  sorted : keys.Pairwise fun left right => CollatesBefore upcase left.name right.name
  text : ∀ key ∈ keys, 0 ∉ key.name

/-- A directory index that is in order down to a depth, with the keys it holds. -/
structure WellFormedIndex (upcase : Upcase) (dir : DirectoryIndex) (depth : Nat)
    (keys : List IndexKey) : Prop where
  listed : listEntries keyOnly (listBlock keyOnly dir depth) dir.root = some keys
  keys : SortedKeys upcase keys

/-- On the way to the place of a name an entry is passed over: it matches the name without
regard to case, collates behind it and has a child, and another match was met before. -/
inductive PassedOver (vol : NameVolume) (dir : DirectoryIndex) (uname : Uname) :
    List IndexEntry → Bool → Prop where
  | here {key : IndexKey} {vcn : Int} {rest : List IndexEntry}
      (candidate : isCandidate vol uname key = true)
      (behind : CollatesBefore vol.upcase uname key.name) :
      PassedOver vol dir uname (.named key (some vcn) :: rest) true
  | along {key : IndexKey} {child : Option Int} {rest : List IndexEntry} {met : Bool}
      (before : CollatesBefore vol.upcase key.name uname)
      (later : PassedOver vol dir uname rest (met || isCandidate vol uname key)) :
      PassedOver vol dir uname (.named key child :: rest) met
  | under {key : IndexKey} {vcn : Int} {rest : List IndexEntry} {met : Bool} {block : IndexBlock}
      (behind : CollatesBefore vol.upcase uname key.name) (node : dir.block vcn = some block)
      (later : PassedOver vol dir uname block.entries (met || isCandidate vol uname key)) :
      PassedOver vol dir uname (.named key (some vcn) :: rest) met
  | underLast {vcn : Int} {rest : List IndexEntry} {met : Bool} {block : IndexBlock}
      (node : dir.block vcn = some block) (later : PassedOver vol dir uname block.entries met) :
      PassedOver vol dir uname (.last (some vcn) :: rest) met

/-- What a search finds among some keys, beginning with a name that may have been kept. -/
structure Finds (vol : NameVolume) (uname : Uname) (passed : Prop) (keys : List IndexKey)
    (name : Option NtfsName) (mref : Except LookupError Nat) : Prop where
  exact : ∀ key ∈ keys, key.name = uname → ¬ passed → mref = .ok key.mref
  keeps : (∀ key ∈ keys, key.name ≠ uname) → ∀ kept, name = some kept → mref = .ok kept.mref
  other : (∀ key ∈ keys, key.name ≠ uname) → name = none →
    (∃ key ∈ keys, isCandidate vol uname key = true ∧ mref = .ok key.mref) ∨
      (mref = .error .enoent ∧
        (vol.caseSensitive = false → ∀ key ∈ keys, ¬ SameIgnoringCase vol.upcase uname key.name))

section Node

variable {vol : NameVolume} {dir : DirectoryIndex} {uname : Uname} {key : IndexKey}
  {child : Option Int} {rest entries : List IndexEntry} {name : Option NtfsName}

/-- One entry that is not the name itself: it is passed over after another candidate, and
else the collation decides. -/
theorem searchNode_named (legal : LegalName vol.upcase uname) (text : 0 ∉ key.name)
    (apart : key.name ≠ uname) :
    searchNode vol uname (.named key child :: rest) name =
      if isCandidate vol uname key ∧ name.isSome then searchNode vol uname rest name
      else if CollatesBefore vol.upcase uname key.name then
        .stopped child (if isCandidate vol uname key then some (keptName key) else name)
      else searchNode vol uname rest (if isCandidate vol uname key then some (keptName key) else name) := by
  have different : ntfsAreNamesEqual uname key.name .caseSensitive vol.upcase = false := by
    rw [← Bool.not_eq_true, ntfsAreNamesEqual_exact text]
    exact fun same => apart same.symm
  have upper (text : Uname) : text.map (CaseRule.ignoreCase.char vol.upcase) = upperName vol.upcase text :=
    rfl
  have plain (text : Uname) : text.map (CaseRule.caseSensitive.char vol.upcase) = text := List.map_id' text
  rw [searchNode, different]
  simp only [Bool.false_eq_true, if_false, ntfsCollateNames_eq 1 _ legal, upper, plain]
  by_cases skipped : isCandidate vol uname key ∧ name.isSome
  · rw [if_pos skipped, if_pos skipped]
  rw [if_neg skipped, if_neg skipped]
  rcases lt_trichotomy (upperName vol.upcase uname) (upperName vol.upcase key.name) with
    before | same | behind
  · have collates : CollatesBefore vol.upcase uname key.name := .inl before
    simp [before, collates]
  · have level : ¬ upperName vol.upcase uname < upperName vol.upcase key.name := by
      rw [same]
      exact lt_irrefl _
    have decided : CollatesBefore vol.upcase uname key.name ↔ uname < key.name := by
      simp [CollatesBefore, same]
    have unequal : ¬ uname = key.name := fun equal => apart equal.symm
    simp only [same, lt_irrefl, if_false, if_true, decided, unequal]
    by_cases first : uname < key.name
    · simp [first]
    · simp [first]
  · have late : ¬ upperName vol.upcase uname < upperName vol.upcase key.name := not_lt_of_gt behind
    have differs : ¬ upperName vol.upcase uname = upperName vol.upcase key.name := ne_of_gt behind
    have collates : ¬ CollatesBefore vol.upcase uname key.name := by
      rintro (before | ⟨same, _⟩)
      · exact late before
      · exact differs same
    simp [late, differs, collates]

/-- Sorted keys around one of them. -/
theorem SortedKeys.split {upcase : Upcase} {left right : List IndexKey}
    (sorted : SortedKeys upcase (left ++ key :: right)) :
    SortedKeys upcase left ∧ SortedKeys upcase right ∧ 0 ∉ key.name ∧
      (∀ other ∈ left, CollatesBefore upcase other.name key.name) ∧
      ∀ other ∈ right, CollatesBefore upcase key.name other.name := by
  obtain ⟨leftSorted, tailSorted, across⟩ := List.pairwise_append.mp sorted.sorted
  obtain ⟨behind, rightSorted⟩ := List.pairwise_cons.mp tailSorted
  refine ⟨⟨leftSorted, fun other listed => sorted.text other (by simp [listed])⟩,
    ⟨rightSorted, fun other listed => sorted.text other (by simp [listed])⟩,
    sorted.text key (by simp), ?_, behind⟩
  intro other listed
  exact across other listed key (by simp)

/-- On a volume that is not case sensitive an entry that is no candidate differs from the
name in more than case. -/
theorem not_same_of_not_candidate (plain : vol.caseSensitive = false)
    (other : isCandidate vol uname key = false) : ¬ SameIgnoringCase vol.upcase uname key.name := by
  intro same
  simp [isCandidate, plain, ntfsAreNamesEqual_of_same same] at other

/-- The name that is kept behind an entry that was not passed over. -/
def nameBehind (vol : NameVolume) (uname : Uname) (key : IndexKey) (name : Option NtfsName) :
    Option NtfsName :=
  if isCandidate vol uname key then some (keptName key) else name

theorem nameBehind_isSome : (nameBehind vol uname key name).isSome =
    (name.isSome || isCandidate vol uname key) := by
  rw [nameBehind]
  cases isCandidate vol uname key with
  | true => simp
  | false => simp

section Parts

variable {passed : Prop} {left right : List IndexKey} {mref : Except LookupError Nat}

theorem Finds.mono {passed' : Prop} (finds : Finds vol uname passed left name mref)
    (weaker : passed → passed') : Finds vol uname passed' left name mref where
  exact key listed same fair := finds.exact key listed same fun bad => fair (weaker bad)
  keeps := finds.keeps
  other := finds.other

/-- The part of a node on one side of an entry holds all that the search can find, when the
entry stands between the name and the other side. -/
theorem Finds.around {part : List IndexKey}
    (finds : Finds vol uname passed part (nameBehind vol uname key name) mref)
    (within : part ⊆ left ++ key :: right) (apart : key.name ≠ uname)
    (taken : ¬ (isCandidate vol uname key ∧ name.isSome))
    (beyond : ∀ other ∈ left ++ key :: right, other ∉ part → other ≠ key →
      other.name ≠ uname ∧ (SameIgnoringCase vol.upcase uname other.name →
        SameIgnoringCase vol.upcase uname key.name)) :
    Finds vol uname passed (left ++ key :: right) name mref where
  exact other listed same fair := by
    by_cases inside : other ∈ part
    · exact finds.exact other inside same fair
    · by_cases equal : other = key
      · rw [equal] at same
        exact absurd same apart
      · exact absurd same (beyond other listed inside equal).1
  keeps none_exact kept saved := by
    have plain : isCandidate vol uname key = false := by
      cases candidate : isCandidate vol uname key with
      | false => rfl
      | true => exact absurd ⟨candidate, by rw [saved]; rfl⟩ taken
    apply finds.keeps (fun other listed => none_exact other (within listed)) kept
    simp [nameBehind, plain, saved]
  other none_exact nothing := by
    have none_part : ∀ other ∈ part, other.name ≠ uname := fun other listed => none_exact other (within listed)
    cases candidate : isCandidate vol uname key with
    | true =>
      have saved := finds.keeps none_part (keptName key) (by simp [nameBehind, candidate])
      exact .inl ⟨key, by simp, candidate, saved⟩
    | false =>
      rcases finds.other none_part (by simp [nameBehind, candidate, nothing]) with
        ⟨found, listed, matching, result⟩ | ⟨missing, differ⟩
      · exact .inl ⟨found, within listed, matching, result⟩
      · refine .inr ⟨missing, fun plain other listed same => ?_⟩
        have key_differs := not_same_of_not_candidate plain candidate
        by_cases inside : other ∈ part
        · exact differ plain other inside same
        · by_cases equal : other = key
          · rw [equal] at same
            exact key_differs same
          · exact key_differs ((beyond other listed inside equal).2 same)

/-- The search goes into the child of an entry behind the name. -/
theorem Finds.goLeft (finds : Finds vol uname passed left (nameBehind vol uname key name) mref)
    (sorted : SortedKeys vol.upcase (left ++ key :: right))
    (behind : CollatesBefore vol.upcase uname key.name)
    (taken : ¬ (isCandidate vol uname key ∧ name.isSome)) :
    Finds vol uname passed (left ++ key :: right) name mref := by
  obtain ⟨_, _, _, _, right_behind⟩ := sorted.split
  refine finds.around (List.subset_append_left _ _) ?_ taken ?_
  · intro equal
    rw [equal] at behind
    exact CollatesBefore.irrefl behind
  · intro other listed outside different
    have later : other ∈ right := by
      simpa [outside, different] using listed
    have order := behind.trans (right_behind other later)
    constructor
    · intro equal
      rw [equal] at order
      exact CollatesBefore.irrefl order
    · intro same
      have between := SameIgnoringCase.between same behind (right_behind other later)
      exact same.trans between.symm

/-- The search goes on behind an entry before the name. -/
theorem Finds.goRight (finds : Finds vol uname passed right (nameBehind vol uname key name) mref)
    (sorted : SortedKeys vol.upcase (left ++ key :: right))
    (before : CollatesBefore vol.upcase key.name uname)
    (taken : ¬ (isCandidate vol uname key ∧ name.isSome)) :
    Finds vol uname passed (left ++ key :: right) name mref := by
  obtain ⟨_, _, _, left_before, _⟩ := sorted.split
  refine finds.around ?_ ?_ taken ?_
  · intro other listed
    simp [listed]
  · intro equal
    rw [equal] at before
    exact CollatesBefore.irrefl before
  · intro other listed outside different
    have earlier : other ∈ left := by
      simpa [outside, different] using listed
    have order := (left_before other earlier).trans before
    constructor
    · intro equal
      rw [equal] at order
      exact CollatesBefore.irrefl order
    · intro same
      have between := SameIgnoringCase.between same.symm (left_before other earlier) before
      exact between.symm

/-- The search goes on behind an entry that is passed over. -/
theorem Finds.skip {passed' : Prop} (finds : Finds vol uname passed right name mref)
    (sorted : SortedKeys vol.upcase (left ++ key :: right)) (apart : key.name ≠ uname)
    (candidate : isCandidate vol uname key ∧ name.isSome)
    (overlooks : CollatesBefore vol.upcase uname key.name → left ≠ [] → passed')
    (onward : CollatesBefore vol.upcase key.name uname → passed → passed') :
    Finds vol uname passed' (left ++ key :: right) name mref := by
  obtain ⟨_, _, _, left_before, right_behind⟩ := sorted.split
  refine ⟨?_, ?_, ?_⟩
  · intro other listed same fair
    rcases List.mem_append.mp listed with earlier | rest
    · have order := left_before other earlier
      rw [same] at order
      exact absurd (overlooks order (List.ne_nil_of_mem earlier)) fair
    · rcases List.mem_cons.mp rest with rfl | later
      · exact absurd same apart
      · have order := right_behind other later
        rw [same] at order
        exact finds.exact other later same fun bad => fair (onward order bad)
  · intro none_exact
    exact finds.keeps fun other listed => none_exact other (by simp [listed])
  · intro _ nothing
    rw [nothing] at candidate
    simp at candidate

/-- The entry with the name itself. -/
theorem finds_exact (sorted : SortedKeys vol.upcase (left ++ key :: right)) (same : key.name = uname)
    (result : mref = .ok key.mref) : Finds vol uname passed (left ++ key :: right) name mref := by
  obtain ⟨_, _, _, left_before, right_behind⟩ := sorted.split
  refine ⟨?_, ?_, ?_⟩
  · intro other listed equal _
    rcases List.mem_append.mp listed with earlier | rest
    · have order := left_before other earlier
      rw [equal, same] at order
      exact absurd order CollatesBefore.irrefl
    · rcases List.mem_cons.mp rest with rfl | later
      · exact result
      · have order := right_behind other later
        rw [equal, same] at order
        exact absurd order CollatesBefore.irrefl
  · intro none_exact
    exact absurd same (none_exact key (by simp))
  · intro none_exact
    exact absurd same (none_exact key (by simp))

end Parts

/-- What the search finds below an entry. -/
def FindsBelow (vol : NameVolume) (dir : DirectoryIndex) (uname : Uname)
    (below : Int → Option (List IndexKey)) (next : Int → Option NtfsName → LookupResult) : Prop :=
  ∀ vcn keys name, below vcn = some keys → SortedKeys vol.upcase keys →
    Finds vol uname
      (∃ block, dir.block vcn = some block ∧ PassedOver vol dir uname block.entries name.isSome)
      keys name (next vcn name).mref

variable {below : Int → Option (List IndexKey)} {next : Int → Option NtfsName → LookupResult}
  {keys : List IndexKey}

theorem finds_stopped (children : FindsBelow vol dir uname below next)
    (listed : listChild below child = some keys) (sorted : SortedKeys vol.upcase keys) :
    Finds vol uname
      (∃ vcn block, child = some vcn ∧ dir.block vcn = some block ∧
        PassedOver vol dir uname block.entries name.isSome)
      keys name (afterNode next (.stopped child name)).mref := by
  cases child with
  | none =>
    obtain rfl : keys = [] := by simpa [listChild] using listed.symm
    refine ⟨fun key listed => absurd listed List.not_mem_nil, fun _ kept saved => ?_, fun _ nothing => ?_⟩
    · rw [saved]
      rfl
    · rw [nothing]
      exact .inr ⟨rfl, fun _ key listed => absurd listed List.not_mem_nil⟩
  | some vcn =>
    apply (children vcn keys name listed sorted).mono
    rintro ⟨block, node, bad⟩
    exact ⟨vcn, block, rfl, node, bad⟩

/-- What the search of a node finds among its keys and those below. -/
theorem searchNode_finds (legal : LegalName vol.upcase uname)
    (children : FindsBelow vol dir uname below next) (listed : listEntries keyOnly below entries = some keys)
    (sorted : SortedKeys vol.upcase keys) :
    Finds vol uname (PassedOver vol dir uname entries name.isSome) keys name
      (afterNode next (searchNode vol uname entries name)).mref := by
  induction entries generalizing keys name with
  | nil => cases listed
  | cons entry rest ih =>
    cases entry with
    | corrupt => cases listed
    | last child =>
      apply (finds_stopped children listed sorted).mono
      rintro ⟨vcn, block, rfl, node, bad⟩
      exact .underLast node bad
    | named key child =>
      obtain ⟨left, right, leftKeys, rightKeys, rfl⟩ := listEntries_named keyOnly listed
      rw [keyOnly] at sorted ⊢
      obtain ⟨leftSorted, rightSorted, text, _, _⟩ := sorted.split
      by_cases same : key.name = uname
      · apply finds_exact sorted same
        have equal : ntfsAreNamesEqual uname key.name .caseSensitive vol.upcase = true :=
          (ntfsAreNamesEqual_exact text).mpr same.symm
        rw [searchNode, if_pos equal]
        rfl
      rw [searchNode_named legal text same]
      by_cases skipped : isCandidate vol uname key ∧ name.isSome
      · rw [if_pos skipped]
        refine (@ih name right rightKeys rightSorted).skip sorted same skipped ?_ ?_
        · intro behind some_child
          cases child with
          | none => exact absurd (by simpa [listChild] using leftKeys.symm) some_child
          | some vcn =>
            rw [skipped.2]
            exact .here skipped.1 behind
        · intro before bad
          refine .along before ?_
          rw [skipped.1, Bool.or_true, ← skipped.2]
          exact bad
      · rw [if_neg skipped]
        by_cases behind : CollatesBefore vol.upcase uname key.name
        · rw [if_pos behind]
          refine ((finds_stopped children leftKeys leftSorted).mono ?_).goLeft sorted behind skipped
          rintro ⟨vcn, block, rfl, node, bad⟩
          rw [nameBehind_isSome] at bad
          exact .under behind node bad
        · rw [if_neg behind]
          have before : CollatesBefore vol.upcase key.name uname := by
            rcases CollatesBefore.total same with before | late
            · exact before
            · exact absurd late behind
          refine ((@ih _ right rightKeys rightSorted).mono ?_).goRight sorted before skipped
          intro bad
          rw [nameBehind_isSome] at bad
          exact .along before bad

/-- What the descent into a child node finds. -/
theorem descendIntoChild_finds (legal : LegalName vol.upcase uname) (depth : Nat) :
    FindsBelow vol dir uname (listBlock keyOnly dir depth) (descendIntoChild vol dir uname depth) := by
  induction depth with
  | zero =>
    intro vcn keys name listed
    cases listed
  | succ depth ih =>
    intro vcn keys name listed sorted
    rw [listBlock] at listed
    rw [descendIntoChild]
    cases node : dir.block vcn with
    | none => simp [node] at listed
    | some block =>
      simp only [node] at listed ⊢
      apply (searchNode_finds legal ?_ listed sorted).mono
      · intro bad
        exact ⟨block, rfl, bad⟩
      · intro child childKeys kept childListed childSorted
        dsimp only at childListed ⊢
        split at childListed
        · cases childListed
        · rename_i inner
          rw [if_neg inner]
          exact ih child childKeys kept childListed childSorted

end Node

/-- The lookup in a directory whose index is in order finds the entry with exactly the name,
unless it is overlooked below an entry that was passed over; without such an entry it
finds one that matches without regard to case, and otherwise none. On a case sensitive
volume only names of the DOS name space match so. -/
theorem lookup_exact_first {vol : NameVolume} {dir : DirectoryIndex} {depth : Nat} {keys : List IndexKey}
    {uname : Uname} (index : WellFormedIndex vol.upcase dir depth keys)
    (legal : LegalName vol.upcase uname) :
    (∀ key ∈ keys, key.name = uname → ¬ PassedOver vol dir uname dir.root false →
        (ntfsLookupInodeByName vol dir depth uname).mref = .ok key.mref) ∧
      ((∀ key ∈ keys, key.name ≠ uname) →
        (∃ key ∈ keys, isCandidate vol uname key = true ∧
          (ntfsLookupInodeByName vol dir depth uname).mref = .ok key.mref) ∨
        ((ntfsLookupInodeByName vol dir depth uname).mref = .error .enoent ∧
          (vol.caseSensitive = false →
            ∀ key ∈ keys, ¬ SameIgnoringCase vol.upcase uname key.name))) := by
  have finds : Finds vol uname (PassedOver vol dir uname dir.root false) keys none
      (ntfsLookupInodeByName vol dir depth uname).mref :=
    @searchNode_finds vol dir uname dir.root none (listBlock keyOnly dir depth) _ keys legal
      (descendIntoChild_finds legal depth) index.listed index.keys
  exact ⟨finds.exact, fun none_exact => finds.other none_exact rfl⟩

/-- An upcase table for the letters of ASCII. -/
def asciiUpcase : Upcase :=
  ⟨(List.range 128).map fun c => if 97 ≤ c ∧ c ≤ 122 then c - 32 else c⟩

/-- A directory with three names that differ in case only, the second of them below the
third. -/
def caseIndex : DirectoryIndex where
  root := [.named ⟨[65, 66], .posix, 50⟩ (some 0), .named ⟨[97, 98], .posix, 51⟩ (some 4), .last (some 8)]
  block vcn :=
    if vcn = 0 then some ⟨true, [.named ⟨[65, 65], .posix, 52⟩ none, .last none]⟩
    else if vcn = 4 then some ⟨true, [.named ⟨[65, 98], .posix, 53⟩ none, .last none]⟩
    else if vcn = 8 then some ⟨true, [.named ⟨[122, 122], .posix, 54⟩ none, .last none]⟩
    else none

/-- The keys of the directory in order. -/
def caseKeys : List IndexKey :=
  [⟨[65, 65], .posix, 52⟩, ⟨[65, 66], .posix, 50⟩, ⟨[65, 98], .posix, 53⟩, ⟨[97, 98], .posix, 51⟩,
    ⟨[122, 122], .posix, 54⟩]

theorem caseIndex_wellFormed : WellFormedIndex asciiUpcase caseIndex 1 caseKeys where
  listed := by decide
  keys := ⟨by decide, by decide⟩

/-- The first of the three names is found in the root. -/
theorem lookup_exact_first_root :
    WellFormedIndex asciiUpcase caseIndex 1 caseKeys ∧ LegalName asciiUpcase [65, 66] ∧
      (ntfsLookupInodeByName ⟨asciiUpcase, false⟩ caseIndex 1 [65, 66]).mref = .ok 50 := by
  have legal : LegalName asciiUpcase [65, 66] := by decide
  have fair : ¬ PassedOver ⟨asciiUpcase, false⟩ caseIndex [65, 66] caseIndex.root false := by
    intro bad
    cases bad with
    | along before _ => exact CollatesBefore.irrefl before
    | under behind _ _ => exact CollatesBefore.irrefl behind
  exact ⟨caseIndex_wellFormed, legal, (@lookup_exact_first ⟨asciiUpcase, false⟩ _ _ _ _ caseIndex_wellFormed
    legal).1 ⟨[65, 66], .posix, 50⟩ (by decide) rfl fair⟩

/-- A directory with one name of the DOS name space. -/
def dosIndex : DirectoryIndex where
  root := [.named ⟨[65, 126, 49], .dos, 60⟩ none, .last none]
  block _ := none

theorem dosIndex_wellFormed : WellFormedIndex asciiUpcase dosIndex 0 [⟨[65, 126, 49], .dos, 60⟩] where
  listed := by decide
  keys := ⟨by decide, by decide⟩

/-- A lookup that finds the name itself first, then, on a volume that is not case sensitive,
a name that differs from it in case only, and otherwise nothing. -/
def ExactFirst (vol : NameVolume) (keys : List IndexKey) (uname : Uname)
    (mref : Except LookupError Nat) : Prop :=
  (∀ key ∈ keys, key.name = uname → mref = .ok key.mref) ∧
    ((∀ key ∈ keys, key.name ≠ uname) →
      if vol.caseSensitive = false ∧ ∃ key ∈ keys, SameIgnoringCase vol.upcase uname key.name then
        ∃ key ∈ keys, SameIgnoringCase vol.upcase uname key.name ∧ mref = .ok key.mref
      else mref = .error .enoent)

/-- On a case sensitive volume a DOS name is found in the other case. And on one that is
not, the second of three names that differ in case only is overlooked, and the first is
found in its place. -/
theorem lookup_of_other_entry :
    (WellFormedIndex asciiUpcase dosIndex 0 [⟨[65, 126, 49], .dos, 60⟩] ∧
      LegalName asciiUpcase [97, 126, 49] ∧
      ¬ ExactFirst ⟨asciiUpcase, true⟩ [⟨[65, 126, 49], .dos, 60⟩] [97, 126, 49]
        (ntfsLookupInodeByName ⟨asciiUpcase, true⟩ dosIndex 0 [97, 126, 49]).mref) ∧
    (WellFormedIndex asciiUpcase caseIndex 1 caseKeys ∧ LegalName asciiUpcase [65, 98] ∧
      ¬ ExactFirst ⟨asciiUpcase, false⟩ caseKeys [65, 98]
        (ntfsLookupInodeByName ⟨asciiUpcase, false⟩ caseIndex 1 [65, 98]).mref) := by
  have found : (ntfsLookupInodeByName ⟨asciiUpcase, true⟩ dosIndex 0 [97, 126, 49]).mref = .ok 60 := rfl
  have other : (ntfsLookupInodeByName ⟨asciiUpcase, false⟩ caseIndex 1 [65, 98]).mref = .ok 50 := rfl
  refine ⟨⟨dosIndex_wellFormed, by decide, ?_⟩, caseIndex_wellFormed, by decide, ?_⟩
  · rintro ⟨_, otherwise⟩
    have missing := otherwise (by decide)
    rw [if_neg (fun both => Bool.noConfusion both.1), found] at missing
    cases missing
  · rintro ⟨first, _⟩
    have exact_name := first ⟨[65, 98], .posix, 53⟩ (by decide) rfl
    rw [other] at exact_name
    cases exact_name

end Ttntfs.Ntfs
