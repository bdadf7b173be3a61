import Ttntfs.Ntfs.DirectoryLookup
import Ttntfs.Ntfs.IndexWalk

/-!
# Finding the place of a name to change an index

Where an entry is added or removed the index is searched by `ntfs_index_lookup`, which has
a loop of its own over the entries of a node. It compares by collation alone, and a name
with a character that the collation refuses is an error. In a root without index blocks the
entry is put where the search stopped, or taken out where it ended. How a larger tree is laid
out anew stays outside: of the code that splits and joins its blocks only the names are known
that the tree holds afterwards.
-/

namespace Ttntfs.Ntfs

/-- The errors of the calls that look for names and change them. -/
inductive NameError where
  | eperm
  | enoent
  | eio
  | enomem
  | eexist
  | exdev
  | enotdir
  | eisdir
  | einval
  | enospc
  | erofs
  | emlink
  | erange
  | enametoolong
  | enotempty
  | eloop
  | eagain
  deriving DecidableEq

/-- `-EINVAL` as a result of a comparison. -/
def collationError : Int := -22

/-- `ntfs_collate_file_name` -/
def ntfsCollateFileName (upcase : Upcase) (name1 name2 : Uname) : Int :=
  let rc := ntfsCollateNames collationError .ignoreCase upcase name1 name2
  if rc = 0 then ntfsCollateNames collationError .caseSensitive upcase name1 name2 else rc

/-- How `ntfs_ie_lookup` ends in a node. -/
inductive KeySearch where
  | outOfRange
  | found (key : IndexKey)
  | stopped (child : Option Int)

/-- The loop of `ntfs_ie_lookup`. -/
def ntfsIeLookup (upcase : Upcase) (name : Uname) : List IndexEntry → KeySearch
  | [] => .outOfRange
  | .corrupt :: _ => .outOfRange
  | .last child :: _ => .stopped child
  | .named key child :: rest =>
    let rc := ntfsCollateFileName upcase name key.name
    if rc = collationError then .outOfRange
    else if rc = -1 then .stopped child
    else if rc = 0 then .found key
    else ntfsIeLookup upcase name rest

/-- What follows on a node: the entry that was found, none, or the result of the child. -/
def keyBelow (next : Int → Except NameError (Option IndexKey)) :
    KeySearch → Except NameError (Option IndexKey)
  | .outOfRange => .error .erange
  | .found key => .ok (some key)
  | .stopped none => .ok none
  | .stopped (some vcn) => if vcn < 0 then .error .einval else next vcn

/-- The descent of `ntfs_index_lookup` into the index blocks, over a number of levels. -/
def lookupBelow (upcase : Upcase) (dir : DirectoryIndex) (name : Uname) :
    Nat → Int → Except NameError (Option IndexKey)
  | 0, _ => .error .eio
  | levels + 1, vcn =>
    match dir.block vcn with
    | none => .error .eio
    | some block =>
      keyBelow (fun child => if block.leaf then .error .eagain else lookupBelow upcase dir name levels child)
        (ntfsIeLookup upcase name block.entries)

/-- `ntfs_index_lookup`: the entry with a name, none for `-ENOENT`. -/
def ntfsIndexLookup (upcase : Upcase) (dir : DirectoryIndex) (name : Uname) :
    Except NameError (Option IndexKey) :=
  keyBelow (lookupBelow upcase dir name (maxParentVcn - 1)) (ntfsIeLookup upcase name dir.root)

/-- A directory index in order: it holds some keys, no deeper than its code goes, and the
root of an empty index is bare. -/
structure InOrder (upcase : Upcase) (dir : DirectoryIndex) (keys : List IndexKey) : Prop where
  index : WellFormedIndex upcase dir (maxParentVcn - 1) keys
  vcns : ∀ vcn < 0, dir.block vcn = none
  bare : keys = [] → dir.root = [.last none]

/-- The keys of an index with one more in its place. -/
def insertKey (upcase : Upcase) (key : IndexKey) : List IndexKey → List IndexKey
  | [] => [key]
  | other :: rest =>
    if CollatesBefore upcase key.name other.name then key :: other :: rest
    else other :: insertKey upcase key rest

/-- A root without index blocks: the last entry ends it, and no entry has a child. -/
def isSmallRoot : List IndexEntry → Bool
  | [.last none] => true
  | .named _ none :: rest => isSmallRoot rest
  | _ => false

/-- `ntfs_ie_insert` where the loop of `ntfs_ie_lookup` stops -/
def ntfsIeInsert (upcase : Upcase) (key : IndexKey) : List IndexEntry → List IndexEntry
  | .named other child :: rest =>
    if ntfsCollateFileName upcase key.name other.name = -1 then .named key none :: .named other child :: rest
    else .named other child :: ntfsIeInsert upcase key rest
  | rest => .named key none :: rest

/-- `ntfs_ie_delete` of the entry that the loop of `ntfs_ie_lookup` finds -/
def ntfsIeDelete (upcase : Upcase) (name : Uname) : List IndexEntry → List IndexEntry
  | .named other child :: rest =>
    if ntfsCollateFileName upcase name other.name = 0 then rest
    else .named other child :: ntfsIeDelete upcase name rest
  | rest => rest

/-- Whether the record has room for one more entry of the root, and the code that lays out a
tree with index blocks: `ntfs_ib_split` and `ntfs_ir_reparent` when an entry is added,
`ntfs_index_rm_node` and `ntfs_index_rm_leaf` when one is removed. -/
structure IndexCode (upcase : Upcase) where
  room : DirectoryIndex → IndexKey → Bool
  add : DirectoryIndex → IndexKey → DirectoryIndex
  remove : DirectoryIndex → IndexKey → DirectoryIndex
  add_inOrder : ∀ dir keys key, InOrder upcase dir keys → (∀ other ∈ keys, other.name ≠ key.name) →
    0 ∉ key.name → InOrder upcase (add dir key) (insertKey upcase key keys)
  remove_inOrder : ∀ dir keys key, InOrder upcase dir keys → key ∈ keys →
    InOrder upcase (remove dir key) (keys.erase key)

/-- `ntfs_ie_add` of a name that was not found -/
def IndexCode.ntfsIeAdd {upcase : Upcase} (code : IndexCode upcase) (dir : DirectoryIndex) (key : IndexKey) :
    DirectoryIndex :=
  if isSmallRoot dir.root && code.room dir key then { dir with root := ntfsIeInsert upcase key dir.root }
  else code.add dir key

/-- `ntfs_index_rm` of an entry that was found -/
def IndexCode.ntfsIndexRm {upcase : Upcase} (code : IndexCode upcase) (dir : DirectoryIndex) (key : IndexKey) :
    DirectoryIndex :=
  if isSmallRoot dir.root then { dir with root := ntfsIeDelete upcase key.name dir.root }
  else code.remove dir key

section Lookup

variable {upcase : Upcase} {dir : DirectoryIndex} {name : Uname} {keys : List IndexKey}
  {key : IndexKey}

/-- The collation of any two names is an error or their lexicographic order, and an error
only of names with refused characters. -/
theorem ntfsCollateNames_cases {other : Uname} (errVal : Int) (rule : CaseRule) :
    ntfsCollateNames errVal rule upcase name other =
        (if name.map (rule.char upcase) < other.map (rule.char upcase) then -1
        else if name.map (rule.char upcase) = other.map (rule.char upcase) then 0 else 1) ∨
      (¬ LegalName upcase name ∧ ntfsCollateNames errVal rule upcase name other = errVal) := by
  by_cases legal : LegalName upcase name
  · exact .inl (ntfsCollateNames_eq errVal rule legal)
  induction name generalizing other with
  | nil => exact absurd (fun c listed => nomatch listed) legal
  | cons c1 rest1 ih =>
    cases other with
    | nil =>
      by_cases refused : isRefusedChar c1 = true
      · exact .inr ⟨legal, by rw [ntfsCollateNames, if_pos refused]⟩
      · exact .inl (by simp [ntfsCollateNames, refused])
    | cons c2 rest2 =>
      have others : ntfsCollateNames errVal rule upcase rest1 rest2 =
            (if rest1.map (rule.char upcase) < rest2.map (rule.char upcase) then -1
            else if rest1.map (rule.char upcase) = rest2.map (rule.char upcase) then 0 else 1) ∨
          ntfsCollateNames errVal rule upcase rest1 rest2 = errVal := by
        by_cases rest_legal : LegalName upcase rest1
        · exact .inl (ntfsCollateNames_eq errVal rule rest_legal)
        · exact (@ih rest2 rest_legal).imp_right And.right
      simp only [ntfsCollateNames, List.map_cons, List.cons_lt_cons_iff, List.cons.injEq]
      by_cases refused : isRefusedChar (rule.char upcase c1) = true
      · exact .inr ⟨legal, if_pos refused⟩
      simp only [refused, if_false, Bool.false_eq_true]
      rcases Nat.lt_trichotomy (rule.char upcase c1) (rule.char upcase c2) with before | same | behind
      · exact .inl (by simp [before])
      · rcases others with ordered | failed
        · exact .inl (by simp [same, ordered])
        · exact .inr ⟨legal, by simp [same, failed]⟩
      · have apart : rule.char upcase c1 ≠ rule.char upcase c2 := by omega
        have late : ¬ rule.char upcase c1 < rule.char upcase c2 := by omega
        exact .inl (by simp [behind, apart, late])

/-- The collation of two names is the order of the index, or an error of a name with refused
characters. -/
theorem ntfsCollateFileName_cases {other : Uname} :
    ntfsCollateFileName upcase name other =
        (if CollatesBefore upcase name other then -1 else if name = other then 0 else 1) ∨
      (¬ LegalName upcase name ∧ ntfsCollateFileName upcase name other = collationError) := by
  have upper (text : Uname) : text.map (CaseRule.ignoreCase.char upcase) = upperName upcase text := rfl
  have plain (text : Uname) : text.map (CaseRule.caseSensitive.char upcase) = text := List.map_id' text
  have ignoring := @ntfsCollateNames_cases upcase name other collationError .ignoreCase
  have regarding := @ntfsCollateNames_cases upcase name other collationError .caseSensitive
  simp only [upper, plain] at ignoring regarding
  rw [ntfsCollateFileName]
  rcases ignoring with ordered | ⟨illegal, failed⟩
  · simp only [ordered]
    rcases lt_trichotomy (upperName upcase name) (upperName upcase other) with before | same | behind
    · have collates : CollatesBefore upcase name other := .inl before
      exact .inl (by simp [before, collates])
    · have decided : CollatesBefore upcase name other ↔ name < other := by
        simp [CollatesBefore, same]
      rcases regarding with exact_order | ⟨illegal, failed⟩
      · exact .inl (by simp [same, decided, exact_order])
      · exact .inr ⟨illegal, by simp [same, failed]⟩
    · have late : ¬ upperName upcase name < upperName upcase other := not_lt_of_gt behind
      have differs : ¬ upperName upcase name = upperName upcase other := ne_of_gt behind
      have collates : ¬ CollatesBefore upcase name other := by
        rintro (before | ⟨same, _⟩)
        · exact late before
        · exact differs same
      have apart : ¬ name = other := fun equal => differs (by rw [equal])
      exact .inl (by simp [late, differs, collates, apart])
  · refine .inr ⟨illegal, ?_⟩
    rw [failed]
    exact if_neg (by decide)

/-- The key with a name among sorted keys. -/
def keyNamed (name : Uname) (keys : List IndexKey) : Option IndexKey :=
  keys.find? fun key => decide (key.name = name)

theorem keyNamed_eq_none : keyNamed name keys = none ↔ ∀ key ∈ keys, key.name ≠ name := by
  simp [keyNamed]

theorem keyNamed_mem (found : keyNamed name keys = some key) : key ∈ keys ∧ key.name = name := by
  refine ⟨List.mem_of_find?_eq_some found, ?_⟩
  have holds := List.find?_some found
  simpa using holds

theorem SortedKeys.unique {other : IndexKey} (sorted : SortedKeys upcase keys) (listed : key ∈ keys)
    (alsoListed : other ∈ keys) (same : key.name = other.name) : other = key := by
  obtain ⟨left, right, rfl⟩ := List.append_of_mem listed
  obtain ⟨_, _, _, left_before, right_behind⟩ := sorted.split
  rcases List.mem_append.mp alsoListed with earlier | rest
  · have before := left_before other earlier
    rw [same] at before
    exact absurd before CollatesBefore.irrefl
  · rcases List.mem_cons.mp rest with equal | later
    · exact equal
    · have behind := right_behind other later
      rw [same] at behind
      exact absurd behind CollatesBefore.irrefl

/-- Among sorted keys the key with a name is found by it. -/
theorem keyNamed_of_mem (sorted : SortedKeys upcase keys) (listed : key ∈ keys) :
    keyNamed key.name keys = some key := by
  cases found : keyNamed key.name keys with
  | none => exact absurd rfl (keyNamed_eq_none.mp found key listed)
  | some other =>
    obtain ⟨alsoListed, same⟩ := keyNamed_mem found
    rw [sorted.unique listed alsoListed same.symm]

theorem keyNamed_left {left right : List IndexKey} (sorted : SortedKeys upcase (left ++ key :: right))
    (behind : CollatesBefore upcase name key.name) :
    keyNamed name (left ++ key :: right) = keyNamed name left := by
  obtain ⟨_, _, _, _, right_behind⟩ := sorted.split
  have missing : keyNamed name (key :: right) = none := by
    rw [keyNamed_eq_none]
    intro other listed equal
    rcases List.mem_cons.mp listed with rfl | later
    · rw [equal] at behind
      exact CollatesBefore.irrefl behind
    · have order := behind.trans (right_behind other later)
      rw [equal] at order
      exact CollatesBefore.irrefl order
  rw [keyNamed] at missing ⊢
  rw [List.find?_append, missing, Option.or_none, keyNamed]

theorem keyNamed_right {left right : List IndexKey} (sorted : SortedKeys upcase (left ++ key :: right))
    (before : CollatesBefore upcase key.name name) :
    keyNamed name (left ++ key :: right) = keyNamed name right := by
  obtain ⟨_, _, _, left_before, _⟩ := sorted.split
  have missing : keyNamed name left = none := by
    rw [keyNamed_eq_none]
    intro other listed equal
    have order := (left_before other listed).trans before
    rw [equal] at order
    exact CollatesBefore.irrefl order
  have apart : ¬ key.name = name := by
    intro equal
    rw [equal] at before
    exact CollatesBefore.irrefl before
  rw [keyNamed] at missing ⊢
  rw [List.find?_append, missing, Option.none_or, List.find?_cons_of_neg (by simpa using apart), keyNamed]

variable {below : Int → Option (List IndexKey)} {next : Int → Except NameError (Option IndexKey)}

/-- A search finds the key with a name, or fails at a refused character of the name. -/
def Locates (upcase : Upcase) (name : Uname) (keys : List IndexKey)
    (result : Except NameError (Option IndexKey)) : Prop :=
  result = .ok (keyNamed name keys) ∨ (¬ LegalName upcase name ∧ result = .error .erange)

/-- The search below an entry finds the key with the name. -/
def LocatesBelow (upcase : Upcase) (name : Uname) (below : Int → Option (List IndexKey))
    (next : Int → Except NameError (Option IndexKey)) : Prop :=
  ∀ vcn keys, below vcn = some keys → SortedKeys upcase keys →
    0 ≤ vcn ∧ Locates upcase name keys (next vcn)

theorem keyBelow_stopped {child : Option Int} (children : LocatesBelow upcase name below next)
    (listed : listChild below child = some keys) (sorted : SortedKeys upcase keys) :
    Locates upcase name keys (keyBelow next (.stopped child)) := by
  cases child with
  | none =>
    obtain rfl : keys = [] := by simpa [listChild] using listed.symm
    exact .inl rfl
  | some vcn =>
    obtain ⟨valid, located⟩ := children vcn keys listed sorted
    rw [keyBelow, if_neg (by omega)]
    exact located

/-- The search of a node finds the key with a name among its keys and those below. -/
theorem ntfsIeLookup_locates {entries : List IndexEntry}
    (children : LocatesBelow upcase name below next)
    (listed : listEntries keyOnly below entries = some keys) (sorted : SortedKeys upcase keys) :
    Locates upcase name keys (keyBelow next (ntfsIeLookup upcase name entries)) := by
  induction entries generalizing keys with
  | nil => cases listed
  | cons entry rest ih =>
    cases entry with
    | corrupt => cases listed
    | last child => exact keyBelow_stopped children listed sorted
    | named key child =>
      obtain ⟨left, right, leftKeys, rightKeys, rfl⟩ := listEntries_named keyOnly listed
      rw [keyOnly] at sorted ⊢
      obtain ⟨leftSorted, rightSorted, _, _, _⟩ := sorted.split
      rw [ntfsIeLookup]
      rcases @ntfsCollateFileName_cases upcase name key.name with ordered | ⟨illegal, failed⟩
      · rw [ordered]
        by_cases behind : CollatesBefore upcase name key.name
        · simp only [behind, if_true, collationError]
          rw [Locates, keyNamed_left sorted behind]
          exact keyBelow_stopped children leftKeys leftSorted
        · by_cases equal : name = key.name
          · subst equal
            exact .inl (by simp [behind, collationError, keyBelow, keyNamed_of_mem sorted])
          · have before : CollatesBefore upcase key.name name := by
              rcases CollatesBefore.total equal with late | before
              · exact absurd late behind
              · exact before
            simp only [behind, equal, if_false, collationError]
            rw [Locates, keyNamed_right sorted before]
            exact ih rightKeys rightSorted
      · exact .inr ⟨illegal, by simp [failed, keyBelow]⟩

/-- The descent into the index blocks finds the key with a name below a vcn. -/
theorem lookupBelow_locates (vcns : ∀ vcn < 0, dir.block vcn = none) (levels : Nat) :
    LocatesBelow upcase name (listBlock keyOnly dir levels) (lookupBelow upcase dir name levels) := by
  induction levels with
  | zero =>
    intro vcn keys listed
    cases listed
  | succ levels ih =>
    intro vcn keys listed sorted
    rw [listBlock] at listed
    rw [lookupBelow]
    cases node : dir.block vcn with
    | none => simp [node] at listed
    | some block =>
      simp only [node] at listed ⊢
      refine ⟨?_, ntfsIeLookup_locates ?_ listed sorted⟩
      · by_contra negative
        rw [vcns vcn (by omega)] at node
        cases node
      · intro child childKeys childListed childSorted
        dsimp only at childListed ⊢
        split at childListed
        · cases childListed
        · rename_i inner
          obtain ⟨inside, positive⟩ := not_or.mp inner
          rw [if_neg inside]
          exact ih child childKeys childListed childSorted

/-- In an index in order `ntfs_index_lookup` finds a name just where it is, or fails at a
refused character. -/
theorem ntfsIndexLookup_locates (inOrder : InOrder upcase dir keys) :
    Locates upcase name keys (ntfsIndexLookup upcase dir name) :=
  ntfsIeLookup_locates (lookupBelow_locates inOrder.vcns _) inOrder.index.listed inOrder.index.keys

end Lookup

section Changes

variable {upcase : Upcase} {keys : List IndexKey} {key other : IndexKey}

theorem mem_insertKey : other ∈ insertKey upcase key keys ↔ other = key ∨ other ∈ keys := by
  induction keys with
  | nil => simp [insertKey]
  | cons first rest ih =>
    rw [insertKey]
    split
    · simp
    · rw [List.mem_cons, ih, List.mem_cons]
      tauto

/-- A new name in its place leaves the keys sorted. -/
theorem SortedKeys.insert (sorted : SortedKeys upcase keys)
    (fresh : ∀ other ∈ keys, other.name ≠ key.name) (text : 0 ∉ key.name) :
    SortedKeys upcase (insertKey upcase key keys) := by
  refine ⟨?_, ?_⟩
  · induction keys with
    | nil => simp [insertKey]
    | cons first rest ih =>
      obtain ⟨behind, restSorted⟩ := List.pairwise_cons.mp sorted.sorted
      rw [insertKey]
      split
      · rename_i before
        refine List.pairwise_cons.mpr ⟨?_, sorted.sorted⟩
        intro other listed
        rcases List.mem_cons.mp listed with rfl | later
        · exact before
        · exact before.trans (behind other later)
      · rename_i late
        refine List.pairwise_cons.mpr ⟨?_, ?_⟩
        · intro other listed
          rcases mem_insertKey.mp listed with rfl | later
          · rcases CollatesBefore.total (fresh first (by simp)) with before | after
            · exact before
            · exact absurd after late
          · exact behind other later
        · exact ih
            ⟨restSorted, fun other listed => sorted.text other (by simp [listed])⟩
            fun other listed => fresh other (by simp [listed])
  · intro other listed
    rcases mem_insertKey.mp listed with rfl | old
    · exact text
    · exact sorted.text other old

theorem SortedKeys.erase (sorted : SortedKeys upcase keys) : SortedKeys upcase (keys.erase key) where
  sorted := sorted.sorted.sublist List.erase_sublist
  text other listed := sorted.text other (List.mem_of_mem_erase listed)

theorem SortedKeys.nodup (sorted : SortedKeys upcase keys) : keys.Nodup := by
  apply sorted.sorted.imp
  intro left right before equal
  rw [equal] at before
  exact CollatesBefore.irrefl before

theorem SortedKeys.mem_erase (sorted : SortedKeys upcase keys) :
    other ∈ keys.erase key ↔ other ≠ key ∧ other ∈ keys := sorted.nodup.mem_erase_iff

theorem erase_insertKey (fresh : key ∉ keys) : (insertKey upcase key keys).erase key = keys := by
  induction keys with
  | nil => simp [insertKey]
  | cons first rest ih =>
    rw [List.mem_cons, not_or] at fresh
    rw [insertKey]
    split
    · simp
    · rw [List.erase_cons_tail (by simpa using fun same => fresh.1 same.symm),
        ih fresh.2]

end Changes

/-- The keys of an index; none where it is not in order. -/
def keysOf (dir : DirectoryIndex) : List IndexKey :=
  (listEntries keyOnly (listBlock keyOnly dir (maxParentVcn - 1)) dir.root).getD []

theorem InOrder.keysOf_eq {upcase : Upcase} {dir : DirectoryIndex} {keys : List IndexKey}
    (inOrder : InOrder upcase dir keys) : keysOf dir = keys := by
  rw [keysOf, inOrder.index.listed, Option.getD_some]

/-- An index whose keys are all in the root. -/
def rootIndex (keys : List IndexKey) : DirectoryIndex where
  root := keys.map (fun key => .named key none) ++ [.last none]
  block _ := none

theorem listEntries_root (below : Int → Option (List IndexKey)) (keys : List IndexKey) :
    listEntries keyOnly below (rootIndex keys).root = some keys := by
  rw [rootIndex]
  induction keys with
  | nil => rfl
  | cons key rest ih =>
    dsimp only at ih ⊢
    rw [List.map_cons, List.cons_append, listEntries, ih]
    rfl

/-- A root without index blocks is that of its keys. -/
theorem smallRoot_keys {root : List IndexEntry} (small : isSmallRoot root = true) :
    ∃ keys, root = (rootIndex keys).root := by
  induction root with
  | nil => cases small
  | cons entry rest ih =>
    cases entry with
    | corrupt => cases small
    | last child =>
      cases child with
      | some vcn => cases small
      | none =>
        cases rest with
        | nil => exact ⟨[], rfl⟩
        | cons => cases small
    | named key child =>
      cases child with
      | some vcn => cases small
      | none =>
        obtain ⟨keys, rfl⟩ := ih small
        exact ⟨key :: keys, rfl⟩

section SmallRoot

variable {upcase : Upcase} {dir : DirectoryIndex} {keys : List IndexKey} {key : IndexKey}
  {next : Int → Except NameError (Option IndexKey)}

/-- Other keys in a root without index blocks leave the index in order. -/
theorem InOrder.ofKeys {others : List IndexKey} (inOrder : InOrder upcase dir keys)
    (sorted : SortedKeys upcase others) : InOrder upcase { dir with root := (rootIndex others).root } others where
  index := ⟨listEntries_root _ others, sorted⟩
  vcns := inOrder.vcns
  bare empty := by rw [empty]; rfl

/-- Where the search of a name stopped the name is in its place. -/
theorem ntfsIeInsert_root
    (missing : keyBelow next (ntfsIeLookup upcase key.name (rootIndex keys).root) = .ok none) :
    ntfsIeInsert upcase key (rootIndex keys).root = (rootIndex (insertKey upcase key keys)).root := by
  induction keys with
  | nil => rfl
  | cons other rest ih =>
    simp only [rootIndex, List.map_cons, List.cons_append, ntfsIeLookup] at missing ih ⊢
    rw [ntfsIeInsert, insertKey]
    rcases @ntfsCollateFileName_cases upcase key.name other.name with ordered | ⟨_, failed⟩
    · rw [ordered] at missing ⊢
      by_cases behind : CollatesBefore upcase key.name other.name
      · simp [behind]
      · by_cases same : key.name = other.name
        · rw [if_neg behind, if_pos same] at missing
          cases missing
        · simp only [behind, same, if_false, collationError] at missing ⊢
          rw [ih missing]
          rfl
    · rw [failed, if_pos rfl] at missing
      cases missing

/-- Where the search of a name ended its entry is taken out. -/
theorem ntfsIeDelete_root
    (found : keyBelow next (ntfsIeLookup upcase key.name (rootIndex keys).root) = .ok (some key)) :
    ntfsIeDelete upcase key.name (rootIndex keys).root = (rootIndex (keys.erase key)).root := by
  induction keys with
  | nil => cases found
  | cons other rest ih =>
    simp only [rootIndex, List.map_cons, List.cons_append, ntfsIeLookup] at found ih ⊢
    rw [ntfsIeDelete]
    rcases @ntfsCollateFileName_cases upcase key.name other.name with ordered | ⟨_, failed⟩
    · rw [ordered] at found ⊢
      by_cases behind : CollatesBefore upcase key.name other.name
      · simp [behind, collationError, keyBelow] at found
      by_cases same : key.name = other.name
      · rw [if_neg behind, if_pos same] at found ⊢
        cases found
        simp
      · have apart : other ≠ key := by
          rintro rfl
          exact same rfl
        simp only [behind, same, if_false, collationError] at found ⊢
        rw [List.erase_cons_tail (by simpa using apart), ih found]
        rfl
    · rw [failed, if_pos rfl] at found
      cases found

/-- A name that was not found is added in its place. -/
theorem IndexCode.ntfsIeAdd_inOrder (code : IndexCode upcase) (inOrder : InOrder upcase dir keys)
    (missing : ntfsIndexLookup upcase dir key.name = .ok none) (fresh : ∀ other ∈ keys, other.name ≠ key.name)
    (text : 0 ∉ key.name) : InOrder upcase (code.ntfsIeAdd dir key) (insertKey upcase key keys) := by
  rw [IndexCode.ntfsIeAdd]
  split
  · rename_i inRoot
    obtain ⟨small, _⟩ := Bool.and_eq_true_iff.mp inRoot
    obtain ⟨others, root⟩ := smallRoot_keys small
    have same : others = keys := by
      have listed := inOrder.index.listed
      rw [root, listEntries_root] at listed
      exact Option.some.inj listed
    rw [ntfsIndexLookup, root] at missing
    rw [root, ntfsIeInsert_root missing, same]
    exact inOrder.ofKeys (inOrder.index.keys.insert fresh text)
  · exact code.add_inOrder dir keys key inOrder fresh text

/-- An entry that was found is removed. -/
theorem IndexCode.ntfsIndexRm_inOrder (code : IndexCode upcase) (inOrder : InOrder upcase dir keys)
    (found : ntfsIndexLookup upcase dir key.name = .ok (some key)) (listed : key ∈ keys) :
    InOrder upcase (code.ntfsIndexRm dir key) (keys.erase key) := by
  rw [IndexCode.ntfsIndexRm]
  split
  · rename_i small
    obtain ⟨others, root⟩ := smallRoot_keys small
    have same : others = keys := by
      have all := inOrder.index.listed
      rw [root, listEntries_root] at all
      exact Option.some.inj all
    rw [ntfsIndexLookup, root] at found
    rw [root, ntfsIeDelete_root found, same]
    exact inOrder.ofKeys inOrder.index.keys.erase
  · exact code.remove_inOrder dir keys key inOrder listed

end SmallRoot

theorem rootIndex_inOrder {upcase : Upcase} {keys : List IndexKey} (sorted : SortedKeys upcase keys) :
    InOrder upcase (rootIndex keys) keys where
  index := ⟨listEntries_root _ keys, sorted⟩
  vcns _ _ := rfl
  bare empty := by
    rw [empty]
    rfl

/-- Code that has room for every entry in the root. -/
def rootCode (upcase : Upcase) : IndexCode upcase where
  room _ _ := true
  add dir key := rootIndex (insertKey upcase key (keysOf dir))
  remove dir key := rootIndex ((keysOf dir).erase key)
  add_inOrder dir keys key inOrder fresh text := by
    rw [inOrder.keysOf_eq]
    exact rootIndex_inOrder (inOrder.index.keys.insert fresh text)
  remove_inOrder dir keys key inOrder _ := by
    rw [inOrder.keysOf_eq]
    exact rootIndex_inOrder inOrder.index.keys.erase

end Ttntfs.Ntfs
