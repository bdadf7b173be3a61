import Ttntfs.Ntfs.ResolvedEntry
import Ttntfs.Vfs.Namespace

/-!
# What the steps on names do

The shape of the index trees does not matter to the names: the listing of a volume has
the keys of each directory in their order in place of its tree. Where the trees are in
order, every step of `__ntfs_link` and `ntfs_delete` is a change of the listing.
-/

namespace Ttntfs.Vfs

open Ttntfs.Ntfs Ttntfs.Library.StatefulSteps

/-- The inodes of a volume with the keys of their indexes. -/
abbrev Listing := Nat → Option (Inode (List IndexKey))

/-- An inode with the keys of its index. -/
def Inode.listed (inode : Inode DirectoryIndex) : Inode (List IndexKey) :=
  { inode with index := keysOf inode.index }

/-- The listing of a volume. -/
def listing (inodes : Inodes) : Listing := fun ino => (inodes ino).map Inode.listed

/-- All indexes of a volume are in order. -/
def IndexesInOrder (upcase : Upcase) (inodes : Inodes) : Prop :=
  ∀ dir inode, inodes dir = some inode → InOrder upcase inode.index (keysOf inode.index)

section Changes

variable {α β : Type} {inodes : Nat → Option α} {ino other : Nat} {inode : α} {change : α → α}

theorem modifyAt_same (found : inodes ino = some inode) :
    modifyAt inodes ino change ino = some (change inode) := by
  simp [modifyAt, found]

theorem modifyAt_other (apart : other ≠ ino) : modifyAt inodes ino change other = inodes other := by
  simp [modifyAt, apart]

theorem modifyAt_eq_some {after : α} (found : modifyAt inodes ino change other = some after) :
    ∃ before, inodes other = some before ∧ after = if other = ino then change before else before := by
  rw [modifyAt] at found
  split at found
  · rename_i same
    obtain ⟨before, earlier, rfl⟩ := Option.map_eq_some_iff.mp found
    exact ⟨before, same ▸ earlier, by rw [if_pos same]⟩
  · rename_i apart
    exact ⟨after, found, by rw [if_neg apart]⟩

theorem modifyAt_id (found : inodes ino = some inode) (same : change inode = inode) :
    modifyAt inodes ino change = inodes := by
  funext other
  by_cases equal : other = ino
  · rw [equal, modifyAt_same found, found, same]
  · exact modifyAt_other equal

end Changes

theorem listing_modifyAt {inodes : Inodes} {ino : Nat} {inode : Inode DirectoryIndex}
    {change : Inode DirectoryIndex → Inode DirectoryIndex}
    {listedChange : Inode (List IndexKey) → Inode (List IndexKey)} (found : inodes ino = some inode)
    (same : (change inode).listed = listedChange inode.listed) :
    listing (modifyAt inodes ino change) = modifyAt (listing inodes) ino listedChange := by
  funext other
  rw [listing, modifyAt, modifyAt]
  split
  · rw [found, Option.map_some, Option.map_some, same, listing, found, Option.map_some, Option.map_some]
  · rfl

theorem IndexesInOrder.modifyAt {upcase : Upcase} {inodes : Inodes} {ino : Nat}
    {change : Inode DirectoryIndex → Inode DirectoryIndex} (inOrder : IndexesInOrder upcase inodes)
    (changed : ∀ inode, inodes ino = some inode →
      InOrder upcase (change inode).index (keysOf (change inode).index)) :
    IndexesInOrder upcase (Vfs.modifyAt inodes ino change) := by
  intro dir after found
  obtain ⟨before, earlier, rfl⟩ := modifyAt_eq_some found
  split
  · rename_i same
    exact changed before (same ▸ earlier)
  · exact inOrder dir before earlier

/-- The keys in the index of an inode. -/
def keysAt (files : Listing) (dir : Nat) : List IndexKey := ((files dir).map Inode.index).getD []

/-- The `$FILE_NAME` attributes of an inode. -/
def namesAt (files : Listing) (ino : Nat) : List FileName := ((files ino).map Inode.fileNames).getD []

/-- The link count of an inode. -/
def countAt (files : Listing) (ino : Nat) : Nat := ((files ino).map Inode.linkCount).getD 0

section Readings

variable {files : Listing} {inodes : Inodes} {ino dir : Nat} {inode : Inode DirectoryIndex}

theorem listing_eq (found : inodes ino = some inode) : listing inodes ino = some inode.listed := by
  rw [listing, found, Option.map_some]

theorem listing_none (missing : inodes ino = none) : listing inodes ino = none := by
  rw [listing, missing, Option.map_none]

theorem keysAt_listing (found : inodes dir = some inode) :
    keysAt (listing inodes) dir = keysOf inode.index := by
  rw [keysAt, listing_eq found, Option.map_some, Option.getD_some, Inode.listed]

theorem namesAt_listing (found : inodes ino = some inode) :
    namesAt (listing inodes) ino = inode.fileNames := by
  rw [namesAt, listing_eq found, Option.map_some, Option.getD_some, Inode.listed]

theorem countAt_listing (found : inodes ino = some inode) :
    countAt (listing inodes) ino = inode.linkCount := by
  rw [countAt, listing_eq found, Option.map_some, Option.getD_some, Inode.listed]

end Readings

/-- A root is as long as one without entries just when the index holds no keys. -/
theorem rootValueLength_eq_iff {upcase : Upcase} {index : DirectoryIndex} {keys : List IndexKey}
    (inOrder : InOrder upcase index keys) :
    rootValueLength index.root = emptyRootLength ↔ keys = [] := by
  constructor
  · intro short
    have listed := inOrder.index.listed
    cases entries : index.root with
    | nil =>
      rw [entries] at listed
      cases listed
    | cons entry rest =>
      rw [entries] at listed short
      cases entry with
      | corrupt => cases listed
      | named key child =>
        simp only [rootValueLength, List.map_cons, List.sum_cons, entryLength, emptyRootLength] at short
        omega
      | last child =>
        cases child with
        | none => simpa [listEntries, listChild] using listed.symm
        | some vcn =>
          simp only [rootValueLength, List.map_cons, List.sum_cons, emptyRootLength, Option.isSome_some,
            if_true] at short
          omega
  · intro empty
    rw [inOrder.bare empty]
    rfl

/-- A change of an index that fails leaves an index in order with the keys it had. -/
def Unharmed (upcase : Upcase) (keys : List IndexKey) (fault : Option (Fault DirectoryIndex)) : Prop :=
  ∀ broken tree, fault = some broken → broken.torn = some tree → InOrder upcase tree keys

section Steps

variable {upcase : Upcase} {code : IndexCode upcase} {inodes : Inodes} {ino dir : Nat}

theorem getInode_ends :
    Ends (getInode ino) inodes (fun inode after => inodes = after ∧ inodes ino = some inode)
      (fun _ after => inodes = after ∧ inodes ino = none) := by
  rw [Ends, getInode, get_bind]
  cases found : inodes ino with
  | some inode => exact ⟨rfl, rfl⟩
  | none => exact ⟨rfl, rfl⟩

theorem failing_ends {fault : Option NameError} :
    Ends (failing fault) inodes (fun _ after => inodes = after ∧ fault = none)
      (fun _ after => inodes = after ∧ fault ≠ none) := by
  rw [Ends]
  cases fault with
  | none => exact ⟨rfl, rfl⟩
  | some error => exact ⟨rfl, by simp⟩

/-- An index that a failed change leaves is listed with the keys of its tree. -/
theorem listing_left {fault : Fault DirectoryIndex} {inode : Inode DirectoryIndex} {keys : List IndexKey}
    (inOrder : IndexesInOrder upcase inodes) (found : inodes dir = some inode)
    (left : InOrder upcase (fault.left inode.index) keys) :
    listing (modifyAt inodes dir (Inode.withIndex (fault.left inode.index))) =
        modifyAt (listing inodes) dir (Inode.withIndex keys) ∧
      IndexesInOrder upcase (modifyAt inodes dir (Inode.withIndex (fault.left inode.index))) := by
  refine ⟨listing_modifyAt found ?_, inOrder.modifyAt fun _ _ => ?_⟩
  · rw [Inode.listed, Inode.withIndex, left.keysOf_eq]
    rfl
  · rw [Inode.withIndex, left.keysOf_eq]
    exact left

theorem Unharmed.unchanged {fault : Fault DirectoryIndex} {inode : Inode DirectoryIndex}
    (unharmed : Unharmed upcase (keysAt (listing inodes) dir) (some fault))
    (inOrder : IndexesInOrder upcase inodes) (found : inodes dir = some inode) :
    listing (modifyAt inodes dir (Inode.withIndex (fault.left inode.index))) = listing inodes ∧
      IndexesInOrder upcase (modifyAt inodes dir (Inode.withIndex (fault.left inode.index))) := by
  rw [keysAt_listing found] at unharmed
  have left : InOrder upcase (fault.left inode.index) (keysOf inode.index) := by
    rw [Fault.left]
    cases torn : fault.torn with
    | none => exact inOrder dir inode found
    | some tree => exact unharmed fault tree rfl torn
  obtain ⟨files, order⟩ := listing_left inOrder found left
  exact ⟨files.trans (modifyAt_id (listing_eq found) rfl), order⟩

/-- There is no entry of a name yet, for all that the lookup can tell. -/
def LooksFree (upcase : Upcase) (inodes : Inodes) (dir : Nat) (name : Uname) : Prop :=
  ∃ parent, inodes dir = some parent ∧ ntfsIndexLookup upcase parent.index name = .ok none

/-- An entry is added where there is none with its name. -/
theorem ntfsIndexAddFilename_ends {key : IndexKey} {fault : Option (Fault DirectoryIndex)}
    (inOrder : IndexesInOrder upcase inodes) (text : 0 ∉ key.name) :
    Ends (ntfsIndexAddFilename code dir key fault) inodes
      (fun _ after => (∀ other ∈ keysAt (listing inodes) dir, other.name ≠ key.name) ∧
        listing after = modifyAt (listing inodes) dir
          (fun inode => inode.withIndex (insertKey upcase key inode.index)) ∧
        IndexesInOrder upcase after ∧ fault = none ∧ LooksFree upcase inodes dir key.name)
      (fun _ after => (Unharmed upcase (keysAt (listing inodes) dir) fault →
          listing after = listing inodes ∧ IndexesInOrder upcase after) ∧
        (LooksFree upcase inodes dir key.name → fault ≠ none)) := by
  apply Ends.bind
  apply getInode_ends.imp
  · rintro inode _ ⟨rfl, found⟩
    cases fault with
    | some fault => exact ⟨fun unharmed => unharmed.unchanged inOrder found, fun _ => by simp⟩
    | none =>
      have stays (occupied : ntfsIndexLookup upcase inode.index key.name ≠ .ok none) :
          (Unharmed upcase (keysAt (listing inodes) dir) none →
            listing inodes = listing inodes ∧ IndexesInOrder upcase inodes) ∧
          (LooksFree upcase inodes dir key.name → (none : Option (Fault DirectoryIndex)) ≠ none) := by
        refine ⟨fun _ => ⟨rfl, inOrder⟩, fun free => ?_⟩
        obtain ⟨parent, parentFound, result⟩ := free
        cases found.symm.trans parentFound
        exact absurd result occupied
      have located := @ntfsIndexLookup_locates upcase inode.index key.name _ (inOrder dir inode found)
      dsimp only
      cases result : ntfsIndexLookup upcase inode.index key.name with
      | error error => exact stays (by simp [result])
      | ok present =>
        cases present with
        | some other => exact stays (by simp [result])
        | none =>
          rcases located with known | ⟨_, refused⟩
          · rw [result, Except.ok.injEq] at known
            have fresh := keyNamed_eq_none.mp known.symm
            have added := code.ntfsIeAdd_inOrder (inOrder dir inode found) result fresh text
            rw [keysAt_listing found]
            refine ⟨fresh, listing_modifyAt found ?_, inOrder.modifyAt ?_, rfl, inode, found, result⟩
            · simp [Inode.listed, Inode.withIndex, added.keysOf_eq]
            · intro other _
              rw [Inode.withIndex, added.keysOf_eq]
              exact added
          · rw [result] at refused
            cases refused
  · rintro _ _ ⟨rfl, missing⟩
    refine ⟨fun _ => ⟨rfl, inOrder⟩, fun free => ?_⟩
    obtain ⟨parent, found, _⟩ := free
    rw [missing] at found
    cases found

/-- The entry with a name is removed. -/
theorem ntfsIndexRemove_ends {name : Uname} {fault : Option (Fault DirectoryIndex)}
    (inOrder : IndexesInOrder upcase inodes) :
    Ends (ntfsIndexRemove code dir name fault) inodes
      (fun _ after => fault = none ∧ LegalName upcase name ∧
        ∃ key, keyNamed name (keysAt (listing inodes) dir) = some key ∧
        listing after = modifyAt (listing inodes) dir
          (fun inode => inode.withIndex (inode.index.erase key)) ∧
        IndexesInOrder upcase after)
      (fun _ after => (Unharmed upcase (keysAt (listing inodes) dir) fault →
          listing after = listing inodes ∧ IndexesInOrder upcase after) ∧
        (fault ≠ none ∨ ¬ LegalName upcase name ∨ keyNamed name (keysAt (listing inodes) dir) = none)) := by
  apply Ends.bind
  apply getInode_ends.imp
  · rintro inode _ ⟨rfl, found⟩
    cases fault with
    | some fault => exact ⟨fun unharmed => unharmed.unchanged inOrder found, .inl (by simp)⟩
    | none =>
      have located := @ntfsIndexLookup_locates upcase inode.index name _ (inOrder dir inode found)
      rw [keysAt_listing found]
      dsimp only
      rcases located with result | ⟨illegal, result⟩
      · cases known : keyNamed name (keysOf inode.index) with
        | none =>
          rw [result, known]
          exact ⟨fun _ => ⟨rfl, inOrder⟩, .inr (.inr rfl)⟩
        | some key =>
          have legal := ntfsIndexLookup_legal (result.trans (congrArg _ known))
          obtain ⟨listed, rfl⟩ := keyNamed_mem known
          have removed := code.ntfsIndexRm_inOrder (inOrder dir inode found) (result.trans (congrArg _ known))
            listed
          rw [result, known]
          refine ⟨rfl, legal, key, rfl, listing_modifyAt found ?_, inOrder.modifyAt ?_⟩
          · simp [Inode.listed, Inode.withIndex, removed.keysOf_eq]
          · intro other _
            rw [Inode.withIndex, removed.keysOf_eq]
            exact removed
      · rw [result]
        exact ⟨fun _ => ⟨rfl, inOrder⟩, .inr (.inl illegal)⟩
  · rintro _ _ ⟨rfl, missing⟩
    refine ⟨fun _ => ⟨rfl, inOrder⟩, .inr (.inr ?_)⟩
    rw [keysAt, listing_none missing]
    rfl

/-- A `$FILE_NAME` is added. -/
theorem ntfsAttrAdd_ends {fn : FileName} {place : Nat} {fault : Option (Fault (List FileName))}
    (inOrder : IndexesInOrder upcase inodes) :
    Ends (ntfsAttrAdd ino fn place fault) inodes
      (fun _ after => fault = none ∧
        listing after = modifyAt (listing inodes) ino
          (fun inode => inode.withFileNames (putAt place fn inode.fileNames)) ∧
        IndexesInOrder upcase after)
      (fun _ after => (inodes ino = none ∨ fault ≠ none) ∧ IndexesInOrder upcase after ∧
        ∃ names, listing after = modifyAt (listing inodes) ino (Inode.withFileNames names)) := by
  apply Ends.bind
  apply getInode_ends.imp
  · rintro inode _ ⟨rfl, found⟩
    have kept (names : List FileName) :
        IndexesInOrder upcase (modifyAt inodes ino (Inode.withFileNames names)) :=
      inOrder.modifyAt fun other present => inOrder ino other present
    cases fault with
    | some fault =>
      exact ⟨.inr (by simp), kept _, _, listing_modifyAt found rfl⟩
    | none => exact ⟨rfl, listing_modifyAt found rfl, kept _⟩
  · rintro _ _ ⟨rfl, missing⟩
    refine ⟨.inl missing, inOrder, [], ?_⟩
    funext other
    rw [modifyAt]
    split
    · rename_i same
      rw [same, listing_none missing, Option.map_none]
    · rfl

theorem ntfsAttrRecordRm_ends {fn : FileName} {fault : Option (Fault (List FileName))}
    (inOrder : IndexesInOrder upcase inodes) :
    Ends (ntfsAttrRecordRm ino fn fault) inodes
      (fun _ after => listing after = modifyAt (listing inodes) ino
          (fun inode => inode.withFileNames (inode.fileNames.erase fn)) ∧
        IndexesInOrder upcase after)
      (fun _ _ => inodes ino = none ∨ fault ≠ none) := by
  apply Ends.bind
  apply getInode_ends.imp
  · rintro inode _ ⟨rfl, found⟩
    cases fault with
    | some fault => exact .inr (by simp)
    | none =>
      exact ⟨listing_modifyAt found rfl, inOrder.modifyAt fun other present => inOrder ino other present⟩
  · rintro _ _ ⟨rfl, missing⟩
    exact .inl missing

/-- What is asked of a directory record before one of its names is deleted: it is empty, or
the name is not its last. -/
def Unlinkable (inode : Inode (List IndexKey)) (fn : FileName) : Prop :=
  inode.dirRecord = false ∨ inode.index = [] ∨
    ¬ (inode.linkCount = 1 ∨ (inode.linkCount = 2 ∧ fn.type = .dos))

theorem ntfsCheckEmptyDir_eq {inode : Inode DirectoryIndex} {fault : Option NameError}
    (inOrder : InOrder upcase inode.index (keysOf inode.index)) :
    ntfsCheckEmptyDir inode fault =
      if inode.dirRecord = false then .ok ()
      else
        match fault with
        | some error => .error error
        | none => if keysOf inode.index = [] then .ok () else .error .enotempty := by
  cases fault with
  | some error => rfl
  | none =>
    rw [ntfsCheckEmptyDir.eq_def]
    split
    · rfl
    · dsimp only
      by_cases empty : keysOf inode.index = []
      · rw [if_pos empty, if_neg (not_not.mpr ((rootValueLength_eq_iff inOrder).mpr empty))]
      · rw [if_neg empty, if_pos (mt (rootValueLength_eq_iff inOrder).mp empty)]

/-- The check of `ntfs_check_unlinkable_dir` passes. -/
def Passes (files : Listing) (ino : Nat) (fn : FileName) (fault : Option NameError) : Prop :=
  ∃ inode, files ino = some inode ∧ (inode.dirRecord = false ∨ (fault = none ∧ inode.index = []) ∨
    ((fault = none ∨ fault = some .enotempty) ∧
      ¬ (inode.linkCount = 1 ∨ (inode.linkCount = 2 ∧ fn.type = .dos))))

theorem Passes.unlinkable {files : Listing} {fn : FileName} {fault : Option NameError}
    (passes : Passes files ino fn fault) : ∃ inode, files ino = some inode ∧ Unlinkable inode fn := by
  obtain ⟨inode, found, plain | ⟨_, empty⟩ | ⟨_, more⟩⟩ := passes
  · exact ⟨inode, found, .inl plain⟩
  · exact ⟨inode, found, .inr (.inl empty)⟩
  · exact ⟨inode, found, .inr (.inr more)⟩

theorem ntfsCheckUnlinkableDir_ends {fn : FileName} {fault : Option NameError}
    (inOrder : IndexesInOrder upcase inodes) :
    Ends (ntfsCheckUnlinkableDir ino fn fault) inodes
      (fun _ after => inodes = after ∧ Passes (listing inodes) ino fn fault)
      (fun _ after => inodes = after ∧ ¬ Passes (listing inodes) ino fn fault) := by
  apply Ends.bind
  apply getInode_ends.imp
  · rintro inode _ ⟨rfl, found⟩
    have passes : Passes (listing inodes) ino fn fault ↔ (inode.dirRecord = false ∨
        (fault = none ∧ keysOf inode.index = []) ∨ ((fault = none ∨ fault = some .enotempty) ∧
          ¬ (inode.linkCount = 1 ∨ (inode.linkCount = 2 ∧ fn.type = .dos)))) := by
      rw [Passes, listing_eq found]
      simp [Inode.listed]
    rw [ntfsCheckEmptyDir_eq (inOrder ino inode found), passes]
    by_cases plain : inode.dirRecord = false
    · rw [if_pos plain]
      exact ⟨rfl, .inl plain⟩
    rw [if_neg plain]
    cases fault with
    | some error =>
      dsimp only
      split
      · rename_i other
        exact ⟨rfl, by simp [plain, other]⟩
      · rename_i refused
        split
        · rename_i last
          exact ⟨rfl, by simp [plain, last]⟩
        · rename_i more
          exact ⟨rfl, .inr (.inr ⟨.inr (congrArg some (not_not.mp refused)), more⟩)⟩
    | none =>
      dsimp only
      by_cases empty : keysOf inode.index = []
      · rw [if_pos empty]
        exact ⟨rfl, .inr (.inl ⟨rfl, empty⟩)⟩
      rw [if_neg empty]
      dsimp only
      rw [if_neg (by simp)]
      split
      · rename_i last
        exact ⟨rfl, by simp [plain, empty, last]⟩
      · rename_i more
        exact ⟨rfl, .inr (.inr ⟨.inl rfl, more⟩)⟩
  · rintro _ _ ⟨rfl, missing⟩
    refine ⟨rfl, ?_⟩
    rintro ⟨inode, found, _⟩
    rw [listing_none missing] at found
    cases found

/-- A name is gone from both places and from the count. -/
def dropName (files : Listing) (ino dir : Nat) (fn : FileName) (key : IndexKey) : Listing :=
  modifyAt (modifyAt files dir fun inode => inode.withIndex (inode.index.erase key)) ino
    fun inode => dropLink (inode.withFileNames (inode.fileNames.erase fn))

/-- A name is in both places and in the count. -/
def addName (upcase : Upcase) (files : Listing) (ino dir place : Nat) (name : Uname) : Listing :=
  modifyAt (modifyAt files dir fun inode => inode.withIndex (insertKey upcase ⟨name, .posix, ino⟩ inode.index))
    ino fun inode => addLink (inode.withFileNames (putAt place ⟨dir, name, .posix⟩ inode.fileNames))

theorem modifyAt_modifyAt {α : Type} {files : Nat → Option α} {first second : α → α} :
    modifyAt (modifyAt files ino first) ino second = modifyAt files ino fun inode => second (first inode) := by
  funext other
  by_cases same : other = ino
  · simp [modifyAt, same, Function.comp_def]
  · rw [modifyAt_other same, modifyAt_other same, modifyAt_other same]

theorem exists_modifyAt {α : Type} {files : Nat → Option α} {other : Nat} {change : α → α} :
    (∃ inode, modifyAt files other change ino = some inode) ↔ ∃ inode, files ino = some inode := by
  rw [modifyAt]
  split
  · rename_i same
    simp [same]
  · rfl

theorem exists_listing : (∃ inode, listing inodes ino = some inode) ↔ ∃ inode, inodes ino = some inode := by
  simp [listing]

theorem listed_dropLink (inode : Inode DirectoryIndex) : (dropLink inode).listed = dropLink inode.listed := by
  cases inode
  rfl

theorem index_dropLink (inode : Inode DirectoryIndex) : (dropLink inode).index = inode.index := by
  rw [dropLink]

theorem listed_addLink (inode : Inode DirectoryIndex) : (addLink inode).listed = addLink inode.listed := by
  cases inode
  rfl

theorem listed_settleLinks (inode : Inode DirectoryIndex) :
    (settleLinks inode).listed = settleLinks inode.listed := by
  by_cases none_left : inode.linkCount = 0
  · simp [settleLinks, Inode.listed, none_left]
  · simp [settleLinks, Inode.listed, none_left]

theorem modifyAt_ends {change : Inode DirectoryIndex → Inode DirectoryIndex}
    {listedChange : Inode (List IndexKey) → Inode (List IndexKey)} (inOrder : IndexesInOrder upcase inodes)
    (same : ∀ inode, (change inode).listed = listedChange inode.listed)
    (index : ∀ inode, (change inode).index = inode.index) :
    Ends (modify fun inodes => modifyAt inodes ino change : NameM Unit) inodes
      (fun _ after => listing after = modifyAt (listing inodes) ino listedChange ∧ IndexesInOrder upcase after)
      (fun _ _ => False) := by
  refine ⟨?_, inOrder.modifyAt fun inode found => ?_⟩
  · funext other
    by_cases equal : other = ino
    · simp [listing, modifyAt, equal, Function.comp_def, same]
    · simp [listing, modifyAt, equal]
  · rw [index]
    exact inOrder ino inode found

/-- No step of a round fails. -/
def RoundCourse.Smooth (course : RoundCourse) : Prop :=
  course.search = none ∧ course.check = none ∧ course.indexRemove = none ∧ course.attrRm = none

/-- A name that a round of a deletion can remove. -/
structure Removable (upcase : Upcase) (files : Listing) (ino dir : Nat) (fn : FileName) : Prop where
  unlinkable : ∃ inode, files ino = some inode ∧ Unlinkable inode fn
  legal : LegalName upcase fn.name
  known : keyNamed fn.name (keysAt files dir) ≠ none

/-- A round takes the entry of a name out of the index. -/
structure RoundCourse.Takes (upcase : Upcase) (files : Listing) (ino dir : Nat) (fn : FileName)
    (course : RoundCourse) : Prop where
  passes : Passes files ino fn course.check
  indexRemove : course.indexRemove = none
  legal : LegalName upcase fn.name
  known : keyNamed fn.name (keysAt files dir) ≠ none

theorem Removable.takes {files : Listing} {fn : FileName} {course : RoundCourse}
    (removable : Removable upcase files ino dir fn)
    (check : ∀ inode, files ino = some inode → inode.dirRecord = true → course.check = none)
    (indexRemove : course.indexRemove = none) : course.Takes upcase files ino dir fn := by
  obtain ⟨inode, found, unlinkable⟩ := removable.unlinkable
  refine ⟨⟨inode, found, ?_⟩, indexRemove, removable.legal, removable.known⟩
  cases record : inode.dirRecord with
  | false => exact .inl rfl
  | true =>
    have smooth := check inode found record
    rcases unlinkable with plain | empty | more
    · rw [record] at plain
      cases plain
    · exact .inr (.inl ⟨smooth, empty⟩)
    · exact .inr (.inr ⟨.inl smooth, more⟩)

/-- A round that fails: the entry is gone and the attribute is not, or what a failing removal
of the entry leaves is all there is to see. -/
structure FailsRound (upcase : Upcase) (course : RoundCourse) (inodes : Inodes) (ino dir : Nat)
    (fn : FileName) (after : Inodes) : Prop where
  broken : course.Takes upcase (listing inodes) ino dir fn → course.attrRm ≠ none
  untouched : ¬ course.Takes upcase (listing inodes) ino dir fn →
    (Passes (listing inodes) ino fn course.check →
      Unharmed upcase (keysAt (listing inodes) dir) course.indexRemove) →
      listing after = listing inodes ∧ IndexesInOrder upcase after

/-- One round of a deletion. -/
theorem deleteRound_ends {fn : FileName} {course : RoundCourse} (inOrder : IndexesInOrder upcase inodes) :
    Ends (deleteRound code ino dir fn course) inodes
      (fun _ after => course.Takes upcase (listing inodes) ino dir fn ∧
        ∃ key, keyNamed fn.name (keysAt (listing inodes) dir) = some key ∧
          listing after = dropName (listing inodes) ino dir fn key ∧ IndexesInOrder upcase after)
      (fun _ after => FailsRound upcase course inodes ino dir fn after) := by
  apply Ends.bind
  apply (ntfsCheckUnlinkableDir_ends inOrder).imp
  · rintro _ _ ⟨rfl, passes⟩
    apply Ends.bind
    apply (ntfsIndexRemove_ends inOrder).imp
    · rintro _ removed ⟨smooth, legal, key, known, removedFiles, removedOrder⟩
      have takes : course.Takes upcase (listing inodes) ino dir fn :=
        ⟨passes, smooth, legal, by simp [known]⟩
      obtain ⟨inode, found, _⟩ := passes
      have present : ∃ inode, removed ino = some inode := by
        rw [← exists_listing, removedFiles, exists_modifyAt]
        exact ⟨inode, found⟩
      apply Ends.bind
      apply (ntfsAttrRecordRm_ends removedOrder).imp
      · rintro _ cut ⟨cutFiles, cutOrder⟩
        apply (modifyAt_ends cutOrder listed_dropLink index_dropLink).imp
        · rintro _ after ⟨files, order⟩
          refine ⟨takes, key, known, ?_, order⟩
          rw [files, cutFiles, removedFiles, modifyAt_modifyAt]
          rfl
        · intro _ _ impossible
          exact impossible.elim
      · rintro _ _ (missing | broken)
        · obtain ⟨other, there⟩ := present
          rw [missing] at there
          cases there
        · exact ⟨fun _ => broken, fun stays => absurd takes stays⟩
    · rintro _ after ⟨untouched, reasons⟩
      refine ⟨fun takes => ?_, fun _ unharmed => untouched (unharmed passes)⟩
      rcases reasons with broken | illegal | unknown
      · exact absurd takes.indexRemove broken
      · exact absurd takes.legal illegal
      · exact absurd unknown takes.known
  · rintro _ _ ⟨rfl, stuck⟩
    exact ⟨fun takes => absurd takes.passes stuck, fun _ _ => ⟨rfl, inOrder⟩⟩

/-- The long name that belongs to a DOS name. -/
def partnerOf (names : List FileName) : Option FileName := names.find? fun other => decide (other.type = .win32)

/-- What a deletion leaves. -/
inductive Deletes (upcase : Upcase) (files : Listing) (ino dir : Nat) (name : Uname) : Listing → Prop where
  | single {fn : FileName} {key : IndexKey}
      (search : searchFileName upcase (namesAt files ino) dir name = some (fn, false))
      (unlinkable : ∃ inode, files ino = some inode ∧ Unlinkable inode fn)
      (known : keyNamed fn.name (keysAt files dir) = some key) :
      Deletes upcase files ino dir name (modifyAt (dropName files ino dir fn key) ino settleLinks)
  | paired {fn other : FileName} {key otherKey : IndexKey}
      (search : searchFileName upcase (namesAt files ino) dir name = some (fn, true))
      (unlinkable : ∃ inode, files ino = some inode ∧ Unlinkable inode fn)
      (known : keyNamed fn.name (keysAt files dir) = some key)
      (partner : partnerOf (namesAt (dropName files ino dir fn key) ino) = some other)
      (otherUnlinkable : ∃ inode, dropName files ino dir fn key ino = some inode ∧ Unlinkable inode other)
      (otherKnown : keyNamed other.name (keysAt (dropName files ino dir fn key) dir) = some otherKey) :
      Deletes upcase files ino dir name
        (modifyAt (dropName (dropName files ino dir fn key) ino dir other otherKey) ino settleLinks)

/-- The search of a round finds a name. -/
def RoundCourse.Finds (upcase : Upcase) (files : Listing) (ino dir : Nat) (name : Uname) (fn : FileName)
    (paired : Bool) (course : RoundCourse) : Prop :=
  course.search = none ∧ searchFileName upcase (namesAt files ino) dir name = some (fn, paired)

/-- A deletion takes the entry of the name that it finds out of the index. -/
def RoundCourse.EntryGoes (upcase : Upcase) (files : Listing) (ino dir : Nat) (name : Uname)
    (course : RoundCourse) : Prop :=
  ∃ fn paired, course.Finds upcase files ino dir name fn paired ∧ course.Takes upcase files ino dir fn

/-- A deletion that fails in its first round: the entry is gone and the attribute is not, or
what a failing removal of the entry leaves is all there is to see. -/
structure FailsFirst (upcase : Upcase) (course : RoundCourse) (inodes : Inodes) (ino dir : Nat) (name : Uname)
    (after : Inodes) : Prop where
  broken : course.EntryGoes upcase (listing inodes) ino dir name → course.attrRm ≠ none
  untouched : ¬ course.EntryGoes upcase (listing inodes) ino dir name →
    (∀ fn paired, course.Finds upcase (listing inodes) ino dir name fn paired →
      Passes (listing inodes) ino fn course.check →
        Unharmed upcase (keysAt (listing inodes) dir) course.indexRemove) →
      listing after = listing inodes ∧ IndexesInOrder upcase after

/-- A deletion of a DOS name that fails when that name is gone and the long one is not. -/
structure FailsSecond (upcase : Upcase) (course : DeleteCourse) (inodes : Inodes) (ino dir : Nat)
    (name : Uname) (fn : FileName) (key : IndexKey) : Prop where
  finds : course.first.Finds upcase (listing inodes) ino dir name fn true
  takes : course.first.Takes upcase (listing inodes) ino dir fn
  known : keyNamed fn.name (keysAt (listing inodes) dir) = some key
  broken : course.second.search = none →
    ∀ other, partnerOf (namesAt (dropName (listing inodes) ino dir fn key) ino) = some other →
      course.second.Takes upcase (dropName (listing inodes) ino dir fn key) ino dir other →
        course.second.attrRm ≠ none

theorem index_settleLinks (inode : Inode DirectoryIndex) : (settleLinks inode).index = inode.index := by
  rw [settleLinks]
  split
  · rfl
  · rfl

/-- `ntfs_delete` removes the names, or fails in one of its rounds. -/
theorem ntfsDelete_ends {name : Uname} {course : DeleteCourse} (inOrder : IndexesInOrder upcase inodes) :
    Ends (ntfsDelete code ino dir name course) inodes
      (fun _ after => Deletes upcase (listing inodes) ino dir name (listing after) ∧
        IndexesInOrder upcase after ∧ course.first.EntryGoes upcase (listing inodes) ino dir name)
      (fun _ after => FailsFirst upcase course.first inodes ino dir name after ∨
        ∃ fn key, FailsSecond upcase course inodes ino dir name fn key) := by
  have settles {mid : Inodes} (order : IndexesInOrder upcase mid) {done : Listing → Prop}
      (result : done (modifyAt (listing mid) ino settleLinks)) {rest : Prop} (holds : rest)
      {failed : NameError → Inodes → Prop} :
      Ends (modify fun inodes => modifyAt inodes ino settleLinks : NameM Unit) mid
        (fun _ after => done (listing after) ∧ IndexesInOrder upcase after ∧ rest) failed := by
    apply (modifyAt_ends order listed_settleLinks index_settleLinks).imp
    · rintro _ after ⟨files, afterOrder⟩
      rw [files]
      exact ⟨result, afterOrder, holds⟩
    · intro _ _ impossible
      exact impossible.elim
  have stays (lost : ∀ fn paired, ¬ course.first.Finds upcase (listing inodes) ino dir name fn paired) :
      FailsFirst upcase course.first inodes ino dir name inodes := by
    refine ⟨?_, fun _ _ => ⟨rfl, inOrder⟩⟩
    rintro ⟨fn, paired, finds, _⟩
    exact absurd finds (lost fn paired)
  apply Ends.bind
  apply failing_ends.imp
  · rintro _ _ ⟨rfl, searched⟩
    apply Ends.bind
    apply getInode_ends.imp
    · rintro inode _ ⟨rfl, found⟩
      rw [← namesAt_listing found]
      cases search : searchFileName upcase (namesAt (listing inodes) ino) dir name with
      | none => exact .inl (stays fun fn paired finds => by simp [finds.2] at search)
      | some hit =>
        obtain ⟨fn, paired⟩ := hit
        have finds : course.first.Finds upcase (listing inodes) ino dir name fn paired := ⟨searched, search⟩
        apply Ends.bind
        apply (deleteRound_ends inOrder).imp
        · rintro _ mid ⟨takes, key, known, midFiles, midOrder⟩
          have goes : course.first.EntryGoes upcase (listing inodes) ino dir name :=
            ⟨fn, paired, finds, takes⟩
          have unlinkable := takes.passes.unlinkable
          cases paired with
          | false =>
            apply settles midOrder _ goes
            rw [midFiles]
            exact .single search unlinkable known
          | true =>
            have failsSecond {after : Inodes} (broken : course.second.search = none →
                ∀ other, partnerOf (namesAt (listing mid) ino) = some other →
                  course.second.Takes upcase (listing mid) ino dir other → course.second.attrRm ≠ none) :
                FailsFirst upcase course.first inodes ino dir name after ∨
                  ∃ fn key, FailsSecond upcase course inodes ino dir name fn key := by
              rw [midFiles] at broken
              exact .inr ⟨fn, key, finds, takes, known, broken⟩
            apply Ends.bind
            apply failing_ends.imp
            · rintro _ _ ⟨rfl, searchedAgain⟩
              apply Ends.bind
              apply getInode_ends.imp
              · rintro left _ ⟨rfl, foundAgain⟩
                rw [← namesAt_listing foundAgain]
                cases partner : partnerOf (namesAt (listing mid) ino) with
                | none =>
                  have missing := partner
                  rw [partnerOf] at missing
                  rw [missing]
                  apply failsSecond
                  intro _ other listed
                  rw [partner] at listed
                  cases listed
                | some other =>
                  have there := partner
                  rw [partnerOf] at there
                  rw [there]
                  apply Ends.bind
                  apply (deleteRound_ends midOrder).imp
                  · rintro _ last ⟨otherTakes, otherKey, otherKnown, lastFiles, lastOrder⟩
                    have otherUnlinkable := otherTakes.passes.unlinkable
                    apply settles lastOrder _ goes
                    rw [midFiles] at partner otherUnlinkable otherKnown lastFiles
                    rw [lastFiles]
                    exact .paired search unlinkable known partner otherUnlinkable otherKnown
                  · rintro _ after fails
                    apply failsSecond
                    intro _ another listed
                    obtain rfl : other = another := by simpa [partner] using listed
                    exact fails.broken
              · rintro _ _ ⟨rfl, missing⟩
                apply failsSecond
                intro _ other listed
                simp [namesAt, listing_none missing, partnerOf] at listed
            · rintro _ _ ⟨rfl, broken⟩
              apply failsSecond
              intro smooth
              exact absurd smooth broken
        · rintro _ after fails
          have only (other : FileName) (otherPaired : Bool)
              (otherFinds : course.first.Finds upcase (listing inodes) ino dir name other otherPaired) :
              other = fn := by
            obtain ⟨rfl, _⟩ := Prod.mk.inj (Option.some.inj (search.symm.trans otherFinds.2))
            rfl
          refine .inl ⟨?_, fun stays unharmed => ?_⟩
          · rintro ⟨other, otherPaired, otherFinds, takes⟩
            rw [only other otherPaired otherFinds] at takes
            exact fails.broken takes
          · exact fails.untouched (fun takes => stays ⟨fn, paired, finds, takes⟩) (unharmed fn paired finds)
    · rintro _ _ ⟨rfl, missing⟩
      refine .inl (stays fun fn paired finds => ?_)
      have search := finds.2
      simp [namesAt, listing_none missing, searchFileName] at search
  · rintro _ _ ⟨rfl, broken⟩
    exact .inl (stays fun _ _ finds => absurd finds.1 broken)

/-- What a user sees of an inode: the entries of a directory, and the link count. -/
def visible (files : Listing) (ino : Nat) : Option (List IndexKey × Nat) :=
  (files ino).map fun inode => (inode.index, inode.linkCount)

/-- All directories have the same entries, and all files the same link counts. -/
def SameVisible (files after : Listing) : Prop := ∀ ino, visible after ino = visible files ino

theorem SameVisible.refl (files : Listing) : SameVisible files files := fun _ => rfl

theorem sameVisible_modifyAt {files : Listing} {change : Inode (List IndexKey) → Inode (List IndexKey)}
    (same : ∀ inode, files ino = some inode →
      (change inode).index = inode.index ∧ (change inode).linkCount = inode.linkCount) :
    SameVisible files (modifyAt files ino change) := by
  intro other
  by_cases equal : other = ino
  · subst equal
    rw [visible, visible]
    cases found : files other with
    | none => simp [modifyAt, found]
    | some inode =>
      obtain ⟨index, count⟩ := same inode found
      simp [modifyAt_same found, index, count]
  · rw [visible, modifyAt_other equal, visible]

/-- No step of `__ntfs_link` fails. -/
def LinkCourse.Smooth (course : LinkCourse) : Prop :=
  course.prepare = none ∧ course.indexAdd = none ∧ course.attrAdd = none

/-- A file that can be linked and a directory that can take its name. -/
structure Linkable (upcase : Upcase) (files : Listing) (ino dir : Nat) (name : Uname) : Prop where
  file : ∃ inode, files ino = some inode ∧ inode.beingDeleted = false ∧ inode.linkCount ≠ 0
  parent : ∃ parent, files dir = some parent ∧ parent.beingDeleted = false
  legal : LegalName upcase name
  fresh : ∀ key ∈ keysAt files dir, key.name ≠ name

theorem undo_insertKey {keys : List IndexKey} {key : IndexKey}
    (fresh : ∀ other ∈ keys, other.name ≠ key.name)
    (sorted : SortedKeys upcase (insertKey upcase key keys)) :
    keyNamed key.name (insertKey upcase key keys) = some key ∧
      (insertKey upcase key keys).erase key = keys :=
  ⟨keyNamed_of_mem sorted (mem_insertKey.mpr (.inl rfl)),
    erase_insertKey fun listed => fresh key listed rfl⟩

/-- A removal of an entry that was added brings back the keys that were there before. -/
def Restores (upcase : Upcase) (keys : List IndexKey) (name : Uname) : Option (Fault DirectoryIndex) → Prop
  | none => LegalName upcase name
  | some broken => ∃ tree, broken.torn = some tree ∧ InOrder upcase tree keys

/-- An entry that was added is removed again. -/
theorem undoEntry_ends {files : Listing} {name : Uname} {parent : Inode (List IndexKey)}
    {fault : Option (Fault DirectoryIndex)} {error : NameError} (inOrder : IndexesInOrder upcase inodes)
    (found : files dir = some parent) (fresh : ∀ key ∈ parent.index, key.name ≠ name)
    (entered : SameVisible (modifyAt files dir fun inode =>
      inode.withIndex (insertKey upcase ⟨name, .posix, ino⟩ inode.index)) (listing inodes)) :
    Ends (do
      tryCatch (ntfsIndexRemove code dir name fault) fun _ => pure ()
      throw error : NameM Unit) inodes (fun _ _ => False)
      (fun _ after => Restores upcase parent.index name fault → SameVisible files (listing after)) := by
  have here := entered dir
  rw [visible, visible, modifyAt_same found] at here
  obtain ⟨inode, there, contents⟩ := Option.map_eq_some_iff.mp here
  obtain ⟨keys, count⟩ := Prod.mk.inj contents
  obtain ⟨original, originalFound, rfl⟩ := Option.map_eq_some_iff.mp there
  have sorted := (inOrder dir original originalFound).index.keys
  have listed : keysOf original.index = insertKey upcase ⟨name, .posix, ino⟩ parent.index := keys
  have read : keysAt (listing inodes) dir = insertKey upcase ⟨name, .posix, ino⟩ parent.index := by
    rw [keysAt_listing originalFound, listed]
  have counted : original.listed.linkCount = parent.linkCount := count
  rw [listed] at sorted
  have undone := @undo_insertKey upcase parent.index ⟨name, .posix, ino⟩ fresh sorted
  have restored {after : Listing} {index : List IndexKey → List IndexKey}
      (changed : after = modifyAt (listing inodes) dir fun inode => inode.withIndex (index inode.index))
      (same : index original.listed.index = parent.index) : SameVisible files after := by
    intro other
    rw [changed]
    by_cases atDir : other = dir
    · subst atDir
      rw [visible, modifyAt_same there, visible, found, Option.map_some, Option.map_some, ← counted, ← same]
      rfl
    · have elsewhere := entered other
      rw [visible, visible, modifyAt_other atDir] at elsewhere
      rw [visible, modifyAt_other atDir, elsewhere, visible]
  apply Ends.bind
  apply Ends.tryCatch
  cases fault with
  | none =>
    apply (ntfsIndexRemove_ends inOrder).imp
    · rintro _ after ⟨_, _, key, known, changed, _⟩ _
      rw [read, undone.1, Option.some.injEq] at known
      subst known
      apply @restored _ (fun index => index.erase ⟨name, .posix, ino⟩) changed
      rw [keys]
      exact undone.2
    · rintro _ _ ⟨_, reasons⟩ legal
      rcases reasons with broken | illegal | unknown
      · exact absurd rfl broken
      · exact absurd legal illegal
      · rw [read, undone.1] at unknown
        cases unknown
  | some broken =>
    apply Ends.bind
    apply getInode_ends.imp
    · rintro other _ ⟨rfl, otherFound⟩ ⟨tree, torn, left⟩
      have kept : broken.left other.index = tree := by rw [Fault.left, torn, Option.getD_some]
      rw [← kept] at left
      exact @restored _ (fun _ => parent.index) (listing_left inOrder otherFound left).1 rfl
    · rintro _ _ ⟨rfl, missing⟩
      rw [missing] at originalFound
      cases originalFound

theorem index_addLink (inode : Inode DirectoryIndex) : (addLink inode).index = inode.index := by
  rw [addLink]

/-- The entry of a new name is to be added. -/
structure LinkCourse.Reaches (inodes : Inodes) (ino dir : Nat) (course : LinkCourse) : Prop where
  file : ∃ inode, inodes ino = some inode ∧ inode.beingDeleted = false ∧ inode.linkCount ≠ 0
  parent : ∃ parent, inodes dir = some parent ∧ parent.beingDeleted = false
  prepare : course.prepare = none

/-- The entry of a new name is added. -/
structure LinkCourse.Enters (upcase : Upcase) (inodes : Inodes) (ino dir : Nat) (name : Uname)
    (course : LinkCourse) : Prop extends course.Reaches inodes ino dir where
  indexAdd : course.indexAdd = none
  free : LooksFree upcase inodes dir name

/-- The new name is added, to the index and to the file. -/
def LinkCourse.Adds (upcase : Upcase) (inodes : Inodes) (ino dir : Nat) (name : Uname)
    (course : LinkCourse) : Prop :=
  course.Enters upcase inodes ino dir name ∧ course.attrAdd = none

/-- What keeps a link that fails from being seen. -/
structure LinkCourse.Whole (upcase : Upcase) (inodes : Inodes) (ino dir : Nat) (name : Uname)
    (course : LinkCourse) : Prop where
  indexAdd : course.Reaches inodes ino dir →
    Unharmed upcase (keysAt (listing inodes) dir) course.indexAdd
  attrAdd : course.Enters upcase inodes ino dir name → course.attrAdd ≠ none →
    Restores upcase (keysAt (listing inodes) dir) name course.indexRemove

theorem Linkable.enters {name : Uname} {course : LinkCourse} (inOrder : IndexesInOrder upcase inodes)
    (linkable : Linkable upcase (listing inodes) ino dir name) (smooth : course.Smooth) :
    course.Enters upcase inodes ino dir name := by
  obtain ⟨file, fileFound, alive, counted⟩ := linkable.file
  obtain ⟨original, found, rfl⟩ := Option.map_eq_some_iff.mp fileFound
  obtain ⟨directory, directoryFound, open_⟩ := linkable.parent
  obtain ⟨parent, parentFound, rfl⟩ := Option.map_eq_some_iff.mp directoryFound
  refine ⟨⟨⟨original, found, alive, counted⟩, ⟨parent, parentFound, open_⟩, smooth.1⟩, smooth.2.1, parent,
    parentFound, ?_⟩
  rcases @ntfsIndexLookup_locates upcase parent.index name _ (inOrder dir parent parentFound) with
    known | ⟨illegal, _⟩
  · rw [known, ← keysAt_listing parentFound, keyNamed_eq_none.mpr linkable.fresh]
  · exact absurd linkable.legal illegal

/-- `__ntfs_link` adds the name, or fails and leaves nothing to see if what it has begun is
undone. -/
theorem ntfsLinkInner_ends {name : Uname} {course : LinkCourse} (inOrder : IndexesInOrder upcase inodes)
    (text : 0 ∉ name) :
    Ends (ntfsLinkInner code ino dir name course) inodes
      (fun _ after => course.Adds upcase inodes ino dir name ∧ (∀ key ∈ keysAt (listing inodes) dir, key.name ≠ name) ∧
        listing after = addName upcase (listing inodes) ino dir course.place name ∧
        IndexesInOrder upcase after)
      (fun _ after => (course.Whole upcase inodes ino dir name →
          SameVisible (listing inodes) (listing after)) ∧
        (course.Enters upcase inodes ino dir name → course.attrAdd ≠ none)) := by
  have stays (stuck : ¬ course.Enters upcase inodes ino dir name) :
      (course.Whole upcase inodes ino dir name → SameVisible (listing inodes) (listing inodes)) ∧
        (course.Enters upcase inodes ino dir name → course.attrAdd ≠ none) :=
    ⟨fun _ => SameVisible.refl _, fun enters => absurd enters stuck⟩
  apply Ends.bind
  apply getInode_ends.imp
  · rintro inode _ ⟨rfl, found⟩
    apply Ends.bind
    apply getInode_ends.imp
    · rintro parent _ ⟨rfl, parentFound⟩
      by_cases refused : parent.beingDeleted = true ∨ inode.beingDeleted = true ∨ inode.linkCount = 0
      · rw [if_pos refused]
        refine stays fun enters => ?_
        obtain ⟨file, fileFound, alive, counted⟩ := enters.file
        obtain ⟨directory, directoryFound, open_⟩ := enters.parent
        cases found.symm.trans fileFound
        cases parentFound.symm.trans directoryFound
        simp [alive, counted, open_] at refused
      rw [if_neg refused]
      obtain ⟨open_, rest⟩ := not_or.mp refused
      obtain ⟨alive, counted⟩ := not_or.mp rest
      apply Ends.bind
      apply failing_ends.imp
      · rintro _ _ ⟨rfl, prepared⟩
        have reaches : course.Reaches inodes ino dir := ⟨⟨inode, found, by simpa using alive, counted⟩,
          ⟨parent, parentFound, by simpa using open_⟩, prepared⟩
        apply Ends.bind
        apply (ntfsIndexAddFilename_ends inOrder text).imp
        · rintro _ mid ⟨fresh, midFiles, midOrder, smooth, free⟩
          have enters : course.Enters upcase inodes ino dir name := ⟨reaches, smooth, free⟩
          apply Ends.bind
          apply Ends.tryCatch
          apply (ntfsAttrAdd_ends midOrder).imp
          · rintro _ named ⟨stored, namedFiles, namedOrder⟩
            apply (modifyAt_ends namedOrder listed_addLink index_addLink).imp
            · rintro _ after ⟨files, order⟩
              refine ⟨⟨enters, stored⟩, fresh, ?_, order⟩
              rw [files, namedFiles, midFiles, modifyAt_modifyAt]
              rfl
            · intro _ _ impossible
              exact impossible.elim
          · rintro _ torn ⟨reason, tornOrder, names, tornFiles⟩
            have fileThere : ∃ inode, mid ino = some inode := by
              rw [← exists_listing, midFiles, exists_modifyAt, exists_listing]
              exact ⟨inode, found⟩
            have broken : course.attrAdd ≠ none := by
              rcases reason with missing | broken
              · obtain ⟨other, there⟩ := fileThere
                rw [missing] at there
                cases there
              · exact broken
            have entered : SameVisible (modifyAt (listing inodes) dir fun inode =>
                inode.withIndex (insertKey upcase ⟨name, .posix, ino⟩ inode.index)) (listing torn) := by
              rw [tornFiles, midFiles]
              exact sameVisible_modifyAt fun _ _ => ⟨rfl, rfl⟩
            have read : keysAt (listing inodes) dir = parent.listed.index := keysAt_listing parentFound
            rw [read] at fresh
            apply (undoEntry_ends tornOrder (listing_eq parentFound) fresh entered).imp
            · intro _ _ impossible
              exact impossible.elim
            · intro _ after undone
              refine ⟨fun whole => undone ?_, fun _ => broken⟩
              rw [← read]
              exact whole.attrAdd enters broken
        · rintro _ after ⟨untouched, broken⟩
          refine ⟨fun whole => ?_, fun enters => absurd enters.indexAdd (broken enters.free)⟩
          rw [(untouched (whole.indexAdd reaches)).1]
          exact SameVisible.refl _
      · rintro _ _ ⟨rfl, broken⟩
        exact stays fun enters => broken enters.prepare
    · rintro _ _ ⟨rfl, missing⟩
      refine stays fun enters => ?_
      obtain ⟨parent, there, _⟩ := enters.parent
      rw [missing] at there
      cases there
  · rintro _ _ ⟨rfl, missing⟩
    refine stays fun enters => ?_
    obtain ⟨inode, there, _⟩ := enters.file
    rw [missing] at there
    cases there

end Steps

end Ttntfs.Vfs
