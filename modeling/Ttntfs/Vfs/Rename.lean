import Ttntfs.Vfs.NameCalls
import Ttntfs.Vfs.NameConsistency

/-!
# Renaming

A rename adds the new name and deletes the old one; an existing destination is deleted
before, and a name of which only the case changes goes through a temporary name. Only
the last of these steps is undone when it fails. A rename that fails therefore leaves
everything as it was as long as no step fails after the destination or the old name has
begun to go.
-/

namespace Ttntfs.Vfs

open Ttntfs.Ntfs Ttntfs.Library.StatefulSteps

section Search

variable {upcase : Upcase} {names : List FileName} {ino dir place : Nat} {name : Uname} {fn : FileName}

theorem find_putAt {α : Type} {x : α} {others : List α} {accepts : α → Bool} (refused : accepts x = false) :
    (putAt place x others).find? accepts = others.find? accepts := by
  have whole := List.take_append_drop place others
  calc (putAt place x others).find? accepts
      = (others.take place ++ others.drop place).find? accepts := by
        rw [putAt, List.find?_append, List.find?_append, List.find?_cons_of_neg (by simp [refused])]
    _ = others.find? accepts := by rw [whole]

/-- A new name that is not the one to delete does not matter to the search. -/
theorem searchFileName_putAt (posix : fn.type = .posix) (text : 0 ∉ name)
    (apart : fn.parent ≠ dir ∨ fn.name ≠ name) :
    searchFileName upcase (putAt place fn names) dir name = searchFileName upcase names dir name := by
  have refused (rule : CaseRule) : isNameIn upcase dir name rule fn = false := by
    rw [isNameIn, if_pos posix]
    rcases apart with elsewhere | different
    · simp [elsewhere]
    · have unequal : ntfsAreNamesEqual fn.name name .caseSensitive upcase = false := by
        rw [← Bool.not_eq_true, ntfsAreNamesEqual_exact text]
        exact different
      simp [unequal]
  have shorts : (putAt place fn names).find? (fun other => decide (other.type = .dos)) =
      names.find? fun other => decide (other.type = .dos) :=
    find_putAt (by simp [posix])
  rw [searchFileName, find_putAt (refused .caseSensitive), find_putAt (refused .ignoreCase), shorts,
    searchFileName]

theorem isNameIn_exact (text : 0 ∉ name) :
    isNameIn upcase dir name .caseSensitive fn = true ↔ fn.parent = dir ∧ fn.name = name := by
  rw [isNameIn, Bool.and_eq_true, decide_eq_true_iff, ite_self, ntfsAreNamesEqual_exact text]

theorem Agreeing.oneEntry {files : Listing} {type : FileNameType} {other : FileName}
    (agreeing : Agreeing upcase files) (listed : (⟨dir, name, type⟩ : FileName) ∈ namesAt files ino)
    (otherListed : other ∈ namesAt files ino) (here : other.parent = dir) (same : other.name = name) :
    other = ⟨dir, name, type⟩ := by
  have entry := (agreeing.agree dir name type ino).mpr listed
  have otherEntry : (⟨other.name, other.type, ino⟩ : IndexKey) ∈ keysAt files dir := by
    rw [agreeing.agree, ← here]
    exact otherListed
  have only := (agreeing.sorted dir).unique entry otherEntry same.symm
  obtain ⟨_, sameType, _⟩ := IndexKey.mk.inj only
  cases other
  simp_all

theorem find_exact {files : Listing} {type : FileNameType} (agreeing : Agreeing upcase files)
    (listed : (⟨dir, name, type⟩ : FileName) ∈ namesAt files ino) (text : 0 ∉ name) :
    (namesAt files ino).find? (isNameIn upcase dir name .caseSensitive) = some ⟨dir, name, type⟩ := by
  cases first : (namesAt files ino).find? (isNameIn upcase dir name .caseSensitive) with
  | none =>
    have none_there := List.find?_eq_none.mp first _ listed
    exact absurd ((isNameIn_exact text).mpr ⟨rfl, rfl⟩) none_there
  | some other =>
    obtain ⟨here, same⟩ := (isNameIn_exact text).mp (List.find?_some first)
    rw [agreeing.oneEntry listed (List.mem_of_find?_eq_some first) here same]

theorem searchFileName_exact {files : Listing} (agreeing : Agreeing upcase files)
    (listed : (⟨dir, name, .posix⟩ : FileName) ∈ namesAt files ino) (text : 0 ∉ name) :
    searchFileName upcase (namesAt files ino) dir name = some (⟨dir, name, .posix⟩, false) := by
  have found := find_exact agreeing listed text
  simp [searchFileName, found]

end Search

/-- Listings with the same inodes, keys and counts. -/
theorem sameVisible_of_views {files after : Listing}
    (frame : ∀ ino, (after ino).map (fun inode => (inode.kind, inode.dirRecord)) =
      (files ino).map fun inode => (inode.kind, inode.dirRecord))
    (keys : ∀ ino, keysAt after ino = keysAt files ino) (counts : ∀ ino, countAt after ino = countAt files ino) :
    SameVisible files after := by
  intro ino
  have sameFrame := frame ino
  have sameKeys := keys ino
  have sameCount := counts ino
  rw [visible, visible]
  rw [keysAt, keysAt] at sameKeys
  rw [countAt, countAt] at sameCount
  cases there : after ino with
  | none =>
    rw [there, Option.map_none, eq_comm, Option.map_eq_none_iff] at sameFrame
    rw [sameFrame]
  | some inode =>
    cases before : files ino with
    | none =>
      rw [there, before] at sameFrame
      cases sameFrame
    | some original =>
      rw [there, before] at sameKeys sameCount
      simp only [Option.map_some, Option.getD_some] at sameKeys sameCount ⊢
      rw [sameKeys, sameCount]

section Moving

variable {upcase : Upcase} {files : Listing} {ino oldDir newDir place : Nat} {oldName newName : Uname}
  {inode parent : Inode (List IndexKey)}

/-- A name that is added changes the kind of no inode. -/
theorem frame_addName {other : Nat} :
    (addName upcase files ino newDir place newName other).map (fun inode => (inode.kind, inode.dirRecord)) =
      (files other).map fun inode => (inode.kind, inode.dirRecord) := by
  rw [addName]
  by_cases atDir : other = newDir <;> by_cases atFile : other = ino
  · subst atDir atFile
    simp [modifyAt, Function.comp_def, addLink, Inode.withFileNames, Inode.withIndex]
  · subst atDir
    simp [modifyAt, atFile, Function.comp_def, Inode.withIndex]
  · subst atFile
    simp [modifyAt, atDir, Function.comp_def, addLink, Inode.withFileNames]
  · simp [modifyAt, atDir, atFile]

/-- A name that was added and is deleted again leaves nothing to see. -/
theorem undo_addName (agreeing : Agreeing upcase files) (found : files ino = some inode)
    (parentFound : files newDir = some parent) (fresh : ∀ key ∈ keysAt files newDir, key.name ≠ newName) :
    SameVisible files (modifyAt (dropName (addName upcase files ino newDir place newName) ino newDir
      ⟨newDir, newName, .posix⟩ ⟨newName, .posix, ino⟩) ino settleLinks) := by
  have fileThere : ∃ added, addName upcase files ino newDir place newName ino = some added := by
    rw [addName, exists_modifyAt, exists_modifyAt]
    exact ⟨inode, found⟩
  have dirThere : ∃ added, addName upcase files ino newDir place newName newDir = some added := by
    rw [addName, exists_modifyAt, exists_modifyAt]
    exact ⟨parent, parentFound⟩
  obtain ⟨added, addedFound⟩ := fileThere
  obtain ⟨addedParent, addedParentFound⟩ := dirThere
  apply sameVisible_of_views
  · intro other
    rw [frame_settleLinks, frame_dropName, frame_addName]
  · intro other
    rw [keysAt_settleLinks, keysAt_dropName addedParentFound, keysAt_addName parentFound,
      keysAt_addName parentFound]
    by_cases same : other = newDir
    · rw [if_pos same, if_pos rfl, erase_insertKey fun listed => fresh _ listed rfl, same]
    · rw [if_neg same, if_neg same]
  · intro other
    rw [countAt_settleLinks, countAt_dropName addedFound, countAt_addName found, countAt_addName found]
    by_cases same : other = ino
    · have small : countAt files ino < 65536 := by
        rw [agreeing.count ino]
        exact Nat.mod_lt _ (by decide)
      rw [if_pos same, if_pos rfl, same]
      omega
    · rw [if_neg same, if_neg same]

/-- Every name of a file with another name can be removed from its directory. -/
theorem unlinkable_addName (consistent : Consistent upcase files) (found : files ino = some inode)
    (bounded : (namesAt files ino).length < 65536) {fn : FileName}
    (listed : fn ∈ namesAt (addName upcase files ino newDir place newName) ino)
    (some_name : namesAt files ino ≠ []) :
    ∃ added, addName upcase files ino newDir place newName ino = some added ∧ Unlinkable added fn := by
  have there : ∃ added, addName upcase files ino newDir place newName ino = some added := by
    rw [addName, exists_modifyAt, exists_modifyAt]
    exact ⟨inode, found⟩
  obtain ⟨added, addedFound⟩ := there
  refine ⟨added, addedFound, .inr (.inr ?_)⟩
  have count := @countAt_addName upcase files ino newDir place ino newName inode found
  rw [if_pos rfl, countAt, addedFound, consistent.count ino, Nat.mod_eq_of_lt bounded] at count
  simp only [Option.map_some, Option.getD_some] at count
  have some_length : 0 < (namesAt files ino).length := List.length_pos_of_ne_nil some_name
  rintro (one | ⟨two, dos⟩)
  · rw [one] at count
    omega
  · rw [namesAt_addName found, if_pos rfl, mem_putAt] at listed
    rcases listed with rfl | old
    · cases dos
    obtain ⟨long, longListed, win32, _⟩ := (consistent.paired ino).partner fn old dos
    have single : (namesAt files ino).length = 1 := by
      rw [two] at count
      omega
    obtain ⟨only, names⟩ := List.length_eq_one_iff.mp single
    rw [names, List.mem_singleton] at old longListed
    rw [longListed, ← old, dos] at win32
    cases win32

/-- No step of a move fails. -/
structure RenameCourse.Smooth (course : RenameCourse) : Prop where
  link : course.link.Smooth
  oldFirst : course.oldDelete.first.Smooth
  oldSecond : course.oldDelete.second.Smooth

/-- A deletion that fails leaves what it found: a removal of the entry that fails leaves an
index with the entry, and once the entry goes nothing fails any more. -/
structure DeleteCourse.Whole (upcase : Upcase) (files : Listing) (ino dir : Nat) (name : Uname)
    (course : DeleteCourse) : Prop where
  unharmed : ∀ fn paired, course.first.Finds upcase files ino dir name fn paired →
    Passes files ino fn course.first.check → Unharmed upcase (keysAt files dir) course.first.indexRemove
  attrRm : course.first.EntryGoes upcase files ino dir name → course.first.attrRm = none
  second : ∀ fn key, course.first.Finds upcase files ino dir name fn true →
    course.first.Takes upcase files ino dir fn → keyNamed fn.name (keysAt files dir) = some key →
      course.second.search = none ∧
        ∀ other, partnerOf (namesAt (dropName files ino dir fn key) ino) = some other →
          course.second.Takes upcase (dropName files ino dir fn key) ino dir other ∧ course.second.attrRm = none

theorem DeleteCourse.Whole.unchanged {course : DeleteCourse} {inodes after : Inodes}
    (whole : course.Whole upcase (listing inodes) ino dir name) (consistent : Consistent upcase (listing inodes))
    (fails : FailsFirst upcase course.first inodes ino dir name after ∨
      ∃ fn key, FailsSecond upcase course inodes ino dir name fn key) :
    ¬ course.first.EntryGoes upcase (listing inodes) ino dir name ∧
      listing after = listing inodes ∧ IndexesInOrder upcase after := by
  rcases fails with first | ⟨fn, key, second⟩
  · have stays : ¬ course.first.EntryGoes upcase (listing inodes) ino dir name :=
      fun goes => first.broken goes (whole.attrRm goes)
    exact ⟨stays, first.untouched stays whole.unharmed⟩
  · obtain ⟨other, partner, _⟩ := second.removable consistent
    obtain ⟨searched, taken⟩ := whole.second fn key second.finds second.takes second.known
    obtain ⟨takes, smooth⟩ := taken other partner
    exact absurd smooth (second.broken searched other partner takes)

/-- A move gets its new name in and the entry of the old one out. -/
def RenameCourse.Swaps (upcase : Upcase) (inodes : Inodes) (ino oldDir : Nat) (oldName : Uname) (newDir : Nat)
    (newName : Uname) (course : RenameCourse) : Prop :=
  course.link.Adds upcase inodes ino newDir newName ∧ course.oldDelete.first.EntryGoes upcase
    (addName upcase (listing inodes) ino newDir course.link.place newName) ino oldDir oldName

/-- A move that fails is undone: the link and the deletion of the old name leave what they
found, and where the old name stays the new one goes again. -/
structure RenameCourse.Undoing (upcase : Upcase) (inodes : Inodes) (ino oldDir : Nat) (oldName : Uname)
    (newDir : Nat) (newName : Uname) (course : RenameCourse) : Prop where
  link : course.link.Whole upcase inodes ino newDir newName
  oldDelete : course.link.Adds upcase inodes ino newDir newName → course.oldDelete.Whole upcase
    (addName upcase (listing inodes) ino newDir course.link.place newName) ino oldDir oldName
  newDelete : course.link.Adds upcase inodes ino newDir newName →
    ¬ course.Swaps upcase inodes ino oldDir oldName newDir newName →
      course.newDelete.first.search = none ∧
        course.newDelete.first.Takes upcase
          (addName upcase (listing inodes) ino newDir course.link.place newName) ino newDir
          ⟨newDir, newName, .posix⟩ ∧
        course.newDelete.first.attrRm = none

/-- No step of a round fails that has anything to do: a plain file has nothing to check. -/
structure RoundCourse.Clear (files : Listing) (ino : Nat) (course : RoundCourse) : Prop where
  search : course.search = none
  check : ∀ inode, files ino = some inode → inode.dirRecord = true → course.check = none
  indexRemove : course.indexRemove = none
  attrRm : course.attrRm = none

theorem RoundCourse.Clear.of_frame {course : RoundCourse} {after : Listing} (clear : course.Clear files ino)
    (frame : (after ino).map (fun inode => (inode.kind, inode.dirRecord)) =
      (files ino).map fun inode => (inode.kind, inode.dirRecord)) : course.Clear after ino where
  search := clear.search
  check inode found record := by
    rw [found, Option.map_some, eq_comm, Option.map_eq_some_iff] at frame
    obtain ⟨original, there, same⟩ := frame
    exact clear.check original there ((Prod.mk.inj same).2.trans record)
  indexRemove := clear.indexRemove
  attrRm := clear.attrRm

/-- The old name is found, and no step of its deletion fails. -/
def RenameCourse.Frees (upcase : Upcase) (files : Listing) (ino oldDir : Nat) (oldName : Uname)
    (course : RenameCourse) : Prop :=
  ∃ fn paired, searchFileName upcase (namesAt files ino) oldDir oldName = some (fn, paired) ∧
    LegalName upcase fn.name ∧ course.oldDelete.first.Clear files ino ∧
    (paired = true → course.oldDelete.second.Clear files ino)

/-- A name that can be moved, and no step of that fails. -/
structure Movable (upcase : Upcase) (files : Listing) (ino oldDir : Nat) (oldName : Uname) (newDir : Nat)
    (newName : Uname) (course : RenameCourse) : Prop where
  linkable : Linkable upcase files ino newDir newName
  smooth : course.link.Smooth
  oldParent : ∃ parent, files oldDir = some parent ∧ parent.beingDeleted = false
  apart : newDir ≠ oldDir ∨ newName ≠ oldName
  old : course.Frees upcase files ino oldDir oldName

/-- A name has been moved: the new one was added, and those of the old link removed. A name
that is its own new name is not found before it was added, and goes again. -/
structure Moves (upcase : Upcase) (files after : Listing) (ino oldDir : Nat) (oldName : Uname) (newDir : Nat)
    (newName : Uname) (fn : FileName) (gone : List FileName) : Prop where
  file : ∃ inode, files ino = some inode ∧ inode.beingDeleted = false
  parent : ∃ parent, files newDir = some parent ∧ parent.beingDeleted = false
  fresh : ∀ key ∈ keysAt files newDir, key.name ≠ newName
  search : newDir ≠ oldDir ∨ newName ≠ oldName →
    ∃ paired, searchFileName upcase (namesAt files ino) oldDir oldName = some (fn, paired)
  idle : newDir = oldDir → newName = oldName → gone = [⟨newDir, newName, .posix⟩]
  head : gone.head? = some fn
  oneLink : OneLink gone
  removes : ∃ place, Removes (addName upcase files ino newDir place newName) after ino oldDir gone
  consistent : Consistent upcase after

theorem Consistent.named (consistent : Consistent upcase files) (found : files ino = some inode)
    (alive : inode.beingDeleted = false) : namesAt files ino ≠ [] := by
  rw [namesAt, found]
  intro empty
  have gone := (consistent.deleted ino inode found).mpr empty
  rw [alive] at gone
  cases gone

/-- A name that can be moved is not stuck in one of the rounds of the deletion of the old
one. -/
theorem Movable.not_fails {course : RenameCourse} {inodes mid after : Inodes}
    (movable : Movable upcase (listing inodes) ino oldDir oldName newDir newName course)
    (consistent : Consistent upcase (listing inodes))
    (midConsistent : Consistent upcase (listing mid))
    (bounded : (namesAt (listing inodes) ino).length < 65536)
    (found : listing inodes ino = some inode) (alive : inode.beingDeleted = false)
    (files : listing mid = addName upcase (listing inodes) ino newDir place newName)
    (search : searchFileName upcase (namesAt (listing mid) ino) oldDir oldName =
      searchFileName upcase (namesAt (listing inodes) ino) oldDir oldName) :
    ¬ (FailsFirst upcase course.oldDelete.first mid ino oldDir oldName after ∨
      ∃ fn key, FailsSecond upcase course.oldDelete mid ino oldDir oldName fn key) := by
  obtain ⟨fn, paired, searched, legal, first, second⟩ := movable.old
  rw [← search] at searched
  have frame : (listing mid ino).map (fun inode => (inode.kind, inode.dirRecord)) =
      (listing inodes ino).map fun inode => (inode.kind, inode.dirRecord) := by
    rw [files, frame_addName]
  rintro (fails | ⟨other, key, fails⟩)
  · obtain ⟨listed, here, _⟩ := searchFileName_found (midConsistent.paired ino) searched
    have clear := first.of_frame frame
    refine fails.broken ⟨fn, paired, ⟨clear.search, searched⟩, ?_⟩ clear.attrRm
    refine Removable.takes ?_ clear.check clear.indexRemove
    apply midConsistent.removable listed here legal
    rw [files] at listed ⊢
    exact unlinkable_addName consistent found bounded listed (consistent.named found alive)
  · obtain ⟨rfl, rfl⟩ := Prod.mk.inj (Option.some.inj (searched.symm.trans fails.finds.2))
    obtain ⟨long, partner, removable⟩ := fails.removable midConsistent
    have clear : course.oldDelete.second.Clear (dropName (listing mid) ino oldDir fn key) ino :=
      (second rfl).of_frame (frame_dropName.trans frame)
    exact fails.broken clear.search long partner (removable.takes clear.check clear.indexRemove) clear.attrRm

/-- The new name and the old one change places, or nothing does if the move can be undone;
and a name that can be moved is moved. -/
theorem moveName_ends {policy : NamePolicy} {code : IndexCode policy.names.upcase} {inodes : Inodes}
    {course : RenameCourse} (inOrder : IndexesInOrder policy.names.upcase inodes)
    (consistent : Consistent policy.names.upcase (listing inodes))
    (bounded : (namesAt (listing inodes) ino).length < 65536) (oldText : 0 ∉ oldName) (newText : 0 ∉ newName) :
    Ends (moveName policy code oldDir ino oldName newDir newName course) inodes
      (fun _ after => (∃ fn gone, Moves policy.names.upcase (listing inodes) (listing after) ino oldDir oldName
          newDir newName fn gone) ∧ IndexesInOrder policy.names.upcase after ∧
        course.Swaps policy.names.upcase inodes ino oldDir oldName newDir newName)
      (fun _ after => (course.Undoing policy.names.upcase inodes ino oldDir oldName newDir newName →
          SameVisible (listing inodes) (listing after)) ∧
        ¬ Movable policy.names.upcase (listing inodes) ino oldDir oldName newDir newName course) := by
  apply Ends.bind
  apply (ntfsLinkInner_ends inOrder newText).imp
  · rintro _ mid ⟨adds, fresh, midFiles, midOrder⟩
    obtain ⟨original, originalFound, originalAlive, _⟩ := adds.1.file
    obtain ⟨directory, directoryFound, directoryOpen⟩ := adds.1.parent
    have found := listing_eq originalFound
    have parentFound := listing_eq directoryFound
    have alive : original.listed.beingDeleted = false := originalAlive
    have open_ : directory.listed.beingDeleted = false := directoryOpen
    have midConsistent : Consistent policy.names.upcase (listing mid) := by
      rw [midFiles]
      exact consistent.addName found alive parentFound fresh newText
    have midLength : (namesAt (listing mid) ino).length ≤ 65536 := by
      rw [midFiles, namesAt_addName found, if_pos rfl, perm_putAt.length_eq, List.length_cons]
      omega
    have added : (⟨newDir, newName, .posix⟩ : FileName) ∈ namesAt (listing mid) ino := by
      rw [midFiles, namesAt_addName found, if_pos rfl, mem_putAt]
      exact .inl rfl
    have exact_search := searchFileName_exact midConsistent.toAgreeing added newText
    have search (apart : newDir ≠ oldDir ∨ newName ≠ oldName) :
        searchFileName policy.names.upcase (namesAt (listing mid) ino) oldDir oldName =
          searchFileName policy.names.upcase (namesAt (listing inodes) ino) oldDir oldName := by
      rw [midFiles, namesAt_addName found, if_pos rfl]
      exact searchFileName_putAt rfl oldText apart
    apply Ends.tryCatch
    apply (ntfsDelete_ends midOrder).imp
    · rintro _ after ⟨deletes, afterOrder, goes⟩
      obtain ⟨fn, gone, paired, searched, head, oneLink, removes, _, afterConsistent⟩ :=
        deletes.removes midConsistent midLength
      rw [midFiles] at removes goes
      refine ⟨⟨fn, gone, ⟨original.listed, found, alive⟩, ⟨directory.listed, parentFound, open_⟩, fresh, ?_, ?_,
        head, oneLink, ⟨_, removes⟩, afterConsistent⟩, afterOrder, adds, goes⟩
      · intro apart
        rw [search apart] at searched
        exact ⟨paired, searched⟩
      · intro sameDir sameName
        rw [← sameDir, ← sameName, exact_search] at searched
        obtain ⟨rfl, rfl⟩ : (⟨newDir, newName, .posix⟩ : FileName) = fn ∧ false = paired := by
          simpa using searched
        rcases oneLink with ⟨only, rfl, _, _⟩ | ⟨first, long, rfl, _, dos, _⟩
        · obtain rfl : only = ⟨newDir, newName, .posix⟩ := by simpa using head
          rfl
        · obtain rfl : first = ⟨newDir, newName, .posix⟩ := by simpa using head
          cases dos
    · intro error failed fails
      have stuck : ¬ Movable policy.names.upcase (listing inodes) ino oldDir oldName newDir newName course :=
        fun movable => movable.not_fails consistent midConsistent bounded found alive midFiles
          (search movable.apart) fails
      apply Ends.bind
      apply Ends.tryCatch
      by_cases undoing : course.Undoing policy.names.upcase inodes ino oldDir oldName newDir newName
      · have whole := undoing.oldDelete adds
        rw [← midFiles] at whole
        obtain ⟨stays, same, failedOrder⟩ := whole.unchanged midConsistent fails
        rw [midFiles] at stays
        obtain ⟨searched, takes, smooth⟩ := undoing.newDelete adds fun swaps => stays swaps.2
        rw [← midFiles, ← same] at takes
        rw [← same] at added exact_search midConsistent
        apply (ntfsDelete_ends failedOrder).imp
        · rintro _ after ⟨deletes, _, _⟩
          refine ⟨fun _ => ?_, stuck⟩
          generalize listing after = afterFiles at deletes ⊢
          cases deletes with
          | @single fn key searched unlinkable known =>
            obtain rfl : (⟨newDir, newName, .posix⟩ : FileName) = fn := by
              simpa [exact_search] using searched
            rw [midConsistent.keyNamed_eq added rfl, Option.some.injEq] at known
            subst known
            rw [same, midFiles]
            exact undo_addName consistent.toAgreeing found parentFound fresh
          | paired searched => simp [exact_search] at searched
        · rintro _ after (first | ⟨other, key, second⟩)
          · exact absurd smooth (first.broken ⟨_, _, ⟨searched, exact_search⟩, takes⟩)
          · have again := second.finds.2
            simp [exact_search] at again
      · apply (ends_anyhow _ _).imp
        · exact fun _ _ _ => ⟨fun undone => absurd undone undoing, stuck⟩
        · exact fun _ _ _ => ⟨fun undone => absurd undone undoing, stuck⟩
  · rintro _ after ⟨untouched, broken⟩
    refine ⟨fun undoing => untouched undoing.link, fun movable => ?_⟩
    exact broken (movable.linkable.enters inOrder movable.smooth) movable.smooth.2.2

end Moving

section Renaming

variable {policy : NamePolicy} {code : IndexCode policy.names.upcase} {inodes : Inodes}
  {ino oldDir newDir target : Nat} {oldName newName : Uname} {course : RenameCourse}

/-- A file and two directories of which none is being deleted. -/
structure AllOpen (files : Listing) (ino oldDir newDir : Nat) : Prop where
  file : ∃ inode, files ino = some inode ∧ inode.beingDeleted = false
  oldParent : ∃ parent, files oldDir = some parent ∧ parent.beingDeleted = false
  newParent : ∃ parent, files newDir = some parent ∧ parent.beingDeleted = false

theorem Movable.allOpen {upcase : Upcase} {files : Listing}
    (movable : Movable upcase files ino oldDir oldName newDir newName course) : AllOpen files ino oldDir newDir where
  file := by
    obtain ⟨inode, found, alive, _⟩ := movable.linkable.file
    exact ⟨inode, found, alive⟩
  oldParent := movable.oldParent
  newParent := movable.linkable.parent

theorem not_open_of_none {number : Nat} (missing : inodes number = none) :
    ¬ ∃ inode, listing inodes number = some inode ∧ inode.beingDeleted = false := by
  rintro ⟨inode, there, _⟩
  rw [listing_none missing] at there
  cases there

theorem not_open_of_deleted {number : Nat} {inode : Inode DirectoryIndex} (found : inodes number = some inode)
    (deleted : inode.beingDeleted = true) :
    ¬ ∃ inode, listing inodes number = some inode ∧ inode.beingDeleted = false := by
  rintro ⟨other, there, open_⟩
  rw [listing_eq found, Option.some.injEq] at there
  rw [← there] at open_
  rw [show inode.listed.beingDeleted = inode.beingDeleted from rfl, deleted] at open_
  cases open_

/-- `__ntfs_vfs_rename` ends as its changes do, or before them when an inode is being
deleted. -/
theorem renameInner_ends {destination : Option Nat} {done : Unit → Inodes → Prop}
    {failed : NameError → Inodes → Prop}
    (early : ∀ error, ¬ AllOpen (listing inodes) ino oldDir newDir → failed error inodes)
    (changes : ∀ inode, inodes ino = some inode → AllOpen (listing inodes) ino oldDir newDir →
      Ends (do
        match destination with
        | some target => deleteTarget policy code (inode.kind = .directory) newDir target newName course
        | none => pure ()
        moveName policy code oldDir ino oldName newDir newName course) inodes done failed) :
    Ends (renameInner policy code oldDir ino oldName newDir destination newName course) inodes done failed := by
  apply Ends.bind
  apply getInode_ends.imp
  · rintro inode _ ⟨rfl, found⟩
    apply Ends.bind
    apply getInode_ends.imp
    · rintro oldParent _ ⟨rfl, oldFound⟩
      by_cases gone : inode.beingDeleted = true ∨ oldParent.beingDeleted = true
      · rw [if_pos gone]
        refine early _ fun allOpen => ?_
        rcases gone with deleted | deleted
        · exact not_open_of_deleted found deleted allOpen.file
        · exact not_open_of_deleted oldFound deleted allOpen.oldParent
      rw [if_neg gone]
      apply Ends.bind
      apply getInode_ends.imp
      · rintro newParent _ ⟨rfl, newFound⟩
        by_cases closed : oldDir ≠ newDir ∧ newParent.beingDeleted = true
        · rw [if_pos closed]
          exact early _ fun allOpen => not_open_of_deleted newFound closed.2 allOpen.newParent
        rw [if_neg closed]
        obtain ⟨fileAlive, oldAlive⟩ := not_or.mp gone
        have oldOpen : ∃ parent, listing inodes oldDir = some parent ∧ parent.beingDeleted = false :=
          ⟨oldParent.listed, listing_eq oldFound, by simpa [Inode.listed] using oldAlive⟩
        apply changes inode found
        refine ⟨⟨inode.listed, listing_eq found, by simpa [Inode.listed] using fileAlive⟩, oldOpen, ?_⟩
        by_cases same : oldDir = newDir
        · rw [← same]
          exact oldOpen
        · have newAlive := fun deleted => closed ⟨same, deleted⟩
          exact ⟨newParent.listed, listing_eq newFound, by simpa [Inode.listed] using newAlive⟩
      · rintro error _ ⟨rfl, missing⟩
        exact early error fun allOpen => not_open_of_none missing allOpen.newParent
    · rintro error _ ⟨rfl, missing⟩
      exact early error fun allOpen => not_open_of_none missing allOpen.oldParent
  · rintro error _ ⟨rfl, missing⟩
    exact early error fun allOpen => not_open_of_none missing allOpen.file

/-- `__ntfs_vfs_rename` without a destination. -/
theorem renameInner_none_ends (inOrder : IndexesInOrder policy.names.upcase inodes)
    (consistent : Consistent policy.names.upcase (listing inodes))
    (bounded : (namesAt (listing inodes) ino).length < 65536) (oldText : 0 ∉ oldName) (newText : 0 ∉ newName) :
    Ends (renameInner policy code oldDir ino oldName newDir none newName course) inodes
      (fun _ after => (∃ fn gone, Moves policy.names.upcase (listing inodes) (listing after) ino oldDir oldName
          newDir newName fn gone) ∧ IndexesInOrder policy.names.upcase after ∧
        AllOpen (listing inodes) ino oldDir newDir ∧
        course.Swaps policy.names.upcase inodes ino oldDir oldName newDir newName)
      (fun _ after => ((AllOpen (listing inodes) ino oldDir newDir →
            course.Undoing policy.names.upcase inodes ino oldDir oldName newDir newName) →
          SameVisible (listing inodes) (listing after)) ∧
        ¬ Movable policy.names.upcase (listing inodes) ino oldDir oldName newDir newName course) := by
  apply renameInner_ends
  · intro _ stuck
    exact ⟨fun _ => SameVisible.refl _, fun movable => stuck movable.allOpen⟩
  · intro inode _ allOpen
    apply (moveName_ends inOrder consistent bounded oldText newText).imp
    · rintro _ after ⟨moves, order, swaps⟩
      exact ⟨moves, order, allOpen, swaps⟩
    · rintro _ after ⟨undone, stuck⟩
      exact ⟨fun undoing => undone (undoing allOpen), stuck⟩

/-- The destination of a rename is to be deleted. -/
def TargetGiven (inodes : Inodes) (isDir : Bool) (target : Nat) (check : Option NameError) : Prop :=
  ∃ other, inodes target = some other ∧ other.beingDeleted = false ∧
    (isDir = true → ntfsCheckEmptyDir other check = .ok ())

/-- The destination of a rename is deleted, or everything is as it was. -/
theorem deleteTarget_ends {isDir : Bool} (inOrder : IndexesInOrder policy.names.upcase inodes)
    (consistent : Consistent policy.names.upcase (listing inodes)) :
    Ends (deleteTarget policy code isDir newDir target newName course) inodes
      (fun _ after => Deletes policy.names.upcase (listing inodes) target newDir newName (listing after) ∧
        (isDir = true → ∀ inode, listing inodes target = some inode → inode.dirRecord = true →
          inode.index = []) ∧
        IndexesInOrder policy.names.upcase after ∧ TargetGiven inodes isDir target course.destCheck ∧
        course.destDelete.first.EntryGoes policy.names.upcase (listing inodes) target newDir newName)
      (fun _ after => (TargetGiven inodes isDir target course.destCheck →
          course.destDelete.Whole policy.names.upcase (listing inodes) target newDir newName) →
        listing after = listing inodes) := by
  apply Ends.bind
  apply getInode_ends.imp
  · rintro inode _ ⟨rfl, found⟩
    by_cases gone : inode.beingDeleted = true
    · rw [if_pos gone]
      exact fun _ => rfl
    rw [if_neg gone]
    have deletes (empty : isDir = true → ∀ inode, listing inodes target = some inode →
        inode.dirRecord = true → inode.index = [])
        (passes : isDir = true → ntfsCheckEmptyDir inode course.destCheck = .ok ()) :
        Ends (ntfsDelete code target newDir newName course.destDelete) inodes
          (fun _ after => Deletes policy.names.upcase (listing inodes) target newDir newName (listing after) ∧
            (isDir = true → ∀ inode, listing inodes target = some inode → inode.dirRecord = true →
              inode.index = []) ∧
            IndexesInOrder policy.names.upcase after ∧ TargetGiven inodes isDir target course.destCheck ∧
            course.destDelete.first.EntryGoes policy.names.upcase (listing inodes) target newDir newName)
          (fun _ after => (TargetGiven inodes isDir target course.destCheck →
              course.destDelete.Whole policy.names.upcase (listing inodes) target newDir newName) →
            listing after = listing inodes) := by
      have given : TargetGiven inodes isDir target course.destCheck :=
        ⟨inode, found, by simpa using gone, passes⟩
      apply (ntfsDelete_ends inOrder).imp
      · rintro _ after ⟨deleted, order, goes⟩
        exact ⟨deleted, empty, order, given, goes⟩
      · intro _ after fails whole
        exact ((whole given).unchanged consistent fails).2.1
    cases isDir with
    | false => exact deletes (fun impossible => by cases impossible) fun impossible => by cases impossible
    | true =>
      apply Ends.bind
      have value := @ntfsCheckEmptyDir_eq _ inode course.destCheck (inOrder target inode found)
      cases result : ntfsCheckEmptyDir inode course.destCheck with
      | error error => exact fun _ => rfl
      | ok done =>
        apply deletes _ fun _ => result
        intro _ other there directory
        rw [listing_eq found, Option.some.injEq] at there
        subst there
        rw [result, if_neg (by simpa [Inode.listed] using directory)] at value
        split at value
        · cases value
        · split at value
          · assumption
          · cases value
  · rintro _ _ ⟨rfl, _⟩ _
    rfl

theorem Deletes.namesAt_other {upcase : Upcase} {files after : Listing} {other dir : Nat} {name : Uname}
    (deletes : Deletes upcase files target dir name after) (apart : other ≠ target) :
    namesAt after other = namesAt files other := by
  cases deletes with
  | single _ unlinkable _ =>
    obtain ⟨inode, found, _⟩ := unlinkable
    rw [namesAt_settleLinks, namesAt_dropName found, if_neg apart]
  | paired _ unlinkable _ _ otherUnlinkable _ =>
    obtain ⟨inode, found, _⟩ := unlinkable
    obtain ⟨left, leftFound, _⟩ := otherUnlinkable
    rw [namesAt_settleLinks, namesAt_dropName leftFound, if_neg apart, namesAt_dropName found, if_neg apart]

/-- An entry of exactly the name is among what a deletion removes. -/
theorem mem_gone {upcase : Upcase} {files : Listing} {dir : Nat} {name : Uname} {fn : FileName}
    {gone : List FileName} {paired : Bool} {type : FileNameType} (consistent : Consistent upcase files)
    (text : 0 ∉ name) (listed : (⟨dir, name, type⟩ : FileName) ∈ namesAt files target)
    (search : searchFileName upcase (namesAt files target) dir name = some (fn, paired))
    (head : gone.head? = some fn) (oneLink : OneLink gone)
    (removed : ∀ fn ∈ gone, fn.type = .win32 → fn ∈ namesAt files target) :
    (⟨dir, name, type⟩ : FileName) ∈ gone := by
  have firstGone : fn ∈ gone := List.mem_of_head? head
  have found := find_exact consistent.toAgreeing listed text
  cases type with
  | win32 =>
    rw [searchFileName, found] at search
    obtain ⟨short, shortFound, same⟩ := Option.map_eq_some_iff.mp search
    obtain ⟨rfl, rfl⟩ := Prod.mk.inj same
    have dos : short.type = .dos := by simpa using List.find?_some shortFound
    rcases oneLink with ⟨only, rfl, notDos, _⟩ | ⟨first, long, rfl, _, _, win32⟩
    · obtain rfl : only = short := by simpa using head
      exact absurd dos notDos
    · have longListed := removed long (by simp) win32
      rw [(consistent.paired target).oneWin32 _ listed long longListed rfl win32]
      simp
  | posix =>
    obtain ⟨rfl, _⟩ : (⟨dir, name, .posix⟩ : FileName) = fn ∧ false = paired := by
      simpa [searchFileName, found] using search
    exact firstGone
  | dos =>
    obtain ⟨rfl, _⟩ : (⟨dir, name, .dos⟩ : FileName) = fn ∧ true = paired := by
      simpa [searchFileName, found] using search
    exact firstGone
  | win32AndDos =>
    obtain ⟨rfl, _⟩ : (⟨dir, name, .win32AndDos⟩ : FileName) = fn ∧ false = paired := by
      simpa [searchFileName, found] using search
    exact firstGone

/-- What makes sure that a destination, once it is deleted, gives way to the name that is
moved: no other file has exactly the new name, no character of the two names is refused,
the old name is found among those of the file, and no step fails. -/
structure Replaceable (upcase : Upcase) (files : Listing) (ino oldDir : Nat) (oldName : Uname)
    (newDir target : Nat) (newName : Uname) (course : RenameCourse) : Prop where
  legal : LegalName upcase newName
  only : ∀ key ∈ keysAt files newDir, key.name = newName → key.mref = target
  smooth : course.link.Smooth
  old : course.Frees upcase files ino oldDir oldName

/-- A destination is deleted without a trace of failure: it stays when its deletion fails, and
gives way when it goes. -/
structure RenameCourse.Replacing (upcase : Upcase) (inodes : Inodes) (ino oldDir : Nat) (oldName : Uname)
    (newDir target : Nat) (newName : Uname) (isDir : Bool) (course : RenameCourse) : Prop where
  whole : TargetGiven inodes isDir target course.destCheck →
    course.destDelete.Whole upcase (listing inodes) target newDir newName
  replaceable : TargetGiven inodes isDir target course.destCheck →
    course.destDelete.first.EntryGoes upcase (listing inodes) target newDir newName →
      Replaceable upcase (listing inodes) ino oldDir oldName newDir target newName course

section AfterDeletion

variable {upcase : Upcase} {files mid : Listing}

/-- Another inode is not closed by a deletion. -/
theorem open_afterDeletion {number : Nat} (deletes : Deletes upcase files target newDir newName mid)
    (consistent : Consistent upcase files) (midConsistent : Consistent upcase mid)
    (frame : ∀ other, (mid other).map (fun inode => (inode.kind, inode.dirRecord)) =
      (files other).map fun inode => (inode.kind, inode.dirRecord)) (apart : number ≠ target)
    (there : ∃ inode, files number = some inode ∧ inode.beingDeleted = false) :
    ∃ inode, mid number = some inode ∧ inode.beingDeleted = false := by
  obtain ⟨inode, found, alive⟩ := there
  have same := frame number
  rw [found, Option.map_some, Option.map_eq_some_iff] at same
  obtain ⟨left, leftFound, _⟩ := same
  have names := deletes.namesAt_other apart
  rw [namesAt, leftFound, Option.map_some, Option.getD_some] at names
  refine ⟨left, leftFound, ?_⟩
  rw [← Bool.not_eq_true, midConsistent.deleted number left leftFound, names]
  exact consistent.named found alive

/-- When the destination is gone, the name can be moved. -/
theorem movable_afterDeletion (consistent : Consistent upcase files)
    (bounded : ∀ number, (namesAt files number).length < 65536) (newText : 0 ∉ newName)
    (deletes : Deletes upcase files target newDir newName mid) (notFile : target ≠ ino)
    (notOld : target ≠ oldDir) (notNew : target ≠ newDir) (allOpen : AllOpen files ino oldDir newDir)
    (apart : newDir ≠ oldDir ∨ newName ≠ oldName)
    (replaceable : Replaceable upcase files ino oldDir oldName newDir target newName course) :
    Movable upcase mid ino oldDir oldName newDir newName course := by
  obtain ⟨fn, gone, paired, search, head, oneLink, removes, _, midConsistent⟩ :=
    deletes.removes consistent (bounded target).le
  have opens {number : Nat} (apart : target ≠ number) :=
    @open_afterDeletion newDir target newName upcase files mid number deletes consistent midConsistent
      removes.frame apart.symm
  refine ⟨⟨?_, opens notNew allOpen.newParent, replaceable.legal, ?_⟩, replaceable.smooth,
    opens notOld allOpen.oldParent, apart, ?_⟩
  · obtain ⟨left, leftFound, alive⟩ := opens notFile allOpen.file
    refine ⟨left, leftFound, alive, ?_⟩
    have count := midConsistent.count ino
    have short := bounded ino
    have some_length : 0 < (namesAt mid ino).length :=
      List.length_pos_of_ne_nil (midConsistent.named leftFound alive)
    rw [← deletes.namesAt_other notFile.symm] at short
    rw [countAt, leftFound, Option.map_some, Option.getD_some] at count
    omega
  · intro key listed same
    have named := (midConsistent.agree newDir key.name key.type key.mref).mp listed
    obtain ⟨before, notGone⟩ := (removes.names key.mref _).mp named
    have mref := replaceable.only key ((consistent.agree newDir key.name key.type key.mref).mpr before) same
    rw [mref, same] at before
    apply notGone
    rw [same]
    exact ⟨mref, mem_gone consistent newText before search head oneLink fun fn listed _ =>
      (removes.listed fn listed).1⟩
  · obtain ⟨oldFn, oldPaired, oldSearch, legal, first, second⟩ := replaceable.old
    rw [← deletes.namesAt_other notFile.symm] at oldSearch
    have frame := removes.frame ino
    exact ⟨oldFn, oldPaired, oldSearch, legal, first.of_frame frame, fun pair => (second pair).of_frame frame⟩

end AfterDeletion

/-- `__ntfs_vfs_rename` with a destination: it is deleted and the name moved, or everything
is as it was if the destination gives way without a trace of failure. -/
theorem renameInner_some_ends {file : Inode DirectoryIndex} (inOrder : IndexesInOrder policy.names.upcase inodes)
    (consistent : Consistent policy.names.upcase (listing inodes))
    (bounded : ∀ number, (namesAt (listing inodes) number).length < 65536) (oldText : 0 ∉ oldName)
    (newText : 0 ∉ newName) (notFile : target ≠ ino) (apart : newDir ≠ oldDir ∨ newName ≠ oldName)
    (found : inodes ino = some file)
    (guarded : target = oldDir ∨ target = newDir → file.kind = .directory ∧
      ∀ inode, listing inodes target = some inode → inode.dirRecord = true) :
    Ends (renameInner policy code oldDir ino oldName newDir (some target) newName course) inodes
      (fun _ after => ∃ mid, Deletes policy.names.upcase (listing inodes) target newDir newName mid ∧
        (∃ fn gone, Moves policy.names.upcase mid (listing after) ino oldDir oldName newDir newName fn gone) ∧
        IndexesInOrder policy.names.upcase after)
      (fun _ after => (AllOpen (listing inodes) ino oldDir newDir →
          course.Replacing policy.names.upcase inodes ino oldDir oldName newDir target newName
            (file.kind = .directory)) →
        SameVisible (listing inodes) (listing after)) := by
  apply renameInner_ends
  · intro _ _ _
    exact SameVisible.refl _
  intro inode there allOpen
  cases found.symm.trans there
  apply Ends.bind
  apply (deleteTarget_ends inOrder consistent).imp
  · rintro _ mid ⟨deletes, empty, midOrder, given, goes⟩
    obtain ⟨fn, gone, paired, search, head, oneLink, removes, unlinkable, midConsistent⟩ :=
      deletes.removes consistent (bounded target).le
    have midBounded : (namesAt (listing mid) ino).length < 65536 := by
      rw [deletes.namesAt_other notFile.symm]
      exact bounded ino
    apply (moveName_ends midOrder midConsistent midBounded oldText newText).imp
    · rintro _ after ⟨moves, afterOrder, _⟩
      exact ⟨listing mid, deletes, moves, afterOrder⟩
    rintro _ after ⟨_, stuck⟩ replacing
    have replaceable := (replacing allOpen).replaceable given goes
    have bare (same : target = oldDir ∨ target = newDir) : keysAt (listing inodes) target = [] := by
      obtain ⟨directory, record⟩ := guarded same
      obtain ⟨other, otherFound, _⟩ := unlinkable
      rw [keysAt, otherFound]
      exact empty (by simpa using directory) other otherFound (record other otherFound)
    have occupied {number : Nat} {name : FileName} {place : Nat}
        (listed : name ∈ namesAt (listing inodes) number) (here : name.parent = place)
        (nothing : keysAt (listing inodes) place = []) : False := by
      subst here
      have entry := (consistent.agree name.parent name.name name.type number).mpr listed
      rw [nothing] at entry
      cases entry
    refine absurd (movable_afterDeletion consistent bounded newText deletes notFile ?_ ?_ allOpen apart
      replaceable) stuck
    · intro same
      obtain ⟨old, oldPaired, oldSearch, _⟩ := replaceable.old
      obtain ⟨listed, here, _⟩ := searchFileName_found (consistent.paired ino) oldSearch
      have nothing := bare (.inl same)
      rw [same] at nothing
      exact occupied listed here nothing
    · intro same
      obtain ⟨listed, here⟩ := removes.listed fn (List.mem_of_head? head)
      have nothing := bare (.inr same)
      rw [same] at nothing
      exact occupied listed here nothing
  · intro _ after untouched replacing
    rw [untouched (replacing allOpen).whole]
    exact SameVisible.refl _

end Renaming

end Ttntfs.Vfs
