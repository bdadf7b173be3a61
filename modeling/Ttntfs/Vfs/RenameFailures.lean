import Ttntfs.Vfs.Rename
import Ttntfs.Vfs.SmallVolume

/-!
# A rename that fails

`ntfs_rename` takes one of three routes: the name is moved, the destination is deleted and
the name is moved, or a name that is resolved like its new name is moved to a temporary name
and from there. A failure on the second or third route can come when names are gone
already; where it does not, everything that can be seen is as it was before the call.
-/

namespace Ttntfs.Vfs

open Ttntfs.Ntfs Ttntfs.Library.StatefulSteps

/-- What a rename of an inode leaves when it succeeds. -/
inductive Renames (upcase : Upcase) (files after : Listing) (ino oldDir : Nat) (oldName : Uname) (newDir : Nat)
    (newName : Uname) : Prop where
  | unchanged (same : after = files)
  | moved {fn : FileName} {gone : List FileName}
      (moves : Moves upcase files after ino oldDir oldName newDir newName fn gone)
  | replaced {target : Nat} {mid : Listing} {fn : FileName} {gone : List FileName} (notFile : target ≠ ino)
      (kinds : ∀ inode other, files ino = some inode → files target = some other →
        (inode.kind = .directory ↔ other.kind = .directory))
      (deletes : Deletes upcase files target newDir newName mid)
      (moves : Moves upcase mid after ino oldDir oldName newDir newName fn gone)
  | changedCase {mid : Listing} {fn other : FileName} {gone alsoGone : List FileName}
      (first : Moves upcase files mid ino oldDir oldName oldDir (tmpName oldName) fn gone)
      (second : Moves upcase mid after ino oldDir (tmpName oldName) oldDir newName other alsoGone)

/-- What makes sure that a name that was moved to the temporary name can be moved on: the
two names are different ones without refused characters, an entry of the new name is one of
the link that was moved, and no step fails. -/
structure ChangesCase (upcase : Upcase) (files : Listing) (ino oldDir : Nat) (oldName newName : Uname)
    (course : RenameCourse) : Prop where
  tmpLegal : LegalName upcase (tmpName oldName)
  legal : LegalName upcase newName
  tmp : tmpName oldName ≠ oldName
  apart : newName ≠ tmpName oldName
  fresh : ∀ key ∈ keysAt files oldDir, key.name = newName → key.mref = ino ∧
    searchFileName upcase (namesAt files ino) oldDir newName =
      searchFileName upcase (namesAt files ino) oldDir oldName
  smooth : course.link.Smooth
  old : course.oldDelete.first.Clear files ino

section TemporaryName

variable {upcase : Upcase} {files mid : Listing} {ino dir : Nat} {oldName name newName : Uname} {fn : FileName}
  {gone : List FileName}

/-- The new name is there after a move, and does not go with the old one. -/
theorem Moves.listed {oldDir newDir : Nat} (moves : Moves upcase files mid ino oldDir oldName newDir name fn gone)
    (consistent : Consistent upcase files) (apart : newDir ≠ oldDir ∨ name ≠ oldName) :
    (⟨newDir, name, .posix⟩ : FileName) ∈ namesAt mid ino := by
  obtain ⟨inode, found, alive⟩ := moves.file
  obtain ⟨place, removes⟩ := moves.removes
  rw [removes.names, namesAt_addName found, if_pos rfl, mem_putAt]
  refine ⟨.inl rfl, fun both => ?_⟩
  rcases moves.oneLink with ⟨only, rfl, _, _⟩ | ⟨short, long, rfl, _, dos, win32⟩
  · obtain ⟨paired, search⟩ := moves.search apart
    obtain rfl : only = fn := by simpa using moves.head
    obtain ⟨named, _⟩ := searchFileName_found (consistent.paired ino) search
    rw [← List.mem_singleton.mp both.2] at named
    exact consistent.toAgreeing.fresh moves.fresh .posix named
  · rcases List.mem_pair.mp both.2 with same | same
    · rw [← same] at dos
      cases dos
    · rw [← same] at win32
      cases win32

/-- An inode that is not being deleted is not so after a move either. -/
theorem Moves.opens (moves : Moves upcase files mid ino dir oldName dir name fn gone)
    (consistent : Consistent upcase files) (apart : name ≠ oldName) {number : Nat}
    (there : ∃ inode, files number = some inode ∧ inode.beingDeleted = false) :
    ∃ inode, mid number = some inode ∧ inode.beingDeleted = false := by
  obtain ⟨inode, found, alive⟩ := there
  obtain ⟨file, fileFound, _⟩ := moves.file
  obtain ⟨place, removes⟩ := moves.removes
  have same := removes.frame number
  rw [frame_addName, found, Option.map_some, Option.map_eq_some_iff] at same
  obtain ⟨left, leftFound, _⟩ := same
  refine ⟨left, leftFound, ?_⟩
  rw [← Bool.not_eq_true, moves.consistent.deleted number left leftFound]
  have named : namesAt mid number ≠ [] := by
    by_cases atFile : number = ino
    · rw [atFile]
      exact List.ne_nil_of_mem (moves.listed consistent (.inr apart))
    · obtain ⟨other, otherListed⟩ := List.exists_mem_of_ne_nil _ (consistent.named found alive)
      apply List.ne_nil_of_mem
      rw [removes.names, namesAt_addName fileFound, if_neg atFile]
      exact ⟨otherListed, fun both => atFile both.1⟩
  rw [namesAt, leftFound] at named
  exact named

/-- An entry of the new name goes with the old name. -/
theorem ChangesCase.goes {course : RenameCourse} {type : FileNameType}
    (changes : ChangesCase upcase files ino dir oldName newName course)
    (moves : Moves upcase files mid ino dir oldName dir (tmpName oldName) fn gone)
    (consistent : Consistent upcase files) (newText : 0 ∉ newName)
    (listed : (⟨dir, newName, type⟩ : FileName) ∈ namesAt files ino)
    (again : searchFileName upcase (namesAt files ino) dir newName =
      searchFileName upcase (namesAt files ino) dir oldName) : (⟨dir, newName, type⟩ : FileName) ∈ gone := by
  obtain ⟨file, fileFound, _⟩ := moves.file
  obtain ⟨place, removes⟩ := moves.removes
  obtain ⟨paired, search⟩ := moves.search (.inr changes.tmp)
  apply mem_gone consistent newText listed (again.trans search) moves.head moves.oneLink
  intro other there win32
  have added := (removes.listed other there).1
  rw [namesAt_addName fileFound, if_pos rfl] at added
  rcases mem_putAt.mp added with rfl | old
  · cases win32
  · exact old

/-- From the temporary name a name can be moved on. -/
theorem ChangesCase.movable {course : RenameCourse}
    (changes : ChangesCase upcase files ino dir oldName newName course)
    (moves : Moves upcase files mid ino dir oldName dir (tmpName oldName) fn gone)
    (consistent : Consistent upcase files) (bounded : (namesAt files ino).length < 65536)
    (tmpText : 0 ∉ tmpName oldName) (newText : 0 ∉ newName) :
    Movable upcase mid ino dir (tmpName oldName) dir newName course := by
  have listed := moves.listed consistent (.inr changes.tmp)
  obtain ⟨file, fileFound, fileAlive⟩ := moves.file
  obtain ⟨place, removes⟩ := moves.removes
  obtain ⟨inode, found, alive⟩ := moves.opens consistent changes.tmp moves.file
  have parent := moves.opens consistent changes.tmp moves.parent
  refine ⟨⟨⟨inode, found, alive, ?_⟩, parent, changes.legal, ?_⟩, changes.smooth, parent, .inr changes.apart, ?_⟩
  · have count := moves.consistent.count ino
    have length := removes.length
    have some_name : 0 < (namesAt mid ino).length := List.length_pos_of_mem listed
    have some_gone : 0 < gone.length := List.length_pos_of_mem (List.mem_of_head? moves.head)
    rw [namesAt_addName fileFound, if_pos rfl, perm_putAt.length_eq, List.length_cons] at length
    rw [countAt, found, Option.map_some, Option.getD_some] at count
    omega
  · intro key present same
    have named := (moves.consistent.agree dir key.name key.type key.mref).mp present
    obtain ⟨before, stays⟩ := (removes.names key.mref _).mp named
    rw [namesAt_addName fileFound] at before
    have old : (⟨dir, key.name, key.type⟩ : FileName) ∈ namesAt files key.mref := by
      split at before
      · rename_i atFile
        rcases mem_putAt.mp before with new | old
        · obtain ⟨_, name, _⟩ := FileName.mk.inj new
          exact absurd (same.symm.trans name) changes.apart
        · rw [atFile]
          exact old
      · exact before
    obtain ⟨atFile, again⟩ :=
      changes.fresh key ((consistent.agree dir key.name key.type key.mref).mpr old) same
    rw [atFile, same] at old stays
    exact stays ⟨rfl, changes.goes moves consistent newText old again⟩
  · exact ⟨_, _, searchFileName_exact moves.consistent.toAgreeing listed tmpText, changes.tmpLegal,
      changes.old.of_frame ((removes.frame ino).trans frame_addName), fun impossible => by cases impossible⟩

end TemporaryName

/-- A name of a file that stands in a directory, other than one of the DOS name space. -/
def IsLink (files : Listing) (dir : Nat) (name : Uname) (ino : Nat) : Prop :=
  (∃ parent, files dir = some parent ∧ parent.kind = .directory) ∧
    ∃ type, type ≠ .dos ∧ (⟨name, type, ino⟩ : IndexKey) ∈ keysAt files dir

/-- The old and the new name are two hard links of one file, and are resolved to it. -/
def OntoOwnLink (policy : NamePolicy) (inodes : Inodes) (oldDir : Nat) (oldName : Uname) (newDir : Nat)
    (newName : Uname) : Prop :=
  ∃ ino inode, inodes ino = some inode ∧ inode.kind ≠ .directory ∧
    Resolves policy inodes oldDir oldName ino ∧ Resolves policy inodes newDir newName ino ∧
    IsLink (listing inodes) oldDir oldName ino ∧ IsLink (listing inodes) newDir newName ino ∧
    (oldDir, oldName) ≠ (newDir, newName)

/-- No step of a rename fails. -/
structure VfsRenameCourse.Unhindered (course : VfsRenameCourse) : Prop where
  refused : course.refused = none
  lookupOld : course.lookupOld = none
  lookupNew : course.lookupNew = none
  prepare : course.prepare = none
  plain : course.plain.Smooth
  toTmp : course.toTmp.Smooth
  fromTmp : course.fromTmp.Smooth

/-- A call that begins to rename the inode that the old name leads to: nothing before is
refused and fails. -/
structure Arrives (policy : NamePolicy) (inodes : Inodes) (oldDir : Nat) (oldName : Uname) (newDir : Nat)
    (newName : Uname) (course : VfsRenameCourse) (ino : Nat) : Prop where
  oldComponent : checkComponent oldName = .ok ()
  newComponent : checkComponent newName = .ok ()
  oldParent : ∃ parent, inodes oldDir = some parent ∧ parent.kind = .directory
  newParent : ∃ parent, inodes newDir = some parent ∧ parent.kind = .directory
  refused : course.refused = none
  lookupOld : course.lookupOld = none
  resolves : Resolves policy inodes oldDir oldName ino
  outside : oldDir ≠ newDir → ∀ inode, inodes ino = some inode → inode.kind = .directory →
    isSubdir inodes newDir ino = .ok false
  valid : ntfsVfsValidateUname policy newName = .ok ()
  prepare : course.prepare = none
  allOpen : AllOpen (listing inodes) ino oldDir newDir

/-- What keeps a rename that has begun and fails from being seen. A name that is moved must
be undone when that fails. A destination must go without a trace of failure, and the name that
is moved to its place must go on after that; and so must a name that has been moved to the
temporary name. A name that is renamed onto another of the same file in the same directory
does not stay as it is. -/
structure Harmless (policy : NamePolicy) (inodes : Inodes) (oldDir : Nat) (oldName : Uname) (newDir : Nat)
    (newName : Uname) (course : VfsRenameCourse) : Prop where
  moving : ∀ ino, Arrives policy inodes oldDir oldName newDir newName course ino →
    (course.lookupNew = some .enoent ∨ (course.lookupNew = none ∧ Absent policy inodes newDir newName)) →
    course.plain.Undoing policy.names.upcase inodes ino oldDir oldName newDir newName
  movingCase : ∀ ino, Arrives policy inodes oldDir oldName newDir newName course ino →
    course.lookupNew = none → Resolves policy inodes newDir newName ino → oldDir = newDir →
    oldName ≠ newName → policy.names.caseSensitive = true →
    course.plain.Undoing policy.names.upcase inodes ino oldDir oldName newDir newName
  replacing : ∀ ino target file other, Arrives policy inodes oldDir oldName newDir newName course ino →
    course.lookupNew = none → Resolves policy inodes newDir newName target → target ≠ ino →
    inodes ino = some file → inodes target = some other →
    (file.kind = .directory ↔ other.kind = .directory) →
    course.plain.Replacing policy.names.upcase inodes ino oldDir oldName newDir target newName
      (file.kind = .directory)
  changingCase : ∀ ino, Arrives policy inodes oldDir oldName newDir newName course ino →
    course.lookupNew = none → Resolves policy inodes newDir newName ino → oldDir = newDir →
    oldName ≠ newName → policy.names.caseSensitive = false →
    course.toTmp.Undoing policy.names.upcase inodes ino oldDir oldName oldDir (tmpName oldName) ∧
      (course.toTmp.Swaps policy.names.upcase inodes ino oldDir oldName oldDir (tmpName oldName) →
        ChangesCase policy.names.upcase (listing inodes) ino oldDir oldName newName course.fromTmp)
  ownLink : OntoOwnLink policy inodes oldDir oldName newDir newName → course.Unhindered →
    oldDir ≠ newDir ∧ checkComponent oldName = .ok () ∧ checkComponent newName = .ok () ∧
      ntfsVfsValidateUname policy newName = .ok ()

/-- A rename that fails leaves all entries and link counts, and one of a name onto another hard
link of its file succeeds and changes nothing. -/
structure FailsUnseen (policy : NamePolicy) (code : IndexCode policy.names.upcase) (inodes : Inodes)
    (oldDir : Nat) (oldName : CName) (newDir : Nat) (newName : CName) (course : VfsRenameCourse) : Prop where
  failed : Ends (ntfsRename policy code oldDir oldName newDir newName course) inodes (fun _ _ => True)
    fun _ after => SameVisible (listing inodes) (listing after)
  ownLink : OntoOwnLink policy inodes oldDir oldName newDir newName → course.Unhindered →
    Ends (ntfsRename policy code oldDir oldName newDir newName course) inodes
      (fun _ after => SameVisible (listing inodes) (listing after)) fun _ _ => False

section Calls

variable {policy : NamePolicy} {code : IndexCode policy.names.upcase} {inodes : Inodes}
  {ino oldDir newDir : Nat} {oldName newName : Uname} {course : VfsRenameCourse}

theorem unseen_of_same {after : Inodes} {reason : Prop} (same : inodes = after ∧ reason) :
    SameVisible (listing inodes) (listing after) := by
  rw [← same.1]
  exact SameVisible.refl _

theorem checking_ends {result : Except NameError Unit} :
    Ends (checking result) inodes (fun _ after => inodes = after ∧ result = .ok ())
      (fun error after => inodes = after ∧ result = .error error) := by
  rw [Ends]
  cases result with
  | ok done => exact ⟨rfl, rfl⟩
  | error error => exact ⟨rfl, rfl⟩

theorem tmpName_text (text : 0 ∉ oldName) : 0 ∉ tmpName oldName := by
  rw [tmpName, List.mem_append]
  rintro (old | suffix)
  · exact text (List.mem_of_mem_take old)
  · exact absurd suffix (by decide)

/-- The way over the temporary name. -/
theorem changeCase_ends {toTmp fromTmp : RenameCourse} (sound : Sound policy.names.upcase inodes)
    (oldText : 0 ∉ oldName) (newText : 0 ∉ newName) :
    Ends (do
      renameInner policy code oldDir ino oldName oldDir none (tmpName oldName) toTmp
      renameInner policy code oldDir ino (tmpName oldName) oldDir none newName fromTmp) inodes
      (fun _ after => Renames policy.names.upcase (listing inodes) (listing after) ino oldDir oldName oldDir
        newName ∧ IndexesInOrder policy.names.upcase after)
      (fun _ after => (AllOpen (listing inodes) ino oldDir oldDir →
          toTmp.Undoing policy.names.upcase inodes ino oldDir oldName oldDir (tmpName oldName) ∧
          (toTmp.Swaps policy.names.upcase inodes ino oldDir oldName oldDir (tmpName oldName) →
            ChangesCase policy.names.upcase (listing inodes) ino oldDir oldName newName fromTmp)) →
        SameVisible (listing inodes) (listing after)) := by
  have tmpText := tmpName_text oldText
  apply Ends.bind
  apply (renameInner_none_ends sound.inOrder sound.consistent (sound.bounded ino) oldText tmpText).imp
  · rintro _ mid ⟨⟨fn, gone, first⟩, midOrder, allOpen, swaps⟩
    have midBounded : (namesAt (listing mid) ino).length < 65536 := by
      obtain ⟨inode, found, _⟩ := first.file
      obtain ⟨place, removes⟩ := first.removes
      have length := removes.length
      have before := sound.bounded ino
      have some_gone : 0 < gone.length := List.length_pos_of_mem (List.mem_of_head? first.head)
      rw [namesAt_addName found, if_pos rfl, perm_putAt.length_eq, List.length_cons] at length
      omega
    apply (renameInner_none_ends midOrder first.consistent midBounded tmpText newText).imp
    · rintro _ after ⟨⟨other, alsoGone, second⟩, afterOrder, _⟩
      exact ⟨.changedCase first second, afterOrder⟩
    · rintro _ after ⟨_, stuck⟩ changing
      have changes := (changing allOpen).2 swaps
      exact absurd (changes.movable first sound.consistent (sound.bounded ino) tmpText newText) stuck
  · rintro _ after ⟨undone, _⟩ changing
    exact undone fun allOpen => (changing allOpen).1

theorem moving_ends {course : RenameCourse} (sound : Sound policy.names.upcase inodes) (oldText : 0 ∉ oldName)
    (newText : 0 ∉ newName) :
    Ends (renameInner policy code oldDir ino oldName newDir none newName course) inodes
      (fun _ after => Renames policy.names.upcase (listing inodes) (listing after) ino oldDir oldName newDir
        newName ∧ IndexesInOrder policy.names.upcase after)
      (fun _ after => (AllOpen (listing inodes) ino oldDir newDir →
          course.Undoing policy.names.upcase inodes ino oldDir oldName newDir newName) →
        SameVisible (listing inodes) (listing after)) := by
  apply (renameInner_none_ends sound.inOrder sound.consistent (sound.bounded ino) oldText newText).imp
  · rintro _ after ⟨⟨fn, gone, moves⟩, order, _⟩
    exact ⟨.moved moves, order⟩
  · exact fun _ _ failed => failed.1

/-- A destination that is one of the two directories is a directory, as what takes its place
is. -/
theorem replacing_guarded {target : Nat} {file other : Inode DirectoryIndex}
    (sound : Sound policy.names.upcase inodes)
    (oldKind : ∀ inode, inodes oldDir = some inode → inode.kind = .directory)
    (newKind : ∀ inode, inodes newDir = some inode → inode.kind = .directory)
    (otherFound : inodes target = some other)
    (kinds : file.kind = .directory ↔ other.kind = .directory) (same : target = oldDir ∨ target = newDir) :
    file.kind = .directory ∧ ∀ inode, listing inodes target = some inode → inode.dirRecord = true := by
  have directory : other.kind = .directory := by
    rcases same with rfl | rfl
    · exact oldKind other otherFound
    · exact newKind other otherFound
  refine ⟨kinds.mpr directory, ?_⟩
  intro inode found
  rw [listing_eq otherFound, Option.some.injEq] at found
  rw [← found]
  exact sound.directories target other otherFound directory

/-- `ntfs_vfs_rename` renames, or leaves everything to see as it was if no failure comes when
names are gone. -/
theorem ntfsVfsRename_ends (sound : Sound policy.names.upcase inodes) (oldText : 0 ∉ oldName)
    (newText : 0 ∉ newName) (oldKind : ∀ inode, inodes oldDir = some inode → inode.kind = .directory)
    (newKind : ∀ inode, inodes newDir = some inode → inode.kind = .directory)
    (arrives : ∀ ino, course.lookupOld = none → Resolves policy inodes oldDir oldName ino →
      ntfsVfsValidateUname policy newName = .ok () → course.prepare = none →
      AllOpen (listing inodes) ino oldDir newDir →
        Arrives policy inodes oldDir oldName newDir newName course ino) :
    Ends (ntfsVfsRename policy code oldDir oldName newDir newName course) inodes
      (fun _ after => (∃ ino, Resolves policy inodes oldDir oldName ino ∧ (∃ inode, inodes ino = some inode) ∧
          Renames policy.names.upcase (listing inodes) (listing after) ino oldDir oldName newDir newName) ∧
        ntfsVfsValidateUname policy newName = .ok () ∧ IndexesInOrder policy.names.upcase after)
      (fun _ after => Harmless policy inodes oldDir oldName newDir newName course →
        SameVisible (listing inodes) (listing after)) := by
  apply Ends.bind
  apply ntfsVfsLookup_ends.imp _ fun _ _ same _ => unseen_of_same same
  rintro ino _ ⟨rfl, lookupOld, resolves, inode, found⟩
  apply Ends.bind
  apply lookupOptional_ends.imp _ fun _ _ same _ => unseen_of_same same
  rintro target _ ⟨rfl, present, missing⟩
  apply Ends.bind
  apply checking_ends.imp _ fun _ _ same _ => unseen_of_same same
  rintro _ _ ⟨rfl, valid⟩
  apply Ends.bind
  apply failing_ends.imp _ fun _ _ same _ => unseen_of_same same
  rintro _ _ ⟨rfl, prepared⟩
  have arrived := arrives ino lookupOld resolves valid prepared
  by_cases own : target = some ino
  · rw [if_pos own]
    obtain ⟨lookupNew, newResolves, _⟩ := present ino own
    by_cases stays : oldDir ≠ newDir ∨
        ntfsAreNamesEqual oldName newName .caseSensitive policy.names.upcase = true
    · rw [if_pos stays]
      exact ⟨⟨ino, resolves, ⟨inode, found⟩, .unchanged rfl⟩, valid, sound.inOrder⟩
    · rw [if_neg stays]
      obtain ⟨sameDir, unequal⟩ := not_or.mp stays
      have here := not_not.mp sameDir
      have apart : oldName ≠ newName := by
        rwa [ntfsAreNamesEqual_exact newText] at unequal
      subst here
      by_cases sensitive : policy.names.caseSensitive = false
      · rw [if_pos sensitive]
        apply (changeCase_ends sound oldText newText).imp
        · rintro _ after ⟨renames, order⟩
          exact ⟨⟨ino, resolves, ⟨inode, found⟩, renames⟩, valid, order⟩
        · rintro _ after unseen harmless
          exact unseen fun allOpen =>
            harmless.changingCase ino (arrived allOpen) lookupNew newResolves rfl apart sensitive
      · rw [if_neg sensitive]
        apply (moving_ends sound oldText newText).imp
        · rintro _ after ⟨renames, order⟩
          exact ⟨⟨ino, resolves, ⟨inode, found⟩, renames⟩, valid, order⟩
        · rintro _ after unseen harmless
          exact unseen fun allOpen => harmless.movingCase ino (arrived allOpen) lookupNew newResolves rfl
            apart (by simpa using sensitive)
  · rw [if_neg own]
    cases target with
    | none =>
      apply (moving_ends sound oldText newText).imp
      · rintro _ after ⟨renames, order⟩
        exact ⟨⟨ino, resolves, ⟨inode, found⟩, renames⟩, valid, order⟩
      · rintro _ after unseen harmless
        exact unseen fun allOpen => harmless.moving ino (arrived allOpen) (missing rfl)
    | some target =>
      obtain ⟨lookupNew, newResolves, _⟩ := present target rfl
      have notFile : target ≠ ino := fun same => own (by rw [same])
      have apart : newDir ≠ oldDir ∨ newName ≠ oldName := by
        by_contra same
        obtain ⟨sameDir, sameName⟩ := not_or.mp same
        rw [not_not.mp sameDir, not_not.mp sameName] at newResolves
        exact notFile (newResolves.unique resolves)
      apply Ends.bind
      apply getInode_ends.imp _ fun _ _ same _ => unseen_of_same same
      rintro file _ ⟨rfl, fileFound⟩
      apply Ends.bind
      apply getInode_ends.imp _ fun _ _ same _ => unseen_of_same same
      rintro other _ ⟨rfl, otherFound⟩
      by_cases notDirectory : file.kind = .directory ∧ other.kind ≠ .directory
      · rw [if_pos notDirectory]
        exact fun _ => SameVisible.refl _
      rw [if_neg notDirectory]
      by_cases isDirectory : file.kind ≠ .directory ∧ other.kind = .directory
      · rw [if_pos isDirectory]
        exact fun _ => SameVisible.refl _
      rw [if_neg isDirectory]
      have kinds : file.kind = .directory ↔ other.kind = .directory := by tauto
      have guarded := replacing_guarded sound oldKind newKind otherFound kinds
      apply (renameInner_some_ends sound.inOrder sound.consistent sound.bounded oldText newText notFile
        apart fileFound guarded).imp
      · rintro _ after ⟨mid, deletes, ⟨fn, gone, moves⟩, order⟩
        refine ⟨⟨ino, resolves, ⟨inode, found⟩, .replaced notFile ?_ deletes moves⟩, valid, order⟩
        intro left right leftFound rightFound
        rw [listing_eq fileFound, Option.some.injEq] at leftFound
        rw [listing_eq otherFound, Option.some.injEq] at rightFound
        rw [← leftFound, ← rightFound]
        exact kinds
      · rintro _ after unseen harmless
        exact unseen fun allOpen => harmless.replacing ino target file other (arrived allOpen) lookupNew
          newResolves notFile fileFound otherFound kinds

theorem requireDirectory_ends {dir : Nat} :
    Ends (requireDirectory dir) inodes
      (fun _ after => inodes = after ∧ ∃ inode, inodes dir = some inode ∧ inode.kind = .directory)
      (fun _ after => inodes = after ∧ ∀ inode, inodes dir = some inode → inode.kind ≠ .directory) := by
  apply Ends.bind
  apply getInode_ends.imp
  · rintro inode _ ⟨rfl, found⟩
    by_cases other : inode.kind ≠ .directory
    · rw [if_pos other]
      refine ⟨rfl, fun another there => ?_⟩
      cases found.symm.trans there
      exact other
    · rw [if_neg other]
      exact ⟨rfl, inode, found, not_not.mp other⟩
  · rintro _ _ ⟨rfl, missing⟩
    refine ⟨rfl, fun inode found => ?_⟩
    rw [missing] at found
    cases found

/-- Only a directory can fail the check of its new place. -/
theorem checkSubtree_ends {fault : Option NameError} :
    Ends (checkSubtree policy oldDir oldName newDir fault) inodes
      (fun _ after => inodes = after ∧ ∀ ino inode, Resolves policy inodes oldDir oldName ino →
        inodes ino = some inode → inode.kind = .directory → isSubdir inodes newDir ino = .ok false)
      (fun _ after => inodes = after ∧ (fault = none → ∀ ino inode,
        Resolves policy inodes oldDir oldName ino → inodes ino = some inode → inode.kind = .directory)) := by
  apply Ends.bind
  apply ntfsVfsLookup_ends.imp
  · rintro ino _ ⟨rfl, _, resolves, _⟩
    apply Ends.bind
    apply getInode_ends.imp
    · rintro inode _ ⟨rfl, found⟩
      have isThis (other : Nat) (file : Inode DirectoryIndex)
          (also_ : Resolves policy inodes oldDir oldName other) (there : inodes other = some file) :
          other = ino ∧ file = inode := by
        obtain rfl := resolves.unique also_
        exact ⟨rfl, Option.some.inj (there.symm.trans found)⟩
      by_cases directory : inode.kind = .directory
      · have isDirectory (other : Nat) (file : Inode DirectoryIndex)
            (also_ : Resolves policy inodes oldDir oldName other) (there : inodes other = some file) :
            file.kind = .directory := by
          rw [(isThis other file also_ there).2]
          exact directory
        rw [if_pos directory, Ends, get_bind]
        cases result : isSubdir inodes newDir ino with
        | error error => exact ⟨rfl, fun _ => isDirectory⟩
        | ok inside =>
          cases inside with
          | true => exact ⟨rfl, fun _ => isDirectory⟩
          | false =>
            refine ⟨rfl, fun other file also_ there _ => ?_⟩
            rw [(isThis other file also_ there).1]
            exact result
      · rw [if_neg directory]
        refine ⟨rfl, fun other file also_ there isOne => ?_⟩
        rw [(isThis other file also_ there).2] at isOne
        exact absurd isOne directory
    · rintro _ _ ⟨rfl, missing⟩
      refine ⟨rfl, fun _ other inode also_ found => ?_⟩
      rw [← resolves.unique also_, missing] at found
      cases found
  · rintro _ _ ⟨rfl, reason⟩
    refine ⟨rfl, fun smooth ino inode resolves found => ?_⟩
    rcases reason with broken | ⟨_, nowhere, _⟩
    · rw [smooth] at broken
      cases broken
    · rw [(nowhere ino resolves).1] at found
      cases found

/-- `ntfs_rename` does what `ntfs_vfs_rename` does, after checks that change nothing. -/
theorem ntfsRename_ends {oldName newName : CName} (sound : Sound policy.names.upcase inodes) :
    Ends (ntfsRename policy code oldDir oldName newDir newName course) inodes
      (fun _ after => (∃ ino, Resolves policy inodes oldDir oldName ino ∧ (∃ inode, inodes ino = some inode) ∧
          Renames policy.names.upcase (listing inodes) (listing after) ino oldDir oldName newDir newName ∧
          (oldDir ≠ newDir → ∀ inode, inodes ino = some inode → inode.kind = .directory →
            isSubdir inodes newDir ino = .ok false)) ∧
        ((∀ parent, inodes oldDir = some parent → parent.kind = .directory) ∧
          ∀ parent, inodes newDir = some parent → parent.kind = .directory) ∧
        (checkComponent newName = .ok () ∧ ntfsVfsValidateUname policy newName = .ok ()) ∧
        IndexesInOrder policy.names.upcase after)
      (fun _ after => Harmless policy inodes oldDir oldName newDir newName course →
        SameVisible (listing inodes) (listing after)) := by
  apply Ends.bind
  apply checking_ends.imp _ fun _ _ same _ => unseen_of_same same
  rintro _ _ ⟨rfl, oldComponent⟩
  apply Ends.bind
  apply checking_ends.imp _ fun _ _ same _ => unseen_of_same same
  rintro _ _ ⟨rfl, component⟩
  apply Ends.bind
  apply requireDirectory_ends.imp _ fun _ _ same _ => unseen_of_same same
  rintro _ _ ⟨rfl, oldParent, oldFound, oldKind⟩
  apply Ends.bind
  apply requireDirectory_ends.imp _ fun _ _ same _ => unseen_of_same same
  rintro _ _ ⟨rfl, newParent, newFound, newKind⟩
  apply Ends.bind
  apply failing_ends.imp _ fun _ _ same _ => unseen_of_same same
  rintro _ _ ⟨rfl, unrefused⟩
  have oldIsDirectory (inode : Inode DirectoryIndex) (found : inodes oldDir = some inode) :
      inode.kind = .directory := by
    rwa [Option.some.inj (found.symm.trans oldFound)]
  have newIsDirectory (inode : Inode DirectoryIndex) (found : inodes newDir = some inode) :
      inode.kind = .directory := by
    rwa [Option.some.inj (found.symm.trans newFound)]
  have renames (outside : oldDir ≠ newDir → ∀ ino inode, Resolves policy inodes oldDir oldName ino →
      inodes ino = some inode → inode.kind = .directory → isSubdir inodes newDir ino = .ok false) :=
    @ntfsVfsRename_ends policy code inodes oldDir newDir oldName newName course sound oldName.2 newName.2
      oldIsDirectory newIsDirectory fun ino lookupOld resolves valid prepared allOpen =>
        ⟨oldComponent, component, ⟨oldParent, oldFound, oldKind⟩, ⟨newParent, newFound, newKind⟩, unrefused,
          lookupOld, resolves, fun apart inode => outside apart ino inode resolves, valid, prepared, allOpen⟩
  by_cases apart : oldDir ≠ newDir
  · rw [if_pos apart]
    apply Ends.bind
    apply checkSubtree_ends.imp _ fun _ _ same _ => unseen_of_same same
    rintro _ _ ⟨rfl, outside⟩
    apply (renames fun _ => outside).imp
    · rintro _ after ⟨⟨ino, resolves, there, renames⟩, valid, order⟩
      exact ⟨⟨ino, resolves, there, renames, fun _ inode => outside ino inode resolves⟩,
        ⟨oldIsDirectory, newIsDirectory⟩, ⟨component, valid⟩, order⟩
    · exact fun _ _ unseen => unseen
  · rw [if_neg apart]
    apply (renames fun impossible => absurd impossible apart).imp
    · rintro _ after ⟨⟨ino, resolves, there, renames⟩, valid, order⟩
      exact ⟨⟨ino, resolves, there, renames, fun impossible => absurd impossible apart⟩,
        ⟨oldIsDirectory, newIsDirectory⟩, ⟨component, valid⟩, order⟩
    · exact fun _ _ unseen => unseen

/-- A name is left as it is when it is renamed onto another hard link in another directory. -/
theorem ntfsRename_ownLink {oldName newName : CName} (unhindered : course.Unhindered)
    (own : OntoOwnLink policy inodes oldDir oldName newDir newName) (apart : oldDir ≠ newDir)
    (oldComponent : checkComponent oldName = .ok ()) (newComponent : checkComponent newName = .ok ())
    (valid : ntfsVfsValidateUname policy newName = .ok ()) :
    Ends (ntfsRename policy code oldDir oldName newDir newName course) inodes
      (fun _ after => SameVisible (listing inodes) (listing after)) fun _ _ => False := by
  obtain ⟨ino, inode, found, plain, oldResolves, newResolves, ⟨oldParent, _⟩, ⟨newParent, _⟩, _⟩ := own
  have directory {dir : Nat}
      (there : ∃ parent, listing inodes dir = some parent ∧ parent.kind = .directory) :
      ¬ ∀ inode, inodes dir = some inode → inode.kind ≠ .directory := by
    obtain ⟨parent, listed, kind⟩ := there
    obtain ⟨original, original_found, rfl⟩ := Option.map_eq_some_iff.mp listed
    exact fun none_there => none_there original original_found kind
  apply Ends.bind
  rw [oldComponent]
  apply Ends.bind
  rw [newComponent]
  apply Ends.bind
  apply requireDirectory_ends.imp _ fun _ _ other => directory oldParent other.2
  rintro _ _ ⟨rfl, _⟩
  apply Ends.bind
  apply requireDirectory_ends.imp _ fun _ _ other => directory newParent other.2
  rintro _ _ ⟨rfl, _⟩
  apply Ends.bind
  apply failing_ends.imp _ fun _ _ broken => broken.2 unhindered.refused
  rintro _ _ ⟨rfl, _⟩
  rw [if_pos apart]
  apply Ends.bind
  apply checkSubtree_ends.imp
  · rintro _ _ ⟨rfl, _⟩
    apply Ends.bind
    apply ntfsVfsLookup_ends.imp
    · rintro other _ ⟨rfl, _, resolves, _⟩
      obtain rfl := resolves.unique oldResolves
      apply Ends.bind
      apply lookupOptional_ends.imp
      · rintro target _ ⟨rfl, present, missing⟩
        have reached : target = some other := by
          cases target with
          | none =>
            rcases missing rfl with broken | ⟨_, absent⟩
            · rw [unhindered.lookupNew] at broken
              cases broken
            · exact absurd newResolves absent.not_resolves
          | some target =>
            obtain ⟨_, resolved, _⟩ := present target rfl
            rw [resolved.unique newResolves]
        apply Ends.bind
        rw [valid]
        apply Ends.bind
        apply failing_ends.imp _ fun _ _ broken => broken.2 unhindered.prepare
        rintro _ _ ⟨rfl, _⟩
        rw [if_pos reached, if_pos (.inl apart)]
        exact SameVisible.refl _
      · rintro _ _ ⟨rfl, lost⟩
        rw [lost unhindered.lookupNew _ newResolves] at found
        cases found
    · rintro _ _ ⟨rfl, reason⟩
      rcases reason with broken | ⟨_, nowhere, _⟩
      · rw [unhindered.lookupOld] at broken
        cases broken
      · rw [(nowhere ino oldResolves).1] at found
        cases found
  · rintro _ _ ⟨rfl, onlyDirectory⟩
    exact plain (onlyDirectory unhindered.lookupOld ino inode oldResolves found)

/-- A rename that fails changes nothing that is seen, if no failure comes when names are
gone that are not put back; and a rename onto another link in another directory changes
nothing. -/
theorem rename_failure_unseen {oldName newName : CName} (sound : Sound policy.names.upcase inodes)
    (harmless : Harmless policy inodes oldDir oldName newDir newName course) :
    FailsUnseen policy code inodes oldDir oldName newDir newName course where
  failed := (ntfsRename_ends sound).imp (fun _ _ _ => trivial) fun _ _ unseen => unseen harmless
  ownLink own unhindered := by
    obtain ⟨apart, oldComponent, newComponent, valid⟩ := harmless.ownLink own unhindered
    exact ntfsRename_ownLink unhindered own apart oldComponent newComponent valid

end Calls

/-- A root directory with the two hard links `a` and `b` of one file. -/
def linkedFiles : List (Nat × Inode (List IndexKey)) :=
  [(5, ⟨.directory, true, 1, 1, [⟨5, [46], .win32AndDos⟩],
      [⟨[46], .win32AndDos, 5⟩, ⟨[97], .posix, 64⟩, ⟨[98], .posix, 64⟩], false⟩),
    (64, ⟨.regular, false, 2, 2, [⟨5, [97], .posix⟩, ⟨5, [98], .posix⟩], [], false⟩)]

theorem linkedFiles_sound : Sound asciiUpcase (volumeOf linkedFiles) := sound_volumeOf (by decide)

/-- A rename in which the new `$FILE_NAME` cannot be stored. -/
def unstored : VfsRenameCourse :=
  { smoothVfsRename with plain := { smoothRename with link := { smoothLink with attrAdd := some ⟨.enospc, none⟩ } } }

/-- The link `a` is renamed to `c`, and the new `$FILE_NAME` cannot be stored. -/
theorem rename_failure_unseen_unstored :
    FailsUnseen ignoringCase (rootCode asciiUpcase) (volumeOf linkedFiles) 5 ⟨[97], by decide⟩ 5 ⟨[99], by decide⟩
      unstored := by
  have nowhere (target : Nat) : ¬ Resolves ignoringCase (volumeOf linkedFiles) 5 [99] target := by
    rw [resolves_iff, show resolve ignoringCase (volumeOf linkedFiles) 5 [99] = none by decide]
    simp
  have unadded (ino : Nat) : ¬ unstored.plain.link.Adds asciiUpcase (volumeOf linkedFiles) ino 5 [99] := by
    rintro ⟨_, stored⟩
    cases stored
  apply rename_failure_unseen linkedFiles_sound
  refine ⟨fun ino _ _ => ?_, fun ino _ _ resolves => ?_, fun _ target _ _ _ _ resolves => ?_,
    fun ino _ _ resolves => ?_, ?_⟩
  · refine ⟨⟨fun _ => ?_, fun _ _ => ?_⟩, fun adds => absurd adds (unadded ino),
      fun adds => absurd adds (unadded ino)⟩
    · rintro broken tree impossible _
      cases impossible
    · change LegalName asciiUpcase [99]
      decide
  · exact absurd resolves (nowhere ino)
  · exact absurd resolves (nowhere target)
  · exact absurd resolves (nowhere ino)
  · rintro ⟨ino, _, _, _, _, resolves, _⟩
    exact absurd resolves (nowhere ino)

/-- The link `a` is renamed onto `b` without a failing step: the call fails, and leaves the
temporary name in place of `a`. -/
theorem rename_onto_own_link_seen :
    Sound asciiUpcase (volumeOf linkedFiles) ∧
      OntoOwnLink ignoringCase (volumeOf linkedFiles) 5 [97] 5 [98] ∧ smoothVfsRename.Unhindered ∧
      ¬ FailsUnseen ignoringCase (rootCode asciiUpcase) (volumeOf linkedFiles) 5 ⟨[97], by decide⟩ 5
        ⟨[98], by decide⟩ smoothVfsRename := by
  have smooth : smoothRename.Smooth := ⟨⟨rfl, rfl, rfl⟩, ⟨rfl, rfl, rfl, rfl⟩, ⟨rfl, rfl, rfl, rfl⟩⟩
  have isLink (name : Uname) (listed : (⟨name, .posix, 64⟩ : IndexKey) ∈
      keysAt (listing (volumeOf linkedFiles)) 5) : IsLink (listing (volumeOf linkedFiles)) 5 name 64 :=
    ⟨⟨_, listing_of_mem (by decide) (List.mem_cons_self ..), rfl⟩, .posix, by simp, listed⟩
  refine ⟨linkedFiles_sound, ?_, ⟨rfl, rfl, rfl, rfl, smooth, smooth, smooth⟩, ?_⟩
  · refine ⟨64, _, rfl, by decide, resolves_iff.mpr (by decide), resolves_iff.mpr (by decide),
      isLink [97] (by decide), isLink [98] (by decide), by decide⟩
  intro unseen
  have failed := unseen.failed
  have result : (match ntfsRename ignoringCase (rootCode asciiUpcase) 5 ⟨[97], by decide⟩ 5 ⟨[98], by decide⟩
      smoothVfsRename (volumeOf linkedFiles) with
    | .ok _ _ => none
    | .error _ after => some ((listing after 5).map Inode.index)) =
      some (some [⟨[46], .win32AndDos, 5⟩, ⟨[97, 46, 110, 116, 102, 115, 116, 109, 112], .posix, 64⟩,
        ⟨[98], .posix, 64⟩]) := by
    decide
  rw [Ends] at failed
  split at failed
  · rename_i run
    rw [run] at result
    cases result
  · rename_i after run
    rw [run, Option.some.injEq, Option.map_eq_some_iff] at result
    obtain ⟨root, found, keys⟩ := result
    have before : (visible (listing (volumeOf linkedFiles)) 5).map Prod.fst =
        some [⟨[46], .win32AndDos, 5⟩, ⟨[97], .posix, 64⟩, ⟨[98], .posix, 64⟩] := by decide
    rw [← failed 5, visible, found] at before
    simp [keys] at before

end Ttntfs.Vfs
