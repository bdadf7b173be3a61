import Ttntfs.Vfs.DirectoryTree

/-!
# New files and new links

`__ntfs_create` takes a free mft record, writes a first name into it and adds the entry;
what it leaves is what adding a name to a record without names leaves. `ntfs_link` adds a
name to a file that is not a directory. Both keep the tree of directories.
-/

namespace Ttntfs.Vfs

open Ttntfs.Ntfs Ttntfs.Library.StatefulSteps

/-- A new mft record before it has a name. -/
def bornInode (kind : FileKind) (dirLink : Bool) : Inode (List IndexKey) where
  kind := kind
  dirRecord := kind = .directory || dirLink
  linkCount := 0
  nlink := if kind = .directory then 1 else 0
  fileNames := []
  index := []
  beingDeleted := false

/-- A listing with a new mft record. -/
def born (files : Listing) (ino : Nat) (kind : FileKind) (dirLink : Bool) : Listing :=
  fun other => if other = ino then some (bornInode kind dirLink) else files other

section Born

variable {upcase : Upcase} {files : Listing} {ino other : Nat} {kind : FileKind} {dirLink : Bool}

theorem born_same : born files ino kind dirLink ino = some (bornInode kind dirLink) := if_pos rfl

theorem born_other (apart : other ≠ ino) : born files ino kind dirLink other = files other := if_neg apart

/-- What is read of the inodes is the same with a new record, if an absent inode reads like
one. -/
theorem read_born {α : Type} (read : Inode (List IndexKey) → α) (otherwise : α) (absent : files ino = none)
    (same : read (bornInode kind dirLink) = otherwise) :
    ((born files ino kind dirLink other).map read).getD otherwise = ((files other).map read).getD otherwise := by
  by_cases atFile : other = ino
  · rw [atFile, born_same, absent, Option.map_some, Option.getD_some, same, Option.map_none, Option.getD_none]
  · rw [born_other atFile]

theorem keysAt_born (absent : files ino = none) :
    keysAt (born files ino kind dirLink) other = keysAt files other := read_born Inode.index [] absent rfl

theorem namesAt_born (absent : files ino = none) :
    namesAt (born files ino kind dirLink) other = namesAt files other := read_born Inode.fileNames [] absent rfl

theorem countAt_born (absent : files ino = none) :
    countAt (born files ino kind dirLink) other = countAt files other := read_born Inode.linkCount 0 absent rfl

theorem Agreeing.born (agreeing : Agreeing upcase files) (absent : files ino = none) :
    Agreeing upcase (born files ino kind dirLink) where
  sorted dir := by
    rw [keysAt_born absent]
    exact agreeing.sorted dir
  agree dir name type target := by
    rw [keysAt_born absent, namesAt_born absent]
    exact agreeing.agree dir name type target
  nodup target := by
    rw [namesAt_born absent]
    exact agreeing.nodup target
  count target := by
    rw [namesAt_born absent, countAt_born absent]
    exact agreeing.count target
  legal target fn listed := by
    rw [namesAt_born absent] at listed
    exact agreeing.legal target fn listed

end Born

section Creating

variable {policy : NamePolicy} {code : IndexCode policy.names.upcase} {inodes : Inodes} {dir : Nat}
  {name : Uname} {kind : FileKind} {dirLink : Bool} {course : CreateCourse}

theorem newInode_listed : (newInode kind dirLink dir name).listed =
    addLink ((bornInode kind dirLink).withFileNames (putAt 0 ⟨dir, name, .posix⟩ (bornInode kind dirLink).fileNames)) := by
  have bare : keysOf (rootIndex []) = [] := by rw [keysOf, listEntries_root, Option.getD_some]
  cases kind with
  | directory | regular | symlink =>
    simp [newInode, Inode.listed, bornInode, addLink, Inode.withFileNames, putAt, bare]

/-- `__ntfs_create` adds a name to a new record. -/
theorem ntfsCreateInner_ends (inOrder : IndexesInOrder policy.names.upcase inodes) (text : 0 ∉ name) :
    Ends (ntfsCreateInner policy code dir name kind dirLink course) inodes
      (fun _ after => listing inodes course.ino = none ∧
        (∃ parent, listing inodes dir = some parent ∧ parent.beingDeleted = false) ∧
        (∀ key ∈ keysAt (listing inodes) dir, key.name ≠ name) ∧
        listing after = addName policy.names.upcase (born (listing inodes) course.ino kind dirLink) course.ino dir 0
          name ∧
        IndexesInOrder policy.names.upcase after) fun _ _ => True := by
  rw [Ends, ntfsCreateInner, get_bind]
  change Ends _ inodes _ _
  cases taken : inodes course.ino with
  | some inode => exact trivial
  | none =>
    have absent := listing_none taken
    apply Ends.bind
    apply getInode_ends.imp _ fun _ _ _ => trivial
    rintro parent _ ⟨rfl, found⟩
    by_cases closed : parent.beingDeleted = true
    · rw [if_pos closed]
      exact trivial
    rw [if_neg closed]
    apply Ends.bind
    apply failing_ends.imp _ fun _ _ _ => trivial
    rintro _ _ ⟨rfl, _⟩
    have apart : dir ≠ course.ino := by
      rintro rfl
      rw [taken] at found
      cases found
    have midFiles (other : Nat) : listing (setInode course.ino (some (newInode kind dirLink dir name)) inodes) other =
        if other = course.ino then some (newInode kind dirLink dir name).listed else listing inodes other := by
      rw [listing, setInode]
      split
      · rfl
      · rfl
    have midOrder : IndexesInOrder policy.names.upcase
        (setInode course.ino (some (newInode kind dirLink dir name)) inodes) := by
      intro number inode there
      rw [setInode] at there
      split at there
      · cases there
        have bare : InOrder policy.names.upcase (rootIndex []) [] := rootIndex_inOrder ⟨.nil, by simp⟩
        rw [newInode]
        rwa [bare.keysOf_eq]
      · exact inOrder number inode there
    have sameKeys : keysAt (listing (setInode course.ino (some (newInode kind dirLink dir name)) inodes)) dir =
        keysAt (listing inodes) dir := by
      rw [keysAt, midFiles, if_neg apart, keysAt]
    apply Ends.bind
    change Ends _ (setInode course.ino (some (newInode kind dirLink dir name)) inodes) _ _
    apply Ends.tryCatch
    apply (ntfsIndexAddFilename_ends midOrder text).imp
    · rintro _ after ⟨fresh, afterFiles, afterOrder, _⟩
      rw [sameKeys] at fresh
      refine ⟨absent, ⟨parent.listed, listing_eq found, by simpa [Inode.listed] using closed⟩, fresh, ?_,
        afterOrder⟩
      rw [afterFiles]
      funext other
      by_cases atFile : other = course.ino
      · rw [atFile, modifyAt_other apart.symm, midFiles, if_pos rfl, newInode_listed, addName,
          modifyAt_same ((modifyAt_other apart.symm).trans born_same)]
      · rw [addName, modifyAt_other atFile]
        by_cases atDir : other = dir
        · subst atDir
          rw [modifyAt_same ((midFiles other).trans ((if_neg atFile).trans (listing_eq found))),
            modifyAt_same ((born_other atFile).trans (listing_eq found))]
        · rw [modifyAt_other atDir, modifyAt_other atDir, midFiles, if_neg atFile, born_other atFile]
    · intro _ _ _
      apply Ends.bind
      exact trivial

/-- `do_create` adds a name that passes the checks to a new record, in a directory. -/
theorem doCreate_ends {name : CName} (inOrder : IndexesInOrder policy.names.upcase inodes) :
    Ends (doCreate policy code dir name kind dirLink course) inodes
      (fun _ after => listing inodes course.ino = none ∧
        (∃ parent, listing inodes dir = some parent ∧ parent.beingDeleted = false ∧ parent.kind = .directory) ∧
        (∀ key ∈ keysAt (listing inodes) dir, key.name ≠ name) ∧
        listing after = addName policy.names.upcase (born (listing inodes) course.ino kind dirLink) course.ino dir 0
          name ∧
        IndexesInOrder policy.names.upcase after ∧ ntfsVfsValidateUname policy name = .ok ()) fun _ _ => True := by
  apply Ends.bind
  apply checking_ends.imp _ fun _ _ _ => trivial
  rintro _ _ ⟨rfl, _⟩
  apply Ends.bind
  apply requireDirectory_ends.imp _ fun _ _ _ => trivial
  rintro _ _ ⟨rfl, directory, found, directoryKind⟩
  apply Ends.bind
  apply failing_ends.imp _ fun _ _ _ => trivial
  rintro _ _ ⟨rfl, _⟩
  apply Ends.bind
  apply lookupOptional_ends.imp _ fun _ _ _ => trivial
  rintro present _ ⟨rfl, _⟩
  cases present with
  | some ino => exact trivial
  | none =>
    rw [Option.isSome_none, if_neg (by simp)]
    apply Ends.bind
    apply checking_ends.imp _ fun _ _ _ => trivial
    rintro _ _ ⟨rfl, valid⟩
    apply (ntfsCreateInner_ends inOrder name.2).imp _ fun _ _ _ => trivial
    rintro _ after ⟨absent, ⟨parent, parentFound, alive⟩, fresh, files, order⟩
    rw [listing_eq found, Option.some.injEq] at parentFound
    exact ⟨absent, ⟨directory.listed, listing_eq found, by rwa [parentFound], directoryKind⟩, fresh, files, order,
      valid⟩

/-- `ntfs_link` adds a name that passes the checks to a file, in a directory. -/
theorem ntfsLink_ends {ino : Nat} {name : CName} {course : VfsLinkCourse}
    (inOrder : IndexesInOrder policy.names.upcase inodes) :
    Ends (ntfsLink policy code ino dir name course) inodes
      (fun _ after => (∃ inode, listing inodes ino = some inode ∧ inode.beingDeleted = false ∧
          inode.kind ≠ .directory ∧ inode.dirRecord = false ∧ inode.nlink < ntfsLinkMax) ∧
        (∃ parent, listing inodes dir = some parent ∧ parent.beingDeleted = false ∧ parent.kind = .directory) ∧
        (∀ key ∈ keysAt (listing inodes) dir, key.name ≠ name) ∧
        listing after = addName policy.names.upcase (listing inodes) ino dir course.link.place name ∧
        IndexesInOrder policy.names.upcase after ∧ ntfsVfsValidateUname policy name = .ok ()) fun _ _ => True := by
  apply Ends.bind
  apply checking_ends.imp _ fun _ _ _ => trivial
  rintro _ _ ⟨rfl, _⟩
  apply Ends.bind
  apply requireDirectory_ends.imp _ fun _ _ _ => trivial
  rintro _ _ ⟨rfl, directory, directoryFound, directoryKind⟩
  apply Ends.bind
  apply getInode_ends.imp _ fun _ _ _ => trivial
  rintro inode _ ⟨rfl, found⟩
  by_cases isDirectory : inode.kind = .directory
  · rw [if_pos isDirectory]
    exact trivial
  rw [if_neg isDirectory]
  apply Ends.bind
  apply failing_ends.imp _ fun _ _ _ => trivial
  rintro _ _ ⟨rfl, _⟩
  by_cases full : ntfsLinkMax ≤ inode.nlink
  · rw [if_pos full]
    exact trivial
  rw [if_neg full]
  apply Ends.bind
  apply lookupOptional_ends.imp _ fun _ _ _ => trivial
  rintro present _ ⟨rfl, _⟩
  cases present with
  | some other => exact trivial
  | none =>
    rw [Option.isSome_none, if_neg (by simp)]
    apply Ends.bind
    apply getInode_ends.imp _ fun _ _ _ => trivial
    rintro same _ ⟨rfl, foundAgain⟩
    cases found.symm.trans foundAgain
    by_cases refused : inode.kind = .directory ∨ inode.dirRecord = true
    · rw [if_pos refused]
      exact trivial
    rw [if_neg refused]
    obtain ⟨_, plain⟩ := not_or.mp refused
    apply Ends.bind
    apply checking_ends.imp _ fun _ _ _ => trivial
    rintro _ _ ⟨rfl, valid⟩
    apply (ntfsLinkInner_ends inOrder name.2).imp _ fun _ _ _ => trivial
    rintro _ after ⟨adds, fresh, files, order⟩
    obtain ⟨file, fileFound, alive, _⟩ := adds.1.file
    obtain ⟨parent, parentFound, open_⟩ := adds.1.parent
    cases found.symm.trans fileFound
    cases directoryFound.symm.trans parentFound
    exact ⟨⟨inode.listed, listing_eq found, alive, isDirectory, by simpa [Inode.listed] using plain,
      Nat.lt_of_not_le full⟩, ⟨directory.listed, listing_eq directoryFound, open_, directoryKind⟩, fresh,
      files, order, valid⟩

end Creating

end Ttntfs.Vfs
