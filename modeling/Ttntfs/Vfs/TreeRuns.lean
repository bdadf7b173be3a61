import Ttntfs.Vfs.NewNames

/-!
# Runs of the calls that change names

From a tree every sequence of calls that succeed leads to a tree: each call adds a name,
deletes one or moves one, or frees the record of a file without names.
-/

namespace Ttntfs.Vfs

open Ttntfs.Ntfs Ttntfs.Library.StatefulSteps

section Growing

variable {upcase : Upcase} {files : Listing} {ino dir place : Nat} {name : Uname}
  {inode parent : Inode (List IndexKey)}

/-- A name is added to a listing that reads like a tree: to a file that is not a directory, or
to a new record. -/
theorem Tree.grow {base : Listing} (tree : Tree upcase files)
    (consistent : Consistent upcase (addName upcase base ino dir place name))
    (sameNames : ∀ number, namesAt base number = namesAt files number)
    (same : ∀ number, number ≠ ino ∨ files number ≠ none → base number = files number)
    (found : base ino = some inode) (records : inode.kind = .directory → inode.dirRecord = true)
    (first : inode.dirRecord = true → namesAt files ino = [])
    (short : (namesAt files ino).length + 1 < 65536) (parentFound : files dir = some parent)
    (parentAlive : parent.beingDeleted = false) (parentKind : parent.kind = .directory) :
    Tree upcase (addName upcase base ino dir place name) := by
  have names (number : Nat) : namesAt (addName upcase base ino dir place name) number =
      if number = ino then putAt place ⟨dir, name, .posix⟩ (namesAt files ino) else namesAt files number := by
    rw [namesAt_addName found, sameNames, sameNames]
  have more {number : Nat} {fn : FileName} (listed : fn ∈ namesAt files number) :
      fn ∈ namesAt (addName upcase base ino dir place name) number := by
    rw [names]
    split
    · rename_i atFile
      exact mem_putAt.mpr (.inr (atFile ▸ listed))
    · exact listed
  have notDir (directory : inode.dirRecord = true) : ino ≠ fileRoot := by
    rintro rfl
    exact tree.root.1 (first directory)
  have frames {number : Nat} {left : Inode (List IndexKey)}
      (leftFound : addName upcase base ino dir place name number = some left) :
      ∃ before, base number = some before ∧ before.kind = left.kind ∧ before.dirRecord = left.dirRecord := by
    have frame := @frame_addName upcase base ino dir place name number
    rw [leftFound, Option.map_some, eq_comm, Option.map_eq_some_iff] at frame
    obtain ⟨before, there, equal⟩ := frame
    obtain ⟨kind, record⟩ := Prod.mk.inj equal
    exact ⟨before, there, kind, record⟩
  have dirClimbs := tree.climbs_of_directory parentFound parentKind parentAlive
  refine { consistent with bounded := ?_, directories := ?_, entries := ?_, single := ?_, root := ?_, reaches := ?_ }
  · intro number
    rw [names]
    split
    · rw [perm_putAt.length_eq, List.length_cons]
      exact short
    · exact tree.bounded number
  · intro number left leftFound kind
    obtain ⟨before, there, sameKind, sameRecord⟩ := frames leftFound
    rw [← sameRecord]
    by_cases atFile : number = ino
    · subst atFile
      cases found.symm.trans there
      exact records (sameKind.trans kind)
    · rw [same number (.inl atFile)] at there
      exact tree.directories number before there (sameKind.trans kind)
  · intro number left leftFound filled
    obtain ⟨key, listed⟩ := List.exists_mem_of_ne_nil _ filled
    rw [← keysAt_eq leftFound] at listed
    have named := (consistent.agree number key.name key.type key.mref).mp listed
    obtain ⟨before, there, sameKind, _⟩ := frames leftFound
    rw [← sameKind, ← namesAt_eq leftFound]
    have place_eq : (number = dir) ∨ ∃ fn ∈ namesAt files key.mref, fn.parent = number := by
      rw [names] at named
      split at named
      · rcases mem_putAt.mp named with new | old
        · exact .inl (FileName.mk.inj new).1
        · rename_i atFile
          exact .inr ⟨_, atFile ▸ old, rfl⟩
      · exact .inr ⟨_, named, rfl⟩
    have directory : ∃ other, files number = some other ∧ other.kind = .directory ∧ other.fileNames ≠ [] := by
      rcases place_eq with rfl | ⟨fn, old, rfl⟩
      · have parentNamed := tree.named parentFound parentAlive
        rw [namesAt_eq parentFound] at parentNamed
        exact ⟨parent, parentFound, parentKind, parentNamed⟩
      · obtain ⟨other, otherFound, kind, _, otherNamed, _⟩ := tree.parent old
        exact ⟨other, otherFound, kind, otherNamed⟩
    obtain ⟨other, otherFound, kind, otherNamed⟩ := directory
    rw [same number (.inr (by simp [otherFound])), otherFound, Option.some.injEq] at there
    rw [← there]
    rw [← namesAt_eq otherFound] at otherNamed
    obtain ⟨fn, old⟩ := List.exists_mem_of_ne_nil _ otherNamed
    exact ⟨kind, List.ne_nil_of_mem (more old)⟩
  · intro number left leftFound directory one oneListed other otherListed
    obtain ⟨before, there, _, sameRecord⟩ := frames leftFound
    rw [← namesAt_eq leftFound, names] at oneListed otherListed
    by_cases atFile : number = ino
    · subst atFile
      cases found.symm.trans there
      rw [if_pos rfl, first (sameRecord.trans directory), mem_putAt] at oneListed otherListed
      have only {fn : FileName} (listed : fn = ⟨dir, name, .posix⟩ ∨ fn ∈ ([] : List FileName)) :
          fn = ⟨dir, name, .posix⟩ := by simpa using listed
      rw [only oneListed, only otherListed]
      exact .inl rfl
    · rw [if_neg atFile] at oneListed otherListed
      rw [same number (.inl atFile)] at there
      have linked := tree.single number before there (sameRecord.trans directory)
      rw [← namesAt_eq there] at linked
      exact linked one oneListed other otherListed
  · obtain ⟨fn, listed⟩ := List.exists_mem_of_ne_nil _ tree.root.1
    refine ⟨List.ne_nil_of_mem (more listed), fun other otherListed => ?_⟩
    rw [names] at otherListed
    split at otherListed
    · rename_i atFile
      have isDirectory : inode.dirRecord = true := by
        obtain ⟨entryDir, entryFound, entryKind, entryRecord, _⟩ := tree.parent listed
        rw [tree.root.2 fn listed, atFile] at entryFound
        rw [same ino (.inr (by simp [entryFound])), entryFound, Option.some.injEq] at found
        rwa [← found]
      exact absurd atFile.symm (notDir isDirectory)
    · exact tree.root.2 other otherListed
  · intro number left leftFound directory some_name
    obtain ⟨before, there, _, sameRecord⟩ := frames leftFound
    by_cases atFile : number = ino
    · subst atFile
      have added : (⟨dir, name, .posix⟩ : FileName) ∈ namesAt (addName upcase base number dir place name) number := by
        rw [names, if_pos rfl]
        exact mem_putAt.mpr (.inl rfl)
      exact .up not_false added (dirClimbs.mono fun _ _ => more)
    · rw [same number (.inl atFile)] at there
      apply (tree.reaches number before there (sameRecord.trans directory) ?_).mono fun _ _ => more
      rw [← namesAt_eq leftFound, names, if_neg atFile, namesAt_eq there] at some_name
      exact some_name

theorem Tree.link (tree : Tree upcase files) (found : files ino = some inode) (alive : inode.beingDeleted = false)
    (plain : inode.dirRecord = false) (short : inode.fileNames.length + 1 < 65536)
    (parentFound : files dir = some parent) (parentAlive : parent.beingDeleted = false)
    (parentKind : parent.kind = .directory) (fresh : ∀ key ∈ keysAt files dir, key.name ≠ name) (text : 0 ∉ name) :
    Tree upcase (addName upcase files ino dir place name) := by
  rw [← namesAt_eq found] at short
  apply tree.grow (tree.addName found alive parentFound fresh text) (fun _ => rfl) (fun _ _ => rfl) found
    (tree.directories ino inode found) _ short parentFound parentAlive parentKind
  intro directory
  rw [plain] at directory
  cases directory

/-- A new file keeps a tree. -/
theorem Tree.create {kind : FileKind} {dirLink : Bool} (tree : Tree upcase files) (absent : files ino = none)
    (parentFound : files dir = some parent) (parentAlive : parent.beingDeleted = false)
    (parentKind : parent.kind = .directory) (fresh : ∀ key ∈ keysAt files dir, key.name ≠ name) (text : 0 ∉ name) :
    Tree upcase (addName upcase (born files ino kind dirLink) ino dir 0 name) := by
  have apart : dir ≠ ino := by
    rintro rfl
    rw [absent] at parentFound
    cases parentFound
  have nothing : namesAt files ino = [] := by rw [namesAt, absent]; rfl
  have parentBorn : born files ino kind dirLink dir = some parent := (born_other apart).trans parentFound
  have agreeing : Agreeing upcase (addName upcase (born files ino kind dirLink) ino dir 0 name) := by
    apply (tree.toAgreeing.born absent).addName born_same parentBorn _ text
    rw [keysAt_born absent]
    exact fresh
  have names (number : Nat) : namesAt (addName upcase (born files ino kind dirLink) ino dir 0 name) number =
      if number = ino then [⟨dir, name, .posix⟩] else namesAt files number := by
    rw [namesAt_addName born_same, namesAt_born absent, namesAt_born absent, nothing]
    rfl
  have consistent : Consistent upcase (addName upcase (born files ino kind dirLink) ino dir 0 name) := by
    refine { agreeing with paired := ?_, deleted := ?_, nlink := ?_ }
    · intro number
      rw [names]
      split
      · exact ⟨by simp, by simp, by simp, by simp⟩
      · exact tree.paired number
    · intro number left leftFound
      obtain ⟨before, index, beforeFound, rfl⟩ := change_eq_some leftFound
      by_cases atFile : number = ino
      · subst atFile
        cases born_same.symm.trans beforeFound
        rw [if_pos rfl]
        simp [addLink, Inode.withFileNames, Inode.withIndex, bornInode, putAt]
      · rw [if_neg atFile]
        exact tree.deleted number before ((born_other atFile).symm.trans beforeFound)
    · intro number left leftFound
      obtain ⟨before, index, beforeFound, rfl⟩ := change_eq_some leftFound
      by_cases atFile : number = ino
      · subst atFile
        cases born_same.symm.trans beforeFound
        rw [if_pos rfl]
        cases kind with
        | directory => simp [addLink, Inode.withFileNames, Inode.withIndex, bornInode]
        | regular | symlink =>
          simp [addLink, Inode.withFileNames, Inode.withIndex, bornInode, putAt]
      · rw [if_neg atFile]
        exact tree.nlink number before ((born_other atFile).symm.trans beforeFound)
  apply tree.grow consistent (fun _ => namesAt_born absent) _ born_same _ (fun _ => nothing) _ parentFound
    parentAlive parentKind
  · rintro number (other | there)
    · exact born_other other
    · refine born_other ?_
      rintro rfl
      exact there absent
  · intro isDirectory
    have kindIs : kind = .directory := isDirectory
    simp [bornInode, kindIs]
  · rw [nothing]
    decide

/-- The record of a file without names is freed. -/
theorem Tree.evict (tree : Tree upcase files) (found : files ino = some inode) (deleted : inode.beingDeleted = true) :
    Tree upcase fun other => if other = ino then none else files other := by
  have unnamed := (tree.deleted ino inode found).mp deleted
  have bare : inode.index = [] := by
    by_contra filled
    exact (tree.entries ino inode found filled).2 unnamed
  have left {number : Nat} {other : Inode (List IndexKey)}
      (there : (if number = ino then none else files number) = some other) : files number = some other := by
    split at there
    · cases there
    · exact there
  have view {α : Type} (read : Inode (List IndexKey) → α) (otherwise : α) (same : read inode = otherwise)
      (number : Nat) : (((fun other => if other = ino then none else files other) number).map read).getD otherwise =
        ((files number).map read).getD otherwise := by
    by_cases atFile : number = ino
    · subst atFile
      simp [found, same]
    · simp [atFile]
  have names := view Inode.fileNames [] unnamed
  have keys := view Inode.index [] bare
  have counts := view Inode.linkCount 0 (by
    have count := tree.count ino
    rwa [countAt, namesAt_eq found, found, unnamed] at count)
  have namesEq (number : Nat) : namesAt (fun other => if other = ino then none else files other) number =
      namesAt files number := names number
  refine ⟨⟨⟨?_, ?_, ?_, ?_, ?_⟩, ?_, ?_, ?_⟩, ?_, ?_, ?_, ?_, ?_, ?_⟩
  · intro place
    rw [keysAt, keys]
    exact tree.sorted place
  · intro place name type number
    rw [keysAt, keys, namesEq]
    exact tree.agree place name type number
  · intro number
    rw [namesEq]
    exact tree.nodup number
  · intro number
    rw [namesEq, countAt, counts]
    exact tree.count number
  · intro number fn listed
    rw [namesEq] at listed
    exact tree.legal number fn listed
  · intro number
    rw [namesEq]
    exact tree.paired number
  · exact fun number other there => tree.deleted number other (left there)
  · exact fun number other there => tree.nlink number other (left there)
  · intro number
    rw [namesEq]
    exact tree.bounded number
  · exact fun number other there => tree.directories number other (left there)
  · exact fun number other there => tree.entries number other (left there)
  · exact fun number other there => tree.single number other (left there)
  · rw [namesEq]
    exact tree.root
  · intro number other there directory some_name
    apply (tree.reaches number other (left there) directory some_name).mono
    intro place fn listed
    rw [namesEq]
    exact listed

end Growing

/-- A call that changes names, with its course. -/
inductive NameCall where
  | create (dir : Nat) (name : CName) (course : CreateCourse)
  | mkdir (dir : Nat) (name : CName) (course : CreateCourse)
  | symlink (dir : Nat) (name : CName) (dirLink : Bool) (course : CreateCourse)
  | link (ino dir : Nat) (name : CName) (course : VfsLinkCourse)
  | rename (oldDir : Nat) (oldName : CName) (newDir : Nat) (newName : CName) (course : VfsRenameCourse)
  | unlink (dir : Nat) (name : CName) (course : UnlinkCourse)
  | rmdir (dir : Nat) (name : CName) (course : UnlinkCourse)
  | evict (ino : Nat)

/-- The program of a call. -/
def NameCall.run (policy : NamePolicy) (code : IndexCode policy.names.upcase) : NameCall → NameM Unit
  | .create dir name course => ntfsCreate policy code dir name course
  | .mkdir dir name course => ntfsMkdir policy code dir name course
  | .symlink dir name dirLink course => ntfsSymlink policy code dir name dirLink course
  | .link ino dir name course => ntfsLink policy code ino dir name course
  | .rename oldDir oldName newDir newName course => ntfsRename policy code oldDir oldName newDir newName course
  | .unlink dir name course => ntfsUnlink policy code dir name course
  | .rmdir dir name course => ntfsRmdir policy code dir name course
  | .evict ino => Vfs.evict ino

/-- A sequence of calls that succeed. -/
inductive Calls (policy : NamePolicy) (code : IndexCode policy.names.upcase) (inodes : Inodes) : Inodes → Prop where
  | none : Calls policy code inodes inodes
  | more {mid after : Inodes} (call : NameCall) (earlier : Calls policy code inodes mid)
      (success : call.run policy code mid = .ok () after) : Calls policy code inodes after

/-- No inode with entries loses its last name. -/
def LosesNoEntries (files after : Listing) : Prop := ∀ ino, keysAt files ino ≠ [] → namesAt after ino ≠ []

section Runs

variable {policy : NamePolicy} {code : IndexCode policy.names.upcase} {inodes : Inodes}

theorem Tree.named_of_entries {upcase : Upcase} {files : Listing} (tree : Tree upcase files) {ino : Nat}
    (filled : keysAt files ino ≠ []) : namesAt files ino ≠ [] := by
  obtain ⟨key, listed⟩ := List.exists_mem_of_ne_nil _ filled
  obtain ⟨inode, found, there⟩ := exists_of_mem_keysAt listed
  rw [namesAt_eq found]
  exact (tree.entries ino inode found (List.ne_nil_of_mem there)).2

theorem losesNoEntries_of_more {upcase : Upcase} {files after : Listing} (tree : Tree upcase files)
    (more : ∀ ino fn, fn ∈ namesAt files ino → fn ∈ namesAt after ino) : LosesNoEntries files after := by
  intro ino filled
  obtain ⟨fn, listed⟩ := List.exists_mem_of_ne_nil _ (tree.named_of_entries filled)
  exact List.ne_nil_of_mem (more ino fn listed)

theorem more_addName {upcase : Upcase} {files : Listing} {inode : Inode (List IndexKey)} {ino dir place : Nat}
    {name : Uname} (found : files ino = some inode) (other : Nat) (fn : FileName) (listed : fn ∈ namesAt files other) :
    fn ∈ namesAt (addName upcase files ino dir place name) other := by
  rw [namesAt_addName found]
  split
  · rename_i atFile
    exact mem_putAt.mpr (.inr (atFile ▸ listed))
  · exact listed

theorem Tree.sound (tree : Tree policy.names.upcase (listing inodes))
    (inOrder : IndexesInOrder policy.names.upcase inodes) : Sound policy.names.upcase inodes where
  inOrder := inOrder
  consistent := tree.toConsistent
  bounded := tree.bounded
  directories ino inode found := tree.directories ino inode.listed (listing_eq found)

theorem losesNoEntries_of_deletes {upcase : Upcase} {files after : Listing} {ino dir : Nat} {name : Uname}
    (tree : Tree upcase files) (deletes : Deletes upcase files ino dir name after) : LosesNoEntries files after := by
  intro number filled
  have apart : number ≠ ino := by
    rintro rfl
    exact filled (tree.emptied deletes)
  rw [deletes.namesAt_other apart]
  exact tree.named_of_entries filled

theorem losesNoEntries_of_renames {upcase : Upcase} {files after : Listing} {ino oldDir newDir : Nat}
    {oldName newName : Uname} (tree : Tree upcase files)
    (renames : Renames upcase files after ino oldDir oldName newDir newName) : LosesNoEntries files after := by
  intro number filled
  have named := tree.named_of_entries filled
  cases renames with
  | unchanged same => rwa [same]
  | moved moves => exact moves.keepsNamed tree.toConsistent named
  | replaced _ _ deletes moves =>
    exact moves.keepsNamed (tree.deletes deletes).toConsistent (losesNoEntries_of_deletes tree deletes number filled)
  | changedCase first second =>
    exact second.keepsNamed first.consistent (first.keepsNamed tree.toConsistent named)

/-- A directory that is not moved below itself has a place outside of itself. -/
theorem outside_of_checks {ino newDir : Nat} {inode : Inode DirectoryIndex}
    (tree : Tree policy.names.upcase (listing inodes)) (found : inodes ino = some inode)
    (newKind : ∀ parent, inodes newDir = some parent → parent.kind = .directory)
    (checked : ∀ inode, inodes ino = some inode → inode.kind = .directory → isSubdir inodes newDir ino = .ok false)
    (alive : ∃ parent, listing inodes newDir = some parent ∧ parent.beingDeleted = false) :
    Outside (listing inodes) ino newDir := by
  obtain ⟨parent, listed, open_⟩ := alive
  obtain ⟨original, there, rfl⟩ := Option.map_eq_some_iff.mp listed
  have kind := newKind original there
  by_cases directory : inode.kind = .directory
  · have named := tree.named listed open_
    rw [namesAt_listing there] at named
    exact isSubdir_outside tree there kind named (checked inode found directory)
  · have climbs := tree.climbs_of_directory listed kind open_
    refine .inl ⟨?_, tree.climbs_past (listing_eq found) directory listed kind climbs⟩
    rintro rfl
    obtain ⟨first, firstListed⟩ := List.exists_mem_of_ne_nil _ tree.root.1
    obtain ⟨above, aboveFound, aboveKind, _⟩ := tree.parent firstListed
    rw [tree.root.2 first firstListed, listing_eq found, Option.some.injEq] at aboveFound
    rw [← aboveFound] at aboveKind
    exact directory aboveKind

theorem Resolves.named {dir ino : Nat} {name : Uname} (sound : Sound policy.names.upcase inodes)
    (resolves : Resolves policy inodes dir name ino) :
    ∃ fn ∈ namesAt (listing inodes) ino, fn.parent = dir := by
  obtain ⟨key, rfl, parent, found, listed, _⟩ := resolves.exists_entry sound
  rw [← keysAt_listing found] at listed
  exact ⟨⟨dir, key.name, key.type⟩, (sound.consistent.agree dir key.name key.type key.mref).mp listed, rfl⟩

/-- A tree of directories with indexes in order, and what had entries before has a name. -/
structure Keeps (upcase : Upcase) (inodes after : Inodes) : Prop where
  tree : Tree upcase (listing after)
  inOrder : IndexesInOrder upcase after
  entries : LosesNoEntries (listing inodes) (listing after)

theorem doCreate_keeps {dir : Nat} {name : CName} {kind : FileKind} {dirLink : Bool} {course : CreateCourse}
    (tree : Tree policy.names.upcase (listing inodes)) (inOrder : IndexesInOrder policy.names.upcase inodes) :
    Ends (doCreate policy code dir name kind dirLink course) inodes
      (fun _ after => Keeps policy.names.upcase inodes after) fun _ _ => True := by
  apply (doCreate_ends inOrder).imp _ fun _ _ _ => trivial
  rintro _ after ⟨absent, ⟨parent, parentFound, alive, parentKind⟩, fresh, files, order, _⟩
  refine ⟨?_, order, ?_⟩
  · rw [files]
    exact tree.create absent parentFound alive parentKind fresh name.2
  · rw [files]
    apply losesNoEntries_of_more tree
    intro number fn listed
    apply more_addName born_same
    rwa [namesAt_born absent]

theorem doUnlink_keeps {dir : Nat} {name : CName} {rmdir : Bool} {course : UnlinkCourse}
    (tree : Tree policy.names.upcase (listing inodes)) (inOrder : IndexesInOrder policy.names.upcase inodes) :
    Ends (doUnlink policy code dir name rmdir course) inodes
      (fun _ after => Keeps policy.names.upcase inodes after) fun _ _ => True := by
  apply Ends.bind
  apply checking_ends.imp _ fun _ _ _ => trivial
  rintro _ _ ⟨rfl, _⟩
  apply Ends.bind
  apply requireDirectory_ends.imp _ fun _ _ _ => trivial
  rintro _ _ ⟨rfl, _⟩
  apply Ends.bind
  apply failing_ends.imp _ fun _ _ _ => trivial
  rintro _ _ ⟨rfl, _⟩
  apply (ntfsVfsUnlink_ends inOrder).imp _ fun _ _ _ => trivial
  rintro _ after ⟨ino, inode, _, _, _, deletes, _, order⟩
  exact ⟨tree.deletes deletes, order, losesNoEntries_of_deletes tree deletes⟩

theorem evict_keeps {ino : Nat} (tree : Tree policy.names.upcase (listing inodes))
    (inOrder : IndexesInOrder policy.names.upcase inodes) :
    Ends (Vfs.evict ino) inodes (fun _ after => Keeps policy.names.upcase inodes after) fun _ _ => True := by
  apply Ends.bind
  apply getInode_ends.imp _ fun _ _ _ => trivial
  rintro inode _ ⟨rfl, found⟩
  by_cases deleted : inode.beingDeleted = true
  · rw [if_pos deleted]
    have files : listing (setInode ino none inodes) = fun other => if other = ino then none else listing inodes other := by
      funext other
      rw [listing, setInode]
      split
      · rfl
      · rfl
    have evicted : Tree policy.names.upcase (listing (setInode ino none inodes)) := by
      rw [files]
      exact tree.evict (listing_eq found) deleted
    refine ⟨evicted, ?_, ?_⟩
    · intro number other there
      rw [setInode] at there
      split at there
      · cases there
      · exact inOrder number other there
    · apply losesNoEntries_of_more tree
      intro number fn listed
      rw [files, namesAt]
      by_cases atFile : number = ino
      · have unnamed := (tree.deleted ino inode.listed (listing_eq found)).mp deleted
        rw [atFile, namesAt_eq (listing_eq found), unnamed] at listed
        cases listed
      · rwa [if_neg atFile]
  · rw [if_neg deleted]
    exact ⟨tree, inOrder, losesNoEntries_of_more tree fun _ _ listed => listed⟩

/-- Every call that succeeds keeps a tree of directories. -/
theorem NameCall.keeps (call : NameCall) (tree : Tree policy.names.upcase (listing inodes))
    (inOrder : IndexesInOrder policy.names.upcase inodes) :
    Ends (call.run policy code) inodes (fun _ after => Keeps policy.names.upcase inodes after) fun _ _ => True := by
  cases call with
  | create dir name course | mkdir dir name course | symlink dir name dirLink course =>
    exact doCreate_keeps tree inOrder
  | unlink dir name course | rmdir dir name course => exact doUnlink_keeps tree inOrder
  | evict ino => exact evict_keeps tree inOrder
  | link ino dir name course =>
    apply (ntfsLink_ends inOrder).imp _ fun _ _ _ => trivial
    rintro _ after ⟨⟨inode, found, alive, notDirectory, plain, few⟩, ⟨parent, parentFound, open_, kind⟩, fresh,
      files, order, _⟩
    have counted := tree.nlink ino inode found notDirectory
    rw [ntfsLinkMax, counted] at few
    refine ⟨?_, order, ?_⟩
    · rw [files]
      exact tree.link found alive plain (by omega) parentFound open_ kind fresh name.2
    · rw [files]
      exact losesNoEntries_of_more tree (more_addName found)
  | rename oldDir oldName newDir newName course =>
    have sound := tree.sound inOrder
    apply (ntfsRename_ends sound).imp _ fun _ _ _ => trivial
    rintro _ after ⟨⟨ino, resolves, ⟨inode, found⟩, renames, checked⟩, ⟨oldKind, newKind⟩, _, order⟩
    have listedKind {dir : Nat} (kinds : ∀ parent, inodes dir = some parent → parent.kind = .directory)
        (parent : Inode (List IndexKey)) (there : listing inodes dir = some parent) : parent.kind = .directory := by
      obtain ⟨original, originalFound, rfl⟩ := Option.map_eq_some_iff.mp there
      exact kinds original originalFound
    refine ⟨?_, order, losesNoEntries_of_renames tree renames⟩
    apply tree.renames renames (resolves.named sound) (listedKind oldKind) (listedKind newKind)
    intro apart alive
    exact outside_of_checks tree found newKind (checked apart) alive

theorem Calls.keeps {after : Inodes} (calls : Calls policy code inodes after)
    (tree : Tree policy.names.upcase (listing inodes)) (inOrder : IndexesInOrder policy.names.upcase inodes) :
    Tree policy.names.upcase (listing after) ∧ IndexesInOrder policy.names.upcase after := by
  induction calls with
  | none => exact ⟨tree, inOrder⟩
  | more call _ success ih =>
    obtain ⟨midTree, midOrder⟩ := ih
    have keeps := (call.keeps midTree midOrder).ok success
    exact ⟨keeps.tree, keeps.inOrder⟩

/-- From parent to parent of the first `$FILE_NAME` the root is reached. -/
inductive ReachesRoot (inodes : Inodes) : Nat → Prop where
  | root : ReachesRoot inodes fileRoot
  | up {ino parent : Nat} (above : parentIno inodes ino = some parent) (rest : ReachesRoot inodes parent) :
      ReachesRoot inodes ino

/-- Every directory has a single parent and leads to the root, and every file counts its
names. -/
structure TreeShaped (inodes : Inodes) : Prop where
  oneParent : ∀ ino inode, inodes ino = some inode → inode.dirRecord = true → inode.beingDeleted = false →
    ∃! parent, ∃ fn ∈ inode.fileNames, fn.parent = parent
  toRoot : ∀ ino inode, inodes ino = some inode → inode.dirRecord = true → inode.beingDeleted = false →
    ReachesRoot inodes ino
  counted : ∀ ino inode, inodes ino = some inode → inode.linkCount = inode.fileNames.length

/-- The way of a directory to the root is that of the first `$FILE_NAME` attributes. -/
theorem Tree.reachesRoot {upcase : Upcase} (tree : Tree upcase (listing inodes)) {ino : Nat}
    {inode : Inode DirectoryIndex} (found : inodes ino = some inode) (directory : inode.dirRecord = true)
    (climbs : Climbs (listing inodes) (fun _ => False) ino) : ReachesRoot inodes ino := by
  induction climbs generalizing inode with
  | root => exact .root
  | @up place fn _ named _ ih =>
    obtain ⟨parent, parentFound, _, record, _⟩ := tree.parent named
    obtain ⟨original, there, rfl⟩ := Option.map_eq_some_iff.mp parentFound
    have listed := named
    rw [namesAt_listing found] at listed
    obtain ⟨head, rest, names⟩ := List.exists_cons_of_ne_nil (List.ne_nil_of_mem listed)
    have headListed : head ∈ namesAt (listing inodes) place := by
      rw [namesAt_listing found, names]
      exact List.mem_cons_self ..
    have above : parentIno inodes place = some fn.parent := by
      rw [parentIno, found, Option.bind_some, names, List.head?_cons, Option.map_some,
        tree.oneParent (listing_eq found) directory headListed named]
    exact .up above (ih there record)

/-- A tree of directories is what it is called. -/
theorem Tree.shaped {upcase : Upcase} (tree : Tree upcase (listing inodes)) : TreeShaped inodes where
  oneParent ino inode found directory alive := by
    have named := tree.named (listing_eq found) alive
    obtain ⟨first, listed⟩ := List.exists_mem_of_ne_nil _ named
    have inNames := listed
    rw [namesAt_listing found] at inNames
    refine ⟨first.parent, ⟨first, inNames, rfl⟩, ?_⟩
    rintro _ ⟨other, otherListed, rfl⟩
    rw [← namesAt_listing found] at otherListed
    exact tree.oneParent (listing_eq found) directory otherListed listed
  toRoot ino inode found directory alive := by
    have named := tree.named (listing_eq found) alive
    rw [namesAt_listing found] at named
    exact tree.reachesRoot found directory (tree.reaches ino inode.listed (listing_eq found) directory named)
  counted ino inode found := by
    have count := tree.count ino
    rwa [Nat.mod_eq_of_lt (tree.bounded ino), countAt_listing found, namesAt_listing found] at count

/-- Over every sequence of calls that succeed the directories stay a tree, the files count
their names, and no call takes the last name of what has entries. -/
theorem directories_stay_tree {after : Inodes} (tree : Tree policy.names.upcase (listing inodes))
    (inOrder : IndexesInOrder policy.names.upcase inodes) (calls : Calls policy code inodes after) :
    TreeShaped after ∧ ∀ (call : NameCall) (next : Inodes), call.run policy code after = .ok () next →
      LosesNoEntries (listing after) (listing next) := by
  obtain ⟨afterTree, afterOrder⟩ := calls.keeps tree inOrder
  refine ⟨afterTree.shaped, fun call next success => ?_⟩
  exact ((call.keeps afterTree afterOrder).ok success).entries

end Runs

theorem forall_volumeOf {P : Nat → Inode (List IndexKey) → Prop} {files : List (Nat × Inode (List IndexKey))}
    (each : ∀ entry ∈ files, P entry.1 entry.2) (ino : Nat) (inode : Inode (List IndexKey))
    (found : listing (volumeOf files) ino = some inode) : P ino inode := each _ (mem_of_listing found)

theorem oneFile_tree : Tree asciiUpcase (listing (volumeOf oneFile)) where
  toConsistent := oneFile_sound.consistent
  bounded := oneFile_sound.bounded
  directories := forall_volumeOf (by decide)
  entries := forall_volumeOf (by decide)
  single := forall_volumeOf (by decide)
  root := by decide
  reaches := by
    apply forall_volumeOf
    intro entry listed directory _
    have isRoot : entry.1 = fileRoot := by
      revert entry
      decide
    rw [isRoot]
    exact .root not_false

/-- A creation in which no step fails. -/
def smoothCreate (ino : Nat) : CreateCourse := ⟨none, none, none, ino, none⟩

/-- The inodes behind a list of calls, if they all succeed. -/
def runAll (policy : NamePolicy) (code : IndexCode policy.names.upcase) (inodes : Inodes) :
    List NameCall → Option Inodes
  | [] => some inodes
  | call :: calls =>
    match call.run policy code inodes with
    | .ok () next => runAll policy code next calls
    | .error _ _ => none

theorem calls_of_runAll {policy : NamePolicy} {code : IndexCode policy.names.upcase}
    {inodes mid after : Inodes} {list : List NameCall} (earlier : Calls policy code inodes mid)
    (run : runAll policy code mid list = some after) : Calls policy code inodes after := by
  induction list generalizing mid with
  | nil =>
    cases run
    exact earlier
  | cons call list ih =>
    rw [runAll] at run
    split at run
    · rename_i success
      exact ih (.more call earlier success) run
    · cases run

/-- A directory is made in the root, gets another name, is removed and leaves the cache. -/
def moveAndRemove : List NameCall :=
  [.mkdir 5 ⟨[100], by decide⟩ (smoothCreate 65),
    .rename 5 ⟨[100], by decide⟩ 5 ⟨[101], by decide⟩ smoothVfsRename,
    .rmdir 5 ⟨[101], by decide⟩ smoothUnlink, .evict 65]

/-- Behind these calls the directories are a tree. -/
theorem directories_stay_tree_moved : ∃ after,
    runAll ignoringCase (rootCode asciiUpcase) (volumeOf oneFile) moveAndRemove = some after ∧
      TreeShaped after := by
  have succeeds : (runAll ignoringCase (rootCode asciiUpcase) (volumeOf oneFile)
      moveAndRemove).isSome = true := by decide
  obtain ⟨after, run⟩ := Option.isSome_iff_exists.mp succeeds
  exact ⟨after, run,
    (directories_stay_tree oneFile_tree oneFile_sound.inOrder (calls_of_runAll .none run)).1⟩

end Ttntfs.Vfs
