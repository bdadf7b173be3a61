import Ttntfs.Vfs.Unlinking
import Ttntfs.Vfs.RenameFailures

/-!
# The tree of directories

The `$FILE_NAME` attributes of a directory name the directory above it. In a tree of
directories every directory has a single parent, the one link that it has leads on to the
root, and only what is a directory has entries. Deleting a name, adding one and moving one
keep a tree as long as a directory is not moved below itself.
-/

namespace Ttntfs.Vfs

open Ttntfs.Ntfs Ttntfs.Library.StatefulSteps

/-- From parent to parent the root is reached without passing an inode that is to be avoided. -/
inductive Climbs (files : Listing) (avoid : Nat → Prop) : Nat → Prop where
  | root (free : ¬ avoid fileRoot) : Climbs files avoid fileRoot
  | up {dir : Nat} {fn : FileName} (free : ¬ avoid dir) (named : fn ∈ namesAt files dir)
      (above : Climbs files avoid fn.parent) : Climbs files avoid dir

/-- A volume whose directories are a tree. A record of a directory has a single link, and
entries are only in what is presented as a directory. -/
structure Tree (upcase : Upcase) (files : Listing) : Prop extends Consistent upcase files where
  bounded : ∀ ino, (namesAt files ino).length < 65536
  directories : ∀ ino inode, files ino = some inode → inode.kind = .directory → inode.dirRecord = true
  entries : ∀ dir inode, files dir = some inode → inode.index ≠ [] →
    inode.kind = .directory ∧ inode.fileNames ≠ []
  single : ∀ ino inode, files ino = some inode → inode.dirRecord = true →
    ∀ fn ∈ inode.fileNames, ∀ other ∈ inode.fileNames, SameLink fn other
  root : namesAt files fileRoot ≠ [] ∧ ∀ fn ∈ namesAt files fileRoot, fn.parent = fileRoot
  reaches : ∀ ino inode, files ino = some inode → inode.dirRecord = true → inode.fileNames ≠ [] →
    Climbs files (fun _ => False) ino

section Climbing

variable {upcase : Upcase} {files after : Listing} {avoid avoidAfter : Nat → Prop} {dir ino : Nat}

/-- A way to the root is one in another volume too, if each step of it is, or the rest of it
is known to be. -/
theorem Climbs.transfer (onWay : Nat → Prop) (climbs : Climbs files avoid dir) (here : onWay dir)
    (root : onWay fileRoot → Climbs after avoidAfter fileRoot)
    (step : ∀ place fn, onWay place → ¬ avoid place → fn ∈ namesAt files place →
      Climbs after avoidAfter place ∨
        (onWay fn.parent ∧ (Climbs after avoidAfter fn.parent → Climbs after avoidAfter place))) :
    Climbs after avoidAfter dir := by
  induction climbs with
  | root => exact root here
  | up free named _ ih =>
    rcases step _ _ here free named with climbed | ⟨above, back⟩
    · exact climbed
    · exact back (ih above)

theorem Climbs.mono (climbs : Climbs files avoid dir)
    (kept : ∀ place fn, fn ∈ namesAt files place → fn ∈ namesAt after place) : Climbs after avoid dir := by
  induction climbs with
  | root free => exact .root free
  | up free named _ ih => exact .up free (kept _ _ named) ih

/-- On the way from an inode other than the root to the root there is a way from its parent on
which it does not come again. -/
theorem Climbs.above (climbs : Climbs files (fun _ => False) dir) (inner : ino ≠ fileRoot) :
    Climbs files (· = ino) dir ∨ ∃ fn ∈ namesAt files ino, Climbs files (· = ino) fn.parent := by
  induction climbs with
  | root => exact .inl (.root (Ne.symm inner))
  | @up place fn _ named _ ih =>
    rcases ih with free | found
    · by_cases same : place = ino
      · subst same
        exact .inr ⟨fn, named, free⟩
      · exact .inl (.up same named free)
    · exact .inr found

theorem Climbs.free (climbs : Climbs files avoid dir) : ¬ avoid dir := by
  cases climbs with
  | root free => exact free
  | up free _ _ => exact free

end Climbing

section Reading

variable {upcase : Upcase} {files : Listing} {dir ino : Nat} {inode : Inode (List IndexKey)} {fn other : FileName}

theorem namesAt_eq (found : files ino = some inode) : namesAt files ino = inode.fileNames := by
  rw [namesAt, found, Option.map_some, Option.getD_some]

theorem keysAt_eq (found : files ino = some inode) : keysAt files ino = inode.index := by
  rw [keysAt, found, Option.map_some, Option.getD_some]

theorem Tree.parent (tree : Tree upcase files) (listed : fn ∈ namesAt files ino) :
    ∃ parent, files fn.parent = some parent ∧ parent.kind = .directory ∧ parent.dirRecord = true ∧
      parent.fileNames ≠ [] ∧ parent.index ≠ [] := by
  have entry := (tree.agree fn.parent fn.name fn.type ino).mpr listed
  obtain ⟨parent, found, there⟩ := exists_of_mem_keysAt entry
  have filled := List.ne_nil_of_mem there
  obtain ⟨kind, named⟩ := tree.entries fn.parent parent found filled
  exact ⟨parent, found, kind, tree.directories fn.parent parent found kind, named, filled⟩

theorem Tree.oneParent (tree : Tree upcase files) (found : files ino = some inode)
    (directory : inode.dirRecord = true) (listed : fn ∈ namesAt files ino) (alsoListed : other ∈ namesAt files ino) :
    fn.parent = other.parent := by
  have linked := tree.single ino inode found directory
  rw [← namesAt_eq found] at linked
  rcases linked fn listed other alsoListed with rfl | ⟨dos, win32⟩ | ⟨win32, dos⟩
  · rfl
  · obtain ⟨long, longListed, longWin32, together⟩ := (tree.paired ino).partner fn listed dos
    rw [← together, (tree.paired ino).oneWin32 other alsoListed long longListed win32 longWin32]
  · obtain ⟨long, longListed, longWin32, together⟩ := (tree.paired ino).partner other alsoListed dos
    rw [← together, (tree.paired ino).oneWin32 fn listed long longListed win32 longWin32]

end Reading

section Deleting

variable {upcase : Upcase} {files after : Listing} {ino dir : Nat} {name : Uname} {gone : List FileName}
  {fn : FileName}

theorem Removes.before (removes : Removes files after ino dir gone) {number : Nat} {left : Inode (List IndexKey)}
    (found : after number = some left) :
    ∃ inode, files number = some inode ∧ inode.kind = left.kind ∧ inode.dirRecord = left.dirRecord := by
  have same := removes.frame number
  rw [found, Option.map_some, eq_comm, Option.map_eq_some_iff] at same
  obtain ⟨inode, there, equal⟩ := same
  obtain ⟨kind, record⟩ := Prod.mk.inj equal
  exact ⟨inode, there, kind, record⟩

theorem Tree.allGone (tree : Tree upcase files) {inode : Inode (List IndexKey)} (found : files ino = some inode)
    (directory : inode.dirRecord = true) (head : gone.head? = some fn) (oneLink : OneLink gone)
    (removed : ∀ fn ∈ gone, fn ∈ namesAt files ino) {other : FileName} (listed : other ∈ namesAt files ino) :
    other ∈ gone := by
  rw [mem_gone_iff (tree.paired ino) head oneLink removed listed]
  have linked := tree.single ino inode found directory
  rw [← namesAt_eq found] at linked
  exact linked fn (removed fn (List.mem_of_head? head)) other listed

/-- A name is deleted only of what has no entries. -/
theorem Tree.emptied (tree : Tree upcase files) (deletes : Deletes upcase files ino dir name after) :
    keysAt files ino = [] := by
  obtain ⟨fn, gone, paired, search, head, oneLink, removes, ⟨inode, found, unlinkable⟩, _⟩ :=
    deletes.removes tree.toConsistent (tree.bounded ino).le
  rw [keysAt_eq found]
  by_contra filled
  obtain ⟨kind, _⟩ := tree.entries ino inode found filled
  have directory := tree.directories ino inode found kind
  have removed (fn : FileName) (listed : fn ∈ gone) := (removes.listed fn listed).1
  have nothing : namesAt after ino = [] := by
    rw [List.eq_nil_iff_forall_not_mem]
    intro other left
    obtain ⟨listed, kept⟩ := (removes.names ino other).mp left
    exact kept ⟨rfl, tree.allGone found directory head oneLink removed listed⟩
  have count := tree.count ino
  have length := removes.length
  rw [nothing, List.length_nil] at length
  rw [Nat.mod_eq_of_lt (tree.bounded ino), countAt, found, Option.map_some, Option.getD_some] at count
  rcases unlinkable with plain | bare | more
  · rw [directory] at plain
    cases plain
  · exact filled bare
  · apply more
    rcases oneLink with ⟨only, rfl, _, _⟩ | ⟨short, long, rfl, _, dos, _⟩
    · rw [List.length_singleton] at length
      omega
    · obtain rfl : short = fn := by simpa using head
      simp only [List.length_cons, List.length_nil] at length
      exact .inr ⟨by omega, dos⟩

theorem Tree.not_parent (tree : Tree upcase files) (deletes : Deletes upcase files ino dir name after) {number : Nat}
    (listed : fn ∈ namesAt files number) : fn.parent ≠ ino := by
  rintro rfl
  obtain ⟨parent, found, _, _, _, filled⟩ := tree.parent listed
  have bare := tree.emptied deletes
  rw [keysAt_eq found] at bare
  exact filled bare

theorem Tree.climbs_afterDeletion (tree : Tree upcase files) (deletes : Deletes upcase files ino dir name after)
    {avoid : Nat → Prop} {number : Nat} (climbs : Climbs files avoid number) (apart : number ≠ ino) :
    Climbs after avoid number := by
  induction climbs with
  | root free => exact .root free
  | @up place fn free named _ ih =>
    refine .up free ?_ (ih (tree.not_parent deletes named))
    rw [deletes.namesAt_other apart]
    exact named

/-- Deleting a name keeps a tree. -/
theorem Tree.deletes (tree : Tree upcase files) (deletes : Deletes upcase files ino dir name after) :
    Tree upcase after := by
  obtain ⟨fn, gone, paired, search, head, oneLink, removes, ⟨inode, found, _⟩, consistent⟩ :=
    deletes.removes tree.toConsistent (tree.bounded ino).le
  have removed (fn : FileName) (listed : fn ∈ gone) := (removes.listed fn listed).1
  have fewer {number : Nat} {other : FileName} (listed : other ∈ namesAt after number) :
      other ∈ namesAt files number := ((removes.names number other).mp listed).1
  have rootKept : fileRoot ≠ ino := by
    obtain ⟨first, listed⟩ := List.exists_mem_of_ne_nil _ tree.root.1
    have notParent := tree.not_parent deletes listed
    rwa [tree.root.2 first listed] at notParent
  refine { consistent with bounded := ?_, directories := ?_, entries := ?_, single := ?_, root := ?_, reaches := ?_ }
  · intro number
    by_cases same : number = ino
    · have length := removes.length
      have before := tree.bounded ino
      rw [same]
      omega
    · rw [deletes.namesAt_other same]
      exact tree.bounded number
  · intro number left leftFound kind
    obtain ⟨before, there, sameKind, sameRecord⟩ := removes.before leftFound
    rw [← sameRecord]
    exact tree.directories number before there (sameKind.trans kind)
  · intro place left leftFound filled
    obtain ⟨key, listed⟩ := List.exists_mem_of_ne_nil _ filled
    rw [← keysAt_eq leftFound] at listed
    have named := fewer ((consistent.agree place key.name key.type key.mref).mp listed)
    obtain ⟨parent, there, kind, _, parentNamed, _⟩ := tree.parent named
    obtain ⟨before, beforeFound, sameKind, _⟩ := removes.before leftFound
    cases there.symm.trans beforeFound
    refine ⟨sameKind.symm.trans kind, ?_⟩
    rw [← namesAt_eq leftFound, deletes.namesAt_other (tree.not_parent deletes named), namesAt_eq there]
    exact parentNamed
  · intro number left leftFound directory one oneListed other otherListed
    obtain ⟨before, there, _, sameRecord⟩ := removes.before leftFound
    have linked := tree.single number before there (sameRecord.trans directory)
    rw [← namesAt_eq there] at linked
    rw [← namesAt_eq leftFound] at oneListed otherListed
    exact linked one (fewer oneListed) other (fewer otherListed)
  · rw [deletes.namesAt_other rootKept]
    exact tree.root
  · intro number left leftFound directory named
    obtain ⟨before, there, _, sameRecord⟩ := removes.before leftFound
    obtain ⟨first, listed⟩ := List.exists_mem_of_ne_nil _ named
    rw [← namesAt_eq leftFound] at listed
    have isDirectory := sameRecord.trans directory
    have filled : before.fileNames ≠ [] := by
      rw [← namesAt_eq there]
      exact List.ne_nil_of_mem (fewer listed)
    apply tree.climbs_afterDeletion deletes (tree.reaches number before there isDirectory filled)
    rintro rfl
    obtain ⟨inNames, kept⟩ := (removes.names number first).mp listed
    exact kept ⟨rfl, tree.allGone there isDirectory head oneLink removed inNames⟩

end Deleting

section Moving

variable {upcase : Upcase} {files after : Listing} {ino oldDir newDir : Nat} {oldName newName : Uname}
  {gone : List FileName} {fn : FileName}

/-- The place that a name moves to is not below the inode it names. -/
def Outside (files : Listing) (ino newDir : Nat) : Prop :=
  (ino ≠ fileRoot ∧ Climbs files (· = ino) newDir) ∨ (ino = fileRoot ∧ newDir = fileRoot)

/-- No way leads to the root over what is not a directory. -/
theorem Tree.climbs_past (tree : Tree upcase files) {inode directory : Inode (List IndexKey)}
    (found : files ino = some inode) (plain : inode.kind ≠ .directory) (place : files newDir = some directory)
    (kind : directory.kind = .directory) (climbs : Climbs files (fun _ => False) newDir) :
    Climbs files (· = ino) newDir := by
  have apart {number : Nat} (isOne : ∃ other, files number = some other ∧ other.kind = .directory) :
      number ≠ ino := by
    rintro rfl
    obtain ⟨other, there, otherKind⟩ := isOne
    rw [Option.some.inj (found.symm.trans there)] at plain
    exact plain otherKind
  apply climbs.transfer (fun number => ∃ other, files number = some other ∧ other.kind = .directory)
    ⟨directory, place, kind⟩
  · exact fun isOne => .root (apart isOne)
  · intro number name isOne _ named
    obtain ⟨parent, parentFound, parentKind, _⟩ := tree.parent named
    exact .inr ⟨⟨parent, parentFound, parentKind⟩, fun above => .up (apart isOne) named above⟩

theorem Tree.climbs_of_directory (tree : Tree upcase files) {directory : Inode (List IndexKey)}
    (place : files newDir = some directory) (kind : directory.kind = .directory)
    (alive : directory.beingDeleted = false) : Climbs files (fun _ => False) newDir := by
  apply tree.reaches newDir directory place (tree.directories newDir directory place kind)
  rw [← namesAt_eq place]
  exact tree.named place alive

/-- The directory that an inode is in is not below the inode. -/
theorem Tree.outside_parent (tree : Tree upcase files) (listed : fn ∈ namesAt files ino) :
    Outside files ino fn.parent := by
  obtain ⟨inode, found, _⟩ := exists_of_mem_namesAt listed
  by_cases isRoot : ino = fileRoot
  · subst isRoot
    exact .inr ⟨rfl, tree.root.2 fn listed⟩
  refine .inl ⟨isRoot, ?_⟩
  obtain ⟨parent, parentFound, parentKind, _, parentNamed, _⟩ := tree.parent listed
  have parentDirectory := tree.directories fn.parent parent parentFound parentKind
  by_cases directory : inode.kind = .directory
  · have record := tree.directories ino inode found directory
    have named := List.ne_nil_of_mem listed
    rw [namesAt_eq found] at named
    rcases (tree.reaches ino inode found record named).above isRoot with onWay | ⟨other, otherListed, climbs⟩
    · exact absurd rfl onWay.free
    · rwa [tree.oneParent found record listed otherListed]
  · exact tree.climbs_past found directory parentFound parentKind
      (tree.reaches fn.parent parent parentFound parentDirectory parentNamed)

/-- What has a name before a move has one after it. -/
theorem Moves.keepsNamed (moves : Moves upcase files after ino oldDir oldName newDir newName fn gone)
    (consistent : Consistent upcase files) {number : Nat} (some_name : namesAt files number ≠ []) :
    namesAt after number ≠ [] := by
  obtain ⟨file, found, _⟩ := moves.file
  obtain ⟨place, removes⟩ := moves.removes
  obtain ⟨first, listed⟩ := List.exists_mem_of_ne_nil _ some_name
  by_cases atFile : number = ino
  · subst atFile
    by_cases apart : newDir ≠ oldDir ∨ newName ≠ oldName
    · exact List.ne_nil_of_mem (moves.listed consistent apart)
    obtain ⟨sameDir, sameName⟩ := not_or.mp apart
    have fresh : (⟨newDir, newName, .posix⟩ : FileName) ∉ namesAt files number :=
      consistent.toAgreeing.fresh moves.fresh .posix
    refine List.ne_nil_of_mem ((removes.names number first).mpr ⟨?_, fun both => ?_⟩)
    · rw [namesAt_addName found, if_pos rfl]
      exact mem_putAt.mpr (.inr listed)
    · rw [moves.idle (not_not.mp sameDir) (not_not.mp sameName), List.mem_singleton] at both
      rw [both.2] at listed
      exact fresh listed
  · refine List.ne_nil_of_mem ((removes.names number first).mpr ⟨?_, fun both => atFile both.1⟩)
    rw [namesAt_addName found, if_neg atFile]
    exact listed

/-- A move of a name that is not one below itself keeps a tree. -/
theorem Tree.moves (tree : Tree upcase files)
    (moves : Moves upcase files after ino oldDir oldName newDir newName fn gone)
    (newKind : ∀ parent, files newDir = some parent → parent.kind = .directory)
    (outside : Outside files ino newDir) : Tree upcase after := by
  obtain ⟨file, found, alive⟩ := moves.file
  obtain ⟨parent, parentFound, parentAlive⟩ := moves.parent
  obtain ⟨place, removes⟩ := moves.removes
  have consistent := moves.consistent
  have parentKind := newKind parent parentFound
  have firstGone := List.mem_of_head? moves.head
  have beforeNames (number : Nat) (name : FileName) (listed : name ∈ namesAt after number) :
      (number = ino ∧ name = ⟨newDir, newName, .posix⟩) ∨ name ∈ namesAt files number := by
    have inBoth := ((removes.names number name).mp listed).1
    rw [namesAt_addName found] at inBoth
    split at inBoth
    · rename_i same
      rcases mem_putAt.mp inBoth with new | old
      · exact .inl ⟨same, new⟩
      · exact .inr (same ▸ old)
    · exact .inr inBoth
  have others (number : Nat) (apart : number ≠ ino) (name : FileName) :
      name ∈ namesAt after number ↔ name ∈ namesAt files number := by
    rw [removes.names, namesAt_addName found, if_neg apart]
    simp [apart]
  have records {number : Nat} {left : Inode (List IndexKey)} (leftFound : after number = some left) :
      ∃ inode, files number = some inode ∧ inode.kind = left.kind ∧ inode.dirRecord = left.dirRecord := by
    have same := removes.frame number
    rw [frame_addName, leftFound, Option.map_some, eq_comm, Option.map_eq_some_iff] at same
    obtain ⟨inode, there, equal⟩ := same
    obtain ⟨kind, record⟩ := Prod.mk.inj equal
    exact ⟨inode, there, kind, record⟩
  have shape : ((⟨newDir, newName, .posix⟩ : FileName) ∈ namesAt after ino ∧
        (file.dirRecord = true → ∀ name ∈ namesAt after ino, name = ⟨newDir, newName, .posix⟩)) ∨
      ∀ name, name ∈ namesAt after ino ↔ name ∈ namesAt files ino := by
    by_cases apart : newDir ≠ oldDir ∨ newName ≠ oldName
    · have added := moves.listed tree.toConsistent apart
      have removed (name : FileName) (listed : name ∈ gone) : name ∈ namesAt files ino := by
        have inBoth := (removes.listed name listed).1
        rw [namesAt_addName found, if_pos rfl] at inBoth
        rcases mem_putAt.mp inBoth with rfl | old
        · exact absurd ⟨rfl, listed⟩ ((removes.names ino _).mp added).2
        · exact old
      refine .inl ⟨added, fun directory name listed => ?_⟩
      rcases beforeNames ino name listed with ⟨_, new⟩ | old
      · exact new
      · exact absurd ⟨rfl, tree.allGone found directory moves.head moves.oneLink removed old⟩
          ((removes.names ino name).mp listed).2
    · obtain ⟨sameDir, sameName⟩ := not_or.mp apart
      have only := moves.idle (not_not.mp sameDir) (not_not.mp sameName)
      refine .inr fun name => ?_
      rw [removes.names, namesAt_addName found, if_pos rfl, mem_putAt, only, List.mem_singleton]
      constructor
      · rintro ⟨new | old, kept⟩
        · exact absurd ⟨rfl, new⟩ kept
        · exact old
      · intro old
        refine ⟨.inr old, fun both => ?_⟩
        rw [both.2] at old
        exact tree.toAgreeing.fresh moves.fresh .posix old
  have keepsNamed {number : Nat} (some_name : namesAt files number ≠ []) : namesAt after number ≠ [] :=
    moves.keepsNamed tree.toConsistent some_name
  refine { consistent with bounded := ?_, directories := ?_, entries := ?_, single := ?_, root := ?_, reaches := ?_ }
  · intro number
    by_cases same : number = ino
    · have length := removes.length
      have before := tree.bounded ino
      have some_gone : 0 < gone.length := List.length_pos_of_mem firstGone
      rw [namesAt_addName found, if_pos rfl, perm_putAt.length_eq, List.length_cons] at length
      rw [same]
      omega
    · have perm := (List.perm_ext_iff_of_nodup (consistent.nodup number) (tree.nodup number)).mpr
        (others number same)
      rw [perm.length_eq]
      exact tree.bounded number
  · intro number left leftFound kind
    obtain ⟨before, there, sameKind, sameRecord⟩ := records leftFound
    rw [← sameRecord]
    exact tree.directories number before there (sameKind.trans kind)
  · intro number left leftFound filled
    obtain ⟨key, listed⟩ := List.exists_mem_of_ne_nil _ filled
    rw [← keysAt_eq leftFound] at listed
    have inNames := (consistent.agree number key.name key.type key.mref).mp listed
    obtain ⟨before, beforeFound, sameKind, _⟩ := records leftFound
    rw [← namesAt_eq leftFound, ← sameKind]
    rcases beforeNames key.mref _ inNames with ⟨_, new⟩ | old
    · obtain ⟨rfl, _⟩ := FileName.mk.inj new
      exact ⟨newKind before beforeFound, keepsNamed (by
        rw [namesAt_eq beforeFound, ← Option.some.inj (parentFound.symm.trans beforeFound), ← namesAt_eq parentFound]
        exact tree.named parentFound parentAlive)⟩
    · obtain ⟨other, there, kind, _, otherNamed, _⟩ := tree.parent old
      cases there.symm.trans beforeFound
      rw [← namesAt_eq there] at otherNamed
      exact ⟨kind, keepsNamed otherNamed⟩
  · intro number left leftFound directory one oneListed other otherListed
    obtain ⟨before, there, _, sameRecord⟩ := records leftFound
    have isDirectory := sameRecord.trans directory
    rw [← namesAt_eq leftFound] at oneListed otherListed
    have linked := tree.single number before there isDirectory
    rw [← namesAt_eq there] at linked
    by_cases same : number = ino
    · subst same
      cases found.symm.trans there
      rcases shape with ⟨_, only⟩ | sameNames
      · rw [only isDirectory one oneListed, only isDirectory other otherListed]
        exact .inl rfl
      · exact linked one ((sameNames one).mp oneListed) other ((sameNames other).mp otherListed)
    · exact linked one ((others number same one).mp oneListed) other ((others number same other).mp otherListed)
  · refine ⟨keepsNamed tree.root.1, fun name listed => ?_⟩
    rcases beforeNames fileRoot name listed with ⟨isIno, rfl⟩ | old
    · rcases outside with ⟨notRoot, _⟩ | ⟨_, isRoot⟩
      · exact absurd isIno.symm notRoot
      · exact isRoot
    · exact tree.root.2 name old
  · intro number left leftFound directory some_name
    have toRoot (outer : Climbs files (fun _ => False) number) : Climbs after (fun _ => False) number := by
      rcases shape with ⟨added, _⟩ | sameNames
      · rcases outside with ⟨_, path⟩ | ⟨isRoot, _⟩
        · have newPath : Climbs after (fun _ => False) newDir := by
            apply path.transfer (fun _ => True) trivial
            · exact fun _ => .root not_false
            · intro place name _ free listed
              exact .inr ⟨trivial, fun above => .up not_false ((others place free name).mpr listed) above⟩
          apply outer.transfer (fun _ => True) trivial
          · exact fun _ => .root not_false
          · intro place name _ _ listed
            by_cases same : place = ino
            · rw [same]
              exact .inl (.up not_false added newPath)
            · exact .inr ⟨trivial, fun above => .up not_false ((others place same name).mpr listed) above⟩
        · apply outer.transfer (fun _ => True) trivial
          · exact fun _ => .root not_false
          · intro place name _ _ listed
            by_cases same : place = ino
            · rw [same, isRoot]
              exact .inl (.root not_false)
            · exact .inr ⟨trivial, fun above => .up not_false ((others place same name).mpr listed) above⟩
      · apply outer.mono
        intro place name listed
        by_cases same : place = ino
        · rw [same] at listed ⊢
          exact (sameNames name).mpr listed
        · exact (others place same name).mpr listed
    obtain ⟨before, there, _, sameRecord⟩ := records leftFound
    apply toRoot
    apply tree.reaches number before there (sameRecord.trans directory)
    rw [← namesAt_eq there]
    rw [← namesAt_eq leftFound] at some_name
    obtain ⟨first, listed⟩ := List.exists_mem_of_ne_nil _ some_name
    by_cases same : number = ino
    · rw [same]
      exact tree.named found alive
    · exact List.ne_nil_of_mem ((others number same first).mp listed)

/-- An inode that is renamed within a directory stays in it. -/
theorem Moves.inside (moves : Moves upcase files after ino newDir oldName newDir newName fn gone)
    (consistent : Consistent upcase files) (before : ∃ name ∈ namesAt files ino, name.parent = newDir) :
    ∃ name ∈ namesAt after ino, name.parent = newDir := by
  by_cases same : newName = oldName
  · obtain ⟨name, listed, here⟩ := before
    obtain ⟨file, found, _⟩ := moves.file
    obtain ⟨place, removes⟩ := moves.removes
    refine ⟨name, (removes.names ino name).mpr ⟨?_, fun both => ?_⟩, here⟩
    · rw [namesAt_addName found, if_pos rfl]
      exact mem_putAt.mpr (.inr listed)
    · rw [moves.idle rfl same, List.mem_singleton] at both
      rw [both.2] at listed
      exact consistent.toAgreeing.fresh moves.fresh .posix listed
  · exact ⟨_, moves.listed consistent (.inr same), rfl⟩

theorem Moves.kind (moves : Moves upcase files after ino oldDir oldName newDir newName fn gone) {number : Nat}
    (before : ∀ inode, files number = some inode → inode.kind = .directory) :
    ∀ inode, after number = some inode → inode.kind = .directory := by
  intro left leftFound
  obtain ⟨place, removes⟩ := moves.removes
  have same := removes.frame number
  rw [frame_addName, leftFound, Option.map_some, eq_comm, Option.map_eq_some_iff] at same
  obtain ⟨inode, there, equal⟩ := same
  rw [← (Prod.mk.inj equal).1]
  exact before inode there

/-- A rename that does not move a directory below itself keeps a tree. -/
theorem Tree.renames (tree : Tree upcase files)
    (renames : Renames upcase files after ino oldDir oldName newDir newName)
    (inside : ∃ name ∈ namesAt files ino, name.parent = oldDir)
    (oldKind : ∀ parent, files oldDir = some parent → parent.kind = .directory)
    (newKind : ∀ parent, files newDir = some parent → parent.kind = .directory)
    (outside : oldDir ≠ newDir → (∃ parent, files newDir = some parent ∧ parent.beingDeleted = false) →
      Outside files ino newDir) : Tree upcase after := by
  have atOld : Outside files ino oldDir := by
    obtain ⟨name, listed, rfl⟩ := inside
    exact tree.outside_parent listed
  have place (alive : ∃ parent, files newDir = some parent ∧ parent.beingDeleted = false) :
      Outside files ino newDir := by
    by_cases same : oldDir = newDir
    · rwa [← same]
    · exact outside same alive
  cases renames with
  | unchanged same => rwa [same]
  | moved moves => exact tree.moves moves newKind (place moves.parent)
  | @replaced target mid fn gone notFile kinds deletes moves =>
    obtain ⟨fn, gone, _, _, head, _, removes, _⟩ :=
      deletes.removes tree.toConsistent (tree.bounded target).le
    obtain ⟨targetListed, targetHere⟩ := removes.listed fn (List.mem_of_head? head)
    have notTarget : newDir ≠ target := by
      rw [← targetHere]
      exact tree.not_parent deletes targetListed
    apply (tree.deletes deletes).moves moves
    · intro parent found
      obtain ⟨before, there, kind, _⟩ := removes.before found
      rw [← kind]
      exact newKind before there
    · have alive : ∃ parent, files newDir = some parent ∧ parent.beingDeleted = false := by
        obtain ⟨parent, found, open_⟩ := moves.parent
        obtain ⟨before, there, _⟩ := removes.before found
        refine ⟨before, there, ?_⟩
        rw [← Bool.not_eq_true, tree.deleted newDir before there, ← namesAt_eq there,
          ← deletes.namesAt_other notTarget]
        exact (tree.deletes deletes).named found open_
      rcases place alive with ⟨notRoot, climbs⟩ | roots
      · exact .inl ⟨notRoot, tree.climbs_afterDeletion deletes climbs notTarget⟩
      · exact .inr roots
  | @changedCase mid fn other gone alsoGone first second =>
    have midTree := tree.moves first oldKind atOld
    obtain ⟨name, listed, here⟩ := first.inside tree.toConsistent inside
    have midPlace : Outside mid ino oldDir := by
      rw [← here]
      exact midTree.outside_parent listed
    have aside : Moves upcase mid after ino oldDir (tmpName oldName) oldDir newName other alsoGone := second
    exact midTree.moves aside (first.kind oldKind) midPlace

end Moving

section Subtree

variable {upcase : Upcase} {inodes : Inodes} {ino : Nat}

theorem not_climbs_root {files : Listing} {dir : Nat} : ¬ Climbs files (· = fileRoot) dir := by
  intro climbs
  induction climbs with
  | root free => exact free rfl
  | up _ _ _ ih => exact ih

theorem isSubdirFrom_outside (tree : Tree upcase (listing inodes)) (fuel : Nat) :
    ∀ cur inode, isSubdirFrom inodes ino fuel cur = .ok false → inodes cur = some inode →
      inode.kind = .directory → inode.fileNames ≠ [] → Climbs (listing inodes) (· = ino) cur := by
  induction fuel with
  | zero =>
    intro cur inode result
    cases result
  | succ fuel ih =>
    intro cur inode result found kind named
    rw [isSubdirFrom] at result
    split at result
    · cases result
    rename_i apart
    split at result
    · rename_i isRoot
      subst isRoot
      exact .root apart
    rename_i inner
    have record := tree.directories cur inode.listed (listing_eq found) kind
    have reaches := tree.reaches cur inode.listed (listing_eq found) record named
    obtain ⟨head, rest, names⟩ := List.exists_cons_of_ne_nil named
    have parent : parentIno inodes cur = some head.parent := by
      rw [parentIno, found, Option.bind_some, names, List.head?_cons, Option.map_some]
    have listed : head ∈ namesAt (listing inodes) cur := by
      rw [namesAt_listing found, names]
      exact List.mem_cons_self ..
    rw [parent] at result
    dsimp only at result
    split at result
    · rename_i selfParent
      rcases reaches.above inner with onWay | ⟨other, otherListed, climbs⟩
      · exact absurd rfl onWay.free
      · rw [tree.oneParent (listing_eq found) record otherListed listed, selfParent] at climbs
        exact absurd rfl climbs.free
    · obtain ⟨above, aboveFound, aboveKind, _, aboveNamed, _⟩ := tree.parent listed
      obtain ⟨original, there, rfl⟩ := Option.map_eq_some_iff.mp aboveFound
      exact .up apart listed (ih head.parent original result there aboveKind aboveNamed)

theorem isSubdir_outside (tree : Tree upcase (listing inodes)) {newDir : Nat} {inode : Inode DirectoryIndex}
    (found : inodes newDir = some inode) (kind : inode.kind = .directory) (named : inode.fileNames ≠ [])
    (result : isSubdir inodes newDir ino = .ok false) : Outside (listing inodes) ino newDir := by
  have climbs := isSubdirFrom_outside tree _ newDir inode result found kind named
  refine .inl ⟨?_, climbs⟩
  rintro rfl
  exact not_climbs_root climbs

end Subtree

end Ttntfs.Vfs
