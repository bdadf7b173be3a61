import Ttntfs.Vfs.NameSteps

/-!
# Names that agree

In a consistent volume the entries of the directories and the `$FILE_NAME` attributes of
the files are the same names, each counted once, and a name of the DOS name space comes
with the long name it belongs to. Adding a name and deleting one keep a volume so, and in
a consistent volume a name that was added can be deleted again.
-/

namespace Ttntfs.Vfs

open Ttntfs.Ntfs Ttntfs.Library.StatefulSteps

/-- The names of the DOS name space and the long ones come in pairs, one pair for a file. -/
structure DosPaired (names : List FileName) : Prop where
  partner : ∀ fn ∈ names, fn.type = .dos → ∃ other ∈ names, other.type = .win32 ∧ other.parent = fn.parent
  short : ∀ fn ∈ names, fn.type = .win32 → ∃ other ∈ names, other.type = .dos ∧ other.parent = fn.parent
  oneDos : ∀ fn ∈ names, ∀ other ∈ names, fn.type = .dos → other.type = .dos → fn = other
  oneWin32 : ∀ fn ∈ names, ∀ other ∈ names, fn.type = .win32 → other.type = .win32 → fn = other

/-- The directories and the files have the same names, and the files count them. -/
structure Agreeing (upcase : Upcase) (files : Listing) : Prop where
  sorted : ∀ dir, SortedKeys upcase (keysAt files dir)
  agree : ∀ dir name type ino,
    (⟨name, type, ino⟩ : IndexKey) ∈ keysAt files dir ↔ (⟨dir, name, type⟩ : FileName) ∈ namesAt files ino
  nodup : ∀ ino, (namesAt files ino).Nodup
  count : ∀ ino, countAt files ino = (namesAt files ino).length % 65536
  legal : ∀ ino, ∀ fn ∈ namesAt files ino, fn.type ≠ .posix → LegalName upcase fn.name

/-- A volume whose names are in order. -/
structure Consistent (upcase : Upcase) (files : Listing) : Prop extends Agreeing upcase files where
  paired : ∀ ino, DosPaired (namesAt files ino)
  deleted : ∀ ino inode, files ino = some inode → (inode.beingDeleted = true ↔ inode.fileNames = [])
  nlink : ∀ ino inode, files ino = some inode → inode.kind ≠ .directory →
    inode.nlink = inode.fileNames.length

section Views

variable {α : Type} {upcase : Upcase} {files : Listing} {ino dir place other : Nat} {name : Uname}
  {fn : FileName} {key : IndexKey} {inode parent : Inode (List IndexKey)}

/-- What is read of the inodes after a change of a directory and one of a file, of which
only the first matters. -/
theorem read_first (read : Inode (List IndexKey) → α) (otherwise : α)
    {first second : Inode (List IndexKey) → Inode (List IndexKey)} {change : α → α}
    (changes : ∀ inode, read (first inode) = change (read inode))
    (keeps : ∀ inode, read (second inode) = read inode) (found : files dir = some parent) :
    ((modifyAt (modifyAt files dir first) ino second other).map read).getD otherwise =
      if other = dir then change (((files dir).map read).getD otherwise)
      else ((files other).map read).getD otherwise := by
  by_cases atDir : other = dir <;> by_cases atFile : other = ino
  · subst atDir atFile
    simp [modifyAt, found, changes, keeps]
  · subst atDir
    simp [modifyAt, found, atFile, changes]
  · subst atFile
    simp [modifyAt, atDir, Function.comp_def, keeps]
  · simp [modifyAt, atDir, atFile]

/-- What is read of the inodes after two changes of which only the second matters. -/
theorem read_second (read : Inode (List IndexKey) → α) (otherwise : α)
    {first second : Inode (List IndexKey) → Inode (List IndexKey)} {change : α → α}
    (keeps : ∀ inode, read (first inode) = read inode)
    (changes : ∀ inode, read (second inode) = change (read inode)) (found : files ino = some inode) :
    ((modifyAt (modifyAt files dir first) ino second other).map read).getD otherwise =
      if other = ino then change (((files ino).map read).getD otherwise)
      else ((files other).map read).getD otherwise := by
  by_cases atDir : other = dir <;> by_cases atFile : other = ino
  · subst atDir atFile
    simp [modifyAt, found, changes, keeps]
  · subst atDir
    simp [modifyAt, atFile, Function.comp_def, keeps]
  · subst atFile
    simp [modifyAt, atDir, found, changes]
  · simp [modifyAt, atDir, atFile]

theorem keysAt_addName (found : files dir = some parent) :
    keysAt (addName upcase files ino dir place name) other =
      if other = dir then insertKey upcase ⟨name, .posix, ino⟩ (keysAt files dir) else keysAt files other := by
  refine @read_first _ files ino dir other parent Inode.index [] _ _ (insertKey upcase ⟨name, .posix, ino⟩) (fun _ => rfl) ?_ found
  intro inode
  rw [addLink, Inode.withFileNames]

/-- The names of an inode after one is added. -/
theorem namesAt_addName (found : files ino = some inode) :
    namesAt (addName upcase files ino dir place name) other =
      if other = ino then putAt place ⟨dir, name, .posix⟩ (namesAt files ino) else namesAt files other := by
  refine @read_second _ files ino dir other inode Inode.fileNames [] _ _ (putAt place ⟨dir, name, .posix⟩) (fun _ => rfl) ?_ found
  intro inode
  rw [addLink, Inode.withFileNames]

theorem countAt_addName (found : files ino = some inode) :
    countAt (addName upcase files ino dir place name) other =
      if other = ino then (countAt files ino + 1) % 65536 else countAt files other := by
  refine @read_second _ files ino dir other inode Inode.linkCount 0 _ _ (fun count => (count + 1) % 65536) (fun _ => rfl) ?_ found
  intro inode
  rw [addLink, Inode.withFileNames]

theorem keysAt_dropName (found : files dir = some parent) :
    keysAt (dropName files ino dir fn key) other =
      if other = dir then (keysAt files dir).erase key else keysAt files other := by
  refine @read_first _ files ino dir other parent Inode.index [] _ _ (List.erase · key) (fun _ => rfl) ?_ found
  intro inode
  rw [dropLink, Inode.withFileNames]

theorem namesAt_dropName (found : files ino = some inode) :
    namesAt (dropName files ino dir fn key) other =
      if other = ino then (namesAt files ino).erase fn else namesAt files other := by
  refine @read_second _ files ino dir other inode Inode.fileNames [] _ _ (List.erase · fn) (fun _ => rfl) ?_ found
  intro inode
  rw [dropLink, Inode.withFileNames]

theorem countAt_dropName (found : files ino = some inode) :
    countAt (dropName files ino dir fn key) other =
      if other = ino then (countAt files ino + 65535) % 65536 else countAt files other := by
  refine @read_second _ files ino dir other inode Inode.linkCount 0 _ _ (fun count => (count + 65535) % 65536) (fun _ => rfl) ?_ found
  intro inode
  rw [dropLink, Inode.withFileNames]

theorem read_settleLinks (read : Inode (List IndexKey) → α) (otherwise : α)
    (keeps : ∀ inode, read (settleLinks inode) = read inode) :
    ((modifyAt files ino settleLinks other).map read).getD otherwise =
      ((files other).map read).getD otherwise := by
  by_cases same : other = ino
  · subst same
    simp [modifyAt, Function.comp_def, keeps]
  · rw [modifyAt_other same]

theorem keysAt_settleLinks : keysAt (modifyAt files ino settleLinks) other = keysAt files other :=
  read_settleLinks Inode.index [] fun inode => by
    rw [settleLinks]
    split
    · rfl
    · rfl

theorem namesAt_settleLinks : namesAt (modifyAt files ino settleLinks) other = namesAt files other :=
  read_settleLinks Inode.fileNames [] fun inode => by
    rw [settleLinks]
    split
    · rfl
    · rfl

theorem countAt_settleLinks : countAt (modifyAt files ino settleLinks) other = countAt files other :=
  read_settleLinks Inode.linkCount 0 fun inode => by
    rw [settleLinks]
    split
    · rfl
    · rfl

theorem perm_putAt {x : α} {others : List α} : (putAt place x others).Perm (x :: others) := by
  rw [putAt]
  calc others.take place ++ x :: others.drop place
      |>.Perm (x :: (others.take place ++ others.drop place)) := List.perm_middle
    _ = x :: others := by rw [List.take_append_drop]

theorem mem_putAt {x y : α} {others : List α} : y ∈ putAt place x others ↔ y = x ∨ y ∈ others := by
  rw [perm_putAt.mem_iff, List.mem_cons]

theorem change_eq_some {indexChange : List IndexKey → List IndexKey}
    {second : Inode (List IndexKey) → Inode (List IndexKey)} {after : Inode (List IndexKey)}
    (found : modifyAt (modifyAt files dir fun inode => inode.withIndex (indexChange inode.index)) ino second other =
      some after) :
    ∃ before index, files other = some before ∧
      after = if other = ino then second (before.withIndex index) else before.withIndex index := by
  obtain ⟨mid, midFound, rfl⟩ := modifyAt_eq_some found
  obtain ⟨before, earlier, rfl⟩ := modifyAt_eq_some midFound
  by_cases atDir : other = dir
  · exact ⟨before, indexChange before.index, earlier, by rw [if_pos atDir]⟩
  · exact ⟨before, before.index, earlier, by rw [if_neg atDir]; rfl⟩

theorem dropName_eq_some {after : Inode (List IndexKey)}
    (found : dropName files ino dir fn key other = some after) :
    ∃ before index, files other = some before ∧
      after = if other = ino then dropLink ((before.withIndex index).withFileNames (before.fileNames.erase fn))
        else before.withIndex index :=
  @change_eq_some files ino dir other (fun keys => keys.erase key) _ after found

theorem addLink_nlink (plain : inode.kind ≠ .directory) : (addLink inode).nlink = inode.nlink + 1 := by
  rw [addLink]
  exact if_neg plain

theorem dropLink_nlink (plain : inode.kind ≠ .directory) : (dropLink inode).nlink = inode.nlink - 1 := by
  rw [dropLink]
  exact if_neg plain

theorem settleLinks_nlink (plain : inode.kind ≠ .directory) : (settleLinks inode).nlink = inode.nlink := by
  by_cases none_left : inode.linkCount = 0
  · simp [settleLinks, none_left, plain]
  · simp [settleLinks, none_left]

end Views

section Keeping

variable {upcase : Upcase} {files : Listing} {ino dir place : Nat} {name : Uname} {fn : FileName}
  {inode parent : Inode (List IndexKey)}

theorem Agreeing.fresh (agreeing : Agreeing upcase files)
    (fresh : ∀ key ∈ keysAt files dir, key.name ≠ name) (type : FileNameType) :
    (⟨dir, name, type⟩ : FileName) ∉ namesAt files ino := by
  intro listed
  exact fresh ⟨name, type, ino⟩ ((agreeing.agree dir name type ino).mpr listed) rfl

theorem Agreeing.keyNamed_eq (agreeing : Agreeing upcase files) (listed : fn ∈ namesAt files ino)
    (here : fn.parent = dir) : keyNamed fn.name (keysAt files dir) = some ⟨fn.name, fn.type, ino⟩ := by
  have entry : (⟨fn.name, fn.type, ino⟩ : IndexKey) ∈ keysAt files dir := by
    rw [agreeing.agree, ← here]
    exact listed
  exact keyNamed_of_mem (agreeing.sorted dir) entry

/-- A new name. -/
theorem Agreeing.addName (agreeing : Agreeing upcase files) (found : files ino = some inode)
    (parentFound : files dir = some parent) (fresh : ∀ key ∈ keysAt files dir, key.name ≠ name)
    (text : 0 ∉ name) : Agreeing upcase (addName upcase files ino dir place name) where
  sorted other := by
    rw [keysAt_addName parentFound]
    split
    · exact (agreeing.sorted dir).insert fresh text
    · exact agreeing.sorted other
  agree other otherName type target := by
    rw [keysAt_addName parentFound, namesAt_addName found]
    by_cases atDir : other = dir
    · subst atDir
      rw [if_pos rfl, mem_insertKey, agreeing.agree]
      by_cases atFile : target = ino
      · subst atFile
        rw [if_pos rfl, mem_putAt]
        simp
      · rw [if_neg atFile]
        simp [atFile]
    · rw [if_neg atDir, agreeing.agree]
      by_cases atFile : target = ino
      · subst atFile
        rw [if_pos rfl, mem_putAt]
        simp [atDir]
      · rw [if_neg atFile]
  nodup target := by
    rw [namesAt_addName found]
    split
    · rw [perm_putAt.nodup_iff, List.nodup_cons]
      exact ⟨agreeing.fresh fresh _, agreeing.nodup ino⟩
    · exact agreeing.nodup target
  count target := by
    rw [countAt_addName found, namesAt_addName found]
    split
    · rw [perm_putAt.length_eq, List.length_cons, agreeing.count ino]
      omega
    · exact agreeing.count target
  legal target other listed special := by
    rw [namesAt_addName found] at listed
    split at listed
    · rcases mem_putAt.mp listed with rfl | old
      · exact absurd rfl special
      · exact agreeing.legal ino other old special
    · exact agreeing.legal target other listed special

/-- A name of the POSIX name space beside others. -/
theorem DosPaired.putAt {names : List FileName} (paired : DosPaired names) (posix : fn.type = .posix) :
    DosPaired (putAt place fn names) := by
  have old {other : FileName} (listed : other ∈ Vfs.putAt place fn names) (special : other.type ≠ .posix) :
      other ∈ names := by
    rcases mem_putAt.mp listed with rfl | old
    · exact absurd posix special
    · exact old
  refine ⟨?_, ?_, ?_, ?_⟩
  · intro short listed type
    obtain ⟨other, there, rest⟩ := paired.partner short (old listed (by simp [type])) type
    exact ⟨other, mem_putAt.mpr (.inr there), rest⟩
  · intro long listed type
    obtain ⟨other, there, rest⟩ := paired.short long (old listed (by simp [type])) type
    exact ⟨other, mem_putAt.mpr (.inr there), rest⟩
  · intro first listed second alsoListed type alsoType
    exact paired.oneDos first (old listed (by simp [type])) second (old alsoListed (by simp [alsoType])) type alsoType
  · intro first listed second alsoListed type alsoType
    exact paired.oneWin32 first (old listed (by simp [type])) second (old alsoListed (by simp [alsoType])) type
      alsoType

/-- A new name of a file that is not being deleted. -/
theorem Consistent.addName (consistent : Consistent upcase files) (found : files ino = some inode)
    (alive : inode.beingDeleted = false) (parentFound : files dir = some parent)
    (fresh : ∀ key ∈ keysAt files dir, key.name ≠ name) (text : 0 ∉ name) :
    Consistent upcase (addName upcase files ino dir place name) where
  toAgreeing := consistent.toAgreeing.addName found parentFound fresh text
  paired target := by
    rw [namesAt_addName found]
    split
    · exact (consistent.paired ino).putAt rfl
    · exact consistent.paired target
  deleted target after afterFound := by
    obtain ⟨before, index, beforeFound, rfl⟩ := change_eq_some afterFound
    by_cases atFile : target = ino
    · subst atFile
      obtain rfl : inode = before := Option.some.inj (found.symm.trans beforeFound)
      have filled (others : List FileName) : Vfs.putAt place ⟨dir, name, .posix⟩ others ≠ [] :=
        List.ne_nil_of_mem (mem_putAt.mpr (.inl rfl))
      rw [if_pos rfl]
      simp [addLink, Inode.withFileNames, Inode.withIndex, alive, filled]
    · rw [if_neg atFile]
      exact consistent.deleted target before beforeFound
  nlink target after afterFound := by
    obtain ⟨before, index, beforeFound, rfl⟩ := change_eq_some afterFound
    have same := consistent.nlink target before beforeFound
    by_cases atFile : target = ino
    · rw [if_pos atFile]
      intro plain
      refine (addLink_nlink ?_).trans ?_
      · exact plain
      · change before.nlink + 1 = (Vfs.putAt place ⟨dir, name, .posix⟩ before.fileNames).length
        rw [perm_putAt.length_eq, List.length_cons, same plain]
    · rw [if_neg atFile]
      exact same

/-- A name that goes. -/
theorem Agreeing.dropName (agreeing : Agreeing upcase files) (found : files ino = some inode)
    (parentFound : files dir = some parent) (listed : fn ∈ namesAt files ino) (here : fn.parent = dir) :
    Agreeing upcase (dropName files ino dir fn ⟨fn.name, fn.type, ino⟩) where
  sorted other := by
    rw [keysAt_dropName parentFound]
    split
    · exact (agreeing.sorted dir).erase
    · exact agreeing.sorted other
  agree other otherName type target := by
    rw [keysAt_dropName parentFound, namesAt_dropName found]
    by_cases atDir : other = dir
    · subst atDir
      rw [if_pos rfl, (agreeing.sorted other).mem_erase, agreeing.agree]
      by_cases atFile : target = ino
      · subst atFile
        rw [if_pos rfl, (agreeing.nodup target).mem_erase_iff]
        have same : (⟨other, otherName, type⟩ : FileName) = fn ↔ (⟨otherName, type, target⟩ : IndexKey) =
            ⟨fn.name, fn.type, target⟩ := by
          rw [← here]
          cases fn
          simp
        rw [Ne, Ne, same]
      · rw [if_neg atFile]
        simp [atFile]
    · rw [if_neg atDir, agreeing.agree]
      by_cases atFile : target = ino
      · subst atFile
        rw [if_pos rfl, (agreeing.nodup target).mem_erase_iff]
        have apart : (⟨other, otherName, type⟩ : FileName) ≠ fn := by
          rintro rfl
          exact atDir here
        simp [apart]
      · rw [if_neg atFile]
  nodup target := by
    rw [namesAt_dropName found]
    split
    · exact (agreeing.nodup ino).erase fn
    · exact agreeing.nodup target
  count target := by
    rw [countAt_dropName found, namesAt_dropName found]
    split
    · have some_name : 0 < (namesAt files ino).length := List.length_pos_of_mem listed
      rw [List.length_erase_of_mem listed, agreeing.count ino]
      omega
    · exact agreeing.count target
  legal target other remaining special := by
    rw [namesAt_dropName found] at remaining
    split at remaining
    · exact agreeing.legal ino other (List.mem_of_mem_erase remaining) special
    · exact agreeing.legal target other remaining special

theorem isNameIn_parent {rule : CaseRule} (matching : isNameIn upcase dir name rule fn = true) :
    fn.parent = dir := by
  rw [isNameIn, Bool.and_eq_true, decide_eq_true_iff] at matching
  exact matching.1

/-- What a search for a name to delete finds: a name in the directory, and that of the DOS
name space where there is a pair. -/
theorem searchFileName_found {names : List FileName} {paired : Bool} (pairs : DosPaired names)
    (search : searchFileName upcase names dir name = some (fn, paired)) :
    fn ∈ names ∧ fn.parent = dir ∧ (paired = true ↔ fn.type = .dos) ∧ fn.type ≠ .win32 := by
  rw [searchFileName] at search
  cases first : (names.find? (isNameIn upcase dir name .caseSensitive)).or
      (names.find? (isNameIn upcase dir name .ignoreCase)) with
  | none => simp [first] at search
  | some matching =>
    have there : matching ∈ names ∧ matching.parent = dir := by
      rcases Option.or_eq_some_iff.mp first with exact_match | ⟨_, loose⟩
      · exact ⟨List.mem_of_find?_eq_some exact_match, isNameIn_parent (List.find?_some exact_match)⟩
      · exact ⟨List.mem_of_find?_eq_some loose, isNameIn_parent (List.find?_some loose)⟩
    simp only [first] at search
    cases type : matching.type with
    | posix | win32AndDos =>
      obtain ⟨rfl, rfl⟩ : matching = fn ∧ false = paired := by simpa [type] using search
      exact ⟨there.1, there.2, by simp [type], by simp [type]⟩
    | dos =>
      obtain ⟨rfl, rfl⟩ : matching = fn ∧ true = paired := by simpa [type] using search
      exact ⟨there.1, there.2, by simp [type], by simp [type]⟩
    | win32 =>
      simp only [type, Option.map_eq_some_iff] at search
      obtain ⟨short, found, same⟩ := search
      obtain ⟨rfl, rfl⟩ := Prod.mk.inj same
      have dos : short.type = .dos := by simpa using List.find?_some found
      have listed := List.mem_of_find?_eq_some found
      obtain ⟨other, otherListed, otherType, otherParent⟩ := pairs.short matching there.1 type
      have only := pairs.oneDos short listed other otherListed dos otherType
      exact ⟨listed, by rw [only, otherParent, there.2], by simp [dos], by simp [dos]⟩

/-- The long name is there when its DOS name is gone. -/
theorem partnerOf_erase {names : List FileName} (pairs : DosPaired names) (listed : fn ∈ names)
    (dos : fn.type = .dos) :
    ∃ other, partnerOf (names.erase fn) = some other ∧ other ∈ names ∧ other.type = .win32 ∧
      other.parent = fn.parent ∧ other ≠ fn := by
  obtain ⟨long, longListed, longType, longParent⟩ := pairs.partner fn listed dos
  have apart : long ≠ fn := by
    rintro rfl
    rw [dos] at longType
    cases longType
  have remains : long ∈ names.erase fn := (List.mem_erase_of_ne apart).mpr longListed
  cases found : partnerOf (names.erase fn) with
  | none =>
    rw [partnerOf, List.find?_eq_none] at found
    exact absurd longType (by simpa using found long remains)
  | some other =>
    have type : other.type = .win32 := by simpa using List.find?_some found
    have otherListed := List.mem_of_mem_erase (List.mem_of_find?_eq_some found)
    obtain rfl := pairs.oneWin32 other otherListed long longListed type longType
    exact ⟨other, rfl, longListed, longType, longParent, apart⟩

/-- Some names of a file in a directory are gone, and all else is as it was. -/
structure Removes (files after : Listing) (ino dir : Nat) (gone : List FileName) : Prop where
  listed : ∀ fn ∈ gone, fn ∈ namesAt files ino ∧ fn.parent = dir
  names : ∀ other fn, fn ∈ namesAt after other ↔ fn ∈ namesAt files other ∧ ¬ (other = ino ∧ fn ∈ gone)
  length : (namesAt after ino).length + gone.length = (namesAt files ino).length
  frame : ∀ other, (after other).map (fun inode => (inode.kind, inode.dirRecord)) =
    (files other).map fun inode => (inode.kind, inode.dirRecord)

/-- The names that a deletion removes: one, or one of the DOS name space and its long one. -/
def OneLink (gone : List FileName) : Prop :=
  (∃ fn, gone = [fn] ∧ fn.type ≠ .dos ∧ fn.type ≠ .win32) ∨
    ∃ fn other, gone = [fn, other] ∧ fn ≠ other ∧ fn.type = .dos ∧ other.type = .win32

theorem frame_dropName {key : IndexKey} {other : Nat} :
    (dropName files ino dir fn key other).map (fun inode => (inode.kind, inode.dirRecord)) =
      (files other).map fun inode => (inode.kind, inode.dirRecord) := by
  rw [dropName]
  by_cases atDir : other = dir <;> by_cases atFile : other = ino
  · subst atDir atFile
    simp [modifyAt, Function.comp_def, dropLink, Inode.withFileNames, Inode.withIndex]
  · subst atDir
    simp [modifyAt, atFile, Function.comp_def, Inode.withIndex]
  · subst atFile
    simp [modifyAt, atDir, Function.comp_def, dropLink, Inode.withFileNames]
  · simp [modifyAt, atDir, atFile]

theorem frame_settleLinks {other : Nat} :
    (modifyAt files ino settleLinks other).map (fun inode => (inode.kind, inode.dirRecord)) =
      (files other).map fun inode => (inode.kind, inode.dirRecord) := by
  by_cases same : other = ino
  · subst same
    rw [modifyAt, if_pos rfl, Option.map_map]
    congr 1
    funext inode
    by_cases none_left : inode.linkCount = 0
    · simp [settleLinks, none_left]
    · simp [settleLinks, none_left]
  · rw [modifyAt_other same]

/-- A volume in which the names of one file are being deleted. -/
structure Deleting (upcase : Upcase) (files : Listing) (ino : Nat) : Prop extends Agreeing upcase files where
  deleted : ∀ other inode, files other = some inode → other ≠ ino →
    (inode.beingDeleted = true ↔ inode.fileNames = [])
  nlink : ∀ other inode, files other = some inode → inode.kind ≠ .directory →
    inode.nlink = inode.fileNames.length
  alive : ∀ inode, files ino = some inode → inode.beingDeleted = false

theorem Consistent.deleting (consistent : Consistent upcase files) (listed : fn ∈ namesAt files ino) :
    Deleting upcase files ino where
  toAgreeing := consistent.toAgreeing
  deleted other inode found _ := consistent.deleted other inode found
  nlink := consistent.nlink
  alive inode found := by
    have named : inode.fileNames ≠ [] := by
      rw [namesAt, found] at listed
      exact List.ne_nil_of_mem listed
    rw [← Bool.not_eq_true, consistent.deleted ino inode found]
    exact named

theorem Deleting.dropName (deleting : Deleting upcase files ino) (found : files ino = some inode)
    (parentFound : files dir = some parent) (listed : fn ∈ namesAt files ino) (here : fn.parent = dir) :
    Deleting upcase (dropName files ino dir fn ⟨fn.name, fn.type, ino⟩) ino where
  toAgreeing := deleting.toAgreeing.dropName found parentFound listed here
  deleted other after afterFound apart := by
    obtain ⟨before, index, beforeFound, rfl⟩ := dropName_eq_some afterFound
    rw [if_neg apart]
    exact deleting.deleted other before beforeFound apart
  nlink other after afterFound := by
    obtain ⟨before, index, beforeFound, rfl⟩ := dropName_eq_some afterFound
    have same := deleting.nlink other before beforeFound
    by_cases atFile : other = ino
    · subst atFile
      rw [if_pos rfl]
      intro changed
      have plain : before.kind ≠ .directory := by
        rw [dropLink] at changed
        exact changed
      refine (dropLink_nlink ?_).trans ?_
      · exact plain
      · have named : fn ∈ before.fileNames := by rwa [namesAt, beforeFound] at listed
        change before.nlink - 1 = (before.fileNames.erase fn).length
        rw [List.length_erase_of_mem named, same plain]
    · rw [if_neg atFile]
      exact same
  alive after afterFound := by
    obtain ⟨before, index, beforeFound, rfl⟩ := dropName_eq_some afterFound
    rw [if_pos rfl, dropLink]
    exact deleting.alive before beforeFound

/-- When the names are gone, a file without any is being deleted. -/
theorem Deleting.settle (deleting : Deleting upcase files ino)
    (paired : ∀ other, DosPaired (namesAt files other)) (bounded : (namesAt files ino).length < 65536) :
    Consistent upcase (modifyAt files ino settleLinks) where
  sorted other := by
    rw [keysAt_settleLinks]
    exact deleting.sorted other
  agree other name type target := by
    rw [keysAt_settleLinks, namesAt_settleLinks]
    exact deleting.agree other name type target
  nodup target := by
    rw [namesAt_settleLinks]
    exact deleting.nodup target
  count target := by
    rw [namesAt_settleLinks, countAt_settleLinks]
    exact deleting.count target
  legal target other listed := by
    rw [namesAt_settleLinks] at listed
    exact deleting.legal target other listed
  paired target := by
    rw [namesAt_settleLinks]
    exact paired target
  deleted target after afterFound := by
    obtain ⟨before, beforeFound, rfl⟩ := modifyAt_eq_some afterFound
    by_cases atFile : target = ino
    · subst atFile
      rw [if_pos rfl]
      have alive := deleting.alive before beforeFound
      have counted := deleting.count target
      rw [countAt, namesAt, beforeFound] at counted
      rw [namesAt, beforeFound] at bounded
      simp only [Option.map_some, Option.getD_some] at counted bounded
      rw [Nat.mod_eq_of_lt bounded] at counted
      by_cases none_left : before.linkCount = 0
      · have empty : before.fileNames = [] := List.eq_nil_of_length_eq_zero (by omega)
        simp [settleLinks, none_left, empty]
      · have some_left : before.fileNames ≠ [] := by
          intro empty
          rw [empty] at counted
          exact none_left counted
        simp [settleLinks, none_left, alive, some_left]
    · rw [if_neg atFile]
      exact deleting.deleted target before beforeFound atFile
  nlink target after afterFound := by
    obtain ⟨before, beforeFound, rfl⟩ := modifyAt_eq_some afterFound
    have same := deleting.nlink target before beforeFound
    by_cases atFile : target = ino
    · rw [if_pos atFile]
      have kinds : (settleLinks before).kind = before.kind := by
        by_cases none_left : before.linkCount = 0
        · simp [settleLinks, none_left]
        · simp [settleLinks, none_left]
      have names : (settleLinks before).fileNames = before.fileNames := by
        by_cases none_left : before.linkCount = 0
        · simp [settleLinks, none_left]
        · simp [settleLinks, none_left]
      intro plain
      rw [kinds] at plain
      rw [settleLinks_nlink plain, names, same plain]
    · rw [if_neg atFile]
      exact same

/-- The other names stay paired when one goes that belongs to no pair. -/
theorem DosPaired.erase {names : List FileName} (pairs : DosPaired names) (notDos : fn.type ≠ .dos)
    (notWin32 : fn.type ≠ .win32) : DosPaired (names.erase fn) := by
  have kept {other : FileName} (listed : other ∈ names) (apart : other.type ≠ fn.type) :
      other ∈ names.erase fn := by
    refine (List.mem_erase_of_ne ?_).mpr listed
    rintro rfl
    exact apart rfl
  refine ⟨?_, ?_, ?_, ?_⟩
  · intro short listed type
    obtain ⟨other, there, otherType, parent⟩ := pairs.partner short (List.mem_of_mem_erase listed) type
    exact ⟨other, kept there (by rw [otherType]; exact notWin32.symm), otherType, parent⟩
  · intro long listed type
    obtain ⟨other, there, otherType, parent⟩ := pairs.short long (List.mem_of_mem_erase listed) type
    exact ⟨other, kept there (by rw [otherType]; exact notDos.symm), otherType, parent⟩
  · intro first listed second alsoListed
    exact pairs.oneDos first (List.mem_of_mem_erase listed) second (List.mem_of_mem_erase alsoListed)
  · intro first listed second alsoListed
    exact pairs.oneWin32 first (List.mem_of_mem_erase listed) second (List.mem_of_mem_erase alsoListed)

/-- There is no pair left when it goes. -/
theorem DosPaired.erasePair {names : List FileName} {long : FileName} (pairs : DosPaired names)
    (nodup : names.Nodup) (listed : fn ∈ names) (longListed : long ∈ names) (dos : fn.type = .dos)
    (win32 : long.type = .win32) : DosPaired ((names.erase fn).erase long) := by
  have plain {other : FileName} (remains : other ∈ (names.erase fn).erase long) :
      other.type ≠ .dos ∧ other.type ≠ .win32 := by
    obtain ⟨notLong, rest⟩ := (nodup.erase fn).mem_erase_iff.mp remains
    obtain ⟨notShort, there⟩ := nodup.mem_erase_iff.mp rest
    exact ⟨fun type => notShort (pairs.oneDos other there fn listed type dos),
      fun type => notLong (pairs.oneWin32 other there long longListed type win32)⟩
  refine ⟨?_, ?_, ?_, ?_⟩
  · intro other remains type
    exact absurd type (plain remains).1
  · intro other remains type
    exact absurd type (plain remains).2
  · intro other remains _ _ type
    exact absurd type (plain remains).1
  · intro other remains _ _ type
    exact absurd type (plain remains).2

/-- A directory with an entry is there. -/
theorem exists_of_mem_keysAt {key : IndexKey} (listed : key ∈ keysAt files dir) :
    ∃ parent, files dir = some parent ∧ key ∈ parent.index := by
  cases found : files dir with
  | none => simp [keysAt, found] at listed
  | some parent => exact ⟨parent, rfl, by simpa [keysAt, found] using listed⟩

/-- An inode with a name is there. -/
theorem exists_of_mem_namesAt (listed : fn ∈ namesAt files ino) :
    ∃ inode, files ino = some inode ∧ fn ∈ inode.fileNames := by
  cases found : files ino with
  | none => simp [namesAt, found] at listed
  | some inode => exact ⟨inode, rfl, by simpa [namesAt, found] using listed⟩

/-- What a deletion removes from a consistent volume, and that it keeps it so. -/
theorem Deletes.removes {after : Listing} (deletes : Deletes upcase files ino dir name after)
    (consistent : Consistent upcase files) (bounded : (namesAt files ino).length ≤ 65536) :
    ∃ fn gone paired, searchFileName upcase (namesAt files ino) dir name = some (fn, paired) ∧
      gone.head? = some fn ∧ OneLink gone ∧ Removes files after ino dir gone ∧
      (∃ inode, files ino = some inode ∧ Unlinkable inode fn) ∧ Consistent upcase after := by
  cases deletes with
  | @single fn key search unlinkable known =>
    obtain ⟨listed, here, dos, notWin32⟩ := searchFileName_found (consistent.paired ino) search
    have notDos : fn.type ≠ .dos := by simpa using dos
    rw [consistent.keyNamed_eq listed here, Option.some.injEq] at known
    subst known
    obtain ⟨inode, found, _⟩ := exists_of_mem_namesAt listed
    obtain ⟨parent, parentFound, _⟩ := exists_of_mem_keysAt
      (keyNamed_mem (consistent.keyNamed_eq listed here)).1
    have dropping := (consistent.deleting listed).dropName found parentFound listed here
    have left := List.length_erase_of_mem listed
    have some_name : 0 < (namesAt files ino).length := List.length_pos_of_mem listed
    refine ⟨fn, [fn], false, search, rfl, .inl ⟨fn, rfl, notDos, notWin32⟩, ⟨?_, ?_, ?_, ?_⟩, unlinkable,
      dropping.settle ?_ ?_⟩
    · intro other gone
      obtain rfl : other = fn := by simpa using gone
      exact ⟨listed, here⟩
    · intro other name
      rw [namesAt_settleLinks, namesAt_dropName found]
      by_cases same : other = ino
      · subst same
        rw [if_pos rfl, (consistent.nodup other).mem_erase_iff]
        simp [and_comm]
      · simp [same]
    · rw [namesAt_settleLinks, namesAt_dropName found, if_pos rfl, left, List.length_singleton]
      omega
    · intro other
      rw [frame_settleLinks, frame_dropName]
    · intro other
      rw [namesAt_dropName found]
      split
      · exact (consistent.paired ino).erase notDos notWin32
      · exact consistent.paired other
    · rw [namesAt_dropName found, if_pos rfl, left]
      omega
  | @paired fn long key longKey search unlinkable known partner _ longKnown =>
    obtain ⟨listed, here, dos, _⟩ := searchFileName_found (consistent.paired ino) search
    have isDos : fn.type = .dos := dos.mp rfl
    rw [consistent.keyNamed_eq listed here, Option.some.injEq] at known
    subst known
    obtain ⟨inode, found, _⟩ := exists_of_mem_namesAt listed
    obtain ⟨parent, parentFound, _⟩ := exists_of_mem_keysAt
      (keyNamed_mem (consistent.keyNamed_eq listed here)).1
    have dropping := (consistent.deleting listed).dropName found parentFound listed here
    have remaining := @namesAt_dropName files ino dir ino fn ⟨fn.name, fn.type, ino⟩ inode found
    rw [if_pos rfl] at remaining
    obtain ⟨other, otherFound, longListed, win32, together, apart⟩ :=
      partnerOf_erase (consistent.paired ino) listed isDos
    obtain rfl : other = long := by
      rw [remaining, otherFound] at partner
      exact Option.some.inj partner
    have longLeft : other ∈ namesAt (Vfs.dropName files ino dir fn ⟨fn.name, fn.type, ino⟩) ino := by
      rw [remaining]
      exact (List.mem_erase_of_ne apart).mpr longListed
    have longHere : other.parent = dir := together.trans here
    rw [dropping.keyNamed_eq longLeft longHere, Option.some.injEq] at longKnown
    subst longKnown
    obtain ⟨inodeLeft, foundLeft, _⟩ := exists_of_mem_namesAt longLeft
    obtain ⟨parentLeft, parentFoundLeft, _⟩ := exists_of_mem_keysAt
      (keyNamed_mem (dropping.keyNamed_eq longLeft longHere)).1
    have droppingBoth := dropping.dropName foundLeft parentFoundLeft longLeft longHere
    have names (target : Nat) : namesAt (modifyAt (Vfs.dropName (Vfs.dropName files ino dir fn
        ⟨fn.name, fn.type, ino⟩) ino dir other ⟨other.name, other.type, ino⟩) ino settleLinks) target =
        if target = ino then ((namesAt files ino).erase fn).erase other else namesAt files target := by
      rw [namesAt_settleLinks, namesAt_dropName foundLeft, remaining]
      by_cases same : target = ino
      · rw [if_pos same, if_pos same]
      · rw [if_neg same, if_neg same, namesAt_dropName found, if_neg same]
    have namesLeft (target : Nat) := (namesAt_settleLinks).symm.trans (names target)
    have left : (((namesAt files ino).erase fn).erase other).length + 2 = (namesAt files ino).length := by
      rw [remaining] at longLeft
      have some_name : 0 < ((namesAt files ino).erase fn).length := List.length_pos_of_mem longLeft
      rw [List.length_erase_of_mem longLeft]
      rw [List.length_erase_of_mem listed] at some_name ⊢
      omega
    refine ⟨fn, [fn, other], true, search, rfl, .inr ⟨fn, other, rfl, apart.symm, isDos, win32⟩,
      ⟨?_, ?_, ?_, ?_⟩, unlinkable, droppingBoth.settle ?_ ?_⟩
    · intro name gone
      rcases List.mem_pair.mp gone with rfl | rfl
      · exact ⟨listed, here⟩
      · exact ⟨longListed, longHere⟩
    · intro target name
      rw [names]
      by_cases same : target = ino
      · subst same
        rw [if_pos rfl, ((consistent.nodup target).erase fn).mem_erase_iff,
          (consistent.nodup target).mem_erase_iff, List.mem_pair]
        tauto
      · simp [same]
    · rw [names, if_pos rfl]
      exact left
    · intro target
      rw [frame_settleLinks, frame_dropName, frame_dropName]
    · intro target
      rw [namesLeft]
      split
      · exact (consistent.paired ino).erasePair (consistent.nodup ino) listed longListed isDos win32
      · exact consistent.paired target
    · rw [namesLeft, if_pos rfl]
      omega

/-- A name in a directory can be removed if it has no refused characters and its file is
not a directory with entries and no other name. -/
theorem Agreeing.removable (agreeing : Agreeing upcase files) (listed : fn ∈ namesAt files ino)
    (here : fn.parent = dir) (legal : LegalName upcase fn.name)
    (unlinkable : ∃ inode, files ino = some inode ∧ Unlinkable inode fn) : Removable upcase files ino dir fn where
  unlinkable := unlinkable
  legal := legal
  known := by
    rw [agreeing.keyNamed_eq listed here]
    simp

/-- In a consistent volume a DOS name that is gone leaves a long name that can be removed. -/
theorem FailsSecond.removable {inodes : Inodes} {course : DeleteCourse} {key : IndexKey}
    (fails : FailsSecond upcase course inodes ino dir name fn key)
    (consistent : Consistent upcase (listing inodes)) :
    ∃ other, partnerOf (namesAt (Vfs.dropName (listing inodes) ino dir fn key) ino) = some other ∧
      Removable upcase (Vfs.dropName (listing inodes) ino dir fn key) ino dir other := by
  obtain ⟨listed, here, dos, _⟩ := searchFileName_found (consistent.paired ino) fails.finds.2
  have isDos : fn.type = .dos := dos.mp rfl
  have known := fails.known
  rw [consistent.keyNamed_eq listed here, Option.some.injEq] at known
  subst known
  obtain ⟨inode, found, unlinkable⟩ := fails.takes.passes.unlinkable
  obtain ⟨parent, parentFound, _⟩ := exists_of_mem_keysAt
    (keyNamed_mem (consistent.keyNamed_eq listed here)).1
  have dropping := consistent.toAgreeing.dropName found parentFound listed here
  have remaining := @namesAt_dropName (listing inodes) ino dir ino fn ⟨fn.name, fn.type, ino⟩ inode found
  rw [if_pos rfl] at remaining
  obtain ⟨long, longFound, longListed, win32, together, apart⟩ :=
    partnerOf_erase (consistent.paired ino) listed isDos
  have longLeft : long ∈ namesAt (Vfs.dropName (listing inodes) ino dir fn ⟨fn.name, fn.type, ino⟩) ino := by
    rw [remaining]
    exact (List.mem_erase_of_ne apart).mpr longListed
  refine ⟨long, by rw [remaining]; exact longFound, ?_⟩
  apply dropping.removable longLeft (together.trans here)
  · exact consistent.legal ino long longListed (by rw [win32]; simp)
  obtain ⟨left, leftFound, _⟩ := exists_of_mem_namesAt longLeft
  refine ⟨left, leftFound, ?_⟩
  rcases unlinkable with plain | empty | more
  · have frame := @frame_dropName (listing inodes) ino dir fn ⟨fn.name, fn.type, ino⟩ ino
    rw [leftFound, found, Option.map_some, Option.map_some, Option.some.injEq, Prod.mk.injEq] at frame
    exact .inl (frame.2.trans plain)
  · have keys := @keysAt_dropName (listing inodes) ino dir ino fn ⟨fn.name, fn.type, ino⟩ parent parentFound
    have nothing : keysAt (listing inodes) ino = [] := by
      rw [keysAt, found]
      exact empty
    rw [keysAt, leftFound] at keys
    refine .inr (.inl (keys.trans ?_))
    by_cases same : ino = dir
    · rw [if_pos same, ← same, nothing, List.erase_nil]
    · rw [if_neg same, nothing]
  · have count := @countAt_dropName (listing inodes) ino dir ino fn ⟨fn.name, fn.type, ino⟩ inode found
    rw [if_pos rfl, countAt, leftFound, countAt, found] at count
    simp only [Option.map_some, Option.getD_some] at count
    refine .inr (.inr ?_)
    rintro (one | ⟨_, short⟩)
    · apply more
      rw [one] at count
      refine .inr ⟨?_, isDos⟩
      have small := consistent.count ino
      rw [countAt, found] at small
      simp only [Option.map_some, Option.getD_some] at small
      omega
    · rw [win32] at short
      cases short

/-- In a consistent volume a deletion does not fail in its second round unless a step of it
does. -/
theorem Consistent.second_succeeds {inodes : Inodes} {course : DeleteCourse} {key : IndexKey}
    (consistent : Consistent upcase (listing inodes)) (smooth : course.second.Smooth) :
    ¬ FailsSecond upcase course inodes ino dir name fn key := by
  intro fails
  obtain ⟨other, partner, removable⟩ := fails.removable consistent
  obtain ⟨search, check, indexRemove, attrRm⟩ := smooth
  exact fails.broken search other partner (removable.takes (fun _ _ _ => check) indexRemove) attrRm

end Keeping

end Ttntfs.Vfs
