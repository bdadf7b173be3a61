import Ttntfs.Vfs.SmallVolume

/-!
# Unlinking

`ntfs_vfs_unlink` resolves a name by the lookup, and has `ntfs_delete` look for it once
more among the `$FILE_NAME` attributes of the inode it has found. The two searches have
rules of their own for names that differ in case.
-/

namespace Ttntfs.Vfs

open Ttntfs.Ntfs Ttntfs.Library.StatefulSteps

/-- The entry of a directory at which the lookup of a name ends. -/
def ResolvesTo (policy : NamePolicy) (inodes : Inodes) (dir : Nat) (name : Uname) (key : IndexKey) : Prop :=
  ∃ parent, inodes dir = some parent ∧ key ∈ keysOf parent.index ∧ name.length ≤ ntfsMaxNameLen ∧
    EndsAt name (ntfsLookupInodeByName policy.names parent.index (maxParentVcn - 1) name) key

/-- Two `$FILE_NAME` attributes of one link: the same, or one of the DOS name space and its
long name. -/
def SameLink (fn other : FileName) : Prop :=
  other = fn ∨ (fn.type = .dos ∧ other.type = .win32) ∨ (fn.type = .win32 ∧ other.type = .dos)

instance (fn other : FileName) : Decidable (SameLink fn other) :=
  inferInstanceAs (Decidable (_ ∨ _ ∨ _))

/-- The first `$FILE_NAME` that is the name with regard to case, or without. -/
def firstNamed (upcase : Upcase) (names : List FileName) (dir : Nat) (name : Uname) : Option FileName :=
  (names.find? (isNameIn upcase dir name .caseSensitive)).or (names.find? (isNameIn upcase dir name .ignoreCase))

/-- The link of an entry is gone, and every other name of every directory and file is as it
was. -/
structure RemovesLink (files after : Listing) (dir : Nat) (key : IndexKey) : Prop where
  names : ∀ ino fn, fn ∈ namesAt after ino ↔
    fn ∈ namesAt files ino ∧ ¬ (ino = key.mref ∧ SameLink ⟨dir, key.name, key.type⟩ fn)
  entries : ∀ place other, other ∈ keysAt after place ↔ other ∈ keysAt files place ∧
    ¬ (other.mref = key.mref ∧ SameLink ⟨dir, key.name, key.type⟩ ⟨place, other.name, other.type⟩)

/-- No step of an unlink fails. -/
structure UnlinkCourse.Smooth (course : UnlinkCourse) : Prop where
  lookup : course.lookup = none
  prepare : course.prepare = none
  first : course.delete.first.Smooth
  second : course.delete.second.Smooth

/-- The unlink of a name that is resolved to an entry succeeds, and removes the link of the
entry. -/
def UnlinksResolved (policy : NamePolicy) (code : IndexCode policy.names.upcase) (inodes : Inodes) (dir : Nat)
    (name : Uname) (rmdir : Bool) (key : IndexKey) (course : UnlinkCourse) : Prop :=
  Ends (ntfsVfsUnlink policy code dir name rmdir course) inodes
    (fun _ after => RemovesLink (listing inodes) (listing after) dir key) fun _ _ => False

section Links

variable {names gone : List FileName} {fn first key : FileName} {dir : Nat} {name : Uname} {upcase : Upcase}
  {paired : Bool}

/-- What is one link with a name is one link with any other of it. -/
theorem sameLink_iff (pairs : DosPaired names) (firstListed : first ∈ names) (keyListed : key ∈ names)
    (linked : SameLink key first) (listed : fn ∈ names) : SameLink first fn ↔ SameLink key fn := by
  rcases linked with rfl | ⟨keyDos, firstWin32⟩ | ⟨keyWin32, firstDos⟩
  · rfl
  · constructor
    · rintro (rfl | ⟨dos, _⟩ | ⟨_, dos⟩)
      · exact .inr (.inl ⟨keyDos, firstWin32⟩)
      · rw [firstWin32] at dos
        cases dos
      · exact .inl (pairs.oneDos fn listed key keyListed dos keyDos)
    · rintro (rfl | ⟨_, win32⟩ | ⟨win32, _⟩)
      · exact .inr (.inr ⟨firstWin32, keyDos⟩)
      · exact .inl (pairs.oneWin32 fn listed first firstListed win32 firstWin32)
      · rw [keyDos] at win32
        cases win32
  · constructor
    · rintro (rfl | ⟨_, win32⟩ | ⟨win32, _⟩)
      · exact .inr (.inr ⟨keyWin32, firstDos⟩)
      · exact .inl (pairs.oneWin32 fn listed key keyListed win32 keyWin32)
      · rw [firstDos] at win32
        cases win32
    · rintro (rfl | ⟨dos, _⟩ | ⟨_, dos⟩)
      · exact .inr (.inl ⟨firstDos, keyWin32⟩)
      · rw [keyWin32] at dos
        cases dos
      · exact .inl (pairs.oneDos fn listed first firstListed dos firstDos)

theorem SameLink.symm (linked : SameLink key fn) : SameLink fn key := by
  rcases linked with rfl | ⟨dos, win32⟩ | ⟨win32, dos⟩
  · exact .inl rfl
  · exact .inr (.inr ⟨win32, dos⟩)
  · exact .inr (.inl ⟨dos, win32⟩)

/-- The names that a deletion removes are one link. -/
theorem mem_gone_iff (pairs : DosPaired names) (head : gone.head? = some fn) (oneLink : OneLink gone)
    (removed : ∀ fn ∈ gone, fn ∈ names) {other : FileName} (listed : other ∈ names) :
    other ∈ gone ↔ SameLink fn other := by
  rcases oneLink with ⟨only, rfl, notDos, notWin32⟩ | ⟨short, long, rfl, _, dos, win32⟩
  · obtain rfl : only = fn := by simpa using head
    simp [SameLink, notDos, notWin32]
  obtain rfl : short = fn := by simpa using head
  rw [List.mem_pair]
  constructor
  · rintro (rfl | rfl)
    · exact .inl rfl
    · exact .inr (.inl ⟨dos, win32⟩)
  · rintro (same | ⟨_, otherWin32⟩ | ⟨other_win32, _⟩)
    · exact .inl same
    · exact .inr (pairs.oneWin32 other listed long (removed long (by simp)) otherWin32 win32)
    · rw [dos] at other_win32
      cases other_win32

theorem firstNamed_mem (found : firstNamed upcase names dir name = some fn) : fn ∈ names := by
  rcases Option.or_eq_some_iff.mp found with exact_match | ⟨_, loose⟩
  · exact List.mem_of_find?_eq_some exact_match
  · exact List.mem_of_find?_eq_some loose

/-- The search of a deletion ends at the first name that matches, or at its DOS name. -/
theorem searchFileName_firstNamed (pairs : DosPaired names) :
    (∀ first, firstNamed upcase names dir name = some first →
      ∃ fn paired, searchFileName upcase names dir name = some (fn, paired) ∧ SameLink first fn) ∧
    (firstNamed upcase names dir name = none → searchFileName upcase names dir name = none) := by
  refine ⟨?_, ?_⟩
  · intro first found
    have listed := firstNamed_mem found
    rw [firstNamed] at found
    rw [searchFileName, found]
    dsimp only
    cases type : first.type with
    | posix => exact ⟨first, false, rfl, .inl rfl⟩
    | win32AndDos => exact ⟨first, false, rfl, .inl rfl⟩
    | dos => exact ⟨first, true, rfl, .inl rfl⟩
    | win32 =>
      obtain ⟨short, shortListed, dos, _⟩ := pairs.short first listed type
      cases shortFound : names.find? fun other => decide (other.type = .dos) with
      | none => exact absurd dos (by simpa using List.find?_eq_none.mp shortFound short shortListed)
      | some other =>
        have otherDos : other.type = .dos := by simpa using List.find?_some shortFound
        exact ⟨other, true, rfl, .inr (.inr ⟨type, otherDos⟩)⟩
  · intro nothing
    rw [firstNamed] at nothing
    rw [searchFileName, nothing]

end Links

section Unlink

variable {policy : NamePolicy} {code : IndexCode policy.names.upcase} {inodes : Inodes} {dir : Nat}
  {name : Uname} {rmdir : Bool} {course : UnlinkCourse} {key : IndexKey} {file : Inode DirectoryIndex}

theorem ResolvesTo.resolves (resolvesTo : ResolvesTo policy inodes dir name key) :
    Resolves policy inodes dir name key.mref := by
  obtain ⟨parent, found, _, short, mref, _⟩ := resolvesTo
  refine ⟨parent, found, ?_⟩
  rw [lookupIno, if_neg (by omega), mref]

/-- A name that is resolved is resolved to an entry. -/
theorem Resolves.exists_entry {ino : Nat} (sound : Sound policy.names.upcase inodes)
    (resolves : Resolves policy inodes dir name ino) : ∃ key, key.mref = ino ∧ ResolvesTo policy inodes dir name key := by
  obtain ⟨parent, found, result⟩ := resolves
  rw [lookupIno] at result
  split at result
  · cases result
  rename_i short
  cases run : (ntfsLookupInodeByName policy.names parent.index (maxParentVcn - 1) name).mref with
  | error error =>
    rw [run] at result
    cases error with
    | enoent => cases result
    | eio => cases result
  | ok number =>
    rw [run] at result
    obtain rfl : number = ino := Except.ok.inj result
    have inOrder := sound.inOrder dir parent found
    obtain ⟨key, listed, ends⟩ := lookup_endsAt inOrder.index run
    refine ⟨key, ?_, parent, found, listed, by omega, ends⟩
    exact (Except.ok.inj (run.symm.trans ends.1)).symm

/-- `ntfs_vfs_unlink` deletes the name from the inode that it is resolved to. -/
theorem ntfsVfsUnlink_ends (inOrder : IndexesInOrder policy.names.upcase inodes) :
    Ends (ntfsVfsUnlink policy code dir name rmdir course) inodes
      (fun _ after => ∃ ino inode, Resolves policy inodes dir name ino ∧ inodes ino = some inode ∧
        (rmdir = true ↔ inode.kind = .directory) ∧
        Deletes policy.names.upcase (listing inodes) ino dir name (listing after) ∧
        (∀ fn paired, searchFileName policy.names.upcase (namesAt (listing inodes) ino) dir name = some (fn, paired) →
          LegalName policy.names.upcase fn.name) ∧
        IndexesInOrder policy.names.upcase after)
      (fun _ after => course.Smooth → ∀ ino inode, Resolves policy inodes dir name ino → inodes ino = some inode →
        (rmdir = true ↔ inode.kind = .directory) →
        FailsFirst policy.names.upcase course.delete.first inodes ino dir name after ∨
          ∃ fn key, FailsSecond policy.names.upcase course.delete inodes ino dir name fn key) := by
  apply Ends.bind
  apply ntfsVfsLookup_ends.imp
  · rintro ino _ ⟨rfl, _, resolves, _⟩
    apply Ends.bind
    apply getInode_ends.imp
    · rintro inode _ ⟨rfl, found⟩
      have isThis {P : Prop} (reason : (rmdir = true ↔ inode.kind = .directory) → P) (other : Nat)
          (file : Inode DirectoryIndex) (also_ : Resolves policy inodes dir name other)
          (there : inodes other = some file) (fits : rmdir = true ↔ file.kind = .directory) : P := by
        obtain rfl := resolves.unique also_
        cases found.symm.trans there
        exact reason fits
      by_cases notDirectory : rmdir = true ∧ inode.kind ≠ .directory
      · rw [if_pos notDirectory]
        intro _ other another also_ there fits
        exact isThis (fun this => absurd (this.mp notDirectory.1) notDirectory.2) other another also_ there fits
      rw [if_neg notDirectory]
      by_cases isDirectory : rmdir = false ∧ inode.kind = .directory
      · rw [if_pos isDirectory]
        intro _ other another also_ there fits
        refine isThis (fun this => ?_) other another also_ there fits
        have wrong := this.mpr isDirectory.2
        rw [isDirectory.1] at wrong
        cases wrong
      · rw [if_neg isDirectory]
        have fits : rmdir = true ↔ inode.kind = .directory := by
          cases rmdir with
          | true => simpa using notDirectory
          | false => simpa using isDirectory
        apply Ends.bind
        apply failing_ends.imp
        · rintro _ _ ⟨rfl, _⟩
          apply (ntfsDelete_ends inOrder).imp
          · rintro _ after ⟨deletes, order, fn, paired, finds, takes⟩
            refine ⟨ino, inode, resolves, found, fits, deletes, fun other otherPaired search => ?_, order⟩
            obtain ⟨rfl, _⟩ := Prod.mk.inj (Option.some.inj (finds.2.symm.trans search))
            exact takes.legal
          · rintro _ after fails _ other another also_ there _
            obtain rfl := resolves.unique also_
            exact fails
        · rintro _ _ ⟨rfl, broken⟩ smooth
          exact absurd smooth.prepare broken
    · rintro _ _ ⟨rfl, missing⟩ _ other another also_ there
      rw [← resolves.unique also_, missing] at there
      cases there
  · rintro _ _ ⟨rfl, reason⟩ smooth other another also_ there
    rcases reason with broken | ⟨_, nowhere, _⟩
    · rw [smooth.lookup] at broken
      cases broken
    · rw [(nowhere other also_).1] at there
      cases there

theorem legal_of_sameLink {upcase : Upcase} {files : Listing} {fn : FileName} (agreeing : Agreeing upcase files)
    (listed : fn ∈ namesAt files key.mref) (linked : SameLink ⟨dir, key.name, key.type⟩ fn)
    (legal : LegalName upcase key.name) : LegalName upcase fn.name := by
  by_cases posix : fn.type = .posix
  · rcases linked with rfl | ⟨_, win32⟩ | ⟨_, dos⟩
    · exact legal
    · rw [posix] at win32
      cases win32
    · rw [posix] at dos
      cases dos
  · exact agreeing.legal key.mref fn listed posix

/-- When the link of an entry is gone from its file, its entries are gone from the
directories. -/
theorem removesLink_of_names {upcase : Upcase} {files after : Listing} (agreeing : Agreeing upcase files)
    (afterAgreeing : Agreeing upcase after) (names : ∀ ino fn, fn ∈ namesAt after ino ↔
      fn ∈ namesAt files ino ∧ ¬ (ino = key.mref ∧ SameLink ⟨dir, key.name, key.type⟩ fn)) :
    RemovesLink files after dir key where
  names := names
  entries place other := by
    have before := agreeing.agree place other.name other.type other.mref
    have behind := afterAgreeing.agree place other.name other.type other.mref
    calc other ∈ keysAt after place
        ↔ (⟨place, other.name, other.type⟩ : FileName) ∈ namesAt after other.mref := behind
      _ ↔ _ := by rw [names, ← before]

/-- Without failures the unlink of a name removes the link of the entry that the lookup
resolves it to, just when the name of the entry has no characters that the collation
refuses, and the first `$FILE_NAME` of the inode that `ntfs_delete` takes for the name is of
that link. -/
theorem unlink_resolved_iff (sound : Sound policy.names.upcase inodes)
    (resolvesTo : ResolvesTo policy inodes dir name key) (found : inodes key.mref = some file)
    (fits : rmdir = true ↔ file.kind = .directory) (empty : file.dirRecord = true → keysOf file.index = [])
    (smooth : course.Smooth) :
    UnlinksResolved policy code inodes dir name rmdir key course ↔
      LegalName policy.names.upcase key.name ∧
        ∃ first, firstNamed policy.names.upcase (namesAt (listing inodes) key.mref) dir name = some first ∧
          SameLink ⟨dir, key.name, key.type⟩ first := by
  have pairs := sound.consistent.paired key.mref
  have keyListed : (⟨dir, key.name, key.type⟩ : FileName) ∈ namesAt (listing inodes) key.mref := by
    obtain ⟨parent, parentFound, listed, _⟩ := resolvesTo
    rw [← sound.consistent.agree, keysAt_listing parentFound]
    exact listed
  constructor
  · intro unlinks
    obtain ⟨_, after, run, removed⟩ := Ends.succeeds unlinks fun _ _ impossible => impossible
    obtain ⟨ino, _, resolves, _, _, deletes, legal, _⟩ := (ntfsVfsUnlink_ends sound.inOrder).ok run
    obtain rfl := resolves.unique resolvesTo.resolves
    obtain ⟨fn, gone, paired, search, head, oneLink, removes, _⟩ :=
      deletes.removes sound.consistent (sound.bounded _).le
    have firstGone := List.mem_of_head? head
    have listed := (removes.listed fn firstGone).1
    have linked : SameLink ⟨dir, key.name, key.type⟩ fn := by
      by_contra apart
      have kept := (removed.names key.mref fn).mpr ⟨listed, fun both => apart both.2⟩
      exact ((removes.names key.mref fn).mp kept).2 ⟨rfl, firstGone⟩
    obtain ⟨reaches, nothing⟩ := @searchFileName_firstNamed _ dir name policy.names.upcase pairs
    refine ⟨?_, ?_⟩
    · by_cases posix : key.type = .posix
      · have same : fn = ⟨dir, key.name, key.type⟩ := by
          rcases linked with same | ⟨dos, _⟩ | ⟨win32, _⟩
          · exact same
          · simp [posix] at dos
          · simp [posix] at win32
        have fnLegal := legal fn paired search
        rwa [same] at fnLegal
      · exact sound.consistent.legal key.mref _ keyListed posix
    · cases first : firstNamed policy.names.upcase (namesAt (listing inodes) key.mref) dir name with
      | none =>
        rw [nothing first] at search
        cases search
      | some matching =>
        obtain ⟨other, otherPaired, otherSearch, otherLinked⟩ := reaches matching first
        obtain ⟨rfl, _⟩ := Prod.mk.inj (Option.some.inj (otherSearch.symm.trans search))
        exact ⟨matching, rfl,
          (sameLink_iff pairs listed keyListed linked (firstNamed_mem first)).mp otherLinked.symm⟩
  · rintro ⟨legal, matching, first, matchingLinked⟩
    obtain ⟨reaches, _⟩ := @searchFileName_firstNamed _ dir name policy.names.upcase pairs
    obtain ⟨target, targetPaired, targetSearch, targetLinked⟩ := reaches matching first
    obtain ⟨targetListed, targetHere, _⟩ := searchFileName_found pairs targetSearch
    have linked : SameLink ⟨dir, key.name, key.type⟩ target :=
      (sameLink_iff pairs (firstNamed_mem first) keyListed matchingLinked targetListed).mp targetLinked
    apply (ntfsVfsUnlink_ends sound.inOrder).imp
    · rintro _ after ⟨ino, _, resolves, _, _, deletes, _, _⟩
      obtain rfl := resolves.unique resolvesTo.resolves
      obtain ⟨fn, gone, paired, search, head, oneLink, removes, _, afterConsistent⟩ :=
        deletes.removes sound.consistent (sound.bounded _).le
      obtain ⟨rfl, _⟩ := Prod.mk.inj (Option.some.inj (targetSearch.symm.trans search))
      apply removesLink_of_names sound.consistent.toAgreeing afterConsistent.toAgreeing
      intro other name
      rw [removes.names]
      by_cases same : other = key.mref
      · subst same
        refine and_congr_right fun listed => ?_
        rw [mem_gone_iff pairs head oneLink (fun fn there => (removes.listed fn there).1) listed,
          sameLink_iff pairs targetListed keyListed linked listed]
      · simp [same]
    · intro _ after fails
      rcases fails smooth key.mref file resolvesTo.resolves found fits with first | ⟨fn, other, second⟩
      · obtain ⟨searched, check, indexRemove, attrRm⟩ := smooth.first
        refine first.broken ⟨target, targetPaired, ⟨searched, targetSearch⟩, ?_⟩ attrRm
        refine Removable.takes ?_ (fun _ _ _ => check) indexRemove
        apply sound.consistent.removable targetListed targetHere
        · exact legal_of_sameLink sound.consistent.toAgreeing targetListed linked legal
        · refine ⟨file.listed, listing_eq found, ?_⟩
          cases record : file.dirRecord with
          | false => exact .inl record
          | true => exact .inr (.inl (empty record))
      · exact sound.consistent.second_succeeds smooth.second second

end Unlink

/-- A root directory with the file `a`. -/
def oneFile : List (Nat × Inode (List IndexKey)) :=
  [(5, ⟨.directory, true, 1, 1, [⟨5, [46], .win32AndDos⟩], [⟨[46], .win32AndDos, 5⟩, ⟨[97], .posix, 64⟩], false⟩),
    (64, ⟨.regular, false, 1, 1, [⟨5, [97], .posix⟩], [], false⟩)]

theorem oneFile_sound : Sound asciiUpcase (volumeOf oneFile) := sound_volumeOf (by decide)

/-- An unlink in which no step fails. -/
def smoothUnlink : UnlinkCourse := ⟨none, none, none, smoothDelete⟩

theorem smoothUnlink_smooth : smoothUnlink.Smooth := ⟨rfl, rfl, ⟨rfl, rfl, rfl, rfl⟩, ⟨rfl, rfl, rfl, rfl⟩⟩

/-- The file is unlinked by its own name. -/
theorem unlink_resolved_iff_exact :
    UnlinksResolved ignoringCase (rootCode asciiUpcase) (volumeOf oneFile) 5 [97] false ⟨[97], .posix, 64⟩
      smoothUnlink := by
  have resolvesTo : ResolvesTo ignoringCase (volumeOf oneFile) 5 [97] ⟨[97], .posix, 64⟩ :=
    ⟨_, rfl, by decide, by decide, rfl, .inl ⟨rfl, rfl, by decide⟩⟩
  refine (unlink_resolved_iff oneFile_sound resolvesTo rfl (by decide) (by decide) smoothUnlink_smooth).mpr ?_
  exact ⟨by decide, ⟨5, [97], .posix⟩, by decide, .inl rfl⟩

/-- On a volume that is not case sensitive the lookup of `A` ends at the entry `a`, which is not
removed by the unlink of `A`. -/
theorem unlink_other_case_fails :
    Sound asciiUpcase (volumeOf oneFile) ∧
      ResolvesTo ignoringCase (volumeOf oneFile) 5 [65] ⟨[97], .posix, 64⟩ ∧ smoothUnlink.Smooth ∧
      ¬ UnlinksResolved ignoringCase (rootCode asciiUpcase) (volumeOf oneFile) 5 [65] false ⟨[97], .posix, 64⟩
        smoothUnlink := by
  refine ⟨oneFile_sound, ⟨_, rfl, by decide, by decide, rfl, .inr rfl⟩, smoothUnlink_smooth, ?_⟩
  intro unlinks
  have fails : (match ntfsVfsUnlink ignoringCase (rootCode asciiUpcase) 5 [65] false smoothUnlink
      (volumeOf oneFile) with
    | .ok _ _ => none
    | .error error _ => some error) = some .enoent := by
    decide
  obtain ⟨_, after, run, _⟩ := Ends.succeeds unlinks fun _ _ impossible => impossible
  rw [run] at fails
  cases fails

end Ttntfs.Vfs
