import Ttntfs.Ntfs.ReparseIndexKept
import Ttntfs.Ntfs.ReparseWriters
import Ttntfs.Vfs.LinkTarget

/-!
# Symbolic links are read back

`ntfs_symlink` keeps the target in the inode and writes it to the reparse point, from which it is
decoded when the inode is loaded again. A link whose key cannot be added loses its reparse point
while the inode has its target, and it is a plain file from the next load on.
-/

namespace Ttntfs.Vfs

open Ttntfs.Ntfs Ttntfs.Library.CharEncoding

/-- The errors of `ntfs_symlink`: its own, those of the conversion of the target and of the setter
of the reparse point, and those of all other steps. -/
inductive SymlinkError where
  | einval
  | enametoolong
  | conversion (error : NameConversionError)
  | reparse (code : Int)
  | other (code : FailureCode)

/-- What the steps of `ntfs_symlink` do. -/
structure SymlinkCourse where
  /-- there is memory for the units of the target -/
  unicode : Bool
  memory : SetterMemory
  set : SetCourse
  /-- how a step that has nothing to do with the target fails -/
  rest : Option FailureCode

/-- The inode that `ntfs_symlink` makes: the link in memory, and what goes to the volume. -/
structure MadeLink where
  link : LinkInode
  reparse : ReparseState

/-- The setter that a link takes: its target is written for Windows where it can be. -/
def setLinkTarget (wslSymlinks : Bool) (course : SymlinkCourse) (ni : ReparseInode) (target : List UInt16)
    (s : ReparseState) : Int × ReparseState × Option (List UInt8) :=
  if !wslSymlinks && ntfsSymlinkTargetIsWindowsSafe target then
    ntfsReparseSetWinSymlink course.memory course.set ni target s
  else ntfsReparseSetWslSymlink course.memory course.set ni target s

/-- `ntfs_symlink`, the making of the inode. -/
def ntfsSymlinkInode (pathMax : Nat) (wslSymlinks : Bool) (course : SymlinkCourse) (ni : ReparseInode)
    (target : List UInt8) (s : ReparseState) : Except SymlinkError MadeLink :=
  if target = [] then .error .einval
  else if pathMax ≤ target.length then .error .enametoolong
  else
    match ntfsNlstoucs course.unicode target pathMax with
    | .error error => .error (.conversion error)
    | .ok units =>
      let (err, s, link) := setLinkTarget wslSymlinks course ni units s
      if err ≠ 0 then .error (.reparse err)
      else
        match course.rest with
        | some code => .error (.other code)
        -- the flags are taken from the `$FILE_NAME`, which has that of a reparse point
        | none => .ok ⟨⟨true, link, false⟩, { s with flagged := true }⟩

/-- What a load of the inode does. -/
structure LoadCourse where
  /-- `ntfs_attr_readall` -/
  read : Bool
  memory : LoadMemory

/-- The link of an inode that is loaded, by its reparse point; none where it is read outside of its
value. -/
def loadLink (course : LoadCourse) (recallOnOpen dirRecord : Bool) (s : ReparseState) : Option LinkInode :=
  if !s.flagged then some ⟨false, none, false⟩
  else
    match if course.read then s.point else none with
    | none => some ⟨false, none, false⟩
    | some value => (ntfsMakeSymlink course.memory recallOnOpen dirRecord value).map fun load =>
      ⟨load.mode = .lnk, load.target, load.targetVolumeAbs⟩

section RoundTrip

variable {inodes : Inodes} {visit : Nat → Visit} {ino : Nat}

/-- `ntfs_readlink` returns the target into every buffer that has room for it, and the size of the link is
that of the target. -/
structure Returns (inodes : Inodes) (visit : Nat → Visit) (ino : Nat) (link : LinkInode) (target : List UInt8) :
    Prop where
  readlink : ∀ value someMemory bufsize, target.length ≤ bufsize →
    ntfsReadlink inodes visit ino link value someMemory (some bufsize) = some ⟨none, target.length, target⟩
  size : ∀ iSize, linkSize inodes visit ino link iSize = target.length

theorem returns_relative (target : List UInt8) : Returns inodes visit ino ⟨true, some target, false⟩ target where
  readlink value someMemory bufsize room := by
    have fits : ¬ bufsize < target.length := by omega
    simp [ntfsReadlink, linkTarget, putTarget, fits]
  size iSize := by simp [linkSize, linkTarget]

theorem not_returns {link : LinkInode} {target : List UInt8} (plain : link.isLink = false) :
    ¬ Returns inodes visit ino link target := by
  intro returns
  have read := returns.readlink none true target.length le_rfl
  rw [ntfsReadlink, plain] at read
  cases read

/-- Whether a target is written for Windows. -/
def writtenNative (wslSymlinks : Bool) (units : List UInt16) : Bool :=
  !wslSymlinks && ntfsSymlinkTargetIsWindowsSafe units

/-- Whether a target is written for Windows, by its bytes. -/
def targetNative (pathMax : Nat) (wslSymlinks : Bool) (target : List UInt8) : Bool :=
  match ntfsNlstoucs true target pathMax with
  | .error _ => false
  | .ok units => writtenNative wslSymlinks units

/-- The value that is written for a text. -/
def linkValue (native : Bool) (text : List Char) : List UInt8 :=
  if native then winSymlinkValue (utf16Encode text) else wslSymlinkValue (utf8Encode text)

/-- The tag of a link. -/
def linkTag (native : Bool) : Nat := if native then ioReparseTagSymlink else ioReparseTagLxSymlink

theorem reparseTag_linkValue (native : Bool) (text : List Char) : reparseTag (linkValue native text) = linkTag native := by
  cases native
  · exact reparseTag_reparseValue (by decide)
  · exact reparseTag_reparseValue (by decide)

theorem ntfsMakeSymlink_linkValue {native recallOnOpen dirRecord : Bool} {text : List Char} (memory : LoadMemory)
    (notEmpty : text ≠ []) (noNul : (0 : UInt8) ∉ utf8Encode text) (short : (utf8Encode text).length ≤ 4096)
    (safe : native = true → ntfsSymlinkTargetIsWindowsSafe (utf16Encode text) = true) :
    ntfsMakeSymlink memory recallOnOpen dirRecord (linkValue native text) =
      some (linkLoad ((!native || memory.name) && memory.target) (utf8Encode text)) := by
  cases native with
  | true => exact ntfsMakeSymlink_win memory (noNul_of_bytes noNul) ((utf16Encode_length text).trans short) (safe rfl)
  | false => exact ntfsMakeSymlink_wsl memory (utf8Encode_ne_nil notEmpty) noNul (by omega)

/-- A setter of links that succeeds has set the value and the target. -/
theorem setLinkValue_success {memory : SetterMemory} {course : SetCourse} {ni : ReparseInode} {value link : List UInt8}
    {s after : ReparseState} {target : Option (List UInt8)}
    (success : setLinkValue memory course ni value link s = (0, after, target)) :
    (ntfsSetNtfsReparseData course ni value s).1 = 0 ∧ after = (ntfsSetNtfsReparseData course ni value s).2 ∧
      target = some link := by
  unfold setLinkValue at success
  split at success
  · exact absurd (congrArg Prod.fst success) (failure_ne (by decide))
  · split at success
    · exact absurd (congrArg Prod.fst success) (failure_ne (by decide))
    · obtain ⟨none, same, kept⟩ : (ntfsSetNtfsReparseData course ni value s).1 = 0 ∧
          (ntfsSetNtfsReparseData course ni value s).2 = after ∧ _ = target := by
        simpa only [Prod.mk.injEq] using success
      rw [if_pos none] at kept
      exact ⟨none, same.symm, kept.symm⟩

/-- What the setter of a text has done where it succeeds. -/
theorem setLinkTarget_success {wslSymlinks : Bool} {course : SymlinkCourse} {ni : ReparseInode} {text : List Char}
    {s after : ReparseState} {target : Option (List UInt8)} (notEmpty : text ≠ [])
    (noNul : (0 : UInt8) ∉ utf8Encode text)
    (success : setLinkTarget wslSymlinks course ni (utf16Encode text) s = (0, after, target)) :
    (ntfsSetNtfsReparseData course.set ni (linkValue (writtenNative wslSymlinks (utf16Encode text)) text) s).1 = 0 ∧
      after = (ntfsSetNtfsReparseData course.set ni (linkValue (writtenNative wslSymlinks (utf16Encode text)) text) s).2 ∧
      target = some (utf8Encode text) := by
  have converted : ∀ link, ntfsUcstonls course.memory.name (utf16Encode text) none = .ok link → link = utf8Encode text := by
    intro link done
    cases memory : course.memory.name with
    | false =>
      rw [memory] at done
      cases done
    | true =>
      have encoded : ntfsUcstonls true (utf16Encode text) none = .ok (utf8Encode text) :=
        ntfsUcstonls_encode (noNul_of_bytes noNul) notEmpty (fun _ => rfl) nofun
      rw [memory, encoded] at done
      exact (Except.ok.inj done).symm
  have failed : (-reparseEinval, s, (none : Option (List UInt8))) ≠ (0, after, target) := fun same =>
    failure_ne (by decide) (congrArg Prod.fst same)
  unfold setLinkTarget at success
  unfold writtenNative linkValue
  split at success
  · rename_i native
    rw [if_pos native]
    unfold ntfsReparseSetWinSymlink at success
    split at success
    · exact absurd success failed
    · split at success
      · exact absurd success failed
      · rename_i link done
        rw [← converted link done]
        exact setLinkValue_success success
  · rename_i native
    rw [if_neg native]
    unfold ntfsReparseSetWslSymlink at success
    split at success
    · exact absurd success failed
    · rename_i link done
      rw [← converted link done]
      exact setLinkValue_success success

/-- Where a link is read back: its key is added to the index, or the attribute is not taken away for
it; and at the load the attribute is read and there is memory for what is decoded. -/
structure ReadBack (native : Bool) (course : SymlinkCourse) (mref : Nat) (s : ReparseState) (load : LoadCourse) :
    Prop where
  key : course.set.update.room = true ∧ (⟨linkTag native, mref⟩ : ReparseIndexKey) ∉ s.index ∨
    course.set.update.attrRemoved = false
  read : load.read = true
  memory : load.memory.target = true ∧ (native = true → load.memory.name = true)

/-- The inode of a link that `ntfs_symlink` has made. -/
theorem made_of_success {pathMax : Nat} {wslSymlinks : Bool} {course : SymlinkCourse} {ni : ReparseInode}
    {target : List UInt8} {s : ReparseState} {made : MadeLink} (noNul : (0 : UInt8) ∉ target)
    (success : ntfsSymlinkInode pathMax wslSymlinks course ni target s = .ok made) :
    ∃ text units, target = utf8Encode text ∧ ntfsNlstoucs true target pathMax = .ok units ∧ text ≠ [] ∧
      target.length < pathMax ∧ units = utf16Encode text ∧
      (ntfsSetNtfsReparseData course.set ni (linkValue (writtenNative wslSymlinks units) text) s).1 = 0 ∧
      made.link = ⟨true, some target, false⟩ ∧
      made.reparse =
        { (ntfsSetNtfsReparseData course.set ni (linkValue (writtenNative wslSymlinks units) text) s).2 with
          flagged := true } := by
  unfold ntfsSymlinkInode at success
  split at success
  · cases success
  rename_i notEmpty
  split at success
  · cases success
  rename_i short
  split at success
  · cases success
  rename_i units converted
  obtain ⟨memory, text, bytes, rfl, -⟩ := text_of_ntfsNlstoucs noNul converted
  have textNotEmpty : text ≠ [] := by
    rintro rfl
    exact notEmpty bytes
  cases set : setLinkTarget wslSymlinks course ni (utf16Encode text) s with
  | mk err rest =>
    obtain ⟨after, link⟩ := rest
    simp only [set] at success
    split at success
    · cases success
    rename_i none
    obtain rfl : err = 0 := not_not.mp none
    obtain ⟨done, same, kept⟩ := setLinkTarget_success textNotEmpty (bytes ▸ noNul) set
    cases course_rest : course.rest with
    | some code =>
      rw [course_rest] at success
      cases success
    | none =>
      rw [course_rest] at success
      cases success
      exact ⟨text, _, bytes, by rw [← memory, converted], textNotEmpty, not_le.mp short, rfl, done,
        by rw [kept, bytes], by rw [same]⟩

theorem loadLink_gone {load : LoadCourse} {recallOnOpen dirRecord : Bool} {s : ReparseState}
    (gone : s.point = none ∨ load.read = false) :
    loadLink load recallOnOpen dirRecord s = some ⟨false, none, false⟩ := by
  have nothing : (if load.read then s.point else none) = none := by
    rcases gone with gone | gone <;> simp [gone]
  unfold loadLink
  rw [nothing]
  split <;> rfl

/-- A link that `ntfs_symlink` has made returns its target at once, and after a load exactly where it is
read back. -/
theorem symlink_round_trip_iff (inodes : Inodes) (visit : Nat → Visit) (pathMax : Nat) (wslSymlinks : Bool)
    (course : SymlinkCourse) (ni : ReparseInode) (target : List UInt8) (s : ReparseState) (made : MadeLink)
    (load : LoadCourse) (dirRecord : Bool) (small : pathMax ≤ 4096) (fresh : s.point = none)
    (noNul : (0 : UInt8) ∉ target)
    (success : ntfsSymlinkInode pathMax wslSymlinks course ni target s = .ok made) :
    (Returns inodes visit (ni.mref % 2 ^ 48) made.link target ∧
      ∃ back, loadLink load ni.recallOnOpen dirRecord made.reparse = some back ∧
        Returns inodes visit (ni.mref % 2 ^ 48) back target) ↔
      ReadBack (targetNative pathMax wslSymlinks target) course ni.mref s load := by
  obtain ⟨text, units, rfl, converted, notEmpty, short, rfl, done, link, reparse⟩ := made_of_success noNul success
  have native_eq : targetNative pathMax wslSymlinks (utf8Encode text) = writtenNative wslSymlinks (utf16Encode text) := by
    rw [targetNative, converted]
  have safe : writtenNative wslSymlinks (utf16Encode text) = true →
      ntfsSymlinkTargetIsWindowsSafe (utf16Encode text) = true := by
    intro native
    rw [writtenNative, Bool.and_eq_true] at native
    exact native.2
  rw [native_eq]
  generalize writtenNative wslSymlinks (utf16Encode text) = native at done reparse safe
  have atOnce : Returns inodes visit (ni.mref % 2 ^ 48) made.link (utf8Encode text) := by
    rw [link]
    exact returns_relative _
  rw [and_iff_right atOnce]
  have plain (gone : made.reparse.point = none ∨ load.read = false) :
      ¬ ∃ back, loadLink load ni.recallOnOpen dirRecord made.reparse = some back ∧
        Returns inodes visit (ni.mref % 2 ^ 48) back (utf8Encode text) := by
    rintro ⟨back, loaded, returns⟩
    rw [loadLink_gone gone] at loaded
    exact not_returns (by rw [← Option.some.inj loaded]) returns
  obtain ⟨stays, lost⟩ := point_of_success fresh done
  rw [KeyKept, reparseTag_linkValue] at stays lost
  by_cases key : course.set.update.room = true ∧ (⟨linkTag native, ni.mref⟩ : ReparseIndexKey) ∉ s.index ∨
      course.set.update.attrRemoved = false
  case neg => exact iff_of_false (plain (.inl (by rw [reparse]; exact lost key))) fun back => key back.key
  cases read : load.read with
  | false => exact iff_of_false (plain (.inr read)) fun back => by simpa [read] using back.read
  | true =>
    have decoded : ntfsMakeSymlink load.memory ni.recallOnOpen dirRecord (linkValue native text) = _ :=
      ntfsMakeSymlink_linkValue load.memory notEmpty noNul (by omega) safe
    have loaded : loadLink load ni.recallOnOpen dirRecord made.reparse =
        some (if (!native || load.memory.name) && load.memory.target then ⟨true, some (utf8Encode text), false⟩
          else ⟨false, none, false⟩) := by
      have there : made.reparse.point = some (linkValue native text) := by
        rw [reparse]
        exact stays key
      have flagged : made.reparse.flagged = true := by rw [reparse]
      unfold loadLink
      simp only [flagged, Bool.not_true, Bool.false_eq_true, if_false, read, if_true, there, decoded, Option.map_some]
      rw [linkLoad]
      split <;> rfl
    rw [loaded]
    split
    · rename_i memory
      refine iff_of_true ⟨_, rfl, returns_relative _⟩ ⟨key, read, ?_⟩
      simpa [or_iff_not_imp_left, and_comm] using memory
    · rename_i memory
      refine iff_of_false ?_ fun back => memory ?_
      · rintro ⟨back, same, returns⟩
        exact not_returns (by rw [← Option.some.inj same]) returns
      · have := back.memory
        simpa [or_iff_not_imp_left, and_comm] using this

/-- A new inode for a link. -/
def newLink : ReparseInode := ⟨64 + 2 ^ 48, false, false, 3⟩

/-- The making of a link in which nothing fails but, perhaps, the addition of its key. -/
def linkCourse (room : Bool) : SymlinkCourse :=
  ⟨true, ⟨true, true⟩, ⟨true, true, none, ⟨true, ⟨true, true, .removed⟩, none, room, true⟩⟩, none⟩

/-- An inode and an index without reparse points. -/
def noReparse : ReparseState := ⟨none, false, 0, ∅⟩

/-- A load in which nothing fails. -/
def smoothLoad : LoadCourse := ⟨true, ⟨true, true⟩⟩

theorem letter_made (room : Bool) :
    ∃ made, ntfsSymlinkInode 1024 false (linkCourse room) newLink [0x61] noReparse = .ok made := by
  have converted : ntfsNlstoucs true [0x61] 1024 = .ok [0x61] := by
    change ntfsNlstoucs true (utf8Encode ['a']) 1024 = .ok (utf16Encode ['a'])
    exact ntfsNlstoucs_encode (List.forall_mem_singleton.mpr (by decide)) (by decide)
  unfold ntfsSymlinkInode
  rw [if_neg (by decide), if_neg (by decide), show (linkCourse room).unicode = true from rfl, converted]
  cases room <;> exact ⟨_, rfl⟩

/-- A link to `a` is read back, at once and behind a load, where there is room for its key. -/
theorem letter_read_back : ∃ made,
    ntfsSymlinkInode 1024 false (linkCourse true) newLink [0x61] noReparse = .ok made ∧
      Returns (fun _ => none) (fun _ => .read) 64 made.link [0x61] ∧
      ∃ back, loadLink smoothLoad false false made.reparse = some back ∧
        Returns (fun _ => none) (fun _ => .read) 64 back [0x61] := by
  obtain ⟨made, success⟩ := letter_made true
  have back : ReadBack (targetNative 1024 false [0x61]) (linkCourse true) newLink.mref noReparse smoothLoad :=
    ⟨.inl ⟨rfl, Finset.notMem_empty _⟩, rfl, rfl, fun _ => rfl⟩
  exact ⟨made, success, (symlink_round_trip_iff (fun _ => none) (fun _ => .read) 1024 false
    (linkCourse true) newLink [0x61] noReparse made smoothLoad false (by decide) rfl (by decide)
    success).mpr back⟩

/-- Without room for its key a link to `a` is made and is a plain file after the next load. -/
theorem letter_lost : ∃ made, ntfsSymlinkInode 1024 false (linkCourse false) newLink [0x61] noReparse = .ok made ∧
    loadLink smoothLoad false false made.reparse = some ⟨false, none, false⟩ ∧
      ¬ ∃ back, loadLink smoothLoad false false made.reparse = some back ∧
        Returns (fun _ => none) (fun _ => .read) 64 back [0x61] := by
  obtain ⟨made, success⟩ := letter_made false
  obtain ⟨text, units, same, converted, -, -, -, done, -, reparse⟩ := made_of_success (by decide) success
  have gone : made.reparse.point = none := by
    rw [reparse]
    exact (point_of_success rfl done).2 (by simp [KeyKept, linkCourse])
  have loaded : loadLink smoothLoad false false made.reparse = some ⟨false, none, false⟩ := loadLink_gone (.inl gone)
  refine ⟨made, success, loaded, ?_⟩
  rintro ⟨back, there, returns⟩
  rw [loaded] at there
  exact not_returns (by rw [← Option.some.inj there]) returns

end RoundTrip

end Ttntfs.Vfs
