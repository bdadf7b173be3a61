import Ttntfs.Library.RelativePaths
import Ttntfs.Vfs.LinkTarget
import Ttntfs.Vfs.TreeRuns

/-!
# Links that are absolute on their volume

`readlink` leads such a target back to the root with one step up for each directory above the link.
They are counted from the directory of the first `$FILE_NAME` on, while the caller resolves the
string from the directory that it came through.
-/

namespace Ttntfs.Vfs

open Ttntfs.Ntfs Ttntfs.Library.RelativePaths

/-! ## Strings as paths -/

/-- A part of a path between separators. -/
def component (part : List UInt8) : Component (List UInt8) :=
  if part = [] ∨ part = [0x2e] then .here else if part = [0x2e, 0x2e] then .up else .name part

/-- The components of a string. -/
def components (s : List UInt8) : List (Component (List UInt8)) := (s.splitOn 0x2f).map component

/-- Where a string leads from a directory. One that begins with a separator leads from the root of the host. -/
def resolveTarget (dir : Place (List UInt8)) (s : List UInt8) : Place (List UInt8) :=
  (if s.head? = some 0x2f then ⟨true, 0, []⟩ else dir).walk (components s)

/-- Where a target leads from the root of the volume. -/
def fromVolumeRoot (target : List UInt8) : Place (List UInt8) := (Place.below []).walk (components target)

theorem components_stepUp (n : Nat) (target : List UInt8) :
    components ((List.replicate n stepUp).flatten ++ target) = List.replicate n .up ++ components target := by
  induction n with
  | zero => rfl
  | succ n ih =>
    have shape : (List.replicate (n + 1) stepUp).flatten ++ target =
        [0x2e, 0x2e] ++ 0x2f :: ((List.replicate n stepUp).flatten ++ target) := by
      rw [List.replicate_succ, List.flatten_cons, List.append_assoc]
      rfl
    have first : component [0x2e, 0x2e] = .up := rfl
    rw [shape, components, List.splitOn_append_cons_self_of_not_mem (by decide), List.map_cons, first, ← components,
      ih, List.replicate_succ, List.cons_append]

/-- A target with steps up leads where it leads from the root exactly where there are as many of them as
directories, and it does not begin with a separator for want of them. -/
theorem resolveTarget_iff (names : List (List UInt8)) (n : Nat) (target : List UInt8) :
    resolveTarget (Place.below names) ((List.replicate n stepUp).flatten ++ target) = fromVolumeRoot target ↔
      n = names.length ∧ (n = 0 → target.head? ≠ some 0x2f) := by
  rw [resolveTarget, components_stepUp, fromVolumeRoot]
  by_cases absolute : n = 0 ∧ target.head? = some 0x2f
  · obtain ⟨rfl, slash⟩ := absolute
    refine iff_of_false (fun same => ?_) fun relative => relative.2 rfl slash
    rw [List.replicate_zero, List.flatten_nil, List.nil_append, if_pos slash] at same
    have hosts := congrArg Place.host same
    rw [host_walk, host_walk] at hosts
    cases hosts
  · have relative : ((List.replicate n stepUp).flatten ++ target).head? ≠ some 0x2f := by
      cases n with
      | zero => exact fun slash => absolute ⟨rfl, slash⟩
      | succ n =>
        rw [List.replicate_succ, List.flatten_cons, List.append_assoc]
        exact nofun
    rw [if_neg relative, walk_up_iff]
    exact ⟨fun same => ⟨same, fun none slash => absolute ⟨none, slash⟩⟩, And.left⟩

/-! ## Ways from the root -/

/-- A way from the root to a directory: its names, and the directories on it, the last one first. -/
inductive Way (files : Listing) : List Uname → List Nat → Nat → Prop where
  | root : Way files [] [] fileRoot
  | down {path : List Uname} {above : List Nat} {dir child : Nat} {fn : FileName} {inode : Inode (List IndexKey)}
      (way : Way files path above dir) (found : files child = some inode) (kind : inode.kind = .directory)
      (inner : child ≠ fileRoot) (named : fn ∈ inode.fileNames) (parent : fn.parent = dir) :
      Way files (path ++ [fn.name]) (child :: above) child

section Ways

variable {upcase : Upcase} {files : Listing} {path other : List Uname} {above others : List Nat} {dir : Nat}

theorem Way.length (way : Way files path above dir) : path.length = above.length := by
  induction way with
  | root => rfl
  | down _ _ _ _ _ _ ih => simp [ih]

/-- There is one way to a directory. -/
theorem Way.unique (tree : Tree upcase files) (way : Way files path above dir) (another : Way files other others dir) :
    above = others := by
  induction way generalizing other others with
  | root =>
    cases another with
    | root => rfl
    | down _ _ _ inner => exact absurd rfl inner
  | @down path above dir child fn inode way found kind inner named parent ih =>
    cases another with
    | root => exact absurd rfl inner
    | @down _ others _ _ fn' inode' way' found' kind' _ named' parent' =>
      obtain rfl : inode = inode' := Option.some.inj (found.symm.trans found')
      have record := tree.directories _ inode found kind
      have listed : ∀ fn ∈ inode.fileNames, fn ∈ namesAt files child := fun fn there => by rwa [namesAt_eq found]
      have same := tree.oneParent found record (listed _ named) (listed _ named')
      rw [ih (by rwa [← parent, same, parent'])]

theorem Tree.way_of_climbs (tree : Tree upcase files) {inode : Inode (List IndexKey)}
    (climbs : Climbs files (fun _ => False) dir) (found : files dir = some inode) (kind : inode.kind = .directory) :
    ∃ path above, Way files path above dir := by
  induction climbs generalizing inode with
  | root => exact ⟨[], [], .root⟩
  | @up place fn _ named _ ih =>
    by_cases isRoot : place = fileRoot
    · subst isRoot
      exact ⟨[], [], .root⟩
    · obtain ⟨parent, parentFound, parentKind, -⟩ := tree.parent named
      obtain ⟨path, above, way⟩ := ih parentFound parentKind
      rw [namesAt_eq found] at named
      exact ⟨_, _, .down way found kind isRoot named rfl⟩

theorem Tree.way (tree : Tree upcase files) {ino : Nat} {fn : FileName} (listed : fn ∈ namesAt files ino) :
    ∃ path above, Way files path above fn.parent := by
  obtain ⟨parent, found, kind, record, named, -⟩ := tree.parent listed
  exact tree.way_of_climbs (tree.reaches fn.parent parent found record named) found kind

end Ways

/-! ## Counting the directories above a link -/

section Counting

/-- The directories that are counted until one is not read or not got. -/
def countAbove (visit : Nat → Visit) : List Nat → Nat → Except LinkError Nat
  | [], depth => .ok depth
  | dir :: above, depth =>
    match visit dir with
    | .read => countAbove visit above (depth + 1)
    | .unread => .ok depth
    | .failed code => .error (.iget code)

variable {upcase : Upcase} {inodes : Inodes} {visit : Nat → Visit} {link : Nat} {path : List Uname} {above : List Nat}
  {dir : Nat}

/-- The first parent of a directory is the one before it on its way. -/
theorem Way.parentIno {fn : FileName} {inode : Inode (List IndexKey)} {child : Nat}
    (tree : Tree upcase (listing inodes)) (way : Way (listing inodes) path above dir)
    (found : listing inodes child = some inode) (kind : inode.kind = .directory) (inner : child ≠ fileRoot)
    (named : fn ∈ inode.fileNames) (parent : fn.parent = dir) :
    Vfs.parentIno inodes child = some dir ∧ dir ≠ child := by
  constructor
  · obtain ⟨original, there, rfl⟩ := Option.map_eq_some_iff.mp found
    obtain ⟨head, rest, names⟩ := List.exists_cons_of_ne_nil (List.ne_nil_of_mem named)
    have headNames : original.fileNames = head :: rest := names
    have listed : ∀ other ∈ original.fileNames, other ∈ namesAt (listing inodes) child := fun other held => by
      rwa [namesAt_listing there]
    have record := tree.directories _ original.listed found kind
    have same := tree.oneParent found record (listed head (by rw [headNames]; exact List.mem_cons_self)) (listed fn named)
    rw [Vfs.parentIno, there, Option.bind_some, headNames, List.head?_cons, Option.map_some, same, parent]
  · rintro rfl
    have longer := way.unique tree (.down way found kind inner named parent)
    exact absurd (congrArg List.length longer) (by simp)

/-- From a directory on the loop counts the directories of the way to it, up to its bound. -/
theorem linkDepthFrom_way (tree : Tree upcase (listing inodes)) (way : Way (listing inodes) path above dir)
    (apart : link ∉ above) (fuel depth : Nat) :
    linkDepthFrom inodes visit link fuel dir depth = countAbove visit (above.take fuel) depth := by
  induction fuel generalizing path above dir depth with
  | zero => rfl
  | succ fuel ih =>
    cases way with
    | root => rw [linkDepthFrom, if_pos rfl, List.take_nil, countAbove]
    | @down path above parent _ fn inode way found kind inner named isParent =>
      obtain ⟨above_eq, moves⟩ := way.parentIno tree found kind inner named isParent
      rw [List.mem_cons, not_or] at apart
      have other : dir ≠ link := Ne.symm apart.1
      rw [linkDepthFrom, if_neg inner, List.take_succ_cons, countAbove, linkParent]
      cases visit dir with
      | read =>
        simp only [above_eq, moves, if_false, ne_eq, other, not_false_eq_true, if_true]
        exact ih way apart.2 (depth + 1)
      | unread => rfl
      | failed code => simp only [other, if_false]

/-- Where the count of the directories ends: they are all read up to there, and the next one, if there is
one, is not. -/
def CountEnds (visit : Nat → Visit) (above : List Nat) (n : Nat) : Prop :=
  n ≤ above.length ∧ (∀ dir ∈ above.take n, visit dir = .read) ∧ ∀ dir, above[n]? = some dir → visit dir = .unread

/-- The count fails: a directory is not got behind ones that are read. -/
def CountFails (visit : Nat → Visit) (above : List Nat) : Prop :=
  ∃ n dir code, (∀ dir ∈ above.take n, visit dir = .read) ∧ above[n]? = some dir ∧ visit dir = .failed code

theorem countEnds_zero {dir : Nat} : CountEnds visit (dir :: above) 0 ↔ visit dir = .unread :=
  ⟨fun ends => ends.2.2 dir rfl, fun unread => ⟨Nat.zero_le _, nofun, fun other first => by
    rwa [← Option.some.inj first]⟩⟩

theorem countEnds_succ {dir n : Nat} :
    CountEnds visit (dir :: above) (n + 1) ↔ visit dir = .read ∧ CountEnds visit above n := by
  simp only [CountEnds, List.length_cons, Nat.add_le_add_iff_right, List.take_succ_cons, List.forall_mem_cons,
    List.getElem?_cons_succ]
  exact ⟨fun ⟨short, ⟨first, rest⟩, last⟩ => ⟨first, short, rest, last⟩,
    fun ⟨first, short, rest, last⟩ => ⟨short, ⟨first, rest⟩, last⟩⟩

/-- A count that does not fail ends where `CountEnds` says. -/
theorem countAbove_ends (above : List Nat) (depth k : Nat) :
    countAbove visit above depth = .ok k ↔ ∃ n, k = depth + n ∧ CountEnds visit above n := by
  induction above generalizing depth with
  | nil =>
    constructor
    · intro done
      exact ⟨0, (Except.ok.inj done).symm, le_rfl, nofun, nofun⟩
    · rintro ⟨n, rfl, short, -⟩
      rw [Nat.le_zero.mp short]
      rfl
  | cons dir above ih =>
    rw [countAbove]
    cases first : visit dir with
    | read =>
      rw [ih]
      constructor
      · rintro ⟨n, rfl, ends⟩
        exact ⟨n + 1, by omega, countEnds_succ.mpr ⟨first, ends⟩⟩
      · rintro ⟨n, rfl, ends⟩
        cases n with
        | zero => exact absurd (countEnds_zero.mp ends) (by simp [first])
        | succ n => exact ⟨n, by omega, (countEnds_succ.mp ends).2⟩
    | unread =>
      constructor
      · intro done
        exact ⟨0, (Except.ok.inj done).symm, countEnds_zero.mpr first⟩
      · rintro ⟨n, rfl, ends⟩
        cases n with
        | zero => rfl
        | succ n => exact absurd (countEnds_succ.mp ends).1 (by simp [first])
    | failed code =>
      refine iff_of_false nofun ?_
      rintro ⟨n, rfl, ends⟩
      cases n with
      | zero => exact absurd (countEnds_zero.mp ends) (by simp [first])
      | succ n => exact absurd (countEnds_succ.mp ends).1 (by simp [first])

/-- A count fails where `CountFails` says. -/
theorem countAbove_fails (above : List Nat) (depth : Nat) :
    (∃ error, countAbove visit above depth = .error error) ↔ CountFails visit above := by
  induction above generalizing depth with
  | nil =>
    refine iff_of_false nofun ?_
    rintro ⟨n, dir, code, -, none, -⟩
    cases none
  | cons dir above ih =>
    rw [countAbove]
    cases first : visit dir with
    | read =>
      simp only [ih]
      constructor
      · rintro ⟨n, other, code, read, there, failed⟩
        exact ⟨n + 1, other, code, List.forall_mem_cons.mpr ⟨first, read⟩, there, failed⟩
      · rintro ⟨n, other, code, read, there, failed⟩
        cases n with
        | zero =>
          rw [← Option.some.inj there, first] at failed
          cases failed
        | succ n => exact ⟨n, other, code, (List.forall_mem_cons.mp read).2, there, failed⟩
    | unread =>
      refine iff_of_false nofun ?_
      rintro ⟨n, other, code, read, there, failed⟩
      cases n with
      | zero =>
        rw [← Option.some.inj there, first] at failed
        cases failed
      | succ n => exact absurd (read dir List.mem_cons_self) (by simp [first])
    | failed code => exact iff_of_true ⟨_, rfl⟩ ⟨0, dir, code, nofun, rfl, first⟩

end Counting

/-! ## The promise -/

section Promise

variable (inodes : Inodes) (visit : Nat → Visit) (link : Nat) (target : List UInt8)

/-- What `ntfs_readlink` returns leads from a directory where the target leads from the root. -/
def LeadsToRoot (names : List (List UInt8)) : Prop :=
  ∀ value someMemory bufsize result,
    ntfsReadlink inodes visit link ⟨true, some target, true⟩ value someMemory (some bufsize) = some result →
    result.error = none → resolveTarget (Place.below names) result.buf = fromVolumeRoot target

/-- Where the string leads to the root from a directory of some depth, by the directories above the first
name of the link. The count fails, so that there is no string; or it ends at the depth, and no leading
separator is left without a step up. -/
def CountsDepth (above : List Nat) (depth : Nat) : Prop :=
  visit link ≠ .unread ∧ CountFails visit (above.take (linkGuard - 1)) ∨
    (visit link = .unread → depth = 0) ∧
      (visit link ≠ .unread → CountEnds visit (above.take (linkGuard - 1)) depth) ∧
        (depth = 0 → target.head? ≠ some 0x2f)

variable {inodes visit link target}

/-- The promise is about the string of `link_target`. -/
theorem leadsToRoot_iff {names : List (List UInt8)} :
    LeadsToRoot inodes visit link target names ↔
      ∀ depth, linkDepthFrom inodes visit link linkGuard link 0 = .ok depth →
        depth = names.length ∧ (depth = 0 → target.head? ≠ some 0x2f) := by
  have string (depth : Nat) (counted : linkDepthFrom inodes visit link linkGuard link 0 = .ok depth) :
      linkTarget inodes visit link ⟨true, some target, true⟩ = .ok ((List.replicate depth stepUp).flatten ++ target) := by
    simp only [linkTarget, if_true, counted, Except.map]
  constructor
  · intro leads depth counted
    rw [← resolveTarget_iff]
    refine leads none true ((List.replicate depth stepUp).flatten ++ target).length
      ⟨none, ((List.replicate depth stepUp).flatten ++ target).length, (List.replicate depth stepUp).flatten ++ target⟩
      ?_ rfl
    simp [ntfsReadlink, string depth counted, putTarget]
  · intro counts value someMemory bufsize result read success
    cases counted : linkDepthFrom inodes visit link linkGuard link 0 with
    | error error =>
      have failed : linkTarget inodes visit link ⟨true, some target, true⟩ = .error error := by
        simp only [linkTarget, if_true, counted, Except.map]
      simp only [ntfsReadlink, Bool.not_true, Bool.false_eq_true, if_false, Option.isSome_some, if_true, failed] at read
      rw [← Option.some.inj read] at success
      cases success
    | ok depth =>
      simp only [ntfsReadlink, Bool.not_true, Bool.false_eq_true, if_false, Option.isSome_some, if_true,
        string depth counted] at read
      cases read
      by_cases room : bufsize < ((List.replicate depth stepUp).flatten ++ target).length
      · simp only [putTarget, room, if_true] at success
        cases success
      · simp only [putTarget, room, if_false]
        exact (resolveTarget_iff names depth target).mpr (counts depth counted)

variable {upcase : Upcase} {inode : Inode DirectoryIndex} {fn : FileName} {rest : List FileName} {path : List Uname}
  {above : List Nat} {dir : Nat}

theorem Way.link_apart (way : Way (listing inodes) path above dir) (found : inodes link = some inode)
    (symlink : inode.kind = .symlink) : link ∉ above := by
  induction way with
  | root => exact List.not_mem_nil
  | down _ there kind _ _ _ ih =>
    rw [List.mem_cons, not_or]
    refine ⟨?_, ih⟩
    rintro rfl
    cases there.symm.trans (listing_eq found)
    exact absurd (symlink.symm.trans kind) nofun

theorem Tree.link_inner (tree : Tree upcase (listing inodes)) (found : inodes link = some inode)
    (symlink : inode.kind = .symlink) : link ≠ fileRoot := by
  rintro rfl
  obtain ⟨fn, named⟩ := List.exists_mem_of_ne_nil _ tree.root.1
  obtain ⟨parent, there, kind, -⟩ := tree.parent named
  rw [tree.root.2 fn named, listing_eq found] at there
  cases there
  exact absurd (symlink.symm.trans kind) nofun

variable (visit) in
/-- The loop of a link begins at the directory of its first name. -/
theorem linkDepthFrom_link (tree : Tree upcase (listing inodes)) (found : inodes link = some inode)
    (symlink : inode.kind = .symlink) (names : inode.fileNames = fn :: rest)
    (way : Way (listing inodes) path above fn.parent) :
    (visit link = .unread → linkDepthFrom inodes visit link linkGuard link 0 = .ok 0) ∧
      (visit link ≠ .unread → linkDepthFrom inodes visit link linkGuard link 0 =
        countAbove visit (above.take (linkGuard - 1)) 0) := by
  have inner := tree.link_inner found symlink
  have parent : parentIno inodes link = some fn.parent := by
    rw [parentIno, found, Option.bind_some, names, List.head?_cons, Option.map_some]
  have listed : fn ∈ namesAt (listing inodes) link := by
    rw [namesAt_listing found, names]
    exact List.mem_cons_self
  have moves : fn.parent ≠ link := by
    intro same
    obtain ⟨directory, there, kind, -⟩ := tree.parent listed
    rw [same, listing_eq found] at there
    cases there
    cases symlink.symm.trans kind
  rw [linkGuard, linkDepthFrom, if_neg inner]
  constructor
  · intro unread
    have visited : linkParent inodes visit link link = .ok none := by rw [linkParent, unread]
    rw [visited]
  · intro seen
    have visited : linkParent inodes visit link link = .ok (some fn.parent) := by
      rw [linkParent, parent]
      cases first : visit link with
      | read => rfl
      | unread => exact absurd first seen
      | failed code => exact if_pos rfl
    rw [visited]
    simp only [moves, if_false, ne_eq, not_true]
    exact linkDepthFrom_way tree way (way.link_apart found symlink) 4095 0

/-- A target that is absolute on its volume leads to its place from the directory of every path by which
its link is reached exactly where the count along the first names ends at the depth of that
directory. -/
theorem link_leads_iff (visit : Nat → Visit) (target : List UInt8) (render : Uname → List UInt8) {other : FileName}
    {otherPath : List Uname} {dirs : List Nat} (tree : Tree upcase (listing inodes)) (found : inodes link = some inode)
    (symlink : inode.kind = .symlink) (names : inode.fileNames = fn :: rest) (_reached : other ∈ inode.fileNames)
    (way : Way (listing inodes) otherPath dirs other.parent) :
    ∃ firstPath above, Way (listing inodes) firstPath above fn.parent ∧
      (LeadsToRoot inodes visit link target (otherPath.map render) ↔
        CountsDepth visit link target above dirs.length) := by
  have listed : fn ∈ namesAt (listing inodes) link := by
    rw [namesAt_listing found, names]
    exact List.mem_cons_self
  obtain ⟨firstPath, above, firstWay⟩ := tree.way listed
  refine ⟨firstPath, above, firstWay, ?_⟩
  obtain ⟨unread, seen⟩ := linkDepthFrom_link visit tree found symlink names firstWay
  rw [leadsToRoot_iff, List.length_map, way.length, CountsDepth]
  by_cases first : visit link = .unread
  · rw [unread first]
    constructor
    · intro counts
      have zero := counts 0 rfl
      exact .inr ⟨fun _ => zero.1.symm, absurd first, fun none => zero.2 rfl⟩
    · rintro (⟨readable, -⟩ | ⟨atRoot, -, relative⟩) depth counted
      · exact absurd first readable
      · cases counted
        exact ⟨(atRoot first).symm, fun _ => relative (atRoot first)⟩
  · rw [seen first]
    constructor
    · intro counts
      cases counted : countAbove visit (above.take (linkGuard - 1)) 0 with
      | error error => exact .inl ⟨first, (countAbove_fails _ 0).mp ⟨error, counted⟩⟩
      | ok depth =>
        obtain ⟨same, relative⟩ := counts depth counted
        obtain ⟨n, eq, ends⟩ := (countAbove_ends _ 0 depth).mp counted
        obtain rfl : n = dirs.length := by omega
        exact .inr ⟨fun unread => absurd unread first, fun _ => ends, fun none => relative (same.trans none)⟩
    · rintro (⟨-, fails⟩ | ⟨-, ends, relative⟩) depth counted
      · obtain ⟨error, failed⟩ := (countAbove_fails _ 0).mpr fails
        rw [failed] at counted
        cases counted
      · have ended := (countAbove_ends _ 0 (0 + dirs.length)).mpr ⟨_, rfl, ends first⟩
        rw [counted] at ended
        cases ended
        exact ⟨Nat.zero_add _, fun none => relative (by omega)⟩

/-- Where every inode is read, a target leads to its place through every directory that is as deep as that of
the first name, and not too deep for the loop. -/
theorem countsDepth_read {above dirs : List Nat} (readable : ∀ ino, visit ino = .read)
    (short : above.length < linkGuard) (relative : target.head? ≠ some 0x2f) :
    CountsDepth visit link target above dirs.length ↔ dirs.length = above.length := by
  have whole : above.take (linkGuard - 1) = above := List.take_of_length_le (by omega)
  rw [CountsDepth, whole]
  constructor
  · rintro (⟨-, n, dir, code, -, -, failed⟩ | ⟨-, ends, -⟩)
    · rw [readable] at failed
      cases failed
    · obtain ⟨inside, -, last⟩ := ends (by simp [readable])
      by_contra apart
      have next := last above[dirs.length] (List.getElem?_eq_getElem (by omega))
      rw [readable] at next
      cases next
  · intro same
    refine .inr ⟨by simp [readable], fun _ => ⟨same.le, fun dir _ => readable dir, fun dir there => ?_⟩,
      fun _ => relative⟩
    rw [same, List.getElem?_eq_none le_rfl] at there
    cases there

end Promise

/-- A directory `d` in the root, and a link with the names `d/l` and `a`. -/
def linkedTwice : List (Nat × Inode (List IndexKey)) :=
  [(5, ⟨.directory, true, 1, 1, [⟨5, [46], .win32AndDos⟩],
      [⟨[46], .win32AndDos, 5⟩, ⟨[97], .posix, 66⟩, ⟨[100], .posix, 65⟩], false⟩),
    (65, ⟨.directory, true, 1, 1, [⟨5, [100], .posix⟩], [⟨[108], .posix, 66⟩], false⟩),
    (66, ⟨.symlink, false, 2, 2, [⟨65, [108], .posix⟩, ⟨5, [97], .posix⟩], [], false⟩)]

theorem linkedTwice_sound : Sound asciiUpcase (volumeOf linkedTwice) := sound_volumeOf (by decide)

theorem linkedTwice_tree : Tree asciiUpcase (listing (volumeOf linkedTwice)) where
  toConsistent := linkedTwice_sound.consistent
  bounded := linkedTwice_sound.bounded
  directories := forall_volumeOf (by decide)
  entries := forall_volumeOf (by decide)
  single := forall_volumeOf (by decide)
  root := by decide
  reaches := by
    apply forall_volumeOf
    intro entry listed directory _
    have place : entry.1 = fileRoot ∨ entry.1 = 65 := by
      revert entry
      decide
    rcases place with isRoot | isDir
    · rw [isRoot]
      exact .root not_false
    · rw [isDir]
      have named : (⟨5, [100], .posix⟩ : FileName) ∈ namesAt (listing (volumeOf linkedTwice)) 65 := by decide
      exact .up not_false named (.root not_false)

/-- The bytes of a name of ASCII characters. -/
def asciiName (name : Uname) : List UInt8 := name.map UInt8.ofNat

/-- Through `d` the target `x` of the link leads to the root. -/
theorem link_leads_through_first :
    LeadsToRoot (volumeOf linkedTwice) (fun _ => .read) 66 [0x78] ([[100]].map asciiName) := by
  have way : Way (listing (volumeOf linkedTwice)) ([] ++ [[100]]) [65] 65 := by
    have named : (⟨5, [100], .posix⟩ : FileName) ∈ namesAt (listing (volumeOf linkedTwice)) 65 := by decide
    exact .down .root rfl rfl (by decide) named rfl
  have reached : (⟨65, [108], .posix⟩ : FileName) ∈ [⟨65, [108], .posix⟩, ⟨5, [97], .posix⟩] := List.mem_cons_self
  have toParent : Way (listing (volumeOf linkedTwice)) ([] ++ [[100]]) [65] (FileName.parent ⟨65, [108], .posix⟩) := way
  obtain ⟨_, above, firstWay, leads⟩ := @link_leads_iff (volumeOf linkedTwice) 66 asciiUpcase _ ⟨65, [108], .posix⟩
    [⟨5, [97], .posix⟩] (fun _ => .read) [0x78] asciiName _ _ _ linkedTwice_tree rfl rfl rfl reached toParent
  obtain rfl := way.unique linkedTwice_tree firstWay
  exact leads.mpr ((countsDepth_read (fun _ => rfl) (by decide) (by decide)).mpr rfl)

/-- Through its name in the root the target of the link leads out of the volume. -/
theorem link_leads_out :
    ¬ LeadsToRoot (volumeOf linkedTwice) (fun _ => .read) 66 [0x78] ([].map asciiName) := by
  intro leads
  have counted : linkDepthFrom (volumeOf linkedTwice) (fun _ => .read) 66 linkGuard 66 0 = .ok 1 := rfl
  exact absurd (leadsToRoot_iff.mp leads 1 counted).1 (by decide)

end Ttntfs.Vfs
