import Ttntfs.Vfs.NameCalls
import Ttntfs.Vfs.NameConsistency

/-!
# Resolving names

The calls resolve a name by a lookup in the index of its directory, which changes nothing.
-/

namespace Ttntfs.Vfs

open Ttntfs.Ntfs Ttntfs.Library.StatefulSteps

/-- A volume whose indexes and names are in order, whose files have no more names than their
mft records can count, and whose directories have the records of directories. -/
structure Sound (upcase : Upcase) (inodes : Inodes) : Prop where
  inOrder : IndexesInOrder upcase inodes
  consistent : Consistent upcase (listing inodes)
  bounded : ∀ ino, (namesAt (listing inodes) ino).length < 65536
  directories : ∀ ino inode, inodes ino = some inode → inode.kind = .directory → inode.dirRecord = true

/-- A name leads from a directory to an inode number. -/
def Resolves (policy : NamePolicy) (inodes : Inodes) (dir : Nat) (name : Uname) (ino : Nat) : Prop :=
  ∃ parent, inodes dir = some parent ∧ lookupIno policy parent.index name = .ok ino

/-- There is no entry that a name leads to. -/
def Absent (policy : NamePolicy) (inodes : Inodes) (dir : Nat) (name : Uname) : Prop :=
  ∃ parent, inodes dir = some parent ∧ lookupIno policy parent.index name = .error .enoent

section Lookup

variable {policy : NamePolicy} {inodes : Inodes} {dir ino other : Nat} {name : Uname}
  {fault : Option NameError}

theorem Resolves.unique (resolves : Resolves policy inodes dir name ino)
    (also_ : Resolves policy inodes dir name other) : ino = other := by
  obtain ⟨parent, found, result⟩ := resolves
  obtain ⟨_, foundAgain, resultAgain⟩ := also_
  cases found.symm.trans foundAgain
  exact Except.ok.inj (result.symm.trans resultAgain)

theorem Absent.not_resolves (absent : Absent policy inodes dir name) :
    ¬ Resolves policy inodes dir name ino := by
  rintro ⟨parent, found, result⟩
  obtain ⟨_, foundAgain, nothing⟩ := absent
  cases found.symm.trans foundAgain
  rw [nothing] at result
  cases result

theorem getInode_reads :
    Ends (getInode ino) inodes (fun inode after => inodes = after ∧ inodes ino = some inode)
      (fun error after => inodes = after ∧ inodes ino = none ∧ error = .eio) := by
  rw [Ends, getInode, get_bind]
  cases found : inodes ino with
  | some inode => exact ⟨rfl, rfl⟩
  | none => exact ⟨rfl, rfl, rfl⟩

/-- `ntfs_vfs_lookup` finds the inode that the name leads to, and changes nothing. -/
theorem ntfsVfsLookup_ends :
    Ends (ntfsVfsLookup policy dir name fault) inodes
      (fun ino after => inodes = after ∧ fault = none ∧ Resolves policy inodes dir name ino ∧
        ∃ inode, inodes ino = some inode)
      (fun error after => inodes = after ∧ (fault = some error ∨
        (fault = none ∧ (∀ ino, Resolves policy inodes dir name ino → inodes ino = none ∧ error = .eio) ∧
          (error = .enoent → Absent policy inodes dir name)))) := by
  apply Ends.bind
  cases fault with
  | some error => exact ⟨rfl, .inl rfl⟩
  | none =>
    apply Ends.bind
    apply getInode_reads.imp
    · rintro parent _ ⟨rfl, found⟩
      cases result : lookupIno policy parent.index name with
      | error error =>
        refine ⟨rfl, .inr ⟨rfl, fun ino resolves => ?_, fun absent => ⟨parent, found, by rw [result, absent]⟩⟩⟩
        obtain ⟨_, foundAgain, success⟩ := resolves
        cases found.symm.trans foundAgain
        rw [result] at success
        cases success
      | ok ino =>
        have resolves : Resolves policy inodes dir name ino := ⟨parent, found, result⟩
        apply Ends.bind
        apply getInode_reads.imp
        · rintro inode _ ⟨rfl, there⟩
          exact ⟨rfl, rfl, resolves, inode, there⟩
        · rintro _ _ ⟨rfl, missing, broken⟩
          refine ⟨rfl, .inr ⟨rfl, fun other also_ => ?_, fun absent => by simp [broken] at absent⟩⟩
          rw [← resolves.unique also_]
          exact ⟨missing, broken⟩
    · rintro _ _ ⟨rfl, missing, broken⟩
      refine ⟨rfl, .inr ⟨rfl, fun ino resolves => ?_, fun absent => by simp [broken] at absent⟩⟩
      obtain ⟨_, found, _⟩ := resolves
      rw [missing] at found
      cases found

/-- The lookup of a name that need not be there. -/
theorem lookupOptional_ends :
    Ends (lookupOptional policy dir name fault) inodes
      (fun target after => inodes = after ∧
        (∀ ino, target = some ino →
          fault = none ∧ Resolves policy inodes dir name ino ∧ ∃ inode, inodes ino = some inode) ∧
        (target = none → fault = some .enoent ∨ (fault = none ∧ Absent policy inodes dir name)))
      (fun _ after => inodes = after ∧
        (fault = none → ∀ ino, Resolves policy inodes dir name ino → inodes ino = none)) := by
  apply Ends.tryCatch
  apply Ends.bind
  apply ntfsVfsLookup_ends.imp
  · rintro ino _ ⟨rfl, smooth, resolves, found⟩
    refine ⟨rfl, ?_, fun impossible => by cases impossible⟩
    intro other same
    cases same
    exact ⟨smooth, resolves, found⟩
  · rintro error _ ⟨rfl, unresolved⟩
    by_cases missing : error = .enoent
    · rw [if_pos missing]
      refine ⟨rfl, (fun _ impossible => by cases impossible), fun _ => ?_⟩
      rw [missing] at unresolved
      exact unresolved.imp_right fun lost => ⟨lost.1, lost.2.2 rfl⟩
    · rw [if_neg missing]
      refine ⟨rfl, fun smooth ino resolves => ?_⟩
      rcases unresolved with broken | ⟨_, nowhere, _⟩
      · rw [smooth] at broken
        cases broken
      · exact (nowhere ino resolves).1

end Lookup

end Ttntfs.Vfs
