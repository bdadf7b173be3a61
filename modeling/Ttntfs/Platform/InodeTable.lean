import Mathlib.Data.Multiset.Filter
import Mathlib.Logic.Function.Basic

/-!
# The inode table

The icache of the port, for one superblock. A thread holds a stack of operations it is
in; one step of a thread is one section under a lock, or one access to state that is
not under a lock. Lookups, eviction and `iput` run under the superblock lock, `igrab`
and `unlock_new_inode` under the lock of the inode only, and `ihold` under none.

References are counted in `i_count`. The state keeps beside it who holds them: a
thread drops only references that it holds. Writing inodes back stays outside.
-/

namespace Ttntfs.Platform

/-- `NTFS_INODE_CACHE_MAX` -/
def ntfsInodeCacheMax : Nat := 4096

/-- `struct inode`, as far as the table reads and writes it. -/
structure Inode (Key : Type) where
  key : Option Key
  count : Nat
  nlink : Nat
  isNew : Bool
  willFree : Bool
  freeing : Bool
  born : Bool
  freed : Bool
  evictions : Nat

/-- Memory that is no inode yet. -/
def Inode.unborn {Key : Type} : Inode Key :=
  { key := none, count := 0, nlink := 0, isNew := false, willFree := false, freeing := false
    born := false, freed := false, evictions := 0 }

/-- `inode_dying` -/
def Inode.dying {Key : Type} (inode : Inode Key) : Bool := inode.freeing || inode.willFree

/-- Where a thread is in an operation on the table. -/
inductive Frame (Key : Type) where
  /-- `iget5_locked` before its first lookup -/
  | iget5Locked (key : Key)
  /-- `iget5_locked` before its second lookup, which creates what it does not find -/
  | create (key : Key)
  /-- `ilookup5` before its lookup -/
  | ilookup5 (key : Key)
  /-- `wait_on_freeing` -/
  | waitOnFreeing (gen : Nat)
  /-- `wait_on_inode` in `iget5_locked`, else in `ilookup5` -/
  | waitOnInode (locked : Bool) (i : Nat) (key : Key)
  /-- the test of `inode_unhashed` behind it -/
  | unhashedTest (locked : Bool) (i : Nat) (key : Key)
  /-- `iput` -/
  | iput (i : Nat)
  /-- `shrink_lru`, at the head of its loop -/
  | shrinkLru
  /-- `shrink_lru` with a victim that is off the list; the superblock is locked -/
  | claimVictim (i : Nat)
  /-- `evict_unreferenced_locked` while it writes back -/
  | writeBack (i : Nat)
  /-- `evict` before the callback of the file system -/
  | evict (i : Nat)
  /-- `evict` behind the callback -/
  | unhash (i : Nat)
  /-- `evict_inodes`, at the head of its loop -/
  | evictInodes
  /-- `iget_failed` -/
  | igetFailed (i : Nat)
  /-- `iget_failed` with the inode off the hash -/
  | unlockFailed (i : Nat)
  /-- `snapshot_inodes` -/
  | snapshotInodes
  /-- `sync_inodes_sb` with the rest of its array -/
  | syncInodes (arr : List Nat)

/-- The state of the table and of the threads. -/
structure InodeTable (Key : Type) where
  inode : Nat → Inode Key
  hash : List Nat
  inodes : List Nat
  lru : List Nat
  active : Bool
  freedGen : Nat
  sbHeld : Option Nat
  stack : Nat → List (Frame Key)
  refs : Multiset (Nat × Nat)

/-- The table of a superblock from `sb_alloc`. -/
def InodeTable.empty {Key : Type} : InodeTable Key :=
  { inode := fun _ => Inode.unborn, hash := [], inodes := [], lru := [], active := true, freedGen := 0
    sbHeld := none, stack := fun _ => [], refs := 0 }

/-- What a step leaves open: answers of the file system, of the allocator, and the
inodes a snapshot selects. -/
structure Choice where
  drop : Bool
  fails : Bool
  fresh : Nat
  arr : List Nat

namespace InodeTable

variable {Key : Type} [DecidableEq Key]

/-- Change one inode. -/
def modify (s : InodeTable Key) (i : Nat) (f : Inode Key → Inode Key) : InodeTable Key :=
  { s with inode := Function.update s.inode i (f (s.inode i)) }

/-- Replace the stack of a thread. -/
def goto (s : InodeTable Key) (t : Nat) (stack : List (Frame Key)) : InodeTable Key :=
  { s with stack := Function.update s.stack t stack }

/-- `lru_remove` -/
def lruRemove (s : InodeTable Key) (i : Nat) : InodeTable Key := { s with lru := s.lru.erase i }

/-- `lru_add` -/
def lruAdd (s : InodeTable Key) (i : Nat) : InodeTable Key :=
  if i ∈ s.lru then s else { s with lru := s.lru ++ [i] }

/-- Count a reference that a thread takes. -/
def addRef (s : InodeTable Key) (t i : Nat) : InodeTable Key :=
  { s.modify i fun inode => { inode with count := inode.count + 1 } with refs := (t, i) ::ₘ s.refs }

/-- Count a reference that a thread drops. -/
def dropRef (s : InodeTable Key) (t i : Nat) : InodeTable Key :=
  { s.modify i fun inode => { inode with count := inode.count - 1 } with refs := s.refs.erase (t, i) }

/-- `__iget`, and the body of `igrab` -/
def iget (s : InodeTable Key) (t i : Nat) : InodeTable Key :=
  if (s.inode i).count = 0 then (s.addRef t i).lruRemove i else s.addRef t i

/-- `__remove_hash_locked` -/
def removeHash (s : InodeTable Key) (i : Nat) : InodeTable Key :=
  if i ∈ s.hash then { s with hash := s.hash.erase i, freedGen := s.freedGen + 1 } else s

/-- `inode->i_state |= I_WILL_FREE` -/
def markWillFree (s : InodeTable Key) (i : Nat) : InodeTable Key :=
  s.modify i fun inode => { inode with willFree := true }

/-- The change to `I_FREEING` in `evict_unreferenced_locked`. -/
def markFreeing (s : InodeTable Key) (i : Nat) : InodeTable Key :=
  s.modify i fun inode => { inode with willFree := false, freeing := true }

/-- `evict_unreferenced_locked`, called with a claimed inode: the superblock lock is
dropped for the write-back if there is one. -/
def evictUnreferenced (s : InodeTable Key) (t i : Nat) (write : Bool) (rest : List (Frame Key)) :
    InodeTable Key :=
  if write then (s.markWillFree i).goto t (.writeBack i :: rest)
  else ((s.markWillFree i).markFreeing i).goto t (.evict i :: rest)

/-- The scan of `find_inode`. -/
def findInode (s : InodeTable Key) (key : Key) : Option Nat :=
  s.hash.find? fun i => decide ((s.inode i).key = some key)

/-- The lookup of `find_inode`: wait for a dying inode, take a reference to a live
one, or go on at `missed`. -/
def lookup (s : InodeTable Key) (t : Nat) (locked : Bool) (key : Key) (self : Frame Key)
    (rest : List (Frame Key)) (missed : InodeTable Key) : InodeTable Key :=
  match s.findInode key with
  | none => missed
  | some i =>
    if (s.inode i).dying then s.goto t (.waitOnFreeing s.freedGen :: self :: rest)
    else (s.iget t i).goto t (.waitOnInode locked i key :: rest)

/-- The inode that `iget5_locked` makes, on the hash and on the list of the
superblock. -/
def insertNew (s : InodeTable Key) (t i : Nat) (key : Key) : InodeTable Key :=
  { s with inode := Function.update s.inode i
             { key := some key, count := 1, nlink := 1, isNew := true, willFree := false
               freeing := false, born := true, freed := false, evictions := 0 }
           hash := i :: s.hash
           inodes := i :: s.inodes
           refs := (t, i) ::ₘ s.refs }

/-- `iput`: the last reference parks the inode or starts its eviction. -/
def iputSection (s : InodeTable Key) (t i : Nat) (drop : Bool) (rest : List (Frame Key)) :
    InodeTable Key :=
  let s := s.dropRef t i
  if (s.inode i).count > 0 then s.goto t rest
  else if !drop && s.active then (s.lruAdd i).goto t (.shrinkLru :: rest)
  else s.evictUnreferenced t i (!drop) rest

/-- `lru_pop_over_cap` in the loop of `shrink_lru`. -/
def shrinkSection (s : InodeTable Key) (t : Nat) (rest : List (Frame Key)) : InodeTable Key :=
  match s.lru with
  | victim :: lru =>
    if s.lru.length > ntfsInodeCacheMax then
      { s with lru := lru, sbHeld := some t }.goto t (.claimVictim victim :: .shrinkLru :: rest)
    else s.goto t rest
  | [] => s.goto t rest

/-- An inode that `claim_for_eviction` claims. -/
def claimable (s : InodeTable Key) (i : Nat) : Bool :=
  decide ((s.inode i).count = 0) && !(s.inode i).dying

/-- `claim_for_eviction` in the loop of `shrink_lru`, and what follows. -/
def claimSection (s : InodeTable Key) (t i : Nat) (rest : List (Frame Key)) : InodeTable Key :=
  let s := { s with sbHeld := none }
  if s.claimable i then s.evictUnreferenced t i (decide ((s.inode i).nlink ≠ 0)) rest
  else s.goto t rest

/-- One round of the loop of `evict_inodes`. -/
def evictInodesSection (s : InodeTable Key) (t : Nat) (rest : List (Frame Key)) : InodeTable Key :=
  match s.inodes.find? s.claimable with
  | none => s.goto t rest
  | some victim => (s.lruRemove victim).evictUnreferenced t victim
      (decide ((s.inode victim).nlink ≠ 0)) (.evictInodes :: rest)

/-- The callback of `evict`, which ends in `clear_inode`. -/
def evictCallback (s : InodeTable Key) (i : Nat) : InodeTable Key :=
  s.modify i fun inode => { inode with isNew := false, willFree := false, freeing := true
                                       evictions := inode.evictions + 1 }

/-- The last section of `evict`. -/
def unhashSection (s : InodeTable Key) (i : Nat) : InodeTable Key :=
  let s := s.removeHash i
  { s with inodes := s.inodes.erase i }.modify i fun inode => { inode with freed := true }

/-- `snapshot_inodes`: a reference to every selected inode. -/
def snapshot (s : InodeTable Key) (t : Nat) (arr : List Nat) : InodeTable Key :=
  arr.foldl (fun s i => s.iget t i) s

/-- What `snapshot_inodes` selects from. -/
def selectable (s : InodeTable Key) (i : Nat) : Bool :=
  decide (i ∈ s.inodes) && !(s.inode i).dying && !(s.inode i).isNew

/-- The step of a thread that is at `frame`; none where it has to wait, or where it
would drop a reference that it does not hold. -/
def runFrame (s : InodeTable Key) (t : Nat) (choice : Choice) (rest : List (Frame Key)) :
    Frame Key → Option (InodeTable Key)
  | .iget5Locked key =>
    if s.sbHeld = none then
      some (s.lookup t true key (.iget5Locked key) rest (s.goto t (.create key :: rest)))
    else none
  | .create key =>
    if s.sbHeld = none ∧ (s.inode choice.fresh).born = false then
      some (s.lookup t true key (.create key) rest
        (if choice.fails then s.goto t rest else (s.insertNew t choice.fresh key).goto t rest))
    else none
  | .ilookup5 key =>
    if s.sbHeld = none then some (s.lookup t false key (.ilookup5 key) rest (s.goto t rest)) else none
  | .waitOnFreeing gen => if s.freedGen = gen then none else some (s.goto t rest)
  | .waitOnInode locked i key =>
    if (s.inode i).isNew then none else some (s.goto t (.unhashedTest locked i key :: rest))
  | .unhashedTest locked i key =>
    if i ∈ s.hash then some (s.goto t rest)
    else some (s.goto t (.iput i :: (if locked then .iget5Locked key else .ilookup5 key) :: rest))
  | .iput i =>
    if s.sbHeld = none ∧ (t, i) ∈ s.refs then some (s.iputSection t i choice.drop rest) else none
  | .shrinkLru => if s.sbHeld = none then some (s.shrinkSection t rest) else none
  | .claimVictim i => if s.sbHeld = some t then some (s.claimSection t i rest) else none
  | .writeBack i =>
    if s.sbHeld = none then some ((s.markFreeing i).goto t (.evict i :: rest)) else none
  | .evict i => some ((s.evictCallback i).goto t (.unhash i :: rest))
  | .unhash i => if s.sbHeld = none then some ((s.unhashSection i).goto t rest) else none
  | .evictInodes => if s.sbHeld = none then some (s.evictInodesSection t rest) else none
  | .igetFailed i =>
    if s.sbHeld = none ∧ (t, i) ∈ s.refs then some ((s.removeHash i).goto t (.unlockFailed i :: rest))
    else none
  | .unlockFailed i =>
    if (t, i) ∈ s.refs then
      some ((s.modify i fun inode => { inode with nlink := 0, isNew := false }).goto t
        (.iput i :: rest))
    else none
  | .snapshotInodes =>
    if s.sbHeld = none ∧ choice.arr.Nodup ∧ choice.arr.all s.selectable = true then
      some ((s.snapshot t choice.arr).goto t (.syncInodes choice.arr :: rest))
    else none
  | .syncInodes [] => some (s.goto t rest)
  | .syncInodes (i :: arr) => some (s.goto t (.iput i :: .syncInodes arr :: rest))

/-- What may happen next. -/
inductive Event (Key : Type) where
  /-- A thread starts an operation, at rest or from a callback of the file system. -/
  | call (t : Nat) (frame : Frame Key)
  /-- A thread goes on. -/
  | run (t : Nat) (choice : Choice)
  /-- `igrab` -/
  | igrab (t i : Nat)
  /-- `ihold` -/
  | ihold (t i : Nat)
  /-- `unlock_new_inode` -/
  | unlockNewInode (t i : Nat)
  /-- A thread hands a reference over to another. -/
  | handOver (t t' i : Nat)
  /-- The file system changes the number of links. -/
  | setNlink (t i n : Nat)

/-- The frames with which operations start. -/
def Frame.entry : Frame Key → Bool
  | .iget5Locked _ | .ilookup5 _ | .iput _ | .evictInodes | .igetFailed _ | .snapshotInodes => true
  | _ => false

/-- The step of an event; none where it cannot happen. -/
def next (s : InodeTable Key) : Event Key → Option (InodeTable Key)
  | .call t frame =>
    if Frame.entry frame ∧ s.sbHeld ≠ some t then
      let s := match frame with
        | .evictInodes => { s with active := false }
        | _ => s
      some (s.goto t (frame :: s.stack t))
    else none
  | .run t choice =>
    match s.stack t with
    | [] => none
    | frame :: rest => s.runFrame t choice rest frame
  | .igrab t i =>
    if (s.inode i).born && !(s.inode i).freed then
      if (s.inode i).dying then some s else some (s.iget t i)
    else none
  | .ihold t i => if (t, i) ∈ s.refs then some (s.addRef t i) else none
  | .unlockNewInode t i =>
    if (t, i) ∈ s.refs then some (s.modify i fun inode => { inode with isNew := false }) else none
  | .handOver t t' i =>
    if (t, i) ∈ s.refs then some { s with refs := (t', i) ::ₘ s.refs.erase (t, i) } else none
  | .setNlink t i n =>
    if (t, i) ∈ s.refs then some (s.modify i fun inode => { inode with nlink := n }) else none

/-- The states that an interleaving of threads reaches. -/
inductive Reachable : InodeTable Key → Prop where
  | start : Reachable InodeTable.empty
  | step {s s' : InodeTable Key} {event : Event Key} (before : Reachable s)
      (happens : s.next event = some s') : Reachable s'

end InodeTable

end Ttntfs.Platform
