import Ttntfs.Platform.InodeThreads

/-!
# The inode table hands out one live inode per key

Both parts of the invariant are kept by every step, one lemma for each section that does
more than move its thread on.
-/

namespace Ttntfs.Platform

namespace InodeTable

variable {Key : Type}

/-! ## Steps -/

/-- The invariant. -/
structure Safe (s : InodeTable Key) : Prop where
  table : TableOk s
  threads : StacksOk s

section Steps

variable {s s' : InodeTable Key} {t i : Nat} {rest : List (Frame Key)}

theorem safe_empty : Safe (InodeTable.empty : InodeTable Key) := by
  constructor
  · constructor
    · intro i
      rfl
    · intro i marked
      cases marked
    · intro i member
      cases member
    · exact List.nodup_nil
    · exact List.nodup_nil
    · intro i member
      cases member
    · intro i member
      cases member
    · intro i member
      cases member
    · intro i _
      exact ⟨rfl, rfl⟩
    · intro i
      exact ⟨Nat.zero_le 1, fun positive => absurd positive (Nat.lt_irrefl 0)⟩
  · constructor
    · intro t i positive
      exact absurd positive (Nat.lt_irrefl 0)
    · intro t i
      exact Nat.zero_le 1
    · intro t t' i positive
      exact absurd positive (Nat.lt_irrefl 0)
    · intro t i member
      cases member
    · intro t frame rest here
      cases here

theorem Safe.keeps (safe : Safe s) (table : TableOk s') (keeps : KeepsMarks s s') : Safe s' :=
  ⟨table, safe.threads.keeps keeps⟩

theorem Safe.goto (safe : Safe s) {stack : List (Frame Key)}
    (fewer : ∀ i, stack.countP (evicts i) ≤ s.evictors t i)
    (unclaimed : ∀ i, Frame.claimVictim i ∉ stack) : Safe (s.goto t stack) :=
  ⟨safe.table.goto t stack, safe.threads.goto fewer unclaimed⟩

/-- The places of a stack without evictions and claims. -/
def idle : Frame Key → Bool
  | .writeBack _ | .evict _ | .claimVictim _ => false
  | _ => true

theorem quiet_fewer {frame : Frame Key} (frames : List (Frame Key))
    (here : s.stack t = frame :: rest) (quiet : frames.all idle = true) (j : Nat) :
    (frames ++ rest).countP (evicts j) ≤ s.evictors t j := by
  have none : frames.countP (evicts j) = 0 := by
    rw [List.countP_eq_zero]
    intro f member
    have quietly := List.all_eq_true.mp quiet f member
    cases f <;> simp_all [idle, evicts]
  rw [List.countP_append, none, Nat.zero_add, evictors, here, List.countP_cons]
  exact Nat.le_add_right _ _

theorem StacksOk.quiet_unclaimed (ok : StacksOk s) {frame : Frame Key} (frames : List (Frame Key))
    (here : s.stack t = frame :: rest) (quiet : frames.all idle = true) (j : Nat) :
    Frame.claimVictim j ∉ frames ++ rest := by
  intro member
  rcases List.mem_append.mp member with new | old
  · have quietly := List.all_eq_true.mp quiet _ new
    cases quietly
  · exact ok.top t frame rest here j old

theorem Safe.move (safe : Safe s) {frame : Frame Key} (frames : List (Frame Key))
    (here : s.stack t = frame :: rest) (quiet : frames.all idle = true) :
    Safe (s.goto t (frames ++ rest)) :=
  safe.goto (quiet_fewer _ here quiet) (safe.threads.quiet_unclaimed _ here quiet)

/-- A claimed inode is marked and its eviction begins. -/
theorem Safe.evictUnreferenced (safe : Safe s) {frame : Frame Key} (others : List (Frame Key))
    (here : s.stack t = frame :: rest) (quiet : others.all idle = true) (zero : (s.inode i).count = 0)
    (live : (s.inode i).dying = false) (born : (s.inode i).born = true) (unparked : i ∉ s.lru)
    (write : Bool) : Safe (s.evictUnreferenced t i write (others ++ rest)) := by
  have unevicted := safe.table.live_unevicted live
  have fewer := quiet_fewer _ here quiet
  have unclaimed := safe.threads.quiet_unclaimed _ here quiet
  have evictedAsBefore := safe.table.evicted i
  have willFree : TableOk (s.markWillFree i) := by
    refine safe.table.modify rfl rfl rfl (fun _ => ⟨zero, unparked⟩) ?_ evictedAsBefore
    intro no
    rw [born] at no
    cases no
  have keeps : KeepsMarks s (s.markWillFree i) := by
    refine KeepsMarks.modify ?_ rfl id
    intro marked
    simp [Inode.dying]
  rw [InodeTable.evictUnreferenced]
  split
  · constructor
    · exact willFree.goto t _
    · refine safe.threads.evictor keeps live unevicted ?_ (fun j => rfl) (by simp) fewer unclaimed
      rw [markWillFree, modify_self]
      simp [Inode.dying]
  have same : (s.markWillFree i).inode i = { s.inode i with willFree := true } := modify_self s i _
  have freeing : TableOk ((s.markWillFree i).markFreeing i) := by
    refine willFree.modify rfl rfl rfl ?_ ?_ ?_
    · intro _
      rw [same]
      exact ⟨zero, unparked⟩
    · intro no
      rw [same] at no
      have no' : (s.inode i).born = false := no
      rw [born] at no'
      cases no'
    · rw [same]
      exact ⟨evictedAsBefore.1, fun _ => rfl⟩
  have keepsTwo : KeepsMarks (s.markWillFree i) ((s.markWillFree i).markFreeing i) := by
    refine KeepsMarks.modify ?_ rfl id
    intro marked
    rfl
  constructor
  · exact freeing.goto t _
  · refine safe.threads.evictor (keeps.trans keepsTwo) live unevicted ?_ (fun j => rfl)
      (by simp) fewer unclaimed
    rw [markFreeing, modify_self]
    rfl

theorem TableOk.held_born (ok : TableOk s) (held : (t, i) ∈ s.refs) : (s.inode i).born = true := by
  by_contra no
  have none := (ok.unborn i (by simpa using no)).2
  have positive := ok.count_pos held
  omega

/-- `iput` of a reference that is held. -/
theorem Safe.iput (safe : Safe s) {frame : Frame Key} (here : s.stack t = frame :: rest)
    (free : s.sbHeld = none) (held : (t, i) ∈ s.refs) (drop : Bool) :
    Safe (s.iputSection t i drop rest) := by
  have unparked : i ∉ s.lru :=
    safe.table.unparked (Nat.pos_iff_ne_zero.mp (safe.table.count_pos held))
  obtain ⟨s₁, dropped⟩ : ∃ s₁, s₁ = s.dropRef t i := ⟨_, rfl⟩
  have keeps : KeepsMarks s s₁ := by
    rw [dropped]
    exact keepsMarks_dropRef s t i
  have safe₁ : Safe s₁ := by
    refine safe.keeps ?_ keeps
    rw [dropped]
    exact safe.table.dropRef held
  have here₁ : s₁.stack t = frame :: rest := by rw [keeps.stack, here]
  have live₁ : (s₁.inode i).dying = false := by
    have live := safe.table.held_live held
    rw [dropped, InodeTable.dropRef]
    simpa [Inode.dying] using live
  have born₁ : (s₁.inode i).born = true := keeps.born i (safe.table.held_born held)
  have unparked₁ : i ∉ s₁.lru := by
    rw [dropped]
    exact unparked
  simp only [iputSection]
  rw [← dropped]
  split
  · exact safe₁.move [] here₁ rfl
  next last =>
    have zero : (s₁.inode i).count = 0 := Nat.eq_zero_of_not_pos last
    split
    · have parks : KeepsMarks s₁ (s₁.lruAdd i) := keepsMarks_lruAdd i (keeps.sbHeld.trans free)
      have safe₂ : Safe (s₁.lruAdd i) := safe₁.keeps (safe₁.table.lruAdd zero live₁ born₁) parks
      have here₂ : (s₁.lruAdd i).stack t = frame :: rest := by rw [parks.stack, here₁]
      exact safe₂.move [.shrinkLru] here₂ rfl
    · exact safe₁.evictUnreferenced [] here₁ rfl zero live₁ born₁ unparked₁ (!drop)

theorem StacksOk.unclaimed (ok : StacksOk s) (free : s.sbHeld = none) (t i : Nat) :
    Frame.claimVictim i ∉ s.stack t := by
  intro member
  have locked := (ok.claims t i member).1
  rw [free] at locked
  cases locked

/-- The head of the loop of `shrink_lru`. -/
theorem Safe.shrink (safe : Safe s) {frame : Frame Key} (here : s.stack t = frame :: rest)
    (free : s.sbHeld = none) : Safe (s.shrinkSection t rest) := by
  rw [shrinkSection]
  split
  next victim lru parked =>
    have nodup := safe.table.lruNodup
    have member : victim ∈ s.lru := by
      rw [parked]
      exact List.mem_cons_self
    rw [parked, List.nodup_cons] at nodup
    split
    · have fewer := quiet_fewer [Frame.shrinkLru] here rfl
      have less : ∀ t' j, ({ s with lru := lru, sbHeld := some t }.goto t
          (.claimVictim victim :: .shrinkLru :: rest)).evictors t' j ≤ s.evictors t' j := by
        intro t' j
        rw [evictors_goto]
        split
        next same =>
          rw [same]
          exact fewer j
        next => exact Nat.le_refl _
      constructor
      · have sublist : lru.Sublist s.lru := by
          rw [parked]
          exact List.sublist_cons_self victim lru
        exact (safe.table.setLru sublist).setSb (some t) |>.goto t _
      constructor
      · intro t' j positive
        exact safe.threads.owned t' j (Nat.lt_of_lt_of_le positive (less t' j))
      · intro t' j
        exact Nat.le_trans (less t' j) (safe.threads.once t' j)
      · intro t' t'' j first second
        exact safe.threads.alone t' t'' j (Nat.lt_of_lt_of_le first (less t' j))
          (Nat.lt_of_lt_of_le second (less t'' j))
      · intro t' j claim
        rw [goto_stack] at claim
        split at claim
        next same =>
          rcases List.mem_cons.mp claim with this | others
          · rw [Frame.claimVictim.inj this, same]
            exact ⟨rfl, nodup.1, (safe.table.parked victim member).2⟩
          · exact absurd others (safe.threads.quiet_unclaimed [Frame.shrinkLru] here rfl j)
        next => exact absurd claim (safe.threads.unclaimed free t' j)
      · intro t' f below top j
        rw [goto_stack] at top
        split at top
        · rw [← (List.cons.inj top).2]
          exact safe.threads.quiet_unclaimed [Frame.shrinkLru] here rfl j
        · exact safe.threads.top t' f below top j
    · exact safe.move [] here rfl
  · exact safe.move [] here rfl

theorem Safe.unlock (safe : Safe s) (unclaimed : ∀ t i, Frame.claimVictim i ∉ s.stack t) :
    Safe { s with sbHeld := none } :=
  { table := safe.table.setSb none
    threads :=
      { owned := safe.threads.owned
        once := safe.threads.once
        alone := safe.threads.alone
        claims := fun t i member => absurd member (unclaimed t i)
        top := safe.threads.top } }

theorem StacksOk.claim_gone (ok : StacksOk s) (here : s.stack t = .claimVictim i :: rest)
    {stack : List (Frame Key)} (quiet : ∀ j, Frame.claimVictim j ∉ stack) (t' j : Nat) :
    Frame.claimVictim j ∉ (s.goto t stack).stack t' := by
  rw [goto_stack]
  split
  · exact quiet j
  next different =>
    intro member
    have locked : s.sbHeld = some t := by
      refine (ok.claims t i ?_).1
      rw [here]
      exact List.mem_cons_self
    rw [(ok.claims t' j member).1] at locked
    exact different (Option.some.inj locked)

/-- `claim_for_eviction` of a victim of `shrink_lru`. -/
theorem Safe.claim (safe : Safe s) (here : s.stack t = .claimVictim i :: rest) :
    Safe (s.claimSection t i rest) := by
  have below := safe.threads.top t _ rest here
  obtain ⟨_, unparked, born⟩ : s.sbHeld = some t ∧ i ∉ s.lru ∧ (s.inode i).born = true := by
    refine safe.threads.claims t i ?_
    rw [here]
    exact List.mem_cons_self
  simp only [claimSection]
  split
  next claimed =>
    obtain ⟨zero, live⟩ : (s.inode i).count = 0 ∧ (s.inode i).dying = false := by
      simpa [claimable] using claimed
    have evicting := safe.evictUnreferenced [] here rfl zero live born unparked
      (decide ((s.inode i).nlink ≠ 0))
    simp only [InodeTable.evictUnreferenced, List.nil_append] at evicting ⊢
    split at evicting
    next write =>
      rw [if_pos write]
      exact evicting.unlock (fun t' j => safe.threads.claim_gone here (by simpa using below) t' j)
    next keep =>
      rw [if_neg keep]
      exact evicting.unlock (fun t' j => safe.threads.claim_gone here (by simpa using below) t' j)
  · have moved := safe.move [] here rfl
    exact moved.unlock (fun t' j => safe.threads.claim_gone here below t' j)

/-- One round of `evict_inodes`. -/
theorem Safe.evictInodes (safe : Safe s) {frame : Frame Key} (here : s.stack t = frame :: rest) :
    Safe (s.evictInodesSection t rest) := by
  rw [evictInodesSection]
  split
  · exact safe.move [] here rfl
  next victim found =>
    have claimed := List.find?_some found
    have born := safe.table.listed victim (List.mem_of_find?_eq_some found)
    obtain ⟨zero, live⟩ : (s.inode victim).count = 0 ∧ (s.inode victim).dying = false := by
      simpa [claimable] using claimed
    have keeps : KeepsMarks s (s.lruRemove victim) :=
      KeepsMarks.same rfl rfl rfl (Or.inr (fun _ => List.mem_of_mem_erase))
    have safe₁ : Safe (s.lruRemove victim) :=
      safe.keeps (safe.table.setLru List.erase_sublist) keeps
    have absent : victim ∉ (s.lruRemove victim).lru := by
      intro member
      exact (List.Nodup.mem_erase_iff safe.table.lruNodup).mp member |>.1 rfl
    exact safe₁.evictUnreferenced [.evictInodes] here rfl zero live born absent _

/-- The write-back before an eviction is done. -/
theorem Safe.writtenBack (safe : Safe s) (here : s.stack t = .writeBack i :: rest) :
    Safe ((s.markFreeing i).goto t (.evict i :: rest)) := by
  have owner : 0 < s.evictors t i := by
    rw [evictors, here, List.countP_cons]
    simp [evicts]
  obtain ⟨marked, unevicted⟩ := safe.threads.owned t i owner
  have quiet := safe.table.marked i marked
  have keeps : KeepsMarks s (s.markFreeing i) := KeepsMarks.modify (fun _ => rfl) rfl id
  have freeing : TableOk (s.markFreeing i) := by
    refine safe.table.modify rfl rfl rfl (fun _ => quiet) ?_ ?_
    · intro no
      have live := (safe.table.unborn i no).1
      rw [marked] at live
      cases live
    · exact ⟨(safe.table.evicted i).1, fun _ => rfl⟩
  have safe₁ := safe.keeps freeing keeps
  refine safe₁.goto ?_ ?_
  · intro j
    rw [evictors, keeps.stack, here, List.countP_cons, List.countP_cons]
    exact Nat.le_refl _
  · intro j member
    rcases List.mem_cons.mp member with this | before
    · cases this
    · exact safe.threads.top t _ rest here j before

/-- The callback of `evict`. -/
theorem Safe.evicted (safe : Safe s) (here : s.stack t = .evict i :: rest) :
    Safe ((s.evictCallback i).goto t (.unhash i :: rest)) := by
  have owner : 0 < s.evictors t i := by
    rw [evictors, here, List.countP_cons]
    simp [evicts]
  have below := safe.threads.top t _ rest here
  obtain ⟨marked, unevicted⟩ := safe.threads.owned t i owner
  have quiet := safe.table.marked i marked
  have bornSelf : ((s.evictCallback i).inode i).born = (s.inode i).born := by
    rw [evictCallback, modify_self]
  have other : ∀ j, j ≠ i → (s.evictCallback i).inode j = s.inode j := fun j => modify_of_ne s _
  have table : TableOk (s.evictCallback i) := by
    refine safe.table.modify rfl rfl rfl (fun _ => quiet) ?_ ?_
    · intro no
      have live := (safe.table.unborn i no).1
      rw [marked] at live
      cases live
    · refine ⟨?_, fun _ => rfl⟩
      simp only [unevicted]
      exact Nat.le_refl 1
  -- The thread was the only evictor of the inode, and now is none.
  have count : ∀ t' j, ((s.evictCallback i).goto t (.unhash i :: rest)).evictors t' j =
      if t' = t then rest.countP (evicts j) else s.evictors t' j := by
    intro t' j
    rw [evictors_goto, List.countP_cons]
    rfl
  have before : ∀ j, s.evictors t j = rest.countP (evicts j) + if j = i then 1 else 0 := by
    intro j
    rw [evictors, here, List.countP_cons]
    simp [evicts]
  have less : ∀ t' j, ((s.evictCallback i).goto t (.unhash i :: rest)).evictors t' j ≤
      s.evictors t' j := by
    intro t' j
    rw [count]
    split
    next same =>
      rw [same, before]
      exact Nat.le_add_right _ _
    next => exact Nat.le_refl _
  have gone : ∀ t', ((s.evictCallback i).goto t (.unhash i :: rest)).evictors t' i = 0 := by
    intro t'
    rw [count]
    split
    · have once := safe.threads.once t i
      rw [before, if_pos rfl] at once
      omega
    next different =>
      by_contra positive
      exact different (safe.threads.alone t' t i (Nat.pos_of_ne_zero positive) owner)
  have unclaimed : ∀ j, Frame.claimVictim j ∉ Frame.unhash i :: rest := by
    intro j member
    rcases List.mem_cons.mp member with this | old
    · cases this
    · exact below j old
  have bornSame : ∀ j, ((s.evictCallback i).inode j).born = (s.inode j).born := by
    intro j
    by_cases same : j = i
    · rw [same, bornSelf]
    · rw [other j same]
  constructor
  · exact table.goto t _
  constructor
  · intro t' j positive
    have different : j ≠ i := by
      rintro rfl
      rw [gone] at positive
      exact absurd positive (Nat.lt_irrefl 0)
    have owned := safe.threads.owned t' j (Nat.lt_of_lt_of_le positive (less t' j))
    have inode : ((s.evictCallback i).goto t (.unhash i :: rest)).inode j = s.inode j :=
      other j different
    rw [inode]
    exact owned
  · intro t' j
    exact Nat.le_trans (less t' j) (safe.threads.once t' j)
  · intro t' t'' j first second
    exact safe.threads.alone t' t'' j (Nat.lt_of_lt_of_le first (less t' j))
      (Nat.lt_of_lt_of_le second (less t'' j))
  · intro t' j member
    have claim : s.sbHeld = some t' ∧ j ∉ s.lru ∧ (s.inode j).born = true := by
      rw [goto_stack] at member
      split at member
      · exact absurd member (unclaimed j)
      · exact safe.threads.claims t' j member
    exact ⟨claim.1, claim.2.1, (bornSame j).trans claim.2.2⟩
  · intro t' f below' top j
    rw [goto_stack] at top
    split at top
    · rw [← (List.cons.inj top).2]
      exact below j
    · exact safe.threads.top t' f below' top j

/-- A change of an inode that is held, to fields that the invariant does not read. -/
theorem Safe.modify (safe : Safe s) (f : Inode Key → Inode Key)
    (same : ∀ inode, (f inode).key = inode.key ∧ (f inode).born = inode.born ∧
      (f inode).count = inode.count ∧ (f inode).willFree = inode.willFree ∧
      (f inode).freeing = inode.freeing ∧ (f inode).evictions = inode.evictions) (i : Nat) :
    Safe (s.modify i f) := by
  obtain ⟨key, born, count, willFree, freeing, evictions⟩ := same (s.inode i)
  have dying : (f (s.inode i)).dying = (s.inode i).dying := by
    rw [Inode.dying, Inode.dying, willFree, freeing]
  refine safe.keeps ?_ ?_
  · refine safe.table.modify key born count ?_ ?_ ?_
    · rw [dying]
      exact safe.table.marked i
    · rw [dying]
      exact fun no => (safe.table.unborn i no).1
    · rw [evictions, freeing]
      exact safe.table.evicted i
  · refine KeepsMarks.modify ?_ evictions ?_
    · rw [dying]
      exact id
    · rw [born]
      exact id

theorem Safe.unhashed (safe : Safe s) {frame : Frame Key} (here : s.stack t = frame :: rest) (i : Nat) :
    Safe ((s.unhashSection i).goto t rest) := by
  have removed : Safe (s.removeHash i) :=
    safe.keeps (safe.table.removeHash i) (keepsMarks_removeHash s i)
  have unlisted : Safe { s.removeHash i with inodes := (s.removeHash i).inodes.erase i } :=
    removed.keeps (removed.table.unlist i) (KeepsMarks.same rfl rfl rfl (Or.inr (fun _ => id)))
  have freed : Safe (s.unhashSection i) :=
    unlisted.modify (fun inode => { inode with freed := true })
      (fun _ => ⟨rfl, rfl, rfl, rfl, rfl, rfl⟩) i
  have here' : (s.unhashSection i).stack t = frame :: rest := by
    have same : (s.unhashSection i).stack = (s.removeHash i).stack := rfl
    rw [same, (keepsMarks_removeHash s i).stack, here]
  exact freed.move [] here' rfl

theorem Safe.iget (safe : Safe s) (t : Nat) (live : (s.inode i).dying = false)
    (born : (s.inode i).born = true) : Safe (s.iget t i) :=
  safe.keeps (safe.table.iget t live born) (keepsMarks_iget s t i)

/-- The references of a snapshot. -/
theorem Safe.snapshot (safe : Safe s) (t : Nat) {arr : List Nat}
    (live : ∀ i ∈ arr, (s.inode i).dying = false ∧ (s.inode i).born = true) :
    Safe (s.snapshot t arr) ∧ (s.snapshot t arr).stack = s.stack := by
  induction arr generalizing s with
  | nil => exact ⟨safe, rfl⟩
  | cons i arr ih =>
    obtain ⟨alive, born⟩ := live i List.mem_cons_self
    have first := safe.iget t alive born
    have keeps := keepsMarks_iget s t i
    have still : ∀ j ∈ arr, ((s.iget t i).inode j).dying = false ∧ ((s.iget t i).inode j).born = true := by
      intro j member
      obtain ⟨aliveThen, bornThen⟩ := live j (List.mem_cons_of_mem _ member)
      refine ⟨?_, keeps.born j bornThen⟩
      by_cases same : j = i
      · subst same
        rw [InodeTable.iget]
        split <;> simpa [InodeTable.lruRemove, InodeTable.addRef, Inode.dying] using aliveThen
      · have other : (s.iget t i).inode j = s.inode j := by
          rw [InodeTable.iget]
          split <;> simp [InodeTable.lruRemove, InodeTable.addRef, InodeTable.modify, same]
        rw [other]
        exact aliveThen
    obtain ⟨rest, stack⟩ := ih first still
    exact ⟨rest, stack.trans keeps.stack⟩

theorem Safe.call (safe : Safe s) {frame : Frame Key} (entry : Frame.entry frame = true)
    (unlocked : s.sbHeld ≠ some t) : Safe (s.goto t (frame :: s.stack t)) := by
  have quiet : ∀ j, evicts j frame = false ∧ frame ≠ .claimVictim j := by
    intro j
    cases frame <;> simp_all [Frame.entry, evicts]
  refine safe.goto ?_ ?_
  · intro j
    rw [List.countP_cons, (quiet j).1]
    exact Nat.le_refl _
  · intro j member
    rcases List.mem_cons.mp member with this | before
    · exact (quiet j).2 this.symm
    · exact unlocked (safe.threads.claims t j before).1

variable [DecidableEq Key]

theorem Safe.lookup (safe : Safe s) {self : Frame Key} (here : s.stack t = self :: rest)
    (quiet : idle self = true) (locked : Bool) (key : Key) {missed : InodeTable Key}
    (otherwise : s.findInode key = none → Safe missed) :
    Safe (s.lookup t locked key self rest missed) := by
  rw [InodeTable.lookup]
  split
  next none => exact otherwise none
  next i found =>
    have born := safe.table.hashed i (findInode_mem found)
    split
    · refine safe.move [.waitOnFreeing s.freedGen, self] here ?_
      rw [List.all_cons, List.all_cons, quiet]
      rfl
    next live =>
      have alive : (s.inode i).dying = false := by simpa using live
      have here' : (s.iget t i).stack t = self :: rest := by rw [(keepsMarks_iget s t i).stack, here]
      exact (safe.iget t alive born).move [.waitOnInode locked i key] here' rfl

/-- A thread that goes on leaves the table safe. -/
theorem Safe.run (safe : Safe s) {choice : Choice} {frame : Frame Key}
    (here : s.stack t = frame :: rest) (ran : s.runFrame t choice rest frame = some s') : Safe s' := by
  cases frame with
  | iget5Locked key =>
    simp only [runFrame] at ran
    split at ran
    · rw [← Option.some.inj ran]
      exact safe.lookup here rfl true key (fun _ => safe.move [.create key] here rfl)
    · cases ran
  | create key =>
    simp only [runFrame] at ran
    split at ran
    next ready =>
      rw [← Option.some.inj ran]
      refine safe.lookup here rfl true key ?_
      intro none
      split
      · exact safe.move [] here rfl
      have inserted : Safe (s.insertNew t choice.fresh key) := by
        refine safe.keeps (safe.table.insertNew t none ready.2) ?_
        obtain ⟨live, _⟩ := safe.table.unborn choice.fresh ready.2
        have unevicted := safe.table.live_unevicted live
        refine { stack := rfl, sbHeld := rfl, lru := Or.inr (fun _ => id), dying := ?_,
                 evictions := ?_, born := ?_ }
        · intro j marked
          have different : j ≠ choice.fresh := by
            rintro rfl
            rw [live] at marked
            cases marked
          simpa [InodeTable.insertNew, different] using marked
        · intro j
          by_cases same : j = choice.fresh
          · simp [InodeTable.insertNew, same, unevicted]
          · simp [InodeTable.insertNew, same]
        · intro j born
          by_cases same : j = choice.fresh
          · simp [InodeTable.insertNew, same]
          · simpa [InodeTable.insertNew, same] using born
      exact inserted.move [] here rfl
    next => cases ran
  | ilookup5 key =>
    simp only [runFrame] at ran
    split at ran
    · rw [← Option.some.inj ran]
      exact safe.lookup here rfl false key (fun _ => safe.move [] here rfl)
    · cases ran
  | waitOnFreeing gen =>
    simp only [runFrame] at ran
    split at ran
    · cases ran
    · rw [← Option.some.inj ran]
      exact safe.move [] here rfl
  | waitOnInode locked i key =>
    simp only [runFrame] at ran
    split at ran
    · cases ran
    · rw [← Option.some.inj ran]
      exact safe.move [.unhashedTest locked i key] here rfl
  | unhashedTest locked i key =>
    simp only [runFrame] at ran
    split at ran
    · rw [← Option.some.inj ran]
      exact safe.move [] here rfl
    · rw [← Option.some.inj ran]
      refine safe.move [.iput i, if locked then .iget5Locked key else .ilookup5 key] here ?_
      cases locked <;> rfl
  | iput i =>
    simp only [runFrame] at ran
    split at ran
    next ready =>
      rw [← Option.some.inj ran]
      exact safe.iput here ready.1 ready.2 choice.drop
    next => cases ran
  | shrinkLru =>
    simp only [runFrame] at ran
    split at ran
    next free =>
      rw [← Option.some.inj ran]
      exact safe.shrink here free
    next => cases ran
  | claimVictim i =>
    simp only [runFrame] at ran
    split at ran
    · rw [← Option.some.inj ran]
      exact safe.claim here
    · cases ran
  | writeBack i =>
    simp only [runFrame] at ran
    split at ran
    · rw [← Option.some.inj ran]
      exact safe.writtenBack here
    · cases ran
  | evict i =>
    simp only [runFrame] at ran
    rw [← Option.some.inj ran]
    exact safe.evicted here
  | unhash i =>
    simp only [runFrame] at ran
    split at ran
    · rw [← Option.some.inj ran]
      exact safe.unhashed here i
    · cases ran
  | evictInodes =>
    simp only [runFrame] at ran
    split at ran
    · rw [← Option.some.inj ran]
      exact safe.evictInodes here
    · cases ran
  | igetFailed i =>
    simp only [runFrame] at ran
    split at ran
    · rw [← Option.some.inj ran]
      have keeps := keepsMarks_removeHash s i
      have here' : (s.removeHash i).stack t = .igetFailed i :: rest := by rw [keeps.stack, here]
      exact (safe.keeps (safe.table.removeHash i) keeps).move [.unlockFailed i] here' rfl
    · cases ran
  | unlockFailed i =>
    simp only [runFrame] at ran
    split at ran
    · rw [← Option.some.inj ran]
      have unlocked := safe.modify (fun inode => { inode with nlink := 0, isNew := false })
        (fun _ => ⟨rfl, rfl, rfl, rfl, rfl, rfl⟩) i
      exact unlocked.move [.iput i] here rfl
    · cases ran
  | snapshotInodes =>
    simp only [runFrame] at ran
    split at ran
    next ready =>
      rw [← Option.some.inj ran]
      have live : ∀ i ∈ choice.arr, (s.inode i).dying = false ∧ (s.inode i).born = true := by
        intro i member
        have selected := List.all_eq_true.mp ready.2.2 i member
        simp only [selectable, Bool.and_eq_true, decide_eq_true_eq, Bool.not_eq_true'] at selected
        exact ⟨selected.1.2, safe.table.listed i selected.1.1⟩
      obtain ⟨taken, stack⟩ := safe.snapshot t live
      have here' : (s.snapshot t choice.arr).stack t = .snapshotInodes :: rest := by rw [stack, here]
      exact taken.move [.syncInodes choice.arr] here' rfl
    next => cases ran
  | syncInodes arr =>
    cases arr with
    | nil =>
      simp only [runFrame] at ran
      rw [← Option.some.inj ran]
      exact safe.move [] here rfl
    | cons i arr =>
      simp only [runFrame] at ran
      rw [← Option.some.inj ran]
      exact safe.move [.iput i, .syncInodes arr] here rfl

/-- Every step leaves the table safe. -/
theorem Safe.next (safe : Safe s) {event : Event Key} (happens : s.next event = some s') : Safe s' := by
  cases event with
  | call t frame =>
    simp only [InodeTable.next] at happens
    split at happens
    next allowed =>
      rw [← Option.some.inj happens]
      split
      · have deactivated : Safe { s with active := false } :=
          { table := { counted := safe.table.counted, marked := safe.table.marked
                       parked := safe.table.parked, lruNodup := safe.table.lruNodup
                       hashNodup := safe.table.hashNodup, keyed := safe.table.keyed
                       hashed := safe.table.hashed, listed := safe.table.listed
                       unborn := safe.table.unborn, evicted := safe.table.evicted }
            threads := safe.threads.keeps (KeepsMarks.same rfl rfl rfl (Or.inr (fun _ => id))) }
        exact deactivated.call allowed.1 allowed.2
      · exact safe.call allowed.1 allowed.2
    next => cases happens
  | run t choice =>
    simp only [InodeTable.next] at happens
    split at happens
    · cases happens
    next frame rest here => exact safe.run here happens
  | igrab t i =>
    simp only [InodeTable.next] at happens
    split at happens
    next valid =>
      split at happens
      · rw [← Option.some.inj happens]
        exact safe
      next live =>
        rw [← Option.some.inj happens]
        simp only [Bool.and_eq_true] at valid
        exact safe.iget t (by simpa using live) valid.1
    next => cases happens
  | ihold t i =>
    simp only [InodeTable.next] at happens
    split at happens
    next held =>
      rw [← Option.some.inj happens]
      have unparked := safe.table.unparked (Nat.pos_iff_ne_zero.mp (safe.table.count_pos held))
      exact safe.keeps (safe.table.addRef t (safe.table.held_live held) (safe.table.held_born held)
        unparked) (keepsMarks_addRef s t i)
    next => cases happens
  | unlockNewInode t i =>
    simp only [InodeTable.next] at happens
    split at happens
    · rw [← Option.some.inj happens]
      exact safe.modify (fun inode => { inode with isNew := false }) (fun _ => ⟨rfl, rfl, rfl, rfl, rfl, rfl⟩) i
    · cases happens
  | handOver t t' i =>
    simp only [InodeTable.next] at happens
    split at happens
    next held =>
      rw [← Option.some.inj happens]
      exact safe.keeps (safe.table.handOver held t') (KeepsMarks.same rfl rfl rfl (Or.inr (fun _ => id)))
    next => cases happens
  | setNlink t i n =>
    simp only [InodeTable.next] at happens
    split at happens
    · rw [← Option.some.inj happens]
      exact safe.modify (fun inode => { inode with nlink := n }) (fun _ => ⟨rfl, rfl, rfl, rfl, rfl, rfl⟩) i
    · cases happens

theorem Reachable.safe (reachable : Reachable s) : Safe s := by
  induction reachable with
  | start => exact safe_empty
  | step before happens ih => exact ih.next happens

/-- The inode table hands out one live inode per key: in every state that an
interleaving reaches, the keys of the hashed inodes that are not marked differ, no
reference is held to a marked inode, an inode was evicted at most once and only
without references, and the parked inodes have none. -/
theorem inode_table_safe (reachable : Reachable s) :
    (∀ i ∈ s.hash, ∀ j ∈ s.hash, (s.inode i).dying = false → (s.inode j).dying = false →
      (s.inode i).key = (s.inode j).key → i = j) ∧
    (∀ t i, (t, i) ∈ s.refs → (s.inode i).dying = false) ∧
    (∀ i, (s.inode i).evictions ≤ 1) ∧
    (∀ i, 0 < (s.inode i).evictions → (s.inode i).count = 0) ∧
    (∀ t i, 0 < s.evictors t i → (s.inode i).count = 0) ∧
    (∀ i ∈ s.lru, (s.inode i).count = 0) := by
  have safe := reachable.safe
  refine ⟨?_, ?_, ?_, ?_, ?_, ?_⟩
  · intro i member j member' _ _ same
    exact safe.table.keyed i member j member' same
  · intro t i held
    exact safe.table.held_live held
  · intro i
    exact (safe.table.evicted i).1
  · intro i evicted
    have freeing := (safe.table.evicted i).2 evicted
    refine (safe.table.marked i ?_).1
    rw [Inode.dying, freeing]
    rfl
  · intro t i positive
    exact (safe.table.marked i (safe.threads.owned t i positive).1).1
  · intro i member
    exact (safe.table.parked i member).1

end Steps

/-! ## A run -/

/-- What happens in turn; none where an event cannot happen. -/
def events [DecidableEq Key] (s : InodeTable Key) : List (Event Key) → Option (InodeTable Key)
  | [] => some s
  | event :: rest => (s.next event).bind fun s => events s rest

theorem Reachable.events [DecidableEq Key] {s s' : InodeTable Key} (reachable : Reachable s)
    {list : List (Event Key)} (happen : s.events list = some s') : Reachable s' := by
  induction list generalizing s with
  | nil =>
    rw [← Option.some.inj happen]
    exact reachable
  | cons event rest ih =>
    obtain ⟨next, first, others⟩ := Option.bind_eq_some_iff.mp happen
    exact ih (.step reachable first) others

/-- Two threads look up one key; the second takes the inode of the first, which fails
to read it, and both drop it. -/
def failedRead : List (Event Nat) :=
  let go : Choice := { drop := true, fails := false, fresh := 7, arr := [] }
  [.call 0 (.iget5Locked 5), .run 0 go, .run 0 go, .call 1 (.iget5Locked 5), .run 1 go,
    .call 0 (.igetFailed 7), .run 0 go, .run 0 go, .run 1 go, .run 1 go, .run 0 go, .run 1 go, .run 1 go,
    .run 1 go]

/-- After this run the inode was evicted once and is gone from the hash. -/
theorem inode_table_safe_failed_read :
    ∃ s : InodeTable Nat, InodeTable.empty.events failedRead = some s ∧ s.hash = [] ∧
      (s.inode 7).evictions = 1 ∧
      (∀ t i, (t, i) ∈ s.refs → (s.inode i).dying = false) ∧ ∀ i, (s.inode i).evictions ≤ 1 := by
  have computed : (match InodeTable.empty.events failedRead with
      | none => false
      | some s => decide (s.hash = [] ∧ (s.inode 7).evictions = 1)) = true := by decide +kernel
  cases result : InodeTable.empty.events failedRead with
  | none =>
    rw [result] at computed
    cases computed
  | some s =>
    rw [result] at computed
    obtain ⟨empty, once⟩ := of_decide_eq_true computed
    have safe := inode_table_safe (Reachable.start.events result)
    exact ⟨s, rfl, empty, once, safe.2.1, safe.2.2.1⟩

end InodeTable

end Ttntfs.Platform
