import Ttntfs.Platform.InodeReferences

/-!
# Threads that evict inodes

The invariant of the threads: an inode that is being evicted is marked, has not been
evicted, and has one evictor; a victim is claimed by the thread that holds the lock of
the superblock. Marking happens under that lock and the lock of the inode, of an inode
without references; that is the step on which this part and the one about the table meet.
-/

namespace Ttntfs.Platform

namespace InodeTable

variable {Key : Type}

/-- The frame is that of a thread that is to evict the inode. -/
def evicts (i : Nat) : Frame Key → Bool
  | .writeBack j | .evict j => decide (i = j)
  | _ => false

/-- The number of evictions of an inode that a thread is in. -/
def evictors (s : InodeTable Key) (t i : Nat) : Nat := (s.stack t).countP (evicts i)

/-- The invariant of the threads. -/
structure StacksOk (s : InodeTable Key) : Prop where
  owned : ∀ t i, 0 < s.evictors t i → (s.inode i).dying = true ∧ (s.inode i).evictions = 0
  once : ∀ t i, s.evictors t i ≤ 1
  alone : ∀ t t' i, 0 < s.evictors t i → 0 < s.evictors t' i → t = t'
  claims : ∀ t i, Frame.claimVictim i ∈ s.stack t →
    s.sbHeld = some t ∧ i ∉ s.lru ∧ (s.inode i).born = true
  top : ∀ t frame rest, s.stack t = frame :: rest → ∀ i, Frame.claimVictim i ∉ rest

/-! ## Threads -/

/-- A change of the table that the evictors of inodes do not notice. -/
structure KeepsMarks (s s' : InodeTable Key) : Prop where
  stack : s'.stack = s.stack
  sbHeld : s'.sbHeld = s.sbHeld
  lru : s.sbHeld = none ∨ ∀ i ∈ s'.lru, i ∈ s.lru
  dying : ∀ i, (s.inode i).dying = true → (s'.inode i).dying = true
  evictions : ∀ i, (s'.inode i).evictions = (s.inode i).evictions
  born : ∀ i, (s.inode i).born = true → (s'.inode i).born = true

section Threads

variable {s s' s'' : InodeTable Key} {t i : Nat} {rest : List (Frame Key)}

theorem KeepsMarks.trans (first : KeepsMarks s s') (second : KeepsMarks s' s'') : KeepsMarks s s'' :=
  { stack := second.stack.trans first.stack
    sbHeld := second.sbHeld.trans first.sbHeld
    lru := by
      rcases first.lru with free | fewer
      · exact Or.inl free
      · rcases second.lru with free | fewer'
        · exact Or.inl (first.sbHeld.symm.trans free)
        · exact Or.inr (fun i member => fewer i (fewer' i member))
    dying := fun i marked => second.dying i (first.dying i marked)
    evictions := fun i => (second.evictions i).trans (first.evictions i)
    born := fun i born => second.born i (first.born i born) }

theorem KeepsMarks.same (stack : s'.stack = s.stack) (inode : s'.inode = s.inode)
    (sbHeld : s'.sbHeld = s.sbHeld) (lru : s.sbHeld = none ∨ ∀ i ∈ s'.lru, i ∈ s.lru) :
    KeepsMarks s s' := by
  constructor
  · exact stack
  · exact sbHeld
  · exact lru
  · intro i marked
    rw [inode]
    exact marked
  · intro i
    rw [inode]
  · intro i born
    rw [inode]
    exact born

/-- Nothing is noticed of a change to one inode that keeps its marks. -/
theorem KeepsMarks.modify {f : Inode Key → Inode Key}
    (dying : (s.inode i).dying = true → (f (s.inode i)).dying = true)
    (evictions : (f (s.inode i)).evictions = (s.inode i).evictions)
    (born : (s.inode i).born = true → (f (s.inode i)).born = true) : KeepsMarks s (s.modify i f) := by
  have other : ∀ j, j ≠ i → (s.modify i f).inode j = s.inode j := fun j => modify_of_ne s f
  have self : (s.modify i f).inode i = f (s.inode i) := modify_self s i f
  constructor
  · rfl
  · rfl
  · exact Or.inr (fun _ => id)
  · intro j
    by_cases same : j = i
    · rw [same, self]
      exact dying
    · rw [other j same]
      exact id
  · intro j
    by_cases same : j = i
    · rw [same, self]
      exact evictions
    · rw [other j same]
  · intro j
    by_cases same : j = i
    · rw [same, self]
      exact born
    · rw [other j same]
      exact id

theorem keepsMarks_addRef (s : InodeTable Key) (t i : Nat) : KeepsMarks s (s.addRef t i) := by
  have counted : KeepsMarks s (s.modify i fun inode => { inode with count := inode.count + 1 }) :=
    KeepsMarks.modify id rfl id
  exact counted.trans (KeepsMarks.same rfl rfl rfl (Or.inr (fun _ => id)))

theorem keepsMarks_dropRef (s : InodeTable Key) (t i : Nat) : KeepsMarks s (s.dropRef t i) := by
  have counted : KeepsMarks s (s.modify i fun inode => { inode with count := inode.count - 1 }) :=
    KeepsMarks.modify id rfl id
  exact counted.trans (KeepsMarks.same rfl rfl rfl (Or.inr (fun _ => id)))

theorem keepsMarks_iget (s : InodeTable Key) (t i : Nat) : KeepsMarks s (s.iget t i) := by
  rw [iget]
  split
  · exact (keepsMarks_addRef s t i).trans
      (KeepsMarks.same rfl rfl rfl (Or.inr (fun _ => List.mem_of_mem_erase)))
  · exact keepsMarks_addRef s t i

theorem keepsMarks_lruAdd (i : Nat) (free : s.sbHeld = none) : KeepsMarks s (s.lruAdd i) := by
  rw [lruAdd]
  split
  · exact KeepsMarks.same rfl rfl rfl (Or.inl free)
  · exact KeepsMarks.same rfl rfl rfl (Or.inl free)

theorem keepsMarks_removeHash (s : InodeTable Key) (i : Nat) : KeepsMarks s (s.removeHash i) := by
  rw [removeHash]
  split
  · exact KeepsMarks.same rfl rfl rfl (Or.inr (fun _ => id))
  · exact KeepsMarks.same rfl rfl rfl (Or.inr (fun _ => id))

/-- The threads are as they were where nothing is noticed. -/
theorem StacksOk.keeps (ok : StacksOk s) (keeps : KeepsMarks s s') : StacksOk s' := by
  have evictors : ∀ t i, s'.evictors t i = s.evictors t i := by
    intro t i
    rw [InodeTable.evictors, keeps.stack, InodeTable.evictors]
  constructor
  · intro t i positive
    rw [evictors] at positive
    obtain ⟨marked, unevicted⟩ := ok.owned t i positive
    exact ⟨keeps.dying i marked, (keeps.evictions i).trans unevicted⟩
  · intro t i
    rw [evictors]
    exact ok.once t i
  · intro t t' i
    rw [evictors, evictors]
    exact ok.alone t t' i
  · intro t i member
    rw [keeps.stack] at member
    obtain ⟨locked, unparked, born⟩ := ok.claims t i member
    refine ⟨keeps.sbHeld.trans locked, ?_, keeps.born i born⟩
    rcases keeps.lru with free | fewer
    · rw [free] at locked
      cases locked
    · exact fun parked => unparked (fewer i parked)
  · intro t frame rest here
    rw [keeps.stack] at here
    exact ok.top t frame rest here

theorem evictors_goto (s : InodeTable Key) (t t' i : Nat) (stack : List (Frame Key)) :
    (s.goto t stack).evictors t' i = if t' = t then stack.countP (evicts i) else s.evictors t' i := by
  rw [InodeTable.evictors, goto]
  by_cases same : t' = t
  · simp [same]
  · simp [same, InodeTable.evictors]

theorem goto_stack (s : InodeTable Key) (t t' : Nat) (stack : List (Frame Key)) :
    (s.goto t stack).stack t' = if t' = t then stack else s.stack t' := by
  rw [goto]
  by_cases same : t' = t
  · simp [same]
  · simp [same]

theorem StacksOk.claims_goto (ok : StacksOk s) {stack : List (Frame Key)}
    (unclaimed : ∀ i, Frame.claimVictim i ∉ stack) (t' i : Nat)
    (member : Frame.claimVictim i ∈ (s.goto t stack).stack t') :
    s.sbHeld = some t' ∧ i ∉ s.lru ∧ (s.inode i).born = true := by
  rw [goto_stack] at member
  split at member
  · exact absurd member (unclaimed i)
  · exact ok.claims t' i member

theorem StacksOk.top_goto (ok : StacksOk s) {stack : List (Frame Key)}
    (unclaimed : ∀ i, Frame.claimVictim i ∉ stack) (t' : Nat) (frame : Frame Key)
    (below : List (Frame Key)) (here : (s.goto t stack).stack t' = frame :: below) (i : Nat) :
    Frame.claimVictim i ∉ below := by
  rw [goto_stack] at here
  split at here
  · intro member
    refine unclaimed i ?_
    rw [here]
    exact List.mem_cons_of_mem _ member
  · exact ok.top t' frame below here i

theorem StacksOk.goto (ok : StacksOk s) {stack : List (Frame Key)}
    (fewer : ∀ i, stack.countP (evicts i) ≤ s.evictors t i)
    (unclaimed : ∀ i, Frame.claimVictim i ∉ stack) : StacksOk (s.goto t stack) := by
  have less : ∀ t' i, (s.goto t stack).evictors t' i ≤ s.evictors t' i := by
    intro t' i
    rw [evictors_goto]
    by_cases same : t' = t
    · rw [if_pos same, same]
      exact fewer i
    · rw [if_neg same]
  constructor
  · intro t' i positive
    exact ok.owned t' i (Nat.lt_of_lt_of_le positive (less t' i))
  · intro t' i
    exact Nat.le_trans (less t' i) (ok.once t' i)
  · intro t' t'' i first second
    exact ok.alone t' t'' i (Nat.lt_of_lt_of_le first (less t' i))
      (Nat.lt_of_lt_of_le second (less t'' i))
  · exact ok.claims_goto unclaimed
  · exact ok.top_goto unclaimed

theorem StacksOk.unowned (ok : StacksOk s) (live : (s.inode i).dying = false) (t : Nat) :
    s.evictors t i = 0 := by
  by_contra positive
  have marked := (ok.owned t i (Nat.pos_of_ne_zero positive)).1
  rw [live] at marked
  cases marked

/-- A thread that marks an inode may evict it. -/
theorem StacksOk.evictor (ok : StacksOk s) (keeps : KeepsMarks s s')
    (live : (s.inode i).dying = false) (unevicted : (s.inode i).evictions = 0)
    (marked : (s'.inode i).dying = true) {frame : Frame Key}
    (own : ∀ j, evicts j frame = decide (j = i)) (notClaim : ∀ j, frame ≠ .claimVictim j)
    (fewer : ∀ j, rest.countP (evicts j) ≤ s.evictors t j)
    (unclaimed : ∀ j, Frame.claimVictim j ∉ rest) :
    StacksOk (s'.goto t (frame :: rest)) := by
  have ok' := ok.keeps keeps
  have old : ∀ t' j, s'.evictors t' j = s.evictors t' j := by
    intro t' j
    rw [InodeTable.evictors, keeps.stack, InodeTable.evictors]
  have none : ∀ t', s.evictors t' i = 0 := ok.unowned live
  have unclaimed' : ∀ j, Frame.claimVictim j ∉ frame :: rest := by
    intro j member
    rcases List.mem_cons.mp member with this | before
    · exact notClaim j this.symm
    · exact unclaimed j before
  have count : ∀ t' j, (s'.goto t (frame :: rest)).evictors t' j =
      if t' = t then rest.countP (evicts j) + (if j = i then 1 else 0) else s.evictors t' j := by
    intro t' j
    rw [evictors_goto, List.countP_cons, own, old]
    simp
  have restNone : rest.countP (evicts i) = 0 := by
    have bound := fewer i
    rw [none t] at bound
    omega
  -- For another inode the thread has no more to do than before.
  have less : ∀ t' j, j ≠ i → (s'.goto t (frame :: rest)).evictors t' j ≤ s.evictors t' j := by
    intro t' j different
    rw [count]
    by_cases same : t' = t
    · rw [if_pos same, if_neg different, same]
      exact fewer j
    · rw [if_neg same]
  have own' : ∀ t', (s'.goto t (frame :: rest)).evictors t' i = if t' = t then 1 else 0 := by
    intro t'
    rw [count, restNone, none t', if_pos rfl]
  constructor
  · intro t' j positive
    by_cases same : j = i
    · subst same
      exact ⟨marked, (keeps.evictions j).trans unevicted⟩
    · obtain ⟨markedBefore, unevictedBefore⟩ :=
        ok.owned t' j (Nat.lt_of_lt_of_le positive (less t' j same))
      exact ⟨keeps.dying j markedBefore, (keeps.evictions j).trans unevictedBefore⟩
  · intro t' j
    by_cases same : j = i
    · subst same
      rw [own']
      split
      · exact Nat.le_refl 1
      · exact Nat.zero_le 1
    · exact Nat.le_trans (less t' j same) (ok.once t' j)
  · intro t' t'' j first second
    by_cases same : j = i
    · subst same
      rw [own'] at first second
      split at first
      next here =>
        split at second
        next here' => exact here.trans here'.symm
        next => exact absurd second (Nat.lt_irrefl 0)
      next => exact absurd first (Nat.lt_irrefl 0)
    · exact ok.alone t' t'' j (Nat.lt_of_lt_of_le first (less t' j same))
        (Nat.lt_of_lt_of_le second (less t'' j same))
  · exact ok'.claims_goto unclaimed'
  · exact ok'.top_goto unclaimed'

end Threads

end InodeTable

end Ttntfs.Platform
