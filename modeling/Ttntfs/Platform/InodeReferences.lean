import Ttntfs.Platform.InodeTable

/-!
# References to inodes

The invariant of the table apart from the threads: the count of an inode is the number of
references that are held, a marked inode has none and is not parked, and the keys on the
hash differ. One lemma for each change that the sections make to the table.
-/

namespace Ttntfs.Platform

namespace InodeTable

variable {Key : Type}

/-- The number of references to an inode that threads hold. -/
def holders (s : InodeTable Key) (i : Nat) : Nat := s.refs.countP fun held => held.2 = i

/-- The invariant of the table. -/
structure TableOk (s : InodeTable Key) : Prop where
  counted : ∀ i, (s.inode i).count = s.holders i
  marked : ∀ i, (s.inode i).dying = true → (s.inode i).count = 0 ∧ i ∉ s.lru
  parked : ∀ i ∈ s.lru, (s.inode i).count = 0 ∧ (s.inode i).born = true
  lruNodup : s.lru.Nodup
  hashNodup : s.hash.Nodup
  keyed : ∀ i ∈ s.hash, ∀ j ∈ s.hash, (s.inode i).key = (s.inode j).key → i = j
  hashed : ∀ i ∈ s.hash, (s.inode i).born = true
  listed : ∀ i ∈ s.inodes, (s.inode i).born = true
  unborn : ∀ i, (s.inode i).born = false → (s.inode i).dying = false ∧ (s.inode i).count = 0
  evicted : ∀ i, (s.inode i).evictions ≤ 1 ∧ (0 < (s.inode i).evictions → (s.inode i).freeing = true)

/-! ## Counting references -/

theorem holders_cons (refs : Multiset (Nat × Nat)) (t i j : Nat) :
    ((t, i) ::ₘ refs).countP (fun held => held.2 = j) =
      refs.countP (fun held => held.2 = j) + if i = j then 1 else 0 :=
  Multiset.countP_cons _ _ _

theorem holders_erase {refs : Multiset (Nat × Nat)} {t i : Nat} (held : (t, i) ∈ refs) (j : Nat) :
    (refs.erase (t, i)).countP (fun held => held.2 = j) + (if i = j then 1 else 0) =
      refs.countP (fun held => held.2 = j) := by
  rw [← holders_cons, Multiset.cons_erase held]

section Table

variable {s : InodeTable Key} {t i : Nat}

theorem TableOk.count_pos (ok : TableOk s) (held : (t, i) ∈ s.refs) : 0 < (s.inode i).count := by
  rw [ok.counted, holders]
  exact Multiset.countP_pos_of_mem held rfl

theorem TableOk.held_live (ok : TableOk s) (held : (t, i) ∈ s.refs) : (s.inode i).dying = false := by
  have positive := ok.count_pos held
  by_contra marked
  have zero := (ok.marked i (by simpa using marked)).1
  omega

theorem TableOk.live_unevicted (ok : TableOk s) (live : (s.inode i).dying = false) :
    (s.inode i).evictions = 0 := by
  by_contra evicted
  have freeing := (ok.evicted i).2 (Nat.pos_of_ne_zero evicted)
  rw [Inode.dying, freeing] at live
  cases live

end Table

/-! ## Changes to one inode -/

section Modify

variable {s : InodeTable Key}

@[simp] theorem modify_self (s : InodeTable Key) (i : Nat) (f : Inode Key → Inode Key) :
    (s.modify i f).inode i = f (s.inode i) := by
  simp [modify]

theorem modify_of_ne (s : InodeTable Key) {i j : Nat} (f : Inode Key → Inode Key) (different : j ≠ i) :
    (s.modify i f).inode j = s.inode j := by
  simp [modify, different]

/-- A change of an inode that keeps what the table relies on. -/
theorem TableOk.modify (ok : TableOk s) {i : Nat} {f : Inode Key → Inode Key}
    (key : (f (s.inode i)).key = (s.inode i).key) (born : (f (s.inode i)).born = (s.inode i).born)
    (count : (f (s.inode i)).count = (s.inode i).count)
    (marked : (f (s.inode i)).dying = true → (s.inode i).count = 0 ∧ i ∉ s.lru)
    (unborn : (s.inode i).born = false → (f (s.inode i)).dying = false)
    (evicted : (f (s.inode i)).evictions ≤ 1 ∧
      (0 < (f (s.inode i)).evictions → (f (s.inode i)).freeing = true)) : TableOk (s.modify i f) := by
  have keys : ∀ j, ((s.modify i f).inode j).key = (s.inode j).key := by
    intro j
    by_cases same : j = i
    · rw [same, modify_self, key]
    · rw [modify_of_ne s f same]
  have births : ∀ j, ((s.modify i f).inode j).born = (s.inode j).born := by
    intro j
    by_cases same : j = i
    · rw [same, modify_self, born]
    · rw [modify_of_ne s f same]
  have counts : ∀ j, ((s.modify i f).inode j).count = (s.inode j).count := by
    intro j
    by_cases same : j = i
    · rw [same, modify_self, count]
    · rw [modify_of_ne s f same]
  constructor
  · intro j
    rw [counts]
    exact ok.counted j
  · intro j
    rw [counts]
    by_cases same : j = i
    · rw [same, modify_self]
      exact marked
    · rw [modify_of_ne s f same]
      exact ok.marked j
  · intro j
    rw [counts, births]
    exact ok.parked j
  · exact ok.lruNodup
  · exact ok.hashNodup
  · intro j member k member'
    rw [keys, keys]
    exact ok.keyed j member k member'
  · intro j
    rw [births]
    exact ok.hashed j
  · intro j
    rw [births]
    exact ok.listed j
  · intro j
    rw [births, counts]
    by_cases same : j = i
    · rw [same, modify_self]
      exact fun no => ⟨unborn no, (ok.unborn i no).2⟩
    · rw [modify_of_ne s f same]
      exact ok.unborn j
  · intro j
    by_cases same : j = i
    · rw [same, modify_self]
      exact evicted
    · rw [modify_of_ne s f same]
      exact ok.evicted j

end Modify

/-! ## References -/

section References

variable {s : InodeTable Key} {t i : Nat}

theorem TableOk.goto (ok : TableOk s) (t : Nat) (stack : List (Frame Key)) : TableOk (s.goto t stack) :=
  { counted := ok.counted, marked := ok.marked, parked := ok.parked, lruNodup := ok.lruNodup
    hashNodup := ok.hashNodup, keyed := ok.keyed, hashed := ok.hashed, listed := ok.listed
    unborn := ok.unborn, evicted := ok.evicted }

theorem TableOk.setSb (ok : TableOk s) (holder : Option Nat) : TableOk { s with sbHeld := holder } :=
  { counted := ok.counted, marked := ok.marked, parked := ok.parked, lruNodup := ok.lruNodup
    hashNodup := ok.hashNodup, keyed := ok.keyed, hashed := ok.hashed, listed := ok.listed
    unborn := ok.unborn, evicted := ok.evicted }

theorem TableOk.setLru (ok : TableOk s) {lru : List Nat} (fewer : lru.Sublist s.lru) :
    TableOk { s with lru := lru } :=
  { counted := ok.counted
    marked := fun j marked => ⟨(ok.marked j marked).1, fun member => (ok.marked j marked).2
      (fewer.subset member)⟩
    parked := fun j member => ok.parked j (fewer.subset member)
    lruNodup := ok.lruNodup.sublist fewer
    hashNodup := ok.hashNodup, keyed := ok.keyed, hashed := ok.hashed, listed := ok.listed
    unborn := ok.unborn, evicted := ok.evicted }

/-- The references to a live inode that is not parked are counted anew. -/
theorem TableOk.recount (ok : TableOk s) {n : Nat} {refs : Multiset (Nat × Nat)}
    {f : Inode Key → Inode Key} (shape : f (s.inode i) = { s.inode i with count := n })
    (counts : ∀ j, refs.countP (fun held => held.2 = j) = if j = i then n else (s.inode j).count)
    (live : (s.inode i).dying = false) (born : (s.inode i).born = true) (unparked : i ∉ s.lru) :
    TableOk { s.modify i f with refs := refs } := by
  have other : ∀ j, j ≠ i → (s.modify i f).inode j = s.inode j := fun j => modify_of_ne s f
  have self : (s.modify i f).inode i = { s.inode i with count := n } := by rw [modify_self, shape]
  have keys : ∀ j, ((s.modify i f).inode j).key = (s.inode j).key := by
    intro j
    by_cases same : j = i
    · rw [same, self]
    · rw [other j same]
  have births : ∀ j, ((s.modify i f).inode j).born = (s.inode j).born := by
    intro j
    by_cases same : j = i
    · rw [same, self]
    · rw [other j same]
  constructor
  · intro j
    refine Eq.trans ?_ (counts j).symm
    by_cases same : j = i
    · rw [if_pos same, same]
      exact congrArg Inode.count self
    · rw [if_neg same]
      exact congrArg Inode.count (other j same)
  · intro j marked
    by_cases same : j = i
    · subst same
      have dead : ((s.modify j f).inode j).dying = true := marked
      rw [self] at dead
      have dead' : (s.inode j).dying = true := dead
      rw [live] at dead'
      cases dead'
    · have same' : (s.modify i f).inode j = s.inode j := other j same
      simp only [same'] at marked ⊢
      exact ok.marked j marked
  · intro j member
    have same : j ≠ i := by
      rintro rfl
      exact unparked member
    have same' : (s.modify i f).inode j = s.inode j := other j same
    simp only [same']
    exact ok.parked j member
  · exact ok.lruNodup
  · exact ok.hashNodup
  · intro j member k member'
    simp only [keys]
    exact ok.keyed j member k member'
  · intro j
    simp only [births]
    exact ok.hashed j
  · intro j
    simp only [births]
    exact ok.listed j
  · intro j
    by_cases same : j = i
    · simp only [births, same, born]
      intro no
      cases no
    · have same' : (s.modify i f).inode j = s.inode j := other j same
      simp only [same']
      exact ok.unborn j
  · intro j
    by_cases same : j = i
    · subst same
      simp only [self]
      exact ok.evicted j
    · have same' : (s.modify i f).inode j = s.inode j := other j same
      simp only [same']
      exact ok.evicted j

theorem TableOk.addRef (ok : TableOk s) (t : Nat) (live : (s.inode i).dying = false)
    (born : (s.inode i).born = true) (unparked : i ∉ s.lru) : TableOk (s.addRef t i) := by
  refine ok.recount rfl ?_ live born unparked
  intro j
  have counted : (s.inode j).count = s.refs.countP (fun held => held.2 = j) := ok.counted j
  rw [holders_cons, ← counted]
  by_cases same : j = i
  · rw [if_pos same.symm, if_pos same, same]
  · rw [if_neg (Ne.symm same), if_neg same, Nat.add_zero]

theorem TableOk.unparked (ok : TableOk s) (positive : (s.inode i).count ≠ 0) : i ∉ s.lru :=
  fun member => positive (ok.parked i member).1

theorem TableOk.iget (ok : TableOk s) (t : Nat) (live : (s.inode i).dying = false)
    (born : (s.inode i).born = true) : TableOk (s.iget t i) := by
  rw [InodeTable.iget]
  split
  · -- The list is left before the reference is counted; the result is the same.
    have absent : i ∉ s.lru.erase i := by
      intro member
      exact (List.Nodup.mem_erase_iff ok.lruNodup).mp member |>.1 rfl
    exact (ok.setLru List.erase_sublist).addRef t live born absent
  · exact ok.addRef t live born (ok.unparked ‹_›)

theorem TableOk.dropRef (ok : TableOk s) (held : (t, i) ∈ s.refs) : TableOk (s.dropRef t i) := by
  have positive := ok.count_pos held
  have born : (s.inode i).born = true := by
    by_contra no
    have none := (ok.unborn i (by simpa using no)).2
    omega
  refine ok.recount rfl ?_ (ok.held_live held) born (ok.unparked (Nat.pos_iff_ne_zero.mp positive))
  intro j
  have counted : (s.inode j).count = s.refs.countP (fun held => held.2 = j) := ok.counted j
  have fewer := holders_erase held j
  rw [← counted] at fewer
  by_cases same : j = i
  · subst same
    rw [if_pos rfl] at fewer ⊢
    omega
  · rw [if_neg (Ne.symm same)] at fewer
    rw [if_neg same]
    exact fewer

theorem TableOk.handOver (ok : TableOk s) (held : (t, i) ∈ s.refs) (t' : Nat) :
    TableOk { s with refs := (t', i) ::ₘ s.refs.erase (t, i) } :=
  { counted := by
      intro j
      refine (ok.counted j).trans ?_
      rw [holders, ← holders_erase held j, ← holders_cons]
      exact ((holders_cons _ t i j).trans (holders_cons _ t' i j).symm)
    marked := ok.marked, parked := ok.parked, lruNodup := ok.lruNodup
    hashNodup := ok.hashNodup, keyed := ok.keyed, hashed := ok.hashed, listed := ok.listed
    unborn := ok.unborn, evicted := ok.evicted }

/-- An inode without references may be parked. -/
theorem TableOk.lruAdd (ok : TableOk s) (zero : (s.inode i).count = 0)
    (live : (s.inode i).dying = false) (born : (s.inode i).born = true) : TableOk (s.lruAdd i) := by
  rw [InodeTable.lruAdd]
  split
  · exact ok
  next absent =>
    refine { counted := ok.counted, marked := ?_, parked := ?_, lruNodup := ?_,
             hashNodup := ok.hashNodup, keyed := ok.keyed, hashed := ok.hashed, listed := ok.listed,
             unborn := ok.unborn, evicted := ok.evicted }
    · intro j marked
      refine ⟨(ok.marked j marked).1, ?_⟩
      intro member
      rcases List.mem_append.mp member with before | last
      · exact (ok.marked j marked).2 before
      · have marked' : (s.inode i).dying = true := by
          rw [← List.mem_singleton.mp last]
          exact marked
        rw [live] at marked'
        cases marked'
    · intro j member
      rcases List.mem_append.mp member with before | last
      · exact ok.parked j before
      · rw [List.mem_singleton.mp last]
        exact ⟨zero, born⟩
    · refine List.nodup_append.mpr ⟨ok.lruNodup, List.nodup_singleton i, ?_⟩
      rintro j before k last rfl
      exact absent (List.mem_singleton.mp last ▸ before)

end References

/-! ## The hash -/

section Hash

variable {s : InodeTable Key} {t i : Nat}

theorem TableOk.removeHash (ok : TableOk s) (i : Nat) : TableOk (s.removeHash i) := by
  rw [InodeTable.removeHash]
  split
  · exact { counted := ok.counted, marked := ok.marked, parked := ok.parked, lruNodup := ok.lruNodup
            hashNodup := ok.hashNodup.erase i
            keyed := fun j member k member' =>
              ok.keyed j (List.mem_of_mem_erase member) k (List.mem_of_mem_erase member')
            hashed := fun j member => ok.hashed j (List.mem_of_mem_erase member)
            listed := ok.listed, unborn := ok.unborn, evicted := ok.evicted }
  · exact ok

theorem TableOk.unlist (ok : TableOk s) (i : Nat) : TableOk { s with inodes := s.inodes.erase i } :=
  { counted := ok.counted, marked := ok.marked, parked := ok.parked, lruNodup := ok.lruNodup
    hashNodup := ok.hashNodup, keyed := ok.keyed, hashed := ok.hashed
    listed := fun j member => ok.listed j (List.mem_of_mem_erase member)
    unborn := ok.unborn, evicted := ok.evicted }

variable [DecidableEq Key]

theorem findInode_mem {key : Key} (found : s.findInode key = some i) : i ∈ s.hash :=
  List.mem_of_find?_eq_some found

/-- A new inode may be hashed under a key that a lookup does not find. -/
theorem TableOk.insertNew (ok : TableOk s) (t : Nat) {key : Key} (missed : s.findInode key = none)
    (fresh : (s.inode i).born = false) : TableOk (s.insertNew t i key) := by
  have unparked : i ∉ s.lru := by
    intro member
    have born := (ok.parked i member).2
    rw [fresh] at born
    cases born
  have unhashed : i ∉ s.hash := by
    intro member
    have born := ok.hashed i member
    rw [fresh] at born
    cases born
  have other : ∀ j, j ≠ i → (s.insertNew t i key).inode j = s.inode j := by
    intro j different
    simp [InodeTable.insertNew, different]
  have self : (s.insertNew t i key).inode i =
      { key := some key, count := 1, nlink := 1, isNew := true, willFree := false
        freeing := false, born := true, freed := false, evictions := 0 } := by
    simp [InodeTable.insertNew]
  have otherKey : ∀ j ∈ s.hash, (s.inode j).key ≠ some key := by
    intro j member
    have test := List.find?_eq_none.mp missed j member
    simpa using test
  constructor
  · intro j
    have holders : (s.insertNew t i key).holders j = s.holders j + if i = j then 1 else 0 :=
      holders_cons s.refs t i j
    rw [holders, ← ok.counted j]
    by_cases same : j = i
    · rw [same, self, if_pos rfl, (ok.unborn i fresh).2]
    · rw [other j same, if_neg (Ne.symm same), Nat.add_zero]
  · intro j marked
    by_cases same : j = i
    · rw [same, self] at marked
      cases marked
    · rw [other j same] at marked ⊢
      exact ok.marked j marked
  · intro j member
    have same : j ≠ i := by
      rintro rfl
      exact unparked member
    rw [other j same]
    exact ok.parked j member
  · exact ok.lruNodup
  · exact List.nodup_cons.mpr ⟨unhashed, ok.hashNodup⟩
  · intro j member k member' sameKey
    rcases List.mem_cons.mp member with rfl | old
    · rcases List.mem_cons.mp member' with rfl | old'
      · rfl
      · have different : k ≠ j := by
          rintro rfl
          exact unhashed old'
        rw [self, other k different] at sameKey
        exact absurd sameKey.symm (otherKey k old')
    · have different : j ≠ i := by
        rintro rfl
        exact unhashed old
      rcases List.mem_cons.mp member' with rfl | old'
      · rw [self, other j different] at sameKey
        exact absurd sameKey (otherKey j old)
      · have different' : k ≠ i := by
          rintro rfl
          exact unhashed old'
        rw [other j different, other k different'] at sameKey
        exact ok.keyed j old k old' sameKey
  · intro j member
    by_cases same : j = i
    · rw [same, self]
    · rw [other j same]
      exact ok.hashed j ((List.mem_cons.mp member).resolve_left same)
  · intro j member
    by_cases same : j = i
    · rw [same, self]
    · rw [other j same]
      exact ok.listed j ((List.mem_cons.mp member).resolve_left same)
  · intro j
    by_cases same : j = i
    · rw [same, self]
      intro no
      cases no
    · rw [other j same]
      exact ok.unborn j
  · intro j
    by_cases same : j = i
    · rw [same, self]
      exact ⟨Nat.zero_le 1, fun positive => absurd positive (Nat.lt_irrefl 0)⟩
    · rw [other j same]
      exact ok.evicted j

end Hash

end InodeTable

end Ttntfs.Platform
