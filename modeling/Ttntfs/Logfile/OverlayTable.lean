import Ttntfs.Logfile.Overlay

/-!
# The cluster table is sound

Whatever clusters replay puts into its table, in whatever order, a search ends and
finds exactly the clusters that are there. The table is at most half full, so the
copies made when it grows always find room as well.
-/

namespace Ttntfs.Logfile

open Library.Probing

/-- A table of a power of two slots in which searches work. -/
structure CluTable.Indexed (t : CluTable) : Prop where
  size : ∃ b, t.cap = 2 ^ b
  probed : Probed t.cap (hashIndex t.cap) t.lcnAt
  count : t.used = (occupied t.cap t.lcnAt).card

/-- A table of a power of two slots in which searches work. The lcns are those of
mapped clusters. -/
structure CluTable.Sound (t : CluTable) : Prop where
  size : ∃ b, t.cap = 2 ^ b
  probed : Probed t.cap (hashIndex t.cap) t.lcnAt
  count : t.used = (occupied t.cap t.lcnAt).card
  lcns : ∀ i lcn, t.lcnAt i = some lcn → lcn < sparseLcn

/-- No cluster was added yet, or the table is sound and at most half full. -/
def CluTable.WellFormed (t : CluTable) : Prop :=
  t = CluTable.empty ∨ t.Sound ∧ t.used * 2 ≤ t.cap ∧ 1024 ≤ t.cap

/-- The tables replay can have: clusters are added by `ovl_clu_find`, and the data
and the dirty flag of a cluster that is there are changed through its pointer. -/
inductive CluTable.Built : CluTable → Prop
  | empty : Built CluTable.empty
  | create {t t' : CluTable} {lcn i : Nat} (built : Built t) (mapped : lcn < sparseLcn)
      (created : ovlCluCreate t lcn = some (t', i)) : Built t'
  | store {t : CluTable} {i : Nat} {c : OvlClu} (state : CluState) (built : Built t)
      (held : t.slot i = some c) : Built (t.set i { c with state })

namespace CluTable

@[simp] theorem slot_set_self (t : CluTable) (i : Nat) (c : OvlClu) : (t.set i c).slot i = some c := by
  simp [set]

theorem slot_set_of_ne (t : CluTable) {i j : Nat} (c : OvlClu) (apart : j ≠ i) :
    (t.set i c).slot j = t.slot j := by
  simp [set, apart]

@[simp] theorem lcnAt_set (t : CluTable) (i : Nat) (c : OvlClu) :
    (t.set i c).lcnAt = Function.update t.lcnAt i (some c.lcn) := by
  funext j
  by_cases same : j = i
  · subst same
    simp [set, lcnAt]
  · simp [set, lcnAt, same]

theorem lcnAt_set_same {t : CluTable} {i : Nat} {c : OvlClu} (held : t.lcnAt i = some c.lcn) :
    (t.set i c).lcnAt = t.lcnAt := by
  rw [lcnAt_set, ← held, Function.update_eq_self]

theorem hashIndex_lt {b : Nat} (lcn : Nat) : hashIndex (2 ^ b) lcn < 2 ^ b := by
  rw [hashIndex, Nat.and_two_pow_sub_one_eq_mod]
  exact Nat.mod_lt _ (Nat.two_pow_pos b)

theorem Sound.of_lcnAt {t t' : CluTable} (sound : t.Sound) (cap : t'.cap = t.cap)
    (used : t'.used = t.used) (lcns : t'.lcnAt = t.lcnAt) : t'.Sound := by
  refine { size := ?_, probed := ?_, count := ?_, lcns := ?_ }
  · rw [cap]
    exact sound.size
  · rw [cap, lcns]
    exact sound.probed
  · rw [cap, used, lcns]
    exact sound.count
  · rw [lcns]
    exact sound.lcns

theorem Sound.indexed {t : CluTable} (sound : t.Sound) : t.Indexed :=
  { size := sound.size, probed := sound.probed, count := sound.count }

theorem Indexed.cap_ne_zero {t : CluTable} (indexed : t.Indexed) : t.cap ≠ 0 :=
  Nat.pos_iff_ne_zero.mp indexed.probed.positive

theorem indexed_sized (b : Nat) : (sized (2 ^ b)).Indexed := by
  refine { size := ⟨b, rfl⟩, probed := ?_, count := ?_ }
  · refine { home_lt := hashIndex_lt, reached := ?_, room := ⟨0, Nat.two_pow_pos b, rfl⟩ }
    intro slot key _ held
    cases held
  · simp [occupied, lcnAt, sized]

/-- A search finds exactly the slot that holds the lcn. -/
theorem Indexed.find_iff {t : CluTable} (indexed : t.Indexed) {lcn i : Nat} :
    ovlCluFind t lcn = some i ↔ i < t.cap ∧ t.lcnAt i = some lcn := by
  rw [ovlCluFind, if_neg indexed.cap_ne_zero]
  by_cases present : ∃ slot, slot < t.cap ∧ t.lcnAt slot = some lcn
  · obtain ⟨slot, below, held⟩ := present
    have finds : ovlCluProbe t lcn = .found slot := indexed.probed.finds below held
    rw [finds]
    constructor
    · rintro same
      cases same
      exact ⟨below, held⟩
    · rintro ⟨below', held'⟩
      rw [indexed.probed.unique below held below' held']
  · have absent : ∀ slot, slot < t.cap → t.lcnAt slot ≠ some lcn :=
      fun slot below held => present ⟨slot, below, held⟩
    obtain ⟨d, _, _, ends, _⟩ := indexed.probed.misses absent
    have misses : ovlCluProbe t lcn = .empty (pathSlot t.cap (hashIndex t.cap lcn) d) := ends
    rw [misses]
    refine iff_of_false (by simp) ?_
    rintro ⟨below, held⟩
    exact present ⟨i, below, held⟩

/-- What a search for a cluster returns of it. -/
def stateOf (t : CluTable) (lcn : Nat) : Option CluState :=
  (ovlCluFind t lcn).bind fun i => (t.slot i).map OvlClu.state

theorem Indexed.stateOf_iff {t : CluTable} (indexed : t.Indexed) {lcn : Nat} {state : CluState} :
    t.stateOf lcn = some state ↔ ∃ i < t.cap, t.slot i = some { lcn, state } := by
  rw [stateOf, Option.bind_eq_some_iff]
  constructor
  · rintro ⟨i, found, held⟩
    obtain ⟨below, named⟩ := indexed.find_iff.mp found
    obtain ⟨c, slot, rfl⟩ := Option.map_eq_some_iff.mp held
    have same : c.lcn = lcn := by simpa [lcnAt, slot] using named
    exact ⟨i, below, by rw [slot, ← same]⟩
  · rintro ⟨i, below, slot⟩
    exact ⟨i, indexed.find_iff.mpr ⟨below, by simp [lcnAt, slot]⟩, by simp [slot]⟩

/-- Slot `i`, which was empty or the cluster's, holds the cluster now; nothing else changed. -/
structure Puts (t t' : CluTable) (i lcn : Nat) (state : CluState) : Prop where
  cap : t'.cap = t.cap
  used : t'.used ≤ t.used + 1
  below : i < t.cap
  own : ∀ other, t.lcnAt i = some other → other = lcn
  slots : t'.slot = Function.update t.slot i (some { lcn, state })

theorem Puts.lcns {t t' : CluTable} {i lcn : Nat} {state : CluState} (puts : Puts t t' i lcn state) :
    t'.lcnAt = Function.update t.lcnAt i (some lcn) := by
  funext j
  rw [lcnAt, puts.slots]
  by_cases same : j = i
  · subst same
    simp
  · simp [same, lcnAt]

/-- To a search, the cluster alone has changed. -/
theorem Puts.stateOf {t t' : CluTable} {i lcn : Nat} {state : CluState} (puts : Puts t t' i lcn state)
    (indexed : t.Indexed) (indexed' : t'.Indexed) :
    t'.stateOf = Function.update t.stateOf lcn (some state) := by
  have here : t'.slot i = some { lcn, state } := by rw [puts.slots, Function.update_self]
  have below : i < t'.cap := puts.cap ▸ puts.below
  funext other
  by_cases same : other = lcn
  · subst same
    rw [Function.update_self, indexed'.stateOf_iff]
    exact ⟨i, below, here⟩
  · rw [Function.update_of_ne same]
    refine Option.ext fun found => ?_
    rw [indexed'.stateOf_iff, indexed.stateOf_iff, puts.cap]
    refine exists_congr fun j => and_congr_right fun _ => ?_
    by_cases j_is : j = i
    · subst j_is
      rw [here]
      refine iff_of_false (by simp [Ne.symm same]) fun held => ?_
      exact same (puts.own other (by simp [lcnAt, held]))
    · rw [puts.slots, Function.update_of_ne j_is]

/-- With two slots to spare a cluster can be added; one that is there stays as it is. -/
theorem Indexed.place {t : CluTable} (indexed : t.Indexed) (lcn : Nat) (few : t.used + 1 < t.cap) :
    ∃ t' i, ovlCluPlace t lcn = some (t', i) ∧ t'.Indexed ∧
      Puts t t' i lcn ((t.stateOf lcn).getD .absent) := by
  by_cases present : ∃ slot, slot < t.cap ∧ t.lcnAt slot = some lcn
  · obtain ⟨slot, below, held⟩ := present
    have finds : ovlCluProbe t lcn = .found slot := indexed.probed.finds below held
    refine ⟨t, slot, by rw [ovlCluPlace, finds], indexed, { cap := rfl, used := Nat.le_succ _, below, own := ?_, slots := ?_ }⟩
    · intro other held'
      rw [held] at held'
      cases held'
      rfl
    · obtain ⟨c, slot_is, rfl⟩ := Option.map_eq_some_iff.mp held
      rw [indexed.stateOf_iff.mpr ⟨slot, below, slot_is⟩, Option.getD_some, ← slot_is, Function.update_eq_self]
  · have absent : ∀ slot, slot < t.cap → t.lcnAt slot ≠ some lcn :=
      fun slot below held => present ⟨slot, below, held⟩
    obtain ⟨d, short, empty, ends, others⟩ := indexed.probed.misses absent
    have below : pathSlot t.cap (hashIndex t.cap lcn) d < t.cap := Nat.mod_lt _ indexed.probed.positive
    have misses : ovlCluProbe t lcn = .empty (pathSlot t.cap (hashIndex t.cap lcn) d) := ends
    have unknown : t.stateOf lcn = none := by
      rw [stateOf, ovlCluFind, if_neg indexed.cap_ne_zero, misses]
      rfl
    have room := exists_free (by rw [← indexed.count]; exact few) (pathSlot t.cap (hashIndex t.cap lcn) d)
    obtain ⟨t', filled⟩ : ∃ t', t' = { t.set (pathSlot t.cap (hashIndex t.cap lcn) d)
        { lcn, state := .absent } with used := t.used + 1 } := ⟨_, rfl⟩
    have placed : ovlCluPlace t lcn = some (t', pathSlot t.cap (hashIndex t.cap lcn) d) := by
      rw [ovlCluPlace, misses, filled]
    have puts : Puts t t' (pathSlot t.cap (hashIndex t.cap lcn) d) lcn ((t.stateOf lcn).getD .absent) := by
      subst filled
      refine { cap := rfl, used := Nat.le_refl _, below, own := ?_, slots := by rw [unknown]; rfl }
      intro other held
      rw [empty] at held
      cases held
    have used : t'.used = t.used + 1 := by rw [filled]
    refine ⟨t', _, placed, { size := puts.cap ▸ indexed.size, probed := ?_, count := ?_ }, puts⟩
    · rw [puts.cap, puts.lcns]
      exact indexed.probed.fill empty short others room
    · rw [used, puts.cap, puts.lcns, card_occupied_update lcn below empty, indexed.count]

/-! ## Growing -/

/-- What a slot of a table adds to what searches return. -/
def putSlot (old : CluTable) (states : Nat → Option CluState) (i : Nat) : Nat → Option CluState :=
  match old.slot i with
  | none => states
  | some c => Function.update states c.lcn (some c.state)

theorem putSlot_none {old : CluTable} {i : Nat} (held : old.slot i = none) (states : Nat → Option CluState) :
    putSlot old states i = states := by
  rw [putSlot, held]

theorem putSlot_some {old : CluTable} {i : Nat} {c : OvlClu} (held : old.slot i = some c)
    (states : Nat → Option CluState) :
    putSlot old states i = Function.update states c.lcn (some c.state) := by
  rw [putSlot, held]

/-- A round of the copy loop puts the cluster of one slot, if any, into the new table. -/
theorem Indexed.move {t : CluTable} (indexed : t.Indexed) (old : CluTable) (few : t.used + 1 < t.cap) (i : Nat) :
    (ovlCluMove old t i).Indexed ∧ (ovlCluMove old t i).cap = t.cap ∧
      (ovlCluMove old t i).used ≤ t.used + (if (old.lcnAt i).isSome then 1 else 0) ∧
      (ovlCluMove old t i).stateOf = putSlot old t.stateOf i ∧
      ∀ j lcn, (ovlCluMove old t i).lcnAt j = some lcn → t.lcnAt j = some lcn ∨ old.lcnAt i = some lcn := by
  cases held : old.slot i with
  | none =>
    have same : ovlCluMove old t i = t := by rw [ovlCluMove, held]
    rw [same, putSlot_none held]
    exact ⟨indexed, rfl, Nat.le_add_right _ _, rfl, fun j lcn named => .inl named⟩
  | some c =>
    have lcnHeld : old.lcnAt i = some c.lcn := by rw [lcnAt, held]; rfl
    obtain ⟨t', j, placed, indexed', puts⟩ := indexed.place c.lcn few
    have moved : Puts t (t'.set j c) j c.lcn c.state := by
      refine { cap := puts.cap, used := puts.used, below := puts.below, own := puts.own, slots := ?_ }
      rw [set, puts.slots, Function.update_idem]
    have named : t'.lcnAt j = some c.lcn := by rw [puts.lcns, Function.update_self]
    have same : ovlCluMove old t i = t'.set j c := by rw [ovlCluMove, held]; simp only [placed]
    have kept : (t'.set j c).Indexed := by
      refine { size := indexed'.size, probed := ?_, count := ?_ }
      · rw [lcnAt_set_same named]
        exact indexed'.probed
      · rw [lcnAt_set_same named]
        exact indexed'.count
    rw [same, lcnHeld, putSlot_some held]
    refine ⟨kept, moved.cap, moved.used, moved.stateOf indexed kept, fun k lcn at_k => ?_⟩
    rw [moved.lcns] at at_k
    by_cases here : k = j
    · subst here
      rw [Function.update_self] at at_k
      exact .inr at_k
    · rw [Function.update_of_ne here] at at_k
      exact .inl at_k

/-- The copy loop puts the clusters of some slots into the new table. -/
theorem Indexed.moves {t : CluTable} (indexed : t.Indexed) (old : CluTable) (order : List Nat)
    (few : t.used + (order.filter fun i => (old.lcnAt i).isSome).length + 1 < t.cap) :
    (order.foldl (ovlCluMove old) t).Indexed ∧ (order.foldl (ovlCluMove old) t).cap = t.cap ∧
      (order.foldl (ovlCluMove old) t).used ≤
        t.used + (order.filter fun i => (old.lcnAt i).isSome).length ∧
      (order.foldl (ovlCluMove old) t).stateOf = order.foldl (putSlot old) t.stateOf ∧
      ∀ j lcn, (order.foldl (ovlCluMove old) t).lcnAt j = some lcn →
        t.lcnAt j = some lcn ∨ ∃ i, old.lcnAt i = some lcn := by
  induction order generalizing t with
  | nil => exact ⟨indexed, rfl, Nat.le_refl _, rfl, fun j lcn named => .inl named⟩
  | cons i order ih =>
    have split : ((i :: order).filter fun i => (old.lcnAt i).isSome).length =
        (if (old.lcnAt i).isSome then 1 else 0) +
          (order.filter fun i => (old.lcnAt i).isSome).length := by
      rw [List.filter_cons]
      split
      · rw [List.length_cons, Nat.add_comm]
      · rw [Nat.zero_add]
    obtain ⟨indexedMoved, cap, used, states, named⟩ := indexed.move old (by omega) i
    obtain ⟨indexedRest, capRest, usedRest, statesRest, namedRest⟩ := ih indexedMoved (by omega)
    rw [List.foldl_cons, List.foldl_cons]
    refine ⟨indexedRest, capRest.trans cap, by omega, by rw [statesRest, states], fun j lcn at_j => ?_⟩
    rcases namedRest j lcn at_j with here | there
    · exact (named j lcn here).imp_right fun held => ⟨i, held⟩
    · exact .inr there

/-- What the slots of a table put together is what searches in it return. -/
theorem Indexed.gathered {t : CluTable} (indexed : t.Indexed) :
    (List.range t.cap).foldl (putSlot t) (fun _ => none) = t.stateOf := by
  have gathers : ∀ n ≤ t.cap, ∀ lcn state,
      (List.range n).foldl (putSlot t) (fun _ => none) lcn = some state ↔ ∃ i < n, t.slot i = some { lcn, state } := by
    intro n within
    induction n with
    | zero => simp
    | succ n ih =>
      intro lcn state
      rw [List.range_succ, List.foldl_append, List.foldl_cons, List.foldl_nil]
      have earlier := ih (by omega) lcn state
      cases held : t.slot n with
      | none =>
        rw [putSlot_none held, earlier]
        constructor
        · rintro ⟨i, below, slot⟩
          exact ⟨i, by omega, slot⟩
        · rintro ⟨i, below, slot⟩
          rcases Nat.lt_succ_iff_lt_or_eq.mp below with before | rfl
          · exact ⟨i, before, slot⟩
          · rw [held] at slot
            cases slot
      | some c =>
        rw [putSlot_some held]
        by_cases same : lcn = c.lcn
        · subst same
          rw [Function.update_self]
          constructor
          · rintro ⟨⟩
            exact ⟨n, Nat.lt_succ_self n, held⟩
          · rintro ⟨i, below, slot⟩
            -- A cluster is in one slot only.
            obtain rfl : i = n := indexed.probed.unique (by omega) (by rw [lcnAt, slot]; rfl)
              within (by rw [lcnAt, held]; rfl)
            rw [held] at slot
            exact congrArg some (congrArg OvlClu.state (Option.some.inj slot))
        · rw [Function.update_of_ne same, earlier]
          constructor
          · rintro ⟨i, below, slot⟩
            exact ⟨i, by omega, slot⟩
          · rintro ⟨i, below, slot⟩
            rcases Nat.lt_succ_iff_lt_or_eq.mp below with before | rfl
            · exact ⟨i, before, slot⟩
            · rw [held] at slot
              exact absurd (congrArg OvlClu.lcn (Option.some.inj slot)).symm same
  funext lcn
  refine Option.ext fun state => ?_
  rw [gathers t.cap (le_refl _), indexed.stateOf_iff]

theorem grow_empty : ovlCluGrow CluTable.empty = some (sized 1024) := rfl

/-- No cluster was added yet, or searches work in the table and it is at most half full. -/
def Roomy (t : CluTable) : Prop :=
  t = CluTable.empty ∨ t.Indexed ∧ t.used * 2 ≤ t.cap ∧ 1024 ≤ t.cap

theorem WellFormed.roomy {t : CluTable} (wellFormed : t.WellFormed) : t.Roomy := by
  rcases wellFormed with fresh | ⟨sound, half, large⟩
  · exact .inl fresh
  · exact .inr ⟨sound.indexed, half, large⟩

/-- Before every round of the copy loop, searches work in the new table and it is at most a
quarter full. -/
theorem Indexed.copies {t : CluTable} (indexed : t.Indexed) (half : t.used * 2 ≤ t.cap) (large : 1024 ≤ t.cap)
    {k : Nat} (within : k ≤ t.cap) :
    ((List.range k).foldl (ovlCluMove t) (sized (t.cap * 2))).Indexed ∧
      ((List.range k).foldl (ovlCluMove t) (sized (t.cap * 2))).cap = t.cap * 2 ∧
      ((List.range k).foldl (ovlCluMove t) (sized (t.cap * 2))).used ≤ t.used ∧
      ((List.range k).foldl (ovlCluMove t) (sized (t.cap * 2))).stateOf =
        (List.range k).foldl (putSlot t) (fun _ => none) ∧
      ∀ j lcn, ((List.range k).foldl (ovlCluMove t) (sized (t.cap * 2))).lcnAt j = some lcn →
        ∃ i, t.lcnAt i = some lcn := by
  obtain ⟨b, size⟩ := indexed.size
  have double : t.cap * 2 = 2 ^ (b + 1) := by rw [size, Nat.pow_succ]
  have count : ((List.range t.cap).filter fun i => (t.lcnAt i).isSome).length = t.used := by
    rw [indexed.count, occupied, Finset.card_def]
    simp [Finset.filter_val, Multiset.range]
  have fewer : ((List.range k).filter fun i => (t.lcnAt i).isSome).length ≤ t.used := by
    rw [← count]
    exact ((List.range_sublist.mpr within).filter _).length_le
  have fresh : (sized (t.cap * 2)).Indexed := double ▸ indexed_sized (b + 1)
  have unknown : (sized (t.cap * 2)).stateOf = fun _ => none := by
    funext lcn
    refine Option.eq_none_iff_forall_ne_some.mpr fun state known => ?_
    obtain ⟨i, _, held⟩ := fresh.stateOf_iff.mp known
    cases held
  obtain ⟨moved, cap, used, states, named⟩ := fresh.moves t (List.range k)
    (by simp only [sized]; omega)
  refine ⟨moved, cap, ?_, by rw [states, unknown], fun j lcn at_j => ?_⟩
  · have unused : (sized (t.cap * 2)).used = 0 := rfl
    omega
  · rcases named j lcn at_j with here | there
    · cases here
    · exact there

/-- A grown table can be searched, returns the same and is at most a quarter full. -/
theorem Roomy.grow {t t' : CluTable} (roomy : t.Roomy) (grown : ovlCluGrow t = some t') :
    t'.Indexed ∧ 1024 ≤ t'.cap ∧ t'.used * 4 ≤ t'.cap ∧ t'.stateOf = t.stateOf ∧
      ∀ j lcn, t'.lcnAt j = some lcn → ∃ i, t.lcnAt i = some lcn := by
  rcases roomy with fresh | ⟨indexed, half, large⟩
  · subst fresh
    rw [grow_empty] at grown
    cases grown
    refine ⟨indexed_sized 10, Nat.le_refl _, by decide, ?_, fun j lcn held => by cases held⟩
    funext lcn
    refine (Option.eq_none_iff_forall_ne_some.mpr fun state known => ?_).trans rfl
    obtain ⟨i, _, held⟩ := (indexed_sized 10).stateOf_iff.mp known
    cases held
  · simp only [ovlCluGrow, if_neg indexed.cap_ne_zero] at grown
    split at grown
    · cases grown
    · cases grown
      obtain ⟨moved, cap, used, states, named⟩ := indexed.copies half large (le_refl t.cap)
      exact ⟨moved, by omega, by omega, states.trans indexed.gathered, named⟩

/-- What adding a cluster leaves of a table: the other clusters, in a table half full at most. -/
structure Adds (t t' : CluTable) (lcn i : Nat) : Prop where
  roomy : t'.Roomy
  below : i < t'.cap
  slot : t'.slot i = some { lcn, state := (t.stateOf lcn).getD .absent }
  states : t'.stateOf = Function.update t.stateOf lcn (some ((t.stateOf lcn).getD .absent))
  named : ∀ j other, t'.lcnAt j = some other → other = lcn ∨ ∃ i, t.lcnAt i = some other

/-- Adding a cluster to a table with room, which has the clusters of `t`. -/
theorem Indexed.adds {t t' wide : CluTable} {lcn i : Nat} (indexed : wide.Indexed) (large : 1024 ≤ wide.cap)
    (few : wide.used * 2 < wide.cap) (states : wide.stateOf = t.stateOf)
    (named : ∀ j other, wide.lcnAt j = some other → ∃ i, t.lcnAt i = some other)
    (placed : ovlCluPlace wide lcn = some (t', i)) : Adds t t' lcn i := by
  obtain ⟨t'', j, placed', indexed', puts⟩ := indexed.place lcn (by omega)
  rw [placed] at placed'
  cases placed'
  have added := puts.stateOf indexed indexed'
  rw [states] at puts added
  have cap := puts.cap
  have used := puts.used
  -- The capacity is even, so one more lcn is still at most half of it.
  obtain ⟨b, size⟩ := indexed.size
  have even : wide.cap % 2 = 0 := by
    cases b with
    | zero => omega
    | succ b => rw [size, Nat.pow_succ, Nat.mul_mod_left]
  refine { roomy := .inr ⟨indexed', by omega, by omega⟩, below := puts.cap ▸ puts.below, slot := ?_, states := added, named := ?_ }
  · rw [puts.slots, Function.update_self]
  intro j other held
  rw [puts.lcns] at held
  by_cases here : j = i
  · subst here
    rw [Function.update_self] at held
    cases held
    exact .inl rfl
  · rw [Function.update_of_ne here] at held
    exact .inr (named j other held)

theorem Roomy.create {t t' : CluTable} {lcn i : Nat} (roomy : t.Roomy) (created : ovlCluCreate t lcn = some (t', i)) :
    Adds t t' lcn i := by
  rw [ovlCluCreate] at created
  split at created
  · cases grown : ovlCluGrow t with
    | none => simp [grown] at created
    | some wide =>
      obtain ⟨indexed, large, quarter, states, named⟩ := roomy.grow grown
      simp only [grown] at created
      exact indexed.adds large (by omega) states named created
  · rcases roomy with fresh | ⟨indexed, half, large⟩
    · subst fresh
      contradiction
    · exact indexed.adds large (by omega) rfl (fun j other held => ⟨j, held⟩) created

theorem WellFormed.create {t t' : CluTable} {lcn i : Nat} (wellFormed : t.WellFormed)
    (mapped : lcn < sparseLcn) (created : ovlCluCreate t lcn = some (t', i)) : t'.WellFormed := by
  have adds := wellFormed.roomy.create created
  have below := adds.below
  rcases adds.roomy with fresh | ⟨indexed, half, large⟩
  · subst fresh
    cases below
  refine .inr ⟨{ size := indexed.size, probed := indexed.probed, count := indexed.count, lcns := ?_ }, half, large⟩
  intro j other held
  rcases adds.named j other held with rfl | ⟨k, known⟩
  · exact mapped
  · rcases wellFormed with fresh | ⟨sound, _, _⟩
    · subst fresh
      cases known
    · exact sound.lcns k other known

theorem Built.wellFormed {t : CluTable} (built : t.Built) : t.WellFormed := by
  induction built with
  | empty => exact Or.inl rfl
  | create _ mapped created ih => exact ih.create mapped created
  | @store t i c state _ held ih =>
    have lcnHeld : t.lcnAt i = some c.lcn := by rw [lcnAt, held]; rfl
    rcases ih with fresh | ⟨sound, half, large⟩
    · subst fresh
      cases held
    · exact Or.inr ⟨sound.of_lcnAt rfl rfl (lcnAt_set_same lcnHeld), half, large⟩

theorem WellFormed.find_iff {t : CluTable} (wellFormed : t.WellFormed) {lcn i : Nat} :
    ovlCluFind t lcn = some i ↔ i < t.cap ∧ t.lcnAt i = some lcn := by
  rcases wellFormed with fresh | ⟨sound, _, _⟩
  · subst fresh
    simp [ovlCluFind, CluTable.empty, sized]
  · exact sound.indexed.find_iff

end CluTable

end Ttntfs.Logfile
