import Ttntfs.Logfile.OverlayTable

/-!
# The cluster table is a map

To its callers the hash table is a map from cluster numbers to what is known of the
clusters. A search returns what was put there last, whatever was added in between and
however often the table has grown.
-/

namespace Ttntfs.Logfile

open Library.Probing

/-- What is known of the clusters: the map that a table stands for. -/
abbrev CluMap := Nat → Option CluState

/-- The calls of `ovl_clu_find`, with and without `create`, and the changes of an entry through
its pointer. The memory for a larger table is there or is not. -/
inductive CluCall where
  | find (lcn : Nat)
  | create (lcn : Nat) (memory : Bool)
  | store (lcn : Nat) (state : CluState)

/-- The table after a call, and the entry that the call returns. -/
def CluTable.call (t : CluTable) : CluCall → CluTable × Option OvlClu
  | .find lcn => (t, (ovlCluFind t lcn).bind t.slot)
  | .create lcn memory =>
    if t.used * 2 ≥ t.cap ∧ memory = false then (t, none)
    else
      match ovlCluCreate t lcn with
      | none => (t, none)
      | some (t', i) => (t', t'.slot i)
  | .store lcn state =>
    match ovlCluFind t lcn with
    | none => (t, none)
    | some i => (t.set i { lcn, state }, some { lcn, state })

/-- The map after a call that returned an entry or none. -/
def CluCall.onMap (m : CluMap) (answer : Option OvlClu) : CluCall → CluMap
  | .find _ => m
  | .create lcn _ => if answer.isNone then m else Function.update m lcn (some ((m lcn).getD .absent))
  | .store lcn state => if (m lcn).isNone then m else Function.update m lcn (some state)

/-- What a call returns is what the map has of the cluster. A cluster that is new has no data
and is clean; it is refused only where the table cannot be grown. -/
def CluCall.Answers (t : CluTable) (m : CluMap) (answer : Option OvlClu) : CluCall → Prop
  | .find lcn => answer = (m lcn).map fun state => { lcn, state }
  | .create lcn memory => answer = some { lcn, state := (m lcn).getD .absent } ∨
      (answer = none ∧ t.cap ≤ t.used * 2 ∧ (memory = false ∨ 2 ^ 32 ≤ t.cap * 2))
  | .store lcn state => answer = (m lcn).map fun _ => { lcn, state }

/-- The table and its map after some calls. -/
def runCalls : CluTable → CluMap → List CluCall → CluTable × CluMap
  | t, m, [] => (t, m)
  | t, m, call :: rest => runCalls (t.call call).1 (call.onMap m (t.call call).2) rest

namespace CluTable

theorem Roomy.find_iff {t : CluTable} (roomy : t.Roomy) {lcn i : Nat} :
    ovlCluFind t lcn = some i ↔ i < t.cap ∧ t.lcnAt i = some lcn := by
  rcases roomy with fresh | ⟨indexed, _, _⟩
  · subst fresh
    simp [ovlCluFind, CluTable.empty, sized]
  · exact indexed.find_iff

theorem Roomy.entry {t : CluTable} (roomy : t.Roomy) (lcn : Nat) :
    (ovlCluFind t lcn).bind t.slot = (t.stateOf lcn).map fun state => { lcn, state } := by
  rw [stateOf]
  cases found : ovlCluFind t lcn with
  | none => rfl
  | some i =>
    obtain ⟨c, slot, rfl⟩ := Option.map_eq_some_iff.mp (roomy.find_iff.mp found).2
    simp [slot]

/-- What a search finds can be changed; nothing else changes. -/
theorem Roomy.store {t : CluTable} (roomy : t.Roomy) {lcn i : Nat} (found : ovlCluFind t lcn = some i)
    (state : CluState) :
    (t.set i { lcn, state }).Roomy ∧ (t.set i { lcn, state }).stateOf = Function.update t.stateOf lcn (some state) := by
  obtain ⟨below, held⟩ := roomy.find_iff.mp found
  rcases roomy with fresh | ⟨indexed, half, large⟩
  · subst fresh
    cases below
  have named : (t.set i { lcn, state }).lcnAt = t.lcnAt := lcnAt_set_same held
  have kept : (t.set i { lcn, state }).Indexed := by
    refine { size := indexed.size, probed := ?_, count := ?_ }
    · rw [named]
      exact indexed.probed
    · rw [named]
      exact indexed.count
  have puts : Puts t (t.set i { lcn, state }) i lcn state := by
    refine { cap := rfl, used := Nat.le_succ _, below, own := fun other held' => ?_, slots := rfl }
    rw [held] at held'
    cases held'
    rfl
  exact ⟨.inr ⟨kept, half, large⟩, puts.stateOf indexed kept⟩

theorem Indexed.probe_ends {t : CluTable} (indexed : t.Indexed) (lcn : Nat) : ovlCluProbe t lcn ≠ .endless := by
  intro endless
  by_cases present : ∃ slot, slot < t.cap ∧ t.lcnAt slot = some lcn
  · obtain ⟨slot, below, held⟩ := present
    have finds : ovlCluProbe t lcn = .found slot := indexed.probed.finds below held
    rw [finds] at endless
    cases endless
  · obtain ⟨d, _, _, ends, _⟩ := indexed.probed.misses fun slot below held => present ⟨slot, below, held⟩
    have misses : ovlCluProbe t lcn = .empty (pathSlot t.cap (hashIndex t.cap lcn) d) := ends
    rw [misses] at endless
    cases endless

/-- A cluster is refused only where the table is to grow and cannot. -/
theorem Roomy.create_refused {t : CluTable} (roomy : t.Roomy) {lcn : Nat} (refused : ovlCluCreate t lcn = none) :
    t.cap ≤ t.used * 2 ∧ 2 ^ 32 ≤ t.cap * 2 := by
  rw [ovlCluCreate] at refused
  split at refused
  next full =>
    refine ⟨full, ?_⟩
    cases grown : ovlCluGrow t with
    | none =>
      rw [ovlCluGrow] at grown
      split at grown
      next empty => simp at grown
      next => 
        split at grown
        next wide => exact wide
        next => cases grown
    | some wide =>
      obtain ⟨indexed, large, quarter, _, _⟩ := roomy.grow grown
      obtain ⟨t', i, placed, _⟩ := indexed.place lcn (by omega)
      simp [grown, placed] at refused
  next room =>
    rcases roomy with fresh | ⟨indexed, half, large⟩
    · subst fresh
      exact absurd (by decide) room
    · obtain ⟨t', i, placed, _⟩ := indexed.place lcn (by omega)
      rw [placed] at refused
      cases refused

/-- A call does to the table what it does to the map, and answers as the map says. -/
theorem Roomy.call {t : CluTable} (roomy : t.Roomy) (call : CluCall) :
    (t.call call).1.Roomy ∧ (t.call call).1.stateOf = call.onMap t.stateOf (t.call call).2 ∧
      call.Answers t t.stateOf (t.call call).2 := by
  cases call with
  | find lcn => exact ⟨roomy, rfl, roomy.entry lcn⟩
  | create lcn memory =>
    rw [CluTable.call]
    split
    next short => exact ⟨roomy, rfl, .inr ⟨rfl, short.1, .inl short.2⟩⟩
    next =>
      cases created : ovlCluCreate t lcn with
      | none =>
        obtain ⟨full, wide⟩ := roomy.create_refused created
        exact ⟨roomy, rfl, .inr ⟨rfl, full, .inr wide⟩⟩
      | some result =>
        obtain ⟨t', i⟩ := result
        have adds := roomy.create created
        refine ⟨adds.roomy, ?_, .inl adds.slot⟩
        simp only [CluCall.onMap, adds.slot, Option.isNone_some, Bool.false_eq_true, if_false]
        exact adds.states
  | store lcn state =>
    have entry := roomy.entry lcn
    rw [CluTable.call]
    cases found : ovlCluFind t lcn with
    | none =>
      have unknown : t.stateOf lcn = none := by rw [stateOf, found]; rfl
      exact ⟨roomy, by rw [CluCall.onMap, unknown]; rfl, by rw [CluCall.Answers, unknown]; rfl⟩
    | some i =>
      obtain ⟨roomy', states⟩ := roomy.store found state
      obtain ⟨c, slot, same⟩ := Option.map_eq_some_iff.mp (roomy.find_iff.mp found).2
      have known : t.stateOf lcn = some c.state := by rw [stateOf, found]; simp [slot]
      refine ⟨roomy', ?_, by rw [CluCall.Answers, known]; rfl⟩
      rw [states, CluCall.onMap, known]
      rfl

theorem Roomy.runCalls {t : CluTable} (roomy : t.Roomy) (calls : List CluCall) :
    (runCalls t t.stateOf calls).1.Roomy ∧ (runCalls t t.stateOf calls).1.stateOf = (runCalls t t.stateOf calls).2 := by
  induction calls generalizing t with
  | nil => exact ⟨roomy, rfl⟩
  | cons call rest ih =>
    obtain ⟨roomy', states, _⟩ := roomy.call call
    rw [Logfile.runCalls, ← states]
    exact ih roomy'

end CluTable

open CluTable

/-- After any calls the table is the map that the calls make: every further call answers as the
map says, two clusters have different entries, growing the table changes no entry, and every
search ends, those of the copy loop included, which never starts another growth. -/
theorem cluster_table_is_map (calls : List CluCall) :
    let (t, m) := runCalls CluTable.empty (fun _ => none) calls
    (∀ call : CluCall, call.Answers t m (t.call call).2) ∧
      (∀ lcn other i, ovlCluFind t lcn = some i → ovlCluFind t other = some i → lcn = other) ∧
      (∀ wide, ovlCluGrow t = some wide → ∀ lcn,
        (wide.call (.find lcn)).2 = (t.call (.find lcn)).2 ∧ ovlCluProbe wide lcn ≠ .endless) ∧
      (t.cap ≠ 0 → ∀ lcn, ovlCluProbe t lcn ≠ .endless ∧ ∀ k ≤ t.cap,
        let copied := (List.range k).foldl (ovlCluMove t) (sized (t.cap * 2))
        ovlCluProbe copied lcn ≠ .endless ∧ copied.used * 2 < copied.cap) := by
  have unknown : CluTable.empty.stateOf = fun _ => none := rfl
  obtain ⟨roomy, states⟩ := Roomy.runCalls (.inl rfl : CluTable.empty.Roomy) calls
  rw [unknown] at roomy states
  generalize runCalls CluTable.empty (fun _ => none) calls = after at roomy states
  obtain ⟨t, m⟩ := after
  dsimp only at roomy states ⊢
  subst states
  refine ⟨fun call => (roomy.call call).2.2, fun lcn other i found same => ?_, fun wide grown lcn => ?_, fun used lcn => ?_⟩
  · have first := (roomy.find_iff.mp found).2
    rw [(roomy.find_iff.mp same).2] at first
    cases first
    rfl
  · obtain ⟨indexed, large, quarter, states, _⟩ := roomy.grow grown
    have wideRoomy : wide.Roomy := .inr ⟨indexed, by omega, large⟩
    refine ⟨?_, indexed.probe_ends lcn⟩
    rw [CluTable.call, CluTable.call]
    exact (wideRoomy.entry lcn).trans ((congrArg (Option.map _) (congrFun states lcn)).trans (roomy.entry lcn).symm)
  · rcases roomy with fresh | ⟨indexed, half, large⟩
    · subst fresh
      exact absurd rfl used
    · refine ⟨indexed.probe_ends lcn, fun k within => ?_⟩
      obtain ⟨copied, cap, fewer, _, _⟩ := indexed.copies half large within
      exact ⟨copied.probe_ends lcn, by omega⟩

end Ttntfs.Logfile
