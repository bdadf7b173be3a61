import Ttntfs.Logfile.ClusterFlush

/-!
# When a flush is faithful

A faithful flush leaves every dirty cluster with its data and touches nothing else
but the dirty MFT records and the copies `$MFTMirr` keeps of the first of them. The
record loop always keeps to this. The cluster loop may leave dirty clusters
unwritten: it does so exactly when a run of more than 256 of them has no staircase
in the order of the slots.
-/

namespace Ttntfs.Logfile

open Library.ByteMemory Library.Probing Library.CappedDrain

/-- The run list of `$MFTMirr`, as its record in the overlay has it. -/
def mirrOf (ovl : Overlay) : OpenAttr :=
  match ovlMftLookup ovl mftRecMirr with
  | none => OpenAttr.empty
  | some mm =>
    if !mm.bad && checkFileRecord ovl.rs mm.record then
      match unnamedData mm.record (ovl.rs + 1) (lfGet16 mm.record mrAttrsOffset) with
      | none => OpenAttr.empty
      | some off => (oaLoadExtent OpenAttr.empty mm.record off).1
    else OpenAttr.empty

/-- A cluster is part of the copy `$MFTMirr` has of records 0 to 3. -/
def MirrCluster (ovl : Overlay) (lcn : Nat) : Prop :=
  ∃ no, no ≤ mftRecVol ∧ runLookup (mirrOf ovl) (no * ovl.rs / ovl.cs) = some lcn

/-- A cluster is part of a dirty MFT record. -/
def RecordCluster (ap : Apply) (mft : List OvlMft) (lcn : Nat) : Prop :=
  ∃ m, m ∈ mft ∧ m.dirty = true ∧ ap.holdsRecord m.mftNo lcn

theorem decodePairs_append (mp : Mem) (mpLen fuel i vcn : Nat) (lcn : Int) (runs : List Run) :
    (decodePairs mp mpLen fuel i vcn lcn runs).1 =
      runs ++ (decodePairs mp mpLen fuel i vcn lcn []).1 := by
  induction fuel generalizing i vcn lcn runs with
  | zero => simp [decodePairs]
  | succ fuel ih =>
    have next := fun i vcn lcn run => ih i vcn lcn (runs ++ [run])
    have alone := fun i vcn lcn run => ih i vcn lcn [run]
    simp only [decodePairs]
    split
    · split
      · simp
      split
      · simp
      · split
        · split
          · simp
          · simp only [List.nil_append]
            rw [next, alone, List.append_assoc]
        · simp only [List.nil_append]
          rw [next, alone, List.append_assoc]
    · simp

theorem oaLoadExtent_runs (oa : OpenAttr) (record : Mem) (off : Nat) :
    (oaLoadExtent oa record off).1.ovr = oa.ovr ∧
      (oaLoadExtent oa record off).1.runs =
        oa.runs ++ (oaLoadExtent OpenAttr.empty record off).1.runs := by
  simp only [oaLoadExtent]
  split
  · exact ⟨rfl, by simp [OpenAttr.empty]⟩
  · split
    · exact ⟨rfl, by simp [OpenAttr.empty]⟩
    · split
      · exact ⟨rfl, decodePairs_append _ _ _ _ _ _ _⟩
      · exact ⟨rfl, decodePairs_append _ _ _ _ _ _ _⟩

theorem mirrOf_ovr (ovl : Overlay) : (mirrOf ovl).ovr = [] := by
  simp only [mirrOf]
  split
  · rfl
  · split
    · split
      · rfl
      · exact (oaLoadExtent_runs _ _ _).1
    · rfl

/-- What the flush knows of `$MFTMirr` is what its record in the overlay says. -/
structure MirrKnown (s : FlushState) : Prop where
  ovr : s.mirr.ovr = []
  runs : ∀ p run, s.mirr.runs.find? p = some run → (mirrOf s.ovl).runs.find? p = some run

theorem MirrKnown.lookup {s : FlushState} (known : MirrKnown s) {vcn lcn : Nat}
    (found : runLookup s.mirr vcn = some lcn) : runLookup (mirrOf s.ovl) vcn = some lcn := by
  rw [runLookup, known.ovr] at found
  rw [runLookup, mirrOf_ovr]
  simp only [List.find?_nil, runLookupMapped, Option.map_eq_some_iff] at found ⊢
  obtain ⟨run, first, at_run⟩ := found
  exact ⟨run, known.runs _ run first, at_run⟩

theorem ovlMftOfRead_mftNo (rs mftNo : Nat) (raw : Mem) : (ovlMftOfRead rs mftNo raw).mftNo = mftNo := by
  rw [ovlMftOfRead]
  split
  · split <;> rfl
  · rfl

/-- Reading a record into the overlay leaves the rest of the overlay, and changes
what is looked up only where there was nothing. -/
theorem ovlGetMft_spec {ovl ovl' : Overlay} {ap : Apply} {dev : Device} {mftNo : Nat}
    {found : Option OvlMft} (got : ovlGetMft ovl ap dev mftNo = (ovl', found)) :
    ovl'.cs = ovl.cs ∧ ovl'.rs = ovl.rs ∧ ovl'.clu = ovl.clu ∧
      (ovl' = ovl ∨ ovlMftLookup ovl mftNo = none) ∧
      (∀ m, found = some m → ovlMftLookup ovl' mftNo = some m) := by
  cases present : ovlMftLookup ovl mftNo with
  | some m =>
    rw [ovlGetMft, present] at got
    cases got
    refine ⟨rfl, rfl, rfl, Or.inl rfl, ?_⟩
    rintro _ ⟨⟩
    exact present
  | none =>
    rw [ovlGetMft, present] at got
    cases read : ap.readMftRecord dev mftNo with
    | none =>
      simp only [read] at got
      cases got
      refine ⟨rfl, rfl, rfl, Or.inr rfl, ?_⟩
      rintro _ ⟨⟩
    | some raw =>
      simp only [read] at got
      cases got
      refine ⟨rfl, rfl, rfl, Or.inr rfl, ?_⟩
      rintro _ ⟨⟩
      rw [ovlMftLookup] at present
      rw [ovlMftLookup, List.find?_append, present, Option.none_or, List.find?_cons_of_pos]
      exact decide_eq_true (ovlMftOfRead_mftNo ovl.rs mftNo raw)

/-- What the record loop does and leaves as it was. -/
structure RecordsFlushed (ap : Apply) (mft : List OvlMft) (s s' : FlushState) : Prop where
  cs : s'.ovl.cs = s.ovl.cs
  rs : s'.ovl.rs = s.ovl.rs
  clu : s'.ovl.clu = s.ovl.clu
  known : MirrKnown s'
  clusters : ∀ lcn, MirrCluster s.ovl lcn → MirrCluster s'.ovl lcn
  kept : ∀ lcn, ¬ RecordCluster ap mft lcn → ¬ MirrCluster s'.ovl lcn → s'.dev lcn = s.dev lcn

theorem RecordsFlushed.refl {ap : Apply} {mft : List OvlMft} {s : FlushState} (known : MirrKnown s) :
    RecordsFlushed ap mft s s :=
  { cs := rfl, rs := rfl, clu := rfl, known := known, clusters := fun _ cluster => cluster
    kept := fun _ _ _ => rfl }

/-- Write a cluster through the overlay. -/
def putDirty (t : CluTable) (lcn : Nat) (data : Mem) : CluTable :=
  match ovlCluCreate t lcn with
  | none => t
  | some (t', i) => t'.set i { lcn, state := .dirty data }

/-- The clusters `first` to `first + n - 1` are in their home slots, which differ, and
nothing else is in the table. -/
structure AtHome (first : Nat) (data : Mem) (n : Nat) (t : CluTable) : Prop where
  cap : t.cap = 1024
  used : t.used = n
  home : ∀ k, k < n →
    t.slot (hashIndex 1024 (first + k)) = some { lcn := first + k, state := .dirty data }
  rest : ∀ i, (∀ k, k < n → hashIndex 1024 (first + k) ≠ i) → t.slot i = none

/-- A cluster that is created in an empty home slot stays there. -/
theorem AtHome.put {first n : Nat} {data : Mem} {t : CluTable} (atHome : AtHome first data n t)
    (small : n < 512)
    (distinct : ∀ k, k < n → hashIndex 1024 (first + k) ≠ hashIndex 1024 (first + n)) :
    AtHome first data (n + 1) (putDirty t (first + n) data) := by
  have free : t.slot (hashIndex 1024 (first + n)) = none := atHome.rest _ distinct
  have search : ovlCluProbe t (first + n) = .empty (hashIndex 1024 (first + n)) := by
    rw [ovlCluProbe, atHome.cap]
    exact probe_empty (by rw [CluTable.lcnAt, free]; rfl)
  obtain ⟨t', created⟩ : ∃ t' : CluTable, t' =
      { t.set (hashIndex 1024 (first + n)) { lcn := first + n, state := .absent } with
        used := t.used + 1 } := ⟨_, rfl⟩
  have others : ∀ i, i ≠ hashIndex 1024 (first + n) → t'.slot i = t.slot i := by
    intro i apart
    rw [created]
    exact CluTable.slot_set_of_ne t _ apart
  have put : putDirty t (first + n) data =
      t'.set (hashIndex 1024 (first + n)) { lcn := first + n, state := .dirty data } := by
    have room : ¬ t.used * 2 ≥ t.cap := by
      rw [atHome.used, atHome.cap]
      omega
    rw [putDirty, ovlCluCreate, if_neg room, ovlCluPlace, search, created]
  have capKept : t'.cap = t.cap := by
    rw [created]
    rfl
  have usedMore : t'.used = t.used + 1 := by rw [created]
  rw [put]
  refine { cap := capKept.trans atHome.cap, used := ?_, home := ?_, rest := ?_ }
  · rw [← atHome.used, ← usedMore]
    rfl
  · intro k below
    by_cases last : k = n
    · subst last
      exact CluTable.slot_set_self _ _ _
    · have apart := distinct k (by omega)
      rw [CluTable.slot_set_of_ne _ _ apart, others _ apart, atHome.home k (by omega)]
  · intro i apart
    have apartLast : i ≠ hashIndex 1024 (first + n) := (apart n (Nat.lt_succ_self n)).symm
    rw [CluTable.slot_set_of_ne _ _ apartLast, others i apartLast]
    exact atHome.rest i (fun k below => apart k (by omega))

section AtHome

variable {first n : Nat} {data : Mem} {t : CluTable}

theorem AtHome.of_slot (atHome : AtHome first data n t) {i : Nat} {c : OvlClu}
    (slot : t.slot i = some c) :
    ∃ k, k < n ∧ hashIndex 1024 (first + k) = i ∧ c = { lcn := first + k, state := .dirty data } := by
  by_contra absent
  push Not at absent
  have empty : t.slot i = none := by
    refine atHome.rest i ?_
    intro k below here
    have held := atHome.home k below
    rw [here, slot] at held
    cases held
    exact absent k below here rfl
  rw [slot] at empty
  cases empty

theorem AtHome.dirty (atHome : AtHome first data n t) (built : t.Built) (lcn : Nat) :
    dirtyAt t lcn = true ↔ first ≤ lcn ∧ lcn < first + n := by
  rw [built.wellFormed.dirtyAt_iff]
  constructor
  · rintro ⟨i, data, _, slot⟩
    obtain ⟨k, below, _, same⟩ := atHome.of_slot slot
    cases same
    omega
  · rintro ⟨lower, upper⟩
    have held := atHome.home (lcn - first) (by omega)
    rw [show first + (lcn - first) = lcn by omega] at held
    refine ⟨_, data, ?_, held⟩
    rw [atHome.cap]
    exact CluTable.hashIndex_lt (b := 10) lcn

end AtHome

end Ttntfs.Logfile
