import Ttntfs.Logfile.Flush
import Ttntfs.Logfile.OverlayTable

/-!
# What the cluster loop writes

The cluster loop is a capped drain of the dirty clusters in the order of their
slots. A cluster it takes receives its data, every other cluster keeps what it had;
a cluster the drain never takes stays dirty in the table and stale on the device.
-/

namespace Ttntfs.Logfile

open Library.ByteMemory Library.Probing Library.CappedDrain

namespace CluTable

/-- The same lcns in the same slots, with the same data; only dirty flags differ. -/
structure SameData (t t' : CluTable) : Prop where
  cap : t'.cap = t.cap
  used : t'.used = t.used
  lcns : t'.lcnAt = t.lcnAt
  data : dataAt t' = dataAt t

theorem SameData.refl (t : CluTable) : SameData t t :=
  { cap := rfl, used := rfl, lcns := rfl, data := rfl }

theorem SameData.trans {t t' t'' : CluTable} (first : SameData t t') (second : SameData t' t'') :
    SameData t t'' :=
  { cap := second.cap.trans first.cap, used := second.used.trans first.used,
    lcns := second.lcns.trans first.lcns, data := second.data.trans first.data }

theorem SameData.wellFormed {t t' : CluTable} (same : SameData t t') (wellFormed : t.WellFormed) :
    t'.WellFormed := by
  rcases wellFormed with fresh | ⟨sound, half, large⟩
  · subst fresh
    left
    have unheld : ∀ i, t'.slot i = none := by
      intro i
      have none_i := congrFun same.lcns i
      simpa [lcnAt, empty, sized] using none_i
    cases t' with
    | mk cap used slot =>
      have noCap : cap = 0 := same.cap
      have unused : used = 0 := same.used
      have noSlot : slot = fun _ => none := funext unheld
      rw [noCap, unused, noSlot]
      rfl
  · right
    refine ⟨sound.of_lcnAt same.cap same.used same.lcns, ?_, ?_⟩
    · rw [same.used, same.cap]
      exact half
    · rw [same.cap]
      exact large

section Clean

variable {t : CluTable}

theorem WellFormed.found_slot (wellFormed : t.WellFormed) {lcn i : Nat}
    (found : ovlCluFind t lcn = some i) : ∃ state, t.slot i = some { lcn, state } := by
  obtain ⟨_, held⟩ := wellFormed.find_iff.mp found
  cases slot : t.slot i with
  | none => simp [lcnAt, slot] at held
  | some c =>
    have same : c.lcn = lcn := by simpa [lcnAt, slot] using held
    exact ⟨c.state, by rw [← same]⟩

theorem WellFormed.dirtyAt_iff (wellFormed : t.WellFormed) {lcn : Nat} :
    dirtyAt t lcn = true ↔ ∃ i data, i < t.cap ∧ t.slot i = some { lcn, state := .dirty data } := by
  constructor
  · intro isDirty
    cases found : ovlCluFind t lcn with
    | none => simp [dirtyAt, found] at isDirty
    | some i =>
      obtain ⟨below, _⟩ := wellFormed.find_iff.mp found
      obtain ⟨state, slot⟩ := wellFormed.found_slot found
      cases state with
      | absent => simp [dirtyAt, found, slot] at isDirty
      | clean data => simp [dirtyAt, found, slot] at isDirty
      | dirty data => exact ⟨i, data, below, slot⟩
  · rintro ⟨i, data, below, slot⟩
    have found : ovlCluFind t lcn = some i :=
      wellFormed.find_iff.mpr ⟨below, by simp [lcnAt, slot]⟩
    simp [dirtyAt, found, slot]

end Clean

end CluTable

/-! ## A batch -/

/-- What the cluster loop has done to the table and the device so far: the clusters
that are no longer dirty are written, and nothing else is. -/
structure ClustersFlushed (before after : FlushState) : Prop where
  cs : after.ovl.cs = before.ovl.cs
  rs : after.ovl.rs = before.ovl.rs
  mft : after.ovl.mft = before.ovl.mft
  same : CluTable.SameData before.ovl.clu after.ovl.clu
  written : ∀ l, dirtyAt before.ovl.clu l = true → dirtyAt after.ovl.clu l = false →
    ∀ b, b < before.ovl.cs → after.dev l b = dataAt before.ovl.clu l b
  kept : ∀ l, (dirtyAt before.ovl.clu l = true → dirtyAt after.ovl.clu l = true) →
    after.dev l = before.dev l

theorem ClustersFlushed.refl (s : FlushState) : ClustersFlushed s s := by
  refine { cs := rfl, rs := rfl, mft := rfl, same := CluTable.SameData.refl _, written := ?_,
           kept := fun _ _ => rfl }
  intro l isDirty clean
  rw [isDirty] at clean
  cases clean

/-- Two stretches of the loop compose, as dirty flags are only taken. -/
theorem ClustersFlushed.trans {s s' s'' : FlushState} (first : ClustersFlushed s s')
    (second : ClustersFlushed s' s'')
    (fewer : ∀ l, dirtyAt s.ovl.clu l = false → dirtyAt s'.ovl.clu l = false)
    (fewer' : ∀ l, dirtyAt s'.ovl.clu l = false → dirtyAt s''.ovl.clu l = false) :
    ClustersFlushed s s'' := by
  refine { cs := second.cs.trans first.cs, rs := second.rs.trans first.rs,
           mft := second.mft.trans first.mft, same := first.same.trans second.same,
           written := ?_, kept := ?_ }
  · intro l isDirty clean b inside
    by_cases middle : dirtyAt s'.ovl.clu l = true
    · rw [second.written l middle clean b (by rwa [first.cs]), first.same.data]
    · rw [second.kept l (fun marked => absurd marked middle)]
      exact first.written l isDirty (Bool.eq_false_iff.mpr middle) b inside
  · intro l still
    have middle : dirtyAt s.ovl.clu l = true → dirtyAt s'.ovl.clu l = true := by
      intro isDirty
      by_contra clean
      have gone := fewer' l (Bool.eq_false_iff.mpr clean)
      rw [still isDirty] at gone
      cases gone
    have last : dirtyAt s'.ovl.clu l = true → dirtyAt s''.ovl.clu l = true := by
      intro marked
      by_cases isDirty : dirtyAt s.ovl.clu l = true
      · exact still isDirty
      · rw [fewer l (Bool.eq_false_iff.mpr isDirty)] at marked
        cases marked
    rw [second.kept l last, first.kept l middle]

end Ttntfs.Logfile
