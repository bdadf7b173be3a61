import Ttntfs.Logfile.OverlayAliasing

/-!
# The copy that `$MFTMirr` keeps

The flush copies each dirty record of the first four into `$MFTMirr`, and writes the dirty clusters
afterwards. What the bytes of the copy are then: of the record where it was copied, of the cluster
of the overlay where that was written later, and else what they were.
-/

namespace Ttntfs.Logfile

open Library.ByteMemory Library.Probing Library.CappedDrain

/-- The run list of `$MFTMirr` as a flush finds it: from its record in the overlay, or from the one
that is read. -/
def mirrFound (ap : Apply) (ovl : Overlay) (dev : Device) : OpenAttr :=
  mirrOf (ovlGetMft ovl ap dev mftRecMirr).1

/-- The cluster of `$MFTMirr` that has byte `k` of a record, if there is one. -/
def mirrPlace (mirr : OpenAttr) (cs rs no k : Nat) : Option Nat :=
  (runLookup mirr ((no * rs + k) / cs)).filter fun lcn => lcn ≠ sparseLcn

/-- The record has a place in `$MFTMirr`, and the cluster in which it begins can be read. -/
def Copied (ap : Apply) (mirr : OpenAttr) (cs rs no : Nat) : Prop :=
  (no + 1) * rs ≤ mirr.dataSize ∧ ∃ lcn, mirrPlace mirr cs rs no 0 = some lcn ∧ ap.readable lcn = true

/-- The pointer to a record of the overlay outlives the look-up of `$MFTMirr`. -/
def KeepsRecords (ovl : Overlay) : Prop :=
  (ovlMftLookup ovl mftRecMirr).isSome ∨ ovl.mft.length ≠ ovl.capMft

/-- What was loaded is as the record of `$MFTMirr` has it. -/
structure SameMirr (mirr oa : OpenAttr) : Prop where
  ovr : oa.ovr = []
  runs : ∀ p, oa.runs.find? p = mirr.runs.find? p
  size : oa.dataSize = mirr.dataSize

/-- What was loaded so far is nothing, or as the record of `$MFTMirr` has it. -/
structure PartMirr (mirr oa : OpenAttr) : Prop where
  ovr : oa.ovr = []
  runs : ∀ p run, oa.runs.find? p = some run → mirr.runs.find? p = some run
  size : oa.dataSize = 0 ∨ oa.dataSize = mirr.dataSize

theorem PartMirr.empty (mirr : OpenAttr) : PartMirr mirr OpenAttr.empty where
  ovr := rfl
  runs _ _ found := nomatch found
  size := .inl rfl

theorem SameMirr.part {mirr oa : OpenAttr} (same : SameMirr mirr oa) : PartMirr mirr oa where
  ovr := same.ovr
  runs p _ found := same.runs p ▸ found
  size := .inr same.size

theorem oaLoadExtent_dataSize (oa : OpenAttr) (record : Mem) (off : Nat) :
    (oaLoadExtent oa record off).1.dataSize = (oaLoadExtent OpenAttr.empty record off).1.dataSize ∨
      (oaLoadExtent oa record off).1.dataSize = oa.dataSize ∧
        (oaLoadExtent OpenAttr.empty record off).1.dataSize = 0 := by
  simp only [oaLoadExtent]
  split
  · exact .inl rfl
  · split
    · exact .inr ⟨rfl, rfl⟩
    · split
      · exact .inl rfl
      · exact .inr ⟨rfl, rfl⟩

theorem PartMirr.load {oa : OpenAttr} {record : Mem} {off : Nat}
    (part : PartMirr (oaLoadExtent OpenAttr.empty record off).1 oa) :
    SameMirr (oaLoadExtent OpenAttr.empty record off).1 (oaLoadExtent oa record off).1 where
  ovr := (oaLoadExtent_runs oa record off).1.trans part.ovr
  runs p := by
    rw [(oaLoadExtent_runs oa record off).2, List.find?_append]
    cases early : oa.runs.find? p with
    | none => rfl
    | some run => exact (part.runs p run early).symm
  size := by
    rcases oaLoadExtent_dataSize oa record off with same | ⟨kept, none⟩
    · exact same
    · rw [kept]
      rcases part.size with zero | same
      · rw [zero, none]
      · exact same

theorem SameMirr.lookup {mirr oa : OpenAttr} (same : SameMirr mirr oa) (plain : mirr.ovr = []) (vcn : Nat) :
    runLookup oa vcn = runLookup mirr vcn := by
  rw [runLookup, runLookup, same.ovr, plain, runLookupMapped, runLookupMapped, same.runs]

section Load

variable {ap : Apply} {ovl : Overlay} {dev : Device} {s : FlushState}

/-- The overlay of a flush is the one it started with, or has the record of `$MFTMirr` as well. As
long as that is to be read, it is on the device as it was. -/
def MirrReady (ap : Apply) (ovl : Overlay) (dev : Device) (s : FlushState) : Prop :=
  s.ovl = ovl ∧ (ovlMftLookup ovl mftRecMirr = none →
      ap.readMftRecord s.dev mftRecMirr = ap.readMftRecord dev mftRecMirr) ∨
    s.ovl = (ovlGetMft ovl ap dev mftRecMirr).1 ∧ (ovlMftLookup s.ovl mftRecMirr).isSome ∧
      KeepsRecords ovl

theorem ovlGetMft_lookup (mftNo : Nat) :
    (ovlGetMft ovl ap dev mftNo).2 = ovlMftLookup (ovlGetMft ovl ap dev mftNo).1 mftNo := by
  cases known : ovlMftLookup ovl mftNo with
  | some mm => simp only [ovlGetMft, known]
  | none =>
    obtain ⟨ovl', found, got⟩ : ∃ ovl' found, ovlGetMft ovl ap dev mftNo = (ovl', found) := ⟨_, _, rfl⟩
    have held := (ovlGetMft_spec got).2.2.2.2
    rw [got]
    cases found with
    | some mm => exact (held mm rfl).symm
    | none =>
      simp only [ovlGetMft, known] at got
      split at got
      · cases got
        exact known.symm
      · cases got

theorem MirrReady.found (ready : MirrReady ap ovl dev s) :
    ovlGetMft s.ovl ap s.dev mftRecMirr = ovlGetMft ovl ap dev mftRecMirr := by
  rcases ready with ⟨same, reads⟩ | ⟨same, present, -⟩
  · cases known : ovlMftLookup ovl mftRecMirr with
    | some mm => simp only [ovlGetMft, same, known]
    | none => simp only [ovlGetMft, same, known, reads known]
  · obtain ⟨mm, known⟩ := Option.isSome_iff_exists.mp present
    have listed : (ovlGetMft ovl ap dev mftRecMirr).2 = some mm := by
      rw [ovlGetMft_lookup, ← same, known]
    rw [ovlGetMft, known]
    exact Prod.ext same listed.symm

end Load

/-! ## Copying a record -/

section Copy

variable {ap : Apply} {s : FlushState} {mirr : OpenAttr} {no lcn : Nat} {copy : Mem}

end Copy

/-! ## The record loop -/

/-- What the record loop has made of `$MFTMirr` when it has done some of the records. -/
structure CopiesMade (ap : Apply) (ovl : Overlay) (dev : Device) (done : List OvlMft) (s : FlushState) :
    Prop where
  cs : s.ovl.cs = ovl.cs
  rs : s.ovl.rs = ovl.rs
  clu : s.ovl.clu = ovl.clu
  ready : MirrReady ap ovl dev s
  part : PartMirr (mirrFound ap ovl dev) s.mirr
  copied : ∀ m ∈ done, m.dirty = true → m.mftNo ≤ mftRecVol →
    Copied ap (mirrFound ap ovl dev) ovl.cs ovl.rs m.mftNo → ∀ copy, protectRecord ovl.rs m = some copy →
    ∀ k < ovl.rs, ∀ lcn, mirrPlace (mirrFound ap ovl dev) ovl.cs ovl.rs m.mftNo k = some lcn →
      s.dev lcn ((m.mftNo * ovl.rs + k) % ovl.cs) = copy k
  kept : ∀ no ≤ mftRecVol, (∀ m ∈ done, m.dirty = true → m.mftNo = no →
      ¬ Copied ap (mirrFound ap ovl dev) ovl.cs ovl.rs no) →
    ∀ k < ovl.rs, ∀ lcn, mirrPlace (mirrFound ap ovl dev) ovl.cs ovl.rs no k = some lcn →
      s.dev lcn ((no * ovl.rs + k) % ovl.cs) = dev lcn ((no * ovl.rs + k) % ovl.cs)

section Records

variable {ap : Apply} {ovl : Overlay} {dev : Device} {s s' : FlushState} {done : List OvlMft} {m : OvlMft}

theorem CopiesMade.start (ap : Apply) (ovl : Overlay) (dev : Device) :
    CopiesMade ap ovl dev [] (FlushState.start ovl dev) where
  cs := rfl
  rs := rfl
  clu := rfl
  ready := .inl ⟨rfl, fun _ => rfl⟩
  part := PartMirr.empty _
  copied _ listed := nomatch listed
  kept _ _ _ _ _ _ _ := rfl

end Records

/-! ## The whole flush -/

end Ttntfs.Logfile
