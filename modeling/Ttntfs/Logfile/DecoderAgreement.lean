import Ttntfs.Logfile.MftRecord
import Ttntfs.Ntfs.MappingPairsRoundTrip
import Ttntfs.Ntfs.RunMaps

/-!
# Three readers of mapping pairs

The driver, the replay of the journal and the image layer each decode the mapping pairs of
an attribute. Where all of them take an array they read the same lengths, but not always
the same offsets: the mask with which the other two extend the sign of an offset has no
meaning for a field of eight bytes. From such an offset on the lcns of the driver are apart
from theirs, until another one of them leads back.
-/

namespace Ttntfs.Logfile

open Library.ByteMemory
open Library.SignedBytes
open Ttntfs.Ntfs

/-! ## The image layer -/

/-- The loop of `decode_runs` (`ntfs_image.c`). It is the one of `decode_mapping_pairs`
but for runs without a cluster, which it takes. -/
def decodeRunsFrom (mp : Mem) (mpLen : Nat) : Nat → Nat → Nat → Int → List Run → List Run × Bool
  | 0, _, _, _, out => (out, true)
  | fuel + 1, i, vcn, lcn, out =>
    if i < mpLen && mp i ≠ 0 then
      let ls := (mp i).toNat % 16
      let os := (mp i).toNat / 16
      if ls = 0 || ls > 8 || os > 8 || i + 1 + ls + os > mpLen then (out, false)
      else
        let len := getLE mp ls (i + 1)
        if os ≠ 0 then
          let lcn := wrapInt64 (lcn + getSignedLE mp os (i + 1 + ls))
          if lcn < 0 then (out, false)
          else decodeRunsFrom mp mpLen fuel (i + 1 + ls + os) ((vcn + len) % 2 ^ 64) lcn
            (out ++ [⟨vcn, lcn.toNat, len⟩])
        else decodeRunsFrom mp mpLen fuel (i + 1 + ls) ((vcn + len) % 2 ^ 64) lcn
          (out ++ [⟨vcn, sparseLcn, len⟩])
    else (out, true)

/-- `decode_runs` -/
def decodeRuns (mp : Mem) (mpLen svcn : Nat) : List Run × Bool :=
  decodeRunsFrom mp mpLen (mpLen + 1) 0 svcn 0 []

/-! ## The maps -/

/-- What a run list of the driver maps a vcn to: an lcn or the code of a hole. -/
def driverMap (rl : List RunlistElement) (vcn : Nat) : Option Int :=
  if ntfsRlVcnToLcn rl vcn < lcnHole then none else some (ntfsRlVcnToLcn rl vcn)

/-- What the runs of the other two map a vcn to; `ntfs_image_map` finds the run as
`run_lookup_mapped` does. -/
def recordMap (runs : List Run) (vcn : Nat) : Option Int :=
  (runLookupMapped runs vcn).map fun lcn => if lcn = sparseLcn then lcnHole else lcn

/-- A run list and the runs of another decoder map every vcn alike. -/
def SameMap (rl : List RunlistElement) (runs : List Run) : Prop :=
  ∀ vcn, driverMap rl vcn = recordMap runs vcn

/-- How far the lcn of the driver gets from the one of the others by an offset: these take
every negative offset of eight bytes for -1. -/
def offsetDrift (mem : Mem) (width off : Nat) : Int :=
  if width = 8 ∧ 0x80 ≤ (mem (off + 7)).toNat then readSigned mem off 8 + 1 else 0

/-- No run with clusters is at an lcn while the decoders are apart. -/
def noDrift (mem : Mem) : Nat → Nat → Int → Bool
  | 0, _, _ => true
  | fuel + 1, buf, drift =>
    if mem buf = 0 then true
    else
      let lenLen := (mem buf).toNat % 16
      let lcnLen := (mem buf).toNat / 16
      if lcnLen = 0 then noDrift mem fuel (buf + lenLen + lcnLen + 1) drift
      else
        let drift := s64 (drift + offsetDrift mem lcnLen (buf + 1 + lenLen))
        (decide (drift = 0) || decide (readSigned mem (buf + 1) lenLen = 0)) &&
          noDrift mem fuel (buf + lenLen + lcnLen + 1) drift

/-- The run of another decoder as an element of a run list. -/
def Run.element (run : Run) : RunlistElement :=
  ⟨run.vcn, if run.lcn = sparseLcn then lcnHole else run.lcn, run.len⟩

/-- A run whose ends are those of a 63-bit word. -/
structure Run.Bounded (run : Run) : Prop where
  vcns : run.vcn + run.len < 2 ^ 63
  lcn : run.lcn = sparseLcn ∨ run.lcn < 2 ^ 63

section Fields

variable {mem : Mem} {width off : Nat}

theorem wrapInt64_eq (value : Int) : wrapInt64 value = s64 value := by
  rw [wrapInt64, s64, Int.bmod_def]
  split <;> omega

theorem getLE_of_nonneg {length : Nat} (some_byte : 0 < width) (word : width ≤ 8)
    (read : readSigned mem off width = length) : getLE mem width off = length := by
  rw [readSigned_eq_fieldValue mem off some_byte word, fieldValue] at read
  split at read
  · exact_mod_cast read
  · have bound : (getLE mem width off : Int) < 256 ^ width := by exact_mod_cast getLE_lt mem width off
    omega

theorem readSigned_drift (some_byte : 0 < width) (word : width ≤ 8) :
    readSigned mem off width = getSignedLE mem width off + offsetDrift mem width off := by
  have value := readSigned_eq_fieldValue mem off some_byte word
  rw [offsetDrift, getSignedLE]
  by_cases overlong : width = 8
  · subst overlong
    rw [value, fieldValue]
    by_cases negative : 0x80 ≤ (mem (off + 7)).toNat
    · simp [negative, Nat.not_lt.mpr negative]
    · simp [negative, Nat.not_le.mp negative]
  · have short : width < 8 := by omega
    rw [value, fieldValue]
    by_cases negative : 0x80 ≤ (mem (off + width - 1)).toNat
    · simp [overlong, short, negative, Nat.not_lt.mpr negative]
    · simp [overlong, negative, Nat.not_le.mp negative]

theorem drift_behind {driverLcn lcn change other drift : Int} (apart : driverLcn - lcn = drift)
    (lower : -1 ≤ s64 (driverLcn + (change + other))) (otherLower : 0 ≤ s64 (lcn + change)) :
    s64 (driverLcn + (change + other)) - s64 (lcn + change) = s64 (drift + other) := by
  have range := inS64_s64 (driverLcn + (change + other))
  have otherRange := inS64_s64 (lcn + change)
  have difference : InS64 (s64 (driverLcn + (change + other)) - s64 (lcn + change)) := by
    have upper := range.2
    have otherUpper := otherRange.2
    constructor <;> omega
  rw [← s64_of_range difference, s64, s64, s64, Int.sub_bmod_bmod, Int.bmod_sub_bmod, s64]
  congr 1
  omega

end Fields

section Maps

variable {start vcn : Nat} {element other : RunlistElement} {elements others tail : List RunlistElement}
  {run : Run} {runs : List Run}

/-- What a run maps one of its vcns to, as the others look it up. -/
theorem Run.Bounded.lookup (bounded : run.Bounded) (held : Ntfs.Holds run.element vcn) :
    (let lcn := if run.lcn = sparseLcn then sparseLcn else (run.lcn + (vcn - run.vcn)) % 2 ^ 64
     if lcn = sparseLcn then lcnHole else (lcn : Int)) = lcnWithin run.element vcn := by
  have vcns := bounded.vcns
  have inside := held.2
  simp only [Run.element] at inside
  rcases bounded.lcn with sparse | real
  · simp [Run.element, lcnWithin, sparse, lcnHole]
  have notSparse : run.lcn ≠ sparseLcn := by
    rw [sparseLcn]
    omega
  have value : (run.lcn + (vcn - run.vcn)) % 2 ^ 64 = run.lcn + (vcn - run.vcn) := Nat.mod_eq_of_lt (by omega)
  have stillReal : run.lcn + (vcn - run.vcn) ≠ sparseLcn := by
    rw [sparseLcn]
    omega
  simp only [Run.element, lcnWithin, if_neg notSparse, value, if_neg stillReal]
  simp

/-- The runs of another decoder map as the elements that correspond to them. -/
theorem recordMap_eq (bounded : ∀ run ∈ runs, run.Bounded) (vcn : Nat) :
    recordMap runs vcn = runsMap (runs.map Run.element) vcn := by
  induction runs with
  | nil => rfl
  | cons run runs ih =>
    have here := bounded run (by simp)
    have others := ih fun later listed => bounded later (by simp [listed])
    have vcns := here.vcns
    have found : (decide (vcn ≥ run.vcn) && decide (vcn < (run.vcn + run.len) % 2 ^ 64)) =
        decide (Holds run.element vcn) := by
      rw [Nat.mod_eq_of_lt (by omega : run.vcn + run.len < 2 ^ 64), ← Bool.decide_and]
      rfl
    rw [List.map_cons, runsMap_cons]
    rw [recordMap, runLookupMapped] at others ⊢
    by_cases held : Holds run.element vcn
    · rw [List.find?_cons_of_pos (by rw [found]; exact decide_eq_true held), if_pos held]
      exact congrArg some (here.lookup held)
    · rw [List.find?_cons_of_neg (by rw [found]; simpa using held), if_neg held]
      exact others

/-- Two lists that begin with runs of the same vcns map alike when these runs do and the
others do. -/
theorem maps_cons_iff (place : element.vcn = start) (otherPlace : other.vcn = start)
    (some_cluster : 0 < element.length) (clusters : other.length = element.length)
    (behind : ∀ v < start + element.length, runsMap elements v = none)
    (otherBehind : ∀ v < start + element.length, runsMap others v = none) :
    (∀ v, runsMap (element :: elements) v = runsMap (other :: others) v) ↔
      element.lcn = other.lcn ∧ ∀ v, runsMap elements v = runsMap others v := by
  have holds (v : Nat) : Holds other v ↔ Holds element v := by
    rw [Holds, Holds, clusters, place, otherPlace]
  constructor
  · intro same
    constructor
    · have held : Holds element start := ⟨by omega, by omega⟩
      have first := same start
      rw [runsMap_cons, runsMap_cons, if_pos held, if_pos ((holds start).mpr held)] at first
      simpa [lcnWithin, place, otherPlace] using first
    · intro v
      by_cases below : v < start + element.length
      · rw [behind v below, otherBehind v below]
      · have unheld : ¬ Holds element v := by
          rintro ⟨_, upper⟩
          omega
        have later := same v
        rwa [runsMap_cons, runsMap_cons, if_neg unheld, if_neg (mt (holds v).mp unheld)] at later
  · rintro ⟨lcn, same⟩ v
    rw [runsMap_cons, runsMap_cons, same v]
    by_cases held : Holds element v
    · rw [if_pos held, if_pos ((holds v).mpr held), lcnWithin, lcnWithin, lcn, place, otherPlace]
    · rw [if_neg held, if_neg (mt (holds v).mp held)]

/-- What a decompressed run list maps is what its runs map. -/
theorem driverMap_elements (follow : RunsFrom start elements) (codes : ∀ element ∈ elements, lcnHole ≤ element.lcn)
    (rest : MapsNothing (start + rlClusters elements) tail) (vcn : Nat) :
    driverMap (elementsBefore start ++ (elements ++ tail)) vcn = runsMap elements vcn := by
  have valid := follow.append_list rest.valid
  have part (vcn : Nat) (lower : start ≤ vcn) :
      driverMap (elements ++ tail) vcn = runsMap elements vcn := by
    rw [driverMap, lookup_append follow rest.valid lower]
    cases mapped : runsMap elements vcn with
    | none => exact if_pos (rest.nothing vcn)
    | some lcn =>
      obtain ⟨run, found, rfl⟩ := Option.map_eq_some_iff.mp mapped
      have code := codes run (List.mem_of_find?_eq_some found)
      have within : ¬ lcnWithin run vcn < lcnHole := by
        rw [lcnWithin]
        split <;> omega
      exact if_neg within
  rw [elementsBefore]
  by_cases base : start = 0
  · rw [if_pos base, List.nil_append]
    exact part vcn (by omega)
  have whole : RlFrom 0 (⟨0, lcnRlNotMapped, start⟩ :: (elements ++ tail)) :=
    .run rfl (Nat.pos_of_ne_zero base) (by rw [Nat.zero_add]; exact valid)
  have lookup := whole.lookup (Nat.pos_of_ne_zero base) (Nat.zero_le vcn)
  rw [if_neg base, List.singleton_append]
  by_cases before : vcn < start
  · rw [driverMap, lookup, follow.outside (.inl before)]
    simp [before, lcnRlNotMapped, lcnHole]
  · have onward : driverMap (⟨0, lcnRlNotMapped, start⟩ :: (elements ++ tail)) vcn =
        driverMap (elements ++ tail) vcn := by
      rw [driverMap, lookup, driverMap]
      simp [before]
    rw [onward]
    exact part vcn (by omega)

end Maps

/-! ## One pair -/

/-- What a pair says of its lcn to the driver: the lcn of the element and the one from
which the next offset counts. -/
def DriverLcn (mem : Mem) (buf length : Nat) (lastLcn lcn nextLcn : Int) : Prop :=
  let lenLen := (mem buf).toNat % 16
  let lcnLen := (mem buf).toNat / 16
  if lcnLen = 0 then lcn = lcnHole ∧ nextLcn = lastLcn
  else lcn = s64 (lastLcn + readSigned mem (buf + 1 + lenLen) lcnLen) ∧ nextLcn = lcn ∧ -1 ≤ lcn ∧
    (length = 0 → lcn = -1)

/-- What a pair says of its lcn to the others. -/
def RecordLcn (mem : Mem) (buf : Nat) (lastLcn : Int) (lcn : Nat) (nextLcn : Int) : Prop :=
  let lenLen := (mem buf).toNat % 16
  let lcnLen := (mem buf).toNat / 16
  if lcnLen = 0 then lcn = sparseLcn ∧ nextLcn = lastLcn
  else nextLcn = s64 (lastLcn + getSignedLE mem lcnLen (buf + 1 + lenLen)) ∧ 0 ≤ nextLcn ∧
    lcn = nextLcn.toNat

section Pairs

variable {mem : Mem} {attrEnd base i mpLen fuel vcn : Nat} {lcn : Int} {d d' : Decompression}
  {out runs : List Run}

/-- The elements behind a pair: a run without a cluster is left out. -/
def pairElements (vcn : Nat) (lcn : Int) (length : Nat) : List RunlistElement :=
  if length = 0 then [] else [⟨vcn, lcn, length⟩]

/-- A pair that the driver takes. -/
theorem decompressPair_some (accepted : decompressPair mem attrEnd d = some d') (slots : d.rlpos + 1 < 2 ^ 16) :
    0 < (mem d.buf).toNat % 16 ∧ ∃ length lcn,
      readSigned mem (d.buf + 1) ((mem d.buf).toNat % 16) = (length : Nat) ∧ d.vcn + length < 2 ^ 63 ∧
      DriverLcn mem d.buf length d.lcn lcn d'.lcn ∧ d'.vcn = d.vcn + length ∧
      d'.buf = d.buf + (mem d.buf).toNat % 16 + (mem d.buf).toNat / 16 + 1 ∧
      d'.rlpos ≤ d.rlpos + 1 ∧ d'.elements = d.elements ++ pairElements d.vcn lcn length := by
  simp only [decompressPair] at accepted
  have some_byte : (mem d.buf).toNat % 16 ≠ 0 := by
    intro none
    simp [none] at accepted
  simp only [if_neg some_byte] at accepted
  split at accepted
  · cases accepted
  split at accepted
  · cases accepted
  split at accepted
  · cases accepted
  rename_i inside nonneg small
  split at accepted
  · cases accepted
  rename_i lcn lastLcn stored
  obtain ⟨length, read⟩ := Int.eq_ofNat_of_zero_le (not_lt.mp nonneg)
  rw [read] at accepted small stored
  cases accepted
  refine ⟨Nat.pos_of_ne_zero some_byte, length, lcn, read, by omega, ?_, rfl, rfl, ?_, ?_⟩
  · rw [pairLcn] at stored
    rw [DriverLcn]
    dsimp only at stored ⊢
    split at stored
    · rename_i hole
      rw [if_pos hole]
      cases stored
      exact ⟨rfl, rfl⟩
    · rename_i some_lcn
      rw [if_neg some_lcn]
      split at stored
      · cases stored
      split at stored
      · cases stored
      split at stored
      · cases stored
      rename_i _ low empty
      cases stored
      refine ⟨rfl, rfl, by omega, fun none => ?_⟩
      by_contra real
      exact empty ⟨real, by exact_mod_cast none⟩
  · dsimp only
    split
    · exact Nat.le_succ _
    · exact Nat.mod_le _ _
  · rw [pairElements]
    by_cases none : length = 0
    · subst none
      simp only [Decompression.elements, Decompression.setElement, Nat.cast_zero, if_true, List.append_nil]
      apply List.map_congr_left
      intro i listed
      exact Function.update_of_ne (Nat.ne_of_lt (List.mem_range.mp listed)) _ _
    · have some_length : ¬ (length : Int) = 0 := by exact_mod_cast none
      rw [if_neg none]
      simp only [Int.toNat_natCast, if_neg some_length]
      exact elements_nextElement slots

/-- A pair that the image layer takes. -/
theorem decodeRunsFrom_pair (more : i < mpLen) (header : mem (base + i) ≠ 0)
    (accepted : decodeRunsFrom (fun j => mem (base + j)) mpLen (fuel + 1) i vcn lcn out = (runs, true)) :
    (mem (base + i)).toNat % 16 ≤ 8 ∧ (mem (base + i)).toNat / 16 ≤ 8 ∧ ∃ code nextLcn,
      RecordLcn mem (base + i) lcn code nextLcn ∧
      i + (mem (base + i)).toNat % 16 + (mem (base + i)).toNat / 16 + 1 ≤ mpLen ∧
      decodeRunsFrom (fun j => mem (base + j)) mpLen fuel
        (i + (mem (base + i)).toNat % 16 + (mem (base + i)).toNat / 16 + 1)
        ((vcn + getLE mem ((mem (base + i)).toNat % 16) (base + i + 1)) % 2 ^ 64) nextLcn
        (out ++ [⟨vcn, code, getLE mem ((mem (base + i)).toNat % 16) (base + i + 1)⟩]) = (runs, true) := by
  have signed (width off : Nat) (some_byte : width ≠ 0) :
      getSignedLE (fun j => mem (base + j)) width off = getSignedLE mem width (base + off) := by
    rw [getSignedLE, getSignedLE, getLE_shifted, show base + (off + width - 1) = base + off + width - 1 by omega]
  rw [decodeRunsFrom, if_pos (by simp [more, header])] at accepted
  dsimp only at accepted
  split at accepted
  · cases accepted
  rename_i sizes
  simp only [Bool.or_eq_true, decide_eq_true_eq, not_or] at sizes
  obtain ⟨⟨⟨_, lenSmall⟩, lcnSmall⟩, room⟩ := sizes
  rw [getLE_shifted, ← Nat.add_assoc] at accepted
  refine ⟨by omega, by omega, ?_⟩
  simp only [RecordLcn]
  by_cases some_lcn : (mem (base + i)).toNat / 16 = 0
  · rw [if_neg (not_not.mpr some_lcn)] at accepted
    refine ⟨sparseLcn, lcn, ?_, by omega, ?_⟩
    · rw [if_pos some_lcn]
      exact ⟨rfl, rfl⟩
    · rw [some_lcn, Nat.add_zero, Nat.add_right_comm]
      exact accepted
  · rw [if_pos some_lcn, wrapInt64_eq, signed _ _ some_lcn] at accepted
    split at accepted
    · cases accepted
    rename_i low
    have place : base + (i + 1 + (mem (base + i)).toNat % 16) = base + i + 1 + (mem (base + i)).toNat % 16 := by
      omega
    have next : i + 1 + (mem (base + i)).toNat % 16 + (mem (base + i)).toNat / 16 =
        i + (mem (base + i)).toNat % 16 + (mem (base + i)).toNat / 16 + 1 := by omega
    rw [place, next] at accepted
    rw [place] at low
    refine ⟨_, _, ?_, by omega, accepted⟩
    rw [if_neg some_lcn]
    exact ⟨rfl, not_lt.mp low, rfl⟩

end Pairs

/-! ## The loops side by side -/

/-- The elements of the driver and the runs of another decoder from a vcn on. -/
structure SideBySide (start : Nat) (elements : List RunlistElement) (runs : List Run) : Prop where
  follow : RunsFrom start elements
  codes : ∀ element ∈ elements, lcnHole ≤ element.lcn
  bounded : ∀ run ∈ runs, run.Bounded
  behind : ∀ v < start, runsMap (runs.map Run.element) v = none

/-- The elements of the driver and the runs of another decoder map alike. -/
def SameRuns (elements : List RunlistElement) (runs : List Run) : Prop :=
  ∀ v, runsMap elements v = runsMap (runs.map Run.element) v

section Loops

variable {mem : Mem} {base i mpLen fuel rounds vcn buf length code : Nat}
  {driverLcn lcn nextDriver nextLcn stored drift : Int} {d d' : Decompression} {out runs : List Run}
  {elements : List RunlistElement}

/-- How far the lcns are apart behind a pair. -/
def pairDrift (mem : Mem) (buf : Nat) (drift : Int) : Int :=
  if (mem buf).toNat / 16 = 0 then drift
  else s64 (drift + offsetDrift mem ((mem buf).toNat / 16) (buf + 1 + (mem buf).toNat % 16))

theorem lcns_apart (small : (mem buf).toNat / 16 ≤ 8) (apart : driverLcn - lcn = drift)
    (driver : DriverLcn mem buf length driverLcn stored nextDriver) (record : RecordLcn mem buf lcn code nextLcn) :
    nextDriver - nextLcn = pairDrift mem buf drift := by
  rw [DriverLcn] at driver
  rw [RecordLcn] at record
  rw [pairDrift]
  by_cases none : (mem buf).toNat / 16 = 0
  · rw [if_pos none] at driver record ⊢
    rw [driver.2, record.2, apart]
  · rw [if_neg none] at driver record ⊢
    obtain ⟨rfl, rfl, low, _⟩ := driver
    obtain ⟨rfl, otherLow, _⟩ := record
    rw [readSigned_drift (Nat.pos_of_ne_zero none) small] at low ⊢
    exact drift_behind apart low otherLow

theorem recordLcn_bounded (record : RecordLcn mem buf lcn code nextLcn) (vcns : vcn + length < 2 ^ 63) :
    (⟨vcn, code, length⟩ : Run).Bounded where
  vcns := vcns
  lcn := by
    rw [RecordLcn] at record
    dsimp only at record ⊢
    split at record
    · exact .inl record.1
    · obtain ⟨rfl, low, rfl⟩ := record
      have upper := (inS64_s64 (lcn + getSignedLE mem ((mem buf).toNat / 16) (buf + 1 + (mem buf).toNat % 16))).2
      omega

/-- The element of a pair is the one of the others just when the lcns are not apart or none
is stored. -/
theorem lcn_eq_iff (small : (mem buf).toNat / 16 ≤ 8) (apart : driverLcn - lcn = drift)
    (driver : DriverLcn mem buf length driverLcn stored nextDriver) (record : RecordLcn mem buf lcn code nextLcn)
    (vcns : vcn + length < 2 ^ 63) :
    stored = (⟨vcn, code, length⟩ : Run).element.lcn ↔
      (mem buf).toNat / 16 = 0 ∨ pairDrift mem buf drift = 0 := by
  have behind := lcns_apart small apart driver record
  have bounded := (recordLcn_bounded record vcns).lcn
  rw [DriverLcn] at driver
  rw [RecordLcn] at record
  dsimp only at driver record bounded
  rw [Run.element]
  dsimp only
  by_cases none : (mem buf).toNat / 16 = 0
  · rw [if_pos none] at driver record
    simp [none, driver.1, record.1]
  rw [if_neg none] at driver record
  obtain ⟨rfl, rfl, _⟩ := driver
  obtain ⟨_, low, rfl⟩ := record
  have upper : nextLcn < 2 ^ 63 := by
    rename_i next
    rw [next]
    exact (inS64_s64 _).2
  have real : nextLcn.toNat ≠ sparseLcn := by
    rw [sparseLcn]
    omega
  rw [if_neg real]
  omega

/-- One pair before those that follow. -/
theorem SideBySide.pair (small : (mem buf).toNat / 16 ≤ 8) (apart : driverLcn - lcn = drift)
    (driver : DriverLcn mem buf length driverLcn stored nextDriver) (record : RecordLcn mem buf lcn code nextLcn)
    (vcns : vcn + length < 2 ^ 63) (others : SideBySide (vcn + length) elements runs) :
    SideBySide vcn (pairElements vcn stored length ++ elements) (⟨vcn, code, length⟩ :: runs) ∧
      (SameRuns (pairElements vcn stored length ++ elements) (⟨vcn, code, length⟩ :: runs) ↔
        ((mem buf).toNat / 16 = 0 ∨ pairDrift mem buf drift = 0 ∨ length = 0) ∧ SameRuns elements runs) := by
  have bounded := recordLcn_bounded record vcns
  have hole : lcnHole ≤ stored := by
    rw [DriverLcn] at driver
    rw [lcnHole]
    split at driver
    · rw [driver.1, lcnHole]
    · omega
  have allBounded : ∀ run ∈ (⟨vcn, code, length⟩ :: runs : List Run), run.Bounded := by
    intro run listed
    rcases List.mem_cons.mp listed with rfl | later
    · exact bounded
    · exact others.bounded run later
  have before (v : Nat) (below : v < vcn) : runsMap ((⟨vcn, code, length⟩ :: runs).map Run.element) v = none := by
    rw [List.map_cons, runsMap_cons, if_neg]
    · exact others.behind v (by omega)
    · rintro ⟨lower, _⟩
      simp only [Run.element] at lower
      omega
  by_cases empty : length = 0
  · subst empty
    have same (v : Nat) : runsMap ((⟨vcn, code, 0⟩ :: runs).map Run.element) v =
        runsMap (runs.map Run.element) v := by
      rw [List.map_cons, runsMap_cons, if_neg]
      rintro ⟨lower, upper⟩
      simp only [Run.element] at lower upper
      omega
    refine ⟨⟨others.follow, others.codes, allBounded, before⟩, ?_⟩
    simp only [pairElements, if_true, List.nil_append, SameRuns, same, or_true, true_and]
  · rw [pairElements, if_neg empty, List.singleton_append]
    refine ⟨⟨⟨rfl, Nat.pos_of_ne_zero empty, others.follow⟩, ?_, allBounded, before⟩, ?_⟩
    · intro element listed
      rcases List.mem_cons.mp listed with rfl | later
      · exact hole
      · exact others.codes element later
    · have heads := @maps_cons_iff vcn ⟨vcn, stored, length⟩ (Run.element ⟨vcn, code, length⟩) elements
        (runs.map Run.element) rfl rfl (Nat.pos_of_ne_zero empty) rfl
        (fun v below => others.follow.outside (.inl below)) others.behind
      rw [SameRuns, List.map_cons, heads, lcn_eq_iff small apart driver record vcns, SameRuns]
      simp [empty]

theorem noDrift_pair (header : mem buf ≠ 0)
    (read : readSigned mem (buf + 1) ((mem buf).toNat % 16) = (length : Nat)) :
    noDrift mem (fuel + 1) buf drift ↔
      ((mem buf).toNat / 16 = 0 ∨ pairDrift mem buf drift = 0 ∨ length = 0) ∧
        noDrift mem fuel (buf + (mem buf).toNat % 16 + (mem buf).toNat / 16 + 1) (pairDrift mem buf drift) := by
  rw [noDrift, if_neg header, pairDrift]
  dsimp only
  by_cases none : (mem buf).toNat / 16 = 0
  · simp [none]
  · rw [if_neg none, if_neg none, read]
    simp [none]

/-- Where both decoders take an array their runs map alike just when no run is at an lcn
while they are apart. -/
theorem decoders_side_by_side (place : d.buf = base + i) (start : d.vcn = vcn) (apart : d.lcn - lcn = drift)
    (slots : 2 * d.rlpos + (mpLen - i) < 2 ^ 17 - 2) (enough : mpLen < rounds + i)
    (driver : decompressPairs mem (base + mpLen) fuel d = some d') (ends : d'.buf < base + mpLen)
    (record : decodeRunsFrom (fun j => mem (base + j)) mpLen rounds i vcn lcn out = (runs, true)) :
    ∃ elements decoded, d'.elements = d.elements ++ elements ∧ d'.vcn = vcn + rlClusters elements ∧
      2 * d'.rlpos ≤ 2 * d.rlpos + (mpLen - i) ∧ runs = out ++ decoded ∧
      SideBySide vcn elements decoded ∧ (SameRuns elements decoded ↔ noDrift mem fuel d.buf drift) := by
  induction fuel generalizing d i vcn lcn drift rounds out with
  | zero => cases driver
  | succ fuel ih =>
    rw [decompressPairs] at driver
    by_cases more : d.buf < base + mpLen ∧ mem d.buf ≠ 0
    · rw [if_pos more] at driver
      obtain ⟨inside, header⟩ := more
      obtain ⟨rounds, rfl⟩ : ∃ before, rounds = before + 1 := ⟨rounds - 1, by omega⟩
      split at driver
      · cases driver
      rename_i next taken
      obtain ⟨some_byte, length, stored, read, vcns, driverLcn, nextVcn, nextBuf, nextSlot, filled⟩ :=
        decompressPair_some taken (by omega)
      rw [place] at header driverLcn read some_byte nextBuf
      obtain ⟨lenSmall, lcnSmall, code, nextLcn, recordLcn, room, onward⟩ :=
        decodeRunsFrom_pair (by omega) header record
      rw [getLE_of_nonneg some_byte lenSmall read, ← start,
        Nat.mod_eq_of_lt (by omega : d.vcn + length < 2 ^ 64), ← nextVcn] at onward
      have nextApart := lcns_apart lcnSmall apart driverLcn recordLcn
      have nextPlace : next.buf = base + (i + (mem (base + i)).toNat % 16 + (mem (base + i)).toNat / 16 + 1) := by
        rw [nextBuf]
        omega
      have nextSlots : 2 * next.rlpos +
          (mpLen - (i + (mem (base + i)).toNat % 16 + (mem (base + i)).toNat / 16 + 1)) < 2 ^ 17 - 2 := by
        omega
      have nextEnough :
          mpLen < rounds + (i + (mem (base + i)).toNat % 16 + (mem (base + i)).toNat / 16 + 1) := by
        omega
      obtain ⟨elements, decoded, all, lastVcn, lastSlot, allRuns, sides, same⟩ :=
        ih nextPlace rfl nextApart nextSlots nextEnough driver onward
      rw [nextVcn] at sides lastVcn
      obtain ⟨whole, sameWhole⟩ := SideBySide.pair lcnSmall apart driverLcn recordLcn vcns sides
      rw [← start]
      refine ⟨pairElements d.vcn stored length ++ elements, ⟨d.vcn, code, length⟩ :: decoded, ?_, ?_, by omega, ?_,
        whole, ?_⟩
      · rw [all, filled, List.append_assoc]
      · rw [lastVcn, rlClusters_append, pairElements]
        by_cases empty : length = 0
        · simp [empty]
        · simp [empty, rlClusters_cons, Nat.add_assoc]
      · rw [allRuns, List.append_assoc, List.singleton_append]
      · rw [place, noDrift_pair header read, sameWhole, same, nextPlace]
        simp only [Nat.add_assoc]
    · rw [if_neg more] at driver
      obtain rfl := Option.some.inj driver
      have header : mem d.buf = 0 := by
        by_contra some_pair
        exact more ⟨ends, some_pair⟩
      have empty : runs = out := by
        cases rounds with
        | zero => omega
        | succ rounds =>
          rw [decodeRunsFrom, if_neg (by simp [← place, header])] at record
          exact (congrArg Prod.fst record).symm
      refine ⟨[], [], by simp, by simp [start], by omega, by simp [empty], ⟨trivial, by simp, by simp, ?_⟩, ?_⟩
      · intro v _
        rfl
      · simp [SameRuns, noDrift, header]

end Loops

/-! ## One attribute -/

/-- The mapping pairs of an attribute, as replay and the image layer take them out of its
record. -/
def mappingPairs (mem : Mem) (attr : PairsAttribute) : Mem :=
  fun j => mem (attr.attr + attr.mappingPairsOffset + j)

/-- The number of bytes for them. -/
def mappingPairsLen (attr : PairsAttribute) : Nat := attr.length - attr.mappingPairsOffset

/-- Where the driver takes the mapping pairs of an attribute, neither of the other decoders
makes another map of them. -/
def DecodersAgree (vol : PairsVolume) (mem : Mem) (attr : PairsAttribute) : Prop :=
  ∀ rl, ntfsMappingPairsDecompress vol mem attr = some rl → ∀ runs,
    decodeMappingPairs (mappingPairs mem attr) (mappingPairsLen attr) attr.lowestVcn [] = (runs, true) ∨
      decodeRuns (mappingPairs mem attr) (mappingPairsLen attr) attr.lowestVcn = (runs, true) →
    SameMap rl runs

section Attribute

variable {vol : PairsVolume} {mem mp : Mem} {attr : PairsAttribute} {mpLen fuel i vcn : Nat} {lcn : Int}
  {d d' : Decompression} {rl : List RunlistElement} {out runs : List Run}

/-- What replay takes the image layer takes as well. -/
theorem decodePairs_accepted (accepted : decodePairs mp mpLen fuel i vcn lcn out = (runs, true)) :
    decodeRunsFrom mp mpLen fuel i vcn lcn out = (runs, true) := by
  induction fuel generalizing i vcn lcn out with
  | zero => exact accepted
  | succ fuel ih =>
    rw [decodePairs] at accepted
    rw [decodeRunsFrom]
    by_cases more : (i < mpLen && mp i ≠ 0) = true
    · rw [if_pos more] at accepted ⊢
      dsimp only at accepted ⊢
      split at accepted
      · cases accepted
      rename_i sizes
      rw [if_neg sizes]
      split at accepted
      · cases accepted
      split at accepted
      · rename_i some_lcn
        rw [if_pos some_lcn]
        split at accepted
        · cases accepted
        rename_i low
        rw [if_neg low]
        exact ih accepted
      · rename_i hole
        rw [if_neg hole]
        exact ih accepted
    · rw [if_neg more] at accepted ⊢
      exact accepted

/-- The elements that the driver puts behind the runs map nothing. -/
theorem terminate_some (ends : terminate vol attr d = some d') (slots : d.rlpos + 1 < 2 ^ 16) :
    ∃ tail, (List.range (d'.rlpos + 1)).map d'.rl = d.elements ++ tail ∧ MapsNothing d.vcn tail := by
  rw [terminate] at ends
  split at ends
  · cases ends
  split at ends
  · split at ends
    · rename_i more
      cases ends
      refine ⟨[⟨d.vcn, lcnRlNotMapped, (maxCluster vol attr - attr.highestVcn).toNat⟩,
        ⟨d.vcn + (maxCluster vol attr - attr.highestVcn).toNat, lcnEnoent, 0⟩], ?_, ?_⟩
      · rw [elements_setElement]
        have filled := @elements_nextElement d
          ⟨d.vcn, lcnRlNotMapped, (maxCluster vol attr - attr.highestVcn).toNat⟩ slots
        exact (congrArg (· ++ _) filled).trans (List.append_assoc _ _ _)
      · exact mapsNothing_unmapped (by omega) (mapsNothing_terminator (by decide) _)
    · split at ends
      · cases ends
      cases ends
      exact ⟨_, elements_setElement _ _, mapsNothing_terminator (by decide) _⟩
  · cases ends
    exact ⟨_, elements_setElement _ _, mapsNothing_terminator (by decide) _⟩

/-- Where the driver and the image layer take an array they make the same map of it just
when no run is at an lcn while they are apart. -/
theorem sameMap_iff (record : attr.length ≤ 2 ^ 16) (accepted : ntfsMappingPairsDecompress vol mem attr = some rl)
    (decoded : decodeRuns (mappingPairs mem attr) (mappingPairsLen attr) attr.lowestVcn = (runs, true)) :
    SameMap rl runs ↔ noDrift mem (attr.length + 1) (attr.attr + attr.mappingPairsOffset) 0 := by
  rw [ntfsMappingPairsDecompress] at accepted
  split at accepted
  · cases accepted
  split at accepted
  · cases accepted
  rename_i _ inside
  dsimp only at accepted
  split at accepted
  · cases accepted
  rename_i d filled
  split at accepted
  · cases accepted
  rename_i ends
  split at accepted
  · cases accepted
  rename_i d' terminated
  have whole : attr.attr + attr.length = attr.attr + attr.mappingPairsOffset + mappingPairsLen attr := by
    rw [mappingPairsLen]
    omega
  have len : mappingPairsLen attr ≤ 2 ^ 16 := by
    rw [mappingPairsLen]
    omega
  obtain ⟨before, slot, startVcn, startLcn, startBuf⟩ := startDecompression_elements attr
  rw [whole] at filled ends
  obtain ⟨elements, all, parts, lastVcn, lastSlot, allRuns, sides, same⟩ :=
    decoders_side_by_side (startBuf.trans (Nat.add_zero _).symm) startVcn (by rw [startLcn, sub_zero])
      (by omega) (by omega) filled (not_le.mp ends) decoded
  obtain ⟨tail, listed, nothing⟩ := terminate_some terminated (by omega)
  rw [lastVcn] at nothing
  cases accepted
  rw [List.nil_append] at allRuns
  rw [← startBuf, ← same, allRuns, listed, parts, before, List.append_assoc]
  have maps (v : Nat) := driverMap_elements sides.follow sides.codes nothing v
  have records (v : Nat) := recordMap_eq sides.bounded v
  simp only [SameMap, SameRuns, maps, records]

/-- For the mapping pairs of a record that the driver and the image layer take, no other
decoder makes another map of them than the driver just when no run with clusters is at an
lcn while the lcns are apart by offsets of eight bytes. -/
theorem decoders_agree_iff (record : attr.length ≤ 2 ^ 16)
    (accepted : ntfsMappingPairsDecompress vol mem attr = some rl)
    (decoded : decodeRuns (mappingPairs mem attr) (mappingPairsLen attr) attr.lowestVcn = (runs, true)) :
    DecodersAgree vol mem attr ↔ noDrift mem (attr.length + 1) (attr.attr + attr.mappingPairsOffset) 0 := by
  constructor
  · intro agree
    exact (sameMap_iff record accepted decoded).mp (agree rl accepted runs (.inr decoded))
  · rintro steady rl accepted runs (replayed | decoded)
    · exact (sameMap_iff record accepted (decodePairs_accepted replayed)).mpr steady
    · exact (sameMap_iff record accepted decoded).mpr steady

end Attribute

/-- A record whose mapping pairs stand behind the fields of its header. -/
def pairsRecord (bytes : List UInt8) : Mem :=
  fun i => bytes.getD (i - atNonresidentSize) 0

/-- The attribute of a record with two runs of four clusters. -/
def twoRuns : PairsAttribute where
  attr := 0
  length := 80
  mappingPairsOffset := atNonresidentSize
  lowestVcn := 0
  highestVcn := 7
  allocatedSize := 32768

/-- An offset of -1 in eight bytes is read alike. -/
theorem decoders_agree_minus_one :
    DecodersAgree ⟨3, 4096, 12⟩
      (pairsRecord [0x11, 4, 100, 0x81, 4, 0xff, 0xff, 0xff, 0xff, 0xff, 0xff, 0xff, 0xff]) twoRuns ↔
    noDrift (pairsRecord [0x11, 4, 100, 0x81, 4, 0xff, 0xff, 0xff, 0xff, 0xff, 0xff, 0xff, 0xff]) 81 64 0 :=
  @decoders_agree_iff ⟨3, 4096, 12⟩ _ twoRuns [⟨0, 100, 4⟩, ⟨4, 99, 4⟩, ⟨8, lcnEnoent, 0⟩]
    [⟨0, 100, 4⟩, ⟨4, 99, 4⟩] (by decide) (by decide +kernel) (by decide +kernel)

/-- An offset of -50 in eight bytes leads the driver from lcn 100 to 50 and the others to 99. -/
theorem decoders_apart :
    ¬ DecodersAgree ⟨3, 4096, 12⟩
      (pairsRecord [0x11, 4, 100, 0x81, 4, 0xce, 0xff, 0xff, 0xff, 0xff, 0xff, 0xff, 0xff]) twoRuns := by
  intro agree
  have same := agree [⟨0, 100, 4⟩, ⟨4, 50, 4⟩, ⟨8, lcnEnoent, 0⟩] (by decide +kernel)
    [⟨0, 100, 4⟩, ⟨4, 99, 4⟩] (.inl (by decide +kernel)) 4
  revert same
  decide

end Ttntfs.Logfile
