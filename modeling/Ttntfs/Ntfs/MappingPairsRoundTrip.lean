import Ttntfs.Ntfs.MappingPairsBuild

/-!
# The way back from the array

`ntfs_mapping_pairs_decompress` makes of an array that was built the runs whose pairs are
in it. Two kinds of input spoil this. A hole has no lcn in the array from NTFS 3.0 on, but
before that the code of a hole itself is stored as an lcn, and the decoder refuses it. And
a partial first run for which there is no room stops the encoding at the vcn of its
beginning, which lies before the first vcn that was asked for.
-/

namespace Ttntfs.Ntfs

open Ttntfs.Library.ByteMemory
open Ttntfs.Library.SignedBytes

/-- A run whose pair the decoder refuses: a hole whose code is stored as an lcn. -/
def Refused (vol : PairsVolume) (run : RunlistElement) : Prop :=
  run.lcn = lcnHole ∧ storesLcn vol run

instance (vol : PairsVolume) (run : RunlistElement) : Decidable (Refused vol run) :=
  inferInstanceAs (Decidable (_ ∧ _))

section Pair

variable {vol : PairsVolume} {mem : Mem} {attrEnd : Nat} {d : Decompression} {run : RunlistElement}

theorem header_sizes {lcnLen lenLen : Nat} (lcnSmall : lcnLen ≤ 8) (lenSmall : lenLen ≤ 8) :
    (UInt8.ofNat (lcnLen <<< 4 ||| lenLen)).toNat % 16 = lenLen ∧
      (UInt8.ofNat (lcnLen <<< 4 ||| lenLen)).toNat / 16 = lcnLen := by
  have joined : lcnLen <<< 4 ||| lenLen = lcnLen * 16 + lenLen := by
    rw [← Nat.shiftLeft_add_eq_or_of_lt (by omega : lenLen < 2 ^ 4), Nat.shiftLeft_eq]
  rw [joined, UInt8.toNat_ofNat']
  omega

theorem s64_change {lcn : Int} (prevLcn : Int) (range : InS64 lcn) :
    s64 (prevLcn + s64 (lcn - prevLcn)) = lcn := by
  rw [s64, s64, Int.add_bmod_bmod, add_sub_cancel]
  exact s64_of_range range

theorem changeWidth_le (prevLcn : Int) : changeWidth (runChange vol prevLcn run) ≤ 8 := by
  rw [runChange]
  split
  · exact (inS64_s64 _).significantWidth_le_eight
  · exact Nat.zero_le _

theorem Encodable.range (code : Encodable run) (some_cluster : 0 < run.length) :
    InS64 run.lcn ∧ InS64 (run.length : Int) := by
  have lcn := code.lcn
  have clusters := code.clusters
  have vcns := code.vcns
  rw [lcnHole] at lcn
  constructor <;> constructor <;> omega

theorem PairAt.sizes {prevLcn : Int} (code : Encodable run) (some_cluster : 0 < run.length)
    (pair : PairAt mem d.buf run.length (runChange vol prevLcn run)) :
    (mem d.buf).toNat % 16 = significantWidth run.length ∧
      (mem d.buf).toNat / 16 = changeWidth (runChange vol prevLcn run) := by
  rw [pair.header]
  exact header_sizes (changeWidth_le _) (code.range some_cluster).2.significantWidth_le_eight

/-- The lcn of a pair in the array. A hole whose code is stored as an lcn is refused. -/
theorem pairLcn_run (code : Encodable run) (some_cluster : 0 < run.length)
    (pair : PairAt mem d.buf run.length (runChange vol d.lcn run))
    (room : d.buf + runSize vol d.lcn run < attrEnd) :
    pairLcn mem attrEnd d run.length =
      if Refused vol run then none
      else some (run.lcn, lcnBehind vol d.lcn run) := by
  obtain ⟨lenLen, lcnLen⟩ := pair.sizes code some_cluster
  simp only [pairLcn, lenLen, lcnLen]
  rw [runSize, pairSize] at room
  cases stores : storesLcn vol run with
  | false =>
    have hole : run.lcn = lcnHole := by
      have lcn := code.lcn
      simp only [storesLcn, Bool.or_eq_false_iff, decide_eq_false_iff_not] at stores
      omega
    simp [Refused, runChange, stores, changeWidth, lcnBehind, hole]
  | true =>
    have change : runChange vol d.lcn run = some (s64 (run.lcn - d.lcn)) := by simp [runChange, stores]
    have positive := significantWidth_pos (s64 (run.lcn - d.lcn))
    have read := readSigned_of_signedAt (inS64_s64 _) (pair.change_field _ change)
    rw [change, changeWidth] at room ⊢
    rw [if_neg (by omega), if_neg (by omega), read, s64_change _ (code.range some_cluster).1]
    have lcn := code.lcn
    by_cases hole : run.lcn = lcnHole
    · rw [if_pos (by rw [hole, lcnHole]; omega), if_pos ⟨hole, stores⟩]
    · rw [if_neg (by omega), if_neg (by omega), if_neg (fun both => hole both.1)]
      simp [lcnBehind, stores]

/-- A pair of the array fills in the element of its run. -/
theorem decompressPair_run (code : Encodable run) (some_cluster : 0 < run.length)
    (pair : PairAt mem d.buf run.length (runChange vol d.lcn run))
    (room : d.buf + runSize vol d.lcn run < attrEnd) (place : run.vcn = d.vcn) :
    decompressPair mem attrEnd d =
      if Refused vol run then none
      else some ⟨d.vcn + run.length, lcnBehind vol d.lcn run, d.buf + runSize vol d.lcn run,
        Function.update d.rl d.rlpos run, (d.rlpos + 1) % 2 ^ 16⟩ := by
  obtain ⟨lenLen, lcnLen⟩ := pair.sizes code some_cluster
  have positive := significantWidth_pos (run.length : Int)
  have read := readSigned_of_signedAt (code.range some_cluster).2 pair.length_field
  have vcns := code.vcns
  have size : runSize vol d.lcn run =
      significantWidth run.length + changeWidth (runChange vol d.lcn run) + 1 := by
    rw [runSize, pairSize]
  simp only [decompressPair, lenLen, lcnLen, read]
  rw [if_neg (by omega), if_neg (by omega : significantWidth (run.length : Int) ≠ 0),
    if_neg (by omega), if_neg (by omega), pairLcn_run code some_cluster pair room]
  by_cases refused : Refused vol run
  · rw [if_pos refused, if_pos refused]
  · rw [if_neg refused, if_neg refused]
    have some_length : ¬ (run.length : Int) = 0 := by omega
    simp only [Int.toNat_natCast, if_neg some_length, Decompression.setElement,
      Decompression.nextElement, ← place, size, Nat.add_assoc]

end Pair

/-- The number of bytes of the pairs of some runs. -/
def arraySize (vol : PairsVolume) : Int → List RunlistElement → Nat
  | _, [] => 0
  | prevLcn, run :: rest =>
    runSize vol prevLcn run + arraySize vol (lcnBehind vol prevLcn run) rest

/-- The elements that are filled in. -/
def Decompression.elements (d : Decompression) : List RunlistElement :=
  (List.range d.rlpos).map d.rl

section Loop

variable {vol : PairsVolume} {mem : Mem} {attrEnd fuel : Nat} {d : Decompression}
  {runs : List RunlistElement}

theorem map_range_update (rl : Nat → RunlistElement) (count : Nat) (element : RunlistElement) :
    (List.range (count + 1)).map (Function.update rl count element) =
      (List.range count).map rl ++ [element] := by
  rw [List.range_succ, List.map_append, List.map_singleton, Function.update_self]
  congr 1
  apply List.map_congr_left
  intro i listed
  rw [Function.update_of_ne (Nat.ne_of_lt (List.mem_range.mp listed))]

theorem PairAt.nonzero {off : Nat} {length : Int} {change : Option Int} (range : InS64 length)
    (small : changeWidth change ≤ 8) (pair : PairAt mem off length change) : mem off ≠ 0 := by
  have positive := significantWidth_pos length
  have sizes := header_sizes small range.significantWidth_le_eight
  rw [pair.header]
  intro zero
  rw [zero] at sizes
  simp at sizes
  omega

/-- The loop fills in the runs of an array, one after the other. -/
theorem decompressPairs_runs (array : ArrayAt vol mem d.buf d.lcn runs) (follow : RunsFrom d.vcn runs)
    (encodable : ∀ run ∈ runs, Encodable run) (accepted : ∀ run ∈ runs, ¬ Refused vol run)
    (room : d.buf + arraySize vol d.lcn runs < attrEnd) (enough : runs.length < fuel)
    (slots : d.rlpos + runs.length < 2 ^ 16) :
    ∃ d', decompressPairs mem attrEnd fuel d = some d' ∧ d'.vcn = d.vcn + rlClusters runs ∧
      d'.buf < attrEnd ∧ d'.rlpos = d.rlpos + runs.length ∧ d'.elements = d.elements ++ runs := by
  induction runs generalizing d fuel with
  | nil =>
    obtain ⟨fuel, rfl⟩ : ∃ rounds, fuel = rounds + 1 := ⟨fuel - 1, by simp at enough; omega⟩
    have terminator : mem d.buf = 0 := array
    refine ⟨d, ?_, by simp [rlClusters], by simpa [arraySize] using room, by simp, by simp⟩
    rw [decompressPairs, if_neg (fun both => both.2 terminator)]
  | cons run rest ih =>
    obtain ⟨fuel, rfl⟩ : ∃ rounds, fuel = rounds + 1 := ⟨fuel - 1, by omega⟩
    obtain ⟨pair, others⟩ := array
    obtain ⟨place, some_cluster, onward⟩ := follow
    rw [arraySize] at room
    rw [List.length_cons] at enough slots
    have code := encodable run (by simp)
    have full := pair.nonzero (code.range some_cluster).2 (changeWidth_le _)
    have step := decompressPair_run code some_cluster pair (by omega : _ < attrEnd) place
    rw [if_neg (accepted run (by simp))] at step
    obtain ⟨d', decoded, vcn, buf, rlpos, elements⟩ := @ih fuel
      ⟨d.vcn + run.length, lcnBehind vol d.lcn run, d.buf + runSize vol d.lcn run,
        Function.update d.rl d.rlpos run, (d.rlpos + 1) % 2 ^ 16⟩ others onward
      (fun later listed => encodable later (by simp [listed]))
      (fun later listed => accepted later (by simp [listed])) (by dsimp only; omega) (by omega)
      (by dsimp only; omega)
    have next : (d.rlpos + 1) % 2 ^ 16 = d.rlpos + 1 := Nat.mod_eq_of_lt (by omega)
    refine ⟨d', ?_, ?_, buf, ?_, ?_⟩
    · rw [decompressPairs, if_pos ⟨by omega, full⟩, step]
      exact decoded
    · rw [vcn, rlClusters_cons, Nat.add_assoc]
    · rw [rlpos, List.length_cons]
      dsimp only
      omega
    · rw [elements, Decompression.elements, Decompression.elements, next, map_range_update,
        List.append_assoc, List.singleton_append]

/-- An array with a pair that is refused is refused. -/
theorem decompressPairs_refused (array : ArrayAt vol mem d.buf d.lcn runs)
    (follow : RunsFrom d.vcn runs) (encodable : ∀ run ∈ runs, Encodable run)
    (room : d.buf + arraySize vol d.lcn runs < attrEnd) (refused : ∃ run ∈ runs, Refused vol run) :
    decompressPairs mem attrEnd fuel d = none := by
  induction runs generalizing d fuel with
  | nil =>
    obtain ⟨run, listed, _⟩ := refused
    cases listed
  | cons run rest ih =>
    cases fuel with
    | zero => rfl
    | succ fuel =>
      obtain ⟨pair, others⟩ := array
      obtain ⟨place, some_cluster, onward⟩ := follow
      rw [arraySize] at room
      have code := encodable run (by simp)
      have full := pair.nonzero (code.range some_cluster).2 (changeWidth_le _)
      have step := decompressPair_run code some_cluster pair (by omega : _ < attrEnd) place
      rw [decompressPairs, if_pos ⟨by omega, full⟩, step]
      by_cases here : Refused vol run
      · rw [if_pos here]
      rw [if_neg here]
      obtain ⟨bad, listed, wrong⟩ := refused
      have later : bad ∈ rest := by
        rcases List.mem_cons.mp listed with rfl | later
        · exact absurd wrong here
        · exact later
      exact @ih fuel _ others onward
        (fun run listed => encodable run (by simp [listed])) (by dsimp only; omega) ⟨bad, later, wrong⟩

end Loop

section Wanted

variable {vol : PairsVolume} {start room : Nat} {prevLcn lastVcn : Int}
  {rl runs fit tail : List RunlistElement}

theorem fittingRuns_isBeginning : fittingRuns vol room prevLcn runs <+: runs := by
  induction runs generalizing room prevLcn with
  | nil => exact List.prefix_rfl
  | cons run rest ih =>
    rw [fittingRuns]
    split
    · exact List.prefix_cons_inj run |>.mpr ih
    · exact List.nil_prefix

theorem arraySize_fittingRuns : arraySize vol prevLcn (fittingRuns vol room prevLcn runs) ≤ room := by
  induction runs generalizing room prevLcn with
  | nil => simp [fittingRuns, arraySize]
  | cons run rest ih =>
    rw [fittingRuns]
    split
    · rw [arraySize]
      have others := @ih (room - runSize vol prevLcn run) (lcnBehind vol prevLcn run)
      omega
    · simp [arraySize]

theorem length_le_arraySize : runs.length ≤ arraySize vol prevLcn runs := by
  induction runs generalizing prevLcn with
  | nil => simp
  | cons run rest ih =>
    have others := @ih (lcnBehind vol prevLcn run)
    rw [arraySize, runSize, pairSize, List.length_cons]
    omega

theorem cappedRuns_encodable (encodable : ∀ element ∈ rl, element.length ≠ 0 → Encodable element) :
    ∀ run ∈ cappedRuns lastVcn rl, Encodable run := by
  induction rl with
  | nil => simp [cappedRuns]
  | cons element rest ih =>
    have others := ih fun later listed => encodable later (by simp [listed])
    intro run listed
    rw [cappedRuns] at listed
    split at listed
    · cases listed
    rename_i some_cluster
    have code := encodable element (by simp) some_cluster
    have clusters := code.clusters
    have vcns := code.vcns
    split at listed
    · rename_i ends
      rw [List.mem_singleton.mp listed]
      exact ⟨code.lcn, by dsimp only; omega, by dsimp only; omega⟩
    · rcases List.mem_cons.mp listed with rfl | later
      · exact code
      · exact others run later

/-- Runs that follow one another from a vcn on and, with anything behind them, map their
vcns as a run list does. -/
structure Restores (start : Nat) (rl fit : List RunlistElement) : Prop where
  follow : RunsFrom start fit
  valid : ∀ tail, RlFrom (start + rlClusters fit) tail → RlFrom start (fit ++ tail)
  same : ∀ tail, RlFrom (start + rlClusters fit) tail → ∀ v, start ≤ v → v < start + rlClusters fit →
    ntfsRlVcnToLcn (fit ++ tail) v = ntfsRlVcnToLcn rl v
  behind : ∀ tail, RlFrom (start + rlClusters fit) tail → ∀ v, start + rlClusters fit ≤ v →
    ntfsRlVcnToLcn (fit ++ tail) v = ntfsRlVcnToLcn tail v

theorem restores_nil : Restores start rl [] where
  follow := trivial
  valid tail rest := by simpa [rlClusters] using rest
  same tail rest v lower upper := by
    simp [rlClusters] at upper
    omega
  behind _ _ _ _ := rfl

/-- One more run before those that restore a part of a list. -/
theorem restores_cons {run : RunlistElement} (place : run.vcn = start) (some_cluster : 0 < run.length)
    (here : ∀ v, start ≤ v → v < start + run.length →
      ntfsRlVcnToLcn rl v = if run.lcn ≥ 0 then run.lcn + (v - start : Nat) else run.lcn)
    (others : Restores (start + run.length) rl fit) : Restores start rl (run :: fit) := by
  have whole : start + rlClusters (run :: fit) = start + run.length + rlClusters fit := by
    rw [rlClusters_cons, Nat.add_assoc]
  have valid (tail : List RunlistElement) (rest : RlFrom (start + rlClusters (run :: fit)) tail) :
      RlFrom start (run :: (fit ++ tail)) := by
    rw [whole] at rest
    exact .run place some_cluster (others.valid tail rest)
  refine ⟨⟨place, some_cluster, others.follow⟩, valid, ?_, ?_⟩
  · intro tail rest v lower upper
    rw [List.cons_append, (valid tail rest).lookup some_cluster lower]
    rw [whole] at rest upper
    by_cases first : v < start + run.length
    · rw [if_pos first, here v lower first]
    · rw [if_neg first, others.same tail rest v (by omega) upper]
  · intro tail rest v past
    rw [List.cons_append, (valid tail rest).lookup some_cluster (by omega)]
    rw [whole] at rest past
    rw [if_neg (by omega), others.behind tail rest v past]

theorem Restores.of_same {other : List RunlistElement} (restores : Restores start other fit)
    (same : ∀ v, start ≤ v → ntfsRlVcnToLcn rl v = ntfsRlVcnToLcn other v) : Restores start rl fit where
  follow := restores.follow
  valid := restores.valid
  same tail rest v lower upper := by
    rw [same v lower]
    exact restores.same tail rest v lower upper
  behind := restores.behind

/-- A beginning of the runs up to a last vcn restores the list. -/
theorem RlFrom.capped (valid : RlFrom start rl) (wanted : lastVcn = -1 ∨ (start : Int) ≤ lastVcn)
    (part : fit <+: cappedRuns lastVcn rl) : Restores start rl fit := by
  induction valid generalizing fit with
  | terminator first ends negative =>
    rw [cappedRuns, if_pos ends, List.prefix_nil] at part
    subst part
    exact restores_nil
  | @run element rest start first some_cluster others ih =>
    have whole := RlFrom.run first some_cluster others
    cases fit with
    | nil => exact restores_nil
    | cons run fit =>
      rw [cappedRuns, if_neg (by omega)] at part
      split at part
      · rename_i ends
        obtain ⟨rfl, last⟩ := List.cons_prefix_cons.mp part
        obtain rfl := List.prefix_nil.mp last
        refine restores_cons first (by dsimp only; omega) ?_ restores_nil
        intro v lower upper
        dsimp only at upper
        rw [whole.lookup some_cluster lower, if_pos (by omega)]
      · rename_i goesOn
        obtain ⟨rfl, onward⟩ := List.cons_prefix_cons.mp part
        refine restores_cons first some_cluster ?_ ?_
        · intro v lower upper
          rw [whole.lookup some_cluster lower, if_pos upper]
        · apply (ih (by omega) onward).of_same
          intro v lower
          rw [whole.lookup some_cluster (by omega), if_neg (by omega)]

/-- The vcn behind the last one that is wanted. -/
def wantedEnd (start : Nat) (rl : List RunlistElement) (lastVcn : Int) : Nat :=
  if lastVcn < 0 then start + rlClusters rl else lastVcn.toNat + 1

/-- The runs up to a last vcn end behind it. -/
theorem RlFrom.capped_end (valid : RlFrom start rl) (wanted : lastVcn = -1 ∨ (start : Int) ≤ lastVcn)
    (inside : wantedEnd start rl lastVcn ≤ start + rlClusters rl) :
    start + rlClusters (cappedRuns lastVcn rl) = wantedEnd start rl lastVcn := by
  induction valid with
  | @terminator element start first ends negative =>
    rw [cappedRuns, if_pos ends]
    simp only [wantedEnd, rlClusters, List.map_cons, List.map_nil, List.sum_cons, List.sum_nil, ends] at inside ⊢
    split at inside <;> split <;> omega
  | @run element rest start first some_cluster others ih =>
    rw [cappedRuns, if_neg (by omega)]
    have tail : wantedEnd (start + element.length) rest lastVcn = wantedEnd start (element :: rest) lastVcn := by
      simp only [wantedEnd, rlClusters_cons, Nat.add_assoc]
    rw [← tail] at inside ⊢
    rw [rlClusters_cons] at inside
    split
    · rename_i ends
      rw [wantedEnd, if_neg (by omega)]
      simp only [rlClusters, List.map_cons, List.map_nil, List.sum_cons, List.sum_nil]
      omega
    · rw [rlClusters_cons, ← Nat.add_assoc]
      exact ih (by omega) (by omega)

end Wanted

/-- The attribute record of an extent whose array lies in a buffer. -/
def extentAttribute (attr mappingPairsOffset dstLen firstVcn stopVcn allocatedSize : Nat) :
    PairsAttribute where
  attr := attr
  length := mappingPairsOffset + dstLen
  mappingPairsOffset := mappingPairsOffset
  lowestVcn := firstVcn
  highestVcn := stopVcn - 1
  allocatedSize := allocatedSize

/-- A run list maps just the vcns of a range, to what another one maps them. -/
structure MapsRange (decoded rl : List RunlistElement) (firstVcn stopVcn : Nat) : Prop where
  inside : ∀ v, firstVcn ≤ v → v < stopVcn → ntfsRlVcnToLcn decoded v = ntfsRlVcnToLcn rl v
  outside : ∀ v, v < firstVcn ∨ stopVcn ≤ v → ntfsRlVcnToLcn decoded v < lcnHole

/-- The elements behind the runs map nothing. -/
structure MapsNothing (stopVcn : Nat) (tail : List RunlistElement) : Prop where
  valid : RlFrom stopVcn tail
  nothing : ∀ v, ntfsRlVcnToLcn tail v < lcnHole

section Extent

variable {vol : PairsVolume} {mem : Mem} {d : Decompression} {rl fit tail : List RunlistElement}
  {attr mappingPairsOffset dstLen firstVcn stopVcn allocatedSize : Nat}

theorem mapsNothing_terminator {lcn : Int} (code : lcn < lcnHole) (stopVcn : Nat) :
    MapsNothing stopVcn [⟨stopVcn, lcn, 0⟩] where
  valid := .terminator rfl rfl (lt_trans code (by decide))
  nothing v := by
    have negative : lcn < 0 := lt_trans code (by decide)
    simp only [ntfsRlVcnToLcn, rlScan, if_pos negative]
    split
    · decide
    · exact code

theorem mapsNothing_unmapped {count : Nat} (some_cluster : 0 < count)
    (rest : MapsNothing (stopVcn + count) tail) :
    MapsNothing stopVcn (⟨stopVcn, lcnRlNotMapped, count⟩ :: tail) where
  valid := .run rfl some_cluster rest.valid
  nothing v := by
    have valid : RlFrom stopVcn (⟨stopVcn, lcnRlNotMapped, count⟩ :: tail) :=
      .run rfl some_cluster rest.valid
    by_cases lower : stopVcn ≤ v
    · rw [valid.lookup some_cluster lower]
      split
      · simp [lcnRlNotMapped, lcnHole]
      · exact rest.nothing v
    · rw [ntfsRlVcnToLcn, if_pos (by dsimp only; omega)]
      decide

theorem elements_setElement (d : Decompression) (element : RunlistElement) :
    (List.range ((d.setElement element).rlpos + 1)).map (d.setElement element).rl =
      d.elements ++ [element] :=
  map_range_update _ _ _

theorem elements_nextElement {element : RunlistElement} (slots : d.rlpos + 1 < 2 ^ 16) :
    (d.setElement element).nextElement.elements = d.elements ++ [element] := by
  have next : (d.rlpos + 1) % 2 ^ 16 = d.rlpos + 1 := Nat.mod_eq_of_lt slots
  simp only [Decompression.elements, Decompression.nextElement, Decompression.setElement, next]
  exact map_range_update _ _ _

/-- The element before the lowest vcn. -/
def elementsBefore (firstVcn : Nat) : List RunlistElement :=
  if firstVcn = 0 then [] else [⟨0, lcnRlNotMapped, firstVcn⟩]

theorem startDecompression_elements (record : PairsAttribute) :
    (startDecompression record).elements = elementsBefore record.lowestVcn ∧
      (startDecompression record).rlpos ≤ 1 ∧ (startDecompression record).vcn = record.lowestVcn ∧
      (startDecompression record).lcn = 0 ∧
      (startDecompression record).buf = record.attr + record.mappingPairsOffset := by
  rw [startDecompression, elementsBefore]
  split
  · exact ⟨rfl, Nat.zero_le 1, rfl, rfl, rfl⟩
  · refine ⟨?_, Nat.le_refl 1, rfl, rfl, rfl⟩
    rw [elements_nextElement (by dsimp only; omega)]
    rfl

/-- The last cluster of an attribute is not before the last one of its array. -/
theorem maxCluster_ge {record : PairsAttribute} (cluster : vol.clusterSize = 2 ^ vol.clusterSizeBits)
    (word : vol.clusterSize ≤ 2 ^ 32) (size : record.allocatedSize < 2 ^ 63)
    (allocated : stopVcn * vol.clusterSize ≤ record.allocatedSize) :
    (stopVcn : Int) - 1 ≤ maxCluster vol record := by
  have positive : 0 < vol.clusterSize := by
    rw [cluster]
    exact Nat.two_pow_pos _
  have whole : (record.allocatedSize + vol.clusterSize - 1) % 2 ^ 64 =
      record.allocatedSize + vol.clusterSize - 1 := Nat.mod_eq_of_lt (by omega)
  have enough : stopVcn ≤ (record.allocatedSize + vol.clusterSize - 1) / vol.clusterSize :=
    (Nat.le_div_iff_mul_le positive).mpr (by omega)
  have bounded : (record.allocatedSize + vol.clusterSize - 1) / vol.clusterSize < 2 ^ 63 := by
    apply lt_of_le_of_lt _ size
    apply Nat.le_of_lt_succ
    rw [Nat.div_lt_iff_lt_mul positive]
    have scaled : record.allocatedSize ≤ record.allocatedSize * vol.clusterSize :=
      Nat.le_mul_of_pos_right _ positive
    rw [Nat.succ_mul]
    omega
  rw [maxCluster, whole, Nat.shiftRight_eq_div_pow, ← cluster, s64_of_range]
  · omega
  · constructor <;> omega

/-- The elements behind the runs. -/
theorem terminate_extent {record : PairsAttribute} (highest : record.highestVcn = (d.vcn : Int) - 1)
    (covered : record.lowestVcn = 0 → record.highestVcn ≤ maxCluster vol record)
    (slots : d.rlpos + 1 < 2 ^ 16) :
    ∃ d' tail, terminate vol record d = some d' ∧
      (List.range (d'.rlpos + 1)).map d'.rl = d.elements ++ tail ∧ MapsNothing d.vcn tail := by
  rw [terminate, if_neg (by omega)]
  by_cases base : record.lowestVcn = 0
  · rw [if_pos base]
    have bound := covered base
    by_cases more : record.highestVcn ≠ 0 ∧ record.highestVcn < maxCluster vol record
    · rw [if_pos more]
      refine ⟨_, [⟨d.vcn, lcnRlNotMapped, (maxCluster vol record - record.highestVcn).toNat⟩,
        ⟨d.vcn + (maxCluster vol record - record.highestVcn).toNat, lcnEnoent, 0⟩], rfl, ?_, ?_⟩
      · rw [elements_setElement]
        have filled := @elements_nextElement d
          ⟨d.vcn, lcnRlNotMapped, (maxCluster vol record - record.highestVcn).toNat⟩ slots
        exact (congrArg (· ++ _) filled).trans (List.append_assoc _ _ _)
      · exact mapsNothing_unmapped (by omega) (mapsNothing_terminator (by decide) _)
    · rw [if_neg more, if_neg (by omega)]
      exact ⟨_, _, rfl, elements_setElement _ _, mapsNothing_terminator (by decide) _⟩
  · rw [if_neg base]
    exact ⟨_, _, rfl, elements_setElement _ _, mapsNothing_terminator (by decide) _⟩

/-- Runs that restore a part of a list map it, with the elements before and behind them. -/
theorem Restores.mapsRange (restores : Restores firstVcn rl fit)
    (rest : MapsNothing (firstVcn + rlClusters fit) tail) :
    MapsRange (elementsBefore firstVcn ++ (fit ++ tail)) rl firstVcn (firstVcn + rlClusters fit) := by
  have behind (v : Nat) (past : firstVcn + rlClusters fit ≤ v) :
      ntfsRlVcnToLcn (fit ++ tail) v < lcnHole := by
    rw [restores.behind tail rest.valid v past]
    exact rest.nothing v
  rw [elementsBefore]
  by_cases base : firstVcn = 0
  · rw [if_pos base]
    refine ⟨restores.same tail rest.valid, ?_⟩
    rintro v (before | past)
    · omega
    · exact behind v past
  · rw [if_neg base]
    have valid : RlFrom 0 (⟨0, lcnRlNotMapped, firstVcn⟩ :: (fit ++ tail)) :=
      .run rfl (Nat.pos_of_ne_zero base) (by rw [Nat.zero_add]; exact restores.valid tail rest.valid)
    have lookup (v : Nat) : ntfsRlVcnToLcn (⟨0, lcnRlNotMapped, firstVcn⟩ :: (fit ++ tail)) v =
        if v < firstVcn then lcnRlNotMapped else ntfsRlVcnToLcn (fit ++ tail) v := by
      rw [valid.lookup (Nat.pos_of_ne_zero base) (Nat.zero_le v)]
      simp [lcnRlNotMapped]
    refine ⟨fun v lower upper => ?_, ?_⟩
    · rw [List.singleton_append, lookup, if_neg (by omega), restores.same tail rest.valid v lower upper]
    · rintro v (before | past)
      · rw [List.singleton_append, lookup, if_pos before]
        decide
      · rw [List.singleton_append, lookup, if_neg (by omega)]
        exact behind v past

/-- The run list of an array that is not refused maps the vcns of its runs. -/
theorem decompress_mapsRange (array : ArrayAt vol mem (attr + mappingPairsOffset) 0 fit)
    (restores : Restores firstVcn rl fit) (encodable : ∀ run ∈ fit, Encodable run)
    (accepted : ∀ run ∈ fit, ¬ Refused vol run) (room : arraySize vol 0 fit < dstLen)
    (small : dstLen ≤ 4096) (word : firstVcn < 2 ^ 63)
    (covered : firstVcn = 0 → ((rlClusters fit : Nat) : Int) - 1 ≤
      maxCluster vol (extentAttribute attr mappingPairsOffset dstLen firstVcn
        (firstVcn + rlClusters fit) allocatedSize)) :
    ∃ decoded, ntfsMappingPairsDecompress vol mem (extentAttribute attr mappingPairsOffset dstLen
        firstVcn (firstVcn + rlClusters fit) allocatedSize) = some decoded ∧
      MapsRange decoded rl firstVcn (firstVcn + rlClusters fit) := by
  generalize described : extentAttribute attr mappingPairsOffset dstLen firstVcn
    (firstVcn + rlClusters fit) allocatedSize = record at covered ⊢
  have lowest : record.lowestVcn = firstVcn := by rw [← described]; rfl
  have length : record.length = mappingPairsOffset + dstLen := by rw [← described]; rfl
  have offset : record.mappingPairsOffset = mappingPairsOffset := by rw [← described]; rfl
  have base : record.attr = attr := by rw [← described]; rfl
  have highest : record.highestVcn = ((firstVcn + rlClusters fit : Nat) : Int) - 1 := by
    rw [← described]; rfl
  obtain ⟨before, rlpos, vcn, lcn, buf⟩ := startDecompression_elements record
  have count := @length_le_arraySize vol 0 fit
  rw [lowest] at vcn before
  rw [base, offset] at buf
  obtain ⟨d, decoded, dVcn, dBuf, dRlpos, dElements⟩ := @decompressPairs_runs vol mem
    (record.attr + record.length) (record.length + 1) (startDecompression record) fit
    (by rw [buf, lcn]; exact array) (by rw [vcn]; exact restores.follow) encodable accepted
    (by rw [buf, lcn, base, length]; omega) (by omega) (by omega)
  obtain ⟨d', tail, ended, elements, nothing⟩ := @terminate_extent vol d record
    (by rw [highest, dVcn, vcn]) (by
      intro atStart
      have first : firstVcn = 0 := by rw [← lowest, atStart]
      have bound := covered first
      rw [highest]
      omega) (by omega)
  refine ⟨d.elements ++ tail, ?_, ?_⟩
  · rw [ntfsMappingPairsDecompress, if_neg (by omega)]
    simp only
    rw [if_neg (by omega), decoded]
    simp only
    rw [if_neg (by omega), ended]
    simp only [elements]
  · rw [dVcn, vcn] at nothing
    rw [dElements, before, List.append_assoc]
    exact restores.mapsRange nothing

/-- An array with a pair that is refused has no run list. -/
theorem decompress_refused (array : ArrayAt vol mem (attr + mappingPairsOffset) 0 fit)
    (follow : RunsFrom firstVcn fit) (encodable : ∀ run ∈ fit, Encodable run)
    (room : arraySize vol 0 fit < dstLen) (refused : ∃ run ∈ fit, Refused vol run) :
    ntfsMappingPairsDecompress vol mem
      (extentAttribute attr mappingPairsOffset dstLen firstVcn stopVcn allocatedSize) = none := by
  generalize described : extentAttribute attr mappingPairsOffset dstLen firstVcn stopVcn
    allocatedSize = record
  have lowest : record.lowestVcn = firstVcn := by rw [← described]; rfl
  have length : record.length = mappingPairsOffset + dstLen := by rw [← described]; rfl
  have offset : record.mappingPairsOffset = mappingPairsOffset := by rw [← described]; rfl
  have base : record.attr = attr := by rw [← described]; rfl
  obtain ⟨_, _, vcn, lcn, buf⟩ := startDecompression_elements record
  rw [lowest] at vcn
  rw [base, offset] at buf
  have stopped := @decompressPairs_refused vol mem (record.attr + record.length) (record.length + 1)
    (startDecompression record) fit (by rw [buf, lcn]; exact array) (by rw [vcn]; exact follow)
    encodable (by rw [buf, lcn, base, length]; omega) refused
  rw [ntfsMappingPairsDecompress]
  split
  · rfl
  · simp only
    split
    · rfl
    · rw [stopped]

end Extent

/-- The run list of the array in an extent record maps just the vcns of a range, as the
whole run list does. -/
def Decodes (vol : PairsVolume) (mem : Mem) (record : PairsAttribute) (rl : List RunlistElement)
    (firstVcn stopVcn : Nat) : Prop :=
  ∃ decoded, ntfsMappingPairsDecompress vol mem record = some decoded ∧
    MapsRange decoded rl firstVcn stopVcn

/-- What building an array and decoding it again gives: all vcns that were asked for when
the array was built, and those before the stop vcn when there was no room for the others. -/
def RoundTrips (vol : PairsVolume) (mem : Mem) (attr mappingPairsOffset dstLen allocatedSize : Nat)
    (rl : List RunlistElement) (firstVcn endVcn : Nat) (lastVcn : Int) : Prop :=
  match ntfsMappingPairsBuild vol mem (attr + mappingPairsOffset) dstLen rl firstVcn lastVcn with
  | (mem', .success _ _ _) => Decodes vol mem'
      (extentAttribute attr mappingPairsOffset dstLen firstVcn endVcn allocatedSize) rl firstVcn endVcn
  | (mem', .enospc stopVcn _) => firstVcn ≤ stopVcn ∧ Decodes vol mem'
      (extentAttribute attr mappingPairsOffset dstLen firstVcn stopVcn allocatedSize) rl firstVcn stopVcn
  | _ => True

section RoundTrip

variable {vol : PairsVolume} {mem : Mem} {attr mappingPairsOffset dstLen allocatedSize start firstVcn : Nat}
  {lastVcn : Int} {rl : List RunlistElement}

/-- A part of a run list from a first to a last vcn that lie inside it. -/
structure InsideRunlist (start : Nat) (rl : List RunlistElement) (firstVcn : Nat) (lastVcn : Int) :
    Prop where
  lower : start ≤ firstVcn
  last : -1 ≤ lastVcn
  some_vcn : firstVcn < wantedEnd start rl lastVcn
  upper : wantedEnd start rl lastVcn ≤ start + rlClusters rl

/-- The runs that are wanted restore the list up to the end of the range. -/
theorem wantedRuns_restores (valid : ValidRunlist start rl)
    (inside : InsideRunlist start rl firstVcn lastVcn) :
    (∀ fit, fit <+: wantedRuns firstVcn lastVcn rl → Restores firstVcn rl fit) ∧
      (∀ run ∈ wantedRuns firstVcn lastVcn rl, Encodable run) ∧
      firstVcn + rlClusters (wantedRuns firstVcn lastVcn rl) = wantedEnd start rl lastVcn := by
  have lower := inside.lower
  have last := inside.last
  have some_vcn := inside.some_vcn
  have upper := inside.upper
  have wanted : lastVcn = -1 ∨ (firstVcn : Int) ≤ lastVcn := by
    rw [wantedEnd] at some_vcn
    split at some_vcn <;> omega
  obtain ⟨element, rest, sought, suffix, below, above, within, clusters, same⟩ :=
    valid.contiguous.seek_inside lower (by omega)
  have whole := suffix.trimmed below above
  have some_cluster : 0 < element.length := by omega
  have code := valid.encodable element (within.subset (by simp)) (by omega)
  have total : firstVcn + rlClusters (trimmed firstVcn element :: rest) = start + rlClusters rl := by
    rw [rlClusters_cons] at clusters ⊢
    simp only [trimmed]
    omega
  have ends : wantedEnd firstVcn (trimmed firstVcn element :: rest) lastVcn = wantedEnd start rl lastVcn := by
    simp only [wantedEnd, total]
  simp only [wantedRuns, sought]
  refine ⟨?_, ?_, ?_⟩
  · intro fit part
    apply (whole.capped wanted part).of_same
    intro v behind
    rw [← same v behind, suffix.lookup some_cluster (by omega),
      whole.lookup (by simp only [trimmed]; omega) behind]
    have same_end : firstVcn + (trimmed firstVcn element).length = element.vcn + element.length := by
      simp only [trimmed]
      omega
    rw [same_end]
    congr 1
    by_cases real : 0 ≤ element.lcn
    · have moved : (trimmed firstVcn element).lcn = element.lcn + (firstVcn - element.vcn : Nat) :=
        if_pos real
      rw [if_pos real, if_pos (by omega), moved]
      omega
    · have kept : (trimmed firstVcn element).lcn = element.lcn := if_neg real
      rw [if_neg real, if_neg (by omega), kept]
  · apply cappedRuns_encodable
    intro run listed some_length
    rcases List.mem_cons.mp listed with rfl | listed
    · exact code.trimmed below above
    · exact valid.encodable run (within.subset (by simp [listed])) some_length
  · rw [whole.capped_end wanted (by omega), ends]

/-- The array of runs that restore a part of a list decodes just when no pair is refused. -/
theorem decodes_iff {fit : List RunlistElement} {mem' : Mem}
    (array : ArrayAt vol mem' (attr + mappingPairsOffset) 0 fit)
    (restores : Restores firstVcn rl fit) (encodable : ∀ run ∈ fit, Encodable run)
    (room : arraySize vol 0 fit < dstLen) (record : dstLen ≤ 4096) (vcns : firstVcn < 2 ^ 63)
    (cluster : vol.clusterSize = 2 ^ vol.clusterSizeBits) (word : vol.clusterSize ≤ 2 ^ 32)
    (size : allocatedSize < 2 ^ 63)
    (allocated : firstVcn = 0 → rlClusters fit * vol.clusterSize ≤ allocatedSize) :
    Decodes vol mem' (extentAttribute attr mappingPairsOffset dstLen firstVcn
        (firstVcn + rlClusters fit) allocatedSize) rl firstVcn (firstVcn + rlClusters fit) ↔
      (3 ≤ vol.majorVer ∨ ∀ run ∈ fit, run.lcn ≠ lcnHole) := by
  have refused_iff : (∃ run ∈ fit, Refused vol run) ↔
      ¬ (3 ≤ vol.majorVer ∨ ∀ run ∈ fit, run.lcn ≠ lcnHole) := by
    constructor
    · rintro ⟨run, listed, hole, stores⟩ (modern | none_hole)
      · have code : ¬ 0 ≤ lcnHole := by decide
        simp only [storesLcn, hole, decide_eq_false code, Bool.false_or, decide_eq_true_iff] at stores
        omega
      · exact none_hole run listed hole
    · intro bad
      obtain ⟨old, some_hole⟩ := not_or.mp bad
      obtain ⟨run, listed, hole⟩ : ∃ run ∈ fit, run.lcn = lcnHole := by
        by_contra none_hole
        exact some_hole fun run listed hole => none_hole ⟨run, listed, hole⟩
      exact ⟨run, listed, hole, by simp [storesLcn]; omega⟩
  constructor
  · rintro ⟨decoded, decompressed, _⟩
    by_contra bad
    rw [decompress_refused array restores.follow encodable room (refused_iff.mpr bad)] at decompressed
    cases decompressed
  · intro good
    have accepted : ∀ run ∈ fit, ¬ Refused vol run :=
      fun run listed refused => refused_iff.mp ⟨run, listed, refused⟩ good
    exact decompress_mapsRange array restores encodable accepted room record vcns
      fun base => maxCluster_ge cluster word size (allocated base)

/-- The array of a part of a valid run list decodes to the vcns that were asked for, or to
those before the stop vcn, just when a partial first run has room in the buffer and no
hole with a pair in the buffer is stored by its code. The buffer lies in a record of the
master file table, which is no larger than a page. -/
theorem mapping_pairs_round_trip_iff (valid : ValidRunlist start rl)
    (inside : InsideRunlist start rl firstVcn lastVcn) (some_byte : 1 ≤ dstLen) (record : dstLen ≤ 4096)
    (cluster : vol.clusterSize = 2 ^ vol.clusterSizeBits) (word : vol.clusterSize ≤ 2 ^ 32)
    (size : allocatedSize < 2 ^ 63)
    (allocated : firstVcn = 0 → wantedEnd start rl lastVcn * vol.clusterSize ≤ allocatedSize) :
    RoundTrips vol mem attr mappingPairsOffset dstLen allocatedSize rl firstVcn
        (wantedEnd start rl lastVcn) lastVcn ↔
      (BeginsRun firstVcn rl ∨ fittingRuns vol (dstLen - 1) 0 (wantedRuns firstVcn lastVcn rl) ≠ []) ∧
        (3 ≤ vol.majorVer ∨
          ∀ run ∈ fittingRuns vol (dstLen - 1) 0 (wantedRuns firstVcn lastVcn rl), run.lcn ≠ lcnHole) := by
  have some_vcn := inside.some_vcn
  have upper := inside.upper
  obtain ⟨restores, encodable, ends⟩ := wantedRuns_restores valid inside
  have wanted : lastVcn = -1 ∨ (firstVcn : Int) ≤ lastVcn := by
    have last := inside.last
    rw [wantedEnd] at some_vcn
    split at some_vcn <;> omega
  obtain ⟨mem', outcome, built, builds⟩ := @ntfsMappingPairsBuild_builds vol mem
    (attr + mappingPairsOffset) dstLen start firstVcn lastVcn rl valid inside.lower (by omega) wanted some_byte
  have part := @fittingRuns_isBeginning vol (dstLen - 1) 0 (wantedRuns firstVcn lastVcn rl)
  have bytes := @arraySize_fittingRuns vol (dstLen - 1) 0 (wantedRuns firstVcn lastVcn rl)
  generalize fittingRuns vol (dstLen - 1) 0 (wantedRuns firstVcn lastVcn rl) = fit at builds part bytes ⊢
  have shorter : rlClusters fit ≤ rlClusters (wantedRuns firstVcn lastVcn rl) :=
    (part.sublist.map _).sum_le_sum (fun _ _ => Nat.zero_le _)
  have vcns : firstVcn < 2 ^ 63 := by
    have follow := (restores _ List.prefix_rfl).follow
    cases runs : wantedRuns firstVcn lastVcn rl with
    | nil =>
      rw [runs] at ends
      simp [rlClusters] at ends
      omega
    | cons run rest =>
      rw [runs] at follow encodable
      have bound := (encodable run (by simp)).vcns
      have place := follow.1
      omega
  have decodes := decodes_iff builds.array (restores fit part)
    (fun run listed => encodable run (part.subset listed)) (by omega) record vcns cluster word size
    (fun base => le_trans (Nat.mul_le_mul_right _ (by omega)) (allocated base))
  rw [RoundTrips, built]
  by_cases whole : fit = wantedRuns firstVcn lastVcn rl
  · obtain ⟨stopVcn, stopRl, count, rfl⟩ := builds.success whole
    have some_run : fit ≠ [] := by
      rintro rfl
      rw [← whole] at ends
      simp [rlClusters] at ends
      omega
    rw [← ends, ← whole]
    dsimp only
    rw [decodes]
    exact ⟨fun good => ⟨.inr some_run, good⟩, fun both => both.2⟩
  · by_cases started : BeginsRun firstVcn rl ∨ fit ≠ []
    · obtain ⟨stopRl, rfl⟩ := builds.enospc whole started
      simp only [decodes]
      exact ⟨fun both => ⟨started, both.2⟩, fun both => ⟨Nat.le_add_right _ _, both.2⟩⟩
    · obtain ⟨inner, nothing⟩ := not_or.mp started
      rw [not_not] at nothing
      obtain ⟨stopVcn, stopRl, before, rfl⟩ := builds.before inner nothing
      constructor
      · rintro ⟨behind, _⟩
        omega
      · rintro ⟨atStart | some_run, _⟩
        · exact absurd atStart inner
        · exact absurd nothing some_run

end RoundTrip

/-- Eight clusters, a hole of four and four clusters more. -/
def sparseRuns : List RunlistElement :=
  [⟨0, 100000, 8⟩, ⟨8, lcnHole, 4⟩, ⟨12, 100016, 4⟩, ⟨16, lcnEnoent, 0⟩]

theorem sparseRuns_valid : ValidRunlist 0 sparseRuns where
  contiguous := by
    refine .run rfl (by decide) (.run rfl (by decide) (.run rfl (by decide) (.terminator rfl rfl ?_)))
    decide
  encodable element listed some_cluster := by
    simp only [sparseRuns, List.mem_cons, List.not_mem_nil, or_false] at listed
    rcases listed with rfl | rfl | rfl | rfl
    · exact ⟨.inr (by decide), by decide, by decide⟩
    · exact ⟨.inl rfl, by decide, by decide⟩
    · exact ⟨.inr (by decide), by decide, by decide⟩
    · exact absurd rfl some_cluster

/-- From the hole to the second cluster behind it. -/
theorem mapping_pairs_round_trip_sparse :
    InsideRunlist 0 sparseRuns 8 13 ∧
      RoundTrips ⟨3, 4096, 12⟩ zeros 0 64 16 65536 sparseRuns 8 (wantedEnd 0 sparseRuns 13) 13 := by
  have inside : InsideRunlist 0 sparseRuns 8 13 := ⟨by decide, by decide, by decide, by decide⟩
  refine ⟨inside, (mapping_pairs_round_trip_iff sparseRuns_valid inside (by decide) (by decide)
    (by decide) (by decide) (by decide) (by decide)).mpr ⟨.inl ?_, .inl (by decide)⟩⟩
  exact ⟨⟨8, lcnHole, 4⟩, rfl, rfl⟩

/-- The pair of a partial first run does not fit into five bytes with its terminator, and
the encoding stops at the beginning of the run. -/
theorem partial_run_stops_before :
    ValidRunlist 0 sparseRuns ∧ InsideRunlist 0 sparseRuns 4 13 ∧
      ¬ RoundTrips ⟨3, 4096, 12⟩ zeros 0 64 5 65536 sparseRuns 4 (wantedEnd 0 sparseRuns 13) 13 := by
  refine ⟨sparseRuns_valid, ⟨by decide, by decide, by decide, by decide⟩, ?_⟩
  have stopped : (ntfsMappingPairsBuild ⟨3, 4096, 12⟩ zeros (0 + 64) 5 sparseRuns (4 : Nat) 13).2 =
      .enospc 0 sparseRuns := by
    decide +kernel
  rw [RoundTrips]
  generalize ntfsMappingPairsBuild ⟨3, 4096, 12⟩ zeros (0 + 64) 5 sparseRuns (4 : Nat) 13 = built at stopped
  obtain ⟨mem', outcome⟩ := built
  obtain rfl : outcome = .enospc 0 sparseRuns := stopped
  rintro ⟨behind, _⟩
  omega

end Ttntfs.Ntfs
