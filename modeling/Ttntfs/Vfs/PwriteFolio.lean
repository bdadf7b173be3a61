import Ttntfs.Vfs.AttrPwrite

/-!
# The pages of a write to an attribute

What a page of a write leaves is told by the bytes of the page and by what the device has
at its place. The synchronous path stores what stands in the page from an offset on at the
clusters of the beginning of the page, except where its device writes fail. A write whose
pages all begin at their beginning, and end with a cluster, puts every byte at its place if
the device takes it.
-/

namespace Ttntfs.Vfs

open Ttntfs.Ntfs
open CachedFile

/-- What the device had where its writes fail is still there. -/
def CachedFile.sparing (g f : CachedFile) (lost : Nat → Bool) : CachedFile :=
  { g with device := fun a => if lost a then f.device a else g.device a }

/-- A byte that is stored in a cluster where the device takes it. -/
def CachedFile.takes (f : CachedFile) (lost : Nat → Bool) (b : Nat) : Bool := (f.address b).any fun a => !lost a

section Stores

variable {f g : CachedFile} {pos count vcn n lcnCount off length index b : Nat} {lcn : Int} {value : Nat → UInt8}
  {lost : Nat → Bool}

theorem storeBytes_append (m : Nat) : (f.storeBytes pos n value).storeBytes (pos + n) m (fun i => value (n + i)) =
    f.storeBytes pos (n + m) value := by
  simp only [CachedFile.storeBytes, List.range_add, List.foldl_append, List.foldl_map, ← Nat.add_assoc]
  rfl

theorem storeBytes_hole (hole : ∀ i < count, f.address (pos + i) = none) : f.storeBytes pos count value = f := by
  induction count with
  | zero => rfl
  | succ count ih =>
    have before := ih fun i inside => hole i (by omega)
    have last := hole count (by omega)
    simp only [CachedFile.storeBytes, List.range_succ, List.foldl_append, List.foldl_cons, List.foldl_nil, last] at before ⊢
    exact before

/-- A store within a run. -/
theorem storeBytes_run {first : Nat} (run : ∀ i < count, f.address (pos + i) = some (first + i)) :
    f.storeBytes pos count value =
      { f with device := fun a => if first ≤ a ∧ a < first + count then value (a - first) else f.device a } := by
  induction count with
  | zero =>
    have nothing (a : Nat) : ¬ (first ≤ a ∧ a < first + 0) := by omega
    simp only [if_neg (nothing _)]
    rfl
  | succ count ih =>
    have before := ih fun i inside => run i (by omega)
    have last := run count (by omega)
    simp only [CachedFile.storeBytes, List.range_succ, List.foldl_append, List.foldl_cons, List.foldl_nil, last] at before ⊢
    rw [(CachedFile.mk.injEq ..).mp before |>.2.2.2.2.1]
    congr 1
    funext a
    by_cases here : a = first + count
    · subst here
      rw [Function.update_self, if_pos (by omega), Nat.add_sub_cancel_left]
    · rw [Function.update_of_ne here]
      by_cases inside : first ≤ a ∧ a < first + count
      · rw [if_pos inside, if_pos (by omega)]
      · rw [if_neg inside, if_neg (by omega)]

theorem storeBytes_elsewhere {a : Nat} (elsewhere : ∀ b, f.address b ≠ some a) :
    (f.storeBytes pos count value).device a = f.device a := by
  induction count with
  | zero => rfl
  | succ count ih =>
    simp only [CachedFile.storeBytes, List.range_succ, List.foldl_append, List.foldl_cons, List.foldl_nil] at ih ⊢
    cases last : f.address (pos + count) with
    | none => exact ih
    | some place =>
      have apart : a ≠ place := fun same => elsewhere (pos + count) (same ▸ last)
      dsimp only
      rw [Function.update_of_ne apart]
      exact ih

theorem sparing_layout : SameLayout g (g.sparing f lost) := ⟨rfl, rfl, rfl, rfl⟩

/-- A store writes the same to devices that have the same run list. -/
theorem storeBytes_congr {a : Nat} (same : g.address = f.address) (before : g.device a = f.device a) :
    (g.storeBytes pos count value).device a = (f.storeBytes pos count value).device a := by
  induction count with
  | zero => exact before
  | succ count ih =>
    simp only [CachedFile.storeBytes, List.range_succ, List.foldl_append, List.foldl_cons, List.foldl_nil] at ih ⊢
    rw [same] at ih ⊢
    cases f.address (pos + count) with
    | none => exact ih
    | some place =>
      dsimp only
      by_cases here : a = place
      · rw [here, Function.update_self, Function.update_self]
      · rw [Function.update_of_ne here, Function.update_of_ne here]
        exact ih

/-- Failing writes one after another keep what the device had at first. -/
theorem sparing_storeBytes : ((g.sparing f lost).storeBytes pos n value).sparing (g.sparing f lost) lost =
    (g.storeBytes pos n value).sparing f lost := by
  refine congrArg (fun device => { g with device }) (funext fun a => ?_)
  by_cases spared : lost a = true
  · rw [if_pos spared, if_pos spared]
    exact if_pos spared
  · rw [if_neg spared, if_neg spared]
    exact storeBytes_congr rfl (if_neg spared)

theorem sparing_diskByte (same : SameLayout f g) :
    (g.sparing f lost).diskByte b = if b < f.limit ∧ f.takes lost b = true then g.diskByte b else f.diskByte b := by
  rw [diskByte, diskByte, diskByte, CachedFile.takes, sparing_layout.limit, sparing_layout.address, same.limit, same.address]
  by_cases inside : b < f.limit
  · rw [if_pos inside, if_pos inside, if_pos inside]
    cases f.address b with
    | none => exact (ite_self _).symm
    | some a =>
      change (if lost a = true then f.device a else g.device a) =
        if _ ∧ (!lost a) = true then g.device a else f.device a
      by_cases spared : lost a = true
      · rw [if_pos spared, if_neg (by simp [spared])]
      · rw [if_neg spared, if_pos ⟨inside, by simp [spared]⟩]
  · rw [if_neg inside, if_neg inside, if_neg inside, ite_self]

/-- The bytes of clusters that are in one run, or in one hole. -/
theorem address_run (run : ∀ j < n, ntfsRlVcnToLcn f.rl (vcn + j) = if 0 ≤ lcn then lcn + j else lcn)
    (inside : b < n * f.clusterLength) :
    f.address (vcn * f.clusterLength + b) = if 0 ≤ lcn then some (lcn.toNat * f.clusterLength + b) else none := by
  have size := f.clusterLength_pos
  have cluster : (vcn * f.clusterLength + b) / f.clusterLength = vcn + b / f.clusterLength := by
    rw [Nat.add_comm, Nat.add_mul_div_right _ _ size, Nat.add_comm]
  have within : (vcn * f.clusterLength + b) % f.clusterLength = b % f.clusterLength := by
    rw [Nat.add_comm, Nat.add_mul_mod_self_right]
  have parts := Nat.div_add_mod' b f.clusterLength
  rw [address, cluster, within, run _ ((Nat.div_lt_iff_lt_mul size).mpr inside)]
  generalize b / f.clusterLength = distance at parts
  by_cases real : 0 ≤ lcn
  · have total : (lcn + (distance : Int)).toNat = lcn.toNat + distance := by omega
    rw [if_pos real, if_pos real, if_pos (by omega), total, Nat.add_mul, Nat.add_assoc, parts]
  · rw [if_neg real, if_neg real, if_neg real]

theorem storeAt_eq (run : ∀ j < n, ntfsRlVcnToLcn f.rl (vcn + j) = if 0 ≤ lcn then lcn + j else lcn)
    (inside : off + length ≤ n * f.clusterLength) :
    storeAt f lost lcn off length value = (f.storeBytes (vcn * f.clusterLength + off) length value).sparing f lost := by
  have place (i : Nat) (within : i < length) : f.address (vcn * f.clusterLength + off + i) =
      if 0 ≤ lcn then some (lcn.toNat * f.clusterLength + off + i) else none := by
    rw [Nat.add_assoc, address_run run (by omega), Nat.add_assoc]
  rw [storeAt]
  by_cases real : 0 ≤ lcn
  · simp only [if_pos real] at place ⊢
    rw [storeBytes_run place]
    refine congrArg (fun device => { f with device }) (funext fun a => ?_)
    cases lost a <;> simp
  · simp only [if_neg real] at place ⊢
    rw [storeBytes_hole place]
    exact congrArg (fun device => { f with device }) (funext fun a => (ite_self _).symm)

/-- The clusters from a vcn on that are in the element it is sought to. -/
theorem seek_run (follow : RlFrom 0 f.rl) (inside : vcn < rlClusters f.rl) :
    ∃ rest, 0 < rest ∧ rest = (elementAt (rlSeek vcn f.rl) 0).length - (vcn - (elementAt (rlSeek vcn f.rl) 0).vcn) ∧
      ∀ j < rest, ntfsRlVcnToLcn f.rl (vcn + j) =
        if 0 ≤ ntfsRlVcnToLcn (rlSeek vcn f.rl) vcn then ntfsRlVcnToLcn (rlSeek vcn f.rl) vcn + j
        else ntfsRlVcnToLcn (rlSeek vcn f.rl) vcn := by
  obtain ⟨element, others, sought, valid, lower, upper, _, _, same⟩ := follow.seek_inside (Nat.zero_le vcn) (by omega)
  have head : elementAt (element :: others) 0 = element := rfl
  rw [sought, head]
  refine ⟨_, by omega, rfl, fun j within => ?_⟩
  rw [← same (vcn + j) (by omega)]
  by_cases real : 0 ≤ ntfsRlVcnToLcn (element :: others) vcn
  · rw [if_pos real]
    exact valid.within lower (by omega) real
  · rw [if_neg real]
    rw [valid.lookup (by omega) lower, if_pos (by omega)] at real ⊢
    rw [valid.lookup (by omega) (by omega), if_pos (by omega)]
    by_cases mapped : element.lcn ≥ 0
    · rw [if_pos mapped] at real
      omega
    · rw [if_neg mapped, if_neg mapped]

/-- The synchronous path where clusters are no longer than a page: what stands in the page from the
offset on goes to the clusters of the beginning of the page. -/
theorem syncRuns_small {bytes : Nat → UInt8} {offset : Nat} (follow : RlFrom 0 f.rl) (small : f.clusterLength ≤ pageLength)
    (some_vcn : 0 < lcnCount) (inside : vcn + lcnCount ≤ rlClusters f.rl) (fits : lcnCount * f.clusterLength ≤ pageLength) :
    syncRuns f lost bytes index vcn lcnCount offset =
      if pageLength < offset + lcnCount * f.clusterLength then .error (.failed codeIo)
      else .ok ((f.storeBytes (vcn * f.clusterLength) (lcnCount * f.clusterLength)
        fun i => bytes (offset + i)).sparing f lost) := by
  induction lcnCount using Nat.strong_induction_on generalizing f vcn offset with
  | _ lcnCount ih =>
    obtain ⟨rest, some_rest, value, run⟩ := @seek_run f vcn follow (by omega)
    rw [syncRuns]
    dsimp only
    rw [← value, if_neg (show ¬ pageLength < f.clusterLength by omega)]
    have whole : min rest lcnCount * f.clusterLength ≤ lcnCount * f.clusterLength :=
      Nat.mul_le_mul_right _ (min_le_right _ _)
    rw [Nat.min_eq_left (whole.trans fits)]
    have stored := @storeAt_eq f vcn (min rest lcnCount) 0 (min rest lcnCount * f.clusterLength) _
      (fun i => bytes (offset + i)) lost (fun j within => run j (by omega)) (by omega)
    rw [Nat.add_zero] at stored
    by_cases last : rest < lcnCount
    · have piece : min rest lcnCount = rest := by omega
      have parts : rest * f.clusterLength + (lcnCount - rest) * f.clusterLength = lcnCount * f.clusterLength := by
        rw [← Nat.add_mul]
        congr 1
        omega
      rw [piece] at stored ⊢
      rw [if_pos last, if_pos some_rest, stored]
      have next := @ih (lcnCount - rest) (by omega) ((f.storeBytes (vcn * f.clusterLength)
        (rest * f.clusterLength) fun i => bytes (offset + i)).sparing f lost) (vcn + rest)
        (offset + rest * f.clusterLength) follow small (by omega) (by
          change vcn + rest + (lcnCount - rest) ≤ rlClusters f.rl
          omega) (by
          change (lcnCount - rest) * f.clusterLength ≤ pageLength
          omega)
      by_cases early : pageLength < offset + rest * f.clusterLength
      · rw [if_pos early, if_pos (by omega)]
      rw [if_neg early, next]
      change (if pageLength < offset + rest * f.clusterLength + (lcnCount - rest) * f.clusterLength then _ else _) = _
      rw [Nat.add_assoc, parts]
      refine if_congr Iff.rfl rfl (congrArg Except.ok ?_)
      rw [sparing_storeBytes]
      have joined := @storeBytes_append f (vcn * f.clusterLength) (rest * f.clusterLength)
        (fun i => bytes (offset + i)) ((lcnCount - rest) * f.clusterLength)
      rw [parts] at joined
      rw [← joined, Nat.add_mul]
      simp only [Nat.add_assoc]
      rfl
    · have piece : min rest lcnCount = lcnCount := by omega
      rw [piece] at stored ⊢
      rw [if_neg last, stored]

theorem syncRuns_large {bytes : Nat → UInt8} {offset : Nat} (follow : RlFrom 0 f.rl) (large : pageLength < f.clusterLength)
    (inside : vcn < rlClusters f.rl) (within : index * pageLength % f.clusterLength + pageLength ≤ f.clusterLength) :
    syncRuns f lost bytes index vcn 1 offset =
      if pageLength < offset + pageLength then .error (.failed codeIo)
      else .ok ((f.storeBytes (vcn * f.clusterLength + index * pageLength % f.clusterLength) pageLength
        fun i => bytes (offset + i)).sparing f lost) := by
  obtain ⟨rest, some_rest, value, run⟩ := seek_run follow inside
  rw [syncRuns]
  dsimp only
  rw [← value, if_pos large, if_neg (show ¬ rest < 1 by omega)]
  have piece : min rest 1 = 1 := by omega
  rw [piece, Nat.one_mul, Nat.min_eq_right large.le]
  rw [storeAt_eq (n := 1) (fun j one => run j (by omega)) (by omega)]

end Stores

/-- How much of a page the synchronous path writes to the device. -/
def syncLength (f : CachedFile) (n : Nat) : Nat :=
  if pageLength < f.clusterLength then pageLength else max 1 (n / f.clusterLength) * f.clusterLength

section Folio

variable {f f' : CachedFile} {course : PwriteCourse} {pos count index b n : Nat} {buf : Nat → UInt8} {sync : Bool}

theorem syncLength_le (within : n ≤ pageLength) : syncLength f n ≤ pageLength := by
  rw [syncLength]
  split
  · exact Nat.le_refl _
  · rename_i small
    rcases Nat.le_total 1 (n / f.clusterLength) with some_cluster | none_cluster
    · rw [max_eq_right some_cluster]
      exact (Nat.div_mul_le_self _ _).trans within
    · rw [max_eq_left none_cluster]
      omega

theorem folioLength_page (pos count : Nat) : folioLength pos count ≤ pageLength := by
  rw [folioLength]
  split <;> omega

theorem pwritePage_dirty : (pwritePage f count index).dirty = (f.folioAt index).dirty := by
  rw [pwritePage, folioAt]
  split
  · cases f.cache index <;> rfl
  · rfl

theorem pwriteBytes_eq {o : Nat} (inside : o < pageLength) : pwriteBytes f pos count buf index o =
    if folioOffset pos count ≤ o ∧ o < folioOffset pos count + folioLength pos count then buf (o - folioOffset pos count)
    else (f.folioAt index).bytes o := by
  rw [pwriteBytes, pwritePage]
  by_cases whole : count = pageLength
  · rw [folioOffset, folioLength, if_pos whole, if_pos whole, if_pos (by omega), if_pos (by omega)]
  · rw [if_neg whole]

/-- A page of the synchronous path, where nothing fails but what does not fit into the page. -/
theorem pwriteFolio_sync (follow : RlFrom 0 f.rl) (some_byte : 0 < folioLength pos count)
    (covered : index * pageLength + folioLength pos count ≤ rlClusters f.rl * f.clusterLength)
    (read : course.folio index = none) (mapped : course.mapRunlist = none) :
    pwriteFolio f course pos count buf true index =
      if pageLength < folioOffset pos count + syncLength f (folioLength pos count) then .error (.failed codeIo)
      else .ok (((f.putPage index ⟨pwriteBytes f pos count buf index, (f.folioAt index).dirty⟩).storeBytes
        (index * pageLength) (syncLength f (folioLength pos count))
        fun i => pwriteBytes f pos count buf index (folioOffset pos count + i)).sparing f course.lost) := by
  have size := f.clusterLength_pos
  have within := folioLength_page pos count
  have length := @syncLength_le f _ within
  rw [pwriteFolio, read]
  dsimp only
  rw [if_pos rfl, mapped, pwritePage_dirty]
  dsimp only
  generalize hpage : (⟨pwriteBytes f pos count buf index, (f.folioAt index).dirty⟩ : CachedPage) = page
  have same : (f.putPage index page).clusterLength = f.clusterLength := putPage_layout.clusterLength
  have begins : index * pageLength / f.clusterLength < rlClusters f.rl := by
    rw [Nat.div_lt_iff_lt_mul size]
    omega
  rw [syncLength] at length ⊢
  by_cases large : pageLength < f.clusterLength
  · have none_cluster : folioLength pos count / f.clusterLength = 0 := Nat.div_eq_of_lt (by omega)
    obtain ⟨k, cluster⟩ := (cluster_or_page f).resolve_left fun divides =>
      absurd (Nat.le_of_dvd (by decide) divides) (by omega)
    have room : index * pageLength % f.clusterLength + pageLength ≤ f.clusterLength := by
      have places : index * pageLength % (k * pageLength) = index % k * pageLength := Nat.mul_mod_mul_right _ _ _
      have some_page : 0 < k := by
        by_contra nothing
        obtain rfl : k = 0 := by omega
        omega
      have last := Nat.mul_le_mul_right pageLength (Nat.succ_le_of_lt (Nat.mod_lt index some_page))
      rw [Nat.succ_mul] at last
      rw [cluster, Nat.mul_comm pageLength k, places]
      exact last
    have run := @syncRuns_large (f.putPage index page) (index * pageLength / f.clusterLength) index course.lost
      (pwriteBytes f pos count buf index) (folioOffset pos count) follow
      (by rw [same]; exact large) begins (by rw [same]; exact room)
    rw [none_cluster, if_pos large, max_eq_left (Nat.zero_le 1), run, same, Nat.div_add_mod']
    rfl
  · have aligned : index * pageLength / f.clusterLength * f.clusterLength = index * pageLength := by
      refine Nat.div_mul_cancel ?_
      rcases cluster_or_page f with divides | divides
      · exact divides.mul_left _
      · rw [Nat.le_antisymm (not_lt.mp large) (Nat.le_of_dvd size divides)]
        exact Dvd.intro_left _ rfl
    rw [if_neg large] at length
    have clusters : index * pageLength / f.clusterLength + max 1 (folioLength pos count / f.clusterLength) ≤
        rlClusters f.rl := by
      rcases Nat.le_total 1 (folioLength pos count / f.clusterLength) with some_cluster | none_cluster
      · rw [max_eq_right some_cluster, ← Nat.mul_le_mul_right_iff size, Nat.add_mul, aligned]
        have := Nat.div_mul_le_self (folioLength pos count) f.clusterLength
        omega
      · rw [max_eq_left none_cluster]
        exact begins
    have run := @syncRuns_small (f.putPage index page) (index * pageLength / f.clusterLength)
      (max 1 (folioLength pos count / f.clusterLength)) index course.lost (pwriteBytes f pos count buf index)
      (folioOffset pos count) follow (by rw [same]; omega) (by omega) clusters
      (by rw [same]; exact length)
    rw [if_neg large, run, same, aligned]
    rfl

/-- What a page of a write leaves. -/
structure FolioStored (f f' : CachedFile) (lost : Nat → Bool) (pos count : Nat) (buf : Nat → UInt8) (sync : Bool)
    (index : Nat) : Prop where
  layout : SameLayout f f'
  cache : ∀ other, other ≠ index → f'.cache other = f.cache other
  page : f'.cache index = some ⟨pwriteBytes f pos count buf index, if sync then (f.folioAt index).dirty else true⟩
  disk : ∀ b, f'.diskByte b =
    if sync = true ∧ index * pageLength ≤ b ∧ b < index * pageLength + syncLength f (folioLength pos count) ∧
        b < f.limit ∧ f.takes lost b = true then
      pwriteBytes f pos count buf index (folioOffset pos count + (b - index * pageLength))
    else f.diskByte b
  spared : ∀ a, lost a = true → f'.device a = f.device a
  elsewhere : ∀ a, (∀ b, f.address b ≠ some a) → f'.device a = f.device a
  fits : sync = true → folioOffset pos count + syncLength f (folioLength pos count) ≤ pageLength

/-- A page of a write that succeeds. -/
theorem pwriteFolio_stored (follow : RlFrom 0 f.rl) (once : MapsOnce f.rl) (some_byte : 0 < folioLength pos count)
    (covered : index * pageLength + folioLength pos count ≤ rlClusters f.rl * f.clusterLength)
    (ok : pwriteFolio f course pos count buf sync index = .ok f') :
    FolioStored f f' course.lost pos count buf sync index := by
  cases read : course.folio index with
  | some err =>
    rw [pwriteFolio, read] at ok
    cases ok
  | none =>
    cases sync with
    | false =>
      rw [pwriteFolio, read] at ok
      cases ok
      refine ⟨putPage_layout, fun other apart => ?_, ?_, fun b => ?_, fun _ _ => rfl, fun _ _ => rfl,
        fun impossible => by cases impossible⟩
      · exact Function.update_of_ne apart _ _
      · exact Function.update_self _ _ _
      · rw [if_neg fun both => by cases both.1]
        rfl
    | true =>
      cases mapped : course.mapRunlist with
      | some err =>
        rw [pwriteFolio, read] at ok
        dsimp only at ok
        rw [if_pos rfl, mapped] at ok
        cases ok
      | none =>
        rw [pwriteFolio_sync follow some_byte covered read mapped] at ok
        split at ok
        · cases ok
        rename_i fits
        cases ok
        have layout (page : CachedPage) (length : Nat) (value : Nat → UInt8) :
            SameLayout f ((f.putPage index page).storeBytes (index * pageLength) length value) :=
          putPage_layout.trans storeBytes_layout
        refine ⟨(layout ..).trans sparing_layout, fun other apart => ?_, ?_, fun b => ?_, fun a spared => if_pos spared,
          fun a unmapped => ?_, fun _ => by omega⟩
        · exact Function.update_of_ne apart _ _
        · exact Function.update_self _ _ _
        · rw [sparing_diskByte (layout ..), storeBytes_diskByte (f := f.putPage index _) once, putPage_layout.limit,
            putPage_layout.address]
          by_cases taken : b < f.limit ∧ f.takes course.lost b = true
          · have mapped : (f.address b).isSome = true := Option.isSome_of_any taken.2
            simp only [taken, mapped, true_and, and_true]
            rfl
          · rw [if_neg taken, if_neg fun all => taken all.2.2.2]
        · change (if course.lost a = true then f.device a else _) = f.device a
          split
          · rfl
          · exact storeBytes_elsewhere unmapped

end Folio

section Loop

variable {f g f' : CachedFile} {course : PwriteCourse} {pos count index b : Nat} {buf : Nat → UInt8} {sync : Bool}
  {lost : Nat → Bool}

theorem flushedByte_unstored (unstored : f.address b = none ∨ f.limit ≤ b) : f.flushedByte b = 0 := by
  have zero : f.diskByte b = 0 := diskByte_unstored unstored
  rw [flushedByte]
  cases f.cache (b / pageLength) with
  | none => exact zero
  | some page =>
    dsimp only
    rw [if_neg]
    · exact zero
    · rintro ⟨_, inside, mapped⟩
      rcases unstored with hole | behind
      · rw [hole] at mapped
        cases mapped
      · omega

/-- What is read from the device is what is there behind the writing of the pages, where the page is
not dirty. -/
theorem flushedByte_clean (clean : (f.folioAt (b / pageLength)).dirty = false) : f.flushedByte b = f.diskByte b := by
  rw [folioAt] at clean
  rw [flushedByte]
  cases cached : f.cache (b / pageLength) with
  | none => rfl
  | some page =>
    rw [cached] at clean
    dsimp only
    rw [if_neg]
    rintro ⟨dirty, _⟩
    rw [show page.dirty = false from clean] at dirty
    cases dirty

theorem FolioStored.other (stored : FolioStored f f' lost pos count buf sync index) (apart : b / pageLength ≠ index) :
    f'.diskByte b = f.diskByte b ∧ f'.visible b = f.visible b ∧ f'.flushedByte b = f.flushedByte b := by
  have disk : f'.diskByte b = f.diskByte b := by
    rw [stored.disk b, if_neg]
    rintro ⟨synced, lower, upper, _⟩
    have fits := stored.fits synced
    simp only [pageLength] at *
    omega
  refine ⟨disk, ?_, ?_⟩
  · rw [visible, visible, stored.cache _ apart, disk]
  · rw [flushedByte, flushedByte, stored.cache _ apart, disk, stored.layout.limit, stored.layout.address]

theorem FolioStored.seen (stored : FolioStored f f' lost pos count buf sync index) (here : b / pageLength = index) :
    f'.visible b = pwriteBytes f pos count buf index (b % pageLength) := by
  rw [visible, here, stored.page]

/-- What the device has of the page that is touched, once it is written. -/
theorem FolioStored.stored_page (stored : FolioStored f f' lost pos count buf sync index) (here : b / pageLength = index)
    (kept : b < f.limit ∧ (f.address b).isSome = true) :
    f'.flushedByte b =
      if sync = true ∧ (f.folioAt index).dirty = false then
        if b % pageLength < syncLength f (folioLength pos count) ∧ f.takes lost b = true then
          pwriteBytes f pos count buf index (folioOffset pos count + b % pageLength)
        else f.diskByte b
      else pwriteBytes f pos count buf index (b % pageLength) := by
  have place : b - index * pageLength = b % pageLength ∧ index * pageLength ≤ b := by
    simp only [pageLength] at here ⊢
    omega
  have order : b < index * pageLength + syncLength f (folioLength pos count) ↔
      b % pageLength < syncLength f (folioLength pos count) := by
    omega
  rw [flushedByte, here, stored.page]
  dsimp only
  rw [stored.layout.limit, stored.layout.address, stored.disk b]
  cases sync with
  | false => simp [kept.1, kept.2]
  | true =>
    cases dirty : (f.folioAt index).dirty with
    | true => simp [kept.1, kept.2]
    | false => simp only [kept.1, place.1, place.2, order, if_true, true_and, Bool.false_eq_true, if_false, false_and]

/-- A write that puts the bytes of each page at their place and has a cluster for each, and whose
device writes reach them. -/
structure Straight (f : CachedFile) (lost : Nat → Bool) (pos count : Nat) (sync : Bool) : Prop where
  aligned : count = pageLength → pos % pageLength = 0
  kept : ∀ b, pos ≤ b → b < pos + count → b < f.limit ∧ (f.address b).isSome = true
  synced : sync = true → pos % pageLength = 0 ∧
    (f.clusterLength < pageLength → count % f.clusterLength = 0 ∨ count % pageLength < f.clusterLength)
  taken : sync = true → ∀ b, pos ≤ b → b < pos + count → f.takes lost b = true

/-- What a write leaves that is straight: its bytes, and all others that were the same on the page
and on the device. -/
structure LoopStored (f f' : CachedFile) (pos count : Nat) (buf : Nat → UInt8) : Prop where
  layout : SameLayout f f'
  written : ∀ b, pos ≤ b → b < pos + count → f'.visible b = buf (b - pos) ∧ f'.flushedByte b = buf (b - pos)
  others : ∀ b, b < pos ∨ pos + count ≤ b → f.flushedByte b = f.visible b →
    f'.visible b = f.visible b ∧ f'.flushedByte b = f.visible b
  elsewhere : ∀ a, (∀ b, f.address b ≠ some a) → f'.device a = f.device a

theorem Straight.folio (straight : Straight f lost pos count sync) : folioOffset pos count = pos % pageLength ∧
    folioLength pos count = min count (pageLength - pos % pageLength) := by
  rw [folioOffset, folioLength]
  split
  · rename_i whole
    have := straight.aligned whole
    omega
  · exact ⟨rfl, rfl⟩

/-- The synchronous path writes all of a straight page. -/
theorem Straight.length (straight : Straight f lost pos count sync) (synced : sync = true) :
    folioLength pos count ≤ syncLength f (folioLength pos count) := by
  have page := folioLength_page pos count
  have size := f.clusterLength_pos
  obtain ⟨begins, tail⟩ := straight.synced synced
  rw [syncLength]
  split
  · exact page
  rcases Nat.lt_or_ge f.clusterLength pageLength with small | large
  · obtain ⟨k, divides⟩ := (cluster_or_page f).resolve_right fun divides =>
      absurd (Nat.le_of_dvd size divides) (by omega)
    have exactly : folioLength pos count % f.clusterLength = 0 ∨ folioLength pos count < f.clusterLength := by
      rw [straight.folio.2, begins, Nat.sub_zero]
      rcases Nat.le_total pageLength count with more | less
      · rw [Nat.min_eq_right more]
        exact .inl (Nat.mod_eq_zero_of_dvd (Dvd.intro k divides.symm))
      rw [Nat.min_eq_left less]
      rcases tail small with whole | part
      · exact .inl whole
      · rcases Nat.lt_or_ge count pageLength with below | equal
        · rw [Nat.mod_eq_of_lt below] at part
          exact .inr part
        · rw [Nat.le_antisymm less equal]
          exact .inl (Nat.mod_eq_zero_of_dvd (Dvd.intro k divides.symm))
    rcases exactly with whole | part
    · calc folioLength pos count = folioLength pos count / f.clusterLength * f.clusterLength :=
            (Nat.div_mul_cancel (Nat.dvd_of_mod_eq_zero whole)).symm
        _ ≤ _ := Nat.mul_le_mul_right _ (le_max_right _ _)
    · exact part.le.trans (Nat.le_mul_of_pos_left _ (by omega))
  · exact page.trans (large.trans (Nat.le_mul_of_pos_left _ (by omega)))

/-- A page of a straight write. -/
theorem FolioStored.straight (stored : FolioStored f f' lost pos count buf sync (pos / pageLength))
    (straight : Straight f lost pos count sync) : LoopStored f f' pos (folioLength pos count) buf := by
  have small : 0 < pageLength := by decide
  obtain ⟨offset, length⟩ := straight.folio
  have posPage := Nat.div_add_mod' pos pageLength
  have posBound := Nat.mod_lt pos small
  refine ⟨stored.layout, fun b lower upper => ?_, fun b outside same => ?_, stored.elsewhere⟩
  · have here : b / pageLength = pos / pageLength := by
      simp only [pageLength] at *
      omega
    have bytePage := Nat.div_add_mod' b pageLength
    rw [here] at bytePage
    have value : pwriteBytes f pos count buf (pos / pageLength) (b % pageLength) = buf (b - pos) := by
      rw [pwriteBytes_eq (Nat.mod_lt _ small), offset, if_pos (by omega)]
      congr 1
      omega
    refine ⟨(stored.seen here).trans value, ?_⟩
    rw [stored.stored_page here (straight.kept b lower (by omega))]
    split
    · rename_i clean
      have begins := (straight.synced clean.1).1
      have all := straight.length clean.1
      rw [if_pos ⟨by omega, straight.taken clean.1 b lower (by omega)⟩, offset, begins, Nat.zero_add]
      exact value
    · exact value
  · by_cases here : b / pageLength = pos / pageLength
    · have bytePage := Nat.div_add_mod' b pageLength
      rw [here] at bytePage
      have value : pwriteBytes f pos count buf (pos / pageLength) (b % pageLength) = f.visible b := by
        rw [pwriteBytes_eq (Nat.mod_lt _ small), offset, if_neg (by omega), ← here, folioAt_bytes]
      refine ⟨(stored.seen here).trans value, ?_⟩
      by_cases kept : b < f.limit ∧ (f.address b).isSome = true
      · rw [stored.stored_page here kept]
        split
        · rename_i clean
          have begins := (straight.synced clean.1).1
          split
          · rw [offset, begins, Nat.zero_add]
            exact value
          · rw [← same, flushedByte_clean]
            rw [here]
            exact clean.2
        · exact value
      · have unstored : f.address b = none ∨ f.limit ≤ b := by
          by_contra both
          rw [not_or, not_le] at both
          exact kept ⟨both.2, Option.isSome_iff_ne_none.mpr both.1⟩
        rw [← same, flushedByte_unstored unstored, flushedByte_unstored]
        rw [stored.layout.address, stored.layout.limit]
        exact unstored
    · obtain ⟨_, seen, disk⟩ := stored.other here
      exact ⟨seen, disk.trans same⟩

/-- A straight write. -/
theorem pwritePages_stored (follow : RlFrom 0 f.rl) (once : MapsOnce f.rl)
    (covered : pos + count ≤ rlClusters f.rl * f.clusterLength) (straight : Straight f course.lost pos count sync)
    (ok : pwritePages f course pos count buf sync (pos / pageLength) = .ok f') : LoopStored f f' pos count buf := by
  have small : 0 < pageLength := by decide
  induction count using Nat.strong_induction_on generalizing f pos buf with
  | _ count ih =>
    rw [pwritePages] at ok
    split at ok
    · rename_i some_byte
      split at ok
      · cases ok
      rename_i g first
      obtain ⟨offset, length⟩ := straight.folio
      have posPage := Nat.div_add_mod' pos pageLength
      have posBound := Nat.mod_lt pos small
      have step := (pwriteFolio_stored follow once (by omega) (by omega) first).straight straight
      by_cases last : count - folioLength pos count = 0
      · rw [last, pwritePages, if_neg (Nat.lt_irrefl 0)] at ok
        cases ok
        have all : folioLength pos count = count := by omega
        rw [all] at step
        exact step
      have next : (pos + folioLength pos count) / pageLength = pos / pageLength + 1 ∧
          (pos + folioLength pos count) % pageLength = 0 := by
        simp only [pageLength] at *
        omega
      have sameRl := step.layout.rl
      have sameUnit : g.clusterLength = f.clusterLength := step.layout.clusterLength
      rw [← next.1] at ok
      have straightRest : Straight g course.lost (pos + folioLength pos count) (count - folioLength pos count) sync := by
        refine ⟨fun _ => next.2, fun b lower upper => ?_, fun synced => ⟨next.2, fun smaller => ?_⟩,
          fun synced b lower upper => ?_⟩
        · rw [step.layout.limit, step.layout.address]
          exact straight.kept b (by omega) (by omega)
        · rw [sameUnit] at smaller ⊢
          obtain ⟨begins, tail⟩ := straight.synced synced
          have whole : folioLength pos count = pageLength := by omega
          obtain ⟨k, divides⟩ := (cluster_or_page f).resolve_right fun divides =>
            absurd (Nat.le_of_dvd f.clusterLength_pos divides) (by omega)
          rw [whole, ← Nat.mod_eq_sub_mod (by omega)]
          refine (tail smaller).imp_left fun exactly => ?_
          obtain ⟨m, clusters⟩ := Nat.dvd_of_mod_eq_zero exactly
          rw [clusters, divides, ← Nat.mul_sub, Nat.mul_mod_right]
        · rw [CachedFile.takes, step.layout.address]
          exact straight.taken synced b (by omega) (by omega)
      have rest := ih _ (by omega) (by rw [sameRl]; exact follow) (by rw [sameRl]; exact once)
        (by rw [sameRl, sameUnit]; omega) straightRest ok
      refine ⟨step.layout.trans rest.layout, fun b lower upper => ?_, fun b outside same => ?_, fun a unmapped => ?_⟩
      · by_cases here : b < pos + folioLength pos count
        · obtain ⟨seen, disk⟩ := step.written b lower here
          have kept := rest.others b (.inl here) (disk.trans seen.symm)
          exact ⟨kept.1.trans seen, kept.2.trans seen⟩
        · obtain ⟨seen, disk⟩ := rest.written b (by omega) (by omega)
          have place : b - (pos + folioLength pos count) + folioLength pos count = b - pos := by omega
          rw [place] at seen disk
          exact ⟨seen, disk⟩
      · obtain ⟨seen, disk⟩ := step.others b (by omega) same
        obtain ⟨seenRest, diskRest⟩ := rest.others b (by omega) (disk.trans seen.symm)
        exact ⟨seenRest.trans seen, diskRest.trans seen⟩
      · rw [rest.elsewhere a fun b => by rw [step.layout.address]; exact unmapped b]
        exact step.elsewhere a unmapped
    · obtain rfl := Except.ok.inj ok
      exact ⟨.refl f, fun b lower upper => by omega, fun b _ same => ⟨rfl, same⟩, fun _ _ => rfl⟩

end Loop

end Ttntfs.Vfs
