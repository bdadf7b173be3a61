import Ttntfs.Ntfs.PunchedRuns

/-!
# Merging run lists

`ntfs_runlists_merge` puts the runs of one list into a hole, or an unmapped region, of
another. Where the runs meet the element before or behind them and go on from it, they
become one with it.
-/

namespace Ttntfs.Ntfs

/-- `ntfs_rl_realloc`: an array of another size, with what fits into it of the old one. -/
def ntfsRlRealloc (someMemory : Bool) (rl : List RunlistElement) (newSize : Nat) : Option (List RunlistElement) :=
  if rl.length = newSize then some rl
  else if someMemory then some (rl.take newSize ++ List.replicate (newSize - rl.length) emptyElement)
  else none

/-- `ntfs_are_rl_mergeable` -/
def ntfsAreRlMergeable (dst src : RunlistElement) : Bool :=
  if dst.lcn = lcnRlNotMapped ∧ src.lcn = lcnRlNotMapped then true
  else if dst.vcn + dst.length ≠ src.vcn then false
  else if 0 ≤ dst.lcn ∧ 0 ≤ src.lcn ∧ dst.lcn + dst.length = src.lcn then true
  else if dst.lcn = lcnHole ∧ src.lcn = lcnHole then true
  else dst.lcn = lcnDelalloc && src.lcn = lcnDelalloc

/-- `__ntfs_rl_merge` -/
def ntfsRlMerge (rl : List RunlistElement) (i length : Nat) : List RunlistElement :=
  rl.modify i fun element => { element with length := element.length + length }

/-- The vcn behind an element. -/
def RunlistElement.endVcn (element : RunlistElement) : Nat := element.vcn + element.length

/-- `ntfs_rl_append` -/
def ntfsRlAppend (someMemory : Bool) (dst src : List RunlistElement) (ssize loc : Nat) :
    Option (List RunlistElement × Nat) :=
  let dsize := dst.length
  let right := loc + 1 < dsize && ntfsAreRlMergeable (elementAt src (ssize - 1)) (elementAt dst (loc + 1))
  let newSize := dsize + ssize - right.toNat
  (ntfsRlRealloc someMemory dst newSize).map fun dst =>
    let src := if right then ntfsRlMerge src (ssize - 1) (elementAt dst (loc + 1)).length else src
    let marker := loc + ssize + 1
    let dst := ntfsRlMm dst marker (loc + 1 + right.toNat) (dsize - (loc + 1 + right.toNat))
    let dst := ntfsRlMc dst (loc + 1) (src.take ssize)
    let next := (elementAt dst (loc + 1)).vcn
    let dst := dst.modify loc fun element => { element with length := next - element.vcn }
    let behind := (elementAt dst (marker - 1)).endVcn
    (if (elementAt dst marker).lcn = lcnEnoent then dst.modify marker fun element => { element with vcn := behind }
      else dst, newSize)

/-- `ntfs_rl_insert` -/
def ntfsRlInsert (someMemory : Bool) (dst src : List RunlistElement) (ssize loc : Nat) :
    Option (List RunlistElement × Nat) :=
  let dsize := dst.length
  let before := elementAt dst (loc - 1)
  let first := elementAt src 0
  let left := 0 < loc && ntfsAreRlMergeable before first
  let disc := if loc = 0 then decide (0 < first.vcn)
    else decide (before.vcn + (before.length + if left then first.length else 0) < first.vcn)
  let newSize := dsize + ssize - left.toNat + disc.toNat
  (ntfsRlRealloc someMemory dst newSize).map fun dst =>
    let dst := if left then ntfsRlMerge dst (loc - 1) first.length else dst
    let marker := loc + ssize - left.toNat + disc.toNat
    let dst := ntfsRlMm dst marker loc (dsize - loc)
    let dst := ntfsRlMc dst (loc + disc.toNat) ((src.take ssize).drop left.toNat)
    let behind := (elementAt dst (marker - 1)).endVcn
    let dst := dst.modify marker fun element => { element with vcn := behind }
    let lcn := (elementAt dst marker).lcn
    let next := (elementAt dst (marker + 1)).vcn
    let dst := if lcn = lcnHole ∨ lcn = lcnRlNotMapped ∨ lcn = lcnDelalloc then
      dst.modify marker fun element => { element with length := next - element.vcn } else dst
    let gap := if loc = 0 then 0 else (elementAt dst (loc - 1)).endVcn
    let stop := (elementAt dst (loc + 1)).vcn
    (if disc then dst.modify loc fun _ => ⟨gap, lcnRlNotMapped, stop - gap⟩ else dst, newSize)

/-- `ntfs_rl_replace` -/
def ntfsRlReplace (someMemory : Bool) (dst src : List RunlistElement) (ssize loc : Nat) :
    Option (List RunlistElement × Nat) :=
  let dsize := dst.length
  let right := loc + 1 < dsize && ntfsAreRlMergeable (elementAt src (ssize - 1)) (elementAt dst (loc + 1))
  let left := 0 < loc && ntfsAreRlMergeable (elementAt dst (loc - 1)) (elementAt src 0)
  let newSize := dsize + ssize - 1 - left.toNat - right.toNat
  (if dsize < newSize then ntfsRlRealloc someMemory dst newSize else some dst).map fun dst =>
    let src := if right then ntfsRlMerge src (ssize - 1) (elementAt dst (loc + 1)).length else src
    let dst := if left then ntfsRlMerge dst (loc - 1) (elementAt src 0).length else dst
    let tail := loc + right.toNat + 1
    let marker := loc + ssize - left.toNat
    let dst := ntfsRlMm dst marker tail (dsize - tail)
    let dst := ntfsRlMc dst loc ((src.take ssize).drop left.toNat)
    let behind := (elementAt dst (marker - 1)).endVcn
    (if tail < dsize ∧ (elementAt dst marker).lcn = lcnEnoent then
      dst.modify marker fun element => { element with vcn := behind } else dst, newSize)

/-- `ntfs_rl_split` -/
def ntfsRlSplit (someMemory : Bool) (dst src : List RunlistElement) (ssize loc : Nat) :
    Option (List RunlistElement × Nat) :=
  let dsize := dst.length
  let newSize := dsize + ssize + 1
  (ntfsRlRealloc someMemory dst newSize).map fun dst =>
    let dst := ntfsRlMm dst (loc + 1 + ssize) loc (dsize - loc)
    let dst := ntfsRlMc dst (loc + 1) (src.take ssize)
    let first := (elementAt dst (loc + 1)).vcn
    let dst := dst.modify loc fun element => { element with length := first - element.vcn }
    let behind := (elementAt dst (loc + ssize)).endVcn
    let next := (elementAt dst (loc + ssize + 2)).vcn
    (dst.modify (loc + ssize + 1) fun element => { element with vcn := behind, length := next - behind }, newSize)

/-- The binary search of `__ntfs_attr_find_vcn_nolock`. -/
def findVcnBetween (rl : List RunlistElement) (vcn lowerIdx upperIdx : Nat) : Option Nat :=
  if lowerIdx ≤ upperIdx then
    let idx := (lowerIdx + upperIdx) / 2
    let run := elementAt rl idx
    if vcn < run.vcn then
      if lowerIdx < idx then findVcnBetween rl vcn lowerIdx (idx - 1) else none
    else if run.endVcn ≤ vcn then findVcnBetween rl vcn (idx + 1) upperIdx
    else some idx
  else none
termination_by upperIdx + 1 - lowerIdx

/-- `__ntfs_attr_find_vcn_nolock` behind the element that it looks at first. -/
def findVcnBehind (rl : List RunlistElement) (vcn lowerIdx : Nat) : Option Nat :=
  let run := elementAt rl (rl.length - 2)
  if run.vcn ≤ vcn ∧ vcn < run.endVcn then some (rl.length - 2)
  else if run.endVcn ≤ vcn then none
  else findVcnBetween rl vcn lowerIdx (rl.length - 2)

/-- `__ntfs_attr_find_vcn_nolock`: the index of the element, none for `-ENOENT`. -/
def ntfsAttrFindVcn (rl : List RunlistElement) (rlHint vcn : Nat) : Option Nat :=
  if rl.length ≤ 1 then none
  else if rlHint < rl.length - 1 ∧ (elementAt rl rlHint).vcn ≤ vcn then
    if vcn < (elementAt rl rlHint).endVcn then some rlHint
    else if rl.length - 2 = rlHint then none
    else findVcnBehind rl vcn (rlHint + 1)
  else if vcn < (elementAt rl 0).vcn then none
  else if vcn < (elementAt rl 0).endVcn then some 0
  else findVcnBehind rl vcn 1

/-- What `ntfs_runlists_merge` returns. -/
inductive MergeOutcome where
  | merged (rl : List RunlistElement) (newRlCount : Nat)
  | einval
  | erange
  | enomem
  deriving DecidableEq

/-- The terminator of the source is put behind the merged list. -/
def mergeMarker (drl : List RunlistElement) (newRlCount dend markerVcn : Nat) : MergeOutcome :=
  let ds := dend + (drl.drop dend).findIdx fun element => element.length = 0
  let last := elementAt drl ds
  if markerVcn < last.vcn then .merged drl newRlCount
  else if last.vcn = markerVcn then .merged (drl.modify ds fun element => { element with lcn := lcnEnoent }) newRlCount
  else
    let terminator : RunlistElement := ⟨markerVcn, lcnEnoent, 0⟩
    if last.lcn = lcnEnoent then
      let before := elementAt drl (ds - 1)
      if before.lcn = lcnRlNotMapped then
        .merged ((drl.take (ds - 1)) ++ [{ before with length := markerVcn - before.vcn }, terminator]) newRlCount
      else
        .merged (drl.take ds ++ [⟨last.vcn, lcnRlNotMapped, markerVcn - last.vcn⟩, terminator]) (newRlCount + 1)
    else if last.lcn = lcnRlNotMapped then
      .merged (drl.take ds ++ [{ last with length := markerVcn - last.vcn }, terminator]) (newRlCount + 1)
    else
      -- The element at which the old list ends is not copied into the new array.
      .merged (drl.take ds ++ [emptyElement, ⟨0, lcnRlNotMapped, markerVcn⟩, terminator]) (newRlCount + 2)

/-- `ntfs_runlists_merge`, where memory for the array may be short. A list that is not there yet is
empty. -/
def ntfsRunlistsMerge (someMemory : Bool) (drl srl : List RunlistElement) (rlHint sRlCount : Nat) : MergeOutcome :=
  let sRlCount := if sRlCount = 0 then (srl.findIdx fun element => element.length = 0) + 1 else sRlCount
  if drl.isEmpty then
    if (elementAt srl 0).vcn ≠ 0 then
      match ntfsRlRealloc someMemory (srl.take sRlCount) (sRlCount + 1) with
      | none => .enomem
      | some _ => .merged (⟨0, lcnRlNotMapped, (elementAt srl 0).vcn⟩ :: srl.take sRlCount) (sRlCount + 1)
    else .merged srl sRlCount
  else if sRlCount < 2 then .einval
  else
    let sstart := srl.findIdx fun element => element.length = 0 ∨ lcnHole ≤ element.lcn
    let first := elementAt srl sstart
    let dend := drl.length - 1
    let dins := (ntfsAttrFindVcn drl rlHint first.vcn).getD dend
    let hole := elementAt drl dins
    if hole.vcn = first.vcn ∧ 0 ≤ hole.lcn ∧ 0 ≤ first.lcn then .erange
    else
      let send := sRlCount - 1
      let marker := (elementAt srl send).lcn = lcnEnoent ∧ send ≠ 0
      let mapped := sRlCount - (srl.take sRlCount).reverse.findIdx fun element => lcnHole ≤ element.lcn
      let last := elementAt srl (send - 1)
      let start := hole.lcn < lcnRlNotMapped ∨ hole.vcn = first.vcn
      let finish := lcnRlNotMapped ≤ hole.lcn ∧ hole.endVcn ≤ last.endVcn
      let ss := mapped - sstart + if finish ∧ hole.length = 0 then 1 else 0
      let finish := finish ∧ ¬ (marker ∧ last.vcn < hole.endVcn)
      let src := srl.drop sstart
      let merged :=
        if start then
          if finish then ntfsRlReplace someMemory drl src ss dins else ntfsRlInsert someMemory drl src ss dins
        else if finish then ntfsRlAppend someMemory drl src ss dins
        else ntfsRlSplit someMemory drl src ss dins
      match merged with
      | none => .enomem
      | some (rl, newRlCount) =>
        if marker then mergeMarker rl newRlCount dend (elementAt srl send).vcn else .merged rl newRlCount

end Ttntfs.Ntfs
