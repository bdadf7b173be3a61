import Ttntfs.Ntfs.MappingPairs
import Ttntfs.Ntfs.RunMaps

/-!
# Punching a hole into a run list

`ntfs_rl_punch_hole` makes two arrays of a run list: one in which a range of vcns is a
hole, and one with the runs the range was mapped to, which its caller frees. Both are
copied out of the old array and corrected where the range begins or ends within a run.
-/

namespace Ttntfs.Ntfs

open Ttntfs.Library.SignedBytes

/-- An element of an array that has been cleared. -/
def emptyElement : RunlistElement := ⟨0, 0, 0⟩

/-- An element of an array. -/
def elementAt (rl : List RunlistElement) (i : Nat) : RunlistElement := rl.getD i emptyElement

/-- `ntfs_rl_mc`: elements are copied into an array. -/
def ntfsRlMc (dstbase : List RunlistElement) (dst : Nat) (srcbase : List RunlistElement) :
    List RunlistElement :=
  dstbase.take dst ++ srcbase ++ dstbase.drop (dst + srcbase.length)

/-- `ntfs_rl_mm`: elements are moved within an array. -/
def ntfsRlMm (base : List RunlistElement) (dst src size : Nat) : List RunlistElement :=
  ntfsRlMc base dst ((base.drop src).take size)

/-- The loop of `ntfs_rl_find_vcn_nolock`, with the index of the element it has got to. -/
def findVcnFrom (vcn : Int) : List RunlistElement → Nat → Option Nat
  | [], _ => none
  | [last], i => if last.lcn = lcnEnoent then some i else none
  | element :: next :: rest, i =>
    if element.length = 0 then (if element.lcn = lcnEnoent then some i else none)
    else if vcn < next.vcn then (if element.lcn ≥ lcnHole then some i else none)
    else findVcnFrom vcn (next :: rest) (i + 1)

/-- `ntfs_rl_find_vcn_nolock`: the index of the element, none for `NULL`. -/
def ntfsRlFindVcnNolock (rl : List RunlistElement) (vcn : Int) : Option Nat :=
  match rl with
  | [] => none
  | first :: _ => if vcn < first.vcn then none else findVcnFrom vcn rl 0

/-- `ntfs_rle_contain` -/
def ntfsRleContain (rle : RunlistElement) (vcn : Int) : Bool :=
  0 < rle.length && rle.vcn ≤ vcn && vcn < rle.vcn + rle.length

/-- What `ntfs_rl_punch_hole` returns. Without an element to free it reads before the
beginning of the second array. -/
inductive PunchOutcome where
  | punched (newRl punchRl : List RunlistElement) (newRlCnt : Nat)
  | einval
  | enomem
  | overrun
  deriving DecidableEq

/-- The lcn of a run without its first clusters. -/
def lcnBeyond (element : RunlistElement) (firstCnt : Nat) : Int :=
  if element.lcn > lcnHole then element.lcn + firstCnt else element.lcn

/-- The number of elements that a hole which begins at an index absorbs, with the index of
the element that becomes the hole. -/
def holeMerge (newRl : List RunlistElement) (newFirstCnt newCnt : Nat) : Nat × Nat :=
  let rightHole := newFirstCnt + 1 < newCnt ∧ (elementAt newRl (newFirstCnt + 1)).lcn = lcnHole
  if 0 < newFirstCnt ∧ (elementAt newRl (newFirstCnt - 1)).lcn = lcnHole then
    (newFirstCnt - 1, if rightHole then 2 else 1)
  else if rightHole then (newFirstCnt, 1)
  else (0, 0)

/-- The elements that a hole absorbs are added to it and moved out of the array. -/
def mergeHoles (newRl : List RunlistElement) (newFirstCnt newCnt : Nat) : List RunlistElement :=
  let (place, mergeCnt) := holeMerge newRl newFirstCnt newCnt
  if mergeCnt = 0 then newRl
  else
    let absorbed := (elementAt newRl (place + 1)).length +
      if mergeCnt = 2 then (elementAt newRl (place + 2)).length else 0
    let merged := newRl.modify place fun element => { element with length := element.length + absorbed }
    let src := place + 1 + mergeCnt
    ntfsRlMm merged (place + 1) src (newCnt - src)

/-- Whether the range begins within a run, behind its first vcn. -/
def beginSplit (sRl : RunlistElement) (startVcn : Nat) : Bool := sRl.vcn ≠ startVcn

/-- Whether the range ends within a run, before its last vcn. -/
def endSplit (eRl : RunlistElement) (endVcn : Nat) : Bool := eRl.vcn + eRl.length - 1 ≠ endVcn

/-- The array with the hole, before holes that meet are merged: the elements before the
hole, the hole and the elements behind it. -/
def holedRl (dstRl : List RunlistElement) (s e startVcn len endVcn newFirstCnt newCnt : Nat) :
    List RunlistElement :=
  let sRl := elementAt dstRl s
  let eRl := elementAt dstRl e
  let third := if endSplit eRl endVcn then e else e + 1
  let newRl := ntfsRlMc (List.replicate newCnt emptyElement) 0 (dstRl.take newFirstCnt)
  let newRl := if beginSplit sRl startVcn then
    newRl.modify (newFirstCnt - 1) fun element => { element with length := startVcn - sRl.vcn } else newRl
  let newRl := ntfsRlMc newRl newFirstCnt [⟨startVcn, lcnHole, len⟩]
  let newRl := ntfsRlMc newRl (newFirstCnt + 1) (dstRl.drop third)
  let firstCnt := endVcn + 1 - eRl.vcn
  if endSplit eRl endVcn then
    newRl.modify (newFirstCnt + 1) fun element =>
      ⟨endVcn + 1, lcnBeyond element firstCnt, element.length - firstCnt⟩
  else newRl

/-- The array of the runs to be freed, where the run in which the range ends may leave
some clusters behind it. -/
def punchedRl (dstRl : List RunlistElement) (s e startVcn endVcn rightLength : Nat) : List RunlistElement :=
  let sRl := elementAt dstRl s
  let eRl := elementAt dstRl e
  let punchCnt := e - s + 1
  let punchRl := ntfsRlMc (List.replicate (punchCnt + 1) emptyElement) 0 ((dstRl.drop s).take punchCnt)
  let punchRl := punchRl.modify punchCnt fun element => { element with lcn := lcnEnoent, length := 0 }
  let punchRl := if beginSplit sRl startVcn then
    punchRl.modify 0 fun element =>
      ⟨startVcn, lcnBeyond element (startVcn - sRl.vcn), element.length - (startVcn - sRl.vcn)⟩
    else punchRl
  let punchRl := if endSplit eRl endVcn then
    punchRl.modify (punchCnt - 1) fun element =>
      -- A run that is split into left, hole and right has lost its left part already.
      { element with
        length := if e = s ∧ beginSplit sRl startVcn then element.length - rightLength
          else endVcn + 1 - eRl.vcn }
    else punchRl
  let last := elementAt punchRl (punchCnt - 1)
  punchRl.modify punchCnt fun element => { element with vcn := last.vcn + last.length }

/-- The arrays of `ntfs_rl_punch_hole`, for the elements `s` and `e` in which the range
begins and ends. -/
def punchRuns (dstRl : List RunlistElement) (s e startVcn len endVcn : Nat) : PunchOutcome :=
  let dstCnt := dstRl.length
  let beginSplit := beginSplit (elementAt dstRl s) startVcn
  let endSplit := endSplit (elementAt dstRl e) endVcn
  let punchCnt := e - s + 1
  let newCnt := dstCnt - punchCnt + 3
  let newFirstCnt := if beginSplit then s + 1 else s
  let newRl := holedRl dstRl s e startVcn len endVcn newFirstCnt newCnt
  let punchRl := punchedRl dstRl s e startVcn endVcn (elementAt newRl (newFirstCnt + 1)).length
  .punched (mergeHoles newRl newFirstCnt newCnt) punchRl
    (dstCnt + (beginSplit.toNat + endSplit.toNat) - punchCnt + 1 - (holeMerge newRl newFirstCnt newCnt).2)

/-- The run list that `ntfs_rl_punch_hole` makes of an empty range that begins with a run: a hole of
no clusters before the run, merged with the holes that meet it. The read before the second array
does not matter to it. -/
def emptyHoleRl (dstRl : List RunlistElement) (startVcn : Nat) : List RunlistElement :=
  match ntfsRlFindVcnNolock dstRl startVcn with
  | none => dstRl
  | some s =>
    let newCnt := dstRl.length + 3
    let newRl := dstRl.take s ++ ⟨startVcn, lcnHole, 0⟩ :: dstRl.drop s ++ List.replicate 2 emptyElement
    (mergeHoles newRl s newCnt).take (dstRl.length + 1 - (holeMerge newRl s newCnt).2)

/-- `ntfs_rl_punch_hole`, where memory for the arrays may be short. The count its caller
passes is that of the elements of the run list, and the range begins at a vcn of an
attribute. -/
def ntfsRlPunchHole (someMemory : Bool) (dstRl : List RunlistElement) (startVcn len : Nat) : PunchOutcome :=
  let dstCnt := dstRl.length
  let terminator := elementAt dstRl (dstCnt - 1)
  if dstCnt < 2 ∨ ¬ (terminator.lcn = lcnEnoent ∧ terminator.length = 0) then .einval
  else
    let last := elementAt dstRl (dstCnt - 2)
    let endVcn := min (s64 (startVcn + len - 1)) (last.vcn + last.length - 1)
    match ntfsRlFindVcnNolock dstRl startVcn with
    | none => .einval
    | some s =>
      let sRl := elementAt dstRl s
      if sRl.lcn ≤ lcnEnoent ∨ ¬ ntfsRleContain sRl startVcn then .einval
      else
        match ntfsRlFindVcnNolock dstRl endVcn with
        | none => .einval
        | some e =>
          let eRl := elementAt dstRl e
          if eRl.lcn ≤ lcnEnoent ∨ ¬ ntfsRleContain eRl endVcn then .einval
          else if ¬ someMemory then .enomem
          else if e < s then .overrun
          else punchRuns dstRl s e startVcn len endVcn.toNat

end Ttntfs.Ntfs
