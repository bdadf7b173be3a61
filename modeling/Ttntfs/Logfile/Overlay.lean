import Ttntfs.Logfile.MftRecord
import Ttntfs.Library.Probing

/-!
# The replay overlay

Replay changes MFT records and clusters in memory first. Records are kept in a
list; clusters in an open-addressing hash table that doubles when it is half
full. Allocation is taken to succeed, short of a table of 2^32 slots.
-/

namespace Ttntfs.Logfile

open Library.ByteMemory Library.Probing

/-- What is known of a cluster in the overlay. A dirty cluster has data: every
writer loads the cluster first. -/
inductive CluState where
  | absent
  | clean (data : Mem)
  | dirty (data : Mem)

/-- A used `struct ovl_clu`. -/
structure OvlClu where
  lcn : Nat
  state : CluState

/-- The hash table of clusters: `clu`, `clu_cap` and `clu_used` of `struct replay`. -/
structure CluTable where
  cap : Nat
  used : Nat
  slot : Nat → Option OvlClu

namespace CluTable

/-- A cleared table. -/
def sized (cap : Nat) : CluTable := { cap, used := 0, slot := fun _ => none }

/-- The table before the first cluster. -/
def empty : CluTable := sized 0

/-- The lcn a slot holds. -/
def lcnAt (t : CluTable) (i : Nat) : Option Nat := (t.slot i).map OvlClu.lcn

/-- Replace the contents of a slot. -/
def set (t : CluTable) (i : Nat) (c : OvlClu) : CluTable :=
  { t with slot := Function.update t.slot i (some c) }

end CluTable

/-- The slot at which the search for an lcn starts. -/
def hashIndex (cap lcn : Nat) : Nat :=
  lcn * 0x9E3779B97F4A7C15 % 2 ^ 64 / 2 ^ 32 % 2 ^ 32 &&& (cap - 1)

/-- The search loop of `ovl_clu_find`, all around the table at most. The capacity is a
power of two, so the mask is the remainder. -/
def ovlCluProbe (t : CluTable) (lcn : Nat) : Probe :=
  probe t.lcnAt t.cap lcn t.cap (hashIndex t.cap lcn)

/-- `ovl_clu_find` without `create`; the entry is named by its slot. -/
def ovlCluFind (t : CluTable) (lcn : Nat) : Option Nat :=
  if t.cap = 0 then none
  else
    match ovlCluProbe t lcn with
    | .found i => some i
    | _ => none

/-- `ovl_clu_find` with `create` in a table with room. -/
def ovlCluPlace (t : CluTable) (lcn : Nat) : Option (CluTable × Nat) :=
  match ovlCluProbe t lcn with
  | .found i => some (t, i)
  | .empty i => some ({ t.set i { lcn, state := .absent } with used := t.used + 1 }, i)
  | .endless => none

/-- The body of the copy loop of `ovl_clu_grow`. -/
def ovlCluMove (old : CluTable) (t : CluTable) (i : Nat) : CluTable :=
  match old.slot i with
  | none => t
  | some c =>
    match ovlCluPlace t c.lcn with
    | none => t
    | some (t, j) => t.set j c

/-- `ovl_clu_grow`; none is `-ENOMEM`. The copies are made into a table at most a
quarter full, so the growth test inside `ovl_clu_find` never holds for them. -/
def ovlCluGrow (t : CluTable) : Option CluTable :=
  let ncap := if t.cap = 0 then 1024 else t.cap * 2
  if ncap ≥ 2 ^ 32 then none
  else some ((List.range t.cap).foldl (ovlCluMove t) (CluTable.sized ncap))

/-- `ovl_clu_find` with `create`. -/
def ovlCluCreate (t : CluTable) (lcn : Nat) : Option (CluTable × Nat) :=
  if t.used * 2 ≥ t.cap then
    match ovlCluGrow t with
    | none => none
    | some t => ovlCluPlace t lcn
  else ovlCluPlace t lcn

/-- `struct ovl_mft` -/
structure OvlMft where
  mftNo : Nat
  record : Mem
  dirty : Bool
  bad : Bool

/-- The overlay of `struct replay`, with the cluster and record sizes. -/
structure Overlay where
  cs : Nat
  rs : Nat
  mft : List OvlMft
  capMft : Nat
  clu : CluTable

/-- The contents of the volume by cluster; the first `cs` bytes of each count. -/
abbrev Device := Nat → Mem

/-- Access to the volume: `struct ntfs_log_apply` with writes that succeed. Which
clusters hold a record is the implementation's business; a record write may touch
these only. -/
structure Apply where
  readMftRecord : Device → Nat → Option Mem
  /-- The cluster holds some part of the record. -/
  holdsRecord : Nat → Nat → Prop
  writeMftRecord : Nat → Mem → Device → Device
  /-- `read_clusters` of one cluster succeeds. -/
  readable : Nat → Bool
  write_frame : ∀ no record dev lcn, ¬ holdsRecord no lcn →
    writeMftRecord no record dev lcn = dev lcn

/-- `ovl_mft_lookup` -/
def ovlMftLookup (ovl : Overlay) (mftNo : Nat) : Option OvlMft :=
  ovl.mft.find? fun m => m.mftNo = mftNo

/-- The record `ovl_get_mft` without `init` makes of what was read. -/
def ovlMftOfRead (rs mftNo : Nat) (raw : Mem) : OvlMft :=
  if lfGet32 raw 0 = lfsMagicFile then
    match lfsFixupPostRead raw rs lfsSectorSize with
    | none => { mftNo, record := raw, dirty := false, bad := true }
    | some (record, torn) => { mftNo, record, dirty := false, bad := torn }
  else { mftNo, record := raw, dirty := false, bad := lfGet32 raw 0 = lfsMagicBaad }

/-- `ovl_get_mft` without `init`; none is `-EIO`. The array is grown before the
record is read, also when the read then fails. -/
def ovlGetMft (ovl : Overlay) (ap : Apply) (dev : Device) (mftNo : Nat) :
    Overlay × Option OvlMft :=
  match ovlMftLookup ovl mftNo with
  | some m => (ovl, some m)
  | none =>
    let capMft := if ovl.mft.length = ovl.capMft then
        if ovl.capMft = 0 then 64 else ovl.capMft * 2
      else ovl.capMft
    match ap.readMftRecord dev mftNo with
    | none => ({ ovl with capMft }, none)
    | some raw =>
      let m := ovlMftOfRead ovl.rs mftNo raw
      ({ ovl with capMft, mft := ovl.mft ++ [m] }, some m)

end Ttntfs.Logfile
