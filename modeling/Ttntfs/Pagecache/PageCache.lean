import Mathlib.Data.List.Sort
import Mathlib.Logic.Function.Basic
import Ttntfs.Library.CursorWalk

/-!
# The page cache and its write-back

The page cache of the port between the calls that dirty folios, write them back and sync.
A thread holds a stack of places it has reached; one step of a thread is one section
under `tree_lock` or `registry_lock`, one access to the flags of a folio, or one step of
the file system's `write_folio`. Truncation, reclaim and the destruction of mappings are
not part of it: a folio stays in its mapping.

Beside the state of the cache the model keeps its history: which mappings are owed a
place on the list of dirty mappings because a `folio_mark_dirty` has returned, which
folios a sync of a thread has to write and no `write_folio` has stored since it began, and
what the syncs returned.
-/

namespace Ttntfs.Pagecache

open Ttntfs.Library.CursorWalk

/-- The inode that owns a mapping: its number and its superblock. -/
structure Host where
  ino : Nat
  sb : Nat
deriving DecidableEq, Repr

/-- `struct folio`, as far as write-back reads and writes it. -/
structure Folio where
  mapping : Option Nat
  index : Nat
  dirty : Bool
  dirtiedAt : Nat
  writeback : Bool
  holder : Option Nat

/-- `struct address_space`, as far as write-back reads and writes it. The table of folios
is the list of its folios, in the order in which the buckets are scanned. -/
structure Mapping where
  host : Option Host
  pages : List Nat
  dirty : List Nat
  nrdirty : Nat
  wbErr : Int

/-- What is linked into `g_dirty`: a mapping, or the cursor of a thread that walks it. -/
inductive Node where
  | mapping (m : Nat)
  | cursor (t : Nat)
deriving DecidableEq, Repr

/-- The function that a walk calls for each mapping. -/
inductive Visit where
  /-- `writer_pass_fn` -/
  | writerPass (cutoff : Nat)
  /-- `sync_fn` -/
  | sync (last : Bool)
deriving DecidableEq, Repr

/-- The arguments of `for_each_dirty_mapping`. -/
structure Walk where
  sb : Option Nat
  reverse : Bool
  prune : Bool
  visit : Visit
deriving DecidableEq, Repr

/-- Where a thread is. The last index of a range is none where the source has
`(pgoff_t)-1`, above which there is no index. -/
inductive Frame where
  /-- `folio_mark_dirty` before its section -/
  | markDirty (f : Nat)
  /-- `mapping_note_dirty`, called by `folio_mark_dirty` -/
  | noteDirty (m : Nat)
  /-- `write_range` before `collect_dirty` -/
  | writeRange (m first : Nat) (last : Option Nat) (older : Nat)
  /-- `write_range` at the head of its loop, with the rest of its array -/
  | writeFolios (m : Nat) (arr : List Nat) (err : Int) (redirtied : Nat)
  /-- `writeback_one` at `folio_start_writeback` -/
  | startWriteback (m f : Nat)
  /-- `writeback_one` at `folio_clear_dirty_for_io` -/
  | clearDirtyForIo (m f : Nat)
  /-- `writeback_one` where the folio was clean already -/
  | abandonWriteback (f : Nat)
  /-- `writeback_one` in the `write_folio` of the file system, which may have stored the folio -/
  | writeFolio (m f : Nat) (stored : Bool)
  /-- `writeback_one` where the error is recorded -/
  | recordError (m f : Nat) (err : Int)
  /-- `writeback_one` at `folio_end_writeback` -/
  | endWriteback (f : Nat) (err : Int)
  /-- `writeback_one` at its last test -/
  | testDirty (f : Nat) (err : Int)
  /-- `write_range` behind `writeback_one` -/
  | wroteFolio (m f : Nat) (arr : List Nat) (err : Int) (redirtied : Nat)
  /-- `write_range_sync` behind an attempt -/
  | retry (m first : Nat) (last : Option Nat) (attempt : Nat)
  /-- `filemap_write_and_wait_range` behind its writes -/
  | thenWait (m first : Nat) (last : Option Nat)
  /-- `wait_range` at the head of its loop -/
  | waitRange (m first : Nat) (last : Option Nat)
  /-- `folio_wait_writeback` -/
  | waitWriteback (f : Nat)
  /-- `report_wb_err` -/
  | reportWbErr (m : Nat)
  /-- `filemap_write_and_wait_range` behind its wait, with the error of its writes -/
  | bothErrors (err : Int)
  /-- `for_each_dirty_mapping` before its first section -/
  | walkFrom (w : Walk)
  /-- `for_each_dirty_mapping` behind the call for a mapping -/
  | visited (w : Walk) (m : Nat) (err : Int)
  /-- `pagecache_sync_sb` behind its first pass -/
  | syncLast (sb : Nat)
  /-- `pagecache_sync_sb` behind its second pass, with the error of the first -/
  | syncDone (sb : Nat) (err : Int)
deriving DecidableEq, Repr

/-- The page cache, its threads and their history. -/
structure PageCache where
  folio : Nat → Folio
  mapping : Nat → Mapping
  gDirty : List Node
  now : Nat
  stack : Nat → List Frame
  ret : Nat → Int × Nat
  owed : Nat → Bool
  unwritten : Nat → Nat → Bool
  results : Nat → List Int

namespace PageCache

/-- No folio is cached, and the mappings have the given hosts. -/
def empty (hosts : Nat → Option Host) : PageCache :=
  { folio := fun _ => { mapping := none, index := 0, dirty := false, dirtiedAt := 0, writeback := false
                        holder := none }
    mapping := fun m => { host := hosts m, pages := [], dirty := [], nrdirty := 0, wbErr := 0 }
    gDirty := [], now := 0, stack := fun _ => [], ret := fun _ => (0, 0), owed := fun _ => false
    unwritten := fun _ _ => false, results := fun _ => [] }

/-- A folio from `folio_alloc_new`. -/
def freshFolio (m index : Nat) : Folio :=
  { mapping := some m, index := index, dirty := false, dirtiedAt := 0, writeback := false, holder := none }

/-- Change one folio. -/
def modifyFolio (s : PageCache) (f : Nat) (change : Folio → Folio) : PageCache :=
  { s with folio := Function.update s.folio f (change (s.folio f)) }

/-- Change one mapping. -/
def modifyMapping (s : PageCache) (m : Nat) (change : Mapping → Mapping) : PageCache :=
  { s with mapping := Function.update s.mapping m (change (s.mapping m)) }

/-- A thread moves to a place. -/
def goto (s : PageCache) (t : Nat) (stack : List Frame) : PageCache :=
  { s with stack := Function.update s.stack t stack }

/-- A call returns to the places below it, with an error and a count. -/
def finish (s : PageCache) (t : Nat) (rest : List Frame) (err : Int) (redirtied : Nat) : PageCache :=
  { s.goto t rest with ret := Function.update s.ret t (err, redirtied) }

/-- The folio's index is in the range. -/
def inRange (s : PageCache) (first : Nat) (last : Option Nat) (f : Nat) : Bool :=
  decide (first ≤ (s.folio f).index) && last.all fun l => decide ((s.folio f).index ≤ l)

/-! ## Dirty folios -/

/-- `__folio_set_dirty` -/
def setDirty (s : PageCache) (m f : Nat) : PageCache × Bool :=
  if (s.folio f).dirty then (s, false)
  else
    ((s.modifyFolio f fun folio => { folio with dirty := true, dirtiedAt := s.now }).modifyMapping m
      fun mapping => { mapping with dirty := mapping.dirty ++ [f], nrdirty := mapping.nrdirty + 1 },
     true)

/-- `__folio_clear_dirty`; the mapping is owed nothing once it has no dirty folio. -/
def clearDirty (s : PageCache) (m f : Nat) : PageCache × Bool :=
  if (s.folio f).dirty then
    let s' := (s.modifyFolio f fun folio => { folio with dirty := false }).modifyMapping m
      fun mapping => { mapping with dirty := mapping.dirty.erase f, nrdirty := mapping.nrdirty - 1 }
    ({ s' with
       owed := fun m' => s.owed m' && !(decide (m' = m) && decide ((s'.mapping m).nrdirty = 0)) }, true)
  else (s, false)

/-- A `folio_mark_dirty` on a folio of the mapping returns. -/
def markReturns (s : PageCache) (m : Nat) : PageCache :=
  { s with owed := fun m' => s.owed m' || decide (m' = m) && decide (0 < (s.mapping m).nrdirty) }

/-- `folio_mark_dirty`: the section, and whether the registry has to hear of it. -/
def folioMarkDirty (s : PageCache) (t f : Nat) (rest : List Frame) : PageCache :=
  match (s.folio f).mapping with
  | none => s.goto t rest
  | some m =>
    let (s', newly) := s.setDirty m f
    if newly && decide ((s'.mapping m).nrdirty = 1) then s'.goto t (.noteDirty m :: rest)
    else (s'.markReturns m).goto t rest

/-- The section of `mapping_note_dirty`. -/
def noteDirty (s : PageCache) (m : Nat) : PageCache :=
  if .mapping m ∈ s.gDirty then s else { s with gDirty := s.gDirty ++ [.mapping m] }

/-- `folio_clear_dirty_for_io` -/
def folioClearDirtyForIo (s : PageCache) (f : Nat) : PageCache × Bool :=
  match (s.folio f).mapping with
  | none => (s.modifyFolio f fun folio => { folio with dirty := false }, (s.folio f).dirty)
  | some m => s.clearDirty m f

/-! ## Write-back -/

/-- The folio's writeback flag. -/
def setWriteback (s : PageCache) (f : Nat) (on : Bool) : PageCache :=
  s.modifyFolio f fun folio => { folio with writeback := on }

/-- The folio's lock. -/
def setHolder (s : PageCache) (f : Nat) (holder : Option Nat) : PageCache :=
  s.modifyFolio f fun folio => { folio with holder := holder }

/-- `collect_dirty`: the list is oldest first, the array sorted by index. -/
def collectDirty (s : PageCache) (m first : Nat) (last : Option Nat) (older : Nat) : List Nat :=
  (((s.mapping m).dirty.takeWhile fun f => decide (older = 0 ∨ (s.folio f).dirtiedAt ≤ older)).filter
    (s.inRange first last)).insertionSort fun f f' => (s.folio f).index ≤ (s.folio f').index

/-- The error that `writeback_one` keeps for the next report. -/
def recordWbErr (s : PageCache) (m : Nat) (err : Int) : PageCache :=
  s.modifyMapping m fun mapping => { mapping with wbErr := if mapping.wbErr = 0 then err else mapping.wbErr }

/-- The folio that `wait_range` waits for. -/
def waitVictim (s : PageCache) (m first : Nat) (last : Option Nat) : Option Nat :=
  (s.mapping m).pages.find? fun f => s.inRange first last f && (s.folio f).writeback

/-- `WB_REDIRTY_RETRIES` -/
def wbRedirtyRetries : Nat := 16

/-- The places of `filemap_write_and_wait_range`. -/
def writeAndWait (m first : Nat) (last : Option Nat) : List Frame :=
  [.writeRange m first last 0, .retry m first last 0, .thenWait m first last]

/-! ## Walks over the dirty mappings -/

/-- `mapping_syncs_last` -/
def syncsLast (s : PageCache) (m : Nat) : Bool :=
  match (s.mapping m).host with
  | none => false
  | some host => decide (host.ino = 0)

/-- The mapping is one of the superblock. -/
def onSb (s : PageCache) (sb m : Nat) : Bool :=
  match (s.mapping m).host with
  | none => false
  | some host => decide (host.sb = sb)

/-- The mapping a walk stops at: it passes over cursors and over the mappings of other
superblocks. -/
def selects (s : PageCache) (w : Walk) : Node → Option Nat
  | .cursor _ => none
  | .mapping m =>
    match w.sb with
    | none => some m
    | some sb => if s.onSb sb m then some m else none

/-- The call of a walk for a mapping; a sync leaves the mappings of the other pass. -/
def visitFrames (s : PageCache) (m : Nat) : Visit → List Frame
  | .writerPass cutoff => [.writeRange m 0 none cutoff]
  | .sync last => if s.syncsLast m = last then writeAndWait m 0 none else []

/-- The nodes that a walk has before it, from where its cursor is. -/
def ahead (s : PageCache) (t : Nat) (reverse : Bool) : List Node :=
  if reverse then leaders (.cursor t) s.gDirty else followers (.cursor t) s.gDirty

/-- Park the cursor next to a mapping. -/
def park (s : PageCache) (t m : Nat) (reverse : Bool) : PageCache :=
  { s with gDirty := if reverse then placeBefore (.cursor t) (.mapping m) s.gDirty
                     else placeAfter (.cursor t) (.mapping m) s.gDirty }

/-- The loop of `for_each_dirty_mapping` up to the next call, or to its end. -/
def advance (s : PageCache) (t : Nat) (w : Walk) (err : Int) (nodes : List Node) (rest : List Frame) :
    PageCache :=
  match nodes.findSome? (s.selects w) with
  | none => s.finish t rest err 0
  | some m => (s.park t m w.reverse).finish t (s.visitFrames m w.visit ++ .visited w m err :: rest) 0 0

/-- The walk drops the mapping from the list. -/
def drops (s : PageCache) (w : Walk) (m : Nat) (err : Int) : Bool :=
  w.prune && decide (err = 0) && decide ((s.mapping m).nrdirty = 0)

/-- The section of `for_each_dirty_mapping` behind a call, on to the next call. -/
def resume (s : PageCache) (t : Nat) (w : Walk) (m : Nat) (err : Int) (rest : List Frame) : PageCache :=
  let e := (s.ret t).1
  let dropped := { s with gDirty := if s.drops w m e then s.gDirty.erase (.mapping m) else s.gDirty }
  let nodes := dropped.ahead t w.reverse
  { dropped with gDirty := dropped.gDirty.erase (.cursor t) }.advance t w
    (if e ≠ 0 ∧ err = 0 then e else err) nodes rest

/-- The first pass of `pagecache_sync_sb`. -/
def firstPass (sb : Nat) : Walk := { sb := some sb, reverse := false, prune := false, visit := .sync false }

/-- The second pass of `pagecache_sync_sb`. -/
def secondPass (sb : Nat) : Walk := { sb := some sb, reverse := true, prune := true, visit := .sync true }

/-- The pass of the writer thread. -/
def writerWalk (cutoff : Nat) : Walk :=
  { sb := none, reverse := false, prune := false, visit := .writerPass cutoff }

/-! ## Steps -/

/-- The step of a thread that is at `frame`; none where it has to wait, or where the file
system acts. -/
def runFrame (s : PageCache) (t : Nat) (rest : List Frame) : Frame → Option PageCache
  | .markDirty f => some (s.folioMarkDirty t f rest)
  | .noteDirty m => some (((s.noteDirty m).markReturns m).goto t rest)
  | .writeRange m first last older =>
    some (s.goto t (.writeFolios m (s.collectDirty m first last older) 0 0 :: rest))
  | .writeFolios _ [] err redirtied => some (s.finish t rest err redirtied)
  | .writeFolios m (f :: arr) err redirtied =>
    if (s.folio f).holder = none then
      some ((s.setHolder f (some t)).goto t
        (.startWriteback m f :: .wroteFolio m f arr err redirtied :: rest))
    else none
  | .startWriteback m f => some ((s.setWriteback f true).goto t (.clearDirtyForIo m f :: rest))
  | .clearDirtyForIo m f =>
    let (s', was) := s.folioClearDirtyForIo f
    if !was || decide ((s.folio f).mapping ≠ some m) then some (s'.goto t (.abandonWriteback f :: rest))
    else some (s'.goto t (.writeFolio m f false :: rest))
  | .abandonWriteback f => some ((s.setWriteback f false).finish t rest 0 0)
  | .writeFolio _ _ _ => none
  | .recordError m f err => some ((s.recordWbErr m err).goto t (.endWriteback f err :: rest))
  | .endWriteback f err => some ((s.setWriteback f false).goto t (.testDirty f err :: rest))
  | .testDirty f err => some (s.finish t rest (if err = 0 ∧ (s.folio f).dirty then 1 else err) 0)
  | .wroteFolio m f arr err redirtied =>
    let e := (s.ret t).1
    let s' := s.setHolder f none
    if 0 < e then some (s'.goto t (.writeFolios m arr err (redirtied + 1) :: rest))
    else some (s'.goto t (.writeFolios m arr (if e ≠ 0 ∧ err = 0 then e else err) redirtied :: rest))
  | .retry m first last attempt =>
    if (s.ret t).1 ≠ 0 ∨ (s.ret t).2 = 0 ∨ wbRedirtyRetries ≤ attempt then
      some (s.finish t rest (s.ret t).1 0)
    else some (s.goto t (.writeRange m first last 0 :: .retry m first last (attempt + 1) :: rest))
  | .thenWait m first last =>
    some (s.goto t (.waitRange m first last :: .reportWbErr m :: .bothErrors (s.ret t).1 :: rest))
  | .waitRange m first last =>
    match s.waitVictim m first last with
    | some f => some (s.goto t (.waitWriteback f :: .waitRange m first last :: rest))
    | none => some (s.goto t rest)
  | .waitWriteback f => if (s.folio f).writeback then none else some (s.goto t rest)
  | .reportWbErr m =>
    some ((s.modifyMapping m fun mapping => { mapping with wbErr := 0 }).finish t rest (s.mapping m).wbErr 0)
  | .bothErrors err => some (s.finish t rest (if err ≠ 0 then err else (s.ret t).1) 0)
  | .walkFrom w =>
    some (s.advance t w 0 (if w.reverse then s.gDirty.reverse else s.gDirty) rest)
  | .visited w m err => some (s.resume t w m err rest)
  | .syncLast sb => some (s.goto t (.walkFrom (secondPass sb) :: .syncDone sb (s.ret t).1 :: rest))
  | .syncDone _ err =>
    let result := if err ≠ 0 then err else (s.ret t).1
    some { s.finish t rest result 0 with
      results := Function.update s.results t (s.results t ++ [result]) }

/-- What a thread may call. -/
inductive Call where
  | folioMarkDirty (f : Nat)
  | filemapFdatawriteRange (m first : Nat) (last : Option Nat)
  | filemapFdatawaitRange (m first : Nat) (last : Option Nat)
  | filemapWriteAndWaitRange (m first : Nat) (last : Option Nat)
  | writerPass (cutoff : Nat)
  | pagecacheSyncSb (sb : Nat)
deriving DecidableEq, Repr

/-- The places of a call. -/
def Call.frames : Call → List Frame
  | .folioMarkDirty f => [.markDirty f]
  | .filemapFdatawriteRange m first last => [.writeRange m first last 0, .retry m first last 0]
  | .filemapFdatawaitRange m first last => [.waitRange m first last, .reportWbErr m]
  | .filemapWriteAndWaitRange m first last => writeAndWait m first last
  | .writerPass cutoff => [.walkFrom (writerWalk cutoff)]
  | .pagecacheSyncSb sb => [.walkFrom (firstPass sb), .syncLast sb]

/-- A folio that a sync which begins now must write: it is dirty, and its mapping is owed a
place on the list. -/
def mustWrite (s : PageCache) (sb f : Nat) : Bool :=
  match (s.folio f).mapping with
  | none => false
  | some m => (s.folio f).dirty && s.owed m && s.onSb sb m

/-- A thread begins a call. -/
def begin (s : PageCache) (t : Nat) (c : Call) : PageCache :=
  let s' := s.goto t c.frames
  match c with
  | .pagecacheSyncSb sb => { s' with unwritten := Function.update s.unwritten t (s.mustWrite sb) }
  | _ => s'

/-- What `write_folio` may do with the folio it is given: it stores it, it may dirty folios, and
the one of `$MFT` handles the flag and the lock of the folio itself. -/
inductive Backend where
  | store
  | markDirty (f : Nat)
  | startWriteback
  | endWriteback
  | unlock
  | lock
  | returns (err : Int)
deriving DecidableEq, Repr

/-- A step of `write_folio`, which the thread is in. What is stored no sync has to write any more. -/
def backend (s : PageCache) (t m f : Nat) (stored : Bool) (rest : List Frame) : Backend → Option PageCache
  | .store =>
    some { s.goto t (.writeFolio m f true :: rest) with
      unwritten := fun u f' => s.unwritten u f' && decide (f' ≠ f) }
  | .markDirty f' => some (s.goto t (.markDirty f' :: .writeFolio m f stored :: rest))
  | .startWriteback => some (s.setWriteback f true)
  | .endWriteback => some (s.setWriteback f false)
  | .unlock => if (s.folio f).holder = some t then some (s.setHolder f none) else none
  | .lock => if (s.folio f).holder = none then some (s.setHolder f (some t)) else none
  | .returns err =>
    if (s.folio f).holder = some t then
      if err ≠ 0 then some (s.goto t (.recordError m f err :: rest))
      else some (s.goto t (.endWriteback f 0 :: rest))
    else none

/-- What may happen next. -/
inductive Event where
  /-- Time passes. -/
  | tick
  /-- `__filemap_get_folio` inserts a folio. -/
  | insert (m f index : Nat)
  /-- A thread that is in no call begins one. -/
  | call (t : Nat) (c : Call)
  /-- A thread goes on. -/
  | run (t : Nat)
  /-- A thread goes on in `write_folio`. -/
  | writeFolio (t : Nat) (b : Backend)
deriving DecidableEq, Repr

/-- The step of an event; none where it cannot happen. -/
def next (s : PageCache) : Event → Option PageCache
  | .tick => some { s with now := s.now + 1 }
  | .insert m f index =>
    if (s.folio f).mapping = none then
      some ((s.modifyFolio f fun _ => freshFolio m index).modifyMapping m
        fun mapping => { mapping with pages := mapping.pages ++ [f] })
    else none
  | .call t c => if s.stack t = [] then some (s.begin t c) else none
  | .run t =>
    match s.stack t with
    | [] => none
    | frame :: rest => s.runFrame t rest frame
  | .writeFolio t b =>
    match s.stack t with
    | .writeFolio m f stored :: rest => s.backend t m f stored rest b
    | _ => none

/-- The state that a run of events leads to; none where one of them cannot happen. -/
def run (s : PageCache) : List Event → Option PageCache
  | [] => some s
  | event :: events => (s.next event).bind fun s' => s'.run events

/-- The states that runs reach whose steps all meet a condition. -/
inductive Reaches (hosts : Nat → Option Host) (condition : PageCache → Event → Prop) : PageCache → Prop
  | start : Reaches hosts condition (empty hosts)
  | step {s s' : PageCache} {event : Event} (before : Reaches hosts condition s)
      (meets : condition s event) (happens : s.next event = some s') : Reaches hosts condition s'

end PageCache

end Ttntfs.Pagecache
