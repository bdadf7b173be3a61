import Ttntfs.Ntfs.EaStore

/-!
# Calls that keep the map

The flag of the inode is derived from the length before the new entry is added, the new entry goes
behind whatever the last entry says, and an old entry is gone before the new one is checked. A call
that meets none of these keeps the map, and so does every run of such calls.
-/

namespace Ttntfs.Ntfs

open Library.ByteFields Library.ByteMemory

/-! ## Chains without an entry -/

/-- The entries with other names. -/
def othersOf (entries : List EaEntry) (name : List UInt8) : List EaEntry := entries.filter fun e => e.name ≠ name

theorem othersOf_absent {entries : List EaEntry} {name : List UInt8} (absent : ∀ e ∈ entries, e.name ≠ name) :
    othersOf entries name = entries := List.filter_eq_self.mpr fun e member => decide_eq_true (absent e member)

theorem othersOf_split {first second : List EaEntry} {e : EaEntry} (linked : Linked (first ++ e :: second)) :
    othersOf (first ++ e :: second) e.name = first ++ second := by
  have before := othersOf_absent (before_other linked)
  have behind := othersOf_absent (behind_other linked)
  rw [othersOf] at before behind
  rw [othersOf, List.filter_append, List.filter_cons_of_neg (by simp), before, behind]

theorem absent_of_valueOf {entries : List EaEntry} {name : List UInt8} (linked : Linked entries)
    (none : valueOf entries name = none) : ∀ e ∈ entries, e.name ≠ name := by
  rcases entry_or_none entries name with absent | ⟨first, e, second, rfl, rfl⟩
  · exact absent
  · exact absurd ((valueOf_split linked).symm.trans none) (by simp)

theorem split_of_valueOf {entries : List EaEntry} {name : List UInt8} (present : valueOf entries name ≠ none) :
    ∃ first e second, entries = first ++ e :: second ∧ e.name = name :=
  (entry_or_none entries name).resolve_left fun absent => present (valueOf_none absent)

/-! ## The calls that keep the map -/

/-- What the calls have recorded. -/
abbrev EaMap := List UInt8 → Option (List UInt8)

/-- A call without a value that replaces takes the name out. -/
def SetEaCall.removes (call : SetEaCall) : Bool := call.replace && call.value.isEmpty

/-- The map after a call: one that fails changes nothing. -/
def mapAfter (call : SetEaCall) (code : Int) (map : EaMap) : EaMap :=
  if code = 0 then Function.update map call.name (if call.removes then none else some call.value) else map

/-- The two attributes are read. -/
structure EaOpened (course : SetEaCourse) (s : EaStore) : Prop where
  present : s.info ≠ none
  seen : course.infoSeen = true
  infoRead : course.infoRead = true
  eaRead : ntfsAttrReadall course.eaRead s.ea ≠ none

/-- There is no `$EA_INFORMATION`, or it stands without an `$EA` that can be read. -/
def CreatesInfo (course : SetEaCourse) (s : EaStore) : Prop :=
  s.info = none ∨ course.infoSeen = false ∨
    (course.infoRead = true ∧ ntfsAttrReadall course.eaRead s.ea = none)

/-- How a call fails on an inode without entries when it creates an `$EA_INFORMATION`. -/
inductive CreateFails (ad : Option EaAttrDef) (call : SetEaCall) (course : SetEaCourse) (s : EaStore) : Prop where
  /-- the attribute is there and cannot be added -/
  | present (present : s.info ≠ none)
  | notAdded (absent : s.info = none) (code : FailureCode) (left : Option (List UInt8))
      (failure : course.infoAdd = some (code, left)) (holds : HoldsInfo left [])
  /-- an `$EA` that is there cannot be removed -/
  | strayKept (absent : s.info = none) (added : course.infoAdd = none) (stray : s.ea ≠ none)
      (seen : course.straySeen = true) (code : FailureCode) (left : Option (List UInt8))
      (failure : course.strayRemove = some (code, left))
  | entryFails (absent : s.info = none) (added : course.infoAdd = none)
      (removed : s.ea ≠ none → course.straySeen = true → course.strayRemove = none)
      (fails : NewEaFails ad call course
        { s with
          info := some (EaInformation.bytes ⟨0, 0, 0⟩)
          ea := if course.straySeen then none else s.ea } [])

/-- The old entry is taken out of both attributes. -/
structure TakesOut (course : SetEaCourse) : Prop where
  info : ∃ cut, course.infoShrink = .written cut
  ea : ∃ cut, course.eaShrink = .written cut

/-- The calls that keep the map. -/
inductive SoundSet (ad : Option EaAttrDef) (call : SetEaCall) (course : SetEaCourse) (s : EaStore)
    (entries : List EaEntry) : Prop where
  /-- the name is too long -/
  | tooLong (long : 255 < call.name.length)
  | noInfoMemory (creates : CreatesInfo course s) (noMemory : course.infoAllocated = false)
  | notCreated (empty : entries = []) (creates : CreatesInfo course s) (fails : CreateFails ad call course s)
  /-- nothing is read, nothing is there and nothing was to be kept -/
  | nothingRemoved (empty : entries = []) (present : s.info ≠ none) (seen : course.infoSeen = true)
      (unread : course.infoRead = false) (removes : call.removes = true)
  /-- `XATTR_REPLACE` without an entry -/
  | missing (opened : EaOpened course s) (absent : valueOf entries call.name = none) (replace : call.replace = true)
  /-- `XATTR_CREATE` with an entry -/
  | existing (opened : EaOpened course s) (present : valueOf entries call.name ≠ none) (create : call.create = true)
  | sameValue (opened : EaOpened course s) (create : call.create = false) (filled : call.value ≠ [])
      (same : valueOf entries call.name = some call.value)
  | notStored (opened : EaOpened course s) (absent : valueOf entries call.name = none)
      (replace : call.replace = false) (fails : NewEaFails ad call course s entries)
  /-- the first write of a removal fails and leaves the lengths -/
  | notTakenOut (opened : EaOpened course s) (present : valueOf entries call.name ≠ none)
      (create : call.create = false) (differs : call.value = [] ∨ valueOf entries call.name ≠ some call.value)
      (kept : othersOf entries call.name ≠ []) (code : FailureCode) (left : List UInt8)
      (failure : course.infoShrink = .failed code left) (holds : HoldsInfo (some left) entries)
  | removed (opened : EaOpened course s) (present : valueOf entries call.name ≠ none)
      (create : call.create = false) (removes : call.removes = true) (takesOut : TakesOut course)
  /-- the value is put behind entries that stay, after the old one has been taken out -/
  | stored (opened : EaOpened course s) (admitted : valueOf entries call.name = none → call.replace = false)
      (create : valueOf entries call.name ≠ none → call.create = false)
      (differs : call.value = [] ∨ valueOf entries call.name ≠ some call.value) (keeps : call.removes = false)
      (takesOut : valueOf entries call.name ≠ none → TakesOut course)
      (succeeds : NewEaSucceeds ad call course (othersOf entries call.name))

/-! ## One call -/

section Call

variable {ad : Option EaAttrDef} {call : SetEaCall} {course : SetEaCourse} {s : EaStore} {entries : List EaEntry}

theorem mapAfter_failed {code : Int} (failed : code ≠ 0) (map : EaMap) : mapAfter call code map = map :=
  if_neg failed

theorem mapAfter_success {code : Int} (success : code = 0) (map : EaMap) :
    mapAfter call code map = Function.update map call.name (if call.removes then none else some call.value) :=
  if_pos success

theorem HoldsInfo.readable {v : List UInt8} (holds : HoldsInfo (some v) entries) :
    ntfsAttrReadall true (some v) = some v ∧ ¬v.length ≠ eaInformationSize :=
  ⟨readall_short (by rw [holds.1]; decide), not_not.mpr holds.1⟩

theorem ntfsSetEa_creates (nameFits : ¬255 < call.name.length) (holds : HoldsInfo s.info entries)
    (creates : CreatesInfo course s) : ntfsSetEa ad call course s = createEaInfo ad call course s := by
  unfold ntfsSetEa
  rw [if_neg nameFits]
  cases stored : s.info with
  | none => rfl
  | some v =>
    rw [stored] at holds
    cases seen : course.infoSeen with
    | false => rfl
    | true =>
      rcases creates with none | unseen | ⟨infoRead, unread⟩
      · exact absurd (stored.symm.trans none) (by simp)
      · exact absurd (seen.symm.trans unseen) (by decide)
      · rw [Option.isSome_some, Bool.and_self, if_pos rfl, infoRead, holds.readable.1]
        dsimp only
        rw [if_neg holds.readable.2, unread]

theorem ntfsSetEa_opened (nameFits : ¬255 < call.name.length) (holds : HoldsInfo s.info entries)
    (opened : EaOpened course s) : ∃ infoBytes eaBuf, s.info = some infoBytes ∧ s.ea = some eaBuf ∧
      ntfsSetEa ad call course s = setInReadEa ad call course (EaInformation.read infoBytes) eaBuf s := by
  obtain ⟨infoBytes, stored⟩ := Option.ne_none_iff_exists'.mp opened.present
  obtain ⟨eaBuf, read⟩ := Option.ne_none_iff_exists'.mp opened.eaRead
  refine ⟨infoBytes, eaBuf, stored, stored_of_readall read, ?_⟩
  rw [stored] at holds
  unfold ntfsSetEa
  rw [if_neg nameFits, stored, opened.seen, opened.infoRead, Option.isSome_some, Bool.and_self, if_pos rfl,
    holds.readable.1]
  dsimp only
  rw [if_neg holds.readable.2, read]

/-- An inode without entries stays without where no information is created. -/
theorem createEaInfo_fails (held : EaHeld s []) (allocated : course.infoAllocated = true)
    (fails : CreateFails ad call course s) :
    (createEaInfo ad call course s).code ≠ 0 ∧ EaRepresents (createEaInfo ad call course s).store [] := by
  have ended : ∀ (ea infoBytes : Option (List UInt8)) (code : Int), HoldsInfo infoBytes [] → code ≠ 0 →
      (setEaOut 0 code none { s with ea := ea, info := infoBytes }).code ≠ 0 ∧
        EaRepresents (setEaOut 0 code none { s with ea := ea, info := infoBytes }).store [] :=
    fun ea infoBytes code holds failed => ⟨failed, EaHeld.out ⟨held.linked, holds, .inl rfl⟩ (absurd rfl) code none⟩
  have zeros : HoldsInfo (some (EaInformation.bytes ⟨0, 0, 0⟩)) [] := holdsInfo_bytes (by decide) rfl rfl
  unfold createEaInfo
  rw [allocated, if_neg (by decide)]
  dsimp only
  cases fails with
  | present there =>
    obtain ⟨old, stored⟩ := Option.ne_none_iff_exists'.mp there
    rw [stored, addEaAttribute_there]
    dsimp only
    rw [if_pos (by decide)]
    exact ended s.ea (some old) _ (stored ▸ held.info) (by decide)
  | notAdded absent code left failure holds =>
    rw [absent, failure, addEaAttribute_failed]
    dsimp only
    rw [if_pos code.ne_zero]
    exact ended s.ea left _ holds code.ne_zero
  | strayKept absent added stray seen code left failure =>
    rw [absent, added, addEaAttribute_added, seen, Option.isSome_iff_ne_none.mpr stray, failure]
    dsimp only
    rw [if_neg (by decide), Bool.and_self, if_pos rfl]
    exact ended left _ _ zeros code.ne_zero
  | entryFails absent added removed fails =>
    have result := @allocNewEa_fails ad call course
      ⟨some (EaInformation.bytes ⟨0, 0, 0⟩), if course.straySeen then none else s.ea, s.hasEa⟩ []
      ⟨0, 0, 0⟩ ⟨held.linked, zeros, .inl rfl⟩ (by simp) rfl fails
    rw [absent, added, addEaAttribute_added]
    dsimp only
    rw [if_neg (by decide)]
    cases stray : s.ea with
    | none =>
      rw [stray, ite_self] at result
      exact result
    | some old =>
      cases seen : course.straySeen with
      | false =>
        rw [seen, if_neg Bool.false_ne_true, stray] at result
        exact result
      | true =>
        rw [Option.isSome_some, Bool.and_self, if_pos rfl, removed (by simp [stray]) seen]
        rw [seen, if_pos rfl] at result
        exact result

end Call

/-! ## Taking an entry out -/

section Found

variable {ad : Option EaAttrDef} {call : SetEaCall} {course : SetEaCourse} {s : EaStore}
  {first second : List EaEntry} {e : EaEntry} {info : EaInformation}

/-- The information without an entry. -/
def shrunkInfo (info : EaInformation) (e : EaEntry) : EaInformation where
  eaLength := subU16 info.eaLength (eaPackedSize e.name.length e.value.length)
  needEaCount := if e.flags.toNat &&& needEa ≠ 0 then subU16 info.needEaCount 1 else info.needEaCount
  eaQueryLength := info.eaQueryLength - e.size

theorem eaBufWithout_chain (first second : List EaEntry) (e : EaEntry) (tail : List UInt8) :
    eaBufWithout (chainBytes first ++ (e.bytes ++ (chainBytes second ++ tail))) (chainSize (first ++ e :: second))
      (chainSize first) e.size = chainBytes (first ++ second) := by
  have length : chainSize (first ++ e :: second) - (chainSize first + e.size) = (chainBytes second).length := by
    rw [chainSize_append, chainSize_cons, length_chainBytes]
    omega
  rw [eaBufWithout, length, ← length_chainBytes first, List.take_left, ← List.drop_drop, List.drop_left,
    ← e.length_bytes, List.drop_left, List.take_left, chainBytes_append]

theorem value_compared (before behind value : List UInt8) (e : EaEntry) :
    (e.value.length = value.length ∧ ((before ++ (e.bytes ++ behind)).drop
      (before.length + eaAttrSize + (e.name.length + 1))).take value.length = value) ↔ e.value = value := by
  constructor
  · rintro ⟨length, same⟩
    rwa [← length, e.value_read] at same
  · rintro rfl
    exact ⟨rfl, e.value_read before behind⟩

/-- What is done with an entry that has been found, said with the entry. -/
def replaceEntry (ad : Option EaAttrDef) (call : SetEaCall) (course : SetEaCourse) (info : EaInformation)
    (first : List EaEntry) (e : EaEntry) (second : List EaEntry) (s : EaStore) : SetEaEnd :=
  if call.create then setEaOut info.eaQueryLength (-eaEexist) none s
  else if call.value ≠ [] ∧ e.value = call.value then setEaOut info.eaQueryLength 0 none s
  else
    let (err, infoBytes) := ntfsWriteEa course.infoShrink s.info (shrunkInfo info e).bytes 0 false
    if err ≠ 0 then setEaOut (info.eaQueryLength - e.size) err none { s with info := infoBytes }
    else
      let (err, ea) := ntfsWriteEa course.eaShrink s.ea (chainBytes (first ++ second)) 0 true
      if err ≠ 0 then setEaOut (info.eaQueryLength - e.size) err none { s with info := infoBytes, ea := ea }
      else if call.removes then setEaOut (info.eaQueryLength - e.size) 0 none { s with info := infoBytes, ea := ea }
      else allocNewEa ad call course (shrunkInfo info e) (info.eaQueryLength - e.size)
        { s with info := infoBytes, ea := ea }

theorem replaceFoundEa_eq (tail : List UInt8) (total : info.eaQueryLength = chainSize (first ++ e :: second)) :
    replaceFoundEa ad call course info (chainBytes first ++ (e.bytes ++ (chainBytes second ++ tail)))
      (chainSize first) e.size s = replaceEntry ad call course info first e second s := by
  have without := eaBufWithout_chain first second e tail
  have nameLength := e.nameLength_read (chainBytes first) (chainBytes second ++ tail)
  have valueLength := e.valueLength_read (chainBytes first) (chainBytes second ++ tail)
  have flags := e.flags_read (chainBytes first) (chainBytes second ++ tail)
  have compared := value_compared (chainBytes first) (chainBytes second ++ tail) call.value e
  rw [← total] at without
  rw [length_chainBytes] at nameLength valueLength flags compared
  unfold replaceFoundEa
  rw [nameLength, valueLength, flags]
  dsimp only
  simp only [compared]
  rw [without]
  rfl

theorem ntfsWriteEa_front (cut : Bool) (old bytes : List UInt8) :
    ntfsWriteEa (.written cut) (some old) bytes 0 true =
      (0, some (bytes ++ if cut then [] else old.drop bytes.length)) := by
  rw [ntfsWriteEa, eaWritten, List.take_zero, List.nil_append, Nat.zero_add]
  cases cut with
  | false => rfl
  | true => rw [Bool.and_self, if_pos rfl, List.take_left, if_pos rfl, List.append_nil]

/-- The attributes without an entry hold the others. -/
theorem EaHeld.takenOut (held : EaHeld s (first ++ e :: second))
    (packed : info.eaLength = chainPacked (first ++ e :: second))
    (total : info.eaQueryLength = chainSize (first ++ e :: second)) (takesOut : TakesOut course) :
    ∃ infoBytes ea, ntfsWriteEa course.infoShrink s.info (shrunkInfo info e).bytes 0 false = (0, some infoBytes) ∧
      ntfsWriteEa course.eaShrink s.ea (chainBytes (first ++ second)) 0 true = (0, ea) ∧
      EaHeld { s with info := some infoBytes, ea := ea } (first ++ second) ∧
      (shrunkInfo info e).eaLength = chainPacked (first ++ second) ∧
      info.eaQueryLength - e.size = chainSize (first ++ second) := by
  obtain ⟨⟨cut, infoShrink⟩, cut', eaShrink⟩ := takesOut
  have short := held.short
  have small := chainPacked_lt short
  have whole : chainSize (first ++ e :: second) = chainSize (first ++ second) + e.size := by
    rw [chainSize_append, chainSize_cons, chainSize_append]
    omega
  have packedWhole : chainPacked (first ++ e :: second) =
      chainPacked (first ++ second) + eaPackedSize e.name.length e.value.length := by
    rw [chainPacked_append, chainPacked_cons, chainPacked_append]
    omega
  have left : info.eaQueryLength - e.size = chainSize (first ++ second) := by omega
  have packedLeft : (shrunkInfo info e).eaLength = chainPacked (first ++ second) := by
    simp only [shrunkInfo, subU16]
    omega
  have oldInfo := held.info
  cases stored : s.info with
  | none =>
    rw [stored] at oldInfo
    exact absurd oldInfo (List.append_ne_nil_of_right_ne_nil first (List.cons_ne_nil e second))
  | some old =>
    rw [stored] at oldInfo
    rcases held.ea with none | ⟨tail, ea, inside⟩
    · exact absurd none (List.append_ne_nil_of_right_ne_nil first (List.cons_ne_nil e second))
    have written := ntfsWriteEa_front cut' (chainBytes (first ++ e :: second) ++ tail) (chainBytes (first ++ second))
    refine ⟨_, _, by rw [infoShrink, ntfsWriteEa_info oldInfo.1], by rw [eaShrink, ea, written], ⟨held.linked.without,
      holdsInfo_bytes (by omega) packedLeft left, .inr ⟨_, rfl, ?_⟩⟩, packedLeft, left⟩
    rw [length_chainBytes]
    split
    · exact Nat.le_trans (Nat.le_of_eq (Nat.add_zero _)) (by omega)
    · rw [List.length_drop, List.length_append, length_chainBytes]
      omega

/-- A call that finds its name. -/
theorem ntfsSetEa_found (nameFits : ¬255 < call.name.length) (held : EaHeld s (first ++ e :: second))
    (named : e.name = call.name) (opened : EaOpened course s) :
    ∃ info : EaInformation, info.eaLength = chainPacked (first ++ e :: second) ∧
      info.eaQueryLength = chainSize (first ++ e :: second) ∧
      ntfsSetEa ad call course s = replaceEntry ad call course info first e second s := by
  obtain ⟨infoBytes, eaBuf, stored, ea, evaluated⟩ := @ntfsSetEa_opened ad call course s _ nameFits held.info opened
  have info := held.info
  rw [stored] at info
  obtain ⟨lookup, inside⟩ := held.lookup ea call.name
  refine ⟨EaInformation.read infoBytes, info.2.1, info.2.2, evaluated.trans ?_⟩
  rcases held.ea with none | ⟨tail, same, -⟩
  · exact absurd none (List.append_ne_nil_of_right_ne_nil first (List.cons_ne_nil e second))
  · have buf := ea.symm.trans same
    rw [Option.some.injEq, chainBytes_append, chainBytes_cons, List.append_assoc, List.append_assoc] at buf
    rw [setInReadEa, info.2.2, if_neg (by omega), lookup, entryPlace_split held.linked named, Nat.zero_add, buf]
    exact replaceFoundEa_eq tail info.2.2

theorem ntfsSetEa_absent {entries : List EaEntry} (nameFits : ¬255 < call.name.length) (held : EaHeld s entries)
    (absent : ∀ e ∈ entries, e.name ≠ call.name) (opened : EaOpened course s) :
    ∃ info : EaInformation, info.eaLength = chainPacked entries ∧
      ntfsSetEa ad call course s =
        if call.replace then setEaOut (chainSize entries) (-eaEnodata) none s
        else allocNewEa ad call course info (chainSize entries) s := by
  obtain ⟨infoBytes, eaBuf, stored, ea, evaluated⟩ := @ntfsSetEa_opened ad call course s _ nameFits held.info opened
  have info := held.info
  rw [stored] at info
  obtain ⟨lookup, inside⟩ := held.lookup ea call.name
  refine ⟨EaInformation.read infoBytes, info.2.1, evaluated.trans ?_⟩
  rw [setInReadEa, info.2.2, if_neg (by omega), lookup, entryPlace_none absent]

end Found

/-! ## One call and a run of calls -/

section Steps

variable {ad : Option EaAttrDef} {call : SetEaCall} {course : SetEaCourse} {s : EaStore} {entries : List EaEntry}

/-- What a call that keeps the map leaves. -/
def KeepsMap (call : SetEaCall) (ending : SetEaEnd) (map : EaMap) : Prop :=
  ∃ entries, EaRepresents ending.store entries ∧ valueOf entries = mapAfter call ending.code map

theorem KeepsMap.failed {ending : SetEaEnd} (failed : ending.code ≠ 0) (represents : EaRepresents ending.store entries) :
    KeepsMap call ending (valueOf entries) := ⟨entries, represents, (mapAfter_failed failed _).symm⟩

theorem KeepsMap.same {ending : SetEaEnd} (success : ending.code = 0) (represents : EaRepresents ending.store entries)
    (same : valueOf entries call.name = if call.removes then none else some call.value) :
    KeepsMap call ending (valueOf entries) := by
  refine ⟨entries, represents, ?_⟩
  rw [mapAfter_success success, ← same, Function.update_eq_self]

/-- A call that takes an entry out, up to the new one. -/
theorem replaceEntry_takesOut {first second : List EaEntry} {e : EaEntry} {info : EaInformation}
    (held : EaHeld s (first ++ e :: second)) (packed : info.eaLength = chainPacked (first ++ e :: second))
    (total : info.eaQueryLength = chainSize (first ++ e :: second)) (create : call.create = false)
    (differs : call.value = [] ∨ some e.value ≠ some call.value) (takesOut : TakesOut course) :
    ∃ (left : EaStore) (info' : EaInformation), EaHeld left (first ++ second) ∧ left.info ≠ none ∧
      info'.eaLength = chainPacked (first ++ second) ∧
      replaceEntry ad call course info first e second s =
        if call.removes then setEaOut (chainSize (first ++ second)) 0 none left
        else allocNewEa ad call course info' (chainSize (first ++ second)) left := by
  obtain ⟨infoBytes, ea, infoShrink, eaShrink, left, packedLeft, totalLeft⟩ := held.takenOut packed total takesOut
  refine ⟨_, shrunkInfo info e, left, by simp, packedLeft, ?_⟩
  have other : ¬(call.value ≠ [] ∧ e.value = call.value) := by
    rintro ⟨filled, same⟩
    exact differs.elim filled fun differ => differ (congrArg some same)
  unfold replaceEntry
  rw [create, if_neg Bool.false_ne_true, if_neg other, infoShrink]
  dsimp only
  rw [if_neg (by decide), eaShrink]
  dsimp only
  rw [if_neg (by decide), totalLeft]

/-- A name that has a value is found. -/
theorem opened_finds (nameFits : ¬255 < call.name.length) (held : EaHeld s entries)
    (present : valueOf entries call.name ≠ none) (opened : EaOpened course s) :
    ∃ first e second info, entries = first ++ e :: second ∧ e.name = call.name ∧
      valueOf entries call.name = some e.value ∧ othersOf entries call.name = first ++ second ∧
      info.eaLength = chainPacked entries ∧ info.eaQueryLength = chainSize entries ∧
      ntfsSetEa ad call course s = replaceEntry ad call course info first e second s := by
  obtain ⟨first, e, second, rfl, named⟩ := split_of_valueOf present
  obtain ⟨info, packed, total, evaluated⟩ := @ntfsSetEa_found ad call course s _ _ _ nameFits held named opened
  exact ⟨first, e, second, info, rfl, named, named ▸ valueOf_split held.linked, named ▸ othersOf_split held.linked,
    packed, total, evaluated⟩

/-- A sound call keeps the map. -/
theorem set_keeps (represents : EaRepresents s entries) (sound : SoundSet ad call course s entries) :
    KeepsMap call (ntfsSetEa ad call course s) (valueOf entries) := by
  by_cases nameFits : 255 < call.name.length
  · have evaluated : ntfsSetEa ad call course s = ⟨-eaEnametoolong, s, none⟩ := if_pos nameFits
    rw [evaluated]
    exact .failed (by decide : -eaEnametoolong ≠ 0) represents
  have held := represents.toEaHeld
  have linked := held.linked
  have noMemory : CreatesInfo course s → course.infoAllocated = false →
      KeepsMap call (ntfsSetEa ad call course s) (valueOf entries) := by
    intro creates noMemory
    have evaluated : createEaInfo ad call course s = ⟨-eaEnomem, s, none⟩ := by
      rw [createEaInfo, noMemory]
      rfl
    rw [ntfsSetEa_creates nameFits held.info creates, evaluated]
    exact .failed (by decide : -eaEnomem ≠ 0) represents
  cases sound with
  | tooLong long => exact absurd long nameFits
  | noInfoMemory creates none => exact noMemory creates none
  | notCreated empty creates fails =>
    cases allocated : course.infoAllocated with
    | false => exact noMemory creates allocated
    | true =>
      subst empty
      rw [ntfsSetEa_creates nameFits held.info creates]
      obtain ⟨failed, after⟩ := @createEaInfo_fails ad call course s held allocated fails
      exact .failed failed after
  | nothingRemoved empty present seen unread removes =>
    subst empty
    obtain ⟨old, stored⟩ := Option.ne_none_iff_exists'.mp present
    have evaluated : ntfsSetEa ad call course s = setEaOut 0 0 none s := by
      unfold ntfsSetEa
      rw [if_neg nameFits, stored, seen, unread]
      rfl
    rw [evaluated]
    refine .same rfl (held.out (absurd rfl) 0 none) ?_
    rw [removes]
    rfl
  | missing opened absent replace =>
    obtain ⟨info, packed, evaluated⟩ :=
      @ntfsSetEa_absent ad call course s _ nameFits held (absent_of_valueOf linked absent) opened
    rw [evaluated, if_pos replace]
    exact .failed (by decide : -eaEnodata ≠ 0) (held.out chainSize_pos _ _)
  | existing opened present create =>
    obtain ⟨first, e, second, info, rfl, -, -, -, -, total, evaluated⟩ := @opened_finds ad _ _ _ _ nameFits held present opened
    rw [evaluated, replaceEntry, if_pos create, total]
    exact .failed (by decide : -eaEexist ≠ 0) (held.out chainSize_pos _ _)
  | sameValue opened create filled same =>
    obtain ⟨first, e, second, info, rfl, -, value, -, -, total, evaluated⟩ :=
      @opened_finds ad _ _ _ _ nameFits held (by simp [same]) opened
    have unchanged : e.value = call.value := Option.some.inj (value.symm.trans same)
    have keeps : call.removes = false := by
      rw [SetEaCall.removes, List.isEmpty_eq_false_iff.mpr filled, Bool.and_false]
    rw [evaluated, replaceEntry, create, if_neg Bool.false_ne_true, if_pos ⟨filled, unchanged⟩, total]
    refine .same rfl (held.out chainSize_pos _ _) ?_
    rw [keeps, same]
    rfl
  | notStored opened absent replace fails =>
    obtain ⟨info, packed, evaluated⟩ :=
      @ntfsSetEa_absent ad call course s _ nameFits held (absent_of_valueOf linked absent) opened
    rw [evaluated, replace, if_neg Bool.false_ne_true]
    obtain ⟨failed, after⟩ := allocNewEa_fails held opened.present packed fails
    exact .failed failed after
  | notTakenOut opened present create differs kept code left failure holds =>
    obtain ⟨first, e, second, info, rfl, -, value, others, -, total, evaluated⟩ := @opened_finds ad _ _ _ _ nameFits held present opened
    obtain ⟨old, stored⟩ := Option.ne_none_iff_exists'.mp opened.present
    have other : ¬(call.value ≠ [] ∧ e.value = call.value) := by
      rintro ⟨filled, same⟩
      exact differs.elim filled fun differ => differ (value.trans (congrArg some same))
    rw [others] at kept
    have counted : 0 < info.eaQueryLength - e.size := by
      have positive := chainSize_pos kept
      rw [chainSize_append] at positive
      rw [total, chainSize_append, chainSize_cons]
      omega
    rw [evaluated, replaceEntry, create, if_neg Bool.false_ne_true, if_neg other, failure, stored, ntfsWriteEa_failed]
    dsimp only
    rw [if_pos code.ne_zero]
    have left : EaHeld { s with info := some left } (first ++ e :: second) := ⟨linked, holds, held.ea⟩
    exact .failed code.ne_zero (left.out (fun _ => counted) _ _)
  | removed opened present create removes takesOut =>
    obtain ⟨first, e, second, info, rfl, named, value, -, packed, total, evaluated⟩ := @opened_finds ad _ _ _ _ nameFits held present opened
    have differs : call.value = [] ∨ some e.value ≠ some call.value := by
      rw [SetEaCall.removes, Bool.and_eq_true, List.isEmpty_iff] at removes
      exact .inl removes.2
    obtain ⟨left, info', heldLeft, -, -, rest⟩ :=
      @replaceEntry_takesOut ad call course s _ _ _ _ held packed total create differs takesOut
    rw [evaluated, rest, if_pos removes]
    refine ⟨first ++ second, heldLeft.out chainSize_pos _ _, ?_⟩
    have success : (setEaOut (chainSize (first ++ second)) 0 none left).code = 0 := rfl
    rw [valueOf_without linked, named, mapAfter_success success, if_pos removes]
  | stored opened admitted create differs keeps takesOut succeeds =>
    by_cases present : valueOf entries call.name = none
    · have absent := absent_of_valueOf linked present
      obtain ⟨info, packed, evaluated⟩ := @ntfsSetEa_absent ad call course s _ nameFits held absent opened
      rw [othersOf_absent absent] at succeeds
      obtain ⟨success, after⟩ :=
        allocNewEa_stores (Nat.not_lt.mp nameFits) held opened.present packed absent succeeds
      rw [evaluated, admitted present, if_neg Bool.false_ne_true]
      refine ⟨_, after, ?_⟩
      rw [mapAfter_success success, keeps, if_neg Bool.false_ne_true]
      exact valueOf_added absent
    · obtain ⟨first, e, second, info, rfl, named, value, others, packed, total, evaluated⟩ :=
        @opened_finds ad _ _ _ _ nameFits held present opened
      obtain ⟨left, info', heldLeft, there, packedLeft, rest⟩ :=
        @replaceEntry_takesOut ad call course s _ _ _ _ held packed total (create present) (value ▸ differs)
          (takesOut present)
      rw [others] at succeeds
      have absent : ∀ f ∈ first ++ second, f.name ≠ call.name := fun f member =>
        named ▸ (List.mem_append.mp member).elim (before_other linked f) (behind_other linked f)
      obtain ⟨success, after⟩ :=
        allocNewEa_stores (Nat.not_lt.mp nameFits) heldLeft there packedLeft absent succeeds
      rw [evaluated, rest, keeps, if_neg Bool.false_ne_true]
      refine ⟨_, after, ?_⟩
      have added := @valueOf_added (first ++ second) (newEntry call (Nat.not_lt.mp nameFits) succeeds.valueFits) absent
      rw [mapAfter_success success, keeps, if_neg Bool.false_ne_true, added, valueOf_without linked, named]
      exact Function.update_idem ..

end Steps

/-- A run of calls, each on what the one before it has left, and the map that the calls record. Every
call is one that keeps the map. -/
inductive SoundRun (ad : Option EaAttrDef) (s : EaStore) (map : EaMap) : EaStore → EaMap → Prop where
  | start : SoundRun ad s map s map
  | call {s' : EaStore} {map' : EaMap} (before : SoundRun ad s map s' map') (call : SetEaCall)
      (course : SetEaCourse) (sound : ∃ entries, EaRepresents s' entries ∧ SoundSet ad call course s' entries) :
      SoundRun ad s map (ntfsSetEa ad call course s').store
        (mapAfter call (ntfsSetEa ad call course s').code map')

/-- What is asked of a store and the map that the calls have recorded: every name is answered with
its value, and the two lengths are those of the entries. -/
def IsEaMap (s : EaStore) (map : EaMap) : Prop :=
  (∀ name buffer, ntfsGetEa ⟨true, true⟩ s name buffer = eaAnswer (map name) buffer) ∧
    ∃ entries, EaRepresents s entries ∧ valueOf entries = map

theorem EaRepresents.isEaMap {s : EaStore} {entries : List EaEntry} (represents : EaRepresents s entries) :
    IsEaMap s (valueOf entries) := ⟨ntfsGetEa_represents represents, entries, represents, rfl⟩

/-- The store is a map along every run of calls that keep it: from any chain of entries on, what is
read is what the calls have recorded, and the lengths are those of the entries. -/
theorem map_along_run {ad : Option EaAttrDef} {s s' : EaStore} {map' : EaMap} (entries : List EaEntry)
    (represents : EaRepresents s entries) (run : SoundRun ad s (valueOf entries) s' map') : IsEaMap s' map' := by
  induction run with
  | start => exact represents.isEaMap
  | call before call course sound ih =>
    obtain ⟨entries', represents', sound⟩ := sound
    obtain ⟨-, known, knownRepresents, same⟩ := ih
    obtain ⟨after, afterRepresents, afterSame⟩ := set_keeps represents' sound
    rw [← same, ← valueOf_unique represents' knownRepresents, ← afterSame]
    exact afterRepresents.isEaMap

/-! ## A run and a value that is lost -/

/-- A course on which nothing fails. -/
def smoothSetEa : SetEaCourse where
  infoSeen := true
  infoRead := true
  eaRead := true
  infoAllocated := true
  infoAdd := none
  straySeen := true
  strayRemove := none
  infoShrink := .written true
  eaShrink := .written true
  entryAllocated := true
  eaSeen := true
  eaAdd := none
  eaWrite := .written true
  infoWrite := .written true

/-- An entry `a` with the value `x`. -/
def sampleEntry : EaEntry where
  flags := 0
  name := [97]
  terminator := 0
  value := [120]
  padding := [0]
  ends := false
  nameFits := by decide
  valueFits := by decide
  padded := by decide
  trimmed := fun ends => absurd ends (by decide)

/-- A store with this entry. -/
def sampleStore : EaStore := ⟨some (EaInformation.bytes ⟨7, 0, 12⟩), some sampleEntry.bytes, true⟩

theorem sampleStore_represents : EaRepresents sampleStore [sampleEntry] where
  linked := List.pairwise_singleton _ _
  info := holdsInfo_bytes (by decide) (by decide) (by decide)
  ea := .inr ⟨[], by decide, by decide⟩
  flag := fun _ => rfl

/-- A call that sets `b` to `yz`. -/
def sampleCall : SetEaCall := ⟨[98], [121, 122], false, false⟩

/-- A second value is set and both are read. -/
theorem map_along_sample_run :
    IsEaMap (ntfsSetEa (some ⟨0, 65536⟩) sampleCall smoothSetEa sampleStore).store
      (mapAfter sampleCall (ntfsSetEa (some ⟨0, 65536⟩) sampleCall smoothSetEa sampleStore).code
        (valueOf [sampleEntry])) :=
  map_along_run [sampleEntry] sampleStore_represents
    (.call .start sampleCall smoothSetEa ⟨[sampleEntry], sampleStore_represents,
      .stored ⟨by decide, rfl, rfl, by decide⟩ (fun _ => rfl) (fun present => absurd (by decide) present) (.inr (by decide))
        rfl (fun present => absurd (by decide) present)
        ⟨by decide, by decide, by decide, by decide, by decide, rfl, rfl, ⟨true, rfl⟩, ⟨true, rfl⟩⟩⟩)

/-- The first value of an inode is stored and not found: the call returns zero and clears the flag
without which nothing is read. -/
theorem first_value_lost : ¬∀ (ad : Option EaAttrDef) (call : SetEaCall) (course : SetEaCourse) (s : EaStore)
    (entries : List EaEntry), EaRepresents s entries →
      IsEaMap (ntfsSetEa ad call course s).store
        (mapAfter call (ntfsSetEa ad call course s).code (valueOf entries)) := by
  intro promise
  have fresh : EaRepresents ⟨none, none, false⟩ [] :=
    ⟨⟨List.Pairwise.nil, rfl, .inl rfl⟩, fun some => absurd rfl some⟩
  have answered := (promise (some ⟨0, 65536⟩) ⟨[97], [120], false, false⟩ smoothSetEa _ [] fresh).1 [97] none
  exact absurd answered (by decide)

end Ttntfs.Ntfs
