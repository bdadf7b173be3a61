import Ttntfs.Ntfs.EaChain

/-!
# The store of extended attributes as a map

The entries of `$EA` are a map from names to values. A call keeps it where it ends before its
first change, where it takes an entry out or where it puts a value behind entries that stay, of
which the last one leads on.
-/

namespace Ttntfs.Ntfs

open Library.ByteFields Library.ByteMemory

/-! ## What the two attributes hold -/

/-- `$EA_INFORMATION` has the two lengths of the entries; it may be missing where there are none. -/
def HoldsInfo (info : Option (List UInt8)) (entries : List EaEntry) : Prop :=
  match info with
  | none => entries = []
  | some v => v.length = eaInformationSize ∧ (EaInformation.read v).eaLength = chainPacked entries ∧
      (EaInformation.read v).eaQueryLength = chainSize entries

/-- `$EA` begins with the entries and can be read; nothing is asked of it where there are none. -/
def HoldsEa (ea : Option (List UInt8)) (entries : List EaEntry) : Prop :=
  entries = [] ∨ ∃ tail, ea = some (chainBytes entries ++ tail) ∧ chainSize entries + tail.length ≤ 64 * 1024

/-- The attributes hold the entries of a chain. -/
structure EaHeld (s : EaStore) (entries : List EaEntry) : Prop where
  linked : Linked entries
  info : HoldsInfo s.info entries
  ea : HoldsEa s.ea entries

/-- The store holds the entries of a chain, and the flag of the inode lets them be seen. -/
structure EaRepresents (s : EaStore) (entries : List EaEntry) : Prop extends EaHeld s entries where
  flag : entries ≠ [] → s.hasEa = true

/-- What `ntfs_get_ea` owes its caller. -/
def eaAnswer (value : Option (List UInt8)) (buffer : Option Nat) : Int × Option (List UInt8) :=
  match value, buffer with
  | none, _ => (-eaEnodata, none)
  | some v, none => (v.length, none)
  | some v, some size => if size < v.length then (-eaErange, none) else (v.length, some v)

theorem EaHeld.short {s : EaStore} {entries : List EaEntry} (held : EaHeld s entries) :
    chainSize entries ≤ 64 * 1024 := by
  rcases held.ea with none | ⟨tail, -, short⟩
  · rw [none]
    decide
  · omega

theorem EaHeld.lookup {s : EaStore} {entries : List EaEntry} (held : EaHeld s entries) {v : List UInt8}
    (ea : s.ea = some v) (name : List UInt8) :
    ntfsEaLookup v (chainSize entries) name = entryPlace name entries 0 ∧ chainSize entries ≤ v.length := by
  have short := held.short
  rcases held.ea with none | ⟨tail, same, -⟩
  · subst none
    exact ⟨if_pos (by decide), Nat.zero_le _⟩
  · rw [ea, Option.some.injEq] at same
    subst same
    refine ⟨ntfsEaLookup_chain name tail held.linked (by omega), ?_⟩
    rw [List.length_append, length_chainBytes]
    omega

theorem readall_short {v : List UInt8} (short : v.length ≤ 64 * 1024) : ntfsAttrReadall true (some v) = some v := by
  rw [ntfsAttrReadall, Bool.true_and, if_pos (decide_eq_true short)]

theorem stored_of_readall {read : Bool} {stored : Option (List UInt8)} {v : List UInt8}
    (success : ntfsAttrReadall read stored = some v) : stored = some v := by
  cases stored with
  | none => exact absurd success (by simp [ntfsAttrReadall])
  | some old =>
    rw [ntfsAttrReadall] at success
    split at success
    · exact success
    · exact absurd success (by simp)

/-- Reading gives the value of the name, whatever the buffer. -/
theorem ntfsGetEa_represents {s : EaStore} {entries : List EaEntry} (represents : EaRepresents s entries)
    (name : List UInt8) (buffer : Option Nat) :
    ntfsGetEa ⟨true, true⟩ s name buffer = eaAnswer (valueOf entries name) buffer := by
  have nothing : entries = [] → eaAnswer (valueOf entries name) buffer = (-eaEnodata, none) := by
    rintro rfl
    rfl
  unfold ntfsGetEa
  cases flag : s.hasEa with
  | false =>
    refine (nothing ?_).symm
    by_contra some
    exact absurd (represents.flag some) (by rw [flag]; decide)
  | true =>
    rw [if_neg (by decide)]
    have info := represents.info
    cases stored : s.info with
    | none =>
      rw [stored] at info
      exact (nothing info).symm
    | some infoBytes =>
      rw [stored] at info
      obtain ⟨length, -, total⟩ := info
      rw [readall_short (by rw [length]; decide)]
      dsimp only
      rw [if_neg (not_not.mpr length), total]
      cases read : ntfsAttrReadall true s.ea with
      | none =>
        rcases represents.ea with none | ⟨tail, same, short⟩
        · exact (nothing none).symm
        · rw [same, readall_short (by rw [List.length_append, length_chainBytes]; exact short)] at read
          exact absurd read (by simp)
      | some eaBuf =>
        obtain ⟨lookup, inside⟩ := represents.toEaHeld.lookup (stored_of_readall read) name
        dsimp only
        rw [if_neg (by omega), lookup]
        rcases entry_or_none entries name with absent | ⟨first, e, second, rfl, rfl⟩
        · rw [entryPlace_none absent, valueOf_none absent]
          rfl
        rw [entryPlace_split represents.linked rfl, valueOf_split represents.linked]
        rcases represents.ea with none | ⟨tail, same, short⟩
        · exact absurd none (by simp)
        · have buf := (stored_of_readall read).symm.trans same
          rw [Option.some.injEq, chainBytes_append, chainBytes_cons, List.append_assoc, List.append_assoc] at buf
          subst buf
          dsimp only
          rw [Nat.zero_add, ← length_chainBytes, e.nameLength_read, e.valueLength_read, e.value_read]
          cases buffer <;> rfl

theorem eaAnswer_injective {value other : Option (List UInt8)}
    (same : ∀ buffer, eaAnswer value buffer = eaAnswer other buffer) : value = other := by
  have noBuffer := same none
  cases value with
  | none =>
    cases other with
    | none => rfl
    | some w =>
      have length : -eaEnodata = (w.length : Int) := congrArg Prod.fst noBuffer
      simp only [eaEnodata] at length
      omega
  | some v =>
    cases other with
    | none =>
      have length : (v.length : Int) = -eaEnodata := congrArg Prod.fst noBuffer
      simp only [eaEnodata] at length
      omega
    | some w =>
      have length : (v.length : Int) = w.length := congrArg Prod.fst noBuffer
      have copied := congrArg Prod.snd (same (some v.length))
      rw [eaAnswer, eaAnswer, if_neg (Nat.lt_irrefl _), if_neg (by omega)] at copied
      exact copied

theorem valueOf_unique {s : EaStore} {entries others : List EaEntry} (one : EaRepresents s entries)
    (other : EaRepresents s others) : valueOf entries = valueOf others :=
  funext fun name => eaAnswer_injective fun buffer =>
    (ntfsGetEa_represents one name buffer).symm.trans (ntfsGetEa_represents other name buffer)

/-! ## Writing the information -/

@[simp] theorem EaInformation.length_bytes (info : EaInformation) : info.bytes.length = eaInformationSize := by
  simp only [bytes, List.length_append, length_leBytes, eaInformationSize]

theorem EaInformation.read_bytes (info : EaInformation) :
    (read info.bytes).eaLength = info.eaLength % 2 ^ 16 ∧
      (read info.bytes).eaQueryLength = info.eaQueryLength % 2 ^ 32 := by
  have query := (fieldAt_skip 2 info.eaLength (leBytes 2 info.needEaCount ++ leBytes 4 info.eaQueryLength) 4 2).trans
    (fieldAt_skip 2 info.needEaCount (leBytes 4 info.eaQueryLength) 4 0)
  have last := fieldAt_leBytes 4 info.eaQueryLength []
  rw [List.append_nil] at last
  exact ⟨fieldAt_leBytes 2 info.eaLength _, query.trans last⟩

theorem holdsInfo_bytes {info : EaInformation} {entries : List EaEntry} (short : chainSize entries ≤ 64 * 1024)
    (packed : info.eaLength = chainPacked entries) (total : info.eaQueryLength = chainSize entries) :
    HoldsInfo (some info.bytes) entries := by
  have small := chainPacked_lt short
  obtain ⟨length, query⟩ := info.read_bytes
  refine ⟨info.length_bytes, ?_, ?_⟩
  · rw [length, packed, Nat.mod_eq_of_lt small]
  · rw [query, total, Nat.mod_eq_of_lt (by omega)]

theorem ntfsWriteEa_info {old : List UInt8} (length : old.length = eaInformationSize) (cut : Bool)
    (info : EaInformation) :
    ntfsWriteEa (.written cut) (some old) info.bytes 0 false = (0, some info.bytes) := by
  have behind : old.drop (0 + info.bytes.length) = [] :=
    List.drop_of_length_le (by rw [info.length_bytes, length, Nat.zero_add])
  rw [ntfsWriteEa, eaWritten, behind, List.take_zero, List.nil_append, List.append_nil]
  rfl

theorem EaHeld.out {s : EaStore} {entries : List EaEntry} (held : EaHeld s entries) {eaInfoQsize : Nat}
    (counted : entries ≠ [] → 0 < eaInfoQsize) (code : Int) (packedEaSize : Option Nat) :
    EaRepresents (setEaOut eaInfoQsize code packedEaSize s).store entries :=
  ⟨⟨held.linked, held.info, held.ea⟩, fun some => decide_eq_true (counted some)⟩

/-! ## A new entry -/

/-- The entry that a call adds. -/
def newEntry (call : SetEaCall) (nameFits : call.name.length ≤ 255) (valueFits : call.value.length < 2 ^ 16) :
    EaEntry where
  flags := 0
  name := call.name
  terminator := 0
  value := call.value
  padding := List.replicate (eaEntrySize call.name.length call.value.length -
    (eaAttrSize + (1 + call.name.length + call.value.length))) 0
  ends := false
  nameFits := nameFits
  valueFits := valueFits
  padded := by
    rw [List.length_replicate]
    omega
  trimmed := fun ends => absurd ends (by decide)

theorem le_eaEntrySize (nameLength valueLength : Nat) :
    eaAttrSize + (1 + nameLength + valueLength) ≤ eaEntrySize nameLength valueLength := by
  simp only [eaEntrySize, alignFour]
  omega

section NewEntry

variable {call : SetEaCall} (nameFits : call.name.length ≤ 255) (valueFits : call.value.length < 2 ^ 16)

theorem newEntry_size : (newEntry call nameFits valueFits).size = eaEntrySize call.name.length call.value.length := by
  have room := le_eaEntrySize call.name.length call.value.length
  rw [EaEntry.size]
  simp only [newEntry, List.length_replicate]
  omega

theorem newEntry_bytes : (newEntry call nameFits valueFits).bytes = newEaBytes call := by
  have next : (newEntry call nameFits valueFits).next = eaEntrySize call.name.length call.value.length :=
    newEntry_size nameFits valueFits
  rw [EaEntry.bytes, next]
  rfl

end NewEntry

/-- What a new entry needs for it to be seen behind the others. -/
structure NewEaSucceeds (ad : Option EaAttrDef) (call : SetEaCall) (course : SetEaCourse)
    (others : List EaEntry) : Prop where
  /-- there are others -/
  kept : others ≠ []
  /-- the last of them has an offset to the next -/
  lead : ∀ e ∈ others, e.ends = false
  valueFits : call.value.length < 2 ^ 16
  /-- the entries can be read afterwards -/
  short : chainSize others + eaEntrySize call.name.length call.value.length ≤ 64 * 1024
  bounds : ntfsAttrSizeBoundsCheck ad (eaEntrySize call.name.length call.value.length) = 0
  allocated : course.entryAllocated = true
  seen : course.eaSeen = true
  written : ∃ cut, course.eaWrite = .written cut
  counted : ∃ cut, course.infoWrite = .written cut

theorem ntfsWriteEa_behind (entries : List EaEntry) (tail bytes : List UInt8) (cut : Bool) :
    ntfsWriteEa (.written cut) (some (chainBytes entries ++ tail)) bytes (chainSize entries) false =
      (0, some (chainBytes entries ++ (bytes ++ tail.drop bytes.length))) := by
  rw [ntfsWriteEa, eaWritten, ← length_chainBytes, List.take_left, ← List.drop_drop, List.drop_left]
  rfl

/-- The label `alloc_new_ea` where the new entry is seen behind the others. -/
theorem allocNewEa_stores {ad : Option EaAttrDef} {call : SetEaCall} {course : SetEaCourse} {s : EaStore}
    {others : List EaEntry} {info : EaInformation} (nameFits : call.name.length ≤ 255) (held : EaHeld s others)
    (present : s.info ≠ none) (packed : info.eaLength = chainPacked others)
    (absent : ∀ e ∈ others, e.name ≠ call.name) (succeeds : NewEaSucceeds ad call course others) :
    (allocNewEa ad call course info (chainSize others) s).code = 0 ∧
      EaRepresents (allocNewEa ad call course info (chainSize others) s).store
        (others ++ [newEntry call nameFits succeeds.valueFits]) := by
  obtain ⟨kept, lead, valueFits, short, bounds, allocated, seen, ⟨cut, written⟩, cut', counted⟩ := succeeds
  obtain ⟨old, stored⟩ := Option.ne_none_iff_exists'.mp present
  have oldInfo := held.info
  rw [stored] at oldInfo
  rcases held.ea with none | ⟨tail, ea, inside⟩
  · exact absurd none kept
  have total : chainSize (others ++ [newEntry call nameFits valueFits]) =
      chainSize others + eaEntrySize call.name.length call.value.length := by
    rw [chainSize_append, chainSize_cons, chainSize_nil, newEntry_size, Nat.add_zero]
  have packedTotal : chainPacked (others ++ [newEntry call nameFits valueFits]) =
      chainPacked others + eaPackedSize call.name.length call.value.length := chainPacked_append ..
  have small : chainPacked (others ++ [newEntry call nameFits valueFits]) < 2 ^ 16 :=
    chainPacked_lt (by rw [total]; exact short)
  rw [packedTotal] at small
  have admitted : ¬(0xffff < info.eaLength + eaPackedSize call.name.length (call.value.length % 2 ^ 16) ∨
      ntfsAttrSizeBoundsCheck ad (eaEntrySize call.name.length call.value.length) ≠ 0) := by
    rw [packed, Nat.mod_eq_of_lt valueFits, bounds]
    omega
  have evaluated : allocNewEa ad call course info (chainSize others) s =
      setEaOut (chainSize others) 0
        (some ((info.eaLength + eaPackedSize call.name.length (call.value.length % 2 ^ 16)) % 2 ^ 16))
        { s with
          ea := some (chainBytes others ++ (newEaBytes call ++ tail.drop (newEaBytes call).length))
          info := some (EaInformation.bytes
            { info with
              eaLength := (info.eaLength + eaPackedSize call.name.length (call.value.length % 2 ^ 16)) % 2 ^ 16
              eaQueryLength := (chainSize others + eaEntrySize call.name.length call.value.length) % 2 ^ 32 }) } := by
    unfold allocNewEa
    rw [allocated, if_neg (by decide)]
    dsimp only
    rw [if_neg admitted, ea, seen, written, Option.isSome_some, Bool.and_self, if_pos rfl, ntfsWriteEa_behind]
    dsimp only
    rw [if_neg (by decide), stored, counted, ntfsWriteEa_info oldInfo.1]
    rfl
  rw [evaluated]
  refine ⟨rfl, EaHeld.out ⟨held.linked.added lead absent, ?_, .inr ⟨tail.drop (newEaBytes call).length, ?_, ?_⟩⟩
    (fun _ => chainSize_pos kept) _ _⟩
  · refine holdsInfo_bytes (by rw [total]; exact short) ?_ ?_
    · rw [packedTotal, packed, Nat.mod_eq_of_lt valueFits, Nat.mod_eq_of_lt small]
    · rw [total]
      exact Nat.mod_eq_of_lt (by omega)
  · rw [chainBytes_append, chainBytes_cons, chainBytes_nil, List.append_nil, newEntry_bytes, List.append_assoc]
  · rw [total, List.length_drop, ← newEntry_bytes nameFits valueFits, EaEntry.length_bytes, newEntry_size]
    omega

/-- How a call fails at the new entry and leaves the entries as they were. -/
inductive NewEaFails (ad : Option EaAttrDef) (call : SetEaCall) (course : SetEaCourse) (s : EaStore)
    (entries : List EaEntry) : Prop where
  | noMemory (allocated : course.entryAllocated = false)
  /-- the length does not fit into the field of the packed one, or the volume does not allow it -/
  | tooBig (exceeds : 0xffff < chainPacked entries + eaPackedSize call.name.length (call.value.length % 2 ^ 16) ∨
      ntfsAttrSizeBoundsCheck ad (eaEntrySize call.name.length call.value.length) ≠ 0)
  /-- an `$EA` that is there is not seen and cannot be added -/
  | unseen (present : s.ea ≠ none) (unseen : course.eaSeen = false)
  | notAdded (none : s.ea = none) (code : FailureCode) (left : Option (List UInt8))
      (failure : course.eaAdd = some (code, left))
  /-- the write of `$EA` fails and leaves the entries -/
  | notWritten (present : s.ea ≠ none) (seen : course.eaSeen = true) (code : FailureCode) (left : List UInt8)
      (failure : course.eaWrite = .failed code left) (holds : HoldsEa (some left) entries)
  /-- the write of `$EA_INFORMATION` fails and leaves the lengths -/
  | notCounted (code : FailureCode) (left : List UInt8) (failure : course.infoWrite = .failed code left)
      (holds : HoldsInfo (some left) entries)
      (stored : (s.ea = none ∧ course.eaAdd = none) ∨
        (s.ea ≠ none ∧ course.eaSeen = true ∧ ∃ cut, course.eaWrite = .written cut))
      (short : entries = [] ∨ chainSize entries + eaEntrySize call.name.length call.value.length ≤ 64 * 1024)

theorem HoldsEa.behind {stored : Option (List UInt8)} {entries : List EaEntry} (holds : HoldsEa stored entries)
    {old : List UInt8} (present : stored = some old) (bytes : List UInt8) (cut : Bool)
    (short : entries = [] ∨ chainSize entries + bytes.length ≤ 64 * 1024) :
    ∃ ea, ntfsWriteEa (.written cut) stored bytes (chainSize entries) false = (0, ea) ∧ HoldsEa ea entries := by
  rcases holds with none | ⟨tail, same, inside⟩
  · rw [present]
    exact ⟨_, rfl, .inl none⟩
  · rw [same, ntfsWriteEa_behind]
    refine ⟨_, rfl, short.imp_right fun short => ⟨bytes ++ tail.drop bytes.length, rfl, ?_⟩⟩
    rw [List.length_append, List.length_drop]
    omega

theorem ntfsWriteEa_failed (code : FailureCode) (left old bytes : List UInt8) (off : Nat) (needTruncate : Bool) :
    ntfsWriteEa (.failed code left) (some old) bytes off needTruncate = (code.val, some left) := rfl

theorem addEaAttribute_failed (code : FailureCode) (left : Option (List UInt8)) (bytes : List UInt8) :
    addEaAttribute (some (code, left)) none bytes = (code.val, left) := rfl

theorem addEaAttribute_added (bytes : List UInt8) : addEaAttribute none none bytes = (0, some bytes) := rfl

theorem addEaAttribute_there (failure : EaChangeFailure) (old bytes : List UInt8) :
    addEaAttribute failure (some old) bytes = (-eaEexist, some old) := rfl

theorem FailureCode.ne_zero (code : FailureCode) : code.val ≠ 0 := Int.ne_of_lt code.2

theorem length_newEaBytes (call : SetEaCall) :
    (newEaBytes call).length = eaEntrySize call.name.length call.value.length := by
  have room := le_eaEntrySize call.name.length call.value.length
  simp only [newEaBytes, List.length_append, length_leBytes, List.length_cons, List.length_replicate, eaAttrSize] at room ⊢
  omega

/-- The label `alloc_new_ea` where the call fails and leaves the entries. -/
theorem allocNewEa_fails {ad : Option EaAttrDef} {call : SetEaCall} {course : SetEaCourse} {s : EaStore}
    {entries : List EaEntry} {info : EaInformation} (held : EaHeld s entries) (present : s.info ≠ none)
    (packed : info.eaLength = chainPacked entries) (fails : NewEaFails ad call course s entries) :
    (allocNewEa ad call course info (chainSize entries) s).code ≠ 0 ∧
      EaRepresents (allocNewEa ad call course info (chainSize entries) s).store entries := by
  have ended : ∀ (ea infoBytes : Option (List UInt8)) (code : Int), HoldsEa ea entries → HoldsInfo infoBytes entries →
      code ≠ 0 → (setEaOut (chainSize entries) code none { s with ea := ea, info := infoBytes }).code ≠ 0 ∧
        EaRepresents (setEaOut (chainSize entries) code none { s with ea := ea, info := infoBytes }).store entries :=
    fun ea infoBytes code holdsEa holdsInfo failed =>
      ⟨failed, EaHeld.out ⟨held.linked, holdsInfo, holdsEa⟩ chainSize_pos code none⟩
  obtain ⟨old, stored⟩ := Option.ne_none_iff_exists'.mp present
  unfold allocNewEa
  rw [packed]
  cases allocated : course.entryAllocated with
  | false => exact ended s.ea s.info _ held.ea held.info (by decide)
  | true =>
    rw [if_neg (by decide)]
    dsimp only
    by_cases exceeds : 0xffff < chainPacked entries + eaPackedSize call.name.length (call.value.length % 2 ^ 16) ∨
        ntfsAttrSizeBoundsCheck ad (eaEntrySize call.name.length call.value.length) ≠ 0
    · rw [if_pos exceeds]
      exact ended s.ea s.info _ held.ea held.info (by decide)
    · rw [if_neg exceeds]
      cases fails with
      | noMemory none => exact absurd (allocated.symm.trans none) (by decide)
      | tooBig tooBig => exact absurd tooBig exceeds
      | unseen there unseen =>
        obtain ⟨v, ea⟩ := Option.ne_none_iff_exists'.mp there
        rw [unseen, Bool.and_false, if_neg Bool.false_ne_true, ea, addEaAttribute_there]
        dsimp only
        rw [if_pos (by decide)]
        exact ended (some v) s.info _ (ea ▸ held.ea) held.info (by decide)
      | notAdded none code left failure =>
        rw [none, Option.isSome_none, Bool.false_and, if_neg Bool.false_ne_true, failure,
          addEaAttribute_failed]
        have empty : entries = [] := (none ▸ held.ea).resolve_right fun ⟨_, same, _⟩ => by simp at same
        dsimp only
        rw [if_pos code.ne_zero]
        exact ended left s.info _ (.inl empty) held.info code.ne_zero
      | notWritten there seen code left failure holds =>
        obtain ⟨v, ea⟩ := Option.ne_none_iff_exists'.mp there
        rw [ea, seen, Option.isSome_some, Bool.and_self, if_pos rfl, failure, ntfsWriteEa_failed]
        dsimp only
        rw [if_pos code.ne_zero]
        exact ended (some left) s.info _ holds held.info code.ne_zero
      | notCounted code left failure holds written short =>
        rw [stored, failure, ntfsWriteEa_failed]
        rcases written with ⟨none, added⟩ | ⟨there, seen, cut, written⟩
        · have empty : entries = [] := (none ▸ held.ea).resolve_right fun ⟨_, same, _⟩ => by simp at same
          rw [none, added, Option.isSome_none, Bool.false_and, if_neg Bool.false_ne_true,
            addEaAttribute_added]
          dsimp only
          rw [if_neg (by decide), if_pos code.ne_zero]
          exact ended _ (some left) _ (.inl empty) holds code.ne_zero
        · obtain ⟨v, ea⟩ := Option.ne_none_iff_exists'.mp there
          rw [← length_newEaBytes] at short
          obtain ⟨after, evaluated, kept⟩ := held.ea.behind ea (newEaBytes call) cut short
          rw [seen, written, Option.isSome_iff_ne_none.mpr there, Bool.and_self, if_pos rfl, evaluated]
          dsimp only
          rw [if_neg (by decide), if_pos code.ne_zero]
          exact ended after (some left) _ kept holds code.ne_zero

end Ttntfs.Ntfs
