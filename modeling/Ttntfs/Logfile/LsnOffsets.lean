import Ttntfs.Logfile.PassesEnd

/-!
# Numbers and places

A log sequence number is an offset in units of eight bytes below a sequence number. How many bits
each part has follows from the file size that the restart page records, and every offset of the
file fits the bits left for it: places in the log are recovered from their numbers, and numbers
compare as their places do.
-/

namespace Ttntfs.Logfile

open Library.ByteMemory

/-- The file size that the restart page in use records. -/
def Handle.recordedSize (log : Handle) : Option Nat :=
  (log.curRst.bind (log.rst[·]?)).map fun found => lfGet64 found.page (raOf found.page + raFileSize)

/-- An aligned offset of a file, with a sequence number that its bits can hold. -/
structure Handle.Place (log : Handle) (fileSize : Nat) where
  vbo : Nat
  seq : Nat
  aligned : vbo % 8 = 0
  inside : vbo < fileSize
  representable : seq < 2 ^ log.seqNumBits

/-- The number of a place. -/
def Handle.Place.lsn {log : Handle} {fileSize : Nat} (p : log.Place fileSize) : Nat :=
  lfsVboToLsn log p.vbo p.seq

/-- One place comes before another: by the sequence number first, then by the offset. -/
def Handle.Place.Before {log : Handle} {fileSize : Nat} (p q : log.Place fileSize) : Prop :=
  p.seq < q.seq ∨ p.seq = q.seq ∧ p.vbo < q.vbo

theorem add_mul_lt_iff {low low' high high' base : Nat} (fits : low < base) (fits' : low' < base) :
    low + high * base < low' + high' * base ↔ high < high' ∨ high = high' ∧ low < low' := by
  rcases Nat.lt_trichotomy high high' with before | same | behind
  · have room : (high + 1) * base ≤ high' * base := Nat.mul_le_mul_right _ before
    rw [Nat.succ_mul] at room
    exact iff_of_true (by omega) (.inl before)
  · subst same
    constructor
    · exact fun less => .inr ⟨rfl, by omega⟩
    · rintro (impossible | ⟨-, less⟩)
      · exact absurd impossible (Nat.lt_irrefl _)
      · omega
  · have room : (high' + 1) * base ≤ high * base := Nat.mul_le_mul_right _ behind
    rw [Nat.succ_mul] at room
    exact iff_of_false (by omega) (by omega)

section Places

variable {log : Handle} {fileSize : Nat}

theorem Handle.Place.units (p : log.Place fileSize) (room : fileSize ≤ 2 ^ (log.fileDataBits + 3)) :
    p.vbo / 8 < 2 ^ log.fileDataBits := by
  rw [Nat.div_lt_iff_lt_mul (by decide), ← show 2 ^ 3 = 8 from rfl, ← Nat.pow_add]
  exact p.inside.trans_le room

theorem LogShape.lsn_eq (shape : LogShape log) (room : fileSize ≤ 2 ^ (log.fileDataBits + 3))
    (p : log.Place fileSize) : p.lsn = p.vbo / 8 + p.seq * 2 ^ log.fileDataBits := by
  rw [Handle.Place.lsn, lfsVboToLsn]
  refine Nat.mod_eq_of_lt ?_
  calc p.vbo / 8 + p.seq * 2 ^ log.fileDataBits
      < 2 ^ log.fileDataBits + p.seq * 2 ^ log.fileDataBits := Nat.add_lt_add_right (p.units room) _
    _ = (p.seq + 1) * 2 ^ log.fileDataBits := by rw [Nat.succ_mul, Nat.add_comm]
    _ ≤ 2 ^ log.seqNumBits * 2 ^ log.fileDataBits := Nat.mul_le_mul_right _ p.representable
    _ = 2 ^ 64 := shape.pow

theorem LogShape.lsnToVbo_lsn (shape : LogShape log) (room : fileSize ≤ 2 ^ (log.fileDataBits + 3))
    (small : fileSize ≤ 2 ^ 32) (p : log.Place fileSize) : lfsLsnToVbo log p.lsn = p.vbo := by
  rw [shape.lsnToVbo, shape.lsn_eq room, Nat.add_mul_mod_self_right, Nat.mod_eq_of_lt (p.units room),
    Nat.div_mul_cancel (Nat.dvd_of_mod_eq_zero p.aligned), Nat.mod_eq_of_lt (p.inside.trans_le small)]

theorem LogShape.lsnSeq_lsn (shape : LogShape log) (room : fileSize ≤ 2 ^ (log.fileDataBits + 3))
    (p : log.Place fileSize) : lfsLsnSeq log p.lsn = p.seq := by
  rw [lfsLsnSeq, shape.lsn_eq room, Nat.add_mul_div_right _ _ (Nat.two_pow_pos _),
    Nat.div_eq_of_lt (p.units room), Nat.zero_add]

theorem LogShape.lsn_lt_iff (shape : LogShape log) (room : fileSize ≤ 2 ^ (log.fileDataBits + 3))
    (p q : log.Place fileSize) : p.lsn < q.lsn ↔ p.Before q := by
  rw [shape.lsn_eq room, shape.lsn_eq room, add_mul_lt_iff (p.units room) (q.units room),
    Handle.Place.Before]
  have lower := p.aligned
  have upper := q.aligned
  have offsets : p.vbo / 8 < q.vbo / 8 ↔ p.vbo < q.vbo := by omega
  rw [offsets]

/-- The bits of the offsets are enough for the file size as it was before it was rounded down. -/
theorem LogShape.room (shape : LogShape log)
    (rounded : log.lSize = fileSize / log.pageSize * log.pageSize) :
    fileSize ≤ 2 ^ (log.fileDataBits + 3) := by
  obtain ⟨k, -, -, power⟩ := shape.pageSize
  have positive : 0 < log.pageSize := shape.positive
  have pages := shape.pages
  have offsets := shape.offsets
  have wide : k ≤ log.fileDataBits + 3 := by
    by_contra narrow
    have less : 2 ^ (log.fileDataBits + 3) ≤ 2 ^ k := Nat.pow_le_pow_right (by omega) (by omega)
    omega
  have whole : 2 ^ (log.fileDataBits + 3) = 2 ^ (log.fileDataBits + 3 - k) * log.pageSize := by
    rw [power, ← Nat.pow_add, Nat.sub_add_cancel wide]
  rw [whole] at offsets ⊢
  have fewer : fileSize / log.pageSize < 2 ^ (log.fileDataBits + 3 - k) :=
    Nat.lt_of_mul_lt_mul_right (rounded ▸ offsets)
  exact ((Nat.div_lt_iff_lt_mul positive).mp fewer).le

end Places

section Opened

variable {stray : Stray} {content : Mem} {ioSize : Nat} {log : Handle}

theorem ntfsLogfileOpen_recorded (isOpened : ntfsLogfileOpen stray content ioSize = some log)
    (area : log.ra.isSome) (supported : log.state ≠ .unsupported) :
    ∃ fileSize, log.recordedSize = some fileSize ∧ fileSize ≤ 2 ^ 32 ∧
      log.lSize = fileSize / log.pageSize * log.pageSize := by
  obtain ⟨page, slot, ready, done, -, curRst, rst, -, -, geometry, small⟩ :=
    ntfsLogfileOpen_accepted isOpened area supported
  have pageSize : log.pageSize = lfGet32 page.page rpLogPageSize := congrArg Geometry.pageSize geometry
  have lSize := congrArg Geometry.lSize geometry
  refine ⟨_, ?_, small.le, ?_⟩
  · rw [Handle.recordedSize, curRst, Option.bind_some, rst, Option.map_some]
  · rw [pageSize, ← Nat.mod_eq_of_lt small]
    exact lSize

/-- Places in the log and their numbers correspond, whatever file size the restart page in use
records: offset and sequence number are recovered, and numbers compare as places do. -/
theorem numbers_tell_places (isOpened : ntfsLogfileOpen stray content ioSize = some log)
    (area : log.ra.isSome) (supported : log.state ≠ .unsupported) :
    ∃ fileSize, log.recordedSize = some fileSize ∧ ∀ p q : log.Place fileSize,
      lfsLsnToVbo log p.lsn = p.vbo ∧ lfsLsnSeq log p.lsn = p.seq ∧ (p.lsn < q.lsn ↔ p.Before q) := by
  obtain ⟨shape, -⟩ := logShape_of_open isOpened area supported
  obtain ⟨fileSize, recorded, small, rounded⟩ := ntfsLogfileOpen_recorded isOpened area supported
  have room := shape.room rounded
  exact ⟨fileSize, recorded, fun p q =>
    ⟨shape.lsnToVbo_lsn room small p, shape.lsnSeq_lsn room p, shape.lsn_lt_iff room p q⟩⟩

end Opened

/-- In a log of 50 pages every place is recovered from its number. -/
theorem numbers_tell_places_fifty_pages : ∃ log,
    ntfsLogfileOpen zeroStray (restartedLog 0) 204800 = some log ∧ log.seqNumBits = 49 ∧
      ∃ fileSize, log.recordedSize = some fileSize ∧ ∀ p q : log.Place fileSize,
        lfsLsnToVbo log p.lsn = p.vbo ∧ lfsLsnSeq log p.lsn = p.seq ∧ (p.lsn < q.lsn ↔ p.Before q) := by
  have opens : (match ntfsLogfileOpen zeroStray (restartedLog 0) 204800 with
      | some log => log.ra.isSome && decide (log.state ≠ .unsupported) && decide (log.seqNumBits = 49)
      | none => false) = true := by
    decide +kernel
  split at opens
  · rename_i log isOpened
    simp only [Bool.and_eq_true, decide_eq_true_eq] at opens
    exact ⟨log, isOpened, opens.2, numbers_tell_places isOpened opens.1.1 opens.1.2⟩
  · cases opens

end Ttntfs.Logfile
