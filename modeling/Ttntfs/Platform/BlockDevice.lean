import Ttntfs.Library.BitMasks
import Ttntfs.Library.ByteMemory

/-!
# Writing to a block device

`ntfs_bdev_write` on a raw device. A request of whole blocks goes to the device as it is, in as
many pieces as the device takes. Any other one is made under the lock of the device: the blocks
that cover it are read into a buffer, the bytes are changed there, and the blocks are written
back.

A state has the contents of the device, the holder of the lock, and how far each call has come.
A step is one system call of one of the calls, or what it does on its own between two of them.
Opening and flushing a device stay outside.
-/

namespace Ttntfs.Platform

open Ttntfs.Library.BitMasks Ttntfs.Library.ByteMemory

/-- `IO_CHUNK` -/
def ioChunk : Nat := 2 ^ 30

/-- `round_down`, in 64 bits. -/
def roundDown (x y : Nat) : Nat := x &&& (2 ^ 64 - 1 - (y - 1))

/-- `round_up` -/
def roundUp (x y : Nat) : Nat := ((x - 1) ||| (y - 1)) + 1

/-- What a write reads of `struct ntfs_bdev` and `struct bdev_file`. The block size is a `u32`
that is never set to zero, and the offsets of the device are those of `off_t`. -/
structure BlockDevice where
  logicalBlockSize : Nat
  isDevice : Bool
  readOnly : Bool
  sizeBytes : Nat
  positive : 0 < logicalBlockSize
  word : logicalBlockSize < 2 ^ 32
  offsets : sizeBytes ≤ 2 ^ 63

/-- The arguments of a call of `ntfs_bdev_write`. -/
structure WriteCall where
  buf : Mem
  offset : Nat
  count : Nat

namespace WriteCall

/-- A byte that the call is to write. -/
def Covers (call : WriteCall) (byte : Nat) : Prop := call.offset ≤ byte ∧ byte < call.offset + call.count

instance (call : WriteCall) (byte : Nat) : Decidable (call.Covers byte) :=
  inferInstanceAs (Decidable (call.offset ≤ byte ∧ byte < call.offset + call.count))

/-- `aligned_req` -/
def aligned (dev : BlockDevice) (call : WriteCall) : Bool :=
  !dev.isDevice || call.count % dev.logicalBlockSize = 0 && call.offset % dev.logicalBlockSize = 0

/-- `start` of the covering blocks. -/
def start (dev : BlockDevice) (call : WriteCall) : Nat := roundDown call.offset dev.logicalBlockSize

/-- `len` of the covering blocks. -/
def len (dev : BlockDevice) (call : WriteCall) : Nat :=
  roundUp (call.offset + call.count) dev.logicalBlockSize - call.start dev

end WriteCall

/-- The errors of a write: those of its own checks, and those of a system call. -/
inductive BdevError where
  | erofs
  | eio
  | enomem
  | errno (code : Nat)

/-- How far a call has come. -/
inductive WritePhase where
  | called
  /-- In `do_pwrite` of the bytes of the caller. -/
  | writing (done : Nat)
  /-- At the lock, with a buffer for the covering blocks. -/
  | waiting
  /-- In `do_pread` of the covering blocks. -/
  | reading (done : Nat) (tmp : Mem)
  /-- In `do_pwrite` of the covering blocks. -/
  | rewriting (done : Nat) (tmp : Mem)
  | returned (result : Except BdevError Unit)

/-- `ntfs_bdev_write` and `file_pwrite` up to the first system call or the lock, by whether
`posix_memalign` has memory. -/
def enterWrite (dev : BlockDevice) (call : WriteCall) (memory : Bool) : WritePhase :=
  if call.count = 0 then .returned (.ok ())
  else if dev.readOnly then .returned (.error .erofs)
  else if dev.sizeBytes < call.offset || dev.sizeBytes - call.offset < call.count then .returned (.error .eio)
  else if call.aligned dev then .writing 0
  else if memory then .waiting
  else .returned (.error .enomem)

/-- The device and its calls. -/
structure DeviceState (Call : Type) where
  device : Mem
  rmwLock : Option Call
  phase : Call → WritePhase

/-- The next piece of a transfer of `do_pread` or `do_pwrite`: the system calls may transfer any
part of what is left, and no more than `IO_CHUNK`. -/
def PieceOf (done total n : Nat) : Prop := 0 < n ∧ n ≤ total - done ∧ n ≤ ioChunk

section Steps

variable {Call : Type} [DecidableEq Call]

/-- The call goes on to a phase. -/
def DeviceState.goto (s : DeviceState Call) (i : Call) (phase : WritePhase) : DeviceState Call :=
  { s with phase := Function.update s.phase i phase }

/-- The steps of the calls. A call that is interrupted tries again, which is no step. -/
inductive DeviceStep (dev : BlockDevice) (calls : Call → WriteCall) :
    DeviceState Call → DeviceState Call → Prop where
  /-- `posix_memalign` refuses an alignment that is no power of two. -/
  | enter (s : DeviceState Call) (i : Call) (memory : Bool) (now : s.phase i = .called)
      (power : memory = true → ∃ k, dev.logicalBlockSize = 2 ^ k) :
      DeviceStep dev calls s (s.goto i (enterWrite dev (calls i) memory))
  | write (s : DeviceState Call) (i : Call) (done n : Nat) (now : s.phase i = .writing done)
      (piece : PieceOf done (calls i).count n) :
      DeviceStep dev calls s
        { s.goto i (.writing (done + n)) with
          device := copyRange s.device ((calls i).offset + done) (calls i).buf done n }
  | written (s : DeviceState Call) (i : Call) (now : s.phase i = .writing (calls i).count) :
      DeviceStep dev calls s (s.goto i (.returned (.ok ())))
  | writeFails (s : DeviceState Call) (i : Call) (done : Nat) (error : BdevError) (now : s.phase i = .writing done)
      (left : done < (calls i).count) : DeviceStep dev calls s (s.goto i (.returned (.error error)))
  | lock (s : DeviceState Call) (i : Call) (tmp : Mem) (now : s.phase i = .waiting) (free : s.rmwLock = none) :
      DeviceStep dev calls s { s.goto i (.reading 0 tmp) with rmwLock := some i }
  | read (s : DeviceState Call) (i : Call) (done n : Nat) (tmp : Mem) (now : s.phase i = .reading done tmp)
      (piece : PieceOf done ((calls i).len dev) n) :
      DeviceStep dev calls s
        (s.goto i (.reading (done + n) (copyRange tmp done s.device ((calls i).start dev + done) n)))
  | change (s : DeviceState Call) (i : Call) (tmp : Mem) (now : s.phase i = .reading ((calls i).len dev) tmp) :
      DeviceStep dev calls s
        (s.goto i (.rewriting 0
          (copyRange tmp ((calls i).offset - (calls i).start dev) (calls i).buf 0 (calls i).count)))
  | rewrite (s : DeviceState Call) (i : Call) (done n : Nat) (tmp : Mem) (now : s.phase i = .rewriting done tmp)
      (piece : PieceOf done ((calls i).len dev) n) :
      DeviceStep dev calls s
        { s.goto i (.rewriting (done + n) tmp) with
          device := copyRange s.device ((calls i).start dev + done) tmp done n }
  | unlock (s : DeviceState Call) (i : Call) (tmp : Mem) (now : s.phase i = .rewriting ((calls i).len dev) tmp) :
      DeviceStep dev calls s { s.goto i (.returned (.ok ())) with rmwLock := none }
  | readFails (s : DeviceState Call) (i : Call) (done : Nat) (tmp : Mem) (error : BdevError)
      (now : s.phase i = .reading done tmp) (left : done < (calls i).len dev) :
      DeviceStep dev calls s { s.goto i (.returned (.error error)) with rmwLock := none }
  | rewriteFails (s : DeviceState Call) (i : Call) (done : Nat) (tmp : Mem) (error : BdevError)
      (now : s.phase i = .rewriting done tmp) (left : done < (calls i).len dev) :
      DeviceStep dev calls s { s.goto i (.returned (.error error)) with rmwLock := none }

/-- The calls have all been made, and the device has these contents. -/
def DeviceState.begun (device : Mem) : DeviceState Call := ⟨device, none, fun _ => .called⟩

end Steps

section Blocks

variable {dev : BlockDevice} {call other : WriteCall}

theorem roundDown_eq {x k : Nat} (word : x < 2 ^ 64) (small : k ≤ 64) :
    roundDown x (2 ^ k) = x / 2 ^ k * 2 ^ k := by
  refine and_high_eq word small ?_
  have := Nat.two_pow_pos k
  have := Nat.pow_le_pow_right (show 0 < 2 by decide) small
  omega

theorem roundUp_eq (x k : Nat) : roundUp x (2 ^ k) = ((x - 1) / 2 ^ k + 1) * 2 ^ k := by
  have := Nat.two_pow_pos k
  rw [roundUp, or_low_eq, Nat.add_one_mul]
  omega

/-- A call that waits for the lock: one that is not aligned, on a device of blocks of a power of
two, within the bounds. -/
structure SubBlock (dev : BlockDevice) (call : WriteCall) : Prop where
  unaligned : call.aligned dev = false
  some_byte : 0 < call.count
  inside : call.offset + call.count ≤ 2 ^ 63
  power : ∃ k, dev.logicalBlockSize = 2 ^ k

/-- The covering blocks begin at the block of the first byte and end with that of the last one. -/
theorem SubBlock.covering (sub : SubBlock dev call) :
    call.start dev = call.offset / dev.logicalBlockSize * dev.logicalBlockSize ∧
      call.start dev + call.len dev =
        ((call.offset + call.count - 1) / dev.logicalBlockSize + 1) * dev.logicalBlockSize := by
  obtain ⟨k, power⟩ := sub.power
  have word := dev.word
  have small : k < 32 := by
    rw [power] at word
    exact (Nat.pow_lt_pow_iff_right (by decide)).mp word
  have inside := sub.inside
  have start : call.start dev = call.offset / dev.logicalBlockSize * dev.logicalBlockSize := by
    rw [WriteCall.start, power]
    exact roundDown_eq (by omega) (by omega)
  have end' : roundUp (call.offset + call.count) dev.logicalBlockSize =
      ((call.offset + call.count - 1) / dev.logicalBlockSize + 1) * dev.logicalBlockSize := by
    rw [power, roundUp_eq]
  refine ⟨start, ?_⟩
  have some_byte := sub.some_byte
  have order : call.offset / dev.logicalBlockSize * dev.logicalBlockSize ≤
      ((call.offset + call.count - 1) / dev.logicalBlockSize + 1) * dev.logicalBlockSize :=
    Nat.mul_le_mul_right _ ((Nat.div_le_div_right (by omega)).trans (Nat.le_succ _))
  rw [WriteCall.len, end', start]
  omega

theorem SubBlock.around (sub : SubBlock dev call) :
    call.start dev ≤ call.offset ∧ call.offset + call.count ≤ call.start dev + call.len dev := by
  obtain ⟨start, last⟩ := sub.covering
  have below := Nat.div_mul_le_self call.offset dev.logicalBlockSize
  have above := Nat.lt_mul_div_succ (call.offset + call.count - 1) dev.positive
  have some_byte := sub.some_byte
  rw [Nat.mul_comm] at above
  rw [last, start]
  exact ⟨below, by omega⟩

/-- A byte of the covering blocks of one call that an aligned call is to write lies in a block
that both write a byte of. -/
theorem SubBlock.shared_byte {byte : Nat} (sub : SubBlock dev call)
    (aligned : other.aligned dev = true) (lower : call.start dev ≤ byte)
    (upper : byte < call.start dev + call.len dev) (covered : other.Covers byte) :
    ∃ shared, call.Covers shared ∧ other.Covers shared := by
  obtain ⟨start, last⟩ := sub.covering
  have positive := dev.positive
  obtain ⟨whole, place⟩ : other.count % dev.logicalBlockSize = 0 ∧ other.offset % dev.logicalBlockSize = 0 := by
    have raw := sub.unaligned
    unfold WriteCall.aligned at raw aligned
    cases isDevice : dev.isDevice with
    | false => simp [isDevice] at raw
    | true => simpa [isDevice] using aligned
  rw [last] at upper
  rw [start] at lower
  have some_byte := sub.some_byte
  generalize dev.logicalBlockSize = size at *
  obtain ⟨first, firstEq⟩ := Nat.dvd_of_mod_eq_zero place
  obtain ⟨blocks, blocksEq⟩ := Nat.dvd_of_mod_eq_zero whole
  obtain ⟨coveredLower, coveredUpper⟩ := covered
  rw [firstEq] at coveredLower coveredUpper
  rw [blocksEq, ← Nat.mul_add] at coveredUpper
  -- the block of the byte, which is one of those of the other call
  have after : first ≤ byte / size := by
    rw [Nat.le_div_iff_mul_le positive, Nat.mul_comm]
    exact coveredLower
  have before : byte / size < first + blocks := by
    rw [Nat.div_lt_iff_lt_mul positive, Nat.mul_comm]
    exact coveredUpper
  have fromFirst : call.offset / size ≤ byte / size := (Nat.le_div_iff_mul_le positive).mpr lower
  have toLast : byte / size ≤ (call.offset + call.count - 1) / size :=
    Nat.lt_succ_iff.mp ((Nat.div_lt_iff_lt_mul positive).mpr upper)
  have blockStart : size * first ≤ byte / size * size := by
    rw [Nat.mul_comm]
    exact Nat.mul_le_mul_right _ after
  have blockEnd : (byte / size + 1) * size ≤ size * (first + blocks) := by
    rw [Nat.mul_comm size]
    exact Nat.mul_le_mul_right _ before
  have startBefore : byte / size * size ≤ call.offset + call.count - 1 := (Nat.le_div_iff_mul_le positive).mp toLast
  have offsetBefore : call.offset < (byte / size + 1) * size :=
    (Nat.div_lt_iff_lt_mul positive).mp (Nat.lt_succ_iff.mpr fromFirst)
  have longer : byte / size * size < (byte / size + 1) * size :=
    Nat.mul_lt_mul_of_pos_right (Nat.lt_succ_self _) positive
  refine ⟨max call.offset (byte / size * size), ⟨Nat.le_max_left _ _, by omega⟩, by omega, ?_⟩
  rw [firstEq, blocksEq, ← Nat.mul_add]
  omega

end Blocks

end Ttntfs.Platform
