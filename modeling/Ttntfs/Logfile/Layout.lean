import Ttntfs.Library.ByteMemory

/-!
# On-disk layout of the journal

Field offsets, sizes and marks of `logfile_layout.h`, and its unaligned
little-endian accessors. Values read from a buffer are natural numbers; a store
keeps the low bytes of its value, as the casts of the source do.
-/

namespace Ttntfs.Logfile

open Library.ByteMemory

/-- Unaligned 16-bit read. -/
abbrev lfGet16 (m : Mem) (off : Nat) : Nat := getLE m 2 off

/-- Unaligned 32-bit read. -/
abbrev lfGet32 (m : Mem) (off : Nat) : Nat := getLE m 4 off

/-- Unaligned 64-bit read. -/
abbrev lfGet64 (m : Mem) (off : Nat) : Nat := getLE m 8 off

/-- Unaligned 16-bit store. -/
abbrev lfPut16 (m : Mem) (off value : Nat) : Mem := putLE m 2 off value

/-- Unaligned 32-bit store. -/
abbrev lfPut32 (m : Mem) (off value : Nat) : Mem := putLE m 4 off value

/-- Unaligned 64-bit store. -/
abbrev lfPut64 (m : Mem) (off value : Nat) : Mem := putLE m 8 off value

/-! ## Restart tables -/

/-- `RT_ENTRY_SIZE` -/
def rtEntrySize : Nat := 0x00
/-- `RT_NUMBER_ENTRIES` -/
def rtNumberEntries : Nat := 0x02
/-- `RT_NUMBER_ALLOCATED` -/
def rtNumberAllocated : Nat := 0x04
/-- `RT_FREE_GOAL` -/
def rtFreeGoal : Nat := 0x0c
/-- `RT_FIRST_FREE` -/
def rtFirstFree : Nat := 0x10
/-- `RT_LAST_FREE` -/
def rtLastFree : Nat := 0x14
/-- `RT_HEADER_SIZE` -/
def rtHeaderSize : Nat := 0x18
/-- `RT_ENTRY_ALLOCATED`: the first word of an allocated entry. -/
def rtEntryAllocated : Nat := 0xffffffff

end Ttntfs.Logfile
