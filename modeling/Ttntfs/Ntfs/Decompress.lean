import Ttntfs.Library.BackReferences
import Ttntfs.Ntfs.MappingPairs

/-!
# Decompression

A compression block holds sub-blocks of at most 4096 bytes of a file each. A sub-block has a
header and is stored as it is or as groups of eight tokens behind a tag with a bit for each.
A phrase token has 16 bits, and how many of them are the distance depends on the position in
the sub-block. `ntfs_decompress` goes from sub-block to sub-block and fills the pages of the
destination; the second stage, which zeroes in the completed pages what is behind the
initialized size, is not part of it here.
-/

namespace Ttntfs.Ntfs

open Ttntfs.Library.ByteMemory
open Ttntfs.Library.BackReferences

/-- `NTFS_SB_SIZE` -/
def ntfsSbSize : Nat := 0x1000
/-- `NTFS_SB_SIZE_MASK` -/
def ntfsSbSizeMask : Nat := 0x0fff
/-- `NTFS_SB_IS_COMPRESSED` -/
def ntfsSbIsCompressed : Nat := 0x8000
/-- `PAGE_SIZE` -/
def pageSize : Nat := 4096

/-- The place in a sub-block: the position in the compression block, the page that is written
and the offset in it, which is that of `dp_addr` and `dest_ofs` both. -/
structure SubBlockPlace where
  cb : Nat
  page : Mem
  ofs : Nat

/-- The loop that counts `lg`. Its variable has 16 bits. -/
def countLg : Nat → Nat → Nat → Nat
  | 0, _, lg => lg
  | rounds + 1, i, lg => if i ≥ 0x10 then countLg rounds (i >>> 1) (lg + 1) else lg

/-- The copy of a phrase: what does not overlap at once, the rest byte by byte. -/
def copyPhrase (page : Mem) (dst src length : Nat) : Mem :=
  let maxNonOverlap := dst - src
  if length ≤ maxNonOverlap then copyRange page dst page src length
  else
    copyForward (length - maxNonOverlap) (copyRange page dst page src maxNonOverlap) (dst + maxNonOverlap)
      (src + maxNonOverlap)

/-- A phrase token, with no result for an overflow. -/
def decodePhrase (cb : Mem) (sbStart : Nat) (s : SubBlockPlace) : Option SubBlockPlace :=
  if s.ofs = sbStart then none
  else
    let lg := countLg 16 (s.ofs - sbStart - 1) 0
    let pt := getLE cb 2 s.cb
    let back := (pt >>> (12 - lg)) + 1
    if s.ofs < sbStart + back then none
    else
      let length := (pt &&& (0xfff >>> lg)) + 3
      if s.ofs + length > sbStart + ntfsSbSize then none
      else some ⟨s.cb + 2, copyPhrase s.page s.ofs (s.ofs - back) length, s.ofs + length⟩

/-- The loop over the tokens of a tag. -/
def decodeTokens (cb : Mem) (sbEnd sbStart : Nat) : Nat → Nat → SubBlockPlace → Option SubBlockPlace
  | 0, _, s => some s
  | tokens + 1, tag, s =>
    if s.cb ≥ sbEnd ∨ s.ofs > sbStart + ntfsSbSize then some s
    else if tag % 2 = 0 then
      decodeTokens cb sbEnd sbStart tokens (tag / 2)
        ⟨s.cb + 1, Function.update s.page s.ofs (cb s.cb), s.ofs + 1⟩
    else
      match decodePhrase cb sbStart s with
      | none => none
      | some s => decodeTokens cb sbEnd sbStart tokens (tag / 2) s

/-- The loop over the tags of a sub-block. -/
def decodeTags (cb : Mem) (sbEnd sbStart : Nat) : Nat → SubBlockPlace → Option SubBlockPlace
  | 0, _ => none
  | fuel + 1, s =>
    if s.cb = sbEnd then some s
    else if s.cb > sbEnd ∨ s.ofs > sbStart + ntfsSbSize then none
    else
      match decodeTokens cb sbEnd sbStart 8 (cb s.cb).toNat { s with cb := s.cb + 1 } with
      | none => none
      | some s => decodeTags cb sbEnd sbStart fuel s

/-- The end of a sub-block: zeroes where it is not of full length. -/
def fillSubBlock (sbStart : Nat) (s : SubBlockPlace) : SubBlockPlace :=
  if s.ofs < sbStart + ntfsSbSize then
    { s with
      page := fillRange s.page s.ofs (sbStart + ntfsSbSize - s.ofs) 0
      ofs := sbStart + ntfsSbSize }
  else s

/-- A sub-block behind its header, compressed or not. -/
def decodeSubBlock (cb : Mem) (start sbEnd header : Nat) (page : Mem) (ofs : Nat) : Option SubBlockPlace :=
  if header &&& ntfsSbIsCompressed = 0 then
    if sbEnd - (start + 2) ≠ ntfsSbSize then none
    else some ⟨sbEnd, copyRange page ofs cb (start + 2) ntfsSbSize, ofs + ntfsSbSize⟩
  else (decodeTags cb sbEnd ofs (sbEnd - start) ⟨start + 2, page, ofs⟩).map (fillSubBlock ofs)

/-- The destination: the pages, where the next byte goes, and the pages that are completed. -/
structure Destination where
  index : Nat
  ofs : Nat
  pages : Nat → Option Mem
  completed : List Nat

/-- What a round of the loop over the sub-blocks comes to: the result of `ntfs_decompress`, true for
success and false for `-EOVERFLOW`, or the next sub-block. -/
inductive DecompressStep where
  | returned (success : Bool) (d : Destination)
  | doNextSb (pos : Nat) (d : Destination)

/-- The destination behind a sub-block: the next offset in the page, or the next page if there is
one. -/
def Destination.advance (d : Destination) (maxIndex : Nat) (page : Option Mem) (ofs pos : Nat) : DecompressStep :=
  let pages := match page with
    | none => d.pages
    | some page => Function.update d.pages d.index (some page)
  if ofs % pageSize ≠ 0 then .doNextSb pos { d with pages := pages, ofs := ofs % pageSize }
  else
    let completed := if page.isSome then d.completed ++ [d.index] else d.completed
    let next : Destination := ⟨d.index + 1, 0, pages, completed⟩
    if d.index + 1 > maxIndex then .returned false next else .doNextSb pos next

/-- One round of the loop over the sub-blocks. What an abandoned sub-block has written is left out. -/
def decompressRound (cb : Mem) (cbEnd maxIndex maxOfs pos : Nat) (d : Destination) : DecompressStep :=
  let header := getLE cb 2 pos
  if pos = cbEnd ∨ header = 0 ∨ (d.index = maxIndex ∧ d.ofs = maxOfs) then .returned true d
  else if d.index = maxIndex ∧ d.ofs + ntfsSbSize > maxOfs then .returned false d
  else if pos + 6 > cbEnd then .returned false d
  else
    let sbEnd := pos + (header &&& ntfsSbSizeMask) + 3
    if sbEnd > cbEnd then .returned false d
    else
      match d.pages d.index with
      | none => d.advance maxIndex none (d.ofs + ntfsSbSize) sbEnd
      | some page =>
        match decodeSubBlock cb pos sbEnd header page d.ofs with
        | none => .returned false d
        | some s => d.advance maxIndex (some s.page) s.ofs s.cb

/-- The loop over the sub-blocks. -/
def decompressLoop (cb : Mem) (cbEnd maxIndex maxOfs : Nat) : Nat → Nat → Destination → Bool × Destination
  | 0, _, d => (false, d)
  | fuel + 1, pos, d =>
    match decompressRound cb cbEnd maxIndex maxOfs pos d with
    | .returned success d => (success, d)
    | .doNextSb pos d => decompressLoop cb cbEnd maxIndex maxOfs fuel pos d

/-- `ntfs_decompress` up to its second stage. -/
def ntfsDecompress (cb : Mem) (cbSize maxIndex maxOfs : Nat) (d : Destination) : Bool × Destination :=
  decompressLoop cb cbSize maxIndex maxOfs (cbSize + 1) 0 d

end Ttntfs.Ntfs
