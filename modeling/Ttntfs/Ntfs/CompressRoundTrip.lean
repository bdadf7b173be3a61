import Mathlib.Data.List.GetD
import Ttntfs.Ntfs.CompressBlock

/-!
# Compression round trips

The sub-block that `ntfs_compress_block` makes of a block, in whichever form, is read back by
the loop over the sub-blocks of `ntfs_decompress`: the bytes of the block, and zeroes behind
them up to the size of a sub-block. A row of sub-blocks with a zero header behind it fills
one page after the other.
-/

namespace Ttntfs.Ntfs

open Ttntfs.Library.ByteMemory
open Ttntfs.Library.BackReferences

/-- The bytes of a block, and zeroes behind them. -/
def blockText (block : List UInt8) : Mem := fun k => block.getD k 0

/-- The bytes of the sub-block of a block, made in some buffer. -/
def subBlockBytes (outbuf : Mem) (block : List UInt8) : List UInt8 :=
  let made := ntfsCompressBlock (blockText block) block.length outbuf
  (List.range made.2).map made.1

/-- Bytes in a memory from a position on. -/
def HoldsBytes (cb : Mem) (pos : Nat) (bytes : List UInt8) : Prop :=
  ∀ k < bytes.length, cb (pos + k) = bytes.getD k 0

/-- The bytes of a page. -/
def pageBytes (page : Mem) : List UInt8 := (List.range pageSize).map page

/-- A block with zeroes behind it up to the size of a sub-block. -/
def padded (block : List UInt8) : List UInt8 := block ++ List.replicate (ntfsSbSize - block.length) 0

/-- What has been decompressed into a number of pages. -/
def decompressed (d : Destination) (first n : Nat) : List UInt8 :=
  (List.range n).flatMap fun k => ((d.pages (first + k)).map pageBytes).getD []

/-- A sub-block in a buffer that is read as a text, wherever it is put. -/
structure ReadsAs (sub : Mem) (size : Nat) (text : Mem) : Prop where
  small : 4 ≤ size ∧ size ≤ ntfsSbSize + 2
  header : getLE sub 2 0 ≠ 0 ∧ (getLE sub 2 0 &&& ntfsSbSizeMask) + 3 = size
  reads : ∀ cb pos page, (∀ k < size, cb (pos + k) = sub k) →
    ∃ page', decodeSubBlock cb pos (pos + size) (getLE sub 2 0) page 0 = some ⟨pos + size, page', ntfsSbSize⟩ ∧
      Agrees page' 0 text ntfsSbSize

section SubBlock

variable {block : List UInt8} {outbuf cb : Mem}

theorem compressed_header (m : Mem) {n : Nat} (small : n < 4096) :
    let sub := Function.update (Function.update m 0 (UInt8.ofNat (n &&& 255))) 1
      (UInt8.ofNat (0xb0 + ((n >>> 8) &&& 15)))
    getLE sub 2 0 = 0xb000 + n := by
  intro sub
  have low : n &&& 255 = n % 256 := Nat.and_two_pow_sub_one_eq_mod n 8
  have high : (n >>> 8) &&& 15 = n / 256 % 16 := by
    rw [Nat.shiftRight_eq_div_pow]
    exact Nat.and_two_pow_sub_one_eq_mod _ 4
  have first : sub 0 = UInt8.ofNat (n % 256) := by
    simp only [sub, low]
    rw [Function.update_of_ne (by decide), Function.update_self]
  have second : sub 1 = UInt8.ofNat (0xb0 + n / 256 % 16) := by
    simp only [sub, high]
    rw [Function.update_self]
  simp only [getLE, first, second, UInt8.toNat_ofNat', Nat.reducePow]
  omega

theorem compressed_header_parts {n : Nat} (small : n < 4096) :
    (0xb000 + n) &&& ntfsSbIsCompressed ≠ 0 ∧ (0xb000 + n) &&& ntfsSbSizeMask = n := by
  constructor
  · intro clear_
    have set_ : (0xb000 + n).testBit 15 = true := by
      rw [Nat.testBit_eq_decide_div_mod_eq, decide_eq_true_eq]
      omega
    have bit := congrArg (fun word => word.testBit 15) clear_
    simp only [ntfsSbIsCompressed, Nat.testBit_and, set_, Nat.zero_testBit, Bool.true_and] at bit
    cases bit
  · have mask : (0xb000 + n) &&& (2 ^ 12 - 1) = (0xb000 + n) % 2 ^ 12 := Nat.and_two_pow_sub_one_eq_mod _ _
    rw [ntfsSbSizeMask, show 0x0fff = 2 ^ 12 - 1 from rfl, mask]
    omega

theorem header_place {sub : Mem} {pos size : Nat} (some : 2 ≤ size) (same : ∀ k < size, cb (pos + k) = sub k) :
    getLE cb 2 pos = getLE sub 2 0 := by
  have shifted := getLE_shifted cb pos 2 0
  rw [Nat.add_zero] at shifted
  rw [← shifted]
  exact getLE_congr fun i _ early => same i (by omega)

/-- The compressed form of a sub-block is read back. -/
theorem compressed_readsAs {m : Mem} {size : Nat} (tokens : SubBlockTokens (blockText block) m 2 size block.length)
    (some : 0 < block.length) (within : block.length ≤ ntfsSbSize) (fits : size < ntfsSbSize + 2) :
    ReadsAs (Function.update (Function.update m 0 (UInt8.ofNat ((size - 3) &&& 255))) 1
      (UInt8.ofNat (0xb0 + (((size - 3) >>> 8) &&& 15)))) size (blockText block) := by
  have least := tokens.size some
  have small : size - 3 < 4096 := by
    rw [ntfsSbSize] at fits
    omega
  have header := compressed_header m small
  obtain ⟨flag, length⟩ := compressed_header_parts small
  dsimp only at header
  refine ⟨⟨by omega, by omega⟩, ⟨by rw [header]; omega, by rw [header, length]; omega⟩, ?_⟩
  intro cb pos page same
  have placed := @SubBlockTokens.place (blockText block) m cb 2 size block.length pos tokens (fun i lower upper => by
    rw [same i upper, Function.update_of_ne (by omega), Function.update_of_ne (by omega)])
  obtain ⟨page', read, agrees⟩ := @decodeTags_reads (blockText block) cb page (pos + 2) (pos + size) 0 block.length
    (pos + size - pos) placed within (by omega)
  rw [Nat.zero_add] at read
  rw [header, decodeSubBlock, if_neg flag, read, Option.map_some, fillSubBlock, Nat.zero_add]
  dsimp only
  by_cases short : block.length < ntfsSbSize
  · rw [if_pos short]
    refine ⟨_, rfl, ?_⟩
    intro k inside
    rw [Nat.zero_add]
    rcases Nat.lt_or_ge k block.length with early | late
    · rw [fillRange_outside (.inl early)]
      simpa using agrees k early
    · rw [fillRange_inside late (by omega), blockText, List.getD_eq_default _ _ late]
  · rw [if_neg short]
    have full : block.length = ntfsSbSize := by omega
    rw [full] at agrees ⊢
    exact ⟨page', rfl, agrees⟩

/-- The stored form of a sub-block is read back. -/
theorem stored_readsAs (m : Mem) (within : block.length ≤ ntfsSbSize) :
    ReadsAs
      (Function.update (Function.update
        (if block.length < ntfsSbSize then
          fillRange (copyRange m 2 (blockText block) 0 block.length) (block.length + 2) (ntfsSbSize - block.length) 0
        else copyRange m 2 (blockText block) 0 block.length) 0 0xff) 1 0x3f)
      (ntfsSbSize + 2) (blockText block) := by
  generalize data : (if block.length < ntfsSbSize then
    fillRange (copyRange m 2 (blockText block) 0 block.length) (block.length + 2) (ntfsSbSize - block.length) 0
    else copyRange m 2 (blockText block) 0 block.length) = stored
  have bytes : ∀ k < ntfsSbSize, stored (2 + k) = blockText block k := by
    intro k inside
    rw [← data]
    split
    · rcases Nat.lt_or_ge k block.length with early | late
      · rw [fillRange_outside (.inl (by omega)), copyRange_inside (by omega) (by omega)]
        congr 1
        omega
      · rw [fillRange_inside (by omega) (by omega), blockText, List.getD_eq_default _ _ late]
    · rw [copyRange_inside (by omega) (by omega)]
      congr 1
      omega
  have header : getLE (Function.update (Function.update stored 0 0xff) 1 0x3f) 2 0 = 0x3fff := by
    simp [getLE]
  refine ⟨⟨by decide, Nat.le_refl _⟩, ⟨by rw [header]; decide, by rw [header]; rfl⟩, ?_⟩
  intro cb pos page same
  refine ⟨copyRange page 0 cb (pos + 2) ntfsSbSize, ?_, ?_⟩
  · rw [header, decodeSubBlock, if_pos (by decide), if_neg (by omega), Nat.zero_add]
  · intro k inside
    rw [Nat.zero_add, copyRange_inside (Nat.zero_le _) (by omega), Nat.sub_zero, Nat.add_assoc, same _ (by omega),
      Function.update_of_ne (by omega), Function.update_of_ne (by omega)]
    exact bytes k inside

theorem ntfsCompressBlock_readsAs (some : 0 < block.length) (within : block.length ≤ ntfsSbSize) :
    ReadsAs (ntfsCompressBlock (blockText block) block.length outbuf).1
      (ntfsCompressBlock (blockText block) block.length outbuf).2 (blockText block) := by
  obtain ⟨inside, ended, tokens, written, count⟩ := compressLoop_result
    (@compressStart_compressing (blockText block) block.length outbuf) within (Nat.le_add_left block.length 0)
  rw [ntfsCompressBlock]
  dsimp only
  split
  · rename_i compressed
    have whole := le_antisymm inside compressed.1
    have closed := written.close count
    rw [whole] at closed
    exact compressed_readsAs closed some within compressed.2
  · exact stored_readsAs _ within

end SubBlock

section Blocks

variable {outbuf cb : Mem} {cbEnd maxIndex maxOfs : Nat} {block : List UInt8} {blocks : List (List UInt8)}

theorem HoldsBytes.append {pos : Nat} {bytes others : List UInt8} (holds : HoldsBytes cb pos (bytes ++ others)) :
    HoldsBytes cb pos bytes ∧ HoldsBytes cb (pos + bytes.length) others := by
  constructor
  · intro k early
    rw [holds k (by rw [List.length_append]; omega), List.getD_append _ _ _ _ early]
  · intro k early
    rw [Nat.add_assoc, holds (bytes.length + k) (by rw [List.length_append]; omega),
      List.getD_append_right _ _ _ _ (by omega), Nat.add_sub_cancel_left]

theorem subBlockBytes_holds {pos : Nat} (holds : HoldsBytes cb pos (subBlockBytes outbuf block)) :
    ∀ k < (ntfsCompressBlock (blockText block) block.length outbuf).2,
      cb (pos + k) = (ntfsCompressBlock (blockText block) block.length outbuf).1 k := by
  intro k early
  have length : (subBlockBytes outbuf block).length = (ntfsCompressBlock (blockText block) block.length outbuf).2 := by
    simp [subBlockBytes]
  rw [holds k (by rw [length]; exact early)]
  simp [subBlockBytes, List.getD, early]

/-- One round of the loop over the sub-blocks. -/
theorem decompressRound_block {pos : Nat} {d : Destination} (sizes : 0 < block.length ∧ block.length ≤ ntfsSbSize)
    (holds : HoldsBytes cb pos (subBlockBytes outbuf block)) (room : pos + (subBlockBytes outbuf block).length + 2 ≤ cbEnd)
    (aligned : d.ofs = 0) (inside : d.index < maxIndex) {page : Mem} (present : d.pages d.index = some page) :
    ∃ page', decompressRound cb cbEnd maxIndex maxOfs pos d =
        .doNextSb (pos + (subBlockBytes outbuf block).length)
          ⟨d.index + 1, 0, Function.update d.pages d.index (some page'), d.completed ++ [d.index]⟩ ∧
      Agrees page' 0 (blockText block) ntfsSbSize := by
  have length : (subBlockBytes outbuf block).length = (ntfsCompressBlock (blockText block) block.length outbuf).2 := by
    simp [subBlockBytes]
  have reads := @ntfsCompressBlock_readsAs block outbuf sizes.1 sizes.2
  have same := subBlockBytes_holds holds
  rw [length] at room ⊢
  generalize ntfsCompressBlock (blockText block) block.length outbuf = made at reads same room
  obtain ⟨small, header, read⟩ := reads
  obtain ⟨page', decoded, agrees⟩ := read cb pos page same
  have open_ : ¬ (pos = cbEnd ∨ getLE made.1 2 0 = 0 ∨ (d.index = maxIndex ∧ d.ofs = maxOfs)) := by
    rintro (ended | zero | full)
    · omega
    · exact header.1 zero
    · omega
  refine ⟨page', ?_, agrees⟩
  rw [decompressRound, header_place (by omega) same]
  dsimp only
  rw [if_neg open_, if_neg (by omega), if_neg (by omega), Nat.add_assoc, header.2, if_neg (by omega)]
  simp only [present, aligned, decoded]
  have onward : ¬ d.index + 1 > maxIndex := by omega
  simp only [Destination.advance, onward, if_false, Option.isSome_some, if_true]
  rfl

theorem length_le_subBlockBytes (sizes : ∀ block ∈ blocks, 0 < block.length ∧ block.length ≤ ntfsSbSize) :
    blocks.length ≤ (blocks.flatMap (subBlockBytes outbuf)).length := by
  induction blocks with
  | nil => exact Nat.le_refl _
  | cons block rest ih =>
    have others := ih fun block listed => sizes block (by simp [listed])
    have here := sizes block (by simp)
    have small := (@ntfsCompressBlock_readsAs block outbuf here.1 here.2).small.1
    have length : (subBlockBytes outbuf block).length = (ntfsCompressBlock (blockText block) block.length outbuf).2 := by
      simp [subBlockBytes]
    rw [List.flatMap_cons, List.length_append, List.length_cons, length]
    omega

theorem pageBytes_eq {page : Mem} (agrees : Agrees page 0 (blockText block) ntfsSbSize)
    (within : block.length ≤ ntfsSbSize) : pageBytes page = padded block := by
  have size : pageSize = ntfsSbSize := rfl
  rw [pageBytes, padded, size]
  generalize ntfsSbSize = n at agrees within
  apply List.ext_getElem
  · simp only [List.length_map, List.length_range, List.length_append, List.length_replicate]
    omega
  intro k inside _
  have early : k < n := by simpa using inside
  have byte := agrees k early
  rw [Nat.zero_add, blockText] at byte
  rw [List.getElem_map, List.getElem_range, byte, List.getElem_append]
  split
  · rename_i here
    exact List.getD_eq_getElem _ _ here
  · rename_i late
    rw [List.getElem_replicate]
    exact List.getD_eq_default _ _ (Nat.le_of_not_lt late)

theorem decompressed_succ {d : Destination} {first n : Nat} {page : Mem} (present : d.pages first = some page) :
    decompressed d first (n + 1) = pageBytes page ++ decompressed d (first + 1) n := by
  rw [decompressed, List.range_succ_eq_map, List.flatMap_cons, List.flatMap_map, Nat.add_zero, present, Option.map_some,
    Option.getD_some, decompressed]
  simp only [Nat.succ_eq_add_one, Nat.add_assoc, Nat.add_comm 1]

/-- The loop over the sub-blocks of a row of blocks. -/
theorem decompressLoop_blocks {fuel pos : Nat} {d : Destination}
    (sizes : ∀ block ∈ blocks, 0 < block.length ∧ block.length ≤ ntfsSbSize)
    (holds : HoldsBytes cb pos (blocks.flatMap (subBlockBytes outbuf) ++ [0, 0]))
    (room : pos + (blocks.flatMap (subBlockBytes outbuf) ++ [0, 0]).length ≤ cbEnd)
    (aligned : d.ofs = 0) (inside : d.index + blocks.length ≤ maxIndex)
    (present : ∀ k < blocks.length, (d.pages (d.index + k)).isSome) (enough : blocks.length < fuel) :
    ∃ d', decompressLoop cb cbEnd maxIndex maxOfs fuel pos d = (true, d') ∧
      (∀ index < d.index, d'.pages index = d.pages index) ∧
      decompressed d' d.index blocks.length = blocks.flatMap padded := by
  induction blocks generalizing fuel pos d with
  | nil =>
    obtain ⟨fuel, rfl⟩ : ∃ fewer, fuel = fewer + 1 := ⟨fuel - 1, by omega⟩
    refine ⟨d, ?_, fun _ _ => rfl, rfl⟩
    have first : cb pos = 0 := holds 0 (by simp)
    have second : cb (pos + 1) = 0 := holds 1 (by simp)
    have header : getLE cb 2 pos = 0 := by simp [getLE, first, second]
    have ended : decompressRound cb cbEnd maxIndex maxOfs pos d = .returned true d := by
      rw [decompressRound, header]
      simp
    rw [decompressLoop, ended]
  | cons block rest ih =>
    rw [List.flatMap_cons, List.append_assoc] at holds room
    rw [List.length_cons] at inside enough present
    rw [List.length_append] at room
    obtain ⟨fuel, rfl⟩ : ∃ fewer, fuel = fewer + 1 := ⟨fuel - 1, by omega⟩
    obtain ⟨here, behind⟩ := holds.append
    have two : 2 ≤ (rest.flatMap (subBlockBytes outbuf) ++ [0, 0]).length := by simp
    obtain ⟨page, found⟩ := Option.isSome_iff_exists.mp (present 0 (by omega))
    obtain ⟨page', step, agrees⟩ := @decompressRound_block outbuf cb cbEnd maxIndex maxOfs block pos d
      (sizes block (by simp)) here (by omega) aligned (by omega) page found
    obtain ⟨d', loop, before, decoded⟩ := @ih fuel (pos + (subBlockBytes outbuf block).length)
      ⟨d.index + 1, 0, Function.update d.pages d.index (some page'), d.completed ++ [d.index]⟩
      (fun block listed => sizes block (by simp [listed])) behind (by omega) rfl (by dsimp only; omega)
      (fun k early => by
        have later := present (k + 1) (by omega)
        dsimp only
        rw [Function.update_of_ne (by omega), Nat.add_assoc, Nat.add_comm 1 k]
        exact later) (by omega)
    refine ⟨d', ?_, ?_, ?_⟩
    · rw [decompressLoop, step]
      exact loop
    · intro index early
      have kept := before index (by dsimp only; omega)
      dsimp only at kept
      rwa [Function.update_of_ne (by omega)] at kept
    · have this_page : d'.pages d.index = some page' := by
        have kept := before d.index (by dsimp only; omega)
        dsimp only at kept
        rwa [Function.update_self] at kept
      rw [List.length_cons, decompressed_succ this_page, pageBytes_eq agrees (sizes block (by simp)).2, decoded,
        List.flatMap_cons]

end Blocks

/-- The sub-blocks of blocks of 1 to 4096 bytes, with two zero bytes behind them, are decompressed
without an error to the blocks, each with zeroes behind it up to 4096 bytes; where all blocks
have 4096 bytes this is the original data. -/
theorem compress_round_trip {outbuf cb : Mem} {blocks : List (List UInt8)}
    {cbSize maxIndex maxOfs : Nat} {d : Destination}
    (sizes : ∀ block ∈ blocks, 0 < block.length ∧ block.length ≤ ntfsSbSize)
    (holds : HoldsBytes cb 0 (blocks.flatMap (subBlockBytes outbuf) ++ [0, 0]))
    (room : (blocks.flatMap (subBlockBytes outbuf) ++ [0, 0]).length ≤ cbSize)
    (aligned : d.ofs = 0) (inside : d.index + blocks.length ≤ maxIndex)
    (present : ∀ k < blocks.length, (d.pages (d.index + k)).isSome) :
    ∃ d', ntfsDecompress cb cbSize maxIndex maxOfs d = (true, d') ∧
      decompressed d' d.index blocks.length = blocks.flatMap padded ∧
      ((∀ block ∈ blocks, block.length = ntfsSbSize) → decompressed d' d.index blocks.length = blocks.flatten) := by
  have few : blocks.length < cbSize + 1 := by
    have length := @length_le_subBlockBytes outbuf blocks sizes
    rw [List.length_append] at room
    omega
  obtain ⟨d', loop, _, decoded⟩ := @decompressLoop_blocks outbuf cb cbSize maxIndex maxOfs blocks (cbSize + 1) 0 d sizes
    holds (by rw [Nat.zero_add]; exact room) aligned inside present few
  refine ⟨d', loop, decoded, fun whole => ?_⟩
  have same : blocks.map padded = blocks.map id := by
    apply List.map_congr_left
    intro block listed
    rw [padded, whole block listed, Nat.sub_self]
    exact List.append_nil _
  rw [decoded, List.flatMap_def, same, List.map_id]

/-- A block of 4096 equal bytes and one of three bytes. -/
theorem compress_round_trip_two :
    let blocks : List (List UInt8) := [List.replicate ntfsSbSize 97, [97, 98, 99]]
    let bytes := blocks.flatMap (subBlockBytes zeros) ++ [0, 0]
    ∃ d, ntfsDecompress (fun k => bytes.getD k 0) bytes.length 2 0 ⟨0, 0, fun _ => some zeros, []⟩ = (true, d) ∧
      decompressed d 0 2 = padded (List.replicate ntfsSbSize 97) ++ padded [97, 98, 99] := by
  intro blocks bytes
  have sizes : ∀ block ∈ blocks, 0 < block.length ∧ block.length ≤ ntfsSbSize := by
    intro block listed
    rcases List.mem_cons.mp listed with rfl | last
    · rw [List.length_replicate]
      exact ⟨by decide, Nat.le_refl _⟩
    · rw [List.mem_singleton.mp last]
      exact ⟨by decide, by decide⟩
  have holds : HoldsBytes (fun k => bytes.getD k 0) 0 bytes := by
    intro k _
    rw [Nat.zero_add]
  obtain ⟨d, loop, decoded, _⟩ := @compress_round_trip zeros (fun k => bytes.getD k 0) blocks bytes.length 2 0
    ⟨0, 0, fun _ => some zeros, []⟩ sizes holds le_rfl rfl (Nat.le_refl 2) (fun _ _ => rfl)
  refine ⟨d, loop, ?_⟩
  have padding : blocks.flatMap padded = padded (List.replicate ntfsSbSize 97) ++ padded [97, 98, 99] := by
    simp only [blocks, List.flatMap_cons, List.flatMap_nil, List.append_nil]
  rw [← padding]
  exact decoded

end Ttntfs.Ntfs
