import Ttntfs.Ntfs.Decompress

/-!
# What the decoder touches

While it goes over a compression block, `ntfs_decompress` reads bytes of the block, reads
bytes of the current sub-block again and writes bytes of it, and moves on to the next
sub-block. These events are listed beside the decoder. Where the decoder comes to in a
block is told apart from it, by the headers, tags and tokens alone, whose sizes do not
depend on the bytes that are written.
-/

namespace Ttntfs.Ntfs

open Ttntfs.Library.ByteMemory

/-- An access of `ntfs_decompress`, or that it goes on with the next sub-block at an offset of a
page. -/
inductive DecoderEvent where
  | read (pos len : Nat)
  | reread (page start ofs len : Nat)
  | write (page start ofs len : Nat)
  | next (ofs : Nat)
deriving DecidableEq

/-- How far back a phrase reaches whose word is at a position of the block. -/
def phraseBack (cb : Mem) (out pos : Nat) : Nat :=
  (getLE cb 2 pos >>> (12 - countLg 16 (out - 1) 0)) + 1

/-- How long a phrase is whose word is at a position of the block. -/
def phraseLength (cb : Mem) (out pos : Nat) : Nat :=
  (getLE cb 2 pos &&& (0xfff >>> countLg 16 (out - 1) 0)) + 3

/-- The events of a phrase token. -/
def phraseEvents (cb : Mem) (index sbStart : Nat) (s : SubBlockPlace) : List DecoderEvent :=
  if s.ofs = sbStart then []
  else
    .read s.cb 2 ::
      match decodePhrase cb sbStart s with
      | none => []
      | some t =>
        [.reread index sbStart (s.ofs - phraseBack cb (s.ofs - sbStart) s.cb) (t.ofs - s.ofs),
          .write index sbStart s.ofs (t.ofs - s.ofs)]

/-- The events of the loop over the tokens of a tag. -/
def tokensEvents (cb : Mem) (index sbEnd sbStart : Nat) : Nat → Nat → SubBlockPlace → List DecoderEvent
  | 0, _, _ => []
  | tokens + 1, tag, s =>
    if s.cb ≥ sbEnd ∨ s.ofs > sbStart + ntfsSbSize then []
    else if tag % 2 = 0 then
      .read s.cb 1 :: .write index sbStart s.ofs 1 ::
        tokensEvents cb index sbEnd sbStart tokens (tag / 2)
          ⟨s.cb + 1, Function.update s.page s.ofs (cb s.cb), s.ofs + 1⟩
    else
      phraseEvents cb index sbStart s ++
        match decodePhrase cb sbStart s with
        | none => []
        | some s => tokensEvents cb index sbEnd sbStart tokens (tag / 2) s

/-- The events of the loop over the tags of a sub-block. -/
def tagsEvents (cb : Mem) (index sbEnd sbStart : Nat) : Nat → SubBlockPlace → List DecoderEvent
  | 0, _ => []
  | fuel + 1, s =>
    if s.cb = sbEnd then
      if s.ofs < sbStart + ntfsSbSize then [.write index sbStart s.ofs (sbStart + ntfsSbSize - s.ofs)] else []
    else if s.cb > sbEnd ∨ s.ofs > sbStart + ntfsSbSize then []
    else
      .read s.cb 1 :: (tokensEvents cb index sbEnd sbStart 8 (cb s.cb).toNat { s with cb := s.cb + 1 } ++
        match decodeTokens cb sbEnd sbStart 8 (cb s.cb).toNat { s with cb := s.cb + 1 } with
        | none => []
        | some s => tagsEvents cb index sbEnd sbStart fuel s)

/-- The events of a sub-block behind its header. -/
def subBlockEvents (cb : Mem) (index start sbEnd header : Nat) (page : Mem) (ofs : Nat) : List DecoderEvent :=
  if header &&& ntfsSbIsCompressed = 0 then
    if sbEnd - (start + 2) ≠ ntfsSbSize then []
    else [.read (start + 2) ntfsSbSize, .write index ofs ofs ntfsSbSize]
  else tagsEvents cb index sbEnd ofs (sbEnd - start) ⟨start + 2, page, ofs⟩

/-- The events of a round of the loop over the sub-blocks. -/
def roundEvents (cb : Mem) (cbEnd maxIndex maxOfs pos : Nat) (d : Destination) : List DecoderEvent :=
  if pos = cbEnd then []
  else
    .read pos 2 ::
      ((if getLE cb 2 pos = 0 ∨ (d.index = maxIndex ∧ d.ofs = maxOfs) ∨
          (d.index = maxIndex ∧ d.ofs + ntfsSbSize > maxOfs) ∨ pos + 6 > cbEnd ∨
          pos + (getLE cb 2 pos &&& ntfsSbSizeMask) + 3 > cbEnd then []
        else
          match d.pages d.index with
          | none => []
          | some page =>
            subBlockEvents cb d.index pos (pos + (getLE cb 2 pos &&& ntfsSbSizeMask) + 3) (getLE cb 2 pos) page d.ofs) ++
        match decompressRound cb cbEnd maxIndex maxOfs pos d with
        | .returned _ _ => []
        | .doNextSb _ d => [.next d.ofs])

/-- The events of the loop over the sub-blocks. -/
def loopEvents (cb : Mem) (cbEnd maxIndex maxOfs : Nat) : Nat → Nat → Destination → List DecoderEvent
  | 0, _, _ => []
  | fuel + 1, pos, d =>
    roundEvents cb cbEnd maxIndex maxOfs pos d ++
      match decompressRound cb cbEnd maxIndex maxOfs pos d with
      | .returned _ _ => []
      | .doNextSb pos d => loopEvents cb cbEnd maxIndex maxOfs fuel pos d

/-- The events of `ntfs_decompress`. -/
def decompressEvents (cb : Mem) (cbSize maxIndex maxOfs : Nat) (d : Destination) : List DecoderEvent :=
  loopEvents cb cbSize maxIndex maxOfs (cbSize + 1) 0 d

/-- A read is inside the block, a write is inside the current sub-block of a page that is there, and
the decoder goes on at the beginning of a sub-block. -/
def DecoderEvent.Inside (cbSize : Nat) (pages : Nat → Option Mem) : DecoderEvent → Prop
  | .read pos len => pos + len ≤ cbSize
  | .reread page start ofs len | .write page start ofs len =>
    (pages page).isSome ∧ start ≤ ofs ∧ ofs + len ≤ start + ntfsSbSize ∧ start + ntfsSbSize ≤ pageSize
  | .next ofs => ofs % ntfsSbSize = 0

/-! ## Where the decoder comes to -/

/-- The loops over tags and tokens of a sub-block come to a position with some bytes decoded, and
some tokens of a tag are left. -/
inductive TokenPoint (cb : Mem) (start sbEnd : Nat) : (pos out tag tokens : Nat) → Prop where
  | first : TokenPoint cb start sbEnd (start + 2) 0 0 0
  | tag {pos out tag : Nat} (behind : TokenPoint cb start sbEnd pos out tag 0) (inside : pos < sbEnd)
      (room : out ≤ ntfsSbSize) : TokenPoint cb start sbEnd (pos + 1) out (cb pos).toNat 8
  | symbol {pos out tag tokens : Nat} (here : TokenPoint cb start sbEnd pos out tag (tokens + 1)) (inside : pos < sbEnd)
      (room : out ≤ ntfsSbSize) (bit : tag % 2 = 0) : TokenPoint cb start sbEnd (pos + 1) (out + 1) (tag / 2) tokens
  | phrase {pos out tag tokens : Nat} (here : TokenPoint cb start sbEnd pos out tag (tokens + 1)) (inside : pos < sbEnd)
      (some_byte : 0 < out) (bit : tag % 2 ≠ 0) (back : phraseBack cb out pos ≤ out)
      (room : out + phraseLength cb out pos ≤ ntfsSbSize) :
      TokenPoint cb start sbEnd (pos + 2) (out + phraseLength cb out pos) (tag / 2) tokens

/-- The end of the sub-block whose header is at a position. -/
def subBlockEnd (cb : Mem) (pos : Nat) : Nat := pos + (getLE cb 2 pos &&& ntfsSbSizeMask) + 3

/-- A sub-block begins at a position, with room for it in the destination. -/
structure SubBlockAt (cb : Mem) (cbEnd maxIndex maxOfs pos index : Nat) : Prop where
  inside : pos + 6 ≤ cbEnd
  some_header : getLE cb 2 pos ≠ 0
  room : ¬ (index = maxIndex ∧ ntfsSbSize > maxOfs)
  ends : subBlockEnd cb pos ≤ cbEnd

/-- A sub-block is compressed. -/
def Compressed (cb : Mem) (pos : Nat) : Prop := getLE cb 2 pos &&& ntfsSbIsCompressed ≠ 0

/-- A sub-block is skipped, copied as it is, or its tokens end where it does. -/
def SubBlockAccepted (cb : Mem) (pages : Nat → Option Mem) (pos index : Nat) : Prop :=
  (pages index).isSome = true →
    (Compressed cb pos → ∃ out tag tokens, TokenPoint cb pos (subBlockEnd cb pos) (subBlockEnd cb pos) out tag tokens ∧
      out ≤ ntfsSbSize) ∧
    (¬ Compressed cb pos → subBlockEnd cb pos - (pos + 2) = ntfsSbSize)

/-- The loop over the sub-blocks comes to a position and a page. -/
inductive HeaderPoint (cb : Mem) (cbEnd maxIndex maxOfs : Nat) (pages : Nat → Option Mem) (firstIndex : Nat) :
    (pos index : Nat) → Prop where
  | first : HeaderPoint cb cbEnd maxIndex maxOfs pages firstIndex 0 firstIndex
  | next {pos index : Nat} (here : HeaderPoint cb cbEnd maxIndex maxOfs pages firstIndex pos index)
      (sub : SubBlockAt cb cbEnd maxIndex maxOfs pos index) (accepted : SubBlockAccepted cb pages pos index)
      (more : index < maxIndex) :
      HeaderPoint cb cbEnd maxIndex maxOfs pages firstIndex (subBlockEnd cb pos) (index + 1)

/-- The decoder comes to a token of a compressed sub-block. -/
structure TokenCome (cb : Mem) (cbEnd maxIndex maxOfs : Nat) (pages : Nat → Option Mem)
    (firstIndex pos out bit : Nat) : Prop where
  reached : ∃ start index tag tokens, HeaderPoint cb cbEnd maxIndex maxOfs pages firstIndex start index ∧
    SubBlockAt cb cbEnd maxIndex maxOfs start index ∧ (pages index).isSome = true ∧ Compressed cb start ∧
    TokenPoint cb start (subBlockEnd cb start) pos out tag (tokens + 1) ∧ pos < subBlockEnd cb start ∧
    out ≤ ntfsSbSize ∧ tag % 2 = bit

/-- No header and no phrase begins with the last byte of the block, and no symbol follows a
sub-block that is full. -/
structure TokensFit (cb : Mem) (cbEnd maxIndex maxOfs : Nat) (pages : Nat → Option Mem) (firstIndex : Nat) : Prop where
  headers : ∀ pos index, HeaderPoint cb cbEnd maxIndex maxOfs pages firstIndex pos index → pos + 1 ≠ cbEnd
  symbols : ∀ pos out, TokenCome cb cbEnd maxIndex maxOfs pages firstIndex pos out 0 → out ≠ ntfsSbSize
  phrases : ∀ pos out, TokenCome cb cbEnd maxIndex maxOfs pages firstIndex pos out 1 → 0 < out → pos + 1 ≠ cbEnd

end Ttntfs.Ntfs
