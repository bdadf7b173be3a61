import Ttntfs.Ntfs.DecoderEvents

/-!
# Safety of the decoder

Every copy, every phrase and every fill of the decoder stays inside the current sub-block,
and every tag is inside the block. What can leave them is the second byte of a header or of a
phrase that begins with the last byte of the block, and a symbol behind 4096 decoded bytes,
for which only a position above the end of the sub-block is refused. So the decoder is safe
just when it comes to none of these.
-/

namespace Ttntfs.Ntfs

open Ttntfs.Library.ByteMemory

section Tokens

variable {cb : Mem} {cbEnd index start sbEnd : Nat} {pages : Nat → Option Mem}

theorem decodePhrase_fits {s : SubBlockPlace} (some_byte : 0 < s.ofs) (back : phraseBack cb s.ofs s.cb ≤ s.ofs)
    (room : s.ofs + phraseLength cb s.ofs s.cb ≤ ntfsSbSize) :
    ∃ page, decodePhrase cb 0 s = some ⟨s.cb + 2, page, s.ofs + phraseLength cb s.ofs s.cb⟩ := by
  refine ⟨copyPhrase s.page s.ofs (s.ofs - phraseBack cb s.ofs s.cb) (phraseLength cb s.ofs s.cb), ?_⟩
  rw [phraseBack] at back
  rw [phraseLength] at room
  rw [decodePhrase, if_neg (by omega)]
  dsimp only [Nat.sub_zero]
  rw [if_neg (by omega), if_neg (by omega)]
  rfl

theorem decodePhrase_some {s t : SubBlockPlace} (decoded : decodePhrase cb 0 s = some t) :
    0 < s.ofs ∧ phraseBack cb s.ofs s.cb ≤ s.ofs ∧ s.ofs + phraseLength cb s.ofs s.cb ≤ ntfsSbSize ∧
      t.cb = s.cb + 2 ∧ t.ofs = s.ofs + phraseLength cb s.ofs s.cb := by
  rw [decodePhrase] at decoded
  split at decoded
  · cases decoded
  rename_i some_byte
  dsimp only [Nat.sub_zero] at decoded
  split at decoded
  · cases decoded
  · rename_i back
    split at decoded
    · cases decoded
    · rename_i room
      cases decoded
      rw [phraseBack, phraseLength]
      exact ⟨by omega, by omega, by omega, rfl, rfl⟩

theorem phraseEvents_inside {s : SubBlockPlace} (present : (pages index).isSome = true)
    (word : 0 < s.ofs → s.cb + 2 ≤ cbEnd) : ∀ event ∈ phraseEvents cb index 0 s, event.Inside cbEnd pages := by
  rw [phraseEvents]
  split
  · simp
  rename_i some_byte
  have page : 0 + ntfsSbSize ≤ pageSize := by decide
  rw [List.forall_mem_cons]
  refine ⟨word (by omega), ?_⟩
  cases decoded : decodePhrase cb 0 s with
  | none => simp
  | some t =>
    obtain ⟨_, back, room, _, ofs⟩ := decodePhrase_some decoded
    rw [List.forall_mem_cons, List.forall_mem_singleton, Nat.sub_zero]
    exact ⟨⟨present, by omega, by omega, page⟩, present, by omega, by omega, page⟩

/-- No symbol behind a full sub-block and no phrase at the last byte of the block. -/
structure SubBlockFits (cb : Mem) (cbEnd start sbEnd : Nat) : Prop where
  symbols : ∀ pos out tag tokens, TokenPoint cb start sbEnd pos out tag (tokens + 1) → pos < sbEnd →
    out ≤ ntfsSbSize → tag % 2 = 0 → out ≠ ntfsSbSize
  phrases : ∀ pos out tag tokens, TokenPoint cb start sbEnd pos out tag (tokens + 1) → pos < sbEnd →
    out ≤ ntfsSbSize → tag % 2 ≠ 0 → 0 < out → pos + 1 ≠ cbEnd

/-- The tokens of a tag are inside, and where they end. -/
theorem tokensEvents_inside {tokens tag : Nat} {s : SubBlockPlace} (present : (pages index).isSome = true)
    (ends : sbEnd ≤ cbEnd) (fits : SubBlockFits cb cbEnd start sbEnd)
    (point : TokenPoint cb start sbEnd s.cb s.ofs tag tokens) (room : s.ofs ≤ ntfsSbSize) :
    (∀ event ∈ tokensEvents cb index sbEnd 0 tokens tag s, event.Inside cbEnd pages) ∧
      ∀ t, decodeTokens cb sbEnd 0 tokens tag s = some t → t.ofs ≤ ntfsSbSize ∧
        ∃ tag left, TokenPoint cb start sbEnd t.cb t.ofs tag left ∧ (left = 0 ∨ sbEnd ≤ t.cb) := by
  induction tokens generalizing tag s with
  | zero =>
    refine ⟨by simp [tokensEvents], fun t decoded => ?_⟩
    cases decoded
    exact ⟨room, tag, 0, point, .inl rfl⟩
  | succ tokens ih =>
    rw [tokensEvents, decodeTokens]
    split
    · rename_i stops
      refine ⟨by simp, fun t decoded => ?_⟩
      cases decoded
      exact ⟨room, tag, tokens + 1, point, .inr (by omega)⟩
    rename_i goes
    have inside : s.cb < sbEnd := by omega
    split
    · rename_i bit
      have free := fits.symbols _ _ _ _ point inside room bit
      obtain ⟨events, stops⟩ := @ih (tag / 2)
        ⟨s.cb + 1, Function.update s.page s.ofs (cb s.cb), s.ofs + 1⟩ (point.symbol inside room bit)
        (by dsimp only; omega)
      refine ⟨?_, stops⟩
      rw [List.forall_mem_cons, List.forall_mem_cons]
      have page : 0 + ntfsSbSize ≤ pageSize := by decide
      exact ⟨show s.cb + 1 ≤ cbEnd by omega, ⟨present, Nat.zero_le _, by omega, page⟩, events⟩
    · rename_i bit
      have phrase := @phraseEvents_inside cb cbEnd index pages s present fun some_byte => by
        have := fits.phrases _ _ _ _ point inside room bit some_byte
        omega
      cases decoded : decodePhrase cb 0 s with
      | none => exact ⟨by simpa using phrase, fun t impossible => by cases impossible⟩
      | some t =>
        obtain ⟨some_byte, back, less, place, ofs⟩ := decodePhrase_some decoded
        have next := point.phrase inside some_byte bit back less
        rw [← place, ← ofs] at next
        obtain ⟨events, stops⟩ := @ih (tag / 2) t next (by omega)
        refine ⟨fun event listed => ?_, stops⟩
        exact (List.mem_append.mp listed).elim (phrase event) (events event)

/-- The tags of a sub-block are inside, and where they end. -/
theorem tagsEvents_inside {fuel tag left : Nat} {s : SubBlockPlace} (present : (pages index).isSome = true)
    (ends : sbEnd ≤ cbEnd) (fits : SubBlockFits cb cbEnd start sbEnd)
    (point : TokenPoint cb start sbEnd s.cb s.ofs tag left) (stopped : left = 0 ∨ sbEnd ≤ s.cb)
    (room : s.ofs ≤ ntfsSbSize) :
    (∀ event ∈ tagsEvents cb index sbEnd 0 fuel s, event.Inside cbEnd pages) ∧
      ∀ t, decodeTags cb sbEnd 0 fuel s = some t → t.cb = sbEnd ∧ t.ofs ≤ ntfsSbSize ∧
        ∃ tag left, TokenPoint cb start sbEnd sbEnd t.ofs tag left := by
  induction fuel generalizing tag left s with
  | zero => exact ⟨by simp [tagsEvents], fun t impossible => by cases impossible⟩
  | succ fuel ih =>
    have page : 0 + ntfsSbSize ≤ pageSize := by decide
    rw [tagsEvents, decodeTags]
    split
    · rename_i ended
      refine ⟨?_, fun t decoded => ?_⟩
      · split
        · rw [List.forall_mem_singleton]
          exact ⟨present, Nat.zero_le _, by omega, page⟩
        · simp
      · cases decoded
        rw [ended] at point
        exact ⟨ended, room, tag, left, point⟩
    · rename_i more
      split
      · exact ⟨by simp, fun t impossible => by cases impossible⟩
      rename_i goes
      have inside : s.cb < sbEnd := by omega
      obtain rfl : left = 0 := by omega
      obtain ⟨events, stops⟩ := @tokensEvents_inside cb cbEnd index start sbEnd pages 8 (cb s.cb).toNat
        { s with cb := s.cb + 1 } present ends fits (point.tag inside room) room
      cases decoded : decodeTokens cb sbEnd 0 8 (cb s.cb).toNat { s with cb := s.cb + 1 } with
      | none =>
        refine ⟨?_, fun t impossible => by cases impossible⟩
        rw [List.forall_mem_cons]
        exact ⟨show s.cb + 1 ≤ cbEnd by omega, by simpa using events⟩
      | some t =>
        obtain ⟨less, tag', left', next, stoppedNext⟩ := stops t decoded
        obtain ⟨rest, stopsRest⟩ := @ih tag' left' t next stoppedNext less
        refine ⟨?_, stopsRest⟩
        rw [List.forall_mem_cons]
        refine ⟨show s.cb + 1 ≤ cbEnd by omega, fun event listed => ?_⟩
        exact (List.mem_append.mp listed).elim (events event) (rest event)

/-- The tokens that are come to are decoded: what follows them is part of what follows the header. -/
theorem TokenPoint.events {page : Mem} {pos out tag tokens : Nat} (point : TokenPoint cb start sbEnd pos out tag tokens)
    (some_tag : start + 2 ≤ sbEnd) (less : out ≤ ntfsSbSize) : ∃ page' fuel, sbEnd - pos < fuel ∧
      (tokensEvents cb index sbEnd 0 tokens tag ⟨pos, page', out⟩ ⊆
        tagsEvents cb index sbEnd 0 (sbEnd - start) ⟨start + 2, page, 0⟩) ∧
      ∀ t, decodeTokens cb sbEnd 0 tokens tag ⟨pos, page', out⟩ = some t →
        tagsEvents cb index sbEnd 0 fuel t ⊆ tagsEvents cb index sbEnd 0 (sbEnd - start) ⟨start + 2, page, 0⟩ ∧
        decodeTags cb sbEnd 0 fuel t = decodeTags cb sbEnd 0 (sbEnd - start) ⟨start + 2, page, 0⟩ := by
  induction point with
  | first =>
    refine ⟨page, sbEnd - start, by omega, by simp [tokensEvents], fun t decoded => ?_⟩
    cases decoded
    exact ⟨List.Subset.refl _, rfl⟩
  | @tag pos out tag behind inside room ih =>
    obtain ⟨page', fuel, enough, _, rest⟩ := ih less
    obtain ⟨events, decoded⟩ := rest ⟨pos, page', out⟩ rfl
    obtain ⟨fuel, rfl⟩ : ∃ n, fuel = n + 1 := ⟨fuel - 1, by omega⟩
    have goes : ¬ (pos > sbEnd ∨ out > 0 + ntfsSbSize) := by omega
    rw [tagsEvents, if_neg (Nat.ne_of_lt inside), if_neg goes] at events
    rw [decodeTags, if_neg (Nat.ne_of_lt inside), if_neg goes] at decoded
    obtain ⟨_, events⟩ := List.cons_subset.mp events
    obtain ⟨first, behindEvents⟩ := List.append_subset.mp events
    refine ⟨page', fuel, by omega, first, fun t result => ?_⟩
    dsimp only at behindEvents decoded
    rw [result] at behindEvents decoded
    exact ⟨behindEvents, decoded⟩
  | @symbol pos out tag tokens here inside room bit ih =>
    obtain ⟨page', fuel, enough, events, rest⟩ := ih room
    have goes : ¬ (pos ≥ sbEnd ∨ out > 0 + ntfsSbSize) := by omega
    rw [tokensEvents, if_neg goes, if_pos bit] at events
    rw [decodeTokens, if_neg goes, if_pos bit] at rest
    obtain ⟨_, events⟩ := List.cons_subset.mp events
    obtain ⟨_, events⟩ := List.cons_subset.mp events
    exact ⟨_, fuel, by omega, events, rest⟩
  | @phrase pos out tag tokens here inside some_byte bit back room ih =>
    obtain ⟨page', fuel, enough, events, rest⟩ := ih (by omega)
    obtain ⟨next, decoded⟩ := @decodePhrase_fits cb ⟨pos, page', out⟩ some_byte back room
    have goes : ¬ (pos ≥ sbEnd ∨ out > 0 + ntfsSbSize) := by omega
    rw [tokensEvents, if_neg goes, if_neg bit, decoded] at events
    rw [decodeTokens, if_neg goes, if_neg bit, decoded] at rest
    obtain ⟨_, events⟩ := List.append_subset.mp events
    exact ⟨next, fuel, by omega, events, rest⟩

/-- A sub-block whose tokens end where it does is decoded. -/
theorem decodeTags_accepted {page : Mem} {out tag tokens : Nat}
    (point : TokenPoint cb start sbEnd sbEnd out tag tokens) (some_tag : start + 2 ≤ sbEnd) (less : out ≤ ntfsSbSize) :
    ∃ page', decodeTags cb sbEnd 0 (sbEnd - start) ⟨start + 2, page, 0⟩ = some ⟨sbEnd, page', out⟩ := by
  obtain ⟨page', fuel, enough, _, rest⟩ := @TokenPoint.events cb 0 start sbEnd page sbEnd out tag tokens point some_tag less
  have stops : decodeTokens cb sbEnd 0 tokens tag ⟨sbEnd, page', out⟩ = some ⟨sbEnd, page', out⟩ := by
    cases tokens with
    | zero => rfl
    | succ tokens =>
      rw [decodeTokens, if_pos]
      exact .inl le_rfl
  obtain ⟨fuel, rfl⟩ : ∃ n, fuel = n + 1 := ⟨fuel - 1, by omega⟩
  have decoded := (rest _ stops).2
  rw [decodeTags, if_pos rfl] at decoded
  exact ⟨page', decoded.symm⟩

/-- The position does not go back. -/
theorem decodeTokens_later {sbStart tokens tag : Nat} {s t : SubBlockPlace}
    (decoded : decodeTokens cb sbEnd sbStart tokens tag s = some t) : s.cb ≤ t.cb := by
  induction tokens generalizing tag s with
  | zero =>
    cases decoded
    exact Nat.le_refl _
  | succ tokens ih =>
    rw [decodeTokens] at decoded
    split at decoded
    · cases decoded
      exact Nat.le_refl _
    split at decoded
    · have := ih decoded
      dsimp only at this
      omega
    cases phrase : decodePhrase cb sbStart s with
    | none =>
      rw [phrase] at decoded
      cases decoded
    | some u =>
      rw [phrase] at decoded
      have later := ih decoded
      have place : u.cb = s.cb + 2 := by
        rw [decodePhrase] at phrase
        split at phrase
        · cases phrase
        · dsimp only at phrase
          split at phrase
          · cases phrase
          · split at phrase
            · cases phrase
            · rw [← Option.some.inj phrase]
      omega

/-- The loop over the tags ends, whatever it reads. -/
theorem decodeTags_fuel {sbStart fuel fuel' : Nat} {s : SubBlockPlace} (enough : sbEnd - s.cb < fuel)
    (enough' : sbEnd - s.cb < fuel') : decodeTags cb sbEnd sbStart fuel s = decodeTags cb sbEnd sbStart fuel' s := by
  induction fuel generalizing fuel' s with
  | zero => omega
  | succ fuel ih =>
    obtain ⟨fuel', rfl⟩ : ∃ n, fuel' = n + 1 := ⟨fuel' - 1, by omega⟩
    rw [decodeTags, decodeTags]
    by_cases ended : s.cb = sbEnd
    · rw [if_pos ended, if_pos ended]
    by_cases stops : s.cb > sbEnd ∨ s.ofs > sbStart + ntfsSbSize
    · rw [if_neg ended, if_neg ended, if_pos stops, if_pos stops]
    · rw [if_neg ended, if_neg ended, if_neg stops, if_neg stops]
      cases decoded : decodeTokens cb sbEnd sbStart 8 (cb s.cb).toNat { s with cb := s.cb + 1 } with
      | none => rfl
      | some t =>
        have later := decodeTokens_later decoded
        dsimp only at later ⊢
        exact ih (by omega) (by omega)

theorem decodeTags_end {sbStart fuel : Nat} {s t : SubBlockPlace} (decoded : decodeTags cb sbEnd sbStart fuel s = some t) :
    t.cb = sbEnd := by
  induction fuel generalizing s with
  | zero => cases decoded
  | succ fuel ih =>
    rw [decodeTags] at decoded
    split at decoded
    · rename_i ended
      rw [← Option.some.inj decoded, ended]
    · split at decoded
      · cases decoded
      · split at decoded
        · cases decoded
        · exact ih decoded

end Tokens

section SubBlocks

variable {cb : Mem} {cbEnd maxIndex maxOfs firstIndex pos : Nat} {pages : Nat → Option Mem} {d : Destination}

/-- The same pages are there. -/
def SamePages (pages others : Nat → Option Mem) : Prop := ∀ index, (others index).isSome = (pages index).isSome

theorem HeaderPoint.le {index : Nat} (point : HeaderPoint cb cbEnd maxIndex maxOfs pages firstIndex pos index) :
    pos ≤ cbEnd := by
  cases point with
  | first => exact Nat.zero_le _
  | next here sub accepted more => exact sub.ends

theorem advance_next {page : Option Mem} {next : Nat} : ∃ e : Destination, e.index = d.index + 1 ∧ e.ofs = 0 ∧
    e.pages = (match page with
      | none => d.pages
      | some page => Function.update d.pages d.index (some page)) ∧
    d.advance maxIndex page ntfsSbSize next = if d.index + 1 > maxIndex then .returned false e else .doNextSb next e := by
  have whole : ¬ ntfsSbSize % pageSize ≠ 0 := by decide
  cases page with
  | none => exact ⟨⟨d.index + 1, 0, d.pages, d.completed⟩, rfl, rfl, rfl, by simp only [Destination.advance, if_neg whole]; rfl⟩
  | some page =>
    exact ⟨⟨d.index + 1, 0, Function.update d.pages d.index (some page), d.completed ++ [d.index]⟩, rfl, rfl, rfl,
      by simp only [Destination.advance, if_neg whole]; rfl⟩

theorem SamePages.update {page : Mem} (same : SamePages pages d.pages) (present : (pages d.index).isSome = true) :
    SamePages pages (Function.update d.pages d.index (some page)) := by
  intro index
  by_cases here : index = d.index
  · subst here
    rw [Function.update_self, present]
    rfl
  · rw [Function.update_of_ne here]
    exact same index

/-- A round that comes to a sub-block. -/
theorem decompressRound_at (sub : SubBlockAt cb cbEnd maxIndex maxOfs pos d.index) (aligned : d.ofs = 0) :
    decompressRound cb cbEnd maxIndex maxOfs pos d =
      match d.pages d.index with
      | none => d.advance maxIndex none ntfsSbSize (subBlockEnd cb pos)
      | some page =>
        match decodeSubBlock cb pos (subBlockEnd cb pos) (getLE cb 2 pos) page 0 with
        | none => .returned false d
        | some s => d.advance maxIndex (some s.page) s.ofs s.cb := by
  obtain ⟨inside, some_header, room, ends⟩ := sub
  have size : 0 < ntfsSbSize := by decide
  rw [subBlockEnd] at ends
  rw [decompressRound, aligned, Nat.zero_add]
  dsimp only
  have goes : ¬ (pos = cbEnd ∨ getLE cb 2 pos = 0 ∨ d.index = maxIndex ∧ 0 = maxOfs) := by
    rintro (ended | zero | full)
    · omega
    · exact some_header zero
    · exact room ⟨full.1, by omega⟩
  rw [if_neg goes, if_neg room, if_neg (by omega), if_neg (by omega)]
  rfl

/-- A round that comes to a sub-block: the header, the sub-block and the step to the next. -/
theorem roundEvents_sub (sub : SubBlockAt cb cbEnd maxIndex maxOfs pos d.index) (aligned : d.ofs = 0) :
    roundEvents cb cbEnd maxIndex maxOfs pos d = .read pos 2 ::
      ((match d.pages d.index with
        | none => []
        | some page => subBlockEvents cb d.index pos (subBlockEnd cb pos) (getLE cb 2 pos) page 0) ++
      match decompressRound cb cbEnd maxIndex maxOfs pos d with
      | .returned _ _ => []
      | .doNextSb _ d => [.next d.ofs]) := by
  obtain ⟨inside, some_header, room, ends⟩ := sub
  have size : 0 < ntfsSbSize := by decide
  rw [subBlockEnd] at ends
  have goes : ¬ (getLE cb 2 pos = 0 ∨ d.index = maxIndex ∧ d.ofs = maxOfs ∨
      d.index = maxIndex ∧ d.ofs + ntfsSbSize > maxOfs ∨ pos + 6 > cbEnd ∨
      pos + (getLE cb 2 pos &&& ntfsSbSizeMask) + 3 > cbEnd) := by
    rw [aligned, Nat.zero_add]
    rintro (zero | full | less | short | long)
    · exact some_header zero
    · exact room ⟨full.1, by omega⟩
    · exact room less
    · omega
    · omega
  rw [roundEvents, if_neg (by omega), if_neg goes, aligned]
  rfl

theorem roundEvents_at {page : Mem} (sub : SubBlockAt cb cbEnd maxIndex maxOfs pos d.index) (aligned : d.ofs = 0)
    (present : d.pages d.index = some page) :
    subBlockEvents cb d.index pos (subBlockEnd cb pos) (getLE cb 2 pos) page 0 ⊆
      roundEvents cb cbEnd maxIndex maxOfs pos d := by
  rw [roundEvents_sub sub aligned, present]
  exact List.subset_cons_of_subset _ (List.subset_append_left _ _)

/-- A sub-block that is accepted and followed by a page. -/
theorem decompressRound_accepted (sub : SubBlockAt cb cbEnd maxIndex maxOfs pos d.index) (aligned : d.ofs = 0)
    (same : SamePages pages d.pages) (accepted : SubBlockAccepted cb pages pos d.index) (more : d.index < maxIndex) :
    ∃ e : Destination, e.index = d.index + 1 ∧ e.ofs = 0 ∧ SamePages pages e.pages ∧
      decompressRound cb cbEnd maxIndex maxOfs pos d = .doNextSb (subBlockEnd cb pos) e := by
  rw [decompressRound_at sub aligned]
  have there := same d.index
  cases content : d.pages d.index with
  | none =>
    obtain ⟨e, index, ofs, kept, next⟩ := @advance_next maxIndex d none (subBlockEnd cb pos)
    refine ⟨e, index, ofs, ?_, next.trans (if_neg (by omega))⟩
    rw [kept]
    exact same
  | some page =>
    rw [content] at there
    obtain ⟨compressed, stored⟩ := accepted there.symm
    have decoded : ∃ page', decodeSubBlock cb pos (subBlockEnd cb pos) (getLE cb 2 pos) page 0 =
        some ⟨subBlockEnd cb pos, page', ntfsSbSize⟩ := by
      rw [decodeSubBlock]
      by_cases flag : Compressed cb pos
      · obtain ⟨out, tag, tokens, point, less⟩ := compressed flag
        obtain ⟨page', tags⟩ := @decodeTags_accepted cb pos (subBlockEnd cb pos) page out tag tokens point
          (by rw [subBlockEnd]; omega) less
        rw [if_neg flag, tags, Option.map_some, fillSubBlock]
        split
        · exact ⟨_, by rw [Nat.zero_add]⟩
        · rename_i full
          obtain rfl : out = ntfsSbSize := by dsimp only at full; omega
          exact ⟨page', rfl⟩
      · rw [if_pos (not_not.mp flag), if_neg (not_not.mpr (stored flag)), Nat.zero_add]
        exact ⟨_, rfl⟩
    obtain ⟨page', decoded⟩ := decoded
    obtain ⟨e, index, ofs, kept, next⟩ := @advance_next maxIndex d (some page') (subBlockEnd cb pos)
    refine ⟨e, index, ofs, ?_, ?_⟩
    · rw [kept]
      exact same.update there.symm
    · dsimp only
      rw [decoded]
      exact next.trans (if_neg (by omega))

/-- A round that comes to no sub-block reads the header, and the decoder returns. -/
theorem decompressRound_returns (more : pos ≠ cbEnd) (aligned : d.ofs = 0)
    (nothing : ¬ SubBlockAt cb cbEnd maxIndex maxOfs pos d.index) :
    roundEvents cb cbEnd maxIndex maxOfs pos d = [.read pos 2] ∧
      ∃ success, decompressRound cb cbEnd maxIndex maxOfs pos d = .returned success d := by
  have returns : ∃ success, decompressRound cb cbEnd maxIndex maxOfs pos d = .returned success d := by
    rw [decompressRound, aligned, Nat.zero_add]
    dsimp only
    by_cases ended : pos = cbEnd ∨ getLE cb 2 pos = 0 ∨ d.index = maxIndex ∧ 0 = maxOfs
    · exact ⟨true, if_pos ended⟩
    rw [if_neg ended]
    by_cases full : d.index = maxIndex ∧ ntfsSbSize > maxOfs
    · exact ⟨false, if_pos full⟩
    · rw [if_neg full]
      by_cases short : pos + 6 > cbEnd
      · exact ⟨false, if_pos short⟩
      · rw [if_neg short]
        by_cases long : pos + (getLE cb 2 pos &&& ntfsSbSizeMask) + 3 > cbEnd
        · exact ⟨false, if_pos long⟩
        · exact absurd ⟨by omega, fun zero => ended (.inr (.inl zero)), full, by rw [subBlockEnd]; omega⟩ nothing
  obtain ⟨success, returns⟩ := returns
  have stops : getLE cb 2 pos = 0 ∨ d.index = maxIndex ∧ d.ofs = maxOfs ∨
      d.index = maxIndex ∧ d.ofs + ntfsSbSize > maxOfs ∨ pos + 6 > cbEnd ∨
      pos + (getLE cb 2 pos &&& ntfsSbSizeMask) + 3 > cbEnd := by
    by_contra goes
    simp only [not_or, aligned, Nat.zero_add] at goes
    obtain ⟨some_header, _, room, short, long⟩ := goes
    exact nothing ⟨by omega, some_header, room, by rw [subBlockEnd]; omega⟩
  refine ⟨?_, success, returns⟩
  rw [roundEvents, if_neg more, if_pos stops, returns]
  rfl

theorem TokensFit.sub {index : Nat} (fits : TokensFit cb cbEnd maxIndex maxOfs pages firstIndex)
    (point : HeaderPoint cb cbEnd maxIndex maxOfs pages firstIndex pos index)
    (sub : SubBlockAt cb cbEnd maxIndex maxOfs pos index) (present : (pages index).isSome = true)
    (compressed : Compressed cb pos) : SubBlockFits cb cbEnd pos (subBlockEnd cb pos) where
  symbols := fun p out tag tokens here inside room bit =>
    fits.symbols p out ⟨pos, index, tag, tokens, point, sub, present, compressed, here, inside, room, bit⟩
  phrases := fun p out tag tokens here inside room bit some_byte =>
    fits.phrases p out ⟨pos, index, tag, tokens, point, sub, present, compressed, here, inside, room, by omega⟩ some_byte

/-- A sub-block of a page that is there: its events are inside, and if it is decoded it is accepted. -/
theorem decodeSubBlock_inside {page : Mem} (fits : TokensFit cb cbEnd maxIndex maxOfs pages firstIndex)
    (point : HeaderPoint cb cbEnd maxIndex maxOfs pages firstIndex pos d.index)
    (sub : SubBlockAt cb cbEnd maxIndex maxOfs pos d.index) (present : (pages d.index).isSome = true) :
    (∀ event ∈ subBlockEvents cb d.index pos (subBlockEnd cb pos) (getLE cb 2 pos) page 0, event.Inside cbEnd pages) ∧
      ∀ s, decodeSubBlock cb pos (subBlockEnd cb pos) (getLE cb 2 pos) page 0 = some s →
        s.cb = subBlockEnd cb pos ∧ s.ofs = ntfsSbSize ∧ SubBlockAccepted cb pages pos d.index := by
  have pageRoom : 0 + ntfsSbSize ≤ pageSize := by decide
  have ends := sub.ends
  rw [subBlockEvents, decodeSubBlock]
  by_cases compressed : Compressed cb pos
  · rw [if_neg compressed, if_neg compressed]
    obtain ⟨events, stops⟩ := @tagsEvents_inside cb cbEnd d.index pos (subBlockEnd cb pos) pages
      (subBlockEnd cb pos - pos) 0 0 ⟨pos + 2, page, 0⟩ present ends (fits.sub point sub present compressed) .first
      (.inl rfl) (Nat.zero_le _)
    refine ⟨events, fun s decoded => ?_⟩
    obtain ⟨t, tags, rfl⟩ := Option.map_eq_some_iff.mp decoded
    obtain ⟨ended, room, tag, left, last⟩ := stops t tags
    have accepted : SubBlockAccepted cb pages pos d.index :=
      fun _ => ⟨fun _ => ⟨t.ofs, tag, left, last, room⟩, fun stored => absurd compressed stored⟩
    rw [fillSubBlock]
    split
    · exact ⟨ended, Nat.zero_add _, accepted⟩
    · exact ⟨ended, by omega, accepted⟩
  · rw [if_pos (not_not.mp compressed), if_pos (not_not.mp compressed)]
    by_cases full : subBlockEnd cb pos - (pos + 2) ≠ ntfsSbSize
    · rw [if_pos full, if_pos full]
      exact ⟨by simp, fun s impossible => by cases impossible⟩
    rw [if_neg full, if_neg full]
    rw [not_not] at full
    have size : 0 < ntfsSbSize := by decide
    refine ⟨?_, fun s decoded => ?_⟩
    · rw [List.forall_mem_cons, List.forall_mem_singleton]
      exact ⟨show pos + 2 + ntfsSbSize ≤ cbEnd by omega, present, Nat.le_refl _, by omega, pageRoom⟩
    · rw [← Option.some.inj decoded]
      exact ⟨rfl, Nat.zero_add _, fun _ => ⟨fun flag => absurd flag compressed, fun _ => full⟩⟩

/-- A round keeps inside and goes on where the decoder comes to. -/
theorem roundEvents_inside (fits : TokensFit cb cbEnd maxIndex maxOfs pages firstIndex)
    (point : HeaderPoint cb cbEnd maxIndex maxOfs pages firstIndex pos d.index) (aligned : d.ofs = 0)
    (same : SamePages pages d.pages) :
    (∀ event ∈ roundEvents cb cbEnd maxIndex maxOfs pos d, event.Inside cbEnd pages) ∧
      ∀ next e, decompressRound cb cbEnd maxIndex maxOfs pos d = .doNextSb next e →
        HeaderPoint cb cbEnd maxIndex maxOfs pages firstIndex next e.index ∧ e.ofs = 0 ∧ SamePages pages e.pages := by
  by_cases ended : pos = cbEnd
  · refine ⟨by simp [roundEvents, ended], fun next e goes => ?_⟩
    rw [decompressRound, if_pos (.inl ended)] at goes
    cases goes
  have header : pos + 2 ≤ cbEnd := by
    have := fits.headers pos d.index point
    have := point.le
    omega
  by_cases sub : SubBlockAt cb cbEnd maxIndex maxOfs pos d.index
  · rw [roundEvents_sub sub aligned, decompressRound_at sub aligned, List.forall_mem_cons]
    have there := same d.index
    cases content : d.pages d.index with
    | none =>
      rw [content] at there
      obtain ⟨e, index, ofs, kept, next⟩ := @advance_next maxIndex d none (subBlockEnd cb pos)
      dsimp only
      by_cases more : d.index + 1 > maxIndex
      · rw [next, if_pos more]
        exact ⟨⟨header, by simp⟩, fun next e goes => by cases goes⟩
      · rw [next, if_neg more]
        refine ⟨⟨header, ?_⟩, fun next f goes => ?_⟩
        · rw [List.nil_append, List.forall_mem_singleton, DecoderEvent.Inside, ofs]
          rfl
        · cases goes
          rw [index, kept]
          exact ⟨point.next sub (fun impossible => by simp [← there] at impossible) (by omega), ofs, same⟩
    | some page =>
      rw [content] at there
      obtain ⟨events, stops⟩ := @decodeSubBlock_inside cb cbEnd maxIndex maxOfs firstIndex pos pages d page fits point
        sub there.symm
      dsimp only
      cases decoded : decodeSubBlock cb pos (subBlockEnd cb pos) (getLE cb 2 pos) page 0 with
      | none => exact ⟨⟨header, by simpa using events⟩, fun next e goes => by cases goes⟩
      | some s =>
        obtain ⟨place, full, accepted⟩ := stops s decoded
        obtain ⟨e, index, ofs, kept, next⟩ := @advance_next maxIndex d (some s.page) (subBlockEnd cb pos)
        dsimp only
        by_cases more : d.index + 1 > maxIndex
        · rw [place, full, next, if_pos more]
          exact ⟨⟨header, by simpa using events⟩, fun next e goes => by cases goes⟩
        rw [place, full, next, if_neg more]
        refine ⟨⟨header, fun event listed => ?_⟩, fun next f goes => ?_⟩
        · refine (List.mem_append.mp listed).elim (events event) fun last => ?_
          rw [List.mem_singleton.mp last, DecoderEvent.Inside, ofs]
          rfl
        · cases goes
          rw [index, kept]
          exact ⟨point.next sub accepted (by omega), ofs, same.update there.symm⟩
  · obtain ⟨events, success, returns⟩ := decompressRound_returns ended aligned sub
    rw [events, returns]
    exact ⟨by simpa [DecoderEvent.Inside] using header, fun next e goes => by cases goes⟩

/-- The rounds keep inside. -/
theorem loopEvents_inside {fuel : Nat} (fits : TokensFit cb cbEnd maxIndex maxOfs pages firstIndex)
    (point : HeaderPoint cb cbEnd maxIndex maxOfs pages firstIndex pos d.index) (aligned : d.ofs = 0)
    (same : SamePages pages d.pages) :
    ∀ event ∈ loopEvents cb cbEnd maxIndex maxOfs fuel pos d, event.Inside cbEnd pages := by
  induction fuel generalizing pos d with
  | zero => simp [loopEvents]
  | succ fuel ih =>
    obtain ⟨events, goes⟩ := roundEvents_inside fits point aligned same
    rw [loopEvents]
    intro event listed
    rcases List.mem_append.mp listed with here | later
    · exact events event here
    cases result : decompressRound cb cbEnd maxIndex maxOfs pos d with
    | returned success e =>
      rw [result] at later
      cases later
    | doNextSb next e =>
      rw [result] at later
      obtain ⟨point, aligned, same⟩ := goes next e result
      exact ih point aligned same event later

/-- The sub-blocks that are come to are decoded: their round is one of the loop. -/
theorem HeaderPoint.events {index : Nat} (point : HeaderPoint cb cbEnd maxIndex maxOfs d.pages d.index pos index)
    (aligned : d.ofs = 0) : ∃ (e : Destination) (fuel : Nat), cbEnd - pos < fuel ∧ e.index = index ∧ e.ofs = 0 ∧
      SamePages d.pages e.pages ∧ loopEvents cb cbEnd maxIndex maxOfs fuel pos e ⊆
        decompressEvents cb cbEnd maxIndex maxOfs d := by
  induction point with
  | first => exact ⟨d, cbEnd + 1, by omega, rfl, aligned, fun _ => rfl, List.Subset.refl _⟩
  | @next pos index here sub accepted more ih =>
    obtain ⟨e, fuel, enough, rfl, ofs, same, events⟩ := ih
    obtain ⟨fuel, rfl⟩ : ∃ n, fuel = n + 1 := ⟨fuel - 1, by omega⟩
    obtain ⟨f, index, ofsNext, sameNext, round⟩ := decompressRound_accepted sub ofs same accepted more
    rw [loopEvents, round] at events
    have later : pos < subBlockEnd cb pos := by
      rw [subBlockEnd]
      omega
    exact ⟨f, fuel, by have := sub.ends; omega, index, ofsNext, sameNext, (List.append_subset.mp events).2⟩

/-- A round is later than the one before it. -/
theorem decompressRound_later {next : Nat} {e : Destination}
    (goes : decompressRound cb cbEnd maxIndex maxOfs pos d = .doNextSb next e) : pos < next ∧ next ≤ cbEnd := by
  rw [decompressRound] at goes
  dsimp only at goes
  split at goes
  · cases goes
  split at goes
  · cases goes
  split at goes
  · cases goes
  split at goes
  · cases goes
  rename_i ends
  have advanced {page : Option Mem} {ofs place : Nat} (goes : d.advance maxIndex page ofs place = .doNextSb next e) :
      place = next := by
    rw [Destination.advance.eq_def] at goes
    dsimp only at goes
    split at goes
    · cases goes
      rfl
    · split at goes
      · cases goes
      · cases goes
        rfl
  split at goes
  · have := advanced goes
    omega
  split at goes
  · cases goes
  rename_i s decoded
  have place := advanced goes
  have ended : s.cb = pos + (getLE cb 2 pos &&& ntfsSbSizeMask) + 3 := by
    rw [decodeSubBlock] at decoded
    split at decoded
    · split at decoded
      · cases decoded
      · rw [← Option.some.inj decoded]
    · obtain ⟨t, tags, rfl⟩ := Option.map_eq_some_iff.mp decoded
      have := decodeTags_end tags
      rw [fillSubBlock]
      split <;> exact this
  omega

theorem decompressLoop_fuel {fuel fuel' : Nat} (enough : cbEnd - pos < fuel) (enough' : cbEnd - pos < fuel') :
    decompressLoop cb cbEnd maxIndex maxOfs fuel pos d = decompressLoop cb cbEnd maxIndex maxOfs fuel' pos d := by
  induction fuel generalizing fuel' pos d with
  | zero => omega
  | succ fuel ih =>
    obtain ⟨fuel', rfl⟩ : ∃ n, fuel' = n + 1 := ⟨fuel' - 1, by omega⟩
    rw [decompressLoop, decompressLoop]
    cases goes : decompressRound cb cbEnd maxIndex maxOfs pos d with
    | returned success e => rfl
    | doNextSb next e =>
      have later := decompressRound_later goes
      exact ih (by omega) (by omega)

theorem header_read {index : Nat} (point : HeaderPoint cb cbEnd maxIndex maxOfs d.pages d.index pos index)
    (aligned : d.ofs = 0) (more : pos ≠ cbEnd) : .read pos 2 ∈ decompressEvents cb cbEnd maxIndex maxOfs d := by
  obtain ⟨e, fuel, enough, rfl, ofs, same, events⟩ := point.events aligned
  obtain ⟨fuel, rfl⟩ : ∃ n, fuel = n + 1 := ⟨fuel - 1, by omega⟩
  refine events ?_
  rw [loopEvents, roundEvents, if_neg more]
  exact List.mem_append_left _ List.mem_cons_self

/-- The events of every token that is come to are among those of the decoder. -/
theorem TokenCome.events {out bit : Nat} (come : TokenCome cb cbEnd maxIndex maxOfs d.pages d.index pos out bit)
    (aligned : d.ofs = 0) : ∃ index sbEnd page tag tokens, pos < sbEnd ∧ out ≤ ntfsSbSize ∧ tag % 2 = bit ∧
      tokensEvents cb index sbEnd 0 (tokens + 1) tag ⟨pos, page, out⟩ ⊆ decompressEvents cb cbEnd maxIndex maxOfs d := by
  obtain ⟨start, index, tag, tokens, header, sub, present, compressed, point, inside, room, bit⟩ := come.reached
  obtain ⟨e, fuel, enough, rfl, ofs, same, events⟩ := header.events aligned
  obtain ⟨fuel, rfl⟩ : ∃ n, fuel = n + 1 := ⟨fuel - 1, by omega⟩
  obtain ⟨page, content⟩ := Option.isSome_iff_exists.mp ((same e.index).trans present)
  rw [loopEvents] at events
  have block := List.Subset.trans (roundEvents_at sub ofs content)
    (List.Subset.trans (List.subset_append_left _ _) events)
  rw [subBlockEvents, if_neg compressed] at block
  obtain ⟨page', _, _, tokenEvents, _⟩ := @TokenPoint.events cb e.index start (subBlockEnd cb start) page pos out tag
    (tokens + 1) point (by rw [subBlockEnd]; omega) room
  exact ⟨e.index, subBlockEnd cb start, page', tag, tokens, inside, room, bit, List.Subset.trans tokenEvents block⟩

end SubBlocks

/-- The decoder ends on every block. From the beginning of a sub-block on it reads only bytes of the
block and writes only bytes of the current sub-block of a page that is there, and goes on at the
beginning of a sub-block, just when no header and no phrase that it comes to begins with the last
byte of the block and no symbol that it comes to follows 4096 decoded bytes. -/
theorem decompress_safe_iff (cb : Mem) (cbSize maxIndex maxOfs : Nat) (d : Destination)
    (aligned : d.ofs % ntfsSbSize = 0) (inPage : d.ofs < pageSize) :
    (∀ fuel, cbSize < fuel → decompressLoop cb cbSize maxIndex maxOfs fuel 0 d = ntfsDecompress cb cbSize maxIndex maxOfs d) ∧
    (∀ start sbEnd ofs page fuel, start + 2 < sbEnd → sbEnd - start ≤ fuel →
      decodeTags cb sbEnd ofs fuel ⟨start + 2, page, ofs⟩ = decodeTags cb sbEnd ofs (sbEnd - start) ⟨start + 2, page, ofs⟩) ∧
    ((∀ event ∈ decompressEvents cb cbSize maxIndex maxOfs d, event.Inside cbSize d.pages) ↔
      TokensFit cb cbSize maxIndex maxOfs d.pages d.index) := by
  have zero : d.ofs = 0 := by
    simp only [ntfsSbSize, pageSize] at aligned inPage
    omega
  refine ⟨fun fuel enough => decompressLoop_fuel (by omega) (by omega), fun start sbEnd ofs page fuel some_tag enough =>
    decodeTags_fuel (by dsimp only; omega) (by dsimp only; omega), ?_, fun fits =>
    loopEvents_inside fits .first zero fun _ => rfl⟩
  intro inside
  refine ⟨fun pos index point last => ?_, fun pos out come full => ?_, fun pos out come some_byte last => ?_⟩
  · have := inside _ (header_read point zero (by omega))
    rw [DecoderEvent.Inside] at this
    omega
  · obtain ⟨index, sbEnd, page, tag, tokens, before, room, bit, events⟩ := come.events zero
    have goes : ¬ (pos ≥ sbEnd ∨ out > 0 + ntfsSbSize) := by omega
    rw [tokensEvents, if_neg goes, if_pos bit] at events
    have write := inside _ (events (List.mem_cons_of_mem _ List.mem_cons_self))
    have := write.2.2.1
    dsimp only at this
    omega
  · obtain ⟨index, sbEnd, page, tag, tokens, before, room, bit, events⟩ := come.events zero
    have goes : ¬ (pos ≥ sbEnd ∨ out > 0 + ntfsSbSize) := by omega
    have phrase : ¬ tag % 2 = 0 := by omega
    have some_out : ¬ out = 0 := by omega
    rw [tokensEvents, if_neg goes, if_neg phrase, phraseEvents, if_neg some_out] at events
    have read := inside _ (events (List.mem_append_left _ List.mem_cons_self))
    rw [DecoderEvent.Inside] at read
    dsimp only at read
    omega

/-- The beginning of two pages. -/
def twoPages : Destination := ⟨0, 0, fun index => if index < 2 then some zeros else none, []⟩

/-- A sub-block of a symbol and a phrase of five bytes. -/
def phraseBlock : Mem := fun i => [0x03, 0xb0, 0x02, 0x41, 0x02, 0x00].getD i 0

/-- The symbol, the phrase and the zeros up to the end of the sub-block are written within it. -/
theorem decompress_safe_phrase : TokensFit phraseBlock 8192 2 0 twoPages.pages 0 := by
  have events : decompressEvents phraseBlock 8192 2 0 twoPages = [.read 0 2, .read 2 1, .read 3 1, .write 0 0 0 1,
      .read 4 2, .reread 0 0 0 5, .write 0 0 1 5, .write 0 0 6 4090, .next 0, .read 6 2] := by decide +kernel
  refine (decompress_safe_iff phraseBlock 8192 2 0 twoPages (by decide) (by decide)).2.2.mp ?_
  rw [events]
  simp [DecoderEvent.Inside, twoPages, ntfsSbSize, pageSize]

/-- A sub-block of a symbol, a phrase of 4095 bytes and one more symbol. -/
def overfullBlock : Mem := fun i => [0x04, 0xb0, 0x02, 0x41, 0xfc, 0x0f, 0x42].getD i 0

/-- The last symbol is written behind the sub-block, which is the end of the page. -/
theorem decompress_writes_behind : .write 0 0 4096 1 ∈ decompressEvents overfullBlock 8192 2 0 twoPages ∧
    ¬ ∀ event ∈ decompressEvents overfullBlock 8192 2 0 twoPages, event.Inside 8192 twoPages.pages := by
  have written : .write 0 0 4096 1 ∈ decompressEvents overfullBlock 8192 2 0 twoPages := by decide +kernel
  refine ⟨written, fun inside => ?_⟩
  have room := (inside _ written).2.2.1
  exact absurd room (by decide)

end Ttntfs.Ntfs
