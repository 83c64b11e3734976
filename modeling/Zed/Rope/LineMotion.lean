import Zed.Rope.Reading

namespace zed.rope

open sum_tree (Bias)
open sum_tree.Node.Cursor (Located Before)

namespace Chunks

variable (self : Chunks)

def pass_chunk_end : Option Chunks :=
  if self.offset = self.chunks.stop ChunkSummary.len then self.next.map Prod.snd else some self

/-- Goes back to the end of the range when past it. -/
def clamp_to_end : Option Chunks :=
  if self.offset > self.range_end then do
    let offset := min self.offset self.range_end
    let (_, chunks) ← self.chunks.seek ChunkSummary.len offset Bias.Right
    some { self with offset, chunks }
  else some self

/-- Panics for a reader that goes backwards. -/
def next_line : Option (Bool × Chunks) := do
  if self.reversed then none
  else
    let (found, self) ←
      match ← self.peek with
      | none => some (false, self)
      | some chunk => do
        let (found, self) ←
          match str.find chunk with
          | some newline_ix =>
            let offset := self.offset + (newline_ix + 1)
            some (decide (offset ≤ self.range_end), { self with offset })
          | none => do
            let chunks := self.chunks.search_forward ChunkSummary.len ChunkSummary.has_newline
            let self := { self with chunks, offset := chunks.start }
            match (← self.peek).bind str.find with
            | some newline_ix =>
              let offset := self.offset + (newline_ix + 1)
              some (decide (offset ≤ self.range_end), { self with offset })
            | none => some (false, { self with offset := chunks.stop ChunkSummary.len })
        let self ← self.pass_chunk_end
        some (found, self)
    let self ← self.clamp_to_end
    some (found, self)

/-- The last part of `prev_line`, when the chunk that the offset is in has no line start to go to. -/
def prev_chunk_line (initial_offset : Nat) : Option (Bool × Chunks) := do
  let chunks := self.chunks.search_backward ChunkSummary.len ChunkSummary.has_newline
  let self := { self with chunks, offset := chunks.start }
  let newline := chunks.item.bind fun chunk => str.rfind chunk.text
  let self := { self with offset := self.offset + (newline.map (· + 1)).getD 0 }
  if newline.isSome && self.offset_is_valid then
    let chunks :=
      if self.offset = self.chunks.stop ChunkSummary.len then self.chunks.next ChunkSummary.len else self.chunks
    some (true, { self with chunks })
  else if !self.offset_is_valid || self.chunks.item.isNone then
    let (_, chunks) ← self.chunks.seek ChunkSummary.len self.range_start Bias.Right
    some (decide (self.range_start < initial_offset) && decide (self.range_start = 0),
      { self with offset := self.range_start, chunks })
  else some (decide (self.offset < initial_offset) && decide (self.offset = 0), self)

/-- Panics for a reader that goes backwards. -/
def prev_line : Option (Bool × Chunks) := do
  if self.reversed then none
  else
    let initial_offset := self.offset
    let chunks := if self.offset = self.chunks.start then self.chunks.prev ChunkSummary.len else self.chunks
    let self := { self with chunks }
    match chunks.item with
    | none => self.prev_chunk_line initial_offset
    | some chunk =>
      let chunk_start := chunks.start
      if self.offset ≤ chunk_start then none
      else
        let end_ix := self.offset - chunk_start
        let byte ← (utf8 chunk.text)[end_ix - 1]?
        let text ← str.slice chunk.text 0 (if byte = 10 then end_ix - 1 else end_ix)
        match str.rfind text with
        | none => self.prev_chunk_line initial_offset
        | some newline_ix =>
          let self := { self with offset := chunk_start + newline_ix + 1 }
          if self.offset_is_valid then some (true, self) else self.prev_chunk_line initial_offset

end Chunks

section Text

/-- Where a line of a text starts: at its beginning, or after a newline. -/
def LineStart (text : Str) (offset : Nat) : Prop :=
  ∃ before after, text = before ++ after ∧ byteLen before = offset ∧ (before = [] ∨ before.getLast? = some '\n')

theorem LineStart.boundary {text : Str} {offset : Nat} (h : LineStart text offset) : Boundary text offset := by
  obtain ⟨before, after, htext, hlength, -⟩ := h
  exact ⟨before, after, htext, hlength⟩

theorem newline_len : byteLen ['\n'] = 1 := rfl

theorem str.find_none {text : Str} : str.find text = none ↔ '\n' ∉ text := by
  induction text with
  | nil => simp [str.find]
  | cons char text ih =>
    rw [str.find, List.mem_cons, not_or, ← ih]
    by_cases hchar : char = '\n'
    · simp [hchar]
    · rw [if_neg hchar, Option.map_eq_none_iff]
      exact ⟨fun h => ⟨Ne.symm hchar, h⟩, fun h => h.2⟩

theorem str.find_some {text : Str} {ix : Nat} (h : str.find text = some ix) :
    ∃ line rest, text = line ++ '\n' :: rest ∧ '\n' ∉ line ∧ byteLen line = ix := by
  induction text generalizing ix with
  | nil => cases h
  | cons char text ih =>
    rw [str.find] at h
    split at h
    · rename_i hchar
      cases h
      exact ⟨[], text, by rw [hchar]; rfl, List.not_mem_nil, rfl⟩
    · rename_i hchar
      obtain ⟨ix', hix', rfl⟩ := Option.map_eq_some_iff.mp h
      obtain ⟨line, rest, rfl, hline, hlength⟩ := ih hix'
      refine ⟨char :: line, rest, rfl, ?_, by rw [byteLen_cons, hlength]⟩
      rw [List.mem_cons, not_or]
      exact ⟨Ne.symm hchar, hline⟩

theorem str.rfind_none {text : Str} : str.rfind text = none ↔ '\n' ∉ text := by
  induction text with
  | nil => simp [str.rfind]
  | cons char text ih =>
    rw [str.rfind, List.mem_cons, not_or]
    cases hrest : str.rfind text with
    | some ix => simp [← ih, hrest]
    | none =>
      have hnone := ih.mp hrest
      by_cases hchar : char = '\n'
      · simp [hchar]
      · simp [hchar, hnone, Ne.symm hchar]

theorem str.rfind_some {text : Str} {ix : Nat} (h : str.rfind text = some ix) :
    ∃ front line, text = front ++ '\n' :: line ∧ '\n' ∉ line ∧ byteLen front = ix := by
  induction text generalizing ix with
  | nil => cases h
  | cons char text ih =>
    rw [str.rfind] at h
    cases hrest : str.rfind text with
    | some ix' =>
      rw [hrest] at h
      cases h
      obtain ⟨front, line, rfl, hline, hlength⟩ := ih hrest
      exact ⟨char :: front, line, rfl, hline, by rw [byteLen_cons, hlength]⟩
    | none =>
      rw [hrest] at h
      dsimp only at h
      split at h
      · rename_i hchar
        cases h
        exact ⟨[], text, by rw [hchar]; rfl, str.rfind_none.mp hrest, rfl⟩
      · cases h

/-- The last byte of a character is a newline when the character is one. -/
theorem last_byte (front : Str) (char : Char) (rest : Str) :
    ∃ byte, (utf8 (front ++ char :: rest))[byteLen front + char.utf8Size - 1]? = some byte ∧ (byte = 10 ↔ char = '\n') := by
  have hpos := char.utf8Size_pos
  have hlength := String.length_utf8EncodeChar char
  have hindex : byteLen front + char.utf8Size - 1 - (utf8 front).length = char.utf8Size - 1 := by
    change byteLen front + char.utf8Size - 1 - byteLen front = _
    omega
  have hle : (utf8 front).length ≤ byteLen front + char.utf8Size - 1 := by
    change byteLen front ≤ _
    omega
  have hlt : char.utf8Size - 1 < (String.utf8EncodeChar char).length := by omega
  rw [utf8_append_text, utf8_cons, List.getElem?_append_right hle, hindex, List.getElem?_append_left hlt,
    List.getElem?_eq_getElem hlt]
  refine ⟨_, rfl, ?_⟩
  have hbit := congrArg (·[char.utf8Size - 1]?) (char_bits char).2.2
  simp only [List.getElem?_map, List.getElem?_eq_getElem hlt, Option.map_some] at hbit
  generalize (String.utf8EncodeChar char)[char.utf8Size - 1] = byte at hbit ⊢
  rcases hsize : char.utf8Size - 1 with _ | n
  · simp only [hsize, List.getElem?_cons_zero, Option.some.injEq, decide_eq_decide] at hbit
    exact hbit
  · have hother : char ≠ '\n' := by
      rintro rfl
      cases hsize
    simp only [hsize, List.getElem?_cons_succ, List.getElem?_replicate, Nat.lt_succ_self, if_true, Option.some.injEq,
      decide_eq_false_iff_not] at hbit
    exact iff_of_false hbit hother

/-- No line starts inside a text without a newline, nor right after it. -/
theorem no_line_start {before middle after : Str} (h : '\n' ∉ middle) {start : Nat}
    (hstart : LineStart (before ++ middle ++ after) start) (hgt : byteLen before < start) :
    byteLen before + byteLen middle < start := by
  obtain ⟨front, rest, htext, rfl, hlast⟩ := hstart
  by_contra hle
  rw [Nat.not_lt] at hle
  rw [List.append_assoc] at htext
  obtain ⟨part, rfl⟩ := prefix_of_length_le htext hgt.le
  have hpart : part ≠ [] := by
    rintro rfl
    rw [List.append_nil] at hgt
    exact Nat.lt_irrefl _ hgt
  rw [List.append_assoc] at htext
  have hmiddle := List.append_cancel_left htext
  rw [byteLen_append] at hle
  obtain ⟨rest', rfl⟩ := prefix_of_length_le hmiddle.symm (Nat.le_of_add_le_add_left hle)
  rcases hlast with hnil | hlast
  · exact hpart (List.append_eq_nil_iff.mp hnil).2
  · rw [List.getLast?_append_of_ne_nil _ hpart] at hlast
    exact h (List.mem_append_left _ (List.mem_of_getLast? hlast))

theorem line_start_after_newline (before after : Str) :
    LineStart (before ++ '\n' :: after) (byteLen before + 1) := by
  refine ⟨before ++ ['\n'], after, by simp, ?_, Or.inr (by simp)⟩
  rw [byteLen_append]
  rfl

end Text

namespace Chunks

variable {rope : ChunkTree} {range_start range_end : Nat} {self : Chunks} {place : sum_tree.Cursor Chunk}

def Clear (text : Str) (offset stop : Nat) : Prop := ∀ start, LineStart text start → offset < start → stop < start

theorem clear_of_split {text before middle after : Str} (htext : text = before ++ middle ++ after) (h : '\n' ∉ middle) :
    Clear text (byteLen before) (byteLen before + byteLen middle) := by
  subst htext
  exact fun start hstart hgt => no_line_start h hstart hgt

theorem Clear.mono {text : Str} {offset stop stop' : Nat} (h : Clear text offset stop) (hle : stop' ≤ stop) :
    Clear text offset stop' := fun start hstart hgt => hle.trans_lt (h start hstart hgt)

/-- A reader of a range, wherever its cursor is in the chunk tree. -/
structure Ranged (rope : ChunkTree) (range_start range_end : Nat) (reader : Chunks) (place : sum_tree.Cursor Chunk) :
    Prop where
  located : Located ChunkSummary.len rope.chunks reader.chunks place
  start_eq : reader.range_start = range_start
  end_eq : reader.range_end = range_end
  forward : reader.reversed = false

theorem Ranged.valid (h : Ranged rope range_start range_end self place) :
    self.offset_is_valid = (decide (range_start ≤ self.offset) && decide (self.offset < range_end)) := by
  rw [offset_is_valid, h.forward, h.start_eq, h.end_eq, Bool.eq_iff_iff]
  simp only [Bool.false_eq_true, if_false, Bool.not_eq_true', Bool.or_eq_false_iff, decide_eq_false_iff_not,
    decide_eq_true_eq, Bool.and_eq_true]
  omega

theorem Ranged.peek_past (h : Ranged rope range_start range_end self place) (hend : range_end ≤ self.offset) :
    self.peek = some none := by
  rw [Chunks.peek, h.valid, if_neg]
  simp only [Bool.and_eq_true, decide_eq_true_eq, not_and]
  omega

/-- Once past the end of the range `next_line` comes back to it. -/
theorem Ranged.finish_past (hrange : CharRange rope range_start range_end)
    (h : Ranged rope range_start range_end self place) (hend : range_end ≤ self.offset)
    (hstop : self.offset = place.stop chunkLen) :
    ∃ self' place', (self.pass_chunk_end.bind clamp_to_end) = some self' ∧
      Reading rope range_start range_end self' place' ∧ self'.offset = range_end := by
  have hnext : self.next = some (none, self) := by
    rw [Chunks.next, h.peek_past hend]
    rfl
  have hpass : self.pass_chunk_end = some self := by
    rw [pass_chunk_end, hnext]
    split <;> rfl
  rw [hpass, Option.bind_some, clamp_to_end, h.end_eq]
  rcases Nat.eq_or_lt_of_le hend with hsame | hgt
  · rw [if_neg (by omega)]
    refine ⟨self, place, rfl, ⟨h.located, h.start_eq, h.end_eq, h.forward, hsame ▸ hrange.le, hsame.ge, ?_, ?_, ?_⟩,
      hsame.symm⟩
    · rw [← hsame]
      exact hrange.end_boundary
    · rw [hstop, sum_tree.Cursor.stop]
      exact Nat.le_add_right _ _
    · exact Or.inr ⟨hsame.symm, hstop.le⟩
  · obtain ⟨hit, chunks, place', hseek, hreading⟩ := Reading.of_seek hrange self.chunks h.located.root hrange.le
      (Nat.le_refl _) hrange.end_boundary
    rw [if_pos hgt, min_eq_right hend]
    simp only [hseek, Option.bind_eq_bind, Option.bind_some, h.start_eq, h.forward]
    exact ⟨_, place', rfl, hreading, rfl⟩

theorem Ranged.finish_found (hrange : CharRange rope range_start range_end)
    (h : Ranged rope range_start range_end self place) (hstart_le : range_start ≤ self.offset)
    (hle_end : self.offset ≤ range_end) (hboundary : Boundary rope.text self.offset)
    (hplace : place.start chunkLen < self.offset) (hstop : self.offset ≤ place.stop chunkLen) :
    ∃ self' place', (self.pass_chunk_end.bind clamp_to_end) = some self' ∧
      Reading rope range_start range_end self' place' ∧ self'.offset = self.offset := by
  have hclamp : ∀ self' : Chunks, self'.range_end = range_end → self'.offset ≤ range_end →
      self'.clamp_to_end = some self' := by
    intro self' hend hle
    rw [clamp_to_end, hend, if_neg (Nat.not_lt.mpr hle)]
  have hcursor : self.chunks.stop ChunkSummary.len = place.stop chunkLen := h.located.stop
  rw [pass_chunk_end, hcursor]
  rcases Nat.eq_or_lt_of_le hstop with hsame | hlt
  · rw [if_pos hsame]
    rcases Nat.eq_or_lt_of_le hle_end with hend | hmore
    · have hnext : self.next = some (none, self) := by
        rw [Chunks.next, h.peek_past hend.ge]
        rfl
      rw [hnext]
      refine ⟨self, place, hclamp self h.end_eq hle_end, ⟨h.located, h.start_eq, h.end_eq, h.forward, hstart_le, hle_end,
        hboundary, hplace.le, Or.inr ⟨hend, hstop⟩⟩, rfl⟩
    · have hadvance := Reading.advance hrange h.located h.start_eq h.end_eq h.forward hstart_le hle_end hboundary hsame
      have hnext : self.next = some (some [], { self with chunks := self.chunks.next ChunkSummary.len }) := by
        cases hrest : place.rest with
        | nil =>
          rw [hsame, place_stop_nil hrest, place_start] at hplace
          exact absurd hplace (Nat.lt_irrefl _)
        | cons chunk rest =>
          have hitem : self.chunks.item = some chunk := by
            rw [h.located.item, sum_tree.Cursor.item, hrest]
            rfl
          have hstart : self.chunks.start = byteLen (textOf place.passed) := h.located.position.trans (place_start place)
          have hoffset : self.offset = byteLen (textOf place.passed) + byteLen chunk.text := hsame.trans (place_stop hrest)
          have hslice : str.slice chunk.text (byteLen chunk.text) (byteLen chunk.text) = some [] := by
            have hnone := str.slice_middle chunk.text [] []
            rwa [List.append_nil, List.append_nil, byteLen_nil, Nat.add_zero] at hnone
          have hpeek : self.peek = some (some []) := by
            have hnot : ¬ self.offset < byteLen (textOf place.passed) := by omega
            have hfrom : self.offset - byteLen (textOf place.passed) = byteLen chunk.text := by omega
            have hto : min (place.stop chunkLen) range_end - byteLen (textOf place.passed) = byteLen chunk.text := by omega
            rw [Chunks.peek, h.valid, if_pos (by simp [hstart_le, hmore]), hitem]
            simp only [hstart, if_neg hnot, h.forward, Bool.false_eq_true, if_false, hcursor, h.end_eq, hfrom, hto, hslice]
            rfl
          rw [Chunks.next, hpeek]
          simp only [Option.bind_eq_bind, Option.bind_some, h.forward, Bool.false_eq_true, if_false]
          rw [if_pos (by rw [hcursor]; exact hsame.ge)]
          rfl
      rw [hnext]
      exact ⟨_, _, hclamp _ h.end_eq hle_end, hadvance, rfl⟩
  · rw [if_neg hlt.ne]
    exact ⟨self, place, hclamp self h.end_eq hle_end, ⟨h.located, h.start_eq, h.end_eq, h.forward, hstart_le, hle_end,
      hboundary, hplace.le, Or.inl hlt⟩, rfl⟩

theorem no_newline_of_skipped {chunks : List Chunk} (hvalid : ∀ chunk ∈ chunks, chunk.Valid)
    (hskipped : ∀ chunk ∈ chunks, chunkThrough chunk = false) : '\n' ∉ textOf chunks := by
  intro hmem
  obtain ⟨chunk, hchunk, hnewline⟩ := List.mem_flatMap.mp hmem
  have hthrough := hskipped chunk hchunk
  rw [chunk_has_newline (hvalid chunk hchunk), decide_eq_false_iff_not] at hthrough
  exact hthrough hnewline

theorem Reading.search (hrange : CharRange rope range_start range_end)
    (h : Reading rope range_start range_end self place) (hlt : self.offset < range_end) {chunk : Str}
    (hpeek : self.peek = some (some chunk)) (hnone : '\n' ∉ chunk) :
    Clear rope.text self.offset (min ((place.search_forward chunkThrough).start chunkLen) range_end) ∧
      self.offset < (place.search_forward chunkThrough).start chunkLen ∧
      ∀ first rest, (place.search_forward chunkThrough).rest = first :: rest → '\n' ∈ first.text := by
  obtain ⟨before, chunk', after, htext, hbefore, hne, hlength, hpeek'⟩ := h.peek hrange hlt
  obtain rfl : chunk' = chunk := by
    rw [hpeek] at hpeek'
    cases hpeek'
    rfl
  obtain ⟨first, rest, -, -, hrest, -, -, htext', -⟩ := h.chunk hlt
  have hitems := h.located.items
  have hpos := byteLen_pos hne
  have hplace : place.search_forward chunkThrough =
      { passed := place.passed ++ first :: rest.takeWhile (!chunkThrough ·)
        rest := rest.dropWhile (!chunkThrough ·) } := by
    rw [sum_tree.Cursor.search_forward, hrest]
  have hvalid : ∀ chunk ∈ rest, chunk.Valid := fun chunk hchunk => (rope.valid chunk (by
    rw [← hitems, hrest]
    exact List.mem_append_right _ (List.mem_cons_of_mem _ hchunk))).1
  have hskipped : '\n' ∉ textOf (rest.takeWhile (!chunkThrough ·)) :=
    no_newline_of_skipped (fun chunk hchunk => hvalid chunk (List.takeWhile_subset _ hchunk)) fun chunk hchunk => by
      simpa using List.mem_takeWhile_imp hchunk
  have hstart : (place.search_forward chunkThrough).start chunkLen =
      place.stop chunkLen + byteLen (textOf (rest.takeWhile (!chunkThrough ·))) := by
    rw [hplace, place_start, place_stop hrest, Nat.add_assoc, ← byteLen_append, ← byteLen_append]
    simp only [textOf, List.flatMap_append, List.flatMap_cons]
  refine ⟨?_, ?_, fun first' rest' hrest' => ?_⟩
  · rcases Nat.le_total range_end (place.stop chunkLen) with hinside | hpast
    · have hclear := clear_of_split htext hnone
      rw [hbefore, hlength, min_eq_right hinside] at hclear
      exact hclear.mono (min_le_right _ _)
    · rw [min_eq_left hpast] at hlength
      obtain ⟨-, hafter⟩ : before ++ chunk' = textOf place.passed ++ first.text ∧ after = textOf rest :=
        append_inj_of_byteLen (htext.symm.trans htext') (by
          rw [byteLen_append, hbefore, hlength, place_stop hrest, byteLen_append])
      have hrestText : textOf rest =
          textOf (rest.takeWhile (!chunkThrough ·)) ++ textOf (rest.dropWhile (!chunkThrough ·)) := by
        rw [textOf, textOf, textOf, ← List.flatMap_append, List.takeWhile_append_dropWhile]
      rw [hafter, hrestText, ← List.append_assoc, List.append_assoc before] at htext
      have hclear := clear_of_split htext (by
        rw [List.mem_append, not_or]
        exact ⟨hnone, hskipped⟩)
      rw [byteLen_append, ← Nat.add_assoc, hbefore, hlength, ← hstart] at hclear
      exact hclear.mono (min_le_left _ _)
  · rw [hstart]
    omega
  · have hdrop : rest.dropWhile (!chunkThrough ·) = first' :: rest' := by
      rw [hplace] at hrest'
      exact hrest'
    have hmem : first' ∈ rest := (List.dropWhile_suffix _).subset (by rw [hdrop]; exact List.mem_cons_self)
    have hthrough := List.head?_dropWhile_not (!chunkThrough ·) rest
    rw [hdrop, List.head?_cons] at hthrough
    have hnewline := chunk_has_newline (hvalid first' hmem)
    rw [show chunkThrough first' = true by simpa using hthrough] at hnewline
    simpa using hnewline.symm

/-- A newline that `peek` sees: the next line starts after it. -/
theorem Reading.newline_ahead (hrange : CharRange rope range_start range_end)
    (h : Reading rope range_start range_end self place) (hlt : self.offset < range_end) {line rest : Str}
    (hpeek : self.peek = some (some (line ++ '\n' :: rest))) (hline : '\n' ∉ line) :
    ∃ self' place',
      (pass_chunk_end { self with offset := self.offset + (byteLen line + 1) }).bind clamp_to_end = some self' ∧
      Reading rope range_start range_end self' place' ∧ self.offset + (byteLen line + 1) ≤ range_end ∧
      self'.offset = self.offset + (byteLen line + 1) ∧ LineStart rope.text self'.offset ∧
      Clear rope.text self.offset (self'.offset - 1) := by
  obtain ⟨before, chunk, after, htext, hbefore, hne, hlength, hpeek'⟩ := h.peek hrange hlt
  obtain rfl : chunk = line ++ '\n' :: rest := by
    rw [hpeek] at hpeek'
    cases hpeek'
    rfl
  have hsplit : rope.text = before ++ line ++ '\n' :: (rest ++ after) := by
    rw [htext]
    simp
  obtain ⟨hle, hstop⟩ : self.offset + (byteLen line + 1) ≤ range_end ∧
      self.offset + (byteLen line + 1) ≤ place.stop chunkLen := by
    rw [byteLen_append, byteLen_cons, show '\n'.utf8Size = 1 from rfl] at hlength
    omega
  have hstart : LineStart rope.text (self.offset + (byteLen line + 1)) := by
    have hafter := line_start_after_newline (before ++ line) (rest ++ after)
    rw [← hsplit, byteLen_append, hbefore, Nat.add_assoc] at hafter
    exact hafter
  have hclear := clear_of_split hsplit hline
  rw [hbefore] at hclear
  have hplace := h.place_le
  obtain ⟨self', place', hfinish, hreading, hoffset⟩ := @Ranged.finish_found rope range_start range_end
    { self with offset := self.offset + (byteLen line + 1) } place hrange ⟨h.located, h.start_eq, h.end_eq, h.forward⟩
    (h.start_le.trans (Nat.le_add_right _ _)) hle hstart.boundary
    (by change _ < self.offset + (byteLen line + 1); omega) hstop
  dsimp only at hoffset
  refine ⟨self', place', hfinish, hreading, hle, hoffset, ?_, ?_⟩
  · rw [hoffset]
    exact hstart
  · rw [hoffset]
    exact hclear

theorem Reading.next_line (hrange : CharRange rope range_start range_end)
    (h : Reading rope range_start range_end self place) :
    ∃ found self' place', self.next_line = some (found, self') ∧ Reading rope range_start range_end self' place' ∧
      ((found = true ∧ LineStart rope.text self'.offset ∧ self.offset < self'.offset ∧
          Clear rope.text self.offset (self'.offset - 1)) ∨
        (found = false ∧ self'.offset = range_end ∧ Clear rope.text self.offset range_end)) := by
  obtain ⟨chunks, start', end', offset, reversed⟩ := self
  obtain rfl : range_start = start' := h.start_eq.symm
  obtain rfl : range_end = end' := h.end_eq.symm
  obtain rfl : reversed = false := h.forward
  rw [Chunks.next_line]
  simp only [Bool.false_eq_true, if_false, Option.bind_eq_bind]
  rcases Nat.eq_or_lt_of_le h.le_end with hend | hlt
  · rw [h.peek_end hend]
    have hclamp : clamp_to_end ⟨chunks, range_start, range_end, offset, false⟩ =
        some ⟨chunks, range_start, range_end, offset, false⟩ := by
      rw [clamp_to_end, if_neg (by dsimp only at hend ⊢; omega)]
    simp only [Option.bind_some, hclamp]
    refine ⟨false, _, place, rfl, h, Or.inr ⟨rfl, hend, fun start _ hgt => hend ▸ hgt⟩⟩
  · obtain ⟨before, chunk, after, htext, hbefore, hne, hlength, hpeek⟩ := h.peek hrange hlt
    rw [hpeek]
    simp only [Option.bind_some]
    cases hfind : str.find chunk with
    | some newline_ix =>
      obtain ⟨line, rest, rfl, hline, rfl⟩ := str.find_some hfind
      obtain ⟨self', place', hfinish, hreading, hle, hoffset, hstart, hclear⟩ := h.newline_ahead hrange hlt hpeek hline
      dsimp only at hle hoffset hfinish ⊢
      rw [← Option.bind_assoc, hfinish, decide_eq_true hle]
      exact ⟨true, self', place', rfl, hreading, Or.inl ⟨rfl, hstart, by omega, hclear⟩⟩
    | none =>
      have hnone := str.find_none.mp hfind
      obtain ⟨hclear, hgt, hnewline⟩ := h.search hrange hlt hpeek hnone
      have hlocated := sum_tree.Node.Cursor.search_forward_located len_additive has_newline_lets_through h.located
      change Located _ _ _ (place.search_forward chunkThrough) at hlocated
      have hstart : (chunks.search_forward ChunkSummary.len ChunkSummary.has_newline).start =
          (place.search_forward chunkThrough).start chunkLen := hlocated.position
      have hcursorStop : (chunks.search_forward ChunkSummary.len ChunkSummary.has_newline).stop ChunkSummary.len =
          (place.search_forward chunkThrough).stop chunkLen := hlocated.stop
      generalize place.search_forward chunkThrough = found at hclear hgt hnewline hlocated hstart hcursorStop
      simp only [hstart, hcursorStop]
      have hranged : ∀ offset, Ranged rope range_start range_end
          ⟨chunks.search_forward ChunkSummary.len ChunkSummary.has_newline, range_start, range_end, offset, false⟩ found :=
        fun offset => ⟨hlocated, rfl, rfl, rfl⟩
      rcases Nat.lt_or_ge (found.start chunkLen) range_end with hbefore' | hpast
      · rw [min_eq_left hbefore'.le] at hclear
        cases hrest : found.rest with
        | nil =>
          have hle := hrange.end_boundary.le
          rw [text_at_end hlocated.items hrest] at hle
          omega
        | cons first rest =>
          have hfirst := byteLen_pos (chunk_valid hlocated.items hrest).2
          have hstop := place_stop hrest
          have hin : found.start chunkLen < found.stop chunkLen := by
            rw [hstop, place_start]
            omega
          have hreading := Reading.of_place hrange (hranged (found.start chunkLen)).located h.start_eq h.end_eq rfl
            (h.start_le.trans hgt.le) hbefore'.le (place_boundary hlocated.items) (Nat.le_refl _) (Or.inl hin)
          obtain ⟨before', chunk', after', htext', hlength', -, hchunk, hpeek'⟩ := hreading.peek hrange hbefore'
          dsimp only at hlength' hchunk
          simp only [hpeek', Option.bind_some]
          cases hfind' : str.find chunk' with
          | some newline_ix =>
            obtain ⟨line, rest', rfl, hline, rfl⟩ := str.find_some hfind'
            obtain ⟨self', place', hfinish, hreading', hle, hoffset, hstart', hclear'⟩ :=
              hreading.newline_ahead hrange hbefore' hpeek' hline
            dsimp only at hle hoffset hclear' hfinish ⊢
            rw [← Option.bind_assoc, hfinish, decide_eq_true hle]
            refine ⟨true, self', place', rfl, hreading', Or.inl ⟨rfl, hstart', ?_, fun start hline hgt' => ?_⟩⟩
            · rw [hoffset]
              exact hgt.trans (Nat.lt_add_of_pos_right (Nat.succ_pos _))
            · exact hclear' start hline (hclear start hline hgt')
          | none =>
            have hnone' := str.find_none.mp hfind'
            -- the newline of the chunk comes after the end of the range
            have hcut : range_end < found.stop chunkLen := by
              by_contra hwhole
              rw [min_eq_left (Nat.not_lt.mp hwhole), hstop, place_start] at hchunk
              obtain ⟨-, hrestText⟩ : before' = textOf found.passed ∧ chunk' ++ after' = first.text ++ textOf rest :=
                append_inj_of_byteLen
                  (by rw [← List.append_assoc, ← htext', text_of_chunk hlocated.items hrest, List.append_assoc])
                  (hlength'.trans (place_start found))
              obtain ⟨hsame, -⟩ := append_inj_of_byteLen hrestText (Nat.add_left_cancel hchunk)
              exact hnone' (hsame ▸ hnewline first rest hrest)
            rw [min_eq_right hcut.le] at hchunk
            obtain ⟨self', place', hfinish, hreading', hoffset⟩ :=
              (hranged (found.stop chunkLen)).finish_past hrange hcut.le rfl
            rw [← Option.bind_assoc, hfinish]
            refine ⟨false, self', place', rfl, hreading', Or.inr ⟨rfl, hoffset, fun start hline hgt' => ?_⟩⟩
            have hclear' := clear_of_split htext' hnone'
            rw [hlength', hchunk] at hclear'
            exact hclear' start hline (hclear start hline hgt')
      · rw [min_eq_right hpast] at hclear
        rw [(hranged (found.start chunkLen)).peek_past hpast]
        simp only [Option.bind_some, Option.bind_none]
        have hle : range_end ≤ found.stop chunkLen := hpast.trans (Nat.le_add_right _ _)
        obtain ⟨self', place', hfinish, hreading, hoffset⟩ :=
          (hranged (found.stop chunkLen)).finish_past hrange hle rfl
        rw [← Option.bind_assoc, hfinish]
        exact ⟨false, self', place', rfl, hreading, Or.inr ⟨rfl, hoffset, hclear⟩⟩

/-- What `prev_line` goes to: the greatest line start before an offset in the range, or else its start. -/
def PrevStart (text : Str) (range_start offset offset' : Nat) : Prop :=
  (LineStart text offset' ∧ range_start ≤ offset' ∧ offset' < offset ∧ Clear text offset' (offset - 1)) ∨
    (offset' = range_start ∧ ∀ start, LineStart text start → range_start ≤ start → offset ≤ start)

/-- A cursor after some chunks, or before the first one. -/
def After (rope : ChunkTree) (cursor : sum_tree.Node.Cursor Chunk ChunkSummary) (passed : List Chunk) : Prop :=
  (∃ place, Located ChunkSummary.len rope.chunks cursor place ∧ place.passed = passed) ∨
    (Before rope.chunks cursor ∧ passed = [])

theorem After.root {cursor : sum_tree.Node.Cursor Chunk ChunkSummary} {passed : List Chunk}
    (h : After rope cursor passed) : cursor.tree = rope.chunks.node := by
  rcases h with ⟨place, hlocated, -⟩ | ⟨hbefore, -⟩
  · exact hlocated.root
  · exact hbefore.root

theorem After.search {cursor : sum_tree.Node.Cursor Chunk ChunkSummary} {passed : List Chunk}
    (h : After rope cursor passed) :
    (∃ front chunk middle place, Located ChunkSummary.len rope.chunks
        (cursor.search_backward ChunkSummary.len ChunkSummary.has_newline) place ∧
        passed = front ++ chunk :: middle ∧ place.passed = front ∧ (∃ rest, place.rest = chunk :: (middle ++ rest)) ∧
        '\n' ∈ chunk.text ∧ '\n' ∉ textOf middle) ∨
      (After rope (cursor.search_backward ChunkSummary.len ChunkSummary.has_newline) [] ∧
        (cursor.search_backward ChunkSummary.len ChunkSummary.has_newline).item = none ∧ '\n' ∉ textOf passed) := by
  rcases h with ⟨place, hlocated, rfl⟩ | ⟨hbefore, rfl⟩
  · have hvalid : ∀ chunk ∈ place.passed, chunk.Valid := fun chunk hchunk => (rope.valid chunk (by
      rw [← hlocated.items]
      exact List.mem_append_left _ hchunk)).1
    have hsearch := sum_tree.Node.Cursor.search_backward_located len_additive has_newline_lets_through hlocated
    obtain ⟨passed, rest⟩ := place
    cases hfound : sum_tree.Cursor.search_backward chunkThrough ⟨passed, rest⟩ with
    | some place' =>
      rw [show sum_tree.Cursor.search_backward (sum_tree.itemThrough ChunkSummary.has_newline) ⟨passed, rest⟩ =
        some place' from hfound] at hsearch
      obtain ⟨chunk, middle, hpassed, hrest, hthrough, hmiddle⟩ := sum_tree.Cursor.search_backward_some _ hfound
      refine Or.inl ⟨place'.passed, chunk, middle, place', hsearch, hpassed, rfl, ⟨rest, hrest⟩, ?_, ?_⟩
      · have hnewline := chunk_has_newline (hvalid chunk (by
          change chunk ∈ passed
          rw [hpassed]
          simp))
        rw [hthrough] at hnewline
        simpa using hnewline.symm
      · refine no_newline_of_skipped (fun other hother => hvalid other ?_) hmiddle
        change other ∈ passed
        rw [hpassed]
        simp [hother]
    | none =>
      rw [show sum_tree.Cursor.search_backward (sum_tree.itemThrough ChunkSummary.has_newline) ⟨passed, rest⟩ =
        none from hfound] at hsearch
      have hnone := no_newline_of_skipped hvalid (sum_tree.Cursor.search_backward_none _ hfound)
      rcases hsearch with ⟨hempty, hlocated'⟩ | hbefore
      · have hitems := hlocated'.items
        rw [hempty] at hitems
        have hpassed : passed = [] := (List.append_eq_nil_iff.mp hitems).1
        have hrest : rest = [] := (List.append_eq_nil_iff.mp hitems).2
        refine Or.inr ⟨Or.inl ⟨_, hlocated', hpassed⟩, ?_, hnone⟩
        rw [hlocated'.item, sum_tree.Cursor.item, hrest]
        rfl
      · exact Or.inr ⟨Or.inr ⟨hbefore, rfl⟩, hbefore.item, hnone⟩
  · exact Or.inr ⟨Or.inr ⟨hbefore.search_backward, rfl⟩, hbefore.search_backward.item, List.not_mem_nil⟩

theorem After.text {cursor : sum_tree.Node.Cursor Chunk ChunkSummary} {passed : List Chunk}
    (h : After rope cursor passed) : ∃ after, rope.text = textOf passed ++ after := by
  rcases h with ⟨place, hlocated, rfl⟩ | ⟨-, rfl⟩
  · exact ⟨_, text_of_items hlocated.items⟩
  · exact ⟨rope.text, rfl⟩

theorem line_start_zero (text : Str) : LineStart text 0 := ⟨[], text, rfl, rfl, Or.inl rfl⟩

theorem prev_chunk_line_spec (hrange : CharRange rope range_start range_end) {passed : List Chunk}
    (hafter : After rope self.chunks passed) (hstart_eq : self.range_start = range_start)
    (hend_eq : self.range_end = range_end) (hforward : self.reversed = false) {initial_offset : Nat}
    (hle_end : initial_offset ≤ range_end)
    (hpassed : byteLen (textOf passed) < initial_offset ∨ (initial_offset = 0 ∧ passed = []))
    (hwanted : ∀ start, LineStart rope.text start → range_start ≤ start → start < initial_offset →
      start ≤ byteLen (textOf passed)) :
    ∃ returned self' place', self.prev_chunk_line initial_offset = some (returned, self') ∧
      Reading rope range_start range_end self' place' ∧
      PrevStart rope.text range_start initial_offset self'.offset ∧
      (range_start = 0 → (returned = true ↔ self'.offset ≠ initial_offset)) := by
  obtain ⟨chunks, start', end', offset, reversed⟩ := self
  obtain rfl : range_start = start' := hstart_eq.symm
  obtain rfl : range_end = end' := hend_eq.symm
  obtain rfl : reversed = false := hforward
  change initial_offset ≤ range_end at hle_end
  have hto_start : ∀ cursor : sum_tree.Node.Cursor Chunk ChunkSummary, cursor.tree = rope.chunks.node →
      ∃ hit chunks place, cursor.seek ChunkSummary.len range_start Bias.Right = some (hit, chunks) ∧
        Reading rope range_start range_end ⟨chunks, range_start, range_end, range_start, false⟩ place :=
    fun cursor hroot => Reading.of_seek hrange cursor hroot (Nat.le_refl _) hrange.le hrange.start_boundary
  rw [prev_chunk_line]
  rcases hafter.search with ⟨front, chunk, middle, place, hlocated, rfl, rfl, ⟨rest, hrest⟩, hnewline, hmiddle⟩ |
    ⟨hafter', hitem, hnone⟩
  · have hitems := hlocated.items
    have hpos : byteLen (textOf (place.passed ++ chunk :: middle)) < initial_offset := by
      rcases hpassed with hlt | ⟨-, hnil⟩
      · exact hlt
      · exact absurd hnil (by simp)
    cases hrfind : str.rfind chunk.text with
    | none => exact absurd hnewline (str.rfind_none.mp hrfind)
    | some newline_ix =>
      obtain ⟨before, line, hchunk, hline, rfl⟩ := str.rfind_some hrfind
      have hitem : (chunks.search_backward ChunkSummary.len ChunkSummary.has_newline).item = some chunk := by
        rw [hlocated.item, sum_tree.Cursor.item, hrest]
        rfl
      have hstart : (chunks.search_backward ChunkSummary.len ChunkSummary.has_newline).start =
          byteLen (textOf place.passed) := hlocated.position.trans (place_start place)
      have hstop : (chunks.search_backward ChunkSummary.len ChunkSummary.has_newline).stop ChunkSummary.len =
          place.stop chunkLen := hlocated.stop
      have htext : rope.text =
          textOf place.passed ++ before ++ '\n' :: (line ++ textOf middle ++ textOf rest) := by
        rw [text_of_chunk hitems hrest, hchunk, textOf_append]
        simp
      have hline_start : LineStart rope.text (byteLen (textOf place.passed) + (byteLen before + 1)) := by
        have hafter := line_start_after_newline (textOf place.passed ++ before) (line ++ textOf middle ++ textOf rest)
        rwa [← htext, byteLen_append, Nat.add_assoc] at hafter
      have hlength : byteLen (textOf (place.passed ++ chunk :: middle)) =
          byteLen (textOf place.passed) + (byteLen before + 1) + byteLen (line ++ textOf middle) := by
        rw [textOf_append, textOf_cons, hchunk]
        simp only [byteLen_append, byteLen_cons, show '\n'.utf8Size = 1 from rfl]
        omega
      have hclear : Clear rope.text (byteLen (textOf place.passed) + (byteLen before + 1))
          (byteLen (textOf (place.passed ++ chunk :: middle))) := by
        have hsplit : rope.text =
            textOf place.passed ++ before ++ ['\n'] ++ (line ++ textOf middle) ++ textOf rest := by
          rw [htext]
          simp
        have hclear := clear_of_split hsplit (by
          rw [List.mem_append, not_or]
          exact ⟨hline, hmiddle⟩)
        rwa [byteLen_append, byteLen_append, newline_len, Nat.add_assoc (byteLen (textOf place.passed)), ← hlength]
          at hclear
      have hranged : Ranged rope range_start range_end
          ⟨chunks.search_backward ChunkSummary.len ChunkSummary.has_newline, range_start, range_end,
            byteLen (textOf place.passed) + (byteLen before + 1), false⟩ place := ⟨hlocated, rfl, rfl, rfl⟩
      have hvalid := hranged.valid
      dsimp only at hvalid
      have hend : byteLen (textOf place.passed) + (byteLen before + 1) < range_end := by omega
      simp only [hitem, Option.bind_some, hrfind, Option.map_some, Option.getD_some, Option.isSome_some, Bool.true_and,
        hstart, hvalid, hstop, hend, decide_true, Bool.and_true, decide_eq_true_eq]
      by_cases hle : range_start ≤ byteLen (textOf place.passed) + (byteLen before + 1)
      · rw [if_pos hle]
        refine ⟨true, _, if byteLen (textOf place.passed) + (byteLen before + 1) = place.stop chunkLen then
          place.search_forward fun _ => true else place, rfl, ?_, Or.inl ⟨hline_start, hle, ?_, fun start hs hgt => ?_⟩,
          fun _ => iff_of_true rfl ?_⟩
        · have hplace : place.start chunkLen ≤ byteLen (textOf place.passed) + (byteLen before + 1) := by
            rw [place_start]
            omega
          have hplaceStop := place_stop hrest
          rw [hchunk, byteLen_append, byteLen_cons, show '\n'.utf8Size = 1 from rfl] at hplaceStop
          split
          · rename_i hsame
            exact @Reading.advance rope range_start range_end
              ⟨chunks.search_backward ChunkSummary.len ChunkSummary.has_newline, range_start, range_end,
                byteLen (textOf place.passed) + (byteLen before + 1), false⟩ place hrange hlocated rfl rfl rfl hle hend.le
              hline_start.boundary hsame
          · rename_i hother
            exact .of_place hrange hlocated rfl rfl rfl hle hend.le hline_start.boundary hplace
              (Or.inl (show byteLen (textOf place.passed) + (byteLen before + 1) < place.stop chunkLen by omega))
        · dsimp only
          omega
        · dsimp only at hgt ⊢
          by_contra hnot
          have hbound := hwanted start hs (by omega) (by omega)
          have hpast := hclear start hs hgt
          omega
        · dsimp only
          omega
      · obtain ⟨hit, cursor, place', hseek, hreading⟩ := hto_start _ hlocated.root
        rw [if_neg hle, if_pos (by simp [hle])]
        simp only [hseek, Option.bind_eq_bind, Option.bind_some]
        refine ⟨_, _, place', rfl, hreading, Or.inr ⟨rfl, fun start hs hge => ?_⟩, fun hzero => absurd (Nat.zero_le _) (hzero ▸ hle)⟩
        by_contra hnot
        have hbound := hwanted start hs hge (by omega)
        have hpast := hclear start hs (by omega)
        omega
  · obtain ⟨hit, cursor, place, hseek, hreading⟩ := hto_start _ hafter'.root
    simp only [hitem, Option.bind_none, Option.map_none, Option.isSome_none, Bool.false_and, Bool.false_eq_true, if_false,
      Option.isNone_none, Bool.or_true, if_true, hseek, Option.bind_eq_bind, Option.bind_some]
    obtain ⟨after, htext⟩ := hafter.text
    have hclear := clear_of_split (show rope.text = [] ++ textOf passed ++ after from htext) hnone
    rw [byteLen_nil, Nat.zero_add] at hclear
    refine ⟨_, _, place, rfl, hreading, ?_, fun hzero => ?_⟩
    · rcases Nat.eq_zero_or_pos range_start with hzero | hpos
      · rcases Nat.eq_zero_or_pos initial_offset with hnone | hsome
        · exact Or.inr ⟨rfl, fun start _ _ => hnone ▸ Nat.zero_le _⟩
        · refine Or.inl ⟨hzero ▸ line_start_zero rope.text, Nat.le_refl _, hzero ▸ hsome, fun start hs hgt => ?_⟩
          dsimp only at hgt
          by_contra hnot
          have hbound := hwanted start hs (by omega) (by omega)
          have hpast := hclear start hs (by omega)
          omega
      · refine Or.inr ⟨rfl, fun start hs hle => ?_⟩
        by_contra hnot
        have hbound := hwanted start hs hle (by omega)
        have hpast := hclear start hs (by omega)
        omega
    · subst hzero
      simp only [decide_true, Bool.and_true, decide_eq_true_eq]
      omega

/-- The part of `prev_line` in the chunk that the text before the offset ends in. -/
theorem prev_in_chunk (hrange : CharRange rope range_start range_end) {chunk : Chunk} {rest : List Chunk}
    (h : Ranged rope range_start range_end self place) (hrest : place.rest = chunk :: rest) (hle_end : self.offset ≤ range_end)
    (hboundary : Boundary rope.text self.offset) (hstart : place.start chunkLen < self.offset)
    (hstop : self.offset ≤ place.stop chunkLen) :
    ∃ byte text returned self' place', (utf8 chunk.text)[self.offset - self.chunks.start - 1]? = some byte ∧
      str.slice chunk.text 0
        (if byte = 10 then self.offset - self.chunks.start - 1 else self.offset - self.chunks.start) = some text ∧
      (match str.rfind text with
        | none => self.prev_chunk_line self.offset
        | some newline_ix =>
          if offset_is_valid { self with offset := self.chunks.start + newline_ix + 1 } then
            some (true, { self with offset := self.chunks.start + newline_ix + 1 })
          else prev_chunk_line { self with offset := self.chunks.start + newline_ix + 1 } self.offset) =
        some (returned, self') ∧
      Reading rope range_start range_end self' place' ∧ PrevStart rope.text range_start self.offset self'.offset ∧
      (range_start = 0 → (returned = true ↔ self'.offset ≠ self.offset)) := by
  have hitems := h.located.items
  have htext := text_of_chunk hitems hrest
  have hchunkStart : self.chunks.start = byteLen (textOf place.passed) := h.located.position.trans (place_start place)
  have hboundary' := hboundary
  rw [htext] at hboundary'
  rw [place_stop hrest] at hstop
  rw [place_start] at hstart
  obtain ⟨left, right, hsplit, hleft⟩ := hboundary'.split hstart.le hstop
  obtain ⟨front, char, rfl⟩ : ∃ front char, left = front ++ [char] := by
    rcases List.eq_nil_or_concat' left with rfl | hconcat
    · rw [byteLen_nil] at hleft
      omega
    · exact hconcat
  rw [List.append_assoc, List.singleton_append] at hsplit
  rw [byteLen_append, byteLen_cons, byteLen_nil, Nat.add_zero] at hleft
  have hpos := char.utf8Size_pos
  obtain ⟨byte, hbyte, hnewline⟩ := last_byte front char right
  rw [← hsplit] at hbyte
  have hend_ix : self.offset - self.chunks.start = byteLen front + char.utf8Size := by omega
  -- the text before the offset, without a newline that it ends with
  obtain ⟨core, after, hcore, hslice, hcoreLen⟩ : ∃ core after, chunk.text = core ++ after ∧
      str.slice chunk.text 0
        (if byte = 10 then self.offset - self.chunks.start - 1 else self.offset - self.chunks.start) = some core ∧
      (byteLen (textOf place.passed) + byteLen core = self.offset ∨
        byteLen (textOf place.passed) + byteLen core + 1 = self.offset) ∧
      ∀ front' line, core = front' ++ '\n' :: line → byteLen (textOf place.passed) + byteLen front' + 1 < self.offset := by
    by_cases hchar : char = '\n'
    · have hsize : char.utf8Size = 1 := by
        rw [hchar]
        rfl
      have hfront := str.slice_middle [] front (char :: right)
      rw [List.nil_append, byteLen_nil, Nat.zero_add, ← hsplit] at hfront
      refine ⟨front, char :: right, hsplit, ?_, Or.inr (by omega), fun front' line hline => ?_⟩
      · rw [if_pos (hnewline.mpr hchar), hend_ix, hsize, Nat.add_sub_cancel, hfront]
      · have hlength := congrArg byteLen hline
        rw [byteLen_append, byteLen_cons, show '\n'.utf8Size = 1 from rfl] at hlength
        omega
    · have hwhole := str.slice_middle [] (front ++ [char]) right
      rw [List.nil_append, byteLen_nil, Nat.zero_add, List.append_assoc, List.singleton_append, ← hsplit, byteLen_append,
        byteLen_cons, byteLen_nil, Nat.add_zero] at hwhole
      refine ⟨front ++ [char], right, by rw [hsplit]; simp, ?_, Or.inl ?_, fun front' line hline => ?_⟩
      · rw [if_neg (hnewline.not.mpr hchar), hend_ix, hwhole]
      · rw [byteLen_append, byteLen_cons, byteLen_nil]
        omega
      · have hlast : line ≠ [] := by
          rintro rfl
          have hlast := congrArg List.getLast? hline
          rw [List.getLast?_concat, List.getLast?_concat] at hlast
          exact hchar (Option.some.inj hlast)
        have hlength := congrArg byteLen hline
        have hpos' := byteLen_pos hlast
        rw [byteLen_append, byteLen_append, byteLen_cons, byteLen_cons, byteLen_nil, show '\n'.utf8Size = 1 from rfl]
          at hlength
        omega
  obtain ⟨hcoreEnd, hcoreBefore⟩ := hcoreLen
  have htext' : rope.text = textOf place.passed ++ core ++ (after ++ textOf rest) := by
    rw [htext, hcore]
    simp
  have hafter : After rope self.chunks place.passed := Or.inl ⟨place, h.located, rfl⟩
  refine ⟨byte, core, ?_⟩
  rw [hend_ix] at hslice ⊢
  cases hrfind : str.rfind core with
  | none =>
    have hclear := clear_of_split htext' (str.rfind_none.mp hrfind)
    obtain ⟨returned, self', place', hprev, hreading, hprevStart, hreturned⟩ := prev_chunk_line_spec hrange hafter
      h.start_eq h.end_eq h.forward hle_end (Or.inl hstart) fun start hs _ hlt => by
        by_contra hnot
        have hpast := hclear start hs (Nat.not_le.mp hnot)
        omega
    exact ⟨returned, self', place', hbyte, hslice, hprev, hreading, hprevStart, hreturned⟩
  | some newline_ix =>
    obtain ⟨before, line, rfl, hline, rfl⟩ := str.rfind_some hrfind
    have hlt := hcoreBefore before line rfl
    have hlineText : rope.text = textOf place.passed ++ before ++ '\n' :: (line ++ (after ++ textOf rest)) := by
      rw [htext']
      simp
    have hline_start : LineStart rope.text (byteLen (textOf place.passed) + byteLen before + 1) := by
      have hstart' := line_start_after_newline (textOf place.passed ++ before) (line ++ (after ++ textOf rest))
      rwa [← hlineText, byteLen_append] at hstart'
    have hclear : Clear rope.text (byteLen (textOf place.passed) + byteLen before + 1) (self.offset - 1) := by
      have hsplit' : rope.text = textOf place.passed ++ before ++ ['\n'] ++ line ++ (after ++ textOf rest) := by
        rw [htext']
        simp
      have hclear := clear_of_split hsplit' hline
      rw [byteLen_append, byteLen_append, newline_len] at hclear
      refine hclear.mono ?_
      rw [byteLen_append, byteLen_cons, show '\n'.utf8Size = 1 from rfl] at hcoreEnd
      omega
    have hranged : Ranged rope range_start range_end
        { self with offset := self.chunks.start + byteLen before + 1 } place :=
      ⟨h.located, h.start_eq, h.end_eq, h.forward⟩
    have hvalid := hranged.valid
    dsimp only at hvalid ⊢
    rw [hchunkStart] at hvalid ⊢
    rw [show decide (byteLen (textOf place.passed) + byteLen before + 1 < range_end) = true from
      decide_eq_true (by omega), Bool.and_true] at hvalid
    rw [hvalid]
    by_cases hle : range_start ≤ byteLen (textOf place.passed) + byteLen before + 1
    · rw [if_pos (decide_eq_true hle)]
      refine ⟨true, _, place, hbyte, hslice, rfl, ?_, Or.inl ⟨hline_start, hle, hlt, hclear⟩, fun _ => ?_⟩
      · refine .of_place hrange h.located h.start_eq h.end_eq h.forward hle (hlt.le.trans hle_end) hline_start.boundary ?_
          (Or.inl ?_)
        · change place.start chunkLen ≤ byteLen (textOf place.passed) + byteLen before + 1
          rw [place_start]
          omega
        · rw [place_stop hrest]
          exact hlt.trans_le hstop
      · exact iff_of_true rfl hlt.ne
    · rw [decide_eq_false hle]
      simp only [Bool.false_eq_true, if_false]
      obtain ⟨returned, self', place', hprev, hreading, hprevStart, hreturned⟩ :=
        @prev_chunk_line_spec rope range_start range_end
          { self with offset := byteLen (textOf place.passed) + byteLen before + 1 } hrange place.passed hafter h.start_eq
          h.end_eq h.forward self.offset hle_end (Or.inl hstart) fun start hs hge hlt' => by
            have hpast := hclear start hs (by omega)
            omega
      exact ⟨returned, self', place', hbyte, hslice, hprev, hreading, hprevStart, hreturned⟩

theorem Reading.prev_line (hrange : CharRange rope range_start range_end)
    (h : Reading rope range_start range_end self place) :
    ∃ returned self' place', self.prev_line = some (returned, self') ∧ Reading rope range_start range_end self' place' ∧
      PrevStart rope.text range_start self.offset self'.offset ∧
      (range_start = 0 → (returned = true ↔ self'.offset ≠ self.offset)) := by
  have hitems := h.located.items
  have hstart : self.chunks.start = place.start chunkLen := h.located.position
  have hplace := h.place_le
  -- what is left to do in the chunk that the text before the offset ends in
  have hchunk : ∀ {cursor : sum_tree.Node.Cursor Chunk ChunkSummary} {place' : sum_tree.Cursor Chunk} {chunk : Chunk}
      {rest : List Chunk}, Located ChunkSummary.len rope.chunks cursor place' → place'.rest = chunk :: rest →
      place'.start chunkLen < self.offset → self.offset ≤ place'.stop chunkLen →
      (if self.offset = self.chunks.start then self.chunks.prev ChunkSummary.len else self.chunks) = cursor →
      ∃ returned self' place', self.prev_line = some (returned, self') ∧
        Reading rope range_start range_end self' place' ∧ PrevStart rope.text range_start self.offset self'.offset ∧
        (range_start = 0 → (returned = true ↔ self'.offset ≠ self.offset)) := by
    intro cursor place' chunk rest hlocated hrest hlt hle hcursor
    obtain ⟨byte, text, returned, self', place'', hbyte, hslice, hreturned, hresult⟩ :=
      @prev_in_chunk rope range_start range_end { self with chunks := cursor } place' hrange chunk rest
        ⟨hlocated, h.start_eq, h.end_eq, h.forward⟩ hrest h.le_end h.boundary hlt hle
    refine ⟨returned, self', place'', ?_, hresult⟩
    have hitem : cursor.item = some chunk := by
      rw [hlocated.item, sum_tree.Cursor.item, hrest]
      rfl
    have hcursorStart : cursor.start = place'.start chunkLen := hlocated.position
    have hnot : ¬ self.offset ≤ cursor.start := by
      rw [hcursorStart]
      exact Nat.not_le.mpr hlt
    rw [Chunks.prev_line, hcursor]
    simp only [h.forward, Bool.false_eq_true, if_false, hitem, if_neg hnot, Option.bind_eq_bind]
    dsimp only at hbyte hslice hreturned
    rw [hbyte, Option.bind_some, hslice, Option.bind_some, ← hreturned]
    simp only [h.forward]
  have hback := sum_tree.Node.Cursor.search_backward_located len_additive sum_tree.LetsThrough.all h.located
  by_cases hsame : self.offset = place.start chunkLen
  · have hcursor : (if self.offset = self.chunks.start then self.chunks.prev ChunkSummary.len else self.chunks) =
        self.chunks.search_backward ChunkSummary.len fun _ => true := if_pos (hsame.trans hstart.symm)
    rcases List.eq_nil_or_concat' place.passed with hnil | ⟨init, chunk, hconcat⟩
    · have hnone : place.search_backward (sum_tree.itemThrough fun _ => true) = none := by
        rw [sum_tree.Cursor.search_backward, hnil]
        rfl
      rw [hnone] at hback
      have hzero : self.offset = 0 := by
        rw [hsame, place_start, hnil]
        rfl
      have hafter : After rope (self.chunks.search_backward ChunkSummary.len fun _ => true) [] := by
        rcases hback with ⟨-, hlocated⟩ | hbefore
        · exact Or.inl ⟨place, hlocated, hnil⟩
        · exact Or.inr ⟨hbefore, rfl⟩
      have hitem : (self.chunks.search_backward ChunkSummary.len fun _ => true).item = none := by
        rcases hback with ⟨hempty, hlocated⟩ | hbefore
        · rw [hempty] at hitems
          rw [hlocated.item, sum_tree.Cursor.item, (List.append_eq_nil_iff.mp hitems).2]
          rfl
        · exact hbefore.item
      obtain ⟨returned, self', place', hprev, hresult⟩ := @prev_chunk_line_spec rope range_start range_end
        { self with chunks := self.chunks.search_backward ChunkSummary.len fun _ => true } hrange [] hafter h.start_eq
        h.end_eq h.forward self.offset h.le_end (Or.inr ⟨hzero, rfl⟩) fun start _ _ hlt => by omega
      refine ⟨returned, self', place', ?_, hresult⟩
      rw [Chunks.prev_line, hcursor, ← hprev]
      simp only [h.forward, Bool.false_eq_true, if_false, hitem]
    · have hfound : place.search_backward (sum_tree.itemThrough fun _ => true) = some ⟨init, chunk :: place.rest⟩ := by
        obtain ⟨passed, rest⟩ := place
        obtain rfl : passed = init ++ [chunk] := hconcat
        exact sum_tree.Cursor.search_backward_concat _ init chunk rest
      rw [hfound] at hback
      have hpos := byteLen_pos (chunk_valid hback.items rfl).2
      have hoffset : self.offset = byteLen (textOf init) + byteLen chunk.text := by
        rw [hsame, place_start, hconcat, textOf_concat]
      refine hchunk hback rfl ?_ ?_ hcursor
      · rw [place_start]
        change byteLen (textOf init) < _
        omega
      · rw [place_stop rfl]
        exact hoffset.le
  · have hlt : place.start chunkLen < self.offset := Nat.lt_of_le_of_ne hplace (Ne.symm hsame)
    have hle : self.offset ≤ place.stop chunkLen := by
      rcases h.in_place with hin | ⟨-, hin⟩
      · exact hin.le
      · exact hin
    cases hrest : place.rest with
    | nil =>
      rw [place_stop_nil hrest, ← place_start] at hle
      exact absurd hlt (Nat.not_lt.mpr hle)
    | cons chunk rest =>
      exact hchunk h.located hrest hlt hle (if_neg fun hstart' => hsame (hstart'.trans hstart))

/-- A call to move by a line. -/
inductive Move
  | next_line
  | prev_line

def move (self : Chunks) : Move → Option Chunks
  | .next_line => self.next_line.map Prod.snd
  | .prev_line => self.prev_line.map Prod.snd

theorem Reading.move (hrange : CharRange rope range_start range_end)
    (h : Reading rope range_start range_end self place) (call : Move) :
    ∃ self' place', self.move call = some self' ∧ Reading rope range_start range_end self' place' := by
  cases call with
  | next_line =>
    obtain ⟨found, self', place', hnext, hreading, -⟩ := h.next_line hrange
    exact ⟨self', place', by rw [Chunks.move, hnext]; rfl, hreading⟩
  | prev_line =>
    obtain ⟨returned, self', place', hprev, hreading, -⟩ := h.prev_line hrange
    exact ⟨self', place', by rw [Chunks.move, hprev]; rfl, hreading⟩

theorem Reading.moves (hrange : CharRange rope range_start range_end)
    (h : Reading rope range_start range_end self place) (calls : List Move) :
    ∃ self' place', calls.foldlM Chunks.move self = some self' ∧ Reading rope range_start range_end self' place' := by
  induction calls generalizing self place with
  | nil => exact ⟨self, place, rfl, h⟩
  | cons call calls ih =>
    obtain ⟨self', place', hmove, hreading⟩ := h.move hrange call
    obtain ⟨self'', place'', hmoves, hreading'⟩ := ih hreading
    refine ⟨self'', place'', ?_, hreading'⟩
    rw [List.foldlM_cons, hmove]
    exact hmoves

def startsAfter (text : Str) (offset range_end : Nat) : Set Nat :=
  {start | LineStart text start ∧ offset < start ∧ start ≤ range_end}

def startsBefore (text : Str) (range_start offset : Nat) : Set Nat :=
  {start | LineStart text start ∧ range_start ≤ start ∧ start < offset}

theorem Clear.isLeast {text : Str} {offset start range_end : Nat} (h : Clear text offset (start - 1))
    (hstart : LineStart text start) (hgt : offset < start) (hle : start ≤ range_end) :
    IsLeast (startsAfter text offset range_end) start := by
  refine ⟨⟨hstart, hgt, hle⟩, fun other hother => ?_⟩
  have hpast := h other hother.1 hother.2.1
  omega

theorem Clear.startsAfter_eq {text : Str} {offset range_end : Nat} (h : Clear text offset range_end) :
    startsAfter text offset range_end = ∅ :=
  Set.eq_empty_of_forall_notMem fun start hstart => absurd hstart.2.2 (Nat.not_le.mpr (h start hstart.1 hstart.2.1))

theorem PrevStart.isGreatest {text : Str} {range_start offset offset' : Nat}
    (h : PrevStart text range_start offset offset') :
    IsGreatest (startsBefore text range_start offset) offset' ∨
      (startsBefore text range_start offset = ∅ ∧ offset' = range_start) := by
  rcases h with ⟨hstart, hge, hlt, hclear⟩ | ⟨hoffset, hnone⟩
  · refine Or.inl ⟨⟨hstart, hge, hlt⟩, fun other hother => ?_⟩
    by_contra hgt
    have hpast := hclear other hother.1 (Nat.not_le.mp hgt)
    have hbefore := hother.2.2
    omega
  · refine Or.inr ⟨Set.eq_empty_of_forall_notMem fun start hstart => ?_, hoffset⟩
    exact absurd (hnone start hstart.1 hstart.2.1) (Nat.not_le.mpr hstart.2.2)

end Chunks

/-- A reader made for a range of characters can be moved by lines in both directions, any number of times. -/
theorem line_motion (rope : ChunkTree) (range_start range_end : Nat) (hrange : CharRange rope range_start range_end) :
    ∃ reader, Chunks.new rope range_start range_end false = some reader ∧ reader.offset = range_start ∧
      ∀ calls : List Chunks.Move, ∃ self, calls.foldlM Chunks.move reader = some self ∧
        (∃ found self', self.next_line = some (found, self') ∧
          ((IsLeast (Chunks.startsAfter rope.text self.offset range_end) self'.offset ∧ found = true) ∨
            (Chunks.startsAfter rope.text self.offset range_end = ∅ ∧ self'.offset = range_end ∧ found = false))) ∧
        (∃ returned self', self.prev_line = some (returned, self') ∧
          (IsGreatest (Chunks.startsBefore rope.text range_start self.offset) self'.offset ∨
            (Chunks.startsBefore rope.text range_start self.offset = ∅ ∧ self'.offset = range_start)) ∧
          (range_start = 0 → range_end = byteLen rope.text → (returned = true ↔ self'.offset ≠ self.offset))) ∧
        (∃ before chunks after, Chunks.Yields self chunks ∧ self.peek = some chunks.head? ∧
          rope.text = before ++ chunks.flatten ++ after ∧ byteLen before = self.offset ∧
          byteLen before + byteLen chunks.flatten = range_end) := by
  obtain ⟨reader, place, hnew, hreading, hoffset⟩ := Chunks.new_reading hrange
  refine ⟨reader, hnew, hoffset, fun calls => ?_⟩
  obtain ⟨self, place', hmoves, hreading'⟩ := hreading.moves hrange calls
  refine ⟨self, hmoves, ?_, ?_, ?_⟩
  · obtain ⟨found, self', place'', hnext, hafter, hresult⟩ := hreading'.next_line hrange
    refine ⟨found, self', hnext, hresult.imp ?_ ?_⟩
    · rintro ⟨hfound, hstart, hgt, hclear⟩
      exact ⟨hclear.isLeast hstart hgt hafter.le_end, hfound⟩
    · rintro ⟨hfound, hend, hclear⟩
      exact ⟨hclear.startsAfter_eq, hend, hfound⟩
  · obtain ⟨returned, self', place'', hprev, -, hresult, hreturned⟩ := hreading'.prev_line hrange
    exact ⟨returned, self', hprev, hresult.isGreatest, fun hzero _ => hreturned hzero⟩
  · obtain ⟨before, chunks, after, hyields, htext, hbefore, hlength⟩ := hreading'.yields hrange
    refine ⟨before, chunks, after, hyields, Chunks.peek_of_yields hyields, htext, hbefore, hlength⟩

def ChunkTree.of_chunk (chunk : Chunk) (h : chunk.Valid ∧ chunk.text ≠ []) : ChunkTree where
  chunks := ⟨.Leaf (sum_tree.sum [sum_tree.Item.summary chunk]) [chunk] [sum_tree.Item.summary chunk],
    Or.inr ⟨0, @sum_tree.Node.Valid.leaf _ _ _ _ [chunk] (List.cons_ne_nil _ _) (by rw [List.length_singleton]; decide)⟩⟩
  valid := by
    intro other hother
    obtain rfl : other = chunk := by simpa [sum_tree.SumTree.items] using hother
    exact h

theorem ChunkTree.of_chunk_text (chunk : Chunk) (h : chunk.Valid ∧ chunk.text ≠ []) :
    (ChunkTree.of_chunk chunk h).text = chunk.text := List.append_nil _

/-- There is a rope of the text `"a\nb"`, which has line starts on both sides of the second line. -/
theorem line_motion_sample : ∃ rope : ChunkTree, rope.text = ['a', '\n', 'b'] ∧
    ∃ reader, Chunks.new rope 0 3 false = some reader ∧ reader.offset = 0 := by
  obtain ⟨chunk, hnew, htext⟩ : ∃ chunk, Chunk.new ['a', '\n', 'b'] = some chunk ∧
      chunk.text = ['a', '\n', 'b'] := ⟨_, rfl, rfl⟩
  have hchunk : chunk.Valid ∧ chunk.text ≠ [] := ⟨ChunkSlice.new_valid hnew, by rw [htext]; exact List.cons_ne_nil _ _⟩
  have hrope : (ChunkTree.of_chunk chunk hchunk).text = ['a', '\n', 'b'] :=
    (ChunkTree.of_chunk_text chunk hchunk).trans htext
  have hrange : CharRange (ChunkTree.of_chunk chunk hchunk) 0 3 :=
    ⟨by decide, ⟨[], _, hrope, rfl⟩, ⟨['a', '\n', 'b'], [], hrope, rfl⟩⟩
  obtain ⟨reader, hreader, hoffset, -⟩ := line_motion _ 0 3 hrange
  exact ⟨_, hrope, reader, hreader, hoffset⟩

end zed.rope
