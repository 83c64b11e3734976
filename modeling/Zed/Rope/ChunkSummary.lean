import Zed.Rope.Chunk

namespace zed.rope

open zed.bitmap

namespace TextSummary

theorem add_eq (summary other : TextSummary) : summary + other = summary.add other := rfl

theorem from_str_counts (text : Str) :
    (from_str text).chars = text.length ∧ (from_str text).len_utf16 = (text.map rope.len_utf16).sum ∧
      (from_str text).lines.row = text.count '\n' := by
  change (chars_summary text).chars = _ ∧ (chars_summary text).len_utf16 = _ ∧ (chars_summary text).lines.row = _
  induction text using List.reverseRecOn with
  | nil => exact ⟨rfl, rfl, rfl⟩
  | append_singleton text char ih =>
    obtain ⟨hchars, hutf16, hrow⟩ := ih
    rw [chars_summary_concat, List.length_append, List.map_append, List.sum_append, List.count_append, ← hchars,
      ← hutf16, ← hrow]
    by_cases hchar : char = '\n'
    · subst hchar
      rw [push_char_newline]
      exact ⟨rfl, rfl, rfl⟩
    · have hnone : [char].count '\n' = 0 := List.count_eq_zero.mpr fun hmem => hchar (List.mem_singleton.mp hmem).symm
      rw [push_char_other _ hchar, hnone]
      exact ⟨rfl, rfl, rfl⟩

theorem from_str_line {text : Str} (h : '\n' ∉ text) :
    from_str text =
      { len := (utf8 text).length
        chars := text.length
        len_utf16 := (text.map rope.len_utf16).sum
        lines := ⟨0, (utf8 text).length⟩
        first_line_chars := text.length
        last_line_chars := text.length
        last_line_len_utf16 := (text.map rope.len_utf16).sum
        longest_row := 0
        longest_row_chars := text.length } := by
  have hloop : chars_summary text =
      { len := 0
        chars := text.length
        len_utf16 := (text.map rope.len_utf16).sum
        lines := ⟨0, (utf8 text).length⟩
        first_line_chars := text.length
        last_line_chars := text.length
        last_line_len_utf16 := (text.map rope.len_utf16).sum
        longest_row := 0
        longest_row_chars := text.length } := by
    induction text using List.reverseRecOn with
    | nil => rfl
    | append_singleton text char ih =>
      rw [List.mem_append, not_or, List.mem_singleton] at h
      rw [chars_summary_concat, ih h.1, push_char_other _ (Ne.symm h.2), List.length_append, List.map_append,
        List.sum_append, utf8_append_text, List.length_append, utf8_cons, List.length_append,
        String.length_utf8EncodeChar]
      simp [utf8]
  change { chars_summary text with len := (utf8 text).length } = _
  rw [hloop]

/-- The first row of a text counts when none of the others is longer. -/
theorem from_str_first_row {line rest : Str} (h : '\n' ∉ line) :
    (from_str (line ++ '\n' :: rest)).first_line_chars = line.length ∧
      (from_str (line ++ '\n' :: rest)).longest_row_chars =
        max line.length (from_str rest).longest_row_chars ∧
      (from_str (line ++ '\n' :: rest)).longest_row =
        if (from_str rest).longest_row_chars > line.length then 1 + (from_str rest).longest_row else 0 := by
  have hrest := from_str_sound rest
  have hsplit : from_str (line ++ '\n' :: rest) = (from_str (line ++ ['\n'])).add (from_str rest) := by
    rw [← add_eq, ← from_str_append, List.append_assoc, List.singleton_append]
  have hline : from_str (line ++ ['\n']) = (from_str line).add newline := by
    rw [from_str_append, from_str_newline, add_eq]
  have hfirst : from_str (line ++ ['\n']) =
      { len := (utf8 line).length + 1
        chars := line.length + 1
        len_utf16 := (line.map rope.len_utf16).sum + 1
        lines := ⟨1, 0⟩
        first_line_chars := line.length
        last_line_chars := 0
        last_line_len_utf16 := 0
        longest_row := 0
        longest_row_chars := line.length } := by
    rw [hline, from_str_line h]
    simp [add, newline, Point.add]
  obtain ⟨hchars, hrow⟩ := longest_add (from_str (line ++ ['\n'])) (from_str rest)
  rw [hsplit, hchars, hrow, add_first_line_chars, hfirst]
  have hfirstLe := hrest.first_le
  have hlongest := hrest.first_longest
  refine ⟨rfl, ?_, ?_⟩
  · dsimp only
    omega
  · dsimp only
    split_ifs <;> omega

theorem from_str_last_row {front last : Str} (h : '\n' ∉ last) :
    (from_str (front ++ '\n' :: last)).lines.column = (utf8 last).length ∧
      (from_str (front ++ '\n' :: last)).last_line_chars = last.length ∧
      (from_str (front ++ '\n' :: last)).last_line_len_utf16 = (last.map rope.len_utf16).sum := by
  have hsplit : from_str (front ++ '\n' :: last) = (from_str front).add (newline.add (from_str last)) := by
    rw [← add_eq, ← add_eq, ← from_str_newline, ← from_str_append, ← from_str_append, List.singleton_append]
  rw [hsplit, from_str_line h]
  simp [add, newline, Point.add]

end TextSummary

section Bits

theorem newlineBits_line {text : Str} (h : '\n' ∉ text) :
    newlineBits text = List.replicate (utf8 text).length false := by
  have hcount := newlineBits_count text
  rw [List.count_eq_zero_of_not_mem h, List.count_eq_zero] at hcount
  refine List.eq_replicate_iff.mpr ⟨byteBits_length _ _, fun bit hbit => ?_⟩
  cases bit with
  | false => rfl
  | true => exact absurd hbit hcount

theorem newlineBits_cons (front last : Str) :
    newlineBits (front ++ '\n' :: last) = newlineBits front ++ true :: newlineBits last := by
  rw [newlineBits, byteBits_append, byteBits_cons, (char_bits '\n').2.2]
  rfl

theorem charBits_newline (front last : Str) :
    charBits (front ++ '\n' :: last) = charBits front ++ true :: charBits last := by
  rw [charBits, byteBits_append, byteBits_cons, (char_bits '\n').1]
  rfl

theorem utf16Bits_newline (front last : Str) :
    utf16Bits (front ++ '\n' :: last) = utf16Bits front ++ true :: utf16Bits last := by
  rw [utf16Bits_append]
  rfl

/-- The bits before the first mark, and those after the last one. -/
theorem takeWhile_replicate (n : Nat) (rest : List Bool) :
    ((List.replicate n false ++ true :: rest).takeWhile (!·)).length = n := by
  rw [List.takeWhile_append_of_pos (by intro bit hbit; rw [List.eq_of_mem_replicate hbit]; rfl)]
  simp

theorem marks_none {newlines : Bitmap} {n : Nat} (h : Marks newlines (List.replicate n false)) : newlines = 0 := by
  refine BitVec.eq_of_getLsbD_eq fun i hi => ?_
  rw [h.bit, show (0 : Bitmap).getLsbD i = false from BitVec.getLsbD_zero]
  rcases Nat.lt_or_ge i n with hlt | hge
  · rw [List.getD_eq_getElem _ _ (by simpa using hlt), List.getElem_replicate]
  · rw [List.getD_eq_default _ _ (by simpa using hge)]

end Bits

namespace ChunkSlice

variable {slice : ChunkSlice}

theorem rows_loop_eq {chars newlines : Bitmap} {text : Str} (hchars : Marks chars (charBits text))
    (hnewlines : Marks newlines (newlineBits text)) (total_chars row longest_row longest_row_chars : Nat) :
    rows_loop chars newlines total_chars row longest_row longest_row_chars =
      (total_chars + text.length,
        if (TextSummary.from_str text).longest_row_chars > longest_row_chars then
          (row + (TextSummary.from_str text).longest_row, (TextSummary.from_str text).longest_row_chars)
        else (longest_row, longest_row_chars)) := by
  induction hlength : text.length using Nat.strong_induction_on
    generalizing text chars newlines total_chars row longest_row longest_row_chars with
  | _ n ih =>
    subst hlength
    by_cases hmem : '\n' ∈ text
    · obtain ⟨line, rest, rfl, hline⟩ := List.eq_append_cons_of_mem hmem
      have hlines : newlineBits (line ++ '\n' :: rest) =
          List.replicate (utf8 line).length false ++ true :: newlineBits rest := by
        rw [newlineBits_cons, newlineBits_line hline]
      have hstarts := charBits_newline line rest
      have hcharsLength : (charBits line).length = (utf8 line).length := byteBits_length _ _
      rw [hlines] at hnewlines
      rw [hstarts] at hchars
      have hmarked : true ∈ List.replicate (utf8 line).length false ++ true :: newlineBits rest := by simp
      have hne : newlines ≠ 0 := by
        intro hzero
        have hbit := hnewlines.bit (utf8 line).length
        rw [hzero, List.getD_append_right _ _ _ _ (by simp)] at hbit
        simp at hbit
      have hix : trailing_zeros newlines = (utf8 line).length := by
        rw [hnewlines.trailing_zeros, if_pos hmarked, takeWhile_replicate]
      have hrow : count_ones (chars &&& saturating_shl_mask MAX_BASE (utf8 line).length) = line.length := by
        rw [(hchars.take _).count_ones, ← hcharsLength, List.take_left, charBits_count]
      have hcharsRest : Marks ((chars >>> (utf8 line).length) >>> 1) (charBits rest) := by
        have hmarks := (hchars.drop (utf8 line).length).drop 1
        rwa [← hcharsLength, List.drop_left, hcharsLength] at hmarks
      have hnewlinesRest : Marks ((newlines >>> (utf8 line).length) >>> 1) (newlineBits rest) := by
        have hmarks := (hnewlines.drop (utf8 line).length).drop 1
        rwa [List.drop_left' List.length_replicate] at hmarks
      obtain ⟨-, hlongest, hlongestRow⟩ := @TextSummary.from_str_first_row line rest hline
      have hshorter : rest.length < (line ++ '\n' :: rest).length := by
        rw [List.length_append, List.length_cons]
        omega
      rw [rows_loop, if_pos hne]
      dsimp only
      rw [hix, show (BitVec.ofNat MAX_BASE 1 <<< (utf8 line).length) - BitVec.ofNat MAX_BASE 1 =
        saturating_shl_mask MAX_BASE (utf8 line).length from rfl, hrow]
      have hnext := fun total row longest_row longest_row_chars =>
        ih _ hshorter hcharsRest hnewlinesRest total row longest_row longest_row_chars rfl
      simp only [apply_ite Prod.fst, apply_ite Prod.snd] at hnext ⊢
      rw [hnext, hlongest, hlongestRow, List.length_append, List.length_cons]
      refine Prod.ext (by dsimp only; omega) ?_
      dsimp only
      split_ifs <;> first | omega | rfl | (simp only [Prod.mk.injEq]; omega)
    · have hnone : newlines = 0 := marks_none (newlineBits_line hmem ▸ hnewlines)
      rw [rows_loop, if_neg (not_not.mpr hnone), hchars.count_ones, charBits_count, TextSummary.from_str_line hmem]
      rfl

theorem Valid.last_row (h : Valid slice) {front last : Str} (htext : slice.text = front ++ '\n' :: last)
    (hlast : '\n' ∉ last) :
    slice.lines.column = (utf8 last).length ∧ slice.last_line_chars = last.length ∧
      slice.last_line_len_utf16 = (last.map rope.len_utf16).sum := by
  have hlines : newlineBits slice.text = newlineBits front ++ true :: List.replicate (utf8 last).length false := by
    rw [htext, newlineBits_cons, newlineBits_line hlast]
  have hbytes : slice.len = (utf8 front).length + 1 + (utf8 last).length := by
    rw [len, htext, utf8_append_text, List.length_append, utf8_cons, List.length_append,
      String.length_utf8EncodeChar]
    change _ + (1 + _) = _
    omega
  have hle := h.len_le
  have hleading : leading_zeros slice.newlines = MAX_BASE - slice.len + (utf8 last).length := by
    have hlength : (newlineBits slice.text).length = slice.len := byteBits_length _ _
    rw [h.newlines.leading_zeros, hlength, hlines, List.reverse_append, List.reverse_cons, List.reverse_replicate,
      List.append_assoc, List.singleton_append, takeWhile_replicate]
  have hkept : MAX_BASE - leading_zeros slice.newlines = (utf8 front).length + 1 := by omega
  have hchars : (charBits slice.text).drop ((utf8 front).length + 1) = charBits last := by
    have hlength : (charBits front ++ [true]).length = (utf8 front).length + 1 := by
      rw [List.length_append, byteBits_length]
      rfl
    rw [htext, charBits_newline, ← List.singleton_append, ← List.append_assoc, ← hlength, List.drop_left]
  have hunits : (utf16Bits slice.text).drop ((utf8 front).length + 1) = utf16Bits last := by
    have hlength : (utf16Bits front ++ [true]).length = (utf8 front).length + 1 := by
      rw [List.length_append, utf16Bits_length]
      rfl
    rw [htext, utf16Bits_newline, ← List.singleton_append, ← List.append_assoc, ← hlength, List.drop_left]
  refine ⟨?_, ?_, ?_⟩
  · rw [lines, hleading]
    exact Nat.add_sub_cancel_left _ _
  · rw [last_line_chars, (h.chars.clear _).count_ones, hkept, hchars, List.count_append, charBits_count,
      List.count_replicate, if_neg (by decide), Nat.zero_add]
  · rw [last_line_len_utf16, (h.chars_utf16.clear _).count_ones, hkept, hunits, List.count_append, utf16Bits_count,
      List.count_replicate, if_neg (by decide), Nat.zero_add]

theorem Valid.only_row (h : Valid slice) (hline : '\n' ∉ slice.text) :
    slice.lines.column = slice.len ∧ slice.first_line_chars = slice.text.length ∧
      slice.last_line_chars = slice.text.length ∧
      slice.last_line_len_utf16 = (slice.text.map rope.len_utf16).sum := by
  have hle := h.len_le
  have hnewlines := h.newlines
  rw [newlineBits_line hline] at hnewlines
  have hleading : leading_zeros slice.newlines = MAX_BASE := by
    rw [hnewlines.leading_zeros, List.length_replicate, List.reverse_replicate,
      List.takeWhile_eq_self_iff.mpr (by intro bit hbit; rw [List.eq_of_mem_replicate hbit]; rfl),
      List.length_replicate]
    exact Nat.sub_add_cancel hle
  have htrailing : trailing_zeros slice.newlines = MAX_BASE := by
    rw [hnewlines.trailing_zeros, if_neg]
    intro hmem
    cases List.eq_of_mem_replicate hmem
  have hlength : (charBits slice.text).length = slice.len := byteBits_length _ _
  refine ⟨?_, ?_, ?_, ?_⟩
  · rw [lines, hleading]
    exact Nat.sub_sub_self hle
  · rw [first_line_chars, htrailing, (h.chars.take _).count_ones, List.take_of_length_le (by omega), charBits_count]
  · rw [last_line_chars, hleading, (h.chars.clear _).count_ones, Nat.sub_self, List.drop_zero, Nat.zero_min,
      List.replicate_zero, List.nil_append, charBits_count]
  · rw [last_line_len_utf16, hleading, (h.chars_utf16.clear _).count_ones, Nat.sub_self, List.drop_zero,
      Nat.zero_min, List.replicate_zero, List.nil_append, utf16Bits_count]

theorem Valid.first_row (h : Valid slice) {line rest : Str} (htext : slice.text = line ++ '\n' :: rest)
    (hline : '\n' ∉ line) : slice.first_line_chars = line.length := by
  have hmarks := h.newlines
  rw [htext, newlineBits_cons, newlineBits_line hline] at hmarks
  have hlength : (charBits line).length = (utf8 line).length := byteBits_length _ _
  rw [first_line_chars, hmarks.trailing_zeros, if_pos (by simp), takeWhile_replicate, (h.chars.take _).count_ones,
    htext, charBits_newline, ← hlength, List.take_left, charBits_count]

/-- The summary that the bitmaps give is that of the text. -/
theorem Valid.text_summary_eq (h : Valid slice) : slice.text_summary = TextSummary.from_str slice.text := by
  obtain ⟨hchars, hutf16, hrow⟩ := TextSummary.from_str_counts slice.text
  have hloop := rows_loop_eq h.chars h.newlines 0 0 0 0
  have hlongest : (if (TextSummary.from_str slice.text).longest_row_chars > 0 then
      (0 + (TextSummary.from_str slice.text).longest_row, (TextSummary.from_str slice.text).longest_row_chars)
      else (0, 0)) =
      ((TextSummary.from_str slice.text).longest_row, (TextSummary.from_str slice.text).longest_row_chars) := by
    obtain ⟨-, hfirst, -, -, hfirstLongest⟩ := TextSummary.from_str_sound slice.text
    split
    · rw [Nat.zero_add]
    · rw [hfirstLongest (by omega)]
      exact Prod.ext rfl (by dsimp only; omega)
  have hrows : slice.lines.row = (TextSummary.from_str slice.text).lines.row := by
    rw [lines, h.newlines.count_ones, newlineBits_count, hrow]
  have hfirst : slice.first_line_chars = (TextSummary.from_str slice.text).first_line_chars := by
    by_cases hmem : '\n' ∈ slice.text
    · obtain ⟨line, rest, htext, hline⟩ := List.eq_append_cons_of_mem hmem
      rw [h.first_row htext hline, htext, (TextSummary.from_str_first_row hline).1]
    · rw [(h.only_row hmem).2.1, TextSummary.from_str_line hmem]
  have hlast : slice.lines.column = (TextSummary.from_str slice.text).lines.column ∧
      slice.last_line_chars = (TextSummary.from_str slice.text).last_line_chars ∧
      slice.last_line_len_utf16 = (TextSummary.from_str slice.text).last_line_len_utf16 := by
    by_cases hmem : '\n' ∈ slice.text
    · obtain ⟨last, front, hreverse, hlast⟩ := List.eq_append_cons_of_mem (List.mem_reverse.mpr hmem)
      have htext : slice.text = front.reverse ++ '\n' :: last.reverse := by
        rw [← List.reverse_reverse slice.text, hreverse, List.reverse_append, List.reverse_cons, List.append_assoc,
          List.singleton_append]
      have hnone : '\n' ∉ last.reverse := fun h => hlast (List.mem_reverse.mp h)
      obtain ⟨hcolumn, hlastChars, hlastUtf16⟩ := h.last_row htext hnone
      obtain ⟨hcolumn', hlastChars', hlastUtf16'⟩ := @TextSummary.from_str_last_row front.reverse _ hnone
      rw [hcolumn, hlastChars, hlastUtf16, htext, hcolumn', hlastChars', hlastUtf16']
      exact ⟨rfl, rfl, rfl⟩
    · obtain ⟨hcolumn, -, hlastChars, hlastUtf16⟩ := h.only_row hmem
      rw [hcolumn, hlastChars, hlastUtf16, TextSummary.from_str_line hmem]
      exact ⟨rfl, rfl, rfl⟩
  rw [text_summary, hloop, hlongest]
  ext
  · rfl
  · dsimp only
    rw [Nat.zero_add, hchars]
  · dsimp only
    rw [len_utf16, h.chars_utf16.count_ones, utf16Bits_count, hutf16]
  · exact hrows
  · exact hlast.1
  · exact hfirst
  · exact hlast.2.1
  · exact hlast.2.2
  · rfl
  · rfl

end ChunkSlice

namespace TextSummary

end TextSummary

end zed.rope
