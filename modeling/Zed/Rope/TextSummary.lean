import Zed.Rope.Text

namespace zed.rope

/-- A row and a column, in bytes. -/
@[ext] structure Point where
  row : Nat
  column : Nat
deriving DecidableEq

def Point.add (self other : Point) : Point :=
  if other.row = 0 then ⟨self.row, self.column + other.column⟩ else ⟨self.row + other.row, other.column⟩

@[simp] theorem Point.add_row (self other : Point) : (self.add other).row = self.row + other.row := by
  unfold Point.add
  split
  · rename_i hzero
    rw [hzero, Nat.add_zero]
  · rfl

@[simp] theorem Point.add_column (self other : Point) :
    (self.add other).column = if other.row = 0 then self.column + other.column else other.column := by
  unfold Point.add
  split <;> rfl

/-- Summary of a string of text. -/
@[ext] structure TextSummary where
  len : Nat
  chars : Nat
  len_utf16 : Nat
  lines : Point
  first_line_chars : Nat
  last_line_chars : Nat
  last_line_len_utf16 : Nat
  longest_row : Nat
  longest_row_chars : Nat
deriving DecidableEq

/-- `char::len_utf16`. -/
def len_utf16 (char : Char) : Nat := if char.toNat < 0x10000 then 1 else 2

namespace TextSummary

def default : TextSummary := ⟨0, 0, 0, ⟨0, 0⟩, 0, 0, 0, 0, 0⟩

def newline : TextSummary := ⟨1, 1, 1, ⟨1, 0⟩, 0, 0, 0, 0, 0⟩

def add_newline (summary : TextSummary) : TextSummary :=
  { summary with
    len := summary.len + 1
    len_utf16 := summary.len_utf16 + (summary.len_utf16 + 1)
    last_line_chars := 0
    last_line_len_utf16 := 0
    lines := summary.lines.add ⟨1, 0⟩ }

/-- A round of the loop of `From<&str>`, which leaves the length to the text. -/
def push_char (summary : TextSummary) (char : Char) : TextSummary :=
  let chars := summary.chars + 1
  let len_utf16 := summary.len_utf16 + rope.len_utf16 char
  let lines :=
    if char = '\n' then summary.lines.add ⟨1, 0⟩ else { summary.lines with column := summary.lines.column + char.utf8Size }
  let last_line_len_utf16 := if char = '\n' then 0 else summary.last_line_len_utf16 + rope.len_utf16 char
  let last_line_chars := if char = '\n' then 0 else summary.last_line_chars + 1
  let first_line_chars := if lines.row = 0 then last_line_chars else summary.first_line_chars
  let (longest_row, longest_row_chars) :=
    if last_line_chars > summary.longest_row_chars then (lines.row, last_line_chars)
    else (summary.longest_row, summary.longest_row_chars)
  { len := summary.len
    chars, len_utf16, lines, first_line_chars, last_line_chars, last_line_len_utf16, longest_row, longest_row_chars }

def from_str (text : Str) : TextSummary := { text.foldl push_char default with len := (utf8 text).length }

def add (summary other : TextSummary) : TextSummary :=
  let joined_chars := summary.last_line_chars + other.first_line_chars
  let (longest_row, longest_row_chars) :=
    if joined_chars > summary.longest_row_chars then (summary.lines.row, joined_chars)
    else (summary.longest_row, summary.longest_row_chars)
  let (longest_row, longest_row_chars) :=
    if other.longest_row_chars > longest_row_chars then
      (summary.lines.row + other.longest_row, other.longest_row_chars)
    else (longest_row, longest_row_chars)
  { len := summary.len + other.len
    chars := summary.chars + other.chars
    len_utf16 := summary.len_utf16 + other.len_utf16
    lines := summary.lines.add other.lines
    first_line_chars :=
      if summary.lines.row = 0 then summary.first_line_chars + other.first_line_chars else summary.first_line_chars
    last_line_chars :=
      if other.lines.row = 0 then summary.last_line_chars + other.first_line_chars else other.last_line_chars
    last_line_len_utf16 :=
      if other.lines.row = 0 then summary.last_line_len_utf16 + other.last_line_len_utf16
      else other.last_line_len_utf16
    longest_row, longest_row_chars }

instance : Add TextSummary := ⟨add⟩

/-- What holds of the summary of any string. -/
structure Sound (summary : TextSummary) : Prop where
  last_le : summary.last_line_chars ≤ summary.longest_row_chars
  first_le : summary.first_line_chars ≤ summary.longest_row_chars
  one_row : summary.lines.row = 0 →
    summary.first_line_chars = summary.last_line_chars ∧ summary.longest_row_chars = summary.last_line_chars ∧
      summary.longest_row = 0
  longest_row_le : summary.longest_row ≤ summary.lines.row
  first_longest : summary.first_line_chars = summary.longest_row_chars → summary.longest_row = 0

theorem Sound.default : Sound default :=
  ⟨Nat.le_refl _, Nat.le_refl _, fun _ => ⟨rfl, rfl, rfl⟩, Nat.le_refl _, fun _ => rfl⟩

theorem push_char_newline (summary : TextSummary) :
    summary.push_char '\n' =
      { summary with
        chars := summary.chars + 1
        len_utf16 := summary.len_utf16 + 1
        lines := ⟨summary.lines.row + 1, 0⟩
        last_line_chars := 0
        last_line_len_utf16 := 0 } := by
  have hunits : rope.len_utf16 '\n' = 1 := rfl
  simp [push_char, Point.add, hunits]

theorem push_char_other (summary : TextSummary) {char : Char} (h : char ≠ '\n') :
    summary.push_char char =
      { summary with
        chars := summary.chars + 1
        len_utf16 := summary.len_utf16 + rope.len_utf16 char
        lines := ⟨summary.lines.row, summary.lines.column + char.utf8Size⟩
        first_line_chars := if summary.lines.row = 0 then summary.last_line_chars + 1 else summary.first_line_chars
        last_line_chars := summary.last_line_chars + 1
        last_line_len_utf16 := summary.last_line_len_utf16 + rope.len_utf16 char
        longest_row :=
          if summary.last_line_chars + 1 > summary.longest_row_chars then summary.lines.row else summary.longest_row
        longest_row_chars := max (summary.last_line_chars + 1) summary.longest_row_chars } := by
  by_cases hmore : summary.last_line_chars + 1 > summary.longest_row_chars
  · simp only [push_char, if_neg h, if_pos hmore, max_eq_left hmore.le]
  · simp only [push_char, if_neg h, if_neg hmore, max_eq_right (Nat.not_lt.mp hmore)]

theorem Sound.push_char {summary : TextSummary} (h : Sound summary) (char : Char) : Sound (summary.push_char char) := by
  obtain ⟨hlast, hfirst, hone, hrow, hlongest⟩ := h
  by_cases hchar : char = '\n'
  · subst hchar
    rw [push_char_newline]
    exact ⟨Nat.zero_le _, hfirst, fun hzero => absurd hzero (Nat.succ_ne_zero _), Nat.le_succ_of_le hrow, hlongest⟩
  · rw [push_char_other summary hchar]
    refine ⟨le_max_left _ _, ?_, fun hzero => ?_, ?_, fun hfirstLongest => ?_⟩
    · dsimp only
      split <;> omega
    · dsimp only at hzero ⊢
      obtain ⟨hfirst, hlongest, hlongestRow⟩ := hone hzero
      rw [if_pos hzero, if_pos (by omega), hzero]
      exact ⟨rfl, by omega, rfl⟩
    · dsimp only
      split <;> omega
    · dsimp only at hfirstLongest ⊢
      by_cases hzero : summary.lines.row = 0
      · rw [(hone hzero).2.2, hzero, ite_self]
      · rw [if_neg hzero] at hfirstLongest
        rw [if_neg (by omega)]
        exact hlongest (by omega)

theorem longest_add (summary other : TextSummary) :
    (summary.add other).longest_row_chars =
        max (max summary.longest_row_chars (summary.last_line_chars + other.first_line_chars))
          other.longest_row_chars ∧
      (summary.add other).longest_row =
        if other.longest_row_chars >
            max summary.longest_row_chars (summary.last_line_chars + other.first_line_chars) then
          summary.lines.row + other.longest_row
        else if summary.last_line_chars + other.first_line_chars > summary.longest_row_chars then summary.lines.row
        else summary.longest_row := by
  unfold add
  dsimp only
  split_ifs <;> simp_all <;> omega

theorem add_lines (summary other : TextSummary) : (summary.add other).lines = summary.lines.add other.lines := rfl

theorem add_first_line_chars (summary other : TextSummary) :
    (summary.add other).first_line_chars =
      if summary.lines.row = 0 then summary.first_line_chars + other.first_line_chars
      else summary.first_line_chars := rfl

theorem add_last_line_chars (summary other : TextSummary) :
    (summary.add other).last_line_chars =
      if other.lines.row = 0 then summary.last_line_chars + other.first_line_chars else other.last_line_chars := rfl

theorem add_last_line_len_utf16 (summary other : TextSummary) :
    (summary.add other).last_line_len_utf16 =
      if other.lines.row = 0 then summary.last_line_len_utf16 + other.last_line_len_utf16
      else other.last_line_len_utf16 := rfl

theorem push_char_add {summary other : TextSummary} (h : Sound summary) (hother : Sound other) (char : Char) :
    (summary.add other).push_char char = summary.add (other.push_char char) := by
  obtain ⟨hlongest, hrow⟩ := longest_add summary other
  obtain ⟨hlongest', hrow'⟩ := longest_add summary (other.push_char char)
  by_cases hchar : char = '\n'
  · subst hchar
    rw [push_char_newline] at hlongest' hrow' ⊢
    rw [push_char_newline]
    dsimp only at hlongest' hrow'
    ext
    · rfl
    · exact Nat.add_assoc _ _ _
    · exact Nat.add_assoc _ _ _
    · simp only [add_lines, Point.add_row, Nat.add_assoc]
    · simp [add_lines]
    · rfl
    · simp [add_last_line_chars]
    · simp [add_last_line_len_utf16]
    · exact hrow.trans hrow'.symm
    · exact hlongest.trans hlongest'.symm
  · rw [push_char_other other hchar] at hlongest' hrow' ⊢
    rw [push_char_other _ hchar]
    dsimp only at hlongest' hrow'
    have hone := h.one_row
    have honeOther := hother.one_row
    have hlastOther := hother.last_le
    ext
    · rfl
    · exact Nat.add_assoc _ _ _
    · exact Nat.add_assoc _ _ _
    · simp only [add_lines, Point.add_row]
    · simp only [add_lines, Point.add_column]
      split <;> omega
    · simp only [add_lines, Point.add_row, add_first_line_chars, add_last_line_chars]
      split_ifs <;> omega
    · simp only [add_last_line_chars]
      split_ifs <;> omega
    · simp only [add_last_line_len_utf16]
      split_ifs <;> omega
    · simp only [add_lines, Point.add_row, add_last_line_chars, hrow, hlongest, hrow']
      rcases Nat.eq_zero_or_pos other.lines.row with hzero | hpos
      · obtain ⟨hfirst, hlast, hlongestRow⟩ := honeOther hzero
        simp only [hzero, hlongestRow, hfirst, hlast, if_true]
        split_ifs <;> omega
      · simp only [hpos.ne', if_false]
        split_ifs <;> omega
    · simp only [add_last_line_chars, hlongest, hlongest']
      rcases Nat.eq_zero_or_pos other.lines.row with hzero | hpos
      · obtain ⟨hfirst, hlast, hlongestRow⟩ := honeOther hzero
        simp only [hzero, hfirst, hlast, if_true]
        omega
      · simp only [hpos.ne', if_false]
        omega

def chars_summary (text : Str) : TextSummary := text.foldl push_char default

theorem chars_summary_concat (text : Str) (char : Char) :
    chars_summary (text ++ [char]) = (chars_summary text).push_char char := by
  rw [chars_summary, List.foldl_append]
  rfl

theorem chars_summary_sound (text : Str) : Sound (chars_summary text) := by
  induction text using List.reverseRecOn with
  | nil => exact Sound.default
  | append_singleton text char ih =>
    rw [chars_summary_concat]
    exact ih.push_char char

theorem add_default {summary : TextSummary} (h : Sound summary) : summary.add default = summary := by
  obtain ⟨hlongest, hrow⟩ := longest_add summary default
  have hlast := h.last_le
  have hnone : default.first_line_chars = 0 ∧ default.longest_row_chars = 0 := ⟨rfl, rfl⟩
  rw [hnone.1, hnone.2, Nat.add_zero, max_eq_left hlast] at hlongest hrow
  rw [if_neg (Nat.not_lt_zero _), if_neg (Nat.not_lt.mpr hlast)] at hrow
  ext
  · rfl
  · rfl
  · rfl
  · rfl
  · rfl
  · exact ite_self _
  · rfl
  · rfl
  · exact hrow
  · rw [hlongest, max_eq_left (Nat.zero_le _)]

theorem chars_summary_append (left right : Str) :
    chars_summary (left ++ right) = (chars_summary left).add (chars_summary right) := by
  induction right using List.reverseRecOn with
  | nil =>
    rw [List.append_nil]
    exact (add_default (chars_summary_sound left)).symm
  | append_singleton right char ih =>
    rw [← List.append_assoc, chars_summary_concat, ih, chars_summary_concat,
      push_char_add (chars_summary_sound left) (chars_summary_sound right)]

theorem from_str_sound (text : Str) : Sound (from_str text) := by
  obtain ⟨hlast, hfirst, hone, hle, hlongest⟩ := chars_summary_sound text
  exact ⟨hlast, hfirst, hone, hle, hlongest⟩

theorem from_str_append (left right : Str) : from_str (left ++ right) = from_str left + from_str right := by
  have hchars := chars_summary_append left right
  have hlength : (utf8 (left ++ right)).length = (utf8 left).length + (utf8 right).length := by
    rw [utf8, List.flatMap_append, List.length_append]
    rfl
  change { chars_summary (left ++ right) with len := (utf8 (left ++ right)).length } = _
  rw [hchars, hlength]
  rfl

theorem from_str_newline : from_str ['\n'] = newline := by decide

theorem len_utf16_eq (char : Char) : rope.len_utf16 char = if char.utf8Size = 4 then 2 else 1 := by
  have hfour : char.utf8Size = 4 ↔ ¬ char.toNat < 0x10000 := by
    rw [Char.utf8Size_eq_four_iff, UInt32.lt_iff_toNat_lt, Char.toNat, show (0xffff : UInt32).toNat = 65535 from rfl]
    omega
  rw [rope.len_utf16]
  split <;> simp_all

/-- No count is above the length in bytes: the 32-bit ones do not wrap in a text below 4 GiB. -/
theorem from_str_fits (text : Str) :
    (from_str text).chars ≤ (from_str text).len ∧ (from_str text).len_utf16 ≤ (from_str text).len ∧
      (from_str text).lines.row ≤ (from_str text).len ∧ (from_str text).lines.column ≤ (from_str text).len ∧
      (from_str text).last_line_len_utf16 ≤ (from_str text).len ∧
      (from_str text).longest_row_chars ≤ (from_str text).len := by
  change (chars_summary text).chars ≤ (utf8 text).length ∧ (chars_summary text).len_utf16 ≤ (utf8 text).length ∧
      (chars_summary text).lines.row ≤ (utf8 text).length ∧ (chars_summary text).lines.column ≤ (utf8 text).length ∧
      (chars_summary text).last_line_len_utf16 ≤ (utf8 text).length ∧
      (chars_summary text).longest_row_chars ≤ (utf8 text).length
  induction text using List.reverseRecOn with
  | nil => exact ⟨Nat.zero_le _, Nat.zero_le _, Nat.zero_le _, Nat.zero_le _, Nat.zero_le _, Nat.zero_le _⟩
  | append_singleton text char ih =>
    have hlength : (utf8 (text ++ [char])).length = (utf8 text).length + char.utf8Size := by
      rw [utf8, List.flatMap_append, List.length_append, List.flatMap_singleton, String.length_utf8EncodeChar]
      rfl
    have hlast := (chars_summary_sound text).last_le
    have hunits := len_utf16_eq char
    have hpos := char.utf8Size_pos
    obtain ⟨hchars, hutf16, hrow, hcolumn, hlastUtf16, hlongest⟩ := ih
    have hsize : rope.len_utf16 char ≤ char.utf8Size := by
      rw [hunits]
      split <;> omega
    rw [chars_summary_concat, hlength]
    by_cases hchar : char = '\n'
    · subst hchar
      rw [push_char_newline]
      dsimp only
      omega
    · rw [push_char_other _ hchar]
      dsimp only
      omega

end TextSummary

end zed.rope
