import Zed.Rope.Point

namespace zed.rope.Rope

def NEWLINE : UInt8 := 10

def newlines (text : Rope) : Nat := text.count NEWLINE

/-- The offset at which a row starts, or the length of a text without the row. -/
def row_start : Rope → Nat → Nat
  | _, 0 => 0
  | [], _ + 1 => 0
  | byte :: text, row + 1 => row_start text (if byte = NEWLINE then row else row + 1) + 1

def max_point (text : Rope) : Point := ⟨newlines text, text.length - row_start text (newlines text)⟩

def offset_to_point (text : Rope) (offset : Nat) : Point := max_point (text.take offset)

def line_len (text : Rope) (row : Nat) : Nat :=
  if row < newlines text then row_start text (row + 1) - 1 - row_start text row else (max_point text).column

def point_to_offset (text : Rope) (point : Point) : Nat :=
  if max_point text ≤ point then text.length
  else row_start text point.row + min point.column (line_len text point.row)

def replace (text : Rope) (start stop : Nat) (new_text : Rope) : Rope :=
  text.take start ++ new_text ++ text.drop stop

/-- The text is empty or its last byte is a newline. -/
def Closed (text : Rope) : Prop := row_start text (newlines text) = text.length

variable {text : Rope} {row : Nat}

@[simp] theorem row_start_zero (text : Rope) : row_start text 0 = 0 := by
  cases text <;> rfl

@[simp] theorem row_start_nil (row : Nat) : row_start [] row = 0 := by
  cases row <;> rfl

theorem newlines_append (before after : Rope) : newlines (before ++ after) = newlines before + newlines after :=
  List.count_append

theorem newlines_cons (byte : UInt8) (text : Rope) :
    newlines (byte :: text) = newlines text + if byte = NEWLINE then 1 else 0 := by
  unfold newlines
  rw [List.count_cons]
  simp only [beq_iff_eq]

theorem row_start_le (text : Rope) (row : Nat) : row_start text row ≤ text.length := by
  induction text generalizing row with
  | nil => simp
  | cons byte text ih =>
    cases row with
    | zero => simp
    | succ row =>
      rw [row_start, List.length_cons]
      exact Nat.succ_le_succ (ih _)

theorem row_start_of_gt (h : newlines text < row) : row_start text row = text.length := by
  induction text generalizing row with
  | nil => simp
  | cons byte text ih =>
    rw [newlines_cons] at h
    obtain ⟨row, rfl⟩ := Nat.exists_eq_add_of_lt h
    by_cases hbyte : byte = NEWLINE
    · rw [row_start, if_pos hbyte, if_pos hbyte, ih (by omega), List.length_cons]
    · rw [row_start, if_neg hbyte, if_neg hbyte, ih (by omega), List.length_cons]

theorem newlines_take (h : row ≤ newlines text) : newlines (text.take (row_start text row)) = row := by
  induction text generalizing row with
  | nil => simpa [newlines, eq_comm] using h
  | cons byte text ih =>
    cases row with
    | zero => simp [newlines]
    | succ row =>
      rw [newlines_cons] at h
      rw [row_start, List.take_succ_cons, newlines_cons]
      by_cases hbyte : byte = NEWLINE
      · rw [if_pos hbyte] at h
        rw [if_pos hbyte, if_pos hbyte, ih (by omega)]
      · rw [if_neg hbyte] at h
        rw [if_neg hbyte, if_neg hbyte, ih (by omega), Nat.add_zero]

theorem row_start_take (h : row ≤ newlines text) :
    row_start (text.take (row_start text row)) row = row_start text row := by
  induction text generalizing row with
  | nil => simp
  | cons byte text ih =>
    cases row with
    | zero => simp
    | succ row =>
      rw [newlines_cons] at h
      rw [row_start, List.take_succ_cons, row_start]
      by_cases hbyte : byte = NEWLINE
      · rw [if_pos hbyte] at h
        rw [if_pos hbyte, ih (by omega)]
      · rw [if_neg hbyte] at h
        rw [if_neg hbyte, ih (by omega)]

theorem closed_nil : Closed [] := rfl

theorem closed_take (h : row ≤ newlines text) : Closed (text.take (row_start text row)) := by
  unfold Closed
  rw [newlines_take h, row_start_take h, List.length_take, min_eq_left (row_start_le text row)]

theorem Closed.row_start_append {before : Rope} (h : Closed before) (after : Rope) (row : Nat) :
    row_start (before ++ after) (newlines before + row) = before.length + row_start after row := by
  induction before with
  | nil => simp [newlines]
  | cons byte before ih =>
    unfold Closed at h
    rw [newlines_cons] at h ⊢
    by_cases hbyte : byte = NEWLINE
    · rw [if_pos hbyte] at h ⊢
      rw [row_start, if_pos hbyte, List.length_cons] at h
      rw [Nat.add_right_comm, List.cons_append, row_start, if_pos hbyte, ih (by unfold Closed; omega), List.length_cons]
      omega
    · rw [if_neg hbyte, Nat.add_zero] at h ⊢
      cases hlines : newlines before with
      | zero =>
        rw [hlines, row_start_zero, List.length_cons] at h
        omega
      | succ lines =>
        rw [hlines, row_start, if_neg hbyte, List.length_cons] at h
        rw [hlines] at ih
        rw [Nat.add_right_comm, List.cons_append, row_start, if_neg hbyte, Nat.add_right_comm,
          ih (by unfold Closed; rw [hlines]; omega), List.length_cons]
        omega

theorem row_start_append_succ (before after : Rope) (row : Nat) :
    row_start (before ++ after) (newlines before + (row + 1)) = before.length + row_start after (row + 1) := by
  induction before with
  | nil => simp [newlines]
  | cons byte before ih =>
    rw [newlines_cons]
    by_cases hbyte : byte = NEWLINE
    · rw [if_pos hbyte, Nat.add_right_comm, List.cons_append, row_start, if_pos hbyte, ih, List.length_cons]
      omega
    · rw [if_neg hbyte, Nat.add_zero, ← Nat.add_assoc, List.cons_append, row_start, if_neg hbyte, Nat.add_assoc, ih,
        List.length_cons]
      omega

theorem row_start_append_of_le {before : Rope} (h : row ≤ newlines before) (after : Rope) :
    row_start (before ++ after) row = row_start before row := by
  induction before generalizing row with
  | nil =>
    obtain rfl : row = 0 := by simpa [newlines] using h
    simp
  | cons byte before ih =>
    cases row with
    | zero => simp
    | succ row =>
      rw [newlines_cons] at h
      rw [List.cons_append, row_start, row_start]
      by_cases hbyte : byte = NEWLINE
      · rw [if_pos hbyte] at h
        rw [if_pos hbyte, ih (by omega)]
      · rw [if_neg hbyte] at h
        rw [if_neg hbyte, ih (by omega)]

theorem Closed.append {before after : Rope} (h : Closed before) (hafter : Closed after) : Closed (before ++ after) := by
  unfold Closed
  rw [newlines_append, h.row_start_append, hafter, List.length_append]

theorem row_start_add (text : Rope) (row rows : Nat) :
    row_start text (row + rows) = row_start text row + row_start (text.drop (row_start text row)) rows := by
  by_cases hrow : row ≤ newlines text
  · have happend := (closed_take hrow).row_start_append (text.drop (row_start text row)) rows
    rwa [List.take_append_drop, newlines_take hrow, List.length_take, min_eq_left (row_start_le text row)] at happend
  · rw [@row_start_of_gt text row (by omega), row_start_of_gt (by omega), List.drop_length, row_start_nil, Nat.add_zero]

theorem row_start_mono {row' : Nat} (h : row ≤ row') : row_start text row ≤ row_start text row' := by
  obtain ⟨rows, rfl⟩ := Nat.exists_eq_add_of_le h
  rw [row_start_add]
  exact Nat.le_add_right _ _

theorem newlines_drop (h : row ≤ newlines text) :
    newlines (text.drop (row_start text row)) = newlines text - row := by
  have hsplit := newlines_append (text.take (row_start text row)) (text.drop (row_start text row))
  rw [List.take_append_drop, newlines_take h] at hsplit
  omega

theorem max_point_row (text : Rope) : (max_point text).row = newlines text := rfl

/-- The end of a row range, as long as the text has rows for it. -/
theorem min_max_point (text : Rope) (row : Nat) :
    point_to_offset text (if (⟨row, 0⟩ : Point) ≤ max_point text then ⟨row, 0⟩ else max_point text) = row_start text row := by
  by_cases hrow : row ≤ newlines text
  · have hle : (⟨row, 0⟩ : Point) ≤ max_point text := by
      rw [Point.le_def, max_point_row]
      rcases Nat.lt_or_eq_of_le hrow with hlt | heq
      · exact Or.inl hlt
      · exact Or.inr ⟨heq, Nat.zero_le _⟩
    rw [if_pos hle, point_to_offset]
    by_cases hmax : max_point text ≤ ⟨row, 0⟩
    · have heq := Point.le_antisymm hle hmax
      have hcolumn : 0 = text.length - row_start text (newlines text) := congrArg Point.column heq
      have hlines : row = newlines text := congrArg Point.row heq
      have := row_start_le text row
      rw [if_pos hmax]
      rw [← hlines] at hcolumn
      omega
    · rw [if_neg hmax, Nat.zero_min, Nat.add_zero]
  · have hlt : ¬ (⟨row, 0⟩ : Point) ≤ max_point text := by
      rw [Point.le_def, max_point_row]
      rintro (h | ⟨h, -⟩)
      · exact hrow (Nat.le_of_lt h)
      · exact hrow (Nat.le_of_eq h)
    rw [if_neg hlt, point_to_offset, if_pos (Point.le_refl _), row_start_of_gt (by omega)]

theorem point_to_offset_row (text : Rope) (row : Nat) : point_to_offset text ⟨row, 0⟩ = row_start text row := by
  have hmin := min_max_point text row
  by_cases hle : (⟨row, 0⟩ : Point) ≤ max_point text
  · rwa [if_pos hle] at hmin
  · have hlt := Point.not_le.mp hle
    have hge : max_point text ≤ ⟨row, 0⟩ := by
      rw [Point.lt_def] at hlt
      rw [Point.le_def]
      omega
    rw [if_neg hle, point_to_offset, if_pos (Point.le_refl _)] at hmin
    rw [point_to_offset, if_pos hge, hmin]

end zed.rope.Rope
