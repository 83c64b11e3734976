import Zed.StreamingDiff

namespace zed.streaming_diff

theorem sub_eq {a b : Nat} (h : b ≤ a) : sub a b = some (a - b) := if_pos h

theorem set_at_eq {α : Type} (xs : List α) {i : Nat} (h : i < xs.length) (x : α) :
    set_at xs i x = some (xs.set i x) := if_pos h

theorem get_of_lt {α : Type} (xs : List α) {i : Nat} (h : i < xs.length) : ∃ x, xs[i]? = some x :=
  ⟨_, List.getElem?_eq_getElem h⟩

/-- A loop that keeps an invariant does not panic. -/
theorem foldlM_some {α β : Type} (step : β → α → Option β) (xs : List α) {P : β → Prop}
    (hstep : ∀ b x, x ∈ xs → P b → ∃ b', step b x = some b' ∧ P b') {b : β} (hb : P b) :
    ∃ b', xs.foldlM step b = some b' ∧ P b' := by
  induction xs generalizing b with
  | nil => exact ⟨b, rfl, hb⟩
  | cons x xs ih =>
    obtain ⟨next, hnext, hP⟩ := hstep b x List.mem_cons_self hb
    obtain ⟨last, hlast, hP⟩ := ih (fun b x hx => hstep b x (List.mem_cons_of_mem _ hx)) hP
    refine ⟨last, ?_, hP⟩
    rw [List.foldlM_cons, hnext]
    exact hlast

namespace Matrix

variable {F : Type} {m : Matrix F} {rows cols : Nat}

/-- A matrix of some dimensions has as many cells. -/
structure Shaped (m : Matrix F) (rows cols : Nat) : Prop where
  rows_eq : m.rows = rows
  cols_eq : m.cols = cols
  length_eq : m.cells.length = rows * cols

theorem resize_shaped (zero : F) (m : Matrix F) (rows cols : Nat) : (m.resize zero rows cols).Shaped rows cols := by
  refine ⟨rfl, rfl, ?_⟩
  simp only [resize, List.length_append, List.length_take, List.length_replicate]
  omega

theorem column_end_le {cols : Nat} (rows : Nat) {col : Nat} (h : col < cols) : col * rows + rows ≤ rows * cols := by
  have hle := Nat.mul_le_mul_left rows (Nat.succ_le_of_lt h)
  rw [Nat.mul_succ, Nat.mul_comm rows col] at hle
  exact hle

theorem cell_lt {row col : Nat} (hrow : row < rows) (hcol : col < cols) : col * rows + row < rows * cols :=
  Nat.lt_of_lt_of_le (Nat.add_lt_add_left hrow _) (column_end_le rows hcol)

theorem Shaped.swap_columns (h : m.Shaped rows cols) {col1 col2 : Nat} (h1 : col1 < cols) (h2 : col2 < cols) :
    ∃ swapped, m.swap_columns col1 col2 = some swapped ∧ swapped.Shaped rows cols := by
  obtain ⟨rfl, rfl, hlength⟩ := h
  have hend1 := column_end_le m.rows h1
  have hend2 := column_end_le m.rows h2
  by_cases heq : col1 = col2
  · exact ⟨m, if_pos heq, rfl, rfl, hlength⟩
  · refine ⟨{ m with cells := swap_nonoverlapping m.cells (col1 * m.rows) (col2 * m.rows) m.rows }, ?_, rfl, rfl, ?_⟩
    · rw [Matrix.swap_columns, if_neg heq, if_neg (by omega), if_neg (by omega)]
    · rw [swap_nonoverlapping, List.length_mapIdx, hlength]

theorem Shaped.get (h : m.Shaped rows cols) (row col : Nat) (hrow : row < rows) (hcol : col < cols) :
    ∃ score, m.get row col = some score := by
  obtain ⟨rfl, rfl, hlength⟩ := h
  have hcell := cell_lt hrow hcol
  rw [Matrix.get, if_neg (by omega)]
  exact get_of_lt _ (by omega)

theorem Shaped.set (h : m.Shaped rows cols) {row col : Nat} (hrow : row < rows) (hcol : col < cols) (value : F) :
    ∃ written, m.set row col value = some written ∧ written.Shaped rows cols := by
  obtain ⟨rfl, rfl, hlength⟩ := h
  have hcell := cell_lt hrow hcol
  refine ⟨{ m with cells := m.cells.set (col * m.rows + row) value }, ?_, rfl, rfl, ?_⟩
  · rw [Matrix.set, if_neg (by omega), set_at_eq _ (by omega)]
    rfl
  · rw [List.length_set, hlength]

theorem Shaped.adjacent_columns_mut (h : m.Shaped rows cols) (col : Nat) (hpos : 0 < col) (hcol : col < cols) :
    ∃ previous current, m.adjacent_columns_mut col = some (previous, current) ∧
      previous.length = rows ∧ current.length = rows := by
  obtain ⟨rfl, rfl, hlength⟩ := h
  have hend := column_end_le m.rows hcol
  have hstart : m.rows ≤ col * m.rows := Nat.le_mul_of_pos_left _ hpos
  refine ⟨(m.cells.take (col * m.rows)).drop (col * m.rows - m.rows), (m.cells.drop (col * m.rows)).take m.rows,
    ?_, ?_, ?_⟩
  · unfold Matrix.adjacent_columns_mut
    rw [if_neg (by omega)]
    dsimp only
    rw [sub_eq hstart]
    exact if_neg (by omega)
  · rw [List.length_drop, List.length_take]
    omega
  · rw [List.length_take, List.length_drop]
    omega

theorem Shaped.write_column (h : m.Shaped rows cols) {col : Nat} (hcol : col < cols) {column : List F}
    (hcolumn : column.length = rows) : (m.write_column col column).Shaped rows cols := by
  obtain ⟨rfl, rfl, hlength⟩ := h
  have hend := column_end_le m.rows hcol
  refine ⟨rfl, rfl, ?_⟩
  simp only [Matrix.write_column, List.length_append, List.length_take, List.length_drop, hlength, hcolumn]
  omega

end Matrix

namespace StreamingDiff

variable {F : Type} {f : Float64 F}

/-- Between two pushes all of the new text is committed. -/
structure Valid (diff : StreamingDiff F) : Prop where
  old_text_ix : diff.old_text_ix ≤ diff.old.length
  new_text_ix : diff.new_text_ix = diff.new.length
  shaped : ∃ cols, 0 < cols ∧ diff.scores.Shaped (diff.old.length + 1) cols
  previous : diff.previous_equal_runs.length = diff.old.length + 1
  current : diff.current_equal_runs.length = diff.old.length + 1

theorem new_diff_valid (f : Float64 F) (old : List Char) :
    ∃ self, new_diff f old = some self ∧ self.Valid ∧ self.old = old ∧ self.new = [] ∧ self.old_text_ix = 0 := by
  have hnew := Matrix.resize_shaped f.zero ⟨[], 0, 0⟩ (old.length + 1) 1
  obtain ⟨scores, hscores, hshaped⟩ := foldlM_some
    (fun scores i => Matrix.set scores i 0 (f.mul (f.of_nat i) f.DELETION_SCORE)) (List.range (old.length + 1))
    (P := fun scores : Matrix F => scores.Shaped (old.length + 1) 1)
    (fun scores i hi h => h.set (List.mem_range.mp hi) Nat.one_pos _) hnew
  let self : StreamingDiff F :=
    { old
      new := []
      scores
      old_text_ix := 0
      new_text_ix := 0
      previous_equal_runs := List.replicate (old.length + 1) 0
      current_equal_runs := List.replicate (old.length + 1) 0 }
  have hself : new_diff f old = some self := by
    unfold new_diff
    dsimp only
    rw [hscores]
    rfl
  have hvalid : self.Valid :=
    ⟨Nat.zero_le _, rfl, ⟨1, Nat.one_pos, hshaped⟩, List.length_replicate, List.length_replicate⟩
  exact ⟨self, hself, hvalid, rfl, rfl, rfl⟩

theorem score_cell_some (f : Float64 F) {old : List Char} (new_char : Char) {previous_scores : List F}
    {previous_equal_runs : List Nat} {state : List F × List Nat} {i : Nat}
    (hscores : previous_scores.length = old.length + 1) (hruns : previous_equal_runs.length = old.length + 1)
    (hi : i ∈ List.range' 1 old.length)
    (h : state.1.length = old.length + 1 ∧ state.2.length = old.length + 1) :
    ∃ next, score_cell f old new_char previous_scores previous_equal_runs state i = some next ∧
      next.1.length = old.length + 1 ∧ next.2.length = old.length + 1 := by
  obtain ⟨current_scores, current_equal_runs⟩ := state
  obtain ⟨hcurrent, hequal⟩ := h
  obtain ⟨hpos, hle⟩ := List.mem_range'_1.mp hi
  obtain ⟨above, habove⟩ := get_of_lt previous_scores (i := i) (by omega)
  obtain ⟨left, hleft⟩ := get_of_lt current_scores (i := i - 1) (by simp only at hcurrent; omega)
  obtain ⟨corner, hcorner⟩ := get_of_lt previous_scores (i := i - 1) (by omega)
  obtain ⟨c, hc⟩ := get_of_lt old (i := i - 1) (by omega)
  obtain ⟨run, hrun⟩ := get_of_lt previous_equal_runs (i := i - 1) (by omega)
  have hsetRun := set_at_eq current_equal_runs (i := i) (by simp only at hequal; omega) (run + 1)
  have hset (score : F) := set_at_eq current_scores (i := i) (by simp only at hcurrent; omega) score
  unfold score_cell
  simp only [sub_eq hpos, habove, hleft, hc, hrun, hcorner, hsetRun, hset, Option.bind_eq_bind, Option.bind_some,
    Option.pure_def]
  by_cases heq : c = new_char
  · rw [if_pos heq]
    exact ⟨_, rfl, (List.length_set).trans hcurrent, (List.length_set).trans hequal⟩
  · rw [if_neg heq]
    exact ⟨_, rfl, (List.length_set).trans hcurrent, hequal⟩

/-- While a push computes its scores: columns for all of the new text that is not committed. -/
structure Scoring (diff before : StreamingDiff F) (cols : Nat) : Prop where
  old : diff.old = before.old
  new : diff.new = before.new
  old_text_ix : diff.old_text_ix = before.old_text_ix
  new_text_ix : diff.new_text_ix = before.new_text_ix
  shaped : diff.scores.Shaped (diff.old.length + 1) cols
  previous : diff.previous_equal_runs.length = diff.old.length + 1
  current : diff.current_equal_runs.length = diff.old.length + 1

theorem score_column_some (f : Float64 F) {self before : StreamingDiff F} {cols j : Nat}
    (h : Scoring self before cols) (hpos : self.new_text_ix < j) (hj : j ≤ self.new.length)
    (hcols : j - self.new_text_ix < cols) :
    ∃ next, self.score_column f j = some next ∧ Scoring next before cols := by
  obtain ⟨c, hc⟩ := get_of_lt self.new (i := j - 1) (by omega)
  obtain ⟨previous, current, hadjacent, hprevious, hcurrent⟩ :=
    h.shaped.adjacent_columns_mut (j - self.new_text_ix) (by omega) hcols
  have hset := set_at_eq current (i := 0) (by omega) (f.mul (f.of_nat j) f.INSERTION_SCORE)
  obtain ⟨⟨scores, runs⟩, hfold, hscores, hruns⟩ := foldlM_some
    (score_cell f self.old c previous self.previous_equal_runs) (List.range' 1 self.old.length)
    (P := fun state : List F × List Nat =>
      state.1.length = self.old.length + 1 ∧ state.2.length = self.old.length + 1)
    (fun state i hi hstate => score_cell_some f c hprevious h.previous hi hstate)
    (b := (current.set 0 (f.mul (f.of_nat j) f.INSERTION_SCORE), List.replicate self.current_equal_runs.length 0))
    ⟨by rw [List.length_set, hcurrent], by rw [List.length_replicate, h.current]⟩
  let next : StreamingDiff F :=
    { self with
      scores := self.scores.write_column (j - self.new_text_ix) scores
      previous_equal_runs := runs
      current_equal_runs := self.previous_equal_runs }
  have hnext : self.score_column f j = some next := by
    unfold score_column
    simp only [sub_eq (Nat.le_of_lt hpos), sub_eq (Nat.one_le_of_lt hpos), hc, hadjacent, hset, hfold,
      Option.bind_eq_bind, Option.bind_some, Option.pure_def]
    rfl
  exact ⟨next, hnext, h.old, h.new, h.old_text_ix, h.new_text_ix, h.shaped.write_column hcols hscores, hruns,
    h.previous⟩

theorem choose_some (f : Float64 F) {self : StreamingDiff F} {cols i : Nat} {best : F × Nat}
    (hshaped : self.scores.Shaped (self.old.length + 1) cols) (hnew : self.new_text_ix ≤ self.new.length)
    (hcols : self.new.length - self.new_text_ix < cols)
    (hi : i ∈ List.range' self.old_text_ix (self.old.length + 1 - self.old_text_ix))
    (hbest : self.old_text_ix ≤ best.2 ∧ best.2 ≤ self.old.length) :
    ∃ next, self.choose f best i = some next ∧ self.old_text_ix ≤ next.2 ∧ next.2 ≤ self.old.length := by
  obtain ⟨hfirst, hlast⟩ := List.mem_range'_1.mp hi
  obtain ⟨score, hscore⟩ := hshaped.get i (self.new.length - self.new_text_ix) (by omega) hcols
  obtain ⟨max_score, next_old_text_ix⟩ := best
  unfold choose
  simp only [sub_eq hnew, hscore, Option.bind_eq_bind, Option.bind_some, Option.pure_def]
  by_cases hlt : f.lt max_score score = true
  · rw [if_pos hlt]
    exact ⟨_, rfl, by omega, by omega⟩
  · rw [if_neg hlt]
    exact ⟨_, rfl, hbest⟩

end StreamingDiff

end zed.streaming_diff
