import Zed.ActionLog

namespace zed.action_log

open zed.rope zed.rope.Rope zed.text
open zed.text.Patch (slice Gap Spans)

def rowAt (text : Rope) (offset : Nat) : Nat := newlines (text.take offset)

section offsets

variable {text : Rope} {offset stop : Nat}

theorem offset_to_point_row (text : Rope) (offset : Nat) : (offset_to_point text offset).row = rowAt text offset := rfl

theorem closed_of_column (h : (offset_to_point text offset).column = 0) : Closed (text.take offset) := by
  have hle := row_start_le (text.take offset) (newlines (text.take offset))
  change (text.take offset).length - row_start (text.take offset) (newlines (text.take offset)) = 0 at h
  unfold Closed
  omega

theorem rowAt_mono (text : Rope) (h : offset ≤ stop) : rowAt text offset ≤ rowAt text stop := by
  have hsplit : text.take stop = text.take offset ++ (text.take stop).drop offset := by
    conv_lhs => rw [← List.take_append_drop offset (text.take stop), List.take_take, min_eq_left h]
  unfold rowAt
  rw [hsplit, newlines_append]
  exact Nat.le_add_right _ _

theorem rowAt_lt (h : offset < stop) (hstop : stop ≤ text.length) (hclosed : Closed (text.take stop)) :
    rowAt text offset < rowAt text stop := by
  have hsplit : text.take stop = text.take offset ++ (text.take stop).drop offset := by
    conv_lhs => rw [← List.take_append_drop offset (text.take stop), List.take_take, min_eq_left (Nat.le_of_lt h)]
  unfold rowAt
  rw [hsplit, newlines_append]
  by_contra hnone
  have hlen : (text.take stop).length = stop := by
    rw [List.length_take, min_eq_left hstop]
  unfold Closed at hclosed
  rw [hlen, hsplit, newlines_append, show newlines ((text.take stop).drop offset) = 0 by omega, Nat.add_zero,
    row_start_append_of_le (Nat.le_refl _)] at hclosed
  have hle := row_start_le (text.take offset) (newlines (text.take offset))
  rw [hclosed, List.length_take] at hle
  omega

theorem row_start_rowAt (hoffset : offset ≤ text.length) {rows : Nat} (h : rows = 0 → Closed (text.take offset)) :
    row_start text (rowAt text offset + rows) = offset + row_start (text.drop offset) rows := by
  have hlen : (text.take offset).length = offset := by
    rw [List.length_take, min_eq_left hoffset]
  conv_lhs => rw [← List.take_append_drop offset text]
  unfold rowAt
  rw [List.take_append_drop]
  cases rows with
  | zero =>
    have hclosed := (h rfl).row_start_append (text.drop offset) 0
    rwa [List.take_append_drop, hlen] at hclosed
  | succ rows =>
    have hnext := row_start_append_succ (text.take offset) (text.drop offset) rows
    rwa [List.take_append_drop, hlen] at hnext

theorem rowAt_le (text : Rope) (offset : Nat) : rowAt text offset ≤ newlines text := by
  have hsplit := newlines_append (text.take offset) (text.drop offset)
  rw [List.take_append_drop] at hsplit
  unfold rowAt
  omega

theorem row_start_of_rowAt (text : Rope) (offset : Nat) :
    row_start text (rowAt text offset) = row_start (text.take offset) (rowAt text offset) := by
  have happend := row_start_append_of_le (Nat.le_refl (newlines (text.take offset))) (text.drop offset)
  rwa [List.take_append_drop] at happend

theorem line_len_eq (hoffset : offset ≤ text.length) :
    row_start text (rowAt text offset) + line_len text (rowAt text offset) =
      if rowAt text offset < newlines text then offset + row_start (text.drop offset) 1 - 1 else text.length := by
  have hstart := row_start_of_rowAt text offset
  have hle := row_start_le (text.take offset) (rowAt text offset)
  rw [List.length_take, min_eq_left hoffset] at hle
  unfold line_len
  split
  · next hlt =>
    have hnext : row_start text (rowAt text offset + 1) = offset + row_start (text.drop offset) 1 :=
      row_start_rowAt hoffset (by simp)
    have hne : text.drop offset ≠ [] := fun hnil => by
      have hsplit := newlines_append (text.take offset) (text.drop offset)
      rw [List.take_append_drop, hnil] at hsplit
      unfold rowAt at hlt
      simp only [newlines, List.count_nil] at hsplit hlt
      omega
    obtain ⟨byte, rest, hcons⟩ := List.exists_cons_of_ne_nil hne
    rw [hcons, row_start] at hnext
    rw [hnext, hcons, row_start]
    omega
  · next hge =>
    have heq : rowAt text offset = newlines text := Nat.le_antisymm (rowAt_le text offset) (Nat.le_of_not_lt hge)
    change _ + (text.length - row_start text (newlines text)) = _
    rw [heq] at hstart hle ⊢
    omega

theorem offset_to_point_column (hoffset : offset ≤ text.length) :
    row_start text (rowAt text offset) + (offset_to_point text offset).column = offset := by
  have hle := row_start_le (text.take offset) (rowAt text offset)
  rw [row_start_of_rowAt]
  change _ + ((text.take offset).length - row_start (text.take offset) (rowAt text offset)) = offset
  rw [List.length_take, min_eq_left hoffset] at hle ⊢
  omega

theorem offset_to_point_length (text : Rope) : offset_to_point text text.length = max_point text := by
  rw [offset_to_point, List.take_length]

theorem offset_to_point_lt (h : offset < text.length) : offset_to_point text offset < max_point text := by
  have hcolumn := offset_to_point_column (Nat.le_of_lt h)
  have hmax := offset_to_point_column (Nat.le_refl text.length)
  rw [offset_to_point_length, rowAt, List.take_length] at hmax
  rw [Point.lt_def]
  rcases Nat.lt_or_eq_of_le (rowAt_le text offset) with hlt | heq
  · exact Or.inl hlt
  · rw [heq] at hcolumn
    exact Or.inr ⟨heq, by omega⟩

theorem exists_drop_cons (h : offset < text.length) : ∃ byte rest, text.drop offset = byte :: rest :=
  ⟨_, _, List.drop_eq_getElem_cons h⟩

theorem point_to_offset_to_point (hoffset : offset ≤ text.length) :
    point_to_offset text (offset_to_point text offset) = offset := by
  unfold point_to_offset
  split
  · next hmax =>
    rcases Nat.lt_or_eq_of_le hoffset with hlt | heq
    · exact absurd hmax (Point.not_le.mpr (offset_to_point_lt hlt))
    · exact heq.symm
  · next hmax =>
    have hlt : offset < text.length := by
      rcases Nat.lt_or_eq_of_le hoffset with hlt | heq
      · exact hlt
      · rw [heq, offset_to_point_length] at hmax
        exact absurd (Point.le_refl _) hmax
    have hcolumn := offset_to_point_column hoffset
    have hlen := line_len_eq hoffset
    obtain ⟨byte, rest, hcons⟩ := exists_drop_cons hlt
    rw [hcons, row_start] at hlen
    rw [offset_to_point_row, min_eq_left]
    · exact hcolumn
    · split at hlen <;> omega

theorem newline_at (hoffset : offset ≤ text.length)
    (hcolumn : (offset_to_point text offset).column = line_len text (offset_to_point text offset).row)
    (hne : offset_to_point text offset ≠ max_point text) : (text.drop offset).head? = some NEWLINE := by
  have hlt : offset < text.length := by
    rcases Nat.lt_or_eq_of_le hoffset with hlt | heq
    · exact hlt
    · rw [heq] at hne
      exact absurd (offset_to_point_length text) hne
  have hpoint := offset_to_point_column hoffset
  have hlen := line_len_eq hoffset
  rw [← offset_to_point_row, ← hcolumn, offset_to_point_row, hpoint] at hlen
  obtain ⟨byte, rest, hcons⟩ := exists_drop_cons hlt
  rw [hcons, row_start] at hlen
  rw [hcons, List.head?_cons]
  by_cases hbyte : byte = NEWLINE
  · rw [hbyte]
  · rw [if_neg hbyte] at hlen
    split at hlen
    · next hrow =>
      -- the row would end with the text
      have hrest : rest = [] := by
        cases rest with
        | nil => rfl
        | cons next rest =>
          rw [row_start] at hlen
          omega
      have hsplit := newlines_append (text.take offset) (text.drop offset)
      rw [List.take_append_drop, hcons, hrest, newlines_cons, if_neg hbyte] at hsplit
      change newlines text = rowAt text offset + (0 + 0) at hsplit
      omega
    · omega

end offsets

/-- Rows at which an edit of the bytes may end: those of its ends, when both
    start there, or the next ones. -/
def Ends (old new : Rope) (i j row row' : Nat) : Prop :=
  (row = rowAt old i ∧ row' = rowAt new j ∧ Closed (old.take i) ∧ Closed (new.take j)) ∨
    (row = rowAt old i + 1 ∧ row' = rowAt new j + 1)

/-- Rows at which an edit of the bytes may start: those of its starts, or the
    next ones where both rows end. -/
def Opens (old new : Rope) (i j row row' : Nat) : Prop :=
  (row = rowAt old i ∧ row' = rowAt new j) ∨
    (row = rowAt old i + 1 ∧ row' = rowAt new j + 1 ∧ (old.drop i).head? = some NEWLINE ∧ (new.drop j).head? = some NEWLINE)

section rows

variable {old new : Rope} {i j i' j' row row' next next' : Nat} {edit : Edit}

theorem rowAt_add (text : Rope) (h : i ≤ i') : rowAt text i' = rowAt text i + newlines (slice text i i') := by
  have hsplit : text.take i' = text.take i ++ slice text i i' := by
    unfold slice
    conv_lhs => rw [← List.take_append_drop i (text.take i'), List.take_take, min_eq_left h]
  unfold rowAt
  rw [hsplit, newlines_append]

theorem slice_add {text : Rope} (i from_offset to_offset : Nat) :
    slice text (i + from_offset) (i + to_offset) = slice (text.drop i) from_offset to_offset := by
  unfold slice
  rw [← List.drop_drop, List.drop_take, Nat.add_sub_cancel_left]

theorem slice_append_left {before : Rope} {stop : Nat} (hstop : stop ≤ before.length) (after : Rope) (start : Nat) :
    slice (before ++ after) start stop = slice before start stop := by
  unfold slice
  rw [List.take_append_of_le_length hstop]

/-- What two texts share between two edits, up to the rows that the second one starts at. -/
theorem Opens.shared (h : Opens old new i' j' next next') (hgap : Gap old new i j i' j') :
    ∃ shared before after, old.drop i = shared ++ before ∧ new.drop j = shared ++ after ∧
      next = rowAt old i + newlines shared ∧ next' = rowAt new j + newlines shared := by
  have hold := Patch.slice_append_drop old hgap.old_le
  have hnew := Patch.slice_append_drop new hgap.new_le
  have hrow := rowAt_add old hgap.old_le
  have hrow' := rowAt_add new hgap.new_le
  rw [← hgap.slice_eq] at hnew hrow'
  obtain ⟨hnext, hnext'⟩ | ⟨hnext, hnext', hhead, hhead'⟩ := h
  · exact ⟨_, _, _, hold.symm, hnew.symm, by rw [hnext, hrow], by rw [hnext', hrow']⟩
  · obtain ⟨before, hbefore⟩ : ∃ before, old.drop i' = NEWLINE :: before := List.head?_eq_some_iff.mp hhead
    obtain ⟨after, hafter⟩ : ∃ after, new.drop j' = NEWLINE :: after := List.head?_eq_some_iff.mp hhead'
    have hlines : newlines (slice old i i' ++ [NEWLINE]) = newlines (slice old i i') + 1 := newlines_append _ _
    refine ⟨slice old i i' ++ [NEWLINE], before, after, ?_, ?_, ?_, ?_⟩
    · rw [List.append_assoc, List.singleton_append, ← hbefore, hold]
    · rw [List.append_assoc, List.singleton_append, ← hafter, hnew]
    · omega
    · omega

theorem Ends.rows (h : Ends old new i j row row') :
    ∃ rows, row = rowAt old i + rows ∧ row' = rowAt new j + rows ∧
      (rows = 0 → Closed (old.take i) ∧ Closed (new.take j)) := by
  obtain ⟨hrow, hrow', hclosed⟩ | ⟨hrow, hrow'⟩ := h
  · exact ⟨0, hrow, hrow', fun _ => hclosed⟩
  · exact ⟨1, hrow, hrow', fun h => absurd h Nat.one_ne_zero⟩

/-- Both texts have the same rows between two edits. -/
theorem gap_rows (hi : i ≤ old.length) (hj : j ≤ new.length) (hends : Ends old new i j row row')
    (hopens : Opens old new i' j' next next') (hgap : Gap old new i j i' j') (hle : row ≤ next) :
    next' + row = row' + next ∧ (next ≤ newlines old ∧ next' ≤ newlines new) ∧
      row_slice old row next = row_slice new row' next' := by
  obtain ⟨shared, before, after, hold, hnew, hnext, hnext'⟩ := hopens.shared hgap
  obtain ⟨rows, hrow, hrow', hclosed⟩ := hends.rows
  have hrows : rows ≤ newlines shared := by omega
  have hboth : ∀ n ≤ newlines shared, (n = 0 → rows = 0) →
      row_start old (rowAt old i + n) = i + row_start shared n ∧
        row_start new (rowAt new j + n) = j + row_start shared n := fun n hn hzero => by
    rw [row_start_rowAt hi fun h => (hclosed (hzero h)).1, row_start_rowAt hj fun h => (hclosed (hzero h)).2, hold, hnew,
      row_start_append_of_le hn, row_start_append_of_le hn]
    exact ⟨rfl, rfl⟩
  obtain ⟨hstart, hstart'⟩ := hboth rows hrows id
  obtain ⟨hstop, hstop'⟩ := hboth (newlines shared) (Nat.le_refl _) (by omega)
  have hlines : ∀ (text : Rope) (offset : Nat), newlines text = rowAt text offset + newlines (text.drop offset) :=
    fun text offset => by
      rw [rowAt, ← newlines_append, List.take_append_drop]
  have hlinesOld := hlines old i
  have hlinesNew := hlines new j
  rw [hold, newlines_append] at hlinesOld
  rw [hnew, newlines_append] at hlinesNew
  refine ⟨by omega, by omega, ?_⟩
  rw [row_slice, row_slice, hrow, hrow', hnext, hnext', hstart, hstart', hstop, hstop', slice_add, slice_add, hold, hnew,
    slice_append_left (row_start_le _ _), slice_append_left (row_start_le _ _)]

theorem tail_rows (hi : i ≤ old.length) (hj : j ≤ new.length) (hends : Ends old new i j row row')
    (hrest : old.drop i = new.drop j) : old.drop (row_start old row) = new.drop (row_start new row') := by
  obtain ⟨rows, rfl, rfl, hclosed⟩ := hends.rows
  rw [row_start_rowAt hi fun h => (hclosed h).1, row_start_rowAt hj fun h => (hclosed h).2, ← List.drop_drop,
    ← List.drop_drop, hrest]

def rowEdit (old new : Rope) (edit : Edit) : Edit := point_to_row_edit (PointEdit.of_bytes old new edit) old new

theorem rowEdit_spec (old new : Rope) (hold : edit.old.start ≤ edit.old.stop ∧ edit.old.stop ≤ old.length)
    (hnew : edit.new.start ≤ edit.new.stop ∧ edit.new.stop ≤ new.length) :
    let rows := rowEdit old new edit
    Opens old new edit.old.start edit.new.start rows.old.start rows.new.start ∧
      Ends old new edit.old.stop edit.new.stop rows.old.stop rows.new.stop ∧
      rows.old.start ≤ rows.old.stop ∧ rows.new.start ≤ rows.new.stop := by
  have hstart := rowAt_mono old hold.1
  have hstart' := rowAt_mono new hnew.1
  intro rows
  have hpoint := point_to_offset_to_point (Nat.le_trans hnew.1 hnew.2)
  by_cases hline : (offset_to_point old edit.old.start).column = line_len old (offset_to_point old edit.old.start).row ∧
      (new.drop (point_to_offset new (offset_to_point new edit.new.start))).head? = some NEWLINE ∧
      offset_to_point old edit.old.start ≠ max_point old
  · have hrows : rows = ⟨⟨rowAt old edit.old.start + 1, rowAt old edit.old.stop + 1⟩,
        ⟨rowAt new edit.new.start + 1, rowAt new edit.new.stop + 1⟩⟩ := if_pos hline
    obtain ⟨hcolumn, hhead, hne⟩ := hline
    rw [hpoint] at hhead
    rw [hrows]
    exact ⟨Or.inr ⟨rfl, rfl, newline_at (Nat.le_trans hold.1 hold.2) hcolumn hne, hhead⟩, Or.inr ⟨rfl, rfl⟩,
      Nat.succ_le_succ hstart, Nat.succ_le_succ hstart'⟩
  · by_cases hcolumns : (offset_to_point old edit.old.start).column = 0 ∧ (offset_to_point old edit.old.stop).column = 0 ∧
        (offset_to_point new edit.new.stop).column = 0
    · have hrows : rows = ⟨⟨rowAt old edit.old.start, rowAt old edit.old.stop⟩,
          ⟨rowAt new edit.new.start, rowAt new edit.new.stop⟩⟩ := (if_neg hline).trans (if_pos hcolumns)
      rw [hrows]
      exact ⟨Or.inl ⟨rfl, rfl⟩, Or.inl ⟨rfl, rfl, closed_of_column hcolumns.2.1, closed_of_column hcolumns.2.2⟩, hstart,
        hstart'⟩
    · have hrows : rows = ⟨⟨rowAt old edit.old.start, rowAt old edit.old.stop + 1⟩,
          ⟨rowAt new edit.new.start, rowAt new edit.new.stop + 1⟩⟩ := (if_neg hline).trans (if_neg hcolumns)
      rw [hrows]
      exact ⟨Or.inl ⟨rfl, rfl⟩, Or.inr ⟨rfl, rfl⟩, Nat.le_succ_of_le hstart, Nat.le_succ_of_le hstart'⟩

/-- An edit that starts later ends at no earlier rows. -/
theorem Ends.le (hi : i ≤ i') (hold : i' ≤ old.length) (hlt : i < i') (hnew : j' ≤ new.length) (hlt' : j < j')
    (h : Ends old new i j row row') (h' : Ends old new i' j' next next') : row ≤ next ∧ row' ≤ next' := by
  have hmono := rowAt_mono old hi
  have hmono' := rowAt_mono new (Nat.le_of_lt hlt')
  obtain ⟨hnext, hnext', hclosed, hclosed'⟩ | ⟨hnext, hnext'⟩ := h'
  · have := rowAt_lt hlt hold hclosed
    have := rowAt_lt hlt' hnew hclosed'
    rcases h with ⟨hrow, hrow', -⟩ | ⟨hrow, hrow'⟩ <;> omega
  · rcases h with ⟨hrow, hrow', -⟩ | ⟨hrow, hrow'⟩ <;> omega

/-- Row edits in order that lead from a pair of rows to the ends of the texts. -/
structure Sorted (old new : Rope) (rows : List Edit) : Prop where
  ordered : ∀ edit ∈ rows, edit.old.start ≤ edit.old.stop ∧ edit.new.start ≤ edit.new.stop
  separate : rows.Pairwise fun x y => x.old.stop < y.old.start ∧ x.new.stop < y.new.start

theorem merge_row_edits_spec {edits : List Edit} (hi : i ≤ old.length) (hj : j ≤ new.length)
    (hspans : Spans old new i j edits old.length new.length)
    (hbounds : ∀ edit ∈ edits, edit.old.stop ≤ old.length ∧ edit.new.stop ≤ new.length)
    (hlater : ∀ edit ∈ edits, i < edit.old.start) (hseparate : Patch.Separate edits)
    (hends : Ends old new i j edit.old.stop edit.new.stop)
    (hordered : edit.old.start ≤ edit.old.stop ∧ edit.new.start ≤ edit.new.stop) :
    ∃ stop stop' rest, merge_row_edits edit (edits.map (rowEdit old new)) =
        ⟨⟨edit.old.start, stop⟩, ⟨edit.new.start, stop'⟩⟩ :: rest ∧
      edit.old.stop ≤ stop ∧ edit.new.stop ≤ stop' ∧ Aligned old new stop stop' rest ∧
      Sorted old new (⟨⟨edit.old.start, stop⟩, ⟨edit.new.start, stop'⟩⟩ :: rest) := by
  induction edits generalizing i j edit with
  | nil =>
    refine ⟨_, _, [], rfl, Nat.le_refl _, Nat.le_refl _, tail_rows hi hj hends ?_, ⟨by simpa using hordered, by simp⟩⟩
    have hgap := Gap.slice_eq hspans
    rwa [slice, slice, List.take_length, List.take_length] at hgap
  | cons first edits ih =>
    obtain ⟨hgap, hold, hnew, hrest⟩ := hspans
    obtain ⟨hstop, hstop'⟩ := hbounds first List.mem_cons_self
    have hlt := hlater first List.mem_cons_self
    have hshift := hgap.shift
    obtain ⟨hfirst, htail⟩ := List.pairwise_cons.mp hseparate
    obtain ⟨hopens, hends', hrows, hrows'⟩ := rowEdit_spec old new ⟨hold, hstop⟩ ⟨hnew, hstop'⟩
    have hih := fun edit : Edit => @ih first.old.stop first.new.stop edit hstop hstop' hrest
      (fun x hx => hbounds x (List.mem_cons_of_mem _ hx)) hfirst htail
    rw [List.map_cons, merge_row_edits]
    by_cases hmerge : edit.old.stop ≥ (rowEdit old new first).old.start
    · rw [if_pos hmerge]
      obtain ⟨hle, hle'⟩ := hends.le (by omega) hstop (by omega) hstop' (by omega) hends'
      obtain ⟨stop, stop', rest, heq, hge, hge', haligned, hsorted⟩ := hih
        ⟨⟨edit.old.start, (rowEdit old new first).old.stop⟩, ⟨edit.new.start, (rowEdit old new first).new.stop⟩⟩ hends'
        ⟨Nat.le_trans hordered.1 hle, Nat.le_trans hordered.2 hle'⟩
      exact ⟨stop, stop', rest, heq, Nat.le_trans hle hge, Nat.le_trans hle' hge', haligned, hsorted⟩
    · rw [if_neg hmerge]
      obtain ⟨stop, stop', rest, heq, hge, hge', haligned, hsorted⟩ := hih _ hends' ⟨hrows, hrows'⟩
      obtain ⟨hshiftRows, hwithin, hsame⟩ := gap_rows hi hj hends hopens hgap (by omega)
      have hwidth := hsorted.ordered _ List.mem_cons_self
      refine ⟨edit.old.stop, edit.new.stop,
        ⟨⟨(rowEdit old new first).old.start, stop⟩, ⟨(rowEdit old new first).new.start, stop'⟩⟩ :: rest, by rw [heq],
        Nat.le_refl _, Nat.le_refl _, ⟨⟨Nat.le_of_not_le hmerge, hshiftRows⟩, hwithin, hsame, hwidth, haligned⟩, ?_⟩
      refine ⟨fun x hx => ?_, List.pairwise_cons.mpr ⟨fun x hx => ?_, hsorted.separate⟩⟩
      · obtain rfl | hx := List.mem_cons.mp hx
        · exact hordered
        · exact hsorted.ordered x hx
      · have hhead : edit.old.stop < (rowEdit old new first).old.start ∧ edit.new.stop < (rowEdit old new first).new.start := by
          omega
        obtain rfl | hx := List.mem_cons.mp hx
        · exact hhead
        · have hbefore := List.rel_of_pairwise_cons hsorted.separate hx
          exact ⟨hhead.1.trans (hwidth.1.trans_lt hbefore.1), hhead.2.trans (hwidth.2.trans_lt hbefore.2)⟩

theorem row_edits_rewrites {edits : Patch} (h : edits.Takes old new) : Rewrites (row_edits old new edits) old new := by
  have hspans := h.spans
  unfold row_edits
  cases edits with
  | nil =>
    have hsame : Aligned old new 0 0 [] := by
      have hgap := Gap.slice_eq hspans
      rw [slice, slice, List.take_length, List.take_length] at hgap
      simpa [Aligned] using hgap
    exact hsame.rewrites (by simp) (by simp)
  | cons first edits =>
    obtain ⟨hgap, hold, hnew, hrest⟩ := hspans
    obtain ⟨hstop, hstop'⟩ := h.bounded first List.mem_cons_self
    obtain ⟨hfirst, htail⟩ := List.pairwise_cons.mp h.separate
    obtain ⟨hopens, hends, hrows, hrows'⟩ := rowEdit_spec old new ⟨hold, hstop⟩ ⟨hnew, hstop'⟩
    obtain ⟨stop, stop', rest, heq, hge, hge', haligned, hsorted⟩ := merge_row_edits_spec hstop hstop' hrest
      (fun x hx => h.bounded x (List.mem_cons_of_mem _ hx)) hfirst htail hends ⟨hrows, hrows'⟩
    obtain ⟨hshift, hwithin, hsame⟩ := gap_rows (Nat.zero_le _) (Nat.zero_le _) (Or.inl ⟨rfl, rfl, closed_nil, closed_nil⟩)
      hopens hgap (Nat.zero_le _)
    change Rewrites (merge_row_edits (rowEdit old new first) (edits.map (rowEdit old new))) old new
    rw [heq]
    have hfull : Aligned old new 0 0
        (⟨⟨(rowEdit old new first).old.start, stop⟩, ⟨(rowEdit old new first).new.start, stop'⟩⟩ :: rest) :=
      ⟨⟨Nat.zero_le _, hshift⟩, hwithin, hsame, hsorted.ordered _ List.mem_cons_self, haligned⟩
    exact hfull.rewrites hsorted.ordered hsorted.separate

end rows

end zed.action_log
