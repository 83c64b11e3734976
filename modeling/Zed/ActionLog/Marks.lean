import Zed.ActionLog.Rebase

namespace zed.action_log

open zed.rope zed.rope.Rope zed.text
open zed.text.Patch (slice apply_from Consistent WellFormed)

theorem row_bytes_eq (text : Rope) (rows : Range) :
    row_bytes text rows = ⟨row_start text rows.start, row_start text rows.stop⟩ := by
  rw [row_bytes, point_to_offset_row, min_max_point]

theorem replace_rows_eq (old_text new_text : Rope) (old new : Range) :
    replace_rows old_text new_text old new =
      old_text.take (row_start old_text old.start) ++ row_slice new_text new.start new.stop ++
        old_text.drop (row_start old_text old.stop) := by
  rw [replace_rows, row_bytes_eq, row_bytes_eq]
  rfl

theorem replace_rows_append {done base : Rope} (hdone : Closed done) (new_text : Rope) {row start stop : Nat}
    (hstart : row ≤ start) (hstop : start ≤ stop) (new : Range) :
    replace_rows (done ++ base.drop (row_start base row)) new_text
        ⟨newlines done + (start - row), newlines done + (stop - row)⟩ new =
      (done ++ row_slice base row start ++ row_slice new_text new.start new.stop) ++
        base.drop (row_start base stop) := by
  rw [replace_rows_eq, hdone.row_start_append, hdone.row_start_append, List.take_length_add_append,
    List.drop_length_add_append, ← row_slice_eq_take hstart, List.drop_drop, ← row_start_add,
    Nat.add_sub_cancel' (Nat.le_trans hstart hstop)]

/-- Replacing one row range after the other is replacing all of them at once. -/
theorem replay_eq {base new_text : Rope} {edits : List Edit}
    (hsorted : edits.Pairwise fun x y => x.old.stop ≤ y.old.start)
    (hordered : ∀ edit ∈ edits, edit.old.start ≤ edit.old.stop ∧ edit.new.start ≤ edit.new.stop)
    (hinner : edits.Pairwise fun x _ => x.old.start ≤ newlines base ∧ x.new.stop ≤ newlines new_text)
    {done : Rope} {row : Nat} {applied_delta : Int} (hrow : ∀ edit ∈ edits, row ≤ edit.old.start)
    (hdone : edits ≠ [] → Closed done ∧ (newlines done : Int) = row + applied_delta) :
    replay new_text (done ++ base.drop (row_start base row)) applied_delta edits =
      done ++ apply_from base new_text (row_start base row) (edits.map (byte_edit base new_text)) := by
  induction edits generalizing done row applied_delta with
  | nil => rfl
  | cons edit edits ih =>
    obtain ⟨hclosed, hlines⟩ := hdone (List.cons_ne_nil _ _)
    obtain ⟨hfirst, htail⟩ := List.pairwise_cons.mp hsorted
    obtain ⟨hwithin, hinner⟩ := List.pairwise_cons.mp hinner
    obtain ⟨hold, hnew⟩ := hordered edit List.mem_cons_self
    have hstart := hrow edit List.mem_cons_self
    have hrange : (⟨(edit.old.start + applied_delta).toNat, (edit.old.stop + applied_delta).toNat⟩ : Range) =
        ⟨newlines done + (edit.old.start - row), newlines done + (edit.old.stop - row)⟩ := by
      rw [Range.mk.injEq]
      omega
    rw [replay, hrange, replace_rows_append hclosed new_text hstart hold,
      ih htail (fun x hx => hordered x (List.mem_cons_of_mem _ hx)) hinner hfirst, List.map_cons, apply_from,
      List.append_assoc, List.append_assoc, List.append_assoc]
    · rfl
    · intro hne
      obtain ⟨next, hnext⟩ := List.exists_mem_of_ne_nil edits hne
      obtain ⟨hbase, hend⟩ := hwithin next hnext
      obtain ⟨hgap, hgapLines⟩ := row_slice_closed hstart hbase
      obtain ⟨hrows, hrowLines⟩ := row_slice_closed hnew hend
      refine ⟨(hclosed.append hgap).append hrows, ?_⟩
      rw [newlines_append, newlines_append, hgapLines, hrowLines]
      unfold Edit.delta Edit.old_len Edit.new_len
      omega

/-- Rows of the old text that precede its last one come from rows of the base text. -/
theorem Aligned.base_row {base old : Rope} {row row' x : Nat} {before after : List Edit}
    (h : Aligned base old row row' (before ++ after)) (hbefore : ∀ edit ∈ before, edit.new.stop ≤ x)
    (hafter : ∀ edit ∈ after, x ≤ edit.new.start) (hrow : row' ≤ x) (hx : x < newlines old) :
    (x : Int) + row - row' - deltas before ≤ newlines base := by
  induction before generalizing row row' with
  | nil =>
    rw [List.nil_append] at h
    simp only [deltas, List.map_nil, List.sum_nil]
    cases after with
    | nil =>
      have hold : newlines (base.drop (row_start base row)) = newlines old - row' := by
        rw [show base.drop (row_start base row) = _ from h, newlines_drop (by omega)]
      by_cases hle : row ≤ newlines base
      · rw [newlines_drop hle] at hold
        omega
      · rw [drop_row_of_gt (by omega)] at hold
        simp only [newlines, List.count_nil] at hold
        unfold newlines at hx
        omega
    | cons edit after =>
      obtain ⟨⟨hle, hshift⟩, ⟨hstart, -⟩, -⟩ := h
      have := hafter edit List.mem_cons_self
      omega
  | cons edit before ih =>
    rw [List.cons_append] at h
    obtain ⟨⟨hle, hshift⟩, -, -, ⟨hold, hnew⟩, hrest⟩ := h
    have hrest := ih hrest (fun y hy => hbefore y (List.mem_cons_of_mem _ hy)) (hbefore edit List.mem_cons_self)
    simp only [deltas, List.map_cons, List.sum_cons, Edit.delta, Edit.old_len, Edit.new_len] at hrest ⊢
    omega

section exact

variable {patch edits : Patch} {base old new : Rope}

theorem Rewrites.apart_new (h : Rewrites patch base old) : Apart Edit.new patch :=
  ⟨fun edit hedit => (h.wellFormed.ordered edit hedit).2, h.wellFormed.separate.imp And.right⟩

theorem Rewrites.apart_old (h : Rewrites patch base old) : Apart Edit.old patch :=
  ⟨fun edit hedit => (h.wellFormed.ordered edit hedit).1, h.wellFormed.separate.imp And.left⟩

/-- All of the rebased edits but the last lie within the texts. -/
theorem rebased_inner (hpatch : Rewrites patch base old) (hedits : Rewrites edits old new) :
    (rebased patch edits).Pairwise fun x _ => x.old.start ≤ newlines base ∧ x.new.stop ≤ newlines new := by
  unfold rebased
  rw [List.pairwise_map, List.pairwise_filter]
  refine List.Pairwise.imp_of_mem (fun {x y} hx hy hboth => ?_)
    ((hedits.aligned.stops hedits.wellFormed.separate).and hedits.wellFormed.separate)
  obtain ⟨⟨-, hend⟩, hlt, -⟩ := hboth
  intro hfree _
  have hordered := (hedits.wellFormed.ordered x hx).1
  obtain ⟨before, after, hbetween⟩ := between_of_not_conflicts hpatch.apart_new hordered (of_decide_eq_true hfree)
  obtain ⟨hstart, -⟩ := hbetween.rebase_old hpatch.apart_new
  have haligned := hpatch.aligned
  rw [hbetween.split] at haligned
  have hstarts := hedits.starts y hy
  have hbase := haligned.base_row (x := x.old.start) (fun p hp => (hbetween.before p hp).le)
    (fun p hp => Nat.le_trans hordered (hbetween.after p hp).le) (Nat.zero_le _) (by omega)
  exact ⟨by omega, hend⟩

theorem rebased_ordered (hpatch : Rewrites patch base old) (hedits : Rewrites edits old new) :
    ∀ edit ∈ rebased patch edits, edit.old.start ≤ edit.old.stop ∧ edit.new.start ≤ edit.new.stop := by
  intro edit hedit
  obtain ⟨x, hx, rfl⟩ := List.mem_map.mp hedit
  obtain ⟨hx, hfree⟩ := List.mem_filter.mp hx
  obtain ⟨hordered, hnew⟩ := hedits.wellFormed.ordered x hx
  obtain ⟨before, after, hbetween⟩ := between_of_not_conflicts hpatch.apart_new hordered (of_decide_eq_true hfree)
  obtain ⟨hstart, hstop⟩ := hbetween.rebase_old hpatch.apart_new
  exact ⟨by omega, hnew⟩

theorem apply_non_conflicting_edits_eq (hpatch : Rewrites patch base old) (hedits : Rewrites edits old new) :
    apply_non_conflicting_edits patch edits base new =
      (apply_from base new 0 ((rebased patch edits).map (byte_edit base new)), !(rebased patch edits).isEmpty) := by
  have hreplay := @replay_eq base new _ (rebased_sorted hpatch.apart_new hedits.apart_old)
    (rebased_ordered hpatch hedits) (rebased_inner hpatch hedits) [] 0 0 (fun _ _ => Nat.zero_le _)
    (fun _ => ⟨closed_nil, rfl⟩)
  rw [row_start_zero, List.drop_zero, List.nil_append, List.nil_append] at hreplay
  have happly : apply_edits new patch edits base 0 0 false =
      (replay new base 0 (rebased patch edits), false || !(rebased patch edits).isEmpty) :=
    apply_edits_eq hpatch.apart_new new base false hedits.apart_old
      (fun edit hedit => (hedits.wellFormed.ordered edit hedit).2) (fun edit _ => by omega) ⟨[], rfl, rfl, by simp⟩
  rw [apply_non_conflicting_edits, happly, hreplay, Bool.false_or]

end exact

end zed.action_log

namespace zed.action_log

open zed.rope zed.rope.Rope zed.text
open zed.text.Patch (slice apply_from Consistent WellFormed)

/-- The bytes of a text, each with what is said of its row. -/
def mark (owned : Nat → Bool) : Nat → Rope → List (UInt8 × Bool)
  | _, [] => []
  | row, byte :: text => (byte, owned row) :: mark owned (if byte = NEWLINE then row + 1 else row) text

/-- The bytes of rows that nobody owns. -/
def unowned (marked : List (UInt8 × Bool)) : Rope := (marked.filter fun x => !x.2).map Prod.fst

def markedRows (owned : Nat → Bool) (text : Rope) (row stop : Nat) : List (UInt8 × Bool) :=
  mark owned row (row_slice text row stop)

theorem apply_from_map {α β : Type} (f : α → β) (old new : List α) (pos : Nat) (patch : Patch) :
    (apply_from old new pos patch).map f = apply_from (old.map f) (new.map f) pos patch := by
  induction patch generalizing pos with
  | nil => rw [apply_from, apply_from, List.map_drop]
  | cons edit edits ih =>
    rw [apply_from, apply_from, List.map_append, List.map_append, ih]
    simp only [slice, List.map_drop, List.map_take]

theorem apply_from_skip {β : Type} (old new : List β) {pos pos' : Nat} (h : pos ≤ pos') {patch : Patch}
    (hfirst : ∀ edit ∈ patch, pos' ≤ edit.old.start) :
    apply_from old new pos patch = slice old pos pos' ++ apply_from old new pos' patch := by
  cases patch with
  | nil => exact (Patch.slice_append_drop old h).symm
  | cons edit edits =>
    have hle := hfirst edit List.mem_cons_self
    have hcut : slice old pos edit.old.start = slice old pos pos' ++ slice old pos' edit.old.start := by
      have hfull := Patch.slice_append_drop old (Nat.le_trans h hle)
      rw [← Patch.slice_append_drop old h, ← Patch.slice_append_drop old hle, ← List.append_assoc] at hfull
      exact List.append_cancel_right hfull
    rw [apply_from, apply_from, hcut, List.append_assoc, List.append_assoc, List.append_assoc]

section marks

variable {owned owned' : Nat → Bool} {text : Rope} {row row' stop : Nat}

theorem mark_fst (owned : Nat → Bool) (row : Nat) (text : Rope) : (mark owned row text).map Prod.fst = text := by
  induction text generalizing row with
  | nil => rfl
  | cons byte text ih => rw [mark, List.map_cons, ih]

theorem mark_length (owned : Nat → Bool) (row : Nat) (text : Rope) : (mark owned row text).length = text.length := by
  rw [← List.length_map (f := Prod.fst), mark_fst]

theorem mark_append (owned : Nat → Bool) (row : Nat) (before after : Rope) :
    mark owned row (before ++ after) = mark owned row before ++ mark owned (row + newlines before) after := by
  induction before generalizing row with
  | nil => rfl
  | cons byte before ih =>
    rw [List.cons_append, mark, mark, ih, List.cons_append, newlines_cons]
    by_cases hbyte : byte = NEWLINE
    · rw [if_pos hbyte, if_pos hbyte, Nat.add_assoc, Nat.add_comm 1]
    · rw [if_neg hbyte, if_neg hbyte, Nat.add_zero]

theorem mark_take (owned : Nat → Bool) (row : Nat) (text : Rope) (n : Nat) :
    (mark owned row text).take n = mark owned row (text.take n) := by
  by_cases hn : n ≤ text.length
  · conv_lhs => rw [← List.take_append_drop n text, mark_append]
    rw [List.take_left']
    rw [mark_length, List.length_take, min_eq_left hn]
  · rw [List.take_of_length_le (by rw [mark_length]; omega), List.take_of_length_le (by omega)]

theorem mark_drop (owned : Nat → Bool) (row : Nat) (text : Rope) (n : Nat) :
    (mark owned row text).drop n = mark owned (row + newlines (text.take n)) (text.drop n) := by
  by_cases hn : n ≤ text.length
  · conv_lhs => rw [← List.take_append_drop n text, mark_append]
    rw [List.drop_left']
    rw [mark_length, List.length_take, min_eq_left hn]
  · rw [List.drop_eq_nil_of_le (by rw [mark_length]; omega), show text.drop n = [] from List.drop_eq_nil_of_le (by omega), mark]

theorem unowned_append (before after : List (UInt8 × Bool)) :
    unowned (before ++ after) = unowned before ++ unowned after := by
  unfold unowned
  rw [List.filter_append, List.map_append]

theorem mark_congr {rows : Nat} (hrows : row_start text rows = text.length)
    (h : ∀ n < rows, owned (row + n) = owned' (row' + n)) : mark owned row text = mark owned' row' text := by
  induction text generalizing row row' rows with
  | nil => rfl
  | cons byte text ih =>
    cases rows with
    | zero =>
      rw [row_start_zero, List.length_cons] at hrows
      omega
    | succ rows =>
      rw [row_start, List.length_cons, Nat.add_right_cancel_iff] at hrows
      have hfirst := h 0 (Nat.succ_pos _)
      rw [Nat.add_zero, Nat.add_zero] at hfirst
      rw [mark, mark, hfirst]
      by_cases hbyte : byte = NEWLINE
      · rw [if_pos hbyte] at hrows
        rw [if_pos hbyte, if_pos hbyte, ih hrows fun n hn => ?_]
        rw [Nat.add_right_comm, Nat.add_assoc, Nat.add_right_comm, Nat.add_assoc]
        exact h (n + 1) (Nat.succ_lt_succ hn)
      · rw [if_neg hbyte] at hrows
        rw [if_neg hbyte, if_neg hbyte, ih hrows h]

theorem unowned_mark_of_owned (row : Nat) (text : Rope) : unowned (mark (fun _ => true) row text) = [] := by
  induction text generalizing row with
  | nil => rfl
  | cons byte text ih => exact ih _

theorem row_start_row_slice (h : row ≤ stop) : row_start (row_slice text row stop) (stop - row) = (row_slice text row stop).length := by
  rw [row_slice_eq_take h]
  by_cases hrows : stop - row ≤ newlines (text.drop (row_start text row))
  · rw [row_start_take hrows, List.length_take, min_eq_left (row_start_le _ _)]
  · rw [@row_start_of_gt (text.drop (row_start text row)) _ (by omega), List.take_length, row_start_of_gt (by omega)]

theorem markedRows_congr {text' : Rope} (h : row ≤ stop) (htext : row_slice text row stop = text')
    (howned : ∀ n < stop - row, owned (row + n) = owned' (row' + n)) :
    markedRows owned text row stop = mark owned' row' text' := by
  rw [markedRows, ← htext]
  exact mark_congr (row_start_row_slice h) howned

theorem unowned_markedRows (h : row ≤ stop) (howned : ∀ n, row ≤ n → n < stop → owned n = true) :
    unowned (markedRows owned text row stop) = [] := by
  have hcongr : markedRows owned text row stop = mark (fun _ => true) row (row_slice text row stop) :=
    markedRows_congr h rfl fun n hn => howned _ (by omega) (by omega)
  rw [hcongr]
  exact unowned_mark_of_owned _ _

theorem drop_mark (owned : Nat → Bool) (text : Rope) (row : Nat) :
    (mark owned 0 text).drop (row_start text row) = mark owned row (text.drop (row_start text row)) := by
  by_cases h : row ≤ newlines text
  · rw [mark_drop, newlines_take h, Nat.zero_add]
  · rw [drop_row_of_gt (by omega), row_start_of_gt (by omega), mark]
    exact List.drop_eq_nil_of_le (by rw [mark_length])

theorem slice_mark (owned : Nat → Bool) (text : Rope) (h : row ≤ stop) :
    slice (mark owned 0 text) (row_start text row) (row_start text stop) = markedRows owned text row stop := by
  obtain ⟨rows, rfl⟩ := Nat.exists_eq_add_of_le h
  rw [slice, row_start_add, List.drop_take, Nat.add_sub_cancel_left, drop_mark, mark_take, markedRows,
    row_slice_eq_take (Nat.le_add_right _ _), Nat.add_sub_cancel_left]

theorem markedRows_append_drop (owned : Nat → Bool) (text : Rope) (h : row ≤ stop) :
    markedRows owned text row stop ++ mark owned stop (text.drop (row_start text stop)) =
      mark owned row (text.drop (row_start text row)) := by
  rw [← slice_mark owned text h, ← drop_mark, ← drop_mark]
  exact Patch.slice_append_drop _ (row_start_mono h)

theorem markedRows_append {end_row : Nat} (owned : Nat → Bool) (text : Rope) (h : row ≤ stop) (h' : stop ≤ end_row) :
    markedRows owned text row stop ++ markedRows owned text stop end_row = markedRows owned text row end_row := by
  have hfull := markedRows_append_drop owned text (Nat.le_trans h h')
  rw [← markedRows_append_drop owned text h, ← markedRows_append_drop owned text h', ← List.append_assoc] at hfull
  exact (List.append_cancel_right hfull).symm

/-- A row range that reaches past the last row. -/
theorem markedRows_of_gt (owned : Nat → Bool) (h : row ≤ stop) (hstop : newlines text < stop) :
    markedRows owned text row stop = mark owned row (text.drop (row_start text row)) := by
  rw [← markedRows_append_drop owned text h, drop_row_of_gt hstop, mark, List.append_nil]

end marks

end zed.action_log
