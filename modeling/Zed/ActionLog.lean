import Zed.Rope.Rows
import Zed.Text.Network.Earlier

namespace zed.text

namespace Range

def is_empty (self : Range) : Bool := decide (¬ self.start < self.stop)

def overlaps (self other : Range) : Bool := decide (self.start < other.stop) && decide (other.start < self.stop)

end Range

/-- What an edit adds to the positions after it. -/
def Edit.delta (edit : Edit) : Int := (edit.new_len : Int) - edit.old_len

end zed.text

namespace zed.action_log

open zed.rope zed.rope.Rope zed.text

/-- The user's edit is before the agent's edit. -/
def EndsBefore (new_edit old_edit : Edit) : Prop :=
  new_edit.old.stop < old_edit.new.start ∨ (old_edit.new.is_empty = false ∧ new_edit.old.stop = old_edit.new.start)

/-- The user's edit is after the agent's edit. -/
def StartsAfter (new_edit old_edit : Edit) : Prop :=
  new_edit.old.start > old_edit.new.stop ∨ (old_edit.new.is_empty = false ∧ new_edit.old.start = old_edit.new.stop)

instance (new_edit old_edit : Edit) : Decidable (EndsBefore new_edit old_edit) :=
  inferInstanceAs (Decidable (_ ∨ _))

instance (new_edit old_edit : Edit) : Decidable (StartsAfter new_edit old_edit) :=
  inferInstanceAs (Decidable (_ ∨ _))

/-- The variables that the inner loop of `apply_non_conflicting_edits` leaves. -/
structure PushOld where
  old_edits : List Edit
  new_edits : List Edit
  new_edit : Edit
  conflict : Bool
  rebased_delta : Int

/-- Push all the old edits that are before this new edit or that intersect with it. -/
def push_old_edits (old_edits new_edits : List Edit) (new_edit : Edit) (conflict : Bool) (rebased_delta : Int) : PushOld :=
  match old_edits, new_edits with
  | [], new_edits => ⟨[], new_edits, new_edit, conflict, rebased_delta⟩
  | old_edit :: old_edits, new_edits =>
    if EndsBefore new_edit old_edit then ⟨old_edit :: old_edits, new_edits, new_edit, conflict, rebased_delta⟩
    else if StartsAfter new_edit old_edit then
      push_old_edits old_edits new_edits new_edit conflict (rebased_delta + old_edit.delta)
    else
      match new_edits with
      | [] => push_old_edits old_edits [] new_edit true (rebased_delta + old_edit.delta)
      | next_edit :: rest =>
        if next_edit.old.overlaps old_edit.new then
          push_old_edits (old_edit :: old_edits) rest next_edit true rebased_delta
        else push_old_edits old_edits (next_edit :: rest) new_edit true (rebased_delta + old_edit.delta)
termination_by old_edits.length + new_edits.length

def row_bytes (text : Rope) (rows : Range) : Range where
  start := point_to_offset text ⟨rows.start, 0⟩
  stop := point_to_offset text
    (if (⟨rows.stop, 0⟩ : Point) ≤ max_point text then ⟨rows.stop, 0⟩ else max_point text)

def replace_rows (old_text new_text : Rope) (old new : Range) : Rope :=
  let old_bytes := row_bytes old_text old
  let new_bytes := row_bytes new_text new
  replace old_text old_bytes.start old_bytes.stop (Patch.slice new_text new_bytes.start new_bytes.stop)

theorem push_old_edits_length (old_edits new_edits : List Edit) (new_edit : Edit) (conflict : Bool)
    (rebased_delta : Int) :
    (push_old_edits old_edits new_edits new_edit conflict rebased_delta).new_edits.length ≤ new_edits.length := by
  fun_induction push_old_edits old_edits new_edits new_edit conflict rebased_delta with
  | case1 | case2 => exact Nat.le_refl _
  | case3 _ _ _ _ _ _ _ _ ih | case4 _ _ _ _ _ _ _ ih | case6 _ _ _ _ _ _ _ _ _ _ ih => exact ih
  | case5 _ _ _ _ _ _ _ _ _ _ ih =>
    rw [List.length_cons]
    exact Nat.le_succ_of_le ih

/-- The loop of `apply_non_conflicting_edits`. -/
def apply_edits (new_text : Rope) (old_edits new_edits : List Edit) (old_text : Rope)
    (applied_delta rebased_delta : Int) (has_made_changes : Bool) : Rope × Bool :=
  match new_edits with
  | [] => (old_text, has_made_changes)
  | new_edit :: new_edits =>
    have _hlength := push_old_edits_length old_edits new_edits new_edit false rebased_delta
    let s := push_old_edits old_edits new_edits new_edit false rebased_delta
    if s.conflict then
      apply_edits new_text s.old_edits s.new_edits old_text applied_delta s.rebased_delta has_made_changes
    else
      -- This edit doesn't intersect with any old edit, so we can apply it to the old text.
      let old : Range :=
        ⟨(s.new_edit.old.start + applied_delta - s.rebased_delta).toNat,
          (s.new_edit.old.stop + applied_delta - s.rebased_delta).toNat⟩
      let applied_delta := applied_delta + (s.new_edit.new_len - ((old.stop - old.start : Nat) : Int))
      apply_edits new_text s.old_edits s.new_edits (replace_rows old_text new_text old s.new_edit.new)
        applied_delta s.rebased_delta true
termination_by new_edits.length

def apply_non_conflicting_edits (patch : Patch) (edits : List Edit) (old_text new_text : Rope) : Rope × Bool :=
  apply_edits new_text patch edits old_text 0 0 false

/-- An `Edit<Point>`. -/
structure PointEdit where
  old_start : Point
  old_end : Point
  new_start : Point
  new_end : Point

/-- An edit of `edits_since::<Point>`. -/
def PointEdit.of_bytes (old_text new_text : Rope) (edit : Edit) : PointEdit where
  old_start := offset_to_point old_text edit.old.start
  old_end := offset_to_point old_text edit.old.stop
  new_start := offset_to_point new_text edit.new.start
  new_end := offset_to_point new_text edit.new.stop

def point_to_row_edit (edit : PointEdit) (old_text new_text : Rope) : Edit :=
  if edit.old_start.column = line_len old_text edit.old_start.row ∧
      (new_text.drop (point_to_offset new_text edit.new_start)).head? = some NEWLINE ∧
      edit.old_start ≠ max_point old_text then
    { old := ⟨edit.old_start.row + 1, edit.old_end.row + 1⟩, new := ⟨edit.new_start.row + 1, edit.new_end.row + 1⟩ }
  else if edit.old_start.column = 0 ∧ edit.old_end.column = 0 ∧ edit.new_end.column = 0 then
    { old := ⟨edit.old_start.row, edit.old_end.row⟩, new := ⟨edit.new_start.row, edit.new_end.row⟩ }
  else
    { old := ⟨edit.old_start.row, edit.old_end.row + 1⟩, new := ⟨edit.new_start.row, edit.new_end.row + 1⟩ }

/-- The loops of `diff_snapshots`: an edit takes in the next ones while they
    start at rows that it has reached. -/
def merge_row_edits (edit : Edit) : List Edit → List Edit
  | [] => [edit]
  | next_edit :: edits =>
    if edit.old.stop ≥ next_edit.old.start then
      merge_row_edits { old := ⟨edit.old.start, next_edit.old.stop⟩, new := ⟨edit.new.start, next_edit.new.stop⟩ } edits
    else edit :: merge_row_edits next_edit edits

def row_edits (old_text new_text : Rope) (edits : List Edit) : List Edit :=
  match edits.map fun edit => point_to_row_edit (PointEdit.of_bytes old_text new_text edit) old_text new_text with
  | [] => []
  | edit :: edits => merge_row_edits edit edits

def diff_snapshots (old_snapshot new_snapshot : BufferSnapshot) : Option (List Edit) :=
  (new_snapshot.edits_since old_snapshot.version).map
    (row_edits old_snapshot.visible_text new_snapshot.visible_text)

end zed.action_log

namespace zed.action_log

open zed.rope zed.rope.Rope zed.text
open zed.text.Patch (slice apply_from Consistent WellFormed)

/-- The rows from `row` up to `stop`, with their newlines. -/
def row_slice (text : Rope) (row stop : Nat) : Rope := slice text (row_start text row) (row_start text stop)

/-- The bytes of the rows that an edit replaces, and of those that replace them. -/
def byte_edit (old new : Rope) (edit : Edit) : Edit where
  old := ⟨row_start old edit.old.start, row_start old edit.old.stop⟩
  new := ⟨row_start new edit.new.start, row_start new edit.new.stop⟩

/-- Sorted, non-touching row edits that start at rows of the old text; replacing
    each old row range by its new row range gives the new text. -/
structure Rewrites (patch : Patch) (old new : Rope) : Prop where
  wellFormed : patch.WellFormed
  starts : ∀ edit ∈ patch, edit.old.start ≤ newlines old
  applies : apply_from old new 0 (patch.map (byte_edit old new)) = new

instance (patch : Patch) (old new : Rope) : Decidable (Rewrites patch old new) :=
  decidable_of_iff (_ ∧ _ ∧ _)
    ⟨fun h => ⟨h.1, h.2.1, h.2.2⟩, fun h => ⟨h.wellFormed, h.starts, h.applies⟩⟩

/-- The row edits lead from a row of the old text and its row of the new text to
    the ends: the texts agree outside the ranges. -/
def Aligned (old new : Rope) : Nat → Nat → Patch → Prop
  | row, row', [] => old.drop (row_start old row) = new.drop (row_start new row')
  | row, row', edit :: edits =>
    (row ≤ edit.old.start ∧ edit.new.start + row = row' + edit.old.start) ∧
      (edit.old.start ≤ newlines old ∧ edit.new.start ≤ newlines new) ∧
      row_slice old row edit.old.start = row_slice new row' edit.new.start ∧
      (edit.old.start ≤ edit.old.stop ∧ edit.new.start ≤ edit.new.stop) ∧
      Aligned old new edit.old.stop edit.new.stop edits

section slices

variable {text : Rope} {row stop : Nat}

theorem row_slice_self (text : Rope) (row : Nat) : row_slice text row row = [] := by
  unfold row_slice slice
  rw [List.drop_eq_nil_iff, List.length_take]
  exact min_le_left _ _

theorem row_slice_eq_take (h : row ≤ stop) :
    row_slice text row stop =
      (text.drop (row_start text row)).take (row_start (text.drop (row_start text row)) (stop - row)) := by
  obtain ⟨rows, rfl⟩ := Nat.exists_eq_add_of_le h
  rw [row_slice, slice, row_start_add, List.drop_take, Nat.add_sub_cancel_left, Nat.add_sub_cancel_left]

theorem row_slice_append_drop (h : row ≤ stop) :
    row_slice text row stop ++ text.drop (row_start text stop) = text.drop (row_start text row) :=
  Patch.slice_append_drop text (row_start_mono h)

theorem row_slice_append {end_row : Nat} (h : row ≤ stop) (h' : stop ≤ end_row) :
    row_slice text row stop ++ row_slice text stop end_row = row_slice text row end_row := by
  have hfull := @row_slice_append_drop text _ _ (Nat.le_trans h h')
  rw [← row_slice_append_drop h, ← row_slice_append_drop h', ← List.append_assoc] at hfull
  exact (List.append_cancel_right hfull).symm

theorem row_slice_closed (h : row ≤ stop) (hstop : stop ≤ newlines text) :
    Closed (row_slice text row stop) ∧ newlines (row_slice text row stop) = stop - row := by
  have hrows : stop - row ≤ newlines (text.drop (row_start text row)) := by
    rw [newlines_drop (Nat.le_trans h hstop)]
    exact Nat.sub_le_sub_right hstop row
  rw [row_slice_eq_take h]
  exact ⟨closed_take hrows, newlines_take hrows⟩

theorem row_slice_initial {rows : Nat} (h : row + rows ≤ stop) (hstop : stop ≤ newlines text) :
    row_slice text row (row + rows) = (row_slice text row stop).take (row_start (row_slice text row stop) rows) := by
  have hrow : row ≤ stop := by omega
  have hlines := (row_slice_closed hrow hstop).2
  rw [row_slice_eq_take (Nat.le_add_right _ _), ← row_slice_append_drop hrow, Nat.add_sub_cancel_left,
    row_start_append_of_le (by omega), List.take_append_of_le_length (row_start_le _ _)]

theorem drop_row_of_gt (h : newlines text < row) : text.drop (row_start text row) = [] := by
  rw [row_start_of_gt h, List.drop_length]

end slices

variable {old new : Rope} {row row' : Nat}

theorem Aligned.applies {patch : Patch} (h : Aligned old new row row' patch) :
    apply_from old new (row_start old row) (patch.map (byte_edit old new)) = new.drop (row_start new row') := by
  induction patch generalizing row row' with
  | nil => exact h
  | cons edit edits ih =>
    obtain ⟨⟨hrow, hshift⟩, -, hgap, ⟨-, hnew⟩, hrest⟩ := h
    have hrow' : row' ≤ edit.new.start := by omega
    rw [List.map_cons, apply_from]
    change row_slice old row edit.old.start ++ row_slice new edit.new.start edit.new.stop ++ _ = _
    rw [show (byte_edit old new edit).old.stop = row_start old edit.old.stop from rfl, ih hrest, hgap,
      List.append_assoc, row_slice_append_drop hnew, row_slice_append_drop hrow']

theorem Aligned.consistent {patch : Patch} (h : Aligned old new row row' patch) {delta : Int}
    (hdelta : (row' : Int) = row + delta) : Consistent delta patch := by
  induction patch generalizing row row' delta with
  | nil => trivial
  | cons edit edits ih =>
    obtain ⟨⟨hrow, hshift⟩, -, -, ⟨hold, hnew⟩, hrest⟩ := h
    refine ⟨by omega, ih hrest ?_⟩
    unfold Edit.new_len Edit.old_len
    omega

theorem Aligned.starts {patch : Patch} (h : Aligned old new row row' patch) :
    ∀ edit ∈ patch, edit.old.start ≤ newlines old ∧ edit.new.start ≤ newlines new := by
  induction patch generalizing row row' with
  | nil => simp
  | cons first edits ih =>
    obtain ⟨-, hstarts, -, -, hrest⟩ := h
    intro edit hedit
    obtain rfl | hedit := List.mem_cons.mp hedit
    · exact hstarts
    · exact ih hrest edit hedit

theorem aligned_of_applies {patch : Patch} {delta : Int} (hdelta : (row' : Int) = row + delta)
    (hordered : ∀ edit ∈ patch, edit.old.start ≤ edit.old.stop ∧ edit.new.start ≤ edit.new.stop)
    (hseparate : patch.Pairwise fun x y => x.old.stop < y.old.start ∧ x.new.stop < y.new.start)
    (hconsistent : Consistent delta patch) (hstarts : ∀ edit ∈ patch, edit.old.start ≤ newlines old)
    (hle : ∀ edit ∈ patch, row ≤ edit.old.start)
    (hreached : row' ≤ newlines new ∨ ∀ edit ∈ patch, row < edit.old.start)
    (happlies : apply_from old new (row_start old row) (patch.map (byte_edit old new)) =
      new.drop (row_start new row')) : Aligned old new row row' patch := by
  induction patch generalizing row row' delta with
  | nil => exact happlies
  | cons edit edits ih =>
    obtain ⟨hstart, hrest⟩ := hconsistent
    obtain ⟨hfirst, htail⟩ := List.pairwise_cons.mp hseparate
    have hedit : edit ∈ edit :: edits := List.mem_cons_self
    have hrow := hle edit hedit
    have hbound := hstarts edit hedit
    obtain ⟨hold, hnew⟩ := hordered edit hedit
    have hshift : edit.new.start + row = row' + edit.old.start := by omega
    have hrow' : row' ≤ edit.new.start := by omega
    obtain ⟨hclosed, hlines⟩ := row_slice_closed hrow hbound
    rw [List.map_cons, apply_from] at happlies
    change row_slice old row edit.old.start ++ row_slice new edit.new.start edit.new.stop ++
      apply_from old new (row_start old edit.old.stop) _ = _ at happlies
    rw [List.append_assoc] at happlies
    -- the rows before the edit are rows of the new text too
    have hnewlines : newlines (new.drop (row_start new row')) ≥ edit.old.start - row := by
      rw [← happlies, newlines_append, hlines]
      exact Nat.le_add_right _ _
    have hreach : edit.new.start ≤ newlines new := by
      by_cases hrow'' : row' ≤ newlines new
      · rw [newlines_drop hrow''] at hnewlines
        omega
      · have hlt := (hreached.resolve_left hrow'') edit hedit
        rw [drop_row_of_gt (by omega)] at hnewlines
        simp only [newlines, List.count_nil] at hnewlines
        omega
    have hgap : row_slice old row edit.old.start = row_slice new row' edit.new.start := by
      have hlen := hclosed.row_start_append
        (row_slice new edit.new.start edit.new.stop ++
          apply_from old new (row_start old edit.old.stop) (edits.map (byte_edit old new))) 0
      rw [happlies, hlines, row_start_zero, Nat.add_zero, Nat.add_zero] at hlen
      rw [@row_slice_eq_take new _ _ hrow', show edit.new.start - row' = edit.old.start - row by omega, hlen,
        ← happlies, List.take_left]
    refine ⟨⟨hrow, hshift⟩, ⟨hbound, hreach⟩, hgap, ⟨hold, hnew⟩, ?_⟩
    rw [hgap, ← row_slice_append_drop hrow', ← row_slice_append_drop hnew] at happlies
    have hdelta' : (edit.new.stop : Int) = edit.old.stop + (delta + edit.new_len - edit.old_len) := by
      unfold Edit.new_len Edit.old_len
      omega
    exact ih hdelta' (fun x hx => hordered x (List.mem_cons_of_mem _ hx)) htail hrest (fun x hx => hstarts x (List.mem_cons_of_mem _ hx)) (fun x hx => Nat.le_of_lt (hfirst x hx).1)
      (Or.inr fun x hx => (hfirst x hx).1) (List.append_cancel_left (List.append_cancel_left happlies))

theorem Rewrites.aligned {patch : Patch} (h : Rewrites patch old new) : Aligned old new 0 0 patch := by
  have hdelta : ((0 : Nat) : Int) = (0 : Nat) + 0 := rfl
  refine aligned_of_applies hdelta h.wellFormed.ordered h.wellFormed.separate h.wellFormed.consistent
    h.starts (fun _ _ => Nat.zero_le _) (Or.inl (Nat.zero_le _)) ?_
  rw [row_start_zero, row_start_zero, List.drop_zero]
  exact h.applies

theorem Aligned.rewrites {patch : Patch} (h : Aligned old new 0 0 patch)
    (hordered : ∀ edit ∈ patch, edit.old.start ≤ edit.old.stop ∧ edit.new.start ≤ edit.new.stop)
    (hseparate : patch.Pairwise fun x y => x.old.stop < y.old.start ∧ x.new.stop < y.new.start) :
    Rewrites patch old new := by
  refine ⟨⟨hordered, hseparate, h.consistent (by omega)⟩, fun edit hedit => (h.starts edit hedit).1, ?_⟩
  have happlies := h.applies
  rwa [row_start_zero, row_start_zero, List.drop_zero] at happlies

theorem Aligned.stops {patch : Patch} (h : Aligned old new row row' patch)
    (hseparate : patch.Pairwise fun x y => x.old.stop < y.old.start ∧ x.new.stop < y.new.start) :
    patch.Pairwise fun x _ => x.old.stop ≤ newlines old ∧ x.new.stop ≤ newlines new := by
  induction patch generalizing row row' with
  | nil => exact List.Pairwise.nil
  | cons edit edits ih =>
    obtain ⟨-, -, -, -, hrest⟩ := h
    obtain ⟨hfirst, htail⟩ := List.pairwise_cons.mp hseparate
    refine List.pairwise_cons.mpr ⟨fun x hx => ?_, ih hrest htail⟩
    have hstarts := hrest.starts x hx
    have hlt := hfirst x hx
    omega

end zed.action_log
