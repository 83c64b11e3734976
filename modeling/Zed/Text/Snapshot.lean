import Zed.Text.Walk

namespace zed.text

open zed.clock zed.rope

structure BufferSnapshot where
  visible_text : Rope
  deleted_text : Rope
  fragments : List Fragment
  insertions : List InsertionFragment
  insertion_slices : List InsertionSlice
  undo_map : UndoMap
  version : Global
  remote_id : Nat
  replica_id : Nat

namespace BufferSnapshot

/-- The current fragment within the range, marked as deleted by a local edit. -/
def delete_visible (timestamp : Lamport) (range_end : Nat) (fragment : Fragment) (w : Walk) : Walk :=
  let fragment_end := w.old_fragments.stop Fragment.visible_len
  let intersection_end := min range_end fragment_end
  let intersection :=
    if fragment.visible then
      { w.intersection Fragment.visible_len intersection_end fragment with
        deletions := fragment.deletions ++ [timestamp]
        visible := false }
    else fragment
  let advanced :=
    if intersection.len > 0 then
      let new_start := (summary w.new_fragments).text.visible
      let edited :=
        if fragment.visible && !intersection.visible then
          { w with
            edits_patch := w.edits_patch.push
              { old := ⟨w.fragment_start, intersection_end⟩, new := ⟨new_start, new_start⟩ }
            insertion_slices :=
              w.insertion_slices ++ [InsertionSlice.from_fragment timestamp intersection] }
        else w
      { edited.push_fragment intersection fragment.visible with fragment_start := intersection_end }
    else w
  if fragment_end ≤ range_end then advanced.next else advanced

def apply_range (timestamp : Lamport) (state : Walk × EditOperation) (edit : Range × Str) :
    Walk × EditOperation :=
  let (w, edit_op) := state
  let (range, new_text) := edit
  let new_text := normalize new_text
  let w := w.catch_up Fragment.visible_len range.start .Right
  let full_range_start := range.start + w.old_fragments.start Fragment.deleted_len
  let w := w.push_prefix Fragment.visible_len range.start
  let w := w.push_insertion w.fragment_start new_text timestamp
  let w := w.delete_range (delete_visible timestamp range.stop) range.stop
  let full_range_end := range.stop + w.old_fragments.start Fragment.deleted_len
  (w,
    { edit_op with
      ranges := edit_op.ranges ++ [⟨full_range_start, full_range_end⟩]
      new_text := edit_op.new_text ++ [new_text] })

/-- What both kinds of edit do at their end. -/
def finish_edit (snapshot : BufferSnapshot) (len : Fragment → Nat) (w : Walk) : BufferSnapshot × Patch :=
  let (fragments, visible_text, deleted_text, w) := w.finish len
  ({ snapshot with
      fragments
      visible_text
      deleted_text
      insertions := sum_tree.edit snapshot.insertions w.new_insertions
      insertion_slices :=
        sum_tree.edit snapshot.insertion_slices (w.insertion_slices.map sum_tree.Edit.Insert) },
    w.edits_patch)

def apply_edit_internal (snapshot : BufferSnapshot) (edits : List (Range × Str)) (timestamp : Lamport) :
    BufferSnapshot × EditOperation × Patch :=
  let edit_op : EditOperation :=
    { timestamp, version := snapshot.version, ranges := [], new_text := [] }
  match edits with
  | [] => (snapshot, edit_op, [])
  | (range, _) :: _ =>
    let w := Walk.start Fragment.visible_len snapshot.fragments snapshot.visible_text
      snapshot.deleted_text range.start .Right
    let (w, edit_op) := edits.foldl (apply_range timestamp) (w, edit_op)
    let (snapshot, edits_patch) := snapshot.finish_edit Fragment.visible_len w
    (snapshot, edit_op, edits_patch)

/-- If we are at the end of a non-concurrent fragment, advance to the next one. -/
def advance (len : Fragment → Nat) (range_start : Nat) (w : Walk) : Walk :=
  let fragment_end := w.old_fragments.stop len
  if fragment_end = range_start ∧ fragment_end > w.fragment_start then
    match w.old_fragments.item with
    | none => w
    | some fragment =>
      let advanced := (w.push_fragment (w.suffix len fragment) fragment.visible).next
      { advanced with fragment_start := advanced.old_fragments.start len }
  else w

/-- Skip over insertions that are concurrent to this edit, but have a higher
    lamport timestamp. -/
def skip_concurrent (timestamp : Lamport) (range_start : Nat) : Nat → Walk → Walk
  | 0, w => w
  | fuel + 1, w =>
    match w.old_fragments.item with
    | none => w
    | some fragment =>
      if w.fragment_start = range_start ∧ timestamp < fragment.timestamp then
        skip_concurrent timestamp range_start fuel
          { w with
            new_ropes := w.new_ropes.push_fragment fragment fragment.visible
            new_fragments := w.new_fragments ++ [fragment]
            old_fragments := w.old_fragments.next }
      else w

/-- The portion of the current fragment within the range, marked as deleted by a
    remote edit if the edit's version saw it. -/
def delete_observed (version : Global) (undo_map : UndoMap) (timestamp : Lamport) (range_end : Nat)
    (fragment : Fragment) (w : Walk) : Walk :=
  let len := Fragment.versioned_len version
  let fragment_end := w.old_fragments.stop len
  let intersection_end := min range_end fragment_end
  let intersection :=
    if version.observed fragment.timestamp then
      if fragment.was_visible version undo_map then
        { w.intersection len intersection_end fragment with
          deletions := fragment.deletions ++ [timestamp]
          visible := false }
      else w.intersection len intersection_end fragment
    else fragment
  let sliced :=
    if version.observed fragment.timestamp && fragment.was_visible version undo_map then
      { w with
        insertion_slices :=
          w.insertion_slices ++ [InsertionSlice.from_fragment timestamp intersection] }
    else w
  let advanced :=
    if intersection.len > 0 then
      let edited :=
        if fragment.visible && !intersection.visible then
          let old_start := w.old_fragments.start Fragment.visible_len +
            (w.fragment_start - w.old_fragments.start len)
          let new_start := (summary w.new_fragments).text.visible
          { sliced with
            edits_patch := w.edits_patch.push
              { old := ⟨old_start, old_start + intersection.len⟩, new := ⟨new_start, new_start⟩ } }
        else sliced
      { edited.push_fragment intersection fragment.visible with fragment_start := intersection_end }
    else sliced
  if fragment_end ≤ range_end then advanced.next else advanced

def apply_remote_range (version : Global) (undo_map : UndoMap) (timestamp : Lamport) (w : Walk)
    (edit : Range × Str) : Walk :=
  let (range, new_text) := edit
  let len := Fragment.versioned_len version
  let w := w.catch_up len range.start .Left
  let w := advance len range.start w
  let w := skip_concurrent timestamp range.start w.old_fragments.rest.length w
  let w := w.push_prefix len range.start
  let w := w.push_insertion (w.old_start len) new_text timestamp
  w.delete_range (delete_observed version undo_map timestamp range.stop) range.stop

def apply_remote_edit (snapshot : BufferSnapshot) (version : Global) (ranges : List Range)
    (new_text : List Str) (timestamp : Lamport) : BufferSnapshot × Patch :=
  match ranges with
  | [] => (snapshot, [])
  | range :: _ =>
    let len := Fragment.versioned_len version
    let w := Walk.start len snapshot.fragments snapshot.visible_text snapshot.deleted_text
      range.start .Left
    let w := (ranges.zip new_text).foldl
      (apply_remote_range version snapshot.undo_map timestamp) w
    snapshot.finish_edit len w

/-- The slices in the order in which the insertions cursor meets them. -/
def slice_order (x y : InsertionSlice) : Prop :=
  toLex (x.insertion_id, toLex (x.range.start, OrderDual.toDual x.range.stop)) ≤
    toLex (y.insertion_id, toLex (y.range.start, OrderDual.toDual y.range.stop))

instance : DecidableRel slice_order := fun _ _ => by
  unfold slice_order
  infer_instance

def insertion_cursor_start (cursor : sum_tree.Cursor InsertionFragment) : InsertionFragmentKey :=
  (cursor.passed.getLast?.map InsertionFragment.key).getD { timestamp := Lamport.MIN, split_offset := 0 }

/-- All of the insertion slices changed by the given edits. -/
def insertion_slices_for_edits (snapshot : BufferSnapshot) (edit_ids : List Lamport) :
    List InsertionSlice :=
  edit_ids.flatMap fun edit_id =>
    (snapshot.insertion_slices.dropWhile fun slice =>
      decide (slice < { edit_id, insertion_id := Lamport.MIN, range := ⟨0, 0⟩ })).takeWhile
        fun slice => decide (slice.edit_id = edit_id)

/-- The fragments of one slice that the cursor has not met yet. -/
def fragment_ids_for_slice (state : sum_tree.Cursor InsertionFragment × List Locator)
    (slice : InsertionSlice) : sum_tree.Cursor InsertionFragment × List Locator :=
  let (cursor, fragment_ids) := state
  let start := insertion_cursor_start cursor
  let cursor :=
    if slice.insertion_id ≠ start.timestamp ∨ slice.range.start > start.split_offset then
      (cursor.slice_while fun item =>
        decide (item.key < { timestamp := slice.insertion_id, split_offset := slice.range.start })).2
    else cursor
  let (items, cursor) := cursor.slice_while fun item =>
    decide (item.timestamp = slice.insertion_id) && decide (item.split_offset < slice.range.stop)
  (cursor, fragment_ids ++ items.map InsertionFragment.fragment_id)

def fragment_ids_for_edits (snapshot : BufferSnapshot) (edit_ids : List Lamport) : List Locator :=
  let insertion_slices := (snapshot.insertion_slices_for_edits edit_ids).insertionSort slice_order
  (insertion_slices.foldl fragment_ids_for_slice
    (sum_tree.Cursor.new snapshot.insertions, [])).2.insertionSort fun x y => x ≤ y

/-- The variables of the loop of `apply_undo`. -/
structure UndoWalk where
  old_fragments : sum_tree.Cursor Fragment
  new_fragments : List Fragment
  new_ropes : RopeBuilder
  edits : Patch

/-- One iteration of the loop over the fragments of the undone edits. -/
def undo_fragment (undo_map : UndoMap) (timestamp : Lamport) (w : UndoWalk) (fragment_id : Locator) :
    UndoWalk :=
  let (preceding_fragments, old_fragments) :=
    w.old_fragments.slice_while fun fragment => decide (fragment.id < fragment_id)
  let w :=
    { w with
      old_fragments
      new_ropes := w.new_ropes.append (summary preceding_fragments).text
      new_fragments := w.new_fragments ++ preceding_fragments }
  match w.old_fragments.item with
  | none => w
  | some old_fragment =>
    let fragment :=
      { old_fragment with
        visible := old_fragment.is_visible undo_map
        max_undos := old_fragment.max_undos.observe timestamp }
    let old_start := w.old_fragments.start Fragment.visible_len
    let new_start := (summary w.new_fragments).text.visible
    let edits :=
      if old_fragment.visible && !fragment.visible then
        w.edits.push
          { old := ⟨old_start, old_start + fragment.len⟩, new := ⟨new_start, new_start⟩ }
      else if !old_fragment.visible && fragment.visible then
        w.edits.push
          { old := ⟨old_start, old_start⟩, new := ⟨new_start, new_start + fragment.len⟩ }
      else w.edits
    { edits
      new_ropes := w.new_ropes.push_fragment fragment old_fragment.visible
      new_fragments := w.new_fragments ++ [fragment]
      old_fragments := w.old_fragments.next }

def apply_undo (snapshot : BufferSnapshot) (undo : UndoOperation) : BufferSnapshot × Patch :=
  let snapshot := { snapshot with undo_map := UndoMap.insert snapshot.undo_map undo }
  let w : UndoWalk :=
    { old_fragments := sum_tree.Cursor.new snapshot.fragments
      new_fragments := []
      new_ropes := RopeBuilder.new snapshot.visible_text snapshot.deleted_text
      edits := [] }
  let w := (snapshot.fragment_ids_for_edits undo.counts.keys).foldl
    (undo_fragment snapshot.undo_map undo.timestamp) w
  let suffix := w.old_fragments.suffix
  let (visible_text, deleted_text) := (w.new_ropes.append (summary suffix).text).finish
  ({ snapshot with fragments := w.new_fragments ++ suffix, visible_text, deleted_text }, w.edits)

end BufferSnapshot

end zed.text
