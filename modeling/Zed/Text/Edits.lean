import Zed.Text.Anchor

namespace zed.text

open zed.clock zed.rope
open zed.sum_tree (FilterCursor)

/-- Whether a version may have missed something about fragments with this summary. -/
def FragmentSummary.missed_by (since : Global) (summary : FragmentSummary) : Bool :=
  !since.observed_all summary.max_version

namespace BufferSnapshot

/-- The variables of the loop of `rope_for_version`. -/
structure RopeWalk where
  rope : Rope
  visible_cursor : zed.rope.Cursor
  deleted_cursor : zed.rope.Cursor

/-- The visible text that no fragment stopped the walk at. -/
def RopeWalk.catch_up (start : Nat) (w : RopeWalk) : RopeWalk :=
  if start > w.visible_cursor.offset then
    let (text, visible_cursor) := w.visible_cursor.slice start
    { w with rope := w.rope ++ text, visible_cursor }
  else w

/-- One iteration of the loop of `rope_for_version`. -/
def RopeWalk.step (version : Global) (undo_map : UndoMap) (w : RopeWalk) (cursor : sum_tree.Cursor Fragment) :
    RopeWalk :=
  match cursor.item with
  | none => w
  | some fragment =>
    let w := w.catch_up (cursor.start Fragment.visible_len)
    if fragment.was_visible version undo_map then
      if fragment.visible then
        let (text, visible_cursor) := w.visible_cursor.slice (cursor.stop Fragment.visible_len)
        { w with rope := w.rope ++ text, visible_cursor }
      else
        let deleted_cursor := w.deleted_cursor.seek_forward (cursor.start Fragment.deleted_len)
        let (text, deleted_cursor) := deleted_cursor.slice (cursor.stop Fragment.deleted_len)
        { w with rope := w.rope ++ text, deleted_cursor }
    else if fragment.visible then
      { w with visible_cursor := w.visible_cursor.seek_forward (cursor.stop Fragment.visible_len) }
    else w

def rope_for_version (snapshot : BufferSnapshot) (version : Global) : Rope :=
  let cursor := FilterCursor.new (fun fragment => fragment.summary.missed_by version) snapshot.fragments
  let w : RopeWalk :=
    { rope := []
      visible_cursor := { text := snapshot.visible_text, offset := 0 }
      deleted_cursor := { text := snapshot.deleted_text, offset := 0 } }
  let w := cursor.stops.foldl (RopeWalk.step version snapshot.undo_map) w
  (w.catch_up (cursor.finish.start Fragment.visible_len)).rope

end BufferSnapshot

/-- The iterator of the edits since a version, with offsets in bytes. -/
structure Edits where
  visible_cursor : zed.rope.Cursor
  deleted_cursor : zed.rope.Cursor
  fragments_cursor : FilterCursor Fragment
  undos : UndoMap
  since : Global
  old_end : Nat
  new_end : Nat
  range_start : Locator × Nat
  range_end : Locator × Nat
  buffer_id : Nat

namespace Edits

abbrev Item := Edit × Anchor × Anchor

/-- The visible text that no fragment stopped the iterator at. -/
def catch_up (start : Nat) (s : Edits) : Edits :=
  if start > s.visible_cursor.offset then
    let (summary, visible_cursor) := s.visible_cursor.summary start
    { s with visible_cursor, old_end := s.old_end + summary, new_end := s.new_end + summary }
  else s

def end_in_range (s : Edits) (fragment : Fragment) (start stop : Nat) : Nat :=
  if fragment.id = s.range_end.1 then min stop (start + (s.range_end.2 - fragment.insertion_offset)) else stop

/-- What a fragment adds to the pending edit, when it was inserted or deleted since. -/
def change (cursor : sum_tree.Cursor Fragment) (fragment : Fragment) (s : Edits) (pending_edit : Option Item) :
    Edits × Option Item :=
  let start_anchor : Anchor :=
    { timestamp := fragment.timestamp
      offset := fragment.insertion_offset
      bias := .Right
      buffer_id := s.buffer_id }
  let end_anchor : Anchor :=
    { timestamp := fragment.timestamp
      offset := fragment.insertion_offset + fragment.len
      bias := .Left
      buffer_id := s.buffer_id }
  if !fragment.was_visible s.since s.undos && fragment.visible then
    let visible_end := s.end_in_range fragment (cursor.start Fragment.visible_len) (cursor.stop Fragment.visible_len)
    let (fragment_summary, visible_cursor) := s.visible_cursor.summary visible_end
    let new_end := s.new_end + fragment_summary
    let pending_edit :=
      match pending_edit with
      | some (edit, range_start, _) => ({ edit with new := { edit.new with stop := new_end } }, range_start, end_anchor)
      | none => (⟨⟨s.old_end, s.old_end⟩, ⟨s.new_end, new_end⟩⟩, start_anchor, end_anchor)
    ({ s with visible_cursor, new_end }, some pending_edit)
  else if fragment.was_visible s.since s.undos && !fragment.visible then
    let deleted_end := s.end_in_range fragment (cursor.start Fragment.deleted_len) (cursor.stop Fragment.deleted_len)
    let deleted_cursor :=
      if cursor.start Fragment.deleted_len > s.deleted_cursor.offset then
        s.deleted_cursor.seek_forward (cursor.start Fragment.deleted_len)
      else s.deleted_cursor
    let (fragment_summary, deleted_cursor) := deleted_cursor.summary deleted_end
    let old_end := s.old_end + fragment_summary
    let pending_edit :=
      match pending_edit with
      | some (edit, range_start, _) => ({ edit with old := { edit.old with stop := old_end } }, range_start, end_anchor)
      | none => (⟨⟨s.old_end, old_end⟩, ⟨s.new_end, s.new_end⟩⟩, start_anchor, end_anchor)
    ({ s with deleted_cursor, old_end }, some pending_edit)
  else (s, pending_edit)

/-- The loop of `Edits::next` over the fragments where the iterator still stops. -/
def next_from : List (sum_tree.Cursor Fragment) → Edits → Option Item → Option Item × Edits
  | [], s, pending_edit => (pending_edit, { s with fragments_cursor := { s.fragments_cursor with stops := [] } })
  | cursor :: stops, s, pending_edit =>
    match cursor.item with
    | none => (pending_edit, { s with fragments_cursor := { s.fragments_cursor with stops := cursor :: stops } })
    | some fragment =>
      if fragment.id < s.range_start.1 then next_from stops s pending_edit
      else if fragment.id > s.range_end.1 then
        (pending_edit, { s with fragments_cursor := { s.fragments_cursor with stops := cursor :: stops } })
      else
        let s := s.catch_up (cursor.start Fragment.visible_len)
        if pending_edit.any fun item => decide (item.1.new.stop < s.new_end) then
          -- text that stayed parts the pending edit from this fragment
          (pending_edit, { s with fragments_cursor := { s.fragments_cursor with stops := cursor :: stops } })
        else
          let (s, pending_edit) := s.change cursor fragment pending_edit
          next_from stops s pending_edit

def next (s : Edits) : Option Item × Edits := next_from s.fragments_cursor.stops s none

/-- The edits that an iterator gives, when there are fewer than `fuel`. -/
def collect : Nat → Edits → Option (List Item)
  | 0, _ => none
  | fuel + 1, s =>
    match s.next with
    | (none, _) => some []
    | (some item, s) => (collect fuel s).map fun items => item :: items

end Edits

namespace BufferSnapshot

/-- The iterator over a range. Panics when an anchor is not in the buffer, or the
    range starts before the piece of an insertion that it is in. -/
def edits_iterator (snapshot : BufferSnapshot) (since : Global) (range_start range_end : Anchor) : Option Edits := do
  let start_fragment_id ← snapshot.try_fragment_id_for_anchor range_start
  let cursor := snapshot.cursor_at start_fragment_id
  let (visible_start, deleted_start) ←
    match cursor.item with
    | none => some (cursor.start Fragment.visible_len, cursor.start Fragment.deleted_len)
    | some fragment =>
      if range_start.offset < fragment.insertion_offset then none
      else
        let overshoot := range_start.offset - fragment.insertion_offset
        if fragment.visible then
          some (cursor.start Fragment.visible_len + overshoot, cursor.start Fragment.deleted_len)
        else some (cursor.start Fragment.visible_len, cursor.start Fragment.deleted_len + overshoot)
  let end_fragment_id ← snapshot.try_fragment_id_for_anchor range_end
  some
    { visible_cursor := { text := snapshot.visible_text, offset := visible_start }
      deleted_cursor := { text := snapshot.deleted_text, offset := deleted_start }
      fragments_cursor := FilterCursor.new (fun fragment => fragment.summary.missed_by since) snapshot.fragments
      undos := snapshot.undo_map
      since
      old_end := 0
      new_end := 0
      range_start := (start_fragment_id, range_start.offset)
      range_end := (end_fragment_id, range_end.offset)
      buffer_id := snapshot.remote_id }

def anchored_edits_since_in_range (snapshot : BufferSnapshot) (since : Global) (range_start range_end : Anchor) :
    Option (List Edits.Item) :=
  if since = snapshot.version then some []
  else (snapshot.edits_iterator since range_start range_end).bind (Edits.collect (snapshot.fragments.length + 2))

def edits_since_in_range (snapshot : BufferSnapshot) (since : Global) (range_start range_end : Anchor) :
    Option (List Edit) :=
  (snapshot.anchored_edits_since_in_range since range_start range_end).map fun items => items.map Prod.fst

def edits_since (snapshot : BufferSnapshot) (since : Global) : Option (List Edit) :=
  snapshot.edits_since_in_range since (Anchor.min_for_buffer snapshot.remote_id)
    (Anchor.max_for_buffer snapshot.remote_id)

def has_edits_since (snapshot : BufferSnapshot) (since : Global) : Bool :=
  if since ≠ snapshot.version then
    let cursor := FilterCursor.new (fun fragment => fragment.summary.missed_by since) snapshot.fragments
    cursor.stops.any fun cursor => cursor.item.any fun fragment =>
      fragment.was_visible since snapshot.undo_map != fragment.visible
  else false

end BufferSnapshot

end zed.text
