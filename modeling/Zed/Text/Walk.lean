import Zed.Text.Fragment

namespace zed.text

open zed.clock zed.rope
open zed.sum_tree (Bias)

/-- The summary of a `FragmentBuilder` that holds these fragments. -/
def summary (fragments : List Fragment) : FragmentSummary :=
  fragments.foldl (fun summary fragment => summary.add_summary fragment.summary) FragmentSummary.zero

def chunk_end (text : Rope) (text_offset : Nat) : Nat :=
  let target_end := min text.length (text_offset + MAX_INSERTION_LEN)
  if target_end = text.length then target_end else floor_char_boundary text target_end

/-- The lengths of the chunks that the loops of `new_normalized` and of
    `push_fragments_for_insertion` cut a text into. -/
def chunk_lens (text : Rope) (text_offset : Nat) : List Nat :=
  if text_offset < text.length ∧ text_offset < chunk_end text text_offset then
    (chunk_end text text_offset - text_offset) :: chunk_lens text (chunk_end text text_offset)
  else []
termination_by text.length - text_offset

/-- The variables of both edit loops. -/
structure Walk where
  old_fragments : sum_tree.Cursor Fragment
  fragment_start : Nat
  new_fragments : List Fragment
  new_insertions : List (sum_tree.Edit InsertionFragment InsertionFragmentKey)
  insertion_slices : List InsertionSlice
  insertion_offset : Nat
  new_ropes : RopeBuilder
  edits_patch : Patch

namespace Walk

-- Both loops measure positions by the lengths of fragments in a dimension: the
-- visible length, or the versioned length.
variable (len : Fragment → Nat)

/-- The variables before the first edit, which starts at the given position. -/
def start (fragments : List Fragment) (visible_text deleted_text : Rope) (range_start : Nat)
    (bias : Bias) : Walk :=
  let (slice, old_fragments) := (sum_tree.Cursor.new fragments).slice len range_start bias
  { old_fragments
    fragment_start := old_fragments.start len
    new_fragments := slice
    new_insertions := []
    insertion_slices := []
    insertion_offset := 0
    new_ropes := (RopeBuilder.new visible_text deleted_text).append (summary slice).text
    edits_patch := [] }

def push_fragment (w : Walk) (fragment : Fragment) (was_visible : Bool) : Walk :=
  { w with
    new_insertions := w.new_insertions ++ [InsertionFragment.insert_new fragment]
    new_ropes := w.new_ropes.push_fragment fragment was_visible
    new_fragments := w.new_fragments ++ [fragment] }

/-- What is left of the current fragment, if it has been partially consumed. -/
def suffix (w : Walk) (fragment : Fragment) : Fragment :=
  { fragment with
    len := w.old_fragments.stop len - w.fragment_start
    insertion_offset := fragment.insertion_offset + (w.fragment_start - w.old_fragments.start len) }

def next (w : Walk) : Walk := { w with old_fragments := w.old_fragments.next }

/-- If the current fragment has been partially consumed, then consume the rest of
    it and advance to the next fragment. -/
def consume_suffix (w : Walk) : Walk :=
  if w.fragment_start > w.old_fragments.start len then
    match w.old_fragments.item with
    | none => w
    | some fragment =>
      if w.old_fragments.stop len > w.fragment_start then
        (w.push_fragment (w.suffix len fragment) fragment.visible).next
      else w.next
  else w

/-- If the current fragment ends before this range, then jump ahead to the first
    fragment that extends past the start of this range, reusing any intervening
    fragments. -/
def catch_up (range_start : Nat) (bias : Bias) (w : Walk) : Walk :=
  if w.old_fragments.stop len < range_start then
    let w := w.consume_suffix len
    let (slice, old_fragments) := w.old_fragments.slice len range_start bias
    { w with
      old_fragments
      fragment_start := old_fragments.start len
      new_fragments := w.new_fragments ++ slice
      new_ropes := w.new_ropes.append (summary slice).text }
  else w

/-- Preserve any portion of the current fragment that precedes this range. -/
def push_prefix (range_start : Nat) (w : Walk) : Walk :=
  if w.fragment_start < range_start then
    match w.old_fragments.item with
    | none => w
    | some fragment =>
      { w.push_fragment
          { fragment with
            id := Locator.between (summary w.new_fragments).max_id fragment.id
            len := range_start - w.fragment_start
            insertion_offset :=
              fragment.insertion_offset + (w.fragment_start - w.old_fragments.start len) }
          fragment.visible with
        fragment_start := range_start }
  else w

def next_fragment_id (w : Walk) : Locator :=
  match w.old_fragments.item with
  | none => Locator.max
  | some fragment => fragment.id

/-- One iteration of the loop of `push_fragments_for_insertion`. -/
def push_chunk (timestamp : Lamport) (next_fragment_id : Locator) (w : Walk) (chunk_len : Nat) : Walk :=
  let fragment : Fragment :=
    { id := Locator.between (summary w.new_fragments).max_id next_fragment_id
      timestamp
      insertion_offset := w.insertion_offset
      len := chunk_len
      visible := true
      deletions := []
      max_undos := Global.new }
  { w with
    insertion_slices := w.insertion_slices ++ [InsertionSlice.from_fragment timestamp fragment]
    new_insertions := w.new_insertions ++ [InsertionFragment.insert_new fragment]
    new_fragments := w.new_fragments ++ [fragment]
    insertion_offset := w.insertion_offset + chunk_len }

def push_fragments_for_insertion (new_text : Str) (timestamp : Lamport) (w : Walk) : Walk :=
  let w := (chunk_lens (utf8 new_text) 0).foldl (push_chunk timestamp w.next_fragment_id) w
  { w with new_ropes := w.new_ropes.push_str (utf8 new_text) }

/-- The visible offset of the old text that a remote edit has come to. -/
def old_start (w : Walk) : Nat :=
  let old_start := w.old_fragments.start Fragment.visible_len
  match w.old_fragments.item with
  | none => old_start
  | some fragment =>
    if fragment.visible then old_start + (w.fragment_start - w.old_fragments.start len) else old_start

/-- Insert the new text before any existing fragments within the range. -/
def push_insertion (old_start : Nat) (new_text : Str) (timestamp : Lamport) (w : Walk) : Walk :=
  if new_text = [] then w
  else
    let new_start := (summary w.new_fragments).text.visible
    let w := w.push_fragments_for_insertion new_text timestamp
    { w with
      edits_patch := w.edits_patch.push
        { old := ⟨old_start, old_start⟩, new := ⟨new_start, new_start + (utf8 new_text).length⟩ } }

/-- The part of the current fragment up to a position, with an id of its own. -/
def intersection (intersection_end : Nat) (w : Walk) (fragment : Fragment) : Fragment :=
  { fragment with
    id := Locator.between (summary w.new_fragments).max_id fragment.id
    len := intersection_end - w.fragment_start
    insertion_offset := fragment.insertion_offset + (w.fragment_start - w.old_fragments.start len) }

/-- The loop over the fragments that intersect a range. Every iteration but the
    last one advances the cursor. -/
def delete_loop (body : Fragment → Walk → Walk) (range_end : Nat) : Nat → Walk → Walk
  | 0, w => w
  | fuel + 1, w =>
    match w.old_fragments.item with
    | none => w
    | some fragment =>
      if w.fragment_start < range_end then delete_loop body range_end fuel (body fragment w) else w

/-- Advance through every fragment that intersects a range. -/
def delete_range (body : Fragment → Walk → Walk) (range_end : Nat) (w : Walk) : Walk :=
  delete_loop body range_end w.old_fragments.rest.length w

def finish (w : Walk) : List Fragment × Rope × Rope × Walk :=
  let w := w.consume_suffix len
  let suffix := w.old_fragments.suffix
  let (visible_text, deleted_text) := (w.new_ropes.append (summary suffix).text).finish
  (w.new_fragments ++ suffix, visible_text, deleted_text, w)

end Walk

end zed.text
