import Zed.Text.Snapshot

namespace zed.rope

/-- The first boundary at or after a position. -/
def ceil_char_boundary (text : Rope) (index : Nat) : Nat :=
  if index > text.length then text.length
  else (((List.range (text.length + 1)).drop index).find? (is_char_boundary text)).getD text.length

end zed.rope

namespace zed.text

open zed.clock zed.rope
open zed.sum_tree (Bias)

/-- A timestamped position in a buffer. -/
structure Anchor where
  timestamp : Lamport
  /-- The byte offset into the text inserted in the operation at `timestamp`. -/
  offset : Nat
  /-- Whether this anchor stays attached to the character before or after the offset. -/
  bias : Bias
  buffer_id : Nat
deriving DecidableEq

namespace Anchor

def min_for_buffer (buffer_id : Nat) : Anchor :=
  { timestamp := Lamport.MIN, offset := 0, bias := .Left, buffer_id }

def max_for_buffer (buffer_id : Nat) : Anchor :=
  { timestamp := Lamport.MAX, offset := 4294967295, bias := .Right, buffer_id }

def is_min (anchor : Anchor) : Bool :=
  decide (anchor.timestamp = Lamport.MIN) && decide (anchor.offset = 0) && decide (anchor.bias = .Left)

def is_max (anchor : Anchor) : Bool :=
  decide (anchor.timestamp = Lamport.MAX) && decide (anchor.offset = 4294967295) &&
    decide (anchor.bias = .Right)

end Anchor

namespace BufferSnapshot

def try_find_fragment (snapshot : BufferSnapshot) (anchor : Anchor) : Option InsertionFragment :=
  let anchor_key : InsertionFragmentKey := { timestamp := anchor.timestamp, split_offset := anchor.offset }
  match sum_tree.find_with_prev snapshot.insertions anchor_key anchor.bias with
  | some (prev, insertion) =>
    if anchor_key < insertion.key ∨
        anchor.bias = .Left ∧ insertion.key = anchor_key ∧ anchor.offset > 0 then prev
    else some insertion
  | none => snapshot.insertions.getLast?

/-- Debug assertions are off: in a debug build the piece must have the timestamp of
    the anchor. -/
def try_fragment_id_for_anchor (snapshot : BufferSnapshot) (anchor : Anchor) : Option Locator :=
  if anchor.is_min then some Locator.min
  else if anchor.is_max then some Locator.max
  else (snapshot.try_find_fragment anchor).map InsertionFragment.fragment_id

def cursor_at (snapshot : BufferSnapshot) (fragment_id : Locator) : sum_tree.Cursor Fragment :=
  ((sum_tree.Cursor.new snapshot.fragments).slice_while fun fragment => decide (fragment.id < fragment_id)).2

/-- Panics at an anchor whose insertion the buffer does not have. -/
def offset_for_anchor (snapshot : BufferSnapshot) (anchor : Anchor) : Option Nat :=
  if anchor.is_min then some 0
  else if anchor.is_max then some snapshot.visible_text.length
  else
    match (snapshot.try_find_fragment anchor).filter fun insertion =>
      decide (insertion.timestamp = anchor.timestamp) with
    | none => none
    | some insertion =>
      let cursor := snapshot.cursor_at insertion.fragment_id
      cursor.item.map fun fragment =>
        if fragment.visible then
          cursor.start Fragment.visible_len + (anchor.offset - insertion.split_offset)
        else cursor.start Fragment.visible_len

def anchor_at_offset (snapshot : BufferSnapshot) (offset : Nat) (bias : Bias) : Anchor :=
  if bias = .Left ∧ offset = 0 then Anchor.min_for_buffer snapshot.remote_id
  else if bias = .Right ∧ offset ≥ snapshot.visible_text.length then
    Anchor.max_for_buffer snapshot.remote_id
  else
    let offset :=
      if is_char_boundary snapshot.visible_text offset then offset
      else
        match bias with
        | .Left => floor_char_boundary snapshot.visible_text offset
        | .Right => ceil_char_boundary snapshot.visible_text offset
    let cursor := ((sum_tree.Cursor.new snapshot.fragments).slice Fragment.visible_len offset bias).2
    match cursor.item with
    | none => Anchor.max_for_buffer snapshot.remote_id
    | some fragment =>
      let overshoot := offset - cursor.start Fragment.visible_len
      { timestamp := fragment.timestamp
        offset := fragment.insertion_offset + overshoot
        bias
        buffer_id := snapshot.remote_id }

def anchor_before (snapshot : BufferSnapshot) (offset : Nat) : Anchor := snapshot.anchor_at_offset offset .Left

def anchor_after (snapshot : BufferSnapshot) (offset : Nat) : Anchor := snapshot.anchor_at_offset offset .Right

def can_resolve (snapshot : BufferSnapshot) (anchor : Anchor) : Bool :=
  anchor.is_min || anchor.is_max ||
    (decide (snapshot.remote_id = anchor.buffer_id) && snapshot.version.observed anchor.timestamp)

end BufferSnapshot

namespace Anchor

/-- Left anchors go before right ones. -/
def bias_cmp : Bias → Bias → Ordering
  | .Left, .Right => .lt
  | .Right, .Left => .gt
  | _, _ => .eq

/-- Panics at an anchor whose insertion the buffer does not have. -/
def cmp (anchor other : Anchor) (buffer : BufferSnapshot) : Option Ordering :=
  let fragment_id_comparison :=
    if anchor.timestamp = other.timestamp then some .eq
    else
      (buffer.try_fragment_id_for_anchor anchor).bind fun fragment_id =>
        (buffer.try_fragment_id_for_anchor other).map fun other_id => compare fragment_id other_id
  fragment_id_comparison.map fun comparison =>
    (comparison.then (compare anchor.offset other.offset)).then (bias_cmp anchor.bias other.bias)

def is_valid (anchor : Anchor) (buffer : BufferSnapshot) : Bool :=
  if anchor.is_min || anchor.is_max then true
  else if anchor.buffer_id ≠ buffer.remote_id then false
  else
    match buffer.try_fragment_id_for_anchor anchor with
    | none => false
    | some fragment_id => ((buffer.cursor_at fragment_id).item.map Fragment.visible).getD false

end Anchor

end zed.text
