import Zed.BufferDiff.Compare
import Zed.Rope.Rows
import Zed.Text.Anchor

namespace zed.buffer_diff

open zed.rope (Rope Point)
open zed.rope.Rope (NEWLINE offset_to_point point_to_offset)
open zed.text (Anchor BufferSnapshot)

/-- The lines of a text, each with its newline. The last one may have none. -/
def lines : Rope → List Rope
  | [] => []
  | byte :: text =>
    if byte = NEWLINE then [byte] :: lines text
    else
      match lines text with
      | [] => [[byte]]
      | line :: rest => (byte :: line) :: rest

structure DiffOptions (LanguageScope : Type) where
  language_scope : Option LanguageScope
  max_word_diff_len : Nat
  max_word_diff_line_count : Nat

structure HunkSink (LanguageScope : Type) where
  diff_base_rope : Rope
  buffer : BufferSnapshot
  diff_options : Option (DiffOptions LanguageScope)
  old_line_offsets : List Nat
  hunks : List (InternalDiffHunk Anchor)

section Model

variable {LanguageScope : Type}
  (word_diff_ranges : Rope → Rope → DiffOptions LanguageScope → List (Range Nat) × List (Range Nat))
  (line_hunks : List Rope → List Rope → List text.Edit)

namespace HunkSink

def compute_line_offsets (text : Rope) : List Nat :=
  ((lines text).foldl (fun (offsets, offset) line =>
    let offset := offset + line.length
    (offsets ++ [offset], offset)) ([0], 0)).1

def new (diff_base diff_base_rope : Rope) (buffer : BufferSnapshot) (diff_options : Option (DiffOptions LanguageScope)) :
    HunkSink LanguageScope :=
  { diff_base_rope
    buffer
    diff_options
    old_line_offsets := compute_line_offsets diff_base
    hunks := [] }

/-- The word diffs of `process_change`. Panics at an anchor that the buffer cannot resolve. -/
def word_diffs (self : HunkSink LanguageScope) (diff_base_byte_range : Range Nat) (buffer_range : Range Anchor)
    (base_line_count buffer_line_count : Nat) : Option (List (Range Nat) × List (Range Anchor)) :=
  match self.diff_options with
  | some diff_options =>
    if buffer_line_count ≠ 0 ∧ base_line_count = buffer_line_count ∧
        diff_options.max_word_diff_line_count ≥ base_line_count then do
      let base_text := text.Patch.slice self.diff_base_rope diff_base_byte_range.start diff_base_byte_range.stop
      let buffer_start_offset ← self.buffer.offset_for_anchor buffer_range.start
      let buffer_end_offset ← self.buffer.offset_for_anchor buffer_range.stop
      let buffer_text := text.Patch.slice self.buffer.visible_text buffer_start_offset buffer_end_offset
      let (base_word_diffs, buffer_word_diffs_relative) := word_diff_ranges base_text buffer_text diff_options
      let buffer_word_diffs := buffer_word_diffs_relative.map fun range =>
        ⟨self.buffer.anchor_after (buffer_start_offset + range.start),
          self.buffer.anchor_after (buffer_start_offset + range.stop)⟩
      return (base_word_diffs, buffer_word_diffs)
    else some ([], [])
  | none => some ([], [])

/-- Panics at a line that the base text does not have. -/
def process_change (self : HunkSink LanguageScope) (before after : text.Range) : Option (HunkSink LanguageScope) := do
  let diff_base_byte_range : Range Nat :=
    ⟨← self.old_line_offsets[before.start]?, ← self.old_line_offsets[before.stop]?⟩
  let start : Point := ⟨after.start, 0⟩
  let stop : Point := ⟨after.stop, 0⟩
  let buffer_range : Range Anchor :=
    ⟨self.buffer.anchor_before (point_to_offset self.buffer.visible_text start),
      self.buffer.anchor_before (point_to_offset self.buffer.visible_text stop)⟩
  let (base_word_diffs, buffer_word_diffs) ← self.word_diffs word_diff_ranges diff_base_byte_range buffer_range
    (before.stop - before.start) (after.stop - after.start)
  return { self with
    hunks := self.hunks ++ [{
      buffer_range
      diff_base_byte_range
      diff_base_point_range :=
        ⟨offset_to_point self.diff_base_rope diff_base_byte_range.start,
          offset_to_point self.diff_base_rope diff_base_byte_range.stop⟩
      base_word_diffs
      buffer_word_diffs }] }

def finish (self : HunkSink LanguageScope) : List (InternalDiffHunk Anchor) := self.hunks

end HunkSink

/-- The tree as the list of its hunks. `line_hunks` is what the line diff finds in the lines of the two texts, after
    its postprocessing. -/
def compute_hunks (diff_base : Option (Rope × Rope)) (buffer : BufferSnapshot)
    (diff_options : Option (DiffOptions LanguageScope)) : Option (List (InternalDiffHunk Anchor)) :=
  match diff_base with
  | some (diff_base, diff_base_rope) =>
    let buffer_text := buffer.visible_text
    -- The empty buffer is often represented as just a newline, which a diff would preserve.
    if buffer_text = [NEWLINE] ∧ diff_base.getLast? = some NEWLINE ∧ diff_base.length > 1 then
      some [{
        buffer_range := ⟨buffer.anchor_before 0, buffer.anchor_before 0⟩
        diff_base_byte_range := ⟨0, diff_base.length - 1⟩
        diff_base_point_range := ⟨⟨0, 0⟩, offset_to_point diff_base_rope (diff_base.length - 1)⟩
        base_word_diffs := []
        buffer_word_diffs := [] }]
    else do
      let sink := HunkSink.new diff_base diff_base_rope buffer diff_options
      let sink ← (line_hunks (lines diff_base) (lines buffer_text)).foldlM
        (fun sink hunk => sink.process_change word_diff_ranges hunk.old hunk.new) sink
      return sink.finish
  | none =>
    some [{
      buffer_range := ⟨Anchor.min_for_buffer buffer.remote_id, Anchor.max_for_buffer buffer.remote_id⟩
      diff_base_byte_range := ⟨0, 0⟩
      diff_base_point_range := ⟨⟨0, 0⟩, ⟨0, 0⟩⟩
      base_word_diffs := []
      buffer_word_diffs := [] }]

end Model

end zed.buffer_diff
