import Zed.BufferDiff.Pending
import Zed.Rope.Point

namespace zed.buffer_diff

open zed.rope (Point)

/-- A hunk of a diff. Its anchors are the elements of an order, as those of a pending hunk. -/
structure InternalDiffHunk (A : Type) where
  buffer_range : Range A
  diff_base_byte_range : Range Nat
  diff_base_point_range : Range Point
  base_word_diffs : List (Range Nat)
  buffer_word_diffs : List (Range A)
deriving DecidableEq

/-- The base texts of the two diffs are snapshots of one buffer, whose anchors are in the order of the new one. -/
structure BaseTexts (B : Type) [LinearOrder B] where
  new_len : Nat
  new_anchor_before : Nat → B
  new_anchor_after : Nat → B
  old_anchor_after : Nat → B
  /-- The offset in the new base text. -/
  to_offset : B → Nat
  to_offset_mono : Monotone to_offset
  before_to_offset : ∀ offset ≤ new_len, to_offset (new_anchor_before offset) = offset
  after_to_offset : ∀ offset ≤ new_len, to_offset (new_anchor_after offset) = offset

/-- The anchors around the edits in a range of the new buffer snapshot since the old one. -/
structure EditsSince (A : Type) [LinearOrder A] where
  anchored_edits_since_in_range : Range A → List (Range A)
  in_range : ∀ range, ∀ edit ∈ anchored_edits_since_in_range range, edit.start ≤ range.stop ∧ range.start ≤ edit.stop

/-- The variables of `compare_hunks`. -/
structure Comparison (A B : Type) where
  start : Option A
  stop : Option A
  base_text_start : Option B
  base_text_end : Option B
  last_unchanged_new_hunk_end : Option A
  has_changes : Bool
  extended_end_candidate : Option A

namespace Comparison

def initial {A B : Type} : Comparison A B :=
  { start := none
    stop := none
    base_text_start := none
    base_text_end := none
    last_unchanged_new_hunk_end := none
    has_changes := false
    extended_end_candidate := none }

end Comparison

def get_or_insert {α : Type} (option : Option α) (value : α) : Option α := some (option.getD value)

section Model

variable {A B : Type} [LinearOrder A] [BoundedOrder A] [LinearOrder B] (base_texts : BaseTexts B)

def compare_loop : List (InternalDiffHunk A) → List (InternalDiffHunk A) → Comparison A B → Comparison A B
  | new_hunk :: new_hunks, old_hunk :: old_hunks, s =>
    match compare new_hunk.buffer_range.start old_hunk.buffer_range.start with
    | .lt =>
      let new_diff_range_end := base_texts.new_anchor_after new_hunk.diff_base_byte_range.stop
      compare_loop new_hunks (old_hunk :: old_hunks)
        { s with
          has_changes := true
          extended_end_candidate := none
          start := get_or_insert s.start new_hunk.buffer_range.start
          base_text_start := get_or_insert s.base_text_start
            (base_texts.new_anchor_before new_hunk.diff_base_byte_range.start)
          stop := some new_hunk.buffer_range.stop
          base_text_end :=
            if s.base_text_end.all fun base_text_end => decide (new_diff_range_end > base_text_end) then
              some new_diff_range_end
            else s.base_text_end }
    | .eq =>
      if new_hunk ≠ old_hunk then
        let old_hunk_diff_base_range_end := base_texts.old_anchor_after old_hunk.diff_base_byte_range.stop
        let new_hunk_diff_base_range_end := base_texts.new_anchor_after new_hunk.diff_base_byte_range.stop
        compare_loop new_hunks old_hunks
          { s with
            has_changes := true
            extended_end_candidate := none
            start := get_or_insert s.start new_hunk.buffer_range.start
            base_text_start := get_or_insert s.base_text_start
              (base_texts.new_anchor_before new_hunk.diff_base_byte_range.start)
            stop :=
              if old_hunk.buffer_range.stop ≥ new_hunk.buffer_range.stop then some old_hunk.buffer_range.stop
              else some new_hunk.buffer_range.stop
            base_text_end := some (max old_hunk_diff_base_range_end new_hunk_diff_base_range_end) }
      else
        compare_loop new_hunks old_hunks
          (if s.has_changes = false then { s with last_unchanged_new_hunk_end := some new_hunk.buffer_range.stop }
          else if s.extended_end_candidate = none then
            { s with extended_end_candidate := some new_hunk.buffer_range.start }
          else s)
    | .gt =>
      let old_diff_range_end := base_texts.old_anchor_after old_hunk.diff_base_byte_range.stop
      compare_loop (new_hunk :: new_hunks) old_hunks
        { s with
          has_changes := true
          extended_end_candidate := none
          start := get_or_insert s.start old_hunk.buffer_range.start
          base_text_start := get_or_insert s.base_text_start
            (base_texts.old_anchor_after old_hunk.diff_base_byte_range.start)
          stop := some old_hunk.buffer_range.stop
          base_text_end :=
            if s.base_text_end.all fun base_text_end => decide (old_diff_range_end > base_text_end) then
              some old_diff_range_end
            else s.base_text_end }
  | new_hunk :: new_hunks, [], s =>
    let new_base_text_end := base_texts.new_anchor_after new_hunk.diff_base_byte_range.stop
    compare_loop new_hunks []
      { s with
        has_changes := true
        extended_end_candidate := none
        start := get_or_insert s.start new_hunk.buffer_range.start
        base_text_start := get_or_insert s.base_text_start
          (base_texts.new_anchor_after new_hunk.diff_base_byte_range.start)
        stop :=
          if s.stop.all fun stop => decide (stop ≤ new_hunk.buffer_range.stop) then some new_hunk.buffer_range.stop
          else s.stop
        base_text_end :=
          if s.base_text_end.all fun base_text_end => decide (new_base_text_end > base_text_end) then
            some new_base_text_end
          else s.base_text_end }
  | [], old_hunk :: old_hunks, s =>
    let old_base_text_end := base_texts.old_anchor_after old_hunk.diff_base_byte_range.stop
    compare_loop [] old_hunks
      { s with
        has_changes := true
        extended_end_candidate := none
        start := get_or_insert s.start old_hunk.buffer_range.start
        base_text_start := get_or_insert s.base_text_start
          (base_texts.old_anchor_after old_hunk.diff_base_byte_range.start)
        stop :=
          if s.stop.all fun stop => decide (stop ≤ old_hunk.buffer_range.stop) then some old_hunk.buffer_range.stop
          else s.stop
        base_text_end :=
          if s.base_text_end.all fun base_text_end => decide (old_base_text_end > base_text_end) then
            some old_base_text_end
          else s.base_text_end }
  | [], [], s => s
termination_by new_hunks old_hunks => new_hunks.length + old_hunks.length

variable (edits : EditsSince A)

/-- The extended range of a changed one. -/
def extend (s : Comparison A B) (changed_range : Range A) : Range A :=
  let extended_start := min (s.last_unchanged_new_hunk_end.getD ⊥) changed_range.start
  let extended_start := (((edits.anchored_edits_since_in_range ⟨extended_start, changed_range.start⟩).map
    Range.start).min?).getD changed_range.start
  let extended_end := max (s.extended_end_candidate.getD ⊤) changed_range.stop
  let extended_end := (((edits.anchored_edits_since_in_range ⟨changed_range.stop, extended_end⟩).map
    Range.stop).max?).getD changed_range.stop
  ⟨extended_start, extended_end⟩

def compare_hunks (new_hunks old_hunks : List (InternalDiffHunk A)) : DiffChanged A :=
  let s := compare_loop base_texts new_hunks old_hunks .initial
  let changed_range :=
    match s.start, s.stop with
    | some start, some stop => some ⟨start, stop⟩
    | _, _ => none
  let base_text_changed_range :=
    match s.base_text_start, s.base_text_end with
    | some start, some stop => some ⟨base_texts.to_offset start, base_texts.to_offset stop⟩
    | _, _ => none
  { changed_range
    base_text_changed_range
    extended_range := if s.has_changes then changed_range.map (extend edits s) else none
    base_text_changed := false }

end Model

end zed.buffer_diff
