import Zed.SumTree.Cursor

namespace zed.buffer_diff

open zed.sum_tree (Bias Cursor)

/-- A half-open range `start..stop`. -/
structure Range (α : Type) where
  start : α
  stop : α
deriving DecidableEq

/-- `usize::MAX` -/
def usize.MAX : Nat := 2 ^ 64 - 1

inductive PendingSense
  /-- Override the secondary status of the matched hunk. -/
  | SetSecondaryStatus (stage : Bool)
  /-- Suppress the matched hunk entirely. -/
  | Suppress
deriving DecidableEq

/-- Anchors are the elements of an order, that of `Anchor::cmp`, with the ones of `min_for_buffer` and
    `max_for_buffer` at its ends. It is the same in every snapshot that has observed the anchors. -/
structure PendingHunk (A V : Type) where
  buffer_range : Range A
  diff_base_byte_range : Range Nat
  buffer_version : V
  sense : PendingSense
deriving DecidableEq

structure DiffHunkSummary (A : Type) where
  buffer_range : Range A
  diff_base_byte_range : Range Nat
  added_rows : Nat
  removed_rows : Nat

structure DiffChanged (A : Type) where
  changed_range : Option (Range A)
  base_text_changed_range : Option (Range Nat)
  extended_range : Option (Range A)
  base_text_changed : Bool
deriving DecidableEq

section Model

variable {A V : Type} [LinearOrder A] [BoundedOrder A]

def PendingHunk.summary (hunk : PendingHunk A V) : DiffHunkSummary A :=
  { buffer_range := hunk.buffer_range
    diff_base_byte_range := hunk.diff_base_byte_range
    added_rows := 0
    removed_rows := 0 }

namespace DiffHunkSummary

def zero : DiffHunkSummary A :=
  { buffer_range := ⟨⊥, ⊥⟩
    diff_base_byte_range := ⟨0, 0⟩
    added_rows := 0
    removed_rows := 0 }

def add_summary (self other : DiffHunkSummary A) : DiffHunkSummary A :=
  { buffer_range := ⟨min self.buffer_range.start other.buffer_range.start,
      max self.buffer_range.stop other.buffer_range.stop⟩
    diff_base_byte_range := ⟨min self.diff_base_byte_range.start other.diff_base_byte_range.start,
      max self.diff_base_byte_range.stop other.diff_base_byte_range.stop⟩
    added_rows := self.added_rows + other.added_rows
    removed_rows := self.removed_rows + other.removed_rows }

/-- `SeekTarget::cmp` of an anchor. -/
def seek_cmp (target : A) (cursor_location : DiffHunkSummary A) : Ordering :=
  if target < cursor_location.buffer_range.start then .lt
  else if target > cursor_location.buffer_range.stop then .gt
  else .eq

end DiffHunkSummary

def position (cursor : Cursor (PendingHunk A V)) : DiffHunkSummary A :=
  cursor.passed.foldl (fun summary hunk => summary.add_summary hunk.summary) .zero

/-- The hunks that a seek from a position passes. -/
def slice_from (target : A) (bias : Bias) :
    DiffHunkSummary A → List (PendingHunk A V) → List (PendingHunk A V) × List (PendingHunk A V)
  | _, [] => ([], [])
  | position, hunk :: hunks =>
    let stop := position.add_summary hunk.summary
    if DiffHunkSummary.seek_cmp target stop = .gt ∨ (DiffHunkSummary.seek_cmp target stop = .eq ∧ bias = .Right) then
      let (slice, rest) := slice_from target bias stop hunks
      (hunk :: slice, rest)
    else ([], hunk :: hunks)

/-- `cursor.slice(target, bias)` -/
def slice (cursor : Cursor (PendingHunk A V)) (target : A) (bias : Bias) :
    List (PendingHunk A V) × Cursor (PendingHunk A V) :=
  let (slice, rest) := slice_from target bias (position cursor) cursor.rest
  (slice, { passed := cursor.passed ++ slice, rest })

/-- The ranges that have changed so far. -/
structure Changed (A : Type) where
  changed_start : Option A
  changed_end : Option A
  base_start : Nat
  base_end : Nat

def extend_changed_range (changed : Changed A) (buffer_range : Range A) (base_range : Range Nat) : Changed A :=
  { changed_start := some (match changed.changed_start with
      | none => buffer_range.start
      | some start => min start buffer_range.start)
    changed_end := some (match changed.changed_end with
      | none => buffer_range.stop
      | some stop => max stop buffer_range.stop)
    base_start := min changed.base_start base_range.start
    base_end := max changed.base_end base_range.stop }

/-- The loop that drops the hunks which start at or before an anchor. -/
def drop_overlapping (hunk_end : A) :
    List (PendingHunk A V) → List (PendingHunk A V) → Changed A → Cursor (PendingHunk A V) × Changed A
  | passed, [], changed => ({ passed, rest := [] }, changed)
  | passed, old_hunk :: rest, changed =>
    if old_hunk.buffer_range.start > hunk_end then ({ passed, rest := old_hunk :: rest }, changed)
    else
      drop_overlapping hunk_end (passed ++ [old_hunk]) rest
        (extend_changed_range changed old_hunk.buffer_range old_hunk.diff_base_byte_range)

def merge_pending : List (PendingHunk A V) → List (PendingHunk A V) → Cursor (PendingHunk A V) → Changed A →
    List (PendingHunk A V) × Changed A
  | [], new_pending, old, changed => (new_pending ++ old.suffix, changed)
  | hunk :: hunks, new_pending, old, changed =>
    let (preceding, old) := slice old hunk.buffer_range.start .Left
    let (old, changed) := drop_overlapping hunk.buffer_range.stop old.passed old.rest changed
    merge_pending hunks (new_pending ++ preceding ++ [hunk]) old
      (extend_changed_range changed hunk.buffer_range hunk.diff_base_byte_range)

/-- The pending hunks of a diff, if it has a snapshot. -/
structure BufferDiff (A V : Type) where
  diff_snapshot : Option (List (PendingHunk A V))

/-- The event of a change, if there is one. -/
def set_pending_hunks (self : BufferDiff A V) (hunks : List (PendingHunk A V)) :
    BufferDiff A V × Option (DiffChanged A) :=
  if hunks = [] then (self, none)
  else
    match self.diff_snapshot with
    | none => (self, none)
    | some pending_hunks =>
      let (new_pending, changed) := merge_pending hunks [] (Cursor.new pending_hunks) ⟨none, none, usize.MAX, 0⟩
      let event :=
        match changed.changed_start, changed.changed_end with
        | some start, some stop =>
          some
            { changed_range := some ⟨start, stop⟩
              base_text_changed_range := some ⟨changed.base_start, changed.base_end⟩
              extended_range := some ⟨start, stop⟩
              base_text_changed := false }
        | _, _ => none
      (⟨some new_pending⟩, event)

def clear_pending_hunks (self : BufferDiff A V) : BufferDiff A V × Option (DiffChanged A) :=
  match self.diff_snapshot with
  | none => (self, none)
  | some pending_hunks =>
    match pending_hunks.head?, pending_hunks.getLast? with
    | some first, some last =>
      let changed_range : Range A := ⟨first.buffer_range.start, last.buffer_range.stop⟩
      (⟨some []⟩,
        some
          { changed_range := some changed_range
            base_text_changed_range := some ⟨first.diff_base_byte_range.start, last.diff_base_byte_range.stop⟩
            extended_range := some changed_range
            base_text_changed := false })
    | _, _ => (self, none)

end Model

end zed.buffer_diff
