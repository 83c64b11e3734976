import Zed.SumTree.Cursor
import Zed.Text.Locator
import Zed.Text.UndoMap

namespace zed.text

open zed.clock zed.rope

/-- The maximum length of a single insertion operation. Fragments larger than
    this will be split into multiple smaller fragments. -/
def MAX_INSERTION_LEN : Nat := 4294967295

structure Fragment where
  id : Locator
  timestamp : Lamport
  insertion_offset : Nat
  len : Nat
  visible : Bool
  deletions : List Lamport
  max_undos : Global
deriving DecidableEq

structure FragmentTextSummary where
  visible : Nat
  deleted : Nat
deriving DecidableEq

set_option linter.dupNamespace false in
structure FragmentSummary where
  text : FragmentTextSummary
  max_id : Locator
  max_version : Global
  min_insertion_version : Global
  max_insertion_version : Global

namespace FragmentSummary

def zero : FragmentSummary :=
  { text := { visible := 0, deleted := 0 }
    max_id := Locator.min
    max_version := Global.new
    min_insertion_version := Global.new
    max_insertion_version := Global.new }

def add_summary (summary other : FragmentSummary) : FragmentSummary :=
  { text :=
      { visible := summary.text.visible + other.text.visible
        deleted := summary.text.deleted + other.text.deleted }
    max_id := other.max_id
    max_version := summary.max_version.join other.max_version
    min_insertion_version := summary.min_insertion_version.meet other.min_insertion_version
    max_insertion_version := summary.max_insertion_version.join other.max_insertion_version }

end FragmentSummary

namespace Fragment

/-- Its insertion is not undone and every one of its deletions is. -/
def is_visible (fragment : Fragment) (undos : UndoMap) : Bool :=
  !UndoMap.is_undone undos fragment.timestamp &&
    fragment.deletions.all fun deletion => UndoMap.is_undone undos deletion

def was_visible (fragment : Fragment) (version : Global) (undos : UndoMap) : Bool :=
  (version.observed fragment.timestamp && !UndoMap.was_undone undos fragment.timestamp version) &&
    fragment.deletions.all fun deletion =>
      !version.observed deletion || UndoMap.was_undone undos deletion version

def max_version (fragment : Fragment) : Global :=
  (fragment.deletions.foldl Global.observe (Global.new.observe fragment.timestamp)).join
    fragment.max_undos

def visible_len (fragment : Fragment) : Nat := if fragment.visible then fragment.len else 0

def deleted_len (fragment : Fragment) : Nat := if fragment.visible then 0 else fragment.len

def summary (fragment : Fragment) : FragmentSummary :=
  { text := { visible := fragment.visible_len, deleted := fragment.deleted_len }
    max_id := fragment.id
    max_version := fragment.max_version
    min_insertion_version := Global.new.observe fragment.timestamp
    max_insertion_version := Global.new.observe fragment.timestamp }

/-- The length of a fragment in the full offsets of a version. -/
def versioned_len (version : Global) (fragment : Fragment) : Nat :=
  if version.observed fragment.timestamp then fragment.len else 0

theorem visible_len_add_deleted_len (fragment : Fragment) :
    fragment.visible_len + fragment.deleted_len = fragment.len := by
  unfold visible_len deleted_len
  split <;> omega

end Fragment

/-- A dimension that is only defined between fragments whose insertions are all
    observed, or all not. -/
inductive VersionedFullOffset
  | Offset (offset : Nat)
  | Invalid
deriving DecidableEq

namespace VersionedFullOffset

def add_summary (offset : VersionedFullOffset) (summary : FragmentSummary) (version : Global) :
    VersionedFullOffset :=
  match offset with
  | .Invalid => .Invalid
  | .Offset offset =>
    if version.observed_all summary.max_insertion_version then
      .Offset (offset + (summary.text.visible + summary.text.deleted))
    else if version.observed_any summary.min_insertion_version then .Invalid
    else .Offset offset

private theorem observed_all_observe_new (version : Global) (timestamp : Lamport) :
    version.observed_all (Global.new.observe timestamp) = version.observed timestamp := by
  rw [Bool.eq_iff_iff, Global.observed_all_iff, Global.observed_iff]
  simp only [Global.observe_get, Global.new_get]
  constructor
  · intro h
    have := h timestamp.replica_id
    rw [if_pos rfl] at this
    omega
  · intro h replica_id
    split
    · rename_i heq
      rw [heq]
      omega
    · omega

private theorem observed_any_observe_new {version : Global} {timestamp : Lamport}
    (h : version.observed_any (Global.new.observe timestamp) = true) :
    version.observed timestamp = true := by
  obtain ⟨replica_id, hpos, hle⟩ := Global.exists_of_observed_any h
  simp only [Global.observe_get, Global.new_get] at hpos hle
  rw [Global.observed_iff]
  split at hpos
  · rename_i heq
    rw [if_pos heq, heq] at hle
    omega
  · omega

end VersionedFullOffset

structure InsertionFragmentKey where
  timestamp : Lamport
  split_offset : Nat
deriving DecidableEq

instance : LinearOrder InsertionFragmentKey :=
  LinearOrder.lift' (fun key => toLex (key.timestamp, key.split_offset)) fun a b h => by
    cases a
    cases b
    simpa using h

theorem InsertionFragmentKey.lt_iff {a b : InsertionFragmentKey} :
    a < b ↔ a.timestamp < b.timestamp ∨ a.timestamp = b.timestamp ∧ a.split_offset < b.split_offset :=
  Prod.Lex.toLex_lt_toLex

theorem InsertionFragmentKey.le_iff {a b : InsertionFragmentKey} :
    a ≤ b ↔ a.timestamp < b.timestamp ∨ a.timestamp = b.timestamp ∧ a.split_offset ≤ b.split_offset :=
  Prod.Lex.toLex_le_toLex

structure InsertionFragment where
  timestamp : Lamport
  split_offset : Nat
  fragment_id : Locator
deriving DecidableEq

namespace InsertionFragment

def key (insertion : InsertionFragment) : InsertionFragmentKey :=
  { timestamp := insertion.timestamp, split_offset := insertion.split_offset }

def new (fragment : Fragment) : InsertionFragment :=
  { timestamp := fragment.timestamp
    split_offset := fragment.insertion_offset
    fragment_id := fragment.id }

end InsertionFragment

instance : sum_tree.KeyedItem InsertionFragment InsertionFragmentKey := ⟨InsertionFragment.key⟩

def InsertionFragment.insert_new (fragment : Fragment) :
    sum_tree.Edit InsertionFragment InsertionFragmentKey :=
  .Insert (InsertionFragment.new fragment)

/-- The part of an insertion that an edit inserted or deleted. -/
structure InsertionSlice where
  edit_id : Lamport
  insertion_id : Lamport
  range : Range
deriving DecidableEq

instance : LinearOrder InsertionSlice :=
  LinearOrder.lift'
    (fun slice => toLex (slice.edit_id, toLex (slice.insertion_id,
      toLex (slice.range.start, slice.range.stop)))) fun a b h => by
    obtain ⟨_, _, _, _⟩ := a
    obtain ⟨_, _, _, _⟩ := b
    simpa using h

instance : sum_tree.KeyedItem InsertionSlice InsertionSlice := ⟨id⟩

namespace InsertionSlice

def from_fragment (edit_id : Lamport) (fragment : Fragment) : InsertionSlice :=
  { edit_id
    insertion_id := fragment.timestamp
    range := ⟨fragment.insertion_offset, fragment.insertion_offset + fragment.len⟩ }

theorem edit_id_le_of_le (a b : InsertionSlice) (h : a ≤ b) : a.edit_id ≤ b.edit_id := by
  rcases Prod.Lex.toLex_le_toLex.mp h with hlt | heq
  · exact hlt.le
  · exact heq.1.le

end InsertionSlice

/-- `RopeBuilder`: the cursors of the old texts and the new texts. -/
structure RopeBuilder where
  old_visible_cursor : rope.Cursor
  old_deleted_cursor : rope.Cursor
  new_visible : Rope
  new_deleted : Rope

namespace RopeBuilder

def new (visible_text deleted_text : Rope) : RopeBuilder :=
  { old_visible_cursor := { text := visible_text, offset := 0 }
    old_deleted_cursor := { text := deleted_text, offset := 0 }
    new_visible := []
    new_deleted := [] }

def push (ropes : RopeBuilder) (len : Nat) (was_visible is_visible : Bool) : RopeBuilder :=
  let (text, ropes) :=
    if was_visible then
      let (text, cursor) := ropes.old_visible_cursor.slice (ropes.old_visible_cursor.offset + len)
      (text, { ropes with old_visible_cursor := cursor })
    else
      let (text, cursor) := ropes.old_deleted_cursor.slice (ropes.old_deleted_cursor.offset + len)
      (text, { ropes with old_deleted_cursor := cursor })
  if is_visible then { ropes with new_visible := ropes.new_visible ++ text }
  else { ropes with new_deleted := ropes.new_deleted ++ text }

def append (ropes : RopeBuilder) (len : FragmentTextSummary) : RopeBuilder :=
  (ropes.push len.visible true true).push len.deleted false false

def push_fragment (ropes : RopeBuilder) (fragment : Fragment) (was_visible : Bool) : RopeBuilder :=
  ropes.push fragment.len was_visible fragment.visible

def push_str (ropes : RopeBuilder) (text : Rope) : RopeBuilder :=
  { ropes with new_visible := ropes.new_visible ++ text }

def finish (ropes : RopeBuilder) : Rope × Rope :=
  (ropes.new_visible ++ ropes.old_visible_cursor.suffix,
    ropes.new_deleted ++ ropes.old_deleted_cursor.suffix)

end RopeBuilder

end zed.text
