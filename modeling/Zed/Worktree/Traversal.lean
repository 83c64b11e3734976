import Zed.SumTree.Tree.Target
import Zed.Worktree

namespace zed.worktree

open zed.path (RelPath)
open zed.sum_tree (Item SummaryMonoid Dimension LawfulDimension SumTree Seeker)

def EntryKind.is_file (kind : EntryKind) : Bool := kind = .File

namespace Entry

def is_dir (entry : Entry) : Bool := entry.kind.is_dir

def is_file (entry : Entry) : Bool := entry.kind.is_file

end Entry

structure EntrySummary where
  max_path : RelPath
  count : Nat
  non_ignored_count : Nat
  file_count : Nat
  non_ignored_file_count : Nat
  deferred_scan_dir_count : Nat

def Entry.summary (entry : Entry) : EntrySummary :=
  let non_ignored_count := if entry.is_ignored && !entry.is_always_included then 0 else 1
  let (file_count, non_ignored_file_count) := if entry.is_file then (1, non_ignored_count) else (0, 0)
  { max_path := entry.path
    count := 1
    non_ignored_count
    file_count
    non_ignored_file_count
    deferred_scan_dir_count :=
      if entry.kind = .UnloadedDir ∧ !entry.is_ignored ∧ !entry.is_external ∧ entry.path ≠ RelPath.empty then 1 else 0 }

/-- The greatest path of a sum is that of its last summand. -/
instance : SummaryMonoid EntrySummary where
  zero := ⟨RelPath.empty, 0, 0, 0, 0, 0⟩
  add_summary self rhs :=
    { max_path := rhs.max_path
      count := self.count + rhs.count
      non_ignored_count := self.non_ignored_count + rhs.non_ignored_count
      file_count := self.file_count + rhs.file_count
      non_ignored_file_count := self.non_ignored_file_count + rhs.non_ignored_file_count
      deferred_scan_dir_count := self.deferred_scan_dir_count + rhs.deferred_scan_dir_count }
  zero_add_summary summary := by simp
  add_summary_assoc first second third := by simp [Nat.add_assoc]

instance : Item Entry EntrySummary := ⟨Entry.summary⟩

structure TraversalProgress where
  max_path : RelPath
  count : Nat
  non_ignored_count : Nat
  file_count : Nat
  non_ignored_file_count : Nat

/-- How many of the entries so far a traversal includes. -/
def TraversalProgress.count_included (self : TraversalProgress) (include_files include_dirs include_ignored : Bool) :
    Nat :=
  match include_files, include_dirs, include_ignored with
  | true, true, true => self.count
  | true, true, false => self.non_ignored_count
  | true, false, true => self.file_count
  | true, false, false => self.non_ignored_file_count
  | false, true, true => self.count - self.file_count
  | false, true, false => self.non_ignored_count - self.non_ignored_file_count
  | false, false, _ => 0

instance : Dimension TraversalProgress EntrySummary where
  zero := ⟨RelPath.empty, 0, 0, 0, 0⟩
  add_summary self summary :=
    { max_path := summary.max_path
      count := self.count + summary.count
      non_ignored_count := self.non_ignored_count + summary.non_ignored_count
      file_count := self.file_count + summary.file_count
      non_ignored_file_count := self.non_ignored_file_count + summary.non_ignored_file_count }

instance : LawfulDimension TraversalProgress EntrySummary where
  add_add_summary position first second := by
    simp [Dimension.add_summary, zed.sum_tree.Summary.add_summary, Nat.add_assoc]

inductive PathTarget
  | Path (path : RelPath)
  | Successor (path : RelPath)

/-- A successor compares as equal with all that is not under its path, before it and after it. -/
def PathTarget.cmp_path (self : PathTarget) (other : RelPath) : Ordering :=
  match self with
  | .Path p => compare p other
  | .Successor p => if other.starts_with p then .gt else .eq

inductive TraversalTarget
  | Path (target : PathTarget)
  | Count (count : Nat) (include_files include_ignored include_dirs : Bool)

namespace TraversalTarget

def path (p : RelPath) : TraversalTarget := .Path (.Path p)

def successor (p : RelPath) : TraversalTarget := .Path (.Successor p)

def cmp_progress (self : TraversalTarget) (progress : TraversalProgress) : Ordering :=
  match self with
  | .Path target => target.cmp_path progress.max_path
  | .Count count include_files include_ignored include_dirs =>
    compare count (progress.count_included include_files include_dirs include_ignored)

end TraversalTarget

structure Traversal where
  cursor : Seeker Entry EntrySummary TraversalProgress
  include_ignored : Bool
  include_files : Bool
  include_dirs : Bool

namespace Traversal

variable (self : Traversal)

def entry : Option Entry := self.cursor.item

def start_offset : Nat :=
  self.cursor.start.count_included self.include_files self.include_dirs self.include_ignored

def end_offset : Nat :=
  self.cursor.stop.count_included self.include_files self.include_dirs self.include_ignored

def advance_by (count : Nat) : Option (Bool × Traversal) := do
  let target : TraversalTarget :=
    .Count (self.end_offset + count) self.include_files self.include_ignored self.include_dirs
  let (hit, cursor) ← self.cursor.seek_forward target.cmp_progress .Left
  return (hit, { self with cursor })

def advance : Option (Bool × Traversal) := self.advance_by 1

/-- The filter of `advance_to_sibling`. -/
def includes (entry : Entry) : Bool :=
  (self.include_files || !entry.is_file) && (self.include_dirs || !entry.is_dir) &&
    (self.include_ignored || !entry.is_ignored || entry.is_always_included)

/-- The loop of `advance_to_sibling`. -/
def sibling_loop : Nat → Traversal → Option (Bool × Traversal)
  | 0, _ => none
  | fuel + 1, self =>
    match self.entry with
    | none => some (false, self)
    | some entry => do
      let (_, cursor) ← self.cursor.seek_forward (TraversalTarget.successor entry.path).cmp_progress .Left
      let self := { self with cursor }
      if self.entry.any self.includes then return (true, self)
      else sibling_loop fuel self

/-- Every turn of the loop goes past an entry of the tree. -/
def advance_to_sibling : Option (Bool × Traversal) := sibling_loop (self.cursor.tree.elements.length + 1) self

/-- `Iterator::next` -/
def next : Option (Option Entry × Traversal) :=
  match self.entry with
  | some item => do
    let (_, traversal) ← self.advance
    return (some item, traversal)
  | none => some (none, self)

end Traversal

structure ChildEntriesOptions where
  include_files : Bool
  include_dirs : Bool
  include_ignored : Bool

structure ChildEntriesIter where
  parent_path : RelPath
  traversal : Traversal

/-- `Iterator::next` -/
def ChildEntriesIter.next (self : ChildEntriesIter) : Option (Option Entry × ChildEntriesIter) :=
  match self.traversal.entry with
  | some item =>
    if item.path.starts_with self.parent_path then do
      let (_, traversal) ← self.traversal.advance_to_sibling
      return (some item, { self with traversal })
    else some (none, self)
  | none => some (none, self)

section Snapshot

-- A snapshot is read only through its tree.
variable (entries_by_path : SumTree Entry EntrySummary)

def traverse_from_offset (include_files include_dirs include_ignored : Bool) (start_offset : Nat) : Option Traversal := do
  let cursor := Seeker.new entries_by_path.node
  let target : TraversalTarget := .Count start_offset include_files include_ignored include_dirs
  let (_, cursor) ← cursor.seek target.cmp_progress .Right
  return { cursor, include_files, include_dirs, include_ignored }

def child_entries_with_options (parent_path : RelPath) (options : ChildEntriesOptions) : Option ChildEntriesIter := do
  let cursor := Seeker.new entries_by_path.node
  let (_, cursor) ← cursor.seek (TraversalTarget.path parent_path).cmp_progress .Right
  let traversal : Traversal :=
    { cursor
      include_files := options.include_files
      include_dirs := options.include_dirs
      include_ignored := options.include_ignored }
  return { traversal, parent_path }

end Snapshot

end zed.worktree
