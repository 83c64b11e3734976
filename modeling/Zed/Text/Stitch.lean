import Zed.Text.Atom

namespace zed.text

open zed.clock zed.rope

def insertedAtoms (timestamp : Lamport) (offset len : Nat) : List Atom :=
  (List.range len).map fun i =>
    { timestamp, offset := offset + i, visible := true, deletions := [], max_undos := Global.new }

namespace Walk

section position

variable (gauge : Gauge)

/-- How many atoms of the current fragment have been consumed. -/
def into (w : Walk) : Nat := w.fragment_start - w.old_fragments.start gauge.len

def doneAtoms (w : Walk) : List Atom :=
  atoms w.old_fragments.passed ++ (atoms w.old_fragments.rest).take (w.into gauge)

def leftAtoms (w : Walk) : List Atom := (atoms w.old_fragments.rest).drop (w.into gauge)

/-- The walk stands within the current fragment, or at the end. -/
structure Placed (w : Walk) : Prop where
  start_le : w.old_fragments.start gauge.len ≤ w.fragment_start
  le_stop : w.fragment_start ≤ w.old_fragments.stop gauge.len

end position

/-- The part of the current fragment up to a position, deleted or not. -/
def part (gauge : Gauge) (timestamp : Lamport) (w : Walk) (fragment : Fragment) (part_end : Nat)
    (delete : Bool) : Fragment :=
  { w.intersection gauge.len part_end fragment with
    deletions := if delete then fragment.deletions ++ [timestamp] else fragment.deletions
    visible := fragment.visible && !delete }

/-- The walk after the current fragment was kept as it is. -/
def pass (gauge : Gauge) (w : Walk) (fragment : Fragment) (reindex : Bool) : Walk :=
  { w with
    old_fragments := w.old_fragments.next
    fragment_start := w.fragment_start + gauge.len fragment
    new_fragments := w.new_fragments ++ [fragment]
    new_ropes := w.new_ropes.push_fragment fragment fragment.visible
    new_insertions :=
      if reindex then w.new_insertions ++ [InsertionFragment.insert_new fragment] else w.new_insertions }

/-- The walk after a part of the current fragment got an id of its own. -/
def cut (gauge : Gauge) (timestamp : Lamport) (w : Walk) (fragment : Fragment) (part_end : Nat)
    (delete : Bool) : Walk :=
  let part := w.part gauge timestamp fragment part_end delete
  { w.push_fragment part fragment.visible with
    fragment_start := part_end
    insertion_slices :=
      if delete then w.insertion_slices ++ [InsertionSlice.from_fragment timestamp part]
      else w.insertion_slices
    edits_patch :=
      if fragment.visible && delete then
        w.edits_patch.push
          { old := ⟨w.old_start gauge.len, w.old_start gauge.len + part.len⟩
            new := ⟨(summary w.new_fragments).text.visible, (summary w.new_fragments).text.visible⟩ }
      else w.edits_patch }

/-- The walk after the rest of a partially consumed fragment was kept. -/
def keepRest (gauge : Gauge) (w : Walk) (fragment : Fragment) : Walk :=
  { (w.push_fragment (w.suffix gauge.len fragment) fragment.visible).next with
    fragment_start := w.old_fragments.stop gauge.len }

/-- What one step of either walk can do, with the old atoms it consumes and the
    new atoms it produces. -/
inductive Stitch (gauge : Gauge) (timestamp : Lamport) (content : AtomId → UInt8) :
    Walk → Walk → List Atom → List Atom → Prop
  | pass {w : Walk} {fragment : Fragment} {rest : List Fragment} (reindex : Bool)
      (hrest : w.old_fragments.rest = fragment :: rest)
      (hstart : w.fragment_start = w.old_fragments.start gauge.len) :
      Stitch gauge timestamp content w (w.pass gauge fragment reindex) fragment.atoms fragment.atoms
  | cut {w : Walk} {fragment : Fragment} {rest : List Fragment} {part_end : Nat} (delete : Bool)
      (hrest : w.old_fragments.rest = fragment :: rest) (hcounted : gauge.counted fragment = true)
      (hplaced : w.Placed gauge) (hlt : w.fragment_start < part_end)
      (hle : part_end ≤ w.old_fragments.stop gauge.len) :
      Stitch gauge timestamp content w (w.cut gauge timestamp fragment part_end delete)
        ((w.leftAtoms gauge).take (part_end - w.fragment_start))
        (w.part gauge timestamp fragment part_end delete).atoms
  | keepRest {w : Walk} {fragment : Fragment} {rest : List Fragment}
      (hrest : w.old_fragments.rest = fragment :: rest) (hcounted : gauge.counted fragment = true)
      (hplaced : w.Placed gauge) (hlt : w.fragment_start < w.old_fragments.stop gauge.len) :
      Stitch gauge timestamp content w (w.keepRest gauge fragment)
        ((w.leftAtoms gauge).take (w.old_fragments.stop gauge.len - w.fragment_start))
        (w.suffix gauge.len fragment).atoms
  | next {w : Walk} {fragment : Fragment} {rest : List Fragment}
      (hrest : w.old_fragments.rest = fragment :: rest) (hcounted : gauge.counted fragment = true)
      (hstop : w.fragment_start = w.old_fragments.stop gauge.len) :
      Stitch gauge timestamp content w w.next [] []
  | insert {w : Walk} (new_text : Str) (hplaced : w.Placed gauge)
      (hcontent : bytes content (insertedAtoms timestamp w.insertion_offset (utf8 new_text).length) =
        utf8 new_text) :
      Stitch gauge timestamp content w (w.push_insertion (w.old_start gauge.len) new_text timestamp) []
        (insertedAtoms timestamp w.insertion_offset (utf8 new_text).length)

/-- Any number of steps. -/
inductive Stitches (gauge : Gauge) (timestamp : Lamport) (content : AtomId → UInt8) :
    Walk → Walk → List Atom → List Atom → Prop
  | refl (w : Walk) : Stitches gauge timestamp content w w [] []
  | tail {w mid last : Walk} {consumed produced taken given : List Atom}
      (h : Stitches gauge timestamp content w mid consumed produced)
      (hstep : Stitch gauge timestamp content mid last taken given) :
      Stitches gauge timestamp content w last (consumed ++ taken) (produced ++ given)

namespace Stitches

variable {gauge : Gauge} {timestamp : Lamport} {content : AtomId → UInt8}

theorem single {w last : Walk} {taken given : List Atom} (h : Stitch gauge timestamp content w last taken given) :
    Stitches gauge timestamp content w last taken given := by
  have htail := Stitches.tail (.refl w) h
  simpa using htail

theorem trans {w mid last : Walk} {consumed produced taken given : List Atom}
    (h : Stitches gauge timestamp content w mid consumed produced)
    (h' : Stitches gauge timestamp content mid last taken given) :
    Stitches gauge timestamp content w last (consumed ++ taken) (produced ++ given) := by
  induction h' with
  | refl => simpa using h
  | tail _ hstep ih =>
    rw [← List.append_assoc, ← List.append_assoc]
    exact ih.tail hstep

end Stitches

section atoms

variable {gauge : Gauge}

theorem done_append_left (gauge : Gauge) (w : Walk) :
    w.doneAtoms gauge ++ w.leftAtoms gauge = zed.text.atoms (w.old_fragments.passed ++ w.old_fragments.rest) := by
  rw [doneAtoms, leftAtoms, List.append_assoc, List.take_append_drop, atoms_append]

theorem stop_cons (gauge : Gauge) {w : Walk} {fragment : Fragment} {rest : List Fragment}
    (hrest : w.old_fragments.rest = fragment :: rest) :
    w.old_fragments.stop gauge.len = w.old_fragments.start gauge.len + gauge.len fragment := by
  simp [sum_tree.Cursor.stop, sum_tree.Cursor.item, hrest]

theorem stop_nil (gauge : Gauge) {w : Walk} (hrest : w.old_fragments.rest = []) :
    w.old_fragments.stop gauge.len = w.old_fragments.start gauge.len := by
  simp [sum_tree.Cursor.stop, sum_tree.Cursor.item, hrest]

theorem next_cons {w : Walk} {fragment : Fragment} {rest : List Fragment}
    (hrest : w.old_fragments.rest = fragment :: rest) :
    w.old_fragments.next = { passed := w.old_fragments.passed ++ [fragment], rest } := by
  simp [sum_tree.Cursor.next, hrest]

theorem start_next (gauge : Gauge) {w : Walk} {fragment : Fragment} {rest : List Fragment}
    (hrest : w.old_fragments.rest = fragment :: rest) :
    w.old_fragments.next.start gauge.len = w.old_fragments.start gauge.len + gauge.len fragment := by
  rw [next_cons hrest]
  simp [sum_tree.Cursor.start]

theorem leftAtoms_of_start {w : Walk} (hstart : w.fragment_start = w.old_fragments.start gauge.len) :
    w.leftAtoms gauge = zed.text.atoms w.old_fragments.rest := by
  rw [leftAtoms, into, hstart, Nat.sub_self, List.drop_zero]

theorem leftAtoms_cons {w : Walk} {fragment : Fragment} {rest : List Fragment}
    (hrest : w.old_fragments.rest = fragment :: rest) (hcounted : gauge.counted fragment = true)
    (hplaced : w.Placed gauge) :
    w.leftAtoms gauge = fragment.atoms.drop (w.into gauge) ++ zed.text.atoms rest := by
  have hle := hplaced.le_stop
  have hlen : gauge.len fragment = fragment.len := if_pos hcounted
  rw [stop_cons gauge hrest] at hle
  rw [leftAtoms, hrest, atoms_cons, List.drop_append_of_le_length]
  rw [Fragment.atoms_length, into]
  omega

theorem mem_atoms_of_take {w : Walk} {fragment : Fragment} {rest : List Fragment}
    (hrest : w.old_fragments.rest = fragment :: rest) (hcounted : gauge.counted fragment = true)
    (hplaced : w.Placed gauge) {part_end : Nat} (hle : part_end ≤ w.old_fragments.stop gauge.len) :
    ∀ atom ∈ (w.leftAtoms gauge).take (part_end - w.fragment_start), atom ∈ fragment.atoms := by
  have hstart := hplaced.start_le
  have hlen : gauge.len fragment = fragment.len := if_pos hcounted
  have hinto : w.into gauge = w.fragment_start - w.old_fragments.start gauge.len := rfl
  have hend := stop_cons gauge hrest
  rw [leftAtoms_cons hrest hcounted hplaced, List.take_append_of_le_length (by
    rw [List.length_drop, Fragment.atoms_length]
    omega)]
  exact fun atom hatom => List.mem_of_mem_drop (List.mem_of_mem_take hatom)

theorem part_atoms (timestamp : Lamport) {w : Walk} {fragment : Fragment} {rest : List Fragment} {part_end : Nat} (delete : Bool)
    (hrest : w.old_fragments.rest = fragment :: rest) (hcounted : gauge.counted fragment = true)
    (hplaced : w.Placed gauge) (hle : part_end ≤ w.old_fragments.stop gauge.len) :
    (w.part gauge timestamp fragment part_end delete).atoms =
      ((w.leftAtoms gauge).take (part_end - w.fragment_start)).map
        (if delete then Atom.delete timestamp else id) := by
  have hstart := hplaced.start_le
  have hstop := hplaced.le_stop
  have hlen : gauge.len fragment = fragment.len := if_pos hcounted
  have hinto : w.into gauge = w.fragment_start - w.old_fragments.start gauge.len := rfl
  rw [stop_cons gauge hrest] at hle hstop
  have hpart := fragment.atoms_part (Locator.between (summary w.new_fragments).max_id fragment.id)
    (w.into gauge) (part_end - w.fragment_start) (by omega)
  rw [leftAtoms_cons hrest hcounted hplaced, List.take_append_of_le_length (by
    rw [List.length_drop, Fragment.atoms_length]
    omega), ← hpart]
  cases delete with
  | false => simp [part, intersection, into]
  | true =>
    have hdelete := Fragment.atoms_delete (w.intersection gauge.len part_end fragment) timestamp
    simpa [part, intersection, into] using hdelete

theorem suffix_atoms {w : Walk} {fragment : Fragment} {rest : List Fragment}
    (hrest : w.old_fragments.rest = fragment :: rest) (hcounted : gauge.counted fragment = true)
    (hplaced : w.Placed gauge) :
    (w.suffix gauge.len fragment).atoms =
      (w.leftAtoms gauge).take (w.old_fragments.stop gauge.len - w.fragment_start) := by
  have hstart := hplaced.start_le
  have hstop := hplaced.le_stop
  have hlen : gauge.len fragment = fragment.len := if_pos hcounted
  have hinto : w.into gauge = w.fragment_start - w.old_fragments.start gauge.len := rfl
  have hend := stop_cons gauge hrest
  have hpart := fragment.atoms_part fragment.id (w.into gauge)
    (w.old_fragments.stop gauge.len - w.fragment_start) (by omega)
  rw [leftAtoms_cons hrest hcounted hplaced, List.take_append_of_le_length (by
    rw [List.length_drop, Fragment.atoms_length]
    omega), ← hpart]
  rfl

end atoms

end Walk

end zed.text
