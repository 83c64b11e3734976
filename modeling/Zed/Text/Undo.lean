import Zed.Text.Undo.Index
import Zed.Text.Undo.Walk

namespace zed.text

open zed.clock zed.rope
variable {content : AtomId → UInt8} {edited : Lamport → Prop}

theorem Fragment.undoWithin_atom_ids (undo_map : UndoMap) (timestamp : Lamport) (ids : List Locator)
    (fragment : Fragment) :
    (fragment.undoWithin undo_map timestamp ids).atoms.map Atom.id = fragment.atoms.map Atom.id := by
  unfold Fragment.undoWithin
  split
  · exact fragment.undo_ids
  · rfl

theorem Fragment.undoWithin_new (undo_map : UndoMap) (timestamp : Lamport) (ids : List Locator)
    (fragment : Fragment) :
    InsertionFragment.new (fragment.undoWithin undo_map timestamp ids) = InsertionFragment.new fragment := by
  obtain ⟨hid, htimestamp, hoffset, -, -⟩ := fragment.undoWithin_same undo_map timestamp ids
  simp only [InsertionFragment.new, hid, htimestamp, hoffset]

theorem Fragment.Covered.undoWithin {slices : List InsertionSlice} {fragment : Fragment}
    (h : fragment.Covered edited slices) (undo_map : UndoMap) (timestamp : Lamport) (ids : List Locator) :
    (fragment.undoWithin undo_map timestamp ids).Covered edited slices := by
  obtain ⟨-, htimestamp, hoffset, hlen, hdeletions⟩ := fragment.undoWithin_same undo_map timestamp ids
  intro edit_id hedit hedited
  rw [htimestamp, hdeletions] at hedit
  obtain ⟨slice, hslice, hcovers⟩ := h edit_id hedit hedited
  exact ⟨slice, hslice, hcovers.edit_id_eq, hcovers.insertion_id_eq.trans htimestamp.symm,
    hoffset ▸ hcovers.start_le, by rw [hoffset, hlen]; exact hcovers.le_stop⟩

namespace BufferSnapshot

variable {snapshot : BufferSnapshot}

def undoneIds (snapshot : BufferSnapshot) (undo : UndoOperation) : List Locator :=
  snapshot.fragment_ids_for_edits undo.counts.keys

def undoneFragments (snapshot : BufferSnapshot) (undo : UndoOperation) : List Fragment :=
  snapshot.fragments.map
    (Fragment.undoWithin (UndoMap.insert snapshot.undo_map undo) undo.timestamp (snapshot.undoneIds undo))

/-- An undo recomputes the visibility of the fragments of its edits. -/
structure Undo (content : AtomId → UInt8) (edited : Lamport → Prop) (snapshot : BufferSnapshot)
    (undo : UndoOperation) : Prop where
  undo_map : (snapshot.apply_undo undo).1.undo_map = UndoMap.insert snapshot.undo_map undo
  version : (snapshot.apply_undo undo).1.version = snapshot.version
  remote_id : (snapshot.apply_undo undo).1.remote_id = snapshot.remote_id
  replica_id : (snapshot.apply_undo undo).1.replica_id = snapshot.replica_id
  fragments : (snapshot.apply_undo undo).1.fragments = snapshot.undoneFragments undo
  store : (snapshot.apply_undo undo).1.Store content edited
  patch : (snapshot.apply_undo undo).2.Takes snapshot.visible_text (snapshot.apply_undo undo).1.visible_text
  found : ∀ fragment ∈ snapshot.fragments, ∀ edit_id ∈ fragment.timestamp :: fragment.deletions,
    edited edit_id → edit_id ∈ undo.counts.keys → fragment.id ∈ snapshot.undoneIds undo

theorem undoneFragments_ids (undo : UndoOperation) :
    (atoms (snapshot.undoneFragments undo)).map Atom.id = (atoms snapshot.fragments).map Atom.id := by
  simp only [undoneFragments, atoms, List.map_flatMap, List.flatMap_map, Fragment.undoWithin_atom_ids]

theorem apply_undo_spec (hstore : snapshot.Store content edited) (undo : UndoOperation) :
    Undo content edited snapshot undo := by
  let inserted : BufferSnapshot := { snapshot with undo_map := UndoMap.insert snapshot.undo_map undo }
  have hinserted : inserted.Store content edited :=
    { ordered := hstore.ordered
      len_pos := hstore.len_pos
      nodup := hstore.nodup
      insertions_sorted := hstore.insertions_sorted
      mem_insertions := hstore.mem_insertions
      slices_sorted := hstore.slices_sorted
      covered := hstore.covered
      visible_text := hstore.visible_text
      deleted_text := hstore.deleted_text }
  obtain ⟨hids, hmem, hfound⟩ := fragment_ids_for_edits_spec hinserted undo.counts.keys
  have hsameIds : inserted.fragment_ids_for_edits undo.counts.keys = snapshot.undoneIds undo := rfl
  rw [hsameIds] at hids hmem hfound
  let start : UndoWalk :=
    { old_fragments := sum_tree.Cursor.new snapshot.fragments
      new_fragments := []
      new_ropes := RopeBuilder.new snapshot.visible_text snapshot.deleted_text
      edits := [] }
  have hstart : start.Texts content snapshot.fragments :=
    { fragments := rfl
      ropes :=
        { old_visible := by simp [start, RopeBuilder.new, hstore.visible_text, sum_tree.Cursor.new, visibleBytes,
            bytes]
          old_deleted := by simp [start, RopeBuilder.new, hstore.deleted_text, sum_tree.Cursor.new, deletedBytes,
            bytes]
          new_visible := rfl
          new_deleted := rfl }
      patch := Patch.Leads.nil }
  obtain ⟨htexts, hfragments⟩ := foldl_undo_fragment inserted.undo_map undo.timestamp
    hids hmem hstore.ordered.increasing hstart
  generalize hlast : (snapshot.undoneIds undo).foldl _ start = last at htexts hfragments
  have hlastFragments : last.new_fragments ++ last.old_fragments.rest = snapshot.undoneFragments undo :=
    hfragments
  have hend := htexts.keep (List.append_nil _).symm
  have hpassed : last.old_fragments.passed ++ last.old_fragments.rest = snapshot.fragments := htexts.fragments
  have hropes := hend.ropes
  have hpatch := hend.patch.takes
  simp only [UndoWalk.keep, hpassed, hlastFragments] at hropes hpatch
  have hfinish := hropes.finish
  have happly : snapshot.apply_undo undo =
      ({ inserted with
          fragments := snapshot.undoneFragments undo
          visible_text := visibleBytes content (atoms (snapshot.undoneFragments undo))
          deleted_text := deletedBytes content (atoms (snapshot.undoneFragments undo)) }, last.edits) := by
    have hdef : snapshot.apply_undo undo =
        ({ inserted with
            fragments := last.new_fragments ++ last.old_fragments.rest
            visible_text := (last.new_ropes.append (summary last.old_fragments.rest).text).finish.1
            deleted_text := (last.new_ropes.append (summary last.old_fragments.rest).text).finish.2 },
          last.edits) := by
      rw [← hlast]
      rfl
    rw [hdef, hfinish, hlastFragments]
  have hids' : (snapshot.undoneFragments undo).map Fragment.id = snapshot.fragments.map Fragment.id := by
    rw [undoneFragments, List.map_map]
    exact List.map_congr_left fun fragment _ => (fragment.undoWithin_same _ _ _).1
  refine
    { undo_map := by rw [happly]
      version := by rw [happly]
      remote_id := by rw [happly]
      replica_id := by rw [happly]
      fragments := by rw [happly]
      store := ?_
      patch := ?_
      found := hfound }
  · rw [happly]
    refine
      { ordered := by
          rw [hids']
          exact hstore.ordered
        len_pos := ?_
        nodup := by
          rw [undoneFragments_ids]
          exact hstore.nodup
        insertions_sorted := hstore.insertions_sorted
        mem_insertions := ?_
        slices_sorted := hstore.slices_sorted
        covered := ?_
        visible_text := rfl
        deleted_text := rfl }
    · intro fragment hfragment
      obtain ⟨old, hold, rfl⟩ := List.mem_map.mp hfragment
      rw [(old.undoWithin_same _ _ _).2.2.2.1]
      exact hstore.len_pos old hold
    · intro insertion
      rw [hstore.mem_insertions insertion]
      constructor
      · rintro ⟨fragment, hfragment, rfl⟩
        exact ⟨_, List.mem_map_of_mem hfragment, fragment.undoWithin_new _ _ _⟩
      · rintro ⟨fragment, hfragment, rfl⟩
        obtain ⟨old, hold, rfl⟩ := List.mem_map.mp hfragment
        exact ⟨old, hold, (old.undoWithin_new _ _ _).symm⟩
    · intro fragment hfragment
      obtain ⟨old, hold, rfl⟩ := List.mem_map.mp hfragment
      exact (hstore.covered old hold).undoWithin _ _ _
  · rw [happly]
    dsimp only
    rw [hstore.visible_text]
    exact hpatch

end BufferSnapshot

end zed.text
