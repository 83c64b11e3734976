import Zed.Text.Mirror.Undo

namespace zed.text

open zed.clock zed.rope
open zed.sum_tree (Sorted)

namespace Buffer

theorem foldl_push_base_chunk (timestamp : Lamport) (lens : List Nat) (w : BaseWalk) :
    (lens.foldl (push_base_chunk timestamp) w).fragments =
        w.fragments ++ chunkFragments timestamp Locator.max w.prev_locator w.insertion_offset lens ∧
      (lens.foldl (push_base_chunk timestamp) w).insertions =
        w.insertions ++ (chunkFragments timestamp Locator.max w.prev_locator w.insertion_offset lens).map
          InsertionFragment.new := by
  induction lens generalizing w with
  | nil => simp [chunkFragments]
  | cons len lens ih =>
    obtain ⟨hfragments, hinsertions⟩ := ih (push_base_chunk timestamp w len)
    rw [List.foldl_cons, hfragments, hinsertions]
    simp [push_base_chunk, chunkFragments]

end Buffer

namespace Ledger

def start (base : Rope) : Ledger := { base, records := [] }

variable {base : Rope}

theorem start_payload (timestamp : Lamport) :
    (start base).payload timestamp = if timestamp = baseTimestamp then base else [] := rfl

theorem start_not_counts {undo_id edit_id : Lamport} {count : Nat} :
    ¬ (start base).Counts undo_id edit_id count := by
  rintro ⟨record, hfind, -⟩
  cases hfind

theorem start_not_deletes {deletion : Lamport} {id : AtomId} : ¬ (start base).Deletes deletion id := by
  rintro ⟨record, hfind, -⟩
  cases hfind

theorem start_lawful : (start base).Lawful :=
  { distinct := List.nodup_nil
    base_fresh := fun _ _ hrecord => absurd hrecord List.not_mem_nil
    admits := fun _ hrecord => absurd hrecord List.not_mem_nil }

private theorem inserted_ids (timestamp : Lamport) (offset len : Nat) :
    (insertedAtoms timestamp offset len).map Atom.id =
      (List.range len).map fun i => (timestamp, offset + i) := by
  rw [insertedAtoms, List.map_map]
  rfl

private theorem start_bytes (base : Rope) :
    bytes (start base).content (insertedAtoms baseTimestamp 0 base.length) = base := by
  apply List.ext_getElem
  · simp [bytes, insertedAtoms]
  · intro i hi hi'
    simp [bytes, insertedAtoms, content, start_payload, Atom.id, hi']

theorem new_mirrors (replica_id remote_id : Nat) (normalized : Str) :
    (start (utf8 normalized)).Mirrors (Buffer.new_normalized replica_id remote_id normalized).snapshot := by
  by_cases hempty : utf8 normalized = []
  · have hsnapshot : (Buffer.new_normalized replica_id remote_id normalized).snapshot =
        { visible_text := [], deleted_text := [], fragments := [], insertions := [], insertion_slices := [],
          undo_map := [], version := Global.new, remote_id, replica_id } := by
      simp [Buffer.new_normalized, hempty]
    rw [hsnapshot, hempty]
    refine
      { version := ?_
        store := ?_
        lists := ?_
        deletions := fun atom hatom => absurd hatom List.not_mem_nil
        undo_sorted := List.Pairwise.nil
        undos := fun edit_id undo_id count => ?_
        visible := fun atom hatom => absurd hatom List.not_mem_nil
        max_undos := fun atom hatom => absurd hatom List.not_mem_nil }
    · exact ⟨fun hbase => absurd rfl hbase, fun _ hrecord => absurd hrecord List.not_mem_nil,
        fun replica => Or.inl (Global.new_get replica)⟩
    · refine ⟨⟨List.Pairwise.nil, fun id hid => absurd hid List.not_mem_nil⟩,
        fun fragment hfragment => absurd hfragment List.not_mem_nil, List.nodup_nil, List.Pairwise.nil,
        fun insertion => ?_, List.Pairwise.nil, fun fragment hfragment => absurd hfragment List.not_mem_nil, rfl, rfl⟩
      simp
    · refine ⟨fun timestamp => ?_, fun before n after hsplit => ?_⟩
      · simp [inserted, start_payload]
      · simp at hsplit
    · exact iff_of_false List.not_mem_nil fun h => start_not_counts h.2
  · have hfold := Buffer.foldl_push_base_chunk baseTimestamp (chunk_lens (utf8 normalized) 0)
      { fragments := [], insertions := [], insertion_offset := 0, prev_locator := Locator.min }
    obtain ⟨hfragments, hinsertions⟩ := hfold
    rw [List.nil_append] at hfragments hinsertions
    generalize hchunks : chunkFragments baseTimestamp Locator.max Locator.min 0
      (chunk_lens (utf8 normalized) 0) = chunks at hfragments hinsertions
    have hatoms : atoms chunks = insertedAtoms baseTimestamp 0 (utf8 normalized).length := by
      rw [← hchunks, chunkFragments_atoms, chunk_lens_sum normalized (Nat.zero_le _), Nat.sub_zero]
    have hsnapshot : (Buffer.new_normalized replica_id remote_id normalized).snapshot =
        { visible_text := utf8 normalized, deleted_text := [], fragments := chunks,
          insertions := chunks.map InsertionFragment.new, insertion_slices := [], undo_map := [],
          version := Global.new.observe baseTimestamp, remote_id, replica_id } := by
      rw [← hinsertions, ← hfragments]
      simp only [Buffer.new_normalized, if_neg hempty]
      rfl
    rw [hsnapshot]
    have hlen : ∀ fragment ∈ chunks, 0 < fragment.len := by
      rw [← hchunks]
      intro fragment hfragment
      exact chunk_lens_pos _ _ _ (mem_chunkFragments hfragment).2.2.2.2
    have hnodup : ((atoms chunks).map Atom.id).Nodup := by
      rw [hatoms, inserted_ids]
      exact List.nodup_range.map fun i j heq => by simpa using heq
    have hatom : ∀ atom ∈ atoms chunks, atom.timestamp = baseTimestamp ∧ atom.visible = true ∧
        atom.deletions = [] ∧ atom.offset < (utf8 normalized).length := by
      intro atom hmem
      rw [hatoms] at hmem
      obtain ⟨i, hi, rfl⟩ := mem_insertedAtoms.mp hmem
      exact ⟨rfl, rfl, rfl, by simpa using hi⟩
    have hself : (Global.new.observe baseTimestamp).observed baseTimestamp = true :=
      Global.observe_observed_self _ _
    refine
      { version := ?_
        store := ?_
        lists := ?_
        deletions := fun atom hmem deletion => ?_
        undo_sorted := List.Pairwise.nil
        undos := fun edit_id undo_id count => ?_
        visible := fun atom hmem => ?_
        max_undos := fun atom hmem edit_id hedit undo_id count hobserved hcounts =>
          absurd hcounts start_not_counts }
    · refine ⟨fun _ => hself, fun _ hrecord => absurd hrecord List.not_mem_nil, fun replica => ?_⟩
      rw [Global.observe_get, Global.new_get]
      split
      · rename_i heq
        subst heq
        exact Or.inr (Or.inr ⟨hempty, rfl⟩)
      · exact Or.inl rfl
    · refine
        { ordered := ?_
          len_pos := hlen
          nodup := hnodup
          insertions_sorted := ?_
          mem_insertions := fun insertion => List.mem_map
          slices_sorted := List.Pairwise.nil
          covered := fun fragment hfragment edit_id hedit hedited => ?_
          visible_text := ?_
          deleted_text := ?_ }
      · have hnil : Locator.Ordered ([] ++ []) :=
          ⟨List.Pairwise.nil, fun id hid => absurd hid List.not_mem_nil⟩
        have hordered := ordered_chunkFragments hnil baseTimestamp 0 (chunk_lens (utf8 normalized) 0)
        simpa [hchunks] using hordered
      · have hincreasing : ((atoms chunks).map Atom.id).Pairwise fun m n => m.1 = n.1 ∧ m.2 < n.2 := by
          rw [hatoms, inserted_ids, List.pairwise_map]
          exact List.pairwise_lt_range.imp fun hlt => ⟨rfl, by omega⟩
        have hstarts := hincreasing.sublist (starts_sublist hlen)
        rw [List.pairwise_map] at hstarts
        rw [Sorted, List.pairwise_map]
        exact hstarts.imp fun hlt => InsertionFragmentKey.lt_iff.mpr (Or.inr hlt)
      · have hmem : fragment ∈ chunks := hfragment
        rw [← hchunks] at hmem
        obtain ⟨htimestamp, hdeletions, -⟩ := mem_chunkFragments hmem
        rw [htimestamp, hdeletions, List.mem_singleton] at hedit
        obtain hbase | hne := hedited
        · exact absurd hbase hempty
        · exact absurd hedit hne
      · rw [visibleBytes_of_visible fun atom hmem => (hatom atom hmem).2.1, hatoms, start_bytes]
      · rw [deletedBytes_of_visible fun atom hmem => (hatom atom hmem).2.1]
    · have hids : (atoms chunks).map Atom.id = (start (utf8 normalized)).inserted baseTimestamp := by
        rw [hatoms, inserted_ids, inserted, start_payload, if_pos rfl]
        exact List.map_congr_left fun i _ => by rw [Nat.zero_add]
      refine ⟨fun timestamp => ?_, fun before n after hsplit => ?_⟩
      · change List.filter _ ((atoms chunks).map Atom.id) = _
        rw [hids]
        by_cases heq : timestamp = baseTimestamp
        · subst heq
          rw [if_pos hself, List.filter_eq_self]
          intro id hid
          exact decide_eq_true (mem_inserted.mp hid).1
        · have hnone : (start (utf8 normalized)).inserted timestamp = [] := by
            rw [inserted, start_payload, if_neg heq]
            rfl
          rw [hnone, ite_self, List.filter_eq_nil_iff]
          intro id hid hid'
          exact heq ((of_decide_eq_true hid').symm.trans (mem_inserted.mp hid).1)
      · -- the base text has no origins, and its offsets increase
        have hincreasing : ((atoms chunks).map Atom.id).Pairwise prior := by
          rw [hatoms, inserted_ids, List.pairwise_map]
          exact List.pairwise_lt_range.imp fun hlt => Or.inr ⟨rfl, by omega⟩
        change (atoms chunks).map Atom.id = before ++ n :: after at hsplit
        rw [hsplit, List.pairwise_append] at hincreasing
        exact fun m hm => hincreasing.2.2 m hm n List.mem_cons_self
    · rw [(hatom atom hmem).2.2.1]
      exact iff_of_false List.not_mem_nil fun h => start_not_deletes h.2
    · exact iff_of_false List.not_mem_nil fun h => start_not_counts h.2
    · obtain ⟨htimestamp, hvisible, -, hoffset⟩ := hatom atom hmem
      refine iff_of_true hvisible ⟨⟨?_, ?_⟩, not_undoneAt fun _ _ _ => start_not_counts, fun _ _ h =>
        absurd h start_not_deletes⟩
      · change (Global.new.observe baseTimestamp).observed atom.timestamp = true
        rw [htimestamp]
        exact hself
      · change atom.offset < ((start (utf8 normalized)).payload atom.timestamp).length
        rw [htimestamp, start_payload, if_pos rfl]
        exact hoffset

end Ledger

end zed.text
