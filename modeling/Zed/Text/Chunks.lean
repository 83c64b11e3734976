import Zed.Text.Stitch

namespace zed.text

open zed.clock zed.rope

theorem chunk_end_le (text : Rope) (text_offset : Nat) :
    chunk_end text text_offset ≤ text.length := by
  unfold chunk_end
  dsimp only
  split
  · omega
  · rename_i hne
    have hlt : min text.length (text_offset + MAX_INSERTION_LEN) < text.length := by omega
    have := floor_char_boundary_le text hlt
    omega

theorem lt_chunk_end (text : Str) {text_offset : Nat} (h : text_offset < (utf8 text).length) :
    text_offset < chunk_end (utf8 text) text_offset := by
  unfold chunk_end
  dsimp only
  split
  · omega
  · rename_i hne
    have hlt : min (utf8 text).length (text_offset + MAX_INSERTION_LEN) < (utf8 text).length := by omega
    have := lt_floor_char_boundary text hlt
    unfold MAX_INSERTION_LEN at *
    omega

theorem chunk_lens_sum (text : Str) {text_offset : Nat} (h : text_offset ≤ (utf8 text).length) :
    (chunk_lens (utf8 text) text_offset).sum = (utf8 text).length - text_offset := by
  fun_induction chunk_lens (utf8 text) text_offset with
  | case1 text_offset hlt ih =>
    have hle := chunk_end_le (utf8 text) text_offset
    rw [List.sum_cons, ih hle]
    omega
  | case2 text_offset hnot =>
    have heq : text_offset = (utf8 text).length := by
      by_contra hne
      exact hnot ⟨by omega, lt_chunk_end text (by omega)⟩
    simp [heq]

theorem chunk_lens_pos (text : Rope) (text_offset : Nat) : ∀ n ∈ chunk_lens text text_offset, 0 < n := by
  fun_induction chunk_lens text text_offset with
  | case1 text_offset hlt ih =>
    intro n hn
    rcases List.mem_cons.mp hn with rfl | hn
    · omega
    · exact ih n hn
  | case2 text_offset hnot => simp

/-- The fragments of an insertion with the given chunk lengths. -/
def chunkFragments (timestamp : Lamport) (next_fragment_id : Locator) :
    Locator → Nat → List Nat → List Fragment
  | _, _, [] => []
  | max_id, offset, len :: lens =>
    { id := Locator.between max_id next_fragment_id
      timestamp
      insertion_offset := offset
      len
      visible := true
      deletions := []
      max_undos := Global.new } ::
      chunkFragments timestamp next_fragment_id (Locator.between max_id next_fragment_id) (offset + len) lens

theorem insertedAtoms_add (timestamp : Lamport) (offset m n : Nat) :
    insertedAtoms timestamp offset (m + n) =
      insertedAtoms timestamp offset m ++ insertedAtoms timestamp (offset + m) n := by
  unfold insertedAtoms
  rw [List.range_add, List.map_append, List.map_map]
  congr 1
  apply List.map_congr_left
  intro i _
  simp [Nat.add_assoc]

theorem chunkFragments_atoms (timestamp : Lamport) (next_fragment_id max_id : Locator) (offset : Nat)
    (lens : List Nat) : atoms (chunkFragments timestamp next_fragment_id max_id offset lens) =
      insertedAtoms timestamp offset lens.sum := by
  induction lens generalizing max_id offset with
  | nil => rfl
  | cons len lens ih =>
    rw [chunkFragments, atoms_cons, ih, List.sum_cons, insertedAtoms_add]
    rfl

theorem mem_chunkFragments {timestamp : Lamport} {next_fragment_id max_id : Locator} {offset : Nat}
    {lens : List Nat} {fragment : Fragment}
    (h : fragment ∈ chunkFragments timestamp next_fragment_id max_id offset lens) :
    fragment.timestamp = timestamp ∧ fragment.deletions = [] ∧ fragment.visible = true ∧
      fragment.max_undos = Global.new ∧ fragment.len ∈ lens := by
  induction lens generalizing max_id offset with
  | nil => cases h
  | cons len lens ih =>
    rw [chunkFragments] at h
    rcases List.mem_cons.mp h with rfl | h
    · exact ⟨rfl, rfl, rfl, rfl, List.mem_cons_self⟩
    · obtain ⟨htimestamp, hdeletions, hvisible, hundos, hlen⟩ := ih h
      exact ⟨htimestamp, hdeletions, hvisible, hundos, List.mem_cons_of_mem len hlen⟩

namespace Walk

def chunks (timestamp : Lamport) (new_text : Str) (w : Walk) : List Fragment :=
  chunkFragments timestamp w.next_fragment_id (summary w.new_fragments).max_id w.insertion_offset
    (chunk_lens (utf8 new_text) 0)

private theorem foldl_push_chunk (timestamp : Lamport) (next_fragment_id : Locator) (lens : List Nat)
    (w : Walk) :
    lens.foldl (push_chunk timestamp next_fragment_id) w =
      let fragments := chunkFragments timestamp next_fragment_id (summary w.new_fragments).max_id
        w.insertion_offset lens
      { w with
        insertion_slices := w.insertion_slices ++ fragments.map (InsertionSlice.from_fragment timestamp)
        new_insertions := w.new_insertions ++ fragments.map InsertionFragment.insert_new
        new_fragments := w.new_fragments ++ fragments
        insertion_offset := w.insertion_offset + lens.sum } := by
  induction lens generalizing w with
  | nil => simp [chunkFragments]
  | cons len lens ih =>
    rw [List.foldl_cons, ih]
    have hmax : (summary (w.push_chunk timestamp next_fragment_id len).new_fragments).max_id =
        Locator.between (summary w.new_fragments).max_id next_fragment_id := by
      rw [push_chunk, summary_append]
      rfl
    rw [hmax]
    simp [push_chunk, chunkFragments, Nat.add_assoc]

theorem push_insertion_eq (old_start : Nat) (new_text : Str) (timestamp : Lamport) (w : Walk)
    (hne : new_text ≠ []) :
    w.push_insertion old_start new_text timestamp =
      { w with
        insertion_slices :=
          w.insertion_slices ++ (w.chunks timestamp new_text).map (InsertionSlice.from_fragment timestamp)
        new_insertions :=
          w.new_insertions ++ (w.chunks timestamp new_text).map InsertionFragment.insert_new
        new_fragments := w.new_fragments ++ w.chunks timestamp new_text
        insertion_offset := w.insertion_offset + (utf8 new_text).length
        new_ropes := w.new_ropes.push_str (utf8 new_text)
        edits_patch := w.edits_patch.push
          { old := ⟨old_start, old_start⟩
            new := ⟨(summary w.new_fragments).text.visible,
              (summary w.new_fragments).text.visible + (utf8 new_text).length⟩ } } := by
  have hsum := chunk_lens_sum new_text (Nat.zero_le _)
  rw [push_insertion, if_neg hne]
  unfold push_fragments_for_insertion
  rw [foldl_push_chunk, hsum]
  rfl

theorem push_insertion_position (old_start : Nat) (new_text : Str) (timestamp : Lamport) (w : Walk) :
    (w.push_insertion old_start new_text timestamp).fragment_start = w.fragment_start ∧
      (w.push_insertion old_start new_text timestamp).old_fragments = w.old_fragments := by
  by_cases hne : new_text = []
  · rw [push_insertion, if_pos hne]
    exact ⟨rfl, rfl⟩
  · rw [push_insertion_eq _ _ _ _ hne]
    exact ⟨rfl, rfl⟩

theorem chunks_atoms (timestamp : Lamport) (new_text : Str) (w : Walk) :
    zed.text.atoms (w.chunks timestamp new_text) =
      insertedAtoms timestamp w.insertion_offset (utf8 new_text).length := by
  rw [chunks, chunkFragments_atoms, chunk_lens_sum new_text (Nat.zero_le _), Nat.sub_zero]

end Walk

end zed.text
