import Zed.Text.Chunks

namespace zed.text.Walk

open zed.clock zed.rope

variable {gauge : Gauge} {timestamp : Lamport} {content : AtomId → UInt8} {w last : Walk} {taken given : List Atom}

/-- At the position the current fragment ends, only the fragments after it are left. -/
private theorem left_of_stop {fragment : Fragment} {rest : List Fragment}
    (hrest : w.old_fragments.rest = fragment :: rest) (hcounted : gauge.counted fragment = true)
    (hplaced : w.Placed gauge) :
    (w.leftAtoms gauge).drop (w.old_fragments.stop gauge.len - w.fragment_start) = atoms rest := by
  have hstart := hplaced.start_le
  have hstop := hplaced.le_stop
  have hlen : gauge.len fragment = fragment.len := if_pos hcounted
  have hinto : w.into gauge = w.fragment_start - w.old_fragments.start gauge.len := rfl
  have hend := stop_cons gauge hrest
  rw [leftAtoms_cons hrest hcounted hplaced, List.drop_append, List.drop_drop, List.length_drop,
    Fragment.atoms_length, List.drop_eq_nil_of_le (by rw [Fragment.atoms_length]; omega),
    List.nil_append]
  have hzero : w.old_fragments.stop gauge.len - w.fragment_start - (fragment.len - w.into gauge) = 0 := by
    omega
  rw [hzero, List.drop_zero]

theorem Stitch.old_fragments (h : Stitch gauge timestamp content w last taken given) :
    last.old_fragments.passed ++ last.old_fragments.rest =
      w.old_fragments.passed ++ w.old_fragments.rest := by
  cases h with
  | pass reindex hrest hstart => simp [Walk.pass, next_cons hrest, hrest]
  | cut delete hrest hcounted hplaced hlt hle => rfl
  | keepRest hrest hcounted hplaced hlt => simp [Walk.keepRest, Walk.next, push_fragment, next_cons hrest, hrest]
  | next hrest hcounted hstop => simp [Walk.next, next_cons hrest, hrest]
  | insert new_text hplaced hcontent =>
    by_cases hne : new_text = []
    · rw [push_insertion, if_pos hne]
    · rw [push_insertion_eq _ _ _ _ hne]

theorem Stitch.placed (h : Stitch gauge timestamp content w last taken given) : last.Placed gauge := by
  cases h with
  | @pass fragment rest reindex hrest hstart =>
    have hnext := start_next gauge hrest
    refine ⟨?_, ?_⟩
    · change w.old_fragments.next.start gauge.len ≤ w.fragment_start + gauge.len fragment
      omega
    · change w.fragment_start + gauge.len fragment ≤ w.old_fragments.next.stop gauge.len
      unfold sum_tree.Cursor.stop
      omega
  | cut delete hrest hcounted hplaced hlt hle => exact ⟨hplaced.start_le.trans hlt.le, hle⟩
  | @keepRest fragment rest hrest hcounted hplaced hlt =>
    have hnext := start_next gauge hrest
    have hend := stop_cons gauge hrest
    refine ⟨?_, ?_⟩
    · change w.old_fragments.next.start gauge.len ≤ w.old_fragments.stop gauge.len
      omega
    · change w.old_fragments.stop gauge.len ≤ w.old_fragments.next.stop gauge.len
      rw [sum_tree.Cursor.stop.eq_def gauge.len w.old_fragments.next]
      omega
  | @next fragment rest hrest hcounted hstop =>
    have hnext := start_next gauge hrest
    have hend := stop_cons gauge hrest
    refine ⟨?_, ?_⟩
    · change w.old_fragments.next.start gauge.len ≤ w.fragment_start
      omega
    · change w.fragment_start ≤ w.old_fragments.next.stop gauge.len
      unfold sum_tree.Cursor.stop at *
      omega
  | insert new_text hplaced hcontent =>
    by_cases hne : new_text = []
    · rw [push_insertion, if_pos hne]
      exact hplaced
    · rw [push_insertion_eq _ _ _ _ hne]
      exact ⟨hplaced.start_le, hplaced.le_stop⟩

/-- A step consumes what it takes from the atoms that were left. -/
theorem Stitch.left (h : Stitch gauge timestamp content w last taken given) :
    w.leftAtoms gauge = taken ++ last.leftAtoms gauge := by
  cases h with
  | @pass fragment rest reindex hrest hstart =>
    have hnext := start_next gauge hrest
    rw [leftAtoms_of_start hstart, hrest, atoms_cons, leftAtoms_of_start (by
      change w.fragment_start + gauge.len fragment = w.old_fragments.next.start gauge.len
      omega)]
    simp [Walk.pass, next_cons hrest]
  | @cut fragment rest part_end delete hrest hcounted hplaced hlt hle =>
    have hstart := hplaced.start_le
    have hlast : (w.cut gauge timestamp fragment part_end delete).leftAtoms gauge =
        (w.leftAtoms gauge).drop (part_end - w.fragment_start) := by
      unfold leftAtoms
      rw [List.drop_drop]
      congr 1
      change part_end - w.old_fragments.start gauge.len = w.into gauge + (part_end - w.fragment_start)
      unfold into
      omega
    rw [hlast, List.take_append_drop]
  | @keepRest fragment rest hrest hcounted hplaced hlt =>
    have hnext := start_next gauge hrest
    have hend := stop_cons gauge hrest
    have hlast : (w.keepRest gauge fragment).leftAtoms gauge = atoms rest := by
      rw [leftAtoms_of_start (by
        change w.old_fragments.stop gauge.len = w.old_fragments.next.start gauge.len
        omega)]
      change atoms w.old_fragments.next.rest = atoms rest
      rw [next_cons hrest]
    rw [hlast, ← left_of_stop hrest hcounted hplaced, List.take_append_drop]
  | @next fragment rest hrest hcounted hstop =>
    have hnext := start_next gauge hrest
    have hend := stop_cons gauge hrest
    have hlast : w.next.leftAtoms gauge = atoms rest := by
      rw [leftAtoms_of_start (by
        change w.fragment_start = w.old_fragments.next.start gauge.len
        omega)]
      change atoms w.old_fragments.next.rest = atoms rest
      rw [next_cons hrest]
    have hplaced : w.Placed gauge := ⟨by omega, by omega⟩
    have hleft := left_of_stop hrest hcounted hplaced
    rw [← hstop, Nat.sub_self, List.drop_zero] at hleft
    rw [hlast, hleft, List.nil_append]
  | insert new_text hplaced hcontent =>
    by_cases hne : new_text = []
    · rw [push_insertion, if_pos hne, List.nil_append]
    · rw [push_insertion_eq _ _ _ _ hne, List.nil_append]
      rfl

theorem Stitch.new (h : Stitch gauge timestamp content w last taken given) :
    atoms last.new_fragments = atoms w.new_fragments ++ given := by
  cases h with
  | pass reindex hrest hstart => simp [Walk.pass]
  | cut delete hrest hcounted hplaced hlt hle => simp [Walk.cut, push_fragment]
  | keepRest hrest hcounted hplaced hlt => simp [Walk.keepRest, Walk.next, push_fragment]
  | next hrest hcounted hstop => simp [Walk.next]
  | insert new_text hplaced hcontent =>
    by_cases hne : new_text = []
    · rw [push_insertion, if_pos hne, hne]
      simp [insertedAtoms, utf8]
    · rw [push_insertion_eq _ _ _ _ hne]
      simp [chunks_atoms]

theorem Stitch.done (h : Stitch gauge timestamp content w last taken given) :
    last.doneAtoms gauge = w.doneAtoms gauge ++ taken := by
  have hlast := done_append_left gauge last
  rw [h.old_fragments, ← done_append_left gauge w, h.left, ← List.append_assoc] at hlast
  exact List.append_cancel_right hlast

/-- Only an insertion produces more atoms than it consumes. -/
theorem Stitch.insertion_offset (h : Stitch gauge timestamp content w last taken given) :
    last.insertion_offset + taken.length = w.insertion_offset + given.length := by
  cases h with
  | pass reindex hrest hstart => rfl
  | cut delete hrest hcounted hplaced hlt hle =>
    rw [part_atoms timestamp delete hrest hcounted hplaced hle, List.length_map]
    rfl
  | keepRest hrest hcounted hplaced hlt =>
    rw [suffix_atoms hrest hcounted hplaced]
    rfl
  | next hrest hcounted hstop => rfl
  | insert new_text hplaced hcontent =>
    by_cases hne : new_text = []
    · rw [push_insertion, if_pos hne, hne]
      rfl
    · rw [push_insertion_eq _ _ _ _ hne]
      simp [insertedAtoms]

namespace Stitches

theorem insertion_offset (h : Stitches gauge timestamp content w last taken given) :
    last.insertion_offset + taken.length = w.insertion_offset + given.length := by
  induction h with
  | refl => rfl
  | tail _ hstep ih =>
    have := hstep.insertion_offset
    rw [List.length_append, List.length_append]
    omega

theorem old_fragments (h : Stitches gauge timestamp content w last taken given) :
    last.old_fragments.passed ++ last.old_fragments.rest =
      w.old_fragments.passed ++ w.old_fragments.rest := by
  induction h with
  | refl => rfl
  | tail _ hstep ih => exact hstep.old_fragments.trans ih

theorem placed (h : Stitches gauge timestamp content w last taken given) (hplaced : w.Placed gauge) :
    last.Placed gauge := by
  cases h with
  | refl => exact hplaced
  | tail _ hstep => exact hstep.placed

theorem left (h : Stitches gauge timestamp content w last taken given) :
    w.leftAtoms gauge = taken ++ last.leftAtoms gauge := by
  induction h with
  | refl => rfl
  | tail _ hstep ih => rw [ih, hstep.left, List.append_assoc]

theorem new (h : Stitches gauge timestamp content w last taken given) :
    atoms last.new_fragments = atoms w.new_fragments ++ given := by
  induction h with
  | refl => simp
  | tail _ hstep ih => rw [hstep.new, ih, List.append_assoc]

theorem done (h : Stitches gauge timestamp content w last taken given) :
    last.doneAtoms gauge = w.doneAtoms gauge ++ taken := by
  induction h with
  | refl => simp
  | tail _ hstep ih => rw [hstep.done, ih, List.append_assoc]

/-- Steps that come back to the same walk have taken nothing. -/
theorem taken_nil (h : Stitches gauge timestamp content w w taken given) : taken = [] :=
  List.self_eq_append_right.mp h.done

end Stitches

/-- The position is the number of counted atoms before it. -/
theorem Placed.fragment_start_eq (h : w.Placed gauge) :
    w.fragment_start = ((w.doneAtoms gauge).filter gauge.obs).length := by
  have hstart := h.start_le
  have hstop := h.le_stop
  have hpassed : ((atoms w.old_fragments.passed).filter gauge.obs).length =
      w.old_fragments.start gauge.len := gauge.atoms_length _
  rw [doneAtoms, List.filter_append, List.length_append, hpassed]
  have hinto : w.into gauge = w.fragment_start - w.old_fragments.start gauge.len := rfl
  suffices hcount : (((atoms w.old_fragments.rest).take (w.into gauge)).filter gauge.obs).length =
      w.into gauge by omega
  cases hrest : w.old_fragments.rest with
  | nil =>
    rw [stop_nil gauge hrest] at hstop
    simp
    omega
  | cons fragment rest =>
    rw [stop_cons gauge hrest] at hstop
    rcases gauge.len_cases fragment with ⟨hcounted, hlen⟩ | ⟨_, hlen⟩
    · rw [atoms_cons, List.take_append_of_le_length (by rw [Fragment.atoms_length]; omega),
        List.filter_eq_self.mpr fun atom hatom =>
          (gauge.agree fragment atom (List.mem_of_mem_take hatom)).trans hcounted,
        List.length_take, Fragment.atoms_length]
      omega
    · have hzero : w.into gauge = 0 := by omega
      rw [hzero]
      rfl

end zed.text.Walk
