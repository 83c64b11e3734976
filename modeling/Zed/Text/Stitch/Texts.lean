import Zed.Text.Stitch.Ropes

namespace zed.text.Walk

open zed.clock zed.rope

variable {gauge : Gauge} {timestamp : Lamport} {content : AtomId → UInt8} {w last : Walk}
  {taken given : List Atom}

theorem Placed.old_start_eq (h : w.Placed gauge) :
    w.old_start gauge.len = ((w.doneAtoms gauge).filter Atom.visible).length := by
  have hstart := h.start_le
  have hstop := h.le_stop
  have hinto : w.into gauge = w.fragment_start - w.old_fragments.start gauge.len := rfl
  have hpassed : ((atoms w.old_fragments.passed).filter Atom.visible).length =
      w.old_fragments.start Fragment.visible_len := Gauge.visible.atoms_length _
  rw [doneAtoms, List.filter_append, List.length_append, hpassed]
  unfold old_start sum_tree.Cursor.item
  cases hrest : w.old_fragments.rest with
  | nil => simp
  | cons fragment rest =>
    rw [stop_cons gauge hrest] at hstop
    simp only [List.head?_cons]
    have htake : (atoms (fragment :: rest)).take (w.into gauge) = fragment.atoms.take (w.into gauge) := by
      rw [atoms_cons, List.take_append_of_le_length]
      rw [Fragment.atoms_length]
      rcases gauge.len_cases fragment with ⟨_, hlen⟩ | ⟨_, hlen⟩ <;> omega
    have hvisible : ∀ atom ∈ fragment.atoms.take (w.into gauge), atom.visible = fragment.visible :=
      fun atom hatom => (Fragment.atoms_eq_of_mem (List.mem_of_mem_take hatom)).2.1
    rw [htake]
    split
    · rename_i hv
      rw [List.filter_eq_self.mpr fun atom hatom => (hvisible atom hatom).trans hv, List.length_take,
        Fragment.atoms_length]
      rcases gauge.len_cases fragment with ⟨_, hlen⟩ | ⟨_, hlen⟩ <;> omega
    · rename_i hv
      rw [List.filter_eq_nil_iff.mpr fun atom hatom h => hv ((hvisible atom hatom).symm.trans h)]
      rfl

/-- The ropes and the patch have come as far as the atoms. -/
structure Texts (gauge : Gauge) (content : AtomId → UInt8) (old : List Atom) (w : Walk) : Prop where
  ropes : w.new_ropes.Holds content old (w.doneAtoms gauge) (atoms w.new_fragments)
  patch : w.edits_patch.Leads (visibleBytes content (w.doneAtoms gauge))
    (visibleBytes content (atoms w.new_fragments))

private theorem Texts.push {old : List Atom} (hw : w.Texts gauge content old)
    (h : Stitch gauge timestamp content w last taken given) (hplaced : w.Placed gauge)
    (hold : atoms (w.old_fragments.passed ++ w.old_fragments.rest) = old) {was : Bool}
    (hwas : ∀ atom ∈ taken, atom.visible = was) (delete : Bool)
    (his : ∀ atom ∈ given, atom.visible = (was && !delete)) (hid : given.map Atom.id = taken.map Atom.id)
    (hropes : last.new_ropes = w.new_ropes.push taken.length was (was && !delete))
    (hpatch : last.edits_patch = if was && delete then
      w.edits_patch.push
        { old := ⟨w.old_start gauge.len, w.old_start gauge.len + taken.length⟩
          new := ⟨(summary w.new_fragments).text.visible, (summary w.new_fragments).text.visible⟩ }
      else w.edits_patch) : last.Texts gauge content old := by
  have hsplit : old = w.doneAtoms gauge ++ taken ++ last.leftAtoms gauge := by
    rw [← hold, ← done_append_left gauge w, h.left, List.append_assoc]
  refine ⟨?_, ?_⟩
  · rw [h.done, h.new, hropes]
    exact hw.ropes.push hsplit hwas his hid
  · rw [h.done, h.new, hpatch, visibleBytes_append, visibleBytes_append]
    cases was with
    | false =>
      have htaken : visibleBytes content taken = [] := visibleBytes_of_deleted hwas
      have hgiven : visibleBytes content given = [] := visibleBytes_of_deleted his
      rw [htaken, hgiven, List.append_nil, List.append_nil]
      exact hw.patch
    | true =>
      have htaken : visibleBytes content taken = bytes content taken := visibleBytes_of_visible hwas
      cases delete with
      | false =>
        have hgiven : visibleBytes content given = bytes content taken :=
          (visibleBytes_of_visible his).trans (bytes_congr hid)
        rw [htaken, hgiven]
        exact hw.patch.keep (bytes content taken)
      | true =>
        have hgiven : visibleBytes content given = [] := visibleBytes_of_deleted his
        have hreplace := hw.patch.replace (bytes content taken) []
        have hlen : (bytes content taken).length = taken.length := by simp [bytes]
        rw [visibleBytes_length, visibleBytes_length, ← summary_visible, ← hplaced.old_start_eq, hlen]
          at hreplace
        rw [htaken, hgiven]
        exact hreplace

theorem Stitch.texts {old : List Atom} (h : Stitch gauge timestamp content w last taken given)
    (hplaced : w.Placed gauge) (hold : atoms (w.old_fragments.passed ++ w.old_fragments.rest) = old)
    (hw : w.Texts gauge content old) : last.Texts gauge content old := by
  cases hstep : h with
  | @pass fragment rest reindex hrest hstart =>
    have hvisible : ∀ atom ∈ fragment.atoms, atom.visible = fragment.visible := fun atom hatom =>
      (Fragment.atoms_eq_of_mem hatom).2.1
    refine hw.push h hplaced hold hvisible false ?_ rfl ?_ ?_
    · simpa using hvisible
    · simp [Walk.pass, RopeBuilder.push_fragment]
    · simp [Walk.pass]
  | @cut fragment rest part_end delete hrest hcounted _ hlt hle =>
    have hatoms := part_atoms timestamp delete hrest hcounted hplaced hle
    have hlen : ((w.leftAtoms gauge).take (part_end - w.fragment_start)).length =
        (w.part gauge timestamp fragment part_end delete).len := by
      have := congrArg List.length hatoms
      rw [Fragment.atoms_length, List.length_map] at this
      exact this.symm
    refine hw.push h hplaced hold (?_ : ∀ atom ∈ _, Atom.visible atom = fragment.visible) delete
      (fun atom hatom => (Fragment.atoms_eq_of_mem hatom).2.1) ?_ ?_ ?_
    · exact fun atom hatom => (Fragment.atoms_eq_of_mem
        (mem_atoms_of_take hrest hcounted hplaced hle atom hatom)).2.1
    · rw [hatoms, List.map_map]
      cases delete <;> rfl
    · rw [hlen]
      rfl
    · rw [hlen]
      rfl
  | @keepRest fragment rest hrest hcounted _ hlt =>
    have hatoms := suffix_atoms hrest hcounted hplaced
    have hlen : ((w.leftAtoms gauge).take (w.old_fragments.stop gauge.len - w.fragment_start)).length =
        (w.suffix gauge.len fragment).len := by
      have := congrArg List.length hatoms
      rw [Fragment.atoms_length] at this
      exact this.symm
    have hvisible : ∀ atom ∈ (w.suffix gauge.len fragment).atoms, atom.visible = fragment.visible :=
      fun atom hatom => (Fragment.atoms_eq_of_mem hatom).2.1
    refine hw.push h hplaced hold (?_ : ∀ atom ∈ _, Atom.visible atom = fragment.visible) false ?_ ?_ ?_ ?_
    · rwa [← hatoms]
    · simpa using hvisible
    · rw [hatoms]
    · rw [hlen]
      simp [Walk.keepRest, Walk.next, push_fragment, RopeBuilder.push_fragment, suffix]
    · simp [Walk.keepRest, Walk.next, push_fragment]
  | @next fragment rest hrest hcounted hstop =>
    refine ⟨?_, ?_⟩
    · rw [h.done, h.new, List.append_nil, List.append_nil]
      exact hw.ropes
    · rw [h.done, h.new, List.append_nil, List.append_nil]
      exact hw.patch
  | insert new_text _ hcontent =>
    have hvisible : ∀ atom ∈ insertedAtoms timestamp w.insertion_offset (utf8 new_text).length,
        atom.visible = true := by
      intro atom hatom
      obtain ⟨i, _, rfl⟩ := List.mem_map.mp hatom
      rfl
    have hbytes := (visibleBytes_of_visible hvisible).trans hcontent
    by_cases hne : new_text = []
    · rw [push_insertion, if_pos hne]
      exact hw
    · have hdone := h.done
      have hnew := h.new
      rw [push_insertion_eq _ _ _ _ hne] at hdone hnew ⊢
      refine ⟨?_, ?_⟩
      · rw [hdone, hnew, List.append_nil]
        exact hw.ropes.push_str hvisible hcontent
      · have hreplace := hw.patch.replace [] (utf8 new_text)
        rw [visibleBytes_length, visibleBytes_length, ← summary_visible, ← hplaced.old_start_eq] at hreplace
        rw [hdone, hnew, List.append_nil, visibleBytes_append, hbytes]
        simpa using hreplace

theorem Stitches.texts {old : List Atom} (h : Stitches gauge timestamp content w last taken given)
    (hplaced : w.Placed gauge) (hold : atoms (w.old_fragments.passed ++ w.old_fragments.rest) = old)
    (hw : w.Texts gauge content old) : last.Texts gauge content old := by
  induction h with
  | refl => exact hw
  | tail h hstep ih =>
    refine hstep.texts (h.placed hplaced) ?_ ih
    rw [h.old_fragments, hold]

end zed.text.Walk
