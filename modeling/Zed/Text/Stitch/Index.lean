import Zed.Text.Stitch.Order

namespace zed.text

open zed.clock zed.rope

/-- A slice that records that an edit inserted or deleted all of a fragment. -/
structure InsertionSlice.Covers (slice : InsertionSlice) (edit_id : Lamport) (fragment : Fragment) : Prop where
  edit_id_eq : slice.edit_id = edit_id
  insertion_id_eq : slice.insertion_id = fragment.timestamp
  start_le : slice.range.start ≤ fragment.insertion_offset
  le_stop : fragment.insertion_offset + fragment.len ≤ slice.range.stop

/-- Each of the given edits that inserted or deleted the fragment has a slice for it. -/
def Fragment.Covered (edited : Lamport → Prop) (slices : List InsertionSlice) (fragment : Fragment) : Prop :=
  ∀ edit_id ∈ fragment.timestamp :: fragment.deletions, edited edit_id →
    ∃ slice ∈ slices, slice.Covers edit_id fragment

theorem Fragment.Covered.mono {edited : Lamport → Prop} {slices more : List InsertionSlice}
    {fragment : Fragment} (h : fragment.Covered edited slices) (hsub : ∀ slice ∈ slices, slice ∈ more) :
    fragment.Covered edited more := fun edit_id hedit hedited =>
  (h edit_id hedit hedited).imp fun slice hslice => ⟨hsub slice hslice.1, hslice.2⟩

theorem InsertionSlice.covers_from_fragment (edit_id : Lamport) (fragment : Fragment) :
    (InsertionSlice.from_fragment edit_id fragment).Covers edit_id fragment :=
  ⟨rfl, rfl, le_rfl, le_rfl⟩

theorem Fragment.Covered.part {edited : Lamport → Prop} {slices : List InsertionSlice}
    {fragment part : Fragment} (h : fragment.Covered edited slices)
    (htimestamp : part.timestamp = fragment.timestamp)
    (hdeletions : part.deletions = fragment.deletions)
    (hstart : fragment.insertion_offset ≤ part.insertion_offset)
    (hstop : part.insertion_offset + part.len ≤ fragment.insertion_offset + fragment.len) :
    part.Covered edited slices := by
  intro edit_id hedit hedited
  rw [htimestamp, hdeletions] at hedit
  obtain ⟨slice, hslice, hcovers⟩ := h edit_id hedit hedited
  exact ⟨slice, hslice, hcovers.edit_id_eq, hcovers.insertion_id_eq.trans htimestamp.symm,
    hcovers.start_le.trans hstart, hstop.trans hcovers.le_stop⟩

theorem Fragment.Covered.delete {edited : Lamport → Prop} {slices : List InsertionSlice}
    {fragment deleted : Fragment} (h : fragment.Covered edited slices) {timestamp : Lamport}
    (htimestamp : deleted.timestamp = fragment.timestamp)
    (hdeletions : deleted.deletions = fragment.deletions ++ [timestamp])
    (hstart : deleted.insertion_offset = fragment.insertion_offset) (hlen : deleted.len = fragment.len) :
    deleted.Covered edited (slices ++ [InsertionSlice.from_fragment timestamp deleted]) := by
  intro edit_id hedit hedited
  rw [htimestamp, hdeletions, ← List.cons_append] at hedit
  rcases List.mem_append.mp hedit with hold | hnew
  · obtain ⟨slice, hslice, hcovers⟩ := h edit_id hold hedited
    refine ⟨slice, List.mem_append_left _ hslice, hcovers.edit_id_eq,
      hcovers.insertion_id_eq.trans htimestamp.symm, ?_, ?_⟩
    · rw [hstart]
      exact hcovers.start_le
    · rw [hstart, hlen]
      exact hcovers.le_stop
  · rw [List.mem_singleton.mp hnew]
    exact ⟨_, List.mem_append_right _ (List.mem_singleton_self _),
      InsertionSlice.covers_from_fragment timestamp deleted⟩

namespace Walk

variable {gauge : Gauge} {timestamp : Lamport} {content : AtomId → UInt8} {w last : Walk} {taken given : List Atom}

/-- How the pieces produced so far are recorded: which of them were re-indexed
    and sliced, and that no start of an old fragment has disappeared. -/
structure Indexed (gauge : Gauge) (timestamp : Lamport) (old : List Fragment) (w : Walk) : Prop where
  insertions : ∃ sub : List Fragment, sub.Sublist w.new_fragments ∧
    w.new_insertions = sub.map InsertionFragment.insert_new
  slices : ∃ sub : List Fragment, sub.Sublist w.new_fragments ∧
    w.insertion_slices = sub.map (InsertionSlice.from_fragment timestamp)
  reindexed : ∀ fragment ∈ w.new_fragments,
    InsertionFragment.insert_new fragment ∈ w.new_insertions ∨ fragment ∈ old
  starts : ∀ fragment, (fragment ∈ w.old_fragments.passed ∨
    w.old_fragments.start gauge.len < w.fragment_start ∧ w.old_fragments.item = some fragment) →
      ∃ new ∈ w.new_fragments, (InsertionFragment.new new).key = (InsertionFragment.new fragment).key

private theorem sublist_snoc {α β : Type} {f : α → β} {xs : List α} {ys : List β}
    (h : ∃ sub : List α, sub.Sublist xs ∧ ys = sub.map f) (more : List α) :
    ∃ sub : List α, sub.Sublist (xs ++ more) ∧ ys ++ more.map f = sub.map f := by
  obtain ⟨sub, hsub, rfl⟩ := h
  exact ⟨sub ++ more, hsub.append (List.Sublist.refl more), by rw [List.map_append]⟩

private theorem sublist_extend {α β : Type} {f : α → β} {xs : List α} {ys : List β}
    (h : ∃ sub : List α, sub.Sublist xs ∧ ys = sub.map f) (more : List α) :
    ∃ sub : List α, sub.Sublist (xs ++ more) ∧ ys = sub.map f := by
  obtain ⟨sub, hsub, rfl⟩ := h
  exact ⟨sub, hsub.trans (List.sublist_append_left xs more), rfl⟩

theorem Stitch.indexed {old : List Fragment} (h : Stitch gauge timestamp content w last taken given)
    (hold : ∀ fragment ∈ w.old_fragments.rest, fragment ∈ old ∧ 0 < fragment.len)
    (hw : w.Indexed gauge timestamp old) : last.Indexed gauge timestamp old := by
  cases h with
  | @pass fragment rest reindex hrest hstart =>
    have hmem : fragment ∈ w.old_fragments.rest := by simp [hrest]
    have hnext := start_next gauge hrest
    refine ⟨?_, sublist_extend hw.slices [fragment], ?_, ?_⟩
    · cases reindex with
      | false => exact sublist_extend hw.insertions [fragment]
      | true => exact sublist_snoc hw.insertions [fragment]
    · intro other hother
      rcases List.mem_append.mp hother with hother | hother
      · rcases hw.reindexed other hother with hindexed | hkept
        · refine Or.inl ?_
          cases reindex with
          | false => exact hindexed
          | true => exact List.mem_append_left _ hindexed
        · exact Or.inr hkept
      · rw [List.mem_singleton.mp hother]
        exact Or.inr (hold fragment hmem).1
    · intro other hother
      simp only [Walk.pass, next_cons hrest, List.mem_append, List.mem_singleton] at hother
      rcases hother with (hpassed | rfl) | ⟨hlt, _⟩
      · obtain ⟨new, hnew, hkey⟩ := hw.starts other (Or.inl hpassed)
        exact ⟨new, List.mem_append_left _ hnew, hkey⟩
      · exact ⟨other, List.mem_append_right _ (List.mem_singleton_self other), rfl⟩
      · rw [← next_cons hrest] at hlt
        omega
  | @cut fragment rest part_end delete hrest hcounted hplaced hlt hle =>
    refine ⟨sublist_snoc hw.insertions [_], ?_, ?_, ?_⟩
    · cases delete with
      | false => exact sublist_extend hw.slices [_]
      | true => exact sublist_snoc hw.slices [_]
    · intro other hother
      rcases List.mem_append.mp hother with hother | hother
      · rcases hw.reindexed other hother with hindexed | hkept
        · exact Or.inl (List.mem_append_left _ hindexed)
        · exact Or.inr hkept
      · rw [List.mem_singleton.mp hother]
        exact Or.inl (List.mem_append_right _ (List.mem_singleton_self _))
    · rintro other (hpassed | ⟨_, hitem⟩)
      · obtain ⟨new, hnew, hkey⟩ := hw.starts other (Or.inl hpassed)
        exact ⟨new, List.mem_append_left _ hnew, hkey⟩
      · have hsame : w.old_fragments.item = some other := hitem
        rcases hplaced.start_le.lt_or_eq with hinto | hinto
        · obtain ⟨new, hnew, hkey⟩ := hw.starts other (Or.inr ⟨hinto, hsame⟩)
          exact ⟨new, List.mem_append_left _ hnew, hkey⟩
        · have hother : fragment = other := by simpa [sum_tree.Cursor.item, hrest] using hsame
          subst hother
          refine ⟨_, List.mem_append_right _ (List.mem_singleton_self _), ?_⟩
          simp [InsertionFragment.new, InsertionFragment.key, part, intersection, ← hinto]
  | @keepRest fragment rest hrest hcounted hplaced hlt =>
    have hnext := start_next gauge hrest
    have hend := stop_cons gauge hrest
    refine ⟨sublist_snoc hw.insertions [_], sublist_extend hw.slices [_], ?_, ?_⟩
    · intro other hother
      rcases List.mem_append.mp hother with hother | hother
      · rcases hw.reindexed other hother with hindexed | hkept
        · exact Or.inl (List.mem_append_left _ hindexed)
        · exact Or.inr hkept
      · rw [List.mem_singleton.mp hother]
        exact Or.inl (List.mem_append_right _ (List.mem_singleton_self _))
    · intro other hother
      simp only [Walk.keepRest, Walk.next, push_fragment, next_cons hrest, List.mem_append,
        List.mem_singleton] at hother
      rcases hother with (hpassed | rfl) | ⟨hgt, _⟩
      · obtain ⟨new, hnew, hkey⟩ := hw.starts other (Or.inl hpassed)
        exact ⟨new, List.mem_append_left _ hnew, hkey⟩
      · rcases hplaced.start_le.lt_or_eq with hinto | hinto
        · obtain ⟨new, hnew, hkey⟩ := hw.starts other
            (Or.inr ⟨hinto, by simp [sum_tree.Cursor.item, hrest]⟩)
          exact ⟨new, List.mem_append_left _ hnew, hkey⟩
        · refine ⟨_, List.mem_append_right _ (List.mem_singleton_self _), ?_⟩
          simp [InsertionFragment.new, InsertionFragment.key, suffix, ← hinto]
      · rw [← next_cons hrest] at hgt
        omega
  | @next fragment rest hrest hcounted hstop =>
    have hnext := start_next gauge hrest
    have hend := stop_cons gauge hrest
    have hlen : gauge.len fragment = fragment.len := if_pos hcounted
    have hpos := (hold fragment (by simp [hrest])).2
    refine ⟨hw.insertions, hw.slices, hw.reindexed, ?_⟩
    intro other hother
    simp only [Walk.next, next_cons hrest, List.mem_append, List.mem_singleton] at hother
    rcases hother with (hpassed | rfl) | ⟨hlt, _⟩
    · exact hw.starts other (Or.inl hpassed)
    · exact hw.starts other (Or.inr ⟨by omega, by simp [sum_tree.Cursor.item, hrest]⟩)
    · rw [← next_cons hrest] at hlt
      omega
  | insert new_text hplaced hcontent =>
    by_cases hne : new_text = []
    · rw [push_insertion, if_pos hne]
      exact hw
    · rw [push_insertion_eq _ _ _ _ hne]
      refine ⟨sublist_snoc hw.insertions _, sublist_snoc hw.slices _, ?_, ?_⟩
      · intro other hother
        rcases List.mem_append.mp hother with hother | hother
        · rcases hw.reindexed other hother with hindexed | hkept
          · exact Or.inl (List.mem_append_left _ hindexed)
          · exact Or.inr hkept
        · exact Or.inl (List.mem_append_right _ (List.mem_map_of_mem hother))
      · intro other hother
        obtain ⟨new, hnew, hkey⟩ := hw.starts other hother
        exact ⟨new, List.mem_append_left _ hnew, hkey⟩

def Sliced (edited : Lamport → Prop) (slices : List InsertionSlice) (w : Walk) : Prop :=
  ∀ fragment ∈ w.new_fragments, fragment.Covered edited (slices ++ w.insertion_slices)

theorem Stitch.sliced {edited : Lamport → Prop} {slices : List InsertionSlice}
    (h : Stitch gauge timestamp content w last taken given)
    (hold : ∀ fragment ∈ w.old_fragments.rest, fragment.Covered edited slices)
    (hw : w.Sliced edited slices) : last.Sliced edited slices := by
  cases h with
  | @pass fragment rest reindex hrest hstart =>
    intro other hother
    rcases List.mem_append.mp hother with hother | hother
    · exact hw other hother
    · rw [List.mem_singleton.mp hother]
      exact (hold fragment (by simp [hrest])).mono fun slice hslice => List.mem_append_left _ hslice
  | @cut fragment rest part_end delete hrest hcounted hplaced hlt hle =>
    have hstart := hplaced.start_le
    have hend := stop_cons gauge hrest
    have hlen : gauge.len fragment = fragment.len := if_pos hcounted
    have hfragment := hold fragment (by simp [hrest])
    intro other hother
    rcases List.mem_append.mp hother with hother | hother
    · refine (hw other hother).mono fun slice hslice => ?_
      simp only [List.mem_append] at hslice ⊢
      refine hslice.imp_right fun hslice => ?_
      change slice ∈ if delete then _ else _
      split
      · exact List.mem_append_left _ hslice
      · exact hslice
    · rw [List.mem_singleton.mp hother]
      have hpart : Fragment.Covered edited slices (w.intersection gauge.len part_end fragment) := by
        refine hfragment.part rfl rfl (Nat.le_add_right _ _) ?_
        simp only [intersection]
        omega
      cases delete with
      | false =>
        have hkept : (w.part gauge timestamp fragment part_end false).Covered edited slices :=
          hpart.part rfl rfl le_rfl le_rfl
        exact hkept.mono fun slice hslice => List.mem_append_left _ hslice
      | true =>
        have hdeleted : (w.part gauge timestamp fragment part_end true).Covered edited
            (slices ++ [InsertionSlice.from_fragment timestamp
              (w.part gauge timestamp fragment part_end true)]) := hpart.delete rfl rfl rfl rfl
        refine hdeleted.mono fun slice hslice => ?_
        rcases List.mem_append.mp hslice with hslice | hslice
        · exact List.mem_append_left _ hslice
        · exact List.mem_append_right _ (List.mem_append_right _ hslice)
  | @keepRest fragment rest hrest hcounted hplaced hlt =>
    have hstart := hplaced.start_le
    have hend := stop_cons gauge hrest
    have hlen : gauge.len fragment = fragment.len := if_pos hcounted
    intro other hother
    rcases List.mem_append.mp hother with hother | hother
    · exact hw other hother
    · rw [List.mem_singleton.mp hother]
      refine Fragment.Covered.mono ((hold fragment (by simp [hrest])).part rfl rfl (Nat.le_add_right _ _) ?_)
        fun slice hslice => List.mem_append_left _ hslice
      simp only [suffix]
      omega
  | next hrest hcounted hstop => exact hw
  | insert new_text hplaced hcontent =>
    by_cases hne : new_text = []
    · rw [push_insertion, if_pos hne]
      exact hw
    · rw [push_insertion_eq _ _ _ _ hne]
      intro other hother
      rcases List.mem_append.mp hother with hother | hother
      · refine (hw other hother).mono fun slice hslice => ?_
        simp only [List.mem_append] at hslice ⊢
        exact hslice.imp_right Or.inl
      · obtain ⟨htimestamp, hdeletions, -⟩ := mem_chunkFragments hother
        intro edit_id hedit _
        rw [htimestamp, hdeletions, List.mem_singleton] at hedit
        rw [hedit]
        refine ⟨InsertionSlice.from_fragment timestamp other, ?_,
          InsertionSlice.covers_from_fragment timestamp other⟩
        exact List.mem_append_right _ (List.mem_append_right _ (List.mem_map_of_mem hother))

theorem Stitches.indexed {old : List Fragment} (h : Stitches gauge timestamp content w last taken given)
    (hold : ∀ fragment ∈ w.old_fragments.rest, fragment ∈ old ∧ 0 < fragment.len)
    (hw : w.Indexed gauge timestamp old) :
    (∀ fragment ∈ last.old_fragments.rest, fragment ∈ old ∧ 0 < fragment.len) ∧
      last.Indexed gauge timestamp old := by
  induction h with
  | refl => exact ⟨hold, hw⟩
  | tail _ hstep ih => exact ⟨fun fragment hmem => ih.1 fragment (hstep.mem_rest hmem), hstep.indexed ih.1 ih.2⟩

theorem Stitches.sliced {edited : Lamport → Prop} {slices : List InsertionSlice}
    (h : Stitches gauge timestamp content w last taken given)
    (hold : ∀ fragment ∈ w.old_fragments.rest, fragment.Covered edited slices)
    (hw : w.Sliced edited slices) :
    (∀ fragment ∈ last.old_fragments.rest, fragment.Covered edited slices) ∧ last.Sliced edited slices := by
  induction h with
  | refl => exact ⟨hold, hw⟩
  | tail _ hstep ih => exact ⟨fun fragment hmem => ih.1 fragment (hstep.mem_rest hmem), hstep.sliced ih.1 ih.2⟩

end Walk

end zed.text
