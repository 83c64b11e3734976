import Zed.Text.Stitch.Spec

namespace zed.text

open zed.clock zed.rope

/-- Locators in the order of a fragment tree: strictly increasing, between the
    two extremes, and each a right neighbour that others fit before. -/
structure Locator.Ordered (ids : List Locator) : Prop where
  increasing : ids.Pairwise (· < ·)
  bounds : ∀ id ∈ ids, Locator.min < id ∧ id < Locator.max ∧ id.Proper

namespace Locator.Ordered

theorem sublist {ids other : List Locator} (h : Ordered ids) (hsub : other.Sublist ids) : Ordered other :=
  { increasing := h.increasing.sublist hsub
    bounds := fun id hid => h.bounds id (hsub.subset hid) }

/-- A locator between two neighbours can be put between them. -/
theorem insert {left right : List Locator} (h : Ordered (left ++ right)) :
    Ordered (left ++ Locator.between (left.getLast?.getD Locator.min) (right.headD Locator.max) :: right) := by
  obtain ⟨hleft, hright, hcross⟩ := List.pairwise_append.mp h.increasing
  have hnext_proper : (right.headD Locator.max).Proper := by
    cases right with
    | nil => exact Locator.max_proper
    | cons id right => exact (h.bounds id (by simp)).2.2
  have hnext_le : right.headD Locator.max ≤ Locator.max := by
    cases right with
    | nil => exact le_rfl
    | cons id right => exact (h.bounds id (by simp)).2.1.le
  have hlast_lt : left.getLast?.getD Locator.min < right.headD Locator.max := by
    rcases List.eq_nil_or_concat left with rfl | ⟨front, last, rfl⟩
    · cases right with
      | nil => decide
      | cons id right => exact (h.bounds id (by simp)).1
    · rw [List.concat_eq_append] at h hcross ⊢
      cases right with
      | nil => simpa using (h.bounds last (by simp)).2.1
      | cons id right => simpa using hcross last (by simp) id (by simp)
  have hle_last : ∀ id ∈ left, id ≤ left.getLast?.getD Locator.min := by
    rcases List.eq_nil_or_concat left with rfl | ⟨front, last, rfl⟩
    · simp
    · rw [List.concat_eq_append] at hleft ⊢
      intro id hid
      rcases List.mem_append.mp hid with hid | hid
      · simpa using ((List.pairwise_append.mp hleft).2.2 id hid last (by simp)).le
      · simp at hid
        simp [hid]
  have hge_next : ∀ id ∈ right, right.headD Locator.max ≤ id := by
    cases right with
    | nil => simp
    | cons first right =>
      intro id hid
      rcases List.mem_cons.mp hid with rfl | hid
      · exact le_rfl
      · exact ((List.pairwise_cons.mp hright).1 id hid).le
  have hmin : Locator.min ≤ left.getLast?.getD Locator.min := by
    rcases List.eq_nil_or_concat left with rfl | ⟨front, last, rfl⟩
    · exact le_rfl
    · rw [List.concat_eq_append] at h ⊢
      simpa using (h.bounds last (by simp)).1.le
  have hlow := Locator.lt_between (left.getLast?.getD Locator.min) (right.headD Locator.max)
  have hhigh := Locator.between_lt hlast_lt hnext_proper
  constructor
  · refine List.pairwise_append.mpr ⟨hleft, List.pairwise_cons.mpr ⟨?_, hright⟩, ?_⟩
    · exact fun id hid => hhigh.trans_le (hge_next id hid)
    · intro id hid other hother
      rcases List.mem_cons.mp hother with rfl | hother
      · exact (hle_last id hid).trans_lt hlow
      · exact hcross id hid other hother
  · intro id hid
    rcases List.mem_append.mp hid with hid | hid
    · exact h.bounds id (by simp [hid])
    · rcases List.mem_cons.mp hid with rfl | hid
      · exact ⟨hmin.trans_lt hlow, hhigh.trans_le hnext_le, Locator.between_proper _ _⟩
      · exact h.bounds id (by simp [hid])

end Locator.Ordered

theorem summary_max_id_eq (fragments : List Fragment) :
    (summary fragments).max_id = (fragments.map Fragment.id).getLast?.getD Locator.min := by
  rw [summary_max_id, List.getLast?_map]

theorem ordered_chunkFragments {left right : List Locator} (h : Locator.Ordered (left ++ right))
    (timestamp : Lamport) (offset : Nat) (lens : List Nat) :
    Locator.Ordered (left ++ (chunkFragments timestamp (right.headD Locator.max)
      (left.getLast?.getD Locator.min) offset lens).map Fragment.id ++ right) := by
  induction lens generalizing left offset with
  | nil => simpa [chunkFragments] using h
  | cons len lens ih =>
    have hfirst := h.insert
    rw [List.append_cons] at hfirst
    have hrest := ih hfirst (offset + len)
    rw [List.getLast?_concat, Option.getD_some] at hrest
    rw [chunkFragments, List.map_cons, List.append_cons]
    exact hrest

namespace Walk

variable {gauge : Gauge} {timestamp : Lamport} {content : AtomId → UInt8} {w last : Walk} {taken given : List Atom}

/-- The locators of the new fragments, and of the old ones still to come. -/
def ids (w : Walk) : List Locator :=
  w.new_fragments.map Fragment.id ++ w.old_fragments.rest.map Fragment.id

private theorem next_fragment_id_eq (w : Walk) :
    w.next_fragment_id = (w.old_fragments.rest.map Fragment.id).headD Locator.max := by
  unfold next_fragment_id sum_tree.Cursor.item
  cases w.old_fragments.rest <;> rfl

theorem Stitch.ordered (h : Stitch gauge timestamp content w last taken given) (hw : Locator.Ordered w.ids) :
    Locator.Ordered last.ids := by
  cases h with
  | @pass fragment rest reindex hrest hstart =>
    rw [ids, hrest] at hw
    simpa [ids, Walk.pass, next_cons hrest] using hw
  | @cut fragment rest part_end delete hrest hcounted hplaced hlt hle =>
    rw [ids, hrest] at hw
    have hinsert := hw.insert
    simpa [ids, Walk.cut, push_fragment, hrest, part, intersection, summary_max_id_eq] using hinsert
  | @keepRest fragment rest hrest hcounted hplaced hlt =>
    rw [ids, hrest] at hw
    simpa [ids, Walk.keepRest, Walk.next, push_fragment, next_cons hrest, suffix] using hw
  | @next fragment rest hrest hcounted hstop =>
    rw [ids, hrest] at hw
    refine hw.sublist ?_
    simp [ids, Walk.next, next_cons hrest]
  | insert new_text hplaced hcontent =>
    by_cases hne : new_text = []
    · rw [push_insertion, if_pos hne]
      exact hw
    · rw [push_insertion_eq _ _ _ _ hne]
      have hchunks := ordered_chunkFragments hw timestamp w.insertion_offset (chunk_lens (utf8 new_text) 0)
      rw [← next_fragment_id_eq, ← summary_max_id_eq] at hchunks
      simpa [ids, chunks] using hchunks

theorem Stitches.ordered (h : Stitches gauge timestamp content w last taken given) (hw : Locator.Ordered w.ids) :
    Locator.Ordered last.ids := by
  induction h with
  | refl => exact hw
  | tail _ hstep ih => exact hstep.ordered ih

theorem Stitch.len_pos (h : Stitch gauge timestamp content w last taken given)
    (hold : ∀ fragment ∈ w.old_fragments.rest, 0 < fragment.len)
    (hnew : ∀ fragment ∈ w.new_fragments, 0 < fragment.len) :
    ∀ fragment ∈ last.new_fragments, 0 < fragment.len := by
  cases h with
  | @pass fragment rest reindex hrest hstart =>
    intro other hother
    rcases List.mem_append.mp hother with hother | hother
    · exact hnew other hother
    · rw [List.mem_singleton.mp hother]
      exact hold fragment (by simp [hrest])
  | @cut fragment rest part_end delete hrest hcounted hplaced hlt hle =>
    intro other hother
    rcases List.mem_append.mp hother with hother | hother
    · exact hnew other hother
    · rw [List.mem_singleton.mp hother]
      simp only [part, intersection]
      omega
  | @keepRest fragment rest hrest hcounted hplaced hlt =>
    intro other hother
    rcases List.mem_append.mp hother with hother | hother
    · exact hnew other hother
    · rw [List.mem_singleton.mp hother]
      simp only [suffix]
      omega
  | next hrest hcounted hstop => exact hnew
  | insert new_text hplaced hcontent =>
    by_cases hne : new_text = []
    · rw [push_insertion, if_pos hne]
      exact hnew
    · rw [push_insertion_eq _ _ _ _ hne]
      intro other hother
      rcases List.mem_append.mp hother with hother | hother
      · exact hnew other hother
      · exact chunk_lens_pos _ _ _ (mem_chunkFragments hother).2.2.2.2

theorem Stitch.mem_rest (h : Stitch gauge timestamp content w last taken given) {fragment : Fragment}
    (hmem : fragment ∈ last.old_fragments.rest) : fragment ∈ w.old_fragments.rest := by
  cases h with
  | pass reindex hrest hstart =>
    simp only [Walk.pass, next_cons hrest] at hmem
    simp [hrest, hmem]
  | cut delete hrest hcounted hplaced hlt hle => exact hmem
  | keepRest hrest hcounted hplaced hlt =>
    simp only [Walk.keepRest, Walk.next, push_fragment, next_cons hrest] at hmem
    simp [hrest, hmem]
  | next hrest hcounted hstop =>
    simp only [Walk.next, next_cons hrest] at hmem
    simp [hrest, hmem]
  | insert new_text hplaced hcontent =>
    by_cases hne : new_text = []
    · rw [push_insertion, if_pos hne] at hmem
      exact hmem
    · rw [push_insertion_eq _ _ _ _ hne] at hmem
      exact hmem

theorem Stitches.mem_rest (h : Stitches gauge timestamp content w last taken given) {fragment : Fragment}
    (hmem : fragment ∈ last.old_fragments.rest) : fragment ∈ w.old_fragments.rest := by
  induction h with
  | refl => exact hmem
  | tail _ hstep ih => exact ih (hstep.mem_rest hmem)

theorem Stitches.len_pos (h : Stitches gauge timestamp content w last taken given)
    (hold : ∀ fragment ∈ w.old_fragments.rest, 0 < fragment.len)
    (hnew : ∀ fragment ∈ w.new_fragments, 0 < fragment.len) :
    (∀ fragment ∈ last.old_fragments.rest, 0 < fragment.len) ∧
      ∀ fragment ∈ last.new_fragments, 0 < fragment.len := by
  induction h with
  | refl => exact ⟨hold, hnew⟩
  | tail _ hstep ih =>
    obtain ⟨hmid, hmid'⟩ := ih
    exact ⟨fun fragment hmem => hmid fragment (hstep.mem_rest hmem), hstep.len_pos hmid hmid'⟩

end Walk

end zed.text
