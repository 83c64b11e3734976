import Zed.Text.Stitch.Finish

namespace zed.text

open zed.clock zed.rope
open zed.sum_tree (Sorted Cursor)

def InsertionSlice.start (slice : InsertionSlice) : InsertionFragmentKey :=
  { timestamp := slice.insertion_id, split_offset := slice.range.start }

/-- Whether a fragment of an insertion lies within a slice of it. -/
def InsertionSlice.Holds (slice : InsertionSlice) (item : InsertionFragment) : Prop :=
  item.timestamp = slice.insertion_id ∧ slice.range.start ≤ item.split_offset ∧
    item.split_offset < slice.range.stop

theorem InsertionSlice.Holds.start_le {slice : InsertionSlice} {item : InsertionFragment}
    (h : slice.Holds item) : slice.start ≤ item.key :=
  InsertionFragmentKey.le_iff.mpr (Or.inr ⟨h.1.symm, h.2.1⟩)

namespace BufferSnapshot

theorem mem_insertion_slices_for_edits {snapshot : BufferSnapshot}
    (hsorted : Sorted snapshot.insertion_slices) {edit_ids : List Lamport} {slice : InsertionSlice} :
    slice ∈ snapshot.insertion_slices_for_edits edit_ids ↔
      slice ∈ snapshot.insertion_slices ∧ slice.edit_id ∈ edit_ids := by
  have hread : ∀ edit_id : Lamport, (snapshot.insertion_slices.dropWhile fun other =>
      decide (other < { edit_id, insertion_id := Lamport.MIN, range := ⟨0, 0⟩ })).takeWhile
        (fun other => decide (other.edit_id = edit_id)) =
      snapshot.insertion_slices.filter fun other => decide (other.edit_id = edit_id) := by
    intro edit_id
    refine hsorted.read_from InsertionSlice.edit_id_le_of_le (fun other => ?_) fun other => decide_eq_true_iff
    rw [decide_eq_true_iff]
    constructor
    · intro hlt
      refine lt_of_le_of_ne (InsertionSlice.edit_id_le_of_le _ _ hlt.le) fun heq => ?_
      rcases Prod.Lex.toLex_lt_toLex.mp hlt with hlt | ⟨_, hlt⟩
      · exact hlt.ne heq
      rcases Prod.Lex.toLex_lt_toLex.mp hlt with hlt | ⟨_, hlt⟩
      · exact absurd hlt (not_lt.mpr (Lamport.MIN_le _))
      rcases Prod.Lex.toLex_lt_toLex.mp hlt with hlt | ⟨_, hlt⟩
      · exact absurd hlt (Nat.not_lt_zero _)
      · exact absurd hlt (Nat.not_lt_zero _)
    · exact fun hlt => Prod.Lex.toLex_lt_toLex.mpr (Or.inl hlt)
  rw [insertion_slices_for_edits, List.mem_flatMap]
  simp only [hread, List.mem_filter, decide_eq_true_eq]
  constructor
  · rintro ⟨edit_id, hedit, hslice, rfl⟩
    exact ⟨hslice, hedit⟩
  · rintro ⟨hslice, hedit⟩
    exact ⟨_, hedit, hslice, rfl⟩

/-- What the loop over the slices has collected: whatever the cursor has passed
    at or after the start of a remaining slice. -/
structure Collected (insertions : List InsertionFragment) (remaining : List InsertionSlice)
    (state : Cursor InsertionFragment × List Locator) : Prop where
  items : state.1.passed ++ state.1.rest = insertions
  ids : state.2.Sublist (state.1.passed.map InsertionFragment.fragment_id)
  passed : ∀ item ∈ state.1.passed, ∀ slice ∈ remaining, slice.start ≤ item.key → item.fragment_id ∈ state.2

private theorem mem_takeWhile_of_le {items : List InsertionFragment} (hsorted : Sorted items)
    {take : InsertionFragment → Bool} {item : InsertionFragment} (hitem : item ∈ items)
    (htake : ∀ other ∈ items, other.key ≤ item.key → take other = true) : item ∈ items.takeWhile take := by
  induction items with
  | nil => cases hitem
  | cons first rest ih =>
    rcases List.mem_cons.mp hitem with rfl | hrest
    · rw [List.takeWhile_cons_of_pos (htake item List.mem_cons_self le_rfl)]
      exact List.mem_cons_self
    · rw [List.takeWhile_cons_of_pos (htake first List.mem_cons_self (hsorted.head_lt hrest).le)]
      exact List.mem_cons_of_mem _ (ih hsorted.tail hrest fun other hother =>
        htake other (List.mem_cons_of_mem _ hother))

private theorem exists_seek {insertions : List InsertionFragment} {slice : InsertionSlice}
    {slices : List InsertionSlice} {state : Cursor InsertionFragment × List Locator} (hsorted : Sorted insertions)
    (h : Collected insertions (slice :: slices) state) :
    ∃ skipped rest, state.1.rest = skipped ++ rest ∧ (∀ item ∈ skipped, item.key < slice.start) ∧
      (∀ item ∈ rest, slice.insertion_id ≤ item.timestamp) ∧
      fragment_ids_for_slice state slice =
        ({ passed := state.1.passed ++ skipped ++ rest.takeWhile fun item =>
            decide (item.timestamp = slice.insertion_id) && decide (item.split_offset < slice.range.stop)
           rest := rest.dropWhile fun item =>
            decide (item.timestamp = slice.insertion_id) && decide (item.split_offset < slice.range.stop) },
          state.2 ++ (rest.takeWhile fun item => decide (item.timestamp = slice.insertion_id) &&
            decide (item.split_offset < slice.range.stop)).map InsertionFragment.fragment_id) := by
  obtain ⟨cursor, ids⟩ := state
  have hall : Sorted (cursor.passed ++ cursor.rest) := h.items ▸ hsorted
  obtain ⟨-, hrest, hcross⟩ := List.pairwise_append.mp hall
  by_cases hseek : slice.insertion_id ≠ (insertion_cursor_start cursor).timestamp ∨
      slice.range.start > (insertion_cursor_start cursor).split_offset
  · refine ⟨cursor.rest.takeWhile fun item => decide (item.key < slice.start),
      cursor.rest.dropWhile fun item => decide (item.key < slice.start), ?_, ?_, ?_, ?_⟩
    · exact List.takeWhile_append_dropWhile.symm
    · exact fun item hitem => (Sorted.mem_takeWhile (k := slice.start) hrest |>.mp hitem).2
    · intro item hitem
      have hle := (Sorted.mem_dropWhile (k := slice.start) hrest).mp hitem
      rcases InsertionFragmentKey.le_iff.mp hle.2 with hlt | ⟨heq, _⟩
      · exact hlt.le
      · exact heq.le
    · simp only [fragment_ids_for_slice, if_pos hseek, Cursor.slice_while]
      rfl
  · have hstart := not_or.mp hseek
    refine ⟨[], cursor.rest, rfl, by simp, ?_, ?_⟩
    · intro item hitem
      have hstay : slice.insertion_id = (insertion_cursor_start cursor).timestamp := not_not.mp hstart.1
      rw [hstay]
      cases hlast : cursor.passed.getLast? with
      | none =>
        simp only [insertion_cursor_start, hlast, Option.map_none, Option.getD_none]
        exact Lamport.MIN_le _
      | some last =>
        simp only [insertion_cursor_start, hlast, Option.map_some, Option.getD_some]
        have hlt := hcross last (List.mem_of_mem_getLast? hlast) item hitem
        rcases InsertionFragmentKey.lt_iff.mp hlt with hlt | ⟨heq, _⟩
        · exact hlt.le
        · exact heq.le
    · simp only [fragment_ids_for_slice, if_neg hseek, Cursor.slice_while, List.append_nil]

theorem Collected.step {insertions : List InsertionFragment} {slice : InsertionSlice}
    {slices : List InsertionSlice} {state : Cursor InsertionFragment × List Locator} (hsorted : Sorted insertions)
    (hslices : ∀ other ∈ slices, slice.start ≤ other.start)
    (h : Collected insertions (slice :: slices) state) :
    Collected insertions slices (fragment_ids_for_slice state slice) ∧
      (∀ id ∈ state.2, id ∈ (fragment_ids_for_slice state slice).2) ∧
      ∀ item ∈ insertions, slice.Holds item → item.fragment_id ∈ (fragment_ids_for_slice state slice).2 := by
  obtain ⟨skipped, rest, hrest, hskipped, hlow, heq⟩ := exists_seek hsorted h
  rw [heq]
  have hitems := h.items
  rw [hrest] at hitems
  refine ⟨⟨?_, ?_, ?_⟩, fun id hid => List.mem_append_left _ hid, ?_⟩
  · simpa [List.takeWhile_append_dropWhile] using hitems
  · dsimp only
    rw [List.map_append, List.map_append]
    exact (h.ids.trans (List.sublist_append_left _ _)).append (List.Sublist.refl _)
  · intro item hitem other hother hle
    simp only [List.mem_append] at hitem ⊢
    rcases hitem with (hitem | hitem) | hitem
    · exact Or.inl (h.passed item hitem other (List.mem_cons_of_mem _ hother) hle)
    · exact absurd ((hslices other hother).trans hle) (not_le.mpr (hskipped item hitem))
    · exact Or.inr (List.mem_map_of_mem hitem)
  · intro item hitem hholds
    rw [← hitems] at hitem
    simp only [List.mem_append] at hitem ⊢
    rcases hitem with hitem | hitem | hitem
    · exact Or.inl (h.passed item hitem slice List.mem_cons_self hholds.start_le)
    · exact absurd hholds.start_le (not_le.mpr (hskipped item hitem))
    · refine Or.inr (List.mem_map_of_mem (mem_takeWhile_of_le ?_ hitem fun other hother hle => ?_))
      · rw [← hitems, ← List.append_assoc] at hsorted
        exact hsorted.sublist (List.sublist_append_right _ _)
      · have hge := hlow other hother
        rcases InsertionFragmentKey.le_iff.mp hle with hlt | ⟨hsame, hoffset⟩
        · exact absurd (hge.trans_lt hlt) (by
            change ¬ slice.insertion_id < item.timestamp
            rw [hholds.1]
            exact lt_irrefl _)
        · have htimestamp : other.timestamp = slice.insertion_id := Eq.trans hsame hholds.1
          have hlt : other.split_offset < slice.range.stop := lt_of_le_of_lt hoffset hholds.2.2
          simp [htimestamp, hlt]

theorem Collected.foldl {insertions : List InsertionFragment} {slices : List InsertionSlice}
    {state : Cursor InsertionFragment × List Locator} (hsorted : Sorted insertions)
    (hslices : slices.Pairwise fun x y => x.start ≤ y.start) (h : Collected insertions slices state) :
    Collected insertions [] (slices.foldl fragment_ids_for_slice state) ∧
      (∀ id ∈ state.2, id ∈ (slices.foldl fragment_ids_for_slice state).2) ∧
      ∀ slice ∈ slices, ∀ item ∈ insertions, slice.Holds item →
        item.fragment_id ∈ (slices.foldl fragment_ids_for_slice state).2 := by
  induction slices generalizing state with
  | nil => exact ⟨h, fun id hid => hid, by simp⟩
  | cons slice slices ih =>
    obtain ⟨hfirst, hrest⟩ := List.pairwise_cons.mp hslices
    obtain ⟨hstep, hkeep, hcover⟩ := h.step hsorted hfirst
    obtain ⟨hlast, hkeepRest, hcoverRest⟩ := ih hrest hstep
    refine ⟨hlast, fun id hid => hkeepRest id (hkeep id hid), fun other hother item hitem hholds => ?_⟩
    rcases List.mem_cons.mp hother with rfl | hother
    · exact hkeepRest _ (hcover item hitem hholds)
    · exact hcoverRest other hother item hitem hholds

private theorem sorted_slices (slices : List InsertionSlice) :
    (slices.insertionSort slice_order).Pairwise fun x y => x.start ≤ y.start := by
  have hsorted : (slices.insertionSort slice_order).Pairwise slice_order :=
    @List.pairwise_insertionSort _ slice_order _ ⟨fun x y => le_total _ _⟩ ⟨fun _ _ _ => le_trans⟩ slices
  refine hsorted.imp fun {x y} hxy => ?_
  rw [InsertionFragmentKey.le_iff]
  rcases Prod.Lex.toLex_le_toLex.mp hxy with hlt | ⟨heq, hle⟩
  · exact Or.inl hlt
  · rcases Prod.Lex.toLex_le_toLex.mp hle with hlt | ⟨hstart, _⟩
    · exact Or.inr ⟨heq, hlt.le⟩
    · exact Or.inr ⟨heq, hstart.le⟩

theorem fragment_ids_for_edits_spec {content : AtomId → UInt8} {edited : Lamport → Prop}
    {snapshot : BufferSnapshot} (hstore : snapshot.Store content edited) (edit_ids : List Lamport) :
    (snapshot.fragment_ids_for_edits edit_ids).Pairwise (· < ·) ∧
      (∀ id ∈ snapshot.fragment_ids_for_edits edit_ids, id ∈ snapshot.fragments.map Fragment.id) ∧
      ∀ fragment ∈ snapshot.fragments, ∀ edit_id ∈ fragment.timestamp :: fragment.deletions,
        edited edit_id → edit_id ∈ edit_ids → fragment.id ∈ snapshot.fragment_ids_for_edits edit_ids := by
  have hinsertions := hstore.insertions_sorted
  have hinjective : ∀ x ∈ snapshot.fragments, ∀ y ∈ snapshot.fragments, x.id = y.id → x = y :=
    List.inj_on_of_nodup_map (hstore.ordered.increasing.imp fun hlt => hlt.ne)
  have hnodup : (snapshot.insertions.map InsertionFragment.fragment_id).Nodup := by
    refine List.Nodup.map_on (fun x hx y hy heq => ?_) (hinsertions.imp fun {x y} hlt heq => ?_)
    · obtain ⟨fragment, hfragment, rfl⟩ := (hstore.mem_insertions x).mp hx
      obtain ⟨other, hother, rfl⟩ := (hstore.mem_insertions y).mp hy
      rw [hinjective fragment hfragment other hother heq]
    · rw [heq] at hlt
      exact hlt.false
  have hstart : Collected snapshot.insertions
      ((snapshot.insertion_slices_for_edits edit_ids).insertionSort slice_order)
      (Cursor.new snapshot.insertions, []) :=
    { items := rfl
      ids := List.nil_sublist _
      passed := fun item hitem => absurd hitem List.not_mem_nil }
  obtain ⟨hlast, -, hcover⟩ := hstart.foldl hinsertions (sorted_slices _)
  have hsub : (((snapshot.insertion_slices_for_edits edit_ids).insertionSort slice_order).foldl
      fragment_ids_for_slice (Cursor.new snapshot.insertions, [])).2.Sublist
        (snapshot.insertions.map InsertionFragment.fragment_id) := by
    refine hlast.ids.trans (List.Sublist.map _ ?_)
    have happend := List.sublist_append_left
      (((snapshot.insertion_slices_for_edits edit_ids).insertionSort slice_order).foldl
        fragment_ids_for_slice (Cursor.new snapshot.insertions, [])).1.passed
      (((snapshot.insertion_slices_for_edits edit_ids).insertionSort slice_order).foldl
        fragment_ids_for_slice (Cursor.new snapshot.insertions, [])).1.rest
    rwa [hlast.items] at happend
  have hmem : ∀ id, id ∈ snapshot.fragment_ids_for_edits edit_ids ↔
      id ∈ (((snapshot.insertion_slices_for_edits edit_ids).insertionSort slice_order).foldl
        fragment_ids_for_slice (Cursor.new snapshot.insertions, [])).2 := fun id => List.mem_insertionSort _
  refine ⟨?_, fun id hid => ?_, fun fragment hfragment edit_id hedit hedited hmemEdit => ?_⟩
  · have hle : (snapshot.fragment_ids_for_edits edit_ids).Pairwise fun x y => x ≤ y :=
      @List.pairwise_insertionSort _ (fun x y : Locator => x ≤ y) _ ⟨le_total⟩ ⟨fun _ _ _ => le_trans⟩ _
    have hdistinct : (snapshot.fragment_ids_for_edits edit_ids).Nodup :=
      (List.perm_insertionSort _ _).nodup_iff.mpr (hnodup.sublist hsub)
    exact (hle.and hdistinct).imp fun h => lt_of_le_of_ne h.1 h.2
  · obtain ⟨item, hitem, rfl⟩ := List.mem_map.mp (hsub.subset ((hmem id).mp hid))
    obtain ⟨fragment, hfragment, rfl⟩ := (hstore.mem_insertions item).mp hitem
    exact List.mem_map_of_mem hfragment
  · obtain ⟨slice, hslice, hcovers⟩ := hstore.covered fragment hfragment edit_id hedit hedited
    rw [hmem]
    have hpos := hstore.len_pos fragment hfragment
    have hstop := hcovers.le_stop
    refine hcover slice ?_ (InsertionFragment.new fragment)
      ((hstore.mem_insertions _).mpr ⟨fragment, hfragment, rfl⟩)
      ⟨hcovers.insertion_id_eq.symm, hcovers.start_le, ?_⟩
    · rw [List.mem_insertionSort, mem_insertion_slices_for_edits hstore.slices_sorted]
      exact ⟨hslice, hcovers.edit_id_eq ▸ hmemEdit⟩
    · change fragment.insertion_offset < slice.range.stop
      omega

end BufferSnapshot

end zed.text
