import Zed.Text.Snapshot
import Zed.Text.Stitch.Index
import Zed.Text.Stitch.Steps

namespace zed.text

open zed.clock zed.rope
open zed.sum_tree (Bias Sorted)

variable {gauge : Gauge} {timestamp : Lamport} {content : AtomId → UInt8} {edited : Lamport → Prop}

namespace Walk

def initial (fragments : List Fragment) (visible_text deleted_text : Rope) : Walk :=
  { old_fragments := sum_tree.Cursor.new fragments
    fragment_start := 0
    new_fragments := []
    new_insertions := []
    insertion_slices := []
    insertion_offset := 0
    new_ropes := RopeBuilder.new visible_text deleted_text
    edits_patch := [] }

theorem initial_placed (gauge : Gauge) (fragments : List Fragment) (visible_text deleted_text : Rope) :
    (initial fragments visible_text deleted_text).Placed gauge :=
  ⟨Nat.le_refl 0, Nat.zero_le _⟩

theorem start_stitches (timestamp : Lamport) (content : AtomId → UInt8) (gauge : Gauge)
    (fragments : List Fragment) (visible_text deleted_text : Rope) (bias : Bias) {range_start : Nat}
    (htotal : range_start ≤ (fragments.map gauge.len).sum) :
    CaughtUp gauge range_start bias (initial fragments visible_text deleted_text)
        (start gauge.len fragments visible_text deleted_text range_start bias) ∧
      (start gauge.len fragments visible_text deleted_text range_start bias).catch_up gauge.len range_start
        bias = start gauge.len fragments visible_text deleted_text range_start bias ∧
      ∃ taken, Stitches gauge timestamp content (initial fragments visible_text deleted_text)
        (start gauge.len fragments visible_text deleted_text range_start bias) taken taken := by
  have happend := sum_tree.Cursor.slice_from_append gauge.len range_start bias 0 fragments
  have hpass : Stitches gauge timestamp content (initial fragments visible_text deleted_text) _ _ _ :=
    passAll_stitches timestamp content happend.symm rfl
  have hsame : start gauge.len fragments visible_text deleted_text range_start bias =
      (initial fragments visible_text deleted_text).passAll gauge
        (sum_tree.slice_from gauge.len range_start bias 0 fragments).1
        (sum_tree.slice_from gauge.len range_start bias 0 fragments).2 := by
    simp [start, passAll, initial, sum_tree.Cursor.slice, sum_tree.Cursor.new, sum_tree.Cursor.start]
  have hinitialTotal : range_start ≤ (initial fragments visible_text deleted_text).total gauge := htotal
  obtain ⟨hle, hstop, hstart, hleft⟩ := slice_caught_up bias (Nat.zero_le range_start) hinitialTotal
  rw [hsame]
  refine ⟨⟨hle, hstop, ?_⟩, ?_, _, hpass⟩
  · by_cases hnil : (sum_tree.slice_from gauge.len range_start bias 0 fragments).1 = []
    · refine Or.inl ?_
      rw [hnil, List.nil_append] at happend
      rw [hnil, happend, passAll, summary_text]
      simp [initial, RopeBuilder.append_zero, sum_tree.Cursor.new, sum_tree.Cursor.start]
    · exact Or.inr ⟨hstart, fun hbias => (hleft hbias).resolve_right hnil⟩
  · rw [catch_up]
    exact if_neg (not_lt.mpr hstop)

/-- The walk after everything that was left has been kept. -/
def finished (gauge : Gauge) (w : Walk) : Walk :=
  ((w.consume_suffix gauge.len).atStart gauge).passAll gauge
    (w.consume_suffix gauge.len).old_fragments.rest []

theorem finished_stitches (timestamp : Lamport) (content : AtomId → UInt8) {w : Walk}
    (h : w.Placed gauge) : ∃ taken, Stitches gauge timestamp content w (w.finished gauge) taken taken := by
  obtain ⟨_, taken, hsuffix⟩ := consume_suffix_stitches timestamp content h
  have hpass := passAll_stitches timestamp content
    (w := (w.consume_suffix gauge.len).atStart gauge) (List.append_nil _).symm rfl
  exact ⟨_, hsuffix.trans hpass⟩

theorem finished_rest (gauge : Gauge) (w : Walk) : (w.finished gauge).old_fragments.rest = [] := rfl

theorem finished_left (gauge : Gauge) (w : Walk) : (w.finished gauge).leftAtoms gauge = [] := by
  rw [leftAtoms, finished_rest]
  simp

end Walk

/-- The order of the fragments, and the two indexes and the texts beside them. -/
structure BufferSnapshot.Store (content : AtomId → UInt8) (edited : Lamport → Prop)
    (snapshot : BufferSnapshot) : Prop where
  ordered : Locator.Ordered (snapshot.fragments.map Fragment.id)
  len_pos : ∀ fragment ∈ snapshot.fragments, 0 < fragment.len
  nodup : ((atoms snapshot.fragments).map Atom.id).Nodup
  insertions_sorted : Sorted snapshot.insertions
  mem_insertions : ∀ insertion, insertion ∈ snapshot.insertions ↔
    ∃ fragment ∈ snapshot.fragments, InsertionFragment.new fragment = insertion
  slices_sorted : Sorted snapshot.insertion_slices
  covered : ∀ fragment ∈ snapshot.fragments, fragment.Covered edited snapshot.insertion_slices
  visible_text : snapshot.visible_text = visibleBytes content (atoms snapshot.fragments)
  deleted_text : snapshot.deleted_text = deletedBytes content (atoms snapshot.fragments)

theorem starts_sublist {fragments : List Fragment} (hpos : ∀ fragment ∈ fragments, 0 < fragment.len) :
    (fragments.map fun fragment => (fragment.timestamp, fragment.insertion_offset)).Sublist
      ((atoms fragments).map Atom.id) := by
  induction fragments with
  | nil => exact List.Sublist.refl _
  | cons fragment fragments ih =>
    rw [List.map_cons, atoms_cons, List.map_append, ← List.singleton_append]
    refine List.Sublist.append ?_ (ih fun other hother => hpos other (List.mem_cons_of_mem _ hother))
    obtain ⟨n, hn⟩ := Nat.exists_eq_add_of_lt (hpos fragment List.mem_cons_self)
    rw [List.singleton_sublist, Fragment.atoms, List.map_map, List.mem_map]
    exact ⟨0, by simpa using hpos fragment List.mem_cons_self, by simp [Fragment.atom, Atom.id]⟩

theorem starts_nodup {fragments : List Fragment} (hpos : ∀ fragment ∈ fragments, 0 < fragment.len)
    (hnodup : ((atoms fragments).map Atom.id).Nodup) :
    (fragments.map fun fragment => (fragment.timestamp, fragment.insertion_offset)).Nodup :=
  hnodup.sublist (starts_sublist hpos)

theorem eq_of_key_eq {fragments : List Fragment} (hpos : ∀ fragment ∈ fragments, 0 < fragment.len)
    (hnodup : ((atoms fragments).map Atom.id).Nodup) {x y : Fragment} (hx : x ∈ fragments)
    (hy : y ∈ fragments) (hkey : (InsertionFragment.new x).key = (InsertionFragment.new y).key) : x = y := by
  refine List.inj_on_of_nodup_map (starts_nodup hpos hnodup) hx hy ?_
  injection hkey with htimestamp hoffset
  exact Prod.ext htimestamp hoffset

namespace BufferSnapshot

theorem finish_edit_eq (snapshot : BufferSnapshot) (gauge : Gauge) (w : Walk) :
    snapshot.finish_edit gauge.len w =
      ({ snapshot with
          fragments := (w.finished gauge).new_fragments
          visible_text := (w.finished gauge).new_ropes.finish.1
          deleted_text := (w.finished gauge).new_ropes.finish.2
          insertions := sum_tree.edit snapshot.insertions (w.finished gauge).new_insertions
          insertion_slices := sum_tree.edit snapshot.insertion_slices
            ((w.finished gauge).insertion_slices.map sum_tree.Edit.Insert) },
        (w.finished gauge).edits_patch) := rfl

private theorem edit_insertions {old new : List Fragment} {insertions : List InsertionFragment}
    {new_insertions : List (sum_tree.Edit InsertionFragment InsertionFragmentKey)}
    (hold : ∀ fragment ∈ old, 0 < fragment.len) (hnew : ∀ fragment ∈ new, 0 < fragment.len)
    (holdNodup : ((atoms old).map Atom.id).Nodup) (hnewNodup : ((atoms new).map Atom.id).Nodup)
    (hsorted : Sorted insertions)
    (hmem : ∀ insertion, insertion ∈ insertions ↔
      ∃ fragment ∈ old, InsertionFragment.new fragment = insertion)
    (hinsertions : ∃ sub : List Fragment, sub.Sublist new ∧
      new_insertions = sub.map InsertionFragment.insert_new)
    (hreindexed : ∀ fragment ∈ new, InsertionFragment.insert_new fragment ∈ new_insertions ∨ fragment ∈ old)
    (hstarts : ∀ fragment ∈ old, ∃ other ∈ new,
      (InsertionFragment.new other).key = (InsertionFragment.new fragment).key) :
    Sorted (sum_tree.edit insertions new_insertions) ∧
      ∀ insertion, insertion ∈ sum_tree.edit insertions new_insertions ↔
        ∃ fragment ∈ new, InsertionFragment.new fragment = insertion := by
  obtain ⟨sub, hsub, rfl⟩ := hinsertions
  have hkeys : ((sub.map InsertionFragment.insert_new).map sum_tree.Edit.key).Nodup := by
    rw [List.map_map]
    have hstartsNodup := (starts_nodup hnew hnewNodup).sublist (hsub.map _)
    refine (List.pairwise_map.mp hstartsNodup).map _ fun x y hne heq => hne ?_
    injection heq with htimestamp hoffset
    exact Prod.ext htimestamp hoffset
  obtain ⟨hedit, hmemEdit⟩ := sum_tree.edit_spec hkeys hsorted
  refine ⟨hedit, fun insertion => ?_⟩
  rw [hmemEdit]
  constructor
  · rintro (hinsert | ⟨hinsertion, hkept⟩)
    · obtain ⟨fragment, hfragment, heq⟩ := List.mem_map.mp hinsert
      injection heq with heq
      exact ⟨fragment, hsub.subset hfragment, heq⟩
    · obtain ⟨fragment, hfragment, rfl⟩ := (hmem insertion).mp hinsertion
      obtain ⟨other, hother, hkey⟩ := hstarts fragment hfragment
      rcases hreindexed other hother with hindexed | hunchanged
      · exact absurd hkey (hkept _ hindexed)
      · exact ⟨other, hother, by rw [eq_of_key_eq hold holdNodup hunchanged hfragment hkey]⟩
  · rintro ⟨fragment, hfragment, rfl⟩
    rcases hreindexed fragment hfragment with hindexed | hunchanged
    · exact Or.inl hindexed
    · by_cases hindexed : InsertionFragment.insert_new fragment ∈ sub.map InsertionFragment.insert_new
      · exact Or.inl hindexed
      · refine Or.inr ⟨(hmem _).mpr ⟨fragment, hunchanged, rfl⟩, fun edit hedit hkey => hindexed ?_⟩
        obtain ⟨other, hother, rfl⟩ := List.mem_map.mp hedit
        rw [← eq_of_key_eq hnew hnewNodup (hsub.subset hother) hfragment hkey]
        exact List.mem_map_of_mem hother

private theorem edit_slices {new : List Fragment} {insertion_slices slices : List InsertionSlice}
    (hnew : ∀ fragment ∈ new, 0 < fragment.len) (hnewNodup : ((atoms new).map Atom.id).Nodup)
    (hsorted : Sorted insertion_slices)
    (hslices : ∃ sub : List Fragment, sub.Sublist new ∧
      slices = sub.map (InsertionSlice.from_fragment timestamp)) :
    Sorted (sum_tree.edit insertion_slices (slices.map sum_tree.Edit.Insert)) ∧
      ∀ slice ∈ insertion_slices ++ slices,
        slice ∈ sum_tree.edit insertion_slices (slices.map sum_tree.Edit.Insert) := by
  obtain ⟨sub, hsub, rfl⟩ := hslices
  have hkeys : (((sub.map (InsertionSlice.from_fragment timestamp)).map
      (sum_tree.Edit.Insert (K := InsertionSlice))).map sum_tree.Edit.key).Nodup := by
    rw [List.map_map, List.map_map]
    have hstartsNodup := (starts_nodup hnew hnewNodup).sublist (hsub.map _)
    refine (List.pairwise_map.mp hstartsNodup).map _ fun x y hne heq => hne ?_
    injection heq with _ htimestamp hrange
    injection hrange with hoffset
    exact Prod.ext htimestamp hoffset
  obtain ⟨hedit, hmemEdit⟩ := sum_tree.edit_spec hkeys hsorted
  refine ⟨hedit, fun slice hslice => (hmemEdit slice).mpr ?_⟩
  by_cases hin : sum_tree.Edit.Insert slice ∈
      (sub.map (InsertionSlice.from_fragment timestamp)).map (sum_tree.Edit.Insert (K := InsertionSlice))
  · exact Or.inl hin
  · rcases List.mem_append.mp hslice with hslice | hslice
    · refine Or.inr ⟨hslice, fun edit hedit hkey => hin ?_⟩
      obtain ⟨other, hother, rfl⟩ := List.mem_map.mp hedit
      have hsame : other = slice := hkey
      rw [← hsame]
      exact List.mem_map_of_mem hother
    · exact absurd (List.mem_map_of_mem hslice) hin

/-- The snapshot that both kinds of edit lead to differs in its fragments, their
    indexes and the texts. -/
structure SameOutside (before after : BufferSnapshot) : Prop where
  undo_map : after.undo_map = before.undo_map
  version : after.version = before.version
  remote_id : after.remote_id = before.remote_id
  replica_id : after.replica_id = before.replica_id

theorem finish_edit_spec {snapshot : BufferSnapshot} {w : Walk} {taken given : List Atom}
    (hstore : snapshot.Store content edited)
    (hwalk : Walk.Stitches gauge timestamp content
      (Walk.initial snapshot.fragments snapshot.visible_text snapshot.deleted_text) w taken given)
    (hnodup : ((given ++ w.leftAtoms gauge).map Atom.id).Nodup) :
    (snapshot.finish_edit gauge.len w).1.Store content edited ∧
      (snapshot.finish_edit gauge.len w).2.Takes snapshot.visible_text
        (snapshot.finish_edit gauge.len w).1.visible_text ∧
      atoms (snapshot.finish_edit gauge.len w).1.fragments = given ++ w.leftAtoms gauge := by
  have hinitial := Walk.initial_placed gauge snapshot.fragments snapshot.visible_text snapshot.deleted_text
  obtain ⟨kept, hfinished⟩ := Walk.finished_stitches timestamp content (hwalk.placed hinitial)
  have hall := hwalk.trans hfinished
  have hrest := Walk.finished_rest gauge w
  have hleft := hfinished.left
  rw [Walk.finished_left, List.append_nil] at hleft
  have hnew := hall.new
  have hpassed := hall.old_fragments
  rw [hrest, List.append_nil] at hpassed
  have hdone := hall.done
  have hall_done := Walk.done_append_left gauge (w.finished gauge)
  rw [Walk.finished_left, List.append_nil, hrest, List.append_nil, hpassed] at hall_done
  have hatoms : atoms (w.finished gauge).new_fragments = given ++ w.leftAtoms gauge := by
    rw [hnew, hleft]
    rfl
  obtain ⟨-, hpos⟩ := hall.len_pos hstore.len_pos (by simp [Walk.initial])
  have hordered := hall.ordered (w := Walk.initial _ _ _) hstore.ordered
  rw [Walk.ids, hrest, List.map_nil, List.append_nil] at hordered
  obtain ⟨-, hindexed⟩ := hall.indexed
    (fun fragment hfragment => ⟨(hfragment : fragment ∈ snapshot.fragments), hstore.len_pos _ hfragment⟩)
    { insertions := ⟨[], List.nil_sublist _, rfl⟩
      slices := ⟨[], List.nil_sublist _, rfl⟩
      reindexed := by simp [Walk.initial]
      starts := by simp [Walk.initial, sum_tree.Cursor.new, sum_tree.Cursor.start] }
  obtain ⟨-, hsliced⟩ := hall.sliced hstore.covered (by simp [Walk.Sliced, Walk.initial])
  have htexts := hall.texts hinitial rfl
    { ropes :=
        { old_visible := by simp [Walk.initial, RopeBuilder.new, Walk.doneAtoms, Walk.into,
            sum_tree.Cursor.new, hstore.visible_text, visibleBytes, bytes]
          old_deleted := by simp [Walk.initial, RopeBuilder.new, Walk.doneAtoms, Walk.into,
            sum_tree.Cursor.new, hstore.deleted_text, deletedBytes, bytes]
          new_visible := rfl
          new_deleted := rfl }
      patch := Patch.Leads.nil }
  have hnodup' : ((atoms (w.finished gauge).new_fragments).map Atom.id).Nodup := by rwa [hatoms]
  have hropes := htexts.ropes
  have hpatch := htexts.patch
  rw [hall_done] at hropes hpatch
  have hfinish := hropes.finish
  obtain ⟨hinsertions, hmem⟩ := edit_insertions hstore.len_pos hpos hstore.nodup hnodup'
    hstore.insertions_sorted hstore.mem_insertions hindexed.insertions hindexed.reindexed
    fun fragment hfragment => hindexed.starts fragment (Or.inl (hpassed ▸ hfragment))
  obtain ⟨hslices, hmemSlices⟩ := edit_slices hpos hnodup' hstore.slices_sorted hindexed.slices
  rw [finish_edit_eq]
  refine ⟨?_, ?_, hatoms⟩
  · exact
      { ordered := hordered
        len_pos := hpos
        nodup := hnodup'
        insertions_sorted := hinsertions
        mem_insertions := hmem
        slices_sorted := hslices
        covered := fun fragment hfragment => (hsliced fragment hfragment).mono hmemSlices
        visible_text := congrArg Prod.fst hfinish
        deleted_text := congrArg Prod.snd hfinish }
  · dsimp only
    rw [hfinish, hstore.visible_text]
    exact hpatch.takes

end BufferSnapshot

end zed.text
