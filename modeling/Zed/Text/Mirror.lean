import Zed.Text.Ledger.Push
import Zed.Text.Undo

namespace zed.text

open zed.clock zed.rope
open zed.sum_tree (Sorted)

namespace BufferSnapshot

def observing (snapshot : BufferSnapshot) (timestamp : Lamport) : BufferSnapshot :=
  { snapshot with version := snapshot.version.observe timestamp }

variable {content other : AtomId → UInt8} {edited : Lamport → Prop} {snapshot : BufferSnapshot}

theorem Store.observing (h : snapshot.Store content edited) (timestamp : Lamport) :
    (snapshot.observing timestamp).Store content edited :=
  ⟨h.ordered, h.len_pos, h.nodup, h.insertions_sorted, h.mem_insertions, h.slices_sorted, h.covered,
    h.visible_text, h.deleted_text⟩

theorem Store.congr_content (h : snapshot.Store content edited)
    (hsame : ∀ atom ∈ atoms snapshot.fragments, other atom.id = content atom.id) :
    snapshot.Store other edited := by
  have hbytes : ∀ keep : Atom → Bool, bytes other ((atoms snapshot.fragments).filter keep) =
      bytes content ((atoms snapshot.fragments).filter keep) := fun keep =>
    List.map_congr_left fun atom hatom => hsame atom (List.mem_filter.mp hatom).1
  refine ⟨h.ordered, h.len_pos, h.nodup, h.insertions_sorted, h.mem_insertions, h.slices_sorted, h.covered,
    ?_, ?_⟩
  · rw [h.visible_text, visibleBytes, visibleBytes, hbytes]
  · rw [h.deleted_text, deletedBytes, deletedBytes, hbytes]

end BufferSnapshot

namespace Ledger

/-- A snapshot that shows what its version has of the ledger. -/
structure Mirrors (ledger : Ledger) (snapshot : BufferSnapshot) : Prop where
  version : ledger.Consistent snapshot.version
  store : snapshot.Store ledger.content ledger.edited
  lists : ledger.Lists snapshot.version ((atoms snapshot.fragments).map Atom.id)
  deletions : ∀ atom ∈ atoms snapshot.fragments, ∀ deletion, deletion ∈ atom.deletions ↔
    snapshot.version.observed deletion = true ∧ ledger.Deletes deletion atom.id
  undo_sorted : Sorted snapshot.undo_map
  undos : ∀ edit_id undo_id count, (⟨⟨edit_id, undo_id⟩, count⟩ : UndoMapEntry) ∈ snapshot.undo_map ↔
    snapshot.version.observed undo_id = true ∧ ledger.Counts undo_id edit_id count
  visible : ∀ atom ∈ atoms snapshot.fragments,
    atom.visible = true ↔ ledger.VisibleAt snapshot.version atom.id
  max_undos : ∀ atom ∈ atoms snapshot.fragments, ∀ edit_id ∈ atom.timestamp :: atom.deletions,
    ∀ undo_id count, snapshot.version.observed undo_id = true → ledger.Counts undo_id edit_id count →
      atom.max_undos.observed undo_id = true

variable {ledger : Ledger} {snapshot : BufferSnapshot}

theorem is_undone_iff {undos : UndoMap} {version : Global} {edit_id : Lamport} (hsorted : Sorted undos)
    (h : ∀ undo_id count, (⟨⟨edit_id, undo_id⟩, count⟩ : UndoMapEntry) ∈ undos ↔
      version.observed undo_id = true ∧ ledger.Counts undo_id edit_id count) :
    UndoMap.is_undone undos edit_id = true ↔ ledger.UndoneAt version edit_id := by
  have hsame : UndoMap.undo_count_at undos edit_id version = UndoMap.undo_count undos edit_id := by
    apply UndoMap.undo_count_at_eq hsorted
    rintro ⟨⟨other, undo_id⟩, count⟩ hentry hedit
    obtain rfl : other = edit_id := hedit
    exact ((h undo_id count).mp hentry).1
  have hwas : UndoMap.was_undone undos edit_id version = true ↔ ledger.UndoneAt version edit_id :=
    was_undone_iff hsorted fun undo_id count hobserved => (h undo_id count).trans (and_iff_right hobserved)
  rw [← hwas, UndoMap.is_undone, UndoMap.was_undone, hsame]

namespace Mirrors

variable (h : ledger.Mirrors snapshot)

include h

theorem member {atom : Atom} (hatom : atom ∈ atoms snapshot.fragments) :
    ledger.Member snapshot.version atom.id := h.lists.mem.mp (List.mem_map_of_mem hatom)

section earlier

variable {earlier : Global} (hearlier : snapshot.version.observed_all earlier = true)

include hearlier

theorem was_undone (edit_id : Lamport) :
    UndoMap.was_undone snapshot.undo_map edit_id earlier = true ↔ ledger.UndoneAt earlier edit_id := by
  apply was_undone_iff h.undo_sorted
  intro undo_id count hobserved
  rw [h.undos]
  exact and_iff_right (Global.observed_of_observed_all hearlier hobserved)

/-- What was visible at an earlier version is what the ledger says it saw. -/
theorem was_visible {atom : Atom} (hatom : atom ∈ atoms snapshot.fragments) :
    atom.was_visible earlier snapshot.undo_map = true ↔ ledger.VisibleAt earlier atom.id := by
  unfold Atom.was_visible VisibleAt
  rw [Bool.and_eq_true, Bool.and_eq_true, and_assoc, Bool.not_eq_true', ← Bool.not_eq_true,
    h.was_undone hearlier, List.all_eq_true]
  refine and_congr ?_ (and_congr_right' ?_)
  · exact (and_iff_left (h.member hatom).2).symm
  · constructor
    · intro hall deletion hobserved hdeletes
      have hmem := (h.deletions atom hatom deletion).mpr
        ⟨Global.observed_of_observed_all hearlier hobserved, hdeletes⟩
      have hdeletion := hall deletion hmem
      rw [hobserved, Bool.not_true, Bool.false_or] at hdeletion
      exact (h.was_undone hearlier deletion).mp hdeletion
    · intro hall deletion hmem
      by_cases hobserved : earlier.observed deletion = true
      · have hdeletes := ((h.deletions atom hatom deletion).mp hmem).2
        rw [(h.was_undone hearlier deletion).mpr (hall deletion hobserved hdeletes), Bool.or_true]
      · rw [Bool.not_eq_true] at hobserved
        rw [hobserved, Bool.not_false, Bool.true_or]

end earlier

theorem is_undone (edit_id : Lamport) :
    UndoMap.is_undone snapshot.undo_map edit_id = true ↔ ledger.UndoneAt snapshot.version edit_id :=
  is_undone_iff h.undo_sorted (h.undos edit_id)

theorem was_visible_now {atom : Atom} (hatom : atom ∈ atoms snapshot.fragments) :
    atom.was_visible snapshot.version snapshot.undo_map = atom.visible := by
  rw [Bool.eq_iff_iff, h.was_visible (Global.observed_all_refl _) hatom, h.visible atom hatom]

theorem lists_earlier (hlawful : ledger.Lawful) {earlier : Global} (hversion : ledger.Consistent earlier)
    (hearlier : snapshot.version.observed_all earlier = true) :
    ledger.Lists earlier (((atoms snapshot.fragments).filter fun atom =>
      earlier.observed atom.timestamp).map Atom.id) := by
  have hfilter := h.lists.filter hlawful hversion hearlier
  rwa [List.filter_map] at hfilter

theorem doc_eq (hlawful : ledger.Lawful) {record : Record} (hmem : record ∈ ledger.records)
    (hall : snapshot.version.observed_all record.version = true) :
    ((atoms snapshot.fragments).filter fun atom => record.version.observed atom.timestamp).map Atom.id =
      record.doc := by
  have hadmits := hlawful.admits record hmem
  exact (h.lists_earlier hlawful hadmits.consistent hall).unique hlawful hadmits.lists fun _ => Iff.rfl

theorem not_counts (hlawful : ledger.Lawful) {timestamp undo_id : Lamport} {count : Nat}
    (hnot : snapshot.version.observed timestamp = false) (hobserved : snapshot.version.observed undo_id = true) :
    ¬ ledger.Counts undo_id timestamp count := by
  rintro ⟨record, hfind, hcounts⟩
  obtain ⟨hmem, rfl⟩ := mem_of_find hfind
  have hundone := ((hlawful.admits record hmem).undone timestamp count hcounts).1
  have hall := h.version.closed record hmem hobserved
  rw [Global.observed_of_observed_all hall hundone] at hnot
  cases hnot

theorem not_deletes (hlawful : ledger.Lawful) {id : AtomId} {deletion : Lamport}
    (hnot : snapshot.version.observed id.1 = false) (hobserved : snapshot.version.observed deletion = true) :
    ¬ ledger.Deletes deletion id := by
  rintro ⟨record, hfind, hseen, -⟩
  obtain ⟨hmem, rfl⟩ := mem_of_find hfind
  have hmember := (((hlawful.admits record hmem).seen id).mp hseen).1
  have hall := h.version.closed record hmem hobserved
  rw [Global.observed_of_observed_all hall hmember.1] at hnot
  cases hnot

end Mirrors

theorem Mirrors.fragment_visible (h : ledger.Mirrors snapshot) {fragment : Fragment}
    (hfragment : fragment ∈ snapshot.fragments) :
    fragment.is_visible snapshot.undo_map = fragment.visible ∧
      fragment.was_visible snapshot.version snapshot.undo_map = fragment.visible := by
  have hatom : fragment.atom 0 ∈ fragment.atoms :=
    Fragment.mem_atoms.mpr ⟨0, h.store.len_pos fragment hfragment, rfl⟩
  have hmem : fragment.atom 0 ∈ atoms snapshot.fragments := List.mem_flatMap.mpr ⟨fragment, hfragment, hatom⟩
  have hwas : fragment.was_visible snapshot.version snapshot.undo_map = fragment.visible := by
    rw [← Fragment.was_visible_of_mem hatom, h.was_visible_now hmem]
    rfl
  refine ⟨?_, hwas⟩
  rw [← hwas]
  have hundone : ∀ edit_id, UndoMap.is_undone snapshot.undo_map edit_id =
      UndoMap.was_undone snapshot.undo_map edit_id snapshot.version := fun edit_id => by
    rw [Bool.eq_iff_iff, h.is_undone, h.was_undone (Global.observed_all_refl _)]
  have hobserved : snapshot.version.observed fragment.timestamp = true := (h.member hmem).1
  unfold Fragment.is_visible Fragment.was_visible
  rw [hobserved, Bool.true_and, hundone]
  congr 1
  rw [Bool.eq_iff_iff, List.all_eq_true, List.all_eq_true]
  refine forall₂_congr fun deletion hdeletion => ?_
  rw [((h.deletions _ hmem deletion).mp hdeletion).1, Bool.not_true, Bool.false_or, hundone]

end Ledger

end zed.text
