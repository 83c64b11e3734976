import Zed.Text.Mirror.Local

namespace zed.text

open zed.clock zed.rope
namespace Ledger

variable {ledger : Ledger} {snapshot : BufferSnapshot} {record : Record} {undo : UndoOperation}

/-- Observing an operation that inserts nothing keeps the atoms. -/
theorem Lists.observe {version : Global} {ids : List AtomId} (h : ledger.Lists version ids)
    (hlawful : ledger.Lawful) (hmem : record ∈ ledger.records) (hversion : ledger.Consistent version)
    (hall : version.observed_all record.version = true) (hpayload : record.payload = []) :
    ledger.Lists (version.observe record.timestamp) ids := by
  refine ⟨fun timestamp => ?_, h.rooted⟩
  rw [h.insertion]
  by_cases hempty : ledger.payload timestamp = []
  · simp [inserted, hempty]
  · have hne : timestamp ≠ record.timestamp := by
      rintro rfl
      rw [hlawful.payload_eq hmem] at hempty
      exact hempty hpayload
    have hiff := hlawful.observe_iff hmem hversion hall (known_of_payload hempty)
    simp only [hiff, hne, or_false]

section undo

variable (hlawful : ledger.Lawful) (hmem : record ∈ ledger.records) (hop : record.op = .Undo undo)
  (h : ledger.Mirrors snapshot) (hall : snapshot.version.observed_all record.version = true)

omit hlawful hmem h hall in
include hop in
theorem Record.undo_eqs : record.timestamp = undo.timestamp ∧ record.payload = [] ∧
    (∀ id, ¬ record.Deletes id) ∧
    ∀ edit_id count, record.Counts edit_id count ↔ (edit_id, count) ∈ undo.counts.entries := by
  refine ⟨?_, ?_, ?_, ?_⟩
  · rw [Record.timestamp, hop]
    rfl
  · simp only [Record.payload, hop]
  · rintro id ⟨-, hhit⟩
    simp [Record.cuts, hop, zed.replicated.hit] at hhit
  · intro edit_id count
    simp only [Record.Counts, hop]

include hlawful hmem hop h hall

theorem Mirrors.undo_counts_iff {undo_id edit_id : Lamport} {count : Nat} :
    (snapshot.version.observe undo.timestamp).observed undo_id = true ∧ ledger.Counts undo_id edit_id count ↔
      (snapshot.version.observed undo_id = true ∧ ledger.Counts undo_id edit_id count) ∨
        undo_id = undo.timestamp ∧ (edit_id, count) ∈ undo.counts.entries := by
  obtain ⟨htimestamp, -, -, hcounts⟩ := Record.undo_eqs hop
  rw [← htimestamp]
  constructor
  · rintro ⟨hobserved, other, hfind, hother⟩
    obtain hold | rfl := (hlawful.observe_iff hmem h.version hall (known_of_find hfind)).mp hobserved
    · exact Or.inl ⟨hold, other, hfind, hother⟩
    · rw [hlawful.find hmem] at hfind
      cases hfind
      exact Or.inr ⟨rfl, (hcounts _ _).mp hother⟩
  · rintro (⟨hold, hother⟩ | ⟨rfl, hentry⟩)
    · exact ⟨Global.observed_of_observed_all (Global.observe_observed_all _ _) hold, hother⟩
    · exact ⟨Global.observe_observed_self _ _, record, hlawful.find hmem, (hcounts _ _).mpr hentry⟩

theorem Mirrors.undo_deletes_iff {deletion : Lamport} {id : AtomId} :
    (snapshot.version.observe undo.timestamp).observed deletion = true ∧ ledger.Deletes deletion id ↔
      snapshot.version.observed deletion = true ∧ ledger.Deletes deletion id := by
  obtain ⟨htimestamp, -, hnone, -⟩ := Record.undo_eqs hop
  rw [← htimestamp]
  constructor
  · rintro ⟨hobserved, other, hfind, hdeletes⟩
    obtain hold | rfl := (hlawful.observe_iff hmem h.version hall (known_of_find hfind)).mp hobserved
    · exact ⟨hold, other, hfind, hdeletes⟩
    · rw [hlawful.find hmem] at hfind
      cases hfind
      exact absurd hdeletes (hnone _)
  · exact fun hold => ⟨Global.observed_of_observed_all (Global.observe_observed_all _ _) hold.1, hold.2⟩

omit h hall in
theorem Lawful.edited_of_key {edit_id : Lamport} (hkey : edit_id ∈ undo.counts.keys) :
    ledger.edited edit_id := by
  obtain ⟨-, -, -, hcounts⟩ := Record.undo_eqs hop
  obtain ⟨⟨other, count⟩, hentry, rfl⟩ := List.mem_map.mp hkey
  obtain ⟨-, edit, found, hfind, -⟩ := (hlawful.admits record hmem).undone other count ((hcounts _ _).mpr hentry)
  obtain ⟨hfound, rfl⟩ := mem_of_find hfind
  by_cases hbase : ledger.base = []
  · exact Or.inl hbase
  · exact Or.inr (hlawful.base_fresh hbase found hfound)

omit hlawful hmem hop h hall in
theorem mem_undone {atom : Atom} (hatom : atom ∈ atoms (snapshot.undoneFragments undo)) :
    ∃ fragment ∈ snapshot.fragments, ∃ old ∈ fragment.atoms, atom.id = old.id ∧ atom.deletions = old.deletions ∧
      ((atom.visible = fragment.is_visible (UndoMap.insert snapshot.undo_map undo) ∧
          atom.max_undos = old.max_undos.observe undo.timestamp) ∨
        fragment.id ∉ snapshot.undoneIds undo ∧ atom = old) := by
  obtain ⟨undone, hundone, hmem⟩ := List.mem_flatMap.mp hatom
  obtain ⟨fragment, hfragment, rfl⟩ := List.mem_map.mp hundone
  obtain ⟨i, hi, rfl⟩ := Fragment.mem_atoms.mp hmem
  unfold Fragment.undoWithin at hi ⊢
  by_cases hid : fragment.id ∈ snapshot.undoneIds undo
  · rw [if_pos hid] at hi ⊢
    exact ⟨fragment, hfragment, fragment.atom i, Fragment.mem_atoms.mpr ⟨i, hi, rfl⟩, rfl, rfl, Or.inl ⟨rfl, rfl⟩⟩
  · rw [if_neg hid] at hi ⊢
    exact ⟨fragment, hfragment, fragment.atom i, Fragment.mem_atoms.mpr ⟨i, hi, rfl⟩, rfl, rfl, Or.inr ⟨hid, rfl⟩⟩

/-- A mirror stays one when it applies an undo whose dependencies it has. -/
theorem Mirrors.apply_undo (hnot : snapshot.version.observed record.timestamp = false) :
    ledger.Mirrors ((snapshot.apply_undo undo).1.observing undo.timestamp) ∧
      (snapshot.apply_undo undo).2.Takes snapshot.visible_text (snapshot.apply_undo undo).1.visible_text := by
  obtain ⟨htimestamp, hpayload, -, hcounts⟩ := Record.undo_eqs hop
  have hundo := BufferSnapshot.apply_undo_spec h.store undo
  refine ⟨?_, hundo.patch⟩
  have hversion : ((snapshot.apply_undo undo).1.observing undo.timestamp).version =
      snapshot.version.observe undo.timestamp := by rw [BufferSnapshot.observing, hundo.version]
  have hfragments : ((snapshot.apply_undo undo).1.observing undo.timestamp).fragments =
      snapshot.undoneFragments undo := hundo.fragments
  have hundoMap : ((snapshot.apply_undo undo).1.observing undo.timestamp).undo_map =
      UndoMap.insert snapshot.undo_map undo := hundo.undo_map
  have hfresh : ∀ entry ∈ snapshot.undo_map, entry.key.undo_id ≠ undo.timestamp := by
    rintro ⟨⟨edit_id, undo_id⟩, count⟩ hentry rfl
    have hobserved := ((h.undos _ _ _).mp hentry).1
    rw [← htimestamp, hnot] at hobserved
    cases hobserved
  have hsorted := UndoMap.insert_sorted h.undo_sorted undo
  have hundos : ∀ edit_id undo_id count,
      (⟨⟨edit_id, undo_id⟩, count⟩ : UndoMapEntry) ∈ UndoMap.insert snapshot.undo_map undo ↔
        (snapshot.version.observe undo.timestamp).observed undo_id = true ∧
          ledger.Counts undo_id edit_id count := by
    intro edit_id undo_id count
    rw [UndoMap.mem_insert h.undo_sorted hfresh, h.undos, h.undo_counts_iff hlawful hmem hop hall]
  have hlists := h.lists.observe hlawful hmem h.version hall hpayload
  rw [htimestamp, ← BufferSnapshot.undoneFragments_ids undo] at hlists
  -- an edit that the undo is not about is undone as before
  have hother : ∀ edit_id, edit_id ∉ undo.counts.keys →
      (ledger.UndoneAt (snapshot.version.observe undo.timestamp) edit_id ↔
        ledger.UndoneAt snapshot.version edit_id) := by
    intro edit_id hkey
    apply undoneAt_congr
    intro undo_id count
    rw [h.undo_counts_iff hlawful hmem hop hall, or_iff_left]
    rintro ⟨-, hentry⟩
    exact hkey (List.mem_map.mpr ⟨_, hentry, rfl⟩)
  have hkeys : ∀ fragment ∈ snapshot.fragments, fragment.id ∉ snapshot.undoneIds undo →
      ∀ edit_id ∈ fragment.timestamp :: fragment.deletions, edit_id ∉ undo.counts.keys :=
    fun fragment hfragment hid edit_id hedit hkey =>
      hid (hundo.found fragment hfragment edit_id hedit (hlawful.edited_of_key hmem hop hkey) hkey)
  have hgrow := Global.observe_observed_all snapshot.version undo.timestamp
  refine
    { version := ?_
      store := hundo.store.observing undo.timestamp
      lists := ?_
      deletions := fun atom hatom deletion => ?_
      undo_sorted := ?_
      undos := fun edit_id undo_id count => ?_
      visible := fun atom hatom => ?_
      max_undos := fun atom hatom edit_id hedit undo_id count hobserved hcount => ?_ }
  · rw [hversion, ← htimestamp]
    exact h.version.observe hlawful hmem hall
  · rw [hversion, hfragments]
    exact hlists
  · rw [hfragments] at hatom
    obtain ⟨fragment, hfragment, old, hold, hid, hdeletions, -⟩ := mem_undone hatom
    rw [hversion, hid, hdeletions, h.undo_deletes_iff hlawful hmem hop hall]
    exact h.deletions old (List.mem_flatMap.mpr ⟨fragment, hfragment, hold⟩) deletion
  · rw [hundoMap]
    exact hsorted
  · rw [hundoMap, hversion]
    exact hundos edit_id undo_id count
  · rw [hfragments] at hatom
    have hmember := hlists.mem.mp (List.mem_map_of_mem hatom)
    rw [hversion]
    obtain ⟨fragment, hfragment, old, hold, hid, -, hcase⟩ := mem_undone hatom
    have holdMem : old ∈ atoms snapshot.fragments := List.mem_flatMap.mpr ⟨fragment, hfragment, hold⟩
    obtain ⟨htimestampEq, -, hdeletionsEq, -⟩ := Fragment.atoms_eq_of_mem hold
    have hold1 : old.id.1 = fragment.timestamp := htimestampEq
    have hdeletes : ∀ deletion, (snapshot.version.observe undo.timestamp).observed deletion = true ∧
        ledger.Deletes deletion old.id ↔ deletion ∈ fragment.deletions := by
      intro deletion
      rw [h.undo_deletes_iff hlawful hmem hop hall, ← h.deletions old holdMem, hdeletionsEq]
    rw [hid] at hmember ⊢
    unfold VisibleAt
    rw [hold1, and_iff_right hmember]
    obtain ⟨hvisible, -⟩ | ⟨hnotFound, rfl⟩ := hcase
    · rw [hvisible, Fragment.is_visible, Bool.and_eq_true, Bool.not_eq_true', ← Bool.not_eq_true,
        is_undone_iff hsorted (hundos _), List.all_eq_true]
      refine and_congr_right' (forall_congr' fun deletion => ?_)
      rw [← and_imp, hdeletes, is_undone_iff hsorted (hundos _)]
    · have hkey := hkeys fragment hfragment hnotFound
      rw [h.visible _ holdMem, VisibleAt, hold1, and_iff_right (h.member holdMem),
        hother _ (hkey _ List.mem_cons_self)]
      refine and_congr_right' (forall_congr' fun deletion => ?_)
      rw [← and_imp, ← and_imp, hdeletes, ← h.deletions _ holdMem, hdeletionsEq]
      exact forall_congr' fun hdeletion => (hother _ (hkey _ (List.mem_cons_of_mem _ hdeletion))).symm
  · rw [hfragments] at hatom
    obtain ⟨fragment, hfragment, old, hold, hid, hdeletions, hcase⟩ := mem_undone hatom
    have holdMem : old ∈ atoms snapshot.fragments := List.mem_flatMap.mpr ⟨fragment, hfragment, hold⟩
    obtain ⟨htimestampEq, -, hdeletionsEq, -⟩ := Fragment.atoms_eq_of_mem hold
    have htimestampOld : atom.timestamp = old.timestamp := congrArg Prod.fst hid
    rw [htimestampOld, hdeletions] at hedit
    rw [hversion] at hobserved
    obtain ⟨hobserved, hcount⟩ | ⟨rfl, hentry⟩ :=
      (h.undo_counts_iff hlawful hmem hop hall).mp ⟨hobserved, hcount⟩
    · have hmax := h.max_undos old holdMem edit_id hedit undo_id count hobserved hcount
      obtain ⟨-, hundone⟩ | ⟨-, rfl⟩ := hcase
      · rw [hundone]
        exact Global.observed_of_observed_all (Global.observe_observed_all _ _) hmax
      · exact hmax
    · obtain ⟨-, hundone⟩ | ⟨hnotFound, rfl⟩ := hcase
      · rw [hundone]
        exact Global.observe_observed_self _ _
      · rw [htimestampEq, hdeletionsEq] at hedit
        have hkey : edit_id ∈ undo.counts.keys := List.mem_map.mpr ⟨_, hentry, rfl⟩
        exact absurd hkey (hkeys fragment hfragment hnotFound edit_id hedit)

end undo

theorem Mirrors.undo_operations (hlawful : ledger.Lawful) (h : ledger.Mirrors snapshot)
    (hauthors : ledger.Authors snapshot (.Undo undo))
    (hundone : ∀ edit_id ∈ undo.counts.keys, snapshot.version.observed edit_id = true ∧
      ∃ edit other, ledger.find edit_id = some other ∧ other.op = .Edit edit) :
    (ledger.push (snapshot.authored (.Undo undo))).Lawful ∧
      (ledger.push (snapshot.authored (.Undo undo))).Mirrors
        ((snapshot.apply_undo undo).1.observing undo.timestamp) ∧
      (snapshot.apply_undo undo).2.Takes snapshot.visible_text (snapshot.apply_undo undo).1.visible_text := by
  have hrecordFresh : ledger.Fresh (snapshot.authored (.Undo undo)).timestamp := hauthors.fresh
  have hadmits : ledger.Admits (snapshot.authored (.Undo undo)) := by
    apply h.admits hauthors
    · intro edit heq
      cases heq
    · intro edit_id count hcounts
      exact hundone edit_id (List.mem_map.mpr ⟨_, hcounts, rfl⟩)
  have hlawful' := hlawful.push hrecordFresh hadmits
  refine ⟨hlawful', ?_⟩
  have hversion : (snapshot.authored (.Undo undo)).version = snapshot.version := hauthors.version_eq
  apply (h.push hrecordFresh).apply_undo hlawful' mem_push rfl
  · rw [hversion]
    exact Global.observed_all_refl _
  · exact hrecordFresh.not_observed h.version

end Ledger

end zed.text
