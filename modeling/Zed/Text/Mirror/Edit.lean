import Zed.Text.Mirror

namespace zed.text

open zed.clock zed.rope
open zed.replicated (CutsFrom weave hit markFrom_eq_map weave_rooted)

variable {ledger : Ledger} {snapshot after : BufferSnapshot} {record : Record} {edit : EditOperation}

theorem Record.cuts_edit (hop : record.op = .Edit edit) :
    record.cuts = cutsOf record.timestamp 0 (edit.ranges.zip edit.new_text) := by
  simp only [Record.cuts, Record.timestamp, hop, Operation.timestamp]

/-- How many bytes the blocks of an edit have. -/
theorem Record.payload_length (hop : record.op = .Edit edit)
    (hlength : edit.ranges.length = edit.new_text.length) :
    ((edit.ranges.zip edit.new_text).map fun edit => (utf8 edit.2).length).sum = record.payload.length := by
  simp only [Record.payload, hop, List.length_flatMap]
  have hsnd : (edit.ranges.zip edit.new_text).map Prod.snd = edit.new_text :=
    List.map_snd_zip hlength.ge
  conv_rhs => rw [← hsnd, List.map_map]
  rfl

/-- An atom that was there before an edit, after it. -/
def Record.mark (record : Record) (undos : UndoMap) (atom : Atom) : Atom :=
  if record.version.observed atom.timestamp && hit record.cuts (record.doc.idxOf atom.id) then
    atom.deleteObserved record.version undos record.timestamp
  else atom

theorem Record.mark_id (record : Record) (undos : UndoMap) (atom : Atom) :
    (record.mark undos atom).id = atom.id := by
  unfold Record.mark
  split
  · exact Atom.deleteObserved_id _ _ _ _
  · rfl

namespace Ledger

section ready

variable (hlawful : ledger.Lawful) (hmem : record ∈ ledger.records) (h : ledger.Mirrors snapshot)
  (hall : snapshot.version.observed_all record.version = true)
  (hnot : snapshot.version.observed record.timestamp = false)

include hlawful hmem

theorem Lawful.before (xs : List Atom) : Before record.version record.timestamp xs := by
  intro atom _ hobserved
  apply Lamport.lt_of_value_lt
  exact (Global.observed_iff.mp hobserved).trans_lt ((hlawful.admits record hmem).before _)

include h hall

theorem Mirrors.cuts (hop : record.op = .Edit edit) :
    CutsFrom ((atoms snapshot.fragments).filter fun atom => record.version.observed atom.timestamp).length 0
      record.cuts := by
  have hlength := congrArg List.length (h.doc_eq hlawful hmem hall)
  rw [List.length_map] at hlength
  rw [hlength]
  exact ((hlawful.admits record hmem).ranges edit hop).2

omit hlawful hmem hall in
include hnot in
theorem Mirrors.timestamp_ne {atom : Atom} (hatom : atom ∈ atoms snapshot.fragments) :
    atom.timestamp ≠ record.timestamp := by
  intro heq
  have hmember := (h.member hatom).1
  rw [show atom.id.1 = record.timestamp from heq, hnot] at hmember
  cases hmember

end ready

/-- What an edit is to have done to the atoms, and what it must leave alone. -/
structure Weaves (ledger : Ledger) (record : Record) (snapshot after : BufferSnapshot) : Prop where
  store : after.Store ledger.content ledger.edited
  undo_map : after.undo_map = snapshot.undo_map
  version : after.version = snapshot.version.observe record.timestamp
  woven : atoms after.fragments =
    weave (remoteLoom record.version snapshot.undo_map record.timestamp) record.cuts (atoms snapshot.fragments)

section weaves

variable (hlawful : ledger.Lawful) (hmem : record ∈ ledger.records) (hop : record.op = .Edit edit)
  (h : ledger.Mirrors snapshot) (hall : snapshot.version.observed_all record.version = true)
  (hnot : snapshot.version.observed record.timestamp = false) (hweaves : ledger.Weaves record snapshot after)

include hlawful hmem hop h hall hnot hweaves

theorem Weaves.inserted : (atoms after.fragments).filter (Atom.insertedBy record.timestamp) =
    insertedAtoms record.timestamp 0 (ledger.payload record.timestamp).length := by
  have hadmits := hlawful.admits record hmem
  have hcuts := h.cuts hlawful hmem hall hop
  rw [Record.cuts_edit hop] at hcuts
  rw [hweaves.woven, Record.cuts_edit hop, weave_inserted (remoteLoom_fits _ (hlawful.before hmem _))
    (fun atom _ => Atom.deleteObserved_id _ _ _ atom) (fun atom hatom => h.timestamp_ne hnot hatom) hcuts,
    Record.payload_length hop (hadmits.ranges edit hop).1, hlawful.payload_eq hmem]

theorem Weaves.kept : (atoms after.fragments).filter (fun atom => !atom.insertedBy record.timestamp) =
    (atoms snapshot.fragments).map (record.mark snapshot.undo_map) := by
  have hcuts := h.cuts hlawful hmem hall hop
  rw [Record.cuts_edit hop] at hcuts
  have hdoc := h.doc_eq hlawful hmem hall
  have hnodup : (((atoms snapshot.fragments).filter (remoteLoom record.version snapshot.undo_map
      record.timestamp).obs).map Atom.id).Nodup :=
    h.store.nodup.sublist (List.filter_sublist.map Atom.id)
  rw [hweaves.woven, Record.cuts_edit hop, weave_kept (remoteLoom_fits _ (hlawful.before hmem _))
    (fun atom _ => Atom.deleteObserved_id _ _ _ atom) (fun atom hatom => h.timestamp_ne hnot hatom) hcuts,
    markFrom_eq_map hnodup]
  refine List.map_congr_left fun atom _ => ?_
  rw [Record.mark, ← hdoc, Record.cuts_edit hop]
  rfl

theorem Weaves.cases {atom : Atom} (hatom : atom ∈ atoms after.fragments) :
    (∃ i < (ledger.payload record.timestamp).length,
      atom = ⟨record.timestamp, i, true, [], Global.new⟩) ∨
      ∃ old ∈ atoms snapshot.fragments, atom = record.mark snapshot.undo_map old := by
  by_cases hinserted : atom.insertedBy record.timestamp = true
  · have hin : atom ∈ (atoms after.fragments).filter (Atom.insertedBy record.timestamp) :=
      List.mem_filter.mpr ⟨hatom, hinserted⟩
    rw [hweaves.inserted hlawful hmem hop h hall hnot] at hin
    obtain ⟨i, hi, rfl⟩ := mem_insertedAtoms.mp hin
    exact Or.inl ⟨i, hi, by rw [Nat.zero_add]⟩
  · have hin : atom ∈ (atoms after.fragments).filter fun atom => !atom.insertedBy record.timestamp :=
      List.mem_filter.mpr ⟨hatom, by simpa using hinserted⟩
    rw [hweaves.kept hlawful hmem hop h hall hnot] at hin
    obtain ⟨old, hold, rfl⟩ := List.mem_map.mp hin
    exact Or.inr ⟨old, hold, rfl⟩

theorem Weaves.lists : ledger.Lists after.version ((atoms after.fragments).map Atom.id) := by
  have hadmits := hlawful.admits record hmem
  have hdoc := h.doc_eq hlawful hmem hall
  refine ⟨fun timestamp => ?_, ?_⟩
  · rw [List.filter_map, hweaves.version]
    by_cases heq : timestamp = record.timestamp
    · have hinserted := hweaves.inserted hlawful hmem hop h hall hnot
      subst heq
      rw [if_pos (Global.observe_observed_self _ _)]
      change ((atoms after.fragments).filter (Atom.insertedBy record.timestamp)).map Atom.id = _
      rw [hinserted, insertedAtoms, List.map_map, Ledger.inserted]
      refine List.map_congr_left fun i _ => ?_
      simp [Atom.id]
    · -- the atoms of another insertion are among those that were there
      have hfilter : (atoms after.fragments).filter ((fun id : AtomId => decide (id.1 = timestamp)) ∘ Atom.id) =
          ((atoms after.fragments).filter fun atom => !atom.insertedBy record.timestamp).filter
            ((fun id : AtomId => decide (id.1 = timestamp)) ∘ Atom.id) := by
        rw [List.filter_filter]
        refine List.filter_congr fun atom _ => ?_
        by_cases hatom : atom.timestamp = timestamp
        · have hne : atom.timestamp ≠ record.timestamp := fun h' => heq (hatom ▸ h')
          simp [Atom.insertedBy, Atom.id, hatom, heq]
        · simp [Atom.id, hatom]
      have hold := h.lists.insertion timestamp
      rw [List.filter_map] at hold
      have hmark : (fun id : AtomId => decide (id.1 = timestamp)) ∘ Atom.id ∘ record.mark snapshot.undo_map =
          (fun id : AtomId => decide (id.1 = timestamp)) ∘ Atom.id := by
        funext atom
        simp only [Function.comp_apply, Record.mark_id]
      have hids : Atom.id ∘ record.mark snapshot.undo_map = Atom.id := by
        funext atom
        exact Record.mark_id _ _ atom
      rw [hfilter, hweaves.kept hlawful hmem hop h hall hnot, List.filter_map, List.map_map, hids,
        Function.comp_assoc, hmark, hold]
      by_cases hpayload : ledger.payload timestamp = []
      · simp [Ledger.inserted, hpayload]
      · have hiff := hlawful.observe_iff hmem h.version hall (known_of_payload hpayload)
        simp only [hiff, heq, or_false]
  · rw [hweaves.woven]
    apply weave_rooted (remoteLoom_fits _ (hlawful.before hmem _)) _ (h.cuts hlawful hmem hall hop)
      h.lists.rooted
    have hnew : ∀ cut ∈ record.cuts, ∀ atom ∈ cut.block, atom.timestamp = record.timestamp := by
      intro cut hcut atom hatom
      rw [Record.cuts_edit hop] at hcut
      have hblock := List.mem_flatMap.mpr ⟨cut, hcut, hatom⟩
      rw [cutsOf_blocks] at hblock
      obtain ⟨i, -, rfl⟩ := mem_insertedAtoms.mp hblock
      rfl
    refine
      { mark_id := fun atom _ => Atom.deleteObserved_id _ _ _ atom
        origin_eq := fun cut hcut atom hatom => ?_
        above_prior := fun atom _ habove cut hcut new hatom => ?_
        prior_below := fun atom hold hbelow cut hcut new hatom => ?_
        blocks := ?_ }
    · rw [hlawful.origin_eq hmem hop hcut hatom, ← hdoc]
      rfl
    · refine Or.inl ?_
      rw [show new.id.1 = record.timestamp from hnew cut hcut new hatom]
      exact of_decide_eq_true habove
    · refine Or.inl ?_
      rw [show new.id.1 = record.timestamp from hnew cut hcut new hatom]
      have hle := not_lt.mp (of_decide_eq_false hbelow)
      exact lt_of_le_of_ne hle (h.timestamp_ne hnot hold)
    · rw [Record.cuts_edit hop, cutsOf_blocks, insertedAtoms, List.map_map, List.pairwise_map]
      refine List.pairwise_lt_range.imp fun {i j} hlt => Or.inr ⟨rfl, ?_⟩
      change 0 + i < 0 + j
      omega

omit hnot in
theorem Weaves.counts_iff {undo_id edit_id : Lamport} {count : Nat} :
    after.version.observed undo_id = true ∧ ledger.Counts undo_id edit_id count ↔
      snapshot.version.observed undo_id = true ∧ ledger.Counts undo_id edit_id count := by
  rw [hweaves.version]
  constructor
  · rintro ⟨hobserved, other, hfind, hcounts⟩
    obtain hold | rfl := (hlawful.observe_iff hmem h.version hall (known_of_find hfind)).mp hobserved
    · exact ⟨hold, other, hfind, hcounts⟩
    · rw [hlawful.find hmem] at hfind
      cases hfind
      simp only [Record.Counts, hop] at hcounts
  · exact fun hold => ⟨Global.observed_of_observed_all (Global.observe_observed_all _ _) hold.1, hold.2⟩

omit hnot in
theorem Weaves.undoneAt_iff {edit_id : Lamport} :
    ledger.UndoneAt after.version edit_id ↔ ledger.UndoneAt snapshot.version edit_id :=
  undoneAt_congr fun _ _ => hweaves.counts_iff hlawful hmem hop h hall

/-- Nothing that a version saw before an edit is about the edit. -/
theorem Weaves.not_undoneAt : ¬ ledger.UndoneAt after.version record.timestamp := by
  rw [hweaves.undoneAt_iff hlawful hmem hop h hall]
  exact Ledger.not_undoneAt fun undo_id count hobserved => h.not_counts hlawful hnot hobserved

omit hop hnot in
theorem Weaves.deletes_iff {deletion : Lamport} {id : AtomId} :
    after.version.observed deletion = true ∧ ledger.Deletes deletion id ↔
      (snapshot.version.observed deletion = true ∧ ledger.Deletes deletion id) ∨
        deletion = record.timestamp ∧ record.Deletes id := by
  rw [hweaves.version]
  constructor
  · rintro ⟨hobserved, other, hfind, hdeletes⟩
    obtain hold | rfl := (hlawful.observe_iff hmem h.version hall (known_of_find hfind)).mp hobserved
    · exact Or.inl ⟨hold, other, hfind, hdeletes⟩
    · rw [hlawful.find hmem] at hfind
      cases hfind
      exact Or.inr ⟨rfl, hdeletes⟩
  · rintro (⟨hold, hdeletes⟩ | ⟨rfl, hdeletes⟩)
    · exact ⟨Global.observed_of_observed_all (Global.observe_observed_all _ _) hold, hdeletes⟩
    · exact ⟨Global.observe_observed_self _ _, record, hlawful.find hmem, hdeletes⟩

omit hlawful hmem hop h hall hnot hweaves in
theorem Record.mark_of_deletes {undos : UndoMap} {atom : Atom}
    (hobserved : record.version.observed atom.timestamp = true)
    (hit : hit record.cuts (record.doc.idxOf atom.id) = true)
    (hwas : atom.was_visible record.version undos = true) :
    record.mark undos atom = atom.delete record.timestamp := by
  rw [Record.mark, hobserved, hit, Bool.true_and, if_pos rfl, Atom.deleteObserved, if_pos hwas]

omit hop hnot hweaves in
theorem Mirrors.mark_eq {atom : Atom} (hatom : atom ∈ atoms snapshot.fragments) :
    (record.Deletes atom.id ∧ record.mark snapshot.undo_map atom = atom.delete record.timestamp) ∨
      ¬ record.Deletes atom.id ∧ record.mark snapshot.undo_map atom = atom := by
  have hadmits := hlawful.admits record hmem
  have hseen : atom.was_visible record.version snapshot.undo_map = true ↔ atom.id ∈ record.seen := by
    rw [h.was_visible hall hatom, hadmits.seen]
  by_cases hdeletes : record.Deletes atom.id
  · have hmember := ((hadmits.seen _).mp hdeletes.1).1
    exact Or.inl ⟨hdeletes, Record.mark_of_deletes hmember.1 hdeletes.2 (hseen.mpr hdeletes.1)⟩
  · refine Or.inr ⟨hdeletes, ?_⟩
    unfold Record.mark Atom.deleteObserved
    split
    · rename_i hmarked
      rw [Bool.and_eq_true] at hmarked
      rw [if_neg fun hwas => hdeletes ⟨hseen.mp hwas, hmarked.2⟩]
    · rfl

/-- A mirror stays one when it applies an edit whose dependencies it has. -/
theorem Weaves.mirrors : ledger.Mirrors after := by
  have hgrow := Global.observe_observed_all snapshot.version record.timestamp
  have hself : after.version.observed record.timestamp = true := by
    rw [hweaves.version]
    exact Global.observe_observed_self _ _
  have hnewId : ∀ i, snapshot.version.observed ((record.timestamp, i) : AtomId).1 = false := fun _ => hnot
  have hnoDeletes : ∀ (i : Nat) (deletion : Lamport), after.version.observed deletion = true →
      ¬ ledger.Deletes deletion (record.timestamp, i) := by
    intro i deletion hobserved hdeletes
    obtain ⟨hold, hdeletes⟩ | ⟨-, hseen, -⟩ :=
      (hweaves.deletes_iff hlawful hmem h hall).mp ⟨hobserved, hdeletes⟩
    · exact h.not_deletes hlawful (hnewId i) hold hdeletes
    · have hmember := (((hlawful.admits record hmem).seen _).mp hseen).1
      exact (Global.observed_iff.mp hmember.1).not_gt ((hlawful.admits record hmem).before _)
  refine
    { version := ?_
      store := hweaves.store
      lists := hweaves.lists hlawful hmem hop h hall hnot
      deletions := fun atom hatom deletion => ?_
      undo_sorted := ?_
      undos := fun edit_id undo_id count => ?_
      visible := fun atom hatom => ?_
      max_undos := fun atom hatom edit_id hedit undo_id count hobserved hcounts => ?_ }
  · rw [hweaves.version]
    exact h.version.observe hlawful hmem hall
  · obtain ⟨i, -, rfl⟩ | ⟨old, hold, rfl⟩ := hweaves.cases hlawful hmem hop h hall hnot hatom
    · simp only [List.not_mem_nil, false_iff, not_and]
      exact hnoDeletes i deletion
    · rw [Record.mark_id, hweaves.deletes_iff hlawful hmem h hall, ← h.deletions old hold]
      obtain ⟨hdeletes, hmark⟩ | ⟨hdeletes, hmark⟩ := h.mark_eq hlawful hmem hall hold
      · rw [hmark]
        simp [Atom.delete, hdeletes]
      · rw [hmark]
        simp [hdeletes]
  · rw [hweaves.undo_map]
    exact h.undo_sorted
  · rw [hweaves.undo_map, h.undos, hweaves.counts_iff hlawful hmem hop h hall]
  · have hlists := hweaves.lists hlawful hmem hop h hall hnot
    have hmember := hlists.mem.mp (List.mem_map_of_mem hatom)
    obtain ⟨i, hi, rfl⟩ | ⟨old, hold, rfl⟩ := hweaves.cases hlawful hmem hop h hall hnot hatom
    · refine iff_of_true rfl ⟨hmember, hweaves.not_undoneAt hlawful hmem hop h hall hnot, ?_⟩
      exact fun deletion hobserved hdeletes => absurd hdeletes (hnoDeletes i deletion hobserved)
    · rw [Record.mark_id] at hmember ⊢
      obtain ⟨hdeletes, hmark⟩ | ⟨hdeletes, hmark⟩ := h.mark_eq hlawful hmem hall hold
      · rw [hmark]
        refine iff_of_false Bool.false_ne_true fun hvisible => ?_
        refine hweaves.not_undoneAt hlawful hmem hop h hall hnot (hvisible.2.2 record.timestamp hself ?_)
        exact ⟨record, hlawful.find hmem, hdeletes⟩
      · rw [hmark, h.visible old hold]
        unfold VisibleAt
        simp only [hweaves.undoneAt_iff hlawful hmem hop h hall]
        refine and_congr (iff_of_true (h.member hold) hmember) (and_congr_right' (forall_congr' fun deletion => ?_))
        have hiff : after.version.observed deletion = true ∧ ledger.Deletes deletion old.id ↔
            snapshot.version.observed deletion = true ∧ ledger.Deletes deletion old.id := by
          rw [hweaves.deletes_iff hlawful hmem h hall]
          simp only [hdeletes, and_false, or_false]
        rw [← and_imp, ← hiff, and_imp]
  · obtain ⟨hobserved, hcounts⟩ := (hweaves.counts_iff hlawful hmem hop h hall).mp ⟨hobserved, hcounts⟩
    have hne : edit_id ≠ record.timestamp := by
      rintro rfl
      exact h.not_counts hlawful hnot hobserved hcounts
    obtain ⟨i, -, rfl⟩ | ⟨old, hold, rfl⟩ := hweaves.cases hlawful hmem hop h hall hnot hatom
    · rw [List.mem_singleton] at hedit
      exact absurd hedit hne
    · obtain ⟨-, hmark⟩ | ⟨-, hmark⟩ := h.mark_eq hlawful hmem hall hold
      · rw [hmark] at hedit ⊢
        apply h.max_undos old hold edit_id _ undo_id count hobserved hcounts
        simpa [Atom.delete, hne] using hedit
      · rw [hmark] at hedit ⊢
        exact h.max_undos old hold edit_id hedit undo_id count hobserved hcounts

end weaves

/-- A mirror that receives an edit whose dependencies it has. -/
theorem Mirrors.apply_remote_edit (hlawful : ledger.Lawful) (hmem : record ∈ ledger.records)
    (hop : record.op = .Edit edit) (h : ledger.Mirrors snapshot)
    (hall : snapshot.version.observed_all record.version = true)
    (hnot : snapshot.version.observed record.timestamp = false) :
    let applied := snapshot.apply_remote_edit edit.version edit.ranges edit.new_text edit.timestamp
    ledger.Mirrors (applied.1.observing edit.timestamp) ∧
      applied.2.Takes snapshot.visible_text applied.1.visible_text := by
  have htimestamp : record.timestamp = edit.timestamp := by rw [Record.timestamp, hop]; rfl
  have hversion : record.version = edit.version := by rw [Record.version, hop]; rfl
  have hcuts := h.cuts hlawful hmem hall hop
  have hbefore := hlawful.before hmem (atoms snapshot.fragments)
  have hne : ∀ atom ∈ atoms snapshot.fragments, atom.timestamp ≠ record.timestamp := fun atom hatom =>
    h.timestamp_ne hnot hatom
  have hranges := ((hlawful.admits record hmem).ranges edit hop).1
  rw [Record.cuts_edit hop] at hcuts
  rw [htimestamp, hversion] at hcuts hbefore
  rw [htimestamp] at hne
  have hedit := BufferSnapshot.apply_remote_edit_spec h.store hranges hcuts hbefore hne
    (hlawful.inserts hmem hop)
  refine ⟨Weaves.mirrors hlawful hmem hop h hall hnot ?_, hedit.patch⟩
  refine
    { store := hedit.store.observing edit.timestamp
      undo_map := hedit.same.undo_map
      version := ?_
      woven := ?_ }
  · rw [htimestamp, BufferSnapshot.observing, hedit.same.version]
  · rw [htimestamp, hversion, Record.cuts_edit hop, htimestamp]
    exact hedit.atoms

end Ledger

end zed.text
