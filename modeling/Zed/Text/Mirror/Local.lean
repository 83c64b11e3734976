import Zed.Text.Edit.Local
import Zed.Text.Mirror.Edit

namespace zed.text

open zed.clock zed.rope
open zed.replicated (CutsFrom weave_congr)

/-- An operation, with what its author had and saw when making it. -/
def BufferSnapshot.authored (snapshot : BufferSnapshot) (op : Operation) : Record :=
  { op
    doc := (atoms snapshot.fragments).map Atom.id
    seen := ((atoms snapshot.fragments).filter Atom.visible).map Atom.id }

namespace Ledger

variable {ledger : Ledger} {snapshot : BufferSnapshot} {record : Record}

section push

variable (hfresh : ledger.Fresh record.timestamp) (h : ledger.Mirrors snapshot)

include hfresh h

theorem Mirrors.push_content : ∀ atom ∈ atoms snapshot.fragments,
    (ledger.push record).content atom.id = ledger.content atom.id := fun _ hatom =>
  push_content_of_ne (hfresh.ne_of_observed h.version (h.member hatom).1)

theorem Mirrors.push : (ledger.push record).Mirrors snapshot :=
  { version := h.version.push hfresh
    store := h.store.congr_content (h.push_content hfresh)
    lists := h.lists.push hfresh h.version
    deletions := fun atom hatom deletion => by
      rw [h.deletions atom hatom]
      exact and_congr_right fun hobserved => (h.version.push_deletes hfresh hobserved).symm
    undo_sorted := h.undo_sorted
    undos := fun edit_id undo_id count => by
      rw [h.undos]
      exact and_congr_right fun hobserved => by rw [Counts, Counts, h.version.push_frame hfresh hobserved]
    visible := fun atom hatom => by
      rw [h.visible atom hatom, h.version.push_visibleAt hfresh]
    max_undos := fun atom hatom edit_id hedit undo_id count hobserved hcounts => by
      rw [Counts, h.version.push_frame hfresh hobserved] at hcounts
      exact h.max_undos atom hatom edit_id hedit undo_id count hobserved hcounts }

end push

section author

variable {op : Operation}

/-- What an operation must satisfy that a replica makes itself. -/
structure Authors (ledger : Ledger) (snapshot : BufferSnapshot) (op : Operation) : Prop where
  version_eq : op.version = snapshot.version
  fresh : ledger.Fresh op.timestamp
  before : ∀ replica_id, snapshot.version.get replica_id < op.timestamp.value
  own : ∀ other ∈ ledger.records, other.timestamp.replica_id = op.timestamp.replica_id →
    snapshot.version.observed other.timestamp = true

theorem Mirrors.seen_iff (h : ledger.Mirrors snapshot) (op : Operation) (id : AtomId) :
    id ∈ (snapshot.authored op).seen ↔ ledger.VisibleAt snapshot.version id := by
  simp only [BufferSnapshot.authored, List.mem_map, List.mem_filter]
  constructor
  · rintro ⟨atom, ⟨hatom, hvisible⟩, rfl⟩
    exact (h.visible atom hatom).mp hvisible
  · intro hvisible
    obtain ⟨atom, hatom, rfl⟩ := List.mem_map.mp (h.lists.mem.mpr hvisible.1)
    exact ⟨atom, ⟨hatom, (h.visible atom hatom).mpr hvisible⟩, rfl⟩

theorem Mirrors.admits (h : ledger.Mirrors snapshot) (hauthors : ledger.Authors snapshot op)
    (hranges : ∀ edit, op = .Edit edit → edit.ranges.length = edit.new_text.length ∧
      CutsFrom (atoms snapshot.fragments).length 0 (snapshot.authored op).cuts)
    (hundone : ∀ edit_id count, (snapshot.authored op).Counts edit_id count →
      snapshot.version.observed edit_id = true ∧
        ∃ edit other, ledger.find edit_id = some other ∧ other.op = .Edit edit) :
    ledger.Admits (snapshot.authored op) := by
  have hversion : (snapshot.authored op).version = snapshot.version := hauthors.version_eq
  refine
    { consistent := ?_
      before := fun replica_id => ?_
      own := fun other hother hreplica _ => ?_
      lists := ?_
      seen := fun id => ?_
      ranges := fun edit hop => ?_
      undone := fun edit_id count hcounts => ?_ }
  · rw [hversion]
    exact h.version
  · rw [hversion]
    exact hauthors.before replica_id
  · rw [hversion]
    exact hauthors.own other hother hreplica
  · rw [hversion]
    exact h.lists
  · rw [hversion]
    exact h.seen_iff op id
  · have hdoc : (snapshot.authored op).doc.length = (atoms snapshot.fragments).length := List.length_map ..
    rw [hdoc]
    exact hranges edit hop
  · rw [hversion]
    exact hundone edit_id count hcounts

end author

theorem Mirrors.localLoom_agrees (h : ledger.Mirrors snapshot) {timestamp : Lamport}
    (hbefore : ∀ replica_id, snapshot.version.get replica_id < timestamp.value) :
    (localLoom timestamp).Agrees (remoteLoom snapshot.version snapshot.undo_map timestamp)
      (atoms snapshot.fragments) := by
  refine ⟨fun atom hatom => ?_, fun atom hatom => ?_, fun atom hatom => ?_⟩
  · exact (h.member hatom).1.symm
  · have hlt : atom.timestamp < timestamp := Lamport.lt_of_value_lt
      ((Global.observed_iff.mp (h.member hatom).1).trans_lt (hbefore _))
    exact (decide_eq_false hlt.not_gt).symm
  · simp only [localLoom, remoteLoom, Atom.deleteVisible, Atom.deleteObserved, h.was_visible_now hatom]

/-- What a local edit on a mirror does: it extends the ledger by an operation,
    and what it leaves mirrors the new ledger. -/
structure LocalStep (ledger : Ledger) (snapshot : BufferSnapshot) (edits : List (Range × Str))
    (timestamp : Lamport) (applied : BufferSnapshot × EditOperation × Patch) : Prop where
  op_timestamp : applied.2.1.timestamp = timestamp
  op_version : applied.2.1.version = snapshot.version
  same : BufferSnapshot.SameOutside snapshot applied.1
  lawful : (ledger.push (snapshot.authored (.Edit applied.2.1))).Lawful
  mirrors : (ledger.push (snapshot.authored (.Edit applied.2.1))).Mirrors (applied.1.observing timestamp)
  patch : applied.2.2.Takes snapshot.visible_text applied.1.visible_text
  visible_text : applied.1.visible_text = splice snapshot.visible_text 0 edits

theorem Mirrors.apply_edit_internal (hlawful : ledger.Lawful) (h : ledger.Mirrors snapshot)
    {edits : List (Range × Str)} {timestamp : Lamport}
    (hedits : EditsFrom snapshot.visible_text.length 0 edits) (hfresh : ledger.Fresh timestamp)
    (hbefore : ∀ replica_id, snapshot.version.get replica_id < timestamp.value)
    (hown : ∀ other ∈ ledger.records, other.timestamp.replica_id = timestamp.replica_id →
      snapshot.version.observed other.timestamp = true) :
    LocalStep ledger snapshot edits timestamp (snapshot.apply_edit_internal edits timestamp) := by
  have hne : ∀ atom ∈ atoms snapshot.fragments, atom.timestamp ≠ timestamp := fun atom hatom =>
    hfresh.ne_of_observed h.version (h.member hatom).1
  -- the texts of the operation do not depend on what the ledger says about it
  have hop : (snapshot.apply_edit_internal edits timestamp).2.1.timestamp = timestamp ∧
      (snapshot.apply_edit_internal edits timestamp).2.1.version = snapshot.version ∧
      (snapshot.apply_edit_internal edits timestamp).2.1.new_text = newTexts edits := by
    let draft : EditOperation := { timestamp, version := snapshot.version, ranges := [], new_text := newTexts edits }
    have hdraftFresh : ledger.Fresh (snapshot.authored (.Edit draft)).timestamp := hfresh
    obtain ⟨ranges, hlocal⟩ := BufferSnapshot.apply_edit_internal_spec (h.push hdraftFresh).store hedits hne
      (inserts_of_find (push_find_self hdraftFresh) rfl)
    rw [hlocal.op]
    exact ⟨rfl, rfl, rfl⟩
  obtain ⟨htimestamp, hversion, hnewText⟩ := hop
  generalize happlied : snapshot.apply_edit_internal edits timestamp = applied at htimestamp hversion hnewText ⊢
  let record := snapshot.authored (.Edit applied.2.1)
  have hrecord : record.timestamp = timestamp := htimestamp
  have hrecordFresh : ledger.Fresh record.timestamp := hrecord ▸ hfresh
  have hpushed := h.push hrecordFresh
  have hinserts := inserts_of_find (push_find_self hrecordFresh) rfl
  rw [hnewText, htimestamp] at hinserts
  obtain ⟨ranges, hrangesLength, hopEq, hstore, hsame, hpatch, hatoms, hcutsFrom, htext⟩ :=
    BufferSnapshot.apply_edit_internal_spec hpushed.store hedits hne hinserts
  rw [happlied] at hopEq hstore hsame hpatch hatoms htext
  have hlength : applied.2.1.ranges.length = applied.2.1.new_text.length := by
    rw [hopEq, hrangesLength, newTexts, List.length_map]
  have hcuts : record.cuts = cutsOf timestamp 0 (ranges.zip (newTexts edits)) := by
    rw [Record.cuts_edit rfl, hrecord, hopEq]
  have hopTimestamp : (Operation.Edit applied.2.1).timestamp = timestamp := htimestamp
  have hauthors : ledger.Authors snapshot (.Edit applied.2.1) :=
    { version_eq := hversion
      fresh := hrecordFresh
      before := fun replica_id => hopTimestamp.symm ▸ hbefore replica_id
      own := fun other hother hreplica => hown other hother (hopTimestamp ▸ hreplica) }
  have hadmits : ledger.Admits record := by
    apply h.admits hauthors
    · intro edit heq
      cases heq
      exact ⟨hlength, hcuts ▸ hcutsFrom⟩
    · intro edit_id count hcounts
      exact hcounts.elim
  have hlawful' := hlawful.push hrecordFresh hadmits
  have hrecordVersion : record.version = snapshot.version := hversion
  have hbefore' : ∀ replica_id, snapshot.version.get replica_id < record.timestamp.value := by
    rw [hrecord]
    exact hbefore
  have hweaves : (ledger.push record).Weaves record snapshot (applied.1.observing timestamp) := by
    refine
      { store := hstore.observing timestamp
        undo_map := hsame.undo_map
        version := ?_
        woven := ?_ }
    · rw [hrecord, BufferSnapshot.observing, hsame.version]
    · rw [hrecordVersion, ← weave_congr (hpushed.localLoom_agrees hbefore'), hcuts, hrecord]
      exact hatoms
  refine
    { op_timestamp := htimestamp
      op_version := hversion
      same := hsame
      lawful := hlawful'
      mirrors := ?_
      patch := hpatch
      visible_text := htext }
  apply hweaves.mirrors hlawful' mem_push rfl hpushed
  · rw [hrecordVersion]
    exact Global.observed_all_refl _
  · exact hrecordFresh.not_observed h.version

end Ledger

end zed.text
