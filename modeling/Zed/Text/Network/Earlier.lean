import Zed.Text.Edits.Since
import Zed.Text.Network.Delivery

namespace zed.text

open zed.clock zed.rope

theorem Fragment.observed_of_not_missed {fragment : Fragment} {since : Global}
    (h : fragment.summary.missed_by since = false) :
    (∀ timestamp ∈ fragment.timestamp :: fragment.deletions, since.observed timestamp = true) ∧
      since.observed_all fragment.max_undos = true := by
  have hall : since.observed_all fragment.max_version = true := by
    simpa [FragmentSummary.missed_by, Fragment.summary] using h
  rw [Global.observed_all_iff] at hall
  have hfold : ∀ (deletions : List Lamport) (version : Global) (replica_id : Nat),
      version.get replica_id ≤ (deletions.foldl Global.observe version).get replica_id ∧
        ∀ deletion ∈ deletions, deletion.value ≤ (deletions.foldl Global.observe version).get deletion.replica_id := by
    intro deletions
    induction deletions with
    | nil => exact fun version replica_id => ⟨le_rfl, fun _ h => absurd h List.not_mem_nil⟩
    | cons first deletions ih =>
      intro version replica_id
      have hfirst := Global.observed_all_iff.mp (version.observe_observed_all first) replica_id
      refine ⟨hfirst.trans (ih _ replica_id).1, fun deletion hdeletion => ?_⟩
      obtain rfl | hdeletion := List.mem_cons.mp hdeletion
      · exact (Global.observed_iff.mp (Global.observe_observed_self version deletion)).trans
          (ih _ deletion.replica_id).1
      · exact (ih _ replica_id).2 deletion hdeletion
  constructor
  · intro timestamp hmem
    have hle := hall timestamp.replica_id
    rw [Fragment.max_version, Global.join_get] at hle
    refine Global.observed_iff.mpr (le_trans (le_trans ?_ (le_max_left _ _)) hle)
    obtain rfl | hdeletion := List.mem_cons.mp hmem
    · exact (Global.observed_iff.mp (Global.observe_observed_self Global.new _)).trans (hfold _ _ _).1
    · exact (hfold _ _ timestamp.replica_id).2 timestamp hdeletion
  · rw [Global.observed_all_iff]
    intro replica_id
    have hle := hall replica_id
    rw [Fragment.max_version, Global.join_get] at hle
    exact (le_max_right _ _).trans hle

namespace Ledger

variable {ledger : Ledger} {snapshot earlier : BufferSnapshot}

theorem Mirrors.unchanged (h : ledger.Mirrors snapshot) {since : Global}
    (hall : snapshot.version.observed_all since = true) {fragment : Fragment} (hfragment : fragment ∈ snapshot.fragments)
    (hmissed : fragment.summary.missed_by since = false) :
    fragment.was_visible since snapshot.undo_map = fragment.visible := by
  obtain ⟨hobserved, hundos⟩ := Fragment.observed_of_not_missed hmissed
  have hatom : fragment.atom 0 ∈ fragment.atoms :=
    Fragment.mem_atoms.mpr ⟨0, h.store.len_pos fragment hfragment, rfl⟩
  have hmem : fragment.atom 0 ∈ atoms snapshot.fragments := List.mem_flatMap.mpr ⟨fragment, hfragment, hatom⟩
  have hundone : ∀ edit_id ∈ fragment.timestamp :: fragment.deletions,
      (ledger.UndoneAt since edit_id ↔ ledger.UndoneAt snapshot.version edit_id) := fun edit_id hedit => by
    apply undoneAt_congr
    intro undo_id count
    apply and_congr_left
    intro hcounts
    refine ⟨Global.observed_of_observed_all hall, fun hnow => ?_⟩
    exact Global.observed_of_observed_all hundos (h.max_undos _ hmem edit_id hedit undo_id count hnow hcounts)
  rw [← Fragment.was_visible_of_mem hatom, Bool.eq_iff_iff, h.was_visible hall hmem]
  change _ ↔ (fragment.atom 0).visible = true
  rw [h.visible _ hmem]
  have hdeletions := h.deletions _ hmem
  unfold VisibleAt
  refine and_congr ?_ (and_congr (not_congr (hundone _ List.mem_cons_self)) ?_)
  · have hmember := h.member hmem
    exact ⟨fun _ => hmember, fun _ => ⟨hobserved _ List.mem_cons_self, hmember.2⟩⟩
  · constructor
    · intro hbefore deletion hnow hdeletes
      have hdeletion := (hdeletions deletion).mpr ⟨hnow, hdeletes⟩
      exact (hundone deletion (List.mem_cons_of_mem _ hdeletion)).mp
        (hbefore deletion (hobserved deletion (List.mem_cons_of_mem _ hdeletion)) hdeletes)
    · intro hnow deletion hbefore hdeletes
      have hobservedNow := Global.observed_of_observed_all hall hbefore
      have hdeletion := (hdeletions deletion).mpr ⟨hobservedNow, hdeletes⟩
      exact (hundone deletion (List.mem_cons_of_mem _ hdeletion)).mpr (hnow deletion hobservedNow hdeletes)

theorem Mirrors.was_bytes (hlawful : ledger.Lawful) (h : ledger.Mirrors snapshot) (hearlier : ledger.Mirrors earlier)
    (hall : snapshot.version.observed_all earlier.version = true) :
    (Gauge.was earlier.version snapshot.undo_map).bytes ledger.content snapshot.fragments = earlier.visible_text := by
  classical
  have hids := (h.lists_earlier hlawful hearlier.version hall).unique hlawful hearlier.lists fun _ => Iff.rfl
  have hnow : ((atoms snapshot.fragments).filter (Gauge.was earlier.version snapshot.undo_map).obs).map Atom.id =
      ((((atoms snapshot.fragments).filter fun atom => earlier.version.observed atom.timestamp).map Atom.id).filter
        fun id => decide (ledger.VisibleAt earlier.version id)) := by
    rw [List.filter_map, List.filter_filter]
    congr 1
    apply List.filter_congr
    intro atom hatom
    have hwas := h.was_visible hall hatom
    change atom.was_visible earlier.version snapshot.undo_map = _
    rw [Bool.eq_iff_iff, hwas, Bool.and_eq_true]
    simp only [Function.comp_apply, decide_eq_true_eq]
    exact ⟨fun hvisible => ⟨hvisible, hvisible.1.1⟩, And.left⟩
  have hthen : ((atoms earlier.fragments).filter Atom.visible).map Atom.id =
      (((atoms earlier.fragments).map Atom.id).filter fun id => decide (ledger.VisibleAt earlier.version id)) := by
    rw [List.filter_map]
    congr 1
    apply List.filter_congr
    intro atom hatom
    rw [Bool.eq_iff_iff, hearlier.visible atom hatom]
    simp
  have hbytes : ∀ list : List Atom, bytes ledger.content list = (list.map Atom.id).map ledger.content := fun list => by
    rw [List.map_map]
    rfl
  rw [hearlier.store.visible_text, visibleBytes, Gauge.bytes, hbytes, hbytes, hnow, hthen, hids]

theorem Mirrors.reviews (h : ledger.Mirrors snapshot) {since : Global}
    (hall : snapshot.version.observed_all since = true) : snapshot.Reviews ledger.content since where
  visible_text := h.store.visible_text
  deleted_text := h.store.deleted_text
  len_pos := h.store.len_pos
  bounds := h.fragment_store.bounds
  starts fragment hfirst := by
    have hcontiguous := h.contiguous fragment.timestamp
    obtain ⟨rest, hrest⟩ : ∃ rest, snapshot.fragments = fragment :: rest := by
      cases hitems : snapshot.fragments with
      | nil => rw [hitems] at hfirst; cases hfirst
      | cons x rest =>
        rw [hitems] at hfirst
        exact ⟨rest, by rw [Option.some.inj hfirst]⟩
    rw [hrest, List.filter_cons_of_pos (by simp)] at hcontiguous
    exact hcontiguous.1
  unchanged _ hfragment hmissed := h.unchanged hall hfragment hmissed

end Ledger

namespace Network

variable {base_text : Str} {network next : Network}

/-- What a replica shows of a version that another one was at, once it has observed it all. -/
theorem Reachable.was_shown_elsewhere (h : Reachable base_text network) (hreaches : network.Reaches next)
    (replica_id other : Nat) :
    let earlier := (network.peers replica_id).buffer.snapshot
    let now := (next.peers other).buffer.snapshot
    now.version.observed_all earlier.version = true →
    ∃ content, now.Reviews content earlier.version ∧
      (Gauge.was earlier.version now.undo_map).bytes content now.fragments = earlier.visible_text ∧
      (earlier.version = now.version → earlier.visible_text = now.visible_text) := by
  intro earlier now hall
  obtain ⟨ledger, hrecorded⟩ := h.recorded
  obtain ⟨final, hfinal, hretains, -⟩ := hrecorded.reaches hreaches
  have hearlier : final.Mirrors earlier := hretains _ (hrecorded.follows replica_id).keeps.mirrors
  have hnow : final.Mirrors now := (hfinal.follows other).keeps.mirrors
  refine ⟨final.content, hnow.reviews hall, hnow.was_bytes hfinal.lawful hearlier hall, fun hsame => ?_⟩
  apply hearlier.same_text hfinal.lawful hnow
  rw [hsame]
  exact fun timestamp _ => Iff.rfl

theorem Reachable.was_shown (h : Reachable base_text network) (hreaches : network.Reaches next) (replica_id : Nat) :
    let earlier := (network.peers replica_id).buffer.snapshot
    let now := (next.peers replica_id).buffer.snapshot
    ∃ content, now.Reviews content earlier.version ∧
      (Gauge.was earlier.version now.undo_map).bytes content now.fragments = earlier.visible_text ∧
      (earlier.version = now.version → earlier.visible_text = now.visible_text) := by
  obtain ⟨ledger, hrecorded⟩ := h.recorded
  obtain ⟨-, -, -, hversions⟩ := hrecorded.reaches hreaches
  exact h.was_shown_elsewhere hreaches replica_id replica_id (hversions replica_id)

end Network

/-- The edits since a version lead from the text of it to the text that is shown. -/
theorem BufferSnapshot.Reviews.edits_lead {content : AtomId → UInt8} {now : BufferSnapshot} {since : Global} {text : Rope}
    (hreviews : now.Reviews content since) (hwas : (Gauge.was since now.undo_map).bytes content now.fragments = text)
    (hsame_text : since = now.version → text = now.visible_text) :
    ∃ edits : Patch, now.edits_since since = some edits ∧ (∀ edit ∈ edits, edit.is_empty = false) ∧
      edits.Takes text now.visible_text ∧ (now.has_edits_since since = true ↔ edits ≠ []) := by
  by_cases hsame : since = now.version
  · have htext := hsame_text hsame
    refine ⟨[], ?_, fun edit hedit => absurd hedit List.not_mem_nil, ?_, ?_⟩
    · rw [BufferSnapshot.edits_since, BufferSnapshot.edits_since_in_range,
        BufferSnapshot.anchored_edits_since_in_range, if_pos hsame]
      rfl
    · rw [htext]
      exact (⟨⟨Nat.zero_le _, by omega, fun k _ => rfl⟩, List.Pairwise.nil⟩ : Patch.Leads [] _ _).takes
    · rw [BufferSnapshot.has_edits_since, if_neg (not_not.mpr hsame)]
      simp
  · obtain ⟨edits, hedits, hleads, hnonempty, hnone⟩ := hreviews.edits_since_snapshot hsame
    rw [hwas, ← hreviews.visible_text] at hleads
    refine ⟨edits, hedits, hnonempty, hleads.takes, ?_⟩
    rw [← Bool.not_eq_false, ne_eq, not_iff_not, hnone]
    exact hreviews.has_edits_since hsame

namespace Network

theorem Reachable.edits_lead (h : Reachable base_text network) (hreaches : network.Reaches next) (replica_id : Nat) :
    let earlier := (network.peers replica_id).buffer.snapshot
    let now := (next.peers replica_id).buffer.snapshot
    ∃ edits : Patch, now.edits_since earlier.version = some edits ∧ (∀ edit ∈ edits, edit.is_empty = false) ∧
      edits.Takes earlier.visible_text now.visible_text ∧
      (now.has_edits_since earlier.version = true ↔ edits ≠ []) := by
  obtain ⟨content, hreviews, hwas, hsame_text⟩ := h.was_shown hreaches replica_id
  exact hreviews.edits_lead hwas hsame_text

end Network

end zed.text
