import Zed.Text.Ledger

namespace zed.text.Ledger

open zed.clock zed.rope

variable {ledger : Ledger} {record : Record} {version : Global}

theorem known_of_find {timestamp : Lamport} (h : ledger.find timestamp = some record) :
    ledger.Known timestamp := Or.inl ⟨record, mem_of_find h⟩

theorem known_of_payload {timestamp : Lamport} (h : ledger.payload timestamp ≠ []) :
    ledger.Known timestamp := by
  unfold payload at h
  split at h
  · rename_i hfind
    exact known_of_find hfind
  · split at h
    · rename_i hbase
      exact Or.inr ⟨h, hbase⟩
    · exact absurd rfl h

section observe

variable (hlawful : ledger.Lawful) (hmem : record ∈ ledger.records) (hversion : ledger.Consistent version)
  (hall : version.observed_all record.version = true)

include hlawful hmem hversion hall

/-- Observing an operation whose dependencies are observed adds nothing else. -/
theorem Lawful.observe_iff {timestamp : Lamport} (hknown : ledger.Known timestamp) :
    (version.observe record.timestamp).observed timestamp = true ↔
      version.observed timestamp = true ∨ timestamp = record.timestamp := by
  rw [Global.observe_observed]
  refine or_congr_right' fun hnot => ⟨fun hle => ?_, fun heq => by rw [heq]; exact ⟨rfl, le_rfl⟩⟩
  obtain ⟨other, hother, rfl⟩ | ⟨hbase, rfl⟩ := hknown
  · rcases hle.2.lt_or_eq with hlt | heq
    · have hown := (hlawful.admits record hmem).own other hother hle.1 hlt
      exact absurd (Global.observed_of_observed_all hall hown) hnot
    · generalize htimestamp : other.timestamp = timestamp at hle heq ⊢
      generalize hrecord : record.timestamp = timestamp' at hle heq ⊢
      cases timestamp
      cases timestamp'
      exact congrArg₂ Lamport.mk heq hle.1
  · exact absurd (hversion.base hbase) hnot

theorem Consistent.observe : ledger.Consistent (version.observe record.timestamp) := by
  have hgrow := Global.observe_observed_all version record.timestamp
  refine ⟨fun hbase => Global.observed_of_observed_all hgrow (hversion.base hbase), fun other hother hobs => ?_,
    fun replica_id => ?_⟩
  · rcases (hlawful.observe_iff hmem hversion hall (Or.inl ⟨other, hother, rfl⟩)).mp hobs with hold | heq
    · exact Global.observed_all_trans hgrow (hversion.closed other hother hold)
    · have hsame := List.inj_on_of_nodup_map hlawful.distinct hother hmem heq
      exact Global.observed_all_trans hgrow (hsame ▸ hall)
  · rw [Global.observe_get]
    split
    · rename_i heq
      rcases max_choice (version.get replica_id) record.timestamp.value with hmax | hmax
      · rw [hmax]
        exact hversion.supported replica_id
      · rw [hmax, heq]
        exact Or.inr (Or.inl ⟨record, hmem, rfl⟩)
    · exact hversion.supported replica_id

end observe

def push (ledger : Ledger) (record : Record) : Ledger := { ledger with records := ledger.records ++ [record] }

/-- A timestamp later than all others of its replica. -/
structure Fresh (ledger : Ledger) (timestamp : Lamport) : Prop where
  pos : 0 < timestamp.value
  later : ∀ other, ledger.Known other → other.replica_id = timestamp.replica_id → other.value < timestamp.value

section fresh

variable {timestamp : Lamport} (hfresh : ledger.Fresh timestamp)

include hfresh

theorem Fresh.not_known : ¬ ledger.Known timestamp := fun h => (hfresh.later _ h rfl).false

theorem Fresh.not_observed (hversion : ledger.Consistent version) : version.observed timestamp = false := by
  rw [← Bool.not_eq_true, Global.observed_iff, not_le]
  rcases hversion.supported timestamp.replica_id with hzero | hknown
  · rw [hzero]
    exact hfresh.pos
  · exact hfresh.later _ hknown rfl

theorem Fresh.ne_of_observed (hversion : ledger.Consistent version) {other : Lamport}
    (h : version.observed other = true) : other ≠ timestamp := by
  rintro rfl
  rw [hfresh.not_observed hversion] at h
  cases h

end fresh

section push

variable (hfresh : ledger.Fresh record.timestamp)

theorem push_find_of_ne {timestamp : Lamport} (hne : timestamp ≠ record.timestamp) :
    (ledger.push record).find timestamp = ledger.find timestamp := by
  unfold find push
  rw [List.find?_append]
  simp [hne.symm]

theorem push_payload_of_ne {timestamp : Lamport} (hne : timestamp ≠ record.timestamp) :
    (ledger.push record).payload timestamp = ledger.payload timestamp := by
  rw [payload, payload, push_find_of_ne hne]
  rfl

theorem push_content_of_ne {id : AtomId} (hne : id.1 ≠ record.timestamp) :
    (ledger.push record).content id = ledger.content id := by
  rw [content, content, push_payload_of_ne hne]

theorem push_origin_of_ne {id : AtomId} (hne : id.1 ≠ record.timestamp) :
    (ledger.push record).origin id = ledger.origin id := by
  rw [origin, origin, push_find_of_ne hne]

theorem push_known {timestamp : Lamport} (h : ledger.Known timestamp) : (ledger.push record).Known timestamp := by
  rcases h with ⟨other, hother, heq⟩ | hbase
  · exact Or.inl ⟨other, List.mem_append_left _ hother, heq⟩
  · exact Or.inr hbase

theorem mem_push : record ∈ (ledger.push record).records := List.mem_append_right _ (List.mem_singleton_self _)

include hfresh

theorem push_find_self : (ledger.push record).find record.timestamp = some record := by
  have hnone : ledger.find record.timestamp = none := by
    cases hfind : ledger.find record.timestamp with
    | none => rfl
    | some other => exact absurd (known_of_find hfind) hfresh.not_known
  unfold find push at *
  rw [List.find?_append, hnone]
  simp

/-- What a version has does not depend on later operations. -/
theorem Consistent.push_frame (hversion : ledger.Consistent version) {timestamp : Lamport}
    (h : version.observed timestamp = true) :
    (ledger.push record).find timestamp = ledger.find timestamp :=
  push_find_of_ne (hfresh.ne_of_observed hversion h)

theorem Consistent.push_member (hversion : ledger.Consistent version) {id : AtomId} :
    (ledger.push record).Member version id ↔ ledger.Member version id := by
  refine and_congr_right fun hobserved => ?_
  rw [push_payload_of_ne (hfresh.ne_of_observed hversion hobserved)]

theorem Consistent.push_undoneAt (hversion : ledger.Consistent version) {edit_id : Lamport} :
    (ledger.push record).UndoneAt version edit_id ↔ ledger.UndoneAt version edit_id := by
  refine undoneAt_congr fun undo_id count => and_congr_right fun hobserved => ?_
  rw [Counts, Counts, hversion.push_frame hfresh hobserved]

theorem Consistent.push_deletes (hversion : ledger.Consistent version) {deletion : Lamport} {id : AtomId}
    (h : version.observed deletion = true) :
    (ledger.push record).Deletes deletion id ↔ ledger.Deletes deletion id := by
  rw [Deletes, Deletes, hversion.push_frame hfresh h]

theorem Consistent.push_visibleAt (hversion : ledger.Consistent version) {id : AtomId} :
    (ledger.push record).VisibleAt version id ↔ ledger.VisibleAt version id := by
  refine and_congr (hversion.push_member hfresh) (and_congr (not_congr (hversion.push_undoneAt hfresh)) ?_)
  refine forall_congr' fun deletion => forall_congr' fun hobserved => ?_
  rw [hversion.push_deletes hfresh hobserved, hversion.push_undoneAt hfresh]

theorem Lists.push (hversion : ledger.Consistent version) {ids : List AtomId} (h : ledger.Lists version ids) :
    (ledger.push record).Lists version ids := by
  refine ⟨fun timestamp => ?_, ?_⟩
  · rw [h.insertion]
    split
    · rename_i hobserved
      rw [inserted, inserted, push_payload_of_ne (hfresh.ne_of_observed hversion hobserved)]
    · rfl
  · intro before n after hsplit
    have hn : ledger.Member version n := h.mem.mp (by rw [hsplit]; simp)
    rw [push_origin_of_ne (hfresh.ne_of_observed hversion hn.1)]
    exact h.rooted before n after hsplit

theorem Consistent.push (hversion : ledger.Consistent version) : (ledger.push record).Consistent version := by
  refine ⟨hversion.base, fun other hother hobserved => ?_, fun replica_id => ?_⟩
  · rcases List.mem_append.mp hother with hother | hother
    · exact hversion.closed other hother hobserved
    · rw [List.mem_singleton.mp hother, hfresh.not_observed hversion] at hobserved
      cases hobserved
  · exact (hversion.supported replica_id).imp id push_known

theorem Admits.push {other : Record} (h : ledger.Admits other)
    (hother : other ∈ ledger.records ∨ other = record) : (ledger.push record).Admits other := by
  have hversion := h.consistent
  refine
    { consistent := hversion.push hfresh
      before := h.before
      own := fun third hthird hreplica hlt => ?_
      lists := h.lists.push hfresh hversion
      seen := fun id => (h.seen id).trans (hversion.push_visibleAt hfresh).symm
      ranges := h.ranges
      undone := fun edit_id count hcounts => ?_ }
  · rcases List.mem_append.mp hthird with hthird | hthird
    · exact h.own third hthird hreplica hlt
    · rw [List.mem_singleton.mp hthird] at hreplica hlt
      rcases hother with hother | rfl
      · exact absurd (hfresh.later _ (Or.inl ⟨other, hother, rfl⟩) hreplica.symm) hlt.le.not_gt
      · exact absurd hlt (lt_irrefl _)
  · obtain ⟨hobserved, hedit⟩ := h.undone edit_id count hcounts
    rw [hversion.push_frame hfresh hobserved]
    exact ⟨hobserved, hedit⟩

theorem Lawful.push (hlawful : ledger.Lawful) (h : ledger.Admits record) : (ledger.push record).Lawful := by
  refine ⟨?_, fun hbase other hother => ?_, fun other hother => ?_⟩
  · rw [Ledger.push, List.map_append, List.map_singleton, List.nodup_append]
    refine ⟨hlawful.distinct, List.nodup_singleton _, fun x hx y hy heq => ?_⟩
    obtain ⟨other, hother, rfl⟩ := List.mem_map.mp hx
    rw [List.mem_singleton.mp hy] at heq
    exact hfresh.not_known (Or.inl ⟨other, hother, heq⟩)
  · rcases List.mem_append.mp hother with hother | hother
    · exact hlawful.base_fresh hbase other hother
    · rw [List.mem_singleton.mp hother]
      exact fun heq => hfresh.not_known (Or.inr ⟨hbase, heq⟩)
  · rcases List.mem_append.mp hother with hother | hother
    · exact (hlawful.admits other hother).push hfresh (Or.inl hother)
    · rw [List.mem_singleton.mp hother]
      exact h.push hfresh (Or.inr rfl)

end push

end zed.text.Ledger
