import Zed.Text.Network

namespace zed.text

open zed.clock zed.rope
namespace Ledger

open Buffer

variable {ledger : Ledger} {replica_id other_id : Nat} {peer other : Peer}

/-- A replica that has all operations has observed them: of the oldest one that it
    has not observed, nothing would be missing. -/
theorem Follows.observed (hlawful : ledger.Lawful) (h : ledger.Follows replica_id peer)
    (hall : ∀ op ∈ ledger.ops, op ∈ peer.has) : ∀ record ∈ ledger.records,
      peer.buffer.version.observed record.timestamp = true := by
  suffices hsuffices : ∀ n, ∀ record ∈ ledger.records, record.timestamp.value = n →
      peer.buffer.version.observed record.timestamp = true from
    fun record hmem => hsuffices _ record hmem rfl
  intro n
  induction n using Nat.strongRecOn with
  | _ n ih =>
    intro record hmem hvalue
    obtain hdeferred | hobserved := h.settled record.op (hall _ (mem_ops.mpr ⟨record, hmem, rfl⟩))
    · obtain ⟨missing, hmissing, hin, hnot⟩ := h.defers.misses _ hdeferred
      have hlt : missing.timestamp.value < n := by
        rw [← hvalue]
        exact (Global.observed_iff.mp hin).trans_lt ((hlawful.admits record hmem).before _)
      rw [ih _ hlt missing hmissing rfl] at hnot
      cases hnot
    · exact hobserved

theorem Follows.nothing_deferred (hlawful : ledger.Lawful) (h : ledger.Follows replica_id peer)
    (hall : ∀ op ∈ ledger.ops, op ∈ peer.has) : peer.buffer.deferred_ops = [] := by
  apply List.eq_nil_iff_forall_not_mem.mpr
  intro op hop
  obtain ⟨missing, hmissing, -, hnot⟩ := h.defers.misses op hop
  rw [h.observed hlawful hall missing hmissing] at hnot
  cases hnot

/-- Two versions that have observed the same operations. -/
def SameKnown (ledger : Ledger) (version other : Global) : Prop :=
  ∀ timestamp, ledger.Known timestamp → (version.observed timestamp = true ↔ other.observed timestamp = true)

section same

variable {version other : Global} (hsame : ledger.SameKnown version other)

include hsame

theorem SameKnown.member {id : AtomId} : ledger.Member version id ↔ ledger.Member other id := by
  refine and_congr_left fun hlt => hsame _ (known_of_payload fun hnil => ?_)
  rw [hnil] at hlt
  exact absurd hlt (Nat.not_lt_zero _)

theorem SameKnown.undoneAt {edit_id : Lamport} : ledger.UndoneAt version edit_id ↔ ledger.UndoneAt other edit_id := by
  apply undoneAt_congr
  intro undo_id count
  apply and_congr_left
  rintro ⟨record, hfind, -⟩
  exact hsame _ (known_of_find hfind)

theorem SameKnown.deletes {deletion : Lamport} {id : AtomId} :
    version.observed deletion = true ∧ ledger.Deletes deletion id ↔
      other.observed deletion = true ∧ ledger.Deletes deletion id := by
  apply and_congr_left
  rintro ⟨record, hfind, -⟩
  exact hsame _ (known_of_find hfind)

theorem SameKnown.visibleAt {id : AtomId} : ledger.VisibleAt version id ↔ ledger.VisibleAt other id := by
  unfold VisibleAt
  rw [hsame.member, hsame.undoneAt]
  refine and_congr_right' (and_congr_right' (forall_congr' fun deletion => ?_))
  rw [← and_imp, hsame.deletes, and_imp, hsame.undoneAt]

end same

theorem Mirrors.same_atoms (hlawful : ledger.Lawful) {snapshot other : BufferSnapshot}
    (h : ledger.Mirrors snapshot) (hother : ledger.Mirrors other)
    (hsame : ledger.SameKnown snapshot.version other.version) :
    List.Forall₂ (fun atom atom' => atom.id = atom'.id ∧ atom.visible = atom'.visible ∧
        ∀ deletion, deletion ∈ atom.deletions ↔ deletion ∈ atom'.deletions)
      (atoms snapshot.fragments) (atoms other.fragments) := by
  have hids := h.lists.unique hlawful hother.lists fun id => hsame.member
  have hlength : (atoms snapshot.fragments).length = (atoms other.fragments).length := by
    have := congrArg List.length hids
    rwa [List.length_map, List.length_map] at this
  apply List.forall₂_iff_get.mpr
  refine ⟨hlength, fun i hi hi' => ?_⟩
  have hid : ((atoms snapshot.fragments).get ⟨i, hi⟩).id = ((atoms other.fragments).get ⟨i, hi'⟩).id := by
    have := congrArg (fun ids => ids[i]?) hids
    simpa [hi, hi'] using this
  have hmem := List.get_mem (atoms snapshot.fragments) ⟨i, hi⟩
  have hmem' := List.get_mem (atoms other.fragments) ⟨i, hi'⟩
  refine ⟨hid, ?_, fun deletion => ?_⟩
  · rw [Bool.eq_iff_iff, h.visible _ hmem, hother.visible _ hmem', ← hid]
    exact hsame.visibleAt
  · rw [h.deletions _ hmem, hother.deletions _ hmem', ← hid]
    exact hsame.deletes

theorem Mirrors.same_text (hlawful : ledger.Lawful) {snapshot other : BufferSnapshot}
    (h : ledger.Mirrors snapshot) (hother : ledger.Mirrors other)
    (hsame : ledger.SameKnown snapshot.version other.version) : snapshot.visible_text = other.visible_text := by
  rw [h.store.visible_text, hother.store.visible_text]
  have hatoms := h.same_atoms hlawful hother hsame
  generalize atoms snapshot.fragments = first at hatoms
  generalize atoms other.fragments = second at hatoms
  induction hatoms with
  | nil => rfl
  | cons hfirst hrest ih =>
    unfold visibleBytes bytes at ih ⊢
    rw [List.filter_cons, List.filter_cons, hfirst.2.1]
    split
    · rw [List.map_cons, List.map_cons, ih, hfirst.1]
    · exact ih

end Ledger

namespace Network

variable {base_text : Str} {network : Network}

end Network

namespace Network

variable {base_text : Str} {network : Network}

/-- In every state of a replica its operations took effect once each, each after all
    that its author had, and would take none again; what is deferred misses one of
    those, and all that the replica made or was sent took effect or is deferred. -/
theorem Reachable.causal_delivery (h : Reachable base_text network) (replica_id : Nat) :
    let peer := network.peers replica_id
    peer.applied.Nodup ∧ (∀ op ∈ peer.applied, peer.buffer.apply_op op = peer.buffer) ∧
      (∀ before op after, peer.applied = before ++ op :: after →
        ∀ dependency ∈ network.ops, op.version.observed dependency.timestamp = true → dependency ∈ before) ∧
      (∀ op ∈ peer.buffer.deferred_ops, peer.buffer.version.observed_all op.version = false ∧
        ∃ dependency ∈ network.ops, op.version.observed dependency.timestamp = true ∧ dependency ∉ peer.applied) ∧
      ∀ op ∈ peer.has, op ∈ peer.applied ∨ op ∈ peer.buffer.deferred_ops := by
  obtain ⟨ledger, hrecorded⟩ := h.recorded
  have hfollows := hrecorded.follows replica_id
  rw [← hrecorded.ops]
  refine ⟨hfollows.applied.nodup, fun op hop => ?_, fun before op after heq dependency hdependency hobserved => ?_,
    fun op hop => ?_, fun op hop => ?_⟩
  · obtain ⟨-, -, -, hobserved⟩ := (hfollows.applied.mem op).mp hop
    exact Buffer.apply_op_of_observed hobserved
  · obtain ⟨record, hmem, rfl⟩ := Ledger.mem_ops.mp hdependency
    exact hfollows.applied.causal before op after heq record hmem hobserved
  · obtain ⟨missing, hmissing, hobserved, hnot⟩ := hfollows.defers.misses op hop
    refine ⟨?_, missing.op, Ledger.mem_ops.mpr ⟨missing, hmissing, rfl⟩, hobserved, fun hin => ?_⟩
    · rw [← Bool.not_eq_true]
      intro hall
      rw [Global.observed_of_observed_all hall hobserved] at hnot
      cases hnot
    · obtain ⟨-, -, -, happlied⟩ := (hfollows.applied.mem _).mp hin
      rw [show missing.op.timestamp = missing.timestamp from rfl, hnot] at happlied
      cases happlied
  · obtain hdeferred | hobserved := hfollows.settled op hop
    · exact Or.inr hdeferred
    · obtain ⟨record, hmem, rfl⟩ := Ledger.mem_ops.mp (hfollows.known op hop)
      exact Or.inl ((hfollows.applied.mem _).mpr ⟨record, hmem, rfl, hobserved⟩)

theorem sample_causal_delivery :
    (sample.peers 1).applied.Nodup ∧
      (∀ op ∈ (sample.peers 1).applied, (sample.peers 1).buffer.apply_op op = (sample.peers 1).buffer) ∧
      (∀ before op after, (sample.peers 1).applied = before ++ op :: after →
        ∀ dependency ∈ sample.ops, op.version.observed dependency.timestamp = true → dependency ∈ before) ∧
      (∀ op ∈ (sample.peers 1).buffer.deferred_ops,
        (sample.peers 1).buffer.version.observed_all op.version = false ∧
          ∃ dependency ∈ sample.ops, op.version.observed dependency.timestamp = true ∧
            dependency ∉ (sample.peers 1).applied) ∧
      ∀ op ∈ (sample.peers 1).has, op ∈ (sample.peers 1).applied ∨ op ∈ (sample.peers 1).buffer.deferred_ops :=
  sample_reachable.causal_delivery 1

/-- No two operations have one timestamp. What an operation's author had observed when it made it is a strict partial
    order that the Lamport values follow, total on the operations of one replica; and the clock of a replica is past
    all that it has observed. -/
theorem Reachable.clocks_cohere (h : Reachable base_text network) :
    (network.ops.map Operation.timestamp).Nodup ∧
      (∀ op ∈ network.ops, ∀ dependency ∈ network.ops, op.version.observed dependency.timestamp = true →
        dependency.timestamp.value < op.timestamp.value ∧ ∀ earlier ∈ network.ops,
          dependency.version.observed earlier.timestamp = true → op.version.observed earlier.timestamp = true) ∧
      (∀ op ∈ network.ops, ∀ other ∈ network.ops, op.timestamp.replica_id = other.timestamp.replica_id →
        op = other ∨ op.version.observed other.timestamp = true ∨ other.version.observed op.timestamp = true) ∧
      ∀ replica_id, (network.peers replica_id).buffer.lamport_clock.replica_id = replica_id ∧ ∀ op ∈ network.ops,
        (network.peers replica_id).buffer.version.observed op.timestamp = true →
          op.timestamp.value < (network.peers replica_id).buffer.lamport_clock.value := by
  obtain ⟨ledger, hrecorded⟩ := h.recorded
  have hlawful := hrecorded.lawful
  rw [← hrecorded.ops]
  refine ⟨?_, fun op hop dependency hdependency hobserved => ?_, fun op hop other hother hreplica => ?_,
    fun replica_id => ?_⟩
  · rw [Ledger.ops, List.map_map]
    exact hlawful.distinct
  · obtain ⟨record, hmem, rfl⟩ := Ledger.mem_ops.mp hop
    obtain ⟨before, hbefore, rfl⟩ := Ledger.mem_ops.mp hdependency
    have hadmits := hlawful.admits record hmem
    refine ⟨?_, fun earlier hearlier hthen => ?_⟩
    · exact lt_of_le_of_lt (Global.observed_iff.mp hobserved) (hadmits.before _)
    · exact Global.observed_of_observed_all (hadmits.consistent.closed before hbefore hobserved) hthen
  · obtain ⟨record, hmem, rfl⟩ := Ledger.mem_ops.mp hop
    obtain ⟨record', hmem', rfl⟩ := Ledger.mem_ops.mp hother
    rcases lt_trichotomy record.timestamp.value record'.timestamp.value with hlt | heq | hgt
    · exact Or.inr (Or.inr ((hlawful.admits record' hmem').own record hmem hreplica hlt))
    · have hsame : record.timestamp = record'.timestamp := by
        have hreplica : record.timestamp.replica_id = record'.timestamp.replica_id := hreplica
        generalize record.timestamp = first at heq hreplica ⊢
        generalize record'.timestamp = second at heq hreplica ⊢
        cases first
        cases second
        simp_all
      exact Or.inl (congrArg Record.op (List.inj_on_of_nodup_map hlawful.distinct hmem hmem' hsame))
    · exact Or.inr (Or.inl ((hlawful.admits record hmem).own record' hmem' hreplica.symm hgt))
  · have hkeeps := (hrecorded.follows replica_id).keeps
    exact ⟨hkeeps.clock_replica, fun op _ hobserved =>
      lt_of_le_of_lt (Global.observed_iff.mp hobserved) (hkeeps.clock_after _)⟩

theorem sample_clocks_cohere : (sample.ops.map Operation.timestamp).Nodup := sample_reachable.clocks_cohere.1

end Network

end zed.text
