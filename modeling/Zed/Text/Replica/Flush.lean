import Zed.Text.Replica.Deliver

namespace zed.text

open zed.clock zed.rope
open zed.sum_tree (Sorted)

namespace Ledger

open Buffer

/-- Something that the author of an operation had and a version has not, older
    than all operations to come. -/
def Misses (ledger : Ledger) (version : Global) (op : Operation) (rest : List Operation) : Prop :=
  ∃ record ∈ ledger.records, op.version.observed record.timestamp = true ∧
    version.observed record.timestamp = false ∧ ∀ other ∈ rest, record.timestamp < other.timestamp

/-- In a loop over a sorted queue, what was put aside misses something that the
    rest of the queue does not have. -/
structure Stuck (ledger : Ledger) (state : Buffer × List Operation) (rest : List Operation) : Prop where
  ops : ∀ op ∈ state.2, ledger.Misses state.1.version op rest
  replicas : ∀ replica_id ∈ state.1.deferred_replicas, ∃ record ∈ ledger.records,
    record.timestamp.replica_id = replica_id ∧ state.1.version.observed record.timestamp = false ∧
      ∀ other ∈ rest, record.timestamp < other.timestamp

variable {ledger : Ledger} {replica_id : Nat} {buffer : Buffer} {record : Record}

theorem Consistent.exists_missing (hlawful : ledger.Lawful) {version : Global} (hversion : ledger.Consistent version)
    (hmem : record ∈ ledger.records) (hnot : ¬ version.observed_all record.version = true) :
    ∃ other ∈ ledger.records, record.version.observed other.timestamp = true ∧
      version.observed other.timestamp = false := by
  have hadmits := hlawful.admits record hmem
  rw [Global.observed_all_iff, not_forall] at hnot
  obtain ⟨id, hlt⟩ := hnot
  obtain hzero | ⟨other, hother, heq⟩ | ⟨hbase, heq⟩ := hadmits.consistent.supported id
  · omega
  · refine ⟨other, hother, ?_, ?_⟩
    · rw [heq, Global.observed_iff]
    · rw [heq, ← Bool.not_eq_true, Global.observed_iff]
      exact hlt
  · have hobserved := hversion.base hbase
    rw [← heq, Global.observed_iff] at hobserved
    exact absurd hobserved hlt

theorem Lawful.own (hlawful : ledger.Lawful) (hmem : record ∈ ledger.records) {other : Record}
    (hother : other ∈ ledger.records) (hreplica : other.timestamp.replica_id = record.timestamp.replica_id)
    (hlt : other.timestamp < record.timestamp) : record.version.observed other.timestamp = true := by
  apply (hlawful.admits record hmem).own other hother hreplica
  obtain hvalue | ⟨-, hreplicaLt⟩ := Lamport.lt_iff.mp hlt
  · exact hvalue
  · exact absurd hreplicaLt (by omega)

/-- A missing operation is older than the one that misses it. -/
theorem Lawful.lt_of_observed (hlawful : ledger.Lawful) (hmem : record ∈ ledger.records) {timestamp : Lamport}
    (hobserved : record.version.observed timestamp = true) : timestamp < record.timestamp :=
  Lamport.lt_of_value_lt
    ((Global.observed_iff.mp hobserved).trans_lt ((hlawful.admits record hmem).before _))

theorem Stuck.step (hlawful : ledger.Lawful) {state : Buffer × List Operation} {rest : List Operation}
    (h : ledger.Stuck state (record.op :: rest)) (hkeeps : ledger.Keeps replica_id state.1)
    (hmem : record ∈ ledger.records) (hrest : ∀ other ∈ rest, record.timestamp < other.timestamp) :
    ledger.Stuck (apply_or_defer state record.op) rest := by
  obtain ⟨buffer, deferred⟩ := state
  dsimp only at hkeeps
  have hversion : ledger.Consistent buffer.version := hkeeps.mirrors.version
  by_cases hcan : buffer.can_apply_op record.op = true
  · have hall := (can_apply_op_iff.mp hcan).2
    have hstep : apply_or_defer (buffer, deferred) record.op = (buffer.apply_op record.op, deferred) := if_pos hcan
    have happly := hkeeps.apply_op hlawful hmem hall
    -- what is older than the applied operation stays missing
    have hstill : ∀ other ∈ ledger.records, buffer.version.observed other.timestamp = false →
        other.timestamp < record.timestamp →
        (buffer.apply_op record.op).version.observed other.timestamp = false := by
      intro other hother hnot hlt
      rw [happly.version]
      split
      · exact hnot
      · rw [← Bool.not_eq_true, hlawful.observe_iff hmem hversion hall (Or.inl ⟨other, hother, rfl⟩), not_or]
        exact ⟨by simp [hnot], hlt.ne⟩
    rw [hstep]
    refine ⟨fun op hop => ?_, fun id hid => ?_⟩
    · obtain ⟨other, hother, hobserved, hnot, hbefore⟩ := h.ops op hop
      exact ⟨other, hother, hobserved, hstill other hother hnot (hbefore _ List.mem_cons_self),
        fun later hlater => hbefore later (List.mem_cons_of_mem _ hlater)⟩
    · rw [happly.deferred_replicas] at hid
      obtain ⟨other, hother, hreplica, hnot, hbefore⟩ := h.replicas id hid
      exact ⟨other, hother, hreplica, hstill other hother hnot (hbefore _ List.mem_cons_self),
        fun later hlater => hbefore later (List.mem_cons_of_mem _ hlater)⟩
  · have hstep : apply_or_defer (buffer, deferred) record.op =
        ({ buffer with deferred_replicas := insert record.op.replica_id buffer.deferred_replicas },
          deferred ++ [record.op]) := if_neg hcan
    have hlater : ∀ other : Record, other.timestamp < record.timestamp → ∀ later ∈ rest,
        other.timestamp < later.timestamp := fun other hlt later hin => hlt.trans (hrest later hin)
    rw [hstep]
    refine ⟨fun op hop => ?_, fun id hid => ?_⟩
    · obtain hop | hop := List.mem_append.mp hop
      · obtain ⟨other, hother, hobserved, hnot, hbefore⟩ := h.ops op hop
        exact ⟨other, hother, hobserved, hnot, fun later hin => hbefore later (List.mem_cons_of_mem _ hin)⟩
      · rw [List.mem_singleton.mp hop]
        by_cases hreplicas : record.op.replica_id ∈ buffer.deferred_replicas
        · -- an earlier operation of the same replica was put aside
          obtain ⟨other, hother, hreplica, hnot, hbefore⟩ := h.replicas _ hreplicas
          have hlt : other.timestamp < record.timestamp := hbefore _ List.mem_cons_self
          exact ⟨other, hother, hlawful.own hmem hother hreplica hlt, hnot, hlater other hlt⟩
        · have hall : ¬ buffer.version.observed_all record.version = true := fun hall =>
            hcan (can_apply_op_iff.mpr ⟨hreplicas, hall⟩)
          obtain ⟨other, hother, hobserved, hnot⟩ := hversion.exists_missing hlawful hmem hall
          exact ⟨other, hother, hobserved, hnot, hlater other (hlawful.lt_of_observed hmem hobserved)⟩
    · obtain rfl | hid := Finset.mem_insert.mp hid
      · by_cases hreplicas : record.op.replica_id ∈ buffer.deferred_replicas
        · obtain ⟨other, hother, hreplica, hnot, hbefore⟩ := h.replicas _ hreplicas
          exact ⟨other, hother, hreplica, hnot, fun later hin => hbefore later (List.mem_cons_of_mem _ hin)⟩
        · refine ⟨record, hmem, rfl, ?_, hrest⟩
          rw [← Bool.not_eq_true]
          exact fun hobserved => hcan (can_apply_op_iff.mpr ⟨hreplicas, hversion.closed record hmem hobserved⟩)
      · obtain ⟨other, hother, hreplica, hnot, hbefore⟩ := h.replicas id hid
        exact ⟨other, hother, hreplica, hnot, fun later hin => hbefore later (List.mem_cons_of_mem _ hin)⟩

theorem Stuck.foldl (hlawful : ledger.Lawful) {queue : List Operation} (hqueue : Sorted queue)
    (hops : ∀ op ∈ queue, op ∈ ledger.ops) {state : Buffer × List Operation} (h : ledger.Stuck state queue)
    (hkeeps : ledger.Keeps replica_id state.1) : ledger.Stuck (queue.foldl apply_or_defer state) [] := by
  induction queue generalizing state with
  | nil => exact h
  | cons op queue ih =>
    have hop := hops op List.mem_cons_self
    have hdelivers := apply_or_defer_delivers hlawful hop hkeeps
    obtain ⟨record, hmem, rfl⟩ := mem_ops.mp hop
    refine ih hqueue.tail (fun other hother => hops other (List.mem_cons_of_mem _ hother)) ?_ hdelivers.keeps
    exact h.step hlawful hkeeps hmem fun other hother => hqueue.head_lt hother

/-- The deferred operations of a buffer: each misses something that its author had. -/
structure Defers (ledger : Ledger) (buffer : Buffer) : Prop where
  sorted : Sorted buffer.deferred_ops
  ops : ∀ op ∈ buffer.deferred_ops, op ∈ ledger.ops
  misses : ∀ op ∈ buffer.deferred_ops, ∃ record ∈ ledger.records,
    op.version.observed record.timestamp = true ∧ buffer.version.observed record.timestamp = false

/-- What is missing stays so when an operation is made elsewhere. -/
theorem Defers.push (h : ledger.Defers buffer) : (ledger.push record).Defers buffer := by
  refine ⟨h.sorted, fun op hop => ?_, fun op hop => ?_⟩
  · obtain ⟨other, hother, heq⟩ := mem_ops.mp (h.ops op hop)
    exact mem_ops.mpr ⟨other, List.mem_append_left _ hother, heq⟩
  · obtain ⟨other, hother, hmissing⟩ := h.misses op hop
    exact ⟨other, List.mem_append_left _ hother, hmissing⟩

theorem Defers.makes {after : Buffer} {op : Operation} (h : ledger.Defers buffer)
    (hkeeps : ledger.Keeps replica_id buffer) (hmakes : Makes ledger replica_id buffer after op) :
    (ledger.push (buffer.snapshot.authored op)).Defers after := by
  have hpush : (ledger.push (buffer.snapshot.authored op)).Defers buffer := h.push
  refine ⟨hmakes.deferred_ops ▸ hpush.sorted, hmakes.deferred_ops ▸ hpush.ops, fun other hother => ?_⟩
  rw [hmakes.deferred_ops] at hother
  obtain ⟨missing, hmissing, hobserved, hnot⟩ := h.misses other hother
  refine ⟨missing, List.mem_append_left _ hmissing, hobserved, ?_⟩
  have hreplica : missing.timestamp.replica_id ≠ op.timestamp.replica_id := by
    rw [hmakes.replica]
    intro heq
    rw [hkeeps.own missing hmissing heq] at hnot
    cases hnot
  rw [hmakes.version, ← Bool.not_eq_true, Global.observe_observed, hnot]
  simp [hreplica]

/-- What a call of `apply_ops` does to the buffer of a replica. -/
structure AppliesOps (ledger : Ledger) (replica_id : Nat) (buffer : Buffer) (ops : List Operation) : Prop where
  keeps : ledger.Keeps replica_id (buffer.apply_ops ops)
  grows : (buffer.apply_ops ops).version.observed_all buffer.version = true
  reports : buffer.Reports (buffer.apply_ops ops)
  history : (buffer.apply_ops ops).history =
    { buffer.history with operations := (buffer.apply_ops ops).history.operations }
  defers : ledger.Defers (buffer.apply_ops ops)
  settled : ∀ op ∈ buffer.deferred_ops ++ ops,
    op ∈ (buffer.apply_ops ops).deferred_ops ∨ (buffer.apply_ops ops).version.observed op.timestamp = true
  applied : ∀ applied, ledger.Applied buffer.version applied →
    ledger.Applied (buffer.apply_ops ops).version (applied ++ buffer.apply_ops_effects ops)

theorem Keeps.with_deferred (h : ledger.Keeps replica_id buffer) {deferred_ops : OperationQueue}
    {deferred_replicas : Finset Nat} :
    ledger.Keeps replica_id { buffer with deferred_ops, deferred_replicas } :=
  ⟨h.mirrors, h.clock_replica, h.clock_after, h.own, h.operations_sorted, h.open_entry, h.undo_known, h.redo_known⟩

theorem Keeps.apply_ops (hlawful : ledger.Lawful) (h : ledger.Keeps replica_id buffer)
    (hdefers : ledger.Defers buffer) {ops : List Operation} (hops : ∀ op ∈ ops, op ∈ ledger.ops) :
    ledger.AppliesOps replica_id buffer ops := by
  have hfirst : ledger.Delivers replica_id receive_op (buffer, []) ops :=
    Delivers.of_steps h fun op hop state hkeeps => receive_op_delivers hlawful (hops op hop) hkeeps
  have hqueueOps : ∀ op ∈ buffer.deferred_ops ++ (ops.foldl receive_op (buffer, [])).2, op ∈ ledger.ops := by
    intro op hop
    obtain hop | hop := List.mem_append.mp hop
    · exact hdefers.ops op hop
    · exact (hfirst.mem op hop).elim (fun hnil => absurd hnil List.not_mem_nil) (hops op)
  obtain ⟨hsorted, hmem⟩ := OperationQueue.insert_spec hdefers.sorted (hlawful.agree.subset hqueueOps)
  generalize hreceived : buffer.received ops = received
  have hreceivedOps : received.deferred_ops =
      OperationQueue.insert buffer.deferred_ops (ops.foldl receive_op (buffer, [])).2 := by
    rw [← hreceived, ← hfirst.deferred_ops]
    rfl
  rw [← hreceivedOps] at hsorted hmem
  have hreceivedKeeps : ledger.Keeps replica_id received := by
    rw [← hreceived]
    exact hfirst.keeps.with_deferred
  have hreceivedLedger : ∀ op ∈ received.deferred_ops, op ∈ ledger.ops := fun op hop =>
    hqueueOps op (List.mem_append.mpr ((hmem op).mp hop))
  have hstartKeeps : ledger.Keeps replica_id received.flush_start.1 := hreceivedKeeps.with_deferred
  have hsecond : ledger.Delivers replica_id apply_or_defer received.flush_start received.deferred_ops :=
    Delivers.of_steps hstartKeeps fun op hop state hkeeps =>
      apply_or_defer_delivers hlawful (hreceivedLedger op hop) hkeeps
  have hstuck := Stuck.foldl hlawful hsorted hreceivedLedger
    (show ledger.Stuck received.flush_start received.deferred_ops from ⟨by simp [flush_start], by simp [flush_start]⟩)
    hstartKeeps
  have hmissing : ∀ op ∈ (received.deferred_ops.foldl apply_or_defer received.flush_start).2, op ∈ ledger.ops :=
    fun op hop => (hsecond.mem op hop).elim (fun hnil => absurd hnil List.not_mem_nil) (hreceivedLedger op)
  have hagree : OperationQueue.Agree
      ([] ++ (received.deferred_ops.foldl apply_or_defer received.flush_start).2) :=
    hlawful.agree.subset (by rwa [List.nil_append])
  obtain ⟨hflushedSorted, hflushedMem⟩ := OperationQueue.insert_spec List.Pairwise.nil hagree
  -- what the flush leaves
  have hdeferredOps : (buffer.apply_ops ops).deferred_ops =
      OperationQueue.insert [] (received.deferred_ops.foldl apply_or_defer received.flush_start).2 := by
    rw [apply_ops_eq, hreceived]
    exact congrArg (fun queue => OperationQueue.insert queue _) hsecond.deferred_ops
  have hafter : buffer.apply_ops ops =
      { (received.deferred_ops.foldl apply_or_defer received.flush_start).1 with
        deferred_ops := (buffer.apply_ops ops).deferred_ops } := by
    rw [apply_ops_eq, hreceived]
    rfl
  have hsnapshot : (buffer.apply_ops ops).snapshot =
      (received.deferred_ops.foldl apply_or_defer received.flush_start).1.snapshot := by rw [hafter]
  have hreceivedSnapshot : received.snapshot = (ops.foldl receive_op (buffer, [])).1.snapshot := by
    rw [← hreceived]
    rfl
  have hversion : (buffer.apply_ops ops).version =
      (received.deferred_ops.foldl apply_or_defer received.flush_start).1.version := by
    rw [Buffer.version, hsnapshot]
    rfl
  refine
    { keeps := ?_
      grows := ?_
      reports := ?_
      history := ?_
      defers := ?_
      settled := ?_
      applied := ?_ }
  · rw [hafter]
    exact hsecond.keeps.with_deferred
  · rw [hversion]
    refine Global.observed_all_trans hsecond.grows ?_
    change received.snapshot.version.observed_all _ = true
    rw [hreceivedSnapshot]
    exact hfirst.grows
  · have hstart : buffer.Reports received.flush_start.1 := by
      refine hfirst.reports.trans (reports_of_same ?_ ?_)
      · rw [← hreceived]
        rfl
      · rw [← hreceivedSnapshot]
        rfl
    refine (hstart.trans hsecond.reports).trans (reports_of_same ?_ ?_)
    · rw [hafter]
    · rw [hafter]
  · rw [hafter]
    have hhistory := hsecond.history
    rw [show received.flush_start.1.history = (ops.foldl receive_op (buffer, [])).1.history from by
      rw [← hreceived]; rfl, hfirst.history] at hhistory
    exact hhistory
  · refine ⟨?_, fun op hop => ?_, fun op hop => ?_⟩
    · rw [hdeferredOps]
      exact hflushedSorted
    · rw [hdeferredOps, hflushedMem] at hop
      exact hop.elim (fun hnil => absurd hnil List.not_mem_nil) (hmissing op)
    · rw [hdeferredOps, hflushedMem] at hop
      obtain hnil | hop := hop
      · cases hnil
      · obtain ⟨record, hrecord, hobserved, hnot, -⟩ := hstuck.ops op hop
        exact ⟨record, hrecord, hobserved, hversion ▸ hnot⟩
  · intro op hop
    rw [hdeferredOps, hflushedMem, hversion]
    have hqueued : op ∈ received.deferred_ops ∨
        (ops.foldl receive_op (buffer, [])).1.version.observed op.timestamp = true := by
      rw [hmem]
      obtain hop | hop := List.mem_append.mp hop
      · exact Or.inl (Or.inl hop)
      · exact (hfirst.settled op hop).imp_left Or.inr
    obtain hqueued | hobserved := hqueued
    · exact (hsecond.settled op hqueued).imp_left Or.inr
    · refine Or.inr (Global.observed_of_observed_all hsecond.grows ?_)
      change received.snapshot.version.observed _ = true
      rw [hreceivedSnapshot]
      exact hobserved
  · intro applied happlied
    rw [hversion, apply_ops_effects, hreceived, ← List.append_assoc]
    apply hsecond.applied
    change ledger.Applied received.snapshot.version _
    rw [hreceivedSnapshot]
    exact hfirst.applied applied happlied

end Ledger

end zed.text
