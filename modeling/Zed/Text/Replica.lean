import Zed.Text.History.Stacks
import Zed.Text.Mirror.New

namespace zed.text

open zed.clock zed.rope
open zed.sum_tree (Sorted)

namespace Ledger

def HasEdit (ledger : Ledger) (version : Global) (edit_id : Lamport) : Prop :=
  version.observed edit_id = true ∧ ∃ edit other, ledger.find edit_id = some other ∧ other.op = .Edit edit

/-- A buffer that belongs to a replica which follows the protocol. -/
structure Keeps (ledger : Ledger) (replica_id : Nat) (buffer : Buffer) : Prop where
  mirrors : ledger.Mirrors buffer.snapshot
  clock_replica : buffer.lamport_clock.replica_id = replica_id
  clock_after : ∀ replica_id, buffer.version.get replica_id < buffer.lamport_clock.value
  own : ∀ record ∈ ledger.records, record.timestamp.replica_id = replica_id →
    buffer.version.observed record.timestamp = true
  operations_sorted : Sorted buffer.history.operations
  open_entry : 0 < buffer.history.transaction_depth → buffer.history.undo_stack ≠ []
  undo_known : ∀ edit_id ∈ editIds buffer.history.undo_stack, ledger.HasEdit buffer.version edit_id
  redo_known : ∀ edit_id ∈ editIds buffer.history.redo_stack, ledger.HasEdit buffer.version edit_id

variable {ledger : Ledger} {replica_id : Nat} {buffer after : Buffer}

theorem HasEdit.push {record : Record} {version later : Global} {edit_id : Lamport}
    (hfresh : ledger.Fresh record.timestamp) (hversion : ledger.Consistent version)
    (hlater : later.observed_all version = true) (h : ledger.HasEdit version edit_id) :
    (ledger.push record).HasEdit later edit_id := by
  refine ⟨Global.observed_of_observed_all hlater h.1, ?_⟩
  rw [hversion.push_frame hfresh h.1]
  exact h.2

theorem HasEdit.mono {version later : Global} {edit_id : Lamport}
    (hlater : later.observed_all version = true) (h : ledger.HasEdit version edit_id) :
    ledger.HasEdit later edit_id := ⟨Global.observed_of_observed_all hlater h.1, h.2⟩

namespace Keeps

theorem fresh (h : ledger.Keeps replica_id buffer) {timestamp : Lamport}
    (hreplica : timestamp.replica_id = replica_id) (hvalue : buffer.lamport_clock.value ≤ timestamp.value) :
    ledger.Fresh timestamp := by
  have hlt : ∀ other : Lamport, buffer.version.observed other = true → other.value < timestamp.value := by
    intro other hobserved
    have := Global.observed_iff.mp hobserved
    have := h.clock_after other.replica_id
    omega
  refine ⟨?_, ?_⟩
  · have := h.clock_after replica_id
    omega
  · rintro other (⟨record, hrecord, rfl⟩ | ⟨hbase, rfl⟩) heq
    · exact hlt _ (h.own record hrecord (heq.trans hreplica))
    · exact hlt _ (h.mirrors.version.base hbase)

theorem push (h : ledger.Keeps replica_id buffer) {record : Record} (hfresh : ledger.Fresh record.timestamp)
    (hother : record.timestamp.replica_id ≠ replica_id) : (ledger.push record).Keeps replica_id buffer := by
  have hrefl := Global.observed_all_refl buffer.version
  refine
    { mirrors := h.mirrors.push hfresh
      clock_replica := h.clock_replica
      clock_after := h.clock_after
      own := fun other hmem hreplica => ?_
      operations_sorted := h.operations_sorted
      open_entry := h.open_entry
      undo_known := fun edit_id hedit => (h.undo_known edit_id hedit).push hfresh h.mirrors.version hrefl
      redo_known := fun edit_id hedit => (h.redo_known edit_id hedit).push hfresh h.mirrors.version hrefl }
  obtain hmem | hmem := List.mem_append.mp hmem
  · exact h.own other hmem hreplica
  · rw [List.mem_singleton.mp hmem] at hreplica
    exact absurd hreplica hother

/-- Whatever changes only the stacks and lets the clock go on. -/
theorem of_history (h : ledger.Keeps replica_id buffer) {history : History} {clock : Lamport}
    (hclock : clock.replica_id = replica_id) (hvalue : buffer.lamport_clock.value ≤ clock.value)
    (hoperations : Sorted history.operations)
    (hopen : 0 < history.transaction_depth → history.undo_stack ≠ [])
    (hundo : ∀ edit_id ∈ editIds history.undo_stack,
      edit_id ∈ editIds buffer.history.undo_stack ∨ edit_id ∈ editIds buffer.history.redo_stack)
    (hredo : ∀ edit_id ∈ editIds history.redo_stack,
      edit_id ∈ editIds buffer.history.undo_stack ∨ edit_id ∈ editIds buffer.history.redo_stack) :
    ledger.Keeps replica_id { buffer with history, lamport_clock := clock } := by
  have hknown : ∀ edit_id, edit_id ∈ editIds buffer.history.undo_stack ∨
      edit_id ∈ editIds buffer.history.redo_stack → ledger.HasEdit buffer.version edit_id := by
    rintro edit_id (hedit | hedit)
    · exact h.undo_known edit_id hedit
    · exact h.redo_known edit_id hedit
  exact
    { mirrors := h.mirrors
      clock_replica := hclock
      clock_after := fun replica_id => (h.clock_after replica_id).trans_le hvalue
      own := h.own
      operations_sorted := hoperations
      open_entry := hopen
      undo_known := fun edit_id hedit => hknown edit_id (hundo edit_id hedit)
      redo_known := fun edit_id hedit => hknown edit_id (hredo edit_id hedit) }

end Keeps

end Ledger

theorem History.start_transaction_eq (history : History) (start : Global) (now : Nat) (clock : Lamport) :
    history.start_transaction start now clock =
      if history.transaction_depth = 0 then
        ({ history with
            transaction_depth := 1
            undo_stack :=
              { transaction := { id := clock, edit_ids := [], start }
                first_edit_at := now
                last_edit_at := now
                suppress_grouping := false } :: history.undo_stack },
          { clock with value := clock.value + 1 }, some clock)
      else ({ history with transaction_depth := history.transaction_depth + 1 }, clock, none) := by
  unfold start_transaction
  by_cases hdepth : history.transaction_depth = 0
  · simp [hdepth, Lamport.tick]
  · simp [hdepth]

namespace Buffer

open Ledger

theorem end_transaction_at_eq (buffer : Buffer) (now : Nat) :
    (buffer.end_transaction_at now).map Prod.fst =
      (buffer.history.close now).map fun history => { buffer with history } := by
  unfold end_transaction_at History.close
  cases hend : buffer.history.end_transaction now with
  | none => rfl
  | some ended =>
    obtain ⟨history, entry⟩ := ended
    cases entry with
    | none => rfl
    | some entry =>
      dsimp only
      cases history.group.2 <;> rfl

/-- A buffer in which a transaction was started, after an edit of it and the end
    of the transaction. -/
def edited (started : Buffer) (applied : BufferSnapshot × EditOperation × Patch) (history : History) : Buffer :=
  { snapshot := applied.1.observing applied.2.1.timestamp
    history
    deferred_ops := started.deferred_ops
    deferred_replicas := started.deferred_replicas
    lamport_clock := started.lamport_clock.tick.2
    subscriptions := started.subscriptions.publish applied.2.2 }

/-- What an edit comes to, with the panics of the history as `none`. -/
theorem edit_eq {buffer started : Buffer} {edits : List (Range × Str)} {start_now : Nat}
    {applied : BufferSnapshot × EditOperation × Patch}
    (hstarted : (buffer.start_transaction_at start_now).1 = started)
    (happlied : started.snapshot.apply_edit_internal edits started.lamport_clock = applied) (end_now : Nat) :
    buffer.edit edits start_now end_now =
      ((((started.history.push (.Edit applied.2.1)).push_undo applied.2.1.timestamp).bind fun history =>
        history.close end_now).map fun history => (started.edited applied history, .Edit applied.2.1)) := by
  unfold Buffer.edit
  rw [← Prod.mk.eta (p := buffer.start_transaction_at start_now), hstarted]
  dsimp only [apply_local_edit, Lamport.tick]
  rw [happlied]
  dsimp only [Operation.timestamp]
  cases (started.history.push (.Edit applied.2.1)).push_undo applied.2.1.timestamp with
  | none => rfl
  | some history =>
    dsimp only [observe]
    have hend := end_transaction_at_eq
      { started with
        snapshot := applied.1.observing applied.2.1.timestamp
        history
        lamport_clock := started.lamport_clock.tick.2
        subscriptions := started.subscriptions.publish applied.2.2 } end_now
    have hmap : ∀ ended : Option (Buffer × Option (Lamport × Global)),
        (ended.map fun ended => (ended.1, Operation.Edit applied.2.1)) =
          (ended.map Prod.fst).map fun buffer => (buffer, Operation.Edit applied.2.1) := fun ended => by
      rw [Option.map_map]
      rfl
    refine (hmap _).trans ?_
    refine (congrArg (Option.map fun buffer => (buffer, Operation.Edit applied.2.1)) hend).trans ?_
    rw [Option.map_map]
    rfl

/-- What a replica does when it makes an operation: the ledger grows by it, the
    buffer has applied it, and the subscriptions were told. -/
structure Makes (ledger : Ledger) (replica_id : Nat) (buffer after : Buffer) (op : Operation) : Prop where
  fresh : ledger.Fresh op.timestamp
  replica : op.timestamp.replica_id = replica_id
  seen : op.version = buffer.version
  lawful : (ledger.push (buffer.snapshot.authored op)).Lawful
  keeps : (ledger.push (buffer.snapshot.authored op)).Keeps replica_id after
  version : after.version = buffer.version.observe op.timestamp
  patch : ∃ patch : Patch, patch.Takes buffer.snapshot.visible_text after.snapshot.visible_text ∧
    after.subscriptions = buffer.subscriptions.publish patch
  deferred_ops : after.deferred_ops = buffer.deferred_ops
  deferred_replicas : after.deferred_replicas = buffer.deferred_replicas

/-- A buffer in which a transaction was started. -/
structure Starts (ledger : Ledger) (replica_id : Nat) (buffer started : Buffer) : Prop where
  keeps : ledger.Keeps replica_id started
  snapshot : started.snapshot = buffer.snapshot
  subscriptions : started.subscriptions = buffer.subscriptions
  deferred_ops : started.deferred_ops = buffer.deferred_ops
  deferred_replicas : started.deferred_replicas = buffer.deferred_replicas
  depth : started.history.transaction_depth = buffer.history.transaction_depth + 1
  undo_stack : started.history.undo_stack ≠ []

variable {ledger : Ledger} {replica_id : Nat} {buffer : Buffer}

theorem start_transaction_at_spec (h : ledger.Keeps replica_id buffer) (now : Nat) :
    Starts ledger replica_id buffer (buffer.start_transaction_at now).1 := by
  have heq := buffer.history.start_transaction_eq buffer.version now buffer.lamport_clock
  unfold start_transaction_at
  rw [heq]
  by_cases hdepth : buffer.history.transaction_depth = 0
  · rw [if_pos hdepth]
    refine
      { keeps := ?_
        snapshot := rfl
        subscriptions := rfl
        deferred_ops := rfl
        deferred_replicas := rfl
        depth := by rw [hdepth]
        undo_stack := List.cons_ne_nil _ _ }
    exact h.of_history h.clock_replica (Nat.le_succ _) h.operations_sorted (fun _ => List.cons_ne_nil _ _)
      (fun edit_id hedit => Or.inl hedit) (fun edit_id hedit => Or.inr hedit)
  · rw [if_neg hdepth]
    have hstack := h.open_entry (Nat.pos_of_ne_zero hdepth)
    refine
      { keeps := ?_
        snapshot := rfl
        subscriptions := rfl
        deferred_ops := rfl
        deferred_replicas := rfl
        depth := rfl
        undo_stack := hstack }
    exact h.of_history h.clock_replica le_rfl h.operations_sorted (fun _ => hstack)
      (fun edit_id hedit => Or.inl hedit) (fun edit_id hedit => Or.inr hedit)

theorem edit_spec (hlawful : ledger.Lawful) (h : ledger.Keeps replica_id buffer)
    {edits : List (Range × Str)} (hedits : EditsFrom buffer.snapshot.visible_text.length 0 edits)
    (start_now end_now : Nat) : ∃ after op entry rest,
      let started := (buffer.start_transaction_at start_now).1
      buffer.edit edits start_now end_now = some (after, .Edit op) ∧
        Makes ledger replica_id buffer after (.Edit op) ∧
        after.snapshot.visible_text = splice buffer.snapshot.visible_text 0 edits ∧
        op.timestamp = started.lamport_clock ∧ started.history.undo_stack = entry :: rest ∧
        History.Closes
          { started.history with
            operations := sum_tree.insert_or_replace started.history.operations (.Edit op)
            undo_stack :=
              { entry with
                transaction :=
                  { entry.transaction with edit_ids := entry.transaction.edit_ids ++ [op.timestamp] } } ::
                rest } after.history := by
  have hstarts := start_transaction_at_spec h start_now
  generalize hstarted : (buffer.start_transaction_at start_now).1 = started at hstarts
  obtain ⟨entry, rest, hstack⟩ := List.exists_cons_of_ne_nil hstarts.undo_stack
  let timestamp := started.lamport_clock
  have hreplica : timestamp.replica_id = replica_id := hstarts.keeps.clock_replica
  have hfresh : ledger.Fresh timestamp := hstarts.keeps.fresh hreplica le_rfl
  have hversion : started.version = buffer.version := congrArg BufferSnapshot.version hstarts.snapshot
  have hafter := hstarts.keeps.clock_after
  rw [hversion] at hafter
  have hstep := h.mirrors.apply_edit_internal hlawful hedits hfresh hafter fun other hother heq =>
    h.own other hother (heq.trans hreplica)
  generalize happlied : buffer.snapshot.apply_edit_internal edits timestamp = applied at hstep
  have hpush := History.push_undo_edit applied.2.1 hstarts.keeps.operations_sorted
    (by rw [hstarts.depth]; exact Nat.succ_pos _) hstack
  generalize hopened : ({ started.history with
    operations := sum_tree.insert_or_replace started.history.operations (.Edit applied.2.1)
    undo_stack :=
      { entry with
        transaction :=
          { entry.transaction with edit_ids := entry.transaction.edit_ids ++ [applied.2.1.timestamp] } } ::
        rest } : History) = opened at hpush
  have hopenedStack : opened.undo_stack ≠ [] := by
    rw [← hopened]
    exact List.cons_ne_nil _ _
  obtain ⟨history, hclose, hcloses⟩ := History.close_spec end_now
    (by rw [← hopened]; exact hstarts.depth ▸ Nat.succ_pos _) hopenedStack
  have hedit : buffer.edit edits start_now end_now = some (started.edited applied history, .Edit applied.2.1) := by
    rw [edit_eq hstarted (hstarts.snapshot ▸ happlied), hpush, Option.bind_some, hclose, Option.map_some]
  refine ⟨_, applied.2.1, entry, rest, hedit, ?_, hstep.visible_text, hstep.op_timestamp, hstack, ?_⟩
  · have hop : applied.2.1.timestamp = timestamp := hstep.op_timestamp
    have hopTimestamp : (Operation.Edit applied.2.1).timestamp = timestamp := hop
    have hrecord : (buffer.snapshot.authored (.Edit applied.2.1)).timestamp = timestamp := hop
    have hfreshOp : ledger.Fresh (buffer.snapshot.authored (.Edit applied.2.1)).timestamp := hrecord.symm ▸ hfresh
    have hafterVersion : (started.edited applied history).version = buffer.version.observe timestamp := by
      rw [← hop]
      exact congrArg (fun version : Global => version.observe applied.2.1.timestamp) hstep.same.version
    have hgrow : (started.edited applied history).version.observed_all buffer.version = true := by
      rw [hafterVersion]
      exact Global.observe_observed_all _ _
    have hself : (started.edited applied history).version.observed timestamp = true := by
      rw [hafterVersion]
      exact Global.observe_observed_self _ _
    have hknown : ∀ edit_id, ledger.HasEdit buffer.version edit_id →
        (ledger.push (buffer.snapshot.authored (.Edit applied.2.1))).HasEdit
          (started.edited applied history).version edit_id :=
      fun edit_id hedit => hedit.push hfreshOp h.mirrors.version hgrow
    refine
      { fresh := hopTimestamp.symm ▸ hfresh
        replica := hopTimestamp.symm ▸ hreplica
        seen := hstep.op_version
        lawful := hstep.lawful
        keeps := ?_
        version := hopTimestamp.symm ▸ hafterVersion
        patch := ⟨applied.2.2, hstep.patch, ?_⟩
        deferred_ops := hstarts.deferred_ops
        deferred_replicas := hstarts.deferred_replicas }
    · refine
        { mirrors := ?_
          clock_replica := hreplica
          clock_after := fun other => ?_
          own := fun record hmem heq => ?_
          operations_sorted := ?_
          open_entry := hcloses.open_entry hopenedStack
          undo_known := fun edit_id hedit => ?_
          redo_known := fun edit_id hedit => ?_ }
      · have hmirrors := hstep.mirrors
        rwa [← hop] at hmirrors
      · rw [hafterVersion, Global.observe_get]
        have hlt := hafter other
        change _ < timestamp.value + 1
        have htimestamp : started.lamport_clock.value = timestamp.value := rfl
        split <;> omega
      · obtain hmem | hmem := List.mem_append.mp hmem
        · exact Global.observed_of_observed_all hgrow (h.own record hmem heq)
        · rw [List.mem_singleton.mp hmem]
          exact hrecord.symm ▸ hself
      · change Sorted history.operations
        rw [hcloses.operations, ← hopened]
        exact sum_tree.insert_or_replace_sorted hstarts.keeps.operations_sorted _
      · have hopenedIds := hcloses.undo_subset edit_id hedit
        rw [← hopened] at hopenedIds
        rw [editIds_cons, List.append_assoc, List.mem_append, List.mem_append, List.mem_singleton] at hopenedIds
        have hstarted : edit_id ∈ editIds started.history.undo_stack ∨ edit_id = timestamp := by
          rw [hstack, editIds_cons, List.mem_append]
          obtain hin | heq | hin := hopenedIds
          · exact Or.inl (Or.inl hin)
          · exact Or.inr (heq.trans hop)
          · exact Or.inl (Or.inr hin)
        obtain hold | rfl := hstarted
        · exact hknown edit_id (hversion ▸ hstarts.keeps.undo_known edit_id hold)
        · refine ⟨hself, applied.2.1, buffer.snapshot.authored (.Edit applied.2.1), ?_, rfl⟩
          have hfind := push_find_self hfreshOp
          rwa [hrecord] at hfind
      · have hopenedIds := hcloses.redo_subset edit_id hedit
        rw [← hopened] at hopenedIds
        exact hknown edit_id (hversion ▸ hstarts.keeps.redo_known edit_id hopenedIds)
    · change started.subscriptions.publish _ = _
      rw [hstarts.subscriptions]
  · rw [hopened]
    exact hcloses

end Buffer

end zed.text
