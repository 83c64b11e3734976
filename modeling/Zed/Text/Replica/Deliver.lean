import Zed.Text.Replica.Receive

namespace zed.text

open zed.clock zed.rope
namespace Ledger

open Buffer

variable {ledger : Ledger} {replica_id : Nat}

def ops (ledger : Ledger) : List Operation := ledger.records.map Record.op

theorem mem_ops {op : Operation} : op ∈ ledger.ops ↔ ∃ record ∈ ledger.records, record.op = op := List.mem_map

theorem Lawful.agree (hlawful : ledger.Lawful) : OperationQueue.Agree ledger.ops := by
  intro first hfirst second hsecond heq
  obtain ⟨record, hrecord, rfl⟩ := mem_ops.mp hfirst
  obtain ⟨other, hother, rfl⟩ := mem_ops.mp hsecond
  rw [List.inj_on_of_nodup_map hlawful.distinct hrecord hother heq]

/-- What a loop over operations did to a buffer and the list of deferred operations. -/
structure Delivers (ledger : Ledger) (replica_id : Nat)
    (step : Buffer × List Operation → Operation → Buffer × List Operation)
    (state : Buffer × List Operation) (ops : List Operation) : Prop where
  keeps : ledger.Keeps replica_id (ops.foldl step state).1
  grows : (ops.foldl step state).1.version.observed_all state.1.version = true
  reports : state.1.Reports (ops.foldl step state).1
  deferred_ops : (ops.foldl step state).1.deferred_ops = state.1.deferred_ops
  history : (ops.foldl step state).1.history =
    { state.1.history with operations := (ops.foldl step state).1.history.operations }
  mem : ∀ op, op ∈ (ops.foldl step state).2 → op ∈ state.2 ∨ op ∈ ops
  kept : ∀ op ∈ state.2, op ∈ (ops.foldl step state).2
  settled : ∀ op ∈ ops,
    op ∈ (ops.foldl step state).2 ∨ (ops.foldl step state).1.version.observed op.timestamp = true
  applied : ∀ applied, ledger.Applied state.1.version applied →
    ledger.Applied (ops.foldl step state).1.version (applied ++ effects step state ops)

theorem Delivers.nil {step : Buffer × List Operation → Operation → Buffer × List Operation}
    {state : Buffer × List Operation} (h : ledger.Keeps replica_id state.1) :
    ledger.Delivers replica_id step state [] where
  keeps := h
  grows := Global.observed_all_refl _
  reports := fun _ htracks => htracks
  deferred_ops := rfl
  history := rfl
  mem := fun _ hop => Or.inl hop
  kept := fun _ hop => hop
  settled := by simp
  applied := fun applied h => by rwa [effects, List.append_nil]

theorem Delivers.cons {step : Buffer × List Operation → Operation → Buffer × List Operation}
    {state : Buffer × List Operation} {op : Operation} {ops : List Operation}
    (hfirst : ledger.Delivers replica_id step state [op])
    (hrest : ledger.Delivers replica_id step (step state op) ops) :
    ledger.Delivers replica_id step state (op :: ops) where
  keeps := hrest.keeps
  grows := Global.observed_all_trans hrest.grows hfirst.grows
  reports := hfirst.reports.trans hrest.reports
  deferred_ops := hrest.deferred_ops.trans hfirst.deferred_ops
  history := by
    have hhistory := hrest.history
    rw [show (step state op).1.history = _ from hfirst.history] at hhistory
    exact hhistory
  mem := fun other hother => by
    obtain hstep | hin := hrest.mem other hother
    · exact (hfirst.mem other hstep).imp_right fun hin => by
        rw [List.mem_singleton.mp hin]
        exact List.mem_cons_self
    · exact Or.inr (List.mem_cons_of_mem _ hin)
  kept := fun other hother => hrest.kept other (hfirst.kept other hother)
  settled := fun other hother => by
    obtain rfl | hin := List.mem_cons.mp hother
    · obtain hdeferred | hobserved := hfirst.settled other (List.mem_singleton_self _)
      · exact Or.inl (hrest.kept other hdeferred)
      · exact Or.inr (Global.observed_of_observed_all hrest.grows hobserved)
    · exact hrest.settled other hin
  applied := fun applied happlied => by
    have hnext := hrest.applied _ (hfirst.applied applied happlied)
    have hsingle : effects step state [op] = state.1.effect op := by
      rw [effects, effects, List.append_nil]
    rw [hsingle, List.append_assoc] at hnext
    exact hnext

theorem Delivers.of_steps {step : Buffer × List Operation → Operation → Buffer × List Operation}
    {state : Buffer × List Operation} {ops : List Operation} (h : ledger.Keeps replica_id state.1)
    (hstep : ∀ op ∈ ops, ∀ state, ledger.Keeps replica_id state.1 →
      ledger.Delivers replica_id step state [op]) : ledger.Delivers replica_id step state ops := by
  induction ops generalizing state with
  | nil => exact Delivers.nil h
  | cons op ops ih =>
    have hfirst := hstep op List.mem_cons_self state h
    exact hfirst.cons (ih hfirst.keeps fun other hother => hstep other (List.mem_cons_of_mem _ hother))

theorem can_apply_op_iff {buffer : Buffer} {op : Operation} : buffer.can_apply_op op = true ↔
    op.replica_id ∉ buffer.deferred_replicas ∧ buffer.version.observed_all op.version = true := by
  unfold can_apply_op
  split
  · rename_i hin
    simp [hin]
  · rename_i hnot
    simp [hnot]

theorem apply_or_defer_delivers (hlawful : ledger.Lawful) {state : Buffer × List Operation} {op : Operation}
    (hop : op ∈ ledger.ops) (h : ledger.Keeps replica_id state.1) :
    ledger.Delivers replica_id apply_or_defer state [op] := by
  obtain ⟨record, hmem, rfl⟩ := mem_ops.mp hop
  obtain ⟨buffer, deferred⟩ := state
  dsimp only at h
  by_cases hcan : buffer.can_apply_op record.op = true
  · have hall := (can_apply_op_iff.mp hcan).2
    have hfold : [record.op].foldl apply_or_defer (buffer, deferred) = (buffer.apply_op record.op, deferred) :=
      if_pos hcan
    have happly := h.apply_op hlawful hmem hall
    have hself : (buffer.apply_op record.op).version.observed record.timestamp = true := by
      rw [happly.version]
      split
      · assumption
      · exact Global.observe_observed_self _ _
    refine
      { keeps := ?_
        grows := ?_
        reports := ?_
        deferred_ops := ?_
        history := ?_
        mem := ?_
        kept := ?_
        settled := ?_
        applied := ?_ }
    all_goals rw [hfold]
    · exact happly.keeps
    · rw [happly.version]
      split
      · exact Global.observed_all_refl _
      · exact Global.observe_observed_all _ _
    · exact happly.reports
    · exact happly.deferred_ops
    · rw [happly.history]
    · exact fun op hin => Or.inl hin
    · exact fun op hin => hin
    · rintro op hin
      rw [List.mem_singleton.mp hin]
      exact Or.inr hself
    · intro applied happlied
      rw [effects, effects, List.append_nil, effect, hcan, Bool.true_and, happly.version]
      by_cases hobserved : buffer.version.observed record.timestamp = true
      · rw [if_pos hobserved, if_neg (by rw [show record.op.timestamp = record.timestamp from rfl, hobserved]; simp),
          List.append_nil]
        exact happlied
      · have hnot := Bool.eq_false_of_not_eq_true hobserved
        rw [if_neg hobserved, if_pos (by rw [show record.op.timestamp = record.timestamp from rfl, hnot]; rfl)]
        exact happlied.apply hlawful h.mirrors.version hmem hall hnot
  · have hfold : [record.op].foldl apply_or_defer (buffer, deferred) =
        ({ buffer with deferred_replicas := insert record.op.replica_id buffer.deferred_replicas },
          deferred ++ [record.op]) := if_neg hcan
    refine
      { keeps := ?_
        grows := ?_
        reports := ?_
        deferred_ops := ?_
        history := ?_
        mem := ?_
        kept := ?_
        settled := ?_
        applied := ?_ }
    all_goals rw [hfold]
    · exact ⟨h.mirrors, h.clock_replica, h.clock_after, h.own, h.operations_sorted, h.open_entry, h.undo_known,
        h.redo_known⟩
    · exact Global.observed_all_refl _
    · exact reports_of_same rfl rfl
    · exact fun op hin => List.mem_append.mp hin
    · exact fun op hin => List.mem_append_left _ hin
    · exact fun op hin => Or.inl (List.mem_append_right _ hin)
    · intro applied happlied
      rw [effects, effects, List.append_nil, effect, if_neg (by simp [hcan]), List.append_nil]
      exact happlied

/-- Received operations go into the history before they are applied or put aside. -/
theorem receive_op_delivers (hlawful : ledger.Lawful) {state : Buffer × List Operation} {op : Operation}
    (hop : op ∈ ledger.ops) (h : ledger.Keeps replica_id state.1) :
    ledger.Delivers replica_id receive_op state [op] := by
  have hpushed : ledger.Keeps replica_id { state.1 with history := state.1.history.push op } :=
    ⟨h.mirrors, h.clock_replica, h.clock_after, h.own,
      sum_tree.insert_or_replace_sorted h.operations_sorted _, h.open_entry, h.undo_known, h.redo_known⟩
  have hdelivers : ledger.Delivers replica_id apply_or_defer
      ({ state.1 with history := state.1.history.push op }, state.2) [op] :=
    apply_or_defer_delivers hlawful hop hpushed
  exact ⟨hdelivers.keeps, hdelivers.grows, hdelivers.reports, hdelivers.deferred_ops, hdelivers.history,
    hdelivers.mem, hdelivers.kept, hdelivers.settled, hdelivers.applied⟩

end Ledger

end zed.text
