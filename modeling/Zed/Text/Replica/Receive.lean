import Zed.Text.Replica

namespace zed.text.OperationQueue

open zed.clock
open zed.sum_tree (Sorted)

def Agree (ops : List Operation) : Prop :=
  ∀ first ∈ ops, ∀ second ∈ ops, first.timestamp = second.timestamp → first = second

variable {queue : OperationQueue} {ops : List Operation}

theorem Agree.subset {other : List Operation} (h : Agree ops) (hsubset : other ⊆ ops) : Agree other :=
  fun _ hfirst _ hsecond => h _ (hsubset hfirst) _ (hsubset hsecond)

theorem dedup_from_spec (last : Operation) (ops : List Operation)
    (hsorted : (last :: ops).Pairwise fun x y => x.timestamp ≤ y.timestamp) (hagree : Agree (last :: ops)) :
    Sorted (last :: dedup_from last ops) ∧ ∀ op, op ∈ last :: dedup_from last ops ↔ op ∈ last :: ops := by
  induction ops generalizing last with
  | nil => exact ⟨List.pairwise_singleton _ _, fun op => Iff.rfl⟩
  | cons op ops ih =>
    obtain ⟨hfirst, hrest⟩ := List.pairwise_cons.mp hsorted
    unfold dedup_from
    split
    · rename_i heq
      obtain rfl : op = last :=
        hagree _ (List.mem_cons_of_mem _ List.mem_cons_self) _ List.mem_cons_self heq
      obtain ⟨hstrict, hmem⟩ := ih op hrest (hagree.subset (List.subset_cons_self _ _))
      refine ⟨hstrict, fun other => ?_⟩
      rw [hmem, List.mem_cons (l := op :: ops), List.mem_cons, ← or_assoc, or_self]
    · rename_i hne
      obtain ⟨hstrict, hmem⟩ := ih op hrest (hagree.subset (List.subset_cons_self _ _))
      have hlt : last.timestamp < op.timestamp :=
        lt_of_le_of_ne (hfirst op List.mem_cons_self) (Ne.symm hne)
      refine ⟨List.pairwise_cons.mpr ⟨fun other hother => ?_, hstrict⟩, fun other => ?_⟩
      · obtain rfl | hlater := List.mem_cons.mp hother
        · exact hlt
        · exact hlt.trans (hstrict.head_lt hlater)
      · rw [List.mem_cons, hmem, List.mem_cons (l := op :: ops)]

theorem dedup_spec (hsorted : ops.Pairwise fun x y => x.timestamp ≤ y.timestamp) (hagree : Agree ops) :
    Sorted (dedup ops) ∧ ∀ op, op ∈ dedup ops ↔ op ∈ ops := by
  cases ops with
  | nil => exact ⟨List.Pairwise.nil, fun op => Iff.rfl⟩
  | cons op ops => exact dedup_from_spec op ops hsorted hagree

private theorem mem_sorted {op : Operation} :
    op ∈ ops.insertionSort (fun x y => x.timestamp ≤ y.timestamp) ↔ op ∈ ops := List.mem_insertionSort _

private theorem sorted_le (ops : List Operation) :
    (ops.insertionSort fun x y => x.timestamp ≤ y.timestamp).Pairwise fun x y => x.timestamp ≤ y.timestamp :=
  @List.pairwise_insertionSort _ (fun x y : Operation => x.timestamp ≤ y.timestamp) _
    ⟨fun x y => le_total x.timestamp y.timestamp⟩ ⟨fun _ _ _ => le_trans⟩ ops

theorem insert_spec (hqueue : Sorted queue) (hagree : Agree (queue ++ ops)) :
    Sorted (insert queue ops) ∧ ∀ op, op ∈ insert queue ops ↔ op ∈ queue ∨ op ∈ ops := by
  simp only [insert]
  have hagreeOps : Agree ops := hagree.subset (List.subset_append_right _ _)
  obtain ⟨hsorted, hmem⟩ := dedup_spec (sorted_le ops) fun first hfirst second hsecond =>
    hagreeOps _ (mem_sorted.mp hfirst) _ (mem_sorted.mp hsecond)
  generalize dedup (ops.insertionSort fun x y => x.timestamp ≤ y.timestamp) = deduped at hsorted hmem
  have hops : ∀ op, op ∈ deduped ↔ op ∈ ops := fun op => (hmem op).trans mem_sorted
  have hkeys : ((deduped.map sum_tree.Edit.Insert).map sum_tree.Edit.key).Nodup := by
    rw [List.map_map, List.Nodup, List.pairwise_map]
    exact hsorted.imp fun hlt => ne_of_lt hlt
  obtain ⟨hedited, hedit⟩ := sum_tree.edit_spec hkeys hqueue
  refine ⟨hedited, fun op => (hedit op).trans ?_⟩
  rw [List.mem_map_of_injective fun _ _ heq => sum_tree.Edit.Insert.inj heq, hops, or_comm]
  refine or_congr_left' fun hnot => and_iff_left_of_imp fun hold edit hmemEdit heq => hnot ?_
  obtain ⟨other, hother, rfl⟩ := List.mem_map.mp hmemEdit
  have hotherOps : other ∈ ops := (hops _).mp hother
  obtain rfl := hagree _ (List.mem_append_right _ hotherOps) _ (List.mem_append_left _ hold) heq
  exact hotherOps

end zed.text.OperationQueue

namespace zed.text

open zed.clock zed.rope
open zed.sum_tree (Sorted)

namespace Buffer

def Tracks (buffer : Buffer) (texts : List Rope) : Prop :=
  List.Forall₂ (fun patch text => Patch.Takes patch text buffer.snapshot.visible_text) buffer.subscriptions texts

/-- A change that the subscriptions were told of. -/
def Reports (before after : Buffer) : Prop := ∀ texts, before.Tracks texts → after.Tracks texts

theorem Reports.trans {first second third : Buffer} (h : first.Reports second) (hnext : second.Reports third) :
    first.Reports third := fun texts htracks => hnext texts (h texts htracks)

theorem reports_of_same {before after : Buffer} (hsubscriptions : after.subscriptions = before.subscriptions)
    (htext : after.snapshot.visible_text = before.snapshot.visible_text) : before.Reports after := by
  intro texts htracks
  unfold Tracks
  rw [hsubscriptions, htext]
  exact htracks

theorem reports_of_publish {before after : Buffer} {patch : Patch}
    (hpatch : patch.Takes before.snapshot.visible_text after.snapshot.visible_text)
    (hsubscriptions : after.subscriptions = before.subscriptions.publish patch) : before.Reports after := by
  intro texts htracks
  unfold Tracks
  rw [hsubscriptions, Topic.publish, List.forall₂_map_left_iff]
  exact htracks.imp fun _ _ htakes => Patch.compose_takes htakes hpatch

/-- What one operation does when it takes effect. -/
def effect (buffer : Buffer) (op : Operation) : List Operation :=
  if buffer.can_apply_op op && !buffer.version.observed op.timestamp then [op] else []

/-- The operations that take effect in a loop over operations. -/
def effects (step : Buffer × List Operation → Operation → Buffer × List Operation) :
    Buffer × List Operation → List Operation → List Operation
  | _, [] => []
  | state, op :: ops => state.1.effect op ++ effects step (step state op) ops

/-- The loop of `flush_deferred_ops` starts with no deferred replicas. -/
def flush_start (buffer : Buffer) : Buffer × List Operation :=
  ({ buffer with deferred_replicas := ∅, deferred_ops := [] }, [])

/-- A buffer after the first loop of `apply_ops`. -/
def received (buffer : Buffer) (ops : List Operation) : Buffer :=
  let state := ops.foldl receive_op (buffer, [])
  { state.1 with deferred_ops := OperationQueue.insert state.1.deferred_ops state.2 }

/-- The operations that take effect in a call of `apply_ops`, in order. -/
def apply_ops_effects (buffer : Buffer) (ops : List Operation) : List Operation :=
  effects receive_op (buffer, []) ops ++
    effects apply_or_defer (buffer.received ops).flush_start (buffer.received ops).deferred_ops

theorem apply_op_of_observed {buffer : Buffer} {op : Operation}
    (h : buffer.version.observed op.timestamp = true) : buffer.apply_op op = buffer := by
  unfold apply_op
  cases op <;> exact if_neg (by rw [Bool.not_eq_true', Bool.not_eq_false]; exact h)

theorem apply_ops_eq (buffer : Buffer) (ops : List Operation) :
    buffer.apply_ops ops = (buffer.received ops).flush_deferred_ops := rfl

end Buffer

namespace Ledger

open Buffer

/-- What a buffer applied: each operation once, and after all that its author had. -/
structure Applied (ledger : Ledger) (version : Global) (applied : List Operation) : Prop where
  nodup : applied.Nodup
  mem : ∀ op, op ∈ applied ↔ ∃ record ∈ ledger.records, record.op = op ∧ version.observed op.timestamp = true
  causal : ∀ before op after, applied = before ++ op :: after →
    ∀ record ∈ ledger.records, op.version.observed record.timestamp = true → record.op ∈ before

variable {ledger : Ledger} {replica_id : Nat} {buffer after : Buffer} {record : Record}

theorem Applied.apply {version : Global} {applied : List Operation} (hlawful : ledger.Lawful)
    (h : ledger.Applied version applied) (hversion : ledger.Consistent version) (hmem : record ∈ ledger.records)
    (hall : version.observed_all record.version = true) (hnot : version.observed record.timestamp = false) :
    ledger.Applied (version.observe record.timestamp) (applied ++ [record.op]) := by
  have hnew : record.op ∉ applied := fun hin => by
    obtain ⟨-, -, -, hobserved⟩ := (h.mem _).mp hin
    rw [show record.op.timestamp = record.timestamp from rfl, hnot] at hobserved
    cases hobserved
  refine ⟨?_, fun op => ?_, fun before op after heq other hother hobserved => ?_⟩
  · rw [List.nodup_append]
    refine ⟨h.nodup, List.nodup_singleton _, fun op hop other hother heq => hnew ?_⟩
    rw [← List.mem_singleton.mp hother, ← heq]
    exact hop
  · rw [List.mem_append, List.mem_singleton, h.mem]
    constructor
    · rintro (⟨other, hother, rfl, hobserved⟩ | rfl)
      · exact ⟨other, hother, rfl, Global.observed_of_observed_all (Global.observe_observed_all _ _) hobserved⟩
      · exact ⟨record, hmem, rfl, Global.observe_observed_self _ _⟩
    · rintro ⟨other, hother, rfl, hobserved⟩
      obtain hold | heq := (hlawful.observe_iff hmem hversion hall (Or.inl ⟨other, hother, rfl⟩)).mp hobserved
      · exact Or.inl ⟨other, hother, rfl, hold⟩
      · rw [List.inj_on_of_nodup_map hlawful.distinct hother hmem heq]
        exact Or.inr rfl
  · obtain rfl | ⟨init, last, rfl⟩ := List.eq_nil_or_concat after
    · -- the operation is the new one
      obtain ⟨rfl, hop⟩ := List.append_inj' heq rfl
      obtain rfl : record.op = op := List.singleton_inj.mp hop
      apply (h.mem _).mpr
      exact ⟨other, hother, rfl, Global.observed_of_observed_all hall hobserved⟩
    · rw [List.concat_eq_append, ← List.cons_append, ← List.append_assoc] at heq
      exact h.causal before op init (List.append_inj' heq rfl).1 other hother hobserved

theorem Applied.push {version : Global} {applied : List Operation} (h : ledger.Applied version applied)
    (hlawful : ledger.Lawful) (hversion : ledger.Consistent version) (hfresh : ledger.Fresh record.timestamp) :
    (ledger.push record).Applied version applied := by
  refine ⟨h.nodup, fun op => ?_, fun before op after heq other hother hobserved => ?_⟩
  · rw [h.mem]
    constructor
    · rintro ⟨other, hother, heq⟩
      exact ⟨other, List.mem_append_left _ hother, heq⟩
    · rintro ⟨other, hother, rfl, hobserved⟩
      obtain hother | hother := List.mem_append.mp hother
      · exact ⟨other, hother, rfl, hobserved⟩
      · rw [List.mem_singleton.mp hother, show record.op.timestamp = record.timestamp from rfl,
          hfresh.not_observed hversion] at hobserved
        cases hobserved
  · obtain hother | hother := List.mem_append.mp hother
    · exact h.causal before op after heq other hother hobserved
    · obtain ⟨source, hsource, rfl, -⟩ := (h.mem op).mp (heq ▸ by simp)
      rw [List.mem_singleton.mp hother] at hobserved
      have hnot := hfresh.not_observed (hlawful.admits source hsource).consistent
      rw [show source.version = source.op.version from rfl, hobserved] at hnot
      cases hnot

theorem apply_remote_edit_version (snapshot : BufferSnapshot) (edit : EditOperation) :
    (snapshot.apply_remote_edit edit.version edit.ranges edit.new_text edit.timestamp).1.version =
      snapshot.version := by
  unfold BufferSnapshot.apply_remote_edit
  split <;> rfl

theorem Mirrors.observe_empty {snapshot : BufferSnapshot} {edit : EditOperation} (hlawful : ledger.Lawful)
    (hmem : record ∈ ledger.records) (hop : record.op = .Edit edit) (hempty : edit.ranges = [])
    (h : ledger.Mirrors snapshot) (hall : snapshot.version.observed_all record.version = true)
    (hnot : snapshot.version.observed record.timestamp = false) :
    ledger.Mirrors (snapshot.observing record.timestamp) := by
  apply Weaves.mirrors hlawful hmem hop h hall hnot
  refine
    { store := h.store.observing _
      undo_map := rfl
      version := rfl
      woven := ?_ }
  rw [Record.cuts_edit hop, hempty]
  rfl

/-- What applying an operation does: it is observed, and the subscriptions are told. -/
structure Receives (ledger : Ledger) (replica_id : Nat) (buffer after : Buffer) (timestamp : Lamport) : Prop where
  keeps : ledger.Keeps replica_id after
  version : after.version = if buffer.version.observed timestamp then buffer.version
    else buffer.version.observe timestamp
  reports : buffer.Reports after
  history : after.history = buffer.history
  deferred_ops : after.deferred_ops = buffer.deferred_ops
  deferred_replicas : after.deferred_replicas = buffer.deferred_replicas

theorem Keeps.observe_remote (h : ledger.Keeps replica_id buffer) {timestamp : Lamport} {snapshot : BufferSnapshot}
    {subscriptions : Topic} (hmirrors : ledger.Mirrors (snapshot.observing timestamp))
    (hversion : snapshot.version = buffer.version) :
    ledger.Keeps replica_id ({ buffer with snapshot, subscriptions }.observe_remote timestamp) := by
  have hgrow : (snapshot.observing timestamp).version.observed_all buffer.version = true := by
    rw [← hversion]
    exact Global.observe_observed_all _ _
  refine
    { mirrors := hmirrors
      clock_replica := h.clock_replica
      clock_after := fun other => ?_
      own := fun record hmem heq => Global.observed_of_observed_all hgrow (h.own record hmem heq)
      operations_sorted := h.operations_sorted
      open_entry := h.open_entry
      undo_known := fun edit_id hedit => (h.undo_known edit_id hedit).mono hgrow
      redo_known := fun edit_id hedit => (h.redo_known edit_id hedit).mono hgrow }
  change (snapshot.version.observe timestamp).get other < max buffer.lamport_clock.value timestamp.value + 1
  rw [Global.observe_get, hversion]
  have hlt := h.clock_after other
  split <;> omega

theorem Keeps.apply_op (hlawful : ledger.Lawful) (h : ledger.Keeps replica_id buffer)
    (hmem : record ∈ ledger.records) (hall : buffer.version.observed_all record.version = true) :
    ledger.Receives replica_id buffer (buffer.apply_op record.op) record.timestamp := by
  by_cases hobserved : buffer.version.observed record.timestamp = true
  · rw [apply_op_of_observed hobserved]
    exact ⟨h, by rw [if_pos hobserved], fun _ htracks => htracks, rfl, rfl, rfl⟩
  · have hnot := Bool.eq_false_of_not_eq_true hobserved
    cases hop : record.op with
    | Edit edit =>
      have htimestamp : record.timestamp = edit.timestamp := by rw [Record.timestamp, hop]; rfl
      have heq : buffer.apply_op (.Edit edit) =
          (buffer.apply_remote_edit edit).observe_remote edit.timestamp := by
        rw [htimestamp] at hnot
        exact if_pos (by rw [hnot]; rfl)
      rw [heq, htimestamp]
      unfold apply_remote_edit
      split
      · rename_i hempty
        have hmirrors := h.mirrors.observe_empty hlawful hmem hop hempty hall hnot
        rw [htimestamp] at hmirrors
        refine
          { keeps := h.observe_remote hmirrors rfl
            version := ?_
            reports := reports_of_same rfl rfl
            history := rfl
            deferred_ops := rfl
            deferred_replicas := rfl }
        rw [← htimestamp, if_neg hobserved]
        rfl
      · obtain ⟨hmirrors, hpatch⟩ := h.mirrors.apply_remote_edit hlawful hmem hop hall hnot
        have hversion := apply_remote_edit_version buffer.snapshot edit
        refine
          { keeps := h.observe_remote hmirrors hversion
            version := ?_
            reports := reports_of_publish hpatch rfl
            history := rfl
            deferred_ops := rfl
            deferred_replicas := rfl }
        rw [← htimestamp, if_neg hobserved, htimestamp]
        exact congrArg (fun version : Global => version.observe edit.timestamp) hversion
    | Undo undo =>
      have htimestamp : record.timestamp = undo.timestamp := by rw [Record.timestamp, hop]; rfl
      have heq : buffer.apply_op (.Undo undo) = (buffer.apply_undo undo).observe_remote undo.timestamp := by
        rw [htimestamp] at hnot
        exact if_pos (by rw [hnot]; rfl)
      obtain ⟨hmirrors, hpatch⟩ := h.mirrors.apply_undo hlawful hmem hop hall hnot
      have hversion := (BufferSnapshot.apply_undo_spec h.mirrors.store undo).version
      rw [heq, htimestamp]
      refine
        { keeps := h.observe_remote hmirrors hversion
          version := ?_
          reports := reports_of_publish hpatch rfl
          history := rfl
          deferred_ops := rfl
          deferred_replicas := rfl }
      rw [← htimestamp, if_neg hobserved, htimestamp]
      exact congrArg (fun version : Global => version.observe undo.timestamp) hversion

end Ledger

end zed.text
