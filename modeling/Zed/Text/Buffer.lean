import Zed.Text.History
import Zed.Text.Snapshot

namespace zed.text

open zed.clock zed.rope

/-- `Topic`: for each subscription the patch that it has not consumed yet. -/
abbrev Topic := List Patch

namespace Topic

def publish (subscriptions : Topic) (edits : Patch) : Topic :=
  subscriptions.map fun patch => patch.compose edits

def subscribe (subscriptions : Topic) : Topic := subscriptions ++ [[]]

/-- The patch of a subscription, which starts over. -/
def consume (subscriptions : Topic) (subscription : Nat) : Patch × Topic :=
  (subscriptions.getD subscription [], subscriptions.set subscription [])

end Topic

structure Buffer where
  snapshot : BufferSnapshot
  history : History
  deferred_ops : OperationQueue
  deferred_replicas : Finset Nat
  lamport_clock : Lamport
  subscriptions : Topic

namespace Buffer

def version (buffer : Buffer) : Global := buffer.snapshot.version

/-- The variables of the loop of `new_normalized`. -/
structure BaseWalk where
  fragments : List Fragment
  insertions : List InsertionFragment
  insertion_offset : Nat
  prev_locator : Locator

/-- One iteration of the loop of `new_normalized`. -/
def push_base_chunk (insertion_timestamp : Lamport) (w : BaseWalk) (chunk_len : Nat) : BaseWalk :=
  let fragment_id := Locator.between w.prev_locator Locator.max
  let fragment : Fragment :=
    { id := fragment_id
      timestamp := insertion_timestamp
      insertion_offset := w.insertion_offset
      len := chunk_len
      visible := true
      deletions := []
      max_undos := Global.new }
  { insertions := w.insertions ++ [InsertionFragment.new fragment]
    fragments := w.fragments ++ [fragment]
    prev_locator := fragment_id
    insertion_offset := w.insertion_offset + chunk_len }

def new_normalized (replica_id remote_id : Nat) (normalized : Str) : Buffer :=
  let visible_text := utf8 normalized
  let start : BaseWalk :=
    { fragments := [], insertions := [], insertion_offset := 0, prev_locator := Locator.min }
  let lamport_clock := Lamport.new replica_id
  let version := Global.new
  let (w, lamport_clock, version) :=
    if visible_text = [] then (start, lamport_clock, version)
    else
      let insertion_timestamp := Lamport.new ReplicaId.LOCAL
      ((chunk_lens visible_text 0).foldl (push_base_chunk insertion_timestamp) start,
        lamport_clock.observe insertion_timestamp, version.observe insertion_timestamp)
  { snapshot :=
      { replica_id
        remote_id
        visible_text
        deleted_text := []
        fragments := w.fragments
        insertions := w.insertions
        version
        undo_map := []
        insertion_slices := [] }
    history := History.new visible_text
    deferred_ops := []
    deferred_replicas := ∅
    lamport_clock
    subscriptions := [] }

def new (replica_id remote_id : Nat) (base_text : Str) : Buffer :=
  new_normalized replica_id remote_id (normalize base_text)

def start_transaction_at (buffer : Buffer) (now : Nat) : Buffer × Option Lamport :=
  let (history, lamport_clock, id) :=
    buffer.history.start_transaction buffer.version now buffer.lamport_clock
  ({ buffer with history, lamport_clock }, id)

def end_transaction_at (buffer : Buffer) (now : Nat) : Option (Buffer × Option (Lamport × Global)) :=
  match buffer.history.end_transaction now with
  | none => none
  | some (history, none) => some ({ buffer with history }, none)
  | some (history, some entry) =>
    let (history, id) := history.group
    id.map fun id => ({ buffer with history }, some (id, entry.transaction.start))

def finalize_last_transaction (buffer : Buffer) : Buffer :=
  { buffer with history := buffer.history.finalize_last_transaction }

def group_until_transaction (buffer : Buffer) (transaction_id : Lamport) : Buffer :=
  { buffer with history := buffer.history.group_until transaction_id }

def apply_local_edit (buffer : Buffer) (edits : List (Range × Str)) (timestamp : Lamport) :
    Buffer × EditOperation :=
  let (snapshot, edit_op, edits_patch) := buffer.snapshot.apply_edit_internal edits timestamp
  ({ buffer with snapshot, subscriptions := buffer.subscriptions.publish edits_patch }, edit_op)

def observe (buffer : Buffer) (timestamp : Lamport) : Buffer :=
  { buffer with
    snapshot := { buffer.snapshot with version := buffer.snapshot.version.observe timestamp } }

/-- The transaction of the edit itself starts and ends at the given instants. -/
def edit (buffer : Buffer) (edits : List (Range × Str)) (start_now end_now : Nat) :
    Option (Buffer × Operation) :=
  let (buffer, _) := buffer.start_transaction_at start_now
  let (timestamp, lamport_clock) := buffer.lamport_clock.tick
  let (buffer, edit_op) := { buffer with lamport_clock }.apply_local_edit edits timestamp
  let operation := Operation.Edit edit_op
  match (buffer.history.push operation).push_undo operation.timestamp with
  | none => none
  | some history =>
    let buffer := { buffer with history }.observe operation.timestamp
    (buffer.end_transaction_at end_now).map fun (buffer, _) => (buffer, operation)

def apply_remote_edit (buffer : Buffer) (edit : EditOperation) : Buffer :=
  if edit.ranges = [] then buffer
  else
    let (snapshot, edits_patch) :=
      buffer.snapshot.apply_remote_edit edit.version edit.ranges edit.new_text edit.timestamp
    { buffer with snapshot, subscriptions := buffer.subscriptions.publish edits_patch }

def apply_undo (buffer : Buffer) (undo : UndoOperation) : Buffer :=
  let (snapshot, edits) := buffer.snapshot.apply_undo undo
  { buffer with snapshot, subscriptions := buffer.subscriptions.publish edits }

def observe_remote (buffer : Buffer) (timestamp : Lamport) : Buffer :=
  { buffer.observe timestamp with lamport_clock := buffer.lamport_clock.observe timestamp }

def apply_op (buffer : Buffer) (op : Operation) : Buffer :=
  match op with
  | .Edit edit =>
    if !buffer.version.observed edit.timestamp then
      (buffer.apply_remote_edit edit).observe_remote edit.timestamp
    else buffer
  | .Undo undo =>
    if !buffer.version.observed undo.timestamp then
      (buffer.apply_undo undo).observe_remote undo.timestamp
    else buffer

def can_apply_op (buffer : Buffer) (op : Operation) : Bool :=
  if op.replica_id ∈ buffer.deferred_replicas then false else buffer.version.observed_all op.version

/-- What both loops do with an operation: apply it, or defer it and what follows
    from its replica. -/
def apply_or_defer (state : Buffer × List Operation) (op : Operation) : Buffer × List Operation :=
  let (buffer, deferred_ops) := state
  if buffer.can_apply_op op then (buffer.apply_op op, deferred_ops)
  else
    ({ buffer with deferred_replicas := insert op.replica_id buffer.deferred_replicas },
      deferred_ops ++ [op])

def flush_deferred_ops (buffer : Buffer) : Buffer :=
  let (buffer, deferred_ops) := buffer.deferred_ops.foldl apply_or_defer
    ({ buffer with deferred_replicas := ∅, deferred_ops := [] }, [])
  { buffer with deferred_ops := OperationQueue.insert buffer.deferred_ops deferred_ops }

/-- One iteration of the loop of `apply_ops`. -/
def receive_op (state : Buffer × List Operation) (op : Operation) : Buffer × List Operation :=
  apply_or_defer ({ state.1 with history := state.1.history.push op }, state.2) op

def apply_ops (buffer : Buffer) (ops : List Operation) : Buffer :=
  let (buffer, deferred_ops) := ops.foldl receive_op (buffer, [])
  flush_deferred_ops
    { buffer with deferred_ops := OperationQueue.insert buffer.deferred_ops deferred_ops }

def undo_operations (buffer : Buffer) (counts : Counts) : Buffer × Operation :=
  let (timestamp, lamport_clock) := buffer.lamport_clock.tick
  let undo : UndoOperation := { timestamp, version := buffer.version, counts }
  (({ buffer with lamport_clock }.observe timestamp).apply_undo undo, .Undo undo)

/-- One more undo for each edit. An edit has been undone less often than its
    clock has ticked, so the count of the source does not saturate. -/
def undo_counts (undo_map : UndoMap) (edit_ids : List Lamport) : Counts :=
  edit_ids.foldl
    (fun counts edit_id => counts.insert edit_id (UndoMap.undo_count undo_map edit_id + 1)) Counts.empty

def undo_or_redo (buffer : Buffer) (transaction : Transaction) : Buffer × Operation :=
  let counts := undo_counts buffer.snapshot.undo_map transaction.edit_ids
  let (buffer, operation) := buffer.undo_operations counts
  ({ buffer with history := buffer.history.push operation }, operation)

def undo (buffer : Buffer) : Option (Buffer × Option (Lamport × Operation)) :=
  match buffer.history.pop_undo with
  | none => none
  | some (history, none) => some ({ buffer with history }, none)
  | some (history, some entry) =>
    let (buffer, op) := { buffer with history }.undo_or_redo entry.transaction
    some (buffer, some (entry.transaction.id, op))

def redo (buffer : Buffer) : Option (Buffer × Option (Lamport × Operation)) :=
  match buffer.history.pop_redo with
  | none => none
  | some (history, none) => some ({ buffer with history }, none)
  | some (history, some entry) =>
    let (buffer, op) := { buffer with history }.undo_or_redo entry.transaction
    some (buffer, some (entry.transaction.id, op))

def subscribe (buffer : Buffer) : Buffer :=
  { buffer with subscriptions := buffer.subscriptions.subscribe }

def consume (buffer : Buffer) (subscription : Nat) : Patch × Buffer :=
  let (patch, subscriptions) := buffer.subscriptions.consume subscription
  (patch, { buffer with subscriptions })

end Buffer

end zed.text
