import Zed.Text.UndoMap

namespace zed.text

open zed.clock zed.rope

structure Transaction where
  id : Lamport
  edit_ids : List Lamport
  start : Global
deriving DecidableEq

/-- An instant is a number of ticks of the clock of the machine. -/
structure HistoryEntry where
  transaction : Transaction
  first_edit_at : Nat
  last_edit_at : Nat
  suppress_grouping : Bool
deriving DecidableEq

instance : sum_tree.KeyedItem Operation Lamport := ⟨Operation.timestamp⟩

/-- The stacks have their tops first. -/
structure History where
  base_text : Rope
  operations : List Operation
  undo_stack : List HistoryEntry
  redo_stack : List HistoryEntry
  transaction_depth : Nat
  group_interval : Nat

namespace History

def new (base_text : Rope) : History :=
  { base_text
    operations := []
    undo_stack := []
    redo_stack := []
    transaction_depth := 0
    group_interval := 300 }

def push (history : History) (op : Operation) : History :=
  { history with operations := sum_tree.insert_or_replace history.operations op }

/-- The history, the clock, and the id of the transaction if it is an outermost one. -/
def start_transaction (history : History) (start : Global) (now : Nat) (clock : Lamport) :
    History × Lamport × Option Lamport :=
  let history := { history with transaction_depth := history.transaction_depth + 1 }
  if history.transaction_depth = 1 then
    let (id, clock) := clock.tick
    let entry : HistoryEntry :=
      { transaction := { id, edit_ids := [], start }
        first_edit_at := now
        last_edit_at := now
        suppress_grouping := false }
    ({ history with undo_stack := entry :: history.undo_stack }, clock, some id)
  else (history, clock, none)

/-- Panics outside of a transaction. -/
def end_transaction (history : History) (now : Nat) : Option (History × Option HistoryEntry) :=
  if history.transaction_depth = 0 then none
  else
    let history := { history with transaction_depth := history.transaction_depth - 1 }
    if history.transaction_depth = 0 then
      match history.undo_stack with
      | [] => none
      | entry :: undo_stack =>
        if entry.transaction.edit_ids = [] then some ({ history with undo_stack }, none)
        else
          let entry := { entry with last_edit_at := now }
          some ({ history with redo_stack := [], undo_stack := entry :: undo_stack }, some entry)
    else some (history, none)

/-- The entry after the transactions of others, made later, were merged into it. -/
def merge_trailing (last_entry : HistoryEntry) (entries_to_merge : List HistoryEntry) : HistoryEntry :=
  { last_entry with
    transaction :=
      { last_entry.transaction with
        edit_ids := last_entry.transaction.edit_ids ++
          entries_to_merge.reverse.flatMap fun entry => entry.transaction.edit_ids }
    last_edit_at := (entries_to_merge.head?.map HistoryEntry.last_edit_at).getD last_entry.last_edit_at }

def group_trailing (history : History) (n : Nat) : History × Option Lamport :=
  let entries_to_merge := history.undo_stack.take n
  let undo_stack :=
    match history.undo_stack.drop n with
    | [] => []
    | last_entry :: entries_to_keep => merge_trailing last_entry entries_to_merge :: entries_to_keep
  ({ history with undo_stack }, undo_stack.head?.map fun entry => entry.transaction.id)

/-- How many of the entries before this one follow on each other closely. -/
def group_count (group_interval : Nat) : HistoryEntry → List HistoryEntry → Nat
  | _, [] => 0
  | entry, prev_entry :: entries =>
    if !prev_entry.suppress_grouping &&
        decide (entry.first_edit_at - prev_entry.last_edit_at < group_interval) then
      group_count group_interval prev_entry entries + 1
    else 0

def group (history : History) : History × Option Lamport :=
  match history.undo_stack with
  | [] => history.group_trailing 0
  | entry :: entries => history.group_trailing (group_count history.group_interval entry entries)

/-- How many entries lie above a transaction, if none of them is finalized. -/
def count_until (transaction_id : Lamport) : List HistoryEntry → Option Nat
  | [] => none
  | entry :: entries =>
    if entry.transaction.id = transaction_id then some 0
    else if entry.suppress_grouping then none
    else (count_until transaction_id entries).map (· + 1)

def group_until (history : History) (transaction_id : Lamport) : History :=
  match count_until transaction_id history.undo_stack with
  | none => history
  | some count => (history.group_trailing count).1

def finalize_last_transaction (history : History) : History :=
  match history.undo_stack with
  | [] => history
  | entry :: undo_stack =>
    { history with undo_stack := { entry with suppress_grouping := true } :: undo_stack }

/-- Panics outside of a transaction. -/
def push_undo (history : History) (op_id : Lamport) : Option History :=
  if history.transaction_depth = 0 then none
  else
    match sum_tree.get history.operations op_id with
    | some (.Edit _) =>
      match history.undo_stack with
      | [] => none
      | last :: undo_stack =>
        let transaction := { last.transaction with edit_ids := last.transaction.edit_ids ++ [op_id] }
        some { history with undo_stack := { last with transaction } :: undo_stack }
    | _ => some history

/-- Panics within a transaction. -/
def pop_undo (history : History) : Option (History × Option HistoryEntry) :=
  if history.transaction_depth = 0 then
    match history.undo_stack with
    | [] => some (history, none)
    | entry :: undo_stack =>
      some ({ history with undo_stack, redo_stack := entry :: history.redo_stack }, some entry)
  else none

/-- Panics within a transaction. -/
def pop_redo (history : History) : Option (History × Option HistoryEntry) :=
  if history.transaction_depth = 0 then
    match history.redo_stack with
    | [] => some (history, none)
    | entry :: redo_stack =>
      some ({ history with redo_stack, undo_stack := entry :: history.undo_stack }, some entry)
  else none

end History

/-- A queue of operations, as a tree keyed by their timestamps. -/
abbrev OperationQueue := List Operation

namespace OperationQueue

/-- `dedup_by_key`: of several neighbours with one timestamp the first stays. -/
def dedup_from (last : Operation) : List Operation → List Operation
  | [] => []
  | op :: ops =>
    if op.timestamp = last.timestamp then dedup_from last ops else op :: dedup_from op ops

def dedup : List Operation → List Operation
  | [] => []
  | op :: ops => op :: dedup_from op ops

def insert (queue : OperationQueue) (ops : List Operation) : OperationQueue :=
  let ops := ops.insertionSort fun x y => x.timestamp ≤ y.timestamp
  sum_tree.edit queue ((dedup ops).map .Insert)

end OperationQueue

end zed.text
