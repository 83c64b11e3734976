import Zed.Text.History.Stacks

namespace zed.text

open zed.clock zed.rope

/-- Takes the entry of a transaction out of a stack, the last one made of several. -/
def take_entry (transaction_id : Lamport) : List HistoryEntry → Option (HistoryEntry × List HistoryEntry)
  | [] => none
  | entry :: stack =>
    if entry.transaction.id = transaction_id then some (entry, stack)
    else (take_entry transaction_id stack).map fun (found, rest) => (found, entry :: rest)

/-- Takes the entry of a transaction out of a stack with those above it, in reverse. -/
def drain_entries (transaction_id : Lamport) : List HistoryEntry → Option (List HistoryEntry × List HistoryEntry)
  | [] => none
  | entry :: stack =>
    if entry.transaction.id = transaction_id then some ([entry], stack)
    else (drain_entries transaction_id stack).map fun (drained, rest) => (drained ++ [entry], rest)

/-- A stack with more edits in the entry of a transaction, if it has one. -/
def extend_entry (transaction_id : Lamport) (edit_ids : List Lamport) : List HistoryEntry → Option (List HistoryEntry)
  | [] => none
  | entry :: stack =>
    if entry.transaction.id = transaction_id then
      let transaction := { entry.transaction with edit_ids := entry.transaction.edit_ids ++ edit_ids }
      some ({ entry with transaction } :: stack)
    else (extend_entry transaction_id edit_ids stack).map (entry :: ·)

namespace History

def push_transaction (history : History) (transaction : Transaction) (now : Nat) : Option History :=
  if history.transaction_depth = 0 then
    let entry : HistoryEntry := { transaction, first_edit_at := now, last_edit_at := now, suppress_grouping := false }
    some { history with undo_stack := entry :: history.undo_stack }
  else none

def push_empty_transaction (history : History) (start : Global) (now : Nat) (clock : Lamport) :
    Option (History × Lamport × Lamport) :=
  if history.transaction_depth = 0 then
    let (id, clock) := clock.tick
    let entry : HistoryEntry :=
      { transaction := { id, start, edit_ids := [] }
        first_edit_at := now
        last_edit_at := now
        suppress_grouping := false }
    some ({ history with undo_stack := entry :: history.undo_stack }, clock, id)
  else none

def remove_from_undo (history : History) (transaction_id : Lamport) : Option (History × Option HistoryEntry) :=
  if history.transaction_depth = 0 then
    match take_entry transaction_id history.undo_stack with
    | none => some (history, none)
    | some (entry, undo_stack) =>
      some ({ history with undo_stack, redo_stack := entry :: history.redo_stack }, some entry)
  else none

def remove_from_undo_until (history : History) (transaction_id : Lamport) : Option (History × List HistoryEntry) :=
  if history.transaction_depth = 0 then
    match drain_entries transaction_id history.undo_stack with
    | none => some (history, [])
    | some (drained, undo_stack) =>
      some ({ history with undo_stack, redo_stack := drained ++ history.redo_stack }, drained)
  else none

def remove_from_redo (history : History) (transaction_id : Lamport) : Option (History × List HistoryEntry) :=
  if history.transaction_depth = 0 then
    match drain_entries transaction_id history.redo_stack with
    | none => some (history, [])
    | some (drained, redo_stack) =>
      some ({ history with redo_stack, undo_stack := drained ++ history.undo_stack }, drained)
  else none

def forget (history : History) (transaction_id : Lamport) : Option (History × Option Transaction) :=
  if history.transaction_depth = 0 then
    match take_entry transaction_id history.undo_stack with
    | some (entry, undo_stack) => some ({ history with undo_stack }, some entry.transaction)
    | none =>
      match take_entry transaction_id history.redo_stack with
      | some (entry, redo_stack) => some ({ history with redo_stack }, some entry.transaction)
      | none => some (history, none)
  else none

/-- What `transaction_mut` finds is extended by some edits. -/
def extend_transaction (history : History) (transaction_id : Lamport) (edit_ids : List Lamport) : Option History :=
  match extend_entry transaction_id edit_ids history.undo_stack with
  | some undo_stack => some { history with undo_stack }
  | none => (extend_entry transaction_id edit_ids history.redo_stack).map fun redo_stack => { history with redo_stack }

def merge_transactions (history : History) (transaction destination : Lamport) : Option History :=
  match history.forget transaction with
  | none => none
  | some (history, none) => some history
  | some (history, some transaction) =>
    some ((history.extend_transaction destination transaction.edit_ids).getD history)

/-- The calls that change a history. -/
inductive Call
  | push (op : Operation)
  | start_transaction (start : Global) (now : Nat) (clock : Lamport)
  | end_transaction (now : Nat)
  | group
  | group_until (transaction_id : Lamport)
  | finalize_last_transaction
  | push_transaction (transaction : Transaction) (now : Nat)
  | push_empty_transaction (start : Global) (now : Nat) (clock : Lamport)
  | push_undo (op_id : Lamport)
  | pop_undo
  | remove_from_undo (transaction_id : Lamport)
  | remove_from_undo_until (transaction_id : Lamport)
  | forget (transaction_id : Lamport)
  | merge_transactions (transaction destination : Lamport)
  | pop_redo
  | remove_from_redo (transaction_id : Lamport)

def call (history : History) : Call → Option History
  | .push op => some (history.push op)
  | .start_transaction start now clock => some (history.start_transaction start now clock).1
  | .end_transaction now => (history.end_transaction now).map Prod.fst
  | .group => some history.group.1
  | .group_until transaction_id => some (history.group_until transaction_id)
  | .finalize_last_transaction => some history.finalize_last_transaction
  | .push_transaction transaction now => history.push_transaction transaction now
  | .push_empty_transaction start now clock => (history.push_empty_transaction start now clock).map Prod.fst
  | .push_undo op_id => history.push_undo op_id
  | .pop_undo => history.pop_undo.map Prod.fst
  | .remove_from_undo transaction_id => (history.remove_from_undo transaction_id).map Prod.fst
  | .remove_from_undo_until transaction_id => (history.remove_from_undo_until transaction_id).map Prod.fst
  | .forget transaction_id => (history.forget transaction_id).map Prod.fst
  | .merge_transactions transaction destination => history.merge_transactions transaction destination
  | .pop_redo => history.pop_redo.map Prod.fst
  | .remove_from_redo transaction_id => (history.remove_from_redo transaction_id).map Prod.fst

/-- The edits that the transactions of both stacks hold. -/
def held (history : History) : Multiset Lamport := ↑(editIds history.undo_stack) + ↑(editIds history.redo_stack)

def added (history : History) : Call → Multiset Lamport
  | .push_transaction transaction _ => ↑transaction.edit_ids
  | .push_undo op_id =>
    match sum_tree.get history.operations op_id with
    | some (.Edit _) => {op_id}
    | _ => 0
  | _ => 0

def dropped (history : History) : Call → Multiset Lamport
  | .forget transaction_id =>
    match history.forget transaction_id with
    | some (_, some transaction) => ↑transaction.edit_ids
    | _ => 0
  | .end_transaction _ =>
    if history.transaction_depth = 1 ∧ (history.undo_stack.head?.any fun entry => entry.transaction.edit_ids ≠ []) then
      ↑(editIds history.redo_stack)
    else 0
  | _ => 0

/-- A call conserves the edits, but for those it adds and those it may drop. -/
def Conserves (history : History) (call : Call) (after : History) : Prop :=
  after.held + history.dropped call = history.held + history.added call

def Merges (history : History) : Call → Prop
  | .merge_transactions transaction destination =>
    ∀ history' merged, history.forget transaction = some (history', some merged) → merged.edit_ids ≠ [] →
      ∃ entry ∈ history'.undo_stack ++ history'.redo_stack, entry.transaction.id = destination
  | _ => True

variable {history after : History}

theorem take_entry_held {transaction_id : Lamport} {stack rest : List HistoryEntry} {entry : HistoryEntry}
    (h : take_entry transaction_id stack = some (entry, rest)) :
    (↑(editIds stack) : Multiset Lamport) = ↑entry.transaction.edit_ids + ↑(editIds rest) := by
  induction stack generalizing rest with
  | nil => cases h
  | cons first stack ih =>
    rw [take_entry] at h
    split at h
    · cases h
      rfl
    · obtain ⟨⟨found, rest'⟩, hfound, heq⟩ := Option.map_eq_some_iff.mp h
      cases heq
      rw [editIds_cons, editIds_cons, ← Multiset.coe_add, ← Multiset.coe_add, ih hfound, add_left_comm]

theorem drain_entries_held {transaction_id : Lamport} {stack drained rest : List HistoryEntry}
    (h : drain_entries transaction_id stack = some (drained, rest)) :
    (↑(editIds stack) : Multiset Lamport) = ↑(editIds drained) + ↑(editIds rest) := by
  induction stack generalizing drained rest with
  | nil => cases h
  | cons first stack ih =>
    rw [drain_entries] at h
    split at h
    · cases h
      simp [editIds]
    · obtain ⟨⟨drained', rest'⟩, hfound, heq⟩ := Option.map_eq_some_iff.mp h
      cases heq
      have hone : editIds [first] = first.transaction.edit_ids := by simp [editIds]
      rw [editIds_cons, editIds_append, hone, ← Multiset.coe_add, ← Multiset.coe_add, ih hfound, add_assoc,
        add_left_comm]

theorem extend_entry_held {transaction_id : Lamport} {edit_ids : List Lamport} {stack stack' : List HistoryEntry}
    (h : extend_entry transaction_id edit_ids stack = some stack') :
    (↑(editIds stack') : Multiset Lamport) = ↑(editIds stack) + ↑edit_ids := by
  induction stack generalizing stack' with
  | nil => cases h
  | cons first stack ih =>
    rw [extend_entry] at h
    split at h
    · cases h
      rw [editIds_cons, editIds_cons, ← Multiset.coe_add, ← Multiset.coe_add, ← Multiset.coe_add, add_right_comm]
    · obtain ⟨rest, hrest, rfl⟩ := Option.map_eq_some_iff.mp h
      rw [editIds_cons, editIds_cons, ← Multiset.coe_add, ← Multiset.coe_add, ih hrest, add_assoc]

theorem extend_entry_eq_none {transaction_id : Lamport} {edit_ids : List Lamport} {stack : List HistoryEntry} :
    extend_entry transaction_id edit_ids stack = none ↔ ∀ entry ∈ stack, entry.transaction.id ≠ transaction_id := by
  induction stack with
  | nil => simp [extend_entry]
  | cons first stack ih =>
    rw [extend_entry, List.forall_mem_cons, ← ih]
    by_cases hid : first.transaction.id = transaction_id
    · simp [hid]
    · simp [hid]

theorem extend_transaction_cases (history : History) (transaction_id : Lamport) (edit_ids : List Lamport) :
    (∃ after, history.extend_transaction transaction_id edit_ids = some after ∧ after.held = history.held + ↑edit_ids ∧
        ∃ entry ∈ history.undo_stack ++ history.redo_stack, entry.transaction.id = transaction_id) ∨
      (history.extend_transaction transaction_id edit_ids = none ∧
        ∀ entry ∈ history.undo_stack ++ history.redo_stack, entry.transaction.id ≠ transaction_id) := by
  have hmem {stack stack' : List HistoryEntry} (h : extend_entry transaction_id edit_ids stack = some stack') :
      ∃ entry ∈ stack, entry.transaction.id = transaction_id := by
    by_contra hnone
    rw [extend_entry_eq_none.mpr fun entry hentry hid => hnone ⟨entry, hentry, hid⟩] at h
    cases h
  unfold extend_transaction
  cases hundo : extend_entry transaction_id edit_ids history.undo_stack with
  | some undo_stack =>
    obtain ⟨entry, hentry, hid⟩ := hmem hundo
    refine .inl ⟨_, rfl, ?_, entry, List.mem_append_left _ hentry, hid⟩
    rw [held, held, extend_entry_held hundo, add_right_comm]
  | none =>
    cases hredo : extend_entry transaction_id edit_ids history.redo_stack with
    | some redo_stack =>
      obtain ⟨entry, hentry, hid⟩ := hmem hredo
      refine .inl ⟨_, rfl, ?_, entry, List.mem_append_right _ hentry, hid⟩
      rw [held, held, extend_entry_held hredo, add_assoc]
    | none =>
      refine .inr ⟨rfl, fun entry hentry => ?_⟩
      rcases List.mem_append.mp hentry with hentry | hentry
      · exact extend_entry_eq_none.mp hundo entry hentry
      · exact extend_entry_eq_none.mp hredo entry hentry

theorem forget_held {transaction_id : Lamport} {forgotten : Option Transaction}
    (h : history.forget transaction_id = some (after, forgotten)) :
    history.held = after.held + ↑((forgotten.map Transaction.edit_ids).getD []) := by
  unfold forget at h
  split at h
  · split at h
    · rename_i entry undo_stack htake
      cases h
      rw [held, held, take_entry_held htake, add_assoc, add_comm]
      rfl
    · split at h
      · rename_i entry redo_stack htake
        cases h
        rw [held, held, take_entry_held htake, add_left_comm, add_comm]
        rfl
      · cases h
        simp
  · cases h

theorem held_of_coarsens {undo_stack : List HistoryEntry} (h : Coarsens history.undo_stack undo_stack) :
    ({ history with undo_stack } : History).held = history.held := by
  have hids : (↑(editIds undo_stack) : Multiset Lamport) = ↑(editIds history.undo_stack) := Multiset.coe_eq_coe.mpr h.ids
  rw [held, held, hids]

theorem group_held (history : History) : history.group.1.held = history.held := by
  by_cases hstack : history.undo_stack = []
  · have hgroup : history.group.1 = history := by
      obtain ⟨base_text, operations, undo_stack, redo_stack, depth, interval⟩ := history
      obtain rfl : undo_stack = [] := hstack
      rfl
    rw [hgroup]
  · obtain ⟨undo_stack, id, hgroup, hcoarsens⟩ := group_spec hstack
    rw [hgroup]
    exact held_of_coarsens hcoarsens

theorem end_transaction_held {now : Nat} {entry : Option HistoryEntry}
    (h : history.end_transaction now = some (after, entry)) :
    after.held + history.dropped (.end_transaction now) = history.held := by
  unfold end_transaction at h
  split at h
  · cases h
  · rename_i hdepth
    dsimp only at h
    split at h
    · rename_i hlast
      have hone : history.transaction_depth = 1 := by omega
      split at h
      · cases h
      · rename_i entry' undo_stack hstack
        split at h
        · rename_i hempty
          cases h
          have hnone : history.dropped (.end_transaction now) = 0 := by simp [dropped, hstack, hempty]
          rw [hnone, held, held, hstack, editIds_cons, hempty, add_zero]
          rfl
        · rename_i hedits
          cases h
          have hall : history.dropped (.end_transaction now) = ↑(editIds history.redo_stack) := by
            simp [dropped, hone, hstack, hedits]
          rw [hall, held, held, hstack]
          simp [editIds]
    · rename_i hlast
      cases h
      have hnone : history.dropped (.end_transaction now) = 0 := by
        have hne : history.transaction_depth ≠ 1 := by omega
        simp [dropped, hne]
      rw [hnone, add_zero]
      rfl

theorem drain_held {transaction_id : Lamport} {stack drained rest : List HistoryEntry}
    (h : drain_entries transaction_id stack = some (drained, rest)) (other : List HistoryEntry) :
    (↑(editIds rest) + ↑(editIds (drained ++ other)) : Multiset Lamport) = ↑(editIds stack) + ↑(editIds other) := by
  rw [drain_entries_held h, editIds_append, ← Multiset.coe_add, ← add_assoc,
    add_comm (↑(editIds rest) : Multiset Lamport) ↑(editIds drained)]

theorem push_undo_held {op_id : Lamport} (h : history.push_undo op_id = some after) :
    after.held = history.held + history.added (.push_undo op_id) := by
  unfold push_undo at h
  split at h
  · cases h
  · cases hget : sum_tree.get history.operations op_id with
    | none =>
      have hadded : history.added (.push_undo op_id) = 0 := by simp only [added, hget]
      rw [hget] at h
      cases h
      rw [hadded, add_zero]
    | some operation =>
      rw [hget] at h
      cases operation with
      | Undo undo =>
        have hadded : history.added (.push_undo op_id) = 0 := by simp only [added, hget]
        cases h
        rw [hadded, add_zero]
      | Edit edit =>
        have hadded : history.added (.push_undo op_id) = {op_id} := by simp only [added, hget]
        dsimp only at h
        cases hstack : history.undo_stack with
        | nil =>
          rw [hstack] at h
          cases h
        | cons last undo_stack =>
          rw [hstack] at h
          cases h
          rw [hadded, held, held, hstack, editIds_cons, editIds_cons, ← Multiset.coe_add, ← Multiset.coe_add,
            ← Multiset.coe_add, ← Multiset.coe_singleton]
          simp only [add_assoc, add_comm, add_left_comm]

theorem merge_transactions_conserves_iff {transaction destination : Lamport}
    (h : history.merge_transactions transaction destination = some after) :
    after.held = history.held ↔ history.Merges (.merge_transactions transaction destination) := by
  unfold merge_transactions at h
  unfold Merges
  dsimp only
  split at h
  · cases h
  · rename_i history' hforget
    cases h
    have hheld := forget_held hforget
    refine iff_of_true (by simpa using hheld.symm) fun history'' merged hmerged => ?_
    rw [hforget] at hmerged
    cases hmerged
  · rename_i history' merged hforget
    cases h
    have hheld : history.held = history'.held + ↑merged.edit_ids := forget_held hforget
    rcases extend_transaction_cases history' destination merged.edit_ids with
      ⟨extended, hextend, hextended, entry, hentry, hid⟩ | ⟨hextend, hnone⟩
    · rw [hextend, Option.getD_some, hextended, hheld]
      refine iff_of_true rfl fun history'' merged' hmerged _ => ?_
      rw [hforget] at hmerged
      cases hmerged
      exact ⟨entry, hentry, hid⟩
    · rw [hextend, Option.getD_none, hheld]
      constructor
      · intro heq history'' merged' hmerged hedits
        rw [hforget] at hmerged
        cases hmerged
        exact absurd ((Multiset.coe_eq_zero _).mp (left_eq_add.mp heq)) hedits
      · intro hmerges
        by_contra hne
        have hedits : merged.edit_ids ≠ [] := fun hnil => hne (by rw [hnil]; simp)
        obtain ⟨entry, hentry, hid⟩ := hmerges history' merged hforget hedits
        exact hnone entry hentry hid

theorem call_conserves_iff {call : Call} (h : history.call call = some after) :
    history.Conserves call after ↔ history.Merges call := by
  unfold Conserves
  cases call with
  | push op =>
    cases h
    exact iff_of_true rfl trivial
  | start_transaction start now clock =>
    cases h
    refine iff_of_true ?_ trivial
    unfold start_transaction
    dsimp only
    split
    · rfl
    · rfl
  | end_transaction now =>
    obtain ⟨⟨after', entry⟩, hend, rfl⟩ := Option.map_eq_some_iff.mp h
    exact iff_of_true ((end_transaction_held hend).trans (add_zero _).symm) trivial
  | group =>
    cases h
    exact iff_of_true (congrArg (· + 0) history.group_held) trivial
  | group_until transaction_id =>
    cases h
    obtain ⟨undo_stack, heq, hcoarsens⟩ := group_until_spec history transaction_id
    rw [heq]
    exact iff_of_true (congrArg (· + 0) (held_of_coarsens hcoarsens)) trivial
  | finalize_last_transaction =>
    cases h
    obtain ⟨undo_stack, heq, hcoarsens⟩ := finalize_last_transaction_spec history
    rw [heq]
    exact iff_of_true (congrArg (· + 0) (held_of_coarsens hcoarsens)) trivial
  | push_transaction transaction now =>
    refine iff_of_true ?_ trivial
    unfold History.call push_transaction at h
    dsimp only at h
    split at h
    · cases h
      refine (add_zero _).trans ?_
      rw [held, held, editIds_cons, ← Multiset.coe_add, add_assoc, add_comm]
      rfl
    · cases h
  | push_empty_transaction start now clock =>
    refine iff_of_true ?_ trivial
    obtain ⟨⟨after', clock', id⟩, hpush, rfl⟩ := Option.map_eq_some_iff.mp h
    unfold push_empty_transaction at hpush
    split at hpush
    · cases hpush
      rfl
    · cases hpush
  | push_undo op_id => exact iff_of_true ((add_zero _).trans (push_undo_held h)) trivial
  | pop_undo =>
    refine iff_of_true ?_ trivial
    obtain ⟨⟨after', entry⟩, hpop, rfl⟩ := Option.map_eq_some_iff.mp h
    unfold pop_undo at hpop
    split at hpop
    · split at hpop
      · cases hpop
        rfl
      · rename_i entry' undo_stack hstack
        cases hpop
        refine congrArg (· + 0) ?_
        rw [held, held, hstack, editIds_cons, editIds_cons, ← Multiset.coe_add, ← Multiset.coe_add, add_left_comm, add_assoc]
    · cases hpop
  | remove_from_undo transaction_id =>
    refine iff_of_true ?_ trivial
    obtain ⟨⟨after', entry⟩, hremove, rfl⟩ := Option.map_eq_some_iff.mp h
    unfold remove_from_undo at hremove
    split at hremove
    · split at hremove
      · cases hremove
        rfl
      · rename_i entry' undo_stack htake
        cases hremove
        refine congrArg (· + 0) ?_
        rw [held, held, take_entry_held htake, editIds_cons, ← Multiset.coe_add, add_left_comm, add_assoc]
    · cases hremove
  | remove_from_undo_until transaction_id =>
    refine iff_of_true ?_ trivial
    obtain ⟨⟨after', drained⟩, hremove, rfl⟩ := Option.map_eq_some_iff.mp h
    unfold remove_from_undo_until at hremove
    split at hremove
    · split at hremove
      · cases hremove
        rfl
      · rename_i drained' undo_stack hdrain
        cases hremove
        exact congrArg (· + 0) (drain_held hdrain history.redo_stack)
    · cases hremove
  | forget transaction_id =>
    refine iff_of_true ?_ trivial
    obtain ⟨⟨after', forgotten⟩, hforget, rfl⟩ := Option.map_eq_some_iff.mp h
    rw [forget_held hforget, dropped]
    dsimp only
    rw [hforget]
    cases forgotten with
    | none => simp [added]
    | some transaction => exact (add_zero _).symm
  | merge_transactions transaction destination =>
    rw [← merge_transactions_conserves_iff h]
    exact Iff.of_eq (congrArg₂ _ (add_zero _) (add_zero _))
  | pop_redo =>
    refine iff_of_true ?_ trivial
    obtain ⟨⟨after', entry⟩, hpop, rfl⟩ := Option.map_eq_some_iff.mp h
    unfold pop_redo at hpop
    split at hpop
    · split at hpop
      · cases hpop
        rfl
      · rename_i entry' redo_stack hstack
        cases hpop
        refine congrArg (· + 0) ?_
        rw [held, held, hstack, editIds_cons, editIds_cons, ← Multiset.coe_add, ← Multiset.coe_add, add_assoc, add_left_comm]
    · cases hpop
  | remove_from_redo transaction_id =>
    refine iff_of_true ?_ trivial
    obtain ⟨⟨after', drained⟩, hremove, rfl⟩ := Option.map_eq_some_iff.mp h
    unfold remove_from_redo at hremove
    split at hremove
    · split at hremove
      · cases hremove
        rfl
      · rename_i drained' redo_stack hdrain
        cases hremove
        refine congrArg (· + 0) ?_
        have hmoved := drain_held hdrain history.undo_stack
        rw [held, held, add_comm, hmoved, add_comm]
    · cases hremove

/-- A run of calls that merge transactions into others that are there, with the edits that they
    may have dropped and those that they added. -/
inductive Run (first : History) : Multiset Lamport → Multiset Lamport → History → Prop
  | refl : Run first 0 0 first
  | call {dropped added : Multiset Lamport} {history after : History} {call : Call} :
    Run first dropped added history → history.call call = some after → history.Merges call →
      Run first (dropped + history.dropped call) (added + history.added call) after

theorem Run.held {first history : History} {dropped added : Multiset Lamport} (h : Run first dropped added history) :
    history.held + dropped = first.held + added := by
  induction h with
  | refl => rfl
  | @call dropped added history after call _ hcall hmerges ih =>
    have hconserves : after.held + history.dropped call = history.held + history.added call :=
      (call_conserves_iff hcall).mpr hmerges
    rw [add_left_comm, add_comm, hconserves, add_right_comm, ih, add_assoc]

/-- No call but those to forget and to end a transaction drops edits, unless it merges a transaction
    with edits into one that is on no stack; so neither does a run. -/
theorem history_conserves_iff (base_text : Rope) :
    (∀ (history after : History) (call : Call),
        history.call call = some after → (history.Conserves call after ↔ history.Merges call)) ∧
      ∀ dropped added history, Run (new base_text) dropped added history → history.held + dropped = added := by
  refine ⟨fun _ _ _ => call_conserves_iff, fun dropped added history h => ?_⟩
  have hnone : (new base_text).held = 0 := rfl
  rw [h.held, hnone, zero_add]

def oneEdit : Option History := do
  let history ← (new []).call (.start_transaction Global.new 0 ⟨1, 0⟩)
  let history ← history.call (.push (.Edit ⟨⟨2, 0⟩, Global.new, [⟨0, 0⟩], [['a']]⟩))
  let history ← history.call (.push_undo ⟨2, 0⟩)
  history.call (.end_transaction 1)

/-- A transaction merged into itself is lost, with its edits. -/
theorem merge_into_itself_loses :
    oneEdit.map History.held = some {⟨2, 0⟩} ∧
      (oneEdit.bind fun history => history.call (.merge_transactions ⟨1, 0⟩ ⟨1, 0⟩)).map History.held = some 0 ∧
      ∃ history after : History, oneEdit = some history ∧
        history.call (.merge_transactions ⟨1, 0⟩ ⟨1, 0⟩) = some after ∧
        ¬ history.Conserves (.merge_transactions ⟨1, 0⟩ ⟨1, 0⟩) after := by
  refine ⟨rfl, rfl, _, _, rfl, rfl, fun hconserves => ?_⟩
  have hcard : (0 : Nat) = 1 := congrArg Multiset.card hconserves
  cases hcard

end History

end zed.text
