import Zed.Text.History

namespace zed.text

open zed.clock
open zed.sum_tree (Sorted)

/-- The edits of the entries of a stack, those of its top first. -/
def editIds (stack : List HistoryEntry) : List Lamport :=
  stack.flatMap fun entry => entry.transaction.edit_ids

theorem editIds_append (left right : List HistoryEntry) :
    editIds (left ++ right) = editIds left ++ editIds right := List.flatMap_append

theorem editIds_cons (entry : HistoryEntry) (stack : List HistoryEntry) :
    editIds (entry :: stack) = entry.transaction.edit_ids ++ editIds stack := rfl

/-- A stack after some of its entries were merged into older ones: every entry
    that is left has, with those above it, the edits that it had before. -/
structure Coarsens (before after : List HistoryEntry) : Prop where
  ids : (editIds after).Perm (editIds before)
  entries : ∀ above entry below, after = above ++ entry :: below → ∃ above' entry' below',
    before = above' ++ entry' :: below' ∧ entry.transaction.id = entry'.transaction.id ∧
      (editIds (above ++ [entry])).Perm (editIds (above' ++ [entry']))
  nonempty : before ≠ [] → after ≠ []

namespace Coarsens

theorem refl (stack : List HistoryEntry) : Coarsens stack stack :=
  ⟨List.Perm.refl _, fun above entry below h => ⟨above, entry, below, h, rfl, List.Perm.refl _⟩, id⟩

theorem trans {first second third : List HistoryEntry} (h : Coarsens first second)
    (h' : Coarsens second third) : Coarsens first third := by
  refine ⟨h'.ids.trans h.ids, fun above entry below hsplit => ?_, fun hne => h'.nonempty (h.nonempty hne)⟩
  obtain ⟨above', entry', below', hsplit', hid', hperm'⟩ := h'.entries above entry below hsplit
  obtain ⟨above'', entry'', below'', hsplit'', hid'', hperm''⟩ := h.entries above' entry' below' hsplit'
  exact ⟨above'', entry'', below'', hsplit'', hid'.trans hid'', hperm'.trans hperm''⟩

theorem merge (above : List HistoryEntry) {below : List HistoryEntry} {entry merged : HistoryEntry}
    (hid : merged.transaction.id = entry.transaction.id)
    (hperm : merged.transaction.edit_ids.Perm (editIds (above ++ [entry]))) :
    Coarsens (above ++ entry :: below) (merged :: below) := by
  have hbefore : editIds (above ++ entry :: below) = editIds (above ++ [entry]) ++ editIds below := by
    rw [← editIds_append]
    simp
  refine ⟨?_, fun above' entry' below' hsplit => ?_, fun _ => List.cons_ne_nil _ _⟩
  · rw [editIds_cons, hbefore]
    exact hperm.append_right _
  · cases above' with
    | nil =>
      simp only [List.nil_append, List.cons.injEq] at hsplit
      obtain ⟨rfl, rfl⟩ := hsplit
      refine ⟨above, entry, below, rfl, hid, ?_⟩
      simpa [editIds] using hperm
    | cons first above' =>
      simp only [List.cons_append, List.cons.injEq] at hsplit
      obtain ⟨rfl, rfl⟩ := hsplit
      refine ⟨above ++ entry :: above', entry', below', by simp, rfl, ?_⟩
      have happend : editIds ((above ++ entry :: above') ++ [entry']) =
          editIds (above ++ [entry]) ++ editIds (above' ++ [entry']) := by
        rw [← editIds_append]
        simp
      rw [happend, List.cons_append, editIds_cons]
      exact hperm.append_right _

end Coarsens

namespace History

theorem group_trailing_coarsens {history : History} {n : Nat} (h : n < history.undo_stack.length) :
    Coarsens history.undo_stack (history.group_trailing n).1.undo_stack := by
  unfold group_trailing
  dsimp only
  cases hdrop : history.undo_stack.drop n with
  | nil =>
    have := List.length_drop (l := history.undo_stack) (i := n)
    rw [hdrop, List.length_nil] at this
    omega
  | cons last_entry entries_to_keep =>
    have hsplit : history.undo_stack = history.undo_stack.take n ++ last_entry :: entries_to_keep := by
      rw [← hdrop, List.take_append_drop]
    conv_lhs => rw [hsplit]
    refine Coarsens.merge _ rfl ?_
    rw [merge_trailing, editIds_append]
    refine (List.perm_append_comm).trans ?_
    have htop : ((history.undo_stack.take n).reverse.flatMap fun entry => entry.transaction.edit_ids).Perm
        (editIds (history.undo_stack.take n)) :=
      (List.reverse_perm _).flatMap_right _
    simpa [editIds] using htop.append_right _

theorem group_count_le (group_interval : Nat) (entry : HistoryEntry) (entries : List HistoryEntry) :
    group_count group_interval entry entries ≤ entries.length := by
  induction entries generalizing entry with
  | nil => exact le_rfl
  | cons prev_entry entries ih =>
    rw [group_count]
    have := ih prev_entry
    split
    · rw [List.length_cons]
      omega
    · omega

/-- Grouping after a transaction finds an entry, and merges what follows it closely. -/
theorem group_spec {history : History} (h : history.undo_stack ≠ []) :
    ∃ undo_stack id, history.group = ({ history with undo_stack }, some id) ∧
      Coarsens history.undo_stack undo_stack := by
  cases hstack : history.undo_stack with
  | nil => exact absurd hstack h
  | cons entry entries =>
    have hlt : group_count history.group_interval entry entries < history.undo_stack.length := by
      have := group_count_le history.group_interval entry entries
      rw [hstack, List.length_cons]
      omega
    have hcoarsens := group_trailing_coarsens hlt
    have hgroup : history.group =
        history.group_trailing (group_count history.group_interval entry entries) := by
      simp only [group, hstack]
    rw [hgroup]
    have hne := hcoarsens.nonempty h
    rw [hstack] at hcoarsens
    cases hafter : (history.group_trailing (group_count history.group_interval entry entries)).1.undo_stack with
    | nil => exact absurd hafter hne
    | cons first rest =>
      rw [hafter] at hcoarsens
      refine ⟨first :: rest, first.transaction.id, ?_, hcoarsens⟩
      have hresult : ∀ n, history.group_trailing n =
          ({ history with undo_stack := (history.group_trailing n).1.undo_stack },
            (history.group_trailing n).1.undo_stack.head?.map fun entry => entry.transaction.id) := fun _ => rfl
      rw [hresult, hafter]
      rfl

theorem count_until_lt {transaction_id : Lamport} {stack : List HistoryEntry} {count : Nat}
    (h : count_until transaction_id stack = some count) : count < stack.length := by
  induction stack generalizing count with
  | nil => cases h
  | cons entry stack ih =>
    rw [count_until] at h
    split at h
    · cases h
      exact Nat.succ_pos _
    · split at h
      · cases h
      · obtain ⟨rest, hrest, rfl⟩ := Option.map_eq_some_iff.mp h
        have := ih hrest
        rw [List.length_cons]
        omega

theorem group_until_spec (history : History) (transaction_id : Lamport) :
    ∃ undo_stack, history.group_until transaction_id = { history with undo_stack } ∧
      Coarsens history.undo_stack undo_stack := by
  unfold group_until
  cases hcount : count_until transaction_id history.undo_stack with
  | none => exact ⟨history.undo_stack, rfl, Coarsens.refl _⟩
  | some count => exact ⟨_, rfl, group_trailing_coarsens (count_until_lt hcount)⟩

theorem finalize_last_transaction_spec (history : History) :
    ∃ undo_stack, history.finalize_last_transaction = { history with undo_stack } ∧
      Coarsens history.undo_stack undo_stack := by
  unfold finalize_last_transaction
  cases hstack : history.undo_stack with
  | nil =>
    refine ⟨[], ?_, Coarsens.refl _⟩
    obtain ⟨_, _, undo_stack, _, _, _⟩ := history
    obtain rfl : undo_stack = [] := hstack
    rfl
  | cons entry undo_stack =>
    refine ⟨_, rfl, ?_⟩
    refine Coarsens.merge [] rfl ?_
    simp [editIds]

/-- What the end of a transaction leaves, and the grouping that follows it. -/
def close (history : History) (now : Nat) : Option History :=
  match history.end_transaction now with
  | none => none
  | some (history, none) => some history
  | some (history, some _) =>
    let (history, id) := history.group
    id.map fun _ => history

/-- The end of a transaction within another one, of one without edits, and of one
    with edits, after which nothing can be redone. -/
inductive Closes (history : History) : History → Prop
  | inner (depth : Nat) (hdepth : history.transaction_depth = depth + 2) :
    Closes history { history with transaction_depth := depth + 1 }
  | empty (entry : HistoryEntry) (undo_stack : List HistoryEntry) (hdepth : history.transaction_depth = 1)
    (hstack : history.undo_stack = entry :: undo_stack) (hempty : entry.transaction.edit_ids = []) :
    Closes history { history with transaction_depth := 0, undo_stack }
  | edits (entry : HistoryEntry) (rest undo_stack : List HistoryEntry) (hdepth : history.transaction_depth = 1)
    (hstack : history.undo_stack = entry :: rest) (hedits : entry.transaction.edit_ids ≠ [])
    (hcoarsens : Coarsens history.undo_stack undo_stack) :
    Closes history { history with transaction_depth := 0, undo_stack, redo_stack := [] }

theorem Closes.undo_subset {history after : History} (h : history.Closes after) :
    ∀ edit_id ∈ editIds after.undo_stack, edit_id ∈ editIds history.undo_stack := by
  intro edit_id hedit
  cases h with
  | inner depth hdepth => exact hedit
  | empty entry undo_stack hdepth hstack hempty =>
    rw [hstack, editIds_cons]
    exact List.mem_append_right _ hedit
  | edits entry rest undo_stack hdepth hstack hedits hcoarsens => exact hcoarsens.ids.subset hedit

theorem Closes.redo_subset {history after : History} (h : history.Closes after) :
    ∀ edit_id ∈ editIds after.redo_stack, edit_id ∈ editIds history.redo_stack := by
  intro edit_id hedit
  cases h with
  | inner depth hdepth => exact hedit
  | empty entry undo_stack hdepth hstack hempty => exact hedit
  | edits entry rest undo_stack hdepth hstack hedits hcoarsens => exact absurd hedit List.not_mem_nil

theorem Closes.operations {history after : History} (h : history.Closes after) :
    after.operations = history.operations := by
  cases h <;> rfl

theorem Closes.open_entry {history after : History} (h : history.Closes after)
    (hstack : history.undo_stack ≠ []) : 0 < after.transaction_depth → after.undo_stack ≠ [] := by
  intro hdepth
  cases h with
  | inner depth _ => exact hstack
  | empty => exact absurd hdepth (lt_irrefl 0)
  | edits => exact absurd hdepth (lt_irrefl 0)

theorem close_spec {history : History} (now : Nat) (hdepth : 0 < history.transaction_depth)
    (hstack : history.undo_stack ≠ []) : ∃ after, history.close now = some after ∧ history.Closes after := by
  obtain ⟨entry, rest, hsplit⟩ := List.exists_cons_of_ne_nil hstack
  cases hdepthEq : history.transaction_depth with
  | zero => omega
  | succ depth =>
    cases depth with
    | succ depth =>
      refine ⟨{ history with transaction_depth := depth + 1 }, ?_, .inner depth hdepthEq⟩
      simp [close, end_transaction, hdepthEq]
    | zero =>
      by_cases hempty : entry.transaction.edit_ids = []
      · refine ⟨{ history with transaction_depth := 0, undo_stack := rest }, ?_,
          .empty entry rest hdepthEq hsplit hempty⟩
        simp [close, end_transaction, hdepthEq, hsplit, hempty]
      · let ended : History :=
          { history with
            transaction_depth := 0
            redo_stack := []
            undo_stack := { entry with last_edit_at := now } :: rest }
        have hne : ended.undo_stack ≠ [] := List.cons_ne_nil _ _
        obtain ⟨undo_stack, id, hgroup, hcoarsens⟩ := group_spec hne
        have hended : Coarsens history.undo_stack ended.undo_stack := by
          rw [hsplit]
          refine Coarsens.merge [] rfl ?_
          simp [editIds]
        refine ⟨{ history with transaction_depth := 0, undo_stack, redo_stack := [] }, ?_,
          .edits entry rest undo_stack hdepthEq hsplit hempty (hended.trans hcoarsens)⟩
        have hend : history.end_transaction now = some (ended, some { entry with last_edit_at := now }) := by
          simp [end_transaction, hdepthEq, hsplit, hempty, ended]
        rw [close, hend]
        simp only [hgroup, Option.map_some, ended]

theorem push_undo_edit {history : History} (edit : EditOperation) {entry : HistoryEntry}
    {rest : List HistoryEntry} (hsorted : Sorted history.operations) (hdepth : 0 < history.transaction_depth)
    (hstack : history.undo_stack = entry :: rest) :
    (history.push (.Edit edit)).push_undo edit.timestamp =
      some { history with
        operations := sum_tree.insert_or_replace history.operations (.Edit edit)
        undo_stack :=
          { entry with
            transaction :=
              { entry.transaction with edit_ids := entry.transaction.edit_ids ++ [edit.timestamp] } } ::
            rest } := by
  have hget : sum_tree.get (sum_tree.insert_or_replace history.operations (.Edit edit)) edit.timestamp =
      some (.Edit edit) := by
    rw [sum_tree.get_eq_some_iff (sum_tree.insert_or_replace_sorted hsorted _),
      sum_tree.mem_insert_or_replace hsorted]
    exact ⟨Or.inl rfl, rfl⟩
  have hne : history.transaction_depth ≠ 0 := by omega
  simp only [push, push_undo, if_neg hne, hget, hstack]

end History

end zed.text
