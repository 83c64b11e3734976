import Zed.Text.UndoRedo.Effects
import Zed.Transition

namespace zed.text

open zed.clock zed.rope zed.transition
def Buffer.set_group_interval (buffer : Buffer) (group_interval : Nat) : Buffer :=
  { buffer with history := { buffer.history with group_interval } }

def Buffer.started (buffer : Buffer) : Action → Option Lamport
  | .start_transaction now | .edit _ now _ => (buffer.start_transaction_at now).2
  | _ => none

def Buffer.Commits (buffer : Buffer) : Action → Prop
  | .end_transaction _ => buffer.history.transaction_depth = 1 ∧
    ∃ entry rest, buffer.history.undo_stack = entry :: rest ∧ entry.transaction.edit_ids ≠ []
  | .edit _ _ _ => buffer.history.transaction_depth = 0
  | _ => False

/-- What the only user of a buffer does. -/
inductive Input
  | act (action : Action)
  | set_group_interval (group_interval : Nat)

/-- A buffer that only its user has changed, and the transactions that were started,
    each with the text that the buffer had then. -/
structure Session where
  buffer : Buffer
  starts : List (Lamport × Rope)

namespace Session

def new (replica_id remote_id : Nat) (base_text : Str) : Session :=
  { buffer := Buffer.new replica_id remote_id base_text, starts := [] }

def step (session : Session) : Input → Option Session
  | .act action =>
    (session.buffer.act action).map fun acted =>
      { buffer := acted.1
        starts := session.starts ++
          ((session.buffer.started action).map fun id => (id, session.buffer.snapshot.visible_text)).toList }
  | .set_group_interval group_interval =>
    some { session with buffer := session.buffer.set_group_interval group_interval }

/-- The user edits valid ranges, and undoes and redoes only whole transactions. -/
def Allows (session : Session) : Input → Prop
  | .act (.undo_or_redo _) => False
  | .act action => session.buffer.Allows [] action
  | .set_group_interval _ => True

/-- The edits that can still be undone or redone. -/
def ids (session : Session) : List Lamport :=
  editIds session.buffer.history.undo_stack ++ editIds session.buffer.history.redo_stack

/-- What holds of a session at any time. -/
structure Accounts (ledger : Ledger) (replica_id : Nat) (session : Session) : Prop where
  lawful : ledger.Lawful
  keeps : ledger.Keeps replica_id session.buffer
  effects : Effects ledger session.buffer.version session.buffer.history session.starts
  earlier : ∀ start ∈ session.starts, start.1.value < session.buffer.lamport_clock.value
  distinct : (session.starts.map Prod.fst).Nodup

/-- What a step keeps, and that no edit comes back to the stacks. -/
structure Advances (ledger : Ledger) (replica_id : Nat) (session next : Session) : Prop where
  accounts : ∃ ledger', Accounts ledger' replica_id next ∧
    ∀ edit_id, ledger.HasEdit session.buffer.version edit_id →
      ledger'.HasEdit next.buffer.version edit_id ∧ (edit_id ∈ next.ids → edit_id ∈ session.ids)

end Session

open Ledger

variable {ledger : Ledger} {replica_id : Nat} {buffer : Buffer}

theorem Buffer.undo_or_redo_flips (hlawful : ledger.Lawful) (h : ledger.Keeps replica_id buffer)
    {transaction : Transaction} (hknown : ∀ edit_id ∈ transaction.edit_ids, ledger.HasEdit buffer.version edit_id) :
    Effects.Flips ledger replica_id buffer (buffer.undo_or_redo transaction).1 (buffer.undo_or_redo transaction).2
      transaction.edit_ids := by
  obtain ⟨undo, hop, htimestamp, hcounts, hmakes, hsnapshot, -⟩ := undo_or_redo_spec hlawful h hknown
  rw [hop]
  refine ⟨hmakes, ⟨undo, rfl⟩, fun edit_id hedit => ?_⟩
  have hmap : (buffer.undo_or_redo transaction).1.snapshot.undo_map =
      UndoMap.insert buffer.snapshot.undo_map undo := by
    rw [hsnapshot]
    exact (BufferSnapshot.apply_undo_spec h.mirrors.store undo).undo_map
  have hfresh : ∀ entry ∈ buffer.snapshot.undo_map, entry.key.undo_id ≠ undo.timestamp := by
    rintro ⟨⟨edit_id, undo_id⟩, count⟩ hentry
    exact hmakes.fresh.ne_of_observed h.mirrors.version ((h.mirrors.undos edit_id undo_id count).mp hentry).1
  have hbefore := h.mirrors.is_undone edit_id
  have hafter := hmakes.keeps.mirrors.is_undone edit_id
  rw [hmap] at hafter
  unfold UndoMap.is_undone at hbefore hafter
  rw [beq_iff_eq] at hbefore hafter
  change _ ↔ UndoneAt _ buffer.version edit_id at hbefore
  change _ ↔ UndoneAt _ (buffer.undo_or_redo transaction).1.version edit_id at hafter
  rw [← hafter, ← hbefore]
  split
  · next hin =>
    have hentry : (edit_id, UndoMap.undo_count buffer.snapshot.undo_map edit_id + 1) ∈ undo.counts.entries := by
      rw [hcounts]
      exact (undo_counts_keys _ _).mpr ⟨hin, rfl⟩
    rw [UndoMap.undo_count_insert h.mirrors.undo_sorted hfresh hentry]
    omega
  · next hnot =>
    rw [UndoMap.undo_count_insert_of_notMem h.mirrors.undo_sorted hfresh]
    rw [hcounts]
    exact fun hkey => hnot (mem_undo_counts.mp hkey)

theorem Buffer.Makes.lt_clock {after : Buffer} {op : Operation} (h : Makes ledger replica_id buffer after op) :
    op.timestamp.value < after.lamport_clock.value := by
  have hobserved := Global.observe_observed_self buffer.version op.timestamp
  rw [← h.version, Global.observed_iff] at hobserved
  exact Nat.lt_of_le_of_lt hobserved (h.keeps.clock_after op.timestamp.replica_id)

theorem Buffer.start_transaction_at_eq (buffer : Buffer) (now : Nat) :
    buffer.start_transaction_at now =
      if buffer.history.transaction_depth = 0 then
        ({ buffer with
            history :=
              { buffer.history with
                transaction_depth := 1
                undo_stack :=
                  { transaction := { id := buffer.lamport_clock, edit_ids := [], start := buffer.version }
                    first_edit_at := now
                    last_edit_at := now
                    suppress_grouping := false } :: buffer.history.undo_stack }
            lamport_clock := { buffer.lamport_clock with value := buffer.lamport_clock.value + 1 } },
          some buffer.lamport_clock)
      else
        ({ buffer with
            history := { buffer.history with transaction_depth := buffer.history.transaction_depth + 1 } }, none) := by
  unfold start_transaction_at
  rw [History.start_transaction_eq]
  by_cases hdepth : buffer.history.transaction_depth = 0
  · rw [if_pos hdepth, if_pos hdepth]
  · rw [if_neg hdepth, if_neg hdepth]

namespace Session

variable {session next : Session}

/-- The transactions that were started, when an action may start one more. -/
def startsAfter (session : Session) (started : Option Lamport) : List (Lamport × Rope) :=
  session.starts ++ (started.map fun id => (id, session.buffer.snapshot.visible_text)).toList

theorem Accounts.start (h : Accounts ledger replica_id session) (now : Nat) :
    let started := session.buffer.start_transaction_at now
    Effects ledger session.buffer.version started.1.history (session.startsAfter started.2) ∧
      (∀ start ∈ session.startsAfter started.2, start.1.value < started.1.lamport_clock.value) ∧
      ((session.startsAfter started.2).map Prod.fst).Nodup ∧
      editIds started.1.history.undo_stack = editIds session.buffer.history.undo_stack ∧
      started.1.history.redo_stack = session.buffer.history.redo_stack := by
  rw [Buffer.start_transaction_at_eq]
  split
  · next hdepth =>
    refine ⟨?_, ?_, ?_, rfl, rfl⟩
    · refine (h.effects.mono (List.subset_append_left _ _)).start h.keeps hdepth rfl ?_
      simp
    · intro start hmem
      obtain hmem | hmem := List.mem_append.mp hmem
      · exact Nat.lt_succ_of_lt (h.earlier start hmem)
      · obtain rfl : start = _ := by simpa using hmem
        exact Nat.lt_succ_self _
    · rw [startsAfter, List.map_append, List.nodup_append]
      refine ⟨h.distinct, by simp, fun id hid other hother => ?_⟩
      obtain ⟨start, hmem, rfl⟩ := List.mem_map.mp hid
      obtain rfl : other = session.buffer.lamport_clock := by simpa using hother
      intro heq
      exact (h.earlier start hmem).ne (congrArg Lamport.value heq)
  · refine ⟨?_, ?_, ?_, rfl, rfl⟩
    · exact (h.effects.mono (List.subset_append_left _ _)).of_stacks rfl rfl fun _ => Nat.succ_pos _
    · simpa [startsAfter] using h.earlier
    · simpa [startsAfter] using h.distinct

theorem Accounts.quiet {after : Buffer} {started : Option Lamport} (h : Accounts ledger replica_id session)
    (hkeeps : ledger.Keeps replica_id after) (hsnapshot : after.snapshot = session.buffer.snapshot)
    (heffects : Effects ledger session.buffer.version after.history (session.startsAfter started))
    (hearlier : ∀ start ∈ session.startsAfter started, start.1.value < after.lamport_clock.value)
    (hdistinct : ((session.startsAfter started).map Prod.fst).Nodup)
    (hids : editIds after.history.undo_stack ++ editIds after.history.redo_stack ⊆ session.ids) :
    Advances ledger replica_id session { buffer := after, starts := session.startsAfter started } := by
  have hversion : after.version = session.buffer.version := congrArg BufferSnapshot.version hsnapshot
  refine ⟨ledger, ⟨h.lawful, hkeeps, hversion ▸ heffects, hearlier, hdistinct⟩, fun edit_id hedit => ?_⟩
  exact ⟨hversion ▸ hedit, fun hin => hids hin⟩

/-- A step of the history alone, that starts no transaction. -/
theorem Accounts.calm {after : Buffer} (h : Accounts ledger replica_id session)
    (hkeeps : ledger.Keeps replica_id after) (hsnapshot : after.snapshot = session.buffer.snapshot)
    (hclock : after.lamport_clock = session.buffer.lamport_clock)
    (heffects : Effects ledger session.buffer.version after.history session.starts)
    (hids : editIds after.history.undo_stack ++ editIds after.history.redo_stack ⊆ session.ids) :
    Advances ledger replica_id session { buffer := after, starts := session.startsAfter none } := by
  have hstarts : session.startsAfter none = session.starts := by simp [startsAfter]
  refine h.quiet hkeeps hsnapshot ?_ ?_ ?_ hids
  · rw [hstarts]
    exact heffects
  · rw [hstarts, hclock]
    exact h.earlier
  · rw [hstarts]
    exact h.distinct

theorem Accounts.coarsens {undo_stack : List HistoryEntry} (h : Accounts ledger replica_id session)
    (hcoarsens : Coarsens session.buffer.history.undo_stack undo_stack) :
    Advances ledger replica_id session
      { buffer := { session.buffer with history := { session.buffer.history with undo_stack } }
        starts := session.startsAfter none } := by
  obtain ⟨hacts, -⟩ := Buffer.Acts.of_coarsens h.keeps hcoarsens
  cases hacts with
  | quiet hafter _ _ =>
    refine h.calm hafter rfl rfl (h.effects.coarsens hcoarsens) ?_
    exact (hcoarsens.ids.append_right _).subset

theorem Accounts.flips {history : History} {transaction : Transaction} (h : Accounts ledger replica_id session)
    (hkeeps : ledger.Keeps replica_id { session.buffer with history })
    (hknown : ∀ edit_id ∈ transaction.edit_ids, ledger.HasEdit session.buffer.version edit_id)
    (heffects : ∀ after op, Effects.Flips ledger replica_id session.buffer after op transaction.edit_ids →
      Effects (ledger.push (session.buffer.snapshot.authored op)) after.version history session.starts) :
    let flipped := { session.buffer with history }.undo_or_redo transaction
    Effects.Flips ledger replica_id session.buffer flipped.1 flipped.2 transaction.edit_ids ∧
      Accounts (ledger.push (session.buffer.snapshot.authored flipped.2)) replica_id
        { session with buffer := flipped.1 } := by
  have hpopped := Buffer.undo_or_redo_flips h.lawful hkeeps hknown
  have hflips : Effects.Flips ledger replica_id session.buffer
      ({ session.buffer with history }.undo_or_redo transaction).1
      ({ session.buffer with history }.undo_or_redo transaction).2 transaction.edit_ids :=
    ⟨hpopped.makes.of_popped rfl rfl rfl rfl, hpopped.undo, hpopped.flips⟩
  refine ⟨hflips, hflips.makes.lawful, hflips.makes.keeps, (heffects _ _ hflips).of_stacks rfl rfl id, ?_, h.distinct⟩
  exact fun start hmem => Nat.lt_succ_of_lt (h.earlier start hmem)

theorem Accounts.flip {history : History} {transaction : Transaction} (h : Accounts ledger replica_id session)
    (hkeeps : ledger.Keeps replica_id { session.buffer with history })
    (hknown : ∀ edit_id ∈ transaction.edit_ids, ledger.HasEdit session.buffer.version edit_id)
    (heffects : ∀ after op, Effects.Flips ledger replica_id session.buffer after op transaction.edit_ids →
      Effects (ledger.push (session.buffer.snapshot.authored op)) after.version history session.starts)
    (hids : editIds history.undo_stack ++ editIds history.redo_stack ⊆ session.ids) :
    Advances ledger replica_id session
      { buffer := ({ session.buffer with history }.undo_or_redo transaction).1
        starts := session.startsAfter none } := by
  obtain ⟨hflips, hafter⟩ := h.flips hkeeps hknown heffects
  have hstarts : session.startsAfter none = session.starts := by simp [startsAfter]
  rw [hstarts]
  refine ⟨_, hafter, fun edit_id hedit => ?_⟩
  exact ⟨(hflips.makes.hasEdit_iff h.keeps).mpr (.inl hedit), fun hin => hids hin⟩

theorem Accounts.undone {entry : HistoryEntry} {rest : List HistoryEntry} (h : Accounts ledger replica_id session)
    (hdepth : session.buffer.history.transaction_depth = 0) (hstack : session.buffer.history.undo_stack = entry :: rest) :
    let history : History :=
      { session.buffer.history with undo_stack := rest, redo_stack := entry :: session.buffer.history.redo_stack }
    ledger.Keeps replica_id { session.buffer with history } ∧
      (∀ edit_id ∈ entry.transaction.edit_ids, ledger.HasEdit session.buffer.version edit_id) ∧
      (∀ after op, Effects.Flips ledger replica_id session.buffer after op entry.transaction.edit_ids →
        Effects (ledger.push (session.buffer.snapshot.authored op)) after.version history session.starts) ∧
      (editIds rest ++ editIds (entry :: session.buffer.history.redo_stack)).Perm session.ids := by
  have hperm : (editIds rest ++ editIds (entry :: session.buffer.history.redo_stack)).Perm session.ids := by
    rw [ids, hstack, editIds_cons, editIds_cons, ← List.append_assoc]
    exact List.perm_append_comm.append_right _
  refine ⟨?_, ?_, fun after op hflips => h.effects.undone h.keeps hflips hdepth hstack, hperm⟩
  · exact Buffer.keeps_of_popped h.keeps hdepth fun edit_id hin =>
      List.mem_append.mp (hperm.subset (List.mem_append.mpr hin))
  · intro edit_id hedit
    refine h.effects.known edit_id (List.mem_append_left _ ?_)
    rw [hstack, mem_editIds_cons]
    exact .inl hedit

theorem Accounts.redone {entry : HistoryEntry} {rest : List HistoryEntry} (h : Accounts ledger replica_id session)
    (hdepth : session.buffer.history.transaction_depth = 0) (hstack : session.buffer.history.redo_stack = entry :: rest) :
    let history : History :=
      { session.buffer.history with redo_stack := rest, undo_stack := entry :: session.buffer.history.undo_stack }
    ledger.Keeps replica_id { session.buffer with history } ∧
      (∀ edit_id ∈ entry.transaction.edit_ids, ledger.HasEdit session.buffer.version edit_id) ∧
      (∀ after op, Effects.Flips ledger replica_id session.buffer after op entry.transaction.edit_ids →
        Effects (ledger.push (session.buffer.snapshot.authored op)) after.version history session.starts) ∧
      (editIds (entry :: session.buffer.history.undo_stack) ++ editIds rest).Perm session.ids := by
  have hperm : (editIds (entry :: session.buffer.history.undo_stack) ++ editIds rest).Perm session.ids := by
    rw [ids, hstack, editIds_cons, editIds_cons, ← List.append_assoc]
    exact List.perm_append_comm.append_right _
  refine ⟨?_, ?_, fun after op hflips => h.effects.redone h.keeps hflips hdepth hstack, hperm⟩
  · exact Buffer.keeps_of_popped h.keeps hdepth fun edit_id hin =>
      List.mem_append.mp (hperm.subset (List.mem_append.mpr hin))
  · intro edit_id hedit
    refine h.effects.known edit_id (List.mem_append_right _ ?_)
    rw [hstack, mem_editIds_cons]
    exact .inl hedit

theorem advances_of_edit {edits : List (Range × Str)} {start_now end_now : Nat} {edited : Buffer × Operation}
    (h : Accounts ledger replica_id session)
    (hedits : EditsFrom session.buffer.snapshot.visible_text.length 0 edits)
    (hedit : session.buffer.edit edits start_now end_now = some edited) :
    Advances ledger replica_id session
      { buffer := edited.1
        starts := session.startsAfter (session.buffer.start_transaction_at start_now).2 } := by
  obtain ⟨after, op, entry, rest, hspec, hmakes, -, htimestamp, hstack, hcloses⟩ :=
    Buffer.edit_spec h.lawful h.keeps hedits start_now end_now
  rw [hspec, Option.some.injEq] at hedit
  obtain ⟨heffects, hearlier, hdistinct, hundo, hredo⟩ := h.start start_now
  have hdepth : 0 < (session.buffer.start_transaction_at start_now).1.history.transaction_depth := by
    rw [(Buffer.start_transaction_at_spec h.keeps start_now).depth]
    exact Nat.succ_pos _
  generalize hopened : ({ (session.buffer.start_transaction_at start_now).1.history with
    operations := sum_tree.insert_or_replace
      (session.buffer.start_transaction_at start_now).1.history.operations (.Edit op)
    undo_stack :=
      { entry with
        transaction :=
          { entry.transaction with edit_ids := entry.transaction.edit_ids ++ [op.timestamp] } } :: rest } : History) =
    opened at hcloses
  have hjoined : Effects (ledger.push (session.buffer.snapshot.authored (.Edit op))) after.version opened
      (session.startsAfter (session.buffer.start_transaction_at start_now).2) := by
    let joined : HistoryEntry :=
      { entry with
        transaction := { entry.transaction with edit_ids := entry.transaction.edit_ids ++ [op.timestamp] } }
    rw [← hopened]
    exact (heffects.edit h.lawful h.keeps hmakes hdepth hstack joined rfl rfl).of_stacks rfl rfl id
  have hold : ∀ edit_id, ledger.HasEdit session.buffer.version edit_id → edit_id ≠ op.timestamp :=
    fun edit_id hedit => hmakes.fresh.ne_of_observed h.keeps.mirrors.version hedit.1
  rw [← hedit]
  refine ⟨_, ⟨hmakes.lawful, hmakes.keeps, hjoined.closes hcloses, ?_, hdistinct⟩, fun edit_id hknown => ?_⟩
  · intro start hmem
    refine (hearlier start hmem).trans ?_
    rw [← htimestamp]
    exact hmakes.lt_clock
  · refine ⟨(hmakes.hasEdit_iff h.keeps).mpr (.inl hknown), fun hin => ?_⟩
    obtain hin | hin := List.mem_append.mp hin
    · have hmem := hcloses.undo_subset edit_id hin
      rw [← hopened, mem_editIds_cons, List.mem_append, List.mem_singleton] at hmem
      refine List.mem_append_left _ ?_
      rw [← hundo, hstack, mem_editIds_cons]
      obtain (hmem | heq) | hmem := hmem
      · exact .inl hmem
      · exact absurd heq (hold edit_id hknown)
      · exact .inr hmem
    · have hmem := hcloses.redo_subset edit_id hin
      rw [← hopened] at hmem
      refine List.mem_append_right _ ?_
      rw [← hredo]
      exact hmem

theorem advances_of_act {action : Action} {acted : Buffer × List Operation}
    (h : Accounts ledger replica_id session) (hallows : session.Allows (.act action))
    (hact : session.buffer.act action = some acted) :
    Advances ledger replica_id session
      { buffer := acted.1, starts := session.startsAfter (session.buffer.started action) } := by
  have hkeeps := h.keeps
  cases action with
  | start_transaction now =>
    cases hact
    obtain ⟨heffects, hearlier, hdistinct, hundo, hredo⟩ := h.start now
    have hstarts := Buffer.start_transaction_at_spec hkeeps now
    refine h.quiet hstarts.keeps hstarts.snapshot heffects hearlier hdistinct ?_
    rw [hundo, hredo]
    exact List.Subset.refl _
  | end_transaction now =>
    obtain ⟨ended, hended, rfl⟩ := Option.map_eq_some_iff.mp hact
    have heq := session.buffer.end_transaction_at_eq now
    rw [hended, Option.map_some] at heq
    have hdepth : 0 < session.buffer.history.transaction_depth := by
      by_contra hnot
      have hzero : session.buffer.history.transaction_depth = 0 := Nat.eq_zero_of_not_pos hnot
      simp [History.close, History.end_transaction, hzero] at heq
    obtain ⟨history, hclose, hcloses⟩ := History.close_spec now hdepth (hkeeps.open_entry hdepth)
    rw [hclose, Option.map_some, Option.some.injEq] at heq
    obtain ⟨hacts, -⟩ := Buffer.end_transaction_at_acts hkeeps hended
    cases hacts with
    | quiet hafter _ _ =>
      rw [heq] at hafter ⊢
      refine h.calm hafter rfl rfl (h.effects.closes hcloses) fun edit_id hin => ?_
      refine List.mem_append.mpr ((List.mem_append.mp hin).imp ?_ ?_)
      · exact hcloses.undo_subset edit_id
      · exact hcloses.redo_subset edit_id
  | finalize_last_transaction =>
    cases hact
    obtain ⟨undo_stack, heq, hcoarsens⟩ := session.buffer.history.finalize_last_transaction_spec
    rw [Buffer.finalize_last_transaction, heq]
    exact h.coarsens hcoarsens
  | group_until_transaction transaction_id =>
    cases hact
    obtain ⟨undo_stack, heq, hcoarsens⟩ := session.buffer.history.group_until_spec transaction_id
    rw [Buffer.group_until_transaction, heq]
    exact h.coarsens hcoarsens
  | edit edits start_now end_now =>
    obtain ⟨edited, hedited, rfl⟩ := Option.map_eq_some_iff.mp hact
    exact advances_of_edit h hallows hedited
  | undo =>
    obtain ⟨undone, hundone, rfl⟩ := Option.map_eq_some_iff.mp hact
    by_cases hdepth : session.buffer.history.transaction_depth = 0
    · obtain ⟨-, hundo⟩ | ⟨entry, rest, hstack, hundo⟩ := Buffer.undo_spec hdepth
      · rw [hundo, Option.some.injEq] at hundone
        rw [← hundone]
        exact h.calm hkeeps rfl rfl h.effects (List.Subset.refl _)
      · rw [hundo, Option.some.injEq] at hundone
        rw [← hundone]
        obtain ⟨hpopped, hknown, heffects, hperm⟩ := h.undone hdepth hstack
        exact h.flip hpopped hknown heffects hperm.subset
    · rw [(Buffer.undo_redo_none hdepth).1] at hundone
      cases hundone
  | redo =>
    obtain ⟨redone, hredone, rfl⟩ := Option.map_eq_some_iff.mp hact
    by_cases hdepth : session.buffer.history.transaction_depth = 0
    · obtain ⟨-, hredo⟩ | ⟨entry, rest, hstack, hredo⟩ := Buffer.redo_spec hdepth
      · rw [hredo, Option.some.injEq] at hredone
        rw [← hredone]
        exact h.calm hkeeps rfl rfl h.effects (List.Subset.refl _)
      · rw [hredo, Option.some.injEq] at hredone
        rw [← hredone]
        obtain ⟨hpopped, hknown, heffects, hperm⟩ := h.redone hdepth hstack
        exact h.flip hpopped hknown heffects hperm.subset
    · rw [(Buffer.undo_redo_none hdepth).2] at hredone
      cases hredone
  | undo_or_redo transaction => exact absurd hallows id
  | subscribe =>
    cases hact
    exact h.calm ⟨hkeeps.mirrors, hkeeps.clock_replica, hkeeps.clock_after, hkeeps.own, hkeeps.operations_sorted,
      hkeeps.open_entry, hkeeps.undo_known, hkeeps.redo_known⟩ rfl rfl h.effects (List.Subset.refl _)
  | consume subscription =>
    cases hact
    exact h.calm ⟨hkeeps.mirrors, hkeeps.clock_replica, hkeeps.clock_after, hkeeps.own, hkeeps.operations_sorted,
      hkeeps.open_entry, hkeeps.undo_known, hkeeps.redo_known⟩ rfl rfl h.effects (List.Subset.refl _)

end Session

end zed.text
