import Zed.Text.UndoRedo.Session

namespace zed.text

open zed.clock zed.rope zed.transition
open Ledger

theorem History.Closes.nothing_to_redo {history closed : History} (h : history.Closes closed)
    (hdepth : history.transaction_depth = 1) {entry : HistoryEntry} {rest : List HistoryEntry}
    (hstack : history.undo_stack = entry :: rest) (hedits : entry.transaction.edit_ids ≠ []) :
    closed.transaction_depth = 0 ∧ closed.redo_stack = [] := by
  cases h with
  | inner depth hinner => omega
  | empty other undo_stack _ hother hempty =>
    obtain ⟨rfl, -⟩ : entry = other ∧ rest = undo_stack := by simpa [hstack] using hother
    exact absurd hempty hedits
  | edits => exact ⟨rfl, rfl⟩

namespace Session

variable {ledger : Ledger} {replica_id remote_id : Nat} {base_text : Str} {session next later : Session}

theorem Accounts.new (replica_id remote_id : Nat) (base_text : Str) :
    Accounts (Ledger.start (utf8 (normalize base_text))) replica_id (Session.new replica_id remote_id base_text) := by
  refine ⟨Ledger.start_lawful, Network.new_keeps base_text replica_id remote_id, ⟨?_, ?_, ?_, ?_, .inr ?_⟩, ?_, ?_⟩
  · rintro edit_id ⟨-, edit, other, hfind, -⟩
    cases hfind
  · exact List.nodup_nil
  · exact fun edit_id hedit => absurd hedit List.not_mem_nil
  · intro above entry below hsplit
    simp [Session.new, Buffer.new, Buffer.new_normalized, History.new] at hsplit
  · intro above entry below hsplit
    simp [Session.new, Buffer.new, Buffer.new_normalized, History.new] at hsplit
  · exact fun start hstart => absurd hstart List.not_mem_nil
  · exact List.nodup_nil

theorem advances_of_step {input : Input} (h : Accounts ledger replica_id session) (hallows : session.Allows input)
    (hstep : session.step input = some next) : Advances ledger replica_id session next := by
  cases input with
  | act action =>
    obtain ⟨acted, hact, rfl⟩ := Option.map_eq_some_iff.mp hstep
    exact advances_of_act h hallows hact
  | set_group_interval group_interval =>
    cases hstep
    refine ⟨ledger, ⟨h.lawful, ?_, h.effects.of_stacks rfl rfl id, h.earlier, h.distinct⟩, fun edit_id hedit => ?_⟩
    · exact h.keeps.of_history h.keeps.clock_replica le_rfl h.keeps.operations_sorted h.keeps.open_entry
        (fun edit_id hedit => .inl hedit) fun edit_id hedit => .inr hedit
    · exact ⟨hedit, id⟩

theorem accounts_of_run (hrun : Runs step Allows (new replica_id remote_id base_text) session) :
    ∃ ledger, Accounts ledger replica_id session := by
  have hkeeps : ∀ s input t, (∃ ledger, Accounts ledger replica_id s) → Allows s input → step s input = some t →
      ∃ ledger, Accounts ledger replica_id t := by
    rintro s input t ⟨ledger, h⟩ hallows hstep
    obtain ⟨ledger', h', -⟩ := (advances_of_step h hallows hstep).accounts
    exact ⟨ledger', h'⟩
  exact hrun.keeps hkeeps ⟨_, Accounts.new replica_id remote_id base_text⟩

/-- An edit that is on no stack does not come back to one. -/
theorem Accounts.gone (h : Accounts ledger replica_id session) {edit_id : Lamport}
    (hknown : ledger.HasEdit session.buffer.version edit_id) (hgone : edit_id ∉ session.ids)
    (hrun : Runs step Allows session later) : edit_id ∉ later.ids := by
  have hkeeps : ∀ s input t,
      (∃ ledger, Accounts ledger replica_id s ∧ ledger.HasEdit s.buffer.version edit_id ∧ edit_id ∉ s.ids) →
      Allows s input → step s input = some t →
      ∃ ledger, Accounts ledger replica_id t ∧ ledger.HasEdit t.buffer.version edit_id ∧ edit_id ∉ t.ids := by
    rintro s input t ⟨ledger, h, hknown, hgone⟩ hallows hstep
    obtain ⟨ledger', h', hids⟩ := (advances_of_step h hallows hstep).accounts
    exact ⟨ledger', h', (hids edit_id hknown).1, fun hin => hgone ((hids edit_id hknown).2 hin)⟩
  obtain ⟨-, -, -, hgone'⟩ := hrun.keeps hkeeps ⟨ledger, h, hknown, hgone⟩
  exact hgone'

theorem Accounts.text_unique (h : Accounts ledger replica_id session) {id : Lamport} {text other : Rope}
    (htext : (id, text) ∈ session.starts) (hother : (id, other) ∈ session.starts) : other = text :=
  (Prod.mk.inj (List.inj_on_of_nodup_map h.distinct hother htext rfl)).2

/-- A later operation leaves alone what was in effect at a version before it. -/
theorem alive_push {buffer after : Buffer} {op : Operation} {snapshot : BufferSnapshot}
    (hmakes : Buffer.Makes ledger replica_id buffer after op) (hmirrors : ledger.Mirrors snapshot) (edit_id : Lamport) :
    (ledger.push (buffer.snapshot.authored op)).Alive snapshot.version edit_id ↔
      ledger.Alive snapshot.version edit_id := by
  unfold Alive
  rw [hmirrors.version.push_undoneAt hmakes.fresh]

theorem Accounts.alive_iff (h : Accounts ledger replica_id session) {edit_id : Lamport}
    (hedit : ledger.HasEdit session.buffer.version edit_id) :
    ledger.Alive session.buffer.version edit_id ↔ edit_id ∈ editIds session.buffer.history.undo_stack := by
  rw [← h.effects.alive edit_id hedit]
  exact and_iff_right hedit.1

theorem Accounts.text_of_undone {entry : HistoryEntry} {rest : List HistoryEntry}
    (h : Accounts ledger replica_id session) (hdepth : session.buffer.history.transaction_depth = 0)
    (hstack : session.buffer.history.redo_stack = entry :: rest) :
    (entry.transaction.id, session.buffer.snapshot.visible_text) ∈ session.starts := by
  obtain ⟨hopen, -⟩ | hredo := h.effects.redo
  · omega
  obtain ⟨snapshot, hmirrors, hall, hstarts, halive⟩ := hredo [] entry rest hstack
  have htext : session.buffer.snapshot.visible_text = snapshot.visible_text := by
    refine h.keeps.mirrors.text_of_alive h.lawful hmirrors hall fun edit_id hedit => ?_
    rw [halive edit_id hedit]
    exact (h.alive_iff hedit).symm
  rw [htext]
  exact hstarts

theorem Accounts.undo (h : Accounts ledger replica_id session) {undone : Buffer} {id : Lamport} {op : Operation}
    (hundo : session.buffer.undo = some (undone, some (id, op))) :
    (id, undone.snapshot.visible_text) ∈ session.starts ∧
      ∃ redone redo_op, undone.redo = some (redone, some (id, redo_op)) ∧
        redone.snapshot.visible_text = session.buffer.snapshot.visible_text := by
  have hdepth : session.buffer.history.transaction_depth = 0 := by
    by_contra hnot
    rw [(Buffer.undo_redo_none hnot).1] at hundo
    cases hundo
  obtain ⟨-, hnone⟩ | ⟨entry, rest, hstack, hsome⟩ := Buffer.undo_spec hdepth
  · rw [hnone] at hundo
    cases hundo
  rw [hsome] at hundo
  cases hundo
  obtain ⟨hpopped, hknown, heffects, -⟩ := h.undone hdepth hstack
  obtain ⟨hflips, hafter⟩ := h.flips hpopped hknown heffects
  refine ⟨hafter.text_of_undone hdepth rfl, ?_⟩
  obtain ⟨hpopped', hknown', heffects', -⟩ := hafter.redone hdepth rfl
  obtain ⟨hflips', hafter'⟩ := hafter.flips hpopped' hknown' heffects'
  have hmirrors := hflips.makes.retains h.keeps.mirrors
  have htext := hafter'.keeps.mirrors.text_of_alive hafter'.lawful (hflips'.makes.retains hmirrors)
    (Global.observed_all_trans hflips'.makes.observed_all hflips.makes.observed_all) fun edit_id hedit => by
      have hbefore := (hflips'.hasEdit_iff hafter.keeps).mp hedit
      have hfirst := (hflips.hasEdit_iff h.keeps).mp hbefore
      refine Iff.trans (alive_push hflips'.makes hmirrors edit_id) ?_
      refine Iff.trans (alive_push hflips.makes h.keeps.mirrors edit_id) ?_
      refine Iff.trans (h.alive_iff hfirst) (Iff.trans ?_ (hafter'.alive_iff hedit).symm)
      rw [hstack]
      rfl
  have hundone : ({ session.buffer with
    history :=
      { session.buffer.history with
        undo_stack := rest
        redo_stack := entry :: session.buffer.history.redo_stack } }.undo_or_redo
          entry.transaction).1.history.transaction_depth = 0 := hdepth
  obtain ⟨hnil, -⟩ | ⟨entry', rest', hstack', hredo⟩ := Buffer.redo_spec hundone
  · cases hnil
  · cases hstack'
    exact ⟨_, _, hredo, htext⟩

theorem Accounts.commit (h : Accounts ledger replica_id session) {action : Action} {committed : Session}
    (hcommits : session.buffer.Commits action) (hallows : session.Allows (.act action))
    (hstep : session.step (.act action) = some committed) :
    committed.buffer.history.transaction_depth = 0 ∧ committed.buffer.history.redo_stack = [] ∧
      ∀ edit_id, ledger.HasEdit session.buffer.version edit_id →
        edit_id ∈ editIds committed.buffer.history.undo_stack →
        edit_id ∈ editIds session.buffer.history.undo_stack := by
  obtain ⟨acted, hact, rfl⟩ := Option.map_eq_some_iff.mp hstep
  cases action with
  | end_transaction now =>
    obtain ⟨hdepth, entry, rest, hstack, hedits⟩ := hcommits
    obtain ⟨ended, hended, rfl⟩ := Option.map_eq_some_iff.mp hact
    have heq := session.buffer.end_transaction_at_eq now
    have hopen : 0 < session.buffer.history.transaction_depth := by omega
    obtain ⟨history, hclose, hcloses⟩ := History.close_spec now hopen (h.keeps.open_entry hopen)
    rw [hended, Option.map_some, hclose, Option.map_some, Option.some.injEq] at heq
    rw [heq]
    obtain ⟨hdepth', hredo⟩ := hcloses.nothing_to_redo hdepth hstack hedits
    exact ⟨hdepth', hredo, fun edit_id _ => hcloses.undo_subset edit_id⟩
  | edit edits start_now end_now =>
    obtain ⟨edited, hedited, rfl⟩ := Option.map_eq_some_iff.mp hact
    obtain ⟨after, op, entry, rest, hspec, hmakes, -, -, hstack, hcloses⟩ :=
      Buffer.edit_spec h.lawful h.keeps hallows start_now end_now
    rw [hspec, Option.some.injEq] at hedited
    rw [← hedited]
    obtain ⟨hdepth', hredo⟩ := hcloses.nothing_to_redo
      (by rw [(Buffer.start_transaction_at_spec h.keeps start_now).depth, hcommits]) rfl (by simp)
    refine ⟨hdepth', hredo, fun edit_id hknown hin => ?_⟩
    have hmem := hcloses.undo_subset edit_id hin
    have hne : edit_id ≠ op.timestamp := hmakes.fresh.ne_of_observed h.keeps.mirrors.version hknown.1
    obtain ⟨-, -, -, hundo, -⟩ := h.start start_now
    rw [mem_editIds_cons, List.mem_append, List.mem_singleton, or_iff_left hne] at hmem
    rw [← hundo, hstack, mem_editIds_cons]
    exact hmem
  | _ => exact absurd hcommits id

def sample_input : Input := .act (.edit [(⟨0, 1⟩, ['x'])] 0 0)

end Session

end zed.text
