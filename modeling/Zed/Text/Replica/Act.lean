import Zed.Text.Replica.Receive

namespace zed.text

open zed.clock zed.rope
open zed.sum_tree (Sorted)

namespace Buffer

open Ledger

theorem undo_counts_keys (undo_map : UndoMap) (edit_ids : List Lamport) {edit_id : Lamport} {count : Nat} :
    (edit_id, count) ∈ (undo_counts undo_map edit_ids).entries ↔
      edit_id ∈ edit_ids ∧ count = UndoMap.undo_count undo_map edit_id + 1 := by
  suffices h : ∀ counts : Counts, (edit_id, count) ∈ (edit_ids.foldl (fun counts edit_id =>
      counts.insert edit_id (UndoMap.undo_count undo_map edit_id + 1)) counts).entries ↔
      (edit_id ∈ edit_ids ∧ count = UndoMap.undo_count undo_map edit_id + 1) ∨
        edit_id ∉ edit_ids ∧ (edit_id, count) ∈ counts.entries by
    rw [undo_counts, h]
    simp [Counts.empty]
  intro counts
  induction edit_ids generalizing counts with
  | nil => simp
  | cons first edit_ids ih =>
    rw [List.foldl_cons, ih, Counts.mem_insert, List.mem_cons]
    by_cases hfirst : edit_id = first
    · subst hfirst
      by_cases hin : edit_id ∈ edit_ids
      · simp [hin]
      · simp [hin]
    · by_cases hin : edit_id ∈ edit_ids
      · simp [hin]
      · simp [hin, hfirst]

theorem mem_undo_counts {undo_map : UndoMap} {edit_ids : List Lamport} {edit_id : Lamport} :
    edit_id ∈ (undo_counts undo_map edit_ids).keys ↔ edit_id ∈ edit_ids := by
  rw [Counts.keys, List.mem_map]
  constructor
  · rintro ⟨⟨other, count⟩, hentry, rfl⟩
    exact ((undo_counts_keys undo_map edit_ids).mp hentry).1
  · exact fun h => ⟨(edit_id, _), (undo_counts_keys undo_map edit_ids).mpr ⟨h, rfl⟩, rfl⟩

variable {ledger : Ledger} {replica_id : Nat} {buffer : Buffer}

theorem undo_or_redo_spec (hlawful : ledger.Lawful) (h : ledger.Keeps replica_id buffer)
    {transaction : Transaction}
    (hknown : ∀ edit_id ∈ transaction.edit_ids, ledger.HasEdit buffer.version edit_id) :
    ∃ undo : UndoOperation, (buffer.undo_or_redo transaction).2 = .Undo undo ∧
      undo.timestamp = buffer.lamport_clock ∧
      undo.counts = undo_counts buffer.snapshot.undo_map transaction.edit_ids ∧
      Makes ledger replica_id buffer (buffer.undo_or_redo transaction).1 (.Undo undo) ∧
      (buffer.undo_or_redo transaction).1.snapshot =
        (buffer.snapshot.apply_undo undo).1.observing undo.timestamp ∧
      (buffer.undo_or_redo transaction).1.history = buffer.history.push (.Undo undo) := by
  let undo : UndoOperation :=
    { timestamp := buffer.lamport_clock
      version := buffer.version
      counts := undo_counts buffer.snapshot.undo_map transaction.edit_ids }
  have hresult : buffer.undo_or_redo transaction =
      ({ snapshot := (buffer.snapshot.apply_undo undo).1.observing undo.timestamp
         history := buffer.history.push (.Undo undo)
         deferred_ops := buffer.deferred_ops
         deferred_replicas := buffer.deferred_replicas
         lamport_clock := undo.timestamp.tick.2
         subscriptions := buffer.subscriptions.publish (buffer.snapshot.apply_undo undo).2 }, .Undo undo) := rfl
  have hfresh : ledger.Fresh undo.timestamp := h.fresh h.clock_replica le_rfl
  have hauthors : ledger.Authors buffer.snapshot (.Undo undo) :=
    { version_eq := rfl
      fresh := hfresh
      before := h.clock_after
      own := fun other hother heq => h.own other hother (heq.trans h.clock_replica) }
  obtain ⟨hlawful', hmirrors, hpatch⟩ := h.mirrors.undo_operations hlawful hauthors fun edit_id hkey =>
    hknown edit_id (mem_undo_counts.mp hkey)
  have hsame := (BufferSnapshot.apply_undo_spec h.mirrors.store undo).version
  refine ⟨undo, by rw [hresult], rfl, rfl, ?_, by rw [hresult], by rw [hresult]⟩
  rw [hresult]
  have hversion : (((buffer.snapshot.apply_undo undo).1.observing undo.timestamp).version) =
      buffer.version.observe undo.timestamp :=
    congrArg (fun version : Global => version.observe undo.timestamp) hsame
  have hgrow : (((buffer.snapshot.apply_undo undo).1.observing undo.timestamp).version).observed_all
      buffer.version = true := by
    rw [hversion]
    exact Global.observe_observed_all _ _
  have hrecordFresh : ledger.Fresh (buffer.snapshot.authored (.Undo undo)).timestamp := hfresh
  refine
    { fresh := hfresh
      replica := h.clock_replica
      seen := rfl
      lawful := hlawful'
      keeps := ?_
      version := hversion
      patch := ⟨_, hpatch, rfl⟩
      deferred_ops := rfl
      deferred_replicas := rfl }
  refine
    { mirrors := hmirrors
      clock_replica := h.clock_replica
      clock_after := fun other => ?_
      own := fun record hmem heq => ?_
      operations_sorted := sum_tree.insert_or_replace_sorted h.operations_sorted _
      open_entry := h.open_entry
      undo_known := fun edit_id hedit =>
        (h.undo_known edit_id hedit).push hrecordFresh h.mirrors.version hgrow
      redo_known := fun edit_id hedit =>
        (h.redo_known edit_id hedit).push hrecordFresh h.mirrors.version hgrow }
  · change Global.get (((buffer.snapshot.apply_undo undo).1.observing undo.timestamp).version) other <
      buffer.lamport_clock.value + 1
    rw [hversion, Global.observe_get]
    have hlt := h.clock_after other
    have htimestamp : undo.timestamp.value = buffer.lamport_clock.value := rfl
    split <;> omega
  · obtain hmem | hmem := List.mem_append.mp hmem
    · exact Global.observed_of_observed_all hgrow (h.own record hmem heq)
    · rw [List.mem_singleton.mp hmem]
      change Global.observed (((buffer.snapshot.apply_undo undo).1.observing undo.timestamp).version) undo.timestamp = true
      rw [hversion]
      exact Global.observe_observed_self _ _

theorem keeps_of_popped (h : ledger.Keeps replica_id buffer) {undo_stack redo_stack : List HistoryEntry}
    (hdepth : buffer.history.transaction_depth = 0)
    (hids : ∀ edit_id, edit_id ∈ editIds undo_stack ∨ edit_id ∈ editIds redo_stack →
      edit_id ∈ editIds buffer.history.undo_stack ∨ edit_id ∈ editIds buffer.history.redo_stack) :
    ledger.Keeps replica_id { buffer with history := { buffer.history with undo_stack, redo_stack } } := by
  refine h.of_history h.clock_replica le_rfl h.operations_sorted (fun hopen => ?_)
    (fun edit_id hedit => hids edit_id (Or.inl hedit)) (fun edit_id hedit => hids edit_id (Or.inr hedit))
  change 0 < buffer.history.transaction_depth at hopen
  omega

theorem undo_spec (hdepth : buffer.history.transaction_depth = 0) :
    (buffer.history.undo_stack = [] ∧ buffer.undo = some (buffer, none)) ∨
      ∃ entry rest, buffer.history.undo_stack = entry :: rest ∧
        buffer.undo =
          let popped : Buffer :=
            { buffer with
              history :=
                { buffer.history with undo_stack := rest, redo_stack := entry :: buffer.history.redo_stack } }
          some ((popped.undo_or_redo entry.transaction).1,
            some (entry.transaction.id, (popped.undo_or_redo entry.transaction).2)) := by
  cases hstack : buffer.history.undo_stack with
  | nil =>
    refine Or.inl ⟨rfl, ?_⟩
    simp only [undo, History.pop_undo, if_pos hdepth, hstack]
  | cons entry rest =>
    refine Or.inr ⟨entry, rest, rfl, ?_⟩
    simp only [undo, History.pop_undo, if_pos hdepth, hstack]

theorem redo_spec (hdepth : buffer.history.transaction_depth = 0) :
    (buffer.history.redo_stack = [] ∧ buffer.redo = some (buffer, none)) ∨
      ∃ entry rest, buffer.history.redo_stack = entry :: rest ∧
        buffer.redo =
          let popped : Buffer :=
            { buffer with
              history :=
                { buffer.history with redo_stack := rest, undo_stack := entry :: buffer.history.undo_stack } }
          some ((popped.undo_or_redo entry.transaction).1,
            some (entry.transaction.id, (popped.undo_or_redo entry.transaction).2)) := by
  cases hstack : buffer.history.redo_stack with
  | nil =>
    refine Or.inl ⟨rfl, ?_⟩
    simp only [redo, History.pop_redo, if_pos hdepth, hstack]
  | cons entry rest =>
    refine Or.inr ⟨entry, rest, rfl, ?_⟩
    simp only [redo, History.pop_redo, if_pos hdepth, hstack]

theorem undo_redo_none (hdepth : buffer.history.transaction_depth ≠ 0) :
    buffer.undo = none ∧ buffer.redo = none := by
  simp only [undo, redo, History.pop_undo, History.pop_redo, if_neg hdepth, and_self]

end Buffer

end zed.text

namespace zed.text

open zed.clock zed.rope
open zed.sum_tree (Sorted)

/-- What the user of a buffer can do with it. -/
inductive Action
  | start_transaction (now : Nat)
  | end_transaction (now : Nat)
  | finalize_last_transaction
  | group_until_transaction (transaction_id : Lamport)
  | edit (edits : List (Range × Str)) (start_now end_now : Nat)
  | undo
  | redo
  | undo_or_redo (transaction : Transaction)
  | subscribe
  | consume (subscription : Nat)

/-- The texts that the subscriptions were last told of, when a subscription starts
    or is read at some text. -/
def Action.told (text : Rope) (texts : List Rope) : Action → List Rope
  | .subscribe => texts ++ [text]
  | .consume subscription => texts.set subscription text
  | _ => texts

namespace Buffer

/-- The buffer after an action and the operations made by it. A panic is `none`. -/
def act (buffer : Buffer) : Action → Option (Buffer × List Operation)
  | .start_transaction now => some ((buffer.start_transaction_at now).1, [])
  | .end_transaction now => (buffer.end_transaction_at now).map fun ended => (ended.1, [])
  | .finalize_last_transaction => some (buffer.finalize_last_transaction, [])
  | .group_until_transaction transaction_id => some (buffer.group_until_transaction transaction_id, [])
  | .edit edits start_now end_now =>
    (buffer.edit edits start_now end_now).map fun edited => (edited.1, [edited.2])
  | .undo => buffer.undo.map fun undone => (undone.1, (undone.2.map Prod.snd).toList)
  | .redo => buffer.redo.map fun redone => (redone.1, (redone.2.map Prod.snd).toList)
  | .undo_or_redo transaction =>
    some ((buffer.undo_or_redo transaction).1, [(buffer.undo_or_redo transaction).2])
  | .subscribe => some (buffer.subscribe, [])
  | .consume subscription => some ((buffer.consume subscription).2, [])

/-- What an action asks of its caller: ranges of the text in order, and edits
    that the buffer has. -/
def Allows (ops : List Operation) (buffer : Buffer) : Action → Prop
  | .edit edits _ _ => EditsFrom buffer.snapshot.visible_text.length 0 edits
  | .undo_or_redo transaction => ∀ edit_id ∈ transaction.edit_ids,
    buffer.version.observed edit_id = true ∧ ∃ edit, Operation.Edit edit ∈ ops ∧ edit.timestamp = edit_id
  | _ => True

open Ledger

/-- What an action does: it makes an operation, or leaves the snapshot as it is. -/
inductive Acts (ledger : Ledger) (replica_id : Nat) (buffer after : Buffer) : List Operation → Prop
  | quiet (keeps : ledger.Keeps replica_id after) (snapshot : after.snapshot = buffer.snapshot)
    (deferred_ops : after.deferred_ops = buffer.deferred_ops) : Acts ledger replica_id buffer after []
  | makes (op : Operation) (makes : Makes ledger replica_id buffer after op) :
    Acts ledger replica_id buffer after [op]

variable {ledger : Ledger} {replica_id : Nat} {buffer popped after : Buffer} {op : Operation}

theorem Makes.of_popped (h : Makes ledger replica_id popped after op) (hsnapshot : popped.snapshot = buffer.snapshot)
    (hsubscriptions : popped.subscriptions = buffer.subscriptions)
    (hops : popped.deferred_ops = buffer.deferred_ops)
    (hreplicas : popped.deferred_replicas = buffer.deferred_replicas) : Makes ledger replica_id buffer after op where
  fresh := h.fresh
  replica := h.replica
  seen := h.seen.trans (congrArg BufferSnapshot.version hsnapshot)
  lawful := hsnapshot ▸ h.lawful
  keeps := hsnapshot ▸ h.keeps
  version := h.version.trans (congrArg (fun snapshot : BufferSnapshot => snapshot.version.observe op.timestamp) hsnapshot)
  patch := by
    obtain ⟨patch, htakes, hpublish⟩ := h.patch
    exact ⟨patch, hsnapshot ▸ htakes, hsubscriptions ▸ hpublish⟩
  deferred_ops := h.deferred_ops.trans hops
  deferred_replicas := h.deferred_replicas.trans hreplicas

theorem Makes.reports (h : Makes ledger replica_id buffer after op) : buffer.Reports after := by
  obtain ⟨patch, htakes, hpublish⟩ := h.patch
  exact reports_of_publish htakes hpublish

theorem Tracks.subscribe {texts : List Rope} (h : buffer.Tracks texts) :
    buffer.subscribe.Tracks (texts ++ [buffer.snapshot.visible_text]) := by
  have hnew : List.Forall₂ (fun patch text => Patch.Takes patch text buffer.snapshot.visible_text) [[]]
      [buffer.snapshot.visible_text] := by
    refine List.Forall₂.cons ?_ List.Forall₂.nil
    exact ((Patch.Leads.nil (β := UInt8)).keep buffer.snapshot.visible_text).takes
  exact List.rel_append h hnew

theorem Tracks.consume {texts : List Rope} (h : buffer.Tracks texts) (subscription : Nat) :
    (buffer.consume subscription).2.Tracks (texts.set subscription buffer.snapshot.visible_text) := by
  have hnil : Patch.Takes ([] : Patch) buffer.snapshot.visible_text buffer.snapshot.visible_text :=
    ((Patch.Leads.nil (β := UInt8)).keep buffer.snapshot.visible_text).takes
  unfold Tracks at h ⊢
  change List.Forall₂ _ (buffer.subscriptions.set subscription []) _
  change List.Forall₂ (fun patch text => Patch.Takes patch text buffer.snapshot.visible_text) _ _
  generalize buffer.subscriptions = subscriptions at h
  induction h generalizing subscription with
  | nil => exact List.Forall₂.nil
  | cons hfirst hrest ih =>
    cases subscription with
    | zero => exact List.Forall₂.cons hnil hrest
    | succ subscription => exact List.Forall₂.cons hfirst (ih subscription)

theorem Tracks.takes {texts : List Rope} (h : buffer.Tracks texts) {subscription : Nat}
    (hlt : subscription < buffer.subscriptions.length) : ∃ text, texts[subscription]? = some text ∧
      (buffer.consume subscription).1.Takes text buffer.snapshot.visible_text := by
  have hltTexts : subscription < texts.length := List.Forall₂.length_eq h ▸ hlt
  refine ⟨texts[subscription], List.getElem?_eq_getElem hltTexts, ?_⟩
  have htakes := (List.forall₂_iff_get.mp h).2 subscription hlt hltTexts
  have hpatch : (buffer.consume subscription).1 = buffer.subscriptions[subscription] :=
    List.getD_eq_getElem _ _ hlt
  rw [hpatch]
  exact htakes

theorem Acts.of_history {history : History} (hkeeps : ledger.Keeps replica_id { buffer with history }) :
    Acts ledger replica_id buffer { buffer with history } [] ∧ buffer.Reports { buffer with history } :=
  ⟨.quiet hkeeps rfl rfl, reports_of_same rfl rfl⟩

theorem end_transaction_at_acts (h : ledger.Keeps replica_id buffer) {now : Nat}
    {ended : Buffer × Option (Lamport × Global)} (hended : buffer.end_transaction_at now = some ended) :
    Acts ledger replica_id buffer ended.1 [] ∧ buffer.Reports ended.1 := by
  have heq := buffer.end_transaction_at_eq now
  rw [hended, Option.map_some] at heq
  have hdepth : 0 < buffer.history.transaction_depth := by
    by_contra hnot
    have hzero : buffer.history.transaction_depth = 0 := Nat.eq_zero_of_not_pos hnot
    simp [History.close, History.end_transaction, hzero] at heq
  obtain ⟨history, hclose, hcloses⟩ := History.close_spec now hdepth (h.open_entry hdepth)
  rw [hclose, Option.map_some, Option.some.injEq] at heq
  rw [heq]
  apply Acts.of_history
  refine h.of_history h.clock_replica le_rfl ?_ (hcloses.open_entry (h.open_entry hdepth))
    (fun edit_id hedit => Or.inl (hcloses.undo_subset edit_id hedit))
    (fun edit_id hedit => Or.inr (hcloses.redo_subset edit_id hedit))
  rw [hcloses.operations]
  exact h.operations_sorted

theorem Acts.of_coarsens (h : ledger.Keeps replica_id buffer) {undo_stack : List HistoryEntry}
    (hcoarsens : Coarsens buffer.history.undo_stack undo_stack) :
    Acts ledger replica_id buffer { buffer with history := { buffer.history with undo_stack } } [] ∧
      buffer.Reports { buffer with history := { buffer.history with undo_stack } } := by
  apply Acts.of_history
  exact h.of_history h.clock_replica le_rfl h.operations_sorted
    (fun hdepth => hcoarsens.nonempty (h.open_entry hdepth))
    (fun edit_id hedit => Or.inl (hcoarsens.ids.subset hedit)) (fun edit_id hedit => Or.inr hedit)

theorem popped_acts (hlawful : ledger.Lawful) (h : ledger.Keeps replica_id buffer) {entry : HistoryEntry}
    {undo_stack redo_stack : List HistoryEntry} (hdepth : buffer.history.transaction_depth = 0)
    (hids : ∀ edit_id, edit_id ∈ editIds undo_stack ∨ edit_id ∈ editIds redo_stack →
      edit_id ∈ editIds buffer.history.undo_stack ∨ edit_id ∈ editIds buffer.history.redo_stack)
    (hentry : ∀ edit_id ∈ entry.transaction.edit_ids,
      edit_id ∈ editIds undo_stack ∨ edit_id ∈ editIds redo_stack) :
    let popped : Buffer := { buffer with history := { buffer.history with undo_stack, redo_stack } }
    Makes ledger replica_id buffer (popped.undo_or_redo entry.transaction).1
      (popped.undo_or_redo entry.transaction).2 := by
  intro popped
  have hpopped := keeps_of_popped h hdepth hids
  obtain ⟨undo, hop, -, -, hmakes, -⟩ := undo_or_redo_spec hlawful hpopped
    fun edit_id hedit => (hentry edit_id hedit).elim (hpopped.undo_known edit_id) (hpopped.redo_known edit_id)
  rw [hop]
  exact hmakes.of_popped rfl rfl rfl rfl

theorem act_spec (hlawful : ledger.Lawful) (h : ledger.Keeps replica_id buffer) {action : Action}
    {ops made : List Operation} (hops : ∀ op ∈ ops, ∃ record ∈ ledger.records, record.op = op)
    (hallows : buffer.Allows ops action) (hact : buffer.act action = some (after, made)) :
    Acts ledger replica_id buffer after made ∧ ∀ texts, buffer.Tracks texts →
      after.Tracks (action.told buffer.snapshot.visible_text texts) := by
  cases action with
  | start_transaction now =>
    cases hact
    have hstarts := start_transaction_at_spec h now
    exact ⟨.quiet hstarts.keeps hstarts.snapshot hstarts.deferred_ops,
      reports_of_same hstarts.subscriptions (by rw [hstarts.snapshot])⟩
  | end_transaction now =>
    obtain ⟨ended, hended, heq⟩ := Option.map_eq_some_iff.mp hact
    cases heq
    exact end_transaction_at_acts h hended
  | finalize_last_transaction =>
    cases hact
    obtain ⟨undo_stack, heq, hcoarsens⟩ := buffer.history.finalize_last_transaction_spec
    rw [Buffer.finalize_last_transaction, heq]
    exact Acts.of_coarsens h hcoarsens
  | group_until_transaction transaction_id =>
    cases hact
    obtain ⟨undo_stack, heq, hcoarsens⟩ := buffer.history.group_until_spec transaction_id
    rw [Buffer.group_until_transaction, heq]
    exact Acts.of_coarsens h hcoarsens
  | edit edits start_now end_now =>
    obtain ⟨other, op, -, -, hedit, hmakes, -⟩ := edit_spec hlawful h hallows start_now end_now
    obtain ⟨edited, hedited, heq⟩ := Option.map_eq_some_iff.mp hact
    rw [hedit, Option.some.injEq] at hedited
    rw [← hedited] at heq
    cases heq
    exact ⟨.makes _ hmakes, hmakes.reports⟩
  | undo =>
    obtain ⟨undone, hundone, heq⟩ := Option.map_eq_some_iff.mp hact
    by_cases hdepth : buffer.history.transaction_depth = 0
    · obtain ⟨-, hundo⟩ | ⟨entry, rest, hstack, hundo⟩ := undo_spec hdepth
      · rw [hundo, Option.some.injEq] at hundone
        rw [← hundone] at heq
        cases heq
        exact ⟨.quiet h rfl rfl, fun _ htracks => htracks⟩
      · rw [hundo, Option.some.injEq] at hundone
        rw [← hundone] at heq
        cases heq
        have hids : ∀ edit_id, edit_id ∈ editIds rest ∨ edit_id ∈ editIds (entry :: buffer.history.redo_stack) →
            edit_id ∈ editIds buffer.history.undo_stack ∨ edit_id ∈ editIds buffer.history.redo_stack := by
          intro edit_id hin
          rw [hstack, editIds_cons] at *
          simp only [List.mem_append] at *
          tauto
        have hmakes := popped_acts hlawful h hdepth hids fun edit_id hedit =>
          Or.inr (List.mem_append_left (editIds buffer.history.redo_stack) hedit)
        exact ⟨.makes _ hmakes, hmakes.reports⟩
    · rw [(undo_redo_none hdepth).1] at hundone
      cases hundone
  | redo =>
    obtain ⟨redone, hredone, heq⟩ := Option.map_eq_some_iff.mp hact
    by_cases hdepth : buffer.history.transaction_depth = 0
    · obtain ⟨-, hredo⟩ | ⟨entry, rest, hstack, hredo⟩ := redo_spec hdepth
      · rw [hredo, Option.some.injEq] at hredone
        rw [← hredone] at heq
        cases heq
        exact ⟨.quiet h rfl rfl, fun _ htracks => htracks⟩
      · rw [hredo, Option.some.injEq] at hredone
        rw [← hredone] at heq
        cases heq
        have hids : ∀ edit_id, edit_id ∈ editIds (entry :: buffer.history.undo_stack) ∨ edit_id ∈ editIds rest →
            edit_id ∈ editIds buffer.history.undo_stack ∨ edit_id ∈ editIds buffer.history.redo_stack := by
          intro edit_id hin
          rw [hstack, editIds_cons] at *
          simp only [List.mem_append] at *
          tauto
        have hmakes := popped_acts hlawful h hdepth hids fun edit_id hedit =>
          Or.inl (List.mem_append_left (editIds buffer.history.undo_stack) hedit)
        exact ⟨.makes _ hmakes, hmakes.reports⟩
    · rw [(undo_redo_none hdepth).2] at hredone
      cases hredone
  | undo_or_redo transaction =>
    cases hact
    have hknown : ∀ edit_id ∈ transaction.edit_ids, ledger.HasEdit buffer.version edit_id := fun edit_id hedit => by
      obtain ⟨hobserved, edit, hin, rfl⟩ := hallows edit_id hedit
      obtain ⟨record, hmem, heq⟩ := hops _ hin
      have hfind := hlawful.find hmem
      rw [Record.timestamp, heq] at hfind
      exact ⟨hobserved, edit, record, hfind, heq⟩
    obtain ⟨undo, hop, -, -, hmakes, -⟩ := undo_or_redo_spec hlawful h hknown
    rw [hop]
    exact ⟨.makes _ hmakes, hmakes.reports⟩
  | subscribe =>
    cases hact
    exact ⟨.quiet ⟨h.mirrors, h.clock_replica, h.clock_after, h.own, h.operations_sorted, h.open_entry,
      h.undo_known, h.redo_known⟩ rfl rfl, fun texts htracks => htracks.subscribe⟩
  | consume subscription =>
    cases hact
    exact ⟨.quiet ⟨h.mirrors, h.clock_replica, h.clock_after, h.own, h.operations_sorted, h.open_entry,
      h.undo_known, h.redo_known⟩ rfl rfl, fun texts htracks => htracks.consume subscription⟩

end Buffer

end zed.text
