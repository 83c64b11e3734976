import Zed.Text.Network.Earlier

namespace zed.text

open zed.clock zed.rope

namespace Ledger

def Alive (ledger : Ledger) (version : Global) (edit_id : Lamport) : Prop :=
  version.observed edit_id = true ∧ ¬ ledger.UndoneAt version edit_id

variable {ledger : Ledger} {snapshot earlier : BufferSnapshot} {record : Record}

/-- What a version knows inserts or deletes text only as an edit, or as the base text. -/
theorem hasEdit_of_payload {version : Global} {id : AtomId} (hmember : ledger.Member version id) :
    ledger.HasEdit version id.1 ∨ ledger.find id.1 = none ∧ ledger.base ≠ [] ∧ id.1 = baseTimestamp := by
  obtain ⟨hobserved, hlt⟩ := hmember
  unfold payload at hlt
  cases hfind : ledger.find id.1 with
  | none =>
    rw [hfind] at hlt
    refine .inr ⟨rfl, ?_⟩
    by_cases hbase : id.1 = baseTimestamp
    · refine ⟨?_, hbase⟩
      rintro hempty
      simp [hbase, hempty] at hlt
    · simp [hbase] at hlt
  | some record =>
    rw [hfind] at hlt
    refine .inl ⟨hobserved, ?_⟩
    cases hop : record.op with
    | Edit edit => exact ⟨edit, record, hfind, hop⟩
    | Undo undo => simp [Record.payload, hop] at hlt

theorem hasEdit_of_deletes {version : Global} {deletion : Lamport} {id : AtomId}
    (hobserved : version.observed deletion = true) (hdeletes : ledger.Deletes deletion id) :
    ledger.HasEdit version deletion := by
  obtain ⟨record, hfind, -, hhit⟩ := hdeletes
  refine ⟨hobserved, ?_⟩
  cases hop : record.op with
  | Edit edit => exact ⟨edit, record, hfind, hop⟩
  | Undo undo => simp [Record.cuts, hop, zed.replicated.hit] at hhit

theorem not_undoneAt_base (hlawful : ledger.Lawful) {timestamp : Lamport} (hfind : ledger.find timestamp = none)
    (version : Global) : ¬ ledger.UndoneAt version timestamp := by
  refine not_undoneAt fun undo_id count _ hcounts => ?_
  obtain ⟨record, hrecord, hcount⟩ := hcounts
  obtain ⟨hmem, -⟩ := mem_of_find hrecord
  obtain ⟨-, edit, other, hother, -⟩ := (hlawful.admits record hmem).undone timestamp count hcount
  rw [hfind] at hother
  cases hother

/-- Versions at which the same edits are alive see the same of what they both have. -/
theorem visibleAt_iff (hlawful : ledger.Lawful) {now then' : Global} (hthen : ledger.Consistent then')
    (hall : now.observed_all then' = true)
    (halive : ∀ edit_id, ledger.HasEdit now edit_id → (ledger.Alive then' edit_id ↔ ledger.Alive now edit_id))
    (id : AtomId) : ledger.VisibleAt then' id ↔ ledger.VisibleAt now id := by
  have hdead : ∀ deletion, now.observed deletion = true → ledger.Deletes deletion id →
      ((then'.observed deletion = true → ledger.UndoneAt then' deletion) ↔ ledger.UndoneAt now deletion) := by
    intro deletion hobserved hdeletes
    have hiff := not_congr (halive deletion (hasEdit_of_deletes hobserved hdeletes))
    rw [Alive, Alive, not_and_not_right, not_and_not_right] at hiff
    rw [hiff]
    exact ⟨fun h => h hobserved, fun h _ => h⟩
  have hdeletions : (∀ deletion, then'.observed deletion = true → ledger.Deletes deletion id →
      ledger.UndoneAt then' deletion) ↔
      ∀ deletion, now.observed deletion = true → ledger.Deletes deletion id → ledger.UndoneAt now deletion := by
    constructor
    · intro h deletion hobserved hdeletes
      exact (hdead deletion hobserved hdeletes).mp fun hthen' => h deletion hthen' hdeletes
    · intro h deletion hobserved hdeletes
      have hnow := Global.observed_of_observed_all hall hobserved
      exact (hdead deletion hnow hdeletes).mpr (h deletion hnow hdeletes) hobserved
  have hinsertion : ledger.Member now id →
      (ledger.Alive then' id.1 ↔ ledger.Alive now id.1) := by
    intro hmember
    obtain hedit | ⟨hfind, hbase, htimestamp⟩ := hasEdit_of_payload hmember
    · exact halive id.1 hedit
    · exact ⟨fun _ => ⟨hmember.1, not_undoneAt_base hlawful hfind now⟩,
        fun _ => ⟨htimestamp ▸ hthen.base hbase, not_undoneAt_base hlawful hfind then'⟩⟩
  unfold VisibleAt
  rw [← and_assoc, ← and_assoc]
  refine and_congr ?_ hdeletions
  constructor
  · intro ⟨hmember, hnot⟩
    have hnow : ledger.Member now id := ⟨Global.observed_of_observed_all hall hmember.1, hmember.2⟩
    exact ⟨hnow, ((hinsertion hnow).mp ⟨hmember.1, hnot⟩).2⟩
  · intro ⟨hmember, hnot⟩
    have hthen' := (hinsertion hmember).mpr ⟨hmember.1, hnot⟩
    exact ⟨⟨hthen'.1, hmember.2⟩, hthen'.2⟩

theorem Mirrors.text_of_alive (hlawful : ledger.Lawful) (h : ledger.Mirrors snapshot)
    (hearlier : ledger.Mirrors earlier) (hall : snapshot.version.observed_all earlier.version = true)
    (halive : ∀ edit_id, ledger.HasEdit snapshot.version edit_id →
      (ledger.Alive earlier.version edit_id ↔ ledger.Alive snapshot.version edit_id)) :
    snapshot.visible_text = earlier.visible_text := by
  rw [← h.was_bytes hlawful hearlier hall, h.store.visible_text, visibleBytes, Gauge.bytes]
  congr 1
  apply List.filter_congr
  intro atom hatom
  have hwas := h.was_visible hall hatom
  change _ = atom.was_visible earlier.version snapshot.undo_map
  rw [Bool.eq_iff_iff, hwas, h.visible atom hatom]
  exact (visibleAt_iff hlawful hearlier.version hall halive atom.id).symm

end Ledger

end zed.text

namespace zed.text

open zed.clock zed.rope

variable {ledger : Ledger} {replica_id : Nat} {buffer after : Buffer} {op : Operation}

namespace Buffer.Makes

variable (h : Makes ledger replica_id buffer after op) (hkeeps : ledger.Keeps replica_id buffer)

include h hkeeps

theorem observed_iff {timestamp : Lamport} (hknown : (ledger.push (buffer.snapshot.authored op)).Known timestamp) :
    after.version.observed timestamp = true ↔ buffer.version.observed timestamp = true ∨ timestamp = op.timestamp := by
  rw [h.version]
  refine h.lawful.observe_iff Ledger.mem_push (hkeeps.mirrors.version.push h.fresh) ?_ hknown
  change buffer.version.observed_all op.version = true
  rw [h.seen]
  exact Global.observed_all_refl _

omit hkeeps in
theorem observed_all : after.version.observed_all buffer.version = true := by
  rw [h.version]
  exact Global.observe_observed_all _ _

theorem find_of_observed {timestamp : Lamport} (hobserved : buffer.version.observed timestamp = true) :
    (ledger.push (buffer.snapshot.authored op)).find timestamp = ledger.find timestamp :=
  hkeeps.mirrors.version.push_frame h.fresh hobserved

theorem hasEdit_iff {edit_id : Lamport} :
    (ledger.push (buffer.snapshot.authored op)).HasEdit after.version edit_id ↔
      ledger.HasEdit buffer.version edit_id ∨ edit_id = op.timestamp ∧ ∃ edit, op = .Edit edit := by
  have hself : (ledger.push (buffer.snapshot.authored op)).find op.timestamp = some (buffer.snapshot.authored op) :=
    Ledger.push_find_self h.fresh
  constructor
  · rintro ⟨hobserved, edit, other, hfind, hop⟩
    obtain hold | rfl := (h.observed_iff hkeeps (Ledger.known_of_find hfind)).mp hobserved
    · rw [h.find_of_observed hkeeps hold] at hfind
      exact .inl ⟨hold, edit, other, hfind, hop⟩
    · rw [hself] at hfind
      cases hfind
      exact .inr ⟨rfl, edit, hop⟩
  · rintro (hedit | ⟨rfl, edit, hop⟩)
    · exact hedit.push h.fresh hkeeps.mirrors.version (h.observed_all)
    · refine ⟨?_, edit, _, hself, hop⟩
      rw [h.version]
      exact Global.observe_observed_self _ _

omit hkeeps in
theorem retains {snapshot : BufferSnapshot} (hmirrors : ledger.Mirrors snapshot) :
    (ledger.push (buffer.snapshot.authored op)).Mirrors snapshot :=
  hmirrors.push h.fresh

theorem undoneAt_of_edit {edit : EditOperation} (hop : op = .Edit edit) (edit_id : Lamport) :
    (ledger.push (buffer.snapshot.authored op)).UndoneAt after.version edit_id ↔
      ledger.UndoneAt buffer.version edit_id := by
  apply Ledger.undoneAt_congr
  intro undo_id count
  constructor
  · rintro ⟨hobserved, other, hfind, hcounts⟩
    obtain hold | rfl := (h.observed_iff hkeeps (Ledger.known_of_find hfind)).mp hobserved
    · rw [h.find_of_observed hkeeps hold] at hfind
      exact ⟨hold, other, hfind, hcounts⟩
    · have hself : (ledger.push (buffer.snapshot.authored op)).find op.timestamp = some (buffer.snapshot.authored op) :=
        Ledger.push_find_self h.fresh
      rw [hself] at hfind
      cases hfind
      simp [BufferSnapshot.authored, Record.Counts, hop] at hcounts
  · rintro ⟨hobserved, other, hfind, hcounts⟩
    refine ⟨Global.observed_of_observed_all (h.observed_all) hobserved, other, ?_, hcounts⟩
    rw [h.find_of_observed hkeeps hobserved]
    exact hfind

end Buffer.Makes

/-- What a transaction's start saw: a snapshot whose text was recorded, at which
    of the edits that are known now exactly the given ones were in effect. -/
def Marks (ledger : Ledger) (version : Global) (starts : List (Lamport × Rope)) (id : Lamport)
    (effective : List Lamport) : Prop :=
  ∃ snapshot, ledger.Mirrors snapshot ∧ version.observed_all snapshot.version = true ∧
    (id, snapshot.visible_text) ∈ starts ∧
    ∀ edit_id, ledger.HasEdit version edit_id → (ledger.Alive snapshot.version edit_id ↔ edit_id ∈ effective)

/-- The edits in effect are those of the undo stack. An entry of a stack saw, when it was
    started, those that will be in effect when it is undone: on the undo stack those
    below it, on the redo stack those above it too. -/
structure Effects (ledger : Ledger) (version : Global) (history : History) (starts : List (Lamport × Rope)) : Prop where
  alive : ∀ edit_id, ledger.HasEdit version edit_id →
    (¬ ledger.UndoneAt version edit_id ↔ edit_id ∈ editIds history.undo_stack)
  distinct : (editIds history.undo_stack ++ editIds history.redo_stack).Nodup
  known : ∀ edit_id ∈ editIds history.undo_stack ++ editIds history.redo_stack, ledger.HasEdit version edit_id
  undo : ∀ above entry below, history.undo_stack = above ++ entry :: below →
    Marks ledger version starts entry.transaction.id (editIds below)
  redo : (0 < history.transaction_depth ∧ ∃ top rest, history.undo_stack = top :: rest ∧
      top.transaction.edit_ids ≠ []) ∨
    ∀ above entry below, history.redo_stack = above ++ entry :: below →
      Marks ledger version starts entry.transaction.id (editIds above ++ editIds history.undo_stack)

variable {version : Global} {history : History} {starts : List (Lamport × Rope)} {id : Lamport}
  {effective effective' : List Lamport}

theorem Marks.congr (h : Marks ledger version starts id effective)
    (hsame : ∀ edit_id, edit_id ∈ effective ↔ edit_id ∈ effective') : Marks ledger version starts id effective' := by
  obtain ⟨snapshot, hmirrors, hall, hstarts, halive⟩ := h
  refine ⟨snapshot, hmirrors, hall, hstarts, fun edit_id hedit => ?_⟩
  rw [← hsame]
  exact halive edit_id hedit

theorem Marks.mono {starts' : List (Lamport × Rope)} (h : Marks ledger version starts id effective) (hstarts : starts ⊆ starts') :
    Marks ledger version starts' id effective := by
  obtain ⟨snapshot, hmirrors, hall, hmem, halive⟩ := h
  exact ⟨snapshot, hmirrors, hall, hstarts hmem, halive⟩

/-- A later operation does not change what a transaction's start saw. -/
theorem Marks.push (h : Marks ledger buffer.version starts id effective)
    (hmakes : Buffer.Makes ledger replica_id buffer after op) (hkeeps : ledger.Keeps replica_id buffer)
    (hnew : op.timestamp ∉ effective) :
    Marks (ledger.push (buffer.snapshot.authored op)) after.version starts id effective := by
  obtain ⟨snapshot, hmirrors, hall, hstarts, halive⟩ := h
  refine ⟨snapshot, hmakes.retains hmirrors, Global.observed_all_trans (hmakes.observed_all) hall, hstarts, ?_⟩
  intro edit_id hedit
  unfold Ledger.Alive
  rw [hmirrors.version.push_undoneAt hmakes.fresh]
  obtain hold | ⟨rfl, -⟩ := (hmakes.hasEdit_iff hkeeps).mp hedit
  · exact halive edit_id hold
  · have hnot : snapshot.version.observed op.timestamp = false := hmakes.fresh.not_observed hmirrors.version
    simp [hnot, hnew]

theorem mem_editIds_cons {entry : HistoryEntry} {stack : List HistoryEntry} {edit_id : Lamport} :
    edit_id ∈ editIds (entry :: stack) ↔ edit_id ∈ entry.transaction.edit_ids ∨ edit_id ∈ editIds stack := by
  rw [editIds_cons, List.mem_append]

namespace Effects

variable {history' : History} {entry : HistoryEntry} {rest : List HistoryEntry}

theorem mono {starts' : List (Lamport × Rope)} (h : Effects ledger version history starts) (hstarts : starts ⊆ starts') :
    Effects ledger version history starts' := by
  refine ⟨h.alive, h.distinct, h.known, ?_, ?_⟩
  · intro above entry below hsplit
    exact (h.undo above entry below hsplit).mono hstarts
  · refine h.redo.imp_right fun hredo above entry below hsplit => ?_
    exact (hredo above entry below hsplit).mono hstarts

theorem of_stacks (h : Effects ledger version history starts) (hundo : history'.undo_stack = history.undo_stack)
    (hredo : history'.redo_stack = history.redo_stack)
    (hdepth : 0 < history.transaction_depth → 0 < history'.transaction_depth) :
    Effects ledger version history' starts := by
  refine ⟨?_, ?_, ?_, ?_, ?_⟩
  · rw [hundo]
    exact h.alive
  · rw [hundo, hredo]
    exact h.distinct
  · rw [hundo, hredo]
    exact h.known
  · rw [hundo]
    exact h.undo
  · rw [hundo, hredo]
    exact h.redo.imp_left fun hopen => ⟨hdepth hopen.1, hopen.2⟩

theorem start (h : Effects ledger buffer.version history starts) (hkeeps : ledger.Keeps replica_id buffer)
    (hdepth : history.transaction_depth = 0) (hempty : entry.transaction.edit_ids = [])
    (hstarts : (entry.transaction.id, buffer.snapshot.visible_text) ∈ starts) :
    Effects ledger buffer.version
      { history with transaction_depth := 1, undo_stack := entry :: history.undo_stack } starts := by
  have hids : editIds (entry :: history.undo_stack) = editIds history.undo_stack := by
    rw [editIds_cons, hempty, List.nil_append]
  refine ⟨?_, ?_, ?_, ?_, .inr ?_⟩
  · rw [hids]
    exact h.alive
  · rw [hids]
    exact h.distinct
  · rw [hids]
    exact h.known
  · intro above other below hsplit
    cases above with
    | nil =>
      obtain ⟨rfl, rfl⟩ : entry = other ∧ history.undo_stack = below := by simpa using hsplit
      refine ⟨buffer.snapshot, hkeeps.mirrors, Global.observed_all_refl _, hstarts, fun edit_id hedit => ?_⟩
      rw [← h.alive edit_id hedit]
      exact and_iff_right hedit.1
    | cons first above =>
      obtain ⟨rfl, hrest⟩ : entry = first ∧ history.undo_stack = above ++ other :: below := by simpa using hsplit
      exact h.undo above other below hrest
  · rw [hids]
    obtain ⟨hopen, -⟩ | hredo := h.redo
    · omega
    · exact hredo

theorem coarsens {undo_stack : List HistoryEntry} (h : Effects ledger version history starts)
    (hcoarsens : Coarsens history.undo_stack undo_stack) :
    Effects ledger version { history with undo_stack } starts := by
  have hmem : ∀ edit_id, edit_id ∈ editIds undo_stack ↔ edit_id ∈ editIds history.undo_stack :=
    fun edit_id => hcoarsens.ids.mem_iff
  refine ⟨?_, ?_, ?_, ?_, ?_⟩
  · intro edit_id hedit
    rw [hmem]
    exact h.alive edit_id hedit
  · exact (hcoarsens.ids.append_right _).nodup_iff.mpr h.distinct
  · intro edit_id hedit
    exact h.known edit_id ((hcoarsens.ids.append_right _).subset hedit)
  · intro above entry below hsplit
    obtain ⟨above', entry', below', hsplit', hid, hperm⟩ := hcoarsens.entries above entry below hsplit
    have hafter : editIds undo_stack = editIds (above ++ [entry]) ++ editIds below := by
      rw [← editIds_append, ← List.append_cons]
      exact congrArg editIds hsplit
    have hbefore : editIds history.undo_stack = editIds (above' ++ [entry']) ++ editIds below' := by
      rw [← editIds_append, ← List.append_cons, hsplit']
    have htotal := hcoarsens.ids
    rw [hafter, hbefore] at htotal
    have hbelow := (List.perm_append_left_iff _).mp (htotal.trans (hperm.symm.append_right _))
    rw [hid]
    exact (h.undo above' entry' below' hsplit').congr fun edit_id => hbelow.mem_iff.symm
  · refine h.redo.imp ?_ ?_
    · rintro ⟨hdepth, top, rest, hstack, hedits⟩
      refine ⟨hdepth, ?_⟩
      obtain ⟨top', rest', hstack'⟩ := List.exists_cons_of_ne_nil (hcoarsens.nonempty (by simp [hstack]))
      obtain ⟨above, entry, below, hsplit, -, hperm⟩ := hcoarsens.entries [] top' rest' hstack'
      refine ⟨top', rest', hstack', fun hnil => hedits ?_⟩
      rw [List.nil_append, editIds_cons, hnil] at hperm
      have hnone : editIds (above ++ [entry]) = [] := List.nil_perm.mp hperm
      apply List.eq_nil_iff_forall_not_mem.mpr
      intro edit_id hedit
      have hsome : edit_id ∈ editIds (above ++ [entry]) := by
        cases above with
        | nil =>
          obtain ⟨rfl, -⟩ : top = entry ∧ rest = below := by simpa [hstack] using hsplit
          exact mem_editIds_cons.mpr (.inl hedit)
        | cons first above =>
          obtain ⟨rfl, -⟩ : top = first ∧ rest = above ++ entry :: below := by simpa [hstack] using hsplit
          exact mem_editIds_cons.mpr (.inl hedit)
      rw [hnone] at hsome
      exact absurd hsome List.not_mem_nil
    · intro hredo above entry below hsplit
      refine (hredo above entry below hsplit).congr fun edit_id => ?_
      rw [List.mem_append, List.mem_append, hmem]

/-- A transaction ends. -/
theorem closes {closed : History} (h : Effects ledger version history starts) (hcloses : history.Closes closed) :
    Effects ledger version closed starts := by
  cases hcloses with
  | inner depth hdepth => exact h.of_stacks rfl rfl fun _ => Nat.succ_pos _
  | empty entry undo_stack hdepth hstack hempty =>
    have hids : editIds history.undo_stack = editIds undo_stack := by
      rw [hstack, editIds_cons, hempty, List.nil_append]
    refine ⟨hids ▸ h.alive, hids ▸ h.distinct, hids ▸ h.known, ?_, .inr ?_⟩
    · intro above other below hsplit
      refine h.undo (entry :: above) other below ?_
      change undo_stack = _ at hsplit
      rw [hstack, hsplit]
      rfl
    · obtain ⟨-, top, rest, htop, hedits⟩ | hredo := h.redo
      · obtain ⟨rfl, -⟩ : entry = top ∧ undo_stack = rest := by simpa [hstack] using htop
        exact absurd hempty hedits
      · exact hids ▸ hredo
  | edits entry rest undo_stack hdepth hstack hedits hcoarsens =>
    have hmerged := h.coarsens hcoarsens
    refine ⟨hmerged.alive, ?_, ?_, hmerged.undo, .inr ?_⟩
    · exact (List.nodup_append.mp hmerged.distinct).1.append List.nodup_nil (List.disjoint_nil_right _)
    · intro edit_id hedit
      refine hmerged.known edit_id (List.mem_append_left _ ?_)
      simpa [editIds] using hedit
    · intro above other below hsplit
      simp at hsplit

/-- The edits of the stacks are older than the next operation. -/
theorem ne_of_mem (h : Effects ledger buffer.version history starts) (hkeeps : ledger.Keeps replica_id buffer)
    (hfresh : ledger.Fresh op.timestamp) {edit_id : Lamport}
    (hedit : edit_id ∈ editIds history.undo_stack ++ editIds history.redo_stack) : edit_id ≠ op.timestamp :=
  hfresh.ne_of_observed hkeeps.mirrors.version (h.known edit_id hedit).1

/-- An edit is made in an open transaction. -/
theorem edit {edit : EditOperation} (h : Effects ledger buffer.version history starts) (hlawful : ledger.Lawful)
    (hkeeps : ledger.Keeps replica_id buffer) (hmakes : Buffer.Makes ledger replica_id buffer after (.Edit edit))
    (hdepth : 0 < history.transaction_depth) (hstack : history.undo_stack = entry :: rest)
    (edited : HistoryEntry) (hid : edited.transaction.id = entry.transaction.id)
    (hedits : edited.transaction.edit_ids = entry.transaction.edit_ids ++ [edit.timestamp]) :
    Effects (ledger.push (buffer.snapshot.authored (.Edit edit))) after.version
      { history with undo_stack := edited :: rest } starts := by
  have hold : ∀ edit_id ∈ editIds history.undo_stack ++ editIds history.redo_stack, edit_id ≠ edit.timestamp :=
    fun edit_id hedit => h.ne_of_mem hkeeps hmakes.fresh hedit
  have hmem : ∀ edit_id, edit_id ∈ editIds (edited :: rest) ↔
      edit_id ∈ editIds history.undo_stack ∨ edit_id = edit.timestamp := by
    intro edit_id
    rw [hstack, mem_editIds_cons, mem_editIds_cons, hedits, List.mem_append, List.mem_singleton]
    tauto
  refine ⟨?_, ?_, ?_, ?_, .inl ⟨hdepth, edited, rest, rfl, by simp [hedits]⟩⟩
  · intro edit_id hedit
    rw [hmem, hmakes.undoneAt_of_edit hkeeps rfl]
    obtain hedit | ⟨rfl, -⟩ := (hmakes.hasEdit_iff hkeeps).mp hedit
    · have hne : edit_id ≠ edit.timestamp := hmakes.fresh.ne_of_observed hkeeps.mirrors.version hedit.1
      rw [or_iff_left hne]
      exact h.alive edit_id hedit
    · refine iff_of_true ?_ (.inr rfl)
      have hnot := hmakes.fresh.not_observed hkeeps.mirrors.version
      exact Ledger.not_undoneAt fun undo_id count hobserved =>
        hkeeps.mirrors.not_counts hlawful hnot hobserved
  · have hperm : (editIds (edited :: rest) ++ editIds history.redo_stack).Perm
        (edit.timestamp :: (editIds history.undo_stack ++ editIds history.redo_stack)) := by
      rw [hstack, editIds_cons, editIds_cons, hedits]
      simp
    refine hperm.nodup_iff.mpr (List.nodup_cons.mpr ⟨fun hin => hold _ hin rfl, h.distinct⟩)
  · intro edit_id hedit
    refine (hmakes.hasEdit_iff hkeeps).mpr ?_
    rw [List.mem_append, hmem, or_right_comm, ← List.mem_append] at hedit
    exact hedit.imp (h.known edit_id) fun heq => ⟨heq, edit, rfl⟩
  · intro above other below hsplit
    have hbelow : ∀ {above'}, history.undo_stack = above' ++ other :: below →
        Marks (ledger.push (buffer.snapshot.authored (.Edit edit))) after.version starts other.transaction.id
          (editIds below) := by
      intro above' hsplit'
      refine (h.undo above' other below hsplit').push hmakes hkeeps fun hin => hold _ (List.mem_append_left _ ?_) rfl
      rw [hsplit', editIds_append]
      exact List.mem_append_right _ (mem_editIds_cons.mpr (.inr hin))
    cases above with
    | nil =>
      obtain ⟨rfl, rfl⟩ : edited = other ∧ rest = below := by simpa using hsplit
      rw [hid]
      refine (h.undo [] entry rest hstack).push hmakes hkeeps fun hin => hold _ (List.mem_append_left _ ?_) rfl
      rw [hstack, mem_editIds_cons]
      exact .inr hin
    | cons first above =>
      obtain ⟨rfl, hrest⟩ : edited = first ∧ rest = above ++ other :: below := by simpa using hsplit
      exact hbelow (by rw [hstack, hrest, List.cons_append])

section flip

/-- The operation of an undo or a redo, which undoes what of these edits was in effect,
    and puts what was undone in effect. -/
structure Flips (ledger : Ledger) (replica_id : Nat) (buffer after : Buffer) (op : Operation)
    (edit_ids : List Lamport) : Prop where
  makes : Buffer.Makes ledger replica_id buffer after op
  undo : ∃ undo, op = .Undo undo
  flips : ∀ edit_id, ledger.HasEdit buffer.version edit_id →
    ((ledger.push (buffer.snapshot.authored op)).UndoneAt after.version edit_id ↔
      if edit_id ∈ edit_ids then ¬ ledger.UndoneAt buffer.version edit_id
      else ledger.UndoneAt buffer.version edit_id)

variable (h : Effects ledger buffer.version history starts) (hkeeps : ledger.Keeps replica_id buffer)
  (hflips : Flips ledger replica_id buffer after op entry.transaction.edit_ids)

include hkeeps in
theorem Flips.hasEdit_iff {edit_ids : List Lamport} (hflips : Flips ledger replica_id buffer after op edit_ids)
    {edit_id : Lamport} : (ledger.push (buffer.snapshot.authored op)).HasEdit after.version edit_id ↔
      ledger.HasEdit buffer.version edit_id := by
  obtain ⟨undo, hop⟩ := hflips.undo
  rw [hflips.makes.hasEdit_iff hkeeps]
  refine or_iff_left ?_
  rintro ⟨-, edit, hedit⟩
  rw [hop] at hedit
  cases hedit

include h hkeeps hflips

theorem undone (hdepth : history.transaction_depth = 0) (hstack : history.undo_stack = entry :: rest) :
    Effects (ledger.push (buffer.snapshot.authored op)) after.version
      { history with undo_stack := rest, redo_stack := entry :: history.redo_stack } starts := by
  have hperm : (editIds rest ++ editIds (entry :: history.redo_stack)).Perm
      (editIds history.undo_stack ++ editIds history.redo_stack) := by
    rw [hstack, editIds_cons, editIds_cons, ← List.append_assoc]
    exact List.perm_append_comm.append_right _
  have hold : ∀ edit_id, edit_id ∈ editIds history.undo_stack ∨ edit_id ∈ editIds history.redo_stack →
      edit_id ≠ op.timestamp :=
    fun edit_id hedit => h.ne_of_mem hkeeps hflips.makes.fresh (List.mem_append.mpr hedit)
  have hdistinct := h.distinct
  rw [hstack, editIds_cons, List.append_assoc, List.nodup_append] at hdistinct
  refine ⟨?_, hperm.nodup_iff.mpr h.distinct, ?_, ?_, .inr ?_⟩
  · intro edit_id hedit
    have hedit' := (hflips.hasEdit_iff hkeeps).mp hedit
    have halive := h.alive edit_id hedit'
    rw [hstack, mem_editIds_cons] at halive
    rw [hflips.flips edit_id hedit']
    split
    · next hin =>
      have hnot : edit_id ∉ editIds rest :=
        fun hrest => hdistinct.2.2 edit_id hin edit_id (List.mem_append_left _ hrest) rfl
      exact iff_of_false (fun hundone => hundone (halive.mpr (.inl hin))) hnot
    · next hnot =>
      rw [or_iff_right hnot] at halive
      exact halive
  · intro edit_id hedit
    exact (hflips.hasEdit_iff hkeeps).mpr (h.known edit_id (hperm.subset hedit))
  · intro above other below hsplit
    have hsplit' : history.undo_stack = (entry :: above) ++ other :: below := by
      change rest = _ at hsplit
      rw [hstack, hsplit, List.cons_append]
    refine (h.undo _ other below hsplit').push hflips.makes hkeeps fun hin => hold _ (.inl ?_) rfl
    rw [hsplit', editIds_append]
    exact List.mem_append_right _ (mem_editIds_cons.mpr (.inr hin))
  · intro above other below hsplit
    cases above with
    | nil =>
      obtain ⟨rfl, -⟩ : entry = other ∧ history.redo_stack = below := by simpa using hsplit
      refine (h.undo [] entry rest hstack).push hflips.makes hkeeps fun hin => hold _ (.inl ?_) rfl
      rw [hstack, mem_editIds_cons]
      exact .inr hin
    | cons first above =>
      obtain ⟨rfl, hredo⟩ : entry = first ∧ history.redo_stack = above ++ other :: below := by simpa using hsplit
      obtain ⟨hopen, -⟩ | hright := h.redo
      · omega
      have hmarks := (hright above other below hredo).push hflips.makes hkeeps fun hin => hold _ (by
        rw [hredo, editIds_append]
        obtain hin | hin := List.mem_append.mp hin
        · exact .inr (List.mem_append_left _ hin)
        · exact .inl hin) rfl
      refine hmarks.congr fun edit_id => ?_
      rw [List.mem_append, List.mem_append, hstack, mem_editIds_cons, mem_editIds_cons]
      tauto

theorem redone (hdepth : history.transaction_depth = 0) (hstack : history.redo_stack = entry :: rest) :
    Effects (ledger.push (buffer.snapshot.authored op)) after.version
      { history with redo_stack := rest, undo_stack := entry :: history.undo_stack } starts := by
  have hperm : (editIds (entry :: history.undo_stack) ++ editIds rest).Perm
      (editIds history.undo_stack ++ editIds history.redo_stack) := by
    rw [hstack, editIds_cons, editIds_cons, ← List.append_assoc]
    exact List.perm_append_comm.append_right _
  have hold : ∀ edit_id, edit_id ∈ editIds history.undo_stack ∨ edit_id ∈ editIds history.redo_stack →
      edit_id ≠ op.timestamp :=
    fun edit_id hedit => h.ne_of_mem hkeeps hflips.makes.fresh (List.mem_append.mpr hedit)
  have hdistinct := h.distinct
  rw [hstack, List.nodup_append] at hdistinct
  obtain ⟨hopen, -⟩ | hright := h.redo
  · omega
  refine ⟨?_, hperm.nodup_iff.mpr h.distinct, ?_, ?_, .inr ?_⟩
  · intro edit_id hedit
    have hedit' := (hflips.hasEdit_iff hkeeps).mp hedit
    have halive := h.alive edit_id hedit'
    rw [hflips.flips edit_id hedit', mem_editIds_cons]
    split
    · next hin =>
      refine iff_of_true (not_not.mpr ?_) (.inl hin)
      by_contra hnot
      exact hdistinct.2.2 edit_id (halive.mp hnot) edit_id (mem_editIds_cons.mpr (.inl hin)) rfl
    · next hnot =>
      rw [or_iff_right hnot]
      exact halive
  · intro edit_id hedit
    exact (hflips.hasEdit_iff hkeeps).mpr (h.known edit_id (hperm.subset hedit))
  · intro above other below hsplit
    cases above with
    | nil =>
      obtain ⟨rfl, rfl⟩ : entry = other ∧ history.undo_stack = below := by simpa using hsplit
      exact (hright [] entry rest hstack).push hflips.makes hkeeps fun hin => hold _ (.inl hin) rfl
    | cons first above =>
      obtain ⟨rfl, hundo⟩ : entry = first ∧ history.undo_stack = above ++ other :: below := by simpa using hsplit
      refine (h.undo above other below hundo).push hflips.makes hkeeps fun hin => hold _ (.inl ?_) rfl
      rw [hundo, editIds_append]
      exact List.mem_append_right _ (mem_editIds_cons.mpr (.inr hin))
  · intro above other below hsplit
    have hsplit' : history.redo_stack = (entry :: above) ++ other :: below := by
      change rest = _ at hsplit
      rw [hstack, hsplit, List.cons_append]
    have hmarks := (hright _ other below hsplit').push hflips.makes hkeeps fun hin => hold _ (by
      rw [hsplit', editIds_append]
      obtain hin | hin := List.mem_append.mp hin
      · exact .inr (List.mem_append_left _ hin)
      · exact .inl hin) rfl
    refine hmarks.congr fun edit_id => ?_
    rw [List.mem_append, List.mem_append, mem_editIds_cons, mem_editIds_cons]
    tauto

end flip

end Effects

end zed.text
