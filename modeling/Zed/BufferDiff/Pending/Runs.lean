import Zed.BufferDiff.Pending.Normal
import Zed.Text.Anchor.Order

namespace zed.text.Ledger

variable {ledger : Ledger} {snapshot : BufferSnapshot}

theorem Mirrors.exists_rank (h : ledger.Mirrors snapshot) :
    ∃ rank : Anchor → Locator ×ₗ (ℕ ×ₗ ℕ), ∀ a b : Anchor, a.Resolvable ledger.payload snapshot →
      b.Resolvable ledger.payload snapshot → a.cmp b snapshot = some (compare (rank a) (rank b)) ∧
        ∃ offset offset', snapshot.offset_for_anchor a = some offset ∧ snapshot.offset_for_anchor b = some offset' ∧
          (rank a ≤ rank b → offset ≤ offset') := by
  have hfind : ∀ anchor : Anchor, ∃ fragment_id : Locator, anchor.Resolvable ledger.payload snapshot →
      ∃ offset, ledger.Finds snapshot anchor fragment_id offset := fun anchor => by
    by_cases hanchor : anchor.Resolvable ledger.payload snapshot
    · obtain ⟨fragment_id, offset, hfinds⟩ := h.finds hanchor
      exact ⟨fragment_id, fun _ => ⟨offset, hfinds⟩⟩
    · exact ⟨Locator.min, fun hresolvable => absurd hresolvable hanchor⟩
  choose fragment_id hfinds using hfind
  refine ⟨fun anchor => anchor.rank (fragment_id anchor), fun a b ha hb => ?_⟩
  obtain ⟨offset, hfinds_a⟩ := hfinds a ha
  obtain ⟨offset', hfinds_b⟩ := hfinds b hb
  refine ⟨hfinds_a.cmp_eq h hfinds_b ha.1 hb.1, offset, offset', hfinds_a.offset_for_anchor h,
    hfinds_b.offset_for_anchor h, fun hle => hfinds_a.offset_le h hfinds_b hle⟩

end zed.text.Ledger

namespace zed.buffer_diff

variable {A V : Type} [LinearOrder A] [BoundedOrder A]

/-- A call that changes the pending hunks. -/
inductive Call (A V : Type)
  | set (hunks : List (PendingHunk A V))
  | clear

def Call.Allowed : Call A V → Prop
  | .set hunks => Normal hunks
  | .clear => True

def Call.apply (self : BufferDiff A V) : Call A V → BufferDiff A V
  | .set hunks => (set_pending_hunks self hunks).1
  | .clear => (clear_pending_hunks self).1

def run (self : BufferDiff A V) (calls : List (Call A V)) : BufferDiff A V := calls.foldl Call.apply self

/-- What a call sets and removes, and what it reports. -/
structure Sets (hunks pending_hunks new_pending : List (PendingHunk A V)) (event : Option (DiffChanged A)) : Prop where
  normal : Normal new_pending
  mem : ∀ hunk, hunk ∈ new_pending ↔
    hunk ∈ hunks ∨ (hunk ∈ pending_hunks ∧ ∀ other ∈ hunks, ¬ Meets hunk.buffer_range other.buffer_range)
  reported : hunks ≠ [] → event ≠ none
  covered : ∀ changed, event = some changed → ∃ range, changed.changed_range = some range ∧ ∀ hunk,
    hunk ∈ hunks ∨ (hunk ∈ pending_hunks ∧ ∃ other ∈ hunks, Meets hunk.buffer_range other.buffer_range) →
      range.start ≤ hunk.buffer_range.start ∧ hunk.buffer_range.stop ≤ range.stop

theorem set_pending_hunks_spec {hunks pending_hunks : List (PendingHunk A V)} (hhunks : Normal hunks)
    (hpending : Normal pending_hunks) :
    ∃ new_pending event, set_pending_hunks ⟨some pending_hunks⟩ hunks = (⟨some new_pending⟩, event) ∧
      Sets hunks pending_hunks new_pending event := by
  by_cases hempty : hunks = []
  · subst hempty
    exact ⟨pending_hunks, none, if_pos rfl, hpending, by simp, by simp, by simp⟩
  obtain ⟨merged, changed, hmerge, hmerged⟩ := merge_pending_spec hhunks.sorted [] (Placed.new pending_hunks) hpending
    ⟨none, none, usize.MAX, 0⟩
  obtain ⟨hunk, hhunk⟩ := List.exists_mem_of_ne_nil hunks hempty
  obtain ⟨start, stop, hstart, hstop, -, -⟩ := hmerged.set hunk hhunk
  rw [set_pending_hunks, if_neg hempty]
  simp only [hmerge, hstart, hstop, List.nil_append]
  refine ⟨merged, _, rfl, hmerged.normal hhunks, hmerged.mem, by simp, fun event hevent => ?_⟩
  obtain rfl := Option.some.inj hevent
  refine ⟨⟨start, stop⟩, rfl, fun other hother => ?_⟩
  have hcovers : Covers changed other.buffer_range := by
    rcases hother with hin | ⟨hin, hmeets⟩
    · exact hmerged.set other hin
    · exact hmerged.removed other hin hmeets
  obtain ⟨start', stop', hstart', hstop', hle, hge⟩ := hcovers
  rw [hstart] at hstart'
  rw [hstop] at hstop'
  obtain rfl := Option.some.inj hstart'
  obtain rfl := Option.some.inj hstop'
  exact ⟨hle, hge⟩

theorem clear_pending_hunks_spec {pending_hunks : List (PendingHunk A V)} (hpending : Normal pending_hunks) :
    ∃ event, clear_pending_hunks ⟨some pending_hunks⟩ = (⟨some []⟩, event) ∧
      (pending_hunks ≠ [] → event ≠ none) ∧ ∀ changed, event = some changed → ∃ range,
        changed.changed_range = some range ∧ ∀ hunk ∈ pending_hunks,
          range.start ≤ hunk.buffer_range.start ∧ hunk.buffer_range.stop ≤ range.stop := by
  cases pending_hunks with
  | nil => exact ⟨none, rfl, by simp, by simp⟩
  | cons first hunks =>
    obtain ⟨before, last, hlast⟩ := (List.eq_nil_or_concat (first :: hunks)).resolve_left (List.cons_ne_nil _ _)
    rw [List.concat_eq_append] at hlast
    have hget : (first :: hunks).getLast? = some last := by rw [hlast, List.getLast?_concat]
    refine ⟨_, by rw [clear_pending_hunks]; simp only [List.head?_cons, hget]; rfl, by simp, fun changed hchanged => ?_⟩
    obtain rfl := Option.some.inj hchanged
    refine ⟨_, rfl, fun hunk hhunk => ⟨?_, ?_⟩⟩
    · rcases List.mem_cons.mp hhunk with rfl | hin
      · exact le_rfl
      · exact (List.pairwise_cons.mp hpending.starts).1 hunk hin
    · have hstops := hpending.stops
      rw [hlast] at hhunk hstops
      rcases List.mem_append.mp hhunk with hin | hin
      · exact (List.pairwise_append.mp hstops).2.2 hunk hin last (List.mem_singleton_self last)
      · rw [List.mem_singleton.mp hin]

theorem run_normal {calls : List (Call A V)} (hcalls : ∀ call ∈ calls, call.Allowed)
    {pending_hunks : List (PendingHunk A V)} (hpending : Normal pending_hunks) :
    ∃ new_pending, run ⟨some pending_hunks⟩ calls = ⟨some new_pending⟩ ∧ Normal new_pending := by
  induction calls generalizing pending_hunks with
  | nil => exact ⟨pending_hunks, rfl, hpending⟩
  | cons call calls ih =>
    obtain ⟨hcall, hrest⟩ := List.forall_mem_cons.mp hcalls
    have hstep : ∃ new_pending, call.apply ⟨some pending_hunks⟩ = ⟨some new_pending⟩ ∧ Normal new_pending := by
      cases call with
      | set hunks =>
        obtain ⟨new_pending, event, hset, hsets⟩ := set_pending_hunks_spec hcall hpending
        exact ⟨new_pending, congrArg Prod.fst hset, hsets.normal⟩
      | clear =>
        obtain ⟨event, hclear, -⟩ := clear_pending_hunks_spec hpending
        exact ⟨[], congrArg Prod.fst hclear, by simp, List.Pairwise.nil⟩
    obtain ⟨new_pending, happly, hnormal⟩ := hstep
    rw [run, List.foldl_cons, happly]
    exact ih hrest hnormal

/-- After any calls the pending hunks are sorted and apart. A further call sets its hunks, removes exactly
    the old ones that meet one of them, and reports a range around all that it adds or removes. -/
theorem pending_hunks_stay_normal {calls : List (Call A V)} (hcalls : ∀ call ∈ calls, call.Allowed) :
    ∃ pending_hunks, run ⟨some []⟩ calls = ⟨some pending_hunks⟩ ∧ Normal pending_hunks ∧
      (∀ hunks, Normal hunks → ∃ new_pending event,
        set_pending_hunks ⟨some pending_hunks⟩ hunks = (⟨some new_pending⟩, event) ∧
          Sets hunks pending_hunks new_pending event) ∧
      ∃ event, clear_pending_hunks ⟨some pending_hunks⟩ = (⟨some []⟩, event) ∧
        (pending_hunks ≠ [] → event ≠ none) ∧ ∀ changed, event = some changed → ∃ range,
          changed.changed_range = some range ∧ ∀ hunk ∈ pending_hunks,
            range.start ≤ hunk.buffer_range.start ∧ hunk.buffer_range.stop ≤ range.stop := by
  obtain ⟨pending_hunks, hrun, hnormal⟩ := run_normal hcalls (⟨by simp, List.Pairwise.nil⟩ : Normal [])
  exact ⟨pending_hunks, hrun, hnormal, fun hunks hhunks => set_pending_hunks_spec hhunks hnormal,
    clear_pending_hunks_spec hnormal⟩

theorem pending_hunks_stay_normal_sample :
    ∃ pending_hunks : List (PendingHunk (Fin 9) Unit),
      run ⟨some []⟩ [.set [⟨⟨2, 4⟩, ⟨2, 4⟩, (), .Suppress⟩], .clear] = ⟨some pending_hunks⟩ ∧ Normal pending_hunks ∧
      (∀ hunks, Normal hunks → ∃ new_pending event,
        set_pending_hunks ⟨some pending_hunks⟩ hunks = (⟨some new_pending⟩, event) ∧
          Sets hunks pending_hunks new_pending event) ∧
      ∃ event, clear_pending_hunks ⟨some pending_hunks⟩ = (⟨some []⟩, event) ∧
        (pending_hunks ≠ [] → event ≠ none) ∧ ∀ changed, event = some changed → ∃ range,
          changed.changed_range = some range ∧ ∀ hunk ∈ pending_hunks,
            range.start ≤ hunk.buffer_range.start ∧ hunk.buffer_range.stop ≤ range.stop := by
  refine pending_hunks_stay_normal fun call hcall => ?_
  rcases List.mem_pair.mp hcall with rfl | rfl
  · exact ⟨by simp, List.pairwise_singleton _ _⟩
  · trivial

/-- Hunks that are sorted by their starts may still overlap, and are set as they are. -/
theorem overlapping_hunks_set :
    ∃ hunks new_pending : List (PendingHunk (Fin 11) Unit), SortedByStart hunks ∧
      (set_pending_hunks ⟨some []⟩ hunks).1 = ⟨some new_pending⟩ ∧ ¬ Normal new_pending := by
  refine ⟨[⟨⟨0, 10⟩, ⟨0, 10⟩, (), .Suppress⟩, ⟨⟨2, 3⟩, ⟨2, 3⟩, (), .Suppress⟩],
    [⟨⟨0, 10⟩, ⟨0, 10⟩, (), .Suppress⟩, ⟨⟨2, 3⟩, ⟨2, 3⟩, (), .Suppress⟩], ⟨by simp, by simp⟩, rfl, fun hnormal => ?_⟩
  have hle := (List.pairwise_cons.mp hnormal.apart).1 _ (List.mem_singleton_self _)
  exact absurd hle (by decide)

end zed.buffer_diff
