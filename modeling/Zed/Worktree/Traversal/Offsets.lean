import Zed.Worktree.Traversal

namespace zed.worktree

open zed.sum_tree (Bias Dimension SumTree Seeker Cursor seek_while Downward)
open zed.sum_tree.Seeker (progress goes_past Located)

/-- The values that successive calls of `next` return, up to the first `none`. -/
inductive Yields {I T : Type} (next : I → Option (Option T × I)) : I → List T → Prop
  | nil {state rest : I} (hnext : next state = some (none, rest)) : Yields next state []
  | cons {state rest : I} {value : T} {values : List T} (hnext : next state = some (some value, rest))
      (htail : Yields next rest values) : Yields next state (value :: values)

theorem Yields.unique {I T : Type} {next : I → Option (Option T × I)} {state : I} {values others : List T}
    (h : Yields next state values) (hother : Yields next state others) : values = others := by
  induction h generalizing others with
  | nil hnext =>
    cases hother with
    | nil => rfl
    | cons hnext' => cases hnext.symm.trans hnext'
  | cons hnext _ ih =>
    cases hother with
    | nil hnext' => cases hnext.symm.trans hnext'
    | cons hnext' htail =>
      cases hnext.symm.trans hnext'
      rw [ih htail]

/-- What a traversal is for: which entries pass its filter. -/
def included (include_files include_dirs include_ignored : Bool) (entry : Entry) : Bool :=
  (include_files || !entry.is_file) && (include_dirs || !entry.is_dir) &&
    (include_ignored || !entry.is_ignored || entry.is_always_included)

theorem is_dir_eq (entry : Entry) : entry.is_dir = !entry.is_file := by
  cases hkind : entry.kind <;> simp [Entry.is_dir, Entry.is_file, EntryKind.is_dir, EntryKind.is_file, hkind]

theorem progress_concat (passed : List Entry) (entry : Entry) :
    (progress (passed ++ [entry]) : TraversalProgress) = Dimension.add_summary (progress passed) entry.summary := by
  rw [progress, List.foldl_append]
  rfl

@[simp] theorem progress_max_path (passed : List Entry) (entry : Entry) :
    (progress (passed ++ [entry]) : TraversalProgress).max_path = entry.path := by
  rw [progress_concat]
  simp [Dimension.add_summary, Entry.summary]

/-- The counts of a traversal's progress: there are no more files than entries. -/
theorem progress_counts (passed : List Entry) :
    (progress passed : TraversalProgress).file_count ≤ (progress passed : TraversalProgress).count ∧
      (progress passed : TraversalProgress).non_ignored_file_count ≤
        (progress passed : TraversalProgress).non_ignored_count ∧
      ∀ include_files include_dirs include_ignored,
        (progress passed : TraversalProgress).count_included include_files include_dirs include_ignored =
          passed.countP (included include_files include_dirs include_ignored) := by
  induction passed using List.reverseRecOn with
  | nil =>
    refine ⟨le_rfl, le_rfl, fun include_files include_dirs include_ignored => ?_⟩
    cases include_files <;> cases include_dirs <;> cases include_ignored <;> rfl
  | append_singleton passed entry ih =>
    obtain ⟨hfiles, hnon_ignored, hcount⟩ := ih
    rw [progress_concat]
    generalize hp : (progress passed : TraversalProgress) = p at *
    have hdir := is_dir_eq entry
    refine ⟨?_, ?_, fun include_files include_dirs include_ignored => ?_⟩
    · cases hfile : entry.is_file <;> simp [Dimension.add_summary, Entry.summary, hfile] <;> omega
    · cases hfile : entry.is_file <;> simp [Dimension.add_summary, Entry.summary, hfile] <;> omega
    · rw [List.countP_append, ← hcount]
      have hone : [entry].countP (included include_files include_dirs include_ignored) =
          if included include_files include_dirs include_ignored entry then 1 else 0 := by
        simp [List.countP_cons]
      rw [hone]
      cases include_files <;> cases include_dirs <;> cases include_ignored <;> cases hfile : entry.is_file <;>
        cases hignored : entry.is_ignored <;> cases halways : entry.is_always_included <;>
        simp [TraversalProgress.count_included, Dimension.add_summary, Entry.summary, included, hdir, hfile, hignored,
          halways] <;> omega

section Count

variable {include_files include_dirs include_ignored : Bool}

theorem goes_past_count (bias : Bias) (count : Nat) (passed : List Entry) :
    goes_past (TraversalTarget.Count count include_files include_ignored include_dirs).cmp_progress bias passed =
      bias.passes count (passed.countP (included include_files include_dirs include_ignored)) := by
  rw [goes_past, TraversalTarget.cmp_progress, (progress_counts passed).2.2]
  cases hcmp : compare count (passed.countP (included include_files include_dirs include_ignored)) with
  | lt =>
    rw [compare_lt_iff_lt] at hcmp
    cases bias <;> simp [Bias.goes_past, Bias.passes] <;> omega
  | eq =>
    rw [compare_eq_iff_eq] at hcmp
    cases bias <;> simp [Bias.goes_past, Bias.passes] <;> omega
  | gt =>
    rw [compare_gt_iff_gt] at hcmp
    cases bias <;> simp [Bias.goes_past, Bias.passes] <;> omega

theorem downward_count (bias : Bias) (count : Nat) (passed items : List Entry) :
    Downward (goes_past (TraversalTarget.Count count include_files include_ignored include_dirs).cmp_progress bias)
      passed items := by
  intro front middle back _ _ hpasses
  rw [goes_past_count] at hpasses ⊢
  refine zed.sum_tree.Node.Cursor.passes_of_le ?_ hpasses
  simp only [List.countP_append]
  omega

theorem seek_next (passed : List Entry) {entry : Entry} (rest : List Entry)
    (hentry : included include_files include_dirs include_ignored entry = true) :
    seek_while (goes_past (TraversalTarget.Count
        ((passed ++ [entry]).countP (included include_files include_dirs include_ignored) + 1)
        include_files include_ignored include_dirs).cmp_progress .Left) passed (entry :: rest) =
      { passed := passed ++ entry :: rest.takeWhile (fun other => !included include_files include_dirs include_ignored other)
        rest := rest.dropWhile (fun other => !included include_files include_dirs include_ignored other) } := by
  generalize hp : included include_files include_dirs include_ignored = p at *
  have hsplit : entry :: rest = (entry :: rest.takeWhile fun other => !p other) ++ rest.dropWhile fun other => !p other := by
    rw [List.cons_append, List.takeWhile_append_dropWhile]
  conv_lhs => rw [hsplit]
  have hskipped : ∀ front, front <+: (rest.takeWhile fun other => !p other) → front.countP p = 0 := by
    rintro front ⟨back, hback⟩
    rw [List.countP_eq_zero]
    intro other hother
    have hmem : other ∈ rest.takeWhile fun other => !p other := by
      rw [← hback]
      exact List.mem_append_left _ hother
    simpa using List.mem_takeWhile_imp hmem
  refine zed.sum_tree.seek_while_eq (fun front back hfront hne => ?_) (fun item after hafter => ?_)
  · obtain ⟨first, front, rfl⟩ := List.exists_cons_of_ne_nil hne
    rw [List.cons_append] at hfront
    obtain ⟨rfl, htake⟩ := List.cons.inj hfront
    have hzero := hskipped front ⟨back, htake.symm⟩
    rw [goes_past_count, hp]
    simp only [Bias.passes, List.countP_append, List.countP_cons, List.countP_nil, hzero, decide_eq_true_eq]
    omega
  · have hitem : p item = true := by
      have hhead := List.head?_dropWhile_not (fun other => !p other) rest
      rw [hafter] at hhead
      simpa using hhead
    have hzero := hskipped _ (List.prefix_refl _)
    rw [goes_past_count, hp]
    simp only [Bias.passes, List.countP_append, List.countP_cons, List.countP_nil, hzero, hitem, hentry, if_true,
      decide_eq_false_iff_not]
    omega

end Count

variable {entries_by_path : SumTree Entry EntrySummary}

theorem dropWhile_head {α : Type} {p : α → Bool} {items : List α} {item : α}
    (h : item ∈ (items.dropWhile fun other => !p other).head?) : p item = true := by
  have hhead := List.head?_dropWhile_not (fun other => !p other) items
  rw [h] at hhead
  simpa using hhead

theorem filter_dropWhile {α : Type} (p : α → Bool) (items : List α) :
    (items.dropWhile fun item => !p item).filter p = items.filter p := by
  induction items with
  | nil => rfl
  | cons item items ih =>
    cases hitem : p item with
    | true => simp [hitem]
    | false => simpa [hitem] using ih

theorem traversal_yields {traversal : Traversal} {place : Cursor Entry} {p : Entry → Bool}
    (hp : included traversal.include_files traversal.include_dirs traversal.include_ignored = p)
    (hlocated : Located entries_by_path traversal.cursor place) (hfirst : ∀ entry ∈ place.rest.head?, p entry = true) :
    Yields Traversal.next traversal (place.rest.filter p) := by
  obtain ⟨passed, rest⟩ := place
  induction hlength : rest.length using Nat.strong_induction_on generalizing traversal passed rest with
  | _ length ih =>
    subst hlength
    cases rest with
    | nil =>
      have hnext : traversal.next = some (none, traversal) := by
        rw [Traversal.next, Traversal.entry, hlocated.item]
        rfl
      exact Yields.nil hnext
    | cons entry rest =>
      have hentry := hfirst entry rfl
      have hoffset : traversal.end_offset = (passed ++ [entry]).countP p := by
        rw [Traversal.end_offset, hlocated.stop, (progress_counts _).2.2, hp]
        rfl
      let target := TraversalTarget.Count (traversal.end_offset + 1) traversal.include_files traversal.include_ignored
        traversal.include_dirs
      have hahead : target.cmp_progress (progress passed) ≠ .lt := by
        rw [TraversalTarget.cmp_progress, (progress_counts _).2.2, hp, hoffset, List.countP_append, Ne,
          compare_lt_iff_lt]
        omega
      obtain ⟨hit, cursor, hseek, hlocated'⟩ :=
        hlocated.seek_forward target.cmp_progress .Left hahead (downward_count _ _ _ _)
      have hplace := seek_next passed rest (by rw [hp]; exact hentry)
      rw [hp, ← hoffset] at hplace
      rw [hplace] at hlocated'
      have hnext : traversal.next = some (some entry, { traversal with cursor }) := by
        rw [Traversal.next, Traversal.entry, hlocated.item]
        change (traversal.advance >>= fun found => some (some entry, found.2)) = _
        rw [Traversal.advance, Traversal.advance_by, hseek]
        rfl
      rw [List.filter_cons_of_pos hentry, ← filter_dropWhile]
      refine Yields.cons hnext (ih _ ?_ ?_ (passed ++ entry :: rest.takeWhile fun other => !p other) _ ?_ ?_ rfl)
      · have hle := List.length_dropWhile_le (fun other => !p other) rest
        rw [List.length_cons]
        omega
      · exact hp
      · exact hlocated'
      · exact fun next hnext' => dropWhile_head hnext'

theorem traverse_from_offset_yields (include_files include_dirs include_ignored : Bool) (start_offset : Nat) :
    ∃ traversal, traverse_from_offset entries_by_path include_files include_dirs include_ignored start_offset =
        some traversal ∧
      Yields Traversal.next traversal
        ((entries_by_path.items.filter (included include_files include_dirs include_ignored)).drop start_offset) := by
  generalize hp : included include_files include_dirs include_ignored = p
  let target := TraversalTarget.Count start_offset include_files include_ignored include_dirs
  have hahead : target.cmp_progress Dimension.zero ≠ .lt := by
    have hzero := (progress_counts []).2.2 include_files include_dirs include_ignored
    change compare start_offset (TraversalProgress.count_included (progress ([] : List Entry)) _ _ _) ≠ _
    rw [hzero, Ne, compare_lt_iff_lt]
    simp
  let start : Seeker Entry EntrySummary TraversalProgress := Seeker.new entries_by_path.node
  have hroot : start.tree = entries_by_path.node := rfl
  obtain ⟨hit, cursor, hseek, hlocated⟩ :=
    zed.sum_tree.Seeker.seek_located hroot target.cmp_progress .Right hahead (downward_count _ _ _ _)
  have hstart : traverse_from_offset entries_by_path include_files include_dirs include_ignored start_offset =
      some { cursor, include_files, include_dirs, include_ignored } := by
    change (start.seek target.cmp_progress .Right >>= fun found => some _) = _
    rw [hseek]
    rfl
  refine ⟨_, hstart, ?_⟩
  have hpassed := @zed.sum_tree.seek_while_passed Entry (goes_past target.cmp_progress .Right) [] entries_by_path.items
  have hstops := fun item rest => @zed.sum_tree.seek_while_stops Entry (goes_past target.cmp_progress .Right) []
    entries_by_path.items item rest
  generalize hplace : seek_while (goes_past target.cmp_progress .Right) [] entries_by_path.items = place at *
  simp only [target, goes_past_count, hp] at hpassed hstops
  have hbefore : place.passed.countP p ≤ start_offset := by
    rcases hpassed with hnil | hle
    · simp [hnil]
    · simpa [Bias.passes] using hle
  have hyields : (∀ entry ∈ place.rest.head?, p entry = true) → Yields Traversal.next
      { cursor, include_files, include_dirs, include_ignored } (place.rest.filter p) := traversal_yields hp hlocated
  rw [← hlocated.items, List.filter_append]
  cases hrest : place.rest with
  | nil =>
    rw [hrest] at hyields
    rw [List.filter_nil, List.append_nil, List.drop_eq_nil_of_le (by rwa [← List.countP_eq_length_filter])]
    exact hyields fun entry hentry => absurd hentry (Option.not_mem_none _)
  | cons entry rest =>
    have hstop := hstops entry rest hrest
    rw [Bias.passes, decide_eq_false_iff_not, List.countP_append, List.countP_singleton] at hstop
    have hentry : p entry = true := by
      by_contra hnot
      rw [if_neg hnot] at hstop
      omega
    rw [if_pos hentry] at hstop
    have hcount : (place.passed.filter p).length = start_offset := by
      rw [← List.countP_eq_length_filter]
      omega
    rw [List.drop_left' hcount, ← hrest]
    refine hyields fun first hfirst => ?_
    rw [hrest] at hfirst
    cases hfirst
    exact hentry

end zed.worktree
