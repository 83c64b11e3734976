import Zed.BufferDiff.Pending

namespace zed.buffer_diff

open zed.sum_tree (Cursor)

section Lists

variable {α : Type} {p : α → Bool} {items : List α}

theorem takeWhile_eq_filter (h : items.Pairwise fun a b => p b = true → p a = true) :
    items.takeWhile p = items.filter p := by
  induction items with
  | nil => rfl
  | cons x items ih =>
    obtain ⟨hfirst, hrest⟩ := List.pairwise_cons.mp h
    cases hx : p x with
    | true => rw [List.takeWhile_cons_of_pos hx, List.filter_cons_of_pos hx, ih hrest]
    | false =>
      rw [List.takeWhile_cons_of_neg (by simp [hx]), List.filter_cons_of_neg (by simp [hx])]
      refine (List.filter_eq_nil_iff.mpr fun y hy hpass => ?_).symm
      rw [hfirst y hy hpass] at hx
      cases hx

theorem dropWhile_eq_filter (h : items.Pairwise fun a b => p b = true → p a = true) :
    items.dropWhile p = items.filter fun x => !p x := by
  induction items with
  | nil => rfl
  | cons x items ih =>
    obtain ⟨hfirst, hrest⟩ := List.pairwise_cons.mp h
    cases hx : p x with
    | true => rw [List.dropWhile_cons_of_pos hx, List.filter_cons_of_neg (by simp [hx]), ih hrest]
    | false =>
      rw [List.dropWhile_cons_of_neg (by simp [hx])]
      refine (List.filter_eq_self.mpr fun y hy => ?_).symm
      rcases List.mem_cons.mp hy with rfl | hin
      · simp [hx]
      · cases hpass : p y with
        | true =>
          rw [hfirst y hin hpass] at hx
          cases hx
        | false => rfl

theorem filter_append_filter (h : items.Pairwise fun a b => p b = true → p a = true) :
    items.filter p ++ (items.filter fun x => !p x) = items := by
  rw [← takeWhile_eq_filter h, ← dropWhile_eq_filter h, List.takeWhile_append_dropWhile]

end Lists

variable {A V : Type} [LinearOrder A] [BoundedOrder A]

/-- Hunks that are sorted by their ranges, and do not overlap. -/
structure Normal (hunks : List (PendingHunk A V)) : Prop where
  ranges : ∀ hunk ∈ hunks, hunk.buffer_range.start ≤ hunk.buffer_range.stop
  apart : hunks.Pairwise fun a b => a.buffer_range.stop ≤ b.buffer_range.start

def Meets (a b : Range A) : Prop := a.start ≤ b.stop ∧ b.start ≤ a.stop

theorem Normal.sublist {hunks part : List (PendingHunk A V)} (h : Normal hunks) (hpart : part.Sublist hunks) :
    Normal part :=
  ⟨fun hunk hmem => h.ranges hunk (hpart.subset hmem), h.apart.sublist hpart⟩

theorem Normal.tail {hunk : PendingHunk A V} {hunks : List (PendingHunk A V)} (h : Normal (hunk :: hunks)) :
    Normal hunks :=
  h.sublist (List.sublist_cons_self hunk hunks)

theorem Normal.stops {hunks : List (PendingHunk A V)} (h : Normal hunks) :
    hunks.Pairwise fun a b => a.buffer_range.stop ≤ b.buffer_range.stop :=
  h.apart.imp_of_mem fun _ hb hle => hle.trans (h.ranges _ hb)

theorem Normal.starts {hunks : List (PendingHunk A V)} (h : Normal hunks) :
    hunks.Pairwise fun a b => a.buffer_range.start ≤ b.buffer_range.start :=
  h.apart.imp_of_mem fun ha _ hle => (h.ranges _ ha).trans hle

section Seeking

/-- A cursor whose hunks still to come all end after what it has passed. -/
def Placed (cursor : Cursor (PendingHunk A V)) : Prop :=
  (position cursor).buffer_range.start = ⊥ ∧
    ∀ hunk ∈ cursor.rest, (position cursor).buffer_range.stop ≤ hunk.buffer_range.stop

theorem Placed.new (hunks : List (PendingHunk A V)) : Placed (Cursor.new hunks) :=
  ⟨rfl, fun _ _ => bot_le⟩

theorem Placed.pass {passed slice rest : List (PendingHunk A V)} (h : Placed ⟨passed, slice ++ rest⟩)
    (hnormal : Normal (slice ++ rest)) : Placed ⟨passed ++ slice, rest⟩ := by
  induction slice generalizing passed with
  | nil => rwa [List.append_nil]
  | cons hunk slice ih =>
    have hstep : Placed ⟨passed ++ [hunk], slice ++ rest⟩ := by
      have hposition : position ⟨passed ++ [hunk], slice ++ rest⟩ =
          (position ⟨passed, hunk :: (slice ++ rest)⟩).add_summary hunk.summary := by
        rw [position, position, List.foldl_append]
        rfl
      refine ⟨?_, fun later hlater => ?_⟩
      · rw [hposition]
        exact min_eq_left (h.1 ▸ bot_le) |>.trans h.1
      · rw [hposition]
        exact max_le (h.2 later (List.mem_cons_of_mem _ hlater))
          ((List.pairwise_cons.mp hnormal.stops).1 later hlater)
    have hrest := ih hstep hnormal.tail
    rwa [List.append_assoc, List.singleton_append] at hrest

theorem slice_from_eq {target : A} {start : DiffHunkSummary A} {hunks : List (PendingHunk A V)} (hnormal : Normal hunks)
    (hstart : start.buffer_range.start = ⊥)
    (hstop : ∀ hunk ∈ hunks, start.buffer_range.stop ≤ hunk.buffer_range.stop) :
    slice_from target .Left start hunks =
      (hunks.takeWhile fun hunk => decide (hunk.buffer_range.stop < target),
        hunks.dropWhile fun hunk => decide (hunk.buffer_range.stop < target)) := by
  induction hunks generalizing start with
  | nil => rfl
  | cons hunk hunks ih =>
    have hadded : (start.add_summary hunk.summary).buffer_range = ⟨⊥, hunk.buffer_range.stop⟩ := by
      have hmin : min start.buffer_range.start hunk.buffer_range.start = ⊥ := by rw [hstart, bot_inf_eq]
      have hmax : max start.buffer_range.stop hunk.buffer_range.stop = hunk.buffer_range.stop :=
        max_eq_right (hstop hunk List.mem_cons_self)
      rw [DiffHunkSummary.add_summary]
      simp only [PendingHunk.summary, hmin, hmax]
    have hcmp : DiffHunkSummary.seek_cmp target (start.add_summary hunk.summary) = .gt ↔
        hunk.buffer_range.stop < target := by
      rw [DiffHunkSummary.seek_cmp, hadded, if_neg not_lt_bot]
      simp only [gt_iff_lt]
      split <;> simp_all
    rw [slice_from]
    simp only [hcmp, reduceCtorEq, and_false, or_false]
    by_cases hpass : hunk.buffer_range.stop < target
    · have hrest := @ih (start.add_summary hunk.summary) hnormal.tail (by rw [hadded])
        (fun later hlater => by
          rw [hadded]
          exact (List.pairwise_cons.mp hnormal.stops).1 later hlater)
      rw [if_pos hpass, hrest]
      simp only [List.takeWhile_cons, List.dropWhile_cons, hpass, decide_true, if_true]
    · rw [if_neg hpass]
      simp only [List.takeWhile_cons, List.dropWhile_cons, hpass, decide_false, Bool.false_eq_true, if_false]

theorem slice_eq {cursor : Cursor (PendingHunk A V)} {target : A} (hplaced : Placed cursor) (hnormal : Normal cursor.rest) :
    slice cursor target .Left =
      (cursor.rest.filter fun hunk => decide (hunk.buffer_range.stop < target),
        { passed := cursor.passed ++ cursor.rest.filter fun hunk => decide (hunk.buffer_range.stop < target)
          rest := cursor.rest.filter fun hunk => !decide (hunk.buffer_range.stop < target) }) := by
  have hfails : cursor.rest.Pairwise fun a b =>
      decide (b.buffer_range.stop < target) = true → decide (a.buffer_range.stop < target) = true :=
    hnormal.stops.imp fun hle hlt => decide_eq_true (hle.trans_lt (of_decide_eq_true hlt))
  rw [slice, slice_from_eq hnormal hplaced.1 hplaced.2, takeWhile_eq_filter hfails, dropWhile_eq_filter hfails]

theorem drop_overlapping_eq (hunk_end : A) (passed rest : List (PendingHunk A V)) (changed : Changed A)
    (hnormal : Normal rest) :
    drop_overlapping hunk_end passed rest changed =
      ({ passed := passed ++ rest.filter fun hunk => decide (hunk.buffer_range.start ≤ hunk_end)
         rest := rest.filter fun hunk => !decide (hunk.buffer_range.start ≤ hunk_end) },
        (rest.filter fun hunk => decide (hunk.buffer_range.start ≤ hunk_end)).foldl
          (fun changed hunk => extend_changed_range changed hunk.buffer_range hunk.diff_base_byte_range) changed) := by
  have hfails : rest.Pairwise fun a b =>
      decide (b.buffer_range.start ≤ hunk_end) = true → decide (a.buffer_range.start ≤ hunk_end) = true :=
    hnormal.starts.imp fun hle hbefore => decide_eq_true (hle.trans (of_decide_eq_true hbefore))
  rw [← takeWhile_eq_filter hfails, ← dropWhile_eq_filter hfails]
  clear hfails hnormal
  induction rest generalizing passed changed with
  | nil => rw [drop_overlapping, List.takeWhile_nil, List.dropWhile_nil, List.append_nil, List.foldl_nil]
  | cons hunk rest ih =>
    rw [drop_overlapping]
    by_cases hafter : hunk.buffer_range.start > hunk_end
    · rw [if_pos hafter, List.takeWhile_cons_of_neg (by simpa using hafter),
        List.dropWhile_cons_of_neg (by simpa using hafter), List.append_nil, List.foldl_nil]
    · have hle : decide (hunk.buffer_range.start ≤ hunk_end) = true := decide_eq_true (not_lt.mp hafter)
      rw [if_neg hafter, ih]
      simp only [List.takeWhile_cons, List.dropWhile_cons, hle, if_true, List.foldl_cons, List.append_assoc,
        List.singleton_append]

end Seeking

section Covering

/-- A change covers a range of the buffer. -/
def Covers (changed : Changed A) (range : Range A) : Prop :=
  ∃ start stop, changed.changed_start = some start ∧ changed.changed_end = some stop ∧ start ≤ range.start ∧
    range.stop ≤ stop

variable {changed : Changed A} {range : Range A}

theorem covers_extend (changed : Changed A) (range : Range A) (base_range : Range Nat) :
    Covers (extend_changed_range changed range base_range) range := by
  refine ⟨_, _, rfl, rfl, ?_, ?_⟩
  · split
    · exact le_rfl
    · exact min_le_right _ _
  · split
    · exact le_rfl
    · exact le_max_right _ _

theorem Covers.extend (h : Covers changed range) (other : Range A) (base_range : Range Nat) :
    Covers (extend_changed_range changed other base_range) range := by
  obtain ⟨start, stop, hstart, hstop, hle, hge⟩ := h
  refine ⟨_, _, rfl, rfl, ?_, ?_⟩
  · rw [hstart]
    exact (min_le_left _ _).trans hle
  · rw [hstop]
    exact hge.trans (le_max_left _ _)

theorem Covers.foldl (h : Covers changed range) (hunks : List (PendingHunk A V)) :
    Covers (hunks.foldl (fun changed hunk => extend_changed_range changed hunk.buffer_range hunk.diff_base_byte_range)
      changed) range := by
  induction hunks generalizing changed with
  | nil => exact h
  | cons hunk hunks ih => exact ih (h.extend _ _)

theorem covers_foldl (changed : Changed A) {hunk : PendingHunk A V} {hunks : List (PendingHunk A V)} (h : hunk ∈ hunks) :
    Covers (hunks.foldl (fun changed hunk => extend_changed_range changed hunk.buffer_range hunk.diff_base_byte_range)
      changed) hunk.buffer_range := by
  induction hunks generalizing changed with
  | nil => cases h
  | cons first hunks ih =>
    rcases List.mem_cons.mp h with rfl | hin
    · exact (covers_extend changed _ _).foldl hunks
    · exact ih _ hin

end Covering

/-- New hunks as they are set: each has its ends in order, and they are sorted by their starts. -/
structure SortedByStart (hunks : List (PendingHunk A V)) : Prop where
  ranges : ∀ hunk ∈ hunks, hunk.buffer_range.start ≤ hunk.buffer_range.stop
  starts : hunks.Pairwise fun a b => a.buffer_range.start ≤ b.buffer_range.start

theorem Normal.sorted {hunks : List (PendingHunk A V)} (h : Normal hunks) : SortedByStart hunks := ⟨h.ranges, h.starts⟩

/-- What comes of old hunks when new ones are set. -/
structure Merged (hunks rest merged : List (PendingHunk A V)) (changed changed' : Changed A) : Prop where
  mem : ∀ hunk, hunk ∈ merged ↔
    hunk ∈ hunks ∨ (hunk ∈ rest ∧ ∀ other ∈ hunks, ¬ Meets hunk.buffer_range other.buffer_range)
  normal : Normal hunks → Normal merged
  keeps : ∀ range, Covers changed range → Covers changed' range
  set : ∀ hunk ∈ hunks, Covers changed' hunk.buffer_range
  removed : ∀ hunk ∈ rest, (∃ other ∈ hunks, Meets hunk.buffer_range other.buffer_range) →
    Covers changed' hunk.buffer_range

theorem merge_pending_spec {hunks : List (PendingHunk A V)} (hsorted : SortedByStart hunks)
    (new_pending : List (PendingHunk A V)) {old : Cursor (PendingHunk A V)} (hplaced : Placed old)
    (hnormal : Normal old.rest) (changed : Changed A) :
    ∃ merged changed', merge_pending hunks new_pending old changed = (new_pending ++ merged, changed') ∧
      Merged hunks old.rest merged changed changed' := by
  induction hunks generalizing new_pending old changed with
  | nil =>
    refine ⟨old.rest, changed, rfl, fun hunk => ?_, fun _ => hnormal, fun _ h => h, by simp, by simp⟩
    simp
  | cons hunk hunks ih =>
    obtain ⟨hfirst, hstarts⟩ := List.pairwise_cons.mp hsorted.starts
    have hrange := hsorted.ranges hunk List.mem_cons_self
    have hends : old.rest.Pairwise fun a b => decide (b.buffer_range.stop < hunk.buffer_range.start) = true →
        decide (a.buffer_range.stop < hunk.buffer_range.start) = true :=
      hnormal.stops.imp fun hle hlt => decide_eq_true (hle.trans_lt (of_decide_eq_true hlt))
    rw [merge_pending, slice_eq hplaced hnormal]
    simp only
    set before := old.rest.filter fun other => decide (other.buffer_range.stop < hunk.buffer_range.start) with hbefore
    set after := old.rest.filter fun other => !decide (other.buffer_range.stop < hunk.buffer_range.start) with hafter
    have hsplit : before ++ after = old.rest := filter_append_filter hends
    have hnormal_after : Normal after := hnormal.sublist List.filter_sublist
    have hbegins : after.Pairwise fun a b => decide (b.buffer_range.start ≤ hunk.buffer_range.stop) = true →
        decide (a.buffer_range.start ≤ hunk.buffer_range.stop) = true :=
      hnormal_after.starts.imp fun hle hbegin => decide_eq_true (hle.trans (of_decide_eq_true hbegin))
    rw [drop_overlapping_eq _ _ _ _ hnormal_after]
    simp only
    set dropped := after.filter fun other => decide (other.buffer_range.start ≤ hunk.buffer_range.stop) with hdropped
    set left := after.filter fun other => !decide (other.buffer_range.start ≤ hunk.buffer_range.stop) with hleft
    have hsplit_after : dropped ++ left = after := filter_append_filter hbegins
    have hplaced_after : Placed ⟨old.passed ++ before, after⟩ := by
      refine Placed.pass ?_ ?_
      · rw [hsplit]
        exact hplaced
      · rwa [hsplit]
    have hplaced_left : Placed ⟨old.passed ++ before ++ dropped, left⟩ := by
      refine Placed.pass ?_ ?_
      · rwa [hsplit_after]
      · rwa [hsplit_after]
    have hnormal_left : Normal left := hnormal_after.sublist List.filter_sublist
    set changed_dropped := dropped.foldl
      (fun changed hunk => extend_changed_range changed hunk.buffer_range hunk.diff_base_byte_range) changed
      with hchanged_dropped
    obtain ⟨merged, changed', hmerge, hmerged⟩ := ih ⟨fun other hmem => hsorted.ranges other (List.mem_cons_of_mem _ hmem),
      hstarts⟩ (new_pending ++ before ++ [hunk]) hplaced_left hnormal_left
      (extend_changed_range changed_dropped hunk.buffer_range hunk.diff_base_byte_range)
    have hmem_before : ∀ other, other ∈ before ↔
        other ∈ old.rest ∧ other.buffer_range.stop < hunk.buffer_range.start := fun other => by
      rw [hbefore, List.mem_filter, decide_eq_true_iff]
    have hmem_left : ∀ other, other ∈ left ↔ other ∈ old.rest ∧
        ¬ other.buffer_range.stop < hunk.buffer_range.start ∧
        ¬ other.buffer_range.start ≤ hunk.buffer_range.stop := fun other => by
      rw [hleft, List.mem_filter, hafter, List.mem_filter, Bool.not_eq_true', decide_eq_false_iff_not,
        Bool.not_eq_true', decide_eq_false_iff_not, and_assoc]
    have hkept : ∀ range, Covers changed range → Covers changed' range := fun range hcovers =>
      hmerged.keeps range ((hcovers.foldl dropped).extend _ _)
    refine ⟨before ++ hunk :: merged, changed', ?_, fun other => ?_, fun hapart => ?_, hkept, fun other hmem => ?_,
      fun other hother hmeets => ?_⟩
    · rw [hmerge]
      simp only [List.append_assoc, List.singleton_append]
    · rw [List.mem_append, List.mem_cons, hmerged.mem, hmem_before, hmem_left, List.mem_cons]
      constructor
      · rintro (⟨hrest, hlt⟩ | rfl | hin | ⟨⟨hrest, -, hgt⟩, hnone⟩)
        · refine Or.inr ⟨hrest, fun new hnew hmeets => absurd hmeets.2 (not_le.mpr ?_)⟩
          rcases List.mem_cons.mp hnew with rfl | hin
          · exact hlt
          · exact hlt.trans_le (hfirst new hin)
        · exact Or.inl (Or.inl rfl)
        · exact Or.inl (Or.inr hin)
        · refine Or.inr ⟨hrest, fun new hnew => ?_⟩
          rcases List.mem_cons.mp hnew with rfl | hin
          · exact fun hmeets => hgt hmeets.1
          · exact hnone new hin
      · rintro ((rfl | hin) | ⟨hrest, hnone⟩)
        · exact Or.inr (Or.inl rfl)
        · exact Or.inr (Or.inr (Or.inl hin))
        · by_cases hlt : other.buffer_range.stop < hunk.buffer_range.start
          · exact Or.inl ⟨hrest, hlt⟩
          · have hgt : ¬ other.buffer_range.start ≤ hunk.buffer_range.stop := fun hle =>
              hnone hunk List.mem_cons_self ⟨hle, not_lt.mp hlt⟩
            exact Or.inr (Or.inr (Or.inr ⟨⟨hrest, hlt, hgt⟩, fun new hnew => hnone new (List.mem_cons_of_mem _ hnew)⟩))
    · have hnew := List.pairwise_cons.mp hapart.apart
      have htail := hmerged.normal hapart.tail
      have hlater : ∀ other ∈ merged, hunk.buffer_range.stop ≤ other.buffer_range.start := fun other hother => by
        rcases (hmerged.mem other).mp hother with hin | ⟨hin, -⟩
        · exact hnew.1 other hin
        · exact (not_le.mp ((hmem_left other).mp hin).2.2).le
      refine ⟨fun other hother => ?_, List.pairwise_append.mpr ⟨(hnormal.sublist List.filter_sublist).apart,
        List.pairwise_cons.mpr ⟨hlater, htail.apart⟩, fun other hother later hin => ?_⟩⟩
      · rcases List.mem_append.mp hother with hin | hin
        · exact hnormal.ranges other ((hmem_before other).mp hin).1
        · rcases List.mem_cons.mp hin with rfl | hin
          · exact hrange
          · exact htail.ranges other hin
      · have hlt := ((hmem_before other).mp hother).2
        rcases List.mem_cons.mp hin with rfl | hin
        · exact hlt.le
        · exact (hlt.le.trans hrange).trans (hlater later hin)
    · rcases List.mem_cons.mp hmem with rfl | hin
      · exact hmerged.keeps _ (covers_extend _ _ _)
      · exact hmerged.set other hin
    · by_cases hin : other ∈ dropped
      · exact hmerged.keeps _ ((covers_foldl changed hin).extend _ _)
      · obtain ⟨new, hnew, hmeets_new⟩ := hmeets
        rcases List.mem_cons.mp hnew with rfl | hnew_in
        · refine absurd ?_ hin
          rw [hdropped, List.mem_filter, hafter, List.mem_filter]
          exact ⟨⟨hother, by simpa using hmeets_new.2⟩, by simpa using hmeets_new.1⟩
        · have hge : ¬ other.buffer_range.stop < hunk.buffer_range.start := fun hlt =>
            absurd hmeets_new.2 (not_le.mpr (hlt.trans_le (hfirst new hnew_in)))
          have hgt : ¬ other.buffer_range.start ≤ hunk.buffer_range.stop := fun hle => hin (by
            rw [hdropped, List.mem_filter, hafter, List.mem_filter]
            exact ⟨⟨hother, by simpa using hge⟩, by simpa using hle⟩)
          exact hmerged.removed other ((hmem_left other).mpr ⟨hother, hge, hgt⟩) ⟨new, hnew_in, hmeets_new⟩

end zed.buffer_diff
