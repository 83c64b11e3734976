import Zed.ActionLog

namespace zed.action_log

open zed.rope zed.rope.Rope zed.text
/-- A user's edit meets the rows of an agent's edit. Touching is enough only
    where the agent's edit leaves no rows. -/
def Intersects (new_edit old_edit : Edit) : Prop :=
  if old_edit.new.is_empty then old_edit.new.start ≤ new_edit.old.stop ∧ new_edit.old.start ≤ old_edit.new.stop
  else old_edit.new.start < new_edit.old.stop ∧ new_edit.old.start < old_edit.new.stop

instance (new_edit old_edit : Edit) : Decidable (Intersects new_edit old_edit) := by
  unfold Intersects
  infer_instance

def Conflicts (patch : Patch) (edit : Edit) : Prop := ∃ old_edit ∈ patch, Intersects edit old_edit

instance (patch : Patch) (edit : Edit) : Decidable (Conflicts patch edit) :=
  inferInstanceAs (Decidable (∃ old_edit ∈ patch, Intersects edit old_edit))

def deltas (edits : List Edit) : Int := (edits.map Edit.delta).sum

/-- A row edit of the old buffer text at the rows of the base text that the
    patch maps it from. -/
def rebase (patch : Patch) (edit : Edit) : Edit :=
  let delta := deltas (patch.filter fun old_edit => decide (StartsAfter edit old_edit))
  { edit with old := ⟨(edit.old.start - delta).toNat, (edit.old.stop - delta).toNat⟩ }

def rebased (patch : Patch) (edits : List Edit) : List Edit :=
  (edits.filter fun edit => decide (¬ Conflicts patch edit)).map (rebase patch)

/-- Ordered ranges with rows between them, in the text that both lists of edits
    are about. -/
structure Apart (range : Edit → Range) (edits : List Edit) : Prop where
  ordered : ∀ edit ∈ edits, (range edit).start ≤ (range edit).stop
  separate : edits.Pairwise fun x y => (range x).stop < (range y).start

section ranges

variable {new_edit next_edit old_edit : Edit} {range : Edit → Range} {edits : List Edit}

theorem intersects_iff : Intersects new_edit old_edit ↔ ¬ EndsBefore new_edit old_edit ∧ ¬ StartsAfter new_edit old_edit := by
  unfold Intersects EndsBefore StartsAfter
  cases hempty : old_edit.new.is_empty with
  | true =>
    rw [if_pos rfl]
    simp only [Bool.true_eq_false, false_and, or_false, not_lt, gt_iff_lt]
  | false =>
    rw [if_neg Bool.false_ne_true]
    simp only [true_and, gt_iff_lt]
    omega

theorem Apart.sublist {edits' : List Edit} (h : Apart range edits) (hsub : edits'.Sublist edits) : Apart range edits' :=
  ⟨fun x hx => h.ordered x (hsub.subset hx), h.separate.sublist hsub⟩

theorem Apart.tail {edit : Edit} (h : Apart range (edit :: edits)) : Apart range edits :=
  h.sublist (List.sublist_cons_self _ _)

theorem Apart.of_append {before after : List Edit} (h : Apart range (before ++ after)) : Apart range after :=
  h.sublist (List.sublist_append_right _ _)

theorem Apart.of_append_left {before after : List Edit} (h : Apart range (before ++ after)) : Apart range before :=
  h.sublist (List.sublist_append_left _ _)

theorem Apart.lt {edit : Edit} (h : Apart range (edit :: edits)) {x : Edit} (hx : x ∈ edits) :
    (range edit).stop < (range x).start :=
  List.rel_of_pairwise_cons h.separate hx

theorem is_empty_iff {range : Range} (h : range.start ≤ range.stop) : range.is_empty = true ↔ range.start = range.stop := by
  unfold Range.is_empty
  rw [decide_eq_true_iff]
  omega

theorem overlaps_iff {range other : Range} : range.overlaps other = true ↔ range.start < other.stop ∧ other.start < range.stop := by
  unfold Range.overlaps
  rw [Bool.and_eq_true, decide_eq_true_iff, decide_eq_true_iff]

theorem StartsAfter.mono (h : StartsAfter new_edit old_edit) (hle : new_edit.old.start ≤ next_edit.old.start) :
    StartsAfter next_edit old_edit := by
  unfold StartsAfter at h ⊢
  rcases Nat.lt_or_eq_of_le hle with hlt | heq
  · left
    rcases h with h | h <;> omega
  · rwa [← heq]

theorem not_startsAfter_of_endsBefore (h : EndsBefore new_edit old_edit) (hnew : new_edit.old.start ≤ new_edit.old.stop)
    (hold : old_edit.new.start ≤ old_edit.new.stop) : ¬ StartsAfter new_edit old_edit := by
  unfold EndsBefore at h
  unfold StartsAfter
  cases hempty : old_edit.new.is_empty with
  | true =>
    simp only [hempty, Bool.true_eq_false, false_and, or_false] at h ⊢
    omega
  | false =>
    have hlt : old_edit.new.start ≠ old_edit.new.stop := fun heq => by
      rw [(is_empty_iff hold).mpr heq] at hempty
      cases hempty
    simp only [hempty, true_and] at h ⊢
    omega

theorem next_meets (h : Intersects new_edit old_edit) (hold : old_edit.new.start ≤ old_edit.new.stop)
    (hnext : next_edit.old.start ≤ next_edit.old.stop) (hlt : new_edit.old.stop < next_edit.old.start) :
    if next_edit.old.overlaps old_edit.new = true then Intersects next_edit old_edit
    else StartsAfter next_edit old_edit := by
  unfold Intersects at h
  cases hempty : old_edit.new.is_empty with
  | true =>
    have heq := (is_empty_iff hold).mp hempty
    rw [hempty, if_pos rfl] at h
    have hafter : next_edit.old.start > old_edit.new.stop := by omega
    have hoverlaps : ¬ next_edit.old.overlaps old_edit.new = true := fun hoverlaps => by
      have := overlaps_iff.mp hoverlaps
      omega
    rw [if_neg hoverlaps]
    exact Or.inl hafter
  | false =>
    rw [hempty, if_neg Bool.false_ne_true] at h
    by_cases hoverlaps : next_edit.old.overlaps old_edit.new = true
    · have hmeets := overlaps_iff.mp hoverlaps
      rw [if_pos hoverlaps, Intersects, hempty, if_neg Bool.false_ne_true]
      exact ⟨hmeets.2, hmeets.1⟩
    · have hmeets := mt overlaps_iff.mpr hoverlaps
      rw [if_neg hoverlaps, StartsAfter, hempty]
      simp only [true_and]
      omega

end ranges

/-- What the inner loop does: it leaves the agent's edits after the new edit,
    and skips edits that meet one of the agent's. -/
structure Pushed (old_edits new_edits : List Edit) (new_edit : Edit) (conflict : Bool) (rebased_delta : Int)
    (consumed skipped : List Edit) (s : PushOld) : Prop where
  split_old : old_edits = consumed ++ s.old_edits
  rebased_delta : s.rebased_delta = rebased_delta + deltas consumed
  split_new : new_edit :: new_edits = skipped ++ s.new_edit :: s.new_edits
  consumed_before : ∀ old_edit ∈ consumed, ∀ edit ∈ s.new_edits, StartsAfter edit old_edit
  consumed : ∀ old_edit ∈ consumed, StartsAfter s.new_edit old_edit ∨ Intersects s.new_edit old_edit
  left : ∀ old_edit ∈ s.old_edits, EndsBefore s.new_edit old_edit
  skipped : ∀ edit ∈ skipped, Conflicts old_edits edit
  hit : s.new_edit = new_edit ∨ Conflicts old_edits s.new_edit
  conflict : s.conflict = true ↔ conflict = true ∨ Conflicts old_edits s.new_edit

namespace Pushed

variable {old_edits new_edits consumed skipped : List Edit} {old_edit new_edit : Edit} {conflict : Bool}
variable {rebased_delta : Int} {s : PushOld}

theorem new_edit_mem (h : Pushed old_edits new_edits new_edit conflict rebased_delta consumed skipped s) :
    s.new_edit = new_edit ∨ s.new_edit ∈ new_edits := by
  have hmem : s.new_edit ∈ new_edit :: new_edits := by
    rw [h.split_new]
    exact List.mem_append_right _ List.mem_cons_self
  exact List.mem_cons.mp hmem

theorem new_edits_mem (h : Pushed old_edits new_edits new_edit conflict rebased_delta consumed skipped s) {edit : Edit}
    (hedit : edit ∈ s.new_edits) : edit ∈ new_edits := by
  have hnew := h.split_new
  cases skipped with
  | nil =>
    rw [List.nil_append, List.cons.injEq] at hnew
    rwa [hnew.2]
  | cons first skipped =>
    rw [List.cons_append, List.cons.injEq] at hnew
    rw [hnew.2]
    exact List.mem_append_right _ (List.mem_cons_of_mem _ hedit)

/-- The loop consumes the first of the agent's edits. -/
theorem consume (h : Pushed old_edits new_edits new_edit conflict (rebased_delta + old_edit.delta) consumed skipped s)
    {before : Bool} (hconflict : conflict = true ↔ before = true ∨ Intersects new_edit old_edit)
    (hlater : ∀ edit ∈ new_edits, StartsAfter edit old_edit)
    (hmeets : StartsAfter new_edit old_edit ∨ Intersects new_edit old_edit) :
    Pushed (old_edit :: old_edits) new_edits new_edit before rebased_delta (old_edit :: consumed) skipped s where
  split_old := by rw [List.cons_append, ← h.split_old]
  rebased_delta := by
    rw [h.rebased_delta]
    simp only [deltas, List.map_cons, List.sum_cons]
    omega
  split_new := h.split_new
  consumed_before x hx edit hedit := by
    obtain rfl | hx := List.mem_cons.mp hx
    · exact hlater edit (h.new_edits_mem hedit)
    · exact h.consumed_before x hx edit hedit
  consumed x hx := by
    obtain rfl | hx := List.mem_cons.mp hx
    · rcases h.new_edit_mem with heq | hmem
      · rwa [heq]
      · exact Or.inl (hlater _ hmem)
    · exact h.consumed x hx
  left := h.left
  skipped edit hedit := by
    obtain ⟨x, hx, hmeets⟩ := h.skipped edit hedit
    exact ⟨x, List.mem_cons_of_mem _ hx, hmeets⟩
  hit := h.hit.imp_right fun ⟨x, hx, hmeets⟩ => ⟨x, List.mem_cons_of_mem _ hx, hmeets⟩
  conflict := by
    have hcons : Conflicts (old_edit :: old_edits) s.new_edit ↔
        Intersects s.new_edit old_edit ∨ Conflicts old_edits s.new_edit := List.exists_mem_cons_iff _ _ _
    rw [h.conflict, hcons, hconflict, or_assoc]
    -- an edit reached by skipping meets what is left
    rcases h.hit with heq | hhit
    · rw [heq]
    · simp only [hhit, or_true]

end Pushed

theorem push_old_edits_pushed {old_edits new_edits : List Edit} {new_edit : Edit} (conflict : Bool) (rebased_delta : Int)
    (hold : Apart Edit.new old_edits) (hnew : Apart Edit.old (new_edit :: new_edits)) :
    ∃ consumed skipped, Pushed old_edits new_edits new_edit conflict rebased_delta consumed skipped
      (push_old_edits old_edits new_edits new_edit conflict rebased_delta) := by
  fun_induction push_old_edits old_edits new_edits new_edit conflict rebased_delta with
  | case1 new_edit conflict rebased_delta new_edits =>
    exact ⟨[], [], by constructor <;> simp [deltas, Conflicts]⟩
  | case2 new_edit conflict rebased_delta old_edit old_edits new_edits hbefore =>
    have hleft : ∀ x ∈ old_edit :: old_edits, EndsBefore new_edit x := fun x hx => by
      obtain rfl | hx := List.mem_cons.mp hx
      · exact hbefore
      · have hlt := hold.lt hx
        have hordered := hold.ordered old_edit List.mem_cons_self
        left
        rcases hbefore with h | h <;> omega
    have hnone : ¬ Conflicts (old_edit :: old_edits) new_edit := by
      rintro ⟨x, hx, hmeets⟩
      exact (intersects_iff.mp hmeets).1 (hleft x hx)
    exact ⟨[], [], rfl, by simp [deltas], rfl, by simp, by simp, hleft, by simp, Or.inl rfl, by simp [hnone]⟩
  | case3 new_edit conflict rebased_delta old_edit old_edits new_edits hbefore hafter ih =>
    obtain ⟨consumed, skipped, h⟩ := ih hold.tail hnew
    refine ⟨old_edit :: consumed, skipped, h.consume ?_ (fun edit hedit => ?_) (Or.inl hafter)⟩
    · exact ⟨Or.inl, fun hor => hor.resolve_right fun hmeets => (intersects_iff.mp hmeets).2 hafter⟩
    · have hlt := hnew.lt hedit
      have hordered := hnew.ordered new_edit List.mem_cons_self
      exact hafter.mono (by omega)
  | case4 new_edit conflict rebased_delta old_edit old_edits hbefore hafter ih =>
    obtain ⟨consumed, skipped, h⟩ := ih hold.tail hnew
    have hmeets := intersects_iff.mpr ⟨hbefore, hafter⟩
    exact ⟨old_edit :: consumed, skipped, h.consume (by simp [hmeets]) (by simp) (Or.inr hmeets)⟩
  | case5 new_edit conflict rebased_delta old_edit old_edits hbefore hafter next_edit rest hoverlaps ih =>
    have hmeets := intersects_iff.mpr ⟨hbefore, hafter⟩
    obtain ⟨consumed, skipped, h⟩ := ih hold hnew.tail
    have hnext := next_meets hmeets (hold.ordered _ List.mem_cons_self)
      (hnew.ordered next_edit (List.mem_cons_of_mem _ List.mem_cons_self)) (hnew.lt List.mem_cons_self)
    rw [if_pos hoverlaps] at hnext
    have hhit : Conflicts (old_edit :: old_edits) (push_old_edits (old_edit :: old_edits) rest next_edit true rebased_delta).new_edit := by
      rcases h.hit with heq | hhit
      · rw [heq]
        exact ⟨old_edit, List.mem_cons_self, hnext⟩
      · exact hhit
    refine ⟨consumed, new_edit :: skipped, h.split_old, h.rebased_delta, ?_, h.consumed_before, h.consumed, h.left,
      fun edit hedit => ?_, Or.inr hhit, ?_⟩
    · rw [List.cons_append, ← h.split_new]
    · obtain rfl | hedit := List.mem_cons.mp hedit
      · exact ⟨old_edit, List.mem_cons_self, hmeets⟩
      · exact h.skipped edit hedit
    · rw [h.conflict]
      simp [hhit]
  | case6 new_edit conflict rebased_delta old_edit old_edits hbefore hafter next_edit rest hoverlaps ih =>
    have hmeets := intersects_iff.mpr ⟨hbefore, hafter⟩
    obtain ⟨consumed, skipped, h⟩ := ih hold.tail hnew
    have hnext := next_meets hmeets (hold.ordered _ List.mem_cons_self)
      (hnew.ordered next_edit (List.mem_cons_of_mem _ List.mem_cons_self)) (hnew.lt List.mem_cons_self)
    rw [if_neg hoverlaps] at hnext
    refine ⟨old_edit :: consumed, skipped, h.consume (by simp [hmeets]) (fun edit hedit => ?_) (Or.inr hmeets)⟩
    obtain rfl | hedit := List.mem_cons.mp hedit
    · exact hnext
    · have hlt := hnew.tail.lt hedit
      have hordered := hnew.ordered next_edit (List.mem_cons_of_mem _ List.mem_cons_self)
      exact hnext.mono (by omega)

section sums

variable {patch before after : List Edit} {edit : Edit}

theorem deltas_append (before after : List Edit) : deltas (before ++ after) = deltas before + deltas after := by
  unfold deltas
  rw [List.map_append, List.sum_append]

/-- Edits between two rows move the second one no nearer to the start than the first. -/
theorem deltas_le {row stop : Nat} (h : Apart Edit.new patch) (hge : ∀ edit ∈ patch, row ≤ edit.new.start)
    (hle : ∀ edit ∈ patch, edit.new.stop ≤ stop) (hrow : row ≤ stop) : row + deltas patch ≤ stop := by
  induction patch generalizing row with
  | nil => simpa [deltas] using hrow
  | cons first edits ih =>
    have hordered := h.ordered first List.mem_cons_self
    have hrest := ih h.tail (fun x hx => Nat.le_of_lt (h.lt hx)) (fun x hx => hle x (List.mem_cons_of_mem _ hx))
      (hle first List.mem_cons_self)
    have hstart := hge first List.mem_cons_self
    simp only [deltas, List.map_cons, List.sum_cons, Edit.delta, Edit.new_len] at hrest ⊢
    omega

theorem StartsAfter.le {new_edit old_edit : Edit} (h : StartsAfter new_edit old_edit) :
    old_edit.new.stop ≤ new_edit.old.start := by
  rcases h with h | h <;> omega

theorem EndsBefore.le {new_edit old_edit : Edit} (h : EndsBefore new_edit old_edit) :
    new_edit.old.stop ≤ old_edit.new.start := by
  rcases h with h | h <;> omega

/-- The agent's edits before and after an edit that meets none of them. -/
structure Between (patch before after : List Edit) (edit : Edit) : Prop where
  split : patch = before ++ after
  ordered : edit.old.start ≤ edit.old.stop
  before : ∀ old_edit ∈ before, StartsAfter edit old_edit
  after : ∀ old_edit ∈ after, EndsBefore edit old_edit

theorem between_of_not_conflicts (hpatch : Apart Edit.new patch) (hordered : edit.old.start ≤ edit.old.stop)
    (h : ¬ Conflicts patch edit) : ∃ before after, Between patch before after edit := by
  induction patch with
  | nil => exact ⟨[], [], rfl, hordered, by simp, by simp⟩
  | cons first edits ih =>
    have hfirst : ¬ Intersects edit first := fun hmeets => h ⟨first, List.mem_cons_self, hmeets⟩
    by_cases hends : EndsBefore edit first
    · refine ⟨[], first :: edits, rfl, hordered, by simp, fun x hx => ?_⟩
      obtain rfl | hx := List.mem_cons.mp hx
      · exact hends
      · have hlt := hpatch.lt hx
        have hle := hpatch.ordered first List.mem_cons_self
        have := hends.le
        exact Or.inl (by omega)
    · have hafter : StartsAfter edit first := by
        by_contra hnot
        exact hfirst (intersects_iff.mpr ⟨hends, hnot⟩)
      obtain ⟨before, after, hbetween⟩ :=
        ih hpatch.tail fun ⟨x, hx, hmeets⟩ => h ⟨x, List.mem_cons_of_mem _ hx, hmeets⟩
      refine ⟨first :: before, after, by rw [hbetween.split, List.cons_append], hordered, fun x hx => ?_, hbetween.after⟩
      obtain rfl | hx := List.mem_cons.mp hx
      · exact hafter
      · exact hbetween.before x hx

namespace Between

theorem filter (h : Between patch before after edit) (hpatch : Apart Edit.new patch) :
    patch.filter (fun old_edit => decide (StartsAfter edit old_edit)) = before := by
  have hafter : ∀ x ∈ after, ¬ StartsAfter edit x := fun x hx => by
    refine not_startsAfter_of_endsBefore (h.after x hx) h.ordered (hpatch.ordered x ?_)
    rw [h.split]
    exact List.mem_append_right _ hx
  rw [h.split, List.filter_append, List.filter_eq_self.mpr fun x hx => decide_eq_true (h.before x hx),
    List.filter_eq_nil_iff.mpr fun x hx => by simp [hafter x hx], List.append_nil]

theorem deltas_le (h : Between patch before after edit) (hpatch : Apart Edit.new patch) :
    deltas before ≤ edit.old.start := by
  rw [h.split] at hpatch
  have hle := @action_log.deltas_le before 0 edit.old.start hpatch.of_append_left
    (fun _ _ => Nat.zero_le _) (fun x hx => (h.before x hx).le) (Nat.zero_le _)
  omega

theorem rebase_old (h : Between patch before after edit) (hpatch : Apart Edit.new patch) :
    ((rebase patch edit).old.start : Int) = edit.old.start - deltas before ∧
      ((rebase patch edit).old.stop : Int) = edit.old.stop - deltas before := by
  have hle := h.deltas_le hpatch
  have hordered := h.ordered
  unfold rebase
  rw [h.filter hpatch]
  dsimp only
  omega

theorem rebase_delta (h : Between patch before after edit) (hpatch : Apart Edit.new patch) :
    (rebase patch edit).delta = edit.delta := by
  have hold := h.rebase_old hpatch
  have hordered := h.ordered
  have hnew : (rebase patch edit).new = edit.new := rfl
  unfold Edit.delta Edit.new_len Edit.old_len
  rw [hnew]
  omega

theorem rebase_le {before' after' : List Edit} {next : Edit} (h : Between patch before after edit)
    (h' : Between patch before' after' next) (hpatch : Apart Edit.new patch) (hle : edit.old.stop ≤ next.old.start) :
    (rebase patch edit).old.stop ≤ (rebase patch next).old.start := by
  have hold := h.rebase_old hpatch
  have hold' := h'.rebase_old hpatch
  have hordered := h.ordered
  have hbefore : before' = before ++ after.filter fun old_edit => decide (StartsAfter next old_edit) := by
    rw [← h'.filter hpatch, h.split, List.filter_append]
    congr 1
    exact List.filter_eq_self.mpr fun x hx => decide_eq_true ((h.before x hx).mono (by omega))
  have hmiddle : edit.old.stop + deltas (after.filter fun old_edit => decide (StartsAfter next old_edit)) ≤
      next.old.start := by
    rw [h.split] at hpatch
    refine action_log.deltas_le (hpatch.of_append.sublist List.filter_sublist) (fun x hx => ?_) (fun x hx => ?_) hle
    · exact (h.after x (List.mem_filter.mp hx).1).le
    · exact (of_decide_eq_true (List.mem_filter.mp hx).2).le
  rw [hbefore, deltas_append] at hold'
  omega

end Between

end sums

theorem rebased_append (patch : Patch) (edits edits' : List Edit) :
    rebased patch (edits ++ edits') = rebased patch edits ++ rebased patch edits' := by
  unfold rebased
  rw [List.filter_append, List.map_append]

theorem rebased_of_conflicts {patch : Patch} {edits : List Edit} (h : ∀ edit ∈ edits, Conflicts patch edit) :
    rebased patch edits = [] := by
  unfold rebased
  rw [List.filter_eq_nil_iff.mpr fun edit hedit => by simp [h edit hedit], List.map_nil]

theorem rebased_cons_of_not_conflicts {patch : Patch} {edit : Edit} (h : ¬ Conflicts patch edit) (edits : List Edit) :
    rebased patch (edit :: edits) = rebase patch edit :: rebased patch edits := by
  unfold rebased
  rw [List.filter_cons_of_pos (by simp [h]), List.map_cons]

theorem rebased_sorted {patch : Patch} (hpatch : Apart Edit.new patch) {edits : List Edit} (h : Apart Edit.old edits) :
    (rebased patch edits).Pairwise fun x y => x.old.stop ≤ y.old.start := by
  unfold rebased
  rw [List.pairwise_map, List.pairwise_filter]
  refine List.Pairwise.imp_of_mem (fun {x y} hx hy hlt => ?_) h.separate
  intro hfree hfree'
  obtain ⟨before, after, hbetween⟩ := between_of_not_conflicts hpatch (h.ordered x hx) (of_decide_eq_true hfree)
  obtain ⟨before', after', hbetween'⟩ := between_of_not_conflicts hpatch (h.ordered y hy) (of_decide_eq_true hfree')
  exact hbetween.rebase_le hbetween' hpatch (Nat.le_of_lt hlt)

/-- Replaces row ranges of the base text one after the other, each shifted by
    what was replaced before it. -/
def replay (new_text : Rope) (old_text : Rope) (applied_delta : Int) : List Edit → Rope
  | [] => old_text
  | edit :: edits =>
    let old : Range := ⟨(edit.old.start + applied_delta).toNat, (edit.old.stop + applied_delta).toNat⟩
    replay new_text (replace_rows old_text new_text old edit.new) (applied_delta + edit.delta) edits

/-- Where the merge of two lists of edits stands: the agent's edits before
    `old_edits` are before all of `new_edits`. -/
structure Merging (patch done old_edits new_edits : List Edit) (rebased_delta : Int) : Prop where
  split : patch = done ++ old_edits
  rebased_delta : rebased_delta = deltas done
  before : ∀ old_edit ∈ done, ∀ edit ∈ new_edits, StartsAfter edit old_edit

namespace Merging

variable {patch done old_edits new_edits consumed skipped : List Edit} {new_edit edit : Edit}
variable {rebased_delta : Int} {s : PushOld}

theorem old_apart (h : Merging patch done old_edits new_edits rebased_delta) (hpatch : Apart Edit.new patch) :
    Apart Edit.new old_edits := by
  rw [h.split] at hpatch
  exact hpatch.of_append

theorem conflicts_iff (h : Merging patch done old_edits new_edits rebased_delta) (hedit : edit ∈ new_edits) :
    Conflicts patch edit ↔ Conflicts old_edits edit := by
  rw [h.split]
  constructor
  · rintro ⟨x, hx, hmeets⟩
    rcases List.mem_append.mp hx with hx | hx
    · exact absurd (h.before x hx edit hedit) (intersects_iff.mp hmeets).2
    · exact ⟨x, hx, hmeets⟩
  · rintro ⟨x, hx, hmeets⟩
    exact ⟨x, List.mem_append_right _ hx, hmeets⟩

variable (h : Merging patch done old_edits (new_edit :: new_edits) rebased_delta)
variable (hs : Pushed old_edits new_edits new_edit false rebased_delta consumed skipped s)

include h hs

theorem pushed : Merging patch (done ++ consumed) s.old_edits s.new_edits s.rebased_delta where
  split := by rw [List.append_assoc, ← hs.split_old, h.split]
  rebased_delta := by rw [hs.rebased_delta, h.rebased_delta, deltas_append]
  before x hx edit hedit := by
    rcases List.mem_append.mp hx with hx | hx
    · exact h.before x hx edit (List.mem_cons_of_mem _ (hs.new_edits_mem hedit))
    · exact hs.consumed_before x hx edit hedit

theorem pushed_mem : s.new_edit ∈ new_edit :: new_edits := by
  rw [hs.split_new]
  exact List.mem_append_right _ List.mem_cons_self

theorem conflict_iff : s.conflict = true ↔ Conflicts patch s.new_edit := by
  rw [hs.conflict, h.conflicts_iff (h.pushed_mem hs)]
  simp

theorem rebased_eq : rebased patch (new_edit :: new_edits) =
    rebased patch [s.new_edit] ++ rebased patch s.new_edits := by
  rw [hs.split_new, rebased_append, rebased_of_conflicts fun edit hedit => ?_, List.nil_append,
    ← rebased_append, List.singleton_append]
  have hmem : edit ∈ new_edit :: new_edits := by
    rw [hs.split_new]
    exact List.mem_append_left _ hedit
  exact (h.conflicts_iff hmem).mpr (hs.skipped edit hedit)

theorem between (hordered : s.new_edit.old.start ≤ s.new_edit.old.stop) (hfree : ¬ Conflicts patch s.new_edit) :
    Between patch (done ++ consumed) s.old_edits s.new_edit where
  split := (h.pushed hs).split
  ordered := hordered
  before x hx := by
    rcases List.mem_append.mp hx with hx | hx
    · exact h.before x hx _ (h.pushed_mem hs)
    · refine (hs.consumed x hx).resolve_right fun hmeets => hfree ⟨x, ?_, hmeets⟩
      rw [h.split, hs.split_old]
      exact List.mem_append_right _ (List.mem_append_left _ hx)
  after := hs.left

end Merging

/-- The merge applies the rebased edits that meet no edit of the patch, and no others. -/
theorem apply_edits_eq {patch : Patch} (hpatch : Apart Edit.new patch) (new_text : Rope) {old_edits new_edits : List Edit}
    (old_text : Rope) {applied_delta rebased_delta : Int} (has_made_changes : Bool) (hnew : Apart Edit.old new_edits)
    (hordered : ∀ edit ∈ new_edits, edit.new.start ≤ edit.new.stop)
    (happlied : ∀ edit ∈ rebased patch new_edits, 0 ≤ edit.old.start + applied_delta)
    (hmerging : ∃ done, Merging patch done old_edits new_edits rebased_delta) :
    apply_edits new_text old_edits new_edits old_text applied_delta rebased_delta has_made_changes =
      (replay new_text old_text applied_delta (rebased patch new_edits),
        has_made_changes || !(rebased patch new_edits).isEmpty) := by
  fun_induction apply_edits new_text old_edits new_edits old_text applied_delta rebased_delta has_made_changes with
  | case1 => simp [rebased, replay]
  | case2 old_edits old_text applied_delta rebased_delta has_made_changes new_edit new_edits hlength s hconflict ih =>
    obtain ⟨done, h⟩ := hmerging
    obtain ⟨consumed, skipped, hs⟩ : ∃ consumed skipped,
        Pushed old_edits new_edits new_edit false rebased_delta consumed skipped s :=
      push_old_edits_pushed false rebased_delta (h.old_apart hpatch) hnew
    clear_value s
    have hfree := (h.conflict_iff hs).mp hconflict
    have heq : rebased patch (new_edit :: new_edits) = rebased patch s.new_edits := by
      rw [h.rebased_eq hs, rebased_of_conflicts (by simpa using hfree), List.nil_append]
    rw [heq] at happlied ⊢
    have hsub : Apart Edit.old s.new_edits := by
      have hsplit := hs.split_new
      rw [hsplit] at hnew
      exact hnew.of_append.tail
    exact ih hsub (fun x hx => hordered x (List.mem_cons_of_mem _ (hs.new_edits_mem hx))) happlied
      ⟨_, h.pushed hs⟩
  | case3 old_edits old_text applied_delta rebased_delta has_made_changes new_edit new_edits hlength s hconflict old
      applied_delta' ih =>
    obtain ⟨done, h⟩ := hmerging
    obtain ⟨consumed, skipped, hs⟩ : ∃ consumed skipped,
        Pushed old_edits new_edits new_edit false rebased_delta consumed skipped s :=
      push_old_edits_pushed false rebased_delta (h.old_apart hpatch) hnew
    clear_value s
    have hfree := mt (h.conflict_iff hs).mpr hconflict
    have hmem : s.new_edit ∈ new_edit :: new_edits := h.pushed_mem hs
    have hbetween := h.between hs (hnew.ordered _ hmem) hfree
    obtain ⟨hstart, hstop⟩ := hbetween.rebase_old hpatch
    rw [← (h.pushed hs).rebased_delta] at hstart hstop
    have hsorted := rebased_sorted hpatch hnew
    have heq : rebased patch (new_edit :: new_edits) = rebase patch s.new_edit :: rebased patch s.new_edits := by
      rw [h.rebased_eq hs, rebased_cons_of_not_conflicts hfree]
      rfl
    rw [heq] at happlied hsorted ⊢
    have hfirst := happlied _ List.mem_cons_self
    have hlen := hnew.ordered _ hmem
    have hnewlen := hordered _ hmem
    have hdelta : applied_delta' = applied_delta + (rebase patch s.new_edit).delta := by
      rw [hbetween.rebase_delta hpatch]
      simp only [applied_delta', old, Edit.delta, Edit.old_len]
      omega
    have hold : old = ⟨((rebase patch s.new_edit).old.start + applied_delta).toNat,
        ((rebase patch s.new_edit).old.stop + applied_delta).toNat⟩ := by
      simp only [old, Range.mk.injEq]
      omega
    have hsub : Apart Edit.old s.new_edits := by
      have hsplit := hs.split_new
      rw [hsplit] at hnew
      exact hnew.of_append.tail
    rw [ih hsub (fun x hx => hordered x (List.mem_cons_of_mem _ (hs.new_edits_mem hx))) (fun x hx => ?_)
      ⟨_, h.pushed hs⟩, hdelta, hold]
    · simp [replay]
      rfl
    · have hle := List.rel_of_pairwise_cons hsorted hx
      rw [hdelta, hbetween.rebase_delta hpatch]
      simp only [Edit.delta, Edit.new_len, Edit.old_len]
      omega

end zed.action_log
