import Zed.ActionLog.Marks

namespace zed.action_log

open zed.rope zed.rope.Rope zed.text
open zed.text.Patch (slice apply_from)

def Within (range : Range) (row : Int) : Prop := range.start ≤ row ∧ row < range.stop

instance (range : Range) (row : Int) : Decidable (Within range row) := inferInstanceAs (Decidable (_ ∧ _))

/-- The row of the new text that a row outside of the edits becomes. -/
def new_row (patch : Patch) (row : Nat) : Int :=
  row + deltas (patch.filter fun edit => decide (edit.old.stop ≤ row))

/-- The row of the old text that a row outside of the edits was. -/
def old_row (patch : Patch) (row : Nat) : Int :=
  row - deltas (patch.filter fun edit => decide (edit.new.stop ≤ row))

/-- A row of the base text that belongs to an edit of the patch or to a user's
    edit that conflicts with one. -/
def base_owned (patch edits : Patch) (row : Nat) : Bool :=
  decide ((∃ old_edit ∈ patch, Within old_edit.old row) ∨
    ∃ edit ∈ edits, Conflicts patch edit ∧ Within edit.old (new_row patch row))

/-- A row of the new text that belongs to a user's edit that conflicts with the
    patch, or that no edit of the user touched and that belongs to the patch. -/
def new_owned (patch edits : Patch) (row : Nat) : Bool :=
  decide ((∃ edit ∈ edits, Conflicts patch edit ∧ Within edit.new row) ∨
    ((∀ edit ∈ edits, ¬ Within edit.new row) ∧ ∃ old_edit ∈ patch, Within old_edit.new (old_row edits row)))

/-- The same for the text between the two lists of edits. -/
def old_owned (patch edits : Patch) (row : Nat) : Bool :=
  decide ((∃ old_edit ∈ patch, Within old_edit.new row) ∨ ∃ edit ∈ edits, Conflicts patch edit ∧ Within edit.old row)

/-- A row of the old text and its row of the new text, after the edits in `done`. -/
structure Reached (patch done rest : Patch) (row row' : Nat) : Prop where
  split : patch = done ++ rest
  before : ∀ edit ∈ done, edit.old.stop ≤ row ∧ edit.new.stop ≤ row'
  shift : (row' : Int) = row + deltas done
  old : Apart Edit.old patch
  new : Apart Edit.new patch

namespace Reached

variable {patch done rest : Patch} {row row' : Nat} {edit : Edit}

theorem start (hold : Apart Edit.old patch) (hnew : Apart Edit.new patch) : Reached patch [] patch 0 0 :=
  ⟨rfl, by simp, rfl, hold, hnew⟩

theorem next (h : Reached patch done (edit :: rest) row row') (hrow : row ≤ edit.old.start)
    (hshift : edit.new.start + row = row' + edit.old.start) :
    Reached patch (done ++ [edit]) rest edit.old.stop edit.new.stop := by
  have hmem : edit ∈ patch := by
    rw [h.split]
    exact List.mem_append_right _ List.mem_cons_self
  have hold := h.old.ordered edit hmem
  have hnew := h.new.ordered edit hmem
  refine ⟨by rw [h.split, List.append_assoc, List.singleton_append], fun x hx => ?_, ?_, h.old, h.new⟩
  · rcases List.mem_append.mp hx with hx | hx
    · have := h.before x hx
      omega
    · obtain rfl := List.mem_singleton.mp hx
      exact ⟨Nat.le_refl _, Nat.le_refl _⟩
  · have hdone := h.shift
    rw [deltas_append]
    simp only [deltas, List.map_cons, List.map_nil, List.sum_cons, List.sum_nil, Edit.delta, Edit.old_len, Edit.new_len] at hdone ⊢
    omega

theorem free (h : Reached patch done rest row row') {n : Nat}
    (hn : ∀ edit ∈ rest, row + n < edit.old.start ∧ row' + n < edit.new.start) :
    (∀ edit ∈ patch, ¬ Within edit.old (row + n : Nat) ∧ ¬ Within edit.new (row' + n : Nat)) ∧
      new_row patch (row + n) = (row' + n : Nat) ∧ old_row patch (row' + n) = (row + n : Nat) := by
  have hshift := h.shift
  have hdone : ∀ edit ∈ done, edit.old.stop ≤ row + n ∧ edit.new.stop ≤ row' + n := fun edit hedit => by
    have := h.before edit hedit
    omega
  have hrest : ∀ edit ∈ rest, ¬ edit.old.stop ≤ row + n ∧ ¬ edit.new.stop ≤ row' + n := fun edit hedit => by
    have hmem : edit ∈ patch := by
      rw [h.split]
      exact List.mem_append_right _ hedit
    have hold := h.old.ordered edit hmem
    have hnew := h.new.ordered edit hmem
    have := hn edit hedit
    omega
  refine ⟨fun edit hedit => ?_, ?_, ?_⟩
  · rw [h.split] at hedit
    unfold Within
    rcases List.mem_append.mp hedit with hedit | hedit
    · have := hdone edit hedit
      omega
    · have := hn edit hedit
      omega
  · rw [new_row, h.split, List.filter_append, List.filter_eq_self.mpr fun x hx => decide_eq_true (hdone x hx).1,
      List.filter_eq_nil_iff.mpr fun x hx => by simpa using (hrest x hx).1, List.append_nil]
    omega
  · rw [old_row, h.split, List.filter_append, List.filter_eq_self.mpr fun x hx => decide_eq_true (hdone x hx).2,
      List.filter_eq_nil_iff.mpr fun x hx => by simpa using (hrest x hx).2, List.append_nil]
    omega

theorem before_rest (h : Reached patch done (edit :: rest) row row') {n : Nat} (hshift : edit.new.start + row = row' + edit.old.start)
    (hn : row + n < edit.old.start) : ∀ x ∈ edit :: rest, row + n < x.old.start ∧ row' + n < x.new.start := by
  intro x hx
  have hold := h.old
  have hnew := h.new
  rw [h.split] at hold hnew
  obtain rfl | hx := List.mem_cons.mp hx
  · omega
  · have hlt := hold.of_append.lt hx
    have hlt' := hnew.of_append.lt hx
    have hle := hold.of_append.ordered edit List.mem_cons_self
    have hle' := hnew.of_append.ordered edit List.mem_cons_self
    omega

end Reached

section owned

variable {patch edits done rest : Patch} {row row' n : Nat}

theorem base_owned_eq (h : Reached patch done rest row row')
    (hn : ∀ edit ∈ rest, row + n < edit.old.start ∧ row' + n < edit.new.start) :
    base_owned patch edits (row + n) = old_owned patch edits (row' + n) := by
  obtain ⟨hfree, hnew, -⟩ := h.free hn
  have hleft : ¬ ∃ old_edit ∈ patch, Within old_edit.old (row + n : Nat) := fun ⟨x, hx, hin⟩ => (hfree x hx).1 hin
  have hright : ¬ ∃ old_edit ∈ patch, Within old_edit.new (row' + n : Nat) := fun ⟨x, hx, hin⟩ => (hfree x hx).2 hin
  rw [base_owned, old_owned, hnew, decide_eq_decide, or_iff_right hleft, or_iff_right hright]

theorem new_owned_eq (h : Reached edits done rest row row')
    (hn : ∀ edit ∈ rest, row + n < edit.old.start ∧ row' + n < edit.new.start) :
    new_owned patch edits (row' + n) = old_owned patch edits (row + n) := by
  obtain ⟨hfree, -, hold⟩ := h.free hn
  have hleft : ¬ ∃ edit ∈ edits, Conflicts patch edit ∧ Within edit.new (row' + n : Nat) := fun ⟨x, hx, _, hin⟩ =>
    (hfree x hx).2 hin
  have hright : ¬ ∃ edit ∈ edits, Conflicts patch edit ∧ Within edit.old (row + n : Nat) := fun ⟨x, hx, _, hin⟩ =>
    (hfree x hx).1 hin
  rw [new_owned, old_owned, hold, decide_eq_decide, or_iff_right hleft, or_iff_left hright, and_iff_right]
  exact fun x hx => (hfree x hx).2

theorem base_owned_of_mem {edit : Edit} (hedit : edit ∈ patch) (hge : edit.old.start ≤ row) (hlt : row < edit.old.stop) :
    base_owned patch edits row = true :=
  decide_eq_true (Or.inl ⟨edit, hedit, by unfold Within; omega⟩)

theorem old_owned_of_mem {edit : Edit} (hedit : edit ∈ patch) (hge : edit.new.start ≤ row) (hlt : row < edit.new.stop) :
    old_owned patch edits row = true :=
  decide_eq_true (Or.inl ⟨edit, hedit, by unfold Within; omega⟩)

theorem owned_of_conflicts {edit : Edit} (hedit : edit ∈ edits) (hconflicts : Conflicts patch edit) :
    (∀ row, edit.old.start ≤ row → row < edit.old.stop → old_owned patch edits row = true) ∧
      ∀ row, edit.new.start ≤ row → row < edit.new.stop → new_owned patch edits row = true :=
  ⟨fun row hge hlt => decide_eq_true (Or.inr ⟨edit, hedit, hconflicts, by unfold Within; omega⟩),
    fun row hge hlt => decide_eq_true (Or.inl ⟨edit, hedit, hconflicts, by unfold Within; omega⟩)⟩

end owned

variable {patch edits : Patch} {base old new : Rope}

theorem Aligned.unowned_prefix {done before after : Patch} {row row' x s : Nat}
    (h : Aligned base old row row' (before ++ after)) (hreached : Reached patch done (before ++ after) row row')
    (hbefore : ∀ edit ∈ before, edit.new.stop ≤ x) (hafter : ∀ edit ∈ after, x ≤ edit.new.start) (hrow : row' ≤ x)
    (hs : (s : Int) = x + row - row' - deltas before) :
    row ≤ s ∧ unowned (markedRows (base_owned patch edits) base row s) =
      unowned (markedRows (old_owned patch edits) old row' x) := by
  induction before generalizing done row row' with
  | nil =>
    rw [List.nil_append] at h hreached
    simp only [deltas, List.map_nil, List.sum_nil] at hs
    have hle : row ≤ s := by omega
    refine ⟨hle, congrArg unowned ?_⟩
    rw [show s = row + (x - row') by omega]
    have htext : row_slice base row (row + (x - row')) = row_slice old row' x := by
      obtain ⟨rows, rfl⟩ := Nat.exists_eq_add_of_le hrow
      rw [Nat.add_sub_cancel_left]
      cases after with
      | nil =>
        have hrest : base.drop (row_start base row) = old.drop (row_start old row') := h
        rw [row_slice_eq_take (Nat.le_add_right _ _), row_slice_eq_take (Nat.le_add_right _ _), hrest,
          Nat.add_sub_cancel_left, Nat.add_sub_cancel_left]
      | cons edit after =>
        obtain ⟨⟨hle, hshift⟩, ⟨hstart, hstart'⟩, hgap, -⟩ := h
        have := hafter edit List.mem_cons_self
        rw [@row_slice_initial _ _ edit.old.start _ (by omega) hstart, hgap,
          ← @row_slice_initial _ _ edit.new.start _ (by omega) hstart']
    refine markedRows_congr (by omega) htext fun n hn => base_owned_eq hreached ?_
    cases after with
    | nil => simp
    | cons edit after =>
      obtain ⟨⟨-, hshift⟩, -⟩ := h
      have := hafter edit List.mem_cons_self
      exact hreached.before_rest hshift (by omega)
  | cons edit before ih =>
    rw [List.cons_append] at h hreached
    obtain ⟨⟨hle, hshift⟩, ⟨hstart, -⟩, hgap, ⟨hold, hnew⟩, hrest⟩ := h
    have hmem : edit ∈ patch := by
      rw [hreached.split]
      exact List.mem_append_right _ List.mem_cons_self
    have hstop := hbefore edit List.mem_cons_self
    obtain ⟨hge, hsame⟩ := ih hrest (hreached.next hle hshift) (fun y hy => hbefore y (List.mem_cons_of_mem _ hy)) hstop (by
      simp only [deltas, List.map_cons, List.sum_cons, Edit.delta, Edit.old_len, Edit.new_len] at hs ⊢
      omega)
    have hfree : markedRows (base_owned patch edits) base row edit.old.start =
        markedRows (old_owned patch edits) old row' edit.new.start :=
      markedRows_congr hle hgap fun n hn => base_owned_eq hreached (hreached.before_rest hshift (by omega))
    refine ⟨by omega, ?_⟩
    rw [← markedRows_append _ base hle (Nat.le_trans hold hge), ← markedRows_append _ base hold hge,
      ← markedRows_append _ old (show row' ≤ edit.new.start by omega) (Nat.le_trans hnew hstop),
      ← markedRows_append _ old hnew hstop, unowned_append, unowned_append, unowned_append, unowned_append, hfree, hsame,
      unowned_markedRows hold fun n => base_owned_of_mem hmem, unowned_markedRows hnew fun n => old_owned_of_mem hmem]

/-- The user's edits that meet no edit of the patch. -/
def free_edits (patch edits : Patch) : Patch := edits.filter fun edit => decide (¬ Conflicts patch edit)

theorem rebased_eq_map (patch edits : Patch) : rebased patch edits = (free_edits patch edits).map (rebase patch) := rfl

variable (patch) in
theorem Aligned.unowned_new {done rest : Patch} {row row' : Nat} (h : Aligned old new row row' rest)
    (hreached : Reached edits done rest row row') :
    unowned (apply_from (mark (old_owned patch edits) 0 old) (mark (new_owned patch edits) 0 new) (row_start old row)
        ((free_edits patch rest).map (byte_edit old new))) =
      unowned (mark (new_owned patch edits) row' (new.drop (row_start new row'))) := by
  induction rest generalizing done row row' with
  | nil =>
    have hrest : old.drop (row_start old row) = new.drop (row_start new row') := h
    change unowned ((mark (old_owned patch edits) 0 old).drop _) = _
    rw [drop_mark, hrest]
    refine congrArg unowned (mark_congr (row_start_of_gt (Nat.lt_succ_self _)) fun n _ => ?_)
    exact (new_owned_eq hreached (by simp)).symm
  | cons edit rest ih =>
    obtain ⟨⟨hle, hshift⟩, -, hgap, ⟨hold, hnew⟩, hrest⟩ := h
    have hle' : row' ≤ edit.new.start := by omega
    have hmem : edit ∈ edits := by
      rw [hreached.split]
      exact List.mem_append_right _ List.mem_cons_self
    have hih := ih hrest (hreached.next hle hshift)
    have hsame : markedRows (old_owned patch edits) old row edit.old.start =
        markedRows (new_owned patch edits) new row' edit.new.start :=
      markedRows_congr hle hgap fun n hn => (new_owned_eq hreached (hreached.before_rest hshift (by omega))).symm
    rw [← markedRows_append_drop _ new hle', ← markedRows_append_drop _ new hnew, unowned_append, unowned_append, ← hih]
    by_cases hconflicts : Conflicts patch edit
    · have hfree : free_edits patch (edit :: rest) = free_edits patch rest :=
        List.filter_cons_of_neg (by simp [hconflicts])
      have hstarts : ∀ x ∈ (free_edits patch rest).map (byte_edit old new), row_start old edit.old.stop ≤ x.old.start := by
        intro x hx
        obtain ⟨y, hy, rfl⟩ := List.mem_map.mp hx
        have hapart := hreached.old
        rw [hreached.split] at hapart
        exact row_start_mono (Nat.le_of_lt (hapart.of_append.lt (List.mem_filter.mp hy).1))
      have howned := @owned_of_conflicts patch edits edit hmem hconflicts
      rw [hfree, apply_from_skip _ _ (row_start_mono (Nat.le_trans hle hold)) hstarts, slice_mark _ _ (Nat.le_trans hle hold),
        ← markedRows_append _ old hle hold, unowned_append, unowned_append, hsame, unowned_markedRows hold howned.1,
        unowned_markedRows hnew howned.2, List.append_nil, List.nil_append]
    · have hfree : free_edits patch (edit :: rest) = edit :: free_edits patch rest :=
        List.filter_cons_of_pos (by simp [hconflicts])
      rw [hfree, List.map_cons, apply_from, unowned_append, unowned_append]
      rw [show slice (mark (old_owned patch edits) 0 old) (row_start old row) (byte_edit old new edit).old.start =
        markedRows (old_owned patch edits) old row edit.old.start from slice_mark _ _ hle, hsame, List.append_assoc]
      rw [show slice (mark (new_owned patch edits) 0 new) (byte_edit old new edit).new.start (byte_edit old new edit).new.stop =
        markedRows (new_owned patch edits) new edit.new.start edit.new.stop from slice_mark _ _ hnew]
      rfl

variable (edits) in
theorem Between.unowned_prefix {before after : Patch} {edit : Edit} (hpatch : Rewrites patch base old)
    (h : Between patch before after edit) :
    unowned (markedRows (base_owned patch edits) base 0 (rebase patch edit).old.start) =
        unowned (markedRows (old_owned patch edits) old 0 edit.old.start) ∧
      unowned (markedRows (base_owned patch edits) base 0 (rebase patch edit).old.stop) =
        unowned (markedRows (old_owned patch edits) old 0 edit.old.stop) := by
  obtain ⟨hstart, hstop⟩ := h.rebase_old hpatch.apart_new
  have haligned := hpatch.aligned
  have hreached := Reached.start hpatch.apart_old hpatch.apart_new
  have hordered := h.ordered
  rw [h.split] at haligned
  rw [show Reached patch [] patch 0 0 ↔ Reached patch [] (before ++ after) 0 0 by rw [← h.split]] at hreached
  constructor
  · exact (haligned.unowned_prefix hreached (fun p hp => (h.before p hp).le)
      (fun p hp => Nat.le_trans hordered (h.after p hp).le) (Nat.zero_le _) (by omega)).2
  · exact (haligned.unowned_prefix hreached (fun p hp => Nat.le_trans (h.before p hp).le hordered)
      (fun p hp => (h.after p hp).le) (Nat.zero_le _) (by omega)).2

theorem mem_le_sum {patch : Patch} {edit : Edit} (h : edit ∈ patch) : edit.new.stop ≤ (patch.map fun x => x.new.stop).sum :=
  List.le_sum_of_mem (List.mem_map_of_mem h)

variable (edits) in
theorem unowned_base (hpatch : Rewrites patch base old) :
    unowned (mark (base_owned patch edits) 0 base) = unowned (mark (old_owned patch edits) 0 old) := by
  have haligned := hpatch.aligned
  have hreached := Reached.start hpatch.apart_old hpatch.apart_new
  -- a row past the ends of both texts
  obtain ⟨x, hx⟩ : ∃ x, x = newlines old + newlines base + 2 + (patch.map fun y => y.new.stop).sum + (deltas patch).toNat :=
    ⟨_, rfl⟩
  obtain ⟨s, hs⟩ : ∃ s : Nat, (s : Int) = x - deltas patch := ⟨(x - deltas patch).toNat, by omega⟩
  rw [← List.append_nil patch] at haligned
  rw [show Reached patch [] patch 0 0 ↔ Reached patch [] (patch ++ []) 0 0 by rw [List.append_nil]] at hreached
  have hinit : unowned (markedRows (base_owned patch edits) base 0 s) =
      unowned (markedRows (old_owned patch edits) old 0 x) := (haligned.unowned_prefix hreached
    (fun p hp => by have := mem_le_sum hp; omega) (by simp) (Nat.zero_le _) (by omega)).2
  rwa [markedRows_of_gt _ (Nat.zero_le _) (by omega), markedRows_of_gt _ (Nat.zero_le _) (by omega), row_start_zero,
    row_start_zero, List.drop_zero, List.drop_zero] at hinit

variable (edits new) in
theorem unowned_rebased (hpatch : Rewrites patch base old) (marked : List (UInt8 × Bool)) (free : Patch) {row row' : Nat}
    (hfree : Apart Edit.old free) (hconflicts : ∀ edit ∈ free, ¬ Conflicts patch edit)
    (hsame : unowned (markedRows (base_owned patch edits) base 0 row) =
      unowned (markedRows (old_owned patch edits) old 0 row'))
    (hrow : ∀ edit ∈ free, row ≤ (rebase patch edit).old.start ∧ row' ≤ edit.old.start) :
    unowned (apply_from (mark (base_owned patch edits) 0 base) marked (row_start base row)
        ((free.map (rebase patch)).map (byte_edit base new))) =
      unowned (apply_from (mark (old_owned patch edits) 0 old) marked (row_start old row') (free.map (byte_edit old new))) := by
  induction free generalizing row row' with
  | nil =>
    have hfull := unowned_base edits hpatch
    have hbase := markedRows_append_drop (base_owned patch edits) base (Nat.zero_le row)
    have hold := markedRows_append_drop (old_owned patch edits) old (Nat.zero_le row')
    rw [row_start_zero, List.drop_zero] at hbase hold
    rw [← hbase, ← hold, unowned_append, unowned_append, hsame] at hfull
    change unowned ((mark _ 0 base).drop _) = unowned ((mark _ 0 old).drop _)
    rw [drop_mark, drop_mark]
    exact List.append_cancel_left hfull
  | cons edit free ih =>
    obtain ⟨hstart, hstart'⟩ := hrow edit List.mem_cons_self
    have hordered := hfree.ordered edit List.mem_cons_self
    obtain ⟨before, after, hbetween⟩ :=
      between_of_not_conflicts hpatch.apart_new hordered (hconflicts edit List.mem_cons_self)
    obtain ⟨hinit, hinit'⟩ := hbetween.unowned_prefix edits hpatch
    have hrest := ih hfree.tail (fun x hx => hconflicts x (List.mem_cons_of_mem _ hx)) hinit' fun x hx => by
      obtain ⟨before', after', hbetween'⟩ := between_of_not_conflicts hpatch.apart_new
        (hfree.ordered x (List.mem_cons_of_mem _ hx)) (hconflicts x (List.mem_cons_of_mem _ hx))
      exact ⟨hbetween.rebase_le hbetween' hpatch.apart_new (Nat.le_of_lt (hfree.lt hx)), Nat.le_of_lt (hfree.lt hx)⟩
    have hgap : unowned (markedRows (base_owned patch edits) base row (rebase patch edit).old.start) =
        unowned (markedRows (old_owned patch edits) old row' edit.old.start) := by
      rw [← markedRows_append _ base (Nat.zero_le row) hstart, ← markedRows_append _ old (Nat.zero_le row') hstart',
        unowned_append, unowned_append, hsame] at hinit
      exact List.append_cancel_left hinit
    rw [List.map_cons, List.map_cons, List.map_cons, apply_from, apply_from, unowned_append, unowned_append, unowned_append,
      unowned_append]
    rw [show slice (mark (base_owned patch edits) 0 base) (row_start base row) (byte_edit base new (rebase patch edit)).old.start =
      markedRows (base_owned patch edits) base row (rebase patch edit).old.start from slice_mark _ _ hstart]
    rw [show slice (mark (old_owned patch edits) 0 old) (row_start old row') (byte_edit old new edit).old.start =
      markedRows (old_owned patch edits) old row' edit.old.start from slice_mark _ _ hstart', hgap]
    exact congrArg (_ ++ ·) hrest

/-- The result and the new text differ only in rows that belong to the patch or
    to a user's edit that conflicts with it. -/
theorem unowned_eq (hpatch : Rewrites patch base old) (hedits : Rewrites edits old new) :
    unowned (apply_from (mark (base_owned patch edits) 0 base) (mark (new_owned patch edits) 0 new) 0
        ((rebased patch edits).map (byte_edit base new))) =
      unowned (mark (new_owned patch edits) 0 new) := by
  have hnew := hedits.aligned.unowned_new patch (Reached.start hedits.apart_old hedits.apart_new)
  have hnone : unowned (markedRows (base_owned patch edits) base 0 0) =
      unowned (markedRows (old_owned patch edits) old 0 0) := by
    rw [markedRows, markedRows, row_slice_self, row_slice_self, mark, mark]
  have hbase := unowned_rebased edits new hpatch (mark (new_owned patch edits) 0 new) (free_edits patch edits)
    (hedits.apart_old.sublist List.filter_sublist) (fun edit hedit => of_decide_eq_true (List.mem_filter.mp hedit).2)
    hnone (fun _ _ => ⟨Nat.zero_le _, Nat.zero_le _⟩)
  rw [row_start_zero, row_start_zero, List.drop_zero] at hnew
  rw [row_start_zero, row_start_zero] at hbase
  rw [rebased_eq_map, hbase, hnew]

end zed.action_log
