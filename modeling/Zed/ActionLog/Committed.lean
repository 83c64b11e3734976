import Zed.ActionLog.Marks

namespace zed.action_log

open zed.rope zed.rope.Rope zed.text
open zed.text.Patch (slice apply_from)

def slice_rows (text : Rope) (rows : Range) : Rope :=
  slice text (point_to_offset text ⟨rows.start, 0⟩) (point_to_offset text ⟨rows.stop, 0⟩)

/-- Replaces rows of the base by what the buffer has in their place. -/
def keep_rows (new_agent_diff_base unreviewed_new : Rope) (old : Range) : Rope :=
  let old_bytes := row_bytes new_agent_diff_base old
  replace new_agent_diff_base old_bytes.start old_bytes.stop unreviewed_new

/-- The inner loop of `keep_committed_edits`, for one committed edit. -/
def keep_committed (buffer_text git_diff_base : Rope) (committed : Edit) :
    List Edit → Rope → Int → List Edit × Rope × Int
  | [], new_agent_diff_base, row_delta => ([], new_agent_diff_base, row_delta)
  | unreviewed :: old_unreviewed_edits, new_agent_diff_base, row_delta =>
    -- If the committed edit matches the unreviewed edit, assume the user wants to keep it.
    if committed.old = unreviewed.old then
      let unreviewed_new := slice_rows buffer_text unreviewed.new
      let committed_new := slice_rows git_diff_base committed.new
      if unreviewed_new = committed_new then
        let old : Range := ⟨(unreviewed.old.start + row_delta).toNat, (unreviewed.old.stop + row_delta).toNat⟩
        keep_committed buffer_text git_diff_base committed old_unreviewed_edits
          (keep_rows new_agent_diff_base unreviewed_new old) (row_delta + unreviewed.delta)
      else keep_committed buffer_text git_diff_base committed old_unreviewed_edits new_agent_diff_base row_delta
    else if unreviewed.old.start ≥ committed.old.stop then
      (unreviewed :: old_unreviewed_edits, new_agent_diff_base, row_delta)
    else keep_committed buffer_text git_diff_base committed old_unreviewed_edits new_agent_diff_base row_delta

def keep_each_committed (buffer_text git_diff_base : Rope) :
    List Edit → List Edit → Rope → Int → Rope
  | [], _, new_agent_diff_base, _ => new_agent_diff_base
  | committed :: committed_edits, old_unreviewed_edits, new_agent_diff_base, row_delta =>
    let (old_unreviewed_edits, new_agent_diff_base, row_delta) :=
      keep_committed buffer_text git_diff_base committed old_unreviewed_edits new_agent_diff_base row_delta
    keep_each_committed buffer_text git_diff_base committed_edits old_unreviewed_edits new_agent_diff_base row_delta

/-- The base text that `keep_committed_edits` gives the diff. -/
def keep_committed_edits (line_diff : Rope → Rope → List Edit) (unreviewed_edits : Patch)
    (agent_diff_base git_diff_base buffer_text : Rope) : Rope :=
  if buffer_text.length = git_diff_base.length ∧ buffer_text = git_diff_base then git_diff_base
  else
    keep_each_committed buffer_text git_diff_base (line_diff agent_diff_base git_diff_base) unreviewed_edits
      agent_diff_base 0

def Matches (buffer_text git_diff_base : Rope) (unreviewed committed : Edit) : Prop :=
  committed.old = unreviewed.old ∧
    row_slice buffer_text unreviewed.new.start unreviewed.new.stop =
      row_slice git_diff_base committed.new.start committed.new.stop

instance (buffer_text git_diff_base : Rope) (unreviewed committed : Edit) :
    Decidable (Matches buffer_text git_diff_base unreviewed committed) := inferInstanceAs (Decidable (_ ∧ _))

def Committed (buffer_text git_diff_base : Rope) (committed_edits : List Edit) (unreviewed : Edit) : Prop :=
  ∃ committed ∈ committed_edits, Matches buffer_text git_diff_base unreviewed committed

instance (buffer_text git_diff_base : Rope) (committed_edits : List Edit) (unreviewed : Edit) :
    Decidable (Committed buffer_text git_diff_base committed_edits unreviewed) :=
  inferInstanceAs (Decidable (∃ committed ∈ committed_edits, Matches buffer_text git_diff_base unreviewed committed))

/-- The edits that are not kept, moved by the kept ones before them. -/
def leftover (kept : Edit → Bool) : Int → Patch → Patch
  | _, [] => []
  | row_delta, edit :: edits =>
    if kept edit then leftover kept (row_delta + edit.delta) edits
    else
      { edit with old := ⟨(edit.old.start + row_delta).toNat, (edit.old.stop + row_delta).toNat⟩ } ::
        leftover kept row_delta edits

variable {buffer_text git_diff_base : Rope}

theorem slice_rows_eq (text : Rope) (rows : Range) : slice_rows text rows = row_slice text rows.start rows.stop := by
  rw [slice_rows, point_to_offset_row, point_to_offset_row, row_slice]

theorem keep_rows_eq (text new_text : Rope) (old new : Range) :
    keep_rows text (slice_rows new_text new) old = replace_rows text new_text old new := by
  rw [keep_rows, slice_rows_eq, replace_rows, row_bytes_eq, row_bytes_eq]
  rfl

theorem keep_committed_spec (buffer_text git_diff_base : Rope) (committed : Edit) {unreviewed_edits : List Edit} (h : Apart Edit.old unreviewed_edits)
    (hcommitted : committed.old.start ≤ committed.old.stop) (text : Rope) (row_delta : Int) :
    let left := keep_committed buffer_text git_diff_base committed unreviewed_edits text row_delta
    ∃ passed, unreviewed_edits = passed ++ left.1 ∧ (∀ edit ∈ passed, edit.old.start < committed.old.stop ∨ edit.old = committed.old) ∧
      (∀ edit ∈ left.1, edit.old ≠ committed.old) ∧
      ∀ edits, replay buffer_text text row_delta
          (passed.filter (fun edit => decide (Matches buffer_text git_diff_base edit committed)) ++ edits) =
        replay buffer_text left.2.1 left.2.2 edits := by
  induction unreviewed_edits generalizing text row_delta with
  | nil => exact ⟨[], rfl, by simp, by simp [keep_committed], fun edits => rfl⟩
  | cons unreviewed unreviewed_edits ih =>
    rw [keep_committed]
    by_cases hsame : committed.old = unreviewed.old
    · by_cases htext : slice_rows buffer_text unreviewed.new = slice_rows git_diff_base committed.new
      · rw [if_pos hsame, if_pos htext]
        obtain ⟨passed, hsplit, hpassed, hleft, hreplay⟩ := ih h.tail (keep_rows text (slice_rows buffer_text unreviewed.new)
          ⟨(unreviewed.old.start + row_delta).toNat, (unreviewed.old.stop + row_delta).toNat⟩) (row_delta + unreviewed.delta)
        have hmatches : Matches buffer_text git_diff_base unreviewed committed := by
          rw [slice_rows_eq, slice_rows_eq] at htext
          exact ⟨hsame, htext⟩
        refine ⟨unreviewed :: passed, by rw [List.cons_append, ← hsplit], fun edit hedit => ?_, hleft, fun edits => ?_⟩
        · obtain rfl | hedit := List.mem_cons.mp hedit
          · exact Or.inr hsame.symm
          · exact hpassed edit hedit
        · rw [List.filter_cons_of_pos (by simp [hmatches]), List.cons_append, replay, ← keep_rows_eq]
          exact hreplay edits
      · rw [if_pos hsame, if_neg htext]
        obtain ⟨passed, hsplit, hpassed, hleft, hreplay⟩ := ih h.tail text row_delta
        have hmatches : ¬ Matches buffer_text git_diff_base unreviewed committed := fun hmatches => by
          rw [slice_rows_eq, slice_rows_eq] at htext
          exact htext hmatches.2
        refine ⟨unreviewed :: passed, by rw [List.cons_append, ← hsplit], fun edit hedit => ?_, hleft, fun edits => ?_⟩
        · obtain rfl | hedit := List.mem_cons.mp hedit
          · exact Or.inr hsame.symm
          · exact hpassed edit hedit
        · rw [List.filter_cons_of_neg (by simp [hmatches])]
          exact hreplay edits
    · by_cases hbreak : unreviewed.old.start ≥ committed.old.stop
      · rw [if_neg hsame, if_pos hbreak]
        refine ⟨[], rfl, by simp, fun edit hedit heq => ?_, fun edits => rfl⟩
        obtain rfl | hedit := List.mem_cons.mp hedit
        · exact hsame heq.symm
        · have hlt := h.lt hedit
          have hle := h.ordered unreviewed List.mem_cons_self
          rw [heq] at hlt
          omega
      · rw [if_neg hsame, if_neg hbreak]
        obtain ⟨passed, hsplit, hpassed, hleft, hreplay⟩ := ih h.tail text row_delta
        have hmatches : ¬ Matches buffer_text git_diff_base unreviewed committed := fun hmatches => hsame hmatches.1
        refine ⟨unreviewed :: passed, by rw [List.cons_append, ← hsplit], fun edit hedit => ?_, hleft, fun edits => ?_⟩
        · obtain rfl | hedit := List.mem_cons.mp hedit
          · exact Or.inl (Nat.lt_of_not_le hbreak)
          · exact hpassed edit hedit
        · rw [List.filter_cons_of_neg (by simp [hmatches])]
          exact hreplay edits

theorem keep_each_committed_eq {committed_edits unreviewed_edits : List Edit} (hcommitted : Apart Edit.old committed_edits)
    (h : Apart Edit.old unreviewed_edits) (text : Rope) (row_delta : Int) :
    keep_each_committed buffer_text git_diff_base committed_edits unreviewed_edits text row_delta =
      replay buffer_text text row_delta
        (unreviewed_edits.filter fun edit => decide (Committed buffer_text git_diff_base committed_edits edit)) := by
  induction committed_edits generalizing unreviewed_edits text row_delta with
  | nil =>
    rw [List.filter_eq_nil_iff.mpr fun edit _ => by simp [Committed]]
    rfl
  | cons committed committed_edits ih =>
    have hordered := hcommitted.ordered committed List.mem_cons_self
    obtain ⟨passed, hsplit, hpassed, hleft, hreplay⟩ :=
      keep_committed_spec buffer_text git_diff_base committed h hordered text row_delta
    rw [keep_each_committed]
    generalize keep_committed buffer_text git_diff_base committed unreviewed_edits text row_delta = left at *
    obtain ⟨edits, left_text, left_delta⟩ := left
    dsimp only at hsplit hleft hreplay ⊢
    rw [hsplit] at h ⊢
    have hlater : ∀ edit ∈ passed, ¬ Committed buffer_text git_diff_base committed_edits edit := by
      rintro edit hedit ⟨later, hmem, hmatches⟩
      have hlt := hcommitted.lt hmem
      rw [hmatches.1] at hlt
      rcases hpassed edit hedit with hbefore | heq
      · omega
      · rw [heq] at hlt
        omega
    have hcons : ∀ edit, Committed buffer_text git_diff_base (committed :: committed_edits) edit ↔
        Matches buffer_text git_diff_base edit committed ∨ Committed buffer_text git_diff_base committed_edits edit :=
      fun edit => List.exists_mem_cons_iff _ _ _
    have hpassedFilter : passed.filter (fun edit => decide (Committed buffer_text git_diff_base (committed :: committed_edits) edit)) =
        passed.filter fun edit => decide (Matches buffer_text git_diff_base edit committed) :=
      List.filter_congr fun edit hedit => by rw [decide_eq_decide, hcons, or_iff_left (hlater edit hedit)]
    have hleftFilter : edits.filter (fun edit => decide (Committed buffer_text git_diff_base (committed :: committed_edits) edit)) =
        edits.filter fun edit => decide (Committed buffer_text git_diff_base committed_edits edit) :=
      List.filter_congr fun edit hedit => by
        rw [decide_eq_decide, hcons, or_iff_right fun hmatches => hleft edit hedit hmatches.1.symm]
    rw [List.filter_append, hpassedFilter, hleftFilter, hreplay, ih hcommitted.tail h.of_append]

section left

variable {base new : Rope}

theorem drop_rows {text before after : Rope} {row rows : Nat} (h : text.drop (row_start text row) = before ++ after)
    (hbefore : Closed before) (hrows : newlines before = rows) (more : Nat) :
    text.drop (row_start text (row + (rows + more))) = after.drop (row_start after more) := by
  rw [row_start_add, ← List.drop_drop, h, ← hrows, hbefore.row_start_append, List.drop_length_add_append]

theorem first_rows {text before after : Rope} {row rows : Nat} (h : text.drop (row_start text row) = before ++ after)
    (hbefore : Closed before) (hrows : newlines before = rows) : row_slice text row (row + rows) = before := by
  have hlen := hbefore.row_start_append after 0
  rw [row_start_zero, hrows, Nat.add_zero, Nat.add_zero] at hlen
  rw [row_slice_eq_take (Nat.le_add_right _ _), Nat.add_sub_cancel_left, h, hlen, List.take_left]

theorem drop_row_slice {text rest : Rope} {row stop : Nat} (h : row ≤ stop)
    (hrest : rest = text.drop (row_start text stop) ∨ stop ≤ newlines text) :
    (row_slice text row stop ++ rest).drop (row_start (row_slice text row stop ++ rest) (stop - row)) = rest := by
  rcases hrest with hrest | hstop
  · rw [hrest, row_slice_append_drop h, List.drop_drop, ← row_start_add, Nat.add_sub_cancel' h]
  · obtain ⟨hclosed, hlines⟩ := row_slice_closed h hstop
    have hend := hclosed.row_start_append rest 0
    rw [row_start_zero, hlines, Nat.add_zero, Nat.add_zero] at hend
    rw [hend, List.drop_left]

/-- Once some of the edits are applied, the others lead from there to the new text. -/
theorem Aligned.others (kept : Edit → Bool) {patch : Patch} {row row' : Nat} (h : Aligned base new row row' patch)
    (hseparate : patch.Pairwise fun x y => x.old.stop < y.old.start ∧ x.new.stop < y.new.start)
    {text shared : Rope} {from_row from_row' : Nat} {row_delta : Int}
    (htext : text.drop (row_start text from_row) =
      shared ++ apply_from base new (row_start base row) ((patch.filter kept).map (byte_edit base new)))
    (hnew : new.drop (row_start new from_row') = shared ++ new.drop (row_start new row'))
    (hshared : patch ≠ [] → Closed shared ∧ (newlines shared : Int) = row + row_delta - from_row ∧
      from_row' + newlines shared = row' ∧ from_row ≤ newlines text) :
    Aligned text new from_row from_row' (leftover kept row_delta patch) := by
  induction patch generalizing row row' shared from_row from_row' row_delta with
  | nil =>
    have hrest : base.drop (row_start base row) = new.drop (row_start new row') := h
    change text.drop _ = new.drop _
    rw [htext, hnew, ← hrest]
    rfl
  | cons edit edits ih =>
    obtain ⟨hclosed, hlines, hlines', hreach⟩ := hshared (List.cons_ne_nil _ _)
    have hwithin : ∀ x ∈ edits, edit.old.stop ≤ newlines base ∧ edit.new.stop ≤ newlines new := fun x hx =>
      List.rel_of_pairwise_cons (h.stops hseparate) hx
    obtain ⟨⟨hle, hshift⟩, ⟨hstart, hstart'⟩, hgap, ⟨hold, hnewle⟩, hrest⟩ := h
    obtain ⟨hgapClosed, hgapLines⟩ := row_slice_closed hle hstart
    have hnewRest : new.drop (row_start new from_row') = (shared ++ row_slice base row edit.old.start) ++
        (row_slice new edit.new.start edit.new.stop ++ new.drop (row_start new edit.new.stop)) := by
      rw [hnew, ← row_slice_append_drop (show row' ≤ edit.new.start by omega), ← row_slice_append_drop hnewle, hgap,
        List.append_assoc]
    have hfirstClosed := hclosed.append hgapClosed
    have hfirstLines : newlines (shared ++ row_slice base row edit.old.start) =
        newlines shared + (edit.old.start - row) := by
      rw [newlines_append, hgapLines]
    cases hkept : kept edit with
    | true =>
      rw [leftover, hkept, if_pos rfl]
      have hlonger : text.drop (row_start text from_row) =
          (shared ++ row_slice base row edit.old.start ++ row_slice new edit.new.start edit.new.stop) ++
            apply_from base new (row_start base edit.old.stop) ((edits.filter kept).map (byte_edit base new)) := by
        rw [htext, List.filter_cons_of_pos hkept, List.map_cons, apply_from]
        simp only [List.append_assoc]
        rfl
      refine ih hrest hseparate.of_cons hlonger ?_ ?_
      · rw [hnewRest]
        simp only [List.append_assoc]
      · intro hne
        obtain ⟨x, hx⟩ := List.exists_mem_of_ne_nil edits hne
        obtain ⟨hbase, hend⟩ := hwithin x hx
        obtain ⟨hrowsClosed, hrowsLines⟩ := row_slice_closed hnewle hend
        refine ⟨hfirstClosed.append hrowsClosed, ?_, ?_, hreach⟩
        · rw [newlines_append, hfirstLines, hrowsLines]
          unfold Edit.delta Edit.old_len Edit.new_len
          omega
        · rw [newlines_append, hfirstLines, hrowsLines]
          omega
    | false =>
      rw [leftover, hkept, if_neg Bool.false_ne_true]
      have hstarts : ∀ x ∈ (edits.filter kept).map (byte_edit base new), row_start base edit.old.stop ≤ x.old.start := by
        intro x hx
        obtain ⟨y, hy, rfl⟩ := List.mem_map.mp hx
        exact row_start_mono (Nat.le_of_lt (List.rel_of_pairwise_cons hseparate (List.mem_filter.mp hy).1).1)
      obtain ⟨rest, hrestEq⟩ : ∃ rest, rest = apply_from base new (row_start base edit.old.stop)
        ((edits.filter kept).map (byte_edit base new)) := ⟨_, rfl⟩
      have htextRest : text.drop (row_start text from_row) = (shared ++ row_slice base row edit.old.start) ++
          (row_slice base edit.old.start edit.old.stop ++ rest) := by
        rw [htext, List.filter_cons_of_neg (by simp [hkept]),
          apply_from_skip _ _ (row_start_mono (Nat.le_trans hle hold)) hstarts, ← hrestEq]
        change shared ++ (row_slice base row edit.old.stop ++ rest) = _
        rw [← row_slice_append hle hold]
        simp only [List.append_assoc]
      have hfrom : (edit.old.start + row_delta).toNat = from_row + (newlines shared + (edit.old.start - row)) ∧
          (edit.old.stop + row_delta).toNat =
            from_row + (newlines shared + (edit.old.start - row) + (edit.old.stop - edit.old.start)) := by
        omega
      have hnewFrom : edit.new.start = from_row' + (newlines shared + (edit.old.start - row)) := by omega
      have hreached : from_row + (newlines shared + (edit.old.start - row)) ≤ newlines text ∧
          (edits ≠ [] → from_row + (newlines shared + (edit.old.start - row) + (edit.old.stop - edit.old.start)) ≤ newlines text) := by
        have hall := newlines_drop hreach
        rw [htextRest, newlines_append, hfirstLines, newlines_append] at hall
        refine ⟨by omega, fun hne => ?_⟩
        obtain ⟨x, hx⟩ := List.exists_mem_of_ne_nil edits hne
        rw [(row_slice_closed hold (hwithin x hx).1).2] at hall
        omega
      refine ⟨⟨by dsimp only; omega, by dsimp only; omega⟩, ⟨by dsimp only; omega, hstart'⟩, ?_, ⟨by dsimp only; omega, hnewle⟩, ?_⟩
      · dsimp only
        rw [hfrom.1, hnewFrom, first_rows htextRest hfirstClosed hfirstLines, first_rows hnewRest hfirstClosed hfirstLines]
      · have hafter : text.drop (row_start text (edit.old.stop + row_delta).toNat) =
            [] ++ apply_from base new (row_start base edit.old.stop) ((edits.filter kept).map (byte_edit base new)) := by
          rw [hfrom.2, drop_rows htextRest hfirstClosed hfirstLines, ← hrestEq, List.nil_append]
          refine drop_row_slice hold ?_
          cases edits with
          | nil => exact Or.inl hrestEq
          | cons next edits => exact Or.inr (hwithin next List.mem_cons_self).1
        refine ih hrest hseparate.of_cons hafter rfl fun hne => ⟨closed_nil, ?_, ?_, ?_⟩
        · simp only [newlines, List.count_nil]
          omega
        · simp [newlines]
        · dsimp only
          rw [hfrom.2]
          exact hreached.2 hne

theorem leftover_new_sublist (kept : Edit → Bool) (row_delta : Int) (patch : Patch) :
    ((leftover kept row_delta patch).map Edit.new).Sublist (patch.map Edit.new) := by
  induction patch generalizing row_delta with
  | nil => exact List.Sublist.slnil
  | cons edit edits ih =>
    rw [leftover]
    split
    · exact (ih _).cons _
    · exact (ih _).cons₂ _

theorem Aligned.lt {patch : Patch} {row row' : Nat} (h : Aligned base new row row' patch)
    (hnew : patch.Pairwise fun x y => x.new.stop < y.new.start) (hlt : ∀ edit ∈ patch, row' < edit.new.start) :
    ∀ edit ∈ patch, row < edit.old.start := by
  induction patch generalizing row row' with
  | nil => simp
  | cons first edits ih =>
    obtain ⟨⟨-, hshift⟩, -, -, ⟨hold, -⟩, hrest⟩ := h
    obtain ⟨hfirst, htail⟩ := List.pairwise_cons.mp hnew
    have hedit := hlt first List.mem_cons_self
    intro edit hmem
    obtain rfl | hmem := List.mem_cons.mp hmem
    · omega
    · have := ih hrest htail hfirst edit hmem
      omega

theorem Aligned.separate {patch : Patch} {row row' : Nat} (h : Aligned base new row row' patch)
    (hnew : patch.Pairwise fun x y => x.new.stop < y.new.start) :
    patch.Pairwise fun x y => x.old.stop < y.old.start ∧ x.new.stop < y.new.start := by
  induction patch generalizing row row' with
  | nil => exact List.Pairwise.nil
  | cons edit edits ih =>
    obtain ⟨-, -, -, -, hrest⟩ := h
    obtain ⟨hfirst, htail⟩ := List.pairwise_cons.mp hnew
    exact List.pairwise_cons.mpr ⟨fun x hx => ⟨hrest.lt htail hfirst x hx, hfirst x hx⟩, ih hrest htail⟩

theorem Aligned.ordered {patch : Patch} {row row' : Nat} (h : Aligned base new row row' patch) :
    ∀ edit ∈ patch, edit.old.start ≤ edit.old.stop ∧ edit.new.start ≤ edit.new.stop := by
  induction patch generalizing row row' with
  | nil => simp
  | cons first edits ih =>
    obtain ⟨-, -, -, hordered, hrest⟩ := h
    intro edit hedit
    obtain rfl | hedit := List.mem_cons.mp hedit
    · exact hordered
    · exact ih hrest edit hedit

theorem Rewrites.others {patch : Patch} (h : Rewrites patch base new) (kept : Edit → Bool) :
    Rewrites (leftover kept 0 patch) (apply_from base new 0 ((patch.filter kept).map (byte_edit base new))) new := by
  have htext : (apply_from base new 0 ((patch.filter kept).map (byte_edit base new))).drop
      (row_start (apply_from base new 0 ((patch.filter kept).map (byte_edit base new))) 0) =
      [] ++ apply_from base new (row_start base 0) ((patch.filter kept).map (byte_edit base new)) := by
    rw [row_start_zero, row_start_zero, List.drop_zero, List.nil_append]
  have hnone : (newlines [] : Int) = (0 : Nat) + (0 : Int) - (0 : Nat) := rfl
  have haligned := h.aligned.others kept h.wellFormed.separate htext rfl fun _ => ⟨closed_nil, hnone, rfl, Nat.zero_le _⟩
  have hnew : ((leftover kept 0 patch).map Edit.new).Pairwise fun x y => x.stop < y.start :=
    (List.pairwise_map.mpr (h.wellFormed.separate.imp And.right)).sublist (leftover_new_sublist kept 0 patch)
  exact haligned.rewrites haligned.ordered (haligned.separate (List.pairwise_map.mp hnew))

/-- The base gets exactly the unreviewed edits that a committed edit matches, and the
    others still lead from it to the buffer. -/
theorem committed_edits_kept (line_diff : Rope → Rope → List Edit) {unreviewed_edits : Patch}
    {agent_diff_base git_diff_base buffer_text : Rope} (hpatch : Rewrites unreviewed_edits agent_diff_base buffer_text)
    (hdiff : Apart Edit.old (line_diff agent_diff_base git_diff_base)) (hne : git_diff_base ≠ buffer_text) :
    let kept := fun edit =>
      decide (Committed buffer_text git_diff_base (line_diff agent_diff_base git_diff_base) edit)
    let new_base := keep_committed_edits line_diff unreviewed_edits agent_diff_base git_diff_base buffer_text
    new_base = apply_from agent_diff_base buffer_text 0
        ((unreviewed_edits.filter kept).map (byte_edit agent_diff_base buffer_text)) ∧
      Rewrites (leftover kept 0 unreviewed_edits) new_base buffer_text := by
  intro kept new_base
  have hsub : (unreviewed_edits.filter kept).Sublist unreviewed_edits := List.filter_sublist
  have hreplay := @replay_eq agent_diff_base buffer_text (unreviewed_edits.filter kept)
    ((hpatch.wellFormed.separate.sublist hsub).imp fun h => Nat.le_of_lt h.1)
    (fun edit hedit => hpatch.wellFormed.ordered edit (hsub.subset hedit))
    (List.Pairwise.imp_of_mem (fun {x y} hx _ h => ⟨hpatch.starts x (hsub.subset hx), h.2⟩)
      ((hpatch.aligned.stops hpatch.wellFormed.separate).sublist hsub))
    [] 0 0 (fun _ _ => Nat.zero_le _) fun _ => ⟨closed_nil, rfl⟩
  rw [row_start_zero, List.drop_zero, List.nil_append, List.nil_append] at hreplay
  have hbase : new_base = apply_from agent_diff_base buffer_text 0
      ((unreviewed_edits.filter kept).map (byte_edit agent_diff_base buffer_text)) := by
    change keep_committed_edits _ _ _ _ _ = _
    rw [keep_committed_edits, if_neg fun hsame => hne hsame.2.symm, keep_each_committed_eq hdiff hpatch.apart_old, ← hreplay]
  exact ⟨hbase, hbase ▸ hpatch.others kept⟩

/-- Of two unreviewed edits the first one is committed. -/
theorem committed_edits_kept_sample :
    keep_committed_edits (fun _ _ => [⟨⟨0, 1⟩, ⟨0, 1⟩⟩]) [⟨⟨0, 1⟩, ⟨0, 1⟩⟩, ⟨⟨2, 3⟩, ⟨2, 3⟩⟩] [97, 10, 98, 10, 99, 10]
        [120, 10, 98, 10, 99, 10] [120, 10, 98, 10, 122, 10] = [120, 10, 98, 10, 99, 10] ∧
      Rewrites [⟨⟨2, 3⟩, ⟨2, 3⟩⟩] [120, 10, 98, 10, 99, 10] [120, 10, 98, 10, 122, 10] := by
  have h := @committed_edits_kept (fun _ _ => [⟨⟨0, 1⟩, ⟨0, 1⟩⟩]) [⟨⟨0, 1⟩, ⟨0, 1⟩⟩, ⟨⟨2, 3⟩, ⟨2, 3⟩⟩]
    [97, 10, 98, 10, 99, 10] [120, 10, 98, 10, 99, 10] [120, 10, 98, 10, 122, 10] (by decide)
    ⟨by simp, by simp⟩ (by decide)
  have hbase := h.1.trans (show _ = [120, 10, 98, 10, 99, 10] by decide)
  refine ⟨hbase, ?_⟩
  have hleft := h.2
  rw [hbase] at hleft
  exact hleft

end left

end zed.action_log
