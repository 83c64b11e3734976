import Zed.BufferDiff.Hunks
import Zed.BufferDiff.Pending.Runs
import Zed.Text.LineEnding
import Zed.Text.Network.Anchors

namespace zed.text

open zed.clock zed.rope
open zed.sum_tree (Bias)

namespace Patch

variable {β : Type} {old new : List β} {i j i' j' : Nat}

theorem Spans.pairwise {patch : Patch} (h : Spans old new i j patch i' j') :
    patch.Pairwise fun x y => x.old.stop ≤ y.old.start ∧ x.new.stop ≤ y.new.start := by
  induction patch generalizing i j with
  | nil => exact List.Pairwise.nil
  | cons edit edits ih =>
    obtain ⟨-, -, -, hrest⟩ := h
    refine List.pairwise_cons.mpr ⟨fun other hother => ?_, ih hrest⟩
    obtain ⟨-, ⟨hold, -⟩, hnew, -⟩ := hrest.bounds other hother
    exact ⟨hold, hnew⟩

end Patch

namespace Ledger

variable {ledger : Ledger} {made : BufferSnapshot} {offset : Nat} {bias : Bias}

theorem Mirrors.made_resolves (hlawful : ledger.Lawful) (h : ledger.Mirrors made)
    (hfits : ∀ timestamp, (ledger.payload timestamp).length ≤ 4294967295)
    (hboundary : is_char_boundary made.visible_text offset = true) (hoffset : offset ≤ made.visible_text.length) :
    (made.anchor_at_offset offset bias).Resolvable ledger.payload made ∧
      made.offset_for_anchor (made.anchor_at_offset offset bias) = some offset := by
  by_cases hstart : bias = .Left ∧ offset = 0
  · have hanchor : made.anchor_at_offset offset bias = Anchor.min_for_buffer made.remote_id := if_pos hstart
    rw [hanchor, hstart.2]
    exact ⟨⟨Nat.zero_le _, Or.inl rfl⟩, rfl⟩
  by_cases hend : bias = .Right ∧ offset ≥ made.visible_text.length
  · have hanchor : made.anchor_at_offset offset bias = Anchor.max_for_buffer made.remote_id :=
      (if_neg hstart).trans (if_pos hend)
    rw [hanchor, le_antisymm hoffset hend.2]
    exact ⟨⟨le_rfl, Or.inr (Or.inl rfl)⟩, rfl⟩
  obtain ⟨left, atom, right, hatoms, hvisible, hcount, hanchor⟩ := h.anchor_at_offset hboundary hoffset hstart hend
  generalize made.anchor_at_offset offset bias = anchor at *
  have hbias : anchor.bias = bias := congrArg Anchor.bias hanchor
  have htimestamp : anchor.timestamp = atom.timestamp := congrArg Anchor.timestamp hanchor
  have hanchorOffset : anchor.offset = attachedOffset atom.offset anchor.bias := by
    rw [hbias]
    exact congrArg Anchor.offset hanchor
  have hmember := h.member (hatoms ▸ List.mem_append_right left (List.mem_cons_self (a := atom)))
  have hobserved : made.version.observed anchor.timestamp = true := htimestamp ▸ hmember.1
  obtain ⟨left', atom', right', hsplit, hid, hresolve⟩ :=
    h.anchor_resolves hlawful h hfits hatoms htimestamp hanchorOffset hobserved
  obtain ⟨rfl, rfl, -⟩ := split_unique (hatoms ▸ h.store.nodup) (hatoms.symm.trans hsplit) hid.symm
  have hlt : atom.offset < (ledger.payload anchor.timestamp).length := htimestamp ▸ hmember.2
  have hle : anchor.offset ≤ (ledger.payload anchor.timestamp).length := by
    rw [hanchorOffset]
    cases anchor.bias <;> simp only [attachedOffset] <;> omega
  refine ⟨⟨hle.trans (hfits _), Or.inr (Or.inr ⟨hobserved, Nat.zero_lt_of_lt hlt, hle⟩)⟩, ?_⟩
  rw [hresolve, hcount, hbias]
  cases bias
  · have hpos : offset ≠ 0 := fun hzero => hstart ⟨rfl, hzero⟩
    simp only [attachedAt, hvisible, and_self, if_true, Option.some.injEq]
    omega
  · simp [attachedAt]

theorem Mirrors.made_le (hlawful : ledger.Lawful) (h : ledger.Mirrors made)
    (hfits : ∀ timestamp, (ledger.payload timestamp).length ≤ 4294967295) {offset' : Nat}
    (hboundary : is_char_boundary made.visible_text offset = true)
    (hboundary' : is_char_boundary made.visible_text offset' = true) (hle : offset ≤ offset')
    (hoffset : offset' ≤ made.visible_text.length) :
    ((made.anchor_at_offset offset bias).cmp (made.anchor_at_offset offset' bias) made).any Ordering.isLE = true := by
  obtain ⟨hresolvable, hresolves⟩ := @Mirrors.made_resolves _ _ _ bias hlawful h hfits hboundary (hle.trans hoffset)
  obtain ⟨hresolvable', hresolves'⟩ := @Mirrors.made_resolves _ _ _ bias hlawful h hfits hboundary' hoffset
  obtain ⟨rank, hrank⟩ := h.exists_rank
  obtain ⟨hcmp, -⟩ := hrank _ _ hresolvable hresolvable'
  rw [hcmp, Option.any_some]
  refine Ordering.ne_gt_iff_isLE.mp (compare_le_iff_le.mpr ?_)
  by_contra hgt
  obtain ⟨-, low, high, hlow, hhigh, hmono⟩ := hrank _ _ hresolvable' hresolvable
  rw [hresolves', Option.some.injEq] at hlow
  rw [hresolves, Option.some.injEq] at hhigh
  have hback := hmono (le_of_not_ge hgt)
  obtain rfl : offset = offset' := by omega
  exact hgt le_rfl

end Ledger

end zed.text

namespace zed.rope

theorem row_start_utf8 (text : Str) (row : Nat) :
    ∃ before after, text = before ++ after ∧ Rope.row_start (utf8 text) row = (utf8 before).length := by
  induction text generalizing row with
  | nil => exact ⟨[], [], rfl, by simp [utf8]⟩
  | cons char text ih =>
    have hcons : utf8 (char :: text) = utf8 [char] ++ utf8 text := by simp [utf8]
    have happend : ∀ before : Str, (utf8 (char :: before)).length = (utf8 [char]).length + (utf8 before).length := by
      intro before
      simp [utf8]
    cases row with
    | zero => exact ⟨[], char :: text, rfl, by simp [utf8]⟩
    | succ row =>
      by_cases hchar : char = '\n'
      · subst hchar
        obtain ⟨before, after, rfl, hstart⟩ := ih row
        refine ⟨'\n' :: before, after, rfl, ?_⟩
        rw [happend, hcons, show utf8 ['\n'] = [Rope.NEWLINE] from rfl]
        change Rope.row_start (utf8 (before ++ after)) row + 1 = _
        rw [hstart, List.length_singleton]
        omega
      · obtain ⟨before, after, rfl, hstart⟩ := ih (row + 1)
        refine ⟨char :: before, after, rfl, ?_⟩
        have hskip : ∀ front : Rope, Rope.NEWLINE ∉ front → ∀ rest,
            Rope.row_start (front ++ rest) (row + 1) = front.length + Rope.row_start rest (row + 1) := by
          intro front hfront rest
          induction front with
          | nil => simp
          | cons byte front ihFront =>
            rw [List.mem_cons, not_or] at hfront
            obtain ⟨hbyte, hfront⟩ := hfront
            rw [List.cons_append, Rope.row_start, if_neg (Ne.symm hbyte), ihFront hfront, List.length_cons]
            omega
        rw [happend, hcons, hskip _ (zed.text.newline_not_mem_utf8 (by simpa using Ne.symm hchar)), hstart]

end zed.rope

namespace zed.buffer_diff

open zed.rope (Rope Str utf8 is_char_boundary)
open zed.rope.Rope (NEWLINE row_start row_start_mono row_start_le point_to_offset_row)
open zed.text (Anchor BufferSnapshot Network Ledger)

theorem lines_flatten (text : Rope) : (lines text).flatten = text := by
  induction text with
  | nil => rfl
  | cons byte text ih =>
    rw [lines]
    by_cases hbyte : byte = NEWLINE
    · rw [if_pos hbyte, List.flatten_cons, ih]
      rfl
    · rw [if_neg hbyte]
      cases hlines : lines text with
      | nil =>
        rw [hlines] at ih
        rw [← ih]
        rfl
      | cons line rest =>
        rw [hlines] at ih
        rw [← ih]
        rfl

theorem row_start_eq (text : Rope) (row : Nat) : row_start text row = ((lines text).take row).flatten.length := by
  induction text generalizing row with
  | nil => simp [lines]
  | cons byte text ih =>
    cases row with
    | zero => simp
    | succ row =>
      rw [row_start, lines]
      by_cases hbyte : byte = NEWLINE
      · rw [if_pos hbyte, if_pos hbyte, ih, List.take_succ_cons, List.flatten_cons, List.length_append,
          List.length_singleton]
        omega
      · rw [if_neg hbyte, if_neg hbyte, ih]
        cases hlines : lines text with
        | nil => simp
        | cons line rest =>
          simp only [List.take_succ_cons, List.flatten_cons, List.length_append, List.length_cons]
          omega

theorem compute_line_offsets_eq (text : Rope) :
    HunkSink.compute_line_offsets text = (List.range ((lines text).length + 1)).map (row_start text) := by
  have hfold : ∀ rows : List Rope, rows.foldl (fun found line =>
      (found.1 ++ [found.2 + line.length], found.2 + line.length)) (([0] : List Nat), 0) =
        ((List.range (rows.length + 1)).map (fun row => (rows.take row).flatten.length), rows.flatten.length) := by
    intro rows
    induction rows using List.reverseRecOn with
    | nil => rfl
    | append_singleton rows line ih =>
      have hkept : (List.range (rows.length + 1)).map (fun row => ((rows ++ [line]).take row).flatten.length) =
          (List.range (rows.length + 1)).map (fun row => (rows.take row).flatten.length) := by
        refine List.map_congr_left fun row hrow => ?_
        rw [List.mem_range] at hrow
        rw [List.take_append_of_le_length (by omega)]
      rw [List.foldl_append, ih, List.foldl_cons, List.foldl_nil, List.length_append, List.length_singleton,
        List.range_succ (n := rows.length + 1), List.map_append, List.map_singleton, hkept]
      simp
  calc HunkSink.compute_line_offsets text
      = (List.range ((lines text).length + 1)).map (fun row => ((lines text).take row).flatten.length) :=
        congrArg Prod.fst (hfold (lines text))
    _ = (List.range ((lines text).length + 1)).map (row_start text) :=
        List.map_congr_left fun row _ => (row_start_eq text row).symm

theorem line_offset {text : Rope} {row : Nat} (hrow : row ≤ (lines text).length) :
    (HunkSink.compute_line_offsets text)[row]? = some (row_start text row) := by
  rw [compute_line_offsets_eq, List.getElem?_map, List.getElem?_range (by omega)]
  rfl

theorem slice_rows (text : Rope) {row row' : Nat} (hrow : row ≤ row') :
    zed.text.Patch.slice text (row_start text row) (row_start text row') =
      (zed.text.Patch.slice (lines text) row row').flatten := by
  have hbefore : ∀ row, text.take (row_start text row) = ((lines text).take row).flatten := by
    intro row
    have hsplit : text = ((lines text).take row).flatten ++ ((lines text).drop row).flatten := by
      rw [← List.flatten_append, List.take_append_drop, lines_flatten]
    calc text.take (row_start text row)
        = (((lines text).take row).flatten ++ ((lines text).drop row).flatten).take (row_start text row) := by
          rw [← hsplit]
      _ = ((lines text).take row).flatten := by rw [row_start_eq, List.take_left]
  have hsplit : ((lines text).take row').flatten =
      ((lines text).take row).flatten ++ (zed.text.Patch.slice (lines text) row row').flatten := by
    have htake : (lines text).take row = ((lines text).take row').take row := by
      rw [List.take_take, min_eq_left hrow]
    rw [zed.text.Patch.slice, ← List.flatten_append, htake, List.take_append_drop]
  rw [zed.text.Patch.slice, hbefore, hsplit, row_start_eq, List.drop_left]

/-- Replaces the base text of each hunk from `pos` on by its buffer text. -/
def reproduce (diff_base : Rope) (buffer : BufferSnapshot) : Nat → List (InternalDiffHunk Anchor) → Option Rope
  | pos, [] => some (diff_base.drop pos)
  | pos, hunk :: hunks => do
    let start ← buffer.offset_for_anchor hunk.buffer_range.start
    let stop ← buffer.offset_for_anchor hunk.buffer_range.stop
    let rest ← reproduce diff_base buffer hunk.diff_base_byte_range.stop hunks
    return zed.text.Patch.slice diff_base pos hunk.diff_base_byte_range.start ++
      zed.text.Patch.slice buffer.visible_text start stop ++ rest

/-- What the hunks of a buffer against a base text are for. -/
structure Reproduces (diff_base : Rope) (buffer : BufferSnapshot) (hunks : List (InternalDiffHunk Anchor)) : Prop where
  base_within : ∀ hunk ∈ hunks, hunk.diff_base_byte_range.start ≤ hunk.diff_base_byte_range.stop ∧
    hunk.diff_base_byte_range.stop ≤ diff_base.length
  base_disjoint : hunks.Pairwise fun before after =>
    before.diff_base_byte_range.stop ≤ after.diff_base_byte_range.start
  buffer_forward : ∀ hunk ∈ hunks,
    (hunk.buffer_range.start.cmp hunk.buffer_range.stop buffer).any Ordering.isLE = true
  buffer_disjoint : hunks.Pairwise fun before after =>
    (before.buffer_range.stop.cmp after.buffer_range.start buffer).any Ordering.isLE = true
  reproduces : reproduce diff_base buffer 0 hunks = some buffer.visible_text

/-- The hunk covers the lines of the edit. -/
structure CoversLines (diff_base : Rope) (buffer : BufferSnapshot) (edit : zed.text.Edit)
    (hunk : InternalDiffHunk Anchor) : Prop where
  base_start : hunk.diff_base_byte_range.start = row_start diff_base edit.old.start
  base_stop : hunk.diff_base_byte_range.stop = row_start diff_base edit.old.stop
  buffer_start : hunk.buffer_range.start = buffer.anchor_before (row_start buffer.visible_text edit.new.start)
  buffer_stop : hunk.buffer_range.stop = buffer.anchor_before (row_start buffer.visible_text edit.new.stop)

theorem exists_covered {α β : Type} {R : α → β → Prop} {xs : List α} {ys : List β} (h : List.Forall₂ R xs ys) {y : β}
    (hy : y ∈ ys) : ∃ x ∈ xs, R x y := by
  induction h with
  | nil => exact absurd hy List.not_mem_nil
  | cons hfirst hrest ih =>
    rcases List.mem_cons.mp hy with rfl | hy
    · exact ⟨_, List.mem_cons_self, hfirst⟩
    · obtain ⟨x, hx, hR⟩ := ih hy
      exact ⟨x, List.mem_cons_of_mem _ hx, hR⟩

section Sink

variable {LanguageScope : Type}
  (word_diff_ranges : Rope → Rope → DiffOptions LanguageScope → List (Range Nat) × List (Range Nat))
  {sink : HunkSink LanguageScope} {diff_base : Rope}

theorem HunkSink.word_diffs_some (sink : HunkSink LanguageScope) (diff_base_byte_range : Range Nat)
    (buffer_range : Range Anchor) (base_line_count buffer_line_count : Nat)
    (hstart : (sink.buffer.offset_for_anchor buffer_range.start).isSome)
    (hstop : (sink.buffer.offset_for_anchor buffer_range.stop).isSome) :
    ∃ word_diffs, sink.word_diffs word_diff_ranges diff_base_byte_range buffer_range base_line_count
      buffer_line_count = some word_diffs := by
  obtain ⟨start, hstart⟩ := Option.isSome_iff_exists.mp hstart
  obtain ⟨stop, hstop⟩ := Option.isSome_iff_exists.mp hstop
  unfold HunkSink.word_diffs
  cases sink.diff_options with
  | none => exact ⟨_, rfl⟩
  | some diff_options =>
    by_cases hcount : buffer_line_count ≠ 0 ∧ base_line_count = buffer_line_count ∧
        diff_options.max_word_diff_line_count ≥ base_line_count
    · simp only [if_pos hcount, hstart, hstop]
      exact ⟨_, rfl⟩
    · simp only [if_neg hcount]
      exact ⟨_, rfl⟩

theorem HunkSink.process_change_spec (hoffsets : sink.old_line_offsets = compute_line_offsets diff_base)
    (hresolves : ∀ row, (sink.buffer.offset_for_anchor
      (sink.buffer.anchor_before (row_start sink.buffer.visible_text row))).isSome) {edit : zed.text.Edit}
    (hold : edit.old.start ≤ edit.old.stop) (hlines : edit.old.stop ≤ (lines diff_base).length) :
    ∃ hunk, CoversLines diff_base sink.buffer edit hunk ∧
      sink.process_change word_diff_ranges edit.old edit.new = some { sink with hunks := sink.hunks ++ [hunk] } := by
  let diff_base_byte_range : Range Nat := ⟨row_start diff_base edit.old.start, row_start diff_base edit.old.stop⟩
  let buffer_range : Range Anchor :=
    ⟨sink.buffer.anchor_before (row_start sink.buffer.visible_text edit.new.start),
      sink.buffer.anchor_before (row_start sink.buffer.visible_text edit.new.stop)⟩
  obtain ⟨word_diffs, hword⟩ := HunkSink.word_diffs_some word_diff_ranges sink diff_base_byte_range buffer_range
    (edit.old.stop - edit.old.start) (edit.new.stop - edit.new.start)
    (hresolves edit.new.start) (hresolves edit.new.stop)
  let hunk : InternalDiffHunk Anchor :=
    { buffer_range
      diff_base_byte_range
      diff_base_point_range :=
        ⟨zed.rope.Rope.offset_to_point sink.diff_base_rope diff_base_byte_range.start,
          zed.rope.Rope.offset_to_point sink.diff_base_rope diff_base_byte_range.stop⟩
      base_word_diffs := word_diffs.1
      buffer_word_diffs := word_diffs.2 }
  refine ⟨hunk, ⟨rfl, rfl, rfl, rfl⟩, ?_⟩
  rw [process_change, hoffsets, line_offset (hold.trans hlines), line_offset hlines]
  simp only [point_to_offset_row, Option.bind_eq_bind, Option.bind_some]
  rw [hword]
  rfl

theorem HunkSink.process_changes_spec {edits : List zed.text.Edit}
    (hoffsets : sink.old_line_offsets = compute_line_offsets diff_base)
    (hresolves : ∀ row, (sink.buffer.offset_for_anchor
      (sink.buffer.anchor_before (row_start sink.buffer.visible_text row))).isSome)
    (hedits : ∀ edit ∈ edits, edit.old.start ≤ edit.old.stop ∧ edit.old.stop ≤ (lines diff_base).length) :
    ∃ hunks, List.Forall₂ (CoversLines diff_base sink.buffer) edits hunks ∧
      edits.foldlM (fun sink hunk => sink.process_change word_diff_ranges hunk.old hunk.new) sink =
        some { sink with hunks := sink.hunks ++ hunks } := by
  induction edits generalizing sink with
  | nil => exact ⟨[], List.Forall₂.nil, by simp⟩
  | cons edit edits ih =>
    obtain ⟨hold, hlines⟩ := hedits edit List.mem_cons_self
    obtain ⟨hunk, hcovers, hprocess⟩ := process_change_spec word_diff_ranges hoffsets hresolves hold hlines
    obtain ⟨hunks, hall, hrest⟩ := @ih { sink with hunks := sink.hunks ++ [hunk] } hoffsets hresolves
      fun other hother => hedits other (List.mem_cons_of_mem edit hother)
    refine ⟨hunk :: hunks, List.Forall₂.cons hcovers hall, ?_⟩
    rw [List.foldlM_cons, hprocess, Option.bind_eq_bind, Option.bind_some, hrest]
    simp

end Sink

section Covered

variable {diff_base : Rope} {buffer : BufferSnapshot} {edits : List zed.text.Edit}
  {hunks : List (InternalDiffHunk Anchor)}

theorem reproduce_covered (hresolves : ∀ row, buffer.offset_for_anchor
      (buffer.anchor_before (row_start buffer.visible_text row)) = some (row_start buffer.visible_text row))
    (hcovers : List.Forall₂ (CoversLines diff_base buffer) edits hunks) {row row' : Nat}
    (hspans : zed.text.Patch.Spans (lines diff_base) (lines buffer.visible_text) row row' edits
      (lines diff_base).length (lines buffer.visible_text).length) :
    reproduce diff_base buffer (row_start diff_base row) hunks =
      some (buffer.visible_text.drop (row_start buffer.visible_text row')) := by
  have hgap : ∀ {i j i' j' : Nat}, zed.text.Patch.Gap (lines diff_base) (lines buffer.visible_text) i j i' j' →
      zed.text.Patch.slice diff_base (row_start diff_base i) (row_start diff_base i') =
        zed.text.Patch.slice buffer.visible_text (row_start buffer.visible_text j)
          (row_start buffer.visible_text j') := by
    intro i j i' j' h
    rw [slice_rows _ h.old_le, slice_rows _ h.new_le, h.slice_eq]
  have hend : ∀ text : Rope, row_start text (lines text).length = text.length := by
    intro text
    rw [row_start_eq, List.take_length, lines_flatten]
  induction hcovers generalizing row row' with
  | nil =>
    have hlast := hgap hspans
    rw [hend, hend, zed.text.Patch.slice, zed.text.Patch.slice, List.take_length, List.take_length] at hlast
    exact congrArg some hlast
  | cons hcover hrest ih =>
    obtain ⟨hbefore, -, hnew, hspans⟩ := hspans
    rw [reproduce, hcover.buffer_start, hcover.buffer_stop, hcover.base_start, hcover.base_stop, hresolves, hresolves,
      ih hspans, hgap hbefore]
    change some _ = some _
    rw [List.append_assoc, zed.text.Patch.slice_append_drop _ (row_start_mono hnew),
      zed.text.Patch.slice_append_drop _ (row_start_mono hbefore.new_le)]

theorem covered_pairwise {R : InternalDiffHunk Anchor → InternalDiffHunk Anchor → Prop}
    (hcovers : List.Forall₂ (CoversLines diff_base buffer) edits hunks)
    (hpairwise : edits.Pairwise fun x y => x.old.stop ≤ y.old.start ∧ x.new.stop ≤ y.new.start)
    (hrel : ∀ x y before after, CoversLines diff_base buffer x before → CoversLines diff_base buffer y after →
      x.old.stop ≤ y.old.start → x.new.stop ≤ y.new.start → R before after) : hunks.Pairwise R := by
  induction hcovers with
  | nil => exact List.Pairwise.nil
  | cons hcover hrest ih =>
    obtain ⟨hfirst, htail⟩ := List.pairwise_cons.mp hpairwise
    refine List.pairwise_cons.mpr ⟨fun hunk hhunk => ?_, ih htail⟩
    obtain ⟨edit, hedit, hcover'⟩ := exists_covered hrest hhunk
    obtain ⟨hold, hnew⟩ := hfirst edit hedit
    exact hrel _ _ _ _ hcover hcover' hold hnew

end Covered

section Ledger

variable {ledger : Ledger} {buffer : BufferSnapshot}

theorem Mirrors.row_resolves (hlawful : ledger.Lawful) (h : ledger.Mirrors buffer)
    (hfits : ∀ timestamp, (ledger.payload timestamp).length ≤ 4294967295) {visible : Str}
    (hvisible : buffer.visible_text = utf8 visible) (row : Nat) :
    buffer.offset_for_anchor (buffer.anchor_before (row_start buffer.visible_text row)) =
      some (row_start buffer.visible_text row) := by
  have hboundary : is_char_boundary buffer.visible_text (row_start buffer.visible_text row) = true := by
    obtain ⟨before, after, rfl, hstart⟩ := zed.rope.row_start_utf8 visible row
    rw [hvisible, hstart]
    exact zed.rope.is_char_boundary_utf8 before after
  exact (h.made_resolves hlawful hfits hboundary (row_start_le _ row)).2

theorem Mirrors.rows_le (hlawful : ledger.Lawful) (h : ledger.Mirrors buffer)
    (hfits : ∀ timestamp, (ledger.payload timestamp).length ≤ 4294967295) {visible : Str}
    (hvisible : buffer.visible_text = utf8 visible) {row row' : Nat} (hrow : row ≤ row') :
    ((buffer.anchor_before (row_start buffer.visible_text row)).cmp
      (buffer.anchor_before (row_start buffer.visible_text row')) buffer).any Ordering.isLE = true := by
  have hboundary : ∀ row, is_char_boundary buffer.visible_text (row_start buffer.visible_text row) = true := by
    intro row
    obtain ⟨before, after, rfl, hstart⟩ := zed.rope.row_start_utf8 visible row
    rw [hvisible, hstart]
    exact zed.rope.is_char_boundary_utf8 before after
  exact h.made_le hlawful hfits (hboundary row) (hboundary row') (row_start_mono hrow) (row_start_le _ row')

variable {LanguageScope : Type}
  (word_diff_ranges : Rope → Rope → DiffOptions LanguageScope → List (Range Nat) × List (Range Nat))
  {line_hunks : List Rope → List Rope → List zed.text.Edit}

theorem Mirrors.diffed_reproduces (hlawful : ledger.Lawful) (h : ledger.Mirrors buffer)
    (hfits : ∀ timestamp, (ledger.payload timestamp).length ≤ 4294967295) {visible : Str}
    (hvisible : buffer.visible_text = utf8 visible)
    (hdiff : ∀ before after : List Rope,
      zed.text.Patch.Spans before after 0 0 (line_hunks before after) before.length after.length)
    (diff_base diff_base_rope : Rope) (diff_options : Option (DiffOptions LanguageScope)) :
    ∃ sink : HunkSink LanguageScope, (line_hunks (lines diff_base) (lines buffer.visible_text)).foldlM
      (fun sink hunk => sink.process_change word_diff_ranges hunk.old hunk.new)
      (HunkSink.new diff_base diff_base_rope buffer diff_options) = some sink ∧
        Reproduces diff_base buffer sink.hunks := by
  have hspans := hdiff (lines diff_base) (lines buffer.visible_text)
  have hresolves := Mirrors.row_resolves hlawful h hfits hvisible
  obtain ⟨hunks, hcovers, hfold⟩ := @HunkSink.process_changes_spec _ word_diff_ranges
    (HunkSink.new diff_base diff_base_rope buffer diff_options) diff_base _ rfl
    (fun row => Option.isSome_iff_exists.mpr ⟨_, hresolves row⟩)
    fun edit hedit => ⟨(hspans.bounds edit hedit).1.1, (hspans.bounds edit hedit).2.1.2⟩
  refine ⟨_, hfold, ?_⟩
  change Reproduces diff_base buffer ([] ++ hunks)
  rw [List.nil_append]
  refine ⟨fun hunk hhunk => ?_, ?_, fun hunk hhunk => ?_, ?_, ?_⟩
  · obtain ⟨edit, hedit, hcover⟩ := exists_covered hcovers hhunk
    rw [hcover.base_start, hcover.base_stop]
    exact ⟨row_start_mono (hspans.bounds edit hedit).1.1, row_start_le _ _⟩
  · refine covered_pairwise hcovers hspans.pairwise fun x y before after hx hy hold _ => ?_
    rw [hx.base_stop, hy.base_start]
    exact row_start_mono hold
  · obtain ⟨edit, hedit, hcover⟩ := exists_covered hcovers hhunk
    rw [hcover.buffer_start, hcover.buffer_stop]
    exact Mirrors.rows_le hlawful h hfits hvisible (hspans.bounds edit hedit).1.2
  · refine covered_pairwise hcovers hspans.pairwise fun x y before after hx hy _ hnew => ?_
    rw [hx.buffer_stop, hy.buffer_start]
    exact Mirrors.rows_le hlawful h hfits hvisible hnew
  · have hreproduce := reproduce_covered hresolves hcovers hspans
    simpa using hreproduce

end Ledger

theorem reproduces_single {diff_base : Rope} {buffer : BufferSnapshot} {hunk : InternalDiffHunk Anchor}
    (hbase : hunk.diff_base_byte_range.start ≤ hunk.diff_base_byte_range.stop ∧
      hunk.diff_base_byte_range.stop ≤ diff_base.length)
    (hbuffer : (hunk.buffer_range.start.cmp hunk.buffer_range.stop buffer).any Ordering.isLE = true)
    (hreproduce : reproduce diff_base buffer 0 [hunk] = some buffer.visible_text) :
    Reproduces diff_base buffer [hunk] where
  base_within := by simpa using hbase
  base_disjoint := List.pairwise_singleton _ _
  buffer_forward := by simpa using hbuffer
  buffer_disjoint := List.pairwise_singleton _ _
  reproduces := hreproduce

end zed.buffer_diff

namespace zed.text.Network

open zed.rope (Rope Str utf8)
open zed.rope.Rope (NEWLINE)
open zed.buffer_diff (DiffOptions Reproduces compute_hunks)

variable {base_text : Str} {network : Network} {LanguageScope : Type}

end zed.text.Network
