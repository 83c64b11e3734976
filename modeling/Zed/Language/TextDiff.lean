import Zed.BufferDiff.Hunks
import Zed.Rope.Lines
import Zed.Text.LineEnding

namespace zed.language

open zed.buffer_diff (DiffOptions)
open zed.rope (Str utf8 byteLen Boundary str.slice str.slice_middle byteLen_append byteLen_cons byteLen_nil byteLen_pos utf8_append_text)
open zed.text (Range Edit Patch split_inclusive)
open zed.text.Patch (Gap apply_from)

inductive CharKind where
  | Whitespace
  | Punctuation
  | Word
deriving DecidableEq, Repr

section Model

/-- What remains of the iterator of `tokenize_chars` at the character at `start`. -/
def tokenize_chars_from (text : Str) : Str → Nat → Option (List Str)
  | [], _ => some []
  | c :: chars, start => do
    let token ← str.slice text start (start + c.utf8Size)
    let tokens ← tokenize_chars_from text chars (start + c.utf8Size)
    return token :: tokens

def tokenize_chars (text : Str) : Option (List Str) := tokenize_chars_from text text 0

/-- A token ends before a character of another kind, and before another punctuation mark. -/
def ends_token (prev : Option (Char × CharKind)) (c : Char) (kind : CharKind) : Bool :=
  match prev with
  | none => false
  | some (prev_char, prev_kind) =>
    decide (kind ≠ prev_kind) || (decide (kind = .Punctuation) && decide (c ≠ prev_char))

/-- What remains of the iterator of `tokenize` at the character at `ix`. -/
def tokenize_from (classifier : Char → CharKind) (text : Str) :
    Str → Nat → Nat → Option (Char × CharKind) → Option (List Str)
  | [], _, start_ix, _ =>
    if start_ix < byteLen text then do
      let token ← str.slice text start_ix (byteLen text)
      return [token]
    else some []
  | c :: chars, ix, start_ix, prev =>
    let kind := classifier c
    if ends_token prev c kind then do
      let token ← str.slice text start_ix ix
      let tokens ← tokenize_from classifier text chars (ix + c.utf8Size) ix (some (c, kind))
      return token :: tokens
    else tokenize_from classifier text chars (ix + c.utf8Size) start_ix (some (c, kind))

def tokenize (classifier : Char → CharKind) (text : Str) : Option (List Str) :=
  tokenize_from classifier text text 0 0 none

def token_len (tokens : List Str) : Nat := (tokens.map byteLen).sum

/-- `&tokens[start..stop]` -/
def token_slice (tokens : List Str) (start stop : Nat) : Option (List Str) :=
  if start ≤ stop ∧ stop ≤ tokens.length then some (Patch.slice tokens start stop) else none

/-- The arguments of one call of `on_change`: the ranges in bytes, and in tokens. -/
structure Change where
  bytes : Edit
  tokens : Edit
deriving DecidableEq, Repr

/-- The loop of `diff_internal` over the hunks, with its offsets and token indices. -/
def diff_hunks (before after : List Str) : Nat → Nat → Nat → Nat → Patch → Option (List Change)
  | _, _, _, _, [] => some []
  | old_offset, new_offset, old_token_ix, new_token_ix, hunk :: hunks => do
    let old_offset := old_offset + token_len (← token_slice before old_token_ix hunk.old.start)
    let new_offset := new_offset + token_len (← token_slice after new_token_ix hunk.new.start)
    let old_len := token_len (← token_slice before hunk.old.start hunk.old.stop)
    let new_len := token_len (← token_slice after hunk.new.start hunk.new.stop)
    let old_byte_range : Range := ⟨old_offset, old_offset + old_len⟩
    let new_byte_range : Range := ⟨new_offset, new_offset + new_len⟩
    let changes ← diff_hunks before after old_byte_range.stop new_byte_range.stop hunk.old.stop hunk.new.stop hunks
    return ⟨⟨old_byte_range, new_byte_range⟩, hunk⟩ :: changes

/-- `compute` is `Diff::compute` with its `hunks`. Interned tokens are equal when their texts are. -/
def diff_internal (compute : List Str → List Str → Patch) (before after : List Str) : Option (List Change) :=
  diff_hunks before after 0 0 0 0 (compute before after)

def Range.is_empty (range : Range) : Bool := decide (¬ range.start < range.stop)

def Range.len (range : Range) : Nat := range.stop - range.start

variable (compute : List Str → List Str → Patch)

def line_diff (old_text new_text : Str) : Option Patch := do
  let changes ← diff_internal compute (split_inclusive old_text) (split_inclusive new_text)
  return changes.map Change.tokens

def replacement (new_text : Str) (new_byte_range : Range) : Option Str :=
  if Range.is_empty new_byte_range then some []
  else str.slice new_text new_byte_range.start new_byte_range.stop

def char_diff (old_text new_text : Str) : Option (List (Range × Str)) := do
  let before ← tokenize_chars old_text
  let after ← tokenize_chars new_text
  let changes ← diff_internal compute before after
  changes.mapM fun change => do
    let text ← replacement new_text change.bytes.new
    return (change.bytes.old, text)

variable {LanguageScope : Type} (kind : Option LanguageScope → Char → CharKind)

/-- Extends the last range when it touches the new one. -/
def push_range (ranges : List Range) (range : Range) : List Range :=
  if Range.is_empty range then ranges
  else
    match ranges.getLast? with
    | some last =>
      if last.stop ≥ range.start then ranges.dropLast ++ [{ last with stop := range.stop }] else ranges ++ [range]
    | none => ranges ++ [range]

def word_diff_ranges (old_text new_text : Str) (options : DiffOptions LanguageScope) :
    Option (List Range × List Range) := do
  let before ← tokenize (kind options.language_scope) old_text
  let after ← tokenize (kind options.language_scope) new_text
  let changes ← diff_internal compute before after
  return changes.foldl (fun ranges change =>
    (push_range ranges.1 change.bytes.old, push_range ranges.2 change.bytes.new)) ([], [])

def should_perform_word_diff_within_hunk (old_row_range old_byte_range new_row_range new_byte_range : Range)
    (options : DiffOptions LanguageScope) : Bool :=
  !Range.is_empty old_byte_range && !Range.is_empty new_byte_range
    && decide (Range.len old_byte_range ≤ options.max_word_diff_len)
    && decide (Range.len new_byte_range ≤ options.max_word_diff_len)
    && decide (Range.len old_row_range ≤ options.max_word_diff_line_count)
    && decide (Range.len new_row_range ≤ options.max_word_diff_line_count)

/-- The edits of one changed run of lines. -/
def hunk_edits (old_text new_text : Str) (options : DiffOptions LanguageScope) (change : Change) :
    Option (List (Range × Str)) :=
  let old_byte_range := change.bytes.old
  let new_byte_range := change.bytes.new
  if should_perform_word_diff_within_hunk change.tokens.old old_byte_range change.tokens.new new_byte_range
      options then do
    let old_offset := old_byte_range.start
    let new_offset := new_byte_range.start
    let before ← tokenize (kind options.language_scope) (← str.slice old_text old_byte_range.start old_byte_range.stop)
    let after ← tokenize (kind options.language_scope) (← str.slice new_text new_byte_range.start new_byte_range.stop)
    let changes ← diff_internal compute before after
    changes.mapM fun change => do
      let old_byte_range : Range := ⟨old_offset + change.bytes.old.start, old_offset + change.bytes.old.stop⟩
      let new_byte_range : Range := ⟨new_offset + change.bytes.new.start, new_offset + change.bytes.new.stop⟩
      let text ← replacement new_text new_byte_range
      return (old_byte_range, text)
  else do
    let text ← replacement new_text new_byte_range
    return [(old_byte_range, text)]

def text_diff_with_options (old_text new_text : Str) (options : DiffOptions LanguageScope) :
    Option (List (Range × Str)) := do
  let changes ← diff_internal compute (split_inclusive old_text) (split_inclusive new_text)
  let edits ← changes.mapM (hunk_edits compute kind old_text new_text options)
  return edits.flatten

end Model

section Tokens

theorem tokenize_chars_from_spec {text chars : Str} (before : Str) (h : text = before ++ chars) :
    ∃ tokens, tokenize_chars_from text chars (byteLen before) = some tokens ∧ tokens.flatten = chars := by
  induction chars generalizing before with
  | nil => exact ⟨[], rfl, rfl⟩
  | cons c chars ih =>
    obtain ⟨tokens, htokens, hflatten⟩ := ih (before ++ [c]) (by simp [h])
    have hslice : str.slice text (byteLen before) (byteLen before + c.utf8Size) = some [c] := by
      have := str.slice_middle before [c] chars
      simpa [h] using this
    have hlen : byteLen (before ++ [c]) = byteLen before + c.utf8Size := by simp
    rw [hlen] at htokens
    exact ⟨[c] :: tokens, by simp [tokenize_chars_from, hslice, htokens], by simp [hflatten]⟩

theorem tokenize_chars_spec (text : Str) : ∃ tokens, tokenize_chars text = some tokens ∧ tokens.flatten = text :=
  tokenize_chars_from_spec [] rfl

theorem tokenize_from_spec (classifier : Char → CharKind) {text chars : Str} (before pending : Str)
    (h : text = before ++ pending ++ chars) (prev : Option (Char × CharKind)) :
    ∃ tokens, tokenize_from classifier text chars (byteLen before + byteLen pending) (byteLen before) prev =
        some tokens ∧ tokens.flatten = pending ++ chars := by
  induction chars generalizing before pending prev with
  | nil =>
    rw [tokenize_from]
    rw [List.append_nil] at h ⊢
    by_cases hpending : pending = []
    · have hnot : ¬ byteLen before < byteLen text := by simp [h, hpending]
      exact ⟨[], if_neg hnot, hpending.symm⟩
    · have hpos := byteLen_pos hpending
      have hlt : byteLen before < byteLen text := by
        rw [h, byteLen_append]
        omega
      have hslice : str.slice text (byteLen before) (byteLen text) = some pending := by
        have := str.slice_middle before pending []
        simpa [h] using this
      rw [if_pos hlt, hslice]
      exact ⟨[pending], rfl, by simp⟩
  | cons c chars ih =>
    rw [tokenize_from]
    by_cases hends : ends_token prev c (classifier c) = true
    · have hslice : str.slice text (byteLen before) (byteLen before + byteLen pending) = some pending := by
        rw [h]
        exact str.slice_middle before pending (c :: chars)
      obtain ⟨tokens, htokens, hflatten⟩ :=
        ih (before ++ pending) [c] (by simp [h]) (some (c, classifier c))
      simp only [byteLen_append, byteLen_cons, byteLen_nil, Nat.add_zero] at htokens
      simp only [hends, if_true, hslice, htokens]
      exact ⟨pending :: tokens, rfl, by simp [hflatten]⟩
    · obtain ⟨tokens, htokens, hflatten⟩ :=
        ih before (pending ++ [c]) (by simp [h]) (some (c, classifier c))
      simp only [byteLen_append, byteLen_cons, byteLen_nil, Nat.add_zero,
        ← Nat.add_assoc] at htokens
      simp only [hends, htokens]
      exact ⟨tokens, rfl, by simp [hflatten]⟩

theorem tokenize_spec (classifier : Char → CharKind) (text : Str) :
    ∃ tokens, tokenize classifier text = some tokens ∧ tokens.flatten = text :=
  tokenize_from_spec classifier [] [] rfl none

theorem split_inclusive_flatten (text : Str) : (split_inclusive text).flatten = text := by
  induction text with
  | nil => rfl
  | cons char chars ih =>
    rw [split_inclusive]
    by_cases hnewline : char = '\n'
    · rw [if_pos hnewline, List.flatten_cons, ih, hnewline]
      rfl
    · rw [if_neg hnewline]
      cases hlines : split_inclusive chars with
      | nil =>
        rw [hlines, List.flatten_nil] at ih
        rw [← ih]
        rfl
      | cons line lines =>
        rw [hlines] at ih
        rw [← ih]
        rfl

end Tokens

section Offsets

variable {tokens before after : List Str} {start stop i j i' j' : Nat}

def offset (tokens : List Str) (ix : Nat) : Nat := byteLen (tokens.take ix).flatten

theorem offset_length (tokens : List Str) : offset tokens tokens.length = byteLen tokens.flatten := by
  rw [offset, List.take_length]

theorem token_len_eq (tokens : List Str) : token_len tokens = byteLen tokens.flatten := by
  induction tokens with
  | nil => rfl
  | cons token tokens ih =>
    rw [List.flatten_cons, byteLen_append, ← ih]
    rfl

theorem take_flatten (hle : start ≤ stop) (tokens : List Str) :
    (tokens.take stop).flatten = (tokens.take start).flatten ++ (Patch.slice tokens start stop).flatten := by
  have htake : (tokens.take stop).take start = tokens.take start := by rw [List.take_take, min_eq_left hle]
  rw [Patch.slice, ← htake, ← List.flatten_append, List.take_append_drop]

theorem offset_slice (hle : start ≤ stop) (tokens : List Str) :
    offset tokens start + token_len (Patch.slice tokens start stop) = offset tokens stop := by
  rw [token_len_eq, offset, offset, take_flatten hle, byteLen_append]

theorem offset_le (hle : start ≤ stop) (tokens : List Str) : offset tokens start ≤ offset tokens stop := by
  rw [← offset_slice hle]
  exact Nat.le_add_right _ _

theorem offset_boundary (tokens : List Str) (ix : Nat) : Boundary tokens.flatten (offset tokens ix) :=
  ⟨(tokens.take ix).flatten, (tokens.drop ix).flatten, by rw [← List.flatten_append, List.take_append_drop], rfl⟩

theorem slice_flatten (hle : start ≤ stop) (tokens : List Str) :
    Patch.slice (utf8 tokens.flatten) (offset tokens start) (offset tokens stop) =
      utf8 (Patch.slice tokens start stop).flatten := by
  have hflatten : tokens.flatten = (tokens.take stop).flatten ++ (tokens.drop stop).flatten := by
    rw [← List.flatten_append, List.take_append_drop]
  rw [Patch.slice, hflatten, utf8_append_text, offset, offset]
  have htake : (utf8 (tokens.take stop).flatten ++ utf8 (tokens.drop stop).flatten).take
      (byteLen (tokens.take stop).flatten) = utf8 (tokens.take stop).flatten := List.take_left
  rw [htake, take_flatten hle, utf8_append_text]
  exact List.drop_left

theorem token_slice_eq (hle : start ≤ stop) (hstop : stop ≤ tokens.length) :
    token_slice tokens start stop = some (Patch.slice tokens start stop) :=
  if_pos ⟨hle, hstop⟩

theorem gap_flatten (h : Gap before after i j i' j') :
    Gap (utf8 before.flatten) (utf8 after.flatten) (offset before i) (offset after j) (offset before i')
      (offset after j') := by
  have hslice := h.slice_eq
  have hold := offset_slice h.old_le before
  have hnew := offset_slice h.new_le after
  rw [hslice] at hold
  refine Gap.of_slice_eq (offset_le h.old_le before) (by omega) ?_
  rw [slice_flatten h.old_le, slice_flatten h.new_le, hslice]

/-- The ranges that `diff_internal` reports for a hunk. -/
def change_of (before after : List Str) (hunk : Edit) : Change where
  bytes :=
    { old := ⟨offset before hunk.old.start, offset before hunk.old.stop⟩
      new := ⟨offset after hunk.new.start, offset after hunk.new.stop⟩ }
  tokens := hunk

theorem diff_hunks_spec {hunks : Patch} (h : Patch.Spans before after i j hunks before.length after.length) :
    diff_hunks before after (offset before i) (offset after j) i j hunks =
      some (hunks.map (change_of before after)) := by
  induction hunks generalizing i j with
  | nil => rfl
  | cons hunk hunks ih =>
    obtain ⟨hgap, hold, hnew, hrest⟩ := h
    have hle := hrest.le
    simp only [diff_hunks, token_slice_eq hgap.old_le (hold.trans hle.1), token_slice_eq hgap.new_le (hnew.trans hle.2),
      token_slice_eq hold hle.1, token_slice_eq hnew hle.2, Option.bind_eq_bind, Option.bind_some,
      offset_slice hgap.old_le, offset_slice hgap.new_le, offset_slice hold, offset_slice hnew, ih hrest]
    rfl

theorem spans_flatten {hunks : Patch} (h : Patch.Spans before after i j hunks i' j') :
    Patch.Spans (utf8 before.flatten) (utf8 after.flatten) (offset before i) (offset after j)
      ((hunks.map (change_of before after)).map Change.bytes) (offset before i') (offset after j') := by
  induction hunks generalizing i j with
  | nil => exact gap_flatten h
  | cons hunk hunks ih =>
    obtain ⟨hgap, hold, hnew, hrest⟩ := h
    exact ⟨gap_flatten hgap, offset_le hold before, offset_le hnew after, ih hrest⟩

end Offsets

section Changes

variable {old new : Str} {edit : Edit} {patch : Patch}

/-- A change whose ends are character boundaries of both texts. -/
structure Cut (old new : Str) (edit : Edit) : Prop where
  old_start : Boundary old edit.old.start
  old_stop : Boundary old edit.old.stop
  new_start : Boundary new edit.new.start
  new_stop : Boundary new edit.new.stop
  old_le : edit.old.start ≤ edit.old.stop
  new_le : edit.new.start ≤ edit.new.stop

/-- Ordered hunks inside both token lists, outside which the tokens agree. -/
def IsDiff (compute : List Str → List Str → Patch) : Prop :=
  ∀ before after, Patch.Spans before after 0 0 (compute before after) before.length after.length

theorem diff_internal_spec {compute : List Str → List Str → Patch} (hdiff : IsDiff compute) {before after : List Str}
    (hbefore : before.flatten = old) (hafter : after.flatten = new) :
    ∃ changes, diff_internal compute before after = some changes ∧
      changes.map Change.tokens = compute before after ∧
      Patch.Spans (utf8 old) (utf8 new) 0 0 (changes.map Change.bytes) (byteLen old) (byteLen new) ∧
      ∀ change ∈ changes, Cut old new change.bytes := by
  subst hbefore hafter
  have hspans := hdiff before after
  have hflatten := spans_flatten hspans
  rw [offset_length, offset_length] at hflatten
  refine ⟨_, diff_hunks_spec hspans, ?_, hflatten, ?_⟩
  · rw [List.map_map]
    exact List.map_id _
  · intro change hchange
    obtain ⟨hunk, hhunk, rfl⟩ := List.mem_map.mp hchange
    have hbounds := hspans.bounds hunk hhunk
    exact
      { old_start := offset_boundary before hunk.old.start
        old_stop := offset_boundary before hunk.old.stop
        new_start := offset_boundary after hunk.new.start
        new_stop := offset_boundary after hunk.new.stop
        old_le := offset_le hbounds.1.1 before
        new_le := offset_le hbounds.1.2 after }

theorem slice_utf8_middle (before part after : Str) :
    Patch.slice (utf8 (before ++ part ++ after)) (byteLen before) (byteLen before + byteLen part) = utf8 part := by
  rw [Patch.slice, ← byteLen_append, utf8_append_text (before ++ part)]
  have htake : (utf8 (before ++ part) ++ utf8 after).take (byteLen (before ++ part)) = utf8 (before ++ part) :=
    List.take_left
  rw [htake, utf8_append_text]
  exact List.drop_left

theorem slice_between {text : Str} {start stop : Nat} (hle : start ≤ stop) (hstart : Boundary text start)
    (hstop : Boundary text stop) :
    ∃ before part after, text = before ++ part ++ after ∧ byteLen before = start ∧ start + byteLen part = stop ∧
      str.slice text start stop = some part := by
  obtain ⟨part, before, after, rfl, rfl, rfl⟩ := zed.rope.Spans.exists hle hstart hstop
  exact ⟨before, part, after, rfl, rfl, rfl, str.slice_middle before part after⟩

theorem replacement_spec {start stop : Nat} (hle : start ≤ stop) (hstart : Boundary new start)
    (hstop : Boundary new stop) :
    ∃ text, replacement new ⟨start, stop⟩ = some text ∧ utf8 text = Patch.slice (utf8 new) start stop := by
  obtain ⟨before, part, after, rfl, rfl, rfl, hslice⟩ := slice_between hle hstart hstop
  have hbytes := slice_utf8_middle before part after
  by_cases hempty : Range.is_empty ⟨byteLen before, byteLen before + byteLen part⟩ = true
  · have hpart : part = [] := by
      apply zed.rope.eq_nil_of_byteLen
      simp only [Range.is_empty, decide_eq_true_eq] at hempty
      omega
    refine ⟨[], if_pos hempty, ?_⟩
    rw [hbytes, hpart]
  · exact ⟨part, (if_neg hempty).trans hslice, hbytes.symm⟩

/-- What an edit list holds for a change: the range of the old text, and the text of the new one. -/
structure Inserts (old new : Str) (edit : Edit) (inserted : Range × Str) : Prop where
  cut : Cut old new edit
  range : inserted.1 = edit.old
  text : utf8 inserted.2 = Patch.slice (utf8 new) edit.new.start edit.new.stop

theorem mapM_forall₂ {α β : Type} {f : α → Option β} {related : α → β → Prop} {xs : List α}
    (h : ∀ x ∈ xs, ∃ y, f x = some y ∧ related x y) : ∃ ys, xs.mapM f = some ys ∧ List.Forall₂ related xs ys := by
  induction xs with
  | nil => exact ⟨[], rfl, List.Forall₂.nil⟩
  | cons x xs ih =>
    obtain ⟨y, hy, hrelated⟩ := h x List.mem_cons_self
    obtain ⟨ys, hys, hall⟩ := ih fun x' hx' => h x' (List.mem_cons_of_mem x hx')
    exact ⟨y :: ys, by simp [List.mapM_cons, hy, hys], List.Forall₂.cons hrelated hall⟩

def replaced (old : zed.rope.Rope) : Nat → List (Range × Str) → zed.rope.Rope
  | pos, [] => old.drop pos
  | pos, (range, text) :: edits => Patch.slice old pos range.start ++ utf8 text ++ replaced old range.stop edits

/-- Sorted, disjoint edits on character boundaries that turn the old text into the new one. -/
structure Reproduces (old new : Str) (edits : List (Range × Str)) : Prop where
  ordered : ∀ edit ∈ edits, edit.1.start ≤ edit.1.stop
  boundaries : ∀ edit ∈ edits, zed.rope.is_char_boundary (utf8 old) edit.1.start = true ∧
    zed.rope.is_char_boundary (utf8 old) edit.1.stop = true
  disjoint : edits.Pairwise fun x y => x.1.stop ≤ y.1.start
  applies : replaced (utf8 old) 0 edits = utf8 new

theorem is_char_boundary_of {text : Str} {ix : Nat} (h : Boundary text ix) :
    zed.rope.is_char_boundary (utf8 text) ix = true := by
  obtain ⟨before, after, rfl, rfl⟩ := h
  exact zed.rope.is_char_boundary_utf8 before after

theorem replaced_eq {edits : List (Range × Str)} (h : List.Forall₂ (Inserts old new) patch edits) (pos : Nat) :
    replaced (utf8 old) pos edits = apply_from (utf8 old) (utf8 new) pos patch := by
  induction h generalizing pos with
  | nil => rfl
  | @cons edit inserted patch edits hinserts _ ih =>
    obtain ⟨range, text⟩ := inserted
    obtain rfl : range = edit.old := hinserts.range
    rw [replaced, apply_from, ih]
    exact congrArg (Patch.slice (utf8 old) pos edit.old.start ++ · ++ _) hinserts.text

theorem spans_disjoint {β : Type} {xs ys : List β} {i j i' j' : Nat} (h : Patch.Spans xs ys i j patch i' j') :
    patch.Pairwise fun x y => x.old.stop ≤ y.old.start ∧ x.new.stop ≤ y.new.start := by
  induction patch generalizing i j with
  | nil => exact List.Pairwise.nil
  | cons edit patch ih =>
    obtain ⟨-, -, -, hrest⟩ := h
    refine List.pairwise_cons.mpr ⟨fun later hlater => ?_, ih hrest⟩
    have hbounds := hrest.bounds later hlater
    exact ⟨hbounds.2.1.1, hbounds.2.2.1⟩

theorem reproduces_of_inserts {edits : List (Range × Str)}
    (hspans : Patch.Spans (utf8 old) (utf8 new) 0 0 patch (byteLen old) (byteLen new))
    (h : List.Forall₂ (Inserts old new) patch edits) : Reproduces old new edits := by
  have hedit : ∀ inserted ∈ edits, ∃ edit, Inserts old new edit inserted := by
    intro inserted hinserted
    clear hspans
    induction h with
    | nil => exact absurd hinserted List.not_mem_nil
    | @cons edit first patch edits hinserts _ ih =>
      rcases List.mem_cons.mp hinserted with rfl | hinserted
      · exact ⟨edit, hinserts⟩
      · exact ih hinserted
  refine ⟨fun inserted hinserted => ?_, fun inserted hinserted => ?_, ?_, ?_⟩
  · obtain ⟨edit, hinserts⟩ := hedit inserted hinserted
    rw [hinserts.range]
    exact hinserts.cut.old_le
  · obtain ⟨edit, hinserts⟩ := hedit inserted hinserted
    rw [hinserts.range]
    exact ⟨is_char_boundary_of hinserts.cut.old_start, is_char_boundary_of hinserts.cut.old_stop⟩
  · have hranges : edits.map Prod.fst = patch.map Edit.old := by
      clear hspans hedit
      induction h with
      | nil => rfl
      | cons hinserts _ ih => rw [List.map_cons, List.map_cons, hinserts.range, ih]
    have hpairwise : (patch.map Edit.old).Pairwise fun x y => x.stop ≤ y.start :=
      List.pairwise_map.mpr ((spans_disjoint hspans).imp fun hxy => hxy.1)
    rw [← hranges] at hpairwise
    exact List.pairwise_map.mp hpairwise
  · rw [replaced_eq h]
    exact hspans.apply_from_eq

section Nested

variable {β : Type} {xs ys : List β} {i j i' j' i'' j'' : Nat}

theorem spans_after {edits : Patch} (hgap : Gap xs ys i j i' j') (h : Patch.Spans xs ys i' j' edits i'' j'') :
    Patch.Spans xs ys i j edits i'' j'' := by
  cases edits with
  | nil => exact Gap.trans hgap h
  | cons edit edits => exact ⟨hgap.trans h.1, h.2⟩

theorem spans_append {first second : Patch} (h : Patch.Spans xs ys i j first i' j')
    (h' : Patch.Spans xs ys i' j' second i'' j'') : Patch.Spans xs ys i j (first ++ second) i'' j'' := by
  induction first generalizing i j with
  | nil => exact spans_after h h'
  | cons edit first ih => exact ⟨h.1, h.2.1, h.2.2.1, ih h.2.2.2⟩

theorem spans_refine {coarse : Patch} {fine : List Patch} (h : Patch.Spans xs ys i j coarse i' j')
    (hfine : List.Forall₂ (fun edit patch =>
      Patch.Spans xs ys edit.old.start edit.new.start patch edit.old.stop edit.new.stop) coarse fine) :
    Patch.Spans xs ys i j fine.flatten i' j' := by
  induction hfine generalizing i j with
  | nil => exact h
  | cons hfirst _ ih =>
    obtain ⟨hgap, -, -, hrest⟩ := h
    exact spans_append (spans_after hgap hfirst) (ih hrest)

/-- An edit of a part of both texts, in the positions of the whole texts. -/
def rebase (old_offset new_offset : Nat) (edit : Edit) : Edit where
  old := ⟨old_offset + edit.old.start, old_offset + edit.old.stop⟩
  new := ⟨new_offset + edit.new.start, new_offset + edit.new.stop⟩

theorem getElem?_middle (before part after : List β) {k : Nat} (hk : k < part.length) :
    (before ++ part ++ after)[before.length + k]? = part[k]? := by
  rw [List.append_assoc, List.getElem?_append_right (Nat.le_add_right _ _), Nat.add_sub_cancel_left,
    List.getElem?_append_left hk]

theorem gap_rebase (before after before' after' : List β) (h : Gap xs ys i j i' j') (hi : i' ≤ xs.length)
    (hj : j' ≤ ys.length) :
    Gap (before ++ xs ++ after) (before' ++ ys ++ after') (before.length + i) (before'.length + j)
      (before.length + i') (before'.length + j') := by
  have hle := h.old_le
  have hshift := h.shift
  refine ⟨by omega, by omega, fun k hk => ?_⟩
  rw [Nat.add_assoc, Nat.add_assoc, getElem?_middle before xs after (by omega),
    getElem?_middle before' ys after' (by omega)]
  exact h.same k (by omega)

theorem spans_rebase (before after before' after' : List β) {edits : Patch} (h : Patch.Spans xs ys i j edits i' j')
    (hi : i' ≤ xs.length) (hj : j' ≤ ys.length) :
    Patch.Spans (before ++ xs ++ after) (before' ++ ys ++ after') (before.length + i) (before'.length + j)
      (edits.map (rebase before.length before'.length)) (before.length + i') (before'.length + j') := by
  induction edits generalizing i j with
  | nil => exact gap_rebase before after before' after' h hi hj
  | cons edit edits ih =>
    obtain ⟨hgap, hold, hnew, hrest⟩ := h
    have hle := hrest.le
    exact ⟨gap_rebase before after before' after' hgap (by omega) (by omega), Nat.add_le_add_left hold _,
      Nat.add_le_add_left hnew _, ih hrest⟩

theorem boundary_rebase {before part after : Str} {ix : Nat} (h : Boundary part ix) :
    Boundary (before ++ part ++ after) (byteLen before + ix) := by
  obtain ⟨left, right, rfl, rfl⟩ := h
  exact ⟨before ++ left, right ++ after, by simp, byteLen_append before left⟩

theorem cut_rebase {before part after before' part' after' : Str} {edit : Edit} (h : Cut part part' edit) :
    Cut (before ++ part ++ after) (before' ++ part' ++ after') (rebase (byteLen before) (byteLen before') edit) where
  old_start := boundary_rebase h.old_start
  old_stop := boundary_rebase h.old_stop
  new_start := boundary_rebase h.new_start
  new_stop := boundary_rebase h.new_stop
  old_le := Nat.add_le_add_left h.old_le _
  new_le := Nat.add_le_add_left h.new_le _

end Nested

theorem inserts_spec (h : Cut old new edit) :
    ∃ inserted, (replacement new edit.new).bind (fun text => some (edit.old, text)) = some inserted ∧
      Inserts old new edit inserted := by
  obtain ⟨text, htext, hbytes⟩ := replacement_spec h.new_le h.new_start h.new_stop
  exact ⟨(edit.old, text), by rw [htext]; rfl, ⟨h, rfl, hbytes⟩⟩

theorem hunk_edits_spec {LanguageScope : Type} {compute : List Str → List Str → Patch} (hdiff : IsDiff compute)
    (kind : Option LanguageScope → Char → CharKind) (options : DiffOptions LanguageScope) {change : Change}
    (h : Cut old new change.bytes) :
    ∃ edits patch, hunk_edits compute kind old new options change = some edits ∧
      List.Forall₂ (Inserts old new) patch edits ∧
      Patch.Spans (utf8 old) (utf8 new) change.bytes.old.start change.bytes.new.start patch
        change.bytes.old.stop change.bytes.new.stop := by
  unfold hunk_edits
  simp only []
  by_cases hshould : should_perform_word_diff_within_hunk change.tokens.old change.bytes.old change.tokens.new
      change.bytes.new options = true
  · rw [if_pos hshould]
    obtain ⟨before, part, after, rfl, hstart, hstop, hslice⟩ := slice_between h.old_le h.old_start h.old_stop
    obtain ⟨before', part', after', rfl, hstart', hstop', hslice'⟩ := slice_between h.new_le h.new_start h.new_stop
    obtain ⟨tokens, htokens, hflatten⟩ := tokenize_spec (kind options.language_scope) part
    obtain ⟨tokens', htokens', hflatten'⟩ := tokenize_spec (kind options.language_scope) part'
    obtain ⟨changes, hchanges, -, hspans, hcut⟩ := diff_internal_spec hdiff hflatten hflatten'
    have hinserts : ∀ inner ∈ changes, ∃ inserted,
        (replacement (before' ++ part' ++ after')
          ⟨change.bytes.new.start + inner.bytes.new.start, change.bytes.new.start + inner.bytes.new.stop⟩).bind
            (fun text => some ((⟨change.bytes.old.start + inner.bytes.old.start,
              change.bytes.old.start + inner.bytes.old.stop⟩ : Range), text)) = some inserted ∧
          Inserts (before ++ part ++ after) (before' ++ part' ++ after')
            (rebase (byteLen before) (byteLen before') inner.bytes) inserted := by
      intro inner hinner
      rw [← hstart, ← hstart']
      exact inserts_spec (cut_rebase (hcut inner hinner))
    obtain ⟨edits, hedits, hall⟩ := mapM_forall₂ hinserts
    refine ⟨edits, (changes.map Change.bytes).map (rebase (byteLen before) (byteLen before')), ?_, ?_, ?_⟩
    · simp only [hslice, hslice', htokens, htokens', hchanges, Option.bind_eq_bind, Option.bind_some]
      exact hedits
    · rw [List.map_map]
      exact List.forall₂_map_left_iff.mpr hall
    · have hrebased := spans_rebase (utf8 before) (utf8 after) (utf8 before') (utf8 after') hspans le_rfl le_rfl
      rw [← hstop, ← hstop', ← hstart, ← hstart', utf8_append_text, utf8_append_text, utf8_append_text,
        utf8_append_text]
      exact hrebased
  · rw [if_neg hshould]
    obtain ⟨inserted, hinserted, hinserts⟩ := inserts_spec h
    refine ⟨[inserted], [change.bytes], ?_, List.Forall₂.cons hinserts List.Forall₂.nil, Gap.refl _ _, h.old_le,
      h.new_le, Gap.refl _ _⟩
    obtain ⟨text, htext, hpair⟩ := Option.bind_eq_some_iff.mp hinserted
    rw [← Option.some.inj hpair]
    simp only [htext, Option.bind_eq_bind, Option.bind_some]
    rfl

end Changes

section Words

variable {text : zed.rope.Rope} {pos : Nat} {ranges rest : List Range} {range : Range}

/-- What a text holds outside of ranges, from a position on. -/
def outside (text : zed.rope.Rope) : Nat → List Range → zed.rope.Rope
  | pos, [] => text.drop pos
  | pos, range :: ranges => Patch.slice text pos range.start ++ outside text range.stop ranges

/-- What the text holds between a position and the end of the last range. -/
def between (text : zed.rope.Rope) : Nat → List Range → zed.rope.Rope
  | _, [] => []
  | pos, range :: ranges => Patch.slice text pos range.start ++ between text range.stop ranges

def reached : Nat → List Range → Nat
  | pos, [] => pos
  | _, range :: ranges => reached range.stop ranges

/-- Ranges in order, which may touch. -/
def Ascending : Nat → List Range → Prop
  | _, [] => True
  | pos, range :: ranges => pos ≤ range.start ∧ range.start ≤ range.stop ∧ Ascending range.stop ranges

theorem outside_append (text : zed.rope.Rope) (pos : Nat) (ranges rest : List Range) :
    outside text pos (ranges ++ rest) = between text pos ranges ++ outside text (reached pos ranges) rest := by
  induction ranges generalizing pos with
  | nil => rfl
  | cons range ranges ih =>
    rw [List.cons_append, outside, ih, ← List.append_assoc]
    rfl

theorem ascending_append :
    Ascending pos (ranges ++ rest) ↔ Ascending pos ranges ∧ Ascending (reached pos ranges) rest := by
  induction ranges generalizing pos with
  | nil => exact (and_iff_right trivial).symm
  | cons range ranges ih =>
    rw [List.cons_append, Ascending, ih, Ascending, reached, and_assoc, and_assoc]

theorem reached_concat (pos : Nat) (init : List Range) (last : Range) : reached pos (init ++ [last]) = last.stop := by
  induction init generalizing pos with
  | nil => rfl
  | cons range init ih => exact ih range.stop

theorem outside_empty (hpos : pos ≤ range.start) (hempty : range.start = range.stop)
    (h : Ascending range.stop rest) : outside text pos (range :: rest) = outside text pos rest := by
  rw [outside, ← hempty]
  cases rest with
  | nil =>
    rw [outside, outside]
    exact Patch.slice_append_drop text hpos
  | cons next rest =>
    have hnext := h.1
    rw [outside, outside, ← List.append_assoc]
    congr 1
    have hsplit := Patch.slice_append_drop (text.take next.start) hpos
    rw [Patch.slice, List.take_take, min_eq_left (by omega)] at hsplit
    exact hsplit

theorem push_range_cases (h : Ascending pos (ranges ++ range :: rest)) :
    (range.start = range.stop ∧ push_range ranges range = ranges) ∨
    (range.start < range.stop ∧ ∃ init last, ranges = init ++ [last] ∧ last.stop = range.start ∧
      push_range ranges range = init ++ [⟨last.start, range.stop⟩]) ∨
    (range.start < range.stop ∧ (∀ last, ranges.getLast? = some last → last.stop < range.start) ∧
      push_range ranges range = ranges ++ [range]) := by
  obtain ⟨-, hreached, hrange, -⟩ := ascending_append.mp h
  unfold push_range
  by_cases hempty : Range.is_empty range = true
  · simp only [Range.is_empty, decide_eq_true_eq] at hempty
    refine Or.inl ⟨by omega, if_pos ?_⟩
    simpa [Range.is_empty] using hempty
  · rw [if_neg hempty]
    simp only [Range.is_empty, decide_eq_true_eq, Decidable.not_not] at hempty
    rcases List.eq_nil_or_concat ranges with rfl | ⟨init, last, hconcat⟩
    · exact Or.inr (Or.inr ⟨hempty, fun last hlast => absurd hlast (by simp), rfl⟩)
    · rw [List.concat_eq_append] at hconcat
      rw [hconcat] at hreached ⊢
      rw [reached_concat] at hreached
      simp only [List.getLast?_append, List.getLast?_singleton, Option.some_or, List.dropLast_concat]
      by_cases htouch : last.stop ≥ range.start
      · rw [if_pos htouch]
        exact Or.inr (Or.inl ⟨hempty, init, last, rfl, by omega, rfl⟩)
      · rw [if_neg htouch]
        refine Or.inr (Or.inr ⟨hempty, fun last' hlast => ?_, rfl⟩)
        rw [← Option.some.inj hlast]
        exact Nat.lt_of_not_le htouch

theorem push_range_spec (text : zed.rope.Rope) (h : Ascending pos (ranges ++ range :: rest)) :
    Ascending pos (push_range ranges range ++ rest) ∧
      outside text pos (push_range ranges range ++ rest) = outside text pos (ranges ++ range :: rest) := by
  obtain ⟨hranges, hreached, hrange, hrest⟩ := ascending_append.mp h
  rcases push_range_cases h with ⟨hempty, hpush⟩ | ⟨-, init, last, hconcat, htouch, hpush⟩ | ⟨-, -, hpush⟩
  · rw [hpush]
    refine ⟨ascending_append.mpr ⟨hranges, ?_⟩, ?_⟩
    · cases rest with
      | nil => trivial
      | cons next rest =>
        have hnext := hrest.1
        exact ⟨by omega, hrest.2⟩
    · rw [outside_append, outside_append, outside_empty hreached hempty hrest]
  · rw [hpush]
    subst hconcat
    obtain ⟨hinit, hlast, hle, -⟩ := ascending_append.mp hranges
    rw [List.append_assoc, List.append_assoc]
    refine ⟨ascending_append.mpr ⟨hinit, hlast, ?_, hrest⟩, ?_⟩
    · change last.start ≤ range.stop
      omega
    · have hnothing : Patch.slice text last.stop range.start = [] := by
        rw [htouch, Patch.slice]
        exact List.drop_eq_nil_of_le (List.length_take_le _ _)
      rw [outside_append, outside_append text pos init]
      congr 1
      change Patch.slice text _ last.start ++ outside text range.stop rest =
        Patch.slice text _ last.start ++ (Patch.slice text last.stop range.start ++ outside text range.stop rest)
      rw [hnothing, List.nil_append]
  · rw [hpush, List.append_assoc]
    exact ⟨h, rfl⟩

/-- Sorted ranges that do not touch, with ends that satisfy a predicate. -/
structure Merged (ends : Nat → Prop) (ranges : List Range) : Prop where
  nonempty : ∀ range ∈ ranges, range.start < range.stop
  ends : ∀ range ∈ ranges, ends range.start ∧ ends range.stop
  separate : ranges.Pairwise fun x y => x.stop < y.start

theorem Merged.push {ends : Nat → Prop} (h : Merged ends ranges) (hascending : Ascending pos (ranges ++ range :: rest))
    (hstart : ends range.start) (hstop : ends range.stop) : Merged ends (push_range ranges range) := by
  rcases push_range_cases hascending with ⟨-, hpush⟩ | ⟨hlt, init, last, hconcat, htouch, hpush⟩ | ⟨hlt, hlast, hpush⟩
  · rw [hpush]
    exact h
  · rw [hpush]
    subst hconcat
    have hlastMem : last ∈ init ++ [last] := List.mem_append_right init (List.mem_singleton_self last)
    have hnonempty := h.nonempty last hlastMem
    obtain ⟨hinit, -, hbefore⟩ := List.pairwise_append.mp h.separate
    refine ⟨fun x hx => ?_, fun x hx => ?_, List.pairwise_append.mpr ⟨hinit, List.pairwise_singleton _ _, ?_⟩⟩
    · rcases List.mem_append.mp hx with hx | hx
      · exact h.nonempty x (List.mem_append_left _ hx)
      · rw [List.mem_singleton.mp hx]
        change last.start < range.stop
        omega
    · rcases List.mem_append.mp hx with hx | hx
      · exact h.ends x (List.mem_append_left _ hx)
      · rw [List.mem_singleton.mp hx]
        exact ⟨(h.ends last hlastMem).1, hstop⟩
    · intro x hx y hy
      rw [List.mem_singleton.mp hy]
      exact hbefore x hx last (List.mem_singleton_self last)
  · rw [hpush]
    refine ⟨fun x hx => ?_, fun x hx => ?_, List.pairwise_append.mpr ⟨h.separate, List.pairwise_singleton _ _, ?_⟩⟩
    · rcases List.mem_append.mp hx with hx | hx
      · exact h.nonempty x hx
      · rw [List.mem_singleton.mp hx]
        exact hlt
    · rcases List.mem_append.mp hx with hx | hx
      · exact h.ends x hx
      · rw [List.mem_singleton.mp hx]
        exact ⟨hstart, hstop⟩
    · intro x hx y hy
      rw [List.mem_singleton.mp hy]
      rcases List.eq_nil_or_concat ranges with rfl | ⟨init, last, hconcat⟩
      · exact absurd hx List.not_mem_nil
      · rw [List.concat_eq_append] at hconcat
        subst hconcat
        have hlt' := hlast last (by simp)
        obtain ⟨-, -, hbefore⟩ := List.pairwise_append.mp h.separate
        rcases List.mem_append.mp hx with hx | hx
        · have hlastRange := h.nonempty last (List.mem_append_right init (List.mem_singleton_self last))
          have := hbefore x hx last (List.mem_singleton_self last)
          omega
        · rw [List.mem_singleton.mp hx]
          exact hlt'

theorem foldl_push_range {ends : Nat → Prop} (text : zed.rope.Rope) {more : List Range} (h : Merged ends ranges)
    (hascending : Ascending pos (ranges ++ more)) (hends : ∀ range ∈ more, ends range.start ∧ ends range.stop) :
    Merged ends (more.foldl push_range ranges) ∧
      outside text pos (more.foldl push_range ranges) = outside text pos (ranges ++ more) := by
  induction more generalizing ranges with
  | nil =>
    rw [List.append_nil]
    exact ⟨h, rfl⟩
  | cons range more ih =>
    obtain ⟨hpushed, houtside⟩ := push_range_spec text hascending
    obtain ⟨hstart, hstop⟩ := hends range List.mem_cons_self
    obtain ⟨hmerged, hall⟩ := ih (h.push hascending hstart hstop) hpushed
      fun later hlater => hends later (List.mem_cons_of_mem range hlater)
    exact ⟨hmerged, hall.trans houtside⟩

theorem foldl_pair (changes : List Change) (ranges : List Range × List Range) :
    changes.foldl (fun ranges change =>
        (push_range ranges.1 change.bytes.old, push_range ranges.2 change.bytes.new)) ranges =
      (((changes.map Change.bytes).map Edit.old).foldl push_range ranges.1,
        ((changes.map Change.bytes).map Edit.new).foldl push_range ranges.2) := by
  induction changes generalizing ranges with
  | nil => rfl
  | cons change changes ih => exact ih _

theorem spans_ascending {xs ys : zed.rope.Rope} {i j i' j' : Nat} {patch : Patch}
    (h : Patch.Spans xs ys i j patch i' j') : Ascending i (patch.map Edit.old) ∧ Ascending j (patch.map Edit.new) := by
  induction patch generalizing i j with
  | nil => exact ⟨trivial, trivial⟩
  | cons edit patch ih =>
    obtain ⟨hgap, hold, hnew, hrest⟩ := h
    exact ⟨⟨hgap.old_le, hold, (ih hrest).1⟩, hgap.new_le, hnew, (ih hrest).2⟩

theorem spans_outside {xs ys : zed.rope.Rope} {i j : Nat} {patch : Patch}
    (h : Patch.Spans xs ys i j patch xs.length ys.length) :
    outside xs i (patch.map Edit.old) = outside ys j (patch.map Edit.new) := by
  induction patch generalizing i j with
  | nil =>
    have hslice := Gap.slice_eq h
    rw [Patch.slice, Patch.slice, List.take_length, List.take_length] at hslice
    exact hslice
  | cons edit patch ih =>
    obtain ⟨hgap, -, -, hrest⟩ := h
    rw [List.map_cons, List.map_cons, outside, outside, hgap.slice_eq, ih hrest]

end Words

section Results

variable {compute : List Str → List Str → Patch} {LanguageScope : Type}

theorem text_diff_spec (hdiff : IsDiff compute) (kind : Option LanguageScope → Char → CharKind) (old new : Str)
    (options : DiffOptions LanguageScope) :
    ∃ edits, text_diff_with_options compute kind old new options = some edits ∧ Reproduces old new edits := by
  obtain ⟨changes, hchanges, -, hspans, hcut⟩ :=
    diff_internal_spec hdiff (split_inclusive_flatten old) (split_inclusive_flatten new)
  obtain ⟨runs, hruns, hall⟩ := mapM_forall₂ fun change hchange => by
    obtain ⟨edits, patch, hedits, hinserts, hpatch⟩ := hunk_edits_spec hdiff kind options (hcut change hchange)
    exact ⟨edits, hedits, (⟨patch, hinserts, hpatch⟩ : ∃ patch, List.Forall₂ (Inserts old new) patch edits ∧
      Patch.Spans (utf8 old) (utf8 new) change.bytes.old.start change.bytes.new.start patch
        change.bytes.old.stop change.bytes.new.stop)⟩
  obtain ⟨patches, hinserts, hfine⟩ : ∃ patches : List Patch,
      List.Forall₂ (Inserts old new) patches.flatten runs.flatten ∧
      List.Forall₂ (fun edit patch => Patch.Spans (utf8 old) (utf8 new) edit.old.start edit.new.start patch
        edit.old.stop edit.new.stop) (changes.map Change.bytes) patches := by
    clear hspans hcut hchanges hruns
    induction hall with
    | nil => exact ⟨[], List.Forall₂.nil, List.Forall₂.nil⟩
    | cons hfirst _ ih =>
      obtain ⟨patch, hinserts, hpatch⟩ := hfirst
      obtain ⟨patches, hrest, hfine⟩ := ih
      exact ⟨patch :: patches, List.rel_append hinserts hrest, List.Forall₂.cons hpatch hfine⟩
  refine ⟨runs.flatten, ?_, reproduces_of_inserts (spans_refine hspans hfine) hinserts⟩
  simp only [text_diff_with_options, hchanges, hruns, Option.bind_eq_bind, Option.bind_some]
  rfl

theorem char_diff_spec (hdiff : IsDiff compute) (old new : Str) :
    ∃ edits, char_diff compute old new = some edits ∧ Reproduces old new edits := by
  obtain ⟨before, hbefore, hflatten⟩ := tokenize_chars_spec old
  obtain ⟨after, hafter, hflatten'⟩ := tokenize_chars_spec new
  obtain ⟨changes, hchanges, -, hspans, hcut⟩ := diff_internal_spec hdiff hflatten hflatten'
  obtain ⟨edits, hedits, hall⟩ := mapM_forall₂ fun change hchange => inserts_spec (hcut change hchange)
  refine ⟨edits, ?_, reproduces_of_inserts hspans (List.forall₂_map_left_iff.mpr hall)⟩
  simp only [char_diff, hbefore, hafter, hchanges, Option.bind_eq_bind, Option.bind_some]
  exact hedits

/-- Sorted, disjoint ranges of rows that turn the old lines into the new ones. -/
structure ReproducesLines (old new : List Str) (rows : Patch) : Prop where
  ordered : ∀ edit ∈ rows, edit.old.start ≤ edit.old.stop ∧ edit.new.start ≤ edit.new.stop
  bounded : ∀ edit ∈ rows, edit.old.stop ≤ old.length ∧ edit.new.stop ≤ new.length
  disjoint : rows.Pairwise fun x y => x.old.stop ≤ y.old.start ∧ x.new.stop ≤ y.new.start
  applies : apply_from old new 0 rows = new

theorem line_diff_spec (hdiff : IsDiff compute) (old new : Str) :
    ∃ rows, line_diff compute old new = some rows ∧
      ReproducesLines (split_inclusive old) (split_inclusive new) rows := by
  obtain ⟨changes, hchanges, htokens, -, -⟩ :=
    diff_internal_spec hdiff (split_inclusive_flatten old) (split_inclusive_flatten new)
  have hspans := hdiff (split_inclusive old) (split_inclusive new)
  refine ⟨compute (split_inclusive old) (split_inclusive new), ?_, ?_⟩
  · simp only [line_diff, hchanges, Option.bind_eq_bind, Option.bind_some, htokens]
    rfl
  · exact
      { ordered := fun edit hedit => (hspans.bounds edit hedit).1
        bounded := fun edit hedit => ⟨(hspans.bounds edit hedit).2.1.2, (hspans.bounds edit hedit).2.2.2⟩
        disjoint := spans_disjoint hspans
        applies := hspans.apply_from_eq }

/-- Sorted, non-touching ranges on character boundaries. -/
def WordRanges (text : Str) (ranges : List Range) : Prop :=
  Merged (fun ix => zed.rope.is_char_boundary (utf8 text) ix = true) ranges

theorem word_diff_spec (hdiff : IsDiff compute) (kind : Option LanguageScope → Char → CharKind) (old new : Str)
    (options : DiffOptions LanguageScope) :
    ∃ old_ranges new_ranges, word_diff_ranges compute kind old new options = some (old_ranges, new_ranges) ∧
      WordRanges old old_ranges ∧ WordRanges new new_ranges ∧
      outside (utf8 old) 0 old_ranges = outside (utf8 new) 0 new_ranges := by
  obtain ⟨before, hbefore, hflatten⟩ := tokenize_spec (kind options.language_scope) old
  obtain ⟨after, hafter, hflatten'⟩ := tokenize_spec (kind options.language_scope) new
  obtain ⟨changes, hchanges, -, hspans, hcut⟩ := diff_internal_spec hdiff hflatten hflatten'
  have hnone : ∀ text : Str, WordRanges text [] := fun text =>
    ⟨fun range h => absurd h List.not_mem_nil, fun range h => absurd h List.not_mem_nil, List.Pairwise.nil⟩
  obtain ⟨hascending, hascending'⟩ := spans_ascending hspans
  obtain ⟨hmerged, houtside⟩ := foldl_push_range (utf8 old) (hnone old) hascending fun range hrange => by
    obtain ⟨edit, hedit, rfl⟩ := List.mem_map.mp hrange
    obtain ⟨change, hchange, rfl⟩ := List.mem_map.mp hedit
    exact ⟨is_char_boundary_of (hcut change hchange).old_start, is_char_boundary_of (hcut change hchange).old_stop⟩
  obtain ⟨hmerged', houtside'⟩ := foldl_push_range (utf8 new) (hnone new) hascending' fun range hrange => by
    obtain ⟨edit, hedit, rfl⟩ := List.mem_map.mp hrange
    obtain ⟨change, hchange, rfl⟩ := List.mem_map.mp hedit
    exact ⟨is_char_boundary_of (hcut change hchange).new_start, is_char_boundary_of (hcut change hchange).new_stop⟩
  refine ⟨_, _, ?_, hmerged, hmerged', ?_⟩
  · simp only [word_diff_ranges, hbefore, hafter, hchanges, Option.bind_eq_bind, Option.bind_some]
    exact congrArg some (foldl_pair changes ([], []))
  · rw [houtside, houtside']
    exact spans_outside hspans

/-- Every diff leads from the old text to the new one, on character boundaries; outside of the word ranges both texts
    are the same. -/
theorem diffs_reproduce_new_text (hdiff : IsDiff compute) (kind : Option LanguageScope → Char → CharKind)
    (old new : Str) (options : DiffOptions LanguageScope) :
    (∃ edits, text_diff_with_options compute kind old new options = some edits ∧ Reproduces old new edits) ∧
    (∃ edits, char_diff compute old new = some edits ∧ Reproduces old new edits) ∧
    (∃ rows, line_diff compute old new = some rows ∧
      ReproducesLines (split_inclusive old) (split_inclusive new) rows) ∧
    ∃ old_ranges new_ranges, word_diff_ranges compute kind old new options = some (old_ranges, new_ranges) ∧
      WordRanges old old_ranges ∧ WordRanges new new_ranges ∧
      outside (utf8 old) 0 old_ranges = outside (utf8 new) 0 new_ranges :=
  ⟨text_diff_spec hdiff kind old new options, char_diff_spec hdiff old new, line_diff_spec hdiff old new,
    word_diff_spec hdiff kind old new options⟩

/-- The diff of texts without a token in common. -/
def replace_all (before after : List Str) : Patch :=
  if before = after then [] else [⟨⟨0, before.length⟩, ⟨0, after.length⟩⟩]

theorem isDiff_replace_all : IsDiff replace_all := by
  intro before after
  unfold replace_all
  by_cases heq : before = after
  · rw [if_pos heq, heq]
    exact ⟨Nat.zero_le _, by omega, fun k hk => rfl⟩
  · rw [if_neg heq]
    exact ⟨Gap.refl 0 0, Nat.zero_le _, Nat.zero_le _, Gap.refl _ _⟩

theorem diffs_reproduce_new_text_letter :
    (∃ edits, text_diff_with_options replace_all (fun (_ : Option Unit) _ => .Word) ['a'] ['b'] ⟨none, 512, 8⟩ =
        some edits ∧ Reproduces ['a'] ['b'] edits) ∧
    (∃ edits, char_diff replace_all ['a'] ['b'] = some edits ∧ Reproduces ['a'] ['b'] edits) ∧
    (∃ rows, line_diff replace_all ['a'] ['b'] = some rows ∧
      ReproducesLines (split_inclusive ['a']) (split_inclusive ['b']) rows) ∧
    ∃ old_ranges new_ranges,
      word_diff_ranges replace_all (fun (_ : Option Unit) _ => .Word) ['a'] ['b'] ⟨none, 512, 8⟩ =
        some (old_ranges, new_ranges) ∧
      WordRanges ['a'] old_ranges ∧ WordRanges ['b'] new_ranges ∧
      outside (utf8 ['a']) 0 old_ranges = outside (utf8 ['b']) 0 new_ranges :=
  diffs_reproduce_new_text isDiff_replace_all (fun (_ : Option Unit) _ => .Word) ['a'] ['b'] ⟨none, 512, 8⟩

end Results

end zed.language
