import Zed.Language.TextDiff

namespace zed.language

open zed.rope (Str)
open zed.text (Edit Patch lines)
open zed.text.Patch (Gap Spans slice)

section Model

/-- A number of 32 bits: arithmetic on it wraps. -/
def wrap (n : Nat) : Nat := n % 2 ^ 32

def wrapping_sub (x y : Nat) : Nat := (x + 2 ^ 32 - y) % 2 ^ 32

/-- A hunk as it is printed: the numbers of its header, and its lines, each with the mark before it. -/
structure PrintedHunk where
  old_start : Nat
  old_len : Nat
  new_start : Nat
  new_len : Nat
  buffer : List (Char × Str)
deriving DecidableEq, Repr

def PrintedHunk.text (hunk : PrintedHunk) : Str :=
  s!"@@ -{hunk.old_start},{hunk.old_len} +{hunk.new_start},{hunk.new_len} @@\n".toList ++
    hunk.buffer.flatMap fun line => line.1 :: line.2 ++ ['\n']

structure OffsetUnifiedDiffBuilder where
  before : List Str
  after : List Str
  pos : Nat
  before_hunk_start : Nat
  after_hunk_start : Nat
  before_hunk_len : Nat
  after_hunk_len : Nat
  old_line_offset : Nat
  new_line_offset : Nat
  context_lines : Nat
  buffer : List (Char × Str)
  /-- the text of `dst`, hunk by hunk -/
  dst : List PrintedHunk

namespace OffsetUnifiedDiffBuilder

def new (before after : List Str) (old_line_offset new_line_offset context_lines : Nat) : OffsetUnifiedDiffBuilder where
  before
  after
  pos := 0
  before_hunk_start := 0
  after_hunk_start := 0
  before_hunk_len := 0
  after_hunk_len := 0
  old_line_offset
  new_line_offset
  context_lines
  buffer := []
  dst := []

variable (builder : OffsetUnifiedDiffBuilder)

def print_tokens (tokens : List Str) (mark : Char) : OffsetUnifiedDiffBuilder :=
  { builder with buffer := builder.buffer ++ tokens.map fun token => (mark, token) }

def update_pos (print_to move_to : Nat) : Option OffsetUnifiedDiffBuilder := do
  let tokens ← token_slice builder.before builder.pos print_to
  let len := wrapping_sub print_to builder.pos
  return { builder.print_tokens tokens ' ' with
    pos := move_to
    before_hunk_len := wrap (builder.before_hunk_len + len)
    after_hunk_len := wrap (builder.after_hunk_len + len) }

def flush : Option OffsetUnifiedDiffBuilder :=
  if builder.before_hunk_len = 0 ∧ builder.after_hunk_len = 0 then some builder
  else do
    let stop := min (wrap (builder.pos + builder.context_lines)) (wrap builder.before.length)
    let builder ← builder.update_pos stop stop
    let hunk : PrintedHunk :=
      { old_start := wrap (builder.before_hunk_start + 1 + builder.old_line_offset)
        old_len := builder.before_hunk_len
        new_start := wrap (builder.after_hunk_start + 1 + builder.new_line_offset)
        new_len := builder.after_hunk_len
        buffer := builder.buffer }
    return { builder with dst := builder.dst ++ [hunk], buffer := [], before_hunk_len := 0, after_hunk_len := 0 }

def open_hunk (change : Edit) : OffsetUnifiedDiffBuilder :=
  if builder.before_hunk_len = 0 ∧ builder.after_hunk_len = 0 then
    { builder with
      pos := change.old.start - builder.context_lines
      before_hunk_start := change.old.start - builder.context_lines
      after_hunk_start := change.new.start - builder.context_lines }
  else builder

/-- Prints the lines up to a change, and the change. -/
def print_change (change : Edit) : Option OffsetUnifiedDiffBuilder := do
  let builder ← builder.update_pos change.old.start change.old.stop
  let builder := { builder with
    before_hunk_len := wrap (builder.before_hunk_len + wrapping_sub change.old.stop change.old.start)
    after_hunk_len := wrap (builder.after_hunk_len + wrapping_sub change.new.stop change.new.start) }
  let removed ← token_slice builder.before change.old.start change.old.stop
  let builder := builder.print_tokens removed '-'
  let added ← token_slice builder.after change.new.start change.new.stop
  return builder.print_tokens added '+'

def process_change (change : Edit) : Option OffsetUnifiedDiffBuilder := do
  let builder ←
    if wrapping_sub change.old.start builder.pos > wrap (builder.context_lines * 2) then builder.flush
    else some builder
  (builder.open_hunk change).print_change change

def finish : Option (List PrintedHunk) := do
  let builder ← builder.flush
  return builder.dst

end OffsetUnifiedDiffBuilder

variable (compute : List Str → List Str → Patch)

/-- The hunks that `unified_diff_with_context` prints. -/
def unified_hunks (old_text new_text : Str) (old_start_line new_start_line context_lines : UInt32) :
    Option (List PrintedHunk) := do
  let before := lines old_text
  let after := lines new_text
  let builder := OffsetUnifiedDiffBuilder.new before after old_start_line.toNat new_start_line.toNat context_lines.toNat
  let builder ← (compute before after).foldlM OffsetUnifiedDiffBuilder.process_change builder
  builder.finish

def unified_diff_with_context (old_text new_text : Str) (old_start_line new_start_line context_lines : UInt32) :
    Option Str := do
  let hunks ← unified_hunks compute old_text new_text old_start_line new_start_line context_lines
  return hunks.flatMap PrintedHunk.text

end Model

section Lines

def PrintedHunk.old_lines (hunk : PrintedHunk) : List Str := (hunk.buffer.filter (·.1 ≠ '+')).map Prod.snd

def PrintedHunk.new_lines (hunk : PrintedHunk) : List Str := (hunk.buffer.filter (·.1 ≠ '-')).map Prod.snd

variable {mark : Char}

theorem marked_kept {other : Char} (h : mark ≠ other) (tokens : List Str) :
    ((tokens.map fun token => (mark, token)).filter (·.1 ≠ other)).map Prod.snd = tokens := by
  rw [List.filter_eq_self.mpr, List.map_map]
  · exact List.map_id tokens
  · intro line hline
    obtain ⟨token, -, rfl⟩ := List.mem_map.mp hline
    exact decide_eq_true h

theorem marked_dropped (tokens : List Str) :
    ((tokens.map fun token => (mark, token)).filter (·.1 ≠ mark)).map Prod.snd = [] := by
  rw [List.filter_eq_nil_iff.mpr, List.map_nil]
  intro line hline
  obtain ⟨token, -, rfl⟩ := List.mem_map.mp hline
  simp

theorem wrap_of_lt {n : Nat} (h : n < 2 ^ 32) : wrap n = n := Nat.mod_eq_of_lt h

theorem wrapping_sub_of_le {x y : Nat} (hle : y ≤ x) (hx : x < 2 ^ 32) : wrapping_sub x y = x - y := by
  unfold wrapping_sub
  omega

end Lines

section Invariant

open OffsetUnifiedDiffBuilder

variable {old new : List Str} {old_offset new_offset context_lines : Nat} {builder : OffsetUnifiedDiffBuilder}
  {patch : Patch} {s t j : Nat}

/-- A hunk is printed for an edit: its header gives the edit's ranges, its lines are those of the ranges. -/
structure Prints (old new : List Str) (old_offset new_offset : Nat) (edit : Edit) (hunk : PrintedHunk) : Prop where
  old_start : hunk.old_start = wrap (edit.old.start + 1 + old_offset)
  new_start : hunk.new_start = wrap (edit.new.start + 1 + new_offset)
  old_len : hunk.old_len = edit.old.stop - edit.old.start
  new_len : hunk.new_len = edit.new.stop - edit.new.start
  old_lines : hunk.old_lines = slice old edit.old.start edit.old.stop
  new_lines : hunk.new_lines = slice new edit.new.start edit.new.stop

/-- The hunks printed so far, and the inputs. -/
structure Written (old new : List Str) (old_offset new_offset context_lines : Nat)
    (builder : OffsetUnifiedDiffBuilder) (patch : Patch) : Prop where
  before : builder.before = old
  after : builder.after = new
  old_line_offset : builder.old_line_offset = old_offset
  new_line_offset : builder.new_line_offset = new_offset
  context_lines : builder.context_lines = context_lines
  dst : List.Forall₂ (Prints old new old_offset new_offset) patch builder.dst

/-- An open hunk that starts at `s` and `t` and has come to `pos` and `j`. -/
structure Open (old new : List Str) (old_offset new_offset context_lines : Nat)
    (builder : OffsetUnifiedDiffBuilder) (patch : Patch) (s t j : Nat) : Prop where
  written : Written old new old_offset new_offset context_lines builder patch
  old_start : builder.before_hunk_start = s
  new_start : builder.after_hunk_start = t
  old_le : s ≤ builder.pos
  new_le : t ≤ j
  old_len : builder.before_hunk_len = builder.pos - s
  new_len : builder.after_hunk_len = j - t
  old_lines : (builder.buffer.filter (·.1 ≠ '+')).map Prod.snd = slice old s builder.pos
  new_lines : (builder.buffer.filter (·.1 ≠ '-')).map Prod.snd = slice new t j
  spans : Spans old new 0 0 patch s t

theorem slice_slice {start mid stop : Nat} (xs : List Str) (h : start ≤ mid) (h' : mid ≤ stop) :
    slice xs start mid ++ slice xs mid stop = slice xs start stop := by
  have hsplit := Patch.slice_append_drop (xs.take stop) h
  rw [slice, List.take_take, min_eq_left h'] at hsplit
  exact hsplit

theorem Open.update_pos (h : Open old new old_offset new_offset context_lines builder patch s t j)
    (hold : old.length < 2 ^ 31) (hnew : new.length < 2 ^ 31) {i' j' : Nat} (hgap : Gap old new builder.pos j i' j')
    (hi : i' ≤ old.length) (hj : j' ≤ new.length) (move_to : Nat) :
    ∃ moved, builder.update_pos i' move_to = some moved ∧ moved.pos = move_to ∧
      Open old new old_offset new_offset context_lines { moved with pos := i' } patch s t j' := by
  have hle := hgap.old_le
  have hle' := hgap.new_le
  have hshift := hgap.shift
  have hs := h.old_le
  have ht := h.new_le
  have htokens : token_slice builder.before builder.pos i' = some (slice old builder.pos i') := by
    rw [h.written.before]
    exact token_slice_eq hle hi
  have hlen : wrapping_sub i' builder.pos = i' - builder.pos := wrapping_sub_of_le hle (by omega)
  refine ⟨_, by rw [OffsetUnifiedDiffBuilder.update_pos, htokens]; rfl, rfl, ?_⟩
  refine ⟨⟨h.written.before, h.written.after, h.written.old_line_offset, h.written.new_line_offset,
    h.written.context_lines, h.written.dst⟩, h.old_start, h.new_start, hs.trans hle, ht.trans hle', ?_, ?_, ?_, ?_,
    h.spans⟩
  · change wrap (builder.before_hunk_len + wrapping_sub i' builder.pos) = i' - s
    rw [hlen, h.old_len, wrap_of_lt (by omega)]
    omega
  · change wrap (builder.after_hunk_len + wrapping_sub i' builder.pos) = j' - t
    rw [hlen, h.new_len, wrap_of_lt (by omega)]
    omega
  · change ((builder.buffer ++ (slice old builder.pos i').map (fun token => (' ', token))).filter (·.1 ≠ '+')).map
      Prod.snd = slice old s i'
    rw [List.filter_append, List.map_append, h.old_lines, marked_kept (by decide), slice_slice old hs hle]
  · change ((builder.buffer ++ (slice old builder.pos i').map (fun token => (' ', token))).filter (·.1 ≠ '-')).map
      Prod.snd = slice new t j'
    rw [List.filter_append, List.map_append, h.new_lines, marked_kept (by decide), hgap.slice_eq,
      slice_slice new ht hle']

theorem Open.print_change (h : Open old new old_offset new_offset context_lines builder patch s t j)
    (hold : old.length < 2 ^ 31) (hnew : new.length < 2 ^ 31) {change : Edit}
    (hgap : Gap old new builder.pos j change.old.start change.new.start) (hordOld : change.old.start ≤ change.old.stop)
    (hordNew : change.new.start ≤ change.new.stop) (hi : change.old.stop ≤ old.length)
    (hj : change.new.stop ≤ new.length) :
    ∃ printed, builder.print_change change = some printed ∧ printed.pos = change.old.stop ∧
      Open old new old_offset new_offset context_lines printed patch s t change.new.stop := by
  obtain ⟨moved, hmoved, hpos, hopen⟩ := h.update_pos hold hnew hgap (hordOld.trans hi) (hordNew.trans hj)
    change.old.stop
  have hremoved : token_slice moved.before change.old.start change.old.stop =
      some (slice old change.old.start change.old.stop) := by
    rw [show moved.before = old from hopen.written.before]
    exact token_slice_eq hordOld hi
  have hadded : token_slice moved.after change.new.start change.new.stop =
      some (slice new change.new.start change.new.stop) := by
    rw [show moved.after = new from hopen.written.after]
    exact token_slice_eq hordNew hj
  have hs : s ≤ change.old.start := hopen.old_le
  have ht : t ≤ change.new.start := hopen.new_le
  have hlen : moved.before_hunk_len = change.old.start - s := hopen.old_len
  have hlen' : moved.after_hunk_len = change.new.start - t := hopen.new_len
  have hsub := wrapping_sub_of_le hordOld (by omega)
  have hsub' := wrapping_sub_of_le hordNew (by omega)
  let printed : OffsetUnifiedDiffBuilder :=
    { moved with
      before_hunk_len := wrap (moved.before_hunk_len + wrapping_sub change.old.stop change.old.start)
      after_hunk_len := wrap (moved.after_hunk_len + wrapping_sub change.new.stop change.new.start)
      buffer := moved.buffer ++ (slice old change.old.start change.old.stop).map (fun token => ('-', token)) ++
        (slice new change.new.start change.new.stop).map (fun token => ('+', token)) }
  have hprinted : builder.print_change change = some printed := by
    rw [OffsetUnifiedDiffBuilder.print_change, hmoved, Option.bind_eq_bind, Option.bind_some]
    dsimp only
    rw [hremoved, Option.bind_eq_bind, Option.bind_some, OffsetUnifiedDiffBuilder.print_tokens]
    dsimp only
    rw [hadded, Option.bind_some, OffsetUnifiedDiffBuilder.print_tokens]
    rfl
  refine ⟨printed, hprinted, hpos, ?_⟩
  refine ⟨⟨hopen.written.before, hopen.written.after, hopen.written.old_line_offset, hopen.written.new_line_offset,
    hopen.written.context_lines, hopen.written.dst⟩, hopen.old_start, hopen.new_start, ?_, ht.trans hordNew, ?_, ?_,
    ?_, ?_, hopen.spans⟩
  · change s ≤ moved.pos
    omega
  · change wrap (moved.before_hunk_len + wrapping_sub change.old.stop change.old.start) = moved.pos - s
    rw [hsub, hlen, hpos, wrap_of_lt (by omega)]
    omega
  · change wrap (moved.after_hunk_len + wrapping_sub change.new.stop change.new.start) = change.new.stop - t
    rw [hsub', hlen', wrap_of_lt (by omega)]
    omega
  · have hlines : (moved.buffer.filter (·.1 ≠ '+')).map Prod.snd = slice old s change.old.start := hopen.old_lines
    change ((moved.buffer ++ (slice old change.old.start change.old.stop).map (fun token => ('-', token)) ++
      (slice new change.new.start change.new.stop).map (fun token => ('+', token))).filter (·.1 ≠ '+')).map Prod.snd =
        slice old s moved.pos
    rw [List.filter_append, List.filter_append, List.map_append, List.map_append, hlines, marked_kept (by decide),
      marked_dropped, List.append_nil, hpos, slice_slice old hs hordOld]
  · have hlines : (moved.buffer.filter (·.1 ≠ '-')).map Prod.snd = slice new t change.new.start := hopen.new_lines
    change ((moved.buffer ++ (slice old change.old.start change.old.stop).map (fun token => ('-', token)) ++
      (slice new change.new.start change.new.stop).map (fun token => ('+', token))).filter (·.1 ≠ '-')).map Prod.snd =
        slice new t change.new.stop
    rw [List.filter_append, List.filter_append, List.map_append, List.map_append, hlines, marked_dropped,
      List.append_nil, marked_kept (by decide), slice_slice new ht hordNew]

/-- No hunk is open: what is printed leads up to `i` and `j`. -/
structure Closed (old new : List Str) (old_offset new_offset context_lines : Nat)
    (builder : OffsetUnifiedDiffBuilder) (patch : Patch) (i j : Nat) : Prop where
  written : Written old new old_offset new_offset context_lines builder patch
  old_len : builder.before_hunk_len = 0
  new_len : builder.after_hunk_len = 0
  buffer : builder.buffer = []
  spans : Spans old new 0 0 patch i j

theorem Open.flush (h : Open old new old_offset new_offset context_lines builder patch s t j)
    (hold : old.length < 2 ^ 31) (hnew : new.length < 2 ^ 31) (hnonempty : s < builder.pos ∨ t < j)
    (hend : builder.pos + context_lines < 2 ^ 32) {stop j' : Nat}
    (hstop : stop = min (builder.pos + context_lines) old.length) (hgap : Gap old new builder.pos j stop j')
    (hj : j' ≤ new.length) :
    ∃ closed, builder.flush = some closed ∧
      Closed old new old_offset new_offset context_lines closed (patch ++ [⟨⟨s, stop⟩, ⟨t, j'⟩⟩]) stop j' := by
  obtain ⟨moved, hmoved, hpos, hopen⟩ := h.update_pos hold hnew hgap (by omega) hj stop
  have hmin : min (wrap (builder.pos + builder.context_lines)) (wrap builder.before.length) = stop := by
    rw [h.written.context_lines, h.written.before, wrap_of_lt hend, wrap_of_lt (by omega), hstop]
  have hlen : ¬ (builder.before_hunk_len = 0 ∧ builder.after_hunk_len = 0) := by
    rw [h.old_len, h.new_len]
    omega
  have hprints : Prints old new old_offset new_offset ⟨⟨s, stop⟩, ⟨t, j'⟩⟩
      ⟨wrap (moved.before_hunk_start + 1 + moved.old_line_offset), moved.before_hunk_len,
        wrap (moved.after_hunk_start + 1 + moved.new_line_offset), moved.after_hunk_len, moved.buffer⟩ := by
    refine ⟨?_, ?_, hopen.old_len, hopen.new_len, hopen.old_lines, hopen.new_lines⟩
    · change wrap (moved.before_hunk_start + 1 + moved.old_line_offset) = wrap (s + 1 + old_offset)
      rw [show moved.before_hunk_start = s from hopen.old_start,
        show moved.old_line_offset = old_offset from hopen.written.old_line_offset]
    · change wrap (moved.after_hunk_start + 1 + moved.new_line_offset) = wrap (t + 1 + new_offset)
      rw [show moved.after_hunk_start = t from hopen.new_start,
        show moved.new_line_offset = new_offset from hopen.written.new_line_offset]
  let closed : OffsetUnifiedDiffBuilder :=
    { moved with
      dst := moved.dst ++ [⟨wrap (moved.before_hunk_start + 1 + moved.old_line_offset), moved.before_hunk_len,
        wrap (moved.after_hunk_start + 1 + moved.new_line_offset), moved.after_hunk_len, moved.buffer⟩]
      buffer := []
      before_hunk_len := 0
      after_hunk_len := 0 }
  have hclosed : builder.flush = some closed := by
    rw [OffsetUnifiedDiffBuilder.flush, if_neg hlen]
    dsimp only
    rw [hmin, hmoved]
    rfl
  refine ⟨closed, hclosed, ?_⟩
  refine ⟨⟨hopen.written.before, hopen.written.after, hopen.written.old_line_offset, hopen.written.new_line_offset,
    hopen.written.context_lines, ?_⟩, rfl, rfl, rfl, ?_⟩
  · exact List.rel_append hopen.written.dst (List.Forall₂.cons hprints List.Forall₂.nil)
  · have hlast : Spans old new s t [⟨⟨s, stop⟩, ⟨t, j'⟩⟩] stop j' :=
      ⟨Gap.refl s t, hopen.old_le, hopen.new_le, Gap.refl stop j'⟩
    exact spans_append h.spans hlast

theorem Closed.flush {i : Nat} (h : Closed old new old_offset new_offset context_lines builder patch i j) :
    builder.flush = some builder :=
  if_pos ⟨h.old_len, h.new_len⟩

theorem Closed.open_hunk {i : Nat} (h : Closed old new old_offset new_offset context_lines builder patch i j)
    {change : Edit}
    (hgap : Gap old new i j (change.old.start - context_lines) (change.new.start - context_lines)) :
    Open old new old_offset new_offset context_lines (builder.open_hunk change) patch
      (change.old.start - context_lines) (change.new.start - context_lines) (change.new.start - context_lines) ∧
    (builder.open_hunk change).pos = change.old.start - context_lines := by
  have hopen : builder.open_hunk change =
      { builder with
        pos := change.old.start - context_lines
        before_hunk_start := change.old.start - context_lines
        after_hunk_start := change.new.start - context_lines } := by
    rw [OffsetUnifiedDiffBuilder.open_hunk, if_pos ⟨h.old_len, h.new_len⟩, h.written.context_lines]
  have hnothing : ∀ (xs : List Str) (n : Nat), slice xs n n = [] := fun xs n =>
    List.drop_eq_nil_of_le (List.length_take_le _ _)
  rw [hopen]
  refine ⟨⟨⟨h.written.before, h.written.after, h.written.old_line_offset, h.written.new_line_offset,
    h.written.context_lines, h.written.dst⟩, rfl, rfl, le_rfl, le_rfl, ?_, ?_, ?_, ?_, h.spans.extend hgap⟩, rfl⟩
  · change builder.before_hunk_len = _ - _
    rw [h.old_len, Nat.sub_self]
  · rw [h.new_len, Nat.sub_self]
  · change (builder.buffer.filter _).map Prod.snd = _
    rw [h.buffer, hnothing]
    rfl
  · change (builder.buffer.filter _).map Prod.snd = _
    rw [h.buffer, hnothing]
    rfl

theorem gap_context {i i' j' : Nat} (hgap : Gap old new i j i' j') (h : i + context_lines ≤ i' ∨ i = 0 ∧ j = 0) :
    Gap old new i j (i' - context_lines) (j' - context_lines) ∧
      Gap old new (i' - context_lines) (j' - context_lines) i' j' := by
  have hle := hgap.old_le
  have hshift := hgap.shift
  have hcut := hgap.cut (show i' - context_lines - i ≤ i' - i by omega)
  rwa [show i + (i' - context_lines - i) = i' - context_lines by omega,
    show j + (i' - context_lines - i) = j' - context_lines by omega] at hcut

end Invariant

section Runs

/-- Where the hunks start: at the first change, and at each one more than twice the context after the one before. -/
def openings_from (context_lines : Nat) : Nat → Patch → List (Nat × Nat)
  | _, [] => []
  | stop, change :: changes =>
    if change.old.start - stop > context_lines * 2 then
      (change.old.start - context_lines, change.new.start - context_lines) ::
        openings_from context_lines change.old.stop changes
    else openings_from context_lines change.old.stop changes

def openings (context_lines : Nat) : Patch → List (Nat × Nat)
  | [] => []
  | first :: changes =>
    (first.old.start - context_lines, first.new.start - context_lines) ::
      openings_from context_lines first.old.stop changes

/-- No gap between two changes is taken for more than twice the context by the wrapped product alone. -/
def GapsFit (context_lines : Nat) : Nat → Patch → Prop
  | _, [] => True
  | stop, change :: changes =>
    (change.old.start - stop > wrap (context_lines * 2) → change.old.start - stop > context_lines * 2) ∧
      GapsFit context_lines change.old.stop changes

variable {old new : List Str} {old_offset new_offset context_lines : Nat} {builder : OffsetUnifiedDiffBuilder}
  {patch : Patch} {s t j : Nat}

def starts (patch : Patch) : List (Nat × Nat) := patch.map fun edit => (edit.old.start, edit.new.start)

theorem process_change_spec (h : Open old new old_offset new_offset context_lines builder patch s t j)
    (hold : old.length < 2 ^ 31) (hnew : new.length < 2 ^ 31) (hnonempty : s < builder.pos ∨ t < j)
    (hend : builder.pos + context_lines < 2 ^ 32) {change : Edit}
    (hgap : Gap old new builder.pos j change.old.start change.new.start) (hordOld : change.old.start ≤ change.old.stop)
    (hordNew : change.new.start ≤ change.new.stop) (hi : change.old.stop ≤ old.length)
    (hj : change.new.stop ≤ new.length)
    (hfit : change.old.start - builder.pos > wrap (context_lines * 2) →
      change.old.start - builder.pos > context_lines * 2) :
    ∃ next patch' s' t', builder.process_change change = some next ∧ next.pos = change.old.stop ∧
      Open old new old_offset new_offset context_lines next patch' s' t' change.new.stop ∧
      s' ≤ change.old.start ∧ t' ≤ change.new.start ∧
      starts patch' ++ [(s', t')] = starts patch ++ [(s, t)] ++
        if change.old.start - builder.pos > context_lines * 2 then
          [(change.old.start - context_lines, change.new.start - context_lines)]
        else [] := by
  have hle := hgap.old_le
  have hshift := hgap.shift
  have hsub : wrapping_sub change.old.start builder.pos = change.old.start - builder.pos :=
    wrapping_sub_of_le hle (by omega)
  rw [OffsetUnifiedDiffBuilder.process_change, hsub, h.written.context_lines]
  by_cases hfar : change.old.start - builder.pos > wrap (context_lines * 2)
  · rw [if_pos hfar]
    have htwice := hfit hfar
    obtain ⟨hbefore, hafter⟩ := hgap.cut (show context_lines ≤ change.old.start - builder.pos by omega)
    obtain ⟨closed, hclosed, hstate⟩ := h.flush hold hnew hnonempty hend
      (show builder.pos + context_lines = min (builder.pos + context_lines) old.length by omega) hbefore (by omega)
    obtain ⟨hopened, hcontext⟩ := gap_context hafter
      (Or.inl (show builder.pos + context_lines + context_lines ≤ change.old.start by omega))
    obtain ⟨hopen, hpos⟩ := hstate.open_hunk hopened
    rw [← hpos] at hcontext
    obtain ⟨next, hnext, hnextPos, hnextOpen⟩ := hopen.print_change hold hnew hcontext hordOld hordNew hi hj
    refine ⟨next, _, _, _, ?_, hnextPos, hnextOpen, Nat.sub_le _ _, Nat.sub_le _ _, ?_⟩
    · rw [hclosed]
      exact hnext
    · rw [if_pos htwice, starts, List.map_append]
      rfl
  · rw [if_neg hfar]
    have hclose : ¬ change.old.start - builder.pos > context_lines * 2 := by
      have hwrap : wrap (context_lines * 2) ≤ context_lines * 2 := Nat.mod_le _ _
      omega
    have hlen : ¬ (builder.before_hunk_len = 0 ∧ builder.after_hunk_len = 0) := by
      rw [h.old_len, h.new_len]
      have := h.old_le
      have := h.new_le
      omega
    have hsame : builder.open_hunk change = builder := if_neg hlen
    obtain ⟨next, hnext, hnextPos, hnextOpen⟩ := h.print_change hold hnew hgap hordOld hordNew hi hj
    refine ⟨next, patch, s, t, ?_, hnextPos, hnextOpen, h.old_le.trans hle, h.new_le.trans hgap.new_le, ?_⟩
    · change (builder.open_hunk change).print_change change = some next
      rw [hsame]
      exact hnext
    · rw [if_neg hclose, List.append_nil]

/-- What `Diff::compute` promises of the hunks of two token lists: it takes fewer than `i32::MAX` tokens, and its hunks
    are not empty, in order, inside the lists, and cover all that differs. -/
structure Computed (old new : List Str) (changes : Patch) : Prop where
  old_limit : old.length < 2 ^ 31 - 1
  new_limit : new.length < 2 ^ 31 - 1
  nonempty : ∀ change ∈ changes, change.old.start < change.old.stop ∨ change.new.start < change.new.stop
  spans : Spans old new 0 0 changes old.length new.length

theorem foldlM_spec {changes : Patch} (h : Open old new old_offset new_offset context_lines builder patch s t j)
    (hold : old.length < 2 ^ 31) (hnew : new.length < 2 ^ 31) (hnonempty : s < builder.pos ∨ t < j)
    (hend : builder.pos + context_lines < 2 ^ 32)
    (hchanges : ∀ change ∈ changes, change.old.start < change.old.stop ∨ change.new.start < change.new.stop)
    (hends : ∀ change ∈ changes, change.old.stop + context_lines < 2 ^ 32)
    (hspans : Spans old new builder.pos j changes old.length new.length)
    (hfit : GapsFit context_lines builder.pos changes) :
    ∃ last patch' s' t' j', changes.foldlM OffsetUnifiedDiffBuilder.process_change builder = some last ∧
      Open old new old_offset new_offset context_lines last patch' s' t' j' ∧ (s' < last.pos ∨ t' < j') ∧
      last.pos + context_lines < 2 ^ 32 ∧ Gap old new last.pos j' old.length new.length ∧
      starts patch' ++ [(s', t')] = starts patch ++ [(s, t)] ++ openings_from context_lines builder.pos changes := by
  induction changes generalizing builder patch s t j with
  | nil => exact ⟨builder, patch, s, t, j, rfl, h, hnonempty, hend, hspans, (List.append_nil _).symm⟩
  | cons change changes ih =>
    obtain ⟨hgap, hordOld, hordNew, hrest⟩ := hspans
    have hle := hrest.le
    obtain ⟨hfirst, hfits⟩ := hfit
    obtain ⟨next, patch', s', t', hnext, hpos, hopen, hs, ht, hstarts⟩ :=
      process_change_spec h hold hnew hnonempty hend hgap hordOld hordNew hle.1 hle.2 hfirst
    have hchange := hchanges change List.mem_cons_self
    have hstop := hends change List.mem_cons_self
    rw [← hpos] at hrest hfits hstop
    obtain ⟨last, patch'', s'', t'', j'', hlast, hlastOpen, hlastNonempty, hlastEnd, hlastGap, hlastStarts⟩ :=
      ih hopen (by omega) hstop (fun later hlater => hchanges later (List.mem_cons_of_mem change hlater))
        (fun later hlater => hends later (List.mem_cons_of_mem change hlater)) hrest hfits
    refine ⟨last, patch'', s'', t'', j'', ?_, hlastOpen, hlastNonempty, hlastEnd, hlastGap, ?_⟩
    · rw [List.foldlM_cons, hnext]
      exact hlast
    · rw [hlastStarts, hstarts, openings_from, hpos]
      by_cases hfar : change.old.start - builder.pos > context_lines * 2
      · rw [if_pos hfar, if_pos hfar, List.append_assoc _ [_]]
        rfl
      · rw [if_neg hfar, if_neg hfar, List.append_nil]

theorem new_closed (old new : List Str) (old_offset new_offset context_lines : Nat) :
    Closed old new old_offset new_offset context_lines
      (OffsetUnifiedDiffBuilder.new old new old_offset new_offset context_lines) [] 0 0 :=
  ⟨⟨rfl, rfl, rfl, rfl, rfl, List.Forall₂.nil⟩, rfl, rfl, rfl, Gap.refl 0 0⟩

theorem process_change_closed {i : Nat}
    (h : Closed old new old_offset new_offset context_lines builder patch i j) (change : Edit) :
    builder.process_change change = (builder.open_hunk change).print_change change := by
  rw [OffsetUnifiedDiffBuilder.process_change, h.flush, ite_self]
  rfl

/-- What a run prints when nothing overflows but the line numbers: hunks for edits that lead from the old lines to the
    new ones, and start where hunks open. -/
theorem run_spec {changes : Patch} (hcomputed : Computed old new changes)
    (hends : ∀ change ∈ changes, change.old.stop + context_lines < 2 ^ 32)
    (hfit : ∀ first rest, changes = first :: rest → GapsFit context_lines first.old.stop rest) :
    ∃ hunks patch, (changes.foldlM OffsetUnifiedDiffBuilder.process_change
        (OffsetUnifiedDiffBuilder.new old new old_offset new_offset context_lines)).bind
          OffsetUnifiedDiffBuilder.finish = some hunks ∧
      List.Forall₂ (Prints old new old_offset new_offset) patch hunks ∧
      Spans old new 0 0 patch old.length new.length ∧ starts patch = openings context_lines changes := by
  have hold : old.length < 2 ^ 31 := lt_trans hcomputed.old_limit (by decide)
  have hnew : new.length < 2 ^ 31 := lt_trans hcomputed.new_limit (by decide)
  have hclosed := new_closed old new old_offset new_offset context_lines
  cases changes with
  | nil =>
    refine ⟨[], [], ?_, List.Forall₂.nil, hcomputed.spans, rfl⟩
    change (OffsetUnifiedDiffBuilder.new old new old_offset new_offset context_lines).finish = some []
    rw [OffsetUnifiedDiffBuilder.finish, hclosed.flush]
    rfl
  | cons first rest =>
    obtain ⟨hgap, hordOld, hordNew, hrest⟩ := hcomputed.spans
    have hle := hrest.le
    obtain ⟨hopened, hcontext⟩ :
        Gap old new 0 0 (first.old.start - context_lines) (first.new.start - context_lines) ∧
          Gap old new (first.old.start - context_lines) (first.new.start - context_lines) first.old.start
            first.new.start :=
      gap_context hgap (Or.inr ⟨rfl, rfl⟩)
    obtain ⟨hopen, hpos⟩ := hclosed.open_hunk hopened
    rw [← hpos] at hcontext
    obtain ⟨next, hnext, hnextPos, hnextOpen⟩ :=
      hopen.print_change hold hnew hcontext hordOld hordNew hle.1 hle.2
    have hfirst := hcomputed.nonempty first List.mem_cons_self
    have hstop := hends first List.mem_cons_self
    have hfits := hfit first rest rfl
    rw [← hnextPos] at hrest hstop hfits
    obtain ⟨last, patch, s, t, j, hlast, hlastOpen, hlastNonempty, hlastEnd, hlastGap, hstarts⟩ :=
      foldlM_spec hnextOpen hold hnew (by omega) hstop
        (fun change hchange => hcomputed.nonempty change (List.mem_cons_of_mem first hchange))
        (fun change hchange => hends change (List.mem_cons_of_mem first hchange)) hrest hfits
    have hlastLe := hlastGap.old_le
    have hlastShift := hlastGap.shift
    obtain ⟨hbefore, hafter⟩ := hlastGap.cut
      (show min context_lines (old.length - last.pos) ≤ old.length - last.pos from min_le_right _ _)
    rw [show last.pos + min context_lines (old.length - last.pos) = min (last.pos + context_lines) old.length by
      omega] at hbefore hafter
    obtain ⟨closed, hflush, hstate⟩ := hlastOpen.flush hold hnew hlastNonempty hlastEnd rfl hbefore (by omega)
    refine ⟨closed.dst, _, ?_, hstate.written.dst, hstate.spans.extend hafter, ?_⟩
    · rw [List.foldlM_cons, process_change_closed hclosed first, hnext]
      change (rest.foldlM OffsetUnifiedDiffBuilder.process_change next).bind _ = _
      rw [hlast, Option.bind_some, OffsetUnifiedDiffBuilder.finish, hflush]
      rfl
    · rw [starts, List.map_append]
      change starts patch ++ [(s, t)] = _
      rw [hstarts, hnextPos]
      rfl

end Runs

section Applying

/-- Lines stand in a list at a line number, counted from one on and shifted by an offset. -/
def Stands (lines : List Str) (offset start : Nat) (part : List Str) : Prop :=
  ∃ before after, lines = before ++ part ++ after ∧ start = before.length + 1 + offset

def patched (old : List Str) (old_offset : Nat) : Nat → List PrintedHunk → List Str
  | pos, [] => old.drop pos
  | pos, hunk :: hunks =>
    slice old pos (hunk.old_start - 1 - old_offset) ++ hunk.new_lines ++
      patched old old_offset (hunk.old_start - 1 - old_offset + hunk.old_len) hunks

/-- What a unified diff has to be for its reader. -/
structure AppliesBack (old new : List Str) (old_offset new_offset : Nat) (hunks : List PrintedHunk) : Prop where
  counts : ∀ hunk ∈ hunks, hunk.old_len = hunk.old_lines.length ∧ hunk.new_len = hunk.new_lines.length
  stands : ∀ hunk ∈ hunks, Stands old old_offset hunk.old_start hunk.old_lines ∧
    Stands new new_offset hunk.new_start hunk.new_lines
  ordered : hunks.Pairwise fun x y =>
    x.old_start + x.old_len ≤ y.old_start ∧ x.new_start + x.new_len ≤ y.new_start
  applies : patched old old_offset 0 hunks = new

variable {old new : List Str} {old_offset new_offset context_lines : Nat} {patch : Patch} {hunks : List PrintedHunk}

theorem stands_slice {lines : List Str} {start stop offset : Nat} (hle : start ≤ stop) (hstop : stop ≤ lines.length) :
    Stands lines offset (start + 1 + offset) (slice lines start stop) := by
  refine ⟨lines.take start, lines.drop stop, ?_, ?_⟩
  · rw [List.append_assoc, Patch.slice_append_drop lines hle, List.take_append_drop]
  · rw [List.length_take, min_eq_left (hle.trans hstop)]

/-- The printed line numbers fit in 32 bits. -/
def HeadersFit (old_offset new_offset : Nat) (openings : List (Nat × Nat)) : Prop :=
  ∀ opening ∈ openings, opening.1 + 1 + old_offset < 2 ^ 32 ∧ opening.2 + 1 + new_offset < 2 ^ 32

theorem prints_of_mem (h : List.Forall₂ (Prints old new old_offset new_offset) patch hunks) {hunk : PrintedHunk}
    (hhunk : hunk ∈ hunks) : ∃ edit ∈ patch, Prints old new old_offset new_offset edit hunk := by
  induction h with
  | nil => exact absurd hhunk List.not_mem_nil
  | @cons edit first patch hunks hprints _ ih =>
    rcases List.mem_cons.mp hhunk with rfl | hhunk
    · exact ⟨edit, List.mem_cons_self, hprints⟩
    · obtain ⟨later, hlater, hprints⟩ := ih hhunk
      exact ⟨later, List.mem_cons_of_mem edit hlater, hprints⟩

theorem prints_of_edit (h : List.Forall₂ (Prints old new old_offset new_offset) patch hunks) {edit : Edit}
    (hedit : edit ∈ patch) : ∃ hunk ∈ hunks, Prints old new old_offset new_offset edit hunk := by
  induction h with
  | nil => exact absurd hedit List.not_mem_nil
  | @cons first hunk patch hunks hprints _ ih =>
    rcases List.mem_cons.mp hedit with rfl | hedit
    · exact ⟨hunk, List.mem_cons_self, hprints⟩
    · obtain ⟨later, hlater, hprints⟩ := ih hedit
      exact ⟨later, List.mem_cons_of_mem hunk hlater, hprints⟩

theorem fit_of_mem (hfit : HeadersFit old_offset new_offset (starts patch)) {edit : Edit} (hedit : edit ∈ patch) :
    edit.old.start + 1 + old_offset < 2 ^ 32 ∧ edit.new.start + 1 + new_offset < 2 ^ 32 :=
  hfit (edit.old.start, edit.new.start) (List.mem_map.mpr ⟨edit, hedit, rfl⟩)

theorem patched_eq (hprints : List.Forall₂ (Prints old new old_offset new_offset) patch hunks)
    (hfit : HeadersFit old_offset new_offset (starts patch))
    (hordered : ∀ edit ∈ patch, edit.old.start ≤ edit.old.stop) (pos : Nat) :
    patched old old_offset pos hunks = Patch.apply_from old new pos patch := by
  induction hprints generalizing pos with
  | nil => rfl
  | @cons edit hunk patch hunks hprints _ ih =>
    have hheader := fit_of_mem hfit List.mem_cons_self
    have hle := hordered edit List.mem_cons_self
    have hstart : hunk.old_start - 1 - old_offset = edit.old.start := by
      rw [hprints.old_start, wrap_of_lt hheader.1]
      omega
    have hstop : edit.old.start + hunk.old_len = edit.old.stop := by
      rw [hprints.old_len]
      omega
    rw [patched, Patch.apply_from, hstart, hstop, hprints.new_lines,
      ih (fun opening hopening => hfit opening (List.mem_cons_of_mem _ hopening))
        (fun later hlater => hordered later (List.mem_cons_of_mem edit hlater))]

theorem ordered_of_prints (hprints : List.Forall₂ (Prints old new old_offset new_offset) patch hunks)
    (hfit : HeadersFit old_offset new_offset (starts patch))
    (hordered : ∀ edit ∈ patch, edit.old.start ≤ edit.old.stop ∧ edit.new.start ≤ edit.new.stop)
    (hdisjoint : patch.Pairwise fun x y => x.old.stop ≤ y.old.start ∧ x.new.stop ≤ y.new.start) :
    hunks.Pairwise fun x y => x.old_start + x.old_len ≤ y.old_start ∧ x.new_start + x.new_len ≤ y.new_start := by
  induction hprints with
  | nil => exact List.Pairwise.nil
  | @cons edit hunk patch hunks hfirst hrest ih =>
    obtain ⟨hbefore, hlater⟩ := List.pairwise_cons.mp hdisjoint
    have hfitRest : HeadersFit old_offset new_offset (starts patch) := fun opening hopening =>
      hfit opening (List.mem_cons_of_mem _ hopening)
    refine List.pairwise_cons.mpr ⟨fun other hother => ?_,
      ih hfitRest (fun later hmem => hordered later (List.mem_cons_of_mem edit hmem)) hlater⟩
    obtain ⟨later, hmem, hprints⟩ := prints_of_mem hrest hother
    have hheader := fit_of_mem hfit List.mem_cons_self
    have hheader' := fit_of_mem hfitRest hmem
    have hle := hordered edit List.mem_cons_self
    have hdisj := hbefore later hmem
    rw [hfirst.old_start, hfirst.old_len, hfirst.new_start, hfirst.new_len, hprints.old_start, hprints.new_start,
      wrap_of_lt hheader.1, wrap_of_lt hheader.2, wrap_of_lt hheader'.1, wrap_of_lt hheader'.2]
    omega

theorem appliesBack_iff (hprints : List.Forall₂ (Prints old new old_offset new_offset) patch hunks)
    (hspans : Spans old new 0 0 patch old.length new.length) (hold : old.length < 2 ^ 32)
    (hnew : new.length < 2 ^ 32) (hold_offset : old_offset < 2 ^ 32) (hnew_offset : new_offset < 2 ^ 32) :
    AppliesBack old new old_offset new_offset hunks ↔ HeadersFit old_offset new_offset (starts patch) := by
  constructor
  · intro h opening hopening
    obtain ⟨edit, hedit, rfl⟩ := List.mem_map.mp hopening
    obtain ⟨hunk, hhunk, hprint⟩ := prints_of_edit hprints hedit
    obtain ⟨⟨before, after, hsplit, hstart⟩, before', after', hsplit', hstart'⟩ := h.stands hunk hhunk
    have hbounds := hspans.bounds edit hedit
    have hlen := congrArg List.length hsplit
    have hlen' := congrArg List.length hsplit'
    simp only [List.length_append] at hlen hlen'
    rw [hprint.old_start] at hstart
    rw [hprint.new_start] at hstart'
    unfold wrap at hstart hstart'
    exact ⟨by omega, by omega⟩
  · intro hfit
    refine ⟨fun hunk hhunk => ?_, fun hunk hhunk => ?_, ?_, ?_⟩
    · obtain ⟨edit, hedit, hprint⟩ := prints_of_mem hprints hhunk
      have hbounds := hspans.bounds edit hedit
      rw [hprint.old_len, hprint.new_len, hprint.old_lines, hprint.new_lines,
        Patch.slice_length hbounds.2.1.2, Patch.slice_length hbounds.2.2.2]
      exact ⟨rfl, rfl⟩
    · obtain ⟨edit, hedit, hprint⟩ := prints_of_mem hprints hhunk
      have hbounds := hspans.bounds edit hedit
      have hheader := fit_of_mem hfit hedit
      rw [hprint.old_start, hprint.new_start, hprint.old_lines, hprint.new_lines, wrap_of_lt hheader.1,
        wrap_of_lt hheader.2]
      exact ⟨stands_slice hbounds.1.1 hbounds.2.1.2, stands_slice hbounds.1.2 hbounds.2.2.2⟩
    · exact ordered_of_prints hprints hfit (fun edit hedit => (hspans.bounds edit hedit).1) (spans_disjoint hspans)
    · rw [patched_eq hprints hfit fun edit hedit => (hspans.bounds edit hedit).1.1]
      exact hspans.apply_from_eq

end Applying

section Wide

variable {old new : List Str} {old_offset context_lines j : Nat} {builder : OffsetUnifiedDiffBuilder}

theorem update_pos_inv {print_to move_to : Nat} {moved : OffsetUnifiedDiffBuilder}
    (h : builder.update_pos print_to move_to = some moved) :
    builder.pos ≤ print_to ∧ print_to ≤ builder.before.length ∧
      moved = { builder with
        buffer := moved.buffer
        pos := move_to
        before_hunk_len := wrap (builder.before_hunk_len + wrapping_sub print_to builder.pos)
        after_hunk_len := wrap (builder.after_hunk_len + wrapping_sub print_to builder.pos) } := by
  unfold OffsetUnifiedDiffBuilder.update_pos token_slice at h
  by_cases hslice : builder.pos ≤ print_to ∧ print_to ≤ builder.before.length
  · rw [if_pos hslice] at h
    rw [← Option.some.inj h]
    exact ⟨hslice.1, hslice.2, rfl⟩
  · rw [if_neg hslice] at h
    exact absurd h (by simp)

theorem flush_inv {closed : OffsetUnifiedDiffBuilder}
    (hlen : ¬ (builder.before_hunk_len = 0 ∧ builder.after_hunk_len = 0)) (h : builder.flush = some closed) :
    ∃ stop hunk, stop = min (wrap (builder.pos + builder.context_lines)) (wrap builder.before.length) ∧
      builder.pos ≤ stop ∧ hunk.old_start = wrap (builder.before_hunk_start + 1 + builder.old_line_offset) ∧
      hunk.old_len = wrap (builder.before_hunk_len + wrapping_sub stop builder.pos) ∧
      closed = { builder with
        pos := stop
        buffer := []
        before_hunk_len := 0
        after_hunk_len := 0
        dst := builder.dst ++ [hunk] } := by
  unfold OffsetUnifiedDiffBuilder.flush at h
  rw [if_neg hlen] at h
  obtain ⟨moved, hmoved, hclosed⟩ := Option.bind_eq_some_iff.mp h
  obtain ⟨hle, -, hfields⟩ := update_pos_inv hmoved
  rw [hfields] at hclosed
  exact ⟨_, _, rfl, hle, rfl, rfl, (Option.some.inj hclosed).symm⟩

theorem print_change_inv {change : Edit} {printed : OffsetUnifiedDiffBuilder}
    (h : builder.print_change change = some printed) :
    printed = { builder with
      buffer := printed.buffer
      pos := change.old.stop
      before_hunk_len := wrap (wrap (builder.before_hunk_len + wrapping_sub change.old.start builder.pos) +
        wrapping_sub change.old.stop change.old.start)
      after_hunk_len := wrap (wrap (builder.after_hunk_len + wrapping_sub change.old.start builder.pos) +
        wrapping_sub change.new.stop change.new.start) } := by
  unfold OffsetUnifiedDiffBuilder.print_change at h
  obtain ⟨moved, hmoved, h⟩ := Option.bind_eq_some_iff.mp h
  obtain ⟨removed, -, h⟩ := Option.bind_eq_some_iff.mp h
  obtain ⟨added, -, h⟩ := Option.bind_eq_some_iff.mp h
  obtain ⟨-, -, hfields⟩ := update_pos_inv hmoved
  rw [← Option.some.inj h, hfields]
  rfl

/-- With 2^31 lines of context or more, every hunk starts at the first line and is closed at the last one. -/
structure Wide (old : List Str) (old_offset context_lines : Nat) (builder : OffsetUnifiedDiffBuilder) (j : Nat) :
    Prop where
  before : builder.before = old
  old_line_offset : builder.old_line_offset = old_offset
  context_lines : builder.context_lines = context_lines
  start : builder.before_hunk_start = 0
  len : builder.before_hunk_len = builder.pos
  nonempty : builder.pos = 0 → builder.after_hunk_len = j ∧ 0 < j
  dst : ∀ hunk ∈ builder.dst,
    hunk.old_start = wrap (1 + old_offset) ∧ hunk.old_len = old.length ∧ 0 < old.length

theorem Wide.open (h : Wide old old_offset context_lines builder j) :
    ¬ (builder.before_hunk_len = 0 ∧ builder.after_hunk_len = 0) := by
  rintro ⟨hlen, hlen'⟩
  have hpos : builder.pos = 0 := h.len.symm.trans hlen
  obtain ⟨hafter, hj⟩ := h.nonempty hpos
  omega

theorem Wide.flush (h : Wide old old_offset context_lines builder j) (hwide : 2 ^ 31 ≤ context_lines)
    (hlimit : context_lines < 2 ^ 32) (hold : old.length < 2 ^ 31) (hpos : builder.pos ≤ old.length)
    {closed : OffsetUnifiedDiffBuilder} (hclosed : builder.flush = some closed) :
    builder.pos + context_lines < 2 ^ 32 ∧ ∃ hunk, hunk.old_start = wrap (1 + old_offset) ∧
      hunk.old_len = old.length ∧
      closed = { builder with
        pos := old.length
        buffer := []
        before_hunk_len := 0
        after_hunk_len := 0
        dst := builder.dst ++ [hunk] } := by
  obtain ⟨stop, hunk, hstop, hle, hstart, hlen, hfields⟩ := flush_inv h.open hclosed
  rw [h.context_lines, h.before, wrap_of_lt (show old.length < 2 ^ 32 by omega)] at hstop
  have hfits : builder.pos + context_lines < 2 ^ 32 := by
    by_contra hnot
    unfold wrap at hstop
    omega
  rw [wrap_of_lt hfits, min_eq_right (show old.length ≤ builder.pos + context_lines by omega)] at hstop
  subst hstop
  refine ⟨hfits, hunk, ?_, ?_, hfields⟩
  · rw [hstart, h.start, h.old_line_offset, Nat.zero_add]
  · rw [hlen, h.len, wrapping_sub_of_le hpos (by omega), wrap_of_lt (by omega)]
    omega

theorem Wide.process_change (h : Wide old old_offset context_lines builder j) (hwide : 2 ^ 31 ≤ context_lines)
    (hlimit : context_lines < 2 ^ 32) (hold : old.length < 2 ^ 31) (hnew : new.length < 2 ^ 31) {change : Edit}
    (hgap : Gap old new builder.pos j change.old.start change.new.start) (hordOld : change.old.start ≤ change.old.stop)
    (hordNew : change.new.start ≤ change.new.stop) (hi : change.old.stop ≤ old.length)
    (hj : change.new.stop ≤ new.length) {next : OffsetUnifiedDiffBuilder}
    (hnext : builder.process_change change = some next) :
    Wide old old_offset context_lines next change.new.stop ∧ next.pos = change.old.stop ∧
      (next.dst = [] → builder.dst = [] ∧ ¬ change.old.start - builder.pos > wrap (context_lines * 2)) := by
  have hle := hgap.old_le
  have hshift := hgap.shift
  have hsub : wrapping_sub change.old.start builder.pos = change.old.start - builder.pos :=
    wrapping_sub_of_le hle (by omega)
  have hsub' := wrapping_sub_of_le hordOld (show change.old.stop < 2 ^ 32 by omega)
  rw [OffsetUnifiedDiffBuilder.process_change, hsub, h.context_lines] at hnext
  by_cases hfar : change.old.start - builder.pos > wrap (context_lines * 2)
  · rw [if_pos hfar] at hnext
    obtain ⟨closed, hclosed, hnext⟩ := Option.bind_eq_some_iff.mp hnext
    obtain ⟨-, hunk, hstart, hlen, hfields⟩ := h.flush hwide hlimit hold (by omega) hclosed
    have hzero : change.old.start - context_lines = 0 := by omega
    subst hfields
    beta_reduce at hnext
    rw [OffsetUnifiedDiffBuilder.open_hunk, if_pos ⟨rfl, rfl⟩] at hnext
    have hprinted := print_change_inv hnext
    simp only [h.context_lines, hzero, Nat.zero_add, wrapping_sub_of_le (Nat.zero_le change.old.start)
      (show change.old.start < 2 ^ 32 by omega), Nat.sub_zero, wrap_of_lt (show change.old.start < 2 ^ 32 by omega),
      hsub', Nat.add_sub_cancel' hordOld, wrap_of_lt (show change.old.stop < 2 ^ 32 by omega)] at hprinted
    rw [hprinted]
    refine ⟨⟨h.before, h.old_line_offset, rfl, rfl, rfl, ?_, ?_⟩, rfl, ?_⟩
    · intro hstop
      have : change.old.stop = 0 := hstop
      omega
    · intro other hother
      rcases List.mem_append.mp hother with hother | hother
      · exact h.dst other hother
      · rw [List.mem_singleton.mp hother]
        exact ⟨hstart, hlen, by omega⟩
    · intro hdst
      exact absurd hdst (List.append_ne_nil_of_right_ne_nil _ (List.cons_ne_nil _ _))
  · rw [if_neg hfar] at hnext
    have hsame : builder.open_hunk change = builder := if_neg h.open
    change (builder.open_hunk change).print_change change = some next at hnext
    rw [hsame] at hnext
    have hprinted := print_change_inv hnext
    rw [h.len, hsub, hsub', wrap_of_lt (show builder.pos + (change.old.start - builder.pos) < 2 ^ 32 by omega),
      Nat.add_sub_cancel' hle, Nat.add_sub_cancel' hordOld, wrap_of_lt (show change.old.stop < 2 ^ 32 by omega)]
      at hprinted
    rw [hprinted]
    refine ⟨⟨h.before, h.old_line_offset, h.context_lines, h.start, rfl, ?_, h.dst⟩, rfl, fun hdst => ⟨hdst, hfar⟩⟩
    intro hstop
    have hzero : change.old.stop = 0 := hstop
    obtain ⟨hafter, hpositive⟩ := h.nonempty (by omega)
    change wrap (wrap (builder.after_hunk_len + (change.old.start - builder.pos)) +
      wrapping_sub change.new.stop change.new.start) = change.new.stop ∧ 0 < change.new.stop
    rw [hafter, wrapping_sub_of_le hordNew (by omega),
      wrap_of_lt (show j + (change.old.start - builder.pos) < 2 ^ 32 by omega), wrap_of_lt (by omega)]
    omega

theorem wide_foldlM {changes : Patch} (h : Wide old old_offset context_lines builder j)
    (hwide : 2 ^ 31 ≤ context_lines) (hlimit : context_lines < 2 ^ 32) (hold : old.length < 2 ^ 31)
    (hnew : new.length < 2 ^ 31) (hspans : Spans old new builder.pos j changes old.length new.length)
    {last : OffsetUnifiedDiffBuilder}
    (hlast : changes.foldlM OffsetUnifiedDiffBuilder.process_change builder = some last) :
    ∃ j', Wide old old_offset context_lines last j' ∧ builder.pos ≤ last.pos ∧ last.pos ≤ old.length ∧
      (∀ change ∈ changes, change.old.stop ≤ last.pos) ∧
      (last.dst = [] → builder.dst = [] ∧ GapsFit context_lines builder.pos changes) := by
  induction changes generalizing builder j with
  | nil =>
    obtain rfl := Option.some.inj hlast
    exact ⟨j, h, le_rfl, Gap.old_le hspans, fun change hchange => absurd hchange List.not_mem_nil,
      fun hdst => ⟨hdst, trivial⟩⟩
  | cons change changes ih =>
    obtain ⟨hgap, hordOld, hordNew, hrest⟩ := hspans
    have hle := hrest.le
    rw [List.foldlM_cons] at hlast
    obtain ⟨next, hnext, hlast⟩ := Option.bind_eq_some_iff.mp hlast
    obtain ⟨hnextWide, hpos, hdst⟩ :=
      h.process_change hwide hlimit hold hnew hgap hordOld hordNew hle.1 hle.2 hnext
    rw [← hpos] at hrest
    obtain ⟨j', hlastWide, hlastLe, hlastLength, hstops, hfit⟩ := ih hnextWide hrest hlast
    have hgapLe := hgap.old_le
    refine ⟨j', hlastWide, by omega, hlastLength, fun later hlater => ?_, fun hnil => ?_⟩
    · rcases List.mem_cons.mp hlater with rfl | hlater
      · omega
      · exact hstops later hlater
    · obtain ⟨hnextDst, hfits⟩ := hfit hnil
      obtain ⟨hbuilder, hnear⟩ := hdst hnextDst
      rw [hpos] at hfits
      exact ⟨hbuilder, fun hfar => absurd hfar hnear, hfits⟩

theorem wide_run {new_offset : Nat} {changes : Patch} (hcomputed : Computed old new changes)
    (hwide : 2 ^ 31 ≤ context_lines) (hlimit : context_lines < 2 ^ 32) {hunks : List PrintedHunk}
    (hrun : (changes.foldlM OffsetUnifiedDiffBuilder.process_change
        (OffsetUnifiedDiffBuilder.new old new old_offset new_offset context_lines)).bind
          OffsetUnifiedDiffBuilder.finish = some hunks)
    (happlies : AppliesBack old new old_offset new_offset hunks) :
    (∀ change ∈ changes, change.old.stop + context_lines < 2 ^ 32) ∧
      ∀ first rest, changes = first :: rest → GapsFit context_lines first.old.stop rest := by
  have hold : old.length < 2 ^ 31 := lt_trans hcomputed.old_limit (by decide)
  have hnew : new.length < 2 ^ 31 := lt_trans hcomputed.new_limit (by decide)
  have hclosed := new_closed old new old_offset new_offset context_lines
  cases changes with
  | nil =>
    exact ⟨fun change hchange => absurd hchange List.not_mem_nil, fun first rest hnil => absurd hnil (by simp)⟩
  | cons first rest =>
    obtain ⟨hgap, hordOld, hordNew, hrest⟩ := hcomputed.spans
    have hle := hrest.le
    have hshift := hgap.shift
    obtain ⟨last, hlast, hfinish⟩ := Option.bind_eq_some_iff.mp hrun
    rw [List.foldlM_cons] at hlast
    obtain ⟨next, hnext, hlast⟩ := Option.bind_eq_some_iff.mp hlast
    rw [process_change_closed hclosed first, OffsetUnifiedDiffBuilder.open_hunk, if_pos ⟨rfl, rfl⟩] at hnext
    have hprinted := print_change_inv hnext
    have hzero : first.old.start - context_lines = 0 := by omega
    have hfirst := hcomputed.nonempty first List.mem_cons_self
    simp only [OffsetUnifiedDiffBuilder.new, hzero, Nat.zero_add,
      wrapping_sub_of_le (Nat.zero_le first.old.start) (show first.old.start < 2 ^ 32 by omega), Nat.sub_zero,
      wrap_of_lt (show first.old.start < 2 ^ 32 by omega),
      wrapping_sub_of_le hordOld (show first.old.stop < 2 ^ 32 by omega), Nat.add_sub_cancel' hordOld,
      wrap_of_lt (show first.old.stop < 2 ^ 32 by omega),
      wrapping_sub_of_le hordNew (show first.new.stop < 2 ^ 32 by omega)] at hprinted
    have hnextWide : Wide old old_offset context_lines next first.new.stop := by
      rw [hprinted]
      refine ⟨rfl, rfl, rfl, rfl, rfl, fun hstop => ?_, fun hunk hhunk => absurd hhunk List.not_mem_nil⟩
      have hstop' : first.old.stop = 0 := hstop
      change wrap (first.old.start + (first.new.stop - first.new.start)) = first.new.stop ∧ 0 < first.new.stop
      rw [wrap_of_lt (by omega)]
      omega
    have hpos : next.pos = first.old.stop := by rw [hprinted]
    rw [← hpos] at hrest
    obtain ⟨j', hlastWide, hlastLe, hlastLength, hstops, hfit⟩ :=
      wide_foldlM hnextWide hwide hlimit hold hnew hrest hlast
    obtain ⟨closed, hflush, hdst⟩ := Option.bind_eq_some_iff.mp hfinish
    obtain ⟨hfits, hunk, hstart, hlen, hfields⟩ := hlastWide.flush hwide hlimit hold hlastLength hflush
    obtain rfl := Option.some.inj hdst
    refine ⟨fun change hchange => ?_, fun first' rest' hcons => ?_⟩
    · rcases List.mem_cons.mp hchange with rfl | hchange
      · omega
      · have := hstops change hchange
        omega
    · obtain ⟨rfl, rfl⟩ := List.cons.inj hcons
      rw [← hpos]
      refine (hfit ?_).2
      by_contra hne
      -- two hunks that start at the first line
      obtain ⟨other, hother⟩ := List.exists_mem_of_ne_nil last.dst hne
      obtain ⟨hotherStart, hotherLen, hpositive⟩ := hlastWide.dst other hother
      have hordered := happlies.ordered
      rw [hfields] at hordered
      have hpair := (List.pairwise_append.mp hordered).2.2 other hother hunk (List.mem_singleton_self hunk)
      rw [hotherStart, hotherLen, hstart] at hpair
      omega

end Wide

section Results

/-- None of the sums and products of a run overflows in a way that shows. -/
structure NoOverflow (old_offset new_offset context_lines : Nat) (changes : Patch) : Prop where
  gaps : ∀ first rest, changes = first :: rest → GapsFit context_lines first.old.stop rest
  ends : ∀ change ∈ changes, change.old.stop + context_lines < 2 ^ 32
  headers : HeadersFit old_offset new_offset (openings context_lines changes)

theorem gapsFit_of_lt {context_lines : Nat} (h : context_lines < 2 ^ 31) (stop : Nat) (changes : Patch) :
    GapsFit context_lines stop changes := by
  induction changes generalizing stop with
  | nil => trivial
  | cons change changes ih =>
    refine ⟨fun hfar => ?_, ih change.old.stop⟩
    rwa [wrap_of_lt (show context_lines * 2 < 2 ^ 32 by omega)] at hfar

/-- A unified diff applies back exactly when none of its 32-bit numbers overflows. -/
theorem unified_diff_applies_back_iff (compute : List Str → List Str → Patch) (old_text new_text : Str)
    (old_start_line new_start_line context_lines : UInt32)
    (hcomputed : Computed (lines old_text) (lines new_text) (compute (lines old_text) (lines new_text))) :
    (∃ hunks, unified_hunks compute old_text new_text old_start_line new_start_line context_lines = some hunks ∧
      AppliesBack (lines old_text) (lines new_text) old_start_line.toNat new_start_line.toNat hunks) ↔
    NoOverflow old_start_line.toNat new_start_line.toNat context_lines.toNat
      (compute (lines old_text) (lines new_text)) := by
  have hold : (lines old_text).length < 2 ^ 32 := lt_trans hcomputed.old_limit (by decide)
  have hnew : (lines new_text).length < 2 ^ 32 := lt_trans hcomputed.new_limit (by decide)
  have hlimit : context_lines.toNat < 2 ^ 32 := context_lines.toNat_lt
  constructor
  · rintro ⟨hunks, hrun, happlies⟩
    obtain ⟨hends, hgaps⟩ : (∀ change ∈ compute (lines old_text) (lines new_text),
        change.old.stop + context_lines.toNat < 2 ^ 32) ∧
        ∀ first rest, compute (lines old_text) (lines new_text) = first :: rest →
          GapsFit context_lines.toNat first.old.stop rest := by
      by_cases hwide : 2 ^ 31 ≤ context_lines.toNat
      · exact wide_run hcomputed hwide hlimit hrun happlies
      · refine ⟨fun change hchange => ?_, fun first rest _ => gapsFit_of_lt (by omega) first.old.stop rest⟩
        have := (hcomputed.spans.bounds change hchange).2.1.2
        have := hcomputed.old_limit
        omega
    obtain ⟨hunks', patch, hrun', hprints, hspans, hstarts⟩ := run_spec hcomputed hends hgaps
    obtain rfl := Option.some.inj (hrun.symm.trans hrun')
    refine ⟨hgaps, hends, ?_⟩
    rw [← hstarts]
    exact (appliesBack_iff hprints hspans hold hnew old_start_line.toNat_lt new_start_line.toNat_lt).mp happlies
  · rintro ⟨hgaps, hends, hheaders⟩
    obtain ⟨hunks, patch, hrun, hprints, hspans, hstarts⟩ := run_spec hcomputed hends hgaps
    rw [← hstarts] at hheaders
    exact ⟨hunks, hrun,
      (appliesBack_iff hprints hspans hold hnew old_start_line.toNat_lt new_start_line.toNat_lt).mpr hheaders⟩

def abc : Str := ['a', '\n', 'b', '\n', 'c', '\n']

def xby : Str := ['x', '\n', 'b', '\n', 'y', '\n']

/-- The hunks of two lists of three lines that have only the second one in common. -/
def two_changes (_ _ : List Str) : Patch := [⟨⟨0, 1⟩, ⟨0, 1⟩⟩, ⟨⟨2, 3⟩, ⟨2, 3⟩⟩]

theorem computed_two_changes : Computed (lines abc) (lines xby) (two_changes (lines abc) (lines xby)) where
  old_limit := by decide
  new_limit := by decide
  nonempty := by decide
  spans := by
    refine ⟨Gap.refl 0 0, by decide, by decide, ⟨by decide, rfl, fun k hk => ?_⟩, by decide, by decide, Gap.refl 3 3⟩
    have hk' : k = 0 := Nat.lt_one_iff.mp hk
    subst hk'
    rfl

theorem unified_diff_applies_back_three :
    ∃ hunks, unified_hunks two_changes abc xby 0 0 3 = some hunks ∧ AppliesBack (lines abc) (lines xby) 0 0 hunks :=
  (unified_diff_applies_back_iff two_changes abc xby 0 0 3 computed_two_changes).mpr
    { gaps := fun first rest hcons => by
        obtain ⟨rfl, rfl⟩ := List.cons.inj hcons
        exact ⟨by decide, trivial⟩
      ends := by decide
      headers := by
        unfold HeadersFit
        decide }

/-- With 2^31 lines of context the doubled context wraps to zero: the second hunk overlaps the first. -/
theorem unified_diff_wide_context_overlaps :
    Computed (lines abc) (lines xby) (two_changes (lines abc) (lines xby)) ∧
      ¬ ∃ hunks, unified_hunks two_changes abc xby 0 0 2147483648 = some hunks ∧
        AppliesBack (lines abc) (lines xby) 0 0 hunks := by
  refine ⟨computed_two_changes, ?_⟩
  rintro ⟨hunks, hrun, happlies⟩
  have hrun' : ((two_changes (lines abc) (lines xby)).foldlM OffsetUnifiedDiffBuilder.process_change
      (OffsetUnifiedDiffBuilder.new (lines abc) (lines xby) 0 0 2147483648)).bind OffsetUnifiedDiffBuilder.finish =
        some hunks := hrun
  have hgaps := (wide_run computed_two_changes (by decide) (by decide) hrun' happlies).2 _ _ rfl
  exact absurd (hgaps.1 (by decide)) (by decide)

end Results

end zed.language
