import Zed.Rope.Chunks

namespace zed.agent.streaming_parser

open zed.rope (Str utf8 byteLen str.slice str.slice_middle byteLen_append last_boundary)

section Model

structure Edit where
  old_text : Str
  new_text : Str
deriving DecidableEq, Repr

structure PartialEdit where
  old_text : Option Str
  new_text : Option Str
deriving DecidableEq, Repr

inductive EditEvent where
  | OldTextChunk (edit_index : Nat) (chunk : Str) (done : Bool)
  | NewTextChunk (edit_index : Nat) (chunk : Str) (done : Bool)
deriving DecidableEq, Repr

inductive WriteEvent where
  | ContentChunk (chunk : Str)
deriving DecidableEq, Repr

structure EditStreamState where
  old_text_emitted_len : Nat
  old_text_done : Bool
  new_text_emitted_len : Nat
  new_text_done : Bool
  hold_until_complete : Bool
  buffer_new_text_until_old_text_done : Bool
deriving DecidableEq, Repr

def EditStreamState.default : EditStreamState where
  old_text_emitted_len := 0
  old_text_done := false
  new_text_emitted_len := 0
  new_text_done := false
  hold_until_complete := false
  buffer_new_text_until_old_text_done := false

structure StreamingParser where
  edit_states : List EditStreamState
  content_emitted_len : Nat

def StreamingParser.default : StreamingParser := ⟨[], 0⟩

def safe_emit_end (text : Str) : Nat :=
  if text.getLast? = some '\\' then byteLen text - 1 else byteLen text

def safe_emit_end_for_edit_text (text : Str) : Option Nat := do
  let safe_end := safe_emit_end text
  if safe_end > 0 then
    let emitted ← str.slice text 0 safe_end
    return if emitted.getLast? = some '\n' then safe_end - 1 else safe_end
  else return safe_end

def find_char_boundary (text : Str) (target : Nat) : Nat :=
  if target ≥ byteLen text then byteLen text else last_boundary (utf8 text) target

namespace EditStreamState

def nonempty (text : Option Str) : Bool := text.any fun text => !text.isEmpty

/-- The first step of the loop of `push_edits`: how to treat an edit whose new text is seen before
    anything of it was emitted. -/
def notice (state : EditStreamState) (edit : PartialEdit) : EditStreamState :=
  if state.old_text_emitted_len = 0 ∧ state.new_text_emitted_len = 0 ∧ ¬ state.old_text_done ∧ edit.new_text.isSome ∧
      ¬ state.buffer_new_text_until_old_text_done then
    if nonempty edit.old_text then { state with hold_until_complete := true }
    else { state with buffer_new_text_until_old_text_done := true }
  else state

def push_old_text (state : EditStreamState) (index : Nat) (edit : PartialEdit) :
    Option (EditStreamState × List EditEvent) :=
  match edit.old_text with
  | none => some (state, [])
  | some old_text =>
    if state.old_text_done then some (state, [])
    else if edit.new_text.isSome ∧ ¬ state.buffer_new_text_until_old_text_done then do
      let start := find_char_boundary old_text state.old_text_emitted_len
      let chunk ← str.slice old_text start (byteLen old_text)
      return ({ state with old_text_done := true, old_text_emitted_len := byteLen old_text },
        [.OldTextChunk index chunk true])
    else do
      let safe_end ← safe_emit_end_for_edit_text old_text
      let safe_start := find_char_boundary old_text state.old_text_emitted_len
      if safe_end > safe_start then
        let chunk ← str.slice old_text safe_start safe_end
        return ({ state with old_text_emitted_len := safe_end }, [.OldTextChunk index chunk false])
      else return (state, [])

def push_new_text (state : EditStreamState) (index : Nat) (edit : PartialEdit) :
    Option (EditStreamState × List EditEvent) :=
  match edit.new_text with
  | none => some (state, [])
  | some new_text =>
    if state.old_text_done ∧ ¬ state.new_text_done then do
      let safe_end ← safe_emit_end_for_edit_text new_text
      let safe_start := find_char_boundary new_text state.new_text_emitted_len
      if safe_end > safe_start then
        let chunk ← str.slice new_text safe_start safe_end
        return ({ state with new_text_emitted_len := safe_end }, [.NewTextChunk index chunk false])
      else return (state, [])
    else some (state, [])

/-- One iteration of the loop of `push_edits`. -/
def push_edit (state : EditStreamState) (index : Nat) (edit : PartialEdit) :
    Option (EditStreamState × List EditEvent) :=
  let state := state.notice edit
  if state.hold_until_complete then some (state, [])
  else do
    let (state, old_events) ← state.push_old_text index edit
    let (state, new_events) ← state.push_new_text index edit
    return (state, old_events ++ new_events)

def emit_held (state : EditStreamState) (index : Nat) (old_text new_text : Str) : EditStreamState × List EditEvent :=
  ({ state with
      old_text_done := true
      old_text_emitted_len := byteLen old_text
      new_text_done := true
      new_text_emitted_len := byteLen new_text
      hold_until_complete := false
      buffer_new_text_until_old_text_done := false },
    [.OldTextChunk index old_text true, .NewTextChunk index new_text true])

/-- Emits the rest of the old text, if it is not done. -/
def finish_old_text (state : EditStreamState) (index : Nat) (old_text : Str) :
    Option (EditStreamState × List EditEvent) :=
  if state.old_text_done then some (state, [])
  else do
    let start := find_char_boundary old_text state.old_text_emitted_len
    let chunk ← str.slice old_text start (byteLen old_text)
    return ({ state with old_text_done := true, old_text_emitted_len := byteLen old_text },
      [.OldTextChunk index chunk true])

/-- Emits the rest of the new text, if it is not done. -/
def finish_new_text (state : EditStreamState) (index : Nat) (new_text : Str) :
    Option (EditStreamState × List EditEvent) :=
  if state.new_text_done then some (state, [])
  else do
    let start := find_char_boundary new_text state.new_text_emitted_len
    let chunk ← str.slice new_text start (byteLen new_text)
    return ({ state with new_text_done := true, new_text_emitted_len := byteLen new_text },
      [.NewTextChunk index chunk true])

/-- One iteration of the loop of `finalize_edits`. -/
def finalize_edit (state : EditStreamState) (index : Nat) (edit : Edit) : Option (EditStreamState × List EditEvent) :=
  if state.hold_until_complete then some (state.emit_held index edit.old_text edit.new_text)
  else do
    let (state, old_events) ← state.finish_old_text index edit.old_text
    let (state, new_events) ← state.finish_new_text index edit.new_text
    return (state, old_events ++ new_events)

/-- What `finalize_previous_edit` does with the previous edit. -/
def finalize_previous (state : EditStreamState) (previous_index : Nat) (old_text new_text : Option Str) :
    Option (EditStreamState × List EditEvent) :=
  if state.hold_until_complete then some (state.emit_held previous_index (old_text.getD []) (new_text.getD []))
  else do
    let (state, old_events) ← state.finish_old_text previous_index (old_text.getD [])
    let buffer := state.buffer_new_text_until_old_text_done && state.new_text_done
    let (state, new_events) ← state.finish_new_text previous_index (new_text.getD [])
    return ({ state with buffer_new_text_until_old_text_done := buffer }, old_events ++ new_events)

end EditStreamState

/-- Without a previous edit there are no events. -/
def finalize_previous_edit (edit_states : List EditStreamState) (new_index : Nat) (old_text new_text : Option Str) :
    Option (List EditStreamState × List EditEvent) :=
  if new_index = 0 ∨ edit_states.isEmpty then some (edit_states, [])
  else
    match edit_states[new_index - 1]? with
    | none => some (edit_states, [])
    | some state => do
      let (state, events) ← state.finalize_previous (new_index - 1) old_text new_text
      return (edit_states.set (new_index - 1) state, events)

/-- When a new edit appears, finalizes the previous one and adds a state. -/
def open_state {E : Type} (old_text new_text : E → Option Str) (edits : List E) (index : Nat)
    (edit_states : List EditStreamState) : Option (List EditStreamState × List EditEvent) :=
  if index ≥ edit_states.length then do
    let (edit_states, previous) ←
      finalize_previous_edit edit_states index (edits[index - 1]?.bind old_text) (edits[index - 1]?.bind new_text)
    return (edit_states ++ [EditStreamState.default], previous)
  else some (edit_states, [])

/-- The loop of `push_edits` and `finalize_edits` from an index on, where `rest` starts. `step` is one iteration. -/
def edits_loop {E : Type} (old_text new_text : E → Option Str)
    (step : EditStreamState → Nat → E → Option (EditStreamState × List EditEvent)) (edits : List E) :
    Nat → List E → List EditStreamState → Option (List EditStreamState × List EditEvent)
  | _, [], edit_states => some (edit_states, [])
  | index, edit :: rest, edit_states => do
    let (edit_states, previous) ← open_state old_text new_text edits index edit_states
    let state ← edit_states[index]?
    let (state, events) ← step state index edit
    let (edit_states, later) ← edits_loop old_text new_text step edits (index + 1) rest (edit_states.set index state)
    return (edit_states, previous ++ events ++ later)

namespace StreamingParser

variable (parser : StreamingParser)

def push_edits (edits : List PartialEdit) : Option (StreamingParser × List EditEvent) := do
  let (edit_states, events) ←
    edits_loop PartialEdit.old_text PartialEdit.new_text EditStreamState.push_edit edits 0 edits parser.edit_states
  return ({ parser with edit_states }, events)

def finalize_edits (edits : List Edit) : Option (StreamingParser × List EditEvent) := do
  let (edit_states, events) ← edits_loop (some ·.old_text) (some ·.new_text) EditStreamState.finalize_edit edits 0 edits
    parser.edit_states
  return ({ parser with edit_states }, events)

def push_content (content : Str) : Option (StreamingParser × List WriteEvent) :=
  let safe_end := safe_emit_end content
  let safe_start := find_char_boundary content parser.content_emitted_len
  if safe_end > safe_start then do
    let chunk ← str.slice content safe_start safe_end
    return ({ parser with content_emitted_len := safe_end }, [.ContentChunk chunk])
  else some (parser, [])

def finalize_content (content : Str) : Option (StreamingParser × List WriteEvent) :=
  let start := find_char_boundary content parser.content_emitted_len
  if byteLen content > start then do
    let chunk ← str.slice content start (byteLen content)
    return ({ parser with content_emitted_len := byteLen content }, [.ContentChunk chunk])
  else some (parser, [])

/-- The events of partial inputs pushed one after the other, and of the final one. -/
def stream_edits : List (List PartialEdit) → List Edit → StreamingParser → Option (List EditEvent)
  | [], edits, parser => (parser.finalize_edits edits).map Prod.snd
  | first :: rest, edits, parser => do
    let (parser, events) ← parser.push_edits first
    let later ← stream_edits rest edits parser
    return events ++ later

def stream_content : List Str → Str → StreamingParser → Option (List WriteEvent)
  | [], content, parser => (parser.finalize_content content).map Prod.snd
  | first :: rest, content, parser => do
    let (parser, events) ← parser.push_content first
    let later ← stream_content rest content parser
    return events ++ later

end StreamingParser

end Model

section Texts

variable {full text emitted : Str}

/-- A text on its way to `full`: a part of it, and possibly a wrong backslash. -/
def Growing (full text : Str) : Prop := ∃ part, part <+: full ∧ (text = part ∨ text = part ++ ['\\'])

theorem eq_concat {chars : Str} {char : Char} (h : chars.getLast? = some char) : chars = chars.dropLast ++ [char] := by
  obtain ⟨init, rfl⟩ := List.getLast?_eq_some_iff.mp h
  rw [List.dropLast_concat]

theorem safe_emit_end_spec (h : Growing full text) :
    ∃ safe, safe_emit_end text = byteLen safe ∧ safe <+: text ∧ safe <+: full := by
  obtain ⟨part, hpart, htext⟩ := h
  unfold safe_emit_end
  by_cases hlast : text.getLast? = some '\\'
  · rw [if_pos hlast]
    have hconcat := eq_concat hlast
    refine ⟨text.dropLast, ?_, text.dropLast_prefix, ?_⟩
    · have hlen := congrArg byteLen hconcat
      have hback : byteLen ['\\'] = 1 := rfl
      rw [byteLen_append, hback] at hlen
      omega
    · rcases htext with rfl | rfl
      · exact text.dropLast_prefix.trans hpart
      · rwa [List.dropLast_concat]
  · rw [if_neg hlast]
    rcases htext with rfl | rfl
    · exact ⟨text, rfl, List.prefix_rfl, hpart⟩
    · exact absurd (by simp) hlast

theorem slice_prefix {left middle : Str} (h : left ++ middle <+: text) :
    str.slice text (byteLen left) (byteLen (left ++ middle)) = some middle := by
  obtain ⟨right, rfl⟩ := h
  rw [byteLen_append]
  exact str.slice_middle left middle right

theorem safe_emit_end_for_edit_text_spec (h : Growing full text) :
    ∃ safe, safe_emit_end_for_edit_text text = some (byteLen safe) ∧ safe <+: text ∧ safe <+: full ∧
      (full.getLast? = some '\n' → safe ≠ full) := by
  obtain ⟨safe, hend, htext, hfull⟩ := safe_emit_end_spec h
  have hslice : str.slice text 0 (byteLen safe) = some safe :=
    slice_prefix (show ([] : Str) ++ safe <+: text from htext)
  unfold safe_emit_end_for_edit_text
  simp only [hend]
  by_cases hpos : byteLen safe > 0
  · rw [if_pos hpos, hslice]
    by_cases hlast : safe.getLast? = some '\n'
    · have hconcat := eq_concat hlast
      have hlen := congrArg byteLen hconcat
      have hnewline : byteLen ['\n'] = 1 := rfl
      rw [byteLen_append, hnewline] at hlen
      refine ⟨safe.dropLast, ?_, safe.dropLast_prefix.trans htext, safe.dropLast_prefix.trans hfull, fun _ heq => ?_⟩
      · simp only [hlast, if_true, Option.bind_eq_bind, Option.bind_some]
        exact congrArg some (by omega)
      · have hle := hfull.length_le
        have hshort := congrArg List.length heq
        have hlong := congrArg List.length hconcat
        rw [List.length_append, List.length_singleton] at hlong
        omega
    · refine ⟨safe, ?_, htext, hfull, fun hnewline heq => hlast (heq ▸ hnewline)⟩
      simp only [hlast, if_false, Option.bind_eq_bind, Option.bind_some]
      rfl
  · have hnil : safe = [] := zed.rope.eq_nil_of_byteLen (by omega)
    refine ⟨safe, if_neg hpos, htext, hfull, fun hnewline heq => ?_⟩
    rw [← heq, hnil] at hnewline
    exact absurd hnewline (by simp)

theorem find_char_boundary_spec (hemitted : emitted <+: full) (h : Growing full text) :
    (emitted <+: text ∧ find_char_boundary text (byteLen emitted) = byteLen emitted) ∨
      (find_char_boundary text (byteLen emitted) = byteLen text ∧ byteLen text ≤ byteLen emitted) := by
  unfold find_char_boundary
  by_cases hlong : byteLen emitted ≥ byteLen text
  · rw [if_pos hlong]
    exact Or.inr ⟨rfl, hlong⟩
  · rw [if_neg hlong]
    obtain ⟨part, hpart, htext⟩ := h
    have hlen : byteLen emitted ≤ byteLen part := by
      rcases htext with rfl | rfl
      · omega
      · have hback : byteLen ['\\'] = 1 := rfl
        rw [byteLen_append, hback] at hlong
        omega
    have hprefix : emitted <+: part := by
      obtain ⟨rest, rfl⟩ := hemitted
      obtain ⟨rest', heq⟩ := hpart
      obtain ⟨middle, rfl⟩ := zed.rope.prefix_of_length_le heq.symm hlen
      exact List.prefix_append emitted middle
    have hin : emitted <+: text := by
      rcases htext with rfl | rfl
      · exact hprefix
      · exact hprefix.trans (List.prefix_append part _)
    refine Or.inl ⟨hin, ?_⟩
    obtain ⟨after, rfl⟩ := hin
    have hboundary := zed.rope.is_char_boundary_utf8 emitted after
    exact le_antisymm (zed.rope.last_boundary_le _ _) (zed.rope.le_last_boundary le_rfl hboundary)

theorem chunk_spec {safe : Str} (hemitted : emitted <+: full) (h : Growing full text) (htext : safe <+: text)
    (hfull : safe <+: full) (hmore : byteLen safe > find_char_boundary text (byteLen emitted)) :
    ∃ chunk, safe = emitted ++ chunk ∧
      str.slice text (find_char_boundary text (byteLen emitted)) (byteLen safe) = some chunk := by
  rcases find_char_boundary_spec hemitted h with ⟨-, hstart⟩ | ⟨hstart, -⟩
  · rw [hstart] at hmore ⊢
    obtain ⟨rest, rfl⟩ := hemitted
    obtain ⟨rest', heq⟩ := hfull
    obtain ⟨chunk, rfl⟩ := zed.rope.prefix_of_length_le heq.symm (le_of_lt hmore)
    exact ⟨chunk, rfl, slice_prefix htext⟩
  · obtain ⟨after, rfl⟩ := htext
    rw [hstart, byteLen_append] at hmore
    omega

theorem rest_spec (rest : Str) :
    str.slice (emitted ++ rest) (find_char_boundary (emitted ++ rest) (byteLen emitted)) (byteLen (emitted ++ rest)) =
      some rest := by
  have hgrowing : Growing (emitted ++ rest) (emitted ++ rest) := ⟨_, List.prefix_rfl, Or.inl rfl⟩
  have hstart : find_char_boundary (emitted ++ rest) (byteLen emitted) = byteLen emitted := by
    rcases find_char_boundary_spec (List.prefix_append emitted rest) hgrowing with ⟨-, hstart⟩ | ⟨hstart, hle⟩
    · exact hstart
    · rw [byteLen_append] at hle
      rw [hstart, byteLen_append]
      omega
  rw [hstart]
  exact slice_prefix List.prefix_rfl

end Texts

section Phases

/-- The field of an edit that comes first in its text. -/
inductive FieldOrder where
  | OldFirst
  | NewFirst

/-- What a partial input can show of an edit: texts on their way, the first field complete before the second one
    appears, or at least there when it does. -/
structure Shows (order : FieldOrder) (edit : Edit) (shown : PartialEdit) : Prop where
  old_text : ∀ text, shown.old_text = some text → Growing edit.old_text text
  new_text : ∀ text, shown.new_text = some text → Growing edit.new_text text
  ordered :
    match order with
    | .OldFirst => shown.new_text.isSome → shown.old_text = some edit.old_text
    | .NewFirst => shown.old_text.isSome → shown.new_text.isSome

/-- Chunks that are not the last ones. -/
def old_chunks (index : Nat) (chunks : List Str) : List EditEvent :=
  chunks.map fun chunk => .OldTextChunk index chunk false

def new_chunks (index : Nat) (chunks : List Str) : List EditEvent :=
  chunks.map fun chunk => .NewTextChunk index chunk false

variable {order : FieldOrder} {index : Nat} {edit : Edit} {state : EditStreamState} {events : List EditEvent}

def Block (index : Nat) (edit : Edit) (events : List EditEvent) : Prop :=
  ∃ olds old news new,
    events = old_chunks index olds ++ [.OldTextChunk index old true] ++
      (new_chunks index news ++ [.NewTextChunk index new true]) ∧
    olds.flatten ++ old = edit.old_text ∧ news.flatten ++ new = edit.new_text ∧
    (edit.new_text.getLast? = some '\n' → new.getLast? = some '\n')

/-- The old text is being emitted. -/
structure Reading (order : FieldOrder) (index : Nat) (edit : Edit) (state : EditStreamState)
    (events : List EditEvent) : Prop where
  emitted : ∃ olds rest, events = old_chunks index olds ∧ edit.old_text = olds.flatten ++ rest ∧
    state.old_text_emitted_len = byteLen olds.flatten ∧
    (state.hold_until_complete = true → olds.flatten = []) ∧
    (match order with
      | .OldFirst => True
      | .NewFirst => state.buffer_new_text_until_old_text_done = true ∨ olds.flatten = [])
  old_done : state.old_text_done = false
  new_done : state.new_text_done = false
  new_len : state.new_text_emitted_len = 0

/-- The old text is emitted, the new text is being emitted. -/
structure Writing (index : Nat) (edit : Edit) (state : EditStreamState) (events : List EditEvent) : Prop where
  emitted : ∃ olds old news rest,
    events = old_chunks index olds ++ [.OldTextChunk index old true] ++ new_chunks index news ∧
    olds.flatten ++ old = edit.old_text ∧ edit.new_text = news.flatten ++ rest ∧
    state.new_text_emitted_len = byteLen news.flatten ∧
    (edit.new_text.getLast? = some '\n' → news.flatten ≠ edit.new_text)
  old_done : state.old_text_done = true
  new_done : state.new_text_done = false
  hold : state.hold_until_complete = false

/-- Nothing is left to emit. -/
structure Closed (state : EditStreamState) : Prop where
  old_done : state.old_text_done = true
  new_done : state.new_text_done = true
  hold : state.hold_until_complete = false

def Finished (index : Nat) (edit : Edit) (state : EditStreamState) (events : List EditEvent) : Prop :=
  Closed state ∧ Block index edit events

def Progress (order : FieldOrder) (index : Nat) (edit : Edit) (state : EditStreamState)
    (events : List EditEvent) : Prop :=
  Reading order index edit state events ∨ Writing index edit state events ∨ Finished index edit state events

theorem default_progress (order : FieldOrder) (index : Nat) (edit : Edit) :
    Progress order index edit EditStreamState.default [] := by
  refine Or.inl ⟨⟨[], edit.old_text, rfl, rfl, rfl, fun _ => rfl, ?_⟩, rfl, rfl, rfl⟩
  cases order with
  | OldFirst => trivial
  | NewFirst => exact Or.inr rfl

theorem new_chunks_concat (index : Nat) (news : List Str) (chunk : Str) :
    new_chunks index (news ++ [chunk]) = new_chunks index news ++ [.NewTextChunk index chunk false] := by
  rw [new_chunks, List.map_append]
  rfl

theorem old_chunks_concat (index : Nat) (olds : List Str) (chunk : Str) :
    old_chunks index (olds ++ [chunk]) = old_chunks index olds ++ [.OldTextChunk index chunk false] := by
  rw [old_chunks, List.map_append]
  rfl

theorem Reading.finish_old_text (h : Reading order index edit state events)
    (hhold : state.hold_until_complete = false) :
    ∃ next chunk, state.finish_old_text index edit.old_text = some (next, [.OldTextChunk index chunk true]) ∧
      next = { state with old_text_done := true, old_text_emitted_len := byteLen edit.old_text } ∧
      str.slice edit.old_text (find_char_boundary edit.old_text state.old_text_emitted_len) (byteLen edit.old_text) =
        some chunk ∧
      Writing index edit next (events ++ [.OldTextChunk index chunk true]) := by
  obtain ⟨olds, rest, rfl, hold, hlen, -, -⟩ := h.emitted
  have hslice : str.slice edit.old_text (find_char_boundary edit.old_text state.old_text_emitted_len)
      (byteLen edit.old_text) = some rest := by
    rw [hlen, hold]
    exact rest_spec rest
  refine ⟨_, rest, ?_, rfl, hslice, ?_⟩
  · rw [EditStreamState.finish_old_text, h.old_done]
    simp only [Bool.false_eq_true, if_false, hslice, Option.bind_eq_bind, Option.bind_some]
    rfl
  · refine ⟨⟨olds, rest, [], edit.new_text, ?_, hold.symm, rfl, ?_, fun hlast hnil => ?_⟩, rfl, h.new_done, hhold⟩
    · exact (List.append_nil _).symm
    · exact h.new_len
    · rw [← hnil] at hlast
      exact absurd hlast (by simp)

theorem Writing.finish_new_text (h : Writing index edit state events) :
    ∃ next chunk, state.finish_new_text index edit.new_text = some (next, [.NewTextChunk index chunk true]) ∧
      Finished index edit next (events ++ [.NewTextChunk index chunk true]) := by
  obtain ⟨olds, old, news, rest, rfl, hold, hnew, hlen, hnewline⟩ := h.emitted
  have hslice : str.slice edit.new_text (find_char_boundary edit.new_text state.new_text_emitted_len)
      (byteLen edit.new_text) = some rest := by
    rw [hlen, hnew]
    exact rest_spec rest
  refine ⟨{ state with new_text_done := true, new_text_emitted_len := byteLen edit.new_text }, rest, ?_,
    ⟨h.old_done, rfl, h.hold⟩, olds, old, news, rest, by rw [List.append_assoc _ (new_chunks index news)], hold,
    hnew.symm, fun hlast => ?_⟩
  · rw [EditStreamState.finish_new_text, h.new_done]
    simp only [Bool.false_eq_true, if_false, hslice, Option.bind_eq_bind, Option.bind_some]
    rfl
  · have hne := hnewline hlast
    have hrest : rest ≠ [] := by
      rintro rfl
      rw [List.append_nil] at hnew
      exact hne hnew.symm
    rw [hnew, List.getLast?_append_of_ne_nil _ hrest] at hlast
    exact hlast

theorem Reading.emit_held (h : Reading order index edit state events) (hhold : state.hold_until_complete = true) :
    Finished index edit (state.emit_held index edit.old_text edit.new_text).1
      (events ++ (state.emit_held index edit.old_text edit.new_text).2) := by
  obtain ⟨olds, rest, rfl, -, -, hnothing, -⟩ := h.emitted
  refine ⟨⟨rfl, rfl, rfl⟩, olds, edit.old_text, [], edit.new_text, ?_, ?_, rfl, fun hlast => hlast⟩
  · rw [List.append_assoc]
    rfl
  · rw [hnothing hhold, List.nil_append]

theorem finalize_edit_spec (h : Progress order index edit state events) :
    ∃ next more, state.finalize_edit index edit = some (next, more) ∧ Finished index edit next (events ++ more) := by
  unfold EditStreamState.finalize_edit
  rcases h with h | h | ⟨h, hblock⟩
  · cases hhold : state.hold_until_complete with
    | true => exact ⟨_, _, rfl, h.emit_held hhold⟩
    | false =>
      obtain ⟨next, chunk, hnext, -, -, hwriting⟩ := h.finish_old_text hhold
      obtain ⟨last, chunk', hlast, hclosed, hblock⟩ := hwriting.finish_new_text
      refine ⟨last, [.OldTextChunk index chunk true, .NewTextChunk index chunk' true], ?_, hclosed, ?_⟩
      · simp only [Bool.false_eq_true, if_false, hnext, hlast, Option.bind_eq_bind, Option.bind_some]
        rfl
      · rw [List.append_assoc] at hblock
        exact hblock
  · obtain ⟨last, chunk, hlast, hfinished⟩ := h.finish_new_text
    refine ⟨last, [.NewTextChunk index chunk true], ?_, hfinished⟩
    simp only [h.hold, Bool.false_eq_true, if_false, EditStreamState.finish_old_text, h.old_done, if_true, hlast,
      Option.bind_eq_bind, Option.bind_some]
    rfl
  · refine ⟨state, [], ?_, h, by rwa [List.append_nil]⟩
    simp only [h.hold, Bool.false_eq_true, if_false, EditStreamState.finish_old_text, h.old_done, if_true,
      EditStreamState.finish_new_text, h.new_done, Option.bind_eq_bind, Option.bind_some]
    rfl

theorem finalize_previous_spec (h : Progress order index edit state events) :
    ∃ next more, state.finalize_previous index (some edit.old_text) (some edit.new_text) = some (next, more) ∧
      Finished index edit next (events ++ more) := by
  unfold EditStreamState.finalize_previous
  rcases h with h | h | ⟨h, hblock⟩
  · cases hhold : state.hold_until_complete with
    | true => exact ⟨_, _, rfl, h.emit_held hhold⟩
    | false =>
      obtain ⟨next, chunk, hnext, -, -, hwriting⟩ := h.finish_old_text hhold
      obtain ⟨last, chunk', hlast, hclosed, hblock⟩ := hwriting.finish_new_text
      let buffer := next.buffer_new_text_until_old_text_done && next.new_text_done
      refine ⟨{ last with buffer_new_text_until_old_text_done := buffer },
        [.OldTextChunk index chunk true, .NewTextChunk index chunk' true], ?_,
        ⟨hclosed.old_done, hclosed.new_done, hclosed.hold⟩, ?_⟩
      · simp only [Bool.false_eq_true, if_false, Option.getD_some, hnext, hlast, Option.bind_eq_bind,
          Option.bind_some]
        rfl
      · rw [List.append_assoc] at hblock
        exact hblock
  · obtain ⟨last, chunk, hlast, hclosed, hblock⟩ := h.finish_new_text
    let buffer := state.buffer_new_text_until_old_text_done && state.new_text_done
    refine ⟨{ last with buffer_new_text_until_old_text_done := buffer }, [.NewTextChunk index chunk true], ?_,
      ⟨hclosed.old_done, hclosed.new_done, hclosed.hold⟩, hblock⟩
    simp only [h.hold, Bool.false_eq_true, if_false, EditStreamState.finish_old_text, h.old_done, if_true,
      Option.getD_some, hlast, Option.bind_eq_bind, Option.bind_some]
    rfl
  · have hsame : state.finish_old_text index edit.old_text = some (state, []) := if_pos h.old_done
    have hsame' : state.finish_new_text index edit.new_text = some (state, []) := if_pos h.new_done
    let buffer := state.buffer_new_text_until_old_text_done && state.new_text_done
    refine ⟨{ state with buffer_new_text_until_old_text_done := buffer }, [], ?_,
      ⟨h.old_done, h.new_done, h.hold⟩, by rwa [List.append_nil]⟩
    simp only [h.hold, Bool.false_eq_true, if_false, Option.getD_some, hsame, hsame', Option.bind_eq_bind,
      Option.bind_some]
    rfl

variable {shown : PartialEdit}

theorem push_new_text_spec (h : Progress order index edit state events) (hshows : Shows order edit shown) :
    ∃ next more, state.push_new_text index shown = some (next, more) ∧
      Progress order index edit next (events ++ more) := by
  have hnothing : state.push_new_text index shown = some (state, []) →
      ∃ next more, state.push_new_text index shown = some (next, more) ∧
        Progress order index edit next (events ++ more) :=
    fun hsame => ⟨state, [], hsame, by rwa [List.append_nil]⟩
  cases hnew : shown.new_text with
  | none => exact hnothing (by rw [EditStreamState.push_new_text, hnew])
  | some text =>
    rcases h with h | h | h
    · exact hnothing (by simp [EditStreamState.push_new_text, hnew, h.old_done])
    · obtain ⟨olds, old, news, rest, rfl, hold, hnewText, hlen, hnewline⟩ := h.emitted
      have hgrowing := hshows.new_text text hnew
      have hemitted : news.flatten <+: edit.new_text := ⟨rest, hnewText.symm⟩
      obtain ⟨safe, hsafe, htext, hfull, hlast⟩ := safe_emit_end_for_edit_text_spec hgrowing
      by_cases hmore : byteLen safe > find_char_boundary text state.new_text_emitted_len
      · rw [hlen] at hmore
        obtain ⟨chunk, hchunk, hslice⟩ := chunk_spec hemitted hgrowing htext hfull hmore
        rw [← hlen] at hmore hslice
        obtain ⟨rest', hrest'⟩ := hfull
        refine ⟨{ state with new_text_emitted_len := byteLen safe }, [.NewTextChunk index chunk false], ?_,
          Or.inr (Or.inl ⟨⟨olds, old, news ++ [chunk], rest', ?_, hold, ?_, ?_, ?_⟩, h.old_done, h.new_done, h.hold⟩)⟩
        · simp only [EditStreamState.push_new_text, hnew, h.old_done, h.new_done, hsafe, Bool.false_eq_true,
            not_false_eq_true, and_self, if_true, Option.bind_eq_bind, Option.bind_some, if_pos hmore, hslice]
          rfl
        · rw [new_chunks_concat, ← List.append_assoc]
        · rw [List.flatten_append, List.flatten_singleton, ← hchunk, hrest']
        · rw [List.flatten_append, List.flatten_singleton, ← hchunk]
        · rw [List.flatten_append, List.flatten_singleton, ← hchunk]
          exact hlast
      · refine hnothing ?_
        simp only [EditStreamState.push_new_text, hnew, h.old_done, h.new_done, hsafe, Bool.false_eq_true,
          not_false_eq_true, and_self, if_true, Option.bind_eq_bind, Option.bind_some, if_neg hmore]
        rfl
    · exact hnothing (by simp [EditStreamState.push_new_text, hnew, h.1.new_done])

theorem Reading.push_old_text (h : Reading order index edit state events) (hshows : Shows order edit shown)
    (hhold : state.hold_until_complete = false)
    (hcomplete : shown.new_text.isSome → state.buffer_new_text_until_old_text_done = false →
      shown.old_text = some edit.old_text) :
    ∃ next more, state.push_old_text index shown = some (next, more) ∧
      Progress order index edit next (events ++ more) := by
  have hnothing : state.push_old_text index shown = some (state, []) →
      ∃ next more, state.push_old_text index shown = some (next, more) ∧
        Progress order index edit next (events ++ more) :=
    fun hsame => ⟨state, [], hsame, by rw [List.append_nil]; exact Or.inl h⟩
  cases hold : shown.old_text with
  | none => exact hnothing (by rw [EditStreamState.push_old_text, hold])
  | some text =>
    by_cases hdone : shown.new_text.isSome ∧ ¬ state.buffer_new_text_until_old_text_done = true
    · have hfull := hcomplete hdone.1 (Bool.not_eq_true _ ▸ hdone.2)
      obtain rfl := Option.some.inj (hold.symm.trans hfull)
      obtain ⟨next, chunk, -, hfields, hslice, hwriting⟩ := h.finish_old_text hhold
      refine ⟨next, [.OldTextChunk index chunk true], ?_, Or.inr (Or.inl hwriting)⟩
      rw [EditStreamState.push_old_text, hold]
      simp only [h.old_done, Bool.false_eq_true, if_false, if_pos hdone, hslice, Option.bind_eq_bind,
        Option.bind_some, hfields]
      rfl
    · obtain ⟨olds, rest, rfl, holdText, hlen, hheld, hbuffered⟩ := h.emitted
      have hgrowing := hshows.old_text text hold
      have hemitted : olds.flatten <+: edit.old_text := ⟨rest, holdText.symm⟩
      obtain ⟨safe, hsafe, htext, hfull, -⟩ := safe_emit_end_for_edit_text_spec hgrowing
      by_cases hmore : byteLen safe > find_char_boundary text state.old_text_emitted_len
      · rw [hlen] at hmore
        obtain ⟨chunk, hchunk, hslice⟩ := chunk_spec hemitted hgrowing htext hfull hmore
        rw [← hlen] at hmore hslice
        obtain ⟨rest', hrest'⟩ := hfull
        refine ⟨{ state with old_text_emitted_len := byteLen safe }, [.OldTextChunk index chunk false], ?_,
          Or.inl ⟨⟨olds ++ [chunk], rest', ?_, ?_, ?_, fun hheld' => ?_, ?_⟩, h.old_done, h.new_done, h.new_len⟩⟩
        · rw [EditStreamState.push_old_text, hold]
          simp only [h.old_done, Bool.false_eq_true, if_false, if_neg hdone, hsafe, Option.bind_eq_bind,
            Option.bind_some, if_pos hmore, hslice]
          rfl
        · rw [old_chunks_concat]
        · rw [List.flatten_append, List.flatten_singleton, ← hchunk, hrest']
        · rw [List.flatten_append, List.flatten_singleton, ← hchunk]
        · exact absurd (hhold.symm.trans hheld') (by decide)
        · cases order with
          | OldFirst => trivial
          | NewFirst =>
            have hnew := hshows.ordered (by rw [hold]; rfl)
            exact Or.inl (by simpa [hnew] using hdone)
      · refine hnothing ?_
        rw [EditStreamState.push_old_text, hold]
        simp only [h.old_done, Bool.false_eq_true, if_false, if_neg hdone, hsafe, Option.bind_eq_bind,
          Option.bind_some, if_neg hmore]
        rfl

/-- An edit that is noticed is held or buffered; otherwise its old text is complete once its new text appears. -/
theorem Reading.notice (h : Reading order index edit state events) (hshows : Shows order edit shown) :
    Reading order index edit (state.notice shown) events ∧
      ((state.notice shown).hold_until_complete = false → shown.new_text.isSome →
        (state.notice shown).buffer_new_text_until_old_text_done = false → shown.old_text = some edit.old_text) := by
  obtain ⟨olds, rest, hevents, hold, hlen, hheld, hbuffered⟩ := h.emitted
  unfold EditStreamState.notice
  by_cases hnotice : state.old_text_emitted_len = 0 ∧ state.new_text_emitted_len = 0 ∧ ¬ state.old_text_done = true ∧
      shown.new_text.isSome ∧ ¬ state.buffer_new_text_until_old_text_done = true
  · rw [if_pos hnotice]
    have hnil : olds.flatten = [] := zed.rope.eq_nil_of_byteLen (hlen.symm.trans hnotice.1)
    by_cases hsome : EditStreamState.nonempty shown.old_text = true
    · rw [if_pos hsome]
      exact ⟨⟨⟨olds, rest, hevents, hold, hlen, fun _ => hnil, hbuffered⟩, h.old_done, h.new_done, h.new_len⟩,
        fun hheld' => absurd hheld' (by simp)⟩
    · rw [if_neg hsome]
      refine ⟨⟨⟨olds, rest, hevents, hold, hlen, hheld, ?_⟩, h.old_done, h.new_done, h.new_len⟩,
        fun _ _ hbuffer => absurd hbuffer (by simp)⟩
      cases order with
      | OldFirst => trivial
      | NewFirst => exact Or.inl rfl
  · rw [if_neg hnotice]
    refine ⟨h, fun _ hnew hbuffer => ?_⟩
    have hlong : state.old_text_emitted_len ≠ 0 := by
      intro hzero
      exact hnotice ⟨hzero, h.new_len, by simp [h.old_done], hnew, by simp [hbuffer]⟩
    cases order with
    | OldFirst => exact hshows.ordered hnew
    | NewFirst =>
      rcases hbuffered with hbuffered | hnil
      · exact absurd (hbuffer.symm.trans hbuffered) (by decide)
      · rw [hnil] at hlen
        exact absurd hlen hlong

theorem push_edit_spec (h : Progress order index edit state events) (hshows : Shows order edit shown) :
    ∃ next more, state.push_edit index shown = some (next, more) ∧
      Progress order index edit next (events ++ more) := by
  have hdone : state.old_text_done = true → state.hold_until_complete = false →
      state.push_edit index shown = (state.push_new_text index shown).bind fun result =>
        some (result.1, [] ++ result.2) := by
    intro hold hhold
    have hnotice : state.notice shown = state := if_neg (by simp [hold])
    have hsame : state.push_old_text index shown = some (state, []) := by
      unfold EditStreamState.push_old_text
      cases shown.old_text with
      | none => rfl
      | some text => exact if_pos hold
    unfold EditStreamState.push_edit
    simp only [hnotice, hhold, Bool.false_eq_true, if_false, hsame, Option.bind_eq_bind, Option.bind_some]
    rfl
  rcases h with h | h | h
  · obtain ⟨hnoticed, hcomplete⟩ := h.notice hshows
    unfold EditStreamState.push_edit
    cases hhold : (state.notice shown).hold_until_complete with
    | true =>
      refine ⟨state.notice shown, [], ?_, Or.inl (by rwa [List.append_nil])⟩
      simp only [hhold, if_true]
    | false =>
      obtain ⟨next, more, hnext, hprogress⟩ := hnoticed.push_old_text hshows hhold (hcomplete hhold)
      obtain ⟨last, more', hlast, hprogress'⟩ := push_new_text_spec hprogress hshows
      refine ⟨last, more ++ more', ?_, by rwa [← List.append_assoc]⟩
      simp only [hhold, Bool.false_eq_true, if_false, hnext, hlast, Option.bind_eq_bind, Option.bind_some]
      rfl
  · obtain ⟨last, more, hlast, hprogress⟩ := push_new_text_spec (Or.inr (Or.inl h)) hshows
    refine ⟨last, more, ?_, hprogress⟩
    rw [hdone h.old_done h.hold, hlast]
    rfl
  · obtain ⟨last, more, hlast, hprogress⟩ := push_new_text_spec (Or.inr (Or.inr h)) hshows
    refine ⟨last, more, ?_, hprogress⟩
    rw [hdone h.1.old_done h.1.hold, hlast]
    rfl

theorem Closed.push_edit (h : Closed state) (index : Nat) (shown : PartialEdit) :
    state.push_edit index shown = some (state, []) := by
  have hnotice : state.notice shown = state := if_neg (by simp [h.old_done])
  have hold : state.push_old_text index shown = some (state, []) := by
    unfold EditStreamState.push_old_text
    cases shown.old_text with
    | none => rfl
    | some text => exact if_pos h.old_done
  have hnew : state.push_new_text index shown = some (state, []) := by
    unfold EditStreamState.push_new_text
    cases shown.new_text with
    | none => rfl
    | some text => exact if_neg (by simp [h.new_done])
  unfold EditStreamState.push_edit
  simp only [hnotice, h.hold, Bool.false_eq_true, if_false, hold, hnew, Option.bind_eq_bind, Option.bind_some]
  rfl

theorem Closed.finalize_edit (h : Closed state) (index : Nat) (edit : Edit) :
    state.finalize_edit index edit = some (state, []) := by
  have hold : state.finish_old_text index edit.old_text = some (state, []) := if_pos h.old_done
  have hnew : state.finish_new_text index edit.new_text = some (state, []) := if_pos h.new_done
  unfold EditStreamState.finalize_edit
  simp only [h.hold, Bool.false_eq_true, if_false, hold, hnew, Option.bind_eq_bind, Option.bind_some]
  rfl

end Phases

section Loops

def Blocks : Nat → List Edit → List EditEvent → Prop
  | _, [], events => events = []
  | index, edit :: edits, events =>
    ∃ block rest, events = block ++ rest ∧ Block index edit block ∧ Blocks (index + 1) edits rest

theorem Blocks.concat {index : Nat} {edits : List Edit} {edit : Edit} {events block : List EditEvent}
    (h : Blocks index edits events) (hblock : Block (index + edits.length) edit block) :
    Blocks index (edits ++ [edit]) (events ++ block) := by
  induction edits generalizing index events with
  | nil =>
    obtain rfl : events = [] := h
    exact ⟨block, [], (List.append_nil _).symm, hblock, rfl⟩
  | cons first edits ih =>
    obtain ⟨firstBlock, rest, rfl, hfirst, hrest⟩ := h
    refine ⟨firstBlock, rest ++ block, List.append_assoc _ _ _, hfirst, ih hrest ?_⟩
    rwa [List.length_cons, Nat.add_comm edits.length, ← Nat.add_assoc] at hblock

variable {orders : Nat → FieldOrder} {finals : List Edit} {states : List EditStreamState} {events : List EditEvent}

/-- A phase of an edit: what its state and its events are. -/
abbrev Phase := FieldOrder → Nat → Edit → EditStreamState → List EditEvent → Prop

/-- All edits seen so far are emitted, but for the last one, which is in a phase. -/
def Streamed (orders : Nat → FieldOrder) (finals : List Edit) (phase : Phase) (states : List EditStreamState)
    (events : List EditEvent) : Prop :=
  (states = [] ∧ events = []) ∨
  ∃ before edit after closed last prior block, finals = before ++ edit :: after ∧ states = closed ++ [last] ∧
    closed.length = before.length ∧ (∀ state ∈ closed, Closed state) ∧ events = prior ++ block ∧
    Blocks 0 before prior ∧ phase (orders before.length) before.length edit last block

theorem Streamed.mono {phase phase' : Phase} (h : Streamed orders finals phase states events)
    (himp : ∀ order index edit state block, phase order index edit state block → phase' order index edit state block) :
    Streamed orders finals phase' states events := by
  rcases h with h | ⟨before, edit, after, closed, last, prior, block, hfinals, hstates, hlen, hclosed, hevents, hprior,
    hphase⟩
  · exact Or.inl h
  · exact Or.inr ⟨before, edit, after, closed, last, prior, block, hfinals, hstates, hlen, hclosed, hevents, hprior,
      himp _ _ _ _ _ hphase⟩

/-- How the edits of an input stand to the final ones: all but the last are complete, and a step on one of them keeps
    its progress. -/
structure Input {E : Type} (orders : Nat → FieldOrder) (finals : List Edit) (old_text new_text : E → Option Str)
    (step : EditStreamState → Nat → E → Option (EditStreamState × List EditEvent)) (phase : Phase)
    (edits : List E) : Prop where
  length_le : edits.length ≤ finals.length
  complete : ∀ index edit final, index + 1 < edits.length → edits[index]? = some edit → finals[index]? = some final →
    old_text edit = some final.old_text ∧ new_text edit = some final.new_text
  on_step : ∀ index edit final, edits[index]? = some edit → finals[index]? = some final →
    ∀ state events, Progress (orders index) index final state events →
      ∃ next more, step state index edit = some (next, more) ∧ phase (orders index) index final next (events ++ more)
  on_closed : ∀ state index edit, Closed state → step state index edit = some (state, [])
  progress : ∀ order index final state events, phase order index final state events →
    Progress order index final state events

variable {E : Type} {old_text new_text : E → Option Str}
  {step : EditStreamState → Nat → E → Option (EditStreamState × List EditEvent)} {phase : Phase} {edits : List E}

theorem open_edit (h : Streamed orders finals Progress states events)
    (hinput : Input orders finals old_text new_text step phase edits) (hlength : states.length < edits.length) :
    ∃ next previous, finalize_previous_edit states states.length (edits[states.length - 1]?.bind old_text)
        (edits[states.length - 1]?.bind new_text) = some (next, previous) ∧ next.length = states.length ∧
      Streamed orders finals Progress (next ++ [EditStreamState.default]) (events ++ previous) := by
  have hle := hinput.length_le
  rcases h with ⟨rfl, rfl⟩ | ⟨before, edit, after, closed, last, prior, block, hfinals, rfl, hlen, hclosed, rfl, hprior,
    hphase⟩
  · refine ⟨[], [], rfl, rfl, ?_⟩
    cases finals with
    | nil => exact absurd hlength (by simpa using hle)
    | cons edit finals =>
      exact Or.inr ⟨[], edit, finals, [], EditStreamState.default, [], [], rfl, rfl, rfl, by simp, rfl, rfl,
        default_progress _ _ _⟩
  · rw [List.length_append, List.length_singleton] at hlength ⊢
    obtain ⟨next, more, hnext, hfinished⟩ := finalize_previous_spec hphase
    have hfinal : finals[closed.length]? = some edit := by
      rw [hfinals, hlen, List.getElem?_append_right le_rfl, Nat.sub_self]
      rfl
    obtain ⟨shown, hshown⟩ : ∃ shown, edits[closed.length]? = some shown :=
      ⟨_, List.getElem?_eq_getElem (show closed.length < edits.length by omega)⟩
    obtain ⟨hold, hnew⟩ := hinput.complete closed.length shown edit hlength hshown hfinal
    have hlast : (closed ++ [last])[closed.length]? = some last := by
      rw [List.getElem?_append_right le_rfl, Nat.sub_self]
      rfl
    have hset : (closed ++ [last]).set closed.length next = closed ++ [next] := by
      rw [List.set_append_right _ _ le_rfl, Nat.sub_self]
      rfl
    refine ⟨closed ++ [next], more, ?_, by simp, ?_⟩
    · rw [Nat.add_sub_cancel, finalize_previous_edit, if_neg (by simp), Nat.add_sub_cancel, hlast, hshown]
      simp only [Option.bind_some, hold, hnew]
      rw [← hlen] at hnext
      simp only [hnext, Option.bind_eq_bind, Option.bind_some, hset]
      rfl
    · cases after with
      | nil =>
        have hcount := congrArg List.length hfinals
        rw [List.length_append, List.length_singleton] at hcount
        omega
      | cons following after =>
        refine Or.inr ⟨before ++ [edit], following, after, closed ++ [next], EditStreamState.default,
          prior ++ (block ++ more), [], ?_, rfl, by simp [hlen], ?_, ?_, ?_, default_progress _ _ _⟩
        · rw [hfinals, List.append_assoc]
          rfl
        · intro state hstate
          rcases List.mem_append.mp hstate with hstate | hstate
          · exact hclosed state hstate
          · rw [List.mem_singleton.mp hstate]
            exact hfinished.1
        · rw [List.append_nil, List.append_assoc]
        · refine hprior.concat ?_
          rw [Nat.zero_add]
          exact hfinished.2

theorem step_edit (h : Streamed orders finals Progress states events)
    (hinput : Input orders finals old_text new_text step phase edits) {index : Nat} (hindex : index < states.length)
    {edit : E} (hedit : edits[index]? = some edit) :
    ∃ state next more, states[index]? = some state ∧ step state index edit = some (next, more) ∧
      Streamed orders finals Progress (states.set index next) (events ++ more) ∧
      (states.length = index + 1 → Streamed orders finals phase (states.set index next) (events ++ more)) := by
  rcases h with ⟨rfl, -⟩ | ⟨before, final, after, closed, last, prior, block, hfinals, rfl, hlen, hclosed, rfl, hprior,
    hphase⟩
  · exact absurd hindex (Nat.not_lt_zero _)
  · rw [List.length_append, List.length_singleton] at hindex
    by_cases hlast : index = closed.length
    · subst hlast
      have hfinal : finals[closed.length]? = some final := by
        rw [hfinals, hlen, List.getElem?_append_right le_rfl, Nat.sub_self]
        rfl
      have hget : (closed ++ [last])[closed.length]? = some last := by
        rw [List.getElem?_append_right le_rfl, Nat.sub_self]
        rfl
      rw [← hlen] at hphase
      obtain ⟨next, more, hnext, hnextPhase⟩ := hinput.on_step closed.length edit final hedit hfinal last block hphase
      have hset : (closed ++ [last]).set closed.length next = closed ++ [next] := by
        rw [List.set_append_right _ _ le_rfl, Nat.sub_self]
        rfl
      rw [hlen] at hnextPhase
      have hstreamed : Streamed orders finals phase ((closed ++ [last]).set closed.length next)
          (prior ++ block ++ more) :=
        Or.inr ⟨before, final, after, closed, next, prior, block ++ more, hfinals, hset, hlen, hclosed,
          List.append_assoc _ _ _, hprior, hnextPhase⟩
      exact ⟨last, next, more, hget, hnext, hstreamed.mono hinput.progress, fun _ => hstreamed⟩
    · have hlt : index < closed.length := by omega
      have hget : (closed ++ [last])[index]? = some closed[index] := by
        rw [List.getElem?_append_left hlt, List.getElem?_eq_getElem hlt]
      have hstate := hclosed closed[index] (List.getElem_mem hlt)
      have hsame : (closed ++ [last]).set index closed[index] = closed ++ [last] := by
        rw [List.set_append_left _ _ hlt, List.set_getElem_self]
      refine ⟨closed[index], closed[index], [], hget, hinput.on_closed _ _ _ hstate, ?_, fun hlength => ?_⟩
      · rw [hsame, List.append_nil]
        exact Or.inr ⟨before, final, after, closed, last, prior, block, hfinals, rfl, hlen, hclosed, rfl, hprior,
          hphase⟩
      · rw [List.length_append, List.length_singleton] at hlength
        omega

theorem edits_loop_spec (hinput : Input orders finals old_text new_text step phase edits) {rest : List E} {index : Nat}
    (hrest : rest = edits.drop index) (h : Streamed orders finals Progress states events)
    (hindex : index ≤ states.length) :
    ∃ next more, edits_loop old_text new_text step edits index rest states = some (next, more) ∧
      Streamed orders finals Progress next (events ++ more) ∧ index + rest.length ≤ next.length ∧
      (rest ≠ [] → next.length = index + rest.length → Streamed orders finals phase next (events ++ more)) := by
  induction rest generalizing index states events with
  | nil => exact ⟨states, [], rfl, by rwa [List.append_nil], hindex, fun hne => absurd rfl hne⟩
  | cons edit rest ih =>
    have hget : edits[index]? = some edit := by
      rw [← List.head?_drop, ← hrest]
      rfl
    have hlt : index < edits.length := (List.getElem?_eq_some_iff.mp hget).1
    have htail : rest = edits.drop (index + 1) := by
      rw [← List.tail_drop, ← hrest]
      rfl
    -- the state of this edit, new or not
    obtain ⟨opened, previous, hopened, hstreamed, hlength⟩ : ∃ opened previous,
        open_state old_text new_text edits index states = some (opened, previous) ∧
        Streamed orders finals Progress opened (events ++ previous) ∧ index < opened.length := by
      unfold open_state
      by_cases hnew : index ≥ states.length
      · obtain rfl : index = states.length := le_antisymm hindex hnew
        obtain ⟨next, previous, hnext, hnextLength, hstreamed⟩ := open_edit h hinput hlt
        refine ⟨next ++ [EditStreamState.default], previous, ?_, hstreamed, by simp [hnextLength]⟩
        rw [if_pos hnew, hnext]
        rfl
      · rw [if_neg hnew]
        exact ⟨states, [], rfl, by rwa [List.append_nil], Nat.lt_of_not_le hnew⟩
    obtain ⟨state, next, more, hstate, hstep, hnextStreamed, hlast⟩ := step_edit hstreamed hinput hlength hget
    obtain ⟨final, later, hfinal, hfinalStreamed, hfinalLength, hfinalPhase⟩ :=
      ih htail hnextStreamed (by rw [List.length_set]; exact hlength)
    refine ⟨final, previous ++ more ++ later, ?_, ?_, ?_, fun _ hcount => ?_⟩
    · rw [edits_loop, hopened]
      simp only [Option.bind_eq_bind, Option.bind_some, hstate, hstep, hfinal]
      rfl
    · rwa [← List.append_assoc, ← List.append_assoc]
    · rw [List.length_cons]
      omega
    · rw [List.length_cons] at hcount
      rw [← List.append_assoc, ← List.append_assoc]
      by_cases hnil : rest = []
      · subst hnil
        obtain ⟨rfl, rfl⟩ := Prod.mk.inj (Option.some.inj hfinal)
        rw [List.append_nil]
        rw [List.length_set, List.length_nil] at hcount
        exact hlast (by omega)
      · exact hfinalPhase hnil (by omega)

end Loops

section Results

variable {orders : Nat → FieldOrder} {finals : List Edit} {events : List EditEvent} {parser : StreamingParser}

/-- A partial list on its way to the final one: a prefix of it whose edits but the last are complete. -/
structure Leads (orders : Nat → FieldOrder) (finals : List Edit) (edits : List PartialEdit) : Prop where
  length_le : edits.length ≤ finals.length
  complete : ∀ index shown final, index + 1 < edits.length → edits[index]? = some shown → finals[index]? = some final →
    shown.old_text = some final.old_text ∧ shown.new_text = some final.new_text
  shows : ∀ index shown final, edits[index]? = some shown → finals[index]? = some final →
    Shows (orders index) final shown

theorem push_edits_spec {edits : List PartialEdit} (hedits : Leads orders finals edits)
    (h : Streamed orders finals Progress parser.edit_states events) :
    ∃ next more, parser.push_edits edits = some (next, more) ∧
      Streamed orders finals Progress next.edit_states (events ++ more) := by
  have hinput : Input orders finals PartialEdit.old_text PartialEdit.new_text EditStreamState.push_edit Progress
      edits :=
    { length_le := hedits.length_le
      complete := hedits.complete
      on_step := fun index shown final hshown hfinal state block hprogress =>
        push_edit_spec hprogress (hedits.shows index shown final hshown hfinal)
      on_closed := fun state index shown hclosed => hclosed.push_edit index shown
      progress := fun _ _ _ _ _ hprogress => hprogress }
  obtain ⟨states, more, hloop, hstreamed, -, -⟩ := edits_loop_spec hinput List.drop_zero.symm h (Nat.zero_le _)
  refine ⟨{ parser with edit_states := states }, more, ?_, hstreamed⟩
  rw [StreamingParser.push_edits, hloop]
  rfl

theorem Streamed.length_le {phase : Phase} {states : List EditStreamState}
    (h : Streamed orders finals phase states events) : states.length ≤ finals.length := by
  rcases h with ⟨rfl, -⟩ | ⟨before, edit, after, closed, last, prior, block, rfl, rfl, hlen, -⟩
  · exact Nat.zero_le _
  · simp only [List.length_append, List.length_cons, List.length_nil]
    omega

theorem Streamed.blocks {states : List EditStreamState}
    (h : Streamed orders finals (fun _ index edit state block => Finished index edit state block) states events)
    (hlength : states.length = finals.length) : Blocks 0 finals events := by
  rcases h with ⟨rfl, rfl⟩ | ⟨before, edit, after, closed, last, prior, block, rfl, rfl, hlen, -, rfl, hprior, -,
    hblock⟩
  · rw [List.eq_nil_of_length_eq_zero hlength.symm]
    rfl
  · simp only [List.length_append, List.length_cons, List.length_nil] at hlength
    obtain rfl : after = [] := List.eq_nil_of_length_eq_zero (by omega)
    refine hprior.concat ?_
    rwa [Nat.zero_add]

theorem finalize_edits_spec (h : Streamed orders finals Progress parser.edit_states events) :
    ∃ next more, parser.finalize_edits finals = some (next, more) ∧ Blocks 0 finals (events ++ more) := by
  have hinput : Input orders finals (some ·.old_text) (some ·.new_text) EditStreamState.finalize_edit
      (fun _ index edit state block => Finished index edit state block) finals :=
    { length_le := le_rfl
      complete := fun index shown final _ hshown hfinal => by
        obtain rfl := Option.some.inj (hshown.symm.trans hfinal)
        exact ⟨rfl, rfl⟩
      on_step := fun index shown final hshown hfinal state block hprogress => by
        obtain rfl := Option.some.inj (hshown.symm.trans hfinal)
        exact finalize_edit_spec hprogress
      on_closed := fun state index shown hclosed => hclosed.finalize_edit index shown
      progress := fun _ _ _ _ _ hfinished => Or.inr (Or.inr hfinished) }
  obtain ⟨states, more, hloop, hstreamed, hlength, hphase⟩ :=
    edits_loop_spec hinput List.drop_zero.symm h (Nat.zero_le _)
  rw [Nat.zero_add] at hlength hphase
  have hcount : states.length = finals.length := le_antisymm hstreamed.length_le hlength
  refine ⟨{ parser with edit_states := states }, more, ?_, ?_⟩
  · rw [StreamingParser.finalize_edits, hloop]
    rfl
  · by_cases hnil : finals = []
    · rw [hnil, List.length_nil] at hcount
      rcases hstreamed with ⟨-, hevents⟩ | ⟨before, edit, after, closed, last, prior, block, -, hstates, -⟩
      · rw [hnil]
        exact hevents
      · rw [hstates, List.length_append, List.length_singleton] at hcount
        exact absurd hcount (Nat.succ_ne_zero _)
    · exact (hphase hnil hcount).blocks hcount

theorem stream_edits_spec {partials : List (List PartialEdit)}
    (hpartials : ∀ edits ∈ partials, Leads orders finals edits)
    (h : Streamed orders finals Progress parser.edit_states events) :
    ∃ more, StreamingParser.stream_edits partials finals parser = some more ∧ Blocks 0 finals (events ++ more) := by
  induction partials generalizing parser events with
  | nil =>
    obtain ⟨next, more, hnext, hblocks⟩ := finalize_edits_spec h
    exact ⟨more, by rw [StreamingParser.stream_edits, hnext]; rfl, hblocks⟩
  | cons first rest ih =>
    obtain ⟨next, more, hnext, hstreamed⟩ := push_edits_spec (hpartials first List.mem_cons_self) h
    obtain ⟨later, hlater, hblocks⟩ :=
      ih (fun edits hedits => hpartials edits (List.mem_cons_of_mem first hedits)) hstreamed
    refine ⟨more ++ later, ?_, by rwa [← List.append_assoc]⟩
    rw [StreamingParser.stream_edits, hnext]
    simp only [Option.bind_eq_bind, Option.bind_some, hlater]
    rfl

def WriteEvent.chunk : WriteEvent → Str
  | .ContentChunk chunk => chunk

theorem finalize_content_spec (emitted rest : Str) (hlen : parser.content_emitted_len = byteLen emitted) :
    ∃ next more, parser.finalize_content (emitted ++ rest) = some (next, more) ∧
      more.flatMap WriteEvent.chunk = rest := by
  have hslice : str.slice (emitted ++ rest) (find_char_boundary (emitted ++ rest) (byteLen emitted))
      (byteLen (emitted ++ rest)) = some rest := rest_spec rest
  rw [← hlen] at hslice
  by_cases hmore : byteLen (emitted ++ rest) > find_char_boundary (emitted ++ rest) parser.content_emitted_len
  · refine ⟨{ parser with content_emitted_len := byteLen (emitted ++ rest) }, [.ContentChunk rest], ?_, ?_⟩
    · simp only [StreamingParser.finalize_content, if_pos hmore, hslice, Option.bind_eq_bind, Option.bind_some]
      rfl
    · simp [WriteEvent.chunk]
  · refine ⟨parser, [], if_neg hmore, ?_⟩
    have hgrowing : Growing (emitted ++ rest) (emitted ++ rest) := ⟨_, List.prefix_rfl, Or.inl rfl⟩
    rw [hlen] at hmore
    have hnil : rest = [] := by
      apply zed.rope.eq_nil_of_byteLen
      rcases find_char_boundary_spec (List.prefix_append emitted rest) hgrowing with ⟨-, hstart⟩ | ⟨-, hle⟩
      · rw [hstart, byteLen_append] at hmore
        omega
      · rw [byteLen_append] at hle
        omega
    rw [hnil]
    rfl

theorem push_content_spec {content emitted text : Str} (hgrowing : Growing content text)
    (hemitted : emitted <+: content) (hlen : parser.content_emitted_len = byteLen emitted) :
    ∃ next more, parser.push_content text = some (next, more) ∧
      (emitted ++ more.flatMap WriteEvent.chunk) <+: content ∧
      next.content_emitted_len = byteLen (emitted ++ more.flatMap WriteEvent.chunk) := by
  obtain ⟨safe, hsafe, htext, hfull⟩ := safe_emit_end_spec hgrowing
  by_cases hmore : byteLen safe > find_char_boundary text parser.content_emitted_len
  · rw [hlen] at hmore
    obtain ⟨chunk, hchunk, hslice⟩ := chunk_spec hemitted hgrowing htext hfull hmore
    rw [← hlen] at hmore hslice
    have hall : emitted ++ [WriteEvent.ContentChunk chunk].flatMap WriteEvent.chunk = safe := by
      rw [hchunk]
      simp [WriteEvent.chunk]
    refine ⟨{ parser with content_emitted_len := byteLen safe }, [.ContentChunk chunk], ?_, by rwa [hall], by rw [hall]⟩
    simp only [StreamingParser.push_content, hsafe, if_pos hmore, hslice, Option.bind_eq_bind, Option.bind_some]
    rfl
  · refine ⟨parser, [], ?_, ?_, ?_⟩
    · simp only [StreamingParser.push_content, hsafe, if_neg hmore]
    · rwa [List.flatMap_nil, List.append_nil]
    · rwa [List.flatMap_nil, List.append_nil]

theorem stream_content_spec {content emitted : Str} {contents : List Str}
    (hcontents : ∀ text ∈ contents, Growing content text) (hemitted : emitted <+: content)
    (hlen : parser.content_emitted_len = byteLen emitted) :
    ∃ more, StreamingParser.stream_content contents content parser = some more ∧
      emitted ++ more.flatMap WriteEvent.chunk = content := by
  induction contents generalizing parser emitted with
  | nil =>
    obtain ⟨rest, rfl⟩ := hemitted
    obtain ⟨next, more, hnext, hall⟩ := finalize_content_spec emitted rest hlen
    exact ⟨more, by rw [StreamingParser.stream_content, hnext]; rfl, by rw [hall]⟩
  | cons first rest ih =>
    obtain ⟨next, more, hnext, hprefix, hnextLen⟩ :=
      push_content_spec (hcontents first List.mem_cons_self) hemitted hlen
    obtain ⟨later, hlater, hall⟩ :=
      ih (fun text htext => hcontents text (List.mem_cons_of_mem first htext)) hprefix hnextLen
    refine ⟨more ++ later, ?_, by rw [List.flatMap_append, ← List.append_assoc, hall]⟩
    rw [StreamingParser.stream_content, hnext]
    simp only [Option.bind_eq_bind, Option.bind_some, hlater]
    rfl

/-- Streamed input adds up to the final one: the events are those of the final edits, and the chunks of content are the
    final content. -/
theorem streamed_input_adds_up (orders : Nat → FieldOrder) (finals : List Edit) (partials : List (List PartialEdit))
    (hpartials : ∀ edits ∈ partials, Leads orders finals edits) (content : Str) (contents : List Str)
    (hcontents : ∀ text ∈ contents, Growing content text) :
    (∃ events, StreamingParser.stream_edits partials finals StreamingParser.default = some events ∧
      Blocks 0 finals events) ∧
    ∃ events, StreamingParser.stream_content contents content StreamingParser.default = some events ∧
      events.flatMap WriteEvent.chunk = content := by
  have hstart : Streamed orders finals Progress StreamingParser.default.edit_states [] := Or.inl ⟨rfl, rfl⟩
  have hlen : StreamingParser.default.content_emitted_len = byteLen [] := rfl
  obtain ⟨events, hevents, hblocks⟩ := stream_edits_spec hpartials hstart
  obtain ⟨chunks, hchunks, hall⟩ := stream_content_spec hcontents List.nil_prefix hlen
  exact ⟨⟨events, hevents, hblocks⟩, chunks, hchunks, hall⟩

theorem leads_single {orders : Nat → FieldOrder} {final : Edit} {shown : PartialEdit}
    (h : Shows (orders 0) final shown) : Leads orders [final] [shown] := by
  refine ⟨le_rfl, fun index _ _ hindex => absurd hindex (by simp), fun index shown' final' hshown hfinal => ?_⟩
  obtain rfl : index = 0 := Nat.lt_one_iff.mp (List.getElem?_eq_some_iff.mp hshown).1
  obtain rfl := Option.some.inj hshown
  obtain rfl := Option.some.inj hfinal
  exact h

/-- An edit whose old text comes in two parts, the first with a wrong backslash, and whose new text ends a line. -/
theorem streamed_input_adds_up_two_parts :
    (∃ events, StreamingParser.stream_edits
        [[⟨some ['a', '\\'], none⟩], [⟨some ['a', '\n', 'b'], some ['c', '\n']⟩]]
        [⟨['a', '\n', 'b'], ['c', '\n']⟩] StreamingParser.default = some events ∧
      Blocks 0 [⟨['a', '\n', 'b'], ['c', '\n']⟩] events) ∧
    ∃ events, StreamingParser.stream_content [['a', '\\']] ['a', '\n'] StreamingParser.default = some events ∧
      events.flatMap WriteEvent.chunk = ['a', '\n'] := by
  refine streamed_input_adds_up (fun _ => .OldFirst) _ _ (fun edits hedits => ?_) _ _ (fun text htext => ?_)
  · rcases List.mem_cons.mp hedits with rfl | hedits
    · refine leads_single ⟨fun text htext => ?_, fun text htext => absurd htext (by simp),
        fun hnew => absurd hnew (by simp)⟩
      obtain rfl := Option.some.inj htext
      exact ⟨['a'], ⟨['\n', 'b'], rfl⟩, Or.inr rfl⟩
    · obtain rfl := List.mem_singleton.mp hedits
      refine leads_single ⟨fun text htext => ?_, fun text htext => ?_, fun _ => rfl⟩
      · obtain rfl := Option.some.inj htext
        exact ⟨['a', '\n', 'b'], List.prefix_rfl, Or.inl rfl⟩
      · obtain rfl := Option.some.inj htext
        exact ⟨['c', '\n'], List.prefix_rfl, Or.inl rfl⟩
  · obtain rfl := List.mem_singleton.mp htext
    exact ⟨['a'], ⟨['\n'], rfl⟩, Or.inr rfl⟩

end Results

end zed.agent.streaming_parser
