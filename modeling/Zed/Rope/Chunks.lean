import Zed.Rope.ChunkSummary
import Zed.SumTree.Tree.Refine

namespace zed.rope

open sum_tree (Bias SumTree)

/-- A chunk holds its text, where its slices point into it. -/
abbrev Chunk := ChunkSlice

@[ext] structure ChunkSummary where
  text : TextSummary

instance : sum_tree.Summary ChunkSummary where
  zero := ⟨TextSummary.default⟩
  add_summary self summary := ⟨self.text + summary.text⟩

instance : sum_tree.Item Chunk ChunkSummary where
  summary chunk := ⟨chunk.text_summary⟩

/-- A position in bytes, as a dimension. -/
def ChunkSummary.len (summary : ChunkSummary) : Nat := summary.text.len

def ChunkSummary.has_newline (summary : ChunkSummary) : Bool := decide (summary.text.lines.row > 0)

/-- A rope as it is stored: a tree of chunks that are not empty. -/
structure ChunkTree where
  chunks : SumTree Chunk ChunkSummary
  valid : ∀ chunk ∈ chunks.items, chunk.Valid ∧ chunk.text ≠ []

namespace ChunkTree

def text (rope : ChunkTree) : Str := rope.chunks.items.flatMap ChunkSlice.text

end ChunkTree

namespace str

/-- `&text[start..stop]`: panics when the ends are not character boundaries in order. -/
def slice (text : Str) (start stop : Nat) : Option Str :=
  if start ≤ stop ∧ rope.is_char_boundary (utf8 text) start ∧ rope.is_char_boundary (utf8 text) stop then
    some (drop_bytes start (take_bytes stop text))
  else none

/-- `text.find('\n')` and `text.rfind('\n')` -/
def find : Str → Option Nat
  | [] => none
  | char :: text => if char = '\n' then some 0 else (find text).map (char.utf8Size + ·)

def rfind : Str → Option Nat
  | [] => none
  | char :: text =>
    match rfind text with
    | some ix => some (char.utf8Size + ix)
    | none => if char = '\n' then some 0 else none

end str

structure Chunks where
  chunks : sum_tree.Node.Cursor Chunk ChunkSummary
  range_start : Nat
  range_end : Nat
  offset : Nat
  reversed : Bool

namespace Chunks

/-- Panics when the range does not start at a character boundary, or does not end at one for a reader
    that goes backwards. -/
def new (rope : ChunkTree) (range_start range_end : Nat) (reversed : Bool) : Option Chunks := do
  let chunks := sum_tree.Node.Cursor.new rope.chunks.node
  let (target, bias) := if reversed then (range_end, Bias.Left) else (range_start, Bias.Right)
  let (_, chunks) ← chunks.seek ChunkSummary.len target bias
  match chunks.item with
  | some chunk =>
    if chunk.is_char_boundary (target - chunks.start) then
      some { chunks, range_start, range_end, offset := target, reversed }
    else none
  | none => some { chunks, range_start, range_end, offset := target, reversed }

variable (self : Chunks)

def offset_is_valid : Bool :=
  if self.reversed then !(decide (self.offset ≤ self.range_start) || decide (self.offset > self.range_end))
  else !(decide (self.offset < self.range_start) || decide (self.offset ≥ self.range_end))

/-- `clamp` panics when the range is the wrong way round. -/
def seek (offset : Nat) : Option Chunks := do
  if self.range_start ≤ self.range_end then
    let offset := min (max offset self.range_start) self.range_end
    let (_, chunks) ←
      if self.reversed then
        if offset > self.chunks.stop ChunkSummary.len then self.chunks.seek_forward ChunkSummary.len offset Bias.Left
        else if offset ≤ self.chunks.start then self.chunks.seek ChunkSummary.len offset Bias.Left
        else some (false, self.chunks)
      else
        if offset ≥ self.chunks.stop ChunkSummary.len then self.chunks.seek_forward ChunkSummary.len offset Bias.Right
        else if offset < self.chunks.start then self.chunks.seek ChunkSummary.len offset Bias.Right
        else some (false, self.chunks)
    some { self with chunks, offset }
  else none

def set_range (range_start range_end : Nat) : Option Chunks :=
  { self with range_start, range_end }.seek range_start

/-- The outer `none` is a panic: an offset that is not in the chunk, or not at a character boundary. -/
def peek : Option (Option Str) :=
  if self.offset_is_valid then
    match self.chunks.item with
    | none => some none
    | some chunk =>
      let chunk_start := self.chunks.start
      if self.offset < chunk_start then none
      else
        let (slice_start, slice_end) :=
          if self.reversed then (max chunk_start self.range_start - chunk_start, self.offset - chunk_start)
          else (self.offset - chunk_start, min (self.chunks.stop ChunkSummary.len) self.range_end - chunk_start)
        (str.slice chunk.text slice_start slice_end).map some
  else some none

def next : Option (Option Str × Chunks) := do
  match ← self.peek with
  | none => some (none, self)
  | some chunk =>
    let length := (utf8 chunk).length
    if self.reversed then
      let offset := self.offset - length
      let chunks := if offset ≤ self.chunks.start then self.chunks.prev ChunkSummary.len else self.chunks
      some (some chunk, { self with offset, chunks })
    else
      let offset := self.offset + length
      let chunks :=
        if offset ≥ self.chunks.stop ChunkSummary.len then self.chunks.next ChunkSummary.len else self.chunks
      some (some chunk, { self with offset, chunks })

end Chunks

section Text

def byteLen (text : Str) : Nat := (utf8 text).length

@[simp] theorem byteLen_nil : byteLen [] = 0 := rfl

@[simp] theorem byteLen_append (left right : Str) : byteLen (left ++ right) = byteLen left + byteLen right := by
  rw [byteLen, utf8_append_text, List.length_append]
  rfl

@[simp] theorem byteLen_cons (char : Char) (text : Str) : byteLen (char :: text) = char.utf8Size + byteLen text := by
  rw [byteLen, utf8_cons, List.length_append, String.length_utf8EncodeChar]
  rfl

theorem byteLen_pos {text : Str} (h : text ≠ []) : 0 < byteLen text := by
  cases text with
  | nil => exact absurd rfl h
  | cons char text =>
    rw [byteLen_cons]
    exact Nat.add_pos_left char.utf8Size_pos _

theorem eq_nil_of_byteLen {text : Str} (h : byteLen text = 0) : text = [] := by
  by_contra hne
  exact absurd (byteLen_pos hne) (by omega)

theorem append_inj_of_byteLen {before after before' after' : Str} (h : before ++ after = before' ++ after')
    (hlength : byteLen before = byteLen before') : before = before' ∧ after = after' := by
  obtain ⟨middle, rfl⟩ := prefix_of_length_le h hlength.le
  rw [byteLen_append] at hlength
  obtain rfl := eq_nil_of_byteLen (show byteLen middle = 0 by omega)
  rw [List.append_nil] at h ⊢
  exact ⟨rfl, List.append_cancel_left h⟩

/-- A character boundary of a text. -/
def Boundary (text : Str) (offset : Nat) : Prop := ∃ before after, text = before ++ after ∧ byteLen before = offset

theorem Boundary.le {text : Str} {offset : Nat} (h : Boundary text offset) : offset ≤ byteLen text := by
  obtain ⟨before, after, rfl, rfl⟩ := h
  rw [byteLen_append]
  exact Nat.le_add_right _ _

theorem Boundary.split {before part after : Str} {offset : Nat} (h : Boundary (before ++ part ++ after) offset)
    (hstart : byteLen before ≤ offset) (hstop : offset ≤ byteLen before + byteLen part) :
    ∃ left right, part = left ++ right ∧ byteLen before + byteLen left = offset := by
  obtain ⟨upTo, rest, htext, rfl⟩ := h
  obtain ⟨left, rfl⟩ := prefix_of_length_le ((List.append_assoc before part after).symm.trans htext) hstart
  rw [List.append_assoc, List.append_assoc] at htext
  rw [byteLen_append] at hstop
  obtain ⟨right, rfl⟩ := prefix_of_length_le (List.append_cancel_left htext).symm (Nat.le_of_add_le_add_left hstop)
  exact ⟨left, right, rfl, (byteLen_append before left).symm⟩

theorem str.slice_middle (left middle right : Str) :
    str.slice (left ++ middle ++ right) (byteLen left) (byteLen left + byteLen middle) = some middle := by
  have hleft : rope.is_char_boundary (utf8 (left ++ middle ++ right)) (byteLen left) = true := by
    rw [List.append_assoc]
    exact is_char_boundary_utf8 left (middle ++ right)
  have hright : rope.is_char_boundary (utf8 (left ++ middle ++ right)) (byteLen (left ++ middle)) = true :=
    is_char_boundary_utf8 (left ++ middle) right
  rw [← byteLen_append, str.slice, if_pos ⟨by rw [byteLen_append]; exact Nat.le_add_right _ _, hleft, hright⟩]
  have htake : take_bytes (byteLen (left ++ middle)) (left ++ middle ++ right) = left ++ middle :=
    take_bytes_append (left ++ middle) right
  rw [htake]
  exact congrArg some (drop_bytes_append left middle)

end Text

section Summary

theorem len_additive : sum_tree.Additive ChunkSummary.len := by
  intro summaries
  have hfold : ∀ (summaries : List ChunkSummary) (first : ChunkSummary),
      (summaries.foldl sum_tree.Summary.add_summary first).len = first.len + (summaries.map ChunkSummary.len).sum := by
    intro summaries
    induction summaries with
    | nil => exact fun first => rfl
    | cons summary summaries ih =>
      intro first
      rw [List.foldl_cons, ih, List.map_cons, List.sum_cons, ← Nat.add_assoc]
      rfl
  rw [sum_tree.sum, hfold]
  exact Nat.zero_add _

theorem has_newline_lets_through : sum_tree.LetsThrough ChunkSummary.has_newline := by
  intro summaries _
  have hfold : ∀ (summaries : List ChunkSummary) (first : ChunkSummary),
      (summaries.foldl sum_tree.Summary.add_summary first).has_newline =
        (first.has_newline || summaries.any ChunkSummary.has_newline) := by
    intro summaries
    induction summaries with
    | nil => exact fun first => (Bool.or_false _).symm
    | cons summary summaries ih =>
      intro first
      have hadd : (sum_tree.Summary.add_summary first summary).has_newline =
          (first.has_newline || summary.has_newline) := by
        have hrow : (first.text + summary.text).lines.row = first.text.lines.row + summary.text.lines.row :=
          Point.add_row _ _
        rw [ChunkSummary.has_newline, ChunkSummary.has_newline, ChunkSummary.has_newline, ← Bool.decide_or,
          decide_eq_decide]
        change (first.text + summary.text).lines.row > 0 ↔ _
        omega
      rw [List.foldl_cons, ih, hadd, List.any_cons, Bool.or_assoc]
  rw [sum_tree.sum, hfold]
  rfl

theorem chunk_len (chunk : Chunk) : sum_tree.itemLen ChunkSummary.len chunk = byteLen chunk.text := rfl

abbrev chunkThrough : Chunk → Bool := sum_tree.itemThrough ChunkSummary.has_newline

theorem chunk_has_newline {chunk : Chunk} (h : chunk.Valid) :
    chunkThrough chunk = decide ('\n' ∈ chunk.text) := by
  have hrow := (TextSummary.from_str_counts chunk.text).2.2
  change decide (chunk.text_summary.lines.row > 0) = _
  rw [h.text_summary_eq, hrow, decide_eq_decide]
  exact List.count_pos_iff

end Summary

abbrev chunkLen : Chunk → Nat := sum_tree.itemLen ChunkSummary.len

abbrev textOf (chunks : List Chunk) : Str := chunks.flatMap ChunkSlice.text

theorem textOf_len (chunks : List Chunk) : (chunks.map chunkLen).sum = byteLen (textOf chunks) := by
  induction chunks with
  | nil => rfl
  | cons chunk chunks ih =>
    rw [List.map_cons, List.sum_cons, ih]
    exact (byteLen_append chunk.text (textOf chunks)).symm

theorem textOf_append (left right : List Chunk) : textOf (left ++ right) = textOf left ++ textOf right :=
  List.flatMap_append

theorem textOf_cons (chunk : Chunk) (chunks : List Chunk) : textOf (chunk :: chunks) = chunk.text ++ textOf chunks :=
  List.flatMap_cons

theorem textOf_concat (chunks : List Chunk) (chunk : Chunk) :
    byteLen (textOf (chunks ++ [chunk])) = byteLen (textOf chunks) + byteLen chunk.text := by
  rw [textOf, List.flatMap_append, List.flatMap_singleton, byteLen_append]

section Place

variable {rope : ChunkTree} {place : sum_tree.Cursor Chunk}

theorem place_start (place : sum_tree.Cursor Chunk) : place.start chunkLen = byteLen (textOf place.passed) :=
  textOf_len place.passed

theorem place_stop {chunk : Chunk} {rest : List Chunk} (h : place.rest = chunk :: rest) :
    place.stop chunkLen = byteLen (textOf place.passed) + byteLen chunk.text := by
  rw [sum_tree.Cursor.stop, place_start, sum_tree.Cursor.item, h]
  rfl

theorem place_stop_nil (h : place.rest = []) : place.stop chunkLen = byteLen (textOf place.passed) := by
  rw [sum_tree.Cursor.stop, place_start, sum_tree.Cursor.item, h]
  rfl

theorem text_of_items (h : place.passed ++ place.rest = rope.chunks.items) :
    rope.text = textOf place.passed ++ textOf place.rest := by
  rw [ChunkTree.text, ← h, List.flatMap_append]

theorem text_of_chunk {chunk : Chunk} {rest : List Chunk} (h : place.passed ++ place.rest = rope.chunks.items)
    (hrest : place.rest = chunk :: rest) : rope.text = textOf place.passed ++ chunk.text ++ textOf rest := by
  rw [text_of_items h, hrest, textOf, textOf, List.flatMap_cons, List.append_assoc]

theorem text_at_end (h : place.passed ++ place.rest = rope.chunks.items) (hrest : place.rest = []) :
    byteLen rope.text = place.start chunkLen := by
  rw [text_of_items h, hrest, place_start]
  exact congrArg byteLen (List.append_nil _)

theorem place_boundary (h : place.passed ++ place.rest = rope.chunks.items) :
    Boundary rope.text (place.start chunkLen) :=
  ⟨textOf place.passed, textOf place.rest, text_of_items h, (place_start place).symm⟩

theorem chunk_valid {chunk : Chunk} {rest : List Chunk} (h : place.passed ++ place.rest = rope.chunks.items)
    (hrest : place.rest = chunk :: rest) : chunk.Valid ∧ chunk.text ≠ [] :=
  rope.valid chunk (by rw [← h, hrest]; simp)

theorem slice_start (place : sum_tree.Cursor Chunk) (target : Nat) (bias : Bias) :
    (place.slice chunkLen target bias).2.start chunkLen = place.start chunkLen ∨
      bias.passes target ((place.slice chunkLen target bias).2.start chunkLen) = true := by
  obtain ⟨htaken, -⟩ := sum_tree.Cursor.slice_from_stop chunkLen target bias (place.start chunkLen) place.rest
  have hstart : (place.slice chunkLen target bias).2.start chunkLen = place.start chunkLen +
      ((sum_tree.slice_from chunkLen target bias (place.start chunkLen) place.rest).1.map chunkLen).sum :=
    sum_tree.Cursor.start_append chunkLen _ _ _
  rw [hstart]
  rcases List.eq_nil_or_concat' (sum_tree.slice_from chunkLen target bias (place.start chunkLen) place.rest).1 with
    hnil | ⟨init, last, hlast⟩
  · exact Or.inl (by rw [hnil]; rfl)
  · right
    have hpasses := htaken init last [] hlast
    rw [hlast, List.map_append, List.sum_append, ← Nat.add_assoc]
    exact hpasses

theorem slice_stop (place : sum_tree.Cursor Chunk) (target : Nat) (bias : Bias) {chunk : Chunk} {rest : List Chunk}
    (hrest : (place.slice chunkLen target bias).2.rest = chunk :: rest) :
    bias.passes target ((place.slice chunkLen target bias).2.stop chunkLen) = false := by
  obtain ⟨-, hleft⟩ := sum_tree.Cursor.slice_from_stop chunkLen target bias (place.start chunkLen) place.rest
  have hstart : (place.slice chunkLen target bias).2.start chunkLen = place.start chunkLen +
      ((sum_tree.slice_from chunkLen target bias (place.start chunkLen) place.rest).1.map chunkLen).sum :=
    sum_tree.Cursor.start_append chunkLen _ _ _
  have hfirst := hleft chunk (by
    rw [show (sum_tree.slice_from chunkLen target bias (place.start chunkLen) place.rest).2 = chunk :: rest from hrest]
    rfl)
  rw [sum_tree.Cursor.stop, hstart, sum_tree.Cursor.item, hrest]
  exact hfirst

theorem slice_right (h : place.passed ++ place.rest = rope.chunks.items) {target : Nat}
    (hstart : place.start chunkLen ≤ target) (htarget : target ≤ byteLen rope.text) :
    (place.slice chunkLen target .Right).2.start chunkLen ≤ target ∧
      (target < (place.slice chunkLen target .Right).2.stop chunkLen ∨
        (target = byteLen rope.text ∧ (place.slice chunkLen target .Right).2.rest = [])) := by
  have hitems := (sum_tree.Node.Cursor.slice_items chunkLen target .Right place).trans h
  have hstop := @slice_stop place target .Right
  have hstart' : (place.slice chunkLen target .Right).2.start chunkLen ≤ target := by
    rcases slice_start place target .Right with hsame | hpasses
    · exact hsame.trans_le hstart
    · simpa [Bias.passes] using hpasses
  generalize (place.slice chunkLen target .Right).2 = place' at hitems hstop hstart' ⊢
  refine ⟨hstart', ?_⟩
  cases hcase : place'.rest with
  | nil =>
    refine Or.inr ⟨?_, rfl⟩
    rw [place_start] at hstart'
    have htext : rope.text = textOf place'.passed := by
      rw [text_of_items hitems, hcase]
      exact List.append_nil _
    rw [htext] at htarget ⊢
    exact Nat.le_antisymm htarget hstart'
  | cons chunk rest =>
    left
    have hnot := hstop hcase
    simpa [Bias.passes] using hnot

theorem is_char_boundary_of_split {chunk : Chunk} (h : chunk.Valid) {left right : Str}
    (htext : chunk.text = left ++ right) : chunk.is_char_boundary (byteLen left) = true := by
  rw [ChunkSlice.is_char_boundary, Bool.or_eq_true, decide_eq_true_eq, decide_eq_true_eq]
  cases right with
  | nil =>
    right
    rw [ChunkSlice.len, htext, List.append_nil]
    rfl
  | cons char right =>
    left
    have hlength : (charBits left).length = byteLen left := byteBits_length _ _
    have hmark : chunk.chars.getLsbD (byteLen left) = true := by
      rw [h.chars.bit, htext, charBits, byteBits_append, byteBits_cons, (char_bits char).1,
        List.getD_eq_getElem?_getD, List.getElem?_append_right hlength.le]
      rw [show (byteBits is_utf8_char_boundary left).length = byteLen left from hlength, Nat.sub_self]
      rfl
    intro hzero
    have hlt : byteLen left < MAX_BASE := by
      by_contra hge
      rw [BitVec.getLsbD_of_ge _ _ (Nat.not_lt.mp hge)] at hmark
      cases hmark
    have hbit := congrArg (BitVec.getLsbD · (byteLen left)) hzero
    simp only [BitVec.getLsbD_and, hmark, BitVec.getLsbD_shiftLeft, hlt, decide_true, Nat.lt_irrefl, decide_false,
      Bool.not_false, Bool.true_and, Nat.sub_self, Bool.and_true] at hbit
    have hclear : (0 : Bitmap).getLsbD (byteLen left) = false := BitVec.getLsbD_zero
    rw [hclear] at hbit
    exact absurd hbit (by decide)

theorem chunk_boundary {chunk : Chunk} {rest : List Chunk} (h : place.passed ++ place.rest = rope.chunks.items)
    (hrest : place.rest = chunk :: rest) {offset : Nat} (hboundary : Boundary rope.text offset)
    (hstart : place.start chunkLen ≤ offset) (hstop : offset ≤ place.stop chunkLen) :
    chunk.is_char_boundary (offset - place.start chunkLen) = true := by
  rw [place_stop hrest] at hstop
  rw [text_of_chunk h hrest] at hboundary
  rw [place_start] at hstart ⊢
  obtain ⟨left, right, hsplit, rfl⟩ := hboundary.split hstart hstop
  rw [Nat.add_sub_cancel_left]
  exact is_char_boundary_of_split (chunk_valid h hrest).1 hsplit

end Place

end zed.rope
