import Zed.Rope.Backward

namespace zed.rope

structure Lines where
  chunks : Chunks
  current_line : Str
  done : Bool
  reversed : Bool

def Chunks.lines (self : Chunks) : Lines :=
  { chunks := self, current_line := [], done := false, reversed := self.reversed }

namespace Lines

/-- The loop of `next`, a chunk in each round: the line, and the reader after it. -/
def next_loop (reversed : Bool) : Nat → Chunks → Str → Option (Str × Lines)
  | 0, _, _ => none
  | fuel + 1, chunks, current_line => do
    match ← chunks.peek with
    | none => some (current_line, { chunks, current_line, done := true, reversed })
    | some chunk =>
      let chunk_lines := chunk.splitOn '\n'
      match if reversed then chunk_lines.reverse else chunk_lines with
      | [] => next_loop reversed fuel (← chunks.next).2 current_line
      | chunk_line :: others =>
        let pushed := if reversed then chunk_line ++ current_line else current_line ++ chunk_line
        if others.isEmpty then next_loop reversed fuel (← chunks.next).2 pushed
        else
          let length := byteLen chunk_line + byteLen ['\n']
          let chunks ← chunks.seek (if reversed then chunks.offset - length else chunks.offset + length)
          if current_line.isEmpty then some (chunk_line, { chunks, current_line, done := false, reversed })
          else some (pushed, { chunks, current_line := pushed, done := false, reversed })

variable (self : Lines)

/-- A round of the loop reads at least a byte of the range. -/
def next : Option (Option Str × Lines) :=
  if self.done then some (none, self)
  else
    (next_loop self.reversed (self.chunks.range_end - self.chunks.range_start + 1) self.chunks []).map
      fun (line, self) => (some line, self)

def seek (offset : Nat) : Option Lines :=
  (self.chunks.seek offset).map fun chunks => { self with chunks, current_line := [], done := false }

end Lines

section Joined

/-- A text that is read first and the text that is read after it, where they stand. -/
def joined (reversed : Bool) (first rest : Str) : Str := if reversed then rest ++ first else first ++ rest

/-- The lines of a text in the order in which they are read. -/
def segments (reversed : Bool) (text : Str) : List Str :=
  if reversed then (text.splitOn '\n').reverse else text.splitOn '\n'

variable {reversed : Bool}

theorem joined_nil (text : Str) : joined reversed text [] = text := by
  cases reversed
  · exact List.append_nil _
  · rfl

theorem nil_joined (text : Str) : joined reversed [] text = text := by
  cases reversed
  · rfl
  · exact List.append_nil _

theorem joined_assoc (first second third : Str) :
    joined reversed (joined reversed first second) third = joined reversed first (joined reversed second third) := by
  cases reversed
  · exact List.append_assoc _ _ _
  · exact (List.append_assoc _ _ _).symm

theorem mem_joined {char : Char} {first rest : Str} :
    char ∈ joined reversed first rest ↔ char ∈ first ∨ char ∈ rest := by
  cases reversed
  · exact List.mem_append
  · exact List.mem_append.trans Or.comm

theorem byteLen_joined (first rest : Str) : byteLen (joined reversed first rest) = byteLen first + byteLen rest := by
  cases reversed
  · exact byteLen_append _ _
  · exact (byteLen_append _ _).trans (Nat.add_comm _ _)

theorem segments_single {text : Str} (h : '\n' ∉ text) : segments reversed text = [text] := by
  rw [segments, List.splitOn_eq_singleton h]
  cases reversed <;> rfl

theorem segments_cons {line : Str} (h : '\n' ∉ line) (rest : Str) :
    segments reversed (joined reversed (joined reversed line ['\n']) rest) = line :: segments reversed rest := by
  cases reversed with
  | false =>
    have hsplit : List.splitOn '\n' (line ++ '\n' :: rest) = List.splitOn '\n' line ++ List.splitOn '\n' rest :=
      List.splitOn_append_cons_self line rest
    rw [List.splitOn_eq_singleton h] at hsplit
    rw [joined_assoc]
    exact hsplit
  | true =>
    have hsplit : List.splitOn '\n' (rest ++ '\n' :: line) = List.splitOn '\n' rest ++ List.splitOn '\n' line :=
      List.splitOn_append_cons_self rest line
    rw [List.splitOn_eq_singleton h] at hsplit
    change (List.splitOn '\n' (rest ++ '\n' :: line)).reverse = _
    rw [hsplit, List.reverse_append]
    rfl

theorem segments_ne_nil (text : Str) : segments reversed text ≠ [] := by
  have hne := List.splitOn_ne_nil '\n' text
  cases reversed
  · exact hne
  · exact fun h => hne (List.reverse_eq_nil_iff.mp h)

theorem first_line {text : Str} (h : '\n' ∈ text) :
    ∃ line rest, text = joined reversed (joined reversed line ['\n']) rest ∧ '\n' ∉ line := by
  cases reversed with
  | false =>
    obtain ⟨line, rest, rfl, hline⟩ := List.eq_append_cons_of_mem h
    exact ⟨line, rest, (List.append_assoc line ['\n'] rest).symm, hline⟩
  | true =>
    obtain ⟨line, rest, hsplit, hline⟩ := List.eq_append_cons_of_mem (List.mem_reverse.mpr h)
    refine ⟨line.reverse, rest.reverse, ?_, fun hmem => hline (List.mem_reverse.mp hmem)⟩
    rw [← List.reverse_reverse text, hsplit, List.reverse_append, List.reverse_cons, List.append_assoc]
    rfl

theorem segments_joined {piece rest line : Str} {others : List Str} (h : '\n' ∉ piece)
    (hrest : segments reversed rest = line :: others) :
    segments reversed (joined reversed piece rest) = joined reversed piece line :: others := by
  by_cases hmem : '\n' ∈ rest
  · obtain ⟨first, after, rfl, hfirst⟩ := @first_line reversed _ hmem
    rw [segments_cons hfirst] at hrest
    obtain ⟨rfl, rfl⟩ := List.cons.inj hrest
    have hpiece : '\n' ∉ joined reversed piece first := fun hin => (mem_joined.mp hin).elim h hfirst
    rw [← joined_assoc, ← joined_assoc, segments_cons hpiece]
  · rw [segments_single hmem] at hrest
    obtain ⟨rfl, rfl⟩ := List.cons.inj hrest
    exact segments_single fun hin => (mem_joined.mp hin).elim h hmem

end Joined

/-- The text between two offsets. -/
def Spans (text : Str) (start stop : Nat) (part : Str) : Prop :=
  ∃ before after, text = before ++ part ++ after ∧ byteLen before = start ∧ start + byteLen part = stop

theorem Spans.exists {text : Str} {start stop : Nat} (hle : start ≤ stop) (hstart : Boundary text start)
    (hstop : Boundary text stop) : ∃ part, Spans text start stop part := by
  obtain ⟨before, rest, htext, rfl⟩ := hstart
  obtain ⟨upTo, after, htext', rfl⟩ := hstop
  obtain ⟨part, rfl⟩ := prefix_of_length_le (htext.symm.trans htext') hle
  exact ⟨part, before, after, htext', rfl, (byteLen_append before part).symm⟩

namespace Chunks

variable {rope : ChunkTree} {range_start range_end : Nat} {self : Chunks}

def Ahead (rope : ChunkTree) (range_start range_end : Nat) (reader : Chunks) (text : Str) : Bool → Prop
  | false => (∃ place, Reading rope range_start range_end reader place) ∧
      Spans rope.text reader.offset range_end text
  | true => ReadingBack rope range_start range_end reader ∧ Spans rope.text range_start reader.offset text

theorem peek_nil {reversed : Bool} (h : Ahead rope range_start range_end self [] reversed) :
    self.peek = some none := by
  cases reversed with
  | false =>
    obtain ⟨⟨place, hreading⟩, before, after, -, -, hstop⟩ := h
    exact hreading.peek_end hstop
  | true =>
    obtain ⟨hreading, before, after, -, -, hstop⟩ := h
    exact hreading.peek_start hstop.symm

theorem next_piece (hrange : CharRange rope range_start range_end) {reversed : Bool} {text : Str}
    (h : Ahead rope range_start range_end self text reversed) (hne : text ≠ []) :
    ∃ piece rest self', text = joined reversed piece rest ∧ piece ≠ [] ∧ self.peek = some (some piece) ∧
      self.next = some (some piece, self') ∧ Ahead rope range_start range_end self' rest reversed := by
  have hpos := byteLen_pos hne
  cases reversed with
  | false =>
    obtain ⟨⟨place, hreading⟩, before, after, htext, hbefore, hstop⟩ := h
    obtain ⟨before', piece, after', self', place', htext', hbefore', hpiece, hpeek, hnext, hreading', hoffset⟩ :=
      hreading.next hrange (by omega)
    have hle := hreading'.le_end
    rw [List.append_assoc] at htext htext'
    obtain ⟨rfl, hsplit⟩ := append_inj_of_byteLen (htext.symm.trans htext') (hbefore.trans hbefore'.symm)
    obtain ⟨rest, rfl⟩ := prefix_of_length_le hsplit.symm (show byteLen piece ≤ byteLen text by omega)
    rw [byteLen_append] at hstop
    refine ⟨piece, rest, self', rfl, hpiece, hpeek, hnext, ⟨place', hreading'⟩, before ++ piece, after, ?_, ?_, ?_⟩
    · rw [htext]
      simp
    · rw [byteLen_append, hoffset, hbefore]
    · omega
  | true =>
    obtain ⟨hreading, before, after, htext, hbefore, hstop⟩ := h
    obtain ⟨before', piece, after', self', htext', hlength, hpiece, hpeek, hnext, hreading', hoffset⟩ :=
      hreading.next hrange (by omega)
    have hle := hreading'.start_le
    obtain ⟨hsplit, -⟩ := append_inj_of_byteLen (htext.symm.trans htext') (by
      rw [byteLen_append, byteLen_append]
      omega)
    obtain ⟨rest, rfl⟩ := prefix_of_length_le hsplit (show byteLen before ≤ byteLen before' by omega)
    rw [List.append_assoc] at hsplit
    obtain rfl := List.append_cancel_left hsplit
    rw [byteLen_append] at hoffset
    exact ⟨piece, rest, self', rfl, hpiece, hpeek, hnext, hreading', before, piece ++ after,
      by rw [htext]; simp, hbefore, by omega⟩

theorem seek_past (hrange : CharRange rope range_start range_end) {reversed : Bool} {piece rest : Str}
    (h : Ahead rope range_start range_end self (joined reversed piece rest) reversed) (hne : piece ≠ []) :
    ∃ self', self.seek (if reversed then self.offset - byteLen piece else self.offset + byteLen piece) = some self' ∧
      Ahead rope range_start range_end self' rest reversed := by
  have hpos := byteLen_pos hne
  cases reversed with
  | false =>
    obtain ⟨⟨place, hreading⟩, before, after, htext, hbefore, hstop⟩ := h
    have hstart := hreading.start_le
    rw [byteLen_joined] at hstop
    have hclamp : clamp range_start range_end (self.offset + byteLen piece) = self.offset + byteLen piece := by
      rw [clamp]
      omega
    have htext' : rope.text = (before ++ piece) ++ rest ++ after := by
      rw [htext, joined]
      simp
    obtain ⟨self', place', hseek, hreading', hoffset⟩ := hreading.seek hrange (self.offset + byteLen piece) (by
      rw [hclamp]
      exact ⟨before ++ piece, rest ++ after, by rw [htext', List.append_assoc], by rw [byteLen_append, hbefore]⟩)
    rw [hclamp] at hoffset
    exact ⟨self', hseek, ⟨place', hreading'⟩, before ++ piece, after, htext',
      by rw [byteLen_append, hbefore, hoffset], by omega⟩
  | true =>
    obtain ⟨hreading, before, after, htext, hbefore, hstop⟩ := h
    have hend := hreading.le_end
    rw [byteLen_joined] at hstop
    have hclamp : clamp range_start range_end (self.offset - byteLen piece) = self.offset - byteLen piece := by
      rw [clamp]
      omega
    have htext' : rope.text = before ++ rest ++ (piece ++ after) := by
      rw [htext, joined]
      simp
    obtain ⟨place, chunk, after', -, -, hlocated, hrest, -⟩ := hreading.chunk (by omega)
    obtain ⟨self', hseek, hreading', hoffset⟩ := hreading.seek hrange (self.offset - byteLen piece) (by
      rw [hclamp]
      exact ⟨before ++ rest, piece ++ after, htext', by rw [byteLen_append]; omega⟩) fun hnone => by
        rw [hlocated.item, sum_tree.Cursor.item, hrest] at hnone
        cases hnone
    rw [hclamp] at hoffset
    exact ⟨self', hseek, hreading', before, piece ++ after, htext', hbefore, by omega⟩

end Chunks

namespace Lines

open Chunks (Ahead)

variable {rope : ChunkTree} {range_start range_end : Nat}

/-- A reader of lines and the lines that it has yet to return. -/
structure LinesAhead (rope : ChunkTree) (range_start range_end : Nat) (reversed : Bool) (self : Lines)
    (lines : List Str) : Prop where
  direction : self.reversed = reversed
  ahead : ∃ text, Ahead rope range_start range_end self.chunks text reversed ∧
    lines = if self.done then [] else segments reversed text

theorem next_loop_spec (hrange : CharRange rope range_start range_end) {reversed : Bool} {fuel : Nat} {chunks : Chunks}
    {text : Str} (h : Ahead rope range_start range_end chunks text reversed) (hfuel : byteLen text < fuel)
    (current_line : Str) :
    ∃ line others self, segments reversed text = line :: others ∧
      next_loop reversed fuel chunks current_line = some (joined reversed current_line line, self) ∧
      LinesAhead rope range_start range_end reversed self others := by
  induction fuel generalizing chunks text current_line with
  | zero => exact absurd hfuel (Nat.not_lt_zero _)
  | succ fuel ih =>
    rcases eq_or_ne text [] with rfl | hne
    · refine ⟨[], [], { chunks, current_line, done := true, reversed }, segments_single List.not_mem_nil, ?_, rfl,
        [], h, rfl⟩
      rw [next_loop, Chunks.peek_nil h, joined_nil]
      rfl
    · obtain ⟨piece, rest, chunks', rfl, hpiece, hpeek, hnext, hahead⟩ := Chunks.next_piece hrange h hne
      have hpos := byteLen_pos hpiece
      rw [byteLen_joined] at hfuel
      rw [next_loop, hpeek, Option.bind_eq_bind, Option.bind_some]
      dsimp only
      rw [← segments, hnext]
      by_cases hmem : '\n' ∈ piece
      · -- the line ends in this piece
        obtain ⟨line, after, rfl, hline⟩ := @first_line reversed _ hmem
        rw [joined_assoc] at h
        obtain ⟨sought, hseek, hahead'⟩ := Chunks.seek_past hrange h (fun hnil => by
          have hlength := congrArg byteLen hnil
          rw [byteLen_joined] at hlength
          exact absurd hlength (Nat.succ_ne_zero _))
        rw [byteLen_joined] at hseek
        refine ⟨line, segments reversed (joined reversed after rest),
          { chunks := sought
            current_line := if current_line.isEmpty then current_line else joined reversed current_line line
            done := false
            reversed },
          by rw [joined_assoc, segments_cons hline], ?_, rfl, _, hahead', rfl⟩
        rw [segments_cons hline]
        dsimp only
        rw [if_neg (by rw [List.isEmpty_iff]; exact segments_ne_nil after), hseek]
        cases current_line with
        | nil =>
          rw [nil_joined]
          rfl
        | cons char current_line =>
          cases reversed <;> rfl
      · -- the line goes on
        obtain ⟨line, others, self, hsegments, hloop, hlines⟩ :=
          ih hahead (by omega) (joined reversed current_line piece)
        refine ⟨joined reversed piece line, others, self, segments_joined hmem hsegments, ?_, hlines⟩
        rw [segments_single hmem, ← joined_assoc, ← hloop]
        cases reversed <;> rfl

theorem LinesAhead.next (hrange : CharRange rope range_start range_end) {reversed : Bool} {self : Lines}
    {lines : List Str} (h : LinesAhead rope range_start range_end reversed self lines) :
    ∃ self', self.next = some (lines.head?, self') ∧ LinesAhead rope range_start range_end reversed self' lines.tail := by
  obtain ⟨rfl, text, hahead, hlines⟩ := h
  cases hdone : self.done with
  | true =>
    rw [hdone, if_pos rfl] at hlines
    subst hlines
    exact ⟨self, by rw [Lines.next, hdone]; rfl, rfl, text, hahead, by rw [hdone]; rfl⟩
  | false =>
    rw [hdone, if_neg Bool.false_ne_true] at hlines
    have hfuel : byteLen text < self.chunks.range_end - self.chunks.range_start + 1 := by
      cases hreversed : self.reversed with
      | false =>
        rw [hreversed] at hahead
        obtain ⟨⟨place, hreading⟩, -, -, -, -, hstop⟩ := hahead
        have hstart := hreading.start_le
        rw [hreading.start_eq, hreading.end_eq]
        omega
      | true =>
        rw [hreversed] at hahead
        obtain ⟨hreading, -, -, -, -, hstop⟩ := hahead
        have hend := hreading.le_end
        rw [hreading.start_eq, hreading.end_eq]
        omega
    obtain ⟨line, others, self', hsegments, hloop, hlines'⟩ := next_loop_spec hrange hahead hfuel []
    refine ⟨self', ?_, by rw [hlines, hsegments]; exact hlines'⟩
    rw [Lines.next, hdone, if_neg Bool.false_ne_true, hloop, hlines, hsegments, nil_joined]
    rfl

/-- The lines of the text that a reader has ahead after a seek. -/
def LinesFrom (rope : ChunkTree) (range_start range_end : Nat) (reversed : Bool) (offset : Nat) (lines : List Str) :
    Prop :=
  ∃ text, (if reversed then Spans rope.text range_start offset text else Spans rope.text offset range_end text) ∧
    lines = segments reversed text

/-- A reader that goes backwards has not stepped before the first chunk, or it is sought to the very start. -/
def SeekSafe (self : Lines) (offset : Nat) : Prop :=
  self.reversed = true → self.chunks.chunks.item = none →
    clamp self.chunks.range_start self.chunks.range_end offset = 0

theorem LinesAhead.seek (hrange : CharRange rope range_start range_end) {reversed : Bool} {self : Lines}
    {lines : List Str} (h : LinesAhead rope range_start range_end reversed self lines) {offset : Nat}
    (hboundary : Boundary rope.text (clamp range_start range_end offset)) (hsafe : self.SeekSafe offset) :
    ∃ self' lines', self.seek offset = some self' ∧ LinesAhead rope range_start range_end reversed self' lines' ∧
      LinesFrom rope range_start range_end reversed (clamp range_start range_end offset) lines' := by
  obtain ⟨hdirection, text, hahead, -⟩ := h
  have hle := hrange.le
  cases reversed with
  | false =>
    obtain ⟨⟨place, hreading⟩, -⟩ := hahead
    obtain ⟨chunks, place', hseek, hreading', hoffset⟩ := hreading.seek hrange offset hboundary
    obtain ⟨text', hspans⟩ := Spans.exists hreading'.le_end hreading'.boundary hrange.end_boundary
    refine ⟨{ self with chunks, current_line := [], done := false }, segments false text', by rw [Lines.seek, hseek]; rfl,
      ⟨hdirection, text', ⟨⟨place', hreading'⟩, hspans⟩, rfl⟩, text', ?_, rfl⟩
    rw [← hoffset]
    exact hspans
  | true =>
    obtain ⟨hreading, -⟩ := hahead
    obtain ⟨chunks, hseek, hreading', hoffset⟩ := hreading.seek hrange offset hboundary fun hnone => by
      rw [← hreading.start_eq, ← hreading.end_eq]
      exact hsafe hdirection hnone
    obtain ⟨text', hspans⟩ := Spans.exists hreading'.start_le hrange.start_boundary hreading'.boundary
    refine ⟨{ self with chunks, current_line := [], done := false }, segments true text', by rw [Lines.seek, hseek]; rfl,
      ⟨hdirection, text', ⟨hreading', hspans⟩, rfl⟩, text', ?_, rfl⟩
    rw [← hoffset]
    exact hspans

inductive Call
  | next
  | seek (offset : Nat)

/-- In a run of calls, as long as the seeks meet a condition, `next` returns the lines ahead one after another, and a
    seek to a character boundary leads to the lines from there. -/
def Exact (condition : Lines → Nat → Prop) (rope : ChunkTree) (range_start range_end : Nat) (reversed : Bool) :
    List Str → Lines → List Call → Prop
  | _, _, [] => True
  | lines, self, .next :: calls =>
    ∃ self', self.next = some (lines.head?, self') ∧
      Exact condition rope range_start range_end reversed lines.tail self' calls
  | _, self, .seek offset :: calls =>
    Boundary rope.text (clamp range_start range_end offset) → condition self offset →
      ∃ self' lines', self.seek offset = some self' ∧
        LinesFrom rope range_start range_end reversed (clamp range_start range_end offset) lines' ∧
        Exact condition rope range_start range_end reversed lines' self' calls

theorem LinesAhead.exact (hrange : CharRange rope range_start range_end) {reversed : Bool} {self : Lines}
    {lines : List Str} (h : LinesAhead rope range_start range_end reversed self lines) (calls : List Call) :
    Exact SeekSafe rope range_start range_end reversed lines self calls := by
  induction calls generalizing self lines with
  | nil => exact trivial
  | cons call calls ih =>
    cases call with
    | next =>
      obtain ⟨self', hnext, hlines⟩ := h.next hrange
      exact ⟨self', hnext, ih hlines⟩
    | seek offset =>
      intro hboundary hsafe
      obtain ⟨self', lines', hseek, hlines, hfrom⟩ := h.seek hrange hboundary hsafe
      exact ⟨self', lines', hseek, hfrom, ih hlines⟩

theorem new_lines (hrange : CharRange rope range_start range_end) (reversed : Bool) :
    ∃ chunks text, Chunks.new rope range_start range_end reversed = some chunks ∧
      Spans rope.text range_start range_end text ∧
      LinesAhead rope range_start range_end reversed chunks.lines (segments reversed text) := by
  obtain ⟨text, hspans⟩ := Spans.exists hrange.le hrange.start_boundary hrange.end_boundary
  cases reversed with
  | false =>
    obtain ⟨chunks, place, hnew, hreading, hoffset⟩ := Chunks.new_reading hrange
    exact ⟨chunks, text, hnew, hspans, hreading.forward, text, ⟨⟨place, hreading⟩, hoffset.symm ▸ hspans⟩, rfl⟩
  | true =>
    obtain ⟨chunks, hnew, hreading, hoffset⟩ := Chunks.new_reading_back hrange
    exact ⟨chunks, text, hnew, hspans, hreading.backward, text, ⟨hreading, hoffset.symm ▸ hspans⟩, rfl⟩

end Lines

end zed.rope
