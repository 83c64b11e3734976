import Zed.Rope.Bytes
import Zed.Rope.LineMotion

namespace zed.rope

open sum_tree (Bias)
open sum_tree.Node.Cursor (seek_internal seek_loop backward)

/-- Lines come one after another in both directions as long as no reader that has stepped before the first chunk is
    sought to an offset past the start; bytes always do. -/
theorem readers_exact (rope : ChunkTree) (range_start range_end : Nat) (hle : range_start ≤ range_end)
    (hle_len : range_end ≤ byteLen rope.text) (reversed : Bool) :
    (CharRange rope range_start range_end →
      ∃ chunks text, Chunks.new rope range_start range_end reversed = some chunks ∧
        Spans rope.text range_start range_end text ∧
        ∀ calls, Lines.Exact Lines.SeekSafe rope range_start range_end reversed (segments reversed text) chunks.lines
          calls) ∧
      ∃ bytes, Bytes.new rope range_start range_end reversed = some bytes ∧
        ∀ sizes, Bytes.Delivers
          (if reversed then (between (utf8 rope.text) range_start range_end).reverse
            else between (utf8 rope.text) range_start range_end) bytes sizes := by
  constructor
  · intro hrange
    obtain ⟨chunks, text, hnew, hspans, hlines⟩ := Lines.new_lines hrange reversed
    exact ⟨chunks, text, hnew, hspans, fun calls => hlines.exact hrange calls⟩
  · obtain ⟨bytes, hnew, hreading, hstart, hend, hreversed⟩ := Bytes.new_reading hle hle_len reversed
    refine ⟨bytes, hnew, fun sizes => ?_⟩
    have hdelivers := hreading.delivers sizes
    rw [Bytes.remaining, hstart, hend, hreversed] at hdelivers
    exact hdelivers

section OneChunk

variable {chunk : Chunk} {h : chunk.Valid ∧ chunk.text ≠ []}

def ChunkTree.cursor (rope : ChunkTree) (at_chunk at_end : Bool) : sum_tree.Node.Cursor Chunk ChunkSummary :=
  { tree := rope.chunks.node
    stack := if at_chunk then [{ tree := rope.chunks.node, index := 0, position := 0 }] else []
    position := 0
    did_seek := true
    at_end }

theorem ChunkTree.seek_of_chunk {offset : Nat} (hoffset : offset ≤ byteLen chunk.text) :
    ((sum_tree.Node.Cursor.new (of_chunk chunk h).chunks.node).seek ChunkSummary.len offset Bias.Left).map Prod.snd =
      some ((of_chunk chunk h).cursor true false) := by
  have hpass : sum_tree.Node.Cursor.pass ChunkSummary.len offset Bias.Left 0
      [(sum_tree.Item.summary chunk : ChunkSummary)] = (0, 0) := by
    have hlength : (sum_tree.Item.summary chunk : ChunkSummary).len = byteLen chunk.text := chunk_len chunk
    rw [sum_tree.Node.Cursor.pass, hlength, Bias.passes, if_neg (by simpa using hoffset)]
  simp only [sum_tree.Node.Cursor.seek, seek_internal, sum_tree.Node.Cursor.reset, sum_tree.Node.Cursor.new, of_chunk,
    Nat.zero_le, Bool.false_eq_true, if_false, seek_loop, List.drop_zero, hpass, Nat.add_zero, List.length_singleton,
    Nat.zero_lt_one, if_true]
  rfl

theorem ChunkTree.prev_of_chunk :
    ((of_chunk chunk h).cursor true false).prev ChunkSummary.len = (of_chunk chunk h).cursor false false := by
  simp [cursor, of_chunk, sum_tree.Node.Cursor.prev, sum_tree.Node.Cursor.search_backward, backward]

theorem ChunkTree.seek_forward_of_chunk {offset : Nat} :
    (((of_chunk chunk h).cursor false false).seek_forward ChunkSummary.len offset Bias.Left).map Prod.snd =
      some ((of_chunk chunk h).cursor false true) := by
  simp only [sum_tree.Node.Cursor.seek_forward, seek_internal, cursor, Nat.zero_le, Bool.false_eq_true, if_false, if_true,
    seek_loop]
  rfl

/-- A reader of lines that goes back over a rope of one chunk. -/
def ChunkTree.lines (rope : ChunkTree) (at_chunk at_end : Bool) (offset : Nat) (current_line : Str) (done : Bool) : Lines :=
  { chunks :=
      { chunks := rope.cursor at_chunk at_end
        range_start := 0
        range_end := byteLen rope.text
        offset
        reversed := true }
    current_line
    done
    reversed := true }

theorem ChunkTree.lines_lost (hline : '\n' ∉ chunk.text) :
    ∃ chunks line_read lost after, Chunks.new (of_chunk chunk h) 0 (byteLen (of_chunk chunk h).text) true = some chunks ∧
      chunks.lines.next = some (some chunk.text, line_read) ∧ line_read.next = some (none, line_read) ∧
      line_read.seek (byteLen (of_chunk chunk h).text) = some lost ∧ lost.next = some (some [], after) := by
  have htext := of_chunk_text chunk h
  have hpos := byteLen_pos h.2
  obtain ⟨⟨hit, cursor⟩, hseek, hcursor⟩ := Option.map_eq_some_iff.mp (@seek_of_chunk chunk h _ (Nat.le_refl _))
  obtain ⟨⟨hit', cursor'⟩, hforward, hcursor'⟩ :=
    Option.map_eq_some_iff.mp (@seek_forward_of_chunk chunk h (byteLen chunk.text))
  dsimp only at hcursor hcursor'
  rw [hcursor] at hseek
  rw [hcursor'] at hforward
  have hboundary := is_char_boundary_of_split h.1 (List.append_nil chunk.text).symm
  have hpeek : ((of_chunk chunk h).lines true false (byteLen chunk.text) [] false).chunks.peek =
      some (some chunk.text) := by
    have hslice := str.slice_middle [] chunk.text []
    rw [byteLen_nil, Nat.zero_add, List.nil_append, List.append_nil] at hslice
    have hvalid : ((of_chunk chunk h).lines true false (byteLen chunk.text) [] false).chunks.offset_is_valid = true := by
      simp [Chunks.offset_is_valid, lines, htext, hpos.ne']
    rw [Chunks.peek, if_pos hvalid]
    change (str.slice chunk.text 0 (byteLen chunk.text)).map some = _
    rw [hslice]
    rfl
  have hpast : ∀ at_end current_line done,
      ((of_chunk chunk h).lines false at_end 0 current_line done).chunks.peek = some none := fun _ _ _ => rfl
  have hlost : ((of_chunk chunk h).lines false true (byteLen chunk.text) [] false).chunks.peek = some none := by
    rw [Chunks.peek]
    split <;> rfl
  have hsplit := List.splitOn_eq_singleton hline
  refine ⟨((of_chunk chunk h).lines true false (byteLen chunk.text) [] false).chunks,
    (of_chunk chunk h).lines false false 0 chunk.text true,
    (of_chunk chunk h).lines false true (byteLen chunk.text) [] false,
    (of_chunk chunk h).lines false true (byteLen chunk.text) [] true, ?_, ?_, rfl, ?_, ?_⟩
  · rw [Chunks.new, htext]
    simp only [if_true, hseek, Option.bind_eq_bind, Option.bind_some]
    change (if chunk.is_char_boundary (byteLen chunk.text) = true then _ else none) = _
    rw [if_pos hboundary]
    rw [lines, htext]
  · have hloop : Lines.next_loop true (byteLen chunk.text + 1)
        ((of_chunk chunk h).lines true false (byteLen chunk.text) [] false).chunks [] =
        some (chunk.text, (of_chunk chunk h).lines false false 0 chunk.text true) := by
      obtain ⟨rounds, hrounds⟩ := Nat.exists_eq_add_one.mpr hpos
      have hnext : ((of_chunk chunk h).lines true false (byteLen chunk.text) [] false).chunks.next =
          some (some chunk.text, ((of_chunk chunk h).lines false false 0 [] false).chunks) := by
        rw [Chunks.next, hpeek, Option.bind_eq_bind, Option.bind_some]
        change some (some chunk.text, Chunks.mk (if byteLen chunk.text - byteLen chunk.text ≤ 0 then
          ((of_chunk chunk h).cursor true false).prev ChunkSummary.len else _) 0 (byteLen (of_chunk chunk h).text)
          (byteLen chunk.text - byteLen chunk.text) true) = _
        rw [Nat.sub_self, if_pos (Nat.le_refl 0), prev_of_chunk]
        rfl
      have hgone := hpast false [] false
      rw [Lines.next_loop, hpeek, Option.bind_eq_bind, Option.bind_some]
      simp only [hsplit, if_true, List.reverse_singleton, List.isEmpty_nil, hnext, Option.bind_eq_bind, Option.bind_some,
        List.append_nil]
      rw [hrounds, Lines.next_loop, hgone]
      rfl
    rw [Lines.next, if_neg (by exact Bool.false_ne_true)]
    change (Lines.next_loop true (byteLen (of_chunk chunk h).text - 0 + 1) _ []).map _ = _
    rw [htext, Nat.sub_zero]
    exact congrArg (Option.map _) hloop
  · have hseek' : ((of_chunk chunk h).lines false false 0 chunk.text true).chunks.seek (byteLen chunk.text) =
        some ((of_chunk chunk h).lines false true (byteLen chunk.text) [] false).chunks := by
      have hclamp : min (max (byteLen chunk.text) 0) (byteLen (of_chunk chunk h).text) = byteLen chunk.text := by
        rw [htext]
        omega
      simp only [Chunks.seek, lines, Nat.zero_le, if_true, hclamp]
      rw [if_pos (show byteLen chunk.text > ((of_chunk chunk h).cursor false false).stop ChunkSummary.len from hpos),
        hforward]
      rfl
    rw [Lines.seek, htext, hseek']
    rfl
  · rw [Lines.next, if_neg (by exact Bool.false_ne_true)]
    change (Lines.next_loop true _ _ []).map _ = _
    rw [Lines.next_loop, hlost]
    rfl

end OneChunk

/-- There is a rope of the text `"a"` for the readers. -/
theorem readers_exact_sample : ∃ rope : ChunkTree, rope.text = ['a'] ∧
    ∃ bytes, Bytes.new rope 0 1 true = some bytes ∧ Bytes.Delivers [97] bytes [1, 1] := by
  obtain ⟨chunk, hnew, htext⟩ : ∃ chunk, Chunk.new ['a'] = some chunk ∧ chunk.text = ['a'] := ⟨_, rfl, rfl⟩
  have hchunk : chunk.Valid ∧ chunk.text ≠ [] := ⟨ChunkSlice.new_valid hnew, by rw [htext]; exact List.cons_ne_nil _ _⟩
  have hrope : (ChunkTree.of_chunk chunk hchunk).text = ['a'] := (ChunkTree.of_chunk_text chunk hchunk).trans htext
  obtain ⟨-, bytes, hbytes, hdelivers⟩ :=
    readers_exact (ChunkTree.of_chunk chunk hchunk) 0 1 (by decide) (by rw [hrope]; decide) true
  refine ⟨_, hrope, bytes, hbytes, ?_⟩
  have hall := hdelivers [1, 1]
  rw [hrope] at hall
  exact hall

/-- Once the lines of `"a"` have been read backwards, a seek to its end leads to an empty line. -/
theorem reversed_lines_lost : ∃ rope : ChunkTree, CharRange rope 0 1 ∧
    ∃ chunks, Chunks.new rope 0 1 true = some chunks ∧ Spans rope.text 0 1 ['a'] ∧
      ¬ Lines.Exact (fun _ _ => True) rope 0 1 true (segments true ['a']) chunks.lines
        [.next, .next, .seek 1, .next] := by
  obtain ⟨chunk, hnew, htext⟩ : ∃ chunk, Chunk.new ['a'] = some chunk ∧ chunk.text = ['a'] := ⟨_, rfl, rfl⟩
  have hchunk : chunk.Valid ∧ chunk.text ≠ [] := ⟨ChunkSlice.new_valid hnew, by rw [htext]; exact List.cons_ne_nil _ _⟩
  have hrope : (ChunkTree.of_chunk chunk hchunk).text = ['a'] := (ChunkTree.of_chunk_text chunk hchunk).trans htext
  have hend : Boundary (ChunkTree.of_chunk chunk hchunk).text 1 := ⟨['a'], [], hrope, rfl⟩
  have hrange : CharRange (ChunkTree.of_chunk chunk hchunk) 0 1 := ⟨by decide, ⟨[], _, hrope, rfl⟩, hend⟩
  obtain ⟨chunks, line_read, lost, after, hchunks, hread, hdone, hseek, hlost⟩ :=
    @ChunkTree.lines_lost chunk hchunk (by rw [htext]; decide)
  rw [hrope] at hchunks hseek
  rw [htext] at hread
  refine ⟨_, hrange, chunks, hchunks, ⟨[], [], hrope, rfl, rfl⟩, ?_⟩
  rintro ⟨self₁, hself₁, self₂, hself₂, hsought⟩
  have hself₁' := (Prod.mk.inj (Option.some.inj (hread.symm.trans hself₁))).2
  rw [← hself₁', hdone] at hself₂
  have hself₂' := (Prod.mk.inj (Option.some.inj hself₂)).2
  obtain ⟨self₃, lines, hself₃, ⟨text, ⟨before, rest, hbefore, hstart, hstop⟩, rfl⟩, self₄, hself₄, -⟩ :=
    hsought hend trivial
  rw [← hself₂', show (1 : Nat) = byteLen ['a'] from rfl, hseek] at hself₃
  rw [← Option.some.inj hself₃, hlost] at hself₄
  obtain rfl := eq_nil_of_byteLen hstart
  rw [hrope, List.nil_append] at hbefore
  obtain ⟨rfl, -⟩ := append_inj_of_byteLen hbefore.symm (show byteLen text = byteLen ['a'] by
    rw [← Nat.zero_add (byteLen text), hstop]
    rfl)
  have hlines : segments true ['a'] = [['a']] := segments_single (by decide)
  rw [hlines] at hself₄
  cases hself₄

end zed.rope
