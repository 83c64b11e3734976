import Zed.Rope.Reading

namespace zed.rope

open sum_tree (Bias)
open sum_tree.Node.Cursor (Located Before)

theorem slice_left {rope : ChunkTree} {place : sum_tree.Cursor Chunk} (h : place.passed ++ place.rest = rope.chunks.items)
    {target : Nat} (hstart : place.start chunkLen < target) (htarget : target ≤ byteLen rope.text) :
    (place.slice chunkLen target .Left).2.start chunkLen < target ∧
      target ≤ (place.slice chunkLen target .Left).2.stop chunkLen := by
  have hitems := (sum_tree.Node.Cursor.slice_items chunkLen target .Left place).trans h
  have hstop := @slice_stop place target .Left
  have hstart' : (place.slice chunkLen target .Left).2.start chunkLen < target := by
    rcases slice_start place target .Left with hsame | hpasses
    · exact hsame.trans_lt hstart
    · simpa [Bias.passes] using hpasses
  generalize (place.slice chunkLen target .Left).2 = place' at hitems hstop hstart' ⊢
  refine ⟨hstart', ?_⟩
  cases hcase : place'.rest with
  | nil =>
    have hend := text_at_end hitems hcase
    omega
  | cons chunk rest => simpa [Bias.passes] using hstop hcase

namespace Chunks

/-- A reader that goes backwards through a range: its offset is in the chunk that its cursor is at, or it has
    reached the start of the range, where the cursor may be before the first chunk. -/
structure ReadingBack (rope : ChunkTree) (range_start range_end : Nat) (reader : Chunks) : Prop where
  start_eq : reader.range_start = range_start
  end_eq : reader.range_end = range_end
  backward : reader.reversed = true
  start_le : range_start ≤ reader.offset
  le_end : reader.offset ≤ range_end
  boundary : Boundary rope.text reader.offset
  placed : (∃ place, Located ChunkSummary.len rope.chunks reader.chunks place ∧
      (reader.offset = range_start ∨ place.start chunkLen < reader.offset ∧ reader.offset ≤ place.stop chunkLen)) ∨
    Before rope.chunks reader.chunks ∧ reader.offset = range_start ∧ range_start = 0

variable {rope : ChunkTree} {range_start range_end : Nat} {self : Chunks}

theorem ReadingBack.valid (h : ReadingBack rope range_start range_end self) :
    self.offset_is_valid = decide (range_start < self.offset) := by
  have hend := h.le_end
  rw [offset_is_valid, h.backward, h.start_eq, h.end_eq, Bool.eq_iff_iff]
  simp only [if_true, Bool.not_eq_true', Bool.or_eq_false_iff, decide_eq_false_iff_not, decide_eq_true_eq]
  omega

theorem ReadingBack.chunk (h : ReadingBack rope range_start range_end self) (hlt : range_start < self.offset) :
    ∃ place chunk rest left right, Located ChunkSummary.len rope.chunks self.chunks place ∧
      place.rest = chunk :: rest ∧ chunk.text = left ++ right ∧ left ≠ [] ∧
      rope.text = textOf place.passed ++ chunk.text ++ textOf rest ∧
      byteLen (textOf place.passed) + byteLen left = self.offset := by
  obtain ⟨place, hlocated, hplace⟩ := h.placed.resolve_right fun hbefore => by omega
  obtain ⟨hstart, hstop⟩ := hplace.resolve_left fun heq => by omega
  rw [place_start] at hstart
  cases hrest : place.rest with
  | nil =>
    rw [place_stop_nil hrest] at hstop
    omega
  | cons chunk rest =>
    have htext := text_of_chunk hlocated.items hrest
    have hboundary := h.boundary
    rw [place_stop hrest] at hstop
    rw [htext] at hboundary
    obtain ⟨left, right, hsplit, hleft⟩ := hboundary.split hstart.le hstop
    refine ⟨place, chunk, rest, left, right, hlocated, hrest, hsplit, ?_, htext, hleft⟩
    rintro rfl
    rw [byteLen_nil] at hleft
    omega

theorem ReadingBack.peek (hrange : CharRange rope range_start range_end)
    (h : ReadingBack rope range_start range_end self) (hlt : range_start < self.offset) :
    ∃ place before chunk after, Located ChunkSummary.len rope.chunks self.chunks place ∧ place.rest ≠ [] ∧
      rope.text = before ++ chunk ++ after ∧ byteLen before = max (place.start chunkLen) range_start ∧
      byteLen before + byteLen chunk = self.offset ∧ chunk ≠ [] ∧ self.peek = some (some chunk) := by
  obtain ⟨place, chunk, rest, left, right, hlocated, hrest, hsplit, hne, htext, hleft⟩ := h.chunk hlt
  have hitem : self.chunks.item = some chunk := by
    rw [hlocated.item, sum_tree.Cursor.item, hrest]
    rfl
  have hstart : self.chunks.start = byteLen (textOf place.passed) := hlocated.position.trans (place_start place)
  have hpeek : self.peek = (str.slice chunk.text
      (max (byteLen (textOf place.passed)) range_start - byteLen (textOf place.passed)) (byteLen left)).map some := by
    have hnot : ¬ self.offset < byteLen (textOf place.passed) := by omega
    have hoffset : self.offset - byteLen (textOf place.passed) = byteLen left := by omega
    rw [Chunks.peek, h.valid, if_pos (by simpa using hlt), hitem]
    simp only [hstart, if_neg hnot, h.backward, if_true, h.start_eq, hoffset]
  refine ⟨place, ?_⟩
  rw [place_start, hpeek]
  rcases Nat.le_total range_start (byteLen (textOf place.passed)) with hwhole | hcut
  · refine ⟨textOf place.passed, left, right ++ textOf rest, hlocated, by rw [hrest]; exact List.cons_ne_nil _ _, ?_,
      (max_eq_left hwhole).symm, hleft, hne, ?_⟩
    · rw [htext, hsplit]
      simp
    · have hslice := str.slice_middle [] left right
      rw [byteLen_nil, Nat.zero_add, List.nil_append] at hslice
      rw [max_eq_left hwhole, Nat.sub_self, hsplit, hslice]
      rfl
  · have hboundary := hrange.start_boundary
    rw [htext] at hboundary
    have hlength : byteLen left ≤ byteLen chunk.text := by
      rw [hsplit, byteLen_append]
      exact Nat.le_add_right _ _
    obtain ⟨skipped, after, hsplit', hskipped⟩ := hboundary.split hcut (by omega)
    obtain ⟨middle, rfl⟩ := prefix_of_length_le (hsplit'.symm.trans hsplit)
      (show byteLen skipped ≤ byteLen left by omega)
    rw [byteLen_append] at hleft
    refine ⟨textOf place.passed ++ skipped, middle, right ++ textOf rest, hlocated,
      by rw [hrest]; exact List.cons_ne_nil _ _, ?_, ?_, ?_, ?_, ?_⟩
    · rw [htext, hsplit]
      simp
    · rw [byteLen_append, hskipped, max_eq_right hcut]
    · rw [byteLen_append]
      omega
    · rintro rfl
      rw [byteLen_nil] at hleft
      omega
    · have hstart' : range_start - byteLen (textOf place.passed) = byteLen skipped := by omega
      rw [max_eq_right hcut, hstart', hsplit, byteLen_append, str.slice_middle skipped middle right]
      rfl

theorem ReadingBack.peek_start (h : ReadingBack rope range_start range_end self) (hstart : self.offset = range_start) :
    self.peek = some none := by
  rw [Chunks.peek, h.valid, if_neg (by simp [hstart])]

theorem prev_placed {cursor : sum_tree.Node.Cursor Chunk ChunkSummary} {place : sum_tree.Cursor Chunk}
    (h : Located ChunkSummary.len rope.chunks cursor place) (hne : place.rest ≠ []) :
    (∃ place', Located ChunkSummary.len rope.chunks (cursor.prev ChunkSummary.len) place' ∧
        place'.start chunkLen < place.start chunkLen ∧ place.start chunkLen ≤ place'.stop chunkLen) ∨
      Before rope.chunks (cursor.prev ChunkSummary.len) ∧ place.start chunkLen = 0 := by
  have hback := sum_tree.Node.Cursor.search_backward_located len_additive sum_tree.LetsThrough.all h
  have hitems := h.items
  obtain ⟨passed, rest⟩ := place
  rcases List.eq_nil_or_concat' passed with rfl | ⟨passed, last, rfl⟩
  · right
    refine ⟨hback.resolve_left ?_, rfl⟩
    rintro ⟨hnone, -⟩
    rw [hnone, List.nil_append] at hitems
    exact hne hitems
  · left
    rw [sum_tree.Cursor.search_backward_concat] at hback
    have hpos := byteLen_pos (rope.valid last (by rw [← hitems]; simp)).2
    refine ⟨⟨passed, last :: rest⟩, hback, ?_, ?_⟩
    · rw [place_start, place_start, textOf_concat]
      exact Nat.lt_add_of_pos_right hpos
    · rw [place_start, textOf_concat, place_stop rfl]

/-- `next` returns what `peek` does and moves back over it. -/
theorem ReadingBack.next (hrange : CharRange rope range_start range_end)
    (h : ReadingBack rope range_start range_end self) (hlt : range_start < self.offset) :
    ∃ before chunk after self', rope.text = before ++ chunk ++ after ∧
      byteLen before + byteLen chunk = self.offset ∧ chunk ≠ [] ∧ self.peek = some (some chunk) ∧
      self.next = some (some chunk, self') ∧ ReadingBack rope range_start range_end self' ∧
      self'.offset = byteLen before := by
  obtain ⟨place, before, chunk, after, hlocated, hne, htext, hbefore, hlength, hchunk, hpeek⟩ := h.peek hrange hlt
  have hstart : self.chunks.start = place.start chunkLen := hlocated.position
  have hoffset : self.offset - byteLen chunk = byteLen before := by omega
  have hnext : self.next = some (some chunk,
      { self with
        offset := byteLen before
        chunks :=
          if byteLen before ≤ place.start chunkLen then self.chunks.prev ChunkSummary.len else self.chunks }) := by
    rw [Chunks.next, hpeek]
    simp only [Option.bind_eq_bind, Option.bind_some, h.backward, if_true, hstart]
    rw [show self.offset - (utf8 chunk).length = byteLen before from hoffset]
  refine ⟨before, chunk, after, _, htext, hlength, hchunk, hpeek, hnext, ?_, rfl⟩
  have hend := h.le_end
  have hboundary : Boundary rope.text (byteLen before) := ⟨before, chunk ++ after, by rw [htext, List.append_assoc], rfl⟩
  refine ⟨h.start_eq, h.end_eq, h.backward, by change range_start ≤ byteLen before; omega,
    by change byteLen before ≤ range_end; omega, hboundary, ?_⟩
  split
  · rename_i hpast
    have hsame : byteLen before = place.start chunkLen := by omega
    rcases prev_placed hlocated hne with ⟨place', hlocated', hstart', hstop'⟩ | ⟨hfirst, hzero⟩
    · exact Or.inl ⟨place', hlocated', Or.inr ⟨hsame.trans_gt hstart', hsame.trans_le hstop'⟩⟩
    · refine Or.inr ⟨hfirst, ?_, by omega⟩
      change byteLen before = range_start
      omega
  · refine Or.inl ⟨place, hlocated, Or.inl ?_⟩
    change byteLen before = range_start
    omega

theorem ReadingBack.of_seek (hrange : CharRange rope range_start range_end)
    (cursor : sum_tree.Node.Cursor Chunk ChunkSummary) (hroot : cursor.tree = rope.chunks.node) {offset : Nat}
    (hstart_le : range_start ≤ offset) (hle_end : offset ≤ range_end) (hboundary : Boundary rope.text offset) :
    ∃ hit chunks, cursor.seek ChunkSummary.len offset Bias.Left = some (hit, chunks) ∧
      ReadingBack rope range_start range_end { chunks, range_start, range_end, offset, reversed := true } := by
  obtain ⟨hit, chunks, hseek, hlocated⟩ := sum_tree.Node.Cursor.seek_located len_additive offset Bias.Left hroot
  refine ⟨hit, chunks, hseek, rfl, rfl, rfl, hstart_le, hle_end, hboundary, Or.inl ⟨_, hlocated, ?_⟩⟩
  rcases Nat.eq_zero_or_pos offset with rfl | hpos
  · exact Or.inl (Nat.le_zero.mp hstart_le).symm
  · exact Or.inr (@slice_left rope (sum_tree.Cursor.new rope.chunks.items) rfl offset hpos hboundary.le)

theorem new_reading_back (hrange : CharRange rope range_start range_end) :
    ∃ self, Chunks.new rope range_start range_end true = some self ∧
      ReadingBack rope range_start range_end self ∧ self.offset = range_end := by
  obtain ⟨hit, chunks, hseek, hlocated⟩ := @sum_tree.Node.Cursor.seek_located _ _ _ _ ChunkSummary.len rope.chunks
    (sum_tree.Node.Cursor.new rope.chunks.node) len_additive range_end Bias.Left rfl
  obtain ⟨hit', chunks', hseek', hreading⟩ := ReadingBack.of_seek hrange (sum_tree.Node.Cursor.new rope.chunks.node) rfl
    hrange.le (Nat.le_refl _) hrange.end_boundary
  obtain ⟨rfl, rfl⟩ : hit = hit' ∧ chunks = chunks' := by simpa using hseek.symm.trans hseek'
  refine ⟨_, ?_, hreading, rfl⟩
  rw [Chunks.new]
  simp only [if_true, hseek, Option.bind_eq_bind, Option.bind_some, hlocated.item]
  cases hrest : ((sum_tree.Cursor.new rope.chunks.items).slice chunkLen range_end Bias.Left).2.rest with
  | nil => rw [sum_tree.Cursor.item, hrest]; rfl
  | cons chunk rest =>
    have hend : ((sum_tree.Cursor.new rope.chunks.items).slice chunkLen range_end Bias.Left).2.start chunkLen ≤ range_end ∧
        range_end ≤ ((sum_tree.Cursor.new rope.chunks.items).slice chunkLen range_end Bias.Left).2.stop chunkLen := by
      rcases Nat.eq_zero_or_pos range_end with hzero | hpos
      · refine ⟨?_, by omega⟩
        rcases slice_start (sum_tree.Cursor.new rope.chunks.items) range_end .Left with hsame | hpasses
        · exact hsame.trans_le (Nat.zero_le _)
        · rw [Bias.passes, decide_eq_true_eq] at hpasses
          omega
      · have hslice := @slice_left rope (sum_tree.Cursor.new rope.chunks.items) rfl range_end hpos hrange.end_boundary.le
        exact ⟨hslice.1.le, hslice.2⟩
    have hboundary := chunk_boundary hlocated.items hrest hrange.end_boundary hend.1 hend.2
    rw [sum_tree.Cursor.item, hrest, sum_tree.Node.Cursor.start, hlocated.position]
    exact if_pos hboundary

theorem ReadingBack.seek (hrange : CharRange rope range_start range_end)
    (h : ReadingBack rope range_start range_end self) (offset : Nat)
    (hboundary : Boundary rope.text (clamp range_start range_end offset))
    (hsafe : self.chunks.item = none → clamp range_start range_end offset = 0) :
    ∃ self', self.seek offset = some self' ∧ ReadingBack rope range_start range_end self' ∧
      self'.offset = clamp range_start range_end offset := by
  have hle := hrange.le
  have hstart_le : range_start ≤ clamp range_start range_end offset := by rw [clamp]; omega
  have hle_end : clamp range_start range_end offset ≤ range_end := by rw [clamp]; omega
  have hroot : self.chunks.tree = rope.chunks.node := by
    rcases h.placed with ⟨place, hlocated, -⟩ | ⟨hbefore, -⟩
    · exact hlocated.root
    · exact hbefore.root
  obtain ⟨hit, fresh, hfresh, hfresh'⟩ := ReadingBack.of_seek hrange self.chunks hroot hstart_le hle_end hboundary
  have hseek : self.seek offset = (if clamp range_start range_end offset > self.chunks.stop ChunkSummary.len then
        self.chunks.seek_forward ChunkSummary.len (clamp range_start range_end offset) Bias.Left
      else if clamp range_start range_end offset ≤ self.chunks.start then
        self.chunks.seek ChunkSummary.len (clamp range_start range_end offset) Bias.Left
      else some (false, self.chunks)).map fun result =>
        { self with chunks := result.2, offset := clamp range_start range_end offset } := by
    rw [Chunks.seek, h.start_eq, h.end_eq, if_pos hle]
    simp only [h.backward, if_true, Option.bind_eq_bind]
    rw [apply_ite (Option.map _), apply_ite (Option.map _), Option.map_eq_bind, Option.map_eq_bind, clamp]
    rfl
  generalize clamp range_start range_end offset = target at hboundary hsafe hstart_le hle_end hfresh hfresh' hseek ⊢
  have hself : ∀ chunks, ({ self with chunks, offset := target } : Chunks) =
      { chunks, range_start, range_end, offset := target, reversed := true } := by
    intro chunks
    rw [← h.start_eq, ← h.end_eq, ← h.backward]
  rw [hseek]
  rcases h.placed with ⟨place, hlocated, -⟩ | ⟨hbefore, -⟩
  · rw [hlocated.stop, sum_tree.Node.Cursor.start, hlocated.position]
    split
    · rename_i hpast
      have hstart : place.start chunkLen < target := (Nat.le_add_right _ _).trans_lt hpast
      obtain ⟨hit', chunks, hseek', hlocated'⟩ :=
        @sum_tree.Node.Cursor.seek_internal_located _ _ _ _ _ _ _ _ len_additive target .Left hlocated hstart.le
      refine ⟨{ self with chunks, offset := target }, by rw [sum_tree.Node.Cursor.seek_forward, hseek']; rfl, ?_, rfl⟩
      rw [hself]
      exact ⟨rfl, rfl, rfl, hstart_le, hle_end, hboundary,
        Or.inl ⟨_, hlocated', Or.inr (slice_left hlocated.items hstart hboundary.le)⟩⟩
    · rename_i hstop
      split
      · exact ⟨{ self with chunks := fresh, offset := target }, by rw [hfresh]; rfl, by rw [hself]; exact hfresh', rfl⟩
      · rename_i hstart
        refine ⟨{ self with offset := target }, rfl, ?_, rfl⟩
        exact ⟨h.start_eq, h.end_eq, h.backward, hstart_le, hle_end, hboundary,
          Or.inl ⟨place, hlocated, Or.inr ⟨Nat.not_le.mp hstart, Nat.not_lt.mp hstop⟩⟩⟩
  · obtain rfl := hsafe hbefore.item
    rw [if_neg (Nat.not_lt_zero _), if_pos (Nat.zero_le _), hfresh]
    exact ⟨{ self with chunks := fresh, offset := 0 }, rfl, by rw [hself]; exact hfresh', rfl⟩

end Chunks

end zed.rope
