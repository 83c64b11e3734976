import Zed.Rope.Chunks

namespace zed.rope

open sum_tree (Bias)
open sum_tree.Node.Cursor (Located)

/-- A range of a rope whose ends are character boundaries. -/
structure CharRange (rope : ChunkTree) (range_start range_end : Nat) : Prop where
  le : range_start ≤ range_end
  start_boundary : Boundary rope.text range_start
  end_boundary : Boundary rope.text range_end

def clamp (range_start range_end offset : Nat) : Nat := min (max offset range_start) range_end

namespace Chunks

/-- A reader that goes forwards through a range: its offset is in the chunk that its cursor is at, unless it
    has reached the end of the range. -/
structure Reading (rope : ChunkTree) (range_start range_end : Nat) (reader : Chunks)
    (place : sum_tree.Cursor Chunk) : Prop where
  located : Located ChunkSummary.len rope.chunks reader.chunks place
  start_eq : reader.range_start = range_start
  end_eq : reader.range_end = range_end
  forward : reader.reversed = false
  start_le : range_start ≤ reader.offset
  le_end : reader.offset ≤ range_end
  boundary : Boundary rope.text reader.offset
  place_le : place.start chunkLen ≤ reader.offset
  in_place : reader.offset < place.stop chunkLen ∨ (reader.offset = range_end ∧ reader.offset ≤ place.stop chunkLen)

variable {rope : ChunkTree} {range_start range_end : Nat} {self : Chunks} {place : sum_tree.Cursor Chunk}

theorem Reading.chunk (h : Reading rope range_start range_end self place) (hlt : self.offset < range_end) :
    ∃ chunk rest left right, place.rest = chunk :: rest ∧ chunk.text = left ++ right ∧ right ≠ [] ∧
      rope.text = textOf place.passed ++ chunk.text ++ textOf rest ∧ chunk.Valid ∧
      byteLen (textOf place.passed) + byteLen left = self.offset := by
  have hin : self.offset < place.stop chunkLen := h.in_place.resolve_right fun hend => by omega
  have hstart := h.place_le
  cases hrest : place.rest with
  | nil =>
    rw [place_stop_nil hrest] at hin
    rw [place_start] at hstart
    omega
  | cons chunk rest =>
    have htext := text_of_chunk h.located.items hrest
    rw [place_stop hrest] at hin
    rw [place_start] at hstart
    have hboundary := h.boundary
    rw [htext] at hboundary
    obtain ⟨left, right, hsplit, hleft⟩ := hboundary.split hstart hin.le
    refine ⟨chunk, rest, left, right, rfl, hsplit, ?_, htext, (chunk_valid h.located.items hrest).1, hleft⟩
    rintro rfl
    rw [hsplit, List.append_nil] at hin
    omega

theorem Reading.valid (h : Reading rope range_start range_end self place) :
    self.offset_is_valid = decide (self.offset < range_end) := by
  have hstart := h.start_le
  rw [offset_is_valid, h.forward, h.start_eq, h.end_eq, Bool.eq_iff_iff]
  simp only [Bool.false_eq_true, if_false, Bool.not_eq_true', Bool.or_eq_false_iff, decide_eq_false_iff_not,
    decide_eq_true_eq]
  omega

theorem Reading.peek (hrange : CharRange rope range_start range_end)
    (h : Reading rope range_start range_end self place) (hlt : self.offset < range_end) :
    ∃ before chunk after, rope.text = before ++ chunk ++ after ∧ byteLen before = self.offset ∧ chunk ≠ [] ∧
      self.offset + byteLen chunk = min (place.stop chunkLen) range_end ∧ self.peek = some (some chunk) := by
  obtain ⟨chunk, rest, left, right, hrest, hsplit, hne, htext, -, hleft⟩ := h.chunk hlt
  have hitem : self.chunks.item = some chunk := by
    rw [h.located.item, sum_tree.Cursor.item, hrest]
    rfl
  have hstart : self.chunks.start = byteLen (textOf place.passed) := h.located.position.trans (place_start place)
  have hstop : self.chunks.stop ChunkSummary.len = byteLen (textOf place.passed) + byteLen chunk.text :=
    h.located.stop.trans (place_stop hrest)
  have hpeek : self.peek = (str.slice chunk.text (byteLen left)
      (min (byteLen (textOf place.passed) + byteLen chunk.text) range_end - byteLen (textOf place.passed))).map some := by
    have hnot : ¬ self.offset < self.chunks.start := by omega
    have hoffset : self.offset - byteLen (textOf place.passed) = byteLen left := by omega
    rw [Chunks.peek, h.valid, if_pos (by simpa using hlt), hitem]
    rw [hstart] at hnot
    simp only [if_neg hnot, h.forward, Bool.false_eq_true, if_false, hstart, hstop, h.end_eq, hoffset]
  rw [place_stop hrest, hpeek]
  rcases Nat.le_total (byteLen (textOf place.passed) + byteLen chunk.text) range_end with hwhole | hcut
  · refine ⟨textOf place.passed ++ left, right, textOf rest, ?_, ?_, hne, ?_, ?_⟩
    · rw [htext, hsplit]
      simp
    · rw [byteLen_append, hleft]
    · rw [min_eq_left hwhole, hsplit, byteLen_append]
      omega
    · have hslice := str.slice_middle left right []
      rw [List.append_nil, ← byteLen_append, ← hsplit] at hslice
      rw [min_eq_left hwhole, Nat.add_sub_cancel_left, hslice]
      rfl
  · have hboundary := hrange.end_boundary
    rw [htext] at hboundary
    obtain ⟨upTo, after, hsplit', hupTo⟩ := hboundary.split (by omega) hcut
    obtain ⟨middle, rfl⟩ := prefix_of_length_le (hsplit.symm.trans hsplit')
      (show byteLen left ≤ byteLen upTo by omega)
    rw [byteLen_append] at hupTo
    refine ⟨textOf place.passed ++ left, middle, after ++ textOf rest, ?_, ?_, ?_, ?_, ?_⟩
    · rw [htext, hsplit']
      simp
    · rw [byteLen_append, hleft]
    · rintro rfl
      rw [byteLen_nil] at hupTo
      omega
    · rw [min_eq_right hcut]
      omega
    · have hend : range_end - byteLen (textOf place.passed) = byteLen left + byteLen middle := by omega
      rw [min_eq_right hcut, hend, hsplit', str.slice_middle left middle after]
      rfl

theorem Reading.peek_end (h : Reading rope range_start range_end self place) (hend : self.offset = range_end) :
    self.peek = some none := by
  rw [Chunks.peek, h.valid, if_neg (by simp [hend])]

theorem Reading.of_place (hrange : CharRange rope range_start range_end)
    (hlocated : Located ChunkSummary.len rope.chunks self.chunks place) (hstart_eq : self.range_start = range_start)
    (hend_eq : self.range_end = range_end) (hforward : self.reversed = false) (hstart_le : range_start ≤ self.offset)
    (hle_end : self.offset ≤ range_end) (hboundary : Boundary rope.text self.offset)
    (hplace : place.start chunkLen ≤ self.offset)
    (hin : self.offset < place.stop chunkLen ∨ (self.offset = byteLen rope.text ∧ place.rest = [])) :
    Reading rope range_start range_end self place := by
  refine ⟨hlocated, hstart_eq, hend_eq, hforward, hstart_le, hle_end, hboundary, hplace, hin.imp_right ?_⟩
  rintro ⟨hend, hrest⟩
  have htext : rope.text = textOf place.passed := by
    rw [text_of_items hlocated.items, hrest]
    exact List.append_nil _
  have hle := hrange.end_boundary.le
  rw [place_stop_nil hrest, ← htext]
  exact ⟨by omega, hend.le⟩

theorem Reading.of_seek (hrange : CharRange rope range_start range_end) (cursor : sum_tree.Node.Cursor Chunk ChunkSummary)
    (hroot : cursor.tree = rope.chunks.node) {offset : Nat} (hstart_le : range_start ≤ offset)
    (hle_end : offset ≤ range_end) (hboundary : Boundary rope.text offset) :
    ∃ hit chunks place, cursor.seek ChunkSummary.len offset Bias.Right = some (hit, chunks) ∧
      Reading rope range_start range_end { chunks, range_start, range_end, offset, reversed := false } place := by
  obtain ⟨hit, chunks, hseek, hlocated⟩ :=
    sum_tree.Node.Cursor.seek_located len_additive offset Bias.Right hroot
  obtain ⟨hplace, hin⟩ := @slice_right rope (sum_tree.Cursor.new rope.chunks.items) rfl offset (Nat.zero_le _) hboundary.le
  exact ⟨hit, chunks, _, hseek, .of_place hrange hlocated rfl rfl rfl hstart_le hle_end hboundary hplace hin⟩

theorem new_reading (hrange : CharRange rope range_start range_end) :
    ∃ self place, Chunks.new rope range_start range_end false = some self ∧
      Reading rope range_start range_end self place ∧ self.offset = range_start := by
  obtain ⟨hit, chunks, hseek, hlocated⟩ := @sum_tree.Node.Cursor.seek_located _ _ _ _ ChunkSummary.len rope.chunks
    (sum_tree.Node.Cursor.new rope.chunks.node) len_additive range_start Bias.Right rfl
  obtain ⟨hplace, hin⟩ := @slice_right rope (sum_tree.Cursor.new rope.chunks.items) rfl range_start (Nat.zero_le _)
    hrange.start_boundary.le
  refine ⟨{ chunks, range_start, range_end, offset := range_start, reversed := false }, _, ?_,
    .of_place hrange hlocated rfl rfl rfl (Nat.le_refl _) hrange.le hrange.start_boundary hplace hin, rfl⟩
  rw [Chunks.new]
  simp only [Bool.false_eq_true, if_false, hseek, Option.bind_eq_bind, Option.bind_some, hlocated.item]
  cases hrest : ((sum_tree.Cursor.new rope.chunks.items).slice chunkLen range_start Bias.Right).2.rest with
  | nil => rw [sum_tree.Cursor.item, hrest]; rfl
  | cons chunk rest =>
    have hstop := hin.resolve_right fun hend => by rw [hrest] at hend; cases hend.2
    have hboundary := chunk_boundary hlocated.items hrest hrange.start_boundary hplace hstop.le
    rw [sum_tree.Cursor.item, hrest, sum_tree.Node.Cursor.start, hlocated.position]
    exact if_pos hboundary

theorem Reading.seek (hrange : CharRange rope range_start range_end)
    (h : Reading rope range_start range_end self place) (offset : Nat)
    (hboundary : Boundary rope.text (clamp range_start range_end offset)) :
    ∃ self' place', self.seek offset = some self' ∧ Reading rope range_start range_end self' place' ∧
      self'.offset = clamp range_start range_end offset := by
  have hle := hrange.le
  have hstart_le : range_start ≤ clamp range_start range_end offset := by rw [clamp]; omega
  have hle_end : clamp range_start range_end offset ≤ range_end := by rw [clamp]; omega
  obtain ⟨hit, fresh, fresh_place, hfresh, hreading⟩ :=
    Reading.of_seek hrange self.chunks h.located.root hstart_le hle_end hboundary
  have hseek : self.seek offset = (if clamp range_start range_end offset ≥ place.stop chunkLen then
        self.chunks.seek_forward ChunkSummary.len (clamp range_start range_end offset) Bias.Right
      else if clamp range_start range_end offset < place.start chunkLen then
        self.chunks.seek ChunkSummary.len (clamp range_start range_end offset) Bias.Right
      else some (false, self.chunks)).map fun result =>
        { self with chunks := result.2, offset := clamp range_start range_end offset } := by
    rw [Chunks.seek, h.start_eq, h.end_eq, if_pos hle]
    simp only [h.forward, Bool.false_eq_true, if_false, Option.bind_eq_bind, h.located.stop,
      sum_tree.Node.Cursor.start, h.located.position]
    rw [apply_ite (Option.map _), apply_ite (Option.map _), Option.map_eq_bind, Option.map_eq_bind, clamp]
    rfl
  generalize clamp range_start range_end offset = target at hboundary hstart_le hle_end hfresh hreading hseek ⊢
  have hself : ∀ chunks, ({ self with chunks, offset := target } : Chunks) =
      { chunks, range_start, range_end, offset := target, reversed := false } := by
    intro chunks
    rw [← h.start_eq, ← h.end_eq, ← h.forward]
  rw [hseek]
  split
  · rename_i hpast
    have hstart : place.start chunkLen ≤ target := (Nat.le_add_right _ _).trans hpast
    obtain ⟨hit', chunks, hseek', hlocated⟩ :=
      @sum_tree.Node.Cursor.seek_internal_located _ _ _ _ _ _ _ _ len_additive target .Right h.located hstart
    obtain ⟨hplace, hin⟩ := slice_right h.located.items hstart hboundary.le
    refine ⟨{ self with chunks, offset := target }, (place.slice chunkLen target .Right).2,
      by rw [sum_tree.Node.Cursor.seek_forward, hseek']; rfl, ?_, rfl⟩
    rw [hself]
    exact .of_place hrange hlocated rfl rfl rfl hstart_le hle_end hboundary hplace hin
  · rename_i hstop
    split
    · exact ⟨{ self with chunks := fresh, offset := target }, fresh_place, by rw [hfresh]; rfl,
        by rw [hself]; exact hreading, rfl⟩
    · rename_i hstart
      refine ⟨{ self with offset := target }, place, rfl, ?_, rfl⟩
      exact .of_place hrange h.located h.start_eq h.end_eq h.forward hstart_le hle_end hboundary
        (Nat.not_lt.mp hstart) (Or.inl (Nat.not_le.mp hstop))

theorem Reading.advance (hrange : CharRange rope range_start range_end)
    (hlocated : Located ChunkSummary.len rope.chunks self.chunks place) (hstart_eq : self.range_start = range_start)
    (hend_eq : self.range_end = range_end) (hforward : self.reversed = false) (hstart_le : range_start ≤ self.offset)
    (hle_end : self.offset ≤ range_end) (hboundary : Boundary rope.text self.offset)
    (hoffset : self.offset = place.stop chunkLen) :
    Reading rope range_start range_end { self with chunks := self.chunks.next ChunkSummary.len }
      (place.search_forward fun _ => true) := by
  have hlocated' := sum_tree.Node.Cursor.search_forward_located len_additive sum_tree.LetsThrough.all hlocated
  change Located _ _ (self.chunks.next ChunkSummary.len) (place.search_forward fun _ => true) at hlocated'
  have hitems := hlocated'.items
  cases hrest : place.rest with
  | nil =>
    have hplace : place.search_forward (fun _ => true) = place := by rw [sum_tree.Cursor.search_forward, hrest]
    rw [place_stop_nil hrest] at hoffset
    rw [hplace] at hlocated' ⊢
    refine .of_place hrange hlocated' hstart_eq hend_eq hforward hstart_le hle_end hboundary ?_ (Or.inr ⟨?_, hrest⟩)
    · rw [place_start]
      exact hoffset.ge
    · rw [text_of_items hlocated.items, hrest]
      exact hoffset.trans (by simp)
  | cons first rest =>
    have hplace : place.search_forward (fun _ => true) = { passed := place.passed ++ [first], rest } := by
      rw [sum_tree.Cursor.search_forward, hrest]
      cases rest <;> rfl
    rw [place_stop hrest, ← textOf_concat] at hoffset
    rw [hplace] at hlocated' hitems ⊢
    refine .of_place hrange hlocated' hstart_eq hend_eq hforward hstart_le hle_end hboundary ?_ ?_
    · rw [place_start]
      exact hoffset.ge
    · cases rest with
      | nil =>
        refine Or.inr ⟨?_, rfl⟩
        rw [List.append_nil] at hitems
        change self.offset = byteLen (textOf rope.chunks.items)
        rw [hoffset, ← hitems]
      | cons second rest =>
        left
        have hpos := byteLen_pos (rope.valid second (by rw [← hitems]; simp)).2
        rw [place_stop rfl]
        change self.offset < _
        rw [hoffset]
        exact Nat.lt_add_of_pos_right hpos

/-- `next` returns what `peek` does and moves past it. -/
theorem Reading.next (hrange : CharRange rope range_start range_end)
    (h : Reading rope range_start range_end self place) (hlt : self.offset < range_end) :
    ∃ before chunk after self' place', rope.text = before ++ chunk ++ after ∧ byteLen before = self.offset ∧
      chunk ≠ [] ∧ self.peek = some (some chunk) ∧ self.next = some (some chunk, self') ∧
      Reading rope range_start range_end self' place' ∧ self'.offset = self.offset + byteLen chunk := by
  obtain ⟨before, chunk, after, htext, hbefore, hne, hlength, hpeek⟩ := h.peek hrange hlt
  have hstop := h.located.stop
  have hboundary : Boundary rope.text (self.offset + byteLen chunk) :=
    ⟨before ++ chunk, after, htext, by rw [byteLen_append, hbefore]⟩
  have hnext : self.next = some (some chunk,
      { self with
        offset := self.offset + byteLen chunk
        chunks :=
          if self.offset + byteLen chunk ≥ place.stop chunkLen then self.chunks.next ChunkSummary.len
          else self.chunks }) := by
    rw [Chunks.next, hpeek]
    simp only [Option.bind_eq_bind, Option.bind_some, h.forward, Bool.false_eq_true, if_false, hstop]
    rfl
  refine ⟨before, chunk, after, _, if self.offset + byteLen chunk ≥ place.stop chunkLen then
    place.search_forward fun _ => true else place, htext, hbefore, hne, hpeek, hnext, ?_, rfl⟩
  have hstart_le : range_start ≤ self.offset + byteLen chunk := h.start_le.trans (Nat.le_add_right _ _)
  have hle_end : self.offset + byteLen chunk ≤ range_end := by omega
  split
  · rename_i hpast
    exact @Reading.advance rope range_start range_end { self with offset := self.offset + byteLen chunk } place hrange
      h.located h.start_eq h.end_eq h.forward hstart_le hle_end hboundary
      (Nat.le_antisymm (by change self.offset + byteLen chunk ≤ _; omega) hpast)
  · rename_i hinside
    exact ⟨h.located, h.start_eq, h.end_eq, h.forward, hstart_le, hle_end, hboundary,
      h.place_le.trans (Nat.le_add_right _ _), Or.inl (Nat.not_le.mp hinside)⟩

theorem Reading.next_end (h : Reading rope range_start range_end self place) (hend : self.offset = range_end) :
    self.next = some (none, self) := by
  rw [Chunks.next, h.peek_end hend]
  rfl

/-- What the calls to `next` return up to the first `None`, without a panic. -/
inductive Yields : Chunks → List Str → Prop
  | none {self : Chunks} : self.next = some (none, self) → Yields self []
  | some {self self' : Chunks} {chunk : Str} {chunks : List Str} :
      self.next = some (some chunk, self') → Yields self' chunks → Yields self (chunk :: chunks)

theorem peek_of_next {self self' : Chunks} {returned : Option Str} (h : self.next = some (returned, self')) :
    self.peek = some returned := by
  rw [Chunks.next] at h
  cases hpeek : self.peek with
  | none =>
    rw [hpeek] at h
    cases h
  | some peeked =>
    rw [hpeek] at h
    cases peeked with
    | none =>
      cases h
      rfl
    | some chunk =>
      simp only [Option.bind_eq_bind, Option.bind_some] at h
      split at h <;> · cases h; rfl

theorem peek_of_yields {self : Chunks} {chunks : List Str} (h : Yields self chunks) : self.peek = some chunks.head? := by
  cases h with
  | none hnone => exact peek_of_next hnone
  | some hsome _ => exact peek_of_next hsome

/-- The calls to `next` return the text from the offset to the end of the range. -/
theorem Reading.yields (hrange : CharRange rope range_start range_end)
    (h : Reading rope range_start range_end self place) :
    ∃ before chunks after, Yields self chunks ∧ rope.text = before ++ chunks.flatten ++ after ∧
      byteLen before = self.offset ∧ byteLen before + byteLen chunks.flatten = range_end := by
  induction hleft : range_end - self.offset using Nat.strong_induction_on generalizing self place with
  | _ left ih =>
    rcases Nat.lt_or_ge self.offset range_end with hlt | hge
    · obtain ⟨before, chunk, after, self', place', htext, hbefore, hne, -, hnext, hreading, hoffset⟩ := h.next hrange hlt
      have hpos := byteLen_pos hne
      obtain ⟨before', chunks, after', hyields, htext', hbefore', hlength⟩ :=
        ih (range_end - self'.offset) (by omega) hreading rfl
      obtain ⟨rfl, -⟩ : before ++ chunk = before' ∧ after = chunks.flatten ++ after' :=
        append_inj_of_byteLen (by rw [← htext, htext', List.append_assoc]) (by rw [byteLen_append]; omega)
      refine ⟨before, chunk :: chunks, after', .some hnext hyields, ?_, hbefore, ?_⟩
      · rw [htext', List.flatten_cons, ← List.append_assoc before]
      · rw [List.flatten_cons, byteLen_append, ← Nat.add_assoc, ← byteLen_append]
        exact hlength
    · have hend : self.offset = range_end := Nat.le_antisymm h.le_end hge
      obtain ⟨before, after, htext, hbefore⟩ := h.boundary
      exact ⟨before, [], after, .none (h.next_end hend), by simpa using htext, hbefore, hbefore.trans hend⟩

end Chunks

end zed.rope
