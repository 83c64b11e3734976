import Zed.Rope.Lines

namespace zed.rope

open sum_tree (Bias)
open sum_tree.Node.Cursor (Located Before)

structure Bytes where
  chunks : sum_tree.Node.Cursor Chunk ChunkSummary
  range_start : Nat
  range_end : Nat
  reversed : Bool

namespace Bytes

def new (rope : ChunkTree) (range_start range_end : Nat) (reversed : Bool) : Option Bytes := do
  let chunks := sum_tree.Node.Cursor.new rope.chunks.node
  let (_, chunks) ←
    if reversed then chunks.seek ChunkSummary.len range_end Bias.Left
    else chunks.seek ChunkSummary.len range_start Bias.Right
  some { chunks, range_start, range_end, reversed }

variable (self : Bytes)

/-- The outer `none` is a panic: a slice that ends before it starts. -/
def peek : Option (Option (List UInt8)) :=
  match self.chunks.item with
  | none => some none
  | some chunk =>
    if self.reversed && decide (self.range_start ≥ self.chunks.stop ChunkSummary.len) then some none
    else
      let chunk_start := self.chunks.start
      if self.range_end ≤ chunk_start then some none
      else
        let bytes := utf8 chunk.text
        let start := self.range_start - chunk_start
        let stop := min bytes.length (self.range_end - chunk_start)
        if start ≤ stop then some (some ((bytes.take stop).drop start)) else none

/-- What is written to a buffer of the given size. -/
def read (size : Nat) : Option (List UInt8 × Bytes) := do
  match ← self.peek with
  | none => some ([], self)
  | some chunk =>
    let length := min size chunk.length
    let whole := decide (length = chunk.length)
    if self.reversed then
      let chunks := if whole then self.chunks.prev ChunkSummary.len else self.chunks
      some ((chunk.drop (chunk.length - length)).reverse, { self with chunks, range_end := self.range_end - length })
    else
      let chunks := if whole then self.chunks.next ChunkSummary.len else self.chunks
      some (chunk.take length, { self with chunks, range_start := self.range_start + length })

end Bytes

section Part

variable {α : Type} {xs before middle after : List α} {start mid stop : Nat}

/-- The elements from one position to another. -/
def between (xs : List α) (start stop : Nat) : List α := (xs.take stop).drop start

theorem between_length (hstop : stop ≤ xs.length) : (between xs start stop).length = stop - start := by
  rw [between, List.length_drop, List.length_take, min_eq_left hstop]

theorem between_nil (h : stop ≤ start) : between xs start stop = [] :=
  List.drop_eq_nil_of_le ((List.length_take_le _ _).trans h)

theorem take_between (h : start + mid ≤ stop) : (between xs start stop).take mid = between xs start (start + mid) := by
  rw [between, between, List.take_drop, List.take_take, min_eq_left h]

theorem drop_between : (between xs start stop).drop mid = between xs (start + mid) stop := by
  rw [between, between, List.drop_drop]

theorem between_append (hmid : start ≤ mid) (hstop : mid ≤ stop) :
    between xs start mid ++ between xs mid stop = between xs start stop := by
  have hsplit := List.take_append_drop (mid - start) (between xs start stop)
  rw [take_between (by omega), drop_between, Nat.add_sub_cancel' hmid] at hsplit
  exact hsplit

theorem between_middle (h : stop ≤ middle.length) :
    between (before ++ middle ++ after) (before.length + start) (before.length + stop) = between middle start stop := by
  rw [between, between, List.append_assoc, List.take_length_add_append, List.drop_length_add_append,
    List.take_append_of_le_length h]

end Part

namespace Bytes

variable {rope : ChunkTree} {self : Bytes}

/-- The bytes that a reader has yet to read, in the order in which it reads them. -/
def remaining (rope : ChunkTree) (self : Bytes) : List UInt8 :=
  let bytes := between (utf8 rope.text) self.range_start self.range_end
  if self.reversed then bytes.reverse else bytes

/-- The cursor of a reader is at the chunk that its next byte is in. -/
structure ReadingBytes (rope : ChunkTree) (reader : Bytes) : Prop where
  le : reader.range_start ≤ reader.range_end
  le_len : reader.range_end ≤ byteLen rope.text
  placed : if reader.reversed then
      (∃ place, Located ChunkSummary.len rope.chunks reader.chunks place ∧
        (reader.range_start = reader.range_end ∨
          place.start chunkLen < reader.range_end ∧ reader.range_end ≤ place.stop chunkLen)) ∨
      Before rope.chunks reader.chunks ∧ reader.range_start = reader.range_end
    else
      ∃ place, Located ChunkSummary.len rope.chunks reader.chunks place ∧
        (reader.range_start = reader.range_end ∧ reader.range_end ≤ place.stop chunkLen ∨
          place.start chunkLen ≤ reader.range_start ∧ reader.range_start < place.stop chunkLen)

theorem place_stop_le {cursor : sum_tree.Node.Cursor Chunk ChunkSummary} {place : sum_tree.Cursor Chunk}
    (h : Located ChunkSummary.len rope.chunks cursor place) : place.stop chunkLen ≤ byteLen rope.text := by
  cases hrest : place.rest with
  | nil => rw [text_at_end h.items hrest, place_stop_nil hrest, place_start]
  | cons chunk rest =>
    rw [place_stop hrest, text_of_chunk h.items hrest, byteLen_append, byteLen_append]
    exact Nat.le_add_right _ _

theorem next_placed {cursor : sum_tree.Node.Cursor Chunk ChunkSummary} {place : sum_tree.Cursor Chunk}
    (h : Located ChunkSummary.len rope.chunks cursor place) (hne : place.rest ≠ []) :
    ∃ place', Located ChunkSummary.len rope.chunks (cursor.next ChunkSummary.len) place' ∧
      place'.start chunkLen = place.stop chunkLen ∧
      (place.stop chunkLen < byteLen rope.text → place.stop chunkLen < place'.stop chunkLen) := by
  have hnext := sum_tree.Node.Cursor.search_forward_located len_additive sum_tree.LetsThrough.all h
  cases hrest : place.rest with
  | nil => exact absurd hrest hne
  | cons first rest =>
    have hplace : place.search_forward (fun _ => true) = { passed := place.passed ++ [first], rest } := by
      rw [sum_tree.Cursor.search_forward, hrest]
      cases rest <;> rfl
    change Located _ _ (cursor.next ChunkSummary.len) (place.search_forward fun _ => true) at hnext
    rw [hplace] at hnext
    have hstart : sum_tree.Cursor.start chunkLen { passed := place.passed ++ [first], rest } = place.stop chunkLen := by
      rw [place_start, textOf_concat, place_stop hrest]
    refine ⟨_, hnext, hstart, fun hlt => ?_⟩
    cases rest with
    | nil =>
      rw [text_at_end hnext.items rfl, hstart] at hlt
      exact absurd hlt (Nat.lt_irrefl _)
    | cons second rest =>
      have hpos := byteLen_pos (rope.valid second (by rw [← hnext.items]; simp)).2
      rw [← hstart, place_start, place_stop rfl]
      exact Nat.lt_add_of_pos_right hpos

/-- The bytes of a chunk are a part of those of the rope. -/
theorem between_of_chunk {cursor : sum_tree.Node.Cursor Chunk ChunkSummary} {place : sum_tree.Cursor Chunk}
    (h : Located ChunkSummary.len rope.chunks cursor place) {chunk : Chunk} {rest : List Chunk}
    (hrest : place.rest = chunk :: rest) {start stop : Nat} (hstart : place.start chunkLen ≤ start)
    (hle : place.start chunkLen ≤ stop) (hstop : stop ≤ place.stop chunkLen) :
    ((utf8 chunk.text).take (stop - place.start chunkLen)).drop (start - place.start chunkLen) =
      between (utf8 rope.text) start stop := by
  rw [place_stop hrest] at hstop
  rw [place_start] at hstart hle ⊢
  have hbytes : utf8 rope.text = utf8 (textOf place.passed) ++ utf8 chunk.text ++ utf8 (textOf rest) := by
    rw [text_of_chunk h.items hrest, utf8_append_text, utf8_append_text]
  have hmiddle := @between_middle _ (utf8 (textOf place.passed)) (utf8 chunk.text) (utf8 (textOf rest))
    (start - byteLen (textOf place.passed)) (stop - byteLen (textOf place.passed))
    (show stop - byteLen (textOf place.passed) ≤ byteLen chunk.text by omega)
  rw [← hbytes, show (utf8 (textOf place.passed)).length = byteLen (textOf place.passed) from rfl,
    Nat.add_sub_cancel' hstart, Nat.add_sub_cancel' hle] at hmiddle
  exact hmiddle.symm

theorem peek_chunk {place : sum_tree.Cursor Chunk} (h : Located ChunkSummary.len rope.chunks self.chunks place)
    {chunk : Chunk} {rest : List Chunk} (hrest : place.rest = chunk :: rest) :
    self.peek =
      if self.reversed = true ∧ place.stop chunkLen ≤ self.range_start ∨ self.range_end ≤ place.start chunkLen then
        some none
      else if max self.range_start (place.start chunkLen) ≤ min (place.stop chunkLen) self.range_end then
        some (some (between (utf8 rope.text) (max self.range_start (place.start chunkLen))
          (min (place.stop chunkLen) self.range_end)))
      else none := by
  have hitem : self.chunks.item = some chunk := by
    rw [h.item, sum_tree.Cursor.item, hrest]
    rfl
  have hstop := place_stop hrest
  rw [← place_start] at hstop
  have hlen : (utf8 chunk.text).length = byteLen chunk.text := rfl
  rw [peek, hitem]
  simp only [h.stop, sum_tree.Node.Cursor.start, h.position, Bool.and_eq_true, decide_eq_true_eq, hlen]
  by_cases hpast : self.reversed = true ∧ place.stop chunkLen ≤ self.range_start
  · rw [if_pos hpast, if_pos (Or.inl hpast)]
  · rw [if_neg hpast]
    by_cases hbefore : self.range_end ≤ place.start chunkLen
    · rw [if_pos hbefore, if_pos (Or.inr hbefore)]
    · have hmin : min (byteLen chunk.text) (self.range_end - place.start chunkLen) =
          min (place.stop chunkLen) self.range_end - place.start chunkLen := by omega
      have hmax : self.range_start - place.start chunkLen =
          max self.range_start (place.start chunkLen) - place.start chunkLen := by omega
      rw [if_neg hbefore, if_neg (not_or_intro hpast hbefore), hmin, hmax,
        between_of_chunk h hrest (le_max_right _ _) (by omega) (min_le_left _ _)]
      exact if_congr (by omega) rfl rfl

theorem ReadingBytes.read_forward (h : ReadingBytes rope self) (hforward : self.reversed = false) (size : Nat) :
    ∃ length self', self.read size = some (between (utf8 rope.text) self.range_start (self.range_start + length), self') ∧
      ReadingBytes rope self' ∧ self'.reversed = false ∧ self'.range_start = self.range_start + length ∧
      self'.range_end = self.range_end ∧ length ≤ size ∧
      (0 < size → self.range_start < self.range_end → 0 < length) := by
  have hle := h.le
  have hle_len := h.le_len
  have hplaced := h.placed
  rw [hforward, if_neg Bool.false_ne_true] at hplaced
  obtain ⟨place, hlocated, hplace⟩ := hplaced
  -- nothing is read and the reader stays as it is
  have hnothing (hpeek : self.peek = some none) (hend : self.range_start = self.range_end) :
      ∃ length self', self.read size =
          some (between (utf8 rope.text) self.range_start (self.range_start + length), self') ∧
        ReadingBytes rope self' ∧ self'.reversed = false ∧ self'.range_start = self.range_start + length ∧
        self'.range_end = self.range_end ∧ length ≤ size ∧
        (0 < size → self.range_start < self.range_end → 0 < length) := by
    refine ⟨0, self, ?_, h, hforward, rfl, rfl, Nat.zero_le _, fun _ hlt => by omega⟩
    rw [read, hpeek, Nat.add_zero, between_nil (Nat.le_refl _)]
    rfl
  cases hrest : place.rest with
  | nil =>
    have hstop := place_stop_nil hrest
    rw [← place_start] at hstop
    refine hnothing ?_ (hplace.resolve_right fun hin => by omega).1
    rw [peek, hlocated.item, sum_tree.Cursor.item, hrest]
    rfl
  | cons chunk rest =>
    have hpeek := peek_chunk hlocated hrest
    have hstop_le := place_stop_le hlocated
    rw [hforward] at hpeek
    by_cases hbefore : self.range_end ≤ place.start chunkLen
    · rw [if_pos (Or.inr hbefore)] at hpeek
      exact hnothing hpeek (by omega)
    · have hmax : max self.range_start (place.start chunkLen) = self.range_start := by
        have hstart : place.start chunkLen ≤ place.stop chunkLen := Nat.le_add_right _ _
        omega
      rw [if_neg (by rintro (⟨hback, -⟩ | hin); exacts [Bool.false_ne_true hback, hbefore hin]), hmax,
        if_pos (by omega)] at hpeek
      have hlength := @between_length _ (utf8 rope.text) self.range_start (min (place.stop chunkLen) self.range_end)
        ((min_le_left _ _).trans hstop_le)
      obtain ⟨place', hlocated', hstart', hstop'⟩ := next_placed hlocated (by rw [hrest]; exact List.cons_ne_nil _ _)
      have hstart_stop : place'.start chunkLen ≤ place'.stop chunkLen := Nat.le_add_right _ _
      obtain ⟨length, hmin⟩ :
          ∃ length, length = min size (min (place.stop chunkLen) self.range_end - self.range_start) := ⟨_, rfl⟩
      refine ⟨length,
        { self with
          chunks :=
            if length = min (place.stop chunkLen) self.range_end - self.range_start then
              self.chunks.next ChunkSummary.len
            else self.chunks
          range_start := self.range_start + length },
        ?_, ?_, hforward, rfl, rfl, by omega, fun hpos hlt => by omega⟩
      · rw [read, hpeek, Option.bind_eq_bind, Option.bind_some]
        simp only [hforward, Bool.false_eq_true, if_false, hlength, decide_eq_true_eq, ← hmin]
        rw [take_between (by omega)]
      · refine ⟨by dsimp only; omega, hle_len, ?_⟩
        rw [hforward, if_neg Bool.false_ne_true]
        by_cases hwhole : length = min (place.stop chunkLen) self.range_end - self.range_start
        · rw [if_pos hwhole]
          exact ⟨place', hlocated', by dsimp only; omega⟩
        · rw [if_neg hwhole]
          exact ⟨place, hlocated, by dsimp only; omega⟩

theorem ReadingBytes.read_backward (h : ReadingBytes rope self) (hbackward : self.reversed = true) (size : Nat) :
    ∃ length self', self.read size =
        some ((between (utf8 rope.text) (self.range_end - length) self.range_end).reverse, self') ∧
      ReadingBytes rope self' ∧ self'.reversed = true ∧ self'.range_start = self.range_start ∧
      self'.range_end = self.range_end - length ∧ self.range_start + length ≤ self.range_end ∧ length ≤ size ∧
      (0 < size → self.range_start < self.range_end → 0 < length) := by
  have hle := h.le
  have hle_len := h.le_len
  have hplaced := h.placed
  rw [hbackward, if_pos rfl] at hplaced
  have hnothing (hpeek : self.peek = some none) (hend : self.range_start = self.range_end) :
      ∃ length self', self.read size =
          some ((between (utf8 rope.text) (self.range_end - length) self.range_end).reverse, self') ∧
        ReadingBytes rope self' ∧ self'.reversed = true ∧ self'.range_start = self.range_start ∧
        self'.range_end = self.range_end - length ∧ self.range_start + length ≤ self.range_end ∧ length ≤ size ∧
        (0 < size → self.range_start < self.range_end → 0 < length) := by
    refine ⟨0, self, ?_, h, hbackward, rfl, rfl, hle, Nat.zero_le _, fun _ hlt => by omega⟩
    rw [read, hpeek, Nat.sub_zero, between_nil (Nat.le_refl _)]
    rfl
  rcases hplaced with ⟨place, hlocated, hplace⟩ | ⟨hbefore, hend⟩
  · cases hrest : place.rest with
    | nil =>
      have hstop := place_stop_nil hrest
      rw [← place_start] at hstop
      refine hnothing ?_ (hplace.resolve_right fun hin => by omega)
      rw [peek, hlocated.item, sum_tree.Cursor.item, hrest]
      rfl
    | cons chunk rest =>
      have hpeek := peek_chunk hlocated hrest
      by_cases hout : self.reversed = true ∧ place.stop chunkLen ≤ self.range_start ∨
          self.range_end ≤ place.start chunkLen
      · rw [if_pos hout] at hpeek
        refine hnothing hpeek ?_
        rcases hout with ⟨-, hout⟩ | hout <;> omega
      · obtain ⟨hpast, hbefore⟩ := not_or.mp hout
        have hstop : self.range_start < place.stop chunkLen := Nat.not_le.mp fun hpast' => hpast ⟨hbackward, hpast'⟩
        have hmin : min (place.stop chunkLen) self.range_end = self.range_end := by omega
        rw [if_neg hout, hmin, if_pos (by omega)] at hpeek
        have hlength := @between_length _ (utf8 rope.text) (max self.range_start (place.start chunkLen)) self.range_end
          hle_len
        obtain ⟨length, hmin⟩ :
            ∃ length, length = min size (self.range_end - max self.range_start (place.start chunkLen)) := ⟨_, rfl⟩
        refine ⟨length,
          { self with
            chunks :=
              if length = self.range_end - max self.range_start (place.start chunkLen) then
                self.chunks.prev ChunkSummary.len
              else self.chunks
            range_end := self.range_end - length },
          ?_, ?_, hbackward, rfl, rfl, by omega, by omega, fun hpos hlt => by omega⟩
        · have hdrop : max self.range_start (place.start chunkLen) +
              (self.range_end - max self.range_start (place.start chunkLen) - length) = self.range_end - length := by
            omega
          rw [read, hpeek, Option.bind_eq_bind, Option.bind_some]
          simp only [hbackward, if_true, hlength, decide_eq_true_eq, ← hmin]
          rw [drop_between, hdrop]
        · refine ⟨by dsimp only; omega, by dsimp only; omega, ?_⟩
          rw [hbackward, if_pos rfl]
          by_cases hwhole : length = self.range_end - max self.range_start (place.start chunkLen)
          · rw [if_pos hwhole]
            rcases Chunks.prev_placed hlocated (by rw [hrest]; exact List.cons_ne_nil _ _) with
              ⟨place', hlocated', hstart', hstop'⟩ | ⟨hfirst, hzero⟩
            · exact Or.inl ⟨place', hlocated', by dsimp only; omega⟩
            · exact Or.inr ⟨hfirst, by dsimp only; omega⟩
          · rw [if_neg hwhole]
            exact Or.inl ⟨place, hlocated, by dsimp only; omega⟩
  · refine hnothing ?_ hend
    rw [peek, hbefore.item]

/-- A read returns the bytes that come next, and some of them when the buffer has room. -/
theorem ReadingBytes.read (h : ReadingBytes rope self) (size : Nat) :
    ∃ read self', self.read size = some (read, self') ∧ ReadingBytes rope self' ∧
      remaining rope self = read ++ remaining rope self' ∧ read.length ≤ size ∧
      (0 < size → remaining rope self ≠ [] → read ≠ []) := by
  have hle_len : self.range_end ≤ (utf8 rope.text).length := h.le_len
  have hle := h.le
  cases hdirection : self.reversed with
  | false =>
    obtain ⟨length, self', hread, hreading, hdirection', hstart, hend, hsize, hpos⟩ := h.read_forward hdirection size
    have hle' := hreading.le
    have hlength := @between_length _ (utf8 rope.text) self.range_start (self.range_start + length) (by omega)
    rw [Nat.add_sub_cancel_left] at hlength
    refine ⟨_, self', hread, hreading, ?_, hlength.trans_le hsize, fun hroom hne hnil => ?_⟩
    · rw [remaining, remaining, hdirection, hdirection', hstart, hend]
      exact (between_append (Nat.le_add_right _ _) (by omega)).symm
    · have hlt : self.range_start < self.range_end := by
        by_contra hge
        rw [remaining, hdirection, between_nil (Nat.not_lt.mp hge)] at hne
        exact hne rfl
      rw [hnil] at hlength
      exact absurd hlength (hpos hroom hlt).ne
  | true =>
    obtain ⟨length, self', hread, hreading, hdirection', hstart, hend, hfits, hsize, hpos⟩ :=
      h.read_backward hdirection size
    have hlength := @between_length _ (utf8 rope.text) (self.range_end - length) self.range_end hle_len
    refine ⟨_, self', hread, hreading, ?_, by rw [List.length_reverse]; omega, fun hroom hne hnil => ?_⟩
    · rw [remaining, remaining, hdirection, hdirection', hstart, hend]
      simp only [if_true]
      rw [← List.reverse_append, between_append (by omega) (Nat.sub_le _ _)]
    · have hlt : self.range_start < self.range_end := by
        by_contra hge
        rw [remaining, hdirection, between_nil (Nat.not_lt.mp hge)] at hne
        exact hne rfl
      have hpos' := hpos hroom hlt
      rw [List.reverse_eq_nil_iff.mp hnil, List.length_nil] at hlength
      omega

theorem new_reading {range_start range_end : Nat} (hle : range_start ≤ range_end)
    (hle_len : range_end ≤ byteLen rope.text) (reversed : Bool) :
    ∃ self, Bytes.new rope range_start range_end reversed = some self ∧ ReadingBytes rope self ∧
      self.range_start = range_start ∧ self.range_end = range_end ∧ self.reversed = reversed := by
  cases reversed with
  | false =>
    obtain ⟨hit, chunks, hseek, hlocated⟩ := @sum_tree.Node.Cursor.seek_located _ _ _ _ ChunkSummary.len rope.chunks
      (sum_tree.Node.Cursor.new rope.chunks.node) len_additive range_start Bias.Right rfl
    obtain ⟨hplace, hin⟩ := @slice_right rope (sum_tree.Cursor.new rope.chunks.items) rfl range_start (Nat.zero_le _)
      (hle.trans hle_len)
    change Located _ _ _ ((sum_tree.Cursor.new rope.chunks.items).slice chunkLen range_start .Right).2 at hlocated
    generalize ((sum_tree.Cursor.new rope.chunks.items).slice chunkLen range_start .Right).2 = place at hlocated hplace hin
    refine ⟨{ chunks, range_start, range_end, reversed := false },
      by rw [Bytes.new]; simp only [Bool.false_eq_true, if_false, hseek]; rfl, ⟨hle, hle_len, place, hlocated, ?_⟩,
      rfl, rfl, rfl⟩
    rcases hin with hin | ⟨hend, hrest⟩
    · exact Or.inr ⟨hplace, hin⟩
    · have hstart := text_at_end hlocated.items hrest
      have hstop := place_stop_nil hrest
      rw [← place_start] at hstop
      exact Or.inl (by dsimp only; omega)
  | true =>
    obtain ⟨hit, chunks, hseek, hlocated⟩ := @sum_tree.Node.Cursor.seek_located _ _ _ _ ChunkSummary.len rope.chunks
      (sum_tree.Node.Cursor.new rope.chunks.node) len_additive range_end Bias.Left rfl
    refine ⟨{ chunks, range_start, range_end, reversed := true },
      by rw [Bytes.new]; simp only [if_true, hseek]; rfl, ⟨hle, hle_len, Or.inl ⟨_, hlocated, ?_⟩⟩, rfl, rfl, rfl⟩
    rcases Nat.eq_zero_or_pos range_end with hzero | hpos
    · refine Or.inl ?_
      change range_start = range_end
      omega
    · exact Or.inr (@slice_left rope (sum_tree.Cursor.new rope.chunks.items) rfl range_end hpos hle_len)

/-- Reads into buffers of the given sizes deliver the bytes one after another, and some of them into every buffer that
    has room. -/
def Delivers : List UInt8 → Bytes → List Nat → Prop
  | _, _, [] => True
  | bytes, self, size :: sizes =>
    ∃ read rest self', self.read size = some (read, self') ∧ bytes = read ++ rest ∧ read.length ≤ size ∧
      (0 < size → bytes ≠ [] → read ≠ []) ∧ Delivers rest self' sizes

theorem ReadingBytes.delivers (h : ReadingBytes rope self) (sizes : List Nat) :
    Delivers (remaining rope self) self sizes := by
  induction sizes generalizing self with
  | nil => exact trivial
  | cons size sizes ih =>
    obtain ⟨read, self', hread, hreading, hbytes, hsize, hsome⟩ := h.read size
    exact ⟨read, remaining rope self', self', hread, hbytes, hsize, hsome, ih hreading⟩

end Bytes

end zed.rope
