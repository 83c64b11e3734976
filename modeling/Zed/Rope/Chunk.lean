import Zed.Bitmap
import Zed.Rope.TextSummary
import Zed.SumTree.Tree.Build

namespace zed.rope

open zed.bitmap

def MAX_BASE : Nat := 128

abbrev Bitmap := BitVec MAX_BASE

/-- Bitmaps over the bytes of a text: where characters start, the UTF-16 code units they take, and
    where newlines and tabs are. -/
structure ChunkSlice where
  chars : Bitmap
  chars_utf16 : Bitmap
  newlines : Bitmap
  tabs : Bitmap
  text : Str

/-- The bits of eight bytes: `bits |= (holds(b) as u8) << ix` for each. -/
def byte_bits (holds : UInt8 → Bool) (chunk : List UInt8) : BitVec 8 :=
  chunk.zipIdx.foldl (fun bits (b, ix) => bits ||| ((BitVec.ofBool (holds b)).setWidth 8 <<< ix)) 0#8

def from_le_bytes (bytes : List (BitVec 8)) : Bitmap :=
  bytes.foldr (fun byte rest => byte.setWidth MAX_BASE ||| (rest <<< 8)) (BitVec.ofNat MAX_BASE 0)

/-- One of the bitmaps of `Chunk::new`. -/
def bitmap_of (holds : UInt8 → Bool) (bytes : List UInt8) : Bitmap :=
  from_le_bytes ((sum_tree.chunks 7 bytes).map (byte_bits holds))

/-- A chunk; the source panics when the text does not fit. -/
def Chunk.new (text : Str) : Option ChunkSlice :=
  let bytes := utf8 text
  if bytes.length ≤ MAX_BASE then
    let chars := bitmap_of is_utf8_char_boundary bytes
    some
      { chars
        chars_utf16 := (bitmap_of (fun b => decide (b ≥ 240)) bytes <<< 1) ||| chars
        newlines := bitmap_of (fun b => decide (b = 10)) bytes
        tabs := bitmap_of (fun b => decide (b = 9)) bytes
        text }
  else none

/-- The rest of a text from an offset on, and the text before one. -/
def drop_bytes : Nat → Str → Str
  | 0, text => text
  | _ + 1, [] => []
  | n + 1, char :: text => drop_bytes (n + 1 - char.utf8Size) text

def take_bytes : Nat → Str → Str
  | _, [] => []
  | n, char :: text => if char.utf8Size ≤ n then char :: take_bytes (n - char.utf8Size) text else []

/-- The closest character boundary at an offset or after it, and at an offset or before it. -/
def str.ceil_char_boundary : Nat → Str → Nat
  | 0, _ => 0
  | _ + 1, [] => 0
  | n + 1, char :: text => char.utf8Size + str.ceil_char_boundary (n + 1 - char.utf8Size) text

def str.floor_char_boundary : Nat → Str → Nat
  | _, [] => 0
  | n, char :: text => if char.utf8Size ≤ n then char.utf8Size + str.floor_char_boundary (n - char.utf8Size) text else 0

namespace ChunkSlice

def empty : ChunkSlice := ⟨0, 0, 0, 0, []⟩

def len (slice : ChunkSlice) : Nat := (utf8 slice.text).length

def is_char_boundary (slice : ChunkSlice) (offset : Nat) : Bool :=
  decide ((BitVec.ofNat MAX_BASE 1 <<< offset) &&& slice.chars ≠ 0) || decide (offset = slice.len)

/-- Panics at an offset that is not a character boundary. -/
def split_at (slice : ChunkSlice) (mid : Nat) : Option (ChunkSlice × ChunkSlice) :=
  if mid = MAX_BASE then some (slice, empty)
  else if slice.is_char_boundary mid then
    let mask := (BitVec.ofNat MAX_BASE 1 <<< mid) - BitVec.ofNat MAX_BASE 1
    some
      ({ chars := slice.chars &&& mask
         chars_utf16 := slice.chars_utf16 &&& mask
         newlines := slice.newlines &&& mask
         tabs := slice.tabs &&& mask
         text := take_bytes mid slice.text },
        { chars := slice.chars >>> mid
          chars_utf16 := slice.chars_utf16 >>> mid
          newlines := slice.newlines >>> mid
          tabs := slice.tabs >>> mid
          text := drop_bytes mid slice.text })
  else none

/-- The ends of a range are moved inwards to character boundaries. A range that is still the wrong way
    round panics, and so does a shift by all the bits. -/
def slice (self : ChunkSlice) (start stop : Nat) : Option ChunkSlice :=
  if start = MAX_BASE then some empty
  else
    let start := if self.is_char_boundary start then start else str.ceil_char_boundary start self.text
    let stop :=
      if self.is_char_boundary stop then stop
      else if stop < start then start
      else str.floor_char_boundary stop self.text
    if start ≤ stop ∧ start < MAX_BASE then
      let mask := saturating_shl_mask MAX_BASE stop
      some
        { chars := (self.chars &&& mask) >>> start
          chars_utf16 := (self.chars_utf16 &&& mask) >>> start
          newlines := (self.newlines &&& mask) >>> start
          tabs := (self.tabs &&& mask) >>> start
          text := drop_bytes start (take_bytes stop self.text) }
    else none

/-- The bitmaps of one text and those of another after it; panics when the texts do not fit. -/
def join (left right : ChunkSlice) : Option ChunkSlice :=
  if left.len + right.len ≤ MAX_BASE then
    some
      { chars := left.chars ||| (right.chars <<< left.len)
        chars_utf16 := left.chars_utf16 ||| (right.chars_utf16 <<< left.len)
        newlines := left.newlines ||| (right.newlines <<< left.len)
        tabs := left.tabs ||| (right.tabs <<< left.len)
        text := left.text ++ right.text }
  else none

def append (chunk slice : ChunkSlice) : Option ChunkSlice :=
  if slice.text.isEmpty then some chunk else join chunk slice

def prepend (chunk slice : ChunkSlice) : Option ChunkSlice :=
  if slice.text.isEmpty then some chunk
  else if chunk.text.isEmpty then Chunk.new slice.text
  else join slice chunk

def len_utf16 (slice : ChunkSlice) : Nat := count_ones slice.chars_utf16

def lines (slice : ChunkSlice) : Point :=
  ⟨count_ones slice.newlines, leading_zeros slice.newlines - (MAX_BASE - slice.len)⟩

def first_line_chars (slice : ChunkSlice) : Nat :=
  count_ones (slice.chars &&& saturating_shl_mask MAX_BASE (trailing_zeros slice.newlines))

def last_line_chars (slice : ChunkSlice) : Nat :=
  count_ones (slice.chars &&& saturating_shr_mask MAX_BASE (leading_zeros slice.newlines))

def last_line_len_utf16 (slice : ChunkSlice) : Nat :=
  count_ones (slice.chars_utf16 &&& saturating_shr_mask MAX_BASE (leading_zeros slice.newlines))

/-- The loop of `longest_row`: the characters counted, the longest row and its length. -/
def rows_loop (chars newlines : Bitmap) (total_chars row longest_row longest_row_chars : Nat) : Nat × Nat × Nat :=
  if newlines ≠ 0 then
    let newline_ix := trailing_zeros newlines
    let row_chars := count_ones (chars &&& ((BitVec.ofNat MAX_BASE 1 <<< newline_ix) - BitVec.ofNat MAX_BASE 1))
    let (longest_row, longest_row_chars) :=
      if row_chars > longest_row_chars then (row, row_chars) else (longest_row, longest_row_chars)
    rows_loop ((chars >>> newline_ix) >>> 1) ((newlines >>> newline_ix) >>> 1) (total_chars + row_chars + 1) (row + 1)
      longest_row longest_row_chars
  else
    let row_chars := count_ones chars
    (total_chars + row_chars,
      if row_chars > longest_row_chars then (row, row_chars) else (longest_row, longest_row_chars))
termination_by newlines.toNat
decreasing_by
  rename_i hne
  have hpos : 0 < newlines.toNat := Nat.pos_of_ne_zero fun hzero => hne (BitVec.eq_of_toNat_eq hzero)
  rw [BitVec.toNat_ushiftRight, BitVec.toNat_ushiftRight, Nat.shiftRight_eq_div_pow, Nat.shiftRight_eq_div_pow]
  exact (Nat.div_le_div_right (Nat.div_le_self _ _)).trans_lt (Nat.div_lt_self hpos (by decide))

def text_summary (slice : ChunkSlice) : TextSummary :=
  let (chars, longest_row, longest_row_chars) := rows_loop slice.chars slice.newlines 0 0 0 0
  { len := slice.len
    chars
    len_utf16 := slice.len_utf16
    lines := slice.lines
    first_line_chars := slice.first_line_chars
    last_line_chars := slice.last_line_chars
    last_line_len_utf16 := slice.last_line_len_utf16
    longest_row
    longest_row_chars }

end ChunkSlice

section Bits

variable {holds : UInt8 → Bool}

theorem marks_zero (w : Nat) : Marks 0#w [] := ⟨Nat.zero_le _, fun i => by simp⟩

theorem byte_bits_marks {chunk : List UInt8} (h : chunk.length ≤ 8) : Marks (byte_bits holds chunk) (chunk.map holds) := by
  have hfold : ∀ (chunk : List UInt8) (bits : BitVec 8) (marks : List Bool), Marks bits marks →
      marks.length + chunk.length ≤ 8 →
      Marks ((chunk.zipIdx marks.length).foldl
        (fun bits (b, ix) => bits ||| ((BitVec.ofBool (holds b)).setWidth 8 <<< ix)) bits) (marks ++ chunk.map holds) := by
    intro chunk
    induction chunk with
    | nil =>
      intro bits marks hbits _
      rwa [List.map_nil, List.append_nil]
    | cons b chunk ih =>
      intro bits marks hbits hlength
      rw [List.length_cons] at hlength
      have hone : Marks ((BitVec.ofBool (holds b)).setWidth 8) [holds b] := by
        refine ⟨by simp, fun i => ?_⟩
        rw [BitVec.getLsbD_setWidth, BitVec.getLsbD_ofBool]
        cases i <;> simp
      have hnext := ih _ (marks ++ [holds b]) (hbits.append hone (by simp; omega))
        (by rw [List.length_append, List.length_singleton]; omega)
      rw [List.length_append, List.length_singleton, List.append_assoc] at hnext
      exact hnext
  exact hfold chunk 0#8 [] (marks_zero 8) (by rw [List.length_nil]; omega)

theorem marks_setWidth {x : BitVec 8} {marks : List Bool} (h : Marks x marks) :
    Marks (x.setWidth MAX_BASE) marks := by
  have hlength := h.length_le
  refine ⟨hlength.trans (by decide), fun i => ?_⟩
  rw [BitVec.getLsbD_setWidth, h.bit]
  rcases Nat.lt_or_ge i MAX_BASE with hlt | hge
  · simp [hlt]
  · rw [List.getD_eq_default _ _ (hlength.trans ((by decide : 8 ≤ MAX_BASE).trans hge)), Bool.and_false]

theorem bitmap_of_marks {bytes : List UInt8} (h : bytes.length ≤ MAX_BASE) :
    Marks (bitmap_of holds bytes) (bytes.map holds) := by
  unfold bitmap_of from_le_bytes
  fun_induction sum_tree.chunks 7 bytes with
  | case1 bytes hempty =>
    rw [List.isEmpty_iff.mp hempty]
    exact marks_zero _
  | case2 bytes hempty ih =>
    have hrest := ih (by rw [List.length_drop]; omega)
    have hchunk := marks_setWidth (@byte_bits_marks holds _ (List.length_take_le 8 bytes))
    rw [List.map_cons, List.foldr_cons]
    rcases Nat.lt_or_ge bytes.length 8 with hshort | hfull
    · rw [List.take_of_length_le (by omega)] at hchunk ⊢
      rw [List.drop_eq_nil_of_le (by omega), sum_tree.chunks_nil]
      simpa using hchunk
    · have hlength : ((bytes.take 8).map holds).length = 8 := by
        rw [List.length_map, List.length_take]
        omega
      have hboth := hchunk.append hrest (by rw [hlength, List.length_map, List.length_drop]; omega)
      rw [hlength, ← List.map_append, List.take_append_drop] at hboth
      exact hboth

def byteBits (holds : UInt8 → Bool) (text : Str) : List Bool := (utf8 text).map holds

/-- Where the UTF-16 code units of a text are marked. -/
def utf16Bits (text : Str) : List Bool :=
  text.flatMap fun char => true :: (List.range (char.utf8Size - 1)).map fun i => decide (i = 0 ∧ char.utf8Size = 4)

theorem utf8_append_text (left right : Str) : utf8 (left ++ right) = utf8 left ++ utf8 right := List.flatMap_append

theorem utf8_cons (char : Char) (text : Str) : utf8 (char :: text) = String.utf8EncodeChar char ++ utf8 text :=
  List.flatMap_cons

theorem byteBits_append (holds : UInt8 → Bool) (left right : Str) :
    byteBits holds (left ++ right) = byteBits holds left ++ byteBits holds right := by
  rw [byteBits, utf8_append_text, List.map_append]
  rfl

theorem byteBits_length (holds : UInt8 → Bool) (text : Str) : (byteBits holds text).length = (utf8 text).length :=
  List.length_map _

theorem utf16Bits_append (left right : Str) : utf16Bits (left ++ right) = utf16Bits left ++ utf16Bits right :=
  List.flatMap_append

theorem utf16Bits_length (text : Str) : (utf16Bits text).length = (utf8 text).length := by
  induction text with
  | nil => rfl
  | cons char text ih =>
    have hpos := char.utf8Size_pos
    rw [utf8_cons, List.length_append, String.length_utf8EncodeChar, ← ih, utf16Bits, List.flatMap_cons,
      List.length_append, List.length_cons, List.length_map, List.length_range]
    change char.utf8Size - 1 + 1 + (utf16Bits text).length = _
    omega

/-- The bytes of a character: the first one starts it, is 240 or more when there are four, and is a
    newline when the character is one; the others are none of this. -/
theorem char_bits (char : Char) :
    (String.utf8EncodeChar char).map is_utf8_char_boundary = true :: List.replicate (char.utf8Size - 1) false ∧
      (String.utf8EncodeChar char).map (fun b => decide (b ≥ 240)) =
        decide (char.utf8Size = 4) :: List.replicate (char.utf8Size - 1) false ∧
      (String.utf8EncodeChar char).map (fun b => decide (b = 10)) =
        decide (char = '\n') :: List.replicate (char.utf8Size - 1) false := by
  have hlength := String.length_utf8EncodeChar char
  have hnewline : char = '\n' ↔ char.val.toNat = 10 :=
    ⟨fun h => by rw [h]; rfl, fun h => Char.ext (UInt32.toNat_inj.mp h)⟩
  have hcode : char.val.toNat < 0x110000 := by
    rcases char.valid with hlow | ⟨-, hhigh⟩
    · exact hlow.trans (by decide)
    · exact hhigh
  have hboundary : ∀ n, is_utf8_char_boundary (UInt8.ofNat n) = (decide (n % 256 < 128) || decide (192 ≤ n % 256)) := by
    intro n
    simp only [is_utf8_char_boundary, UInt8.lt_iff_toNat_lt, UInt8.le_iff_toNat_le, UInt8.toNat_ofNat']
    rfl
  have hhigh : ∀ n, (decide (UInt8.ofNat n ≥ 240)) = decide (240 ≤ n % 256) := by
    intro n
    simp only [ge_iff_le, UInt8.le_iff_toNat_le, UInt8.toNat_ofNat']
    rfl
  have hten : ∀ n, (decide (UInt8.ofNat n = 10)) = decide (n % 256 = 10) := by
    intro n
    simp only [← UInt8.toNat_inj, UInt8.toNat_ofNat']
    rfl
  unfold String.utf8EncodeChar at hlength ⊢
  simp only at hlength ⊢
  have hdecide : decide (char = '\n') = decide (char.val.toNat = 10) := decide_eq_decide.mpr hnewline
  rw [hdecide]
  split_ifs at hlength ⊢ with h1 h2 h3
  · have hsize : char.utf8Size = 1 := hlength.symm
    rw [hsize]
    simp only [List.map_cons, List.map_nil, hboundary, hhigh, hten, Nat.sub_self, List.replicate_zero,
      List.cons.injEq, and_true, Bool.or_eq_true, decide_eq_true_eq, decide_eq_decide]
    omega
  · have hsize : char.utf8Size = 2 := hlength.symm
    rw [hsize]
    simp only [List.map_cons, List.map_nil, hboundary, hhigh, hten, List.replicate, List.cons.injEq, and_true,
      Bool.or_eq_true, Bool.or_eq_false_iff, decide_eq_false_iff_not, decide_eq_true_eq, decide_eq_decide]
    omega
  · have hsize : char.utf8Size = 3 := hlength.symm
    rw [hsize]
    simp only [List.map_cons, List.map_nil, hboundary, hhigh, hten, List.replicate, List.cons.injEq, and_true,
      Bool.or_eq_true, Bool.or_eq_false_iff, decide_eq_false_iff_not, decide_eq_true_eq, decide_eq_decide]
    omega
  · have hsize : char.utf8Size = 4 := hlength.symm
    rw [hsize]
    simp only [List.map_cons, List.map_nil, hboundary, hhigh, hten, List.replicate, List.cons.injEq, and_true,
      Bool.or_eq_true, Bool.or_eq_false_iff, decide_eq_false_iff_not, decide_eq_true_eq, decide_eq_decide,
      iff_true]
    omega

/-- Where the characters of a text start, and where its newlines are. -/
abbrev charBits (text : Str) : List Bool := byteBits is_utf8_char_boundary text

abbrev newlineBits (text : Str) : List Bool := byteBits (fun b => decide (b = 10)) text

theorem byteBits_cons (holds : UInt8 → Bool) (char : Char) (text : Str) :
    byteBits holds (char :: text) = (String.utf8EncodeChar char).map holds ++ byteBits holds text := by
  rw [byteBits, utf8_cons, List.map_append]
  rfl

theorem charBits_count (text : Str) : (charBits text).count true = text.length := by
  induction text with
  | nil => rfl
  | cons char text ih =>
    rw [charBits, byteBits_cons, (char_bits char).1, List.count_append, List.count_cons_self, List.count_replicate,
      if_neg (by decide), ih, List.length_cons]
    omega

theorem newlineBits_count (text : Str) : (newlineBits text).count true = text.count '\n' := by
  induction text with
  | nil => rfl
  | cons char text ih =>
    rw [newlineBits, byteBits_cons, (char_bits char).2.2, List.count_append, List.count_cons, List.count_replicate,
      if_neg (by decide), ih, List.count_cons]
    simp only [beq_iff_eq, decide_eq_true_eq]
    omega

theorem utf16Bits_count (text : Str) : (utf16Bits text).count true = (text.map len_utf16).sum := by
  induction text with
  | nil => rfl
  | cons char text ih =>
    have hchar : (true :: (List.range (char.utf8Size - 1)).map fun i => decide (i = 0 ∧ char.utf8Size = 4)).count true =
        len_utf16 char := by
      rw [TextSummary.len_utf16_eq]
      rcases char.utf8Size_eq with hsize | hsize | hsize | hsize <;> rw [hsize] <;> rfl
    rw [utf16Bits, List.flatMap_cons, List.count_append, hchar, List.map_cons, List.sum_cons, ← ih]
    rfl

theorem utf16Bits_getD (text : Str) (i : Nat) :
    ((false :: byteBits (fun b => decide (b ≥ 240)) text).getD i false || (charBits text).getD i false) =
      (utf16Bits text).getD i false := by
  induction text generalizing i with
  | nil => cases i <;> rfl
  | cons char text ih =>
    have hunits : utf16Bits (char :: text) =
        (true :: (List.range (char.utf8Size - 1)).map fun i => decide (i = 0 ∧ char.utf8Size = 4)) ++ utf16Bits text :=
      List.flatMap_cons
    rw [hunits, charBits, byteBits_cons, byteBits_cons, (char_bits char).1, (char_bits char).2.1]
    rcases char.utf8Size_eq with hsize | hsize | hsize | hsize <;> rw [hsize]
    · rcases i with _ | i
      · rfl
      · exact ih i
    · rcases i with _ | _ | i
      · rfl
      · rfl
      · exact ih i
    · rcases i with _ | _ | _ | i
      · rfl
      · rfl
      · rfl
      · exact ih i
    · rcases i with _ | _ | _ | _ | i
      · rfl
      · rfl
      · rfl
      · rfl
      · exact ih i

theorem charBits_split (text : Str) {offset : Nat} (h : (charBits text).getD offset false = true) :
    ∃ left right, text = left ++ right ∧ (utf8 left).length = offset := by
  induction text generalizing offset with
  | nil => cases offset <;> cases h
  | cons char text ih =>
    rw [charBits, byteBits_cons, (char_bits char).1] at h
    have hpos := char.utf8Size_pos
    have hlength : (true :: List.replicate (char.utf8Size - 1) false).length = char.utf8Size := by
      rw [List.length_cons, List.length_replicate]
      omega
    rcases Nat.eq_zero_or_pos offset with rfl | hoffset
    · exact ⟨[], char :: text, rfl, rfl⟩
    · rcases Nat.lt_or_ge offset char.utf8Size with hin | hout
      · obtain ⟨n, rfl⟩ := Nat.exists_eq_succ_of_ne_zero hoffset.ne'
        rw [List.getD_eq_getElem?_getD, List.getElem?_append_left (by omega), List.getElem?_cons_succ,
          List.getElem?_replicate, if_pos (by omega)] at h
        cases h
      · rw [List.getD_eq_getElem?_getD, List.getElem?_append_right (by omega), hlength,
          ← List.getD_eq_getElem?_getD] at h
        obtain ⟨left, right, rfl, hleft⟩ := ih h
        refine ⟨char :: left, right, rfl, ?_⟩
        rw [utf8_cons, List.length_append, String.length_utf8EncodeChar, hleft]
        omega

theorem getLsbD_of_and_ne_zero (x : Bitmap) (offset : Nat)
    (h : (BitVec.ofNat MAX_BASE 1 <<< offset) &&& x ≠ 0) : x.getLsbD offset = true := by
  by_contra hclear
  refine h (BitVec.eq_of_getLsbD_eq fun i hi => ?_)
  rw [BitVec.getLsbD_and, BitVec.getLsbD_shiftLeft, BitVec.getLsbD_one]
  by_cases hi' : i = offset
  · subst hi'
    simp [hclear]
  · simp
    omega

theorem take_bytes_append (left right : Str) : take_bytes (utf8 left).length (left ++ right) = left := by
  induction left with
  | nil =>
    cases right with
    | nil => rfl
    | cons char right =>
      have hpos := char.utf8Size_pos
      rw [List.nil_append, take_bytes, if_neg (by change ¬ char.utf8Size ≤ 0; omega)]
  | cons char left ih =>
    rw [utf8_cons, List.length_append, String.length_utf8EncodeChar, List.cons_append, take_bytes,
      if_pos (Nat.le_add_right _ _), Nat.add_sub_cancel_left, ih]

theorem drop_bytes_append (left right : Str) : drop_bytes (utf8 left).length (left ++ right) = right := by
  induction left with
  | nil => rw [drop_bytes.eq_def]; rfl
  | cons char left ih =>
    have hpos := char.utf8Size_pos
    rw [utf8_cons, List.length_append, String.length_utf8EncodeChar, List.cons_append]
    obtain ⟨n, hn⟩ : ∃ n, char.utf8Size + (utf8 left).length = n + 1 :=
      ⟨char.utf8Size + (utf8 left).length - 1, by omega⟩
    rw [hn, drop_bytes, ← hn, Nat.add_sub_cancel_left, ih]

theorem ceil_char_boundary_split (offset : Nat) (text : Str) :
    ∃ left right, text = left ++ right ∧ (utf8 left).length = str.ceil_char_boundary offset text := by
  induction text generalizing offset with
  | nil => cases offset <;> exact ⟨[], [], rfl, rfl⟩
  | cons char text ih =>
    cases offset with
    | zero => exact ⟨[], char :: text, rfl, rfl⟩
    | succ n =>
      obtain ⟨left, right, rfl, hleft⟩ := ih (n + 1 - char.utf8Size)
      refine ⟨char :: left, right, rfl, ?_⟩
      rw [utf8_cons, List.length_append, String.length_utf8EncodeChar, hleft, str.ceil_char_boundary]

theorem floor_char_boundary_split (offset : Nat) (text : Str) :
    ∃ left right, text = left ++ right ∧ (utf8 left).length = str.floor_char_boundary offset text := by
  induction text generalizing offset with
  | nil => exact ⟨[], [], rfl, rfl⟩
  | cons char text ih =>
    rw [str.floor_char_boundary]
    split
    · obtain ⟨left, right, rfl, hleft⟩ := ih (offset - char.utf8Size)
      refine ⟨char :: left, right, rfl, ?_⟩
      rw [utf8_cons, List.length_append, String.length_utf8EncodeChar, hleft]
    · exact ⟨[], char :: text, rfl, rfl⟩

theorem prefix_of_length_le {before after upTo rest : Str} (h : before ++ after = upTo ++ rest)
    (hle : (utf8 before).length ≤ (utf8 upTo).length) : ∃ middle, upTo = before ++ middle := by
  rcases List.append_eq_append_iff.mp h with ⟨middle, hupTo, -⟩ | ⟨excess, rfl, -⟩
  · exact ⟨middle, hupTo⟩
  · have hnone : excess = [] := by
      cases excess with
      | nil => rfl
      | cons char excess =>
        have hpos := char.utf8Size_pos
        rw [utf8_append_text, List.length_append, utf8_cons, List.length_append, String.length_utf8EncodeChar] at hle
        omega
    rw [hnone]
    exact ⟨[], by simp⟩

end Bits

namespace ChunkSlice

/-- The bitmaps are those of the text. -/
structure Valid (slice : ChunkSlice) : Prop where
  chars : Marks slice.chars (charBits slice.text)
  chars_utf16 : Marks slice.chars_utf16 (utf16Bits slice.text)
  newlines : Marks slice.newlines (newlineBits slice.text)
  tabs : Marks slice.tabs (byteBits (fun b => decide (b = 9)) slice.text)

theorem empty_valid : Valid empty := ⟨marks_zero _, marks_zero _, marks_zero _, marks_zero _⟩

theorem Valid.len_le {slice : ChunkSlice} (h : Valid slice) : slice.len ≤ MAX_BASE := by
  have hlength := h.chars.length_le
  rwa [byteBits_length] at hlength

theorem new_valid {text : Str} {chunk : ChunkSlice} (h : Chunk.new text = some chunk) : Valid chunk := by
  unfold Chunk.new at h
  simp only at h
  split at h
  · rename_i hlength
    cases h
    refine ⟨bitmap_of_marks hlength, ⟨by rwa [utf16Bits_length], fun i => ?_⟩, bitmap_of_marks hlength,
      bitmap_of_marks hlength⟩
    have hchars := (@bitmap_of_marks is_utf8_char_boundary _ hlength).bit i
    have hhigh := (@bitmap_of_marks (fun b => decide (b ≥ 240)) _ hlength).bit (i - 1)
    rw [BitVec.getLsbD_or, BitVec.getLsbD_shiftLeft, hchars, hhigh, ← utf16Bits_getD]
    rcases i with _ | i
    · rfl
    · rcases Nat.lt_or_ge (i + 1) MAX_BASE with hlt | hge
      · simp only [hlt, decide_true, Bool.true_and, Nat.add_sub_cancel]
        rfl
      · have hnone := utf16Bits_getD text (i + 1)
        rw [List.getD_eq_default (utf16Bits text) _ (by rw [utf16Bits_length]; omega), Bool.or_eq_false_iff] at hnone
        rw [hnone.1, hnone.2, show (List.map is_utf8_char_boundary (utf8 text)).getD (i + 1) false = false from hnone.2]
        simp [Nat.not_lt.mpr hge]
  · cases h

theorem join_valid {left right chunk : ChunkSlice} (hleft : Valid left) (hright : Valid right)
    (h : join left right = some chunk) : Valid chunk := by
  unfold join at h
  split at h
  · rename_i hlength
    cases h
    have hbits : ∀ holds, (byteBits holds left.text).length = left.len := fun holds => byteBits_length _ _
    have hroom : ∀ holds, (byteBits holds left.text).length + (byteBits holds right.text).length ≤ MAX_BASE := by
      intro holds
      rw [byteBits_length, byteBits_length]
      exact hlength
    refine ⟨?_, ?_, ?_, ?_⟩
    · have happend := hleft.chars.append hright.chars (hroom _)
      rwa [hbits, ← byteBits_append] at happend
    · have hunits : (utf16Bits left.text).length = left.len := utf16Bits_length _
      have happend := hleft.chars_utf16.append hright.chars_utf16 (by rw [utf16Bits_length, utf16Bits_length]; exact hlength)
      rwa [hunits, ← utf16Bits_append] at happend
    · have happend := hleft.newlines.append hright.newlines (hroom _)
      rwa [hbits, ← byteBits_append] at happend
    · have happend := hleft.tabs.append hright.tabs (hroom _)
      rwa [hbits, ← byteBits_append] at happend
  · cases h

theorem append_valid {chunk slice result : ChunkSlice} (hchunk : Valid chunk) (hslice : Valid slice)
    (h : chunk.append slice = some result) : Valid result := by
  unfold append at h
  split at h
  · cases h
    exact hchunk
  · exact join_valid hchunk hslice h

theorem prepend_valid {chunk slice result : ChunkSlice} (hchunk : Valid chunk) (hslice : Valid slice)
    (h : chunk.prepend slice = some result) : Valid result := by
  unfold prepend at h
  split at h
  · cases h
    exact hchunk
  · split at h
    · exact new_valid h
    · exact join_valid hslice hchunk h

theorem Valid.split_text {slice : ChunkSlice} (h : Valid slice) {offset : Nat}
    (hboundary : slice.is_char_boundary offset = true) :
    ∃ left right, slice.text = left ++ right ∧ (utf8 left).length = offset := by
  rw [is_char_boundary, Bool.or_eq_true, decide_eq_true_eq, decide_eq_true_eq] at hboundary
  rcases hboundary with hbit | hend
  · have hset := getLsbD_of_and_ne_zero slice.chars offset hbit
    rw [h.chars.bit] at hset
    exact charBits_split slice.text hset
  · exact ⟨slice.text, [], (List.append_nil _).symm, hend.symm⟩

theorem Valid.take {slice : ChunkSlice} (h : Valid slice) {left right : Str} (htext : slice.text = left ++ right) :
    Valid
      { chars := slice.chars &&& saturating_shl_mask MAX_BASE (utf8 left).length
        chars_utf16 := slice.chars_utf16 &&& saturating_shl_mask MAX_BASE (utf8 left).length
        newlines := slice.newlines &&& saturating_shl_mask MAX_BASE (utf8 left).length
        tabs := slice.tabs &&& saturating_shl_mask MAX_BASE (utf8 left).length
        text := left } := by
  have hbits : ∀ holds, (byteBits holds slice.text).take (utf8 left).length = byteBits holds left := by
    intro holds
    rw [htext, byteBits_append, ← byteBits_length holds left, List.take_left]
  have hunits : (utf16Bits slice.text).take (utf8 left).length = utf16Bits left := by
    rw [htext, utf16Bits_append, ← utf16Bits_length left, List.take_left]
  refine ⟨?_, ?_, ?_, ?_⟩
  · have hmarks := h.chars.take (utf8 left).length
    rwa [hbits] at hmarks
  · have hmarks := h.chars_utf16.take (utf8 left).length
    rwa [hunits] at hmarks
  · have hmarks := h.newlines.take (utf8 left).length
    rwa [hbits] at hmarks
  · have hmarks := h.tabs.take (utf8 left).length
    rwa [hbits] at hmarks

theorem Valid.drop {slice : ChunkSlice} (h : Valid slice) {left right : Str} (htext : slice.text = left ++ right) :
    Valid
      { chars := slice.chars >>> (utf8 left).length
        chars_utf16 := slice.chars_utf16 >>> (utf8 left).length
        newlines := slice.newlines >>> (utf8 left).length
        tabs := slice.tabs >>> (utf8 left).length
        text := right } := by
  have hbits : ∀ holds, (byteBits holds slice.text).drop (utf8 left).length = byteBits holds right := by
    intro holds
    rw [htext, byteBits_append, ← byteBits_length holds left, List.drop_left]
  have hunits : (utf16Bits slice.text).drop (utf8 left).length = utf16Bits right := by
    rw [htext, utf16Bits_append, ← utf16Bits_length left, List.drop_left]
  refine ⟨?_, ?_, ?_, ?_⟩
  · have hmarks := h.chars.drop (utf8 left).length
    rwa [hbits] at hmarks
  · have hmarks := h.chars_utf16.drop (utf8 left).length
    rwa [hunits] at hmarks
  · have hmarks := h.newlines.drop (utf8 left).length
    rwa [hbits] at hmarks
  · have hmarks := h.tabs.drop (utf8 left).length
    rwa [hbits] at hmarks

theorem split_at_valid {slice left right : ChunkSlice} {mid : Nat} (hslice : Valid slice)
    (h : slice.split_at mid = some (left, right)) : Valid left ∧ Valid right := by
  unfold split_at at h
  split at h
  · cases h
    exact ⟨hslice, empty_valid⟩
  · split at h
    · rename_i hboundary
      obtain ⟨before, after, htext, rfl⟩ := hslice.split_text hboundary
      have htake : take_bytes (utf8 before).length slice.text = before := by rw [htext, take_bytes_append]
      have hdrop : drop_bytes (utf8 before).length slice.text = after := by rw [htext, drop_bytes_append]
      cases h
      rw [htake, hdrop]
      exact ⟨hslice.take htext, hslice.drop htext⟩
    · cases h

theorem slice_valid {self result : ChunkSlice} {start stop : Nat} (hself : Valid self)
    (h : self.slice start stop = some result) : Valid result := by
  unfold slice at h
  split at h
  · cases h
    exact empty_valid
  · dsimp only at h
    generalize hceil : (if self.is_char_boundary start then start else str.ceil_char_boundary start self.text) = start' at h
    have hstart : ∃ left right, self.text = left ++ right ∧ (utf8 left).length = start' := by
      rw [← hceil]
      split
      · exact hself.split_text ‹_›
      · exact ceil_char_boundary_split start self.text
    generalize hfloor : (if self.is_char_boundary stop then stop
      else if stop < start' then start' else str.floor_char_boundary stop self.text) = stop' at h
    have hstop : ∃ left right, self.text = left ++ right ∧ (utf8 left).length = stop' := by
      rw [← hfloor]
      split_ifs
      · exact hself.split_text ‹_›
      · exact hstart
      · exact floor_char_boundary_split stop self.text
    obtain ⟨before, after, htext, rfl⟩ := hstart
    obtain ⟨upTo, rest, htext', rfl⟩ := hstop
    split at h
    · rename_i hle
      have htake : take_bytes (utf8 upTo).length self.text = upTo := by rw [htext', take_bytes_append]
      obtain ⟨middle, rfl⟩ := prefix_of_length_le (htext.symm.trans htext') hle.1
      have hdrop : drop_bytes (utf8 before).length (before ++ middle) = middle := drop_bytes_append before middle
      cases h
      rw [htake, hdrop]
      exact (hself.take htext').drop rfl
    · cases h

/-- The slices that the operations make. -/
inductive Made : ChunkSlice → Prop
  | new {text : Str} {chunk : ChunkSlice} : Chunk.new text = some chunk → Made chunk
  | append {chunk slice result : ChunkSlice} : Made chunk → Made slice → chunk.append slice = some result → Made result
  | prepend {chunk slice result : ChunkSlice} :
    Made chunk → Made slice → chunk.prepend slice = some result → Made result
  | split_left {slice left right : ChunkSlice} {mid : Nat} :
    Made slice → slice.split_at mid = some (left, right) → Made left
  | split_right {slice left right : ChunkSlice} {mid : Nat} :
    Made slice → slice.split_at mid = some (left, right) → Made right
  | slice {self result : ChunkSlice} {start stop : Nat} : Made self → self.slice start stop = some result → Made result

theorem Made.valid {slice : ChunkSlice} (h : Made slice) : Valid slice := by
  induction h with
  | new h => exact new_valid h
  | append _ _ h hchunk hslice => exact append_valid hchunk hslice h
  | prepend _ _ h hchunk hslice => exact prepend_valid hchunk hslice h
  | split_left _ h hslice => exact (split_at_valid hslice h).1
  | split_right _ h hslice => exact (split_at_valid hslice h).2
  | slice _ h hself => exact slice_valid hself h

end ChunkSlice

end zed.rope
