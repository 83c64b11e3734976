import Mathlib

namespace zed.rope

/-- A text by its UTF-8 bytes. Offsets count bytes. -/
abbrev Rope := List UInt8

abbrev Str := List Char

def utf8 (text : Str) : Rope := text.flatMap String.utf8EncodeChar

/-- Replaces every match of `\r\n|\r` by a line feed. -/
def normalize : Str → Str
  | [] => []
  | '\r' :: '\n' :: chars => '\n' :: normalize chars
  | '\r' :: chars => '\n' :: normalize chars
  | char :: chars => char :: normalize chars

/-- Not a continuation byte: `self as i8 >= -0x40`. -/
def is_utf8_char_boundary (byte : UInt8) : Bool := decide (byte < 0x80) || decide (0xC0 ≤ byte)

def is_char_boundary (text : Rope) (index : Nat) : Bool :=
  if index = 0 then true
  else
    match text[index]? with
    | some byte => is_utf8_char_boundary byte
    | none => decide (index = text.length)

/-- The last boundary at or before a position. -/
def last_boundary (text : Rope) : Nat → Nat
  | 0 => 0
  | index + 1 => if is_char_boundary text (index + 1) then index + 1 else last_boundary text index

def floor_char_boundary (text : Rope) (index : Nat) : Nat :=
  if index ≥ text.length then text.length else last_boundary text index

theorem last_boundary_le (text : Rope) (index : Nat) : last_boundary text index ≤ index := by
  induction index with
  | zero => exact le_rfl
  | succ index ih =>
    rw [last_boundary]
    split
    · exact le_rfl
    · omega

theorem le_last_boundary {text : Rope} {boundary index : Nat} (hle : boundary ≤ index)
    (hboundary : is_char_boundary text boundary = true) : boundary ≤ last_boundary text index := by
  induction index with
  | zero => exact hle
  | succ index ih =>
    rw [last_boundary]
    split
    · exact hle
    · rename_i hnot
      have hne : boundary ≠ index + 1 := by
        rintro rfl
        exact hnot hboundary
      exact ih (by omega)

theorem first_byte_boundary : ∀ byte : UInt8, byte.IsUTF8FirstByte →
    is_utf8_char_boundary byte = true := by
  intro byte hfirst
  have hall : ∀ n : Fin 256, (UInt8.ofNat n.val).IsUTF8FirstByte →
      is_utf8_char_boundary (UInt8.ofNat n.val) = true := by
    unfold UInt8.IsUTF8FirstByte
    decide +kernel
  have hbyte : UInt8.ofNat byte.toNat = byte := UInt8.ofNat_toNat
  have := hall ⟨byte.toNat, byte.toNat_lt⟩
  rw [hbyte] at this
  exact this hfirst

theorem is_char_boundary_utf8 (before after : Str) :
    is_char_boundary (utf8 (before ++ after)) (utf8 before).length = true := by
  have happend : utf8 (before ++ after) = utf8 before ++ utf8 after := List.flatMap_append
  unfold is_char_boundary
  split
  · rfl
  · rw [happend, List.getElem?_append_right le_rfl, Nat.sub_self]
    cases after with
    | nil => simp [utf8]
    | cons char after =>
      have hcons : utf8 (char :: after) = String.utf8EncodeChar char ++ utf8 after := by simp [utf8]
      have hpos : 0 < (String.utf8EncodeChar char).length := by
        rw [String.length_utf8EncodeChar]
        exact char.utf8Size_pos
      rw [hcons, List.getElem?_append_left hpos, List.getElem?_eq_getElem hpos]
      exact first_byte_boundary _ (UInt8.isUTF8FirstByte_getElem_zero_utf8EncodeChar)

theorem exists_boundary (text : Str) {index : Nat} (hindex : index < (utf8 text).length) :
    ∃ boundary, boundary ≤ index ∧ index < boundary + 4 ∧
      is_char_boundary (utf8 text) boundary = true := by
  suffices hsuffices : ∀ (before : Rope) (text : Str), index < (before ++ utf8 text).length →
      before.length ≤ index → ∃ boundary, before.length ≤ boundary ∧ boundary ≤ index ∧
        index < boundary + 4 ∧ is_char_boundary (before ++ utf8 text) boundary = true by
    obtain ⟨boundary, _, hle, hlt, hboundary⟩ := hsuffices [] text (by simpa using hindex)
      (Nat.zero_le _)
    exact ⟨boundary, hle, hlt, by simpa using hboundary⟩
  intro before text
  induction text generalizing before with
  | nil =>
    intro hlt hle
    simp [utf8] at hlt
    omega
  | cons char text ih =>
    intro hlt hle
    have hcons : utf8 (char :: text) = String.utf8EncodeChar char ++ utf8 text := by simp [utf8]
    have hsize := String.length_utf8EncodeChar char
    have hpos := char.utf8Size_pos
    have hfour := char.utf8Size_le_four
    by_cases hin : index < before.length + char.utf8Size
    · refine ⟨before.length, le_rfl, hle, by omega, ?_⟩
      have hfirst : is_utf8_char_boundary (String.utf8EncodeChar char)[0] = true :=
        first_byte_boundary _ (UInt8.isUTF8FirstByte_getElem_zero_utf8EncodeChar)
      have hget : (before ++ utf8 (char :: text))[before.length]? =
          some (String.utf8EncodeChar char)[0] := by
        rw [hcons, List.getElem?_append_right le_rfl, Nat.sub_self,
          List.getElem?_append_left (by omega)]
        exact List.getElem?_eq_getElem _
      unfold is_char_boundary
      split
      · rfl
      · rw [hget]
        exact hfirst
    · rw [hcons, ← List.append_assoc] at hlt ⊢
      obtain ⟨boundary, hge, hrest⟩ := ih (before ++ String.utf8EncodeChar char) hlt
        (by rw [List.length_append]; omega)
      rw [List.length_append] at hge
      exact ⟨boundary, by omega, hrest⟩

theorem lt_floor_char_boundary (text : Str) {index : Nat} (hindex : index < (utf8 text).length) :
    index < floor_char_boundary (utf8 text) index + 4 := by
  obtain ⟨boundary, hle, hlt, hboundary⟩ := exists_boundary text hindex
  have := le_last_boundary hle hboundary
  unfold floor_char_boundary
  split <;> omega

theorem floor_char_boundary_le (text : Rope) {index : Nat} (hindex : index < text.length) :
    floor_char_boundary text index ≤ index := by
  rw [floor_char_boundary, if_neg (by omega)]
  exact last_boundary_le text index

/-- A cursor of a rope. -/
structure Cursor where
  text : Rope
  offset : Nat

namespace Cursor

def slice (cursor : Cursor) (end_offset : Nat) : Rope × Cursor :=
  ((cursor.text.take end_offset).drop cursor.offset, { cursor with offset := end_offset })

/-- The length of the text up to an offset, and the cursor moved there. -/
def summary (cursor : Cursor) (end_offset : Nat) : Nat × Cursor :=
  ((cursor.slice end_offset).1.length, (cursor.slice end_offset).2)

def seek_forward (cursor : Cursor) (end_offset : Nat) : Cursor := { cursor with offset := end_offset }

def suffix (cursor : Cursor) : Rope := cursor.text.drop cursor.offset

end Cursor

end zed.rope
