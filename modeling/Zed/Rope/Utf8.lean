import Zed.Rope.Chunks

namespace zed.rope

/-- Where `str::from_utf8` stops, and the length of the invalid sequence there, or none when the bytes
    end inside a character. -/
structure Utf8Error where
  valid_up_to : Nat
  error_len : Option Nat
deriving DecidableEq

/-- The length of a character by its first byte, 0 for a byte that starts none. -/
def utf8_char_width (first : UInt8) : Nat :=
  if first < 0x80 then 1
  else if first < 0xC2 then 0
  else if first < 0xE0 then 2
  else if first < 0xF0 then 3
  else if first < 0xF5 then 4
  else 0

/-- `byte as i8 < -64` -/
def is_continuation (byte : UInt8) : Bool := decide (0x80 ≤ byte) && decide (byte ≤ 0xBF)

/-- The second bytes of the longer characters: no overlong ones, no surrogates, none above the last. -/
def may_follow (first second : UInt8) : Bool :=
  if first = 0xE0 then decide (0xA0 ≤ second) && decide (second ≤ 0xBF)
  else if first = 0xED then decide (0x80 ≤ second) && decide (second ≤ 0x9F)
  else if first = 0xF0 then decide (0x90 ≤ second) && decide (second ≤ 0xBF)
  else if first = 0xF4 then decide (0x80 ≤ second) && decide (second ≤ 0x8F)
  else is_continuation second

/-- What the bytes after the first one of a character lack. -/
def tail_error (first : UInt8) : Nat → List UInt8 → Option Nat
  | 2, [] | 3, [] | 4, [] => none
  | 3, [second] => if may_follow first second then none else some 1
  | 3, second :: _ :: _ => if may_follow first second then some 2 else some 1
  | 4, [second] => if may_follow first second then none else some 1
  | 4, [second, third] =>
    if may_follow first second then if is_continuation third then none else some 2 else some 1
  | 4, second :: third :: _ :: _ =>
    if may_follow first second then if is_continuation third then some 3 else some 2 else some 1
  | _, _ => some 1

/-- The length of the invalid sequence at the front of bytes that start with no whole character. -/
def error_len : List UInt8 → Option Nat
  | [] => none
  | first :: rest => tail_error first (utf8_char_width first) rest

/-- The character at the front of the bytes, when it is all there. -/
def next_char (bytes : List UInt8) : Option Char := bytes.toByteArray.utf8DecodeChar? 0

theorem next_char_append (char : Char) (bytes : List UInt8) :
    next_char (String.utf8EncodeChar char ++ bytes) = some char := by
  rw [next_char, List.toByteArray_append]
  exact ByteArray.utf8DecodeChar?_utf8EncodeChar_append

theorem exists_of_next_char {bytes : List UInt8} {char : Char} (h : next_char bytes = some char) :
    ∃ rest, bytes = String.utf8EncodeChar char ++ rest := by
  obtain ⟨rest, hrest⟩ := ByteArray.exists_of_utf8DecodeChar?_eq_some h
  refine ⟨rest.data.toList, ?_⟩
  have hdata := congrArg (fun bytes => bytes.data.toList) hrest
  simpa using hdata

/-- `str::from_utf8` -/
def from_utf8 (bytes : List UInt8) : Except Utf8Error Str :=
  if bytes = [] then .ok []
  else
    match h : next_char bytes with
    | none => .error ⟨0, error_len bytes⟩
    | some char =>
      match from_utf8 (bytes.drop char.utf8Size) with
      | .ok text => .ok (char :: text)
      | .error e => .error { e with valid_up_to := char.utf8Size + e.valid_up_to }
termination_by bytes.length
decreasing_by
  obtain ⟨rest, rfl⟩ := exists_of_next_char h
  have hpos := char.utf8Size_pos
  simp only [List.length_drop, List.length_append, String.length_utf8EncodeChar]
  omega

section Decoding

@[simp] theorem from_utf8_nil : from_utf8 [] = .ok [] := by
  rw [from_utf8, if_pos rfl]

theorem encode_ne_nil (char : Char) : String.utf8EncodeChar char ≠ [] := by
  intro hnil
  have hlength := String.length_utf8EncodeChar char
  rw [hnil, List.length_nil] at hlength
  exact absurd char.utf8Size_pos (by omega)

theorem from_utf8_char (char : Char) (bytes : List UInt8) :
    from_utf8 (String.utf8EncodeChar char ++ bytes) =
      match from_utf8 bytes with
      | .ok text => .ok (char :: text)
      | .error e => .error { e with valid_up_to := char.utf8Size + e.valid_up_to } := by
  have hne : String.utf8EncodeChar char ++ bytes ≠ [] := fun hnil =>
    encode_ne_nil char (List.append_eq_nil_iff.mp hnil).1
  have hdrop : (String.utf8EncodeChar char ++ bytes).drop char.utf8Size = bytes :=
    List.drop_left' (String.length_utf8EncodeChar char)
  rw [from_utf8, if_neg hne]
  split
  · rename_i hnone
    rw [next_char_append] at hnone
    cases hnone
  · rename_i found hsome
    rw [next_char_append] at hsome
    cases hsome
    rw [hdrop]

theorem from_utf8_append (text : Str) (bytes : List UInt8) :
    from_utf8 (utf8 text ++ bytes) =
      match from_utf8 bytes with
      | .ok rest => .ok (text ++ rest)
      | .error e => .error { e with valid_up_to := byteLen text + e.valid_up_to } := by
  induction text with
  | nil =>
    rw [utf8, List.flatMap_nil, List.nil_append]
    cases from_utf8 bytes with
    | ok rest => rfl
    | error e => simp only [byteLen_nil, Nat.zero_add]
  | cons char text ih =>
    rw [utf8_cons, List.append_assoc, from_utf8_char, ih]
    cases from_utf8 bytes with
    | ok rest => rfl
    | error e => simp only [byteLen_cons, Nat.add_assoc]

theorem from_utf8_utf8 (text : Str) : from_utf8 (utf8 text) = .ok text := by
  have happend := from_utf8_append text []
  rw [from_utf8_nil, List.append_nil] at happend
  simpa only [List.append_nil] using happend

theorem utf8_injective : Function.Injective utf8 := by
  intro left right h
  have hdecode := from_utf8_utf8 left
  rw [h, from_utf8_utf8] at hdecode
  exact (Except.ok.inj hdecode).symm

theorem exists_prefix (bytes : List UInt8) :
    ∃ text rest, bytes = utf8 text ++ rest ∧ (rest = [] ∨ next_char rest = none) := by
  induction hn : bytes.length using Nat.strong_induction_on generalizing bytes with
  | _ n ih =>
    cases h : next_char bytes with
    | none => exact ⟨[], bytes, rfl, Or.inr h⟩
    | some char =>
      obtain ⟨after, rfl⟩ := exists_of_next_char h
      have hpos := char.utf8Size_pos
      rw [List.length_append, String.length_utf8EncodeChar] at hn
      obtain ⟨text, rest, rfl, hrest⟩ := ih after.length (by omega) after rfl
      exact ⟨char :: text, rest, by rw [utf8_cons, List.append_assoc], hrest⟩

theorem from_utf8_stuck {bytes : List UInt8} (hne : bytes ≠ []) (h : next_char bytes = none) :
    from_utf8 bytes = .error ⟨0, error_len bytes⟩ := by
  rw [from_utf8, if_neg hne]
  split
  · rfl
  · rename_i hsome
    rw [h] at hsome
    cases hsome

theorem from_utf8_ok {bytes : List UInt8} {text : Str} (h : from_utf8 bytes = .ok text) : bytes = utf8 text := by
  obtain ⟨before, rest, rfl, hrest⟩ := exists_prefix bytes
  rw [from_utf8_append] at h
  by_cases hnil : rest = []
  · subst hnil
    rw [from_utf8_nil] at h
    cases h
    rw [List.append_nil, List.append_nil]
  · rw [from_utf8_stuck hnil (hrest.resolve_left hnil)] at h
    cases h

theorem from_utf8_error {bytes : List UInt8} {e : Utf8Error} (h : from_utf8 bytes = .error e) :
    ∃ text rest, bytes = utf8 text ++ rest ∧ rest ≠ [] ∧ next_char rest = none ∧
      e.valid_up_to = byteLen text ∧ e.error_len = error_len rest := by
  obtain ⟨text, rest, rfl, hrest⟩ := exists_prefix bytes
  rw [from_utf8_append] at h
  by_cases hnil : rest = []
  · subst hnil
    rw [from_utf8_nil] at h
    cases h
  · rw [from_utf8_stuck hnil (hrest.resolve_left hnil)] at h
    cases h
    exact ⟨text, rest, rfl, hnil, hrest.resolve_left hnil, rfl, rfl⟩

end Decoding

section Truncated

theorem error_len_none {rest : List UInt8} (h : error_len rest = none) :
    rest.length ≤ 3 ∧ ∀ byte ∈ rest, 0x80 ≤ byte := by
  have hwidth : ∀ first : UInt8, utf8_char_width first ≠ 1 → 0x80 ≤ first := fun first hne => by
    by_contra hlt
    rw [utf8_char_width, if_pos (UInt8.not_le.mp hlt)] at hne
    exact hne rfl
  have hfollow : ∀ first second : UInt8, may_follow first second = true → 0x80 ≤ second := by
    intro first second hmay
    unfold may_follow is_continuation at hmay
    simp only [UInt8.le_iff_toNat_le] at hmay ⊢
    split_ifs at hmay <;> simp at hmay <;> simp <;> omega
  have hcontinues : ∀ third : UInt8, is_continuation third = true → 0x80 ≤ third := fun third hthird =>
    of_decide_eq_true (Bool.and_eq_true_iff.mp hthird).1
  match rest with
  | [] => exact ⟨Nat.zero_le _, fun _ hmem => absurd hmem List.not_mem_nil⟩
  | first :: tail =>
    rw [error_len] at h
    generalize hwide : utf8_char_width first = width at h
    have hfirst : width ≠ 1 → 0x80 ≤ first := hwide ▸ hwidth first
    unfold tail_error at h
    split at h
    · exact ⟨by simp, by simpa using hfirst (by decide)⟩
    · exact ⟨by simp, by simpa using hfirst (by decide)⟩
    · exact ⟨by simp, by simpa using hfirst (by decide)⟩
    · rename_i second
      have hmay : may_follow first second = true := by
        by_contra hnot
        rw [if_neg hnot] at h
        cases h
      exact ⟨by simp, by simpa using ⟨hfirst (by decide), hfollow first second hmay⟩⟩
    · split at h <;> cases h
    · rename_i second
      have hmay : may_follow first second = true := by
        by_contra hnot
        rw [if_neg hnot] at h
        cases h
      exact ⟨by simp, by simpa using ⟨hfirst (by decide), hfollow first second hmay⟩⟩
    · rename_i second third
      have hmay : may_follow first second = true := by
        by_contra hnot
        rw [if_neg hnot] at h
        cases h
      rw [if_pos hmay] at h
      have hthird : is_continuation third = true := by
        by_contra hnot
        rw [if_neg hnot] at h
        cases h
      exact ⟨by simp, by simpa using ⟨hfirst (by decide), hfollow first second hmay, hcontinues third hthird⟩⟩
    · split at h
      · split at h <;> cases h
      · cases h
    · cases h

theorem width_eq_two {n : Nat} (hlow : 0xC2 ≤ n) (hhigh : n < 0xE0) : utf8_char_width (.ofNat n) = 2 := by
  simp only [utf8_char_width, UInt8.lt_iff_toNat_lt, UInt8.toNat_ofNat', UInt8.reduceToNat]
  rw [if_neg (by omega), if_neg (by omega), if_pos (by omega)]

theorem width_eq_three {n : Nat} (hlow : 0xE0 ≤ n) (hhigh : n < 0xF0) : utf8_char_width (.ofNat n) = 3 := by
  simp only [utf8_char_width, UInt8.lt_iff_toNat_lt, UInt8.toNat_ofNat', UInt8.reduceToNat]
  rw [if_neg (by omega), if_neg (by omega), if_neg (by omega), if_pos (by omega)]

theorem width_eq_four {n : Nat} (hlow : 0xF0 ≤ n) (hhigh : n < 0xF5) : utf8_char_width (.ofNat n) = 4 := by
  simp only [utf8_char_width, UInt8.lt_iff_toNat_lt, UInt8.toNat_ofNat', UInt8.reduceToNat]
  rw [if_neg (by omega), if_neg (by omega), if_neg (by omega), if_neg (by omega), if_pos (by omega)]

theorem is_continuation_ofNat (n : Nat) : is_continuation (.ofNat (n % 64 + 128)) = true := by
  simp only [is_continuation, UInt8.le_iff_toNat_le, UInt8.toNat_ofNat', UInt8.reduceToNat, Bool.and_eq_true,
    decide_eq_true_eq]
  omega

theorem may_follow_three {v : Nat} (hlow : 0x800 ≤ v) (hhigh : v < 0x10000) (h : v < 0xD800 ∨ 0xDFFF < v) :
    may_follow (.ofNat (v / 4096 % 16 + 224)) (.ofNat (v / 64 % 64 + 128)) = true := by
  simp only [may_follow, is_continuation, UInt8.le_iff_toNat_le, ← UInt8.toNat_inj, UInt8.toNat_ofNat',
    UInt8.reduceToNat]
  split_ifs <;> simp only [Bool.and_eq_true, decide_eq_true_eq] <;> omega

theorem may_follow_four {v : Nat} (hlow : 0x10000 ≤ v) (hhigh : v < 0x110000) :
    may_follow (.ofNat (v / 262144 % 8 + 240)) (.ofNat (v / 4096 % 64 + 128)) = true := by
  simp only [may_follow, is_continuation, UInt8.le_iff_toNat_le, ← UInt8.toNat_inj, UInt8.toNat_ofNat',
    UInt8.reduceToNat]
  split_ifs <;> simp only [Bool.and_eq_true, decide_eq_true_eq] <;> omega

theorem error_len_take (char : Char) {k : Nat} (hpos : 0 < k) (hlt : k < char.utf8Size) :
    error_len ((String.utf8EncodeChar char).take k) = none := by
  have hcode : char.val.toNat < 0x110000 := by
    rcases char.valid with hlow | ⟨-, hhigh⟩
    · exact hlow.trans (by decide)
    · exact hhigh
  have hsurrogate : char.val.toNat < 0xD800 ∨ 0xDFFF < char.val.toNat := by
    rcases char.valid with hlow | ⟨hhigh, -⟩
    · exact Or.inl hlow
    · exact Or.inr hhigh
  rw [← String.length_utf8EncodeChar] at hlt
  unfold String.utf8EncodeChar at hlt ⊢
  generalize char.val.toNat = v at hlt hcode hsurrogate ⊢
  simp only at hlt ⊢
  split_ifs at hlt ⊢ with hone htwo hthree
  · simp only [List.length_singleton] at hlt
    omega
  · obtain rfl : k = 1 := by simp only [List.length_cons, List.length_nil] at hlt; omega
    have hwidth : utf8_char_width (.ofNat (v / 64 % 32 + 192)) = 2 := width_eq_two (by omega) (by omega)
    simp only [List.take_succ_cons, List.take_zero, error_len, hwidth, tail_error]
  · have hwidth : utf8_char_width (.ofNat (v / 4096 % 16 + 224)) = 3 := width_eq_three (by omega) (by omega)
    have hmay : may_follow (.ofNat (v / 4096 % 16 + 224)) (.ofNat (v / 64 % 64 + 128)) = true :=
      may_follow_three (by omega) (by omega) hsurrogate
    obtain rfl | rfl : k = 1 ∨ k = 2 := by simp only [List.length_cons, List.length_nil] at hlt; omega
    · simp only [List.take_succ_cons, List.take_zero, error_len, hwidth, tail_error]
    · simp only [List.take_succ_cons, List.take_zero, error_len, hwidth, tail_error, hmay, if_true]
  · have hwidth : utf8_char_width (.ofNat (v / 262144 % 8 + 240)) = 4 := width_eq_four (by omega) (by omega)
    have hmay : may_follow (.ofNat (v / 262144 % 8 + 240)) (.ofNat (v / 4096 % 64 + 128)) = true :=
      may_follow_four (by omega) (by omega)
    have hthird : is_continuation (.ofNat (v / 64 % 64 + 128)) = true := is_continuation_ofNat _
    obtain rfl | rfl | rfl : k = 1 ∨ k = 2 ∨ k = 3 := by simp only [List.length_cons, List.length_nil] at hlt; omega
    · simp only [List.take_succ_cons, List.take_zero, error_len, hwidth, tail_error]
    · simp only [List.take_succ_cons, List.take_zero, error_len, hwidth, tail_error, hmay, if_true]
    · simp only [List.take_succ_cons, List.take_zero, error_len, hwidth, tail_error, hmay, hthird, if_true]

theorem error_len_of_prefix {rest more : List UInt8} {text : Str} (hne : rest ≠ []) (h : next_char rest = none)
    (htext : rest ++ more = utf8 text) : error_len rest = none := by
  cases text with
  | nil => exact absurd (List.append_eq_nil_iff.mp htext).1 hne
  | cons char text =>
    rw [utf8_cons] at htext
    rcases Nat.lt_or_ge rest.length char.utf8Size with hshort | hlong
    · have hrest : rest = (String.utf8EncodeChar char).take rest.length := by
        have htake := congrArg (List.take rest.length) htext
        rwa [List.take_left, List.take_append_of_le_length
          (by rw [String.length_utf8EncodeChar]; exact hshort.le)] at htake
      rw [hrest]
      exact error_len_take char (List.length_pos_of_ne_nil hne) hshort
    · have hrest : rest = String.utf8EncodeChar char ++ rest.drop char.utf8Size := by
        have htake := congrArg (List.take char.utf8Size) htext
        rw [List.take_append_of_le_length hlong, List.take_left' (String.length_utf8EncodeChar char)] at htake
        rw [← htake, List.take_append_drop]
      rw [hrest, next_char_append] at h
      cases h

end Truncated

end zed.rope
