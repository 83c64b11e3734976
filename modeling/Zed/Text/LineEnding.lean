import Zed.Rope.Text

namespace zed.text

open zed.rope

inductive LineEnding
  | Unix
  | Windows
deriving DecidableEq

namespace LineEnding

/-- The line ending of the platform. -/
def default (unix : Bool) : LineEnding := if unix then .Unix else .Windows

def as_str : LineEnding → Str
  | .Unix => ['\n']
  | .Windows => ['\r', '\n']

/-- Looks for a newline in the first thousand bytes, up to a character boundary. -/
def detect (unix : Bool) (text : Str) : LineEnding :=
  let bytes := utf8 text
  let max_ix := last_boundary bytes (min bytes.length 1000)
  match (bytes.take max_ix).idxOf? 10 with
  | some ix => if ix > 0 ∧ bytes[ix - 1]? = some 13 then .Windows else .Unix
  | none => default unix

/-- Converts a text to use this line ending, by the ending that is detected first. -/
def apply (unix : Bool) (ending : LineEnding) (text : Str) : Str :=
  match detect unix text, ending with
  | .Unix, .Unix | .Windows, .Windows => text
  | .Unix, .Windows => text.flatMap fun char => if char = '\n' then ['\r', '\n'] else [char]
  | .Windows, .Unix => normalize text

end LineEnding

/-- `split_inclusive('\n')`. -/
def split_inclusive : Str → List Str
  | [] => []
  | char :: chars =>
    if char = '\n' then ['\n'] :: split_inclusive chars
    else
      match split_inclusive chars with
      | [] => [[char]]
      | line :: lines => (char :: line) :: lines

/-- A line without the ending that `str::lines` takes off. -/
def strip_ending (line : Str) : Str :=
  if line.getLast? = some '\n' then
    if line.dropLast.getLast? = some '\r' then line.dropLast.dropLast else line.dropLast
  else line

def lines (text : Str) : List Str := (split_inclusive text).map strip_ending

/-- A chunk with its newlines replaced by a line ending. -/
def chunk_with_line_ending (ending : LineEnding) (chunk : Str) : Str :=
  let end_with_newline := if chunk.getLast? = some '\n' then ending.as_str else []
  let lines :=
    match lines chunk with
    | [] => []
    | line :: lines => line ++ lines.flatMap fun line => ending.as_str ++ line
  lines ++ end_with_newline

def chunks_with_line_ending (chunks : List Str) (ending : LineEnding) : Str :=
  chunks.flatMap (chunk_with_line_ending ending)

/-- What `Buffer::new` makes of a text: its line ending, and the text for the rope. -/
def load (unix : Bool) (base_text : Str) : LineEnding × Str :=
  (LineEnding.detect unix base_text, normalize base_text)

/-- A text without line separators. -/
structure Line where
  chars : Str
  plain : '\n' ∉ chars ∧ '\r' ∉ chars

/-- A text all of whose line separators are the same. -/
def joined (ending : LineEnding) (first : Line) (rest : List Line) : Str :=
  first.chars ++ rest.flatMap fun line => ending.as_str ++ line.chars

section Bytes

theorem toNat_of_mem_utf8EncodeChar {char : Char} {byte : UInt8} (hbyte : byte < 128)
    (h : byte ∈ String.utf8EncodeChar char) : char.val.toNat = byte.toNat := by
  have hlt : byte.toNat < 128 := hbyte
  have hcode : char.val.toNat < 0x110000 := by
    rcases char.valid with hlow | ⟨-, hhigh⟩
    · exact hlow.trans (by decide)
    · exact hhigh
  unfold String.utf8EncodeChar at h
  simp only at h
  split at h
  · obtain rfl := List.mem_singleton.mp h
    simp only [UInt8.toNat_ofNat']
    omega
  · split at h
    · simp only [List.mem_cons, List.not_mem_nil, or_false] at h
      rcases h with rfl | rfl <;> simp only [UInt8.toNat_ofNat'] at hlt <;> omega
    · split at h
      · simp only [List.mem_cons, List.not_mem_nil, or_false] at h
        rcases h with rfl | rfl | rfl <;> simp only [UInt8.toNat_ofNat'] at hlt <;> omega
      · simp only [List.mem_cons, List.not_mem_nil, or_false] at h
        rcases h with rfl | rfl | rfl | rfl <;> simp only [UInt8.toNat_ofNat'] at hlt <;> omega

theorem newline_not_mem_utf8 {text : Str} (h : '\n' ∉ text) : (10 : UInt8) ∉ utf8 text := by
  intro hmem
  obtain ⟨char, hchar, hbyte⟩ := List.mem_flatMap.mp hmem
  have hcode : char.val.toNat = 10 := toNat_of_mem_utf8EncodeChar (by decide) hbyte
  obtain rfl : char = '\n' := Char.ext (UInt32.toNat_inj.mp hcode)
  exact h hchar

theorem return_not_mem_utf8 {text : Str} (h : '\r' ∉ text) : (13 : UInt8) ∉ utf8 text := by
  intro hmem
  obtain ⟨char, hchar, hbyte⟩ := List.mem_flatMap.mp hmem
  have hcode : char.val.toNat = 13 := toNat_of_mem_utf8EncodeChar (by decide) hbyte
  obtain rfl : char = '\r' := Char.ext (UInt32.toNat_inj.mp hcode)
  exact h hchar

theorem utf8_append (left right : Str) : utf8 (left ++ right) = utf8 left ++ utf8 right := List.flatMap_append

theorem idxOf?_take_append {α : Type} [DecidableEq α] {before after : List α} {a : α} (h : a ∉ before) (length : Nat) :
    ((before ++ a :: after).take length).idxOf? a = if before.length < length then some before.length else none := by
  induction before generalizing length with
  | nil => cases length <;> simp [List.idxOf?_cons]
  | cons b before ih =>
    have hb : b ≠ a := fun heq => h (heq ▸ List.mem_cons_self)
    cases length with
    | zero => rfl
    | succ length =>
      have hrest := ih (fun hmem => h (List.mem_cons_of_mem _ hmem)) length
      rw [List.cons_append, List.take_succ_cons, List.idxOf?_cons, hrest, List.length_cons]
      by_cases hlt : before.length < length <;> simp [hb, hlt]

end Bytes

namespace LineEnding

variable {unix : Bool}

theorem detect_of_no_newline {text : Str} (h : '\n' ∉ text) : detect unix text = default unix := by
  have hnone : ((utf8 text).take (last_boundary (utf8 text) (min (utf8 text).length 1000))).idxOf? 10 = none :=
    List.idxOf?_eq_none_iff.mpr fun hmem => newline_not_mem_utf8 h (List.mem_of_mem_take hmem)
  simp only [detect, hnone]

theorem detect_of_newline {before after : Str} (h : '\n' ∉ before) :
    detect unix (before ++ '\n' :: after) =
      if (utf8 before).length < 1000 then
        if 0 < (utf8 before).length ∧ (utf8 before)[(utf8 before).length - 1]? = some 13 then .Windows else .Unix
      else default unix := by
  have hbytes : utf8 (before ++ '\n' :: after) = utf8 before ++ 10 :: utf8 after := by
    rw [utf8_append]
    rfl
  have hlength : (utf8 (before ++ '\n' :: after)).length = (utf8 before).length + (utf8 after).length + 1 := by
    rw [hbytes, List.length_append, List.length_cons, Nat.add_assoc]
  have hbefore := newline_not_mem_utf8 h
  have hnext : is_char_boundary (utf8 (before ++ '\n' :: after)) ((utf8 before).length + 1) = true := by
    have hboundary := is_char_boundary_utf8 (before ++ ['\n']) after
    rwa [List.append_assoc, utf8_append before ['\n'], List.length_append] at hboundary
  have hfind : ((utf8 (before ++ '\n' :: after)).take
      (last_boundary (utf8 (before ++ '\n' :: after)) (min (utf8 (before ++ '\n' :: after)).length 1000))).idxOf? 10 =
        if (utf8 before).length < 1000 then some (utf8 before).length else none := by
    rw [hbytes, idxOf?_take_append hbefore, ← hbytes]
    by_cases hnear : (utf8 before).length < 1000
    · have hmax : (utf8 before).length + 1 ≤ min (utf8 (before ++ '\n' :: after)).length 1000 := by omega
      rw [if_pos (Nat.lt_of_succ_le (le_last_boundary hmax hnext)), if_pos hnear]
    · have hmax := last_boundary_le (utf8 (before ++ '\n' :: after))
        (min (utf8 (before ++ '\n' :: after)).length 1000)
      rw [if_neg (by omega), if_neg hnear]
  unfold detect
  simp only [hfind]
  by_cases hnear : (utf8 before).length < 1000
  · simp only [if_pos hnear]
    rcases Nat.eq_zero_or_pos (utf8 before).length with hzero | hpos
    · rw [if_neg (by omega), if_neg (by omega)]
    · rw [hbytes, List.getElem?_append_left (by omega)]
  · simp only [if_neg hnear]

end LineEnding

section Separators

/-- A text with its newlines replaced by those of a line ending. -/
def replace (ending : LineEnding) (text : Str) : Str :=
  text.flatMap fun char => if char = '\n' then ending.as_str else [char]

theorem replace_plain (ending : LineEnding) {text : Str} (h : '\n' ∉ text) : replace ending text = text := by
  induction text with
  | nil => rfl
  | cons char text ih =>
    have hchar : char ≠ '\n' := fun heq => h (heq ▸ List.mem_cons_self)
    rw [replace, List.flatMap_cons, if_neg hchar]
    exact congrArg (char :: ·) (ih fun hmem => h (List.mem_cons_of_mem _ hmem))

theorem replace_joined (ending : LineEnding) (first : Line) (rest : List Line) :
    replace ending (joined .Unix first rest) = joined ending first rest := by
  have hrest : ∀ rest : List Line, (rest.flatMap fun line => LineEnding.Unix.as_str ++ line.chars).flatMap
      (fun char => if char = '\n' then ending.as_str else [char]) =
        rest.flatMap fun line => ending.as_str ++ line.chars := by
    intro rest
    induction rest with
    | nil => rfl
    | cons line rest ih =>
      have hline := replace_plain ending line.plain.1
      rw [replace] at hline
      rw [List.flatMap_cons, List.flatMap_append, List.flatMap_append, ih, hline, List.flatMap_cons]
      simp [LineEnding.as_str]
  rw [replace, joined, List.flatMap_append, hrest, joined]
  exact congrArg (· ++ _) (replace_plain ending first.plain.1)

theorem normalize_plain {text : Str} (h : '\r' ∉ text) (chars : Str) :
    normalize (text ++ chars) = text ++ normalize chars := by
  induction text with
  | nil => rfl
  | cons char text ih =>
    have hchar : char ≠ '\r' := fun heq => h (heq ▸ List.mem_cons_self)
    rw [List.cons_append, rope.normalize, ih fun hmem => h (List.mem_cons_of_mem _ hmem), List.cons_append]
    · exact fun _ heq _ => hchar heq
    · exact fun heq => hchar heq

theorem normalize_joined (ending : LineEnding) (first : Line) (rest : List Line) :
    normalize (joined ending first rest) = joined .Unix first rest := by
  rw [joined, normalize_plain first.plain.2, joined]
  congr 1
  induction rest with
  | nil => rfl
  | cons line rest ih =>
    rw [List.flatMap_cons, List.flatMap_cons, ← ih]
    cases ending with
    | Unix =>
      have hplain : '\r' ∉ LineEnding.Unix.as_str ++ line.chars := by simp [LineEnding.as_str, line.plain.2]
      rw [normalize_plain hplain]
    | Windows =>
      have hreturn : LineEnding.Windows.as_str ++ line.chars = '\r' :: '\n' :: line.chars := rfl
      rw [hreturn, List.cons_append, List.cons_append, rope.normalize, normalize_plain line.plain.2]
      rfl

theorem joined_unix_no_return (first : Line) (rest : List Line) : '\r' ∉ joined .Unix first rest := by
  simp only [joined, List.mem_append, List.mem_flatMap, not_or, not_exists]
  refine ⟨first.plain.2, fun line hmem => ?_⟩
  have hline := line.plain.2
  simp_all [LineEnding.as_str]

theorem strip_ending_of_no_return {line : Str} (h : '\r' ∉ line) :
    strip_ending line = if line.getLast? = some '\n' then line.dropLast else line := by
  unfold strip_ending
  split
  · rw [if_neg]
    exact fun hlast => h (List.dropLast_subset _ (List.mem_of_getLast? hlast))
  · rfl

theorem split_inclusive_first {text line : Str} {rest : List Str} (h : split_inclusive text = line :: rest) :
    line ≠ [] ∧ line ⊆ text := by
  induction text generalizing line rest with
  | nil => cases h
  | cons char text ih =>
    rw [split_inclusive] at h
    split at h
    · rename_i hchar
      cases h
      exact ⟨List.cons_ne_nil _ _, by simp [hchar]⟩
    · split at h
      · cases h
        exact ⟨List.cons_ne_nil _ _, by simp⟩
      · rename_i first _ hsplit
        cases h
        exact ⟨List.cons_ne_nil _ _, List.cons_subset_cons _ (ih hsplit).2⟩

theorem split_inclusive_ne_nil {text : Str} (h : text ≠ []) : split_inclusive text ≠ [] := by
  obtain ⟨char, chars, rfl⟩ := List.exists_cons_of_ne_nil h
  rw [split_inclusive]
  split
  · exact List.cons_ne_nil _ _
  · split <;> exact List.cons_ne_nil _ _

theorem chunk_with_line_ending_eq (ending : LineEnding) {chunk : Str} (h : '\r' ∉ chunk) :
    chunk_with_line_ending ending chunk = replace ending chunk := by
  induction chunk with
  | nil => rfl
  | cons char chunk ih =>
    have hchunk := ih fun hmem => h (List.mem_cons_of_mem _ hmem)
    rw [replace, List.flatMap_cons]
    change _ = _ ++ replace ending chunk
    rw [← hchunk]
    rcases eq_or_ne chunk [] with rfl | hne
    · by_cases hchar : char = '\n'
      · subst hchar
        simp [chunk_with_line_ending, lines, split_inclusive, strip_ending]
      · simp [chunk_with_line_ending, lines, split_inclusive, strip_ending, hchar]
    · obtain ⟨line, rest, hsplit⟩ := List.exists_cons_of_ne_nil (split_inclusive_ne_nil hne)
      obtain ⟨hline, hsubset⟩ := split_inclusive_first hsplit
      have hlast : (char :: chunk).getLast? = chunk.getLast? := List.getLast?_cons_of_ne_nil hne
      by_cases hchar : char = '\n'
      · subst hchar
        have hlines : split_inclusive ('\n' :: chunk) = ['\n'] :: line :: rest := by
          rw [split_inclusive, if_pos rfl, hsplit]
        have hempty : strip_ending ['\n'] = [] := rfl
        simp [chunk_with_line_ending, lines, hlines, hsplit, hlast, hempty]
      · have hlines : split_inclusive (char :: chunk) = (char :: line) :: rest := by
          rw [split_inclusive, if_neg hchar, hsplit]
        have hreturn : '\r' ∉ char :: line := fun hmem =>
          h ((List.cons_subset_cons char hsubset) hmem)
        have hstrip : strip_ending (char :: line) = char :: strip_ending line := by
          rw [strip_ending_of_no_return hreturn,
            strip_ending_of_no_return fun hmem => hreturn (List.mem_cons_of_mem _ hmem),
            List.getLast?_cons_of_ne_nil hline, List.dropLast_cons_of_ne_nil hline]
          split <;> rfl
        simp [chunk_with_line_ending, lines, hlines, hsplit, hlast, hchar, hstrip]

theorem chunks_with_line_ending_eq (ending : LineEnding) {chunks : List Str} (h : '\r' ∉ chunks.flatten) :
    chunks_with_line_ending chunks ending = replace ending chunks.flatten := by
  induction chunks with
  | nil => rfl
  | cons chunk chunks ih =>
    rw [List.flatten_cons, List.mem_append, not_or] at h
    rw [chunks_with_line_ending, List.flatMap_cons, chunk_with_line_ending_eq ending h.1, List.flatten_cons, replace,
      replace, List.flatMap_append]
    exact congrArg (_ ++ ·) (ih h.2)

theorem text_with_line_endings (ending' ending : LineEnding) (first : Line) (rest : List Line) {chunks : List Str}
    (h : chunks.flatten = normalize (joined ending first rest)) :
    chunks_with_line_ending chunks ending' = joined ending' first rest := by
  rw [normalize_joined] at h
  rw [chunks_with_line_ending_eq ending' (by rw [h]; exact joined_unix_no_return first rest), h, replace_joined]

end Separators

section Detection

variable {unix : Bool} {ending : LineEnding} {first : Line} {rest : List Line}

theorem detect_joined :
    LineEnding.detect unix (joined ending first rest) =
      if rest ≠ [] ∧ (utf8 first.chars).length + ending.as_str.length ≤ 1000 then ending
      else LineEnding.default unix := by
  cases rest with
  | nil =>
    rw [joined, List.flatMap_nil, List.append_nil, LineEnding.detect_of_no_newline first.plain.1, if_neg (by simp)]
  | cons line rest =>
    cases ending with
    | Unix =>
      have htext : joined .Unix first (line :: rest) =
          first.chars ++ '\n' :: (line.chars ++ rest.flatMap fun line => LineEnding.Unix.as_str ++ line.chars) := rfl
      have hreturn : ¬ (0 < (utf8 first.chars).length ∧
          (utf8 first.chars)[(utf8 first.chars).length - 1]? = some 13) :=
        fun hreturn => return_not_mem_utf8 first.plain.2 (List.mem_of_getElem? hreturn.2)
      rw [htext, LineEnding.detect_of_newline first.plain.1, if_neg hreturn]
      simp only [LineEnding.as_str, List.length_singleton, ne_eq, reduceCtorEq, not_false_eq_true, true_and,
        Nat.succ_le_iff]
    | Windows =>
      have htext : joined .Windows first (line :: rest) = (first.chars ++ ['\r']) ++
          '\n' :: (line.chars ++ rest.flatMap fun line => LineEnding.Windows.as_str ++ line.chars) := by
        simp [joined, LineEnding.as_str]
      have hbytes : utf8 (first.chars ++ ['\r']) = utf8 first.chars ++ [13] := utf8_append _ _
      have hlength : (utf8 (first.chars ++ ['\r'])).length = (utf8 first.chars).length + 1 := by
        rw [hbytes, List.length_append, List.length_singleton]
      have hreturn : 0 < (utf8 (first.chars ++ ['\r'])).length ∧
          (utf8 (first.chars ++ ['\r']))[(utf8 (first.chars ++ ['\r'])).length - 1]? = some 13 := by
        refine ⟨by omega, ?_⟩
        rw [hlength, hbytes, Nat.add_sub_cancel, List.getElem?_concat_length]
      have hplain : '\n' ∉ first.chars ++ ['\r'] := by simp [first.plain.1]
      rw [htext, LineEnding.detect_of_newline hplain, if_pos hreturn, hlength]
      have hiff : (utf8 first.chars).length + 1 < 1000 ↔
          (line :: rest ≠ [] ∧ (utf8 first.chars).length + LineEnding.Windows.as_str.length ≤ 1000) := by
        simp only [LineEnding.as_str, List.length_cons, List.length_nil, ne_eq, reduceCtorEq, not_false_eq_true, true_and]
        omega
      simp only [hiff]

theorem apply_detected (ending' : LineEnding) (h : LineEnding.detect unix (joined ending first rest) = ending) :
    LineEnding.apply unix ending' (joined ending first rest) = joined ending' first rest := by
  unfold LineEnding.apply
  rw [h]
  cases ending <;> cases ending'
  · rfl
  · exact replace_joined .Windows first rest
  · exact normalize_joined .Windows first rest
  · rfl

theorem apply_plain (ending' : LineEnding) : LineEnding.apply unix ending' (joined ending first []) = first.chars := by
  have htext : joined ending first [] = first.chars := List.append_nil _
  have hnormal : normalize first.chars = first.chars := by
    have hplain := normalize_plain first.plain.2 []
    rwa [List.append_nil, rope.normalize, List.append_nil] at hplain
  unfold LineEnding.apply
  rw [htext]
  split
  · rfl
  · rfl
  · exact replace_plain .Windows first.plain.1
  · exact hnormal

/-- A text comes back from a buffer as it went in, every line ending can be applied to it, and to apply
    one again changes nothing. -/
def Survives (unix : Bool) (ending : LineEnding) (first : Line) (rest : List Line) : Prop :=
  (∀ chunks : List Str, chunks.flatten = (load unix (joined ending first rest)).2 →
      chunks_with_line_ending chunks (load unix (joined ending first rest)).1 = joined ending first rest) ∧
    ∀ ending', LineEnding.apply unix ending' (joined ending first rest) = joined ending' first rest ∧
      LineEnding.apply unix ending' (LineEnding.apply unix ending' (joined ending first rest)) =
        LineEnding.apply unix ending' (joined ending first rest)

theorem Survives.of_detected (h : LineEnding.detect unix (joined ending first rest) = ending)
    (hagain : ∀ ending', LineEnding.apply unix ending' (joined ending' first rest) = joined ending' first rest) :
    Survives unix ending first rest := by
  refine ⟨fun chunks hchunks => ?_, fun ending' => ?_⟩
  · rw [load, h]
    exact text_with_line_endings ending ending first rest hchunks
  · rw [apply_detected ending' h]
    exact ⟨rfl, hagain ending'⟩

theorem apply_unix_again : LineEnding.apply unix .Unix (joined .Unix first rest) = joined .Unix first rest := by
  unfold LineEnding.apply
  split
  · rfl
  · rfl
  · rename_i hnever
    cases hnever
  · exact normalize_joined .Unix first rest

theorem replace_windows_ne {text : Str} (h : '\n' ∈ text) : replace .Windows text ≠ text := by
  have hcount : ∀ text : Str, (replace .Windows text).length = text.length + text.count '\n' := by
    intro text
    induction text with
    | nil => rfl
    | cons char text ih =>
      rw [replace, List.flatMap_cons, List.length_append, ← replace, ih]
      by_cases hchar : char = '\n'
      · simp [hchar, LineEnding.as_str]
        omega
      · simp [hchar]
        omega
  intro heq
  have hpos := List.count_pos_iff.mpr h
  have hlength := hcount text
  rw [heq] at hlength
  omega

theorem newline_mem_joined (hrest : rest ≠ []) : '\n' ∈ joined ending first rest := by
  obtain ⟨line, rest, rfl⟩ := List.exists_cons_of_ne_nil hrest
  cases ending <;> simp [joined, LineEnding.as_str]

theorem joined_windows_ne_unix (hrest : rest ≠ []) : joined .Windows first rest ≠ joined .Unix first rest := by
  intro heq
  have hreturn := joined_unix_no_return first rest
  rw [← heq] at hreturn
  obtain ⟨line, rest, rfl⟩ := List.exists_cons_of_ne_nil hrest
  simp [joined, LineEnding.as_str] at hreturn

theorem Survives.plain : Survives unix ending first [] := by
  have htext : ∀ ending : LineEnding, joined ending first [] = first.chars := fun _ => List.append_nil _
  refine ⟨fun chunks hchunks => ?_, fun ending' => ?_⟩
  · rw [load] at hchunks ⊢
    rw [text_with_line_endings _ ending first [] hchunks, htext, htext]
  · have happly := @apply_plain unix ending first ending'
    rw [happly, htext]
    rw [htext] at happly
    exact ⟨rfl, happly⟩

theorem detect_windows : LineEnding.detect false (joined .Windows first rest) = .Windows := by
  rw [detect_joined]
  split <;> rfl

/-- A text survives when its first line leaves room for a separator of either kind in the thousand
    bytes that are looked at. Away from Unix the platform's own ending is detected anyway. -/
theorem survives_iff (unix : Bool) (ending : LineEnding) (first : Line) (rest : List Line) :
    Survives unix ending first rest ↔
      rest = [] ∨
        if unix then (utf8 first.chars).length ≤ 998
        else ending = .Windows ∨ (utf8 first.chars).length ≤ 999 := by
  rcases eq_or_ne rest [] with rfl | hrest
  · exact iff_of_true Survives.plain (Or.inl rfl)
  have hshort : ∀ {unix : Bool} (ending : LineEnding), (utf8 first.chars).length + ending.as_str.length ≤ 1000 →
      LineEnding.detect unix (joined ending first rest) = ending := fun ending hlength => by
    rw [detect_joined, if_pos ⟨hrest, hlength⟩]
  simp only [hrest, false_or]
  cases unix with
  | true =>
    rw [if_pos rfl]
    constructor
    · intro hsurvives
      by_contra hlong
      obtain ⟨happly, hagain⟩ := hsurvives.2 .Windows
      have hdetect : LineEnding.detect true (joined .Windows first rest) = .Unix := by
        rw [detect_joined, if_neg (fun hroom => hlong ?_)]
        · rfl
        · have hroom := hroom.2
          simp only [LineEnding.as_str, List.length_cons, List.length_nil] at hroom
          omega
      rw [happly] at hagain
      unfold LineEnding.apply at hagain
      rw [hdetect] at hagain
      exact replace_windows_ne (newline_mem_joined hrest) hagain
    · intro hlength
      have hdetect : ∀ ending, LineEnding.detect true (joined ending first rest) = ending := fun ending =>
        hshort ending (by cases ending <;> simp only [LineEnding.as_str, List.length_cons, List.length_nil] <;> omega)
      exact Survives.of_detected (hdetect ending) fun ending' => apply_detected ending' (hdetect ending')
  | false =>
    rw [if_neg Bool.false_ne_true]
    have hagain : ∀ ending',
        LineEnding.apply false ending' (joined ending' first rest) = joined ending' first rest := by
      intro ending'
      cases ending' with
      | Unix => exact apply_unix_again
      | Windows => exact apply_detected .Windows detect_windows
    constructor
    · intro hsurvives
      by_contra hlong
      rw [not_or] at hlong
      obtain rfl : ending = .Unix := by
        cases ending with
        | Unix => rfl
        | Windows => exact absurd rfl hlong.1
      have hdetect : LineEnding.detect false (joined .Unix first rest) = .Windows := by
        rw [detect_joined, if_neg (fun hroom => hlong.2 ?_)]
        · rfl
        · have hroom := hroom.2
          simp only [LineEnding.as_str, List.length_singleton] at hroom
          omega
      have hsaved := hsurvives.1 [normalize (joined .Unix first rest)] List.flatten_singleton
      rw [load, hdetect, text_with_line_endings .Windows .Unix first rest List.flatten_singleton] at hsaved
      exact joined_windows_ne_unix hrest hsaved
    · intro hfits
      refine Survives.of_detected ?_ hagain
      rcases hfits with rfl | hlength
      · exact detect_windows
      · cases ending with
        | Unix => exact hshort .Unix (by simp only [LineEnding.as_str, List.length_singleton]; omega)
        | Windows => exact detect_windows

/-- A carriage return whose newline is the byte after the first thousand is lost on Unix. -/
theorem long_first_line_loses_return :
    ∃ first last : Line, first.chars = List.replicate 999 'a' ∧ last.chars = [] ∧
      load true (joined .Windows first [last]) = (.Unix, List.replicate 999 'a' ++ ['\n']) ∧
      ¬ Survives true .Windows first [last] := by
  have hletters : ∀ (c : Char) (n : Nat), c ∈ List.replicate n 'a' → c = 'a' := fun c n => List.eq_of_mem_replicate
  have hlength : (utf8 (List.replicate 999 'a')).length = 999 := by
    rw [utf8, List.length_flatMap, List.map_replicate, List.sum_replicate]
    rfl
  let first : Line := ⟨List.replicate 999 'a',
    fun hmem => absurd (hletters _ _ hmem) (by decide), fun hmem => absurd (hletters _ _ hmem) (by decide)⟩
  let last : Line := ⟨[], List.not_mem_nil, List.not_mem_nil⟩
  have hdetect : LineEnding.detect true (joined .Windows first [last]) = .Unix := by
    rw [detect_joined, if_neg (fun hroom => ?_)]
    · rfl
    · have hroom := hroom.2
      rw [show first.chars = List.replicate 999 'a' from rfl, hlength] at hroom
      exact absurd hroom (by decide)
  have hsaved : normalize (joined .Windows first [last]) = List.replicate 999 'a' ++ ['\n'] := normalize_joined _ _ _
  refine ⟨first, last, rfl, rfl, by rw [load, hdetect, hsaved], fun hsurvives => ?_⟩
  have htext := hsurvives.1 [normalize (joined .Windows first [last])] List.flatten_singleton
  rw [load, hdetect, text_with_line_endings .Unix .Windows first [last] List.flatten_singleton] at htext
  exact joined_windows_ne_unix (List.cons_ne_nil _ _) htext.symm

end Detection

end zed.text
