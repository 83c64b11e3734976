import Zed.Rope.Utf8
import Zed.Text.LineEnding

namespace zed.rope

def Rope.push (rope : Rope) (text : Str) : Rope := rope ++ utf8 text

end zed.rope

namespace zed.worktree

open zed.rope zed.text

/-- A file that is being read, by what its reads give. One without bytes is the end of the file. -/
abbrev Read (E : Type) := List (Except E (List UInt8))

/-- The context `reading bytes of the file {abs_path:?}` and the error under it. -/
structure ReadError (E : Type) where
  abs_path : Str
  source : E

/-- The loop of `push_normalized`: the scratch text, and where what is not in it starts. A slice off a
    character boundary panics. -/
def rewrite (text scratch : Str) (start ix : Nat) : Option (Str × Nat) :=
  if ix < byteLen text then
    if (utf8 text)[ix]? = some 13 then
      match str.slice text start ix with
      | some part =>
        let next := ix + if (utf8 text)[ix + 1]? = some 10 then 2 else 1
        rewrite text (scratch ++ part ++ ['\n']) next next
      | none => none
    else rewrite text scratch start (ix + 1)
  else some (scratch, start)
termination_by byteLen text - ix
decreasing_by all_goals first | omega | (split <;> omega)

def push_normalized (rope : Rope) (text : Str) : Option Rope :=
  if '\r' ∉ text then some (rope.push text)
  else
    match rewrite text [] 0 0 with
    | some (scratch, start) =>
      match str.slice text start (byteLen text) with
      | some part => some (rope.push (scratch ++ part))
      | none => none
    | none => none

/-- The variables of `stream_utf8_into_rope`. -/
structure Streaming (E : Type) where
  rope : Rope
  line_ending : Option LineEnding
  pending : List UInt8
  eof : Bool
  file : Read E

/-- How a round of the loop ends. -/
inductive Round (E : Type)
  | again (state : Streaming E)
  | done (result : Option (Rope × LineEnding))

section Model

variable {E : Type} (unix : Bool) (block : Nat) (abs_path : Str)

/-- Reads until a whole block is pending or the file ends. -/
def fill (pending : List UInt8) (eof : Bool) : Read E → Except (ReadError E) (List UInt8 × Bool × Read E)
  | [] => .ok (pending, eof || decide (pending.length < block), [])
  | read :: file =>
    if eof = false ∧ pending.length < block then
      match read with
      | .error source => .error ⟨abs_path, source⟩
      | .ok bytes => if bytes = [] then .ok (pending, true, file) else fill (pending ++ bytes) eof file
    else .ok (pending, eof, read :: file)

/-- How many of the pending bytes form complete characters, none where they are no UTF-8. -/
def valid_len (pending : List UInt8) (eof : Bool) : Option Nat :=
  match from_utf8 pending with
  | .ok _ => some pending.length
  | .error e => if e.error_len = none ∧ eof = false then some e.valid_up_to else none

/-- Holds back a trailing carriage return until it is known what follows it. -/
def emit_len (pending : List UInt8) (eof : Bool) (valid_len : Nat) : Nat :=
  if eof = false ∧ valid_len > 0 ∧ pending[valid_len - 1]? = some 13 then valid_len - 1 else valid_len

/-- What a round does with the pending bytes. None is a panic. -/
def emit (state : Streaming E) : Option (Round E) :=
  match valid_len state.pending state.eof with
  | none => some (.done none)
  | some valid_len =>
    let emit_len := emit_len state.pending state.eof valid_len
    match from_utf8 (state.pending.take emit_len) with
    | .error _ => none
    | .ok text =>
      if '\x1b' ∈ text then some (.done none)
      else
        let line_ending :=
          if state.line_ending = none ∧ text ≠ [] then some (LineEnding.detect unix text) else state.line_ending
        match push_normalized state.rope text with
        | none => none
        | some rope =>
          let pending := state.pending.drop emit_len
          if state.eof then
            some (.done (if pending ≠ [] then none else some (rope, line_ending.getD (LineEnding.default unix))))
          else some (.again { state with rope, line_ending, pending })

def round (state : Streaming E) : Option (Except (ReadError E) (Round E)) :=
  match fill block abs_path state.pending state.eof state.file with
  | .error e => some (.error e)
  | .ok (pending, eof, file) => (emit unix { state with pending, eof, file }).map .ok

/-- The rounds of the loop. None is a panic, or that the fuel did not last. -/
def stream : Nat → Streaming E → Option (Except (ReadError E) (Option (Rope × LineEnding)))
  | 0, _ => none
  | fuel + 1, state =>
    match round unix block abs_path state with
    | none => none
    | some (.error e) => some (.error e)
    | some (.ok (.done result)) => some (.ok result)
    | some (.ok (.again state)) => stream fuel state

/-- Streams a file that is presumed UTF-8 into a rope. The prefix has been read from it already. -/
def stream_utf8_into_rope (fuel : Nat) (file : Read E) (pref : List UInt8) (reached_eof : Bool) :
    Option (Except (ReadError E) (Option (Rope × LineEnding))) :=
  stream unix block abs_path fuel ⟨[], none, pref, reached_eof, file⟩

end Model

section Normalized

theorem normalize_append {left right : Str} (h : left.getLast? = some '\r' → right.head? ≠ some '\n') :
    normalize (left ++ right) = normalize left ++ normalize right := by
  fun_induction rope.normalize left with
  | case1 => rfl
  | case2 chars ih =>
    have hlast : chars.getLast? = some '\r' → right.head? ≠ some '\n' := fun hreturn => by
      refine h ?_
      rw [List.getLast?_cons, List.getLast?_cons, hreturn]
      rfl
    rw [List.cons_append, List.cons_append, rope.normalize, ih hlast, List.cons_append]
  | case3 chars hnot ih =>
    cases chars with
    | nil =>
      have hhead : right.head? ≠ some '\n' := h rfl
      rw [List.singleton_append, rope.normalize.eq_3 right fun chars hcons => hhead (by rw [hcons, List.head?_cons])]
      rfl
    | cons char chars =>
      have hlast : (char :: chars).getLast? = some '\r' → right.head? ≠ some '\n' := fun hreturn => by
        refine h ?_
        rw [List.getLast?_cons, hreturn]
        rfl
      have hne : char ≠ '\n' := fun heq => hnot chars (by rw [heq])
      rw [List.cons_append, rope.normalize.eq_3, ih hlast, List.cons_append]
      intro rest hcons
      exact hne (List.cons.inj hcons).1
  | case4 char chars hpair hreturn ih =>
    have hlast : chars.getLast? = some '\r' → right.head? ≠ some '\n' := fun hreturn => by
      refine h ?_
      rw [List.getLast?_cons, hreturn]
      rfl
    rw [List.cons_append, rope.normalize.eq_4, ih hlast, List.cons_append]
    · exact fun rest heq _ => hreturn heq
    · exact hreturn

theorem rewrite_skip {text scratch : Str} {start ix : Nat} (length : Nat) (hle : ix + length ≤ byteLen text)
    (hplain : ∀ i < length, (utf8 text)[ix + i]? ≠ some 13) :
    rewrite text scratch start ix = rewrite text scratch start (ix + length) := by
  induction length generalizing ix with
  | zero => rfl
  | succ length ih =>
    have hfirst := hplain 0 (Nat.succ_pos length)
    rw [Nat.add_zero] at hfirst
    rw [rewrite, if_pos (by omega), if_neg hfirst]
    have hrest := @ih (ix + 1) (by omega) fun i hi => by
      have hnext := hplain (i + 1) (by omega)
      rwa [show ix + 1 + i = ix + (i + 1) by omega]
    rw [hrest, show ix + 1 + length = ix + (length + 1) by omega]

theorem getElem?_utf8_at (before : Str) (char : Char) (after : Str) (hone : String.utf8EncodeChar char = [byte]) :
    (utf8 (before ++ char :: after))[byteLen before]? = some byte := by
  rw [utf8_append_text, utf8_cons, hone, List.getElem?_append_right (by rfl), byteLen, Nat.sub_self]
  rfl

theorem getElem?_newline_iff (before after : Str) :
    (utf8 (before ++ after))[byteLen before]? = some 10 ↔ after.head? = some '\n' := by
  cases after with
  | nil => rw [List.append_nil, byteLen, List.getElem?_eq_none le_rfl]; simp
  | cons char after =>
    rw [List.head?_cons, Option.some_inj]
    refine ⟨fun hbyte => ?_, fun hchar => ?_⟩
    · have hlength : 0 < (String.utf8EncodeChar char).length := List.length_pos_of_ne_nil (encode_ne_nil char)
      rw [utf8_append_text, utf8_cons, List.getElem?_append_right (by rfl), byteLen, Nat.sub_self,
        List.getElem?_append_left hlength] at hbyte
      have hcode := toNat_of_mem_utf8EncodeChar (by decide) (List.mem_of_getElem? hbyte)
      exact Char.ext (UInt32.toNat_inj.mp hcode)
    · subst hchar
      exact getElem?_utf8_at before '\n' after rfl

theorem rewrite_eq (done rest scratch : Str) :
    ∃ written left right, rewrite (done ++ rest) scratch (byteLen done) (byteLen done) = some (written, byteLen left) ∧
      done ++ rest = left ++ right ∧ written ++ right = scratch ++ normalize rest := by
  induction hn : rest.length using Nat.strong_induction_on generalizing done rest scratch with
  | _ n ih =>
    by_cases hmem : '\r' ∈ rest
    · obtain ⟨part, after, rfl, hpart⟩ := List.eq_append_cons_of_mem hmem
      have hskip : rewrite (done ++ (part ++ '\r' :: after)) scratch (byteLen done) (byteLen done) =
          rewrite (done ++ (part ++ '\r' :: after)) scratch (byteLen done) (byteLen done + byteLen part) := by
        refine rewrite_skip (byteLen part) (by simp only [byteLen_append]; omega) fun i hi hbyte => ?_
        rw [utf8_append_text, List.getElem?_append_right (by rw [byteLen]; omega), byteLen, Nat.add_sub_cancel_left,
          utf8_append_text, List.getElem?_append_left hi] at hbyte
        exact return_not_mem_utf8 hpart (List.mem_of_getElem? hbyte)
      have hreturn : (utf8 (done ++ (part ++ '\r' :: after)))[byteLen done + byteLen part]? = some 13 := by
        rw [← List.append_assoc, ← byteLen_append]
        exact getElem?_utf8_at _ '\r' after rfl
      have hslice : str.slice (done ++ (part ++ '\r' :: after)) (byteLen done) (byteLen done + byteLen part) =
          some part := by
        rw [← List.append_assoc]
        exact str.slice_middle done part ('\r' :: after)
      have hsize : byteLen ['\r'] = 1 := rfl
      have hnext : (utf8 (done ++ (part ++ '\r' :: after)))[byteLen done + byteLen part + 1]? = some 10 ↔
          after.head? = some '\n' := by
        have hiff := getElem?_newline_iff (done ++ part ++ ['\r']) after
        rw [byteLen_append, byteLen_append, hsize] at hiff
        rwa [show done ++ part ++ ['\r'] ++ after = done ++ (part ++ '\r' :: after) by simp] at hiff
      have hlt : byteLen done + byteLen part < byteLen (done ++ (part ++ '\r' :: after)) := by
        simp only [byteLen_append, byteLen_cons]
        have hpos := '\r'.utf8Size_pos
        omega
      rw [hskip, rewrite, if_pos hlt, if_pos hreturn, hslice]
      simp only [hnext]
      rw [List.length_append, List.length_cons] at hn
      by_cases hhead : after.head? = some '\n'
      · obtain ⟨after, rfl⟩ := List.head?_eq_some_iff.mp hhead
        have hdone : byteLen done + byteLen part + 2 = byteLen (done ++ part ++ ['\r', '\n']) := by
          rw [byteLen_append, byteLen_append]
          rfl
        have htext : done ++ (part ++ '\r' :: '\n' :: after) = done ++ part ++ ['\r', '\n'] ++ after := by simp
        rw [if_pos hhead, hdone, htext]
        rw [List.length_cons] at hn
        obtain ⟨written, left, right, hrewrite, hsplit, hwritten⟩ := ih after.length (by omega)
          (done ++ part ++ ['\r', '\n']) after (scratch ++ part ++ ['\n']) rfl
        refine ⟨written, left, right, hrewrite, hsplit, ?_⟩
        rw [hwritten, normalize_plain hpart, rope.normalize]
        simp
      · have hdone : byteLen done + byteLen part + 1 = byteLen (done ++ part ++ ['\r']) := by
          rw [byteLen_append, byteLen_append, hsize]
        have htext : done ++ (part ++ '\r' :: after) = done ++ part ++ ['\r'] ++ after := by simp
        rw [if_neg hhead, hdone, htext]
        obtain ⟨written, left, right, hrewrite, hsplit, hwritten⟩ := ih after.length (by omega)
          (done ++ part ++ ['\r']) after (scratch ++ part ++ ['\n']) rfl
        refine ⟨written, left, right, hrewrite, hsplit, ?_⟩
        rw [hwritten, normalize_plain hpart, rope.normalize.eq_3]
        · simp
        · intro rest hcons
          exact hhead (by rw [hcons, List.head?_cons])
    · have hskip := @rewrite_skip (done ++ rest) scratch (byteLen done) (byteLen done) (byteLen rest)
        (by rw [byteLen_append]) fun i hi hbyte => by
          rw [utf8_append_text, List.getElem?_append_right (by rw [byteLen]; omega), byteLen,
            Nat.add_sub_cancel_left] at hbyte
          exact return_not_mem_utf8 hmem (List.mem_of_getElem? hbyte)
      have hnormal : normalize rest = rest := by
        have hplain := normalize_plain hmem []
        rwa [List.append_nil, rope.normalize, List.append_nil] at hplain
      refine ⟨scratch, done, rest, ?_, rfl, by rw [hnormal]⟩
      rw [hskip, rewrite, if_neg (by rw [byteLen_append]; omega)]

theorem push_normalized_eq (rope : Rope) (text : Str) : push_normalized rope text = some (rope ++ utf8 (normalize text)) := by
  unfold push_normalized
  by_cases hmem : '\r' ∈ text
  · obtain ⟨written, left, right, hrewrite, hsplit, hwritten⟩ := rewrite_eq [] text []
    have hslice : str.slice text (byteLen left) (byteLen text) = some right := by
      have hmiddle := str.slice_middle left right []
      rw [List.nil_append] at hsplit
      rwa [List.append_nil, ← byteLen_append, ← hsplit] at hmiddle
    rw [List.nil_append, byteLen_nil] at hrewrite
    rw [if_neg (by simpa using hmem), hrewrite]
    simp only [hslice]
    rw [hwritten, List.nil_append]
    rfl
  · have hplain := normalize_plain hmem []
    rw [List.append_nil, rope.normalize, List.append_nil] at hplain
    rw [if_pos hmem, hplain]
    rfl

end Normalized

end zed.worktree
