import Zed.Worktree.Stream

namespace zed.worktree

open zed.rope zed.text

variable {E : Type} {unix : Bool} {block : Nat} {abs_path : Str} {bytes : List UInt8}

def delivered : List (List UInt8) → List UInt8
  | [] => []
  | read :: reads => if read = [] then [] else read ++ delivered reads

/-- What is still to come from the file. -/
def upcoming (eof : Bool) (reads : List (List UInt8)) : List UInt8 := if eof then [] else delivered reads

/-- The reads of a file, none of which fails. -/
def succeeding (reads : List (List UInt8)) : Read E := reads.map .ok

/-- Bytes that are UTF-8 without an escape byte. -/
def Plain (bytes : List UInt8) (text : Str) : Prop := utf8 text = bytes ∧ 27 ∉ bytes

theorem fill_eq (pending : List UInt8) (eof : Bool) (reads : List (List UInt8)) :
    ∃ pending' eof' reads', fill block abs_path pending eof (succeeding (E := E) reads) =
        .ok (pending', eof', succeeding reads') ∧
      pending <+: pending' ∧ pending' ++ upcoming eof' reads' = pending ++ upcoming eof reads ∧
      (eof' = false → block ≤ pending'.length) := by
  induction reads generalizing pending with
  | nil =>
    refine ⟨pending, _, [], rfl, List.prefix_rfl, ?_, fun h => ?_⟩
    · rw [upcoming, upcoming, delivered, ite_self, ite_self]
    · exact Nat.not_lt.mp (of_decide_eq_false (Bool.or_eq_false_iff.mp h).2)
  | cons read reads ih =>
    change ∃ pending' eof' reads', fill block abs_path pending eof (.ok read :: succeeding (E := E) reads) = _ ∧ _
    rw [fill]
    by_cases hmore : eof = false ∧ pending.length < block
    · rw [if_pos hmore]
      obtain ⟨rfl, -⟩ := hmore
      by_cases hend : read = []
      · subst hend
        exact ⟨pending, true, reads, by rw [if_pos rfl], List.prefix_rfl, by simp [upcoming, delivered], by simp⟩
      · obtain ⟨pending', eof', reads', hfill, hprefix, hbytes, hblock⟩ := ih (pending ++ read)
        refine ⟨pending', eof', reads', ?_, (List.prefix_append _ _).trans hprefix, ?_, hblock⟩
        · rw [← hfill]
          exact if_neg hend
        · rw [hbytes]
          simp [upcoming, delivered, hend]
    · refine ⟨pending, eof, read :: reads, if_neg hmore, List.prefix_rfl, rfl, fun heof => ?_⟩
      exact Nat.not_lt.mp fun hlt => hmore ⟨heof, hlt⟩

theorem escape_mem_iff (text : Str) : '\x1b' ∈ text ↔ 27 ∈ utf8 text := by
  constructor
  · intro hmem
    exact List.mem_flatMap.mpr ⟨_, hmem, by decide⟩
  · intro hmem
    obtain ⟨char, hchar, hbyte⟩ := List.mem_flatMap.mp hmem
    have hcode : char.val.toNat = 27 := toNat_of_mem_utf8EncodeChar (by decide) hbyte
    obtain rfl : char = '\x1b' := Char.ext (UInt32.toNat_inj.mp hcode)
    exact hchar

theorem last_return_iff (text : Str) :
    byteLen text > 0 ∧ (utf8 text)[byteLen text - 1]? = some 13 ↔ text.getLast? = some '\r' := by
  rcases List.eq_nil_or_concat text with rfl | ⟨before, char, rfl⟩
  · simp
  · rw [List.concat_eq_append, List.getLast?_concat, Option.some_inj]
    have hlast : ∃ init byte, String.utf8EncodeChar char = init ++ [byte] :=
      (List.eq_nil_or_concat _).resolve_left (encode_ne_nil char) |>.imp fun _ h => h.imp fun _ h => by simpa using h
    obtain ⟨init, byte, hencode⟩ := hlast
    have hbytes : utf8 (before ++ [char]) = utf8 before ++ init ++ [byte] := by
      rw [utf8_append_text, utf8_cons, hencode]
      simp [utf8]
    have hlength : byteLen (before ++ [char]) = (utf8 before ++ init).length + 1 := by
      rw [byteLen, hbytes, List.length_append, List.length_singleton]
    rw [hlength, Nat.add_sub_cancel, hbytes, List.getElem?_concat_length, Option.some_inj]
    constructor
    · rintro ⟨-, rfl⟩
      have hcode := toNat_of_mem_utf8EncodeChar (by decide) (hencode ▸ List.mem_append_right init List.mem_cons_self)
      exact Char.ext (UInt32.toNat_inj.mp hcode)
    · rintro rfl
      have hone : init ++ [byte] = [13] := hencode.symm
      cases init with
      | nil => exact ⟨Nat.succ_pos _, (List.cons.inj hone).1⟩
      | cons first init => simp at hone

theorem detect_eq {text whole : Str} {held more : List UInt8} (hwhole : utf8 whole = utf8 text ++ held ++ more)
    (hheld : 10 ∉ held) (h : held ++ more = [] ∨ 1000 ≤ (utf8 text ++ held).length) :
    LineEnding.detect unix text = LineEnding.detect unix whole := by
  rcases h with hnil | hlong
  · rw [List.append_assoc, hnil, List.append_nil] at hwhole
    rw [utf8_injective hwhole]
  obtain ⟨rest, rfl⟩ : ∃ rest, whole = text ++ rest := by
    have hdecode := from_utf8_utf8 whole
    rw [hwhole, List.append_assoc, from_utf8_append] at hdecode
    cases hrest : from_utf8 (held ++ more) with
    | ok rest =>
      rw [hrest] at hdecode
      exact ⟨rest, (Except.ok.inj hdecode).symm⟩
    | error e =>
      rw [hrest] at hdecode
      cases hdecode
  by_cases hmem : '\n' ∈ text
  · obtain ⟨before, after, rfl, hbefore⟩ := List.eq_append_cons_of_mem hmem
    rw [List.append_assoc, List.cons_append, LineEnding.detect_of_newline hbefore, LineEnding.detect_of_newline hbefore]
  · rw [LineEnding.detect_of_no_newline hmem]
    by_cases hrest : '\n' ∈ rest
    · obtain ⟨before, after, rfl, hbefore⟩ := List.eq_append_cons_of_mem hrest
      have hplain : '\n' ∉ text ++ before := by simp [hmem, hbefore]
      rw [← List.append_assoc, LineEnding.detect_of_newline hplain, if_neg]
      -- the newline comes after what is held back
      intro hshort
      have hnewline : (utf8 (text ++ before ++ '\n' :: after))[byteLen (text ++ before)]? = some 10 :=
        getElem?_utf8_at _ '\n' after rfl
      rw [List.append_assoc, hwhole, List.getElem?_append_left (by rw [byteLen]; omega)] at hnewline
      rcases List.mem_append.mp (List.mem_of_getElem? hnewline) with htext | hin
      · exact newline_not_mem_utf8 hmem htext
      · exact hheld hin
    · exact (LineEnding.detect_of_no_newline (by simp [hmem, hrest])).symm

theorem valid_len_some {pending : List UInt8} {eof : Bool} {length : Nat} (h : valid_len pending eof = some length) :
    ∃ text rest, pending = utf8 text ++ rest ∧ length = byteLen text ∧ rest.length ≤ 3 ∧
      (∀ byte ∈ rest, 0x80 ≤ byte) ∧ (eof = true → rest = []) := by
  unfold valid_len at h
  cases hdecode : from_utf8 pending with
  | ok text =>
    rw [hdecode] at h
    obtain rfl := Option.some.inj h
    exact ⟨text, [], by rw [List.append_nil]; exact from_utf8_ok hdecode, by rw [from_utf8_ok hdecode, byteLen],
      Nat.zero_le _, by simp, fun _ => rfl⟩
  | error e =>
    rw [hdecode] at h
    obtain ⟨text, rest, rfl, hne, hstuck, hvalid, herror⟩ := from_utf8_error hdecode
    by_cases hcut : e.error_len = none ∧ eof = false
    · simp only [if_pos hcut, Option.some_inj] at h
      obtain ⟨hlength, hbytes⟩ := error_len_none (herror ▸ hcut.1)
      refine ⟨text, rest, rfl, h ▸ hvalid, hlength, hbytes, fun heof => ?_⟩
      rw [hcut.2] at heof
      cases heof
    · simp only [if_neg hcut] at h
      cases h

theorem valid_len_none {pending more : List UInt8} {eof : Bool} (h : valid_len pending eof = none)
    (hend : eof = true → more = []) (whole : Str) : utf8 whole ≠ pending ++ more := by
  intro hwhole
  unfold valid_len at h
  cases hdecode : from_utf8 pending with
  | ok text =>
    rw [hdecode] at h
    cases h
  | error e =>
    rw [hdecode] at h
    obtain ⟨text, rest, rfl, hne, hstuck, -, herror⟩ := from_utf8_error hdecode
    have hagain := from_utf8_utf8 whole
    rw [hwhole, List.append_assoc, from_utf8_append] at hagain
    cases hrest : from_utf8 (rest ++ more) with
    | error e =>
      rw [hrest] at hagain
      cases hagain
    | ok after =>
      have hnone := error_len_of_prefix hne hstuck (from_utf8_ok hrest)
      cases eof with
      | false =>
        simp only [herror, hnone, true_and, if_true] at h
        cases h
      | true =>
        rw [hend rfl, List.append_nil, from_utf8_stuck hne hstuck] at hrest
        cases hrest

theorem emit_len_eq (text : Str) (rest : List UInt8) (eof : Bool) :
    ∃ emitted held, text = emitted ++ held ∧ emit_len (utf8 text ++ rest) eof (byteLen text) = byteLen emitted ∧
      (held = [] ∨ held = ['\r']) ∧ (eof = true → held = []) ∧
      (eof = false → emitted.getLast? = some '\r' → held = ['\r']) := by
  have hlast : byteLen text > 0 ∧ (utf8 text ++ rest)[byteLen text - 1]? = some 13 ↔ text.getLast? = some '\r' := by
    rw [← last_return_iff]
    refine and_congr_right fun hpos => ?_
    rw [List.getElem?_append_left (by rw [byteLen] at hpos ⊢; omega)]
  unfold emit_len
  by_cases hhold : eof = false ∧ text.getLast? = some '\r'
  · obtain ⟨rfl, hreturn⟩ := hhold
    obtain ⟨emitted, rfl⟩ := List.getLast?_eq_some_iff.mp hreturn
    have hsize : byteLen ['\r'] = 1 := rfl
    refine ⟨emitted, ['\r'], rfl, ?_, Or.inr rfl, by simp, fun _ _ => rfl⟩
    rw [if_pos ⟨rfl, hlast.mpr hreturn⟩, byteLen_append, hsize, Nat.add_sub_cancel]
  · refine ⟨text, [], (List.append_nil _).symm, ?_, Or.inl rfl, fun _ => rfl, fun heof hreturn => ?_⟩
    · rw [if_neg fun hall => hhold ⟨hall.1, hlast.mp hall.2⟩]
    · exact absurd ⟨heof, hreturn⟩ hhold

/-- What has been streamed of a file is a text, which is in the rope. -/
structure Streamed (unix : Bool) (bytes : List UInt8) (reads : List (List UInt8)) (state : Streaming E)
    (text : Str) : Prop where
  file : state.file = succeeding reads
  content : bytes = utf8 text ++ state.pending ++ upcoming state.eof reads
  rope : state.rope = utf8 (normalize text)
  plain : '\x1b' ∉ text
  cut : text.getLast? = some '\r' → state.pending.head? = some 13
  begun : state.line_ending = none → text = []
  ending : ∀ line_ending, state.line_ending = some line_ending →
    ∀ whole, utf8 whole = bytes → line_ending = LineEnding.detect unix whole

def Settled (unix : Bool) (bytes : List UInt8) : Option (Rope × LineEnding) → Prop
  | none => ¬ ∃ whole, Plain bytes whole
  | some (rope, line_ending) =>
    ∃ whole, Plain bytes whole ∧ rope = utf8 (normalize whole) ∧ line_ending = LineEnding.detect unix whole

/-- A round ends with the answer, or with more text in the rope and fewer bytes pending. -/
def Advances (unix : Bool) (bytes : List UInt8) (reads : List (List UInt8)) (state : Streaming E) : Round E → Prop
  | .done result => Settled unix bytes result
  | .again state' => (∃ text, Streamed unix bytes reads state' text) ∧ state'.eof = state.eof ∧
      state'.pending.length < state.pending.length

variable {reads : List (List UInt8)} {state : Streaming E} {text : Str}

theorem Streamed.emit (h : Streamed unix bytes reads state text) (hblock : state.eof = false → 1000 ≤ state.pending.length) :
    ∃ round, emit unix state = some round ∧ Advances unix bytes reads state round := by
  have hupcoming : state.eof = true → upcoming state.eof reads = [] := fun heof => by rw [upcoming, if_pos heof]
  unfold worktree.emit
  cases hvalid : valid_len state.pending state.eof with
  | none =>
    refine ⟨_, rfl, fun ⟨whole, hwhole, _⟩ => ?_⟩
    -- what follows valid text is valid when all of it is
    have hdecode := from_utf8_utf8 whole
    rw [hwhole, h.content, List.append_assoc, from_utf8_append] at hdecode
    cases hrest : from_utf8 (state.pending ++ upcoming state.eof reads) with
    | ok rest => exact valid_len_none hvalid hupcoming rest (from_utf8_ok hrest).symm
    | error e =>
      rw [hrest] at hdecode
      cases hdecode
  | some length =>
    obtain ⟨decoded, rest, hpending, rfl, hrest, hwide, hend⟩ := valid_len_some hvalid
    obtain ⟨emitted, held, rfl, hemit, hheld, hnone, hreturn⟩ := emit_len_eq decoded rest state.eof
    have hsplit : state.pending = utf8 emitted ++ (utf8 held ++ rest) := by
      rw [hpending, utf8_append_text, List.append_assoc]
    rw [← hpending] at hemit
    have htake : state.pending.take (byteLen emitted) = utf8 emitted := by
      rw [hsplit]
      exact List.take_left
    have hdrop : state.pending.drop (byteLen emitted) = utf8 held ++ rest := by
      rw [hsplit]
      exact List.drop_left
    have hcontent : bytes = utf8 (text ++ emitted) ++ (utf8 held ++ rest) ++ upcoming state.eof reads := by
      rw [h.content, hsplit, utf8_append_text]
      simp only [List.append_assoc]
    simp only [hemit, htake, hdrop, from_utf8_utf8]
    by_cases hescape : '\x1b' ∈ emitted
    · rw [if_pos hescape]
      refine ⟨_, rfl, fun ⟨whole, _, hplain⟩ => hplain ?_⟩
      rw [hcontent, utf8_append_text]
      simp only [List.mem_append]
      exact Or.inl (Or.inl (Or.inr ((escape_mem_iff emitted).mp hescape)))
    rw [if_neg hescape]
    have hpush : push_normalized state.rope emitted = some (utf8 (normalize (text ++ emitted))) := by
      rw [push_normalized_eq, h.rope, normalize_append, utf8_append_text]
      -- a carriage return that was held back comes first
      intro hlast hhead
      obtain ⟨after, rfl⟩ := List.head?_eq_some_iff.mp hhead
      have hfirst := h.cut hlast
      have hnewline : String.utf8EncodeChar '\n' = [10] := rfl
      rw [hsplit, utf8_cons, hnewline] at hfirst
      exact absurd (Option.some.inj hfirst) (by decide)
    simp only [hpush]
    have hhigh : ∀ byte ∈ utf8 held ++ rest, byte = 13 ∨ 0x80 ≤ byte := by
      intro byte hmem
      rcases List.mem_append.mp hmem with hin | hin
      · rcases hheld with rfl | rfl
        · cases hin
        · exact Or.inl (List.mem_singleton.mp hin)
      · exact Or.inr (hwide byte hin)
    have hbegun : (if state.line_ending = none ∧ emitted ≠ [] then some (LineEnding.detect unix emitted)
        else state.line_ending) = none → text ++ emitted = [] := by
      intro hunset
      by_cases hset : state.line_ending = none ∧ emitted ≠ []
      · rw [if_pos hset] at hunset
        cases hunset
      · rw [if_neg hset] at hunset
        rw [h.begun hunset, List.nil_append]
        exact by_contra fun hne => hset ⟨hunset, hne⟩
    have hending : ∀ line_ending, (if state.line_ending = none ∧ emitted ≠ [] then
        some (LineEnding.detect unix emitted) else state.line_ending) = some line_ending →
          ∀ whole, utf8 whole = bytes → line_ending = LineEnding.detect unix whole := by
      intro line_ending hset whole hwhole
      by_cases hfirst : state.line_ending = none ∧ emitted ≠ []
      · rw [if_pos hfirst] at hset
        obtain rfl := Option.some.inj hset
        rw [h.begun hfirst.1, List.nil_append] at hcontent
        refine detect_eq (hwhole.trans hcontent) ?_ ?_
        · intro hmem
          rcases hhigh 10 hmem with hten | hten <;> exact absurd hten (by decide)
        · cases heof : state.eof with
          | false => exact Or.inr (hsplit ▸ hblock heof)
          | true =>
            rw [hnone heof, hend heof, ← heof, hupcoming heof]
            exact Or.inl rfl
      · rw [if_neg hfirst] at hset
        exact h.ending line_ending hset whole hwhole
    have hplain : '\x1b' ∉ text ++ emitted := fun hmem => (List.mem_append.mp hmem).elim h.plain hescape
    cases heof : state.eof with
    | true =>
      rw [hnone heof, hend heof, hupcoming heof] at hcontent
      have hwhole : utf8 (text ++ emitted) = bytes := by simpa [utf8] using hcontent.symm
      rw [if_pos rfl, hnone heof, hend heof, if_neg (by simp [utf8])]
      refine ⟨_, rfl, text ++ emitted, ⟨hwhole, fun hmem => hplain ?_⟩, rfl, ?_⟩
      · exact (escape_mem_iff _).mpr (hwhole ▸ hmem)
      · cases hset : (if state.line_ending = none ∧ emitted ≠ [] then some (LineEnding.detect unix emitted)
            else state.line_ending) with
        | none =>
          rw [hbegun hset, LineEnding.detect_of_no_newline List.not_mem_nil]
          rfl
        | some line_ending => exact hending line_ending hset _ hwhole
    | false =>
      have hlong := hblock heof
      have hsize : (utf8 held ++ rest).length ≤ 4 := by
        rw [List.length_append]
        rcases hheld with rfl | rfl
        · rw [utf8, List.flatMap_nil, List.length_nil]
          omega
        · have hone : (utf8 ['\r']).length = 1 := rfl
          rw [hone]
          omega
      rw [hsplit, List.length_append] at hlong
      rw [if_neg Bool.false_ne_true]
      refine ⟨_, rfl, ⟨text ++ emitted, ?_⟩, heof.symm, ?_⟩
      · refine ⟨h.file, heof ▸ hcontent, rfl, hplain, fun hlast => ?_, hbegun, hending⟩
        have hne : emitted ≠ [] := by
          rintro rfl
          rw [utf8, List.flatMap_nil, List.length_nil] at hlong
          omega
        rw [List.getLast?_append_of_ne_nil _ hne] at hlast
        rw [hreturn heof hlast]
        rfl
      · change (utf8 held ++ rest).length < state.pending.length
        have hpending := congrArg List.length hsplit
        rw [List.length_append] at hpending
        omega

/-- How many bytes a loop still has to go through. -/
def left (reads : List (List UInt8)) (state : Streaming E) : Nat :=
  state.pending.length + (upcoming state.eof reads).length

variable (abs_path) in
theorem Streamed.round (hblock : 1000 ≤ block) (h : Streamed unix bytes reads state text) :
    (∃ result, round unix block abs_path state = some (.ok (.done result)) ∧ Settled unix bytes result) ∨
      ∃ state' reads' text', round unix block abs_path state = some (.ok (.again state')) ∧
        Streamed unix bytes reads' state' text' ∧ left reads' state' < left reads state := by
  obtain ⟨pending', eof', reads', hfill, hprefix, hbytes, hfull⟩ :=
    @fill_eq E block abs_path state.pending state.eof reads
  rw [← h.file] at hfill
  have hfilled : Streamed unix bytes reads'
      ({ state with pending := pending', eof := eof', file := succeeding reads' } : Streaming E) text := by
    refine ⟨rfl, ?_, h.rope, h.plain, fun hlast => ?_, h.begun, h.ending⟩
    · rw [h.content, List.append_assoc, List.append_assoc, hbytes]
    · obtain ⟨more, rfl⟩ := hprefix
      obtain ⟨tail, htail⟩ := List.head?_eq_some_iff.mp (h.cut hlast)
      change (state.pending ++ more).head? = some 13
      rw [htail]
      rfl
  obtain ⟨next, hemit, hadvances⟩ := hfilled.emit fun heof => hblock.trans (hfull heof)
  have hround : worktree.round unix block abs_path state = some (.ok next) := by
    rw [worktree.round, hfill]
    simp only [hemit, Option.map_some]
  cases next with
  | done result => exact Or.inl ⟨result, hround, hadvances⟩
  | again state' =>
    obtain ⟨⟨text', hstreamed⟩, heof, hshorter⟩ := hadvances
    refine Or.inr ⟨state', reads', text', hround, hstreamed, ?_⟩
    have hlength := congrArg List.length hbytes
    rw [List.length_append, List.length_append] at hlength
    rw [left, heof, left]
    change state'.pending.length < pending'.length at hshorter
    change _ + (upcoming eof' reads').length < _
    omega

variable (abs_path) in
theorem Streamed.stream (hblock : 1000 ≤ block) (h : Streamed unix bytes reads state text) :
    ∃ result, Settled unix bytes result ∧
      ∀ fuel, left reads state < fuel → stream unix block abs_path fuel state = some (.ok result) := by
  induction hn : left reads state using Nat.strong_induction_on generalizing reads state text with
  | _ n ih =>
    rcases Streamed.round abs_path hblock h with ⟨result, hround, hsettled⟩ |
      ⟨state', reads', text', hround, hstreamed, hless⟩
    · refine ⟨result, hsettled, fun fuel hfuel => ?_⟩
      obtain ⟨fuel, rfl⟩ := Nat.exists_eq_succ_of_ne_zero (show fuel ≠ 0 by omega)
      rw [worktree.stream, hround]
    · obtain ⟨result, hsettled, hstream⟩ := ih _ (hn ▸ hless) hstreamed rfl
      refine ⟨result, hsettled, fun fuel hfuel => ?_⟩
      obtain ⟨fuel, rfl⟩ := Nat.exists_eq_succ_of_ne_zero (show fuel ≠ 0 by omega)
      rw [worktree.stream, hround]
      exact hstream fuel (by omega)

/-- A file that is streamed in blocks of at least a thousand bytes is loaded as its whole text would be:
    exactly the files of UTF-8 without escape bytes are, the rope is the normalized text, and the line
    ending is that of the text. -/
theorem stream_agrees (E : Type) (unix : Bool) {block : Nat} (hblock : 1000 ≤ block) (abs_path : Str)
    (pref : List UInt8) (reached_eof : Bool) (reads : List (List UInt8)) :
    ∃ result, (∀ fuel, (pref ++ upcoming reached_eof reads).length < fuel →
        stream_utf8_into_rope unix block abs_path fuel (succeeding (E := E) reads) pref reached_eof =
          some (.ok result)) ∧
      (∀ rope line_ending, result = some (rope, line_ending) →
        ∃ text, utf8 text = pref ++ upcoming reached_eof reads ∧ 27 ∉ pref ++ upcoming reached_eof reads ∧
          rope = utf8 (normalize text) ∧ line_ending = LineEnding.detect unix text) ∧
      (result = none ↔ (¬ ∃ text, utf8 text = pref ++ upcoming reached_eof reads) ∨
        27 ∈ pref ++ upcoming reached_eof reads) := by
  have hstart : Streamed unix (pref ++ upcoming reached_eof reads) reads
      (⟨[], none, pref, reached_eof, succeeding reads⟩ : Streaming E) [] :=
    ⟨rfl, rfl, rfl, List.not_mem_nil, by simp, fun _ => rfl, by simp⟩
  obtain ⟨result, hsettled, hstream⟩ := Streamed.stream abs_path hblock hstart
  refine ⟨result, fun fuel hfuel => hstream fuel (by rwa [left, ← List.length_append]), ?_, ?_⟩
  · rintro rope line_ending rfl
    obtain ⟨text, ⟨htext, hplain⟩, hrope, hending⟩ := hsettled
    exact ⟨text, htext, hplain, hrope, hending⟩
  · cases result with
    | none =>
      refine iff_of_true rfl ?_
      by_contra hnot
      rw [not_or, not_not] at hnot
      obtain ⟨⟨text, htext⟩, hplain⟩ := hnot
      exact hsettled ⟨text, htext, hplain⟩
    | some found =>
      obtain ⟨text, ⟨htext, hplain⟩, -⟩ := hsettled
      refine iff_of_false (by simp) ?_
      rintro (hinvalid | hescape)
      · exact hinvalid ⟨text, htext⟩
      · exact hplain hescape

/-- A `\r\n` that is cut between two reads of a file is one line feed. -/
theorem stream_agrees_sample :
    ∃ result, (∀ fuel, 3 < fuel →
        stream_utf8_into_rope true 1000 [] fuel (succeeding (E := Unit) [[10], [98]]) [13] false =
          some (.ok result)) ∧
      (∀ rope line_ending, result = some (rope, line_ending) →
        ∃ text, utf8 text = [13, 10, 98] ∧ (27 : UInt8) ∉ [13, 10, 98] ∧
          rope = utf8 (normalize text) ∧ line_ending = LineEnding.detect true text) ∧
      (result = none ↔ (¬ ∃ text, utf8 text = [13, 10, 98]) ∨ (27 : UInt8) ∈ [13, 10, 98]) :=
  stream_agrees Unit true (by decide) [] [13] false [[10], [98]]

end zed.worktree
