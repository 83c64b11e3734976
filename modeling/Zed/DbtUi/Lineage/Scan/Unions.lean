import Zed.DbtUi.Lineage.Scan.Offsets

namespace zed.dbt_ui.lineage

open zed.dbt_ui.el (is_whitespace split_whitespace)

/-- What `str::to_lowercase` does to words: it works on each of them alone, and on
    ASCII letter by letter. -/
structure Lowercase where
  to_lowercase : List Char → List Char
  words : ∀ text, split_whitespace (to_lowercase text) = (split_whitespace text).map to_lowercase
  ascii : ∀ text, (∀ c ∈ text, c.toNat < 128) → to_lowercase text = text.map Char.toLower

/-- Some whitespace. -/
structure Blank where
  text : List Char
  nonempty : text ≠ []
  blank : ∀ c ∈ text, is_whitespace c = true

/-- A word in ASCII letters, each in either case. -/
structure Spelling (word : List Char) where
  text : List Char
  ascii : ∀ c ∈ text, c.toNat < 128
  spelled : text.map Char.toLower = word

/-- A UNION, or a UNION ALL, between two statements. -/
structure Joint where
  before : Blank
  keyword : Spelling "union".toList
  all : Option (Blank × Spelling "all".toList)
  after : Blank

def Joint.text (joint : Joint) : List Char :=
  joint.before.text ++ joint.keyword.text ++ (joint.all.elim [] fun (gap, all) => gap.text ++ all.text) ++ joint.after.text

/-- A statement without the word UNION. Its first word, a SELECT, is not ALL. -/
structure Statement (low : Lowercase) where
  text : List Char
  some_word : split_whitespace (low.to_lowercase text) ≠ []
  no_union : "union".toList ∉ split_whitespace (low.to_lowercase text)
  first_word : (split_whitespace (low.to_lowercase text)).head? ≠ some "all".toList

def unionText {low : Lowercase} (first : Statement low) (rest : List (Joint × Statement low)) : List Char :=
  first.text ++ rest.flatMap fun (joint, statement) => joint.text ++ statement.text

section

variable {pattern text : List Char}

private theorem length_occurrences (skip base : Nat) :
    (occurrences pattern skip base text).length = (occurrences pattern skip 0 text).length := by
  induction text generalizing skip base with
  | nil => simp [occurrences]
  | cons c text ih =>
    cases skip with
    | succ skip => rw [occurrences, occurrences, ih, ih skip (0 + c.utf8Size)]
    | zero =>
      rw [occurrences, occurrences]
      split
      · rw [List.length_cons, List.length_cons, ih, ih _ (0 + c.utf8Size)]
      · rw [ih, ih _ (0 + c.utf8Size)]

def found (pattern text : List Char) : Nat := (match_offsets pattern text).length

private theorem length_occurrences_skip (passed text : List Char) :
    (occurrences pattern passed.length 0 (passed ++ text)).length = found pattern text := by
  induction passed with
  | nil => rfl
  | cons c passed ih =>
    rw [List.length_cons, List.cons_append, occurrences, length_occurrences]
    exact ih

theorem found_of_match (rest : List Char) (hpattern : pattern ≠ []) :
    found pattern (pattern ++ rest) = found pattern rest + 1 := by
  obtain ⟨c, tail, rfl⟩ := List.exists_cons_of_ne_nil hpattern
  rw [found, match_offsets, List.cons_append, occurrences, if_pos (by simp), List.length_cons, length_occurrences]
  exact congrArg (· + 1) (length_occurrences_skip tail rest)

theorem found_cons_of_mismatch {c : Char} (h : ¬ pattern <+: c :: text) :
    found pattern (c :: text) = found pattern text := by
  rw [found, match_offsets, occurrences, if_neg (by simpa using h), length_occurrences]
  rfl

theorem found_word_append {word : List Char} (hword : ' ' ∉ word) (rest : List Char) :
    found (' ' :: pattern) (word ++ rest) = found (' ' :: pattern) rest := by
  induction word with
  | nil => rfl
  | cons c word ih =>
    rw [List.cons_append, found_cons_of_mismatch]
    · exact ih fun h => hword (List.mem_cons_of_mem _ h)
    · intro hstarts
      have hc := (List.cons_prefix_cons.mp hstarts).1
      exact hword (hc ▸ List.mem_cons_self)

end

def spaced (words : List (List Char)) : List Char := words.flatMap fun word => ' ' :: word

theorem intercalate_eq_spaced (word : List Char) (words : List (List Char)) :
    [' '].intercalate (word :: words) = word ++ spaced words := by
  induction words generalizing word with
  | nil => simp [spaced]
  | cons next words ih =>
    rw [List.intercalate_cons_cons, ih]
    simp [spaced]

theorem word_prefix_iff {word first : List Char} {words : List (List Char)} (hword : ' ' ∉ word) (hfirst : ' ' ∉ first)
    {rest : List Char} :
    word ++ ' ' :: rest <+: first ++ spaced words ↔ first = word ∧ ' ' :: rest <+: spaced words := by
  constructor
  · rintro ⟨tail, htail⟩
    have hbefore : ∀ (text rest : List Char), ' ' ∉ text →
        (text ++ ' ' :: rest).takeWhile (fun c => decide (c ≠ ' ')) = text := by
      intro text rest htext
      rw [List.takeWhile_append_of_pos]
      · simp
      · intro c hc
        have hne : c ≠ ' ' := fun heq => htext (heq ▸ hc)
        simpa using hne
    have hspaced : (first ++ spaced words).takeWhile (fun c => decide (c ≠ ' ')) = first := by
      cases words with
      | nil =>
        rw [spaced, List.flatMap_nil, List.append_nil, List.takeWhile_eq_self_iff]
        intro c hc
        have hne : c ≠ ' ' := fun heq => hfirst (heq ▸ hc)
        simpa using hne
      | cons next words => exact hbefore _ _ hfirst
    rw [← htail, List.append_assoc, List.cons_append, hbefore _ _ hword] at hspaced
    subst hspaced
    rw [List.append_assoc] at htail
    exact ⟨rfl, tail, List.append_cancel_left htail⟩
  · rintro ⟨rfl, hrest⟩
    exact List.prefix_append_right_inj first |>.mpr hrest

theorem spaced_cons (word : List Char) (words : List (List Char)) :
    spaced (word :: words) = ' ' :: (word ++ spaced words) := rfl

private theorem union_text : " union ".toList = ' ' :: ("union".toList ++ [' ']) := by decide

private theorem union_all_text :
    " union all ".toList = ' ' :: ("union".toList ++ ' ' :: ("all".toList ++ [' '])) := by decide

section

variable {words : List (List Char)}

theorem found_union_of_ne (words : List (List Char)) {word : List Char} (hspace : ' ' ∉ word) (hne : word ≠ "union".toList) :
    found " union ".toList (spaced (word :: words)) = found " union ".toList (spaced words) ∧
      found " union all ".toList (spaced (word :: words)) = found " union all ".toList (spaced words) := by
  rw [union_text, union_all_text, spaced_cons]
  refine ⟨?_, ?_⟩ <;> rw [found_cons_of_mismatch, found_word_append hspace]
  · intro h
    exact hne ((word_prefix_iff (by decide) hspace).mp (List.cons_prefix_cons.mp h).2).1
  · intro h
    exact hne ((word_prefix_iff (by decide) hspace).mp (List.cons_prefix_cons.mp h).2).1

theorem found_union_of_eq {next : List Char} (hspace : ' ' ∉ next) :
    found " union ".toList (spaced ("union".toList :: next :: words)) = found " union ".toList (spaced words) + 1 := by
  have htext : spaced ("union".toList :: next :: words) = " union ".toList ++ (next ++ spaced words) := by
    rw [spaced_cons, spaced_cons, union_text]
    simp
  rw [htext, found_of_match _ (by decide), union_text, found_word_append hspace]

theorem found_union_all_of_ne {next : List Char} (hspace : ' ' ∉ next) (hne : next ≠ "all".toList) :
    found " union all ".toList (spaced ("union".toList :: next :: words)) =
      found " union all ".toList (spaced (next :: words)) := by
  rw [union_all_text, spaced_cons, found_cons_of_mismatch, found_word_append (by decide)]
  intro h
  have hrest := ((word_prefix_iff (by decide) (by decide)).mp (List.cons_prefix_cons.mp h).2).2
  rw [spaced_cons] at hrest
  exact hne ((word_prefix_iff (by decide) hspace).mp (List.cons_prefix_cons.mp hrest).2).1

theorem found_union_all_of_eq {next : List Char} (hspace : ' ' ∉ next) :
    found " union all ".toList (spaced ("union".toList :: "all".toList :: next :: words)) =
      found " union all ".toList (spaced words) + 1 := by
  have htext : spaced ("union".toList :: "all".toList :: next :: words) =
      " union all ".toList ++ (next ++ spaced words) := by
    rw [spaced_cons, spaced_cons, spaced_cons, union_all_text]
    simp
  rw [htext, found_of_match _ (by decide), union_all_text, found_word_append hspace]

end

/-- The words of one statement, as the text has them in lower case. -/
structure IsBranch (words : List (List Char)) : Prop where
  some_word : words ≠ []
  no_union : "union".toList ∉ words
  first_word : words.head? ≠ some "all".toList
  no_space : ∀ word ∈ words, ' ' ∉ word

/-- The words from the first union on: whether each has an ALL, and the words of the
    statement behind it. -/
def wordsAfter (rest : List (Bool × List (List Char))) : List (List Char) :=
  rest.flatMap fun (all, words) => "union".toList :: ((if all then ["all".toList] else []) ++ words)

private theorem found_skip {words : List (List Char)} (hunion : "union".toList ∉ words) (hspace : ∀ word ∈ words, ' ' ∉ word)
    (after : List (List Char)) :
    found " union ".toList (spaced (words ++ after)) = found " union ".toList (spaced after) ∧
      found " union all ".toList (spaced (words ++ after)) = found " union all ".toList (spaced after) := by
  induction words with
  | nil => exact ⟨rfl, rfl⟩
  | cons word words ih =>
    obtain ⟨hword, hwords⟩ := not_or.mp (List.mem_cons.not.mp hunion)
    obtain ⟨hone, hall⟩ := found_union_of_ne (words ++ after) (hspace word List.mem_cons_self) (Ne.symm hword)
    obtain ⟨ihone, ihall⟩ := ih hwords fun other h => hspace other (List.mem_cons_of_mem _ h)
    exact ⟨hone.trans ihone, hall.trans ihall⟩

theorem found_wordsAfter {rest : List (Bool × List (List Char))} (hrest : ∀ part ∈ rest, IsBranch part.2) :
    found " union ".toList (spaced (wordsAfter rest)) = rest.length ∧
      found " union all ".toList (spaced (wordsAfter rest)) = rest.countP Prod.fst := by
  induction rest with
  | nil => exact ⟨by decide, by decide⟩
  | cons part rest ih =>
    obtain ⟨all, words⟩ := part
    obtain ⟨ihone, ihall⟩ := ih fun other h => hrest other (List.mem_cons_of_mem _ h)
    have hbranch := hrest _ List.mem_cons_self
    obtain ⟨first, tail, rfl⟩ := List.exists_cons_of_ne_nil hbranch.some_word
    have hspace := hbranch.no_space first List.mem_cons_self
    obtain ⟨hfirst, htail⟩ := not_or.mp (List.mem_cons.not.mp hbranch.no_union)
    obtain ⟨hskip, hskipAll⟩ := found_skip htail
      (fun word h => hbranch.no_space word (List.mem_cons_of_mem _ h)) (wordsAfter rest)
    cases all with
    | true =>
      have hwords : wordsAfter ((true, first :: tail) :: rest) =
          "union".toList :: "all".toList :: first :: (tail ++ wordsAfter rest) := by simp [wordsAfter]
      rw [hwords, found_union_of_eq (by decide), found_union_all_of_eq hspace]
      have hnext := (found_union_of_ne (tail ++ wordsAfter rest) hspace (Ne.symm hfirst)).1
      rw [hnext, hskip, hskipAll, ihone, ihall]
      simp
    | false =>
      have hwords : wordsAfter ((false, first :: tail) :: rest) =
          "union".toList :: first :: (tail ++ wordsAfter rest) := by simp [wordsAfter]
      have hall : first ≠ "all".toList := fun heq => hbranch.first_word (by rw [heq]; rfl)
      have hnext := (found_union_of_ne (tail ++ wordsAfter rest) hspace (Ne.symm hfirst)).2
      rw [hwords, found_union_of_eq hspace, found_union_all_of_ne hspace hall, hnext, hskip, hskipAll, ihone, ihall]
      simp

theorem split_whitespace_append_cons {c : Char} (hc : is_whitespace c = true) (before after : List Char) :
    split_whitespace (before ++ c :: after) = split_whitespace before ++ split_whitespace after := by
  unfold split_whitespace
  rw [List.splitOnP_append_cons before after hc, List.filter_append]

theorem split_whitespace_blank {gap : List Char} (hgap : ∀ c ∈ gap, is_whitespace c = true) (text : List Char) :
    split_whitespace (gap ++ text) = split_whitespace text := by
  induction gap with
  | nil => rfl
  | cons c gap ih =>
    have hcons := split_whitespace_append_cons (hgap c List.mem_cons_self) [] (gap ++ text)
    rw [ih fun d hd => hgap d (List.mem_cons_of_mem _ hd)] at hcons
    simpa [split_whitespace] using hcons

theorem Blank.split (gap : Blank) (before after : List Char) :
    split_whitespace (before ++ gap.text ++ after) = split_whitespace before ++ split_whitespace after := by
  obtain ⟨c, rest, htext⟩ := List.exists_cons_of_ne_nil gap.nonempty
  have hblank := gap.blank
  rw [htext] at hblank ⊢
  rw [List.append_assoc, List.cons_append, split_whitespace_append_cons (hblank c List.mem_cons_self),
    split_whitespace_blank fun d hd => hblank d (List.mem_cons_of_mem _ hd)]

theorem split_whitespace_word {word : List Char} (hne : word ≠ []) (hword : ∀ c ∈ word, is_whitespace c = false) :
    split_whitespace word = [word] := by
  rw [split_whitespace, List.splitOnP_eq_singleton hword]
  simp [hne]

theorem not_whitespace_of_mem_split {text word : List Char} (h : word ∈ split_whitespace text) :
    ∀ c ∈ word, is_whitespace c = false := by
  have hsplit : ∀ (text : List Char), ∀ word ∈ text.splitOnP is_whitespace, ∀ c ∈ word, is_whitespace c = false := by
    intro text
    induction text with
    | nil =>
      intro word hword c hc
      rw [List.splitOnP_nil, List.mem_singleton] at hword
      rw [hword] at hc
      cases hc
    | cons d text ih =>
      intro word hword c hc
      rw [List.splitOnP_cons_eq_if_modifyHead] at hword
      split at hword
      · rcases List.mem_cons.mp hword with rfl | hword
        · cases hc
        · exact ih word hword c hc
      · rename_i hd
        obtain ⟨first, rest, hfirst⟩ := List.exists_cons_of_ne_nil (List.splitOnP_ne_nil is_whitespace text)
        rw [hfirst, List.modifyHead_cons] at hword
        rcases List.mem_cons.mp hword with rfl | hword
        · rcases List.mem_cons.mp hc with rfl | hc
          · simpa using hd
          · exact ih first (hfirst ▸ List.mem_cons_self) c hc
        · exact ih word (hfirst ▸ List.mem_cons_of_mem _ hword) c hc
  exact hsplit text word (List.mem_filter.mp h).1

theorem space_not_mem_of_mem_split {text word : List Char} (h : word ∈ split_whitespace text) : ' ' ∉ word := by
  intro hspace
  have hnot := not_whitespace_of_mem_split h ' ' hspace
  revert hnot
  decide

theorem toLower_of_whitespace {c : Char} (h : is_whitespace c = true) : c.toLower = c := by
  unfold Char.toLower
  rw [dif_neg]
  intro hupper
  have hlow : 65 ≤ c.toNat := hupper.1
  have hhigh : c.toNat ≤ 90 := hupper.2
  simp [is_whitespace] at h
  omega

theorem Spelling.split {word : List Char} (spelling : Spelling word) (hne : word ≠ [])
    (hword : ∀ c ∈ word, is_whitespace c = false) : split_whitespace spelling.text = [spelling.text] := by
  refine split_whitespace_word ?_ fun c hc => ?_
  · rintro heq
    exact hne (by rw [← spelling.spelled, heq, List.map_nil])
  · have hlower := hword c.toLower (by rw [← spelling.spelled]; exact List.mem_map_of_mem hc)
    by_contra hspace
    rw [toLower_of_whitespace (by simpa using hspace)] at hlower
    exact hspace hlower

variable {low : Lowercase}

/-- The words of a joint as they are written. -/
def Joint.words (joint : Joint) : List (List Char) :=
  joint.keyword.text :: joint.all.elim [] fun (_, all) => [all.text]

theorem Joint.split (joint : Joint) (before after : List Char) :
    split_whitespace (before ++ (joint.text ++ after)) =
      split_whitespace before ++ (joint.words ++ split_whitespace after) := by
  have hkeyword := joint.keyword.split (by decide) (el.forall_mem_of_all (by decide))
  cases hall : joint.all with
  | none =>
    have htext : before ++ (joint.text ++ after) =
        before ++ joint.before.text ++ (joint.keyword.text ++ joint.after.text ++ after) := by
      simp [Joint.text, hall]
    rw [htext, joint.before.split, joint.after.split, hkeyword, Joint.words, hall]
    simp
  | some part =>
    obtain ⟨gap, all⟩ := part
    have htext : before ++ (joint.text ++ after) = before ++ joint.before.text ++
        (joint.keyword.text ++ gap.text ++ (all.text ++ joint.after.text ++ after)) := by
      simp [Joint.text, hall]
    rw [htext, joint.before.split, gap.split, joint.after.split, hkeyword,
      all.split (by decide) (el.forall_mem_of_all (by decide)), Joint.words, hall]
    simp

theorem Joint.map_words (joint : Joint) :
    joint.words.map low.to_lowercase = "union".toList :: if joint.all.isSome then ["all".toList] else [] := by
  have hkeyword : low.to_lowercase joint.keyword.text = "union".toList :=
    (low.ascii _ joint.keyword.ascii).trans joint.keyword.spelled
  cases hall : joint.all with
  | none => simp [Joint.words, hall, hkeyword]
  | some part =>
    have hword : low.to_lowercase part.2.text = "all".toList := (low.ascii _ part.2.ascii).trans part.2.spelled
    simp [Joint.words, hall, hkeyword, hword]

theorem Statement.isBranch (statement : Statement low) :
    IsBranch (split_whitespace (low.to_lowercase statement.text)) where
  some_word := statement.some_word
  no_union := statement.no_union
  first_word := statement.first_word
  no_space := fun _ h => space_not_mem_of_mem_split h

theorem split_unionText (first : Statement low) (rest : List (Joint × Statement low)) :
    split_whitespace (low.to_lowercase (unionText first rest)) =
      split_whitespace (low.to_lowercase first.text) ++ wordsAfter (rest.map fun (joint, statement) =>
        (joint.all.isSome, split_whitespace (low.to_lowercase statement.text))) := by
  simp only [low.words]
  rw [unionText]
  generalize first.text = text
  induction rest generalizing text with
  | nil => simp [wordsAfter]
  | cons part rest ih =>
    obtain ⟨joint, statement⟩ := part
    rw [List.flatMap_cons, List.append_assoc, joint.split, List.map_append, List.map_append, joint.map_words, ih]
    simp [wordsAfter]

theorem unions_unionText (first : Statement low) (rest : List (Joint × Statement low)) :
    unions (normalize_whitespace (low.to_lowercase (unionText first rest))) =
      rest.length + (rest.countP fun part => part.1.all.isSome) / 2 := by
  have hbranch := first.isBranch
  have hrest : ∀ part ∈ rest.map (fun (part : Joint × Statement low) =>
      (part.1.all.isSome, split_whitespace (low.to_lowercase part.2.text))), IsBranch part.2 := by
    intro part hpart
    obtain ⟨⟨joint, statement⟩, -, rfl⟩ := List.mem_map.mp hpart
    exact statement.isBranch
  obtain ⟨hone, hall⟩ := found_wordsAfter hrest
  rw [normalize_whitespace, split_unionText]
  generalize split_whitespace (low.to_lowercase first.text) = words at hbranch
  obtain ⟨word, tail, rfl⟩ := List.exists_cons_of_ne_nil hbranch.some_word
  have hspace := hbranch.no_space word List.mem_cons_self
  obtain ⟨-, htail⟩ := not_or.mp (List.mem_cons.not.mp hbranch.no_union)
  obtain ⟨hskip, hskipAll⟩ := found_skip htail (fun other h => hbranch.no_space other (List.mem_cons_of_mem _ h))
    (wordsAfter (rest.map fun (part : Joint × Statement low) =>
      (part.1.all.isSome, split_whitespace (low.to_lowercase part.2.text))))
  have hfirst : ∀ pattern, found (' ' :: pattern) (word ++ spaced (tail ++ wordsAfter (rest.map fun
      (part : Joint × Statement low) => (part.1.all.isSome, split_whitespace (low.to_lowercase part.2.text))))) = _ :=
    fun pattern => found_word_append hspace _
  rw [List.cons_append, intercalate_eq_spaced]
  show found " union ".toList _ + found " union all ".toList _ / 2 = _
  rw [union_text, union_all_text, hfirst, hfirst, ← union_text, ← union_all_text, hskip, hskipAll, hone, hall,
    List.length_map, List.countP_map]
  rfl

/-- `extract_ops` counts the unions of a text of statements exactly when at most one
    of them is a UNION ALL. -/
theorem extract_ops_unions_iff (low : Lowercase) (is_alphanumeric : Char → Bool) (first : Statement low)
    (rest : List (Joint × Statement low)) :
    (extract_ops low.to_lowercase is_alphanumeric (unionText first rest)).map NodeOps.unions = some rest.length ↔
      rest.countP (fun part => part.1.all.isSome) ≤ 1 := by
  obtain ⟨ops, hops, hunions⟩ := extract_ops_eq low.to_lowercase is_alphanumeric (unionText first rest)
  rw [hops, Option.map_some, Option.some.injEq, hunions, unions_unionText]
  omega

private theorem is_whitespace_toLower (c : Char) : is_whitespace c.toLower = is_whitespace c := by
  unfold Char.toLower
  split
  · rename_i hupper
    have hlow : 65 ≤ c.toNat := hupper.1
    have hhigh : c.toNat ≤ 90 := hupper.2
    have hshift : (c.val + ('a'.val - 'A'.val)).toNat = c.toNat + 32 := by
      have hadd : ('a'.val - 'A'.val).toNat = 32 := by decide
      rw [UInt32.toNat_add, hadd]
      exact Nat.mod_eq_of_lt (show c.toNat + 32 < 2 ^ 32 by omega)
    simp only [is_whitespace, Char.toNat, hshift]
    simp only [Char.toNat] at hlow hhigh ⊢
    rw [Bool.eq_iff_iff]
    simp only [Bool.or_eq_true, Bool.and_eq_true, decide_eq_true_eq, beq_iff_eq]
    omega
  · rfl

def asciiLowercase : Lowercase where
  to_lowercase := List.map Char.toLower
  words := by
    intro text
    have hsplit : (text.map Char.toLower).splitOnP is_whitespace =
        (text.splitOnP is_whitespace).map (List.map Char.toLower) := by
      induction text with
      | nil => rfl
      | cons c text ih =>
        obtain ⟨first, rest, hfirst⟩ := List.exists_cons_of_ne_nil (List.splitOnP_ne_nil is_whitespace text)
        rw [List.map_cons, List.splitOnP_cons_eq_if_modifyHead, List.splitOnP_cons_eq_if_modifyHead,
          is_whitespace_toLower, ih, hfirst]
        split <;> rfl
    rw [split_whitespace, hsplit, split_whitespace, List.filter_map]
    refine congrArg _ (List.filter_congr fun word _ => ?_)
    simp
  ascii := fun _ _ => rfl

private def plainSpace : Blank := ⟨[' '], by decide, el.forall_mem_of_all (by decide)⟩

private def plainUnionAll : Joint :=
  ⟨plainSpace, ⟨"UNION".toList, el.forall_mem_of_all (by decide), by decide⟩,
    some (plainSpace, ⟨"ALL".toList, el.forall_mem_of_all (by decide), by decide⟩), plainSpace⟩

/-- Three statements and two UNION ALL: two branches beyond the first, counted as
    three. -/
theorem union_all_counted_again :
    let one : Statement asciiLowercase := ⟨"select 1".toList, by decide, by decide, by decide⟩
    let rest := [(plainUnionAll, one), (plainUnionAll, one)]
    unionText one rest = "select 1 UNION ALL select 1 UNION ALL select 1".toList ∧
      (extract_ops asciiLowercase.to_lowercase Char.isAlphanum (unionText one rest)).map NodeOps.unions ≠
        some rest.length := by
  refine ⟨by decide +kernel, ?_⟩
  generalize (⟨"select 1".toList, by decide, by decide, by decide⟩ : Statement asciiLowercase) = one
  obtain ⟨ops, hops, hunions⟩ := extract_ops_eq asciiLowercase.to_lowercase Char.isAlphanum
    (unionText one [(plainUnionAll, one), (plainUnionAll, one)])
  rw [hops, Option.map_some, hunions, unions_unionText]
  simp [plainUnionAll]

end zed.dbt_ui.lineage
