import Zed.Sql.Lexer
import Zed.DbtUi.El.Mcp

namespace zed.dbt_ui.el.mcp

open sql

def plainSql : Dialect := ⟨is_whitespace, none⟩

/-- The tokens of a text, also when a quote or comment in it is left open. -/
def seen (text : List Char) : List Token := (Lexer.new.run plainSql text).read

def IsRead (word : List Char) : Prop :=
  word.map Char.toLower = "select".toList ∨ word.map Char.toLower = "with".toList

/-- A text with no semicolon outside of strings, quoted names and comments, that begins
    with SELECT or WITH. -/
def OneRead (text : List Char) : Prop :=
  .symbol ';' ∉ seen text ∧ ∃ word rest, seen text = .word word :: rest ∧ IsRead word

/-- A SELECT or WITH statement, which a semicolon may end, with its strings, quoted names and
    comments closed. -/
def ReadStatement (sql : List Char) : Prop :=
  ∃ word body last, lex plainSql sql = some (.word word :: body ++ last) ∧ IsRead word ∧ .symbol ';' ∉ body ∧
    (last = [] ∨ last = [.symbol ';'])

/-- What is returned is one read statement, and each read statement is accepted. -/
def Guarded (sql : List Char) : Prop :=
  (∀ text, read_only_statement sql = .ok text → OneRead text) ∧
    (ReadStatement sql → ∃ text, read_only_statement sql = .ok text)

/-- A text with a space for each of its comments. -/
def uncomment : Option Char → List Char → List Char
  | _, [] => []
  | some quote, c :: text => c :: uncomment (if c = quote then none else some quote) text
  | none, '-' :: '-' :: comment => ' ' :: uncomment none (after_line comment)
  | none, '/' :: '*' :: comment => ' ' :: uncomment none (after_block comment)
  | none, c :: text => c :: uncomment (if c = '\'' ∨ c = '"' then some c else none) text
termination_by _ text => text.length
decreasing_by
  all_goals simp only [List.length_cons]
  · omega
  · have h := length_after_line comment
    omega
  · have h := length_after_block comment
    omega
  · omega

/-- The keyword of a statement is the beginning of a longer word. -/
def RunsOn (statement : List Char) : Prop :=
  ∃ c ∈ (statement.dropWhile Char.isAlpha).head?, is_word c = true ∧ is_whitespace c = false

/-- The scan for semicolons, which reads comments as code, misses one behind a quote in a
    comment, or sees one that is none, or the last one before a comment; or the keyword is
    not a word. -/
def Misread (sql : List Char) : Prop :=
  let statement := statement_of sql
  (IsRead (statement.takeWhile Char.isAlpha) ∧ has_semicolon none statement = false ∧
      (RunsOn statement ∨ has_semicolon none (uncomment none statement) = true)) ∨
    (ReadStatement sql ∧ has_semicolon none statement = true)

/-- A mode in which the next character begins a token, unless it goes on with the last one. -/
inductive Between : Mode → Prop
  | code : Between .code
  | word (text : List Char) : Between (.word text)
  | string_quote (value : List Char) : Between (.string_quote value)
  | quoted_quote (name : List Char) : Between (.quoted_quote name)

/-- The same semicolons among two lists of tokens. -/
def SameSemicolon (tokens tokens' : List Token) : Prop := .symbol ';' ∈ tokens' ↔ .symbol ';' ∈ tokens

theorem SameSemicolon.mem_iff {tokens tokens' : List Token} (h : SameSemicolon tokens tokens') :
    .symbol ';' ∈ tokens' ↔ .symbol ';' ∈ tokens := h

theorem sameSemicolon_append {tokens : List Token} (token : Token) (h : token ≠ .symbol ';') :
    SameSemicolon tokens (tokens ++ [token]) := by
  simp [SameSemicolon, Ne.symm h]

theorem mem_read (lexer : Lexer) : .symbol ';' ∈ lexer.read ↔ .symbol ';' ∈ lexer.tokens := by
  rcases lexer.read_tokens with hread | ⟨token, hread, htoken⟩
  · rw [hread]
  · have hne : token ≠ .symbol ';' := fun heq => by
      rcases htoken ';' heq with h | h
      · cases h
      · cases h
    rw [hread, (sameSemicolon_append token hne).mem_iff]

theorem step_between {mode : Mode} (h : Between mode) (tokens : List Token) (c : Char) :
    (∃ tokens', SameSemicolon tokens tokens' ∧ Lexer.step plainSql ⟨mode, tokens⟩ c = Lexer.start plainSql tokens' c) ∨
      (is_word c = true ∧ ∃ text, Lexer.step plainSql ⟨mode, tokens⟩ c = ⟨.word text, tokens⟩) ∨
      (c = '\'' ∧ ∃ value, Lexer.step plainSql ⟨mode, tokens⟩ c = ⟨.string value, tokens⟩) ∨
      (c = '"' ∧ ∃ name, Lexer.step plainSql ⟨mode, tokens⟩ c = ⟨.quoted name, tokens⟩) := by
  cases h with
  | code => exact .inl ⟨tokens, Iff.rfl, rfl⟩
  | word text =>
    by_cases hword : (is_word c && !plainSql.is_space c) = true
    · exact .inr (.inl ⟨(Bool.and_eq_true_iff.mp hword).1, c :: text, by simp only [Lexer.step, hword, if_true]⟩)
    · exact .inl ⟨_, sameSemicolon_append (.word text.reverse) (by simp), by
        simp only [Lexer.step, if_neg hword]⟩
  | string_quote value =>
    by_cases hquote : c = '\''
    · exact .inr (.inr (.inl ⟨hquote, '\'' :: value, by simp only [Lexer.step, if_pos hquote]⟩))
    · exact .inl ⟨_, sameSemicolon_append (.string value.reverse) (by simp), by
        simp only [Lexer.step, if_neg hquote]⟩
  | quoted_quote name =>
    by_cases hquote : c = '"'
    · exact .inr (.inr (.inr ⟨hquote, '"' :: name, by simp only [Lexer.step, if_pos hquote]⟩))
    · exact .inl ⟨_, sameSemicolon_append (.quoted name.reverse) (by simp), by
        simp only [Lexer.step, if_neg hquote]⟩

/-- A character that begins no comment, string or quoted name and is no semicolon leaves the
    lexer between tokens. -/
theorem start_plain {c : Char} (hquote : c ≠ '\'') (hquoted : c ≠ '"') (hdash : c ≠ '-') (hslash : c ≠ '/')
    (hsemicolon : c ≠ ';') (tokens : List Token) :
    ∃ mode tokens', Between mode ∧ SameSemicolon tokens tokens' ∧ Lexer.start plainSql tokens c = ⟨mode, tokens'⟩ := by
  unfold Lexer.start
  rw [if_neg hquote, if_neg hquoted, if_neg hdash, if_neg hslash]
  split
  · exact ⟨_, _, .code, Iff.rfl, rfl⟩
  · split
    · exact ⟨_, _, .word _, Iff.rfl, rfl⟩
    · exact ⟨_, _, .code, sameSemicolon_append (.symbol c) (by simpa using hsemicolon), rfl⟩

theorem step_plain {mode : Mode} (h : Between mode) {c : Char} (hquote : c ≠ '\'') (hquoted : c ≠ '"')
    (hdash : c ≠ '-') (hslash : c ≠ '/') (hsemicolon : c ≠ ';') (tokens : List Token) :
    ∃ mode' tokens', Between mode' ∧ SameSemicolon tokens tokens' ∧
      Lexer.step plainSql ⟨mode, tokens⟩ c = ⟨mode', tokens'⟩ := by
  rcases step_between h tokens c with ⟨tokens', hsame, hstep⟩ | ⟨-, text, hstep⟩ | ⟨heq, -⟩ | ⟨heq, -⟩
  · obtain ⟨mode', tokens'', hmode, hsame', hstart⟩ := start_plain hquote hquoted hdash hslash hsemicolon tokens'
    exact ⟨mode', tokens'', hmode, hsame'.mem_iff.trans hsame.mem_iff, hstep.trans hstart⟩
  · exact ⟨_, _, .word text, Iff.rfl, hstep⟩
  · exact absurd heq hquote
  · exact absurd heq hquoted

theorem step_begins {mode : Mode} (h : Between mode) {c : Char} (hword : is_word c = false)
    (hquote : c ≠ '\'') (hquoted : c ≠ '"') (tokens : List Token) :
    ∃ tokens', SameSemicolon tokens tokens' ∧ Lexer.step plainSql ⟨mode, tokens⟩ c = Lexer.start plainSql tokens' c := by
  rcases step_between h tokens c with hstep | ⟨hmore, -⟩ | ⟨heq, -⟩ | ⟨heq, -⟩
  · exact hstep
  · rw [hword] at hmore
    cases hmore
  · exact absurd heq hquote
  · exact absurd heq hquoted

theorem step_quote {mode : Mode} (h : Between mode) (tokens : List Token) :
    ∃ value tokens', SameSemicolon tokens tokens' ∧
      Lexer.step plainSql ⟨mode, tokens⟩ '\'' = ⟨.string value, tokens'⟩ := by
  rcases step_between h tokens '\'' with ⟨tokens', hsame, hstep⟩ | ⟨hword, -⟩ | ⟨-, value, hstep⟩ | ⟨heq, -⟩
  · exact ⟨[], tokens', hsame, hstep⟩
  · cases hword
  · exact ⟨value, tokens, Iff.rfl, hstep⟩
  · cases heq

theorem step_quoted {mode : Mode} (h : Between mode) (tokens : List Token) :
    ∃ name tokens', SameSemicolon tokens tokens' ∧
      Lexer.step plainSql ⟨mode, tokens⟩ '"' = ⟨.quoted name, tokens'⟩ := by
  rcases step_between h tokens '"' with ⟨tokens', hsame, hstep⟩ | ⟨hword, -⟩ | ⟨heq, -⟩ | ⟨-, name, hstep⟩
  · exact ⟨[], tokens', hsame, hstep⟩
  · cases hword
  · cases heq
  · exact ⟨name, tokens, Iff.rfl, hstep⟩

theorem run_line_read (tokens : List Token) (comment : List Char) :
    (Lexer.run plainSql ⟨.line_comment, tokens⟩ comment).read =
      (Lexer.run plainSql ⟨.code, tokens⟩ (after_line comment)).read := by
  induction comment with
  | nil => rfl
  | cons c comment ih =>
    by_cases hc : c = '\n'
    · subst hc
      rfl
    · have hstep : Lexer.step plainSql ⟨.line_comment, tokens⟩ c = ⟨.line_comment, tokens⟩ := by
        simp only [Lexer.step, if_neg hc]
      have hafter : after_line (c :: comment) = after_line comment := by
        rw [after_line, List.dropWhile_cons_of_pos (by simpa using hc), after_line]
      rw [Lexer.run_cons, hstep, ih, hafter]

theorem run_block_read (tokens : List Token) (comment : List Char) :
    (Lexer.run plainSql ⟨.block_comment, tokens⟩ comment).read =
      (Lexer.run plainSql ⟨.code, tokens⟩ (after_block comment)).read := by
  fun_induction after_block comment with
  | case1 => rfl
  | case2 rest => rfl
  | case3 c comment hend ih =>
    rw [Lexer.run_cons, ← ih]
    by_cases hstar : c = '*'
    · subst hstar
      cases comment with
      | nil => rfl
      | cons d comment =>
        have hslash : d ≠ '/' := fun heq => hend comment rfl (by rw [heq])
        rw [Lexer.run_cons, Lexer.run_cons]
        simp only [Lexer.step, if_true, if_neg hslash]
    · simp only [Lexer.step, if_neg hstar]

theorem uncomment_cons {c : Char} {text : List Char} (hdash : c = '-' → text.head? ≠ some '-')
    (hslash : c = '/' → text.head? ≠ some '*') :
    uncomment none (c :: text) = c :: uncomment (if c = '\'' ∨ c = '"' then some c else none) text := by
  rw [uncomment]
  · rintro comment rfl rfl
    exact hdash rfl rfl
  · rintro comment rfl rfl
    exact hslash rfl rfl

theorem has_semicolon_space (text : List Char) : has_semicolon none (' ' :: text) = has_semicolon none text := by
  rw [has_semicolon, if_neg (by decide), if_neg (by decide)]

/-- The statement about semicolons for one place of the lexer, given it for shorter texts. -/
def SemicolonRun (n : Nat) : Prop :=
  ∀ text : List Char, text.length ≤ n → ∀ tokens mode, Between mode →
    (.symbol ';' ∈ (Lexer.run plainSql ⟨mode, tokens⟩ text).read ↔
      .symbol ';' ∈ tokens ∨ has_semicolon none (uncomment none text) = true)

theorem semicolon_dash {n : Nat} (ih : SemicolonRun n) {text : List Char} (hn : text.length ≤ n) (tokens : List Token) :
    .symbol ';' ∈ (Lexer.run plainSql ⟨.dash, tokens⟩ text).read ↔
      .symbol ';' ∈ tokens ∨ has_semicolon none (uncomment none ('-' :: text)) = true := by
  cases text with
  | nil => simp [mem_read, Lexer.run, uncomment, has_semicolon]
  | cons d rest =>
    by_cases hdash : d = '-'
    · subst hdash
      have hlength := length_after_line rest
      have hstep : Lexer.step plainSql ⟨.dash, tokens⟩ '-' = ⟨.line_comment, tokens⟩ := rfl
      rw [Lexer.run_cons, hstep, run_line_read, uncomment, has_semicolon_space]
      exact ih _ (by rw [List.length_cons] at hn; omega) tokens _ .code
    · have hstep : Lexer.step plainSql ⟨.dash, tokens⟩ d = Lexer.step plainSql ⟨.code, tokens ++ [.symbol '-']⟩ d := by
        simp only [Lexer.step, if_neg hdash]
      have huncomment : uncomment none ('-' :: d :: rest) = '-' :: uncomment none (d :: rest) := by
        rw [uncomment_cons (fun _ => by simpa using hdash) (fun h => by cases h), if_neg (by decide)]
      rw [Lexer.run_cons, hstep, ← Lexer.run_cons, ih _ hn _ _ .code, (sameSemicolon_append (.symbol '-') (by simp)).mem_iff,
        huncomment]
      conv_rhs => rw [has_semicolon, if_neg (by decide), if_neg (by decide)]

theorem semicolon_slash {n : Nat} (ih : SemicolonRun n) {text : List Char} (hn : text.length ≤ n) (tokens : List Token) :
    .symbol ';' ∈ (Lexer.run plainSql ⟨.slash, tokens⟩ text).read ↔
      .symbol ';' ∈ tokens ∨ has_semicolon none (uncomment none ('/' :: text)) = true := by
  cases text with
  | nil => simp [mem_read, Lexer.run, uncomment, has_semicolon]
  | cons d rest =>
    by_cases hstar : d = '*'
    · subst hstar
      have hlength := length_after_block rest
      have hstep : Lexer.step plainSql ⟨.slash, tokens⟩ '*' = ⟨.block_comment, tokens⟩ := rfl
      rw [Lexer.run_cons, hstep, run_block_read, uncomment, has_semicolon_space]
      exact ih _ (by rw [List.length_cons] at hn; omega) tokens _ .code
    · have hstep : Lexer.step plainSql ⟨.slash, tokens⟩ d = Lexer.step plainSql ⟨.code, tokens ++ [.symbol '/']⟩ d := by
        simp only [Lexer.step, if_neg hstar]
      have huncomment : uncomment none ('/' :: d :: rest) = '/' :: uncomment none (d :: rest) := by
        rw [uncomment_cons (fun h => by cases h) (fun _ => by simpa using hstar), if_neg (by decide)]
      rw [Lexer.run_cons, hstep, ← Lexer.run_cons, ih _ hn _ _ .code, (sameSemicolon_append (.symbol '/') (by simp)).mem_iff,
        huncomment]
      conv_rhs => rw [has_semicolon, if_neg (by decide), if_neg (by decide)]

/-- The tokens of a text have a semicolon exactly when it has one outside of quotes once its
    comments are taken out; `n` bounds the text, which a comment shortens. -/
theorem semicolon_run (n : Nat) (text : List Char) (hn : text.length ≤ n) (tokens : List Token) :
    (∀ mode, Between mode → (.symbol ';' ∈ (Lexer.run plainSql ⟨mode, tokens⟩ text).read ↔
        .symbol ';' ∈ tokens ∨ has_semicolon none (uncomment none text) = true)) ∧
      (∀ value, .symbol ';' ∈ (Lexer.run plainSql ⟨.string value, tokens⟩ text).read ↔
        .symbol ';' ∈ tokens ∨ has_semicolon (some '\'') (uncomment (some '\'') text) = true) ∧
      ∀ name, .symbol ';' ∈ (Lexer.run plainSql ⟨.quoted name, tokens⟩ text).read ↔
        .symbol ';' ∈ tokens ∨ has_semicolon (some '"') (uncomment (some '"') text) = true := by
  induction n generalizing text tokens with
  | zero =>
    obtain rfl := List.length_eq_zero_iff.mp (Nat.le_zero.mp hn)
    simp [mem_read, Lexer.run, uncomment, has_semicolon]
  | succ n ih =>
    cases text with
    | nil => simp [mem_read, Lexer.run, uncomment, has_semicolon]
    | cons c text =>
      have hlength : text.length ≤ n := Nat.le_of_succ_le_succ hn
      refine ⟨fun mode hmode => ?_, fun value => ?_, fun name => ?_⟩
      · rw [Lexer.run_cons]
        have hshorter : SemicolonRun n := fun text hlength tokens mode hmode => (ih text hlength tokens).1 mode hmode
        by_cases hquote : c = '\''
        · subst hquote
          obtain ⟨value, tokens', hsame, hstep⟩ := step_quote hmode tokens
          rw [hstep, (ih text hlength tokens').2.1, hsame.mem_iff, uncomment_cons (fun h => by cases h) (fun h => by cases h),
            if_pos (by decide)]
          conv_rhs => rw [has_semicolon, if_pos (by decide)]
        by_cases hquoted : c = '"'
        · subst hquoted
          obtain ⟨name, tokens', hsame, hstep⟩ := step_quoted hmode tokens
          rw [hstep, (ih text hlength tokens').2.2, hsame.mem_iff, uncomment_cons (fun h => by cases h) (fun h => by cases h),
            if_pos (by decide)]
          conv_rhs => rw [has_semicolon, if_pos (by decide)]
        by_cases hdash : c = '-'
        · subst hdash
          obtain ⟨tokens', hsame, hstep⟩ := step_begins hmode rfl hquote hquoted tokens
          have hstart : Lexer.start plainSql tokens' '-' = ⟨.dash, tokens'⟩ := rfl
          rw [hstep, hstart, semicolon_dash hshorter hlength, hsame.mem_iff]
        by_cases hslash : c = '/'
        · subst hslash
          obtain ⟨tokens', hsame, hstep⟩ := step_begins hmode rfl hquote hquoted tokens
          have hstart : Lexer.start plainSql tokens' '/' = ⟨.slash, tokens'⟩ := rfl
          rw [hstep, hstart, semicolon_slash hshorter hlength, hsame.mem_iff]
        have huncomment : uncomment none (c :: text) = c :: uncomment none text := by
          rw [uncomment_cons (fun h => absurd h hdash) (fun h => absurd h hslash), if_neg (by simp [hquote, hquoted])]
        rw [huncomment]
        by_cases hsemicolon : c = ';'
        · subst hsemicolon
          obtain ⟨tokens', -, hstep⟩ := step_begins hmode rfl hquote hquoted tokens
          have hstart : Lexer.start plainSql tokens' ';' = ⟨.code, tokens' ++ [.symbol ';']⟩ := rfl
          have hread : ∃ more, (Lexer.run plainSql ⟨.code, tokens' ++ [.symbol ';']⟩ text).read =
              (tokens' ++ [.symbol ';']) ++ more := Lexer.run_read _ text
          obtain ⟨more, hmore⟩ := hread
          rw [hstep, hstart, hmore]
          simp [has_semicolon]
        · obtain ⟨mode', tokens', hmode', hsame, hstep⟩ :=
            step_plain hmode hquote hquoted hdash hslash hsemicolon tokens
          rw [hstep, hshorter text hlength tokens' mode' hmode', hsame.mem_iff]
          conv_rhs => rw [has_semicolon, if_neg (by simp [hquote, hquoted]), if_neg hsemicolon]
      · rw [Lexer.run_cons, uncomment, has_semicolon]
        by_cases hquote : c = '\''
        · have hstep : Lexer.step plainSql ⟨.string value, tokens⟩ c = ⟨.string_quote value, tokens⟩ := by
            simp only [Lexer.step, if_pos hquote]
          rw [hstep, if_pos hquote]
          exact (ih text hlength tokens).1 _ (.string_quote value)
        · have hstep : Lexer.step plainSql ⟨.string value, tokens⟩ c = ⟨.string (c :: value), tokens⟩ := by
            simp [Lexer.step, if_neg hquote, plainSql]
          rw [hstep, if_neg hquote]
          exact (ih text hlength tokens).2.1 _
      · rw [Lexer.run_cons, uncomment, has_semicolon]
        by_cases hquote : c = '"'
        · have hstep : Lexer.step plainSql ⟨.quoted name, tokens⟩ c = ⟨.quoted_quote name, tokens⟩ := by
            simp only [Lexer.step, if_pos hquote]
          rw [hstep, if_pos hquote]
          exact (ih text hlength tokens).1 _ (.quoted_quote name)
        · have hstep : Lexer.step plainSql ⟨.quoted name, tokens⟩ c = ⟨.quoted (c :: name), tokens⟩ := by
            simp only [Lexer.step, if_neg hquote]
          rw [hstep, if_neg hquote]
          exact (ih text hlength tokens).2.2 _

/-- A text has a semicolon outside of strings, quoted names and comments when it has one outside
    of quotes without its comments. -/
theorem mem_seen (text : List Char) :
    .symbol ';' ∈ seen text ↔ has_semicolon none (uncomment none text) = true := by
  have hrun := (semicolon_run text.length text (Nat.le_refl _) []).1 .code .code
  exact hrun.trans (by simp)

theorem isAlpha_is_word {c : Char} (h : c.isAlpha = true) : (is_word c && !is_whitespace c) = true := by
  have h : (65 ≤ c.toNat ∧ c.toNat ≤ 90) ∨ (97 ≤ c.toNat ∧ c.toNat ≤ 122) := by
    simpa [Char.isAlpha, Char.isUpper, Char.isLower, UInt32.le_iff_toNat_le] using h
  have hword : is_word c = true := by
    rcases h with ⟨hge, hle⟩ | ⟨hge, hle⟩
    · have hA : 'A' ≤ c := hge
      have hZ : c ≤ 'Z' := hle
      simp [is_word, hA, hZ]
    · have ha : 'a' ≤ c := hge
      have hz : c ≤ 'z' := hle
      simp [is_word, ha, hz]
  have hspace : is_whitespace c = false := by
    simp [is_whitespace]
    omega
  rw [hword, hspace]
  rfl

theorem isAlpha_of_toLower {c : Char} (h : c.toLower.isAlpha = true) : c.isAlpha = true := by
  unfold Char.toLower at h
  split at h
  · rename_i hupper
    have hcapital : c.isUpper = true := by simpa [Char.isUpper] using hupper
    rw [Char.isAlpha, hcapital, Bool.true_or]
  · exact h
theorem IsRead.isAlpha {word : List Char} (h : IsRead word) : ∀ c ∈ word, c.isAlpha = true := by
  intro c hc
  have hlower : c.toLower ∈ word.map Char.toLower := List.mem_map_of_mem hc
  apply isAlpha_of_toLower
  rcases h with h | h
  · rw [h] at hlower
    exact List.all_eq_true.mp (show "select".toList.all Char.isAlpha = true by decide) _ hlower
  · rw [h] at hlower
    exact List.all_eq_true.mp (show "with".toList.all Char.isAlpha = true by decide) _ hlower

theorem seen_word {word : List Char} (hword : Lexer.IsWord plainSql word) {rest : List Char}
    (hrest : ∀ c ∈ rest.head?, (is_word c && !is_whitespace c) = false) :
    ∃ more, seen (word ++ rest) = .word word :: more := by
  unfold seen
  rw [Lexer.run_append, Lexer.new, Lexer.run_isWord hword]
  cases rest with
  | nil => exact ⟨[], by simp [Lexer.run, Lexer.read, Lexer.finish]⟩
  | cons c rest =>
    have hstep : Lexer.step plainSql ⟨.word word.reverse, []⟩ c = Lexer.start plainSql [.word word] c := by
      simp only [Lexer.step, plainSql, hrest c rfl, List.reverse_reverse]
      rfl
    have hstart : ∃ first, (Lexer.start plainSql [.word word] c).tokens = [.word word] ++ first := Lexer.start_tokens _ c
    obtain ⟨first, hfirst⟩ := hstart
    have hread : ∃ more, (Lexer.run plainSql (Lexer.start plainSql [.word word] c) rest).read =
        (Lexer.start plainSql [.word word] c).tokens ++ more := Lexer.run_read _ rest
    obtain ⟨more, hmore⟩ := hread
    exact ⟨first ++ more, by rw [Lexer.run_cons, hstep, hmore, hfirst]; rfl⟩

theorem IsRead.ne_nil {word : List Char} (h : IsRead word) : word ≠ [] := by
  rintro rfl
  rcases h with h | h
  · cases h
  · cases h

theorem head_dropWhile (p : Char → Bool) (text : List Char) : ∀ c ∈ (text.dropWhile p).head?, p c = false := by
  intro c hc
  have hnot := List.head?_dropWhile_not p text
  rw [Option.mem_def.mp hc] at hnot
  exact hnot

theorem seen_first {text : List Char} (h : text.takeWhile (fun c => is_word c && !is_whitespace c) ≠ []) :
    ∃ more, seen text = .word (text.takeWhile fun c => is_word c && !is_whitespace c) :: more := by
  have hword : Lexer.IsWord plainSql (text.takeWhile fun c => is_word c && !is_whitespace c) :=
    ⟨h, List.all_takeWhile⟩
  have hseen : ∃ more, seen (_ ++ text.dropWhile fun c => is_word c && !is_whitespace c) = _ :: more :=
    seen_word hword (head_dropWhile _ text)
  rwa [List.takeWhile_append_dropWhile] at hseen

theorem first_isRead_iff {text : List Char} (h : IsRead (text.takeWhile Char.isAlpha)) :
    (∃ word rest, seen text = .word word :: rest ∧ IsRead word) ↔ ¬ RunsOn text := by
  let p : Char → Bool := fun c => is_word c && !is_whitespace c
  have hsplit : text.takeWhile p = text.takeWhile Char.isAlpha ++ (text.dropWhile Char.isAlpha).takeWhile p := by
    conv_lhs => rw [← List.takeWhile_append_dropWhile (p := Char.isAlpha) (l := text)]
    exact List.takeWhile_append_of_pos fun c hc => isAlpha_is_word (List.mem_takeWhile_imp hc)
  have hne : text.takeWhile p ≠ [] := by
    rw [hsplit]
    exact List.append_ne_nil_of_left_ne_nil h.ne_nil _
  obtain ⟨more, hseen⟩ := seen_first hne
  constructor
  · rintro ⟨word, rest, hfirst, hread⟩ ⟨c, hc, hword, hspace⟩
    rw [hseen] at hfirst
    obtain ⟨heq, -⟩ := List.cons.inj hfirst
    have heq : text.takeWhile p = word := Token.word.inj heq
    have hmem : c ∈ (text.dropWhile Char.isAlpha).takeWhile p := by
      cases hrest : text.dropWhile Char.isAlpha with
      | nil =>
        rw [hrest] at hc
        cases hc
      | cons d rest =>
        rw [hrest] at hc
        cases hc
        rw [List.takeWhile_cons_of_pos (by simp [p, hword, hspace])]
        exact List.mem_cons_self
    have halpha : c.isAlpha = true := hread.isAlpha c (heq ▸ hsplit ▸ List.mem_append_right _ hmem)
    rw [head_dropWhile _ text c hc] at halpha
    cases halpha
  · intro hruns
    have hnil : (text.dropWhile Char.isAlpha).takeWhile p = [] := by
      cases hrest : text.dropWhile Char.isAlpha with
      | nil => rfl
      | cons d rest =>
        refine List.takeWhile_cons_of_neg fun hd => hruns ⟨d, by rw [hrest]; rfl, ?_⟩
        simpa [p] using hd
    refine ⟨_, more, hseen, ?_⟩
    change IsRead (text.takeWhile p)
    rwa [hsplit, hnil, List.append_nil]

/-- A mode in which a string or quoted name is read, or its end may be. -/
inductive InQuote : Mode → Prop
  | string (value : List Char) : InQuote (.string value)
  | string_quote (value : List Char) : InQuote (.string_quote value)
  | quoted (name : List Char) : InQuote (.quoted name)
  | quoted_quote (name : List Char) : InQuote (.quoted_quote name)

theorem step_inQuote {mode : Mode} (h : InQuote mode) (c : Char) :
    (∃ mode', InQuote mode' ∧ Lexer.step plainSql ⟨mode, []⟩ c = ⟨mode', []⟩) ∨
      ∃ token, (∀ word, token ≠ .word word) ∧ Lexer.step plainSql ⟨mode, []⟩ c = Lexer.start plainSql [token] c := by
  cases h with
  | string value =>
    by_cases hquote : c = '\''
    · exact .inl ⟨_, .string_quote value, by simp only [Lexer.step, if_pos hquote]⟩
    · exact .inl ⟨_, .string (c :: value), by simp [Lexer.step, if_neg hquote, plainSql]⟩
  | string_quote value =>
    by_cases hquote : c = '\''
    · exact .inl ⟨_, .string ('\'' :: value), by simp only [Lexer.step, if_pos hquote]⟩
    · exact .inr ⟨.string value.reverse, by simp, by simp only [Lexer.step, if_neg hquote, List.nil_append]⟩
  | quoted name =>
    by_cases hquote : c = '"'
    · exact .inl ⟨_, .quoted_quote name, by simp only [Lexer.step, if_pos hquote]⟩
    · exact .inl ⟨_, .quoted (c :: name), by simp only [Lexer.step, if_neg hquote]⟩
  | quoted_quote name =>
    by_cases hquote : c = '"'
    · exact .inl ⟨_, .quoted ('"' :: name), by simp only [Lexer.step, if_pos hquote]⟩
    · exact .inr ⟨.quoted name.reverse, by simp, by simp only [Lexer.step, if_neg hquote, List.nil_append]⟩

/-- The first of some tokens is no word. -/
def NoWord (tokens : List Token) : Prop := ∀ word more, tokens ≠ .word word :: more

theorem noWord_start {token : Token} (h : ∀ word, token ≠ .word word) (c : Char) (text : List Char) :
    NoWord (Lexer.run plainSql (Lexer.start plainSql [token] c) text).read := by
  intro word more heq
  have hstart : ∃ first, (Lexer.start plainSql [token] c).tokens = [token] ++ first := Lexer.start_tokens _ c
  have hread : ∃ more, (Lexer.run plainSql (Lexer.start plainSql [token] c) text).read =
      (Lexer.start plainSql [token] c).tokens ++ more := Lexer.run_read _ text
  obtain ⟨first, hfirst⟩ := hstart
  obtain ⟨more', hmore⟩ := hread
  rw [hmore, hfirst, List.append_assoc] at heq
  exact h word (List.cons.inj heq).1

theorem noWord_inQuote (text : List Char) {mode : Mode} (h : InQuote mode) :
    NoWord (Lexer.run plainSql ⟨mode, []⟩ text).read := by
  induction text generalizing mode with
  | nil =>
    intro word more heq
    cases h with
    | string value => cases heq
    | string_quote value => cases heq
    | quoted name => cases heq
    | quoted_quote name => cases heq
  | cons c text ih =>
    rw [Lexer.run_cons]
    rcases step_inQuote h c with ⟨mode', hmode', hstep⟩ | ⟨token, htoken, hstep⟩
    · rw [hstep]
      exact ih hmode'
    · rw [hstep]
      exact noWord_start htoken c text

theorem noWord_seen {c : Char} {text : List Char} (hspace : is_whitespace c = false) (hword : is_word c = false)
    (hdash : c = '-' → text.head? ≠ some '-') (hslash : c = '/' → text.head? ≠ some '*') :
    NoWord (seen (c :: text)) := by
  have hspace : ¬ plainSql.is_space c = true := by simp [plainSql, hspace]
  have hword : ¬ is_word c = true := by simp [hword]
  unfold seen Lexer.new
  rw [Lexer.run_cons]
  have hstep : Lexer.step plainSql ⟨.code, []⟩ c = Lexer.start plainSql [] c := rfl
  rw [hstep, Lexer.start, if_neg hspace]
  by_cases hquote : c = '\''
  · rw [if_pos hquote]
    exact noWord_inQuote text (.string [])
  rw [if_neg hquote]
  by_cases hquoted : c = '"'
  · rw [if_pos hquoted]
    exact noWord_inQuote text (.quoted [])
  rw [if_neg hquoted]
  by_cases hdash' : c = '-'
  · rw [if_pos hdash']
    cases text with
    | nil =>
      intro word more heq
      cases heq
    | cons d text =>
      have hd : d ≠ '-' := fun heq => hdash hdash' (by rw [heq]; rfl)
      rw [Lexer.run_cons, Lexer.step, if_neg hd]
      exact noWord_start (by simp) d text
  rw [if_neg hdash']
  by_cases hslash' : c = '/'
  · rw [if_pos hslash']
    cases text with
    | nil =>
      intro word more heq
      cases heq
    | cons d text =>
      have hd : d ≠ '*' := fun heq => hslash hslash' (by rw [heq]; rfl)
      rw [Lexer.run_cons, Lexer.step, if_neg hd]
      exact noWord_start (by simp) d text
  rw [if_neg hslash', if_neg hword]
  intro word more heq
  have hread : ∃ more, (Lexer.run plainSql ⟨.code, [.symbol c]⟩ text).read = [.symbol c] ++ more :=
    Lexer.run_read _ text
  obtain ⟨more', hmore⟩ := hread
  rw [List.nil_append, hmore] at heq
  cases heq

theorem seen_strip_comments (sql : List Char) : seen (strip_comments sql) = seen sql := by
  have hspaces (text : List Char) : seen (trim_start text) = seen text := by
    unfold seen trim_start
    induction text with
    | nil => rfl
    | cons c text ih =>
      by_cases hc : is_whitespace c = true
      · have hstep : Lexer.step plainSql Lexer.new c = Lexer.new := if_pos hc
        rw [List.dropWhile_cons_of_pos hc, ih, Lexer.run_cons, hstep]
      · rw [List.dropWhile_cons_of_neg hc]
  fun_induction strip_comments sql with
  | case1 sql comment htrim ih =>
    rw [ih, ← hspaces sql, htrim]
    exact (run_line_read [] comment).symm
  | case2 sql comment htrim ih =>
    rw [ih, ← hspaces sql, htrim]
    exact (run_block_read [] comment).symm
  | case3 sql _ _ => exact hspaces sql

theorem strip_comments_head {sql : List Char} {c : Char} {text : List Char} (h : strip_comments sql = c :: text) :
    is_whitespace c = false ∧ (c = '-' → text.head? ≠ some '-') ∧ (c = '/' → text.head? ≠ some '*') := by
  fun_induction strip_comments sql with
  | case1 sql comment htrim ih => exact ih h
  | case2 sql comment htrim ih => exact ih h
  | case3 sql hline hblock =>
    rw [h] at hline hblock
    refine ⟨?_, ?_, ?_⟩
    · exact head_dropWhile is_whitespace sql c (by rw [← trim_start, h]; rfl)
    · rintro rfl hhead
      obtain ⟨rest, rfl⟩ := List.head?_eq_some_iff.mp hhead
      exact hline rest rfl
    · rintro rfl hhead
      obtain ⟨rest, rfl⟩ := List.head?_eq_some_iff.mp hhead
      exact hblock rest rfl

theorem takeWhile_rdropWhile {p q : Char → Bool} (h : ∀ c, q c = true → p c = false) (text : List Char) :
    (text.rdropWhile q).takeWhile p = text.takeWhile p := by
  have hcut : (text.rtakeWhile q).takeWhile p = [] := by
    cases hrest : text.rtakeWhile q with
    | nil => rfl
    | cons c rest =>
      have hq : q c = true := List.mem_rtakeWhile_imp (hrest ▸ List.mem_cons_self)
      exact List.takeWhile_cons_of_neg (by simp [h c hq])
  conv_rhs => rw [← List.rdropWhile_append_rtakeWhile (p := q) (l := text), List.takeWhile_append, hcut, List.append_nil]
  split
  · rename_i hlength
    exact (List.takeWhile_prefix p).eq_of_length hlength
  · rfl

theorem statement_of_letters (sql : List Char) :
    (statement_of sql).takeWhile Char.isAlpha = (strip_comments sql).takeWhile Char.isAlpha := by
  have hspace (c : Char) (hc : is_whitespace c = true) : c.isAlpha = false := by
    by_contra halpha
    have hword := isAlpha_is_word (eq_true_of_ne_false halpha)
    simp [hc] at hword
  have hsemicolon (c : Char) (hc : decide (c = ';') = true) : c.isAlpha = false := by
    rw [of_decide_eq_true hc]
    rfl
  rw [statement_of, trim_end, takeWhile_rdropWhile hspace, takeWhile_rdropWhile hsemicolon, trim_end,
    takeWhile_rdropWhile hspace]

theorem ReadStatement.isRead {sql : List Char} (h : ReadStatement sql) :
    IsRead ((statement_of sql).takeWhile Char.isAlpha) := by
  obtain ⟨word, body, last, hlex, hread, -⟩ := h
  have hseen : seen (strip_comments sql) = .word word :: (body ++ last) := by
    rw [seen_strip_comments, seen, Lexer.read]
    rw [lex] at hlex
    rw [hlex]
    rfl
  rw [statement_of_letters]
  let p : Char → Bool := fun c => is_word c && !is_whitespace c
  have hne : (strip_comments sql).takeWhile p ≠ [] := by
    cases hstrip : strip_comments sql with
    | nil =>
      rw [hstrip] at hseen
      cases hseen
    | cons c text =>
      obtain ⟨hspace, hdash, hslash⟩ := strip_comments_head hstrip
      by_cases hword : is_word c = true
      · rw [List.takeWhile_cons_of_pos (by simp [p, hword, hspace])]
        exact List.cons_ne_nil _ _
      · rw [hstrip] at hseen
        exact absurd hseen (noWord_seen hspace (by simpa using hword) hdash hslash word _)
  obtain ⟨more, hfirst⟩ := seen_first hne
  rw [hseen] at hfirst
  have hword : word = (strip_comments sql).takeWhile p := Token.word.inj (List.cons.inj hfirst).1
  have hletters : (strip_comments sql).takeWhile Char.isAlpha = (strip_comments sql).takeWhile p := by
    conv_lhs => rw [← List.takeWhile_append_dropWhile (p := p) (l := strip_comments sql)]
    rw [← hword, List.takeWhile_append_of_pos hread.isAlpha]
    cases hrest : (strip_comments sql).dropWhile p with
    | nil => exact List.append_nil _
    | cons d rest =>
      have hd : p d = false := head_dropWhile p (strip_comments sql) d (by rw [hrest]; rfl)
      have halpha : d.isAlpha = false := by
        by_contra halpha
        rw [show p d = true from isAlpha_is_word (eq_true_of_ne_false halpha)] at hd
        cases hd
      rw [List.takeWhile_cons_of_neg (by simp [halpha]), List.append_nil]
  rwa [hletters, ← hword]

theorem read_only_statement_ok_iff (sql text : List Char) :
    read_only_statement sql = .ok text ↔
      text = statement_of sql ∧ has_semicolon none text = false ∧ IsRead (text.takeWhile Char.isAlpha) := by
  unfold read_only_statement
  dsimp only
  constructor
  · intro h
    split at h
    · cases h
    split at h
    · cases h
    split at h
    · rename_i hsemicolon hkeyword
      cases h
      exact ⟨rfl, by simpa using hsemicolon, hkeyword⟩
    · cases h
  · rintro ⟨rfl, hsemicolon, hread⟩
    have hne : statement_of sql ≠ [] := by
      intro heq
      rw [heq] at hread
      exact hread.ne_nil rfl
    have hkeyword : keyword_of (statement_of sql) = "select".toList ∨ keyword_of (statement_of sql) = "with".toList := hread
    rw [if_neg hne, if_neg (by simp [hsemicolon]), if_pos hkeyword]

theorem oneRead_iff {text : List Char} (h : IsRead (text.takeWhile Char.isAlpha)) :
    OneRead text ↔ has_semicolon none (uncomment none text) = false ∧ ¬ RunsOn text := by
  rw [OneRead, mem_seen, first_isRead_iff h, Bool.not_eq_true]

end zed.dbt_ui.el.mcp
