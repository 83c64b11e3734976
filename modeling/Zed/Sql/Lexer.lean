import Mathlib

namespace zed.sql

inductive Token
  | word (text : List Char)
  | quoted (name : List Char)
  | string (value : List Char)
  | symbol (c : Char)
deriving DecidableEq, Repr

/-- What SQL dialects lex differently. -/
structure Dialect where
  is_space : Char → Bool
  /-- For strings with backslash escapes, the character that some characters after a
      backslash stand for, once they are enough. -/
  escape : Option (List Char → Option Char)

/-- Where a lexer is. Texts are read in reverse. -/
inductive Mode
  | code
  | word (text : List Char)
  | dash
  | slash
  | line_comment
  | block_comment
  | block_star
  | string (value : List Char)
  | string_quote (value : List Char)
  | escape (value seen : List Char)
  | quoted (name : List Char)
  | quoted_quote (name : List Char)
deriving DecidableEq, Repr

structure Lexer where
  mode : Mode
  tokens : List Token
deriving DecidableEq, Repr

def is_word (c : Char) : Bool :=
  ('a' ≤ c && c ≤ 'z') || ('A' ≤ c && c ≤ 'Z') || ('0' ≤ c && c ≤ '9') || c == '_' || c == '$' || '\x7f' < c

namespace Lexer

variable (dialect : Dialect)

def new : Lexer := ⟨.code, []⟩

def start (tokens : List Token) (c : Char) : Lexer :=
  if dialect.is_space c then ⟨.code, tokens⟩
  else if c = '\'' then ⟨.string [], tokens⟩
  else if c = '"' then ⟨.quoted [], tokens⟩
  else if c = '-' then ⟨.dash, tokens⟩
  else if c = '/' then ⟨.slash, tokens⟩
  else if is_word c then ⟨.word [c], tokens⟩
  else ⟨.code, tokens ++ [.symbol c]⟩

def step (lexer : Lexer) (c : Char) : Lexer :=
  match lexer.mode with
  | .code => start dialect lexer.tokens c
  | .word text =>
    if is_word c && !dialect.is_space c then { lexer with mode := .word (c :: text) }
    else start dialect (lexer.tokens ++ [.word text.reverse]) c
  | .dash =>
    if c = '-' then { lexer with mode := .line_comment }
    else start dialect (lexer.tokens ++ [.symbol '-']) c
  | .slash =>
    if c = '*' then { lexer with mode := .block_comment }
    else start dialect (lexer.tokens ++ [.symbol '/']) c
  | .line_comment => { lexer with mode := if c = '\n' then .code else .line_comment }
  | .block_comment => { lexer with mode := if c = '*' then .block_star else .block_comment }
  | .block_star =>
    { lexer with mode := if c = '/' then .code else if c = '*' then .block_star else .block_comment }
  | .string value =>
    { lexer with
      mode :=
        if c = '\'' then .string_quote value
        else if c = '\\' ∧ dialect.escape.isSome then .escape value []
        else .string (c :: value) }
  | .string_quote value =>
    if c = '\'' then { lexer with mode := .string ('\'' :: value) }
    else start dialect (lexer.tokens ++ [.string value.reverse]) c
  | .escape value seen =>
    { lexer with
      mode :=
        match dialect.escape.bind fun escape => escape (c :: seen).reverse with
        | some d => .string (d :: value)
        | none => .escape value (c :: seen) }
  | .quoted name =>
    { lexer with mode := if c = '"' then .quoted_quote name else .quoted (c :: name) }
  | .quoted_quote name =>
    if c = '"' then { lexer with mode := .quoted ('"' :: name) }
    else start dialect (lexer.tokens ++ [.quoted name.reverse]) c

/-- The tokens at the end of the text, if no quote or comment is left open. -/
def finish (lexer : Lexer) : Option (List Token) :=
  match lexer.mode with
  | .code | .line_comment => some lexer.tokens
  | .word text => some (lexer.tokens ++ [.word text.reverse])
  | .dash => some (lexer.tokens ++ [.symbol '-'])
  | .slash => some (lexer.tokens ++ [.symbol '/'])
  | .string_quote value => some (lexer.tokens ++ [.string value.reverse])
  | .quoted_quote name => some (lexer.tokens ++ [.quoted name.reverse])
  | .block_comment | .block_star | .string _ | .escape _ _ | .quoted _ => none

/-- The tokens at the end of the text, without what a quote or comment left open holds. -/
def read (lexer : Lexer) : List Token := lexer.finish.getD lexer.tokens

def run (lexer : Lexer) (text : List Char) : Lexer := text.foldl (step dialect) lexer

theorem run_append (lexer : Lexer) (s t : List Char) :
    lexer.run dialect (s ++ t) = (lexer.run dialect s).run dialect t :=
  List.foldl_append

theorem run_cons (lexer : Lexer) (c : Char) (text : List Char) :
    lexer.run dialect (c :: text) = (lexer.step dialect c).run dialect text := rfl

/-- Between two tokens, a text adds some tokens and ends between two tokens. -/
def Lexes (text : List Char) (new : List Token) : Prop :=
  ∀ tokens, run dialect ⟨.code, tokens⟩ text = ⟨.code, tokens ++ new⟩

variable {dialect}

theorem Lexes.append {s t : List Char} {new rest : List Token} (hs : Lexes dialect s new)
    (ht : Lexes dialect t rest) : Lexes dialect (s ++ t) (new ++ rest) := by
  intro tokens
  rw [run_append, hs, ht, List.append_assoc]

theorem read_tokens (lexer : Lexer) :
    lexer.read = lexer.tokens ∨
      ∃ token, lexer.read = lexer.tokens ++ [token] ∧ ∀ c, token = .symbol c → c = '-' ∨ c = '/' := by
  obtain ⟨mode, tokens⟩ := lexer
  cases mode with
  | code => exact .inl rfl
  | line_comment => exact .inl rfl
  | block_comment => exact .inl rfl
  | block_star => exact .inl rfl
  | string value => exact .inl rfl
  | escape value text => exact .inl rfl
  | quoted name => exact .inl rfl
  | word text => exact .inr ⟨_, rfl, fun c h => by cases h⟩
  | string_quote value => exact .inr ⟨_, rfl, fun c h => by cases h⟩
  | quoted_quote name => exact .inr ⟨_, rfl, fun c h => by cases h⟩
  | dash => exact .inr ⟨.symbol '-', rfl, fun c h => .inl (by cases h; rfl)⟩
  | slash => exact .inr ⟨.symbol '/', rfl, fun c h => .inr (by cases h; rfl)⟩

theorem start_tokens (tokens : List Token) (c : Char) : ∃ more, (start dialect tokens c).tokens = tokens ++ more := by
  unfold start
  repeat' split
  all_goals first
    | exact ⟨[], (List.append_nil tokens).symm⟩
    | exact ⟨_, rfl⟩

theorem step_tokens (lexer : Lexer) (c : Char) : ∃ more, (lexer.step dialect c).tokens = lexer.tokens ++ more := by
  have hstart (new : List Token) : ∃ more, (start dialect (lexer.tokens ++ new) c).tokens = lexer.tokens ++ more := by
    obtain ⟨more, hmore⟩ := start_tokens (lexer.tokens ++ new) c
    exact ⟨new ++ more, by rw [hmore, List.append_assoc]⟩
  have hsame : ∃ more, lexer.tokens = lexer.tokens ++ more := ⟨[], (List.append_nil _).symm⟩
  unfold step
  cases lexer.mode with
  | code => simpa using hstart []
  | word text =>
    dsimp only
    split
    · exact hsame
    · exact hstart _
  | dash =>
    dsimp only
    split
    · exact hsame
    · exact hstart _
  | slash =>
    dsimp only
    split
    · exact hsame
    · exact hstart _
  | string_quote value =>
    dsimp only
    split
    · exact hsame
    · exact hstart _
  | quoted_quote name =>
    dsimp only
    split
    · exact hsame
    · exact hstart _
  | line_comment => exact hsame
  | block_comment => exact hsame
  | block_star => exact hsame
  | string value => exact hsame
  | escape value text => exact hsame
  | quoted name => exact hsame

theorem run_tokens (lexer : Lexer) (text : List Char) :
    ∃ more, (lexer.run dialect text).tokens = lexer.tokens ++ more := by
  induction text generalizing lexer with
  | nil => exact ⟨[], (List.append_nil _).symm⟩
  | cons c text ih =>
    obtain ⟨first, hfirst⟩ := step_tokens lexer c
    obtain ⟨more, hmore⟩ := ih (lexer.step dialect c)
    exact ⟨first ++ more, by rw [run_cons, hmore, hfirst, List.append_assoc]⟩

theorem run_read (lexer : Lexer) (text : List Char) :
    ∃ more, (lexer.run dialect text).read = lexer.tokens ++ more := by
  obtain ⟨more, hmore⟩ := run_tokens lexer text
  rcases read_tokens (lexer.run dialect text) with hread | ⟨token, hread, -⟩
  · exact ⟨more, hread.trans hmore⟩
  · exact ⟨more ++ [token], by rw [hread, hmore, List.append_assoc]⟩

/-- A nonempty text that lexes as one word. -/
def IsWord (dialect : Dialect) (word : List Char) : Prop :=
  word ≠ [] ∧ (word.all fun c => is_word c && !dialect.is_space c) = true

theorem start_word {c : Char} (hword : (is_word c && !dialect.is_space c) = true) (tokens : List Token) :
    start dialect tokens c = ⟨.word [c], tokens⟩ := by
  obtain ⟨hword, hspace⟩ := Bool.and_eq_true_iff.mp hword
  have hne (d : Char) (hd : is_word d = false) : c ≠ d := by
    rintro rfl
    rw [hd] at hword
    cases hword
  have hspace : ¬ dialect.is_space c = true := by simpa using hspace
  rw [start, if_neg hspace, if_neg (hne _ rfl), if_neg (hne _ rfl), if_neg (hne _ rfl), if_neg (hne _ rfl),
    if_pos hword]

theorem run_word {word : List Char} (hword : (word.all fun c => is_word c && !dialect.is_space c) = true)
    (seen : List Char) (tokens : List Token) :
    run dialect ⟨.word seen, tokens⟩ word = ⟨.word (word.reverse ++ seen), tokens⟩ := by
  induction word generalizing seen with
  | nil => rfl
  | cons c word ih =>
    obtain ⟨hc, hword⟩ := Bool.and_eq_true_iff.mp (List.all_cons ▸ hword)
    have hstep : step dialect ⟨.word seen, tokens⟩ c = ⟨.word (c :: seen), tokens⟩ := by
      simp only [step, hc, if_true]
    rw [run_cons, hstep, ih hword, List.reverse_cons, List.append_assoc]
    rfl

theorem run_isWord {word : List Char} (hword : IsWord dialect word) (tokens : List Token) :
    run dialect ⟨.code, tokens⟩ word = ⟨.word word.reverse, tokens⟩ := by
  obtain ⟨hne, hall⟩ := hword
  cases word with
  | nil => exact absurd rfl hne
  | cons c word =>
    obtain ⟨hc, hall⟩ := Bool.and_eq_true_iff.mp (List.all_cons ▸ hall)
    have hstep : step dialect ⟨.code, tokens⟩ c = ⟨.word [c], tokens⟩ := start_word hc tokens
    rw [run_cons, hstep, run_word hall, List.reverse_cons]

end Lexer

def lex (dialect : Dialect) (text : List Char) : Option (List Token) :=
  (Lexer.new.run dialect text).finish

end zed.sql
