import Zed.Sql.Lexer

namespace zed.sql

/-- A name between quotes, each of its own doubled. -/
def double (quote : Char) (name : List Char) : List Char :=
  name.flatMap fun c => if c = quote then [quote, quote] else [c]

theorem double_cons (quote c : Char) (name : List Char) :
    double quote (c :: name) = (if c = quote then [quote, quote] else [c]) ++ double quote name := rfl

theorem double_append (quote : Char) (s t : List Char) :
    double quote (s ++ t) = double quote s ++ double quote t :=
  List.flatMap_append

theorem length_double_reverse (quote : Char) (name : List Char) :
    (double quote name.reverse).length = (double quote name).length := by
  induction name with
  | nil => rfl
  | cons c name ih =>
    rw [List.reverse_cons, double_append, List.length_append, ih, double_cons, List.length_append,
      double_cons, Nat.add_comm]
    simp [double]

namespace Lexer

variable {dialect : Dialect}

theorem run_string {name : List Char} (h : dialect.escape = none ∨ '\\' ∉ name) (value : List Char)
    (tokens : List Token) :
    run dialect ⟨.string value, tokens⟩ (double '\'' name) = ⟨.string (name.reverse ++ value), tokens⟩ := by
  induction name generalizing value with
  | nil => rfl
  | cons c name ih =>
    have hrest : dialect.escape = none ∨ '\\' ∉ name :=
      h.imp_right fun hmem hname => hmem (List.mem_cons_of_mem _ hname)
    have hchar : run dialect ⟨.string value, tokens⟩ (if c = '\'' then ['\'', '\''] else [c]) =
        ⟨.string (c :: value), tokens⟩ := by
      by_cases hquote : c = '\''
      · subst hquote
        rfl
      · have hescape : ¬ (c = '\\' ∧ dialect.escape.isSome = true) := by
          rintro ⟨rfl, hsome⟩
          obtain hnone | hmem := h
          · rw [hnone] at hsome
            cases hsome
          · exact hmem List.mem_cons_self
        rw [if_neg hquote]
        simp only [run, List.foldl_cons, List.foldl_nil, step, if_neg hquote, if_neg hescape]
    rw [double_cons, run_append, hchar, ih hrest, List.reverse_cons, List.append_assoc]
    rfl

theorem run_quoted (name value : List Char) (tokens : List Token) :
    run dialect ⟨.quoted value, tokens⟩ (double '"' name) = ⟨.quoted (name.reverse ++ value), tokens⟩ := by
  induction name generalizing value with
  | nil => rfl
  | cons c name ih =>
    have hchar : run dialect ⟨.quoted value, tokens⟩ (if c = '"' then ['"', '"'] else [c]) =
        ⟨.quoted (c :: value), tokens⟩ := by
      by_cases hquote : c = '"'
      · subst hquote
        rfl
      · rw [if_neg hquote]
        simp only [run, List.foldl_cons, List.foldl_nil, step, if_neg hquote]
    rw [double_cons, run_append, hchar, ih, List.reverse_cons, List.append_assoc]
    rfl

end Lexer

/-- The least number of characters a token takes. -/
def Token.cost : Token → Nat
  | .word text => text.length
  | .quoted _ => 0
  | .string value => (double '\'' value).length + 2
  | .symbol _ => 1

def cost (tokens : List Token) : Nat := (tokens.map Token.cost).sum

/-- The characters a token that is not finished has taken at least. -/
def Mode.credit : Mode → Nat
  | .word text => text.length
  | .dash | .slash => 1
  | .string value => (double '\'' value).length + 1
  | .string_quote value => (double '\'' value).length + 2
  | .escape value seen => (double '\'' value).length + 2 + seen.length
  | _ => 0

theorem length_double_cons_le (quote c : Char) (name : List Char) :
    (double quote (c :: name)).length ≤ (double quote name).length + 2 := by
  rw [double_cons, List.length_append]
  split <;> simp <;> omega

namespace Lexer

variable {dialect : Dialect}

/-- What a lexer makes of some text: the tokens it adds, at no more than the text's length. -/
def Adds (before after : Lexer) (length : Nat) : Prop :=
  ∃ new, after.tokens = before.tokens ++ new ∧
    cost new + after.mode.credit ≤ before.mode.credit + length

theorem start_adds (dialect : Dialect) (tokens : List Token) (c : Char) :
    ∃ new, (start dialect tokens c).tokens = tokens ++ new ∧
      cost new + (start dialect tokens c).mode.credit ≤ 1 := by
  unfold start
  split_ifs
  · exact ⟨[], by simp, by simp [cost, Mode.credit]⟩
  · exact ⟨[], by simp, by simp [cost, Mode.credit, double]⟩
  · exact ⟨[], by simp, by simp [cost, Mode.credit]⟩
  · exact ⟨[], by simp, by simp [cost, Mode.credit]⟩
  · exact ⟨[], by simp, by simp [cost, Mode.credit]⟩
  · exact ⟨[], by simp, by simp [cost, Mode.credit]⟩
  · exact ⟨[.symbol c], rfl, by simp [cost, Mode.credit, Token.cost]⟩

theorem emit_adds {before : Lexer} {token : Token} (hcost : token.cost ≤ before.mode.credit) (c : Char) :
    Adds before (start dialect (before.tokens ++ [token]) c) 1 := by
  obtain ⟨new, hnew, hle⟩ := start_adds dialect (before.tokens ++ [token]) c
  refine ⟨token :: new, by rw [hnew, List.append_assoc]; rfl, ?_⟩
  have hcons : cost (token :: new) = token.cost + cost new := rfl
  omega

theorem mode_adds {before : Lexer} {mode : Mode} (h : mode.credit ≤ before.mode.credit + 1) :
    Adds before { before with mode := mode } 1 :=
  ⟨[], by simp, by simpa [cost] using h⟩

theorem step_adds (dialect : Dialect) (before : Lexer) (c : Char) : Adds before (before.step dialect c) 1 := by
  obtain ⟨mode, tokens⟩ := before
  cases mode with
  | code =>
    obtain ⟨new, hnew, hle⟩ := start_adds dialect tokens c
    exact ⟨new, hnew, by simpa [step, Mode.credit] using hle⟩
  | word text =>
    unfold step
    dsimp only
    split_ifs
    · exact mode_adds (by simp [Mode.credit])
    · exact emit_adds (by simp [Token.cost, Mode.credit]) c
  | dash =>
    unfold step
    dsimp only
    split_ifs
    · exact mode_adds (by simp [Mode.credit])
    · exact emit_adds (by simp [Token.cost, Mode.credit]) c
  | slash =>
    unfold step
    dsimp only
    split_ifs
    · exact mode_adds (by simp [Mode.credit])
    · exact emit_adds (by simp [Token.cost, Mode.credit]) c
  | line_comment => exact mode_adds (by split_ifs <;> simp [Mode.credit])
  | block_comment => exact mode_adds (by split_ifs <;> simp [Mode.credit])
  | block_star => exact mode_adds (by split_ifs <;> simp [Mode.credit])
  | string value =>
    refine mode_adds ?_
    split_ifs with hquote hescape
    · simp [Mode.credit]
    · simp [Mode.credit]
    · simp [Mode.credit, double_cons, hquote]
  | string_quote value =>
    unfold step
    dsimp only
    split_ifs
    · exact mode_adds (by simp [Mode.credit, double_cons])
    · exact emit_adds (by simp [Token.cost, Mode.credit, length_double_reverse]) c
  | escape value seen =>
    refine mode_adds ?_
    split
    · next d _ =>
      have hle := length_double_cons_le '\'' d value
      simp only [Mode.credit]
      omega
    · simp [Mode.credit]
      omega
  | quoted name => exact mode_adds (by split_ifs <;> simp [Mode.credit])
  | quoted_quote name =>
    unfold step
    dsimp only
    split_ifs
    · exact mode_adds (by simp [Mode.credit])
    · exact emit_adds (by simp [Token.cost, Mode.credit]) c

theorem run_adds (dialect : Dialect) (before : Lexer) (text : List Char) :
    Adds before (before.run dialect text) text.length := by
  induction text generalizing before with
  | nil => exact ⟨[], by simp [run], by simp [cost, run]⟩
  | cons c text ih =>
    obtain ⟨new, hnew, hle⟩ := step_adds dialect before c
    obtain ⟨more, hmore, hmoreLe⟩ := ih (before.step dialect c)
    refine ⟨new ++ more, ?_, ?_⟩
    · rw [run_cons, hmore, hnew, List.append_assoc]
    · have hsum : cost (new ++ more) = cost new + cost more := by simp [cost]
      rw [run_cons, List.length_cons]
      omega

theorem finish_cost {before : Lexer} {text : List Char} {tokens : List Token}
    (h : (before.run dialect text).finish = some tokens) :
    ∃ new, tokens = before.tokens ++ new ∧ cost new ≤ before.mode.credit + text.length := by
  obtain ⟨new, hnew, hle⟩ := run_adds dialect before text
  generalize before.run dialect text = after at h hnew hle
  obtain ⟨mode, found⟩ := after
  have hemit (token : Token) (hcost : token.cost ≤ mode.credit) (htokens : found ++ [token] = tokens) :
      ∃ new, tokens = before.tokens ++ new ∧ cost new ≤ before.mode.credit + text.length := by
    have hsum : cost (new ++ [token]) = cost new + token.cost := by simp [cost]
    dsimp only at hnew hle
    refine ⟨new ++ [token], by rw [← htokens, hnew, List.append_assoc], ?_⟩
    omega
  have hnone (htokens : found = tokens) :
      ∃ new, tokens = before.tokens ++ new ∧ cost new ≤ before.mode.credit + text.length := by
    dsimp only at hnew hle
    exact ⟨new, by rw [← htokens, hnew], by omega⟩
  cases mode with
  | code => exact hnone (Option.some.inj h)
  | line_comment => exact hnone (Option.some.inj h)
  | word text => exact hemit _ (by simp [Token.cost, Mode.credit]) (Option.some.inj h)
  | dash => exact hemit _ (by simp [Token.cost, Mode.credit]) (Option.some.inj h)
  | slash => exact hemit _ (by simp [Token.cost, Mode.credit]) (Option.some.inj h)
  | string_quote value =>
    exact hemit _ (by simp [Token.cost, Mode.credit, length_double_reverse]) (Option.some.inj h)
  | quoted_quote name => exact hemit _ (by simp [Token.cost, Mode.credit]) (Option.some.inj h)
  | block_comment => cases h
  | block_star => cases h
  | string value => cases h
  | escape value seen => cases h
  | quoted name => cases h

/-- A string that was closed is the next token, and no text lexes beyond its cost. -/
theorem finish_string_quote {value text : List Char} {tokens result : List Token}
    (hhead : text.head? ≠ some '\'')
    (h : (run dialect ⟨.string_quote value, tokens⟩ text).finish = some result) :
    ∃ new, result = tokens ++ .string value.reverse :: new ∧ cost new ≤ text.length := by
  cases text with
  | nil => exact ⟨[], (Option.some.inj h).symm, by simp [cost]⟩
  | cons c text =>
    have hc : c ≠ '\'' := fun hc => hhead (by rw [hc]; rfl)
    have hstep : step dialect ⟨.string_quote value, tokens⟩ c =
        start dialect (tokens ++ [.string value.reverse]) c := if_neg hc
    rw [run_cons, hstep] at h
    obtain ⟨first, hfirst, hfirstLe⟩ := start_adds dialect (tokens ++ [.string value.reverse]) c
    obtain ⟨new, hnew, hle⟩ := finish_cost h
    refine ⟨first ++ new, ?_, ?_⟩
    · rw [hnew, hfirst, List.append_assoc, List.append_assoc]
      rfl
    · have hsum : cost (first ++ new) = cost first + cost new := by simp [cost]
      rw [List.length_cons]
      omega

/-- The string under way is closed by the quote after `inside`, from which it has read `name`. -/
structure Closes (dialect : Dialect) (mode : Mode) (tokens : List Token)
    (value text name inside after : List Char) : Prop where
  split : text = inside ++ '\'' :: after
  reads : run dialect ⟨mode, tokens⟩ (inside ++ ['\'']) = ⟨.string_quote (name.reverse ++ value), tokens⟩
  ends : after.head? ≠ some '\''

variable {tokens : List Token} {value seen text name inside after : List Char} {c d : Char}

theorem Closes.char (hstep : run dialect ⟨.string value, tokens⟩ (if c = '\'' then ['\'', '\''] else [c]) =
      ⟨.string (c :: value), tokens⟩)
    (h : Closes dialect (.string (c :: value)) tokens (c :: value) text name inside after) :
    Closes dialect (.string value) tokens value ((if c = '\'' then ['\'', '\''] else [c]) ++ text)
      (c :: name) ((if c = '\'' then ['\'', '\''] else [c]) ++ inside) after where
  split := by rw [h.split, List.append_assoc]
  reads := by
    rw [List.append_assoc, run_append, hstep, h.reads, List.reverse_cons, List.append_assoc]
    rfl
  ends := h.ends

theorem Closes.step {mode : Mode} (hstep : step dialect ⟨mode, tokens⟩ c = ⟨.string (d :: value), tokens⟩)
    (h : Closes dialect (.string (d :: value)) tokens (d :: value) text name inside after) :
    Closes dialect mode tokens value (c :: text) (d :: name) (c :: inside) after where
  split := by rw [h.split]; rfl
  reads := by
    rw [List.cons_append, run_cons, hstep, h.reads, List.reverse_cons, List.append_assoc]
    rfl
  ends := h.ends

theorem Closes.escape {mode : Mode} (hstep : Lexer.step dialect ⟨mode, tokens⟩ c = ⟨.escape value seen, tokens⟩)
    (h : Closes dialect (.escape value seen) tokens value text name inside after) :
    Closes dialect mode tokens value (c :: text) name (c :: inside) after where
  split := by rw [h.split]; rfl
  reads := by rw [List.cons_append, run_cons, hstep, h.reads]
  ends := h.ends

theorem Closes.here (h : text.head? ≠ some '\'') :
    Closes dialect (.string value) tokens value ('\'' :: text) [] [] text where
  split := rfl
  reads := rfl
  ends := h

theorem string_step_plain (hquote : c ≠ '\'') (hescape : ¬ (c = '\\' ∧ dialect.escape.isSome = true)) :
    step dialect ⟨.string value, tokens⟩ c = ⟨.string (c :: value), tokens⟩ := by
  simp only [step, if_neg hquote, if_neg hescape]

theorem string_step_escape (hescape : dialect.escape.isSome = true) :
    step dialect ⟨.string value, tokens⟩ '\\' = ⟨.escape value [], tokens⟩ := by
  have hquote : ¬ '\\' = '\'' := by decide
  simp only [step, if_neg hquote, hescape, and_self, if_true]

theorem double_of_ne (hquote : c ≠ '\'') (name : List Char) :
    (double '\'' (c :: name)).length = (double '\'' name).length + 1 := by
  rw [double_cons, if_neg hquote, List.length_append, List.length_singleton, Nat.add_comm]

theorem double_quote (name : List Char) :
    (double '\'' ('\'' :: name)).length = (double '\'' name).length + 2 := by
  rw [double_cons, if_pos rfl, List.length_append, Nat.add_comm]
  rfl

/-- A string that is closed takes at least its doubled value, and one that begins with an
    escape takes more than what follows the escape. -/
theorem closes_of_finish (n : Nat) : ∀ text : List Char, text.length ≤ n →
    (∀ value, (run dialect ⟨.string value, tokens⟩ text).finish ≠ none →
      ∃ name inside after, Closes dialect (.string value) tokens value text name inside after ∧
        (double '\'' name).length ≤ inside.length) ∧
    (∀ value seen, (run dialect ⟨.escape value seen, tokens⟩ text).finish ≠ none →
      ∃ d name inside after, Closes dialect (.escape value seen) tokens value text (d :: name) inside after ∧
        (double '\'' name).length + 1 ≤ inside.length) := by
  induction n with
  | zero =>
    intro text hlength
    rw [List.length_eq_zero_iff.mp (Nat.le_zero.mp hlength)]
    exact ⟨fun value h => absurd rfl h, fun value seen h => absurd rfl h⟩
  | succ n ih =>
    intro text hlength
    cases text with
    | nil => exact ⟨fun value h => absurd rfl h, fun value seen h => absurd rfl h⟩
    | cons c text =>
      rw [List.length_cons] at hlength
      constructor
      · intro value h
        by_cases hquote : c = '\''
        · subst hquote
          cases text with
          | nil => exact ⟨[], [], [], Closes.here (by simp), Nat.le_refl _⟩
          | cons e text =>
            by_cases he : e = '\''
            · subst he
              rw [List.length_cons] at hlength
              obtain ⟨name, inside, after, hcloses, hle⟩ := (ih text (by omega)).1 ('\'' :: value) h
              have hdouble := hcloses.char (c := '\'') rfl
              rw [if_pos rfl] at hdouble
              refine ⟨_, _, _, hdouble, ?_⟩
              rw [double_quote]
              simp only [List.cons_append, List.nil_append, List.length_cons]
              omega
            · refine ⟨[], [], e :: text, Closes.here ?_, Nat.le_refl _⟩
              simpa using he
        · by_cases hescape : c = '\\' ∧ dialect.escape.isSome = true
          · obtain ⟨rfl, hescape⟩ := hescape
            rw [run_cons, string_step_escape hescape] at h
            obtain ⟨d, name, inside, after, hcloses, hle⟩ := (ih text (by omega)).2 value [] h
            refine ⟨_, _, _, hcloses.escape (string_step_escape hescape), ?_⟩
            have hdouble := length_double_cons_le '\'' d name
            rw [List.length_cons]
            omega
          · have hstep : Lexer.step dialect ⟨.string value, tokens⟩ c = ⟨.string (c :: value), tokens⟩ :=
              string_step_plain hquote hescape
            rw [run_cons, hstep] at h
            obtain ⟨name, inside, after, hcloses, hle⟩ := (ih text (by omega)).1 (c :: value) h
            refine ⟨_, _, _, hcloses.step hstep, ?_⟩
            rw [double_of_ne hquote, List.length_cons]
            omega
      · intro value seen h
        cases hdecode : dialect.escape.bind fun escape => escape (c :: seen).reverse with
        | some d =>
          have hstep : step dialect ⟨.escape value seen, tokens⟩ c = ⟨.string (d :: value), tokens⟩ := by
            simp only [Lexer.step, hdecode]
          rw [run_cons, hstep] at h
          obtain ⟨name, inside, after, hcloses, hle⟩ := (ih text (by omega)).1 (d :: value) h
          refine ⟨d, name, _, _, hcloses.step hstep, ?_⟩
          rw [List.length_cons]
          omega
        | none =>
          have hstep : step dialect ⟨.escape value seen, tokens⟩ c = ⟨.escape value (c :: seen), tokens⟩ := by
            simp only [Lexer.step, hdecode]
          rw [run_cons, hstep] at h
          obtain ⟨d, name, inside, after, hcloses, hle⟩ := (ih text (by omega)).2 value (c :: seen) h
          refine ⟨d, name, _, _, hcloses.escape hstep, ?_⟩
          rw [List.length_cons]
          omega

/-- What a string was read from: its doubled value, or that up to a first escape. -/
def ReadFrom (dialect : Dialect) (name inside : List Char) : Prop :=
  (inside = double '\'' name ∧ (dialect.escape = none ∨ '\\' ∉ name)) ∨
    ∃ before d rest tail, name = before ++ d :: rest ∧ inside = double '\'' before ++ '\\' :: tail ∧
      (double '\'' rest).length + 1 ≤ tail.length

theorem ReadFrom.char (hchar : dialect.escape = none ∨ c ≠ '\\') (h : ReadFrom dialect name inside) :
    ReadFrom dialect (c :: name) ((if c = '\'' then ['\'', '\''] else [c]) ++ inside) := by
  obtain ⟨rfl, hplain⟩ | ⟨before, d, rest, tail, rfl, rfl, hlength⟩ := h
  · refine Or.inl ⟨rfl, ?_⟩
    obtain hnone | hc := hchar
    · exact Or.inl hnone
    · exact hplain.imp_right fun hname hmem => (List.mem_cons.mp hmem).elim (fun h => hc h.symm) hname
  · exact Or.inr ⟨c :: before, d, rest, tail, rfl, by rw [double_cons, List.append_assoc], hlength⟩

theorem readFrom_of_finish (n : Nat) : ∀ text : List Char, text.length ≤ n →
    ∀ value, (run dialect ⟨.string value, tokens⟩ text).finish ≠ none →
      ∃ name inside after, Closes dialect (.string value) tokens value text name inside after ∧
        ReadFrom dialect name inside := by
  induction n with
  | zero =>
    intro text hlength value h
    rw [List.length_eq_zero_iff.mp (Nat.le_zero.mp hlength)] at h
    exact absurd rfl h
  | succ n ih =>
    intro text hlength value h
    cases text with
    | nil => exact absurd rfl h
    | cons c text =>
      rw [List.length_cons] at hlength
      by_cases hquote : c = '\''
      · subst hquote
        have hempty : ReadFrom dialect [] [] := Or.inl ⟨rfl, Or.inr List.not_mem_nil⟩
        cases text with
        | nil => exact ⟨[], [], [], Closes.here (by simp), hempty⟩
        | cons e text =>
          by_cases he : e = '\''
          · subst he
            rw [List.length_cons] at hlength
            obtain ⟨name, inside, after, hcloses, hread⟩ := ih text (by omega) ('\'' :: value) h
            have hdouble := hcloses.char (c := '\'') rfl
            have hchar := hread.char (c := '\'') (Or.inr (by decide))
            rw [if_pos rfl] at hdouble hchar
            exact ⟨_, _, _, hdouble, hchar⟩
          · refine ⟨[], [], e :: text, Closes.here ?_, hempty⟩
            simpa using he
      · by_cases hescape : c = '\\' ∧ dialect.escape.isSome = true
        · obtain ⟨rfl, hescape⟩ := hescape
          rw [run_cons, string_step_escape hescape] at h
          obtain ⟨d, name, inside, after, hcloses, hle⟩ :=
            (closes_of_finish n text (by omega)).2 value [] h
          exact ⟨_, _, _, hcloses.escape (string_step_escape hescape),
            Or.inr ⟨[], d, name, inside, rfl, rfl, hle⟩⟩
        · have hstep : Lexer.step dialect ⟨.string value, tokens⟩ c = ⟨.string (c :: value), tokens⟩ :=
            string_step_plain hquote hescape
          have hchar : dialect.escape = none ∨ c ≠ '\\' := by
            by_cases hc : c = '\\'
            · exact Or.inl (by simpa [hc] using hescape)
            · exact Or.inr hc
          rw [run_cons, hstep] at h
          obtain ⟨name, inside, after, hcloses, hread⟩ := ih text (by omega) (c :: value) h
          have hread := hread.char hchar
          rw [if_neg hquote] at hread
          exact ⟨_, _, _, hcloses.step hstep, hread⟩

/-- A doubled name that lexes to itself has no backslash that escapes, or else its string
    goes on past the quote that should close it, to a later one. -/
theorem closes_late {new : List Token}
    (h : (run dialect ⟨.string [], tokens⟩ (double '\'' name ++ '\'' :: after)).finish =
      some (tokens ++ .string name :: new)) :
    (dialect.escape = none ∨ '\\' ∉ name) ∨
      ∃ skipped rest, after = skipped ++ '\'' :: rest ∧ cost new ≤ rest.length := by
  obtain ⟨read, inside, rest, hcloses, hread⟩ :=
    readFrom_of_finish _ _ (Nat.le_refl _) [] (h ▸ Option.some_ne_none _)
  have hsplit := hcloses.split
  have hreads := hcloses.reads
  rw [List.append_nil] at hreads
  have hrest : (run dialect ⟨.string_quote read.reverse, tokens⟩ rest).finish =
      some (tokens ++ .string name :: new) := by
    rw [← h, hsplit, ← hreads, ← run_append, List.append_assoc]
    rfl
  obtain ⟨found, hfound, hcost⟩ := finish_string_quote hcloses.ends hrest
  rw [List.reverse_reverse] at hfound
  obtain ⟨hname, rfl⟩ := List.cons.inj (List.append_cancel_left hfound)
  obtain rfl := Token.string.inj hname
  obtain ⟨-, hplain⟩ | ⟨before, d, last, tail, rfl, rfl, hlength⟩ := hread
  · exact Or.inl hplain
  · right
    rw [double_append, List.append_assoc, List.append_assoc, List.append_cancel_left_eq, double_cons] at hsplit
    have hd : d ≠ '\'' := by
      rintro rfl
      rw [if_pos rfl] at hsplit
      exact absurd (List.cons.inj hsplit).1 (by decide)
    rw [if_neg hd] at hsplit
    have htail : double '\'' last ++ '\'' :: after = tail ++ '\'' :: rest := (List.cons.inj hsplit).2
    obtain ⟨u, rfl, hu⟩ | ⟨u, hlast, hu⟩ := List.append_eq_append_iff.mp htail
    · cases u with
      | nil =>
        rw [List.append_nil] at hlength
        omega
      | cons e u =>
        obtain ⟨-, rfl⟩ := List.cons.inj hu
        exact ⟨u, rest, rfl, hcost⟩
    · rw [hlast, List.length_append] at hlength
      omega

end Lexer

open Lexer in
/-- A query around two doubled names lexes to itself with the names as its literals exactly
    when the dialect has no backslash escapes or the names have no backslashes. -/
theorem lex_literals_iff {dialect : Dialect} (first second : List Char) {head middle tail : List Char}
    {before between after : List Token}
    (hhead : Lexer.new.run dialect head = ⟨.string [], before⟩)
    (hmiddle : ∀ value tokens, run dialect ⟨.string value, tokens⟩ ('\'' :: middle ++ ['\'']) =
      ⟨.string [], tokens ++ .string value.reverse :: between⟩)
    (htail : ∀ value tokens, (run dialect ⟨.string value, tokens⟩ ('\'' :: tail)).finish =
      some (tokens ++ .string value.reverse :: after))
    (hmiddleQuote : '\'' ∉ middle) (htailQuote : '\'' ∉ tail)
    (hshort : tail.length ≤ cost between + cost after) :
    lex dialect (head ++ (double '\'' first ++ ('\'' :: middle ++ ['\''] ++
        (double '\'' second ++ '\'' :: tail)))) =
      some (before ++ .string first :: (between ++ .string second :: after)) ↔
      dialect.escape = none ∨ '\\' ∉ first ∧ '\\' ∉ second := by
  have hrun (text : List Char) : lex dialect (head ++ text) = (run dialect ⟨.string [], before⟩ text).finish := by
    rw [lex, run_append, hhead]
  have hfirst (hplain : dialect.escape = none ∨ '\\' ∉ first) :
      lex dialect (head ++ (double '\'' first ++ ('\'' :: middle ++ ['\''] ++
        (double '\'' second ++ '\'' :: tail)))) =
      (run dialect ⟨.string [], before ++ .string first :: between⟩ (double '\'' second ++ '\'' :: tail)).finish := by
    rw [hrun, run_append, run_string hplain, run_append, hmiddle, List.append_nil, List.reverse_reverse]
  constructor
  · intro h
    have hplain : dialect.escape = none ∨ '\\' ∉ first := by
      have hlex := h
      rw [hrun, List.cons_append, List.cons_append] at hlex
      obtain hplain | ⟨skipped, rest, hskipped, hcost⟩ := closes_late hlex
      · exact hplain
      · rw [List.append_assoc, List.singleton_append] at hskipped
        exfalso
        have hsum : cost (between ++ .string second :: after) =
            cost between + ((double '\'' second).length + 2 + cost after) := by
          simp [cost, Token.cost]
        have hlate : middle.length ≤ skipped.length := by
          obtain ⟨u, hu, -⟩ | ⟨u, hu, hrest⟩ := List.append_eq_append_iff.mp hskipped
          · rw [hu, List.length_append]
            omega
          · cases u with
            | nil =>
              rw [List.append_nil] at hu
              exact Nat.le_of_eq (congrArg List.length hu)
            | cons c u =>
              rw [(List.cons.inj hrest).1.symm] at hu
              exact absurd (hu ▸ List.mem_append_right _ List.mem_cons_self) hmiddleQuote
        have hlength := congrArg List.length hskipped
        simp only [List.length_append, List.length_cons] at hlength
        omega
    rw [hfirst hplain, ← List.cons_append, ← List.append_assoc] at h
    obtain hplainSecond | ⟨skipped, rest, hskipped, -⟩ := closes_late h
    · obtain hnone | hfirstPlain := hplain
      · exact Or.inl hnone
      · exact hplainSecond.imp_right fun hsecond => ⟨hfirstPlain, hsecond⟩
    · exact absurd (hskipped ▸ List.mem_append_right _ List.mem_cons_self) htailQuote
  · intro h
    rw [hfirst (h.imp_right And.left), run_append, run_string (h.imp_right And.right), htail,
      List.append_nil, List.reverse_reverse, List.append_assoc]
    rfl

end zed.sql
