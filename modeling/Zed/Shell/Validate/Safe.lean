import Zed.Shell.Validate
import Zed.Shell.Outline

open zed.brush

namespace zed.shell_command

open TerminalProgramValidation

mutual

/-- Whether a piece is, or quotes, an expansion. -/
def piece_expands : WordPiece → Bool
  | .Text _ => false
  | .SingleQuotedText _ => false
  | .AnsiCQuotedText _ => false
  | .EscapeSequence _ => false
  | .TildePrefix _ => false
  | .DoubleQuotedSequence pieces => pieces_expand pieces
  | .GettextDoubleQuotedSequence pieces => pieces_expand pieces
  | .ParameterExpansion _ => true
  | .ArithmeticExpression _ => true
  | .CommandSubstitution _ => true
  | .BackquotedCommandSubstitution _ => true

def pieces_expand : List WordPieceWithSource → Bool
  | [] => false
  | .mk piece _ _ :: rest => piece_expands piece || pieces_expand rest

end

/-- Whether a word has a command, parameter or arithmetic expansion. -/
def expands : Word → Bool
  | .mk _ none => false
  | .mk _ (some pieces) => pieces_expand pieces

mutual

theorem piece_expands_of_safe : ∀ piece, word_piece_validation piece = Safe → piece_expands piece = false
  | .Text _, _ => rfl
  | .SingleQuotedText _, _ => rfl
  | .AnsiCQuotedText _, _ => rfl
  | .EscapeSequence _, _ => rfl
  | .TildePrefix _, _ => rfl
  | .DoubleQuotedSequence pieces, h => pieces_expand_of_safe pieces h
  | .GettextDoubleQuotedSequence pieces, h => pieces_expand_of_safe pieces h
  | .ParameterExpansion _, h => by cases h
  | .ArithmeticExpression _, h => by cases h
  | .CommandSubstitution (.mk _ program), h => by cases program <;> cases h
  | .BackquotedCommandSubstitution (.mk _ program), h => by cases program <;> cases h

theorem pieces_expand_of_safe : ∀ pieces, pieces_validation pieces = Safe → pieces_expand pieces = false
  | [], _ => rfl
  | .mk piece _ _ :: rest, h => by
    obtain ⟨hpiece, hrest⟩ := and_eq_safe.mp h
    rw [pieces_expand, piece_expands_of_safe piece hpiece, pieces_expand_of_safe rest hrest]
    rfl

end

mutual

theorem word_piece_outline_eq_nil : ∀ piece, piece_expands piece = false → word_piece_outline piece = []
  | .Text _, _ => rfl
  | .SingleQuotedText _, _ => rfl
  | .AnsiCQuotedText _, _ => rfl
  | .EscapeSequence _, _ => rfl
  | .TildePrefix _, _ => rfl
  | .DoubleQuotedSequence pieces, h => pieces_outline_eq_nil pieces h
  | .GettextDoubleQuotedSequence pieces, h => pieces_outline_eq_nil pieces h
  | .ParameterExpansion _, h => by cases h
  | .ArithmeticExpression _, h => by cases h
  | .CommandSubstitution _, h => by cases h
  | .BackquotedCommandSubstitution _, h => by cases h

/-- Pieces without expansions have nothing inside. -/
theorem pieces_outline_eq_nil : ∀ pieces, pieces_expand pieces = false → pieces_outline pieces = []
  | [], _ => rfl
  | .mk piece _ _ :: rest, h => by
    rw [pieces_expand, Bool.or_eq_false_iff] at h
    rw [pieces_outline, word_piece_outline_eq_nil piece h.1, pieces_outline_eq_nil rest h.2]
    rfl

end

/-- What the validation makes sure of. It does not look at the targets of
    duplications, nor at a subscript apart from its assignment. Nothing is inside a
    word without expansions. -/
def Site.Harmless : Site → Prop
  | .command _ => True
  | .redirect _ => True
  | .process_substitution => False
  | .word place expanded inside =>
    (place ≠ .duplication_target → place ≠ .assignment_subscript → expands expanded = false) ∧
      (expands expanded = false → inside = [])

def Harmless (sites : List Site) : Prop := ∀ site ∈ sites, site.Harmless

theorem Harmless.nil : Harmless [] := fun _ h => absurd h List.not_mem_nil

theorem Harmless.append {sites others : List Site} (h : Harmless sites) (hothers : Harmless others) :
    Harmless (sites ++ others) := fun site hsite => (List.mem_append.mp hsite).elim (h site) (hothers site)

theorem harmless_redirects (redirects : List IoRedirect) : Harmless (redirects.map .redirect) := by
  intro site hsite
  obtain ⟨redirect, -, rfl⟩ := List.mem_map.mp hsite
  trivial

theorem harmless_word_outline {place : Place} (word : Word) (h : word_validation word = Safe) :
    Harmless (word_outline place word) := by
  intro site hsite
  obtain ⟨value, pieces⟩ := word
  cases pieces with
  | none => cases h
  | some pieces =>
    rw [word_outline, List.mem_singleton] at hsite
    subst hsite
    exact ⟨fun _ _ => pieces_expand_of_safe pieces h, pieces_outline_eq_nil pieces⟩

/-- A word that the validation does not look at. -/
theorem harmless_unchecked {place : Place} (h : place = .duplication_target ∨ place = .assignment_subscript)
    (word : Word) : Harmless (word_outline place word) := by
  intro site hsite
  obtain ⟨value, pieces⟩ := word
  cases pieces with
  | none =>
    rw [List.mem_singleton.mp hsite]
    exact ⟨fun htarget hsubscript => (h.elim htarget hsubscript).elim, fun _ => rfl⟩
  | some pieces =>
    rw [List.mem_singleton.mp hsite]
    exact ⟨fun htarget hsubscript => (h.elim htarget hsubscript).elim, pieces_outline_eq_nil pieces⟩

theorem harmless_assignment_name (name : AssignmentName) : Harmless (assignment_name_outline name) := by
  cases name with
  | VariableName name => exact Harmless.nil
  | ArrayElementName name index => exact harmless_unchecked (Or.inr rfl) index

theorem harmless_optional_word {place : Place} (word : Option Word) (h : optional_word_validation word = Safe) :
    Harmless (optional_word_outline place word) := by
  cases word with
  | none => exact Harmless.nil
  | some word => exact harmless_word_outline word h

theorem harmless_words {place : Place} (words : List Word) (h : words_validation words = Safe) :
    Harmless (words_outline place words) := by
  induction words with
  | nil => exact Harmless.nil
  | cons word rest ih =>
    obtain ⟨hword, hrest⟩ := and_eq_safe.mp h
    exact (harmless_word_outline word hword).append (ih hrest)

theorem harmless_elements (elements : List ArrayElement) (h : elements_validation elements = Safe) :
    Harmless (elements_outline elements) := by
  induction elements with
  | nil => exact Harmless.nil
  | cons element rest ih =>
    obtain ⟨key, value⟩ := element
    obtain ⟨hboth, hrest⟩ := and_eq_safe.mp h
    obtain ⟨hkey, hvalue⟩ := and_eq_safe.mp hboth
    exact ((harmless_optional_word key hkey).append (harmless_word_outline value hvalue)).append (ih hrest)

theorem harmless_assignment (assignment : Assignment) (h : assignment_validation assignment = Safe) :
    Harmless (assignment_outline assignment) := by
  obtain ⟨name, value, append⟩ := assignment
  cases value with
  | Scalar word => exact (harmless_assignment_name name).append (harmless_word_outline word h)
  | Array words => exact (harmless_assignment_name name).append (harmless_elements words h)

theorem harmless_io_redirect (redirect : IoRedirect) (h : io_redirect_validation redirect = Safe) :
    Harmless (io_redirect_outline redirect) := by
  cases redirect with
  | File fd kind target =>
    cases target with
    | Filename word => exact harmless_word_outline word h
    | Fd fd => exact Harmless.nil
    | ProcessSubstitution list => cases h
    | Duplicate word => exact harmless_unchecked (Or.inl rfl) word
  | HereDocument fd requires_expansion doc =>
    cases requires_expansion with
    | true => exact harmless_word_outline doc h
    | false => exact Harmless.nil
  | HereString fd word => exact harmless_word_outline word h
  | OutputAndError word append => exact harmless_word_outline word h

theorem harmless_redirect_list (redirects : List IoRedirect) (h : redirect_list_validation redirects = Safe) :
    Harmless (redirect_list_outline redirects) := by
  induction redirects with
  | nil => exact Harmless.nil
  | cons redirect rest ih =>
    obtain ⟨hredirect, hrest⟩ := and_eq_safe.mp h
    exact (harmless_io_redirect redirect hredirect).append (ih hrest)

theorem harmless_item (item : CommandPrefixOrSuffixItem) (h : prefix_or_suffix_item_validation item = Safe) :
    Harmless (prefix_or_suffix_item_outline item) := by
  cases item with
  | IoRedirect redirect => exact harmless_io_redirect redirect h
  | Word word => exact harmless_word_outline word h
  | AssignmentWord assignment word =>
    obtain ⟨hassignment, hword⟩ := and_eq_safe.mp h
    exact (harmless_assignment assignment hassignment).append (harmless_word_outline word hword)
  | ProcessSubstitution list => cases h

theorem harmless_items (items : List CommandPrefixOrSuffixItem) (h : items_validation items = Safe) :
    Harmless (items_outline items) := by
  induction items with
  | nil => exact Harmless.nil
  | cons item rest ih =>
    obtain ⟨hitem, hrest⟩ := and_eq_safe.mp h
    exact (harmless_item item hitem).append (ih hrest)

theorem harmless_simple_command (command : SimpleCommand) (h : simple_command_validation command = Safe) :
    Harmless (simple_command_outline command) := by
  obtain ⟨prefix_items, word_or_name, suffix_items⟩ := command
  obtain ⟨hboth, hsuffix⟩ := and_eq_safe.mp h
  obtain ⟨hlead, hname⟩ := and_eq_safe.mp hboth
  have hcommand : Harmless [.command (.mk prefix_items word_or_name suffix_items)] := by
    intro site hsite
    rw [List.mem_singleton.mp hsite]
    trivial
  exact ((((hcommand.append (harmless_redirects _)).append (harmless_redirects _)).append
    (harmless_items _ hlead)).append (harmless_optional_word _ hname)).append (harmless_items _ hsuffix)

theorem harmless_extended_test_expr : ∀ expr, extended_test_expr_validation expr = Safe →
    Harmless (extended_test_expr_outline expr)
  | .Not inner, h => harmless_extended_test_expr inner h
  | .Parenthesized inner, h => harmless_extended_test_expr inner h
  | .And left right, h =>
    (harmless_extended_test_expr left (and_eq_safe.mp h).1).append
      (harmless_extended_test_expr right (and_eq_safe.mp h).2)
  | .Or left right, h =>
    (harmless_extended_test_expr left (and_eq_safe.mp h).1).append
      (harmless_extended_test_expr right (and_eq_safe.mp h).2)
  | .UnaryTest word, h => harmless_word_outline word h
  | .BinaryTest left right, h =>
    (harmless_word_outline left (and_eq_safe.mp h).1).append (harmless_word_outline right (and_eq_safe.mp h).2)

mutual

theorem harmless_compound_lists : ∀ lists, compound_lists_validation lists = Safe →
    Harmless (compound_lists_outline lists)
  | [], _ => Harmless.nil
  | list :: rest, h =>
    (harmless_compound_list list (and_eq_safe.mp h).1).append (harmless_compound_lists rest (and_eq_safe.mp h).2)

theorem harmless_compound_list : ∀ list, compound_list_validation list = Safe →
    Harmless (compound_list_outline list)
  | .mk items, h => harmless_and_or_lists items h

theorem harmless_and_or_lists : ∀ items, and_or_lists_validation items = Safe →
    Harmless (and_or_lists_outline items)
  | [], _ => Harmless.nil
  | item :: rest, h =>
    (harmless_and_or_list item (and_eq_safe.mp h).1).append (harmless_and_or_lists rest (and_eq_safe.mp h).2)

theorem harmless_and_or_list : ∀ item, and_or_list_validation item = Safe → Harmless (and_or_list_outline item)
  | .mk first additional, h =>
    (harmless_pipeline first (and_eq_safe.mp h).1).append (harmless_and_ors additional (and_eq_safe.mp h).2)

theorem harmless_and_ors : ∀ items, and_ors_validation items = Safe → Harmless (and_ors_outline items)
  | [], _ => Harmless.nil
  | .And pipeline :: rest, h =>
    (harmless_pipeline pipeline (and_eq_safe.mp h).1).append (harmless_and_ors rest (and_eq_safe.mp h).2)
  | .Or pipeline :: rest, h =>
    (harmless_pipeline pipeline (and_eq_safe.mp h).1).append (harmless_and_ors rest (and_eq_safe.mp h).2)

theorem harmless_pipeline : ∀ pipeline, pipeline_validation pipeline = Safe →
    Harmless (pipeline_outline pipeline)
  | .mk seq, h => harmless_commands seq h

theorem harmless_commands : ∀ commands, commands_validation commands = Safe →
    Harmless (commands_outline commands)
  | [], _ => Harmless.nil
  | command :: rest, h =>
    (harmless_command command (and_eq_safe.mp h).1).append (harmless_commands rest (and_eq_safe.mp h).2)

theorem harmless_command : ∀ command, command_validation command = Safe → Harmless (command_outline command)
  | .Simple simple_command, h => harmless_simple_command simple_command h
  | .Compound compound_command none, h => harmless_compound_command compound_command h
  | .Compound compound_command (some redirects), h =>
    ((harmless_compound_command compound_command (and_eq_safe.mp h).1).append
      (harmless_redirects redirects)).append (harmless_redirect_list redirects (and_eq_safe.mp h).2)
  | .Function body none, h => harmless_compound_command body h
  | .Function body (some redirects), h =>
    ((harmless_compound_command body (and_eq_safe.mp h).1).append
      (harmless_redirects redirects)).append (harmless_redirect_list redirects (and_eq_safe.mp h).2)
  | .ExtendedTest expr, h => harmless_extended_test_expr expr h

theorem harmless_compound_command : ∀ command, compound_command_validation command = Safe →
    Harmless (compound_command_outline command)
  | .BraceGroup list, h => harmless_compound_list list h
  | .Subshell list, h => harmless_compound_list list h
  | .ForClause none body, h => harmless_compound_list body h
  | .ForClause (some values) body, h =>
    (harmless_words values (and_eq_safe.mp h).1).append (harmless_compound_list body (and_eq_safe.mp h).2)
  | .CaseClause value cases, h =>
    (harmless_word_outline value (and_eq_safe.mp h).1).append (harmless_cases cases (and_eq_safe.mp h).2)
  | .IfClause condition then_branch none, h =>
    (harmless_compound_list condition (and_eq_safe.mp h).1).append
      (harmless_compound_list then_branch (and_eq_safe.mp h).2)
  | .IfClause condition then_branch (some elses), h =>
    ((harmless_compound_list condition (and_eq_safe.mp (and_eq_safe.mp h).1).1).append
      (harmless_compound_list then_branch (and_eq_safe.mp (and_eq_safe.mp h).1).2)).append
      (harmless_elses elses (and_eq_safe.mp h).2)
  | .WhileClause condition body, h =>
    (harmless_compound_list condition (and_eq_safe.mp h).1).append
      (harmless_compound_list body (and_eq_safe.mp h).2)
  | .UntilClause condition body, h =>
    (harmless_compound_list condition (and_eq_safe.mp h).1).append
      (harmless_compound_list body (and_eq_safe.mp h).2)
  | .ArithmeticForClause _ _ _ _, h => by cases h
  | .Arithmetic _, h => by cases h

theorem harmless_cases : ∀ cases, cases_validation cases = Safe → Harmless (cases_outline cases)
  | [], _ => Harmless.nil
  | .mk patterns none :: rest, h =>
    (harmless_words patterns (and_eq_safe.mp h).1).append (harmless_cases rest (and_eq_safe.mp h).2)
  | .mk patterns (some body) :: rest, h =>
    ((harmless_words patterns (and_eq_safe.mp (and_eq_safe.mp h).1).2).append
      (harmless_compound_list body (and_eq_safe.mp (and_eq_safe.mp h).1).1)).append
      (harmless_cases rest (and_eq_safe.mp h).2)

theorem harmless_elses : ∀ elses, elses_validation elses = Safe → Harmless (elses_outline elses)
  | [], _ => Harmless.nil
  | .mk none body :: rest, h =>
    (harmless_compound_list body (and_eq_safe.mp h).1).append (harmless_elses rest (and_eq_safe.mp h).2)
  | .mk (some condition) body :: rest, h =>
    ((harmless_compound_list condition (and_eq_safe.mp (and_eq_safe.mp h).1).1).append
      (harmless_compound_list body (and_eq_safe.mp (and_eq_safe.mp h).1).2)).append
      (harmless_elses rest (and_eq_safe.mp h).2)

end

theorem harmless_script (input : Script) (h : validate_terminal_command input = Safe) :
    Harmless (script_outline input) := by
  obtain ⟨value, program⟩ := input
  cases program with
  | none => cases h
  | some program =>
    obtain ⟨complete_commands⟩ := program
    exact harmless_compound_lists complete_commands h

end zed.shell_command
