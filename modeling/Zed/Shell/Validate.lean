import Zed.Shell.Ast

open zed.brush

namespace zed.shell_command

inductive TerminalProgramValidation
  | Safe
  | Unsafe
  | Unsupported
deriving DecidableEq, Repr

open TerminalProgramValidation

/-- What `combine_validations` makes of two validations. -/
def TerminalProgramValidation.and : TerminalProgramValidation → TerminalProgramValidation →
    TerminalProgramValidation
  | Unsafe, _ => Unsafe
  | _, Unsafe => Unsafe
  | Unsupported, _ => Unsupported
  | Safe, validation => validation

mutual

def program_validation : Program → TerminalProgramValidation
  | .mk complete_commands => compound_lists_validation complete_commands

def compound_lists_validation : List CompoundList → TerminalProgramValidation
  | [] => Safe
  | list :: rest => (compound_list_validation list).and (compound_lists_validation rest)

def compound_list_validation : CompoundList → TerminalProgramValidation
  | .mk items => and_or_lists_validation items

def and_or_lists_validation : List AndOrList → TerminalProgramValidation
  | [] => Safe
  | item :: rest => (and_or_list_validation item).and (and_or_lists_validation rest)

def and_or_list_validation : AndOrList → TerminalProgramValidation
  | .mk first additional => (pipeline_validation first).and (and_ors_validation additional)

def and_ors_validation : List AndOr → TerminalProgramValidation
  | [] => Safe
  | .And pipeline :: rest => (pipeline_validation pipeline).and (and_ors_validation rest)
  | .Or pipeline :: rest => (pipeline_validation pipeline).and (and_ors_validation rest)

def pipeline_validation : Pipeline → TerminalProgramValidation
  | .mk seq => commands_validation seq

def commands_validation : List Command → TerminalProgramValidation
  | [] => Safe
  | command :: rest => (command_validation command).and (commands_validation rest)

def command_validation : Command → TerminalProgramValidation
  | .Simple simple_command => simple_command_validation simple_command
  | .Compound compound_command none => compound_command_validation compound_command
  | .Compound compound_command (some redirects) =>
    (compound_command_validation compound_command).and (redirect_list_validation redirects)
  | .Function body none => compound_command_validation body
  | .Function body (some redirects) =>
    (compound_command_validation body).and (redirect_list_validation redirects)
  | .ExtendedTest expr => extended_test_expr_validation expr

def simple_command_validation : SimpleCommand → TerminalProgramValidation
  | .mk prefix_items word_or_name suffix_items =>
    ((items_validation prefix_items).and (optional_word_validation word_or_name)).and
      (items_validation suffix_items)

def items_validation : List CommandPrefixOrSuffixItem → TerminalProgramValidation
  | [] => Safe
  | item :: rest => (prefix_or_suffix_item_validation item).and (items_validation rest)

def prefix_or_suffix_item_validation : CommandPrefixOrSuffixItem → TerminalProgramValidation
  | .IoRedirect redirect => io_redirect_validation redirect
  | .Word word => word_validation word
  | .AssignmentWord assignment word => (assignment_validation assignment).and (word_validation word)
  | .ProcessSubstitution _ => Unsafe

def redirect_list_validation : List IoRedirect → TerminalProgramValidation
  | [] => Safe
  | redirect :: rest => (io_redirect_validation redirect).and (redirect_list_validation rest)

def io_redirect_validation : IoRedirect → TerminalProgramValidation
  | .File _ _ (.Filename word) => word_validation word
  | .File _ _ (.ProcessSubstitution _) => Unsafe
  | .File _ _ (.Fd _) => Safe
  | .File _ _ (.Duplicate _) => Safe
  | .HereDocument _ requires_expansion doc => if requires_expansion then word_validation doc else Safe
  | .HereString _ word => word_validation word
  | .OutputAndError word _ => word_validation word

def assignment_validation : Assignment → TerminalProgramValidation
  | .mk _ (.Scalar word) _ => word_validation word
  | .mk _ (.Array words) _ => elements_validation words

def elements_validation : List ArrayElement → TerminalProgramValidation
  | [] => Safe
  | .mk key value :: rest =>
    ((optional_word_validation key).and (word_validation value)).and (elements_validation rest)

def optional_word_validation : Option Word → TerminalProgramValidation
  | none => Safe
  | some word => word_validation word

def words_validation : List Word → TerminalProgramValidation
  | [] => Safe
  | word :: rest => (word_validation word).and (words_validation rest)

def word_validation : Word → TerminalProgramValidation
  | .mk _ none => Unsupported
  | .mk _ (some pieces) => pieces_validation pieces

def pieces_validation : List WordPieceWithSource → TerminalProgramValidation
  | [] => Safe
  | .mk piece _ _ :: rest => (word_piece_validation piece).and (pieces_validation rest)

def word_piece_validation : WordPiece → TerminalProgramValidation
  | .Text _ => Safe
  | .SingleQuotedText _ => Safe
  | .AnsiCQuotedText _ => Safe
  | .EscapeSequence _ => Safe
  | .TildePrefix _ => Safe
  | .DoubleQuotedSequence pieces => pieces_validation pieces
  | .GettextDoubleQuotedSequence pieces => pieces_validation pieces
  | .ParameterExpansion _ => Unsafe
  | .ArithmeticExpression _ => Unsafe
  | .CommandSubstitution (.mk _ program) => if program.isSome then Unsafe else Unsupported
  | .BackquotedCommandSubstitution (.mk _ program) => if program.isSome then Unsafe else Unsupported

def compound_command_validation : CompoundCommand → TerminalProgramValidation
  | .BraceGroup list => compound_list_validation list
  | .Subshell list => compound_list_validation list
  | .ForClause none body => compound_list_validation body
  | .ForClause (some values) body => (words_validation values).and (compound_list_validation body)
  | .CaseClause value cases => (word_validation value).and (cases_validation cases)
  | .IfClause condition then_branch none =>
    (compound_list_validation condition).and (compound_list_validation then_branch)
  | .IfClause condition then_branch (some elses) =>
    ((compound_list_validation condition).and (compound_list_validation then_branch)).and
      (elses_validation elses)
  | .WhileClause condition body =>
    (compound_list_validation condition).and (compound_list_validation body)
  | .UntilClause condition body =>
    (compound_list_validation condition).and (compound_list_validation body)
  | .ArithmeticForClause _ _ _ _ => Unsafe
  | .Arithmetic _ => Unsafe

def cases_validation : List CaseItem → TerminalProgramValidation
  | [] => Safe
  | .mk patterns none :: rest => (words_validation patterns).and (cases_validation rest)
  | .mk patterns (some body) :: rest =>
    ((compound_list_validation body).and (words_validation patterns)).and (cases_validation rest)

def elses_validation : List ElseClause → TerminalProgramValidation
  | [] => Safe
  | .mk none body :: rest => (compound_list_validation body).and (elses_validation rest)
  | .mk (some condition) body :: rest =>
    ((compound_list_validation condition).and (compound_list_validation body)).and (elses_validation rest)

def extended_test_expr_validation : ExtendedTestExpr → TerminalProgramValidation
  | .Not inner => extended_test_expr_validation inner
  | .Parenthesized inner => extended_test_expr_validation inner
  | .And left right => (extended_test_expr_validation left).and (extended_test_expr_validation right)
  | .Or left right => (extended_test_expr_validation left).and (extended_test_expr_validation right)
  | .UnaryTest word => word_validation word
  | .BinaryTest left right => (word_validation left).and (word_validation right)

end

/-- `validate_terminal_command`, whose result has the same three cases. -/
def validate_terminal_command : Script → TerminalProgramValidation
  | .mk _ none => Unsupported
  | .mk _ (some program) => program_validation program

@[simp] theorem TerminalProgramValidation.and_eq_safe {a b : TerminalProgramValidation} :
    a.and b = Safe ↔ a = Safe ∧ b = Safe := by
  cases a <;> cases b <;> decide

end zed.shell_command
