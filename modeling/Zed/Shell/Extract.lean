import Zed.Shell.Normalize

open zed.brush

namespace zed.shell_command

/-- The words and the redirections of a command, normalized, so far. -/
structure Normalized where
  words : List String
  redirects : List String

def Normalized.push_word (normalized : Normalized) (word : String) : Normalized :=
  { normalized with words := normalized.words ++ [word] }

def Normalized.push_redirect (normalized : Normalized) (redirect : RedirectNormalization) : Normalized :=
  match redirect with
  | .Normalized s => { normalized with redirects := normalized.redirects ++ [s] }
  | .Skip => normalized

/-- The loop over the items before or after the name of a simple command. A process
    substitution may only come after it. -/
def normalize_items (in_suffix : Bool) : List CommandPrefixOrSuffixItem → Normalized → Option Normalized
  | [], normalized => some normalized
  | .IoRedirect redirect :: rest, normalized => do
    let redirect ← normalize_io_redirect redirect
    normalize_items in_suffix rest (normalized.push_redirect redirect)
  | .AssignmentWord assignment word :: rest, normalized => do
    match ← normalize_assignment_for_prefix_items assignment word with
    | .Included normalized_assignment =>
      normalize_items in_suffix rest (normalized.push_word normalized_assignment)
    | .Skipped => normalize_items in_suffix rest normalized
  | .Word word :: rest, normalized => do
    let word ← normalize_word word
    normalize_items in_suffix rest (normalized.push_word word)
  | .ProcessSubstitution _ :: rest, normalized =>
    if in_suffix then normalize_items in_suffix rest normalized else none

def normalize_name : Option Word → Normalized → Option Normalized
  | none, normalized => some normalized
  | some word, normalized => (normalize_word word).map normalized.push_word

def normalize_simple_command : SimpleCommand → Option Normalized
  | .mk prefix_items word_or_name suffix_items => do
    let normalized ← normalize_items false prefix_items { words := [], redirects := [] }
    let normalized ← normalize_name word_or_name normalized
    normalize_items true suffix_items normalized

def Normalized.command_str (normalized : Normalized) : String := " ".intercalate normalized.words

def normalize_redirects : List IoRedirect → List String → Option (List String)
  | [], normalized_redirects => some normalized_redirects
  | redirect :: rest, normalized_redirects => do
    match ← normalize_io_redirect redirect with
    | .Normalized s => normalize_redirects rest (normalized_redirects ++ [s])
    | .Skip => normalize_redirects rest normalized_redirects

/-- The redirections of a compound command go after the commands of its body, of
    which there must be one. -/
def extend_redirects (redirects : List IoRedirect) (body_start : Nat) (commands : List String) :
    Option (List String) := do
  let normalized_redirects ← normalize_redirects redirects []
  guard (normalized_redirects = [] ∨ body_start < commands.length)
  some (commands ++ normalized_redirects)

def extend_simple (command : SimpleCommand) (commands : List String) : Option (List String) := do
  let normalized ← normalize_simple_command command
  guard ¬ (normalized.words = [] ∧ normalized.redirects ≠ [])
  let commands := if normalized.command_str = "" then commands else commands ++ [normalized.command_str]
  some (commands ++ normalized.redirects)

mutual

def extract_commands_from_program : Program → List String → Option (List String)
  | .mk complete_commands, commands => extract_commands_from_lists complete_commands commands

def extract_commands_from_lists : List CompoundList → List String → Option (List String)
  | [], commands => some commands
  | complete_command :: rest, commands => do
    let commands ← extract_commands_from_compound_list complete_command commands
    extract_commands_from_lists rest commands

def extract_commands_from_compound_list : CompoundList → List String → Option (List String)
  | .mk items, commands => extract_commands_from_and_or_lists items commands

def extract_commands_from_and_or_lists : List AndOrList → List String → Option (List String)
  | [], commands => some commands
  | item :: rest, commands => do
    let commands ← extract_commands_from_and_or_list item commands
    extract_commands_from_and_or_lists rest commands

def extract_commands_from_and_or_list : AndOrList → List String → Option (List String)
  | .mk first additional, commands => do
    let commands ← extract_commands_from_pipeline first commands
    extract_commands_from_and_ors additional commands

def extract_commands_from_and_ors : List AndOr → List String → Option (List String)
  | [], commands => some commands
  | .And pipeline :: rest, commands => do
    let commands ← extract_commands_from_pipeline pipeline commands
    extract_commands_from_and_ors rest commands
  | .Or pipeline :: rest, commands => do
    let commands ← extract_commands_from_pipeline pipeline commands
    extract_commands_from_and_ors rest commands

def extract_commands_from_pipeline : Pipeline → List String → Option (List String)
  | .mk seq, commands => extract_commands_from_commands seq commands

def extract_commands_from_commands : List Command → List String → Option (List String)
  | [], commands => some commands
  | command :: rest, commands => do
    let commands ← extract_commands_from_command command commands
    extract_commands_from_commands rest commands

def extract_commands_from_command : Command → List String → Option (List String)
  | .Simple simple_command, commands => extract_commands_from_simple_command simple_command commands
  | .Compound compound_command none, commands => do
    let (_, commands) ← extract_commands_from_compound_command compound_command commands
    some commands
  | .Compound compound_command (some redirects), commands => do
    let (body_start, commands) ← extract_commands_from_compound_command compound_command commands
    let commands ← extend_redirects redirects body_start commands
    extract_commands_from_redirects redirects commands
  | .Function body none, commands => do
    let (_, commands) ← extract_commands_from_compound_command body commands
    some commands
  | .Function body (some redirects), commands => do
    let (body_start, commands) ← extract_commands_from_compound_command body commands
    let commands ← extend_redirects redirects body_start commands
    extract_commands_from_redirects redirects commands
  | .ExtendedTest expr, commands => extract_commands_from_extended_test_expr expr commands

def extract_commands_from_simple_command : SimpleCommand → List String → Option (List String)
  | .mk prefix_items word_or_name suffix_items, commands => do
    let commands ← extend_simple (.mk prefix_items word_or_name suffix_items) commands
    let commands ← extract_commands_from_items prefix_items commands
    let commands ← extract_commands_from_optional_word word_or_name commands
    extract_commands_from_items suffix_items commands

def extract_commands_from_optional_word : Option Word → List String → Option (List String)
  | none, commands => some commands
  | some word, commands => extract_commands_from_word word commands

def extract_commands_from_items : List CommandPrefixOrSuffixItem → List String → Option (List String)
  | [], commands => some commands
  | item :: rest, commands => do
    let commands ← extract_commands_from_prefix_or_suffix_item item commands
    extract_commands_from_items rest commands

def extract_commands_from_prefix_or_suffix_item : CommandPrefixOrSuffixItem → List String →
    Option (List String)
  | .IoRedirect redirect, commands => extract_commands_from_io_redirect redirect commands
  | .AssignmentWord assignment _, commands => extract_commands_from_assignment assignment commands
  | .Word word, commands => extract_commands_from_word word commands
  | .ProcessSubstitution list, commands => extract_commands_from_compound_list list commands

def extract_commands_from_redirects : List IoRedirect → List String → Option (List String)
  | [], commands => some commands
  | redirect :: rest, commands => do
    let commands ← extract_commands_from_io_redirect redirect commands
    extract_commands_from_redirects rest commands

def extract_commands_from_io_redirect : IoRedirect → List String → Option (List String)
  | .File _ _ (.ProcessSubstitution list), commands => extract_commands_from_compound_list list commands
  | .File _ _ (.Filename word), commands => extract_commands_from_word word commands
  | .File _ _ (.Fd _), commands => some commands
  | .File _ _ (.Duplicate _), commands => some commands
  | .HereDocument _ requires_expansion doc, commands =>
    if requires_expansion then extract_commands_from_word doc commands else some commands
  | .HereString _ word, commands => extract_commands_from_word word commands
  | .OutputAndError word _, commands => extract_commands_from_word word commands

def extract_commands_from_assignment : Assignment → List String → Option (List String)
  | .mk _ (.Scalar word) _, commands => extract_commands_from_word word commands
  | .mk _ (.Array words) _, commands => extract_commands_from_elements words commands

def extract_commands_from_elements : List ArrayElement → List String → Option (List String)
  | [], commands => some commands
  | .mk key value :: rest, commands => do
    let commands ← extract_commands_from_optional_word key commands
    let commands ← extract_commands_from_word value commands
    extract_commands_from_elements rest commands

def extract_commands_from_word : Word → List String → Option (List String)
  | .mk _ none, _ => none
  | .mk _ (some pieces), commands => extract_commands_from_pieces pieces commands

def extract_commands_from_pieces : List WordPieceWithSource → List String → Option (List String)
  | [], commands => some commands
  | .mk piece _ _ :: rest, commands => do
    let commands ← extract_commands_from_word_piece piece commands
    extract_commands_from_pieces rest commands

def extract_commands_from_word_piece : WordPiece → List String → Option (List String)
  | .CommandSubstitution command, commands => do
    let nested_commands ← extract_commands command
    some (commands ++ nested_commands)
  | .BackquotedCommandSubstitution command, commands => do
    let nested_commands ← extract_commands command
    some (commands ++ nested_commands)
  | .DoubleQuotedSequence pieces, commands => extract_commands_from_pieces pieces commands
  | .GettextDoubleQuotedSequence pieces, commands => extract_commands_from_pieces pieces commands
  | .ArithmeticExpression expr, commands => extract_commands_from_word expr commands
  | .ParameterExpansion expr, commands => extract_commands_from_parameter_expr expr commands
  | .EscapeSequence _, commands => some commands
  | .SingleQuotedText _, commands => some commands
  | .Text _, commands => some commands
  | .AnsiCQuotedText _, commands => some commands
  | .TildePrefix _, commands => some commands

/-- Only the texts of the expansion are looked into, not its parameter. -/
def extract_commands_from_parameter_expr : ParameterExpr → List String → Option (List String)
  | .Parameter _ _, commands => some commands
  | .ParameterLength _ _, commands => some commands
  | .Transform _ _, commands => some commands
  | .VariableNames _ _, commands => some commands
  | .MemberKeys _ _, commands => some commands
  | .UseDefaultValues _ _ default_value, commands =>
    extract_commands_from_optional_word default_value commands
  | .AssignDefaultValues _ _ default_value, commands =>
    extract_commands_from_optional_word default_value commands
  | .IndicateErrorIfNullOrUnset _ _ error_message, commands =>
    extract_commands_from_optional_word error_message commands
  | .UseAlternativeValue _ _ alternative_value, commands =>
    extract_commands_from_optional_word alternative_value commands
  | .RemoveSmallestSuffixPattern _ _ pattern, commands =>
    extract_commands_from_optional_word pattern commands
  | .RemoveLargestSuffixPattern _ _ pattern, commands =>
    extract_commands_from_optional_word pattern commands
  | .RemoveSmallestPrefixPattern _ _ pattern, commands =>
    extract_commands_from_optional_word pattern commands
  | .RemoveLargestPrefixPattern _ _ pattern, commands =>
    extract_commands_from_optional_word pattern commands
  | .UppercaseFirstChar _ _ pattern, commands => extract_commands_from_optional_word pattern commands
  | .UppercasePattern _ _ pattern, commands => extract_commands_from_optional_word pattern commands
  | .LowercaseFirstChar _ _ pattern, commands => extract_commands_from_optional_word pattern commands
  | .LowercasePattern _ _ pattern, commands => extract_commands_from_optional_word pattern commands
  | .Substring _ _ offset length, commands => do
    let commands ← extract_commands_from_word offset commands
    extract_commands_from_optional_word length commands
  | .ReplaceSubstring _ _ pattern replacement, commands => do
    let commands ← extract_commands_from_word pattern commands
    extract_commands_from_optional_word replacement commands

/-- The commands, with how many there were before those of the body. -/
def extract_commands_from_compound_command : CompoundCommand → List String →
    Option (Nat × List String)
  | .BraceGroup list, commands => do
    let extracted ← extract_commands_from_compound_list list commands
    some (commands.length, extracted)
  | .Subshell list, commands => do
    let extracted ← extract_commands_from_compound_list list commands
    some (commands.length, extracted)
  | .ForClause none body, commands => do
    let extracted ← extract_commands_from_compound_list body commands
    some (commands.length, extracted)
  | .ForClause (some words) body, commands => do
    let commands ← extract_commands_from_words words commands
    let extracted ← extract_commands_from_compound_list body commands
    some (commands.length, extracted)
  | .CaseClause value cases, commands => do
    let commands ← extract_commands_from_word value commands
    let extracted ← extract_commands_from_cases cases commands
    some (commands.length, extracted)
  | .IfClause condition then_branch none, commands => do
    let commands ← extract_commands_from_compound_list condition commands
    let extracted ← extract_commands_from_compound_list then_branch commands
    some (commands.length, extracted)
  | .IfClause condition then_branch (some elses), commands => do
    let commands ← extract_commands_from_compound_list condition commands
    let extracted ← extract_commands_from_compound_list then_branch commands
    let extracted ← extract_commands_from_elses elses extracted
    some (commands.length, extracted)
  | .WhileClause condition body, commands => do
    let commands ← extract_commands_from_compound_list condition commands
    let extracted ← extract_commands_from_compound_list body commands
    some (commands.length, extracted)
  | .UntilClause condition body, commands => do
    let commands ← extract_commands_from_compound_list condition commands
    let extracted ← extract_commands_from_compound_list body commands
    some (commands.length, extracted)
  | .ArithmeticForClause _ _ _ body, commands => do
    let extracted ← extract_commands_from_compound_list body commands
    some (commands.length, extracted)
  | .Arithmetic _, commands => some (commands.length, commands)

def extract_commands_from_words : List Word → List String → Option (List String)
  | [], commands => some commands
  | word :: rest, commands => do
    let commands ← extract_commands_from_word word commands
    extract_commands_from_words rest commands

def extract_commands_from_cases : List CaseItem → List String → Option (List String)
  | [], commands => some commands
  | .mk _ none :: rest, commands => extract_commands_from_cases rest commands
  | .mk _ (some body) :: rest, commands => do
    let commands ← extract_commands_from_compound_list body commands
    extract_commands_from_cases rest commands

def extract_commands_from_elses : List ElseClause → List String → Option (List String)
  | [], commands => some commands
  | .mk none body :: rest, commands => do
    let commands ← extract_commands_from_compound_list body commands
    extract_commands_from_elses rest commands
  | .mk (some condition) body :: rest, commands => do
    let commands ← extract_commands_from_compound_list condition commands
    let commands ← extract_commands_from_compound_list body commands
    extract_commands_from_elses rest commands

def extract_commands_from_extended_test_expr : ExtendedTestExpr → List String → Option (List String)
  | .Not inner, commands => extract_commands_from_extended_test_expr inner commands
  | .And left right, commands => do
    let commands ← extract_commands_from_extended_test_expr left commands
    extract_commands_from_extended_test_expr right commands
  | .Or left right, commands => do
    let commands ← extract_commands_from_extended_test_expr left commands
    extract_commands_from_extended_test_expr right commands
  | .Parenthesized inner, commands => extract_commands_from_extended_test_expr inner commands
  | .UnaryTest word, commands => extract_commands_from_word word commands
  | .BinaryTest left right, commands => do
    let commands ← extract_commands_from_word left commands
    extract_commands_from_word right commands

def extract_commands : Script → Option (List String)
  | .mk _ none => none
  | .mk _ (some program) => extract_commands_from_program program []

end

end zed.shell_command
