import Zed.Shell.Ast

open zed.brush

namespace zed.shell_command

/-- The characters of the first bytes of a text, with the others, when the cut is at
    a character boundary. -/
def split_at : Nat → List Char → Option (List Char × List Char)
  | 0, chars => some ([], chars)
  | _ + 1, [] => none
  | n + 1, c :: chars =>
    if c.utf8Size ≤ n + 1 then
      (split_at (n + 1 - c.utf8Size) chars).map fun parts => (c :: parts.1, parts.2)
    else none

/-- `raw_value.get(start..end)` -/
def get_range (raw_value : String) (start_index end_index : Nat) : Option String := do
  guard (start_index ≤ end_index)
  let (_, rest) ← split_at start_index raw_value.toList
  let (source, _) ← split_at (end_index - start_index) rest
  some (String.ofList source)

def strip_leading (text lead : String) : Option String :=
  if lead.toList.isPrefixOf text.toList then some (String.ofList (text.toList.drop lead.toList.length))
  else none

mutual

def normalize_word_piece_into : WordPiece → String → Nat → Nat → String → Option String
  | .Text text, _, _, _, result => some (result ++ text)
  | .SingleQuotedText text, _, _, _, result => some (result ++ text)
  | .AnsiCQuotedText text, _, _, _, result => some (result ++ text)
  | .EscapeSequence text, _, _, _, result => some (result ++ (strip_leading text "\\").getD text)
  | .DoubleQuotedSequence pieces, raw_value, _, _, result => normalize_pieces_into pieces raw_value result
  | .GettextDoubleQuotedSequence pieces, raw_value, _, _, result =>
    normalize_pieces_into pieces raw_value result
  | .TildePrefix text, _, _, _, result => some (result ++ "~" ++ text)
  -- expansions keep their source text, so that patterns like `\$HOME` still match
  | .ParameterExpansion _, raw_value, start_index, end_index, result => do
    let source ← get_range raw_value start_index end_index
    some (result ++ source)
  | .CommandSubstitution _, raw_value, start_index, end_index, result => do
    let source ← get_range raw_value start_index end_index
    some (result ++ source)
  | .BackquotedCommandSubstitution _, raw_value, start_index, end_index, result => do
    let source ← get_range raw_value start_index end_index
    some (result ++ source)
  | .ArithmeticExpression _, raw_value, start_index, end_index, result => do
    let source ← get_range raw_value start_index end_index
    some (result ++ source)

def normalize_pieces_into : List WordPieceWithSource → String → String → Option String
  | [], _, result => some result
  | .mk piece start_index end_index :: rest, raw_value, result => do
    let result ← normalize_word_piece_into piece raw_value start_index end_index result
    normalize_pieces_into rest raw_value result

end

/-- Strips the quoting of a word. `none` when the word does not parse. -/
def normalize_word : Word → Option String
  | .mk _ none => none
  | .mk value (some pieces) => normalize_pieces_into pieces value ""

def shell_value_requires_quoting (value : String) : Bool :=
  value.toList.any fun character => character.isWhitespace || !(character.isAlphanum ||
    ['_', '@', '%', '+', '=', ':', ',', '.', '/', '-'].contains character)

inductive NormalizedAssignment
  | Included (text : String)
  | Skipped
deriving DecidableEq

def display_name : AssignmentName → String
  | .VariableName name => name
  | .ArrayElementName name (.mk index _) => name ++ "[" ++ index ++ "]"

def normalize_assignment_for_prefix_items : Assignment → Word → Option NormalizedAssignment
  | .mk name value append, .mk word _ => do
    let prefix_text := display_name name ++ (if append then "+=" else "=")
    match value with
    | .Scalar value =>
      let normalized_value ← normalize_word value
      let raw_value ← strip_leading word prefix_text
      let rendered_value :=
        if shell_value_requires_quoting normalized_value then raw_value else normalized_value
      some (.Included (prefix_text ++ rendered_value))
    | .Array _ => some .Skipped

def is_known_safe_redirect_target (normalized_target : String) : Bool := normalized_target = "/dev/null"

inductive RedirectNormalization
  | Normalized (text : String)
  | Skip
deriving DecidableEq

def operator : IoFileRedirectKind → String
  | .Read => "<"
  | .Write => ">"
  | .Append => ">>"
  | .ReadAndWrite => "<>"
  | .Clobber => ">|"
  | .DuplicateInput => "<&"
  | .DuplicateOutput => ">&"

def normalize_io_redirect : IoRedirect → Option RedirectNormalization
  | .File fd kind (.Filename word) => do
    let normalized ← normalize_word word
    if is_known_safe_redirect_target normalized then some .Skip
    else some (.Normalized ((fd.map toString).getD "" ++ operator kind ++ " " ++ normalized))
  -- any other target is skipped: a descriptor, a process substitution, a duplication
  | .File _ _ _ => some .Skip
  | .OutputAndError word append => do
    let normalized ← normalize_word word
    if is_known_safe_redirect_target normalized then some .Skip
    else some (.Normalized ((if append then "&>>" else "&>") ++ " " ++ normalized))
  | .HereDocument _ _ _ => some .Skip
  | .HereString _ _ => some .Skip

end zed.shell_command
