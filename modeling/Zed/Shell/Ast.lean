import Mathlib

namespace zed.brush

inductive IoFileRedirectKind
  | Read | Write | Append | ReadAndWrite | Clobber | DuplicateInput | DuplicateOutput
deriving DecidableEq, Repr

mutual

/-- A text that the shell expands, with the pieces the word grammar gives for it,
    if it gives any. -/
inductive Word
  | mk (value : String) (pieces : Option (List WordPieceWithSource))

/-- A piece, and the bytes of the word it stands for. -/
inductive WordPieceWithSource
  | mk (piece : WordPiece) (start_index end_index : Nat)

inductive WordPiece
  | Text (text : String)
  | SingleQuotedText (text : String)
  | AnsiCQuotedText (text : String)
  | DoubleQuotedSequence (pieces : List WordPieceWithSource)
  | GettextDoubleQuotedSequence (pieces : List WordPieceWithSource)
  | TildePrefix (text : String)
  | ParameterExpansion (expr : ParameterExpr)
  | CommandSubstitution (command : Script)
  | BackquotedCommandSubstitution (command : Script)
  | EscapeSequence (text : String)
  | ArithmeticExpression (expr : Word)

inductive Parameter
  | Positional (n : Nat)
  | Special (name : String)
  | Named (name : String)
  | NamedWithIndex (name : String) (index : Word)
  | NamedWithAllIndices (name : String) (concatenate : Bool)

inductive ParameterExpr
  | Parameter (parameter : Parameter) (indirect : Bool)
  | UseDefaultValues (parameter : Parameter) (indirect : Bool) (default_value : Option Word)
  | AssignDefaultValues (parameter : Parameter) (indirect : Bool) (default_value : Option Word)
  | IndicateErrorIfNullOrUnset (parameter : Parameter) (indirect : Bool) (error_message : Option Word)
  | UseAlternativeValue (parameter : Parameter) (indirect : Bool) (alternative_value : Option Word)
  | ParameterLength (parameter : Parameter) (indirect : Bool)
  | RemoveSmallestSuffixPattern (parameter : Parameter) (indirect : Bool) (pattern : Option Word)
  | RemoveLargestSuffixPattern (parameter : Parameter) (indirect : Bool) (pattern : Option Word)
  | RemoveSmallestPrefixPattern (parameter : Parameter) (indirect : Bool) (pattern : Option Word)
  | RemoveLargestPrefixPattern (parameter : Parameter) (indirect : Bool) (pattern : Option Word)
  | Substring (parameter : Parameter) (indirect : Bool) (offset : Word) (length : Option Word)
  | Transform (parameter : Parameter) (indirect : Bool)
  | UppercaseFirstChar (parameter : Parameter) (indirect : Bool) (pattern : Option Word)
  | UppercasePattern (parameter : Parameter) (indirect : Bool) (pattern : Option Word)
  | LowercaseFirstChar (parameter : Parameter) (indirect : Bool) (pattern : Option Word)
  | LowercasePattern (parameter : Parameter) (indirect : Bool) (pattern : Option Word)
  | ReplaceSubstring (parameter : Parameter) (indirect : Bool) (pattern : Word)
      (replacement : Option Word)
  | VariableNames (name : String) (concatenate : Bool)
  | MemberKeys (variable_name : String) (concatenate : Bool)

/-- The text of a program, with the syntax tree the program grammar gives for it, if
    it gives one. -/
inductive Script
  | mk (value : String) (program : Option Program)

/-- Separators, positions in the source and the `!` and `time` of a pipeline are left
    out from here on: nothing below reads them. -/
inductive Program
  | mk (complete_commands : List CompoundList)

inductive CompoundList
  | mk (items : List AndOrList)

inductive AndOrList
  | mk (first : Pipeline) (additional : List AndOr)

inductive AndOr
  | And (pipeline : Pipeline)
  | Or (pipeline : Pipeline)

inductive Pipeline
  | mk (seq : List Command)

inductive Command
  | Simple (command : SimpleCommand)
  | Compound (command : CompoundCommand) (redirects : Option (List IoRedirect))
  | Function (body : CompoundCommand) (redirects : Option (List IoRedirect))
  | ExtendedTest (expr : ExtendedTestExpr)

inductive CompoundCommand
  | Arithmetic (expr : Word)
  | ArithmeticForClause (initializer condition updater : Option Word) (body : CompoundList)
  | BraceGroup (list : CompoundList)
  | Subshell (list : CompoundList)
  | ForClause (values : Option (List Word)) (body : CompoundList)
  | CaseClause (value : Word) (cases : List CaseItem)
  | IfClause (condition then_branch : CompoundList) (elses : Option (List ElseClause))
  | WhileClause (condition body : CompoundList)
  | UntilClause (condition body : CompoundList)

inductive CaseItem
  | mk (patterns : List Word) (cmd : Option CompoundList)

inductive ElseClause
  | mk (condition : Option CompoundList) (body : CompoundList)

inductive SimpleCommand
  | mk (prefix_items : List CommandPrefixOrSuffixItem) (word_or_name : Option Word)
      (suffix_items : List CommandPrefixOrSuffixItem)

inductive CommandPrefixOrSuffixItem
  | IoRedirect (redirect : IoRedirect)
  | Word (word : Word)
  | AssignmentWord (assignment : Assignment) (word : Word)
  | ProcessSubstitution (list : CompoundList)

inductive Assignment
  | mk (name : AssignmentName) (value : AssignmentValue) (append : Bool)

inductive AssignmentName
  | VariableName (name : String)
  | ArrayElementName (name : String) (index : Word)

inductive AssignmentValue
  | Scalar (word : Word)
  | Array (words : List ArrayElement)

inductive ArrayElement
  | mk (key : Option Word) (value : Word)

inductive IoRedirect
  | File (fd : Option Nat) (kind : IoFileRedirectKind) (target : IoFileRedirectTarget)
  | HereDocument (fd : Option Nat) (requires_expansion : Bool) (doc : Word)
  | HereString (fd : Option Nat) (word : Word)
  | OutputAndError (word : Word) (append : Bool)

inductive IoFileRedirectTarget
  | Filename (word : Word)
  | Fd (fd : Nat)
  | ProcessSubstitution (list : CompoundList)
  | Duplicate (word : Word)

inductive ExtendedTestExpr
  | Not (inner : ExtendedTestExpr)
  | And (left right : ExtendedTestExpr)
  | Or (left right : ExtendedTestExpr)
  | Parenthesized (inner : ExtendedTestExpr)
  | UnaryTest (word : Word)
  | BinaryTest (left right : Word)

end

end zed.brush
