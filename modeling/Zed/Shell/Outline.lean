import Zed.Shell.Normalize

open zed.brush

namespace zed.shell_command

/-- Where a program has a word that the shell expands. The raw text of an assignment
    repeats its name and its value. -/
inductive Place
  | word
  | assignment_word
  | assignment_subscript
  | duplication_target
  | case_pattern
  | arithmetic_command
  | arithmetic_for_header
  | parameter_subscript
deriving DecidableEq, Repr

/-- What a program has in it: its simple commands, redirections, process
    substitutions and words, each word with what the substitutions in it have. -/
inductive Site
  | command (command : SimpleCommand)
  | redirect (redirect : IoRedirect)
  | process_substitution
  | word (place : Place) (word : Word) (inside : List Site)

def item_redirects : List CommandPrefixOrSuffixItem → List IoRedirect
  | [] => []
  | .IoRedirect redirect :: rest => redirect :: item_redirects rest
  | .AssignmentWord _ _ :: rest => item_redirects rest
  | .Word _ :: rest => item_redirects rest
  | .ProcessSubstitution _ :: rest => item_redirects rest

mutual

def program_outline : Program → List Site
  | .mk complete_commands => compound_lists_outline complete_commands

def compound_lists_outline : List CompoundList → List Site
  | [] => []
  | list :: rest => compound_list_outline list ++ compound_lists_outline rest

def compound_list_outline : CompoundList → List Site
  | .mk items => and_or_lists_outline items

def and_or_lists_outline : List AndOrList → List Site
  | [] => []
  | item :: rest => and_or_list_outline item ++ and_or_lists_outline rest

def and_or_list_outline : AndOrList → List Site
  | .mk first additional => pipeline_outline first ++ and_ors_outline additional

def and_ors_outline : List AndOr → List Site
  | [] => []
  | .And pipeline :: rest => pipeline_outline pipeline ++ and_ors_outline rest
  | .Or pipeline :: rest => pipeline_outline pipeline ++ and_ors_outline rest

def pipeline_outline : Pipeline → List Site
  | .mk seq => commands_outline seq

def commands_outline : List Command → List Site
  | [] => []
  | command :: rest => command_outline command ++ commands_outline rest

def command_outline : Command → List Site
  | .Simple simple_command => simple_command_outline simple_command
  | .Compound compound_command none => compound_command_outline compound_command
  | .Compound compound_command (some redirects) =>
    compound_command_outline compound_command ++ redirects.map .redirect ++ redirect_list_outline redirects
  | .Function body none => compound_command_outline body
  | .Function body (some redirects) =>
    compound_command_outline body ++ redirects.map .redirect ++ redirect_list_outline redirects
  | .ExtendedTest expr => extended_test_expr_outline expr

def simple_command_outline : SimpleCommand → List Site
  | .mk prefix_items word_or_name suffix_items =>
    [.command (.mk prefix_items word_or_name suffix_items)] ++
      (item_redirects prefix_items).map .redirect ++ (item_redirects suffix_items).map .redirect ++
      items_outline prefix_items ++ optional_word_outline .word word_or_name ++
      items_outline suffix_items

def items_outline : List CommandPrefixOrSuffixItem → List Site
  | [] => []
  | item :: rest => prefix_or_suffix_item_outline item ++ items_outline rest

def prefix_or_suffix_item_outline : CommandPrefixOrSuffixItem → List Site
  | .IoRedirect redirect => io_redirect_outline redirect
  | .Word word => word_outline .word word
  | .AssignmentWord assignment word => assignment_outline assignment ++ word_outline .assignment_word word
  | .ProcessSubstitution list => .process_substitution :: compound_list_outline list

def redirect_list_outline : List IoRedirect → List Site
  | [] => []
  | redirect :: rest => io_redirect_outline redirect ++ redirect_list_outline rest

/-- A here-document whose delimiter is quoted is not expanded. -/
def io_redirect_outline : IoRedirect → List Site
  | .File _ _ (.Filename word) => word_outline .word word
  | .File _ _ (.ProcessSubstitution list) => .process_substitution :: compound_list_outline list
  | .File _ _ (.Fd _) => []
  | .File _ _ (.Duplicate word) => word_outline .duplication_target word
  | .HereDocument _ requires_expansion doc => if requires_expansion then word_outline .word doc else []
  | .HereString _ word => word_outline .word word
  | .OutputAndError word _ => word_outline .word word

def assignment_outline : Assignment → List Site
  | .mk name (.Scalar word) _ => assignment_name_outline name ++ word_outline .word word
  | .mk name (.Array words) _ => assignment_name_outline name ++ elements_outline words

def assignment_name_outline : AssignmentName → List Site
  | .VariableName _ => []
  | .ArrayElementName _ index => word_outline .assignment_subscript index

def elements_outline : List ArrayElement → List Site
  | [] => []
  | .mk key value :: rest =>
    optional_word_outline .word key ++ word_outline .word value ++ elements_outline rest

def optional_word_outline (place : Place) : Option Word → List Site
  | none => []
  | some word => word_outline place word

def words_outline (place : Place) : List Word → List Site
  | [] => []
  | word :: rest => word_outline place word ++ words_outline place rest

def word_outline (place : Place) : Word → List Site
  | .mk value none => [.word place (.mk value none) []]
  | .mk value (some pieces) => [.word place (.mk value (some pieces)) (pieces_outline pieces)]

def pieces_outline : List WordPieceWithSource → List Site
  | [] => []
  | .mk piece _ _ :: rest => word_piece_outline piece ++ pieces_outline rest

def word_piece_outline : WordPiece → List Site
  | .Text _ => []
  | .SingleQuotedText _ => []
  | .AnsiCQuotedText _ => []
  | .EscapeSequence _ => []
  | .TildePrefix _ => []
  | .DoubleQuotedSequence pieces => pieces_outline pieces
  | .GettextDoubleQuotedSequence pieces => pieces_outline pieces
  | .ParameterExpansion expr => parameter_expr_outline expr
  | .ArithmeticExpression expr => word_outline .word expr
  | .CommandSubstitution command => script_outline command
  | .BackquotedCommandSubstitution command => script_outline command

def script_outline : Script → List Site
  | .mk _ none => []
  | .mk _ (some program) => program_outline program

def parameter_outline : Parameter → List Site
  | .Positional _ => []
  | .Special _ => []
  | .Named _ => []
  | .NamedWithIndex _ index => word_outline .parameter_subscript index
  | .NamedWithAllIndices _ _ => []

def parameter_expr_outline : ParameterExpr → List Site
  | .Parameter parameter _ => parameter_outline parameter
  | .ParameterLength parameter _ => parameter_outline parameter
  | .Transform parameter _ => parameter_outline parameter
  | .VariableNames _ _ => []
  | .MemberKeys _ _ => []
  | .UseDefaultValues parameter _ default_value =>
    parameter_outline parameter ++ optional_word_outline .word default_value
  | .AssignDefaultValues parameter _ default_value =>
    parameter_outline parameter ++ optional_word_outline .word default_value
  | .IndicateErrorIfNullOrUnset parameter _ error_message =>
    parameter_outline parameter ++ optional_word_outline .word error_message
  | .UseAlternativeValue parameter _ alternative_value =>
    parameter_outline parameter ++ optional_word_outline .word alternative_value
  | .RemoveSmallestSuffixPattern parameter _ pattern =>
    parameter_outline parameter ++ optional_word_outline .word pattern
  | .RemoveLargestSuffixPattern parameter _ pattern =>
    parameter_outline parameter ++ optional_word_outline .word pattern
  | .RemoveSmallestPrefixPattern parameter _ pattern =>
    parameter_outline parameter ++ optional_word_outline .word pattern
  | .RemoveLargestPrefixPattern parameter _ pattern =>
    parameter_outline parameter ++ optional_word_outline .word pattern
  | .UppercaseFirstChar parameter _ pattern =>
    parameter_outline parameter ++ optional_word_outline .word pattern
  | .UppercasePattern parameter _ pattern =>
    parameter_outline parameter ++ optional_word_outline .word pattern
  | .LowercaseFirstChar parameter _ pattern =>
    parameter_outline parameter ++ optional_word_outline .word pattern
  | .LowercasePattern parameter _ pattern =>
    parameter_outline parameter ++ optional_word_outline .word pattern
  | .Substring parameter _ offset length =>
    parameter_outline parameter ++ word_outline .word offset ++ optional_word_outline .word length
  | .ReplaceSubstring parameter _ pattern replacement =>
    parameter_outline parameter ++ word_outline .word pattern ++ optional_word_outline .word replacement

def compound_command_outline : CompoundCommand → List Site
  | .BraceGroup list => compound_list_outline list
  | .Subshell list => compound_list_outline list
  | .ForClause none body => compound_list_outline body
  | .ForClause (some values) body => words_outline .word values ++ compound_list_outline body
  | .CaseClause value cases => word_outline .word value ++ cases_outline cases
  | .IfClause condition then_branch none =>
    compound_list_outline condition ++ compound_list_outline then_branch
  | .IfClause condition then_branch (some elses) =>
    compound_list_outline condition ++ compound_list_outline then_branch ++ elses_outline elses
  | .WhileClause condition body => compound_list_outline condition ++ compound_list_outline body
  | .UntilClause condition body => compound_list_outline condition ++ compound_list_outline body
  | .ArithmeticForClause initializer condition updater body =>
    optional_word_outline .arithmetic_for_header initializer ++
      optional_word_outline .arithmetic_for_header condition ++
      optional_word_outline .arithmetic_for_header updater ++ compound_list_outline body
  | .Arithmetic expr => word_outline .arithmetic_command expr

def cases_outline : List CaseItem → List Site
  | [] => []
  | .mk patterns none :: rest => words_outline .case_pattern patterns ++ cases_outline rest
  | .mk patterns (some body) :: rest =>
    words_outline .case_pattern patterns ++ compound_list_outline body ++ cases_outline rest

def elses_outline : List ElseClause → List Site
  | [] => []
  | .mk none body :: rest => compound_list_outline body ++ elses_outline rest
  | .mk (some condition) body :: rest =>
    compound_list_outline condition ++ compound_list_outline body ++ elses_outline rest

def extended_test_expr_outline : ExtendedTestExpr → List Site
  | .Not inner => extended_test_expr_outline inner
  | .Parenthesized inner => extended_test_expr_outline inner
  | .And left right => extended_test_expr_outline left ++ extended_test_expr_outline right
  | .Or left right => extended_test_expr_outline left ++ extended_test_expr_outline right
  | .UnaryTest word => word_outline .word word
  | .BinaryTest left right => word_outline .word left ++ word_outline .word right

end

mutual

/-- The sites a search comes to that looks into the words at some places only. -/
def Site.reached (looks : Place → Bool) : Site → List Site
  | .command command => [.command command]
  | .redirect redirect => [.redirect redirect]
  | .process_substitution => [.process_substitution]
  | .word place word inside =>
    if looks place then .word place word inside :: reached looks inside else []

def reached (looks : Place → Bool) : List Site → List Site
  | [] => []
  | site :: rest => site.reached looks ++ reached looks rest

end

@[simp] theorem reached_redirects (looks : Place → Bool) (redirects : List IoRedirect) :
    reached looks (redirects.map .redirect) = redirects.map .redirect := by
  induction redirects with
  | nil => rfl
  | cons redirect rest ih =>
    rw [List.map_cons, reached, ih]
    rfl

@[simp] theorem reached_append (looks : Place → Bool) (sites others : List Site) :
    reached looks (sites ++ others) = reached looks sites ++ reached looks others := by
  induction sites with
  | nil => rfl
  | cons site rest ih => rw [List.cons_append, reached, reached, ih, List.append_assoc]

mutual

/-- Looking into more places comes to more sites. -/
theorem Site.reached_mono {few many : Place → Bool} (h : ∀ place, few place = true → many place = true) :
    ∀ (site : Site) {other : Site}, other ∈ site.reached few → other ∈ site.reached many
  | .command _, _, hmem => hmem
  | .redirect _, _, hmem => hmem
  | .process_substitution, _, hmem => hmem
  | .word place word inside, other, hmem => by
    rw [Site.reached] at hmem ⊢
    split at hmem
    · rename_i hfew
      rw [if_pos (h place hfew)]
      rcases List.mem_cons.mp hmem with rfl | hin
      · exact List.mem_cons_self
      · exact List.mem_cons_of_mem _ (zed.shell_command.reached_mono h inside hin)
    · cases hmem

theorem reached_mono {few many : Place → Bool} (h : ∀ place, few place = true → many place = true) :
    ∀ (sites : List Site) {other : Site}, other ∈ reached few sites → other ∈ reached many sites
  | [], _, hmem => hmem
  | site :: rest, other, hmem => by
    rw [reached, List.mem_append] at hmem ⊢
    exact hmem.imp (Site.reached_mono h site) (reached_mono h rest)

end

theorem mem_reached_command (looks : Place → Bool) {sites : List Site} {command : SimpleCommand}
    (h : .command command ∈ sites) : .command command ∈ reached looks sites := by
  obtain ⟨before, after, rfl⟩ := List.append_of_mem h
  rw [reached_append, reached]
  simp [Site.reached]

theorem mem_reached_redirect (looks : Place → Bool) {sites : List Site} {redirect : IoRedirect}
    (h : .redirect redirect ∈ sites) : .redirect redirect ∈ reached looks sites := by
  obtain ⟨before, after, rfl⟩ := List.append_of_mem h
  rw [reached_append, reached]
  simp [Site.reached]

theorem mem_reached_word {looks : Place → Bool} {sites : List Site} {place : Place} {word : Word}
    {inside : List Site} (h : .word place word inside ∈ sites) (hlooks : looks place = true) :
    .word place word inside ∈ reached looks sites := by
  obtain ⟨before, after, rfl⟩ := List.append_of_mem h
  rw [reached_append, reached, Site.reached, if_pos hlooks]
  simp

mutual

theorem Site.looks_of_mem_reached {looks : Place → Bool} {place : Place} {word : Word} {inside : List Site} :
    ∀ site : Site, .word place word inside ∈ site.reached looks → looks place = true
  | .command _, h => by cases List.mem_singleton.mp h
  | .redirect _, h => by cases List.mem_singleton.mp h
  | .process_substitution, h => by cases List.mem_singleton.mp h
  | .word other _ others, h => by
    rw [Site.reached] at h
    split at h
    · rename_i hlooks
      rcases List.mem_cons.mp h with heq | hin
      · cases heq
        exact hlooks
      · exact zed.shell_command.looks_of_mem_reached others hin
    · cases h

theorem looks_of_mem_reached {looks : Place → Bool} {place : Place} {word : Word} {inside : List Site} :
    ∀ sites : List Site, .word place word inside ∈ reached looks sites → looks place = true
  | [], h => by cases h
  | site :: rest, h => by
    rw [reached, List.mem_append] at h
    exact h.elim (Site.looks_of_mem_reached site) (looks_of_mem_reached rest)

end

/-- A search through words with nothing inside stays among the sites. -/
theorem mem_of_mem_reached {looks : Place → Bool} {sites : List Site}
    (h : ∀ place word inside, .word place word inside ∈ sites → looks place = true → inside = [])
    {site : Site} (hsite : site ∈ reached looks sites) : site ∈ sites := by
  induction sites with
  | nil => exact hsite
  | cons first rest ih =>
    rw [reached, List.mem_append] at hsite
    rcases hsite with hsite | hsite
    · have hfirst : site = first := by
        cases first with
        | word place word inside =>
          rw [Site.reached] at hsite
          split at hsite
          · rename_i hlooks
            have hinside := h place word inside List.mem_cons_self hlooks
            subst hinside
            exact List.mem_singleton.mp hsite
          · cases hsite
        | _ => exact List.mem_singleton.mp hsite
      rw [hfirst]
      exact List.mem_cons_self
    · exact List.mem_cons_of_mem _ (ih (fun place word inside hmem =>
        h place word inside (List.mem_cons_of_mem _ hmem)) hsite)

end zed.shell_command
