import Zed.Shell.Extract
import Zed.Shell.Outline

open zed.brush

namespace zed.shell_command

def text (command : SimpleCommand) : Option String :=
  (normalize_simple_command command).map Normalized.command_str

/-- The places whose words the extraction looks into. -/
def Place.looked (place : Place) : Bool := place = .word

def Site.Adds : Site → String → Prop
  | .command simple_command, s => text simple_command = some s ∧ s ≠ ""
  | .redirect io_redirect, s => normalize_io_redirect io_redirect = some (.Normalized s)
  | .process_substitution, _ => False
  | .word _ _ _, _ => False

theorem append_space_ne_empty (lead rest : String) : lead ++ " " ++ rest ≠ "" := by
  intro h
  have hlist := congrArg String.toList h
  simp at hlist

theorem Site.Adds.ne_empty {site : Site} {s : String} (h : site.Adds s) : s ≠ "" := by
  cases site with
  | command simple_command => exact h.2
  | redirect io_redirect =>
    change normalize_io_redirect io_redirect = some (.Normalized s) at h
    unfold normalize_io_redirect at h
    split at h
    · obtain ⟨normalized, -, h⟩ := Option.bind_eq_some_iff.mp h
      split at h
      · cases h
      · cases h
        exact append_space_ne_empty _ _
    · cases h
    · obtain ⟨normalized, -, h⟩ := Option.bind_eq_some_iff.mp h
      split at h
      · cases h
      · cases h
        exact append_space_ne_empty _ _
    · cases h
    · cases h
  | process_substitution => exact h.elim
  | word place word inside => exact h.elim

/-- Every command and redirection among the sites normalizes, and the strings are
    those that the sites add. -/
structure Extracts (sites : List Site) (strings : List String) : Prop where
  text : ∀ command, .command command ∈ sites → (text command).isSome
  redirect : ∀ redirect, .redirect redirect ∈ sites → (normalize_io_redirect redirect).isSome
  mem : ∀ s, s ∈ strings ↔ ∃ site ∈ sites, site.Adds s

theorem Extracts.nil : Extracts [] [] := ⟨by simp, by simp, by simp⟩

theorem Extracts.append {sites others : List Site} {strings more : List String}
    (h : Extracts sites strings) (hmore : Extracts others more) :
    Extracts (sites ++ others) (strings ++ more) where
  text command hmem := (List.mem_append.mp hmem).elim (h.text command) (hmore.text command)
  redirect redirect hmem := (List.mem_append.mp hmem).elim (h.redirect redirect) (hmore.redirect redirect)
  mem s := by
    rw [List.mem_append, h.mem, hmore.mem]
    constructor
    · rintro (⟨site, hsite, hadds⟩ | ⟨site, hsite, hadds⟩)
      · exact ⟨site, List.mem_append_left _ hsite, hadds⟩
      · exact ⟨site, List.mem_append_right _ hsite, hadds⟩
    · rintro ⟨site, hsite, hadds⟩
      exact (List.mem_append.mp hsite).imp (fun h => ⟨site, h, hadds⟩) fun h => ⟨site, h, hadds⟩

theorem Extracts.word (place : Place) (word : Word) (inside : List Site) :
    Extracts [.word place word inside] [] := ⟨by simp, by simp, by simp [Site.Adds]⟩

theorem Extracts.process_substitution : Extracts [.process_substitution] [] :=
  ⟨by simp, by simp, by simp [Site.Adds]⟩

/-- A traversal adds the strings of the sites that it comes to, or fails. -/
def Searches (extract : List String → Option (List String)) (sites : List Site) : Prop :=
  ∀ commands extracted, extract commands = some extracted →
    ∃ strings, extracted = commands ++ strings ∧ Extracts (reached Place.looked sites) strings

theorem Searches.nil : Searches some [] := by
  intro commands extracted h
  cases h
  exact ⟨[], (List.append_nil _).symm, Extracts.nil⟩

theorem Searches.append {first second : List String → Option (List String)} {sites others : List Site}
    (hfirst : Searches first sites) (hsecond : Searches second others) :
    Searches (fun commands => first commands >>= second) (sites ++ others) := by
  intro commands extracted h
  obtain ⟨middle, hmiddle, hlast⟩ := Option.bind_eq_some_iff.mp h
  obtain ⟨strings, rfl, hstrings⟩ := hfirst _ _ hmiddle
  obtain ⟨more, rfl, hmore⟩ := hsecond _ _ hlast
  refine ⟨strings ++ more, List.append_assoc _ _ _, ?_⟩
  rw [reached_append]
  exact hstrings.append hmore

theorem Searches.unnoticed {extract : List String → Option (List String)} {hidden sites : List Site}
    (hhidden : reached Place.looked hidden = []) (h : Searches extract sites) :
    Searches extract (hidden ++ sites) := by
  intro commands extracted hextract
  obtain ⟨strings, hstrings, hextracts⟩ := h _ _ hextract
  refine ⟨strings, hstrings, ?_⟩
  rwa [reached_append, hhidden]

theorem Searches.then_unnoticed {extract : List String → Option (List String)} {hidden sites : List Site}
    (h : Searches extract sites) (hhidden : reached Place.looked hidden = []) :
    Searches extract (sites ++ hidden) := by
  intro commands extracted hextract
  obtain ⟨strings, hstrings, hextracts⟩ := h _ _ hextract
  refine ⟨strings, hstrings, ?_⟩
  rwa [reached_append, hhidden, List.append_nil]

theorem reached_word_outline {place : Place} (h : place ≠ .word) (word : Word) :
    reached Place.looked (word_outline place word) = [] := by
  obtain ⟨value, pieces⟩ := word
  cases pieces <;> simp [word_outline, reached, Site.reached, Place.looked, h]

theorem reached_optional_word_outline {place : Place} (h : place ≠ .word) (word : Option Word) :
    reached Place.looked (optional_word_outline place word) = [] := by
  cases word with
  | none => rfl
  | some word => exact reached_word_outline h word

theorem reached_words_outline {place : Place} (h : place ≠ .word) (words : List Word) :
    reached Place.looked (words_outline place words) = [] := by
  induction words with
  | nil => rfl
  | cons word rest ih => rw [words_outline, reached_append, reached_word_outline h, ih]; rfl

theorem reached_assignment_name_outline (name : AssignmentName) :
    reached Place.looked (assignment_name_outline name) = [] := by
  cases name with
  | VariableName name => rfl
  | ArrayElementName name index => exact reached_word_outline (by decide) index

theorem reached_parameter_outline (parameter : Parameter) :
    reached Place.looked (parameter_outline parameter) = [] := by
  cases parameter with
  | NamedWithIndex name index => exact reached_word_outline (by decide) index
  | _ => rfl

theorem Searches.after_parameter {extract : List String → Option (List String)} {sites : List Site}
    (h : Searches extract sites) (parameter : Parameter) :
    Searches extract (parameter_outline parameter ++ sites) :=
  h.unnoticed (reached_parameter_outline parameter)

theorem Searches.parameter (parameter : Parameter) : Searches some (parameter_outline parameter) := by
  rw [← List.append_nil (parameter_outline parameter)]
  exact Searches.nil.after_parameter parameter

/-- The strings are those of the redirections, which all normalize. -/
def Renders (redirects : List IoRedirect) (strings : List String) : Prop :=
  Extracts (redirects.map .redirect) strings

theorem Renders.nil : Renders [] [] := Extracts.nil

theorem renders_normalized {redirect : IoRedirect} {s : String}
    (h : normalize_io_redirect redirect = some (.Normalized s)) : Renders [redirect] [s] := by
  constructor
  · simp
  · simp [h]
  · simp [Site.Adds, h, eq_comm]

theorem renders_skip {redirect : IoRedirect} (h : normalize_io_redirect redirect = some .Skip) :
    Renders [redirect] [] := by
  constructor
  · simp
  · simp [h]
  · simp [Site.Adds, h]

theorem Renders.append {redirects others : List IoRedirect} {strings more : List String}
    (h : Renders redirects strings) (hmore : Renders others more) :
    Renders (redirects ++ others) (strings ++ more) := by
  rw [Renders, List.map_append]
  exact Extracts.append h hmore

theorem normalize_redirects_renders {redirects : List IoRedirect} {before after : List String}
    (h : normalize_redirects redirects before = some after) :
    ∃ strings, after = before ++ strings ∧ Renders redirects strings := by
  induction redirects generalizing before with
  | nil =>
    cases h
    exact ⟨[], (List.append_nil _).symm, Renders.nil⟩
  | cons redirect rest ih =>
    rw [normalize_redirects] at h
    obtain ⟨normalization, hnormalize, h⟩ := Option.bind_eq_some_iff.mp h
    cases normalization with
    | Normalized s =>
      obtain ⟨strings, rfl, hrest⟩ := ih h
      exact ⟨s :: strings, by simp, (renders_normalized hnormalize).append hrest⟩
    | Skip =>
      obtain ⟨strings, rfl, hrest⟩ := ih h
      exact ⟨strings, rfl, (renders_skip hnormalize).append hrest⟩

theorem normalize_items_renders {in_suffix : Bool} {items : List CommandPrefixOrSuffixItem}
    {before after : Normalized} (h : normalize_items in_suffix items before = some after) :
    ∃ strings, after.redirects = before.redirects ++ strings ∧ Renders (item_redirects items) strings := by
  induction items generalizing before with
  | nil =>
    cases h
    exact ⟨[], (List.append_nil _).symm, Renders.nil⟩
  | cons item rest ih =>
    cases item with
    | IoRedirect redirect =>
      rw [normalize_items] at h
      obtain ⟨normalization, hnormalize, h⟩ := Option.bind_eq_some_iff.mp h
      obtain ⟨strings, hstrings, hrest⟩ := ih h
      cases normalization with
      | Normalized s =>
        exact ⟨s :: strings, by simpa [Normalized.push_redirect] using hstrings,
          (renders_normalized hnormalize).append hrest⟩
      | Skip => exact ⟨strings, hstrings, (renders_skip hnormalize).append hrest⟩
    | AssignmentWord assignment word =>
      rw [normalize_items] at h
      obtain ⟨normalization, -, h⟩ := Option.bind_eq_some_iff.mp h
      cases normalization with
      | Included text => exact @ih (before.push_word text) h
      | Skipped => exact ih h
    | Word word =>
      rw [normalize_items] at h
      obtain ⟨word, -, h⟩ := Option.bind_eq_some_iff.mp h
      exact @ih (before.push_word word) h
    | ProcessSubstitution list =>
      rw [normalize_items] at h
      split at h
      · exact ih h
      · cases h

theorem extend_simple_searches (prefix_items : List CommandPrefixOrSuffixItem)
    (word_or_name : Option Word) (suffix_items : List CommandPrefixOrSuffixItem) :
    Searches (extend_simple (.mk prefix_items word_or_name suffix_items))
      ([.command (.mk prefix_items word_or_name suffix_items)] ++
        (item_redirects prefix_items).map .redirect ++ (item_redirects suffix_items).map .redirect) := by
  intro commands extracted h
  obtain ⟨normalized, hnormalized, h⟩ := Option.bind_eq_some_iff.mp h
  have htext : text (.mk prefix_items word_or_name suffix_items) = some normalized.command_str := by
    rw [text, hnormalized]
    rfl
  have hredirects : Renders (item_redirects prefix_items ++ item_redirects suffix_items)
      normalized.redirects := by
    obtain ⟨first, hfirst, hrest⟩ := Option.bind_eq_some_iff.mp hnormalized
    obtain ⟨second, hsecond, hlast⟩ := Option.bind_eq_some_iff.mp hrest
    obtain ⟨before, hbefore, hrenders⟩ := normalize_items_renders hfirst
    obtain ⟨after, hafter, hmore⟩ := normalize_items_renders hlast
    have hname : second.redirects = first.redirects := by
      cases word_or_name with
      | none =>
        cases hsecond
        rfl
      | some word =>
        rw [normalize_name] at hsecond
        obtain ⟨name, -, rfl⟩ := Option.map_eq_some_iff.mp hsecond
        rfl
    rw [hafter, hname, hbefore, List.nil_append]
    exact hrenders.append hmore
  obtain ⟨_, -, hextracted⟩ := Option.bind_eq_some_iff.mp h
  have hcommand : Extracts [.command (.mk prefix_items word_or_name suffix_items)]
      (if normalized.command_str = "" then [] else [normalized.command_str]) := by
    constructor
    · simp [htext]
    · simp
    · intro s
      by_cases hempty : normalized.command_str = ""
      · simp [Site.Adds, htext, hempty]
      · simp only [if_neg hempty, List.mem_singleton, exists_eq_left, Site.Adds, htext, Option.some.injEq]
        constructor
        · rintro rfl
          exact ⟨rfl, hempty⟩
        · exact fun hs => hs.1.symm
  refine ⟨(if normalized.command_str = "" then [] else [normalized.command_str]) ++ normalized.redirects,
    ?_, ?_⟩
  · cases hextracted
    by_cases hempty : normalized.command_str = "" <;> simp [hempty]
  · rw [Renders, List.map_append] at hredirects
    rw [List.append_assoc, reached_append, reached_append, reached_redirects, reached_redirects]
    exact hcommand.append hredirects

theorem extend_redirects_searches (redirects : List IoRedirect) (body_start : Nat) :
    Searches (extend_redirects redirects body_start) (redirects.map .redirect) := by
  intro commands extracted h
  obtain ⟨normalized_redirects, hnormalize, h⟩ := Option.bind_eq_some_iff.mp h
  obtain ⟨_, -, hextracted⟩ := Option.bind_eq_some_iff.mp h
  obtain ⟨strings, hstrings, hrenders⟩ := normalize_redirects_renders hnormalize
  rw [List.nil_append] at hstrings
  subst hstrings
  cases hextracted
  refine ⟨normalized_redirects, rfl, ?_⟩
  rw [reached_redirects]
  exact hrenders

theorem Searches.body {first second : List String → Option (List String)} {sites others : List Site}
    (hfirst : Searches first sites) (hsecond : Searches second others) :
    Searches (fun commands => (first commands >>= fun commands => second commands >>= fun extracted =>
      some (commands.length, extracted)).map Prod.snd) (sites ++ others) := by
  intro commands extracted hextract
  obtain ⟨⟨start, found⟩, hfound, rfl⟩ := Option.map_eq_some_iff.mp hextract
  obtain ⟨middle, hmiddle, hrest⟩ := Option.bind_eq_some_iff.mp hfound
  obtain ⟨all, hall, heq⟩ := Option.bind_eq_some_iff.mp hrest
  cases heq
  exact hfirst.append hsecond _ _ (Option.bind_eq_some_iff.mpr ⟨middle, hmiddle, hall⟩)

theorem Searches.redirected {compound : List String → Option (Nat × List String)}
    {redirect : List String → Option (List String)} {sites others : List Site}
    {redirects : List IoRedirect} (hcompound : Searches (fun commands => (compound commands).map Prod.snd) sites)
    (hredirect : Searches redirect others) :
    Searches (fun commands => compound commands >>= fun found =>
      extend_redirects redirects found.1 found.2 >>= redirect)
      (sites ++ redirects.map .redirect ++ others) := by
  intro commands extracted hextract
  obtain ⟨⟨start, found⟩, hfound, hrest⟩ := Option.bind_eq_some_iff.mp hextract
  have hmap : (compound commands).map Prod.snd = some found := by rw [hfound]; rfl
  obtain ⟨strings, rfl, hstrings⟩ := hcompound _ _ hmap
  obtain ⟨more, rfl, hmore⟩ := (extend_redirects_searches redirects start).append hredirect _ _ hrest
  refine ⟨strings ++ more, List.append_assoc _ _ _, ?_⟩
  rw [List.append_assoc, reached_append]
  exact hstrings.append hmore

theorem Searches.snd {compound : List String → Option (Nat × List String)} {sites : List Site}
    (h : Searches (fun commands => (compound commands).map Prod.snd) sites) :
    Searches (fun commands => compound commands >>= fun found => some found.2) sites := by
  intro commands extracted hextract
  obtain ⟨found, hfound, heq⟩ := Option.bind_eq_some_iff.mp hextract
  cases heq
  exact h _ _ (Option.map_eq_some_iff.mpr ⟨found, hfound, rfl⟩)

theorem Searches.look {extract : List String → Option (List String)} {sites : List Site} (word : Word)
    (h : Searches extract sites) : Searches extract [.word .word word sites] := by
  intro commands extracted hextract
  obtain ⟨strings, hstrings, hextracts⟩ := h _ _ hextract
  refine ⟨strings, hstrings, ?_⟩
  have hreached : reached Place.looked [.word .word word sites] =
      [.word .word word sites] ++ reached Place.looked sites := by
    simp [reached, Site.reached, Place.looked]
  rw [hreached]
  exact (Extracts.word .word word sites).append hextracts

theorem Searches.substitution {extract : List String → Option (List String)} {sites : List Site}
    (h : Searches extract sites) : Searches extract (.process_substitution :: sites) := by
  intro commands extracted hextract
  obtain ⟨strings, hstrings, hextracts⟩ := h _ _ hextract
  exact ⟨strings, hstrings, Extracts.process_substitution.append hextracts⟩

theorem Searches.none {sites : List Site} : Searches (fun _ => .none) sites := by
  intro commands extracted hextract
  cases hextract

theorem Searches.script {extract : List String → Option (List String)} {sites : List Site}
    (h : Searches extract sites) :
    Searches (fun commands => extract [] >>= fun nested => some (commands ++ nested)) sites := by
  intro commands extracted hextract
  obtain ⟨nested, hnested, heq⟩ := Option.bind_eq_some_iff.mp hextract
  obtain ⟨strings, hall, hstrings⟩ := h _ _ hnested
  rw [List.nil_append] at hall
  subst hall
  cases heq
  exact ⟨nested, rfl, hstrings⟩

mutual

theorem program_searches : ∀ program, Searches (extract_commands_from_program program) (program_outline program)
  | .mk complete_commands => lists_search complete_commands

theorem lists_search : ∀ lists, Searches (extract_commands_from_lists lists) (compound_lists_outline lists)
  | [] => Searches.nil
  | list :: rest => (compound_list_searches list).append (lists_search rest)

theorem compound_list_searches : ∀ list,
    Searches (extract_commands_from_compound_list list) (compound_list_outline list)
  | .mk items => and_or_lists_search items

theorem and_or_lists_search : ∀ items,
    Searches (extract_commands_from_and_or_lists items) (and_or_lists_outline items)
  | [] => Searches.nil
  | item :: rest => (and_or_list_searches item).append (and_or_lists_search rest)

theorem and_or_list_searches : ∀ item,
    Searches (extract_commands_from_and_or_list item) (and_or_list_outline item)
  | .mk first additional => (pipeline_searches first).append (and_ors_search additional)

theorem and_ors_search : ∀ items, Searches (extract_commands_from_and_ors items) (and_ors_outline items)
  | [] => Searches.nil
  | .And pipeline :: rest => (pipeline_searches pipeline).append (and_ors_search rest)
  | .Or pipeline :: rest => (pipeline_searches pipeline).append (and_ors_search rest)

theorem pipeline_searches : ∀ pipeline,
    Searches (extract_commands_from_pipeline pipeline) (pipeline_outline pipeline)
  | .mk seq => commands_search seq

theorem commands_search : ∀ commands,
    Searches (extract_commands_from_commands commands) (commands_outline commands)
  | [] => Searches.nil
  | command :: rest => (command_searches command).append (commands_search rest)

theorem command_searches : ∀ command,
    Searches (extract_commands_from_command command) (command_outline command)
  | .Simple simple_command => simple_command_searches simple_command
  | .Compound compound_command none => (compound_command_searches compound_command).snd
  | .Compound compound_command (some redirects) =>
    (compound_command_searches compound_command).redirected (redirects_search redirects)
  | .Function body none => (compound_command_searches body).snd
  | .Function body (some redirects) =>
    (compound_command_searches body).redirected (redirects_search redirects)
  | .ExtendedTest expr => extended_test_expr_searches expr

theorem simple_command_searches : ∀ command,
    Searches (extract_commands_from_simple_command command) (simple_command_outline command)
  | .mk prefix_items word_or_name suffix_items => by
    rw [simple_command_outline, List.append_assoc, List.append_assoc]
    exact (extend_simple_searches prefix_items word_or_name suffix_items).append
      ((items_search prefix_items).append
        ((optional_word_searches word_or_name).append (items_search suffix_items)))

theorem optional_word_searches : ∀ word,
    Searches (extract_commands_from_optional_word word) (optional_word_outline .word word)
  | none => Searches.nil
  | some word => word_searches word

theorem items_search : ∀ items, Searches (extract_commands_from_items items) (items_outline items)
  | [] => Searches.nil
  | item :: rest => (item_searches item).append (items_search rest)

theorem item_searches : ∀ item,
    Searches (extract_commands_from_prefix_or_suffix_item item) (prefix_or_suffix_item_outline item)
  | .IoRedirect redirect => io_redirect_searches redirect
  | .Word word => word_searches word
  | .AssignmentWord assignment word =>
    (assignment_searches assignment).then_unnoticed (reached_word_outline (by decide) word)
  | .ProcessSubstitution list => (compound_list_searches list).substitution

theorem redirects_search : ∀ redirects,
    Searches (extract_commands_from_redirects redirects) (redirect_list_outline redirects)
  | [] => Searches.nil
  | redirect :: rest => (io_redirect_searches redirect).append (redirects_search rest)

theorem io_redirect_searches : ∀ redirect,
    Searches (extract_commands_from_io_redirect redirect) (io_redirect_outline redirect)
  | .File _ _ (.Filename word) => word_searches word
  | .File _ _ (.ProcessSubstitution list) => (compound_list_searches list).substitution
  | .File _ _ (.Fd _) => Searches.nil
  | .File _ _ (.Duplicate word) => Searches.nil.then_unnoticed (reached_word_outline (by decide) word)
  | .HereDocument _ true doc => word_searches doc
  | .HereDocument _ false _ => Searches.nil
  | .HereString _ word => word_searches word
  | .OutputAndError word _ => word_searches word

theorem assignment_searches : ∀ assignment,
    Searches (extract_commands_from_assignment assignment) (assignment_outline assignment)
  | .mk name (.Scalar word) _ => (word_searches word).unnoticed (reached_assignment_name_outline name)
  | .mk name (.Array words) _ => (elements_search words).unnoticed (reached_assignment_name_outline name)

theorem elements_search : ∀ elements,
    Searches (extract_commands_from_elements elements) (elements_outline elements)
  | [] => Searches.nil
  | .mk key value :: rest => by
    rw [elements_outline, List.append_assoc]
    exact (optional_word_searches key).append ((word_searches value).append (elements_search rest))

theorem word_searches : ∀ word, Searches (extract_commands_from_word word) (word_outline .word word)
  | .mk _ none => Searches.none
  | .mk value (some pieces) => (pieces_search pieces).look (.mk value (some pieces))

theorem pieces_search : ∀ pieces, Searches (extract_commands_from_pieces pieces) (pieces_outline pieces)
  | [] => Searches.nil
  | .mk piece _ _ :: rest => (word_piece_searches piece).append (pieces_search rest)

theorem word_piece_searches : ∀ piece,
    Searches (extract_commands_from_word_piece piece) (word_piece_outline piece)
  | .Text _ => Searches.nil
  | .SingleQuotedText _ => Searches.nil
  | .AnsiCQuotedText _ => Searches.nil
  | .EscapeSequence _ => Searches.nil
  | .TildePrefix _ => Searches.nil
  | .DoubleQuotedSequence pieces => pieces_search pieces
  | .GettextDoubleQuotedSequence pieces => pieces_search pieces
  | .ArithmeticExpression expr => word_searches expr
  | .ParameterExpansion expr => parameter_expr_searches expr
  | .CommandSubstitution command => script_searches command
  | .BackquotedCommandSubstitution command => script_searches command

theorem script_searches : ∀ script,
    Searches (fun commands => extract_commands script >>= fun nested => some (commands ++ nested))
      (script_outline script)
  | .mk _ none => Searches.none
  | .mk _ (some program) => (program_searches program).script

theorem parameter_expr_searches : ∀ expr,
    Searches (extract_commands_from_parameter_expr expr) (parameter_expr_outline expr)
  | .Parameter parameter _ => Searches.parameter parameter
  | .ParameterLength parameter _ => Searches.parameter parameter
  | .Transform parameter _ => Searches.parameter parameter
  | .VariableNames _ _ => Searches.nil
  | .MemberKeys _ _ => Searches.nil
  | .UseDefaultValues parameter _ value => (optional_word_searches value).after_parameter parameter
  | .AssignDefaultValues parameter _ value => (optional_word_searches value).after_parameter parameter
  | .IndicateErrorIfNullOrUnset parameter _ value => (optional_word_searches value).after_parameter parameter
  | .UseAlternativeValue parameter _ value => (optional_word_searches value).after_parameter parameter
  | .RemoveSmallestSuffixPattern parameter _ value => (optional_word_searches value).after_parameter parameter
  | .RemoveLargestSuffixPattern parameter _ value => (optional_word_searches value).after_parameter parameter
  | .RemoveSmallestPrefixPattern parameter _ value => (optional_word_searches value).after_parameter parameter
  | .RemoveLargestPrefixPattern parameter _ value => (optional_word_searches value).after_parameter parameter
  | .UppercaseFirstChar parameter _ value => (optional_word_searches value).after_parameter parameter
  | .UppercasePattern parameter _ value => (optional_word_searches value).after_parameter parameter
  | .LowercaseFirstChar parameter _ value => (optional_word_searches value).after_parameter parameter
  | .LowercasePattern parameter _ value => (optional_word_searches value).after_parameter parameter
  | .Substring parameter _ offset length => by
    rw [parameter_expr_outline, List.append_assoc]
    exact ((word_searches offset).append (optional_word_searches length)).after_parameter parameter
  | .ReplaceSubstring parameter _ pattern replacement => by
    rw [parameter_expr_outline, List.append_assoc]
    exact ((word_searches pattern).append (optional_word_searches replacement)).after_parameter parameter

theorem compound_command_searches : ∀ command,
    Searches (fun commands => (extract_commands_from_compound_command command commands).map Prod.snd)
      (compound_command_outline command)
  | .BraceGroup list => Searches.nil.body (compound_list_searches list)
  | .Subshell list => Searches.nil.body (compound_list_searches list)
  | .ForClause none body => Searches.nil.body (compound_list_searches body)
  | .ForClause (some values) body => (words_search values).body (compound_list_searches body)
  | .CaseClause value cases => (word_searches value).body (cases_search cases)
  | .IfClause condition then_branch none =>
    (compound_list_searches condition).body (compound_list_searches then_branch)
  | .IfClause condition then_branch (some elses) => by
    have h := (compound_list_searches condition).body
      ((compound_list_searches then_branch).append (elses_search elses))
    rw [compound_command_outline, List.append_assoc]
    simpa only [extract_commands_from_compound_command, Option.bind_eq_bind, Option.bind_assoc] using h
  | .WhileClause condition body => (compound_list_searches condition).body (compound_list_searches body)
  | .UntilClause condition body => (compound_list_searches condition).body (compound_list_searches body)
  | .ArithmeticForClause initializer condition updater body => by
    rw [compound_command_outline, List.append_assoc, List.append_assoc]
    exact (((Searches.nil.body (compound_list_searches body)).unnoticed
      (reached_optional_word_outline (by decide) updater)).unnoticed
      (reached_optional_word_outline (by decide) condition)).unnoticed
      (reached_optional_word_outline (by decide) initializer)
  | .Arithmetic expr => Searches.nil.then_unnoticed (reached_word_outline (by decide) expr)

theorem words_search : ∀ words, Searches (extract_commands_from_words words) (words_outline .word words)
  | [] => Searches.nil
  | word :: rest => (word_searches word).append (words_search rest)

theorem cases_search : ∀ cases, Searches (extract_commands_from_cases cases) (cases_outline cases)
  | [] => Searches.nil
  | .mk patterns none :: rest => (cases_search rest).unnoticed (reached_words_outline (by decide) patterns)
  | .mk patterns (some body) :: rest => by
    rw [cases_outline, List.append_assoc]
    exact ((compound_list_searches body).append (cases_search rest)).unnoticed
      (reached_words_outline (by decide) patterns)

theorem elses_search : ∀ elses, Searches (extract_commands_from_elses elses) (elses_outline elses)
  | [] => Searches.nil
  | .mk none body :: rest => (compound_list_searches body).append (elses_search rest)
  | .mk (some condition) body :: rest => by
    rw [elses_outline, List.append_assoc]
    exact (compound_list_searches condition).append ((compound_list_searches body).append (elses_search rest))

theorem extended_test_expr_searches : ∀ expr,
    Searches (extract_commands_from_extended_test_expr expr) (extended_test_expr_outline expr)
  | .Not inner => extended_test_expr_searches inner
  | .Parenthesized inner => extended_test_expr_searches inner
  | .And left right => (extended_test_expr_searches left).append (extended_test_expr_searches right)
  | .Or left right => (extended_test_expr_searches left).append (extended_test_expr_searches right)
  | .UnaryTest word => word_searches word
  | .BinaryTest left right => (word_searches left).append (word_searches right)

end

theorem extract_commands_extracts {input : Script} {commands : List String}
    (h : extract_commands input = some commands) :
    Extracts (reached Place.looked (script_outline input)) commands := by
  obtain ⟨strings, hstrings, hextracts⟩ := script_searches input [] commands
    (Option.bind_eq_some_iff.mpr ⟨commands, h, rfl⟩)
  rw [List.nil_append] at hstrings
  rwa [hstrings]

/-- The places whose words the shell expands by themselves. -/
def Place.expanded (place : Place) : Bool := place ≠ .assignment_word

/-- The list has the text of every simple command, wherever the shell comes to it. -/
def Complete (input : Script) (commands : List String) : Prop :=
  ∀ command, .command command ∈ reached Place.expanded (script_outline input) →
    ∃ s ∈ commands, text command = some s

/-- Every simple command has a text, and one that only a search of all words comes to
    has the text of something that the extraction comes to. -/
def Exposed (input : Script) : Prop :=
  ∀ command, .command command ∈ reached Place.expanded (script_outline input) →
    text command ≠ some "" ∧ (.command command ∈ reached Place.looked (script_outline input) ∨
      ∃ site ∈ reached Place.looked (script_outline input), ∃ s, text command = some s ∧ site.Adds s)

theorem looked_expanded (place : Place) (h : place.looked = true) : place.expanded = true := by
  rw [of_decide_eq_true h]
  decide

/-- The extraction is complete exactly when no command hides in the words that it
    does not look into: case patterns, arithmetic commands and headers, duplication
    targets and subscripts. -/
theorem extract_commands_complete {input : Script} {commands : List String}
    (h : extract_commands input = some commands) : Complete input commands ↔ Exposed input := by
  have hextracts := extract_commands_extracts h
  have hnonempty : ∀ s ∈ commands, s ≠ "" := by
    intro s hs
    obtain ⟨site, -, hadds⟩ := (hextracts.mem s).mp hs
    exact hadds.ne_empty
  constructor
  · intro hcomplete command hcommand
    obtain ⟨s, hs, htext⟩ := hcomplete command hcommand
    obtain ⟨site, hsite, hadds⟩ := (hextracts.mem s).mp hs
    refine ⟨?_, Or.inr ⟨site, hsite, s, htext, hadds⟩⟩
    rw [htext]
    exact fun heq => hnonempty s hs (Option.some.inj heq)
  · intro hexposed command hcommand
    obtain ⟨hne, hreached | ⟨site, hsite, s, htext, hadds⟩⟩ := hexposed command hcommand
    · obtain ⟨s, htext⟩ := Option.isSome_iff_exists.mp (hextracts.text command hreached)
      refine ⟨s, (hextracts.mem s).mpr ⟨_, hreached, htext, ?_⟩, htext⟩
      rintro rfl
      exact hne htext
    · exact ⟨s, (hextracts.mem s).mpr ⟨site, hsite, hadds⟩, htext⟩

/-- `ls` -/
def sample_list : Program :=
  .mk [.mk [.mk (.mk [.Simple (.mk [] (some (.mk "ls" (some [.mk (.Text "ls") 0 2]))) [])]) []]]

theorem sample_extract_commands_complete :
    extract_commands (.mk "ls" (some sample_list)) = some ["ls"] ∧
      (Complete (.mk "ls" (some sample_list)) ["ls"] ↔ Exposed (.mk "ls" (some sample_list))) :=
  ⟨by decide, extract_commands_complete (by decide)⟩

/-- `case x in $(ls)) ;; esac` -/
def sample_case : Script :=
  .mk "case x in $(ls)) ;; esac" (some (.mk [.mk [.mk (.mk [.Compound (.CaseClause
    (.mk "x" (some [.mk (.Text "x") 0 1]))
    [.mk [.mk "$(ls)" (some [.mk (.CommandSubstitution (.mk "ls" (some sample_list))) 0 5])] none])
    none]) []]]))

/-- The command of a case pattern is not among the extracted ones. -/
theorem sample_case_incomplete :
    extract_commands sample_case = some [] ∧
      ¬ ∀ input commands, extract_commands input = some commands → Complete input commands := by
  have hextract : extract_commands sample_case = some [] := by decide
  refine ⟨hextract, fun hall => ?_⟩
  have hcommand : Site.command (.mk [] (some (.mk "ls" (some [.mk (.Text "ls") 0 2]))) []) ∈
      reached Place.expanded (script_outline sample_case) := .tail _ (.tail _ (.head _))
  obtain ⟨s, hs, -⟩ := hall _ _ hextract _ hcommand
  cases hs

end zed.shell_command
