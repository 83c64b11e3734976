import Zed.Shell.Extract
import Zed.Shell.Validate

open zed.brush zed.shell_command

namespace zed.agent

inductive ShellKind
  | Posix | Csh | Tcsh | Rc | Fish | PowerShell | Pwsh | Nushell | Cmd | Xonsh | Elvish
deriving DecidableEq, Repr

def ShellKind.display : ShellKind → String
  | .Posix => "sh"
  | .Csh => "csh"
  | .Tcsh => "tcsh"
  | .Fish => "fish"
  | .PowerShell => "powershell"
  | .Pwsh => "pwsh"
  | .Nushell => "nu"
  | .Cmd => "cmd"
  | .Rc => "rc"
  | .Xonsh => "xonsh"
  | .Elvish => "elvish"

def ShellKind.supports_posix_chaining : ShellKind → Bool
  | .Posix | .Fish | .PowerShell | .Pwsh | .Cmd | .Xonsh | .Csh | .Tcsh | .Nushell | .Elvish | .Rc => true

inductive ToolPermissionMode
  | Allow
  | Deny
  | Confirm
deriving DecidableEq, Repr

/-- A pattern, by the texts that it matches. -/
structure CompiledRegex where
  is_match : String → Bool

structure InvalidRegexPattern where
  pattern : String
  rule_type : String
  error : String

structure ToolRules where
  default : Option ToolPermissionMode
  always_allow : List CompiledRegex
  always_deny : List CompiledRegex
  always_confirm : List CompiledRegex
  invalid_patterns : List InvalidRegexPattern

structure ToolPermissions where
  default : ToolPermissionMode
  tools : String → Option ToolRules

inductive ToolPermissionDecision
  | Allow
  | Deny (message : String)
  | Confirm
deriving DecidableEq, Repr

def HARDCODED_SECURITY_DENIAL_MESSAGE : String :=
  "Blocked by built-in security rule. This operation is considered too " ++
    "harmful to be allowed, and cannot be overridden by settings."

def INVALID_TERMINAL_COMMAND_MESSAGE : String :=
  "The terminal command could not be approved because terminal does not " ++
    "allow shell substitutions or interpolations in permission-protected commands. Forbidden examples " ++
    "include $VAR, $\x7bVAR\x7d, $(...), backticks, $((...)), <(...), and >(...). Resolve those values " ++
    "before calling terminal, or ask the user for the literal value to use."

/-- `TerminalTool::NAME` -/
def TERMINAL : String := "terminal"

def is_whitespace (c : Char) : Bool :=
  let n := c.toNat
  (9 ≤ n && n ≤ 13) || n = 0x20 || n = 0x85 || n = 0xA0 || n = 0x1680 || (0x2000 ≤ n && n ≤ 0x200A) ||
    n = 0x2028 || n = 0x2029 || n = 0x202F || n = 0x205F || n = 0x3000

def split_whitespace (text : String) : List String :=
  ((text.toList.splitOnP is_whitespace).filter (· ≠ [])).map String.ofList

/-- The loop of `normalize_path` over the parts of a path between its separators. -/
def normalize_components (is_absolute : Bool) : List String → List String → List String
  | components, [] => components
  | components, part :: rest =>
    if part = "" ∨ part = "." then normalize_components is_absolute components rest
    else if part = ".." then
      if components.getLast? = some ".." then normalize_components is_absolute (components ++ [".."]) rest
      else if components ≠ [] then normalize_components is_absolute components.dropLast rest
      else if is_absolute then normalize_components is_absolute components rest
      else normalize_components is_absolute [".."] rest
    else normalize_components is_absolute (components ++ [part]) rest

def has_root (path : String) : Bool := path.toList.head? = some '/'

def normalize_path (raw : String) : String :=
  let is_absolute := has_root raw
  let components := normalize_components is_absolute [] ((raw.toList.splitOn '/').map String.ofList)
  let joined := "/".intercalate components
  if is_absolute then "/" ++ joined else joined

/-- The flags and the paths of a command line after its first word. -/
def split_flags : Bool → List String → List String × List String
  | _, [] => ([], [])
  | past_double_dash, part :: rest =>
    if past_double_dash = false ∧ part = "--" then
      let (flags, paths) := split_flags true rest
      (part :: flags, paths)
    else if past_double_dash = false ∧ part.toList.head? = some '-' then
      let (flags, paths) := split_flags past_double_dash rest
      (part :: flags, paths)
    else
      let (flags, paths) := split_flags past_double_dash rest
      (flags, part :: paths)

def HOME_PREFIXES : List String := ["$\x7bHOME\x7d", "$HOME"]

/-- A path that starts with a variable is only normalized after the home directory. -/
def expand_path (path : String) : String :=
  if path.toList.head? = some '$' then
    match HOME_PREFIXES.find? fun home => (strip_leading path home).isSome with
    | some home =>
      match strip_leading path home with
      | some suffix =>
        if suffix = "" then path
        else if has_root suffix then
          let normalized_suffix := normalize_path suffix
          if normalized_suffix = "/" then home else home ++ normalized_suffix
        else path
      | none => path
    | none => path
  else
    let normalized := normalize_path path
    if normalized = "" ∧ has_root path = false then "." else normalized

def expand_rm_to_single_path_commands (command : String) : List String :=
  match split_whitespace command with
  | [] => []
  | first_token :: parts =>
    if first_token.toList.map Char.toLower = ['r', 'm'] then
      let (flags, paths) := split_flags false parts
      let flags_str := if flags = [] then "" else " ".intercalate flags ++ " "
      paths.map fun path => "rm " ++ flags_str ++ expand_path path
    else []

def matches_any (patterns : List CompiledRegex) (command : String) : Bool :=
  patterns.any fun pattern => pattern.is_match command

def matches_hardcoded_patterns (command : String) (patterns : List CompiledRegex) : Bool :=
  matches_any patterns command || (expand_rm_to_single_path_commands command).any (matches_any patterns)

def Script.value : Script → String
  | .mk value _ => value

/-- Checks every input, and every command in it, against the built-in patterns. -/
def check_hardcoded_security_rules (terminal_deny : List CompiledRegex) (tool_name : String)
    (inputs : List Script) (shell_kind : ShellKind) : Option ToolPermissionDecision :=
  if tool_name ≠ TERMINAL then none
  else if inputs.any fun input =>
      matches_hardcoded_patterns (Script.value input) terminal_deny ||
        (shell_kind.supports_posix_chaining && ((extract_commands input).getD []).any fun command =>
          matches_hardcoded_patterns command terminal_deny)
  then some (.Deny HARDCODED_SECURITY_DENIAL_MESSAGE)
  else none

/-- The mode when no pattern decides. -/
def decide_default (tool_name : String) : ToolPermissionMode → ToolPermissionDecision
  | .Deny => .Deny (tool_name ++ " tool is disabled")
  | .Allow => .Allow
  | .Confirm => .Confirm

/-- The pass of `check_commands` over the commands, with what it has seen so far. -/
def check_commands_from (rules : ToolRules) (tool_name : String) (allow_enabled : Bool)
    (global_default : ToolPermissionMode) (any_matched_confirm all_matched_allow had_any_commands : Bool) :
    List String → ToolPermissionDecision
  | [] =>
    if any_matched_confirm then .Confirm
    else if allow_enabled ∧ all_matched_allow ∧ had_any_commands then .Allow
    else decide_default tool_name (rules.default.getD global_default)
  | command :: commands =>
    if matches_any rules.always_deny command then
      .Deny ("Command blocked by security rule for " ++ tool_name ++ " tool")
    else
      check_commands_from rules tool_name allow_enabled global_default
        (any_matched_confirm || matches_any rules.always_confirm command)
        (all_matched_allow && matches_any rules.always_allow command) true commands

def check_commands (commands : List String) (rules : ToolRules) (tool_name : String) (allow_enabled : Bool)
    (global_default : ToolPermissionMode) : ToolPermissionDecision :=
  check_commands_from rules tool_name allow_enabled global_default false true false commands

def is_unconditional_allow_all (rules : ToolRules) (global_default : ToolPermissionMode) : Bool :=
  rules.always_deny.isEmpty && rules.always_confirm.isEmpty && rules.default.getD global_default = .Allow

def check_invalid_patterns (tool_name : String) (rules : ToolRules) : Option String :=
  if rules.invalid_patterns = [] then none
  else
    let count := rules.invalid_patterns.length
    let pattern_word := if count = 1 then "pattern" else "patterns"
    some ("The " ++ tool_name ++ " tool cannot run because " ++ toString count ++ " regex " ++ pattern_word ++
      " failed to compile. Please fix the invalid patterns in your tool_permissions settings.")

/-- The commands of all inputs, and whether one of them did not parse. Such an input
    stands for itself. -/
def all_commands : List Script → List String × Bool
  | [] => ([], false)
  | input :: inputs =>
    let (commands, any_parse_failed) := all_commands inputs
    match extract_commands input with
    | some extracted => (extracted ++ commands, any_parse_failed)
    | none => (Script.value input :: commands, true)

def unsupported_shell_message (shell_kind : ShellKind) : String :=
  "The " ++ shell_kind.display ++ " shell does not support \"always allow\" patterns for the terminal " ++
    "tool because Zed cannot parse its command chaining syntax. Please remove " ++
    "the always_allow patterns from your tool_permissions settings, or switch " ++
    "to a POSIX-conforming shell."

/-- Whether the terminal's commands go unchecked: the default allows them, and no rule
    restricts them. -/
def allows_all (permissions : ToolPermissions) (rules : Option ToolRules) : Bool :=
  match rules with
  | none => permissions.default = .Allow
  | some rules => is_unconditional_allow_all rules permissions.default

def from_input (terminal_deny : List CompiledRegex) (tool_name : String) (inputs : List Script)
    (permissions : ToolPermissions) (shell_kind : ShellKind) : ToolPermissionDecision :=
  match check_hardcoded_security_rules terminal_deny tool_name inputs shell_kind with
  | some denial => denial
  | none =>
    let rules := permissions.tools tool_name
    match rules.bind (check_invalid_patterns tool_name) with
    | some error => .Deny error
    | none =>
      if tool_name = TERMINAL ∧ allows_all permissions rules = false ∧
          (inputs.any fun input => validate_terminal_command input ≠ .Safe) then
        .Deny INVALID_TERMINAL_COMMAND_MESSAGE
      else
        match rules with
        | none =>
          match permissions.default with
          | .Allow => .Allow
          | .Deny => .Deny "Blocked by global default: deny"
          | .Confirm => .Confirm
        | some rules =>
          if tool_name = TERMINAL then
            if shell_kind.supports_posix_chaining = false then
              if rules.always_allow.isEmpty = false then .Deny (unsupported_shell_message shell_kind)
              else check_commands (inputs.map Script.value) rules tool_name false permissions.default
            else
              let (commands, any_parse_failed) := all_commands inputs
              check_commands commands rules tool_name (!any_parse_failed) permissions.default
          else check_commands (inputs.map Script.value) rules tool_name true permissions.default

end zed.agent
