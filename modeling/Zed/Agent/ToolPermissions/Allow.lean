import Zed.Agent.ToolPermissions
import Zed.Shell.Extract.Complete
import Zed.Shell.Validate.Safe

open zed.brush zed.shell_command

namespace zed.agent

/-- The mode that applies to a tool when no pattern decides. -/
def effective_default (permissions : ToolPermissions) (tool_name : String) : ToolPermissionMode :=
  ((permissions.tools tool_name).bind ToolRules.default).getD permissions.default

/-- A text that an allow pattern matches, and no deny or confirm pattern. -/
structure Approved (rules : ToolRules) (command : String) : Prop where
  allow : matches_any rules.always_allow command = true
  deny : matches_any rules.always_deny command = false
  confirm : matches_any rules.always_confirm command = false

theorem check_commands_from_allow {rules : ToolRules} {tool_name : String} {allow_enabled : Bool}
    {global_default : ToolPermissionMode} (hdefault : rules.default.getD global_default ≠ .Allow)
    {confirmed allowed any : Bool} {commands : List String}
    (h : check_commands_from rules tool_name allow_enabled global_default confirmed allowed any commands =
      .Allow) :
    confirmed = false ∧ allow_enabled = true ∧ allowed = true ∧ ∀ command ∈ commands, Approved rules command := by
  induction commands generalizing confirmed allowed any with
  | nil =>
    rw [check_commands_from] at h
    split at h
    · cases h
    · rename_i hconfirmed
      split at h
      · rename_i hall
        exact ⟨by simpa using hconfirmed, hall.1, hall.2.1, by simp⟩
      · cases hmode : rules.default.getD global_default with
        | Allow => exact absurd hmode hdefault
        | Deny => rw [hmode] at h; cases h
        | Confirm => rw [hmode] at h; cases h
  | cons command commands ih =>
    rw [check_commands_from] at h
    split at h
    · cases h
    · rename_i hdeny
      obtain ⟨hconfirm, henabled, hallow, hrest⟩ := ih h
      rw [Bool.or_eq_false_iff] at hconfirm
      rw [Bool.and_eq_true] at hallow
      refine ⟨hconfirm.1, henabled, hallow.1, fun other hother => ?_⟩
      rcases List.mem_cons.mp hother with rfl | hother
      · exact ⟨hallow.2, by simpa using hdeny, hconfirm.2⟩
      · exact hrest other hother

theorem mem_all_commands {inputs : List Script} (h : (all_commands inputs).2 = false) :
    (∀ input ∈ inputs, ∃ commands, extract_commands input = some commands ∧
      ∀ s ∈ commands, s ∈ (all_commands inputs).1) ∧
    ∀ s ∈ (all_commands inputs).1, s ≠ "" := by
  induction inputs with
  | nil => exact ⟨by simp, by simp [all_commands]⟩
  | cons input inputs ih =>
    rw [all_commands] at h ⊢
    cases hextract : extract_commands input with
    | none => rw [hextract] at h; cases h
    | some extracted =>
      rw [hextract] at h
      obtain ⟨hinputs, hne⟩ := ih h
      constructor
      · intro other hother
        rcases List.mem_cons.mp hother with rfl | hother
        · exact ⟨extracted, hextract, fun s hs => List.mem_append_left _ hs⟩
        · obtain ⟨commands, hcommands, hmem⟩ := hinputs other hother
          exact ⟨commands, hcommands, fun s hs => List.mem_append_right _ (hmem s hs)⟩
      · intro s hs
        rcases List.mem_append.mp hs with hs | hs
        · obtain ⟨site, -, hadds⟩ := ((extract_commands_extracts hextract).mem s).mp hs
          exact hadds.ne_empty
        · exact hne s hs

theorem from_input_allow {terminal_deny : List CompiledRegex} {inputs : List Script}
    {permissions : ToolPermissions} {shell_kind : ShellKind}
    (h : from_input terminal_deny TERMINAL inputs permissions shell_kind = .Allow)
    (hdefault : effective_default permissions TERMINAL ≠ .Allow) :
    ∃ rules, permissions.tools TERMINAL = some rules ∧
      (∀ input ∈ inputs, validate_terminal_command input = .Safe) ∧
      (all_commands inputs).2 = false ∧ ∀ s ∈ (all_commands inputs).1, Approved rules s := by
  unfold from_input at h
  split at h
  · rename_i denial hdenial
    rw [check_hardcoded_security_rules] at hdenial
    split at hdenial
    · cases hdenial
    · split at hdenial
      · cases hdenial
        cases h
      · cases hdenial
  dsimp only at h
  split at h
  · cases h
  cases hrules : permissions.tools TERMINAL with
  | none =>
    rw [effective_default, hrules] at hdefault
    rw [hrules] at h
    split at h
    · cases h
    · cases hmode : permissions.default with
      | Allow => exact absurd hmode hdefault
      | Deny => rw [hmode] at h; cases h
      | Confirm => rw [hmode] at h; cases h
  | some rules =>
    rw [hrules] at h
    have hmode : rules.default.getD permissions.default ≠ .Allow := by
      rw [effective_default, hrules] at hdefault
      exact hdefault
    have hrestricted : allows_all permissions (some rules) = false := by
      rw [allows_all, is_unconditional_allow_all, decide_eq_false hmode, Bool.and_false]
    split at h
    · cases h
    rename_i hvalid
    have hsafe : ∀ input ∈ inputs, validate_terminal_command input = .Safe := by
      intro input hinput
      refine Decidable.byContradiction fun hunsafe => hvalid ⟨rfl, hrestricted, ?_⟩
      exact List.any_eq_true.mpr ⟨input, hinput, decide_eq_true hunsafe⟩
    dsimp only at h
    rw [if_pos rfl] at h
    split at h
    · rename_i hchaining
      cases shell_kind <;> cases hchaining
    · obtain ⟨-, henabled, -, happroved⟩ := check_commands_from_allow hmode h
      exact ⟨rules, rfl, hsafe, by simpa using henabled, happroved⟩

/-- The words of the syntax tree. A subscript is a part of the text of its
    assignment. -/
def in_tree (place : Place) : Bool := place ≠ .assignment_subscript

/-- The file that a redirection opens. -/
def file_target : IoRedirect → Option Word
  | .File _ _ (.Filename word) => some word
  | .File _ _ _ => none
  | .OutputAndError word _ => some word
  | .HereDocument _ _ _ => none
  | .HereString _ _ => none

/-- No word of the inputs has an expansion, and every command and every file but
    `/dev/null` is among the approved texts. -/
structure Seen (permissions : ToolPermissions) (inputs : List Script) : Prop where
  word : ∀ input ∈ inputs, ∀ place word inside,
    .word place word inside ∈ reached in_tree (script_outline input) → expands word = false
  process_substitution : ∀ input ∈ inputs,
    .process_substitution ∉ reached in_tree (script_outline input)
  approved : ∃ rules, permissions.tools TERMINAL = some rules ∧
    ∀ s ∈ (all_commands inputs).1, Approved rules s
  command : ∀ input ∈ inputs, ∀ command,
    .command command ∈ reached in_tree (script_outline input) →
      ∃ s ∈ (all_commands inputs).1, text command = some s
  file : ∀ input ∈ inputs, ∀ redirect word,
    .redirect redirect ∈ reached in_tree (script_outline input) → file_target redirect = some word →
      normalize_word word ≠ some "/dev/null" →
        ∃ s ∈ (all_commands inputs).1, normalize_io_redirect redirect = some (.Normalized s)

/-- No target of a duplication has an expansion, and every simple command has a
    text. -/
def Plain (input : Script) : Prop :=
  (∀ word inside, .word .duplication_target word inside ∈ reached in_tree (script_outline input) →
    expands word = false) ∧
  ∀ command, .command command ∈ reached in_tree (script_outline input) → text command ≠ some ""

theorem file_target_normalizes {redirect : IoRedirect} {word : Word} (htarget : file_target redirect = some word)
    (hsome : (normalize_io_redirect redirect).isSome) (hnull : normalize_word word ≠ some "/dev/null") :
    ∃ s, normalize_io_redirect redirect = some (.Normalized s) := by
  obtain ⟨normalization, hnormalize⟩ := Option.isSome_iff_exists.mp hsome
  cases normalization with
  | Normalized s => exact ⟨s, hnormalize⟩
  | Skip =>
    refine absurd ?_ hnull
    have hskip : ∀ {lead : String}, (normalize_word word >>= fun normalized =>
        if is_known_safe_redirect_target normalized then some RedirectNormalization.Skip
        else some (.Normalized (lead ++ " " ++ normalized))) = some .Skip →
        normalize_word word = some "/dev/null" := by
      intro lead h
      obtain ⟨normalized, hword, h⟩ := Option.bind_eq_some_iff.mp h
      split at h
      · rename_i hsafe
        rw [hword, of_decide_eq_true hsafe]
      · cases h
    cases redirect with
    | File fd kind target =>
      cases target with
      | Filename name =>
        cases htarget
        exact hskip hnormalize
      | _ => cases htarget
    | OutputAndError name append =>
      cases htarget
      exact hskip hnormalize
    | _ => cases htarget

theorem mem_outline_of_plain {input : Script} (hsafe : validate_terminal_command input = .Safe)
    (hplain : ∀ word inside, .word .duplication_target word inside ∈
      reached in_tree (script_outline input) → expands word = false)
    {site : Site} (hsite : site ∈ reached in_tree (script_outline input)) :
    site ∈ script_outline input := by
  have hharmless := harmless_script input hsafe
  refine mem_of_mem_reached (fun place word inside hword htree => ?_) hsite
  obtain ⟨hexpands, hinside⟩ := hharmless _ hword
  refine hinside ?_
  by_cases htarget : place = .duplication_target
  · subst htarget
    exact hplain word inside (mem_reached_word hword htree)
  · exact hexpands htarget (of_decide_eq_true htree)

/-- Allows `ls`, and asks otherwise. -/
def sample_permissions : ToolPermissions where
  default := .Confirm
  tools _ := some {
    default := none
    always_allow := [⟨fun command => decide (command = "ls")⟩]
    always_deny := []
    always_confirm := []
    invalid_patterns := [] }

/-- `$(rm)` -/
def duplication_word : Word :=
  .mk "$(rm)" (some [.mk (.CommandSubstitution (.mk "rm" (some (.mk [.mk [.mk (.mk [.Simple (.mk []
    (some (.mk "rm" (some [.mk (.Text "rm") 0 2]))) [])]) []]])))) 0 5])

/-- `ls >&$(rm)` -/
def sample_duplication : Script :=
  .mk "ls >&$(rm)" (some (.mk [.mk [.mk (.mk [.Simple (.mk []
    (some (.mk "ls" (some [.mk (.Text "ls") 0 2])))
    [.IoRedirect (.File none .DuplicateOutput (.Duplicate duplication_word))])]) []]]))

end zed.agent
