import Zed.DbtUi.El.Text

namespace zed.redis

/-- The rest of a pattern after a `[…]`, and whether a character is of the class. -/
def match_class (c : Char) : List Char → Bool × List Char
  | [] => (false, [])
  | ']' :: rest => (false, rest)
  | '\\' :: d :: rest =>
    let (found, rest) := match_class c rest
    (c = d || found, rest)
  | low :: '-' :: high :: rest =>
    let (found, rest) := match_class c rest
    ((min low high ≤ c && c ≤ max low high) || found, rest)
  | d :: rest =>
    let (found, rest) := match_class c rest
    (c = d || found, rest)

theorem match_class_length (c : Char) (pattern : List Char) :
    (match_class c pattern).2.length ≤ pattern.length := by
  fun_induction match_class c pattern <;> simp_all <;> omega

/-- What `SCAN … MATCH` takes a pattern to match. -/
def glob_match : List Char → List Char → Bool
  | [], text => text.isEmpty
  | '*' :: pattern, text =>
    glob_match pattern text ||
      match text with
      | [] => false
      | _ :: text => glob_match ('*' :: pattern) text
  | _ :: _, [] => false
  | '?' :: pattern, _ :: text => glob_match pattern text
  | '[' :: '^' :: pattern, c :: text =>
    !(match_class c pattern).1 && glob_match (match_class c pattern).2 text
  | '[' :: pattern, c :: text =>
    (match_class c pattern).1 && glob_match (match_class c pattern).2 text
  | '\\' :: d :: pattern, c :: text => c = d && glob_match pattern text
  | d :: pattern, c :: text => c = d && glob_match pattern text
termination_by pattern text => pattern.length + text.length
decreasing_by
  all_goals
    first
    | (have h := match_class_length c pattern; simp only [List.length_cons]; omega)
    | (simp only [List.length_cons]; omega)

theorem glob_match_nil {text : List Char} : glob_match [] text = true ↔ text = [] := by
  rw [glob_match, List.isEmpty_iff]

theorem glob_match_star {pattern text : List Char} :
    glob_match ('*' :: pattern) text = true ↔ ∃ u v, text = u ++ v ∧ glob_match pattern v = true := by
  induction text with
  | nil =>
    rw [glob_match]
    constructor
    · intro h
      exact ⟨[], [], rfl, by simpa using h⟩
    · rintro ⟨u, v, huv, hv⟩
      obtain ⟨-, rfl⟩ := List.append_eq_nil_iff.mp huv.symm
      simp [hv]
  | cons c text ih =>
    rw [glob_match, Bool.or_eq_true, ih]
    constructor
    · rintro (h | ⟨u, v, rfl, hv⟩)
      · exact ⟨[], c :: text, rfl, h⟩
      · exact ⟨c :: u, v, rfl, hv⟩
    · rintro ⟨u, v, huv, hv⟩
      cases u with
      | nil =>
        rw [List.nil_append] at huv
        rw [huv]
        exact Or.inl hv
      | cons d u =>
        rw [List.cons_append] at huv
        obtain ⟨-, rfl⟩ := List.cons.inj huv
        exact Or.inr ⟨u, v, rfl, hv⟩

/-- What `glob_escape` escapes: the characters that MATCH reads as a pattern. -/
def special : List Char := ['*', '?', '[', ']', '\\']

private theorem match_head_iff {c d : Char} {pattern text : List Char} :
    (decide (d = c) && glob_match pattern text) = true ↔
      ∃ v, d :: text = c :: v ∧ glob_match pattern v = true := by
  rw [Bool.and_eq_true, decide_eq_true_iff]
  constructor
  · rintro ⟨rfl, h⟩
    exact ⟨text, rfl, h⟩
  · rintro ⟨v, hv, h⟩
    obtain ⟨rfl, rfl⟩ := List.cons.inj hv
    exact ⟨rfl, h⟩

theorem glob_match_literal {c : Char} (hc : c ∉ special) {pattern text : List Char} :
    glob_match (c :: pattern) text = true ↔ ∃ v, text = c :: v ∧ glob_match pattern v = true := by
  simp only [special, List.mem_cons, List.not_mem_nil, or_false, not_or] at hc
  obtain ⟨hstar, hquestion, hopen, -, hslash⟩ := hc
  cases text with
  | nil => simp [glob_match]
  | cons d text =>
    have hmatch : glob_match (c :: pattern) (d :: text) = (decide (d = c) && glob_match pattern text) := by
      simp [glob_match, hopen, hslash]
    rw [hmatch]
    exact match_head_iff

theorem glob_match_escaped {c : Char} {pattern text : List Char} :
    glob_match ('\\' :: c :: pattern) text = true ↔ ∃ v, text = c :: v ∧ glob_match pattern v = true := by
  cases text with
  | nil => simp [glob_match]
  | cons d text =>
    have hmatch : glob_match ('\\' :: c :: pattern) (d :: text) =
        (decide (d = c) && glob_match pattern text) := by
      simp [glob_match]
    rw [hmatch]
    exact match_head_iff

end zed.redis

namespace zed.dbt_ui.el.listing_cache

/-- The hexadecimal text of `short_hash`. -/
structure Hash where
  text : List Char
  hex : ∀ c ∈ text, c ∈ "0123456789abcdef".toList
deriving DecidableEq

/-- One listing the explorer makes. -/
inductive Level
  | Tables
  | Databases
  | Schemas (database : List Char)
  | SchemaTables (database schema : List Char)
deriving DecidableEq

/-- What a refresh drops. -/
inductive Scope
  | Project
  | Connection (connection : List Char)
  | Database (connection database : List Char)
  | Schema (connection database schema : List Char)
deriving DecidableEq

def segment (name : List Char) : List Char :=
  replace '@' "%40".toList (replace '/' "%2F".toList (replace '%' "%25".toList name))

/-- `ellode:explore:<project>/` -/
def project_prefix (project : Hash) : List Char :=
  "ellode:explore:".toList ++ project.text ++ ['/']

/-- `<project>/<connection>@<definition>/` -/
def connection_prefix (project : Hash) (connection_name : List Char) (definition : Hash) : List Char :=
  project_prefix project ++ segment connection_name ++ '@' :: definition.text ++ ['/']

def database_prefix (database : List Char) : List Char :=
  "db/".toList ++ segment database ++ ['/']

def level_suffix : Level → List Char
  | .Tables => "tables".toList
  | .Databases => "databases".toList
  | .Schemas database => database_prefix database ++ "schemas".toList
  | .SchemaTables database schema =>
    database_prefix database ++ "schema/".toList ++ segment schema ++ "/tables".toList

/-- Escapes what SCAN's MATCH reads as a pattern. -/
def glob_escape (text : List Char) : List Char :=
  text.flatMap fun c => if c ∈ redis.special then ['\\', c] else [c]

/-- What a listing is of: the hash of its project, its connection with the hash of the
    connection's definition, and the level listed. -/
structure Listing where
  project : Hash
  connection : List Char
  definition : Hash
  level : Level
deriving DecidableEq

/-- The key of `read_through`. -/
def Listing.key (listing : Listing) : List Char :=
  connection_prefix listing.project listing.connection listing.definition ++ level_suffix listing.level

/-- The pattern of `invalidate`. -/
def pattern (project : Hash) : Scope → List Char
  | .Project => glob_escape ( project_prefix project) ++ ['*']
  | .Connection connection => glob_escape ( project_prefix project ++ segment connection) ++ "@*".toList
  | .Database connection database =>
    glob_escape ( project_prefix project ++ segment connection) ++ "@*/".toList ++
      glob_escape ( database_prefix database) ++ ['*']
  | .Schema connection database schema =>
    glob_escape ( project_prefix project ++ segment connection) ++ "@*/".toList ++
      glob_escape (level_suffix (.SchemaTables database schema))

end zed.dbt_ui.el.listing_cache
