import Zed.DbtUi.El.Text

namespace zed.dbt_ui.el

def USIZE_MAX : Nat := 2 ^ 64 - 1

def browsable (kind : String) : Bool :=
  kind ∈ ["duckdb", "postgres", "oracle", "snowflake", "mssql"]

/-- A table or view, by its schema and name. -/
abbrev Table := List Char × List Char

def Table.label (table : Table) : List Char := table.1 ++ '.' :: table.2

/-- Each table as lowercase `schema.table`. -/
def fold_table_names (unicode : Unicode) (tables : List Table) : List (List Char) :=
  tables.map fun table => unicode.to_lowercase table.label

def search_terms (unicode : Unicode) (text : List Char) : List (List Char) :=
  (split_whitespace text).map unicode.to_lowercase

def matching_tables (haystack terms : List (List Char)) : List Nat :=
  (haystack.zipIdx.filter fun (name, _) => terms.all fun term => decide (term <:+: name)).map Prod.snd

namespace mcp

def LIST_TABLES_DEFAULT : Nat := 200

def LIST_TABLES_MAX : Nat := 2000

/-- A JSON value, as far as an argument's is read. -/
inductive Value
  | unsigned (value : UInt64)
  | string (text : List Char)
  | other
deriving DecidableEq

def Value.as_u64 : Value → Option Nat
  | .unsigned value => some value.toNat
  | _ => none

def Value.as_str : Value → Option (List Char)
  | .string text => some text
  | _ => none

abbrev Arguments := String → Option Value

def optional (arguments : Arguments) (key : String) : Option (List Char) :=
  ((arguments key).bind Value.as_str).filter fun value => trim value ≠ []

def required (arguments : Arguments) (key : String) :
    Except (List Char) (List Char) :=
  match optional arguments key with
  | some value => .ok value
  | none => .error ("missing required argument `".toList ++ key.toList ++ ['`'])

def count (arguments : Arguments) (key : String) (default max : Nat) : Nat :=
  min (((arguments key).bind Value.as_u64).elim default fun value =>
    if value ≤ USIZE_MAX then value else max) max

/-- A listing held in memory. -/
structure Listing where
  tables : List Table
  fits : tables.length ≤ USIZE_MAX

/-- The kinds of the active connections, and what their workers list. -/
structure Project where
  kind : List Char → Option String
  list_tables : List Char → Except (List Char) Listing

def browsable_connection (unicode : Unicode) (project : Project) (name : List Char) :
    Except (List Char) String :=
  match project.kind name with
  | none => .error ("no connection named ".toList ++ unicode.debug name ++ " in the active profile".toList)
  | some kind =>
    if browsable kind then .ok kind
    else .error (name ++ " is a ".toList ++ kind.toList ++
      " connection — only duckdb, postgres, oracle and snowflake can be browsed".toList)

/-- The answer of `el_list_tables`. -/
structure Tables where
  connection : List Char
  total : Nat
  matching : Nat
  offset : Nat
  tables : List (List Char)
  next_offset : Option Nat

def matching_indices (unicode : Unicode) (tables : List Table) (search : List Char) : List Nat :=
  let terms := search_terms unicode search
  if terms = [] then List.range tables.length
  else matching_tables (fold_table_names unicode tables) terms

def list_tables (unicode : Unicode) (project : Project) (connection search : List Char)
    (offset limit : Nat) : Except (List Char) Tables := do
  let _ ← browsable_connection unicode project connection
  let listing ← project.list_tables connection
  let tables := listing.tables
  let found := matching_indices unicode tables search
  let page := (((found.drop offset).take limit).filterMap fun index => tables[index]?).map Table.label
  let next := min (offset + page.length) USIZE_MAX
  return {
    connection
    total := tables.length
    matching := found.length
    offset
    tables := page
    next_offset := if next < found.length then some next else none }

/-- The arm of `call_tool` for `el_list_tables`. -/
def el_list_tables (unicode : Unicode) (project : Project) (arguments : Arguments) :
    Except (List Char) Tables := do
  let connection ← required arguments "connection"
  list_tables unicode project connection ((optional arguments "search").getD [])
    (count arguments "offset" 0 USIZE_MAX)
    (count arguments "limit" LIST_TABLES_DEFAULT LIST_TABLES_MAX)

def literal (text : List Char) : List Char := replace '\'' "''".toList text

/-- The text before the first dot, and after it. -/
def split_once_dot (text : List Char) : Option (List Char × List Char) :=
  if '.' ∈ text then some (text.takeWhile (· ≠ '.'), (text.dropWhile (· ≠ '.')).tail) else none

/-- The catalog query for one table's columns, its names quoted as literals. -/
def columns_sql (kind : String) (schema table : List Char) : Except (List Char) (List Char) :=
  let table_literal := literal table
  match kind with
  | "duckdb" | "postgres" =>
    .ok ("SELECT column_name, data_type, is_nullable FROM information_schema.columns ".toList ++
      "WHERE table_schema = '".toList ++ literal schema ++ "' AND table_name = '".toList ++
      table_literal ++ "' ORDER BY ordinal_position".toList)
  | "oracle" =>
    .ok ("SELECT column_name, data_type, data_length, data_precision, data_scale, nullable ".toList ++
      "FROM all_tab_columns WHERE owner = '".toList ++ literal schema ++ "' AND table_name = '".toList ++
      table_literal ++ "' ORDER BY column_id".toList)
  | "snowflake" =>
    match split_once_dot schema with
    | none =>
      .error "pass a Snowflake schema as DATABASE.SCHEMA, as el_list_tables shows it".toList
    | some (database, schema) =>
      .ok ("SELECT column_name, data_type, is_nullable FROM \"".toList ++
        replace '"' "\"\"".toList database ++ "\".information_schema.columns ".toList ++
        "WHERE table_schema = '".toList ++ literal schema ++ "' AND table_name = '".toList ++
        table_literal ++ "' ORDER BY ordinal_position".toList)
  | "mssql" =>
    .ok ("SELECT COLUMN_NAME, DATA_TYPE, IS_NULLABLE FROM INFORMATION_SCHEMA.COLUMNS ".toList ++
      "WHERE TABLE_SCHEMA = '".toList ++ literal schema ++ "' AND TABLE_NAME = '".toList ++
      table_literal ++ "' ORDER BY ORDINAL_POSITION".toList)
  | other => .error (other.toList ++ " connections have no catalog to read".toList)

/-- What follows a comment to the end of its line. -/
def after_line (comment : List Char) : List Char := (comment.dropWhile (· ≠ '\n')).tail

/-- What follows a comment up to its end. -/
def after_block : List Char → List Char
  | [] => []
  | '*' :: '/' :: rest => rest
  | _ :: comment => after_block comment

theorem length_after_line (comment : List Char) : (after_line comment).length ≤ comment.length := by
  rw [after_line, List.length_tail]
  exact (Nat.sub_le _ _).trans (List.dropWhile_suffix _).length_le

theorem length_after_block (comment : List Char) : (after_block comment).length ≤ comment.length := by
  fun_induction after_block comment <;> simp only [List.length_cons, List.length_nil] <;> omega

/-- A query without the spaces and comments before it. -/
def strip_comments (sql : List Char) : List Char :=
  match h : trim_start sql with
  | '-' :: '-' :: comment => strip_comments (after_line comment)
  | '/' :: '*' :: comment => strip_comments (after_block comment)
  | rest => rest
termination_by sql.length
decreasing_by
  all_goals
    have hlength := (List.dropWhile_suffix is_whitespace (l := sql)).length_le
    rw [trim_start] at h
    rw [h, List.length_cons, List.length_cons] at hlength
    have hline := length_after_line comment
    have hblock := length_after_block comment
    omega

/-- Whether a semicolon stands outside quotes. -/
def has_semicolon : Option Char → List Char → Bool
  | _, [] => false
  | none, c :: text =>
    if c = '\'' ∨ c = '"' then has_semicolon (some c) text
    else if c = ';' then true
    else has_semicolon none text
  | some quote, c :: text => has_semicolon (if c = quote then none else some quote) text

/-- The statement of a query: without what is before it, and without the semicolons at its end. -/
def statement_of (sql : List Char) : List Char :=
  trim_end ((trim_end (strip_comments sql)).rdropWhile (· = ';'))

def keyword_of (statement : List Char) : List Char := (statement.takeWhile Char.isAlpha).map Char.toLower

def read_only_statement (sql : List Char) : Except (List Char) (List Char) :=
  let statement := statement_of sql
  if statement = [] then .error "the query is empty".toList
  else if has_semicolon none statement then .error "pass one statement at a time".toList
  else
    let keyword := keyword_of statement
    if keyword = "select".toList ∨ keyword = "with".toList then .ok statement
    else
      .error ("el_query runs read-only SELECT or WITH queries, not ".toList ++
        if keyword = [] then "this".toList else keyword.map Char.toUpper)

end mcp

end zed.dbt_ui.el
