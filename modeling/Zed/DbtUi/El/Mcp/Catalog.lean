import Zed.Sql.Literal
import Zed.DbtUi.El.Mcp

namespace zed.dbt_ui.el.mcp

open sql

/-- How each kind of database lexes: a backslash in a string escapes on Snowflake only. -/
def dialect (escape : List Char → Option Char) (kind : String) : Dialect where
  is_space := is_whitespace
  escape := if kind = "snowflake" then some escape else none

def words (texts : List String) : List Token := texts.map fun text => .word text.toList

/-- `SELECT` of some columns. -/
def select (columns : List String) : List Token :=
  words ["SELECT"] ++ List.intercalate [Token.symbol ','] (columns.map fun column => [Token.word column.toList]) ++
    words ["FROM"]

def equals (column : String) (value : List Char) : List Token :=
  [.word column.toList, .symbol '=', .string value]

def information_columns : List String := ["column_name", "data_type", "is_nullable"]

def oracle_columns : List String :=
  ["column_name", "data_type", "data_length", "data_precision", "data_scale", "nullable"]

def mssql_columns : List String := ["COLUMN_NAME", "DATA_TYPE", "IS_NULLABLE"]

/-- The fixed catalog query of a kind, with the names as its literals and identifier. -/
def catalog_tokens (kind : String) (database schema table : List Char) : List Token :=
  match kind with
  | "oracle" =>
    select oracle_columns ++ words ["all_tab_columns", "WHERE"] ++ equals "owner" schema ++ words ["AND"] ++
      equals "table_name" table ++ words ["ORDER", "BY", "column_id"]
  | "snowflake" =>
    select information_columns ++ [.quoted database, .symbol '.'] ++ words ["information_schema"] ++ [.symbol '.'] ++
      words ["columns", "WHERE"] ++ equals "table_schema" schema ++ words ["AND"] ++
      equals "table_name" table ++ words ["ORDER", "BY", "ordinal_position"]
  | "mssql" =>
    select mssql_columns ++ words ["INFORMATION_SCHEMA"] ++ [.symbol '.'] ++
      words ["COLUMNS", "WHERE"] ++ equals "TABLE_SCHEMA" schema ++ words ["AND"] ++
      equals "TABLE_NAME" table ++ words ["ORDER", "BY", "ORDINAL_POSITION"]
  | _ =>
    select information_columns ++ words ["information_schema"] ++ [.symbol '.'] ++
      words ["columns", "WHERE"] ++ equals "table_schema" schema ++ words ["AND"] ++
      equals "table_name" table ++ words ["ORDER", "BY", "ordinal_position"]

def names (kind : String) (schema table : List Char) : List Char × List Char × List Char :=
  if kind = "snowflake" then
    match split_once_dot schema with
    | some (database, schema) => (database, schema, table)
    | none => ([], schema, table)
  else ([], schema, table)

/-- What `columns_sql` builds is the fixed query, with exactly the given names. -/
def Faithful (escape : List Char → Option Char) (kind : String) (schema table : List Char) : Prop :=
  ∀ text, columns_sql kind schema table = .ok text →
    lex (dialect escape kind) text =
      some (catalog_tokens kind (names kind schema table).1 (names kind schema table).2.1
        (names kind schema table).2.2)

theorem escape_eq_none_iff {escape : List Char → Option Char} {kind : String} :
    (dialect escape kind).escape = none ↔ kind ≠ "snowflake" := by
  simp [dialect]

section

variable (escape : List Char → Option Char) (kind : String)

theorem run_between (value : List Char) (tokens : List Token) :
    Lexer.run (dialect escape kind) ⟨.string value, tokens⟩ ('\'' :: " AND table_name = ".toList ++ ['\'']) =
      ⟨.string [], tokens ++ .string value.reverse :: (words ["AND", "table_name"] ++ [.symbol '='])⟩ := by
  have h : Lexer.run (dialect escape kind) ⟨.string value, tokens⟩
        ('\'' :: " AND table_name = ".toList ++ ['\'']) =
      ⟨.string [], tokens ++ [.string value.reverse] ++ [.word "AND".toList] ++ [.word "table_name".toList] ++
        [.symbol '=']⟩ := rfl
  rw [h]
  simp [words]

theorem run_between_upper (value : List Char) (tokens : List Token) :
    Lexer.run (dialect escape kind) ⟨.string value, tokens⟩ ('\'' :: " AND TABLE_NAME = ".toList ++ ['\'']) =
      ⟨.string [], tokens ++ .string value.reverse :: (words ["AND", "TABLE_NAME"] ++ [.symbol '='])⟩ := by
  have h : Lexer.run (dialect escape kind) ⟨.string value, tokens⟩
        ('\'' :: " AND TABLE_NAME = ".toList ++ ['\'']) =
      ⟨.string [], tokens ++ [.string value.reverse] ++ [.word "AND".toList] ++ [.word "TABLE_NAME".toList] ++
        [.symbol '=']⟩ := rfl
  rw [h]
  simp [words]

theorem run_order (column : String) (value : List Char) (tokens : List Token)
    (h : column ∈ ["column_id", "ordinal_position", "ORDINAL_POSITION"]) :
    (Lexer.run (dialect escape kind) ⟨.string value, tokens⟩
        ('\'' :: (" ORDER BY ".toList ++ column.toList))).finish =
      some (tokens ++ .string value.reverse :: words ["ORDER", "BY", column]) := by
  have hrun : (Lexer.run (dialect escape kind) ⟨.string value, tokens⟩
        ('\'' :: (" ORDER BY ".toList ++ column.toList))).finish =
      some (tokens ++ [.string value.reverse] ++ [.word "ORDER".toList] ++ [.word "BY".toList] ++
        [.word column.toList]) := by
    simp only [List.mem_cons, List.not_mem_nil, or_false] at h
    obtain rfl | rfl | rfl := h <;> rfl
  rw [hrun]
  simp [words]

theorem lex_query_iff (column : String) {head middle : List Char} {before between : List Token}
    (schema table : List Char)
    (hhead : Lexer.new.run (dialect escape kind) head = ⟨.string [], before⟩)
    (hmiddle : ∀ value tokens, Lexer.run (dialect escape kind) ⟨.string value, tokens⟩
      ('\'' :: middle ++ ['\'']) = ⟨.string [], tokens ++ .string value.reverse :: between⟩)
    (hmiddleQuote : '\'' ∉ middle)
    (hcolumn : column ∈ ["column_id", "ordinal_position", "ORDINAL_POSITION"])
    (hcost : 3 ≤ cost between) :
    lex (dialect escape kind) (head ++ literal schema ++ ('\'' :: middle ++ ['\'']) ++ literal table ++
        '\'' :: (" ORDER BY ".toList ++ column.toList)) =
      some (before ++ [.string schema] ++ between ++ [.string table] ++ words ["ORDER", "BY", column]) ↔
      (kind = "snowflake" → '\\' ∉ schema ∧ '\\' ∉ table) := by
  have htailQuote : '\'' ∉ " ORDER BY ".toList ++ column.toList := by
    simp only [List.mem_cons, List.not_mem_nil, or_false] at hcolumn
    obtain rfl | rfl | rfl := hcolumn <;> decide
  have hshort : (" ORDER BY ".toList ++ column.toList).length ≤
      cost between + cost (words ["ORDER", "BY", column]) := by
    have hspaces : (" ORDER BY ".toList ++ column.toList).length = column.toList.length + 10 := by
      rw [List.length_append, Nat.add_comm]
      rfl
    have hwords : cost (words ["ORDER", "BY", column]) = column.toList.length + 7 := by
      simp [cost, words, Token.cost]
      omega
    omega
  have hiff := lex_literals_iff schema table hhead hmiddle
    (fun value tokens => run_order escape kind column value tokens hcolumn) hmiddleQuote htailQuote hshort
  rw [escape_eq_none_iff] at hiff
  simp only [List.append_assoc, List.singleton_append] at hiff ⊢
  refine hiff.trans ?_
  rw [imp_iff_not_or]

end

open Lexer

variable {escape : List Char → Option Char} {kind : String}

theorem lexes_word {word : List Char} (hword : IsWord (dialect escape kind) word) :
    Lexes (dialect escape kind) (word ++ [' ']) [.word word] := by
  intro tokens
  rw [run_append, run_isWord hword]
  have hstep : step (dialect escape kind) ⟨.word word.reverse, tokens⟩ ' ' =
      ⟨.code, tokens ++ [.word word.reverse.reverse]⟩ := rfl
  rw [run_cons, hstep, List.reverse_reverse]
  rfl

theorem lexes_symbol {word : List Char} {c : Char} (hword : IsWord (dialect escape kind) word)
    (hc : c ∈ [',', '.', '=']) :
    Lexes (dialect escape kind) (word ++ [c]) [.word word, .symbol c] := by
  intro tokens
  rw [run_append, run_isWord hword]
  have hstep : step (dialect escape kind) ⟨.word word.reverse, tokens⟩ c =
      ⟨.code, tokens ++ [.word word.reverse.reverse] ++ [.symbol c]⟩ := by
    simp only [List.mem_cons, List.not_mem_nil, or_false] at hc
    obtain rfl | rfl | rfl := hc <;> rfl
  rw [run_cons, hstep, List.reverse_reverse, List.append_assoc]
  rfl

theorem lexes_space : Lexes (dialect escape kind) [' '] [] := by
  intro tokens
  rw [List.append_nil]
  rfl

theorem lexes_columns {columns : List String} (hne : columns ≠ [])
    (hwords : ∀ column ∈ columns, IsWord (dialect escape kind) column.toList) :
    Lexes (dialect escape kind) (List.intercalate ", ".toList (columns.map String.toList) ++ [' '])
      (List.intercalate [Token.symbol ','] (columns.map fun column => [Token.word column.toList])) := by
  induction columns with
  | nil => exact absurd rfl hne
  | cons column columns ih =>
    have hcolumn := hwords column List.mem_cons_self
    cases columns with
    | nil => simpa using lexes_word hcolumn
    | cons next columns =>
      have hrest := ih (List.cons_ne_nil _ _) fun other hother => hwords other (List.mem_cons_of_mem _ hother)
      have hcomma := (lexes_symbol (c := ',') hcolumn (by decide)).append (lexes_space.append hrest)
      simpa [List.intercalate] using hcomma

/-- The text of `SELECT` of some columns. -/
def select_text (columns : List String) : List Char :=
  "SELECT ".toList ++ (List.intercalate ", ".toList (columns.map String.toList) ++ [' ']) ++ "FROM ".toList

theorem lexes_select {columns : List String} (hne : columns ≠ [])
    (hwords : ∀ column ∈ columns, IsWord (dialect escape kind) column.toList) :
    Lexes (dialect escape kind) (select_text columns) (select columns) := by
  have hselect : Lexes (dialect escape kind) ("SELECT".toList ++ [' ']) [.word "SELECT".toList] :=
    lexes_word ⟨by decide, rfl⟩
  have hfrom : Lexes (dialect escape kind) ("FROM".toList ++ [' ']) [.word "FROM".toList] :=
    lexes_word ⟨by decide, rfl⟩
  exact (hselect.append (lexes_columns hne hwords)).append hfrom

theorem run_head {head text : List Char} {before : List Token} (h : Lexes (dialect escape kind) text before)
    (hhead : head = text ++ "= '".toList) :
    Lexer.new.run (dialect escape kind) head = ⟨.string [], before ++ [.symbol '=']⟩ := by
  have hbefore : Lexer.new.run (dialect escape kind) text = ⟨.code, before⟩ := h []
  rw [hhead, run_append, hbefore]
  rfl

theorem lexes_information : Lexes (dialect escape kind) (select_text information_columns)
    (select information_columns) := by
  refine lexes_select (List.cons_ne_nil _ _) fun column hcolumn => ?_
  simp only [information_columns, List.mem_cons, List.not_mem_nil, or_false] at hcolumn
  obtain rfl | rfl | rfl := hcolumn <;> exact ⟨by decide, rfl⟩

theorem lexes_where : Lexes (dialect escape kind) "columns WHERE table_schema ".toList
    (words ["columns", "WHERE", "table_schema"]) := by
  have hcolumns : Lexes (dialect escape kind) ("columns".toList ++ [' ']) _ := lexes_word ⟨by decide, rfl⟩
  have hwhere : Lexes (dialect escape kind) ("WHERE".toList ++ [' ']) _ := lexes_word ⟨by decide, rfl⟩
  have hschema : Lexes (dialect escape kind) ("table_schema".toList ++ [' ']) _ := lexes_word ⟨by decide, rfl⟩
  exact (hcolumns.append hwhere).append hschema

theorem run_oracle_head : Lexer.new.run (dialect escape kind)
      ("SELECT column_name, data_type, data_length, data_precision, data_scale, nullable ".toList ++
        "FROM all_tab_columns WHERE owner = '".toList) =
    ⟨.string [], select oracle_columns ++ words ["all_tab_columns", "WHERE", "owner"] ++ [.symbol '=']⟩ := by
  have hselect : Lexes (dialect escape kind) (select_text oracle_columns) (select oracle_columns) := by
    refine lexes_select (List.cons_ne_nil _ _) fun column hcolumn => ?_
    simp only [oracle_columns, List.mem_cons, List.not_mem_nil, or_false] at hcolumn
    obtain rfl | rfl | rfl | rfl | rfl | rfl := hcolumn <;> exact ⟨by decide, rfl⟩
  have htable : Lexes (dialect escape kind) ("all_tab_columns".toList ++ [' ']) _ := lexes_word ⟨by decide, rfl⟩
  have hwhere : Lexes (dialect escape kind) ("WHERE".toList ++ [' ']) _ := lexes_word ⟨by decide, rfl⟩
  have howner : Lexes (dialect escape kind) ("owner".toList ++ [' ']) _ := lexes_word ⟨by decide, rfl⟩
  exact run_head (hselect.append ((htable.append hwhere).append howner)) (by decide +kernel)

theorem run_mssql_head : Lexer.new.run (dialect escape kind)
      ("SELECT COLUMN_NAME, DATA_TYPE, IS_NULLABLE FROM INFORMATION_SCHEMA.COLUMNS ".toList ++
        "WHERE TABLE_SCHEMA = '".toList) =
    ⟨.string [], select mssql_columns ++
      (words ["INFORMATION_SCHEMA"] ++ [.symbol '.'] ++ words ["COLUMNS", "WHERE", "TABLE_SCHEMA"]) ++
      [.symbol '=']⟩ := by
  have hselect : Lexes (dialect escape kind) (select_text mssql_columns) (select mssql_columns) := by
    refine lexes_select (List.cons_ne_nil _ _) fun column hcolumn => ?_
    simp only [mssql_columns, List.mem_cons, List.not_mem_nil, or_false] at hcolumn
    obtain rfl | rfl | rfl := hcolumn <;> exact ⟨by decide, rfl⟩
  have htable : Lexes (dialect escape kind) ("INFORMATION_SCHEMA".toList ++ ['.']) _ :=
    lexes_symbol ⟨by decide, rfl⟩ (by decide)
  have hcolumns : Lexes (dialect escape kind) ("COLUMNS".toList ++ [' ']) _ := lexes_word ⟨by decide, rfl⟩
  have hwhere : Lexes (dialect escape kind) ("WHERE".toList ++ [' ']) _ := lexes_word ⟨by decide, rfl⟩
  have hschema : Lexes (dialect escape kind) ("TABLE_SCHEMA".toList ++ [' ']) _ := lexes_word ⟨by decide, rfl⟩
  exact run_head (hselect.append (((htable.append hcolumns).append hwhere).append hschema)) (by decide +kernel)

theorem run_information_head : Lexer.new.run (dialect escape kind)
      ("SELECT column_name, data_type, is_nullable FROM information_schema.columns ".toList ++
        "WHERE table_schema = '".toList) =
    ⟨.string [], select information_columns ++
      (words ["information_schema"] ++ [.symbol '.'] ++ words ["columns", "WHERE", "table_schema"]) ++
      [.symbol '=']⟩ := by
  have htable : Lexes (dialect escape kind) ("information_schema".toList ++ ['.']) _ :=
    lexes_symbol ⟨by decide, rfl⟩ (by decide)
  exact run_head (lexes_information.append (htable.append lexes_where)) (by decide +kernel)

theorem lexes_quoted (name : List Char) :
    Lexes (dialect escape kind) ('"' :: (double '"' name ++ "\".".toList)) [.quoted name, .symbol '.'] := by
  intro tokens
  have hopen : step (dialect escape kind) ⟨.code, tokens⟩ '"' = ⟨.quoted [], tokens⟩ := rfl
  have hclose : run (dialect escape kind) ⟨.quoted name.reverse, tokens⟩ "\".".toList =
      ⟨.code, tokens ++ [.quoted name.reverse.reverse] ++ [.symbol '.']⟩ := rfl
  rw [run_cons, hopen, run_append, run_quoted, List.append_nil, hclose, List.reverse_reverse, List.append_assoc]
  rfl

theorem run_snowflake_head (database : List Char) : Lexer.new.run (dialect escape kind)
      ("SELECT column_name, data_type, is_nullable FROM \"".toList ++ double '"' database ++
        "\".information_schema.columns ".toList ++ "WHERE table_schema = '".toList) =
    ⟨.string [], select information_columns ++ ([.quoted database, .symbol '.'] ++
      (words ["information_schema"] ++ [.symbol '.'] ++ words ["columns", "WHERE", "table_schema"])) ++
      [.symbol '=']⟩ := by
  have htable : Lexes (dialect escape kind) ("information_schema".toList ++ ['.']) _ :=
    lexes_symbol ⟨by decide, rfl⟩ (by decide)
  refine run_head (lexes_information.append ((lexes_quoted database).append (htable.append lexes_where))) ?_
  have hopen : "SELECT column_name, data_type, is_nullable FROM \"".toList = select_text information_columns ++ ['"'] := by
    decide +kernel
  rw [hopen]
  simp

theorem oracle_faithful (escape : List Char → Option Char) (schema table : List Char) :
    Faithful escape "oracle" schema table := by
  rintro text ⟨⟩
  have hlex := (lex_query_iff escape "oracle" "column_id" schema table run_oracle_head
    (run_between escape "oracle") (by decide) (by decide) (by decide)).mpr fun h => absurd h (by decide)
  exact hlex

theorem mssql_faithful (escape : List Char → Option Char) (schema table : List Char) :
    Faithful escape "mssql" schema table := by
  rintro text ⟨⟩
  have hlex := (lex_query_iff escape "mssql" "ORDINAL_POSITION" schema table run_mssql_head
    (run_between_upper escape "mssql") (by decide) (by decide) (by decide)).mpr fun h => absurd h (by decide)
  exact hlex

theorem duckdb_faithful (escape : List Char → Option Char) (schema table : List Char) :
    Faithful escape "duckdb" schema table := by
  rintro text ⟨⟩
  have hlex := (lex_query_iff escape "duckdb" "ordinal_position" schema table run_information_head
    (run_between escape "duckdb") (by decide) (by decide) (by decide)).mpr fun h => absurd h (by decide)
  exact hlex

theorem postgres_faithful (escape : List Char → Option Char) (schema table : List Char) :
    Faithful escape "postgres" schema table := by
  rintro text ⟨⟩
  have hlex := (lex_query_iff escape "postgres" "ordinal_position" schema table run_information_head
    (run_between escape "postgres") (by decide) (by decide) (by decide)).mpr fun h => absurd h (by decide)
  exact hlex

theorem snowflake_faithful_iff (escape : List Char → Option Char) {schema database table : List Char}
    {schema_part : List Char} (hsplit : split_once_dot schema = some (database, schema_part)) :
    Faithful escape "snowflake" schema table ↔ '\\' ∉ schema_part ∧ '\\' ∉ table := by
  have hquery := lex_query_iff escape "snowflake" "ordinal_position" schema_part table
    (run_snowflake_head database) (run_between escape "snowflake") (by decide) (by decide) (by decide)
  have hnames : names "snowflake" schema table = (database, schema_part, table) := by
    simp only [names, if_true, hsplit]
  have hok : columns_sql "snowflake" schema table =
      .ok ("SELECT column_name, data_type, is_nullable FROM \"".toList ++ double '"' database ++
        "\".information_schema.columns ".toList ++ "WHERE table_schema = '".toList ++ literal schema_part ++
        "' AND table_name = '".toList ++ literal table ++ "' ORDER BY ordinal_position".toList) := by
    dsimp only [columns_sql]
    rw [hsplit]
    rfl
  rw [Faithful, hnames, hok]
  constructor
  · intro h
    exact hquery.mp (h _ rfl) rfl
  · rintro hplain text ⟨⟩
    exact hquery.mpr fun _ => hplain

/-- A backslash before a quote stands for the quote. -/
def escaped_char (seen : List Char) : Option Char := seen.head?

end zed.dbt_ui.el.mcp
