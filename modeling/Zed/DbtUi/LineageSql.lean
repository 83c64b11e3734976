import Mathlib

namespace zed.sqlparser

structure Ident where
  value : String
  quote_style : Option Char
  deriving DecidableEq

/-- An identifier as it is written, quotes included. -/
def Ident.to_string (ident : Ident) : String :=
  match ident.quote_style with
  | none => ident.value
  | some '[' => "[" ++ ident.value ++ "]"
  | some quote => quote.toString ++ ident.value ++ quote.toString

mutual

inductive Query
  | mk (cte_tables : List Cte) (body : SetExpr)

inductive Cte
  | mk (name : Ident) (columns : List Ident) (query : Query)

/-- `other` stands for the bodies without a select list: VALUES, INSERT, TABLE. -/
inductive SetExpr
  | select (select : Select)
  | query (query : Query)
  | set_operation (left right : SetExpr)
  | other

inductive Select
  | mk (projection : List SelectItem) (relations : List TableWithJoins)

inductive TableWithJoins
  | mk (relation : TableFactor) (joins : List Join)

/-- A joined relation. `merged` are the columns of it that a plain star does not list:
    those of USING, the common ones of a natural join, all of a semi join. -/
inductive Join
  | mk (relation : TableFactor) (merged : List String)

/-- `other` stands for table functions, pivots and the like. -/
inductive TableFactor
  | table (name : List Ident) (alias_name : Option Ident)
  | derived (subquery : Query) (alias_name : Option Ident)
  | nested_join (table_with_joins : TableWithJoins)
  | other

/-- `left_out` are the columns that a star's options leave out (EXCLUDE, EXCEPT, ILIKE). -/
inductive SelectItem
  | wildcard (left_out : List String)
  | qualified_wildcard (kind : String) (left_out : List String)
  | unnamed_expr (expr : Expr)
  | expr_with_alias (expr : Expr) (alias_name : Ident)
  | expr_with_aliases (expr : Expr) (aliases : List Ident)

/-- `operation` stands for the kinds of expression whose operands are looked into, with
    these in the order in which they are; see below. -/
inductive Expr
  | identifier (ident : Ident)
  | compound_identifier (parts : List Ident)
  | subquery (query : Query)
  | operation (operands : List Expr)

end

inductive Statement
  | query (query : Query)
  | other

namespace Expr

def binary_op (left right : Expr) : Expr :=
  .operation [left, right]

/-- Also a cast, a nested expression, IS NULL and its kin, COLLATE, TRIM, EXTRACT,
    FLOOR, CEIL, and IN with a subquery. -/
def unary_op (expr : Expr) : Expr :=
  .operation [expr]

def in_list (expr : Expr) (list : List Expr) : Expr :=
  .operation (expr :: list)

def between (expr low high : Expr) : Expr :=
  .operation [expr, low, high]

/-- Also ILIKE and SIMILAR TO. -/
def like (expr pattern : Expr) : Expr :=
  .operation [expr, pattern]

def case (operand : Option Expr) (conditions : List (Expr × Expr)) (else_result : Option Expr) : Expr :=
  .operation (operand.toList ++ conditions.flatMap (fun (condition, result) => [condition, result]) ++
    else_result.toList)

def function (args partition_by order_by : List Expr) : Expr :=
  .operation (args ++ partition_by ++ order_by)

def tuple (items : List Expr) : Expr :=
  .operation items

def substring (expr : Expr) (substring_from substring_for : Option Expr) : Expr :=
  .operation (expr :: substring_from.toList ++ substring_for.toList)

def position (expr in_expr : Expr) : Expr :=
  .operation [expr, in_expr]

/-- A literal, an interval, and any kind not listed above. -/
def unlisted : Expr :=
  .operation []

end Expr

end zed.sqlparser

namespace zed.dbt_ui.lineage_sql

open zed.sqlparser

/-- An upstream relation the SQL may reference, found by the table identifier it
    appears as. -/
structure UpstreamRelation where
  node : String
  columns : List String

/-- An upstream node's name, and a column of it. -/
abbrev Leaf := String × String

/-- Output columns in order, with their lineage leaves. -/
structure Scope where
  columns : List (String × List Leaf)

namespace Scope

def default : Scope := ⟨[]⟩

def lookup (scope : Scope) (column : String) : Option (List Leaf) :=
  (scope.columns.find? fun entry => entry.1 == column).map Prod.snd

end Scope

/-- The text without the quotes around it, in lower case. -/
def norm_ident (to_lowercase : String → String) (ident : String) : String :=
  let trimmed := ident.toList.dropWhile (· == '"')
  to_lowercase (String.ofList (trimmed.reverse.dropWhile (· == '"')).reverse)

def last_part (text : String) : String :=
  String.ofList (text.toList.reverse.takeWhile (· != '.')).reverse

def push_all (leaves out : List Leaf) : List Leaf :=
  leaves.foldl (fun out leaf => if leaf ∈ out then out else out ++ [leaf]) out

def lookup_all (sources : List (String × Scope)) (column : String) (out : List Leaf) : List Leaf :=
  sources.foldl (fun out source => match source.2.lookup column with
    | some leaves => push_all leaves out
    | none => out) out

def UpstreamRelation.scope (relation : UpstreamRelation) : Scope :=
  ⟨relation.columns.map fun column => (column, [(relation.node, column)])⟩

/-- Explicit column aliases of a CTE rename positionally. -/
def rename_columns : List String → List (String × List Leaf) → List (String × List Leaf)
  | alias_name :: aliases, (_, leaves) :: columns => (alias_name, leaves) :: rename_columns aliases columns
  | _, columns => columns

/-- Union branches contribute lineage positionally; the names are those of the left. -/
def merge_columns : List (String × List Leaf) → List (String × List Leaf) → List (String × List Leaf)
  | (name, leaves) :: left, (_, more) :: right => (name, push_all more leaves) :: merge_columns left right
  | left, _ => left

section

variable (to_lowercase : String → String) (upstream : String → Option UpstreamRelation)

/-- The identifier that a table is looked up by. -/
def table_ident (name : List Ident) : String :=
  (name.getLast?.map fun part => norm_ident to_lowercase part.to_string).getD ""

def label (alias_name : Option Ident) (otherwise : String) : String :=
  (alias_name.map fun alias_name => norm_ident to_lowercase alias_name.value).getD otherwise

def lookup_table (ctes : String → Option Scope) (name : List Ident) : Scope :=
  let table := table_ident to_lowercase name
  match ctes table with
  | some cte => cte
  | none => match upstream table with
    | some relation => relation.scope
    | none => .default

/-- The leaves of an identifier with a qualifier: in the sources it names, else in all. -/
def compound_leaves (sources : List (String × Scope)) (parts : List Ident) (out : List Leaf) : List Leaf :=
  match parts.reverse with
  | column :: qualifier :: _ =>
    let qualifier := norm_ident to_lowercase qualifier.value
    let column := norm_ident to_lowercase column.value
    let named := sources.filter fun source => source.1 == qualifier
    if named.isEmpty then lookup_all sources column out else lookup_all named column out
  | _ => out

/-- The name of a select item without an alias, if it has one. -/
def expr_name : Expr → Option String
  | .identifier ident => some (norm_ident to_lowercase ident.value)
  | .compound_identifier parts =>
    some ((parts.getLast?.map fun ident => norm_ident to_lowercase ident.value).getD "")
  | _ => none

/-- The columns of the sources, all of them or of the one that a star names. -/
def wildcard_columns (sources : List (String × Scope)) : List (String × List Leaf) :=
  sources.flatMap fun source => source.2.columns

def star_source (sources : List (String × Scope)) (kind : String) : Option (String × Scope) :=
  sources.find? fun source => source.1 == last_part (norm_ident to_lowercase kind)

mutual

def resolve_query (query : Query) (outer_ctes : String → Option Scope) (depth : Nat) : Option Scope :=
  match query with
  | .mk cte_tables body =>
    if depth > 24 then none
    else resolve_set_expr body (resolve_ctes cte_tables outer_ctes depth) depth

/-- The CTEs in scope after those of a WITH list. -/
def resolve_ctes (cte_tables : List Cte) (ctes : String → Option Scope) (depth : Nat) : String → Option Scope :=
  match cte_tables with
  | [] => ctes
  | .mk name columns query :: rest =>
    match resolve_query query ctes (depth + 1) with
    | none => resolve_ctes rest ctes depth
    | some scope =>
      let aliases := columns.map fun column => norm_ident to_lowercase column.value
      resolve_ctes rest
        (Function.update ctes (norm_ident to_lowercase name.value) (some ⟨rename_columns aliases scope.columns⟩))
        depth

def resolve_set_expr (body : SetExpr) (ctes : String → Option Scope) (depth : Nat) : Option Scope :=
  match body with
  | .select select => some (resolve_select select ctes depth)
  | .query query => resolve_query query ctes (depth + 1)
  | .set_operation left right =>
    match resolve_set_expr left ctes depth with
    | none => none
    | some left =>
      match resolve_set_expr right ctes depth with
      | none => some left
      | some right => some ⟨merge_columns left.columns right.columns⟩
  | .other => none

def resolve_select (select : Select) (ctes : String → Option Scope) (depth : Nat) : Scope :=
  match select with
  | .mk projection relations =>
    ⟨select_columns projection (collect_relations relations ctes depth) ctes depth⟩

def collect_relations (relations : List TableWithJoins) (ctes : String → Option Scope) (depth : Nat) :
    List (String × Scope) :=
  match relations with
  | [] => []
  | table :: rest => collect_table_with_joins table ctes depth ++ collect_relations rest ctes depth

def collect_table_with_joins (table : TableWithJoins) (ctes : String → Option Scope) (depth : Nat) :
    List (String × Scope) :=
  match table with
  | .mk relation joins => collect_table_factor relation ctes depth ++ collect_joins joins ctes depth

def collect_joins (joins : List Join) (ctes : String → Option Scope) (depth : Nat) : List (String × Scope) :=
  match joins with
  | [] => []
  | .mk relation _ :: rest => collect_table_factor relation ctes depth ++ collect_joins rest ctes depth

def collect_table_factor (factor : TableFactor) (ctes : String → Option Scope) (depth : Nat) :
    List (String × Scope) :=
  match factor with
  | .table name alias_name =>
    [(label to_lowercase alias_name (table_ident to_lowercase name), lookup_table to_lowercase upstream ctes name)]
  | .derived subquery alias_name =>
    match resolve_query subquery ctes (depth + 1) with
    | none => []
    | some scope => [(label to_lowercase alias_name "", scope)]
  | .nested_join table_with_joins => collect_table_with_joins table_with_joins ctes depth
  | .other => []

def select_columns (projection : List SelectItem) (sources : List (String × Scope)) (ctes : String → Option Scope)
    (depth : Nat) : List (String × List Leaf) :=
  match projection with
  | [] => []
  | item :: rest => item_columns item sources ctes depth ++ select_columns rest sources ctes depth

def item_columns (item : SelectItem) (sources : List (String × Scope)) (ctes : String → Option Scope)
    (depth : Nat) : List (String × List Leaf) :=
  match item with
  | .wildcard _ => wildcard_columns sources
  | .qualified_wildcard kind _ => ((star_source to_lowercase sources kind).map fun source => source.2.columns).getD []
  | .unnamed_expr expr =>
    match expr_name to_lowercase expr with
    | some name => [(name, collect_expr_leaves expr sources ctes depth [])]
    | none => []
  | .expr_with_alias expr alias_name =>
    [(norm_ident to_lowercase alias_name.value, collect_expr_leaves expr sources ctes depth [])]
  | .expr_with_aliases _ _ => []

/-- Walks an expression, resolving identifier leaves through the sources. -/
def collect_expr_leaves (expr : Expr) (sources : List (String × Scope)) (ctes : String → Option Scope) (depth : Nat)
    (out : List Leaf) : List Leaf :=
  match expr with
  | .identifier ident => lookup_all sources (norm_ident to_lowercase ident.value) out
  | .compound_identifier parts => compound_leaves to_lowercase sources parts out
  | .subquery query =>
    match resolve_query query ctes (depth + 1) with
    | none => out
    | some scope => scope.columns.foldl (fun out column => push_all column.2 out) out
  | .operation operands => collect_operand_leaves operands sources ctes depth out

def collect_operand_leaves (operands : List Expr) (sources : List (String × Scope)) (ctes : String → Option Scope)
    (depth : Nat) (out : List Leaf) : List Leaf :=
  match operands with
  | [] => out
  | operand :: rest =>
    collect_operand_leaves rest sources ctes depth (collect_expr_leaves operand sources ctes depth out)

end

def last_query (statements : List Statement) : Option Query :=
  statements.reverse.findSome? fun statement => match statement with
    | .query query => some query
    | .other => none

/-- The lineage of each output column by its name; of two with one name, the first's. -/
def lineage_of (scope : Scope) : Option (List (String × List Leaf)) :=
  let out := scope.columns.foldl (fun out column =>
    if out.any fun entry => entry.1 == column.1 then out else out ++ [column]) []
  if out.isEmpty then none else some out

/-- Resolves the lineage of every output column of the last query. -/
def column_lineage (statements : List Statement) : Option (List (String × List Leaf)) :=
  (last_query statements).bind fun query =>
    (resolve_query to_lowercase upstream query (fun _ => none) 0).bind lineage_of

end

end zed.dbt_ui.lineage_sql
