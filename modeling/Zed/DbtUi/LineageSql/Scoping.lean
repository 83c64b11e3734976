import Zed.DbtUi.LineageSql

namespace zed.dbt_ui.lineage_sql

open zed.sqlparser

/-- The CTEs in scope with their columns, if those are known, the last defined first. -/
abbrev Env := List (String × Option Scope)

def nearest {α : Type} (entries : List (String × α)) (name : String) : Option α :=
  (entries.find? fun entry => entry.1 == name).map Prod.snd

/-- What a table reference stands for. -/
inductive Found where
  | cte (scope : Scope)
  | upstream (relation : UpstreamRelation)
  | unknown

def Found.scope : Found → Scope
  | .cte scope => scope
  | .upstream relation => relation.scope
  | .unknown => .default

section

variable (to_lowercase : String → String) (upstream : String → Option UpstreamRelation)

def find_upstream (table : String) : Found :=
  match upstream table with
  | some relation => .upstream relation
  | none => .unknown

/-- What the resolver takes a table reference for. -/
def found_table (ctes : String → Option Scope) (name : List Ident) : Found :=
  match ctes (table_ident to_lowercase name) with
  | some scope => .cte scope
  | none => find_upstream upstream (table_ident to_lowercase name)

/-- What a table reference stands for lexically: a bare name for the nearest CTE of
    that name defined before it, else for the upstream relation; a qualified name
    always for the upstream relation. -/
def lexical_table (env : Env) (name : List Ident) : Found :=
  match name with
  | [_] =>
    match nearest env (table_ident to_lowercase name) with
    | some (some scope) => .cte scope
    | some none => .unknown
    | none => find_upstream upstream (table_ident to_lowercase name)
  | _ => find_upstream upstream (table_ident to_lowercase name)

/-! ## Lineage under lexical scoping

As the resolver walks a query, at any depth, with every table reference taken for what
it stands for lexically. -/

mutual

def lexical_query (query : Query) (env : Env) : Option Scope :=
  match query with
  | .mk cte_tables body => lexical_set_expr body (lexical_ctes cte_tables env)

def lexical_ctes (cte_tables : List Cte) (env : Env) : Env :=
  match cte_tables with
  | [] => env
  | .mk name columns query :: rest =>
    let aliases := columns.map fun column => norm_ident to_lowercase column.value
    let scope := (lexical_query query env).map fun scope => ⟨rename_columns aliases scope.columns⟩
    lexical_ctes rest ((norm_ident to_lowercase name.value, scope) :: env)

def lexical_set_expr (body : SetExpr) (env : Env) : Option Scope :=
  match body with
  | .select select => some (lexical_select select env)
  | .query query => lexical_query query env
  | .set_operation left right =>
    match lexical_set_expr left env with
    | none => none
    | some left =>
      match lexical_set_expr right env with
      | none => some left
      | some right => some ⟨merge_columns left.columns right.columns⟩
  | .other => none

def lexical_select (select : Select) (env : Env) : Scope :=
  match select with
  | .mk projection relations => ⟨lexical_columns projection (lexical_relations relations env) env⟩

def lexical_relations (relations : List TableWithJoins) (env : Env) : List (String × Scope) :=
  match relations with
  | [] => []
  | table :: rest => lexical_table_with_joins table env ++ lexical_relations rest env

def lexical_table_with_joins (table : TableWithJoins) (env : Env) : List (String × Scope) :=
  match table with
  | .mk relation joins => lexical_factor relation env ++ lexical_joins joins env

def lexical_joins (joins : List Join) (env : Env) : List (String × Scope) :=
  match joins with
  | [] => []
  | .mk relation _ :: rest => lexical_factor relation env ++ lexical_joins rest env

def lexical_factor (factor : TableFactor) (env : Env) : List (String × Scope) :=
  match factor with
  | .table name alias_name =>
    [(label to_lowercase alias_name (table_ident to_lowercase name),
      (lexical_table to_lowercase upstream env name).scope)]
  | .derived subquery alias_name =>
    match lexical_query subquery env with
    | none => []
    | some scope => [(label to_lowercase alias_name "", scope)]
  | .nested_join table_with_joins => lexical_table_with_joins table_with_joins env
  | .other => []

def lexical_columns (projection : List SelectItem) (sources : List (String × Scope)) (env : Env) :
    List (String × List Leaf) :=
  match projection with
  | [] => []
  | item :: rest => lexical_item item sources env ++ lexical_columns rest sources env

def lexical_item (item : SelectItem) (sources : List (String × Scope)) (env : Env) : List (String × List Leaf) :=
  match item with
  | .wildcard _ => wildcard_columns sources
  | .qualified_wildcard kind _ => ((star_source to_lowercase sources kind).map fun source => source.2.columns).getD []
  | .unnamed_expr expr =>
    match expr_name to_lowercase expr with
    | some name => [(name, lexical_leaves expr sources env [])]
    | none => []
  | .expr_with_alias expr alias_name =>
    [(norm_ident to_lowercase alias_name.value, lexical_leaves expr sources env [])]
  | .expr_with_aliases _ _ => []

def lexical_leaves (expr : Expr) (sources : List (String × Scope)) (env : Env) (out : List Leaf) : List Leaf :=
  match expr with
  | .identifier ident => lookup_all sources (norm_ident to_lowercase ident.value) out
  | .compound_identifier parts => compound_leaves to_lowercase sources parts out
  | .subquery query =>
    match lexical_query query env with
    | none => out
    | some scope => scope.columns.foldl (fun out column => push_all column.2 out) out
  | .operation operands => lexical_operand_leaves operands sources env out

def lexical_operand_leaves (operands : List Expr) (sources : List (String × Scope)) (env : Env)
    (out : List Leaf) : List Leaf :=
  match operands with
  | [] => out
  | operand :: rest => lexical_operand_leaves rest sources env (lexical_leaves operand sources env out)

end

/-- The lineage of the last query's output columns under lexical scoping. -/
def lexical_lineage (statements : List Statement) : Option (List (String × List Leaf)) :=
  (last_query statements).bind fun query => (lexical_query to_lowercase upstream query []).bind lineage_of

/-! ## The table references of a query -/

mutual

/-- The resolver reaches each table reference and takes it for what it stands for. -/
def LexicalQuery (query : Query) (ctes : String → Option Scope) (env : Env) (depth : Nat) : Prop :=
  match query with
  | .mk cte_tables body =>
    depth ≤ 24 ∧ LexicalCtes cte_tables ctes env depth ∧
      LexicalSetExpr body (resolve_ctes to_lowercase upstream cte_tables ctes depth)
        (lexical_ctes to_lowercase upstream cte_tables env) depth

def LexicalCtes (cte_tables : List Cte) (ctes : String → Option Scope) (env : Env) (depth : Nat) : Prop :=
  match cte_tables with
  | [] => True
  | .mk name columns query :: rest =>
    LexicalQuery query ctes env (depth + 1) ∧
      LexicalCtes rest (resolve_ctes to_lowercase upstream [.mk name columns query] ctes depth)
        (lexical_ctes to_lowercase upstream [.mk name columns query] env) depth

def LexicalSetExpr (body : SetExpr) (ctes : String → Option Scope) (env : Env) (depth : Nat) : Prop :=
  match body with
  | .select select => LexicalSelect select ctes env depth
  | .query query => LexicalQuery query ctes env (depth + 1)
  | .set_operation left right => LexicalSetExpr left ctes env depth ∧ LexicalSetExpr right ctes env depth
  | .other => True

def LexicalSelect (select : Select) (ctes : String → Option Scope) (env : Env) (depth : Nat) : Prop :=
  match select with
  | .mk projection relations => LexicalRelations relations ctes env depth ∧ LexicalItems projection ctes env depth

def LexicalRelations (relations : List TableWithJoins) (ctes : String → Option Scope) (env : Env) (depth : Nat) :
    Prop :=
  match relations with
  | [] => True
  | table :: rest => LexicalTable table ctes env depth ∧ LexicalRelations rest ctes env depth

def LexicalTable (table : TableWithJoins) (ctes : String → Option Scope) (env : Env) (depth : Nat) : Prop :=
  match table with
  | .mk relation joins => LexicalFactor relation ctes env depth ∧ LexicalJoins joins ctes env depth

def LexicalJoins (joins : List Join) (ctes : String → Option Scope) (env : Env) (depth : Nat) : Prop :=
  match joins with
  | [] => True
  | .mk relation _ :: rest => LexicalFactor relation ctes env depth ∧ LexicalJoins rest ctes env depth

def LexicalFactor (factor : TableFactor) (ctes : String → Option Scope) (env : Env) (depth : Nat) : Prop :=
  match factor with
  | .table name _ => found_table to_lowercase upstream ctes name = lexical_table to_lowercase upstream env name
  | .derived subquery _ => LexicalQuery subquery ctes env (depth + 1)
  | .nested_join table_with_joins => LexicalTable table_with_joins ctes env depth
  | .other => True

def LexicalItems (projection : List SelectItem) (ctes : String → Option Scope) (env : Env) (depth : Nat) : Prop :=
  match projection with
  | [] => True
  | .expr_with_alias expr _ :: rest => LexicalExpr expr ctes env depth ∧ LexicalItems rest ctes env depth
  | .wildcard _ :: rest | .qualified_wildcard _ _ :: rest | .unnamed_expr _ :: rest
  | .expr_with_aliases _ _ :: rest => LexicalItems rest ctes env depth

def LexicalExpr (expr : Expr) (ctes : String → Option Scope) (env : Env) (depth : Nat) : Prop :=
  match expr with
  | .identifier _ | .compound_identifier _ => True
  | .subquery query => LexicalQuery query ctes env (depth + 1)
  | .operation operands => LexicalExprs operands ctes env depth

def LexicalExprs (operands : List Expr) (ctes : String → Option Scope) (env : Env) (depth : Nat) : Prop :=
  match operands with
  | [] => True
  | operand :: rest => LexicalExpr operand ctes env depth ∧ LexicalExprs rest ctes env depth

end

/-! ## When they are taken for what they stand for -/

/-- Whether a body that is this deep resolves: its first select is not too deep. -/
def answers : SetExpr → Nat → Bool
  | .select _, _ => true
  | .query (.mk _ body), depth => depth + 1 ≤ 24 && answers body (depth + 1)
  | .set_operation left _, depth => answers left depth
  | .other, _ => false

def query_answers : Query → Nat → Bool
  | .mk _ body, depth => depth ≤ 24 && answers body depth

/-- The names of the CTEs in scope, the last defined first, and whether they resolve. -/
def declared_ctes : List Cte → List (String × Bool) → Nat → List (String × Bool)
  | [], declared, _ => declared
  | .mk name _ query :: rest, declared, depth =>
    declared_ctes rest ((norm_ident to_lowercase name.value, query_answers query (depth + 1)) :: declared) depth

/-- A table reference that nothing hides: a qualified name that does not end in the name
    of a CTE, and a bare name whose nearest CTE resolves, unless nothing else has it. -/
def ClearName (declared : List (String × Bool)) (name : List Ident) : Prop :=
  match name with
  | [_] =>
    nearest declared (table_ident to_lowercase name) = some false →
      (table_ident to_lowercase name, true) ∉ declared ∧ upstream (table_ident to_lowercase name) = none
  | _ => (table_ident to_lowercase name, true) ∉ declared

mutual

/-- Every table reference of the query is clear, and no query is nested more than 24
    deep. -/
def ClearQuery (query : Query) (declared : List (String × Bool)) (depth : Nat) : Prop :=
  match query with
  | .mk cte_tables body =>
    depth ≤ 24 ∧ ClearCtes cte_tables declared depth ∧
      ClearSetExpr body (declared_ctes to_lowercase cte_tables declared depth) depth

def ClearCtes (cte_tables : List Cte) (declared : List (String × Bool)) (depth : Nat) : Prop :=
  match cte_tables with
  | [] => True
  | .mk name _ query :: rest =>
    ClearQuery query declared (depth + 1) ∧
      ClearCtes rest ((norm_ident to_lowercase name.value, query_answers query (depth + 1)) :: declared) depth

def ClearSetExpr (body : SetExpr) (declared : List (String × Bool)) (depth : Nat) : Prop :=
  match body with
  | .select select => ClearSelect select declared depth
  | .query query => ClearQuery query declared (depth + 1)
  | .set_operation left right => ClearSetExpr left declared depth ∧ ClearSetExpr right declared depth
  | .other => True

def ClearSelect (select : Select) (declared : List (String × Bool)) (depth : Nat) : Prop :=
  match select with
  | .mk projection relations => ClearRelations relations declared depth ∧ ClearItems projection declared depth

def ClearRelations (relations : List TableWithJoins) (declared : List (String × Bool)) (depth : Nat) : Prop :=
  match relations with
  | [] => True
  | table :: rest => ClearTable table declared depth ∧ ClearRelations rest declared depth

def ClearTable (table : TableWithJoins) (declared : List (String × Bool)) (depth : Nat) : Prop :=
  match table with
  | .mk relation joins => ClearFactor relation declared depth ∧ ClearJoins joins declared depth

def ClearJoins (joins : List Join) (declared : List (String × Bool)) (depth : Nat) : Prop :=
  match joins with
  | [] => True
  | .mk relation _ :: rest => ClearFactor relation declared depth ∧ ClearJoins rest declared depth

def ClearFactor (factor : TableFactor) (declared : List (String × Bool)) (depth : Nat) : Prop :=
  match factor with
  | .table name _ => ClearName to_lowercase upstream declared name
  | .derived subquery _ => ClearQuery subquery declared (depth + 1)
  | .nested_join table_with_joins => ClearTable table_with_joins declared depth
  | .other => True

def ClearItems (projection : List SelectItem) (declared : List (String × Bool)) (depth : Nat) : Prop :=
  match projection with
  | [] => True
  | .expr_with_alias expr _ :: rest => ClearExpr expr declared depth ∧ ClearItems rest declared depth
  | .wildcard _ :: rest | .qualified_wildcard _ _ :: rest | .unnamed_expr _ :: rest
  | .expr_with_aliases _ _ :: rest => ClearItems rest declared depth

def ClearExpr (expr : Expr) (declared : List (String × Bool)) (depth : Nat) : Prop :=
  match expr with
  | .identifier _ | .compound_identifier _ => True
  | .subquery query => ClearQuery query declared (depth + 1)
  | .operation operands => ClearExprs operands declared depth

def ClearExprs (operands : List Expr) (declared : List (String × Bool)) (depth : Nat) : Prop :=
  match operands with
  | [] => True
  | operand :: rest => ClearExpr operand declared depth ∧ ClearExprs rest declared depth

end

end

section

variable {to_lowercase : String → String} {upstream : String → Option UpstreamRelation}

/-- The nearest CTE of a name that resolved. -/
def resolved (env : Env) (name : String) : Option Scope :=
  env.findSome? fun entry => if entry.1 = name then entry.2 else none

def flags (env : Env) : List (String × Bool) :=
  env.map fun entry => (entry.1, entry.2.isSome)

theorem nearest_cons {α : Type} (entry : String × α) (rest : List (String × α)) (name : String) :
    nearest (entry :: rest) name = if entry.1 = name then some entry.2 else nearest rest name := by
  by_cases hname : entry.1 = name <;> simp [nearest, hname]

theorem resolved_cons (entry : String × Option Scope) (rest : Env) (name : String) :
    resolved (entry :: rest) name = if entry.1 = name then entry.2.or (resolved rest name) else resolved rest name := by
  by_cases hname : entry.1 = name
  · cases hscope : entry.2 <;> simp [resolved, hname, hscope]
  · simp [resolved, hname]

theorem nearest_flags (env : Env) (name : String) : nearest (flags env) name = (nearest env name).map Option.isSome := by
  induction env with
  | nil => rfl
  | cons entry rest ih =>
    have hcons : flags (entry :: rest) = (entry.1, entry.2.isSome) :: flags rest := rfl
    rw [hcons, nearest_cons, nearest_cons, ih]
    split <;> simp

theorem resolved_of_nearest {env : Env} {name : String} {scope : Scope}
    (hnearest : nearest env name = some (some scope)) : resolved env name = some scope := by
  induction env with
  | nil => simp [nearest] at hnearest
  | cons entry rest ih =>
    rw [nearest_cons] at hnearest
    rw [resolved_cons]
    split at hnearest
    · next hname => simp [hname, Option.some.inj hnearest]
    · next hname => rw [if_neg hname, ih hnearest]

theorem resolved_of_undeclared {env : Env} {name : String} (hnearest : nearest env name = none) :
    resolved env name = none := by
  induction env with
  | nil => rfl
  | cons entry rest ih =>
    rw [nearest_cons] at hnearest
    rw [resolved_cons]
    split at hnearest
    · simp at hnearest
    · next hname => rw [if_neg hname, ih hnearest]

theorem mem_flags {env : Env} {name : String} : (name, true) ∈ flags env ↔ resolved env name ≠ none := by
  induction env with
  | nil => simp [flags, resolved]
  | cons entry rest ih =>
    have hcons : flags (entry :: rest) = (entry.1, entry.2.isSome) :: flags rest := rfl
    rw [hcons, List.mem_cons, ih, resolved_cons]
    by_cases hname : entry.1 = name
    · cases hscope : entry.2 <;> simp [hname]
    · simp [hname, Ne.symm hname]

/-- The resolver finds the nearest CTE of a name that resolved. -/
structure Agree (ctes : String → Option Scope) (env : Env) (declared : List (String × Bool)) : Prop where
  declared : declared = flags env
  ctes : ∀ name, ctes name = resolved env name

theorem Agree.nil : Agree (fun _ => none) [] [] := ⟨rfl, fun _ => rfl⟩

theorem find_upstream_ne_cte (table : String) (scope : Scope) : find_upstream upstream table ≠ .cte scope := by
  unfold find_upstream
  split <;> simp

theorem find_upstream_unknown (table : String) :
    find_upstream upstream table = .unknown ↔ upstream table = none := by
  unfold find_upstream
  cases upstream table <;> simp

theorem lookup_table_eq (ctes : String → Option Scope) (name : List Ident) :
    lookup_table to_lowercase upstream ctes name = (found_table to_lowercase upstream ctes name).scope := by
  cases hcte : ctes (table_ident to_lowercase name) with
  | some scope => simp [lookup_table, found_table, hcte, Found.scope]
  | none =>
    cases hrelation : upstream (table_ident to_lowercase name) <;>
      simp [lookup_table, found_table, find_upstream, hcte, hrelation, Found.scope]

theorem found_table_iff {ctes : String → Option Scope} {env : Env} {declared : List (String × Bool)}
    (hagree : Agree ctes env declared) (name : List Ident) :
    found_table to_lowercase upstream ctes name = lexical_table to_lowercase upstream env name ↔
      ClearName to_lowercase upstream declared name := by
  have hqualified : found_table to_lowercase upstream ctes name =
        find_upstream upstream (table_ident to_lowercase name) ↔
      (table_ident to_lowercase name, true) ∉ declared := by
    rw [hagree.declared, mem_flags, not_not, ← hagree.ctes, found_table]
    cases ctes (table_ident to_lowercase name) with
    | none => simp
    | some scope => simpa using (find_upstream_ne_cte _ scope).symm
  match name with
  | [] => exact hqualified
  | _ :: _ :: _ => exact hqualified
  | [bare] =>
    rw [lexical_table, ClearName, hagree.declared, nearest_flags]
    cases hnearest : nearest env (table_ident to_lowercase [bare]) with
    | none =>
      have hnone := hagree.ctes (table_ident to_lowercase [bare])
      rw [resolved_of_undeclared hnearest] at hnone
      simp [found_table, hnone]
    | some scope =>
      cases scope with
      | some scope =>
        have hsome := hagree.ctes (table_ident to_lowercase [bare])
        rw [resolved_of_nearest hnearest] at hsome
        simp [found_table, hsome]
      | none =>
        rw [mem_flags, not_not, ← hagree.ctes, found_table]
        cases ctes (table_ident to_lowercase [bare]) with
        | none => simpa using find_upstream_unknown _
        | some scope => simp

theorem Agree.cte {ctes : String → Option Scope} {env : Env} {declared : List (String × Bool)}
    (hagree : Agree ctes env declared) (name : Ident) (columns : List Ident) (query : Query) (depth : Nat)
    (hanswers : (resolve_query to_lowercase upstream query ctes (depth + 1)).isSome = query_answers query (depth + 1))
    (hsame : resolve_query to_lowercase upstream query ctes (depth + 1) = lexical_query to_lowercase upstream query env) :
    Agree (resolve_ctes to_lowercase upstream [.mk name columns query] ctes depth)
      (lexical_ctes to_lowercase upstream [.mk name columns query] env)
      ((norm_ident to_lowercase name.value, query_answers query (depth + 1)) :: declared) := by
  rw [lexical_ctes, lexical_ctes, ← hsame, ← hanswers, resolve_ctes]
  constructor
  · simp [flags, hagree.declared]
  · intro other
    rw [resolved_cons]
    cases hresolve : resolve_query to_lowercase upstream query ctes (depth + 1) with
    | none => simp [resolve_ctes, hagree.ctes]
    | some scope =>
      by_cases hname : norm_ident to_lowercase name.value = other
      · simp [resolve_ctes, hname]
      · simp [resolve_ctes, hname, Function.update_of_ne (Ne.symm hname), hagree.ctes]

theorem resolve_ctes_cons (cte : Cte) (rest : List Cte) (ctes : String → Option Scope) (depth : Nat) :
    resolve_ctes to_lowercase upstream (cte :: rest) ctes depth =
      resolve_ctes to_lowercase upstream rest (resolve_ctes to_lowercase upstream [cte] ctes depth) depth := by
  obtain ⟨name, columns, query⟩ := cte
  rw [resolve_ctes, resolve_ctes]
  split <;> simp [resolve_ctes]

theorem lexical_ctes_cons (cte : Cte) (rest : List Cte) (env : Env) :
    lexical_ctes to_lowercase upstream (cte :: rest) env =
      lexical_ctes to_lowercase upstream rest (lexical_ctes to_lowercase upstream [cte] env) := by
  obtain ⟨name, columns, query⟩ := cte
  simp only [lexical_ctes]

theorem resolve_set_expr_isSome (ctes : String → Option Scope) : ∀ (body : SetExpr) (depth : Nat),
    (resolve_set_expr to_lowercase upstream body ctes depth).isSome = answers body depth
  | .select select, depth => by rw [resolve_set_expr, answers, Option.isSome_some]
  | .query (.mk cte_tables body), depth => by
    rw [resolve_set_expr, resolve_query, answers]
    by_cases hdepth : depth + 1 > 24
    · simp only [if_pos hdepth, Nat.not_le_of_gt hdepth, decide_false, Bool.false_and, Option.isSome_none]
    · rw [if_neg hdepth, resolve_set_expr_isSome _ body (depth + 1)]
      simp [Nat.le_of_not_gt hdepth]
  | .set_operation left right, depth => by
    have hleft := resolve_set_expr_isSome ctes left depth
    rw [resolve_set_expr, answers, ← hleft]
    cases resolve_set_expr to_lowercase upstream left ctes depth with
    | none => rfl
    | some left => cases resolve_set_expr to_lowercase upstream right ctes depth <;> rfl
  | .other, depth => by rw [resolve_set_expr, answers, Option.isSome_none]

theorem resolve_query_isSome (query : Query) (ctes : String → Option Scope) (depth : Nat) :
    (resolve_query to_lowercase upstream query ctes depth).isSome = query_answers query depth := by
  obtain ⟨cte_tables, body⟩ := query
  rw [resolve_query, query_answers]
  by_cases hdepth : depth > 24
  · simp only [if_pos hdepth, Nat.not_le_of_gt hdepth, decide_false, Bool.false_and, Option.isSome_none]
  · rw [if_neg hdepth, resolve_set_expr_isSome]
    simp [Nat.le_of_not_gt hdepth]

/-- Two conditions that are the same, and what follows from them. -/
def Follows (lexical clear result : Prop) : Prop :=
  (lexical ↔ clear) ∧ (clear → result)

theorem Follows.and {lexical clear result lexical' clear' result' : Prop} (h : Follows lexical clear result)
    (h' : Follows lexical' clear' result') : Follows (lexical ∧ lexical') (clear ∧ clear') (result ∧ result') :=
  ⟨and_congr h.1 h'.1, And.imp h.2 h'.2⟩

theorem Follows.then {lexical clear result lexical' clear' result' : Prop} (h : Follows lexical clear result)
    (h' : result → Follows lexical' clear' result') :
    Follows (lexical ∧ lexical') (clear ∧ clear') (result ∧ result') := by
  refine ⟨?_, fun hclear => ⟨h.2 hclear.1, (h' (h.2 hclear.1)).2 hclear.2⟩⟩
  constructor
  · intro hlexical
    have hclear := h.1.mp hlexical.1
    exact ⟨hclear, (h' (h.2 hclear)).1.mp hlexical.2⟩
  · intro hclear
    exact ⟨h.1.mpr hclear.1, (h' (h.2 hclear.1)).1.mpr hclear.2⟩

theorem Follows.result {lexical clear result result' : Prop} (h : Follows lexical clear result)
    (himp : result → result') : Follows lexical clear result' :=
  ⟨h.1, fun hclear => himp (h.2 hclear)⟩

theorem Follows.of_result {result : Prop} (h : result) : Follows True True result :=
  ⟨Iff.rfl, fun _ => h⟩

mutual

theorem query_follows : ∀ (query : Query) (ctes : String → Option Scope) (env : Env) (declared : List (String × Bool))
    (depth : Nat), Agree ctes env declared →
    Follows (LexicalQuery to_lowercase upstream query ctes env depth)
      (ClearQuery to_lowercase upstream query declared depth)
      (resolve_query to_lowercase upstream query ctes depth = lexical_query to_lowercase upstream query env)
  | .mk cte_tables body, ctes, env, declared, depth, hagree => by
    rw [LexicalQuery, ClearQuery, resolve_query, lexical_query]
    have hdepth : Follows (depth ≤ 24) (depth ≤ 24) (depth ≤ 24) := ⟨Iff.rfl, id⟩
    have hbody := (ctes_follows cte_tables ctes env declared depth hagree).then fun hagree' =>
      set_expr_follows body _ _ _ depth hagree'
    refine (hdepth.and hbody).result ?_
    rintro ⟨hle, -, hsame⟩
    rw [if_neg (Nat.not_lt_of_le hle), hsame]

theorem ctes_follows : ∀ (cte_tables : List Cte) (ctes : String → Option Scope) (env : Env)
    (declared : List (String × Bool)) (depth : Nat), Agree ctes env declared →
    Follows (LexicalCtes to_lowercase upstream cte_tables ctes env depth)
      (ClearCtes to_lowercase upstream cte_tables declared depth)
      (Agree (resolve_ctes to_lowercase upstream cte_tables ctes depth)
        (lexical_ctes to_lowercase upstream cte_tables env) (declared_ctes to_lowercase cte_tables declared depth))
  | [], ctes, env, declared, depth, hagree => by
    rw [LexicalCtes, ClearCtes, resolve_ctes, lexical_ctes, declared_ctes]
    exact .of_result hagree
  | .mk name columns query :: rest, ctes, env, declared, depth, hagree => by
    rw [LexicalCtes, ClearCtes, resolve_ctes_cons (.mk name columns query) rest,
      lexical_ctes_cons (.mk name columns query) rest, declared_ctes]
    refine ((query_follows query ctes env declared (depth + 1) hagree).then fun hsame => ?_).result And.right
    exact ctes_follows rest _ _ _ depth
      (hagree.cte name columns query depth (resolve_query_isSome query ctes (depth + 1)) hsame)

theorem set_expr_follows : ∀ (body : SetExpr) (ctes : String → Option Scope) (env : Env)
    (declared : List (String × Bool)) (depth : Nat), Agree ctes env declared →
    Follows (LexicalSetExpr to_lowercase upstream body ctes env depth)
      (ClearSetExpr to_lowercase upstream body declared depth)
      (resolve_set_expr to_lowercase upstream body ctes depth = lexical_set_expr to_lowercase upstream body env)
  | .select select, ctes, env, declared, depth, hagree => by
    rw [LexicalSetExpr, ClearSetExpr, resolve_set_expr, lexical_set_expr]
    exact (select_follows select ctes env declared depth hagree).result (congrArg some)
  | .query query, ctes, env, declared, depth, hagree => by
    rw [LexicalSetExpr, ClearSetExpr, resolve_set_expr, lexical_set_expr]
    exact query_follows query ctes env declared (depth + 1) hagree
  | .set_operation left right, ctes, env, declared, depth, hagree => by
    rw [LexicalSetExpr, ClearSetExpr, resolve_set_expr, lexical_set_expr]
    refine ((set_expr_follows left ctes env declared depth hagree).and
      (set_expr_follows right ctes env declared depth hagree)).result ?_
    rintro ⟨hleft, hright⟩
    cases hl : lexical_set_expr to_lowercase upstream left env with
    | none => simp only [hleft, hl]
    | some l => cases hr : lexical_set_expr to_lowercase upstream right env <;> simp only [hleft, hright, hl, hr]
  | .other, ctes, env, declared, depth, _ => by
    rw [LexicalSetExpr, ClearSetExpr, resolve_set_expr, lexical_set_expr]
    exact .of_result rfl

theorem select_follows : ∀ (select : Select) (ctes : String → Option Scope) (env : Env)
    (declared : List (String × Bool)) (depth : Nat), Agree ctes env declared →
    Follows (LexicalSelect to_lowercase upstream select ctes env depth)
      (ClearSelect to_lowercase upstream select declared depth)
      (resolve_select to_lowercase upstream select ctes depth = lexical_select to_lowercase upstream select env)
  | .mk projection relations, ctes, env, declared, depth, hagree => by
    rw [LexicalSelect, ClearSelect, resolve_select, lexical_select]
    refine ((relations_follows relations ctes env declared depth hagree).and
      (items_follows projection ctes env declared depth hagree)).result ?_
    rintro ⟨hsources, hcolumns⟩
    rw [hsources, hcolumns]

theorem relations_follows : ∀ (relations : List TableWithJoins) (ctes : String → Option Scope) (env : Env)
    (declared : List (String × Bool)) (depth : Nat), Agree ctes env declared →
    Follows (LexicalRelations to_lowercase upstream relations ctes env depth)
      (ClearRelations to_lowercase upstream relations declared depth)
      (collect_relations to_lowercase upstream relations ctes depth =
        lexical_relations to_lowercase upstream relations env)
  | [], ctes, env, declared, depth, _ => by
    rw [LexicalRelations, ClearRelations, collect_relations, lexical_relations]
    exact .of_result rfl
  | table :: rest, ctes, env, declared, depth, hagree => by
    rw [LexicalRelations, ClearRelations, collect_relations, lexical_relations]
    refine ((table_follows table ctes env declared depth hagree).and
      (relations_follows rest ctes env declared depth hagree)).result ?_
    rintro ⟨htable, hrest⟩
    rw [htable, hrest]

theorem table_follows : ∀ (table : TableWithJoins) (ctes : String → Option Scope) (env : Env)
    (declared : List (String × Bool)) (depth : Nat), Agree ctes env declared →
    Follows (LexicalTable to_lowercase upstream table ctes env depth)
      (ClearTable to_lowercase upstream table declared depth)
      (collect_table_with_joins to_lowercase upstream table ctes depth =
        lexical_table_with_joins to_lowercase upstream table env)
  | .mk relation joins, ctes, env, declared, depth, hagree => by
    rw [LexicalTable, ClearTable, collect_table_with_joins, lexical_table_with_joins]
    refine ((factor_follows relation ctes env declared depth hagree).and
      (joins_follows joins ctes env declared depth hagree)).result ?_
    rintro ⟨hrelation, hjoins⟩
    rw [hrelation, hjoins]

theorem joins_follows : ∀ (joins : List Join) (ctes : String → Option Scope) (env : Env)
    (declared : List (String × Bool)) (depth : Nat), Agree ctes env declared →
    Follows (LexicalJoins to_lowercase upstream joins ctes env depth)
      (ClearJoins to_lowercase upstream joins declared depth)
      (collect_joins to_lowercase upstream joins ctes depth = lexical_joins to_lowercase upstream joins env)
  | [], ctes, env, declared, depth, _ => by
    rw [LexicalJoins, ClearJoins, collect_joins, lexical_joins]
    exact .of_result rfl
  | .mk relation merged :: rest, ctes, env, declared, depth, hagree => by
    rw [LexicalJoins, ClearJoins, collect_joins, lexical_joins]
    refine ((factor_follows relation ctes env declared depth hagree).and
      (joins_follows rest ctes env declared depth hagree)).result ?_
    rintro ⟨hrelation, hrest⟩
    rw [hrelation, hrest]

theorem factor_follows : ∀ (factor : TableFactor) (ctes : String → Option Scope) (env : Env)
    (declared : List (String × Bool)) (depth : Nat), Agree ctes env declared →
    Follows (LexicalFactor to_lowercase upstream factor ctes env depth)
      (ClearFactor to_lowercase upstream factor declared depth)
      (collect_table_factor to_lowercase upstream factor ctes depth = lexical_factor to_lowercase upstream factor env)
  | .table name alias_name, ctes, env, declared, depth, hagree => by
    rw [LexicalFactor, ClearFactor, collect_table_factor, lexical_factor]
    have hiff : found_table to_lowercase upstream ctes name = lexical_table to_lowercase upstream env name ↔
        ClearName to_lowercase upstream declared name := found_table_iff hagree name
    refine ⟨hiff, fun hclear => ?_⟩
    rw [lookup_table_eq, hiff.mpr hclear]
  | .derived subquery alias_name, ctes, env, declared, depth, hagree => by
    rw [LexicalFactor, ClearFactor, collect_table_factor, lexical_factor]
    refine (query_follows subquery ctes env declared (depth + 1) hagree).result fun hsame => ?_
    cases hscope : lexical_query to_lowercase upstream subquery env <;> simp only [hsame, hscope]
  | .nested_join table_with_joins, ctes, env, declared, depth, hagree => by
    rw [LexicalFactor, ClearFactor, collect_table_factor, lexical_factor]
    exact table_follows table_with_joins ctes env declared depth hagree
  | .other, ctes, env, declared, depth, _ => by
    rw [LexicalFactor, ClearFactor, collect_table_factor, lexical_factor]
    exact .of_result rfl

theorem items_follows : ∀ (projection : List SelectItem) (ctes : String → Option Scope) (env : Env)
    (declared : List (String × Bool)) (depth : Nat), Agree ctes env declared →
    Follows (LexicalItems to_lowercase upstream projection ctes env depth)
      (ClearItems to_lowercase upstream projection declared depth)
      (∀ sources, select_columns to_lowercase upstream projection sources ctes depth =
        lexical_columns to_lowercase upstream projection sources env)
  | [], ctes, env, declared, depth, _ => by
    rw [LexicalItems, ClearItems]
    exact .of_result fun sources => by rw [select_columns, lexical_columns]
  | .wildcard left_out :: rest, ctes, env, declared, depth, hagree => by
    rw [LexicalItems, ClearItems]
    refine (items_follows rest ctes env declared depth hagree).result fun hrest sources => ?_
    rw [select_columns, lexical_columns, item_columns, lexical_item, hrest]
  | .qualified_wildcard kind left_out :: rest, ctes, env, declared, depth, hagree => by
    rw [LexicalItems, ClearItems]
    refine (items_follows rest ctes env declared depth hagree).result fun hrest sources => ?_
    rw [select_columns, lexical_columns, item_columns, lexical_item, hrest]
  | .unnamed_expr expr :: rest, ctes, env, declared, depth, hagree => by
    rw [LexicalItems, ClearItems]
    refine (items_follows rest ctes env declared depth hagree).result fun hrest sources => ?_
    rw [select_columns, lexical_columns, item_columns, lexical_item, hrest]
    cases expr <;> simp [expr_name, collect_expr_leaves, lexical_leaves]
  | .expr_with_alias expr alias_name :: rest, ctes, env, declared, depth, hagree => by
    rw [LexicalItems, ClearItems]
    refine ((expr_follows expr ctes env declared depth hagree).and
      (items_follows rest ctes env declared depth hagree)).result ?_
    rintro ⟨hexpr, hrest⟩ sources
    rw [select_columns, lexical_columns, item_columns, lexical_item, hrest, hexpr]
  | .expr_with_aliases expr aliases :: rest, ctes, env, declared, depth, hagree => by
    rw [LexicalItems, ClearItems]
    refine (items_follows rest ctes env declared depth hagree).result fun hrest sources => ?_
    rw [select_columns, lexical_columns, item_columns, lexical_item, hrest]

theorem expr_follows : ∀ (expr : Expr) (ctes : String → Option Scope) (env : Env) (declared : List (String × Bool))
    (depth : Nat), Agree ctes env declared →
    Follows (LexicalExpr to_lowercase upstream expr ctes env depth)
      (ClearExpr to_lowercase upstream expr declared depth)
      (∀ sources out, collect_expr_leaves to_lowercase upstream expr sources ctes depth out =
        lexical_leaves to_lowercase upstream expr sources env out)
  | .identifier ident, ctes, env, declared, depth, _ => by
    rw [LexicalExpr, ClearExpr]
    exact .of_result fun sources out => by rw [collect_expr_leaves, lexical_leaves]
  | .compound_identifier parts, ctes, env, declared, depth, _ => by
    rw [LexicalExpr, ClearExpr]
    exact .of_result fun sources out => by rw [collect_expr_leaves, lexical_leaves]
  | .subquery query, ctes, env, declared, depth, hagree => by
    rw [LexicalExpr, ClearExpr]
    refine (query_follows query ctes env declared (depth + 1) hagree).result fun hsame sources out => ?_
    rw [collect_expr_leaves, lexical_leaves]
    cases hscope : lexical_query to_lowercase upstream query env <;> simp only [hsame, hscope]
  | .operation operands, ctes, env, declared, depth, hagree => by
    rw [LexicalExpr, ClearExpr]
    refine (exprs_follow operands ctes env declared depth hagree).result fun hsame sources out => ?_
    rw [collect_expr_leaves, lexical_leaves, hsame]

theorem exprs_follow : ∀ (operands : List Expr) (ctes : String → Option Scope) (env : Env)
    (declared : List (String × Bool)) (depth : Nat), Agree ctes env declared →
    Follows (LexicalExprs to_lowercase upstream operands ctes env depth)
      (ClearExprs to_lowercase upstream operands declared depth)
      (∀ sources out, collect_operand_leaves to_lowercase upstream operands sources ctes depth out =
        lexical_operand_leaves to_lowercase upstream operands sources env out)
  | [], ctes, env, declared, depth, _ => by
    rw [LexicalExprs, ClearExprs]
    exact .of_result fun sources out => by rw [collect_operand_leaves, lexical_operand_leaves]
  | operand :: rest, ctes, env, declared, depth, hagree => by
    rw [LexicalExprs, ClearExprs]
    refine ((expr_follows operand ctes env declared depth hagree).and
      (exprs_follow rest ctes env declared depth hagree)).result ?_
    rintro ⟨hoperand, hrest⟩ sources out
    rw [collect_operand_leaves, lexical_operand_leaves, hoperand, hrest]

end

variable (to_lowercase upstream)

/-- Every table reference of the query is taken for what it stands for lexically, and
    the leaves are those of that scoping. -/
def LexicallyScoped (statements : List Statement) : Prop :=
  (∀ query ∈ last_query statements, LexicalQuery to_lowercase upstream query (fun _ => none) [] 0) ∧
    column_lineage to_lowercase upstream statements = lexical_lineage to_lowercase upstream statements

end

/-- `with t as (select amount as id from db.t) select id from db.t`: the last reference
    is taken for the CTE. -/
def sample_hidden : List Statement :=
  [.query (.mk
    [.mk ⟨"t", none⟩ []
      (.mk [] (.select (.mk [.expr_with_alias (.identifier ⟨"amount", none⟩) ⟨"id", none⟩]
        [.mk (.table [⟨"db", none⟩, ⟨"t", none⟩] none) []])))]
    (.select (.mk [.unnamed_expr (.identifier ⟨"id", none⟩)]
      [.mk (.table [⟨"db", none⟩, ⟨"t", none⟩] none) []])))]

/-- The upstream relation `t` of the node `orders`. -/
def sample_orders (table : String) : Option UpstreamRelation :=
  if table = "t" then some ⟨"orders", ["id", "amount"]⟩ else none

end zed.dbt_ui.lineage_sql
