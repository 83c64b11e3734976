import Zed.DbtUi.LineageSql

namespace zed.dbt_ui.lineage_sql

open zed.sqlparser

/-- A source as a star sees it: its label, its columns, and those of them that its
    joins merge into others. -/
structure Shown where
  label : String
  scope : Scope
  merged : List String

section

variable (to_lowercase : String → String) (upstream : String → Option UpstreamRelation)
  (ctes : String → Option Scope) (depth : Nat)

mutual

/-- The sources of a FROM list with what the joins around each of them merge. -/
def shown_relations : List TableWithJoins → List Shown
  | [] => []
  | table :: rest => shown_table_with_joins [] table ++ shown_relations rest

def shown_table_with_joins (merged : List String) : TableWithJoins → List Shown
  | .mk relation joins => shown_table_factor merged relation ++ shown_joins merged joins

def shown_joins (merged : List String) : List Join → List Shown
  | [] => []
  | .mk relation more :: rest => shown_table_factor (more ++ merged) relation ++ shown_joins merged rest

def shown_table_factor (merged : List String) : TableFactor → List Shown
  | .table name alias_name =>
    [⟨label to_lowercase alias_name (table_ident to_lowercase name),
      lookup_table to_lowercase upstream ctes name, merged⟩]
  | .derived subquery alias_name =>
    match resolve_query to_lowercase upstream subquery ctes (depth + 1) with
    | none => []
    | some scope => [⟨label to_lowercase alias_name "", scope, merged⟩]
  | .nested_join table_with_joins => shown_table_with_joins merged table_with_joins
  | .other => []

end

/-- The leaves of each output column that an item of a select list gives: of every
    column that a star lists, and of an expression once for each name it has. -/
def output_columns (shown : List Shown) : SelectItem → List (List Leaf)
  | .wildcard left_out =>
    let columns := shown.flatMap fun source => source.scope.columns.map fun column => (column, source.merged)
    (columns.filter fun column => column.1.1 ∉ column.2 ++ left_out).map fun column => column.1.2
  | .qualified_wildcard kind left_out =>
    let sources := shown.map fun source => (source.label, source.scope)
    let columns := ((star_source to_lowercase sources kind).map fun source => source.2.columns).getD []
    (columns.filter fun column => column.1 ∉ left_out).map Prod.snd
  | .unnamed_expr expr | .expr_with_alias expr _ =>
    [collect_expr_leaves to_lowercase upstream expr (shown.map fun source => (source.label, source.scope)) ctes depth []]
  | .expr_with_aliases expr aliases =>
    aliases.map fun _ =>
      collect_expr_leaves to_lowercase upstream expr (shown.map fun source => (source.label, source.scope)) ctes depth []

def select_output : Select → List (List Leaf)
  | .mk projection relations =>
    projection.flatMap (output_columns to_lowercase upstream ctes depth
      (shown_relations to_lowercase upstream ctes depth relations))

/-- An item that adds an entry for each output column: an expression with a name, or a
    star that leaves no column out. -/
def KeepsSlots (shown : List Shown) : SelectItem → Prop
  | .wildcard left_out => ∀ source ∈ shown, ∀ column ∈ source.scope.columns, column.1 ∉ source.merged ++ left_out
  | .qualified_wildcard kind left_out =>
    ∀ source ∈ star_source to_lowercase (shown.map fun source => (source.label, source.scope)) kind,
      ∀ column ∈ source.2.columns, column.1 ∉ left_out
  | .unnamed_expr expr => expr_name to_lowercase expr ≠ none
  | .expr_with_alias _ _ => True
  | .expr_with_aliases _ aliases => aliases = []

def SelectKeepsSlots : Select → Prop
  | .mk projection relations =>
    ∀ item ∈ projection, KeepsSlots to_lowercase (shown_relations to_lowercase upstream ctes depth relations) item

/-- One entry per output column, in the order of the select list: the items before any
    one of them add as many entries as they give columns. -/
def OneEntryEach : Select → Prop
  | .mk projection relations =>
    ∀ k, (resolve_select to_lowercase upstream (.mk (projection.take k) relations) ctes depth).columns.length =
      (select_output to_lowercase upstream ctes depth (.mk (projection.take k) relations)).length

end

section

variable {to_lowercase : String → String} {upstream : String → Option UpstreamRelation}
  {ctes : String → Option Scope} {depth : Nat}

mutual

theorem shown_relations_sources : ∀ relations : List TableWithJoins,
    (shown_relations to_lowercase upstream ctes depth relations).map (fun source => (source.label, source.scope)) =
      collect_relations to_lowercase upstream relations ctes depth
  | [] => by simp [shown_relations, collect_relations]
  | table :: rest => by
    rw [shown_relations, collect_relations, List.map_append, shown_table_sources [] table,
      shown_relations_sources rest]

theorem shown_table_sources (merged : List String) : ∀ table : TableWithJoins,
    (shown_table_with_joins to_lowercase upstream ctes depth merged table).map
        (fun source => (source.label, source.scope)) =
      collect_table_with_joins to_lowercase upstream table ctes depth
  | .mk relation joins => by
    rw [shown_table_with_joins, collect_table_with_joins, List.map_append,
      shown_factor_sources merged relation, shown_joins_sources merged joins]

theorem shown_joins_sources (merged : List String) : ∀ joins : List Join,
    (shown_joins to_lowercase upstream ctes depth merged joins).map (fun source => (source.label, source.scope)) =
      collect_joins to_lowercase upstream joins ctes depth
  | [] => by simp [shown_joins, collect_joins]
  | .mk relation more :: rest => by
    rw [shown_joins, collect_joins, List.map_append, shown_factor_sources (more ++ merged) relation,
      shown_joins_sources merged rest]

theorem shown_factor_sources (merged : List String) : ∀ factor : TableFactor,
    (shown_table_factor to_lowercase upstream ctes depth merged factor).map
        (fun source => (source.label, source.scope)) =
      collect_table_factor to_lowercase upstream factor ctes depth
  | .table name alias_name => by simp [shown_table_factor, collect_table_factor]
  | .derived subquery alias_name => by
    cases hresolve : resolve_query to_lowercase upstream subquery ctes (depth + 1) <;>
      simp [shown_table_factor, collect_table_factor, hresolve]
  | .nested_join table_with_joins => by
    rw [shown_table_factor, collect_table_factor]
    exact shown_table_sources merged table_with_joins
  | .other => by simp [shown_table_factor, collect_table_factor]

end

/-! ## The items of a select list -/

theorem length_filter_map {α β : Type} (list : List α) (p : α → Bool) (f : α → β) :
    list.length = ((list.filter p).map f).length ↔ ∀ x ∈ list, p x = true := by
  rw [List.length_map, eq_comm, List.length_filter_eq_length_iff]

theorem wildcard_slots (shown : List Shown) (left_out : List String) :
    (wildcard_columns (shown.map fun source => (source.label, source.scope))).length =
        (output_columns to_lowercase upstream ctes depth shown (.wildcard left_out)).length ↔
      KeepsSlots to_lowercase shown (.wildcard left_out) := by
  have hall : (wildcard_columns (shown.map fun source => (source.label, source.scope))).length =
      (shown.flatMap fun source => source.scope.columns.map fun column => (column, source.merged)).length := by
    simp [wildcard_columns, List.flatMap_map, List.length_flatMap]
  rw [hall, output_columns, length_filter_map, KeepsSlots]
  simp only [List.mem_flatMap, List.mem_map, decide_eq_true_eq]
  constructor
  · intro hkept source hsource column hcolumn
    exact hkept (column, source.merged) ⟨source, hsource, column, hcolumn, rfl⟩
  · rintro hkept - ⟨source, hsource, column, hcolumn, rfl⟩
    exact hkept source hsource column hcolumn

theorem item_slots (shown : List Shown) (item : SelectItem) :
    (item_columns to_lowercase upstream item (shown.map fun source => (source.label, source.scope)) ctes depth).length =
        (output_columns to_lowercase upstream ctes depth shown item).length ↔
      KeepsSlots to_lowercase shown item := by
  cases item with
  | wildcard left_out =>
    rw [item_columns]
    exact wildcard_slots shown left_out
  | qualified_wildcard kind left_out =>
    rw [item_columns, output_columns, KeepsSlots, length_filter_map]
    cases hstar : star_source to_lowercase (shown.map fun source => (source.label, source.scope)) kind with
    | none => simp
    | some source => simp
  | unnamed_expr expr =>
    rw [item_columns, output_columns, KeepsSlots]
    cases expr_name to_lowercase expr <;> simp
  | expr_with_alias expr alias_name => simp [item_columns, output_columns, KeepsSlots]
  | expr_with_aliases expr aliases => simp [item_columns, output_columns, KeepsSlots, eq_comm]

theorem item_leaves {shown : List Shown} {item : SelectItem} (hkeeps : KeepsSlots to_lowercase shown item) :
    (item_columns to_lowercase upstream item (shown.map fun source => (source.label, source.scope)) ctes depth).map
        Prod.snd =
      output_columns to_lowercase upstream ctes depth shown item := by
  cases item with
  | wildcard left_out =>
    have hall : ∀ column ∈ shown.flatMap fun source => source.scope.columns.map fun column => (column, source.merged),
        decide (column.1.1 ∉ column.2 ++ left_out) = true := by
      simp only [List.mem_flatMap, List.mem_map, decide_eq_true_eq]
      rintro - ⟨source, hsource, column, hcolumn, rfl⟩
      exact hkeeps source hsource column hcolumn
    rw [item_columns, output_columns, List.filter_eq_self.mpr hall]
    simp [wildcard_columns, List.flatMap_map, List.map_flatMap, Function.comp_def]
  | qualified_wildcard kind left_out =>
    rw [item_columns, output_columns]
    cases hstar : star_source to_lowercase (shown.map fun source => (source.label, source.scope)) kind with
    | none => simp
    | some source =>
      have hall : ∀ column ∈ source.2.columns, decide (column.1 ∉ left_out) = true := by
        intro column hcolumn
        simpa using hkeeps source hstar column hcolumn
      simp only [Option.map_some, Option.getD_some, List.filter_eq_self.mpr hall]
  | unnamed_expr expr =>
    obtain ⟨name, hname⟩ := Option.ne_none_iff_exists'.mp hkeeps
    simp [item_columns, output_columns, hname]
  | expr_with_alias expr alias_name => simp [item_columns, output_columns]
  | expr_with_aliases expr aliases =>
    obtain rfl : aliases = [] := hkeeps
    simp [item_columns, output_columns]

theorem select_columns_eq (projection : List SelectItem) (sources : List (String × Scope)) :
    select_columns to_lowercase upstream projection sources ctes depth =
      projection.flatMap fun item => item_columns to_lowercase upstream item sources ctes depth := by
  induction projection with
  | nil => simp [select_columns]
  | cons item rest ih => rw [select_columns, ih, List.flatMap_cons]

theorem take_lengths_iff {α β γ : Type} (list : List α) (f : α → List β) (g : α → List γ) :
    (∀ k, ((list.take k).flatMap f).length = ((list.take k).flatMap g).length) ↔
      ∀ x ∈ list, (f x).length = (g x).length := by
  induction list with
  | nil => simp
  | cons x rest ih =>
    rw [List.forall_mem_cons, ← ih]
    constructor
    · intro hall
      have hfirst : (f x).length = (g x).length := by simpa using hall 1
      refine ⟨hfirst, fun k => ?_⟩
      have hk := hall (k + 1)
      simp only [List.take_succ_cons, List.flatMap_cons, List.length_append] at hk
      omega
    · rintro ⟨hfirst, hrest⟩ k
      cases k with
      | zero => simp
      | succ k =>
        simp only [List.take_succ_cons, List.flatMap_cons, List.length_append, hfirst, hrest k]

theorem one_entry_each_iff (select : Select) :
    OneEntryEach to_lowercase upstream ctes depth select ↔
      SelectKeepsSlots to_lowercase upstream ctes depth select := by
  obtain ⟨projection, relations⟩ := select
  rw [OneEntryEach, SelectKeepsSlots]
  simp only [resolve_select, select_output, select_columns_eq, ← shown_relations_sources]
  rw [take_lengths_iff]
  exact forall_congr' fun item => imp_congr_right fun _ => item_slots _ item

theorem select_leaves {select : Select} (hkeeps : SelectKeepsSlots to_lowercase upstream ctes depth select) :
    (resolve_select to_lowercase upstream select ctes depth).columns.map Prod.snd =
      select_output to_lowercase upstream ctes depth select := by
  obtain ⟨projection, relations⟩ := select
  rw [resolve_select, select_output, select_columns_eq, ← shown_relations_sources, List.map_flatMap]
  exact List.flatMap_congr fun item hitem => item_leaves (hkeeps item hitem)

/-! ## Unions and CTE aliases -/

def leaves_at (columns : List (String × List Leaf)) (i : Nat) : List Leaf :=
  ((columns[i]?).map Prod.snd).getD []

theorem leaves_at_eq (columns : List (String × List Leaf)) (i : Nat) :
    leaves_at columns i = ((columns.map Prod.snd)[i]?).getD [] := by
  simp [leaves_at]

theorem mem_push_all {leaf : Leaf} {leaves out : List Leaf} :
    leaf ∈ push_all leaves out ↔ leaf ∈ leaves ∨ leaf ∈ out := by
  induction leaves generalizing out with
  | nil => simp [push_all]
  | cons first rest ih =>
    have hstep : push_all (first :: rest) out = push_all rest (if first ∈ out then out else out ++ [first]) := rfl
    rw [hstep, ih, List.mem_cons]
    split
    · next hmem =>
      constructor
      · rintro (h | h)
        · exact .inl (.inr h)
        · exact .inr h
      · rintro ((rfl | h) | h)
        · exact .inr hmem
        · exact .inl h
        · exact .inr h
    · simp only [List.mem_append, List.mem_singleton]
      tauto

theorem merge_columns_length (left right : List (String × List Leaf)) :
    (merge_columns left right).length = left.length := by
  induction left generalizing right with
  | nil => simp [merge_columns]
  | cons column left ih =>
    cases right with
    | nil => simp [merge_columns]
    | cons other right => simp [merge_columns, ih]

theorem mem_merge_columns {left right : List (String × List Leaf)} {i : Nat} (hi : i < left.length) {leaf : Leaf} :
    leaf ∈ leaves_at (merge_columns left right) i ↔ leaf ∈ leaves_at left i ∨ leaf ∈ leaves_at right i := by
  induction left generalizing right i with
  | nil => simp at hi
  | cons column left ih =>
    cases right with
    | nil => simp [merge_columns, leaves_at]
    | cons other right =>
      cases i with
      | zero => simp [merge_columns, leaves_at, mem_push_all, or_comm]
      | succ i => simpa [merge_columns, leaves_at] using @ih right i (Nat.lt_of_succ_lt_succ hi)

theorem rename_columns_leaves (aliases : List String) (columns : List (String × List Leaf)) :
    (rename_columns aliases columns).map Prod.snd = columns.map Prod.snd := by
  induction aliases generalizing columns with
  | nil => cases columns <;> simp [rename_columns]
  | cons alias_name aliases ih =>
    cases columns with
    | nil => simp [rename_columns]
    | cons column columns => simp [rename_columns, ih]

theorem rename_columns_name {aliases : List String} {columns : List (String × List Leaf)} {i : Nat}
    {alias_name : String} (halias : aliases[i]? = some alias_name) (hi : i < columns.length) :
    ((rename_columns aliases columns)[i]?).map Prod.fst = some alias_name := by
  induction aliases generalizing columns i with
  | nil => simp at halias
  | cons first aliases ih =>
    cases columns with
    | nil => simp at hi
    | cons column columns =>
      cases i with
      | zero => simpa [rename_columns] using halias
      | succ i =>
        simpa [rename_columns] using ih (by simpa using halias) (Nat.lt_of_succ_lt_succ hi)

/-- The selects that a union is made of, from left to right, each with how deep it is:
    a branch in parentheses is a query of its own. -/
def branches : SetExpr → Nat → Option (List (Select × Nat))
  | .select select, depth => some [(select, depth)]
  | .query (.mk [] body), depth => if depth + 1 > 24 then none else branches body (depth + 1)
  | .query (.mk (_ :: _) _), _ => none
  | .set_operation left right, depth =>
    match branches left depth, branches right depth with
    | some left, some right => some (left ++ right)
    | _, _ => none
  | .other, _ => none

/-- A union of selects with as many entries each resolves to as many columns, each with
    the leaves of the columns at its position in all of them. -/
theorem resolve_union {n : Nat} : ∀ (body : SetExpr) (depth : Nat) (selects : List (Select × Nat)),
    branches body depth = some selects →
    (∀ branch ∈ selects,
      (resolve_select to_lowercase upstream branch.1 ctes branch.2).columns.length = n) →
    ∃ scope, resolve_set_expr to_lowercase upstream body ctes depth = some scope ∧ scope.columns.length = n ∧
      ∀ i < n, ∀ leaf, leaf ∈ leaves_at scope.columns i ↔ ∃ branch ∈ selects,
        leaf ∈ leaves_at (resolve_select to_lowercase upstream branch.1 ctes branch.2).columns i
  | .select select, depth, selects, hbranches, hlength => by
    obtain rfl := Option.some.inj hbranches
    exact ⟨_, by rw [resolve_set_expr], hlength _ (List.mem_singleton_self _), fun i _ leaf => by simp⟩
  | .query (.mk [] body), depth, selects, hbranches, hlength => by
    rw [branches, Option.ite_none_left_eq_some] at hbranches
    obtain ⟨hdepth, hbranches⟩ := hbranches
    obtain ⟨scope, hscope, hrest⟩ := resolve_union body (depth + 1) selects hbranches hlength
    refine ⟨scope, ?_, hrest⟩
    rw [resolve_set_expr, resolve_query, if_neg hdepth, resolve_ctes, hscope]
  | .query (.mk (_ :: _) _), depth, selects, hbranches, _ => by simp [branches] at hbranches
  | .set_operation left right, depth, selects, hbranches, hlength => by
    rw [branches] at hbranches
    split at hbranches
    · next lefts rights hlefts hrights =>
      obtain rfl := Option.some.inj hbranches
      obtain ⟨lscope, hl, hllength, hlmem⟩ := resolve_union left depth lefts hlefts
        fun branch hbranch => hlength branch (List.mem_append_left _ hbranch)
      obtain ⟨rscope, hr, -, hrmem⟩ := resolve_union right depth rights hrights
        fun branch hbranch => hlength branch (List.mem_append_right _ hbranch)
      refine ⟨⟨merge_columns lscope.columns rscope.columns⟩, by rw [resolve_set_expr, hl, hr], ?_, ?_⟩
      · rw [merge_columns_length, hllength]
      · intro i hi leaf
        rw [mem_merge_columns (hllength.symm ▸ hi), hlmem i hi, hrmem i hi]
        simp only [List.mem_append, or_and_right, exists_or]
    · simp at hbranches
  | .other, depth, selects, hbranches, _ => by simp [branches] at hbranches

variable (to_lowercase upstream ctes)

/-- A scope has `n` columns, each with the leaves that the output columns of the
    branches have at its position. -/
def UnionOf (selects : List (Select × Nat)) (n : Nat) (scope : Scope) : Prop :=
  scope.columns.length = n ∧
  ∀ i < n, ∀ leaf, leaf ∈ leaves_at scope.columns i ↔
    ∃ branch ∈ selects, leaf ∈ ((select_output to_lowercase upstream ctes branch.2 branch.1)[i]?).getD []

/-- Column positions are preserved: in every branch of a union, in what the union
    resolves to, and in a CTE that gives the union's columns names of its own. -/
structure Positional (body : SetExpr) (depth : Nat) (selects : List (Select × Nat)) (n : Nat) : Prop where
  entries : ∀ branch ∈ selects, OneEntryEach to_lowercase upstream ctes branch.2 branch.1
  union : ∃ scope, resolve_set_expr to_lowercase upstream body ctes depth = some scope ∧
    UnionOf to_lowercase upstream ctes selects n scope
  cte : ∀ outer name columns, outer + 1 = depth → depth ≤ 24 → ∃ scope,
    resolve_ctes to_lowercase upstream [.mk name columns (.mk [] body)] ctes outer
        (norm_ident to_lowercase name.value) = some scope ∧
      UnionOf to_lowercase upstream ctes selects n scope ∧
      ∀ i < n, ∀ column, columns[i]? = some column →
        (scope.columns[i]?).map Prod.fst = some (norm_ident to_lowercase column.value)

variable {to_lowercase upstream ctes}

theorem UnionOf.rename {selects : List (Select × Nat)} {n : Nat} {scope : Scope}
    (hscope : UnionOf to_lowercase upstream ctes selects n scope) (aliases : List String) :
    UnionOf to_lowercase upstream ctes selects n ⟨rename_columns aliases scope.columns⟩ := by
  have hsame := rename_columns_leaves aliases scope.columns
  refine ⟨?_, fun i hi leaf => ?_⟩
  · rw [← hscope.1, ← List.length_map Prod.snd, hsame, List.length_map]
  · rw [leaves_at_eq, hsame, ← leaves_at_eq]
    exact hscope.2 i hi leaf

end

/-- Two upstream relations, `t` with the column `id` and `u` with the column `key`. -/
def sample_upstream (table : String) : Option UpstreamRelation :=
  if table = "t" then some ⟨"orders", ["id"]⟩ else if table = "u" then some ⟨"customers", ["key"]⟩ else none

/-- `select column from table` -/
def sample_select (column table : String) : Select :=
  .mk [.unnamed_expr (.identifier ⟨column, none⟩)] [.mk (.table [⟨table, none⟩] none) []]

end zed.dbt_ui.lineage_sql
