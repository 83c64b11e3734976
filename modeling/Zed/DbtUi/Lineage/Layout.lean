import Mathlib

namespace zed.dbt_ui.lineage

/-- The `graph_edges` of a graph: the ids they go from and to. -/
structure SqliteGraph where
  edges : List (Int × Int)

namespace SqliteGraph

def outgoing (graph : SqliteGraph) (id : Int) : List Int :=
  ((graph.edges.filter fun edge => edge.1 = id).map Prod.snd).mergeSort

def incoming (graph : SqliteGraph) (id : Int) : List Int :=
  ((graph.edges.filter fun edge => edge.2 = id).map Prod.fst).mergeSort

theorem mem_outgoing {graph : SqliteGraph} {a b : Int} : b ∈ graph.outgoing a ↔ (a, b) ∈ graph.edges := by
  simp [outgoing]

theorem mem_incoming {graph : SqliteGraph} {a b : Int} : a ∈ graph.incoming b ↔ (a, b) ∈ graph.edges := by
  simp [incoming]

end SqliteGraph

/-- The map `level_of`: its keys, and the level of each. -/
structure Levels where
  ids : List Int
  nodup : ids.Nodup
  level : Int → Int

namespace Levels

/-- A node that the map does not have yet. -/
def add (levels : Levels) (id level : Int) (h : id ∉ levels.ids) : Levels where
  ids := id :: levels.ids
  nodup := List.nodup_cons.mpr ⟨h, levels.nodup⟩
  level := Function.update levels.level id level

def set (levels : Levels) (id level : Int) : Levels :=
  { levels with level := Function.update levels.level id level }

end Levels

/-- A node to grow the graph from: its id, budget and level. -/
abbrev Visit := Int × Int × Int

section

variable (graph : SqliteGraph) (max_depth : Int) (max_nodes : Nat) (expansion_ids : List Int) (upstream : Bool)

def link (budget level : Int) : List Int → Levels × List Visit → Levels × List Visit
  | [], found => found
  | linked_id :: linked, (level_of, next) =>
    if max_nodes ≤ level_of.ids.length then (level_of, next)
    else if h : linked_id ∈ level_of.ids then link budget level linked (level_of, next)
    else
      let child_level := if upstream then level - 1 else level + 1
      link budget level linked
        (level_of.add linked_id child_level h, next ++ [(linked_id, budget - 1, child_level)])

def visit (found : Levels × List Visit) (node : Visit) : Levels × List Visit :=
  let (id, budget, level) := node
  let budget := if id ∈ expansion_ids then max budget max_depth else budget
  if budget ≤ 0 then found
  else link max_nodes upstream budget level (if upstream then graph.incoming id else graph.outgoing id) found

def visit_all (level_of : Levels) (frontier : List Visit) : Levels × List Visit :=
  frontier.foldl (visit graph max_depth max_nodes expansion_ids upstream) (level_of, [])

variable {graph max_depth max_nodes expansion_ids upstream}

/-- Each new visit is a new node, and there is room for it. -/
def Grown (max_nodes : Nat) (level_of : Levels) (found : Levels × List Visit) : Prop :=
  found.1.ids.length = level_of.ids.length + found.2.length ∧
    (found.2 = [] ∨ found.1.ids.length ≤ max_nodes)

theorem link_grown (budget level : Int) (linked : List Int) {level_of : Levels} {found : Levels × List Visit}
    (h : Grown max_nodes level_of found) :
    Grown max_nodes level_of (link max_nodes upstream budget level linked found) := by
  induction linked generalizing found with
  | nil => exact h
  | cons linked_id linked ih =>
    obtain ⟨hlength, hroom⟩ := h
    rw [link]
    split
    · exact ⟨hlength, hroom⟩
    split
    · exact ih ⟨hlength, hroom⟩
    · refine ih ⟨?_, Or.inr ?_⟩
      · simp only [Levels.add, List.length_cons, List.length_append, List.length_nil]
        omega
      · simp only [Levels.add, List.length_cons]
        omega

theorem visit_grown {level_of : Levels} {found : Levels × List Visit} (node : Visit)
    (h : Grown max_nodes level_of found) :
    Grown max_nodes level_of (visit graph max_depth max_nodes expansion_ids upstream found node) := by
  obtain ⟨id, budget, level⟩ := node
  unfold visit
  dsimp only
  generalize (if id ∈ expansion_ids then max budget max_depth else budget) = budget
  split
  · exact h
  · exact link_grown _ _ _ h

variable (graph max_depth max_nodes expansion_ids upstream)

theorem visit_all_grown (level_of : Levels) (frontier : List Visit) :
    Grown max_nodes level_of (visit_all graph max_depth max_nodes expansion_ids upstream level_of frontier) := by
  have hfold (found : Levels × List Visit) (h : Grown max_nodes level_of found) : Grown max_nodes level_of
      (frontier.foldl (visit graph max_depth max_nodes expansion_ids upstream) found) := by
    induction frontier generalizing found with
    | nil => exact h
    | cons node frontier ih => exact ih _ (visit_grown node h)
  exact hfold _ ⟨rfl, Or.inl rfl⟩

/-- The levels of a breadth-first search in one direction. -/
def grow (level_of : Levels) (frontier : List Visit) : Levels :=
  if frontier = [] then level_of
  else
    let found := visit_all graph max_depth max_nodes expansion_ids upstream level_of frontier
    grow found.1 found.2
termination_by (max_nodes - level_of.ids.length) + (if frontier = [] then 0 else 1)
decreasing_by
  rename_i hne
  obtain ⟨hlength, hroom⟩ :=
    visit_all_grown graph max_depth max_nodes expansion_ids upstream level_of frontier
  rw [if_neg hne]
  split_ifs with hempty
  · rw [hempty, List.length_nil] at hlength
    omega
  · have hpos := List.length_pos_iff.mpr hempty
    have hroom := hroom.resolve_left hempty
    omega

end

variable (graph : SqliteGraph) (max_depth : Int) (max_nodes : Nat) (expansion_ids : List Int) (center : Int)

/-- The levels of the nodes shown, by the shortest path. -/
def bfs_levels : Levels :=
  [true, false].foldl
    (fun level_of upstream =>
      grow graph max_depth max_nodes expansion_ids upstream level_of [(center, max_depth, 0)])
    ⟨[center], List.nodup_singleton _, fun _ => 0⟩

/-- The edges between the nodes shown. -/
def set_edges (ids : List Int) (level_of : Levels) : List (Int × Int) :=
  ids.flatMap fun id => ((graph.outgoing id).filter (· ∈ level_of.ids)).map fun target => (id, target)

/-- One edge of a round, and whether anything changed in the round so far. -/
def push_apart (state : Levels × Bool) (edge : Int × Int) : Levels × Bool :=
  let (level_of, changed) := state
  let (source, target) := edge
  if target = center then (level_of, changed)
  else
    let from_level := level_of.level source
    let to_level := level_of.level target
    if to_level ≤ from_level then
      if source = center then (level_of.set target 1, true)
      -- upstream, the source goes further left
      else if to_level ≤ 0 then (level_of.set source (to_level - 1), true)
      -- downstream, the target goes further right
      else (level_of.set target (from_level + 1), true)
    else (level_of, changed)

def relayer_round (edges : List (Int × Int)) (level_of : Levels) : Levels × Bool :=
  edges.foldl (push_apart center) (level_of, false)

def relayer (edges : List (Int × Int)) : Nat → Levels → Levels
  | 0, level_of => level_of
  | rounds + 1, level_of =>
    let (level_of, changed) := relayer_round center edges level_of
    if changed then relayer edges rounds level_of else level_of

/-- The names of a project's models, and their graph. -/
structure Loaded where
  by_name : String → Option Int
  graph : SqliteGraph

def id_for (loaded : Loaded) (model : String) : Except String Int :=
  match loaded.by_name model with
  | some id => .ok id
  | none => .error (model ++ " not found in manifest.json — run `dbt parse` to refresh it")

/-- The levels of a layout, and the edges between its nodes. -/
structure Layering where
  center : Int
  level_of : Levels
  set_edges : List (Int × Int)

/-- `lineage_layout` up to its columns. The ids come in the order `hash_order` of the keys of a
    hash map. -/
def lineage_layout (hash_order : List Int → List Int) (loaded : Loaded) (model : String) (max_depth : Int)
    (max_nodes : Nat) (expansions : List String) : Except String Layering := do
  let center ← id_for loaded model
  let expansion_ids := expansions.filterMap loaded.by_name
  let level_of := bfs_levels loaded.graph max_depth max_nodes expansion_ids center
  let ids := hash_order level_of.ids
  let edges := set_edges loaded.graph ids level_of
  return { center, level_of := relayer center edges ids.length level_of, set_edges := edges }

end zed.dbt_ui.lineage
