import Zed.DbtUi.El.Text
import Zed.DbtUi.Lineage.Tree

namespace zed.dbt_ui.lineage

/-- An entry of `nodes` or `sources`. Its columns are the best that there are before
    it inherits any: those of the catalog, the documented ones or those of its
    select list. -/
structure ManifestNode where
  unique_id : String
  resource_type : Option String
  name : Option String
  original_file_path : Option String
  columns : List String
deriving DecidableEq, Repr

/-- What `build_graph` reads of `manifest.json`. A part that is not there, or not
    what it should be, is empty. -/
structure Manifest where
  nodes : List ManifestNode
  sources : List ManifestNode
  parent_map : List (String × List String)

structure PendingNode where
  unique_id : String
  kind : String
  name : String
  file_path : Option String
  columns : List String
deriving DecidableEq, Repr

def is_kept (node : ManifestNode) : Bool :=
  node.resource_type.getD "" ∈ ["model", "seed", "snapshot", "source"]

def pending_node (node : ManifestNode) : Option PendingNode :=
  if is_kept node then
    node.name.map fun name =>
      { unique_id := node.unique_id
        kind := node.resource_type.getD ""
        name
        file_path := node.original_file_path
        columns := node.columns }
  else none

/-- Phase 1: the nodes with the best column information available. -/
def collect (manifest : Manifest) : List PendingNode :=
  (manifest.nodes ++ manifest.sources).filterMap pending_node

/-- A map as its insertions, the last one first. -/
def index_of_uid (pending : List PendingNode) : List (String × Nat) :=
  (pending.mapIdx fun ix node => (node.unique_id, ix)).reverse

section

variable (parents_of : List (String × List String)) (index_of_uid : List (String × Nat))

/-- The parents of a node that are kept. -/
def parent_ixs (unique_id : String) : List Nat :=
  ((parents_of.lookup unique_id).getD []).filterMap fun parent_uid => index_of_uid.lookup parent_uid

def columns_of (pending : List PendingNode) (ix : Nat) : List String :=
  (pending[ix]?).elim [] PendingNode.columns

/-- The union of the columns of some nodes. -/
def inherited (pending : List PendingNode) (parents : List Nat) : List String :=
  parents.foldl (fun inherited parent_ix =>
    (columns_of pending parent_ix).foldl (fun inherited column =>
      if column ∈ inherited then inherited else inherited ++ [column]) inherited) []

/-- A node without columns takes those of its parents. -/
def inherit_node (found : List PendingNode × Bool) (ix : Nat) : List PendingNode × Bool :=
  let (pending, changed) := found
  match pending[ix]? with
  | none => (pending, changed)
  | some node =>
    if node.columns ≠ [] then (pending, changed)
    else
      let inherited := inherited pending (parent_ixs parents_of index_of_uid node.unique_id)
      if inherited ≠ [] then (pending.set ix { node with columns := inherited }, true) else (pending, changed)

def inherit_round (pending : List PendingNode) : List PendingNode × Bool :=
  (List.range pending.length).foldl (inherit_node parents_of index_of_uid) (pending, false)

def inherit_rounds : Nat → List PendingNode → List PendingNode
  | 0, pending => pending
  | rounds + 1, pending =>
    let (pending, changed) := inherit_round parents_of index_of_uid pending
    if changed then inherit_rounds rounds pending else pending

end

/-- Phase 2: nodes still without columns inherit the union of their parents'
    columns. -/
def inherit_columns (manifest : Manifest) (pending : List PendingNode) : List PendingNode :=
  inherit_rounds manifest.parent_map (index_of_uid pending) 10 pending

namespace EntityGraph

def empty : EntityGraph where
  edges := []
  entities := []
  ends := by simp

/-- `validate_entity` refuses a blank kind or name. -/
def is_blank (text : String) : Bool := text.toList.all el.is_whitespace

/-- The id of an entity is the number of its row. -/
def insert_entity (graph : EntityGraph) (entity : GraphEntity) : Option (Int × EntityGraph) :=
  if is_blank entity.kind || is_blank entity.name then none
  else
    let id := (graph.entities.length + 1 : Int)
    some (id,
      { graph with
        entities := graph.entities ++ [{ entity with id }]
        ends := by
          intro edge hedge
          obtain ⟨hfrom, hto⟩ := graph.ends edge hedge
          rw [List.map_append]
          exact ⟨List.mem_append_left _ hfrom, List.mem_append_left _ hto⟩ })

/-- The store is a set: an edge that it has is not there twice. -/
def insert_edge (graph : EntityGraph) (from_id to_id : Int) : Option EntityGraph :=
  if hends : from_id ∈ graph.entities.map GraphEntity.id ∧ to_id ∈ graph.entities.map GraphEntity.id then
    some
      { graph with
        edges := graph.edges.insert (from_id, to_id)
        ends := by
          intro edge hedge
          rcases List.mem_insert_iff.mp hedge with rfl | hedge
          · exact hends
          · exact graph.ends edge hedge }
  else none

end EntityGraph

/-- A graph with its entities, and the names that find them. -/
structure Built where
  graph : EntityGraph
  by_name : String → Option Int

def Built.loaded (built : Built) : Loaded where
  by_name := built.by_name
  graph := built.graph.toSqliteGraph

/-- The entities of Phase 3, with the two maps, the last insertion first. -/
def insert_nodes : List PendingNode → EntityGraph → List (String × Int) → List (String × Int) →
    Option (EntityGraph × List (String × Int) × List (String × Int))
  | [], graph, by_uid, by_name => some (graph, by_uid, by_name)
  | node :: pending, graph, by_uid, by_name =>
    match graph.insert_entity
        { id := 0, kind := node.kind, name := node.name, file_path := node.file_path, columns := node.columns } with
    | none => none
    | some (id, graph) => insert_nodes pending graph ((node.unique_id, id) :: by_uid) ((node.name, id) :: by_name)

/-- The edges from the parents of one node. -/
def insert_parents (by_uid : List (String × Int)) (child_id : Int) : List String → EntityGraph → Option EntityGraph
  | [], graph => some graph
  | parent_uid :: parents, graph =>
    match by_uid.lookup parent_uid with
    | none => insert_parents by_uid child_id parents graph
    | some parent_id =>
      match graph.insert_edge parent_id child_id with
      | none => none
      | some graph => insert_parents by_uid child_id parents graph

def insert_edges (by_uid : List (String × Int)) : List (String × List String) → EntityGraph → Option EntityGraph
  | [], graph => some graph
  | (child_uid, parents) :: parent_map, graph =>
    match by_uid.lookup child_uid with
    | none => insert_edges by_uid parent_map graph
    | some child_id =>
      match insert_parents by_uid child_id parents graph with
      | none => none
      | some graph => insert_edges by_uid parent_map graph

/-- `build_graph`, once the manifest is read. -/
def build_graph (manifest : Manifest) : Option Built :=
  match insert_nodes (inherit_columns manifest (collect manifest)) .empty [] [] with
  | none => none
  | some (graph, by_uid, by_name) =>
    (insert_edges by_uid manifest.parent_map graph).map fun graph =>
      { graph, by_name := fun name => by_name.lookup name }

end zed.dbt_ui.lineage
