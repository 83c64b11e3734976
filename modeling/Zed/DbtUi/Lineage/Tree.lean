import Zed.DbtUi.Lineage.Layout

namespace zed.dbt_ui.lineage

/-- A row of `graph_entities`, with the columns that its data names. -/
structure GraphEntity where
  id : Int
  kind : String
  name : String
  file_path : Option String
  columns : List String
deriving DecidableEq, Repr

/-- A graph with its entities. The store refuses an edge whose ends it does not
    have. -/
structure EntityGraph extends SqliteGraph where
  entities : List GraphEntity
  ends : ∀ edge ∈ edges, edge.1 ∈ entities.map GraphEntity.id ∧ edge.2 ∈ entities.map GraphEntity.id

namespace EntityGraph

def get_entity (graph : EntityGraph) (id : Int) : Option GraphEntity :=
  graph.entities.find? fun entity => entity.id = id

/-- The neighbours of a node in one direction. -/
def linked (graph : EntityGraph) (upstream : Bool) (id : Int) : List Int :=
  if upstream then graph.incoming id else graph.outgoing id

theorem get_entity_of_mem {graph : EntityGraph} {id : Int} (h : id ∈ graph.entities.map GraphEntity.id) :
    ∃ entity, graph.get_entity id = some entity ∧ entity.id = id := by
  obtain ⟨entity, hmem, hid⟩ := List.mem_map.mp h
  cases hfind : graph.get_entity id with
  | none =>
    have := List.find?_eq_none.mp hfind entity hmem
    simp [hid] at this
  | some found => exact ⟨found, rfl, by simpa using List.find?_some hfind⟩

theorem get_entity_of_linked {graph : EntityGraph} {upstream : Bool} {from_id id : Int}
    (h : id ∈ graph.linked upstream from_id) : ∃ entity, graph.get_entity id = some entity ∧ entity.id = id := by
  refine get_entity_of_mem ?_
  unfold linked at h
  cases upstream with
  | true => exact (graph.ends _ (SqliteGraph.mem_incoming.mp h)).1
  | false => exact (graph.ends _ (SqliteGraph.mem_outgoing.mp h)).2

end EntityGraph

/-- What the panel knows of a node. `id` is the entity it was made from, which the
    source does not keep. -/
structure ModelNode where
  id : Int
  name : String
  kind : String
  path : Option String
deriving DecidableEq, Repr

/-- A node in the deep lineage tree. -/
inductive LineageTreeNode
  | mk (node : ModelNode) (children : List LineageTreeNode) (truncated : Bool)

namespace LineageTreeNode

def node : LineageTreeNode → ModelNode
  | mk node _ _ => node

def children : LineageTreeNode → List LineageTreeNode
  | mk _ children _ => children

/-- The traversal depth/size budget cut this branch short. -/
def truncated : LineageTreeNode → Bool
  | mk _ _ truncated => truncated

mutual

def count : LineageTreeNode → Nat
  | mk _ children _ => 1 + count_all children

def count_all : List LineageTreeNode → Nat
  | [] => 0
  | tree :: trees => count tree + count_all trees

end

theorem count_all_eq_sum (trees : List LineageTreeNode) : count_all trees = (trees.map count).sum := by
  induction trees with
  | nil => rfl
  | cons tree trees ih => rw [count_all, ih, List.map_cons, List.sum_cons]

theorem count_all_perm {first second : List LineageTreeNode} (h : first.Perm second) :
    count_all first = count_all second := by
  rw [count_all_eq_sum, count_all_eq_sum]
  exact (h.map count).sum_nat

end LineageTreeNode

section

variable (join : String → String)

/-- `join` puts a file's path under the project's root. -/
def entity_to_node (entity : GraphEntity) : ModelNode where
  id := entity.id
  name := entity.name
  kind := entity.kind
  path := entity.file_path.map join

variable (graph : EntityGraph) (upstream : Bool)

/-- The loop of `walk` over the ids linked to a node; `deeper` is the walk one level
    further. It returns the budget that is left too. -/
def walk_nodes (deeper : Int → Nat → List LineageTreeNode × Nat) :
    List Int → Nat → List LineageTreeNode × Nat
  | [], budget => ([], budget)
  | _ :: _, 0 => ([], 0)
  | id :: ids, budget + 1 =>
    match graph.get_entity id with
    | none => walk_nodes deeper ids budget
    | some entity =>
      let (children, budget) := deeper id budget
      let truncated := children.isEmpty && !(graph.linked upstream id).isEmpty
      let (nodes, budget) := walk_nodes deeper ids budget
      (.mk (entity_to_node join entity) children truncated :: nodes, budget)

def walk : Nat → Int → Nat → List LineageTreeNode × Nat
  | 0, _, budget => ([], budget)
  | depth_left + 1, from_id, budget =>
    let (nodes, budget) := walk_nodes join graph upstream (walk depth_left) (graph.linked upstream from_id) budget
    (nodes.insertionSort fun a b => a.node.name ≤ b.node.name, budget)

end

/-- A node that a walk returned, at any level of it. -/
inductive Returned : List LineageTreeNode → LineageTreeNode → Prop
  | here {trees tree} : tree ∈ trees → Returned trees tree
  | under {trees parent tree} : parent ∈ trees → Returned parent.children tree → Returned trees tree

section

variable (graph : EntityGraph) (upstream : Bool)

def AllAppear (tree : LineageTreeNode) : Prop :=
  ∀ id ∈ graph.linked upstream tree.node.id, id ∈ tree.children.map fun child => child.node.id

/-- The flag of a node says whether its child list is cut short. -/
def Flagged (tree : LineageTreeNode) : Prop :=
  (AllAppear graph upstream tree ∨ tree.truncated = true) ∧
    (AllAppear graph upstream tree → tree.truncated = false)

/-- How many nodes a walk from a node returns when nothing cuts it short. -/
def size : Nat → Int → Nat
  | 0, _ => 0
  | depth_left + 1, from_id => ((graph.linked upstream from_id).map fun id => 1 + size depth_left id).sum

/-- The budget that a whole list of siblings uses. -/
def cost (depth_left : Nat) (ids : List Int) : Nat :=
  (ids.map fun id => 1 + size graph upstream depth_left id).sum

/-- The budget left for what is below a node, when the walk still comes to it. -/
def Reaches (depth_left : Nat) (ids : List Int) (budget : Nat) (id : Int) (left : Nat) : Prop :=
  ∃ before after, ids = before ++ id :: after ∧ cost graph upstream depth_left before + 1 + left = budget

/-- The budget runs out in the middle of the child list of a node: some neighbours
    are reached, and one that is not among them is left out. -/
def RunsOutAt (depth_left : Nat) (id : Int) (budget : Nat) : Prop :=
  ∃ before last after, graph.linked upstream id = before ++ last :: after ∧
    cost graph upstream depth_left before < budget ∧ budget ≤ cost graph upstream depth_left (before ++ [last]) ∧
    ∃ other ∈ after, other ∉ before ++ [last]

/-- The budget runs out in the middle of a child list, at a node or below it. -/
def RunsOut : Nat → Int → Nat → Prop
  | 0, _, _ => False
  | depth_left + 1, id, budget =>
    RunsOutAt graph upstream depth_left id budget ∨
      ∃ child left, Reaches graph upstream depth_left (graph.linked upstream id) budget child left ∧
        RunsOut depth_left child left

/-- The budget of a walk runs out in the middle of the child list of a node below
    its start. -/
def RunsOutBelow : Nat → Int → Nat → Prop
  | 0, _, _ => False
  | depth_left + 1, from_id, budget =>
    ∃ child left, Reaches graph upstream depth_left (graph.linked upstream from_id) budget child left ∧
      RunsOut graph upstream depth_left child left

end

section

variable {join : String → String} {graph : EntityGraph} {upstream : Bool}

theorem cost_cons (depth_left : Nat) (id : Int) (ids : List Int) :
    cost graph upstream depth_left (id :: ids) = 1 + size graph upstream depth_left id + cost graph upstream depth_left ids := by
  rw [cost, List.map_cons, List.sum_cons, cost]

theorem cost_append (depth_left : Nat) (before after : List Int) :
    cost graph upstream depth_left (before ++ after) =
      cost graph upstream depth_left before + cost graph upstream depth_left after := by
  rw [cost, List.map_append, List.sum_append, cost, cost]

theorem reaches_cons {depth_left budget left : Nat} {id child : Int} {ids : List Int} :
    Reaches graph upstream depth_left (id :: ids) (budget + 1) child left ↔
      child = id ∧ left = budget ∨
        Reaches graph upstream depth_left ids (budget - size graph upstream depth_left id) child left := by
  constructor
  · rintro ⟨before, after, hsplit, hcost⟩
    cases before with
    | nil =>
      rw [List.nil_append, List.cons.injEq] at hsplit
      rw [cost, List.map_nil, List.sum_nil] at hcost
      exact Or.inl ⟨hsplit.1.symm, by omega⟩
    | cons first before =>
      rw [List.cons_append, List.cons.injEq] at hsplit
      rw [← hsplit.1, cost_cons] at hcost
      exact Or.inr ⟨before, after, hsplit.2, by omega⟩
  · rintro (⟨rfl, rfl⟩ | ⟨before, after, rfl, hcost⟩)
    · exact ⟨[], ids, rfl, by simp [cost]; omega⟩
    · refine ⟨id :: before, after, rfl, ?_⟩
      rw [cost_cons]
      omega

def Known (graph : EntityGraph) (ids : List Int) : Prop :=
  ∀ id ∈ ids, ∃ entity, graph.get_entity id = some entity ∧ entity.id = id

theorem known_linked (from_id : Int) : Known graph (graph.linked upstream from_id) :=
  fun _ h => EntityGraph.get_entity_of_linked h

private theorem walk_nodes_left {depth_left : Nat}
    (hdeeper : ∀ id budget, (walk join graph upstream depth_left id budget).2 =
      budget - size graph upstream depth_left id)
    {ids : List Int} (hknown : Known graph ids) (budget : Nat) :
    (walk_nodes join graph upstream (walk join graph upstream depth_left) ids budget).2 =
      budget - cost graph upstream depth_left ids := by
  induction ids generalizing budget with
  | nil => rfl
  | cons id ids ih =>
    cases budget with
    | zero => simp [walk_nodes]
    | succ budget =>
      obtain ⟨entity, hentity, -⟩ := hknown id List.mem_cons_self
      have hrest := ih fun other h => hknown other (List.mem_cons_of_mem _ h)
      simp only [walk_nodes, hentity, hrest, hdeeper, cost_cons]
      omega

theorem walk_left (depth_left : Nat) (from_id : Int) (budget : Nat) :
    (walk join graph upstream depth_left from_id budget).2 = budget - size graph upstream depth_left from_id := by
  induction depth_left generalizing from_id budget with
  | zero => rfl
  | succ depth_left ih => exact walk_nodes_left ih (known_linked from_id) budget

variable (join graph upstream)

def returned_node (depth_left : Nat) (entity : GraphEntity) (budget : Nat) : LineageTreeNode :=
  let children := (walk join graph upstream depth_left entity.id budget).1
  .mk (entity_to_node join entity) children (children.isEmpty && !(graph.linked upstream entity.id).isEmpty)

variable {join graph upstream}

theorem mem_walk_nodes {depth_left : Nat} {ids : List Int} (hknown : Known graph ids) (budget : Nat)
    {tree : LineageTreeNode} :
    tree ∈ (walk_nodes join graph upstream (walk join graph upstream depth_left) ids budget).1 ↔
      ∃ entity left, Reaches graph upstream depth_left ids budget entity.id left ∧
        graph.get_entity entity.id = some entity ∧ tree = returned_node join graph upstream depth_left entity left := by
  induction ids generalizing budget with
  | nil =>
    simp only [walk_nodes, List.not_mem_nil, false_iff]
    rintro ⟨entity, left, ⟨before, after, hsplit, -⟩, -⟩
    cases before <;> cases hsplit
  | cons id ids ih =>
    cases budget with
    | zero =>
      simp only [walk_nodes, List.not_mem_nil, false_iff]
      rintro ⟨entity, left, ⟨before, after, -, hcost⟩, -⟩
      omega
    | succ budget =>
      obtain ⟨entity, hentity, rfl⟩ := hknown id List.mem_cons_self
      have hrest := ih (fun other h => hknown other (List.mem_cons_of_mem _ h))
        (budget - size graph upstream depth_left entity.id)
      simp only [walk_nodes, hentity, walk_left, List.mem_cons, hrest, reaches_cons]
      constructor
      · rintro (rfl | ⟨other, left, hreaches, hother, rfl⟩)
        · exact ⟨entity, budget, Or.inl ⟨rfl, rfl⟩, hentity, rfl⟩
        · exact ⟨other, left, Or.inr hreaches, hother, rfl⟩
      · rintro ⟨other, left, ⟨hid, rfl⟩ | hreaches, hother, rfl⟩
        · rw [hid, hentity, Option.some.injEq] at hother
          subst hother
          exact Or.inl rfl
        · exact Or.inr ⟨other, left, hreaches, hother, rfl⟩

theorem mem_walk {depth_left : Nat} {from_id : Int} {budget : Nat} {tree : LineageTreeNode} :
    tree ∈ (walk join graph upstream (depth_left + 1) from_id budget).1 ↔
      ∃ entity left, Reaches graph upstream depth_left (graph.linked upstream from_id) budget entity.id left ∧
        graph.get_entity entity.id = some entity ∧ tree = returned_node join graph upstream depth_left entity left := by
  rw [walk]
  dsimp only
  rw [List.mem_insertionSort]
  exact mem_walk_nodes (known_linked from_id) budget

private theorem walk_nodes_count {depth_left : Nat}
    (hdeeper : ∀ id budget, LineageTreeNode.count_all (walk join graph upstream depth_left id budget).1 +
      (walk join graph upstream depth_left id budget).2 ≤ budget) (ids : List Int) (budget : Nat) :
    LineageTreeNode.count_all (walk_nodes join graph upstream (walk join graph upstream depth_left) ids budget).1 +
      (walk_nodes join graph upstream (walk join graph upstream depth_left) ids budget).2 ≤ budget := by
  induction ids generalizing budget with
  | nil => simp [walk_nodes, LineageTreeNode.count_all]
  | cons id ids ih =>
    cases budget with
    | zero => simp [walk_nodes, LineageTreeNode.count_all]
    | succ budget =>
      cases hentity : graph.get_entity id with
      | none =>
        simp only [walk_nodes, hentity]
        have := ih budget
        omega
      | some entity =>
        simp only [walk_nodes, hentity, LineageTreeNode.count_all, LineageTreeNode.count]
        have hbelow := hdeeper id budget
        have hrest := ih (walk join graph upstream depth_left id budget).2
        omega

theorem walk_count (join : String → String) (graph : EntityGraph) (upstream : Bool) (depth_left : Nat)
    (from_id : Int) (budget : Nat) :
    LineageTreeNode.count_all (walk join graph upstream depth_left from_id budget).1 +
      (walk join graph upstream depth_left from_id budget).2 ≤ budget := by
  induction depth_left generalizing from_id budget with
  | zero => simp [walk, LineageTreeNode.count_all]
  | succ depth_left ih =>
    rw [walk]
    dsimp only
    rw [LineageTreeNode.count_all_perm (List.perm_insertionSort _ _)]
    exact walk_nodes_count ih _ budget

theorem exists_reaches {depth_left budget : Nat} {ids : List Int} {id : Int} :
    (∃ left, Reaches graph upstream depth_left ids budget id left) ↔
      ∃ before after, ids = before ++ id :: after ∧ cost graph upstream depth_left before < budget := by
  constructor
  · rintro ⟨left, before, after, hsplit, hcost⟩
    exact ⟨before, after, hsplit, by omega⟩
  · rintro ⟨before, after, hsplit, hcost⟩
    exact ⟨budget - cost graph upstream depth_left before - 1, before, after, hsplit, by omega⟩

theorem mem_children_ids (join : String → String) (graph : EntityGraph) (upstream : Bool) (depth_left : Nat)
    (entity : GraphEntity) (budget : Nat) (id : Int) :
    id ∈ (returned_node join graph upstream (depth_left + 1) entity budget).children.map (fun child => child.node.id) ↔
      ∃ before after, graph.linked upstream entity.id = before ++ id :: after ∧
        cost graph upstream depth_left before < budget := by
  rw [← exists_reaches, List.mem_map]
  constructor
  · rintro ⟨child, hchild, rfl⟩
    obtain ⟨found, left, hreaches, -, rfl⟩ := mem_walk.mp hchild
    exact ⟨left, hreaches⟩
  · rintro ⟨left, hreaches⟩
    have hmem : id ∈ graph.linked upstream entity.id := by
      obtain ⟨before, after, hsplit, -⟩ := hreaches
      simp [hsplit]
    obtain ⟨found, hfound, rfl⟩ := known_linked entity.id id hmem
    exact ⟨_, mem_walk.mpr ⟨found, left, hreaches, hfound, rfl⟩, rfl⟩

theorem exists_last_reached (graph : EntityGraph) (upstream : Bool) (depth_left : Nat) {ids : List Int} (hids : ids ≠ [])
    (budget : Nat) (hbudget : 0 < budget) :
    ∃ before last after, ids = before ++ last :: after ∧ cost graph upstream depth_left before < budget ∧
      (after = [] ∨ budget ≤ cost graph upstream depth_left (before ++ [last])) := by
  induction ids generalizing budget with
  | nil => exact absurd rfl hids
  | cons id ids ih =>
    by_cases hrest : ids = []
    · exact ⟨[], id, ids, rfl, by simpa [cost] using hbudget, Or.inl hrest⟩
    by_cases hfits : budget ≤ 1 + size graph upstream depth_left id
    · exact ⟨[], id, ids, rfl, by simpa [cost] using hbudget, Or.inr (by simpa [cost] using hfits)⟩
    · obtain ⟨before, last, after, hsplit, hcost, hend⟩ :=
        ih hrest (budget - (1 + size graph upstream depth_left id)) (by omega)
      refine ⟨id :: before, last, after, by rw [hsplit, List.cons_append], ?_, hend.imp_right fun hle => ?_⟩
      · rw [cost_cons]
        omega
      · rw [List.cons_append, cost_cons]
        omega

theorem not_reached_of_runsOutAt {depth_left : Nat} {id : Int} {budget : Nat}
    (h : RunsOutAt graph upstream depth_left id budget) :
    ∃ other ∈ graph.linked upstream id, ¬ ∃ before after, graph.linked upstream id = before ++ other :: after ∧
      cost graph upstream depth_left before < budget := by
  obtain ⟨before, last, after, hsplit, -, hout, other, hafter, hnot⟩ := h
  refine ⟨other, by simp [hsplit, hafter], ?_⟩
  rintro ⟨first, rest, hfirst, hcost⟩
  rw [hsplit, ← List.singleton_append, ← List.append_assoc] at hfirst
  rcases List.append_eq_append_iff.mp hfirst with ⟨between, rfl, -⟩ | ⟨between, hbefore, hrest⟩
  · rw [cost_append] at hcost
    omega
  · cases between with
    | nil =>
      rw [List.append_nil] at hbefore
      rw [hbefore] at hout
      omega
    | cons next between =>
      rw [List.cons_append, List.cons.injEq] at hrest
      rw [hbefore, ← hrest.1] at hnot
      simp at hnot

theorem flagged_returned_node {depth_left : Nat} {entity : GraphEntity} {budget : Nat} :
    Flagged graph upstream (returned_node join graph upstream (depth_left + 1) entity budget) ↔
      ¬ RunsOutAt graph upstream depth_left entity.id budget := by
  have hnode : (returned_node join graph upstream (depth_left + 1) entity budget).node.id = entity.id := rfl
  have hflag : (returned_node join graph upstream (depth_left + 1) entity budget).truncated =
      ((returned_node join graph upstream (depth_left + 1) entity budget).children.isEmpty &&
        !(graph.linked upstream entity.id).isEmpty) := rfl
  have hchildren := mem_children_ids join graph upstream depth_left entity budget
  generalize returned_node join graph upstream (depth_left + 1) entity budget = tree at hnode hflag hchildren
  have hnone : tree.children = [] ↔ ∀ id, id ∉ tree.children.map fun child => child.node.id := by
    rw [← List.eq_nil_iff_forall_not_mem, List.map_eq_nil_iff]
  constructor
  · intro hflagged hout
    obtain ⟨other, hother, hmissing⟩ := not_reached_of_runsOutAt hout
    obtain ⟨before, last, after, hsplit, hcost, -⟩ := hout
    have hlast := (hchildren last).mpr ⟨before, after, hsplit, hcost⟩
    have hsome : tree.children ≠ [] := fun hempty => hnone.mp hempty last hlast
    rcases hflagged.1 with hall | htruncated
    · exact hmissing ((hchildren other).mp (hall other (hnode ▸ hother)))
    · simp [hflag, hsome] at htruncated
  · intro hout
    by_cases hids : graph.linked upstream entity.id = []
    · have hall : AllAppear graph upstream tree := by
        intro id hid
        rw [hnode, hids] at hid
        cases hid
      exact ⟨Or.inl hall, fun _ => by simp [hflag, hids]⟩
    by_cases hbudget : budget = 0
    · -- nothing is reached, and the node says so
      have hempty : tree.children = [] := by
        refine hnone.mpr fun id hid => ?_
        obtain ⟨before, after, -, hcost⟩ := (hchildren id).mp hid
        omega
      refine ⟨Or.inr (by simp [hflag, hempty, hids]), fun hall => ?_⟩
      obtain ⟨id, hid⟩ := List.exists_mem_of_ne_nil _ hids
      have := hall id (hnode ▸ hid)
      rw [hempty] at this
      cases this
    · obtain ⟨before, last, after, hsplit, hcost, hend⟩ :=
        exists_last_reached graph upstream depth_left hids budget (Nat.pos_of_ne_zero hbudget)
      have hshown : ∀ id ∈ before ++ [last], id ∈ tree.children.map fun child => child.node.id := by
        intro id hid
        rcases List.mem_append.mp hid with hid | hid
        · obtain ⟨first, rest, rfl⟩ := List.append_of_mem hid
          refine (hchildren id).mpr ⟨first, rest ++ last :: after, by simp [hsplit], ?_⟩
          rw [cost_append] at hcost
          omega
        · rw [List.mem_singleton.mp hid]
          exact (hchildren last).mpr ⟨before, after, hsplit, hcost⟩
      have hall : AllAppear graph upstream tree := by
        intro id hid
        rw [hnode, hsplit, ← List.singleton_append, ← List.append_assoc] at hid
        rcases List.mem_append.mp hid with hid | hid
        · exact hshown id hid
        · rcases hend with rfl | hle
          · cases hid
          · by_contra hmissing
            exact hout ⟨before, last, after, hsplit, hcost, hle, id, hid, fun hin => hmissing (hshown id hin)⟩
      have hsome : tree.children ≠ [] := fun hempty => hnone.mp hempty last (hshown last (by simp))
      exact ⟨Or.inl hall, fun _ => by simp [hflag, hsome]⟩

theorem flagged_at_last_level {entity : GraphEntity} {budget : Nat} :
    Flagged graph upstream (returned_node join graph upstream 0 entity budget) := by
  by_cases hids : graph.linked upstream entity.id = []
  · refine ⟨Or.inl fun id hid => ?_, fun _ => by simp [returned_node, walk, LineageTreeNode.truncated, hids]⟩
    have hnode : id ∈ graph.linked upstream entity.id := hid
    rw [hids] at hnode
    cases hnode
  · refine ⟨Or.inr (by simp [returned_node, walk, LineageTreeNode.truncated, hids]), fun hall => ?_⟩
    obtain ⟨id, hid⟩ := List.exists_mem_of_ne_nil _ hids
    have hchild := hall id hid
    simp [returned_node, walk, LineageTreeNode.children] at hchild

theorem returned_walk {depth_left : Nat} {from_id : Int} {budget : Nat} {tree : LineageTreeNode} :
    Returned (walk join graph upstream (depth_left + 1) from_id budget).1 tree ↔
      ∃ entity left, Reaches graph upstream depth_left (graph.linked upstream from_id) budget entity.id left ∧
        graph.get_entity entity.id = some entity ∧
        (tree = returned_node join graph upstream depth_left entity left ∨
          Returned (walk join graph upstream depth_left entity.id left).1 tree) := by
  constructor
  · intro h
    cases h with
    | here hmem =>
      obtain ⟨entity, left, hreaches, hentity, htree⟩ := mem_walk.mp hmem
      exact ⟨entity, left, hreaches, hentity, Or.inl htree⟩
    | under hmem hunder =>
      obtain ⟨entity, left, hreaches, hentity, rfl⟩ := mem_walk.mp hmem
      exact ⟨entity, left, hreaches, hentity, Or.inr hunder⟩
  · rintro ⟨entity, left, hreaches, hentity, rfl | hunder⟩
    · exact .here (mem_walk.mpr ⟨entity, left, hreaches, hentity, rfl⟩)
    · exact .under (mem_walk.mpr ⟨entity, left, hreaches, hentity, rfl⟩) hunder

theorem flagged_node_iff (join : String → String) {depth_left : Nat} {entity : GraphEntity} {budget : Nat} :
    (Flagged graph upstream (returned_node join graph upstream depth_left entity budget) ∧
        ∀ tree, Returned (walk join graph upstream depth_left entity.id budget).1 tree →
          Flagged graph upstream tree) ↔
      ¬ RunsOut graph upstream depth_left entity.id budget := by
  induction depth_left generalizing entity budget with
  | zero =>
    simp only [RunsOut, not_false_eq_true, iff_true]
    refine ⟨flagged_at_last_level, fun tree h => ?_⟩
    cases h with
    | here hmem => cases hmem
    | under hmem _ => cases hmem
  | succ depth_left ih =>
    rw [RunsOut, flagged_returned_node, not_or]
    refine and_congr_right fun _ => ?_
    constructor
    · rintro hall ⟨child, left, hreaches, hout⟩
      have hmem : child ∈ graph.linked upstream entity.id := by
        obtain ⟨before, after, hsplit, -⟩ := hreaches
        simp [hsplit]
      obtain ⟨found, hfound, rfl⟩ := known_linked entity.id child hmem
      refine ih.mp ⟨hall _ ?_, fun tree htree => hall tree ?_⟩ hout
      · exact returned_walk.mpr ⟨found, left, hreaches, hfound, Or.inl rfl⟩
      · exact returned_walk.mpr ⟨found, left, hreaches, hfound, Or.inr htree⟩
    · intro hout tree htree
      obtain ⟨found, left, hreaches, -, hcase⟩ := returned_walk.mp htree
      obtain ⟨hflag, hunder⟩ := ih.mpr fun h => hout ⟨found.id, left, hreaches, h⟩
      rcases hcase with rfl | hcase
      · exact hflag
      · exact hunder tree hcase

/-- A walk returns at most `budget` nodes, on cyclic graphs too, and its flags say which child
    lists are cut short exactly when the budget does not run out in the middle of
    one. -/
theorem walk_flags_iff (join : String → String) (graph : EntityGraph) (upstream : Bool) (depth_left : Nat)
    (from_id : Int) (budget : Nat) :
    (LineageTreeNode.count_all (walk join graph upstream depth_left from_id budget).1 ≤ budget ∧
        ∀ tree, Returned (walk join graph upstream depth_left from_id budget).1 tree →
          Flagged graph upstream tree) ↔
      ¬ RunsOutBelow graph upstream depth_left from_id budget := by
  have hcount := walk_count join graph upstream depth_left from_id budget
  rw [and_iff_right (by omega)]
  cases depth_left with
  | zero =>
    simp only [RunsOutBelow, not_false_eq_true, iff_true]
    intro tree h
    cases h with
    | here hmem => cases hmem
    | under hmem _ => cases hmem
  | succ depth_left =>
    constructor
    · rintro hall ⟨child, left, hreaches, hout⟩
      have hmem : child ∈ graph.linked upstream from_id := by
        obtain ⟨before, after, hsplit, -⟩ := hreaches
        simp [hsplit]
      obtain ⟨found, hfound, rfl⟩ := known_linked from_id child hmem
      refine (flagged_node_iff join).mp ⟨hall _ ?_, fun tree htree => hall tree ?_⟩ hout
      · exact returned_walk.mpr ⟨found, left, hreaches, hfound, Or.inl rfl⟩
      · exact returned_walk.mpr ⟨found, left, hreaches, hfound, Or.inr htree⟩
    · intro hout tree htree
      obtain ⟨found, left, hreaches, -, hcase⟩ := returned_walk.mp htree
      obtain ⟨hflag, hunder⟩ := (flagged_node_iff join).mpr fun h => hout ⟨found.id, left, hreaches, h⟩
      rcases hcase with rfl | hcase
      · exact hflag
      · exact hunder tree hcase

end

/-- A model read by one that three others read. -/
def fanOut : EntityGraph where
  edges := [(1, 2), (2, 3), (2, 4), (2, 5)]
  entities := [1, 2, 3, 4, 5].map fun id => { id, kind := "model", name := "m", file_path := none, columns := [] }
  ends := by decide

private theorem fanOut_linked :
    fanOut.linked false 1 = [2] ∧ fanOut.linked false 2 = [3, 4, 5] ∧
      fanOut.linked false 3 = [] ∧ fanOut.linked false 4 = [] := by
  refine ⟨?_, ?_, ?_, ?_⟩ <;> exact List.mergeSort_of_pairwise (by decide)

/-- Two of the three readers come with a budget of three, and nothing says that the
    third is missing. -/
theorem walk_hides_reader :
    ¬ (LineageTreeNode.count_all (walk id fanOut false 5 1 3).1 ≤ 3 ∧
      ∀ tree, Returned (walk id fanOut false 5 1 3).1 tree → Flagged fanOut false tree) := by
  rintro ⟨-, hflags⟩
  obtain ⟨hone, htwo, hthree, hfour⟩ := fanOut_linked
  have hreaches : Reaches fanOut false 4 (fanOut.linked false 1) 3 2 2 := ⟨[], [], by simp [hone], by simp [cost]⟩
  have hreturned : Returned (walk id fanOut false 5 1 3).1 (returned_node id fanOut false 4
      { id := 2, kind := "model", name := "m", file_path := none, columns := [] } 2) :=
    returned_walk.mpr ⟨_, 2, hreaches, by decide, Or.inl rfl⟩
  have hflag := flagged_returned_node.mp (hflags _ hreturned)
  refine hflag ⟨[3], 4, [5], by simp [htwo], ?_, ?_, 5, by simp, by simp⟩
  · simp [cost, size, hthree]
  · simp [cost, size, hthree, hfour]

end zed.dbt_ui.lineage
