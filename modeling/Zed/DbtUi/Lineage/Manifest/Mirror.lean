import Zed.DbtUi.Lineage.Manifest.Inherit

namespace zed.dbt_ui.lineage

/-- The entries that become nodes. -/
def kept (manifest : Manifest) : List ManifestNode := (manifest.nodes ++ manifest.sources).filter is_kept

/-- The entity of a kept entry with a uid, of the last one when several have it. -/
def IsNodeOf (manifest : Manifest) (built : Built) (uid : String) (id : Int) : Prop :=
  ∃ before entry entity after, (kept manifest).zip built.graph.entities = before ++ (entry, entity) :: after ∧
    entry.unique_id = uid ∧ entity.id = id ∧ ∀ row ∈ after, row.1.unique_id ≠ uid

def IsParent (manifest : Manifest) (parent child : String) : Prop :=
  ∃ parents, (child, parents) ∈ manifest.parent_map ∧ parent ∈ parents

/-- A graph mirrors a manifest. -/
structure Mirrors (manifest : Manifest) (built : Built) : Prop where
  nodes : List.Forall₂ (fun entry entity => entity.kind = entry.resource_type.getD "" ∧
    entry.name = some entity.name ∧ entity.file_path = entry.original_file_path)
    (kept manifest) built.graph.entities
  distinct : (built.graph.entities.map GraphEntity.id).Nodup
  once : built.graph.edges.Nodup
  edges : ∀ edge, edge ∈ built.graph.edges ↔ ∃ parent child, IsParent manifest parent child ∧
    IsNodeOf manifest built parent edge.1 ∧ IsNodeOf manifest built child edge.2
  names : ∀ row ∈ (kept manifest).zip built.graph.entities, row.1.resource_type = some "model" →
    id_for built.loaded row.2.name = .ok row.2.id

/-- Every kept entry has a name that the store takes. -/
def AllNamed (manifest : Manifest) : Prop :=
  ∀ entry ∈ kept manifest, ∃ name, entry.name = some name ∧ EntityGraph.is_blank name = false

def ModelsLast (manifest : Manifest) : Prop :=
  ∀ before entry after, kept manifest = before ++ entry :: after → entry.resource_type = some "model" →
    ∀ later ∈ after, later.name ≠ entry.name

theorem lookup_reverse_eq_some {entries : List (String × Int)} {key : String} {value : Int} :
    entries.reverse.lookup key = some value ↔
      ∃ before after, entries = before ++ (key, value) :: after ∧ ∀ entry ∈ after, entry.1 ≠ key := by
  rw [List.lookup_eq_some_iff]
  constructor
  · rintro ⟨after, before, hsplit, hafter⟩
    refine ⟨before.reverse, after.reverse, ?_, fun entry hentry => ?_⟩
    · rw [← List.reverse_reverse entries, hsplit]
      simp
    · have hne := hafter entry (List.mem_reverse.mp hentry)
      exact fun heq => by simp [heq] at hne
  · rintro ⟨before, after, rfl, hafter⟩
    refine ⟨after.reverse, before.reverse, by simp, fun entry hentry => ?_⟩
    have hne := hafter entry (List.mem_reverse.mp hentry)
    exact bne_iff_ne.mpr (Ne.symm hne)

/-- The entities of pending nodes, numbered from a row on. -/
def entitiesFrom : Nat → List PendingNode → List GraphEntity
  | _, [] => []
  | rows, node :: pending =>
    { id := (rows + 1 : Int), kind := node.kind, name := node.name, file_path := node.file_path, columns := node.columns } ::
      entitiesFrom (rows + 1) pending

theorem lt_of_mem_entitiesFrom {rows : Nat} {pending : List PendingNode} {entity : GraphEntity}
    (h : entity ∈ entitiesFrom rows pending) : (rows : Int) < entity.id := by
  induction pending generalizing rows with
  | nil => cases h
  | cons node pending ih =>
    rcases List.mem_cons.mp h with rfl | h
    · exact Int.lt_succ _
    · have := ih h
      omega

theorem entitiesFrom_nodup (rows : Nat) (pending : List PendingNode) :
    ((entitiesFrom rows pending).map GraphEntity.id).Nodup := by
  induction pending generalizing rows with
  | nil => exact List.nodup_nil
  | cons node pending ih =>
    refine List.nodup_cons.mpr ⟨fun hmem => ?_, ih _⟩
    obtain ⟨entity, hentity, hid⟩ := List.mem_map.mp hmem
    have := lt_of_mem_entitiesFrom hentity
    dsimp only at hid
    omega

/-- A pending node that the store takes. -/
def Valid (node : PendingNode) : Prop :=
  EntityGraph.is_blank node.kind = false ∧ EntityGraph.is_blank node.name = false

section

variable {graph : EntityGraph} {by_uid by_name : List (String × Int)} {pending : List PendingNode}

theorem insert_entity_of_valid (graph : EntityGraph) {node : PendingNode} (h : Valid node) :
    ∃ after : EntityGraph,
      graph.insert_entity { id := 0, kind := node.kind, name := node.name, file_path := node.file_path, columns := node.columns } =
        some ((graph.entities.length + 1 : Int), after) ∧
      after.entities = graph.entities ++ entitiesFrom graph.entities.length [node] ∧ after.edges = graph.edges := by
  unfold EntityGraph.insert_entity
  rw [if_neg (by simp [h.1, h.2])]
  exact ⟨_, rfl, rfl, rfl⟩

theorem insert_nodes_of_valid (graph : EntityGraph) (by_uid by_name : List (String × Int))
    (hvalid : ∀ node ∈ pending, Valid node) :
    ∃ after : EntityGraph,
      insert_nodes pending graph by_uid by_name = some (after,
        ((pending.map PendingNode.unique_id).zip
          ((entitiesFrom graph.entities.length pending).map GraphEntity.id)).reverse ++ by_uid,
        ((pending.map PendingNode.name).zip
          ((entitiesFrom graph.entities.length pending).map GraphEntity.id)).reverse ++ by_name) ∧
      after.entities = graph.entities ++ entitiesFrom graph.entities.length pending ∧ after.edges = graph.edges := by
  induction pending generalizing graph by_uid by_name with
  | nil => exact ⟨graph, rfl, by simp [entitiesFrom], rfl⟩
  | cons node pending ih =>
    obtain ⟨next, hinsert, hentities, hedges⟩ := insert_entity_of_valid graph (hvalid node List.mem_cons_self)
    obtain ⟨after, hafter, hafterEntities, hafterEdges⟩ :=
      ih next ((node.unique_id, (graph.entities.length + 1 : Int)) :: by_uid)
        ((node.name, (graph.entities.length + 1 : Int)) :: by_name)
        fun other hother => hvalid other (List.mem_cons_of_mem _ hother)
    have hlength : next.entities.length = graph.entities.length + 1 := by
      rw [hentities]
      simp [entitiesFrom]
    rw [hlength] at hafter hafterEntities
    refine ⟨after, ?_, ?_, hafterEdges.trans hedges⟩
    · rw [insert_nodes, hinsert]
      simp only [hafter, entitiesFrom, List.map_cons, List.zip_cons_cons, List.reverse_cons, List.append_assoc,
        List.cons_append, List.nil_append]
    · rw [hafterEntities, hentities]
      simp [entitiesFrom]

theorem valid_of_insert_nodes {result : EntityGraph × List (String × Int) × List (String × Int)}
    (h : insert_nodes pending graph by_uid by_name = some result) : ∀ node ∈ pending, Valid node := by
  induction pending generalizing graph by_uid by_name with
  | nil => exact fun node hnode => by cases hnode
  | cons node pending ih =>
    rw [insert_nodes] at h
    split at h
    · cases h
    · rename_i hinsert
      have hvalid : Valid node := by
        unfold EntityGraph.insert_entity at hinsert
        split at hinsert
        · cases hinsert
        · rename_i hblank
          simpa [Valid] using hblank
      intro other hother
      rcases List.mem_cons.mp hother with rfl | hother
      · exact hvalid
      · exact ih h other hother

end

section

variable {graph : EntityGraph} {by_uid : List (String × Int)}

theorem insert_edge_of_mem {from_id to_id : Int} (hfrom : from_id ∈ graph.entities.map GraphEntity.id)
    (hto : to_id ∈ graph.entities.map GraphEntity.id) :
    ∃ after : EntityGraph, graph.insert_edge from_id to_id = some after ∧ after.entities = graph.entities ∧
      after.edges = graph.edges.insert (from_id, to_id) := by
  unfold EntityGraph.insert_edge
  rw [dif_pos ⟨hfrom, hto⟩]
  exact ⟨_, rfl, rfl, rfl⟩

theorem insert_parents_spec (hknown : ∀ uid id, by_uid.lookup uid = some id → id ∈ graph.entities.map GraphEntity.id)
    {child_id : Int} (hchild : child_id ∈ graph.entities.map GraphEntity.id) (honce : graph.edges.Nodup)
    (parents : List String) :
    ∃ after : EntityGraph, insert_parents by_uid child_id parents graph = some after ∧
      after.entities = graph.entities ∧ after.edges.Nodup ∧
      ∀ edge, edge ∈ after.edges ↔ edge ∈ graph.edges ∨
        ∃ parent ∈ parents, by_uid.lookup parent = some edge.1 ∧ edge.2 = child_id := by
  induction parents generalizing graph with
  | nil => exact ⟨graph, rfl, rfl, honce, by simp⟩
  | cons parent parents ih =>
    cases hparent : by_uid.lookup parent with
    | none =>
      obtain ⟨after, hafter, hentities, hnodup, hedges⟩ := ih hknown hchild honce
      refine ⟨after, by rw [insert_parents, hparent]; exact hafter, hentities, hnodup, fun edge => ?_⟩
      rw [hedges]
      simp [hparent]
    | some parent_id =>
      obtain ⟨next, hinsert, hnextEntities, hnextEdges⟩ := insert_edge_of_mem (hknown parent parent_id hparent) hchild
      rw [← hnextEntities] at hknown hchild
      obtain ⟨after, hafter, hentities, hnodup, hedges⟩ := ih hknown hchild (by rw [hnextEdges]; exact honce.insert)
      refine ⟨after, by rw [insert_parents, hparent]; simp only [hinsert]; exact hafter,
        hentities.trans hnextEntities, hnodup, fun edge => ?_⟩
      obtain ⟨a, b⟩ := edge
      rw [hedges, hnextEdges, List.mem_insert_iff]
      simp only [List.mem_cons, exists_eq_or_imp, hparent, Option.some.injEq, Prod.mk.injEq]
      constructor
      · rintro ((⟨rfl, rfl⟩ | hold) | hnew)
        · exact Or.inr (Or.inl ⟨rfl, rfl⟩)
        · exact Or.inl hold
        · exact Or.inr (Or.inr hnew)
      · rintro (hold | ⟨rfl, rfl⟩ | hnew)
        · exact Or.inl (Or.inr hold)
        · exact Or.inl (Or.inl ⟨rfl, rfl⟩)
        · exact Or.inr hnew

theorem insert_edges_spec (hknown : ∀ uid id, by_uid.lookup uid = some id → id ∈ graph.entities.map GraphEntity.id)
    (honce : graph.edges.Nodup) (parent_map : List (String × List String)) :
    ∃ after : EntityGraph, insert_edges by_uid parent_map graph = some after ∧
      after.entities = graph.entities ∧ after.edges.Nodup ∧
      ∀ edge, edge ∈ after.edges ↔ edge ∈ graph.edges ∨
        ∃ child parents, (child, parents) ∈ parent_map ∧ ∃ parent ∈ parents,
          by_uid.lookup parent = some edge.1 ∧ by_uid.lookup child = some edge.2 := by
  induction parent_map generalizing graph with
  | nil => exact ⟨graph, rfl, rfl, honce, by simp⟩
  | cons entry parent_map ih =>
    obtain ⟨child, parents⟩ := entry
    cases hchild : by_uid.lookup child with
    | none =>
      obtain ⟨after, hafter, hentities, hnodup, hedges⟩ := ih hknown honce
      refine ⟨after, by rw [insert_edges, hchild]; exact hafter, hentities, hnodup, fun edge => ?_⟩
      rw [hedges]
      refine or_congr_right ?_
      constructor
      · rintro ⟨other, parents, hmem, h⟩
        exact ⟨other, parents, List.mem_cons_of_mem _ hmem, h⟩
      · rintro ⟨other, others, hmem, parent, hparent, hfrom, hto⟩
        rcases List.mem_cons.mp hmem with heq | hmem
        · rw [(Prod.mk.inj heq).1, hchild] at hto
          cases hto
        · exact ⟨other, others, hmem, parent, hparent, hfrom, hto⟩
    | some child_id =>
      obtain ⟨next, hinsert, hnextEntities, hnextNodup, hnextEdges⟩ :=
        insert_parents_spec hknown (hknown child child_id hchild) honce parents
      rw [← hnextEntities] at hknown
      obtain ⟨after, hafter, hentities, hnodup, hedges⟩ := ih hknown hnextNodup
      refine ⟨after, by rw [insert_edges, hchild]; simp only [hinsert]; exact hafter,
        hentities.trans hnextEntities, hnodup, fun edge => ?_⟩
      rw [hedges, hnextEdges, or_assoc]
      refine or_congr_right ?_
      constructor
      · rintro (⟨parent, hparent, hfrom, hto⟩ | ⟨other, others, hmem, h⟩)
        · exact ⟨child, parents, List.mem_cons_self, parent, hparent, hfrom, by rw [hchild, hto]⟩
        · exact ⟨other, others, List.mem_cons_of_mem _ hmem, h⟩
      · rintro ⟨other, others, hmem, parent, hparent, hfrom, hto⟩
        rcases List.mem_cons.mp hmem with heq | hmem
        · obtain ⟨rfl, rfl⟩ := Prod.mk.inj heq
          rw [hchild, Option.some.injEq] at hto
          exact Or.inl ⟨parent, hparent, hfrom, hto.symm⟩
        · exact Or.inr ⟨other, others, hmem, parent, hparent, hfrom, hto⟩

end

theorem lookup_reverse_map {α : Type} {rows : List α} {keyOf : α → String} {valueOf : α → Int} {key : String}
    {value : Int} :
    ((rows.map fun row => (keyOf row, valueOf row)).reverse.lookup key = some value) ↔
      ∃ before row after, rows = before ++ row :: after ∧ keyOf row = key ∧ valueOf row = value ∧
        ∀ later ∈ after, keyOf later ≠ key := by
  rw [lookup_reverse_eq_some]
  constructor
  · rintro ⟨before, after, hsplit, hafter⟩
    obtain ⟨first, rest, rfl, rfl, hrest⟩ := List.map_eq_append_iff.mp hsplit
    obtain ⟨row, last, rfl, hrow, rfl⟩ := List.map_eq_cons_iff.mp hrest
    obtain ⟨hkey, hvalue⟩ := Prod.mk.inj hrow
    exact ⟨first, row, last, rfl, hkey, hvalue, fun later hlater => hafter _ (List.mem_map_of_mem hlater)⟩
  · rintro ⟨before, row, after, rfl, rfl, rfl, hafter⟩
    refine ⟨before.map fun row => (keyOf row, valueOf row), after.map fun row => (keyOf row, valueOf row), by simp, ?_⟩
    intro entry hentry
    obtain ⟨later, hlater, rfl⟩ := List.mem_map.mp hentry
    exact hafter later hlater

def Pends (entry : ManifestNode) (node : PendingNode) : Prop :=
  node.unique_id = entry.unique_id ∧ node.kind = entry.resource_type.getD "" ∧ entry.name = some node.name ∧
    node.file_path = entry.original_file_path

private theorem forall₂_pends {entries : List ManifestNode}
    (hnamed : ∀ entry ∈ entries.filter is_kept, ∃ name, entry.name = some name) :
    List.Forall₂ Pends (entries.filter is_kept) (entries.filterMap pending_node) := by
  induction entries with
  | nil => exact .nil
  | cons entry entries ih =>
    by_cases hkept : is_kept entry = true
    · rw [List.filter_cons_of_pos hkept] at hnamed ⊢
      obtain ⟨name, hname⟩ := hnamed entry List.mem_cons_self
      rw [List.filterMap_cons_some (show pending_node entry = some _ by rw [pending_node, if_pos hkept, hname]; rfl)]
      exact .cons ⟨rfl, rfl, hname, rfl⟩ (ih fun other h => hnamed other (List.mem_cons_of_mem _ h))
    · rw [List.filter_cons_of_neg hkept] at hnamed ⊢
      rw [List.filterMap_cons_none (by rw [pending_node, if_neg hkept])]
      exact ih hnamed

theorem forall₂_inherited {manifest : Manifest} (hnamed : ∀ entry ∈ kept manifest, ∃ name, entry.name = some name) :
    List.Forall₂ Pends (kept manifest) (inherit_columns manifest (collect manifest)) := by
  have hpends : List.Forall₂ Pends (kept manifest) (collect manifest) := forall₂_pends hnamed
  have hbare : List.Forall₂ Pends (kept manifest) ((collect manifest).map PendingNode.bare) :=
    List.forall₂_map_right_iff.mpr hpends
  rw [← inherit_columns_same manifest (collect manifest)] at hbare
  exact (List.forall₂_map_right_iff.mp hbare).imp fun _ _ h => h

theorem valid_of_pends {entry : ManifestNode} {node : PendingNode} (h : Pends entry node) (hkept : is_kept entry = true)
    (hname : ∀ name, entry.name = some name → EntityGraph.is_blank name = false) : Valid node := by
  obtain ⟨-, hkind, hnodeName, -⟩ := h
  refine ⟨?_, hname _ hnodeName⟩
  have hmem := of_decide_eq_true hkept
  simp only [List.mem_cons, List.not_mem_nil, or_false] at hmem
  rw [hkind]
  obtain h | h | h | h := hmem <;> rw [h] <;> decide +kernel

private theorem entitiesFrom_forall₂ {entries : List ManifestNode} {pending : List PendingNode}
    (h : List.Forall₂ Pends entries pending) (rows : Nat) :
    List.Forall₂ (fun entry entity => entity.kind = entry.resource_type.getD "" ∧
      entry.name = some entity.name ∧ entity.file_path = entry.original_file_path) entries (entitiesFrom rows pending) := by
  induction h generalizing rows with
  | nil => exact .nil
  | cons hpends _ ih => exact .cons ⟨hpends.2.1, hpends.2.2.1, hpends.2.2.2⟩ (ih (rows + 1))

private theorem maps_eq {entries : List ManifestNode} {pending : List PendingNode}
    (h : List.Forall₂ Pends entries pending) (rows : Nat) :
    (pending.map PendingNode.unique_id).zip ((entitiesFrom rows pending).map GraphEntity.id) =
        (entries.zip (entitiesFrom rows pending)).map (fun row => (row.1.unique_id, row.2.id)) ∧
      (pending.map PendingNode.name).zip ((entitiesFrom rows pending).map GraphEntity.id) =
        (entries.zip (entitiesFrom rows pending)).map (fun row => (row.2.name, row.2.id)) := by
  induction h generalizing rows with
  | nil => exact ⟨rfl, rfl⟩
  | cons hpends _ ih =>
    obtain ⟨huids, hnames⟩ := ih (rows + 1)
    simp only [entitiesFrom, List.map_cons, List.zip_cons_cons, huids, hnames, hpends.1, and_self]

private theorem exists_of_mem_left {α β : Type} {rel : α → β → Prop} {xs : List α} {ys : List β} {x : α}
    (h : List.Forall₂ rel xs ys) (hx : x ∈ xs) : ∃ y ∈ ys, rel x y := by
  induction h with
  | nil => cases hx
  | cons hrel _ ih =>
    rcases List.mem_cons.mp hx with rfl | hx
    · exact ⟨_, List.mem_cons_self, hrel⟩
    · obtain ⟨y, hy, hrel⟩ := ih hx
      exact ⟨y, List.mem_cons_of_mem _ hy, hrel⟩

theorem build_graph_of_named {manifest : Manifest} (hnamed : AllNamed manifest) :
    ∃ built entities, build_graph manifest = some built ∧ built.graph.entities = entities ∧
      List.Forall₂ (fun entry entity => entity.kind = entry.resource_type.getD "" ∧
        entry.name = some entity.name ∧ entity.file_path = entry.original_file_path) (kept manifest) entities ∧
      (entities.map GraphEntity.id).Nodup ∧ built.graph.edges.Nodup ∧
      (∀ edge, edge ∈ built.graph.edges ↔ ∃ parent child, IsParent manifest parent child ∧
        IsNodeOf manifest built parent edge.1 ∧ IsNodeOf manifest built child edge.2) ∧
      ∀ name, built.by_name name =
        (((kept manifest).zip entities).map fun row => (row.2.name, row.2.id)).reverse.lookup name := by
  have hpends := forall₂_inherited fun entry hentry => (hnamed entry hentry).imp fun _ h => h.1
  have hvalid : ∀ node ∈ inherit_columns manifest (collect manifest), Valid node := by
    intro node hnode
    obtain ⟨entry, hentry, hpend⟩ := exists_of_mem_left hpends.flip hnode
    obtain ⟨name, hname, hblank⟩ := hnamed entry hentry
    refine valid_of_pends hpend (List.mem_filter.mp hentry).2 fun other hother => ?_
    rw [hname, Option.some.injEq] at hother
    rwa [← hother]
  obtain ⟨graph, hnodes, hentities, hedges⟩ :=
    insert_nodes_of_valid .empty [] [] hvalid
  generalize hpending : inherit_columns manifest (collect manifest) = pending at hpends hnodes hentities
  obtain ⟨huids, hnames⟩ := maps_eq hpends 0
  have hempty : EntityGraph.empty.entities.length = 0 := rfl
  rw [hempty, huids, hnames, List.append_nil, List.append_nil] at hnodes
  rw [hempty] at hentities
  have hgraph : graph.entities = entitiesFrom 0 pending := by simpa [EntityGraph.empty] using hentities
  have hknown : ∀ uid id, ((((kept manifest).zip (entitiesFrom 0 pending)).map
      fun row => (row.1.unique_id, row.2.id)).reverse.lookup uid = some id) → id ∈ graph.entities.map GraphEntity.id := by
    intro uid id hlookup
    obtain ⟨before, row, after, hsplit, -, rfl, -⟩ := lookup_reverse_map.mp hlookup
    have hrow : row ∈ (kept manifest).zip (entitiesFrom 0 pending) := by simp [hsplit]
    rw [hgraph]
    exact List.mem_map_of_mem (List.of_mem_zip hrow).2
  obtain ⟨after, hinsert, hafterEntities, honce, hafterEdges⟩ :=
    insert_edges_spec hknown (by rw [hedges]; exact List.nodup_nil) manifest.parent_map
  have hafterGraph : after.entities = entitiesFrom 0 pending := hafterEntities.trans hgraph
  refine ⟨{ graph := after, by_name := _ }, entitiesFrom 0 pending, ?_, hafterGraph,
    entitiesFrom_forall₂ hpends 0, entitiesFrom_nodup 0 pending, honce, fun edge => ?_, fun name => rfl⟩
  · rw [build_graph, hpending, hnodes]
    dsimp only
    rw [hinsert]
    rfl
  · have hnode : ∀ uid id, IsNodeOf manifest { graph := after, by_name := fun name =>
        (((kept manifest).zip (entitiesFrom 0 pending)).map fun row => (row.2.name, row.2.id)).reverse.lookup name } uid id ↔
        (((kept manifest).zip (entitiesFrom 0 pending)).map fun row =>
          (row.1.unique_id, row.2.id)).reverse.lookup uid = some id := by
      intro uid id
      rw [lookup_reverse_map, IsNodeOf, hafterGraph]
      constructor
      · rintro ⟨before, entry, entity, rest, hsplit, huid, hid, hrest⟩
        exact ⟨before, (entry, entity), rest, hsplit, huid, hid, hrest⟩
      · rintro ⟨before, ⟨entry, entity⟩, rest, hsplit, huid, hid, hrest⟩
        exact ⟨before, entry, entity, rest, hsplit, huid, hid, hrest⟩
    rw [hafterEdges, hedges]
    simp only [hnode, IsParent]
    constructor
    · rintro (hold | ⟨child, parents, hmem, parent, hparent, hfrom, hto⟩)
      · cases hold
      · exact ⟨parent, child, ⟨parents, hmem, hparent⟩, hfrom, hto⟩
    · rintro ⟨parent, child, ⟨parents, hmem, hparent⟩, hfrom, hto⟩
      exact Or.inr ⟨child, parents, hmem, parent, hparent, hfrom, hto⟩

theorem id_for_eq_ok {loaded : Loaded} {name : String} {id : Int} :
    id_for loaded name = .ok id ↔ loaded.by_name name = some id := by
  unfold id_for
  cases loaded.by_name name <;> simp

private theorem rows_eq {rows : List (ManifestNode × GraphEntity)} (hdistinct : (rows.map fun row => row.2.id).Nodup)
    {before before' after after' : List (ManifestNode × GraphEntity)} {row row' : ManifestNode × GraphEntity}
    (hsplit : rows = before ++ row :: after) (hsplit' : rows = before' ++ row' :: after') (hid : row.2.id = row'.2.id) :
    after = after' := by
  have hids : ∀ {before after : List (ManifestNode × GraphEntity)} {row : ManifestNode × GraphEntity},
      rows = before ++ row :: after → row.2.id ∉ before.map (fun row => row.2.id) ∧
        row.2.id ∉ after.map fun row => row.2.id := by
    intro before after row hsplit
    rw [hsplit, List.map_append, List.map_cons, List.nodup_middle, List.nodup_cons] at hdistinct
    rw [List.mem_append, not_or] at hdistinct
    exact hdistinct.1
  have hmap := congrArg (List.map fun row : ManifestNode × GraphEntity => row.2.id) (hsplit.symm.trans hsplit')
  rw [List.map_append, List.map_append, List.map_cons, List.map_cons] at hmap
  obtain ⟨hbefore, hafter⟩ := hids hsplit
  rw [hid] at hmap hbefore hafter
  have hlength := congrArg List.length ((List.append_cons_inj_of_notMem hbefore hafter).mp hmap).1
  rw [List.length_map, List.length_map] at hlength
  obtain ⟨-, hrest⟩ := List.append_inj (hsplit.symm.trans hsplit') hlength
  exact (List.cons.inj hrest).2

private theorem rows_distinct {entries : List ManifestNode} {entities : List GraphEntity}
    (hlength : entries.length = entities.length) (hdistinct : (entities.map GraphEntity.id).Nodup) :
    ((entries.zip entities).map fun row => row.2.id).Nodup := by
  have hmap : (entries.zip entities).map (fun row => row.2.id) =
      ((entries.zip entities).map Prod.snd).map GraphEntity.id := by
    rw [List.map_map]
    rfl
  rw [hmap, List.map_snd_zip hlength.ge]
  exact hdistinct

theorem allNamed_of_built {manifest : Manifest} {built : Built} (hbuilt : build_graph manifest = some built)
    (hnodes : List.Forall₂ (fun entry entity => entity.kind = entry.resource_type.getD "" ∧
      entry.name = some entity.name ∧ entity.file_path = entry.original_file_path)
      (kept manifest) built.graph.entities) : AllNamed manifest := by
  have hnames : ∀ entry ∈ kept manifest, ∃ name, entry.name = some name := by
    intro entry hentry
    obtain ⟨entity, -, -, hname, -⟩ := exists_of_mem_left hnodes hentry
    exact ⟨_, hname⟩
  have hvalid : ∀ node ∈ inherit_columns manifest (collect manifest), Valid node := by
    rw [build_graph] at hbuilt
    split at hbuilt
    · cases hbuilt
    · rename_i hinsert
      exact valid_of_insert_nodes hinsert
  intro entry hentry
  obtain ⟨node, hnode, hpends⟩ := exists_of_mem_left (forall₂_inherited hnames) hentry
  exact ⟨node.name, hpends.2.2.1, (hvalid node hnode).2⟩

/-- The graph mirrors the manifest exactly when every kept entry has a name, not a
    blank one, and no entry that comes after a model, in the order of `nodes` and then
    `sources`, has the name of the model. -/
theorem build_graph_mirrors_iff (manifest : Manifest) :
    (∃ built, build_graph manifest = some built ∧ Mirrors manifest built) ↔
      AllNamed manifest ∧ ModelsLast manifest := by
  constructor
  · rintro ⟨built, hbuilt, hmirrors⟩
    have hnamed := allNamed_of_built hbuilt hmirrors.nodes
    refine ⟨hnamed, ?_⟩
    obtain ⟨built', entities, hbuilt', rfl, hforall, hdistinct, -, -, hby_name⟩ := build_graph_of_named hnamed
    rw [hbuilt, Option.some.injEq] at hbuilt'
    subst hbuilt'
    intro before entry after hkept hmodel later hlater heq
    have hentries : ((kept manifest).zip built.graph.entities).map Prod.fst = before ++ entry :: after := by
      rw [← hkept]
      exact List.map_fst_zip hforall.length_eq.le
    obtain ⟨first, tail, hrows, rfl, htail⟩ := List.map_eq_append_iff.mp hentries
    obtain ⟨row, rest, rfl, rfl, rfl⟩ := List.map_eq_cons_iff.mp htail
    obtain ⟨laterRow, hlaterRow, rfl⟩ := List.mem_map.mp hlater
    -- the name finds the row of the model, so no row after it has the name
    have hname := id_for_eq_ok.mp (hmirrors.names row (by simp [hrows]) hmodel)
    obtain ⟨before', row', after', hrows', hkey, hid, hlast⟩ := lookup_reverse_map.mp ((hby_name _).symm.trans hname)
    have hrest := rows_eq (rows_distinct hforall.length_eq hdistinct) hrows hrows' hid.symm
    refine hlast laterRow (hrest ▸ hlaterRow) ?_
    have hrowName := (List.forall₂_zip hforall (show (row.1, row.2) ∈ _ by simp [hrows])).2.1
    have hlaterName := (List.forall₂_zip hforall (show (laterRow.1, laterRow.2) ∈ _ by simp [hrows, hlaterRow])).2.1
    rw [hrowName, hlaterName] at heq
    exact Option.some.inj heq
  · rintro ⟨hnamed, hlast⟩
    obtain ⟨built, entities, hbuilt, rfl, hforall, hdistinct, honce, hedges, hby_name⟩ := build_graph_of_named hnamed
    refine ⟨built, hbuilt, hforall, hdistinct, honce, hedges, fun row hrow hmodel => ?_⟩
    obtain ⟨before, after, hsplit⟩ := List.append_of_mem hrow
    refine id_for_eq_ok.mpr ((hby_name _).trans ?_)
    refine lookup_reverse_map.mpr ⟨before, row, after, hsplit, rfl, rfl, fun later hlater heq => ?_⟩
    have hentries : kept manifest = before.map Prod.fst ++ row.1 :: after.map Prod.fst := by
      rw [← List.map_cons, ← List.map_append, ← hsplit]
      exact (List.map_fst_zip hforall.length_eq.le).symm
    refine hlast _ _ _ hentries hmodel later.1 (List.mem_map_of_mem hlater) ?_
    rw [(List.forall₂_zip hforall (show (row.1, row.2) ∈ _ from hrow)).2.1,
      (List.forall₂_zip hforall (show (later.1, later.2) ∈ _ by simp [hsplit, hlater])).2.1, heq]

/-- A model and the source that it reads, which share a name. -/
def sharedName : Manifest where
  nodes := [
    { unique_id := "model.p.orders", resource_type := some "model", name := some "orders", original_file_path := none, columns := [] }]
  sources := [
    { unique_id := "source.p.raw.orders", resource_type := some "source", name := some "orders", original_file_path := none,
      columns := [] }]
  parent_map := [("model.p.orders", ["source.p.raw.orders"])]

/-- The name of the model finds its source. -/
theorem sharedName_not_mirrored : ¬ ∃ built, build_graph sharedName = some built ∧ Mirrors sharedName built := by
  rintro ⟨built, hbuilt, hmirrors⟩
  have hby_name : (build_graph sharedName).bind (fun built => built.by_name "orders") = some 2 := by decide
  have hids : (build_graph sharedName).map (fun built => built.graph.entities.map fun entity => (entity.id, entity.name)) =
      some [(1, "orders"), (2, "orders")] := by decide
  rw [hbuilt] at hby_name hids
  obtain ⟨model, source, hentities⟩ : ∃ model source, built.graph.entities = [model, source] :=
    List.length_eq_two.mp (by simpa using congrArg List.length (Option.some.inj hids))
  simp only [hentities, Option.map_some, List.map_cons, List.map_nil, Option.some.injEq, List.cons.injEq,
    Prod.mk.injEq, and_true] at hids
  have hrow := hmirrors.names (sharedName.nodes.head (by decide), model) (by rw [hentities]; exact List.mem_cons_self) rfl
  rw [id_for_eq_ok, hids.1.1, hids.1.2] at hrow
  have hclash : (some 1 : Option Int) = some 2 := hrow.symm.trans hby_name
  revert hclash
  decide

end zed.dbt_ui.lineage
