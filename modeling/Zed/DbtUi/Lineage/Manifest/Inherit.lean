import Zed.Graph.HandDown
import Zed.Graph.Relaxation
import Zed.DbtUi.Lineage.Manifest

namespace zed.dbt_ui.lineage

open zed.graph

def parentsOf (manifest : Manifest) (pending : List PendingNode) (ix : Nat) : List Nat :=
  (pending[ix]?).elim [] fun node => parent_ixs manifest.parent_map (index_of_uid pending) node.unique_id

def columnSet (pending : List PendingNode) (ix : Nat) : Set String := {column | column ∈ columns_of pending ix}

variable {manifest : Manifest} {start pending : List PendingNode}

private theorem mem_push_columns {column : String} (columns inherited : List String) :
    column ∈ columns.foldl (fun inherited column =>
        if column ∈ inherited then inherited else inherited ++ [column]) inherited ↔
      column ∈ inherited ∨ column ∈ columns := by
  induction columns generalizing inherited with
  | nil => simp
  | cons first columns ih =>
    rw [List.foldl_cons, ih, List.mem_cons]
    split
    · rename_i hfirst
      constructor
      · exact fun h => h.imp_right Or.inr
      · rintro (h | rfl | h)
        · exact Or.inl h
        · exact Or.inl hfirst
        · exact Or.inr h
    · rw [List.mem_append, List.mem_singleton, or_assoc]

theorem mem_inherited {column : String} {parents : List Nat} :
    column ∈ inherited pending parents ↔ ∃ parent ∈ parents, column ∈ columns_of pending parent := by
  have hfold : ∀ found : List String, column ∈ parents.foldl (fun inherited parent_ix =>
        (columns_of pending parent_ix).foldl (fun inherited column =>
          if column ∈ inherited then inherited else inherited ++ [column]) inherited) found ↔
      column ∈ found ∨ ∃ parent ∈ parents, column ∈ columns_of pending parent := by
    induction parents with
    | nil => simp
    | cons first parents ih =>
      intro found
      rw [List.foldl_cons, ih, mem_push_columns]
      simp only [List.mem_cons, exists_eq_or_imp, or_assoc]
  rw [inherited, hfold]
  simp

theorem columns_of_eq_nil_iff {ix : Nat} : columnSet pending ix = ∅ ↔ columns_of pending ix = [] := by
  rw [Set.eq_empty_iff_forall_notMem, List.eq_nil_iff_forall_not_mem]
  rfl

def PendingNode.bare (node : PendingNode) : PendingNode := { node with columns := [] }

def SameNodes (start pending : List PendingNode) : Prop :=
  pending.map PendingNode.bare = start.map PendingNode.bare

theorem SameNodes.getElem? (h : SameNodes start pending) {ix : Nat} {node : PendingNode}
    (hnode : pending[ix]? = some node) : ∃ first, start[ix]? = some first ∧ first.bare = node.bare := by
  have hix := congrArg (fun nodes => nodes[ix]?) h
  simp only [List.getElem?_map, hnode, Option.map_some] at hix
  exact Option.map_eq_some_iff.mp hix.symm

theorem SameNodes.length_eq (h : SameNodes start pending) : pending.length = start.length := by
  simpa using congrArg List.length h

theorem inherit_node_spec (manifest : Manifest) (hnodes : SameNodes start pending) (changed : Bool) (ix : Nat) :
    let after := inherit_node manifest.parent_map (index_of_uid start) (pending, changed) ix
    SameNodes start after.1 ∧
      columnSet after.1 = handDown (parentsOf manifest start) ix (columnSet pending) ∧
      (after.2 = false → changed = false ∧ after.1 = pending) := by
  unfold inherit_node handDown
  dsimp only
  cases hnode : pending[ix]? with
  | none =>
    have hempty : columnSet pending ix = ∅ := by simp [columns_of_eq_nil_iff, columns_of, hnode]
    have hstart : start[ix]? = none := by
      rw [List.getElem?_eq_none_iff] at hnode ⊢
      rwa [← hnodes.length_eq]
    refine ⟨hnodes, ?_, fun h => ⟨h, rfl⟩⟩
    rw [if_pos hempty, eq_comm, Function.update_eq_self_iff, hempty]
    simp [parentsOf, hstart]
  | some node =>
    have hcolumns : columns_of pending ix = node.columns := by simp [columns_of, hnode]
    obtain ⟨first, hfirst, hbare⟩ := hnodes.getElem? hnode
    have huid : first.bare.unique_id = node.bare.unique_id := by rw [hbare]
    have hparents : parentsOf manifest start ix =
        parent_ixs manifest.parent_map (index_of_uid start) node.unique_id := by
      simp only [parentsOf, hfirst, Option.elim_some]
      exact congrArg _ huid
    dsimp only
    by_cases hown : node.columns = []
    · have hempty : columnSet pending ix = ∅ := by rw [columns_of_eq_nil_iff, hcolumns, hown]
      rw [if_neg (not_not.mpr hown), if_pos hempty, ← hparents]
      have hunion : {column | ∃ parent ∈ parentsOf manifest start ix, column ∈ columnSet pending parent} =
          {column | column ∈ inherited pending (parentsOf manifest start ix)} := by
        ext column
        exact mem_inherited.symm
      rw [hunion]
      split
      · have hlt : ix < pending.length := (List.getElem?_eq_some_iff.mp hnode).1
        refine ⟨?_, ?_, fun h => by cases h⟩
        · have hsame : (pending.map PendingNode.bare)[ix]? = some node.bare := by
            rw [List.getElem?_map, hnode, Option.map_some]
          rw [SameNodes, List.map_set, ← hnodes]
          refine List.ext_getElem? fun other => ?_
          by_cases hother : ix = other
          · subst hother
            rw [hsame, List.getElem?_set_self (by simpa using hlt)]
            simp only [PendingNode.bare]
          · rw [List.getElem?_set_ne hother]
        · funext other
          by_cases hother : other = ix
          · subst hother
            rw [Function.update_self, columnSet, columns_of, List.getElem?_set_self hlt]
            rfl
          · rw [Function.update_of_ne hother, columnSet, columns_of, List.getElem?_set_ne (Ne.symm hother)]
            rfl
      · rename_i hnone
        refine ⟨hnodes, ?_, fun h => ⟨h, rfl⟩⟩
        rw [eq_comm, Function.update_eq_self_iff, hempty, not_not.mp hnone]
        simp
    · have hsome : columnSet pending ix ≠ ∅ := by rwa [Ne, columns_of_eq_nil_iff, hcolumns]
      rw [if_pos hown, if_neg hsome]
      exact ⟨hnodes, rfl, fun h => ⟨h, rfl⟩⟩

private theorem inherit_nodes_spec (manifest : Manifest) (hnodes : SameNodes start pending) (count : Nat) :
    let after := (List.range count).foldl (inherit_node manifest.parent_map (index_of_uid start)) (pending, false)
    SameNodes start after.1 ∧ columnSet after.1 = sweep (parentsOf manifest start) count (columnSet pending) ∧
      (after.2 = false → after.1 = pending) := by
  induction count with
  | zero => exact ⟨hnodes, rfl, fun _ => rfl⟩
  | succ count ih =>
    obtain ⟨hsame, hcolumns, hchanged⟩ := ih
    simp only [List.range_succ, List.foldl_append, List.foldl_cons, List.foldl_nil]
    generalize (List.range count).foldl (inherit_node manifest.parent_map (index_of_uid start)) (pending, false) = found
      at hsame hcolumns hchanged ⊢
    obtain ⟨after, changed⟩ := found
    obtain ⟨hsame', hcolumns', hchanged'⟩ := inherit_node_spec manifest hsame changed count
    refine ⟨hsame', ?_, fun h => ?_⟩
    · rw [hcolumns', sweep, ← hcolumns]
    · obtain ⟨hfalse, heq⟩ := hchanged' h
      exact heq.trans (hchanged hfalse)

/-- A round that changes nothing is the last one, and so would be all that follow. -/
theorem inherit_rounds_spec (hnodes : SameNodes start pending) (rounds : Nat) :
    SameNodes start (inherit_rounds manifest.parent_map (index_of_uid start) rounds pending) ∧
      columnSet (inherit_rounds manifest.parent_map (index_of_uid start) rounds pending) =
        (sweep (parentsOf manifest start) start.length)^[rounds] (columnSet pending) := by
  induction rounds generalizing pending with
  | zero => exact ⟨hnodes, rfl⟩
  | succ rounds ih =>
    obtain ⟨hsame, hcolumns, hchanged⟩ := inherit_nodes_spec manifest hnodes pending.length
    rw [hnodes.length_eq] at hsame hcolumns hchanged
    rw [inherit_rounds, inherit_round, hnodes.length_eq, Function.iterate_succ_apply]
    generalize (List.range start.length).foldl (inherit_node manifest.parent_map (index_of_uid start))
      (pending, false) = found at hsame hcolumns hchanged ⊢
    obtain ⟨after, changed⟩ := found
    dsimp only at hsame hcolumns hchanged ⊢
    split
    · obtain ⟨hrest, hrestColumns⟩ := ih hsame
      exact ⟨hrest, by rw [hrestColumns, hcolumns]⟩
    · rename_i hstop
      have heq := hchanged (by simpa using hstop)
      rw [heq] at hcolumns ⊢
      rw [← hcolumns]
      refine ⟨hnodes, ?_⟩
      rw [eq_comm, Function.iterate_fixed hcolumns.symm]

theorem inherit_columns_same (manifest : Manifest) (pending : List PendingNode) :
    SameNodes pending (inherit_columns manifest pending) :=
  (inherit_rounds_spec rfl 10).1

/-- After Phase 2 a node has the columns that come to it within ten rounds. -/
theorem inherit_columns_eq (manifest : Manifest) (pending : List PendingNode) (ix : Nat) :
    columnSet (inherit_columns manifest pending) ix =
      {column | Comes (columnSet pending) (parentsOf manifest pending) 10 column ix} := by
  have hsame : SameNodes pending pending := rfl
  rw [inherit_columns, (inherit_rounds_spec hsame 10).2]
  refine iterate_sweep_eq (fun node hnode => ?_) 10 ix
  simp [parentsOf, List.getElem?_eq_none_iff.mpr hnode]

/-- After Phase 2 every node that had no columns of its own has the union of its
    parents' final columns exactly when each column that a node inherits comes to it
    in time: along a chain of parents each of which has columns at the first turn of
    its child at which any parent has, within ten rounds. -/
theorem inherit_columns_union_iff (manifest : Manifest) :
    (∀ ix node, (collect manifest)[ix]? = some node → node.columns = [] → ∀ column,
        column ∈ columns_of (inherit_columns manifest (collect manifest)) ix ↔
          ∃ parent ∈ parentsOf manifest (collect manifest) ix,
            column ∈ columns_of (inherit_columns manifest (collect manifest)) parent) ↔
      ∀ ix column, Inherits (columnSet (collect manifest)) (parentsOf manifest (collect manifest)) column ix →
        Comes (columnSet (collect manifest)) (parentsOf manifest (collect manifest)) 10 column ix := by
  have hfinal : ∀ ix column, column ∈ columns_of (inherit_columns manifest (collect manifest)) ix ↔
      Comes (columnSet (collect manifest)) (parentsOf manifest (collect manifest)) 10 column ix :=
    fun ix column => Set.ext_iff.mp (inherit_columns_eq manifest (collect manifest) ix) column
  simp only [hfinal]
  rw [← comes_fixpoint_iff]
  generalize collect manifest = pending
  constructor
  · intro hnodes ix hempty column
    cases hnode : pending[ix]? with
    | some node =>
      have hcolumns : node.columns = [] := by
        rw [columns_of_eq_nil_iff, columns_of, hnode] at hempty
        exact hempty
      exact hnodes ix node hnode hcolumns column
    | none =>
      have hparents : parentsOf manifest pending ix = [] := by simp [parentsOf, hnode]
      rw [hparents]
      constructor
      · intro hcomes
        cases hcomes with
        | own hown => rw [hempty] at hown; cases hown
        | parent _ hparent => rw [hparents] at hparent; cases hparent
      · rintro ⟨parent, hparent, -⟩
        cases hparent
  · intro hfix ix node hnode hcolumns column
    refine hfix ix ?_ column
    rw [columns_of_eq_nil_iff, columns_of, hnode]
    exact hcolumns

/-- A view of a table and of a view that is listed after it: the first view is filled
    before the second one has columns, and never looked at again. -/
def lateParent : Manifest where
  nodes := [
    { unique_id := "model.p.a", resource_type := some "model", name := some "a", original_file_path := none, columns := [] },
    { unique_id := "model.p.b", resource_type := some "model", name := some "b", original_file_path := none, columns := [] },
    { unique_id := "seed.p.c", resource_type := some "seed", name := some "c", original_file_path := none, columns := ["x"] },
    { unique_id := "seed.p.d", resource_type := some "seed", name := some "d", original_file_path := none, columns := ["y"] }]
  sources := []
  parent_map := [("model.p.a", ["seed.p.c", "model.p.b"]), ("model.p.b", ["seed.p.d"])]

theorem lateParent_incomplete :
    Acyclic (fun child parent => parent ∈ (lateParent.parent_map.lookup child).getD []) ∧
    ¬ ∀ ix node, (collect lateParent)[ix]? = some node → node.columns = [] → ∀ column,
      column ∈ columns_of (inherit_columns lateParent (collect lateParent)) ix ↔
        ∃ parent ∈ parentsOf lateParent (collect lateParent) ix,
          column ∈ columns_of (inherit_columns lateParent (collect lateParent)) parent := by
  constructor
  · refine acyclic_of_rank (fun uid => if uid = "model.p.a" then 0 else if uid = "model.p.b" then 1 else 2) ?_
    intro child parent hparent
    by_cases ha : child = "model.p.a"
    · subst ha
      have hcases : parent ∈ ["seed.p.c", "model.p.b"] := hparent
      simp only [List.mem_cons, List.not_mem_nil, or_false] at hcases
      obtain rfl | rfl := hcases <;> decide
    by_cases hb : child = "model.p.b"
    · subst hb
      have hcases : parent ∈ ["seed.p.d"] := hparent
      rw [List.mem_singleton.mp hcases]
      decide
    · simp [lateParent, List.lookup, beq_eq_false_iff_ne.mpr ha, beq_eq_false_iff_ne.mpr hb] at hparent
  · intro hall
    have hmissing := (hall 0 _ rfl rfl "y").mpr ⟨1, by decide, by decide⟩
    revert hmissing
    decide

end zed.dbt_ui.lineage
