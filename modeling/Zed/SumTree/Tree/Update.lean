import Zed.SumTree.Tree.Append

namespace zed.sum_tree

/-- The item at an end of a list, its back or its front. -/
def endOf {α : Type} (back : Bool) (items : List α) : Option α := if back then items.getLast? else items.head?

def modifyEnd {α : Type} (back : Bool) (f : α → α) (items : List α) : List α :=
  if back then items.modifyLast f else items.modifyHead f

section ModifyEnd

variable {α : Type} {f : α → α}

theorem modifyEnd_back (front : List α) {items : List α} (hne : items ≠ []) :
    modifyEnd true f (front ++ items) = front ++ modifyEnd true f items :=
  List.modifyLast_append_of_right_ne_nil f front items hne

theorem modifyEnd_front {items : List α} (hne : items ≠ []) (rest : List α) :
    modifyEnd false f (items ++ rest) = modifyEnd false f items ++ rest := by
  obtain ⟨item, items, rfl⟩ := List.exists_cons_of_ne_nil hne
  rfl

end ModifyEnd

namespace Node

variable {T S : Type}

section Model

variable [Summary S] [Item T S] (back : Bool) (f : T → T)

mutual

/-- `update_last_recursive`, and `update_first_recursive` when not `back`. Panics on an internal node that has no
    child or whose child has no item. -/
def update_recursive : Node T S → Option (Node T S × Option S)
  | .Internal height _ child_summaries child_trees =>
    if child_summaries.isEmpty then none
    else do
      let (child_trees, child_summary) ← updateChild child_trees
      let child_summaries := modifyEnd back (fun _ => child_summary) child_summaries
      let summary := sum child_summaries
      some (.Internal height summary child_summaries child_trees, some summary)
  | .Leaf summary items item_summaries =>
    match endOf back items, endOf back item_summaries with
    | some item, some _ =>
      let item := f item
      let item_summaries := modifyEnd back (fun _ => Item.summary item) item_summaries
      let summary := sum item_summaries
      some (.Leaf summary (modifyEnd back (fun _ => item) items) item_summaries, some summary)
    | _, _ => some (.Leaf summary items item_summaries, none)

/-- The child at the end updated, with its new summary. -/
def updateChild : List (Node T S) → Option (List (Node T S) × S)
  | [] => none
  | child :: child_trees =>
    if back && !child_trees.isEmpty then
      (updateChild child_trees).map fun (child_trees, summary) => (child :: child_trees, summary)
    else do
      let (child, summary) ← update_recursive child
      summary.map fun summary => (child :: child_trees, summary)

end

end Model

variable [SummaryMonoid S] [Item T S] {back : Bool} {f : T → T}

/-- A valid node stays one, with `f` done to the item at its end. -/
def Updates (back : Bool) (f : T → T) (height : Nat) (node : Node T S) : Prop :=
  ∃ updated, node.update_recursive back f = some (updated, some updated.summary) ∧ Valid height updated ∧
    updated.elements = modifyEnd back f node.elements

theorem updateChild_spec {height : Nat} {child_trees : List (Node T S)} (hne : child_trees ≠ [])
    (hchildren : ∀ child ∈ child_trees, Valid height child) (ih : ∀ child ∈ child_trees, Updates back f height child) :
    ∃ updated summary, updateChild back f child_trees = some (updated, summary) ∧
      (∀ child ∈ updated, Valid height child) ∧ updated.length = child_trees.length ∧
      modifyEnd back (fun _ => summary) (child_trees.map Node.summary) = updated.map Node.summary ∧
      updated.flatMap elements = modifyEnd back f (child_trees.flatMap elements) := by
  induction child_trees with
  | nil => exact absurd rfl hne
  | cons child child_trees ihRest =>
    rw [updateChild]
    split
    · rename_i hrest
      obtain ⟨hback, hmore⟩ := Bool.and_eq_true_iff.mp hrest
      have hmore : child_trees ≠ [] := by simpa using hmore
      subst hback
      obtain ⟨updated, summary, hupdate, hvalid, hlength, hsummaries, helements⟩ :=
        ihRest hmore (fun other hother => hchildren other (List.mem_cons_of_mem _ hother))
          fun other hother => ih other (List.mem_cons_of_mem _ hother)
      refine ⟨child :: updated, summary, by rw [hupdate]; rfl, ?_, congrArg Nat.succ hlength, ?_, ?_⟩
      · exact List.forall_mem_cons.mpr ⟨hchildren child List.mem_cons_self, hvalid⟩
      · rw [List.map_cons, ← List.singleton_append, modifyEnd_back _ (by simpa using hmore), hsummaries]
        rfl
      · have hitems := flatMap_elements_ne_nil hmore fun other hother => hchildren other (List.mem_cons_of_mem _ hother)
        rw [List.flatMap_cons, List.flatMap_cons, modifyEnd_back _ hitems, helements]
    · rename_i hlast
      obtain ⟨node, hupdate, hvalid, helements⟩ := ih child List.mem_cons_self
      refine ⟨node :: child_trees, node.summary, by rw [hupdate]; rfl, ?_, rfl, ?_, ?_⟩
      · exact List.forall_mem_cons.mpr ⟨hvalid, fun other hother => hchildren other (List.mem_cons_of_mem _ hother)⟩
      · cases back with
        | false => rfl
        | true =>
          obtain rfl : child_trees = [] := by simpa using hlast
          rfl
      · rw [List.flatMap_cons, List.flatMap_cons, helements]
        cases back with
        | false => exact (modifyEnd_front (hchildren child List.mem_cons_self).elements_ne_nil _).symm
        | true =>
          obtain rfl : child_trees = [] := by simpa using hlast
          simp

theorem Valid.updates {height : Nat} {node : Node T S} (h : Valid height node) : Updates back f height node := by
  induction h with
  | @leaf items hne hlength =>
    cases back with
    | false =>
      obtain ⟨item, rest, rfl⟩ := List.exists_cons_of_ne_nil hne
      exact ⟨_, rfl, .leaf (List.cons_ne_nil _ _) hlength, rfl⟩
    | true =>
      obtain ⟨front, item, rfl⟩ := (List.eq_nil_or_concat' items).resolve_left hne
      have hleaf := @Valid.leaf _ _ _ _ (front ++ [f item]) (by simp) (by simpa using hlength)
      refine ⟨_, ?_, hleaf, (List.modifyLast_concat f item front).symm⟩
      simp [update_recursive, endOf, modifyEnd, List.modifyLast_concat, Node.summary]
  | @internal height child_trees hne hlength hchildren ih =>
    obtain ⟨updated, summary, hupdate, hvalid, hsame, hsummaries, helements⟩ := updateChild_spec hne hchildren ih
    have hnonempty : (child_trees.map Node.summary).isEmpty = false := by simpa using hne
    refine ⟨.Internal (height + 1) (sum (updated.map Node.summary)) (updated.map Node.summary) updated, ?_, ?_, ?_⟩
    · rw [update_recursive, hnonempty, hupdate]
      simp [hsummaries, Node.summary]
    · refine .internal ?_ (hsame ▸ hlength) hvalid
      rintro rfl
      exact hne (List.eq_nil_of_length_eq_zero hsame.symm)
    · rw [elements_internal, elements_internal, helements]

end Node

/-- A call that changes a tree. -/
inductive TreeCall (T S : Type) [Summary S] [Item T S]
  | push (item : T)
  | extend (items : List T)
  | par_extend (items : List T)
  | append (other : SumTree T S)
  | update_first (f : T → T)
  | update_last (f : T → T)

def Node.call {T S : Type} [SummaryMonoid S] [Item T S] (node : Node T S) : TreeCall T S → Option (Node T S)
  | .push item => some (node.append (.Leaf (Item.summary item) [item] [Item.summary item]))
  | .extend items => some (node.append (Node.from_iter items))
  | .par_extend items => some (node.append (Node.from_par_iter items))
  | .append other => some (node.append other.node)
  | .update_first f => (node.update_recursive false f).map Prod.fst
  | .update_last f => (node.update_recursive true f).map Prod.fst

def TreeCall.on {T S : Type} [Summary S] [Item T S] (items : List T) : TreeCall T S → List T
  | .push item => items ++ [item]
  | .extend others => items ++ others
  | .par_extend others => items ++ others
  | .append other => items ++ other.items
  | .update_first f => items.modifyHead f
  | .update_last f => items.modifyLast f

namespace SumTree

variable {T S : Type} [SummaryMonoid S] [Item T S]

theorem update_recursive_spec (tree : SumTree T S) (back : Bool) (f : T → T) :
    ∃ after : SumTree T S, (tree.node.update_recursive back f).map Prod.fst = some after.node ∧
      after.items = modifyEnd back f tree.items := by
  rcases tree.valid with ⟨summary, hnode⟩ | ⟨height, hvalid⟩
  · refine ⟨tree, ?_, ?_⟩
    · rw [hnode]
      cases back <;> rfl
    · rw [items, hnode]
      cases back <;> rfl
  · obtain ⟨node, hupdate, hnode, helements⟩ := @Node.Valid.updates _ _ _ _ back f _ _ hvalid
    exact ⟨⟨node, Or.inr ⟨height, hnode⟩⟩, by rw [hupdate]; rfl, helements⟩

theorem call_spec (tree : SumTree T S) (call : TreeCall T S) :
    ∃ after : SumTree T S, tree.node.call call = some after.node ∧ after.items = call.on tree.items := by
  cases call with
  | push item =>
    have hleaf : Node.Valid 0 (.Leaf (Item.summary item) [item] [Item.summary item] : Node T S) := by
      have hvalid := Node.Valid.leaf (List.cons_ne_nil item []) (Nat.le_add_left 1 11)
      rwa [show sum ([item].map Item.summary) = (Item.summary item : S) from SummaryMonoid.zero_add_summary _] at hvalid
    exact ⟨tree.append ⟨_, Or.inr ⟨0, hleaf⟩⟩, rfl, append_items _ _⟩
  | extend items =>
    have hitems : (from_iter items).items = items := (Node.from_iter_spec items).1
    exact ⟨tree.append (from_iter items), rfl, (append_items _ _).trans (congrArg (tree.items ++ ·) hitems)⟩
  | par_extend items =>
    have hitems : (from_par_iter items).items = items :=
      (congrArg Node.elements (Node.from_par_iter_eq items)).trans (Node.from_iter_spec items).1
    exact ⟨tree.append (from_par_iter items), rfl, (append_items _ _).trans (congrArg (tree.items ++ ·) hitems)⟩
  | append other => exact ⟨tree.append other, rfl, append_items _ _⟩
  | update_first f => exact tree.update_recursive_spec false f
  | update_last f => exact tree.update_recursive_spec true f

/-- Whatever calls change a tree, none panics, and it is a valid tree of what they make of the list of its items, with
    every summary the sum of what is below it. -/
theorem calls_on_items (tree : SumTree T S) (calls : List (TreeCall T S)) :
    ∃ after : SumTree T S, calls.foldlM Node.call tree.node = some after.node ∧
      after.items = calls.foldl TreeCall.on tree.items ∧
      (after.items ≠ [] → after.summary = Node.itemsSum after.items) := by
  induction calls generalizing tree with
  | nil =>
    refine ⟨tree, rfl, rfl, fun hne => tree.summary_eq fun hempty => absurd ?_ hne⟩
    exact tree.is_empty_iff.mp hempty
  | cons call calls ih =>
    obtain ⟨next, hcall, hitems⟩ := tree.call_spec call
    obtain ⟨after, hcalls, hafter, hsummary⟩ := ih next
    rw [List.foldlM_cons, hcall, List.foldl_cons, ← hitems]
    exact ⟨after, hcalls, hafter, hsummary⟩

end SumTree

end zed.sum_tree
