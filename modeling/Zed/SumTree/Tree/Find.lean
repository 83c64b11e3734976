import Zed.SumTree.Tree.Calls
import Zed.SumTree.Tree.Target

namespace zed.sum_tree

namespace Node

section Model

variable {T S D : Type} [Dimension D S] (EXACT : Bool) (target : D → Ordering) (bias : Bias)

/-- The loop over the items of a leaf: the item found, the one before it and its end, and where the loop has come to. -/
def find_in_items (prev : Option T) (position : D) : List T → List S → Option (Option T × T × D) × D
  | item :: items, item_summary :: item_summaries =>
    let child_end := Dimension.add_summary position item_summary
    let entry_found := if EXACT then decide (target child_end = .eq) else !bias.goes_past (target child_end)
    if entry_found then (some (prev, item, child_end), position)
    else find_in_items (some item) child_end items item_summaries
  | _, _ => (none, position)

mutual

def find_with_prev_iterate (prev : Option T) (position : D) : Node T S → Option (Option T × T × D) × D
  | .Internal _ _ child_summaries child_trees => find_in_children prev position child_summaries child_trees
  | .Leaf _ items item_summaries => find_in_items EXACT target bias prev position items item_summaries

/-- The loop over the children of a node, which goes down into the one that the target is in. -/
def find_in_children (prev : Option T) (position : D) : List S → List (Node T S) → Option (Option T × T × D) × D
  | child_summary :: child_summaries, child_tree :: child_trees =>
    let child_end := Dimension.add_summary position child_summary
    if bias.goes_past (target child_end) then find_in_children child_tree.last child_end child_summaries child_trees
    else find_with_prev_iterate prev position child_tree
  | _, _ => (none, position)

end

/-- What `find_with_prev_iterate` finds, without the item before it. -/
def find_iterate (position : D) (node : Node T S) : Option (T × D) × D :=
  let (found, position) := find_with_prev_iterate EXACT target bias none position node
  (found.map fun (_, item, child_end) => (item, child_end), position)

end Model

end Node

namespace SumTree

section Model

variable {T S D : Type} [Summary S] [Item T S] [Dimension D S] (tree : SumTree T S) (target : D → Ordering)
  (bias : Bias)

/-- `find`, and `find_exact` when `EXACT`. -/
def find_from (EXACT : Bool) : D × D × Option T :=
  let tree_end := Dimension.add_summary Dimension.zero tree.summary
  if bias.goes_past (target tree_end) then (tree_end, tree_end, none)
  else
    match tree.node.find_iterate EXACT target bias Dimension.zero with
    | (some (item, child_end), position) => (position, child_end, some item)
    | (none, position) => (position, position, none)

def find : D × D × Option T := tree.find_from target bias false

def find_exact : D × D × Option T := tree.find_from target bias true

def find_with_prev : D × D × Option (Option T × T) :=
  let tree_end := Dimension.add_summary Dimension.zero tree.summary
  if bias.goes_past (target tree_end) then (tree_end, tree_end, none)
  else
    match tree.node.find_with_prev_iterate false target bias none Dimension.zero with
    | (some (prev, item, child_end), position) => (position, child_end, some (prev, item))
    | (none, position) => (position, position, none)

end Model

end SumTree

theorem Downward.front {α : Type} {passes : List α → Bool} {passed items rest : List α}
    (h : Downward passes passed (items ++ rest)) : Downward passes passed items :=
  fun front middle back hsplit hne hpasses => h front middle (back ++ rest) (by rw [hsplit]; simp) hne hpasses

/-- A seek that does not go past some items stops among them. -/
theorem seek_while_within {α : Type} {passes : List α → Bool} {passed items rest : List α} (hne : items ≠ [])
    (h : passes (passed ++ items) = false) :
    ∃ item after, (seek_while passes passed items).rest = item :: after ∧
      seek_while passes passed (items ++ rest) =
        { passed := (seek_while passes passed items).passed, rest := item :: (after ++ rest) } := by
  induction items generalizing passed with
  | nil => exact absurd rfl hne
  | cons item items ih =>
    rw [List.cons_append, seek_while, seek_while]
    cases hpass : passes (passed ++ [item]) with
    | false => exact ⟨item, items, rfl, rfl⟩
    | true =>
      have hitems : items ≠ [] := by
        rintro rfl
        rw [hpass] at h
        cases h
      exact ih hitems (by simpa using h)

namespace Seeker

variable {T S D : Type} [SummaryMonoid S] [Item T S] [Dimension D S]

omit [SummaryMonoid S] in
theorem progress_concat (passed : List T) (item : T) :
    (progress (passed ++ [item]) : D) = Dimension.add_summary (progress passed) (Item.summary item) := by
  rw [progress, List.foldl_append]
  rfl

/-- What a descent reports of the place that a seek comes to. -/
def reported (place : Cursor T) : Option (Option T × T × D) :=
  place.item.map fun item => (place.passed.getLast?, item, progress (place.passed ++ [item]))

variable {target : D → Ordering} {bias : Bias}

omit [SummaryMonoid S] in
theorem find_in_items_spec (items passed : List T) :
    Node.find_in_items false target bias passed.getLast? (progress passed) items (items.map Item.summary) =
      (reported (seek_while (goes_past target bias) passed items),
        progress (seek_while (goes_past target bias) passed items).passed) := by
  induction items generalizing passed with
  | nil => rfl
  | cons item items ih =>
    have hnext := ih (passed ++ [item])
    rw [List.getLast?_concat] at hnext
    rw [List.map_cons, Node.find_in_items, seek_while, goes_past, ← progress_concat]
    cases hpast : bias.goes_past (target (progress (passed ++ [item]))) with
    | true => exact hnext
    | false => rfl

variable [LawfulDimension D S]

/-- A descent that finds where the cursor stops: the item there, the one before it, its end and its start. -/
def Finds (target : D → Ordering) (bias : Bias) (node : Node T S) : Prop :=
  ∀ passed, Downward (goes_past target bias) passed node.elements →
    node.find_with_prev_iterate false target bias passed.getLast? (progress passed) =
      (reported (seek_while (goes_past target bias) passed node.elements),
        progress (seek_while (goes_past target bias) passed node.elements).passed)

theorem find_in_children_spec {height : Nat} {child_trees : List (Node T S)} {passed : List T}
    (hchildren : ∀ child ∈ child_trees, child.Valid height) (ih : ∀ child ∈ child_trees, Finds target bias child)
    (hdown : Downward (goes_past target bias) passed (child_trees.flatMap Node.elements)) :
    Node.find_in_children false target bias passed.getLast? (progress passed) (child_trees.map Node.summary) child_trees =
      (reported (seek_while (goes_past target bias) passed (child_trees.flatMap Node.elements)),
        progress (seek_while (goes_past target bias) passed (child_trees.flatMap Node.elements)).passed) := by
  induction child_trees generalizing passed with
  | nil => rfl
  | cons child child_trees ihRest =>
    have hvalid := hchildren child List.mem_cons_self
    have hne := hvalid.elements_ne_nil
    rw [List.flatMap_cons] at hdown ⊢
    rw [List.map_cons, Node.find_in_children, ← progress_append_elements hvalid]
    cases hpast : bias.goes_past (target (progress (passed ++ child.elements))) with
    | true =>
      have hrest := @ihRest (passed ++ child.elements)
        (fun other hother => hchildren other (List.mem_cons_of_mem _ hother))
        (fun other hother => ih other (List.mem_cons_of_mem _ hother)) hdown.append
      rw [List.getLast?_append_of_ne_nil _ hne, ← hvalid.last] at hrest
      rw [seek_while_pass hdown fun _ => hpast]
      exact hrest
    | false =>
      -- the target is in this child, where the seek stops too
      obtain ⟨item, after, hrest, hseek⟩ :=
        @seek_while_within _ (goes_past target bias) passed child.elements (child_trees.flatMap Node.elements) hne hpast
      have hchild := ih child List.mem_cons_self passed hdown.front
      rw [hseek]
      refine hchild.trans ?_
      simp only [reported, Cursor.item, hrest, List.head?_cons]

/-- The descent into a subtree. -/
theorem find_with_prev_iterate_spec {height : Nat} {node : Node T S} (hvalid : node.Valid height) :
    Finds target bias node := by
  induction hvalid with
  | leaf => exact fun passed _ => find_in_items_spec _ passed
  | @internal height child_trees _ _ hchildren ih =>
    intro passed hdown
    rw [Node.elements_internal] at hdown ⊢
    exact find_in_children_spec hchildren ih hdown

end Seeker

namespace SumTree

open Seeker

variable {T S D : Type} [SummaryMonoid S] [Item T S] [Dimension D S] [LawfulDimension D S]

end SumTree

namespace IntegersSummary

instance : Dimension Nat IntegersSummary where
  zero := 0
  add_summary position summary := position + summary.count

instance : LawfulDimension Nat IntegersSummary where
  add_add_summary position first second := (Nat.add_assoc position first.count second.count).symm

theorem progress_eq (passed : List Nat) : (Seeker.progress passed : Nat) = passed.length := by
  induction passed using List.reverseRecOn with
  | nil => rfl
  | append_singleton passed item ih =>
    rw [Seeker.progress_concat, ih, List.length_append]
    rfl

end IntegersSummary

end zed.sum_tree
