import Mathlib

namespace zed.sum_tree

def TREE_BASE : Nat := 6

/-- A type that describes the sum of all items in a subtree. -/
class Summary (S : Type) where
  zero : S
  add_summary : S → S → S

/-- An item that can be stored in a tree, in the context of that tree. -/
class Item (T : Type) (S : outParam Type) where
  summary : T → S

/-- A summary whose zero adds nothing before another, and whose sums do not depend on how they are
    cut. Nothing is asked of a zero after another: the last one may win. -/
class SummaryMonoid (S : Type) extends Summary S where
  zero_add_summary (summary : S) : add_summary zero summary = summary
  add_summary_assoc (first second third : S) :
    add_summary (add_summary first second) third = add_summary first (add_summary second third)

def sum {S : Type} [Summary S] (summaries : List S) : S := summaries.foldl Summary.add_summary Summary.zero

/-- Catch-all summary for when there is nothing to sum. -/
inductive NoSummary
  | mk

instance : SummaryMonoid NoSummary where
  zero := .mk
  add_summary _ _ := .mk
  zero_add_summary _ := rfl
  add_summary_assoc _ _ _ := rfl

instance : Item Unit NoSummary where
  summary _ := .mk

inductive Node (T S : Type)
  | Internal (height : Nat) (summary : S) (child_summaries : List S) (child_trees : List (Node T S))
  | Leaf (summary : S) (items : List T) (item_summaries : List S)

namespace Node

variable {T S : Type}

def is_leaf : Node T S → Bool
  | .Internal .. => false
  | .Leaf .. => true

def height : Node T S → Nat
  | .Internal height .. => height
  | .Leaf .. => 0

def summary : Node T S → S
  | .Internal _ summary .. => summary
  | .Leaf summary .. => summary

def child_summaries : Node T S → List S
  | .Internal _ _ child_summaries _ => child_summaries
  | .Leaf _ _ item_summaries => item_summaries

/-- No trees for a leaf, where the source panics. -/
def child_trees : Node T S → List (Node T S)
  | .Internal _ _ _ child_trees => child_trees
  | .Leaf .. => []

/-- No items for an internal node, where the source panics. -/
def items : Node T S → List T
  | .Internal .. => []
  | .Leaf _ items _ => items

def is_underflowing : Node T S → Bool
  | .Internal _ _ _ child_trees => child_trees.length < TREE_BASE
  | .Leaf _ items _ => items.length < TREE_BASE

def is_empty : Node T S → Bool
  | .Internal .. => false
  | .Leaf _ items _ => items.isEmpty

mutual

/-- The items of a subtree, in order. -/
def elements : Node T S → List T
  | .Internal _ _ _ child_trees => elementsOf child_trees
  | .Leaf _ items _ => items

def elementsOf : List (Node T S) → List T
  | [] => []
  | child :: child_trees => child.elements ++ elementsOf child_trees

end

mutual

/-- The leaf that the last children lead to; an internal node has one. -/
def rightmost_leaf : Node T S → Node T S
  | .Internal height summary child_summaries child_trees =>
    rightmostOf (.Internal height summary child_summaries child_trees) child_trees
  | .Leaf summary items item_summaries => .Leaf summary items item_summaries

def rightmostOf (node : Node T S) : List (Node T S) → Node T S
  | [] => node
  | [child] => child.rightmost_leaf
  | _ :: child_trees => rightmostOf node child_trees

end

def last (node : Node T S) : Option T := node.rightmost_leaf.items.getLast?

theorem elementsOf_eq (child_trees : List (Node T S)) : elementsOf child_trees = child_trees.flatMap elements := by
  induction child_trees with
  | nil => rfl
  | cons child child_trees ih => rw [elementsOf, ih, List.flatMap_cons]

@[simp] theorem elements_leaf (summary : S) (items : List T) (item_summaries : List S) :
    (Leaf summary items item_summaries).elements = items := rfl

@[simp] theorem elements_internal (height : Nat) (summary : S) (child_summaries : List S)
    (child_trees : List (Node T S)) :
    (Internal height summary child_summaries child_trees).elements = child_trees.flatMap elements :=
  elementsOf_eq child_trees

/-- A subtree of a height, all of whose leaves are at its foot and none of whose nodes is empty or
    has more than `2 * TREE_BASE` children, with every summary the sum of what is below it. -/
inductive Valid [Summary S] [Item T S] : Nat → Node T S → Prop
  | leaf {items : List T} : items ≠ [] → items.length ≤ 2 * TREE_BASE →
      Valid 0 (.Leaf (sum (items.map Item.summary)) items (items.map Item.summary))
  | internal {height : Nat} {child_trees : List (Node T S)} : child_trees ≠ [] →
      child_trees.length ≤ 2 * TREE_BASE → (∀ child ∈ child_trees, Valid height child) →
      Valid (height + 1)
        (.Internal (height + 1) (sum (child_trees.map Node.summary)) (child_trees.map Node.summary) child_trees)

theorem rightmostOf_append (node : Node T S) (child_trees : List (Node T S)) (child : Node T S) :
    rightmostOf node (child_trees ++ [child]) = child.rightmost_leaf := by
  induction child_trees with
  | nil => rfl
  | cons first child_trees ih => cases child_trees <;> exact ih

variable [Summary S] [Item T S]

namespace Valid

variable {height : Nat} {node : Node T S}

theorem rightmost_leaf (h : Valid height node) :
    node.rightmost_leaf.items ≠ [] ∧ node.rightmost_leaf.items <:+ node.elements := by
  induction h with
  | leaf hne => exact ⟨hne, List.suffix_refl _⟩
  | @internal height child_trees hne _ _ ih =>
    obtain ⟨init, child, rfl⟩ := (List.eq_nil_or_concat' child_trees).resolve_left hne
    have hlast : ∀ summary child_summaries,
        (Internal (height + 1) summary child_summaries (init ++ [child])).rightmost_leaf = child.rightmost_leaf :=
      fun _ _ => rightmostOf_append _ init child
    obtain ⟨hitems, hsuffix⟩ := ih child (by simp)
    rw [hlast]
    refine ⟨hitems, hsuffix.trans ?_⟩
    rw [elements_internal, List.flatMap_append, List.flatMap_singleton]
    exact List.suffix_append _ _

theorem elements_ne_nil (h : Valid height node) : node.elements ≠ [] := fun hnil => by
  obtain ⟨hitems, hsuffix⟩ := h.rightmost_leaf
  rw [hnil, List.suffix_nil] at hsuffix
  exact hitems hsuffix

theorem last (h : Valid height node) : node.last = node.elements.getLast? := by
  obtain ⟨hitems, before, happend⟩ := h.rightmost_leaf
  rw [Node.last, ← happend, List.getLast?_append_of_ne_nil _ hitems]

theorem child_summaries_le (h : Valid height node) : node.child_summaries.length ≤ node.elements.length := by
  cases h with
  | leaf => simp [child_summaries]
  | @internal height child_trees _ _ hchildren =>
    have hlength : ∀ children : List (Node T S), (∀ child ∈ children, Valid height child) →
        children.length ≤ (children.flatMap elements).length := by
      intro children hvalid
      induction children with
      | nil => simp
      | cons child children ih =>
        have hrest := ih fun other hother => hvalid other (List.mem_cons_of_mem _ hother)
        have hchild := List.length_pos_of_ne_nil (hvalid child List.mem_cons_self).elements_ne_nil
        simp only [List.length_cons, List.flatMap_cons, List.length_append]
        omega
    simpa [child_summaries] using hlength child_trees hchildren

end Valid

end Node

/-- A B+ tree in which each leaf node contains items and a summary for each item, and each internal
    node a summary of the items in its subtree; only a root without items is empty. -/
structure SumTree (T S : Type) [Summary S] [Item T S] where
  node : Node T S
  valid : (∃ summary, node = .Leaf summary [] []) ∨ ∃ height, node.Valid height

namespace SumTree

variable {T S : Type} [Summary S] [Item T S] (tree : SumTree T S)

def items : List T := tree.node.elements

def summary : S := tree.node.summary

def is_empty : Bool := tree.node.is_empty

end SumTree

end zed.sum_tree
