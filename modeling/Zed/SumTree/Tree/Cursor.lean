import Zed.SumTree.Cursor
import Zed.SumTree.Tree.Iter

namespace zed.sum_tree

/-- An entry of a cursor's stack also knows where the child that the way goes through starts. -/
structure CursorEntry (T S : Type) extends StackEntry T S where
  position : Nat

namespace Node

/-- A cursor of a tree in a dimension, the top of its stack first. -/
structure Cursor (T S : Type) where
  tree : Node T S
  stack : List (CursorEntry T S)
  position : Nat
  did_seek : Bool
  at_end : Bool

mutual

/-- More than the children of the nodes of a subtree. -/
def size : Node T S → Nat
  | .Internal _ _ child_summaries child_trees => 3 + child_summaries.length + sizes child_trees
  | .Leaf _ _ item_summaries => 3 + item_summaries.length

def sizes : List (Node T S) → Nat
  | [] => 0
  | child :: child_trees => child.size + sizes child_trees

end

namespace Cursor

variable {T S : Type} (len : S → Nat) (filter_node : S → Bool)

/-- The children that a filter turns down before the first that it lets through: how many they are, and
    their length. -/
def skip : List S → Nat × Nat
  | [] => (0, 0)
  | summary :: summaries =>
    if filter_node summary then (0, 0)
    else
      let (skipped, length) := skip summaries
      (skipped + 1, len summary + length)

/-- The children that lie before a target. -/
def pass (target : Nat) (bias : Bias) (position : Nat) : List S → Nat × Nat
  | [] => (0, 0)
  | summary :: summaries =>
    if bias.passes target (position + len summary) then
      let (passed, length) := pass target bias (position + len summary) summaries
      (passed + 1, len summary + length)
    else (0, 0)

def toStack (stack : List (CursorEntry T S)) : List (StackEntry T S) := stack.map CursorEntry.toStackEntry

end Cursor

end Node

theorem Node.weightOf_drop_le (child_trees : List (Node T S)) {index index' : Nat} (h : index ≤ index') :
    Node.weightOf (child_trees.drop index') ≤ Node.weightOf (child_trees.drop index) := by
  induction child_trees generalizing index index' with
  | nil => simp
  | cons child child_trees ih =>
    cases index' with
    | zero => rw [Nat.le_zero.mp h]
    | succ index' =>
      cases index with
      | zero =>
        have hrest := ih (Nat.zero_le index')
        rw [List.drop_zero] at hrest
        rw [List.drop_succ_cons, List.drop_zero, Node.weightOf]
        omega
      | succ index =>
        rw [List.drop_succ_cons, List.drop_succ_cons]
        exact ih (Nat.le_of_succ_le_succ h)

theorem stackWeight_skip {descend : Bool} {entry : StackEntry T S} {stack : List (StackEntry T S)}
    {subtree : Node T S} {index : Nat} (hindex : entry.advance descend ≤ index)
    (h : entry.tree.child_trees[index]? = some subtree) :
    stackWeight true (⟨subtree, 0⟩ :: { entry with index } :: stack) < stackWeight descend (entry :: stack) := by
  have hweight := Node.weightOf_drop h
  have hsubtree := subtree.weight_eq
  have hle := Node.weightOf_drop_le entry.tree.child_trees hindex
  have hroot : (⟨subtree, 0⟩ : StackEntry T S).advance true = 0 := rfl
  simp only [stackWeight, StackEntry.weight, hroot, List.map_cons, List.sum_cons, List.drop_zero]
  omega

namespace Node.Cursor

variable {T S : Type} (len : S → Nat) (filter_node : S → Bool)

/-- The loop of `search_forward`: where it stops, with the stack there; it goes through the whole stack
    when no item is let through. -/
def forward (descend : Bool) (position : Nat) : List (CursorEntry T S) → Nat × List (CursorEntry T S)
  | [] => (position, [])
  | entry :: stack =>
    let index := entry.advance descend
    match _htree : entry.tree with
    | .Internal _ _ child_summaries child_trees =>
      let entry_position := if descend then entry.position else position
      let (skipped, length) := skip len filter_node (child_summaries.drop index)
      match _hsubtree : child_trees[index + skipped]? with
      | some subtree =>
        forward true (position + length)
          ({ tree := subtree, index := 0, position := position + length } ::
            { tree := entry.tree, index := index + skipped, position := entry_position + length } :: stack)
      | none => forward false (position + length) stack
    | .Leaf _ _ item_summaries =>
      -- the item that the cursor is at comes first; an index past the last one panics
      let length := if descend then 0 else (item_summaries[entry.index]?.map len).getD 0
      let (skipped, skipped_length) := skip len filter_node (item_summaries.drop index)
      if index + skipped < item_summaries.length then
        (position + length + skipped_length,
          { tree := entry.tree
            index := index + skipped
            position := entry.position + length + skipped_length } :: stack)
      else forward false (position + length + skipped_length) stack
termination_by stack => stackWeight descend (toStack stack)
decreasing_by
  · refine stackWeight_skip (Nat.le_add_right index _) ?_
    rw [_htree]
    exact _hsubtree
  · exact stackWeight_pop descend _ _
  · exact stackWeight_pop descend _ _

def backWeight (descending : Bool) : List (CursorEntry T S) → Nat
  | [] => 0
  | entry :: stack =>
    (if descending then 1 else 0) + (1 + entry.index +
      sizes (entry.tree.child_trees.take (entry.index + if descending then 1 else 0))) +
      (stack.map fun entry => 1 + entry.index + sizes (entry.tree.child_trees.take entry.index)).sum

theorem sizes_take_le (child_trees : List (Node T S)) {index index' : Nat} (h : index ≤ index') :
    sizes (child_trees.take index) ≤ sizes (child_trees.take index') := by
  induction child_trees generalizing index index' with
  | nil => simp
  | cons child child_trees ih =>
    cases index with
    | zero => exact Nat.zero_le _
    | succ index =>
      obtain ⟨n, rfl⟩ := Nat.exists_eq_add_of_le' (Nat.one_le_iff_ne_zero.mpr (show index' ≠ 0 by omega))
      rw [List.take_succ_cons, List.take_succ_cons, sizes, sizes]
      exact Nat.add_le_add_left (ih (by omega)) _

theorem sizes_take_succ {child_trees : List (Node T S)} {index : Nat} {child : Node T S}
    (h : child_trees[index]? = some child) :
    sizes (child_trees.take (index + 1)) = sizes (child_trees.take index) + child.size := by
  induction child_trees generalizing index with
  | nil => cases h
  | cons first child_trees ih =>
    cases index with
    | zero =>
      cases h
      simp [sizes]
    | succ index =>
      rw [List.take_succ_cons, List.take_succ_cons, sizes, sizes, ih h, Nat.add_assoc]

theorem size_ge (node : Node T S) : 3 + node.child_summaries.length + sizes node.child_trees ≤ node.size := by
  cases node <;> exact Nat.le_refl _

theorem backWeight_pop (descending : Bool) (entry : CursorEntry T S) (stack : List (CursorEntry T S)) :
    backWeight false stack < backWeight descending (entry :: stack) := by
  cases stack with
  | nil => simp [backWeight]
  | cons below stack =>
    simp only [backWeight, List.map_cons, List.sum_cons, Bool.false_eq_true, if_false, Nat.add_zero]
    omega

theorem backWeight_push {descending : Bool} {entry : CursorEntry T S} {stack : List (CursorEntry T S)} {index : Nat}
    {child : CursorEntry T S} (hindex : index + 1 = entry.index + if descending then 1 else 0)
    (hchild : entry.tree.child_trees[index]? = some child.tree)
    (hlast : child.index = child.tree.child_summaries.length - 1) (position : Nat) :
    backWeight true (child :: { tree := entry.tree, index, position } :: stack) <
      backWeight descending (entry :: stack) := by
  have hsize := size_ge child.tree
  have htake := sizes_take_succ hchild
  have hle := sizes_take_le child.tree.child_trees (Nat.le_max_left (child.index + 1) child.tree.child_trees.length)
  rw [List.take_of_length_le (Nat.le_max_right _ _)] at hle
  simp only [backWeight, List.map_cons, List.sum_cons, if_true, ← hindex, htake]
  cases descending <;> simp only [Bool.false_eq_true, if_false, if_true] at hindex ⊢ <;> omega

theorem backWeight_step {descending : Bool} {entry : CursorEntry T S} {index : Nat} (stack : List (CursorEntry T S))
    (hindex : index + 1 = entry.index + if descending then 1 else 0) (position : Nat) :
    backWeight false ({ tree := entry.tree, index, position } :: stack) < backWeight descending (entry :: stack) := by
  have hle := sizes_take_le entry.tree.child_trees (Nat.le_add_right index 1)
  simp only [backWeight, ← hindex, Bool.false_eq_true, if_false, Nat.add_zero]
  cases descending <;> simp only [Bool.false_eq_true, if_false, if_true] at hindex ⊢ <;> omega

/-- The loop of `search_backward`: where it stops, with the stack there. -/
def backward (descending : Bool) (position : Nat) : List (CursorEntry T S) → Nat × List (CursorEntry T S)
  | [] => (position, [])
  | entry :: stack =>
    let start := (stack.head?.map CursorEntry.position).getD 0
    if _hzero : !descending && entry.index == 0 then backward false start stack
    else
      let index := if descending then entry.index else entry.index - 1
      let position := start + ((entry.tree.child_summaries.take index).map len).sum
      let entry' : CursorEntry T S := { tree := entry.tree, index, position }
      -- an index past the last child panics
      if (entry.tree.child_summaries[index]?.map filter_node).getD false then
        match _hsubtree : entry.tree.child_trees[index]? with
        | some tree =>
          backward true position ({ tree, index := tree.child_summaries.length - 1, position := 0 } :: entry' :: stack)
        | none => (position, entry' :: stack)
      else backward false position (entry' :: stack)
termination_by stack => backWeight descending stack
decreasing_by
  · exact backWeight_pop descending entry stack
  · refine backWeight_push ?_ _hsubtree rfl _
    cases descending <;> simp at _hzero ⊢
    omega
  · refine backWeight_step stack ?_ _
    cases descending <;> simp at _hzero ⊢
    omega

/-- The loop of `seek_internal`. -/
def seek_loop (target : Nat) (bias : Bias) (ascending : Bool) (position : Nat) :
    List (CursorEntry T S) → Nat × List (CursorEntry T S)
  | [] => (position, [])
  | entry :: stack =>
    match _htree : entry.tree with
    | .Internal _ _ child_summaries child_trees =>
      let index := entry.advance !ascending
      let (passed, length) := pass len target bias position (child_summaries.drop index)
      match _hsubtree : child_trees[index + passed]? with
      | some tree =>
        let entry_position := if ascending || passed != 0 then position + length else entry.position
        seek_loop target bias false (position + length)
          ({ tree, index := 0, position := position + length } ::
            { tree := entry.tree, index := index + passed, position := entry_position } :: stack)
      | none => seek_loop target bias true (position + length) stack
    | .Leaf _ items item_summaries =>
      let (passed, length) := pass len target bias position (item_summaries.drop entry.index)
      if entry.index + passed < items.length then
        (position + length, { entry with index := entry.index + passed } :: stack)
      else seek_loop target bias true (position + length) stack
termination_by stack => stackWeight (!ascending) (toStack stack)
decreasing_by
  · refine stackWeight_skip (Nat.le_add_right index _) ?_
    rw [_htree]
    exact _hsubtree
  · exact stackWeight_pop _ _ _
  · exact stackWeight_pop _ _ _

variable (cursor : Cursor T S)

def new (tree : Node T S) : Cursor T S :=
  { tree, stack := [], position := 0, did_seek := false, at_end := tree.is_empty }

def reset : Cursor T S := new cursor.tree

def start : Nat := cursor.position

/-- Panics before the first seek. -/
def item : Option T := cursor.stack.head?.bind fun entry => entry.tree.items[entry.index]?

def item_summary : Option S := cursor.stack.head?.bind fun entry => entry.tree.child_summaries[entry.index]?

/-- `cursor.end()` -/
def stop : Nat := cursor.start + (cursor.item_summary.map len).getD 0

def search_backward : Cursor T S :=
  let at_end := if cursor.did_seek then cursor.at_end else true
  if at_end then
    let root := cursor.tree
    let stack :=
      if root.is_empty then cursor.stack
      else { tree := root, index := root.child_summaries.length, position := len root.summary } :: cursor.stack
    let (position, stack) := backward len filter_node false 0 stack
    { cursor with stack, position, did_seek := true, at_end := root.is_empty }
  else
    let (position, stack) := backward len filter_node false cursor.position cursor.stack
    { cursor with stack, position, did_seek := true, at_end }

def prev : Cursor T S := cursor.search_backward len fun _ => true

def search_forward : Cursor T S :=
  if cursor.stack.isEmpty then
    let root : List (CursorEntry T S) := [{ tree := cursor.tree, index := 0, position := 0 }]
    let (position, stack) := forward len filter_node true cursor.position (if cursor.at_end then [] else root)
    { cursor with stack, position, did_seek := true, at_end := stack.isEmpty || cursor.at_end }
  else
    let (position, stack) := forward len filter_node false cursor.position cursor.stack
    { cursor with stack, position, at_end := stack.isEmpty || cursor.at_end }

def next : Cursor T S := cursor.search_forward len fun _ => true

/-- Panics when the target lies behind. Also returns whether the target was hit. -/
def seek_internal (target : Nat) (bias : Bias) : Option (Bool × Cursor T S) :=
  if cursor.position ≤ target then
    let root : CursorEntry T S := { tree := cursor.tree, index := 0, position := 0 }
    let stack := if cursor.did_seek then cursor.stack else root :: cursor.stack
    let (position, stack) := seek_loop len target bias false cursor.position stack
    let cursor : Cursor T S := { cursor with stack, position, did_seek := true, at_end := stack.isEmpty }
    let stop :=
      match bias with
      | .Left => cursor.stop len
      | .Right => position
    some (decide (target = stop), cursor)
  else none

def seek (target : Nat) (bias : Bias) : Option (Bool × Cursor T S) := cursor.reset.seek_internal len target bias

def seek_forward (target : Nat) (bias : Bias) : Option (Bool × Cursor T S) := cursor.seek_internal len target bias

end Node.Cursor

end zed.sum_tree
