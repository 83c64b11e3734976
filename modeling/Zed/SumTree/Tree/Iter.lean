import Zed.SumTree.Tree

namespace zed.sum_tree

variable {T S : Type}

/-- A node on the way to the current item, and which of its children the way goes through. -/
structure StackEntry (T S : Type) where
  tree : Node T S
  index : Nat

mutual

/-- More than the nodes and items of a subtree, to count what a walk over it has ahead. -/
def Node.weight : Node T S → Nat
  | .Internal _ _ _ child_trees => 2 + Node.weightOf child_trees
  | .Leaf .. => 2

def Node.weightOf : List (Node T S) → Nat
  | [] => 0
  | child :: child_trees => child.weight + Node.weightOf child_trees

end

/-- The child to go on with: the one that the way goes through when it has just come down to its
    node, else the next one. -/
def StackEntry.advance (entry : StackEntry T S) (descend : Bool) : Nat :=
  if descend then entry.index else entry.index + 1

/-- What an entry has ahead, from a child on. -/
def StackEntry.weight (entry : StackEntry T S) (start : Nat) : Nat :=
  1 + Node.weightOf (entry.tree.child_trees.drop start)

def stackWeight (descend : Bool) : List (StackEntry T S) → Nat
  | [] => 0
  | entry :: stack =>
    entry.weight (entry.advance descend) +
      (stack.map fun entry => entry.weight (entry.index + 1)).sum

theorem Node.weightOf_drop {child_trees : List (Node T S)} {index : Nat} {child : Node T S}
    (h : child_trees[index]? = some child) :
    Node.weightOf (child_trees.drop index) = child.weight + Node.weightOf (child_trees.drop (index + 1)) := by
  obtain ⟨hlt, rfl⟩ := List.getElem?_eq_some_iff.mp h
  rw [List.drop_eq_getElem_cons hlt, Node.weightOf]

theorem Node.weight_eq (node : Node T S) : node.weight = 2 + Node.weightOf node.child_trees := by
  cases node <;> rfl

theorem stackWeight_push {descend : Bool} {entry : StackEntry T S} {stack : List (StackEntry T S)}
    {subtree : Node T S} {index : Nat} (hindex : index = entry.advance descend)
    (h : entry.tree.child_trees[index]? = some subtree) :
    stackWeight true (⟨subtree, 0⟩ :: { entry with index } :: stack) < stackWeight descend (entry :: stack) := by
  have hweight := Node.weightOf_drop h
  have hsubtree := subtree.weight_eq
  have hroot : (⟨subtree, 0⟩ : StackEntry T S).advance true = 0 := rfl
  simp only [stackWeight, StackEntry.weight, ← hindex, hroot, List.map_cons, List.sum_cons, List.drop_zero]
  omega

theorem stackWeight_pop (descend : Bool) (entry : StackEntry T S) (stack : List (StackEntry T S)) :
    stackWeight false stack < stackWeight descend (entry :: stack) := by
  cases stack with
  | nil => simp [stackWeight, StackEntry.weight]
  | cons below stack =>
    have hbelow : below.advance false = below.index + 1 := rfl
    simp only [stackWeight, StackEntry.weight, hbelow, List.map_cons, List.sum_cons]
    omega

/-- An iterator over the items of a tree. -/
structure Iter (T S : Type) where
  tree : Node T S
  stack : List (StackEntry T S)

namespace Iter

def new (tree : Node T S) : Iter T S := { tree, stack := [] }

/-- The loop of `next`, the top of the stack first. -/
def walk (descend : Bool) : List (StackEntry T S) → Option T × List (StackEntry T S)
  | [] => (none, [])
  | entry :: stack =>
    let index := entry.advance descend
    -- a leaf has no trees, and an internal node no items
    match _hsubtree : entry.tree.child_trees[index]? with
    | some subtree => walk true (⟨subtree, 0⟩ :: { entry with index } :: stack)
    | none =>
      match entry.tree.items[index]? with
      | some next_item => (some next_item, { entry with index } :: stack)
      | none => walk false stack
termination_by stack => stackWeight descend stack
decreasing_by
  · exact stackWeight_push rfl _hsubtree
  · exact stackWeight_pop descend entry stack

def next (iter : Iter T S) : Option T × Iter T S :=
  let (item, stack) :=
    if iter.stack.isEmpty then walk true [⟨iter.tree, 0⟩] else walk false iter.stack
  (item, { iter with stack })

def last (iter : Iter T S) : Option T := iter.tree.last

/-- The lower bound; there is no upper one. -/
def size_hint (iter : Iter T S) : Nat :=
  match iter.stack with
  | top :: _ => top.tree.child_summaries.length - top.index
  | [] => iter.tree.child_summaries.length

/-- The iterator after a number of calls to `next`. -/
def after (iter : Iter T S) : Nat → Iter T S
  | 0 => iter
  | n + 1 => (iter.after n).next.2

/-- What the calls to `next` return from here up to the first `None`. -/
inductive Yields : Iter T S → List T → Prop
  | none {iter : Iter T S} : iter.next.1 = none → Yields iter []
  | some {iter : Iter T S} {item : T} {items : List T} :
      iter.next.1 = some item → Yields iter.next.2 items → Yields iter (item :: items)

end Iter

def StackEntry.ahead (entry : StackEntry T S) (start : Nat) : List T :=
  (entry.tree.child_trees.drop start).flatMap Node.elements ++ entry.tree.items.drop start

/-- The items after those that the entries of a stack are at. -/
def ahead (stack : List (StackEntry T S)) : List T := stack.flatMap fun entry => entry.ahead (entry.index + 1)

/-- What the loop of `next` still has to go through. -/
def walkAhead (descend : Bool) : List (StackEntry T S) → List T
  | [] => []
  | entry :: stack => entry.ahead (entry.advance descend) ++ ahead stack

def Path (root : Node T S) : List (StackEntry T S) → Prop
  | [] => True
  | [entry] => entry.tree = root
  | entry :: below :: stack =>
    below.tree.child_trees[below.index]? = some entry.tree ∧ Path root (below :: stack)

def AtItem : List (StackEntry T S) → Prop
  | [] => False
  | top :: _ => top.index < top.tree.items.length

theorem Node.elements_eq (node : Node T S) : node.elements = node.child_trees.flatMap elements ++ node.items := by
  cases node with
  | Internal => simp [child_trees, items]
  | Leaf => simp [child_trees, items]

theorem StackEntry.ahead_zero (tree : Node T S) : StackEntry.ahead ⟨tree, 0⟩ 0 = tree.elements := by
  rw [ahead, List.drop_zero, List.drop_zero, tree.elements_eq]

theorem StackEntry.ahead_child {entry : StackEntry T S} {index : Nat} {subtree : Node T S}
    (h : entry.tree.child_trees[index]? = some subtree) :
    entry.ahead index = subtree.elements ++ entry.ahead (index + 1) := by
  obtain ⟨hlt, rfl⟩ := List.getElem?_eq_some_iff.mp h
  have hitems : entry.tree.items = [] := by
    cases htree : entry.tree with
    | Internal => rfl
    | Leaf =>
      rw [htree] at hlt
      exact absurd hlt (by simp [Node.child_trees])
  rw [ahead, ahead, hitems, List.drop_eq_getElem_cons hlt, List.flatMap_cons, List.append_assoc]
  simp

theorem StackEntry.ahead_item {entry : StackEntry T S} {index : Nat}
    (h : entry.tree.child_trees[index]? = none) : entry.ahead index = entry.tree.items.drop index := by
  rw [ahead, List.drop_eq_nil_of_le (List.getElem?_eq_none_iff.mp h), List.flatMap_nil, List.nil_append]

theorem Path.of_cons {root : Node T S} {entry : StackEntry T S} {stack : List (StackEntry T S)}
    (h : Path root (entry :: stack)) : Path root stack := by
  cases stack with
  | nil => trivial
  | cons => exact h.2

theorem Path.with_index {root : Node T S} {entry : StackEntry T S} {stack : List (StackEntry T S)} (index : Nat)
    (h : Path root (entry :: stack)) : Path root ({ entry with index } :: stack) := by
  cases stack with
  | nil => exact h
  | cons => exact h

/-- The loop of `next` returns the first item that it still has to go through, and is then at that
    item; if there is none it clears the stack. -/
theorem Iter.walk_spec {root : Node T S} (descend : Bool) (stack : List (StackEntry T S)) (hpath : Path root stack) :
    (walk descend stack).1 = (walkAhead descend stack).head? ∧
      ahead (walk descend stack).2 = (walkAhead descend stack).tail ∧ Path root (walk descend stack).2 ∧
      ((walkAhead descend stack = [] ∧ (walk descend stack).2 = []) ∨
        (walkAhead descend stack ≠ [] ∧ AtItem (walk descend stack).2)) := by
  fun_induction walk descend stack with
  | case1 descend => exact ⟨rfl, rfl, trivial, Or.inl ⟨rfl, rfl⟩⟩
  | case2 descend entry stack index subtree hsubtree ih =>
    have hahead : walkAhead true (⟨subtree, 0⟩ :: { entry with index } :: stack) = walkAhead descend (entry :: stack) := by
      have hchild := @StackEntry.ahead_child _ _ entry _ _ hsubtree
      simp only [walkAhead, ahead, StackEntry.advance, if_true, StackEntry.ahead_zero, List.flatMap_cons]
      rw [← List.append_assoc]
      exact congrArg (· ++ _) hchild.symm
    rw [← hahead]
    exact ih ⟨hsubtree, hpath.with_index index⟩
  | case3 descend entry stack index hsubtree next_item hitem =>
    obtain ⟨hlt, rfl⟩ := List.getElem?_eq_some_iff.mp hitem
    have hahead : walkAhead descend (entry :: stack) =
        entry.tree.items[index] :: (entry.ahead (index + 1) ++ ahead stack) := by
      have hfrom : entry.ahead index = entry.tree.items[index] :: entry.ahead (index + 1) := by
        have hnone : entry.tree.child_trees[index + 1]? = none :=
          List.getElem?_eq_none_iff.mpr ((List.getElem?_eq_none_iff.mp hsubtree).trans (Nat.le_succ index))
        rw [StackEntry.ahead_item hsubtree, StackEntry.ahead_item hnone, List.drop_eq_getElem_cons hlt]
      rw [walkAhead, ← List.cons_append, ← hfrom]
    rw [hahead]
    exact ⟨rfl, rfl, hpath.with_index index, Or.inr ⟨List.cons_ne_nil _ _, hlt⟩⟩
  | case4 descend entry stack index hsubtree hitem ih =>
    have hahead : walkAhead descend (entry :: stack) = walkAhead false stack := by
      have hfrom : entry.ahead index = [] := by
        rw [StackEntry.ahead_item hsubtree, List.drop_eq_nil_of_le (List.getElem?_eq_none_iff.mp hitem)]
      have hbelow : ahead stack = walkAhead false stack := by cases stack <;> rfl
      rw [walkAhead, hfrom, List.nil_append, hbelow]
    rw [hahead]
    exact ih hpath.of_cons

namespace Iter

/-- The items that the calls to `next` go through: all of them when the stack is clear. -/
def coming (iter : Iter T S) : List T := if iter.stack.isEmpty then iter.tree.elements else ahead iter.stack

theorem next_spec {iter : Iter T S} (hpath : Path iter.tree iter.stack) :
    iter.next.1 = iter.coming.head? ∧ iter.next.2.tree = iter.tree ∧ Path iter.tree iter.next.2.stack ∧
      ahead iter.next.2.stack = iter.coming.tail ∧
      ((iter.coming = [] ∧ iter.next.2.stack = []) ∨ (iter.coming ≠ [] ∧ AtItem iter.next.2.stack)) := by
  obtain ⟨tree, stack⟩ := iter
  cases stack with
  | nil =>
    have hall : walkAhead true [⟨tree, 0⟩] = tree.elements := by
      have hroot : (⟨tree, 0⟩ : StackEntry T S).advance true = 0 := rfl
      rw [walkAhead, hroot, StackEntry.ahead_zero, ahead, List.flatMap_nil, List.append_nil]
    obtain ⟨hitem, hahead, hpath', hstack⟩ := @walk_spec _ _ tree true [⟨tree, 0⟩] rfl
    rw [hall] at hitem hahead hstack
    exact ⟨hitem, rfl, hpath', hahead, hstack⟩
  | cons top stack =>
    obtain ⟨hitem, hahead, hpath', hstack⟩ := walk_spec false (top :: stack) hpath
    exact ⟨hitem, rfl, hpath', hahead, hstack⟩

theorem yields_ahead {iter : Iter T S} (hpath : Path iter.tree iter.stack) (hat : AtItem iter.stack) :
    Yields iter (ahead iter.stack) := by
  generalize hitems : ahead iter.stack = items
  induction items generalizing iter with
  | nil =>
    have hcoming : iter.coming = [] := by
      rw [coming, hitems]
      cases hstack : iter.stack with
      | nil => exact absurd hat (by rw [hstack]; exact id)
      | cons => rfl
    refine .none ?_
    rw [(next_spec hpath).1, hcoming]
    rfl
  | cons item items ih =>
    have hcoming : iter.coming = item :: items := by
      rw [coming, hitems]
      cases hstack : iter.stack with
      | nil => exact absurd hat (by rw [hstack]; exact id)
      | cons => rfl
    obtain ⟨hnext, htree, hpath', hahead, hstack⟩ := next_spec hpath
    rw [hcoming] at hnext hahead hstack
    have hat' := (hstack.resolve_left fun hnil => absurd hnil.1 (List.cons_ne_nil _ _)).2
    exact .some hnext (ih (by rwa [htree]) hat' hahead)

theorem yields_new (tree : Node T S) : Yields (new tree) tree.elements := by
  obtain ⟨hnext, htree, hpath, hahead, hstack⟩ := @next_spec _ _ (new tree) trivial
  change (new tree).next.1 = tree.elements.head? at hnext
  change ahead (new tree).next.2.stack = tree.elements.tail at hahead
  rcases hstack with ⟨hnil, -⟩ | ⟨hne, hat⟩
  · change tree.elements = [] at hnil
    rw [hnil] at hnext ⊢
    exact .none hnext
  · obtain ⟨item, items, hitems⟩ := List.exists_cons_of_ne_nil (show tree.elements ≠ [] from hne)
    rw [hitems] at hnext hahead ⊢
    refine .some hnext ?_
    have hyields := @yields_ahead _ _ (new tree).next.2 (by rwa [htree]) hat
    rwa [hahead] at hyields

theorem after_spec (tree : Node T S) (n : Nat) :
    ((new tree).after n).tree = tree ∧ Path tree ((new tree).after n).stack ∧
      ((n % (tree.elements.length + 1) = 0 ∧ ((new tree).after n).stack = []) ∨
        (0 < n % (tree.elements.length + 1) ∧ AtItem ((new tree).after n).stack ∧
          ahead ((new tree).after n).stack = tree.elements.drop (n % (tree.elements.length + 1)))) := by
  induction n with
  | zero => exact ⟨rfl, trivial, Or.inl ⟨Nat.zero_mod _, rfl⟩⟩
  | succ n ih =>
    obtain ⟨htree, hpath, hstate⟩ := ih
    rw [show (new tree).after (n + 1) = ((new tree).after n).next.2 from rfl]
    generalize (new tree).after n = iter at htree hpath hstate
    subst htree
    obtain ⟨-, htree, hpath', hahead, hstack⟩ := next_spec hpath
    have hcoming : iter.coming = iter.tree.elements.drop (n % (iter.tree.elements.length + 1)) := by
      rcases hstate with ⟨hzero, hnil⟩ | ⟨-, hat, hdrop⟩
      · rw [coming, hnil, hzero]
        rfl
      · rw [coming, ← hdrop]
        cases hitems : iter.stack with
        | nil => exact absurd hat (by rw [hitems]; exact id)
        | cons => rfl
    have hround : (n + 1) % (iter.tree.elements.length + 1) =
        (n % (iter.tree.elements.length + 1) + 1) % (iter.tree.elements.length + 1) := (Nat.mod_add_mod n _ 1).symm
    have hlt : n % (iter.tree.elements.length + 1) < iter.tree.elements.length + 1 := Nat.mod_lt _ (Nat.succ_pos _)
    rw [hcoming] at hahead hstack
    refine ⟨htree, hpath', ?_⟩
    rw [hround]
    generalize n % (iter.tree.elements.length + 1) = returned at hahead hstack hlt
    rcases hstack with ⟨hnil, hclear⟩ | ⟨hne, hat⟩
    · have hlast : iter.tree.elements.length ≤ returned := List.drop_eq_nil_iff.mp hnil
      have hreturned : returned = iter.tree.elements.length := by omega
      exact Or.inl ⟨by rw [hreturned, Nat.mod_self], hclear⟩
    · have hmore : returned < iter.tree.elements.length := by
        by_contra hnot
        exact hne (List.drop_eq_nil_iff.mpr (by omega))
      rw [Nat.mod_eq_of_lt (by omega)]
      exact Or.inr ⟨Nat.succ_pos _, hat, by rw [hahead, List.tail_drop]⟩

end Iter

section Valid

variable [Summary S] [Item T S] {height : Nat} {tree : Node T S}

/-- What is left below the top of a stack: nothing when the top is on the way to the rightmost leaf,
    and otherwise that leaf at least. -/
theorem Path.below {entry : StackEntry T S} {stack : List (StackEntry T S)} (hvalid : tree.Valid height)
    (hpath : Path tree (entry :: stack)) :
    (∃ height, entry.tree.Valid height) ∧
      ((ahead stack = [] ∧ tree.rightmost_leaf = entry.tree.rightmost_leaf) ∨
        (ahead stack ≠ [] ∧ tree.rightmost_leaf.items.length ≤ (ahead stack).length)) := by
  induction stack generalizing entry with
  | nil =>
    obtain rfl : entry.tree = tree := hpath
    exact ⟨⟨height, hvalid⟩, Or.inl ⟨rfl, rfl⟩⟩
  | cons below stack ih =>
    obtain ⟨hchild, hpath⟩ := hpath
    obtain ⟨⟨height', hbelow⟩, hrest⟩ := ih hpath
    obtain ⟨hlt, hentry⟩ := List.getElem?_eq_some_iff.mp hchild
    have hahead : ahead (below :: stack) = below.ahead (below.index + 1) ++ ahead stack := rfl
    cases htree : below.tree with
    | Leaf =>
      rw [htree] at hlt
      exact absurd hlt (by simp [Node.child_trees])
    | Internal height summary child_summaries child_trees =>
      rw [htree] at hbelow
      cases hbelow with
      | @internal height child_trees hne _ hchildren =>
        have hat : child_trees[below.index]? = some entry.tree := by rw [htree] at hchild; exact hchild
        have hmem : entry.tree ∈ child_trees := List.mem_of_getElem? hat
        refine ⟨⟨height, hchildren _ hmem⟩, ?_⟩
        obtain ⟨init, last, rfl⟩ := (List.eq_nil_or_concat' child_trees).resolve_left hne
        have hlast := (hchildren last (by simp))
        have hbelowAhead : below.ahead (below.index + 1) = ((init ++ [last]).drop (below.index + 1)).flatMap Node.elements := by
          rw [StackEntry.ahead, htree]
          exact List.append_nil _
        have hrightmost : below.tree.rightmost_leaf = last.rightmost_leaf := by
          rw [htree]
          exact Node.rightmostOf_append _ init last
        rw [hahead, hbelowAhead]
        rcases hrest with ⟨hnil, hright⟩ | ⟨hne', hle⟩
        · rw [hnil, List.append_nil, hright, hrightmost]
          rcases Nat.lt_or_ge below.index init.length with hbefore | hafter
          · rw [List.drop_append_of_le_length hbefore, List.flatMap_append, List.flatMap_singleton]
            have hlength := hlast.rightmost_leaf.2.length_le
            refine Or.inr ⟨fun hnil => hlast.elements_ne_nil (List.append_eq_nil_iff.mp hnil).2, ?_⟩
            rw [List.length_append]
            omega
          · have hindex : below.index = init.length := by
              have hlength := (List.getElem?_eq_some_iff.mp hat).1
              rw [List.length_append, List.length_singleton] at hlength
              omega
            rw [hindex, List.getElem?_concat_length] at hat
            cases hat
            rw [hindex, List.drop_eq_nil_of_le (by simp)]
            exact Or.inl ⟨rfl, rfl⟩
        · refine Or.inr ⟨fun hnil => hne' (List.append_eq_nil_iff.mp hnil).2, ?_⟩
          rw [List.length_append]
          omega

theorem size_hint_le_iff {iter : Iter T S} (hvalid : iter.tree.Valid height) (hpath : Path iter.tree iter.stack)
    (hat : AtItem iter.stack) :
    iter.size_hint ≤ (ahead iter.stack).length ↔
      iter.tree.rightmost_leaf.items.length ≤ (ahead iter.stack).length := by
  obtain ⟨tree, stack⟩ := iter
  cases stack with
  | nil => exact absurd hat id
  | cons top stack =>
    obtain ⟨⟨height, htop⟩, hbelow⟩ := Path.below hvalid hpath
    have hindex : top.index < top.tree.items.length := hat
    obtain ⟨node, index⟩ := top
    have hhint : Iter.size_hint ⟨tree, ⟨node, index⟩ :: stack⟩ = node.child_summaries.length - index := rfl
    have hahead : ahead (⟨node, index⟩ :: stack) = StackEntry.ahead ⟨node, index⟩ (index + 1) ++ ahead stack := rfl
    cases htop with
    | internal => exact absurd hindex (by simp [Node.items])
    | @leaf items =>
      have htopAhead : StackEntry.ahead ⟨Node.Leaf (sum (items.map Item.summary)) items
          (items.map Item.summary), index⟩ (index + 1) = items.drop (index + 1) := rfl
      have hsummaries : (Node.Leaf (sum (items.map Item.summary)) items
          (items.map Item.summary)).child_summaries = items.map Item.summary := rfl
      simp only [Node.items] at hindex
      rw [hhint, hahead, htopAhead, hsummaries, List.length_map, List.length_append, List.length_drop]
      rcases hbelow with ⟨hnil, hright⟩ | ⟨hne, hle⟩
      · have hleaf : tree.rightmost_leaf.items = items := by rw [hright]; rfl
        rw [hnil, hleaf, List.length_nil]
        omega
      · have hpos := List.length_pos_of_ne_nil hne
        have htop : items.length - index = items.length - (index + 1) + 1 := by omega
        rw [htop]
        exact iff_of_true (by omega) (by omega)

end Valid

namespace SumTree

variable [Summary S] [Item T S] (tree : SumTree T S)

def iter : Iter T S := Iter.new tree.node

def rightmost_leaf : Node T S := tree.node.rightmost_leaf

theorem after_spec (n : Nat) :
    (tree.iter.after n).tree = tree.node ∧ Path tree.node (tree.iter.after n).stack ∧
      ((n % (tree.items.length + 1) = 0 ∧ (tree.iter.after n).stack = []) ∨
        (0 < n % (tree.items.length + 1) ∧ AtItem (tree.iter.after n).stack ∧
          ahead (tree.iter.after n).stack = tree.items.drop (n % (tree.items.length + 1)))) :=
  Iter.after_spec tree.node n

/-- The iterator returns the items in order, and its last item is the last of them; the lower bound
    of `size_hint` is right but for the items of the rightmost leaf. -/
theorem iter_lawful_iff (n : Nat) :
    tree.iter.Yields tree.items ∧ (tree.iter.after n).last = tree.items.getLast? ∧
      ∃ coming, (tree.iter.after n).Yields coming ∧
        ((tree.iter.after n).size_hint ≤ coming.length ↔
          n % (tree.items.length + 1) = 0 ∨
            n % (tree.items.length + 1) + tree.rightmost_leaf.items.length ≤ tree.items.length) := by
  have hyields : tree.iter.Yields tree.items := Iter.yields_new tree.node
  obtain ⟨htree, hpath, hstate⟩ := tree.after_spec n
  generalize tree.iter.after n = iter at htree hpath hstate
  obtain ⟨node, stack⟩ := iter
  obtain rfl : node = tree.node := htree
  refine ⟨hyields, ?_, ?_⟩
  · rcases tree.valid with ⟨summary, hnode⟩ | ⟨height, hvalid⟩
    · rw [items, Iter.last, hnode]
      rfl
    · exact hvalid.last
  · rcases hstate with ⟨hzero, hclear⟩ | ⟨hpos, hat, hahead⟩
    · obtain rfl : stack = [] := hclear
      refine ⟨tree.items, hyields, iff_of_true ?_ (Or.inl hzero)⟩
      rcases tree.valid with ⟨summary, hnode⟩ | ⟨height, hvalid⟩
      · rw [items, Iter.size_hint, hnode]
        exact Nat.le_refl 0
      · exact hvalid.child_summaries_le
    · refine ⟨_, Iter.yields_ahead hpath hat, ?_⟩
      rcases tree.valid with ⟨summary, hnode⟩ | ⟨height, hvalid⟩
      · have hnone : tree.items.length = 0 := by rw [items, hnode]; rfl
        rw [hnone, Nat.mod_one] at hpos
        exact absurd hpos (Nat.lt_irrefl 0)
      · rw [size_hint_le_iff hvalid hpath hat, hahead, List.length_drop]
        have hitems : 0 < tree.rightmost_leaf.items.length := List.length_pos_of_ne_nil hvalid.rightmost_leaf.1
        change tree.rightmost_leaf.items.length ≤ _ ↔ _
        omega

/-- After the one item of a tree nothing is to come, but the lower bound is still one. -/
theorem size_hint_above_last :
    ∃ tree : SumTree Unit NoSummary, tree.items = [()] ∧ (tree.iter.after 1).next.1 = none ∧
      (tree.iter.after 1).Yields [] ∧ (tree.iter.after 1).size_hint = 1 ∧
      ¬ ∀ coming, (tree.iter.after 1).Yields coming → (tree.iter.after 1).size_hint ≤ coming.length := by
  let tree : SumTree Unit NoSummary := ⟨_, Or.inr ⟨0, @Node.Valid.leaf _ _ _ _ [()] (by decide) (by decide)⟩⟩
  obtain ⟨-, hpath, hstate⟩ := tree.after_spec 1
  obtain ⟨-, hat, hahead⟩ := hstate.resolve_left fun hzero => absurd hzero.1 (by decide)
  have hyields := Iter.yields_ahead hpath hat
  rw [show ahead (tree.iter.after 1).stack = [] from hahead] at hyields
  have hhint : (tree.iter.after 1).size_hint = 1 := by
    simp [tree, Iter.after, Iter.next, iter, Iter.new, Iter.walk, StackEntry.advance, Node.child_trees, Node.items,
      Iter.size_hint, Node.child_summaries]
  refine ⟨tree, rfl, ?_, hyields, hhint, fun hle => ?_⟩
  · cases hyields with
    | none hnext => exact hnext
  · have hbound := hle [] hyields
    rw [hhint] at hbound
    exact absurd hbound (by decide)

end SumTree

end zed.sum_tree
