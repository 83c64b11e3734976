import Zed.SumTree.Tree.Build

namespace zed.sum_tree

variable {T S : Type} [Summary S]

namespace Node

def from_child_trees (left right : Node T S) : Node T S :=
  .Internal (left.height + 1) (sum [left.summary, right.summary]) [left.summary, right.summary] [left, right]

/-- What `push_tree_recursive` leaves of an internal node once it has the trees to append, and the
    node that it splits off when they do not fit. -/
def append_trees (height : Nat) (summary : S) (child_summaries : List S) (child_trees : List (Node T S))
    (summaries_to_append : List S) (trees_to_append : List (Node T S)) : Node T S × Option (Node T S) :=
  let child_count := child_trees.length + trees_to_append.length
  if child_count > 2 * TREE_BASE then
    let midpoint := (child_count + child_count % 2) / 2
    let all_summaries := child_summaries ++ summaries_to_append
    let left_summaries := all_summaries.take midpoint
    let right_summaries := all_summaries.drop midpoint
    let all_trees := child_trees ++ trees_to_append
    let left_trees := all_trees.take midpoint
    let right_trees := all_trees.drop midpoint
    (.Internal height (sum left_summaries) left_summaries left_trees,
      some (.Internal height (sum right_summaries) right_summaries right_trees))
  else (.Internal height summary (child_summaries ++ summaries_to_append) (child_trees ++ trees_to_append), none)

def push_leaf (summary : S) (items : List T) (item_summaries : List S) (other : Node T S) :
    Node T S × Option (Node T S) :=
  let child_count := items.length + other.items.length
  if child_count > 2 * TREE_BASE then
    let midpoint := (child_count + child_count % 2) / 2
    let all_items := items ++ other.items
    let all_summaries := item_summaries ++ other.child_summaries
    let left_summaries := all_summaries.take midpoint
    let right_summaries := all_summaries.drop midpoint
    (.Leaf (sum left_summaries) (all_items.take midpoint) left_summaries,
      some (.Leaf (sum right_summaries) (all_items.drop midpoint) right_summaries))
  else
    (.Leaf (Summary.add_summary summary other.summary) (items ++ other.items)
      (item_summaries ++ other.child_summaries), none)

mutual

/-- Pushes a tree that is not higher to the end of a tree. The tree that is left, and the one of the
    same height that is split off. -/
def push_tree_recursive : Node T S → Node T S → Node T S × Option (Node T S)
  | .Internal height summary child_summaries child_trees, other =>
    let summary := Summary.add_summary summary other.summary
    let height_delta := height - other.height
    if height_delta = 0 then
      append_trees height summary child_summaries child_trees other.child_summaries other.child_trees
    else if height_delta = 1 ∧ !other.is_underflowing then
      append_trees height summary child_summaries child_trees [other.summary] [other]
    else
      let (child_trees, tree_to_append) := pushToLast child_trees other
      let child_summaries := child_summaries.dropLast ++ child_trees.getLast?.toList.map Node.summary
      append_trees height summary child_summaries child_trees (tree_to_append.toList.map Node.summary)
        tree_to_append.toList
  | .Leaf summary items item_summaries, other => push_leaf summary items item_summaries other

/-- `child_trees.last_mut()` with a tree pushed to it; there is a last one. -/
def pushToLast : List (Node T S) → Node T S → List (Node T S) × Option (Node T S)
  | [], _ => ([], none)
  | [last], other =>
    let (last, split_tree) := push_tree_recursive last other
    ([last], split_tree)
  | first :: child_trees, other =>
    let (child_trees, split_tree) := pushToLast child_trees other
    (first :: child_trees, split_tree)

end

/-- Puts what a node has before the node of the same height to its right. The node that holds the
    first half when they do not fit in one, and what is left of the right one. -/
def merge_into_right : Node T S → Node T S → Option (Node T S) × Node T S
  | .Internal _ small_summary small_child_summaries small_child_trees,
      .Internal height summary child_summaries child_trees =>
    let total_child_count := child_trees.length + small_child_trees.length
    let all_trees := small_child_trees ++ child_trees
    let all_summaries := small_child_summaries ++ child_summaries
    if total_child_count ≤ 2 * TREE_BASE then
      (none, .Internal height (Summary.add_summary small_summary summary) all_summaries all_trees)
    else
      let midpoint := (total_child_count + 1) / 2
      let left_summaries := all_summaries.take midpoint
      (some (.Internal height (sum left_summaries) left_summaries (all_trees.take midpoint)),
        .Internal height (sum (all_summaries.drop midpoint)) (all_summaries.drop midpoint) (all_trees.drop midpoint))
  | .Leaf small_summary small_items small_item_summaries, .Leaf summary items item_summaries =>
    let total_child_count := small_items.length + items.length
    let all_items := small_items ++ items
    let all_summaries := small_item_summaries ++ item_summaries
    if total_child_count ≤ 2 * TREE_BASE then
      (none, .Leaf (Summary.add_summary small_summary summary) all_items all_summaries)
    else
      let midpoint := (total_child_count + 1) / 2
      let left_summaries := all_summaries.take midpoint
      (some (.Leaf (sum left_summaries) (all_items.take midpoint) left_summaries),
        .Leaf (sum (all_summaries.drop midpoint)) (all_items.drop midpoint) (all_summaries.drop midpoint))
  -- nodes of one height are of one kind
  | _, large => (none, large)

mutual

/-- Puts a tree before one that is not lower. The tree that goes to the left of it when they do not
    fit in one, and what is left of the right one. -/
def append_large (small : Node T S) : Node T S → Option (Node T S) × Node T S
  | .Internal height summary child_summaries child_trees =>
    if small.height = height then
      if !small.is_underflowing then (some small, .Internal height summary child_summaries child_trees)
      else merge_into_right small (.Internal height summary child_summaries child_trees)
    else
      let full_summary := Summary.add_summary small.summary summary
      let (res, child_trees) := appendToFirst small child_trees
      let child_summaries := child_trees.head?.toList.map Node.summary ++ child_summaries.tail
      match res with
      | some tree =>
        if child_trees.length < 2 * TREE_BASE then
          (none, .Internal height full_summary (tree.summary :: child_summaries) (tree :: child_trees))
        else
          let new_child_summaries := tree.summary :: child_summaries.take TREE_BASE
          (some (.Internal height (sum new_child_summaries) new_child_summaries (tree :: child_trees.take TREE_BASE)),
            .Internal height (sum (child_summaries.drop TREE_BASE)) (child_summaries.drop TREE_BASE)
              (child_trees.drop TREE_BASE))
      | none => (none, .Internal height full_summary child_summaries child_trees)
  | .Leaf summary items item_summaries =>
    -- a leaf is not higher than another tree
    if !small.is_underflowing then (some small, .Leaf summary items item_summaries)
    else merge_into_right small (.Leaf summary items item_summaries)

/-- `child_trees.first_mut()` with a tree put before it; there is a first one. -/
def appendToFirst (small : Node T S) : List (Node T S) → Option (Node T S) × List (Node T S)
  | [] => (none, [])
  | first :: child_trees =>
    let (res, first) := append_large small first
    (res, first :: child_trees)

end

def append (tree other : Node T S) : Node T S :=
  if tree.is_empty then other
  else if !other.is_leaf || !other.items.isEmpty then
    if tree.height < other.height then
      match append_large tree other with
      | (some left, other) => from_child_trees left other
      | (none, other) => other
    else
      match push_tree_recursive tree other with
      | (tree, some split_tree) => from_child_trees tree split_tree
      | (tree, none) => tree
  else tree

end Node

section SummaryMonoid

variable {T S : Type} [SummaryMonoid S] [Item T S]

omit [Item T S] in
theorem foldl_add_summary (summary : S) {summaries : List S} (hne : summaries ≠ []) :
    summaries.foldl Summary.add_summary summary = Summary.add_summary summary (sum summaries) := by
  induction summaries generalizing summary with
  | nil => exact absurd rfl hne
  | cons first rest ih =>
    rw [sum, List.foldl_cons, List.foldl_cons, SummaryMonoid.zero_add_summary]
    rcases eq_or_ne rest [] with rfl | hrest
    · rfl
    · rw [ih _ hrest, ih first hrest, SummaryMonoid.add_summary_assoc]

omit [Item T S] in
/-- The right summand has to be there: a zero after another summary may change it. -/
theorem sum_append (left : List S) {right : List S} (hne : right ≠ []) :
    sum (left ++ right) = Summary.add_summary (sum left) (sum right) := by
  rw [sum, List.foldl_append, foldl_add_summary _ hne]
  rfl

namespace Node

def itemsSum (items : List T) : S := sum (items.map Item.summary)

theorem itemsSum_append (left : List T) {right : List T} (hne : right ≠ []) :
    itemsSum (left ++ right) = Summary.add_summary (itemsSum left) (itemsSum right) := by
  rw [itemsSum, List.map_append, sum_append _ (by simpa using hne)]
  rfl

theorem Valid.height_eq {height : Nat} {node : Node T S} (h : Valid height node) : node.height = height := by
  cases h <;> rfl

theorem flatMap_elements_ne_nil {height : Nat} {nodes : List (Node T S)} (hne : nodes ≠ [])
    (hvalid : ∀ node ∈ nodes, Valid height node) : nodes.flatMap elements ≠ [] := by
  obtain ⟨node, rest, rfl⟩ := List.exists_cons_of_ne_nil hne
  intro hnil
  exact (hvalid node List.mem_cons_self).elements_ne_nil (List.append_eq_nil_iff.mp hnil).1

theorem sum_summaries {height : Nat} {nodes : List (Node T S)} (hvalid : ∀ node ∈ nodes, Valid height node)
    (hsummary : ∀ node ∈ nodes, node.summary = itemsSum node.elements) :
    sum (nodes.map summary) = itemsSum (nodes.flatMap elements) := by
  induction nodes with
  | nil => rfl
  | cons node rest ih =>
    have hnode := hsummary node List.mem_cons_self
    rcases eq_or_ne rest [] with rfl | hne
    · rw [List.flatMap_singleton, ← hnode]
      exact SummaryMonoid.zero_add_summary _
    · have hrest := flatMap_elements_ne_nil hne fun other hother => hvalid other (List.mem_cons_of_mem _ hother)
      rw [List.flatMap_cons, itemsSum_append _ hrest, List.map_cons, ← List.singleton_append,
        sum_append _ (by simpa using hne), ih (fun other hother => hvalid other (List.mem_cons_of_mem _ hother))
          fun other hother => hsummary other (List.mem_cons_of_mem _ hother), ← hnode]
      exact congrArg (Summary.add_summary · _) (SummaryMonoid.zero_add_summary _)

theorem Valid.summary_eq {height : Nat} {node : Node T S} (h : Valid height node) :
    node.summary = itemsSum node.elements := by
  induction h with
  | leaf => rfl
  | internal _ _ hchildren ih =>
    rw [elements_internal]
    exact sum_summaries hchildren ih

theorem Valid.of_trees {height : Nat} {summary : S} {child_summaries : List S} {child_trees : List (Node T S)}
    (hne : child_trees ≠ []) (hlength : child_trees.length ≤ 2 * TREE_BASE)
    (hchildren : ∀ child ∈ child_trees, Valid height child) (hsummaries : child_summaries = child_trees.map Node.summary)
    (hsummary : summary = itemsSum (child_trees.flatMap elements)) :
    Valid (height + 1) (.Internal (height + 1) summary child_summaries child_trees) := by
  rw [hsummary, hsummaries, ← sum_summaries hchildren fun child hchild => (hchildren child hchild).summary_eq]
  exact .internal hne hlength hchildren

def Holds (height : Nat) (nodes : List (Node T S)) (items : List T) : Prop :=
  (∀ node ∈ nodes, Valid height node) ∧ nodes.flatMap elements = items

theorem Holds.singleton {height : Nat} {node : Node T S} (h : Valid height node) : Holds height [node] node.elements :=
  ⟨fun other hother => by rwa [List.mem_singleton.mp hother], List.flatMap_singleton ..⟩

theorem Holds.append {height : Nat} {left right : List (Node T S)} {items others : List T}
    (hleft : Holds height left items) (hright : Holds height right others) :
    Holds height (left ++ right) (items ++ others) := by
  refine ⟨fun node hnode => ?_, by rw [List.flatMap_append, hleft.2, hright.2]⟩
  exact (List.mem_append.mp hnode).elim (hleft.1 node) (hright.1 node)

/-- A node of some children, and one that is split in two. -/
theorem Holds.one {height : Nat} {summary : S} {child_summaries : List S} {child_trees : List (Node T S)}
    {items : List T} (h : Holds height child_trees items) (hne : child_trees ≠ [])
    (hlength : child_trees.length ≤ 2 * TREE_BASE) (hsummaries : child_summaries = child_trees.map Node.summary)
    (hsummary : summary = itemsSum items) :
    Holds (height + 1) [.Internal (height + 1) summary child_summaries child_trees] items := by
  have hvalid := Valid.of_trees hne hlength h.1 hsummaries (hsummary.trans (by rw [h.2]))
  have hsingle := Holds.singleton hvalid
  rwa [elements_internal, h.2] at hsingle

theorem Holds.split {height midpoint : Nat} {child_summaries : List S} {child_trees : List (Node T S)} {items : List T}
    (h : Holds height child_trees items) (hpos : 0 < midpoint) (hlt : midpoint < child_trees.length)
    (hleft : midpoint ≤ 2 * TREE_BASE) (hright : child_trees.length - midpoint ≤ 2 * TREE_BASE)
    (hsummaries : child_summaries = child_trees.map Node.summary) :
    Holds (height + 1)
      [.Internal (height + 1) (sum (child_summaries.take midpoint)) (child_summaries.take midpoint)
          (child_trees.take midpoint),
        .Internal (height + 1) (sum (child_summaries.drop midpoint)) (child_summaries.drop midpoint)
          (child_trees.drop midpoint)] items := by
  subst hsummaries
  rw [← List.map_take, ← List.map_drop]
  have hchildren : ∀ children : List (Node T S), children ⊆ child_trees → children ≠ [] →
      children.length ≤ 2 * TREE_BASE →
      Holds (height + 1) [.Internal (height + 1) (sum (children.map Node.summary)) (children.map Node.summary) children]
        (children.flatMap elements) := by
    intro children hsubset hne hlength
    have hvalid : ∀ child ∈ children, Valid height child := fun child hchild => h.1 child (hsubset hchild)
    exact Holds.one ⟨hvalid, rfl⟩ hne hlength rfl
      (sum_summaries hvalid fun child hchild => (hvalid child hchild).summary_eq)
  have hfirst := hchildren (child_trees.take midpoint) (List.take_subset _ _)
    (List.ne_nil_of_length_pos (by rw [List.length_take]; omega)) (by rw [List.length_take]; omega)
  have hsecond := hchildren (child_trees.drop midpoint) (List.drop_subset _ _)
    (List.ne_nil_of_length_pos (by rw [List.length_drop]; omega)) (by rw [List.length_drop]; omega)
  have hboth := hfirst.append hsecond
  rwa [← List.flatMap_append, List.take_append_drop, h.2] at hboth

theorem Holds.leaf {items : List T} {summary : S} {item_summaries : List S} (hne : items ≠ [])
    (hlength : items.length ≤ 2 * TREE_BASE) (hsummaries : item_summaries = items.map Item.summary)
    (hsummary : summary = itemsSum items) : Holds 0 [.Leaf summary items item_summaries] items := by
  subst hsummaries hsummary
  exact Holds.singleton (Valid.leaf hne hlength)

theorem Holds.split_leaf {midpoint : Nat} {items : List T} {item_summaries : List S} (hpos : 0 < midpoint)
    (hlt : midpoint < items.length) (hleft : midpoint ≤ 2 * TREE_BASE) (hright : items.length - midpoint ≤ 2 * TREE_BASE)
    (hsummaries : item_summaries = items.map Item.summary) :
    Holds 0
      [.Leaf (sum (item_summaries.take midpoint)) (items.take midpoint) (item_summaries.take midpoint),
        .Leaf (sum (item_summaries.drop midpoint)) (items.drop midpoint) (item_summaries.drop midpoint)] items := by
  subst hsummaries
  rw [← List.map_take, ← List.map_drop]
  have hfirst : Holds 0 [.Leaf (sum ((items.take midpoint).map Item.summary)) (items.take midpoint)
      ((items.take midpoint).map Item.summary)] (items.take midpoint) :=
    Holds.leaf (List.ne_nil_of_length_pos (by rw [List.length_take]; omega)) (by rw [List.length_take]; omega) rfl rfl
  have hsecond : Holds 0 [.Leaf (sum ((items.drop midpoint).map Item.summary)) (items.drop midpoint)
      ((items.drop midpoint).map Item.summary)] (items.drop midpoint) :=
    Holds.leaf (List.ne_nil_of_length_pos (by rw [List.length_drop]; omega)) (by rw [List.length_drop]; omega) rfl rfl
  have hboth := hfirst.append hsecond
  rwa [List.take_append_drop] at hboth

theorem append_trees_spec {height : Nat} {summary : S} {child_summaries summaries_to_append : List S}
    {child_trees trees_to_append : List (Node T S)} {items : List T}
    (hchildren : Holds height (child_trees ++ trees_to_append) items) (hne : child_trees ≠ [])
    (hlength : child_trees.length ≤ 2 * TREE_BASE) (happend : trees_to_append.length ≤ 2 * TREE_BASE)
    (hsummaries : child_summaries ++ summaries_to_append = (child_trees ++ trees_to_append).map Node.summary)
    (hsummary : summary = itemsSum items)
    {result : Node T S × Option (Node T S)}
    (h : append_trees (height + 1) summary child_summaries child_trees summaries_to_append trees_to_append = result) :
    Holds (height + 1) (result.1 :: result.2.toList) items := by
  have hpos := List.length_pos_of_ne_nil hne
  have hcount : (child_trees ++ trees_to_append).length = child_trees.length + trees_to_append.length :=
    List.length_append
  subst h
  unfold append_trees
  simp only
  split
  · exact hchildren.split (by omega) (by omega) (by omega) (by omega) hsummaries
  · exact hchildren.one (by simp [hne]) (by omega) hsummaries hsummary

theorem push_leaf_spec {items : List T} {other : Node T S} (hne : items ≠ []) (hlength : items.length ≤ 2 * TREE_BASE)
    (hother : Valid 0 other) {result : Node T S × Option (Node T S)}
    (h : push_leaf (sum (items.map Item.summary)) items (items.map Item.summary) other = result) :
    Holds 0 (result.1 :: result.2.toList) (items ++ other.elements) := by
  cases hother with
  | @leaf others hneOther hlengthOther =>
    have hpos := List.length_pos_of_ne_nil hne
    have hcount : (items ++ others).length = items.length + others.length := List.length_append
    subst h
    unfold push_leaf
    rw [elements_leaf]
    simp only
    split
    · rename_i hmore
      change items.length + others.length > 2 * TREE_BASE at hmore
      exact Holds.split_leaf (by simp only [Node.items]; omega) (by simp only [Node.items]; omega)
        (by simp only [Node.items]; omega) (by simp only [Node.items]; omega) List.map_append.symm
    · rename_i hroom
      change ¬ items.length + others.length > 2 * TREE_BASE at hroom
      exact Holds.leaf (by simp [Node.items, hne]) (by simp only [Node.items]; omega) List.map_append.symm
        (itemsSum_append items hneOther).symm

omit [Item T S] in
theorem pushToLast_append (init : List (Node T S)) (last other : Node T S) :
    pushToLast (init ++ [last]) other =
      (init ++ [(push_tree_recursive last other).1], (push_tree_recursive last other).2) := by
  induction init with
  | nil => rfl
  | cons first init ih =>
    obtain ⟨next, rest, hrest⟩ := List.exists_cons_of_ne_nil (show init ++ [last] ≠ [] by simp)
    rw [List.cons_append, hrest, pushToLast, ← hrest, ih]
    · rfl
    · simp

theorem push_tree_recursive_spec {height height' : Nat} {tree other : Node T S} (htree : Valid height tree)
    (hother : Valid height' other) (hle : height' ≤ height) :
    Holds height ((push_tree_recursive tree other).1 :: (push_tree_recursive tree other).2.toList)
      (tree.elements ++ other.elements) := by
  induction htree with
  | leaf hne hlength =>
    obtain rfl : height' = 0 := Nat.le_zero.mp hle
    exact push_leaf_spec hne hlength hother rfl
  | @internal height child_trees hne hlength hchildren ih =>
    have hheight := hother.height_eq
    have hself := (Valid.internal hne hlength hchildren).summary_eq
    rw [elements_internal] at hself
    have hsummary : Summary.add_summary (sum (child_trees.map Node.summary)) other.summary =
        itemsSum (child_trees.flatMap elements ++ other.elements) := by
      rw [itemsSum_append _ hother.elements_ne_nil, ← hother.summary_eq, ← hself]
      rfl
    rw [push_tree_recursive, elements_internal]
    simp only [hheight]
    split
    · -- the children of a tree of the same height go next to its own
      rename_i hdelta
      obtain rfl : height' = height + 1 := by omega
      cases hother with
      | @internal _ others hneOther hlengthOther hothers =>
        refine append_trees_spec ?_ hne hlength hlengthOther List.map_append.symm hsummary rfl
        rw [elements_internal]
        exact Holds.append ⟨hchildren, rfl⟩ ⟨hothers, rfl⟩
    · split
      · rename_i hdelta hfits
        obtain rfl : height' = height := by omega
        refine append_trees_spec ?_ hne hlength (by simp [TREE_BASE]) (by simp) hsummary rfl
        exact Holds.append ⟨hchildren, rfl⟩ (Holds.singleton hother)
      · rename_i hdelta hdown
        obtain ⟨init, last, rfl⟩ := (List.eq_nil_or_concat' child_trees).resolve_left hne
        have hlast := ih last (by simp) (by omega)
        rw [pushToLast_append]
        generalize push_tree_recursive last other = pushed at hlast ⊢
        obtain ⟨left, split_tree⟩ := pushed
        have hheld : Holds height ((init ++ [left]) ++ split_tree.toList)
            ((init ++ [last]).flatMap elements ++ other.elements) := by
          have hinit : Holds height init (init.flatMap elements) :=
            ⟨fun node hnode => hchildren node (by simp [hnode]), rfl⟩
          have hall := hinit.append hlast
          rwa [List.flatMap_append, List.flatMap_singleton, List.append_assoc, List.append_assoc]
        refine append_trees_spec hheld (by simp) ?_ ?_ ?_ hsummary rfl
        · rw [List.length_append, List.length_singleton] at hlength ⊢
          exact hlength
        · exact (Option.length_toList_le).trans (by decide)
        · simp

/-- A merge keeps what the two nodes hold, in order. -/
theorem merge_into_right_spec {height : Nat} {small large : Node T S} (hsmall : Valid height small)
    (hlarge : Valid height large) :
    Holds height ((merge_into_right small large).1.toList ++ [(merge_into_right small large).2])
      (small.elements ++ large.elements) := by
  cases hsmall with
  | @leaf smalls hneSmall hlengthSmall =>
    cases hlarge with
    | @leaf items hne hlength =>
      have hpos := List.length_pos_of_ne_nil hneSmall
      have hposLarge := List.length_pos_of_ne_nil hne
      have hcount : (smalls ++ items).length = smalls.length + items.length := List.length_append
      rw [merge_into_right]
      simp only
      split
      · exact Holds.leaf (by simp [hne]) (by omega) List.map_append.symm
          (itemsSum_append smalls hne).symm
      · exact Holds.split_leaf (by omega) (by omega) (by omega) (by omega) List.map_append.symm
  | @internal height smalls hneSmall hlengthSmall hsmalls =>
    cases hlarge with
    | @internal _ child_trees hne hlength hchildren =>
      have hpos := List.length_pos_of_ne_nil hneSmall
      have hposLarge := List.length_pos_of_ne_nil hne
      have hcount : (smalls ++ child_trees).length = smalls.length + child_trees.length := List.length_append
      have hheld : Holds height (smalls ++ child_trees) (smalls.flatMap elements ++ child_trees.flatMap elements) :=
        Holds.append ⟨hsmalls, rfl⟩ ⟨hchildren, rfl⟩
      rw [merge_into_right, elements_internal, elements_internal]
      simp only
      split
      · refine hheld.one (by simp [hne]) (by omega) List.map_append.symm ?_
        rw [itemsSum_append _ (flatMap_elements_ne_nil hne hchildren)]
        have hsmallSum := (Valid.internal hneSmall hlengthSmall hsmalls).summary_eq
        have hlargeSum := (Valid.internal hne hlength hchildren).summary_eq
        rw [elements_internal] at hsmallSum hlargeSum
        rw [← hsmallSum, ← hlargeSum]
        rfl
      · exact hheld.split (by omega) (by omega) (by omega) (by omega) List.map_append.symm

/-- A tree put before another one goes before what it holds. -/
theorem append_large_spec {height height' : Nat} {small large : Node T S} (hsmall : Valid height' small)
    (hlarge : Valid height large) (hle : height' ≤ height) :
    Holds height ((append_large small large).1.toList ++ [(append_large small large).2])
      (small.elements ++ large.elements) := by
  induction hlarge with
  | leaf hne hlength =>
    obtain rfl : height' = 0 := Nat.le_zero.mp hle
    have hleaf := Valid.leaf hne hlength
    rw [append_large]
    split
    · exact Holds.append (Holds.singleton hsmall) (Holds.singleton hleaf)
    · exact merge_into_right_spec hsmall hleaf
  | @internal height child_trees hne hlength hchildren ih =>
    have hnode := Valid.internal hne hlength hchildren
    rw [append_large, hsmall.height_eq]
    split
    · rename_i hheight
      subst hheight
      split
      · exact Holds.append (Holds.singleton hsmall) (Holds.singleton hnode)
      · exact merge_into_right_spec hsmall hnode
    · rename_i hheight
      obtain ⟨first, rest, rfl⟩ := List.exists_cons_of_ne_nil hne
      have hfirst := ih first List.mem_cons_self (by omega)
      have hself := hnode.summary_eq
      rw [elements_internal] at hself ⊢
      have hsummary : Summary.add_summary small.summary (sum ((first :: rest).map Node.summary)) =
          itemsSum (small.elements ++ (first :: rest).flatMap elements) := by
        rw [itemsSum_append _ (flatMap_elements_ne_nil hne hchildren), ← hsmall.summary_eq, ← hself]
        rfl
      rw [appendToFirst]
      generalize append_large small first = appended at hfirst ⊢
      obtain ⟨res, first'⟩ := appended
      have hrest : Holds height rest (rest.flatMap elements) :=
        ⟨fun node hnode => hchildren node (List.mem_cons_of_mem _ hnode), rfl⟩
      have hheld := hfirst.append hrest
      rw [List.append_assoc, List.append_assoc, ← List.flatMap_cons] at hheld
      rw [List.length_cons] at hlength
      cases res with
      | none => exact hheld.one (by simp) (by simpa using hlength) (by simp) hsummary
      | some tree =>
        simp only
        split
        · rename_i hroom
          exact hheld.one (by simp) (by simpa using hroom) (by simp) hsummary
        · rename_i hfull
          rw [List.length_cons] at hfull
          have hsplit := hheld.split (show 0 < TREE_BASE + 1 from Nat.succ_pos _)
            (by simp [TREE_BASE] at *; omega) (by simp [TREE_BASE]) (by simp [TREE_BASE] at *; omega) rfl
          simpa using hsplit

theorem from_child_trees_spec {height : Nat} {left right : Node T S} {items : List T}
    (h : Holds height [left, right] items) : Holds (height + 1) [from_child_trees left right] items := by
  have hheight := (h.1 left List.mem_cons_self).height_eq
  rw [from_child_trees, hheight]
  refine h.one (by simp) (by simp [TREE_BASE]) rfl ?_
  rw [← h.2]
  exact sum_summaries h.1 fun node hnode => (h.1 node hnode).summary_eq

theorem append_valid {height height' : Nat} {tree other : Node T S} (htree : Valid height tree)
    (hother : Valid height' other) :
    ∃ height, Holds height [append tree other] (tree.elements ++ other.elements) := by
  have hfull : tree.is_empty = false := by
    cases htree with
    | leaf hne => simpa [is_empty] using hne
    | internal => rfl
  have hthere : (!other.is_leaf || !other.items.isEmpty) = true := by
    cases hother with
    | leaf hne => simpa [is_leaf, Node.items] using hne
    | internal => rfl
  rw [append, if_neg (by simp [hfull]), if_pos hthere, htree.height_eq, hother.height_eq]
  split
  · have hlarge := append_large_spec htree hother (by omega)
    generalize append_large tree other = appended at hlarge ⊢
    obtain ⟨_ | left, other⟩ := appended
    · exact ⟨_, hlarge⟩
    · exact ⟨_, from_child_trees_spec hlarge⟩
  · have hpush := push_tree_recursive_spec htree hother (by omega)
    generalize push_tree_recursive tree other = pushed at hpush ⊢
    obtain ⟨tree, _ | split_tree⟩ := pushed
    · exact ⟨_, hpush⟩
    · exact ⟨_, from_child_trees_spec hpush⟩

end Node

namespace SumTree

variable (tree other : SumTree T S)

theorem append_spec :
    (tree.node.append other.node).elements = tree.node.elements ++ other.node.elements ∧
      ((∃ summary, tree.node.append other.node = .Leaf summary [] []) ∨
        ∃ height, (tree.node.append other.node).Valid height) := by
  rcases tree.valid with ⟨summary, hnode⟩ | ⟨height, hvalid⟩
  · have hother : tree.node.append other.node = other.node := by
      rw [Node.append, hnode]
      rfl
    rw [hother, hnode]
    exact ⟨rfl, other.valid⟩
  · rcases other.valid with ⟨summary, hnode⟩ | ⟨height', hother⟩
    · have hself : tree.node.append other.node = tree.node := by
        rw [Node.append, hnode]
        generalize tree.node = node at hvalid ⊢
        cases hvalid with
        | leaf hne => simp [Node.is_empty, hne, Node.is_leaf, Node.items]
        | internal => rfl
      rw [hself, hnode]
      exact ⟨(List.append_nil _).symm, tree.valid⟩
    · obtain ⟨height, hheld, helements⟩ := Node.append_valid hvalid hother
      rw [List.flatMap_singleton] at helements
      exact ⟨helements, Or.inr ⟨height, hheld _ List.mem_cons_self⟩⟩

def append : SumTree T S := ⟨tree.node.append other.node, (append_spec tree other).2⟩

@[simp] theorem append_items : (tree.append other).items = tree.items ++ other.items := (append_spec tree other).1

theorem summary_eq (h : tree.is_empty → tree.summary = Summary.zero) : tree.summary = Node.itemsSum tree.items := by
  rcases tree.valid with ⟨summary, hnode⟩ | ⟨height, hvalid⟩
  · have hzero := h (by rw [is_empty, hnode]; rfl)
    rw [hzero, items, hnode]
    rfl
  · exact hvalid.summary_eq

theorem is_empty_iff : tree.is_empty ↔ tree.items = [] := by
  rcases tree.valid with ⟨summary, hnode⟩ | ⟨height, hvalid⟩
  · rw [is_empty, items, hnode]
    exact iff_of_true rfl rfl
  · refine iff_of_false ?_ hvalid.elements_ne_nil
    rw [is_empty]
    generalize tree.node = node at hvalid ⊢
    cases hvalid with
    | leaf hne => simpa [Node.is_empty] using hne
    | internal => simp [Node.is_empty]

end SumTree

end SummaryMonoid

end zed.sum_tree
