import Zed.SumTree.Tree.Located

namespace zed.sum_tree

variable {T S : Type}

/-- What a walk back still has to go through: with the current child of the top when it has just come
    down to its node. -/
def walkBack (descending : Bool) : List (StackEntry T S) → List T
  | [] => []
  | entry :: stack => passedBy stack ++ entry.before (entry.index + if descending then 1 else 0)

namespace Node.Cursor

variable [Summary S] [Item T S] {len : S → Nat} {filter_node : S → Bool}

theorem rdropWhile_append_of_pos {α : Type} {p : α → Bool} {xs ys : List α} (h : ∀ y ∈ ys, p y = true) :
    (xs ++ ys).rdropWhile p = xs.rdropWhile p := by
  rw [List.rdropWhile, List.reverse_append, List.dropWhile_append_of_pos fun y hy => h y (List.mem_reverse.mp hy)]
  rfl

/-- The children before an index measure the items before it. -/
theorem before_len (hlen : Additive len) {entry : StackEntry T S} {height : Nat} (hvalid : entry.tree.Valid height)
    (index : Nat) :
    ((entry.tree.child_summaries.take index).map len).sum = ((entry.before index).map (itemLen len)).sum := by
  obtain ⟨tree, at'⟩ := entry
  cases hvalid with
  | @leaf items =>
    simp only [StackEntry.before, Node.child_trees, Node.items, Node.child_summaries, List.take_nil, List.flatMap_nil,
      List.nil_append, ← List.map_take, List.map_map]
    rfl
  | @internal height child_trees _ _ hchildren =>
    simp only [StackEntry.before, Node.child_trees, Node.items, Node.child_summaries, List.take_nil, List.append_nil,
      ← List.map_take, List.map_map]
    have hmem : ∀ child ∈ child_trees.take index, child.Valid height :=
      fun child hchild => hchildren child (List.mem_of_mem_take hchild)
    generalize child_trees.take index = taken at hmem
    induction taken with
    | nil => rfl
    | cons child taken ih =>
      rw [List.map_cons, List.sum_cons, List.flatMap_cons, List.map_append, List.sum_append,
        ih fun other hother => hmem other (List.mem_cons_of_mem _ hother),
        ← (hmem child List.mem_cons_self).summary_len hlen]
      rfl

/-- The current child of a node, by what the filter says about its summary. -/
theorem before_step (hfilter : LetsThrough filter_node) {entry : StackEntry T S} {height : Nat}
    (hvalid : entry.tree.Valid height) {index : Nat} (hindex : index < entry.tree.child_summaries.length) :
    ∃ items, entry.before (index + 1) = entry.before index ++ items ∧
      (entry.tree.child_summaries[index]?.map filter_node).getD false = items.any (itemThrough filter_node) := by
  obtain ⟨tree, at'⟩ := entry
  cases hvalid with
  | @leaf items =>
    simp only [Node.child_summaries, List.length_map] at hindex
    refine ⟨[items[index]], ?_, ?_⟩
    · simp only [StackEntry.before, Node.child_trees, Node.items, List.take_nil, List.flatMap_nil, List.nil_append]
      rw [List.take_add_one, List.getElem?_eq_getElem hindex]
      rfl
    · simp only [Node.child_summaries, List.getElem?_map, List.getElem?_eq_getElem hindex]
      simp [itemThrough]
  | @internal height child_trees _ _ hchildren =>
    simp only [Node.child_summaries, List.length_map] at hindex
    refine ⟨child_trees[index].elements, StackEntry.before_child (List.getElem?_eq_getElem hindex), ?_⟩
    rw [← (hchildren _ (List.getElem_mem hindex)).summary_through hfilter]
    simp only [Node.child_summaries, List.getElem?_map, List.getElem?_eq_getElem hindex]
    rfl

omit [Summary S] in
theorem Placed.start {stack : List (CursorEntry T S)} (h : Placed len stack) :
    (stack.head?.map CursorEntry.position).getD 0 = ((passedBy (toStack stack)).map (itemLen len)).sum := by
  cases stack with
  | nil => rfl
  | cons => exact h.1

theorem child_summaries_length_of_valid {node : Node T S} {height : Nat} (hvalid : node.Valid height) {index : Nat}
    {child : Node T S} (hchild : node.child_trees[index]? = some child) : index < node.child_summaries.length := by
  cases hvalid with
  | leaf => cases hchild
  | internal =>
    rw [Node.child_summaries, List.length_map]
    exact (List.getElem?_eq_some_iff.mp hchild).1

theorem below_index {root : Node T S} {height : Nat} (hvalid : root.Valid height) {entry : CursorEntry T S}
    {stack : List (CursorEntry T S)} (hpath : Path root (toStack (entry :: stack))) :
    ∀ below ∈ stack.head?, below.index ≤ below.tree.child_summaries.length := by
  cases stack with
  | nil => exact fun below hbelow => absurd hbelow (Option.not_mem_none _)
  | cons below stack =>
    rintro _ ⟨⟩
    obtain ⟨height', hbelow⟩ := path_valid hvalid hpath.2
    exact (child_summaries_length_of_valid hbelow hpath.1).le

theorem before_all {node : Node T S} {height : Nat} (hvalid : node.Valid height) (index : Nat) :
    (⟨node, index⟩ : StackEntry T S).before node.child_summaries.length = node.elements := by
  cases hvalid <;> simp [StackEntry.before, Node.child_trees, Node.items, Node.child_summaries]

theorem child_summaries_pos {node : Node T S} {height : Nat} (hvalid : node.Valid height) :
    0 < node.child_summaries.length := by
  cases hvalid with
  | leaf hne => simpa [Node.child_summaries, List.length_pos_iff] using hne
  | internal hne => simpa [Node.child_summaries, List.length_pos_iff] using hne

/-- The item that a walk back stops at. -/
theorem before_item (hfilter : LetsThrough filter_node) {entry : StackEntry T S} {height : Nat}
    (hvalid : entry.tree.Valid height) {index : Nat} (hsubtree : entry.tree.child_trees[index]? = none)
    (hthrough : (entry.tree.child_summaries[index]?.map filter_node).getD false = true) :
    ∃ item, entry.before (index + 1) = entry.before index ++ [item] ∧ itemThrough filter_node item = true ∧
      index < entry.tree.items.length := by
  have hlt : index < entry.tree.child_summaries.length := by
    by_contra hge
    rw [List.getElem?_eq_none (Nat.not_lt.mp hge)] at hthrough
    cases hthrough
  obtain ⟨items, hbefore, hany⟩ := before_step hfilter hvalid hlt
  obtain ⟨tree, at'⟩ := entry
  cases hvalid with
  | @leaf items' =>
    simp only [Node.child_summaries, List.length_map] at hlt
    have hone : items = [items'[index]] := by
      simp only [StackEntry.before, Node.child_trees, Node.items, List.take_nil, List.flatMap_nil, List.nil_append]
        at hbefore
      rw [List.take_add_one, List.getElem?_eq_getElem hlt] at hbefore
      exact (List.append_cancel_left hbefore).symm
    rw [hany, hone] at hthrough
    rw [hone] at hbefore
    exact ⟨items'[index], hbefore, by simpa using hthrough, hlt⟩
  | internal =>
    simp only [Node.child_summaries, List.length_map] at hlt
    exact absurd (List.getElem?_eq_none_iff.mp hsubtree) (Nat.not_le.mpr hlt)

theorem back_index {descending : Bool} {index : Nat} (h : ¬ (!descending && index == 0) = true) :
    (if descending then index else index - 1) + 1 = index + if descending then 1 else 0 := by
  cases descending <;> simp at h ⊢
  omega

theorem back_position (hlen : Additive len) {entry : CursorEntry T S} {stack : List (CursorEntry T S)} {height : Nat}
    (hvalid : entry.tree.Valid height) (hplaced : Placed len stack) (index : Nat) :
    (stack.head?.map CursorEntry.position).getD 0 + ((entry.tree.child_summaries.take index).map len).sum =
      ((passedBy ({ entry.toStackEntry with index } :: toStack stack)).map (itemLen len)).sum := by
  have hpassed : passedBy ({ entry.toStackEntry with index } :: toStack stack) =
      passedBy (toStack stack) ++ entry.before index := rfl
  rw [hpassed, List.map_append, List.sum_append, hplaced.start, before_len hlen hvalid]

/-- The loop of `search_backward` stops at the last item behind that is let through. -/
theorem backward_spec {root : Node T S} {height : Nat} (hlen : Additive len) (hfilter : LetsThrough filter_node)
    (hvalid : root.Valid height) (descending : Bool) (position : Nat) (stack : List (CursorEntry T S))
    (hpath : Path root (toStack stack)) (hplaced : Placed len stack.tail)
    (hindex : ∀ top ∈ stack.head?, top.index + (if descending then 1 else 0) ≤ top.tree.child_summaries.length)
    (hnil : stack = [] → position = 0) :
    Path root (toStack (backward len filter_node descending position stack).2) ∧
      Placed len (backward len filter_node descending position stack).2.tail ∧
      walkBack true (toStack (backward len filter_node descending position stack).2) =
        (walkBack descending (toStack stack)).rdropWhile (!itemThrough filter_node ·) ∧
      ((backward len filter_node descending position stack).2 = [] ∨
        AtItem (toStack (backward len filter_node descending position stack).2)) ∧
      (backward len filter_node descending position stack).1 =
        ((passedBy (toStack (backward len filter_node descending position stack).2)).map (itemLen len)).sum := by
  fun_induction backward len filter_node descending position stack with
  | case1 descending position => exact ⟨trivial, trivial, rfl, Or.inl rfl, hnil rfl⟩
  | case2 descending position entry stack start hzero ih =>
    rw [Bool.and_eq_true, Bool.not_eq_true', beq_iff_eq] at hzero
    obtain ⟨rfl, hindexZero⟩ := hzero
    have hwalk : walkBack false (toStack (entry :: stack)) = walkBack false (toStack stack) := by
      change passedBy (toStack stack) ++ entry.before (entry.index + 0) = _
      have hnone : entry.before (entry.index + 0) = [] := by
        rw [hindexZero]
        rfl
      rw [hnone, List.append_nil]
      cases stack <;> rfl
    rw [hwalk]
    refine ih hpath.of_cons hplaced.tail (below_index hvalid hpath) ?_
    rintro rfl
    rfl
  | case3 descending position entry stack start hzero index position' entry' hthrough tree hsubtree ih =>
    obtain ⟨height', hentry⟩ := path_valid hvalid hpath
    have hstep : index + 1 = entry.index + if descending then 1 else 0 := back_index hzero
    have hpath' : Path root (toStack (entry' :: stack)) := hpath.with_index index
    have hposition : position' = ((passedBy (toStack (entry' :: stack))).map (itemLen len)).sum :=
      back_position hlen hentry hplaced index
    obtain ⟨height'', htree⟩ := hentry.child hsubtree
    have hpos := child_summaries_pos htree
    have hlast : tree.child_summaries.length - 1 + 1 = tree.child_summaries.length := Nat.sub_add_cancel hpos
    have hwalk : walkBack true (toStack ({ tree, index := tree.child_summaries.length - 1, position := 0 } ::
        entry' :: stack)) = walkBack descending (toStack (entry :: stack)) := by
      change passedBy (toStack (entry' :: stack)) ++
        (⟨tree, tree.child_summaries.length - 1⟩ : StackEntry T S).before (tree.child_summaries.length - 1 + 1) = _
      rw [hlast, before_all htree]
      change passedBy (toStack stack) ++ entry.before index ++ tree.elements =
        passedBy (toStack stack) ++ entry.before (entry.index + if descending then 1 else 0)
      rw [← hstep, StackEntry.before_child hsubtree, List.append_assoc]
    rw [← hwalk]
    refine ih ⟨hsubtree, hpath'⟩ ⟨hposition, hplaced⟩ ?_ ?_
    · rintro _ ⟨⟩
      exact hlast.le
    · exact fun h => absurd h (List.cons_ne_nil _ _)
  | case4 descending position entry stack start hzero index position' entry' hthrough hsubtree =>
    obtain ⟨height', hentry⟩ := path_valid hvalid hpath
    have hstep : index + 1 = entry.index + if descending then 1 else 0 := back_index hzero
    have hpath' : Path root (toStack (entry' :: stack)) := hpath.with_index index
    have hposition : position' = ((passedBy (toStack (entry' :: stack))).map (itemLen len)).sum :=
      back_position hlen hentry hplaced index
    obtain ⟨item, hbefore, hitem, hlt⟩ := before_item hfilter hentry hsubtree hthrough
    have hwalk : walkBack descending (toStack (entry :: stack)) =
        passedBy (toStack stack) ++ entry.before index ++ [item] := by
      change passedBy (toStack stack) ++ entry.before (entry.index + if descending then 1 else 0) = _
      rw [← hstep, hbefore, List.append_assoc]
    refine ⟨hpath', hplaced, ?_, Or.inr hlt, hposition⟩
    rw [hwalk, List.rdropWhile_concat_neg _ _ _ (by simp [hitem])]
    change passedBy (toStack stack) ++ entry.before (index + 1) = _
    rw [hbefore, List.append_assoc]
  | case5 descending position entry stack start hzero index position' entry' hthrough ih =>
    obtain ⟨height', hentry⟩ := path_valid hvalid hpath
    have hstep : index + 1 = entry.index + if descending then 1 else 0 := back_index hzero
    have hpath' : Path root (toStack (entry' :: stack)) := hpath.with_index index
    have hposition : position' = ((passedBy (toStack (entry' :: stack))).map (itemLen len)).sum :=
      back_position hlen hentry hplaced index
    have hlt : index < entry.tree.child_summaries.length := by
      have hle := hindex entry rfl
      omega
    obtain ⟨items, hbefore, hany⟩ := before_step hfilter hentry hlt
    rw [hany, Bool.not_eq_true, List.any_eq_false] at hthrough
    have hwalk : walkBack descending (toStack (entry :: stack)) = walkBack false (toStack (entry' :: stack)) ++ items := by
      change passedBy (toStack stack) ++ entry.before (entry.index + if descending then 1 else 0) =
        passedBy (toStack stack) ++ entry.before index ++ items
      rw [← hstep, hbefore, List.append_assoc]
    rw [hwalk, rdropWhile_append_of_pos fun item hitem => by simpa using hthrough item hitem]
    refine ih hpath' hplaced ?_ (fun h => absurd h (List.cons_ne_nil _ _))
    rintro _ ⟨⟩
    exact hlt.le

end Node.Cursor

end zed.sum_tree
