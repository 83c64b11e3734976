import Zed.SumTree.Tree.Cursor

namespace zed.sum_tree

variable {T S : Type} [Summary S] [Item T S]

/-- A dimension that adds up. -/
def Additive (len : S → Nat) : Prop := ∀ summaries, len (sum summaries) = (summaries.map len).sum

def LetsThrough (filter_node : S → Bool) : Prop :=
  ∀ summaries, summaries ≠ [] → filter_node (sum summaries) = summaries.any filter_node

/-- The length of an item, and whether a filter lets it through. -/
def itemLen (len : S → Nat) (item : T) : Nat := len (Item.summary item)

def itemThrough (filter_node : S → Bool) (item : T) : Bool := filter_node (Item.summary item)

theorem LetsThrough.all : LetsThrough fun _ : S => true := by
  intro summaries hne
  cases summaries with
  | nil => exact absurd rfl hne
  | cons => rfl

namespace Node.Valid

variable {height : Nat} {node : Node T S}

theorem summary_len {len : S → Nat} (hlen : Additive len) (h : Valid height node) :
    len node.summary = (node.elements.map (itemLen len)).sum := by
  induction h with
  | @leaf items =>
    rw [elements_leaf, summary, hlen, List.map_map]
    rfl
  | @internal height child_trees _ _ _ ih =>
    rw [elements_internal, summary, hlen, List.map_map]
    clear * - ih
    induction child_trees with
    | nil => rfl
    | cons child child_trees ihRest =>
      rw [List.map_cons, List.sum_cons, List.flatMap_cons, List.map_append, List.sum_append,
        ihRest fun other hother => ih other (List.mem_cons_of_mem _ hother)]
      exact congrArg (· + _) (ih child List.mem_cons_self)

theorem summary_through {filter_node : S → Bool} (hfilter : LetsThrough filter_node) (h : Valid height node) :
    filter_node node.summary = node.elements.any (itemThrough filter_node) := by
  induction h with
  | @leaf items hne =>
    rw [elements_leaf, summary, hfilter _ (by simpa using hne), List.any_map]
    rfl
  | @internal height child_trees hne _ _ ih =>
    rw [elements_internal, summary, hfilter _ (by simpa using hne), List.any_map, List.any_flatMap]
    rw [Bool.eq_iff_iff, List.any_eq_true, List.any_eq_true]
    exact exists_congr fun child => and_congr_right fun hchild => by rw [Function.comp, ih child hchild]

theorem child (h : Valid height node) {index : Nat} {child : Node T S} (hchild : node.child_trees[index]? = some child) :
    ∃ height, Valid height child := by
  cases h with
  | leaf => cases hchild
  | @internal height _ _ _ hchildren => exact ⟨height, hchildren child (List.mem_of_getElem? hchild)⟩

end Node.Valid

/-- What a stack has passed: the items before the current child of each of its entries. -/
def StackEntry.before (entry : StackEntry T S) (stop : Nat) : List T :=
  (entry.tree.child_trees.take stop).flatMap Node.elements ++ entry.tree.items.take stop

def passedBy : List (StackEntry T S) → List T
  | [] => []
  | entry :: stack => passedBy stack ++ entry.before entry.index

omit [Summary S] [Item T S] in
theorem StackEntry.before_ahead (entry : StackEntry T S) (index : Nat) :
    entry.before index ++ entry.ahead index = entry.tree.elements := by
  obtain ⟨tree, at'⟩ := entry
  cases tree with
  | Internal =>
    simp only [before, ahead, Node.child_trees, Node.items, List.take_nil, List.drop_nil, List.append_nil,
      Node.elements_internal, ← List.flatMap_append, List.take_append_drop]
  | Leaf =>
    simp only [before, ahead, Node.child_trees, Node.items, List.take_nil, List.drop_nil, List.flatMap_nil,
      List.nil_append, Node.elements_leaf, List.take_append_drop]

omit [Summary S] [Item T S] in
theorem StackEntry.before_child {entry : StackEntry T S} {index : Nat} {subtree : Node T S}
    (h : entry.tree.child_trees[index]? = some subtree) :
    entry.before (index + 1) = entry.before index ++ subtree.elements := by
  obtain ⟨tree, at'⟩ := entry
  cases tree with
  | Leaf => cases h
  | Internal =>
    simp only [before, Node.child_trees, Node.items, List.take_nil, List.append_nil] at h ⊢
    rw [List.take_add_one, h, List.flatMap_append]
    simp

omit [Summary S] [Item T S] in
theorem Path.elements {root : Node T S} {entry : StackEntry T S} {stack : List (StackEntry T S)}
    (h : Path root (entry :: stack)) : root.elements = passedBy stack ++ entry.tree.elements ++ ahead stack := by
  induction stack generalizing entry with
  | nil =>
    obtain rfl : entry.tree = root := h
    simp [passedBy, ahead]
  | cons below stack ih =>
    have hbelow := below.before_ahead below.index
    rw [StackEntry.ahead_child h.1] at hbelow
    rw [ih h.2, ← hbelow, passedBy]
    simp only [ahead, List.flatMap_cons, List.append_assoc]

namespace Node.Cursor

variable {len : S → Nat} {filter_node : S → Bool}

omit [Summary S] in
theorem skip_eq (summaries : List S) :
    skip len filter_node summaries =
      ((summaries.takeWhile (!filter_node ·)).length, ((summaries.takeWhile (!filter_node ·)).map len).sum) := by
  induction summaries with
  | nil => rfl
  | cons summary summaries ih =>
    rw [skip]
    by_cases hfilter : filter_node summary = true
    · rw [if_pos hfilter, List.takeWhile_cons_of_neg (by simp [hfilter])]
      rfl
    · rw [if_neg hfilter, ih, List.takeWhile_cons_of_pos (by simpa using hfilter)]
      rfl

/-- Every entry below the top knows where its current child starts. -/
def Placed (len : S → Nat) : List (CursorEntry T S) → Prop
  | [] => True
  | entry :: stack =>
    entry.position = ((passedBy (toStack (entry :: stack))).map (itemLen len)).sum ∧ Placed len stack

/-- A stack that a loop stops with: what it still has to go through, and where it is. -/
structure Stops (len : S → Nat) (root : Node T S) (rest : List T) (position : Nat) (stack : List (CursorEntry T S)) :
    Prop where
  path : Path root (toStack stack)
  placed : Placed len stack.tail
  rest : walkAhead true (toStack stack) = rest
  before : position + ((walkAhead true (toStack stack)).map (itemLen len)).sum = (root.elements.map (itemLen len)).sum
  at_item : stack = [] ∨ AtItem (toStack stack)

omit [Summary S] [Item T S] in
theorem drop_takeWhile_length {α : Type} (p : α → Bool) (xs : List α) (index : Nat) :
    xs.drop (index + ((xs.drop index).takeWhile p).length) = (xs.drop index).dropWhile p := by
  have happend := congrArg (List.drop ((xs.drop index).takeWhile p).length)
    (List.takeWhile_append_dropWhile (p := p) (l := xs.drop index))
  rw [List.drop_left, List.drop_drop] at happend
  exact happend.symm

/-- The children that `skip` counts, with their items. -/
theorem skip_ahead (hlen : Additive len) (hfilter : LetsThrough filter_node) {entry : StackEntry T S} {height : Nat}
    (hvalid : entry.tree.Valid height) (index : Nat) {skipped length : Nat}
    (hskip : skip len filter_node (entry.tree.child_summaries.drop index) = (skipped, length)) :
    ∃ items, entry.ahead index = items ++ entry.ahead (index + skipped) ∧
      (∀ item ∈ items, itemThrough filter_node item = false) ∧ (items.map (itemLen len)).sum = length ∧
      (entry.tree.child_summaries.length ≤ index + skipped → entry.ahead (index + skipped) = []) ∧
      ∀ item ∈ entry.tree.items[index + skipped]?, itemThrough filter_node item = true := by
  obtain ⟨tree, at'⟩ := entry
  rw [skip_eq, Prod.mk.injEq] at hskip
  obtain ⟨rfl, rfl⟩ := hskip
  cases hvalid with
  | @leaf items =>
    simp only [Node.child_summaries, ← List.map_drop, List.takeWhile_map, List.length_map, List.map_map]
    have hsplit := drop_takeWhile_length ((!filter_node ·) ∘ Item.summary) items index
    refine ⟨(items.drop index).takeWhile ((!filter_node ·) ∘ Item.summary), ?_, fun item hitem => ?_, rfl, fun hle => ?_,
      fun item hitem => ?_⟩
    · simp only [StackEntry.ahead, Node.child_trees, Node.items, List.drop_nil, List.flatMap_nil, List.nil_append]
      rw [hsplit, List.takeWhile_append_dropWhile]
    · have := List.mem_takeWhile_imp hitem
      simpa [itemThrough] using this
    · simp [StackEntry.ahead, Node.child_trees, Node.items, List.drop_eq_nil_of_le hle]
    · have hhead := List.head?_dropWhile_not ((!filter_node ·) ∘ Item.summary) (items.drop index)
      rw [← hsplit, List.head?_drop] at hhead
      simp only [Node.items] at hitem
      rw [hitem] at hhead
      simpa [itemThrough] using hhead
  | @internal height child_trees hne hle hchildren =>
    simp only [Node.child_summaries, ← List.map_drop, List.takeWhile_map, List.length_map, List.map_map]
    have hsplit := drop_takeWhile_length ((!filter_node ·) ∘ Node.summary) child_trees index
    have hmem : ∀ child ∈ (child_trees.drop index).takeWhile ((!filter_node ·) ∘ Node.summary), child ∈ child_trees ∧
        filter_node child.summary = false := by
      intro child hchild
      refine ⟨List.mem_of_mem_drop (List.takeWhile_subset _ hchild), ?_⟩
      have := List.mem_takeWhile_imp hchild
      simpa using this
    refine ⟨((child_trees.drop index).takeWhile ((!filter_node ·) ∘ Node.summary)).flatMap Node.elements, ?_,
      fun item hitem => ?_, ?_, fun hle => ?_, fun item hitem => ?_⟩
    · simp only [StackEntry.ahead, Node.child_trees, Node.items, List.drop_nil, List.append_nil]
      rw [hsplit, ← List.flatMap_append, List.takeWhile_append_dropWhile]
    · obtain ⟨child, hchild, hitem⟩ := List.mem_flatMap.mp hitem
      obtain ⟨hchild, hnot⟩ := hmem child hchild
      rw [(hchildren child hchild).summary_through hfilter, List.any_eq_false] at hnot
      simpa using hnot item hitem
    · generalize (child_trees.drop index).takeWhile ((!filter_node ·) ∘ Node.summary) = taken at hmem
      clear * - hmem hchildren hlen
      induction taken with
      | nil => rfl
      | cons child taken ih =>
        rw [List.flatMap_cons, List.map_append, List.sum_append, List.map_cons, List.sum_cons,
          ih fun other hother => hmem other (List.mem_cons_of_mem _ hother),
          ← (hchildren child (hmem child List.mem_cons_self).1).summary_len hlen]
        rfl
    · simp [StackEntry.ahead, Node.child_trees, Node.items, List.drop_eq_nil_of_le hle]
    · cases hitem

omit [Summary S] [Item T S] in
theorem walkAhead_push {entry : StackEntry T S} {stack : List (StackEntry T S)} {subtree : Node T S}
    (h : entry.tree.child_trees[entry.index]? = some subtree) :
    walkAhead true (⟨subtree, 0⟩ :: entry :: stack) = entry.ahead entry.index ++ ahead stack := by
  rw [StackEntry.ahead_child h, List.append_assoc]
  simp only [walkAhead, StackEntry.advance, if_true, StackEntry.ahead_zero, ahead, List.flatMap_cons]

omit [Summary S] [Item T S] in
theorem walkAhead_pop (stack : List (StackEntry T S)) : walkAhead false stack = ahead stack := by
  cases stack <;> rfl

omit [Summary S] in
/-- Where a child starts is what has been passed when it is next. -/
theorem position_of_passed {root : Node T S} {entry : StackEntry T S} {stack : List (StackEntry T S)} {position : Nat}
    (hpath : Path root (entry :: stack))
    (hposition : position + ((entry.ahead entry.index ++ ahead stack).map (itemLen len)).sum =
      (root.elements.map (itemLen len)).sum) :
    position = ((passedBy (entry :: stack)).map (itemLen len)).sum := by
  have hpassed : passedBy (entry :: stack) = passedBy stack ++ entry.before entry.index := rfl
  rw [hpath.elements, ← entry.before_ahead entry.index] at hposition
  rw [hpassed]
  simp only [List.map_append, List.sum_append] at hposition ⊢
  omega

theorem path_valid {root : Node T S} {height : Nat} {entry : StackEntry T S} {stack : List (StackEntry T S)}
    (hvalid : root.Valid height) (hpath : Path root (entry :: stack)) : ∃ height, entry.tree.Valid height :=
  (Path.below hvalid hpath).1

omit [Summary S] in
theorem Placed.tail {stack : List (CursorEntry T S)} (h : Placed len stack) : Placed len stack.tail := by
  cases stack with
  | nil => trivial
  | cons => exact h.2

omit [Summary S] [Item T S] in
theorem below_not_leaf {root : Node T S} {entry : CursorEntry T S} {stack : List (CursorEntry T S)}
    (hpath : Path root (toStack (entry :: stack))) : ∀ below ∈ stack.head?, below.tree.is_leaf = false := by
  cases stack with
  | nil => exact fun below hbelow => absurd hbelow (Option.not_mem_none _)
  | cons below stack =>
    rintro _ ⟨⟩
    have hchild := hpath.1
    cases htree : below.tree with
    | Internal => rfl
    | Leaf =>
      simp only [htree, Node.child_trees, List.getElem?_nil] at hchild
      cases hchild

/-- The loop of `search_forward` stops at the first item ahead that is let through. -/
theorem forward_spec {root : Node T S} {height : Nat} (hlen : Additive len) (hfilter : LetsThrough filter_node)
    (hvalid : root.Valid height) (descend : Bool) (position : Nat) (stack : List (CursorEntry T S))
    (hpath : Path root (toStack stack)) (hplaced : Placed len stack.tail)
    (htop : ∀ top ∈ stack.head?, if descend then top.tree.is_leaf = false → top.position = position
      else top.tree.is_leaf = false)
    (hbefore : position + ((walkAhead descend (toStack stack)).map (itemLen len)).sum =
      (root.elements.map (itemLen len)).sum) :
    Stops len root ((walkAhead descend (toStack stack)).dropWhile (!itemThrough filter_node ·))
      (forward len filter_node descend position stack).1 (forward len filter_node descend position stack).2 := by
  fun_induction forward len filter_node descend position stack with
  | case1 descend position => exact ⟨trivial, trivial, rfl, hbefore, Or.inl rfl⟩
  | case2 descend position entry stack index height' summary child_summaries child_trees htree entry_position skipped
      length hskip subtree hsubtree ih =>
    obtain ⟨height'', hentry⟩ := path_valid hvalid hpath
    have hskip' : skip len filter_node (entry.tree.child_summaries.drop index) = (skipped, length) := by
      rw [htree]
      exact hskip
    obtain ⟨items, hahead, hnone, hlength, -, -⟩ := skip_ahead hlen hfilter hentry index hskip'
    have hwalk : walkAhead descend (toStack (entry :: stack)) =
        items ++ (entry.ahead (index + skipped) ++ ahead (toStack stack)) := by
      rw [← List.append_assoc, ← hahead]
      rfl
    have hpush : walkAhead true (⟨subtree, 0⟩ :: { entry.toStackEntry with index := index + skipped } :: toStack stack) =
        entry.ahead (index + skipped) ++ ahead (toStack stack) :=
      walkAhead_push (by rw [htree]; exact hsubtree)
    have hpath' : Path root ({ entry.toStackEntry with index := index + skipped } :: toStack stack) :=
      hpath.with_index _
    have hrest : position + length + ((entry.ahead (index + skipped) ++ ahead (toStack stack)).map (itemLen len)).sum =
        (root.elements.map (itemLen len)).sum := by
      rw [hwalk, List.map_append, List.sum_append, hlength] at hbefore
      omega
    rw [hwalk, List.dropWhile_append_of_pos fun item hitem => by simp [hnone item hitem], ← hpush]
    refine ih ⟨?_, hpath'⟩ ⟨?_, hplaced⟩ ?_ (by rw [← hpush] at hrest; exact hrest)
    · rw [htree]
      exact hsubtree
    · have hentryPosition : entry_position = position := by
        cases descend with
        | true => exact htop entry rfl (by rw [htree]; rfl)
        | false => rfl
      exact hentryPosition ▸ position_of_passed hpath' hrest
    · rintro _ ⟨⟩
      exact fun _ => rfl
  | case3 descend position entry stack index height' summary child_summaries child_trees htree skipped length hskip
      hsubtree ih =>
    obtain ⟨height'', hentry⟩ := path_valid hvalid hpath
    have hskip' : skip len filter_node (entry.tree.child_summaries.drop index) = (skipped, length) := by
      rw [htree]
      exact hskip
    have hsummaries : child_summaries.length = child_trees.length := by
      rw [htree] at hentry
      cases hentry
      exact List.length_map _
    obtain ⟨items, hahead, hnone, hlength, hend, -⟩ := skip_ahead hlen hfilter hentry index hskip'
    have hwalk : walkAhead descend (toStack (entry :: stack)) = items ++ walkAhead false (toStack stack) := by
      have hlast : entry.ahead (index + skipped) = [] := by
        refine hend ?_
        rw [htree]
        exact hsummaries.trans_le (List.getElem?_eq_none_iff.mp hsubtree)
      rw [walkAhead_pop]
      change entry.ahead index ++ ahead (toStack stack) = _
      rw [hahead, hlast, List.append_nil]
    rw [hwalk, List.dropWhile_append_of_pos fun item hitem => by simp [hnone item hitem]]
    refine ih hpath.of_cons hplaced.tail (below_not_leaf hpath) ?_
    rw [hwalk, List.map_append, List.sum_append, hlength] at hbefore
    omega
  | case4 descend position entry stack index summary items item_summaries htree length skipped skipped_length hskip
      hfound =>
    have hdescend : descend = true := by
      cases descend with
      | true => rfl
      | false =>
        have hleaf := htop entry rfl
        rw [htree] at hleaf
        cases hleaf
    subst hdescend
    obtain ⟨height'', hentry⟩ := path_valid hvalid hpath
    have hskip' : skip len filter_node (entry.tree.child_summaries.drop index) = (skipped, skipped_length) := by
      rw [htree]
      exact hskip
    obtain ⟨passed, hahead, hnone, hlength, -, hthrough⟩ := skip_ahead hlen hfilter hentry index hskip'
    have hitems : item_summaries = items.map Item.summary := by
      rw [htree] at hentry
      cases hentry
      rfl
    have hlt : index + skipped < items.length := by
      rw [hitems, List.length_map] at hfound
      exact hfound
    have hwalk : walkAhead true (toStack (entry :: stack)) =
        passed ++ (entry.ahead (index + skipped) ++ ahead (toStack stack)) := by
      rw [← List.append_assoc, ← hahead]
      rfl
    have hfirst : entry.ahead (index + skipped) = items[index + skipped] :: entry.ahead (index + skipped + 1) := by
      simp only [StackEntry.ahead, htree, Node.child_trees, Node.items, List.drop_nil, List.flatMap_nil,
        List.nil_append]
      rw [List.drop_eq_getElem_cons hlt]
    have hitem : itemThrough filter_node items[index + skipped] = true := by
      refine hthrough _ ?_
      rw [htree]
      exact List.getElem?_eq_getElem hlt
    rw [hwalk, List.dropWhile_append_of_pos fun item hitem => by simp [hnone item hitem], hfirst,
      List.cons_append, List.dropWhile_cons_of_neg (by simp [hitem]), ← List.cons_append, ← hfirst]
    refine ⟨hpath.with_index _, hplaced, rfl, ?_, Or.inr ?_⟩
    · rw [hwalk, List.map_append, List.sum_append, hlength] at hbefore
      change position + 0 + skipped_length + ((entry.ahead (index + skipped) ++ ahead (toStack stack)).map _).sum = _
      omega
    · change index + skipped < entry.tree.items.length
      rw [htree]
      exact hlt
  | case5 descend position entry stack index summary items item_summaries htree length skipped skipped_length hskip
      hfound ih =>
    have hdescend : descend = true := by
      cases descend with
      | true => rfl
      | false =>
        have hleaf := htop entry rfl
        rw [htree] at hleaf
        cases hleaf
    subst hdescend
    obtain ⟨height'', hentry⟩ := path_valid hvalid hpath
    have hskip' : skip len filter_node (entry.tree.child_summaries.drop index) = (skipped, skipped_length) := by
      rw [htree]
      exact hskip
    obtain ⟨passed, hahead, hnone, hlength, hend, -⟩ := skip_ahead hlen hfilter hentry index hskip'
    have hwalk : walkAhead true (toStack (entry :: stack)) = passed ++ walkAhead false (toStack stack) := by
      have hlast : entry.ahead (index + skipped) = [] := by
        refine hend ?_
        rw [htree]
        exact Nat.not_lt.mp hfound
      rw [walkAhead_pop]
      change entry.ahead index ++ ahead (toStack stack) = _
      rw [hahead, hlast, List.append_nil]
    rw [hwalk, List.dropWhile_append_of_pos fun item hitem => by simp [hnone item hitem]]
    refine ih hpath.of_cons hplaced.tail (below_not_leaf hpath) ?_
    rw [hwalk, List.map_append, List.sum_append, hlength] at hbefore
    change position + 0 + skipped_length + _ = _
    omega

theorem passes_of_le {bias : Bias} {target start stop : Nat} (hle : start ≤ stop) (h : bias.passes target stop = true) :
    bias.passes target start = true := by
  cases bias <;> simp only [Bias.passes, decide_eq_true_eq] at h ⊢ <;> omega

omit [Summary S] [Item T S] in
theorem slice_from_pass (lenItem : T → Nat) {target : Nat} {bias : Bias} {position : Nat} {items : List T}
    (h : bias.passes target (position + (items.map lenItem).sum) = true) (rest : List T) :
    (slice_from lenItem target bias position (items ++ rest)).2 =
      (slice_from lenItem target bias (position + (items.map lenItem).sum) rest).2 := by
  induction items generalizing position with
  | nil => rfl
  | cons item items ih =>
    rw [List.map_cons, List.sum_cons, ← Nat.add_assoc] at h ⊢
    rw [List.cons_append, slice_from, if_pos (passes_of_le (Nat.le_add_right _ _) h)]
    exact ih h

omit [Item T S] [Summary S] in
/-- The children that `pass` counts, with their items. -/
theorem pass_children (lenItem : T → Nat) {α : Type} (size : α → S) (elements : α → List T) (target : Nat) (bias : Bias)
    (position : Nat) (children : List α) (hsize : ∀ child ∈ children, len (size child) = ((elements child).map lenItem).sum)
    {passed length : Nat} (hpass : pass len target bias position (children.map size) = (passed, length)) :
    (((children.take passed).flatMap elements).map lenItem).sum = length ∧
      (∀ rest, (slice_from lenItem target bias position ((children.take passed).flatMap elements ++ rest)).2 =
        (slice_from lenItem target bias (position + length) rest).2) ∧
      ∀ child ∈ children[passed]?, bias.passes target (position + length + len (size child)) = false := by
  induction children generalizing position passed length with
  | nil =>
    cases hpass
    exact ⟨rfl, fun _ => rfl, fun _ h => absurd h (Option.not_mem_none _)⟩
  | cons child children ih =>
    rw [List.map_cons, pass] at hpass
    have hchild := hsize child List.mem_cons_self
    split at hpass
    · rename_i hpasses
      generalize hrest : pass len target bias (position + len (size child)) (children.map size) = result at hpass
      obtain ⟨passed', length'⟩ := result
      cases hpass
      obtain ⟨hlength, hslice, hstop⟩ := ih (position + len (size child))
        (fun other hother => hsize other (List.mem_cons_of_mem _ hother)) hrest
      refine ⟨?_, fun rest => ?_, fun other hother => ?_⟩
      · rw [List.take_succ_cons, List.flatMap_cons, List.map_append, List.sum_append, hlength, hchild]
      · rw [hchild] at hpasses
        rw [List.take_succ_cons, List.flatMap_cons, List.append_assoc, slice_from_pass lenItem hpasses, ← hchild,
          hslice, Nat.add_assoc]
      · have hother' := hstop other hother
        rwa [Nat.add_assoc position] at hother'
    · rename_i hnot
      cases hpass
      refine ⟨rfl, fun _ => rfl, ?_⟩
      rintro _ ⟨⟩
      simpa using hnot

/-- What the loop of `seek_internal` passes over at a node. -/
theorem pass_ahead (hlen : Additive len) {entry : StackEntry T S} {height : Nat} (hvalid : entry.tree.Valid height)
    (index : Nat) {target : Nat} {bias : Bias} {position passed length : Nat}
    (hpass : pass len target bias position (entry.tree.child_summaries.drop index) = (passed, length)) :
    ∃ items, entry.ahead index = items ++ entry.ahead (index + passed) ∧ (items.map (itemLen len)).sum = length ∧
      (∀ rest, (slice_from (itemLen len) target bias position (items ++ rest)).2 =
        (slice_from (itemLen len) target bias (position + length) rest).2) ∧
      (entry.tree.child_summaries.length ≤ index + passed → entry.ahead (index + passed) = []) ∧
      ∀ item ∈ entry.tree.items[index + passed]?,
        bias.passes target (position + length + itemLen len item) = false := by
  obtain ⟨tree, at'⟩ := entry
  cases hvalid with
  | @leaf items =>
    simp only [Node.child_summaries, ← List.map_drop] at hpass
    obtain ⟨hlength, hslice, hstop⟩ := pass_children (itemLen len) Item.summary (fun item => [item]) target bias position
      (items.drop index) (fun item _ => by simp [itemLen]) hpass
    rw [List.flatMap_singleton'] at hlength hslice
    refine ⟨(items.drop index).take passed, ?_, hlength, hslice, fun hle => ?_, fun item hitem => hstop item ?_⟩
    · simp only [StackEntry.ahead, Node.child_trees, Node.items, List.drop_nil, List.flatMap_nil, List.nil_append]
      rw [← List.drop_drop, List.take_append_drop]
    · simp only [Node.child_summaries, List.length_map] at hle
      simp [StackEntry.ahead, Node.child_trees, Node.items, List.drop_eq_nil_of_le hle]
    · rw [List.getElem?_drop]
      exact hitem
  | @internal height child_trees hne hle hchildren =>
    simp only [Node.child_summaries, ← List.map_drop] at hpass
    obtain ⟨hlength, hslice, -⟩ := pass_children (itemLen len) Node.summary Node.elements target bias position
      (child_trees.drop index) (fun child hchild => (hchildren child (List.mem_of_mem_drop hchild)).summary_len hlen)
      hpass
    refine ⟨((child_trees.drop index).take passed).flatMap Node.elements, ?_, hlength, hslice, fun hle => ?_,
      fun item hitem => ?_⟩
    · simp only [StackEntry.ahead, Node.child_trees, Node.items, List.drop_nil, List.append_nil]
      rw [← List.flatMap_append, ← List.drop_drop, List.take_append_drop]
    · simp only [Node.child_summaries, List.length_map] at hle
      simp [StackEntry.ahead, Node.child_trees, Node.items, List.drop_eq_nil_of_le hle]
    · cases hitem

theorem seek_loop_spec {root : Node T S} {height : Nat} (hlen : Additive len) (hvalid : root.Valid height) (target : Nat)
    (bias : Bias) (ascending : Bool) (position : Nat) (stack : List (CursorEntry T S)) (hpath : Path root (toStack stack))
    (hplaced : Placed len stack.tail)
    (htop : ∀ top ∈ stack.head?, if ascending then top.tree.is_leaf = false
      else top.tree.is_leaf = false → top.position = position)
    (hbefore : position + ((walkAhead (!ascending) (toStack stack)).map (itemLen len)).sum =
      (root.elements.map (itemLen len)).sum) :
    Stops len root (slice_from (itemLen len) target bias position (walkAhead (!ascending) (toStack stack))).2
      (seek_loop len target bias ascending position stack).1 (seek_loop len target bias ascending position stack).2 := by
  fun_induction seek_loop len target bias ascending position stack with
  | case1 ascending position => exact ⟨trivial, trivial, rfl, hbefore, Or.inl rfl⟩
  | case2 ascending position entry stack height' summary child_summaries child_trees htree index passed length hpass tree
      hsubtree entry_position ih =>
    obtain ⟨height'', hentry⟩ := path_valid hvalid hpath
    have hpass' : pass len target bias position (entry.tree.child_summaries.drop index) = (passed, length) := by
      rw [htree]
      exact hpass
    obtain ⟨items, hahead, hlength, hslice, -, -⟩ := pass_ahead hlen hentry index hpass'
    have hwalk : walkAhead (!ascending) (toStack (entry :: stack)) =
        items ++ (entry.ahead (index + passed) ++ ahead (toStack stack)) := by
      rw [← List.append_assoc, ← hahead]
      rfl
    have hpush : walkAhead true (⟨tree, 0⟩ :: { entry.toStackEntry with index := index + passed } :: toStack stack) =
        entry.ahead (index + passed) ++ ahead (toStack stack) :=
      walkAhead_push (by rw [htree]; exact hsubtree)
    have hpath' : Path root ({ entry.toStackEntry with index := index + passed } :: toStack stack) := hpath.with_index _
    have hrest : position + length + ((entry.ahead (index + passed) ++ ahead (toStack stack)).map (itemLen len)).sum =
        (root.elements.map (itemLen len)).sum := by
      rw [hwalk, List.map_append, List.sum_append, hlength] at hbefore
      omega
    have hentryPosition : entry_position = position + length := by
      by_cases hmoved : (ascending || passed != 0) = true
      · exact if_pos hmoved
      · rw [Bool.or_eq_true, not_or] at hmoved
        obtain ⟨hnot, hzero⟩ := hmoved
        have hascending : ascending = false := by simpa using hnot
        have hpassed : passed = 0 := by simpa using hzero
        have hlengthZero : length = 0 := by
          subst hpassed
          rw [Nat.add_zero] at hahead
          have hnil : items = [] := by
            have hcount := congrArg List.length hahead
            rw [List.length_append] at hcount
            exact List.eq_nil_of_length_eq_zero (by omega)
          rw [← hlength, hnil]
          rfl
        subst hascending
        have hposition := htop entry rfl
        rw [if_neg (by decide)] at hposition
        rw [show entry_position = entry.position from if_neg (by simp [hpassed]),
          hposition (by rw [htree]; rfl), hlengthZero, Nat.add_zero]
    rw [hwalk, hslice, ← hpush]
    refine ih ⟨?_, hpath'⟩ ⟨?_, hplaced⟩ ?_ (by rw [← hpush] at hrest; exact hrest)
    · rw [htree]
      exact hsubtree
    · exact hentryPosition.trans (position_of_passed hpath' hrest)
    · rintro _ ⟨⟩
      exact fun _ => rfl
  | case3 ascending position entry stack height' summary child_summaries child_trees htree index passed length hpass
      hsubtree ih =>
    obtain ⟨height'', hentry⟩ := path_valid hvalid hpath
    have hpass' : pass len target bias position (entry.tree.child_summaries.drop index) = (passed, length) := by
      rw [htree]
      exact hpass
    have hsummaries : child_summaries.length = child_trees.length := by
      rw [htree] at hentry
      cases hentry
      exact List.length_map _
    obtain ⟨items, hahead, hlength, hslice, hend, -⟩ := pass_ahead hlen hentry index hpass'
    have hwalk : walkAhead (!ascending) (toStack (entry :: stack)) = items ++ walkAhead false (toStack stack) := by
      have hlast : entry.ahead (index + passed) = [] := by
        refine hend ?_
        rw [htree]
        exact hsummaries.trans_le (List.getElem?_eq_none_iff.mp hsubtree)
      rw [walkAhead_pop]
      change entry.ahead index ++ ahead (toStack stack) = _
      rw [hahead, hlast, List.append_nil]
    rw [hwalk, hslice]
    refine ih hpath.of_cons hplaced.tail ?_ ?_
    · exact below_not_leaf hpath
    · rw [hwalk, List.map_append, List.sum_append, hlength] at hbefore
      change position + length + ((walkAhead false (toStack stack)).map _).sum = _
      omega
  | case4 ascending position entry stack summary items item_summaries htree passed length hpass hfound =>
    obtain ⟨height'', hentry⟩ := path_valid hvalid hpath
    have hascending : ascending = false := by
      cases ascending with
      | false => rfl
      | true =>
        have hleaf := htop entry rfl
        rw [if_pos rfl, htree] at hleaf
        cases hleaf
    subst hascending
    have hpass' : pass len target bias position (entry.tree.child_summaries.drop entry.index) = (passed, length) := by
      rw [htree]
      exact hpass
    obtain ⟨before, hahead, hlength, hslice, -, hstop⟩ := pass_ahead hlen hentry entry.index hpass'
    have hwalk : walkAhead true (toStack (entry :: stack)) =
        before ++ (entry.ahead (entry.index + passed) ++ ahead (toStack stack)) := by
      rw [← List.append_assoc, ← hahead]
      rfl
    have hfirst : entry.ahead (entry.index + passed) =
        items[entry.index + passed] :: entry.ahead (entry.index + passed + 1) := by
      simp only [StackEntry.ahead, htree, Node.child_trees, Node.items, List.drop_nil, List.flatMap_nil,
        List.nil_append]
      rw [List.drop_eq_getElem_cons hfound]
    have hitem : bias.passes target (position + length + itemLen len items[entry.index + passed]) = false := by
      refine hstop _ ?_
      rw [htree]
      exact List.getElem?_eq_getElem hfound
    change Stops len root (slice_from (itemLen len) target bias position (walkAhead true (toStack (entry :: stack)))).2 _ _
    rw [hwalk, hslice, hfirst, List.cons_append, slice_from, if_neg (by simp [hitem]), ← List.cons_append, ← hfirst]
    refine ⟨hpath.with_index _, hplaced, rfl, ?_, Or.inr ?_⟩
    · change position + ((walkAhead true (toStack (entry :: stack))).map _).sum = _ at hbefore
      rw [hwalk, List.map_append, List.sum_append, hlength] at hbefore
      change position + length + ((entry.ahead (entry.index + passed) ++ ahead (toStack stack)).map _).sum = _
      omega
    · change entry.index + passed < entry.tree.items.length
      rw [htree]
      exact hfound
  | case5 ascending position entry stack summary items item_summaries htree passed length hpass hfound ih =>
    obtain ⟨height'', hentry⟩ := path_valid hvalid hpath
    have hascending : ascending = false := by
      cases ascending with
      | false => rfl
      | true =>
        have hleaf := htop entry rfl
        rw [if_pos rfl, htree] at hleaf
        cases hleaf
    subst hascending
    have hpass' : pass len target bias position (entry.tree.child_summaries.drop entry.index) = (passed, length) := by
      rw [htree]
      exact hpass
    have hsummaries : item_summaries.length = items.length := by
      rw [htree] at hentry
      cases hentry
      exact List.length_map _
    obtain ⟨before, hahead, hlength, hslice, hend, -⟩ := pass_ahead hlen hentry entry.index hpass'
    have hwalk : walkAhead true (toStack (entry :: stack)) = before ++ walkAhead false (toStack stack) := by
      have hlast : entry.ahead (entry.index + passed) = [] := by
        refine hend ?_
        rw [htree]
        exact hsummaries.trans_le (Nat.not_lt.mp hfound)
      rw [walkAhead_pop]
      change entry.ahead entry.index ++ ahead (toStack stack) = _
      rw [hahead, hlast, List.append_nil]
    change Stops len root (slice_from (itemLen len) target bias position (walkAhead true (toStack (entry :: stack)))).2 _ _
    rw [hwalk, hslice]
    refine ih hpath.of_cons hplaced.tail ?_ ?_
    · exact below_not_leaf hpath
    · change position + ((walkAhead true (toStack (entry :: stack))).map _).sum = _ at hbefore
      rw [hwalk, List.map_append, List.sum_append, hlength] at hbefore
      change position + length + ((walkAhead false (toStack stack)).map _).sum = _
      omega

end Node.Cursor

end zed.sum_tree
