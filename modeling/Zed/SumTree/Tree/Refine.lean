import Zed.SumTree.Tree.Back

namespace zed.sum_tree

namespace Cursor

variable {α : Type} (through : α → Bool) (cursor : Cursor α)

/-- The next item that is let through, or the end. -/
def search_forward : Cursor α :=
  match cursor.rest with
  | [] => cursor
  | item :: rest =>
    { passed := cursor.passed ++ item :: rest.takeWhile (!through ·), rest := rest.dropWhile (!through ·) }

def search_backward : Option (Cursor α) :=
  let kept := cursor.passed.rdropWhile (!through ·)
  kept.getLast?.map fun item =>
    { passed := kept.dropLast, rest := item :: (cursor.passed.drop kept.length ++ cursor.rest) }

theorem search_backward_concat (passed : List α) (item : α) (rest : List α) :
    search_backward through ⟨passed ++ [item], rest⟩ =
      if through item then some ⟨passed, item :: rest⟩ else search_backward through ⟨passed, item :: rest⟩ := by
  unfold search_backward
  dsimp only
  cases hitem : through item with
  | true =>
    rw [List.rdropWhile_concat_neg _ _ _ (by simp [hitem])]
    simp
  | false =>
    have hle : (passed.rdropWhile (!through ·)).length ≤ passed.length := (List.rdropWhile_prefix _ _).length_le
    rw [List.rdropWhile_concat_pos _ _ _ (by simp [hitem]), List.drop_append_of_le_length hle]
    simp

/-- The item that a walk back stops at, and those it goes over. -/
theorem search_backward_some {passed rest : List α} {cursor' : Cursor α}
    (h : search_backward through ⟨passed, rest⟩ = some cursor') :
    ∃ item after, passed = cursor'.passed ++ item :: after ∧ cursor'.rest = item :: (after ++ rest) ∧
      through item = true ∧ ∀ other ∈ after, through other = false := by
  induction passed using List.reverseRecOn generalizing rest with
  | nil => cases h
  | append_singleton passed item ih =>
    rw [search_backward_concat] at h
    split at h
    · rename_i hitem
      cases h
      exact ⟨item, [], rfl, rfl, hitem, fun _ hnone => absurd hnone List.not_mem_nil⟩
    · rename_i hitem
      obtain ⟨found, after, hpassed, hrest, hfound, hafter⟩ := ih h
      refine ⟨found, after ++ [item], ?_, ?_, hfound, fun other hother => ?_⟩
      · rw [hpassed, List.append_assoc, List.cons_append]
      · rw [hrest, List.append_assoc, List.singleton_append]
      · rcases List.mem_append.mp hother with hmem | hmem
        · exact hafter other hmem
        · rw [List.mem_singleton.mp hmem]
          simpa using hitem

theorem search_backward_none {passed rest : List α} (h : search_backward through ⟨passed, rest⟩ = none) :
    ∀ item ∈ passed, through item = false := by
  induction passed using List.reverseRecOn generalizing rest with
  | nil => exact fun _ hnone => absurd hnone List.not_mem_nil
  | append_singleton passed item ih =>
    rw [search_backward_concat] at h
    split at h
    · cases h
    · rename_i hitem
      intro other hother
      rcases List.mem_append.mp hother with hmem | hmem
      · exact ih h other hmem
      · rw [List.mem_singleton.mp hmem]
        simpa using hitem

end Cursor

variable {T S : Type} [Summary S] [Item T S]

namespace Node.Cursor

variable {len : S → Nat} {filter_node : S → Bool} {tree : SumTree T S} {cursor : Node.Cursor T S} {place : sum_tree.Cursor T}

/-- A cursor of the tree is where a cursor of its items is. -/
structure Located (len : S → Nat) (tree : SumTree T S) (cursor : Node.Cursor T S) (place : sum_tree.Cursor T) : Prop where
  root : cursor.tree = tree.node
  did_seek : cursor.did_seek = true
  items : place.passed ++ place.rest = tree.items
  path : Path tree.node (toStack cursor.stack)
  placed : Placed len cursor.stack.tail
  rest : walkAhead true (toStack cursor.stack) = place.rest
  position : cursor.position = place.start (itemLen len)
  at_item : cursor.stack = [] ∨ AtItem (toStack cursor.stack)
  at_end : cursor.at_end = place.rest.isEmpty

/-- A cursor of a tree that has items is before the first of them. -/
structure Before (tree : SumTree T S) (cursor : Node.Cursor T S) : Prop where
  root : cursor.tree = tree.node
  did_seek : cursor.did_seek = true
  items : tree.items ≠ []
  stack : cursor.stack = []
  position : cursor.position = 0
  at_end : cursor.at_end = false

theorem Located.top (h : Located len tree cursor place) :
    (cursor.stack = [] ∧ place.rest = []) ∨
      ∃ entry stack summary items item_summaries item, ∃ hindex : entry.index < items.length,
        cursor.stack = entry :: stack ∧ entry.tree = .Leaf summary items item_summaries ∧
          item_summaries = items.map Item.summary ∧ item = items.get ⟨entry.index, hindex⟩ ∧
          place.rest = item :: ahead (toStack (entry :: stack)) ∧ ∃ height, tree.node.Valid height := by
  rcases hstack : cursor.stack with _ | ⟨entry, stack⟩
  · refine Or.inl ⟨rfl, ?_⟩
    rw [← h.rest, hstack]
    rfl
  · have hat := h.at_item.resolve_left (by rw [hstack]; exact List.cons_ne_nil _ _)
    have hpath := h.path
    have hrest := h.rest
    rw [hstack] at hat hpath hrest
    have hitems : entry.tree.items ≠ [] := fun hnil => by
      have hlt : entry.index < entry.tree.items.length := hat
      rw [hnil] at hlt
      exact Nat.not_lt_zero _ hlt
    obtain ⟨height, hvalid⟩ : ∃ height, tree.node.Valid height := by
      refine tree.valid.resolve_left ?_
      rintro ⟨summary, hnode⟩
      have helements := hpath.elements
      rw [hnode, Node.elements_leaf] at helements
      have hnil := (List.append_eq_nil_iff.mp (List.append_eq_nil_iff.mp helements.symm).1).2
      rw [entry.tree.elements_eq] at hnil
      exact hitems (List.append_eq_nil_iff.mp hnil).2
    obtain ⟨height', hentry⟩ := path_valid hvalid hpath
    cases htree : entry.tree with
    | Internal =>
      rw [htree] at hitems
      exact absurd rfl hitems
    | Leaf summary items item_summaries =>
      have hindex : entry.index < items.length := by
        have hlt : entry.index < entry.tree.items.length := hat
        rwa [htree] at hlt
      rw [htree] at hentry
      refine Or.inr ⟨entry, stack, summary, items, item_summaries, _, hindex, rfl, htree, ?_, rfl, ?_, height, hvalid⟩
      · cases hentry
        rfl
      · rw [← hrest]
        change entry.ahead entry.index ++ ahead (toStack stack) =
          items[entry.index] :: (entry.ahead (entry.index + 1) ++ ahead (toStack stack))
        simp only [StackEntry.ahead, htree, Node.child_trees, Node.items, List.drop_nil, List.flatMap_nil,
          List.nil_append]
        rw [List.drop_eq_getElem_cons hindex, List.cons_append]

theorem Located.item (h : Located len tree cursor place) : cursor.item = place.item := by
  rcases h.top with ⟨hstack, hrest⟩ | ⟨entry, stack, _, items, _, _, hindex, hstack, htree, _, rfl, hrest, _⟩
  · rw [Node.Cursor.item, sum_tree.Cursor.item, hstack, hrest]
    rfl
  · rw [Node.Cursor.item, sum_tree.Cursor.item, hstack, hrest]
    change entry.tree.items[entry.index]? = _
    rw [htree]
    exact List.getElem?_eq_getElem hindex

theorem Located.item_summary (h : Located len tree cursor place) :
    cursor.item_summary = place.item.map Item.summary := by
  rcases h.top with ⟨hstack, hrest⟩ | ⟨entry, stack, _, items, _, _, hindex, hstack, htree, rfl, rfl, hrest, _⟩
  · rw [Node.Cursor.item_summary, sum_tree.Cursor.item, hstack, hrest]
    rfl
  · rw [Node.Cursor.item_summary, sum_tree.Cursor.item, hstack, hrest]
    change entry.tree.child_summaries[entry.index]? = _
    rw [htree]
    change (items.map Item.summary)[entry.index]? = _
    rw [List.getElem?_map, List.getElem?_eq_getElem hindex]
    rfl

theorem Located.stop (h : Located len tree cursor place) : cursor.stop len = place.stop (itemLen len) := by
  rw [Node.Cursor.stop, sum_tree.Cursor.stop, h.item_summary, Node.Cursor.start, h.position, Option.map_map]
  rfl

omit [Summary S] [Item T S] in
theorem walkAhead_at_item {stack : List (StackEntry T S)} (h : AtItem stack) : walkAhead true stack ≠ [] := by
  cases stack with
  | nil => exact absurd h id
  | cons top stack =>
    intro hnil
    have hahead : top.ahead top.index = [] := (List.append_eq_nil_iff.mp hnil).1
    have hdrop : top.tree.items.drop top.index = [] := (List.append_eq_nil_iff.mp hahead).2
    exact absurd (List.drop_eq_nil_iff.mp hdrop) (Nat.not_le.mpr h)

theorem located_of_stops {rest passed : List T} {position : Nat} {stack : List (CursorEntry T S)}
    (hstops : Stops len tree.node rest position stack) (hitems : passed ++ rest = tree.items) :
    Located len tree ⟨tree.node, stack, position, true, stack.isEmpty⟩ ⟨passed, rest⟩ := by
  obtain ⟨hpath, hplaced, hrest, hbefore, hat⟩ := hstops
  refine ⟨rfl, rfl, hitems, hpath, hplaced, hrest, ?_, hat, ?_⟩
  · rw [hrest, show tree.node.elements = passed ++ rest from hitems.symm, List.map_append, List.sum_append] at hbefore
    exact Nat.add_right_cancel hbefore
  · change stack.isEmpty = rest.isEmpty
    rcases hat with rfl | hat
    · rw [← hrest]
      rfl
    · have hne := walkAhead_at_item hat
      rw [hrest] at hne
      have hstack : stack ≠ [] := by
        rintro rfl
        exact hat
      rw [List.isEmpty_eq_false_iff.mpr hne, List.isEmpty_eq_false_iff.mpr hstack]

theorem Located.before (h : Located len tree cursor place) :
    cursor.position + ((walkAhead true (toStack cursor.stack)).map (itemLen len)).sum =
      (tree.node.elements.map (itemLen len)).sum := by
  rw [h.rest, h.position, show tree.node.elements = place.passed ++ place.rest from h.items.symm, List.map_append,
    List.sum_append]
  rfl

theorem slice_items (lenItem : T → Nat) (target : Nat) (bias : Bias) (place : sum_tree.Cursor T) :
    (place.slice lenItem target bias).2.passed ++ (place.slice lenItem target bias).2.rest = place.passed ++ place.rest := by
  have happend := sum_tree.Cursor.slice_from_append lenItem target bias (place.start lenItem) place.rest
  change place.passed ++ (slice_from lenItem target bias (place.start lenItem) place.rest).1 ++
    (slice_from lenItem target bias (place.start lenItem) place.rest).2 = _
  rw [List.append_assoc, happend]

theorem Located.stops (hlen : Additive len) (target : Nat) (bias : Bias) (h : Located len tree cursor place) :
    Stops len tree.node (place.slice (itemLen len) target bias).2.rest
      (seek_loop len target bias false cursor.position cursor.stack).1
      (seek_loop len target bias false cursor.position cursor.stack).2 := by
  have hrest : (place.slice (itemLen len) target bias).2.rest =
      (slice_from (itemLen len) target bias cursor.position (walkAhead true (toStack cursor.stack))).2 := by
    rw [h.rest, h.position]
    rfl
  rw [hrest]
  rcases h.top with ⟨hstack, -⟩ | ⟨entry, stack, _, _, _, _, _, hstack, htree, _, _, _, height, hvalid⟩
  · have hbefore := h.before
    rw [hstack] at hbefore ⊢
    rw [seek_loop]
    exact ⟨trivial, trivial, rfl, hbefore, Or.inl rfl⟩
  · refine seek_loop_spec hlen hvalid target bias false cursor.position cursor.stack h.path h.placed ?_ h.before
    rw [hstack]
    rintro _ ⟨⟩ hleaf
    rw [htree] at hleaf
    cases hleaf

theorem seek_internal_located (hlen : Additive len) {target : Nat} {bias : Bias} (h : Located len tree cursor place)
    (htarget : place.start (itemLen len) ≤ target) :
    ∃ hit cursor', cursor.seek_internal len target bias = some (hit, cursor') ∧
      Located len tree cursor' (place.slice (itemLen len) target bias).2 := by
  have hstops := h.stops hlen target bias
  have hitems := (slice_items (itemLen len) target bias place).trans h.items
  have hlocated := located_of_stops hstops hitems
  obtain ⟨root, stack, position, did_seek, at_end⟩ := cursor
  obtain rfl : root = tree.node := h.root
  obtain rfl : did_seek = true := h.did_seek
  rw [seek_internal, if_pos (h.position.trans_le htarget)]
  exact ⟨_, _, rfl, hlocated⟩

/-- A seek starts again at the first item. -/
theorem seek_located (hlen : Additive len) (target : Nat) (bias : Bias) (hroot : cursor.tree = tree.node) :
    ∃ hit cursor', cursor.seek len target bias = some (hit, cursor') ∧
      Located len tree cursor' ((sum_tree.Cursor.new tree.items).slice (itemLen len) target bias).2 := by
  have hall : walkAhead true [(⟨tree.node, 0⟩ : StackEntry T S)] = tree.items := by
    have hstart : (⟨tree.node, 0⟩ : StackEntry T S).advance true = 0 := rfl
    rw [walkAhead, hstart, StackEntry.ahead_zero, ahead, List.flatMap_nil, List.append_nil]
    rfl
  have hstops : Stops len tree.node ((sum_tree.Cursor.new tree.items).slice (itemLen len) target bias).2.rest
      (seek_loop len target bias false 0 [{ tree := tree.node, index := 0, position := 0 }]).1
      (seek_loop len target bias false 0 [{ tree := tree.node, index := 0, position := 0 }]).2 := by
    rcases tree.valid with ⟨summary, hnode⟩ | ⟨height, hvalid⟩
    · have hnone : tree.items = [] := by
        rw [SumTree.items, hnode]
        rfl
      rw [hnone, hnode, seek_loop]
      simp only [List.drop_nil, pass, Nat.add_zero, List.length_nil, Nat.lt_irrefl, if_false, seek_loop]
      exact ⟨trivial, trivial, rfl, rfl, Or.inl rfl⟩
    · have hrest : ((sum_tree.Cursor.new tree.items).slice (itemLen len) target bias).2.rest =
          (slice_from (itemLen len) target bias 0 (walkAhead true [(⟨tree.node, 0⟩ : StackEntry T S)])).2 := by
        rw [hall]
        rfl
      rw [hrest]
      refine seek_loop_spec hlen hvalid target bias false 0 [{ tree := tree.node, index := 0, position := 0 }] rfl trivial
        ?_ ?_
      · rintro _ ⟨⟩ _
        rfl
      · change 0 + ((walkAhead true [(⟨tree.node, 0⟩ : StackEntry T S)]).map _).sum = _
        rw [hall, Nat.zero_add]
        rfl
  have hlocated := located_of_stops hstops (slice_items (itemLen len) target bias (sum_tree.Cursor.new tree.items))
  obtain ⟨root, stack, position, did_seek, at_end⟩ := cursor
  obtain rfl : root = tree.node := hroot
  have hstart : (⟨tree.node, stack, position, did_seek, at_end⟩ : Node.Cursor T S).reset.position ≤ target :=
    Nat.zero_le target
  rw [seek, seek_internal, if_pos hstart]
  exact ⟨_, _, rfl, hlocated⟩

omit [Summary S] [Item T S] in
theorem forward_leaf (position : Nat) (entry : CursorEntry T S) (stack : List (CursorEntry T S)) {summary : S}
    {items : List T} {item_summaries : List S} (htree : entry.tree = .Leaf summary items item_summaries)
    {item_summary : S} (hitem : item_summaries[entry.index]? = some item_summary) :
    forward len filter_node false position (entry :: stack) =
      forward len filter_node true (position + len item_summary)
        ({ tree := entry.tree, index := entry.index + 1, position := entry.position + len item_summary } :: stack) := by
  obtain ⟨⟨root, index⟩, start⟩ := entry
  obtain rfl : root = .Leaf summary items item_summaries := htree
  rw [forward, forward]
  simp only [StackEntry.advance, hitem, Option.map_some, Option.getD_some, if_true, Bool.false_eq_true, if_false,
    Nat.add_zero]

theorem search_forward_located (hlen : Additive len) (hfilter : LetsThrough filter_node)
    (h : Located len tree cursor place) :
    Located len tree (cursor.search_forward len filter_node) (place.search_forward (itemThrough filter_node)) := by
  have hbefore := h.before
  have hitems := h.items
  have hat_end := h.at_end
  rcases h.top with ⟨hstack, hrest⟩ | ⟨entry, stack, _, items, _, item, hindex, hstack, htree, rfl, hitem, hrest, height,
    hvalid⟩
  · have hsame : place.search_forward (itemThrough filter_node) = place := by
      rw [sum_tree.Cursor.search_forward, hrest]
    obtain ⟨root, stack, position, did_seek, at_end⟩ := cursor
    obtain rfl : stack = [] := hstack
    obtain rfl : did_seek = true := h.did_seek
    obtain rfl : at_end = true := hat_end.trans (by rw [hrest]; rfl)
    simp only [hsame, search_forward, List.isEmpty_nil, if_true, forward, Bool.true_or]
    exact h
  · have hplace : place.search_forward (itemThrough filter_node) =
        { passed := place.passed ++ item :: (ahead (toStack (entry :: stack))).takeWhile (!itemThrough filter_node ·)
          rest := (ahead (toStack (entry :: stack))).dropWhile (!itemThrough filter_node ·) } := by
      rw [sum_tree.Cursor.search_forward, hrest]
    have hpath := h.path
    have hplaced := h.placed
    obtain ⟨root, stack', position, did_seek, at_end⟩ := cursor
    obtain rfl : stack' = entry :: stack := hstack
    obtain rfl : root = tree.node := h.root
    obtain rfl : did_seek = true := h.did_seek
    obtain rfl : at_end = false := hat_end.trans (by rw [hrest]; rfl)
    have hsummary : (items.map Item.summary)[entry.index]? = some (Item.summary item) := by
      rw [List.getElem?_map, List.getElem?_eq_getElem hindex, hitem]
      rfl
    have hstops := @forward_spec _ _ _ _ len filter_node _ _ hlen hfilter hvalid true (position + itemLen len item)
      ({ tree := entry.tree, index := entry.index + 1, position := entry.position + itemLen len item } :: stack)
      (hpath.with_index _) hplaced (by rintro _ ⟨⟩ hleaf; rw [htree] at hleaf; cases hleaf) (by
        rw [show walkAhead true (toStack (entry :: stack)) = item :: ahead (toStack (entry :: stack)) from
          h.rest.trans hrest, List.map_cons, List.sum_cons, ← Nat.add_assoc] at hbefore
        exact hbefore)
    have hlocated := @located_of_stops _ _ _ _ _ _ _
      (place.passed ++ item :: (ahead (toStack (entry :: stack))).takeWhile (!itemThrough filter_node ·)) _ _ hstops (by
        change _ ++ (ahead (toStack (entry :: stack))).dropWhile (!itemThrough filter_node ·) = _
        rw [List.append_assoc, List.cons_append, List.takeWhile_append_dropWhile, ← hrest]
        exact hitems)
    rw [hplace, search_forward, if_neg (by simp), forward_leaf position entry stack htree hsummary]
    simp only [Bool.or_false]
    exact hlocated

omit [Summary S] [Item T S] in
theorem elements_split {root : Node T S} {entry : StackEntry T S} {stack : List (StackEntry T S)}
    (h : Path root (entry :: stack)) : root.elements = passedBy (entry :: stack) ++ walkAhead true (entry :: stack) := by
  rw [h.elements, ← entry.before_ahead entry.index]
  simp only [passedBy, walkAhead, StackEntry.advance, if_true, List.append_assoc]

omit [Summary S] [Item T S] in
theorem before_at_item {entry : StackEntry T S} (h : entry.index < entry.tree.items.length) :
    ∃ item, entry.before (entry.index + 1) = entry.before entry.index ++ [item] := by
  obtain ⟨tree, index⟩ := entry
  cases tree with
  | Internal => exact absurd h (Nat.not_lt_zero _)
  | Leaf summary items item_summaries =>
    have hlt : index < items.length := h
    refine ⟨items[index], ?_⟩
    simp only [StackEntry.before, Node.child_trees, Node.items, List.take_nil, List.flatMap_nil, List.nil_append]
    rw [List.take_add_one, List.getElem?_eq_getElem hlt]
    rfl

/-- A stop of the loop of `search_backward`, as a cursor of the items. -/
theorem located_of_backward {height : Nat} (hlen : Additive len) (hfilter : LetsThrough filter_node)
    (hvalid : tree.node.Valid height) {position : Nat} {stack : List (CursorEntry T S)}
    (hpath : Path tree.node (toStack stack)) (hplaced : Placed len stack.tail)
    (hindex : ∀ top ∈ stack.head?, top.index ≤ top.tree.child_summaries.length) (hnil : stack = [] → position = 0)
    (hpassed : walkBack false (toStack stack) = place.passed) (hitems : place.passed ++ place.rest = tree.items) :
    match place.search_backward (itemThrough filter_node) with
    | some place' =>
      Located len tree ⟨tree.node, (backward len filter_node false position stack).2,
        (backward len filter_node false position stack).1, true, false⟩ place'
    | none =>
      Before tree ⟨tree.node, (backward len filter_node false position stack).2,
        (backward len filter_node false position stack).1, true, false⟩ := by
  obtain ⟨hpath', hplaced', hback, hat, hposition⟩ :=
    backward_spec hlen hfilter hvalid false position stack hpath hplaced hindex hnil
  generalize backward len filter_node false position stack = result at hpath' hplaced' hback hat hposition
  obtain ⟨position', stack'⟩ := result
  dsimp only at hpath' hplaced' hback hat hposition ⊢
  rw [hpassed] at hback
  have hprefix : place.passed.rdropWhile (!itemThrough filter_node ·) <+: place.passed := List.rdropWhile_prefix _ _
  unfold sum_tree.Cursor.search_backward
  rw [← hback] at hprefix ⊢
  rcases hat with rfl | hat
  · exact ⟨rfl, rfl, hvalid.elements_ne_nil, rfl, hposition, rfl⟩
  · obtain ⟨top, stack', rfl⟩ : ∃ top stack, stack' = top :: stack := by
      cases stack' with
      | nil => exact absurd hat id
      | cons top stack => exact ⟨top, stack, rfl⟩
    obtain ⟨item, hitem⟩ := before_at_item hat
    have hkept : walkBack true (toStack (top :: stack')) = passedBy (toStack (top :: stack')) ++ [item] := by
      change passedBy (toStack stack') ++ top.before (top.index + 1) =
        passedBy (toStack stack') ++ top.before top.index ++ [item]
      rw [hitem, List.append_assoc]
    have helements : passedBy (toStack (top :: stack')) ++ walkAhead true (toStack (top :: stack')) = tree.items :=
      (elements_split hpath').symm
    rw [hkept] at hprefix ⊢
    obtain ⟨after, hafter⟩ := hprefix
    have hdrop : place.passed.drop (passedBy (toStack (top :: stack')) ++ [item]).length = after := by
      rw [← hafter, List.drop_left]
    simp only [List.getLast?_concat, List.dropLast_concat, hdrop, Option.map_some]
    have hrest : walkAhead true (toStack (top :: stack')) = item :: (after ++ place.rest) := by
      refine List.append_cancel_left (helements.trans ?_)
      rw [← hitems, ← hafter]
      simp
    refine ⟨rfl, rfl, ?_, hpath', hplaced', hrest, hposition, Or.inr hat, rfl⟩
    rw [← hrest]
    exact helements

theorem search_backward_located (hlen : Additive len) (hfilter : LetsThrough filter_node)
    (h : Located len tree cursor place) :
    match place.search_backward (itemThrough filter_node) with
    | some place' => Located len tree (cursor.search_backward len filter_node) place'
    | none => (tree.items = [] ∧ Located len tree (cursor.search_backward len filter_node) place) ∨
        Before tree (cursor.search_backward len filter_node) := by
  have hitems := h.items
  have hat_end := h.at_end
  rcases h.top with ⟨hstack, hrest⟩ | ⟨entry, stack, summary, items, item_summaries, item, hindex, hstack, htree, hsummaries,
    -, hrest, height, hvalid⟩
  · obtain ⟨root, stack, position, did_seek, at_end⟩ := cursor
    obtain rfl : stack = [] := hstack
    obtain rfl : root = tree.node := h.root
    obtain rfl : did_seek = true := h.did_seek
    obtain rfl : at_end = true := hat_end.trans (by rw [hrest]; rfl)
    have hposition := h.position
    rw [hrest, List.append_nil] at hitems
    rcases tree.valid with ⟨summary, hnode⟩ | ⟨height, hvalid⟩
    · have hnone : tree.items = [] := by
        rw [SumTree.items, hnode]
        rfl
      have hempty : tree.node.is_empty = true := by
        rw [hnode]
        rfl
      have hnil : place.passed = [] := hitems.trans hnone
      have hzero : position = 0 := by
        rw [show position = place.start (itemLen len) from hposition, sum_tree.Cursor.start, hnil]
        rfl
      have hback : place.search_backward (itemThrough filter_node) = none := by
        rw [sum_tree.Cursor.search_backward, hnil]
        rfl
      rw [hback]
      simp only [search_backward, hempty, if_true, backward]
      rw [hzero] at h
      exact Or.inl ⟨hnone, h⟩
    · have hempty : tree.node.is_empty = false := by
        cases hnode : tree.node with
        | Internal => rfl
        | Leaf summary items item_summaries =>
          have hne := hvalid.elements_ne_nil
          rw [hnode, Node.elements_leaf] at hne
          simpa [is_empty] using hne
      have hback := @located_of_backward _ _ _ _ len filter_node tree place _ hlen hfilter hvalid 0
        [{ tree := tree.node, index := tree.node.child_summaries.length, position := len tree.node.summary }] rfl trivial
        (by rintro _ ⟨⟩; exact Nat.le_refl _) (fun h => absurd h (List.cons_ne_nil _ _))
        ((before_all hvalid _).trans hitems.symm) h.items
      simp only [search_backward, hempty, if_true, Bool.false_eq_true, if_false]
      cases hfound : place.search_backward (itemThrough filter_node) with
      | some place' =>
        rw [hfound] at hback
        exact hback
      | none =>
        rw [hfound] at hback
        exact Or.inr hback
  · obtain ⟨root, stack', position, did_seek, at_end⟩ := cursor
    obtain rfl : stack' = entry :: stack := hstack
    obtain rfl : root = tree.node := h.root
    obtain rfl : did_seek = true := h.did_seek
    obtain rfl : at_end = false := hat_end.trans (by rw [hrest]; rfl)
    have hpassed : walkBack false (toStack (entry :: stack)) = place.passed := by
      have hsplit : tree.node.elements = passedBy (toStack (entry :: stack)) ++ walkAhead true (toStack (entry :: stack)) :=
        elements_split h.path
      rw [show walkAhead true (toStack (entry :: stack)) = place.rest from h.rest,
        show tree.node.elements = place.passed ++ place.rest from hitems.symm] at hsplit
      exact (List.append_cancel_right hsplit).symm
    have hback := @located_of_backward _ _ _ _ len filter_node tree place _ hlen hfilter hvalid position (entry :: stack)
      h.path h.placed
      (by
        rintro _ ⟨⟩
        rw [htree]
        change entry.index ≤ item_summaries.length
        rw [hsummaries, List.length_map]
        exact hindex.le)
      (fun h => absurd h (List.cons_ne_nil _ _)) hpassed hitems
    simp only [search_backward, if_true, Bool.false_eq_true, if_false]
    cases hfound : place.search_backward (itemThrough filter_node) with
    | some place' =>
      rw [hfound] at hback
      exact hback
    | none =>
      rw [hfound] at hback
      exact Or.inr hback

theorem Before.item (h : Before tree cursor) : cursor.item = none := by
  rw [Node.Cursor.item, h.stack]
  rfl

/-- Nothing lies before the first item. -/
theorem Before.search_backward (h : Before tree cursor) : Before tree (cursor.search_backward len filter_node) := by
  obtain ⟨root, stack, position, did_seek, at_end⟩ := cursor
  obtain ⟨rfl, rfl, hitems, rfl, rfl, rfl⟩ := h
  simp only [Node.Cursor.search_backward, if_true, Bool.false_eq_true, if_false, backward]
  exact ⟨rfl, rfl, hitems, rfl, rfl, rfl⟩

end Node.Cursor

end zed.sum_tree
