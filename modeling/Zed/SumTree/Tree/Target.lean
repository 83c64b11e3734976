import Zed.SumTree.Seek
import Zed.SumTree.Tree.Append
import Zed.SumTree.Tree.Located

namespace zed.sum_tree

/-- What a cursor measures of the items that it has passed. -/
class Dimension (D : Type) (S : outParam Type) where
  zero : D
  add_summary : D → S → D

/-- A dimension that adds a sum as it adds the summaries one by one. -/
class LawfulDimension (D : Type) (S : outParam Type) [Summary S] [Dimension D S] : Prop where
  add_add_summary (position : D) (first second : S) :
    Dimension.add_summary position (Summary.add_summary first second) =
      Dimension.add_summary (Dimension.add_summary position first) second

/-- Whether a seek goes past an end, from how its target compares with the end. -/
def Bias.goes_past (bias : Bias) : Ordering → Bool
  | .gt => true
  | .eq => bias = .Right
  | .lt => false

/-- A cursor of a dimension that seeks to any target. What only `prev` reads of its stack is left out. -/
structure Seeker (T S D : Type) where
  tree : Node T S
  stack : List (StackEntry T S)
  position : D
  did_seek : Bool
  at_end : Bool

namespace Seeker

section Model

variable {T S D : Type} [Dimension D S]

/-- The children that a seek goes past, and where it is then. -/
def pass (target : D → Ordering) (bias : Bias) (position : D) : List S → Nat × D
  | [] => (0, position)
  | child_summary :: child_summaries =>
    let child_end := Dimension.add_summary position child_summary
    if bias.goes_past (target child_end) then
      let (passed, position) := pass target bias child_end child_summaries
      (passed + 1, position)
    else (0, position)

/-- The loop of `seek_internal`. -/
def seek_loop (target : D → Ordering) (bias : Bias) (ascending : Bool) (position : D) :
    List (StackEntry T S) → D × List (StackEntry T S)
  | [] => (position, [])
  | entry :: stack =>
    match _htree : entry.tree with
    | .Internal _ _ child_summaries child_trees =>
      let index := entry.advance !ascending
      let (passed, position) := pass target bias position (child_summaries.drop index)
      match _hsubtree : child_trees[index + passed]? with
      | some tree =>
        seek_loop target bias false position ({ tree, index := 0 } :: { entry with index := index + passed } :: stack)
      | none => seek_loop target bias true position stack
    | .Leaf _ items item_summaries =>
      let (passed, position) := pass target bias position (item_summaries.drop entry.index)
      if entry.index + passed < items.length then (position, { entry with index := entry.index + passed } :: stack)
      else seek_loop target bias true position stack
termination_by stack => stackWeight (!ascending) stack
decreasing_by
  · refine stackWeight_skip (Nat.le_add_right index _) ?_
    rw [_htree]
    exact _hsubtree
  · exact stackWeight_pop _ _ _
  · exact stackWeight_pop _ _ _

variable (cursor : Seeker T S D)

def new (tree : Node T S) : Seeker T S D :=
  { tree, stack := [], position := Dimension.zero, did_seek := false, at_end := tree.is_empty }

def reset : Seeker T S D := new cursor.tree

def start : D := cursor.position

/-- Panics before the first seek. -/
def item : Option T := cursor.stack.head?.bind fun entry => entry.tree.items[entry.index]?

def item_summary : Option S := cursor.stack.head?.bind fun entry => entry.tree.child_summaries[entry.index]?

/-- `cursor.end()` -/
def stop : D :=
  match cursor.item_summary with
  | some item_summary => Dimension.add_summary cursor.start item_summary
  | none => cursor.start

/-- Panics when the target lies behind. Also returns whether the target was hit. -/
def seek_internal (target : D → Ordering) (bias : Bias) : Option (Bool × Seeker T S D) :=
  if target cursor.position ≠ .lt then
    let stack := if cursor.did_seek then cursor.stack else { tree := cursor.tree, index := 0 } :: cursor.stack
    let (position, stack) := seek_loop target bias false cursor.position stack
    let cursor : Seeker T S D := { cursor with stack, position, did_seek := true, at_end := stack.isEmpty }
    let stop :=
      match bias with
      | .Left => cursor.stop
      | .Right => position
    some (decide (target stop = .eq), cursor)
  else none

def seek (target : D → Ordering) (bias : Bias) : Option (Bool × Seeker T S D) := cursor.reset.seek_internal target bias

def seek_forward (target : D → Ordering) (bias : Bias) : Option (Bool × Seeker T S D) :=
  cursor.seek_internal target bias

/-- Where a cursor is after some items. -/
def progress [Item T S] (passed : List T) : D :=
  passed.foldl (fun position item => Dimension.add_summary position (Item.summary item)) Dimension.zero

/-- Whether a seek goes past the last of some items from the one before it. -/
def goes_past [Item T S] (target : D → Ordering) (bias : Bias) (passed : List T) : Bool :=
  bias.goes_past (target (progress passed))

end Model

end Seeker

/-- A seek that goes past an item goes past those before it. -/
def Downward {α : Type} (passes : List α → Bool) (passed items : List α) : Prop :=
  ∀ front middle back, items = front ++ middle ++ back → front ≠ [] → passes (passed ++ front ++ middle) = true →
    passes (passed ++ front) = true

theorem Downward.append {α : Type} {passes : List α → Bool} {passed front items : List α}
    (h : Downward passes passed (front ++ items)) : Downward passes (passed ++ front) items := by
  intro next middle back hsplit hne hpasses
  have hpast := h (front ++ next) middle back (by rw [hsplit]; simp) (by simp [hne]) (by simpa using hpasses)
  simpa using hpast

theorem seek_while_pass {α : Type} {passes : List α → Bool} {passed items rest : List α}
    (h : Downward passes passed (items ++ rest)) (hpast : items ≠ [] → passes (passed ++ items) = true) :
    seek_while passes passed (items ++ rest) = seek_while passes (passed ++ items) rest := by
  induction items generalizing passed with
  | nil => rw [List.nil_append, List.append_nil]
  | cons item items ih =>
    have hall := hpast (List.cons_ne_nil _ _)
    have hfirst : passes (passed ++ [item]) = true := h [item] items rest rfl (List.cons_ne_nil _ _) (by simpa using hall)
    rw [List.cons_append, seek_while, if_pos hfirst, ih]
    · simp
    · exact Downward.append (by simpa using h)
    · exact fun _ => by simpa using hall

section Last

variable {α : Type} {passes : List α → Bool} {p : α → Bool}

/-- A seek that looks only at the last item goes past the items before the first that it stops at. -/
theorem seek_while_of_last (hlast : ∀ passed item, passes (passed ++ [item]) = p item) (passed items : List α) :
    seek_while passes passed items = { passed := passed ++ items.takeWhile p, rest := items.dropWhile p } := by
  induction items generalizing passed with
  | nil => simp [seek_while]
  | cons item items ih =>
    rw [seek_while, hlast]
    cases hitem : p item with
    | true => simp [hitem, ih]
    | false => simp [hitem]

theorem Downward.of_last (hlast : ∀ passed item, passes (passed ++ [item]) = p item) (passed : List α) {items : List α}
    (hitems : items.Pairwise fun a b => p b = true → p a = true) : Downward passes passed items := by
  intro front middle back hsplit hne hpasses
  obtain ⟨init, item, rfl⟩ := (List.eq_nil_or_concat' front).resolve_left hne
  rcases List.eq_nil_or_concat' middle with rfl | ⟨between, later, rfl⟩
  · simpa using hpasses
  · rw [← List.append_assoc] at hpasses
    rw [hlast] at hpasses
    rw [← List.append_assoc, hlast]
    have hpair := hitems
    rw [hsplit, List.pairwise_append] at hpair
    have hfront := (List.pairwise_append.mp hpair.1).2.2
    exact hfront item (by simp) later (by simp) hpasses

end Last

namespace Seeker

variable {T S D : Type} [SummaryMonoid S] [Item T S] [Dimension D S] [LawfulDimension D S]

theorem add_itemsSum (position : D) {items : List T} (hne : items ≠ []) :
    Dimension.add_summary position (Node.itemsSum items) =
      items.foldl (fun position item => Dimension.add_summary position (Item.summary item)) position := by
  induction items using List.reverseRecOn with
  | nil => exact absurd rfl hne
  | append_singleton items item ih =>
    rw [List.foldl_append, List.foldl_cons, List.foldl_nil, Node.itemsSum_append _ (List.cons_ne_nil _ _)]
    have hone : Node.itemsSum [item] = Item.summary item := SummaryMonoid.zero_add_summary _
    rcases eq_or_ne items [] with rfl | hitems
    · have hzero : Summary.add_summary (Node.itemsSum ([] : List T)) (Node.itemsSum [item]) = Node.itemsSum [item] :=
        SummaryMonoid.zero_add_summary _
      rw [hzero, hone]
      rfl
    · rw [LawfulDimension.add_add_summary, ih hitems, hone]

theorem progress_append_elements {height : Nat} {node : Node T S} (hvalid : node.Valid height) (passed : List T) :
    (progress (passed ++ node.elements) : D) = Dimension.add_summary (progress passed) node.summary := by
  rw [hvalid.summary_eq, add_itemsSum _ hvalid.elements_ne_nil, progress, List.foldl_append]
  rfl

omit [LawfulDimension D S] in
theorem pass_children {α : Type} (size : α → S) (elements : α → List T) {target : D → Ordering} {bias : Bias}
    {children : List α} {passed rest : List T} (hne : ∀ child ∈ children, elements child ≠ [])
    (hsize : ∀ child ∈ children, ∀ passed : List T,
      (progress (passed ++ elements child) : D) = Dimension.add_summary (progress passed) (size child))
    (hdown : Downward (goes_past target bias) passed (children.flatMap elements ++ rest)) {count : Nat} {position : D}
    (hpass : pass target bias (progress passed) (children.map size) = (count, position)) :
    position = progress (passed ++ (children.take count).flatMap elements) ∧
      seek_while (goes_past target bias) passed (children.flatMap elements ++ rest) =
        seek_while (goes_past target bias) (passed ++ (children.take count).flatMap elements)
          ((children.drop count).flatMap elements ++ rest) ∧
      ∀ child ∈ children[count]?, bias.goes_past (target (Dimension.add_summary position (size child))) = false := by
  induction children generalizing passed count position with
  | nil =>
    cases hpass
    exact ⟨by simp, by simp, fun _ h => absurd h (Option.not_mem_none _)⟩
  | cons child children ih =>
    have hchild := hsize child List.mem_cons_self passed
    rw [List.map_cons, pass, ← hchild] at hpass
    rw [List.flatMap_cons, List.append_assoc] at hdown
    cases hpast : bias.goes_past (target (progress (passed ++ elements child))) with
    | true =>
      rw [hpast, if_pos rfl] at hpass
      generalize hrest : pass target bias (progress (passed ++ elements child)) (children.map size) = result at hpass
      obtain ⟨count', position'⟩ := result
      cases hpass
      obtain ⟨hposition, hseek, hstop⟩ := ih (fun other hother => hne other (List.mem_cons_of_mem _ hother))
        (fun other hother => hsize other (List.mem_cons_of_mem _ hother)) hdown.append hrest
      refine ⟨?_, ?_, hstop⟩
      · rw [hposition, List.take_succ_cons, List.flatMap_cons, List.append_assoc]
      · rw [List.flatMap_cons, List.append_assoc, seek_while_pass hdown fun _ => hpast, hseek, List.take_succ_cons,
          List.flatMap_cons, List.append_assoc, List.drop_succ_cons]
    | false =>
      rw [hpast, if_neg Bool.false_ne_true] at hpass
      cases hpass
      refine ⟨by simp, by simp, ?_⟩
      rintro _ ⟨⟩
      rw [← hchild]
      exact hpast

theorem pass_ahead {entry : StackEntry T S} {height : Nat} (hvalid : entry.tree.Valid height) (index : Nat)
    {target : D → Ordering} {bias : Bias} {passed rest : List T}
    (hdown : Downward (goes_past target bias) passed (entry.ahead index ++ rest)) {count : Nat} {position : D}
    (hpass : pass target bias (progress passed) (entry.tree.child_summaries.drop index) = (count, position)) :
    ∃ items, entry.ahead index = items ++ entry.ahead (index + count) ∧ position = progress (passed ++ items) ∧
      seek_while (goes_past target bias) passed (entry.ahead index ++ rest) =
        seek_while (goes_past target bias) (passed ++ items) (entry.ahead (index + count) ++ rest) ∧
      (entry.tree.child_summaries.length ≤ index + count → entry.ahead (index + count) = []) ∧
      ∀ item ∈ entry.tree.items[index + count]?, goes_past target bias (passed ++ items ++ [item]) = false := by
  obtain ⟨tree, at'⟩ := entry
  cases hvalid with
  | @leaf items =>
    have hahead : ∀ start, StackEntry.ahead ⟨.Leaf (sum (items.map Item.summary)) items (items.map Item.summary), at'⟩
        start = items.drop start := fun start => by
      simp [StackEntry.ahead, Node.child_trees, Node.items]
    simp only [hahead] at hdown ⊢
    simp only [Node.child_summaries, ← List.map_drop] at hpass
    have hsingle : (items.drop index).flatMap (fun item => [item]) = items.drop index := List.flatMap_singleton' _
    obtain ⟨hposition, hseek, hstop⟩ := pass_children Item.summary (fun item => [item])
      (fun _ _ => List.cons_ne_nil _ _)
      (fun item _ passed => by rw [progress, List.foldl_append]; rfl) (by rw [hsingle]; exact hdown) hpass
    simp only [List.flatMap_singleton'] at hposition hseek
    refine ⟨(items.drop index).take count, ?_, hposition, ?_, fun hle => ?_, fun item hitem => ?_⟩
    · rw [← List.drop_drop, List.take_append_drop]
    · rw [hseek, List.drop_drop]
    · rw [Node.child_summaries, List.length_map] at hle
      exact List.drop_eq_nil_of_le hle
    · have hnext := hstop item (by rw [List.getElem?_drop]; exact hitem)
      rw [goes_past, progress, List.foldl_append, ← progress, ← hposition]
      exact hnext
  | @internal height child_trees hne hle hchildren =>
    have hahead : ∀ start, StackEntry.ahead ⟨.Internal (height + 1) (sum (child_trees.map Node.summary))
        (child_trees.map Node.summary) child_trees, at'⟩ start = (child_trees.drop start).flatMap Node.elements :=
      fun start => by simp [StackEntry.ahead, Node.child_trees, Node.items]
    simp only [hahead] at hdown ⊢
    simp only [Node.child_summaries, ← List.map_drop] at hpass
    have hvalid : ∀ child ∈ child_trees.drop index, child.Valid height := fun child hchild =>
      hchildren child (List.mem_of_mem_drop hchild)
    obtain ⟨hposition, hseek, -⟩ := pass_children Node.summary Node.elements
      (fun child hchild => (hvalid child hchild).elements_ne_nil)
      (fun child hchild passed => progress_append_elements (hvalid child hchild) passed) hdown hpass
    refine ⟨((child_trees.drop index).take count).flatMap Node.elements, ?_, hposition, ?_, fun hle => ?_,
      fun item hitem => ?_⟩
    · rw [← List.flatMap_append, ← List.drop_drop, List.take_append_drop]
    · rw [hseek, List.drop_drop]
    · rw [Node.child_summaries, List.length_map] at hle
      rw [List.drop_eq_nil_of_le hle, List.flatMap_nil]
    · cases hitem

theorem below_is_internal {T S : Type} {root : Node T S} {entry : StackEntry T S} {stack : List (StackEntry T S)}
    (hpath : Path root (entry :: stack)) : ∀ below ∈ stack.head?, below.tree.is_leaf = false := by
  cases stack with
  | nil => exact fun below hbelow => absurd hbelow (Option.not_mem_none _)
  | cons below stack =>
    rintro _ ⟨⟩
    have hchild := hpath.1
    cases htree : below.tree with
    | Internal => rfl
    | Leaf =>
      simp only [htree, Node.child_trees, List.getElem?_nil] at hchild
      cases hchild

/-- Where the loop of `seek_internal` stops: at the place where a seek over the items does. -/
structure Arrives (root : Node T S) (place : Cursor T) (position : D) (stack : List (StackEntry T S)) : Prop where
  path : Path root stack
  rest : walkAhead true stack = place.rest
  position : position = progress place.passed
  at_item : stack = [] ∨ AtItem stack

theorem seek_loop_spec {root : Node T S} {height : Nat} (hvalid : root.Valid height) {target : D → Ordering} {bias : Bias}
    {ascending : Bool} {position : D} {stack : List (StackEntry T S)} {passed : List T} (hpath : Path root stack)
    (htop : ∀ top ∈ stack.head?, ascending = true → top.tree.is_leaf = false) (hposition : position = progress passed)
    (hdown : Downward (goes_past target bias) passed (walkAhead (!ascending) stack)) :
    Arrives root (seek_while (goes_past target bias) passed (walkAhead (!ascending) stack))
      (seek_loop target bias ascending position stack).1 (seek_loop target bias ascending position stack).2 := by
  fun_induction seek_loop target bias ascending position stack generalizing passed with
  | case1 ascending position => exact ⟨trivial, rfl, hposition, Or.inl rfl⟩
  | case2 ascending position entry stack height' summary child_summaries child_trees htree index count position' hpass
      tree hsubtree =>
    rename_i ih
    obtain ⟨height'', hentry⟩ := Node.Cursor.path_valid hvalid hpath
    subst hposition
    have hpass' : pass target bias (progress passed) (entry.tree.child_summaries.drop (entry.advance !ascending)) =
        (count, position') := by
      rw [htree]
      exact hpass
    obtain ⟨items, hahead, hmoved, hseek, -, -⟩ := pass_ahead hentry _ hdown hpass'
    have hpush : walkAhead true (⟨tree, 0⟩ :: { entry with index := entry.advance (!ascending) + count } :: stack) =
        entry.ahead (entry.advance (!ascending) + count) ++ ahead stack :=
      Node.Cursor.walkAhead_push (by rw [htree]; exact hsubtree)
    change Arrives root (seek_while _ passed (entry.ahead (entry.advance !ascending) ++ ahead stack)) _ _
    rw [hseek, ← hpush]
    refine ih ⟨?_, hpath.with_index _⟩ ?_ hmoved ?_
    · rw [htree]
      exact hsubtree
    · rintro _ ⟨⟩ hfalse
      cases hfalse
    · change Downward _ passed (entry.ahead (entry.advance !ascending) ++ ahead stack) at hdown
      rw [hahead, List.append_assoc] at hdown
      change Downward _ _ (walkAhead true _)
      rw [hpush]
      exact hdown.append
  | case3 ascending position entry stack height' summary child_summaries child_trees htree index count position' hpass
      hsubtree =>
    rename_i ih
    obtain ⟨height'', hentry⟩ := Node.Cursor.path_valid hvalid hpath
    subst hposition
    have hpass' : pass target bias (progress passed) (entry.tree.child_summaries.drop (entry.advance !ascending)) =
        (count, position') := by
      rw [htree]
      exact hpass
    have hsummaries : child_summaries.length = child_trees.length := by
      rw [htree] at hentry
      cases hentry
      exact List.length_map _
    obtain ⟨items, hahead, hmoved, hseek, hend, -⟩ := pass_ahead hentry _ hdown hpass'
    have hlast : entry.ahead (entry.advance (!ascending) + count) = [] := by
      refine hend ?_
      rw [htree]
      exact hsummaries.trans_le (List.getElem?_eq_none_iff.mp hsubtree)
    change Downward _ passed (entry.ahead (entry.advance !ascending) ++ ahead stack) at hdown
    change Arrives root (seek_while _ passed (entry.ahead (entry.advance !ascending) ++ ahead stack)) _ _
    rw [hahead, hlast, List.append_nil] at hdown
    rw [hseek, hlast, List.nil_append, ← Node.Cursor.walkAhead_pop]
    refine ih hpath.of_cons (fun top htop _ => below_is_internal hpath top htop) hmoved ?_
    rw [Bool.not_true, Node.Cursor.walkAhead_pop]
    exact hdown.append
  | case4 ascending position entry stack summary items item_summaries htree count position' hpass hfound =>
    obtain ⟨height'', hentry⟩ := Node.Cursor.path_valid hvalid hpath
    have hascending : ascending = false := by
      cases ascending with
      | false => rfl
      | true =>
        have hleaf := htop entry rfl rfl
        rw [htree] at hleaf
        cases hleaf
    subst hascending hposition
    have hpass' : pass target bias (progress passed) (entry.tree.child_summaries.drop entry.index) =
        (count, position') := by
      rw [htree]
      exact hpass
    obtain ⟨before, hahead, hmoved, hseek, -, hstop⟩ := pass_ahead hentry entry.index hdown hpass'
    have hfirst : entry.ahead (entry.index + count) =
        items[entry.index + count] :: entry.ahead (entry.index + count + 1) := by
      simp only [StackEntry.ahead, htree, Node.child_trees, Node.items, List.drop_nil, List.flatMap_nil,
        List.nil_append]
      rw [List.drop_eq_getElem_cons hfound]
    have hitem : goes_past target bias (passed ++ before ++ [items[entry.index + count]]) = false := by
      refine hstop _ ?_
      rw [htree]
      exact List.getElem?_eq_getElem hfound
    have hplace : seek_while (goes_past target bias) passed (walkAhead (!false) (entry :: stack)) =
        { passed := passed ++ before, rest := entry.ahead (entry.index + count) ++ ahead stack } := by
      change seek_while _ passed (entry.ahead entry.index ++ ahead stack) = _
      rw [hseek, hfirst, List.cons_append, seek_while, hitem, if_neg Bool.false_ne_true]
    rw [hplace]
    refine ⟨hpath.with_index _, rfl, hmoved, Or.inr ?_⟩
    change entry.index + count < entry.tree.items.length
    rw [htree]
    exact hfound
  | case5 ascending position entry stack summary items item_summaries htree count position' hpass hfound ih =>
    obtain ⟨height'', hentry⟩ := Node.Cursor.path_valid hvalid hpath
    have hascending : ascending = false := by
      cases ascending with
      | false => rfl
      | true =>
        have hleaf := htop entry rfl rfl
        rw [htree] at hleaf
        cases hleaf
    subst hascending hposition
    have hpass' : pass target bias (progress passed) (entry.tree.child_summaries.drop entry.index) =
        (count, position') := by
      rw [htree]
      exact hpass
    have hsummaries : item_summaries.length = items.length := by
      rw [htree] at hentry
      cases hentry
      exact List.length_map _
    obtain ⟨before, hahead, hmoved, hseek, hend, -⟩ := pass_ahead hentry entry.index hdown hpass'
    have hlast : entry.ahead (entry.index + count) = [] := by
      refine hend ?_
      rw [htree]
      exact hsummaries.trans_le (Nat.not_lt.mp hfound)
    change Downward _ passed (entry.ahead entry.index ++ ahead stack) at hdown
    change Arrives root (seek_while _ passed (entry.ahead entry.index ++ ahead stack)) _ _
    rw [hahead, hlast, List.append_nil] at hdown
    rw [hseek, hlast, List.nil_append, ← Node.Cursor.walkAhead_pop]
    refine ih hpath.of_cons (fun top htop _ => below_is_internal hpath top htop) hmoved ?_
    rw [Bool.not_true, Node.Cursor.walkAhead_pop]
    exact hdown.append

/-- A cursor of a tree is at a place among its items. -/
structure Located (tree : SumTree T S) (cursor : Seeker T S D) (place : Cursor T) : Prop where
  root : cursor.tree = tree.node
  did_seek : cursor.did_seek = true
  items : place.passed ++ place.rest = tree.items
  arrives : Arrives tree.node place cursor.position cursor.stack

variable {tree : SumTree T S} {cursor : Seeker T S D} {place : Cursor T}

omit [LawfulDimension D S] in
theorem Located.top (h : Located tree cursor place) :
    (cursor.stack = [] ∧ place.rest = []) ∨
      ∃ entry stack item rest, cursor.stack = entry :: stack ∧ place.rest = item :: rest ∧
        entry.tree.items[entry.index]? = some item ∧
        entry.tree.child_summaries[entry.index]? = some (Item.summary item) ∧ ∃ height, tree.node.Valid height := by
  obtain ⟨hpath, hrest, -, hat⟩ := h.arrives
  rcases hstack : cursor.stack with _ | ⟨entry, stack⟩
  · rw [hstack] at hrest
    exact Or.inl ⟨rfl, hrest.symm⟩
  · rw [hstack] at hpath hrest hat
    have hlt : entry.index < entry.tree.items.length := hat.resolve_left (List.cons_ne_nil _ _)
    have hne : tree.node.elements ≠ [] := by
      have helements := hpath.elements
      intro hnil
      rw [hnil] at helements
      have hentry := (List.append_eq_nil_iff.mp (List.append_eq_nil_iff.mp helements.symm).1).2
      rw [entry.tree.elements_eq] at hentry
      rw [(List.append_eq_nil_iff.mp hentry).2] at hlt
      exact Nat.not_lt_zero _ hlt
    obtain ⟨height, hvalid⟩ : ∃ height, tree.node.Valid height := by
      refine tree.valid.resolve_left ?_
      rintro ⟨summary, hnode⟩
      rw [hnode] at hne
      exact hne rfl
    obtain ⟨height', hentry⟩ := Node.Cursor.path_valid hvalid hpath
    obtain ⟨item, hitem⟩ : ∃ item, entry.tree.items[entry.index]? = some item := ⟨_, List.getElem?_eq_getElem hlt⟩
    refine Or.inr ⟨entry, stack, item, entry.ahead (entry.index + 1) ++ ahead stack, rfl, ?_, hitem, ?_, height, hvalid⟩
    · rw [← hrest]
      change entry.ahead entry.index ++ ahead stack = _
      cases htree : entry.tree with
      | Internal =>
        rw [htree] at hitem
        cases hitem
      | Leaf summary items item_summaries =>
        rw [htree] at hlt hitem
        obtain ⟨-, rfl⟩ := List.getElem?_eq_some_iff.mp hitem
        simp only [StackEntry.ahead, htree, Node.child_trees, Node.items, List.drop_nil, List.flatMap_nil,
          List.nil_append]
        change List.drop entry.index items ++ ahead stack = items[entry.index] :: _
        have hindex : entry.index < items.length := hlt
        rw [List.drop_eq_getElem_cons hindex, List.cons_append]
        rfl
    · generalize entry.tree = node at hentry hitem
      cases hentry with
      | @leaf items =>
        change (items.map Item.summary)[entry.index]? = _
        rw [List.getElem?_map]
        exact congrArg (Option.map Item.summary) hitem
      | internal => cases hitem

omit [LawfulDimension D S] in
theorem Located.item (h : Located tree cursor place) : cursor.item = place.item := by
  rcases h.top with ⟨hstack, hrest⟩ | ⟨entry, stack, item, rest, hstack, hrest, hitem, -, -⟩
  · rw [Seeker.item, Cursor.item, hstack, hrest]
    rfl
  · rw [Seeker.item, Cursor.item, hstack, hrest]
    exact hitem

omit [LawfulDimension D S] in
theorem Located.stop (h : Located tree cursor place) :
    cursor.stop = progress (place.passed ++ place.item.toList) := by
  rcases h.top with ⟨hstack, hrest⟩ | ⟨entry, stack, item, rest, hstack, hrest, -, hsummary, -⟩
  · rw [Seeker.stop, Seeker.item_summary, Cursor.item, hstack, hrest]
    simpa [start] using h.arrives.position
  · have hitem_summary : cursor.item_summary = some (Item.summary item) := by
      rw [Seeker.item_summary, hstack]
      exact hsummary
    rw [Seeker.stop, hitem_summary, Cursor.item, hrest, start, h.arrives.position, progress, progress]
    simp

theorem Located.seek_forward (h : Located tree cursor place) (target : D → Ordering) (bias : Bias)
    (hahead : target (progress place.passed) ≠ .lt) (hdown : Downward (goes_past target bias) place.passed place.rest) :
    ∃ hit cursor', cursor.seek_forward target bias = some (hit, cursor') ∧
      Located tree cursor' (seek_while (goes_past target bias) place.passed place.rest) := by
  have harrives : Arrives tree.node (seek_while (goes_past target bias) place.passed place.rest)
      (seek_loop target bias false cursor.position cursor.stack).1
      (seek_loop target bias false cursor.position cursor.stack).2 := by
    obtain ⟨hpath, hrest, hposition, -⟩ := h.arrives
    rcases h.top with ⟨hstack, hnil⟩ | ⟨entry, stack, item, rest, hstack, -, -, -, height, hvalid⟩
    · rw [hstack, hnil, seek_loop]
      exact ⟨trivial, rfl, hposition, Or.inl rfl⟩
    · rw [← hrest] at hdown ⊢
      exact seek_loop_spec hvalid hpath (fun _ _ hfalse => absurd hfalse Bool.false_ne_true) hposition hdown
  have hitems := (@seek_while_items _ (goes_past target bias) place.passed place.rest).trans h.items
  obtain ⟨root, stack, position, did_seek, at_end⟩ := cursor
  obtain rfl : root = tree.node := h.root
  obtain rfl : did_seek = true := h.did_seek
  have hposition : position = progress place.passed := h.arrives.position
  rw [Seeker.seek_forward, seek_internal, if_pos (by rw [hposition]; exact hahead)]
  exact ⟨_, _, rfl, ⟨rfl, rfl, hitems, harrives⟩⟩

theorem seek_located (hroot : cursor.tree = tree.node) (target : D → Ordering) (bias : Bias)
    (hahead : target Dimension.zero ≠ .lt) (hdown : Downward (goes_past target bias) [] tree.items) :
    ∃ hit cursor', cursor.seek target bias = some (hit, cursor') ∧
      Located tree cursor' (seek_while (goes_past target bias) [] tree.items) := by
  have harrives : Arrives tree.node (seek_while (goes_past target bias) [] tree.items)
      (seek_loop target bias false Dimension.zero [⟨tree.node, 0⟩]).1
      (seek_loop target bias false Dimension.zero [⟨tree.node, 0⟩]).2 := by
    have hwalk : walkAhead (!false) [(⟨tree.node, 0⟩ : StackEntry T S)] = tree.items := by
      change StackEntry.ahead ⟨tree.node, 0⟩ 0 ++ [] = _
      rw [List.append_nil, StackEntry.ahead_zero]
      rfl
    rcases tree.valid with ⟨summary, hnode⟩ | ⟨height, hvalid⟩
    · have hitems : tree.items = [] := by rw [SumTree.items, hnode, Node.elements_leaf]
      rw [hitems, hnode, seek_loop]
      simp only [List.drop_nil, pass, List.length_nil, Nat.not_lt_zero, if_false]
      rw [seek_loop]
      exact ⟨trivial, rfl, rfl, Or.inl rfl⟩
    · rw [← hwalk] at hdown ⊢
      exact seek_loop_spec hvalid rfl (fun _ _ hfalse => absurd hfalse Bool.false_ne_true) rfl hdown
  have hitems := @seek_while_items _ (goes_past target bias) [] tree.items
  rw [List.nil_append] at hitems
  have hstart : target (new tree.node : Seeker T S D).position ≠ .lt := hahead
  rw [seek, reset, hroot, seek_internal, if_pos hstart]
  exact ⟨_, _, rfl, ⟨rfl, rfl, hitems, harrives⟩⟩

end Seeker

end zed.sum_tree
