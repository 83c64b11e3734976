import Zed.SumTree.Tree.Build
import Zed.SumTree.Tree.Refine

namespace zed.sum_tree

variable {T S : Type} [Summary S] [Item T S]

/-- A call of a cursor. `next` and `prev` search with a filter that lets everything through. -/
inductive CursorCall (S : Type)
  | seek (target : Nat) (bias : Bias)
  | seek_forward (target : Nat) (bias : Bias)
  | search_forward (filter_node : S → Bool)
  | search_backward (filter_node : S → Bool)

/-- The filter of a call, if it has one, does not depend on how the items are cut into nodes. -/
def CursorCall.Filters : CursorCall S → Prop
  | .search_forward filter_node => LetsThrough filter_node
  | .search_backward filter_node => LetsThrough filter_node
  | _ => True

def Node.Cursor.call (len : S → Nat) (cursor : Node.Cursor T S) : CursorCall S → Option (Node.Cursor T S)
  | .seek target bias => (cursor.seek len target bias).map Prod.snd
  | .seek_forward target bias => (cursor.seek_forward len target bias).map Prod.snd
  | .search_forward filter_node => some (cursor.search_forward len filter_node)
  | .search_backward filter_node => some (cursor.search_backward len filter_node)

/-- Where a cursor is among some items. A `seek_forward` from before the first item strands it: it is then at the end
    with nothing passed. -/
inductive Spot (α : Type)
  | unused
  | before_first
  | among (place : Cursor α)
  | stranded

namespace Spot

section Model

variable {α : Type} (len : α → Nat) (through : α → Bool) (items : List α)

def item : Spot α → Option α
  | .among place => place.item
  | _ => none

def start : Spot α → Nat
  | .among place => place.start len
  | _ => 0

def stop : Spot α → Nat
  | .among place => place.stop len
  | _ => 0

def seek (target : Nat) (bias : Bias) : Spot α := .among ((Cursor.new items).slice len target bias).2

/-- Panics when the target lies behind. -/
def seek_forward (target : Nat) (bias : Bias) : Spot α → Option (Spot α)
  | .unused => some (seek len items target bias)
  | .among place => if place.start len ≤ target then some (.among (place.slice len target bias).2) else none
  | .before_first | .stranded => some .stranded

def search_forward : Spot α → Spot α
  | .unused | .before_first => .among ⟨items.takeWhile (!through ·), items.dropWhile (!through ·)⟩
  | .among place => .among (place.search_forward through)
  | .stranded => .stranded

/-- Back from a place to the last item that is let through. -/
def back_from (place : Cursor α) : Spot α :=
  match place.search_backward through with
  | some found => .among found
  | none => if items.isEmpty then .among place else .before_first

/-- A cursor that was not used or is stranded starts at the end. -/
def search_backward : Spot α → Spot α
  | .unused | .stranded => back_from through items ⟨items, []⟩
  | .among place => back_from through items place
  | .before_first => .before_first

end Model

def call (len : S → Nat) (items : List T) (spot : Spot T) : CursorCall S → Option (Spot T)
  | .seek target bias => some (seek (itemLen len) items target bias)
  | .seek_forward target bias => spot.seek_forward (itemLen len) items target bias
  | .search_forward filter_node => some (spot.search_forward (itemThrough filter_node) items)
  | .search_backward filter_node => some (spot.search_backward (itemThrough filter_node) items)

end Spot

namespace Node.Cursor

variable {len : S → Nat} {filter_node : S → Bool} {tree : SumTree T S} {cursor : Node.Cursor T S}

/-- A cursor of the tree is at a spot among its items. -/
def Stands (len : S → Nat) (tree : SumTree T S) (cursor : Node.Cursor T S) : Spot T → Prop
  | .unused => cursor = new tree.node
  | .before_first => Before tree cursor
  | .among place => Located len tree cursor place
  | .stranded => cursor = ⟨tree.node, [], 0, true, true⟩ ∧ tree.items ≠ []

theorem Stands.root {spot : Spot T} (h : Stands len tree cursor spot) : cursor.tree = tree.node := by
  cases spot with
  | unused => rw [show cursor = new tree.node from h]; rfl
  | before_first => exact Before.root h
  | among place => exact Located.root h
  | stranded => rw [h.1]

theorem Stands.shows {spot : Spot T} (h : Stands len tree cursor spot) :
    cursor.item = spot.item ∧ cursor.start = spot.start (itemLen len) ∧ cursor.stop len = spot.stop (itemLen len) := by
  cases spot with
  | unused =>
    obtain rfl : cursor = new tree.node := h
    exact ⟨rfl, rfl, rfl⟩
  | before_first =>
    obtain ⟨root, stack, position, did_seek, at_end⟩ := cursor
    obtain ⟨-, -, -, rfl, rfl, -⟩ := h
    exact ⟨rfl, rfl, rfl⟩
  | among place =>
    have hlocated : Located len tree cursor place := h
    exact ⟨hlocated.item, hlocated.position, hlocated.stop⟩
  | stranded =>
    obtain rfl := h.1
    exact ⟨rfl, rfl, rfl⟩

theorem is_empty_of_items (hitems : tree.items ≠ []) : tree.node.is_empty = false := by
  cases hnode : tree.node with
  | Internal => rfl
  | Leaf summary items item_summaries =>
    rw [SumTree.items, hnode, Node.elements_leaf] at hitems
    simpa [is_empty] using hitems

theorem is_empty_of_nil (hitems : tree.items = []) : tree.node.is_empty = true := by
  rcases tree.valid with ⟨summary, hnode⟩ | ⟨height, hvalid⟩
  · rw [hnode]
    rfl
  · exact absurd hitems hvalid.elements_ne_nil

theorem valid_of_items (hitems : tree.items ≠ []) : ∃ height, tree.node.Valid height := by
  refine tree.valid.resolve_left ?_
  rintro ⟨summary, hnode⟩
  rw [SumTree.items, hnode] at hitems
  exact hitems rfl

/-- A search that begins at the root of a tree. -/
theorem forward_root (hlen : Additive len) (hfilter : LetsThrough filter_node) {height : Nat}
    (hvalid : tree.node.Valid height) :
    let walked := forward len filter_node true 0 [{ tree := tree.node, index := 0, position := 0 }]
    Located len tree ⟨tree.node, walked.2, walked.1, true, walked.2.isEmpty⟩
      ⟨tree.items.takeWhile (!itemThrough filter_node ·), tree.items.dropWhile (!itemThrough filter_node ·)⟩ := by
  have hall : walkAhead true [(⟨tree.node, 0⟩ : StackEntry T S)] = tree.items := by
    have hstart : (⟨tree.node, 0⟩ : StackEntry T S).advance true = 0 := rfl
    rw [walkAhead, hstart, StackEntry.ahead_zero, ahead, List.flatMap_nil, List.append_nil]
    rfl
  have hstops := @forward_spec _ _ _ _ len filter_node _ _ hlen hfilter hvalid true 0
    [{ tree := tree.node, index := 0, position := 0 }] rfl trivial (by rintro _ ⟨⟩; exact fun _ => rfl) (by
      change 0 + ((walkAhead true [(⟨tree.node, 0⟩ : StackEntry T S)]).map _).sum = _
      rw [hall, Nat.zero_add]
      rfl)
  have hrest : (walkAhead true (toStack [({ tree := tree.node, index := 0, position := 0 } : CursorEntry T S)])) =
      tree.items := hall
  rw [hrest] at hstops
  exact located_of_stops hstops List.takeWhile_append_dropWhile

/-- The end of a tree, where a search back begins that has no place to begin at. -/
theorem at_the_end :
    Located len tree ⟨tree.node, [], (tree.items.map (itemLen len)).sum, true, true⟩ ⟨tree.items, []⟩ :=
  ⟨rfl, rfl, List.append_nil _, trivial, trivial, rfl, rfl, Or.inl rfl, rfl⟩

theorem stands_of_backward {place : sum_tree.Cursor T} {cursor' : Node.Cursor T S}
    (h : match place.search_backward (itemThrough filter_node) with
      | some place' => Located len tree cursor' place'
      | none => (tree.items = [] ∧ Located len tree cursor' place) ∨ Before tree cursor') :
    Stands len tree cursor' (Spot.back_from (itemThrough filter_node) tree.items place) := by
  unfold Spot.back_from
  cases hfound : place.search_backward (itemThrough filter_node) with
  | some found =>
    rw [hfound] at h
    exact h
  | none =>
    rw [hfound] at h
    rcases h with ⟨hnil, hlocated⟩ | hbefore
    · rw [hnil]
      exact hlocated
    · have hne : tree.items.isEmpty = false := List.isEmpty_eq_false_iff.mpr hbefore.items
      simp only [hne, Bool.false_eq_true, if_false]
      exact hbefore

theorem Stands.search_forward (hlen : Additive len) (hfilter : LetsThrough filter_node) {spot : Spot T}
    (h : Stands len tree cursor spot) :
    Stands len tree (cursor.search_forward len filter_node)
      (spot.search_forward (itemThrough filter_node) tree.items) := by
  cases spot with
  | unused =>
    obtain rfl : cursor = new tree.node := h
    by_cases hitems : tree.items = []
    · have hempty := is_empty_of_nil hitems
      simp only [Spot.search_forward, hitems, Node.Cursor.search_forward, new, hempty, List.isEmpty_nil, if_true, forward,
        Bool.or_true]
      exact ⟨rfl, rfl, hitems.symm, trivial, trivial, rfl, rfl, Or.inl rfl, rfl⟩
    · obtain ⟨height, hvalid⟩ := valid_of_items hitems
      simp only [Node.Cursor.search_forward, new, is_empty_of_items hitems, List.isEmpty_nil, if_true,
        Bool.false_eq_true, if_false, Bool.or_false]
      exact forward_root hlen hfilter hvalid
  | before_first =>
    have hitems := Before.items h
    obtain ⟨height, hvalid⟩ := valid_of_items hitems
    obtain ⟨root, stack, position, did_seek, at_end⟩ := cursor
    obtain ⟨rfl, rfl, -, rfl, rfl, rfl⟩ := h
    simp only [Node.Cursor.search_forward, List.isEmpty_nil, if_true, Bool.false_eq_true, if_false, Bool.or_false]
    exact forward_root hlen hfilter hvalid
  | among place => exact search_forward_located hlen hfilter h
  | stranded =>
    obtain ⟨rfl, hitems⟩ := h
    simp only [Node.Cursor.search_forward, List.isEmpty_nil, if_true, forward, Bool.or_true]
    exact ⟨rfl, hitems⟩

theorem Stands.search_backward (hlen : Additive len) (hfilter : LetsThrough filter_node) {spot : Spot T}
    (h : Stands len tree cursor spot) :
    Stands len tree (cursor.search_backward len filter_node)
      (spot.search_backward (itemThrough filter_node) tree.items) := by
  cases spot with
  | unused =>
    obtain rfl : cursor = new tree.node := h
    by_cases hitems : tree.items = []
    · have hempty := is_empty_of_nil hitems
      simp only [Spot.search_backward, hitems, Node.Cursor.search_backward, new, hempty, if_true, Bool.false_eq_true,
        if_false, backward]
      exact ⟨rfl, rfl, hitems.symm, trivial, trivial, rfl, rfl, Or.inl rfl, rfl⟩
    · have hback := search_backward_located hlen hfilter (@at_the_end _ _ _ _ len tree)
      exact stands_of_backward hback
  | before_first => exact Before.search_backward h
  | among place => exact stands_of_backward (search_backward_located hlen hfilter h)
  | stranded =>
    obtain ⟨rfl, -⟩ := h
    have hback := search_backward_located hlen hfilter (@at_the_end _ _ _ _ len tree)
    exact stands_of_backward hback

/-- A call of the cursor is a call among the items. -/
theorem Stands.call (hlen : Additive len) {spot : Spot T} (h : Stands len tree cursor spot) {call : CursorCall S}
    (hfilter : call.Filters) :
    Option.Rel (Stands len tree) (cursor.call len call) (spot.call len tree.items call) := by
  cases call with
  | seek target bias =>
    obtain ⟨hit, cursor', hseek, hlocated⟩ := seek_located hlen target bias h.root
    rw [Node.Cursor.call, hseek]
    exact .some hlocated
  | seek_forward target bias =>
    rw [Node.Cursor.call]
    cases spot with
    | unused =>
      obtain rfl : cursor = new tree.node := h
      obtain ⟨hit, cursor', hseek, hlocated⟩ :=
        @seek_located _ _ _ _ len tree (new tree.node) hlen target bias rfl
      rw [show (new tree.node).seek_forward len target bias = some (hit, cursor') from hseek]
      exact .some hlocated
    | before_first =>
      obtain ⟨root, stack, position, did_seek, at_end⟩ := cursor
      have hbefore : Before tree _ := h
      obtain ⟨rfl, rfl, hitems, rfl, rfl, rfl⟩ := hbefore
      rw [seek_forward, seek_internal, if_pos (Nat.zero_le target)]
      simp only [if_true, seek_loop, List.isEmpty_nil]
      exact .some ⟨rfl, hitems⟩
    | among place =>
      have hlocated : Located len tree cursor place := h
      by_cases htarget : place.start (itemLen len) ≤ target
      · obtain ⟨hit, cursor', hseek, hlocated'⟩ := @seek_internal_located _ _ _ _ len _ _ _ hlen target bias hlocated htarget
        rw [seek_forward, hseek]
        simp only [Spot.call, Spot.seek_forward, if_pos htarget]
        exact .some hlocated'
      · have hnot : ¬ cursor.position ≤ target := by rwa [hlocated.position]
        rw [seek_forward, seek_internal, if_neg hnot]
        simp only [Spot.call, Spot.seek_forward, if_neg htarget]
        exact .none
    | stranded =>
      obtain ⟨rfl, hitems⟩ := h
      rw [seek_forward, seek_internal, if_pos (Nat.zero_le target)]
      simp only [if_true, seek_loop, List.isEmpty_nil]
      exact .some ⟨rfl, hitems⟩
  | search_forward filter_node => exact .some (h.search_forward hlen hfilter)
  | search_backward filter_node => exact .some (h.search_backward hlen hfilter)

theorem Stands.calls (hlen : Additive len) {calls : List (CursorCall S)} (hfilters : ∀ call ∈ calls, call.Filters)
    {spot : Spot T} (h : Stands len tree cursor spot) :
    Option.Rel (Stands len tree) (calls.foldlM (Node.Cursor.call len) cursor)
      (calls.foldlM (Spot.call len tree.items) spot) := by
  induction calls generalizing cursor spot with
  | nil => exact .some h
  | cons call calls ih =>
    rw [List.foldlM_cons, List.foldlM_cons]
    have hcall := h.call hlen (hfilters call List.mem_cons_self)
    generalize cursor.call len call = after at hcall
    generalize spot.call len tree.items call = spot' at hcall
    cases hcall with
    | none => exact .none
    | some hafter => exact ih (fun other hother => hfilters other (List.mem_cons_of_mem _ hother)) hafter

end Node.Cursor

/-- The summary that the tests keep of integers. -/
structure IntegersSummary where
  count : Nat
  sum : Nat
  contains_even : Bool
  max : Nat

namespace IntegersSummary

instance : SummaryMonoid IntegersSummary where
  zero := ⟨0, 0, false, 0⟩
  add_summary self other :=
    ⟨self.count + other.count, self.sum + other.sum, self.contains_even || other.contains_even, Nat.max self.max other.max⟩
  zero_add_summary summary := by simp
  add_summary_assoc first second third := by simp [Nat.add_assoc, Bool.or_assoc, Nat.max_assoc]

instance : Item Nat IntegersSummary where
  summary item := ⟨1, item, item % 2 == 0, item⟩

theorem add_summaries (summaries : List IntegersSummary) (total : IntegersSummary) :
    (summaries.foldl Summary.add_summary total).count = total.count + (summaries.map count).sum ∧
      (summaries.foldl Summary.add_summary total).contains_even = (total.contains_even || summaries.any contains_even) := by
  induction summaries generalizing total with
  | nil => simp
  | cons summary summaries ih =>
    obtain ⟨hcount, heven⟩ := ih (Summary.add_summary total summary)
    rw [List.foldl_cons, hcount, heven]
    simp [Summary.add_summary, Nat.add_assoc, Bool.or_assoc]

end IntegersSummary

end zed.sum_tree
