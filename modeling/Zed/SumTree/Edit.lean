import Zed.SumTree.Cursor

namespace zed.sum_tree

variable {T K : Type} [LinearOrder K] [KeyedItem T K]

/-- The locals of `SumTree::edit` between two edits. -/
structure EditState (T : Type) where
  new_tree : List T
  buffered_items : List T
  cursor : Cursor T
  removed : List T

namespace EditState

def advance (new_key : K) (state : EditState T) : EditState T :=
  match state.cursor.item with
  | none => state
  | some old_item =>
    if key old_item < new_key then
      let (slice, cursor) := state.cursor.slice_while fun x => decide (key x < new_key)
      { state with new_tree := state.new_tree ++ state.buffered_items ++ slice, buffered_items := [], cursor }
    else state

def remove (new_key : K) (state : EditState T) : EditState T :=
  match state.cursor.item with
  | none => state
  | some old_item =>
    if key old_item = new_key then
      { state with removed := state.removed ++ [old_item], cursor := state.cursor.next }
    else state

/-- One round of the loop of `SumTree::edit`. -/
def apply (state : EditState T) (edit : Edit T K) : EditState T :=
  let state := (state.advance edit.key).remove edit.key
  match edit with
  | .Insert item => { state with buffered_items := state.buffered_items ++ [item] }
  | .Remove _ => state

/-- What the new tree has so far, once its buffer is flushed. -/
def built (state : EditState T) : List T := state.new_tree ++ state.buffered_items

end EditState

/-- `SumTree::edit`: the tree it leaves, and the items it returns. The cursor
    starts at the zero of the keys. -/
def SumTree.edit [OrderBot K] (items : List T) (edits : List (Edit T K)) : List T × List T :=
  if edits.isEmpty then (items, [])
  else
    let start : EditState T :=
      { new_tree := []
        buffered_items := []
        cursor := ((Cursor.new items).slice_while fun x => decide (key x < (⊥ : K))).2
        removed := [] }
    let state := (edits.insertionSort fun x y => x.key ≤ y.key).foldl EditState.apply start
    (state.new_tree ++ state.buffered_items ++ state.cursor.suffix, state.removed)

namespace EditState

/-- The items at the key among those that the cursor finds past the lesser ones. -/
def found (k : K) (rest : List T) : List T :=
  (rest.dropWhile fun x => decide (key x < k)).head?.toList.filter fun x => decide (key x = k)

theorem advance_built (k : K) (state : EditState T) :
    (state.advance k).built = state.built ++ state.cursor.rest.takeWhile fun x => decide (key x < k) := by
  unfold advance
  cases hrest : state.cursor.rest with
  | nil => simp [Cursor.item, hrest]
  | cons x rest =>
    by_cases hx : key x < k
    · simp [Cursor.item, Cursor.slice_while, built, hrest, hx]
    · simp [Cursor.item, hrest, hx]

theorem advance_rest (k : K) (state : EditState T) :
    (state.advance k).cursor.rest = state.cursor.rest.dropWhile fun x => decide (key x < k) := by
  unfold advance
  cases hrest : state.cursor.rest with
  | nil => simp [Cursor.item, hrest]
  | cons x rest =>
    by_cases hx : key x < k
    · simp [Cursor.item, Cursor.slice_while, hrest, hx]
    · simp [Cursor.item, hrest, hx]

theorem advance_removed (k : K) (state : EditState T) : (state.advance k).removed = state.removed := by
  unfold advance
  split
  · rfl
  · split <;> rfl

theorem remove_built (k : K) (state : EditState T) : (state.remove k).built = state.built := by
  unfold remove
  split
  · rfl
  · split <;> rfl

theorem remove_rest (k : K) (state : EditState T) :
    (state.remove k).cursor.rest = skip_key k state.cursor.rest := by
  unfold remove
  cases hrest : state.cursor.rest with
  | nil => simp [Cursor.item, hrest, skip_key]
  | cons x rest =>
    by_cases hx : key x = k
    · simp [Cursor.item, Cursor.next, hrest, hx, skip_key]
    · simp [Cursor.item, hrest, hx, skip_key]

theorem remove_removed (k : K) (state : EditState T) :
    (state.remove k).removed =
      state.removed ++ state.cursor.rest.head?.toList.filter fun x => decide (key x = k) := by
  unfold remove
  cases hrest : state.cursor.rest with
  | nil => simp [Cursor.item, hrest]
  | cons x rest =>
    by_cases hx : key x = k
    · simp [Cursor.item, hrest, hx]
    · simp [Cursor.item, hrest, hx]

/-- What one edit does: the lesser old items and its own item are built, and an
    old item at its key moves to the removed ones. -/
theorem apply_spec (state : EditState T) (edit : Edit T K) :
    (state.apply edit).built = state.built ++
        state.cursor.rest.takeWhile (fun x => decide (key x < edit.key)) ++ edit.items ∧
      (state.apply edit).cursor.rest =
        skip_key edit.key (state.cursor.rest.dropWhile fun x => decide (key x < edit.key)) ∧
      (state.apply edit).removed = state.removed ++ found edit.key state.cursor.rest := by
  have hbuilt := (remove_built edit.key (state.advance edit.key)).trans (advance_built _ _)
  have hrest := remove_rest edit.key (state.advance edit.key)
  have hremoved := remove_removed edit.key (state.advance edit.key)
  rw [advance_rest] at hrest hremoved
  rw [advance_removed] at hremoved
  cases edit with
  | Insert item =>
    refine ⟨?_, hrest, hremoved⟩
    rw [← hbuilt]
    exact (List.append_assoc ..).symm
  | Remove k =>
    refine ⟨?_, hrest, hremoved⟩
    rw [← hbuilt]
    exact (List.append_nil _).symm

theorem foldl_apply_built (edits : List (Edit T K)) (state : EditState T) :
    (edits.foldl apply state).built ++ (edits.foldl apply state).cursor.rest =
      state.built ++ edit_loop edits state.cursor.rest := by
  induction edits generalizing state with
  | nil => rfl
  | cons edit edits ih =>
    obtain ⟨hbuilt, hrest, -⟩ := apply_spec state edit
    rw [List.foldl_cons, ih, hbuilt, hrest, edit_loop]
    simp only [List.append_assoc]

theorem filter_cons_keys {items : List T} (hitems : Sorted items) (k : K) {keys : List K}
    (hkeys : ∀ other ∈ keys, k < other) :
    items.filter (fun x => decide (key x ∈ k :: keys)) =
      found k items ++ (skip_key k (items.dropWhile fun x => decide (key x < k))).filter
        fun x => decide (key x ∈ keys) := by
  have hsplit := List.takeWhile_append_dropWhile (p := fun x : T => decide (key x < k)) (l := items)
  have hbefore : (items.takeWhile fun x => decide (key x < k)).filter
      (fun x => decide (key x ∈ k :: keys)) = [] := by
    rw [List.filter_eq_nil_iff]
    intro x hx hmem
    have hlt := (hitems.mem_takeWhile.mp hx).2
    rcases List.mem_cons.mp (of_decide_eq_true hmem) with heq | hmem
    · exact hlt.ne heq
    · exact (hlt.trans (hkeys _ hmem)).ne rfl
  -- above the key only the later keys are left to match
  have habove : ∀ rest : List T, (∀ x ∈ rest, k < key x) →
      rest.filter (fun x => decide (key x ∈ k :: keys)) = rest.filter fun x => decide (key x ∈ keys) := by
    intro rest hrest
    refine List.filter_congr fun x hx => ?_
    have hne : key x ≠ k := (hrest x hx).ne'
    simp [hne]
  have hdrop : Sorted (items.dropWhile fun x => decide (key x < k)) :=
    hitems.sublist (List.dropWhile_sublist _)
  have hge : ∀ x ∈ items.dropWhile (fun y => decide (key y < k)), k ≤ key x :=
    fun x hx => (hitems.mem_dropWhile.mp hx).2
  conv_lhs => rw [← hsplit]
  rw [List.filter_append, hbefore, List.nil_append, found]
  generalize items.dropWhile (fun x => decide (key x < k)) = rest at hdrop hge
  cases rest with
  | nil => rfl
  | cons x rest =>
    have hfrom : ∀ y ∈ rest, k < key y := fun y hy => (hge x List.mem_cons_self).trans_lt (hdrop.head_lt hy)
    by_cases hx : key x = k
    · rw [skip_key_cons, if_pos hx, List.filter_cons_of_pos (by simp [hx]), habove rest hfrom]
      simp [hx]
    · have hlt : k < key x := lt_of_le_of_ne (hge x List.mem_cons_self) (Ne.symm hx)
      rw [skip_key_cons, if_neg hx, habove (x :: rest) fun y hy => by
        rcases List.mem_cons.mp hy with rfl | hy
        · exact hlt
        · exact hfrom y hy]
      simp [hx]

theorem foldl_apply_removed (edits : List (Edit T K)) (state : EditState T)
    (hedits : edits.Pairwise fun x y => x.key < y.key) (hrest : Sorted state.cursor.rest) :
    (edits.foldl apply state).removed =
      state.removed ++ state.cursor.rest.filter fun x => decide (key x ∈ edits.map Edit.key) := by
  induction edits generalizing state with
  | nil => simp
  | cons edit edits ih =>
    obtain ⟨hfirst, hlater⟩ := List.pairwise_cons.mp hedits
    obtain ⟨-, hcursor, hremoved⟩ := apply_spec state edit
    have hsorted : Sorted (state.apply edit).cursor.rest := by
      rw [hcursor]
      exact (hrest.sublist (List.dropWhile_sublist _)).skip_key edit.key
    have hkeys : ∀ other ∈ edits.map Edit.key, edit.key < other := by
      intro other hother
      obtain ⟨later, hmem, rfl⟩ := List.mem_map.mp hother
      exact hfirst later hmem
    rw [List.foldl_cons, ih _ hlater hsorted, hremoved, hcursor, List.map_cons,
      filter_cons_keys hrest edit.key hkeys, List.append_assoc]

theorem insertionSort_lt {edits : List (Edit T K)} (hkeys : (edits.map Edit.key).Nodup) :
    (edits.insertionSort fun x y => x.key ≤ y.key).Pairwise fun x y => x.key < y.key := by
  have hperm := List.perm_insertionSort (fun x y : Edit T K => x.key ≤ y.key) edits
  have hnodup := ((hperm.map Edit.key).nodup_iff).mpr hkeys
  rw [List.Nodup, List.pairwise_map] at hnodup
  have hle := @List.pairwise_insertionSort _ (fun x y : Edit T K => x.key ≤ y.key) _
    ⟨fun x y => le_total x.key y.key⟩ ⟨fun _ _ _ => le_trans⟩ edits
  exact (hle.and hnodup).imp fun h => lt_of_le_of_ne h.1 h.2

end EditState

section

variable [OrderBot K]

theorem slice_while_bot (items : List T) :
    ((Cursor.new items).slice_while fun x => decide (key x < (⊥ : K))).2.rest = items := by
  simp [Cursor.new, Cursor.slice_while]

theorem SumTree.edit_fst (items : List T) (edits : List (Edit T K)) :
    (SumTree.edit items edits).1 = sum_tree.edit items edits := by
  cases edits with
  | nil => rfl
  | cons first edits =>
    unfold SumTree.edit
    have hrun := EditState.foldl_apply_built ((first :: edits).insertionSort fun x y => x.key ≤ y.key)
      { new_tree := []
        buffered_items := []
        cursor := ((Cursor.new items).slice_while fun x => decide (key x < (⊥ : K))).2
        removed := [] }
    rw [slice_while_bot] at hrun
    exact hrun

theorem SumTree.edit_snd {items : List T} {edits : List (Edit T K)} (hitems : Sorted items)
    (hkeys : (edits.map Edit.key).Nodup) :
    (SumTree.edit items edits).2 = items.filter fun x => decide (key x ∈ edits.map Edit.key) := by
  cases edits with
  | nil => simp [SumTree.edit]
  | cons first edits =>
    have hsorted := EditState.insertionSort_lt hkeys
    have hrun := EditState.foldl_apply_removed ((first :: edits).insertionSort fun x y => x.key ≤ y.key)
      { new_tree := []
        buffered_items := []
        cursor := ((Cursor.new items).slice_while fun x => decide (key x < (⊥ : K))).2
        removed := [] } hsorted (by rw [slice_while_bot]; exact hitems)
    rw [slice_while_bot] at hrun
    refine (hrun.trans (List.nil_append _)).trans (List.filter_congr fun x _ => decide_eq_decide.mpr ?_)
    have hperm := List.perm_insertionSort (fun x y : Edit T K => x.key ≤ y.key) (first :: edits)
    exact (hperm.map Edit.key).mem_iff

/-- A batch of edits with pairwise distinct keys, in any order, merges into a tree
    of strictly increasing keys: the old items that the batch does not name stay,
    the inserted ones come in, and the old ones it names are returned, all in the
    order of their keys. -/
theorem SumTree.edit_merges {items : List T} {edits : List (Edit T K)} (hitems : Sorted items)
    (hkeys : (edits.map Edit.key).Nodup) :
    Sorted (SumTree.edit items edits).1 ∧
      (∀ x, x ∈ (SumTree.edit items edits).1 ↔
        Edit.Insert x ∈ edits ∨ x ∈ items ∧ ∀ edit ∈ edits, edit.key ≠ key x) ∧
      Sorted (SumTree.edit items edits).2 ∧
      (SumTree.edit items edits).2 = items.filter fun x => decide (key x ∈ edits.map Edit.key) := by
  obtain ⟨hsorted, hmem⟩ := edit_spec hkeys hitems
  have hremoved := SumTree.edit_snd hitems hkeys
  rw [SumTree.edit_fst]
  refine ⟨hsorted, hmem, ?_, hremoved⟩
  rw [hremoved]
  exact hitems.sublist List.filter_sublist

end

theorem SumTree.edit_merges_sample :
    (@SumTree.edit Nat Nat _ ⟨id⟩ _ [2, 4, 6] [.Remove 6, .Insert 5, .Insert 2, .Remove 3]) =
        ([2, 4, 5], [2, 6]) ∧
      @Sorted Nat Nat _ ⟨id⟩
        (@SumTree.edit Nat Nat _ ⟨id⟩ _ [2, 4, 6] [.Remove 6, .Insert 5, .Insert 2, .Remove 3]).1 := by
  let _ : KeyedItem Nat Nat := ⟨id⟩
  have hitems : Sorted [2, 4, 6] := by
    unfold Sorted
    decide
  exact ⟨by decide, (SumTree.edit_merges hitems (by decide)).1⟩

end zed.sum_tree
