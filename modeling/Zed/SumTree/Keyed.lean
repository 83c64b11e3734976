import Mathlib

namespace zed.sum_tree

inductive Bias
  | Left
  | Right
deriving DecidableEq, Repr

/-- An item whose summary has a specific key that can be used to identify it. -/
class KeyedItem (T : Type) (K : outParam Type) where
  key : T → K

export KeyedItem (key)

inductive Edit (T K : Type)
  | Insert (item : T)
  | Remove (key : K)

variable {T K : Type} [LinearOrder K] [KeyedItem T K]

def Edit.key : Edit T K → K
  | .Insert item => KeyedItem.key item
  | .Remove key => key

/-- What an edit leaves in the tree at its own key. -/
def Edit.items : Edit T K → List T
  | .Insert item => [item]
  | .Remove _ => []

/-- The sequence of a keyed tree whose keys increase strictly. -/
def Sorted (items : List T) : Prop := items.Pairwise fun x y => key x < key y

/-- `cursor.next()` when the cursor's item carries the given key. -/
def skip_key (k : K) : List T → List T
  | [] => []
  | x :: rest => if key x = k then rest else x :: rest

/-- The loop of `SumTree::edit` over edits sorted by key. The argument is what
    the cursor has not passed yet. -/
def edit_loop : List (Edit T K) → List T → List T
  | [], rest => rest
  | edit :: edits, rest =>
    rest.takeWhile (fun x => decide (key x < edit.key)) ++ edit.items ++
      edit_loop edits (skip_key edit.key (rest.dropWhile fun x => decide (key x < edit.key)))

def edit (items : List T) (edits : List (Edit T K)) : List T :=
  edit_loop (edits.insertionSort fun x y => x.key ≤ y.key) items

def insert_or_replace (items : List T) (item : T) : List T :=
  items.takeWhile (fun x => decide (key x < key item)) ++
    item :: skip_key (key item) (items.dropWhile fun x => decide (key x < key item))

/-- Only returns the item that exactly has the target key. -/
def get (items : List T) (k : K) : Option T := items.find? fun x => decide (key x = k)

/-- The first item whose key is past the target, with the item before it. -/
def find_with_prev_from (target : K) (bias : Bias) : Option T → List T → Option (Option T × T)
  | _, [] => none
  | prev, x :: rest =>
    if target < key x ∨ target = key x ∧ bias = .Left then some (prev, x)
    else find_with_prev_from target bias (some x) rest

def find_with_prev (items : List T) (target : K) (bias : Bias) : Option (Option T × T) :=
  find_with_prev_from target bias none items

theorem Sorted.tail {x : T} {rest : List T} (h : Sorted (x :: rest)) : Sorted rest :=
  (List.pairwise_cons.mp h).2

theorem Sorted.head_lt {x y : T} {rest : List T} (h : Sorted (x :: rest)) (hy : y ∈ rest) :
    key x < key y :=
  (List.pairwise_cons.mp h).1 y hy

theorem Sorted.eq_of_key_eq {items : List T} (h : Sorted items) {x y : T} (hx : x ∈ items)
    (hy : y ∈ items) (hkey : key x = key y) : x = y := by
  induction items with
  | nil => cases hx
  | cons z rest ih =>
    rcases List.mem_cons.mp hx with rfl | hxrest
    · rcases List.mem_cons.mp hy with rfl | hyrest
      · rfl
      · exact absurd hkey (h.head_lt hyrest).ne
    · rcases List.mem_cons.mp hy with rfl | hyrest
      · exact absurd hkey (h.head_lt hxrest).ne'
      · exact ih h.tail hxrest hyrest

theorem Sorted.sublist {items rest : List T} (h : Sorted items) (hsub : rest.Sublist items) :
    Sorted rest :=
  List.Pairwise.sublist hsub h

theorem Sorted.takeWhile_eq_filter {items : List T} (h : Sorted items) {before : T → Bool}
    (hdown : ∀ x y, key x < key y → before y = true → before x = true) :
    items.takeWhile before = items.filter before := by
  induction items with
  | nil => rfl
  | cons x rest ih =>
    by_cases hx : before x = true
    · rw [List.takeWhile_cons_of_pos hx, List.filter_cons_of_pos hx, ih h.tail]
    · rw [List.takeWhile_cons_of_neg hx, List.filter_cons_of_neg hx, eq_comm, List.filter_eq_nil_iff]
      exact fun y hy hbefore => hx (hdown x y (h.head_lt hy) hbefore)

theorem Sorted.dropWhile_eq_filter {items : List T} (h : Sorted items) {before : T → Bool}
    (hdown : ∀ x y, key x < key y → before y = true → before x = true) :
    items.dropWhile before = items.filter fun x => !before x := by
  induction items with
  | nil => rfl
  | cons x rest ih =>
    by_cases hx : before x = true
    · rw [List.dropWhile_cons_of_pos hx, List.filter_cons_of_neg (by simpa using hx), ih h.tail]
    · rw [List.dropWhile_cons_of_neg hx, List.filter_cons_of_pos (by simpa using hx), eq_comm,
        List.cons_inj_right, List.filter_eq_self]
      intro y hy
      have hnot : ¬ before y = true := fun hbefore => hx (hdown x y (h.head_lt hy) hbefore)
      simpa using hnot

private theorem below_down {k : K} (x y : T) (hlt : key x < key y) (hy : decide (key y < k) = true) :
    decide (key x < k) = true :=
  decide_eq_true (hlt.trans (of_decide_eq_true hy))

theorem Sorted.mem_dropWhile {items : List T} (h : Sorted items) {k : K} {x : T} :
    x ∈ items.dropWhile (fun y => decide (key y < k)) ↔ x ∈ items ∧ k ≤ key x := by
  rw [h.dropWhile_eq_filter below_down]
  simp

theorem Sorted.mem_takeWhile {items : List T} (h : Sorted items) {k : K} {x : T} :
    x ∈ items.takeWhile (fun y => decide (key y < k)) ↔ x ∈ items ∧ key x < k := by
  rw [h.takeWhile_eq_filter below_down]
  simp

theorem skip_key_cons (k : K) (x : T) (rest : List T) :
    skip_key k (x :: rest) = if key x = k then rest else x :: rest := rfl

theorem Sorted.skip_key {items : List T} (h : Sorted items) (k : K) : Sorted (skip_key k items) := by
  cases items with
  | nil => exact h
  | cons x rest =>
    rw [skip_key_cons]
    split
    · exact h.tail
    · exact h

theorem Sorted.mem_skip_key {items : List T} (h : Sorted items) {k : K}
    (hge : ∀ x ∈ items, k ≤ key x) {x : T} :
    x ∈ sum_tree.skip_key k items ↔ x ∈ items ∧ k < key x := by
  cases items with
  | nil => simp [sum_tree.skip_key]
  | cons y rest =>
    rw [skip_key_cons]
    by_cases hy : key y = k
    · rw [if_pos hy]
      constructor
      · intro hx
        exact ⟨List.mem_cons_of_mem _ hx, by rw [← hy]; exact h.head_lt hx⟩
      · rintro ⟨hx, hk⟩
        rcases List.mem_cons.mp hx with rfl | hx
        · exact absurd hy hk.ne'
        · exact hx
    · rw [if_neg hy]
      constructor
      · intro hx
        refine ⟨hx, ?_⟩
        rcases List.mem_cons.mp hx with rfl | hx'
        · exact lt_of_le_of_ne (hge _ List.mem_cons_self) (Ne.symm hy)
        · exact lt_of_le_of_lt (hge _ List.mem_cons_self) (h.head_lt hx')
      · exact fun hx => hx.1

omit [LinearOrder K] in
theorem edit_items_key {edit : Edit T K} {x : T} (h : x ∈ edit.items) :
    edit = .Insert x ∧ key x = edit.key := by
  cases edit with
  | Insert item =>
    have heq : x = item := by simpa [Edit.items] using h
    subst heq
    exact ⟨rfl, rfl⟩
  | Remove k => simp [Edit.items] at h

omit [LinearOrder K] in
theorem mem_flatMap_items {edits : List (Edit T K)} {x : T} :
    x ∈ edits.flatMap Edit.items ↔ Edit.Insert x ∈ edits := by
  rw [List.mem_flatMap]
  constructor
  · rintro ⟨edit, hedit, hx⟩
    rwa [(edit_items_key hx).1] at hedit
  · exact fun h => ⟨_, h, by simp [Edit.items]⟩

/-- Merging sorted edits into a sorted sequence inserts the new items, drops
    every old item whose key is edited, and keeps the others in order. A key may
    be edited several times as long as one item at most is inserted at it. -/
theorem edit_loop_spec (edits : List (Edit T K)) (items : List T)
    (hedits : edits.Pairwise fun x y => x.key ≤ y.key)
    (hinserts : ((edits.flatMap Edit.items).map key).Nodup) (hitems : Sorted items) :
    Sorted (edit_loop edits items) ∧
      ∀ x, x ∈ edit_loop edits items ↔
        Edit.Insert x ∈ edits ∨ x ∈ items ∧ ∀ edit ∈ edits, edit.key ≠ key x := by
  induction edits generalizing items with
  | nil => exact ⟨hitems, by simp [edit_loop]⟩
  | cons edit edits ih =>
    obtain ⟨hfirst, hrest⟩ := List.pairwise_cons.mp hedits
    rw [List.flatMap_cons, List.map_append, List.nodup_append] at hinserts
    obtain ⟨-, hinsertsRest, hapart⟩ := hinserts
    have hdrop : Sorted (items.dropWhile fun y => decide (key y < edit.key)) :=
      hitems.sublist (List.dropWhile_sublist _)
    have hge : ∀ y ∈ items.dropWhile (fun y => decide (key y < edit.key)), edit.key ≤ key y :=
      fun y hy => (hitems.mem_dropWhile.mp hy).2
    have hskip := hdrop.skip_key edit.key
    obtain ⟨hsorted, hmem⟩ := ih _ hrest hinsertsRest hskip
    have hfrom : ∀ y, y ∈ edit_loop edits (skip_key edit.key
        (items.dropWhile fun y => decide (key y < edit.key))) → edit.key ≤ key y := by
      intro y hy
      rcases (hmem y).mp hy with hy | ⟨hy, _⟩
      · exact hfirst _ hy
      · exact ((hdrop.mem_skip_key hge).mp hy).2.le
    have habove : ∀ x ∈ edit.items, ∀ y, y ∈ edit_loop edits (skip_key edit.key
        (items.dropWhile fun y => decide (key y < edit.key))) → key x < key y := by
      intro x hx y hy
      have hkey := (edit_items_key hx).2
      rcases (hmem y).mp hy with hins | ⟨hy, _⟩
      · refine lt_of_le_of_ne (hkey ▸ hfirst _ hins) ?_
        exact hapart _ (List.mem_map_of_mem hx) _
          (List.mem_map_of_mem (mem_flatMap_items.mpr hins))
      · rw [hkey]
        exact ((hdrop.mem_skip_key hge).mp hy).2
    constructor
    · unfold edit_loop Sorted
      rw [List.append_assoc, List.pairwise_append, List.pairwise_append]
      refine ⟨hitems.sublist (List.takeWhile_sublist _), ⟨?_, hsorted, habove⟩, ?_⟩
      · cases edit <;> simp [Edit.items]
      · intro x hx y hy
        have hlt := (hitems.mem_takeWhile.mp hx).2
        rcases List.mem_append.mp hy with hy | hy
        · rwa [(edit_items_key hy).2]
        · exact hlt.trans_le (hfrom y hy)
    · intro x
      unfold edit_loop
      rw [List.mem_append, List.mem_append, hmem, hdrop.mem_skip_key hge,
        hitems.mem_takeWhile, hitems.mem_dropWhile, List.mem_cons]
      constructor
      · rintro ((⟨hx, hlt⟩ | hx) | hx | ⟨⟨⟨hx, _⟩, hgt⟩, hne⟩)
        · refine Or.inr ⟨hx, fun other hother => ?_⟩
          rcases List.mem_cons.mp hother with rfl | hother
          · exact hlt.ne'
          · exact (hlt.trans_le (hfirst _ hother)).ne'
        · exact Or.inl (Or.inl (edit_items_key hx).1.symm)
        · exact Or.inl (Or.inr hx)
        · refine Or.inr ⟨hx, fun other hother => ?_⟩
          rcases List.mem_cons.mp hother with rfl | hother
          · exact hgt.ne
          · exact hne _ hother
      · rintro ((heq | hx) | ⟨hx, hne⟩)
        · subst heq
          exact Or.inl (Or.inr (by simp [Edit.items]))
        · exact Or.inr (Or.inl hx)
        · have hkey := hne edit List.mem_cons_self
          rcases lt_or_gt_of_ne hkey with hlt | hgt
          · exact Or.inr (Or.inr ⟨⟨⟨hx, hlt.le⟩, hlt⟩, fun other hother => hne other (List.mem_cons_of_mem _ hother)⟩)
          · exact Or.inl (Or.inl ⟨hx, hgt⟩)

private theorem insertionSort_le (edits : List (Edit T K)) :
    (edits.insertionSort fun x y => x.key ≤ y.key).Pairwise fun x y => x.key ≤ y.key :=
  @List.pairwise_insertionSort _ (fun x y : Edit T K => x.key ≤ y.key) _
    ⟨fun x y => le_total x.key y.key⟩ ⟨fun _ _ _ => le_trans⟩ edits

/-- `SumTree::edit` with the edits in any order, and several at one key: whichever of
    them the sort puts first, the item inserted there stays. -/
theorem edit_batch_spec {items : List T} {edits : List (Edit T K)}
    (hinserts : ((edits.flatMap Edit.items).map key).Nodup) (hitems : Sorted items) :
    Sorted (edit items edits) ∧
      ∀ x, x ∈ edit items edits ↔
        Edit.Insert x ∈ edits ∨ x ∈ items ∧ ∀ edit ∈ edits, edit.key ≠ key x := by
  have hperm := List.perm_insertionSort (fun x y : Edit T K => x.key ≤ y.key) edits
  have hsortedInserts := (((hperm.flatMap_right Edit.items).map key).nodup_iff).mpr hinserts
  obtain ⟨hsorted, hmem⟩ := edit_loop_spec _ items (insertionSort_le edits) hsortedInserts hitems
  refine ⟨hsorted, fun x => ?_⟩
  rw [edit, hmem]
  simp only [List.mem_insertionSort]

omit [LinearOrder K] in
private theorem inserts_nodup {edits : List (Edit T K)} (hkeys : (edits.map Edit.key).Nodup) :
    ((edits.flatMap Edit.items).map key).Nodup := by
  refine hkeys.sublist ?_
  induction edits with
  | nil => exact List.nil_sublist _
  | cons edit edits ih =>
    have hrest := ih (List.nodup_cons.mp hkeys).2
    cases edit with
    | Insert item => exact List.Sublist.cons_cons _ hrest
    | Remove k => exact List.Sublist.cons _ hrest

theorem edit_spec {items : List T} {edits : List (Edit T K)} (hkeys : (edits.map Edit.key).Nodup)
    (hitems : Sorted items) :
    Sorted (edit items edits) ∧
      ∀ x, x ∈ edit items edits ↔
        Edit.Insert x ∈ edits ∨ x ∈ items ∧ ∀ edit ∈ edits, edit.key ≠ key x :=
  edit_batch_spec (inserts_nodup hkeys) hitems

theorem edit_insert_spec {items new : List T} (hkeys : (new.map key).Nodup) (hitems : Sorted items) :
    Sorted (edit items (new.map Edit.Insert)) ∧
      ∀ x, x ∈ edit items (new.map Edit.Insert) ↔
        x ∈ new ∨ x ∈ items ∧ ∀ item ∈ new, key item ≠ key x := by
  have hedits : ((new.map Edit.Insert).map Edit.key).Nodup := by
    rw [List.map_map]
    exact hkeys
  obtain ⟨hsorted, hmem⟩ := edit_spec hedits hitems
  refine ⟨hsorted, fun x => ?_⟩
  rw [hmem, List.forall_mem_map, List.mem_map_of_injective fun _ _ => Edit.Insert.inj]
  rfl

theorem edit_loop_sublist (edits : List (Edit T K)) (items : List T) :
    (edits.flatMap Edit.items).Sublist (edit_loop edits items) := by
  induction edits generalizing items with
  | nil => exact List.nil_sublist _
  | cons edit edits ih =>
    rw [List.flatMap_cons, edit_loop, List.append_assoc]
    exact List.sublist_append_of_sublist_right ((ih _).append_left edit.items)

/-- The merge never compares two new items with each other, so a batch that repeats
    a key leaves both. -/
theorem nodup_of_edit_sorted {items new : List T} (h : Sorted (edit items (new.map Edit.Insert))) :
    (new.map key).Nodup := by
  have hsub := h.sublist (edit_loop_sublist _ items)
  have hperm := (List.perm_insertionSort (fun x y : Edit T K => x.key ≤ y.key)
    (new.map Edit.Insert)).flatMap_right Edit.items
  have hnew : (new.map Edit.Insert).flatMap (Edit.items (T := T) (K := K)) = new := by
    rw [List.flatMap_map]
    exact List.flatMap_singleton' new
  rw [hnew] at hperm
  rw [← (hperm.map key).nodup_iff, List.Nodup, List.pairwise_map]
  exact hsub.imp fun hlt => hlt.ne

theorem insert_or_replace_eq_edit_loop (items : List T) (item : T) :
    insert_or_replace items item = edit_loop [.Insert item] items := by
  rw [insert_or_replace, edit_loop, edit_loop, List.append_assoc]
  rfl

theorem insert_or_replace_sorted {items : List T} (hitems : Sorted items) (item : T) :
    Sorted (insert_or_replace items item) := by
  rw [insert_or_replace_eq_edit_loop]
  exact (edit_loop_spec _ items (by simp) (by simp [Edit.items]) hitems).1

theorem mem_insert_or_replace {items : List T} (hitems : Sorted items) {item x : T} :
    x ∈ insert_or_replace items item ↔ x = item ∨ x ∈ items ∧ key item ≠ key x := by
  rw [insert_or_replace_eq_edit_loop, (edit_loop_spec _ items (by simp) (by simp [Edit.items]) hitems).2]
  simp [Edit.key]

theorem get_eq_some_iff {items : List T} (hitems : Sorted items) {k : K} {x : T} :
    get items k = some x ↔ x ∈ items ∧ key x = k := by
  unfold get
  constructor
  · intro h
    exact ⟨List.mem_of_find?_eq_some h, by simpa using List.find?_some h⟩
  · rintro ⟨hx, hkey⟩
    cases hfind : items.find? (fun y => decide (key y = k)) with
    | none =>
      have := List.find?_eq_none.mp hfind x hx
      simp [hkey] at this
    | some y =>
      have hy := List.mem_of_find?_eq_some hfind
      have hykey : key y = k := by simpa using List.find?_some hfind
      rw [hitems.eq_of_key_eq hy hx (hykey.trans hkey.symm)]

theorem Sorted.read_from {P : Type} [LinearOrder P] {items : List T} (h : Sorted items) {part : K → P}
    (hmono : ∀ a b, a ≤ b → part a ≤ part b) {p : P} {before same : T → Bool}
    (hbefore : ∀ x, before x = true ↔ part (key x) < p)
    (hsame : ∀ x, same x = true ↔ part (key x) = p) :
    (items.dropWhile before).takeWhile same = items.filter same := by
  induction items with
  | nil => rfl
  | cons x rest ih =>
    have hrest : ∀ y ∈ rest, part (key x) ≤ part (key y) := fun y hy =>
      hmono _ _ (h.head_lt hy).le
    by_cases hlt : part (key x) < p
    · have hnot : ¬ same x = true := fun hx => hlt.ne ((hsame x).mp hx)
      rw [List.dropWhile_cons_of_pos ((hbefore x).mpr hlt), List.filter_cons_of_neg hnot]
      exact ih h.tail
    · rw [List.dropWhile_cons_of_neg fun hx => hlt ((hbefore x).mp hx)]
      -- from here on no item is before the target
      suffices hsuffices : ∀ ys : List T, ys.Pairwise (fun a b => part (key a) ≤ part (key b)) →
          (∀ y ∈ ys, p ≤ part (key y)) → ys.takeWhile same = ys.filter same by
        refine hsuffices (x :: rest) (h.imp fun hab => hmono _ _ hab.le) fun y hy => ?_
        rcases List.mem_cons.mp hy with rfl | hmem
        · exact not_lt.mp hlt
        · exact (not_lt.mp hlt).trans (hrest y hmem)
      intro ys hys hlow
      induction ys with
      | nil => rfl
      | cons y ys ihys =>
        obtain ⟨hfirst, htail⟩ := List.pairwise_cons.mp hys
        by_cases heq : same y = true
        · rw [List.takeWhile_cons_of_pos heq, List.filter_cons_of_pos heq,
            ihys htail fun z hz => hlow z (List.mem_cons_of_mem y hz)]
        · rw [List.takeWhile_cons_of_neg heq, List.filter_cons_of_neg heq, eq_comm,
            List.filter_eq_nil_iff]
          intro z hz hz'
          have hgt := lt_of_le_of_ne (hlow y List.mem_cons_self)
            (Ne.symm fun hy => heq ((hsame y).mpr hy))
          exact (hgt.trans_le (hfirst z hz)).ne' ((hsame z).mp hz')

end zed.sum_tree
