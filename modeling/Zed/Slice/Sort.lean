import Mathlib

namespace zed.slice

variable {α R : Type}

/-- `Ordering::then_with`, for a comparison that can panic. -/
def then_with (ordering : Ordering) (next : Option Ordering) : Option Ordering :=
  if ordering = .eq then next else some ordering

/-- Puts an item before the first one that it is not greater than, panicking when a comparison does. -/
def insert_sorted_by (cmp : α → α → Option Ordering) (item : α) : List α → Option (List α)
  | [] => some [item]
  | first :: rest => do
    if (← cmp item first) = .gt then
      let rest ← insert_sorted_by cmp item rest
      some (first :: rest)
    else some (item :: first :: rest)

/-- `sort_unstable_by`, as an insertion sort. -/
def sort_unstable_by (cmp : α → α → Option Ordering) : List α → Option (List α)
  | [] => some []
  | item :: items => do
    let sorted ← sort_unstable_by cmp items
    insert_sorted_by cmp item sorted

def Among (items : List α) (a b : α) : Prop := [a, b].Subperm items

theorem among_cons {items : List α} {item other : α} (h : other ∈ items) : Among (item :: items) item other :=
  (List.subperm_cons item).mpr (List.singleton_subperm_iff.mpr h)

theorem Among.tail {items : List α} {item a b : α} (h : Among items a b) : Among (item :: items) a b :=
  h.trans (List.sublist_cons_self item items).subperm

theorem Among.swap {items : List α} {a b : α} (h : Among items a b) : Among items b a :=
  (List.Perm.swap a b []).subperm.trans h

theorem Among.of_perm {items others : List α} {a b : α} (h : Among items a b) (hperm : items.Perm others) :
    Among others a b := h.trans hperm.subperm

theorem among_of_ne {items : List α} {a b : α} (ha : a ∈ items) (hb : b ∈ items) (hne : a ≠ b) : Among items a b :=
  List.cons_subperm_of_not_mem_of_mem (by simpa using hne) ha (List.singleton_subperm_iff.mpr hb)

variable [LinearOrder R]

theorem insert_sorted_by_spec {cmp : α → α → Option Ordering} {rank : α → R} {item : α} {items : List α}
    (hcmp : ∀ other ∈ items, cmp item other = some (compare (rank item) (rank other)))
    (hsorted : items.Pairwise fun a b => rank a ≤ rank b) :
    ∃ sorted, insert_sorted_by cmp item items = some sorted ∧ sorted.Perm (item :: items) ∧
      sorted.Pairwise fun a b => rank a ≤ rank b := by
  induction items with
  | nil => exact ⟨[item], rfl, List.Perm.refl _, List.pairwise_singleton _ _⟩
  | cons first rest ih =>
    obtain ⟨hfirst, hrest⟩ := List.pairwise_cons.mp hsorted
    rw [insert_sorted_by, hcmp first List.mem_cons_self]
    simp only [Option.bind_eq_bind, Option.bind_some]
    by_cases hgt : compare (rank item) (rank first) = .gt
    · obtain ⟨sorted, hinsert, hperm, hpairwise⟩ := ih (fun other hother => hcmp other (List.mem_cons_of_mem _ hother)) hrest
      rw [if_pos hgt, hinsert]
      refine ⟨first :: sorted, rfl, (hperm.cons first).trans (List.Perm.swap item first rest),
        List.pairwise_cons.mpr ⟨fun other hother => ?_, hpairwise⟩⟩
      rcases List.mem_cons.mp (hperm.mem_iff.mp hother) with rfl | hold
      · exact (compare_gt_iff_gt.mp hgt).le
      · exact hfirst other hold
    · rw [if_neg hgt]
      have hle : rank item ≤ rank first := not_lt.mp fun hlt => hgt (compare_gt_iff_gt.mpr hlt)
      refine ⟨_, rfl, List.Perm.refl _, List.pairwise_cons.mpr ⟨fun other hother => ?_, hsorted⟩⟩
      rcases List.mem_cons.mp hother with rfl | hold
      · exact hle
      · exact hle.trans (hfirst other hold)

theorem sort_unstable_by_spec {cmp : α → α → Option Ordering} {rank : α → R} {items : List α}
    (hcmp : ∀ a b, Among items a b → cmp a b = some (compare (rank a) (rank b))) :
    ∃ sorted, sort_unstable_by cmp items = some sorted ∧ sorted.Perm items ∧
      sorted.Pairwise fun a b => rank a ≤ rank b := by
  induction items with
  | nil => exact ⟨[], rfl, List.Perm.refl _, List.Pairwise.nil⟩
  | cons item items ih =>
    obtain ⟨sorted, hsort, hperm, hpairwise⟩ := ih fun a b h => hcmp a b h.tail
    obtain ⟨out, hinsert, hperm', hpairwise'⟩ := insert_sorted_by_spec
      (fun other hother => hcmp item other (among_cons (hperm.mem_iff.mp hother))) hpairwise
    rw [sort_unstable_by, hsort]
    exact ⟨out, hinsert, hperm'.trans (hperm.cons item), hpairwise'⟩

theorem ranks_eq {rank : α → R} {items others : List α} (hperm : items.Perm others)
    (h : items.Pairwise fun a b => rank a ≤ rank b) (h' : others.Pairwise fun a b => rank a ≤ rank b) :
    items.map rank = others.map rank :=
  (hperm.map rank).eq_of_pairwise (fun _ _ _ _ hle hge => le_antisymm hle hge) (List.pairwise_map.mpr h)
    (List.pairwise_map.mpr h')

end zed.slice
