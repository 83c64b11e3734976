import Mathlib

namespace zed.slice

section Search

variable {α : Type} (f : α → Ordering) (items : List α)

/-- The loop of `binary_search_by`: halves the part of the slice that starts at `base`. -/
def narrow (base size : Nat) : Nat :=
  if size > 1 then
    let half := size / 2
    let mid := base + half
    let base := if items[mid]?.map f = some .gt then base else mid
    narrow base (size - half)
  else base
termination_by size

/-- Where an item that compares equal is, or else where it could be inserted. -/
def binary_search_by : Except Nat Nat :=
  if items.length = 0 then .error 0
  else
    let base := narrow f items 0 items.length
    match items[base]?.map f with
    | some .eq => .ok base
    | some .lt => .error (base + 1)
    | _ => .error base

/-- The indices that the loop and the comparison after it look at. -/
def probes (base size : Nat) : List Nat :=
  if size > 1 then
    let half := size / 2
    let mid := base + half
    let base := if items[mid]?.map f = some .gt then base else mid
    mid :: probes base (size - half)
  else [base]
termination_by size

/-- `Ok(ix) | Err(ix) => ix` -/
def index : Except Nat Nat → Nat
  | .ok ix => ix
  | .error ix => ix

end Search

section Spec

variable {α : Type} {f : α → Ordering} {items : List α} {base size : Nat}

theorem narrow_bounds (hsize : 0 < size) : base ≤ narrow f items base size ∧ narrow f items base size < base + size := by
  induction size using Nat.strong_induction_on generalizing base with
  | _ size ih =>
    rw [narrow]
    split
    · rename_i hmore
      have hhalf : 0 < size / 2 := Nat.div_pos hmore (by decide)
      obtain ⟨hle, hlt⟩ := @ih (size - size / 2) (by omega)
        (if items[base + size / 2]?.map f = some .gt then base else base + size / 2) (by omega)
      by_cases hgt : items[base + size / 2]?.map f = some .gt
      · rw [if_pos hgt] at hle hlt
        simp only [if_pos hgt]
        omega
      · rw [if_neg hgt] at hle hlt
        simp only [if_neg hgt]
        omega
    · omega

theorem narrow_probed (hsize : 0 < size) :
    narrow f items base size ∈ probes f items base size ∧
      (narrow f items base size = base ∨ items[narrow f items base size]?.map f ≠ some .gt) := by
  induction size using Nat.strong_induction_on generalizing base with
  | _ size ih =>
    rw [narrow, probes]
    split
    · rename_i hmore
      obtain ⟨hmem, hbase⟩ := @ih (size - size / 2) (by omega)
        (if items[base + size / 2]?.map f = some .gt then base else base + size / 2) (by omega)
      refine ⟨List.mem_cons_of_mem _ hmem, ?_⟩
      dsimp only
      split at hbase
      · rename_i hgt
        rw [if_pos hgt]
        exact hbase
      · rename_i hgt
        rw [if_neg hgt]
        right
        rcases hbase with heq | hne
        · rw [heq]
          exact hgt
        · exact hne
    · exact ⟨List.mem_singleton_self _, Or.inl rfl⟩

theorem le_narrow {probe : Nat} (h : probe ∈ probes f items base size) (hgt : items[probe]?.map f ≠ some .gt) :
    probe ≤ narrow f items base size := by
  induction size using Nat.strong_induction_on generalizing base with
  | _ size ih =>
    rw [probes] at h
    rw [narrow]
    split at h
    · rename_i hmore
      rw [if_pos hmore]
      rcases List.mem_cons.mp h with rfl | hrest
      · dsimp only
        rw [if_neg hgt]
        exact (narrow_bounds (by omega)).1
      · exact ih _ (by omega) hrest
    · rename_i hmore
      rw [if_neg hmore]
      exact (List.mem_singleton.mp h).le

theorem search_probed (hne : ∀ item ∈ items, f item ≠ .eq) :
    index (binary_search_by f items) ≤ items.length ∧
      (∀ probe ∈ probes f items 0 items.length, items[probe]?.map f = some .lt →
        probe < index (binary_search_by f items)) ∧
      (0 < index (binary_search_by f items) →
        ∃ probe ∈ probes f items 0 items.length, items[probe]?.map f = some .lt ∧
          index (binary_search_by f items) = probe + 1) := by
  rw [binary_search_by]
  split
  · rename_i hnil
    refine ⟨Nat.zero_le _, fun probe _ hless => ?_, fun hpos => absurd hpos (Nat.lt_irrefl _)⟩
    rw [List.eq_nil_of_length_eq_zero hnil] at hless
    cases hless
  · rename_i hsome
    have hpos : 0 < items.length := Nat.pos_of_ne_zero hsome
    obtain ⟨-, hlt⟩ := @narrow_bounds _ f items 0 items.length hpos
    obtain ⟨hmem, hbase⟩ := @narrow_probed _ f items 0 items.length hpos
    rw [Nat.zero_add] at hlt
    have hitem : items[narrow f items 0 items.length]?.map f = some (f items[narrow f items 0 items.length]) := by
      rw [List.getElem?_eq_getElem hlt]
      rfl
    have hprobe : ∀ probe ∈ probes f items 0 items.length, items[probe]?.map f = some .lt →
        probe ≤ narrow f items 0 items.length := fun probe hprobe hless =>
      le_narrow hprobe (by rw [hless]; decide)
    cases hless : f items[narrow f items 0 items.length] with
    | eq => exact absurd hless (hne _ (List.getElem_mem hlt))
    | lt =>
      rw [hless] at hitem
      simp only [hitem, index]
      exact ⟨hlt, fun probe hmem' hless' => Nat.lt_succ_of_le (hprobe probe hmem' hless'), fun _ => ⟨_, hmem, hitem, rfl⟩⟩
    | gt =>
      rw [hless] at hitem
      simp only [hitem, index]
      have hzero : narrow f items 0 items.length = 0 := hbase.resolve_right fun hne => hne hitem
      refine ⟨hlt.le, fun probe hmem' hless' => ?_, fun hpos' => absurd hpos' (by omega)⟩
      have hle := hprobe probe hmem' hless'
      obtain rfl : probe = narrow f items 0 items.length := by omega
      rw [hitem] at hless'
      cases hless'

/-- Items in the order of a comparison: what compares less comes first and what compares greater last. -/
def Ordered (f : α → Ordering) (items : List α) : Prop :=
  items.Pairwise fun item later => (f item = .gt → f later = .gt) ∧ (f later = .lt → f item = .lt)

theorem Ordered.greater (h : Ordered f items) {i j : Nat} (hij : i ≤ j) (hj : j < items.length)
    (hgt : f (items.get ⟨i, hij.trans_lt hj⟩) = .gt) : f (items.get ⟨j, hj⟩) = .gt := by
  rcases Nat.eq_or_lt_of_le hij with rfl | hlt
  · exact hgt
  · exact ((List.pairwise_iff_get.mp h) ⟨i, hij.trans_lt hj⟩ ⟨j, hj⟩ hlt).1 hgt

theorem narrow_greater (h : Ordered f items) (hsize : 0 < size) (hbound : base + size ≤ items.length)
    (hrest : ∀ i, base + size ≤ i → ∀ hi : i < items.length, f (items.get ⟨i, hi⟩) = .gt) :
    ∀ i, narrow f items base size < i → ∀ hi : i < items.length, f (items.get ⟨i, hi⟩) = .gt := by
  induction size using Nat.strong_induction_on generalizing base with
  | _ size ih =>
    intro i hgt hi
    rw [narrow] at hgt
    split at hgt
    · rename_i hmore
      have hhalf : 0 < size / 2 := Nat.div_pos hmore (by decide)
      have hmid : base + size / 2 < items.length := by omega
      have hget : items[base + size / 2]?.map f = some (f (items.get ⟨base + size / 2, hmid⟩)) := by
        rw [List.getElem?_eq_getElem hmid]
        rfl
      dsimp only at hgt
      split at hgt
      · rename_i hmidGt
        rw [hget, Option.some.injEq] at hmidGt
        exact @ih (size - size / 2) (by omega) base (by omega) (by omega)
          (fun j hj hjlt => h.greater (by omega) hjlt hmidGt) i hgt hi
      · exact @ih (size - size / 2) (by omega) (base + size / 2) (by omega) (by omega)
          (fun j hj hjlt => hrest j (by omega) hjlt) i hgt hi
    · exact hrest i (by omega) hi

theorem search_ordered (h : Ordered f items) :
    index (binary_search_by f items) ≤ items.length ∧
      (∀ i, i < index (binary_search_by f items) → ∀ hi : i < items.length, f (items.get ⟨i, hi⟩) ≠ .gt) ∧
      ∀ i, index (binary_search_by f items) ≤ i → ∀ hi : i < items.length, f (items.get ⟨i, hi⟩) ≠ .lt := by
  rw [binary_search_by]
  split
  · rename_i hnil
    exact ⟨Nat.zero_le _, fun i _ hi => absurd hi (by omega), fun i _ hi => absurd hi (by omega)⟩
  · rename_i hsome
    have hpos : 0 < items.length := Nat.pos_of_ne_zero hsome
    obtain ⟨-, hlt⟩ := @narrow_bounds _ f items 0 items.length hpos
    obtain ⟨-, hbase⟩ := @narrow_probed _ f items 0 items.length hpos
    have hpast := @narrow_greater _ f items 0 items.length h hpos (by omega) fun i hi hlt => absurd hlt (by omega)
    rw [Nat.zero_add] at hlt
    generalize narrow f items 0 items.length = base at *
    have hitem : items[base]?.map f = some (f (items.get ⟨base, hlt⟩)) := by
      rw [List.getElem?_eq_getElem hlt]
      rfl
    have hbefore : f (items.get ⟨base, hlt⟩) ≠ .gt → ∀ i, i ≤ base → ∀ hi : i < items.length,
        f (items.get ⟨i, hi⟩) ≠ .gt := fun hne i hle hi hgt => hne (h.greater hle hlt hgt)
    have hafter : ∀ i, base < i → ∀ hi : i < items.length, f (items.get ⟨i, hi⟩) ≠ .lt := by
      intro i hgt hi hless
      rw [hpast i hgt hi] at hless
      cases hless
    cases hfound : f (items.get ⟨base, hlt⟩) with
    | lt =>
      rw [hfound] at hitem
      simp only [hitem, index]
      exact ⟨hlt, fun i hi => hbefore (by rw [hfound]; decide) i (Nat.le_of_lt_succ hi), fun i hi => hafter i hi⟩
    | eq =>
      rw [hfound] at hitem
      simp only [hitem, index]
      refine ⟨hlt.le, fun i hi => hbefore (by rw [hfound]; decide) i hi.le, fun i hle hi => ?_⟩
      rcases Nat.eq_or_lt_of_le hle with rfl | hgt
      · rw [hfound]
        decide
      · exact hafter i hgt hi
    | gt =>
      rw [hfound] at hitem
      simp only [hitem, index]
      have hzero : base = 0 := hbase.resolve_right fun hne => hne hitem
      refine ⟨hlt.le, fun i hi => absurd hi (by omega), fun i hle hi hless => ?_⟩
      rcases Nat.eq_or_lt_of_le hle with rfl | hgt
      · rw [hfound] at hless
        cases hless
      · exact hafter i hgt hi hless

end Spec

end zed.slice
