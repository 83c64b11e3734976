import Zed.Slice.BinarySearch

namespace zed.editor.block_map

/-- Where to place a block. -/
inductive BlockPlacement (T : Type) [LE T]
  | Above (position : T)
  | Below (position : T)
  | Near (position : T)
  | Replace (first last : T) (ordered : first ≤ last)

namespace BlockPlacement

variable {T : Type} [LinearOrder T]

def start : BlockPlacement T → T
  | .Above position => position
  | .Below position => position
  | .Near position => position
  | .Replace first _ _ => first

/-- `end()` -/
def stop : BlockPlacement T → T
  | .Above position => position
  | .Below position => position
  | .Near position => position
  | .Replace _ last _ => last

def tie_break : BlockPlacement T → Nat
  | .Replace _ _ _ => 0
  | .Above _ => 1
  | .Near _ => 2
  | .Below _ => 3

def is_replace : BlockPlacement T → Bool
  | .Replace _ _ _ => true
  | _ => false

def is_near : BlockPlacement T → Bool
  | .Near _ => true
  | _ => false

/-- By start, the longer first; at one range what replaces it, then above, near and below. -/
def cmp (self other : BlockPlacement T) : Ordering :=
  ((compare self.start other.start).then (compare other.stop self.stop)).then
    (compare self.tie_break other.tie_break)

theorem start_le_stop (placement : BlockPlacement T) : placement.start ≤ placement.stop := by
  cases placement with
  | Replace first last ordered => exact ordered
  | _ => exact le_refl _

theorem near_not_replace {placement : BlockPlacement T} (h : placement.is_near = true) : placement.is_replace = false := by
  cases placement with
  | Near position => rfl
  | _ => cases h

theorem near_stop {placement : BlockPlacement T} (h : placement.is_near = true) : placement.stop = placement.start := by
  cases placement with
  | Near position => rfl
  | _ => cases h

theorem cmp_ne_gt {self other : BlockPlacement T} :
    self.cmp other ≠ .gt ↔ self.start < other.start ∨ (self.start = other.start ∧
      (other.stop < self.stop ∨ (other.stop = self.stop ∧ self.tie_break ≤ other.tie_break))) := by
  rw [cmp]
  rcases lt_trichotomy self.start other.start with hlt | heq | hgt
  · simp [compare_lt_iff_lt.mpr hlt, hlt]
  · rw [heq, compare_eq_iff_eq.mpr rfl]
    rcases lt_trichotomy other.stop self.stop with hlt | hsame | hgt
    · simp [compare_lt_iff_lt.mpr hlt, hlt]
    · rw [hsame, compare_eq_iff_eq.mpr rfl]
      simp [compare_gt_iff_gt]
    · simp [compare_gt_iff_gt.mpr hgt, hgt.not_gt, hgt.ne']
  · simp [compare_gt_iff_gt.mpr hgt, hgt.not_gt, hgt.ne']

theorem cmp_ne_gt_of_lt {self other : BlockPlacement T} (h : self.start < other.start) : self.cmp other ≠ .gt :=
  cmp_ne_gt.mpr (Or.inl h)

theorem start_le_of_cmp {self other : BlockPlacement T} (h : self.cmp other ≠ .gt) : self.start ≤ other.start := by
  rcases cmp_ne_gt.mp h with hlt | ⟨heq, -⟩
  · exact hlt.le
  · exact heq.le

theorem start_lt_of_cmp_replace {self other : BlockPlacement T} (h : self.cmp other ≠ .gt)
    (hreplace : other.is_replace = true) (hself : self.is_replace = false) (hend : self.stop = self.start) :
    self.start < other.start := by
  rcases cmp_ne_gt.mp h with hlt | ⟨heq, hrest⟩
  · exact hlt
  · have hstop := other.start_le_stop
    exfalso
    rcases hrest with hlt | ⟨hsame, htie⟩
    · rw [hend, heq] at hlt
      exact absurd hstop (not_le.mpr hlt)
    · cases other with
      | Replace first last ordered => cases self <;> simp_all [tie_break, is_replace]
      | _ => cases hreplace

theorem cmp_trans {first second third : BlockPlacement T} (h : first.cmp second ≠ .gt) (h' : second.cmp third ≠ .gt) :
    first.cmp third ≠ .gt := by
  rw [cmp_ne_gt] at *
  rcases h with hlt | ⟨heq, hrest⟩
  · rcases h' with hlt' | ⟨heq', -⟩
    · exact Or.inl (hlt.trans hlt')
    · exact Or.inl (heq' ▸ hlt)
  · rcases h' with hlt' | ⟨heq', hrest'⟩
    · exact Or.inl (heq ▸ hlt')
    · refine Or.inr ⟨heq.trans heq', ?_⟩
      rcases hrest with hlt | ⟨hsame, htie⟩
      · rcases hrest' with hlt' | ⟨hsame', -⟩
        · exact Or.inl (hlt'.trans hlt)
        · exact Or.inl (hsame' ▸ hlt)
      · rcases hrest' with hlt' | ⟨hsame', htie'⟩
        · exact Or.inl (hsame ▸ hlt')
        · exact Or.inr ⟨hsame'.trans hsame, htie.trans htie'⟩

theorem cmp_swap (self other : BlockPlacement T) : (self.cmp other).swap = other.cmp self := by
  have hswap : ∀ {U : Type} [LinearOrder U] (a b : U), (compare a b).swap = compare b a := fun a b =>
    Std.OrientedOrd.eq_swap.symm
  rw [cmp, cmp, Ordering.swap_then, Ordering.swap_then, hswap, hswap, hswap]

theorem eq_of_cmp {self other : BlockPlacement T} (h : self.cmp other = .eq) : self = other := by
  rw [cmp, Ordering.then_eq_eq, Ordering.then_eq_eq] at h
  obtain ⟨⟨hstart, hstop⟩, htie⟩ := h
  have hstart := compare_eq_iff_eq.mp hstart
  have hstop := compare_eq_iff_eq.mp hstop
  have htie := compare_eq_iff_eq.mp htie
  cases self <;> cases other <;> simp_all [start, stop, tie_break]

end BlockPlacement

end zed.editor.block_map
