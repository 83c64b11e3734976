import Zed.Editor.BlockMap.Intersecting
import Zed.Slice.Sort

namespace zed.editor.block_map

open zed.slice (then_with sort_unstable_by Among among_of_ne)

abbrev WrapRow := Nat

/-- An excerpt boundary: the opaque id of the anchor that the next excerpt starts at. -/
structure ExcerptBoundaryInfo where
  opaque_id : List UInt8

inductive Block (A : Type) [LinearOrder A]
  | Custom (block : CustomBlock A)
  | FoldedBuffer (first_excerpt : ExcerptBoundaryInfo) (height : Nat)
  | ExcerptBoundary (excerpt : ExcerptBoundaryInfo) (height : Nat)
  | BufferHeader (excerpt : ExcerptBoundaryInfo) (height : Nat)
  | Spacer (id height : Nat) (is_below : Bool)

namespace Block

variable {A : Type} [LinearOrder A]

def is_header : Block A → Bool
  | .Custom _ => false
  | .FoldedBuffer _ _ => true
  | .ExcerptBoundary _ _ => true
  | .BufferHeader _ _ => true
  | .Spacer _ _ _ => false

def is_spacer : Block A → Bool
  | .Spacer _ _ _ => true
  | _ => false

end Block

/-- A block with the rows that it is placed at. -/
abbrev Placed (A : Type) [LinearOrder A] := BlockPlacement WrapRow × Block A

variable {A : Type} [LinearOrder A]

/-- The last comparison of two blocks: `none` where it panics. -/
def block_cmp : Block A → Block A → Option Ordering
  | .ExcerptBoundary excerpt_a _, .ExcerptBoundary excerpt_b _ => some (compare excerpt_a.opaque_id excerpt_b.opaque_id)
  | .ExcerptBoundary excerpt_a _, .BufferHeader excerpt_b _ => some (compare excerpt_a.opaque_id excerpt_b.opaque_id)
  | .BufferHeader excerpt_a _, .ExcerptBoundary excerpt_b _ => some (compare excerpt_a.opaque_id excerpt_b.opaque_id)
  | .BufferHeader excerpt_a _, .BufferHeader excerpt_b _ => some (compare excerpt_a.opaque_id excerpt_b.opaque_id)
  | .ExcerptBoundary _ _, .Spacer _ _ _ => some .lt
  | .ExcerptBoundary _ _, .Custom _ => some .lt
  | .BufferHeader _ _, .Spacer _ _ _ => some .lt
  | .BufferHeader _ _, .Custom _ => some .lt
  | .Spacer _ _ _, .ExcerptBoundary _ _ => some .gt
  | .Custom _, .ExcerptBoundary _ _ => some .gt
  | .Spacer _ _ _, .BufferHeader _ _ => some .gt
  | .Custom _, .BufferHeader _ _ => some .gt
  | .Spacer _ _ _, .Custom _ => some .lt
  | .Custom _, .Spacer _ _ _ => some .gt
  | .Custom block_a, .Custom block_b =>
    some ((compare block_a.priority block_b.priority).then (compare block_a.id block_b.id))
  | _, _ => none

/-- The comparison that `sort_blocks` sorts by. -/
def sort_cmp (a b : Placed A) : Option Ordering :=
  then_with (compare a.1.start b.1.start) <|
  then_with (compare b.1.stop a.1.stop) <|
  then_with (compare a.1.tie_break b.1.tie_break) <|
  then_with (if a.2.is_header then .lt else if b.2.is_header then .gt else .eq) <|
  block_cmp a.2 b.2

/-- Whether the block kept last swallows the next one, and what is kept then. -/
def dedup_step (left right : Placed A) : Option (Placed A) :=
  match left.1, right.1 with
  | .Replace first last _, .Above row => if first ≤ row ∧ row ≤ last then some left else none
  | .Replace first last _, .Below row => if first ≤ row ∧ row ≤ last then some left else none
  | .Replace first_a last_a ordered, .Replace first_b last_b _ =>
    if last_a ≥ first_b ∧ first_a ≤ last_b then
      some (.Replace first_a (max last_a last_b) (ordered.trans (le_max_left _ _)), left.2)
    else none
  | _, _ => none

/-- `dedup_by` after the first item. -/
def dedup_from (left : Placed A) : List (Placed A) → List (Placed A)
  | [] => [left]
  | right :: rest =>
    match dedup_step left right with
    | some left => dedup_from left rest
    | none => left :: dedup_from right rest

def dedup_blocks : List (Placed A) → List (Placed A)
  | [] => []
  | first :: rest => dedup_from first rest

/-- Panics when a comparison does. -/
def sort_blocks (blocks : List (Placed A)) : Option (List (Placed A)) :=
  (sort_unstable_by sort_cmp blocks).map dedup_blocks

end zed.editor.block_map

namespace zed.editor.block_map

open zed.slice (then_with sort_unstable_by Among among_of_ne)

variable {A : Type} [LinearOrder A]

def blockRank : Block A → Nat ×ₗ Nat ×ₗ Nat
  | .Custom block => toLex (2, toLex (block.priority, block.id))
  | .Spacer _ _ _ => toLex (1, toLex (0, 0))
  | _ => toLex (0, toLex (0, 0))

/-- The rank of a block: by its placement, and then among the blocks there. -/
def rank (placed : Placed A) : WrapRow ×ₗ WrapRowᵒᵈ ×ₗ Nat ×ₗ Nat ×ₗ Nat ×ₗ Nat :=
  toLex (placed.1.start, toLex (OrderDual.toDual placed.1.stop, toLex (placed.1.tie_break, blockRank placed.2)))

/-- Blocks that the comparison can tell apart: no two headers, nor two spacers, at one placement. -/
def Apart (a b : Placed A) : Prop :=
  a.1.cmp b.1 = .eq → ¬ (a.2.is_header = true ∧ b.2.is_header = true) ∧ ¬ (a.2.is_spacer = true ∧ b.2.is_spacer = true)

theorem compare_toLex {α β : Type} [LinearOrder α] [LinearOrder β] (a b : α) (x y : β) :
    compare (toLex (a, x)) (toLex (b, y)) = (compare a b).then (compare x y) := by
  rw [Prod.Lex.compare_def]
  rfl

theorem compare_toDual {α : Type} [LinearOrder α] (a b : α) :
    compare (OrderDual.toDual a) (OrderDual.toDual b) = compare b a := rfl

theorem block_cmp_eq {a b : Block A} (hheaders : ¬ (a.is_header = true ∧ b.is_header = true))
    (hspacers : ¬ (a.is_spacer = true ∧ b.is_spacer = true)) :
    then_with (if a.is_header then .lt else if b.is_header then .gt else .eq) (block_cmp a b) =
      some (compare (blockRank a) (blockRank b)) := by
  cases a with
  | Custom block =>
    cases b with
    | Custom block' => simp [then_with, Block.is_header, block_cmp, blockRank, compare_toLex]
    | _ => rfl
  | Spacer id height is_below =>
    cases b with
    | Spacer id' height' is_below' => exact absurd ⟨rfl, rfl⟩ hspacers
    | _ => rfl
  | FoldedBuffer first_excerpt height =>
    cases b with
    | Custom block' => rfl
    | Spacer id' height' is_below' => rfl
    | _ => exact absurd ⟨rfl, rfl⟩ hheaders
  | ExcerptBoundary excerpt height =>
    cases b with
    | Custom block' => rfl
    | Spacer id' height' is_below' => rfl
    | _ => exact absurd ⟨rfl, rfl⟩ hheaders
  | BufferHeader excerpt height =>
    cases b with
    | Custom block' => rfl
    | Spacer id' height' is_below' => rfl
    | _ => exact absurd ⟨rfl, rfl⟩ hheaders

theorem sort_cmp_eq {a b : Placed A} (h : Apart a b) : sort_cmp a b = some (compare (rank a) (rank b)) := by
  rw [Apart, BlockPlacement.cmp] at h
  rw [rank, rank, sort_cmp, compare_toLex, compare_toLex, compare_toLex, compare_toDual]
  cases hstart : compare a.1.start b.1.start with
  | lt => rfl
  | gt => rfl
  | eq =>
    cases hstop : compare b.1.stop a.1.stop with
    | lt => rfl
    | gt => rfl
    | eq =>
      cases htie : compare a.1.tie_break b.1.tie_break with
      | lt => rfl
      | gt => rfl
      | eq =>
        rw [hstart, hstop, htie] at h
        obtain ⟨hheaders, hspacers⟩ := h rfl
        exact block_cmp_eq hheaders hspacers

/-- What the comparison says of two blocks: they are compared without a panic, and the other way round the
    answer is the opposite. -/
structure StrictWeakOrder (blocks : List (Placed A)) : Prop where
  compared : ∀ a b, Among blocks a b → ∃ ordering, sort_cmp a b = some ordering ∧ sort_cmp b a = some ordering.swap
  trans : ∀ a b c, [a, b, c].Subperm blocks → sort_cmp a b = some .lt → sort_cmp b c = some .lt →
    sort_cmp a c = some .lt
  equal_trans : ∀ a b c, [a, b, c].Subperm blocks → sort_cmp a b = some .eq → sort_cmp b c = some .eq →
    sort_cmp a c = some .eq

/-- Two headers at one placement are each less than the other, and two spacers cannot be compared. -/
theorem StrictWeakOrder.apart {blocks : List (Placed A)} (h : StrictWeakOrder blocks) {a b : Placed A}
    (hab : Among blocks a b) : Apart a b := by
  obtain ⟨ordering, hcmp, hback⟩ := h.compared a b hab
  obtain ⟨placement_a, block_a⟩ := a
  obtain ⟨placement_b, block_b⟩ := b
  intro heq
  have hswap : placement_b.cmp placement_a = .eq := by
    rw [← BlockPlacement.cmp_swap, heq]
    rfl
  rw [BlockPlacement.cmp, Ordering.then_eq_eq, Ordering.then_eq_eq] at heq hswap
  obtain ⟨⟨hstart, hstop⟩, htie⟩ := heq
  obtain ⟨⟨hstart', hstop'⟩, htie'⟩ := hswap
  rw [sort_cmp] at hcmp hback
  dsimp only at hcmp hback
  rw [hstart, hstop, htie] at hcmp
  rw [hstart', hstop', htie'] at hback
  constructor
  · rintro ⟨ha, hb⟩
    simp only [then_with, if_true, ha, hb] at hcmp hback
    cases hcmp
    cases hback
  · rintro ⟨ha, hb⟩
    cases block_a with
    | Spacer id height is_below =>
      cases block_b with
      | Spacer id' height' is_below' => cases hcmp
      | _ => cases hb
    | _ => cases ha

theorem strict_weak_order {blocks : List (Placed A)} (h : ∀ a b, Among blocks a b → Apart a b) :
    StrictWeakOrder blocks := by
  have htriple : ∀ {a b c}, [a, b, c].Subperm blocks → Among blocks a b ∧ Among blocks b c ∧ Among blocks a c := by
    intro a b c habc
    refine ⟨?_, ?_, ?_⟩
    · exact (List.Sublist.subperm (by simp)).trans habc
    · exact (List.Sublist.subperm (by simp)).trans habc
    · exact (List.Sublist.subperm (by simp)).trans habc
  refine ⟨fun a b hab => ⟨_, sort_cmp_eq (h a b hab), ?_⟩, fun a b c habc hab hbc => ?_, fun a b c habc hab hbc => ?_⟩
  · rw [sort_cmp_eq (h b a hab.swap), Std.OrientedOrd.eq_swap]
  · obtain ⟨hpair, hpair', hpair''⟩ := htriple habc
    rw [sort_cmp_eq (h a b hpair), Option.some.injEq, compare_lt_iff_lt] at hab
    rw [sort_cmp_eq (h b c hpair'), Option.some.injEq, compare_lt_iff_lt] at hbc
    rw [sort_cmp_eq (h a c hpair''), compare_lt_iff_lt.mpr (hab.trans hbc)]
  · obtain ⟨hpair, hpair', hpair''⟩ := htriple habc
    rw [sort_cmp_eq (h a b hpair), Option.some.injEq, compare_eq_iff_eq] at hab
    rw [sort_cmp_eq (h b c hpair'), Option.some.injEq, compare_eq_iff_eq] at hbc
    rw [sort_cmp_eq (h a c hpair''), compare_eq_iff_eq.mpr (hab.trans hbc)]

/-- The blocks in an order that the comparison does not object to. -/
def InOrder (blocks : List (Placed A)) : Prop :=
  blocks.Pairwise fun a b => ∃ ordering, sort_cmp a b = some ordering ∧ ordering ≠ .gt

/-- What `sort_blocks` can leave: equal blocks may come out of an unstable sort in any order. -/
def Outcome (blocks out : List (Placed A)) : Prop :=
  ∃ sorted : List (Placed A), sorted.Perm blocks ∧ InOrder sorted ∧ out = dedup_blocks sorted

theorem InOrder.ranks {blocks : List (Placed A)} (h : ∀ a b, Among blocks a b → Apart a b) (horder : InOrder blocks) :
    blocks.Pairwise fun a b => rank a ≤ rank b := by
  rw [List.pairwise_iff_forall_sublist]
  intro a b hab
  obtain ⟨ordering, hcmp, hne⟩ := (List.pairwise_iff_forall_sublist.mp horder) hab
  rw [sort_cmp_eq (h a b hab.subperm), Option.some.injEq] at hcmp
  exact not_lt.mp fun hlt => hne (hcmp ▸ compare_gt_iff_gt.mpr hlt)

theorem in_order_of_ranks {blocks : List (Placed A)} (h : ∀ a b, Among blocks a b → Apart a b)
    (hranks : blocks.Pairwise fun a b => rank a ≤ rank b) : InOrder blocks := by
  rw [InOrder, List.pairwise_iff_forall_sublist]
  intro a b hab
  have hle := (List.pairwise_iff_forall_sublist.mp hranks) hab
  exact ⟨_, sort_cmp_eq (h a b hab.subperm), fun hgt => absurd (compare_gt_iff_gt.mp hgt) (not_lt.mpr hle)⟩

/-- Blocks that compare equal, or are the same. -/
def Equal (a b : Placed A) : Prop := a = b ∨ sort_cmp a b = some .eq

end zed.editor.block_map
