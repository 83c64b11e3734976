import Zed.Editor.BlockMap.Merge

namespace zed.editor.block_map

open zed.slice (then_with Among among_of_ne)

variable {A : Type} [LinearOrder A]

theorem sort_cmp_same (placement : BlockPlacement WrapRow) (a b : Block A) :
    sort_cmp (placement, a) (placement, b) =
      then_with (if a.is_header then .lt else if b.is_header then .gt else .eq) (block_cmp a b) := by
  rw [sort_cmp]
  simp [then_with]

theorem placement_of_equal {a b : Placed A} (h : Equal a b) : a.1 = b.1 := by
  rcases h with rfl | h
  · rfl
  · refine BlockPlacement.eq_of_cmp ?_
    rw [sort_cmp] at h
    rw [BlockPlacement.cmp]
    cases hstart : compare a.1.start b.1.start with
    | eq =>
      cases hstop : compare b.1.stop a.1.stop with
      | eq =>
        cases htie : compare a.1.tie_break b.1.tie_break with
        | eq => rfl
        | _ =>
          rw [hstart, hstop, htie] at h
          cases h
      | _ =>
        rw [hstart, hstop] at h
        cases h
    | _ =>
      rw [hstart] at h
      cases h

theorem Equal.move {placement placement' : BlockPlacement WrapRow} {a b : Block A}
    (h : Equal (placement, a) (placement, b)) : Equal (placement', a) (placement', b) := by
  rcases h with heq | hcmp
  · cases heq
    exact Or.inl rfl
  · rw [sort_cmp_same] at hcmp
    right
    rw [sort_cmp_same]
    exact hcmp

theorem dedup_step_placement (placement placement' : BlockPlacement WrapRow) (a a' b b' : Block A) :
    (dedup_step (placement, a) (placement', b)).map Prod.fst =
      (dedup_step (placement, a') (placement', b')).map Prod.fst := by
  cases placement with
  | Replace first last ordered =>
    cases placement' with
    | Near row => rfl
    | _ =>
      simp only [dedup_step]
      split <;> rfl
  | _ => rfl

theorem dedup_from_equal {left left' : Placed A} {rest rest' : List (Placed A)} (hleft : Equal left left')
    (hrest : List.Forall₂ Equal rest rest') : List.Forall₂ Equal (dedup_from left rest) (dedup_from left' rest') := by
  induction hrest generalizing left left' with
  | nil => exact .cons hleft .nil
  | @cons right right' rest rest' hright _ ih =>
    obtain ⟨placement, a⟩ := left
    obtain ⟨placement', b⟩ := left'
    obtain rfl : placement = placement' := placement_of_equal hleft
    obtain ⟨next, c⟩ := right
    obtain ⟨next', d⟩ := right'
    obtain rfl : next = next' := placement_of_equal hright
    have hstep := dedup_step_placement placement next a b c d
    rw [dedup_from, dedup_from]
    cases hmerged : dedup_step (placement, a) (next, c) with
    | none =>
      rw [hmerged, Option.map_none, eq_comm, Option.map_eq_none_iff] at hstep
      rw [hstep]
      exact .cons hleft (ih hright)
    | some merged =>
      rw [hmerged, Option.map_some, eq_comm, Option.map_eq_some_iff] at hstep
      obtain ⟨merged', hmerged', hsame⟩ := hstep
      rw [hmerged']
      have hblock := (dedup_step_some hmerged).2.2.2.1
      have hblock' := (dedup_step_some hmerged').2.2.2.1
      obtain ⟨merge, e⟩ := merged
      obtain ⟨merge', f⟩ := merged'
      obtain rfl : merge' = merge := hsame
      obtain rfl : e = a := hblock
      obtain rfl : f = b := hblock'
      exact ih hleft.move

theorem dedup_blocks_equal {blocks blocks' : List (Placed A)} (h : List.Forall₂ Equal blocks blocks') :
    List.Forall₂ Equal (dedup_blocks blocks) (dedup_blocks blocks') := by
  cases h with
  | nil => exact .nil
  | cons hfirst hrest => exact dedup_from_equal hfirst hrest

theorem outcome_equal {blocks out out' : List (Placed A)} (h : ∀ a b, Among blocks a b → Apart a b)
    (hout : Outcome blocks out) (hout' : Outcome blocks out') : List.Forall₂ Equal out out' := by
  obtain ⟨sorted, hperm, horder, rfl⟩ := hout
  obtain ⟨sorted', hperm', horder', rfl⟩ := hout'
  have hranks := horder.ranks fun a b hab => h a b (hab.of_perm hperm)
  have hranks' := horder'.ranks fun a b hab => h a b (hab.of_perm hperm')
  have hsame := zed.slice.ranks_eq (hperm.trans hperm'.symm) hranks hranks'
  have hforall : List.Forall₂ (fun a b => rank a = rank b) sorted sorted' := by
    rw [← List.forall₂_eq_eq_eq, List.forall₂_map_left_iff, List.forall₂_map_right_iff] at hsame
    exact hsame
  refine dedup_blocks_equal (List.forall₂_iff_zip.mpr ⟨hforall.length_eq, fun {a b} hab => ?_⟩)
  have heq := (List.forall₂_iff_zip.mp hforall).2 hab
  obtain ⟨ha, hb⟩ := List.of_mem_zip hab
  by_cases hne : a = b
  · exact Or.inl hne
  · right
    rw [sort_cmp_eq (h a b (among_of_ne (hperm.mem_iff.mp ha) (hperm'.mem_iff.mp hb) hne)), compare_eq_iff_eq.mpr heq]

theorem sort_blocks_spec {blocks other : List (Placed A)} (h : ∀ a b, Among blocks a b → Apart a b)
    (hperm : other.Perm blocks) : ∃ out, sort_blocks other = some out ∧ Outcome blocks out := by
  have hother : ∀ a b, Among other a b → Apart a b := fun a b hab => h a b (hab.of_perm hperm)
  have hcmp : ∀ a b, Among other a b → sort_cmp a b = some (compare (rank a) (rank b)) := fun a b hab =>
    sort_cmp_eq (hother a b hab)
  obtain ⟨sorted, hsort, hperm', hranks⟩ := zed.slice.sort_unstable_by_spec hcmp
  refine ⟨dedup_blocks sorted, by rw [sort_blocks, hsort]; rfl, sorted, hperm'.trans hperm, ?_, rfl⟩
  exact in_order_of_ranks (fun a b hab => hother a b (hab.of_perm hperm')) hranks

/-- What is expected of `sort_blocks`. -/
structure Sound (blocks : List (Placed A)) : Prop where
  order : StrictWeakOrder blocks
  sorts : ∀ other : List (Placed A), other.Perm blocks → ∃ out, sort_blocks other = some out ∧ Outcome blocks out
  agree : ∀ out out', Outcome blocks out → Outcome blocks out' → List.Forall₂ Equal out out'
  disjoint : ∀ out, Outcome blocks out → out.Pairwise ReplaceDisjoint

/-- Blocks that `sort_blocks` can sort and merge: headers at different placements, and so for spacers, and no near
    block inside a replacement before the start of another one that overlaps it. -/
structure Regular (blocks : List (Placed A)) : Prop where
  apart : ∀ a b, Among blocks a b → Apart a b
  unsplit : ∀ a ∈ blocks, ∀ near ∈ blocks, ∀ b ∈ blocks, ¬ Splits a near b

theorem Regular.disjoint {blocks out : List (Placed A)} (h : Regular blocks) (hout : Outcome blocks out) :
    out.Pairwise ReplaceDisjoint := by
  obtain ⟨sorted, hperm, horder, rfl⟩ := hout
  have harranged := horder.arranged
  cases sorted with
  | nil => exact List.Pairwise.nil
  | cons first rest =>
    exact dedup_disjoint h.unsplit (List.pairwise_cons.mp harranged).2 harranged.starts
      (fun block hblock => hperm.mem_iff.mp (List.mem_cons_of_mem _ hblock))
      fun hreplace => ⟨first, hperm.mem_iff.mp List.mem_cons_self, hreplace, rfl, harranged.starts⟩

theorem Outcome.overlap {blocks out : List (Placed A)} (hout : Outcome blocks out) {a near b : Placed A}
    (ha : a ∈ blocks) (hnear : near ∈ blocks) (hb : b ∈ blocks) (h : Splits a near b) :
    ¬ out.Pairwise ReplaceDisjoint := by
  obtain ⟨sorted, hperm, horder, rfl⟩ := hout
  obtain ⟨haReplace, hnearNear, hbReplace, hle, hlt, hoverlap⟩ := h
  have harranged := horder.arranged
  obtain ⟨before, after, rfl⟩ := List.append_of_mem (hperm.mem_iff.mpr hnear)
  have hnearReplace := BlockPlacement.near_not_replace hnearNear
  have hnearStop := BlockPlacement.near_stop hnearNear
  obtain ⟨hbeforeArranged, hfrom, hcross⟩ := List.pairwise_append.mp harranged
  obtain ⟨hnearFirst, hafter⟩ := List.pairwise_cons.mp hfrom
  have hcases : ∀ {block : Placed A}, block ∈ blocks → block.1.is_replace = true → block ∈ before ∨ block ∈ after := by
    intro block hblock hreplace
    rcases List.mem_append.mp (hperm.mem_iff.mpr hblock) with hbefore | hrest
    · exact Or.inl hbefore
    · rcases List.mem_cons.mp hrest with rfl | hlater
      · rw [hreplace] at hnearReplace
        cases hnearReplace
      · exact Or.inr hlater
  have haBefore : a ∈ before := by
    refine (hcases ha haReplace).resolve_right fun hlater => ?_
    have hstart := BlockPlacement.start_lt_of_cmp_replace (hnearFirst a hlater) haReplace hnearReplace hnearStop
    exact absurd hle (not_le.mpr hstart)
  have hbAfter : b ∈ after := by
    refine (hcases hb hbReplace).resolve_left fun hearlier => ?_
    have hstart := BlockPlacement.start_le_of_cmp (hcross b hearlier near List.mem_cons_self)
    exact absurd hstart (not_le.mpr hlt)
  obtain ⟨restart, hrestart, origin, horigin, horiginReplace, hrestartReplace, hstart, hstart'⟩ :=
    dedup_restarts hnearReplace hbAfter hbReplace hafter
  have hpast := BlockPlacement.start_lt_of_cmp_replace (hnearFirst origin horigin) horiginReplace hnearReplace hnearStop
  cases before with
  | nil => cases haBefore
  | cons first before =>
    rw [List.cons_append] at harranged ⊢
    obtain ⟨cover, hcover, hcoverReplace, hcoverStart, hcoverStop⟩ := dedup_covers
      (List.mem_append_left (near :: after) haBefore) haReplace harranged.starts (List.pairwise_cons.mp harranged).2
    obtain ⟨front, hfront⟩ := @dedup_at_near _ _ first near before after hnearNear
    have hmem : restart ∈ dedup_from first (before ++ near :: after) := hfront ▸ List.mem_append_right _ hrestart
    intro hdisjoint
    have hsymm : Std.Symm (ReplaceDisjoint (A := A)) := ⟨fun x y hxy hy hx => (hxy hx hy).symm⟩
    have hbefore : cover.1.start < restart.1.start := (hcoverStart.trans hle).trans_lt (hstart ▸ hpast)
    have hreached : restart.1.start ≤ cover.1.stop := (hstart ▸ hstart').trans (hoverlap.trans hcoverStop)
    have hne : cover ≠ restart := fun hsame => absurd (hsame ▸ hbefore) (lt_irrefl _)
    rcases hdisjoint.forall hcover hmem hne hcoverReplace hrestartReplace with hsep | hsep
    · exact absurd hreached (not_le.mpr hsep)
    · exact absurd (restart.1.start_le_stop.trans_lt (hsep.trans hbefore)) (lt_irrefl _)

/-- The comparison is an order that the sort cannot panic on, with one result, and the replacements left are
    disjoint, exactly for the blocks that can be sorted and merged. -/
theorem sort_blocks_sound_iff (blocks : List (Placed A)) : Sound blocks ↔ Regular blocks := by
  constructor
  · intro h
    obtain ⟨out, -, hout⟩ := h.sorts blocks (List.Perm.refl _)
    exact ⟨fun a b hab => h.order.apart hab,
      fun a ha near hnear b hb hsplits => hout.overlap ha hnear hb hsplits (h.disjoint out hout)⟩
  · intro h
    exact ⟨strict_weak_order h.apart, fun other hperm => sort_blocks_spec h.apart hperm,
      fun out out' hout hout' => outcome_equal h.apart hout hout', fun out hout => h.disjoint hout⟩

/-- A near block between two overlapping replacements keeps them apart. -/
theorem near_block_splits : ¬ Sound (A := Nat)
    [(.Replace 0 5 (by decide), .Custom ⟨0, .Replace 0 5 (by decide), 0⟩), (.Near 2, .Custom ⟨1, .Near 2, 0⟩),
      (.Replace 3 8 (by decide), .Custom ⟨2, .Replace 3 8 (by decide), 0⟩)] := by
  intro h
  obtain ⟨out, hsort, hout⟩ := h.sorts _ (List.Perm.refl _)
  have hdisjoint := h.disjoint out hout
  cases hsort
  have hpair := (List.pairwise_cons.mp hdisjoint).1 _ (List.mem_cons_of_mem _ List.mem_cons_self) rfl rfl
  rcases hpair with hsep | hsep
  · exact absurd hsep (by decide)
  · exact absurd hsep (by decide)

end zed.editor.block_map
