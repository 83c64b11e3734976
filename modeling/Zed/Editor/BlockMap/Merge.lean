import Zed.Editor.BlockMap.Order

namespace zed.editor.block_map

variable {A : Type} [LinearOrder A]

/-- Replacements that do not overlap. -/
def ReplaceDisjoint (a b : Placed A) : Prop :=
  a.1.is_replace = true → b.1.is_replace = true → a.1.stop < b.1.start ∨ b.1.stop < a.1.start

/-- A near block inside a replacement, before another one that starts in it. -/
def Splits (a near b : Placed A) : Prop :=
  a.1.is_replace = true ∧ near.1.is_near = true ∧ b.1.is_replace = true ∧ a.1.start ≤ near.1.start ∧
    near.1.start < b.1.start ∧ b.1.start ≤ a.1.stop

/-- Blocks in the order of their placements. -/
abbrev Arranged (blocks : List (Placed A)) : Prop := blocks.Pairwise fun a b => a.1.cmp b.1 ≠ .gt

theorem InOrder.arranged {blocks : List (Placed A)} (h : InOrder blocks) : Arranged blocks := by
  refine h.imp fun {a b} hab hgt => ?_
  obtain ⟨ordering, hcmp, hne⟩ := hab
  rw [BlockPlacement.cmp] at hgt
  rw [sort_cmp] at hcmp
  cases hstart : compare a.1.start b.1.start with
  | lt =>
    rw [hstart] at hgt
    cases hgt
  | gt =>
    rw [hstart] at hcmp
    exact hne (Option.some.inj hcmp).symm
  | eq =>
    cases hstop : compare b.1.stop a.1.stop with
    | lt =>
      rw [hstart, hstop] at hgt
      cases hgt
    | gt =>
      rw [hstart, hstop] at hcmp
      exact hne (Option.some.inj hcmp).symm
    | eq =>
      rw [hstart, hstop] at hgt hcmp
      change compare a.1.tie_break b.1.tie_break = .gt at hgt
      rw [hgt] at hcmp
      exact hne (Option.some.inj hcmp).symm

theorem Arranged.starts {first : Placed A} {rest : List (Placed A)} (h : Arranged (first :: rest)) :
    ∀ block ∈ rest, first.1.start ≤ block.1.start := fun block hblock =>
  BlockPlacement.start_le_of_cmp ((List.pairwise_cons.mp h).1 block hblock)

theorem dedup_step_some {left right merged : Placed A} (h : dedup_step left right = some merged) :
    left.1.is_replace = true ∧ merged.1.is_replace = true ∧ merged.1.start = left.1.start ∧ merged.2 = left.2 ∧
      right.1.is_near = false ∧
      (right.1.is_replace = false ∧ merged.1.stop = left.1.stop ∨
        right.1.is_replace = true ∧ merged.1.stop = max left.1.stop right.1.stop) := by
  obtain ⟨placement, block⟩ := left
  obtain ⟨placement', block'⟩ := right
  cases placement with
  | Replace first last ordered =>
    cases placement' with
    | Above row =>
      simp only [dedup_step] at h
      split at h
      · cases h
        exact ⟨rfl, rfl, rfl, rfl, rfl, Or.inl ⟨rfl, rfl⟩⟩
      · cases h
    | Below row =>
      simp only [dedup_step] at h
      split at h
      · cases h
        exact ⟨rfl, rfl, rfl, rfl, rfl, Or.inl ⟨rfl, rfl⟩⟩
      · cases h
    | Near row => cases h
    | Replace first' last' ordered' =>
      simp only [dedup_step] at h
      split at h
      · cases h
        exact ⟨rfl, rfl, rfl, rfl, rfl, Or.inr ⟨rfl, rfl⟩⟩
      · cases h
  | _ => cases h

theorem dedup_step_none {left right : Placed A} (h : dedup_step left right = none) (hreplace : left.1.is_replace = true)
    (hstart : left.1.start ≤ right.1.start) : right.1.is_near = true ∨ left.1.stop < right.1.start := by
  obtain ⟨placement, block⟩ := left
  obtain ⟨placement', block'⟩ := right
  cases placement with
  | Replace first last ordered =>
    change first ≤ placement'.start at hstart
    cases placement' with
    | Near row => exact Or.inl rfl
    | Above row =>
      simp only [dedup_step] at h
      split at h
      · cases h
      · rename_i hout
        exact Or.inr (Nat.not_le.mp fun hle => hout ⟨hstart, hle⟩)
    | Below row =>
      simp only [dedup_step] at h
      split at h
      · cases h
      · rename_i hout
        exact Or.inr (Nat.not_le.mp fun hle => hout ⟨hstart, hle⟩)
    | Replace first' last' ordered' =>
      simp only [dedup_step] at h
      split at h
      · cases h
      · rename_i hout
        exact Or.inr (Nat.not_le.mp fun hle => hout ⟨hle, le_trans hstart ordered'⟩)
  | _ => cases hreplace

theorem dedup_step_not_replace {left : Placed A} (h : left.1.is_replace = false) (right : Placed A) :
    dedup_step left right = none := by
  cases hstep : dedup_step left right with
  | none => rfl
  | some merged =>
    rw [(dedup_step_some hstep).1] at h
    cases h

theorem dedup_origin {left out : Placed A} {rest : List (Placed A)} (hout : out ∈ dedup_from left rest)
    (hreplace : out.1.is_replace = true) :
    ∃ origin ∈ left :: rest, origin.1.is_replace = true ∧ origin.1.start = out.1.start := by
  induction rest generalizing left with
  | nil =>
    rw [dedup_from, List.mem_singleton] at hout
    exact ⟨left, List.mem_cons_self, hout ▸ hreplace, hout ▸ rfl⟩
  | cons right rest ih =>
    rw [dedup_from] at hout
    split at hout
    · rename_i merged hstep
      obtain ⟨hleft, -, hstart, -⟩ := dedup_step_some hstep
      obtain ⟨origin, horigin, hreplace', hstart'⟩ := ih hout
      rcases List.mem_cons.mp horigin with rfl | hold
      · exact ⟨left, List.mem_cons_self, hleft, hstart.symm.trans hstart'⟩
      · exact ⟨origin, by simp [hold], hreplace', hstart'⟩
    · rcases List.mem_cons.mp hout with rfl | hold
      · exact ⟨out, List.mem_cons_self, hreplace, rfl⟩
      · obtain ⟨origin, horigin, hrest⟩ := ih hold
        exact ⟨origin, List.mem_cons_of_mem _ horigin, hrest⟩

/-- The replacements left are disjoint, where no near block splits two: the block kept last is a replacement whose
    end is that of one of the blocks that came before. -/
theorem dedup_disjoint {blocks : List (Placed A)} (h : ∀ a ∈ blocks, ∀ near ∈ blocks, ∀ b ∈ blocks, ¬ Splits a near b)
    {left : Placed A} {rest : List (Placed A)} (harranged : Arranged rest)
    (hstart : ∀ block ∈ rest, left.1.start ≤ block.1.start) (hmem : ∀ block ∈ rest, block ∈ blocks)
    (horigin : left.1.is_replace = true → ∃ origin ∈ blocks, origin.1.is_replace = true ∧
      origin.1.stop = left.1.stop ∧ ∀ block ∈ rest, origin.1.start ≤ block.1.start) :
    (dedup_from left rest).Pairwise ReplaceDisjoint := by
  induction rest generalizing left with
  | nil => exact List.pairwise_singleton _ _
  | cons right rest ih =>
    have hright := hstart right List.mem_cons_self
    have hlater := harranged.starts
    have hrest := (List.pairwise_cons.mp harranged).2
    have hmem' : ∀ block ∈ rest, block ∈ blocks := fun block hblock => hmem block (List.mem_cons_of_mem _ hblock)
    rw [dedup_from]
    split
    · rename_i merged hstep
      obtain ⟨hleft, -, hmergedStart, -, -, hstop⟩ := dedup_step_some hstep
      obtain ⟨origin, horigin, hreplace, hend, hbefore⟩ := horigin hleft
      refine ih hrest (fun block hblock => ?_) hmem' fun _ => ?_
      · rw [hmergedStart]
        exact hstart block (List.mem_cons_of_mem _ hblock)
      · have hsame : merged.1.stop = left.1.stop → ∃ origin ∈ blocks, origin.1.is_replace = true ∧
            origin.1.stop = merged.1.stop ∧ ∀ block ∈ rest, origin.1.start ≤ block.1.start := fun hsame =>
          ⟨origin, horigin, hreplace, hend.trans hsame.symm, fun block hblock =>
            hbefore block (List.mem_cons_of_mem _ hblock)⟩
        rcases hstop with ⟨-, hstop⟩ | ⟨hrightReplace, hstop⟩
        · exact hsame hstop
        · rcases max_choice left.1.stop right.1.stop with hmax | hmax
          · exact hsame (hstop.trans hmax)
          · exact ⟨right, hmem right List.mem_cons_self, hrightReplace, (hstop.trans hmax).symm, hlater⟩
    · rename_i hstep
      refine List.pairwise_cons.mpr ⟨fun out hout hleft hreplace => ?_, ih hrest hlater hmem' fun hrightReplace =>
        ⟨right, hmem right List.mem_cons_self, hrightReplace, rfl, hlater⟩⟩
      obtain ⟨b, hb, hbReplace, hbStart⟩ := dedup_origin hout hreplace
      rw [← hbStart]
      left
      have hpast : right.1.start ≤ b.1.start := by
        rcases List.mem_cons.mp hb with rfl | hold
        · exact le_refl _
        · exact hlater b hold
      rcases dedup_step_none hstep hleft hright with hnear | hout
      · obtain ⟨origin, horigin, horiginReplace, hend, hbefore⟩ := horigin hleft
        have hnotReplace := BlockPlacement.near_not_replace hnear
        have hbRest : b ∈ rest := by
          rcases List.mem_cons.mp hb with rfl | hold
          · rw [hbReplace] at hnotReplace
            cases hnotReplace
          · exact hold
        have hlt := BlockPlacement.start_lt_of_cmp_replace ((List.pairwise_cons.mp harranged).1 b hbRest) hbReplace
          hnotReplace (BlockPlacement.near_stop hnear)
        rw [← hend]
        by_contra hle
        exact h origin horigin right (hmem right List.mem_cons_self) b (hmem' b hbRest)
          ⟨horiginReplace, hnear, hbReplace, hbefore right List.mem_cons_self, hlt, Nat.not_lt.mp hle⟩
      · exact hout.trans_le hpast

theorem dedup_covers {left a : Placed A} {rest : List (Placed A)} (ha : a ∈ left :: rest)
    (hreplace : a.1.is_replace = true) (hstart : ∀ block ∈ rest, left.1.start ≤ block.1.start)
    (harranged : Arranged rest) :
    ∃ out ∈ dedup_from left rest, out.1.is_replace = true ∧ out.1.start ≤ a.1.start ∧ a.1.stop ≤ out.1.stop := by
  induction rest generalizing left a with
  | nil =>
    obtain rfl := List.mem_singleton.mp ha
    exact ⟨a, List.mem_singleton_self a, hreplace, le_refl _, le_refl _⟩
  | cons right rest ih =>
    have hlater := harranged.starts
    have hrest := (List.pairwise_cons.mp harranged).2
    rw [dedup_from]
    split
    · rename_i merged hstep
      obtain ⟨-, hmerged, hmergedStart, -, -, hstop⟩ := dedup_step_some hstep
      have hstart' : ∀ block ∈ rest, merged.1.start ≤ block.1.start := fun block hblock => by
        rw [hmergedStart]
        exact hstart block (List.mem_cons_of_mem _ hblock)
      have hcovered : merged.1.start ≤ a.1.start → a.1.stop ≤ merged.1.stop → ∃ out ∈ dedup_from merged rest,
          out.1.is_replace = true ∧ out.1.start ≤ a.1.start ∧ a.1.stop ≤ out.1.stop := by
        intro hle hge
        obtain ⟨out, hout, houtReplace, hle', hge'⟩ := ih List.mem_cons_self hmerged hstart' hrest
        exact ⟨out, hout, houtReplace, hle'.trans hle, hge.trans hge'⟩
      rcases List.mem_cons.mp ha with rfl | ha
      · refine hcovered hmergedStart.le ?_
        rcases hstop with ⟨-, hstop⟩ | ⟨-, hstop⟩
        · exact hstop.ge
        · exact hstop ▸ le_max_left _ _
      · rcases List.mem_cons.mp ha with rfl | ha
        · refine hcovered (hmergedStart ▸ hstart a List.mem_cons_self) ?_
          rcases hstop with ⟨hnot, -⟩ | ⟨-, hstop⟩
          · rw [hreplace] at hnot
            cases hnot
          · exact hstop ▸ le_max_right _ _
        · exact ih (List.mem_cons_of_mem _ ha) hreplace hstart' hrest
    · rcases List.mem_cons.mp ha with rfl | ha
      · exact ⟨a, List.mem_cons_self, hreplace, le_refl _, le_refl _⟩
      · obtain ⟨out, hout, hresult⟩ := ih ha hreplace hlater hrest
        exact ⟨out, List.mem_cons_of_mem _ hout, hresult⟩

/-- The first replacement after a block that is not one is left where it starts. -/
theorem dedup_restarts {left b : Placed A} {rest : List (Placed A)} (hleft : left.1.is_replace = false) (hb : b ∈ rest)
    (hreplace : b.1.is_replace = true) (harranged : Arranged rest) :
    ∃ out ∈ dedup_from left rest, ∃ origin ∈ rest, origin.1.is_replace = true ∧ out.1.is_replace = true ∧
      out.1.start = origin.1.start ∧ origin.1.start ≤ b.1.start := by
  induction rest generalizing left with
  | nil => cases hb
  | cons right rest ih =>
    have hlater := harranged.starts
    have hrest := (List.pairwise_cons.mp harranged).2
    rw [dedup_from, dedup_step_not_replace hleft]
    dsimp only
    cases hright : right.1.is_replace with
    | true =>
      obtain ⟨out, hout, houtReplace, hle, -⟩ := dedup_covers List.mem_cons_self hright hlater hrest
      obtain ⟨origin, horigin, horiginReplace, hsame⟩ := dedup_origin hout houtReplace
      have hge : right.1.start ≤ origin.1.start := by
        rcases List.mem_cons.mp horigin with rfl | hold
        · exact le_refl _
        · exact hlater origin hold
      refine ⟨out, List.mem_cons_of_mem _ hout, right, List.mem_cons_self, hright, houtReplace,
        le_antisymm hle (hsame ▸ hge), ?_⟩
      rcases List.mem_cons.mp hb with rfl | hold
      · exact le_refl _
      · exact hlater b hold
    | false =>
      have hb' : b ∈ rest := by
        rcases List.mem_cons.mp hb with rfl | hold
        · rw [hreplace] at hright
          cases hright
        · exact hold
      obtain ⟨out, hout, origin, horigin, hresult⟩ := ih hright hb' hrest
      exact ⟨out, List.mem_cons_of_mem _ hout, origin, List.mem_cons_of_mem _ horigin, hresult⟩

/-- A near block is never swallowed: what is left after it comes from the blocks after it. -/
theorem dedup_at_near {left near : Placed A} {before after : List (Placed A)} (hnear : near.1.is_near = true) :
    ∃ front, dedup_from left (before ++ near :: after) = front ++ dedup_from near after := by
  induction before generalizing left with
  | nil =>
    rw [List.nil_append, dedup_from]
    cases hstep : dedup_step left near with
    | none => exact ⟨[left], rfl⟩
    | some merged =>
      rw [(dedup_step_some hstep).2.2.2.2.1] at hnear
      cases hnear
  | cons right before ih =>
    rw [List.cons_append, dedup_from]
    cases hstep : dedup_step left right with
    | none =>
      obtain ⟨front, hfront⟩ := @ih right
      exact ⟨left :: front, by rw [List.cons_append, ← hfront]⟩
    | some merged => exact ih

end zed.editor.block_map
