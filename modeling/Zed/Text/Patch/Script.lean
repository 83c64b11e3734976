import Zed.Text.Patch.Compose

namespace zed.text.Patch

variable {β : Type} {old new : List β} {i j i' j' : Nat} {patch : Patch}

private theorem Gap.mono (h : Gap old new i j i' j') (hold : i' ≤ old.length) (hnew : j' ≤ new.length)
    (xs ys : List β) : Gap (old ++ xs) (new ++ ys) i j i' j' := by
  have hle := h.old_le
  have hshift := h.shift
  refine ⟨hle, hshift, fun k hk => ?_⟩
  rw [List.getElem?_append_left (by omega), List.getElem?_append_left (by omega)]
  exact h.same k hk

private theorem Spans.mono (h : Spans old new i j patch i' j') (hold : i' ≤ old.length)
    (hnew : j' ≤ new.length) (xs ys : List β) : Spans (old ++ xs) (new ++ ys) i j patch i' j' := by
  induction patch generalizing i j with
  | nil => exact Gap.mono h hold hnew xs ys
  | cons edit edits ih =>
    obtain ⟨hgap, hordOld, hordNew, hrest⟩ := h
    have hle := hrest.le
    exact ⟨hgap.mono (by omega) (by omega) xs ys, hordOld, hordNew, ih hrest⟩

/-- A patch that was pushed while both texts were written from left to right. -/
structure Leads (patch : Patch) (old new : List β) : Prop where
  spans : Spans old new 0 0 patch old.length new.length
  separate : patch.Separate

namespace Leads

theorem nil : Leads [] ([] : List β) [] := ⟨Gap.refl 0 0, List.Pairwise.nil⟩

theorem keep (h : patch.Leads old new) (xs : List β) : patch.Leads (old ++ xs) (new ++ xs) := by
  refine ⟨(h.spans.mono le_rfl le_rfl xs xs).extend ⟨?_, ?_, fun k _ => ?_⟩, h.separate⟩
  · simp
  · simp
    omega
  · rw [List.getElem?_append_right (by omega), List.getElem?_append_right (by omega),
      Nat.add_sub_cancel_left, Nat.add_sub_cancel_left]

theorem replace (h : patch.Leads old new) (xs ys : List β) :
    (push patch ⟨⟨old.length, old.length + xs.length⟩, ⟨new.length, new.length + ys.length⟩⟩).Leads
      (old ++ xs) (new ++ ys) := by
  have hpush := (h.spans.mono le_rfl le_rfl xs ys).push h.separate (Gap.refl _ _)
    (Nat.le_add_right old.length xs.length) (Nat.le_add_right new.length ys.length)
  exact ⟨by simpa using hpush.1, hpush.2⟩

theorem takes (h : patch.Leads old new) : patch.Takes old new := takes_of_spans h.spans h.separate

end Leads

end zed.text.Patch
