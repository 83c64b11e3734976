import Zed.Text.Patch

namespace zed.text.Patch

variable {β : Type} {old mid new : List β} {i j i' j' : Nat}

/-- Where the texts agree, both positions can move up together. -/
theorem Spans.advance {patch : Patch} (h : Spans old new i j patch i' j') {n : Nat}
    (hend : i + n ≤ i') (hhead : ∀ edit ∈ patch.head?, i + n ≤ edit.old.start) :
    Gap old new i j (i + n) (j + n) ∧ Spans old new (i + n) (j + n) patch i' j' := by
  cases patch with
  | nil => exact Gap.cut h (by omega)
  | cons edit edits =>
    obtain ⟨hgap, hold, hnew, hrest⟩ := h
    have hle := hhead edit rfl
    have hstart := hgap.old_le
    obtain ⟨hbefore, hafter⟩ := hgap.cut (n := n) (by omega)
    exact ⟨hbefore, hafter, hold, hnew, hrest⟩

private theorem mem_push_maybe_empty {patch : Patch} {edit pushed : Edit}
    (h : pushed ∈ push_maybe_empty patch edit) :
    pushed.old.start = edit.old.start ∨ ∃ prior ∈ patch, pushed.old.start = prior.old.start := by
  fun_induction Patch.push_maybe_empty patch edit with
  | case1 edit => exact Or.inl (by rw [List.mem_singleton.mp h])
  | case2 last edit htouch =>
    refine Or.inr ⟨last, List.mem_cons_self, ?_⟩
    rw [List.mem_singleton.mp h]
  | case3 last edit htouch =>
    rcases List.mem_cons.mp h with rfl | hlast
    · exact Or.inr ⟨_, List.mem_cons_self, rfl⟩
    · exact Or.inl (by rw [List.mem_singleton.mp hlast])
  | case4 first second edits edit ih =>
    rcases List.mem_cons.mp h with rfl | hrest
    · exact Or.inr ⟨_, List.mem_cons_self, rfl⟩
    · obtain heq | ⟨prior, hprior, heq⟩ := ih hrest
      · exact Or.inl heq
      · exact Or.inr ⟨prior, List.mem_cons_of_mem first hprior, heq⟩

private theorem Spans.push_maybe_empty {patch : Patch} {edit : Edit}
    (h : Spans old new i j patch i' j') (hseparate : patch.Separate)
    (hgap : Gap old new i' j' edit.old.start edit.new.start)
    (hold : edit.old.start ≤ edit.old.stop) (hnew : edit.new.start ≤ edit.new.stop) :
    Spans old new i j (push_maybe_empty patch edit) edit.old.stop edit.new.stop ∧
      Separate (push_maybe_empty patch edit) := by
  fun_induction Patch.push_maybe_empty patch edit generalizing i j with
  | case1 edit =>
    exact ⟨⟨Gap.trans h hgap, hold, hnew, Gap.refl _ _⟩, List.pairwise_singleton _ _⟩
  | case2 last edit htouch =>
    -- the last edit reaches the new one, so nothing lies between the two
    obtain ⟨hfirst, hlastOld, hlastNew, hbetween⟩ := h
    have hto := (Gap.trans hbetween hgap).shift
    have hle := (Gap.trans hbetween hgap).old_le
    refine ⟨⟨hfirst, ?_, ?_, Gap.refl _ _⟩, List.pairwise_singleton _ _⟩
    · exact hlastOld.trans (hle.trans hold)
    · change last.new.start ≤ edit.new.stop
      omega
  | case3 last edit htouch =>
    obtain ⟨hfirst, hlastOld, hlastNew, hbetween⟩ := h
    refine ⟨⟨hfirst, hlastOld, hlastNew, Gap.trans hbetween hgap, hold, hnew, Gap.refl _ _⟩, ?_⟩
    refine List.pairwise_cons.mpr ⟨fun later hlater => ?_, List.pairwise_singleton _ _⟩
    rw [List.mem_singleton.mp hlater]
    omega
  | case4 first second edits edit ih =>
    obtain ⟨hfirst, hfirstOld, hfirstNew, hrest⟩ := h
    obtain ⟨hbefore, htail⟩ := List.pairwise_cons.mp hseparate
    obtain ⟨hspans, hsep⟩ := ih hrest htail hgap hold hnew
    refine ⟨⟨hfirst, hfirstOld, hfirstNew, hspans⟩, ?_⟩
    refine List.pairwise_cons.mpr ⟨fun later hlater => ?_, hsep⟩
    obtain heq | ⟨prior, hprior, heq⟩ := mem_push_maybe_empty hlater
    · have hsecond := hbefore second List.mem_cons_self
      have hreach := hrest.le.1
      have hstart := hgap.old_le
      obtain ⟨hnext, hsecondOld, -, hlast⟩ := hrest
      have := hlast.le.1
      omega
    · rw [heq]
      exact hbefore prior hprior

theorem Spans.push {patch : Patch} (h : Spans old new i j patch i' j') (hseparate : patch.Separate)
    {a b c d : Nat} (hgap : Gap old new i' j' a c) (hold : a ≤ b) (hnew : c ≤ d) :
    Spans old new i j (push patch ⟨⟨a, b⟩, ⟨c, d⟩⟩) b d ∧ Separate (push patch ⟨⟨a, b⟩, ⟨c, d⟩⟩) := by
  unfold Patch.push Edit.is_empty
  by_cases hempty : a = b ∧ c = d
  · obtain ⟨rfl, rfl⟩ := hempty
    rw [if_pos (by simp)]
    exact ⟨h.extend hgap, hseparate⟩
  · rw [if_neg (by simpa using hempty)]
    exact h.push_maybe_empty hseparate hgap hold hnew

namespace Compose

/-- The cursors stand at the same place of the outer texts, reached by what has
    been composed, and of a position of the middle text that what is left of
    both patches starts from. -/
structure Inv (old mid new : List β) (s : Compose) : Prop where
  reached : Spans old new 0 0 s.composed s.old_start s.new_start
  separate : s.composed.Separate
  left : ∃ pos, Spans old mid s.old_start pos s.old_edits old.length mid.length ∧
    Spans mid new pos s.new_start s.new_edits mid.length new.length

/-- `Inv` between aligning two edits and consuming the shorter one. -/
structure Aligned (old mid new : List β) (s : Compose) (old_edit new_edit : Edit)
    (old_edits new_edits : List Edit) : Prop where
  reached : Spans old new 0 0 s.composed s.old_start s.new_start
  separate : s.composed.Separate
  old_start : old_edit.old.start = s.old_start
  new_start : new_edit.new.start = s.new_start
  meet : old_edit.new.start = new_edit.old.start
  old_ordered : old_edit.old.start ≤ old_edit.old.stop ∧ old_edit.new.start ≤ old_edit.new.stop
  new_ordered : new_edit.old.start ≤ new_edit.old.stop ∧ new_edit.new.start ≤ new_edit.new.stop
  old_rest : Spans old mid old_edit.old.stop old_edit.new.stop old_edits old.length mid.length
  new_rest : Spans mid new new_edit.old.stop new_edit.new.stop new_edits mid.length new.length

theorem push_old_inv {s : Compose} (h : Inv old mid new s) {old_edit : Edit} {old_edits : List Edit}
    (hold : s.old_edits = old_edit :: old_edits)
    (hbefore : ∀ edit ∈ s.new_edits.head?, old_edit.new.stop < edit.old.start) :
    Inv old mid new (s.push_old old_edit old_edits) := by
  obtain ⟨hreached, hseparate, pos, hleft, hright⟩ := h
  rw [hold] at hleft
  obtain ⟨hgap, hordOld, hordNew, hrest⟩ := hleft
  have hshift := hgap.shift
  have hstart := hgap.old_le
  have hend := hrest.le
  obtain ⟨hclear, -⟩ := hright.advance (n := old_edit.old.start - s.old_start) (by omega)
    (fun edit hedit => by
      have := hbefore edit hedit
      omega)
  obtain ⟨-, hafter⟩ := hright.advance (n := old_edit.new.stop - pos) (by omega)
    (fun edit hedit => by
      have := hbefore edit hedit
      omega)
  have hcatchup : s.old_start + (old_edit.old.start - s.old_start) = old_edit.old.start := by omega
  have hmiddle : pos + (old_edit.old.start - s.old_start) = old_edit.new.start := by omega
  rw [hmiddle] at hclear
  have hpush := hreached.push hseparate (hgap.comp hclear) hordOld
    (Nat.le_add_right (s.new_start + (old_edit.old.start - s.old_start)) old_edit.new_len)
  have hend_eq : old_edit.old.start + old_edit.old_len = old_edit.old.stop := by
    unfold Edit.old_len
    omega
  have hnew_eq : s.new_start + (old_edit.new.stop - pos) =
      s.new_start + (old_edit.old.start - s.old_start) + old_edit.new_len := by
    unfold Edit.new_len
    omega
  have hpos : pos + (old_edit.new.stop - pos) = old_edit.new.stop := by omega
  rw [hnew_eq, hpos] at hafter
  unfold push_old
  dsimp only
  rw [hcatchup, hend_eq]
  exact ⟨hpush.1, hpush.2, old_edit.new.stop, hrest, hafter⟩

theorem push_new_inv {s : Compose} (h : Inv old mid new s) {new_edit : Edit} {new_edits : List Edit}
    (hnew : s.new_edits = new_edit :: new_edits)
    (hbefore : ∀ edit ∈ s.old_edits.head?, new_edit.old.stop < edit.new.start) :
    Inv old mid new (s.push_new new_edit new_edits) := by
  obtain ⟨hreached, hseparate, pos, hleft, hright⟩ := h
  rw [hnew] at hright
  obtain ⟨hgap, hordOld, hordNew, hrest⟩ := hright
  have hshift := hgap.shift
  have hstart := hgap.old_le
  have hend := hrest.le
  have hroom : ∀ n, pos + n ≤ new_edit.old.stop → s.old_start + n ≤ old.length ∧
      ∀ edit ∈ s.old_edits.head?, s.old_start + n ≤ edit.old.start := by
    intro n hn
    cases hedits : s.old_edits with
    | nil =>
      rw [hedits] at hleft
      have := Gap.shift hleft
      exact ⟨by omega, by simp⟩
    | cons first edits =>
      rw [hedits] at hleft hbefore
      obtain ⟨hfirst, hfirstOld, -, hlater⟩ := hleft
      have := hbefore first rfl
      have := hfirst.shift
      have := hlater.le
      refine ⟨by omega, fun edit hedit => ?_⟩
      cases hedit
      omega
  obtain ⟨hclear, -⟩ := hleft.advance (hroom (new_edit.new.start - s.new_start) (by omega)).1
    (hroom _ (by omega)).2
  obtain ⟨-, hafter⟩ := hleft.advance (hroom (new_edit.old.stop - pos) (by omega)).1
    (hroom _ (by omega)).2
  have hmiddle : pos + (new_edit.new.start - s.new_start) = new_edit.old.start := by omega
  have hcatchup : s.new_start + (new_edit.new.start - s.new_start) = new_edit.new.start := by
    have := hgap.new_le
    omega
  rw [hmiddle] at hclear
  have hpush := hreached.push hseparate (hclear.comp hgap)
    (Nat.le_add_right (s.old_start + (new_edit.new.start - s.new_start)) new_edit.old_len) hordNew
  have hend_eq : new_edit.new.start + new_edit.new_len = new_edit.new.stop := by
    unfold Edit.new_len
    omega
  have hold_eq : s.old_start + (new_edit.old.stop - pos) =
      s.old_start + (new_edit.new.start - s.new_start) + new_edit.old_len := by
    unfold Edit.old_len
    omega
  have hpos : pos + (new_edit.old.stop - pos) = new_edit.old.stop := by omega
  rw [hold_eq, hpos] at hafter
  unfold push_new
  dsimp only
  rw [hcatchup, hend_eq]
  exact ⟨hpush.1, hpush.2, new_edit.old.stop, hafter, hrest⟩

theorem align_aligned {s : Compose} (h : Inv old mid new s) {old_edit new_edit : Edit}
    {old_edits new_edits : List Edit} (hold : s.old_edits = old_edit :: old_edits)
    (hnew : s.new_edits = new_edit :: new_edits) (hnotOld : ¬ old_edit.new.stop < new_edit.old.start)
    (hnotNew : ¬ new_edit.old.stop < old_edit.new.start) :
    Aligned old mid new (s.align old_edit new_edit).1 (s.align old_edit new_edit).2.1
      (s.align old_edit new_edit).2.2 old_edits new_edits := by
  obtain ⟨hreached, hseparate, pos, hleft, hright⟩ := h
  rw [hold] at hleft
  rw [hnew] at hright
  obtain ⟨hgapOld, hoOld, hoNew, hoRest⟩ := hleft
  obtain ⟨hgapNew, hnOld, hnNew, hnRest⟩ := hright
  have hshiftOld := hgapOld.shift
  have hshiftNew := hgapNew.shift
  have hleOld := hgapOld.old_le
  have hleNew := hgapNew.old_le
  unfold align
  split
  · -- the old edit starts first: its part before the new edit is pushed
    rename_i hfirst
    obtain ⟨hclear, hover⟩ := hgapNew.cut (n := old_edit.old.start - s.old_start) (by omega)
    have hcatchup : s.old_start + (old_edit.old.start - s.old_start) = old_edit.old.start := by omega
    have hmiddle : pos + (old_edit.old.start - s.old_start) = old_edit.new.start := by omega
    have hshiftOver := hover.shift
    rw [hmiddle] at hclear
    have hpush := hreached.push hseparate (hgapOld.comp hclear)
      (show old_edit.old.start ≤ min (old_edit.old.start + (new_edit.old.start - old_edit.new.start))
        old_edit.old.stop by omega)
      (Nat.le_add_right (s.new_start + (old_edit.old.start - s.old_start))
        (new_edit.old.start - old_edit.new.start))
    dsimp only
    rw [hcatchup]
    refine ⟨hpush.1, hpush.2, rfl, ?_, ?_, ⟨?_, ?_⟩, ⟨hnOld, hnNew⟩, hoRest, hnRest⟩ <;> dsimp only <;>
      omega
  · -- the new edit starts first: its part before the old edit is pushed
    rename_i hfirst
    obtain ⟨hclear, hover⟩ := hgapOld.cut (n := new_edit.new.start - s.new_start) (by omega)
    have hcatchup : s.new_start + (new_edit.new.start - s.new_start) = new_edit.new.start := by
      have := hgapNew.new_le
      omega
    have hmiddle : pos + (new_edit.new.start - s.new_start) = new_edit.old.start := by omega
    have hshiftOver := hover.shift
    rw [hmiddle] at hclear
    have hpush := hreached.push hseparate (hclear.comp hgapNew)
      (Nat.le_add_right (s.old_start + (new_edit.new.start - s.new_start))
        (old_edit.new.start - new_edit.old.start))
      (show new_edit.new.start ≤ min (new_edit.new.start + (old_edit.new.start - new_edit.old.start))
        new_edit.new.stop by omega)
    dsimp only
    rw [hcatchup]
    refine ⟨hpush.1, hpush.2, ?_, rfl, ?_, ⟨hoOld, hoNew⟩, ⟨?_, ?_⟩, hoRest, hnRest⟩ <;> dsimp only <;>
      omega

theorem consume_inv {s : Compose} {old_edit new_edit : Edit} {old_edits new_edits : List Edit}
    (h : Aligned old mid new s old_edit new_edit old_edits new_edits) :
    Inv old mid new (s.consume old_edit new_edit old_edits new_edits) := by
  obtain ⟨hreached, hseparate, hold, hnew, hmeet, ⟨hoOld, hoNew⟩, ⟨hnOld, hnNew⟩, hoRest, hnRest⟩ := h
  unfold consume
  split
  · rename_i hlonger
    have hpush := hreached.push hseparate (Gap.refl _ _)
      (Nat.le_add_right s.old_start (min old_edit.old_len new_edit.old_len))
      (Nat.le_add_right s.new_start new_edit.new_len)
    have hnewEnd : s.new_start + new_edit.new_len = new_edit.new.stop := by
      unfold Edit.new_len
      omega
    have holdEnd : s.old_start + min old_edit.old_len new_edit.old_len ≤ old_edit.old.stop := by
      unfold Edit.old_len
      omega
    refine ⟨hpush.1, hpush.2, new_edit.old.stop, ⟨Gap.refl _ _, holdEnd, hlonger.le, hoRest⟩, ?_⟩
    dsimp only
    rw [hnewEnd]
    exact hnRest
  · rename_i hlonger
    have hpush := hreached.push hseparate (Gap.refl _ _)
      (Nat.le_add_right s.old_start old_edit.old_len)
      (Nat.le_add_right s.new_start (min old_edit.new_len new_edit.new_len))
    have holdEnd : s.old_start + old_edit.old_len = old_edit.old.stop := by
      unfold Edit.old_len
      omega
    have hnewEnd : s.new_start + min old_edit.new_len new_edit.new_len ≤ new_edit.new.stop := by
      unfold Edit.new_len
      omega
    refine ⟨hpush.1, hpush.2, old_edit.new.stop, ?_,
      ⟨Gap.refl _ _, Nat.le_of_not_gt hlonger, hnewEnd, hnRest⟩⟩
    dsimp only
    rw [holdEnd]
    exact hoRest

theorem step_inv {s next : Compose} (h : Inv old mid new s) (hstep : s.step = some next) :
    Inv old mid new next := by
  unfold step at hstep
  cases hold : s.old_edits with
  | nil =>
    cases hnew : s.new_edits with
    | nil => simp [hold, hnew] at hstep
    | cons new_edit new_edits =>
      simp only [hold, hnew, Option.some.injEq] at hstep
      subst hstep
      exact push_new_inv h hnew (by simp [hold])
  | cons old_edit old_edits =>
    cases hnew : s.new_edits with
    | nil =>
      simp only [hold, hnew, Option.some.injEq] at hstep
      subst hstep
      exact push_old_inv h hold (by simp [hnew])
    | cons new_edit new_edits =>
      simp only [hold, hnew] at hstep
      split at hstep
      · rename_i hbefore
        obtain rfl := Option.some.inj hstep
        exact push_old_inv h hold (by simpa [hnew] using hbefore)
      · rename_i hnotOld
        split at hstep
        · rename_i hbefore
          obtain rfl := Option.some.inj hstep
          exact push_new_inv h hnew (by simpa [hold] using hbefore)
        · rename_i hnotNew
          obtain rfl := Option.some.inj hstep
          exact consume_inv (align_aligned h hold hnew hnotOld hnotNew)

/-- The loop breaks when both lists are used up. -/
theorem step_eq_none {s : Compose} (hstep : s.step = none) : s.old_edits = [] ∧ s.new_edits = [] := by
  unfold step at hstep
  cases hold : s.old_edits with
  | nil =>
    cases hnew : s.new_edits with
    | nil => exact ⟨rfl, rfl⟩
    | cons new_edit new_edits => simp [hold, hnew] at hstep
  | cons old_edit old_edits =>
    cases hnew : s.new_edits with
    | nil => simp [hold, hnew] at hstep
    | cons new_edit new_edits =>
      simp only [hold, hnew] at hstep
      split at hstep
      · cases hstep
      · split at hstep <;> cases hstep

theorem step_none_takes {s : Compose} (h : Inv old mid new s) (hstep : s.step = none) :
    s.composed.Takes old new := by
  obtain ⟨hold, hnew⟩ := step_eq_none hstep
  obtain ⟨hreached, hseparate, pos, hleft, hright⟩ := h
  rw [hold] at hleft
  rw [hnew] at hright
  exact takes_of_spans (hreached.extend (Gap.comp hleft hright)) hseparate

theorem run_takes {s : Compose} (h : Inv old mid new s) : s.run.Takes old new := by
  fun_induction Compose.run s with
  | case1 s hstep => exact step_none_takes h hstep
  | case2 s next hstep ih => exact ih (step_inv h hstep)

/-- `n` iterations of the loop, `none` when it breaks earlier. -/
def iterate : Nat → Compose → Option Compose
  | 0, s => some s
  | n + 1, s => s.step.bind (iterate n)

theorem run_eq_iterate (s : Compose) :
    ∃ last, iterate (s.old_edits.length + s.new_edits.length) s = some last ∧ last.step = none ∧
      s.run = last.composed := by
  fun_induction Compose.run s with
  | case1 s hstep =>
    obtain ⟨hold, hnew⟩ := step_eq_none hstep
    rw [hold, hnew]
    exact ⟨s, rfl, hstep, rfl⟩
  | case2 s next hstep ih =>
    obtain ⟨last, hiterate, hlast, hrun⟩ := ih
    refine ⟨last, ?_, hlast, hrun⟩
    rw [← step_length hstep, iterate, hstep]
    exact hiterate

end Compose

theorem compose_takes {patch new_edits : Patch} (hpatch : patch.Takes old mid)
    (hnew : Takes new_edits mid new) : (patch.compose new_edits).Takes old new :=
  Compose.run_takes
    { reached := Gap.refl 0 0
      separate := List.Pairwise.nil
      left := ⟨0, hpatch.spans, hnew.spans⟩ }

/-- `Patch::compose` is composition: its loop breaks after one iteration for each
    edit of either patch, and the result is a well-formed patch from the first
    text to the last. -/
theorem compose_is_composition {patch new_edits : Patch} (hpatch : patch.Takes old mid)
    (hnew : Takes new_edits mid new) :
    (∃ last : Compose,
      Compose.iterate (patch.length + new_edits.length) (Compose.start patch new_edits) = some last ∧
        last.step = none ∧ patch.compose new_edits = last.composed) ∧
      (patch.compose new_edits).Takes old new :=
  ⟨Compose.run_eq_iterate (Compose.start patch new_edits), compose_takes hpatch hnew⟩

theorem compose_is_composition_overlap :
    (compose [⟨⟨1, 3⟩, ⟨1, 2⟩⟩, ⟨⟨4, 4⟩, ⟨3, 5⟩⟩] [⟨⟨0, 2⟩, ⟨0, 0⟩⟩, ⟨⟨4, 5⟩, ⟨2, 3⟩⟩]).Takes
      [1, 2, 3, 4, 5] [4, 7, 9, 5] :=
  (compose_is_composition (show Takes _ [1, 2, 3, 4, 5] [1, 6, 4, 7, 8, 5] by decide) (by decide)).2

end zed.text.Patch
