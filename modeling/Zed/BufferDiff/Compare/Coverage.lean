import Zed.BufferDiff.Compare

namespace zed.buffer_diff

/-- The part of a list from the last element with a property on, all of it where none has the property. -/
def from_last {α : Type} (p : α → Bool) : List α → List α
  | [] => []
  | a :: l => if l.any p then from_last p l else a :: l

/-- A maximum kept over a list, which the elements with a property replace. -/
def furthest {α β : Type} [LinearOrder β] (p : α → Bool) (f : α → β) (kept : Option β) (l : List α) : Option β :=
  l.foldl (fun kept a => some (if p a then f a else kept.elim (f a) (max · (f a)))) kept

section Furthest

variable {α β : Type} [LinearOrder β] {p : α → Bool} {f : α → β}

theorem from_last_of_none {l : List α} (hany : l.any p = false) : from_last p l = l := by
  cases l with
  | nil => rfl
  | cons a l =>
    have hrest : l.any p = false := by
      rw [List.any_cons, Bool.or_eq_false_iff] at hany
      exact hany.2
    simp [from_last, hrest]

theorem furthest_isGreatest {l : List α} {kept : Option β} {value : β} (hvalue : furthest p f kept l = some value) :
    IsGreatest {v | (l.any p = false ∧ kept = some v) ∨ ∃ a ∈ from_last p l, f a = v} value := by
  induction l generalizing kept with
  | nil =>
    have hkept : kept = some value := hvalue
    refine ⟨Or.inl ⟨rfl, hkept⟩, ?_⟩
    rintro v (⟨-, hv⟩ | ⟨a, ha, -⟩)
    · rw [hkept] at hv
      exact (Option.some.inj hv).ge
    · cases ha
  | cons a l ih =>
    rw [furthest, List.foldl_cons] at hvalue
    obtain ⟨hmem, hub⟩ := ih hvalue
    cases hany : l.any p with
    | true =>
      -- A later element replaces what is kept.
      have hlast : from_last p (a :: l) = from_last p l := by simp [from_last, hany]
      have hboth : (a :: l).any p = true := by simp [hany]
      simp only [hany, hlast, hboth, Bool.true_eq_false, false_and, false_or] at hmem hub ⊢
      exact ⟨hmem, hub⟩
    | false =>
      have hlast : from_last p (a :: l) = a :: l := by simp [from_last, hany]
      simp only [hany, hlast, from_last_of_none hany, true_and] at hmem hub ⊢
      cases ha : p a with
      | true =>
        simp only [ha, if_true] at hmem hub
        refine ⟨?_, ?_⟩
        · rcases hmem with hmem | ⟨b, hb, hfb⟩
          · exact Or.inr ⟨a, List.mem_cons_self, Option.some.inj hmem⟩
          · exact Or.inr ⟨b, List.mem_cons_of_mem _ hb, hfb⟩
        · rintro v (⟨hnone, -⟩ | ⟨b, hb, rfl⟩)
          · simp [ha] at hnone
          · rcases List.mem_cons.mp hb with rfl | hb
            · exact hub (Or.inl rfl)
            · exact hub (Or.inr ⟨b, hb, rfl⟩)
      | false =>
        simp only [ha, Bool.false_eq_true, if_false] at hmem hub
        have hnone : (a :: l).any p = false := by simp [ha, hany]
        refine ⟨?_, ?_⟩
        · rcases hmem with hmem | ⟨b, hb, hfb⟩
          · cases kept with
            | none => exact Or.inr ⟨a, List.mem_cons_self, Option.some.inj hmem⟩
            | some k =>
              have hmax : max k (f a) = value := Option.some.inj hmem
              rcases max_choice k (f a) with hk | hk
              · exact Or.inl ⟨hnone, by rw [← hmax, hk]⟩
              · exact Or.inr ⟨a, List.mem_cons_self, by rw [← hmax, hk]⟩
          · exact Or.inr ⟨b, List.mem_cons_of_mem _ hb, hfb⟩
        · rintro v (⟨-, rfl⟩ | ⟨b, hb, rfl⟩)
          · exact (le_max_left v (f a)).trans (hub (Or.inl rfl))
          · rcases List.mem_cons.mp hb with rfl | hb
            · cases kept with
              | none => exact hub (Or.inl rfl)
              | some k => exact (le_max_right k (f b)).trans (hub (Or.inl rfl))
            · exact hub (Or.inr ⟨b, hb, rfl⟩)

theorem furthest_isSome {l : List α} {kept : Option β} (hne : l ≠ []) : ∃ value, furthest p f kept l = some value := by
  induction l using List.reverseRecOn with
  | nil => exact absurd rfl hne
  | append_singleton l a =>
    rw [furthest, List.foldl_append, List.foldl_cons, List.foldl_nil]
    cases p a with
    | true => exact ⟨_, rfl⟩
    | false => exact ⟨_, rfl⟩

theorem le_furthest_iff {l : List α} {value bound : β} (hvalue : furthest p f none l = some value) :
    bound ≤ value ↔ ∃ a ∈ from_last p l, bound ≤ f a := by
  obtain ⟨hmem, hub⟩ := furthest_isGreatest hvalue
  constructor
  · intro hle
    rcases hmem with ⟨-, hnone⟩ | ⟨a, ha, hfa⟩
    · cases hnone
    · exact ⟨a, ha, hle.trans hfa.ge⟩
  · rintro ⟨a, ha, hle⟩
    exact hle.trans (hub (Or.inr ⟨a, ha, rfl⟩))

end Furthest

/-- A place where two trees differ: a hunk of one of them, or two different hunks with one start. Its base text range
    is in the new base text. -/
structure Change (A : Type) where
  buffer_range : Range A
  base_text_range : Range Nat
  /-- Whether both trees had hunks left. -/
  together : Bool
  /-- Whether it is two hunks with one start. -/
  paired : Bool
deriving DecidableEq

section Model

variable {A B : Type} [LinearOrder A] [LinearOrder B] (base_texts : BaseTexts B)

def old_base_text_range (hunk : InternalDiffHunk A) : Range Nat :=
  ⟨base_texts.to_offset (base_texts.old_anchor_after hunk.diff_base_byte_range.start),
    base_texts.to_offset (base_texts.old_anchor_after hunk.diff_base_byte_range.stop)⟩

/-- The changes between two trees in the order of their starts, without the hunks that they share. -/
def changes : List (InternalDiffHunk A) → List (InternalDiffHunk A) → List (Change A)
  | new_hunk :: new_hunks, old_hunk :: old_hunks =>
    match compare new_hunk.buffer_range.start old_hunk.buffer_range.start with
    | .lt =>
      ⟨new_hunk.buffer_range, new_hunk.diff_base_byte_range, true, false⟩ :: changes new_hunks (old_hunk :: old_hunks)
    | .eq =>
      if new_hunk = old_hunk then changes new_hunks old_hunks
      else
        ⟨⟨new_hunk.buffer_range.start, max old_hunk.buffer_range.stop new_hunk.buffer_range.stop⟩,
          ⟨new_hunk.diff_base_byte_range.start,
            max (old_base_text_range base_texts old_hunk).stop new_hunk.diff_base_byte_range.stop⟩, true, true⟩ ::
          changes new_hunks old_hunks
    | .gt =>
      ⟨old_hunk.buffer_range, old_base_text_range base_texts old_hunk, true, false⟩ ::
        changes (new_hunk :: new_hunks) old_hunks
  | new_hunk :: new_hunks, [] =>
    ⟨new_hunk.buffer_range, new_hunk.diff_base_byte_range, false, false⟩ :: changes new_hunks []
  | [], old_hunk :: old_hunks =>
    ⟨old_hunk.buffer_range, old_base_text_range base_texts old_hunk, false, false⟩ :: changes [] old_hunks
  | [], [] => []
termination_by new_hunks old_hunks => new_hunks.length + old_hunks.length

/-- A hunk tree: the hunks are in order and do not overlap. -/
structure Sorted (hunks : List (InternalDiffHunk A)) : Prop where
  forward : ∀ hunk ∈ hunks, hunk.buffer_range.start ≤ hunk.buffer_range.stop
  disjoint : hunks.Pairwise fun a b => a.buffer_range.stop ≤ b.buffer_range.start

/-- The base text of every hunk is in a text of a length. -/
def Within (len : Nat) (hunks : List (InternalDiffHunk A)) : Prop :=
  ∀ hunk ∈ hunks, hunk.diff_base_byte_range.start ≤ hunk.diff_base_byte_range.stop ∧
    hunk.diff_base_byte_range.stop ≤ len

def differing (new_hunks old_hunks : List (InternalDiffHunk A)) : List (Range A × Range Nat) :=
  ((new_hunks.filter fun hunk => decide (hunk ∉ old_hunks)).map fun hunk =>
    (hunk.buffer_range, hunk.diff_base_byte_range)) ++
  ((old_hunks.filter fun hunk => decide (hunk ∉ new_hunks)).map fun hunk =>
    (hunk.buffer_range, old_base_text_range base_texts hunk))

/-- What a comparison has to tell about two trees. -/
structure Reports (new_hunks old_hunks : List (InternalDiffHunk A)) (changed : DiffChanged A) : Prop where
  none_iff : changed.changed_range = none ↔ new_hunks = old_hunks
  covers_buffer : ∀ ranges ∈ differing base_texts new_hunks old_hunks, ∃ range, changed.changed_range = some range ∧
    range.start ≤ ranges.1.start ∧ ranges.1.stop ≤ range.stop
  covers_base_text : ∀ ranges ∈ differing base_texts new_hunks old_hunks, ∃ range,
    changed.base_text_changed_range = some range ∧ range.start ≤ ranges.2.start ∧ ranges.2.stop ≤ range.stop
  extends_changed : ∀ range, changed.changed_range = some range → ∃ extended,
    changed.extended_range = some extended ∧ extended.start ≤ range.start ∧ range.stop ≤ extended.stop

/-- No differing hunk reaches past what the comparison looks at after it sets an end anew: the changes from the last one
    at which both trees had hunks left in the buffer, from the last two hunks with one start in the base text. The base
    text of none starts before that of the first change. -/
structure WithinReach (new_hunks old_hunks : List (InternalDiffHunk A)) : Prop where
  buffer_end : ∀ ranges ∈ differing base_texts new_hunks old_hunks,
    ∃ change ∈ from_last Change.together (changes base_texts new_hunks old_hunks),
      ranges.1.stop ≤ change.buffer_range.stop
  base_text_start : ∀ ranges ∈ differing base_texts new_hunks old_hunks,
    ∀ first ∈ (changes base_texts new_hunks old_hunks).head?, first.base_text_range.start ≤ ranges.2.start
  base_text_end : ∀ ranges ∈ differing base_texts new_hunks old_hunks,
    ∃ change ∈ from_last Change.paired (changes base_texts new_hunks old_hunks),
      ranges.2.stop ≤ change.base_text_range.stop

/-- One turn of the loop takes a change into its variables. -/
structure Takes (s : Comparison A B) (change : Change A) (s' : Comparison A B) : Prop where
  start : s'.start = some (s.start.getD change.buffer_range.start)
  stop : s'.stop = some (if change.together then change.buffer_range.stop
    else s.stop.elim change.buffer_range.stop (max · change.buffer_range.stop))
  base_text_start : s'.base_text_start.map base_texts.to_offset =
    some ((s.base_text_start.map base_texts.to_offset).getD change.base_text_range.start)
  base_text_end : s'.base_text_end.map base_texts.to_offset = some (if change.paired then change.base_text_range.stop
    else (s.base_text_end.map base_texts.to_offset).elim change.base_text_range.stop
      (max · change.base_text_range.stop))
  has_changes : s'.has_changes = true

/-- The variables at the end of the loop, from those at its start and the changes between. -/
structure Collects (s : Comparison A B) (taken : List (Change A)) (s' : Comparison A B) : Prop where
  start : s'.start = s.start.or (taken.head?.map fun change => change.buffer_range.start)
  stop : s'.stop = furthest Change.together (fun change => change.buffer_range.stop) s.stop taken
  base_text_start : s'.base_text_start.map base_texts.to_offset = (s.base_text_start.map base_texts.to_offset).or
    (taken.head?.map fun change => change.base_text_range.start)
  base_text_end : s'.base_text_end.map base_texts.to_offset = furthest Change.paired
    (fun change => change.base_text_range.stop) (s.base_text_end.map base_texts.to_offset) taken
  has_changes : s'.has_changes = (s.has_changes || !taken.isEmpty)

variable {base_texts}

theorem Collects.refl (s : Comparison A B) : Collects base_texts s [] s where
  start := by simp
  stop := rfl
  base_text_start := by simp
  base_text_end := rfl
  has_changes := by simp

theorem Collects.skip {s s' s'' : Comparison A B} {taken : List (Change A)} (hrest : Collects base_texts s' taken s'')
    (hsame : ∃ unchanged candidate,
      s' = { s with last_unchanged_new_hunk_end := unchanged, extended_end_candidate := candidate }) :
    Collects base_texts s taken s'' := by
  obtain ⟨unchanged, candidate, rfl⟩ := hsame
  exact ⟨hrest.start, hrest.stop, hrest.base_text_start, hrest.base_text_end, hrest.has_changes⟩

theorem Collects.cons {s s' s'' : Comparison A B} {change : Change A} {taken : List (Change A)}
    (htakes : Takes base_texts s change s') (hrest : Collects base_texts s' taken s'') :
    Collects base_texts s (change :: taken) s'' where
  start := by
    rw [hrest.start, htakes.start]
    cases s.start <;> rfl
  stop := by
    rw [hrest.stop, htakes.stop]
    rfl
  base_text_start := by
    rw [hrest.base_text_start, htakes.base_text_start]
    cases s.base_text_start <;> rfl
  base_text_end := by
    rw [hrest.base_text_end, htakes.base_text_end]
    rfl
  has_changes := by
    rw [hrest.has_changes, htakes.has_changes]
    simp

theorem replace_if_le {α : Type} [LinearOrder α] (kept : Option α) (value : α) :
    (if kept.all fun stop => decide (stop ≤ value) then some value else kept) =
      some (kept.elim value (max · value)) := by
  cases kept with
  | none => rfl
  | some stop =>
    by_cases hle : stop ≤ value
    · simp [hle]
    · simp [hle, max_eq_left (le_of_not_ge hle)]

theorem map_replace_if_gt {f : B → Nat} (hf : Monotone f) (kept : Option B) (value : B) :
    (if kept.all fun stop => decide (value > stop) then some value else kept).map f =
      some ((kept.map f).elim (f value) (max · (f value))) := by
  cases kept with
  | none => rfl
  | some stop =>
    by_cases hgt : value > stop
    · simp [hgt, hf hgt.le]
    · simp [hgt, hf (le_of_not_gt hgt)]

omit [LinearOrder B] in
theorem map_get_or_insert (f : B → Nat) (kept : Option B) (value : B) :
    (get_or_insert kept value).map f = some ((kept.map f).getD (f value)) := by
  cases kept <;> rfl

theorem compare_loop_collects {new_hunks old_hunks : List (InternalDiffHunk A)}
    (hwithin : Within base_texts.new_len new_hunks) (s : Comparison A B) :
    Collects base_texts s (changes base_texts new_hunks old_hunks)
      (compare_loop base_texts new_hunks old_hunks s) := by
  have hbase : ∀ hunk ∈ new_hunks,
      base_texts.to_offset (base_texts.new_anchor_before hunk.diff_base_byte_range.start) =
        hunk.diff_base_byte_range.start ∧
      base_texts.to_offset (base_texts.new_anchor_after hunk.diff_base_byte_range.start) =
        hunk.diff_base_byte_range.start ∧
      base_texts.to_offset (base_texts.new_anchor_after hunk.diff_base_byte_range.stop) =
        hunk.diff_base_byte_range.stop := fun hunk hhunk =>
    have hbounds := hwithin hunk hhunk
    ⟨base_texts.before_to_offset _ (hbounds.1.trans hbounds.2), base_texts.after_to_offset _ (hbounds.1.trans hbounds.2),
      base_texts.after_to_offset _ hbounds.2⟩
  clear hwithin
  induction new_hunks, old_hunks using changes.induct generalizing s with
  | case1 new_hunk new_hunks old_hunk old_hunks hcmp ih =>
    rw [compare_loop, changes, hcmp]
    obtain ⟨hbefore, -, hafter⟩ := hbase new_hunk List.mem_cons_self
    refine Collects.cons ⟨rfl, rfl, ?_, ?_, rfl⟩ (ih _ fun hunk hhunk => hbase hunk (List.mem_cons_of_mem _ hhunk))
    · rw [map_get_or_insert, hbefore]
    · rw [map_replace_if_gt base_texts.to_offset_mono, hafter]
      rfl
  | case2 new_hunk new_hunks old_hunks hcmp ih =>
    rw [compare_loop, changes, hcmp]
    simp only [ne_eq, not_true_eq_false, if_false, if_true]
    refine (ih _ fun hunk hhunk => hbase hunk (List.mem_cons_of_mem _ hhunk)).skip ?_
    split_ifs
    · exact ⟨_, _, rfl⟩
    · exact ⟨_, _, rfl⟩
    · exact ⟨_, _, rfl⟩
  | case3 new_hunk new_hunks old_hunk old_hunks hcmp hne ih =>
    rw [compare_loop, changes, hcmp]
    obtain ⟨hbefore, -, hafter⟩ := hbase new_hunk List.mem_cons_self
    simp only [ne_eq, hne, not_false_eq_true, if_true, if_false]
    refine Collects.cons ⟨rfl, ?_, ?_, ?_, rfl⟩ (ih _ fun hunk hhunk => hbase hunk (List.mem_cons_of_mem _ hhunk))
    · simp only [if_true]
      split_ifs with hge
      · rw [max_eq_left hge]
      · rw [max_eq_right (le_of_not_ge hge)]
    · rw [map_get_or_insert, hbefore]
    · simp only [Option.map_some, base_texts.to_offset_mono.map_max, hafter, if_true]
      rfl
  | case4 new_hunk new_hunks old_hunk old_hunks hcmp ih =>
    rw [compare_loop, changes, hcmp]
    refine Collects.cons ⟨rfl, rfl, ?_, ?_, rfl⟩ (ih _ hbase)
    · rw [map_get_or_insert]
      rfl
    · rw [map_replace_if_gt base_texts.to_offset_mono]
      rfl
  | case5 new_hunk new_hunks ih =>
    rw [compare_loop, changes]
    obtain ⟨-, hafter_start, hafter⟩ := hbase new_hunk List.mem_cons_self
    refine Collects.cons ⟨rfl, replace_if_le _ _, ?_, ?_, rfl⟩
      (ih _ fun hunk hhunk => hbase hunk (List.mem_cons_of_mem _ hhunk))
    · rw [map_get_or_insert, hafter_start]
    · rw [map_replace_if_gt base_texts.to_offset_mono, hafter]
      rfl
  | case6 old_hunk old_hunks ih =>
    rw [compare_loop, changes]
    refine Collects.cons ⟨rfl, replace_if_le _ _, ?_, ?_, rfl⟩ (ih _ hbase)
    · rw [map_get_or_insert]
      rfl
    · rw [map_replace_if_gt base_texts.to_offset_mono]
      rfl
  | case7 =>
    rw [compare_loop, changes]
    exact Collects.refl s

/-! ### The trees and the changes between them -/

theorem changes_eq_nil_iff {new_hunks old_hunks : List (InternalDiffHunk A)} :
    changes base_texts new_hunks old_hunks = [] ↔ new_hunks = old_hunks := by
  induction new_hunks, old_hunks using changes.induct with
  | case1 new_hunk new_hunks old_hunk old_hunks hcmp ih =>
    rw [changes, hcmp]
    refine iff_of_false (List.cons_ne_nil _ _) ?_
    rintro ⟨⟩
    simp at hcmp
  | case2 new_hunk new_hunks old_hunks hcmp ih =>
    rw [changes, hcmp]
    simpa using ih
  | case3 new_hunk new_hunks old_hunk old_hunks hcmp hne ih =>
    rw [changes, hcmp]
    simp [hne]
  | case4 new_hunk new_hunks old_hunk old_hunks hcmp ih =>
    rw [changes, hcmp]
    refine iff_of_false (List.cons_ne_nil _ _) ?_
    rintro ⟨⟩
    simp at hcmp
  | case5 => simp [changes]
  | case6 => simp [changes]
  | case7 => simp [changes]

variable (base_texts) in
theorem exists_first_change {new_hunks old_hunks : List (InternalDiffHunk A)} (hdiffer : new_hunks ≠ old_hunks) :
    ∃ first, (changes base_texts new_hunks old_hunks).head? = some first := by
  obtain ⟨first, rest, hchanges⟩ := List.exists_cons_of_ne_nil
    (mt (@changes_eq_nil_iff A B _ _ base_texts new_hunks old_hunks).mp hdiffer)
  exact ⟨first, by rw [hchanges]; rfl⟩

theorem Sorted.tail {hunk : InternalDiffHunk A} {hunks : List (InternalDiffHunk A)} (hsorted : Sorted (hunk :: hunks)) :
    Sorted hunks :=
  ⟨fun other hother => hsorted.forward other (List.mem_cons_of_mem _ hother), hsorted.disjoint.of_cons⟩

theorem Sorted.head_le {hunk other : InternalDiffHunk A} {hunks : List (InternalDiffHunk A)}
    (hsorted : Sorted (hunk :: hunks)) (hother : other ∈ hunk :: hunks) :
    hunk.buffer_range.start ≤ other.buffer_range.start := by
  rcases List.mem_cons.mp hother with rfl | hother
  · exact le_rfl
  · exact (hsorted.forward hunk List.mem_cons_self).trans ((List.pairwise_cons.mp hsorted.disjoint).1 other hother)

theorem head_start_le {new_hunks old_hunks : List (InternalDiffHunk A)} (hnew : Sorted new_hunks)
    (hold : Sorted old_hunks) {hunk : InternalDiffHunk A} (hhunk : hunk ∈ new_hunks ∧ hunk ∉ old_hunks ∨
      hunk ∈ old_hunks ∧ hunk ∉ new_hunks) :
    ∃ first, (changes base_texts new_hunks old_hunks).head? = some first ∧
      first.buffer_range.start ≤ hunk.buffer_range.start := by
  induction new_hunks, old_hunks using changes.induct with
  | case1 new_hunk new_hunks old_hunk old_hunks hcmp ih =>
    rw [changes, hcmp]
    refine ⟨_, rfl, ?_⟩
    rcases hhunk with ⟨hmem, -⟩ | ⟨hmem, -⟩
    · exact hnew.head_le hmem
    · exact (compare_lt_iff_lt.mp hcmp).le.trans (hold.head_le hmem)
  | case2 new_hunk new_hunks old_hunks hcmp ih =>
    rw [changes, hcmp]
    simp only [if_true]
    refine ih hnew.tail hold.tail ?_
    rcases hhunk with ⟨hmem, hnot⟩ | ⟨hmem, hnot⟩
    · simp only [List.mem_cons, not_or] at hmem hnot
      exact Or.inl ⟨hmem.resolve_left hnot.1, hnot.2⟩
    · simp only [List.mem_cons, not_or] at hmem hnot
      exact Or.inr ⟨hmem.resolve_left hnot.1, hnot.2⟩
  | case3 new_hunk new_hunks old_hunk old_hunks hcmp hne ih =>
    rw [changes, hcmp]
    simp only [hne, if_false]
    refine ⟨_, rfl, ?_⟩
    rcases hhunk with ⟨hmem, -⟩ | ⟨hmem, -⟩
    · exact hnew.head_le hmem
    · exact (compare_eq_iff_eq.mp hcmp).le.trans (hold.head_le hmem)
  | case4 new_hunk new_hunks old_hunk old_hunks hcmp ih =>
    rw [changes, hcmp]
    refine ⟨_, rfl, ?_⟩
    rcases hhunk with ⟨hmem, -⟩ | ⟨hmem, -⟩
    · exact (compare_gt_iff_gt.mp hcmp).le.trans (hnew.head_le hmem)
    · exact hold.head_le hmem
  | case5 new_hunk new_hunks ih =>
    rw [changes]
    refine ⟨_, rfl, ?_⟩
    rcases hhunk with ⟨hmem, -⟩ | ⟨hmem, -⟩
    · exact hnew.head_le hmem
    · cases hmem
  | case6 old_hunk old_hunks ih =>
    rw [changes]
    refine ⟨_, rfl, ?_⟩
    rcases hhunk with ⟨hmem, -⟩ | ⟨hmem, -⟩
    · cases hmem
    · exact hold.head_le hmem
  | case7 => simp at hhunk

/-! ### The result -/

omit [LinearOrder B] in
theorem extend_contains [BoundedOrder A] (edits : EditsSince A) (s : Comparison A B) (changed_range : Range A) :
    (extend edits s changed_range).start ≤ changed_range.start ∧
      changed_range.stop ≤ (extend edits s changed_range).stop := by
  constructor
  · simp only [extend]
    cases hmin : ((edits.anchored_edits_since_in_range ⟨min (s.last_unchanged_new_hunk_end.getD ⊥) changed_range.start,
        changed_range.start⟩).map Range.start).min? with
    | none => exact le_rfl
    | some start =>
      obtain ⟨edit, hedit, rfl⟩ := List.mem_map.mp (List.min?_mem hmin)
      exact (edits.in_range _ edit hedit).1
  · simp only [extend]
    cases hmax : ((edits.anchored_edits_since_in_range ⟨changed_range.stop,
        max (s.extended_end_candidate.getD ⊤) changed_range.stop⟩).map Range.stop).max? with
    | none => exact le_rfl
    | some stop =>
      obtain ⟨edit, hedit, rfl⟩ := List.mem_map.mp (List.max?_mem hmax)
      exact (edits.in_range _ edit hedit).2

theorem compare_hunks_of_same [BoundedOrder A] (edits : EditsSince A) {new_hunks old_hunks : List (InternalDiffHunk A)}
    (hwithin : Within base_texts.new_len new_hunks) (hsame : new_hunks = old_hunks) :
    (compare_hunks base_texts edits new_hunks old_hunks).changed_range = none := by
  have hloop := @compare_loop_collects A B _ _ base_texts new_hunks old_hunks hwithin .initial
  rw [changes_eq_nil_iff.mpr hsame] at hloop
  have hstart := hloop.start
  simp only [Comparison.initial, List.head?_nil, Option.map_none, Option.or_none] at hstart
  simp only [compare_hunks, Comparison.initial, hstart]

theorem compare_hunks_of_changes [BoundedOrder A] (edits : EditsSince A) {new_hunks old_hunks : List (InternalDiffHunk A)}
    (hwithin : Within base_texts.new_len new_hunks) {first : Change A}
    (hfirst : (changes base_texts new_hunks old_hunks).head? = some first) :
    ∃ range base_text_range extended,
      (compare_hunks base_texts edits new_hunks old_hunks).changed_range = some range ∧
      (compare_hunks base_texts edits new_hunks old_hunks).base_text_changed_range = some base_text_range ∧
      (compare_hunks base_texts edits new_hunks old_hunks).extended_range = some extended ∧
      (extended.start ≤ range.start ∧ range.stop ≤ extended.stop) ∧
      range.start = first.buffer_range.start ∧
      (∀ bound, bound ≤ range.stop ↔ ∃ change ∈ from_last Change.together (changes base_texts new_hunks old_hunks),
        bound ≤ change.buffer_range.stop) ∧
      base_text_range.start = first.base_text_range.start ∧
      (∀ bound, bound ≤ base_text_range.stop ↔
        ∃ change ∈ from_last Change.paired (changes base_texts new_hunks old_hunks),
          bound ≤ change.base_text_range.stop) := by
  have hloop := @compare_loop_collects A B _ _ base_texts new_hunks old_hunks hwithin .initial
  have hne : changes base_texts new_hunks old_hunks ≠ [] := by
    intro hnil
    rw [hnil] at hfirst
    cases hfirst
  obtain ⟨stop, hstop⟩ : ∃ stop, furthest Change.together (fun change => change.buffer_range.stop) none
      (changes base_texts new_hunks old_hunks) = some stop := furthest_isSome hne
  obtain ⟨base_stop, hbase_stop⟩ : ∃ stop, furthest Change.paired (fun change => change.base_text_range.stop) none
      (changes base_texts new_hunks old_hunks) = some stop := furthest_isSome hne
  have hs_start := hloop.start
  have hs_stop := hloop.stop
  have hs_base_start := hloop.base_text_start
  have hs_base_stop := hloop.base_text_end
  have hs_changes := hloop.has_changes
  generalize hs : compare_loop base_texts new_hunks old_hunks .initial = s at *
  simp only [Comparison.initial, hfirst, Option.map_some, Option.none_or, Option.map_none] at hs_start hs_base_start
  simp only [Comparison.initial, hstop, hbase_stop, Option.map_none] at hs_stop hs_base_stop
  simp only [Comparison.initial, List.isEmpty_eq_false_iff.mpr hne, Bool.not_false, Bool.or_true] at hs_changes
  obtain ⟨base_start, hbase_start, hbase_start_offset⟩ := Option.map_eq_some_iff.mp hs_base_start
  obtain ⟨base_end, hbase_end, hbase_end_offset⟩ := Option.map_eq_some_iff.mp hs_base_stop
  refine ⟨⟨first.buffer_range.start, stop⟩, ⟨first.base_text_range.start, base_stop⟩,
    extend edits s ⟨first.buffer_range.start, stop⟩, ?_, ?_, ?_, extend_contains edits s _, rfl,
    fun bound => le_furthest_iff hstop, rfl, fun bound => le_furthest_iff hbase_stop⟩
  · simp only [compare_hunks, hs, hs_start, hs_stop]
  · simp only [compare_hunks, hs, hbase_start, hbase_end, hbase_start_offset, hbase_end_offset]
  · simp only [compare_hunks, hs, hs_start, hs_stop, hs_changes, if_true, Option.map_some]

theorem mem_differing {new_hunks old_hunks : List (InternalDiffHunk A)} {ranges : Range A × Range Nat}
    (hranges : ranges ∈ differing base_texts new_hunks old_hunks) :
    ∃ hunk : InternalDiffHunk A, ranges.1 = hunk.buffer_range ∧
      (hunk ∈ new_hunks ∧ hunk ∉ old_hunks ∨ hunk ∈ old_hunks ∧ hunk ∉ new_hunks) := by
  simp only [differing, List.mem_append, List.mem_map, List.mem_filter, decide_eq_true_eq] at hranges
  rcases hranges with ⟨hunk, hhunk, rfl⟩ | ⟨hunk, hhunk, rfl⟩
  · exact ⟨hunk, rfl, Or.inl hhunk⟩
  · exact ⟨hunk, rfl, Or.inr hhunk⟩

end Model

variable {A B : Type} [LinearOrder A] [BoundedOrder A] [LinearOrder B]

def same_base_text (len : Nat) : BaseTexts Nat where
  new_len := len
  new_anchor_before := id
  new_anchor_after := id
  old_anchor_after := id
  to_offset := id
  to_offset_mono := monotone_id
  before_to_offset _ _ := rfl
  after_to_offset _ _ := rfl

def no_edits : EditsSince (Fin 12) where
  anchored_edits_since_in_range _ := []
  in_range _ _ hedit := nomatch hedit

/-- A hunk over whole rows of two bytes, the same in the buffer as in the base text. -/
def rows_hunk (start stop : Fin 12) : InternalDiffHunk (Fin 12) where
  buffer_range := ⟨start, stop⟩
  diff_base_byte_range := ⟨start, stop⟩
  diff_base_point_range := ⟨⟨start / 2, 0⟩, ⟨stop / 2, 0⟩⟩
  base_word_diffs := []
  buffer_word_diffs := []

end zed.buffer_diff
