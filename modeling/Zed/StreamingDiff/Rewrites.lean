import Zed.StreamingDiff.Scores

namespace zed.streaming_diff

/-- A part of a text, by the indices of its characters. -/
def slice (text : List Char) (first last : Nat) : List Char := (text.take last).drop first

section

variable {text : List Char} {a b c : Nat}

theorem slice_self (text : List Char) (a : Nat) : slice text a a = [] := by
  rw [slice, List.drop_eq_nil_iff, List.length_take]
  omega

theorem slice_to_end (text : List Char) (a : Nat) : slice text a text.length = text.drop a := by
  rw [slice, List.take_length]

theorem slice_append (hab : a ≤ b) (hbc : b ≤ c) : slice text a b ++ slice text b c = slice text a c := by
  have htake : text.take b = (text.take c).take b := by rw [List.take_take, Nat.min_eq_left hbc]
  have hdrop : (text.take c).drop b = ((text.take c).drop a).drop (b - a) := by
    rw [List.drop_drop, Nat.add_sub_cancel' hab]
  rw [slice, slice, slice, htake, hdrop, List.drop_take]
  exact List.take_append_drop _ _

theorem slice_cons {x : Char} (hx : text[a]? = some x) (hab : a < b) :
    slice text a b = x :: slice text (a + 1) b := by
  have hone : slice text a (a + 1) = [x] := by
    rw [slice, List.drop_take, Nat.add_sub_cancel_left, List.take_one, List.head?_drop, hx]
    rfl
  rw [← slice_append (Nat.le_succ a) hab, hone]
  rfl

end

theorem push_delete_replay {hunks : List CharOperation} {old new : List Char} (h : replay hunks old = some new)
    (c : Char) : replay (StreamingDiff.push_delete c.utf8Size hunks) (c :: old) = some new := by
  have hsingle : replay (.delete c.utf8Size :: hunks) (c :: old) = some new := by
    simpa using replay_delete h [c]
  unfold StreamingDiff.push_delete
  split
  · obtain ⟨text, rest, heq, -, -⟩ | ⟨deleted, rest, heq, rfl, hrest⟩ | ⟨kept, rest, after, heq, -, -, -⟩ :=
      replay_cons h
    · cases heq
    · cases heq
      simpa [Nat.add_comm] using replay_delete hrest (c :: deleted)
    · cases heq
  · exact hsingle

theorem push_keep_replay {hunks : List CharOperation} {old new : List Char} (h : replay hunks old = some new)
    (c : Char) : replay (StreamingDiff.push_keep c.utf8Size hunks) (c :: old) = some (c :: new) := by
  have hsingle : replay (.keep c.utf8Size :: hunks) (c :: old) = some (c :: new) := by
    simpa using replay_keep h [c]
  unfold StreamingDiff.push_keep
  split
  · obtain ⟨text, rest, heq, -, -⟩ | ⟨deleted, rest, heq, -, -⟩ | ⟨kept, rest, after, heq, rfl, hrest, rfl⟩ :=
      replay_cons h
    · cases heq
    · cases heq
    · cases heq
      simpa [Nat.add_comm] using replay_keep hrest (c :: kept)
  · exact hsingle

namespace StreamingDiff

variable {F : Type} {f : Float64 F}

theorem max_by_key_spec (f : Float64 F) (best : Option F × Option (Nat × Nat))
    (cells : List (Option F × Option (Nat × Nat))) :
    ∃ cell ∈ best :: cells, max_by_key f best cells = cell.2 ∧
      ∀ other ∈ best :: cells, other.1.isSome = true → cell.1.isSome = true := by
  induction cells generalizing best with
  | nil => exact ⟨best, List.mem_cons_self, rfl, fun other hother h => List.mem_singleton.mp hother ▸ h⟩
  | cons next cells ih =>
    have hcmp (a b : Option F) (ha : a.isSome = true) (hb : b.isSome = false) : cmp_keys f a b = .gt := by
      obtain ⟨a, rfl⟩ := Option.isSome_iff_exists.mp ha
      rw [Option.isSome_eq_false_iff, Option.isNone_iff_eq_none] at hb
      rw [hb]
      rfl
    have hcmp' (a b : Option F) (ha : a.isSome = false) (hb : b.isSome = true) : cmp_keys f a b ≠ .gt := by
      obtain ⟨b, rfl⟩ := Option.isSome_iff_exists.mp hb
      rw [Option.isSome_eq_false_iff, Option.isNone_iff_eq_none] at ha
      rw [ha]
      exact fun h => by cases h
    by_cases hgt : cmp_keys f best.1 next.1 = .gt
    · obtain ⟨cell, hcell, hmax, hsome⟩ := ih best
      refine ⟨cell, ?_, ?_, fun other hother hkey => ?_⟩
      · obtain rfl | hcell := List.mem_cons.mp hcell
        · exact List.mem_cons_self
        · exact List.mem_cons_of_mem _ (List.mem_cons_of_mem _ hcell)
      · rw [max_by_key, if_pos hgt]
        exact hmax
      · obtain rfl | hother := List.mem_cons.mp hother
        · exact hsome other List.mem_cons_self hkey
        obtain rfl | hother := List.mem_cons.mp hother
        · by_cases hbest : best.1.isSome = true
          · exact hsome best List.mem_cons_self hbest
          · exact absurd hgt (hcmp' _ _ (by simpa using hbest) hkey)
        · exact hsome other (List.mem_cons_of_mem _ hother) hkey
    · obtain ⟨cell, hcell, hmax, hsome⟩ := ih next
      refine ⟨cell, List.mem_cons_of_mem _ hcell, ?_, fun other hother hkey => ?_⟩
      · rw [max_by_key, if_neg hgt]
        exact hmax
      · obtain rfl | hother := List.mem_cons.mp hother
        · by_cases hnext : next.1.isSome = true
          · exact hsome next List.mem_cons_self hnext
          · exact absurd (hcmp _ _ hkey (by simpa using hnext)) hgt
        · exact hsome other hother hkey

/-- A window of scores: from the committed cell to a cell. -/
structure Window (diff : StreamingDiff F) (last_old last_new : Nat) : Prop where
  old_start : diff.old_text_ix ≤ last_old
  old_end : last_old ≤ diff.old.length
  new_start : diff.new_text_ix ≤ last_new
  new_end : last_new ≤ diff.new.length
  shaped : ∃ cols, last_new - diff.new_text_ix < cols ∧ diff.scores.Shaped (diff.old.length + 1) cols

theorem Window.key {self : StreamingDiff F} {last_old last_new i j : Nat} (h : self.Window last_old last_new)
    (hi : i ≤ last_old) (hj : self.new_text_ix ≤ j) (hj' : j ≤ last_new) :
    ∃ score, self.key (some (i, j)) = some (some score) := by
  obtain ⟨cols, hcols, hshaped⟩ := h.shaped
  have hold := h.old_end
  obtain ⟨score, hscore⟩ := hshaped.get i (j - self.new_text_ix) (by omega) (by omega)
  refine ⟨score, ?_⟩
  simp only [StreamingDiff.key, sub_eq hj, hscore, Option.bind_eq_bind, Option.bind_some, Option.pure_def]

/-- A cell before another: by an insertion, by a deletion, or by a character that both texts have. -/
def Before (diff : StreamingDiff F) (i j : Nat) (cell : Nat × Nat) : Prop :=
  (cell = (i, j - 1) ∧ diff.new_text_ix < j) ∨ (cell = (i - 1, j) ∧ diff.old_text_ix < i) ∨
    (cell = (i - 1, j - 1) ∧ diff.old_text_ix < i ∧ diff.new_text_ix < j ∧ diff.old[i - 1]? = diff.new[j - 1]?)

/-- Whatever the scores are, the best cell is one to go back to. -/
theorem Window.cell_before (f : Float64 F) {self : StreamingDiff F} {last_old last_new i j : Nat}
    (h : self.Window last_old last_new) (hi : self.old_text_ix ≤ i) (hi' : i ≤ last_old)
    (hj : self.new_text_ix ≤ j) (hj' : j ≤ last_new) (hne : (i, j) ≠ (self.old_text_ix, self.new_text_ix)) :
    ∃ cell, self.cell_before f i j = some cell ∧ self.Before i j cell := by
  have hold := h.old_end
  have hnew := h.new_end
  have hkey (cell : Option (Nat × Nat)) (hcell : ∀ found ∈ cell, self.Before i j found) :
      ∃ score, self.key cell = some score ∧ (score.isSome = true ↔ cell.isSome = true) := by
    cases cell with
    | none => exact ⟨none, rfl, Iff.rfl⟩
    | some found =>
      have hbounds : found.1 ≤ last_old ∧ self.new_text_ix ≤ found.2 ∧ found.2 ≤ last_new := by
        obtain ⟨rfl, hlt⟩ | ⟨rfl, hlt⟩ | ⟨rfl, hlt, hlt', -⟩ := hcell found rfl
        · exact ⟨hi', by simp only; omega, by simp only; omega⟩
        · exact ⟨by simp only; omega, hj, hj'⟩
        · exact ⟨by simp only; omega, by simp only; omega, by simp only; omega⟩
      obtain ⟨score, hscore⟩ := h.key hbounds.1 hbounds.2.1 hbounds.2.2
      exact ⟨some score, hscore, Iff.rfl⟩
  obtain ⟨equality, hequality, hbefore⟩ : ∃ equality, self.equality_cell i j = some equality ∧
      ∀ found ∈ equality, self.Before i j found := by
    by_cases hboth : self.old_text_ix < i ∧ self.new_text_ix < j
    · obtain ⟨c, hc⟩ := get_of_lt self.old (i := i - 1) (by omega)
      obtain ⟨d, hd⟩ := get_of_lt self.new (i := j - 1) (by omega)
      refine ⟨if c = d then some (i - 1, j - 1) else none, ?_, fun found hfound => ?_⟩
      · rw [equality_cell, if_pos hboth, hc, hd]
        rfl
      · obtain ⟨heq, hfound⟩ := Option.ite_none_right_eq_some.mp hfound
        obtain rfl := Option.some.inj hfound
        exact Or.inr (Or.inr ⟨rfl, hboth.1, hboth.2, by rw [hc, hd, heq]⟩)
    · exact ⟨none, if_neg hboth, fun found hfound => by cases hfound⟩
  let insertion := if self.new_text_ix < j then some (i, j - 1) else none
  let deletion := if self.old_text_ix < i then some (i - 1, j) else none
  have hinsertion : ∀ found ∈ insertion, self.Before i j found := by
    intro found hfound
    obtain ⟨hlt, hfound⟩ := Option.ite_none_right_eq_some.mp hfound
    exact Or.inl ⟨(Option.some.inj hfound).symm, hlt⟩
  have hdeletion : ∀ found ∈ deletion, self.Before i j found := by
    intro found hfound
    obtain ⟨hlt, hfound⟩ := Option.ite_none_right_eq_some.mp hfound
    exact Or.inr (Or.inl ⟨(Option.some.inj hfound).symm, hlt⟩)
  obtain ⟨insertion_score, hinsertionScore, hinsertionSome⟩ := hkey insertion hinsertion
  obtain ⟨deletion_score, hdeletionScore, hdeletionSome⟩ := hkey deletion hdeletion
  obtain ⟨equality_score, hequalityScore, hequalitySome⟩ := hkey equality hbefore
  obtain ⟨best, hbest, hmax, hsome⟩ := max_by_key_spec f (insertion_score, insertion)
    [(deletion_score, deletion), (equality_score, equality)]
  have hcell : self.cell_before f i j = best.2 := by
    unfold StreamingDiff.cell_before
    dsimp only
    rw [hequality]
    simp only [Option.bind_eq_bind, Option.bind_some]
    rw [hinsertionScore, hdeletionScore, hequalityScore]
    exact hmax
  have hscored : best.1.isSome = true := by
    by_cases hlt : self.new_text_ix < j
    · exact hsome _ List.mem_cons_self (hinsertionSome.mpr (by simp only [insertion, if_pos hlt, Option.isSome_some]))
    · have hlt' : self.old_text_ix < i := by
        by_contra hnot
        exact hne (Prod.ext (by simp only; omega) (by simp only; omega))
      exact hsome _ (List.mem_cons_of_mem _ List.mem_cons_self)
        (hdeletionSome.mpr (by simp only [deletion, if_pos hlt', Option.isSome_some]))
  have hfound : best.2.isSome = true ∧ ∀ found ∈ best.2, self.Before i j found := by
    simp only [List.mem_cons, List.not_mem_nil, or_false] at hbest
    obtain rfl | rfl | rfl := hbest
    · exact ⟨hinsertionSome.mp hscored, hinsertion⟩
    · exact ⟨hdeletionSome.mp hscored, hdeletion⟩
    · exact ⟨hequalitySome.mp hscored, hbefore⟩
  obtain ⟨cell, heq⟩ := Option.isSome_iff_exists.mp hfound.1
  exact ⟨cell, hcell.trans heq, hfound.2 cell heq⟩

theorem flush_replay {self : StreamingDiff F} {pending_insert : Option (Nat × Nat)} {hunks : List CharOperation}
    {old : List Char} {j last_new : Nat} (hnew : last_new ≤ self.new.length)
    (hpending : ∀ pending ∈ pending_insert, pending.1 = j ∧ j ≤ pending.2 ∧ pending.2 ≤ last_new)
    (h : replay hunks old = some (slice self.new ((pending_insert.map Prod.snd).getD j) last_new)) :
    ∃ flushed, self.flush pending_insert hunks = some flushed ∧
      replay flushed old = some (slice self.new j last_new) := by
  cases pending_insert with
  | none => exact ⟨hunks, rfl, h⟩
  | some pending =>
    obtain ⟨first, last⟩ := pending
    obtain ⟨hfirst, hle, hlast⟩ := hpending _ rfl
    dsimp only at hfirst hle hlast
    subst hfirst
    refine ⟨.insert (slice self.new first last) :: hunks, ?_, ?_⟩
    · rw [flush, if_pos ⟨hle, hlast.trans hnew⟩]
      rfl
    · rw [replay_insert h, Option.map_some, Option.getD_some, slice_append hle hlast]

theorem walk_back_replay (f : Float64 F) {self : StreamingDiff F} {last_old last_new : Nat}
    (h : self.Window last_old last_new) (steps : Nat) :
    ∀ (i j : Nat) (pending_insert : Option (Nat × Nat)) (hunks : List CharOperation),
      self.old_text_ix ≤ i → i ≤ last_old → self.new_text_ix ≤ j → j ≤ last_new → i + j ≤ steps →
      (∀ pending ∈ pending_insert, pending.1 = j ∧ j ≤ pending.2 ∧ pending.2 ≤ last_new) →
      replay hunks (slice self.old i last_old) =
        some (slice self.new ((pending_insert.map Prod.snd).getD j) last_new) →
      ∃ operations, self.walk_back f steps i j pending_insert hunks = some operations ∧
        replay operations (slice self.old self.old_text_ix last_old) =
          some (slice self.new self.new_text_ix last_new) := by
  have hold := h.old_end
  have hnew := h.new_end
  induction steps with
  | zero =>
    intro i j pending_insert hunks hi hi' hj hj' hsteps hpending hhunks
    have hstart : (i, j) = (self.old_text_ix, self.new_text_ix) :=
      Prod.ext (by simp only; omega) (by simp only; omega)
    obtain ⟨flushed, hflushed, hreplay⟩ := flush_replay hnew hpending hhunks
    obtain ⟨rfl, rfl⟩ := Prod.mk.inj hstart
    exact ⟨flushed, by rw [walk_back, if_pos rfl, hflushed], hreplay⟩
  | succ steps ih =>
    intro i j pending_insert hunks hi hi' hj hj' hsteps hpending hhunks
    by_cases hstart : (i, j) = (self.old_text_ix, self.new_text_ix)
    · obtain ⟨flushed, hflushed, hreplay⟩ := flush_replay hnew hpending hhunks
      obtain ⟨rfl, rfl⟩ := Prod.mk.inj hstart
      exact ⟨flushed, by rw [walk_back, if_pos rfl, hflushed], hreplay⟩
    obtain ⟨cell, hcell, hbefore⟩ := h.cell_before f hi hi' hj hj' hstart
    obtain ⟨rfl, hlt⟩ | hback := hbefore
    · -- one more character of an insertion
      have hmore : ∀ pending ∈ some (j - 1, (pending_insert.map Prod.snd).getD j),
          pending.1 = j - 1 ∧ j - 1 ≤ pending.2 ∧ pending.2 ≤ last_new := by
        intro pending hpending'
        obtain rfl := Option.some.inj hpending'
        cases pending_insert with
        | none => exact ⟨rfl, Nat.sub_le _ _, hj'⟩
        | some pending =>
          obtain ⟨-, hle, hlast⟩ := hpending pending rfl
          exact ⟨rfl, (Nat.sub_le _ _).trans hle, hlast⟩
      obtain ⟨operations, hwalk, hreplay⟩ := ih i (j - 1)
        (some (j - 1, (pending_insert.map Prod.snd).getD j)) hunks
        hi hi' (by omega) (by omega) (by omega) hmore hhunks
      refine ⟨operations, ?_, hreplay⟩
      rw [walk_back, if_neg hstart]
      simp only [hcell, Option.bind_eq_bind, Option.bind_some, if_pos, sub_eq (Nat.one_le_of_lt hlt)]
      exact hwalk
    have hpos : self.old_text_ix < i := hback.elim And.right fun hkeep => hkeep.2.1
    have hone : 1 ≤ i := Nat.one_le_of_lt hpos
    obtain ⟨flushed, hflushed, hreplay⟩ := flush_replay hnew hpending hhunks
    obtain ⟨c, hc⟩ := get_of_lt self.old (i := i - 1) (by omega)
    have hslice : slice self.old (i - 1) last_old = c :: slice self.old i last_old := by
      rw [slice_cons hc (by omega), Nat.sub_add_cancel hone]
    obtain ⟨rfl, -⟩ | ⟨rfl, -, hlt, heq⟩ := hback
    · -- a character of the old text is deleted
      obtain ⟨operations, hwalk, hdone⟩ := ih (i - 1) j none
        (push_delete c.utf8Size flushed) (by omega) (by omega) hj hj' (by omega)
        (fun pending hnone => by cases hnone) (by rw [hslice]; exact push_delete_replay hreplay c)
      refine ⟨operations, ?_, hdone⟩
      rw [walk_back, if_neg hstart]
      simp only [hcell, Option.bind_eq_bind, Option.bind_some, if_neg (show ¬ i - 1 = i by omega), hflushed,
        sub_eq hone, hc, and_self, if_true]
      exact hwalk
    · -- a character is kept
      have hnewChar : self.new[j - 1]? = some c := heq ▸ hc
      have hnewSlice : slice self.new (j - 1) last_new = c :: slice self.new j last_new := by
        rw [slice_cons hnewChar (by omega), Nat.sub_add_cancel (Nat.one_le_of_lt hlt)]
      obtain ⟨operations, hwalk, hdone⟩ := ih (i - 1) (j - 1) none
        (push_keep c.utf8Size flushed) (by omega) (by omega) (by omega) (by omega) (by omega)
        (fun pending hnone => by cases hnone)
        (by rw [hslice, Option.map_none, Option.getD_none, hnewSlice]; exact push_keep_replay hreplay c)
      refine ⟨operations, ?_, hdone⟩
      rw [walk_back, if_neg hstart]
      simp only [hcell, Option.bind_eq_bind, Option.bind_some, if_neg (show ¬ i - 1 = i by omega), hflushed,
        sub_eq hone, hc, true_and, if_neg (show ¬ j - 1 = j by omega), Bool.false_eq_true, if_false]
      exact hwalk

theorem Window.backtrack (f : Float64 F) {self : StreamingDiff F} {last_old last_new : Nat}
    (h : self.Window last_old last_new) :
    ∃ operations, self.backtrack f last_old last_new = some operations ∧
      replay operations (slice self.old self.old_text_ix last_old) =
        some (slice self.new self.new_text_ix last_new) := by
  apply walk_back_replay f h (last_old + last_new) last_old last_new none [] h.old_start (Nat.le_refl _) h.new_start (Nat.le_refl _)
    (Nat.le_refl _) fun pending hnone => by cases hnone
  rw [slice_self, Option.map_none, Option.getD_none, slice_self]
  rfl

/-- A push rewrites a part of the old text into what it was given. -/
theorem Valid.push_new (f : Float64 F) {self : StreamingDiff F} (h : self.Valid) (text : List Char) :
    ∃ next operations, self.push_new f text = some (next, operations) ∧ next.Valid ∧ next.old = self.old ∧
      self.old_text_ix ≤ next.old_text_ix ∧
      replay operations (slice self.old self.old_text_ix next.old_text_ix) = some text := by
  obtain ⟨cols, hcols, hshaped⟩ := h.shaped
  have hnewLength : (self.new ++ text).length - self.new_text_ix = text.length := by
    rw [h.new_text_ix, List.length_append, Nat.add_sub_cancel_left]
  have hlastCol : cols - 1 < cols := by omega
  obtain ⟨swapped, hswap, -⟩ := hshaped.swap_columns hcols hlastCol
  let scores := swapped.resize f.zero (self.old.length + 1) (text.length + 1)
  let before : StreamingDiff F := { self with new := self.new ++ text, scores }
  have hbefore : before.Scoring before (text.length + 1) :=
    ⟨rfl, rfl, rfl, rfl, Matrix.resize_shaped _ _ _ _, h.previous, h.current⟩
  obtain ⟨scored, hscored, hscoring⟩ := foldlM_some (score_column f)
    (List.range' (self.new_text_ix + 1) text.length)
    (P := fun diff : StreamingDiff F => diff.Scoring before (text.length + 1))
    (fun diff j hj hdiff => by
      obtain ⟨hfirst, hlast⟩ := List.mem_range'_1.mp hj
      have hnew : diff.new = self.new ++ text := hdiff.new
      have hix : diff.new_text_ix = self.new_text_ix := hdiff.new_text_ix
      have hlength : diff.new.length = self.new_text_ix + text.length := by
        rw [hnew, List.length_append, h.new_text_ix]
      exact score_column_some f hdiff (by omega) (by omega) (by omega)) hbefore
  have hscoredNew : scored.new = self.new ++ text := hscoring.new
  have hscoredOld : scored.old = self.old := hscoring.old
  have holdIx : scored.old_text_ix = self.old_text_ix := hscoring.old_text_ix
  have hnewIx : scored.new_text_ix = self.new_text_ix := hscoring.new_text_ix
  have hlength : scored.new.length - scored.new_text_ix = text.length := by
    rw [hscoredNew, hnewIx, hnewLength]
  have hcommitted : scored.new_text_ix ≤ scored.new.length := by
    rw [hscoredNew, hnewIx, h.new_text_ix, List.length_append]
    exact Nat.le_add_right _ _
  have hwithin : scored.old_text_ix ≤ scored.old.length := by
    rw [holdIx, hscoredOld]
    exact h.old_text_ix
  obtain ⟨⟨max_score, next_old_text_ix⟩, hchosen, hnext, hnext'⟩ := foldlM_some (scored.choose f)
    (List.range' scored.old_text_ix (scored.old.length + 1 - scored.old_text_ix))
    (P := fun best : F × Nat => scored.old_text_ix ≤ best.2 ∧ best.2 ≤ scored.old.length)
    (fun best i hi hbest => choose_some f hscoring.shaped hcommitted (by omega) hi hbest)
    (b := (f.neg_infinity, scored.old_text_ix)) ⟨Nat.le_refl _, hwithin⟩
  have hwindow : scored.Window next_old_text_ix scored.new.length :=
    ⟨hnext, hnext', hcommitted, Nat.le_refl _, text.length + 1, by omega, hscoring.shaped⟩
  obtain ⟨operations, hbacktrack, hreplay⟩ := hwindow.backtrack f
  let next : StreamingDiff F :=
    { scored with old_text_ix := next_old_text_ix, new_text_ix := scored.new.length }
  refine ⟨next, operations, ?_, ?_, hscoredOld, ?_, ?_⟩
  · unfold StreamingDiff.push_new
    have hsub : sub (self.new ++ text).length self.new_text_ix = some text.length := by
      rw [sub_eq (by rw [h.new_text_ix, List.length_append]; exact Nat.le_add_right _ _), hnewLength]
    simp only [hshaped.cols_eq, sub_eq (Nat.succ_le_of_lt hcols), hswap, hsub, hnewLength, Option.bind_eq_bind,
      Option.bind_some, Option.pure_def]
    rw [hscored]
    simp only [Option.bind_some, hchosen, hbacktrack]
    rfl
  · exact ⟨hnext', rfl, ⟨_, Nat.succ_pos _, hscoring.shaped⟩, hscoring.previous, hscoring.current⟩
  · exact holdIx ▸ hnext
  · rw [holdIx, hscoredOld, hnewIx, slice_to_end, hscoredNew, h.new_text_ix, List.drop_left] at hreplay
    exact hreplay

/-- What is left of the old text is rewritten into the chunks to come. -/
theorem Valid.push_all (f : Float64 F) (chunks : List (List Char)) :
    ∀ {self : StreamingDiff F}, self.Valid → ∃ operations, self.push_all f chunks = some operations ∧
      replay operations (self.old.drop self.old_text_ix) = some chunks.flatten := by
  induction chunks with
  | nil =>
    intro self h
    obtain ⟨cols, hcols, hshaped⟩ := h.shaped
    have hwindow : self.Window self.old.length self.new.length :=
      ⟨h.old_text_ix, Nat.le_refl _, Nat.le_of_eq h.new_text_ix, Nat.le_refl _, cols,
        by rw [h.new_text_ix, Nat.sub_self]; exact hcols, hshaped⟩
    obtain ⟨operations, hbacktrack, hreplay⟩ := hwindow.backtrack f
    rw [slice_to_end, h.new_text_ix, slice_self] at hreplay
    exact ⟨operations, hbacktrack, hreplay⟩
  | cons chunk chunks ih =>
    intro self h
    obtain ⟨next, operations, hpush, hnext, hold, hle, hreplay⟩ := h.push_new f chunk
    obtain ⟨rest, hrest, hreplayRest⟩ := ih hnext
    have hlast := hnext.old_text_ix
    refine ⟨operations ++ rest, ?_, ?_⟩
    · simp only [StreamingDiff.push_all, hpush, hrest, Option.bind_eq_bind, Option.bind_some, Option.pure_def]
    · rw [hold] at hreplayRest hlast
      rw [← slice_to_end self.old self.old_text_ix, ← slice_append hle hlast, slice_to_end]
      exact replay_append hreplay hreplayRest

/-- Streaming never panics, and rewrites the old text into the new one, whatever the scores are. -/
theorem stream_replay (f : Float64 F) (old : List Char) (chunks : List (List Char)) :
    ∃ operations, stream f old chunks = some operations ∧
      (operations.map CharOperation.consumed).sum = byte_len old ∧
      replay operations old = some chunks.flatten := by
  obtain ⟨self, hnew, hvalid, rfl, -, hstart⟩ := new_diff_valid f old
  obtain ⟨operations, hpush, hreplay⟩ := hvalid.push_all f chunks
  rw [hstart, List.drop_zero] at hreplay
  refine ⟨operations, ?_, consumed_of_replay hreplay, hreplay⟩
  rw [stream, hnew]
  exact hpush

end StreamingDiff

end zed.streaming_diff
