import Zed.Editor.WrapMap

namespace zed.editor.wrap_map.WrapSnapshot

open zed.rope (Point)
open zed.sum_tree (Bias)

variable {self : WrapSnapshot} {before after : List Transform} {indent row : Nat} {lines : Point}

section SoftWrap

theorem seek_wrap (h : self.transforms = before ++ .wrap indent :: after) (hrow : (extent before).wrap.row = row)
    (hindent : 0 < indent) :
    self.seek ⟨row + 1, 0⟩ Bias.Right = { passed := before, rest := .wrap indent :: after } := by
  refine seek_eq h (Or.inl (by rw [hrow]; exact Nat.lt_succ_self row)) ?_
  rw [wrap_wrap, hrow]
  exact Or.inr ⟨rfl, hindent⟩

theorem soft_wrap_indent_some (h : self.soft_wrap_indent row = some indent) :
    self.EndsInWrap row indent ∧ 0 < indent := by
  have hstart := @seek_start self ⟨row + 1, 0⟩
  have hstop := @seek_stop self ⟨row + 1, 0⟩
  have hitems := @seek_items self ⟨row + 1, 0⟩ Bias.Right
  rw [soft_wrap_indent] at h
  generalize self.seek ⟨row + 1, 0⟩ Bias.Right = cursor at *
  obtain ⟨passed, rest⟩ := cursor
  cases rest with
  | nil => cases h
  | cons transform rest =>
    cases transform with
    | isomorphic lines => cases h
    | wrap found =>
      cases h
      have hpast := hstop rfl
      have hcolumn := wrap_column_pos hitems.symm
      rw [wrap_wrap, Point.lt_def] at hpast
      rw [Point.le_def] at hstart
      dsimp only at hpast hstart hcolumn
      refine ⟨⟨passed, rest, hitems.symm, ?_⟩, ?_⟩ <;> omega

theorem soft_wrap_indent_iff (self : WrapSnapshot) (row : Nat) :
    (∀ indent, self.soft_wrap_indent row = some indent ↔ self.EndsInWrap row indent) ↔ ¬ self.EndsInWrap row 0 := by
  constructor
  · intro h hwrap
    exact Nat.lt_irrefl 0 (soft_wrap_indent_some ((h 0).mpr hwrap)).2
  · intro h indent
    refine ⟨fun hsome => (soft_wrap_indent_some hsome).1, fun hwrap => ?_⟩
    obtain ⟨before, after, htransforms, hrow⟩ := hwrap
    have hindent : 0 < indent := by
      by_contra hzero
      obtain rfl : indent = 0 := by omega
      exact h ⟨before, after, htransforms, hrow⟩
    rw [soft_wrap_indent, seek_wrap htransforms hrow hindent]
    rfl

end SoftWrap

section NextRow

theorem next_loop_none {passed rest : List Transform} (h : self.transforms = passed ++ rest)
    (hne : passed ≠ []) : next_loop row passed rest = none := by
  induction rest generalizing passed with
  | nil => rfl
  | cons transform rest ih =>
    rw [next_loop]
    have hpassed : self.transforms = (passed ++ [transform]) ++ rest := by rw [h, List.append_assoc]; rfl
    have hrest := ih hpassed (by simp)
    cases transform with
    | isomorphic lines =>
      have hcolumn := tab_column_pos h hne
      rw [if_neg (by simp [Transform.is_isomorphic]; omega), hrest]
    | wrap indent => rw [if_neg (by simp [Transform.is_isomorphic]), hrest]

/-- Whether a row starts inside the first part of the text. -/
def InFirst (self : WrapSnapshot) (row : Nat) : Prop :=
  ∃ transform rest, self.transforms = transform :: rest ∧ (⟨row, 0⟩ : Point) < transform.output

def tabRowsAfter (self : WrapSnapshot) (row : Nat) : Set Nat :=
  {next | row < next ∧ next ≤ self.max_point.row ∧ self.IsTabRow next}

theorem InFirst.tab_row (h : self.InFirst (row + 1)) :
    self.next_row_boundary ⟨row, 0⟩ = some (row + 1) ∧ IsLeast (self.tabRowsAfter row) (row + 1) := by
  obtain ⟨transform, rest, htransforms, hlt⟩ := h
  have hsplit : self.transforms = [] ++ transform :: rest := htransforms
  have hstop : (⟨row + 1, 0⟩ : Point) < (extent ([] ++ [transform])).wrap := by
    rw [List.nil_append, extent_singleton]
    exact hlt
  obtain ⟨lines, rfl⟩ : ∃ lines, transform = .isomorphic lines := by
    cases transform with
    | isomorphic lines => exact ⟨lines, rfl⟩
    | wrap indent => exact absurd (self.wellformed.inside [] indent rest htransforms) (Nat.lt_irrefl _)
  have hmax : row + 1 ≤ self.max_point.row := by
    have hle := wrap_le_append [.isomorphic lines] rest
    have hwhole : [Transform.isomorphic lines] ++ rest = self.transforms := htransforms.symm
    rw [hwhole] at hle
    rw [List.nil_append] at hstop
    change (extent [.isomorphic lines]).wrap ≤ self.max_point at hle
    rw [Point.le_def] at hle
    rw [Point.lt_def] at hstop
    dsimp only at hstop
    omega
  constructor
  · have hseek := seek_eq hsplit (Point.zero_le _) hstop
    have hadd : Point.add ⟨row, 0⟩ ⟨1, 0⟩ = ⟨row + 1, 0⟩ := rfl
    rw [next_row_boundary]
    simp only [hadd]
    rw [hseek]
    simp [next_loop, Transform.is_isomorphic, extent, Point.zero]
  · refine ⟨⟨Nat.lt_succ_self row, hmax, tab_row_inside hsplit (Nat.succ_pos row) hstop⟩, fun next hnext => hnext.1⟩

theorem next_row_boundary_none (h : ¬ self.InFirst (row + 1)) : self.next_row_boundary ⟨row, 0⟩ = none := by
  have hstop := @seek_stop self ⟨row + 1, 0⟩
  have hitems := @seek_items self ⟨row + 1, 0⟩ Bias.Right
  have hadd : Point.add ⟨row, 0⟩ ⟨1, 0⟩ = ⟨row + 1, 0⟩ := rfl
  rw [next_row_boundary]
  simp only [hadd]
  generalize self.seek ⟨row + 1, 0⟩ Bias.Right = cursor at *
  obtain ⟨passed, rest⟩ := cursor
  dsimp only at hstop hitems ⊢
  cases passed with
  | cons first passed => exact next_loop_none hitems.symm (List.cons_ne_nil _ _)
  | nil =>
    cases rest with
    | nil => rfl
    | cons transform rest =>
      have hlt := hstop rfl
      rw [List.nil_append, extent_singleton] at hlt
      exact absurd ⟨transform, rest, hitems.symm, hlt⟩ h

/-- What `next_row_boundary` should return. -/
def NextBoundary (self : WrapSnapshot) (row : Nat) : Option Nat → Prop
  | some next => IsLeast (self.tabRowsAfter row) next
  | none => self.tabRowsAfter row = ∅

theorem next_row_boundary_iff (self : WrapSnapshot) (row : Nat) :
    self.NextBoundary row (self.next_row_boundary ⟨row, 0⟩) ↔ self.InFirst (row + 1) ∨ self.tabRowsAfter row = ∅ := by
  by_cases hfirst : self.InFirst (row + 1)
  · obtain ⟨hnext, hleast⟩ := hfirst.tab_row
    rw [hnext]
    exact iff_of_true hleast (Or.inl hfirst)
  · rw [next_row_boundary_none hfirst]
    exact ⟨Or.inr, fun h => h.resolve_left hfirst⟩

end NextRow

section PrevRow

theorem tab_row_stop (h : self.transforms = before ++ .isomorphic lines :: after)
    (hcolumn : (extent before).tab.column = 0) : self.IsTabRow ((extent before).wrap.row + lines.row) := by
  obtain rfl : before = [] := by
    by_contra hne
    exact absurd (tab_column_pos h hne) (by omega)
  rw [show (extent []).wrap.row = 0 from rfl, Nat.zero_add]
  rcases Nat.eq_zero_or_pos lines.row with hzero | hpos
  · rw [hzero]
    exact tab_row_zero
  · rcases Nat.eq_zero_or_pos lines.column with hend | hmore
    · have hafter : after = [] := by
        cases after with
        | nil => rfl
        | cons transform after =>
          have hnext : self.transforms = [.isomorphic lines] ++ transform :: after := h
          cases transform with
          | isomorphic lines' =>
            obtain ⟨front, indent, hlast⟩ := (before_isomorphic hnext).resolve_left (List.cons_ne_nil _ _)
            have hsame := congrArg List.getLast? hlast
            rw [List.getLast?_concat] at hsame
            cases hsame
          | wrap indent =>
            have hinside := self.wellformed.inside _ indent after hnext
            rw [extent_singleton] at hinside
            exact absurd hinside (by simp [Transform.input, hend])
      have hmax : self.max_point = ⟨lines.row, 0⟩ := by
        rw [max_point, h, hafter, List.nil_append, extent_singleton]
        exact Point.ext rfl hend
      rw [IsTabRow, to_tab_point, seek_end (hmax ▸ Point.le_refl _)]
      change (extent self.transforms).tab.column = 0
      rw [h, hafter, List.nil_append, extent_singleton]
      exact hend
    · refine tab_row_inside h (show 0 < lines.row from hpos) ?_
      rw [List.nil_append, extent_singleton]
      exact Or.inr ⟨rfl, hmore⟩

theorem prev_loop_tab_row {passed rest : List Transform} (h : self.transforms = passed ++ rest)
    (hrow : (extent passed).wrap.row ≤ row) :
    self.IsTabRow (prev_loop row passed.reverse) ∧ prev_loop row passed.reverse ≤ row := by
  induction passed using List.reverseRecOn generalizing rest with
  | nil => exact ⟨tab_row_zero, Nat.zero_le _⟩
  | append_singleton before transform ih =>
    have hsplit : self.transforms = before ++ transform :: rest := by rw [h, List.append_assoc]; rfl
    have hle := wrap_le_append before [transform]
    have hback := ih hsplit (by
      rw [Point.le_def] at hle
      omega)
    rw [List.reverse_append, List.reverse_singleton, List.singleton_append]
    cases transform with
    | wrap indent => exact hback
    | isomorphic lines =>
      rw [prev_loop, List.reverse_reverse, ← extent_concat]
      rw [wrap_isomorphic, Point.add_row] at hrow
      rw [wrap_isomorphic, Point.add_row]
      split
      · rename_i hmany
        rw [min_eq_left (by omega)]
        refine ⟨tab_row_inside hsplit (by omega) ?_, by omega⟩
        rw [wrap_isomorphic, Point.lt_def, Point.add_row]
        dsimp only
        omega
      · split
        · rename_i hfew hcolumn
          rw [min_eq_left hrow]
          exact ⟨tab_row_stop hsplit hcolumn, hrow⟩
        · exact hback

/-- A row that a wrap without an indent starts, in a line with two more line ends before the next wrap. -/
def RestartsMidLine (self : WrapSnapshot) (row : Nat) : Prop :=
  ∃ before lines after, self.transforms = before ++ .wrap 0 :: .isomorphic lines :: after ∧
    (extent before).wrap.row + 1 = row ∧ 1 < lines.row

theorem RestartsMidLine.prev (h : self.RestartsMidLine row) :
    self.prev_row_boundary ⟨row, 0⟩ = row ∧ ¬ self.IsTabRow row := by
  obtain ⟨before, lines, after, htransforms, hrow, hlines⟩ := h
  have hsplit : self.transforms = (before ++ [.wrap 0]) ++ .isomorphic lines :: after := by
    rw [htransforms, List.append_assoc]
    rfl
  have hstart : (extent (before ++ [.wrap 0])).wrap = ⟨row, 0⟩ := by rw [wrap_wrap, hrow]
  have hstop : (⟨row, 0⟩ : Point) < (extent (before ++ [.wrap 0] ++ [.isomorphic lines])).wrap := by
    rw [wrap_isomorphic, hstart, Point.lt_def, Point.add_row]
    dsimp only
    omega
  have hseek := seek_eq hsplit (hstart ▸ Point.le_refl _) hstop
  constructor
  · rw [prev_row_boundary, if_neg (by rw [htransforms]; simp)]
    simp only [hseek, sum_tree.Cursor.item, List.head?_cons]
    rw [prev_loop, List.reverse_reverse, ← extent_concat, wrap_isomorphic, hstart, Point.add_row]
    simp only
    rw [if_pos hlines]
    omega
  · have hcolumn := tab_column_pos hsplit (by simp)
    rw [IsTabRow, to_tab_point, hseek]
    change ¬ ((extent (before ++ [.wrap 0])).tab.add (Point.sub ⟨row, 0⟩ (extent (before ++ [.wrap 0])).wrap)).column = 0
    rw [hstart, Point.add_column, Point.sub_row, Point.sub_column]
    simp only [Nat.sub_self, if_true]
    omega

theorem prev_row_boundary_iff (self : WrapSnapshot) {row : Nat} (hrow : row ≤ self.max_point.row) :
    (self.IsTabRow (self.prev_row_boundary ⟨row, 0⟩) ∧ self.prev_row_boundary ⟨row, 0⟩ ≤ row) ↔
      ¬ self.RestartsMidLine row := by
  constructor
  · rintro ⟨htab, -⟩ hrestarts
    obtain ⟨hprev, hnot⟩ := hrestarts.prev
    exact hnot (hprev ▸ htab)
  · intro h
    rw [prev_row_boundary]
    split
    · exact ⟨tab_row_zero, Nat.zero_le _⟩
    · have hstart := @seek_start self ⟨row, 0⟩
      have hstop := @seek_stop self ⟨row, 0⟩
      have hitems := @seek_items self ⟨row, 0⟩ Bias.Right
      dsimp only
      generalize self.seek ⟨row, 0⟩ Bias.Right = cursor at *
      obtain ⟨passed, rest⟩ := cursor
      dsimp only at hstart hstop hitems ⊢
      have hpassed : (extent passed).wrap.row ≤ row := by
        rw [Point.le_def] at hstart
        dsimp only at hstart
        omega
      have hback := prev_loop_tab_row hitems.symm hpassed
      cases rest with
      | nil => exact hback
      | cons transform rest =>
        have hpast := hstop rfl
        simp only [sum_tree.Cursor.item, List.head?_cons]
        cases transform with
        | wrap indent => exact hback
        | isomorphic lines =>
          rw [prev_loop, List.reverse_reverse, ← extent_concat, wrap_isomorphic, Point.add_row]
          rw [wrap_isomorphic, Point.lt_def, Point.add_row] at hpast
          dsimp only at hpast ⊢
          split
          · rename_i hmany
            refine ⟨?_, min_le_right _ _⟩
            rcases Nat.eq_or_lt_of_le hpassed with hsame | hlt
            · rcases before_isomorphic hitems.symm with rfl | ⟨front, indent, rfl⟩
              · obtain rfl : row = 0 := hsame.symm
                rw [Nat.min_zero]
                exact tab_row_zero
              · exfalso
                rw [wrap_wrap] at hsame hstart
                obtain rfl : indent = 0 := by
                  rw [Point.le_def] at hstart
                  dsimp only at hstart hsame
                  omega
                rw [List.append_assoc] at hitems
                exact h ⟨front, lines, rest, hitems.symm, hsame, hmany⟩
            · refine tab_row_inside hitems.symm (by omega) ?_
              rw [wrap_isomorphic, Point.lt_def, Point.add_row]
              dsimp only
              omega
          · split
            · rename_i hfew hcolumn
              refine ⟨?_, min_le_right _ _⟩
              obtain rfl : passed = [] := by
                by_contra hne
                exact absurd (tab_column_pos hitems.symm hne) (by omega)
              rcases Nat.eq_zero_or_pos row with rfl | hpos
              · rw [Nat.min_zero]
                exact tab_row_zero
              · have hlast := tab_row_stop hitems.symm hcolumn
                rw [show (extent []).wrap.row = 0 from rfl] at hpast hlast ⊢
                rw [min_eq_left (by omega)]
                exact hlast
            · exact hback

end PrevRow

section Boundaries

/-- What a row of a wrap snapshot should be given: the tab row starts before and after it, and the indent of the soft
    wrap that it ends in. -/
structure RowBoundaries (snapshot : WrapSnapshot) (row : Nat) : Prop where
  prev : snapshot.IsTabRow (snapshot.prev_row_boundary ⟨row, 0⟩) ∧ snapshot.prev_row_boundary ⟨row, 0⟩ ≤ row
  next : snapshot.NextBoundary row (snapshot.next_row_boundary ⟨row, 0⟩)
  soft_wrap : ∀ indent, snapshot.soft_wrap_indent row = some indent ↔ snapshot.EndsInWrap row indent

end Boundaries

/-- The boundaries of a row are right exactly when it does not restart in the middle of a line before two more line
    ends, no tab row starts after it or the next row is in the first part of the text, and it does not end in a wrap
    without an indent. -/
theorem row_boundaries_iff (self : WrapSnapshot) (row : Nat) (hrow : row ≤ self.max_point.row) :
    self.RowBoundaries row ↔
      ¬ self.RestartsMidLine row ∧ (self.InFirst (row + 1) ∨ self.tabRowsAfter row = ∅) ∧ ¬ self.EndsInWrap row 0 := by
  constructor
  · intro h
    exact ⟨(prev_row_boundary_iff self hrow).mp h.prev, (next_row_boundary_iff self row).mp h.next,
      (soft_wrap_indent_iff self row).mp h.soft_wrap⟩
  · rintro ⟨hprev, hnext, hwrap⟩
    exact ⟨(prev_row_boundary_iff self hrow).mpr hprev, (next_row_boundary_iff self row).mpr hnext,
      (soft_wrap_indent_iff self row).mpr hwrap⟩


/-- The text `"aaabbb\nc\nd"`, wrapped without an indent after three columns. -/
def one_wrap : WrapSnapshot where
  transforms := [.isomorphic ⟨0, 3⟩, .wrap 0, .isomorphic ⟨2, 1⟩]
  wellformed := by
    refine ⟨by simp [Transform.is_isomorphic], by simp [Point.zero], fun before indent after h => ?_⟩
    rcases before with _ | ⟨first, _ | ⟨second, before⟩⟩
    · cases h
    · obtain ⟨rfl, -⟩ := List.cons.inj h
      decide
    · obtain ⟨-, h⟩ := List.cons.inj h
      obtain ⟨-, h⟩ := List.cons.inj h
      rcases before with _ | ⟨third, before⟩
      · cases h
      · obtain ⟨-, h⟩ := List.cons.inj h
        simp at h

theorem one_wrap_boundaries : one_wrap.RowBoundaries 3 ↔ ¬ one_wrap.RestartsMidLine 3 ∧
    (one_wrap.InFirst 4 ∨ one_wrap.tabRowsAfter 3 = ∅) ∧ ¬ one_wrap.EndsInWrap 3 0 :=
  row_boundaries_iff one_wrap 3 (by decide)

/-- The second row is in the middle of the first line, and is taken for the start of a line. -/
theorem zero_indent_restarts : 1 ≤ one_wrap.max_point.row ∧ one_wrap.prev_row_boundary ⟨1, 0⟩ = 1 ∧
    ¬ one_wrap.IsTabRow 1 ∧ ¬ one_wrap.RowBoundaries 1 := by
  refine ⟨by decide, by decide, by decide, fun h => ?_⟩
  have htab := h.prev.1
  exact absurd htab (by decide)

end zed.editor.wrap_map.WrapSnapshot
