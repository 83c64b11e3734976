import Zed.Rope.Point
import Zed.SumTree.Seek

namespace zed.editor.wrap_map

open zed.rope (Point)
open zed.sum_tree (Bias seek_while)

/-- A part of the tab text that is passed through, of an extent, or a soft wrap with an indent. -/
inductive Transform
  | isomorphic (lines : Point)
  | wrap (indent : Nat)
deriving DecidableEq

namespace Transform

/-- `summary.input.lines` -/
def input : Transform → Point
  | .isomorphic lines => lines
  | .wrap _ => ⟨0, 0⟩

/-- `summary.output.lines` -/
def output : Transform → Point
  | .isomorphic lines => lines
  | .wrap indent => ⟨1, indent⟩

def is_isomorphic : Transform → Bool
  | .isomorphic _ => true
  | .wrap _ => false

end Transform

/-- A point in the tab text and the point in the wrapped text, as dimensions of the transforms. -/
structure Extent where
  tab : Point
  wrap : Point

def Extent.add (self : Extent) (transform : Transform) : Extent where
  tab := self.tab.add transform.input
  wrap := self.wrap.add transform.output

def extent (transforms : List Transform) : Extent := transforms.foldl Extent.add ⟨Point.zero, Point.zero⟩

/-- Whether what ends at a point lies before a target. -/
def passes (bias : Bias) (target stop : Point) : Bool :=
  match bias with
  | .Left => decide (stop < target)
  | .Right => decide (stop ≤ target)

/-- Wraps and the text between them take turns, there is text in each part of it, and a line is wrapped after
    some of its text. -/
structure Wellformed (transforms : List Transform) : Prop where
  alternate : transforms.IsChain fun transform next => transform.is_isomorphic ≠ next.is_isomorphic
  nonzero : ∀ lines, .isomorphic lines ∈ transforms → lines ≠ Point.zero
  inside : ∀ before indent after, transforms = before ++ .wrap indent :: after → 0 < (extent before).tab.column

structure WrapSnapshot where
  transforms : List Transform
  wellformed : Wellformed transforms

namespace WrapSnapshot

variable (self : WrapSnapshot)

/-- A cursor at a point of the wrapped text. -/
def seek (point : Point) (bias : Bias) : sum_tree.Cursor Transform :=
  seek_while (fun passed => passes bias point (extent passed).wrap) [] self.transforms

def max_point : Point := (extent self.transforms).wrap

def to_tab_point (point : Point) : Point :=
  let cursor := self.seek point Bias.Right
  let start := extent cursor.passed
  match cursor.item with
  | some (.isomorphic _) => start.tab.add (point.sub start.wrap)
  | _ => start.tab

def soft_wrap_indent (row : Nat) : Option Nat :=
  match (self.seek ⟨row + 1, 0⟩ Bias.Right).item with
  | some (.wrap indent) => some indent
  | _ => none

/-- The loop of `prev_row_boundary`, over the transforms up to the one that its cursor is at, the last one first. -/
def prev_loop (row : Nat) : List Transform → Nat
  | [] => 0
  | transform :: before =>
    let start := extent before.reverse
    let stop := start.add transform
    match transform with
    | .isomorphic lines =>
      if lines.row > 1 then min (stop.wrap.row - 1) row
      else if start.tab.column = 0 then min stop.wrap.row row
      else prev_loop row before
    | .wrap _ => prev_loop row before

/-- A tab row start that is also a wrap row start. -/
def prev_row_boundary (point : Point) : Nat :=
  if self.transforms.isEmpty then 0
  else
    let cursor := self.seek ⟨point.row, 0⟩ Bias.Right
    match cursor.item with
    | some transform => prev_loop point.row (transform :: cursor.passed.reverse)
    | none => prev_loop point.row cursor.passed.reverse

/-- The loop of `next_row_boundary`, over the transforms from the one that its cursor is at. -/
def next_loop (row : Nat) (passed : List Transform) : List Transform → Option Nat
  | [] => none
  | transform :: rest =>
    let start := extent passed
    if transform.is_isomorphic && decide (start.tab.column = 0) then some (max start.wrap.row row)
    else next_loop row (passed ++ [transform]) rest

def next_row_boundary (point : Point) : Option Nat :=
  let point := point.add ⟨1, 0⟩
  let cursor := self.seek point Bias.Right
  next_loop point.row cursor.passed cursor.rest

end WrapSnapshot

end zed.editor.wrap_map

namespace zed.editor.wrap_map

open zed.rope (Point)
open zed.sum_tree (Bias seek_while)

section Extents

variable {passed rest : List Transform} {transform : Transform}

theorem extent_append (passed rest : List Transform) : extent (passed ++ rest) =
    ⟨(extent passed).tab.add (extent rest).tab, (extent passed).wrap.add (extent rest).wrap⟩ := by
  have hfold : ∀ (rest : List Transform) (start : Extent), rest.foldl Extent.add start =
      ⟨start.tab.add (extent rest).tab, start.wrap.add (extent rest).wrap⟩ := by
    intro rest
    induction rest with
    | nil => exact fun start => rfl
    | cons transform rest ih =>
      intro start
      have hcons : extent (transform :: rest) =
          ⟨transform.input.add (extent rest).tab, transform.output.add (extent rest).wrap⟩ := by
        rw [extent, List.foldl_cons, ih]
        simp only [Extent.add, Point.zero_add]
      rw [List.foldl_cons, ih, hcons]
      simp only [Extent.add, Point.add_assoc]
  rw [extent, List.foldl_append]
  exact hfold rest _

theorem extent_singleton (transform : Transform) : extent [transform] = ⟨transform.input, transform.output⟩ := by
  simp [extent, Extent.add]

theorem extent_concat (passed : List Transform) (transform : Transform) :
    extent (passed ++ [transform]) = (extent passed).add transform := by
  rw [extent_append, extent_singleton]
  rfl

theorem wrap_le_append (passed rest : List Transform) : (extent passed).wrap ≤ (extent (passed ++ rest)).wrap := by
  rw [extent_append]
  exact Point.le_add _ _

theorem wrap_isomorphic (passed : List Transform) (lines : Point) :
    (extent (passed ++ [.isomorphic lines])).wrap = (extent passed).wrap.add lines := by
  rw [extent_concat]
  rfl

theorem tab_isomorphic (passed : List Transform) (lines : Point) :
    (extent (passed ++ [.isomorphic lines])).tab = (extent passed).tab.add lines := by
  rw [extent_concat]
  rfl

theorem wrap_wrap (passed : List Transform) (indent : Nat) :
    (extent (passed ++ [.wrap indent])).wrap = ⟨(extent passed).wrap.row + 1, indent⟩ := by
  rw [extent_concat]
  rfl

theorem tab_wrap (passed : List Transform) (indent : Nat) :
    (extent (passed ++ [.wrap indent])).tab = (extent passed).tab := by
  rw [extent_concat]
  exact Point.add_zero _

end Extents

namespace WrapSnapshot

variable {self : WrapSnapshot} {before after : List Transform} {indent row : Nat} {lines : Point}

theorem before_isomorphic (h : self.transforms = before ++ .isomorphic lines :: after) :
    before = [] ∨ ∃ front indent, before = front ++ [.wrap indent] := by
  rcases List.eq_nil_or_concat' before with hnil | ⟨front, last, rfl⟩
  · exact Or.inl hnil
  · right
    have halternate := self.wellformed.alternate
    rw [h, List.append_assoc, List.singleton_append] at halternate
    have hlast := (List.isChain_append.mp halternate).2.1
    rw [List.isChain_cons_cons] at hlast
    cases last with
    | isomorphic lines' => exact absurd rfl hlast.1
    | wrap indent => exact ⟨front, indent, rfl⟩

theorem before_wrap (h : self.transforms = before ++ .wrap indent :: after) :
    ∃ front lines, before = front ++ [.isomorphic lines] := by
  rcases List.eq_nil_or_concat' before with rfl | ⟨front, last, rfl⟩
  · have hinside := self.wellformed.inside [] indent after h
    exact absurd hinside (Nat.lt_irrefl _)
  · have halternate := self.wellformed.alternate
    rw [h, List.append_assoc, List.singleton_append] at halternate
    have hlast := (List.isChain_append.mp halternate).2.1
    rw [List.isChain_cons_cons] at hlast
    cases last with
    | isomorphic lines => exact ⟨front, lines, rfl⟩
    | wrap indent' => exact absurd rfl hlast.1

theorem tab_column_pos (h : self.transforms = before ++ .isomorphic lines :: after) (hne : before ≠ []) :
    0 < (extent before).tab.column := by
  obtain ⟨front, indent, rfl⟩ := (before_isomorphic h).resolve_left hne
  rw [tab_wrap]
  rw [List.append_assoc] at h
  exact self.wellformed.inside front indent _ h

theorem wrap_column_pos (h : self.transforms = before ++ .wrap indent :: after) : 0 < (extent before).wrap.column := by
  have hinside := self.wellformed.inside before indent after h
  obtain ⟨front, lines, rfl⟩ := before_wrap h
  rw [List.append_assoc, List.singleton_append] at h
  have hlines := self.wellformed.nonzero lines (by rw [h]; simp)
  rw [tab_isomorphic, Point.add_column] at hinside
  rw [wrap_isomorphic, Point.add_column]
  split
  · rename_i hrow
    have hcolumn : lines.column ≠ 0 := fun hcolumn => hlines (by ext <;> assumption)
    omega
  · rename_i hrow
    rwa [if_neg hrow] at hinside

theorem seek_items (point : Point) (bias : Bias) :
    (self.seek point bias).passed ++ (self.seek point bias).rest = self.transforms := by
  rw [seek, sum_tree.seek_while_items]
  rfl

theorem seek_start (point : Point) : (extent (self.seek point Bias.Right).passed).wrap ≤ point := by
  have hpassed := @sum_tree.seek_while_passed Transform
    (fun passed => passes Bias.Right point (extent passed).wrap) [] self.transforms
  rw [seek]
  rcases hpassed with hnil | hpasses
  · rw [hnil]
    exact Point.zero_le point
  · exact of_decide_eq_true hpasses

theorem seek_stop {point : Point} {transform : Transform} {rest : List Transform}
    (h : (self.seek point Bias.Right).rest = transform :: rest) :
    point < (extent ((self.seek point Bias.Right).passed ++ [transform])).wrap :=
  Point.not_le.mp (of_decide_eq_false (sum_tree.seek_while_stops h))

theorem seek_eq {point : Point} {transform : Transform} {rest : List Transform}
    (h : self.transforms = before ++ transform :: rest) (hstart : (extent before).wrap ≤ point)
    (hstop : point < (extent (before ++ [transform])).wrap) :
    self.seek point Bias.Right = { passed := before, rest := transform :: rest } := by
  rw [seek, h, sum_tree.seek_while_eq]
  · rfl
  · rintro front back rfl -
    exact decide_eq_true (Point.le_trans (wrap_le_append front back) hstart)
  · intro item rest' hrest
    obtain ⟨rfl, rfl⟩ := List.cons.inj hrest
    exact decide_eq_false (Point.not_le.mpr hstop)

theorem seek_end {point : Point} (h : self.max_point ≤ point) :
    self.seek point Bias.Right = { passed := self.transforms, rest := [] } := by
  have heq := @sum_tree.seek_while_eq Transform (fun passed => passes Bias.Right point (extent passed).wrap) []
    self.transforms []
    (by
      rintro front back hsplit -
      refine decide_eq_true (Point.le_trans ?_ h)
      rw [max_point, hsplit]
      exact wrap_le_append front back)
    (by rintro item rest hrest; cases hrest)
  rw [List.append_nil] at heq
  exact heq

def IsTabRow (self : WrapSnapshot) (row : Nat) : Prop := (self.to_tab_point ⟨row, 0⟩).column = 0

instance (self : WrapSnapshot) (row : Nat) : Decidable (self.IsTabRow row) :=
  inferInstanceAs (Decidable ((self.to_tab_point ⟨row, 0⟩).column = 0))

def EndsInWrap (self : WrapSnapshot) (row indent : Nat) : Prop :=
  ∃ before after, self.transforms = before ++ .wrap indent :: after ∧ (extent before).wrap.row = row

theorem tab_row_inside (h : self.transforms = before ++ .isomorphic lines :: after)
    (hstart : (extent before).wrap.row < row) (hstop : (⟨row, 0⟩ : Point) < (extent (before ++ [.isomorphic lines])).wrap) :
    self.IsTabRow row := by
  rw [IsTabRow, to_tab_point, seek_eq h (Or.inl hstart) hstop]
  change ((extent before).tab.add (Point.sub ⟨row, 0⟩ (extent before).wrap)).column = 0
  rw [Point.add_column, Point.sub_row, Point.sub_column]
  dsimp only
  rw [if_neg (by omega), if_neg (by omega)]

theorem tab_row_zero : self.IsTabRow 0 := by
  rw [IsTabRow, to_tab_point]
  have hstart := @seek_start self ⟨0, 0⟩
  have hitems := @seek_items self ⟨0, 0⟩ Bias.Right
  generalize self.seek ⟨0, 0⟩ Bias.Right = cursor at *
  have hwrap : (extent cursor.passed).wrap = Point.zero := Point.eq_zero_of_le hstart
  have hnil : cursor.passed = [] := by
    rcases List.eq_nil_or_concat' cursor.passed with hnil | ⟨front, last, hconcat⟩
    · exact hnil
    · rw [hconcat, List.append_assoc, List.singleton_append] at hitems
      rw [hconcat] at hwrap
      cases last with
      | wrap indent =>
        rw [wrap_wrap] at hwrap
        cases hwrap
      | isomorphic lines =>
        rw [wrap_isomorphic] at hwrap
        have hle := Point.le_add (extent front).wrap lines
        have hlines := self.wellformed.nonzero lines (by rw [← hitems]; simp)
        rw [hwrap] at hle
        rw [Point.eq_zero_of_le hle, Point.zero_add] at hwrap
        exact absurd hwrap hlines
  rw [hnil] at hwrap ⊢
  cases hitem : cursor.item with
  | none => rfl
  | some transform =>
    cases transform with
    | isomorphic lines => rfl
    | wrap indent => rfl

end WrapSnapshot

end zed.editor.wrap_map
