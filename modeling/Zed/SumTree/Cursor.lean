import Zed.SumTree.Keyed

namespace zed.sum_tree

/-- A cursor of a tree: the items before it and the items from it on. Its
    position in a dimension is the sum of the lengths of what it has passed. -/
structure Cursor (α : Type) where
  passed : List α
  rest : List α

/-- Whether an item that ends at `stop` lies before the target. -/
def Bias.passes (bias : Bias) (target stop : Nat) : Bool :=
  match bias with
  | .Left => decide (stop < target)
  | .Right => decide (stop ≤ target)

/-- The items before the first one that does not lie before the target. -/
def slice_from {α : Type} (len : α → Nat) (target : Nat) (bias : Bias) : Nat → List α → List α × List α
  | _, [] => ([], [])
  | pos, x :: rest =>
    if bias.passes target (pos + len x) then
      let (slice, rest) := slice_from len target bias (pos + len x) rest
      (x :: slice, rest)
    else ([], x :: rest)

namespace Cursor

variable {α : Type}

def new (items : List α) : Cursor α := { passed := [], rest := items }

def item (cursor : Cursor α) : Option α := cursor.rest.head?

def start (len : α → Nat) (cursor : Cursor α) : Nat := (cursor.passed.map len).sum

/-- `cursor.end()`: the start when there is no item. -/
def stop (len : α → Nat) (cursor : Cursor α) : Nat :=
  cursor.start len + (cursor.item.map len).getD 0

def next (cursor : Cursor α) : Cursor α :=
  match cursor.rest with
  | [] => cursor
  | x :: rest => { passed := cursor.passed ++ [x], rest }

/-- Moves to a position of a dimension, and returns the items passed. -/
def slice (len : α → Nat) (target : Nat) (bias : Bias) (cursor : Cursor α) : List α × Cursor α :=
  let (slice, rest) := slice_from len target bias (cursor.start len) cursor.rest
  (slice, { passed := cursor.passed ++ slice, rest })

/-- Moves past the items before a key, and returns them. -/
def slice_while (before : α → Bool) (cursor : Cursor α) : List α × Cursor α :=
  let slice := cursor.rest.takeWhile before
  (slice, { passed := cursor.passed ++ slice, rest := cursor.rest.dropWhile before })

def suffix (cursor : Cursor α) : List α := cursor.rest

@[simp] theorem start_append (len : α → Nat) (passed slice rest : List α) :
    start len { passed := passed ++ slice, rest } = start len { passed, rest } + (slice.map len).sum := by
  simp [start]

theorem slice_from_append (len : α → Nat) (target : Nat) (bias : Bias) (pos : Nat) (items : List α) :
    (slice_from len target bias pos items).1 ++ (slice_from len target bias pos items).2 = items := by
  induction items generalizing pos with
  | nil => rfl
  | cons x rest ih =>
    rw [slice_from]
    split
    · simp only [List.cons_append, List.cons.injEq, true_and]
      exact ih (pos + len x)
    · rfl

theorem slice_from_stop (len : α → Nat) (target : Nat) (bias : Bias) (pos : Nat) (items : List α) :
    (∀ before x after, (slice_from len target bias pos items).1 = before ++ x :: after →
      bias.passes target (pos + (before.map len).sum + len x) = true) ∧
    ∀ x ∈ (slice_from len target bias pos items).2.head?,
      bias.passes target (pos + ((slice_from len target bias pos items).1.map len).sum + len x) =
        false := by
  induction items generalizing pos with
  | nil => simp [slice_from]
  | cons x rest ih =>
    rw [slice_from]
    split
    · rename_i hpass
      obtain ⟨htaken, hleft⟩ := ih (pos + len x)
      constructor
      · intro before y after hsplit
        cases before with
        | nil =>
          simp only [List.nil_append, List.cons.injEq] at hsplit
          rw [← hsplit.1]
          simpa using hpass
        | cons first before =>
          simp only [List.cons_append, List.cons.injEq] at hsplit
          have := htaken before y after hsplit.2
          rw [← hsplit.1]
          simpa [Nat.add_assoc] using this
      · intro y hy
        have := hleft y hy
        simpa [Nat.add_assoc] using this
    · rename_i hpass
      refine ⟨by simp, fun y hy => ?_⟩
      simp only [List.head?_cons, Option.mem_def, Option.some.injEq] at hy
      subst hy
      simpa using hpass

end Cursor

/-- A cursor that visits the items that a filter keeps: where it still stops, and
    its end. -/
structure FilterCursor (α : Type) where
  stops : List (Cursor α)
  finish : Cursor α

namespace FilterCursor

variable {α : Type}

/-- Where a filter keeps an item. -/
def stops_from (filter : α → Bool) : List α → List α → List (Cursor α)
  | _, [] => []
  | passed, x :: rest =>
    if filter x then { passed, rest := x :: rest } :: stops_from filter (passed ++ [x]) rest
    else stops_from filter (passed ++ [x]) rest

def new (filter : α → Bool) (items : List α) : FilterCursor α :=
  { stops := stops_from filter [] items
    finish := { passed := items, rest := [] } }

def cursor (cursor : FilterCursor α) : Cursor α := cursor.stops.headD cursor.finish

def item (cursor : FilterCursor α) : Option α := cursor.cursor.item

def next (cursor : FilterCursor α) : FilterCursor α := { cursor with stops := cursor.stops.tail }

end FilterCursor

end zed.sum_tree
