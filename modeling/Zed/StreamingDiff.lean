import Zed.StreamingDiff.Operation

namespace zed.streaming_diff

/-- The floating-point numbers that scores are made of. -/
structure Float64 (F : Type) where
  of_nat : Nat → F
  add : F → F → F
  mul : F → F → F
  max : F → F → F
  powi : F → Nat → F
  lt : F → F → Bool
  /-- How `OrderedFloat` compares them. -/
  cmp : F → F → Ordering
  zero : F
  neg_infinity : F
  INSERTION_SCORE : F
  DELETION_SCORE : F
  EQUALITY_BASE : F

def MAX_EQUALITY_EXPONENT : Nat := 16

/-- A subtraction that panics below zero. -/
def sub (a b : Nat) : Option Nat := if b ≤ a then some (a - b) else none

/-- An assignment to an index, which panics out of range. -/
def set_at {α : Type} (xs : List α) (i : Nat) (x : α) : Option (List α) :=
  if i < xs.length then some (xs.set i x) else none

structure Matrix (F : Type) where
  cells : List F
  rows : Nat
  cols : Nat

/-- Swaps `count` cells at `a` with those at `b`. -/
def swap_nonoverlapping {F : Type} (cells : List F) (a b count : Nat) : List F :=
  cells.mapIdx fun k cell =>
    if a ≤ k ∧ k < a + count then cells.getD (b + (k - a)) cell
    else if b ≤ k ∧ k < b + count then cells.getD (a + (k - b)) cell
    else cell

namespace Matrix

variable {F : Type}

def resize (zero : F) (m : Matrix F) (rows cols : Nat) : Matrix F where
  cells := m.cells.take (rows * cols) ++ List.replicate (rows * cols - m.cells.length) zero
  rows := rows
  cols := cols

/-- Neither a column nor a cell may be out of bounds. -/
def swap_columns (m : Matrix F) (col1 col2 : Nat) : Option (Matrix F) :=
  if col1 = col2 then some m
  else if m.cols ≤ col1 ∨ m.cols ≤ col2 then none
  else if m.cells.length < col1 * m.rows + m.rows ∨ m.cells.length < col2 * m.rows + m.rows then none
  else some { m with cells := swap_nonoverlapping m.cells (col1 * m.rows) (col2 * m.rows) m.rows }

def get (m : Matrix F) (row col : Nat) : Option F :=
  if m.rows ≤ row ∨ m.cols ≤ col then none else m.cells[col * m.rows + row]?

def set (m : Matrix F) (row col : Nat) (value : F) : Option (Matrix F) :=
  if m.rows ≤ row ∨ m.cols ≤ col then none
  else (set_at m.cells (col * m.rows + row) value).map fun cells => { m with cells }

/-- The columns before and at an index. -/
def adjacent_columns_mut (m : Matrix F) (current_col : Nat) : Option (List F × List F) :=
  if current_col = 0 ∨ m.cols ≤ current_col then none
  else do
    let current_col_start := current_col * m.rows
    let previous_col_start ← sub current_col_start m.rows
    if m.cells.length < current_col_start + m.rows then none
    else
      some ((m.cells.take current_col_start).drop previous_col_start,
        (m.cells.drop current_col_start).take m.rows)

/-- What was written to the column at an index. -/
def write_column (m : Matrix F) (col : Nat) (column : List F) : Matrix F :=
  { m with cells := m.cells.take (col * m.rows) ++ column ++ m.cells.drop (col * m.rows + m.rows) }

end Matrix

structure StreamingDiff (F : Type) where
  old : List Char
  new : List Char
  scores : Matrix F
  old_text_ix : Nat
  new_text_ix : Nat
  previous_equal_runs : List Nat
  current_equal_runs : List Nat

namespace StreamingDiff

variable {F : Type} (f : Float64 F)

def new_diff (old : List Char) : Option (StreamingDiff F) := do
  let old_len := old.length
  let scores := (Matrix.mk [] 0 0).resize f.zero (old_len + 1) 1
  let scores ← (List.range (old_len + 1)).foldlM
    (fun scores i => Matrix.set scores i 0 (f.mul (f.of_nat i) f.DELETION_SCORE)) scores
  return {
    old
    new := []
    scores
    old_text_ix := 0
    new_text_ix := 0
    previous_equal_runs := List.replicate (old_len + 1) 0
    current_equal_runs := List.replicate (old_len + 1) 0 }

/-- The score of one cell, in the column of a new character. -/
def score_cell (old : List Char) (new_char : Char) (previous_scores : List F) (previous_equal_runs : List Nat)
    (state : List F × List Nat) (i : Nat) : Option (List F × List Nat) := do
  let (current_scores, current_equal_runs) := state
  let before ← sub i 1
  let insertion_score := f.add (← previous_scores[i]?) f.INSERTION_SCORE
  let deletion_score := f.add (← current_scores[before]?) f.DELETION_SCORE
  let (equality_score, current_equal_runs) ←
    if (← old[before]?) = new_char then do
      let equal_run := (← previous_equal_runs[before]?) + 1
      let current_equal_runs ← set_at current_equal_runs i equal_run
      let exponent := min (equal_run / 4) MAX_EQUALITY_EXPONENT
      pure (f.add (← previous_scores[before]?) (f.powi f.EQUALITY_BASE exponent), current_equal_runs)
    else pure (f.neg_infinity, current_equal_runs)
  let current_scores ← set_at current_scores i (f.max (f.max insertion_score deletion_score) equality_score)
  return (current_scores, current_equal_runs)

/-- The column of the new character before index `j`. -/
def score_column (self : StreamingDiff F) (j : Nat) : Option (StreamingDiff F) := do
  let current_equal_runs := List.replicate self.current_equal_runs.length 0
  let relative_j ← sub j self.new_text_ix
  let new_char ← self.new[(← sub j 1)]?
  let (previous_scores, current_scores) ← self.scores.adjacent_columns_mut relative_j
  let current_scores ← set_at current_scores 0 (f.mul (f.of_nat j) f.INSERTION_SCORE)
  let (current_scores, current_equal_runs) ← (List.range' 1 self.old.length).foldlM
    (score_cell f self.old new_char previous_scores self.previous_equal_runs)
    (current_scores, current_equal_runs)
  return { self with
    scores := self.scores.write_column relative_j current_scores
    previous_equal_runs := current_equal_runs
    current_equal_runs := self.previous_equal_runs }

/-- The best score so far in the last column, and where it is. -/
def choose (self : StreamingDiff F) (best : F × Nat) (i : Nat) : Option (F × Nat) := do
  let (max_score, next_old_text_ix) := best
  let score ← self.scores.get i (← sub self.new.length self.new_text_ix)
  return if f.lt max_score score then (score, i) else (max_score, next_old_text_ix)

/-- The score of a cell, if there is one. -/
def key (self : StreamingDiff F) (cell : Option (Nat × Nat)) : Option (Option F) :=
  match cell with
  | none => some none
  | some (i, j) => do return some (← self.scores.get i (← sub j self.new_text_ix))

def cmp_keys : Option F → Option F → Ordering
  | none, none => .eq
  | none, some _ => .lt
  | some _, none => .gt
  | some a, some b => f.cmp a b

/-- `max_by_key`: the last of the cells with the highest score. -/
def max_by_key (best : Option F × Option (Nat × Nat)) :
    List (Option F × Option (Nat × Nat)) → Option (Nat × Nat)
  | [] => best.2
  | cell :: cells => max_by_key (if cmp_keys f best.1 cell.1 = .gt then best else cell) cells

/-- Adds an insertion that is complete before the others. -/
def flush (self : StreamingDiff F) (pending_insert : Option (Nat × Nat)) (hunks : List CharOperation) :
    Option (List CharOperation) :=
  match pending_insert with
  | some (first, last) =>
    if first ≤ last ∧ last ≤ self.new.length then some (.insert ((self.new.take last).drop first) :: hunks)
    else none
  | none => some hunks

def push_delete (char_len : Nat) : List CharOperation → List CharOperation
  | .delete bytes :: hunks => .delete (bytes + char_len) :: hunks
  | hunks => .delete char_len :: hunks

def push_keep (char_len : Nat) : List CharOperation → List CharOperation
  | .keep bytes :: hunks => .keep (bytes + char_len) :: hunks
  | hunks => .keep char_len :: hunks

/-- The cell before a cell by a character kept, if both texts have it. -/
def equality_cell (self : StreamingDiff F) (i j : Nat) : Option (Option (Nat × Nat)) :=
  if self.old_text_ix < i ∧ self.new_text_ix < j then do
    let old_char ← self.old[i - 1]?
    let new_char ← self.new[j - 1]?
    return if old_char = new_char then some (i - 1, j - 1) else none
  else some none

/-- The best of the cells before a cell: by an insertion, by a deletion and by a character kept. -/
def cell_before (self : StreamingDiff F) (i j : Nat) : Option (Nat × Nat) := do
  let insertion := if self.new_text_ix < j then some (i, j - 1) else none
  let deletion := if self.old_text_ix < i then some (i - 1, j) else none
  let equality ← self.equality_cell i j
  let insertion_score ← self.key insertion
  let deletion_score ← self.key deletion
  let equality_score ← self.key equality
  max_by_key f (insertion_score, insertion) [(deletion_score, deletion), (equality_score, equality)]

/-- The way back from a cell, at most so many steps. The hunks stand in reverse, as `reverse`
    leaves them. -/
def walk_back (self : StreamingDiff F) (steps i j : Nat) (pending_insert : Option (Nat × Nat))
    (hunks : List CharOperation) : Option (List CharOperation) :=
  if (i, j) = (self.old_text_ix, self.new_text_ix) then self.flush pending_insert hunks
  else
    match steps with
    | 0 => none
    | steps + 1 => do
      let (prev_i, prev_j) ← self.cell_before f i j
      if ← (if prev_i = i then do return decide (prev_j = (← sub j 1)) else some false) then
        let last := (pending_insert.map Prod.snd).getD j
        walk_back self steps prev_i prev_j (some (prev_j, last)) hunks
      else
        let hunks ← self.flush pending_insert hunks
        let before ← sub i 1
        let c ← self.old[before]?
        if prev_i = before ∧ prev_j = j then
          walk_back self steps prev_i prev_j none (push_delete c.utf8Size hunks)
        else walk_back self steps prev_i prev_j none (push_keep c.utf8Size hunks)

def backtrack (self : StreamingDiff F) (old_text_ix new_text_ix : Nat) : Option (List CharOperation) :=
  self.walk_back f (old_text_ix + new_text_ix) old_text_ix new_text_ix none []

def push_new (self : StreamingDiff F) (text : List Char) : Option (StreamingDiff F × List CharOperation) := do
  let new := self.new ++ text
  let scores ← self.scores.swap_columns 0 (← sub self.scores.cols 1)
  let scores := scores.resize f.zero (self.old.length + 1) ((← sub new.length self.new_text_ix) + 1)
  let self ← (List.range' (self.new_text_ix + 1) (new.length - self.new_text_ix)).foldlM (score_column f)
    { self with new, scores }
  let next_new_text_ix := self.new.length
  let (_, next_old_text_ix) ←
    (List.range' self.old_text_ix (self.old.length + 1 - self.old_text_ix)).foldlM (self.choose f)
      (f.neg_infinity, self.old_text_ix)
  let hunks ← self.backtrack f next_old_text_ix next_new_text_ix
  return ({ self with old_text_ix := next_old_text_ix, new_text_ix := next_new_text_ix }, hunks)

def finish (self : StreamingDiff F) : Option (List CharOperation) :=
  self.backtrack f self.old.length self.new.length

/-- The operations for chunks of a new text, until the end of it. -/
def push_all : StreamingDiff F → List (List Char) → Option (List CharOperation)
  | self, [] => self.finish f
  | self, chunk :: chunks => do
    let (self, operations) ← self.push_new f chunk
    return operations ++ (← self.push_all chunks)

def stream (old : List Char) (chunks : List (List Char)) : Option (List CharOperation) := do
  (← new_diff f old).push_all f chunks

end StreamingDiff

end zed.streaming_diff
