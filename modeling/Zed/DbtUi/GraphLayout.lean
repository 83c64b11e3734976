import Mathlib

namespace zed.dbt_ui.graph_layout

/-- Where a node is, and its column. -/
structure Placed where
  x : ℚ
  y : ℚ
  level : ℤ
deriving DecidableEq, Repr

structure Placement (count : Nat) where
  nodes : Fin count → Placed
  width : ℚ
  height : ℚ

/-- Gaps and margins. -/
structure Spacing where
  padding : ℚ
  column_gap : ℚ
  row_gap : ℚ
deriving DecidableEq, Repr

variable {count : Nat}

/-- An edge between two nodes, from the first to the second. -/
abbrev Edge (count : Nat) := Fin count × Fin count

/-- The edges between two different nodes. -/
def links (count : Nat) (edges : List (Nat × Nat)) : List (Edge count) :=
  edges.filterMap fun (source, target) =>
    if h : source ≠ target ∧ source < count ∧ target < count then some (⟨source, h.2.1⟩, ⟨target, h.2.2⟩) else none

def outgoing (edges : List (Edge count)) (node : Fin count) : List (Fin count) :=
  (edges.filter fun edge => edge.1 = node).map Prod.snd

def incoming (edges : List (Edge count)) (node : Fin count) : List (Fin count) :=
  (edges.filter fun edge => edge.2 = node).map Prod.fst

@[simp] theorem mem_outgoing {edges : List (Edge count)} {a b : Fin count} : b ∈ outgoing edges a ↔ (a, b) ∈ edges := by
  simp [outgoing]

@[simp] theorem mem_incoming {edges : List (Edge count)} {a b : Fin count} : a ∈ incoming edges b ↔ (a, b) ∈ edges := by
  simp [incoming]

inductive Mark
  | unseen
  | on_path
  | done
deriving DecidableEq, Repr

/-- A depth-first walk: the nodes on its path, each with the number of its edges already
    taken, the last first. -/
structure Walk (count : Nat) where
  state : Fin count → Mark
  back : List (Edge count)
  stack : List (Fin count × Nat)

namespace Walk

def new : Walk count := ⟨fun _ => .unseen, [], []⟩

/-- The next round of the loop, until the stack is empty. -/
def step (edges : List (Edge count)) (walk : Walk count) : Option (Walk count) :=
  match walk.stack with
  | [] => none
  | (node, next) :: stack =>
    match (outgoing edges node)[next]? with
    | some target =>
      match walk.state target with
      | .unseen =>
        some { walk with
          state := Function.update walk.state target .on_path
          stack := (target, 0) :: (node, next + 1) :: stack }
      | .on_path => some { walk with back := (node, target) :: walk.back, stack := (node, next + 1) :: stack }
      | .done => some { walk with stack := (node, next + 1) :: stack }
    | none => some { walk with state := Function.update walk.state node .done, stack := stack }

def unseen (walk : Walk count) : Nat := (Finset.univ.filter fun node => walk.state node = .unseen).card

/-- The edges still to take from the nodes on the path, and the nodes still to leave. -/
def left (edges : List (Edge count)) (walk : Walk count) : Nat :=
  (walk.stack.map fun frame => (outgoing edges frame.1).length - frame.2 + 1).sum

theorem step_cases {edges : List (Edge count)} {walk walk' : Walk count} (h : walk.step edges = some walk') :
    ∃ node next stack, walk.stack = (node, next) :: stack ∧
      ((∃ target, (outgoing edges node)[next]? = some target ∧
          ((walk.state target = .unseen ∧
              walk' = ⟨Function.update walk.state target .on_path, walk.back,
                (target, 0) :: (node, next + 1) :: stack⟩) ∨
            (walk.state target = .on_path ∧
              walk' = ⟨walk.state, (node, target) :: walk.back, (node, next + 1) :: stack⟩) ∨
            (walk.state target = .done ∧ walk' = ⟨walk.state, walk.back, (node, next + 1) :: stack⟩))) ∨
        ((outgoing edges node)[next]? = none ∧
          walk' = ⟨Function.update walk.state node .done, walk.back, stack⟩)) := by
  unfold step at h
  split at h
  · cases h
  · rename_i node next stack hstack
    refine ⟨node, next, stack, hstack, ?_⟩
    split at h
    · rename_i target htarget
      refine .inl ⟨target, htarget, ?_⟩
      split at h
      · rename_i hstate
        exact .inl ⟨hstate, (Option.some.inj h).symm⟩
      · rename_i hstate
        exact .inr (.inl ⟨hstate, (Option.some.inj h).symm⟩)
      · rename_i hstate
        exact .inr (.inr ⟨hstate, (Option.some.inj h).symm⟩)
    · rename_i htarget
      exact .inr ⟨htarget, (Option.some.inj h).symm⟩

theorem card_update_lt {state : Fin count → Mark} {node : Fin count} (h : state node = .unseen) {mark : Mark}
    (hmark : mark ≠ .unseen) :
    (Finset.univ.filter fun other => Function.update state node mark other = .unseen).card <
      (Finset.univ.filter fun other => state other = .unseen).card := by
  apply Finset.card_lt_card
  refine ⟨fun other hother => ?_, fun hsubset => ?_⟩
  · have hunseen := (Finset.mem_filter.mp hother).2
    rcases eq_or_ne other node with rfl | hne
    · exact Finset.mem_filter.mpr ⟨Finset.mem_univ _, h⟩
    · rw [Function.update_of_ne hne] at hunseen
      exact Finset.mem_filter.mpr ⟨Finset.mem_univ _, hunseen⟩
  · have hnode := hsubset (Finset.mem_filter.mpr ⟨Finset.mem_univ node, h⟩)
    have hunseen := (Finset.mem_filter.mp hnode).2
    rw [Function.update_self] at hunseen
    exact hmark hunseen

theorem card_update_le (state : Fin count → Mark) (node : Fin count) :
    (Finset.univ.filter fun other => Function.update state node .done other = .unseen).card ≤
      (Finset.univ.filter fun other => state other = .unseen).card := by
  apply Finset.card_le_card
  intro other hother
  have hunseen := (Finset.mem_filter.mp hother).2
  rcases eq_or_ne other node with rfl | hne
  · rw [Function.update_self] at hunseen
    cases hunseen
  · rw [Function.update_of_ne hne] at hunseen
    exact Finset.mem_filter.mpr ⟨Finset.mem_univ _, hunseen⟩

theorem step_decreases {edges : List (Edge count)} {walk walk' : Walk count} (h : walk.step edges = some walk') :
    walk'.unseen < walk.unseen ∨ walk'.unseen ≤ walk.unseen ∧ walk'.left edges < walk.left edges := by
  obtain ⟨node, next, stack, hstack, hcases⟩ := step_cases h
  rcases hcases with ⟨target, htarget, ⟨hstate, rfl⟩ | ⟨-, rfl⟩ | ⟨-, rfl⟩⟩ | ⟨-, rfl⟩
  · exact .inl (card_update_lt hstate (by decide))
  · obtain ⟨hlt, -⟩ := List.getElem?_eq_some_iff.mp htarget
    refine .inr ⟨Nat.le_refl _, ?_⟩
    simp only [left, hstack, List.map_cons, List.sum_cons]
    omega
  · obtain ⟨hlt, -⟩ := List.getElem?_eq_some_iff.mp htarget
    refine .inr ⟨Nat.le_refl _, ?_⟩
    simp only [left, hstack, List.map_cons, List.sum_cons]
    omega
  · refine .inr ⟨card_update_le _ _, ?_⟩
    simp only [left, hstack, List.map_cons, List.sum_cons]
    omega

def run (edges : List (Edge count)) (walk : Walk count) : Walk count :=
  match h : walk.step edges with
  | none => walk
  | some walk' => run edges walk'
termination_by (walk.unseen, walk.left edges)
decreasing_by
  rcases step_decreases h with hlt | ⟨hle, hlt⟩
  · exact .left _ _ hlt
  · rcases hle.lt_or_eq with hlt' | heq
    · exact .left _ _ hlt'
    · rw [heq]
      exact .right _ hlt

/-- Walks from a node, unless a walk has been there. -/
def start (edges : List (Edge count)) (walk : Walk count) (node : Fin count) : Walk count :=
  if walk.state node ≠ .unseen then walk
  else run edges { walk with state := Function.update walk.state node .on_path, stack := [(node, 0)] }

end Walk

def acyclic (edges : List (Edge count)) (center : Option (Fin count)) : List (Edge count) :=
  let walk := (center.toList ++ List.finRange count).foldl (Walk.start edges) Walk.new
  edges.filter fun edge => edge ∉ walk.back

/-- Kahn's walk over the nodes without incoming edges left. -/
structure Kahn (count : Nat) where
  remaining : Fin count → Nat
  queue : List (Fin count)
  seen : Fin count → Bool
  order : List (Fin count)

namespace Kahn

def new (edges : List (Edge count)) : Kahn count where
  remaining node := (incoming edges node).length
  queue := (List.finRange count).filter fun node => (incoming edges node).length = 0
  seen _ := false
  order := []

def take (found : (Fin count → Nat) × List (Fin count)) (next : Fin count) :
    (Fin count → Nat) × List (Fin count) :=
  let remaining := Function.update found.1 next (found.1 next - 1)
  (remaining, if remaining next = 0 then found.2 ++ [next] else found.2)

def step (edges : List (Edge count)) (kahn : Kahn count) : Option (Kahn count) :=
  match kahn.queue with
  | [] => none
  | node :: queue =>
    if kahn.seen node then some { kahn with queue := queue }
    else
      let (remaining, queue) := (outgoing edges node).foldl take (kahn.remaining, queue)
      some { remaining, queue, seen := Function.update kahn.seen node true, order := kahn.order ++ [node] }

def unseen (kahn : Kahn count) : Nat := (Finset.univ.filter fun node => kahn.seen node = false).card

theorem step_decreases {edges : List (Edge count)} {kahn kahn' : Kahn count} (h : kahn.step edges = some kahn') :
    kahn'.unseen < kahn.unseen ∨ kahn'.unseen = kahn.unseen ∧ kahn'.queue.length < kahn.queue.length := by
  unfold step at h
  split at h
  · cases h
  · rename_i node queue hqueue
    split at h
    · cases Option.some.inj h
      exact .inr ⟨rfl, by simp [hqueue]⟩
    · rename_i hseen
      cases Option.some.inj h
      refine .inl (Finset.card_lt_card ⟨fun other hother => ?_, fun hsubset => ?_⟩)
      · have hunseen := (Finset.mem_filter.mp hother).2
        rcases eq_or_ne other node with rfl | hne
        · simp at hunseen
        · exact Finset.mem_filter.mpr ⟨Finset.mem_univ _, by simpa [hne] using hunseen⟩
      · have hnode := hsubset (Finset.mem_filter.mpr ⟨Finset.mem_univ node, by simpa using hseen⟩)
        simp at hnode

def run (edges : List (Edge count)) (kahn : Kahn count) : Kahn count :=
  match h : kahn.step edges with
  | none => kahn
  | some kahn' => run edges kahn'
termination_by (kahn.unseen, kahn.queue.length)
decreasing_by
  rcases step_decreases h with hlt | ⟨heq, hlt⟩
  · exact .left _ _ hlt
  · rw [heq]
    exact .right _ hlt

end Kahn

/-- Kahn's order; what a cycle would leave out comes last, as given. -/
def topological (edges : List (Edge count)) : List (Fin count) :=
  let kahn := Kahn.run edges (Kahn.new edges)
  kahn.order ++ (List.finRange count).filter fun node => !kahn.seen node

/-- Moves the nodes that one feeds past it. -/
def feed (edges : List (Edge count)) (level : Fin count → ℤ) (node : Fin count) : Fin count → ℤ :=
  (outgoing edges node).foldl
    (fun level next => Function.update level next (max (level next) (level node + 1))) level

/-- A source sits right before the first column that reads it. -/
def pull (edges : List (Edge count)) (level : Fin count → ℤ) (node : Fin count) : Fin count → ℤ :=
  if incoming edges node ≠ [] then level
  else
    match ((outgoing edges node).map level).min? with
    | none => level
    | some nearest => Function.update level node (nearest - 1)

/-- The level of each node, by the longest path to it. -/
def levels (edges : List (Edge count)) (center : Option (Fin count)) : Fin count → ℤ :=
  let order := topological edges
  let level := order.reverse.foldl (pull edges) (order.foldl (feed edges) fun _ => 0)
  let shift := match center with
    | none => (((List.finRange count).map level).min?).getD 0
    | some center => level center
  fun node => level node - shift

/-- The columns, and where each node is in its own. -/
structure Columns (count : Nat) where
  columns : List (List (Fin count))
  position : Fin count → ℚ

namespace Columns

def placeColumn (position : Fin count → ℚ) (column : List (Fin count)) : Fin count → ℚ :=
  column.zipIdx.foldl (fun position (node, row) => Function.update position node row) position

def new (level : Fin count → ℤ) : Columns count :=
  let nodes := List.finRange count
  let min_level := ((nodes.map level).min?).getD 0
  let max_level := ((nodes.map level).max?).getD 0
  let columns := (List.range (max_level - min_level + 1).toNat).map fun index =>
    nodes.filter fun node => (level node - min_level).toNat = index
  ⟨columns, columns.foldl placeColumn fun _ => 0⟩

/-- The mean position of the neighbours of a node, or its own. -/
def key (position : Fin count → ℚ) (neighbours : Fin count → List (Fin count)) (node : Fin count) : ℚ :=
  let around := neighbours node
  if around = [] then position node else (around.map position).sum / around.length

def reorder (neighbours : Fin count → List (Fin count)) (columns : Columns count) (index : Nat) : Columns count :=
  let position := columns.position
  let keyed := (columns.columns.getD index []).map fun node => (key position neighbours node, node)
  let sorted := keyed.mergeSort fun a b => a.1 < b.1 ∨ a.1 = b.1 ∧ position a.2 ≤ position b.2
  let column := sorted.map Prod.snd
  ⟨columns.columns.set index column, placeColumn position column⟩

def sweep (edges : List (Edge count)) (columns : Columns count) (sweep : Nat) : Columns count :=
  let rightward := sweep % 2 = 0
  let indices := if rightward then List.range' 1 (columns.columns.length - 1)
    else (List.range (columns.columns.length - 1)).reverse
  indices.foldl (reorder (if rightward then incoming edges else outgoing edges)) columns

end Columns

section

variable (size : Fin count → ℚ × ℚ) (spacing : Spacing) (level : Fin count → ℤ)

def column_height (column : List (Fin count)) : ℚ :=
  (column.map fun node => (size node).2).sum + spacing.row_gap * (column.length - 1 : Nat)

def column_width (column : List (Fin count)) : ℚ :=
  (column.map fun node => (size node).1).foldl max 0

def placeNodes (x : ℚ) : ℚ → List (Fin count) → (Fin count → Placed) → Fin count → Placed
  | _, [], nodes => nodes
  | y, node :: column, nodes =>
    placeNodes x (y + ((size node).2 + spacing.row_gap)) column (Function.update nodes node ⟨x, y, level node⟩)

/-- Places the columns from the left, each centered on the tallest. -/
def placeColumns (tallest : ℚ) : ℚ → List (List (Fin count)) → (Fin count → Placed) → ℚ × (Fin count → Placed)
  | x, [], nodes => (x, nodes)
  | x, column :: columns, nodes =>
    let y := spacing.padding + (tallest - column_height size spacing column) / 2
    placeColumns tallest (x + (column_width size column + spacing.column_gap)) columns
      (placeNodes size spacing level x y column nodes)

end

/-- The edges that the layering follows. -/
def forward (sizes : List (ℚ × ℚ)) (edges : List (Nat × Nat)) (center : Option (Fin sizes.length)) :
    List (Edge sizes.length) :=
  acyclic (links sizes.length edges) center

/-- The columns once they are ordered to keep crossings few. -/
def arranged (edges : List (Edge count)) (level : Fin count → ℤ) : List (List (Fin count)) :=
  ((List.range 4).foldl (Columns.sweep edges) (Columns.new level)).columns

/-- Places nodes of the given sizes, with the center in column 0. -/
def layered (sizes : List (ℚ × ℚ)) (edges : List (Nat × Nat)) (center : Option (Fin sizes.length))
    (spacing : Spacing) : Placement sizes.length :=
  if sizes.length = 0 then ⟨fun _ => ⟨0, 0, 0⟩, 2 * spacing.padding, 2 * spacing.padding⟩
  else
    let forward := forward sizes edges center
    let level := levels forward center
    let columns := arranged forward level
    let tallest := (columns.map (column_height sizes.get spacing)).foldl max 0
    let (x, nodes) := placeColumns sizes.get spacing level tallest spacing.padding columns fun _ => ⟨0, 0, 0⟩
    ⟨nodes, x - spacing.column_gap + spacing.padding, tallest + 2 * spacing.padding⟩

end zed.dbt_ui.graph_layout
