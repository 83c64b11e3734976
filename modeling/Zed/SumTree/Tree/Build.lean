import Zed.SumTree.Tree

namespace zed.sum_tree

/-- `chunks` of a parallel iterator: runs of `n + 1` elements, the last one maybe shorter. -/
def chunks {α : Type} (n : Nat) (elements : List α) : List (List α) :=
  if elements.isEmpty then [] else elements.take (n + 1) :: chunks n (elements.drop (n + 1))
termination_by elements.length
decreasing_by
  cases elements with
  | nil => contradiction
  | cons element elements => rw [List.length_drop, List.length_cons]; omega

section Chunks

variable {α : Type} {n : Nat}

@[simp] theorem chunks_nil : chunks n ([] : List α) = [] := by rw [chunks]; rfl

theorem chunks_of_ne_nil {elements : List α} (h : elements ≠ []) :
    chunks n elements = elements.take (n + 1) :: chunks n (elements.drop (n + 1)) := by
  rw [chunks, if_neg (by simpa using h)]

theorem chunks_append {chunk : List α} (hchunk : chunk.length = n + 1) (elements : List α) :
    chunks n (chunk ++ elements) = chunk :: chunks n elements := by
  have hne : chunk ++ elements ≠ [] := by
    rintro hnil
    rw [(List.append_eq_nil_iff.mp hnil).1] at hchunk
    cases hchunk
  rw [chunks_of_ne_nil hne, ← hchunk, List.take_left, List.drop_left]

theorem chunks_short {elements : List α} (hne : elements ≠ []) (hlength : elements.length ≤ n + 1) :
    chunks n elements = [elements] := by
  rw [chunks_of_ne_nil hne, List.take_of_length_le hlength, List.drop_eq_nil_of_le hlength, chunks_nil]

theorem chunks_flatten (elements : List α) : (chunks n elements).flatten = elements := by
  fun_induction chunks n elements with
  | case1 elements hempty => exact (List.isEmpty_iff.mp hempty).symm
  | case2 elements hempty ih => rw [List.flatten_cons, ih, List.take_append_drop]

theorem mem_chunks {elements chunk : List α} (h : chunk ∈ chunks n elements) :
    chunk ≠ [] ∧ chunk.length ≤ n + 1 ∧ ∀ element ∈ chunk, element ∈ elements := by
  fun_induction chunks n elements with
  | case1 => cases h
  | case2 elements hempty ih =>
    rcases List.mem_cons.mp h with rfl | hmem
    · refine ⟨?_, List.length_take_le _ _, fun element helement => List.mem_of_mem_take helement⟩
      simpa [List.take_eq_nil_iff] using hempty
    · obtain ⟨hne, hlength, hall⟩ := ih hmem
      exact ⟨hne, hlength, fun element helement => List.mem_of_mem_drop (hall element helement)⟩

theorem length_chunks (elements : List α) : (n + 1) * (chunks n elements).length ≤ elements.length + n := by
  fun_induction chunks n elements with
  | case1 elements hempty => simp
  | case2 elements hempty ih =>
    have hpos := List.length_pos_of_ne_nil (fun hnil => hempty (List.isEmpty_iff.mpr hnil))
    rw [List.length_cons, Nat.mul_succ]
    rw [List.length_drop] at ih
    rcases Nat.le_total elements.length (n + 1) with hle | hle
    · rw [Nat.sub_eq_zero_of_le hle, Nat.zero_add] at ih
      have hnone : (chunks n (elements.drop (n + 1))).length = 0 := by
        rw [List.drop_eq_nil_of_le hle, chunks_nil, List.length_nil]
      rw [hnone]
      omega
    · omega

end Chunks

variable {T S : Type} [Summary S]

/-- The first summary and the rest added to it; the source panics when there is none. -/
def sum_from_first : List S → S
  | [] => Summary.zero
  | first :: rest => rest.foldl Summary.add_summary first

namespace Node

def new : Node T S := .Leaf Summary.zero [] []

def push_child (parent child : Node T S) : Node T S :=
  match parent with
  | .Internal height summary child_summaries child_trees =>
    .Internal height (Summary.add_summary summary child.summary) (child_summaries ++ [child.summary])
      (child_trees ++ [child])
  | .Leaf .. => parent

/-- Adds a child to the current parent, which joins the others when it is full. -/
def parents_step (height : Nat) (parents : List (Node T S) × Option (Node T S)) (child : Node T S) :
    List (Node T S) × Option (Node T S) :=
  let (parent_nodes, current_parent_node) := parents
  let parent_node := (current_parent_node.getD (.Internal height Summary.zero [] [])).push_child child
  if parent_node.child_trees.length = 2 * TREE_BASE then (parent_nodes ++ [parent_node], none)
  else (parent_nodes, some parent_node)

/-- One round of the second loop of `from_iter`: the parents of a level. -/
def parents (height : Nat) (nodes : List (Node T S)) : List (Node T S) :=
  let (parent_nodes, current_parent_node) := nodes.foldl (parents_step height) ([], none)
  parent_nodes ++ current_parent_node.toList

/-- The parent that has children, as the loop leaves it. -/
def parent_of (height : Nat) (child_trees : List (Node T S)) : Node T S :=
  .Internal height (sum (child_trees.map summary)) (child_trees.map summary) child_trees

theorem push_child_parent_of (height : Nat) (child_trees : List (Node T S)) (child : Node T S) :
    (parent_of height child_trees).push_child child = parent_of height (child_trees ++ [child]) := by
  simp [parent_of, push_child, sum]

theorem foldl_parents_step (height : Nat) (nodes : List (Node T S)) (parent_nodes children : List (Node T S))
    (current : Option (Node T S)) (hcurrent : current.getD (.Internal height Summary.zero [] []) = parent_of height children)
    (hnone : current = none ↔ children = []) (hchildren : children.length < 2 * TREE_BASE) :
    (nodes.foldl (parents_step height) (parent_nodes, current)).1 ++
        (nodes.foldl (parents_step height) (parent_nodes, current)).2.toList =
      parent_nodes ++ (chunks (2 * TREE_BASE - 1) (children ++ nodes)).map (parent_of height) := by
  induction nodes generalizing parent_nodes children current with
  | nil =>
    rw [List.append_nil]
    cases current with
    | none => simp [hnone.mp rfl]
    | some parent =>
      have hne : children ≠ [] := fun hnil => by cases hnone.mpr hnil
      obtain rfl : parent = parent_of height children := hcurrent
      rw [chunks_short hne (by simp only [TREE_BASE] at *; omega)]
      rfl
  | cons child nodes ih =>
    have hstep : parents_step height (parent_nodes, current) child =
        if (children ++ [child]).length = 2 * TREE_BASE then
          (parent_nodes ++ [parent_of height (children ++ [child])], none)
        else (parent_nodes, some (parent_of height (children ++ [child]))) := by
      simp only [parents_step, hcurrent, push_child_parent_of]
      rfl
    rw [List.foldl_cons, hstep, List.append_cons children child nodes]
    split
    · rename_i hfull
      have hwhole := chunks_append (show (children ++ [child]).length = 2 * TREE_BASE - 1 + 1 from hfull) nodes
      rw [ih _ [] none rfl (by simp) (Nat.succ_pos _), hwhole, List.nil_append, List.map_cons,
        List.append_assoc, List.singleton_append]
    · rename_i hroom
      rw [List.length_append, List.length_singleton] at hroom
      exact ih parent_nodes (children ++ [child]) _ rfl (by simp) (by
        rw [List.length_append, List.length_singleton]
        omega)

theorem parents_eq (height : Nat) (nodes : List (Node T S)) :
    parents height nodes = (chunks (2 * TREE_BASE - 1) nodes).map (parent_of height) :=
  foldl_parents_step height nodes [] [] none rfl (by simp) (Nat.succ_pos _)

theorem parents_elements (height : Nat) (nodes : List (Node T S)) :
    (parents height nodes).flatMap elements = nodes.flatMap elements := by
  have hparent : ∀ chunk : List (Node T S), (parent_of height chunk).elements = chunk.flatMap elements :=
    fun chunk => elements_internal _ _ _ chunk
  calc (parents height nodes).flatMap elements
      = (chunks (2 * TREE_BASE - 1) nodes).flatMap fun chunk => chunk.flatMap elements := by
        rw [parents_eq, List.flatMap_map]
        simp only [hparent]
    _ = ((chunks (2 * TREE_BASE - 1) nodes).flatMap id).flatMap elements := List.flatMap_assoc.symm
    _ = nodes.flatMap elements := by rw [List.flatMap_id, chunks_flatten]

theorem length_parents_lt {height : Nat} {nodes : List (Node T S)} (h : 1 < nodes.length) :
    (parents height nodes).length < nodes.length := by
  have hlength := length_chunks (n := 2 * TREE_BASE - 1) nodes
  rw [parents_eq, List.length_map]
  simp only [TREE_BASE] at *
  omega

/-- The second loop of `from_iter`, up to one node. -/
def raise (height : Nat) (nodes : List (Node T S)) : List (Node T S) :=
  if 1 < nodes.length then raise (height + 1) (parents (height + 1) nodes) else nodes
termination_by nodes.length
decreasing_by exact length_parents_lt ‹_›

/-- One round of the loop of `from_par_iter`. -/
def par_parents (height : Nat) (nodes : List (Node T S)) : List (Node T S) :=
  (chunks (2 * TREE_BASE - 1) nodes).map fun child_trees =>
    .Internal height (sum_from_first (child_trees.map summary)) (child_trees.map summary) child_trees

/-- The loop of `from_par_iter`, up to one node. -/
def par_raise (height : Nat) (nodes : List (Node T S)) : List (Node T S) :=
  if 1 < nodes.length then par_raise (height + 1) (par_parents (height + 1) nodes) else nodes
termination_by nodes.length
decreasing_by
  rename_i h
  have hlength := length_chunks (n := 2 * TREE_BASE - 1) nodes
  rw [par_parents, List.length_map]
  simp only [TREE_BASE] at *
  omega

variable [Item T S]

/-- The leaf that both constructors make of a run of items. -/
def leaf_of (items : List T) : Node T S :=
  .Leaf (sum_from_first (items.map Item.summary)) items (items.map Item.summary)

/-- The first loop of `from_iter`: the leaves. -/
def leaves (items : List T) : List (Node T S) :=
  if items.isEmpty then [] else leaf_of (items.take (2 * TREE_BASE)) :: leaves (items.drop (2 * TREE_BASE))
termination_by items.length
decreasing_by
  cases items with
  | nil => contradiction
  | cons item items => rw [List.length_drop, List.length_cons, TREE_BASE]; omega

def from_iter (items : List T) : Node T S := (raise 0 (leaves items)).getLast?.getD new

def from_par_iter (items : List T) : Node T S :=
  (par_raise 0 ((chunks (2 * TREE_BASE - 1) items).map leaf_of)).getLast?.getD new

theorem leaves_eq (items : List T) :
    leaves items = (chunks (2 * TREE_BASE - 1) items).map leaf_of := by
  fun_induction leaves items with
  | case1 items hempty => rw [List.isEmpty_iff.mp hempty, chunks_nil, List.map_nil]
  | case2 items hempty ih =>
    rw [chunks_of_ne_nil (by simpa using hempty), List.map_cons, ih]
    rfl

theorem leaves_elements (items : List T) : (leaves items).flatMap elements = items := by
  have hleaf : (fun chunk : List T => (leaf_of chunk).elements) = id := rfl
  rw [leaves_eq, List.flatMap_map, hleaf, List.flatMap_id, chunks_flatten]

theorem parents_valid {height : Nat} {nodes : List (Node T S)}
    (hvalid : ∀ node ∈ nodes, Valid height node) {parent : Node T S} (h : parent ∈ parents (height + 1) nodes) :
    Valid (height + 1) parent := by
  rw [parents_eq] at h
  obtain ⟨chunk, hchunk, rfl⟩ := List.mem_map.mp h
  obtain ⟨hne, hlength, hmem⟩ := mem_chunks hchunk
  exact .internal hne hlength fun child hchild => hvalid child (hmem child hchild)

theorem raise_spec {height : Nat} {nodes : List (Node T S)}
    (hvalid : ∀ node ∈ nodes, Valid height node) :
    (raise height nodes).length ≤ 1 ∧ (raise height nodes).flatMap elements = nodes.flatMap elements ∧
      ∃ height', ∀ root ∈ raise height nodes, Valid height' root := by
  fun_induction raise height nodes with
  | case1 height nodes hmore ih =>
    obtain ⟨hlength, helements, hroot⟩ := ih fun parent => parents_valid hvalid
    exact ⟨hlength, helements.trans (parents_elements _ _), hroot⟩
  | case2 height nodes hone => exact ⟨Nat.not_lt.mp hone, rfl, height, hvalid⟩

end Node

section SummaryMonoid

variable {T S : Type} [SummaryMonoid S]

theorem sum_from_first_eq (summaries : List S) : sum_from_first summaries = sum summaries := by
  cases summaries with
  | nil => rfl
  | cons first rest => rw [sum, List.foldl_cons, SummaryMonoid.zero_add_summary, sum_from_first]

namespace Node

theorem par_parents_eq (height : Nat) (nodes : List (Node T S)) : par_parents height nodes = parents height nodes := by
  rw [parents_eq, par_parents]
  refine List.map_congr_left fun child_trees _ => ?_
  rw [sum_from_first_eq, parent_of]

theorem par_raise_eq (height : Nat) (nodes : List (Node T S)) : par_raise height nodes = raise height nodes := by
  fun_induction raise height nodes with
  | case1 height nodes hmore ih => rw [par_raise, if_pos hmore, par_parents_eq, ih]
  | case2 height nodes hone => rw [par_raise, if_neg hone]

variable [Item T S]

theorem from_par_iter_eq (items : List T) : from_par_iter items = from_iter items := by
  rw [from_par_iter, from_iter, par_raise_eq, leaves_eq]

theorem leaf_of_valid {items : List T} (hne : items ≠ []) (hlength : items.length ≤ 2 * TREE_BASE) :
    Valid 0 (leaf_of items) := by
  rw [leaf_of, sum_from_first_eq]
  exact .leaf hne hlength

theorem leaves_valid {items : List T} {leaf : Node T S} (h : leaf ∈ leaves items) : Valid 0 leaf := by
  rw [leaves_eq] at h
  obtain ⟨chunk, hchunk, rfl⟩ := List.mem_map.mp h
  obtain ⟨hne, hlength, -⟩ := mem_chunks hchunk
  exact leaf_of_valid hne hlength

theorem from_iter_spec (items : List T) :
    (from_iter items).elements = items ∧ (from_iter items = new ∨ ∃ height, Valid height (from_iter items)) := by
  obtain ⟨hlength, helements, height, hroot⟩ := raise_spec fun leaf => @leaves_valid _ _ _ _ items leaf
  rw [leaves_elements] at helements
  rw [from_iter]
  cases hnodes : raise 0 (leaves items) with
  | nil =>
    rw [hnodes] at helements
    exact ⟨helements, Or.inl rfl⟩
  | cons root rest =>
    rw [hnodes] at hlength helements hroot
    obtain rfl : rest = [] := List.eq_nil_of_length_eq_zero (by simpa using hlength)
    rw [List.flatMap_singleton] at helements
    exact ⟨helements, Or.inr ⟨height, hroot root List.mem_cons_self⟩⟩

end Node

namespace SumTree

variable [Item T S]

def new : SumTree T S := ⟨Node.new, Or.inl ⟨_, rfl⟩⟩

def from_iter (items : List T) : SumTree T S :=
  ⟨Node.from_iter items, (Node.from_iter_spec items).2.imp_left fun hnew => ⟨_, hnew⟩⟩

def from_par_iter (items : List T) : SumTree T S :=
  ⟨Node.from_par_iter items, by
    rw [Node.from_par_iter_eq]
    exact (from_iter items).valid⟩

end SumTree

end SummaryMonoid

end zed.sum_tree
