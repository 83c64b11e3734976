import Zed.Clock.Global
import Zed.SumTree.Tree.Append
import Zed.Text.Fragment

namespace zed.text

open zed.clock zed.sum_tree

/-- Sums of fragment summaries can be cut anywhere, though the last locator wins and a meet takes an
    unobserved replica from the other side. -/
instance : SummaryMonoid FragmentSummary where
  zero := FragmentSummary.zero
  add_summary := FragmentSummary.add_summary
  zero_add_summary summary := by
    simp only [FragmentSummary.add_summary, FragmentSummary.zero, Global.new_join, Global.new_meet, Nat.zero_add]
  add_summary_assoc first second third := by
    simp only [FragmentSummary.add_summary, Global.join_assoc, Global.meet_assoc, Nat.add_assoc]

instance : Item Fragment FragmentSummary where
  summary := Fragment.summary

abbrev FragmentTree := SumTree Fragment FragmentSummary

/-- A chunk of fragments accumulated by a builder: a subtree sliced off the previous fragment tree,
    or a batch of fragments pushed one by one. -/
inductive FragmentChunk
  | Tree (subtree : FragmentTree)
  | Loose (fragments : List Fragment)

def FragmentChunk.items : FragmentChunk → List Fragment
  | .Tree subtree => subtree.items
  | .Loose fragments => fragments

structure FragmentBuilder where
  chunks : List FragmentChunk
  summary : FragmentSummary

namespace FragmentBuilder

def new (init : FragmentTree) : FragmentBuilder :=
  { chunks := if init.is_empty then [] else [.Tree init]
    summary := init.summary }

def append (builder : FragmentBuilder) (items : FragmentTree) : FragmentBuilder :=
  if !items.is_empty then
    { chunks := builder.chunks ++ [.Tree items]
      summary := builder.summary.add_summary items.summary }
  else builder

def push (builder : FragmentBuilder) (fragment : Fragment) : FragmentBuilder :=
  { chunks :=
      match builder.chunks.getLast? with
      | some (.Loose fragments) => builder.chunks.dropLast ++ [.Loose (fragments ++ [fragment])]
      | _ => builder.chunks ++ [.Loose [fragment]]
    summary := builder.summary.add_summary fragment.summary }

/-- A chunk appended to the tree, a long loose run through the parallel constructor. -/
def append_chunk (tree : FragmentTree) : FragmentChunk → FragmentTree
  | .Tree subtree => tree.append subtree
  | .Loose fragments =>
    if fragments.length > 1024 then tree.append (SumTree.from_par_iter fragments)
    else tree.append (SumTree.from_iter fragments)

def to_sum_tree (builder : FragmentBuilder) : FragmentTree := builder.chunks.foldl append_chunk SumTree.new

/-- What the editing code does to a builder. -/
inductive Call
  | append (items : FragmentTree)
  | push (fragment : Fragment)

def call (builder : FragmentBuilder) : Call → FragmentBuilder
  | .append items => builder.append items
  | .push fragment => builder.push fragment

def Call.items : Call → List Fragment
  | .append items => items.items
  | .push fragment => [fragment]

/-- What a builder has accumulated. -/
def items (builder : FragmentBuilder) : List Fragment := builder.chunks.flatMap FragmentChunk.items

/-- The summary is that of the fragments, and no subtree is empty. -/
structure Summed (builder : FragmentBuilder) : Prop where
  summary : builder.summary = Node.itemsSum builder.items
  chunks : ∀ subtree, FragmentChunk.Tree subtree ∈ builder.chunks → ¬ subtree.is_empty

theorem append_items (builder : FragmentBuilder) (tree : FragmentTree) :
    (builder.append tree).items = builder.items ++ tree.items := by
  unfold append
  split
  · simp [items, FragmentChunk.items]
  · rename_i hempty
    rw [tree.is_empty_iff.mp (by simpa using hempty), List.append_nil]

theorem push_items (builder : FragmentBuilder) (fragment : Fragment) :
    (builder.push fragment).items = builder.items ++ [fragment] := by
  unfold push items
  split
  · rename_i fragments hlast
    obtain ⟨init, hinit⟩ := List.getLast?_eq_some_iff.mp hlast
    rw [hinit, List.dropLast_concat]
    simp [FragmentChunk.items]
  · simp [FragmentChunk.items]

theorem new_summed {init : FragmentTree} (hinit : init.is_empty → init.summary = FragmentSummary.zero) :
    Summed (new init) ∧ (new init).items = init.items := by
  have hsum := init.summary_eq hinit
  by_cases hempty : init.is_empty
  · have hnone := init.is_empty_iff.mp hempty
    have hitems : (new init).items = init.items := by simp [items, new, hempty, hnone]
    exact ⟨⟨by rw [hitems]; exact hsum, by simp [new, hempty]⟩, hitems⟩
  · have hitems : (new init).items = init.items := by simp [items, new, hempty, FragmentChunk.items]
    exact ⟨⟨by rw [hitems]; exact hsum, by simp [new, hempty]⟩, hitems⟩

theorem Summed.append {builder : FragmentBuilder} (h : Summed builder) (tree : FragmentTree) :
    Summed (builder.append tree) := by
  by_cases hempty : tree.is_empty
  · simpa [FragmentBuilder.append, hempty] using h
  · have hne : tree.items ≠ [] := fun hnil => hempty (tree.is_empty_iff.mpr hnil)
    have hsum := tree.summary_eq fun hnot => absurd hnot hempty
    refine ⟨?_, ?_⟩
    · rw [append_items, Node.itemsSum_append _ hne, ← h.summary, ← hsum]
      simp [FragmentBuilder.append, hempty, Summary.add_summary]
    · intro subtree hmem
      simp only [FragmentBuilder.append, hempty, Bool.not_false, if_true, List.mem_append, List.mem_singleton,
        FragmentChunk.Tree.injEq] at hmem
      rcases hmem with hmem | rfl
      · exact h.chunks subtree hmem
      · exact hempty

theorem Summed.push {builder : FragmentBuilder} (h : Summed builder) (fragment : Fragment) :
    Summed (builder.push fragment) := by
  refine ⟨?_, ?_⟩
  · have hone : Node.itemsSum [fragment] = fragment.summary := SummaryMonoid.zero_add_summary fragment.summary
    rw [push_items, Node.itemsSum_append _ (List.cons_ne_nil _ _), ← h.summary, hone]
    rfl
  · intro subtree hmem
    refine h.chunks subtree ?_
    unfold FragmentBuilder.push at hmem
    simp only at hmem
    split at hmem
    · rcases List.mem_append.mp hmem with hmem | hmem
      · exact List.dropLast_subset _ hmem
      · simp at hmem
    · simpa using hmem

theorem Summed.run {builder : FragmentBuilder} (h : Summed builder) (calls : List Call) :
    Summed (calls.foldl call builder) ∧ (calls.foldl call builder).items = builder.items ++ calls.flatMap Call.items := by
  induction calls generalizing builder with
  | nil => exact ⟨h, (List.append_nil _).symm⟩
  | cons first calls ih =>
    have hstep : Summed (builder.call first) ∧ (builder.call first).items = builder.items ++ first.items := by
      cases first with
      | append tree => exact ⟨h.append tree, builder.append_items tree⟩
      | push fragment => exact ⟨h.push fragment, builder.push_items fragment⟩
    obtain ⟨hsummed, hitems⟩ := ih hstep.1
    exact ⟨hsummed, by rw [List.foldl_cons, hitems, hstep.2, List.append_assoc, List.flatMap_cons]⟩

/-- A tree without items has the zero summary: it was not made from another one. -/
def Zeroed (tree : FragmentTree) : Prop := tree.is_empty → tree.summary = FragmentSummary.zero

theorem Zeroed.append (tree : FragmentTree) {other : FragmentTree} (hother : Zeroed other) :
    Zeroed (tree.append other) := by
  intro hempty
  have hitems : tree.items ++ other.items = [] := by
    rw [← SumTree.append_items]
    exact (SumTree.is_empty_iff _).mp hempty
  obtain ⟨hnone, hnoneOther⟩ := List.append_eq_nil_iff.mp hitems
  have hsame : (tree.append other).summary = other.summary :=
    congrArg Node.summary (if_pos (tree.is_empty_iff.mpr hnone))
  rw [hsame]
  exact hother (other.is_empty_iff.mpr hnoneOther)

theorem from_iter_zeroed (fragments : List Fragment) : Zeroed (SumTree.from_iter fragments) := by
  intro hempty
  rcases (Node.from_iter_spec fragments).2 with hnew | ⟨height, hvalid⟩
  · exact congrArg Node.summary hnew
  · exact absurd ((SumTree.is_empty_iff _).mp hempty) hvalid.elements_ne_nil

theorem from_par_iter_eq (fragments : List Fragment) :
    SumTree.from_par_iter fragments = SumTree.from_iter fragments := by
  rw [SumTree.from_par_iter, SumTree.from_iter]
  simp only [Node.from_par_iter_eq]

theorem append_chunks_spec {chunks : List FragmentChunk} {tree : FragmentTree} (htree : Zeroed tree)
    (hchunks : ∀ subtree, FragmentChunk.Tree subtree ∈ chunks → ¬ subtree.is_empty) :
    Zeroed (chunks.foldl append_chunk tree) ∧
      (chunks.foldl append_chunk tree).items = tree.items ++ chunks.flatMap FragmentChunk.items := by
  induction chunks generalizing tree with
  | nil => exact ⟨htree, (List.append_nil _).symm⟩
  | cons chunk chunks ih =>
    have hstep : Zeroed (append_chunk tree chunk) ∧ (append_chunk tree chunk).items = tree.items ++ chunk.items := by
      cases chunk with
      | Tree subtree =>
        have hfull := hchunks subtree List.mem_cons_self
        exact ⟨Zeroed.append tree fun hempty => absurd hempty hfull, SumTree.append_items _ _⟩
      | Loose fragments =>
        have hitems : (SumTree.from_iter fragments).items = fragments := (Node.from_iter_spec fragments).1
        rw [append_chunk, from_par_iter_eq, ite_self, SumTree.append_items, hitems]
        exact ⟨Zeroed.append tree (from_iter_zeroed fragments), rfl⟩
    obtain ⟨hzeroed, hitems⟩ := ih hstep.1 fun subtree hmem => hchunks subtree (List.mem_cons_of_mem _ hmem)
    exact ⟨hzeroed, by rw [List.foldl_cons, hitems, hstep.2, List.append_assoc, List.flatMap_cons]⟩

theorem Summed.to_sum_tree {builder : FragmentBuilder} (h : Summed builder) :
    builder.to_sum_tree.items = builder.items ∧ builder.to_sum_tree.summary = builder.summary := by
  obtain ⟨hzeroed, hitems⟩ := append_chunks_spec (show Zeroed SumTree.new from fun _ => rfl) h.chunks
  have hsum : builder.to_sum_tree.summary = Node.itemsSum builder.to_sum_tree.items := SumTree.summary_eq _ hzeroed
  have hall : builder.to_sum_tree.items = builder.items := hitems
  exact ⟨hall, by rw [hsum, hall, h.summary]⟩

/-- The parallel constructor builds the tree of the sequential one, whatever is summed; and the tree
    of a builder, which picks one of them for each loose run, holds what went into the builder and
    has the summary that the builder kept. -/
theorem constructors_agree (init : FragmentTree) (hinit : init.is_empty → init.summary = FragmentSummary.zero)
    (calls : List Call) :
    (∀ (T S : Type) [SummaryMonoid S] [Item T S] (items : List T),
        SumTree.from_par_iter items = SumTree.from_iter items ∧ (SumTree.from_iter items).items = items) ∧
      (calls.foldl call (new init)).to_sum_tree.items = init.items ++ calls.flatMap Call.items ∧
      (calls.foldl call (new init)).to_sum_tree.summary = (calls.foldl call (new init)).summary := by
  obtain ⟨hsummed, hitems⟩ := new_summed hinit
  obtain ⟨hrun, hall⟩ := hsummed.run calls
  obtain ⟨htree, hsummary⟩ := hrun.to_sum_tree
  refine ⟨fun T S _ _ items => ⟨?_, (Node.from_iter_spec items).1⟩, by rw [htree, hall, hitems], hsummary⟩
  rw [SumTree.from_par_iter, SumTree.from_iter]
  simp only [Node.from_par_iter_eq]

/-- A slice without fragments, one pushed and the tree of another appended. -/
theorem constructors_agree_sample :
    let first : Fragment := ⟨⟨[1]⟩, ⟨1, 0⟩, 0, 3, true, [], Global.new⟩
    let second : Fragment := ⟨⟨[2]⟩, ⟨2, 1⟩, 0, 2, false, [⟨3, 0⟩], Global.new⟩
    let builder := [Call.push first, .append (SumTree.from_iter [second])].foldl call (new SumTree.new)
    builder.to_sum_tree.items = [first, second] ∧ builder.to_sum_tree.summary = builder.summary := by
  intro first second builder
  obtain ⟨hbuild, hitems, hsummary⟩ := constructors_agree SumTree.new (fun _ => rfl)
    [.push first, .append (SumTree.from_iter [second])]
  refine ⟨hitems.trans ?_, hsummary⟩
  have hsecond := (hbuild Fragment FragmentSummary [second]).2
  change [first] ++ ((SumTree.from_iter [second]).items ++ []) = [first, second]
  rw [hsecond]
  rfl

end FragmentBuilder

end zed.text
