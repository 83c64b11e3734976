import Zed.Worktree.Traversal.Offsets

namespace zed.worktree

open zed.path (RelPath)
open zed.sum_tree (Bias Dimension SumTree Seeker Sorted seek_while_of_last Downward)
open zed.sum_tree.Seeker (progress goes_past Located)

def is_child (parent_path : RelPath) (entry : Entry) : Bool :=
  entry.path.components ≠ [] ∧ entry.path.components.dropLast = parent_path.components

def is_below (parent_path : RelPath) (entry : Entry) : Bool :=
  entry.path.starts_with parent_path && decide (entry.path ≠ parent_path)

/-- Every entry but the root has its parent among the entries. -/
def ClosedUnderParents (entries : List Entry) : Prop :=
  ∀ entry ∈ entries, entry.path.components ≠ [] →
    ∃ parent ∈ entries, parent.path.components = entry.path.components.dropLast

theorem is_child_iff {parent_path : RelPath} {entry : Entry} :
    is_child parent_path entry = true ↔ ∃ name, entry.path.components = parent_path.components ++ [name] := by
  rw [is_child, decide_eq_true_eq]
  constructor
  · rintro ⟨hne, hparent⟩
    exact ⟨entry.path.components.getLast hne, by rw [← hparent, List.dropLast_append_getLast]⟩
  · rintro ⟨name, hname⟩
    rw [hname]
    exact ⟨by simp, by simp⟩

theorem is_child_starts_with {parent_path : RelPath} {entry : Entry} (h : is_child parent_path entry = true) :
    entry.path.starts_with parent_path = true ∧ entry.path ≠ parent_path := by
  obtain ⟨name, hname⟩ := is_child_iff.mp h
  refine ⟨RelPath.starts_with_iff.mpr ⟨[name], hname.symm⟩, ?_⟩
  intro hsame
  rw [hsame] at hname
  simpa using congrArg List.length hname

theorem eq_of_children {parent_path : RelPath} {entry other : Entry} (hentry : is_child parent_path entry = true)
    (hother : is_child parent_path other = true) (h : other.path.starts_with entry.path = true) :
    other.path = entry.path := by
  obtain ⟨name, hname⟩ := is_child_iff.mp hentry
  obtain ⟨name', hname'⟩ := is_child_iff.mp hother
  have hprefix := RelPath.starts_with_iff.mp h
  rw [hname, hname'] at hprefix
  have hlength := hprefix.eq_of_length (by simp)
  exact RelPath.components_injective (by rw [hname, hname', hlength])

theorem starts_with_of_taken {p : RelPath} {entries : List Entry} {entry : Entry}
    (h : entry ∈ entries.takeWhile fun other => other.path.starts_with p) : entry.path.starts_with p = true := by
  have htaken := List.mem_takeWhile_imp h
  exact htaken

theorem dropWhile_starts_with {p : RelPath} {entries : List Entry} (hsorted : Sorted entries)
    (hle : ∀ entry ∈ entries, p ≤ entry.path) :
    ∀ other ∈ entries.dropWhile (fun other => other.path.starts_with p), other.path.starts_with p = false := by
  intro other hother
  rcases hrest : entries.dropWhile (fun other => other.path.starts_with p) with _ | ⟨first, rest⟩
  · rw [hrest] at hother
    cases hother
  have hfirst : first.path.starts_with p = false := by
    have hhead := List.head?_dropWhile_not (fun other : Entry => other.path.starts_with p) entries
    rw [hrest] at hhead
    simpa using hhead
  rw [hrest] at hother
  rcases List.mem_cons.mp hother with rfl | hother
  · exact hfirst
  by_contra hunder
  rw [Bool.not_eq_false] at hunder
  have hsub : (first :: rest).Sublist entries := by
    rw [← hrest]
    exact List.dropWhile_sublist _
  have hlt : first.path < other.path := (List.pairwise_cons.mp (hsorted.sublist hsub)).1 other hother
  rw [RelPath.starts_with_of_between (hle first (hsub.subset List.mem_cons_self)) hlt.le hunder] at hfirst
  cases hfirst

/-- The entries strictly below a path, each with the child that it is in. -/
structure Subtree (parent_path : RelPath) (entries : List Entry) : Prop where
  sorted : Sorted entries
  below : ∀ entry ∈ entries, entry.path.starts_with parent_path = true
  in_child : ∀ entry ∈ entries, ∃ child ∈ entries,
    is_child parent_path child = true ∧ entry.path.starts_with child.path = true

namespace Subtree

variable {parent_path : RelPath} {entry : Entry} {entries : List Entry}

theorem head (h : Subtree parent_path (entry :: entries)) : is_child parent_path entry = true := by
  obtain ⟨child, hmem, hchild, hunder⟩ := h.in_child entry List.mem_cons_self
  rcases List.mem_cons.mp hmem with rfl | hmem
  · exact hchild
  · exact absurd (RelPath.le_of_starts_with hunder) (h.sorted.head_lt hmem).not_ge

theorem skip (h : Subtree parent_path (entry :: entries)) :
    Subtree parent_path (entries.dropWhile fun other => other.path.starts_with entry.path) := by
  have hsub : (entries.dropWhile fun other => other.path.starts_with entry.path).Sublist entries :=
    List.dropWhile_sublist _
  refine ⟨h.sorted.tail.sublist hsub, fun other hother => h.below other (List.mem_cons_of_mem _ (hsub.subset hother)),
    fun other hother => ?_⟩
  obtain ⟨child, hmem, hchild, hunder⟩ := h.in_child other (List.mem_cons_of_mem _ (hsub.subset hother))
  have hnot : other.path.starts_with entry.path = false :=
    dropWhile_starts_with h.sorted.tail (fun later hlater => (h.sorted.head_lt hlater).le) other hother
  rcases List.mem_cons.mp hmem with rfl | hmem
  · rw [hunder] at hnot
    cases hnot
  refine ⟨child, ?_, hchild, hunder⟩
  rw [← List.takeWhile_append_dropWhile (p := fun other : Entry => other.path.starts_with entry.path) (l := entries),
    List.mem_append] at hmem
  refine hmem.resolve_left fun htaken => ?_
  have hsame := eq_of_children h.head hchild (starts_with_of_taken htaken)
  rw [hsame] at hunder
  rw [hunder] at hnot
  cases hnot

theorem children (h : Subtree parent_path (entry :: entries)) :
    (entry :: entries).filter (is_child parent_path) =
      entry :: (entries.dropWhile fun other => other.path.starts_with entry.path).filter (is_child parent_path) := by
  rw [List.filter_cons_of_pos h.head]
  congr 1
  conv_lhs => rw [← List.takeWhile_append_dropWhile (p := fun other : Entry => other.path.starts_with entry.path)
    (l := entries)]
  rw [List.filter_append, List.filter_eq_nil_iff.mpr, List.nil_append]
  intro other hother hchild
  have hsame := eq_of_children h.head hchild (starts_with_of_taken hother)
  have hlt := h.sorted.head_lt ((List.takeWhile_sublist _).subset hother)
  exact absurd hsame hlt.ne'

end Subtree

theorem subtree_of_closed {parent_path : RelPath} {entries : List Entry} (hsorted : Sorted entries)
    (hclosed : ClosedUnderParents entries) :
    Subtree parent_path (entries.filter (is_below parent_path)) := by
  refine ⟨hsorted.sublist List.filter_sublist, fun entry hentry => ?_, fun entry hentry => ?_⟩
  · rw [List.mem_filter, is_below, Bool.and_eq_true] at hentry
    exact hentry.2.1
  -- by induction on how far the entry is below the path
  induction hlength : entry.path.components.length using Nat.strong_induction_on generalizing entry with
  | _ length ih =>
    subst hlength
    by_cases hchild : is_child parent_path entry = true
    · exact ⟨entry, hentry, hchild, RelPath.starts_with_self _⟩
    rw [List.mem_filter, is_below, Bool.and_eq_true, decide_eq_true_eq] at hentry
    obtain ⟨hmem, hunder, hne⟩ := hentry
    obtain ⟨rest, hrest⟩ := RelPath.starts_with_iff.mp hunder
    obtain ⟨init, name, rfl⟩ : ∃ init name, rest = init ++ [name] := by
      refine (List.eq_nil_or_concat' rest).resolve_left ?_
      rintro rfl
      rw [List.append_nil] at hrest
      exact hne (RelPath.components_injective hrest.symm)
    have hcomponents : entry.path.components ≠ [] := by
      rw [← hrest]
      simp
    obtain ⟨above, habove, hparent⟩ := hclosed entry hmem hcomponents
    have hdrop : above.path.components = parent_path.components ++ init := by
      rw [hparent, ← hrest, ← List.append_assoc, List.dropLast_concat]
    have hinit : init ≠ [] := by
      rintro rfl
      exact hchild (is_child_iff.mpr ⟨name, by rw [← hrest]; rfl⟩)
    have habove_ne : above.path ≠ parent_path := by
      intro hsame
      rw [hsame] at hdrop
      exact hinit (List.self_eq_append_right.mp hdrop)
    have habove_under : above.path.starts_with parent_path = true := RelPath.starts_with_iff.mpr ⟨init, hdrop.symm⟩
    obtain ⟨child, hmem_child, hischild, hunder_child⟩ := ih above.path.components.length
      (by
        rw [hparent, List.length_dropLast]
        have hpos := List.length_pos_of_ne_nil hcomponents
        omega)
      above (List.mem_filter.mpr ⟨habove, by simp [is_below, habove_under, habove_ne]⟩) rfl
    refine ⟨child, hmem_child, hischild, RelPath.starts_with_iff.mpr ?_⟩
    have hprefix := RelPath.starts_with_iff.mp hunder_child
    rw [hparent] at hprefix
    exact hprefix.trans (List.dropLast_prefix _)

theorem filter_is_child (parent_path : RelPath) (entries : List Entry) :
    (entries.filter (is_below parent_path)).filter (is_child parent_path) = entries.filter (is_child parent_path) := by
  rw [List.filter_filter]
  refine List.filter_congr fun entry _ => ?_
  cases hchild : is_child parent_path entry with
  | false => rfl
  | true =>
    obtain ⟨hunder, hne⟩ := is_child_starts_with hchild
    simp [is_below, hunder, hne]

/-- After the entries up to a path come those strictly below it, and then none below it. -/
theorem dropWhile_le_eq {parent_path : RelPath} {entries : List Entry} (hsorted : Sorted entries) :
    ∃ outside, (entries.dropWhile fun entry => decide (entry.path ≤ parent_path)) =
        entries.filter (is_below parent_path) ++ outside ∧
      ∀ entry ∈ outside, entry.path.starts_with parent_path = false := by
  induction entries with
  | nil => exact ⟨[], rfl, fun _ hmem => absurd hmem List.not_mem_nil⟩
  | cons entry entries ih =>
    by_cases hle : entry.path ≤ parent_path
    · have hbelow : is_below parent_path entry = false := by
        cases hunder : entry.path.starts_with parent_path with
        | false => simp [is_below, hunder]
        | true => simp [is_below, le_antisymm hle (RelPath.le_of_starts_with hunder)]
      obtain ⟨outside, hdrop, houtside⟩ := ih hsorted.tail
      refine ⟨outside, ?_, houtside⟩
      rw [List.dropWhile_cons_of_pos (by simpa using hle), List.filter_cons_of_neg (by simp [hbelow]), hdrop]
    · have hgt : ∀ other ∈ entry :: entries, parent_path < other.path := by
        intro other hother
        rcases List.mem_cons.mp hother with rfl | hother
        · exact lt_of_not_ge hle
        · exact (lt_of_not_ge hle).trans (hsorted.head_lt hother)
      have houtside := dropWhile_starts_with hsorted fun other hother => (hgt other hother).le
      refine ⟨_, ?_, houtside⟩
      rw [List.dropWhile_cons_of_neg (by simpa using hle)]
      conv_lhs => rw [← List.takeWhile_append_dropWhile (p := fun other : Entry => other.path.starts_with parent_path)
        (l := entry :: entries)]
      congr 1
      conv_rhs => rw [← List.takeWhile_append_dropWhile (p := fun other : Entry => other.path.starts_with parent_path)
        (l := entry :: entries)]
      rw [List.filter_append, List.filter_eq_self.mpr, List.filter_eq_nil_iff.mpr, List.append_nil]
      · intro other hother
        simp [is_below, houtside other hother]
      · intro other hother
        have hne := (hgt other ((List.takeWhile_sublist _).subset hother)).ne'
        simp [is_below, starts_with_of_taken hother, hne]

variable {entries_by_path : SumTree Entry EntrySummary}

theorem seek_successor {cursor : Seeker Entry EntrySummary TraversalProgress} {passed rest : List Entry} {entry : Entry}
    (hsorted : Sorted entries_by_path.items) (hlocated : Located entries_by_path cursor ⟨passed, entry :: rest⟩) :
    ∃ hit cursor' passed', cursor.seek_forward (TraversalTarget.successor entry.path).cmp_progress .Left =
        some (hit, cursor') ∧
      Located entries_by_path cursor' ⟨passed', rest.dropWhile fun other => other.path.starts_with entry.path⟩ := by
  let under (other : Entry) : Bool := other.path.starts_with entry.path
  have hlast : ∀ passed item,
      goes_past (TraversalTarget.successor entry.path).cmp_progress .Left (passed ++ [item]) = under item := by
    intro passed item
    rw [goes_past, TraversalTarget.successor, TraversalTarget.cmp_progress, PathTarget.cmp_path, progress_max_path]
    by_cases hunder : item.path.starts_with entry.path = true
    · simp [hunder, under, Bias.goes_past]
    · simp [hunder, under, Bias.goes_past]
  have hrest : Sorted (entry :: rest) := by
    have hitems := hsorted
    rw [← hlocated.items] at hitems
    exact hitems.sublist (List.sublist_append_right _ _)
  have hdown : (entry :: rest).Pairwise fun a b => under b = true → under a = true := by
    refine hrest.imp_of_mem fun {a b} ha _ hab hb => ?_
    have hle : entry.path ≤ a.path := by
      rcases List.mem_cons.mp ha with rfl | ha
      · exact le_rfl
      · exact (hrest.head_lt ha).le
    exact RelPath.starts_with_of_between hle (le_of_lt hab) hb
  have hahead : (TraversalTarget.successor entry.path).cmp_progress (progress passed) ≠ .lt := by
    rw [TraversalTarget.successor, TraversalTarget.cmp_progress, PathTarget.cmp_path]
    by_cases hunder : (progress passed : TraversalProgress).max_path.starts_with entry.path = true
    · simp [hunder]
    · simp [hunder]
  obtain ⟨hit, cursor', hseek, hlocated'⟩ := hlocated.seek_forward (TraversalTarget.successor entry.path).cmp_progress
    .Left hahead (Downward.of_last hlast passed hdown)
  have hself : under entry = true := RelPath.starts_with_self _
  rw [seek_while_of_last hlast, List.dropWhile_cons_of_pos hself] at hlocated'
  exact ⟨hit, cursor', _, hseek, hlocated'⟩

theorem sibling_loop_spec {parent_path : RelPath} {p : Entry → Bool} {fuel : Nat} {traversal : Traversal}
    {passed rest inside outside : List Entry} (hsorted : Sorted entries_by_path.items)
    (hp : included traversal.include_files traversal.include_dirs traversal.include_ignored = p)
    (hlocated : Located entries_by_path traversal.cursor ⟨passed, rest⟩) (hrest : rest = inside ++ outside)
    (hsubtree : Subtree parent_path inside) (houtside : ∀ entry ∈ outside, entry.path.starts_with parent_path = false)
    (hfuel : rest.length < fuel) :
    ∃ found traversal' passed' inside' outside', Traversal.sibling_loop fuel traversal = some (found, traversal') ∧
      included traversal'.include_files traversal'.include_dirs traversal'.include_ignored = p ∧
      Located entries_by_path traversal'.cursor ⟨passed', inside' ++ outside'⟩ ∧ Subtree parent_path inside' ∧
      (∀ entry ∈ outside', entry.path.starts_with parent_path = false) ∧
      inside'.length ≤ inside.length - 1 ∧ (∀ entry ∈ inside'.head?, p entry = true) ∧
      (inside'.filter (is_child parent_path)).filter p = ((inside.filter (is_child parent_path)).tail).filter p := by
  induction fuel generalizing traversal passed rest inside outside with
  | zero => exact absurd hfuel (Nat.not_lt_zero _)
  | succ fuel ih =>
    subst hrest
    cases hitems : inside ++ outside with
    | nil =>
      obtain ⟨rfl, rfl⟩ := List.append_eq_nil_iff.mp hitems
      refine ⟨false, traversal, passed, [], [], ?_, hp, hlocated, hsubtree, houtside, Nat.zero_le _, ?_, rfl⟩
      · rw [Traversal.sibling_loop, Traversal.entry, hlocated.item]
        rfl
      · exact fun entry hentry => absurd hentry (Option.not_mem_none _)
    | cons entry rest =>
      rw [hitems] at hlocated hfuel
      obtain ⟨hit, cursor, passed', hseek, hlocated'⟩ := seek_successor hsorted hlocated
      -- what is left of the subtree and of the entries after it
      obtain ⟨inside', outside', hleft, hsubtree', houtside', hlength, hchildren⟩ :
          ∃ inside' outside', (rest.dropWhile fun other => other.path.starts_with entry.path) = inside' ++ outside' ∧
            Subtree parent_path inside' ∧ (∀ entry ∈ outside', entry.path.starts_with parent_path = false) ∧
            inside'.length ≤ inside.length - 1 ∧
            inside'.filter (is_child parent_path) = (inside.filter (is_child parent_path)).tail := by
        cases inside with
        | nil =>
          rw [List.nil_append] at hitems
          refine ⟨[], _, rfl, hsubtree, fun other hother => houtside other ?_, le_rfl, rfl⟩
          rw [hitems]
          exact List.mem_cons_of_mem _ ((List.dropWhile_sublist _).subset hother)
        | cons first inside =>
          obtain ⟨rfl, rfl⟩ := List.cons.inj hitems
          have hout : (outside.dropWhile fun other => other.path.starts_with first.path) = outside := by
            cases outside with
            | nil => rfl
            | cons other outside =>
              refine List.dropWhile_cons_of_neg fun hunder => ?_
              have hnot := houtside other List.mem_cons_self
              have hparent := hsubtree.below first List.mem_cons_self
              rw [RelPath.starts_with_iff] at hunder hparent
              rw [RelPath.starts_with_iff.mpr (hparent.trans hunder)] at hnot
              cases hnot
          refine ⟨_, outside, ?_, hsubtree.skip, houtside, ?_, ?_⟩
          · change (inside ++ outside).dropWhile _ = _
            rw [List.dropWhile_append, hout]
            cases hinside : inside.dropWhile fun other => other.path.starts_with first.path with
            | nil => rfl
            | cons => rfl
          · exact List.length_dropWhile_le _ _
          · rw [hsubtree.children, List.tail_cons]
      rw [hleft] at hlocated'
      have hitem : cursor.item = (inside' ++ outside').head? := hlocated'.item
      have hstep : Traversal.sibling_loop (fuel + 1) traversal =
          if (inside' ++ outside').head?.any p then some (true, { traversal with cursor })
          else Traversal.sibling_loop fuel { traversal with cursor } := by
        rw [Traversal.sibling_loop, Traversal.entry, hlocated.item]
        change (traversal.cursor.seek_forward (TraversalTarget.successor entry.path).cmp_progress .Left >>= fun found =>
          if found.2.item.any (included traversal.include_files traversal.include_dirs traversal.include_ignored) then
            some (true, { traversal with cursor := found.2 })
          else Traversal.sibling_loop fuel { traversal with cursor := found.2 }) = _
        rw [hseek]
        change (if cursor.item.any (included traversal.include_files traversal.include_dirs traversal.include_ignored) then
          some (true, { traversal with cursor }) else Traversal.sibling_loop fuel { traversal with cursor }) = _
        rw [hp, hitem]
      by_cases hfound : (inside' ++ outside').head?.any p = true
      · refine ⟨true, { traversal with cursor }, passed', inside', outside', ?_, hp, hlocated', hsubtree', houtside',
          hlength, ?_, by rw [hchildren]⟩
        · rw [hstep, if_pos hfound]
        · intro first hfirst
          cases inside' with
          | nil => cases hfirst
          | cons =>
            cases hfirst
            simpa using hfound
      · have hshort : (inside' ++ outside').length < fuel := by
          rw [← hleft]
          have hle := List.length_dropWhile_le (fun other : Entry => other.path.starts_with entry.path) rest
          rw [List.length_cons] at hfuel
          omega
        obtain ⟨found, traversal', passed'', inside'', outside'', hloop, hp', hlocated'', hsubtree'', houtside'',
          hlength', hhead, hrest⟩ := @ih { traversal with cursor } _ _ _ _ hp hlocated' rfl hsubtree' houtside' hshort
        refine ⟨found, traversal', passed'', inside'', outside'', ?_, hp', hlocated'', hsubtree'', houtside'', by omega,
          hhead, ?_⟩
        · rw [hstep, if_neg hfound, hloop]
        · rw [hrest, hchildren]
          -- the child that was passed over does not pass the filter
          cases inside' with
          | nil =>
            rw [← hchildren]
            rfl
          | cons first inside' =>
            have hnot : p first = false := by simpa using hfound
            rw [← hchildren, hsubtree'.children, List.tail_cons, List.filter_cons_of_neg (by simp [hnot])]

/-- The children of a path from a child on, whether it passes the filter or not, that pass it. -/
def first_and_passing (p : Entry → Bool) : List Entry → List Entry
  | [] => []
  | entry :: entries => entry :: entries.filter p

theorem child_entries_yields {iter : ChildEntriesIter} {p : Entry → Bool} {passed inside outside : List Entry}
    (hsorted : Sorted entries_by_path.items)
    (hp : included iter.traversal.include_files iter.traversal.include_dirs iter.traversal.include_ignored = p)
    (hlocated : Located entries_by_path iter.traversal.cursor ⟨passed, inside ++ outside⟩)
    (hsubtree : Subtree iter.parent_path inside)
    (houtside : ∀ entry ∈ outside, entry.path.starts_with iter.parent_path = false) :
    Yields ChildEntriesIter.next iter (first_and_passing p (inside.filter (is_child iter.parent_path))) := by
  induction hlength : inside.length using Nat.strong_induction_on generalizing iter passed inside outside with
  | _ length ih =>
    subst hlength
    have hitem : iter.traversal.entry = (inside ++ outside).head? := hlocated.item
    cases inside with
    | nil =>
      have hnext : iter.next = some (none, iter) := by
        rw [ChildEntriesIter.next, hitem]
        cases outside with
        | nil => rfl
        | cons entry outside =>
          have hout := houtside entry List.mem_cons_self
          simp [hout]
      exact Yields.nil hnext
    | cons entry inside =>
      have hunder := hsubtree.below entry List.mem_cons_self
      have hfuel : (entry :: inside ++ outside).length < iter.traversal.cursor.tree.elements.length + 1 := by
        have hitems : iter.traversal.cursor.tree.elements = passed ++ (entry :: inside ++ outside) := by
          rw [hlocated.root]
          exact hlocated.items.symm
        simp only [hitems, List.length_append]
        omega
      obtain ⟨found, traversal, passed', inside', outside', hloop, hp', hlocated', hsubtree', houtside', hlength', hhead,
        hrest⟩ := sibling_loop_spec hsorted hp hlocated rfl hsubtree houtside hfuel
      have hnext : iter.next = some (some entry, { iter with traversal }) := by
        rw [ChildEntriesIter.next, hitem]
        change (if entry.path.starts_with iter.parent_path = true then
          iter.traversal.advance_to_sibling >>= fun found => some (some entry, { iter with traversal := found.2 })
          else some (none, iter)) = _
        rw [if_pos hunder, Traversal.advance_to_sibling, hloop]
        rfl
      have htail := @ih inside'.length (by rw [List.length_cons] at hlength' ⊢; omega) { iter with traversal } _ _ _ hp'
        hlocated' hsubtree' houtside' rfl
      have hall : first_and_passing p (inside'.filter (is_child iter.parent_path)) =
          (inside'.filter (is_child iter.parent_path)).filter p := by
        cases inside' with
        | nil => rfl
        | cons first inside' =>
          rw [hsubtree'.children, first_and_passing, List.filter_cons_of_pos (hhead first rfl)]
      rw [hsubtree.children, List.tail_cons] at hrest
      rw [hsubtree.children, first_and_passing, ← hrest, ← hall]
      exact Yields.cons hnext htail

theorem child_entries_with_options_yields (hsorted : Sorted entries_by_path.items)
    (hclosed : ClosedUnderParents entries_by_path.items) (parent_path : RelPath) (options : ChildEntriesOptions) :
    ∃ iter, child_entries_with_options entries_by_path parent_path options = some iter ∧
      Yields ChildEntriesIter.next iter (first_and_passing
        (included options.include_files options.include_dirs options.include_ignored)
        (entries_by_path.items.filter (is_child parent_path))) := by
  let target := TraversalTarget.path parent_path
  let before (entry : Entry) : Bool := decide (entry.path ≤ parent_path)
  have hlast : ∀ passed item, goes_past target.cmp_progress .Right (passed ++ [item]) = before item := by
    intro passed item
    change Bias.goes_past .Right (compare parent_path (progress (passed ++ [item]) : TraversalProgress).max_path) =
      decide (item.path ≤ parent_path)
    rw [progress_max_path]
    cases hcmp : compare parent_path item.path with
    | lt => simpa [Bias.goes_past] using compare_lt_iff_lt.mp hcmp
    | eq => simpa [Bias.goes_past] using (compare_eq_iff_eq.mp hcmp).ge
    | gt => simpa [Bias.goes_past] using (compare_gt_iff_gt.mp hcmp).le
  have hdown : entries_by_path.items.Pairwise fun a b => before b = true → before a = true := by
    refine hsorted.imp fun {a b} hab hb => ?_
    simp only [before, decide_eq_true_eq] at hb ⊢
    exact (le_of_lt hab).trans hb
  have hahead : target.cmp_progress Dimension.zero ≠ .lt := by
    change compare parent_path RelPath.empty ≠ .lt
    rw [Ne, compare_lt_iff_lt, not_lt]
    exact RelPath.le_of_starts_with rfl
  let start : Seeker Entry EntrySummary TraversalProgress := Seeker.new entries_by_path.node
  have hroot : start.tree = entries_by_path.node := rfl
  obtain ⟨hit, cursor, hseek, hlocated⟩ := zed.sum_tree.Seeker.seek_located hroot target.cmp_progress .Right hahead
    (Downward.of_last hlast [] hdown)
  rw [seek_while_of_last hlast] at hlocated
  obtain ⟨outside, hdrop, houtside⟩ := @dropWhile_le_eq parent_path _ hsorted
  rw [hdrop] at hlocated
  let traversal : Traversal :=
    { cursor
      include_files := options.include_files
      include_dirs := options.include_dirs
      include_ignored := options.include_ignored }
  have hiter : child_entries_with_options entries_by_path parent_path options = some { traversal, parent_path } := by
    change (start.seek target.cmp_progress .Right >>= fun found => some _) = _
    rw [hseek]
    rfl
  refine ⟨_, hiter, ?_⟩
  have hyields := @child_entries_yields _ { traversal, parent_path } _ _ _ _ hsorted rfl hlocated
    (subtree_of_closed hsorted hclosed) houtside
  rw [filter_is_child] at hyields
  exact hyields

/-- For a snapshot, a filter and a path: the traversals list what they filter for. -/
structure ListsFiltered (entries_by_path : SumTree Entry EntrySummary) (options : ChildEntriesOptions)
    (parent_path : RelPath) : Prop where
  children : ∃ iter, child_entries_with_options entries_by_path parent_path options = some iter ∧
    Yields ChildEntriesIter.next iter ((entries_by_path.items.filter (is_child parent_path)).filter
      (included options.include_files options.include_dirs options.include_ignored))
  from_offset : ∀ start_offset, ∃ traversal, traverse_from_offset entries_by_path options.include_files
      options.include_dirs options.include_ignored start_offset = some traversal ∧
    Yields Traversal.next traversal ((entries_by_path.items.filter
      (included options.include_files options.include_dirs options.include_ignored)).drop start_offset)

/-- The traversals list what they filter for exactly when the first child, if there is one, passes the filter. -/
theorem traversals_list_iff (entries_by_path : SumTree Entry EntrySummary) (hsorted : Sorted entries_by_path.items)
    (hclosed : ClosedUnderParents entries_by_path.items) (options : ChildEntriesOptions) (parent_path : RelPath) :
    ListsFiltered entries_by_path options parent_path ↔
      ∀ first ∈ (entries_by_path.items.filter (is_child parent_path)).head?,
        included options.include_files options.include_dirs options.include_ignored first = true := by
  obtain ⟨iter, hiter, hyields⟩ := child_entries_with_options_yields hsorted hclosed parent_path options
  generalize hchildren : entries_by_path.items.filter (is_child parent_path) = children at *
  constructor
  · rintro ⟨⟨iter', hiter', hyields'⟩, -⟩ first hfirst
    cases hiter.symm.trans hiter'
    rw [hchildren] at hyields'
    have hsame := hyields.unique hyields'
    cases children with
    | nil => cases hfirst
    | cons child children =>
      obtain rfl : child = first := Option.some.inj hfirst
      have hmem : child ∈ (child :: children).filter
          (included options.include_files options.include_dirs options.include_ignored) := by
        rw [← hsame]
        exact List.mem_cons_self
      exact (List.mem_filter.mp hmem).2
  · intro hfirst
    refine ⟨⟨iter, hiter, ?_⟩, fun start_offset => traverse_from_offset_yields _ _ _ start_offset⟩
    rw [hchildren]
    cases children with
    | nil => exact hyields
    | cons child children =>
      rw [List.filter_cons_of_pos (hfirst child rfl)]
      exact hyields

theorem components_single {c : Char} (hc : c ≠ path.SEPARATOR) : path.components [c] = [[c]] := by
  rw [path.components_cons hc, path.components_nil]
  rfl

def single_path (c : Char) (h : c ≠ path.SEPARATOR ∧ c ≠ '.') : RelPath where
  as_unix_str := [c]
  normalized := by
    refine ⟨?_, by simpa using h.1⟩
    rw [components_single h.1]
    simpa using h.2

def root_entry : Entry where
  id := 0
  kind := .Dir
  path := RelPath.empty
  inode := 0
  mtime := none
  canonical_path := none
  is_ignored := false
  is_hidden := false
  is_always_included := false
  is_external := false
  is_private := false
  size := 0
  char_bag := 0
  is_fifo := false

/-- A file `a` and then a directory `b` at the root. -/
def file_and_dir : List Entry :=
  [root_entry, { root_entry with id := 1, kind := .File, path := single_path 'a' (by decide) },
    { root_entry with id := 2, kind := .Dir, path := single_path 'b' (by decide) }]

theorem file_and_dir_components :
    file_and_dir.map (fun entry => entry.path.components) = [[], [['a']], [['b']]] := by
  simp only [file_and_dir, List.map_cons, List.map_nil, root_entry, single_path, RelPath.components]
  rw [components_single (by decide), components_single (by decide)]
  simp [RelPath.empty, path.components_nil]

theorem file_and_dir_sorted : Sorted file_and_dir := by
  have hsorted : (file_and_dir.map fun entry => entry.path.components).Pairwise (· < ·) := by
    rw [file_and_dir_components]
    decide
  have hpaths := List.pairwise_map.mp hsorted
  exact hpaths

theorem file_and_dir_closed : ClosedUnderParents file_and_dir := by
  intro entry hentry hne
  have hmem : entry.path.components ∈ file_and_dir.map fun entry => entry.path.components := List.mem_map_of_mem hentry
  rw [file_and_dir_components] at hmem
  have hroot : entry.path.components.dropLast = [] := by
    simp only [List.mem_cons, List.not_mem_nil, or_false] at hmem
    rcases hmem with hmem | hmem | hmem <;> rw [hmem] <;> rfl
  exact ⟨root_entry, List.mem_cons_self, hroot.symm ▸ path.components_nil⟩

theorem file_and_dir_children : file_and_dir.filter (is_child RelPath.empty) = file_and_dir.tail := by
  have hempty : RelPath.empty.components = [] := path.components_nil
  have hsingle : ∀ c h, (single_path c h).components = [[c]] := fun c h => components_single h.1
  simp [file_and_dir, is_child, root_entry, hempty, hsingle]

theorem traversals_list_files_first :
    ListsFiltered (SumTree.from_iter file_and_dir) ⟨true, false, true⟩ RelPath.empty := by
  have hitems : (SumTree.from_iter file_and_dir).items = file_and_dir :=
    (zed.sum_tree.Node.from_iter_spec file_and_dir).1
  refine (traversals_list_iff (SumTree.from_iter file_and_dir) (by rw [hitems]; exact file_and_dir_sorted)
    (by rw [hitems]; exact file_and_dir_closed) ⟨true, false, true⟩ RelPath.empty).mpr ?_
  rw [hitems, file_and_dir_children]
  rintro first ⟨⟩
  rfl

/-- With only directories asked for, the file at the root is listed. -/
theorem first_child_unfiltered :
    Sorted (SumTree.from_iter file_and_dir).items ∧ ClosedUnderParents (SumTree.from_iter file_and_dir).items ∧
      ¬ ListsFiltered (SumTree.from_iter file_and_dir) ⟨false, true, true⟩ RelPath.empty := by
  have hitems : (SumTree.from_iter file_and_dir).items = file_and_dir :=
    (zed.sum_tree.Node.from_iter_spec file_and_dir).1
  have hsorted : Sorted (SumTree.from_iter file_and_dir).items := by
    rw [hitems]
    exact file_and_dir_sorted
  have hclosed : ClosedUnderParents (SumTree.from_iter file_and_dir).items := by
    rw [hitems]
    exact file_and_dir_closed
  refine ⟨hsorted, hclosed, ?_⟩
  rintro ⟨⟨iter, hiter, hyields⟩, -⟩
  obtain ⟨iter', hiter', hyields'⟩ :=
    child_entries_with_options_yields hsorted hclosed RelPath.empty ⟨false, true, true⟩
  cases hiter.symm.trans hiter'
  have hsame := congrArg List.length (hyields.unique hyields')
  rw [hitems, file_and_dir_children] at hsame
  revert hsame
  decide

end zed.worktree
