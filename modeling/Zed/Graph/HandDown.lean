import Mathlib

namespace zed.graph

/-! Values handed down a graph, node by node in the order of the numbers and in
place: a node without values takes those that its parents have at its turn, and
keeps them. -/

variable {α : Type} (own : Nat → Set α) (parents : Nat → List Nat)

/-- What a node should have: its own values, or its parents' when it has none. -/
inductive Inherits (value : α) : Nat → Prop
  | own {node} : value ∈ own node → Inherits value node
  | parent {node parent} : own node = ∅ → parent ∈ parents node → Inherits value parent → Inherits value node

/-- A node has values after so many rounds: a chain of parents from a node with
    values of its own goes back in the order fewer times. -/
inductive FilledBy : Nat → Nat → Prop
  | own {rounds node} : (own node).Nonempty → FilledBy rounds node
  | same {rounds parent node} :
      parent ∈ parents node → parent < node → FilledBy (rounds + 1) parent → FilledBy (rounds + 1) node
  | next {rounds parent node} : parent ∈ parents node → FilledBy rounds parent → FilledBy (rounds + 1) node

/-- A parent has values when its child's turn comes in a round. -/
def ReadyFor (rounds parent node : Nat) : Prop :=
  parent < node ∧ FilledBy own parents (rounds + 1) parent ∨ FilledBy own parents rounds parent

/-- A value comes to a node in so many rounds: along a chain of parents each of
    which has values at the first turn of its child at which any parent has. -/
inductive Comes (limit : Nat) (value : α) : Nat → Prop
  | own {node} : value ∈ own node → Comes limit value node
  | parent {rounds node parent} : own node = ∅ → parent ∈ parents node → rounds < limit →
      ¬ FilledBy own parents rounds node → ReadyFor own parents rounds parent node →
      Comes limit value parent → Comes limit value node

noncomputable def handDown (node : Nat) (values : Nat → Set α) : Nat → Set α :=
  open Classical in
  if values node = ∅ then Function.update values node {value | ∃ parent ∈ parents node, value ∈ values parent}
  else values

/-- A round over the first `count` nodes. -/
noncomputable def sweep (count : Nat) (values : Nat → Set α) : Nat → Set α :=
  match count with
  | 0 => values
  | count + 1 => handDown parents count (sweep count values)

variable {own parents} {value : α}

theorem Comes.inherits {limit node : Nat} (h : Comes own parents limit value node) : Inherits own parents value node := by
  induction h with
  | own hvalue => exact .own hvalue
  | parent hnode hparent _ _ _ _ ih => exact .parent hnode hparent ih

theorem FilledBy.mono {rounds later node : Nat} (h : FilledBy own parents rounds node) (hle : rounds ≤ later) :
    FilledBy own parents later node := by
  induction h generalizing later with
  | own hown => exact .own hown
  | same hparent hlt _ ih =>
    obtain ⟨later, rfl⟩ := Nat.exists_eq_add_of_le' (Nat.lt_of_lt_of_le (Nat.succ_pos _) hle)
    exact .same hparent hlt (ih hle)
  | next hparent _ ih =>
    obtain ⟨later, rfl⟩ := Nat.exists_eq_add_of_le' (Nat.lt_of_lt_of_le (Nat.succ_pos _) hle)
    exact .next hparent (ih (Nat.le_of_succ_le_succ hle))

theorem ReadyFor.filledBy {rounds parent node : Nat} (h : ReadyFor own parents rounds parent node) :
    FilledBy own parents (rounds + 1) parent := by
  obtain ⟨-, hfilled⟩ | hfilled := h
  · exact hfilled
  · exact hfilled.mono (Nat.le_succ _)

theorem ReadyFor.child {rounds parent node : Nat} (h : ReadyFor own parents rounds parent node)
    (hparent : parent ∈ parents node) : FilledBy own parents (rounds + 1) node := by
  obtain ⟨hlt, hfilled⟩ | hfilled := h
  · exact .same hparent hlt hfilled
  · exact .next hparent hfilled

theorem Comes.mono {limit later node : Nat} (h : Comes own parents limit value node) (hle : limit ≤ later) :
    Comes own parents later value node := by
  induction h with
  | own hvalue => exact .own hvalue
  | parent hnode hparent hrounds hfirst hready _ ih =>
    exact .parent hnode hparent (Nat.lt_of_lt_of_le hrounds hle) hfirst hready ih

theorem Comes.filledBy {limit node : Nat} (h : Comes own parents limit value node) :
    FilledBy own parents limit node := by
  cases h with
  | own hvalue => exact .own ⟨value, hvalue⟩
  | parent _ hparent hrounds _ hready _ => exact (hready.child hparent).mono hrounds

theorem Comes.settled {limit rounds node : Nat} (h : Comes own parents limit value node)
    (hfilled : FilledBy own parents rounds node) : Comes own parents rounds value node := by
  induction h with
  | own hvalue => exact .own hvalue
  | @parent turn node parent hnode hparent _ hfirst hready _ ih =>
    have hturn : turn < rounds := by
      by_contra hnot
      exact hfirst (hfilled.mono (Nat.le_of_not_lt hnot))
    exact .parent hnode hparent hturn hfirst hready (ih (hready.filledBy.mono hturn))

theorem FilledBy.exists_comes {rounds node : Nat} (h : FilledBy own parents rounds node) :
    ∃ value, Comes own parents rounds value node := by
  induction rounds generalizing node with
  | zero =>
    cases h with
    | own hown => exact hown.imp fun _ hvalue => .own hvalue
  | succ rounds ih =>
    induction node using Nat.strong_induction_on with
    | _ node ihnode =>
      by_cases hown : own node = ∅
      · by_cases hbefore : FilledBy own parents rounds node
        · exact (ih hbefore).imp fun _ hcomes => hcomes.mono (Nat.le_succ _)
        cases h with
        | own hsome => exact absurd hown hsome.ne_empty
        | same hparent hlt hfilled =>
          obtain ⟨value, hcomes⟩ := ihnode _ hlt hfilled
          exact ⟨value, .parent hown hparent (Nat.lt_succ_self _) hbefore (Or.inl ⟨hlt, hfilled⟩) hcomes⟩
        | next hparent hfilled =>
          obtain ⟨value, hcomes⟩ := ih hfilled
          exact ⟨value, .parent hown hparent (Nat.lt_succ_self _) hbefore (Or.inr hfilled)
            (hcomes.mono (Nat.le_succ _))⟩
      · obtain ⟨value, hvalue⟩ := Set.nonempty_iff_ne_empty.mpr hown
        exact ⟨value, .own hvalue⟩

theorem comes_at_turn {rounds node : Nat} (hfirst : ¬ FilledBy own parents rounds node) :
    Comes own parents (rounds + 1) value node ↔
      ∃ parent ∈ parents node, (parent < node ∧ Comes own parents (rounds + 1) value parent ∨
        Comes own parents rounds value parent) := by
  have hempty : own node = ∅ := by
    by_contra hsome
    exact hfirst (.own (Set.nonempty_iff_ne_empty.mpr hsome))
  constructor
  · intro h
    cases h with
    | own hvalue => rw [hempty] at hvalue; cases hvalue
    | @parent turn _ parent _ hparent hturn _ hready hcomes =>
      -- an earlier turn would have filled the node
      have hthis : turn = rounds := by
        by_contra hne
        exact hfirst ((hready.child hparent).mono (by omega))
      subst hthis
      refine ⟨parent, hparent, ?_⟩
      obtain ⟨hlt, -⟩ | hfilled := hready
      · exact Or.inl ⟨hlt, hcomes⟩
      · exact Or.inr (hcomes.settled hfilled)
  · rintro ⟨parent, hparent, ⟨hlt, hcomes⟩ | hcomes⟩
    · exact .parent hempty hparent (Nat.lt_succ_self _) hfirst (Or.inl ⟨hlt, hcomes.filledBy⟩) hcomes
    · exact .parent hempty hparent (Nat.lt_succ_self _) hfirst (Or.inr hcomes.filledBy) (hcomes.mono (Nat.le_succ _))

theorem sweep_eq {rounds : Nat} {values : Nat → Set α}
    (hvalues : ∀ node, values node = {value | Comes own parents rounds value node}) (count node : Nat) :
    sweep parents count values node =
      {value | (node < count ∧ Comes own parents (rounds + 1) value node) ∨ Comes own parents rounds value node} := by
  induction count generalizing node with
  | zero => simp [sweep, hvalues]
  | succ count ih =>
    have hother : node ≠ count → (node < count + 1 ↔ node < count) := fun hne => by omega
    have hturn : sweep parents count values count = {value | Comes own parents rounds value count} := by
      rw [ih]
      simp
    rw [sweep, handDown, hturn]
    by_cases hfilled : FilledBy own parents rounds count
    · obtain ⟨first, hfirst⟩ := hfilled.exists_comes
      have hsome : {value | Comes own parents rounds value count} ≠ ∅ :=
        (Set.nonempty_of_mem (show first ∈ {value | Comes own parents rounds value count} from hfirst)).ne_empty
      rw [if_neg hsome, ih]
      by_cases hnode : node = count
      · subst hnode
        ext value
        simp only [lt_irrefl, false_and, false_or, Set.mem_ofPred_eq, Nat.lt_succ_self, true_and]
        exact ⟨Or.inr, fun h => h.elim (fun h => h.settled hfilled) id⟩
      · rw [hother hnode]
    · have hnone : {value | Comes own parents rounds value count} = ∅ := by
        rw [Set.eq_empty_iff_forall_notMem]
        exact fun value hcomes => hfilled (Comes.filledBy hcomes)
      rw [if_pos hnone]
      by_cases hnode : node = count
      · subst hnode
        rw [Function.update_self]
        ext value
        have hnot : ¬ Comes own parents rounds value node := fun hcomes => hfilled hcomes.filledBy
        simp only [ih, Set.mem_ofPred_eq, Nat.lt_succ_self, true_and, hnot, or_false]
        exact (comes_at_turn hfilled).symm
      · rw [Function.update_of_ne hnode, ih, hother hnode]

theorem iterate_sweep_eq {count : Nat} (hcount : ∀ node, count ≤ node → parents node = []) (rounds node : Nat) :
    (sweep parents count)^[rounds] own node = {value | Comes own parents rounds value node} := by
  induction rounds generalizing node with
  | zero =>
    ext value
    constructor
    · exact .own
    · intro h
      cases h with
      | own hvalue => exact hvalue
      | parent _ _ hrounds => exact absurd hrounds (Nat.not_lt_zero _)
  | succ rounds ih =>
    rw [Function.iterate_succ_apply', sweep_eq ih]
    ext value
    constructor
    · rintro (⟨-, hcomes⟩ | hcomes)
      · exact hcomes
      · exact hcomes.mono (Nat.le_succ _)
    · intro hcomes
      by_cases hnode : node < count
      · exact Or.inl ⟨hnode, hcomes⟩
      · cases hcomes with
        | own hvalue => exact Or.inr (.own hvalue)
        | parent _ hparent => rw [hcount node (Nat.le_of_not_lt hnode)] at hparent; cases hparent

/-- What comes in a number of rounds is what every node should have, all at once or
    read off its parents, exactly when nothing that a node inherits comes too late. -/
theorem comes_fixpoint_iff (limit : Nat) :
    (∀ node, own node = ∅ → ∀ value, Comes own parents limit value node ↔
        ∃ parent ∈ parents node, Comes own parents limit value parent) ↔
      ∀ node value, Inherits own parents value node → Comes own parents limit value node := by
  constructor
  · intro hfix node value h
    induction h with
    | own hvalue => exact .own hvalue
    | parent hnode hparent _ ih => exact (hfix _ hnode value).mpr ⟨_, hparent, ih⟩
  · intro hall node hnode value
    constructor
    · intro hcomes
      cases hcomes with
      | own hvalue => rw [hnode] at hvalue; cases hvalue
      | parent _ hparent _ _ _ hcomes => exact ⟨_, hparent, hcomes⟩
    · rintro ⟨parent, hparent, hcomes⟩
      exact hall node value (.parent hnode hparent hcomes.inherits)

end zed.graph
