import Mathlib

namespace zed.graph

variable {V : Type}

/-- No node is reached from itself. -/
def Acyclic (edge : V → V → Prop) : Prop := ∀ v, ¬ Relation.TransGen edge v v

theorem acyclic_of_rank {edge : V → V → Prop} (rank : V → Nat) (hrank : ∀ a b, edge a b → rank a < rank b) :
    Acyclic edge := by
  have hreach : ∀ {a b}, Relation.TransGen edge a b → rank a < rank b := by
    intro a b h
    induction h with
    | single hedge => exact hrank _ _ hedge
    | tail _ hedge ih => exact ih.trans (hrank _ _ hedge)
  exact fun v hloop => (hreach hloop).ne rfl

/-- A numbering of the nodes that grows along every edge. -/
def Ranked (edges : List (V × V)) (rank : V → Nat) : Prop := ∀ edge ∈ edges, rank edge.1 < rank edge.2

theorem exists_ranked {edges : List (V × V)} {nodes : List V} (hnodes : ∀ edge ∈ edges, edge.1 ∈ nodes)
    (hacyclic : Acyclic fun a b => (a, b) ∈ edges) :
    ∃ rank : V → Nat, Ranked edges rank ∧ ∀ v ∈ nodes, rank v < nodes.length := by
  classical
  let before (v : V) : Finset V := nodes.toFinset.filter fun u => Relation.TransGen (fun a b => (a, b) ∈ edges) u v
  refine ⟨fun v => (before v).card, ?_, ?_⟩
  · rintro ⟨a, b⟩ hedge
    apply Finset.card_lt_card
    refine ⟨fun u hu => ?_, fun hsubset => ?_⟩
    · obtain ⟨hu, hreach⟩ := Finset.mem_filter.mp hu
      exact Finset.mem_filter.mpr ⟨hu, hreach.tail hedge⟩
    · have ha : a ∈ before b :=
        Finset.mem_filter.mpr ⟨List.mem_toFinset.mpr (hnodes _ hedge), Relation.TransGen.single hedge⟩
      exact hacyclic a (Finset.mem_filter.mp (hsubset ha)).2
  · intro v hv
    have hlt : (before v).card < nodes.toFinset.card := by
      apply Finset.card_lt_card
      refine ⟨Finset.filter_subset _ _, fun hsubset => ?_⟩
      exact hacyclic v (Finset.mem_filter.mp (hsubset (List.mem_toFinset.mpr hv))).2
    exact Nat.lt_of_lt_of_le hlt (List.toFinset_card_le nodes)

section

variable [DecidableEq V]

/-- Pushes the target of an edge past its source. -/
def relax (level : V → Nat) (edge : V × V) : V → Nat :=
  if level edge.2 ≤ level edge.1 then Function.update level edge.2 (level edge.1 + 1) else level

def relaxAll (edges : List (V × V)) (level : V → Nat) : V → Nat := edges.foldl relax level

/-- The edges to the nodes of some ranks point to a higher level. -/
def SettledTo (edges : List (V × V)) (rank : V → Nat) (k : Nat) (level : V → Nat) : Prop :=
  ∀ edge ∈ edges, rank edge.2 ≤ k → level edge.1 < level edge.2

variable {edges : List (V × V)} {rank level : V → Nat} {k : Nat}

theorem relax_of_lt {edge : V × V} (h : level edge.1 < level edge.2) : relax level edge = level :=
  if_neg (Nat.not_le.mpr h)

theorem le_relax (level : V → Nat) (edge : V × V) (v : V) : level v ≤ relax level edge v := by
  unfold relax
  split
  · by_cases hv : v = edge.2
    · subst hv
      rw [Function.update_self]
      omega
    · rw [Function.update_of_ne hv]
  · exact Nat.le_refl _

theorem relax_lt {edge : V × V} (h : edge.1 ≠ edge.2) (level : V → Nat) :
    relax level edge edge.1 < relax level edge edge.2 := by
  unfold relax
  split
  · rw [Function.update_self, Function.update_of_ne h]
    exact Nat.lt_succ_self _
  · omega

theorem le_relaxAll (edges : List (V × V)) (level : V → Nat) (v : V) : level v ≤ relaxAll edges level v := by
  induction edges generalizing level with
  | nil => exact Nat.le_refl _
  | cons edge edges ih => exact Nat.le_trans (le_relax level edge v) (ih _)

theorem relax_of_settledTo {edge : V × V} (h : SettledTo edges rank k level) (hedge : edge ∈ edges) {v : V}
    (hv : rank v ≤ k) : relax level edge v = level v := by
  unfold relax
  split
  · rename_i hle
    have hne : v ≠ edge.2 := by
      rintro rfl
      exact absurd (h edge hedge hv) (Nat.not_lt.mpr hle)
    rw [Function.update_of_ne hne]
  · rfl

theorem SettledTo.relax {edge : V × V} (hranked : Ranked edges rank) (h : SettledTo edges rank k level)
    (hedge : edge ∈ edges) : SettledTo edges rank k (relax level edge) := by
  intro other hother hrank
  have hfrom := hranked other hother
  rw [relax_of_settledTo h hedge hrank, relax_of_settledTo h hedge (by omega)]
  exact h other hother hrank

theorem relaxAll_settles (hranked : Ranked edges rank) {some_edges : List (V × V)}
    (hsome : ∀ edge ∈ some_edges, edge ∈ edges) (h : SettledTo edges rank k level) :
    (∀ v, rank v ≤ k → relaxAll some_edges level v = level v) ∧
      ∀ edge ∈ some_edges, rank edge.2 ≤ k + 1 →
        relaxAll some_edges level edge.1 < relaxAll some_edges level edge.2 := by
  induction some_edges generalizing level with
  | nil => exact ⟨fun v _ => rfl, fun edge hedge => absurd hedge List.not_mem_nil⟩
  | cons first rest ih =>
    have hfirst : first ∈ edges := hsome first List.mem_cons_self
    obtain ⟨hfrozen, hsettled⟩ :=
      ih (fun edge hedge => hsome edge (List.mem_cons_of_mem _ hedge)) (h.relax hranked hfirst)
    refine ⟨fun v hv => ?_, fun edge hedge hrank => ?_⟩
    · exact (hfrozen v hv).trans (relax_of_settledTo h hfirst hv)
    · cases List.mem_cons.mp hedge with
      | inl hedge =>
        subst hedge
        have hfrom := hranked edge hfirst
        have hne : edge.1 ≠ edge.2 := fun heq => Nat.lt_irrefl _ (heq ▸ hfrom)
        calc relaxAll rest (relax level edge) edge.1
            = relax level edge edge.1 := hfrozen _ (by omega)
          _ < relax level edge edge.2 := relax_lt hne level
          _ ≤ relaxAll rest (relax level edge) edge.2 := le_relaxAll rest _ _
      | inr hedge => exact hsettled edge hedge hrank

theorem SettledTo.relaxAll (hranked : Ranked edges rank) (h : SettledTo edges rank k level) :
    SettledTo edges rank (k + 1) (relaxAll edges level) :=
  (relaxAll_settles hranked (fun _ hedge => hedge) h).2

theorem settledTo_iterate (hranked : Ranked edges rank) (level : V → Nat) (k : Nat) :
    SettledTo edges rank k ((graph.relaxAll edges)^[k] level) := by
  induction k with
  | zero =>
    intro edge hedge hrank
    have hfrom := hranked edge hedge
    omega
  | succ k ih =>
    rw [Function.iterate_succ_apply']
    exact ih.relaxAll hranked

theorem iterate_settles {nodes : List V} (hnodes : ∀ edge ∈ edges, edge.1 ∈ nodes ∧ edge.2 ∈ nodes)
    (hacyclic : Acyclic fun a b => (a, b) ∈ edges) (level : V → Nat) :
    ∀ edge ∈ edges, (graph.relaxAll edges)^[nodes.length] level edge.1 <
      (graph.relaxAll edges)^[nodes.length] level edge.2 := by
  obtain ⟨rank, hranked, hbound⟩ := exists_ranked (fun edge hedge => (hnodes edge hedge).1) hacyclic
  intro edge hedge
  exact settledTo_iterate hranked level nodes.length edge hedge
    (Nat.le_of_lt (hbound edge.2 (hnodes edge hedge).2))

end

end zed.graph
