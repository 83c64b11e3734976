import Mathlib

/-!
Walks in a graph that spend a budget: each step costs one, and some nodes fill it up again.
-/

namespace zed.graph

variable {V : Type*}

/-- A path of so many steps. -/
inductive Steps (edge : V → V → Prop) (a : V) : Nat → V → Prop
  | refl : Steps edge a 0 a
  | tail {k : Nat} {u v : V} : Steps edge a k u → edge u v → Steps edge a (k + 1) v

def Within (edge : V → V → Prop) (limit : Int) (a v : V) : Prop := ∃ k : Nat, (k : Int) ≤ limit ∧ Steps edge a k v

/-- What is near the center, and near the fresh nodes that are. -/
inductive Hood (edge : V → V → Prop) (fresh : V → Prop) (depth : Int) (center : V) : V → Prop
  | center : Hood edge fresh depth center center
  | near {v : V} : Within edge depth center v → Hood edge fresh depth center v
  | again {e v : V} : Hood edge fresh depth center e → fresh e → Within edge depth e v →
      Hood edge fresh depth center v

section

variable (edge : V → V → Prop) (fresh : V → Prop) [DecidablePred fresh] (depth : Int) (center : V)

/-- The budget with which a walk goes on from a node. -/
def refill (v : V) (budget : Int) : Int := if fresh v then max budget depth else budget

/-- A walk from the center comes to a node after so many steps with so much budget left. -/
inductive Arrives : Nat → V → Int → Prop
  | start : Arrives 0 center depth
  | step {k : Nat} {u v : V} {budget : Int} : Arrives k u budget → 0 < refill fresh depth u budget → edge u v →
      Arrives (k + 1) v (refill fresh depth u budget - 1)

/-- The least number of steps in which a walk comes to a node. -/
structure Fewest (k : Nat) (v : V) : Prop where
  arrives : ∃ budget, Arrives edge fresh depth center k v budget
  least : ∀ k' budget, Arrives edge fresh depth center k' v budget → k ≤ k'

/-- Before each node on one of its shortest walks is one that all shortest walks leave with
    budget. -/
def Sustained : Prop :=
  ∀ k v, Fewest edge fresh depth center (k + 1) v →
    ∃ u, edge u v ∧ Fewest edge fresh depth center k u ∧
      ∀ budget, Arrives edge fresh depth center k u budget → 0 < refill fresh depth u budget

end

variable {edge : V → V → Prop} {fresh : V → Prop} [DecidablePred fresh] {depth : Int} {center : V}

theorem le_refill (v : V) (budget : Int) : budget ≤ refill fresh depth v budget := by
  unfold refill
  split
  · exact le_max_left _ _
  · exact le_rfl

theorem depth_le_refill {v : V} (hfresh : fresh v) (budget : Int) : depth ≤ refill fresh depth v budget := by
  rw [refill, if_pos hfresh]
  exact le_max_right _ _

theorem Arrives.root {k : Nat} {v : V} {budget : Int} (hdepth : 1 ≤ depth)
    (h : Arrives edge fresh depth center k v budget) :
    0 ≤ budget ∧ ∃ root, (root = center ∨ Hood edge fresh depth center root ∧ fresh root) ∧
      ∃ j : Nat, (j : Int) + budget ≤ depth ∧ Steps edge root j v := by
  induction h with
  | start => exact ⟨by omega, center, .inl rfl, 0, by simp, .refl⟩
  | @step k u v budget harrives hpos hedge ih =>
    obtain ⟨hnonneg, root, hroot, j, hj, hsteps⟩ := ih
    refine ⟨by omega, ?_⟩
    by_cases hfresh : fresh u
    · have hood : Hood edge fresh depth center u := by
        have hwithin : Within edge depth root u := ⟨j, by omega, hsteps⟩
        rcases hroot with rfl | ⟨hroot, hrootFresh⟩
        · exact .near hwithin
        · exact .again hroot hrootFresh hwithin
      refine ⟨u, .inr ⟨hood, hfresh⟩, 1, ?_, Steps.refl.tail hedge⟩
      rw [refill, if_pos hfresh, max_eq_right (by omega)]
      omega
    · refine ⟨root, hroot, j + 1, ?_, hsteps.tail hedge⟩
      rw [refill, if_neg hfresh]
      push_cast
      omega

theorem Arrives.extend {k j : Nat} {u v : V} {budget limit : Int} (h : Arrives edge fresh depth center k u budget)
    (hlimit : limit ≤ refill fresh depth u budget) (hsteps : Steps edge u j v) (hj : (j : Int) ≤ limit) :
    ∃ budget', Arrives edge fresh depth center (k + j) v budget' ∧ limit - j ≤ refill fresh depth v budget' := by
  induction hsteps with
  | refl => exact ⟨budget, h, by simpa using hlimit⟩
  | @tail j w v _ hedge ih =>
    push_cast at hj
    obtain ⟨before, harrives, hbefore⟩ := ih (by omega)
    refine ⟨_, harrives.step (by omega) hedge, ?_⟩
    have hle : refill fresh depth w before - 1 ≤ refill fresh depth v (refill fresh depth w before - 1) := le_refill v _
    push_cast
    omega

theorem arrives_iff_hood (hdepth : 1 ≤ depth) {v : V} :
    (∃ k budget, Arrives edge fresh depth center k v budget) ↔ Hood edge fresh depth center v := by
  constructor
  · rintro ⟨k, budget, h⟩
    obtain ⟨hnonneg, root, hroot, j, hj, hsteps⟩ := h.root hdepth
    have hwithin : Within edge depth root v := ⟨j, by omega, hsteps⟩
    rcases hroot with rfl | ⟨hroot, hfresh⟩
    · exact .near hwithin
    · exact .again hroot hfresh hwithin
  · intro h
    induction h with
    | center => exact ⟨0, depth, .start⟩
    | near hwithin =>
      obtain ⟨j, hj, hsteps⟩ := hwithin
      have hstart : Arrives edge fresh depth center 0 center depth := .start
      obtain ⟨budget, harrives, -⟩ := hstart.extend (le_refill _ _) hsteps hj
      exact ⟨_, budget, harrives⟩
    | again _ hfresh hwithin ih =>
      obtain ⟨k, budget, hroot⟩ := ih
      obtain ⟨j, hj, hsteps⟩ := hwithin
      obtain ⟨budget', harrives, -⟩ := hroot.extend (depth_le_refill hfresh budget) hsteps hj
      exact ⟨_, budget', harrives⟩

theorem exists_fewest {k : Nat} {v : V} {budget : Int} (h : Arrives edge fresh depth center k v budget) :
    ∃ least ≤ k, Fewest edge fresh depth center least v := by
  classical
  have hmet : ∃ k, ∃ budget, Arrives edge fresh depth center k v budget := ⟨k, budget, h⟩
  exact ⟨Nat.find hmet, Nat.find_min' hmet ⟨budget, h⟩, Nat.find_spec hmet,
    fun k' budget' h' => Nat.find_min' hmet ⟨budget', h'⟩⟩

theorem Fewest.unique {j k : Nat} {v : V} (h : Fewest edge fresh depth center j v)
    (h' : Fewest edge fresh depth center k v) : j = k := by
  obtain ⟨budget, harrives⟩ := h.arrives
  obtain ⟨budget', harrives'⟩ := h'.arrives
  exact le_antisymm (h.least _ _ harrives') (h'.least _ _ harrives)

theorem Sustained.none_beyond (h : Sustained edge fresh depth center) {k : Nat}
    (hnone : ∀ v, ¬Fewest edge fresh depth center k v) {j : Nat} (hj : k ≤ j) (v : V) :
    ¬Fewest edge fresh depth center j v := by
  induction j, hj using Nat.le_induction generalizing v with
  | base => exact hnone v
  | succ j _ ih =>
    intro hfewest
    obtain ⟨u, -, hu, -⟩ := h j v hfewest
    exact ih u hu

theorem Arrives.reaches {k : Nat} {v : V} {budget : Int} (h : Arrives edge fresh depth center k v budget) :
    Relation.ReflTransGen edge center v := by
  induction h with
  | start => exact .refl
  | step _ _ hedge ih => exact ih.tail hedge

end zed.graph
