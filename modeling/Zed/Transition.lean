import Mathlib

/-!
Runs of a step function: what a step keeps, a run keeps.
-/

namespace zed.transition

variable {State Action : Type*}

def Steps (step : State → Action → Option State) (may : State → Action → Prop) (s t : State) : Prop :=
  ∃ action, may s action ∧ step s action = some t

/-- Any number of steps, each by an action that may be taken where it is. -/
abbrev Runs (step : State → Action → Option State) (may : State → Action → Prop) : State → State → Prop :=
  Relation.ReflTransGen (Steps step may)

variable {step : State → Action → Option State} {may : State → Action → Prop} {s t : State}

theorem Runs.keeps {inv : State → Prop} (hrun : Runs step may s t)
    (hstep : ∀ s action t, inv s → may s action → step s action = some t → inv t) (hs : inv s) : inv t := by
  induction hrun with
  | refl => exact hs
  | tail _ hlast ih =>
    obtain ⟨action, hmay, htaken⟩ := hlast
    exact hstep _ action _ ih hmay htaken

/-- A list of actions, taken one after the other. -/
def take_all (step : State → Action → Option State) (s : State) (actions : List Action) : Option State :=
  actions.foldlM step s

theorem runs_of_take_all (actions : List Action) (hmay : ∀ action ∈ actions, ∀ s, may s action)
    (htaken : take_all step s actions = some t) : Runs step may s t := by
  induction actions generalizing s with
  | nil =>
    obtain rfl : s = t := by simpa [take_all] using htaken
    exact .refl
  | cons action actions ih =>
    simp only [take_all, List.foldlM_cons, Option.bind_eq_bind, Option.bind_eq_some_iff] at htaken
    obtain ⟨middle, hfirst, hrest⟩ := htaken
    have hmay' : ∀ action ∈ actions, ∀ s, may s action := fun a ha => hmay a (List.mem_cons_of_mem _ ha)
    exact .head ⟨action, hmay action (List.mem_cons_self ..) s, hfirst⟩ (ih hmay' hrest)

theorem runs_of_take_allowed [∀ s action, Decidable (may s action)] (actions : List Action)
    (htaken : take_all (fun s action => if may s action then step s action else none) s actions = some t) :
    Runs step may s t := by
  induction actions generalizing s with
  | nil =>
    obtain rfl : s = t := by simpa [take_all] using htaken
    exact .refl
  | cons action actions ih =>
    simp only [take_all, List.foldlM_cons, Option.bind_eq_bind, Option.bind_eq_some_iff] at htaken
    obtain ⟨middle, hfirst, hrest⟩ := htaken
    split at hfirst
    · next hmay => exact .head ⟨action, hmay, hfirst⟩ (ih hrest)
    · simp at hfirst

end zed.transition
