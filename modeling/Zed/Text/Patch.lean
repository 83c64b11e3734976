import Mathlib

namespace zed.text

/-- A half-open range `start..stop`. -/
structure Range where
  start : Nat
  stop : Nat
deriving DecidableEq, Repr

structure Edit where
  old : Range
  new : Range
deriving DecidableEq, Repr

namespace Edit

def is_empty (edit : Edit) : Bool :=
  decide (edit.old.start = edit.old.stop) && decide (edit.new.start = edit.new.stop)

def old_len (edit : Edit) : Nat := edit.old.stop - edit.old.start

def new_len (edit : Edit) : Nat := edit.new.stop - edit.new.start

end Edit

abbrev Patch := List Edit

namespace Patch

/-- Extends the last edit when it touches the new one. -/
def push_maybe_empty : Patch → Edit → Patch
  | [], edit => [edit]
  | [last], edit =>
    if last.old.stop ≥ edit.old.start then
      [{ old := { last.old with stop := edit.old.stop }, new := { last.new with stop := edit.new.stop } }]
    else [last, edit]
  | first :: second :: edits, edit => first :: push_maybe_empty (second :: edits) edit

def push (patch : Patch) (edit : Edit) : Patch :=
  if edit.is_empty then patch else push_maybe_empty patch edit

/-- The variables of the loop of `Patch::compose`: what is left of both edit
    lists, the first edit of each possibly shortened, and the two cursors. -/
structure Compose where
  old_edits : List Edit
  new_edits : List Edit
  composed : Patch
  old_start : Nat
  new_start : Nat

namespace Compose

/-- Push the old edit if its new end is before the new edit's old start. -/
def push_old (s : Compose) (old_edit : Edit) (old_edits : List Edit) : Compose :=
  let catchup := old_edit.old.start - s.old_start
  let old_start := s.old_start + catchup
  let new_start := s.new_start + catchup
  let old_end := old_start + old_edit.old_len
  let new_end := new_start + old_edit.new_len
  { s with
    old_edits
    composed := push s.composed { old := ⟨old_start, old_end⟩, new := ⟨new_start, new_end⟩ }
    old_start := old_end
    new_start := new_end }

/-- Push the new edit if its old end is before the old edit's new start. -/
def push_new (s : Compose) (new_edit : Edit) (new_edits : List Edit) : Compose :=
  let catchup := new_edit.new.start - s.new_start
  let old_start := s.old_start + catchup
  let new_start := s.new_start + catchup
  let old_end := old_start + new_edit.old_len
  let new_end := new_start + new_edit.new_len
  { s with
    new_edits
    composed := push s.composed { old := ⟨old_start, old_end⟩, new := ⟨new_start, new_end⟩ }
    old_start := old_end
    new_start := new_end }

/-- Push what one of two intersecting edits has before the other. Both then
    start at the cursors. -/
def align (s : Compose) (old_edit new_edit : Edit) : Compose × Edit × Edit :=
  if old_edit.new.start < new_edit.old.start then
    let catchup := old_edit.old.start - s.old_start
    let old_start := s.old_start + catchup
    let new_start := s.new_start + catchup
    let overshoot := new_edit.old.start - old_edit.new.start
    let old_end := min (old_start + overshoot) old_edit.old.stop
    let new_end := new_start + overshoot
    ({ s with
       composed := push s.composed { old := ⟨old_start, old_end⟩, new := ⟨new_start, new_end⟩ }
       old_start := old_end
       new_start := new_end },
      { old := { old_edit.old with start := old_end }
        new := { old_edit.new with start := old_edit.new.start + overshoot } },
      new_edit)
  else
    let catchup := new_edit.new.start - s.new_start
    let old_start := s.old_start + catchup
    let new_start := s.new_start + catchup
    let overshoot := old_edit.new.start - new_edit.old.start
    let old_end := old_start + overshoot
    let new_end := min (new_start + overshoot) new_edit.new.stop
    ({ s with
       composed := push s.composed { old := ⟨old_start, old_end⟩, new := ⟨new_start, new_end⟩ }
       old_start := old_end
       new_start := new_end },
      old_edit,
      { old := { new_edit.old with start := new_edit.old.start + overshoot }
        new := { new_edit.new with start := new_end } })

/-- Push the shorter of two aligned edits, and shorten the other one by it. -/
def consume (s : Compose) (old_edit new_edit : Edit) (old_edits new_edits : List Edit) : Compose :=
  if old_edit.new.stop > new_edit.old.stop then
    let old_end := s.old_start + min old_edit.old_len new_edit.old_len
    let new_end := s.new_start + new_edit.new_len
    { old_edits := { old := { old_edit.old with start := old_end }
                     new := { old_edit.new with start := new_edit.old.stop } } :: old_edits
      new_edits
      composed := push s.composed { old := ⟨s.old_start, old_end⟩, new := ⟨s.new_start, new_end⟩ }
      old_start := old_end
      new_start := new_end }
  else
    let old_end := s.old_start + old_edit.old_len
    let new_end := s.new_start + min old_edit.new_len new_edit.new_len
    { old_edits
      new_edits := { old := { new_edit.old with start := old_edit.new.stop }
                     new := { new_edit.new with start := new_end } } :: new_edits
      composed := push s.composed { old := ⟨s.old_start, old_end⟩, new := ⟨s.new_start, new_end⟩ }
      old_start := old_end
      new_start := new_end }

def intersect (s : Compose) (old_edit new_edit : Edit) (old_edits new_edits : List Edit) : Compose :=
  let (s, old_edit, new_edit) := s.align old_edit new_edit
  s.consume old_edit new_edit old_edits new_edits

/-- One iteration of the loop, or `none` at its `break`. -/
def step (s : Compose) : Option Compose :=
  match s.old_edits, s.new_edits with
  | [], [] => none
  | old_edit :: old_edits, [] => some (s.push_old old_edit old_edits)
  | [], new_edit :: new_edits => some (s.push_new new_edit new_edits)
  | old_edit :: old_edits, new_edit :: new_edits =>
    if old_edit.new.stop < new_edit.old.start then some (s.push_old old_edit old_edits)
    else if new_edit.old.stop < old_edit.new.start then some (s.push_new new_edit new_edits)
    else some (s.intersect old_edit new_edit old_edits new_edits)

theorem step_length {s next : Compose} (h : s.step = some next) :
    next.old_edits.length + next.new_edits.length + 1 = s.old_edits.length + s.new_edits.length := by
  unfold step at h
  cases hold : s.old_edits with
  | nil =>
    cases hnew : s.new_edits with
    | nil => simp [hold, hnew] at h
    | cons new_edit new_edits =>
      simp only [hold, hnew, Option.some.injEq] at h
      subst h
      simp [push_new, hold]
  | cons old_edit old_edits =>
    cases hnew : s.new_edits with
    | nil =>
      simp only [hold, hnew, Option.some.injEq] at h
      subst h
      simp [push_old, hnew]
    | cons new_edit new_edits =>
      simp only [hold, hnew] at h
      split at h
      · simp only [Option.some.injEq] at h
        subst h
        simp [push_old, hnew]
        omega
      · split at h
        · simp only [Option.some.injEq] at h
          subst h
          simp [push_new, hold]
          omega
        · simp only [Option.some.injEq] at h
          subst h
          unfold intersect consume
          dsimp only
          split <;> simp <;> omega

/-- The loop of `Patch::compose`. -/
def run (s : Compose) : Patch :=
  match _hstep : s.step with
  | none => s.composed
  | some next => next.run
termination_by s.old_edits.length + s.new_edits.length
decreasing_by
  have := step_length _hstep
  omega

end Compose

def Compose.start (old_edits new_edits : List Edit) : Compose :=
  { old_edits, new_edits, composed := [], old_start := 0, new_start := 0 }

def compose (patch : Patch) (new_edits : List Edit) : Patch :=
  (Compose.start patch new_edits).run

section semantics

variable {β : Type}

def slice (xs : List β) (start stop : Nat) : List β := (xs.take stop).drop start

/-- Replaces each old range of `old` from `pos` on by its new range of `new`. -/
def apply_from (old new : List β) : Nat → Patch → List β
  | pos, [] => old.drop pos
  | pos, edit :: edits =>
    slice old pos edit.old.start ++ slice new edit.new.start edit.new.stop ++
      apply_from old new edit.old.stop edits

/-- Each new start equals its old start shifted by the length deltas of the
    edits before it. -/
def Consistent : Int → Patch → Prop
  | _, [] => True
  | delta, edit :: edits =>
    (edit.new.start : Int) = edit.old.start + delta ∧
      Consistent (delta + edit.new_len - edit.old_len) edits

instance : (delta : Int) → (patch : Patch) → Decidable (Consistent delta patch)
  | _, [] => .isTrue trivial
  | delta, edit :: edits =>
    have := instDecidableConsistent (delta + edit.new_len - edit.old_len) edits
    inferInstanceAs (Decidable (_ ∧ _))

/-- Edits sorted and pairwise non-touching in old and new coordinates, with
    consistent offsets. -/
structure WellFormed (patch : Patch) : Prop where
  ordered : ∀ edit ∈ patch, edit.old.start ≤ edit.old.stop ∧ edit.new.start ≤ edit.new.stop
  separate : patch.Pairwise fun x y => x.old.stop < y.old.start ∧ x.new.stop < y.new.start
  consistent : Consistent 0 patch

instance (patch : Patch) : Decidable patch.WellFormed :=
  decidable_of_iff (_ ∧ _ ∧ _)
    ⟨fun h => ⟨h.1, h.2.1, h.2.2⟩, fun h => ⟨h.ordered, h.separate, h.consistent⟩⟩

/-- A well-formed patch within both texts that turns the old one into the new. -/
structure Takes (patch : Patch) (old new : List β) : Prop where
  wellFormed : patch.WellFormed
  bounded : ∀ edit ∈ patch, edit.old.stop ≤ old.length ∧ edit.new.stop ≤ new.length
  applies : apply_from old new 0 patch = new

instance [DecidableEq β] (patch : Patch) (old new : List β) : Decidable (patch.Takes old new) :=
  decidable_of_iff (_ ∧ _ ∧ _)
    ⟨fun h => ⟨h.1, h.2.1, h.2.2⟩, fun h => ⟨h.wellFormed, h.bounded, h.applies⟩⟩

/-- The texts agree from the two starts up to the two ends. -/
structure Gap (old new : List β) (i j i' j' : Nat) : Prop where
  old_le : i ≤ i'
  shift : j' + i = j + i'
  same : ∀ k, k < i' - i → old[i + k]? = new[j + k]?

/-- The edits lead from one pair of aligned positions to another: the texts
    agree outside the ranges. -/
def Spans (old new : List β) : Nat → Nat → Patch → Nat → Nat → Prop
  | i, j, [], i', j' => Gap old new i j i' j'
  | i, j, edit :: edits, i', j' =>
    Gap old new i j edit.old.start edit.new.start ∧
      edit.old.start ≤ edit.old.stop ∧ edit.new.start ≤ edit.new.stop ∧
      Spans old new edit.old.stop edit.new.stop edits i' j'

/-- Edits pairwise non-touching in old coordinates. -/
def Separate (patch : Patch) : Prop := patch.Pairwise fun x y => x.old.stop < y.old.start

variable {old mid new : List β} {i j i' j' : Nat}

namespace Gap

theorem new_le (h : Gap old new i j i' j') : j ≤ j' := by
  have := h.old_le
  have := h.shift
  omega

theorem refl (i j : Nat) : Gap old new i j i j := ⟨le_rfl, rfl, fun k hk => by omega⟩

theorem trans {i'' j'' : Nat} (h : Gap old new i j i' j') (h' : Gap old new i' j' i'' j'') :
    Gap old new i j i'' j'' := by
  have hle := h.old_le
  have hle' := h'.old_le
  have hshift := h.shift
  have hshift' := h'.shift
  refine ⟨by omega, by omega, fun k hk => ?_⟩
  by_cases hlt : k < i' - i
  · exact h.same k hlt
  · have hsame := h'.same (k - (i' - i)) (by omega)
    have hold : i' + (k - (i' - i)) = i + k := by omega
    have hnew : j' + (k - (i' - i)) = j + k := by omega
    rwa [hold, hnew] at hsame

theorem cut (h : Gap old new i j i' j') {n : Nat} (hn : n ≤ i' - i) :
    Gap old new i j (i + n) (j + n) ∧ Gap old new (i + n) (j + n) i' j' := by
  have hle := h.old_le
  have hshift := h.shift
  refine ⟨⟨by omega, by omega, fun k hk => h.same k (by omega)⟩, by omega, by omega, fun k hk => ?_⟩
  have hsame := h.same (n + k) (by omega)
  rwa [← Nat.add_assoc, ← Nat.add_assoc] at hsame

theorem comp {l l' : Nat} (h : Gap old mid i j i' j') (h' : Gap mid new j l j' l') :
    Gap old new i l i' l' := by
  have hshift := h.shift
  have hshift' := h'.shift
  exact ⟨h.old_le, by omega, fun k hk => (h.same k hk).trans (h'.same k (by omega))⟩

theorem slice_eq (h : Gap old new i j i' j') : slice old i i' = slice new j j' := by
  have hshift := h.shift
  have hle := h.old_le
  apply List.ext_getElem?
  intro k
  unfold slice
  rw [List.getElem?_drop, List.getElem?_drop, List.getElem?_take, List.getElem?_take]
  by_cases hk : k < i' - i
  · rw [if_pos (by omega), if_pos (by omega)]
    exact h.same k hk
  · rw [if_neg (by omega), if_neg (by omega)]

theorem of_slice_eq (hle : i ≤ i') (hshift : j' + i = j + i') (h : slice old i i' = slice new j j') :
    Gap old new i j i' j' := by
  refine ⟨hle, hshift, fun k hk => ?_⟩
  have hget : (slice old i i')[k]? = (slice new j j')[k]? := by rw [h]
  unfold slice at hget
  rw [List.getElem?_drop, List.getElem?_drop, List.getElem?_take, List.getElem?_take,
    if_pos (by omega), if_pos (by omega)] at hget
  exact hget

end Gap

theorem Spans.le {patch : Patch} (h : Spans old new i j patch i' j') : i ≤ i' ∧ j ≤ j' := by
  induction patch generalizing i j with
  | nil => exact ⟨h.old_le, h.new_le⟩
  | cons edit edits ih =>
    obtain ⟨hgap, hold, hnew, hrest⟩ := h
    have := ih hrest
    have := hgap.old_le
    have := hgap.new_le
    omega

theorem Spans.extend {patch : Patch} {i'' j'' : Nat} (h : Spans old new i j patch i' j')
    (hgap : Gap old new i' j' i'' j'') : Spans old new i j patch i'' j'' := by
  induction patch generalizing i j with
  | nil => exact Gap.trans h hgap
  | cons edit edits ih => exact ⟨h.1, h.2.1, h.2.2.1, ih h.2.2.2⟩

theorem slice_append_drop (xs : List β) {start stop : Nat} (h : start ≤ stop) :
    slice xs start stop ++ xs.drop stop = xs.drop start := by
  have htake : xs.take start = (xs.take stop).take start := by rw [List.take_take, min_eq_left h]
  conv_rhs => rw [← List.take_append_drop stop xs]
  by_cases hlen : start ≤ (xs.take stop).length
  · rw [List.drop_append_of_le_length hlen, slice]
  · rw [List.length_take] at hlen
    have hnil : xs.drop stop = [] := List.drop_eq_nil_of_le (by omega)
    rw [slice, hnil, List.append_nil, List.append_nil]

theorem slice_length {xs : List β} {start stop : Nat} (h : stop ≤ xs.length) :
    (slice xs start stop).length = stop - start := by
  rw [slice, List.length_drop, List.length_take, min_eq_left h]

theorem Spans.apply_from_eq {patch : Patch} (h : Spans old new i j patch old.length new.length) :
    apply_from old new i patch = new.drop j := by
  induction patch generalizing i j with
  | nil =>
    have heq := Gap.slice_eq h
    rw [slice, slice, List.take_length, List.take_length] at heq
    exact heq
  | cons edit edits ih =>
    obtain ⟨hgap, hold, hnew, hrest⟩ := h
    rw [apply_from, ih hrest, hgap.slice_eq, List.append_assoc, slice_append_drop _ hnew,
      slice_append_drop _ hgap.new_le]

private theorem Spans.consistent {patch : Patch} (h : Spans old new i j patch i' j') {delta : Int}
    (hdelta : (j : Int) = i + delta) : Consistent delta patch := by
  induction patch generalizing i j delta with
  | nil => trivial
  | cons edit edits ih =>
    obtain ⟨hgap, hold, hnew, hrest⟩ := h
    have hshift := hgap.shift
    have hle := hgap.old_le
    refine ⟨by omega, ih hrest ?_⟩
    unfold Edit.new_len Edit.old_len
    omega

theorem Spans.bounds {patch : Patch} (h : Spans old new i j patch i' j') :
    ∀ edit ∈ patch, (edit.old.start ≤ edit.old.stop ∧ edit.new.start ≤ edit.new.stop) ∧
      (i ≤ edit.old.start ∧ edit.old.stop ≤ i') ∧ j ≤ edit.new.start ∧ edit.new.stop ≤ j' := by
  induction patch generalizing i j with
  | nil => simp
  | cons first edits ih =>
    obtain ⟨hgap, hold, hnew, hrest⟩ := h
    have hle := hrest.le
    have hgapo := hgap.old_le
    have hgapn := hgap.new_le
    intro edit hedit
    rcases List.mem_cons.mp hedit with rfl | hedit
    · omega
    · have := ih hrest edit hedit
      omega

private theorem Spans.separate {patch : Patch} (h : Spans old new i j patch i' j')
    (hseparate : patch.Separate) :
    patch.Pairwise fun x y => x.old.stop < y.old.start ∧ x.new.stop < y.new.start := by
  induction patch generalizing i j with
  | nil => exact List.Pairwise.nil
  | cons first edits ih =>
    obtain ⟨hgap, hold, hnew, hrest⟩ := h
    obtain ⟨hfirst, htail⟩ := List.pairwise_cons.mp hseparate
    refine List.pairwise_cons.mpr ⟨fun edit hedit => ⟨hfirst edit hedit, ?_⟩, ih hrest htail⟩
    cases edits with
    | nil => cases hedit
    | cons second edits =>
      obtain ⟨hgap', hold', hnew', hrest'⟩ := hrest
      have hlt := hfirst second List.mem_cons_self
      have hshift := hgap'.shift
      rcases List.mem_cons.mp hedit with rfl | hedit
      · omega
      · have := (hrest'.bounds edit hedit).2.2
        omega

theorem takes_of_spans {patch : Patch} (h : Spans old new 0 0 patch old.length new.length)
    (hseparate : patch.Separate) : patch.Takes old new :=
  { wellFormed :=
      { ordered := fun edit hedit => (h.bounds edit hedit).1
        separate := h.separate hseparate
        consistent := h.consistent (by simp) }
    bounded := fun edit hedit => ⟨(h.bounds edit hedit).2.1.2, (h.bounds edit hedit).2.2.2⟩
    applies := by simpa using h.apply_from_eq }

private theorem spans_of_applies {patch : Patch} {delta : Int} (hj : (j : Int) = i + delta)
    (hordered : ∀ edit ∈ patch, edit.old.start ≤ edit.old.stop ∧ edit.new.start ≤ edit.new.stop)
    (hbounded : ∀ edit ∈ patch, edit.old.stop ≤ old.length ∧ edit.new.stop ≤ new.length)
    (hnext : ∀ edit ∈ patch, i ≤ edit.old.start) (hseparate : patch.Separate)
    (hconsistent : Consistent delta patch) (hi : i ≤ old.length) (hjlen : j ≤ new.length)
    (happlies : apply_from old new i patch = new.drop j) :
    Spans old new i j patch old.length new.length := by
  induction patch generalizing i j delta with
  | nil =>
    rw [apply_from] at happlies
    have hlen := congrArg List.length happlies
    rw [List.length_drop, List.length_drop] at hlen
    refine Gap.of_slice_eq hi (by omega) ?_
    rw [slice, slice, List.take_length, List.take_length]
    exact happlies
  | cons edit edits ih =>
    obtain ⟨hstart, hrest⟩ := hconsistent
    obtain ⟨hfirst, htail⟩ := List.pairwise_cons.mp hseparate
    have hle := hnext edit List.mem_cons_self
    have hord := hordered edit List.mem_cons_self
    have hbound := hbounded edit List.mem_cons_self
    rw [apply_from, List.append_assoc, ← slice_append_drop new (show j ≤ edit.new.start by omega)]
      at happlies
    -- the two texts agree up to the edit, and what follows is the new range
    obtain ⟨hgap, hafter⟩ := List.append_inj happlies (by
      rw [slice_length (by omega), slice_length (by omega)]
      omega)
    rw [← slice_append_drop new hord.2] at hafter
    refine ⟨Gap.of_slice_eq hle (by omega) hgap, hord.1, hord.2, ih ?_
      (fun later hlater => hordered later (List.mem_cons_of_mem edit hlater))
      (fun later hlater => hbounded later (List.mem_cons_of_mem edit hlater))
      (fun later hlater => (hfirst later hlater).le) htail hrest hbound.1 hbound.2
      (List.append_cancel_left hafter)⟩
    unfold Edit.new_len Edit.old_len
    omega

theorem Takes.spans {patch : Patch} (h : patch.Takes old new) :
    Spans old new 0 0 patch old.length new.length :=
  spans_of_applies (by simp) h.wellFormed.ordered h.bounded (fun _ _ => Nat.zero_le _)
    (h.wellFormed.separate.imp fun hxy => hxy.1) h.wellFormed.consistent (Nat.zero_le _)
    (Nat.zero_le _) (by simpa using h.applies)

theorem Takes.separate {patch : Patch} (h : patch.Takes old new) : patch.Separate :=
  h.wellFormed.separate.imp fun hxy => hxy.1

end semantics

end Patch

end zed.text
