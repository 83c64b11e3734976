import Mathlib

namespace zed.replicated

variable {Id : Type} {prior : Id → Id → Prop} {origin : Id → Option Id}

/-- Where an element with the given origin may follow `before`: its origin
    occurs there, and everything after the origin goes before the element. -/
def Follows (prior : Id → Id → Prop) (origin : Option Id) (n : Id) (before : List Id) : Prop :=
  match origin with
  | none => ∀ m ∈ before, prior m n
  | some p => ∃ left right, before = left ++ p :: right ∧ ∀ m ∈ right, prior m n

/-- Every element of `seq` follows what stands before it, `left` included. -/
def RootedAfter (prior : Id → Id → Prop) (origin : Id → Option Id) (left seq : List Id) : Prop :=
  ∀ before n after, seq = before ++ n :: after → Follows prior (origin n) n (left ++ before)

/-- A sequence grown by insertion to the right of an origin: between an element
    and the element it was inserted after stand only elements prior to it. -/
def Rooted (prior : Id → Id → Prop) (origin : Id → Option Id) (seq : List Id) : Prop :=
  ∀ before n after, seq = before ++ n :: after → Follows prior (origin n) n before

theorem rootedAfter_nil {seq : List Id} :
    RootedAfter prior origin [] seq ↔ Rooted prior origin seq := by
  simp [RootedAfter, Rooted]

theorem rootedAfter_append {left middle right : List Id} :
    RootedAfter prior origin left (middle ++ right) ↔
      RootedAfter prior origin left middle ∧ RootedAfter prior origin (left ++ middle) right := by
  constructor
  · intro h
    refine ⟨fun before n after hsplit => h before n (after ++ right) (by simp [hsplit]), ?_⟩
    intro before n after hsplit
    rw [List.append_assoc]
    exact h (middle ++ before) n after (by simp [hsplit])
  · rintro ⟨hmiddle, hright⟩ before n after hsplit
    rcases List.append_eq_append_iff.mp hsplit with ⟨tail, rfl, htail⟩ | ⟨tail, hbefore, htail⟩
    · rw [← List.append_assoc]
      exact hright tail n after htail
    · cases tail with
      | nil =>
        have h := hright [] n after (by simpa using htail.symm)
        simpa [hbefore] using h
      | cons m tail =>
        simp only [List.cons_append, List.cons.injEq] at htail
        exact hmiddle before n tail (by rw [hbefore, htail.1])

theorem rooted_append {left right : List Id} :
    Rooted prior origin (left ++ right) ↔
      Rooted prior origin left ∧ RootedAfter prior origin left right := by
  rw [← rootedAfter_nil, rootedAfter_append, rootedAfter_nil, List.nil_append]

theorem Follows.filter {root : Option Id} {n : Id} {before : List Id}
    (h : Follows prior root n before) (keep : Id → Bool)
    (hkeep : ∀ p, root = some p → keep p = true) : Follows prior root n (before.filter keep) := by
  cases root with
  | none => exact fun m hm => h m (List.mem_filter.mp hm).1
  | some p =>
    obtain ⟨left, right, rfl, hright⟩ := h
    refine ⟨left.filter keep, right.filter keep, ?_, fun m hm => hright m (List.mem_filter.mp hm).1⟩
    rw [List.filter_append, List.filter_cons_of_pos (hkeep p rfl)]

theorem Follows.append {root : Option Id} {n : Id} {before extra : List Id}
    (h : Follows prior root n before) (hextra : ∀ m ∈ extra, prior m n) :
    Follows prior root n (before ++ extra) := by
  cases root with
  | none =>
    intro m hm
    rcases List.mem_append.mp hm with hm | hm
    · exact h m hm
    · exact hextra m hm
  | some p =>
    obtain ⟨front, back, rfl, hback⟩ := h
    refine ⟨front, back ++ extra, by simp, fun m hm => ?_⟩
    rcases List.mem_append.mp hm with hm | hm
    · exact hback m hm
    · exact hextra m hm

theorem Rooted.filter {seq : List Id} (h : Rooted prior origin seq) (keep : Id → Bool)
    (hclosed : ∀ n ∈ seq, keep n = true → ∀ p, origin n = some p → keep p = true) :
    Rooted prior origin (seq.filter keep) := by
  intro before n after hsplit
  obtain ⟨left, right, rfl, hleft, hright⟩ := List.filter_eq_append_iff.mp hsplit
  obtain ⟨skipped, rest, rfl, hskipped, hn, _⟩ := List.filter_eq_cons_iff.mp hright
  have hfollows := (h (left ++ skipped) n rest (by simp)).filter keep
    (fun p hp => hclosed n (by simp) hn p hp)
  have hnone : skipped.filter keep = [] := by
    rw [List.filter_eq_nil_iff]
    exact hskipped
  rwa [List.filter_append, hnone, List.append_nil, hleft] at hfollows

theorem exists_first [IsStrictOrder Id prior] (x : Id) (seq : List Id) :
    ∃ m ∈ x :: seq, ∀ y ∈ x :: seq, ¬ prior y m := by
  induction seq generalizing x with
  | nil => exact ⟨x, by simp, by simpa using irrefl_of prior x⟩
  | cons y seq ih =>
    obtain ⟨m, hm, hmin⟩ := ih y
    by_cases hx : prior x m
    · refine ⟨x, by simp, fun z hz hzx => ?_⟩
      rcases List.mem_cons.mp hz with rfl | hz
      · exact irrefl_of prior z hzx
      · exact hmin z hz (trans_of prior hzx hx)
    · refine ⟨m, List.mem_cons_of_mem _ hm, fun z hz => ?_⟩
      rcases List.mem_cons.mp hz with rfl | hz
      · exact hx
      · exact hmin z hz

/-- The element nothing is prior to stands at the front, or directly after its
    origin. -/
private theorem Rooted.split_first {seq : List Id} (h : Rooted prior origin seq) {m : Id}
    (hm : m ∈ seq) (hfirst : ∀ y ∈ seq, ¬ prior y m) :
    (origin m = none ∧ ∃ after, seq = m :: after) ∨
      ∃ p left after, origin m = some p ∧ seq = left ++ p :: m :: after := by
  obtain ⟨before, after, rfl⟩ := List.append_of_mem hm
  have hfollows := h before m after rfl
  cases hroot : origin m with
  | none =>
    rw [hroot] at hfollows
    have hnil : before = [] := by
      rw [List.eq_nil_iff_forall_not_mem]
      intro y hy
      exact hfirst y (by simp [hy]) (hfollows y hy)
    exact Or.inl ⟨rfl, after, by simp [hnil]⟩
  | some p =>
    rw [hroot] at hfollows
    obtain ⟨left, right, rfl, hright⟩ := hfollows
    have hnil : right = [] := by
      rw [List.eq_nil_iff_forall_not_mem]
      intro y hy
      exact hfirst y (by simp [hy]) (hright y hy)
    exact Or.inr ⟨p, left, after, rfl, by simp [hnil]⟩

private theorem filter_ne_eq {left right : List Id} {m : Id} [DecidableEq Id]
    (hnodup : (left ++ m :: right).Nodup) :
    (left ++ m :: right).filter (fun x => decide (x ≠ m)) = left ++ right := by
  rw [List.nodup_append] at hnodup
  obtain ⟨_, hright, hdisjoint⟩ := hnodup
  have hl : left.filter (fun x => decide (x ≠ m)) = left := by
    rw [List.filter_eq_self]
    intro x hx
    simpa using hdisjoint x hx m (by simp)
  have hr : right.filter (fun x => decide (x ≠ m)) = right := by
    rw [List.filter_eq_self]
    intro x hx
    have hne : x ≠ m := fun heq => (List.nodup_cons.mp hright).1 (heq ▸ hx)
    simpa using hne
  rw [List.filter_append, List.filter_cons_of_neg (by simp), hl, hr]

/-- The origins and the priorities determine the sequence: two rooted
    sequences of the same elements are equal. -/
theorem Rooted.unique [IsStrictOrder Id prior] (hbelow : ∀ n p, origin n = some p → prior n p)
    {first second : List Id} (hfirst : Rooted prior origin first) (hsecond : Rooted prior origin second)
    (hnodup : first.Nodup) (hnodup' : second.Nodup) (hmem : ∀ x, x ∈ first ↔ x ∈ second) :
    first = second := by
  classical
  induction hlength : first.length generalizing first second with
  | zero =>
    have hnil : first = [] := List.eq_nil_of_length_eq_zero hlength
    subst hnil
    exact (List.eq_nil_iff_forall_not_mem.mpr fun x hx => by simpa using (hmem x).mpr hx).symm
  | succ length ih =>
    obtain ⟨x, rest, rfl⟩ := List.exists_cons_of_length_eq_add_one hlength
    obtain ⟨m, hm, hmin⟩ : ∃ m ∈ x :: rest, ∀ y ∈ x :: rest, ¬ prior y m := exists_first x rest
    have hm' : m ∈ second := (hmem m).mp hm
    have hmin' : ∀ y ∈ second, ¬ prior y m := fun y hy => hmin y ((hmem y).mpr hy)
    -- nothing has `m` as its origin, so `m` can be taken out of both
    have hclosed : ∀ (seq : List Id), (∀ y ∈ seq, ¬ prior y m) → ∀ n ∈ seq,
        decide (n ≠ m) = true → ∀ p, origin n = some p → decide (p ≠ m) = true := by
      intro seq hseq n hn _ p hp
      have hne : p ≠ m := by
        rintro rfl
        exact hseq n hn (hbelow n p hp)
      simpa using hne
    have hrest : (x :: rest).filter (fun y => decide (y ≠ m)) =
        second.filter (fun y => decide (y ≠ m)) := by
      apply ih (hfirst.filter _ (hclosed _ hmin)) (hsecond.filter _ (hclosed _ hmin'))
        (hnodup.filter _) (hnodup'.filter _)
      · intro y
        simp only [List.mem_filter, hmem y]
      · obtain ⟨left, right, hsplit⟩ := List.append_of_mem hm
        rw [hsplit] at hlength hnodup ⊢
        rw [filter_ne_eq hnodup]
        simp only [List.length_append, List.length_cons] at hlength ⊢
        omega
    rcases hfirst.split_first hm hmin with ⟨hroot, after, hsplit⟩ | ⟨p, left, after, hroot, hsplit⟩
    · rcases hsecond.split_first hm' hmin' with ⟨_, after', hsplit'⟩ | ⟨p', _, _, hroot', _⟩
      · rw [hsplit, hsplit'] at hrest ⊢
        rw [hsplit] at hnodup
        rw [hsplit'] at hnodup'
        have hcons : ∀ r : List Id, m :: r = [] ++ m :: r := fun _ => rfl
        rw [hcons] at hnodup hnodup' hrest
        rw [hcons after', filter_ne_eq hnodup, filter_ne_eq hnodup', List.nil_append,
          List.nil_append] at hrest
        rw [hrest]
      · rw [hroot] at hroot'
        cases hroot'
    · rcases hsecond.split_first hm' hmin' with ⟨hroot', _, _⟩ | ⟨p', left', after', hroot', hsplit'⟩
      · rw [hroot] at hroot'
        cases hroot'
      · rw [hroot] at hroot'
        cases hroot'
        rw [hsplit, hsplit'] at hrest ⊢
        rw [hsplit] at hnodup
        rw [hsplit'] at hnodup'
        have hcons : ∀ (l r : List Id), l ++ p :: m :: r = (l ++ [p]) ++ m :: r := by simp
        rw [hcons] at hnodup hnodup' hrest
        rw [hcons left', filter_ne_eq hnodup, filter_ne_eq hnodup'] at hrest
        simp only [List.append_assoc, List.singleton_append] at hrest
        have hnodup0 : (left ++ p :: after).Nodup := by
          refine hnodup.sublist ?_
          simp
        have hp : p ∉ left ∧ p ∉ after := by
          rw [List.nodup_append, List.nodup_cons] at hnodup0
          exact ⟨fun hp => hnodup0.2.2 p hp p (by simp) rfl, hnodup0.2.1.1⟩
        obtain ⟨hl, _, hr⟩ := (List.append_cons_inj_of_notMem hp.1 hp.2).mp hrest
        rw [hl, hr]

private theorem rootedAfter_block {left block : List Id} {root : Option Id}
    (hroot : ∀ n ∈ block, origin n = root) (hleft : ∀ n ∈ block, Follows prior root n left)
    (hblock : block.Pairwise prior) : RootedAfter prior origin left block := by
  rintro before n after rfl
  rw [hroot n (by simp)]
  rw [List.pairwise_append] at hblock
  exact (hleft n (by simp)).append fun m hm => hblock.2.2 m hm n (by simp)

private theorem Follows.insert [IsTrans Id prior] {left block tail : List Id} {n : Id}
    {root : Option Id} (h : Follows prior root n (left ++ tail))
    (hnext : ∀ m ∈ block, prior m (tail.headD n)) : Follows prior root n (left ++ block ++ tail) := by
  -- whatever the first element of the tail is prior to, the block is prior to
  have hpass : (∀ e rest, tail = e :: rest → prior e n) → ∀ m ∈ block, prior m n := by
    intro hhead m hm
    cases tail with
    | nil => exact hnext m hm
    | cons e rest => exact trans_of prior (hnext m hm) (hhead e rest rfl)
  cases root with
  | none =>
    intro m hm
    simp only [List.mem_append] at hm
    rcases hm with (hm | hm) | hm
    · exact h m (by simp [hm])
    · exact hpass (fun e rest htail => h e (by simp [htail])) m hm
    · exact h m (by simp [hm])
  | some p =>
    obtain ⟨front, back, hsplit, hback⟩ := h
    rcases List.append_eq_append_iff.mp hsplit with ⟨between, rfl, hbetween⟩ | ⟨between, rfl, hbetween⟩
    · exact ⟨left ++ block ++ between, back, by simp [hbetween], hback⟩
    · cases between with
      | nil => exact ⟨front ++ block, back, by simpa using hbetween.symm, hback⟩
      | cons q between =>
        simp only [List.cons_append, List.cons.injEq] at hbetween
        obtain ⟨rfl, rfl⟩ := hbetween
        refine ⟨front, between ++ block ++ tail, by simp, fun m hm => ?_⟩
        simp only [List.mem_append] at hm
        rcases hm with (hm | hm) | hm
        · exact hback m (by simp [hm])
        · exact hpass (fun e rest htail => hback e (by simp [htail])) m hm
        · exact hback m (by simp [hm])

theorem Rooted.insert [IsTrans Id prior] {left block right : List Id} {root : Option Id}
    (h : Rooted prior origin (left ++ right)) (hroot : ∀ n ∈ block, origin n = root)
    (hleft : ∀ n ∈ block, Follows prior root n left) (hblock : block.Pairwise prior)
    (hright : ∀ e ∈ right.head?, ∀ n ∈ block, prior n e) :
    Rooted prior origin (left ++ block ++ right) := by
  obtain ⟨hbefore, hafter⟩ := rooted_append.mp h
  refine rooted_append.mpr ⟨rooted_append.mpr ⟨hbefore, rootedAfter_block hroot hleft hblock⟩, ?_⟩
  rintro before n after rfl
  refine (hafter before n after rfl).insert fun m hm => ?_
  cases before with
  | nil => exact hright n (by simp) m hm
  | cons e rest => exact hright e (by simp) m hm

end zed.replicated
