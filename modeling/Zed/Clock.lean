import Mathlib

namespace zed.clock

def ReplicaId.LOCAL : Nat := 0

/-- A Lamport timestamp, used to determine the ordering of events in the
    editor. The replica id breaks ties between concurrent events. -/
structure Lamport where
  value : Nat
  replica_id : Nat
deriving DecidableEq, Repr

namespace Lamport

instance : LinearOrder Lamport :=
  LinearOrder.lift' (fun t => toLex (t.value, t.replica_id)) (by
    intro a b h
    cases a
    cases b
    simpa using h)

theorem lt_iff {a b : Lamport} :
    a < b ↔ a.value < b.value ∨ a.value = b.value ∧ a.replica_id < b.replica_id :=
  Prod.Lex.lt_iff

theorem lt_of_value_lt {a b : Lamport} (h : a.value < b.value) : a < b :=
  lt_iff.mpr (Or.inl h)

def MIN : Lamport := { replica_id := 0, value := 0 }

def MAX : Lamport := { replica_id := 65535, value := 4294967295 }

theorem MIN_le (t : Lamport) : MIN ≤ t := by
  rcases lt_trichotomy t MIN with hlt | rfl | hlt
  · rcases lt_iff.mp hlt with h | ⟨_, h⟩ <;> simp [MIN] at h
  · exact le_rfl
  · exact hlt.le

def new (replica_id : Nat) : Lamport := { value := 1, replica_id }

/-- The timestamp handed out and the clock left behind. -/
def tick (clock : Lamport) : Lamport × Lamport :=
  (clock, { clock with value := clock.value + 1 })

def observe (clock timestamp : Lamport) : Lamport :=
  { clock with value := max clock.value timestamp.value + 1 }

end Lamport

/-- `values.resize(n + 1, 0)` when the vector is shorter, then
    `values[n] = max(values[n], value)`. -/
def observeValues : List Nat → Nat → Nat → List Nat
  | [], 0, value => [value]
  | [], n + 1, value => 0 :: observeValues [] n value
  | x :: xs, 0, value => max x value :: xs
  | x :: xs, n + 1, value => x :: observeValues xs n value

theorem observeValues_ne_nil (values : List Nat) (n : Nat) (value : Nat) :
    observeValues values n value ≠ [] := by
  cases values <;> cases n <;> simp [observeValues]

theorem observeValues_getD (values : List Nat) (n : Nat) (value : Nat) (i : Nat) :
    (observeValues values n value).getD i 0 =
      if i = n then max (values.getD i 0) value else values.getD i 0 := by
  fun_induction observeValues values n value generalizing i with
  | case1 value => cases i <;> simp
  | case2 n value ih =>
    cases i with
    | zero => simp
    | succ i => simpa using ih i
  | case3 x xs value => cases i <;> simp
  | case4 x xs n value ih =>
    cases i with
    | zero => simp
    | succ i => simpa using ih i

theorem observeValues_trimmed {values : List Nat} {n : Nat} {value : Nat} (hvalue : 0 < value)
    (htrimmed : values.getLast? ≠ some 0) : (observeValues values n value).getLast? ≠ some 0 := by
  fun_induction observeValues values n value with
  | case1 value => simp; omega
  | case2 n value ih =>
    have h := ih hvalue (by simp)
    rw [List.getLast?_cons_of_ne_nil (observeValues_ne_nil _ _ _)]
    exact h
  | case3 x xs value =>
    cases xs with
    | nil => simp; omega
    | cons y ys => simpa using htrimmed
  | case4 x xs n value ih =>
    have htail : xs.getLast? ≠ some 0 := by
      cases xs with
      | nil => simp
      | cons y ys => simpa using htrimmed
    rw [List.getLast?_cons_of_ne_nil (observeValues_ne_nil _ _ _)]
    exact ih hvalue htail

/-- Elementwise maximum of two vectors, the shorter one padded with zeros. -/
def joinValues : List Nat → List Nat → List Nat
  | [], right => right
  | left, [] => left
  | x :: left, y :: right => max x y :: joinValues left right

theorem joinValues_getD (left right : List Nat) (i : Nat) :
    (joinValues left right).getD i 0 = max (left.getD i 0) (right.getD i 0) := by
  fun_induction joinValues left right generalizing i with
  | case1 right => simp
  | case2 left => simp
  | case3 x left y right ih =>
    cases i with
    | zero => simp
    | succ i => simpa using ih i

theorem joinValues_trimmed {left right : List Nat} (hleft : left.getLast? ≠ some 0)
    (hright : right.getLast? ≠ some 0) : (joinValues left right).getLast? ≠ some 0 := by
  fun_induction joinValues left right with
  | case1 right => exact hright
  | case2 left => exact hleft
  | case3 x left y right ih =>
    cases left with
    | nil =>
      cases right with
      | nil =>
        simp [joinValues] at hleft hright ⊢
        omega
      | cons z right => simpa [joinValues] using hright
    | cons z left =>
      cases right with
      | nil => simpa [joinValues] using hleft
      | cons w right =>
        have h := ih (by simpa using hleft) (by simpa using hright)
        simpa [joinValues] using h

/-- One entry of `Global::meet`: an unobserved replica takes the other side. -/
def meetEntry (left right : Nat) : Nat :=
  if left = 0 then right else if right = 0 then left else min left right

/-- The entries of `Global::meet`, the shorter vector padded with zeros. -/
def meetValues : List Nat → List Nat → List Nat
  | [], right => right
  | left, [] => left
  | x :: left, y :: right => meetEntry x y :: meetValues left right

theorem meetEntry_eq_zero {left right : Nat} : meetEntry left right = 0 ↔ left = 0 ∧ right = 0 := by
  unfold meetEntry
  split
  · simp_all
  · split
    · simp_all
    · omega

theorem meetValues_trimmed {left right : List Nat} (hleft : left.getLast? ≠ some 0)
    (hright : right.getLast? ≠ some 0) : (meetValues left right).getLast? ≠ some 0 := by
  fun_induction meetValues left right with
  | case1 right => exact hright
  | case2 left => exact hleft
  | case3 x left y right ih =>
    cases left with
    | nil =>
      cases right with
      | nil =>
        have hx : x ≠ 0 := by simpa using hleft
        simp [meetValues, meetEntry_eq_zero, hx]
      | cons z right => simpa [meetValues] using hright
    | cons z left =>
      cases right with
      | nil => simpa [meetValues] using hleft
      | cons w right =>
        have h := ih (by simpa using hleft) (by simpa using hright)
        simpa [meetValues] using h

/-- A version vector. The last entry is never zero, so the vector is determined
    by the sequence numbers it records. -/
structure Global where
  values : List Nat
  trimmed : values.getLast? ≠ some 0

namespace Global

instance : DecidableEq Global := fun a b =>
  decidable_of_iff (a.values = b.values) (by cases a; cases b; simp)

def new : Global := { values := [], trimmed := by simp }

/-- Fetches the sequence number for the given replica ID. -/
def get (version : Global) (replica_id : Nat) : Nat := version.values.getD replica_id 0

/-- This sets the current sequence number of the observed replica ID to the
    maximum of this global's observed sequence and the observed timestamp. -/
def observe (version : Global) (timestamp : Lamport) : Global :=
  if h : timestamp.value > 0 then
    { values := observeValues version.values timestamp.replica_id timestamp.value
      trimmed := observeValues_trimmed h version.trimmed }
  else version

/-- This observes all timestamps from the other global. -/
def join (version other : Global) : Global :=
  { values := joinValues version.values other.values
    trimmed := joinValues_trimmed version.trimmed other.trimmed }

/-- Sets all unobserved timestamps of this global to the sequences of other and
    all observed ones to the minimum observed of both. Both vectors end in a
    non-zero entry, so the truncation of the source removes nothing. -/
def meet (version other : Global) : Global :=
  { values := meetValues version.values other.values
    trimmed := meetValues_trimmed version.trimmed other.trimmed }

def observed (version : Global) (timestamp : Lamport) : Bool :=
  decide (version.get timestamp.replica_id ≥ timestamp.value)

def observed_any (version other : Global) : Bool :=
  (version.values.zip other.values).any fun (left, right) => decide (right > 0) && decide (left ≥ right)

def observed_all (version other : Global) : Bool :=
  if version.values.length < other.values.length then false
  else (version.values.zip other.values).all fun (left, right) => decide (left ≥ right)

theorem observed_iff {version : Global} {timestamp : Lamport} :
    version.observed timestamp = true ↔ timestamp.value ≤ version.get timestamp.replica_id := by
  simp [observed]

theorem new_get (replica_id : Nat) : new.get replica_id = 0 := by simp [new, get]

theorem observe_get (version : Global) (timestamp : Lamport) (replica_id : Nat) :
    (version.observe timestamp).get replica_id =
      if replica_id = timestamp.replica_id then max (version.get replica_id) timestamp.value
      else version.get replica_id := by
  unfold observe
  split
  · exact observeValues_getD _ _ _ _
  · have hzero : timestamp.value = 0 := by omega
    simp [hzero]

theorem join_get (version other : Global) (replica_id : Nat) :
    (version.join other).get replica_id = max (version.get replica_id) (other.get replica_id) :=
  joinValues_getD _ _ _

private theorem getD_length_pred {values : List Nat} (htrimmed : values.getLast? ≠ some 0)
    (hne : values ≠ []) : 0 < values.getD (values.length - 1) 0 := by
  have hlast : values.getLast? = values[values.length - 1]? := List.getLast?_eq_getElem? ..
  rw [List.getD_eq_getElem?_getD]
  have hlt : values.length - 1 < values.length := by
    have := List.length_pos_of_ne_nil hne
    omega
  rw [List.getElem?_eq_getElem hlt] at hlast ⊢
  rw [hlast] at htrimmed
  simp only [Option.getD_some]
  have hne0 : values[values.length - 1] ≠ 0 := fun h => htrimmed (by rw [h])
  omega

theorem length_le_of_get_le {version other : Global}
    (h : ∀ replica_id : Nat, other.get replica_id ≤ version.get replica_id) :
    other.values.length ≤ version.values.length := by
  by_contra hnot
  have hne : other.values ≠ [] := by
    intro hnil
    simp [hnil] at hnot
  have hpos := getD_length_pred other.trimmed hne
  have hle := h (other.values.length - 1)
  have hzero : version.get (other.values.length - 1) = 0 := by
    unfold get
    rw [List.getD_eq_getElem?_getD, List.getElem?_eq_none (by omega)]
    rfl
  unfold get at hle hzero
  omega

theorem ext_get {version other : Global}
    (h : ∀ replica_id : Nat, version.get replica_id = other.get replica_id) : version = other := by
  have hlength : version.values.length = other.values.length :=
    le_antisymm (length_le_of_get_le fun r => (h r).le) (length_le_of_get_le fun r => (h r).ge)
  have hvalues : version.values = other.values := by
    apply List.ext_getElem hlength
    intro i hi hj
    have hget := h i
    unfold get at hget
    rwa [List.getD_eq_getElem _ _ hi, List.getD_eq_getElem _ _ hj] at hget
  cases version
  cases other
  simpa using hvalues

theorem observed_all_iff {version other : Global} :
    version.observed_all other = true ↔
      ∀ replica_id : Nat, other.get replica_id ≤ version.get replica_id := by
  unfold observed_all
  by_cases hlength : version.values.length < other.values.length
  · rw [if_pos hlength]
    refine ⟨fun h => (by cases h), fun hle => ?_⟩
    have := length_le_of_get_le hle
    omega
  rw [if_neg hlength, List.all_eq_true]
  constructor
  · intro hall replica_id
    by_cases hlt : replica_id < other.values.length
    · have hlt' : replica_id < version.values.length := by omega
      have hmem : (version.values[replica_id], other.values[replica_id]) ∈
          version.values.zip other.values := by
        rw [List.mem_iff_getElem]
        exact ⟨replica_id, by simp; omega, by simp⟩
      have hle := hall _ hmem
      unfold get
      rw [List.getD_eq_getElem _ _ hlt, List.getD_eq_getElem _ _ hlt']
      simpa using hle
    · unfold get
      rw [List.getD_eq_getElem?_getD, List.getElem?_eq_none (by omega)]
      exact Nat.zero_le _
  · intro hle pair hpair
    obtain ⟨i, hi, rfl⟩ := List.mem_iff_getElem.mp hpair
    have hlt : i < version.values.length ∧ i < other.values.length := by simpa using hi
    have h := hle i
    unfold get at h
    rw [List.getD_eq_getElem _ _ hlt.1, List.getD_eq_getElem _ _ hlt.2] at h
    simpa using h

theorem exists_of_observed_any {version other : Global} (h : version.observed_any other = true) :
    ∃ replica_id, 0 < other.get replica_id ∧ other.get replica_id ≤ version.get replica_id := by
  obtain ⟨pair, hpair, hle⟩ := List.any_eq_true.mp h
  obtain ⟨i, hi, rfl⟩ := List.mem_iff_getElem.mp hpair
  have hlt : i < version.values.length ∧ i < other.values.length := by simpa using hi
  refine ⟨i, ?_⟩
  unfold get
  rw [List.getD_eq_getElem _ _ hlt.1, List.getD_eq_getElem _ _ hlt.2]
  simpa using hle

theorem observed_all_refl (version : Global) : version.observed_all version = true :=
  observed_all_iff.mpr fun _ => le_rfl

theorem observed_all_trans {first second third : Global} (h : first.observed_all second = true)
    (h' : second.observed_all third = true) : first.observed_all third = true :=
  observed_all_iff.mpr fun r => (observed_all_iff.mp h' r).trans (observed_all_iff.mp h r)

theorem observed_of_observed_all {version other : Global} {timestamp : Lamport}
    (hall : version.observed_all other = true) (h : other.observed timestamp = true) :
    version.observed timestamp = true :=
  observed_iff.mpr ((observed_iff.mp h).trans (observed_all_iff.mp hall _))

theorem observe_observed_all (version : Global) (timestamp : Lamport) :
    (version.observe timestamp).observed_all version = true := by
  rw [observed_all_iff]
  intro r
  rw [observe_get]
  split <;> omega

theorem observe_observed_self (version : Global) (timestamp : Lamport) :
    (version.observe timestamp).observed timestamp = true := by
  rw [observed_iff, observe_get, if_pos rfl]
  omega

theorem observe_observed {version : Global} {timestamp other : Lamport} :
    (version.observe timestamp).observed other = true ↔
      version.observed other = true ∨
        (other.replica_id = timestamp.replica_id ∧ other.value ≤ timestamp.value) := by
  simp only [observed_iff, observe_get]
  by_cases h : other.replica_id = timestamp.replica_id
  · rw [if_pos h, le_max_iff]
    simp [h]
  · rw [if_neg h]
    simp [h]

end Global

end zed.clock
