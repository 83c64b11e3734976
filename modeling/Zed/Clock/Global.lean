import Zed.Clock

namespace zed.clock

/-- The `values` of a version vector, as its operations find them. -/
abbrev Values := List Nat

namespace Values

def new : Values := []

def get (values : Values) (replica_id : Nat) : Nat := values.getD replica_id 0

def resize (values : Values) (new_len : Nat) : Values := values ++ List.replicate (new_len - values.length) 0

def observe (values : Values) (timestamp : Lamport) : Values :=
  if timestamp.value > 0 then
    let values := resize values (timestamp.replica_id + 1)
    values.set timestamp.replica_id (max (get values timestamp.replica_id) timestamp.value)
  else values

/-- The loop of `join`, over the entries that both have. -/
def joinLoop : Values → Values → Values
  | left :: values, right :: other => max left right :: joinLoop values other
  | values, _ => values

def join (values other : Values) : Values := joinLoop (resize values other.length) other

/-- The loop of `meet`, and the length up to the last entry it leaves above zero. -/
def meetLoop (ix new_len : Nat) : Values → Values → Values × Nat
  | left :: values, right :: other =>
    let left := if left = 0 then right else if right = 0 then left else min left right
    let (values, new_len) := meetLoop (ix + 1) (if left ≠ 0 then ix + 1 else new_len) values other
    (left :: values, new_len)
  | values, _ => (values, new_len)

def meet (values other : Values) : Values :=
  let values := resize values other.length
  let (values, new_len) := meetLoop 0 0 values other
  if other.length = values.length then values.take new_len else values

def observed_any (values other : Values) : Bool :=
  (values.zip other).any fun (left, right) => decide (right > 0) && decide (left ≥ right)

def observed_all (values other : Values) : Bool :=
  if values.length < other.length then false
  else (values.zip other).all fun (left, right) => decide (left ≥ right)

def changed_since (values other : Values) : Bool :=
  decide (values.length > other.length) || (values.zip other).any fun (left, right) => decide (left > right)

/-- What is observed from nothing, a timestamp or another vector at a time. -/
inductive Built : Values → Prop
  | new : Built new
  | observe {values : Values} (timestamp : Lamport) : 0 < timestamp.value → Built values → Built (observe values timestamp)
  | join {values other : Values} : Built values → Built other → Built (join values other)
  | meet {values other : Values} : Built values → Built other → Built (meet values other)

theorem resize_cons_succ (left : Nat) (values : Values) (n : Nat) :
    resize (left :: values) (n + 1) = left :: resize values n := by
  simp [resize]

theorem resize_nil_succ (n : Nat) : resize [] (n + 1) = 0 :: resize [] n := by
  simp [resize, List.replicate_succ]

theorem resize_of_le {values : Values} {n : Nat} (h : n ≤ values.length) : resize values n = values := by
  rw [resize, Nat.sub_eq_zero_of_le h, List.replicate_zero, List.append_nil]

theorem observe_eq (values : Values) {timestamp : Lamport} (h : 0 < timestamp.value) :
    observe values timestamp = observeValues values timestamp.replica_id timestamp.value := by
  obtain ⟨value, replica_id⟩ := timestamp
  have hvalue : value > 0 := h
  rw [observe, if_pos hvalue]
  dsimp only
  induction replica_id generalizing values with
  | zero =>
    cases values with
    | nil => simp [resize, get, observeValues]
    | cons left values => simp [resize, get, observeValues]
  | succ replica_id ih =>
    cases values with
    | nil =>
      have h := ih [] hvalue
      rw [resize_nil_succ, List.set_cons_succ, observeValues, ← h]
      rfl
    | cons left values =>
      have h := ih values hvalue
      rw [resize_cons_succ, List.set_cons_succ, observeValues, ← h]
      rfl

theorem join_eq (values other : Values) : join values other = joinValues values other := by
  induction other generalizing values with
  | nil => cases values <;> simp [join, joinLoop, resize_of_le, joinValues]
  | cons right other ih =>
    cases values with
    | nil =>
      have h := ih []
      rw [join, List.length_cons, resize_nil_succ, joinLoop, ← join, h]
      cases other <;> simp [joinValues]
    | cons left values =>
      have h := ih values
      rw [join, List.length_cons, resize_cons_succ, joinLoop, ← join, h, joinValues]

theorem meetLoop_fst (ix new_len : Nat) (values other : Values) :
    (meetLoop ix new_len (resize values other.length) other).1 = meetValues values other := by
  induction other generalizing ix new_len values with
  | nil => cases values <;> simp [meetLoop, resize_of_le, meetValues]
  | cons right other ih =>
    cases values with
    | nil =>
      rw [List.length_cons, resize_nil_succ, meetLoop]
      dsimp only
      rw [ih, if_pos rfl]
      cases other <;> simp [meetValues]
    | cons left values =>
      rw [List.length_cons, resize_cons_succ, meetLoop, meetValues]
      dsimp only
      rw [ih]
      rfl

theorem meetLoop_length (ix new_len : Nat) (values other : Values) :
    (meetLoop ix new_len values other).1.length = values.length := by
  induction values generalizing ix new_len other with
  | nil => rfl
  | cons left values ih =>
    cases other with
    | nil => rfl
    | cons right other => exact congrArg Nat.succ (ih _ _ other)

theorem meetLoop_snd (ix new_len : Nat) {values other : Values} (hlength : values.length = other.length)
    (hne : values ≠ []) (htrimmed : (meetLoop ix new_len values other).1.getLast? ≠ some 0) :
    (meetLoop ix new_len values other).2 = ix + values.length := by
  induction values generalizing ix new_len other with
  | nil => exact absurd rfl hne
  | cons left values ih =>
    cases other with
    | nil => cases hlength
    | cons right other =>
      rw [meetLoop] at htrimmed ⊢
      dsimp only at htrimmed ⊢
      have hlength : values.length = other.length := Nat.succ.inj hlength
      rcases eq_or_ne values [] with rfl | hrest
      · obtain rfl := List.length_eq_zero_iff.mp hlength.symm
        rw [if_pos]
        · rfl
        · simpa [meetLoop] using htrimmed
      · have hlast : (meetLoop (ix + 1) (if (if left = 0 then right else if right = 0 then left else min left right) ≠ 0
            then ix + 1 else new_len) values other).1 ≠ [] := by
          rw [← List.length_pos_iff, meetLoop_length]
          exact List.length_pos_iff.mpr hrest
        rw [List.getLast?_cons_of_ne_nil hlast] at htrimmed
        rw [ih _ _ hlength hrest htrimmed, List.length_cons]
        omega

theorem meet_eq {values other : Values} (hvalues : values.getLast? ≠ some 0) (hother : other.getLast? ≠ some 0) :
    meet values other = meetValues values other := by
  have htrimmed := meetValues_trimmed hvalues hother
  rw [← meetLoop_fst 0 0] at htrimmed
  rw [meet]
  dsimp only
  rw [← meetLoop_fst 0 0 values other]
  split
  · rename_i hlength
    rw [meetLoop_length] at hlength
    rcases eq_or_ne (resize values other.length) [] with hnil | hne
    · rw [hnil]
      rfl
    · rw [meetLoop_snd 0 0 hlength.symm hne htrimmed, Nat.zero_add,
        List.take_of_length_le (by rw [meetLoop_length])]
  · rfl

theorem Built.exists_global {values : Values} (h : Built values) : ∃ version : Global, version.values = values := by
  induction h with
  | new => exact ⟨Global.new, rfl⟩
  | @observe values timestamp hpos _ ih =>
    obtain ⟨version, rfl⟩ := ih
    refine ⟨version.observe timestamp, ?_⟩
    rw [Global.observe, dif_pos hpos, observe_eq _ hpos]
  | join _ _ ih ih' =>
    obtain ⟨version, rfl⟩ := ih
    obtain ⟨other, rfl⟩ := ih'
    exact ⟨version.join other, (join_eq _ _).symm⟩
  | meet _ _ ih ih' =>
    obtain ⟨version, rfl⟩ := ih
    obtain ⟨other, rfl⟩ := ih'
    exact ⟨version.meet other, (meet_eq version.trimmed other.trimmed).symm⟩

end Values

theorem meetValues_getD (left right : List Nat) (i : Nat) :
    (meetValues left right).getD i 0 = meetEntry (left.getD i 0) (right.getD i 0) := by
  fun_induction meetValues left right generalizing i with
  | case1 right => simp [meetEntry]
  | case2 left =>
    rw [List.getD_nil, meetEntry]
    split
    · assumption
    · rfl
  | case3 x left y right ih =>
    cases i with
    | zero => simp
    | succ i => simpa using ih i

theorem meetEntry_comm (left right : Nat) : meetEntry left right = meetEntry right left := by
  unfold meetEntry
  split <;> split <;> omega

theorem meetEntry_assoc (first second third : Nat) :
    meetEntry (meetEntry first second) third = meetEntry first (meetEntry second third) := by
  unfold meetEntry
  grind

namespace Global

theorem meet_get (version other : Global) (replica_id : Nat) :
    (version.meet other).get replica_id = meetEntry (version.get replica_id) (other.get replica_id) :=
  meetValues_getD _ _ _

theorem meet_comm (version other : Global) : version.meet other = other.meet version :=
  ext_get fun replica_id => by rw [meet_get, meet_get, meetEntry_comm]

theorem meet_assoc (first second third : Global) : (first.meet second).meet third = first.meet (second.meet third) :=
  ext_get fun replica_id => by rw [meet_get, meet_get, meet_get, meet_get, meetEntry_assoc]

theorem meet_self (version : Global) : version.meet version = version :=
  ext_get fun replica_id => by
    rw [meet_get, meetEntry]
    split
    · rfl
    · exact min_self _

theorem new_meet (version : Global) : new.meet version = version :=
  ext_get fun replica_id => by rw [meet_get, new_get, meetEntry, if_pos rfl]

theorem meet_new (version : Global) : version.meet new = version := by rw [meet_comm, new_meet]

theorem join_assoc (first second third : Global) : (first.join second).join third = first.join (second.join third) :=
  ext_get fun replica_id => by rw [join_get, join_get, join_get, join_get, max_assoc]

theorem new_join (version : Global) : new.join version = version :=
  ext_get fun replica_id => by rw [join_get, new_get, Nat.zero_max]

theorem observed_any_iff {version other : Global} :
    version.observed_any other = true ↔
      ∃ replica_id, 0 < other.get replica_id ∧ other.get replica_id ≤ version.get replica_id := by
  refine ⟨exists_of_observed_any, fun ⟨replica_id, hpos, hle⟩ => ?_⟩
  have hother : replica_id < other.values.length := by
    by_contra hnot
    rw [get, List.getD_eq_default _ _ (Nat.le_of_not_lt hnot)] at hpos
    exact lt_irrefl 0 hpos
  have hversion : replica_id < version.values.length := by
    by_contra hnot
    rw [get, get, List.getD_eq_default version.values _ (Nat.le_of_not_lt hnot)] at hle
    rw [get] at hpos
    omega
  rw [get, List.getD_eq_getElem _ _ hother] at hpos hle
  rw [get, List.getD_eq_getElem _ _ hversion] at hle
  refine List.any_eq_true.mpr ⟨(version.values[replica_id], other.values[replica_id]), ?_, ?_⟩
  · rw [List.mem_iff_getElem]
    exact ⟨replica_id, by simp; omega, by simp⟩
  · simpa using ⟨hpos, hle⟩

end Global

namespace Values

theorem changed_since_iff (values other : Values) :
    changed_since values other = true ↔ ¬ observed_all other values = true := by
  unfold changed_since observed_all
  by_cases hlength : other.length < values.length
  · simp [hlength]
  · rw [if_neg hlength, Bool.or_eq_true, decide_eq_true_eq, List.any_eq_true, List.all_eq_true]
    constructor
    · rintro (hlt | ⟨⟨left, right⟩, hmem, hlt⟩) hall
      · exact hlength hlt
      · have hmem' : (right, left) ∈ other.zip values := by
          rw [← List.zip_swap]
          exact List.mem_map.mpr ⟨(left, right), hmem, rfl⟩
        have hle := hall _ hmem'
        simp only [decide_eq_true_eq] at hle hlt
        omega
    · intro hnot
      by_contra hnone
      refine hnot fun ⟨right, left⟩ hmem => ?_
      have hmem' : (left, right) ∈ values.zip other := by
        rw [← List.zip_swap]
        exact List.mem_map.mpr ⟨(right, left), hmem, rfl⟩
      by_contra hlt
      refine hnone (.inr ⟨_, hmem', ?_⟩)
      simp only [decide_eq_true_eq] at hlt ⊢
      omega

/-- What holds of any three vectors: they are told apart by their entries, ordered by them, with
    joins as least upper bounds and meets as minima over what both have observed. -/
structure Laws (a b c : Values) : Prop where
  trimmed : a.getLast? ≠ some 0
  eq_iff : a = b ↔ ∀ replica_id, get a replica_id = get b replica_id
  observed_all_iff : observed_all a b = true ↔ ∀ replica_id, get b replica_id ≤ get a replica_id
  observed_all_refl : observed_all a a = true
  observed_all_antisymm : observed_all a b = true → observed_all b a = true → a = b
  observed_all_trans : observed_all a b = true → observed_all b c = true → observed_all a c = true
  join_left : observed_all (join a b) a = true
  join_right : observed_all (join a b) b = true
  join_least : observed_all c a = true → observed_all c b = true → observed_all c (join a b) = true
  changed_since_iff : changed_since a b = true ↔ ¬ observed_all b a = true
  meet_get : ∀ replica_id, get (meet a b) replica_id =
    if get a replica_id = 0 then get b replica_id
    else if get b replica_id = 0 then get a replica_id else min (get a replica_id) (get b replica_id)
  meet_assoc : meet (meet a b) c = meet a (meet b c)
  meet_comm : meet a b = meet b a
  meet_self : meet a a = a
  meet_new : meet a new = a
  new_meet : meet new a = a
  observed_any_iff : observed_any a b = true ↔
    ∃ replica_id, 0 < get b replica_id ∧ get b replica_id ≤ get a replica_id

/-- Version vectors are a lattice of what they have observed. -/
theorem built_laws {a b c : Values} (ha : Built a) (hb : Built b) (hc : Built c) : Laws a b c := by
  obtain ⟨a, rfl⟩ := ha.exists_global
  obtain ⟨b, rfl⟩ := hb.exists_global
  obtain ⟨c, rfl⟩ := hc.exists_global
  have hmeet (x y : Global) : meet x.values y.values = (x.meet y).values := meet_eq x.trimmed y.trimmed
  have hjoin (x y : Global) : join x.values y.values = (x.join y).values := join_eq _ _
  have hall (x y : Global) : observed_all x.values y.values = x.observed_all y := rfl
  have hext {x y : Global} (h : ∀ replica_id, x.get replica_id = y.get replica_id) : x.values = y.values :=
    congrArg Global.values (Global.ext_get h)
  refine {
    trimmed := a.trimmed
    eq_iff := ⟨fun h _ => by rw [h], hext⟩
    observed_all_iff := Global.observed_all_iff
    observed_all_refl := a.observed_all_refl
    observed_all_antisymm := fun h h' => hext fun replica_id =>
      le_antisymm (Global.observed_all_iff.mp h' replica_id) (Global.observed_all_iff.mp h replica_id)
    observed_all_trans := Global.observed_all_trans
    join_left := ?_
    join_right := ?_
    join_least := ?_
    changed_since_iff := changed_since_iff _ _
    meet_get := ?_
    meet_assoc := ?_
    meet_comm := ?_
    meet_self := ?_
    meet_new := ?_
    new_meet := ?_
    observed_any_iff := Global.observed_any_iff }
  · rw [hjoin, hall, Global.observed_all_iff]
    intro replica_id
    rw [Global.join_get]
    exact le_max_left _ _
  · rw [hjoin, hall, Global.observed_all_iff]
    intro replica_id
    rw [Global.join_get]
    exact le_max_right _ _
  · intro hca hcb
    rw [hjoin, hall, Global.observed_all_iff]
    intro replica_id
    rw [Global.join_get]
    exact max_le (Global.observed_all_iff.mp hca replica_id) (Global.observed_all_iff.mp hcb replica_id)
  · intro replica_id
    rw [hmeet]
    exact Global.meet_get a b replica_id
  · rw [hmeet, hmeet, hmeet, hmeet, Global.meet_assoc]
  · rw [hmeet, hmeet, Global.meet_comm]
  · rw [hmeet, Global.meet_self]
  · exact (hmeet a Global.new).trans (congrArg Global.values a.meet_new)
  · exact (hmeet Global.new a).trans (congrArg Global.values a.new_meet)

/-- The laws of two vectors of different replicas, and of what both have observed. -/
theorem built_laws_sample :
    Laws (observe new ⟨3, 2⟩) (observe new ⟨1, 0⟩) (join (observe new ⟨3, 2⟩) (observe new ⟨1, 0⟩)) :=
  have hleft : Built (observe new ⟨3, 2⟩) := .observe _ (by decide) .new
  have hright : Built (observe new ⟨1, 0⟩) := .observe _ (by decide) .new
  built_laws hleft hright (.join hleft hright)

end Values

end zed.clock
