import Mathlib

namespace zed.text

/-- The base 2 ^ 64 digits of a position between two others. -/
structure Locator where
  digits : List Nat
deriving DecidableEq, Repr

namespace Locator

instance : LinearOrder Locator :=
  LinearOrder.lift' digits fun a b h => by
    cases a
    cases b
    simpa using h

theorem lt_iff {a b : Locator} : a < b ↔ a.digits < b.digits := Iff.rfl

def min : Locator := { digits := [0] }

def max : Locator := { digits := [18446744073709551615] }

/-- The shift optimizes for the common case of sequential typing. -/
def mid (lhs rhs : Nat) : Nat := lhs + (rhs - lhs) / 281474976710656

/-- The loop of `Locator::between` once the left digits are used up. -/
def below : List Nat → List Nat
  | [] => [mid 0 18446744073709551615]
  | rhs :: rest => if mid 0 rhs > 0 then [mid 0 rhs] else mid 0 rhs :: below rest

/-- The loop of `Locator::between`, over digits padded on the left with the
    smallest digit and on the right with the largest. -/
def between_digits : List Nat → List Nat → List Nat
  | [], rhs => below rhs
  | lhs :: rest, rhs =>
    if mid lhs (rhs.headD 18446744073709551615) > lhs then [mid lhs (rhs.headD 18446744073709551615)]
    else mid lhs (rhs.headD 18446744073709551615) :: between_digits rest rhs.tail

def between (lhs rhs : Locator) : Locator := { digits := between_digits lhs.digits rhs.digits }

/-- The last digit is not the padding of a left argument. -/
def Proper (id : Locator) : Prop := id.digits.getLast? ≠ some 0

theorem max_proper : max.Proper := by simp [Proper, max]

private theorem le_mid (lhs rhs : Nat) : lhs ≤ mid lhs rhs := Nat.le_add_right _ _

private theorem mid_lt {lhs rhs : Nat} (h : lhs < rhs) : mid lhs rhs < rhs := by
  have hdiv := Nat.div_lt_self (n := rhs - lhs) (k := 281474976710656) (by omega) (by omega)
  unfold mid
  omega

private theorem below_ne_nil (rhs : List Nat) : below rhs ≠ [] := by
  cases rhs with
  | nil => simp [below]
  | cons digit rest =>
    rw [below]
    split <;> simp

private theorem below_getLast (rhs : List Nat) : (below rhs).getLast? ≠ some 0 := by
  induction rhs with
  | nil => decide
  | cons digit rest ih =>
    rw [below]
    split
    · rename_i hpos
      simpa using Nat.ne_of_gt hpos
    · rw [List.getLast?_cons, List.getLast?_eq_some_getLast (below_ne_nil rest)] at *
      simpa using ih

private theorem between_digits_ne_nil (lhs rhs : List Nat) : between_digits lhs rhs ≠ [] := by
  cases lhs with
  | nil => exact below_ne_nil rhs
  | cons digit rest =>
    rw [between_digits]
    split <;> simp

private theorem lt_between_digits (lhs rhs : List Nat) : lhs < between_digits lhs rhs := by
  induction lhs generalizing rhs with
  | nil =>
    obtain ⟨digit, rest, heq⟩ := List.exists_cons_of_ne_nil (below_ne_nil rhs)
    rw [between_digits, heq]
    exact List.nil_lt_cons _ _
  | cons digit rest ih =>
    rw [between_digits]
    split
    · rename_i hlt
      exact List.cons_lt_cons_iff.mpr (Or.inl hlt)
    · rename_i hnot
      have heq := Nat.le_antisymm (Nat.le_of_not_gt hnot)
        (le_mid digit (rhs.headD 18446744073709551615))
      exact List.cons_lt_cons_iff.mpr (Or.inr ⟨heq.symm, ih rhs.tail⟩)

private theorem getLast_tail {digit : Nat} {rest : List Nat}
    (h : (digit :: rest).getLast? ≠ some 0) (hrest : rest ≠ []) : rest.getLast? ≠ some 0 := by
  rwa [List.getLast?_cons, List.getLast?_eq_some_getLast hrest, Option.getD_some,
    ← List.getLast?_eq_some_getLast hrest] at h

private theorem below_lt {rhs : List Nat} (hne : rhs ≠ []) (hproper : rhs.getLast? ≠ some 0) :
    below rhs < rhs := by
  induction rhs with
  | nil => exact absurd rfl hne
  | cons digit rest ih =>
    rw [below]
    split
    · rename_i hpos
      refine List.cons_lt_cons_iff.mpr (Or.inl (mid_lt ?_))
      rw [Nat.pos_iff_ne_zero]
      rintro rfl
      simp [mid] at hpos
    · rename_i hnot
      have hzero : mid 0 digit = 0 := by omega
      rcases Nat.eq_zero_or_pos digit with rfl | hpos
      · have hrest : rest ≠ [] := by
          rintro rfl
          simp at hproper
        exact List.cons_lt_cons_iff.mpr (Or.inr ⟨hzero, ih hrest (getLast_tail hproper hrest)⟩)
      · exact List.cons_lt_cons_iff.mpr (Or.inl (by omega))

private theorem between_digits_lt {lhs rhs : List Nat} (hlt : lhs < rhs)
    (hproper : rhs.getLast? ≠ some 0) : between_digits lhs rhs < rhs := by
  induction lhs generalizing rhs with
  | nil =>
    refine below_lt ?_ hproper
    rintro rfl
    exact List.not_lt_nil _ hlt
  | cons digit rest ih =>
    cases rhs with
    | nil => exact absurd hlt (List.not_lt_nil _)
    | cons upper tail =>
      rw [between_digits]
      rcases List.cons_lt_cons_iff.mp hlt with hdigit | ⟨rfl, hrest⟩
      · have hmid : mid digit ((upper :: tail).headD 18446744073709551615) < upper := mid_lt hdigit
        split <;> exact List.cons_lt_cons_iff.mpr (Or.inl hmid)
      · have hsame : mid digit ((digit :: tail).headD 18446744073709551615) = digit := by simp [mid]
        rw [if_neg (by omega), hsame]
        refine List.cons_lt_cons_iff.mpr (Or.inr ⟨rfl, ih hrest (getLast_tail hproper ?_)⟩)
        rintro rfl
        exact List.not_lt_nil _ hrest

private theorem between_digits_getLast (lhs rhs : List Nat) :
    (between_digits lhs rhs).getLast? ≠ some 0 := by
  induction lhs generalizing rhs with
  | nil => exact below_getLast rhs
  | cons digit rest ih =>
    rw [between_digits]
    split
    · rename_i hlt
      have hpos : 0 < mid digit (rhs.headD 18446744073709551615) := by omega
      simpa using Nat.ne_of_gt hpos
    · have hlast := ih rhs.tail
      rw [List.getLast?_eq_some_getLast (between_digits_ne_nil rest rhs.tail)] at hlast
      rw [List.getLast?_cons, List.getLast?_eq_some_getLast (between_digits_ne_nil rest rhs.tail)]
      simpa using hlast

theorem lt_between (lhs rhs : Locator) : lhs < between lhs rhs := lt_between_digits _ _

theorem between_lt {lhs rhs : Locator} (hlt : lhs < rhs) (hproper : rhs.Proper) :
    between lhs rhs < rhs := between_digits_lt hlt hproper

theorem between_proper (lhs rhs : Locator) : (between lhs rhs).Proper := between_digits_getLast _ _

/-- The loop of `Locator::between` in at most so many rounds: `none` where it needs more. -/
def between_rounds : Nat → List Nat → List Nat → Option (List Nat)
  | 0, _, _ => none
  | n + 1, lhs, rhs =>
    let lhs_digit := lhs.headD 0
    let mid := mid lhs_digit (rhs.headD 18446744073709551615)
    if mid > lhs_digit then some [mid]
    else (between_rounds n lhs.tail rhs.tail).map fun location => mid :: location

private theorem between_rounds_below (rhs : List Nat) : between_rounds (rhs.length + 1) [] rhs = some (below rhs) := by
  induction rhs with
  | nil => decide
  | cons digit rest ih =>
    change (if mid 0 digit > 0 then some [mid 0 digit]
      else (between_rounds (rest.length + 1) [] rest).map fun location => mid 0 digit :: location) =
        some (if mid 0 digit > 0 then [mid 0 digit] else mid 0 digit :: below rest)
    rw [ih]
    split
    · rfl
    · rfl

theorem between_rounds_eq (lhs rhs : List Nat) :
    between_rounds (lhs.length + rhs.length + 1) lhs rhs = some (between_digits lhs rhs) := by
  have hmore : ∀ {rounds more : Nat} {lhs rhs location : List Nat}, rounds ≤ more →
      between_rounds rounds lhs rhs = some location → between_rounds more lhs rhs = some location := by
    intro rounds
    induction rounds with
    | zero => intro more lhs rhs location _ h; exact absurd h (by simp [between_rounds])
    | succ rounds ih =>
      intro more lhs rhs location hle h
      obtain ⟨more, rfl⟩ : ∃ rest, more = rest + 1 := ⟨more - 1, by omega⟩
      simp only [between_rounds] at h ⊢
      split
      · rename_i hlt
        rwa [if_pos hlt] at h
      · rename_i hnot
        rw [if_neg hnot, Option.map_eq_some_iff] at h
        obtain ⟨rest, hrest, hlocation⟩ := h
        rw [ih (by omega) hrest, ← hlocation]
        rfl
  induction lhs generalizing rhs with
  | nil => exact hmore (by simp) (between_rounds_below rhs)
  | cons digit rest ih =>
    have hrest := hmore (show rest.length + rhs.tail.length + 1 ≤ rest.length + 1 + rhs.length by
      rw [List.length_tail]
      omega) (ih rhs.tail)
    change (if mid digit (rhs.headD 18446744073709551615) > digit then some [mid digit (rhs.headD 18446744073709551615)]
      else (between_rounds (rest.length + 1 + rhs.length) rest rhs.tail).map fun location =>
        mid digit (rhs.headD 18446744073709551615) :: location) = _
    rw [hrest, between_digits]
    split
    · rfl
    · rfl

/-- The locators that calls of `between` make from the two ends. -/
inductive Obtainable : Locator → Prop
  | min : Obtainable min
  | max : Obtainable max
  | between {lhs rhs : Locator} (hlhs : Obtainable lhs) (hrhs : Obtainable rhs) : Obtainable (between lhs rhs)

theorem Obtainable.proper {id : Locator} (h : Obtainable id) : id = Locator.min ∨ id.Proper := by
  cases h with
  | min => exact Or.inl rfl
  | max => exact Or.inr max_proper
  | between => exact Or.inr (between_proper _ _)

theorem Obtainable.ne_nil {id : Locator} (h : Obtainable id) : id.digits ≠ [] := by
  cases h with
  | min => exact List.cons_ne_nil _ _
  | max => exact List.cons_ne_nil _ _
  | between => exact between_digits_ne_nil _ _

theorem Obtainable.not_lt_min {id : Locator} (h : Obtainable id) : ¬ id < Locator.min := by
  obtain ⟨digit, rest, hdigits⟩ := List.exists_cons_of_ne_nil h.ne_nil
  rw [lt_iff, hdigits]
  change ¬ digit :: rest < [0]
  rw [List.cons_lt_cons_iff]
  rintro (hlt | ⟨-, hlt⟩)
  · exact absurd hlt (Nat.not_lt_zero _)
  · exact List.not_lt_nil _ hlt

/-- Between any two locators that calls have made, `between` ends and makes one that
    leaves room on both sides. -/
theorem Obtainable.between_makes_room {lhs rhs : Locator} (hlhs : Obtainable lhs) (hrhs : Obtainable rhs)
    (hlt : lhs < rhs) :
    (∃ rounds, between_rounds rounds lhs.digits rhs.digits = some (Locator.between lhs rhs).digits) ∧
      lhs < Locator.between lhs rhs ∧ Locator.between lhs rhs < rhs ∧
      ∃ digit, (Locator.between lhs rhs).digits.getLast? = some digit ∧ digit ≠ 0 := by
  have hproper : rhs.Proper := by
    obtain rfl | hproper := hrhs.proper
    · exact absurd hlt hlhs.not_lt_min
    · exact hproper
  refine ⟨⟨_, between_rounds_eq _ _⟩, lt_between lhs rhs, between_lt hlt hproper, ?_⟩
  have hlast := between_proper lhs rhs
  rw [Proper, List.getLast?_eq_some_getLast (hlhs.between hrhs).ne_nil] at hlast
  exact ⟨_, List.getLast?_eq_some_getLast (hlhs.between hrhs).ne_nil, fun hzero => hlast (congrArg some hzero)⟩

theorem first_between_makes_room :
    (∃ rounds, between_rounds rounds Locator.min.digits Locator.max.digits =
        some (Locator.between Locator.min Locator.max).digits) ∧
      Locator.min < Locator.between Locator.min Locator.max ∧ Locator.between Locator.min Locator.max < Locator.max ∧
      ∃ digit, (Locator.between Locator.min Locator.max).digits.getLast? = some digit ∧ digit ≠ 0 :=
  Obtainable.min.between_makes_room Obtainable.max (by decide)

end Locator

end zed.text
