import Zed.Bitmap

namespace zed.bitmap

/-- The word with the given fields of `w` bits, the lowest one first. -/
def packed (w : Nat) : List Nat → Nat
  | [] => 0
  | field :: fields => field + 2 ^ w * packed w fields

def pairs : List Nat → List Nat
  | lower :: upper :: fields => (lower + upper) :: pairs fields
  | _ => []

def uppers : List Nat → List Nat
  | _ :: upper :: fields => upper :: uppers fields
  | _ => []

/-- The lower half of every field of `2 * w` bits. -/
def halves (w : Nat) (count : Nat) : Nat := packed (2 * w) (List.replicate count (2 ^ w - 1))

/-- A number of fields, none above a bound. -/
structure Fields (bound count : Nat) (fields : List Nat) : Prop where
  length : fields.length = count
  le : ∀ field ∈ fields, field ≤ bound

variable {w bound count : Nat} {fields : List Nat}

namespace Fields

theorem pair {lower upper : Nat} (h : Fields bound (2 * (count + 1)) (lower :: upper :: fields)) :
    lower ≤ bound ∧ upper ≤ bound ∧ Fields bound (2 * count) fields := by
  have hlength := h.length
  simp only [List.length_cons] at hlength
  refine ⟨h.le lower (by simp), h.le upper (by simp), by omega, fun field hfield => h.le field (by simp [hfield])⟩

theorem pairwise {motive : Nat → List Nat → Prop} (nil : motive 0 [])
    (pair : ∀ count lower upper fields, lower ≤ bound → upper ≤ bound → Fields bound (2 * count) fields →
      motive count fields → motive (count + 1) (lower :: upper :: fields))
    (h : Fields bound (2 * count) fields) : motive count fields := by
  induction count generalizing fields with
  | zero =>
    obtain rfl : fields = [] := List.eq_nil_of_length_eq_zero h.length
    exact nil
  | succ count ih =>
    match fields, h with
    | [], h => exact absurd h.length (by simp)
    | [field], h => exact absurd h.length (by simp; omega)
    | lower :: upper :: fields, h =>
      obtain ⟨hlower, hupper, hrest⟩ := h.pair
      exact pair count lower upper fields hlower hupper hrest (ih hrest)

theorem sums (h : Fields bound (2 * count) fields) : Fields (2 * bound) count (pairs fields) := by
  refine h.pairwise (motive := fun count fields => Fields (2 * bound) count (pairs fields)) ⟨rfl, by simp [pairs]⟩ ?_
  intro count lower upper fields hlower hupper _ ih
  refine ⟨by simp [pairs, ih.length], fun field hfield => ?_⟩
  rcases List.mem_cons.mp hfield with rfl | hfield
  · omega
  · exact ih.le field hfield

theorem sum_pairs (h : Fields bound (2 * count) fields) : (pairs fields).sum = fields.sum := by
  refine h.pairwise (motive := fun _ fields => (pairs fields).sum = fields.sum) rfl ?_
  intro count lower upper fields _ _ _ ih
  simp only [pairs, List.sum_cons, ih]
  omega

theorem getD_le (h : Fields bound count fields) (i : Nat) : fields.getD i 0 ≤ bound := by
  rcases Nat.lt_or_ge i fields.length with hi | hi
  · rw [List.getD_eq_getElem _ _ hi]
    exact h.le _ (List.getElem_mem hi)
  · rw [List.getD_eq_default _ _ hi]
    exact Nat.zero_le _

end Fields

theorem getD_pairs (fields : List Nat) (heven : ∃ count, fields.length = 2 * count) (i : Nat) :
    (pairs fields).getD i 0 = fields.getD (2 * i) 0 + fields.getD (2 * i + 1) 0 := by
  obtain ⟨count, hlength⟩ := heven
  have h : Fields fields.sum (2 * count) fields := ⟨hlength, fun field hfield => List.single_le_sum (by simp) field hfield⟩
  revert i
  refine h.pairwise (motive := fun _ fields => ∀ i,
    (pairs fields).getD i 0 = fields.getD (2 * i) 0 + fields.getD (2 * i + 1) 0) (by simp [pairs]) ?_
  intro count lower upper fields _ _ _ ih i
  cases i with
  | zero => rfl
  | succ i =>
    rw [show 2 * (i + 1) = 2 * i + 1 + 1 by omega]
    exact ih i

theorem drop_pairs {lengths : Nat} (h : Fields bound (2 * lengths) fields) (i : Nat) :
    (pairs fields).drop i = pairs (fields.drop (2 * i)) := by
  revert i
  refine h.pairwise (motive := fun _ fields => ∀ i, (pairs fields).drop i = pairs (fields.drop (2 * i)))
    (by simp [pairs]) ?_
  intro count lower upper fields _ _ _ ih i
  cases i with
  | zero => rfl
  | succ i =>
    rw [show 2 * (i + 1) = 2 * i + 1 + 1 by omega]
    exact ih i

section Words

theorem and_field {x y X Y : Nat} (hx : x < 2 ^ w) (hy : y < 2 ^ w) :
    (x + 2 ^ w * X) &&& (y + 2 ^ w * Y) = (x &&& y) + 2 ^ w * (X &&& Y) := by
  have hand : x &&& y < 2 ^ w := Nat.lt_of_le_of_lt Nat.and_le_left hx
  rw [Nat.add_comm x, Nat.add_comm y, Nat.add_comm (x &&& y)]
  apply Nat.eq_of_testBit_eq
  intro bit
  rw [Nat.testBit_and, Nat.testBit_two_pow_mul_add _ hx, Nat.testBit_two_pow_mul_add _ hy,
    Nat.testBit_two_pow_mul_add _ hand]
  by_cases hbit : bit < w
  · simp [hbit]
  · simp [hbit]

theorem packed_le_replicate (h : Fields bound count fields) :
    packed w fields ≤ packed w (List.replicate count bound) := by
  obtain ⟨rfl, hle⟩ := h
  induction fields with
  | nil => exact le_rfl
  | cons field fields ih =>
    rw [List.length_cons, List.replicate_succ, packed, packed]
    have hrest := ih fun other hother => hle other (List.mem_cons_of_mem field hother)
    exact Nat.add_le_add (hle field List.mem_cons_self) (Nat.mul_le_mul_left _ hrest)

theorem packed_field (h : Fields bound count fields) (hbound : bound < 2 ^ w) (i : Nat) :
    packed w fields / 2 ^ (w * i) % 2 ^ w = fields.getD i 0 := by
  obtain ⟨-, hle⟩ := h
  induction fields generalizing i with
  | nil => simp [packed]
  | cons field fields ih =>
    have hfield : field < 2 ^ w := (hle field List.mem_cons_self).trans_lt hbound
    rw [packed]
    cases i with
    | zero => simp [Nat.mod_eq_of_lt hfield]
    | succ i =>
      have hrest := ih i fun other hother => hle other (List.mem_cons_of_mem field hother)
      rw [Nat.mul_succ, Nat.pow_add, Nat.mul_comm (2 ^ (w * i)), ← Nat.div_div_eq_div_mul,
        Nat.add_mul_div_left _ _ (Nat.two_pow_pos w),
        Nat.div_eq_of_lt hfield, Nat.zero_add, hrest]
      rfl

theorem half_lt (w : Nat) : 2 ^ w - 1 < 2 ^ (2 * w) := by
  have hle := Nat.pow_le_pow_right (n := 2) (by omega) (show w ≤ 2 * w by omega)
  have hpos := Nat.two_pow_pos w
  omega

theorem packed_uppers (h : Fields bound (2 * count) fields) (hbound : bound < 2 ^ w) :
    packed w fields / 2 ^ w &&& halves w count = packed (2 * w) (uppers fields) := by
  refine h.pairwise (motive := fun count fields =>
    packed w fields / 2 ^ w &&& halves w count = packed (2 * w) (uppers fields)) (by simp [packed, uppers]) ?_
  intro count lower upper fields hlower hupper _ ih
  have hdouble : 2 ^ (2 * w) = 2 ^ w * 2 ^ w := by rw [← Nat.pow_add, Nat.two_mul]
  have hpos : 0 < 2 ^ w := Nat.two_pow_pos w
  have hmod := Nat.mod_lt (packed w fields) hpos
  have hdivided := Nat.div_add_mod (packed w fields) (2 ^ w)
  have hshift : (lower + 2 ^ w * (upper + 2 ^ w * packed w fields)) / 2 ^ w =
      (upper + 2 ^ w * (packed w fields % 2 ^ w)) + 2 ^ (2 * w) * (packed w fields / 2 ^ w) := by
    rw [Nat.add_mul_div_left _ _ hpos, Nat.div_eq_of_lt (by omega), hdouble]
    conv_lhs => rw [← hdivided]
    ring
  have hlow : upper + 2 ^ w * (packed w fields % 2 ^ w) < 2 ^ (2 * w) := by
    rw [hdouble]
    nlinarith
  have hmask : (upper + 2 ^ w * (packed w fields % 2 ^ w)) &&& (2 ^ w - 1) = upper := by
    rw [Nat.and_two_pow_sub_one_eq_mod, Nat.add_mul_mod_self_left, Nat.mod_eq_of_lt (by omega)]
  rw [packed, packed, hshift, halves, List.replicate_succ, packed, and_field hlow (half_lt w), hmask, uppers, packed]
  exact congrArg _ (congrArg _ ih)

theorem packed_lowers (h : Fields bound (2 * count) fields) (hbound : bound < 2 ^ w) :
    (packed w fields &&& halves w count) + packed (2 * w) (uppers fields) = packed (2 * w) (pairs fields) := by
  refine h.pairwise (motive := fun count fields => (packed w fields &&& halves w count) +
    packed (2 * w) (uppers fields) = packed (2 * w) (pairs fields)) (by simp [packed, uppers, pairs]) ?_
  intro count lower upper fields hlower hupper _ ih
  have hdouble : 2 ^ (2 * w) = 2 ^ w * 2 ^ w := by rw [← Nat.pow_add, Nat.two_mul]
  have hword : lower + 2 ^ w * (upper + 2 ^ w * packed w fields) =
      (lower + 2 ^ w * upper) + 2 ^ (2 * w) * packed w fields := by
    rw [hdouble]
    ring
  have hlow : lower + 2 ^ w * upper < 2 ^ (2 * w) := by
    rw [hdouble]
    nlinarith
  have hmask : (lower + 2 ^ w * upper) &&& (2 ^ w - 1) = lower := by
    rw [Nat.and_two_pow_sub_one_eq_mod, Nat.add_mul_mod_self_left, Nat.mod_eq_of_lt (by omega)]
  rw [packed, packed, hword, halves, List.replicate_succ, packed, and_field hlow (half_lt w), hmask, uppers, pairs, packed,
    packed, ← ih]
  change lower + 2 ^ (2 * w) * (packed w fields &&& halves w count) + _ = _
  ring

theorem packed_bits (h : Fields 1 (2 * count) fields) :
    packed 1 fields = packed 2 (pairs fields) + packed 2 (uppers fields) := by
  refine h.pairwise (motive := fun _ fields => packed 1 fields = packed 2 (pairs fields) + packed 2 (uppers fields)) rfl ?_
  intro count lower upper fields _ _ _ ih
  simp only [packed, pairs, uppers, ih]
  ring

/-- Where no pair carries, the counts can be added before they are masked. -/
theorem packed_sums (h : Fields bound (2 * count) fields) (hbound : 2 * bound < 2 ^ w) :
    (packed w fields + packed w fields / 2 ^ w) &&& halves w count = packed (2 * w) (pairs fields) := by
  refine h.pairwise (motive := fun count fields =>
    (packed w fields + packed w fields / 2 ^ w) &&& halves w count = packed (2 * w) (pairs fields)) (by simp [packed, pairs]) ?_
  intro count lower upper fields hlower hupper hrest ih
  have hdouble : 2 ^ (2 * w) = 2 ^ w * 2 ^ w := by rw [← Nat.pow_add, Nat.two_mul]
  have hpos : 0 < 2 ^ w := Nat.two_pow_pos w
  have hnext : packed w fields % 2 ^ w ≤ bound := by
    have hfield := packed_field hrest (show bound < 2 ^ w by omega) 0
    rw [Nat.mul_zero, Nat.pow_zero, Nat.div_one] at hfield
    rw [hfield]
    exact hrest.getD_le 0
  have hdivided := Nat.div_add_mod (packed w fields) (2 ^ w)
  have hword : lower + 2 ^ w * (upper + 2 ^ w * packed w fields) +
      (lower + 2 ^ w * (upper + 2 ^ w * packed w fields)) / 2 ^ w =
        (lower + upper + 2 ^ w * (upper + packed w fields % 2 ^ w)) +
          2 ^ (2 * w) * (packed w fields + packed w fields / 2 ^ w) := by
    rw [Nat.add_mul_div_left _ _ hpos, Nat.div_eq_of_lt (by omega), hdouble]
    have hsplit : 2 ^ w * packed w fields =
        2 ^ w * (packed w fields % 2 ^ w) + 2 ^ w * 2 ^ w * (packed w fields / 2 ^ w) := by
      conv_lhs => rw [← hdivided]
      ring
    rw [Nat.zero_add, Nat.mul_add (2 ^ w) upper, ← Nat.mul_assoc, Nat.mul_add (2 ^ w * 2 ^ w), Nat.mul_add (2 ^ w) upper]
    omega
  have hlow : lower + upper + 2 ^ w * (upper + packed w fields % 2 ^ w) < 2 ^ (2 * w) := by
    rw [hdouble]
    nlinarith
  have hmask : (lower + upper + 2 ^ w * (upper + packed w fields % 2 ^ w)) &&& (2 ^ w - 1) = lower + upper := by
    rw [Nat.and_two_pow_sub_one_eq_mod, Nat.add_mul_mod_self_left, Nat.mod_eq_of_lt (by omega)]
  rw [packed, packed, hword, halves, List.replicate_succ, packed, and_field hlow (half_lt w), hmask, pairs, packed, ← ih]
  rfl

end Words

end zed.bitmap
