import Mathlib

namespace zed.fuzzy

/-- What is used of the Unicode tables: lowercasing again changes nothing, and the separators are the
    lowercase of no other character. -/
structure Unicode where
  to_lowercase : Char → List Char
  is_numeric : Char → Bool
  is_lowercase : Char → Bool
  is_uppercase : Char → Bool
  lowercase_again (c : Char) : (to_lowercase ((to_lowercase c).head?.getD c)).head?.getD ((to_lowercase c).head?.getD c) =
    (to_lowercase c).head?.getD c
  lowercase_separator (c : Char) : (to_lowercase c).head?.getD c ∈ ['/', '_'] → (to_lowercase c).head?.getD c = c

variable (unicode : Unicode)

def simple_lowercase (c : Char) : Char := (unicode.to_lowercase c).head?.getD c

/-- The letters, digits and hyphens of a text: two bits for a letter, one for the others. -/
structure CharBag where
  bits : BitVec 64
deriving DecidableEq

namespace CharBag

def default : CharBag := ⟨0⟩

def is_superset (self other : CharBag) : Bool := self.bits &&& other.bits == other.bits

def insert (self : CharBag) (c : Char) : CharBag :=
  let c := simple_lowercase unicode c
  if 'a' ≤ c ∧ c ≤ 'z' then
    let idx := c.toNat - 'a'.toNat
    let count := self.bits >>> (idx * 2)
    let count := (count <<< 1 ||| 1#64) &&& 3#64
    ⟨self.bits ||| count <<< (idx * 2)⟩
  else if '0' ≤ c ∧ c ≤ '9' then
    let idx := c.toNat - '0'.toNat
    ⟨self.bits ||| 1#64 <<< (idx + 52)⟩
  else if c = '-' then ⟨self.bits ||| 1#64 <<< 62⟩
  else self

def extend (self : CharBag) (chars : List Char) : CharBag := chars.foldl (insert unicode) self

def from_chars (chars : List Char) : CharBag := default.extend unicode chars

variable {unicode} {self other : CharBag}

theorem is_superset_iff :
    self.is_superset other = true ↔ ∀ i, other.bits.getLsbD i = true → self.bits.getLsbD i = true := by
  rw [is_superset, beq_iff_eq]
  constructor
  · intro h i hi
    have hbit := congrArg (fun bits => bits.getLsbD i) h
    rw [BitVec.getLsbD_and, hi, Bool.and_true] at hbit
    exact hbit
  · intro h
    refine BitVec.eq_of_getLsbD_eq fun i hi => ?_
    rw [BitVec.getLsbD_and]
    cases hother : other.bits.getLsbD i with
    | false => exact Bool.and_false _
    | true => rw [h i hother, Bool.and_true]

theorem is_superset_default (self : CharBag) : self.is_superset default = true :=
  is_superset_iff.mpr fun i hi => by simp [default] at hi

theorem is_superset_trans {bag : CharBag} (h : self.is_superset other = true) (hbag : other.is_superset bag = true) :
    self.is_superset bag = true :=
  is_superset_iff.mpr fun i hi => is_superset_iff.mp h i (is_superset_iff.mp hbag i hi)

theorem insert_superset (self : CharBag) (c : Char) : (self.insert unicode c).is_superset self = true := by
  rw [is_superset_iff]
  intro i hi
  unfold insert
  simp only
  split_ifs <;> simp only [BitVec.getLsbD_or, hi, Bool.true_or]

theorem insert_mono (h : self.is_superset other = true) (c : Char) :
    (self.insert unicode c).is_superset (other.insert unicode c) = true := by
  rw [is_superset_iff] at h ⊢
  intro i hi
  unfold insert at hi ⊢
  simp only at hi ⊢
  split_ifs at hi ⊢
  · simp only [BitVec.getLsbD_or, BitVec.getLsbD_shiftLeft, BitVec.getLsbD_and, BitVec.getLsbD_ushiftRight,
      Bool.or_eq_true, Bool.and_eq_true] at hi ⊢
    refine hi.imp (h i) (And.imp_right (And.imp_left (Or.imp_left (And.imp_right (h _)))))
  · simp only [BitVec.getLsbD_or, Bool.or_eq_true] at hi ⊢
    exact hi.imp_left (h i)
  · simp only [BitVec.getLsbD_or, Bool.or_eq_true] at hi ⊢
    exact hi.imp_left (h i)
  · exact h i hi

theorem insert_lowercase (self : CharBag) (c : Char) :
    self.insert unicode (simple_lowercase unicode c) = self.insert unicode c := by
  have hagain : simple_lowercase unicode (simple_lowercase unicode c) = simple_lowercase unicode c :=
    unicode.lowercase_again c
  unfold insert
  rw [hagain]

theorem extend_superset {chars subsequence : List Char} (hsub : subsequence.Sublist chars)
    (h : self.is_superset other = true) :
    (self.extend unicode chars).is_superset (other.extend unicode subsequence) = true := by
  induction hsub generalizing self other with
  | slnil => exact h
  | cons c _ ih => exact ih (is_superset_trans (insert_superset self c) h)
  | cons_cons c _ ih => exact ih (insert_mono h c)

theorem extend_lowercase (self : CharBag) (chars : List Char) :
    self.extend unicode (chars.map (simple_lowercase unicode)) = self.extend unicode chars := by
  induction chars generalizing self with
  | nil => rfl
  | cons c chars ih =>
    rw [List.map_cons, extend, List.foldl_cons, insert_lowercase]
    exact ih _

end CharBag

end zed.fuzzy
