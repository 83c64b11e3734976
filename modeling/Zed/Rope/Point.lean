import Zed.Rope.TextSummary

namespace zed.rope

namespace Point

def zero : Point := ⟨0, 0⟩

def sub (self other : Point) : Point :=
  if self.row = other.row then ⟨0, self.column - other.column⟩ else ⟨self.row - other.row, self.column⟩

instance : LE Point := ⟨fun self other => self.row < other.row ∨ (self.row = other.row ∧ self.column ≤ other.column)⟩

instance : LT Point := ⟨fun self other => self.row < other.row ∨ (self.row = other.row ∧ self.column < other.column)⟩

instance (self other : Point) : Decidable (self ≤ other) :=
  inferInstanceAs (Decidable (self.row < other.row ∨ (self.row = other.row ∧ self.column ≤ other.column)))

instance (self other : Point) : Decidable (self < other) :=
  inferInstanceAs (Decidable (self.row < other.row ∨ (self.row = other.row ∧ self.column < other.column)))

variable {self other third : Point}

theorem le_def : self ≤ other ↔ self.row < other.row ∨ (self.row = other.row ∧ self.column ≤ other.column) := Iff.rfl

theorem lt_def : self < other ↔ self.row < other.row ∨ (self.row = other.row ∧ self.column < other.column) := Iff.rfl

theorem not_le : ¬ self ≤ other ↔ other < self := by
  rw [le_def, lt_def]
  omega

theorem le_refl (self : Point) : self ≤ self := Or.inr ⟨rfl, Nat.le_refl _⟩

theorem le_trans (h : self ≤ other) (h' : other ≤ third) : self ≤ third := by
  rw [le_def] at *
  omega

theorem le_antisymm (h : self ≤ other) (h' : other ≤ self) : self = other := by
  rw [le_def] at *
  ext <;> omega

theorem zero_le (self : Point) : zero ≤ self := by
  change 0 < _ ∨ 0 = _ ∧ 0 ≤ _
  omega

theorem eq_zero_of_le (h : self ≤ zero) : self = zero := le_antisymm h (zero_le self)

theorem le_add (self other : Point) : self ≤ self.add other := by
  rw [le_def, add_row, add_column]
  split <;> omega

@[simp] theorem zero_add (self : Point) : zero.add self = self := by
  ext
  · rw [add_row]
    exact Nat.zero_add _
  · rw [add_column]
    split
    · exact Nat.zero_add _
    · rfl

theorem add_zero (self : Point) : self.add zero = self := rfl

theorem add_assoc (self other third : Point) : (self.add other).add third = self.add (other.add third) := by
  ext
  · simp only [add_row]
    omega
  · simp only [add_row, add_column]
    repeat' split
    all_goals omega

theorem sub_row (self other : Point) : (self.sub other).row = self.row - other.row := by
  rw [sub]
  split
  · rename_i heq
    dsimp only
    omega
  · rfl

theorem sub_column (self other : Point) :
    (self.sub other).column = if self.row = other.row then self.column - other.column else self.column := by
  rw [sub]
  split <;> rfl

end Point

end zed.rope
