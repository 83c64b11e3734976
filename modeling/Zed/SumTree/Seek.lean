import Zed.SumTree.Cursor

namespace zed.sum_tree

variable {α : Type} (passes : List α → Bool)

/-- Moves a cursor past items, while all that is then passed is said to lie before a target. -/
def seek_while (passed : List α) : List α → Cursor α
  | [] => { passed, rest := [] }
  | item :: rest =>
    if passes (passed ++ [item]) then seek_while (passed ++ [item]) rest else { passed, rest := item :: rest }

variable {passes} {passed items : List α}

theorem seek_while_items : (seek_while passes passed items).passed ++ (seek_while passes passed items).rest =
    passed ++ items := by
  induction items generalizing passed with
  | nil => rfl
  | cons item rest ih =>
    rw [seek_while]
    split
    · rw [ih, List.append_assoc]
      rfl
    · rfl

theorem seek_while_passed :
    (seek_while passes passed items).passed = passed ∨ passes (seek_while passes passed items).passed = true := by
  induction items generalizing passed with
  | nil => exact Or.inl rfl
  | cons item rest ih =>
    rw [seek_while]
    split
    · rename_i hpass
      rcases @ih (passed ++ [item]) with hsame | hpasses
      · exact Or.inr (by rw [hsame]; exact hpass)
      · exact Or.inr hpasses
    · exact Or.inl rfl

theorem seek_while_stops {item : α} {rest : List α} (h : (seek_while passes passed items).rest = item :: rest) :
    passes ((seek_while passes passed items).passed ++ [item]) = false := by
  induction items generalizing passed with
  | nil => cases h
  | cons first others ih =>
    rw [seek_while] at h ⊢
    split
    · rename_i hpass
      rw [if_pos hpass] at h
      exact ih h
    · rename_i hpass
      rw [if_neg hpass] at h
      cases h
      exact Bool.not_eq_true _ ▸ hpass

theorem seek_while_eq {before after : List α}
    (hbefore : ∀ front back, before = front ++ back → front ≠ [] → passes (passed ++ front) = true)
    (hafter : ∀ item rest, after = item :: rest → passes (passed ++ before ++ [item]) = false) :
    seek_while passes passed (before ++ after) = { passed := passed ++ before, rest := after } := by
  induction before generalizing passed with
  | nil =>
    cases after with
    | nil => simp [seek_while]
    | cons item rest =>
      have hstop := hafter item rest rfl
      rw [List.append_nil] at hstop
      rw [List.nil_append, seek_while, hstop, List.append_nil]
      rfl
  | cons item before ih =>
    have hpass := hbefore [item] before rfl (List.cons_ne_nil _ _)
    rw [List.cons_append, seek_while, if_pos hpass]
    rw [ih]
    · rw [List.append_assoc]
      rfl
    · intro front back hsplit hne
      have hfront := hbefore (item :: front) back (by rw [hsplit]; rfl) (List.cons_ne_nil _ _)
      rwa [List.append_assoc]
    · intro next rest hnext
      have hstop := hafter next rest hnext
      simpa using hstop

end zed.sum_tree
