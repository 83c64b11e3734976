import Zed.Fuzzy.Matcher

namespace zed.fuzzy

section LastPositions

theorem rposition_none {char : Char} {chars : List Char} (h : rposition char chars = none) : char ∉ chars := by
  induction chars with
  | nil => exact List.not_mem_nil
  | cons c chars ih =>
    rw [rposition] at h
    cases hrest : rposition char chars with
    | some i => rw [hrest] at h; cases h
    | none =>
      rw [hrest] at h
      intro hmem
      rcases List.mem_cons.mp hmem with rfl | hin
      · rw [if_pos rfl] at h
        cases h
      · exact ih hrest hin

theorem rposition_some {char : Char} {chars : List Char} {j : Nat} (h : rposition char chars = some j) :
    chars[j]? = some char ∧ char ∉ chars.drop (j + 1) := by
  induction chars generalizing j with
  | nil => cases h
  | cons c chars ih =>
    rw [rposition] at h
    cases hrest : rposition char chars with
    | some i =>
      rw [hrest] at h
      obtain rfl := Option.some.inj h
      exact ih hrest
    | none =>
      rw [hrest] at h
      by_cases hc : c = char
      · rw [if_pos hc] at h
        obtain rfl := Option.some.inj h
        exact ⟨congrArg some hc, rposition_none hrest⟩
      · rw [if_neg hc] at h
        cases h

/-- Positions of a query in a text: they increase, and each holds its character. -/
structure LastPositions (text query : List Char) (last_positions : List Nat) : Prop where
  length : last_positions.length = query.length
  increasing : last_positions.Pairwise (· < ·)
  found (i : Nat) (j : Nat) (h : last_positions[i]? = some j) : ∃ char, query[i]? = some char ∧ text[j]? = some char

theorem LastPositions.cons {text query : List Char} {last_positions : List Nat} {char : Char} {j : Nat}
    (h : LastPositions text query last_positions) (hchar : text[j]? = some char) (hlt : ∀ next ∈ last_positions, j < next) :
    LastPositions text (char :: query) (j :: last_positions) := by
  refine ⟨by rw [List.length_cons, List.length_cons, h.length], List.pairwise_cons.mpr ⟨hlt, h.increasing⟩, ?_⟩
  intro i next hnext
  cases i with
  | zero =>
    obtain rfl := Option.some.inj hnext
    exact ⟨char, rfl, hchar⟩
  | succ i => exact h.found i next hnext

/-- What the iterators have left is the text before the positions that have been found. -/
theorem find_last_positions_some {lowercase_prefix_chars lowercase_candidate query prefix_left candidate_left : List Char}
    {last_positions : List Nat} (h : find_last_positions lowercase_prefix_chars lowercase_candidate query =
      some (last_positions, prefix_left, candidate_left)) :
    prefix_left ++ candidate_left <+: lowercase_prefix_chars ++ lowercase_candidate ∧
      LastPositions (lowercase_prefix_chars ++ lowercase_candidate) query last_positions ∧
      ∀ j ∈ last_positions, (prefix_left ++ candidate_left).length ≤ j := by
  induction query generalizing last_positions prefix_left candidate_left with
  | nil =>
    cases h
    exact ⟨List.prefix_rfl, ⟨rfl, List.Pairwise.nil, by simp⟩, by simp⟩
  | cons char query ih =>
    rw [find_last_positions] at h
    cases hrest : find_last_positions lowercase_prefix_chars lowercase_candidate query with
    | none => rw [hrest] at h; cases h
    | some found =>
      obtain ⟨positions, before, after⟩ := found
      rw [hrest] at h
      obtain ⟨hinit, hpositions, hle⟩ := ih hrest
      have htext : ∀ {j : Nat}, (before ++ after)[j]? = some char →
          (lowercase_prefix_chars ++ lowercase_candidate)[j]? = some char := fun {j} hj => by
        obtain ⟨tail, htail⟩ := hinit
        rw [← htail, List.getElem?_append_left (List.getElem?_eq_some_iff.mp hj).1, hj]
      cases hcandidate : rposition char after with
      | some j =>
        simp only [hcandidate, Option.some_inj, Prod.mk.injEq] at h
        obtain ⟨rfl, rfl, rfl⟩ := h
        have hj := (rposition_some hcandidate).1
        have hlt := (List.getElem?_eq_some_iff.mp hj).1
        have hat : (before ++ after)[j + before.length]? = some char := by
          rw [List.getElem?_append_right (Nat.le_add_left _ _), Nat.add_sub_cancel, hj]
        have hbefore : ∀ next ∈ positions, j + before.length < next := fun next hnext => by
          have hnext := hle next hnext
          rw [List.length_append] at hnext
          omega
        refine ⟨?_, hpositions.cons (htext hat) hbefore, fun next hnext => ?_⟩
        · exact ((List.prefix_append_right_inj before).mpr (List.take_prefix j after)).trans hinit
        · rw [List.length_append, List.length_take, Nat.min_eq_left hlt.le]
          rcases List.mem_cons.mp hnext with rfl | hin
          · omega
          · have hnext := hbefore next hin
            omega
      | none =>
        cases hearlier : rposition char before with
        | none => simp only [hcandidate, hearlier, reduceCtorEq] at h
        | some j =>
          simp only [hcandidate, hearlier, Option.some_inj, Prod.mk.injEq] at h
          obtain ⟨rfl, rfl, rfl⟩ := h
          have hj := (rposition_some hearlier).1
          have hlt := (List.getElem?_eq_some_iff.mp hj).1
          have hat : (before ++ after)[j]? = some char := by
            rw [List.getElem?_append_left hlt, hj]
          have hbefore : ∀ next ∈ positions, j < next := fun next hnext => by
            have hnext := hle next hnext
            rw [List.length_append] at hnext
            omega
          refine ⟨?_, hpositions.cons (htext hat) hbefore, fun next hnext => ?_⟩
          · rw [List.append_nil]
            exact ((List.take_prefix j before).trans (List.prefix_append _ _)).trans hinit
          · rw [List.append_nil, List.length_take, Nat.min_eq_left hlt.le]
            rcases List.mem_cons.mp hnext with rfl | hin
            · exact le_rfl
            · exact (hbefore next hin).le

/-- What comes before a character in a subsequence comes before its last occurrence. -/
theorem sublist_of_last {char : Char} {chars before after : List Char} (h : (chars ++ [char]).Sublist (before ++ char :: after))
    (hafter : char ∉ after) : chars.Sublist before := by
  have hreverse : ∀ {left right after : List Char}, (char :: left).Sublist (after ++ char :: right) → char ∉ after →
      left.Sublist right := by
    intro left right after hsub hnot
    induction after with
    | nil => exact List.cons_sublist_cons.mp hsub
    | cons c after ih =>
      rw [List.mem_cons, not_or] at hnot
      cases hsub with
      | cons _ hsub => exact ih hsub hnot.2
      | cons_cons _ _ => exact absurd rfl hnot.1
  have hsub := List.reverse_sublist.mpr h
  simp only [List.reverse_append, List.reverse_cons, List.reverse_nil, List.nil_append, List.append_assoc,
    List.singleton_append] at hsub
  exact List.reverse_sublist.mp (hreverse hsub (by simpa using hafter))

/-- Whatever is a subsequence is found, and as late as can be. -/
theorem exists_last_positions {lowercase_prefix_chars lowercase_candidate query chars : List Char}
    (h : (chars ++ query).Sublist (lowercase_prefix_chars ++ lowercase_candidate)) :
    ∃ last_positions prefix_left candidate_left,
      find_last_positions lowercase_prefix_chars lowercase_candidate query =
        some (last_positions, prefix_left, candidate_left) ∧ chars.Sublist (prefix_left ++ candidate_left) := by
  induction query generalizing chars with
  | nil => exact ⟨[], _, _, rfl, by rwa [List.append_nil] at h⟩
  | cons char query ih =>
    rw [List.append_cons] at h
    obtain ⟨positions, before, after, hfind, hsub⟩ := ih h
    rw [find_last_positions, hfind]
    have hsplit : ∀ {text : List Char} {j : Nat}, rposition char text = some j →
        text = text.take j ++ char :: text.drop (j + 1) := fun {text j} hj => by
      obtain ⟨hlt, hget⟩ := List.getElem?_eq_some_iff.mp (rposition_some hj).1
      rw [← hget, List.getElem_cons_drop, List.take_append_drop]
    cases hcandidate : rposition char after with
    | some j =>
      refine ⟨(j + before.length) :: positions, before, after.take j, by simp only [hcandidate], ?_⟩
      rw [hsplit hcandidate, ← List.append_assoc] at hsub
      exact sublist_of_last hsub (rposition_some hcandidate).2
    | none =>
      cases hearlier : rposition char before with
      | some j =>
        refine ⟨j :: positions, before.take j, [], by simp only [hcandidate, hearlier], ?_⟩
        rw [hsplit hearlier, List.append_assoc, List.cons_append] at hsub
        rw [List.append_nil]
        refine sublist_of_last hsub fun hmem => ?_
        rcases List.mem_append.mp hmem with hin | hin
        · exact (rposition_some hearlier).2 hin
        · exact rposition_none hcandidate hin
      | none =>
        have hmem : char ∈ before ++ after := hsub.subset (by simp)
        rcases List.mem_append.mp hmem with hin | hin
        · exact absurd hin (rposition_none hearlier)
        · exact absurd hin (rposition_none hcandidate)

end LastPositions

end zed.fuzzy
