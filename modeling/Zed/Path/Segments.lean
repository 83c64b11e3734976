import Zed.Path.RelPath

namespace zed.path

/-- Where a separator stands in a text that begins with a segment free of them. -/
theorem append_sep_eq {α : Type} {sep : α} {segment rest u v : List α} (hsegment : sep ∉ segment)
    (h : segment ++ sep :: rest = u ++ sep :: v) :
    (u = segment ∧ v = rest) ∨ ∃ w, u = segment ++ sep :: w ∧ rest = w ++ sep :: v := by
  induction segment generalizing u with
  | nil =>
    cases u with
    | nil => exact Or.inl ⟨rfl, (List.cons.inj h).2.symm⟩
    | cons c u =>
      obtain ⟨rfl, hrest⟩ := List.cons.inj h
      exact Or.inr ⟨u, rfl, hrest⟩
  | cons c segment ih =>
    obtain ⟨hc, hsegment⟩ := not_or.mp (List.mem_cons.not.mp hsegment)
    cases u with
    | nil => exact absurd (List.cons.inj h).1.symm hc
    | cons d u =>
      obtain ⟨rfl, htail⟩ := List.cons.inj h
      obtain ⟨rfl, hv⟩ | ⟨w, rfl, hw⟩ := ih hsegment htail
      · exact Or.inl ⟨rfl, hv⟩
      · exact Or.inr ⟨w, rfl, hw⟩

/-- Two texts agree up to the first separator and after it when they are equal. -/
theorem append_sep_inj {α : Type} {sep : α} {s t x y : List α} (hs : sep ∉ s) (ht : sep ∉ t) :
    s ++ sep :: x = t ++ sep :: y ↔ s = t ∧ x = y := by
  constructor
  · intro h
    obtain ⟨rfl, rfl⟩ | ⟨w, rfl, -⟩ := append_sep_eq hs h
    · exact ⟨rfl, rfl⟩
    · exact absurd (List.mem_append_right _ List.mem_cons_self) ht
  · rintro ⟨rfl, rfl⟩
    rfl

theorem join_eq_append_sep {segments : List (List Char)} (hsegments : ∀ s ∈ segments, SEPARATOR ∉ s)
    {u v : List Char} :
    join segments = u ++ SEPARATOR :: v ↔
      ∃ a b, segments = a ++ b ∧ a ≠ [] ∧ b ≠ [] ∧ join a = u ∧ join b = v := by
  constructor
  · intro h
    induction segments generalizing u with
    | nil => exact absurd h.symm (by simp [join])
    | cons s segments ih =>
      have hs := hsegments s List.mem_cons_self
      by_cases hnil : segments = []
      · subst hnil
        have hmem : SEPARATOR ∈ join [s] := h ▸ List.mem_append_right _ List.mem_cons_self
        exact absurd hmem hs
      · rw [join_cons hnil] at h
        obtain ⟨rfl, rfl⟩ | ⟨w, rfl, hw⟩ := append_sep_eq hs h
        · exact ⟨[u], segments, rfl, List.cons_ne_nil _ _, hnil, rfl, rfl⟩
        · obtain ⟨a, b, rfl, ha, hb, rfl, rfl⟩ :=
            ih (fun s hmem => hsegments s (List.mem_cons_of_mem _ hmem)) hw
          exact ⟨s :: a, b, rfl, List.cons_ne_nil _ _, hb, join_cons ha, rfl⟩
  · rintro ⟨a, b, rfl, ha, hb, rfl, rfl⟩
    exact join_append ha hb

theorem join_inj {s t : List (List Char)} (hs : ∀ x ∈ s, SEPARATOR ∉ x) (ht : ∀ x ∈ t, SEPARATOR ∉ x)
    (hsNil : s ≠ []) (htNil : t ≠ []) (h : join s = join t) : s = t := by
  induction s generalizing t with
  | nil => exact absurd rfl hsNil
  | cons x s ih =>
    obtain ⟨y, t, rfl⟩ := List.exists_cons_of_ne_nil htNil
    have hx := hs x List.mem_cons_self
    have hy := ht y List.mem_cons_self
    by_cases hsRest : s = []
    · by_cases htRest : t = []
      · subst hsRest htRest
        exact congrArg (· :: []) h
      · rw [hsRest, join_cons htRest] at h
        have hsplit : x = y ++ SEPARATOR :: join t := h
        exact absurd (hsplit ▸ List.mem_append_right _ List.mem_cons_self) hx
    · by_cases htRest : t = []
      · rw [htRest, join_cons hsRest] at h
        have hsplit : y = x ++ SEPARATOR :: join s := h.symm
        exact absurd (hsplit ▸ List.mem_append_right _ List.mem_cons_self) hy
      · rw [join_cons hsRest, join_cons htRest, append_sep_inj hx hy] at h
        obtain ⟨rfl, hjoin⟩ := h
        rw [ih (fun z hz => hs z (List.mem_cons_of_mem _ hz))
          (fun z hz => ht z (List.mem_cons_of_mem _ hz)) hsRest htRest hjoin]

end zed.path
