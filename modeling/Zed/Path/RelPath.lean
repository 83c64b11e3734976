import Mathlib

namespace zed.path

def SEPARATOR : Char := '/'

/-- `RelPathComponents::next`, with what is left to iterate. -/
def next (s : List Char) : Option (List Char × List Char) :=
  if SEPARATOR ∈ s then
    some (s.takeWhile (· ≠ SEPARATOR), (s.dropWhile (· ≠ SEPARATOR)).tail)
  else if s = [] then none
  else some (s, [])

theorem next_length {s head rest : List Char} (h : next s = some (head, rest)) :
    rest.length < s.length := by
  unfold next at h
  split at h
  · next hmem =>
    obtain ⟨-, rfl⟩ := Prod.mk.inj (Option.some.inj h)
    have hdrop := (List.dropWhile_sublist (l := s) (· ≠ SEPARATOR)).length_le
    have hpos := List.length_pos_of_mem hmem
    rw [List.length_tail]
    omega
  · split at h
    · cases h
    · next hne =>
      obtain ⟨-, rfl⟩ := Prod.mk.inj (Option.some.inj h)
      exact List.length_pos_of_ne_nil hne

def components (s : List Char) : List (List Char) :=
  match _hnext : next s with
  | none => []
  | some (head, rest) => head :: components rest
termination_by s.length
decreasing_by exact next_length _hnext

theorem components_nil : components [] = [] := by
  unfold components
  simp [next]

theorem components_sep (s : List Char) : components (SEPARATOR :: s) = [] :: components s := by
  have hnext : next (SEPARATOR :: s) = some ([], s) := by simp [next]
  rw [components]
  split
  · next h => rw [hnext] at h; cases h
  · next h =>
    rw [hnext] at h
    cases h
    rfl

theorem components_cons {c : Char} (hc : c ≠ SEPARATOR) (s : List Char) :
    components (c :: s) = (c :: (components s).headD []) :: (components s).tail := by
  have hne : SEPARATOR ≠ c := hc.symm
  rw [components, components.eq_def s]
  by_cases hmem : SEPARATOR ∈ s
  · have hs : next s = some (s.takeWhile (· ≠ SEPARATOR), (s.dropWhile (· ≠ SEPARATOR)).tail) := by
      rw [next, if_pos hmem]
    have hcs : next (c :: s) =
        some (c :: s.takeWhile (· ≠ SEPARATOR), (s.dropWhile (· ≠ SEPARATOR)).tail) := by
      rw [next, if_pos (List.mem_cons_of_mem _ hmem)]
      simp [hc]
    split
    · next h => rw [hcs] at h; cases h
    · next h =>
      rw [hcs] at h
      cases h
      split
      · next h => rw [hs] at h; cases h
      · next h =>
        rw [hs] at h
        cases h
        rfl
  · have hcs : next (c :: s) = some (c :: s, []) := by simp [next, hmem, hne]
    split
    · next h => rw [hcs] at h; cases h
    · next h =>
      rw [hcs] at h
      cases h
      by_cases hnil : s = []
      · subst hnil
        have hs : next [] = none := rfl
        split
        · rw [components_nil]; rfl
        · next h => rw [hs] at h; cases h
      · have hs : next s = some (s, []) := by rw [next, if_neg hmem, if_neg hnil]
        split
        · next h => rw [hs] at h; cases h
        · next h =>
          rw [hs] at h
          cases h
          rw [components_nil]
          rfl

theorem components_eq_nil {s : List Char} : components s = [] ↔ s = [] := by
  cases s with
  | nil => simp [components_nil]
  | cons c s =>
    by_cases hc : c = SEPARATOR
    · subst hc
      simp [components_sep]
    · simp [components_cons hc]

/-- Components joined again, as `RelPathBuf::push` does. -/
def join : List (List Char) → List Char
  | [] => []
  | [c] => c
  | c :: d :: rest => c ++ SEPARATOR :: join (d :: rest)

theorem join_cons {c : List Char} {rest : List (List Char)} (h : rest ≠ []) :
    join (c :: rest) = c ++ SEPARATOR :: join rest := by
  cases rest with
  | nil => exact absurd rfl h
  | cons d rest => rfl

theorem join_cons_cons (x : Char) (c : List Char) (rest : List (List Char)) :
    join ((x :: c) :: rest) = x :: join (c :: rest) := by
  cases rest <;> rfl

theorem join_append {s t : List (List Char)} (hs : s ≠ []) (ht : t ≠ []) :
    join (s ++ t) = join s ++ SEPARATOR :: join t := by
  induction s with
  | nil => exact absurd rfl hs
  | cons c s ih =>
    by_cases hnil : s = []
    · subst hnil
      exact join_cons ht
    · rw [List.cons_append, join_cons (by simp [hnil]), join_cons hnil, ih hnil, List.append_assoc]
      rfl

theorem join_components {s : List Char} (h : s.getLast? ≠ some SEPARATOR) :
    join (components s) = s := by
  induction s with
  | nil => rw [components_nil]; rfl
  | cons c s ih =>
    by_cases hs : s = []
    · subst hs
      have hc : c ≠ SEPARATOR := fun hc => h (by rw [hc]; rfl)
      rw [components_cons hc, components_nil]
      rfl
    · have hrest : join (components s) = s := by
        apply ih
        rwa [List.getLast?_cons, List.getLast?_eq_some_getLast hs, Option.getD_some,
          ← List.getLast?_eq_some_getLast hs] at h
      have hcomponents : components s ≠ [] := fun hnil => hs (components_eq_nil.mp hnil)
      by_cases hc : c = SEPARATOR
      · subst hc
        rw [components_sep, join_cons hcomponents, hrest]
        rfl
      · obtain ⟨head, tail, hsplit⟩ := List.exists_cons_of_ne_nil hcomponents
        rw [components_cons hc, hsplit]
        show join ((c :: head) :: tail) = c :: s
        rw [join_cons_cons, ← hsplit, hrest]

theorem components_append {s : List Char} (hs : s ≠ []) (hlast : s.getLast? ≠ some SEPARATOR)
    (t : List Char) : components (s ++ SEPARATOR :: t) = components s ++ components t := by
  induction s with
  | nil => exact absurd rfl hs
  | cons c s ih =>
    by_cases hnil : s = []
    · subst hnil
      have hc : c ≠ SEPARATOR := fun hc => hlast (by rw [hc]; rfl)
      rw [components_cons hc, components_nil, List.cons_append, List.nil_append,
        components_cons hc, components_sep]
      rfl
    · have hrest := ih hnil (by
        rwa [List.getLast?_cons, List.getLast?_eq_some_getLast hnil, Option.getD_some,
          ← List.getLast?_eq_some_getLast hnil] at hlast)
      by_cases hc : c = SEPARATOR
      · subst hc
        rw [List.cons_append, components_sep, components_sep, hrest]
        rfl
      · have hcomponents : components s ≠ [] := fun h => hnil (components_eq_nil.mp h)
        obtain ⟨head, tail, hsplit⟩ := List.exists_cons_of_ne_nil hcomponents
        rw [List.cons_append, components_cons hc, components_cons hc, hrest, hsplit]
        rfl

section Lexicographic

variable {α : Type} [LinearOrder α]

theorem le_append (s t : List α) : s ≤ s ++ t := by
  induction s with
  | nil =>
    cases t with
    | nil => exact le_refl _
    | cons b t => exact (List.nil_lt_cons b t).le
  | cons a s ih => exact List.cons_le_cons a ih

theorem prefix_of_between {s t u : List α} (hst : s ≤ t) (htu : t ≤ u) (hu : s <+: u) : s <+: t := by
  induction s generalizing t u with
  | nil => exact List.nil_prefix
  | cons a s ih =>
    obtain ⟨rest, rfl⟩ := hu
    cases t with
    | nil => exact absurd hst (List.nil_lt_cons a s).not_ge
    | cons b t =>
      rw [List.cons_append] at htu
      have hab : a = b := by
        rcases lt_trichotomy a b with hlt | heq | hgt
        · exact absurd htu (List.cons_lt_cons_iff.mpr (Or.inl hlt)).not_ge
        · exact heq
        · exact absurd hst (List.cons_lt_cons_iff.mpr (Or.inl hgt)).not_ge
      subst hab
      have hst' : s ≤ t := not_lt.mp fun h => hst.not_gt (List.cons_lt_cons_iff.mpr (Or.inr ⟨rfl, h⟩))
      have htu' : t ≤ s ++ rest :=
        not_lt.mp fun h => htu.not_gt (List.cons_lt_cons_iff.mpr (Or.inr ⟨rfl, h⟩))
      obtain ⟨more, hmore⟩ := ih hst' htu' (List.prefix_append s rest)
      exact ⟨more, by rw [List.cons_append, hmore]⟩

end Lexicographic

/-- What `RelPath::new` leaves: no component is empty, `.` or `..`, and no separator
    ends the string. -/
def Normalized (s : List Char) : Prop :=
  (∀ component ∈ components s, component ≠ [] ∧ component ≠ ['.'] ∧ component ≠ ['.', '.']) ∧
    s.getLast? ≠ some SEPARATOR

instance (s : List Char) : Decidable (Normalized s) := inferInstanceAs (Decidable (_ ∧ _))

/-- A file system path that is guaranteed to be relative and normalized. -/
structure RelPath where
  as_unix_str : List Char
  normalized : Normalized as_unix_str
deriving DecidableEq

namespace RelPath

@[ext] theorem ext {p q : RelPath} (h : p.as_unix_str = q.as_unix_str) : p = q := by
  cases p
  cases q
  cases h
  rfl

def empty : RelPath := ⟨[], by simp [Normalized, components_nil]⟩

def components (p : RelPath) : List (List Char) := path.components p.as_unix_str

theorem components_injective : Function.Injective components := by
  intro p q h
  ext1
  rw [← join_components p.normalized.2, ← join_components q.normalized.2]
  exact congrArg join h

/-- `Ord::cmp` compares the components, not the strings. -/
instance : LinearOrder RelPath := LinearOrder.lift' components components_injective

theorem le_iff {p q : RelPath} : p ≤ q ↔ p.components ≤ q.components := Iff.rfl

def strip_prefix (p other : RelPath) : Option (List Char) :=
  if other.as_unix_str = [] then some p.as_unix_str
  else if other.as_unix_str <+: p.as_unix_str then
    match p.as_unix_str.drop other.as_unix_str.length with
    | [] => some []
    | c :: suffix => if c = SEPARATOR then some suffix else none
  else none

def starts_with (p other : RelPath) : Bool := (p.strip_prefix other).isSome

theorem starts_with_iff {p other : RelPath} :
    p.starts_with other = true ↔ other.components <+: p.components := by
  unfold starts_with strip_prefix
  by_cases hnil : other.as_unix_str = []
  · have hcomponents : other.components = [] := components_eq_nil.mpr hnil
    simp [hnil, hcomponents]
  have hjoin := join_components other.normalized.2
  rw [if_neg hnil]
  constructor
  · intro h
    split at h
    · next hinitial =>
      obtain ⟨suffix, hsuffix⟩ := hinitial
      rw [← hsuffix, List.drop_left] at h
      cases suffix with
      | nil =>
        rw [List.append_nil] at hsuffix
        rw [RelPath.ext hsuffix]
      | cons c suffix =>
        by_cases hc : c = SEPARATOR
        · subst hc
          rw [components, components, ← hsuffix, components_append hnil other.normalized.2]
          exact List.prefix_append _ _
        · simp [hc] at h
    · cases h
  · rintro ⟨rest, hrest⟩
    have hp := join_components p.normalized.2
    have hother : other.components ≠ [] := fun h => hnil (components_eq_nil.mp h)
    have hsplit : path.components p.as_unix_str = other.components ++ rest := hrest.symm
    rw [hsplit] at hp
    by_cases hrestNil : rest = []
    · rw [hrestNil, List.append_nil, components, hjoin] at hp
      rw [← hp, if_pos (List.prefix_refl _), List.drop_length]
      rfl
    · rw [join_append hother hrestNil, components, hjoin] at hp
      rw [← hp, if_pos (List.prefix_append _ _), List.drop_left]
      simp

theorem starts_with_self (p : RelPath) : p.starts_with p = true :=
  starts_with_iff.mpr (List.prefix_refl _)

theorem le_of_starts_with {p root : RelPath} (h : p.starts_with root = true) : root ≤ p := by
  obtain ⟨rest, hrest⟩ := starts_with_iff.mp h
  rw [le_iff, ← hrest]
  exact le_append root.components rest

theorem starts_with_of_between {p q root : RelPath} (hroot : root ≤ p) (hle : p ≤ q)
    (hq : q.starts_with root = true) : p.starts_with root = true :=
  starts_with_iff.mpr (prefix_of_between hroot hle (starts_with_iff.mp hq))

/-- `while let Some(prefix) = path.strip_suffix('/') && !prefix.is_empty()` -/
def strip_separators (s : List Char) : List Char :=
  if s.getLast? = some SEPARATOR ∧ s.dropLast ≠ [] then strip_separators s.dropLast else s
termination_by s.length
decreasing_by
  next h =>
    have hpos := List.length_pos_of_ne_nil fun hnil : s = [] => h.2 (by rw [hnil]; rfl)
    rw [List.length_dropLast]
    omega

/-- `while path.starts_with("./")` -/
def strip_dots : List Char → List Char
  | '.' :: '/' :: s => strip_dots s
  | s => s

/-- A string that `RelPath::new` would have to rewrite is an error, so what is
    accepted is only stripped at its ends. -/
def from_unix_str (s : List Char) : Option RelPath :=
  let path := strip_separators (strip_dots s)
  if path.head? = some SEPARATOR then none
  else if h : Normalized path then some ⟨path, h⟩
  else none

theorem strip_dots_normalized {s : List Char} (h : Normalized s) : strip_dots s = s := by
  unfold strip_dots
  split
  · next rest =>
    have hdot : path.components ('.' :: '/' :: rest) = ['.'] :: path.components rest := by
      rw [components_cons (by decide), show '/' = SEPARATOR from rfl, components_sep]
      rfl
    refine absurd rfl (h.1 ['.'] ?_).2.1
    rw [hdot]
    exact List.mem_cons_self
  · rfl

theorem strip_separators_normalized {s : List Char} (h : Normalized s) : strip_separators s = s := by
  rw [strip_separators, if_neg fun hlast => h.2 hlast.1]

theorem from_unix_str_as_unix_str (p : RelPath) : from_unix_str p.as_unix_str = some p := by
  have hhead : p.as_unix_str.head? ≠ some SEPARATOR := by
    intro hhead
    obtain ⟨rest, hrest⟩ : ∃ rest, p.as_unix_str = SEPARATOR :: rest := by
      cases hs : p.as_unix_str with
      | nil => rw [hs] at hhead; cases hhead
      | cons c rest =>
        rw [hs] at hhead
        exact ⟨rest, by rw [Option.some.inj hhead]⟩
    refine (p.normalized.1 [] ?_).1 rfl
    rw [hrest, components_sep]
    exact List.mem_cons_self
  unfold from_unix_str
  rw [strip_dots_normalized p.normalized, strip_separators_normalized p.normalized]
  dsimp only
  rw [if_neg hhead, dif_pos p.normalized]

end RelPath

end zed.path
