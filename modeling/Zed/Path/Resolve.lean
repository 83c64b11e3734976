import Zed.Path.RelPath

namespace zed.path

inductive PathStyle
  | Unix
  | Windows
deriving DecidableEq

/-- The characters that end a component in a style. -/
def PathStyle.separates (style : PathStyle) (c : Char) : Bool :=
  c = '/' || (style = .Windows && c = '\\')

def is_absolute (path_like : List Char) (path_style : PathStyle) : Bool :=
  path_like.head? = some '/' ||
    (path_style = .Windows &&
      (path_like.head? = some '\\' ||
        match path_like with
        | letter :: ':' :: c :: _ => letter.isAlpha && (c = '/' || c = '\\')
        | _ => false))

/-- `while prefixes.iter().any(|prefix| path.starts_with(prefix))` -/
def strip_prefixes (style : PathStyle) : List Char → List Char
  | '.' :: c :: path => if style.separates c then strip_prefixes style path else '.' :: c :: path
  | path => path

/-- The reverse of a path without the separators that it starts with, as long as
    something is left. -/
def strip_reversed (style : PathStyle) : List Char → List Char
  | c :: d :: path => if style.separates c then strip_reversed style (d :: path) else c :: d :: path
  | path => path

/-- `while let Some(prefix) = path.strip_suffix(suffixes) && !prefix.is_empty()` -/
def strip_suffixes (style : PathStyle) (path : List Char) : List Char := (strip_reversed style path.reverse).reverse

/-- A path that `RelPath::new` borrows from its argument, or one that it had to reformat. -/
inductive Cow
  | Borrowed (path : List Char)
  | Owned (path : List Char)
deriving DecidableEq

def Cow.text : Cow → List Char
  | .Borrowed path => path
  | .Owned path => path

namespace RelPathBuf

/-- `RelPathBuf::pop`, or `none` where there is nothing to pop. -/
def pop (path : List Char) : Option (List Char) :=
  if '/' ∈ path then some (path.reverse.dropWhile (· ≠ '/')).tail.reverse
  else if path ≠ [] then some []
  else none

def push (buf path : List Char) : List Char :=
  if path = [] then buf
  else if buf ≠ [] then buf ++ '/' :: path
  else path

end RelPathBuf

/-- `string.replace('\\', "/")`, where the style has it. -/
def unify (style : PathStyle) (path : List Char) : List Char :=
  if style = .Windows then path.map fun c => if c = '\\' then '/' else c else path

/-- The loop that resolves `.` and `..` into `normalized`. -/
def normalize_components (normalized : List Char) : List (List Char) → Option (List Char)
  | [] => some normalized
  | component :: components =>
    if component = [] then normalize_components normalized components
    else if component = ['.'] then normalize_components normalized components
    else if component = ['.', '.'] then
      match RelPathBuf.pop normalized with
      | none => none
      | some normalized => normalize_components normalized components
    else normalize_components (RelPathBuf.push normalized component) components

/-- `RelPath::new`, or `none` for its errors. -/
def RelPath.new (path : List Char) (path_style : PathStyle) : Option Cow :=
  let path := strip_suffixes path_style (strip_prefixes path_style path)
  if is_absolute path path_style then none
  else
    let string : Cow :=
      if path_style = .Windows ∧ '\\' ∈ path then .Owned (unify path_style path) else .Borrowed path
    if (zed.path.components string.text).any fun component => component = [] || component = ['.'] || component = ['.', '.'] then
      (normalize_components [] (zed.path.components string.text)).map .Owned
    else some string

/-- The names that are left of components when `.` and `..` are resolved, after
    `names`, or `none` when there are too few names for the `..` components. -/
def resolve (names : List (List Char)) : List (List Char) → Option (List (List Char))
  | [] => some names
  | component :: components =>
    if component = [] ∨ component = ['.'] then resolve names components
    else if component = ['.', '.'] then
      if names = [] then none else resolve names.dropLast components
    else resolve (names ++ [component]) components

def segments (style : PathStyle) (path : List Char) : List (List Char) := components (unify style path)

def Named (component : List Char) : Prop := component ≠ [] ∧ component ≠ ['.'] ∧ component ≠ ['.', '.']

instance (component : List Char) : Decidable (Named component) := inferInstanceAs (Decidable (_ ∧ _ ∧ _))

/-- Read from the left, the `..` components never outnumber the named ones. -/
def Grounded (components : List (List Char)) : Prop :=
  ∀ n, (components.take n).count ['.', '.'] ≤ ((components.take n).filter fun c => decide (Named c)).length

section join

variable {names : List (List Char)} {c : List Char}

/-- Names that can be joined and told apart again. -/
def Names (names : List (List Char)) : Prop := ∀ c ∈ names, Named c ∧ SEPARATOR ∉ c

theorem components_of_no_sep {c : List Char} (hne : c ≠ []) (hsep : SEPARATOR ∉ c) : components c = [c] := by
  induction c with
  | nil => exact absurd rfl hne
  | cons x c ih =>
    have hx : x ≠ SEPARATOR := fun h => hsep (h ▸ List.mem_cons_self)
    rw [components_cons hx]
    by_cases hnil : c = []
    · rw [hnil, components_nil]
      rfl
    · rw [ih hnil fun h => hsep (List.mem_cons_of_mem _ h)]
      rfl

theorem getLast_ne_sep {c : List Char} (hsep : SEPARATOR ∉ c) : c.getLast? ≠ some SEPARATOR :=
  fun h => hsep (List.mem_of_getLast? h)

theorem components_join (h : Names names) : components (join names) = names := by
  induction names with
  | nil => exact components_nil
  | cons c names ih =>
    obtain ⟨⟨hne, -⟩, hsep⟩ := h c List.mem_cons_self
    by_cases hnil : names = []
    · rw [hnil]
      exact components_of_no_sep hne hsep
    · rw [join_cons hnil, components_append hne (getLast_ne_sep hsep), components_of_no_sep hne hsep,
        ih fun x hx => h x (List.mem_cons_of_mem _ hx)]
      rfl

theorem join_eq_nil (h : Names names) : join names = [] ↔ names = [] := by
  rw [← components_eq_nil, components_join h]

theorem Names.dropLast (h : Names names) : Names names.dropLast := fun c hc => h c (List.dropLast_subset _ hc)

theorem Names.concat (h : Names names) (hc : Named c) (hsep : SEPARATOR ∉ c) : Names (names ++ [c]) := fun x hx => by
  rcases List.mem_append.mp hx with hx | hx
  · exact h x hx
  · rw [List.mem_singleton.mp hx]
    exact ⟨hc, hsep⟩

theorem join_concat (hne : names ≠ []) (c : List Char) : join (names ++ [c]) = join names ++ SEPARATOR :: c :=
  join_append hne (List.cons_ne_nil _ _)

theorem push_join (h : Names names) (hc : Named c) : RelPathBuf.push (join names) c = join (names ++ [c]) := by
  rw [RelPathBuf.push, if_neg hc.1]
  by_cases hnil : names = []
  · rw [hnil]
    rfl
  · rw [if_pos (mt (join_eq_nil h).mp hnil), join_concat hnil]
    rfl

theorem pop_join (h : Names names) : RelPathBuf.pop (join names) = if names = [] then none else some (join names.dropLast) := by
  by_cases hnil : names = []
  · rw [hnil]
    rfl
  · obtain ⟨before, c, hsplit⟩ : ∃ before c, names = before ++ [c] :=
      ⟨names.dropLast, names.getLast hnil, (List.dropLast_append_getLast hnil).symm⟩
    obtain ⟨⟨hne, -⟩, hsep⟩ := h c (hsplit ▸ List.mem_append_right _ List.mem_cons_self)
    rw [if_neg hnil, hsplit, List.dropLast_concat]
    by_cases hbefore : before = []
    · rw [hbefore]
      change RelPathBuf.pop c = some []
      have hslash : '/' ∉ c := hsep
      rw [RelPathBuf.pop, if_neg hslash, if_pos hne]
    · have hslash : '/' ∈ join before ++ SEPARATOR :: c := List.mem_append_right _ List.mem_cons_self
      have hrev : (join before ++ SEPARATOR :: c).reverse.dropWhile (· ≠ '/') = SEPARATOR :: (join before).reverse := by
        rw [List.reverse_append, List.reverse_cons, List.append_assoc, List.dropWhile_append_of_pos]
        · rfl
        · intro x hx
          refine decide_eq_true fun heq : x = SEPARATOR => hsep ?_
          rw [← heq]
          exact List.mem_reverse.mp hx
      rw [join_concat hbefore, RelPathBuf.pop, if_pos hslash, hrev, List.tail_cons, List.reverse_reverse]

end join

theorem normalize_components_eq {names components : List (List Char)} (h : Names names)
    (hcomponents : ∀ c ∈ components, SEPARATOR ∉ c) :
    normalize_components (join names) components = (resolve names components).map join := by
  induction components generalizing names with
  | nil => rfl
  | cons c components ih =>
    have hrest := fun x hx => hcomponents x (List.mem_cons_of_mem _ hx)
    rw [normalize_components, resolve]
    by_cases hempty : c = []
    · rw [if_pos hempty, if_pos (Or.inl hempty), ih h hrest]
    · by_cases hdot : c = ['.']
      · rw [if_neg hempty, if_pos hdot, if_pos (Or.inr hdot), ih h hrest]
      · rw [if_neg hempty, if_neg hdot, if_neg (not_or.mpr ⟨hempty, hdot⟩)]
        by_cases hdots : c = ['.', '.']
        · rw [if_pos hdots, if_pos hdots, pop_join h]
          by_cases hnil : names = []
          · rw [if_pos hnil, if_pos hnil]
            rfl
          · rw [if_neg hnil, if_neg hnil]
            exact ih h.dropLast hrest
        · have hnamed : Named c := ⟨hempty, hdot, hdots⟩
          rw [if_neg hdots, if_neg hdots, push_join h hnamed,
            ih (h.concat hnamed (hcomponents c List.mem_cons_self)) hrest]

section resolve

variable {names components left : List (List Char)}

theorem resolve_of_named (names : List (List Char)) (h : ∀ c ∈ components, Named c) :
    resolve names components = some (names ++ components) := by
  induction components generalizing names with
  | nil => rw [resolve, List.append_nil]
  | cons c components ih =>
    obtain ⟨hempty, hdot, hdots⟩ := h c List.mem_cons_self
    rw [resolve, if_neg (not_or.mpr ⟨hempty, hdot⟩), if_neg hdots, ih _ fun x hx => h x (List.mem_cons_of_mem _ hx),
      List.append_assoc]
    rfl

theorem resolve_names (h : Names names) (hcomponents : ∀ c ∈ components, SEPARATOR ∉ c)
    (hleft : resolve names components = some left) : Names left := by
  induction components generalizing names with
  | nil =>
    rw [resolve, Option.some.injEq] at hleft
    rwa [← hleft]
  | cons c components ih =>
    have hrest := fun x hx => hcomponents x (List.mem_cons_of_mem _ hx)
    rw [resolve] at hleft
    by_cases hskip : c = [] ∨ c = ['.']
    · rw [if_pos hskip] at hleft
      exact ih h hrest hleft
    · rw [if_neg hskip] at hleft
      by_cases hdots : c = ['.', '.']
      · rw [if_pos hdots] at hleft
        by_cases hnil : names = []
        · rw [if_pos hnil] at hleft
          cases hleft
        · rw [if_neg hnil] at hleft
          exact ih h.dropLast hrest hleft
      · rw [if_neg hdots] at hleft
        obtain ⟨hempty, hdot⟩ := not_or.mp hskip
        exact ih (h.concat ⟨hempty, hdot, hdots⟩ (hcomponents c List.mem_cons_self)) hrest hleft

theorem resolve_isSome_iff (names components : List (List Char)) : (resolve names components).isSome ↔
    ∀ n, (components.take n).count ['.', '.'] ≤ names.length + ((components.take n).filter fun c => decide (Named c)).length := by
  induction components generalizing names with
  | nil => simp [resolve]
  | cons c components ih =>
    rw [resolve]
    by_cases hskip : c = [] ∨ c = ['.']
    · have hnamed : ¬ Named c := fun h => hskip.elim h.1 h.2.1
      have hdots : c ≠ ['.', '.'] := by
        rcases hskip with rfl | rfl <;> decide
      rw [if_pos hskip, ih]
      constructor
      · intro h n
        cases n with
        | zero => simp
        | succ n => simpa [hnamed, hdots, List.count_cons] using h n
      · intro h n
        simpa [hnamed, hdots, List.count_cons] using h (n + 1)
    · rw [if_neg hskip]
      obtain ⟨hempty, hdot⟩ := not_or.mp hskip
      by_cases hdots : c = ['.', '.']
      · subst hdots
        have hnamed : ¬ Named ['.', '.'] := by decide
        rw [if_pos rfl]
        by_cases hnil : names = []
        · rw [if_pos hnil, hnil]
          constructor
          · intro h
            cases h
          · intro h
            have := h 1
            simp [hnamed] at this
        · have hpos := List.length_pos_of_ne_nil hnil
          rw [if_neg hnil, ih, List.length_dropLast]
          constructor
          · intro h n
            cases n with
            | zero => simp
            | succ n =>
              have := h n
              simp only [List.take_succ_cons, List.filter_cons, hnamed, decide_false, List.count_cons_self,
                Bool.false_eq_true, if_false] at this ⊢
              omega
          · intro h n
            have := h (n + 1)
            simp only [List.take_succ_cons, List.filter_cons, hnamed, decide_false, List.count_cons_self,
              Bool.false_eq_true, if_false] at this ⊢
            omega
      · have hnamed : Named c := ⟨hempty, hdot, hdots⟩
        rw [if_neg hdots, ih, List.length_append, List.length_singleton]
        constructor
        · intro h n
          cases n with
          | zero => simp
          | succ n =>
            have := h n
            simp only [List.take_succ_cons, List.filter_cons, hnamed, decide_true, if_true, List.length_cons,
              List.count_cons_of_ne hdots] at this ⊢
            omega
        · intro h n
          have := h (n + 1)
          simp only [List.take_succ_cons, List.filter_cons, hnamed, decide_true, if_true, List.length_cons,
            List.count_cons_of_ne hdots] at this ⊢
          omega

theorem grounded_iff (components : List (List Char)) : Grounded components ↔ (resolve [] components).isSome := by
  rw [resolve_isSome_iff, Grounded]
  simp

end resolve

end zed.path
