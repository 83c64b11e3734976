import Zed.Path.Resolve

namespace zed.path

/-- What `RelPath::new` looks at, once it has stripped the ends. -/
def stripped (style : PathStyle) (path : List Char) : List Char := strip_suffixes style (strip_prefixes style path)

section strip

variable {style : PathStyle}

theorem separates_slash (style : PathStyle) : style.separates '/' = true := rfl

theorem unify_eq_map (style : PathStyle) (path : List Char) :
    unify style path = path.map fun c => if style.separates c then '/' else c := by
  have hslash : ∀ c : Char, (if c = '/' then '/' else c) = c := fun c => by
    split
    · next h => exact h.symm
    · rfl
  cases style with
  | Unix =>
    have hunix : (fun c : Char => if PathStyle.Unix.separates c then '/' else c) = id := by
      funext c
      simp [PathStyle.separates, hslash]
    rw [hunix, List.map_id]
    rfl
  | Windows =>
    rw [unify, if_pos rfl]
    apply List.map_congr_left
    intro c _
    by_cases h : c = '/' <;> simp [PathStyle.separates, h]

theorem segments_nil (style : PathStyle) : segments style [] = [] := by
  rw [segments, unify_eq_map]
  exact components_nil

theorem segments_cons_sep {c : Char} (hc : style.separates c = true) (path : List Char) :
    segments style (c :: path) = [] :: segments style path := by
  rw [segments, unify_eq_map, List.map_cons, if_pos hc, segments, unify_eq_map]
  exact components_sep _

theorem segments_cons {c : Char} (hc : style.separates c = false) (path : List Char) :
    segments style (c :: path) = (c :: (segments style path).headD []) :: (segments style path).tail := by
  have hne : c ≠ SEPARATOR := fun h => by
    rw [h] at hc
    cases style <;> cases hc
  rw [segments, unify_eq_map, List.map_cons, hc, if_neg Bool.false_ne_true, components_cons hne, ← unify_eq_map]
  rfl

theorem mem_components {s c : List Char} (h : c ∈ components s) : SEPARATOR ∉ c ∧ ∀ x ∈ c, x ∈ s := by
  induction s generalizing c with
  | nil =>
    rw [components_nil] at h
    cases h
  | cons x s ih =>
    by_cases hx : x = SEPARATOR
    · subst hx
      rw [components_sep] at h
      obtain rfl | h := List.mem_cons.mp h
      · simp
      · exact ⟨(ih h).1, fun y hy => List.mem_cons_of_mem _ ((ih h).2 y hy)⟩
    · rw [components_cons hx] at h
      have hhead : SEPARATOR ∉ (components s).headD [] ∧ ∀ y ∈ (components s).headD [], y ∈ s := by
        cases hs : components s with
        | nil => simp
        | cons first rest =>
          refine ih ?_
          rw [hs]
          exact List.mem_cons_self
      obtain rfl | h := List.mem_cons.mp h
      · refine ⟨fun hmem => ?_, fun y hy => ?_⟩
        · rcases List.mem_cons.mp hmem with heq | hmem
          · exact hx heq.symm
          · exact hhead.1 hmem
        · rcases List.mem_cons.mp hy with rfl | hy
          · exact List.mem_cons_self
          · exact List.mem_cons_of_mem _ (hhead.2 y hy)
      · have hmem := List.mem_of_mem_tail h
        exact ⟨(ih hmem).1, fun y hy => List.mem_cons_of_mem _ ((ih hmem).2 y hy)⟩

theorem mem_segments {path c : List Char} (h : c ∈ segments style path) : ∀ x ∈ c, style.separates x = false := by
  obtain ⟨hsep, hmem⟩ := mem_components h
  intro x hx
  have hxs := hmem x hx
  rw [unify_eq_map] at hxs
  obtain ⟨y, -, hy⟩ := List.mem_map.mp hxs
  by_cases hys : style.separates y = true
  · rw [if_pos hys] at hy
    rw [← hy] at hx
    exact absurd hx hsep
  · rw [if_neg hys] at hy
    rw [← hy]
    exact Bool.eq_false_iff.mpr hys

theorem resolve_empty (names components : List (List Char)) : resolve names (components ++ [[]]) = resolve names components := by
  induction components generalizing names with
  | nil => rfl
  | cons c components ih =>
    rw [List.cons_append, resolve, resolve]
    by_cases hskip : c = [] ∨ c = ['.']
    · rw [if_pos hskip, if_pos hskip, ih]
    · rw [if_neg hskip, if_neg hskip]
      by_cases hdots : c = ['.', '.']
      · rw [if_pos hdots, if_pos hdots]
        by_cases hnil : names = []
        · rw [if_pos hnil, if_pos hnil]
        · rw [if_neg hnil, if_neg hnil, ih]
      · rw [if_neg hdots, if_neg hdots, ih]

/-- A trailing separator adds nothing, or an empty component. -/
theorem segments_concat_sep {c : Char} (hc : style.separates c = true) (path : List Char) :
    segments style (path ++ [c]) = segments style path ∨ segments style (path ++ [c]) = segments style path ++ [[]] := by
  induction path with
  | nil =>
    right
    rw [List.nil_append, segments_cons_sep hc, segments_nil]
    rfl
  | cons x path ih =>
    rw [List.cons_append]
    cases hx : style.separates x with
    | true =>
      rw [segments_cons_sep hx, segments_cons_sep hx]
      exact ih.imp (congrArg _) (congrArg _)
    | false =>
      rw [segments_cons hx, segments_cons hx]
      rcases ih with heq | heq
      · exact Or.inl (by rw [heq])
      · rw [heq]
        cases segments style path with
        | nil => exact Or.inl rfl
        | cons first rest => exact Or.inr rfl

theorem resolve_concat_seps (path : List Char) {seps : List Char} (hseps : ∀ c ∈ seps, style.separates c = true) :
    resolve [] (segments style (path ++ seps)) = resolve [] (segments style path) := by
  induction seps generalizing path with
  | nil => rw [List.append_nil]
  | cons c seps ih =>
    rw [← List.singleton_append, ← List.append_assoc, ih _ fun x hx => hseps x (List.mem_cons_of_mem _ hx)]
    rcases segments_concat_sep (hseps c List.mem_cons_self) path with heq | heq
    · rw [heq]
    · rw [heq, resolve_empty]

theorem resolve_strip_prefixes (style : PathStyle) (path : List Char) :
    resolve [] (segments style (strip_prefixes style path)) = resolve [] (segments style path) := by
  fun_induction strip_prefixes style path with
  | case1 c path hc ih =>
    have hdot : style.separates '.' = false := by cases style <;> rfl
    rw [ih, segments_cons hdot, segments_cons_sep hc]
    rfl
  | case2 c path hc => rfl
  | case3 path hpath => rfl

/-- What is stripped at the end, and what is left there. -/
theorem strip_reversed_spec (style : PathStyle) (path : List Char) :
    ∃ seps, (∀ c ∈ seps, style.separates c = true) ∧ path = seps ++ strip_reversed style path ∧
      ∀ c, (strip_reversed style path).head? = some c → style.separates c = true → strip_reversed style path = [c] := by
  fun_induction strip_reversed style path with
  | case1 c d path hc ih =>
    obtain ⟨seps, hseps, hsplit, hhead⟩ := ih
    refine ⟨c :: seps, fun x hx => ?_, by rw [List.cons_append, ← hsplit], hhead⟩
    obtain rfl | hx := List.mem_cons.mp hx
    · exact hc
    · exact hseps x hx
  | case2 c d path hc =>
    refine ⟨[], by simp, rfl, fun x hx hsep => ?_⟩
    rw [List.head?_cons, Option.some.injEq] at hx
    rw [hx] at hc
    exact absurd hsep hc
  | case3 path hpath =>
    refine ⟨[], by simp, rfl, fun x hx _ => ?_⟩
    cases path with
    | nil => cases hx
    | cons y path =>
      cases path with
      | nil => rw [List.head?_cons, Option.some.injEq] at hx; rw [hx]
      | cons z path => exact absurd rfl (hpath y z path)

theorem resolve_strip_suffixes (style : PathStyle) (path : List Char) :
    resolve [] (segments style (strip_suffixes style path)) = resolve [] (segments style path) := by
  obtain ⟨seps, hseps, hsplit, -⟩ := strip_reversed_spec style path.reverse
  have hpath : path = strip_suffixes style path ++ seps.reverse := by
    rw [strip_suffixes, ← List.reverse_append, ← hsplit, List.reverse_reverse]
  conv_rhs => rw [hpath]
  exact (resolve_concat_seps _ fun c hc => hseps c (List.mem_reverse.mp hc)).symm

theorem resolve_stripped (style : PathStyle) (path : List Char) :
    resolve [] (segments style (stripped style path)) = resolve [] (segments style path) := by
  rw [stripped, resolve_strip_suffixes, resolve_strip_prefixes]

theorem stripped_last {path : List Char} (h : is_absolute (stripped style path) style = false) :
    (unify style (stripped style path)).getLast? ≠ some SEPARATOR := by
  intro hlast
  obtain ⟨-, -, -, hhead⟩ := strip_reversed_spec style (strip_prefixes style path).reverse
  rw [unify_eq_map, List.getLast?_map] at hlast
  obtain ⟨c, hc, hsep⟩ := Option.map_eq_some_iff.mp hlast
  have hcsep : style.separates c = true := by
    by_contra hnot
    rw [if_neg hnot] at hsep
    rw [hsep] at hnot
    exact hnot (separates_slash style)
  rw [stripped, strip_suffixes, List.getLast?_reverse] at hc
  have hsingle := hhead c hc hcsep
  have habsolute : is_absolute [c] style = true := by
    cases style with
    | Unix => simpa [is_absolute, PathStyle.separates] using hcsep
    | Windows => simpa [is_absolute, PathStyle.separates] using hcsep
  rw [stripped, strip_suffixes, hsingle, List.reverse_singleton, habsolute] at h
  cases h

end strip

section new

variable {path_style : PathStyle} {path : List Char} {names : List (List Char)}

theorem unify_of_no_backslash (h : ¬ (path_style = .Windows ∧ '\\' ∈ path)) : unify path_style path = path := by
  unfold unify
  by_cases hstyle : path_style = .Windows
  · rw [if_pos hstyle]
    have hmap : path.map (fun c => if c = '\\' then '/' else c) = path.map id :=
      List.map_congr_left fun c hc => if_neg fun heq : c = '\\' => h ⟨hstyle, by rwa [← heq]⟩
    rw [hmap, List.map_id]
  · rw [if_neg hstyle]

theorem new_text (path : List Char) (path_style : PathStyle) : (RelPath.new path path_style).map Cow.text =
    if is_absolute (stripped path_style path) path_style = true then none
    else (resolve [] (segments path_style path)).map join := by
  rw [← resolve_stripped]
  unfold RelPath.new
  change (if is_absolute (stripped path_style path) path_style = true then _ else _ : Option Cow).map Cow.text = _
  by_cases habsolute : is_absolute (stripped path_style path) path_style = true
  · rw [if_pos habsolute, if_pos habsolute]
    rfl
  · rw [if_neg habsolute, if_neg habsolute]
    change Option.map Cow.text (if _ then _ else _) = _
    obtain ⟨string, hstring, htext⟩ : ∃ string : Cow,
        (if path_style = .Windows ∧ '\\' ∈ stripped path_style path then
          Cow.Owned (unify path_style (stripped path_style path)) else .Borrowed (stripped path_style path)) = string ∧
        string.text = unify path_style (stripped path_style path) := by
      refine ⟨_, rfl, ?_⟩
      split
      · rfl
      · next h => exact (unify_of_no_backslash h).symm
    rw [show strip_suffixes path_style (strip_prefixes path_style path) = stripped path_style path from rfl, hstring, htext]
    split
    · rw [Option.map_map]
      have hnone : Names [] := by simp [Names]
      have heq := normalize_components_eq hnone
        fun c (hc : c ∈ segments path_style (stripped path_style path)) => (mem_components hc).1
      change Option.map id _ = _
      rw [Option.map_id]
      exact heq
    · next hplain =>
      have hnamed : ∀ c ∈ segments path_style (stripped path_style path), Named c := fun c hc => by
        by_contra hnot
        refine hplain (List.any_eq_true.mpr ⟨c, hc, ?_⟩)
        unfold Named at hnot
        simp only [Bool.or_eq_true, decide_eq_true_eq]
        tauto
      rw [resolve_of_named _ hnamed, List.nil_append]
      change some string.text = some (join (components (unify path_style (stripped path_style path))))
      rw [htext, join_components (stripped_last (Bool.eq_false_iff.mpr habsolute))]

theorem strip_dots_eq (s : List Char) : RelPath.strip_dots s = strip_prefixes .Unix s := by
  fun_induction RelPath.strip_dots s with
  | case1 s ih => exact ih
  | case2 s hs =>
    unfold strip_prefixes
    split
    · next c path =>
      refine (if_neg fun hsep => hs path ?_).symm
      have hc : c = '/' := by simpa [PathStyle.separates] using hsep
      rw [hc]
    · rfl

theorem strip_separators_eq (s : List Char) : RelPath.strip_separators s = strip_suffixes .Unix s := by
  induction s using List.reverseRecOn with
  | nil =>
    rw [RelPath.strip_separators, if_neg (by simp)]
    rfl
  | append_singleton t c ih =>
    rw [RelPath.strip_separators, strip_suffixes, List.reverse_append, List.getLast?_concat, List.dropLast_concat]
    by_cases hstrip : some c = some SEPARATOR ∧ t ≠ []
    · rw [if_pos hstrip, ih, strip_suffixes]
      obtain ⟨d, rest, hrest⟩ := List.exists_cons_of_ne_nil (mt List.reverse_eq_nil_iff.mp hstrip.2)
      have hsep : PathStyle.Unix.separates c = true := by
        rw [Option.some.inj hstrip.1]
        rfl
      rw [hrest]
      exact (congrArg List.reverse (if_pos hsep)).symm
    · rw [if_neg hstrip]
      cases hrest : t.reverse with
      | nil =>
        rw [List.reverse_eq_nil_iff.mp hrest]
        rfl
      | cons d rest =>
        have hsep : ¬ PathStyle.Unix.separates c = true := fun hsep => by
          refine hstrip ⟨?_, fun hnil => ?_⟩
          · have hc : c = '/' := by simpa [PathStyle.separates] using hsep
            rw [hc]
            rfl
          · rw [hnil] at hrest
            cases hrest
        have hkeep : strip_reversed .Unix (c :: d :: rest) = c :: d :: rest := if_neg hsep
        change _ = (strip_reversed .Unix (c :: d :: rest)).reverse
        rw [hkeep, ← hrest, List.reverse_cons, List.reverse_reverse]

/-- `RelPath::from_unix_str` accepts what `RelPath::new` need not reformat. -/
theorem from_unix_str_eq (s : List Char) : (RelPath.from_unix_str s).map RelPath.as_unix_str =
    match RelPath.new s .Unix with
    | some (.Borrowed path) => some path
    | _ => none := by
  have hpath : RelPath.strip_separators (RelPath.strip_dots s) = stripped .Unix s := by
    rw [strip_dots_eq, strip_separators_eq]
    rfl
  have hnew : RelPath.new s .Unix =
      if is_absolute (stripped .Unix s) .Unix = true then none
      else if (components (stripped .Unix s)).any fun c => c = [] || c = ['.'] || c = ['.', '.'] then
        (normalize_components [] (components (stripped .Unix s))).map Cow.Owned
      else some (Cow.Borrowed (stripped .Unix s)) := rfl
  rw [RelPath.from_unix_str, hpath, hnew]
  by_cases habsolute : is_absolute (stripped .Unix s) .Unix = true
  · have hhead : (stripped .Unix s).head? = some SEPARATOR := by simpa [is_absolute, SEPARATOR] using habsolute
    rw [if_pos habsolute, if_pos hhead]
    rfl
  · have hhead : ¬ (stripped .Unix s).head? = some SEPARATOR := fun hhead => habsolute (by simpa [is_absolute, SEPARATOR] using hhead)
    have hlast : (stripped .Unix s).getLast? ≠ some SEPARATOR := stripped_last (Bool.eq_false_iff.mpr habsolute)
    rw [if_neg habsolute, if_neg hhead]
    by_cases hany : ((components (stripped .Unix s)).any fun c => c = [] || c = ['.'] || c = ['.', '.']) = true
    · have hnot : ¬ Normalized (stripped .Unix s) := fun hnormalized => by
        obtain ⟨c, hc, hspecial⟩ := List.any_eq_true.mp hany
        have := hnormalized.1 c hc
        simp only [Bool.or_eq_true, decide_eq_true_eq] at hspecial
        tauto
      rw [if_pos hany, dif_neg hnot]
      cases normalize_components [] (components (stripped .Unix s)) <;> rfl
    · have hnormalized : Normalized (stripped .Unix s) := by
        refine ⟨fun c hc => ?_, hlast⟩
        by_contra hnot
        refine hany (List.any_eq_true.mpr ⟨c, hc, ?_⟩)
        simp only [Bool.or_eq_true, decide_eq_true_eq]
        tauto
      rw [if_neg hany, dif_pos hnormalized]
      rfl

theorem mem_resolve {components left : List (List Char)} (h : resolve names components = some left) :
    ∀ c ∈ left, c ∈ names ∨ c ∈ components := by
  induction components generalizing names with
  | nil =>
    rw [resolve, Option.some.injEq] at h
    exact fun c hc => Or.inl (h ▸ hc)
  | cons first components ih =>
    have hlater : ∀ {names'}, resolve names' components = some left → (∀ c ∈ names', c ∈ names ∨ c = first) →
        ∀ c ∈ left, c ∈ names ∨ c ∈ first :: components := fun hresolve hnames c hc => by
      rcases ih hresolve c hc with hc | hc
      · rcases hnames c hc with hc | rfl
        · exact Or.inl hc
        · exact Or.inr List.mem_cons_self
      · exact Or.inr (List.mem_cons_of_mem _ hc)
    rw [resolve] at h
    by_cases hskip : first = [] ∨ first = ['.']
    · rw [if_pos hskip] at h
      exact hlater h fun c hc => Or.inl hc
    · rw [if_neg hskip] at h
      by_cases hdots : first = ['.', '.']
      · rw [if_pos hdots] at h
        by_cases hnil : names = []
        · rw [if_pos hnil] at h
          cases h
        · rw [if_neg hnil] at h
          exact hlater h fun c hc => Or.inl (List.dropLast_subset _ hc)
      · rw [if_neg hdots] at h
        refine hlater h fun c hc => ?_
        rcases List.mem_append.mp hc with hc | hc
        · exact Or.inl hc
        · exact Or.inr (List.mem_singleton.mp hc)

/-- Names without a separator of the style. -/
def Plain (path_style : PathStyle) (names : List (List Char)) : Prop :=
  Names names ∧ ∀ c ∈ names, ∀ x ∈ c, path_style.separates x = false

theorem plain_of_resolve (h : resolve [] (segments path_style path) = some names) : Plain path_style names := by
  refine ⟨resolve_names (by simp [Names]) (fun c hc => (mem_components hc).1) h, fun c hc => ?_⟩
  rcases mem_resolve h c hc with hc | hc
  · cases hc
  · exact mem_segments hc

theorem mem_join {x : Char} (h : x ∈ join names) : x = SEPARATOR ∨ ∃ c ∈ names, x ∈ c := by
  induction names with
  | nil => cases h
  | cons c names ih =>
    by_cases hnil : names = []
    · rw [hnil] at h
      exact Or.inr ⟨c, List.mem_cons_self, h⟩
    · rw [join_cons hnil] at h
      rcases List.mem_append.mp h with hx | hx
      · exact Or.inr ⟨c, List.mem_cons_self, hx⟩
      · rcases List.mem_cons.mp hx with hx | hx
        · exact Or.inl hx
        · exact (ih hx).imp_right fun ⟨d, hd, hxd⟩ => ⟨d, List.mem_cons_of_mem _ hd, hxd⟩

namespace Plain

variable (h : Plain path_style names)

include h

theorem separates_join {x : Char} (hx : x ∈ join names) (hsep : path_style.separates x = true) : x = SEPARATOR := by
  refine (mem_join hx).resolve_right fun ⟨c, hc, hxc⟩ => ?_
  rw [h.2 c hc x hxc] at hsep
  cases hsep

theorem last : (join names).getLast? ≠ some SEPARATOR := by
  obtain ⟨hnames, -⟩ := h
  induction names with
  | nil => simp [join]
  | cons c names ih =>
    have hc := hnames c List.mem_cons_self
    by_cases hnil : names = []
    · rw [hnil]
      exact getLast_ne_sep hc.2
    · have hrest : Names names := fun x hx => hnames x (List.mem_cons_of_mem _ hx)
      have hne : join names ≠ [] := mt (join_eq_nil hrest).mp hnil
      rw [join_cons hnil, List.getLast?_append, List.getLast?_cons, List.getLast?_eq_some_getLast hne]
      intro hlast
      apply ih hrest
      rw [List.getLast?_eq_some_getLast hne]
      simpa using hlast

theorem normalized : Normalized (join names) :=
  ⟨fun c hc => (h.1 c (components_join h.1 ▸ hc)).1, h.last⟩

theorem unify_join : unify path_style (join names) = join names := by
  rw [unify_eq_map]
  conv_rhs => rw [← List.map_id (join names)]
  refine List.map_congr_left fun x hx => ?_
  split
  · next hsep => exact (h.separates_join hx hsep).symm
  · rfl

theorem segments_join : segments path_style (join names) = names := by
  rw [segments, h.unify_join, components_join h.1]

theorem stripped_join : stripped path_style (join names) = join names := by
  have hprefix : strip_prefixes path_style (join names) = join names := by
    unfold strip_prefixes
    split
    · next c path heq =>
      refine (if_neg fun hsep => ?_).trans heq.symm
      -- the first name would be a dot
      have hdot : path_style.separates '.' = false := by cases path_style <;> rfl
      have hsegments := h.segments_join
      rw [heq, segments_cons hdot, segments_cons_sep hsep] at hsegments
      have hmem : ['.'] ∈ names := hsegments ▸ List.mem_cons_self
      exact (h.1 _ hmem).1.2.1 rfl
    · rfl
  rw [stripped, hprefix, strip_suffixes]
  have hreversed : strip_reversed path_style (join names).reverse = (join names).reverse := by
    unfold strip_reversed
    split
    · next c d path heq =>
      refine (if_neg fun hsep => ?_).trans heq.symm
      have hlast : (join names).getLast? = some c := by
        rw [← List.head?_reverse, heq]
        rfl
      have hc := h.separates_join (List.mem_of_getLast? hlast) hsep
      exact h.last (hc ▸ hlast)
    · rfl
  rw [hreversed, List.reverse_reverse]

theorem new_join : (RelPath.new (join names) path_style).map Cow.text =
    if is_absolute (join names) path_style = true then none else some (join names) := by
  rw [new_text, h.stripped_join, h.segments_join, resolve_of_named _ fun c hc => (h.1 c hc).1, List.nil_append]
  rfl

end Plain

/-- `RelPath::new` is lexical resolution for a path: it succeeds exactly when the path
    is relative and stays below its start, its result has the names that are left,
    is kept by another call and by `from_unix_str`, and is that of each spelling. -/
structure Resolves (path : List Char) (path_style : PathStyle) : Prop where
  succeeds : (RelPath.new path path_style).isSome ↔
    is_absolute path path_style = false ∧ Grounded (segments path_style path)
  names : ∀ result, RelPath.new path path_style = some result →
    some result.text = (resolve [] (segments path_style path)).map join
  idempotent : ∀ result, RelPath.new path path_style = some result →
    (RelPath.new result.text path_style).map Cow.text = some result.text
  accepted : ∀ result, RelPath.new path path_style = some result →
    (RelPath.from_unix_str result.text).map RelPath.as_unix_str = some result.text
  spellings : ∀ other result result', RelPath.new path path_style = some result →
    RelPath.new other path_style = some result' →
    resolve [] (segments path_style path) = resolve [] (segments path_style other) → result.text = result'.text

/-- Stripping the ends of a path does not change whether it is absolute, and the
    names that are left do not spell an absolute path. -/
def KeepsRelative (path : List Char) (path_style : PathStyle) : Prop :=
  ∀ names, resolve [] (segments path_style path) = some names →
    is_absolute (stripped path_style path) path_style = is_absolute path path_style ∧
      (is_absolute path path_style = false → is_absolute (join names) path_style = false)

theorem rel_path_new_iff (path : List Char) (path_style : PathStyle) :
    Resolves path path_style ↔ KeepsRelative path path_style := by
  have hnew := new_text path path_style
  have hisSome : (RelPath.new path path_style).isSome ↔
      is_absolute (stripped path_style path) path_style = false ∧ Grounded (segments path_style path) := by
    rw [← Option.isSome_map (f := Cow.text), hnew, grounded_iff]
    cases is_absolute (stripped path_style path) path_style <;> simp
  have hresult : ∀ result, RelPath.new path path_style = some result → ∃ names, Plain path_style names ∧
      resolve [] (segments path_style path) = some names ∧ result.text = join names := fun result heq => by
    rw [heq] at hnew
    split at hnew
    · cases hnew
    · obtain ⟨names, hnames, htext⟩ := Option.map_eq_some_iff.mp hnew.symm
      exact ⟨names, plain_of_resolve hnames, hnames, htext.symm⟩
  constructor
  · intro h names hnames
    have hgrounded : Grounded (segments path_style path) := by
      rw [grounded_iff, hnames]
      rfl
    have hsame : is_absolute (stripped path_style path) path_style = false ↔ is_absolute path path_style = false := by
      have := hisSome.symm.trans h.succeeds
      simpa [hgrounded] using this
    refine ⟨by cases hs : is_absolute (stripped path_style path) path_style <;>
      cases hp : is_absolute path path_style <;> simp_all, fun hrelative => ?_⟩
    obtain ⟨result, hresult'⟩ := Option.isSome_iff_exists.mp (h.succeeds.mpr ⟨hrelative, hgrounded⟩)
    obtain ⟨names', hplain, hnames', htext⟩ := hresult result hresult'
    rw [hnames, Option.some.injEq] at hnames'
    subst hnames'
    have hagain := h.idempotent result hresult'
    rw [htext, hplain.new_join] at hagain
    by_contra habsolute
    rw [if_pos (Bool.not_eq_false _ ▸ habsolute)] at hagain
    cases hagain
  · intro h
    refine ⟨?_, fun result heq => ?_, fun result heq => ?_, fun result heq => ?_, fun other result result' heq heq' hsame => ?_⟩
    · rw [hisSome]
      refine and_congr_left fun hgrounded => ?_
      obtain ⟨names, hnames⟩ := Option.isSome_iff_exists.mp ((grounded_iff _).mp hgrounded)
      rw [(h names hnames).1]
    · obtain ⟨names, -, hnames, htext⟩ := hresult result heq
      rw [hnames, htext]
      rfl
    · obtain ⟨names, hplain, hnames, htext⟩ := hresult result heq
      have hrelative := (hisSome.mp (by rw [heq]; rfl)).1
      rw [(h names hnames).1] at hrelative
      rw [htext, hplain.new_join, if_neg (Bool.eq_false_iff.mp ((h names hnames).2 hrelative))]
    · obtain ⟨names, hplain, -, htext⟩ := hresult result heq
      rw [htext, RelPath.from_unix_str_as_unix_str ⟨join names, hplain.normalized⟩]
      rfl
    · obtain ⟨names, -, hnames, htext⟩ := hresult result heq
      have hother := new_text other path_style
      rw [heq', ← hsame, hnames] at hother
      split at hother
      · cases hother
      · rw [htext]
        exact (Option.some.inj hother).symm

/-- A path that is not absolute is taken for one when its first dot is stripped. -/
theorem double_slash_refused : ¬ Resolves ['.', '/', '/', 'a'] .Unix := by
  intro h
  have hsegments : segments .Unix ['.', '/', '/', 'a'] = [['.'], [], ['a']] := by
    rw [segments_cons rfl, segments_cons_sep rfl, segments_cons_sep rfl, segments_cons rfl, segments_nil]
    rfl
  have hgrounded : Grounded (segments .Unix ['.', '/', '/', 'a']) := by
    rw [grounded_iff, hsegments]
    decide
  have hsome := h.succeeds.mpr ⟨by decide, hgrounded⟩
  have hnone : RelPath.new ['.', '/', '/', 'a'] .Unix = none := by decide
  rw [hnone] at hsome
  cases hsome

end new

end zed.path
