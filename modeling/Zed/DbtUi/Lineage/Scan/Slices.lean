import Zed.DbtUi.Lineage.Scan.Offsets

namespace zed.dbt_ui.lineage

open zed.streaming_diff (byte_len split_bytes split_bytes_eq_some_iff)
open zed.dbt_ui.el (trim trim_start)

section

variable (to_lowercase : List Char → List Char) (is_alphanumeric : Char → Bool)

def IsBoundary (text : List Char) (offset : Nat) : Prop := (split_bytes offset text).isSome = true

/-- The last ` as ` of a column, found in lower case, is a place to cut the column at. -/
def SegmentAligned (segment : List Char) : Prop :=
  trim segment ≠ [] → is_star (trim segment) = false →
    ∀ pos, rfind " as ".toList (to_lowercase (trim segment)) = some pos →
      IsBoundary (trim segment) pos ∧ IsBoundary (trim segment) (pos + 4)

/-- So is the end of a select that stands in the lower case of a text, its top-level FROM
    and the columns between them. -/
def SelectAligned (sql : List Char) (select_pos : Nat) : Prop :=
  ∃ body, slice_from sql (select_pos + 6) = some body ∧
    ∀ body_lower ix, slice_from (to_lowercase sql) (select_pos + 6) = some body_lower →
      from_ix is_alphanumeric none 0 0 body_lower = some ix →
      ∃ list, slice_to body ix = some list ∧
        (contains list "\x7b\x7b".toList = false →
          ∀ segment ∈ segments 0 [] (strip_distinct list), SegmentAligned to_lowercase segment)

/-- All places that the scanners find in the lower case of a text are character
    boundaries of the text itself. -/
def Aligned (sql : List Char) : Prop :=
  (∀ select_pos ∈ (match_offsets "select".toList (to_lowercase sql)).head?,
      SelectAligned to_lowercase is_alphanumeric sql select_pos) ∧
    ∀ select_pos ∈ match_offsets "select".toList (to_lowercase sql),
      is_select_word (to_lowercase sql) select_pos = some true →
      SelectAligned to_lowercase is_alphanumeric sql select_pos

end

/-- A part of a text with its whitespace normalized. -/
def IsPartOf (sql expr : List Char) : Prop := ∃ part, part <:+: sql ∧ expr = normalize_whitespace part

theorem isSome_foldlM_iff {α β : Type} {f : β → α → Option β} {good : α → Prop} {xs : List α}
    (h : ∀ y, ∀ x ∈ xs, ((f y x).isSome = true ↔ good x)) (y : β) :
    (xs.foldlM f y).isSome = true ↔ ∀ x ∈ xs, good x := by
  induction xs generalizing y with
  | nil => simp
  | cons x xs ih =>
    rw [List.foldlM_cons, List.forall_mem_cons, ← h y x List.mem_cons_self]
    cases hx : f y x with
    | none => simp
    | some z => simpa using ih (fun y x hmem => h y x (List.mem_cons_of_mem _ hmem)) z

theorem foldlM_induct {α β : Type} {f : β → α → Option β} (keeps : β → Prop) {xs : List α}
    (hstep : ∀ y z, ∀ x ∈ xs, keeps y → f y x = some z → keeps z) {y z : β} (hy : keeps y)
    (h : xs.foldlM f y = some z) : keeps z := by
  induction xs generalizing y with
  | nil =>
    rw [List.foldlM_nil] at h
    cases h
    exact hy
  | cons x xs ih =>
    rw [List.foldlM_cons] at h
    cases hx : f y x with
    | none =>
      rw [hx] at h
      cases h
    | some w =>
      rw [hx] at h
      exact ih (fun y z x hmem => hstep y z x (List.mem_cons_of_mem _ hmem)) (hstep y w x List.mem_cons_self hy hx) h

variable {to_lowercase : List Char → List Char} {is_alphanumeric : Char → Bool} {sql : List Char}

theorem slice_from_isSome (text : List Char) (offset : Nat) :
    (slice_from text offset).isSome = true ↔ IsBoundary text offset := by
  simp [slice_from, IsBoundary]

theorem slice_to_isSome (text : List Char) (offset : Nat) :
    (slice_to text offset).isSome = true ↔ IsBoundary text offset := by
  simp [slice_to, IsBoundary]

theorem name_and_expr_isSome_iff {segment : List Char} :
    (name_and_expr to_lowercase segment).isSome = true ↔
      ∀ pos, rfind " as ".toList (to_lowercase segment) = some pos → IsBoundary segment pos ∧ IsBoundary segment (pos + 4) := by
  unfold name_and_expr
  cases hpos : rfind " as ".toList (to_lowercase segment) with
  | none => simp
  | some pos =>
    simp only [Option.some.injEq, forall_eq']
    rw [← slice_to_isSome segment pos, ← slice_from_isSome segment (pos + 4)]
    cases slice_from segment (pos + 4) with
    | none => simp
    | some name => cases slice_to segment pos <;> simp

theorem push_segment_isSome_iff (found : Entries) (segment : List Char) :
    (push_segment to_lowercase is_alphanumeric found segment).isSome = true ↔ SegmentAligned to_lowercase segment := by
  obtain ⟨columns, saw_star⟩ := found
  unfold push_segment SegmentAligned
  dsimp only
  generalize trim segment = text
  by_cases hempty : text = []
  · simp [hempty]
  by_cases hstar : is_star text = true
  · simp [hempty, hstar]
  · rw [if_neg hempty, if_neg hstar, Option.isSome_map, name_and_expr_isSome_iff]
    simp [hempty, hstar]

theorem select_list_isSome_iff (list : List Char) :
    (select_list to_lowercase is_alphanumeric list).isSome = true ↔
      (contains list "\x7b\x7b".toList = false →
        ∀ segment ∈ segments 0 [] (strip_distinct list), SegmentAligned to_lowercase segment) := by
  unfold select_list
  cases contains list "\x7b\x7b".toList with
  | true => simp
  | false =>
    rw [if_neg Bool.false_ne_true, Option.isSome_map, isSome_foldlM_iff fun found segment _ => push_segment_isSome_iff found segment]
    simp

theorem parse_select_entries_at_isSome_iff {select_pos : Nat}
    (hselect : select_pos ∈ match_offsets "select".toList (to_lowercase sql)) :
    (parse_select_entries_at to_lowercase is_alphanumeric sql (to_lowercase sql) select_pos).isSome = true ↔
      SelectAligned to_lowercase is_alphanumeric sql select_pos := by
  obtain ⟨-, body_lower, -, hlower⟩ := slices_of_match hselect
  have hlength : byte_len "select".toList = 6 := by decide
  rw [hlength] at hlower
  unfold parse_select_entries_at SelectAligned
  rw [hlower]
  cases slice_from sql (select_pos + 6) with
  | none => simp
  | some body =>
    rw [Option.bind_some, Option.bind_some]
    cases hix : from_ix is_alphanumeric none 0 0 body_lower with
    | none =>
      refine ⟨fun _ => ⟨body, rfl, ?_⟩, fun _ => rfl⟩
      rintro lower ix heq hfrom
      rw [← Option.some.inj heq, hix] at hfrom
      cases hfrom
    | some ix =>
      dsimp only
      constructor
      · intro hsome
        refine ⟨body, rfl, fun lower ix' heq hfrom => ?_⟩
        rw [← Option.some.inj heq, hix, Option.some.injEq] at hfrom
        rw [← hfrom]
        cases hlist : slice_to body ix with
        | none => simp [hlist] at hsome
        | some list =>
          rw [hlist, Option.bind_some] at hsome
          exact ⟨list, rfl, (select_list_isSome_iff list).mp hsome⟩
      · rintro ⟨body', hbody, h⟩
        obtain ⟨list, hlist, haligned⟩ := h body_lower ix rfl hix
        rw [Option.some.inj hbody, hlist, Option.bind_some]
        exact (select_list_isSome_iff list).mpr haligned

theorem trim_part (text : List Char) : trim text <:+: text := by
  obtain ⟨after, hafter⟩ := List.rdropWhile_prefix el.is_whitespace (trim_start text)
  obtain ⟨before, hbefore⟩ := List.dropWhile_suffix (l := text) el.is_whitespace
  refine ⟨before, after, ?_⟩
  rw [List.append_assoc]
  exact (congrArg _ hafter).trans hbefore

theorem slice_from_end {text rest : List Char} {offset : Nat} (h : slice_from text offset = some rest) : rest <:+ text := by
  obtain ⟨⟨taken, rest'⟩, hsplit, rfl⟩ := Option.map_eq_some_iff.mp h
  exact ⟨taken, (split_bytes_eq_some_iff.mp hsplit).1.symm⟩

theorem slice_to_start {text taken : List Char} {offset : Nat} (h : slice_to text offset = some taken) : taken <+: text := by
  obtain ⟨⟨taken', rest⟩, hsplit, rfl⟩ := Option.map_eq_some_iff.mp h
  exact ⟨rest, (split_bytes_eq_some_iff.mp hsplit).1.symm⟩

theorem strip_distinct_suffix (list : List Char) : strip_distinct list <:+ list := by
  unfold strip_distinct
  split
  · exact (List.drop_suffix _ _).trans (List.dropWhile_suffix _)
  · exact List.suffix_refl _

theorem infix_of_mem_segments {depth : Int} {segment list part : List Char} (h : part ∈ segments depth segment list) :
    part <:+: segment ++ list := by
  induction list generalizing depth segment with
  | nil =>
    rw [segments, List.mem_singleton] at h
    obtain rfl := h
    exact (List.prefix_append part []).isInfix
  | cons c list ih =>
    have hgrown : segment ++ c :: list = segment ++ [c] ++ list := by simp
    rw [segments] at h
    split at h
    · rw [hgrown]
      exact ih h
    split at h
    · rw [hgrown]
      exact ih h
    split at h
    · rcases List.mem_cons.mp h with rfl | h
      · exact (List.prefix_append _ _).isInfix
      · exact (ih h).trans ((List.suffix_cons c list).trans (List.suffix_append _ _)).isInfix
    · rw [hgrown]
      exact ih h

theorem name_and_expr_part {segment name expr : List Char}
    (h : name_and_expr to_lowercase segment = some (name, expr)) : expr <:+: segment := by
  unfold name_and_expr at h
  split at h
  · rename_i pos _
    cases hname : slice_from segment (pos + 4) with
    | none => simp [hname] at h
    | some rest =>
      cases hexpr : slice_to segment pos with
      | none => simp [hname, hexpr] at h
      | some taken =>
        simp only [hname, hexpr, Option.bind_eq_bind, Option.bind_some, Option.pure_def, Option.some.injEq,
          Prod.mk.injEq] at h
        rw [← h.2]
        exact (trim_part taken).trans (slice_to_start hexpr).isInfix
  · cases h
    exact List.infix_refl _

/-- Every expression among some columns is a part of the text. -/
def AllParts (sql : List Char) (columns : List (List Char × List Char)) : Prop := ∀ entry ∈ columns, IsPartOf sql entry.2

theorem push_segment_parts {found after : Entries} {segment : List Char} (hsegment : segment <:+: sql)
    (hfound : AllParts sql found.1) (h : push_segment to_lowercase is_alphanumeric found segment = some after) :
    AllParts sql after.1 := by
  obtain ⟨columns, saw_star⟩ := found
  unfold push_segment at h
  dsimp only at h hfound
  split at h
  · cases h
    exact hfound
  split at h
  · cases h
    exact hfound
  · obtain ⟨⟨name, expr⟩, hexpr, rfl⟩ := Option.map_eq_some_iff.mp h
    dsimp only
    unfold push_column
    dsimp only
    split
    · intro entry hentry
      rcases List.mem_append.mp hentry with hentry | hentry
      · exact hfound entry hentry
      · rw [List.mem_singleton.mp hentry]
        exact ⟨expr, (name_and_expr_part hexpr).trans ((trim_part segment).trans hsegment), rfl⟩
    · exact hfound

theorem select_list_parts {list : List Char} {entries : Entries} (hlist : list <:+: sql)
    (h : select_list to_lowercase is_alphanumeric list = some (some entries)) : AllParts sql entries.1 := by
  unfold select_list at h
  split at h
  · cases h
  · obtain ⟨found, hfold, hentries⟩ := Option.map_eq_some_iff.mp h
    split at hentries
    · cases hentries
    · cases hentries
      refine foldlM_induct (fun found : Entries => AllParts sql found.1) (fun found after segment hmem hfound hpush => ?_)
        (fun entry hentry => by cases hentry) hfold
      refine push_segment_parts ?_ hfound hpush
      exact (infix_of_mem_segments hmem).trans ((strip_distinct_suffix list).isInfix.trans hlist)

theorem parse_select_entries_at_parts {lower : List Char} {select_pos : Nat} {entries : Entries}
    (h : parse_select_entries_at to_lowercase is_alphanumeric sql lower select_pos = some (some entries)) :
    AllParts sql entries.1 := by
  unfold parse_select_entries_at at h
  obtain ⟨body, hbody, h⟩ := Option.bind_eq_some_iff.mp h
  obtain ⟨body_lower, -, h⟩ := Option.bind_eq_some_iff.mp h
  split at h
  · cases h
  · obtain ⟨list, hlist, h⟩ := Option.bind_eq_some_iff.mp h
    exact select_list_parts ((slice_to_start hlist).isInfix.trans (slice_from_end hbody).isInfix) h

theorem or_insert_parts {merged : List (List Char × List Char)} {key value : List Char} (hmerged : AllParts sql merged)
    (hvalue : IsPartOf sql value) : AllParts sql (or_insert merged key value) := by
  unfold or_insert
  split
  · exact hmerged
  · intro entry hentry
    rcases List.mem_append.mp hentry with hentry | hentry
    · exact hmerged entry hentry
    · rw [List.mem_singleton.mp hentry]
      exact hvalue

theorem foldl_or_insert_parts {entries merged : List (List Char × List Char)} (hentries : AllParts sql entries)
    (hmerged : AllParts sql merged) :
    AllParts sql (entries.foldl (fun merged entry => or_insert merged (to_lowercase entry.1) entry.2) merged) := by
  induction entries generalizing merged with
  | nil => exact hmerged
  | cons entry entries ih =>
    refine ih (fun other h => hentries other (List.mem_cons_of_mem _ h)) ?_
    exact or_insert_parts hmerged (hentries entry List.mem_cons_self)

theorem chain_part {snapshot : List (List Char × List Char)} (hsnapshot : AllParts sql snapshot)
    {entry : List Char × List Char} (hentry : IsPartOf sql entry.2) :
    IsPartOf sql (chain to_lowercase is_alphanumeric snapshot entry).2 := by
  unfold chain
  dsimp only
  split
  · exact hentry
  split
  · exact hentry
  · rename_i base hbase
    obtain ⟨before, after, hsplit, -⟩ := List.lookup_eq_some_iff.mp hbase
    have hbase_part : IsPartOf sql base := by
      refine hsnapshot (to_lowercase (trim_matches '"' (rsplit_last '.' entry.2)), base) ?_
      rw [hsplit]
      exact List.mem_append_right _ List.mem_cons_self
    split
    · exact hbase_part
    · exact hentry

theorem is_select_word_isSome {lower : List Char} {offset : Nat} (h : offset ∈ match_offsets "select".toList lower) :
    (is_select_word lower offset).isSome = true := by
  obtain ⟨before, after, hbefore, hafter⟩ := slices_of_match h
  have hlength : byte_len "select".toList = 6 := by decide
  rw [hlength] at hafter
  rw [is_select_word, hbefore, hafter]
  rfl

theorem merge_select_isSome_iff {offset : Nat} (h : offset ∈ match_offsets "select".toList (to_lowercase sql))
    (merged : List (List Char × List Char)) :
    (merge_select to_lowercase is_alphanumeric sql (to_lowercase sql) merged offset).isSome = true ↔
      (is_select_word (to_lowercase sql) offset = some true → SelectAligned to_lowercase is_alphanumeric sql offset) := by
  obtain ⟨word, hword⟩ := Option.isSome_iff_exists.mp (is_select_word_isSome h)
  rw [merge_select, hword, Option.bind_some]
  cases word with
  | true => simp [parse_select_entries_at_isSome_iff h]
  | false => simp

theorem merge_select_parts {lower : List Char} {offset : Nat} {merged after : List (List Char × List Char)}
    (hmerged : AllParts sql merged) (h : merge_select to_lowercase is_alphanumeric sql lower merged offset = some after) :
    AllParts sql after := by
  unfold merge_select at h
  obtain ⟨word, -, h⟩ := Option.bind_eq_some_iff.mp h
  split at h
  · obtain ⟨found, hfound, rfl⟩ := Option.map_eq_some_iff.mp h
    refine foldl_or_insert_parts ?_ hmerged
    cases found with
    | none => exact fun entry hentry => by cases hentry
    | some entries => exact parse_select_entries_at_parts hfound
  · cases h
    exact hmerged

/-- Lowercasing as the standard library does it, on ASCII and on the one character that
    becomes two. -/
def lowercase (text : List Char) : List Char :=
  text.flatMap fun c => if c = 'İ' then ['i', '\u0307'] else [c.toLower]

end zed.dbt_ui.lineage
