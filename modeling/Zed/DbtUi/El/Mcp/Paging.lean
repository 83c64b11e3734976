import Zed.DbtUi.El.Mcp

namespace zed.dbt_ui.el.mcp

/-- Whether a table is one of those a search asks for. -/
def Matches (unicode : Unicode) (search : List Char) (table : Table) : Prop :=
  ∀ term ∈ search_terms unicode search, term <:+: unicode.to_lowercase table.label

instance (unicode : Unicode) (search : List Char) (table : Table) :
    Decidable (Matches unicode search table) :=
  inferInstanceAs (Decidable (∀ _ ∈ _, _))

/-- The tables a search asks for, in listing order. -/
def matched (unicode : Unicode) (listing : Listing) (search : List Char) : List (List Char) :=
  (listing.tables.filter fun table => Matches unicode search table).map Table.label

def Arguments.search (arguments : Arguments) : List Char :=
  (optional arguments "search").getD []

def Arguments.at_offset (arguments : Arguments) (offset : Nat) : Arguments :=
  Function.update arguments "offset" (some (.unsigned (UInt64.ofNat offset)))

/-- The pages of a caller that follows `next_offset` from an offset until it is null,
    unless that takes more than the given number of calls. -/
def follow (unicode : Unicode) (project : Project) (arguments : Arguments) :
    Nat → Nat → Option (List (List (List Char)))
  | 0, _ => none
  | calls + 1, offset =>
    match el_list_tables unicode project (arguments.at_offset offset) with
    | .error _ => none
    | .ok answer =>
      match answer.next_offset with
      | none => some [answer.tables]
      | some next => (follow unicode project arguments calls next).map (answer.tables :: ·)

/-- Paging from the start ends, with exactly the tables asked for. -/
def Complete (unicode : Unicode) (project : Project) (arguments : Arguments) (listing : Listing) : Prop :=
  ∃ calls pages, follow unicode project arguments calls 0 = some pages ∧
    pages.flatten = matched unicode listing (arguments.search)

section

variable {unicode : Unicode} {project : Project} {arguments : Arguments} {listing : Listing}

theorem filterMap_zipIdx {α β : Type} (fold : α → β) (keep : β → Bool) (items whole : List α)
    (start : Nat) (hwhole : ∀ i, items[i]? = whole[start + i]?) :
    ((((items.map fold).zipIdx start).filter fun entry => keep entry.1).map Prod.snd).filterMap
      (fun index => whole[index]?) = items.filter fun item => keep (fold item) := by
  induction items generalizing start with
  | nil => rfl
  | cons item items ih =>
    have hitem : whole[start]? = some item := by simpa using (hwhole 0).symm
    have hrest := ih (start + 1) fun i => by
      rw [Nat.add_assoc, Nat.add_comm 1 i]
      simpa using hwhole (i + 1)
    rw [List.map_cons, List.zipIdx_cons]
    by_cases hkeep : keep (fold item) = true
    · rw [List.filter_cons, if_pos hkeep, List.filter_cons, if_pos hkeep, List.map_cons,
        List.filterMap_cons_some hitem, hrest]
    · rw [List.filter_cons, if_neg hkeep, List.filter_cons, if_neg hkeep, hrest]

theorem filterMap_range {α : Type} (items : List α) :
    (List.range items.length).filterMap (fun index => items[index]?) = items := by
  induction items using List.reverseRecOn with
  | nil => rfl
  | append_singleton items item ih =>
    rw [List.length_append, List.length_singleton, List.range_succ, List.filterMap_append]
    have hinit : (List.range items.length).filterMap (fun index => (items ++ [item])[index]?) =
        (List.range items.length).filterMap fun index => items[index]? := by
      apply List.filterMap_congr
      intro index hindex
      exact List.getElem?_append_left (List.mem_range.mp hindex)
    rw [hinit, ih]
    simp

theorem filterMap_matching_indices (tables : List Table) (search : List Char) :
    (matching_indices unicode tables search).filterMap (fun index => tables[index]?) =
      tables.filter fun table => Matches unicode search table := by
  unfold matching_indices
  dsimp only
  split
  · next hterms =>
    rw [filterMap_range, eq_comm, List.filter_eq_self]
    intro table _
    simp [Matches, hterms]
  · have hkeep := filterMap_zipIdx (fun table : Table => unicode.to_lowercase table.label)
      (fun name => (search_terms unicode search).all fun term => decide (term <:+: name)) tables tables 0
      (by simp)
    refine hkeep.trans (List.filter_congr fun table _ => ?_)
    rw [Bool.eq_iff_iff, decide_eq_true_iff, List.all_eq_true]
    simp [Matches]

theorem matching_indices_lt (unicode : Unicode) (tables : List Table) (search : List Char) :
    ∀ index ∈ matching_indices unicode tables search, index < tables.length := by
  intro index hindex
  unfold matching_indices at hindex
  dsimp only at hindex
  split at hindex
  · exact List.mem_range.mp hindex
  · obtain ⟨⟨name, _⟩, hentry, rfl⟩ := List.mem_map.mp hindex
    have hmem := List.mem_zipIdx (List.mem_of_mem_filter hentry)
    have hlength : (fold_table_names unicode tables).length = tables.length := List.length_map _
    omega

theorem filterMap_eq_map {indices : List Nat} {tables : List Table}
    (h : ∀ index ∈ indices, index < tables.length) :
    indices.filterMap (fun index => tables[index]?) =
      indices.map fun index => (tables[index]?).getD ([], []) := by
  rw [← List.filterMap_eq_map']
  apply List.filterMap_congr
  intro index hindex
  rw [List.getElem?_eq_getElem (h index hindex)]
  rfl

theorem count_limit_eq_zero :
    count arguments "limit" LIST_TABLES_DEFAULT LIST_TABLES_MAX = 0 ↔
      arguments "limit" = some (.unsigned 0) := by
  have hfits (value : UInt64) : value.toNat ≤ USIZE_MAX := Nat.le_of_lt_succ value.toNat_lt
  unfold count
  cases harg : arguments "limit" with
  | none => simp [LIST_TABLES_DEFAULT, LIST_TABLES_MAX]
  | some value =>
    cases value with
    | unsigned value =>
      simp only [Option.bind_some, Value.as_u64, Option.elim_some, if_pos (hfits value)]
      rw [Nat.min_eq_zero_iff, or_iff_left (by decide), Option.some.injEq, Value.unsigned.injEq]
      exact ⟨fun h => UInt64.toNat_inj.mp h, fun h => by rw [h]; rfl⟩
    | string text => simp [Value.as_u64, LIST_TABLES_DEFAULT, LIST_TABLES_MAX]
    | other => simp [Value.as_u64, LIST_TABLES_DEFAULT, LIST_TABLES_MAX]

theorem count_at_offset {offset : Nat} (h : offset ≤ USIZE_MAX) :
    count (arguments.at_offset offset) "offset" 0 USIZE_MAX = offset := by
  have htoNat : (UInt64.ofNat offset).toNat = offset :=
    UInt64.toNat_ofNat_of_lt' (Nat.lt_succ_of_le h)
  simp [count, Arguments.at_offset, Value.as_u64, htoNat, h]

variable {connection : List Char} {kind : String}

theorem el_list_tables_eq (hconnection : required arguments "connection" = .ok connection)
    (hbrowsable : browsable_connection unicode project connection = .ok kind)
    (hlisting : project.list_tables connection = .ok listing) {offset : Nat}
    (hoffset : offset ≤ USIZE_MAX) :
    ∃ answer, el_list_tables unicode project (arguments.at_offset offset) = .ok answer ∧
      answer.tables = ((matched unicode listing (arguments.search)).drop offset).take
        (count arguments "limit" LIST_TABLES_DEFAULT LIST_TABLES_MAX) ∧
      answer.next_offset =
        if offset + answer.tables.length < (matched unicode listing (arguments.search)).length then
          some (offset + answer.tables.length)
        else none := by
  let found := matching_indices unicode listing.tables (arguments.search)
  let table := fun index : Nat => Table.label ((listing.tables[index]?).getD ([], []))
  have hlt := matching_indices_lt unicode listing.tables (arguments.search)
  have hmatched : matched unicode listing (arguments.search) = found.map table := by
    rw [matched, ← filterMap_matching_indices, filterMap_eq_map hlt, List.map_map]
    rfl
  have hfits : found.length ≤ USIZE_MAX := by
    have hlength : found.length = (matched unicode listing (arguments.search)).length := by
      rw [hmatched, List.length_map]
    rw [hlength, matched, List.length_map]
    exact (List.length_filter_le _ _).trans listing.fits
  let limit := count arguments "limit" LIST_TABLES_DEFAULT LIST_TABLES_MAX
  have hpage : (((found.drop offset).take limit).filterMap fun index => listing.tables[index]?).map
      Table.label = ((found.map table).drop offset).take limit := by
    rw [filterMap_eq_map fun index hindex => hlt index (List.mem_of_mem_drop (List.mem_of_mem_take hindex)),
      List.map_map, ← List.map_drop, ← List.map_take]
    rfl
  have hrequired : required (arguments.at_offset offset) "connection" = .ok connection := hconnection
  have hcall : el_list_tables unicode project (arguments.at_offset offset) =
      list_tables unicode project connection (arguments.search) offset limit := by
    rw [el_list_tables, hrequired, count_at_offset hoffset]
    rfl
  rw [hcall, hmatched, List.length_map, list_tables, hbrowsable, hlisting]
  have hnext (next : Nat) : (if min next USIZE_MAX < found.length then some (min next USIZE_MAX) else none) =
      if next < found.length then some next else none := by
    by_cases hle : next ≤ USIZE_MAX
    · rw [min_eq_left hle]
    · rw [min_eq_right (by omega), if_neg (by omega), if_neg (by omega)]
  exact ⟨_, rfl, hpage, hnext _⟩

theorem take_append_drop_length {α : Type} (items : List α) (n : Nat) :
    items.take n ++ items.drop (items.take n).length = items := by
  by_cases h : n ≤ items.length
  · rw [List.length_take, Nat.min_eq_left h, List.take_append_drop]
  · rw [List.take_of_length_le (by omega), List.drop_length, List.append_nil]

theorem follow_complete (hconnection : required arguments "connection" = .ok connection)
    (hbrowsable : browsable_connection unicode project connection = .ok kind)
    (hlisting : project.list_tables connection = .ok listing)
    (hlimit : count arguments "limit" LIST_TABLES_DEFAULT LIST_TABLES_MAX ≠ 0) (remaining : Nat) :
    ∀ offset, offset ≤ USIZE_MAX →
      (matched unicode listing (arguments.search)).length ≤ offset + remaining →
      ∃ calls pages, follow unicode project arguments calls offset = some pages ∧
        pages.flatten = (matched unicode listing (arguments.search)).drop offset := by
  induction remaining with
  | zero =>
    intro offset hoffset hlength
    obtain ⟨answer, hanswer, htables, hnext⟩ :=
      el_list_tables_eq hconnection hbrowsable hlisting hoffset
    have hdrop : (matched unicode listing (arguments.search)).drop offset = [] :=
      List.drop_eq_nil_of_le (by omega)
    rw [hdrop, List.take_nil] at htables
    rw [if_neg (by omega)] at hnext
    refine ⟨1, [answer.tables], ?_, ?_⟩
    · simp only [follow, hanswer, hnext]
    · rw [hdrop, htables]
      rfl
  | succ remaining ih =>
    intro offset hoffset hlength
    obtain ⟨answer, hanswer, htables, hnext⟩ :=
      el_list_tables_eq hconnection hbrowsable hlisting hoffset
    by_cases hmore : offset + answer.tables.length <
        (matched unicode listing (arguments.search)).length
    · rw [if_pos hmore] at hnext
      have hpage : answer.tables.length ≠ 0 := by
        rw [htables, List.length_take, List.length_drop]
        omega
      have hfits : offset + answer.tables.length ≤ USIZE_MAX := by
        have hmatched : (matched unicode listing (arguments.search)).length ≤ USIZE_MAX := by
          rw [matched, List.length_map]
          exact (List.length_filter_le _ _).trans listing.fits
        omega
      obtain ⟨calls, pages, hfollow, hpages⟩ := ih _ hfits (by omega)
      refine ⟨calls + 1, answer.tables :: pages, ?_, ?_⟩
      · simp only [follow, hanswer, hnext, hfollow, Option.map_some]
      · rw [List.flatten_cons, hpages, ← List.drop_drop, htables]
        exact take_append_drop_length _ _
    · rw [if_neg hmore] at hnext
      refine ⟨1, [answer.tables], ?_, ?_⟩
      · simp only [follow, hanswer, hnext]
      · rw [List.flatten_singleton]
        rw [htables, List.length_take, List.length_drop] at hmore
        rw [htables, List.take_of_length_le (by rw [List.length_drop]; omega)]

theorem follow_limit_zero (hconnection : required arguments "connection" = .ok connection)
    (hbrowsable : browsable_connection unicode project connection = .ok kind)
    (hlisting : project.list_tables connection = .ok listing)
    (hlimit : count arguments "limit" LIST_TABLES_DEFAULT LIST_TABLES_MAX = 0)
    (hmatched : matched unicode listing (arguments.search) ≠ []) (calls : Nat) :
    follow unicode project arguments calls 0 = none := by
  induction calls with
  | zero => rfl
  | succ calls ih =>
    obtain ⟨answer, hanswer, htables, hnext⟩ :=
      el_list_tables_eq hconnection hbrowsable hlisting (Nat.zero_le USIZE_MAX)
    rw [hlimit, List.take_zero] at htables
    rw [htables, List.length_nil, if_pos (List.length_pos_of_ne_nil hmatched)] at hnext
    simp only [follow, hanswer, hnext, Nat.add_zero, ih, Option.map_none]

/-- Following `next_offset` lists every match once, in listing order, exactly when the
    limit is not 0 or nothing matches. -/
theorem paging_complete_iff (hconnection : required arguments "connection" = .ok connection)
    (hbrowsable : browsable_connection unicode project connection = .ok kind)
    (hlisting : project.list_tables connection = .ok listing) :
    Complete unicode project arguments listing ↔
      arguments "limit" ≠ some (.unsigned 0) ∨ matched unicode listing (arguments.search) = [] := by
  by_cases hlimit : arguments "limit" = some (.unsigned 0)
  · rw [or_iff_right (not_not.mpr hlimit)]
    have hzero := count_limit_eq_zero.mpr hlimit
    constructor
    · rintro ⟨calls, pages, hfollow, -⟩
      by_contra hmatched
      rw [follow_limit_zero hconnection hbrowsable hlisting hzero hmatched] at hfollow
      cases hfollow
    · intro hmatched
      obtain ⟨answer, hanswer, htables, hnext⟩ :=
        el_list_tables_eq hconnection hbrowsable hlisting (Nat.zero_le USIZE_MAX)
      rw [hmatched, List.drop_nil, List.take_nil] at htables
      rw [hmatched, if_neg (by simp)] at hnext
      refine ⟨1, [answer.tables], ?_, ?_⟩
      · simp only [follow, hanswer, hnext]
      · rw [htables, hmatched]
        rfl
  · refine iff_of_true ?_ (Or.inl hlimit)
    have hne := fun hzero => hlimit (count_limit_eq_zero.mp hzero)
    exact follow_complete hconnection hbrowsable hlisting hne
      (matched unicode listing (arguments.search)).length 0 (Nat.zero_le _) (Nat.zero_add _).ge

end

section

def sampleUnicode : Unicode :=
  { to_lowercase := fun text => text.map Char.toLower
    debug := fun text => '"' :: text ++ ['"'] }

def sampleListing : Listing :=
  { tables := [("main".toList, "orders".toList), ("main".toList, "items".toList), ("raw".toList, "orders".toList)]
    fits := by decide }

def sampleProject : Project :=
  { kind := fun name => if name = "wh".toList then some "duckdb" else none
    list_tables := fun _ => .ok sampleListing }

def sampleArguments (limit : UInt64) : Arguments := fun key =>
  if key = "connection" then some (.string "wh".toList)
  else if key = "search" then some (.string "ORDERS".toList)
  else if key = "limit" then some (.unsigned limit)
  else none

theorem sample_paging : Complete sampleUnicode sampleProject (sampleArguments 1) sampleListing :=
  (paging_complete_iff rfl rfl rfl).mpr (Or.inl (by decide))

/-- A limit of 0 is a page of no tables whose next offset is its own. -/
theorem sample_limit_zero : ¬ Complete sampleUnicode sampleProject (sampleArguments 0) sampleListing := by
  rintro ⟨calls, pages, hfollow, -⟩
  rw [follow_limit_zero rfl rfl rfl rfl (by decide)] at hfollow
  cases hfollow

end

end zed.dbt_ui.el.mcp
