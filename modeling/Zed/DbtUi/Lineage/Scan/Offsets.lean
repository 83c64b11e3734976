import Zed.DbtUi.Lineage.Scan

namespace zed.dbt_ui.lineage

open zed.streaming_diff (byte_len byte_len_cons byte_len_append split_bytes_append)
variable {pattern text : List Char}

private theorem occurrences_spec {skip base offset : Nat} (h : offset ∈ occurrences pattern skip base text) :
    ∃ before after, text = before ++ pattern ++ after ∧ base + byte_len before = offset := by
  induction text generalizing skip base with
  | nil =>
    rw [occurrences] at h
    cases h
  | cons c text ih =>
    have hlater : ∀ {skip}, offset ∈ occurrences pattern skip (base + c.utf8Size) text →
        ∃ before after, c :: text = before ++ pattern ++ after ∧ base + byte_len before = offset := by
      intro skip hmem
      obtain ⟨before, after, rfl, hoffset⟩ := ih hmem
      refine ⟨c :: before, after, rfl, ?_⟩
      rw [byte_len_cons]
      omega
    cases skip with
    | succ skip =>
      rw [occurrences] at h
      exact hlater h
    | zero =>
      rw [occurrences] at h
      split at h
      · rename_i hstarts
        rcases List.mem_cons.mp h with rfl | h
        · obtain ⟨after, hafter⟩ := List.isPrefixOf_iff_prefix.mp hstarts
          exact ⟨[], after, hafter.symm, rfl⟩
        · exact hlater h
      · exact hlater h

/-- Where a pattern is found, it stands. -/
theorem match_offsets_spec {offset : Nat} (h : offset ∈ match_offsets pattern text) :
    ∃ before after, text = before ++ pattern ++ after ∧ byte_len before = offset := by
  obtain ⟨before, after, htext, hoffset⟩ := occurrences_spec h
  exact ⟨before, after, htext, by omega⟩

theorem slice_to_append (before after : List Char) : slice_to (before ++ after) (byte_len before) = some before := by
  rw [slice_to, split_bytes_append]
  rfl

theorem slice_from_append (before after : List Char) : slice_from (before ++ after) (byte_len before) = some after := by
  rw [slice_from, split_bytes_append]
  rfl

/-- The two ends of a match are places to cut a text at. -/
theorem slices_of_match {offset : Nat} (h : offset ∈ match_offsets pattern text) :
    ∃ before after, slice_to text offset = some before ∧
      slice_from text (offset + byte_len pattern) = some after := by
  obtain ⟨before, after, rfl, rfl⟩ := match_offsets_spec h
  refine ⟨before, after, ?_, ?_⟩
  · rw [List.append_assoc]
    exact slice_to_append before _
  · rw [← byte_len_append]
    exact slice_from_append _ after

theorem isSome_mapM {α β : Type} {f : α → Option β} {xs : List α} (h : ∀ x ∈ xs, (f x).isSome = true) :
    (xs.mapM f).isSome = true := by
  induction xs with
  | nil => rfl
  | cons x xs ih =>
    obtain ⟨y, hy⟩ := Option.isSome_iff_exists.mp (h x List.mem_cons_self)
    obtain ⟨ys, hys⟩ := Option.isSome_iff_exists.mp (ih fun x hx => h x (List.mem_cons_of_mem _ hx))
    rw [List.mapM_cons, hy, hys]
    rfl

theorem isSome_foldlM {α β : Type} {f : β → α → Option β} {xs : List α} (h : ∀ y, ∀ x ∈ xs, (f y x).isSome = true)
    (y : β) : (xs.foldlM f y).isSome = true := by
  induction xs generalizing y with
  | nil => rfl
  | cons x xs ih =>
    obtain ⟨z, hz⟩ := Option.isSome_iff_exists.mp (h y x List.mem_cons_self)
    rw [List.foldlM_cons, hz]
    exact ih (fun y x hx => h y x (List.mem_cons_of_mem _ hx)) z

variable {to_lowercase : List Char → List Char} {is_alphanumeric : Char → Bool}

theorem join_label_isSome {norm : List Char} {offset : Nat} (h : offset ∈ match_offsets " join ".toList norm) :
    (join_label is_alphanumeric norm offset).isSome = true := by
  obtain ⟨before, rest, hbefore, hrest⟩ := slices_of_match h
  have hlength : byte_len " join ".toList = 6 := by decide
  rw [hlength] at hrest
  rw [join_label, hbefore, hrest]
  rfl

theorem is_called_isSome (lower name : List Char) : (is_called is_alphanumeric lower name).isSome = true := by
  have hstep : ∀ offset ∈ match_offsets (name ++ ['(']) lower, (slice_to lower offset).isSome = true := by
    intro offset h
    obtain ⟨before, -, hbefore, -⟩ := slices_of_match h
    rw [hbefore]
    rfl
  rw [is_called]
  refine isSome_foldlM (fun found offset hoffset => ?_) false
  obtain ⟨before, hbefore⟩ := Option.isSome_iff_exists.mp (hstep offset hoffset)
  split
  · rfl
  · rw [hbefore]
    rfl

/-- `extract_ops` never panics: it cuts each text where a search in that same text
    found something. -/
theorem extract_ops_eq (to_lowercase : List Char → List Char) (is_alphanumeric : Char → Bool) (sql : List Char) :
    ∃ ops, extract_ops to_lowercase is_alphanumeric sql = some ops ∧
      ops.unions = unions (normalize_whitespace (to_lowercase sql)) := by
  have hlabels : ((match_offsets " join ".toList (normalize_whitespace (to_lowercase sql))).mapM
      (join_label is_alphanumeric (normalize_whitespace (to_lowercase sql)))).isSome = true :=
    isSome_mapM fun _ hoffset => join_label_isSome hoffset
  have hcalled : (aggregate_names.mapM fun name => do
      return (name, ← is_called is_alphanumeric (to_lowercase sql) name) : Option (List (List Char × Bool))).isSome = true := by
    refine isSome_mapM fun name _ => ?_
    have hcall : (is_called is_alphanumeric (to_lowercase sql) name).isSome = true := is_called_isSome _ _
    obtain ⟨called, heq⟩ := Option.isSome_iff_exists.mp hcall
    rw [heq]
    rfl
  obtain ⟨labels, hlabels⟩ := Option.isSome_iff_exists.mp hlabels
  obtain ⟨called, hcalled⟩ := Option.isSome_iff_exists.mp hcalled
  rw [extract_ops]
  simp only [hlabels, hcalled]
  exact ⟨_, rfl, rfl⟩

end zed.dbt_ui.lineage
