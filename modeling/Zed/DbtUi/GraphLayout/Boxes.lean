import Zed.DbtUi.GraphLayout.Levels

namespace zed.dbt_ui.graph_layout

variable {count : Nat} {edges : List (Edge count)}

/-- The same columns, each in some order. -/
structure Reordered (columns columns' : List (List (Fin count))) : Prop where
  length_eq : columns'.length = columns.length
  perm : ∀ index, (columns'.getD index []).Perm (columns.getD index [])

theorem Reordered.refl (columns : List (List (Fin count))) : Reordered columns columns := ⟨rfl, fun _ => .refl _⟩

theorem Reordered.trans {first second third : List (List (Fin count))} (h : Reordered first second)
    (h' : Reordered second third) : Reordered first third :=
  ⟨h'.length_eq.trans h.length_eq, fun index => (h'.perm index).trans (h.perm index)⟩

namespace Columns

theorem reorder_reordered (neighbours : Fin count → List (Fin count)) (columns : Columns count) (index : Nat) :
    Reordered columns.columns (columns.reorder neighbours index).columns := by
  refine ⟨List.length_set .., fun other => ?_⟩
  unfold reorder
  dsimp only
  rcases eq_or_ne index other with rfl | hne
  · by_cases hindex : index < columns.columns.length
    · rw [List.getD_eq_getElem?_getD, List.getElem?_set_self hindex, Option.getD_some]
      have hsorted := List.mergeSort_perm
        ((columns.columns.getD index []).map fun node => (key columns.position neighbours node, node))
        fun a b => decide (a.1 < b.1 ∨ a.1 = b.1 ∧ columns.position a.2 ≤ columns.position b.2)
      have hmapped := hsorted.map Prod.snd
      have hid : (Prod.snd ∘ fun node => (key columns.position neighbours node, node)) = id := rfl
      rwa [List.map_map, hid, List.map_id] at hmapped
    · rw [List.set_eq_of_length_le (Nat.le_of_not_lt hindex)]
  · rw [List.getD_eq_getElem?_getD, List.getElem?_set_ne hne, ← List.getD_eq_getElem?_getD]

theorem foldl_reorder_reordered (neighbours : Fin count → List (Fin count)) (indices : List Nat)
    (columns : Columns count) :
    Reordered columns.columns (indices.foldl (reorder neighbours) columns).columns := by
  induction indices generalizing columns with
  | nil => exact .refl _
  | cons index indices ih => exact (reorder_reordered neighbours columns index).trans (ih _)

theorem foldl_sweep_reordered (edges : List (Edge count)) (sweeps : List Nat) (columns : Columns count) :
    Reordered columns.columns (sweeps.foldl (sweep edges) columns).columns := by
  induction sweeps generalizing columns with
  | nil => exact .refl _
  | cons first sweeps ih => exact (foldl_reorder_reordered _ _ columns).trans (ih _)

end Columns

def minLevel (level : Fin count → ℤ) : ℤ := (((List.finRange count).map level).min?).getD 0

theorem minLevel_le (level : Fin count → ℤ) (node : Fin count) : minLevel level ≤ level node := by
  have hmem : level node ∈ (List.finRange count).map level := List.mem_map_of_mem (List.mem_finRange node)
  unfold minLevel
  cases hmin : ((List.finRange count).map level).min? with
  | none =>
    rw [List.min?_eq_none_iff.mp hmin] at hmem
    cases hmem
  | some least => exact (List.min?_eq_some_iff.mp hmin).2 _ hmem

theorem le_maxLevel (level : Fin count → ℤ) (node : Fin count) :
    level node ≤ (((List.finRange count).map level).max?).getD 0 := by
  have hmem : level node ∈ (List.finRange count).map level := List.mem_map_of_mem (List.mem_finRange node)
  cases hmax : ((List.finRange count).map level).max? with
  | none =>
    rw [List.max?_eq_none_iff.mp hmax] at hmem
    cases hmem
  | some greatest => exact (List.max?_eq_some_iff.mp hmax).2 _ hmem

theorem mem_new (level : Fin count → ℤ) (node : Fin count) (index : Nat) :
    node ∈ (Columns.new level).columns.getD index [] ↔ (level node - minLevel level).toNat = index := by
  have hmin := minLevel_le level node
  have hmax := le_maxLevel level node
  let total := ((((List.finRange count).map level).max?).getD 0 - minLevel level + 1).toNat
  have hnew : (Columns.new level).columns = (List.range total).map fun index =>
    (List.finRange count).filter fun node => (level node - minLevel level).toNat = index := rfl
  rw [hnew, List.getD_eq_getElem?_getD, List.getElem?_map]
  by_cases hindex : index < total
  · rw [List.getElem?_range hindex, Option.map_some, Option.getD_some, List.mem_filter]
    simp
  · have hnone : (List.range total)[index]? = none :=
      List.getElem?_eq_none (by rw [List.length_range]; exact Nat.le_of_not_lt hindex)
    rw [hnone, Option.map_none, Option.getD_none]
    refine ⟨fun hmem => absurd hmem List.not_mem_nil, fun heq => absurd ?_ hindex⟩
    omega

theorem arranged_reordered (edges : List (Edge count)) (level : Fin count → ℤ) :
    Reordered (Columns.new level).columns (arranged edges level) :=
  Columns.foldl_sweep_reordered edges (List.range 4) _

theorem mem_arranged (edges : List (Edge count)) (level : Fin count → ℤ) (node : Fin count) (index : Nat) :
    node ∈ (arranged edges level).getD index [] ↔ (level node - minLevel level).toNat = index :=
  ((arranged_reordered edges level).perm index).mem_iff.trans (mem_new level node index)

/-- Columns in which each node is once, those of a lower level before those of a higher. -/
structure Leveled (level : Fin count → ℤ) (columns : List (List (Fin count))) : Prop where
  nodup : ∀ column ∈ columns, column.Nodup
  rising : columns.Pairwise fun before after => ∀ a ∈ before, ∀ b ∈ after, level a < level b

theorem arranged_leveled (edges : List (Edge count)) (level : Fin count → ℤ) : Leveled level (arranged edges level) where
  nodup column hcolumn := by
    obtain ⟨index, hindex, rfl⟩ := List.getElem_of_mem hcolumn
    have hperm := (arranged_reordered edges level).perm index
    have hlength := (arranged_reordered edges level).length_eq
    rw [← List.getD_eq_getElem _ [] hindex, hperm.nodup_iff, List.getD_eq_getElem _ [] (hlength ▸ hindex)]
    unfold Columns.new
    dsimp only
    rw [List.getElem_map]
    exact (List.nodup_finRange count).filter _
  rising := by
    rw [List.pairwise_iff_getElem]
    intro i j hi hj hij a ha b hb
    rw [← List.getD_eq_getElem _ [] hi, mem_arranged] at ha
    rw [← List.getD_eq_getElem _ [] hj, mem_arranged] at hb
    have hmin := minLevel_le level a
    omega

theorem exists_mem_arranged (edges : List (Edge count)) (level : Fin count → ℤ) (node : Fin count) :
    ∃ column ∈ arranged edges level, node ∈ column := by
  have hmem := (mem_arranged edges level node _).mpr rfl
  rw [List.getD_eq_getElem?_getD] at hmem
  cases hcolumn : (arranged edges level)[(level node - minLevel level).toNat]? with
  | none =>
    rw [hcolumn] at hmem
    cases hmem
  | some column =>
    rw [hcolumn] at hmem
    exact ⟨column, List.mem_of_getElem? hcolumn, hmem⟩

theorem Leveled.flatten_nodup {level : Fin count → ℤ} {columns : List (List (Fin count))} (h : Leveled level columns) :
    columns.flatten.Nodup := by
  refine List.nodup_flatten.mpr ⟨h.nodup, h.rising.imp fun {before after} hlt => ?_⟩
  intro node hbefore hafter
  exact lt_irrefl _ (hlt node hbefore node hafter)

theorem arranged_perm (edges : List (Edge count)) (level : Fin count → ℤ) :
    (arranged edges level).flatten.Perm (List.finRange count) := by
  refine (List.perm_ext_iff_of_nodup (arranged_leveled edges level).flatten_nodup (List.nodup_finRange count)).mpr ?_
  intro node
  exact ⟨fun _ => List.mem_finRange node, fun _ => List.mem_flatten.mpr (exists_mem_arranged edges level node)⟩

section

variable (size : Fin count → ℚ × ℚ) (spacing : Spacing) (level : Fin count → ℤ)

theorem placeNodes_of_not_mem (x y : ℚ) {column : List (Fin count)} {node : Fin count} (h : node ∉ column)
    (nodes : Fin count → Placed) : placeNodes size spacing level x y column nodes node = nodes node := by
  induction column generalizing y nodes with
  | nil => rfl
  | cons first column ih =>
    obtain ⟨hne, hnot⟩ := not_or.mp fun hmem => h (List.mem_cons.mpr hmem)
    rw [placeNodes, ih _ hnot, Function.update_of_ne hne]

theorem placeNodes_of_mem (x y : ℚ) {column : List (Fin count)} {node : Fin count} (h : node ∈ column)
    (nodes : Fin count → Placed) :
    (placeNodes size spacing level x y column nodes node).x = x ∧
      (placeNodes size spacing level x y column nodes node).level = level node := by
  induction column generalizing y nodes with
  | nil => cases h
  | cons first column ih =>
    rw [placeNodes]
    by_cases hmem : node ∈ column
    · exact ih _ hmem _
    · obtain rfl := (List.mem_cons.mp h).resolve_right hmem
      rw [placeNodes_of_not_mem _ _ _ _ _ hmem, Function.update_self]
      exact ⟨rfl, rfl⟩

variable {size spacing}

theorem column_height_nonneg (hsize : ∀ node, 0 ≤ (size node).1 ∧ 0 ≤ (size node).2) (hgap : 0 ≤ spacing.row_gap)
    (column : List (Fin count)) : 0 ≤ column_height size spacing column := by
  have hsum : 0 ≤ (column.map fun node => (size node).2).sum :=
    List.sum_nonneg fun height hheight => by
      obtain ⟨node, -, rfl⟩ := List.mem_map.mp hheight
      exact (hsize node).2
  exact add_nonneg hsum (mul_nonneg hgap (Nat.cast_nonneg _))

theorem column_height_cons {node : Fin count} {column : List (Fin count)} (h : column ≠ []) :
    column_height size spacing (node :: column) =
      (size node).2 + spacing.row_gap + column_height size spacing column := by
  obtain ⟨n, hn⟩ := Nat.exists_eq_succ_of_ne_zero fun hzero => h (List.length_eq_zero_iff.mp hzero)
  unfold column_height
  rw [List.map_cons, List.sum_cons, List.length_cons, hn, Nat.add_sub_cancel, Nat.succ_sub_one]
  push_cast
  ring

theorem placeNodes_stacked (hsize : ∀ node, 0 ≤ (size node).1 ∧ 0 ≤ (size node).2) (hgap : 0 ≤ spacing.row_gap)
    (x y : ℚ) {column : List (Fin count)} (hnodup : column.Nodup) (nodes : Fin count → Placed) :
    let placed := placeNodes size spacing level x y column nodes
    (∀ node ∈ column, y ≤ (placed node).y ∧ (placed node).y + (size node).2 ≤ y + column_height size spacing column) ∧
      column.Pairwise fun a b => (placed a).y + (size a).2 + spacing.row_gap ≤ (placed b).y := by
  induction column generalizing y nodes with
  | nil => simp
  | cons first column ih =>
    obtain ⟨hfirst, hnodup⟩ := List.nodup_cons.mp hnodup
    have hheight := (hsize first).2
    let y' := y + ((size first).2 + spacing.row_gap)
    obtain ⟨hbetween, hapart⟩ := ih y' hnodup (Function.update nodes first ⟨x, y, level first⟩)
    have hplaced : (placeNodes size spacing level x y (first :: column) nodes first) = ⟨x, y, level first⟩ := by
      rw [placeNodes, placeNodes_of_not_mem _ _ _ _ _ hfirst, Function.update_self]
    dsimp only
    refine ⟨fun node hnode => ?_, List.pairwise_cons.mpr ⟨fun node hnode => ?_, hapart⟩⟩
    · rcases List.mem_cons.mp hnode with rfl | hnode
      · rw [hplaced]
        refine ⟨le_refl _, ?_⟩
        dsimp only
        by_cases hnil : column = []
        · subst hnil
          simp [column_height]
        · have hrest := column_height_nonneg hsize hgap column
          rw [column_height_cons hnil]
          linarith
      · obtain ⟨htop, hbottom⟩ := hbetween node hnode
        rw [placeNodes, column_height_cons (List.ne_nil_of_mem hnode)]
        refine ⟨le_trans ?_ htop, le_trans hbottom (le_of_eq ?_)⟩
        · linarith
        · ring
    · rw [hplaced]
      have htop := (hbetween node hnode).1
      rw [placeNodes]
      refine le_trans (le_of_eq ?_) htop
      ring

theorem le_foldl_max (values : List ℚ) (start : ℚ) : start ≤ values.foldl max start ∧ ∀ value ∈ values, value ≤ values.foldl max start := by
  induction values generalizing start with
  | nil => simp
  | cons first values ih =>
    obtain ⟨hstart, hvalues⟩ := ih (max start first)
    refine ⟨(le_max_left _ _).trans hstart, fun value hvalue => ?_⟩
    rcases List.mem_cons.mp hvalue with rfl | hvalue
    · exact (le_max_right _ _).trans hstart
    · exact hvalues value hvalue

theorem le_column_width (size : Fin count → ℚ × ℚ) {node : Fin count} {column : List (Fin count)} (h : node ∈ column) :
    (size node).1 ≤ column_width size column :=
  (le_foldl_max _ 0).2 _ (List.mem_map_of_mem h)

theorem column_width_nonneg (size : Fin count → ℚ × ℚ) (column : List (Fin count)) : 0 ≤ column_width size column := (le_foldl_max _ 0).1

theorem placeColumns_of_not_mem (tallest x : ℚ) {columns : List (List (Fin count))} {node : Fin count}
    (h : node ∉ columns.flatten) (nodes : Fin count → Placed) :
    (placeColumns size spacing level tallest x columns nodes).2 node = nodes node := by
  induction columns generalizing x nodes with
  | nil => rfl
  | cons column columns ih =>
    rw [List.flatten_cons, List.mem_append, not_or] at h
    rw [placeColumns, ih _ h.2, placeNodes_of_not_mem _ _ _ _ _ h.1]

theorem placeColumns_level (tallest x : ℚ) {columns : List (List (Fin count))} (hnodup : columns.flatten.Nodup)
    {node : Fin count} (h : node ∈ columns.flatten) (nodes : Fin count → Placed) :
    ((placeColumns size spacing level tallest x columns nodes).2 node).level = level node := by
  induction columns generalizing x nodes with
  | nil => cases h
  | cons column columns ih =>
    rw [List.flatten_cons] at h hnodup
    obtain ⟨-, hrest, hdisjoint⟩ := List.nodup_append.mp hnodup
    rw [placeColumns]
    rcases List.mem_append.mp h with hmem | hmem
    · have hnot : node ∉ columns.flatten := fun hmem' => hdisjoint node hmem node hmem' rfl
      rw [placeColumns_of_not_mem _ _ _ hnot]
      exact (placeNodes_of_mem _ _ _ _ _ hmem _).2
    · exact ih _ hrest hmem _

/-- Columns from left to right between two bounds, apart by the gap. -/
structure Spread (size : Fin count → ℚ × ℚ) (spacing : Spacing) (placed : Fin count → Placed) (left right : ℚ)
    (columns : List (List (Fin count))) : Prop where
  left : ∀ column ∈ columns, ∀ node ∈ column, left ≤ (placed node).x
  right : ∀ column ∈ columns, ∀ node ∈ column, (placed node).x + (size node).1 + spacing.column_gap ≤ right
  apart : columns.Pairwise fun before after => ∀ a ∈ before, ∀ b ∈ after,
    (placed a).x + (size a).1 + spacing.column_gap ≤ (placed b).x

theorem placeColumns_spread (hcolumn : 0 ≤ spacing.column_gap) (tallest x : ℚ) {columns : List (List (Fin count))}
    (hnodup : columns.flatten.Nodup) (nodes : Fin count → Placed) :
    let placed := placeColumns size spacing level tallest x columns nodes
    x ≤ placed.1 ∧ Spread size spacing placed.2 x placed.1 columns := by
  induction columns generalizing x nodes with
  | nil =>
    refine ⟨le_refl x, ?_, ?_, List.Pairwise.nil⟩
    all_goals exact fun column hmem => absurd hmem List.not_mem_nil
  | cons column columns ih =>
    rw [List.flatten_cons] at hnodup
    obtain ⟨-, hrest, hdisjoint⟩ := List.nodup_append.mp hnodup
    let y := spacing.padding + (tallest - column_height size spacing column) / 2
    let x₁ := x + (column_width size column + spacing.column_gap)
    let nodes' := placeNodes size spacing level x y column nodes
    obtain ⟨hx, hspread⟩ := ih x₁ hrest nodes'
    let placed := (placeColumns size spacing level tallest x₁ columns nodes').2
    -- the columns to the right leave this one where it is
    have hplace (node : Fin count) (hnode : node ∈ column) : (placed node).x = x := by
      have hkeep : placed node = nodes' node :=
        placeColumns_of_not_mem level tallest x₁ (fun hmem => hdisjoint node hnode node hmem rfl) nodes'
      rw [hkeep]
      exact (placeNodes_of_mem size spacing level x y hnode nodes).1
    have hx₁ : x₁ = x + (column_width size column + spacing.column_gap) := rfl
    have hxx₁ : x ≤ x₁ := by
      have hwidth := column_width_nonneg size column
      linarith
    have hright (node : Fin count) (hnode : node ∈ column) :
        (placed node).x + (size node).1 + spacing.column_gap ≤ x₁ := by
      have hle := le_column_width size hnode
      rw [hplace node hnode, hx₁]
      linarith
    refine ⟨hxx₁.trans hx, fun other hother node hnode => ?_, fun other hother node hnode => ?_,
      List.pairwise_cons.mpr ⟨fun other hother a ha b hb => ?_, hspread.apart⟩⟩
    · rcases List.mem_cons.mp hother with rfl | hother
      · exact (hplace node hnode).ge
      · exact hxx₁.trans (hspread.left other hother node hnode)
    · rcases List.mem_cons.mp hother with rfl | hother
      · exact (hright node hnode).trans hx
      · exact hspread.right other hother node hnode
    · exact (hright a ha).trans (hspread.left other hother b hb)

/-- Columns no higher than the tallest, the nodes in each apart by the gap. -/
structure Stacked (size : Fin count → ℚ × ℚ) (spacing : Spacing) (tallest : ℚ) (placed : Fin count → Placed)
    (columns : List (List (Fin count))) : Prop where
  top : ∀ column ∈ columns, ∀ node ∈ column, spacing.padding ≤ (placed node).y
  bottom : ∀ column ∈ columns, ∀ node ∈ column, (placed node).y + (size node).2 ≤ spacing.padding + tallest
  apart : ∀ column ∈ columns,
    column.Pairwise fun a b => (placed a).y + (size a).2 + spacing.row_gap ≤ (placed b).y

theorem placeColumns_stacked (hsize : ∀ node, 0 ≤ (size node).1 ∧ 0 ≤ (size node).2) (hrow : 0 ≤ spacing.row_gap)
    {tallest : ℚ} (x : ℚ) {columns : List (List (Fin count))} (hnodup : columns.flatten.Nodup)
    (htallest : ∀ column ∈ columns, column_height size spacing column ≤ tallest) (nodes : Fin count → Placed) :
    Stacked size spacing tallest (placeColumns size spacing level tallest x columns nodes).2 columns := by
  induction columns generalizing x nodes with
  | nil =>
    refine ⟨?_, ?_, ?_⟩
    all_goals exact fun column hmem => absurd hmem List.not_mem_nil
  | cons column columns ih =>
    rw [List.flatten_cons] at hnodup
    obtain ⟨hnodup, hrest, hdisjoint⟩ := List.nodup_append.mp hnodup
    let y := spacing.padding + (tallest - column_height size spacing column) / 2
    let x₁ := x + (column_width size column + spacing.column_gap)
    let nodes' := placeNodes size spacing level x y column nodes
    have hstacked := ih x₁ hrest (fun other hother => htallest other (List.mem_cons_of_mem _ hother)) nodes'
    let placed := (placeColumns size spacing level tallest x₁ columns nodes').2
    have hkeep (node : Fin count) (hnode : node ∈ column) : placed node = nodes' node :=
      placeColumns_of_not_mem level tallest x₁ (fun hmem => hdisjoint node hnode node hmem rfl) nodes'
    obtain ⟨hbetween, hapart⟩ := placeNodes_stacked level hsize hrow x y hnodup nodes
    have hheight := htallest column List.mem_cons_self
    have hy : y = spacing.padding + (tallest - column_height size spacing column) / 2 := rfl
    have htop (node : Fin count) (hnode : node ∈ column) : spacing.padding ≤ (placed node).y := by
      rw [hkeep node hnode]
      exact le_trans (by linarith) (hbetween node hnode).1
    have hbottom (node : Fin count) (hnode : node ∈ column) :
        (placed node).y + (size node).2 ≤ spacing.padding + tallest := by
      rw [hkeep node hnode]
      exact le_trans (hbetween node hnode).2 (by linarith)
    refine ⟨fun other hother node hnode => ?_, fun other hother node hnode => ?_, fun other hother => ?_⟩
    · rcases List.mem_cons.mp hother with rfl | hother
      · exact htop node hnode
      · exact hstacked.top other hother node hnode
    · rcases List.mem_cons.mp hother with rfl | hother
      · exact hbottom node hnode
      · exact hstacked.bottom other hother node hnode
    · rcases List.mem_cons.mp hother with rfl | hother
      · refine hapart.imp_of_mem fun {a b} ha hb hle => ?_
        change (placed a).y + (size a).2 + spacing.row_gap ≤ (placed b).y
        rw [hkeep a ha, hkeep b hb]
        exact hle
      · exact hstacked.apart other hother

end

theorem exists_columns {level : Fin count → ℤ} {a b : Fin count} (h : level a < level b)
    {R : List (Fin count) → List (Fin count) → Prop} (hR : (arranged edges level).Pairwise R) :
    ∃ before after, a ∈ before ∧ b ∈ after ∧ R before after := by
  have ha := (mem_arranged edges level a _).mpr rfl
  have hb := (mem_arranged edges level b _).mpr rfl
  have hlt : (level a - minLevel level).toNat < (level b - minLevel level).toNat := by
    have hmin := minLevel_le level a
    omega
  have hlength : (level b - minLevel level).toNat < (arranged edges level).length := by
    by_contra hnot
    rw [List.getD_eq_default _ _ (Nat.le_of_not_lt hnot)] at hb
    cases hb
  rw [List.getD_eq_getElem _ [] (hlt.trans hlength)] at ha
  rw [List.getD_eq_getElem _ [] hlength] at hb
  exact ⟨_, _, ha, hb, List.pairwise_iff_getElem.mp hR _ _ (hlt.trans hlength) hlength hlt⟩

theorem exists_column (edges : List (Edge count)) {level : Fin count → ℤ} {a b : Fin count} (h : level a = level b) :
    ∃ column ∈ arranged edges level, a ∈ column ∧ b ∈ column := by
  obtain ⟨column, hcolumn, ha⟩ := exists_mem_arranged edges level a
  refine ⟨column, hcolumn, ha, ?_⟩
  obtain ⟨index, hindex, rfl⟩ := List.getElem_of_mem hcolumn
  rw [← List.getD_eq_getElem _ [] hindex, mem_arranged] at ha ⊢
  rw [← h, ha]

def Overlaps (size : Fin count → ℚ × ℚ) (nodes : Fin count → Placed) (a b : Fin count) : Prop :=
  (nodes a).x < (nodes b).x + (size b).1 ∧ (nodes b).x < (nodes a).x + (size a).1 ∧
    (nodes a).y < (nodes b).y + (size b).2 ∧ (nodes b).y < (nodes a).y + (size a).2

/-- The nodes in their columns, placed from the left margin, and where the columns end. -/
@[irreducible] def place (size : Fin count → ℚ × ℚ) (spacing : Spacing) (edges : List (Edge count)) (level : Fin count → ℤ)
    (tallest : ℚ) : ℚ × (Fin count → Placed) :=
  placeColumns size spacing level tallest spacing.padding (arranged edges level) fun _ => ⟨0, 0, 0⟩

section

variable (size : Fin count → ℚ × ℚ) (spacing : Spacing) (edges : List (Edge count)) (level : Fin count → ℤ) (tallest : ℚ)

theorem place_level (node : Fin count) : ((place size spacing edges level tallest).2 node).level = level node := by
  have hnodup := (arranged_leveled edges level).flatten_nodup
  have hmem := List.mem_flatten.mpr (exists_mem_arranged edges level node)
  unfold place
  generalize arranged edges level = columns at hnodup hmem ⊢
  exact placeColumns_level level tallest _ hnodup hmem _

variable {spacing}

theorem place_spread (hcolumn : 0 ≤ spacing.column_gap) :
    let placed := place size spacing edges level tallest
    Spread size spacing placed.2 spacing.padding placed.1 (arranged edges level) := by
  have hnodup := (arranged_leveled edges level).flatten_nodup
  unfold place
  generalize arranged edges level = columns at hnodup ⊢
  exact (placeColumns_spread level hcolumn tallest _ hnodup _).2

variable {level} in
theorem place_left (hcolumn : 0 ≤ spacing.column_gap) {a b : Fin count} (hlt : level a < level b) :
    let placed := place size spacing edges level tallest
    (placed.2 a).x + (size a).1 + spacing.column_gap ≤ (placed.2 b).x := by
  obtain ⟨before, after, ha, hb, hapart⟩ := exists_columns hlt (place_spread size edges level tallest hcolumn).apart
  exact hapart a ha b hb

variable {size tallest}

theorem place_stacked (hsize : ∀ node, 0 ≤ (size node).1 ∧ 0 ≤ (size node).2) (hrow : 0 ≤ spacing.row_gap)
    (htallest : ∀ column ∈ arranged edges level, column_height size spacing column ≤ tallest) :
    Stacked size spacing tallest (place size spacing edges level tallest).2 (arranged edges level) := by
  have hnodup := (arranged_leveled edges level).flatten_nodup
  unfold place
  generalize arranged edges level = columns at hnodup htallest ⊢
  exact placeColumns_stacked level hsize hrow _ hnodup htallest _

theorem place_apart (hsize : ∀ node, 0 ≤ (size node).1 ∧ 0 ≤ (size node).2) (hcolumn : 0 ≤ spacing.column_gap)
    (hrow : 0 ≤ spacing.row_gap)
    (htallest : ∀ column ∈ arranged edges level, column_height size spacing column ≤ tallest)
    {a b : Fin count} (hne : a ≠ b) : ¬ Overlaps size (place size spacing edges level tallest).2 a b := by
  rintro ⟨hxab, hxba, hyab, hyba⟩
  rcases lt_trichotomy (level a) (level b) with hlt | hsame | hlt
  · have hle := place_left size edges tallest hcolumn hlt
    dsimp only at hle
    linarith
  · obtain ⟨column, hmem, ha, hb⟩ := exists_column edges hsame
    let placed := (place size spacing edges level tallest).2
    -- one of the two stands above the other
    have hrows : column.Pairwise fun a b => (placed a).y + (size a).2 + spacing.row_gap ≤ (placed b).y ∨
        (placed b).y + (size b).2 + spacing.row_gap ≤ (placed a).y :=
      ((place_stacked edges level hsize hrow htallest).apart column hmem).imp .inl
    have hsymm : Std.Symm fun a b => (placed a).y + (size a).2 + spacing.row_gap ≤ (placed b).y ∨
        (placed b).y + (size b).2 + spacing.row_gap ≤ (placed a).y := ⟨fun _ _ => Or.symm⟩
    rcases hrows.forall ha hb hne with hle | hle
    · have hyba : (placed b).y < (placed a).y + (size a).2 := hyba
      linarith
    · have hyab : (placed a).y < (placed b).y + (size b).2 := hyab
      linarith
  · have hle := place_left size edges tallest hcolumn hlt
    dsimp only at hle
    linarith

end

variable (sizes : List (ℚ × ℚ)) (edges : List (Nat × Nat)) (center : Option (Fin sizes.length)) (spacing : Spacing)

/-- The level of each node along the edges that the layering follows. -/
def levelOf : Fin sizes.length → ℤ := levels (forward sizes edges center) center

/-- A layout has each node once, at the level of its column, and the center in column 0. Each edge
    followed goes to a higher level, and to the right when there is a gap between columns; with no
    cycle, every edge is followed. No boxes overlap, and all are within the margins, unless a gap
    is below zero. -/
structure LaidOut (placement : Placement sizes.length) : Prop where
  once : (arranged (forward sizes edges center) (levelOf sizes edges center)).flatten.Perm
    (List.finRange sizes.length)
  level_eq : ∀ node, (placement.nodes node).level = levelOf sizes edges center node
  center_level : ∀ node, center = some node → (placement.nodes node).level = 0
  rises : ∀ edge ∈ forward sizes edges center, (placement.nodes edge.1).level < (placement.nodes edge.2).level
  rightward : 0 < spacing.column_gap → ∀ edge ∈ forward sizes edges center,
    (placement.nodes edge.1).x < (placement.nodes edge.2).x
  keeps : graph.Acyclic (Feeds (links sizes.length edges)) → forward sizes edges center = links sizes.length edges
  apart : 0 ≤ spacing.column_gap → 0 ≤ spacing.row_gap → ∀ a b, a ≠ b → ¬ Overlaps sizes.get placement.nodes a b
  across : 0 ≤ spacing.column_gap → ∀ node, spacing.padding ≤ (placement.nodes node).x ∧
    (placement.nodes node).x + (sizes.get node).1 ≤ placement.width - spacing.padding
  down : 0 ≤ spacing.row_gap → ∀ node, spacing.padding ≤ (placement.nodes node).y ∧
    (placement.nodes node).y + (sizes.get node).2 ≤ placement.height - spacing.padding

def tallestOf : ℚ :=
  ((arranged (forward sizes edges center) (levelOf sizes edges center)).map (column_height sizes.get spacing)).foldl max 0

/-- The nodes as the layout places them, and where its columns end. -/
def placedOf : ℚ × (Fin sizes.length → Placed) :=
  place sizes.get spacing (forward sizes edges center) (levelOf sizes edges center) (tallestOf sizes edges center spacing)

theorem layered_eq (node : Fin sizes.length) :
    layered sizes edges center spacing = ⟨(placedOf sizes edges center spacing).2,
      (placedOf sizes edges center spacing).1 - spacing.column_gap + spacing.padding,
      tallestOf sizes edges center spacing + 2 * spacing.padding⟩ := by
  have hne : sizes.length ≠ 0 := fun hzero => by
    have hlt := node.2
    omega
  rw [layered, if_neg hne, placedOf, place]
  rfl

/-- Nodes of any sizes and edges are laid out. -/
theorem layered_lays_out (hsizes : ∀ size ∈ sizes, 0 ≤ size.1 ∧ 0 ≤ size.2) :
    LaidOut sizes edges center spacing (layered sizes edges center spacing) := by
  have hsize (node : Fin sizes.length) : 0 ≤ (sizes.get node).1 ∧ 0 ≤ (sizes.get node).2 :=
    hsizes _ (List.get_mem sizes node)
  obtain ⟨rank, hrank⟩ := acyclic_ranked (links sizes.length edges) center
  have hrises : Rises (forward sizes edges center) (levelOf sizes edges center) := levels_rises hrank center
  have htallest : ∀ column ∈ arranged (forward sizes edges center) (levelOf sizes edges center),
      column_height sizes.get spacing column ≤ tallestOf sizes edges center spacing :=
    fun column hcolumn => (le_foldl_max _ 0).2 _ (List.mem_map_of_mem hcolumn)
  have heq := layered_eq sizes edges center spacing
  have hplaced (node : Fin sizes.length) :
      ((placedOf sizes edges center spacing).2 node).level = levelOf sizes edges center node :=
    place_level sizes.get spacing (forward sizes edges center) (levelOf sizes edges center)
      (tallestOf sizes edges center spacing) node
  have hspread (hcolumn : 0 ≤ spacing.column_gap) : Spread sizes.get spacing (placedOf sizes edges center spacing).2
      spacing.padding (placedOf sizes edges center spacing).1
      (arranged (forward sizes edges center) (levelOf sizes edges center)) :=
    place_spread sizes.get (forward sizes edges center) (levelOf sizes edges center) _ hcolumn
  have hlevel (node : Fin sizes.length) :
      ((layered sizes edges center spacing).nodes node).level = levelOf sizes edges center node := by
    rw [heq node]
    exact hplaced node
  refine ⟨arranged_perm _ _, hlevel, ?_, ?_, ?_, ?_, ?_, ?_, ?_⟩
  · rintro node rfl
    rw [hlevel]
    exact levels_center _ node
  · intro edge hedge
    rw [hlevel, hlevel]
    exact hrises edge hedge
  · intro hcolumn edge hedge
    have hleft : ((placedOf sizes edges center spacing).2 edge.1).x + (sizes.get edge.1).1 + spacing.column_gap ≤
        ((placedOf sizes edges center spacing).2 edge.2).x :=
      place_left sizes.get (forward sizes edges center) _ hcolumn.le (hrises edge hedge)
    have hwidth := (hsize edge.1).1
    rw [heq edge.1]
    dsimp only
    linarith
  · intro hacyclic
    exact acyclic_eq_self hacyclic center
  · intro hcolumn hrow a b hne
    rw [heq a]
    exact place_apart (forward sizes edges center) (levelOf sizes edges center) hsize hcolumn hrow htallest hne
  · intro hcolumn node
    obtain ⟨column, hmem, hnode⟩ :=
      exists_mem_arranged (forward sizes edges center) (levelOf sizes edges center) node
    have hright := (hspread hcolumn).right column hmem node hnode
    rw [heq node]
    refine ⟨(hspread hcolumn).left column hmem node hnode, ?_⟩
    dsimp only
    linarith
  · intro hrow node
    obtain ⟨column, hmem, hnode⟩ :=
      exists_mem_arranged (forward sizes edges center) (levelOf sizes edges center) node
    have hstacked : Stacked sizes.get spacing (tallestOf sizes edges center spacing)
        (placedOf sizes edges center spacing).2 _ :=
      place_stacked (forward sizes edges center) (levelOf sizes edges center) hsize hrow htallest
    have hbottom := hstacked.bottom column hmem node hnode
    rw [heq node]
    refine ⟨hstacked.top column hmem node hnode, ?_⟩
    dsimp only
    linarith

/-- A box in a cycle of three, with an edge to itself and one from nowhere. -/
theorem cycle_lays_out :
    (∀ size ∈ [((100 : ℚ), (32 : ℚ)), (100, 32), (100, 32)], 0 ≤ size.1 ∧ 0 ≤ size.2) ∧
      LaidOut [(100, 32), (100, 32), (100, 32)] [(0, 1), (1, 2), (2, 0), (1, 1), (7, 0)] (some 0) ⟨24, 70, 14⟩
        (layered [(100, 32), (100, 32), (100, 32)] [(0, 1), (1, 2), (2, 0), (1, 1), (7, 0)] (some 0) ⟨24, 70, 14⟩) :=
  have hsizes : ∀ size ∈ [((100 : ℚ), (32 : ℚ)), (100, 32), (100, 32)], 0 ≤ size.1 ∧ 0 ≤ size.2 := by
    simp
  ⟨hsizes, layered_lays_out _ _ _ _ hsizes⟩

theorem placeColumns_flat {count : Nat} {size : Fin count → ℚ × ℚ} (level : Fin count → ℤ) (tallest x : ℚ)
    (hwidth : ∀ node, (size node).1 = 0) {spacing : Spacing} (hgap : spacing.column_gap = 0)
    (columns : List (List (Fin count))) (nodes : Fin count → Placed) :
    (placeColumns size spacing level tallest x columns nodes).1 = x := by
  induction columns generalizing x nodes with
  | nil => rfl
  | cons column columns ih =>
    have hzero : column_width size column = 0 := by
      unfold column_width
      induction column with
      | nil => rfl
      | cons node column ih => simpa [hwidth] using ih
    rw [placeColumns, ih, hzero, hgap]
    simp

theorem layered_flat (hwidth : ∀ node, (sizes.get node).1 = 0) (hgap : spacing.column_gap = 0) (node : Fin sizes.length) :
    ((layered sizes edges center spacing).nodes node).x = spacing.padding := by
  obtain ⟨column, hmem, hnode⟩ :=
    exists_mem_arranged (forward sizes edges center) (levelOf sizes edges center) node
  have hspread : Spread sizes.get spacing (placedOf sizes edges center spacing).2 spacing.padding
      (placedOf sizes edges center spacing).1 (arranged (forward sizes edges center) (levelOf sizes edges center)) :=
    place_spread sizes.get (forward sizes edges center) (levelOf sizes edges center) _ hgap.ge
  have hend : (placedOf sizes edges center spacing).1 = spacing.padding := by
    rw [placedOf, place]
    exact placeColumns_flat _ _ _ hwidth hgap _ _
  have hright := hspread.right column hmem node hnode
  rw [hwidth, hgap, hend, add_zero, add_zero] at hright
  rw [layered_eq sizes edges center spacing node]
  exact le_antisymm hright (hspread.left column hmem node hnode)

/-- Without a gap an edge may end where it begins. -/
theorem edge_not_rightward :
    ¬ ∀ edge ∈ forward [(0, 0), (0, 0)] [(0, 1)] none,
      ((layered [(0, 0), (0, 0)] [(0, 1)] none ⟨24, 0, 14⟩).nodes edge.1).x <
        ((layered [(0, 0), (0, 0)] [(0, 1)] none ⟨24, 0, 14⟩).nodes edge.2).x := by
  intro hright
  have hlinks : links [((0 : ℚ), (0 : ℚ)), (0, 0)].length [(0, 1)] = [(0, 1)] := by decide
  have hacyclic : graph.Acyclic (Feeds (links [((0 : ℚ), (0 : ℚ)), (0, 0)].length [(0, 1)])) := by
    refine graph.acyclic_of_rank Fin.val fun a b hedge => ?_
    rw [Feeds, hlinks, List.mem_singleton] at hedge
    cases hedge
    decide
  have hmem : (0, 1) ∈ forward [(0, 0), (0, 0)] [(0, 1)] none := by
    rw [forward, acyclic_eq_self hacyclic, hlinks]
    exact List.mem_singleton_self _
  have hwidth : ∀ node, ([((0 : ℚ), (0 : ℚ)), (0, 0)].get node).1 = 0 := by decide
  have hlt := hright _ hmem
  rw [layered_flat _ _ _ _ hwidth rfl, layered_flat _ _ _ _ hwidth rfl] at hlt
  exact lt_irrefl _ hlt

end zed.dbt_ui.graph_layout
