import Zed.Editor.BlockMap.Placement

namespace zed.editor.block_map

open zed.slice (binary_search_by index probes)

/-- A snapshot of a multi-buffer: where its anchors are, in the order that it compares them in. -/
structure MultiBufferSnapshot (A : Type) [LinearOrder A] where
  to_offset : A → Nat
  monotone : Monotone to_offset

structure CustomBlock (A : Type) [LinearOrder A] where
  id : Nat
  placement : BlockPlacement A
  priority : Nat

/-- The custom blocks of a block map, in the order of their placements. -/
structure BlockMap (A : Type) [LinearOrder A] where
  custom_blocks : List (CustomBlock A)
  next_block_id : Nat
  sorted : custom_blocks.Pairwise fun block later => block.placement.cmp later.placement ≠ .gt
  ids : (custom_blocks.map CustomBlock.id).Nodup ∧ ∀ block ∈ custom_blocks, block.id < next_block_id

namespace BlockMap

variable {A : Type} [LinearOrder A]

def new : BlockMap A := ⟨[], 0, List.Pairwise.nil, List.nodup_nil, fun _ h => absurd h List.not_mem_nil⟩

theorem ordered_by_placement {blocks : List (CustomBlock A)}
    (h : blocks.Pairwise fun block later => block.placement.cmp later.placement ≠ .gt) (placement : BlockPlacement A) :
    zed.slice.Ordered (fun probe : CustomBlock A => probe.placement.cmp placement) blocks := by
  refine h.imp fun {block later} hle => ⟨fun hgt => ?_, fun hlt => ?_⟩
  · by_contra hne
    exact BlockPlacement.cmp_trans hle hne hgt
  · by_contra hne
    have hback : placement.cmp block.placement ≠ .gt := by
      rw [← BlockPlacement.cmp_swap]
      cases hcmp : block.placement.cmp placement with
      | lt => exact absurd hcmp hne
      | _ => decide
    have hlater := BlockPlacement.cmp_trans hback hle
    rw [← BlockPlacement.cmp_swap] at hlater
    dsimp only at hlt
    rw [hlt] at hlater
    exact hlater rfl

/-- `Vec::insert` at an index of the vector or at its end. -/
def insert_at {α : Type} (items : List α) (ix : Nat) (item : α) : List α := items.take ix ++ item :: items.drop ix

theorem insert_at_perm {α : Type} (items : List α) (ix : Nat) (item : α) : (insert_at items ix item).Perm (item :: items) := by
  have hperm := @List.perm_middle _ item (items.take ix) (items.drop ix)
  rwa [List.take_append_drop] at hperm

theorem insert_sorted {blocks : List (CustomBlock A)}
    (h : blocks.Pairwise fun block later => block.placement.cmp later.placement ≠ .gt) (new_block : CustomBlock A) :
    (insert_at blocks (index (binary_search_by (fun probe => probe.placement.cmp new_block.placement) blocks))
      new_block).Pairwise fun block later => block.placement.cmp later.placement ≠ .gt := by
  obtain ⟨hle, hbefore, hafter⟩ := zed.slice.search_ordered (ordered_by_placement h new_block.placement)
  generalize index (binary_search_by (fun probe => probe.placement.cmp new_block.placement) blocks) = ix at *
  have hsplit := h
  rw [← List.take_append_drop ix blocks, List.pairwise_append] at hsplit
  obtain ⟨htake, hdrop, hcross⟩ := hsplit
  refine List.pairwise_append.mpr ⟨htake, List.pairwise_cons.mpr ⟨fun block hblock => ?_, hdrop⟩,
    fun block hblock later hlater => ?_⟩
  · obtain ⟨i, hi, rfl⟩ := List.mem_iff_getElem.mp hblock
    rw [List.length_drop] at hi
    rw [List.getElem_drop, ← BlockPlacement.cmp_swap]
    have hne := hafter (ix + i) (Nat.le_add_right _ _) (by omega)
    rw [List.get_eq_getElem] at hne
    dsimp only at hne
    intro hgt
    exact hne (by simpa [Ordering.swap_eq_gt] using hgt)
  · rcases List.mem_cons.mp hlater with rfl | hlater
    · obtain ⟨i, hi, rfl⟩ := List.mem_iff_getElem.mp hblock
      rw [List.length_take] at hi
      rw [List.getElem_take]
      exact hbefore i (by omega) (by omega)
    · exact hcross block hblock later hlater

def insert_block_raw (self : BlockMap A) (placement : BlockPlacement A) (priority : Nat) : Nat × BlockMap A :=
  let id := self.next_block_id
  let block_ix := index (binary_search_by (fun probe : CustomBlock A => probe.placement.cmp placement) self.custom_blocks)
  (id,
    { custom_blocks := insert_at self.custom_blocks block_ix ⟨id, placement, priority⟩
      next_block_id := id + 1
      sorted := insert_sorted self.sorted ⟨id, placement, priority⟩
      ids := by
        have hperm := insert_at_perm self.custom_blocks block_ix ⟨id, placement, priority⟩
        constructor
        · rw [(hperm.map CustomBlock.id).nodup_iff, List.map_cons, List.nodup_cons]
          refine ⟨fun hmem => ?_, self.ids.1⟩
          obtain ⟨block, hblock, hid⟩ := List.mem_map.mp hmem
          exact absurd hid (self.ids.2 block hblock).ne
        · intro block hblock
          rcases List.mem_cons.mp (hperm.mem_iff.mp hblock) with rfl | hold
          · exact Nat.lt_succ_self _
          · exact Nat.lt_succ_of_lt (self.ids.2 block hold) })

def remove (self : BlockMap A) (block_ids : List Nat) : BlockMap A where
  custom_blocks := self.custom_blocks.filter fun block => !block_ids.contains block.id
  next_block_id := self.next_block_id
  sorted := self.sorted.sublist List.filter_sublist
  ids := ⟨self.ids.1.sublist (List.filter_sublist.map _), fun block h => self.ids.2 block (List.mem_of_mem_filter h)⟩

/-- A change of the custom blocks. -/
inductive Change (A : Type) [LinearOrder A]
  | insert (placement : BlockPlacement A) (priority : Nat)
  | remove (block_ids : List Nat)

def change (self : BlockMap A) : Change A → BlockMap A
  | .insert placement priority => (self.insert_block_raw placement priority).2
  | .remove block_ids => self.remove block_ids

/-- The blocks that were inserted and not removed since, in the order that they came in, and the next id. -/
def Change.keep (kept : List (CustomBlock A) × Nat) : Change A → List (CustomBlock A) × Nat
  | .insert placement priority => (kept.1 ++ [⟨kept.2, placement, priority⟩], kept.2 + 1)
  | .remove block_ids => (kept.1.filter fun block => !block_ids.contains block.id, kept.2)

theorem change_keeps {self : BlockMap A} {kept : List (CustomBlock A) × Nat} (hblocks : self.custom_blocks.Perm kept.1)
    (hid : self.next_block_id = kept.2) (change : Change A) :
    (self.change change).custom_blocks.Perm (change.keep kept).1 ∧
      (self.change change).next_block_id = (change.keep kept).2 := by
  cases change with
  | insert placement priority =>
    refine ⟨(insert_at_perm _ _ _).trans ?_, congrArg Nat.succ hid⟩
    rw [Change.keep, ← hid]
    exact (hblocks.cons _).trans (List.perm_append_singleton _ _).symm
  | remove block_ids => exact ⟨hblocks.filter _, hid⟩

/-- However blocks are inserted and removed, those that were inserted and not removed since are there, once each, in
    the order of their placements, and no id is given out twice. -/
theorem changes_keep (changes : List (Change A)) :
    let self : BlockMap A := changes.foldl change new
    let kept : List (CustomBlock A) × Nat := changes.foldl Change.keep ([], 0)
    self.custom_blocks.Perm kept.1 ∧ self.next_block_id = kept.2 ∧ (self.custom_blocks.map CustomBlock.id).Nodup ∧
      self.custom_blocks.Pairwise fun block later => block.placement.cmp later.placement ≠ .gt := by
  suffices hkeeps : ∀ (self : BlockMap A) (kept : List (CustomBlock A) × Nat), self.custom_blocks.Perm kept.1 →
      self.next_block_id = kept.2 → (changes.foldl change self).custom_blocks.Perm (changes.foldl Change.keep kept).1 ∧
        (changes.foldl change self).next_block_id = (changes.foldl Change.keep kept).2 by
    obtain ⟨hblocks, hid⟩ := hkeeps new ([], 0) (List.Perm.refl _) rfl
    exact ⟨hblocks, hid, (changes.foldl change new).ids.1, (changes.foldl change new).sorted⟩
  induction changes with
  | nil => exact fun _ _ hblocks hid => ⟨hblocks, hid⟩
  | cons first changes ih =>
    intro self kept hblocks hid
    obtain ⟨hblocks', hid'⟩ := change_keeps hblocks hid first
    exact ih _ _ hblocks' hid'

variable (buffer : MultiBufferSnapshot A)

/-- A range of offsets in a buffer. -/
structure Range where
  start : Nat
  stop : Nat
  ordered : start ≤ stop

def end_cmp (start : Nat) (block : CustomBlock A) : Ordering :=
  (compare (buffer.to_offset block.placement.stop) start).then .gt

/-- Whether a block starts before the end of a range, or at it. -/
def start_cmp (stop : Nat) (inclusive : Bool) (block : CustomBlock A) : Ordering :=
  (compare (buffer.to_offset block.placement.start) stop).then (if inclusive then .lt else .gt)

def blocks_intersecting_buffer_range (self : BlockMap A) (range : Range) (inclusive : Bool) : List (CustomBlock A) :=
  if range.start = range.stop && !inclusive then []
  else
    let start_block_ix := index (binary_search_by (end_cmp buffer range.start) self.custom_blocks)
    let rest := self.custom_blocks.drop start_block_ix
    let end_block_ix := index (binary_search_by (start_cmp buffer range.stop inclusive) rest)
    rest.take end_block_ix

def remove_intersecting_replace_blocks (self : BlockMap A) (ranges : List Range) (inclusive : Bool) : BlockMap A :=
  self.remove (ranges.flatMap fun range =>
    ((self.blocks_intersecting_buffer_range buffer range inclusive).filter fun block =>
      block.placement.is_replace).map CustomBlock.id)

/-- A block meets a range: touching it counts for an inclusive one, and nothing meets an empty one that is not. -/
def Meets (range : Range) (inclusive : Bool) (block : CustomBlock A) : Prop :=
  if inclusive then
    buffer.to_offset block.placement.start ≤ range.stop ∧ range.start ≤ buffer.to_offset block.placement.stop
  else
    range.start < range.stop ∧ buffer.to_offset block.placement.start < range.stop ∧
      range.start < buffer.to_offset block.placement.stop

def Searchable (self : BlockMap A) (range : Range) (inclusive : Bool) : Prop :=
  ∀ probe ∈ probes (end_cmp buffer range.start) self.custom_blocks 0 self.custom_blocks.length,
    ∀ ended, self.custom_blocks[probe]? = some ended → buffer.to_offset ended.placement.stop < range.start →
      ∀ ix < probe, ∀ block, self.custom_blocks[ix]? = some block → ¬ Meets buffer range inclusive block

variable {buffer}

theorem end_cmp_lt {start : Nat} {block : CustomBlock A} :
    end_cmp buffer start block = .lt ↔ buffer.to_offset block.placement.stop < start := by
  rw [end_cmp]
  rcases lt_trichotomy (buffer.to_offset block.placement.stop) start with hlt | heq | hgt
  · simp [compare_lt_iff_lt.mpr hlt, hlt]
  · simp [heq]
  · simp [compare_gt_iff_gt.mpr hgt, hgt.not_gt]

theorem end_cmp_ne_eq (start : Nat) (block : CustomBlock A) : end_cmp buffer start block ≠ .eq := by
  rw [end_cmp]
  cases compare (buffer.to_offset block.placement.stop) start <;> decide

theorem start_cmp_lt {stop : Nat} {inclusive : Bool} {block : CustomBlock A} :
    start_cmp buffer stop inclusive block = .lt ↔
      buffer.to_offset block.placement.start < stop ∨
        (inclusive = true ∧ buffer.to_offset block.placement.start = stop) := by
  rw [start_cmp]
  rcases lt_trichotomy (buffer.to_offset block.placement.start) stop with hlt | heq | hgt
  · simp [compare_lt_iff_lt.mpr hlt, hlt]
  · cases inclusive <;> simp [heq]
  · simp [compare_gt_iff_gt.mpr hgt, hgt.not_gt, hgt.ne']

theorem start_cmp_ne_eq (stop : Nat) (inclusive : Bool) (block : CustomBlock A) :
    start_cmp buffer stop inclusive block ≠ .eq := by
  rw [start_cmp]
  cases compare (buffer.to_offset block.placement.start) stop <;> cases inclusive <;> decide

theorem Meets.starts_before {range : Range} {inclusive : Bool} {block : CustomBlock A}
    (h : Meets buffer range inclusive block) : start_cmp buffer range.stop inclusive block = .lt := by
  rw [start_cmp_lt]
  cases inclusive with
  | true =>
    rw [Meets, if_pos rfl] at h
    rcases Nat.eq_or_lt_of_le h.1 with heq | hlt
    · exact Or.inr ⟨rfl, heq⟩
    · exact Or.inl hlt
  | false =>
    rw [Meets, if_neg (by decide)] at h
    exact Or.inl h.2.1

theorem Meets.ends_after {range : Range} {inclusive : Bool} {block : CustomBlock A}
    (h : Meets buffer range inclusive block) : range.start ≤ buffer.to_offset block.placement.stop := by
  cases inclusive with
  | true =>
    rw [Meets, if_pos rfl] at h
    exact h.2
  | false =>
    rw [Meets, if_neg (by decide)] at h
    exact h.2.2.le

theorem Meets.searched {range : Range} {inclusive : Bool} {block : CustomBlock A}
    (h : Meets buffer range inclusive block) : ¬ (range.start = range.stop && !inclusive) = true := by
  cases inclusive with
  | true => simp
  | false =>
    rw [Meets, if_neg (by decide)] at h
    simpa using h.1.ne

theorem ordered_by_start {blocks : List (CustomBlock A)}
    (h : blocks.Pairwise fun block later => block.placement.cmp later.placement ≠ .gt) (stop : Nat) (inclusive : Bool) :
    zed.slice.Ordered (start_cmp buffer stop inclusive) blocks := by
  refine h.imp fun {block later} hle => ?_
  have hstart := buffer.monotone (BlockPlacement.start_le_of_cmp hle)
  have hless : start_cmp buffer stop inclusive later = .lt → start_cmp buffer stop inclusive block = .lt := by
    rw [start_cmp_lt, start_cmp_lt]
    rintro (hlt | ⟨hinclusive, heq⟩)
    · exact Or.inl (hstart.trans_lt hlt)
    · rcases Nat.eq_or_lt_of_le hstart with hsame | hlt
      · exact Or.inr ⟨hinclusive, hsame.trans heq⟩
      · exact Or.inl (hlt.trans_eq heq)
  refine ⟨fun hgt => ?_, hless⟩
  cases hlater : start_cmp buffer stop inclusive later with
  | gt => rfl
  | eq => exact absurd hlater (start_cmp_ne_eq stop inclusive later)
  | lt =>
    rw [hless hlater] at hgt
    cases hgt

theorem mem_blocks_intersecting {self : BlockMap A} {range : Range} {inclusive : Bool} {block : CustomBlock A}
    (h : Meets buffer range inclusive block) {ix : Nat} (hix : self.custom_blocks[ix]? = some block)
    (hle : index (binary_search_by (end_cmp buffer range.start) self.custom_blocks) ≤ ix) :
    block ∈ self.blocks_intersecting_buffer_range buffer range inclusive := by
  rw [blocks_intersecting_buffer_range, if_neg h.searched]
  dsimp only
  generalize index (binary_search_by (end_cmp buffer range.start) self.custom_blocks) = start_block_ix at *
  have hsorted : (self.custom_blocks.drop start_block_ix).Pairwise
      fun block later => block.placement.cmp later.placement ≠ .gt := self.sorted.sublist (List.drop_sublist _ _)
  have hrest : (self.custom_blocks.drop start_block_ix)[ix - start_block_ix]? = some block := by
    rw [List.getElem?_drop, Nat.add_sub_cancel' hle, hix]
  obtain ⟨hlength, hget⟩ := List.getElem?_eq_some_iff.mp hrest
  obtain ⟨-, -, hafter⟩ := zed.slice.search_ordered (ordered_by_start hsorted range.stop inclusive)
  generalize index (binary_search_by (start_cmp buffer range.stop inclusive) (self.custom_blocks.drop start_block_ix)) =
    end_block_ix at *
  have hlt : ix - start_block_ix < end_block_ix := by
    by_contra hge
    refine hafter _ (Nat.not_lt.mp hge) hlength ?_
    rw [List.get_eq_getElem, hget]
    exact h.starts_before
  rw [List.mem_iff_getElem?]
  exact ⟨ix - start_block_ix, by rw [List.getElem?_take_of_lt hlt, hrest]⟩

theorem not_mem_of_lt {self : BlockMap A} {range : Range} {inclusive : Bool} {block : CustomBlock A} {ix : Nat}
    (hix : self.custom_blocks[ix]? = some block)
    (hlt : ix < index (binary_search_by (end_cmp buffer range.start) self.custom_blocks)) :
    block ∉ self.blocks_intersecting_buffer_range buffer range inclusive := by
  intro hmem
  rw [blocks_intersecting_buffer_range] at hmem
  split at hmem
  · exact List.not_mem_nil hmem
  · dsimp only at hmem
    have hnodup := List.Nodup.of_map _ self.ids.1
    obtain ⟨later, hlater⟩ := List.mem_iff_getElem?.mp (List.mem_of_mem_take hmem)
    rw [List.getElem?_drop] at hlater
    obtain ⟨hlength, hget⟩ := List.getElem?_eq_some_iff.mp hix
    obtain ⟨hlength', hget'⟩ := List.getElem?_eq_some_iff.mp hlater
    have hsame := hnodup.getElem_inj_iff.mp (hget.trans hget'.symm)
    omega

theorem searchable_iff (self : BlockMap A) (range : Range) (inclusive : Bool) :
    Searchable buffer self range inclusive ↔
      ∀ ix < index (binary_search_by (end_cmp buffer range.start) self.custom_blocks),
        ∀ block, self.custom_blocks[ix]? = some block → ¬ Meets buffer range inclusive block := by
  obtain ⟨-, hprobed, hlast⟩ := zed.slice.search_probed fun block (_ : block ∈ self.custom_blocks) =>
    (end_cmp_ne_eq range.start block : end_cmp buffer range.start block ≠ .eq)
  constructor
  · intro h ix hlt block hix hmeets
    obtain ⟨probe, hprobe, hless, hindex⟩ := hlast (Nat.zero_lt_of_lt hlt)
    obtain ⟨ended, hended, hcmp⟩ := Option.map_eq_some_iff.mp hless
    have hbefore := end_cmp_lt.mp hcmp
    rcases Nat.eq_or_lt_of_le (Nat.le_of_lt_succ (hindex ▸ hlt)) with rfl | hlt'
    · rw [hended, Option.some.injEq] at hix
      exact absurd hmeets.ends_after (Nat.not_le.mpr (hix ▸ hbefore))
    · exact h probe hprobe ended hended hbefore ix hlt' block hix hmeets
  · intro h probe hprobe ended hended hbefore ix hlt block hix
    have hless : self.custom_blocks[probe]?.map (end_cmp buffer range.start) = some .lt := by
      rw [hended, Option.map_some, end_cmp_lt.mpr hbefore]
    exact h ix (hlt.trans (hprobed probe hprobe hless)) block hix

end BlockMap

end zed.editor.block_map
