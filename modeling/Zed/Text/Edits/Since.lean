import Zed.Text.Edits
import Zed.Text.Network.State

namespace zed.sum_tree.FilterCursor

variable {α σ : Type} {filter : α → Bool} {step : σ → Cursor α → σ} {P : List α → σ → Prop}

/-- What every item keeps, whether the filter stops at it or not, holds at the end. -/
theorem foldl_stops {items : List α}
    (hskip : ∀ passed x rest state, items = passed ++ x :: rest → filter x = false → P passed state →
      P (passed ++ [x]) state)
    (hstep : ∀ passed x rest state, items = passed ++ x :: rest → P passed state →
      P (passed ++ [x]) (step state { passed, rest := x :: rest }))
    {state : σ} (h : P [] state) : P items ((new filter items).stops.foldl step state) := by
  suffices hsuffices : ∀ rest passed state, items = passed ++ rest → P passed state →
      P items ((stops_from filter passed rest).foldl step state) from hsuffices items [] state rfl h
  intro rest
  induction rest with
  | nil =>
    intro passed state heq h
    rw [List.append_nil] at heq
    exact heq ▸ h
  | cons x rest ih =>
    intro passed state heq h
    have hnext : items = (passed ++ [x]) ++ rest := by rw [heq, List.append_assoc, List.singleton_append]
    rw [stops_from]
    split
    · exact ih _ _ hnext (hstep passed x rest state heq h)
    · rename_i hfilter
      exact ih _ _ hnext (hskip passed x rest state heq (Bool.not_eq_true _ ▸ hfilter) h)

end zed.sum_tree.FilterCursor

namespace zed.text

open zed.clock zed.rope

/-- The dimension of the bytes that were visible at a version. -/
def Gauge.was (since : Global) (undos : UndoMap) : Gauge :=
  { counted := fun fragment => fragment.was_visible since undos
    obs := fun atom => atom.was_visible since undos
    agree := fun _ _ hatom => Fragment.was_visible_of_mem hatom since undos }

/-- The bytes of fragments that a dimension counts. -/
def Gauge.bytes (gauge : Gauge) (content : AtomId → UInt8) (fragments : List Fragment) : Rope :=
  zed.text.bytes content ((atoms fragments).filter gauge.obs)

namespace Gauge

variable (gauge : Gauge) (content : AtomId → UInt8)

@[simp] theorem bytes_nil : gauge.bytes content [] = [] := rfl

@[simp] theorem bytes_append (left right : List Fragment) :
    gauge.bytes content (left ++ right) = gauge.bytes content left ++ gauge.bytes content right := by
  simp [bytes, zed.text.bytes]

theorem bytes_cons (fragment : Fragment) (fragments : List Fragment) :
    gauge.bytes content (fragment :: fragments) = gauge.bytes content [fragment] ++ gauge.bytes content fragments :=
  gauge.bytes_append content [fragment] fragments

theorem bytes_singleton (fragment : Fragment) : gauge.bytes content [fragment] =
    if gauge.counted fragment then zed.text.bytes content fragment.atoms else [] := by
  have hatoms : (atoms [fragment]).filter gauge.obs = atoms ([fragment].filter gauge.counted) :=
    (gauge.atoms_filter [fragment]).symm
  rw [bytes, hatoms, List.filter_cons, List.filter_nil]
  split
  · simp
  · rfl

theorem bytes_length (fragments : List Fragment) :
    (gauge.bytes content fragments).length = (fragments.map gauge.len).sum := by
  rw [bytes, zed.text.bytes, List.length_map, gauge.atoms_length]

end Gauge

/-- What a walk over the fragments since a version relies on: the texts are those of
    the fragments, and a fragment that the version has not missed has not changed. -/
structure BufferSnapshot.Reviews (snapshot : BufferSnapshot) (content : AtomId → UInt8) (since : Global) : Prop where
  visible_text : snapshot.visible_text = Gauge.visible.bytes content snapshot.fragments
  deleted_text : snapshot.deleted_text = Gauge.deleted.bytes content snapshot.fragments
  len_pos : ∀ fragment ∈ snapshot.fragments, 0 < fragment.len
  bounds : ∀ fragment ∈ snapshot.fragments, Locator.min < fragment.id ∧ fragment.id < Locator.max
  starts : ∀ fragment ∈ snapshot.fragments.head?, fragment.insertion_offset = 0
  unchanged : ∀ fragment ∈ snapshot.fragments, fragment.summary.missed_by since = false →
    fragment.was_visible since snapshot.undo_map = fragment.visible

theorem slice_of_append {left : Rope} (middle right : Rope) {offset : Nat} (hle : offset ≤ left.length) :
    ((left ++ (middle ++ right)).take (left.length + middle.length)).drop offset = left.drop offset ++ middle := by
  rw [← List.append_assoc, ← List.length_append, List.take_left, List.drop_append_of_le_length hle]

namespace BufferSnapshot

variable {snapshot : BufferSnapshot} {content : AtomId → UInt8} {since : Global} {passed rest : List Fragment}
  {x : Fragment}

theorem Reviews.visible_split (h : snapshot.Reviews content since) (hsplit : snapshot.fragments = passed ++ x :: rest) :
    snapshot.visible_text = Gauge.visible.bytes content passed ++
      (Gauge.visible.bytes content [x] ++ Gauge.visible.bytes content rest) := by
  rw [h.visible_text, hsplit, Gauge.bytes_append, Gauge.bytes_cons]

theorem Reviews.deleted_split (h : snapshot.Reviews content since) (hsplit : snapshot.fragments = passed ++ x :: rest) :
    snapshot.deleted_text = Gauge.deleted.bytes content passed ++
      (Gauge.deleted.bytes content [x] ++ Gauge.deleted.bytes content rest) := by
  rw [h.deleted_text, hsplit, Gauge.bytes_append, Gauge.bytes_cons]

theorem start_visible (content : AtomId → UInt8) (passed rest : List Fragment) :
    sum_tree.Cursor.start Fragment.visible_len { passed, rest } = (Gauge.visible.bytes content passed).length := by
  rw [Gauge.bytes_length]
  rfl

theorem start_deleted (content : AtomId → UInt8) (passed rest : List Fragment) :
    sum_tree.Cursor.start Fragment.deleted_len { passed, rest } = (Gauge.deleted.bytes content passed).length := by
  rw [Gauge.bytes_length, Gauge.deleted_len]
  rfl

theorem stop_visible (content : AtomId → UInt8) (passed rest : List Fragment) (x : Fragment) :
    sum_tree.Cursor.stop Fragment.visible_len { passed, rest := x :: rest } =
      (Gauge.visible.bytes content passed).length + (Gauge.visible.bytes content [x]).length := by
  rw [sum_tree.Cursor.stop, start_visible content, Gauge.bytes_length _ _ [x]]
  simp [sum_tree.Cursor.item, Gauge.visible_len]

theorem stop_deleted (content : AtomId → UInt8) (passed rest : List Fragment) (x : Fragment) :
    sum_tree.Cursor.stop Fragment.deleted_len { passed, rest := x :: rest } =
      (Gauge.deleted.bytes content passed).length + (Gauge.deleted.bytes content [x]).length := by
  rw [sum_tree.Cursor.stop, start_deleted content, Gauge.bytes_length _ _ [x]]
  simp [sum_tree.Cursor.item, Gauge.deleted_len]

/-- The rope has the old text of what was passed, less the visible text that is
    still to be copied. -/
structure RopeWalk.Copies (snapshot : BufferSnapshot) (content : AtomId → UInt8) (since : Global)
    (passed : List Fragment) (w : RopeWalk) : Prop where
  visible_text : w.visible_cursor.text = snapshot.visible_text
  deleted_text : w.deleted_cursor.text = snapshot.deleted_text
  offset_le : w.visible_cursor.offset ≤ (Gauge.visible.bytes content passed).length
  rope : w.rope ++ (Gauge.visible.bytes content passed).drop w.visible_cursor.offset =
    (Gauge.was since snapshot.undo_map).bytes content passed

variable {w : RopeWalk}

/-- Nothing is left to be copied once the walk has caught up. -/
theorem RopeWalk.Copies.catch_up (h : w.Copies snapshot content since passed) {text : Rope}
    (htext : snapshot.visible_text = Gauge.visible.bytes content passed ++ text) :
    let caught := w.catch_up (Gauge.visible.bytes content passed).length
    caught.visible_cursor = { text := snapshot.visible_text, offset := (Gauge.visible.bytes content passed).length } ∧
      caught.deleted_cursor = w.deleted_cursor ∧ caught.rope = (Gauge.was since snapshot.undo_map).bytes content passed := by
  have hslice := slice_of_append [] text h.offset_le
  intro caught
  by_cases hlt : (Gauge.visible.bytes content passed).length > w.visible_cursor.offset
  · have hcaught : caught = { w with
        rope := w.rope ++ (w.visible_cursor.slice (Gauge.visible.bytes content passed).length).1
        visible_cursor := (w.visible_cursor.slice (Gauge.visible.bytes content passed).length).2 } := if_pos hlt
    rw [hcaught]
    refine ⟨?_, rfl, ?_⟩
    · rw [← h.visible_text]
      rfl
    · rw [← h.rope]
      change _ ++ (w.visible_cursor.text.take _).drop _ = _
      rw [h.visible_text, htext]
      rw [List.nil_append, List.append_nil] at hslice
      exact congrArg _ hslice
  · have hcaught : caught = w := if_neg hlt
    have hoffset : w.visible_cursor.offset = (Gauge.visible.bytes content passed).length :=
      le_antisymm h.offset_le (not_lt.mp hlt)
    rw [hcaught]
    refine ⟨?_, rfl, ?_⟩
    · rw [← hoffset, ← h.visible_text]
    · rw [← h.rope, hoffset, List.drop_length, List.append_nil]

theorem RopeWalk.Copies.skip (h : snapshot.Reviews content since) (hsplit : snapshot.fragments = passed ++ x :: rest)
    (hmissed : x.summary.missed_by since = false) (hcopies : w.Copies snapshot content since passed) :
    w.Copies snapshot content since (passed ++ [x]) := by
  have hsame := h.unchanged x (hsplit ▸ List.mem_append_right _ List.mem_cons_self) hmissed
  refine ⟨hcopies.visible_text, hcopies.deleted_text, ?_, ?_⟩
  · rw [Gauge.bytes_append, List.length_append]
    exact hcopies.offset_le.trans (Nat.le_add_right _ _)
  · have hone : Gauge.visible.bytes content [x] = (Gauge.was since snapshot.undo_map).bytes content [x] := by
      rw [Gauge.bytes_singleton, Gauge.bytes_singleton]
      change (if x.visible = true then _ else _) = if x.was_visible since snapshot.undo_map = true then _ else _
      rw [hsame]
    rw [Gauge.bytes_append, Gauge.bytes_append, List.drop_append_of_le_length hcopies.offset_le, ← List.append_assoc,
      hcopies.rope, hone]

theorem RopeWalk.Copies.step (h : snapshot.Reviews content since) (hsplit : snapshot.fragments = passed ++ x :: rest)
    (hcopies : w.Copies snapshot content since passed) :
    (w.step since snapshot.undo_map { passed, rest := x :: rest }).Copies snapshot content since (passed ++ [x]) := by
  obtain ⟨hcursor, hdeleted, hrope⟩ := hcopies.catch_up (h.visible_split hsplit)
  have hvisible := h.visible_split hsplit
  have hhidden := h.deleted_split hsplit
  simp only [RopeWalk.step, sum_tree.Cursor.item, List.head?_cons, start_visible content, stop_visible content,
    start_deleted content, stop_deleted content]
  generalize w.catch_up (Gauge.visible.bytes content passed).length = caught at *
  have hdeletedText : caught.deleted_cursor.text = snapshot.deleted_text := by rw [hdeleted, hcopies.deleted_text]
  have hlength : (Gauge.visible.bytes content (passed ++ [x])).length =
      (Gauge.visible.bytes content passed).length + (Gauge.visible.bytes content [x]).length := by
    rw [Gauge.bytes_append, List.length_append]
  have hwas : (Gauge.was since snapshot.undo_map).bytes content (passed ++ [x]) = caught.rope ++
      if x.was_visible since snapshot.undo_map = true then bytes content x.atoms else [] := by
    rw [Gauge.bytes_append, hrope, Gauge.bytes_singleton]
    rfl
  split
  · rename_i hold
    rw [if_pos hold] at hwas
    split
    · -- the text is still visible
      rename_i hnew
      have hbytes : Gauge.visible.bytes content [x] = bytes content x.atoms := by
        rw [Gauge.bytes_singleton]
        exact if_pos hnew
      have hslice := slice_of_append (Gauge.visible.bytes content [x]) (Gauge.visible.bytes content rest) (le_refl (Gauge.visible.bytes content passed).length)
      rw [List.drop_length, List.nil_append, ← hvisible] at hslice
      refine ⟨congrArg zed.rope.Cursor.text hcursor, hdeletedText, hlength.ge, ?_⟩
      rw [hcursor, hwas, ← hbytes]
      change caught.rope ++ (snapshot.visible_text.take _).drop _ ++ List.drop
        ((Gauge.visible.bytes content passed).length + (Gauge.visible.bytes content [x]).length) _ = _
      rw [hslice, ← hlength, List.drop_length, List.append_nil]
    · rename_i hnew
      have hnone : Gauge.visible.bytes content [x] = [] := by
        rw [Gauge.bytes_singleton]
        exact if_neg hnew
      have hbytes : Gauge.deleted.bytes content [x] = bytes content x.atoms := by
        rw [Gauge.bytes_singleton]
        exact if_pos (by simpa [Gauge.deleted] using hnew)
      have hslice := slice_of_append (Gauge.deleted.bytes content [x]) (Gauge.deleted.bytes content rest) (le_refl (Gauge.deleted.bytes content passed).length)
      rw [List.drop_length, List.nil_append, ← hhidden] at hslice
      rw [hnone, List.length_nil, Nat.add_zero] at hlength
      refine ⟨congrArg zed.rope.Cursor.text hcursor, hdeletedText, ?_, ?_⟩
      · rw [hcursor]
        exact hlength.ge
      · rw [hcursor, hwas, ← hbytes]
        change caught.rope ++ (caught.deleted_cursor.text.take _).drop (Gauge.deleted.bytes content passed).length ++
          List.drop (Gauge.visible.bytes content passed).length _ = _
        rw [hdeletedText, hslice, ← hlength, List.drop_length, List.append_nil]
  · rename_i hold
    rw [if_neg hold, List.append_nil] at hwas
    split
    · refine ⟨congrArg zed.rope.Cursor.text hcursor, hdeletedText, hlength.ge, ?_⟩
      rw [hwas]
      simp [zed.rope.Cursor.seek_forward]
    · rename_i hnew
      have hnone : Gauge.visible.bytes content [x] = [] := by
        rw [Gauge.bytes_singleton]
        exact if_neg hnew
      rw [hnone, List.length_nil, Nat.add_zero] at hlength
      refine ⟨congrArg zed.rope.Cursor.text hcursor, hdeletedText, ?_, ?_⟩
      · rw [hcursor]
        exact hlength.ge
      · rw [hcursor, hwas]
        simp [hnone]

theorem Reviews.rope_for_version (h : snapshot.Reviews content since) : snapshot.rope_for_version since =
    (Gauge.was since snapshot.undo_map).bytes content snapshot.fragments := by
  have hcopies : ∀ {w : RopeWalk}, w.Copies snapshot content since snapshot.fragments →
      (w.catch_up (Gauge.visible.bytes content snapshot.fragments).length).rope =
        (Gauge.was since snapshot.undo_map).bytes content snapshot.fragments := fun hcopies =>
    (hcopies.catch_up (h.visible_text.trans (List.append_nil _).symm)).2.2
  rw [BufferSnapshot.rope_for_version]
  simp only [sum_tree.FilterCursor.new, start_visible content]
  refine hcopies (sum_tree.FilterCursor.foldl_stops
    (P := fun passed w => RopeWalk.Copies snapshot content since passed w)
    (fun passed x rest w hsplit hmissed hcopies => hcopies.skip h hsplit hmissed)
    (fun passed x rest w hsplit hcopies => hcopies.step h hsplit) ?_)
  exact ⟨rfl, rfl, Nat.zero_le _, rfl⟩

end BufferSnapshot

theorem Edit.is_empty_eq_false_iff {edit : Edit} :
    edit.is_empty = false ↔ edit.old.start ≠ edit.old.stop ∨ edit.new.start ≠ edit.new.stop := by
  rw [is_empty, Bool.and_eq_false_iff, decide_eq_false_iff_not, decide_eq_false_iff_not]

namespace Patch

variable {β : Type} {old new : List β} {patch : Patch} {last edit : Edit}

theorem push_touching (hnonempty : edit.is_empty = false) (htouch : edit.old.start ≤ last.old.stop) :
    (patch ++ [last]).push edit = patch ++
      [{ old := { last.old with stop := edit.old.stop }, new := { last.new with stop := edit.new.stop } }] := by
  rw [push, if_neg (by rw [hnonempty]; decide)]
  induction patch with
  | nil => rw [List.nil_append, push_maybe_empty, if_pos htouch, List.nil_append]
  | cons first rest ih =>
    cases rest with
    | nil => exact congrArg (List.cons first) ih
    | cons second rest => exact congrArg (List.cons first) ih

theorem push_parted (hnonempty : edit.is_empty = false) (hpast : ∀ last ∈ patch.getLast?, last.old.stop < edit.old.start) :
    patch.push edit = patch ++ [edit] := by
  rw [push, if_neg (by rw [hnonempty]; decide)]
  induction patch with
  | nil => rfl
  | cons first rest ih =>
    cases rest with
    | nil => rw [push_maybe_empty, if_neg (not_le_of_gt (hpast first rfl))]; rfl
    | cons second rest => exact congrArg (List.cons first) (ih hpast)

/-- The text after the last edit is as long on both sides. -/
theorem Leads.last_stop (h : (patch ++ [last] : Patch).Leads old new) :
    last.old.stop ≤ old.length ∧ new.length + last.old.stop = last.new.stop + old.length := by
  have hspans := h.spans
  suffices hsuffices : ∀ (patch : Patch) i j, Spans old new i j (patch ++ [last]) old.length new.length →
      Gap old new last.old.stop last.new.stop old.length new.length from
    ⟨(hsuffices patch 0 0 hspans).old_le, (hsuffices patch 0 0 hspans).shift⟩
  intro patch
  induction patch with
  | nil => exact fun i j hspans => hspans.2.2.2
  | cons first rest ih => exact fun i j hspans => ih _ _ hspans.2.2.2

end Patch

namespace Edits

open BufferSnapshot

def found (given : List Item) (pending_edit : Option Item) : Patch :=
  (given ++ pending_edit.toList).map Prod.fst

/-- The edits found so far lead from one text to another, and the last one that was
    given is parted from what comes next. -/
structure Found (old new : Rope) (given : List Item) (pending_edit : Option Item) : Prop where
  leads : (found given pending_edit).Leads old new
  parted : pending_edit = none → ∀ last ∈ (found given none).getLast?, last.old.stop < old.length
  nonempty : ∀ edit ∈ found given pending_edit, edit.is_empty = false

section found

variable {old new : Rope} {given : List Item} {pending_edit : Option Item} {item : Item}

@[simp] theorem found_none (given : List Item) : found given none = given.map Prod.fst := by simp [found]

@[simp] theorem found_some (given : List Item) (item : Item) :
    found given (some item) = given.map Prod.fst ++ [item.1] := by simp [found]

theorem Found.keep (h : Found old new given pending_edit) (text : Rope) :
    Found (old ++ text) (new ++ text) given pending_edit :=
  ⟨h.leads.keep text, fun hpending last hlast => (h.parted hpending last hlast).trans_le
    (by rw [List.length_append]; exact Nat.le_add_right _ _), h.nonempty⟩

/-- A pending edit is given once there is text after it that stayed. -/
theorem Found.give (h : Found old new given (some item)) (hlt : item.1.new.stop < new.length) :
    Found old new (given ++ [item]) none := by
  have hleads := h.leads
  rw [found_some] at hleads
  have hlast := hleads.last_stop
  have hfound : found (given ++ [item]) none = found given (some item) := by simp
  refine ⟨hfound ▸ h.leads, fun _ last hmem => ?_, hfound ▸ h.nonempty⟩
  rw [hfound, found_some, List.getLast?_concat] at hmem
  obtain rfl := Option.some.inj hmem
  omega

/-- The pending edit once some text was replaced as well. -/
def extension (old new xs ys : Rope) : Option Item → Edit
  | some (edit, _) => ⟨⟨edit.old.start, old.length + xs.length⟩, ⟨edit.new.start, new.length + ys.length⟩⟩
  | none => ⟨⟨old.length, old.length + xs.length⟩, ⟨new.length, new.length + ys.length⟩⟩

/-- Text that was replaced extends the pending edit, or starts one. -/
theorem Found.replace (h : Found old new given pending_edit)
    (hpending : ∀ item ∈ pending_edit, ¬ item.1.new.stop < new.length) {xs ys : Rope} (hne : xs ≠ [] ∨ ys ≠ [])
    (hitem : item.1 = extension old new xs ys pending_edit) : Found (old ++ xs) (new ++ ys) given (some item) := by
  have hreplace := h.leads.replace xs ys
  have hnonempty : Edit.is_empty ⟨⟨old.length, old.length + xs.length⟩, ⟨new.length, new.length + ys.length⟩⟩ = false := by
    obtain hne | hne := hne
    · have hpos := List.length_pos_of_ne_nil hne
      rw [Edit.is_empty_eq_false_iff]
      dsimp only
      omega
    · have hpos := List.length_pos_of_ne_nil hne
      rw [Edit.is_empty_eq_false_iff]
      dsimp only
      omega
  have hgiven : ∀ edit ∈ found given none, edit.is_empty = false := fun edit hedit => by
    rw [found_none] at hedit
    exact h.nonempty edit (by rw [found, List.map_append]; exact List.mem_append_left _ hedit)
  cases pending_edit with
  | none =>
    rw [Patch.push_parted hnonempty (h.parted rfl)] at hreplace
    rw [found_none] at hreplace
    refine ⟨by rw [found_some, hitem]; exact hreplace, fun hnone => (by cases hnone), fun edit hedit => ?_⟩
    rw [found_some, hitem] at hedit
    obtain hedit | hedit := List.mem_append.mp hedit
    · exact hgiven edit (by rwa [found_none])
    · rw [List.mem_singleton.mp hedit]
      exact hnonempty
  | some last =>
    have hleads := h.leads
    rw [found_some] at hleads
    obtain ⟨hstop, hshift⟩ := hleads.last_stop
    have hnot := hpending last rfl
    have hlast := h.nonempty last.1 (by rw [found_some]; simp)
    have hordered : last.1.old.start ≤ last.1.old.stop ∧ last.1.new.start ≤ last.1.new.stop :=
      hleads.takes.wellFormed.ordered last.1 (by simp)
    rw [found_some, Patch.push_touching hnonempty (by dsimp only; omega)] at hreplace
    refine ⟨by rw [found_some, hitem]; exact hreplace, fun hnone => (by cases hnone), fun edit hedit => ?_⟩
    rw [found_some, hitem] at hedit
    obtain hedit | hedit := List.mem_append.mp hedit
    · exact hgiven edit (by rwa [found_none])
    · rw [List.mem_singleton.mp hedit]
      rw [Edit.is_empty_eq_false_iff] at hlast hnonempty ⊢
      dsimp only [extension] at *
      omega

/-- A pending edit that is not to be given ends where the texts do. -/
theorem Found.touching (h : Found old new given (some item)) (hnot : ¬ item.1.new.stop < new.length) :
    item.1.old.stop = old.length ∧ item.1.new.stop = new.length := by
  have hleads := h.leads
  rw [found_some] at hleads
  obtain ⟨hstop, hshift⟩ := hleads.last_stop
  omega

end found

/-- An iterator that stands behind some fragments. -/
structure Finds (snapshot : BufferSnapshot) (content : AtomId → UInt8) (since : Global) (passed : List Fragment)
    (s : Edits) (given : List Item) (pending_edit : Option Item) : Prop where
  visible_text : s.visible_cursor.text = snapshot.visible_text
  deleted_text : s.deleted_cursor.text = snapshot.deleted_text
  version : s.undos = snapshot.undo_map ∧ s.since = since
  range : s.range_start.1 = Locator.min ∧ s.range_end.1 = Locator.max
  offset : s.visible_cursor.offset = s.new_end
  new_end_le : s.new_end ≤ (Gauge.visible.bytes content passed).length
  old_end : s.old_end + (Gauge.visible.bytes content passed).length =
    ((Gauge.was since snapshot.undo_map).bytes content passed).length + s.new_end
  deleted_le : s.deleted_cursor.offset ≤ (Gauge.deleted.bytes content passed).length
  found : Found ((Gauge.was since snapshot.undo_map).bytes content passed) (Gauge.visible.bytes content passed)
    given pending_edit
  changed : Edits.found given pending_edit = [] ↔
    ∀ fragment ∈ passed, fragment.was_visible since snapshot.undo_map = fragment.visible

variable {snapshot : BufferSnapshot} {content : AtomId → UInt8} {since : Global} {passed rest : List Fragment}
  {x : Fragment} {s : Edits} {given : List Item} {pending_edit : Option Item}

theorem Finds.skip (h : s.Finds snapshot content since passed given pending_edit)
    (hsame : x.was_visible since snapshot.undo_map = x.visible) :
    s.Finds snapshot content since (passed ++ [x]) given pending_edit := by
  have hone : (Gauge.was since snapshot.undo_map).bytes content [x] = Gauge.visible.bytes content [x] := by
    rw [Gauge.bytes_singleton, Gauge.bytes_singleton]
    change (if x.was_visible since snapshot.undo_map = true then _ else _) = if x.visible = true then _ else _
    rw [hsame]
  have hold := h.old_end
  have hnew := h.new_end_le
  have hdeleted := h.deleted_le
  refine ⟨h.visible_text, h.deleted_text, h.version, h.range, h.offset, ?_, ?_, ?_, ?_, ?_⟩
  · rw [Gauge.bytes_append, List.length_append]
    omega
  · rw [Gauge.bytes_append, Gauge.bytes_append, List.length_append, List.length_append, hone]
    omega
  · rw [Gauge.bytes_append, List.length_append]
    omega
  · rw [Gauge.bytes_append, Gauge.bytes_append, hone]
    exact h.found.keep _
  · rw [h.changed]
    constructor
    · intro hall fragment hfragment
      obtain hfragment | hfragment := List.mem_append.mp hfragment
      · exact hall fragment hfragment
      · rw [List.mem_singleton.mp hfragment, hsame]
    · exact fun hall fragment hfragment => hall fragment (List.mem_append_left _ hfragment)

theorem Finds.catch_up (h : s.Finds snapshot content since passed given pending_edit) {text : Rope}
    (htext : snapshot.visible_text = Gauge.visible.bytes content passed ++ text) :
    let caught := s.catch_up (Gauge.visible.bytes content passed).length
    caught.Finds snapshot content since passed given pending_edit ∧
      caught.new_end = (Gauge.visible.bytes content passed).length := by
  have hslice := slice_of_append [] text h.new_end_le
  have hold := h.old_end
  have hnew := h.new_end_le
  have hoffset := h.offset
  intro caught
  by_cases hlt : (Gauge.visible.bytes content passed).length > s.visible_cursor.offset
  · have hsummary : (s.visible_cursor.summary (Gauge.visible.bytes content passed).length).1 =
        (Gauge.visible.bytes content passed).length - s.new_end := by
      change ((s.visible_cursor.text.take _).drop _).length = _
      rw [h.visible_text, htext, hoffset]
      rw [List.nil_append, List.append_nil, List.length_nil, Nat.add_zero] at hslice
      rw [hslice, List.length_drop]
    have hcaught : caught = { s with
        visible_cursor := (s.visible_cursor.summary (Gauge.visible.bytes content passed).length).2
        old_end := s.old_end + (s.visible_cursor.summary (Gauge.visible.bytes content passed).length).1
        new_end := s.new_end + (s.visible_cursor.summary (Gauge.visible.bytes content passed).length).1 } := if_pos hlt
    rw [hcaught, hsummary]
    refine ⟨⟨h.visible_text, h.deleted_text, h.version, h.range, ?_, ?_, ?_, h.deleted_le, h.found, h.changed⟩, ?_⟩
    · change (Gauge.visible.bytes content passed).length = s.new_end + _
      omega
    · dsimp only
      omega
    · dsimp only
      omega
    · dsimp only
      omega
  · have hcaught : caught = s := if_neg hlt
    rw [hcaught]
    exact ⟨h, by omega⟩

theorem Finds.change (hreviews : snapshot.Reviews content since) (hsplit : snapshot.fragments = passed ++ x :: rest)
    (h : s.Finds snapshot content since passed given pending_edit)
    (hcaught : s.new_end = (Gauge.visible.bytes content passed).length)
    (hpending : ∀ item ∈ pending_edit, ¬ item.1.new.stop < s.new_end) :
    let changed := Edits.change { passed, rest := x :: rest } x s pending_edit
    changed.1.Finds snapshot content since (passed ++ [x]) given changed.2 := by
  have hx : x ∈ snapshot.fragments := hsplit ▸ List.mem_append_right _ List.mem_cons_self
  have hpos : bytes content x.atoms ≠ [] := fun hnil => by
    have hlength := congrArg List.length hnil
    rw [bytes, List.length_map, Fragment.atoms_length] at hlength
    exact absurd hlength (hreviews.len_pos x hx).ne'
  have hend : ∀ start stop, s.end_in_range x start stop = stop := fun start stop =>
    if_neg (h.range.2 ▸ ne_of_lt (hreviews.bounds x hx).2)
  have holdEnd : s.old_end = ((Gauge.was since snapshot.undo_map).bytes content passed).length := by
    have := h.old_end
    omega
  have hdeletedLe := h.deleted_le
  have hwas := (Gauge.was since snapshot.undo_map).bytes_singleton content x
  have hvisible := Gauge.visible.bytes_singleton content x
  have hdeleted := Gauge.deleted.bytes_singleton content x
  rw [hcaught] at hpending
  -- the fragment differs, so there is an edit
  have hchanged : x.was_visible since snapshot.undo_map ≠ x.visible → ∀ item : Item,
      (Edits.found given (some item) = [] ↔ ∀ fragment ∈ passed ++ [x],
        fragment.was_visible since snapshot.undo_map = fragment.visible) := fun hne item => by
    refine iff_of_false (by simp) fun hall => hne (hall x (by simp))
  intro changed
  by_cases hold : x.was_visible since snapshot.undo_map = true <;> by_cases hnew : x.visible = true
  · have hresult : changed = (s, pending_edit) := by
      simp only [changed, Edits.change, h.version, hold, hnew]
      rfl
    rw [hresult]
    exact h.skip (hold.trans hnew.symm)
  · -- the fragment was deleted since
    have hwas' : (Gauge.was since snapshot.undo_map).bytes content [x] = bytes content x.atoms := hwas.trans (if_pos hold)
    have hvisible' : Gauge.visible.bytes content [x] = [] := hvisible.trans (if_neg hnew)
    have hdeleted' : Gauge.deleted.bytes content [x] = bytes content x.atoms :=
      hdeleted.trans (if_pos (by simpa [Gauge.deleted] using hnew))
    have hslice := slice_of_append (Gauge.deleted.bytes content [x]) (Gauge.deleted.bytes content rest) (le_refl (Gauge.deleted.bytes content passed).length)
    rw [List.drop_length, List.nil_append, ← hreviews.deleted_split hsplit] at hslice
    -- the deleted cursor is at the start of the fragment
    let deleted_cursor := if (Gauge.deleted.bytes content passed).length > s.deleted_cursor.offset then
      s.deleted_cursor.seek_forward (Gauge.deleted.bytes content passed).length else s.deleted_cursor
    have hcursor : deleted_cursor =
        { text := snapshot.deleted_text, offset := (Gauge.deleted.bytes content passed).length } := by
      rw [← h.deleted_text]
      simp only [deleted_cursor]
      split
      · rfl
      · rw [show (Gauge.deleted.bytes content passed).length = s.deleted_cursor.offset by omega]
    have hsummary : (deleted_cursor.summary ((Gauge.deleted.bytes content passed).length +
        (Gauge.deleted.bytes content [x]).length)).1 = (Gauge.deleted.bytes content [x]).length := by
      rw [hcursor]
      exact congrArg List.length hslice
    have hresult : ∃ item : Item, changed = ({ s with
        deleted_cursor := (deleted_cursor.summary ((Gauge.deleted.bytes content passed).length +
          (Gauge.deleted.bytes content [x]).length)).2
        old_end := s.old_end + (Gauge.deleted.bytes content [x]).length }, some item) ∧
        item.1 = extension ((Gauge.was since snapshot.undo_map).bytes content passed)
          (Gauge.visible.bytes content passed) (Gauge.deleted.bytes content [x]) [] pending_edit := by
      simp only [changed, Edits.change, h.version, hold, hnew, hend, start_deleted content, stop_deleted content]
      refine ⟨_, by rw [hsummary]; rfl, ?_⟩
      cases pending_edit with
      | none => simp [extension, holdEnd, hcaught]
      | some last =>
        have htouching := (h.found.touching (hpending last rfl)).2
        simp [extension, holdEnd, ← htouching]
    obtain ⟨item, hresult, hitem⟩ := hresult
    rw [hresult]
    have hfound := h.found.replace hpending (Or.inl (hdeleted'.symm ▸ hpos)) hitem
    refine ⟨h.visible_text, congrArg zed.rope.Cursor.text hcursor, h.version, h.range, h.offset, ?_, ?_, ?_, ?_,
      hchanged ?_ item⟩
    · rw [Gauge.bytes_append, hvisible', List.append_nil]
      exact h.new_end_le
    · rw [Gauge.bytes_append, Gauge.bytes_append, List.length_append, List.length_append, hvisible', hwas',
        ← hdeleted', List.length_nil]
      dsimp only
      omega
    · rw [Gauge.bytes_append, List.length_append]
      exact le_rfl
    · rwa [Gauge.bytes_append, Gauge.bytes_append, hvisible', hwas', ← hdeleted']
    · simp [hold, hnew]
  · -- the fragment was inserted since
    have hwas' : (Gauge.was since snapshot.undo_map).bytes content [x] = [] := hwas.trans (if_neg hold)
    have hvisible' : Gauge.visible.bytes content [x] = bytes content x.atoms := hvisible.trans (if_pos hnew)
    have hdeleted' : Gauge.deleted.bytes content [x] = [] :=
      hdeleted.trans (if_neg (by simpa [Gauge.deleted] using hnew))
    have hslice := slice_of_append (Gauge.visible.bytes content [x]) (Gauge.visible.bytes content rest) (le_refl (Gauge.visible.bytes content passed).length)
    rw [List.drop_length, List.nil_append, ← hreviews.visible_split hsplit] at hslice
    have hsummary : (s.visible_cursor.summary ((Gauge.visible.bytes content passed).length +
        (Gauge.visible.bytes content [x]).length)).1 = (Gauge.visible.bytes content [x]).length := by
      change ((s.visible_cursor.text.take _).drop _).length = _
      rw [h.visible_text, h.offset, hcaught, hslice]
    have hresult : ∃ item : Item, changed = ({ s with
        visible_cursor := (s.visible_cursor.summary ((Gauge.visible.bytes content passed).length +
          (Gauge.visible.bytes content [x]).length)).2
        new_end := s.new_end + (Gauge.visible.bytes content [x]).length }, some item) ∧
        item.1 = extension ((Gauge.was since snapshot.undo_map).bytes content passed)
          (Gauge.visible.bytes content passed) [] (Gauge.visible.bytes content [x]) pending_edit := by
      simp only [changed, Edits.change, h.version, hold, hnew, hend, stop_visible content, hsummary]
      refine ⟨_, rfl, ?_⟩
      cases pending_edit with
      | none => simp [extension, holdEnd, hcaught]
      | some last =>
        have htouching := (h.found.touching (hpending last rfl)).1
        simp [extension, hcaught, ← htouching]
    obtain ⟨item, hresult, hitem⟩ := hresult
    rw [hresult]
    have hfound := h.found.replace hpending (Or.inr (hvisible'.symm ▸ hpos)) hitem
    refine ⟨h.visible_text, h.deleted_text, h.version, h.range, ?_, ?_, ?_, ?_, ?_, hchanged ?_ item⟩
    · change (Gauge.visible.bytes content passed).length + _ = s.new_end + _
      rw [hcaught]
    · rw [Gauge.bytes_append, List.length_append, hcaught]
    · rw [Gauge.bytes_append, Gauge.bytes_append, List.length_append, List.length_append, hwas', List.length_nil]
      dsimp only
      omega
    · rw [Gauge.bytes_append, hdeleted', List.append_nil]
      exact hdeletedLe
    · rwa [Gauge.bytes_append, Gauge.bytes_append, hwas']
    · simp [hold, hnew]
  · have hresult : changed = (s, pending_edit) := by
      simp only [changed, Edits.change, h.version, hold, hnew]
      rfl
    rw [hresult]
    exact h.skip (by simp [hold, hnew])

theorem Finds.next_from_pass (hreviews : snapshot.Reviews content since)
    (hsplit : snapshot.fragments = passed ++ x :: rest) (h : s.Finds snapshot content since passed given pending_edit)
    (hpending : ∀ item ∈ pending_edit, ¬ item.1.new.stop < (Gauge.visible.bytes content passed).length)
    (stops : List (sum_tree.Cursor Fragment)) : ∃ passing extended,
      next_from ({ passed, rest := x :: rest } :: stops) s pending_edit = next_from stops passing extended ∧
        passing.Finds snapshot content since (passed ++ [x]) given extended := by
  obtain ⟨hfinds, hcaught⟩ := h.catch_up (hreviews.visible_split hsplit)
  have hbounds := hreviews.bounds x (hsplit ▸ List.mem_append_right _ List.mem_cons_self)
  have hnot : ¬ (pending_edit.any fun item => decide (item.1.new.stop <
      (s.catch_up (Gauge.visible.bytes content passed).length).new_end)) = true := by
    rw [hcaught]
    cases pending_edit with
    | none => exact Bool.false_ne_true
    | some item => simpa using hpending item rfl
  have hchange := hfinds.change hreviews hsplit hcaught fun item hitem => by
    rw [hcaught]
    exact hpending item hitem
  refine ⟨_, _, ?_, hchange⟩
  rw [next_from]
  simp only [sum_tree.Cursor.item, List.head?_cons, start_visible content]
  rw [if_neg (h.range.1 ▸ not_lt_of_gt hbounds.1), if_neg (h.range.2 ▸ not_lt_of_gt hbounds.2), if_neg hnot]

/-- The loop gives the pending edit at a fragment that text that stayed parts from it. -/
theorem Finds.next_from_give (hreviews : snapshot.Reviews content since)
    (hsplit : snapshot.fragments = passed ++ x :: rest) {item : Item}
    (h : s.Finds snapshot content since passed given (some item))
    (hlt : item.1.new.stop < (Gauge.visible.bytes content passed).length)
    (stops : List (sum_tree.Cursor Fragment)) : ∃ parted,
      next_from ({ passed, rest := x :: rest } :: stops) s (some item) = (some item, parted) ∧
        parted.fragments_cursor.stops = { passed, rest := x :: rest } :: stops ∧
        parted.Finds snapshot content since passed (given ++ [item]) none := by
  obtain ⟨hfinds, hcaught⟩ := h.catch_up (hreviews.visible_split hsplit)
  have hbounds := hreviews.bounds x (hsplit ▸ List.mem_append_right _ List.mem_cons_self)
  have hsome : (some item).any (fun item => decide (item.1.new.stop <
      (s.catch_up (Gauge.visible.bytes content passed).length).new_end)) = true := by
    rw [hcaught]
    simpa using hlt
  let caught := s.catch_up (Gauge.visible.bytes content passed).length
  refine ⟨{ caught with fragments_cursor := { caught.fragments_cursor with
      stops := { passed, rest := x :: rest } :: stops } }, ?_, rfl, ⟨hfinds.visible_text, hfinds.deleted_text, hfinds.version, hfinds.range, hfinds.offset,
    hfinds.new_end_le, hfinds.old_end, hfinds.deleted_le, hfinds.found.give hlt, ?_⟩⟩
  · rw [next_from]
    simp only [sum_tree.Cursor.item, List.head?_cons, start_visible content]
    rw [if_neg (h.range.1 ▸ not_lt_of_gt hbounds.1), if_neg (h.range.2 ▸ not_lt_of_gt hbounds.2), if_pos hsome]
  · rw [← hfinds.changed]
    simp

/-- What is given from the result of a call of `next` on. -/
def resume (fuel : Nat) : Option Item × Edits → Option (List Item)
  | (none, _) => some []
  | (some item, s) => (collect fuel s).map fun items => item :: items

theorem collect_succ (fuel : Nat) (s : Edits) : collect (fuel + 1) s = resume fuel s.next := by
  rw [collect]
  exact (resume.eq_def fuel s.next).symm

theorem Finds.collect (hreviews : snapshot.Reviews content since) {rest passed : List Fragment}
    (hsplit : snapshot.fragments = passed ++ rest) (h : s.Finds snapshot content since passed given pending_edit)
    {fuel : Nat} (hfuel : (sum_tree.FilterCursor.stops_from (fun fragment => fragment.summary.missed_by since)
      passed rest).length + 1 ≤ fuel) : ∃ items,
      resume fuel (next_from (sum_tree.FilterCursor.stops_from (fun fragment => fragment.summary.missed_by since)
        passed rest) s pending_edit) = some items ∧
      (Edits.found (given ++ items) none).Leads ((Gauge.was since snapshot.undo_map).bytes content snapshot.fragments)
        (Gauge.visible.bytes content snapshot.fragments) ∧
      (∀ edit ∈ Edits.found (given ++ items) none, edit.is_empty = false) ∧
      (Edits.found (given ++ items) none = [] ↔ ∀ fragment ∈ snapshot.fragments,
        fragment.was_visible since snapshot.undo_map = fragment.visible) := by
  induction rest generalizing passed s given pending_edit fuel with
  | nil =>
    rw [List.append_nil] at hsplit
    obtain ⟨fuel, rfl⟩ : ∃ n, fuel = n + 1 := ⟨fuel - 1, by omega⟩
    rw [hsplit]
    cases pending_edit with
    | none =>
      exact ⟨[], rfl, by simpa using h.found.leads, by simpa using h.found.nonempty, by simpa using h.changed⟩
    | some item =>
      exact ⟨[item], rfl, by simpa using h.found.leads, by simpa using h.found.nonempty, by simpa using h.changed⟩
  | cons x rest ih =>
    have hnext : snapshot.fragments = (passed ++ [x]) ++ rest := by
      rw [hsplit, List.append_assoc, List.singleton_append]
    rw [sum_tree.FilterCursor.stops_from] at hfuel ⊢
    by_cases hmissed : x.summary.missed_by since = true
    · rw [if_pos hmissed] at hfuel ⊢
      rw [List.length_cons] at hfuel
      by_cases hgive : ∃ item ∈ pending_edit, item.1.new.stop < (Gauge.visible.bytes content passed).length
      · -- the next call starts at this fragment
        obtain ⟨item, hitem, hlt⟩ := hgive
        obtain rfl : pending_edit = some item := hitem
        obtain ⟨parted, hparted, hstops, hfinds⟩ := h.next_from_give hreviews hsplit hlt
          (sum_tree.FilterCursor.stops_from (fun fragment => fragment.summary.missed_by since) (passed ++ [x]) rest)
        obtain ⟨passing, extended, hpass, hpassing⟩ := hfinds.next_from_pass hreviews hsplit
          (fun item hitem => absurd hitem (by simp))
          (sum_tree.FilterCursor.stops_from (fun fragment => fragment.summary.missed_by since) (passed ++ [x]) rest)
        obtain ⟨fuel, rfl⟩ : ∃ n, fuel = n + 1 := ⟨fuel - 1, by omega⟩
        obtain ⟨items, hitems, hrest⟩ := ih hnext hpassing (show _ ≤ fuel by omega)
        refine ⟨item :: items, ?_, ?_⟩
        · rw [hparted, resume, collect_succ, next, hstops, hpass, hitems]
          rfl
        · rwa [List.append_assoc, List.singleton_append] at hrest
      · obtain ⟨passing, extended, hpass, hpassing⟩ := h.next_from_pass hreviews hsplit
          (fun item hitem hlt => hgive ⟨item, hitem, hlt⟩)
          (sum_tree.FilterCursor.stops_from (fun fragment => fragment.summary.missed_by since) (passed ++ [x]) rest)
        rw [hpass]
        exact ih hnext hpassing (by omega)
    · rw [if_neg hmissed] at hfuel ⊢
      have hsame := hreviews.unchanged x (hsplit ▸ List.mem_append_right _ List.mem_cons_self)
        (by simpa using hmissed)
      exact ih hnext (h.skip hsame) hfuel

end Edits

namespace BufferSnapshot

variable {snapshot : BufferSnapshot} {content : AtomId → UInt8} {since : Global}

theorem stops_from_length {α : Type} (filter : α → Bool) (passed rest : List α) :
    (sum_tree.FilterCursor.stops_from filter passed rest).length ≤ rest.length := by
  induction rest generalizing passed with
  | nil => exact le_rfl
  | cons x rest ih =>
    have hle := ih (passed ++ [x])
    rw [sum_tree.FilterCursor.stops_from]
    split
    · rw [List.length_cons, List.length_cons]
      omega
    · rw [List.length_cons]
      omega

theorem Reviews.edits_iterator (h : snapshot.Reviews content since) : ∃ s,
    snapshot.edits_iterator since (Anchor.min_for_buffer snapshot.remote_id)
      (Anchor.max_for_buffer snapshot.remote_id) = some s ∧
    s.fragments_cursor = sum_tree.FilterCursor.new (fun fragment => fragment.summary.missed_by since)
      snapshot.fragments ∧
    s.Finds snapshot content since [] [] none := by
  have hcursor : snapshot.cursor_at Locator.min = { passed := [], rest := snapshot.fragments } := by
    have hnone : ∀ fragment ∈ snapshot.fragments, decide (fragment.id < Locator.min) = false := fun fragment hmem =>
      decide_eq_false (not_lt_of_gt (h.bounds fragment hmem).1)
    have htake : snapshot.fragments.takeWhile (fun fragment => decide (fragment.id < Locator.min)) = [] := by
      cases heq : snapshot.fragments with
      | nil => rfl
      | cons x rest => rw [List.takeWhile_cons, hnone x (by simp [heq])]; rfl
    have hdrop : snapshot.fragments.dropWhile (fun fragment => decide (fragment.id < Locator.min)) =
        snapshot.fragments := by
      cases heq : snapshot.fragments with
      | nil => rfl
      | cons x rest => rw [List.dropWhile_cons, hnone x (by simp [heq])]; rfl
    rw [BufferSnapshot.cursor_at, sum_tree.Cursor.slice_while, sum_tree.Cursor.new]
    dsimp only
    rw [htake, hdrop]
    rfl
  have hmin : snapshot.try_fragment_id_for_anchor (Anchor.min_for_buffer snapshot.remote_id) = some Locator.min := rfl
  have hmax : snapshot.try_fragment_id_for_anchor (Anchor.max_for_buffer snapshot.remote_id) = some Locator.max := rfl
  have hfinds : ∀ s : Edits, s.visible_cursor = { text := snapshot.visible_text, offset := 0 } →
      s.deleted_cursor = { text := snapshot.deleted_text, offset := 0 } → s.undos = snapshot.undo_map →
      s.since = since → s.range_start.1 = Locator.min → s.range_end.1 = Locator.max → s.old_end = 0 →
      s.new_end = 0 → s.Finds snapshot content since [] [] none := fun s hvisible hdeleted hundos hsince hstart hend
        hold hnew => by
    refine ⟨by rw [hvisible], by rw [hdeleted], ⟨hundos, hsince⟩, ⟨hstart, hend⟩, by rw [hvisible, hnew], ?_, ?_, ?_,
      ⟨Patch.Leads.nil, fun _ last hlast => by simp at hlast, fun edit hedit => by simp at hedit⟩, by simp⟩
    · rw [hnew]
      exact Nat.zero_le _
    · rw [hold, hnew]
      rfl
    · rw [hdeleted]
      exact Nat.zero_le _
  unfold BufferSnapshot.edits_iterator
  simp only [hmin, hmax, Option.bind_eq_bind, Option.bind_some, hcursor]
  cases hitems : snapshot.fragments with
  | nil =>
    refine ⟨_, rfl, rfl, hfinds _ rfl rfl rfl rfl rfl rfl rfl rfl⟩
  | cons x rest =>
    have hstart : x.insertion_offset = 0 := h.starts x (by rw [hitems]; rfl)
    simp only [sum_tree.Cursor.item, List.head?_cons, hstart]
    rw [if_neg (Nat.not_lt_zero _)]
    cases x.visible
    · exact ⟨_, rfl, rfl, hfinds _ rfl rfl rfl rfl rfl rfl rfl rfl⟩
    · exact ⟨_, rfl, rfl, hfinds _ rfl rfl rfl rfl rfl rfl rfl rfl⟩

theorem Reviews.edits_since_snapshot (h : snapshot.Reviews content since) (hne : since ≠ snapshot.version) : ∃ edits : Patch,
    snapshot.edits_since since = some edits ∧
      Patch.Leads edits ((Gauge.was since snapshot.undo_map).bytes content snapshot.fragments)
        (Gauge.visible.bytes content snapshot.fragments) ∧
      (∀ edit ∈ edits, edit.is_empty = false) ∧
      (edits = [] ↔ ∀ fragment ∈ snapshot.fragments,
        fragment.was_visible since snapshot.undo_map = fragment.visible) := by
  obtain ⟨s, hs, hcursor, hfinds⟩ := h.edits_iterator
  have hlength := stops_from_length (fun fragment : Fragment => fragment.summary.missed_by since) [] snapshot.fragments
  obtain ⟨items, hitems, hspec⟩ := hfinds.collect h (List.nil_append _).symm (Nat.succ_le_succ hlength)
  rw [List.nil_append, Edits.found_none] at hspec
  refine ⟨items.map Prod.fst, ?_, hspec⟩
  rw [BufferSnapshot.edits_since, edits_since_in_range, anchored_edits_since_in_range, if_neg hne, hs,
    Option.bind_some, Edits.collect_succ, Edits.next, hcursor]
  exact congrArg (Option.map _) hitems

theorem Reviews.has_edits_since (h : snapshot.Reviews content since) (hne : since ≠ snapshot.version) :
    snapshot.has_edits_since since = false ↔ ∀ fragment ∈ snapshot.fragments,
      fragment.was_visible since snapshot.undo_map = fragment.visible := by
  have hany : ∀ rest passed, (∀ fragment ∈ rest, fragment ∈ snapshot.fragments) →
      ((sum_tree.FilterCursor.stops_from (fun fragment => fragment.summary.missed_by since) passed rest).any
        (fun cursor => cursor.item.any fun fragment =>
          fragment.was_visible since snapshot.undo_map != fragment.visible) = false ↔
        ∀ fragment ∈ rest, fragment.was_visible since snapshot.undo_map = fragment.visible) := by
    intro rest
    induction rest with
    | nil => simp [sum_tree.FilterCursor.stops_from]
    | cons x rest ih =>
      intro passed hmem
      have hrest := ih (passed ++ [x]) fun fragment hfragment => hmem fragment (List.mem_cons_of_mem _ hfragment)
      rw [sum_tree.FilterCursor.stops_from, List.forall_mem_cons]
      by_cases hmissed : x.summary.missed_by since = true
      · rw [if_pos hmissed, List.any_cons, Bool.or_eq_false_iff, hrest]
        simp [sum_tree.Cursor.item]
      · rw [if_neg hmissed, hrest]
        exact (and_iff_right (h.unchanged x (hmem x List.mem_cons_self) (by simpa using hmissed))).symm
  rw [BufferSnapshot.has_edits_since, if_pos hne]
  exact hany snapshot.fragments [] fun _ hmem => hmem

end BufferSnapshot

end zed.text
