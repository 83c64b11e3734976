import Zed.Text.Stitch.Weft

namespace zed.text

open zed.clock zed.rope
open zed.replicated (Weft Loom CutsFrom weave)

/-- What a local edit does to the atoms within its ranges. -/
def Atom.deleteVisible (timestamp : Lamport) (atom : Atom) : Atom :=
  if atom.visible then atom.delete timestamp else atom

/-- A local edit sees every atom. -/
def localLoom (timestamp : Lamport) : Loom Atom :=
  { obs := fun _ => true
    above := fun _ => false
    mark := Atom.deleteVisible timestamp }

theorem localLoom_filter (timestamp : Lamport) (xs : List Atom) : xs.filter (localLoom timestamp).obs = xs :=
  List.filter_eq_self.mpr fun _ _ => rfl

theorem localLoom_fits (timestamp : Lamport) (xs : List Atom) : (localLoom timestamp).Fits xs :=
  ⟨fun _ _ h => (by cases h), fun _ _ h => (by cases h)⟩

theorem Atom.deleteVisible_id (timestamp : Lamport) (atom : Atom) :
    (Atom.deleteVisible timestamp atom).id = atom.id := by
  unfold Atom.deleteVisible
  split <;> rfl

/-- Ranges that are sorted, non-overlapping and within a text. -/
def EditsFrom (total : Nat) : Nat → List (Range × Str) → Prop
  | pos, [] => pos ≤ total
  | pos, (range, _) :: edits => pos ≤ range.start ∧ range.start ≤ range.stop ∧ EditsFrom total range.stop edits

/-- The new texts of an edit, with their line endings normalized. -/
def newTexts (edits : List (Range × Str)) : List Str := edits.map fun edit => rope.normalize edit.2

/-- A text from a position on, with each range replaced by its new text. -/
def splice (text : Rope) : Nat → List (Range × Str) → Rope
  | pos, [] => text.drop pos
  | pos, (range, new_text) :: edits =>
    Patch.slice text pos range.start ++ utf8 (normalize new_text) ++ splice text range.stop edits

theorem EditsFrom.le {total pos : Nat} {edits : List (Range × Str)} (h : EditsFrom total pos edits) :
    pos ≤ total := by
  induction edits generalizing pos with
  | nil => exact h
  | cons edit edits ih => exact h.1.trans (h.2.1.trans (ih h.2.2))

namespace Walk

variable {timestamp : Lamport} {content : AtomId → UInt8} {w : Walk}

theorem Placed.doneAtoms_length (h : w.Placed Gauge.visible) :
    (w.doneAtoms Gauge.visible).length =
      w.fragment_start + w.old_fragments.start Fragment.deleted_len := by
  have hstart := h.start_le
  have hstop := h.le_stop
  have hsum : ∀ fragments : List Fragment, (atoms fragments).length =
      (fragments.map Fragment.visible_len).sum + (fragments.map Fragment.deleted_len).sum := by
    intro fragments
    induction fragments with
    | nil => rfl
    | cons fragment fragments ih =>
      have := fragment.visible_len_add_deleted_len
      simp only [atoms_cons, List.length_append, Fragment.atoms_length, ih, List.map_cons, List.sum_cons]
      omega
  have hpassed := hsum w.old_fragments.passed
  have hinto : w.into Gauge.visible = w.fragment_start - w.old_fragments.start Fragment.visible_len := rfl
  have hvisible : w.old_fragments.start Fragment.visible_len =
      (w.old_fragments.passed.map Fragment.visible_len).sum := rfl
  have hdeleted : w.old_fragments.start Fragment.deleted_len =
      (w.old_fragments.passed.map Fragment.deleted_len).sum := rfl
  rw [Gauge.visible_len] at hstart hstop
  rw [doneAtoms, List.length_append, hpassed, List.length_take]
  suffices hle : w.into Gauge.visible ≤ (atoms w.old_fragments.rest).length by omega
  cases hrest : w.old_fragments.rest with
  | nil =>
    have hnil := stop_nil Gauge.visible hrest
    rw [Gauge.visible_len] at hnil
    omega
  | cons fragment rest =>
    have hcons := stop_cons Gauge.visible hrest
    have hlen := fragment.visible_len_add_deleted_len
    rw [Gauge.visible_len] at hcons
    rw [atoms_cons, List.length_append, Fragment.atoms_length]
    omega

/-- In the dimension of local edits, a position is one of the visible text. -/
theorem Placed.old_start_visible (h : w.Placed Gauge.visible) :
    w.old_start Fragment.visible_len = w.fragment_start :=
  h.old_start_eq.trans h.fragment_start_eq.symm

end Walk

namespace BufferSnapshot

open Walk

variable {timestamp : Lamport} {content : AtomId → UInt8} {w : Walk}

private theorem delete_visible_cut {fragment : Fragment} {range_end : Nat}
    (hplaced : w.Placed Gauge.visible) (hvisible : fragment.visible = true)
    (hlt : w.fragment_start < range_end)
    (hleft : w.fragment_start < w.old_fragments.stop Fragment.visible_len) :
    delete_visible timestamp range_end fragment w =
      let part_end := min range_end (w.old_fragments.stop Fragment.visible_len)
      let marked := w.cut Gauge.visible timestamp fragment part_end true
      if w.old_fragments.stop Fragment.visible_len ≤ range_end then marked.next else marked := by
  have hpart : 0 < min range_end (w.old_fragments.stop Fragment.visible_len) - w.fragment_start := by omega
  have hend : w.fragment_start +
      (min range_end (w.old_fragments.stop Fragment.visible_len) - w.fragment_start) =
      min range_end (w.old_fragments.stop Fragment.visible_len) := by omega
  simp [delete_visible, hvisible, Walk.cut, part, intersection, push_fragment, Gauge.visible_len,
    hplaced.old_start_visible, hpart, hend]

theorem delete_visible_deletes (timestamp : Lamport) (content : AtomId → UInt8) (range_end : Nat) :
    Deletes Gauge.visible timestamp content (Atom.deleteVisible timestamp)
      (fun w => ∀ fragment ∈ w.old_fragments.rest, 0 < fragment.len) range_end
      (delete_visible timestamp range_end) := by
  intro w fragment rest hrest hplaced hpos hlt
  have hstart := hplaced.start_le
  have hstop := hplaced.le_stop
  have hend := stop_cons Gauge.visible hrest
  have hrestPos : ∀ other ∈ rest, 0 < other.len := fun other hother => hpos other (by simp [hrest, hother])
  have hfragmentPos := hpos fragment (by simp [hrest])
  rw [Gauge.visible_len] at hstart hstop hend
  cases hvisible : fragment.visible with
  | false =>
    -- a fragment that was deleted before is kept
    have hlen : fragment.visible_len = 0 := by simp [Fragment.visible_len, hvisible]
    have hfragmentStart : w.fragment_start = w.old_fragments.start Gauge.visible.len := by
      rw [Gauge.visible_len]
      omega
    have hpass : Stitch Gauge.visible timestamp content w (w.pass Gauge.visible fragment true)
        fragment.atoms fragment.atoms := .pass true hrest hfragmentStart
    have hsame : delete_visible timestamp range_end fragment w = w.pass Gauge.visible fragment true := by
      have hdone : w.old_fragments.stop Fragment.visible_len = w.fragment_start := by omega
      simp [delete_visible, hvisible, hfragmentPos, hdone, hlt.le, Walk.pass, Walk.next, push_fragment,
        Gauge.visible_len, hlen]
    have hmark : fragment.atoms.map (Atom.deleteVisible timestamp) = fragment.atoms := by
      refine (List.map_congr_left fun atom hatom => ?_).trans (List.map_id _)
      simp [Atom.deleteVisible, (Fragment.atoms_eq_of_mem hatom).2.1, hvisible]
    rw [hsame]
    refine ⟨?_, ?_, Or.inl ?_, fragment.atoms, ?_, Or.inl ?_⟩
    · simpa [Walk.pass, next_cons hrest] using hrestPos
    · change w.fragment_start + fragment.visible_len ≤ range_end
      omega
    · simp [Walk.pass, next_cons hrest]
    · rw [hmark]
      exact .single hpass
    · change w.fragment_start + fragment.visible_len = w.fragment_start
      omega
  | true =>
    have hnext : w.next.old_fragments.rest = rest := by simp [Walk.next, next_cons hrest]
    rcases hstop.lt_or_eq with hleft | hdone
    · have hle : min range_end (w.old_fragments.stop Fragment.visible_len) ≤
          w.old_fragments.stop Gauge.visible.len := Nat.min_le_right _ _
      have hcut : Stitch Gauge.visible timestamp content w (w.cut Gauge.visible timestamp fragment
          (min range_end (w.old_fragments.stop Fragment.visible_len)) true) _ _ :=
        .cut true hrest hvisible hplaced (lt_min hlt hleft) hle
      have hmem := mem_atoms_of_take hrest hvisible hplaced hle
      rw [part_atoms timestamp true hrest hvisible hplaced hle] at hcut
      have hmark : ∀ atom ∈ (w.leftAtoms Gauge.visible).take
          (min range_end (w.old_fragments.stop Fragment.visible_len) - w.fragment_start),
          Atom.delete timestamp atom = Atom.deleteVisible timestamp atom := by
        intro atom hatom
        rw [Atom.deleteVisible, if_pos]
        rw [(Fragment.atoms_eq_of_mem (hmem atom hatom)).2.1]
        exact hvisible
      have hlast := exists_last_of_part hrest hvisible hplaced (lt_min hlt hleft) hle
      rw [if_pos rfl, List.map_congr_left hmark] at hcut
      rw [delete_visible_cut hplaced hvisible hlt hleft]
      dsimp only
      split
      · rename_i hrange
        have hmove : Stitch Gauge.visible timestamp content (w.cut Gauge.visible timestamp fragment
            (min range_end (w.old_fragments.stop Fragment.visible_len)) true) (w.cut Gauge.visible timestamp
              fragment (min range_end (w.old_fragments.stop Fragment.visible_len)) true).next [] [] :=
          .next hrest hvisible (Nat.min_eq_right hrange)
        refine ⟨?_, Nat.min_le_left _ _, Or.inl hnext, _, ?_, Or.inr hlast⟩
        · exact fun other hother => hrestPos other (hnext ▸ hother)
        · simpa using (Stitches.single hcut).tail hmove
      · rename_i hrange
        exact ⟨hpos, Nat.min_le_left _ _, Or.inr (Nat.min_eq_left (not_le.mp hrange).le), _, .single hcut,
          Or.inr hlast⟩
    · have hmove : Stitch Gauge.visible timestamp content w w.next [] [] := .next hrest hvisible hdone
      have hsame : delete_visible timestamp range_end fragment w = w.next := by
        simp [delete_visible, hvisible, ← hdone, hlt.le, intersection]
      rw [hsame]
      refine ⟨?_, hlt.le, Or.inl hnext, [], .single hmove, Or.inl rfl⟩
      exact fun other hother => hrestPos other (hnext ▸ hother)

/-- What one iteration of the loop does, from what catching up did before it. -/
structure LocalRange (content : AtomId → UInt8) (timestamp : Lamport) (edit : Range × Str)
    (before : Walk) (op : EditOperation) (after : Walk × EditOperation) (kept marked : List Atom) : Prop where
  stitches : Stitches Gauge.visible timestamp content before after.1 (kept ++ marked)
    (kept ++ (insertedAtoms timestamp before.insertion_offset (utf8 (normalize edit.2)).length ++
      marked.map (Atom.deleteVisible timestamp)))
  start_eq : ((before.doneAtoms Gauge.visible ++ kept).filter Atom.visible).length = edit.1.start
  stop_eq : after.1.fragment_start = edit.1.stop
  op_eq : after.2 =
    { op with
      ranges := op.ranges ++ [⟨(before.doneAtoms Gauge.visible).length + kept.length,
        (before.doneAtoms Gauge.visible).length + kept.length + marked.length⟩]
      new_text := op.new_text ++ [normalize edit.2] }

theorem apply_range_spec {before : Walk} {edit : Range × Str} {edits : List (Range × Str)} (op : EditOperation)
    (hplaced : before.Placed Gauge.visible) (hpos : ∀ fragment ∈ before.old_fragments.rest, 0 < fragment.len)
    (harrives : Arrives Gauge.visible timestamp content .Right before w (edit :: edits))
    (hrange : edit.1.start ≤ edit.1.stop) (htotal : edit.1.stop ≤ before.total Gauge.visible)
    (hcontent : bytes content (insertedAtoms timestamp before.insertion_offset
      (utf8 (normalize edit.2)).length) = utf8 (normalize edit.2)) :
    ∃ kept marked, LocalRange content timestamp edit before op (apply_range timestamp (w, op) edit) kept
      marked := by
  obtain ⟨taken, hstitches, hcaught⟩ := harrives
  rw [Gauge.visible_len] at hstitches hcaught
  generalize hcatch : w.catch_up Fragment.visible_len edit.1.start .Right = caught at hstitches hcaught
  have hcaughtPlaced := hstitches.placed hplaced
  obtain ⟨hstart, hsame, front, hkeptPart, -⟩ := push_prefix_stitches timestamp content hcaughtPlaced
    hcaught.start_le hcaught.le_stop
  rw [Gauge.visible_len] at hstart hsame hkeptPart
  generalize hp : caught.push_prefix Fragment.visible_len edit.1.start = p at hstart hsame hkeptPart
  have hkept := hstitches.trans hkeptPart
  have hpPlaced := hkept.placed hplaced
  have hoffset : p.insertion_offset = before.insertion_offset := by
    have := hkept.insertion_offset
    omega
  -- the new text goes where the prefix ended
  have hinsert : Stitch Gauge.visible timestamp content p
      (p.push_insertion p.fragment_start (normalize edit.2) timestamp) []
      (insertedAtoms timestamp before.insertion_offset (utf8 (normalize edit.2)).length) := by
    have hstep : Stitch Gauge.visible timestamp content p _ _ _ := .insert (normalize edit.2) hpPlaced
      (by rwa [hoffset])
    rwa [Gauge.visible_len, hpPlaced.old_start_visible, hoffset] at hstep
  obtain ⟨hqstart, hqsame⟩ := push_insertion_position p.fragment_start (normalize edit.2) timestamp p
  generalize hq : p.push_insertion p.fragment_start (normalize edit.2) timestamp = q at hinsert hqstart hqsame
  have hinserted := hkept.tail hinsert
  have hqPos : ∀ fragment ∈ q.old_fragments.rest, 0 < fragment.len := fun fragment hfragment =>
    hpos fragment (hinserted.mem_rest hfragment)
  obtain ⟨-, hstop, marked, hmarked, -⟩ := delete_range_stitches
    (delete_visible_deletes timestamp content edit.1.stop) hinsert.placed hqPos (by omega)
    (hinserted.total ▸ htotal)
  generalize hr : q.delete_range (delete_visible timestamp edit.1.stop) edit.1.stop = r at hstop hmarked
  have happly : apply_range timestamp (w, op) edit =
      (r,
        { op with
          ranges := op.ranges ++ [⟨edit.1.start + caught.old_fragments.start Fragment.deleted_len,
            edit.1.stop + r.old_fragments.start Fragment.deleted_len⟩]
          new_text := op.new_text ++ [normalize edit.2] }) := by
    rw [apply_range]
    simp only [hcatch, hp, hq, hr]
  have hall := hinserted.trans hmarked
  have hfullStart := hpPlaced.doneAtoms_length
  have hfullStop := (hall.placed hplaced).doneAtoms_length
  rw [hkept.done, List.length_append] at hfullStart
  rw [hall.done, List.length_append, List.length_append, List.append_nil] at hfullStop
  rw [happly]
  refine ⟨taken ++ front, marked, ?_, ?_, hstop, ?_⟩
  · simpa only [List.append_nil, List.append_assoc] using hall
  · have hcount := hpPlaced.fragment_start_eq
    rw [hkept.done, hstart] at hcount
    exact hcount.symm
  · rw [← hsame, ← hstart, ← hstop, ← hfullStart, ← hfullStop, Nat.add_assoc]

theorem LocalRange.weft_step {before : Walk} {edit : Range × Str} {op : EditOperation}
    {after : Walk × EditOperation} {kept marked : List Atom}
    (h : LocalRange content timestamp edit before op after kept marked) :
    after.1.weft Gauge.visible (localLoom timestamp).obs =
      (before.weft Gauge.visible (localLoom timestamp).obs).step (localLoom timestamp)
        { start := (before.doneAtoms Gauge.visible).length + kept.length
          stop := (before.doneAtoms Gauge.visible).length + kept.length + marked.length
          block := insertedAtoms timestamp before.insertion_offset (utf8 (normalize edit.2)).length } := by
  have hlast : ∀ xs : List Atom, xs = [] ∨
      ∃ front atom, xs = front ++ [atom] ∧ (localLoom timestamp).obs atom = true := by
    intro xs
    rcases List.eq_nil_or_concat xs with hnil | ⟨front, atom, hsplit⟩
    · exact Or.inl hnil
    · exact Or.inr ⟨front, atom, by simpa using hsplit, rfl⟩
  have hstep := Stitches.weft_step (localLoom timestamp) [] h.stitches (hlast kept)
    (by simp) (fun _ _ => rfl) (hlast marked)
  simpa only [weft, localLoom_filter] using hstep

theorem foldl_apply_range {edits : List (Range × Str)} {before : Walk} (op : EditOperation)
    (hplaced : before.Placed Gauge.visible) (hpos : ∀ fragment ∈ before.old_fragments.rest, 0 < fragment.len)
    (harrives : Arrives Gauge.visible timestamp content .Right before w edits)
    (hedits : EditsFrom (before.total Gauge.visible) before.fragment_start edits)
    (hcontent : Inserts content timestamp before.insertion_offset (newTexts edits)) :
    ∃ ranges taken given,
      let result := edits.foldl (apply_range timestamp) (w, op)
      let cuts := cutsOf timestamp before.insertion_offset (ranges.zip (newTexts edits))
      let old := atoms (before.old_fragments.passed ++ before.old_fragments.rest)
      Stitches Gauge.visible timestamp content before result.1 taken given ∧
        ranges.length = edits.length ∧
        result.2 = { op with ranges := op.ranges ++ ranges, new_text := op.new_text ++ newTexts edits } ∧
        result.1.weft Gauge.visible (localLoom timestamp).obs =
          cuts.foldl (Weft.step (localLoom timestamp)) (before.weft Gauge.visible (localLoom timestamp).obs) ∧
        CutsFrom old.length (before.doneAtoms Gauge.visible).length cuts ∧
        visibleBytes content given ++ visibleBytes content (result.1.leftAtoms Gauge.visible) =
          splice (visibleBytes content old) before.fragment_start edits := by
  induction edits generalizing before w op with
  | nil =>
    have hsame : w = before := harrives
    have hdone := done_append_left Gauge.visible before
    have hcount := hplaced.fragment_start_eq
    refine ⟨[], [], [], ?_, rfl, ?_, ?_, ?_, ?_⟩
    · rw [List.foldl_nil, hsame]
      exact .refl before
    · simp [newTexts]
    · rw [List.foldl_nil, hsame]
      rfl
    · have hle := congrArg List.length hdone
      rw [List.length_append] at hle
      change (before.doneAtoms Gauge.visible).length ≤ _
      omega
    · rw [List.foldl_nil, hsame, splice, ← hdone, visibleBytes_append]
      exact (List.drop_left' (by rw [visibleBytes_length]; exact hcount.symm)).symm
  | cons edit edits ih =>
    obtain ⟨hstart, hrange, hrest⟩ := hedits
    obtain ⟨htext, htexts⟩ := hcontent
    obtain ⟨kept, marked, hlocal⟩ := apply_range_spec op hplaced hpos harrives hrange hrest.le htext
    have hweft := hlocal.weft_step
    obtain ⟨hstitches, hstartEq, hstopEq, hop⟩ := hlocal
    rw [List.foldl_cons]
    generalize apply_range timestamp (w, op) edit = next at hstitches hstopEq hop hweft
    obtain ⟨after, afterOp⟩ := next
    dsimp only at hstitches hstopEq hop hweft
    have hafterPlaced := hstitches.placed hplaced
    have htotal := hstitches.total
    have hfragments := hstitches.old_fragments
    have hoffset : after.insertion_offset =
        before.insertion_offset + (utf8 (rope.normalize edit.2)).length := by
      have := hstitches.insertion_offset
      simp only [List.length_append, List.length_map, insertedAtoms, List.length_range] at this
      omega
    have hdone := congrArg List.length hstitches.done
    rw [List.length_append, List.length_append] at hdone
    have hafterEdits : EditsFrom (after.total Gauge.visible) after.fragment_start edits := by
      rw [htotal, hstopEq]
      exact hrest
    obtain ⟨ranges, taken, given, hfold, hlength, hopFold, hweftFold, hcuts, htextFold⟩ :=
      ih afterOp hafterPlaced
        (fun fragment hfragment => hpos fragment (hstitches.mem_rest hfragment))
        (arrives_self timestamp content .Right hafterPlaced (by
          cases edits with
          | nil => simp
          | cons next edits => simpa using ⟨hafterEdits.1, hafterEdits.2.1.trans hafterEdits.2.2.le⟩))
        hafterEdits (by rw [hoffset]; exact htexts)
    refine ⟨⟨(before.doneAtoms Gauge.visible).length + kept.length,
      (before.doneAtoms Gauge.visible).length + kept.length + marked.length⟩ :: ranges, _, _,
      hstitches.trans hfold, by simp [hlength], ?_, ?_, ?_, ?_⟩
    · rw [hopFold, hop]
      simp [newTexts]
    · rw [hweftFold, hweft, hoffset]
      rfl
    · refine ⟨Nat.le_add_right _ _, Nat.le_add_right _ _, ?_⟩
      rw [hfragments, hoffset, hdone, ← Nat.add_assoc] at hcuts
      exact hcuts
    · -- what the range deletes is no longer visible, and its text has been inserted
      have hall := done_append_left Gauge.visible before
      rw [hstitches.left] at hall
      have hcount := hplaced.fragment_start_eq
      have hkept : Patch.slice (visibleBytes content
          (atoms (before.old_fragments.passed ++ before.old_fragments.rest))) before.fragment_start
          edit.1.start = visibleBytes content kept := by
        have hsplit : before.doneAtoms Gauge.visible ++ ((kept ++ marked) ++ after.leftAtoms Gauge.visible) =
            (before.doneAtoms Gauge.visible ++ kept) ++ (marked ++ after.leftAtoms Gauge.visible) := by simp
        rw [Patch.slice, ← hall, hsplit, visibleBytes_append (before.doneAtoms Gauge.visible ++ kept),
          List.take_left' (by rw [visibleBytes_length]; exact hstartEq), visibleBytes_append,
          List.drop_left' (by rw [visibleBytes_length]; exact hcount.symm)]
      have hinserted : visibleBytes content (insertedAtoms timestamp before.insertion_offset
          (utf8 (rope.normalize edit.2)).length) = utf8 (rope.normalize edit.2) := by
        rw [visibleBytes_of_visible, htext]
        intro atom hatom
        obtain ⟨i, -, rfl⟩ := mem_insertedAtoms.mp hatom
        rfl
      have hdeleted : visibleBytes content (marked.map (Atom.deleteVisible timestamp)) = [] := by
        refine visibleBytes_of_deleted fun atom hatom => ?_
        obtain ⟨old, -, rfl⟩ := List.mem_map.mp hatom
        cases hvisible : old.visible <;> simp [Atom.deleteVisible, Atom.delete, hvisible]
      rw [hfragments, hstopEq] at htextFold
      rw [splice, hkept, ← htextFold]
      simp only [visibleBytes_append, hinserted, hdeleted, List.nil_append, List.append_assoc]

/-- A local edit weaves its insertions into the atoms at the full offsets that
    its operation records, and splices them into the visible text. -/
structure LocalEdit (content : AtomId → UInt8) (edited : Lamport → Prop) (snapshot : BufferSnapshot)
    (edits : List (Range × Str)) (timestamp : Lamport) (ranges : List Range) : Prop where
  ranges_length : ranges.length = edits.length
  op : (snapshot.apply_edit_internal edits timestamp).2.1 =
    { timestamp, version := snapshot.version, ranges, new_text := newTexts edits }
  store : (snapshot.apply_edit_internal edits timestamp).1.Store content edited
  same : SameOutside snapshot (snapshot.apply_edit_internal edits timestamp).1
  patch : (snapshot.apply_edit_internal edits timestamp).2.2.Takes snapshot.visible_text
    (snapshot.apply_edit_internal edits timestamp).1.visible_text
  atoms : atoms (snapshot.apply_edit_internal edits timestamp).1.fragments =
    weave (localLoom timestamp) (cutsOf timestamp 0 (ranges.zip (newTexts edits))) (atoms snapshot.fragments)
  cuts : CutsFrom (zed.text.atoms snapshot.fragments).length 0
    (cutsOf timestamp 0 (ranges.zip (newTexts edits)))
  visible_text : (snapshot.apply_edit_internal edits timestamp).1.visible_text =
    splice snapshot.visible_text 0 edits

theorem apply_edit_internal_spec {edited : Lamport → Prop} {snapshot : BufferSnapshot}
    {edits : List (Range × Str)} (hstore : snapshot.Store content edited)
    (hedits : EditsFrom snapshot.visible_text.length 0 edits)
    (hfresh : ∀ atom ∈ atoms snapshot.fragments, atom.timestamp ≠ timestamp)
    (hcontent : Inserts content timestamp 0 (newTexts edits)) :
    ∃ ranges, LocalEdit content edited snapshot edits timestamp ranges := by
  cases edits with
  | nil =>
    have hkeep := (Patch.Leads.nil (β := UInt8)).keep snapshot.visible_text
    refine ⟨[], rfl, rfl, hstore, ⟨rfl, rfl, rfl, rfl⟩, ?_, rfl, Nat.zero_le _, rfl⟩
    exact hkeep.takes
  | cons edit edits =>
    have htotal : snapshot.visible_text.length = (snapshot.fragments.map Fragment.visible_len).sum := by
      rw [hstore.visible_text, visibleBytes_length]
      exact Gauge.visible.atoms_length _
    rw [htotal] at hedits
    have hinitial := initial_placed Gauge.visible snapshot.fragments snapshot.visible_text
      snapshot.deleted_text
    have harrives := arrives_start timestamp content Gauge.visible .Right snapshot.fragments
      snapshot.visible_text snapshot.deleted_text edit edits (hedits.2.1.trans hedits.2.2.le)
    rw [Gauge.visible_len] at harrives
    obtain ⟨ranges, taken, given, hstitches, hlength, hop, hweft, hcuts, htext⟩ :=
      foldl_apply_range { timestamp, version := snapshot.version, ranges := [], new_text := [] }
        hinitial hstore.len_pos harrives hedits hcontent
    generalize hfold : (edit :: edits).foldl (apply_range timestamp) _ = result at hstitches hop hweft htext
    have happly : snapshot.apply_edit_internal (edit :: edits) timestamp =
        ((snapshot.finish_edit Gauge.visible.len result.1).1, result.2,
          (snapshot.finish_edit Gauge.visible.len result.1).2) := by
      rw [← hfold]
      rfl
    have hcuts' : CutsFrom ((atoms snapshot.fragments).filter (localLoom timestamp).obs).length 0
        (cutsOf timestamp 0 (ranges.zip (newTexts (edit :: edits)))) := by
      rw [localLoom_filter]
      exact hcuts
    have hatoms : given ++ result.1.leftAtoms Gauge.visible = weave (localLoom timestamp)
        (cutsOf timestamp 0 (ranges.zip (newTexts (edit :: edits)))) (atoms snapshot.fragments) := by
      have hfinish := congrArg Weft.finish hweft
      rw [weft_initial, weft, Weft.finish, hstitches.new] at hfinish
      exact hfinish
    obtain ⟨hresult, hpatch, hresultAtoms⟩ := finish_edit_spec hstore hstitches (by
      rw [hatoms]
      exact weave_nodup (localLoom_fits timestamp _) (fun atom _ => Atom.deleteVisible_id timestamp atom)
        hfresh hcuts' hstore.nodup)
    refine ⟨ranges, hlength, ?_, ?_, ?_, ?_, ?_, hcuts, ?_⟩
    · rw [happly]
      exact hop
    · rw [happly]
      exact hresult
    · rw [happly]
      exact ⟨rfl, rfl, rfl, rfl⟩
    · rw [happly]
      exact hpatch
    · rw [happly]
      exact hresultAtoms.trans hatoms
    · rw [happly, hresult.visible_text, hresultAtoms, visibleBytes_append, htext, hstore.visible_text]
      rfl

end BufferSnapshot

end zed.text
