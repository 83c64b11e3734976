import Zed.Text.Stitch.Texts

namespace zed.text.Walk

open zed.clock zed.rope
open zed.sum_tree (Bias)

variable {gauge : Gauge} {timestamp : Lamport} {content : AtomId → UInt8} {w : Walk}

/-- The walk after a run of old fragments was kept as it is. -/
def passAll (gauge : Gauge) (w : Walk) (slice rest : List Fragment) : Walk :=
  { w with
    old_fragments := { passed := w.old_fragments.passed ++ slice, rest }
    fragment_start := w.old_fragments.start gauge.len + (slice.map gauge.len).sum
    new_fragments := w.new_fragments ++ slice
    new_ropes := w.new_ropes.append (summary slice).text }

theorem passAll_stitches (timestamp : Lamport) (content : AtomId → UInt8) {slice rest : List Fragment} (hrest : w.old_fragments.rest = slice ++ rest)
    (hstart : w.fragment_start = w.old_fragments.start gauge.len) :
    Stitches gauge timestamp content w (w.passAll gauge slice rest) (atoms slice) (atoms slice) := by
  induction slice generalizing w with
  | nil =>
    have hsame : w.passAll gauge [] rest = w := by
      unfold passAll
      rw [summary_text]
      simp only [List.map_nil, List.sum_nil, RopeBuilder.append_zero, List.append_nil, Nat.add_zero,
        ← hstart]
      obtain ⟨⟨passed, old_rest⟩, _⟩ := w
      simp only [List.nil_append] at hrest
      simp [hrest]
    rw [hsame]
    exact .refl w
  | cons fragment slice ih =>
    have hnext := start_next gauge hrest
    have hpass : Stitch gauge timestamp content w (w.pass gauge fragment false) fragment.atoms
        fragment.atoms := .pass false hrest hstart
    have hsame : (w.pass gauge fragment false).passAll gauge slice rest =
        w.passAll gauge (fragment :: slice) rest := by
      simp only [passAll, pass, RopeBuilder.append_summary, List.foldl_cons, hnext, List.map_cons,
        List.sum_cons, Nat.add_assoc]
      simp [next_cons hrest]
    rw [← hsame, atoms_cons]
    refine (Stitches.single hpass).trans (ih ?_ ?_)
    · simp [pass, next_cons hrest]
    · change w.fragment_start + gauge.len fragment = w.old_fragments.next.start gauge.len
      omega

theorem exists_counted (hlt : w.old_fragments.start gauge.len < w.old_fragments.stop gauge.len) :
    ∃ fragment rest, w.old_fragments.rest = fragment :: rest ∧ gauge.counted fragment = true := by
  cases hrest : w.old_fragments.rest with
  | nil =>
    rw [stop_nil gauge hrest] at hlt
    omega
  | cons fragment rest =>
    rw [stop_cons gauge hrest] at hlt
    refine ⟨fragment, rest, rfl, ?_⟩
    rcases gauge.len_cases fragment with ⟨hcounted, _⟩ | ⟨_, hlen⟩
    · exact hcounted
    · omega

theorem item_cons {fragment : Fragment} {rest : List Fragment}
    (hrest : w.old_fragments.rest = fragment :: rest) : w.old_fragments.item = some fragment := by
  simp [sum_tree.Cursor.item, hrest]

def atStart (gauge : Gauge) (w : Walk) : Walk :=
  { w with fragment_start := w.old_fragments.start gauge.len }

theorem consume_suffix_stitches (timestamp : Lamport) (content : AtomId → UInt8) (h : w.Placed gauge) :
    (w.consume_suffix gauge.len).old_fragments.start gauge.len ≤ w.old_fragments.stop gauge.len ∧
      ∃ taken, Stitches gauge timestamp content w ((w.consume_suffix gauge.len).atStart gauge) taken taken := by
  have hstop := h.le_stop
  unfold consume_suffix
  by_cases hinto : w.fragment_start > w.old_fragments.start gauge.len
  · rw [if_pos hinto]
    obtain ⟨fragment, rest, hrest, hcounted⟩ := exists_counted (by omega : w.old_fragments.start gauge.len < w.old_fragments.stop gauge.len)
    have hnext := start_next gauge hrest
    have hend := stop_cons gauge hrest
    simp only [item_cons hrest]
    by_cases hleft : w.old_fragments.stop gauge.len > w.fragment_start
    · rw [if_pos hleft]
      have hkeep : Stitch gauge timestamp content w (w.keepRest gauge fragment) _ _ :=
        .keepRest hrest hcounted h hleft
      rw [suffix_atoms hrest hcounted h] at hkeep
      have hsame : ((w.push_fragment (w.suffix gauge.len fragment) fragment.visible).next).atStart gauge =
          w.keepRest gauge fragment := by
        simp only [atStart, keepRest, next, push_fragment, hnext, hend]
      rw [hsame]
      exact ⟨(hnext.trans hend.symm).le, _, .single hkeep⟩
    · rw [if_neg hleft]
      have hmove : Stitch gauge timestamp content w w.next [] [] := .next hrest hcounted (by omega)
      have hsame : w.next.atStart gauge = w.next := by
        simp only [atStart, next, hnext]
        congr 1
        omega
      rw [hsame]
      exact ⟨(hnext.trans hend.symm).le, _, .single hmove⟩
  · rw [if_neg hinto]
    have hstart := h.start_le
    have hsame : w.atStart gauge = w := by
      unfold atStart
      congr 1
      omega
    rw [hsame]
    exact ⟨hstart.trans hstop, [], .refl w⟩

/-- Where a walk stands that has caught up with the start of a range. -/
structure CaughtUp (gauge : Gauge) (range_start : Nat) (bias : Bias) (before after : Walk) : Prop where
  start_le : after.fragment_start ≤ range_start
  le_stop : range_start ≤ after.old_fragments.stop gauge.len
  moved : after = before ∨ after.fragment_start = after.old_fragments.start gauge.len ∧
    (bias = .Left → after.fragment_start < range_start)

/-- The length of all old fragments in the dimension. -/
def total (gauge : Gauge) (w : Walk) : Nat :=
  ((w.old_fragments.passed ++ w.old_fragments.rest).map gauge.len).sum

theorem total_of_nil (hrest : w.old_fragments.rest = []) : w.total gauge = w.old_fragments.start gauge.len := by
  simp [total, hrest, sum_tree.Cursor.start]

theorem Stitches.total {last : Walk} {taken given : List Atom}
    (h : Stitches gauge timestamp content w last taken given) : last.total gauge = w.total gauge := by
  rw [Walk.total, h.old_fragments, Walk.total]

theorem slice_caught_up {range_start : Nat} (bias : Bias)
    (hstart : w.old_fragments.start gauge.len ≤ range_start) (htotal : range_start ≤ w.total gauge) :
    let split := sum_tree.slice_from gauge.len range_start bias (w.old_fragments.start gauge.len)
      w.old_fragments.rest
    let after := w.passAll gauge split.1 split.2
    after.fragment_start ≤ range_start ∧ range_start ≤ after.old_fragments.stop gauge.len ∧
      after.fragment_start = after.old_fragments.start gauge.len ∧
      (bias = .Left → after.fragment_start < range_start ∨ split.1 = []) := by
  intro split after
  have happend := sum_tree.Cursor.slice_from_append gauge.len range_start bias
    (w.old_fragments.start gauge.len) w.old_fragments.rest
  obtain ⟨htaken, hleft⟩ := sum_tree.Cursor.slice_from_stop gauge.len range_start bias
    (w.old_fragments.start gauge.len) w.old_fragments.rest
  have hafter : after.fragment_start = after.old_fragments.start gauge.len := by
    simp [after, passAll, sum_tree.Cursor.start]
  have hbefore : after.fragment_start = w.old_fragments.start gauge.len + (split.1.map gauge.len).sum := rfl
  -- the last fragment taken, if there is one, does not end past the target
  have hpassed : after.fragment_start ≤ range_start ∧
      (bias = .Left → after.fragment_start < range_start ∨ split.1 = []) := by
    rcases List.eq_nil_or_concat split.1 with hnil | ⟨front, last, hsnoc⟩
    · refine ⟨?_, fun _ => Or.inr hnil⟩
      rw [hbefore, hnil]
      simpa using hstart
    · rw [List.concat_eq_append] at hsnoc
      have hpass := htaken front last [] hsnoc
      rw [hbefore, hsnoc]
      cases bias with
      | Left =>
        simp only [sum_tree.Bias.passes, decide_eq_true_eq] at hpass
        simp
        omega
      | Right =>
        simp only [sum_tree.Bias.passes, decide_eq_true_eq] at hpass
        simp
        omega
  refine ⟨hpassed.1, ?_, hafter, hpassed.2⟩
  cases hrest : split.2 with
  | nil =>
    have hall : w.total gauge = after.total gauge := by
      simp [Walk.total, after, passAll, split, happend]
    have hnil : after.old_fragments.rest = [] := hrest
    rw [stop_nil gauge hnil, ← total_of_nil hnil, ← hall]
    exact htotal
  | cons fragment rest =>
    have hcons : after.old_fragments.rest = fragment :: rest := hrest
    have hpass : bias.passes range_start
        (w.old_fragments.start gauge.len + (split.1.map gauge.len).sum + gauge.len fragment) = false :=
      hleft fragment (by
        change fragment ∈ split.2.head?
        simp [hrest])
    rw [stop_cons gauge hcons, ← hafter, hbefore]
    cases bias with
    | Left =>
      simp only [sum_tree.Bias.passes, decide_eq_false_iff_not] at hpass
      omega
    | Right =>
      simp only [sum_tree.Bias.passes, decide_eq_false_iff_not] at hpass
      omega

theorem catch_up_stitches (timestamp : Lamport) (content : AtomId → UInt8) (h : w.Placed gauge) (bias : Bias) {range_start : Nat}
    (hle : w.fragment_start ≤ range_start) (htotal : range_start ≤ w.total gauge) :
    CaughtUp gauge range_start bias w (w.catch_up gauge.len range_start bias) ∧
      ∃ taken, Stitches gauge timestamp content w (w.catch_up gauge.len range_start bias) taken taken := by
  by_cases hstop : w.old_fragments.stop gauge.len < range_start
  · obtain ⟨hconsumed, taken, hsuffix⟩ := consume_suffix_stitches timestamp content h
    have hsame : w.catch_up gauge.len range_start bias =
        ((w.consume_suffix gauge.len).atStart gauge).passAll gauge
          (sum_tree.slice_from gauge.len range_start bias
            ((w.consume_suffix gauge.len).old_fragments.start gauge.len)
            (w.consume_suffix gauge.len).old_fragments.rest).1
          (sum_tree.slice_from gauge.len range_start bias
            ((w.consume_suffix gauge.len).old_fragments.start gauge.len)
            (w.consume_suffix gauge.len).old_fragments.rest).2 := by
      rw [catch_up, if_pos hstop]
      simp [sum_tree.Cursor.slice, passAll, atStart]
      rfl
    have hpass := passAll_stitches timestamp content (w := (w.consume_suffix gauge.len).atStart gauge)
      (sum_tree.Cursor.slice_from_append gauge.len range_start bias
        ((w.consume_suffix gauge.len).old_fragments.start gauge.len)
        (w.consume_suffix gauge.len).old_fragments.rest).symm rfl
    have hcaught := slice_caught_up (w := (w.consume_suffix gauge.len).atStart gauge) bias
      (hconsumed.trans hstop.le) (hsuffix.total ▸ htotal)
    have hbefore : ∀ slice rest, slice = [] →
        (((w.consume_suffix gauge.len).atStart gauge).passAll gauge slice rest).fragment_start < range_start := by
      rintro slice rest rfl
      change _ + 0 < _
      exact hconsumed.trans_lt hstop
    rw [hsame]
    refine ⟨⟨hcaught.1, hcaught.2.1, Or.inr ⟨hcaught.2.2.1, fun hbias => ?_⟩⟩, _, hsuffix.trans hpass⟩
    exact (hcaught.2.2.2 hbias).elim id (hbefore _ _)
  · rw [catch_up, if_neg hstop]
    exact ⟨⟨hle, by omega, Or.inl rfl⟩, [], .refl w⟩

theorem push_prefix_stitches (timestamp : Lamport) (content : AtomId → UInt8) (h : w.Placed gauge)
    {range_start : Nat} (hle : w.fragment_start ≤ range_start)
    (hstop : range_start ≤ w.old_fragments.stop gauge.len) :
    ( w.push_prefix gauge.len range_start).fragment_start = range_start ∧
      ( w.push_prefix gauge.len range_start).old_fragments = w.old_fragments ∧
      ∃ taken, Stitches gauge timestamp content w ( w.push_prefix gauge.len range_start) taken taken ∧
        ∀ atom ∈ taken, gauge.obs atom = true := by
  by_cases hlt : w.fragment_start < range_start
  · have hstart := h.start_le
    obtain ⟨fragment, rest, hrest, hcounted⟩ :=
      exists_counted (by omega : w.old_fragments.start gauge.len < w.old_fragments.stop gauge.len)
    have hcut : Stitch gauge timestamp content w (w.cut gauge timestamp fragment range_start false) _ _ :=
      .cut false hrest hcounted h hlt hstop
    rw [part_atoms timestamp false hrest hcounted h hstop] at hcut
    have hsame : w.push_prefix gauge.len range_start = w.cut gauge timestamp fragment range_start false := by
      simp [ push_prefix, if_pos hlt, item_cons hrest, cut, part, intersection, push_fragment]
    rw [hsame]
    simp only [Bool.false_eq_true, if_false, List.map_id] at hcut
    refine ⟨rfl, rfl, _, .single hcut, fun atom hatom => ?_⟩
    exact (gauge.agree fragment atom (mem_atoms_of_take hrest hcounted h hstop atom hatom)).trans hcounted
  · rw [ push_prefix, if_neg hlt]
    exact ⟨by omega, rfl, [], .refl w, by simp⟩

theorem exists_last_of_part {fragment : Fragment} {rest : List Fragment} {part_end : Nat}
    (hrest : w.old_fragments.rest = fragment :: rest) (hcounted : gauge.counted fragment = true)
    (hplaced : w.Placed gauge) (hlt : w.fragment_start < part_end)
    (hle : part_end ≤ w.old_fragments.stop gauge.len) :
    ∃ front last, (w.leftAtoms gauge).take (part_end - w.fragment_start) = front ++ [last] ∧
      gauge.obs last = true := by
  have hlen : (w.part gauge fragment.timestamp fragment part_end false).atoms.length = _ :=
    congrArg List.length (part_atoms _ false hrest hcounted hplaced hle)
  rw [Fragment.atoms_length, List.length_map] at hlen
  rcases List.eq_nil_or_concat ((w.leftAtoms gauge).take (part_end - w.fragment_start)) with hnil | ⟨front, last, hsplit⟩
  · rw [hnil] at hlen
    have hpart : part_end - w.fragment_start = 0 := hlen
    omega
  · rw [List.concat_eq_append] at hsplit
    refine ⟨front, last, hsplit, ?_⟩
    exact (gauge.agree fragment last (mem_atoms_of_take hrest hcounted hplaced hle last (by simp [hsplit]))).trans
      hcounted

/-- A step of a deletion loop marks the atoms it takes, keeps what the loop
    relies on, and either advances the cursor or comes to the end of the range. -/
def Deletes (gauge : Gauge) (timestamp : Lamport) (content : AtomId → UInt8) (mark : Atom → Atom)
    (ok : Walk → Prop) (range_end : Nat) (body : Fragment → Walk → Walk) : Prop :=
  ∀ w fragment rest, w.old_fragments.rest = fragment :: rest → w.Placed gauge → ok w →
    w.fragment_start < range_end →
      ok (body fragment w) ∧ (body fragment w).fragment_start ≤ range_end ∧
        ((body fragment w).old_fragments.rest = rest ∨ (body fragment w).fragment_start = range_end) ∧
        ∃ taken, Stitches gauge timestamp content w (body fragment w) taken (taken.map mark) ∧
          ((body fragment w).fragment_start = w.fragment_start ∨
            ∃ front last, taken = front ++ [last] ∧ gauge.obs last = true)

theorem delete_loop_stitches {mark : Atom → Atom} {ok : Walk → Prop} {range_end : Nat}
    {body : Fragment → Walk → Walk} (hbody : Deletes gauge timestamp content mark ok range_end body)
    (fuel : Nat) (hplaced : w.Placed gauge) (hok : ok w) (hle : w.fragment_start ≤ range_end)
    (htotal : range_end ≤ w.total gauge)
    (hfuel : w.old_fragments.rest.length ≤ fuel ∨ w.fragment_start = range_end) :
    ok (delete_loop body range_end fuel w) ∧
      (delete_loop body range_end fuel w).fragment_start = range_end ∧
      ∃ taken, Stitches gauge timestamp content w (delete_loop body range_end fuel w) taken
        (taken.map mark) ∧ (taken = [] ∨ ∃ front last, taken = front ++ [last] ∧ gauge.obs last = true) := by
  have hstay : w.fragment_start = range_end → ok w ∧ w.fragment_start = range_end ∧
      ∃ taken, Stitches gauge timestamp content w w taken (taken.map mark) ∧
        (taken = [] ∨ ∃ front last, taken = front ++ [last] ∧ gauge.obs last = true) := fun heq =>
    ⟨hok, heq, [], .refl w, Or.inl rfl⟩
  have hend : w.old_fragments.rest = [] → w.fragment_start = range_end := by
    intro hnil
    have hstop := hplaced.le_stop
    have hstart := hplaced.start_le
    rw [stop_nil gauge hnil] at hstop
    rw [total_of_nil hnil] at htotal
    omega
  induction fuel generalizing w with
  | zero =>
    refine hstay (hfuel.elim (fun hlen => hend ?_) id)
    exact List.eq_nil_of_length_eq_zero (by omega)
  | succ fuel ih =>
    rw [delete_loop]
    cases hrest : w.old_fragments.rest with
    | nil =>
      have hitem : w.old_fragments.item = none := by simp [sum_tree.Cursor.item, hrest]
      rw [hitem]
      exact hstay (hend hrest)
    | cons fragment rest =>
      rw [item_cons hrest]
      dsimp only
      split
      · rename_i hlt
        obtain ⟨hok', hle', hprogress, taken, hstep, hlast⟩ := hbody w fragment rest hrest hplaced hok hlt
        have hplaced' := hstep.placed hplaced
        have htotal' := hstep.total ▸ htotal
        obtain ⟨hokLast, hstart, more, hmore, hmoreLast⟩ := ih hplaced' hok' hle' htotal' (by
          rw [hrest, List.length_cons] at hfuel
          rcases hprogress with hnext | heq
          · rw [hnext]
            omega
          · exact Or.inr heq) (fun heq => ⟨hok', heq, [], .refl _, Or.inl rfl⟩) (by
          intro hnil
          have hstop := hplaced'.le_stop
          have hstart := hplaced'.start_le
          rw [stop_nil gauge hnil] at hstop
          rw [total_of_nil hnil] at htotal'
          omega)
        refine ⟨hokLast, hstart, taken ++ more, ?_, ?_⟩
        · rw [List.map_append]
          exact hstep.trans hmore
        · -- only a step that moves on can be the last one
          rcases hmoreLast with rfl | ⟨front, last, rfl, hobs⟩
          · rcases hlast with hsame | ⟨front, last, rfl, hobs⟩
            · exfalso
              have hdone := (hmore.placed hplaced').fragment_start_eq
              rw [hmore.done, List.append_nil, ← hplaced'.fragment_start_eq, hstart, hsame] at hdone
              omega
            · exact Or.inr ⟨front, last, by simp, hobs⟩
          · exact Or.inr ⟨taken ++ front, last, by simp, hobs⟩
      · exact hstay (by omega)

theorem delete_range_stitches {mark : Atom → Atom} {ok : Walk → Prop} {range_end : Nat}
    {body : Fragment → Walk → Walk} (hbody : Deletes gauge timestamp content mark ok range_end body)
    (hplaced : w.Placed gauge) (hok : ok w) (hle : w.fragment_start ≤ range_end)
    (htotal : range_end ≤ w.total gauge) :
    ok (w.delete_range body range_end) ∧ (w.delete_range body range_end).fragment_start = range_end ∧
      ∃ taken, Stitches gauge timestamp content w (w.delete_range body range_end) taken (taken.map mark) ∧
        (taken = [] ∨ ∃ front last, taken = front ++ [last] ∧ gauge.obs last = true) :=
  delete_loop_stitches hbody w.old_fragments.rest.length hplaced hok hle htotal (Or.inl le_rfl)

end zed.text.Walk
