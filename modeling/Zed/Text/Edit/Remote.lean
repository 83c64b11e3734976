import Zed.Text.Stitch.Weft

namespace zed.text

open zed.clock zed.rope
open zed.replicated (Weft Loom CutsFrom weave)
def Atom.was_visible (atom : Atom) (version : Global) (undos : UndoMap) : Bool :=
  (version.observed atom.timestamp && !UndoMap.was_undone undos atom.timestamp version) &&
    atom.deletions.all fun deletion => !version.observed deletion || UndoMap.was_undone undos deletion version

/-- What a remote edit does to the atoms within its ranges. -/
def Atom.deleteObserved (version : Global) (undos : UndoMap) (timestamp : Lamport) (atom : Atom) : Atom :=
  if atom.was_visible version undos then atom.delete timestamp else atom

/-- A remote edit counts the atoms that its version saw, and goes after the
    insertions with a higher timestamp. -/
def remoteLoom (version : Global) (undos : UndoMap) (timestamp : Lamport) : Loom Atom :=
  { obs := fun atom => version.observed atom.timestamp
    above := fun atom => decide (timestamp < atom.timestamp)
    mark := Atom.deleteObserved version undos timestamp }

theorem Atom.deleteObserved_id (version : Global) (undos : UndoMap) (timestamp : Lamport) (atom : Atom) :
    (Atom.deleteObserved version undos timestamp atom).id = atom.id := by
  unfold Atom.deleteObserved
  split <;> rfl

theorem Fragment.was_visible_of_mem {fragment : Fragment} {atom : Atom} (h : atom ∈ fragment.atoms)
    (version : Global) (undos : UndoMap) :
    atom.was_visible version undos = fragment.was_visible version undos := by
  obtain ⟨htimestamp, -, hdeletions, -⟩ := atoms_eq_of_mem h
  rw [Atom.was_visible, Fragment.was_visible, htimestamp, hdeletions]

/-- A version has seen nothing that is not older than an edit made at it. -/
def Before (version : Global) (timestamp : Lamport) (xs : List Atom) : Prop :=
  ∀ atom ∈ xs, version.observed atom.timestamp = true → atom.timestamp < timestamp

theorem remoteLoom_fits {version : Global} {timestamp : Lamport} {xs : List Atom} (undos : UndoMap)
    (h : Before version timestamp xs) : (remoteLoom version undos timestamp).Fits xs := by
  refine ⟨fun atom hatom habove => ?_, fun atom _ hobs => ?_⟩
  · rw [← Bool.not_eq_true]
    intro hobs
    exact absurd (of_decide_eq_true habove) (not_lt.mpr (h atom hatom hobs).le)
  · have hunobserved : version.observed atom.timestamp = false := hobs
    simp [remoteLoom, Atom.deleteObserved, Atom.was_visible, hunobserved]

namespace Walk

variable {gauge : Gauge} {timestamp : Lamport} {content : AtomId → UInt8} {w : Walk}

/-- The walk stands at the start of a fragment or strictly within it. -/
def Tight (gauge : Gauge) (w : Walk) : Prop :=
  w.fragment_start = w.old_fragments.start gauge.len ∨ w.fragment_start < w.old_fragments.stop gauge.len

/-- The next atom belongs to the current fragment. -/
theorem Tight.head {fragment : Fragment} {rest : List Fragment} (h : w.Tight gauge) (hplaced : w.Placed gauge)
    (hrest : w.old_fragments.rest = fragment :: rest) (hpos : 0 < fragment.len) :
    ∀ atom ∈ (w.leftAtoms gauge).head?, atom ∈ fragment.atoms := by
  have hstart := hplaced.start_le
  have hend := stop_cons gauge hrest
  have hinto : w.into gauge = w.fragment_start - w.old_fragments.start gauge.len := rfl
  suffices hleft : w.leftAtoms gauge = fragment.atoms.drop (w.into gauge) ++ atoms rest ∧
      w.into gauge < fragment.len by
    intro atom hatom
    rw [hleft.1, List.head?_append_of_ne_nil _ (by
      rw [Ne, List.drop_eq_nil_iff, Fragment.atoms_length]
      omega)] at hatom
    exact List.mem_of_mem_drop (List.mem_of_mem_head? hatom)
  rcases h with hzero | hlt
  · rw [leftAtoms_of_start hzero, hrest, hinto, hzero, Nat.sub_self]
    exact ⟨rfl, hpos⟩
  · have hcounted : gauge.counted fragment = true := by
      rcases gauge.len_cases fragment with ⟨hcounted, _⟩ | ⟨_, hlen⟩
      · exact hcounted
      · omega
    have hlen : gauge.len fragment = fragment.len := if_pos hcounted
    exact ⟨leftAtoms_cons hrest hcounted hplaced, by omega⟩

def EndsObserved (gauge : Gauge) (taken : List Atom) : Prop :=
  taken = [] ∨ ∃ front last, taken = front ++ [last] ∧ gauge.obs last = true

end Walk

namespace BufferSnapshot

open Walk

variable {gauge : Gauge} {version : Global} {undos : UndoMap} {timestamp : Lamport}
  {content : AtomId → UInt8} {w : Walk}

theorem advance_stitches (timestamp : Lamport) (content : AtomId → UInt8) (h : w.Placed gauge) {range_start : Nat}
    (htight : w.Tight gauge) (hle : w.fragment_start ≤ range_start)
    (hstop : range_start ≤ w.old_fragments.stop gauge.len) :
    ∃ taken, Stitches gauge timestamp content w (advance gauge.len range_start w) taken taken ∧
      (advance gauge.len range_start w).Tight gauge ∧ EndsObserved gauge taken ∧
      ((advance gauge.len range_start w).fragment_start = range_start ∧
          (w.fragment_start < range_start → taken ≠ []) ∨
        (advance gauge.len range_start w).fragment_start < range_start ∧ taken = [] ∧
          range_start < (advance gauge.len range_start w).old_fragments.stop gauge.len) := by
  by_cases hend : w.old_fragments.stop gauge.len = range_start ∧
      w.old_fragments.stop gauge.len > w.fragment_start
  · have hstart := h.start_le
    obtain ⟨fragment, rest, hrest, hcounted⟩ :=
      exists_counted (by omega : w.old_fragments.start gauge.len < w.old_fragments.stop gauge.len)
    have hnext := start_next gauge hrest
    have hcons := stop_cons gauge hrest
    have hkeep : Stitch gauge timestamp content w (w.keepRest gauge fragment) _ _ :=
      .keepRest hrest hcounted h hend.2
    rw [suffix_atoms hrest hcounted h] at hkeep
    have hsame : advance gauge.len range_start w = w.keepRest gauge fragment := by
      rw [advance]
      dsimp only
      rw [if_pos hend, item_cons hrest]
      simp only [Walk.keepRest, Walk.next, push_fragment, hnext, hcons]
    have hlast := exists_last_of_part hrest hcounted h hend.2 le_rfl
    rw [hsame]
    refine ⟨_, .single hkeep, Or.inl ?_, Or.inr hlast, Or.inl ⟨hend.1, fun _ hnil => ?_⟩⟩
    · change w.old_fragments.stop gauge.len = w.old_fragments.next.start gauge.len
      omega
    · obtain ⟨front, last, hsplit, -⟩ := hlast
      rw [hnil] at hsplit
      simp at hsplit
  · have hsame : advance gauge.len range_start w = w := by
      simp only [advance, if_neg hend]
    rw [hsame]
    refine ⟨[], .refl w, htight, Or.inl rfl, ?_⟩
    rcases hle.lt_or_eq with hlt | heq
    · exact Or.inr ⟨hlt, rfl, by omega⟩
    · exact Or.inl ⟨heq, fun hlt => absurd heq hlt.ne⟩

theorem skip_concurrent_stitches (content : AtomId → UInt8) (range_start : Nat) (fuel : Nat)
    (hfresh : ∀ fragment ∈ w.old_fragments.rest, timestamp < fragment.timestamp →
      gauge.counted fragment = false)
    (h : w.Placed gauge) (htight : w.Tight gauge) :
    ∃ above, Stitches gauge timestamp content w (skip_concurrent timestamp range_start fuel w) above above ∧
      (skip_concurrent timestamp range_start fuel w).Tight gauge ∧
      (skip_concurrent timestamp range_start fuel w).fragment_start = w.fragment_start ∧
      (∀ atom ∈ above, timestamp < atom.timestamp ∧ gauge.obs atom = false) ∧
      (w.fragment_start = range_start → w.old_fragments.rest.length ≤ fuel →
        ∀ fragment ∈ (skip_concurrent timestamp range_start fuel w).old_fragments.rest.head?,
          ¬ timestamp < fragment.timestamp) ∧
      (w.fragment_start ≠ range_start → skip_concurrent timestamp range_start fuel w = w) := by
  induction fuel generalizing w with
  | zero =>
    refine ⟨[], .refl w, htight, rfl, by simp, fun _ hlength => ?_, fun _ => rfl⟩
    rw [skip_concurrent, List.eq_nil_of_length_eq_zero (Nat.le_zero.mp hlength)]
    simp
  | succ fuel ih =>
    cases hrest : w.old_fragments.rest with
    | nil =>
      have hsame : skip_concurrent timestamp range_start (fuel + 1) w = w := by
        simp [skip_concurrent, sum_tree.Cursor.item, hrest]
      rw [hsame]
      exact ⟨[], .refl w, htight, rfl, by simp, by simp [hrest], fun _ => rfl⟩
    | cons fragment rest =>
      rw [skip_concurrent, item_cons hrest]
      dsimp only
      split
      · rename_i hskip
        have hcounted := hfresh fragment (by simp [hrest]) hskip.2
        have hlen : gauge.len fragment = 0 := if_neg (by simp [hcounted])
        have hstart := h.start_le
        have hend := stop_cons gauge hrest
        have hnext := start_next gauge hrest
        have hfragmentStart : w.fragment_start = w.old_fragments.start gauge.len := by
          rcases htight with heq | hlt
          · exact heq
          · omega
        have hpass : Stitch gauge timestamp content w (w.pass gauge fragment false) fragment.atoms
            fragment.atoms := .pass false hrest hfragmentStart
        have hsame : w.pass gauge fragment false =
            { w with
              new_ropes := w.new_ropes.push_fragment fragment fragment.visible
              new_fragments := w.new_fragments ++ [fragment]
              old_fragments := w.old_fragments.next } := by
          simp [Walk.pass, hlen]
        rw [← hsame]
        have hpassRest : (w.pass gauge fragment false).old_fragments.rest = rest := by
          simp [Walk.pass, next_cons hrest]
        have hpassStart : (w.pass gauge fragment false).fragment_start = w.fragment_start := by
          simp [Walk.pass, hlen]
        obtain ⟨above, hstitches, htight', hstart', habove, hstop, hstay⟩ :=
          ih (w := w.pass gauge fragment false)
            (fun other hother => hfresh other (by rw [hrest]; exact List.mem_cons_of_mem _ (hpassRest ▸ hother)))
            hpass.placed (Or.inl (by
              rw [hpassStart]
              change w.fragment_start = w.old_fragments.next.start gauge.len
              omega))
        refine ⟨fragment.atoms ++ above, (Stitches.single hpass).trans hstitches, htight',
          hstart'.trans hpassStart, fun atom hatom => ?_, fun _ hlength => ?_, fun hne => absurd hskip.1 hne⟩
        · rcases List.mem_append.mp hatom with hatom | hatom
          · exact ⟨(Fragment.atoms_eq_of_mem hatom).1 ▸ hskip.2,
              (gauge.agree fragment atom hatom).trans hcounted⟩
          · exact habove atom hatom
        · refine hstop (hpassStart.trans hskip.1) ?_
          rw [hpassRest]
          simp only [List.length_cons] at hlength
          omega
      · rename_i hskip
        refine ⟨[], .refl w, htight, rfl, by simp, fun heq _ other hother hlt => hskip ⟨heq, ?_⟩, fun _ => rfl⟩
        rw [hrest, List.head?_cons, Option.mem_some_iff] at hother
        exact hother ▸ hlt

theorem reach_stitches {before : Walk} {edit : Range × Str} {edits : List (Range × Str)}
    (hplaced : before.Placed gauge) (htight : before.Tight gauge)
    (hpos : ∀ fragment ∈ before.old_fragments.rest, 0 < fragment.len)
    (hfresh : ∀ fragment ∈ before.old_fragments.rest, timestamp < fragment.timestamp →
      gauge.counted fragment = false)
    (harrives : Arrives gauge timestamp content .Left before w (edit :: edits)) :
    let reached := advance gauge.len edit.1.start (w.catch_up gauge.len edit.1.start .Left)
    let skipped := skip_concurrent timestamp edit.1.start reached.old_fragments.rest.length reached
    let placed := skipped.push_prefix gauge.len edit.1.start
    ∃ front above, Stitches gauge timestamp content before placed (front ++ above) (front ++ above) ∧
      EndsObserved gauge front ∧ (∀ atom ∈ above, timestamp < atom.timestamp ∧ gauge.obs atom = false) ∧
      placed.fragment_start = edit.1.start ∧ placed.Tight gauge ∧
      ∀ atom ∈ (placed.leftAtoms gauge).head?, ¬ timestamp < atom.timestamp := by
  obtain ⟨taken, hstitches, hcaught⟩ := harrives
  generalize hcaughtUp : w.catch_up gauge.len edit.1.start .Left = caught at hstitches hcaught
  have hcaughtTight : caught.Tight gauge := by
    rcases hcaught.moved with rfl | ⟨heq, -⟩
    · exact htight
    · exact Or.inl heq
  have htaken : taken = [] ∨ caught.fragment_start < edit.1.start := by
    rcases hcaught.moved with rfl | ⟨-, hlt⟩
    · exact Or.inl hstitches.taken_nil
    · exact Or.inr (hlt rfl)
  have hcaughtPlaced := hstitches.placed hplaced
  obtain ⟨more, hadvance, hadvanceTight, hends, hposition⟩ :=
    advance_stitches timestamp content hcaughtPlaced hcaughtTight hcaught.start_le hcaught.le_stop
  have hreached := hstitches.trans hadvance
  have hreachedPlaced := hreached.placed hplaced
  intro reached skipped placed
  change Stitches gauge timestamp content before reached (taken ++ more) (taken ++ more) at hreached
  change reached.Placed gauge at hreachedPlaced
  change reached.Tight gauge at hadvanceTight
  obtain ⟨above, hskip, hskipTight, hskipStart, habove, hskipStop, hskipStay⟩ :=
    skip_concurrent_stitches content edit.1.start reached.old_fragments.rest.length
      (fun fragment hfragment => hfresh fragment (hreached.mem_rest hfragment)) hreachedPlaced hadvanceTight
  rcases hposition with ⟨hstart, hne⟩ | ⟨hlt, hnil, hstop⟩
  · -- the walk is at the start of the range: nothing is left of a fragment before it
    have hplacedEq : placed = skipped := by
      have hnot : ¬ skipped.fragment_start < edit.1.start := by
        rw [hskipStart]
        exact hstart.not_lt
      simp only [placed, push_prefix, if_neg hnot]
    have hall := hreached.trans hskip
    rw [hplacedEq]
    refine ⟨taken ++ more, above, hall, ?_, habove, hskipStart.trans hstart, hskipTight, ?_⟩
    · rcases htaken with rfl | hlt
      · exact hends
      · rcases hends with rfl | ⟨front, last, rfl, hlast⟩
        · exact absurd rfl (hne hlt)
        · exact Or.inr ⟨taken ++ front, last, by simp, hlast⟩
    · intro atom hatom
      cases hrest : skipped.old_fragments.rest with
      | nil => simp [leftAtoms, hrest] at hatom
      | cons fragment rest =>
        have hmem := hskipTight.head (hall.placed hplaced) hrest
          (hpos fragment (hall.mem_rest (by rw [hrest]; exact List.mem_cons_self))) atom hatom
        rw [(Fragment.atoms_eq_of_mem hmem).1]
        exact hskipStop hstart le_rfl fragment (by rw [hrest]; rfl)
  · -- the range starts within a fragment, whose first part is kept
    have hskippedEq : skipped = reached := hskipStay hlt.ne
    obtain ⟨hprefixStart, hprefixSame, front, hkeptPart, hobserved⟩ :=
      push_prefix_stitches timestamp content hreachedPlaced hlt.le hstop.le
    have hplacedEq : placed = reached.push_prefix gauge.len edit.1.start := by
      simp only [placed, hskippedEq]
    rw [← hplacedEq] at hprefixStart hprefixSame hkeptPart
    have hall := hreached.trans hkeptPart
    have hallPlaced := hall.placed hplaced
    have hplacedTight : placed.Tight gauge := by
      refine Or.inr ?_
      rw [hprefixStart, hprefixSame]
      exact hstop
    refine ⟨taken ++ more ++ front, [], by simpa using hall, ?_, by simp, hprefixStart, hplacedTight, ?_⟩
    · have hfront : front ≠ [] := by
        rintro rfl
        have hcount := hallPlaced.fragment_start_eq
        rw [hkeptPart.done, List.append_nil, ← hreachedPlaced.fragment_start_eq, hprefixStart] at hcount
        exact hlt.ne hcount.symm
      rcases List.eq_nil_or_concat front with hnil | ⟨init, last, hsplit⟩
      · exact absurd hnil hfront
      · rw [List.concat_eq_append] at hsplit
        refine Or.inr ⟨taken ++ more ++ init, last, by simp [hsplit], hobserved last (by simp [hsplit])⟩
    · intro atom hatom habove
      have hleft : placed.old_fragments.start gauge.len < placed.old_fragments.stop gauge.len := by
        rw [hprefixSame]
        exact (hreachedPlaced.start_le.trans hlt.le).trans_lt hstop
      obtain ⟨fragment, rest, hrest, hcounted⟩ := exists_counted hleft
      have hfragment : fragment ∈ before.old_fragments.rest :=
        hall.mem_rest (by rw [hrest]; exact List.mem_cons_self)
      have hmem := hplacedTight.head hallPlaced hrest (hpos fragment hfragment) atom hatom
      rw [(Fragment.atoms_eq_of_mem hmem).1] at habove
      exact Bool.false_ne_true ((hfresh fragment hfragment habove).symm.trans hcounted)

private theorem delete_observed_cut {fragment : Fragment} {range_end : Nat}
    (hobserved : version.observed fragment.timestamp = true) (hlt : w.fragment_start < range_end)
    (hleft : w.fragment_start < w.old_fragments.stop (Fragment.versioned_len version))
    (hitem : w.old_fragments.item = some fragment) :
    delete_observed version undos timestamp range_end fragment w =
      let part_end := min range_end (w.old_fragments.stop (Fragment.versioned_len version))
      let marked := w.cut (Gauge.versioned version) timestamp fragment part_end
        (fragment.was_visible version undos)
      if w.old_fragments.stop (Fragment.versioned_len version) ≤ range_end then marked.next else marked := by
  have hpart : 0 < min range_end (w.old_fragments.stop (Fragment.versioned_len version)) - w.fragment_start := by
    omega
  cases hwas : fragment.was_visible version undos with
  | false =>
    simp [delete_observed, hobserved, hwas, Walk.cut, part, intersection, push_fragment, Gauge.versioned_len,
      hpart]
  | true =>
    cases hvisible : fragment.visible with
    | false =>
      simp [delete_observed, hobserved, hwas, hvisible, Walk.cut, part, intersection, push_fragment,
        Gauge.versioned_len, hpart]
    | true =>
      simp [delete_observed, hobserved, hwas, hvisible, Walk.cut, part, intersection, push_fragment,
        Gauge.versioned_len, hpart, old_start, hitem]

theorem delete_observed_deletes (version : Global) (undos : UndoMap) (timestamp : Lamport)
    (content : AtomId → UInt8) (range_end : Nat) :
    Deletes (Gauge.versioned version) timestamp content (Atom.deleteObserved version undos timestamp)
      (fun w => (∀ fragment ∈ w.old_fragments.rest, 0 < fragment.len) ∧ w.Tight (Gauge.versioned version))
      range_end (delete_observed version undos timestamp range_end) := by
  rintro w fragment rest hrest hplaced ⟨hpos, htight⟩ hlt
  have hstart := hplaced.start_le
  have hstop := hplaced.le_stop
  have hend := stop_cons (Gauge.versioned version) hrest
  have hnextStart := start_next (Gauge.versioned version) hrest
  have hrestPos : ∀ other ∈ rest, 0 < other.len := fun other hother => hpos other (by simp [hrest, hother])
  have hfragmentPos := hpos fragment (by simp [hrest])
  have hmarked : ∀ atom ∈ fragment.atoms, Atom.deleteObserved version undos timestamp atom =
      if fragment.was_visible version undos then atom.delete timestamp else atom := fun atom hatom => by
    rw [Atom.deleteObserved, Fragment.was_visible_of_mem hatom]
  cases hobserved : version.observed fragment.timestamp with
  | false =>
    -- a fragment that the version did not see is kept
    have hlen : (Gauge.versioned version).len fragment = 0 := if_neg (by simp [Gauge.versioned, hobserved])
    have hwas : fragment.was_visible version undos = false := by simp [Fragment.was_visible, hobserved]
    have hfragmentStart : w.fragment_start = w.old_fragments.start (Gauge.versioned version).len := by omega
    have hpass : Stitch (Gauge.versioned version) timestamp content w
        (w.pass (Gauge.versioned version) fragment true) fragment.atoms fragment.atoms :=
      .pass true hrest hfragmentStart
    have hsame : delete_observed version undos timestamp range_end fragment w =
        w.pass (Gauge.versioned version) fragment true := by
      have hdone : w.old_fragments.stop (Fragment.versioned_len version) = w.fragment_start := by
        rw [Gauge.versioned_len] at hend hlen hfragmentStart
        omega
      simp [delete_observed, hobserved, hfragmentPos, hdone, hlt.le, Walk.pass, Walk.next, push_fragment, hlen]
    have hmark : fragment.atoms.map (Atom.deleteObserved version undos timestamp) = fragment.atoms := by
      refine (List.map_congr_left fun atom hatom => ?_).trans (List.map_id _)
      rw [hmarked atom hatom, hwas]
      rfl
    have hpassRest : (w.pass (Gauge.versioned version) fragment true).old_fragments.rest = rest := by
      simp [Walk.pass, next_cons hrest]
    have hpassStart : (w.pass (Gauge.versioned version) fragment true).fragment_start = w.fragment_start := by
      simp [Walk.pass, hlen]
    rw [hsame]
    refine ⟨⟨fun other hother => hrestPos other (hpassRest ▸ hother), Or.inl ?_⟩, ?_, Or.inl hpassRest,
      fragment.atoms, ?_, Or.inl hpassStart⟩
    · rw [hpassStart]
      change w.fragment_start = w.old_fragments.next.start (Gauge.versioned version).len
      omega
    · omega
    · rw [hmark]
      exact .single hpass
  | true =>
    have hcounted : (Gauge.versioned version).counted fragment = true := hobserved
    have hlen : (Gauge.versioned version).len fragment = fragment.len := if_pos hcounted
    have hleft : w.fragment_start < w.old_fragments.stop (Gauge.versioned version).len := by
      rcases htight with heq | hlt
      · omega
      · exact hlt
    have hle : min range_end (w.old_fragments.stop (Fragment.versioned_len version)) ≤
        w.old_fragments.stop (Gauge.versioned version).len := Nat.min_le_right _ _
    have hpart : w.fragment_start < min range_end (w.old_fragments.stop (Fragment.versioned_len version)) :=
      lt_min hlt hleft
    have hmem := mem_atoms_of_take hrest hcounted hplaced hle
    have hcut : Stitch (Gauge.versioned version) timestamp content w
        (w.cut (Gauge.versioned version) timestamp fragment
          (min range_end (w.old_fragments.stop (Fragment.versioned_len version)))
          (fragment.was_visible version undos)) _ _ :=
      .cut (fragment.was_visible version undos) hrest hcounted hplaced hpart hle
    have hmark : ∀ atom ∈ (w.leftAtoms (Gauge.versioned version)).take
        (min range_end (w.old_fragments.stop (Fragment.versioned_len version)) - w.fragment_start),
        (if fragment.was_visible version undos = true then Atom.delete timestamp else id) atom =
          Atom.deleteObserved version undos timestamp atom := by
      intro atom hatom
      rw [hmarked atom (hmem atom hatom)]
      split <;> rfl
    rw [part_atoms timestamp _ hrest hcounted hplaced hle, List.map_congr_left hmark] at hcut
    have hlast := exists_last_of_part hrest hcounted hplaced hpart hle
    have hnext : w.next.old_fragments.rest = rest := by simp [Walk.next, next_cons hrest]
    rw [delete_observed_cut hobserved hlt hleft (item_cons hrest)]
    dsimp only
    generalize hmarkedWalk : w.cut (Gauge.versioned version) timestamp fragment
      (min range_end (w.old_fragments.stop (Fragment.versioned_len version)))
      (fragment.was_visible version undos) = marked at hcut ⊢
    have hfragments : marked.old_fragments = w.old_fragments := by rw [← hmarkedWalk]; rfl
    have hmarkedStart : marked.fragment_start =
        min range_end (w.old_fragments.stop (Fragment.versioned_len version)) := by rw [← hmarkedWalk]; rfl
    split
    · rename_i hrange
      have hmove : Stitch (Gauge.versioned version) timestamp content marked marked.next [] [] :=
        .next (hfragments ▸ hrest) hcounted (by
          rw [hmarkedStart, hfragments]
          exact Nat.min_eq_right hrange)
      have hmovedRest : marked.next.old_fragments.rest = rest := by
        rw [Walk.next, hfragments]
        exact hnext
      refine ⟨⟨fun other hother => hrestPos other (hmovedRest ▸ hother), Or.inl ?_⟩, ?_, Or.inl hmovedRest, _,
        by simpa using (Stitches.single hcut).tail hmove, Or.inr hlast⟩
      · change marked.fragment_start = marked.old_fragments.next.start (Gauge.versioned version).len
        rw [hmarkedStart, hfragments, hnextStart, ← hend]
        exact Nat.min_eq_right hrange
      · change marked.fragment_start ≤ range_end
        rw [hmarkedStart]
        exact Nat.min_le_left _ _
    · rename_i hrange
      have hrange' := not_le.mp hrange
      refine ⟨⟨fun other hother => hpos other (hfragments ▸ hother), Or.inr ?_⟩, ?_, Or.inr ?_, _, .single hcut,
        Or.inr hlast⟩
      · rw [hmarkedStart, hfragments, Nat.min_eq_left hrange'.le]
        exact hrange'
      · rw [hmarkedStart]
        exact Nat.min_le_left _ _
      · rw [hmarkedStart]
        exact Nat.min_eq_left hrange'.le

/-- What one iteration of the loop does. -/
structure RemoteRange (version : Global) (undos : UndoMap) (timestamp : Lamport) (content : AtomId → UInt8)
    (edit : Range × Str) (before after : Walk) (taken given : List Atom) : Prop where
  stitches : Stitches (Gauge.versioned version) timestamp content before after taken given
  tight : after.Tight (Gauge.versioned version)
  stop_eq : after.fragment_start = edit.1.stop
  offset_eq : after.insertion_offset = before.insertion_offset + (utf8 edit.2).length
  weft_eq : after.weft (Gauge.versioned version) (remoteLoom version undos timestamp).obs =
    (before.weft (Gauge.versioned version) (remoteLoom version undos timestamp).obs).step
      (remoteLoom version undos timestamp)
      { start := edit.1.start
        stop := edit.1.stop
        block := insertedAtoms timestamp before.insertion_offset (utf8 edit.2).length }

theorem apply_remote_range_spec (undos : UndoMap) {before : Walk} {edit : Range × Str} {edits : List (Range × Str)}
    (hplaced : before.Placed (Gauge.versioned version)) (htight : before.Tight (Gauge.versioned version))
    (hpos : ∀ fragment ∈ before.old_fragments.rest, 0 < fragment.len)
    (hseen : ∀ fragment ∈ before.old_fragments.rest, version.observed fragment.timestamp = true →
      fragment.timestamp < timestamp)
    (harrives : Arrives (Gauge.versioned version) timestamp content .Left before w (edit :: edits))
    (hrange : edit.1.start ≤ edit.1.stop) (htotal : edit.1.stop ≤ before.total (Gauge.versioned version))
    (hcontent : bytes content (insertedAtoms timestamp before.insertion_offset (utf8 edit.2).length) =
      utf8 edit.2) :
    ∃ taken given, RemoteRange version undos timestamp content edit before
      (apply_remote_range version undos timestamp w edit) taken given := by
  have hfresh : ∀ fragment ∈ before.old_fragments.rest, timestamp < fragment.timestamp →
      (Gauge.versioned version).counted fragment = false := by
    intro fragment hfragment hlt
    rw [← Bool.not_eq_true]
    exact fun hcounted => absurd hlt (not_lt.mpr (hseen fragment hfragment hcounted).le)
  obtain ⟨front, above, hreach, hfront, habove, hstart, hreachTight, hhead⟩ :=
    reach_stitches hplaced htight hpos hfresh harrives
  have happly : apply_remote_range version undos timestamp w edit =
      let reached := advance (Gauge.versioned version).len edit.1.start
        (w.catch_up (Gauge.versioned version).len edit.1.start .Left)
      let skipped := skip_concurrent timestamp edit.1.start reached.old_fragments.rest.length reached
      let placed := skipped.push_prefix (Gauge.versioned version).len edit.1.start
      (placed.push_insertion (placed.old_start (Gauge.versioned version).len) edit.2 timestamp).delete_range
        (delete_observed version undos timestamp edit.1.stop) edit.1.stop := rfl
  rw [happly]
  dsimp only
  generalize hp : push_prefix (Gauge.versioned version).len edit.1.start _ = p at hreach hstart hreachTight hhead ⊢
  have hpPlaced := hreach.placed hplaced
  have hoffset : p.insertion_offset = before.insertion_offset := by
    have := hreach.insertion_offset
    omega
  have hinsert : Stitch (Gauge.versioned version) timestamp content p
      (p.push_insertion (p.old_start (Gauge.versioned version).len) edit.2 timestamp) []
      (insertedAtoms timestamp p.insertion_offset (utf8 edit.2).length) :=
    .insert edit.2 hpPlaced (by rwa [hoffset])
  obtain ⟨hqstart, hqsame⟩ := push_insertion_position (p.old_start (Gauge.versioned version).len) edit.2
    timestamp p
  generalize p.push_insertion (p.old_start (Gauge.versioned version).len) edit.2 timestamp = q at *
  have hinserted := hreach.tail hinsert
  have hqTight : q.Tight (Gauge.versioned version) := by
    rw [Tight, hqstart, hqsame]
    exact hreachTight
  obtain ⟨⟨-, hlastTight⟩, hstop, marked, hmarked, hmarkedEnds⟩ := delete_range_stitches
    (delete_observed_deletes version undos timestamp content edit.1.stop) hinsert.placed
    ⟨fun fragment hfragment => hpos fragment (hinserted.mem_rest hfragment), hqTight⟩ (by omega)
    (hinserted.total ▸ htotal)
  generalize q.delete_range (delete_observed version undos timestamp edit.1.stop) edit.1.stop = last at *
  have hall := hinserted.trans hmarked
  rw [hoffset] at hall
  have hlastOffset : last.insertion_offset = before.insertion_offset + (utf8 edit.2).length := by
    have := hall.insertion_offset
    simp only [List.length_append, List.length_map, insertedAtoms, List.length_range, List.length_nil] at this
    omega
  have hleft : p.leftAtoms (Gauge.versioned version) = marked ++ last.leftAtoms (Gauge.versioned version) := by
    rw [hinsert.left, hmarked.left]
    rfl
  have hpieces : Stitches (Gauge.versioned version) timestamp content before last (front ++ (above ++ marked))
      (front ++ (above ++ (insertedAtoms timestamp before.insertion_offset (utf8 edit.2).length ++
        marked.map (Atom.deleteObserved version undos timestamp)))) := by
    simpa only [List.append_nil, List.append_assoc] using hall
  have hstep := hpieces.weft_step (remoteLoom version undos timestamp) above hfront
    (fun atom hatom => ⟨decide_eq_true (habove atom hatom).1, (habove atom hatom).2⟩)
    (fun atom hatom => decide_eq_false (hhead atom (hleft ▸ hatom))) hmarkedEnds
  have hnone : above.filter (remoteLoom version undos timestamp).obs = [] := by
    rw [List.filter_eq_nil_iff]
    exact fun atom hatom => Bool.eq_false_iff.mp (habove atom hatom).2
  have hfrontCount : (before.weft (Gauge.versioned version) (remoteLoom version undos timestamp).obs).pos +
      (front.filter (remoteLoom version undos timestamp).obs).length = edit.1.start := by
    have hcount := hpPlaced.fragment_start_eq
    rw [hreach.done, hstart, ← List.append_assoc, List.filter_append, List.filter_append] at hcount
    have hnone' : above.filter (Gauge.versioned version).obs = [] := hnone
    rw [hnone', List.append_nil, List.length_append] at hcount
    exact hcount.symm
  have hmarkedCount : edit.1.start + (marked.filter (remoteLoom version undos timestamp).obs).length =
      edit.1.stop := by
    have hcount := (hmarked.placed hinsert.placed).fragment_start_eq
    rw [hmarked.done, hstop, List.filter_append, List.length_append, ← hinsert.placed.fragment_start_eq,
      hqstart, hstart] at hcount
    exact hcount.symm
  rw [hfrontCount, hmarkedCount] at hstep
  exact ⟨_, _, hall, hlastTight, hstop, hlastOffset, hstep⟩

/-- What the loop over the ranges does. -/
theorem foldl_apply_remote_range (undos : UndoMap) {edits : List (Range × Str)} {before : Walk}
    (hplaced : before.Placed (Gauge.versioned version)) (htight : before.Tight (Gauge.versioned version))
    (hpos : ∀ fragment ∈ before.old_fragments.rest, 0 < fragment.len)
    (hseen : ∀ fragment ∈ before.old_fragments.rest, version.observed fragment.timestamp = true →
      fragment.timestamp < timestamp)
    (harrives : Arrives (Gauge.versioned version) timestamp content .Left before w edits)
    (hcuts : CutsFrom (before.total (Gauge.versioned version)) before.fragment_start
      (cutsOf timestamp before.insertion_offset edits))
    (hcontent : Inserts content timestamp before.insertion_offset (edits.map Prod.snd)) :
    ∃ taken given,
      let result := edits.foldl (apply_remote_range version undos timestamp) w
      Stitches (Gauge.versioned version) timestamp content before result taken given ∧
        result.weft (Gauge.versioned version) (remoteLoom version undos timestamp).obs =
          (cutsOf timestamp before.insertion_offset edits).foldl
            (Weft.step (remoteLoom version undos timestamp))
            (before.weft (Gauge.versioned version) (remoteLoom version undos timestamp).obs) := by
  induction edits generalizing before w with
  | nil =>
    have hsame : w = before := harrives
    rw [List.foldl_nil, hsame]
    exact ⟨[], [], .refl before, rfl⟩
  | cons edit edits ih =>
    obtain ⟨hstart, hrange, hrest⟩ := hcuts
    obtain ⟨htext, htexts⟩ := hcontent
    obtain ⟨taken, given, hremote⟩ := apply_remote_range_spec undos hplaced htight hpos hseen harrives
      hrange hrest.le htext
    obtain ⟨hstitches, htight', hstopEq, hoffset, hweft⟩ := hremote
    have htotal := hstitches.total
    have hafterPlaced := hstitches.placed hplaced
    rw [List.foldl_cons]
    generalize apply_remote_range version undos timestamp w edit = after at *
    have hafterCuts : CutsFrom (after.total (Gauge.versioned version)) after.fragment_start
        (cutsOf timestamp after.insertion_offset edits) := by
      rw [htotal, hstopEq, hoffset]
      exact hrest
    obtain ⟨more, moreGiven, hfold, hweftFold⟩ := ih hafterPlaced htight'
      (fun fragment hfragment => hpos fragment (hstitches.mem_rest hfragment))
      (fun fragment hfragment => hseen fragment (hstitches.mem_rest hfragment))
      (arrives_self timestamp content .Left hafterPlaced (by
        cases edits with
        | nil => simp
        | cons next edits => simpa using ⟨hafterCuts.1, hafterCuts.2.1.trans hafterCuts.2.2.le⟩))
      hafterCuts (by rw [hoffset]; exact htexts)
    refine ⟨_, _, hstitches.trans hfold, ?_⟩
    rw [hweftFold, hweft, hoffset]
    rfl

/-- A remote edit weaves its insertions into the atoms at the full offsets of its
    version. -/
structure RemoteEdit (content : AtomId → UInt8) (edited : Lamport → Prop) (snapshot : BufferSnapshot)
    (edit : EditOperation) : Prop where
  store : (snapshot.apply_remote_edit edit.version edit.ranges edit.new_text edit.timestamp).1.Store content edited
  same : SameOutside snapshot
    (snapshot.apply_remote_edit edit.version edit.ranges edit.new_text edit.timestamp).1
  patch : (snapshot.apply_remote_edit edit.version edit.ranges edit.new_text edit.timestamp).2.Takes
    snapshot.visible_text
    (snapshot.apply_remote_edit edit.version edit.ranges edit.new_text edit.timestamp).1.visible_text
  atoms : atoms (snapshot.apply_remote_edit edit.version edit.ranges edit.new_text edit.timestamp).1.fragments =
    weave (remoteLoom edit.version snapshot.undo_map edit.timestamp)
      (cutsOf edit.timestamp 0 (edit.ranges.zip edit.new_text)) (atoms snapshot.fragments)

theorem apply_remote_edit_spec {edited : Lamport → Prop} {snapshot : BufferSnapshot} {edit : EditOperation}
    (hstore : snapshot.Store content edited) (hlength : edit.ranges.length = edit.new_text.length)
    (hcuts : CutsFrom ((atoms snapshot.fragments).filter fun atom => edit.version.observed atom.timestamp).length
      0 (cutsOf edit.timestamp 0 (edit.ranges.zip edit.new_text)))
    (hseen : Before edit.version edit.timestamp (atoms snapshot.fragments))
    (hfresh : ∀ atom ∈ atoms snapshot.fragments, atom.timestamp ≠ edit.timestamp)
    (hcontent : Inserts content edit.timestamp 0 edit.new_text) : RemoteEdit content edited snapshot edit := by
  obtain ⟨timestamp, version, ranges, new_text⟩ := edit
  dsimp only at *
  cases ranges with
  | nil =>
    have hkeep := (Patch.Leads.nil (β := UInt8)).keep snapshot.visible_text
    exact ⟨hstore, ⟨rfl, rfl, rfl, rfl⟩, hkeep.takes, rfl⟩
  | cons range ranges =>
    cases new_text with
    | nil => simp at hlength
    | cons text new_text =>
      have htotal := (Gauge.versioned version).atoms_length snapshot.fragments
      have hfragment : ∀ fragment ∈ snapshot.fragments, version.observed fragment.timestamp = true →
          fragment.timestamp < timestamp := by
        intro fragment hmem hobserved
        have hatom : fragment.atom 0 ∈ atoms snapshot.fragments :=
          List.mem_flatMap.mpr ⟨fragment, hmem, Fragment.mem_atoms.mpr ⟨0, hstore.len_pos fragment hmem, rfl⟩⟩
        exact hseen _ hatom hobserved
      have hcuts' := hcuts
      rw [show (fun atom : Atom => version.observed atom.timestamp) = (Gauge.versioned version).obs from rfl,
        htotal] at hcuts'
      have hinitial := initial_placed (Gauge.versioned version) snapshot.fragments snapshot.visible_text
        snapshot.deleted_text
      have harrives := arrives_start timestamp content (Gauge.versioned version) .Left snapshot.fragments
        snapshot.visible_text snapshot.deleted_text (range, text) (ranges.zip new_text)
        (hcuts'.2.1.trans hcuts'.2.2.le)
      rw [← List.zip_cons_cons] at harrives
      have htexts : ((range :: ranges).zip (text :: new_text)).map Prod.snd = text :: new_text :=
        List.map_snd_zip (by simpa using hlength.ge)
      obtain ⟨taken, given, hstitches, hweft⟩ := foldl_apply_remote_range snapshot.undo_map hinitial (Or.inl rfl) hstore.len_pos hfragment
        harrives hcuts' (by rw [htexts]; exact hcontent)
      generalize hfold : ((range :: ranges).zip (text :: new_text)).foldl _ _ = result at hstitches hweft
      have happly : snapshot.apply_remote_edit version (range :: ranges) (text :: new_text) timestamp =
          snapshot.finish_edit (Gauge.versioned version).len result := by
        rw [← hfold]
        rfl
      have hatoms : given ++ result.leftAtoms (Gauge.versioned version) =
          weave (remoteLoom version snapshot.undo_map timestamp)
            (cutsOf timestamp 0 ((range :: ranges).zip (text :: new_text))) (atoms snapshot.fragments) := by
        have hfinish := congrArg Weft.finish hweft
        rw [weft_initial, weft, Weft.finish, hstitches.new] at hfinish
        exact hfinish
      obtain ⟨hresult, hpatch, hresultAtoms⟩ := finish_edit_spec hstore hstitches (by
        rw [hatoms]
        exact weave_nodup (remoteLoom_fits snapshot.undo_map hseen)
          (fun atom _ => Atom.deleteObserved_id version snapshot.undo_map timestamp atom) hfresh hcuts
          hstore.nodup)
      refine ⟨?_, ?_, ?_, ?_⟩
      · rw [happly]
        exact hresult
      · rw [happly]
        exact ⟨rfl, rfl, rfl, rfl⟩
      · rw [happly]
        exact hpatch
      · rw [happly]
        exact hresultAtoms.trans hatoms

end BufferSnapshot

end zed.text
