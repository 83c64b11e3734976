import Zed.Text.Anchor
import Zed.Text.Network.State

namespace zed.sum_tree

variable {T K : Type} [LinearOrder K] [KeyedItem T K]

theorem find_with_prev_from_append {target : K} {bias : Bias} {passed rest : List T}
    (hpassed : ∀ x ∈ passed, ¬ (target < key x ∨ target = key x ∧ bias = .Left)) (prev : Option T) :
    find_with_prev_from target bias prev (passed ++ rest) =
      find_with_prev_from target bias (passed.getLast?.or prev) rest := by
  induction passed generalizing prev with
  | nil => rfl
  | cons x passed ih =>
    rw [List.cons_append, find_with_prev_from, if_neg (hpassed x List.mem_cons_self),
      ih fun y hy => hpassed y (List.mem_cons_of_mem _ hy)]
    cases passed with
    | nil => rfl
    | cons y passed =>
      rw [List.getLast?_cons_cons, List.getLast?_eq_some_getLast (List.cons_ne_nil y passed)]
      rfl

end zed.sum_tree

namespace zed.text

open zed.clock zed.rope
open zed.sum_tree (Bias Sorted)

/-- The last split point that is not past an anchor. A left anchor belongs to the
    piece that ends at it, unless it is at the start of the insertion. -/
def Anchor.reach (anchor : Anchor) : Nat :=
  if anchor.bias = .Left ∧ anchor.offset > 0 then anchor.offset - 1 else anchor.offset

theorem Anchor.reach_le (anchor : Anchor) : anchor.reach ≤ anchor.offset := by
  unfold reach
  split <;> omega

/-- Where the search for an anchor looks. -/
def Anchor.key (anchor : Anchor) : InsertionFragmentKey :=
  { timestamp := anchor.timestamp, split_offset := anchor.offset }

/-- The greatest key that a piece of an anchor may have. -/
def Anchor.reachKey (anchor : Anchor) : InsertionFragmentKey :=
  { timestamp := anchor.timestamp, split_offset := anchor.reach }

variable {snapshot : BufferSnapshot} {anchor : Anchor}

theorem Anchor.reachKey_le (anchor : Anchor) : anchor.reachKey ≤ anchor.key :=
  InsertionFragmentKey.le_iff.mpr (Or.inr ⟨rfl, anchor.reach_le⟩)

theorem Anchor.stops_of_reachKey_lt {key : InsertionFragmentKey} (h : anchor.reachKey < key) :
    anchor.key < key ∨ anchor.bias = .Left ∧ key = anchor.key ∧ anchor.offset > 0 := by
  by_cases hleft : anchor.bias = .Left ∧ anchor.offset > 0
  · have hreach : anchor.reach = anchor.offset - 1 := if_pos hleft
    have hnot : ¬ key < anchor.key := by
      intro hlt
      apply (not_le_of_gt h)
      obtain hearlier | ⟨hsame, hoffset⟩ := InsertionFragmentKey.lt_iff.mp hlt
      · exact InsertionFragmentKey.le_iff.mpr (Or.inl hearlier)
      · refine InsertionFragmentKey.le_iff.mpr (Or.inr ⟨hsame, ?_⟩)
        change key.split_offset ≤ anchor.reach
        change key.split_offset < anchor.offset at hoffset
        omega
    obtain hlt | heq := lt_or_eq_of_le (not_lt.mp hnot)
    · exact Or.inl hlt
    · exact Or.inr ⟨hleft.1, heq.symm, hleft.2⟩
  · have hreach : anchor.reachKey = anchor.key := by rw [reachKey, reach, if_neg hleft, Anchor.key]
    exact Or.inl (hreach ▸ h)

theorem Anchor.stays_of_le_reachKey {key : InsertionFragmentKey} (h : key ≤ anchor.reachKey) :
    ¬ (anchor.key < key ∨ anchor.bias = .Left ∧ key = anchor.key ∧ anchor.offset > 0) := by
  rintro (hlt | ⟨hbias, rfl, hoffset⟩)
  · exact absurd (h.trans anchor.reachKey_le) (not_le_of_gt hlt)
  · have hreach : anchor.reach = anchor.offset - 1 := if_pos ⟨hbias, hoffset⟩
    obtain hlt | ⟨-, hle⟩ := InsertionFragmentKey.le_iff.mp h
    · exact lt_irrefl _ hlt
    · change anchor.offset ≤ anchor.reach at hle
      omega

theorem BufferSnapshot.try_find_fragment_eq (hsorted : Sorted snapshot.insertions) {insertion : InsertionFragment}
    (hmem : insertion ∈ snapshot.insertions) (hle : insertion.key ≤ anchor.reachKey)
    (hgreatest : ∀ other ∈ snapshot.insertions, other.key ≤ anchor.reachKey → other.key ≤ insertion.key) :
    snapshot.try_find_fragment anchor = some insertion := by
  obtain ⟨before, after, hsplit⟩ := List.append_of_mem hmem
  rw [hsplit, Sorted, List.pairwise_append, List.pairwise_cons] at hsorted
  obtain ⟨-, ⟨hafter, -⟩, hbefore⟩ := hsorted
  have hpassed : ∀ other : InsertionFragment, other.key < anchor.reachKey →
      ¬ (anchor.key < other.key ∨ anchor.key = other.key ∧ anchor.bias = .Left) := by
    rintro other hlt (hpast | ⟨heq, -⟩)
    · exact absurd (hlt.le.trans anchor.reachKey_le) (not_le_of_gt hpast)
    · exact absurd (heq ▸ anchor.reachKey_le) (not_le_of_gt hlt)
  have hpassedBefore : ∀ other ∈ before,
      ¬ (anchor.key < other.key ∨ anchor.key = other.key ∧ anchor.bias = .Left) := fun other hother =>
    hpassed other ((hbefore other hother insertion List.mem_cons_self).trans_le hle)
  have hpastAfter : ∀ other ∈ after, anchor.reachKey < other.key := fun other hother => by
    by_contra hnot
    have hother' := hgreatest other (hsplit ▸ List.mem_append_right _ (List.mem_cons_of_mem _ hother)) (not_lt.mp hnot)
    exact absurd (hafter other hother) (not_lt_of_ge hother')
  have hfind : sum_tree.find_with_prev snapshot.insertions anchor.key anchor.bias =
      sum_tree.find_with_prev_from anchor.key anchor.bias (before.getLast?.or none) (insertion :: after) := by
    rw [sum_tree.find_with_prev, hsplit]
    exact sum_tree.find_with_prev_from_append hpassedBefore none
  rw [Anchor.key] at hfind
  rw [BufferSnapshot.try_find_fragment, hfind, sum_tree.find_with_prev_from]
  split
  · rename_i prev found hstop
    split at hstop
    · -- the search stops at the piece itself
      cases hstop
      exact if_neg (Anchor.stays_of_le_reachKey hle)
    · cases after with
      | nil => cases hstop
      | cons other after =>
        have hpast := Anchor.stops_of_reachKey_lt (hpastAfter other List.mem_cons_self)
        rw [sum_tree.find_with_prev_from, if_pos] at hstop
        · cases hstop
          exact if_pos hpast
        · obtain hlt | ⟨hbias, heq, -⟩ := hpast
          · exact Or.inl hlt
          · exact Or.inr ⟨heq.symm, hbias⟩
  · rename_i hstop
    split at hstop
    · cases hstop
    · cases after with
      | nil =>
        rw [hsplit]
        simp
      | cons other after =>
        have hpast := Anchor.stops_of_reachKey_lt (hpastAfter other List.mem_cons_self)
        rw [sum_tree.find_with_prev_from, if_pos] at hstop
        · cases hstop
        · obtain hlt | ⟨hbias, heq, -⟩ := hpast
          · exact Or.inl hlt
          · exact Or.inr ⟨heq.symm, hbias⟩

/-- The byte of an insertion that an anchor is attached to. -/
def Anchor.byte (anchor : Anchor) (len : Nat) : Nat := min anchor.reach (len - 1)

theorem eq_of_shared {fragments : List Fragment} (hnodup : ((atoms fragments).map Atom.id).Nodup) {x y : Fragment}
    (hx : x ∈ fragments) (hy : y ∈ fragments) {a b : Atom} (ha : a ∈ x.atoms) (hb : b ∈ y.atoms) (hid : a.id = b.id) :
    x = y := by
  induction fragments with
  | nil => cases hx
  | cons fragment fragments ih =>
    rw [atoms_cons, List.map_append, List.nodup_append] at hnodup
    obtain ⟨-, hrest, hdisjoint⟩ := hnodup
    have hmem : ∀ {z : Fragment} {c : Atom}, z ∈ fragments → c ∈ z.atoms → c.id ∈ (atoms fragments).map Atom.id :=
      fun hz hc => List.mem_map_of_mem (List.mem_flatMap.mpr ⟨_, hz, hc⟩)
    obtain rfl | hxrest := List.mem_cons.mp hx
    · obtain rfl | hyrest := List.mem_cons.mp hy
      · rfl
      · exact absurd hid (hdisjoint _ (List.mem_map_of_mem ha) _ (hmem hyrest hb))
    · obtain rfl | hyrest := List.mem_cons.mp hy
      · exact absurd hid.symm (hdisjoint _ (List.mem_map_of_mem hb) _ (hmem hxrest ha))
      · exact ih hrest hxrest hyrest

theorem split_unique {α β : Type} {f : α → β} {left right left' right' : List α} {x x' : α}
    (hnodup : ((left ++ x :: right).map f).Nodup) (h : left ++ x :: right = left' ++ x' :: right')
    (hsame : f x = f x') : left = left' ∧ x = x' ∧ right = right' := by
  have hne : ∀ {before after : List α} {y z : α}, ((before ++ y :: after).map f).Nodup → z ∈ before → f z ≠ f y := by
    intro before after y z hnd hz heq
    rw [List.map_append, List.nodup_append] at hnd
    exact hnd.2.2 (f z) (List.mem_map_of_mem hz) (f y) (by simp) heq
  obtain ⟨rest, rfl, hrest⟩ | ⟨rest, rfl, hrest⟩ := List.append_eq_append_iff.mp h
  · cases rest with
    | nil =>
      rw [List.nil_append, List.cons.injEq] at hrest
      exact ⟨(List.append_nil _).symm, hrest.1, hrest.2⟩
    | cons y rest =>
      rw [List.cons_append, List.cons.injEq] at hrest
      rw [h] at hnodup
      exact absurd (hrest.1 ▸ hsame) (hne hnodup (by rw [← hrest.1]; simp))
  · cases rest with
    | nil =>
      rw [List.nil_append, List.cons.injEq] at hrest
      exact ⟨List.append_nil _, hrest.1.symm, hrest.2.symm⟩
    | cons y rest =>
      rw [List.cons_append, List.cons.injEq] at hrest
      exact absurd (hrest.1 ▸ hsame.symm) (hne hnodup (by rw [← hrest.1]; simp))

theorem Fragment.atoms_around (fragment : Fragment) {i : Nat} (hi : i < fragment.len) :
    fragment.atoms = fragment.atoms.take i ++ fragment.atom i :: fragment.atoms.drop (i + 1) := by
  have hlt : i < fragment.atoms.length := by rwa [Fragment.atoms_length]
  have hget : fragment.atoms[i] = fragment.atom i := by simp [Fragment.atoms]
  rw [← hget, ← List.drop_eq_getElem_cons, List.take_append_drop]

theorem Fragment.visible_take (fragment : Fragment) {i : Nat} (hi : i ≤ fragment.len) :
    ((fragment.atoms.take i).filter Atom.visible).length = if fragment.visible then i else 0 := by
  have hsame : ∀ atom ∈ fragment.atoms.take i, atom.visible = fragment.visible := fun atom hatom =>
    (Fragment.atoms_eq_of_mem (List.mem_of_mem_take hatom)).2.1
  split
  · rename_i hshown
    rw [List.filter_eq_self.mpr fun atom hatom => (hsame atom hatom).trans hshown, List.length_take,
      Fragment.atoms_length]
    omega
  · rename_i hhidden
    rw [List.filter_eq_nil_iff.mpr fun atom hatom => by rw [hsame atom hatom]; exact hhidden]
    rfl

namespace Ledger

variable {ledger : Ledger}

/-- An anchor in an insertion that a snapshot has. -/
structure Located (ledger : Ledger) (snapshot : BufferSnapshot) (anchor : Anchor) : Prop where
  not_min : anchor.is_min = false
  not_max : anchor.is_max = false
  observed : snapshot.version.observed anchor.timestamp = true
  payload_pos : 0 < (ledger.payload anchor.timestamp).length
  offset_le : anchor.offset ≤ (ledger.payload anchor.timestamp).length

/-- The fragment that has the byte of an anchor, and those before and after it. -/
structure Places (ledger : Ledger) (snapshot : BufferSnapshot) (anchor : Anchor) (before : List Fragment)
    (fragment : Fragment) (after : List Fragment) : Prop where
  split : snapshot.fragments = before ++ fragment :: after
  timestamp : fragment.timestamp = anchor.timestamp
  start_le : fragment.insertion_offset ≤ anchor.byte (ledger.payload anchor.timestamp).length
  lt_stop : anchor.byte (ledger.payload anchor.timestamp).length < fragment.insertion_offset + fragment.len

section located

variable (h : ledger.Mirrors snapshot) (hlocated : ledger.Located snapshot anchor)

include hlocated

theorem Located.byte_lt : anchor.byte (ledger.payload anchor.timestamp).length <
    (ledger.payload anchor.timestamp).length := by
  have hpos := hlocated.payload_pos
  unfold Anchor.byte
  omega

include h

theorem Located.exists_places : ∃ before fragment after, ledger.Places snapshot anchor before fragment after := by
  have hmember : ledger.Member snapshot.version
      (anchor.timestamp, anchor.byte (ledger.payload anchor.timestamp).length) :=
    ⟨hlocated.observed, hlocated.byte_lt⟩
  obtain ⟨atom, hatom, hid⟩ := List.mem_map.mp (h.lists.mem.mpr hmember)
  obtain ⟨fragment, hfragment, hin⟩ := List.mem_flatMap.mp hatom
  obtain ⟨i, hi, rfl⟩ := Fragment.mem_atoms.mp hin
  obtain ⟨before, after, hsplit⟩ := List.append_of_mem hfragment
  have hoffset : fragment.insertion_offset + i = anchor.byte (ledger.payload anchor.timestamp).length :=
    congrArg Prod.snd hid
  exact ⟨before, fragment, after, hsplit, congrArg Prod.fst hid, by omega, by omega⟩

variable {before after : List Fragment} {fragment : Fragment}
  (hplaces : ledger.Places snapshot anchor before fragment after)

include hplaces

omit hlocated in
theorem Places.try_find_fragment : snapshot.try_find_fragment anchor = some (InsertionFragment.new fragment) := by
  have hfragment : fragment ∈ snapshot.fragments := hplaces.split ▸ List.mem_append_right _ List.mem_cons_self
  have hstart := hplaces.start_le
  have hstop := hplaces.lt_stop
  apply BufferSnapshot.try_find_fragment_eq h.store.insertions_sorted
  · exact (h.store.mem_insertions _).mpr ⟨fragment, hfragment, rfl⟩
  · refine InsertionFragmentKey.le_iff.mpr (Or.inr ⟨hplaces.timestamp, ?_⟩)
    exact hstart.trans (min_le_left _ _)
  · intro other hother hle
    obtain ⟨piece, hpiece, rfl⟩ := (h.store.mem_insertions other).mp hother
    obtain hearlier | ⟨hsame, hreach⟩ := InsertionFragmentKey.le_iff.mp hle
    · exact InsertionFragmentKey.le_iff.mpr (Or.inl (hearlier.trans_eq hplaces.timestamp.symm))
    · have htimestamp : piece.timestamp = anchor.timestamp := hsame
      have hpieceReach : piece.insertion_offset ≤ anchor.reach := hreach
      refine InsertionFragmentKey.le_iff.mpr (Or.inr ⟨htimestamp.trans hplaces.timestamp.symm, ?_⟩)
      change piece.insertion_offset ≤ fragment.insertion_offset
      by_contra hnot
      -- the first byte of the other piece would be in both
      have hpieceLt : piece.insertion_offset < (ledger.payload anchor.timestamp).length := by
        have hatom : piece.atom 0 ∈ atoms snapshot.fragments :=
          List.mem_flatMap.mpr ⟨piece, hpiece, Fragment.mem_atoms.mpr ⟨0, h.store.len_pos piece hpiece, rfl⟩⟩
        rw [← htimestamp]
        exact (h.member hatom).2
      have hbyte : piece.insertion_offset ≤ anchor.byte (ledger.payload anchor.timestamp).length := by
        unfold Anchor.byte
        omega
      have hshared : (piece.atom 0).id =
          (fragment.atom (piece.insertion_offset - fragment.insertion_offset)).id := by
        refine Prod.ext (htimestamp.trans hplaces.timestamp.symm) ?_
        change piece.insertion_offset + 0 =
          fragment.insertion_offset + (piece.insertion_offset - fragment.insertion_offset)
        omega
      have heq : piece = fragment := by
        refine eq_of_shared h.store.nodup hpiece hfragment
          (Fragment.mem_atoms.mpr ⟨0, h.store.len_pos piece hpiece, rfl⟩) (Fragment.mem_atoms.mpr ⟨_, ?_, rfl⟩) hshared
        omega
      rw [heq] at hnot
      exact hnot le_rfl

theorem Places.try_fragment_id : snapshot.try_fragment_id_for_anchor anchor = some fragment.id := by
  rw [BufferSnapshot.try_fragment_id_for_anchor, hlocated.not_min, hlocated.not_max, hplaces.try_find_fragment h]
  rfl

omit hlocated in
theorem Places.cursor_at : snapshot.cursor_at fragment.id = { passed := before, rest := fragment :: after } := by
  have hincreasing := h.store.ordered.increasing
  rw [hplaces.split, List.map_append, List.pairwise_append] at hincreasing
  have hbefore : ∀ other ∈ before, decide (other.id < fragment.id) = true := fun other hother =>
    decide_eq_true (hincreasing.2.2 _ (List.mem_map_of_mem hother) _ (by simp))
  unfold BufferSnapshot.cursor_at
  rw [sum_tree.Cursor.slice_while, sum_tree.Cursor.new, hplaces.split]
  simp [List.takeWhile_append_of_pos hbefore, List.dropWhile_append_of_pos hbefore]

theorem Places.offset_for_anchor : snapshot.offset_for_anchor anchor =
    some ((before.map Fragment.visible_len).sum +
      if fragment.visible then anchor.offset - fragment.insertion_offset else 0) := by
  have hfilter : (snapshot.try_find_fragment anchor).filter
      (fun insertion => decide (insertion.timestamp = anchor.timestamp)) =
        some (InsertionFragment.new fragment) := by
    rw [hplaces.try_find_fragment h]
    simp [InsertionFragment.new, hplaces.timestamp]
  rw [BufferSnapshot.offset_for_anchor, hlocated.not_min, hlocated.not_max, hfilter]
  change ((snapshot.cursor_at fragment.id).item.map fun other =>
    if other.visible then (snapshot.cursor_at fragment.id).start Fragment.visible_len +
      (anchor.offset - fragment.insertion_offset)
    else (snapshot.cursor_at fragment.id).start Fragment.visible_len) = _
  rw [hplaces.cursor_at h]
  simp only [sum_tree.Cursor.item, sum_tree.Cursor.start, List.head?_cons, Option.map_some]
  split <;> rfl

omit hlocated in
theorem Places.atoms_split {left right : List Atom} {atom : Atom}
    (hatoms : atoms snapshot.fragments = left ++ atom :: right)
    (hid : atom.id = (anchor.timestamp, anchor.byte (ledger.payload anchor.timestamp).length)) :
    ∃ i < fragment.len, fragment.insertion_offset + i = anchor.byte (ledger.payload anchor.timestamp).length ∧
      atom = fragment.atom i ∧ left = atoms before ++ fragment.atoms.take i := by
  have hstart := hplaces.start_le
  have hstop := hplaces.lt_stop
  obtain ⟨i, hi⟩ := Nat.exists_eq_add_of_le hstart
  have hlt : i < fragment.len := by omega
  have hmiddle := fragment.atoms_around hlt
  have hsplit : atoms snapshot.fragments =
      (atoms before ++ fragment.atoms.take i) ++ fragment.atom i :: (fragment.atoms.drop (i + 1) ++ atoms after) := by
    rw [hplaces.split, atoms_append, atoms_cons]
    conv_lhs => rw [hmiddle]
    simp
  have hnodup := h.store.nodup
  have hsame : atom.id = (fragment.atom i).id := by
    rw [hid]
    exact Prod.ext hplaces.timestamp.symm hi
  rw [hatoms] at hnodup
  obtain ⟨hleft, hatom, -⟩ := split_unique hnodup (hatoms.symm.trans hsplit) hsame
  exact ⟨i, hlt, hi.symm, hatom, hleft⟩

end located

/-- An anchor resolves to the visible bytes before the byte that it is attached to,
    and after it to one more. -/
theorem Located.offset_for_anchor (h : ledger.Mirrors snapshot) (hlocated : ledger.Located snapshot anchor)
    {left right : List Atom} {atom : Atom} (hatoms : atoms snapshot.fragments = left ++ atom :: right)
    (hid : atom.id = (anchor.timestamp, anchor.byte (ledger.payload anchor.timestamp).length)) :
    snapshot.offset_for_anchor anchor = some ((left.filter Atom.visible).length +
      if atom.visible then anchor.offset - anchor.byte (ledger.payload anchor.timestamp).length else 0) := by
  obtain ⟨before, fragment, after, hplaces⟩ := hlocated.exists_places h
  obtain ⟨i, hi, hbyte, rfl, rfl⟩ := hplaces.atoms_split h hatoms hid
  have hvisible : (fragment.atom i).visible = fragment.visible := rfl
  have hoffset : anchor.byte (ledger.payload anchor.timestamp).length ≤ anchor.offset :=
    (min_le_left _ _).trans anchor.reach_le
  have hcount := Gauge.visible.atoms_length before
  rw [hplaces.offset_for_anchor h hlocated, List.filter_append, List.length_append, fragment.visible_take hi.le, hvisible]
  change ((atoms before).filter Atom.visible).length = (before.map Fragment.visible_len).sum at hcount
  rw [hcount]
  split
  · congr 1
    omega
  · rfl

/-- How many visible bytes are before the one that an anchor at an offset is attached to. -/
def attachedAt (offset : Nat) : Bias → Nat
  | .Left => offset - 1
  | .Right => offset

/-- Where an anchor lies that is attached to a byte. -/
def attachedOffset (offset : Nat) : Bias → Nat
  | .Left => offset + 1
  | .Right => offset

theorem Mirrors.anchor_at_offset (h : ledger.Mirrors snapshot) {offset : Nat} {bias : Bias}
    (hboundary : is_char_boundary snapshot.visible_text offset = true)
    (hoffset : offset ≤ snapshot.visible_text.length) (hstart : ¬ (bias = .Left ∧ offset = 0))
    (hend : ¬ (bias = .Right ∧ offset ≥ snapshot.visible_text.length)) :
    ∃ left atom right, atoms snapshot.fragments = left ++ atom :: right ∧ atom.visible = true ∧
      (left.filter Atom.visible).length = attachedAt offset bias ∧
      snapshot.anchor_at_offset offset bias =
        { timestamp := atom.timestamp
          offset := attachedOffset atom.offset bias
          bias
          buffer_id := snapshot.remote_id } := by
  have hlength : snapshot.visible_text.length = (snapshot.fragments.map Fragment.visible_len).sum := by
    rw [h.store.visible_text, visibleBytes, bytes, List.length_map]
    exact Gauge.visible.atoms_length snapshot.fragments
  have happend := sum_tree.Cursor.slice_from_append Fragment.visible_len offset bias 0 snapshot.fragments
  obtain ⟨htaken, hstop⟩ := sum_tree.Cursor.slice_from_stop Fragment.visible_len offset bias 0 snapshot.fragments
  have hresult : ∀ fragment after,
      (sum_tree.slice_from Fragment.visible_len offset bias 0 snapshot.fragments).2 = fragment :: after →
        snapshot.anchor_at_offset offset bias =
          { timestamp := fragment.timestamp
            offset := fragment.insertion_offset + (offset -
              ((sum_tree.slice_from Fragment.visible_len offset bias 0 snapshot.fragments).1.map
                Fragment.visible_len).sum)
            bias
            buffer_id := snapshot.remote_id } := by
    intro fragment after hrest
    have hitem : (sum_tree.Cursor.slice Fragment.visible_len offset bias
        (sum_tree.Cursor.new snapshot.fragments)).2.item = some fragment := congrArg List.head? hrest
    unfold BufferSnapshot.anchor_at_offset
    rw [if_neg hstart, if_neg hend, if_pos hboundary]
    simp only [hitem]
    rfl
  generalize sum_tree.slice_from Fragment.visible_len offset bias 0 snapshot.fragments = slice at *
  obtain ⟨passed, rest⟩ := slice
  dsimp only at happend htaken hstop hresult
  -- the cursor is not past the offset
  have hpassed : (passed.map Fragment.visible_len).sum ≤ attachedAt offset bias := by
    obtain rfl | ⟨init, last, rfl⟩ := List.eq_nil_or_concat passed
    · exact Nat.zero_le _
    · rw [List.concat_eq_append] at *
      have hlast := htaken init last [] rfl
      rw [List.map_append, List.sum_append]
      simp only [List.map_cons, List.map_nil, List.sum_cons, List.sum_nil, Nat.add_zero]
      cases bias <;> simp only [sum_tree.Bias.passes, decide_eq_true_eq, attachedAt] at hlast ⊢ <;> omega
  have hlt : attachedAt offset bias < snapshot.visible_text.length := by
    cases bias <;> simp only [attachedAt, true_and] at * <;> omega
  cases rest with
  | nil =>
    rw [List.append_nil] at happend
    rw [happend, ← hlength] at hpassed
    omega
  | cons fragment after =>
    have hleft := hstop fragment rfl
    have hvisible : attachedAt offset bias < (passed.map Fragment.visible_len).sum + fragment.visible_len := by
      cases bias <;> simp only [sum_tree.Bias.passes, decide_eq_false_iff_not, attachedAt, true_and] at * <;> omega
    have hshown : fragment.visible = true := by
      by_contra hhidden
      rw [Fragment.visible_len, if_neg hhidden] at hvisible
      omega
    rw [Fragment.visible_len, if_pos hshown] at hvisible
    obtain ⟨i, hi⟩ := Nat.exists_eq_add_of_le hpassed
    have hilt : i < fragment.len := by omega
    refine ⟨atoms passed ++ fragment.atoms.take i, fragment.atom i,
      fragment.atoms.drop (i + 1) ++ atoms after, ?_, hshown, ?_, ?_⟩
    · rw [← happend, atoms_append, atoms_cons]
      conv_lhs => rw [fragment.atoms_around hilt]
      simp
    · have hcount := Gauge.visible.atoms_length passed
      change ((atoms passed).filter Atom.visible).length = (passed.map Fragment.visible_len).sum at hcount
      rw [List.filter_append, List.length_append, fragment.visible_take hilt.le, if_pos hshown, hcount, hi]
    · rw [hresult fragment after rfl]
      simp only [Anchor.mk.injEq, and_true]
      refine ⟨rfl, ?_⟩
      cases bias <;> simp only [attachedOffset, attachedAt, Fragment.atom, true_and] at * <;> omega

end Ledger

end zed.text
