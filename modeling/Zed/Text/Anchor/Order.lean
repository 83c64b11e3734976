import Zed.Text.Anchor.Resolve
import Zed.Text.Network.Delivery

namespace zed.text

open zed.clock zed.rope
open zed.sum_tree (Bias)

theorem compare_toLex {α β : Type} [LinearOrder α] [LinearOrder β] (a c : α) (b d : β) :
    compare (toLex (a, b)) (toLex (c, d)) = (compare a c).then (compare b d) := by
  obtain hlt | rfl | hgt := lt_trichotomy a c
  · rw [compare_lt_iff_lt.mpr hlt]
    exact compare_lt_iff_lt.mpr (Prod.Lex.toLex_lt_toLex.mpr (Or.inl hlt))
  · rw [compare_eq_iff_eq.mpr rfl]
    obtain hlt | rfl | hgt := lt_trichotomy b d
    · rw [compare_lt_iff_lt.mpr hlt]
      exact compare_lt_iff_lt.mpr (Prod.Lex.toLex_lt_toLex.mpr (Or.inr ⟨rfl, hlt⟩))
    · rw [compare_eq_iff_eq.mpr rfl, compare_eq_iff_eq.mpr rfl]
      rfl
    · rw [compare_gt_iff_gt.mpr hgt]
      exact compare_gt_iff_gt.mpr (Prod.Lex.toLex_lt_toLex.mpr (Or.inr ⟨rfl, hgt⟩))
  · rw [compare_gt_iff_gt.mpr hgt]
    exact compare_gt_iff_gt.mpr (Prod.Lex.toLex_lt_toLex.mpr (Or.inl hgt))

namespace Anchor

def biasRank : Bias → Nat
  | .Left => 0
  | .Right => 1

theorem bias_cmp_eq (bias other : Bias) : bias_cmp bias other = compare (biasRank bias) (biasRank other) := by
  cases bias <;> cases other <;> rfl

/-- Where an anchor is in its insertion. -/
def place (anchor : Anchor) : ℕ ×ₗ ℕ := toLex (anchor.offset, biasRank anchor.bias)

def rank (fragment_id : Locator) (anchor : Anchor) : Locator ×ₗ (ℕ ×ₗ ℕ) := toLex (fragment_id, anchor.place)

theorem reach_le_of_place_le {a b : Anchor} (h : a.place ≤ b.place) : a.reach ≤ b.reach := by
  unfold reach
  obtain hlt | ⟨heq, hle⟩ := Prod.Lex.toLex_le_toLex.mp h
  · have hoffset : a.offset < b.offset := hlt
    split <;> split <;> omega
  · have hsame : a.offset = b.offset := heq
    rw [hsame]
    cases ha : a.bias with
    | Left =>
      by_cases hpos : b.offset > 0
      · rw [if_pos ⟨rfl, hpos⟩]
        split <;> omega
      · rw [if_neg fun h => hpos h.2, if_neg fun h => hpos h.2]
    | Right =>
      have hright : b.bias = .Right := by
        cases hb : b.bias with
        | Left =>
          rw [ha, hb] at hle
          exact absurd hle (by simp [biasRank])
        | Right => rfl
      simp [hright]

theorem place_eq_iff {a b : Anchor} : a.place = b.place ↔ a.offset = b.offset ∧ a.bias = b.bias := by
  unfold place
  rw [toLex_inj, Prod.mk.injEq]
  refine and_congr_right' ⟨fun h => ?_, congrArg biasRank⟩
  cases ha : a.bias <;> cases hb : b.bias <;> rw [ha, hb] at h <;> first | rfl | cases h

theorem is_min_iff {anchor : Anchor} :
    anchor.is_min = true ↔ anchor.timestamp = Lamport.MIN ∧ anchor.offset = 0 ∧ anchor.bias = .Left := by
  simp [is_min, and_assoc]

theorem is_max_iff {anchor : Anchor} :
    anchor.is_max = true ↔ anchor.timestamp = Lamport.MAX ∧ anchor.offset = 4294967295 ∧ anchor.bias = .Right := by
  simp [is_max, and_assoc]

theorem place_le_of_is_min {anchor : Anchor} (h : anchor.is_min = true) (other : Anchor) :
    anchor.place ≤ other.place := by
  obtain ⟨-, hoffset, hbias⟩ := is_min_iff.mp h
  apply Prod.Lex.toLex_le_toLex.mpr
  rw [hoffset, hbias]
  obtain hzero | hpos := Nat.eq_zero_or_pos other.offset
  · exact Or.inr ⟨hzero.symm, Nat.zero_le _⟩
  · exact Or.inl hpos

theorem le_place_of_is_max {anchor : Anchor} (h : anchor.is_max = true) {other : Anchor}
    (hother : other.offset ≤ 4294967295) : other.place ≤ anchor.place := by
  obtain ⟨-, hoffset, hbias⟩ := is_max_iff.mp h
  apply Prod.Lex.toLex_le_toLex.mpr
  rw [hoffset, hbias]
  obtain hlt | heq := lt_or_eq_of_le hother
  · exact Or.inl hlt
  · refine Or.inr ⟨heq, ?_⟩
    cases other.bias
    · exact Nat.zero_le _
    · exact le_rfl

/-- An anchor in an insertion that a snapshot has. -/
structure Inside (inserted : Lamport → Rope) (snapshot : BufferSnapshot) (anchor : Anchor) : Prop where
  observed : snapshot.version.observed anchor.timestamp = true
  pos : 0 < (inserted anchor.timestamp).length
  offset_le : anchor.offset ≤ (inserted anchor.timestamp).length

/-- The anchors that a snapshot can resolve: those at the ends, and those in an
    insertion that it has. Their offsets have 32 bits. -/
def Resolvable (inserted : Lamport → Rope) (snapshot : BufferSnapshot) (anchor : Anchor) : Prop :=
  anchor.offset ≤ 4294967295 ∧ (anchor.is_min = true ∨ anchor.is_max = true ∨ anchor.Inside inserted snapshot)

end Anchor

theorem Contiguous.increasing {stop offset : Nat} {fragments : List Fragment} (h : Contiguous stop offset fragments) :
    (∀ fragment ∈ fragments, offset ≤ fragment.insertion_offset) ∧
      fragments.Pairwise fun f g => f.insertion_offset < g.insertion_offset := by
  induction fragments generalizing offset with
  | nil => exact ⟨fun _ h => absurd h List.not_mem_nil, List.Pairwise.nil⟩
  | cons fragment fragments ih =>
    obtain ⟨hoffset, hpos, hrest⟩ := h
    obtain ⟨hle, hpairwise⟩ := ih hrest
    refine ⟨fun other hother => ?_, List.pairwise_cons.mpr ⟨fun other hother => ?_, hpairwise⟩⟩
    · obtain rfl | hother := List.mem_cons.mp hother
      · exact hoffset.ge
      · exact (Nat.le_add_right _ _).trans (hle other hother)
    · have hother := hle other hother
      omega

namespace Ledger

variable {ledger : Ledger} {snapshot : BufferSnapshot} {a b : Anchor}

theorem Mirrors.split_of_id_lt (h : ledger.Mirrors snapshot) {before after before' after' : List Fragment}
    {f g : Fragment} (hf : snapshot.fragments = before ++ f :: after)
    (hg : snapshot.fragments = before' ++ g :: after') (hlt : f.id < g.id) :
    ∃ middle, before' = before ++ f :: middle := by
  have hincreasing := h.store.ordered.increasing
  have heq := hf.symm.trans hg
  obtain ⟨rest, rfl, hrest⟩ | ⟨rest, rfl, hrest⟩ := List.append_eq_append_iff.mp heq
  · cases rest with
    | nil =>
      obtain ⟨rfl, -⟩ := List.cons.inj hrest
      exact absurd hlt (lt_irrefl _)
    | cons fragment middle =>
      obtain ⟨rfl, -⟩ := List.cons.inj hrest
      exact ⟨middle, rfl⟩
  · cases rest with
    | nil =>
      obtain ⟨rfl, -⟩ := List.cons.inj hrest
      exact absurd hlt (lt_irrefl _)
    | cons fragment middle =>
      obtain ⟨rfl, -⟩ := List.cons.inj hrest
      rw [hf, List.map_append, List.pairwise_append] at hincreasing
      exact absurd hlt (lt_asymm (hincreasing.2.2 g.id (List.mem_map_of_mem (by simp)) f.id (by simp)))

theorem Mirrors.id_le (h : ledger.Mirrors snapshot) {f g : Fragment} (hf : f ∈ snapshot.fragments)
    (hg : g ∈ snapshot.fragments) (htimestamp : f.timestamp = g.timestamp)
    (hle : f.insertion_offset ≤ g.insertion_offset) : f.id ≤ g.id := by
  by_contra hnot
  obtain ⟨before, after, hsplit⟩ := List.append_of_mem hg
  obtain ⟨before', after', hsplit'⟩ := List.append_of_mem hf
  obtain ⟨middle, rfl⟩ := h.split_of_id_lt hsplit hsplit' (not_le.mp hnot)
  obtain ⟨-, hincreasing⟩ := (h.contiguous f.timestamp).increasing
  rw [hsplit', List.filter_append, List.pairwise_append] at hincreasing
  have hlt := hincreasing.2.2 g (by simp [htimestamp]) f (by simp)
  omega

/-- A resolvable anchor that is at neither end is in its insertion. -/
theorem located_of_resolvable (h : a.Resolvable ledger.payload snapshot) (hmin : a.is_min = false)
    (hmax : a.is_max = false) : ledger.Located snapshot a := by
  obtain ⟨-, hend | hend | hinside⟩ := h
  · rw [hmin] at hend
    cases hend
  · rw [hmax] at hend
    cases hend
  · exact ⟨hmin, hmax, hinside.observed, hinside.pos, hinside.offset_le⟩

/-- Where a snapshot finds an anchor: at an end, or in a fragment. -/
inductive Finds (ledger : Ledger) (snapshot : BufferSnapshot) (anchor : Anchor) : Locator → Nat → Prop
  | min (h : anchor.is_min = true) : Finds ledger snapshot anchor Locator.min 0
  | max (h : anchor.is_max = true) : Finds ledger snapshot anchor Locator.max snapshot.visible_text.length
  | fragment {before fragment after} (hlocated : ledger.Located snapshot anchor)
      (hplaces : ledger.Places snapshot anchor before fragment after) :
      Finds ledger snapshot anchor fragment.id ((before.map Fragment.visible_len).sum +
        if fragment.visible then anchor.offset - fragment.insertion_offset else 0)

theorem Mirrors.finds (h : ledger.Mirrors snapshot) (ha : a.Resolvable ledger.payload snapshot) :
    ∃ fragment_id offset, ledger.Finds snapshot a fragment_id offset := by
  cases hmin : a.is_min with
  | true => exact ⟨_, _, .min hmin⟩
  | false =>
    cases hmax : a.is_max with
    | true => exact ⟨_, _, .max hmax⟩
    | false =>
      have hlocated := located_of_resolvable ha hmin hmax
      obtain ⟨before, fragment, after, hplaces⟩ := hlocated.exists_places h
      exact ⟨_, _, .fragment hlocated hplaces⟩

section finds

variable {fragment_id other_id : Locator} {offset other_offset : Nat}

theorem not_is_min_of_is_max (h : a.is_max = true) : a.is_min = false := by
  obtain ⟨-, hoffset, -⟩ := Anchor.is_max_iff.mp h
  simp [Anchor.is_min, hoffset]

theorem Finds.try_fragment_id (h : ledger.Mirrors snapshot) (ha : ledger.Finds snapshot a fragment_id offset) :
    snapshot.try_fragment_id_for_anchor a = some fragment_id := by
  cases ha with
  | min hmin => exact if_pos hmin
  | max hmax =>
    rw [BufferSnapshot.try_fragment_id_for_anchor, not_is_min_of_is_max hmax, hmax]
    rfl
  | fragment hlocated hplaces => exact hplaces.try_fragment_id h hlocated

theorem Finds.offset_for_anchor (h : ledger.Mirrors snapshot) (ha : ledger.Finds snapshot a fragment_id offset) :
    snapshot.offset_for_anchor a = some offset := by
  cases ha with
  | min hmin => exact if_pos hmin
  | max hmax =>
    rw [BufferSnapshot.offset_for_anchor, not_is_min_of_is_max hmax, hmax]
    rfl
  | fragment hlocated hplaces => exact hplaces.offset_for_anchor h hlocated

theorem Places.bounds (h : ledger.Mirrors snapshot) {before after : List Fragment} {fragment : Fragment}
    (hplaces : ledger.Places snapshot a before fragment after) :
    Locator.min < fragment.id ∧ fragment.id < Locator.max :=
  h.fragment_store.bounds fragment (hplaces.split ▸ List.mem_append_right _ List.mem_cons_self)

theorem Finds.min_le (h : ledger.Mirrors snapshot) (ha : ledger.Finds snapshot a fragment_id offset) :
    Locator.min ≤ fragment_id := by
  cases ha with
  | min => exact le_rfl
  | max => decide
  | fragment _ hplaces => exact (hplaces.bounds h).1.le

theorem Finds.le_max (h : ledger.Mirrors snapshot) (ha : ledger.Finds snapshot a fragment_id offset) :
    fragment_id ≤ Locator.max := by
  cases ha with
  | min => decide
  | max => exact le_rfl
  | fragment _ hplaces => exact (hplaces.bounds h).2.le

theorem Places.offset_le_stop (hlocated : ledger.Located snapshot a) {before after : List Fragment}
    {fragment : Fragment} (hplaces : ledger.Places snapshot a before fragment after) :
    a.offset ≤ fragment.insertion_offset + fragment.len := by
  have hstop := hplaces.lt_stop
  have hle := hlocated.offset_le
  unfold Anchor.byte Anchor.reach at hstop
  split at hstop <;> omega

/-- Two anchors of one insertion are in fragments in the order of their places. -/
theorem Finds.id_le_of_place_le (h : ledger.Mirrors snapshot) (ha : ledger.Finds snapshot a fragment_id offset)
    (hb : ledger.Finds snapshot b other_id other_offset) (hfits : b.offset ≤ 4294967295)
    (htimestamp : a.timestamp = b.timestamp) (hle : a.place ≤ b.place) : fragment_id ≤ other_id := by
  cases ha with
  | min hmin => exact hb.min_le h
  | max hmax =>
    -- the other anchor is at the maximum as well
    have hsame := Anchor.place_eq_iff.mp (le_antisymm hle (Anchor.le_place_of_is_max hmax hfits))
    obtain ⟨htime, hoffset, hbias⟩ := Anchor.is_max_iff.mp hmax
    have hmax' : b.is_max = true :=
      Anchor.is_max_iff.mpr ⟨htimestamp ▸ htime, hsame.1 ▸ hoffset, hsame.2 ▸ hbias⟩
    have hother := hb.try_fragment_id h
    rw [(Finds.max hmax').try_fragment_id h] at hother
    exact (Option.some.inj hother).le
  | fragment hlocated hplaces =>
    cases hb with
    | min hmin =>
      have hsame := Anchor.place_eq_iff.mp (le_antisymm hle (Anchor.place_le_of_is_min hmin a))
      obtain ⟨htime, hoffset, hbias⟩ := Anchor.is_min_iff.mp hmin
      have hmin' : a.is_min = true :=
        Anchor.is_min_iff.mpr ⟨htimestamp.trans htime, hsame.1.trans hoffset, hsame.2.trans hbias⟩
      rw [hlocated.not_min] at hmin'
      cases hmin'
    | max => exact (hplaces.bounds h).2.le
    | fragment hlocated' hplaces' =>
      rename_i before f after before' g after'
      have hbyte : a.byte (ledger.payload a.timestamp).length ≤ b.byte (ledger.payload b.timestamp).length := by
        rw [htimestamp]
        exact min_le_min_right _ (Anchor.reach_le_of_place_le hle)
      have hf : f ∈ snapshot.fragments := hplaces.split ▸ List.mem_append_right _ List.mem_cons_self
      have hg : g ∈ snapshot.fragments := hplaces'.split ▸ List.mem_append_right _ List.mem_cons_self
      have hsame : f.timestamp = g.timestamp :=
        hplaces.timestamp.trans (htimestamp.trans hplaces'.timestamp.symm)
      by_contra hnot
      -- the fragment of the later byte would end before the earlier byte
      have hoffsets : g.insertion_offset < f.insertion_offset := by
        by_contra hge
        exact hnot (h.id_le hf hg hsame (not_lt.mp hge))
      have hstart := hplaces.start_le
      have hstop := hplaces'.lt_stop
      have hshared : (f.atom 0).id = (g.atom (f.insertion_offset - g.insertion_offset)).id := by
        refine Prod.ext hsame ?_
        change f.insertion_offset + 0 = g.insertion_offset + (f.insertion_offset - g.insertion_offset)
        omega
      have heq : f = g := eq_of_shared h.store.nodup hf hg
        (Fragment.mem_atoms.mpr ⟨0, h.store.len_pos f hf, rfl⟩) (Fragment.mem_atoms.mpr ⟨_, by omega, rfl⟩) hshared
      rw [heq] at hoffsets
      exact lt_irrefl _ hoffsets

theorem Finds.cmp_eq (h : ledger.Mirrors snapshot) (ha : ledger.Finds snapshot a fragment_id offset)
    (hb : ledger.Finds snapshot b other_id other_offset) (hfits : a.offset ≤ 4294967295)
    (hfits' : b.offset ≤ 4294967295) :
    a.cmp b snapshot = some (compare (a.rank fragment_id) (b.rank other_id)) := by
  have hplace : compare a.place b.place =
      (compare a.offset b.offset).then (Anchor.bias_cmp a.bias b.bias) := by
    rw [Anchor.place, Anchor.place, compare_toLex, Anchor.bias_cmp_eq]
  have hresult : ∀ order : Ordering, (order.then (compare a.offset b.offset)).then (Anchor.bias_cmp a.bias b.bias) =
      order.then (compare a.place b.place) := fun order => by
    rw [hplace]
    cases order <;> rfl
  rw [Anchor.rank, Anchor.rank, compare_toLex]
  unfold Anchor.cmp
  split
  · rename_i htimestamp
    rw [Option.map_some, hresult]
    congr 1
    change compare a.place b.place = _
    obtain hlt | heq | hgt := lt_trichotomy a.place b.place
    · have hid := ha.id_le_of_place_le h hb hfits' htimestamp hlt.le
      rw [compare_lt_iff_lt.mpr hlt]
      obtain hidlt | rfl := lt_or_eq_of_le hid
      · rw [compare_lt_iff_lt.mpr hidlt]
        rfl
      · rw [compare_eq_iff_eq.mpr rfl]
        rfl
    · rw [le_antisymm (ha.id_le_of_place_le h hb hfits' htimestamp heq.le)
        (hb.id_le_of_place_le h ha hfits htimestamp.symm heq.ge), compare_eq_iff_eq.mpr (Eq.refl other_id)]
      rfl
    · have hid := hb.id_le_of_place_le h ha hfits htimestamp.symm hgt.le
      rw [compare_gt_iff_gt.mpr hgt]
      obtain hidlt | rfl := lt_or_eq_of_le hid
      · rw [compare_gt_iff_gt.mpr hidlt]
        rfl
      · rw [compare_eq_iff_eq.mpr rfl]
        rfl
  · rw [ha.try_fragment_id h, hb.try_fragment_id h, Option.bind_some, Option.map_some, Option.map_some, hresult]

theorem Finds.offset_le (h : ledger.Mirrors snapshot) (ha : ledger.Finds snapshot a fragment_id offset)
    (hb : ledger.Finds snapshot b other_id other_offset) (hle : a.rank fragment_id ≤ b.rank other_id) :
    offset ≤ other_offset := by
  have hids : fragment_id ≤ other_id := by
    obtain hlt | ⟨heq, -⟩ := Prod.Lex.toLex_le_toLex.mp hle
    · exact hlt.le
    · exact heq.le
  have hlength : snapshot.visible_text.length = (snapshot.fragments.map Fragment.visible_len).sum := by
    rw [h.store.visible_text, visibleBytes, bytes, List.length_map]
    exact Gauge.visible.atoms_length snapshot.fragments
  -- an anchor in a fragment is not past it
  have hwithin : ∀ {anchor : Anchor} {before fragment after}, ledger.Located snapshot anchor →
      ledger.Places snapshot anchor before fragment after →
      (if fragment.visible then anchor.offset - fragment.insertion_offset else 0) ≤ fragment.visible_len :=
    fun hlocated hplaces => by
      have hstop := hplaces.offset_le_stop hlocated
      unfold Fragment.visible_len
      split <;> omega
  cases ha with
  | min => exact Nat.zero_le _
  | max =>
    cases hb with
    | min => exact absurd hids (by decide)
    | max => exact le_rfl
    | fragment _ hplaces => exact absurd hids (not_le_of_gt (hplaces.bounds h).2)
  | fragment hlocated hplaces =>
    have hin := hwithin hlocated hplaces
    cases hb with
    | min => exact absurd hids (not_le_of_gt (hplaces.bounds h).1)
    | max =>
      rw [hlength, hplaces.split, List.map_append, List.sum_append, List.map_cons, List.sum_cons]
      omega
    | fragment hlocated' hplaces' =>
      obtain hlt | heq := lt_or_eq_of_le hids
      · obtain ⟨middle, rfl⟩ := h.split_of_id_lt hplaces.split hplaces'.split hlt
        rw [List.map_append, List.sum_append, List.map_cons, List.sum_cons]
        omega
      · obtain ⟨rfl, rfl, -⟩ := split_unique (hplaces.split ▸ h.store.ordered.increasing.imp ne_of_lt)
          (hplaces.split.symm.trans hplaces'.split) heq
        have hplace : a.place ≤ b.place := by
          obtain hidlt | ⟨-, hplace⟩ := Prod.Lex.toLex_le_toLex.mp hle
          · exact absurd hidlt (lt_irrefl _)
          · exact hplace
        have hoffset : a.offset ≤ b.offset := by
          obtain hoffset | ⟨hoffset, -⟩ := Prod.Lex.toLex_le_toLex.mp hplace
          · exact hoffset.le
          · exact hoffset.le
        split <;> omega

def atomOf (ledger : Ledger) (anchor : Anchor) : AtomId :=
  (anchor.timestamp, anchor.byte (ledger.payload anchor.timestamp).length)

/-- The index of the atom of an anchor, from the fragment of the anchor. -/
theorem Places.idxOf_eq (h : ledger.Mirrors snapshot) {before after : List Fragment} {fragment : Fragment}
    (hplaces : ledger.Places snapshot a before fragment after) : ∃ i < fragment.len,
      ((atoms snapshot.fragments).map Atom.id).idxOf (ledger.atomOf a) = (atoms before).length + i := by
  have hstart := hplaces.start_le
  have hstop := hplaces.lt_stop
  obtain ⟨i, hi⟩ := Nat.exists_eq_add_of_le hstart
  have hlt : i < fragment.len := by omega
  have hid : ledger.atomOf a = (fragment.atom i).id := Prod.ext hplaces.timestamp.symm hi
  have hsplit : atoms snapshot.fragments =
      (atoms before ++ fragment.atoms.take i) ++ fragment.atom i :: (fragment.atoms.drop (i + 1) ++ atoms after) := by
    rw [hplaces.split, atoms_append, atoms_cons]
    conv_lhs => rw [fragment.atoms_around hlt]
    simp
  have hnodup := h.store.nodup
  rw [hsplit, List.map_append, List.nodup_append] at hnodup
  refine ⟨i, hlt, ?_⟩
  rw [hsplit, hid, List.map_append, List.idxOf_append_of_notMem fun hmem => hnodup.2.2 _ hmem _ (by simp) rfl,
    List.map_cons, List.idxOf_cons_self, List.length_map, List.length_append, List.length_take,
    Fragment.atoms_length]
  omega

theorem Places.idxOf_lt (h : ledger.Mirrors snapshot) {before after before' after' : List Fragment} {f g : Fragment}
    (ha : ledger.Places snapshot a before f after) (hb : ledger.Places snapshot b before' g after')
    (hlt : f.id < g.id) : ((atoms snapshot.fragments).map Atom.id).idxOf (ledger.atomOf a) <
      ((atoms snapshot.fragments).map Atom.id).idxOf (ledger.atomOf b) := by
  obtain ⟨i, hi, hindex⟩ := ha.idxOf_eq h
  obtain ⟨j, -, hindex'⟩ := hb.idxOf_eq h
  obtain ⟨middle, rfl⟩ := h.split_of_id_lt ha.split hb.split hlt
  rw [atoms_append, atoms_cons, List.length_append, List.length_append, Fragment.atoms_length] at hindex'
  omega

theorem Finds.id_lt_iff (h : ledger.Mirrors snapshot) (ha : ledger.Finds snapshot a fragment_id offset)
    (hb : ledger.Finds snapshot b other_id other_offset) (hne : a.timestamp ≠ b.timestamp) :
    fragment_id < other_id ↔ a.is_min = true ∨ b.is_max = true ∨ a.is_max = false ∧ b.is_min = false ∧
      ((atoms snapshot.fragments).map Atom.id).idxOf (ledger.atomOf a) <
        ((atoms snapshot.fragments).map Atom.id).idxOf (ledger.atomOf b) := by
  cases ha with
  | min hmin =>
    refine iff_of_true ?_ (Or.inl hmin)
    cases hb with
    | min hmin' => exact absurd ((Anchor.is_min_iff.mp hmin).1.trans (Anchor.is_min_iff.mp hmin').1.symm) hne
    | max => decide
    | fragment _ hplaces => exact (hplaces.bounds h).1
  | max hmax =>
    refine iff_of_false (not_lt_of_ge (hb.le_max h)) ?_
    rintro (hmin | hmax' | ⟨hnot, -⟩)
    · rw [not_is_min_of_is_max hmax] at hmin
      cases hmin
    · exact hne ((Anchor.is_max_iff.mp hmax).1.trans (Anchor.is_max_iff.mp hmax').1.symm)
    · rw [hmax] at hnot
      cases hnot
  | fragment hlocated hplaces =>
    cases hb with
    | min hmin =>
      refine iff_of_false (not_lt_of_ge (hplaces.bounds h).1.le) ?_
      rintro (hmin' | hmax | ⟨-, hnot, -⟩)
      · rw [hlocated.not_min] at hmin'
        cases hmin'
      · rw [not_is_min_of_is_max hmax] at hmin
        cases hmin
      · rw [hmin] at hnot
        cases hnot
    | max hmax => exact iff_of_true (hplaces.bounds h).2 (Or.inr (Or.inl hmax))
    | fragment hlocated' hplaces' =>
      refine ⟨fun hlt => Or.inr (Or.inr ⟨hlocated.not_max, hlocated'.not_min, hplaces.idxOf_lt h hplaces' hlt⟩), ?_⟩
      rintro (hmin | hmax | ⟨-, -, hlt⟩)
      · rw [hlocated.not_min] at hmin
        cases hmin
      · rw [hlocated'.not_max] at hmax
        cases hmax
      · rename_i before f after before' g after'
        obtain hid | heq | hgt := lt_trichotomy f.id g.id
        · exact hid
        · obtain ⟨-, rfl, -⟩ := split_unique (hplaces.split ▸ h.store.ordered.increasing.imp ne_of_lt)
            (hplaces.split.symm.trans hplaces'.split) heq
          exact absurd (hplaces.timestamp.symm.trans hplaces'.timestamp) hne
        · exact absurd hlt (lt_asymm (hplaces'.idxOf_lt h hplaces hgt))

end finds

theorem compare_congr {α : Type} [LinearOrder α] {x y x' y' : α} (hlt : x < y ↔ x' < y') (hgt : y < x ↔ y' < x') :
    compare x y = compare x' y' := by
  obtain h | rfl | h := lt_trichotomy x y
  · rw [compare_lt_iff_lt.mpr h, compare_lt_iff_lt.mpr (hlt.mp h)]
  · have heq : x' = y' :=
      le_antisymm (not_lt.mp fun h => lt_irrefl _ (hgt.mpr h)) (not_lt.mp fun h => lt_irrefl _ (hlt.mpr h))
    rw [compare_eq_iff_eq.mpr rfl, compare_eq_iff_eq.mpr heq]
  · rw [compare_gt_iff_gt.mpr h, compare_gt_iff_gt.mpr (hgt.mp h)]

/-- Two mirrors that have observed the same operations order their anchors alike. -/
theorem Mirrors.same_cmp (hlawful : ledger.Lawful) (h : ledger.Mirrors snapshot) {other : BufferSnapshot}
    (hother : ledger.Mirrors other) (hsame : ledger.SameKnown snapshot.version other.version)
    (ha : a.Resolvable ledger.payload snapshot) (hb : b.Resolvable ledger.payload snapshot) :
    a.cmp b other = a.cmp b snapshot := by
  by_cases htimestamp : a.timestamp = b.timestamp
  · rw [Anchor.cmp, Anchor.cmp, if_pos htimestamp, if_pos htimestamp]
  have hthere : ∀ {anchor : Anchor}, anchor.Resolvable ledger.payload snapshot →
      anchor.Resolvable ledger.payload other := by
    rintro anchor ⟨hfits, hmin | hmax | hinside⟩
    · exact ⟨hfits, Or.inl hmin⟩
    · exact ⟨hfits, Or.inr (Or.inl hmax)⟩
    · have hmember : ledger.Member snapshot.version (anchor.timestamp, 0) := ⟨hinside.observed, hinside.pos⟩
      exact ⟨hfits, Or.inr (Or.inr ⟨(hsame.member.mp hmember).1, hinside.pos, hinside.offset_le⟩)⟩
  obtain ⟨ida, offsetA, hfinda⟩ := h.finds ha
  obtain ⟨idb, offsetB, hfindb⟩ := h.finds hb
  obtain ⟨ida', offsetA', hfinda'⟩ := hother.finds (hthere ha)
  obtain ⟨idb', offsetB', hfindb'⟩ := hother.finds (hthere hb)
  have hids := h.lists.unique hlawful hother.lists fun id => hsame.member
  have hcompare : compare ida' idb' = compare ida idb := by
    apply compare_congr
    · rw [hfinda'.id_lt_iff hother hfindb' htimestamp, hfinda.id_lt_iff h hfindb htimestamp, hids]
    · rw [hfindb'.id_lt_iff hother hfinda' (Ne.symm htimestamp), hfindb.id_lt_iff h hfinda (Ne.symm htimestamp), hids]
  rw [hfinda'.cmp_eq hother hfindb' ha.1 hb.1, hfinda.cmp_eq h hfindb ha.1 hb.1, Anchor.rank, Anchor.rank,
    Anchor.rank, Anchor.rank, compare_toLex, compare_toLex, hcompare]

end Ledger

end zed.text
