import Zed.Text.Anchor.Order

namespace zed.text

open zed.clock zed.rope
open zed.sum_tree (Bias)

namespace Ledger

variable {ledger : Ledger} {made later : BufferSnapshot} {offset : Nat} {bias : Bias}

/-- Every operation has a later timestamp than the minimum. -/
theorem Lawful.ne_min (hlawful : ledger.Lawful) {timestamp : Lamport} (h : ledger.Known timestamp) :
    timestamp ≠ Lamport.MIN := by
  obtain ⟨record, hmem, rfl⟩ | ⟨-, rfl⟩ := h
  · intro heq
    have hpos := (hlawful.admits record hmem).before 0
    rw [heq] at hpos
    exact absurd hpos (Nat.not_lt_zero _)
  · decide

theorem Mirrors.visible_byte (h : ledger.Mirrors made) {left right : List Atom} {atom : Atom}
    (hatoms : atoms made.fragments = left ++ atom :: right) (hvisible : atom.visible = true) :
    made.visible_text[(left.filter Atom.visible).length]? = some (ledger.content atom.id) := by
  rw [h.store.visible_text, visibleBytes, bytes, hatoms, List.filter_append, List.filter_cons_of_pos hvisible,
    List.map_append, List.getElem?_append_right (by rw [List.length_map]), List.length_map, Nat.sub_self]
  rfl

theorem Mirrors.anchor_resolves (hlawful : ledger.Lawful) (h : ledger.Mirrors made) (hlater : ledger.Mirrors later)
    (hfits : ∀ timestamp, (ledger.payload timestamp).length ≤ 4294967295)
    {left right : List Atom} {atom : Atom} (hatoms : atoms made.fragments = left ++ atom :: right)
    {anchor : Anchor} (htimestamp : anchor.timestamp = atom.timestamp)
    (hoffset : anchor.offset = attachedOffset atom.offset anchor.bias)
    (hobserved : later.version.observed anchor.timestamp = true) :
    ∃ left' atom' right', atoms later.fragments = left' ++ atom' :: right' ∧ atom'.id = atom.id ∧
      later.offset_for_anchor anchor = some ((left'.filter Atom.visible).length +
        if anchor.bias = .Left ∧ atom'.visible = true then 1 else 0) := by
  have hmember : ledger.Member made.version atom.id :=
    h.member (hatoms ▸ List.mem_append_right _ List.mem_cons_self)
  have hlt : atom.offset < (ledger.payload anchor.timestamp).length := htimestamp ▸ hmember.2
  have hfit := hfits anchor.timestamp
  have hknown : ledger.Known anchor.timestamp := known_of_payload fun hnil => by
    rw [hnil] at hlt
    exact absurd hlt (Nat.not_lt_zero _)
  have hlocated : ledger.Located later anchor := by
    refine ⟨?_, ?_, hobserved, by omega, ?_⟩
    · simp [Anchor.is_min, hlawful.ne_min hknown]
    · cases hbias : anchor.bias with
      | Left => simp [Anchor.is_max, hbias]
      | Right =>
        rw [hbias, attachedOffset] at hoffset
        simp only [Anchor.is_max, Bool.and_eq_false_imp, Bool.and_eq_true, decide_eq_true_eq]
        omega
    · cases hbias : anchor.bias <;> rw [hbias, attachedOffset] at hoffset <;> omega
  have hbyte : anchor.byte (ledger.payload anchor.timestamp).length = atom.offset := by
    unfold Anchor.byte Anchor.reach
    cases hbias : anchor.bias <;> rw [hbias, attachedOffset] at hoffset <;> rw [hoffset] <;> simp <;> omega
  have hthere : ledger.Member later.version atom.id :=
    ⟨(congrArg _ htimestamp).symm.trans hobserved, hmember.2⟩
  obtain ⟨atom', hatom', hid⟩ := List.mem_map.mp (hlater.lists.mem.mpr hthere)
  obtain ⟨left', right', hsplit⟩ := List.append_of_mem hatom'
  refine ⟨left', atom', right', hsplit, hid, ?_⟩
  rw [hlocated.offset_for_anchor hlater hsplit (by rw [hid, hbyte, htimestamp]; rfl), hbyte, hoffset]
  cases anchor.bias <;> cases atom'.visible <;> simp [attachedOffset]

end Ledger

namespace Network

open Ledger

variable {base_text : Str} {network next : Network}

end Network

/-- The anchors that a snapshot can resolve are in a total preorder, and their
    offsets follow it. -/
structure BufferSnapshot.OrdersAnchors (inserted : Lamport → Rope) (snapshot : BufferSnapshot) : Prop where
  reflexive : ∀ a : Anchor, a.Resolvable inserted snapshot → a.cmp a snapshot = some .eq
  total : ∀ a b : Anchor, a.Resolvable inserted snapshot → b.Resolvable inserted snapshot →
    ∃ order, a.cmp b snapshot = some order ∧ b.cmp a snapshot = some order.swap
  transitive : ∀ a b c : Anchor, a.Resolvable inserted snapshot → b.Resolvable inserted snapshot →
    c.Resolvable inserted snapshot → (a.cmp b snapshot).any Ordering.isLE = true →
    (b.cmp c snapshot).any Ordering.isLE = true → (a.cmp c snapshot).any Ordering.isLE = true
  offsets : ∀ a b : Anchor, a.Resolvable inserted snapshot → b.Resolvable inserted snapshot →
    (a.cmp b snapshot).any Ordering.isLE = true → ∃ offset other_offset,
      snapshot.offset_for_anchor a = some offset ∧ snapshot.offset_for_anchor b = some other_offset ∧
        offset ≤ other_offset

namespace Ledger

variable {ledger : Ledger} {snapshot : BufferSnapshot} {a b : Anchor}

theorem Finds.isLE_iff (h : ledger.Mirrors snapshot) {fragment_id other_id : Locator} {offset other_offset : Nat}
    (ha : ledger.Finds snapshot a fragment_id offset) (hb : ledger.Finds snapshot b other_id other_offset)
    (hfits : a.offset ≤ 4294967295) (hfits' : b.offset ≤ 4294967295) :
    (a.cmp b snapshot).any Ordering.isLE = true ↔ a.rank fragment_id ≤ b.rank other_id := by
  have hle : compare (a.rank fragment_id) (b.rank other_id) ≠ .gt ↔ a.rank fragment_id ≤ b.rank other_id :=
    compare_le_iff_le
  rw [ha.cmp_eq h hb hfits hfits', Option.any_some]
  exact Ordering.ne_gt_iff_isLE.symm.trans hle

theorem Mirrors.orders_anchors (h : ledger.Mirrors snapshot) : snapshot.OrdersAnchors ledger.payload where
  reflexive a ha := by
    obtain ⟨ida, offset, hfinda⟩ := h.finds ha
    rw [hfinda.cmp_eq h hfinda ha.1 ha.1, compare_eq_iff_eq.mpr rfl]
  total a b ha hb := by
    obtain ⟨ida, offset, hfinda⟩ := h.finds ha
    obtain ⟨idb, other_offset, hfindb⟩ := h.finds hb
    refine ⟨_, hfinda.cmp_eq h hfindb ha.1 hb.1, ?_⟩
    rw [hfindb.cmp_eq h hfinda hb.1 ha.1, ← Std.OrientedOrd.eq_swap]
  transitive a b c ha hb hc hab hbc := by
    obtain ⟨ida, offsetA, hfinda⟩ := h.finds ha
    obtain ⟨idb, offsetB, hfindb⟩ := h.finds hb
    obtain ⟨idc, offsetC, hfindc⟩ := h.finds hc
    have hleft := (hfinda.isLE_iff h hfindb ha.1 hb.1).mp hab
    have hright := (hfindb.isLE_iff h hfindc hb.1 hc.1).mp hbc
    exact (hfinda.isLE_iff h hfindc ha.1 hc.1).mpr (hleft.trans hright)
  offsets a b ha hb hab := by
    obtain ⟨ida, offset, hfinda⟩ := h.finds ha
    obtain ⟨idb, other_offset, hfindb⟩ := h.finds hb
    exact ⟨offset, other_offset, hfinda.offset_for_anchor h, hfindb.offset_for_anchor h,
      hfinda.offset_le h hfindb ((hfinda.isLE_iff h hfindb ha.1 hb.1).mp hab)⟩

end Ledger

namespace Network

variable {base_text : Str} {network : Network}

end Network

end zed.text
