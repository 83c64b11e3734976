import Mathlib

namespace zed.bitmap

variable {w : Nat}

def count_ones (x : BitVec w) : Nat := (List.range w).countP x.getLsbD

def trailing_zeros (x : BitVec w) : Nat := ((List.range w).takeWhile fun i => !x.getLsbD i).length

def leading_zeros (x : BitVec w) : Nat := ((List.range w).reverse.takeWhile fun i => !x.getLsbD i).length

/-- The bits below an offset; all of them from the width on. -/
def saturating_shl_mask (w offset : Nat) : BitVec w := (1#w <<< offset) - 1#w

def saturating_shr_mask (w offset : Nat) : BitVec w := ~~~(BitVec.allOnes w >>> offset)

/-- A bitmap has the bits of a list from its lowest one on, and no others. -/
structure Marks (x : BitVec w) (marks : List Bool) : Prop where
  length_le : marks.length ≤ w
  bit (i : Nat) : x.getLsbD i = marks.getD i false

theorem getLsbD_shl_mask (offset i : Nat) :
    (saturating_shl_mask w offset).getLsbD i = (decide (i < w) && decide (i < offset)) := by
  have hmask : saturating_shl_mask w offset = BitVec.ofNat w (2 ^ offset - 1) := by
    have hshift : 1#w <<< offset = BitVec.ofNat w (2 ^ offset) := by
      apply BitVec.eq_of_toNat_eq
      rw [BitVec.toNat_shiftLeft, BitVec.toNat_ofNat, BitVec.toNat_ofNat, Nat.shiftLeft_eq, Nat.mul_mod, Nat.mod_mod,
        ← Nat.mul_mod, Nat.one_mul]
    rcases Nat.eq_zero_or_pos w with rfl | hpos
    · exact Subsingleton.elim _ _
    · rw [saturating_shl_mask, hshift,
        BitVec.ofNat_sub_ofNat_of_le _ _ (Nat.one_lt_two_pow hpos.ne') Nat.one_le_two_pow]
  rw [hmask, BitVec.getLsbD_ofNat, Nat.testBit_two_pow_sub_one]

theorem getLsbD_shr_mask (offset i : Nat) :
    (saturating_shr_mask w offset).getLsbD i = (decide (i < w) && decide (w ≤ offset + i)) := by
  rw [saturating_shr_mask, BitVec.getLsbD_not, BitVec.getLsbD_ushiftRight, BitVec.getLsbD_allOnes]
  by_cases hlt : i < w <;> by_cases hle : w ≤ offset + i <;> simp [hlt, hle]
  omega

namespace Marks

variable {x y : BitVec w} {marks marks' : List Bool}

theorem bits (h : Marks x marks) :
    (List.range w).map x.getLsbD = marks ++ List.replicate (w - marks.length) false := by
  have hlength := h.length_le
  refine List.ext_getElem (by simp; omega) fun i hi hi' => ?_
  rw [List.getElem_map, List.getElem_range, h.bit, List.getElem_append]
  split
  · rename_i hlt
    rw [List.getD_eq_getElem _ _ hlt]
  · rename_i hge
    rw [List.getElem_replicate, List.getD_eq_default _ _ (Nat.not_lt.mp hge)]

theorem count_ones (h : Marks x marks) : bitmap.count_ones x = marks.count true := by
  have hbits := congrArg (List.count true) h.bits
  rw [List.count_append, List.count_replicate, if_neg (by decide), Nat.add_zero, List.count, List.countP_map] at hbits
  rw [List.count, ← hbits, bitmap.count_ones]
  exact List.countP_congr fun i _ => by simp

theorem trailing_zeros (h : Marks x marks) :
    bitmap.trailing_zeros x = if true ∈ marks then (marks.takeWhile (!·)).length else w := by
  have hlength := h.length_le
  have hbits := congrArg (fun bits => (bits.takeWhile (!·)).length) h.bits
  simp only [List.takeWhile_map, List.length_map] at hbits
  change bitmap.trailing_zeros x = _ at hbits
  rw [hbits]
  split
  · rename_i hmem
    rw [List.takeWhile_append, if_neg]
    intro hall
    have hself : marks.takeWhile (!·) = marks := (List.takeWhile_prefix _).eq_of_length hall
    have hnot := List.takeWhile_eq_self_iff.mp hself true hmem
    cases hnot
  · rename_i hnot
    have hall : ∀ bit ∈ marks ++ List.replicate (w - marks.length) false, (!bit) = true := by
      intro bit hbit
      rcases List.mem_append.mp hbit with hmem | hmem
      · cases bit with
        | false => rfl
        | true => exact absurd hmem hnot
      · rw [List.eq_of_mem_replicate hmem]
        rfl
    rw [List.takeWhile_eq_self_iff.mpr hall, List.length_append, List.length_replicate]
    omega

theorem leading_zeros (h : Marks x marks) :
    bitmap.leading_zeros x = w - marks.length + (marks.reverse.takeWhile (!·)).length := by
  have hbits := congrArg (fun bits => (bits.reverse.takeWhile (!·)).length) h.bits
  simp only [← List.map_reverse, List.takeWhile_map, List.length_map] at hbits
  change bitmap.leading_zeros x = _ at hbits
  have hall : ∀ bit ∈ List.replicate (w - marks.length) false, (!bit) = true := by
    intro bit hbit
    rw [List.eq_of_mem_replicate hbit]
    rfl
  rw [hbits, List.reverse_append, List.reverse_replicate, List.takeWhile_append_of_pos hall, List.length_append,
    List.length_replicate]

theorem drop (h : Marks x marks) (n : Nat) : Marks (x >>> n) (marks.drop n) where
  length_le := by rw [List.length_drop]; exact (Nat.sub_le _ _).trans h.length_le
  bit i := by
    rw [BitVec.getLsbD_ushiftRight, h.bit, List.getD_eq_getElem?_getD, List.getD_eq_getElem?_getD, List.getElem?_drop]

theorem take (h : Marks x marks) (n : Nat) : Marks (x &&& saturating_shl_mask w n) (marks.take n) where
  length_le := (List.length_take_le' _ _).trans h.length_le
  bit i := by
    have hlength := h.length_le
    rw [BitVec.getLsbD_and, h.bit, getLsbD_shl_mask, List.getD_eq_getElem?_getD, List.getD_eq_getElem?_getD,
      List.getElem?_take]
    by_cases hlt : i < n
    · by_cases hw : i < w
      · simp [hlt, hw]
      · simp [hlt, hw, List.getElem?_eq_none (show marks.length ≤ i by omega)]
    · simp [hlt]

theorem clear (h : Marks x marks) (n : Nat) :
    Marks (x &&& saturating_shr_mask w n)
      (List.replicate (min (w - n) marks.length) false ++ marks.drop (w - n)) where
  length_le := by
    have hlength := h.length_le
    rw [List.length_append, List.length_replicate, List.length_drop]
    omega
  bit i := by
    have hlength := h.length_le
    rw [BitVec.getLsbD_and, h.bit, getLsbD_shr_mask, List.getD_eq_getElem?_getD, List.getD_eq_getElem?_getD]
    rcases Nat.lt_or_ge i marks.length with hin | hout
    · rcases Nat.lt_or_ge i (w - n) with hlow | hhigh
      · have hnot : ¬ w ≤ n + i := by omega
        rw [List.getElem?_append_left (by simp; omega), List.getElem?_replicate, if_pos (by omega)]
        simp [hnot]
      · have hyes : w ≤ n + i := by omega
        have hmin : min (w - n) marks.length = w - n := by omega
        rw [List.getElem?_append_right (by simp; omega), List.length_replicate, hmin, List.getElem?_drop,
          Nat.add_sub_cancel' hhigh]
        simp [hyes, show i < w by omega]
    · rw [List.getElem?_eq_none hout, List.getElem?_eq_none (by simp; omega)]
      simp

theorem append (h : Marks x marks) (h' : Marks y marks') (hlength : marks.length + marks'.length ≤ w) :
    Marks (x ||| (y <<< marks.length)) (marks ++ marks') where
  length_le := by rwa [List.length_append]
  bit i := by
    rw [BitVec.getLsbD_or, BitVec.getLsbD_shiftLeft, h.bit, h'.bit, List.getD_eq_getElem?_getD,
      List.getD_eq_getElem?_getD, List.getD_eq_getElem?_getD]
    rcases Nat.lt_or_ge i marks.length with hin | hout
    · rw [List.getElem?_append_left hin]
      simp [hin]
    · rw [List.getElem?_append_right hout, List.getElem?_eq_none hout]
      rcases Nat.lt_or_ge i w with hw | hw
      · simp [hw, Nat.not_lt.mpr hout]
      · rw [List.getElem?_eq_none (show marks'.length ≤ i - marks.length by omega)]
        simp

end Marks

end zed.bitmap
