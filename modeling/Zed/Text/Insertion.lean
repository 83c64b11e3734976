import Zed.Text.Chunks

namespace zed.text

open zed.clock zed.rope

/-- What a fragment says about the insertion that it is a part of, in the source's integers. -/
structure InsertionPart where
  insertion_offset : UInt32
  len : UInt32
deriving DecidableEq

/-- The rounds of the loops of `new_normalized` and of `push_fragments_for_insertion`: one fragment
    for each chunk, at the offset that is counted on by `chunk_len as u32`. -/
def push_parts (insertion_offset : UInt32) : List Nat → List InsertionPart × UInt32
  | [] => ([], insertion_offset)
  | chunk_len :: chunk_lens =>
    let len := UInt32.ofNat chunk_len
    let (parts, insertion_offset') := push_parts (insertion_offset + len) chunk_lens
    (⟨insertion_offset, len⟩ :: parts, insertion_offset')

def base_parts (base_text : Str) : List InsertionPart := (push_parts 0 (chunk_lens (utf8 base_text) 0)).1

/-- The fragments of the insertions of one edit, which share a timestamp and the offset. -/
def edit_parts (insertion_offset : UInt32) : List Str → List InsertionPart
  | [] => []
  | new_text :: new_texts =>
    let (parts, insertion_offset) := push_parts insertion_offset (chunk_lens (utf8 new_text) 0)
    parts ++ edit_parts insertion_offset new_texts

/-- The anchor offsets of the bytes of some fragments. -/
def anchorOffsets (parts : List InsertionPart) : List UInt32 :=
  parts.flatMap fun part => (List.range part.len.toNat).map fun i => part.insertion_offset + UInt32.ofNat i

/-- No sum wraps from an offset on: every fragment is at the sum of the lengths before it, and its
    end fits. -/
def NoWrap : Nat → List InsertionPart → Prop
  | _, [] => True
  | offset, part :: parts =>
    part.insertion_offset.toNat = offset ∧ offset + part.len.toNat < 2 ^ 32 ∧ NoWrap (offset + part.len.toNat) parts

/-- The fragments of an insertion of some bytes do not wrap, have keys of their own, and give every
    byte an anchor offset that no other byte has. -/
def Addressed (parts : List InsertionPart) (bytes : Nat) : Prop :=
  NoWrap 0 parts ∧ (parts.map InsertionPart.insertion_offset).Nodup ∧ (anchorOffsets parts).Nodup ∧
    (anchorOffsets parts).length = bytes

theorem chunk_lens_lt (text : Rope) (text_offset : Nat) : ∀ n ∈ chunk_lens text text_offset, n < 2 ^ 32 := by
  have hend : ∀ text_offset, chunk_end text text_offset ≤ text_offset + MAX_INSERTION_LEN := by
    intro text_offset
    unfold chunk_end
    dsimp only
    split
    · omega
    · rename_i hne
      have hlt : min text.length (text_offset + MAX_INSERTION_LEN) < text.length := by omega
      have hle := floor_char_boundary_le text hlt
      omega
  fun_induction chunk_lens text text_offset with
  | case1 text_offset hlt ih =>
    intro n hn
    rcases List.mem_cons.mp hn with rfl | hn
    · have hle := hend text_offset
      unfold MAX_INSERTION_LEN at hle
      omega
    · exact ih n hn
  | case2 text_offset hnot => simp

section Parts

variable {lens : List Nat}

/-- The lengths are what the loops cut off: not empty, and below the width of the offset. -/
def PartLens (lens : List Nat) : Prop := ∀ n ∈ lens, 0 < n ∧ n < 2 ^ 32

theorem PartLens.of_text (text : Str) : PartLens (chunk_lens (utf8 text) 0) := fun n hn =>
  ⟨chunk_lens_pos _ _ n hn, chunk_lens_lt _ _ n hn⟩

theorem toNat_add_ofNat {offset : UInt32} {n : Nat} (h : offset.toNat + n < 2 ^ 32) :
    (offset + UInt32.ofNat n).toNat = offset.toNat + n := by
  rw [UInt32.toNat_add, UInt32.toNat_ofNat', Nat.mod_eq_of_lt (show n < 2 ^ 32 by omega), Nat.mod_eq_of_lt h]

theorem noWrap_iff (hcut : PartLens lens) (offset : UInt32) :
    NoWrap offset.toNat (push_parts offset lens).1 ↔ offset.toNat + lens.sum < 2 ^ 32 := by
  induction lens generalizing offset with
  | nil => exact iff_of_true trivial offset.toNat_lt
  | cons n lens ih =>
    have hlen : (UInt32.ofNat n).toNat = n := by
      rw [UInt32.toNat_ofNat', Nat.mod_eq_of_lt (hcut n List.mem_cons_self).2]
    have hrest := ih (fun m hm => hcut m (List.mem_cons_of_mem _ hm)) (offset + UInt32.ofNat n)
    rw [push_parts, NoWrap, List.sum_cons]
    simp only [hlen, true_and]
    by_cases hfits : offset.toNat + n < 2 ^ 32
    · rw [toNat_add_ofNat hfits] at hrest
      rw [hrest]
      omega
    · exact iff_of_false (fun hwrap => hfits hwrap.1) (by omega)

theorem anchorOffsets_toNat (hcut : PartLens lens) {offset : UInt32} (h : offset.toNat + lens.sum < 2 ^ 32) :
    (anchorOffsets (push_parts offset lens).1).map UInt32.toNat = List.range' offset.toNat lens.sum := by
  induction lens generalizing offset with
  | nil => rfl
  | cons n lens ih =>
    have hlen : (UInt32.ofNat n).toNat = n := by
      rw [UInt32.toNat_ofNat', Nat.mod_eq_of_lt (hcut n List.mem_cons_self).2]
    rw [List.sum_cons] at h ⊢
    have hnext : (offset + UInt32.ofNat n).toNat = offset.toNat + n := toNat_add_ofNat (by omega)
    have hrest := @ih (fun m hm => hcut m (List.mem_cons_of_mem _ hm)) (offset + UInt32.ofNat n) (by omega)
    have hfirst : ((List.range n).map fun i => offset + UInt32.ofNat i).map UInt32.toNat =
        List.range' offset.toNat n := by
      rw [List.range'_eq_map_range, List.map_map]
      refine List.map_congr_left fun i hi => ?_
      have hlt := List.mem_range.mp hi
      exact toNat_add_ofNat (by omega)
    rw [push_parts, anchorOffsets, List.flatMap_cons, List.map_append]
    simp only [hlen]
    rw [hfirst, ← List.range'_append_1, ← hnext]
    exact congrArg (_ ++ ·) hrest

theorem keys_sublist (hcut : PartLens lens) (offset : UInt32) :
    ((push_parts offset lens).1.map InsertionPart.insertion_offset).Sublist
      (anchorOffsets (push_parts offset lens).1) := by
  induction lens generalizing offset with
  | nil => exact List.Sublist.refl _
  | cons n lens ih =>
    obtain ⟨hpos, hlt⟩ := hcut n List.mem_cons_self
    have hlen : (UInt32.ofNat n).toNat = n := by rw [UInt32.toNat_ofNat', Nat.mod_eq_of_lt hlt]
    have hrest := ih (fun m hm => hcut m (List.mem_cons_of_mem _ hm)) (offset + UInt32.ofNat n)
    obtain ⟨k, rfl⟩ := Nat.exists_eq_succ_of_ne_zero hpos.ne'
    rw [push_parts, anchorOffsets, List.map_cons, List.flatMap_cons]
    simp only [hlen]
    rw [List.range_succ_eq_map, List.map_cons]
    have hzero : offset + UInt32.ofNat 0 = offset := UInt32.add_zero offset
    rw [hzero, List.cons_append]
    exact (hrest.trans (List.sublist_append_right _ _)).cons_cons _

theorem push_parts_addressed_iff (hcut : PartLens lens) :
    Addressed (push_parts 0 lens).1 lens.sum ↔ lens.sum < 2 ^ 32 := by
  have hwrap := noWrap_iff hcut 0
  rw [show (0 : UInt32).toNat = 0 from rfl, Nat.zero_add] at hwrap
  refine ⟨fun h => hwrap.mp h.1, fun hfits => ?_⟩
  have hbytes := anchorOffsets_toNat hcut (show (0 : UInt32).toNat + lens.sum < 2 ^ 32 by simpa using hfits)
  have hnodup : (anchorOffsets (push_parts 0 lens).1).Nodup :=
    List.Nodup.of_map UInt32.toNat (by rw [hbytes]; exact List.nodup_range')
  refine ⟨hwrap.mpr hfits, (keys_sublist hcut 0).nodup hnodup, hnodup, ?_⟩
  have hlength := congrArg List.length hbytes
  rwa [List.length_map, List.length_range'] at hlength

theorem push_parts_append (offset : UInt32) (lens lens' : List Nat) :
    push_parts offset (lens ++ lens') =
      ((push_parts offset lens).1 ++ (push_parts (push_parts offset lens).2 lens').1,
        (push_parts (push_parts offset lens).2 lens').2) := by
  induction lens generalizing offset with
  | nil => rfl
  | cons n lens ih => rw [List.cons_append, push_parts, ih, push_parts]; rfl

theorem edit_parts_eq (offset : UInt32) (new_texts : List Str) :
    edit_parts offset new_texts =
      (push_parts offset (new_texts.flatMap fun new_text => chunk_lens (utf8 new_text) 0)).1 := by
  induction new_texts generalizing offset with
  | nil => rfl
  | cons new_text new_texts ih =>
    rw [edit_parts, List.flatMap_cons, push_parts_append]
    exact congrArg (_ ++ ·) (ih _)

end Parts

def insertedBytes (new_texts : List Str) : Nat := (new_texts.map fun new_text => (utf8 new_text).length).sum

/-- The offsets of an insertion do not wrap when the insertion is shorter than their width: the base
    text, and all the texts of one edit together. -/
theorem insertion_addressed_iff (base_text : Str) (new_texts : List Str) :
    (Addressed (base_parts base_text) (utf8 base_text).length ↔ (utf8 base_text).length < 2 ^ 32) ∧
      (Addressed (edit_parts 0 new_texts) (insertedBytes new_texts) ↔ insertedBytes new_texts < 2 ^ 32) := by
  constructor
  · have hsum := chunk_lens_sum base_text (Nat.zero_le _)
    rw [Nat.sub_zero] at hsum
    rw [base_parts, ← hsum]
    exact push_parts_addressed_iff (PartLens.of_text base_text)
  · have hsum : insertedBytes new_texts = (new_texts.flatMap fun new_text => chunk_lens (utf8 new_text) 0).sum := by
      induction new_texts with
      | nil => rfl
      | cons new_text new_texts ih =>
        have htext := chunk_lens_sum new_text (Nat.zero_le _)
        rw [Nat.sub_zero] at htext
        rw [insertedBytes, List.map_cons, List.sum_cons, List.flatMap_cons, List.sum_append, htext]
        exact congrArg (_ + ·) ih
    rw [edit_parts_eq, hsum]
    refine push_parts_addressed_iff fun n hn => ?_
    obtain ⟨new_text, -, hmem⟩ := List.mem_flatMap.mp hn
    exact PartLens.of_text new_text n hmem

theorem chunk_lens_short {text : Str} (hpos : 0 < (utf8 text).length) (hle : (utf8 text).length ≤ MAX_INSERTION_LEN) :
    chunk_lens (utf8 text) 0 = [(utf8 text).length] := by
  have hend : chunk_end (utf8 text) 0 = (utf8 text).length := by
    unfold chunk_end
    rw [if_pos] <;> omega
  rw [chunk_lens, if_pos ⟨hpos, by rwa [hend]⟩, hend, chunk_lens, if_neg (by omega), Nat.sub_zero]

theorem utf8_replicate_length (n : Nat) : (utf8 (List.replicate n 'a')).length = n := by
  rw [utf8, List.length_flatMap, List.map_replicate, List.sum_replicate]
  exact Nat.mul_one n

/-- Three insertions of one edit, the first two of which fill the offsets: the last one gets the
    offset of the first. -/
theorem third_insertion_wraps :
    edit_parts 0 [List.replicate (2 ^ 31) 'a', List.replicate (2 ^ 31) 'a', ['a']] =
        [⟨0, 2147483648⟩, ⟨2147483648, 2147483648⟩, ⟨0, 1⟩] ∧
      ¬ Addressed (edit_parts 0 [List.replicate (2 ^ 31) 'a', List.replicate (2 ^ 31) 'a', ['a']])
        (insertedBytes [List.replicate (2 ^ 31) 'a', List.replicate (2 ^ 31) 'a', ['a']]) := by
  have hhalf : chunk_lens (utf8 (List.replicate (2 ^ 31) 'a')) 0 = [2 ^ 31] := by
    have hlength := utf8_replicate_length (2 ^ 31)
    rw [chunk_lens_short] <;> rw [hlength]
    · decide
    · decide
  have hone : chunk_lens (utf8 ['a']) 0 = [1] := chunk_lens_short (by decide) (by decide)
  have hparts : edit_parts 0 [List.replicate (2 ^ 31) 'a', List.replicate (2 ^ 31) 'a', ['a']] =
      [⟨0, 2147483648⟩, ⟨2147483648, 2147483648⟩, ⟨0, 1⟩] := by
    rw [edit_parts_eq]
    simp only [List.flatMap_cons, List.flatMap_nil, hhalf, hone, List.append_nil, List.cons_append, List.nil_append]
    decide
  refine ⟨hparts, fun haddressed => ?_⟩
  have hkeys := haddressed.2.1
  rw [hparts] at hkeys
  exact absurd hkeys (by decide)

end zed.text
