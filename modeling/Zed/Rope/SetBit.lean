import Zed.Bitmap.Fields

namespace zed.rope

open zed.bitmap

/-- Words of 64 bits. An operation that overflows panics. -/
abbrev U64 := BitVec 64

def U64.MAX : U64 := BitVec.allOnes 64

def checked_add (x y : U64) : Option U64 := if x.toNat + y.toNat < 2 ^ 64 then some (x + y) else none

def checked_sub (x y : U64) : Option U64 := if y.toNat ≤ x.toNat then some (x - y) else none

def checked_shr (x shift : U64) : Option U64 := if shift.toNat < 64 then some (x >>> shift.toNat) else none

/-- A step of the select: `t` bits are set in the upper half of what is left, which is `256 >> shift` bits wide. -/
def narrow (t : U64) (shift : Nat) (s n : U64) : Option (U64 × U64) := do
  let s ← checked_sub s (((t - n) &&& 256#64) >>> shift)
  let n ← checked_sub n (t &&& ((t - n) >>> 8))
  return (s, n)

def nth_set_bit_u64 (v n : U64) : Option U64 := do
  let v := v.reverse
  let s := 64#64
  -- Parallel bit count intermediates
  let a ← checked_sub v ((v >>> 1) &&& (U64.MAX / 3#64))
  let b ← checked_add (a &&& (U64.MAX / 5#64)) ((a >>> 2) &&& (U64.MAX / 5#64))
  let c := (← checked_add b (b >>> 4)) &&& (U64.MAX / 0x11#64)
  let d := (← checked_add c (c >>> 8)) &&& (U64.MAX / 0x101#64)
  -- Branchless select
  let t ← checked_add (d >>> 32) (d >>> 48)
  let (s, n) ← narrow t 3 s n
  let t := (← checked_shr d (← checked_sub s 16#64)) &&& 0xff#64
  let (s, n) ← narrow t 4 s n
  let t := (← checked_shr c (← checked_sub s 8#64)) &&& 0xf#64
  let (s, n) ← narrow t 5 s n
  let t := (← checked_shr b (← checked_sub s 4#64)) &&& 0x7#64
  let (s, n) ← narrow t 6 s n
  let t := (← checked_shr a (← checked_sub s 2#64)) &&& 0x3#64
  let (s, n) ← narrow t 7 s n
  let t := (← checked_shr v (← checked_sub s 1#64)) &&& 0x1#64
  let s ← checked_sub s (((t - n) &&& 256#64) >>> 8)
  checked_sub (← checked_sub 65#64 s) 1#64

/-- Finds the n-th bit that is set to 1. -/
def nth_set_bit (v : BitVec 128) (n : Nat) : Option Nat :=
  let low := v.setWidth 64
  let high := (v >>> 64).setWidth 64
  let low_count := count_ones low
  if n > low_count then (nth_set_bit_u64 high (BitVec.ofNat 64 (n - low_count))).map fun i => 64 + i.toNat
  else (nth_set_bit_u64 low (BitVec.ofNat 64 n)).map BitVec.toNat

section Narrow

variable {t s n : U64} {low junk : Nat}

/-- The borrow of `t - n` is in every bit from the eighth on that `t` can have. -/
theorem borrow (ht : t.toNat = low + 65536 * junk) (hlow : low < 128) (hjunk : junk < 256) (hn : n.toNat ≤ 128) :
    ((t - n) &&& 256#64).toNat = (if n.toNat ≤ low then 0 else 256) ∧
      (t &&& ((t - n) >>> 8)).toNat = if n.toNat ≤ low then 0 else low := by
  have hsub : (t - n).toNat = (2 ^ 64 - n.toNat + t.toNat) % 2 ^ 64 := BitVec.toNat_sub ..
  have hbit : ((t - n) &&& 256#64).toNat = (t - n).toNat / 256 % 2 * 256 := by
    rw [BitVec.toNat_and, show (256#64).toNat = 2 ^ 8 from rfl, Nat.and_two_pow, Nat.toNat_testBit]
    rfl
  rw [hbit, BitVec.toNat_and, BitVec.toNat_ushiftRight, Nat.shiftRight_eq_div_pow, hsub, ht]
  by_cases hle : n.toNat ≤ low
  · have hdiff : (2 ^ 64 - n.toNat + (low + 65536 * junk)) % 2 ^ 64 = low - n.toNat + 65536 * junk := by omega
    have hshift : (low - n.toNat + 65536 * junk) / 2 ^ 8 = packed 8 [0, junk] := by
      simp only [packed]
      omega
    have hword : low + 65536 * junk = packed 8 [low, 0, junk] := by
      simp only [packed]
      omega
    rw [hdiff, if_pos hle, if_pos hle, hshift, hword, packed, packed, and_field (by omega) (by omega)]
    refine ⟨by omega, ?_⟩
    simp only [packed]
    have hmiddle := and_field (w := 8) (x := 0) (y := junk) (X := junk + 2 ^ 8 * 0) (Y := 0) (by omega) hjunk
    simp only [Nat.mul_zero, Nat.add_zero, Nat.zero_add, Nat.and_zero, Nat.zero_and] at hmiddle ⊢
    rw [hmiddle, Nat.mul_zero]
  · rw [if_neg hle, if_neg hle]
    rcases Nat.eq_zero_or_pos junk with rfl | hpos
    · have hdiff : (2 ^ 64 - n.toNat + (low + 65536 * 0)) % 2 ^ 64 / 2 ^ 8 = 2 ^ 56 - 1 := by omega
      refine ⟨by omega, ?_⟩
      rw [hdiff, Nat.and_two_pow_sub_one_eq_mod]
      omega
    · have hdiff : (2 ^ 64 - n.toNat + (low + 65536 * junk)) % 2 ^ 64 / 2 ^ 8 = 255 + 2 ^ 8 * (junk - 1) := by omega
      have hword : low + 65536 * junk = low + 2 ^ 8 * (0 + 2 ^ 8 * junk) := by omega
      have hupper : (0 + 2 ^ 8 * junk) &&& (junk - 1 + 2 ^ 8 * 0) = 0 := by
        rw [and_field (by omega) (by omega)]
        simp
      refine ⟨by omega, ?_⟩
      rw [hdiff, hword, and_field (by omega) (by omega), show (255 : Nat) = 2 ^ 8 - 1 from rfl,
        Nat.and_two_pow_sub_one_eq_mod]
      rw [Nat.mul_zero, Nat.add_zero] at hupper
      rw [hupper]
      omega

theorem narrow_spec {shift : Nat} (ht : t.toNat = low + 65536 * junk) (hlow : low < 128) (hjunk : junk < 256)
    (hn : n.toNat ≤ 128) (hs : 256 / 2 ^ shift ≤ s.toNat) :
    ∃ s' n', narrow t shift s n = some (s', n') ∧
      s'.toNat = s.toNat - (if n.toNat ≤ low then 0 else 256 / 2 ^ shift) ∧
      n'.toNat = n.toNat - if n.toNat ≤ low then 0 else low := by
  obtain ⟨hborrow, hlower⟩ := borrow ht hlow hjunk hn
  have hhalf : (((t - n) &&& 256#64) >>> shift).toNat = if n.toNat ≤ low then 0 else 256 / 2 ^ shift := by
    rw [BitVec.toNat_ushiftRight, hborrow, Nat.shiftRight_eq_div_pow]
    by_cases hle : n.toNat ≤ low
    · rw [if_pos hle, if_pos hle, Nat.zero_div]
    · rw [if_neg hle, if_neg hle]
  have hsub : ∀ {x y : U64}, y.toNat ≤ x.toNat → checked_sub x y = some (x - y) ∧ (x - y).toNat = x.toNat - y.toNat :=
    fun {x y} hle => ⟨if_pos hle, BitVec.toNat_sub_of_le hle⟩
  have hsle : (((t - n) &&& 256#64) >>> shift).toNat ≤ s.toNat := by
    rw [hhalf]
    by_cases hle : n.toNat ≤ low
    · rw [if_pos hle]
      exact Nat.zero_le _
    · rwa [if_neg hle]
  have hnle : (t &&& ((t - n) >>> 8)).toNat ≤ n.toNat := by
    rw [hlower]
    by_cases hle : n.toNat ≤ low
    · rw [if_pos hle]
      exact Nat.zero_le _
    · rw [if_neg hle]
      omega
  refine ⟨_, _, ?_, (hsub hsle).2.trans (by rw [hhalf]), (hsub hnle).2.trans (by rw [hlower])⟩
  rw [narrow, (hsub hsle).1, (hsub hnle).1]
  rfl

end Narrow

/-- The `rank`-th set bit from the top is the `n`-th one of the field at `index`, which ends below bit `s`. -/
structure FieldAt (w rank : Nat) (fields : List Nat) (index : Nat) (s n : U64) : Prop where
  stop : s.toNat = w * (index + 1)
  pos : 0 < n.toNat
  le : n.toNat ≤ fields.getD index 0
  above : (fields.drop (index + 1)).sum + n.toNat = rank

section FieldAt

variable {w rank index count bound : Nat} {fields : List Nat} {t s n : U64}

/-- A step of the select goes to one of the two fields that a field is the sum of. -/
theorem FieldAt.narrow {junk shift : Nat} (h : FieldAt (2 * w) rank (pairs fields) index s n)
    (hfields : Fields bound (2 * count) fields) (hbound : bound ≤ 64) (hshift : 256 / 2 ^ shift = w)
    (ht : t.toNat = fields.getD (2 * index + 1) 0 + 65536 * junk) (hjunk : junk < 256) :
    ∃ s' n' index', narrow t shift s n = some (s', n') ∧ FieldAt w rank fields index' s' n' := by
  have hlower := hfields.getD_le (2 * index)
  have hupper := hfields.getD_le (2 * index + 1)
  have hn := h.le
  have habove := h.above
  have hstop := h.stop
  have hpos := h.pos
  rw [getD_pairs fields ⟨count, hfields.length⟩] at hn
  have hrest : Fields bound (2 * (count - (index + 1))) (fields.drop (2 * (index + 1))) :=
    ⟨by rw [List.length_drop, hfields.length]; omega, fun field hfield => hfields.le field (List.mem_of_mem_drop hfield)⟩
  rw [drop_pairs hfields, hrest.sum_pairs] at habove
  have hwide : w ≤ 2 * w * (index + 1) := by nlinarith [Nat.zero_le (w * index)]
  obtain ⟨s', n', hnarrow, hs', hn'⟩ := narrow_spec (n := n) (s := s) ht (by omega) hjunk (by omega)
    (hshift.trans_le (hstop ▸ hwide))
  rw [hshift] at hs'
  by_cases hle : n.toNat ≤ fields.getD (2 * index + 1) 0
  · rw [if_pos hle] at hs' hn'
    refine ⟨s', n', 2 * index + 1, hnarrow, ?_, by omega, by omega, ?_⟩
    · rw [hs', hstop]
      ring_nf
      omega
    · rw [show 2 * index + 1 + 1 = 2 * (index + 1) by omega]
      omega
  · rw [if_neg hle] at hs' hn'
    refine ⟨s', n', 2 * index, hnarrow, ?_, by omega, by omega, ?_⟩
    · rw [hs', hstop, show 2 * w * (index + 1) = w * (2 * index + 1) + w by ring]
      omega
    · have hsum : (fields.drop (2 * index + 1)).sum = fields.getD (2 * index + 1) 0 + (fields.drop (2 * (index + 1))).sum := by
        rcases Nat.lt_or_ge (2 * index + 1) fields.length with hlt | hge
        · rw [List.drop_eq_getElem_cons hlt, List.sum_cons, List.getD_eq_getElem _ _ hlt]
          rfl
        · rw [List.drop_eq_nil_of_le hge, List.getD_eq_default _ _ hge, List.drop_eq_nil_of_le (by omega)]
          rfl
      omega

theorem FieldAt.select {x mask : U64} {k shift : Nat} (h : FieldAt (2 * w) rank (pairs fields) index s n)
    (hx : x.toNat = packed w fields) (hfields : Fields bound (2 * count) fields) (hbits : 2 * w * count = 64)
    (hmask : mask.toNat = 2 ^ k - 1) (hbound : bound < 2 ^ k) (hk : k ≤ w) (hlow : bound ≤ 64)
    (hshift : 256 / 2 ^ shift = w) :
    ∃ amount shifted s' n' index', checked_sub s (BitVec.ofNat 64 w) = some amount ∧
      checked_shr x amount = some shifted ∧ zed.rope.narrow (shifted &&& mask) shift s n = some (s', n') ∧
        FieldAt w rank fields index' s' n' := by
  have hw : 0 < w := by
    rcases Nat.eq_zero_or_pos w with rfl | hpos
    · omega
    · exact hpos
  have hindex : index < count := by
    by_contra hge
    have hle := h.le
    rw [List.getD_eq_default _ _ (by rw [hfields.sums.length]; omega)] at hle
    exact absurd h.pos (Nat.not_lt.mpr hle)
  have hstop := h.stop
  have htop : 2 * w * (index + 1) ≤ 2 * w * count := Nat.mul_le_mul_left _ hindex
  have hstart : 2 * w * (index + 1) = w * (2 * index + 1) + w := by ring
  have hw64 : (BitVec.ofNat 64 w).toNat = w := by
    rw [BitVec.toNat_ofNat, Nat.mod_eq_of_lt (by omega)]
  have hamount : (s - BitVec.ofNat 64 w).toNat = w * (2 * index + 1) := by
    rw [BitVec.toNat_sub_of_le (by rw [BitVec.le_def]; omega)]
    omega
  have hfield : ((x >>> (s - BitVec.ofNat 64 w).toNat) &&& mask).toNat = fields.getD (2 * index + 1) 0 := by
    have hword := packed_field hfields (hbound.trans_le (Nat.pow_le_pow_right (by omega) hk)) (2 * index + 1)
    have hle := hfields.getD_le (2 * index + 1)
    rw [BitVec.toNat_and, BitVec.toNat_ushiftRight, Nat.shiftRight_eq_div_pow, hamount, hmask, hx,
      Nat.and_two_pow_sub_one_eq_mod, ← Nat.mod_mod_of_dvd _ (Nat.pow_dvd_pow 2 hk), hword, Nat.mod_eq_of_lt (by omega)]
  obtain ⟨s', n', index', hnarrow, hlocated⟩ := @FieldAt.narrow _ _ _ _ _ _ _ _ _ 0 _ h hfields hlow hshift
    (by omega) (by omega)
  refine ⟨_, _, s', n', index', if_pos ?_, if_pos ?_, hnarrow, hlocated⟩
  · omega
  · omega

end FieldAt

def bits (x : U64) : List Nat := (List.range 64).map fun i => (x.getLsbD i).toNat

theorem bits_fields (x : U64) : Fields 1 (2 * 32) (bits x) := by
  refine ⟨by simp [bits], fun field hfield => ?_⟩
  obtain ⟨i, -, rfl⟩ := List.mem_map.mp hfield
  exact Bool.toNat_le _

theorem packed_testBit (x n : Nat) :
    packed 1 ((List.range n).map fun i => (x.testBit i).toNat) = x % 2 ^ n := by
  induction n generalizing x with
  | zero => simp [packed, Nat.mod_one]
  | succ n ih =>
    have hshift : ((List.range n).map fun i => (x.testBit (i + 1)).toNat) =
        (List.range n).map fun i => ((x / 2).testBit i).toNat := by
      refine List.map_congr_left fun i _ => ?_
      rw [Nat.testBit_succ]
    rw [List.range_succ_eq_map, List.map_cons, List.map_map]
    change packed 1 (_ :: (List.range n).map fun i => (x.testBit (i + 1)).toNat) = _
    rw [hshift, packed, ih, Nat.testBit_zero, Nat.pow_succ' (n := n), Nat.mod_mul, Nat.pow_one]
    rcases Nat.mod_two_eq_zero_or_one x with hx | hx <;> simp [hx]

theorem packed_word (x : U64) : packed 1 (bits x) = x.toNat := by
  rw [bits]
  change packed 1 ((List.range 64).map fun i => (x.toNat.testBit i).toNat) = _
  rw [packed_testBit, Nat.mod_eq_of_lt x.isLt]

section Registers

variable {w count bound : Nat} {fields : List Nat} {x mask : U64}

theorem checked_sub_eq {x y : U64} (hle : y.toNat ≤ x.toNat) :
    checked_sub x y = some (x - y) ∧ (x - y).toNat = x.toNat - y.toNat :=
  ⟨if_pos hle, BitVec.toNat_sub_of_le hle⟩

theorem checked_add_eq {x y : U64} (hlt : x.toNat + y.toNat < 2 ^ 64) :
    checked_add x y = some (x + y) ∧ (x + y).toNat = x.toNat + y.toNat :=
  ⟨if_pos hlt, by rw [BitVec.toNat_add, Nat.mod_eq_of_lt hlt]⟩

theorem register_bits (hx : x.toNat = packed 1 fields) (hfields : Fields 1 (2 * count) fields)
    (hmask : mask.toNat = halves 1 count) :
    ∃ a, checked_sub x ((x >>> 1) &&& mask) = some a ∧ a.toNat = packed 2 (pairs fields) := by
  have huppers : ((x >>> 1) &&& mask).toNat = packed 2 (uppers fields) := by
    rw [BitVec.toNat_and, BitVec.toNat_ushiftRight, Nat.shiftRight_eq_div_pow, hx, hmask]
    exact packed_uppers hfields (by omega)
  have hsplit := packed_bits hfields
  obtain ⟨hsub, hvalue⟩ := checked_sub_eq (x := x) (y := (x >>> 1) &&& mask) (by omega)
  exact ⟨_, hsub, by omega⟩

theorem register_masked (hx : x.toNat = packed w fields) (hfields : Fields bound (2 * count) fields)
    (hmask : mask.toNat = halves w count) (hbound : bound < 2 ^ w)
    (hfit : packed (2 * w) (List.replicate count (2 * bound)) < 2 ^ 64) :
    ∃ b, checked_add (x &&& mask) ((x >>> w) &&& mask) = some b ∧ b.toNat = packed (2 * w) (pairs fields) := by
  have hsum : (x &&& mask).toNat + ((x >>> w) &&& mask).toNat = packed (2 * w) (pairs fields) := by
    rw [BitVec.toNat_and, BitVec.toNat_and, BitVec.toNat_ushiftRight, Nat.shiftRight_eq_div_pow, hx, hmask,
      packed_uppers hfields hbound, packed_lowers hfields hbound]
  have hle := packed_le_replicate (w := 2 * w) hfields.sums
  obtain ⟨hadd, hvalue⟩ := checked_add_eq (x := x &&& mask) (y := (x >>> w) &&& mask) (by omega)
  exact ⟨_, hadd, by omega⟩

theorem register_sums (hx : x.toNat = packed w fields) (hfields : Fields bound (2 * count) fields)
    (hmask : mask.toNat = halves w count) (hbound : 2 * bound < 2 ^ w)
    (hfit : 2 * packed w (List.replicate (2 * count) bound) < 2 ^ 64) :
    ∃ sum, checked_add x (x >>> w) = some sum ∧ (sum &&& mask).toNat = packed (2 * w) (pairs fields) := by
  have hle := packed_le_replicate (w := w) hfields
  have hshift : (x >>> w).toNat = packed w fields / 2 ^ w := by
    rw [BitVec.toNat_ushiftRight, Nat.shiftRight_eq_div_pow, hx]
  have hdiv := Nat.div_le_self (packed w fields) (2 ^ w)
  obtain ⟨hadd, hvalue⟩ := checked_add_eq (x := x) (y := x >>> w) (by omega)
  refine ⟨_, hadd, ?_⟩
  rw [BitVec.toNat_and, hvalue, hshift, hx, hmask]
  exact packed_sums hfields hbound

theorem first_step {ones : List Nat} {d n : U64} (hones : Fields 16 4 ones) (hd : d.toNat = packed 16 ones)
    (hpos : 0 < n.toNat) (hle : n.toNat ≤ ones.sum) :
    ∃ t s' n' index, checked_add (d >>> 32) (d >>> 48) = some t ∧ narrow t 3 64#64 n = some (s', n') ∧
      FieldAt 32 n.toNat (pairs ones) index s' n' := by
  match ones, hones with
  | [x, y, z, u], hones =>
    have hbounds := hones.le
    simp only [List.mem_cons, List.not_mem_nil, or_false, forall_eq_or_imp, forall_eq] at hbounds
    have hwhole : d.toNat = x + 65536 * (y + 65536 * (z + 65536 * u)) := by
      rw [hd]
      simp [packed]
    have hhigh : (d >>> 32).toNat = z + 65536 * u := by
      rw [BitVec.toNat_ushiftRight, Nat.shiftRight_eq_div_pow]
      omega
    have htop : (d >>> 48).toNat = u := by
      rw [BitVec.toNat_ushiftRight, Nat.shiftRight_eq_div_pow]
      omega
    obtain ⟨hadd, hvalue⟩ := checked_add_eq (x := d >>> 32) (y := d >>> 48) (by omega)
    have hlocated : FieldAt (2 * 32) n.toNat (pairs (pairs [x, y, z, u])) 0 64#64 n := by
      refine ⟨rfl, hpos, ?_, by simp [pairs]⟩
      simp only [pairs, List.getD_cons_zero]
      simp only [List.sum_cons, List.sum_nil] at hle
      omega
    have ht : (d >>> 32 + d >>> 48).toNat = (pairs [x, y, z, u]).getD (2 * 0 + 1) 0 + 65536 * u := by
      change _ = z + u + 65536 * u
      omega
    obtain ⟨s', n', index, hnarrow, hnext⟩ := @FieldAt.narrow _ _ _ 1 32 _ _ _ _ u 3 hlocated
      (@Fields.sums 16 2 _ hones) (by omega) rfl ht (by omega)
    exact ⟨_, s', n', index, hadd, hnarrow, hnext⟩

end Registers

theorem bind_some_of {α β : Type} {x : Option α} {f : α → Option β} {a : α} {b : β} (hx : x = some a)
    (hf : f a = some b) : (x >>= f) = some b := by
  rw [hx]
  exact hf

theorem nth_set_bit_u64_located {v n : U64} (hpos : 0 < n.toNat) (hle : n.toNat ≤ (bits v.reverse).sum) :
    ∃ (index : Nat) (i : U64), nth_set_bit_u64 v n = some i ∧ i.toNat = 63 - index ∧ index < 64 ∧
      (bits v.reverse).getD index 0 = 1 ∧ ((bits v.reverse).drop (index + 1)).sum + 1 = n.toNat := by
  have hbits := bits_fields v.reverse
  have hword := packed_word v.reverse
  rw [nth_set_bit_u64]
  generalize hx : v.reverse = x at *
  generalize bits x = ones at *
  obtain ⟨a, hsubA, ha⟩ := @register_bits 32 _ _ (U64.MAX / 3#64) hword.symm hbits (by decide)
  have hpairs := @Fields.sums 1 32 _ hbits
  obtain ⟨b, haddB, hb⟩ := @register_masked 2 16 _ _ _ (U64.MAX / 5#64) ha hpairs (by decide) (by decide) (by decide)
  have hnibbles := @Fields.sums 2 16 _ hpairs
  obtain ⟨sumC, haddC, hc⟩ := @register_sums 4 8 _ _ _ (U64.MAX / 0x11#64) hb hnibbles (by decide) (by decide) (by decide)
  have hbytes := @Fields.sums 4 8 _ hnibbles
  obtain ⟨sumD, haddD, hd⟩ := @register_sums 8 4 _ _ _ (U64.MAX / 0x101#64) hc hbytes (by decide) (by decide) (by decide)
  have hwords := @Fields.sums 8 4 _ hbytes
  have hsum : (pairs (pairs (pairs (pairs ones)))).sum = ones.sum := by
    rw [@Fields.sum_pairs 8 4 _ hbytes, @Fields.sum_pairs 4 8 _ hnibbles, @Fields.sum_pairs 2 16 _ hpairs,
      @Fields.sum_pairs 1 32 _ hbits]
  obtain ⟨t, s, m, index, haddT, hnarrow, hlocated⟩ := first_step hwords hd hpos (by rw [hsum]; exact hle)
  obtain ⟨amount4, shifted4, s4, n4, index4, hsub4, hshr4, hnarrow4, hlocated4⟩ :=
    @FieldAt.select 16 _ _ 2 16 _ _ _ _ 0xff#64 8 4 hlocated hd hwords rfl rfl (by omega) (by omega) (by omega) rfl
  obtain ⟨amount5, shifted5, s5, n5, index5, hsub5, hshr5, hnarrow5, hlocated5⟩ :=
    @FieldAt.select 8 _ _ 4 8 _ _ _ _ 0xf#64 4 5 hlocated4 hc hbytes rfl rfl (by omega) (by omega) (by omega) rfl
  obtain ⟨amount6, shifted6, s6, n6, index6, hsub6, hshr6, hnarrow6, hlocated6⟩ :=
    @FieldAt.select 4 _ _ 8 4 _ _ _ _ 0x7#64 3 6 hlocated5 hb hnibbles rfl rfl (by omega) (by omega) (by omega) rfl
  obtain ⟨amount7, shifted7, s7, n7, index7, hsub7, hshr7, hnarrow7, hlocated7⟩ :=
    @FieldAt.select 2 _ _ 16 2 _ _ _ _ 0x3#64 2 7 hlocated6 ha hpairs rfl rfl (by omega) (by omega) (by omega) rfl
  obtain ⟨amount8, shifted8, s8, n8, index8, hsub8, hshr8, hnarrow8, hlocated8⟩ :=
    @FieldAt.select 1 _ _ 32 1 _ _ _ _ 0x1#64 1 8 hlocated7 hword.symm hbits rfl rfl (by omega) (by omega) (by omega) rfl
  obtain ⟨s9, hsub9, hlast⟩ := Option.bind_eq_some_iff.mp hnarrow8
  obtain ⟨n9, -, heq⟩ := Option.bind_eq_some_iff.mp hlast
  obtain ⟨rfl, rfl⟩ := Prod.mk.inj (Option.some.inj heq)
  have hstop := hlocated8.stop
  have hpos8 := hlocated8.pos
  have hle8 := hlocated8.le
  have hone := hbits.getD_le index8
  have hindex : index8 < 64 := by
    by_contra hge
    rw [List.getD_eq_default _ _ (by rw [hbits.length]; omega)] at hle8
    omega
  obtain ⟨hfrom, hfromValue⟩ := checked_sub_eq (x := 65#64) (y := s9) (by change s9.toNat ≤ 65; omega)
  have h65 : (65#64).toNat = 65 := rfl
  obtain ⟨hresult, hvalue⟩ := checked_sub_eq (x := 65#64 - s9) (y := 1#64) (by change 1 ≤ _; omega)
  refine ⟨index8, _, ?_, hvalue.trans ?_, hindex, by omega, ?_⟩
  · refine bind_some_of hsubA (bind_some_of haddB (bind_some_of haddC (bind_some_of haddD ?_)))
    refine bind_some_of haddT (bind_some_of hnarrow ?_)
    refine bind_some_of hsub4 (bind_some_of hshr4 (bind_some_of hnarrow4 ?_))
    refine bind_some_of hsub5 (bind_some_of hshr5 (bind_some_of hnarrow5 ?_))
    refine bind_some_of hsub6 (bind_some_of hshr6 (bind_some_of hnarrow6 ?_))
    refine bind_some_of hsub7 (bind_some_of hshr7 (bind_some_of hnarrow7 ?_))
    refine bind_some_of hsub8 (bind_some_of hshr8 (bind_some_of hsub9 ?_))
    exact bind_some_of hfrom hresult
  · change (65#64 - s9).toNat - 1 = _
    omega
  · have habove := hlocated8.above
    omega

/-- The bit is the `n`-th lowest one that is set. -/
structure Selects {w : Nat} (v : BitVec w) (n i : Nat) : Prop where
  lt : i < w
  set : v.getLsbD i = true
  rank : (List.range i).countP v.getLsbD + 1 = n

theorem sum_eq_countP (holds : Nat → Bool) (n : Nat) :
    ((List.range n).map fun i => (holds i).toNat).sum = (List.range n).countP holds := by
  induction n with
  | zero => rfl
  | succ n ih =>
    rw [List.range_succ, List.map_append, List.sum_append, List.countP_append, ih, List.map_singleton, List.sum_singleton,
      List.countP_singleton]
    cases holds n <;> rfl

theorem bits_reverse (v : U64) : bits v.reverse = (bits v).reverse := by
  refine List.ext_getElem (by simp [bits]) fun i hi hi' => ?_
  have hlt : i < 64 := by simpa [bits] using hi
  simp only [bits, List.getElem_reverse, List.getElem_map, List.getElem_range, List.length_map, List.length_range,
    BitVec.getLsbD_reverse, BitVec.getMsbD_eq_getLsbD, hlt, decide_true, Bool.true_and]

theorem nth_set_bit_u64_selects {v : U64} {n : Nat} (hpos : 0 < n) (hle : n ≤ count_ones v) :
    ∃ i, nth_set_bit_u64 v (BitVec.ofNat 64 n) = some i ∧ Selects v n i.toNat := by
  have hcount : (bits v.reverse).sum = count_ones v := by
    rw [bits_reverse, List.sum_reverse]
    exact sum_eq_countP v.getLsbD 64
  have hcountLe : count_ones v ≤ 64 := List.countP_le_length.trans_eq (List.length_range)
  have hword : (BitVec.ofNat 64 n).toNat = n := by
    rw [BitVec.toNat_ofNat, Nat.mod_eq_of_lt (by omega)]
  obtain ⟨index, i, hresult, hi, hindex, hset, hrank⟩ :=
    @nth_set_bit_u64_located v (BitVec.ofNat 64 n) (by omega) (by omega)
  rw [bits_reverse] at hset hrank
  have hlength : (bits v).length = 64 := by simp [bits]
  refine ⟨i, hresult, by omega, ?_, ?_⟩
  · rw [List.getD_eq_getElem _ _ (by simp [hlength]; exact hindex), List.getElem_reverse] at hset
    simp only [bits, List.getElem_map, List.getElem_range, List.length_map, List.length_range] at hset
    rw [hi]
    exact Bool.toNat_eq_one.mp hset
  · rw [List.drop_reverse, List.sum_reverse, hlength, bits, ← List.map_take, List.take_range,
      show min (64 - (index + 1)) 64 = 63 - index by omega, sum_eq_countP, hword] at hrank
    rw [hi]
    exact hrank

/-- For every word and every `n` from 1 to the number of its set bits, `nth_set_bit`
    has no overflow and is the index of the `n`-th lowest set bit. -/
theorem nth_set_bit_selects (v : BitVec 128) (n : Nat) (hpos : 1 ≤ n) (hle : n ≤ count_ones v) :
    ∃ i, nth_set_bit v n = some i ∧ Selects v n i := by
  have hlow : ∀ i, i < 64 → (v.setWidth 64).getLsbD i = v.getLsbD i := by
    intro i hi
    rw [BitVec.getLsbD_setWidth, decide_eq_true hi, Bool.true_and]
  have hhigh : ∀ i, i < 64 → ((v >>> 64).setWidth 64).getLsbD i = v.getLsbD (64 + i) := by
    intro i hi
    rw [BitVec.getLsbD_setWidth, decide_eq_true hi, Bool.true_and, BitVec.getLsbD_ushiftRight]
  have hbelow : ∀ i, i ≤ 64 → (List.range i).countP (v.setWidth 64).getLsbD = (List.range i).countP v.getLsbD := by
    intro i hi
    refine List.countP_congr fun j hj => ?_
    rw [hlow j ((List.mem_range.mp hj).trans_le hi)]
  have habove : ∀ i, i ≤ 64 → (List.range (64 + i)).countP v.getLsbD =
      count_ones (v.setWidth 64) + (List.range i).countP ((v >>> 64).setWidth 64).getLsbD := by
    intro i hi
    rw [List.range_add, List.countP_append, List.countP_map, count_ones, hbelow 64 le_rfl]
    congr 1
    refine List.countP_congr fun j hj => ?_
    rw [hhigh j ((List.mem_range.mp hj).trans_le hi)]
    rfl
  have htotal : count_ones v = count_ones (v.setWidth 64) + count_ones ((v >>> 64).setWidth 64) := habove 64 le_rfl
  simp only [nth_set_bit]
  by_cases hn : n > count_ones (v.setWidth 64)
  · obtain ⟨i, hresult, hselects⟩ := @nth_set_bit_u64_selects ((v >>> 64).setWidth 64)
      (n - count_ones (v.setWidth 64)) (by omega) (by omega)
    have hlt := hselects.lt
    refine ⟨64 + i.toNat, by rw [if_pos hn, hresult]; rfl, by omega, ?_, ?_⟩
    · rw [← hhigh _ hlt]
      exact hselects.set
    · have hrank := hselects.rank
      rw [habove _ hlt.le]
      omega
  · obtain ⟨i, hresult, hselects⟩ := @nth_set_bit_u64_selects (v.setWidth 64) n hpos (by omega)
    have hlt := hselects.lt
    refine ⟨i.toNat, by rw [if_neg hn, hresult]; rfl, by omega, ?_, ?_⟩
    · rw [← hlow _ hlt]
      exact hselects.set
    · rw [← hbelow _ hlt.le]
      exact hselects.rank

theorem nth_set_bit_of_high_word :
    1 ≤ 2 ∧ 2 ≤ count_ones (0x100000000000000000010#128) ∧
      ∃ i, nth_set_bit 0x100000000000000000010#128 2 = some i ∧ Selects 0x100000000000000000010#128 2 i :=
  ⟨by decide, by decide, nth_set_bit_selects 0x100000000000000000010#128 2 (by decide) (by decide)⟩

example : nth_set_bit 0x100000000000000000010#128 2 = some 80 := by decide +kernel

end zed.rope
