import Mathlib.Data.BitVec

/-!
Masking the low bits of fixed-width words: how `&&&` with a high mask, `&&& 1`
and `||| 1` act on the unsigned value, and when a value is its own signed
reading.
-/

namespace MallocLab.WordBits

variable {n : Nat}

/-- A mask whose set bits are exactly those from `k` on clears the `k` low bits. -/
theorem toNat_and_highMask (w mask : BitVec n) (k : Nat)
    (hmask : ∀ i < n, mask.getLsbD i = decide (k ≤ i)) :
    (w &&& mask).toNat = w.toNat / 2 ^ k * 2 ^ k := by
  have hw : w &&& mask = (w >>> k) <<< k := by
    apply BitVec.eq_of_getLsbD_eq
    intro i hi
    rw [BitVec.getLsbD_and, hmask i hi, BitVec.getLsbD_shiftLeft, BitVec.getLsbD_ushiftRight]
    rcases Nat.lt_or_ge i k with hik | hik
    · have hle : ¬ k ≤ i := by omega
      simp [hik, hle]
    · have hsum : k + (i - k) = i := by omega
      have hlt : ¬ i < k := by omega
      simp [hi, hik, hlt, hsum]
  have hle : w.toNat / 2 ^ k * 2 ^ k ≤ w.toNat := Nat.div_mul_le_self _ _
  rw [hw, BitVec.toNat_shiftLeft, BitVec.toNat_ushiftRight, Nat.shiftRight_eq_div_pow,
    Nat.shiftLeft_eq, Nat.mod_eq_of_lt (hle.trans_lt w.isLt)]

theorem toNat_and_one (w : BitVec 64) : (w &&& 1#64).toNat = w.toNat % 2 := by
  rw [BitVec.toNat_and]
  exact Nat.and_one_is_mod _

theorem toNat_and_seven (w : BitVec 64) : (w &&& 7#64).toNat = w.toNat % 8 := by
  rw [BitVec.toNat_and]
  exact Nat.and_two_pow_sub_one_eq_mod _ 3

theorem toNat_and_neg_two (w : BitVec 64) : (w &&& -2#64).toNat = w.toNat / 2 * 2 :=
  toNat_and_highMask w (-2#64) 1 (by decide)

theorem toNat_and_not_seven (w : BitVec 64) : (w &&& ~~~7#64).toNat = w.toNat / 8 * 8 :=
  toNat_and_highMask w (~~~7#64) 3 (by decide)

/-- Setting the lowest bit of a word in which it is clear adds one. -/
theorem or_one_of_even {w : BitVec 64} (hw : w.toNat % 2 = 0) : w ||| 1#64 = w + 1#64 := by
  rw [BitVec.add_eq_or_of_and_eq_zero]
  apply BitVec.eq_of_toNat_eq
  rw [toNat_and_one, hw]
  rfl

theorem or_one_of_odd {w : BitVec 64} (hw : w.toNat % 2 = 1) : w ||| 1#64 = w := by
  have hlow : w &&& 1#64 = 1#64 := by
    apply BitVec.eq_of_toNat_eq
    rw [toNat_and_one, hw]
    rfl
  calc
    w ||| 1#64 = w ||| (w &&& 1#64) := by rw [hlow]
    _ = w := by
      apply BitVec.eq_of_getLsbD_eq
      intro i _
      rw [BitVec.getLsbD_or, BitVec.getLsbD_and]
      cases w.getLsbD i <;> rfl

theorem toInt_ofNat_of_lt {m : Nat} (hm : m < 2 ^ 63) : (BitVec.ofNat 64 m).toInt = m := by
  rw [BitVec.toInt_eq_toNat_of_lt]
  · rw [BitVec.toNat_ofNat, Nat.mod_eq_of_lt (by omega)]
  · rw [BitVec.toNat_ofNat, Nat.mod_eq_of_lt (by omega)]
    omega

theorem toNat_ofNat_of_lt {m : Nat} (hm : m < 2 ^ 64) : (BitVec.ofNat 64 m).toNat = m := by
  rw [BitVec.toNat_ofNat, Nat.mod_eq_of_lt hm]

section SignExtension

variable {m : Nat}

theorem setWidth_signExtend (hle : n ≤ m) (x : BitVec n) : (x.signExtend m).setWidth n = x := by
  apply BitVec.eq_of_getLsbD_eq
  intro i hi
  have him : i < m := by omega
  rw [BitVec.getLsbD_setWidth, BitVec.getLsbD_signExtend]
  simp [hi, him]

theorem msb_of_nonneg {x : BitVec n} (hx : 0 ≤ x.toInt) : x.msb = false := by
  rw [BitVec.msb_eq_toInt]
  exact decide_eq_false (not_lt.mpr hx)

theorem toNat_of_nonneg {x : BitVec n} (hx : 0 ≤ x.toInt) : (x.toNat : Int) = x.toInt :=
  (BitVec.toInt_eq_toNat_of_msb (msb_of_nonneg hx)).symm

theorem toNat_signExtend_of_nonneg (hle : n ≤ m) {x : BitVec n} (hx : 0 ≤ x.toInt) :
    (x.signExtend m).toNat = x.toNat := by
  rw [BitVec.signExtend_eq_setWidth_of_msb_false (msb_of_nonneg hx)]
  exact BitVec.toNat_setWidth_of_le hle

end SignExtension

end MallocLab.WordBits
