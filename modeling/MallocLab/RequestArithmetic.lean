import MallocLab.AbstractLayout

/-!
The size computations of `mm_malloc` and `mm_realloc` on all values of type
`long`, in terms of the signed value of the request.
-/

namespace MallocLab.RequestArithmetic

open MallocLab.Machine
open MallocLab.Mm
open MallocLab.WordBits
open MallocLab.AbstractLayout

/-- The request in whole words, plus the tags. -/
def rounded (size : Int) : Int := (size + 7) / 8 * 8 + 16

theorem le_rounded (size : Int) : size + 16 ≤ rounded size := by
  unfold rounded
  omega

/-- The sum `align(size) + TAGS_SIZE` as an unsigned word. -/
theorem toNat_align_add (size : Word) : (align size + tagsSize).toNat =
    ((size.toNat + 7) % 2 ^ 64 / 8 * 8 + 16) % 2 ^ 64 := by
  have halign : (align size).toNat = (size + (wordSize - 1)).toNat / 8 * 8 :=
    toNat_and_not_seven (size + (wordSize - 1))
  have htags : tagsSize.toNat = 16 := by decide
  have hseven : (wordSize - 1).toNat = 7 := by decide
  rw [BitVec.toNat_add, halign, htags, BitVec.toNat_add, hseven]

section

variable {size : Word}

theorem toInt_align_add (hsize : size.toInt + 23 < 2 ^ 63) :
    (align size + tagsSize).toInt = rounded size.toInt := by
  have hnat := toNat_align_add size
  have hlt := size.isLt
  unfold rounded
  rw [BitVec.toInt_eq_toNat_cond] at hsize ⊢
  rw [BitVec.toInt_eq_toNat_cond, hnat]
  split at hsize <;> split <;> omega

/-- Within 23 bytes of `LONG_MAX` the sum wraps around. -/
theorem toInt_align_add_neg (hsize : 2 ^ 63 ≤ size.toInt + 23) :
    (align size + tagsSize).toInt < 0 := by
  have hnat := toNat_align_add size
  have hlt := size.isLt
  rw [BitVec.toInt_eq_toNat_cond] at hsize ⊢
  rw [hnat]
  split at hsize <;> split <;> omega

theorem need_eq_max (size : Word) :
    ((need size).bytes : Int) = max 32 (align size + tagsSize).toInt := by
  have hmin : minBlockSize.toInt = 32 := by decide
  have hnat : minBlockSize.toNat = 32 := by decide
  have hlt := (align size + tagsSize).isLt
  change ((requestSize size).toNat : Int) = _
  unfold requestSize
  simp only [hmin]
  split
  · rename_i hlt
    rw [hnat, max_eq_left hlt.le]
    rfl
  · rename_i hge
    rw [max_eq_right (Int.not_lt.mp hge)]
    rw [BitVec.toInt_eq_toNat_cond] at hge ⊢
    split at hge <;> split <;> omega

theorem need_eq (hsize : size.toInt + 23 < 2 ^ 63) :
    ((need size).bytes : Int) = max 32 (rounded size.toInt) := by
  rw [need_eq_max, toInt_align_add hsize]

theorem need_eq_of_overflow (hsize : 2 ^ 63 ≤ size.toInt + 23) : (need size).bytes = 32 := by
  have hmax := need_eq_max size
  have hneg := toInt_align_add_neg hsize
  omega

end

end MallocLab.RequestArithmetic
