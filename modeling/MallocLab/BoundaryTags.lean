import Mathlib.Data.Set.Insert
import Mathlib.Order.Interval.Set.Basic
import MallocLab.HeapPrograms
import MallocLab.WordBits

/-!
Boundary tags: the words `block_set_size_and_allocated` leaves at both ends of
a block, and what the inline functions of `mminline.h` read back from them.
-/

namespace MallocLab.BoundaryTags

open MallocLab.Machine
open MallocLab.Mminline
open MallocLab.HeapPrograms
open MallocLab.WordBits

/-- The alloc bit as a word. -/
def bit (alloc : Bool) : Word := BitVec.ofNat 64 alloc.toNat

/-- The content of a header or an end tag. -/
def tagWord (size : Nat) (alloc : Bool) : Word := BitVec.ofNat 64 (size + alloc.toNat)

theorem bit_true : bit true = 1#64 := rfl

theorem bit_false : bit false = 0#64 := rfl

@[simp] theorem bit_eq_zero_iff {alloc : Bool} : bit alloc = 0#64 ↔ alloc = false := by
  cases alloc <;> decide

theorem toNat_tagWord {size : Nat} {alloc : Bool} (hsize : size < 2 ^ 63) :
    (tagWord size alloc).toNat = size + alloc.toNat := by
  have := alloc.toNat_le
  exact toNat_ofNat_of_lt (by omega)

theorem toInt_tagWord {size : Nat} {alloc : Bool} (haligned : size % 8 = 0)
    (hsize : size < 2 ^ 63) : (tagWord size alloc).toInt = size + alloc.toNat := by
  have := alloc.toNat_le
  rw [tagWord, toInt_ofNat_of_lt (by omega)]
  push_cast
  rfl

theorem tagWord_and_one {size : Nat} {alloc : Bool} (haligned : size % 8 = 0)
    (hsize : size < 2 ^ 63) : tagWord size alloc &&& 1#64 = bit alloc := by
  apply BitVec.eq_of_toNat_eq
  rw [toNat_and_one, toNat_tagWord hsize]
  cases alloc with
  | false => change _ = 0; simp; omega
  | true => change _ = 1; simp; omega

theorem tagWord_and_neg_two {size : Nat} {alloc : Bool} (haligned : size % 8 = 0)
    (hsize : size < 2 ^ 63) : tagWord size alloc &&& -2#64 = BitVec.ofNat 64 size := by
  have := alloc.toNat_le
  apply BitVec.eq_of_toNat_eq
  rw [toNat_and_neg_two, toNat_tagWord hsize, toNat_ofNat_of_lt (by omega)]
  omega

theorem tagWord_clear {size : Nat} {alloc : Bool} (haligned : size % 8 = 0)
    (hsize : size < 2 ^ 63) : tagWord size alloc &&& -2#64 = tagWord size false :=
  tagWord_and_neg_two haligned hsize

theorem tagWord_set {size : Nat} {alloc : Bool} (haligned : size % 8 = 0)
    (hsize : size < 2 ^ 63) : tagWord size alloc ||| 1#64 = tagWord size true := by
  cases alloc with
  | false =>
      rw [or_one_of_even (by rw [toNat_tagWord hsize]; simp; omega)]
      exact (BitVec.ofNat_add size 1).symm
  | true =>
      exact or_one_of_odd (by rw [toNat_tagWord hsize]; simp; omega)

/-- Whatever stale word is at the header, its low bit is an alloc bit. -/
theorem exists_stale_bit (w : Word) : ∃ alloc, w &&& 1#64 = bit alloc := by
  refine ⟨decide (w.toNat % 2 = 1), ?_⟩
  apply BitVec.eq_of_toNat_eq
  rw [toNat_and_one]
  rcases Nat.mod_two_eq_zero_or_one w.toNat with h | h <;> simp [h, bit]

theorem ofNat_or_bit {size : Nat} {alloc : Bool} (haligned : size % 8 = 0)
    (hsize : size < 2 ^ 63) : BitVec.ofNat 64 size ||| bit alloc = tagWord size alloc := by
  cases alloc with
  | false => rw [bit_false, BitVec.or_zero]; rfl
  | true => exact (tagWord_set haligned hsize : tagWord size false ||| 1#64 = tagWord size true)

/-- Both tags of the block at `b` say `size` and `alloc`. -/
structure Tagged (h : Heap) (b size : Nat) (alloc : Bool) : Prop where
  aligned : size % 8 = 0
  large : 16 ≤ size
  small : size < 2 ^ 63
  inHeap : h.InHeap b size
  header : h.word b = tagWord size alloc
  endTag : h.word (b + size - 8) = tagWord size alloc

/-- Both tags of a block rewritten. -/
def setTags (h : Heap) (b size : Nat) (alloc : Bool) : Heap :=
  (h.setWord b (tagWord size alloc)).setWord (b + size - 8) (tagWord size alloc)

/-- The bytes of the two tags of a block. -/
def tagBytes (b size : Nat) : Set Nat :=
  Set.Ico b (b + 8) ∪ Set.Ico (b + size - 8) (b + size)

section Reads

variable {h : Heap} {b size : Nat} {alloc : Bool}

theorem payloadAt_neg_two (b : Nat) : payloadAt b (-2) = b - 8 := by
  unfold payloadAt
  omega

theorem payloadAt_endTag {b size : Nat} {alloc : Bool} (haligned : size % 8 = 0)
    (hlarge : 16 ≤ size) (hsize : size < 2 ^ 63) :
    payloadAt b ((tagWord size alloc).toInt.tdiv 8 - 2) = b + size - 8 := by
  have := alloc.toNat_le
  rw [toInt_tagWord haligned hsize, Int.tdiv_eq_ediv_of_nonneg (by omega)]
  unfold payloadAt
  omega

theorem blockAllocated_run (hb : h.InHeap b 8) :
    (blockAllocated b).run h = .ok (h.word b &&& 1#64, h) := by
  simp [blockAllocated, readWord_run hb]

theorem Tagged.inHeap_header (ht : Tagged h b size alloc) : h.InHeap b 8 := by
  have := ht.inHeap
  have := ht.large
  unfold Heap.InHeap at *
  omega

theorem Tagged.inHeap_endTag (ht : Tagged h b size alloc) : h.InHeap (b + size - 8) 8 := by
  have := ht.inHeap
  have := ht.large
  unfold Heap.InHeap at *
  omega

theorem Tagged.header_bit (ht : Tagged h b size alloc) : h.word b &&& 1#64 = bit alloc := by
  rw [ht.header, tagWord_and_one ht.aligned ht.small]

theorem Tagged.header_size (ht : Tagged h b size alloc) :
    h.word b &&& -2#64 = BitVec.ofNat 64 size := by
  rw [ht.header, tagWord_and_neg_two ht.aligned ht.small]

theorem Tagged.toNat_header_size (ht : Tagged h b size alloc) :
    (h.word b &&& -2#64).toNat = size := by
  have hsmall := ht.small
  rw [ht.header_size, toNat_ofNat_of_lt (by omega)]

theorem Tagged.blockAllocated_run (ht : Tagged h b size alloc) :
    (blockAllocated b).run h = .ok (bit alloc, h) := by
  rw [BoundaryTags.blockAllocated_run ht.inHeap_header, ht.header_bit]

theorem Tagged.blockSize_run (ht : Tagged h b size alloc) :
    (blockSize b).run h = .ok (BitVec.ofNat 64 size, h) := by
  simp only [blockSize, StateT.run_bind, readWord_run ht.inHeap_header, ht.header, ok_bind,
    tagWord_and_neg_two ht.aligned ht.small, StateT.run_pure, pure_eq_ok]

theorem Tagged.blockNext_run (ht : Tagged h b size alloc) :
    (blockNext b).run h = .ok (b + size, h) := by
  have hnext : ((b : Int) + (BitVec.ofNat 64 size).toInt).toNat = b + size := by
    rw [toInt_ofNat_of_lt ht.small]
    omega
  simp [blockNext, ht.blockSize_run, hnext]

theorem Tagged.blockPrev_run (ht : Tagged h b size alloc) :
    (blockPrev (b + size)).run h = .ok (b, h) := by
  have hprev : ((b + size : Nat) - (BitVec.ofNat 64 size).toInt).toNat = b := by
    rw [toInt_ofNat_of_lt ht.small]
    omega
  simp only [blockPrev, blockPrevSize, payloadAt_neg_two, StateT.run_bind,
    readWord_run ht.inHeap_endTag, ht.endTag, ok_bind, StateT.run_pure, pure_eq_ok,
    tagWord_and_neg_two ht.aligned ht.small, hprev]

theorem blockEndTag_run (haligned : size % 8 = 0) (hlarge : 16 ≤ size) (hsmall : size < 2 ^ 63)
    (hb : h.InHeap b 8) (hheader : h.word b = tagWord size alloc) :
    (blockEndTag b).run h = .ok (b + size - 8, h) := by
  have hassert : (tagWord size alloc).toInt ≥ (wordSize * 2).toInt := by
    have h16 : (wordSize * 2).toInt = 16 := by decide
    rw [toInt_tagWord haligned hsmall, h16]
    omega
  simp only [blockEndTag, StateT.run_bind, readWord_run hb, hheader, ok_bind,
    assertThat_run hassert, StateT.run_pure, pure_eq_ok,
    payloadAt_endTag haligned hlarge hsmall]

end Reads

section Writes

variable {h : Heap} {b size : Nat}

theorem setTags_setTags (haligned : 16 ≤ size) (alloc alloc' : Bool) :
    setTags (setTags h b size alloc) b size alloc' = setTags h b size alloc' := by
  unfold setTags
  rw [setWord_comm (a := b + size - 8) (b := b) _ _ (by omega), setWord_setWord_self,
    setWord_setWord_self]

theorem sameExcept_setTags (hlarge : 16 ≤ size) (alloc : Bool) :
    SameExcept h (setTags h b size alloc) (tagBytes b size) := by
  refine ((sameExcept_setWord h b _).trans (sameExcept_setWord _ (b + size - 8) _)).mono ?_
  have hend : b + size - 8 + 8 = b + size := by omega
  rw [hend]
  exact Set.Subset.rfl

theorem tagged_setTags (haligned : size % 8 = 0) (hlarge : 16 ≤ size) (hsmall : size < 2 ^ 63)
    (hb : h.InHeap b size) (alloc : Bool) : Tagged (setTags h b size alloc) b size alloc where
  aligned := haligned
  large := hlarge
  small := hsmall
  inHeap := hb
  header := by
    unfold setTags
    rw [word_setWord_of_disjoint _ (by omega), word_setWord_self]
  endTag := word_setWord_self _ _

/-- Tags are kept by a change that spares their bytes. -/
theorem Tagged.congr {h' : Heap} {A : Set Nat} {alloc : Bool} (ht : Tagged h b size alloc)
    (hsame : SameExcept h h' A) (hA : ∀ x ∈ tagBytes b size, x ∉ A) :
    Tagged h' b size alloc where
  aligned := ht.aligned
  large := ht.large
  small := ht.small
  inHeap := (hsame.inHeap_iff b size).mpr ht.inHeap
  header := by
    rw [hsame.word_eq, ht.header]
    exact fun x hlo hhi => hA x (.inl ⟨hlo, hhi⟩)
  endTag := by
    have := ht.large
    rw [hsame.word_eq, ht.endTag]
    exact fun x hlo hhi => hA x (.inr ⟨hlo, by omega⟩)

theorem blockSetSize_run (haligned : size % 8 = 0) (hlarge : 16 ≤ size) (hsmall : size < 2 ^ 63)
    (hb : h.InHeap b size) :
    ∃ alloc, (blockSetSize b (BitVec.ofNat 64 size)).run h = .ok ((), setTags h b size alloc) := by
  obtain ⟨alloc, hstale⟩ := exists_stale_bit (h.word b)
  refine ⟨alloc, ?_⟩
  have hheader : h.InHeap b 8 := by unfold Heap.InHeap at *; omega
  have hend : h.InHeap (b + size - 8) 8 := by unfold Heap.InHeap at *; omega
  have hassert : BitVec.ofNat 64 size &&& (alignment - 1) = 0 := by
    apply BitVec.eq_of_toNat_eq
    change (BitVec.ofNat 64 size &&& 7#64).toNat = 0
    rw [toNat_and_seven, toNat_ofNat_of_lt (by omega), haligned]
  have htag : (blockEndTag b).run (h.setWord b (tagWord size alloc)) =
      .ok (b + size - 8, h.setWord b (tagWord size alloc)) :=
    blockEndTag_run haligned hlarge hsmall hheader (word_setWord_self _ _)
  simp only [blockSetSize, StateT.run_bind, assertThat_run hassert, ok_bind,
    blockAllocated_run hheader, hstale, ofNat_or_bit haligned hsmall, writeWord_run hheader, htag]
  exact writeWord_run (h := h.setWord b (tagWord size alloc)) hend _

theorem Tagged.blockSetAllocated_run {old : Bool} (ht : Tagged h b size old) (alloc : Bool) :
    (blockSetAllocated b (bit alloc)).run h = .ok ((), setTags h b size alloc) := by
  have hlarge := ht.large
  have htag : (blockEndTag b).run (h.setWord b (tagWord size alloc)) =
      .ok (b + size - 8, h.setWord b (tagWord size alloc)) :=
    blockEndTag_run ht.aligned hlarge ht.small ht.inHeap_header (word_setWord_self _ _)
  have hread : (readWord (b + size - 8)).run (h.setWord b (tagWord size alloc)) =
      .ok (tagWord size old, h.setWord b (tagWord size alloc)) := by
    rw [readWord_run (h := h.setWord b _) ht.inHeap_endTag,
      word_setWord_of_disjoint _ (by omega), ht.endTag]
  have hwrite := writeWord_run (h := h.setWord b (tagWord size alloc)) ht.inHeap_endTag
    (tagWord size alloc)
  cases alloc with
  | false =>
      have hassert : (0#64 : Word) = 0 ∨ (0#64 : Word) = 1 := .inl rfl
      have hzero : ¬ (0#64 : Word) ≠ 0 := by decide
      rw [bit_false]
      simp only [blockSetAllocated, StateT.run_bind, assertThat_run hassert, ok_bind,
        if_neg hzero, readWord_run ht.inHeap_header, ht.header,
        tagWord_clear ht.aligned ht.small, writeWord_run ht.inHeap_header, htag, hread, hwrite]
      rfl
  | true =>
      have hassert : (1#64 : Word) = 0 ∨ (1#64 : Word) = 1 := .inr rfl
      have hone : (1#64 : Word) ≠ 0 := by decide
      rw [bit_true]
      simp only [blockSetAllocated, StateT.run_bind, assertThat_run hassert, ok_bind,
        if_pos hone, readWord_run ht.inHeap_header, ht.header,
        tagWord_set ht.aligned ht.small, writeWord_run ht.inHeap_header, htag, hread, hwrite]
      rfl

/-- The stale header survives nowhere: both tags end up as asked. -/
theorem blockSetSizeAndAllocated_run (haligned : size % 8 = 0) (hlarge : 16 ≤ size)
    (hsmall : size < 2 ^ 63) (hb : h.InHeap b size) (alloc : Bool) :
    (blockSetSizeAndAllocated b (BitVec.ofNat 64 size) (bit alloc)).run h =
      .ok ((), setTags h b size alloc) := by
  obtain ⟨stale, hset⟩ := blockSetSize_run haligned hlarge hsmall hb
  have htagged := tagged_setTags haligned hlarge hsmall hb stale
  simp only [blockSetSizeAndAllocated, StateT.run_bind, hset, ok_bind,
    htagged.blockSetAllocated_run, setTags_setTags hlarge]

/-- A block that reaches beyond the break stops the program at its end tag. -/
theorem blockSetSizeAndAllocated_run_outOfHeap (haligned : size % 8 = 0) (hlarge : 16 ≤ size)
    (hsmall : size < 2 ^ 63) (hheader : h.InHeap b 8) (hout : h.memBrk < b + size)
    (allocated : Word) : (blockSetSizeAndAllocated b (BitVec.ofNat 64 size) allocated).run h =
      .error (.outOfHeap (b + size - 8)) := by
  obtain ⟨alloc, hstale⟩ := exists_stale_bit (h.word b)
  have hassert : BitVec.ofNat 64 size &&& (alignment - 1) = 0 := by
    apply BitVec.eq_of_toNat_eq
    change (BitVec.ofNat 64 size &&& 7#64).toNat = 0
    rw [toNat_and_seven, toNat_ofNat_of_lt (by omega), haligned]
  have htag : (blockEndTag b).run (h.setWord b (tagWord size alloc)) =
      .ok (b + size - 8, h.setWord b (tagWord size alloc)) :=
    blockEndTag_run haligned hlarge hsmall hheader (word_setWord_self _ _)
  have hend : ¬ (h.setWord b (tagWord size alloc)).InHeap (b + size - 8) 8 := by
    rw [inHeap_setWord]
    rintro ⟨-, hhi⟩
    omega
  refine run_bind_of_error ?_
  simp only [blockSetSize, StateT.run_bind, assertThat_run hassert, ok_bind,
    blockAllocated_run hheader, hstale, ofNat_or_bit haligned hsmall, writeWord_run hheader, htag,
    writeWord_run_outOfHeap hend]

end Writes

end MallocLab.BoundaryTags
