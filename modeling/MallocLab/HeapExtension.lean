import MallocLab.RequestSizes

/-!
When `mm_realloc` extends the heap.  Its last branch hands the size of a block to
`mm_malloc`, which adds the tags to it once more, so that it passes by free
blocks that would do and extends the heap by more than the request needs.
-/

namespace MallocLab.HeapExtension

open MallocLab.Machine
open MallocLab.Mminline
open MallocLab.Mm
open MallocLab.AbstractLayout
open MallocLab.AbstractLayout.Layout
open MallocLab.Representation
open MallocLab.Reallocation
open MallocLab.RequestArithmetic
open MallocLab.Runs
open MallocLab.Failure
open MallocLab.RequestSizes

/-- There is room for the request in the heap as it is. -/
def HasRoom (h : Heap) (ptr : Nat) (size : Word) : Prop :=
  FitsInPlace h ptr size ∨ HasFit h (neededBytes size)

/-- `mm_realloc` leaves the break alone if there is room, and otherwise moves it by
what the request needs. -/
def ExtendsAtNeed (h : Heap) (ptr : Nat) (size : Word) : Prop :=
  ∃ q h', (mmRealloc ptr size).run h = .ok (q, h') ∧
    (HasRoom h ptr size → q ≠ null ∧ h'.memBrk = h.memBrk) ∧
    (¬ HasRoom h ptr size → h.memBrk + neededBytes size ≤ h.memMaxAddr →
      (h'.memBrk : Int) = h.memBrk + neededBytes size)

/-- The tags that are counted twice make no difference. -/
def RoomForTags (h : Heap) (ptr : Nat) (size : Word) : Prop :=
  FitsInPlace h ptr size ∨ HasFit h (neededBytes (align size + tagsSize)) ∨
    ¬ HasFit h (neededBytes size) ∧ h.memMaxAddr < h.memBrk + neededBytes size

section Layouts

variable {L : Layout} {b : Block} {size : Word}

/-- The nested request is larger by the tags. -/
theorem need_lt_nested (hpos : 0 < size.toInt) (hint : size.toInt < 2 ^ 31) :
    (need size).bytes < (need (align size + tagsSize)).bytes := by
  have hsum := toInt_align_add (show size.toInt + 23 < 2 ^ 63 by omega)
  have hbound : rounded size.toInt ≤ size.toInt + 23 := by
    unfold rounded
    omega
  have hneed := need_eq (show size.toInt + 23 < 2 ^ 63 by omega)
  have hnested := need_eq (show (align size + tagsSize).toInt + 23 < 2 ^ 63 by omega)
  rw [hsum] at hnested
  have hle := le_rounded size.toInt
  have hle' := le_rounded (rounded size.toInt)
  unfold rounded at hneed hnested hle hle' hbound
  omega

theorem firstFit_mono (hL : L.WellFormed) {n k : Need} (hle : n.bytes ≤ k.bytes)
    (hfit : L.firstFit k ≠ none) : L.firstFit n ≠ none := by
  intro hnone
  rw [hL.firstFit_none_iff] at hnone
  refine hfit (hL.firstFit_none_iff.mpr fun b hb hfree => ?_)
  exact (hnone b hb hfree).trans_le hle

/-- How the three outcomes of the last branch move the break. -/
theorem reallocBlock_cases (hlarge : ¬ (align size + tagsSize).toInt ≤ b.size)
    (hgrow : L.growth b (align size + tagsSize).toInt = none)
    (hzero : align size + tagsSize ≠ 0) :
    (L.firstFit (need (align size + tagsSize)) ≠ none ∧ (L.reallocBlock b size).2 ≠ null ∧
        (L.reallocBlock b size).1.top = L.top) ∨
      (L.firstFit (need (align size + tagsSize)) = none ∧
        L.brk + (need (align size + tagsSize)).bytes ≤ L.maxAddr ∧
        (L.reallocBlock b size).1.top = L.top + (need (align size + tagsSize)).bytes) ∨
      (L.firstFit (need (align size + tagsSize)) = none ∧
        L.maxAddr < L.brk + (need (align size + tagsSize)).bytes ∧
        (L.reallocBlock b size).2 = null ∧ (L.reallocBlock b size).1.top = L.top) := by
  have hnested : L.reallocBlock b size = if (L.malloc (align size + tagsSize)).2 = null then (L, null)
      else ((L.malloc (align size + tagsSize)).1.free (b.addr + 8),
        (L.malloc (align size + tagsSize)).2) := by
    simp only [Layout.reallocBlock, if_neg hlarge, hgrow]
  rw [hnested, Layout.malloc, if_neg hzero]
  rcases hfirst : L.firstFit (need (align size + tagsSize)) with _ | x
  · right
    rcases Decidable.em (L.brk + (need (align size + tagsSize)).bytes ≤ L.maxAddr) with hroom | hfull
    · left
      refine ⟨rfl, hroom, ?_⟩
      simp only [if_pos hroom, if_neg (Nat.succ_ne_zero (L.top + 7)), free_top]
      rfl
    · right
      simp only [if_neg hfull]
      exact ⟨trivial, Nat.lt_of_not_le hfull, rfl, rfl⟩
  · left
    simp only [if_neg (Nat.succ_ne_zero (x.addr + 7)), free_top, place_top]
    exact ⟨Option.some_ne_none x, Nat.succ_ne_zero _, trivial⟩

end Layouts

section Represented

variable {h : Heap} {L : Layout} {b : Block} {size : Word}

theorem hasFit_neededBytes_iff (hR : Represents h L) (size : Word) :
    HasFit h (neededBytes size) ↔ L.firstFit (need size) ≠ none := by
  rw [neededBytes_eq]
  exact hasFit_iff hR (need size)

/-- `ExtendsAtNeed` of the one run there is. -/
theorem extendsAtNeed_of_run {q : Nat} {h' : Heap} {ptr : Nat}
    (hrun : (mmRealloc ptr size).run h = .ok (q, h')) :
    ExtendsAtNeed h ptr size ↔ (HasRoom h ptr size → q ≠ null ∧ h'.memBrk = h.memBrk) ∧
      (¬ HasRoom h ptr size → h.memBrk + neededBytes size ≤ h.memMaxAddr →
        (h'.memBrk : Int) = h.memBrk + neededBytes size) := by
  constructor
  · rintro ⟨q', h'', hrun', hprop⟩
    obtain ⟨rfl, rfl⟩ := Prod.mk.inj (Except.ok.inj (hrun.symm.trans hrun'))
    exact hprop
  · intro hprop
    exact ⟨q, h', hrun, hprop⟩

theorem extendsAtNeed_iff (hR : Represents h L) (hb : b ∈ L.allocated) (hpos : 0 < size.toInt)
    (hint : size.toInt < 2 ^ 31) :
    ExtendsAtNeed h (payload b.addr) size ↔ RoomForTags h (payload b.addr) size := by
  have hL := hR.wellFormed
  have hsize := ne_zero_of_pos hpos
  obtain ⟨h', hrun, hR', -⟩ := mmRealloc_run hR hb hsize (reallocServes_of_lt hint).1
  have hbrk := hR.memBrk_eq_top
  have hbrk' := hR'.memBrk_eq_top
  have hmax := hR.memMaxAddr_eq
  have hLbrk : L.brk = L.top + 16 := rfl
  have hlt := need_lt_nested hpos hint
  rw [extendsAtNeed_of_run hrun, RoomForTags, HasRoom, hasFit_neededBytes_iff hR,
    hasFit_neededBytes_iff hR, neededBytes_eq, hmax]
  rcases Classical.em (FitsInPlace h (payload b.addr) size) with hplace | hnot
  · obtain ⟨hne, htop⟩ := WellFormed.reallocBlock_in_place ((fitsInPlace_iff hR hb).mp hplace)
    refine iff_of_true ⟨fun _ => ⟨hne, by omega⟩, fun hnone => ?_⟩ (.inl hplace)
    exact absurd (.inl hplace) hnone
  · simp only [or_iff_right hnot]
    rw [fitsInPlace_iff hR hb, not_or, Option.not_isSome_iff_eq_none] at hnot
    obtain ⟨hlarge, hgrow⟩ := hnot
    have hzero : align size + tagsSize ≠ 0 := by
      intro hzero
      rw [hzero] at hlarge
      exact hlarge (Int.natCast_nonneg _)
    rcases reallocBlock_cases hlarge hgrow hzero with ⟨hfit, hne, htop⟩ | ⟨hnone, hroom, htop⟩ |
      ⟨hnone, hfull, hnull, htop⟩
    · have hfit' := firstFit_mono hL hlt.le hfit
      refine iff_of_true ⟨fun _ => ⟨hne, by omega⟩, fun hno => absurd hfit' hno⟩ (.inl hfit)
    · -- the heap is extended although the request may need less
      refine iff_of_false ?_ ?_
      · rintro ⟨hkeep, hmove⟩
        rcases Classical.em (L.firstFit (need size) ≠ none) with hfit | hno
        · have hsame := (hkeep hfit).2
          omega
        · have hmoved := hmove hno (by omega)
          omega
      · rintro (hfit | ⟨-, hfull⟩)
        · exact hfit hnone
        · omega
    · rw [or_iff_right (not_not.mpr hnone)]
      constructor
      · rintro ⟨hkeep, hmove⟩
        have hno : ¬ L.firstFit (need size) ≠ none := fun hfit => (hkeep hfit).1 hnull
        refine ⟨hno, ?_⟩
        rcases lt_or_ge (L.maxAddr : Int) (h.memBrk + (need size).bytes) with hlt | hle
        · exact hlt
        · have hmoved := hmove hno hle
          have hlarge := (need size).large
          omega
      · rintro ⟨hno, hfull⟩
        exact ⟨fun hfit => absurd hfit hno, fun _ hle => by omega⟩

end Represented

/-- `mm_realloc` extends the heap only when it must, and by no more than it needs,
exactly where the tags that are counted twice make no difference. -/
theorem realloc_extends_iff {cfg : Config} (hreach : Reachable IntCalls cfg) {ptr : Nat}
    {old size : Word} (hlive : (ptr, old) ∈ cfg.live) (hpos : 0 < size.toInt)
    (hint : size.toInt ≤ 2 ^ 31 - 1) :
    ExtendsAtNeed cfg.heap ptr size ↔ RoomForTags cfg.heap ptr size := by
  obtain ⟨L, hI⟩ := hreach.invariant served_intCalls
  obtain ⟨b, hb, rfl, -⟩ := hI.block_of_live hlive
  exact extendsAtNeed_iff hI.represents hb hpos (by omega)

theorem realloc_extends_iff_sample :
    ExtendsAtNeed sampleHeap 4216 100 ↔ RoomForTags sampleHeap 4216 100 := by
  have hlive : ((4216, 8) : Nat × Word) ∈ (⟨sampleHeap, sampleLive⟩ : Config).live := by decide
  exact realloc_extends_iff sample_reachable_int hlive (by decide) (by decide)

/-- The free block of 40 bytes would do for 24 bytes, but the heap is extended. -/
theorem realloc_extends_too_early : Reachable IntCalls ⟨sampleHeap, sampleLive⟩ ∧
    HasFit sampleHeap (neededBytes 24) ∧
    (∃ h', (mmRealloc 4216 24).run sampleHeap = .ok (4248, h') ∧
      h'.memBrk = sampleHeap.memBrk + 56) ∧
    ¬ ExtendsAtNeed sampleHeap 4216 24 := by
  have hR := sample_run.2.represents
  have hint : (24 : Word).toInt < 2 ^ 31 := by decide
  let b : Block := ⟨4208, 32, true, rfl, by decide⟩
  have hb : b ∈ sampleLayout.allocated := ⟨by decide, rfl⟩
  obtain ⟨h', hrun, hR', -⟩ := mmRealloc_run hR hb (by decide) (reallocServes_of_lt hint).1
  have hfit : HasFit sampleHeap (neededBytes 24) := by
    rw [hasFit_neededBytes_iff hR]
    decide
  have hbrk : h'.memBrk = sampleHeap.memBrk + 56 := by
    rw [hR'.memBrk, hR.memBrk]
    decide
  refine ⟨sample_reachable_int, hfit, ⟨h', hrun, hbrk⟩, ?_⟩
  rintro ⟨q, h'', hrun'', hkeep, -⟩
  obtain ⟨rfl, rfl⟩ := Prod.mk.inj (Except.ok.inj (hrun.symm.trans hrun''))
  have hsame := (hkeep (.inr hfit)).2
  omega

end MallocLab.HeapExtension
