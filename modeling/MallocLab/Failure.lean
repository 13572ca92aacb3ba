import MallocLab.Runs
import MallocLab.Traversal

/-!
Requests that cannot be met: a failed call changes nothing, and `mm_malloc`
fails exactly if the free list has no block of the size needed and the arena
has no room for one.
-/

namespace MallocLab.Failure

open MallocLab.Machine
open MallocLab.Mminline
open MallocLab.Mm
open MallocLab.HeapPrograms
open MallocLab.BoundaryTags
open MallocLab.AbstractLayout
open MallocLab.AbstractLayout.Layout
open MallocLab.HeapInvariant
open MallocLab.Representation
open MallocLab.Allocation
open MallocLab.Reallocation
open MallocLab.RequestArithmetic
open MallocLab.Traversal
open MallocLab.Runs

/-- `max(MINBLOCKSIZE, align(size) + TAGS_SIZE)` -/
def neededBytes (size : Word) : Int := max minBlockSize.toInt (align size + tagsSize).toInt

/-- A block on the free list has at least `n` bytes. -/
def HasFit (h : Heap) (n : Int) : Prop :=
  ∃ freeList, freeBlocks.run h = .ok (freeList, h) ∧
    ∃ a ∈ freeList, n ≤ (h.word a &&& -2#64).toInt

/-- Neither the free list nor the arena has room for the request. -/
def Exhausted (h : Heap) (size : Word) : Prop :=
  ¬ HasFit h (neededBytes size) ∧ h.memMaxAddr < h.memBrk + neededBytes size

section Represented

variable {h h' : Heap} {L : Layout} {b : Block} {size : Word}

theorem neededBytes_eq (size : Word) : neededBytes size = (need size).bytes := by
  have hmin : minBlockSize.toInt = 32 := by decide
  rw [neededBytes, hmin, need_eq_max]

theorem size_toInt (hR : Represents h L) (hb : b ∈ L.all) :
    (h.word b.addr &&& -2#64).toInt = b.size := by
  have ht := hR.tagged hb
  rw [ht.header_size, WordBits.toInt_ofNat_of_lt ht.small]

theorem hasFit_iff (hR : Represents h L) (n : Need) :
    HasFit h n.bytes ↔ L.firstFit n ≠ none := by
  have hL := hR.wellFormed
  rw [Ne, hL.firstFit_none_iff]
  constructor
  · rintro ⟨freeList, hrun, a, ha, hle⟩ hnone
    obtain rfl : L.freeList = freeList :=
      congrArg Prod.fst (Except.ok.inj ((freeBlocks_run hR).symm.trans hrun))
    obtain ⟨b, hb, rfl, hfree, -⟩ := hL.listed_block ha
    have hlt := hnone b hb hfree
    rw [size_toInt hR (WellFormed.mem_all_of_mem hb)] at hle
    omega
  · intro hsome
    push Not at hsome
    obtain ⟨b, hb, hfree, hle⟩ := hsome
    have hball := WellFormed.mem_all_of_mem hb
    refine ⟨L.freeList, freeBlocks_run hR, b.addr, hL.mem_freeList hball hfree, ?_⟩
    rw [size_toInt hR hball]
    omega

theorem exhausted_iff (hR : Represents h L) (hsize : size ≠ 0) :
    Exhausted h size ↔ (L.malloc size).2 = null := by
  have hmax := hR.memMaxAddr_eq
  rw [WellFormed.malloc_eq_null_iff, or_iff_right hsize, Exhausted, neededBytes_eq, hasFit_iff hR, not_not,
    hmax, hR.memBrk]
  refine and_congr_right fun _ => ?_
  omega

/-- A failed `mm_malloc` was safe, and changed nothing. -/
theorem mmMalloc_run_null (hR : Represents h L) (hrun : (mmMalloc size).run h = .ok (null, h')) :
    MallocSafe L size ∧ (L.malloc size).2 = null ∧ h' = h := by
  rcases Classical.em (MallocSafe L size) with hsafe | hnot
  · obtain ⟨h'', hrun', -, -, -, -, hsame⟩ := mmMalloc_run hR hsafe
    rw [hrun] at hrun'
    obtain ⟨hnull, rfl⟩ := Prod.mk.inj (Except.ok.inj hrun')
    exact ⟨hsafe, hnull.symm, hsame hnull.symm⟩
  · rw [mmMalloc_run_narrowed hR hnot] at hrun
    cases hrun

theorem mmRealloc_run_null (hR : Represents h L) (hb : b ∈ L.allocated) (hsize : size ≠ 0)
    (hrun : (mmRealloc (payload b.addr) size).run h = .ok (null, h')) : h' = h := by
  have hptr : ∀ a, payload a ≠ null := fun a => Nat.succ_ne_zero _
  rcases Decidable.em ((align size + tagsSize).toInt ≤ b.size) with hfits | hlarge
  · rw [mmRealloc_run_fits hR (WellFormed.mem_all_of_mem hb.1) hsize hfits] at hrun
    exact absurd (congrArg Prod.fst (Except.ok.inj hrun)) (hptr _)
  · rcases hgrow : L.growth b (align size + tagsSize).toInt with _ | ⟨before, after⟩
    · rw [mmRealloc_run_none hR hb hsize hlarge hgrow] at hrun
      obtain ⟨q, h₁, hmalloc, hrest⟩ := run_bind_eq_ok hrun
      obtain ⟨_, h₂, hmove, hreturn⟩ := run_bind_eq_ok hrest
      obtain ⟨rfl, rfl⟩ := Prod.mk.inj (Except.ok.inj hreturn)
      obtain ⟨-, -, rfl⟩ := mmMalloc_run_null hR hmalloc
      exact (congrArg Prod.snd (Except.ok.inj hmove)).symm
    · obtain ⟨h'', hrun', -⟩ := mmRealloc_run_growth hR hb hsize hlarge hgrow
      rw [hrun] at hrun'
      exact absurd (congrArg Prod.fst (Except.ok.inj hrun')).symm (hptr _)

end Represented

/-- A call that returns `NULL` for a request changes nothing, and `mm_malloc`
does so exactly where the heap is exhausted. -/
theorem failure_atomic {cfg : Config} (hreach : Reachable IntCalls cfg) :
    (∀ size h', size ≠ 0 → (mmMalloc size).run cfg.heap = .ok (null, h') → h' = cfg.heap) ∧
    (∀ ptr old size h', (ptr, old) ∈ cfg.live → size ≠ 0 →
      (mmRealloc ptr size).run cfg.heap = .ok (null, h') → h' = cfg.heap) ∧
    ∀ size : Word, 0 < size.toInt → size.toInt ≤ 2 ^ 31 - 1 →
      ((∃ h', (mmMalloc size).run cfg.heap = .ok (null, h')) ↔ Exhausted cfg.heap size) := by
  obtain ⟨L, hI⟩ := hreach.invariant served_intCalls
  have hR := hI.represents
  refine ⟨?_, ?_, ?_⟩
  · intro size h' hsize hrun
    exact (mmMalloc_run_null hR hrun).2.2
  · intro ptr old size h' hlive hsize hrun
    obtain ⟨b, hb, rfl, -⟩ := hI.block_of_live hlive
    exact mmRealloc_run_null hR hb hsize hrun
  · intro size hpos hint
    have hsize : size ≠ 0 := by
      rintro rfl
      exact absurd hpos (by decide)
    rw [exhausted_iff hR hsize]
    constructor
    · rintro ⟨h', hrun⟩
      exact (mmMalloc_run_null hR hrun).2.1
    · intro hnull
      have hsafe : MallocSafe L size := mallocSafe_of_lt (by omega)
      obtain ⟨h', hrun, -⟩ := mmMalloc_run hR hsafe
      rw [hnull] at hrun
      exact ⟨h', hrun⟩

theorem failure_atomic_sample :
    (∃ h', (mmMalloc 2147483647).run sampleHeap = .ok (null, h')) ∧
    (∀ h', (mmMalloc 2147483647).run sampleHeap = .ok (null, h') → h' = sampleHeap) ∧
    ∀ h', (mmRealloc 4160 2147483647).run sampleHeap = .ok (null, h') → h' = sampleHeap := by
  obtain ⟨hmalloc, hrealloc, hiff⟩ := failure_atomic sample_reachable_int
  have hsize : (2147483647 : Word) ≠ 0 := by decide
  refine ⟨(hiff _ (by decide) (by decide)).mpr ?_, fun h' => hmalloc _ h' hsize, fun h' => ?_⟩
  · rw [exhausted_iff sample_run.2.represents hsize]
    decide
  · exact hrealloc 4160 40 _ h' (by decide) hsize

end MallocLab.Failure
