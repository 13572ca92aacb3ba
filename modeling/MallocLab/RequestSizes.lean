import MallocLab.BreakFrame
import MallocLab.Failure
import MallocLab.HeapSoundness

/-!
Requests of any size of type `long`.  A request is served, or refused with
`NULL`, unless the block size overflows or what the conversion to `int` leaves
of it is taken by `mem_sbrk` for the whole.
-/

namespace MallocLab.RequestSizes

open MallocLab.Machine
open MallocLab.Mminline
open MallocLab.Mm
open MallocLab.HeapPrograms
open MallocLab.BoundaryTags
open MallocLab.AbstractLayout
open MallocLab.AbstractLayout.Layout
open MallocLab.HeapInvariant
open MallocLab.Coalescing
open MallocLab.Representation
open MallocLab.HeapGrowth
open MallocLab.Allocation
open MallocLab.Reallocation
open MallocLab.RequestArithmetic
open MallocLab.Traversal
open MallocLab.Runs
open MallocLab.HeapSoundness
open MallocLab.Failure
open MallocLab.BreakFrame

/-- The call returns `NULL`, or a block of a sound heap with room for `size` bytes. -/
def WellServed (h : Heap) (x : HeapM Nat) (size : Word) : Prop :=
  ∃ q h' entries, x.run h = .ok (q, h') ∧ TiledHeap h' entries ∧
    (q = null ∨ ∃ e ∈ innerBlocks entries, e.allocated ≠ 0 ∧ e.addr + 8 = q ∧
      size.toInt + 16 ≤ e.size.toNat ∧ h'.memHeapLo ≤ e.addr ∧ e.stop ≤ h'.memBrk)

/-- The arena has no room for the block, but `mem_sbrk` finds room for what the
conversion to `int` leaves of its size. -/
def Narrowed (h : Heap) (size : Word) : Prop :=
  h.memMaxAddr < h.memBrk + neededBytes size ∧
    0 ≤ ((requestSize size).setWidth 32).toInt ∧
    h.memBrk + ((requestSize size).setWidth 32).toInt ≤ h.memMaxAddr

/-- `mm_malloc(size)` does not extend the heap by a narrowed size. -/
def SbrkOk (h : Heap) (size : Word) : Prop := HasFit h (neededBytes size) ∨ ¬ Narrowed h size

/-- The condition on `mm_malloc`: besides, the block size does not overflow, unless
even the smallest block cannot be had. -/
def MallocHolds (h : Heap) (size : Word) : Prop :=
  SbrkOk h size ∧ (size.toInt + 23 < 2 ^ 63 ∨ Exhausted h size)

def sizeAt (h : Heap) (a : Nat) : Nat := (h.word a &&& -2#64).toNat

def FreeAt (h : Heap) (a : Nat) : Prop := h.word a &&& 1#64 = 0

/-- The block of `ptr`, with a free neighbour or with both, is large enough. -/
def FitsInPlace (h : Heap) (ptr : Nat) (size : Word) : Prop :=
  let bSize := (align size + tagsSize).toInt
  let b := ptr - 8
  let next := b + sizeAt h b
  let prev := b - sizeAt h (b - 8)
  bSize ≤ sizeAt h b ∨
    FreeAt h prev ∧ bSize ≤ sizeAt h b + sizeAt h prev ∨
    FreeAt h next ∧ bSize ≤ sizeAt h b + sizeAt h next ∨
    FreeAt h prev ∧ FreeAt h next ∧ bSize ≤ sizeAt h b + sizeAt h prev + sizeAt h next

/-- The condition on `mm_realloc`: the block size does not overflow, and the
request is met in place or the nested call of `mm_malloc` is sound. -/
def ReallocHolds (h : Heap) (ptr : Nat) (size : Word) : Prop :=
  size.toInt + 23 < 2 ^ 63 ∧ (FitsInPlace h ptr size ∨ MallocHolds h (align size + tagsSize))

section Conditions

variable {h : Heap} {L : Layout} {b : Block} {size : Word}

theorem narrowed_iff (hR : Represents h L) : Narrowed h size ↔ ¬ SbrkExact L (need size) := by
  have hmax := hR.memMaxAddr_eq
  rw [Narrowed, SbrkExact, neededBytes_eq, hmax, hR.memBrk, requestSize_eq, setWidth_ofNat]
  unfold sbrkArgument
  omega

theorem sbrkOk_iff (hR : Represents h L) (hsize : size ≠ 0) : SbrkOk h size ↔ MallocSafe L size := by
  rw [SbrkOk, narrowed_iff hR, not_not, neededBytes_eq, hasFit_iff hR, MallocSafe,
    or_iff_right hsize, Option.isSome_iff_ne_none]

theorem mallocHolds_iff (hR : Represents h L) (hsize : size ≠ 0) :
    MallocHolds h size ↔ MallocServes L size := by
  rw [MallocHolds, MallocServes, sbrkOk_iff hR hsize, exhausted_iff hR hsize, or_comm]

theorem growth_isSome_iff (L : Layout) (b : Block) (k : Int) : (L.growth b k).isSome ↔
    (L.freeBefore b).isSome ∧ k ≤ (b.absorb (L.freeBefore b) none true).size ∨
    (L.freeAfter b).isSome ∧ k ≤ (b.absorb none (L.freeAfter b) true).size ∨
    (L.freeBefore b).isSome ∧ (L.freeAfter b).isSome ∧
      k ≤ (b.absorb (L.freeBefore b) (L.freeAfter b) true).size := by
  rw [WellFormed.growth_eq]
  split
  · rename_i hfit
    exact iff_of_true rfl (.inl hfit)
  · rename_i hprev
    rw [or_iff_right hprev]
    split
    · rename_i hfit
      exact iff_of_true rfl (.inl hfit)
    · rename_i hnext
      rw [or_iff_right hnext]
      split
      · rename_i hfit
        exact iff_of_true rfl hfit
      · rename_i hboth
        exact iff_of_false (by simp) hboth

theorem freeAt_iff (hR : Represents h L) (hb : b ∈ L.all) :
    FreeAt h b.addr ↔ (ifFree b).isSome := by
  rw [FreeAt, (hR.tagged hb).header_bit]
  refine bit_eq_zero_iff.trans ?_
  cases halloc : b.alloc with
  | true => simp [ifFree_of_alloc halloc]
  | false => simp [ifFree_of_free halloc]

theorem sizeAt_eq (hR : Represents h L) (hb : b ∈ L.all) : sizeAt h b.addr = b.size :=
  (hR.tagged hb).toNat_header_size

theorem fitsInPlace_iff (hR : Represents h L) (hb : b ∈ L.allocated) :
    FitsInPlace h (payload b.addr) size ↔ (align size + tagsSize).toInt ≤ b.size ∨
      (L.growth b (align size + tagsSize).toInt).isSome := by
  have hball := WellFormed.mem_all_of_mem hb.1
  obtain ⟨p, hp, n, hn, hpb, hbn, hbefore, hafter⟩ := hR.neighbours hb.1
  have haddr : payload b.addr - 8 = b.addr := Nat.add_sub_cancel b.addr 8
  have hfooter : sizeAt h (b.addr - 8) = p.size := by
    have ht := hR.tagged hp
    have hword : h.word (b.addr - 8) = h.word p.addr := by
      rw [← hpb]
      exact ht.endTag.trans ht.header.symm
    rw [sizeAt, hword]
    exact ht.toNat_header_size
  have hprev : b.addr - p.size = p.addr := by
    rw [← hpb]
    exact Nat.add_sub_cancel p.addr p.size
  have hnext : b.addr + b.size = n.addr := hbn
  simp only [FitsInPlace, haddr, hfooter, sizeAt_eq hR hball, hprev, hnext, sizeAt_eq hR hp,
    sizeAt_eq hR hn, freeAt_iff hR hp, freeAt_iff hR hn, growth_isSome_iff, hbefore, hafter]
  cases hpalloc : p.alloc with
  | true =>
      cases hnalloc : n.alloc with
      | true => simp [ifFree_of_alloc hpalloc, ifFree_of_alloc hnalloc]
      | false => simp [ifFree_of_alloc hpalloc, ifFree_of_free hnalloc, Block.absorb]
  | false =>
      cases hnalloc : n.alloc with
      | true =>
          simp only [ifFree_of_free hpalloc, ifFree_of_alloc hnalloc, Block.absorb, Option.elim]
          simp [add_comm]
      | false =>
          simp only [ifFree_of_free hpalloc, ifFree_of_free hnalloc, Block.absorb, Option.elim]
          simp [add_comm]

end Conditions

section Served

variable {h h' : Heap} {L L' : Layout} {b u : Block} {cfg : Config} {x : HeapM Nat} {q : Nat}
  {old size : Word}

theorem wellServed_of_represents (hrun : x.run h = .ok (q, h')) (hR' : Represents h' L')
    (hq : q ≠ null → ∃ u ∈ L'.allocated, u.addr + 8 = q ∧ size.toInt + 16 ≤ u.size) :
    WellServed h x size := by
  refine ⟨q, h', L'.all.map entry, hrun, tiledHeap hR', ?_⟩
  rcases Decidable.em (q = null) with hnull | hne
  · exact .inl hnull
  · obtain ⟨u, hu, haddr, hlarge⟩ := hq hne
    have huall := WellFormed.mem_all_of_mem hu.1
    obtain ⟨hlo, hhi⟩ := hR'.inHeap_of_mem hu.1
    refine .inr ⟨entry u, ?_, allocated_entry_iff.mpr hu.2, haddr, ?_, hlo, ?_⟩
    · rw [innerBlocks_map_entry]
      exact List.mem_map_of_mem hu.1
    · change _ ≤ (((BitVec.ofNat 64 u.size).toNat : Nat) : Int)
      rwa [toNat_size hR' huall]
    · rw [stop_entry hR' huall]
      omega

/-- No block is larger than the arena, whatever its header says. -/
theorem WellServed.small (hserved : WellServed h x size) (hrun : x.run h = .ok (q, h'))
    (hne : q ≠ null) (hfits : h'.memBrk ≤ h'.memMaxAddr) : size.toInt ≤ maxHeap := by
  obtain ⟨q', h'', entries, hrun', -, hq⟩ := hserved
  obtain ⟨rfl, rfl⟩ := Prod.mk.inj (Except.ok.inj (hrun.symm.trans hrun'))
  obtain ⟨e, -, -, -, hlarge, hlo, hhi⟩ := hq.resolve_left hne
  unfold Heap.memMaxAddr at hfits
  unfold Heap.memHeapLo Heap.memStartBrk at hlo
  unfold Entry.stop at hhi
  omega

/-- A call that the layout can serve is served. -/
theorem wellServed_of_serves {c : Call} (hI : Invariant cfg L) (hlegal : c.Legal cfg.live)
    (hserves : Serves L c)
    (hlive : ∀ q, q ≠ null → ∃ live, liveAfter cfg.live c q = (q, size) :: live) :
    WellServed cfg.heap c.exec size := by
  obtain ⟨h', hrun, hI'⟩ := exec_run hI hlegal hserves
  refine wellServed_of_represents hrun hI'.represents fun hne => ?_
  obtain ⟨live, heq⟩ := hlive _ hne
  have hmem : ((execLayout L c).2, size) ∈ liveAfter cfg.live c (execLayout L c).2 := by
    rw [heq]
    exact List.mem_cons_self
  obtain ⟨u, hu, haddr, hlarge⟩ := hI'.block_of_live hmem
  exact ⟨u, hu, haddr, hlarge⟩

theorem wellServed_malloc_iff (hI : Invariant cfg L) (hpos : 0 < size.toInt) :
    WellServed cfg.heap (mmMalloc size) size ↔ MallocServes L size := by
  have hR := hI.represents
  constructor
  · intro hserved
    rcases Classical.em (MallocSafe L size) with hsafe | hnot
    · refine ⟨hsafe, or_iff_not_imp_left.mpr fun hne => ?_⟩
      obtain ⟨h', hrun, hR', -⟩ := mmMalloc_run hR hsafe
      have hsmall := hserved.small hrun hne hR'.holds.fits
      unfold maxHeap at hsmall
      omega
    · obtain ⟨q, h', entries, hrun, -⟩ := hserved
      rw [mmMalloc_run_narrowed hR hnot] at hrun
      cases hrun
  · intro hserves
    refine wellServed_of_serves (c := .malloc size) hI trivial hserves fun q hne => ?_
    exact ⟨cfg.live, if_neg hne⟩

theorem ne_zero_of_pos (hpos : 0 < size.toInt) : size ≠ 0 := by
  rintro rfl
  exact absurd hpos (by decide)

/-- The block that the nested call found is smaller than the one to be copied. -/
theorem not_wellServed_of_overrun (hR : Represents h L) (hb : b ∈ L.allocated)
    (hsize : size ≠ 0) (hlarge : ¬ (align size + tagsSize).toInt ≤ b.size)
    (hgrow : L.growth b (align size + tagsSize).toInt = none)
    (hsafe : MallocSafe L (align size + tagsSize))
    (hne : (L.malloc (align size + tagsSize)).2 ≠ null)
    (hroom : (need (align size + tagsSize)).bytes < b.size + 16) :
    ¬ WellServed h (mmRealloc (payload b.addr) size) size := by
  intro hserved
  obtain ⟨h₁, hmalloc, hR₁, -⟩ := mmMalloc_run hR hsafe
  obtain ⟨q, h', entries, hrun, -⟩ := id hserved
  have hrun' := hrun
  rw [mmRealloc_run_none hR hb hsize hlarge hgrow, run_bind_of_ok hmalloc] at hrun'
  obtain ⟨_, h₂, hmove, hreturn⟩ := run_bind_eq_ok hrun'
  obtain ⟨rfl, rfl⟩ := Prod.mk.inj (Except.ok.inj hreturn)
  -- whatever the copy destroyed, the break is where the nested call left it
  obtain ⟨hbrk, harena⟩ := keepsBreak_moveToNew _ _ _ _ _ _ hmove
  have hfits : h₂.memBrk ≤ h₂.memMaxAddr := by
    rw [hbrk, Heap.memMaxAddr, harena]
    exact hR₁.holds.fits
  have hsmall := hserved.small hrun hne hfits
  unfold maxHeap at hsmall
  have hsum := toInt_align_add (show size.toInt + 23 < 2 ^ 63 by omega)
  have hrounded : rounded size.toInt ≤ size.toInt + 23 := by
    unfold rounded
    omega
  have hneed := need_eq (show (align size + tagsSize).toInt + 23 < 2 ^ 63 by omega)
  have hle := le_rounded (align size + tagsSize).toInt
  omega

/-- A request that does not fit the block cannot have overflowed. -/
theorem no_overflow_of_large (hlarge : ¬ (align size + tagsSize).toInt ≤ b.size) :
    size.toInt + 23 < 2 ^ 63 := by
  rcases lt_or_ge (size.toInt + 23) (2 ^ 63) with hlt | hge
  · exact hlt
  · have hneg := toInt_align_add_neg hge
    omega

theorem wellServed_realloc_iff (hI : Invariant cfg L) (hb : b ∈ L.allocated)
    (hlive : (payload b.addr, old) ∈ cfg.live) (hpos : 0 < size.toInt) :
    WellServed cfg.heap (mmRealloc (payload b.addr) size) size ↔ ReallocServes L b size := by
  have hR := hI.represents
  have hball := WellFormed.mem_all_of_mem hb.1
  have hptr : payload b.addr ≠ null := Nat.succ_ne_zero _
  have hsize := ne_zero_of_pos hpos
  constructor
  · intro hserved
    rcases Decidable.em ((align size + tagsSize).toInt ≤ b.size) with hfits | hlarge
    · have hsmall := hserved.small (mmRealloc_run_fits hR hball hsize hfits) hptr hR.holds.fits
      unfold maxHeap at hsmall
      exact ⟨.inl hfits, .inr (by omega)⟩
    · refine ⟨.inr ?_, .inr (no_overflow_of_large hlarge)⟩
      rcases hgrow : L.growth b (align size + tagsSize).toInt with _ | joined
      · right
        rcases Classical.em (MallocSafe L (align size + tagsSize)) with hsafe | hnot
        · refine ⟨hsafe, or_iff_not_imp_left.mpr fun hne => ?_⟩
          rcases lt_or_ge (need (align size + tagsSize)).bytes (b.size + 16) with hroom | hroom
          · exact absurd hserved
              (not_wellServed_of_overrun hR hb hsize hlarge hgrow hsafe hne hroom)
          · exact hroom
        · obtain ⟨q, h', entries, hrun, -⟩ := hserved
          rw [mmRealloc_run_none hR hb hsize hlarge hgrow,
            run_bind_of_error (mmMalloc_run_narrowed hR hnot)] at hrun
          cases hrun
      · exact .inl rfl
  · intro hserves
    have hserves' : Serves L (.realloc (payload b.addr) size) := by
      rw [Serves, if_neg hptr]
      refine .inr fun c hc haddr => ?_
      obtain rfl : c = b := hR.wellFormed.eq_of_addr_eq (WellFormed.mem_all_of_mem hc.1) hball
        (Nat.add_right_cancel haddr)
      exact hserves
    refine wellServed_of_serves (c := .realloc (payload b.addr) size) hI (.inr ⟨old, hlive⟩)
      hserves' fun q hne => ⟨cfg.live.filter fun e => e.1 ≠ payload b.addr, ?_⟩
    rw [liveAfter, if_neg hptr, if_neg hsize, if_neg hne]

theorem reallocHolds_iff (hR : Represents h L) (hb : b ∈ L.allocated) :
    ReallocHolds h (payload b.addr) size ↔ ReallocServes L b size := by
  have hblarge := hR.wellFormed.large b hb.1
  rw [ReallocHolds, fitsInPlace_iff hR hb]
  rcases Decidable.em ((align size + tagsSize).toInt ≤ b.size) with hfits | hlarge
  · have hres : (L.reallocBlock b size).2 ≠ null := by
      simp only [Layout.reallocBlock, if_pos hfits]
      exact Nat.succ_ne_zero _
    constructor
    · rintro ⟨hlt, -⟩
      exact ⟨.inl hfits, .inr hlt⟩
    · rintro ⟨-, hlt⟩
      exact ⟨hlt.resolve_left hres, .inl (.inl hfits)⟩
  · have hlt := no_overflow_of_large hlarge
    have hne : align size + tagsSize ≠ 0 := by
      intro hzero
      rw [hzero] at hlarge
      exact hlarge (Int.natCast_nonneg _)
    rw [mallocHolds_iff hR hne]
    constructor
    · rintro ⟨-, (hfits | hgrow) | ⟨hsafe, hserved⟩⟩
      · exact absurd hfits hlarge
      · exact ⟨.inr (.inl hgrow), .inr hlt⟩
      · refine ⟨.inr (.inr ⟨hsafe, hserved.imp_right fun hlt' => ?_⟩), .inr hlt⟩
        have hneed := need_eq hlt'
        have hle := le_rounded (align size + tagsSize).toInt
        omega
    · rintro ⟨hfits | hgrow | ⟨hsafe, hroom⟩, -⟩
      · exact absurd hfits hlarge
      · exact ⟨hlt, .inl (.inr hgrow)⟩
      · refine ⟨hlt, .inr ⟨hsafe, hroom.imp_right fun hle => ?_⟩⟩
        rcases lt_or_ge ((align size + tagsSize).toInt + 23) (2 ^ 63) with hlt' | hge
        · exact hlt'
        · have hneed := need_eq_of_overflow hge
          omega

end Served

/-- Calls that meet the conditions, with sizes of type `long`. -/
def HeldCalls (cfg : Config) : Call → Prop
  | .malloc size => 0 < size.toInt → MallocHolds cfg.heap size
  | .free _ => True
  | .realloc ptr size => 0 < size.toInt →
      if ptr = null then SbrkOk cfg.heap size else ReallocHolds cfg.heap ptr size

theorem heldCalls_iff {cfg : Config} {L : Layout} {c : Call} (hI : Invariant cfg L)
    (hlegal : c.Legal cfg.live) : HeldCalls cfg c ↔ Serves L c := by
  have hR := hI.represents
  cases c with
  | free ptr => exact Iff.rfl
  | malloc size =>
      rcases lt_or_ge 0 size.toInt with hpos | hneg
      · rw [HeldCalls, forall_prop_of_true hpos]
        exact mallocHolds_iff hR (ne_zero_of_pos hpos)
      · refine iff_of_true (fun hpos => absurd hpos (not_lt.mpr hneg)) ?_
        exact mallocServes_of_lt (by omega)
  | realloc ptr size =>
      rw [HeldCalls, Serves]
      rcases lt_or_ge 0 size.toInt with hpos | hneg
      · rw [forall_prop_of_true hpos]
        rcases hlegal with rfl | ⟨old, hlive⟩
        · rw [if_pos rfl, if_pos rfl]
          exact sbrkOk_iff hR (ne_zero_of_pos hpos)
        · obtain ⟨b, hb, rfl, -⟩ := hI.block_of_live hlive
          have hptr : b.addr + 8 ≠ null := Nat.succ_ne_zero _
          rw [if_neg hptr, if_neg hptr, or_iff_right (ne_zero_of_pos hpos)]
          refine (reallocHolds_iff hR hb).trans ⟨fun hserves c hc haddr => ?_, fun hall => ?_⟩
          · obtain rfl : c = b := hR.wellFormed.eq_of_addr_eq (WellFormed.mem_all_of_mem hc.1)
              (WellFormed.mem_all_of_mem hb.1) (Nat.add_right_cancel haddr)
            exact hserves
          · exact hall b hb rfl
      · refine iff_of_true (fun hpos => absurd hpos (not_lt.mpr hneg)) ?_
        split
        · exact mallocSafe_of_lt (by omega)
        · exact .inr fun b _ _ => reallocServes_of_lt (by omega)

theorem served_heldCalls : Served HeldCalls := fun _ _ _ hI hlegal hadmits =>
  (heldCalls_iff hI hlegal).mp hadmits

/-- Runs with sizes of type `int` are among these runs. -/
theorem held_of_int {cfg : Config} (hreach : Reachable IntCalls cfg) : Reachable HeldCalls cfg := by
  induction hreach with
  | init hfresh hrun => exact .init hfresh hrun
  | step hreach hstep ih =>
      obtain ⟨L, hI⟩ := ih.invariant served_heldCalls
      cases hstep with
      | call hlegal hint hrun =>
          exact ih.step (.call hlegal ((heldCalls_iff hI hlegal).mpr (serves_of_int hint)) hrun)
      | write v hx => exact ih.step (.write v hx)

/-- `mm_malloc` and `mm_realloc` serve a request of any size or return `NULL`
exactly where the conditions hold; while they do, the heap stays sound. -/
theorem request_sizes {cfg : Config} (hreach : Reachable HeldCalls cfg) :
    (∃ entries, TiledHeap cfg.heap entries) ∧
    (∀ size : Word, 0 < size.toInt →
      (WellServed cfg.heap (mmMalloc size) size ↔ MallocHolds cfg.heap size)) ∧
    ∀ ptr old, ∀ size : Word, (ptr, old) ∈ cfg.live → 0 < size.toInt →
      (WellServed cfg.heap (mmRealloc ptr size) size ↔ ReallocHolds cfg.heap ptr size) := by
  obtain ⟨L, hI⟩ := hreach.invariant served_heldCalls
  have hR := hI.represents
  refine ⟨⟨_, tiledHeap hR⟩, fun size hpos => ?_, fun ptr old size hlive hpos => ?_⟩
  · rw [mallocHolds_iff hR (ne_zero_of_pos hpos)]
    exact wellServed_malloc_iff hI hpos
  · obtain ⟨b, hb, rfl, -⟩ := hI.block_of_live hlive
    exact (wellServed_realloc_iff hI hb hlive hpos).trans (reallocHolds_iff hR hb).symm

theorem request_sizes_sample :
    (WellServed sampleHeap (mmMalloc 8589934592) 8589934592 ↔
      MallocHolds sampleHeap 8589934592) ∧
    (WellServed sampleHeap (mmRealloc 4160 100) 100 ↔ ReallocHolds sampleHeap 4160 100) := by
  obtain ⟨-, hmalloc, hrealloc⟩ := request_sizes (held_of_int sample_reachable_int)
  exact ⟨hmalloc _ (by decide), hrealloc 4160 40 _ (by decide) (by decide)⟩

/-- `mm_malloc(2 ^ 32)` writes far behind the heap, and `mm_malloc(LONG_MAX)`
returns a block of 40 bytes. -/
theorem mm_malloc_misserves : Reachable IntCalls ⟨sampleHeap, sampleLive⟩ ∧
    (mmMalloc 4294967296).run sampleHeap = .error (.outOfHeap 4294971544) ∧
    (∃ h', (mmMalloc 9223372036854775807).run sampleHeap = .ok (4120, h') ∧
      IsAllocated h' ⟨4112, 40, 1⟩) ∧
    ¬ WellServed sampleHeap (mmMalloc 4294967296) 4294967296 ∧
    ¬ WellServed sampleHeap (mmMalloc 9223372036854775807) 9223372036854775807 := by
  have hI := sample_run.2
  have hR := hI.represents
  have hnarrowed : ¬ MallocSafe sampleLayout 4294967296 := by
    unfold MallocSafe SbrkExact
    decide
  have hsafe : MallocSafe sampleLayout 9223372036854775807 := .inr (.inl (by decide))
  have hwrapped : ¬ MallocServes sampleLayout 9223372036854775807 := by
    rintro ⟨-, hnull | hlt⟩
    · exact absurd hnull (by decide)
    · exact absurd hlt (by decide)
  obtain ⟨h', hrun, hR', -⟩ := mmMalloc_run hR hsafe
  refine ⟨sample_reachable_int, mmMalloc_run_narrowed hR hnarrowed, ⟨h', hrun, ?_⟩, ?_, ?_⟩
  · rw [isAllocated_iff hR']
    exact ⟨⟨4112, 40, true, rfl, by decide⟩, ⟨by decide, rfl⟩, rfl⟩
  · intro hserved
    exact hnarrowed ((wellServed_malloc_iff hI (by decide)).mp hserved).1
  · intro hserved
    exact hwrapped ((wellServed_malloc_iff hI (by decide)).mp hserved)

end MallocLab.RequestSizes
