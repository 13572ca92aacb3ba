import MallocLab.Failure

/-!
`mm_realloc(NULL, size)` drops the pointer that `mm_malloc` returns.  It agrees
with `mm_malloc(size)` exactly if that returns `NULL`; every other call hands
the client each block it allocates.
-/

namespace MallocLab.NullRealloc

open MallocLab.Machine
open MallocLab.Mm
open MallocLab.AbstractLayout
open MallocLab.AbstractLayout.Layout
open MallocLab.Representation
open MallocLab.Allocation
open MallocLab.Traversal
open MallocLab.Runs
open MallocLab.Failure

/-- Every block that takes memory not in use before is the one returned. -/
def GivesPayload (h : Heap) (c : Call) : Prop :=
  ∀ q h', c.exec.run h = .ok (q, h') → ∀ e, IsAllocated h' e →
    (∃ x, e.addr ≤ x ∧ x < e.stop ∧ ¬ InUse h x) → e.addr + 8 = q

/-- The call is no `mm_realloc(NULL, size)` that `mm_malloc` can serve. -/
def LosesNothing (h : Heap) (c : Call) : Prop :=
  ∀ size, c = .realloc null size → size = 0 ∨ Exhausted h size

/-- Calls with sizes of type `int` that meet the condition. -/
def KeptIntCalls (cfg : Config) (c : Call) : Prop := c.IntSized ∧ LosesNothing cfg.heap c

section Represented

variable {cfg : Config} {L : Layout} {c : Call} {size : Word}

theorem losesNothing_iff (hR : Represents cfg.heap L) :
    LosesNothing cfg.heap c ↔ ∀ size, c = .realloc null size → (L.malloc size).2 = null := by
  have hiff : ∀ size : Word, (size = 0 ∨ Exhausted cfg.heap size) ↔ (L.malloc size).2 = null := by
    intro size
    rcases Decidable.em (size = 0) with hzero | hsize
    · exact iff_of_true (.inl hzero) (WellFormed.malloc_eq_null_iff.mpr (.inl hzero))
    · rw [or_iff_right hsize, exhausted_iff hR hsize]
  simp only [LosesNothing, hiff]

theorem run_null_realloc (hR : Represents cfg.heap L) (hint : IsInt size) :
    (mmRealloc null size).run cfg.heap = (mmMalloc size).run cfg.heap ↔
      (L.malloc size).2 = null := by
  obtain ⟨h', hrun, -⟩ := mmMalloc_run hR (mallocServes_of_lt hint.2).1
  rw [mmRealloc_null_run hrun, hrun]
  constructor
  · intro heq
    exact (congrArg Prod.fst (Except.ok.inj heq)).symm
  · intro hnull
    rw [hnull]

/-- A block that is allocated after a call was so before, or is the one returned. -/
theorem allocated_exec (hI : Invariant cfg L) (hlegal : c.Legal cfg.live)
    (hnull : ∀ size, c = .realloc null size → (L.malloc size).2 = null) {u : Block}
    (hu : u ∈ (execLayout L c).1.allocated) :
    u ∈ L.allocated ∨ u.addr + 8 = (execLayout L c).2 := by
  have hL := hI.represents.wellFormed
  cases c with
  | malloc size =>
      rcases hL.malloc_cases size with ⟨hsame, -⟩ | ⟨v, haddr, -, hv⟩
      · exact .inl (hsame ▸ hu)
      · rcases hv.allocated ▸ hu with rfl | hold
        · exact .inr haddr
        · exact .inl hold
  | free ptr =>
      rcases hlegal with rfl | ⟨size, hlive⟩
      · exact .inl hu
      · obtain ⟨b, hb, rfl, -⟩ := hI.block_of_live hlive
        have hptr : b.addr + 8 ≠ null := Nat.succ_ne_zero _
        simp only [execLayout, if_neg hptr, hL.free_addr hb, hL.allocated_release hb.1] at hu
        exact .inl hu.1
  | realloc ptr size =>
      rcases hlegal with rfl | ⟨old, hlive⟩
      · simp only [execLayout, Layout.realloc, if_pos, hL.malloc_of_null (hnull size rfl)] at hu
        exact .inl hu
      · obtain ⟨b, hb, rfl, -⟩ := hI.block_of_live hlive
        rcases Decidable.em (size = 0) with rfl | hsize
        · simp only [execLayout, realloc_addr_zero hL hb, hL.allocated_release hb.1] at hu
          exact .inl hu.1
        · simp only [execLayout, realloc_addr hL hb hsize] at hu ⊢
          rcases Decidable.em ((L.reallocBlock b size).2 = null) with hfail | hne
          · exact .inl (WellFormed.reallocBlock_of_null hfail ▸ hu)
          · obtain ⟨v, haddr, -, -, halloc, -, -⟩ := hL.reallocBlock_granted hb hne
            rcases halloc ▸ hu with rfl | hold
            · exact .inr haddr
            · exact .inl hold.1

theorem givesPayload_iff (hI : Invariant cfg L) (hlegal : c.Legal cfg.live) (hint : c.IntSized) :
    GivesPayload cfg.heap c ↔ LosesNothing cfg.heap c := by
  have hR := hI.represents
  obtain ⟨h', hrun, hI'⟩ := exec_run hI hlegal (serves_of_int hint)
  rw [losesNothing_iff hR]
  constructor
  · rintro hgives size rfl
    rcases hR.wellFormed.malloc_cases size with ⟨-, hnull⟩ | ⟨u, haddr, -, hu⟩
    · exact hnull
    · -- the block is allocated, and `NULL` is returned
      have hmem : u ∈ (L.malloc size).1.allocated := hu.allocated ▸ Set.mem_insert u _
      have hentry := (isAllocated_iff hI'.represents).mpr ⟨u, hmem, rfl⟩
      have hstop := stop_entry hI'.represents (WellFormed.mem_all_of_mem hmem.1)
      have hnew : ¬ InUse cfg.heap u.addr := by
        rw [inUse_iff hR]
        rintro ⟨d, hd, hlo, hhi⟩
        have hsep := hu.fresh d hd
        have hpos := u.addr_lt_stop
        omega
      have hnull := hgives _ h' hrun _ hentry ⟨u.addr, le_rfl, ?_, hnew⟩
      · exact absurd hnull (Nat.succ_ne_zero _)
      · rw [hstop]
        exact u.addr_lt_stop
  · rintro hnull q h'' hrun' e he ⟨x, hlo, hhi, hfree⟩
    rw [hrun] at hrun'
    obtain ⟨rfl, rfl⟩ := Prod.mk.inj (Except.ok.inj hrun')
    obtain ⟨u, hu, rfl⟩ := (isAllocated_iff hI'.represents).mp he
    refine (allocated_exec hI hlegal hnull hu).resolve_left fun hold => hfree ?_
    rw [stop_entry hI'.represents (WellFormed.mem_all_of_mem hu.1)] at hhi
    exact (inUse_iff hR).mpr ⟨u, hold, hlo, hhi⟩

end Represented

theorem served_keptIntCalls : Served KeptIntCalls :=
  fun _ _ _ _ _ hadmits => serves_of_int hadmits.1

theorem kept_of_live {cfg : Config} (hreach : Reachable LiveIntCalls cfg) :
    Reachable KeptIntCalls cfg :=
  hreach.mono fun _ _ hadmits => ⟨hadmits.1, fun size heq => absurd heq (hadmits.2 size)⟩

theorem exact_keptIntCalls {cfg : Config} (hreach : Reachable KeptIntCalls cfg) :
    ∃ L, Invariant cfg L ∧ NoOrphan L.allocated cfg.live :=
  hreach.exact served_keptIntCalls fun _ _ size hI hadmits =>
    (losesNothing_iff hI.represents).mp hadmits.2 size rfl

theorem allocated_live {cfg : Config} (hkept : Reachable KeptIntCalls cfg) {e : Entry}
    (he : IsAllocated cfg.heap e) : ∃ size, (e.addr + 8, size) ∈ cfg.live := by
  obtain ⟨L, hI, hN⟩ := exact_keptIntCalls hkept
  obtain ⟨b, hb, rfl⟩ := (isAllocated_iff hI.represents).mp he
  exact hN b hb

/-- `mm_realloc(NULL, size)` is `mm_malloc(size)`, and no block is lost, exactly
where `mm_malloc(size)` would return `NULL`. -/
theorem null_realloc_exact {cfg : Config} (hreach : Reachable IntCalls cfg) :
    (∀ size, IsInt size →
      ((mmRealloc null size).run cfg.heap = (mmMalloc size).run cfg.heap ↔
        size = 0 ∨ Exhausted cfg.heap size)) ∧
    (∀ c : Call, c.Legal cfg.live → c.IntSized →
      (GivesPayload cfg.heap c ↔ LosesNothing cfg.heap c)) ∧
    (Reachable KeptIntCalls cfg →
      ∀ e, IsAllocated cfg.heap e → ∃ size, (e.addr + 8, size) ∈ cfg.live) := by
  obtain ⟨L, hI⟩ := hreach.invariant served_intCalls
  refine ⟨?_, ?_, ?_⟩
  · intro size hint
    have hloses := losesNothing_iff (c := .realloc null size) hI.represents
    simp only [LosesNothing, Call.realloc.injEq, true_and, forall_eq'] at hloses
    rw [hloses]
    exact run_null_realloc hI.represents hint
  · intro c hlegal hint
    exact givesPayload_iff hI hlegal hint
  · intro hkept e he
    exact allocated_live hkept he

theorem null_realloc_exact_sample :
    ((mmRealloc null 1).run sampleHeap = (mmMalloc 1).run sampleHeap ↔
      (1 : Word) = 0 ∨ Exhausted sampleHeap 1) ∧
    (GivesPayload sampleHeap (.realloc 4160 1000) ↔ LosesNothing sampleHeap (.realloc 4160 1000)) ∧
    ∀ e, IsAllocated sampleHeap e → ∃ size, (e.addr + 8, size) ∈ sampleLive := by
  obtain ⟨hsame, hgives, hallocated⟩ := null_realloc_exact sample_reachable_int
  have hlegal : (Call.realloc 4160 1000).Legal sampleLive := .inr ⟨40, by decide⟩
  have hkept : Reachable KeptIntCalls ⟨sampleHeap, sampleLive⟩ := kept_of_live sample_reachable
  refine ⟨hsame 1 ⟨by decide, by decide⟩, ?_, hallocated hkept⟩
  exact hgives (.realloc 4160 1000) hlegal ⟨by decide, by decide⟩

/-- With a free block of 40 bytes in the heap, `mm_realloc(NULL, 1)` allocates
it and returns `NULL`. -/
theorem null_realloc_loses : Reachable IntCalls ⟨sampleHeap, sampleLive⟩ ∧
    ∃ h', (mmMalloc 1).run sampleHeap = .ok (4120, h') ∧
      (mmRealloc null 1).run sampleHeap = .ok (null, h') ∧
      IsAllocated h' ⟨4112, 40, 1⟩ := by
  obtain ⟨h', hrun, hR', -⟩ := mmMalloc_run sample_run.2.represents
    (mallocServes_of_lt (show (1 : Word).toInt < 2 ^ 31 by decide)).1
  refine ⟨sample_reachable_int, h', hrun, mmRealloc_null_run hrun, ?_⟩
  rw [isAllocated_iff hR']
  exact ⟨⟨4112, 40, true, rfl, by decide⟩, ⟨by decide, rfl⟩, rfl⟩

end MallocLab.NullRealloc
