import MallocLab.LiveBlocks

/-!
The bytes a client asked for survive every call: `mm_malloc` and `mm_free` leave
those of the other live pointers alone, and `mm_realloc` carries them over.
-/

namespace MallocLab.DataPreservation

open MallocLab.Machine
open MallocLab.Mminline
open MallocLab.Mm
open MallocLab.HeapPrograms
open MallocLab.BoundaryTags
open MallocLab.AbstractLayout
open MallocLab.AbstractLayout.Layout
open MallocLab.HeapInvariant
open MallocLab.Representation
open MallocLab.Allocation
open MallocLab.Reallocation
open MallocLab.Runs
open MallocLab.LiveBlocks

/-- The requested bytes of `r` are the same in both heaps. -/
def Keeps (h h' : Heap) (r : Nat × Word) : Prop := ∀ x ∈ requested r, h'.memory x = h.memory x

/-- The `memmove` calls between the heaps write the payload of the block of `q` only. -/
def MovesInside (h h' : Heap) (q : Nat) : Prop :=
  ∃ ms, h'.moves = h.moves ++ ms ∧ ∀ mv ∈ ms,
    q ≤ mv.dst ∧ mv.dst + mv.count + 16 ≤ q + (h'.word (q - 8) &&& -2#64).toNat

section Represented

variable {cfg : Config} {h' : Heap} {L : Layout} {b : Block} {ptr q : Nat} {m size : Word}
  {r : Nat × Word}

/-- It is enough that the blocks of a layout keep their bytes. -/
theorem keeps_of_bytes (hI : Invariant cfg L) (hr : r ∈ cfg.live)
    (hmem : ∀ b ∈ L.allocated, b.addr + 8 = r.1 → ∀ x ∈ bytes b, h'.memory x = cfg.heap.memory x) :
    Keeps cfg.heap h' r := by
  obtain ⟨b, hb, haddr, hlarge⟩ := hI.owned.block r hr
  intro x hx
  obtain ⟨hlo, hhi⟩ := requested_subset haddr hlarge hx
  apply hmem b hb haddr
  constructor
  · omega
  · omega

theorem mmMalloc_keeps (hI : Invariant cfg L) (hint : IsInt size)
    (hrun : (mmMalloc size).run cfg.heap = .ok (q, h')) (hr : r ∈ cfg.live) :
    Keeps cfg.heap h' r := by
  obtain ⟨h'', hrun', -, -, -, hmem, -⟩ := mmMalloc_run hI.represents (mallocServes_of_lt hint.2).1
  rw [hrun] at hrun'
  obtain ⟨-, rfl⟩ := Prod.mk.inj (Except.ok.inj hrun')
  exact keeps_of_bytes hI hr fun b hb _ => hmem b hb.1 hb.2

theorem mmFree_keeps (hI : Invariant cfg L) (hlegal : (Call.free ptr).Legal cfg.live)
    (hrun : (mmFree ptr).run cfg.heap = .ok ((), h')) (hr : r ∈ cfg.live) (hne : r.1 ≠ ptr) :
    Keeps cfg.heap h' r := by
  rcases hlegal with rfl | ⟨size, hlive⟩
  · obtain rfl : cfg.heap = h' := congrArg Prod.snd (Except.ok.inj hrun)
    intro x _
    rfl
  · obtain ⟨b, hb, rfl, -⟩ := hI.block_of_live hlive
    obtain ⟨h'', hrun', -, hsame, -⟩ := hI.represents.mmFree hb.1 hb.2
    obtain rfl : h'' = h' := congrArg Prod.snd (Except.ok.inj (hrun'.symm.trans hrun))
    refine keeps_of_bytes hI hr fun c hc haddr x hx => hsame.memory x ?_
    have hcb : c ≠ b := by
      rintro rfl
      exact hne haddr.symm
    exact hI.represents.mmFree_spares hb.1 (WellFormed.mem_all_of_mem hc.1) hc.2 hcb hx

theorem mmRealloc_carries (hI : Invariant cfg L) (hlive : (ptr, m) ∈ cfg.live) (hint : IsInt size)
    (hsize : size ≠ 0) (hrun : (mmRealloc ptr size).run cfg.heap = .ok (q, h')) (hq : q ≠ null) :
    ∃ b ∈ L.allocated, b.addr + 8 = ptr ∧ m.toInt + 16 ≤ b.size ∧
      ∃ L' u, Represents h' L' ∧ u ∈ L'.allocated ∧ u.addr + 8 = q ∧
        Carried cfg.heap h' L b u := by
  obtain ⟨b, hb, rfl, hlarge⟩ := hI.block_of_live hlive
  obtain ⟨h'', hrun', hR', -, hcarried⟩ :=
    mmRealloc_run hI.represents hb hsize (reallocServes_of_lt hint.2).1
  obtain ⟨hres, rfl⟩ := Prod.mk.inj (Except.ok.inj (hrun'.symm.trans hrun))
  rw [hres] at hcarried
  obtain ⟨u, hu, haddr, hc⟩ := hcarried hq
  exact ⟨b, hb, rfl, hlarge, _, u, hR', hu, haddr, hc⟩

theorem movesInside {L' : Layout} {u : Block} (hR' : Represents h' L') (hu : u ∈ L'.allocated)
    (hcarried : Carried cfg.heap h' L b u) : MovesInside cfg.heap h' (u.addr + 8) := by
  have ht := hR'.tagged (WellFormed.mem_all_of_mem hu.1)
  have hheader : (h'.word (u.addr + 8 - 8) &&& -2#64).toNat = u.size := ht.toNat_header_size
  obtain ⟨ms, hmoves, hinside⟩ := hcarried.moves
  refine ⟨ms, hmoves, fun mv hmv => ?_⟩
  obtain ⟨hlo, hhi, -⟩ := hinside mv hmv
  unfold Block.stop at hhi
  rw [hheader]
  constructor
  · exact hlo
  · omega

end Represented

/-- No call changes a requested byte of a pointer that stays live, and
`mm_realloc` takes the bytes along to the block it returns. -/
theorem data_preserved {cfg : Config} (hreach : Reachable IntCalls cfg) :
    (∀ size q h', IsInt size → (mmMalloc size).run cfg.heap = .ok (q, h') →
      ∀ r ∈ cfg.live, Keeps cfg.heap h' r) ∧
    (∀ ptr h', (Call.free ptr).Legal cfg.live → (mmFree ptr).run cfg.heap = .ok ((), h') →
      ∀ r ∈ cfg.live, r.1 ≠ ptr → Keeps cfg.heap h' r) ∧
    ∀ ptr m n q h', (ptr, m) ∈ cfg.live → IsInt n → 0 < n.toInt →
      (mmRealloc ptr n).run cfg.heap = .ok (q, h') → q ≠ null →
      (∀ i : Nat, (i : Int) < min m.toInt n.toInt →
        h'.memory (q + i) = cfg.heap.memory (ptr + i)) ∧
      (∀ r ∈ cfg.live, r.1 ≠ ptr → Keeps cfg.heap h' r) ∧ MovesInside cfg.heap h' q := by
  obtain ⟨L, hI⟩ := hreach.invariant served_intCalls
  refine ⟨?_, ?_, ?_⟩
  · intro size q h' hint hrun r hr
    exact mmMalloc_keeps hI hint hrun hr
  · intro ptr h' hlegal hrun r hr hne
    exact mmFree_keeps hI hlegal hrun hr hne
  · intro ptr m n q h' hlive hint hpos hrun hq
    have hn : n ≠ 0 := by
      rintro rfl
      exact absurd hpos (by decide)
    obtain ⟨b, hb, rfl, hlarge, L', u, hR', hu, rfl, hcarried⟩ :=
      mmRealloc_carries hI hlive hint hn hrun hq
    refine ⟨fun i hi => ?_, fun r hr hne => ?_, movesInside hR' hu hcarried⟩
    · have hm : (i : Int) < m.toInt := hi.trans_le (min_le_left _ _)
      apply hcarried.kept
      omega
    · refine keeps_of_bytes hI hr fun c hc haddr => hcarried.others c hc ?_
      rintro rfl
      exact hne haddr.symm

/-- The block grows into the free block before it, and its data moves. -/
theorem data_preserved_sample : ∃ h', (mmRealloc 4160 60).run sampleHeap = .ok (4120, h') ∧
    (∀ i < 40, h'.memory (4120 + i) = sampleHeap.memory (4160 + i)) ∧
    MovesInside sampleHeap h' 4120 := by
  have hint : IsInt 60 := ⟨by decide, by decide⟩
  obtain ⟨h', hrun, -⟩ := exec_run sample_run.2 (c := .realloc 4160 60) (.inr ⟨40, by decide⟩)
    (serves_of_int hint)
  have hcarried := (data_preserved sample_reachable_int).2.2 4160 40 60 4120 h' (by decide) hint
    (by decide) hrun (by decide)
  refine ⟨h', hrun, fun i hi => hcarried.1 i ?_, hcarried.2.2⟩
  have hmin : min (40 : Word).toInt (60 : Word).toInt = 40 := by decide
  rw [hmin]
  exact_mod_cast hi

end MallocLab.DataPreservation
