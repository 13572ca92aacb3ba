import MallocLab.Runs
import MallocLab.Traversal

/-!
What holds of the heap in every reachable state: its shape, the blocks of the
live pointers, full coalescing, and that no call faults.
-/

namespace MallocLab.HeapSoundness

open MallocLab.Machine
open MallocLab.Mminline
open MallocLab.Mm
open MallocLab.Tiling
open MallocLab.LinkRing
open MallocLab.HeapPrograms
open MallocLab.BoundaryTags
open MallocLab.FreeLists
open MallocLab.AbstractLayout
open MallocLab.AbstractLayout.Layout
open MallocLab.HeapInvariant
open MallocLab.Representation
open MallocLab.HeapGrowth
open MallocLab.Traversal
open MallocLab.Runs

/-- The blocks from prologue to epilogue are `entries` and tile the heap. -/
structure TiledHeap (h : Heap) (entries : List Entry) : Prop where
  walk : heapBlocks.run h = .ok (entries, h)
  tiles : Tiles Entry.addr Entry.stop h.memHeapLo entries h.memBrk
  ends : ∃ mid, entries = ⟨h.prologue, tagsSize, 1⟩ :: mid ++ [⟨h.epilogue, tagsSize, 1⟩] ∧
    ∀ e ∈ mid, e.size.toNat % 8 = 0 ∧ minBlockSize.toNat ≤ e.size.toNat
  epilogue : h.epilogue = h.memBrk - 16
  tags : ∀ e ∈ entries, h.word e.addr = h.word (e.stop - 8)

/-- The free list is a ring of all free blocks, each of them once. -/
structure SoundFreeList (h : Heap) (entries : List Entry) (freeList : List Nat) : Prop where
  walk : freeBlocks.run h = .ok (freeList, h)
  first : h.flistFirst = freeList.headD null
  ring : Ring (flink h) (blink h) freeList
  nodup : freeList.Nodup
  mem_iff : ∀ a, a ∈ freeList ↔ ∃ e ∈ entries, e.addr = a ∧ e.allocated = 0

section Represented

variable {h : Heap} {L : Layout} {b : Block}

theorem entry_allocated_eq_zero_iff : (entry b).allocated = 0 ↔ b.alloc = false := bit_eq_zero_iff

theorem tiledHeap (hR : Represents h L) : TiledHeap h (L.all.map entry) := by
  have hL := hR.wellFormed
  constructor
  · exact heapBlocks_run hR
  · have hlo : h.memHeapLo = L.start := hR.base
    rw [hlo, hR.memBrk]
    exact hL.tiles.map fun b hb => ⟨rfl, stop_entry hR hb⟩
  · refine ⟨L.blocks.map entry, ?_, ?_⟩
    · rw [hR.prologue, hR.epilogue, Layout.all, List.map_append]
      rfl
    · intro e he
      obtain ⟨b, hb, rfl⟩ := List.mem_map.mp he
      have hmin : minBlockSize.toNat = 32 := by decide
      change (BitVec.ofNat 64 b.size).toNat % 8 = 0 ∧ _ ≤ (BitVec.ofNat 64 b.size).toNat
      rw [toNat_size hR (WellFormed.mem_all_of_mem hb), hmin]
      exact ⟨b.aligned, hL.large b hb⟩
  · rw [hR.epilogue, hR.memBrk]
    rfl
  · intro e he
    obtain ⟨b, hb, rfl⟩ := List.mem_map.mp he
    have ht := hR.tagged hb
    rw [stop_entry hR hb]
    exact ht.header.trans ht.endTag.symm

theorem soundFreeList (hR : Represents h L) : SoundFreeList h (L.all.map entry) L.freeList := by
  have hlist := hR.holds.list
  refine ⟨freeBlocks_run hR, hlist.first, hlist.ring, hlist.nodup, fun a => ?_⟩
  rw [hR.wellFormed.mem_free a]
  constructor
  · rintro ⟨b, hb, rfl, hfree⟩
    exact ⟨entry b, List.mem_map_of_mem hb, rfl, entry_allocated_eq_zero_iff.mpr hfree⟩
  · rintro ⟨e, he, rfl, hfree⟩
    obtain ⟨b, hb, rfl⟩ := List.mem_map.mp he
    exact ⟨b, hb, rfl, entry_allocated_eq_zero_iff.mp hfree⟩

/-- One of two neighbours is allocated. -/
def Settled (e f : Entry) : Prop := e.allocated ≠ 0 ∨ f.allocated ≠ 0

theorem settled (hR : Represents h L) : (L.all.map entry).IsChain Settled := by
  refine List.isChain_map_of_isChain entry (fun b c hbc => ?_) hR.wellFormed.coalesced
  refine hbc.imp ?_ ?_
  · exact allocated_entry_iff.mpr
  · exact allocated_entry_iff.mpr

end Represented

/-- The heap invariant of the allocator, in every reachable state. -/
theorem reachable_sound {cfg : Config} (hreach : Reachable IntCalls cfg) :
    ∃ entries freeList, TiledHeap cfg.heap entries ∧ SoundFreeList cfg.heap entries freeList ∧
      entries.IsChain Settled := by
  obtain ⟨L, hI⟩ := hreach.invariant served_intCalls
  have hR := hI.represents
  exact ⟨L.all.map entry, L.freeList, tiledHeap hR, soundFreeList hR, settled hR⟩

theorem reachable_sound_sample : ∃ entries freeList, TiledHeap sampleHeap entries ∧
    SoundFreeList sampleHeap entries freeList ∧ entries.IsChain Settled :=
  reachable_sound sample_reachable_int

/-- No call of a client fails an assertion, leaves the heap or runs forever. -/
theorem no_fault {cfg : Config} (hreach : Reachable IntCalls cfg) {c : Call}
    (hlegal : c.Legal cfg.live) (hint : c.IntSized) :
    ∃ q h', c.exec.run cfg.heap = .ok (q, h') := by
  obtain ⟨L, hI⟩ := hreach.invariant served_intCalls
  obtain ⟨h', hrun, -⟩ := exec_run hI hlegal (serves_of_int hint)
  exact ⟨_, h', hrun⟩

theorem no_fault_sample : ∃ q h', (Call.realloc 4160 1000).exec.run sampleHeap = .ok (q, h') := by
  have hlegal : (Call.realloc 4160 1000).Legal sampleLive := .inr ⟨40, by decide⟩
  have hint : (Call.realloc 4160 1000).IntSized := ⟨by decide, by decide⟩
  exact no_fault sample_reachable_int hlegal hint

end MallocLab.HeapSoundness
