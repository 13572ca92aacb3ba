import Mathlib.Order.CompletePartialOrder
import MallocLab.HeapSoundness
import MallocLab.NullRealloc

/-!
The allocated blocks are those of the live pointers, the bytes a client asked
for are its own, and without allocated blocks the heap is one free block.
-/

namespace MallocLab.LiveBlocks

open MallocLab.Machine
open MallocLab.Mm
open MallocLab.Tiling
open MallocLab.BoundaryTags
open MallocLab.AbstractLayout
open MallocLab.AbstractLayout.Layout
open MallocLab.Representation
open MallocLab.Traversal
open MallocLab.Runs
open MallocLab.HeapSoundness
open MallocLab.NullRealloc

/-- The bytes `[p, p + n)` of a live pointer `p` and the size `n` last asked for. -/
def requested (r : Nat × Word) : Set Nat := {x | r.1 ≤ x ∧ (x : Int) < r.1 + r.2.toInt}

/-- The bytes of header and end tag. -/
def Entry.tags (e : Entry) : Set Nat := tagBytes e.addr e.size.toNat

/-- Where a free block keeps its links. -/
def Entry.links (e : Entry) : Set Nat := Set.Ico (e.addr + 8) (e.addr + 24)

/-- The live pointers own the allocated blocks, and keep clear of each other
and of the data of the allocator. -/
structure LiveExact (h : Heap) (live : Live) (entries : List Entry) : Prop where
  walk : heapBlocks.run h = .ok (entries, h)
  nodup : (live.map Prod.fst).Nodup
  mem_iff : ∀ p, p ∈ live.map Prod.fst ↔
    ∃ e ∈ innerBlocks entries, e.allocated ≠ 0 ∧ e.addr + 8 = p
  aligned : ∀ r ∈ live, r.1 % 8 = 0
  inside : ∀ r ∈ live, ∃ e ∈ innerBlocks entries, e.allocated ≠ 0 ∧ e.addr + 8 = r.1 ∧
    requested r ⊆ Set.Ico (e.addr + 8) (e.stop - 8)
  inHeap : ∀ r ∈ live, requested r ⊆ Set.Icc h.memHeapLo h.memHeapHi
  disjoint : ∀ r ∈ live, ∀ s ∈ live, r.1 ≠ s.1 → Disjoint (requested r) (requested s)
  tags : ∀ r ∈ live, ∀ e ∈ entries, Disjoint (requested r) (Entry.tags e)
  links : ∀ r ∈ live, ∀ e ∈ entries, e.allocated = 0 → Disjoint (requested r) (Entry.links e)

section Represented

variable {h : Heap} {L : Layout} {b c : Block} {cfg : Config}

theorem addr_aligned (hR : Represents h L) (hb : b ∈ L.all) : b.addr % 8 = 0 := by
  have hstart : L.start % 8 = 0 := hR.base ▸ h.arena.aligned
  refine hR.wellFormed.tiles.forall_lo (P := fun a => a % 8 = 0) hstart (fun c _ hc => ?_) b hb
  have hsize := c.aligned
  unfold Block.stop
  omega

/-- The payload of an allocated block shares no byte with another block. -/
theorem payload_disjoint (hR : Represents h L) (hb : b ∈ L.all) (hc : c ∈ L.all) (hne : b ≠ c)
    {A : Set Nat} (hA : A ⊆ bytes c) : Disjoint (Set.Ico (b.addr + 8) (b.stop - 8)) A := by
  rw [Set.disjoint_left]
  rintro x ⟨hlo, hhi⟩ hx
  refine not_mem_bytes hR.wellFormed hb hc hne ?_ (hA hx)
  constructor <;> omega

theorem payload_disjoint_tags (hR : Represents h L) (hb : b ∈ L.all) (hc : c ∈ L.all) :
    Disjoint (Set.Ico (b.addr + 8) (b.stop - 8)) (Entry.tags (entry c)) := by
  have htags : Entry.tags (entry c) = tagBytes c.addr c.size :=
    congrArg (tagBytes c.addr) (toNat_size hR hc)
  rw [htags]
  rcases Decidable.em (b = c) with rfl | hne
  · rw [Set.disjoint_left]
    unfold Block.stop
    rintro x ⟨hlo, hhi⟩ (⟨_, hx⟩ | ⟨hx, _⟩)
    · omega
    · omega
  · exact payload_disjoint hR hb hc hne (tagBytes_subset_bytes c)

theorem payload_disjoint_links (hR : Represents h L) (hb : b ∈ L.allocated) (hc : c ∈ L.all)
    (hfree : c.alloc = false) :
    Disjoint (Set.Ico (b.addr + 8) (b.stop - 8)) (Entry.links (entry c)) := by
  have hne : b ≠ c := by
    rintro rfl
    exact Bool.false_ne_true (hfree.symm.trans hb.2)
  have hlarge := hR.wellFormed.large c (WellFormed.mem_blocks_of_free hc hfree)
  refine payload_disjoint hR (WellFormed.mem_all_of_mem hb.1) hc hne ?_
  rintro x ⟨hlo, hhi⟩
  change c.addr + 8 ≤ x at hlo
  change x < c.addr + 24 at hhi
  unfold bytes Block.stop
  constructor <;> omega

theorem requested_subset {r : Nat × Word} (haddr : b.addr + 8 = r.1)
    (hlarge : r.2.toInt + 16 ≤ b.size) : requested r ⊆ Set.Ico (b.addr + 8) (b.stop - 8) := by
  rintro x ⟨hlo, hhi⟩
  unfold Block.stop
  constructor <;> omega

theorem liveExact (hI : Invariant cfg L) (hN : NoOrphan L.allocated cfg.live) :
    LiveExact cfg.heap cfg.live (L.all.map entry) := by
  have hR := hI.represents
  have hall : ∀ {b : Block}, b ∈ L.allocated → b ∈ L.all :=
    fun hb => WellFormed.mem_all_of_mem hb.1
  have hinner : ∀ {b : Block}, b ∈ L.allocated →
      entry b ∈ innerBlocks (L.all.map entry) ∧ (entry b).allocated ≠ 0 := by
    intro b hb
    rw [innerBlocks_map_entry]
    exact ⟨List.mem_map_of_mem hb.1, allocated_entry_iff.mpr hb.2⟩
  constructor
  · exact heapBlocks_run hR
  · exact hI.owned.nodup
  · intro p
    constructor
    · intro hp
      obtain ⟨r, hr, rfl⟩ := List.mem_map.mp hp
      obtain ⟨b, hb, haddr, -⟩ := hI.owned.block r hr
      exact ⟨entry b, (hinner hb).1, (hinner hb).2, haddr⟩
    · rintro ⟨e, he, halloc, rfl⟩
      rw [innerBlocks_map_entry] at he
      obtain ⟨b, hb, rfl⟩ := List.mem_map.mp he
      obtain ⟨size, hlive⟩ := hN b ⟨hb, allocated_entry_iff.mp halloc⟩
      exact List.mem_map.mpr ⟨_, hlive, rfl⟩
  · intro r hr
    obtain ⟨b, hb, haddr, -⟩ := hI.owned.block r hr
    have haligned := addr_aligned hR (hall hb)
    omega
  · intro r hr
    obtain ⟨b, hb, haddr, hlarge⟩ := hI.owned.block r hr
    refine ⟨entry b, (hinner hb).1, (hinner hb).2, haddr, ?_⟩
    rw [stop_entry hR (hall hb)]
    exact requested_subset haddr hlarge
  · intro r hr x hx
    obtain ⟨b, hb, haddr, hlarge⟩ := hI.owned.block r hr
    obtain ⟨hlo, hhi⟩ := requested_subset haddr hlarge hx
    obtain ⟨hstart, hend⟩ := hR.inHeap_of_mem hb.1
    unfold Heap.memHeapLo Heap.memHeapHi
    constructor <;> omega
  · intro r hr s hs hne
    obtain ⟨b, hb, hbaddr, hblarge⟩ := hI.owned.block r hr
    obtain ⟨c, hc, hcaddr, hclarge⟩ := hI.owned.block s hs
    have hbc : b ≠ c := by
      rintro rfl
      exact hne (hbaddr.symm.trans hcaddr)
    refine Disjoint.mono (requested_subset hbaddr hblarge) (requested_subset hcaddr hclarge) ?_
    refine payload_disjoint hR (hall hb) (hall hc) hbc ?_
    rintro x ⟨hlo, hhi⟩
    unfold bytes
    constructor <;> omega
  · intro r hr e he
    obtain ⟨b, hb, haddr, hlarge⟩ := hI.owned.block r hr
    obtain ⟨c, hc, rfl⟩ := List.mem_map.mp he
    exact (payload_disjoint_tags hR (hall hb) hc).mono_left (requested_subset haddr hlarge)
  · intro r hr e he hfree
    obtain ⟨b, hb, haddr, hlarge⟩ := hI.owned.block r hr
    obtain ⟨c, hc, rfl⟩ := List.mem_map.mp he
    have hcfree := entry_allocated_eq_zero_iff.mp hfree
    exact (payload_disjoint_links hR hb hc hcfree).mono_left (requested_subset haddr hlarge)

/-- Between prologue and epilogue there is nothing, or one free block. -/
def Compact (h : Heap) (entries : List Entry) : Prop :=
  innerBlocks entries = [] ∨
    innerBlocks entries = [⟨h.memHeapLo + 16, BitVec.ofNat 64 (h.memHeapsize - 32), 0⟩]

theorem compact (hR : Represents h L) (hnone : ∀ b ∈ L.blocks, b.alloc = false) :
    Compact h (L.all.map entry) := by
  have hL := hR.wellFormed
  rw [Compact, innerBlocks_map_entry]
  rcases hblocks : L.blocks with _ | ⟨b, _ | ⟨c, rest⟩⟩
  · exact .inl rfl
  · have htiles := hL.tiles
    rw [Layout.all, hblocks] at htiles
    obtain ⟨-, haddr, htop, -⟩ := htiles
    have hbfree := hnone b (by simp [hblocks])
    have hlo : b.addr = h.memHeapLo + 16 := by
      rw [Heap.memHeapLo, hR.base]
      exact haddr
    have hsize : b.size = h.memHeapsize - 32 := by
      have hstop : L.top = b.addr + b.size := htop
      have hbrk : L.brk = L.top + 16 := rfl
      rw [Heap.memHeapsize, hR.memBrk, hR.base, hbrk, hstop]
      change b.addr = L.start + 16 at haddr
      omega
    right
    rw [List.map_singleton, entry, hbfree, hlo, hsize]
    rfl
  · -- two free neighbours
    have hchain := hL.coalesced
    rw [Layout.all, hblocks] at hchain
    obtain ⟨-, hrest⟩ := List.isChain_cons_cons.mp hchain
    obtain ⟨hbc, -⟩ := List.isChain_cons_cons.mp hrest
    rcases hbc with halloc | halloc
    · rw [hnone b (by simp [hblocks])] at halloc
      cases halloc
    · rw [hnone c (by simp [hblocks])] at halloc
      cases halloc

end Represented

/-- Live pointers and allocated blocks agree in every reachable state. -/
theorem reachable_live_exact {cfg : Config} (hreach : Reachable LiveIntCalls cfg) :
    ∃ entries, LiveExact cfg.heap cfg.live entries := by
  obtain ⟨L, hI, hN⟩ := exact_keptIntCalls (kept_of_live hreach)
  exact ⟨L.all.map entry, liveExact hI hN⟩

theorem reachable_live_exact_sample :
    ∃ entries, LiveExact sampleHeap sampleLive entries :=
  reachable_live_exact sample_reachable

/-- Free blocks are never neighbours, so that without allocated blocks, as when
the client freed all of them, the heap is compact. -/
theorem fully_coalesced {cfg : Config} (hreach : Reachable IntCalls cfg) :
    ∃ entries, TiledHeap cfg.heap entries ∧ entries.IsChain Settled ∧
      ((∀ e ∈ innerBlocks entries, e.allocated = 0) → Compact cfg.heap entries) ∧
      (Reachable KeptIntCalls cfg → cfg.live = [] → Compact cfg.heap entries) := by
  obtain ⟨L, hI⟩ := hreach.invariant served_intCalls
  have hR := hI.represents
  have hcompact : (∀ e ∈ innerBlocks (L.all.map entry), e.allocated = 0) →
      Compact cfg.heap (L.all.map entry) := by
    intro hnone
    refine compact hR fun b hb => ?_
    rw [innerBlocks_map_entry] at hnone
    exact entry_allocated_eq_zero_iff.mp (hnone _ (List.mem_map_of_mem hb))
  refine ⟨L.all.map entry, tiledHeap hR, settled hR, hcompact, fun hkept hlive => ?_⟩
  apply hcompact
  intro e he
  rcases Decidable.em (e.allocated = 0) with hfree | halloc
  · exact hfree
  · -- an allocated block would be that of a live pointer
    obtain ⟨size, hmem⟩ := allocated_live hkept ⟨_, heapBlocks_run hR, he, halloc⟩
    rw [hlive] at hmem
    cases hmem

/-- The two blocks that are left of the sample run are freed as well. -/
theorem fully_coalesced_sample : ∃ h₁ h₂, (Call.free 4160).exec.run sampleHeap = .ok (null, h₁) ∧
    (Call.free 4216).exec.run h₁ = .ok (null, h₂) ∧ ∃ entries, TiledHeap h₂ entries ∧
      entries.IsChain Settled ∧ (∀ e ∈ innerBlocks entries, e.allocated = 0) ∧
      Compact h₂ entries := by
  have hlegal₁ : (Call.free 4160).Legal sampleLive := .inr ⟨40, by decide⟩
  have hlegal₂ : (Call.free 4216).Legal [(4216, 8)] := .inr ⟨8, by decide⟩
  obtain ⟨h₁, hrun₁, hI₁⟩ := exec_run sample_run.2 hlegal₁ trivial
  obtain ⟨h₂, hrun₂, -⟩ := exec_run hI₁ hlegal₂ trivial
  have hreach₁ : Reachable LiveIntCalls ⟨h₁, [(4216, 8)]⟩ :=
    sample_reachable.step (.call hlegal₁ ⟨trivial, fun _ => Call.noConfusion⟩ hrun₁)
  have hreach₂ : Reachable LiveIntCalls ⟨h₂, []⟩ :=
    hreach₁.step (.call hlegal₂ ⟨trivial, fun _ => Call.noConfusion⟩ hrun₂)
  obtain ⟨entries, htiled, hsettled, -, hfreed⟩ :=
    fully_coalesced (hreach₂.mono fun _ _ hadmits => hadmits.1)
  have hcompact := hfreed (kept_of_live hreach₂) rfl
  refine ⟨h₁, h₂, hrun₁, hrun₂, entries, htiled, hsettled, fun e he => ?_, hcompact⟩
  rcases hcompact with hnone | hone
  · rw [hnone] at he
    cases he
  · rw [hone] at he
    exact congrArg Entry.allocated (List.mem_singleton.mp he)

end MallocLab.LiveBlocks
