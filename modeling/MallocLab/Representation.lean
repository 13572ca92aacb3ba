import MallocLab.Coalescing
import MallocLab.LayoutRequests

/-!
The heap of the program represents a layout.  `mm_free` acts on the layout as
`Layout.release`.
-/

namespace MallocLab.Representation

open MallocLab.Machine
open MallocLab.Mminline
open MallocLab.Mm
open MallocLab.Tiling
open MallocLab.HeapPrograms
open MallocLab.BoundaryTags
open MallocLab.FreeLists
open MallocLab.AbstractLayout
open MallocLab.HeapInvariant
open MallocLab.Coalescing

/-- The break and the static pointers of `mm.c` are the same. -/
structure SameBounds (h h' : Heap) : Prop where
  arena : h'.arena = h.arena
  memBrk : h'.memBrk = h.memBrk
  prologue : h'.prologue = h.prologue
  epilogue : h'.epilogue = h.epilogue

theorem SameBounds.of_sameExcept {h h' : Heap} {A : Set Nat} (hsame : SameExcept h h' A) :
    SameBounds h h' :=
  ⟨hsame.arena, hsame.memBrk, hsame.prologue, hsame.epilogue⟩

theorem SameBounds.trans {h h' h'' : Heap} (h₁ : SameBounds h h') (h₂ : SameBounds h' h'') :
    SameBounds h h'' :=
  ⟨h₂.arena.trans h₁.arena, h₂.memBrk.trans h₁.memBrk, h₂.prologue.trans h₁.prologue,
    h₂.epilogue.trans h₁.epilogue⟩

/-- The blocks of a layout as a set. -/
def blockSet (L : Layout) : Set Block := {b | b ∈ L.all}

/-- The heap `h` is in the shape `L`. -/
structure Represents (h : Heap) (L : Layout) : Prop where
  holds : Holds h (blockSet L) L.freeList
  wellFormed : L.WellFormed
  base : h.memStartBrk = L.start
  memBrk : h.memBrk = L.brk
  prologue : h.prologue = L.start
  epilogue : h.epilogue = L.top

/-- All bytes of a block. -/
def bytes (b : Block) : Set Nat := Set.Ico b.addr b.stop

/-- The bytes that `mm_free` of `b` may write. -/
def writtenByFree (L : Layout) (b : Block) : Set Nat :=
  freeBytesWritten L.freeList (L.freeBefore b) b (L.freeAfter b)

theorem rim_subset_bytes {b : Block} (hlarge : 32 ≤ b.size) : rim b ⊆ bytes b := by
  unfold rim bytes Block.stop
  rintro x (⟨hlo, hhi⟩ | ⟨hlo, hhi⟩)
  · constructor <;> omega
  · constructor <;> omega

theorem tagBytes_subset_bytes (b : Block) : tagBytes b.addr b.size ⊆ bytes b := by
  have hlarge := b.large
  unfold bytes Block.stop
  rintro x (⟨hlo, hhi⟩ | ⟨hlo, hhi⟩)
  · constructor <;> omega
  · constructor <;> omega

section Layouts

variable {L : Layout} {b c m : Block} {pre mid post : List Block}

theorem not_mem_bytes (hL : L.WellFormed) (hb : b ∈ L.all) (hc : c ∈ L.all) (hne : b ≠ c)
    {x : Nat} (hx : x ∈ bytes b) : x ∉ bytes c := by
  intro hxc
  obtain ⟨h₁, h₂⟩ := hx
  obtain ⟨h₃, h₄⟩ := hxc
  rcases hL.eq_or_disjoint hb hc with heq | hd | hd
  · exact hne heq
  · omega
  · omega

/-- The bytes of an allocated block are out of reach of free blocks. -/
theorem not_mem_rims (hL : L.WellFormed) (hc : c ∈ L.all) (halloc : c.alloc = true)
    {x : Nat} (hx : x ∈ bytes c) : x ∉ rims (freeOf (blockSet L)) := by
  rintro ⟨d, ⟨hd, hdfree⟩, hxd⟩
  have hlarge := hL.large d (Layout.WellFormed.mem_blocks_of_free hd hdfree)
  refine not_mem_bytes hL hc hd ?_ hx (rim_subset_bytes hlarge hxd)
  rintro rfl
  simp [halloc] at hdfree

/-- The blocks clear of a part of the heap are the ones before and after it. -/
theorem separate_iff (hL : L.WellFormed) (hall : L.all = pre ++ mid ++ post)
    (hne : mid ≠ []) (hmid : Tiles Block.addr Block.stop m.addr mid m.stop) :
    c ∈ L.all ∧ Separate c m ↔ c ∈ pre ∨ c ∈ post := by
  have htiles := hL.tiles
  rw [hall] at htiles ⊢
  obtain ⟨hpre, hpost⟩ := htiles.middle hmid hne
  constructor
  · rintro ⟨hc, hd⟩
    rcases List.mem_append.mp hc with hc | hc
    · rcases List.mem_append.mp hc with hc | hc
      · exact .inl hc
      · have hbounds := hmid.bounds Block.addr_lt_stop hc
        have hpos := c.addr_lt_stop
        unfold Separate at hd
        omega
    · exact .inr hc
  · rintro (hc | hc)
    · exact ⟨by simp [hc], .inl (hpre.bounds Block.addr_lt_stop hc).2⟩
    · exact ⟨by simp [hc], .inr (hpost.bounds Block.addr_lt_stop hc).1⟩

theorem overwrite_blockSet (hL : L.WellFormed) (hall : L.all = pre ++ mid ++ post)
    (hne : mid ≠ []) (hmid : Tiles Block.addr Block.stop m.addr mid m.stop) :
    overwrite (blockSet L) m = {c | c ∈ pre ++ [m] ++ post} := by
  ext c
  have hout := separate_iff (c := c) hL hall hne hmid
  simp only [overwrite, blockSet, Set.mem_ofPred_eq, hout, List.mem_append, List.mem_singleton]
  tauto

end Layouts

namespace Represents

variable {h h' : Heap} {L : Layout} {b p n m : Block} {pre mid post new : List Block}

theorem tagged (hR : Represents h L) (hb : b ∈ L.all) : Tagged h b.addr b.size b.alloc :=
  hR.holds.tagged b hb

theorem memMaxAddr_eq (hR : Represents h L) : h.memMaxAddr = L.maxAddr :=
  congrArg (· + maxHeap) hR.base

theorem memBrk_eq_top (hR : Represents h L) : h.memBrk = L.top + 16 := hR.memBrk

/-- A call put the blocks `new` in the place of the blocks `mid`. -/
theorem replace (hR : Represents h L) (hall : L.all = pre ++ mid ++ post) (hpre : pre ≠ [])
    (hpost : post ≠ []) (hne : mid ≠ [])
    (hmid : Tiles Block.addr Block.stop m.addr mid m.stop) {free : List Nat}
    (hS : Holds h' {c | c ∈ pre ++ new ++ post} free) (hbounds : SameBounds h h')
    (hL : Layout.WellFormed { L with blocks := L.replace m new, freeList := free }) :
    Represents h' { L with blocks := L.replace m new, freeList := free } := by
  have hset : blockSet { L with blocks := L.replace m new, freeList := free } =
      {c | c ∈ pre ++ new ++ post} := by
    rw [blockSet, hR.wellFormed.replace_all new hall hpre hpost hne hmid free]
  have hbase : h'.memStartBrk = h.memStartBrk := congrArg Arena.start hbounds.arena
  exact {
    holds := hset ▸ hS
    wellFormed := hL
    base := hbase.trans hR.base
    memBrk := hbounds.memBrk.trans hR.memBrk
    prologue := hbounds.prologue.trans hR.prologue
    epilogue := hbounds.epilogue.trans hR.epilogue }

/-- The neighbours of a block as the program finds them. -/
theorem neighbours (hR : Represents h L) (hb : b ∈ L.blocks) :
    ∃ p ∈ L.all, ∃ n ∈ L.all, p.stop = b.addr ∧ b.stop = n.addr ∧
      L.freeBefore b = ifFree p ∧ L.freeAfter b = ifFree n := by
  obtain ⟨pre, p, n, post, hall⟩ := Layout.WellFormed.window hb
  have hall' : L.all = (pre ++ [p]) ++ b :: n :: post := by simp [hall]
  have hL := hR.wellFormed
  refine ⟨p, by simp [hall], n, by simp [hall], hL.stop_eq_addr hall, hL.stop_eq_addr hall', ?_, ?_⟩
  · exact hL.freeBefore_eq hall
  · exact hL.freeAfter_eq hall'

theorem length_all_le (hR : Represents h L) : L.all.length ≤ h.memHeapsize := by
  have hroom := hR.wellFormed.tiles.add_length_le Block.addr_lt_stop
  rw [Heap.memHeapsize, hR.base, hR.memBrk]
  omega

/-- The free list is shorter than the heap has bytes. -/
theorem length_freeList_lt (hR : Represents h L) : L.freeList.length < h.memHeapsize := by
  have hL := hR.wellFormed
  have hsub : L.freeList ⊆ L.blocks.map Block.addr := by
    intro a ha
    obtain ⟨b, hb, rfl, -, -⟩ := hL.listed_block ha
    exact List.mem_map_of_mem hb
  have hlen := (List.subperm_of_subset hL.nodup hsub).length_le
  have hall : L.all.length = L.blocks.length + 2 := by simp [Layout.all]
  have hsize := hR.length_all_le
  rw [List.length_map] at hlen
  omega

/-- Bytes inside the payload of an allocated block may change freely. -/
theorem write (hR : Represents h L) (hm : m ∈ L.allocated) (hbounds : SameBounds h h')
    (hfirst : h'.flistFirst = h.flistFirst)
    (hmem : ∀ x, x ∉ Set.Ico (m.addr + 8) (m.stop - 8) → h'.memory x = h.memory x) :
    Represents h' L where
  holds := hR.holds.write (Layout.WellFormed.mem_all_of_mem hm.1) hm.2 hbounds.arena hbounds.memBrk
    hfirst hmem
  wellFormed := hR.wellFormed
  base := (congrArg Arena.start hbounds.arena).trans hR.base
  memBrk := hbounds.memBrk.trans hR.memBrk
  prologue := hbounds.prologue.trans hR.prologue
  epilogue := hbounds.epilogue.trans hR.epilogue

/-- Every block between prologue and epilogue lies in the heap, with the tags of
the epilogue behind it. -/
theorem inHeap_of_mem (hR : Represents h L) (hb : b ∈ L.blocks) :
    h.memStartBrk ≤ b.addr ∧ b.stop + 16 ≤ h.memBrk := by
  have hL := hR.wellFormed
  have htop := hL.stop_le_top_of_mem hb
  rw [hR.base, hR.memBrk]
  refine ⟨(hL.tiles.bounds Block.addr_lt_stop (Layout.WellFormed.mem_all_of_mem hb)).1, ?_⟩
  exact Nat.add_le_add_right htop 16

theorem mmFree (hR : Represents h L) (hb : b ∈ L.blocks) (halloc : b.alloc = true) :
    ∃ h', (mmFree (payload b.addr)).run h = .ok ((), h') ∧ Represents h' (L.release b) ∧
      SameExcept h h' (writtenByFree L b) ∧ h'.word b.addr &&& 1#64 = 0 := by
  have hL := hR.wellFormed
  obtain ⟨p, hp, n, hn, hpb, hbn, hbefore, hafter⟩ := hR.neighbours hb
  obtain ⟨h', hrun, hS, hsame, hbit⟩ := mmFree_run hR.holds hp
    (Layout.WellFormed.mem_all_of_mem hb) hn hpb hbn halloc (hL.large b hb)
    (hL.mem_freeList hp) (hL.mem_freeList hn)
  rw [← hbefore, ← hafter] at hS hsame
  refine ⟨h', hrun, ?_, hsame, hbit⟩
  obtain ⟨pre, post, hpre, hpost, hall, -, -⟩ := hL.neighbourhood hb
    (L.freeBefore b) (L.freeAfter b) (.inr rfl) (.inr rfl)
  obtain ⟨s, e, hmid⟩ := hL.tiles_middle hall
  have hjoined := Layout.WellFormed.tiles_absorb false hmid
  rw [overwrite_blockSet hL hall (by simp) hjoined] at hS
  exact hR.replace hall hpre hpost (by simp) hjoined hS (.of_sameExcept hsame)
    (hL.release hb halloc)

/-- All of these bytes belong to `b` or to a free block. -/
theorem writtenByFree_subset (hR : Represents h L) (hb : b ∈ L.blocks) :
    writtenByFree L b ⊆ rims ({b} ∪ freeOf (blockSet L)) := by
  obtain ⟨p, hp, n, hn, hpb, hbn, hbefore, hafter⟩ := hR.neighbours hb
  have hfree : ∀ c ∈ L.all, ∀ d ∈ ifFree c, d ∈ ({b} ∪ freeOf (blockSet L) : Set Block) ∧ d = c := by
    intro c hc d hd
    cases halloc : c.alloc with
    | true => simp [ifFree_of_alloc halloc] at hd
    | false =>
        obtain rfl : c = d := by simpa [ifFree_of_free halloc] using hd
        exact ⟨.inr ⟨hc, halloc⟩, rfl⟩
  have hbefore' : ∀ d ∈ L.freeBefore b, d ∈ ({b} ∪ freeOf (blockSet L) : Set Block) ∧
      d.stop = b.addr := by
    intro d hd
    obtain ⟨hmem, rfl⟩ := hfree p hp d (hbefore ▸ hd)
    exact ⟨hmem, hpb⟩
  have hafter' : ∀ d ∈ L.freeAfter b, d ∈ ({b} ∪ freeOf (blockSet L) : Set Block) ∧
      b.stop = d.addr := by
    intro d hd
    obtain ⟨hmem, rfl⟩ := hfree n hn d (hafter ▸ hd)
    exact ⟨hmem, hbn⟩
  have hb' : b ∈ ({b} ∪ freeOf (blockSet L) : Set Block) := .inl rfl
  refine Set.union_subset ?_ (Set.union_subset (Set.union_subset ?_ ?_) ?_)
  · exact (tagBytes_subset_rim b).trans fun x hx => ⟨b, hb', hx⟩
  · rintro x ⟨a, ha, hlo, hhi⟩
    rcases List.mem_cons.mp ha with rfl | ha
    · exact ⟨b, hb', .inl ⟨by omega, hhi⟩⟩
    · obtain ⟨d, hd, hx⟩ := hR.holds.linkBytes_subset_rims ⟨a, ha, hlo, hhi⟩
      exact ⟨d, .inr hd, hx⟩
  · exact (tagBytes_subset_rim _).trans (rim_absorb false hb' hbefore' (by simp))
  · exact (tagBytes_subset_rim _).trans (rim_absorb false hb' hbefore' hafter')

/-- `mm_free` spares the bytes of all other allocated blocks. -/
theorem mmFree_spares (hR : Represents h L) (hb : b ∈ L.blocks) {c : Block} (hc : c ∈ L.all)
    (halloc : c.alloc = true) (hne : c ≠ b) {x : Nat} (hx : x ∈ bytes c) :
    x ∉ writtenByFree L b := by
  have hL := hR.wellFormed
  intro hmem
  obtain ⟨d, hd | hd, hxd⟩ := hR.writtenByFree_subset hb hmem
  · obtain rfl : d = b := hd
    exact not_mem_bytes hL hc (Layout.WellFormed.mem_all_of_mem hb) hne hx
      (rim_subset_bytes (hL.large d hb) hxd)
  · exact not_mem_rims hL hc halloc hx ⟨d, hd, hxd⟩

end Represents

end MallocLab.Representation
