import MallocLab.Runs
import MallocLab.Traversal

/-!
Freeing the same blocks in any order, some of them repeatedly, leads to the
same blocks.  A header inside a merged block keeps reading as free, so that
`mm_free` takes no notice of a pointer it was given before; and the layout that
remains is determined by its allocated blocks.
-/

namespace MallocLab.RepeatedFrees

open MallocLab.Machine
open MallocLab.Mminline
open MallocLab.Mm
open MallocLab.Tiling
open MallocLab.HeapPrograms
open MallocLab.BoundaryTags
open MallocLab.FreeLists
open MallocLab.AbstractLayout
open MallocLab.AbstractLayout.Layout
open MallocLab.HeapInvariant
open MallocLab.Coalescing
open MallocLab.Representation
open MallocLab.Traversal
open MallocLab.Runs

/-- `mm_free` on each pointer of the list in turn. -/
def freeAll : List Nat → HeapM Unit
  | [] => return
  | ptr :: ptrs => do
      mmFree ptr
      freeAll ptrs

section Layouts

variable {L L₁ L₂ : Layout} {b c : Block}

/-- The allocated blocks determine all others. -/
theorem all_eq (h₁ : L₁.WellFormed) (h₂ : L₂.WellFormed) (hstart : L₁.start = L₂.start)
    (htop : L₁.top = L₂.top) (halloc : L₁.allocated = L₂.allocated) : L₁.all = L₂.all := by
  have hprologue : L₁.prologue = L₂.prologue := by
    unfold Layout.prologue
    rw [hstart]
  have hepilogue : L₁.epilogue = L₂.epilogue := by
    unfold Layout.epilogue
    rw [htop]
  have hbrk : L₁.brk = L₂.brk := congrArg (· + 16) htop
  have htiles := h₁.tiles
  rw [hstart, hbrk] at htiles
  refine htiles.unique Block.addr_lt_stop (P := fun b => b.alloc = true) ?_ h₂.tiles
    h₁.coalesced h₂.coalesced fun z hz => ?_
  · intro x y hx hy haddr hstop
    unfold Block.stop at hstop
    have hsize : x.size = y.size := by omega
    have hflag : x.alloc = y.alloc :=
      (Bool.eq_false_of_not_eq_true hx).trans (Bool.eq_false_of_not_eq_true hy).symm
    exact Block.ext haddr hsize hflag
  · have hmem : z ∈ L₁.blocks ↔ z ∈ L₂.blocks := by
      have hiff := Set.ext_iff.mp halloc z
      simpa [Layout.allocated, hz] using hiff
    rw [WellFormed.mem_all_iff, WellFormed.mem_all_iff, hprologue, hepilogue, hmem]

theorem mem_release_iff (hL : L.WellFormed) (hb : b ∈ L.blocks) :
    c ∈ (L.release b).blocks ↔ c = b.absorb (L.freeBefore b) (L.freeAfter b) false ∨
      c ∈ L.blocks ∧ c ∉ (L.freeBefore b).toList ++ b :: (L.freeAfter b).toList := by
  obtain ⟨pre, post, hpre, hpost, hall, -, -⟩ := hL.neighbourhood hb
    (L.freeBefore b) (L.freeAfter b) (.inr rfl) (.inr rfl)
  obtain ⟨s, e, hmid⟩ := hL.tiles_middle hall
  have hjoined := WellFormed.tiles_absorb false hmid
  rw [← List.mem_singleton]
  exact hL.mem_replace_iff _ hall hpre hpost (by simp) hjoined

/-- Where the bytes of a block are once `b` is released. -/
theorem exists_cover (hL : L.WellFormed) (hb : b ∈ L.allocated) (hc : c ∈ L.blocks)
    (hcb : c.alloc = false ∨ c = b) :
    ∃ m ∈ (L.release b).blocks, m.alloc = false ∧ c.stop ≤ m.stop ∧
      (c.addr = m.addr ∨ m.addr + 32 ≤ c.addr) := by
  let w := b.absorb (L.freeBefore b) (L.freeAfter b) false
  have hw : w ∈ (L.release b).blocks := (mem_release_iff hL hb.1).mpr (.inl rfl)
  obtain ⟨pre, post, -, -, hall, -, -⟩ := hL.neighbourhood hb.1
    (L.freeBefore b) (L.freeAfter b) (.inr rfl) (.inr rfl)
  obtain ⟨s, e, hmid⟩ := hL.tiles_middle hall
  have hjoined : Tiles Block.addr Block.stop w.addr _ w.stop := WellFormed.tiles_absorb false hmid
  rcases Decidable.em (c ∈ (L.freeBefore b).toList ++ b :: (L.freeAfter b).toList) with hin | hout
  · obtain ⟨hlo, hstop⟩ := hjoined.bounds Block.addr_lt_stop hin
    refine ⟨w, hw, rfl, hstop, ?_⟩
    have hfirst : ∃ d ∈ L.blocks, d ∈ (L.freeBefore b).toList ++ b :: (L.freeAfter b).toList ∧
        d.addr = w.addr := by
      rcases hp : L.freeBefore b with _ | p
      · exact ⟨b, hb.1, by simp, by simp [w, Block.absorb, hp]⟩
      · exact ⟨p, List.mem_of_find?_eq_some hp, by simp, by simp [w, Block.absorb, hp]⟩
    obtain ⟨d, hd, hdin, hdaddr⟩ := hfirst
    have hlarge := hL.large d hd
    have hpos := c.addr_lt_stop
    rcases hjoined.eq_or_disjoint Block.addr_lt_stop hdin hin with rfl | hdc | hcd
    · exact .inl hdaddr
    · right
      unfold Block.stop at hdc
      omega
    · omega
  · rcases hcb with hfree | rfl
    · exact ⟨c, (mem_release_iff hL hb.1).mpr (.inr ⟨hc, hout⟩), hfree, le_rfl, .inl rfl⟩
    · exact absurd (by simp) hout

end Layouts

section Stale

variable {h h' : Heap} {L : Layout} {a : Nat} {b c : Block}

/-- At `a` there was a header, and now it reads as free: it still is the header
of a free block, or it lies inside one where neither tags nor links are. -/
structure Stale (h : Heap) (L : Layout) (a : Nat) : Prop where
  bit : h.word a &&& 1#64 = 0
  block : ∃ c ∈ L.blocks, c.alloc = false ∧ (a = c.addr ∨ c.addr + 32 ≤ a) ∧ a + 32 ≤ c.stop

/-- `mm_free` returns at once. -/
theorem Stale.mmFree_run (hstale : Stale h L a) (hR : Represents h L) :
    (mmFree (payload a)).run h = .ok ((), h) := by
  obtain ⟨c, hc, -, hlo, hhi⟩ := hstale.block
  obtain ⟨hclo, hchi⟩ := hR.inHeap_of_mem hc
  have hin : h.InHeap a 8 := by
    unfold Heap.InHeap
    omega
  have hread := blockAllocated_run hin
  rw [hstale.bit] at hread
  have hptr : payload a ≠ null := Nat.succ_ne_zero _
  have hblock : payloadToBlock (payload a) = a := Nat.add_sub_cancel a 8
  rw [mmFree, if_neg hptr, hblock, run_bind_of_ok hread]
  rfl

/-- All that `mm_free` writes are links, bytes of `b` and the tags of the joined block. -/
theorem writtenByFree_cases (hL : L.WellFormed) (hb : b ∈ L.blocks) {x : Nat}
    (hx : x ∈ writtenByFree L b) :
    let w := b.absorb (L.freeBefore b) (L.freeAfter b) false
    x ∈ linkBytes L.freeList ∨ x ∈ bytes b ∨ x ∈ tagBytes w.addr w.size := by
  intro w
  have hlarge := hL.large b hb
  rcases hx with hx | (⟨a, ha, hlo, hhi⟩ | hx | ⟨hlo, hhi⟩) | hx
  · exact .inr (.inl (tagBytes_subset_bytes b hx))
  · rcases List.mem_cons.mp ha with rfl | ha
    · refine .inr (.inl ⟨by omega, ?_⟩)
      unfold Block.stop
      omega
    · exact .inl ⟨a, ha, hlo, hhi⟩
  · exact .inr (.inr (.inl hx))
  · -- the block joined to the one before it ends where `b` ends
    have hstart : ((L.freeBefore b).getD b).addr + (L.freeBefore b).elim 0 Block.size = b.addr := by
      rcases hp : L.freeBefore b with _ | p
      · rfl
      · exact (free_of_freeBefore hp).2
    simp only [Block.absorb, Option.elim_none] at hlo hhi
    refine .inr (.inl ⟨by omega, ?_⟩)
    unfold Block.stop
    omega
  · exact .inr (.inr hx)

theorem Stale.release (hstale : Stale h L a) (hR : Represents h L) (hb : b ∈ L.allocated)
    (hR' : Represents h' (L.release b)) (hsame : SameExcept h h' (writtenByFree L b)) :
    Stale h' (L.release b) a := by
  have hL := hR.wellFormed
  obtain ⟨c, hc, hfree, hlo, hhi⟩ := hstale.block
  obtain ⟨m, hm, hmfree, hstop, haddr⟩ := exists_cover hL hb hc (.inl hfree)
  have hmall : m ∈ (L.release b).all := WellFormed.mem_all_of_mem hm
  refine ⟨?_, m, hm, hmfree, by omega, by omega⟩
  rcases Decidable.em (a = m.addr) with rfl | hne
  · have hbit := (hR'.tagged hmall).header_bit
    rwa [hmfree] at hbit
  · -- the old word is inside `m`, out of the reach of `mm_free`
    rw [hsame.word_eq, hstale.bit]
    intro x hxlo hxhi hx
    have hxc : x ∈ bytes c := ⟨by omega, by omega⟩
    have hout : ∀ d ∈ L.blocks, c ≠ d → x ∉ bytes d := fun d hd hcd =>
      not_mem_bytes hL (WellFormed.mem_all_of_mem hc) (WellFormed.mem_all_of_mem hd) hcd hxc
    rcases writtenByFree_cases hL hb.1 hx with ⟨_, hlisted, hdlo, hdhi⟩ | hxb | hxw
    · obtain ⟨d, hd, rfl, -, -⟩ := hL.listed_block hlisted
      have hdlarge := hL.large d hd
      rcases Decidable.em (c = d) with rfl | hcd
      · omega
      · refine hout d hd hcd ⟨by omega, ?_⟩
        unfold Block.stop
        omega
    · refine hout b hb.1 ?_ hxb
      rintro rfl
      exact Bool.false_ne_true (hfree.symm.trans hb.2)
    · have hw := (mem_release_iff hL hb.1).mpr (.inl rfl)
      generalize b.absorb (L.freeBefore b) (L.freeAfter b) false = w at hw hxw
      rcases Decidable.em (m = w) with rfl | hmw
      · unfold Block.stop at hstop hhi
        rcases hxw with ⟨-, hx⟩ | ⟨hx, -⟩
        · omega
        · omega
      · have hxw' := tagBytes_subset_bytes w hxw
        refine not_mem_bytes hR'.wellFormed hmall (WellFormed.mem_all_of_mem hw) hmw ?_ hxw'
        exact ⟨by omega, by omega⟩

end Stale

/-- What holds after the blocks of `D` were freed, starting from `L₀`. -/
structure Freed (L₀ : Layout) (D : Set Block) (h : Heap) (L : Layout) : Prop where
  represents : Represents h L
  start : L.start = L₀.start
  top : L.top = L₀.top
  allocated : L.allocated = L₀.allocated \ D
  stale : ∀ b ∈ D, Stale h L b.addr

section Freed

variable {L₀ L L₁ L₂ : Layout} {D : Set Block} {h h₁ h₂ : Heap} {b : Block}

theorem Freed.step (hF : Freed L₀ D h L) (hb : b ∈ L₀.allocated) :
    ∃ h' L', (mmFree (payload b.addr)).run h = .ok ((), h') ∧ Freed L₀ (insert b D) h' L' := by
  have hR := hF.represents
  rcases Classical.em (b ∈ D) with hmem | hnew
  · refine ⟨h, L, (hF.stale b hmem).mmFree_run hR, ?_⟩
    rwa [Set.insert_eq_of_mem hmem]
  · have hb' : b ∈ L.allocated := hF.allocated ▸ ⟨hb, hnew⟩
    have hL := hR.wellFormed
    obtain ⟨h', hrun, hR', hsame, hbit⟩ := hR.mmFree hb'.1 hb'.2
    refine ⟨h', L.release b, hrun, hR', hF.start, hF.top, ?_, ?_⟩
    · rw [hL.allocated_release hb'.1, hF.allocated, Set.sdiff_sdiff, Set.union_singleton]
    · rintro c (rfl | hc)
      · obtain ⟨m, hm, hmfree, hstop, haddr⟩ := exists_cover hL hb' hb'.1 (.inr rfl)
        have hlarge := hL.large c hb'.1
        unfold Block.stop at hstop
        refine ⟨hbit, m, hm, hmfree, haddr, ?_⟩
        unfold Block.stop
        omega
      · exact (hF.stale c hc).release hR hb' hR' hsame

theorem Freed.run {ptrs : List Nat} (hL₀ : L₀.WellFormed) (hF : Freed L₀ D h L)
    (hptrs : ∀ ptr ∈ ptrs, ∃ b ∈ L₀.allocated, b.addr + 8 = ptr) :
    ∃ h' L', (freeAll ptrs).run h = .ok ((), h') ∧
      Freed L₀ (D ∪ {b | b ∈ L₀.allocated ∧ b.addr + 8 ∈ ptrs}) h' L' := by
  induction ptrs generalizing D h L with
  | nil =>
      refine ⟨h, L, rfl, ?_⟩
      simpa using hF
  | cons ptr ptrs ih =>
      obtain ⟨b, hb, rfl⟩ := hptrs ptr List.mem_cons_self
      obtain ⟨h₁, L₁, hfree, hF₁⟩ := hF.step hb
      obtain ⟨h₂, L₂, hrest, hF₂⟩ := ih hF₁ fun p hp => hptrs p (List.mem_cons_of_mem _ hp)
      refine ⟨h₂, L₂, (run_bind_of_ok hfree).trans hrest, ?_⟩
      have hset : insert b D ∪ {c | c ∈ L₀.allocated ∧ c.addr + 8 ∈ ptrs} =
          D ∪ {c | c ∈ L₀.allocated ∧ c.addr + 8 ∈ (b.addr + 8) :: ptrs} := by
        ext c
        constructor
        · rintro ((rfl | hc) | ⟨hc, hmem⟩)
          · exact .inr ⟨hb, List.mem_cons_self⟩
          · exact .inl hc
          · exact .inr ⟨hc, List.mem_cons_of_mem _ hmem⟩
        · rintro (hc | ⟨hc, hmem⟩)
          · exact .inl (.inr hc)
          · rcases List.mem_cons.mp hmem with heq | hmem
            · have hcb := hL₀.eq_of_addr_eq (WellFormed.mem_all_of_mem hc.1)
                (WellFormed.mem_all_of_mem hb.1) (Nat.add_right_cancel heq)
              exact .inl (.inl hcb)
            · exact .inr ⟨hc, hmem⟩
      rwa [hset] at hF₂

/-- Break, epilogue and blocks are the same, and so is the set of listed blocks. -/
structure SameBlocks (h₁ h₂ : Heap) : Prop where
  memBrk : h₁.memBrk = h₂.memBrk
  epilogue : h₁.epilogue = h₂.epilogue
  blocks : ∃ entries, heapBlocks.run h₁ = .ok (entries, h₁) ∧ heapBlocks.run h₂ = .ok (entries, h₂)
  listed : ∃ l₁ l₂, freeBlocks.run h₁ = .ok (l₁, h₁) ∧ freeBlocks.run h₂ = .ok (l₂, h₂) ∧
    ∀ a, a ∈ l₁ ↔ a ∈ l₂

theorem Freed.sameBlocks (hF₁ : Freed L₀ D h₁ L₁) (hF₂ : Freed L₀ D h₂ L₂) :
    SameBlocks h₁ h₂ := by
  have hR₁ := hF₁.represents
  have hR₂ := hF₂.represents
  have htop : L₁.top = L₂.top := hF₁.top.trans hF₂.top.symm
  have hall : L₁.all = L₂.all := all_eq hR₁.wellFormed hR₂.wellFormed
    (hF₁.start.trans hF₂.start.symm) htop (hF₁.allocated.trans hF₂.allocated.symm)
  constructor
  · rw [hR₁.memBrk, hR₂.memBrk, Layout.brk, htop]
    rfl
  · rw [hR₁.epilogue, hR₂.epilogue, htop]
  · exact ⟨L₁.all.map entry, heapBlocks_run hR₁, hall ▸ heapBlocks_run hR₂⟩
  · refine ⟨L₁.freeList, L₂.freeList, freeBlocks_run hR₁, freeBlocks_run hR₂, fun a => ?_⟩
    rw [hR₁.wellFormed.mem_free, hR₂.wellFormed.mem_free, hall]

end Freed

/-- The order in which blocks are freed does not matter, nor does it matter that
some of them are freed again. -/
theorem frees_commute {cfg : Config} (hreach : Reachable IntCalls cfg) {ps qs : List Nat}
    (hlive : ∀ p ∈ ps, ∃ size, (p, size) ∈ cfg.live) (hset : ∀ p, p ∈ ps ↔ p ∈ qs) :
    ∃ h₁ h₂, (freeAll ps).run cfg.heap = .ok ((), h₁) ∧ (freeAll qs).run cfg.heap = .ok ((), h₂) ∧
      SameBlocks h₁ h₂ := by
  obtain ⟨L, hI⟩ := hreach.invariant served_intCalls
  have hL := hI.represents.wellFormed
  have hstart : Freed L ∅ cfg.heap L :=
    ⟨hI.represents, rfl, rfl, Set.sdiff_empty.symm, fun b hb => absurd hb (Set.notMem_empty b)⟩
  have hblock : ∀ p ∈ ps, ∃ b ∈ L.allocated, b.addr + 8 = p := by
    intro p hp
    obtain ⟨size, hmem⟩ := hlive p hp
    obtain ⟨b, hb, haddr, -⟩ := hI.block_of_live hmem
    exact ⟨b, hb, haddr⟩
  obtain ⟨h₁, L₁, hrun₁, hF₁⟩ := hstart.run hL hblock
  obtain ⟨h₂, L₂, hrun₂, hF₂⟩ := hstart.run hL fun q hq => hblock q ((hset q).mpr hq)
  simp only [hset] at hF₁
  exact ⟨h₁, h₂, hrun₁, hrun₂, hF₁.sameBlocks hF₂⟩

theorem frees_commute_sample : ∃ h₁ h₂,
    (freeAll [4160, 4216]).run sampleHeap = .ok ((), h₁) ∧
    (freeAll [4216, 4160, 4216, 4160]).run sampleHeap = .ok ((), h₂) ∧ SameBlocks h₁ h₂ := by
  have hlive : ∀ p ∈ [4160, 4216], ∃ size, (p, size) ∈ sampleLive := by
    intro p hp
    simp only [List.mem_cons, List.not_mem_nil, or_false] at hp
    rcases hp with rfl | rfl
    · exact ⟨40, by decide⟩
    · exact ⟨8, by decide⟩
  have hset : ∀ p, p ∈ [4160, 4216] ↔ p ∈ [4216, 4160, 4216, 4160] := by
    intro p
    simp only [List.mem_cons, List.not_mem_nil, or_false]
    omega
  exact frees_commute sample_reachable_int hlive hset

end MallocLab.RepeatedFrees
