import MallocLab.HeapInvariant

/-!
`coalescing` and `mm_free` on a sound set of blocks: the freed block and its
free neighbours become one listed block.
-/

namespace MallocLab.Coalescing

open MallocLab.Machine
open MallocLab.Mminline
open MallocLab.Mm
open MallocLab.HeapPrograms
open MallocLab.BoundaryTags
open MallocLab.FreeLists
open MallocLab.AbstractLayout
open MallocLab.AbstractLayout.Layout
open MallocLab.HeapInvariant

/-- A block as a neighbour to be merged. -/
def ifFree (b : Block) : Option Block := if b.alloc then none else some b

theorem ifFree_of_alloc {b : Block} (h : b.alloc = true) : ifFree b = none := if_pos h

theorem ifFree_of_free {b : Block} (h : b.alloc = false) : ifFree b = some b := by
  simp [ifFree, h]

theorem absorb_none_none (b : Block) (alloc : Bool) :
    b.absorb none none alloc = { b with alloc := alloc } := by
  ext <;> simp [Block.absorb]

theorem absorb_absorb (before after : Option Block) (b : Block) (alloc alloc' : Bool) :
    (b.absorb before none alloc).absorb none after alloc' = b.absorb before after alloc' := by
  ext <;> simp [Block.absorb]

/-- The alloc bit of the middle block does not matter. -/
theorem absorb_retag (before after : Option Block) (b : Block) (alloc alloc' : Bool) :
    Block.absorb before { b with alloc := alloc } after alloc' = b.absorb before after alloc' := by
  cases before with
  | none => rfl
  | some p => rfl

/-- The bytes at the ends of a joined block are at the ends of its parts. -/
theorem rim_absorb {T : Set Block} {before after : Option Block} {b : Block} (alloc : Bool)
    (hb : b ∈ T) (hbefore : ∀ p ∈ before, p ∈ T ∧ p.stop = b.addr)
    (hafter : ∀ n ∈ after, n ∈ T ∧ b.stop = n.addr) :
    rim (b.absorb before after alloc) ⊆ rims T := by
  have hfirst : ∃ c ∈ T, (b.absorb before after alloc).addr = c.addr := by
    cases before with
    | none => exact ⟨b, hb, rfl⟩
    | some p => exact ⟨p, (hbefore p rfl).1, rfl⟩
  have hlast : ∃ d ∈ T, (b.absorb before after alloc).stop = d.stop := by
    have hstart : (before.getD b).addr + before.elim 0 Block.size = b.addr := by
      cases before with
      | none => rfl
      | some p => exact (hbefore p rfl).2
    cases after with
    | none =>
        refine ⟨b, hb, ?_⟩
        simp only [Block.stop, Block.absorb, Option.elim_none]
        omega
    | some n =>
        obtain ⟨hn, hbn⟩ := hafter n rfl
        refine ⟨n, hn, ?_⟩
        simp only [Block.stop, Block.absorb, Option.elim_some] at hbn ⊢
        omega
  obtain ⟨c, hc, haddr⟩ := hfirst
  obtain ⟨d, hd, hstop⟩ := hlast
  rintro x (hx | hx)
  · exact ⟨c, hc, .inl (haddr ▸ hx)⟩
  · exact ⟨d, hd, .inr (hstop ▸ hx)⟩

section Merge

variable {h : Heap} {S : Set Block} {fl : List Nat} {p b n m : Block}

/-- A block disjoint from two neighbours is disjoint from their union. -/
theorem disjoint_join {c : Block} (hpb : p.stop = b.addr) (haddr : m.addr = p.addr)
    (hstop : m.stop = b.stop) (hcp : Separate c p) (hcb : Separate c b) : Separate c m := by
  have := c.addr_lt_stop
  unfold Separate at *
  omega

theorem inHeap_join (hS : Holds h S fl) (hp : p ∈ S) (hb : b ∈ S)
    (haddr : m.addr = p.addr) (hstop : m.stop = b.stop) : h.InHeap m.addr m.size := by
  have h₁ := (hS.tagged p hp).inHeap
  have h₂ := (hS.tagged b hb).inHeap
  unfold Heap.InHeap Block.stop at *
  omega

/-- Retagging two free neighbours, neither of them listed, as one free block. -/
theorem join_run (hS : Holds h S fl) (hp : p ∈ S) (hb : b ∈ S) (hpb : p.stop = b.addr)
    (hpl : p.addr ∉ fl) (hbl : b.addr ∉ fl) (hm : m.addr = p.addr)
    (hsize : m.size = p.size + b.size) :
    (blockSetSizeAndAllocated p.addr (BitVec.ofNat 64 m.size) (bit m.alloc)).run h =
        .ok ((), setTags h m.addr m.size m.alloc) ∧
      Holds (setTags h m.addr m.size m.alloc) (overwrite S m) fl := by
  have hstop : m.stop = b.stop := by
    unfold Block.stop at *
    omega
  have hin := inHeap_join hS hp hb hm hstop
  have hsmall : m.size < 2 ^ 63 := by
    have h₁ := (hS.tagged p hp).inHeap
    have hfits := hS.fits
    unfold Heap.InHeap Heap.memStartBrk at hin
    unfold Heap.memMaxAddr maxHeap at hfits
    omega
  refine ⟨hm ▸ blockSetSizeAndAllocated_run m.aligned m.large hsmall hin m.alloc, ?_⟩
  refine hS.retag m hin fun c hc hcfl => ?_
  have hcp := (hS.disjoint c hc p hp).resolve_left fun heq => hpl (heq ▸ hcfl)
  have hcb := (hS.disjoint c hc b hb).resolve_left fun heq => hbl (heq ▸ hcfl)
  exact disjoint_join hpb hm hstop hcp hcb

/-- The block `coalescing` has at hand after its first test. -/
def joinPrev (p b : Block) : Block := b.absorb (ifFree p) none false

theorem joinPrev_addr_of_alloc (halloc : p.alloc = true) : (joinPrev p b).addr = b.addr := by
  simp [joinPrev, Block.absorb, ifFree_of_alloc halloc]

theorem joinPrev_addr_of_free (hfree : p.alloc = false) : (joinPrev p b).addr = p.addr := by
  simp [joinPrev, Block.absorb, ifFree_of_free hfree]

theorem joinPrev_stop (hpb : p.stop = b.addr) : (joinPrev p b).stop = b.stop := by
  unfold Block.stop at *
  cases halloc : p.alloc with
  | true => simp [joinPrev, Block.absorb, ifFree_of_alloc halloc]
  | false =>
      simp only [joinPrev, Block.absorb, ifFree_of_free halloc, Option.getD_some, Option.elim]
      omega

theorem le_joinPrev_size : b.size ≤ (joinPrev p b).size := by
  simp only [joinPrev, Block.absorb]
  omega

theorem coalescePrev_run (hS : Holds h S fl) (hp : p ∈ S) (hb : b ∈ S) (hpb : p.stop = b.addr)
    (hbfree : b.alloc = false) (hbl : b.addr ∉ fl) (hpl : p.alloc = false → p.addr ∈ fl) :
    ∃ h', (coalescePrev p.addr b.addr).run h = .ok ((), h') ∧
      Holds h' (overwrite S (joinPrev p b)) (unlist fl (ifFree p)) ∧
      SameExcept h h' (linkBytes fl ∪ tagBytes (joinPrev p b).addr (joinPrev p b).size) := by
  have hread := (hS.tagged p hp).blockAllocated_run
  cases halloc : p.alloc with
  | true =>
      have hone : ¬ bit true = 0 := by decide
      rw [halloc] at hread
      refine ⟨h, ?_, ?_, SameExcept.refl h _⟩
      · simp only [coalescePrev, StateT.run_bind, hread, ok_bind, if_neg hone,
          StateT.run_pure, pure_eq_ok]
      · have hself : joinPrev p b = b := by
          rw [joinPrev, ifFree_of_alloc halloc, absorb_none_none, ← hbfree]
        rw [ifFree_of_alloc halloc, hself, overwrite_self hS.disjoint hb]
        exact hS
  | false =>
      have hzero : bit false = 0 := by decide
      rw [halloc] at hread
      obtain ⟨h₁, hpull, hS₁, hsame₁⟩ := hS.pull (hpl halloc)
      have hpl₁ : p.addr ∉ fl.erase p.addr := hS.list.nodup.not_mem_erase
      have hbl₁ : b.addr ∉ fl.erase p.addr := fun hmem => hbl (List.mem_of_mem_erase hmem)
      have hsize : (joinPrev p b).size = p.size + b.size := by
        simp [joinPrev, Block.absorb, ifFree_of_free halloc]
      have hsum : BitVec.ofNat 64 p.size + BitVec.ofNat 64 b.size =
          BitVec.ofNat 64 (joinPrev p b).size := by
        rw [hsize, BitVec.ofNat_add]
      obtain ⟨hset, hS₂⟩ := join_run hS₁ hp hb hpb hpl₁ hbl₁ (joinPrev_addr_of_free halloc) hsize
      refine ⟨setTags h₁ (joinPrev p b).addr (joinPrev p b).size (joinPrev p b).alloc, ?_, ?_, ?_⟩
      · simp only [coalescePrev, StateT.run_bind, hread, ok_bind, if_pos hzero,
          hpull, (hS₁.tagged p hp).blockSize_run, (hS₁.tagged b hb).blockSize_run, hsum]
        exact hset
      · rw [ifFree_of_free halloc]
        exact hS₂
      · exact hsame₁.trans (sameExcept_setTags (joinPrev p b).large _)

/-- After the first test the header at `prev` still tells whether it was free. -/
theorem prev_bit_run (hS : Holds h (overwrite S (joinPrev p b)) fl) (hp : p ∈ S)
    (hpb : p.stop = b.addr) : (blockAllocated p.addr).run h = .ok (bit p.alloc, h) := by
  cases halloc : p.alloc with
  | true =>
      have hp' : p ∈ overwrite S (joinPrev p b) := by
        refine mem_overwrite_of_disjoint hp (.inl ?_)
        rw [joinPrev_addr_of_alloc halloc, hpb]
      exact halloc ▸ (hS.tagged p hp').blockAllocated_run
  | false =>
      have hread := (hS.tagged _ mem_overwrite_self).blockAllocated_run
      rwa [joinPrev_addr_of_free halloc] at hread

/-- What both branches of `coalescing` do when `next` is free. -/
theorem mergeNext_run (hS : Holds h S fl) (hb : b ∈ S) (hn : n ∈ S) (hbn : b.stop = n.addr)
    (hlarge : 32 ≤ b.size) (hbl : b.addr ∉ fl) (hnl : n.addr ∈ fl) :
    ∃ h', (do
        pullFreeBlock n.addr
        let newSize := (← blockSize n.addr) + (← blockSize b.addr)
        blockSetSizeAndAllocated b.addr newSize 0
        insertFreeBlock b.addr : HeapM Unit).run h = .ok ((), h') ∧
      Holds h' (overwrite S (b.absorb none (some n) false)) (b.addr :: fl.erase n.addr) ∧
      SameExcept h h' (linkBytes (b.addr :: fl) ∪
        tagBytes (b.absorb none (some n) false).addr (b.absorb none (some n) false).size) := by
  obtain ⟨h₁, hpull, hS₁, hsame₁⟩ := hS.pull hnl
  have hnl₁ : n.addr ∉ fl.erase n.addr := hS.list.nodup.not_mem_erase
  have hbl₁ : b.addr ∉ fl.erase n.addr := fun hmem => hbl (List.mem_of_mem_erase hmem)
  let m := b.absorb none (some n) false
  have hsize : m.size = b.size + n.size := by simp [m, Block.absorb]
  obtain ⟨hset, hS₂⟩ := join_run (m := m) hS₁ hb hn hbn hbl₁ hnl₁ rfl hsize
  have hsum : BitVec.ofNat 64 n.size + BitVec.ofNat 64 b.size = BitVec.ofNat 64 m.size := by
    rw [hsize, Nat.add_comm, BitVec.ofNat_add]
  obtain ⟨h₃, hinsert, hS₃, hsame₃⟩ := hS₂.insert mem_overwrite_self rfl (by omega) hbl₁
  refine ⟨h₃, ?_, hS₃, ?_⟩
  · simp only [StateT.run_bind, hpull, ok_bind, (hS₁.tagged n hn).blockSize_run,
      (hS₁.tagged b hb).blockSize_run, hsum]
    exact (congrArg (· >>= _) hset).trans hinsert
  · refine ((hsame₁.trans (sameExcept_setTags m.large m.alloc)).trans hsame₃).mono ?_
    have hfl : linkBytes fl ⊆ linkBytes (b.addr :: fl) := linkBytes_mono (List.subset_cons_self _ _)
    have hrest : linkBytes (b.addr :: fl.erase n.addr) ⊆ linkBytes (b.addr :: fl) :=
      linkBytes_mono (List.cons_subset_cons _ List.erase_subset)
    refine Set.union_subset (Set.union_subset ?_ Set.subset_union_right) ?_
    · exact hfl.trans Set.subset_union_left
    · exact hrest.trans Set.subset_union_left

/-- The bytes `coalescing` may write: links, and the tags of what `b` is joined to. -/
def mergeBytes (fl : List Nat) (before : Option Block) (b : Block) (after : Option Block) : Set Nat :=
  linkBytes fl ∪ tagBytes (b.absorb before none false).addr (b.absorb before none false).size ∪
    tagBytes (b.absorb before after false).addr (b.absorb before after false).size

theorem linkBytes_subset_mergeBytes {fl' : List Nat} {before after : Option Block}
    (h : fl' ⊆ fl) : linkBytes fl' ⊆ mergeBytes fl before b after :=
  (linkBytes_mono h).trans (Set.subset_union_left.trans Set.subset_union_left)

theorem unlist_subset (fl : List Nat) (o : Option Block) : unlist fl o ⊆ fl := by
  cases o with
  | none => exact List.Subset.refl fl
  | some c => exact List.erase_subset

theorem joinPrev_not_mem_unlist (hnodup : fl.Nodup) :
    (joinPrev p b).addr ∉ unlist (fl.erase b.addr) (ifFree p) := by
  cases halloc : p.alloc with
  | true =>
      rw [joinPrev_addr_of_alloc halloc, ifFree_of_alloc halloc]
      exact hnodup.not_mem_erase
  | false =>
      rw [joinPrev_addr_of_free halloc, ifFree_of_free halloc]
      exact (hnodup.erase _).not_mem_erase

theorem joinPrev_mem (hbl : b.addr ∈ fl) (hpl : p.alloc = false → p.addr ∈ fl) :
    (joinPrev p b).addr ∈ fl := by
  cases halloc : p.alloc with
  | true => exact (joinPrev_addr_of_alloc halloc).symm ▸ hbl
  | false => exact (joinPrev_addr_of_free halloc).symm ▸ hpl halloc

theorem mem_unlist_ifFree (hnp : n.addr ≠ p.addr) (hnl : n.addr ∈ fl) :
    n.addr ∈ unlist fl (ifFree p) := by
  cases halloc : p.alloc with
  | true =>
      rw [ifFree_of_alloc halloc]
      exact hnl
  | false =>
      rw [ifFree_of_free halloc]
      exact (List.mem_erase_of_ne hnp).mpr hnl

/-- The second test of `coalescing`, on the block at hand after the first. -/
def coalesceNext (next block : Nat) : HeapM Unit := do
  if (← blockAllocated next) = 0 then
    pullFreeBlock next
    let newSize := (← blockSize next) + (← blockSize block)
    blockSetSizeAndAllocated block newSize 0
    insertFreeBlock block
  else
    insertFreeBlock block

/-- Both branches on the bit of `prev` go on with the joined block. -/
theorem coalescing_eq {h₁ h₂ : Heap} (hnext : (blockNext b.addr).run h = .ok (n.addr, h))
    (hprev : (blockPrev b.addr).run h = .ok (p.addr, h))
    (hpull : (pullFreeBlock b.addr).run h = .ok ((), h₁))
    (hmerge : (coalescePrev p.addr b.addr).run h₁ = .ok ((), h₂))
    (hnextBit : (blockAllocated n.addr).run h₂ = .ok (bit n.alloc, h₂))
    (hprevBit : (blockAllocated p.addr).run h₂ = .ok (bit p.alloc, h₂)) :
    (coalescing b.addr).run h = (coalesceNext n.addr (joinPrev p b).addr).run h₂ := by
  have hone : ¬ bit true = 0 := by decide
  have hzero : bit false = 0 := by decide
  rw [coalesceNext, run_bind_of_ok hnextBit]
  simp only [coalescing, StateT.run_bind, hnext, hprev, hpull, hmerge, ok_bind, hnextBit]
  cases halloc : p.alloc with
  | true =>
      rw [halloc] at hprevBit
      rw [joinPrev_addr_of_alloc halloc]
      split
      · simp only [StateT.run_bind, hprevBit, ok_bind, if_neg hone]
      · simp only [StateT.run_bind, hprevBit, ok_bind, if_neg hone]
  | false =>
      rw [halloc] at hprevBit
      rw [joinPrev_addr_of_free halloc]
      split
      · simp only [StateT.run_bind, hprevBit, ok_bind, if_pos hzero]
      · simp only [StateT.run_bind, hprevBit, ok_bind, if_pos hzero]

theorem coalesceNext_run {m : Block} (hS : Holds h (overwrite S m) fl) (hfree : m.alloc = false)
    (hn : n ∈ overwrite S m) (hmn : m.stop = n.addr) (hlarge : 32 ≤ m.size) (hml : m.addr ∉ fl)
    (hnl : n.alloc = false → n.addr ∈ fl) :
    ∃ h', (coalesceNext n.addr m.addr).run h = .ok ((), h') ∧
      Holds h' (overwrite S (m.absorb none (ifFree n) false)) (m.addr :: unlist fl (ifFree n)) ∧
      SameExcept h h' (linkBytes (m.addr :: fl) ∪
        tagBytes (m.absorb none (ifFree n) false).addr (m.absorb none (ifFree n) false).size) := by
  have hbit := (hS.tagged n hn).blockAllocated_run
  cases halloc : n.alloc with
  | true =>
      rw [halloc] at hbit
      obtain ⟨h', hinsert, hS', hsame⟩ := hS.insert mem_overwrite_self hfree hlarge hml
      have hself : m.absorb none none false = m := by rw [absorb_none_none, ← hfree]
      refine ⟨h', ?_, ?_, hsame.mono Set.subset_union_left⟩
      · rw [coalesceNext, run_bind_of_ok hbit, if_neg (by decide)]
        exact hinsert
      · rw [ifFree_of_alloc halloc, hself]
        exact hS'
  | false =>
      rw [halloc] at hbit
      obtain ⟨h', hfinish, hS', hsame⟩ := mergeNext_run hS mem_overwrite_self hn hmn hlarge hml
        (hnl halloc)
      have hstop : m.stop ≤ (m.absorb none (some n) false).stop := by
        simp only [Block.stop, Block.absorb, Option.getD_none, Option.elim]
        omega
      have hover : overwrite (overwrite S m) (m.absorb none (some n) false) =
          overwrite S (m.absorb none (some n) false) := overwrite_overwrite (le_refl m.addr) hstop
      rw [hover] at hS'
      rw [ifFree_of_free halloc]
      refine ⟨h', ?_, hS', hsame⟩
      rw [coalesceNext, run_bind_of_ok hbit, if_pos (by decide)]
      exact hfinish

/-- The four merge shapes of `coalescing` in one law. -/
theorem coalescing_run (hS : Holds h S fl) (hp : p ∈ S) (hb : b ∈ S) (hn : n ∈ S)
    (hpb : p.stop = b.addr) (hbn : b.stop = n.addr) (hbfree : b.alloc = false)
    (hlarge : 32 ≤ b.size) (hbl : b.addr ∈ fl) (hpl : p.alloc = false → p.addr ∈ fl)
    (hnl : n.alloc = false → n.addr ∈ fl) :
    ∃ h', (coalescing b.addr).run h = .ok ((), h') ∧
      Holds h' (overwrite S (b.absorb (ifFree p) (ifFree n) false))
        ((b.absorb (ifFree p) (ifFree n) false).addr ::
          unlist (unlist (fl.erase b.addr) (ifFree p)) (ifFree n)) ∧
      SameExcept h h' (mergeBytes fl (ifFree p) b (ifFree n)) := by
  have hnext : (blockNext b.addr).run h = .ok (n.addr, h) := by
    rw [(hS.tagged b hb).blockNext_run, ← hbn]
    rfl
  have hprev : (blockPrev b.addr).run h = .ok (p.addr, h) := by
    rw [← hpb]
    exact (hS.tagged p hp).blockPrev_run
  have hpne : p.addr ≠ b.addr := by have := p.addr_lt_stop; omega
  have hnne : n.addr ≠ b.addr := by have := b.addr_lt_stop; omega
  have hnp : n.addr ≠ p.addr := by have := p.addr_lt_stop; have := b.addr_lt_stop; omega
  obtain ⟨h₁, hpull, hS₁, hsame₁⟩ := hS.pull hbl
  obtain ⟨h₂, hmerge, hS₂, hsame₂⟩ := coalescePrev_run hS₁ hp hb hpb hbfree
    hS.list.nodup.not_mem_erase fun hfree => (List.mem_erase_of_ne hpne).mpr (hpl hfree)
  have hn₂ : n ∈ overwrite S (joinPrev p b) := by
    refine mem_overwrite_of_disjoint hn (.inr ?_)
    rw [joinPrev_stop hpb, hbn]
  have hml : (joinPrev p b).addr ∉ unlist (fl.erase b.addr) (ifFree p) :=
    joinPrev_not_mem_unlist hS.list.nodup
  obtain ⟨h₃, hfinish, hS₃, hsame₃⟩ := coalesceNext_run hS₂ rfl hn₂
    ((joinPrev_stop hpb).trans hbn) (hlarge.trans le_joinPrev_size) hml
    fun hfree => mem_unlist_ifFree hnp ((List.mem_erase_of_ne hnne).mpr (hnl hfree))
  have hwhole : (joinPrev p b).absorb none (ifFree n) false =
      b.absorb (ifFree p) (ifFree n) false := absorb_absorb _ _ _ _ _
  rw [hwhole] at hS₃ hsame₃
  refine ⟨h₃, ?_, hS₃, ?_⟩
  · rw [coalescing_eq hnext hprev hpull hmerge (hS₂.tagged n hn₂).blockAllocated_run
      (prev_bit_run hS₂ hp hpb)]
    exact hfinish
  · have hrestfl : (joinPrev p b).addr :: unlist (fl.erase b.addr) (ifFree p) ⊆ fl :=
      List.cons_subset.mpr ⟨joinPrev_mem hbl hpl,
        List.Subset.trans (unlist_subset _ _) List.erase_subset⟩
    refine ((hsame₁.trans hsame₂).trans hsame₃).mono (Set.union_subset ?_ ?_)
    · refine Set.union_subset (linkBytes_subset_mergeBytes (List.Subset.refl fl)) ?_
      refine Set.union_subset (linkBytes_subset_mergeBytes List.erase_subset) ?_
      exact Set.subset_union_right.trans Set.subset_union_left
    · exact Set.union_subset (linkBytes_subset_mergeBytes hrestfl) Set.subset_union_right

/-- The bytes `mm_free` may write. -/
def freeBytesWritten (fl : List Nat) (before : Option Block) (b : Block) (after : Option Block) :
    Set Nat :=
  tagBytes b.addr b.size ∪ mergeBytes (b.addr :: fl) before b after

/-- The header of a block that is merged into the one before it is not written. -/
theorem header_not_mem_mergeBytes (hS : Holds h S fl) (hb : b ∈ S) (hpb : p.stop = b.addr)
    (hpfree : p.alloc = false) (hplarge : 32 ≤ p.size) (hlarge : 32 ≤ b.size) {x : Nat}
    (hlo : b.addr ≤ x) (hhi : x < b.addr + 8) : x ∉ mergeBytes fl (ifFree p) b (ifFree n) := by
  have hlinks := hS.tagBytes_not_mem_linkBytes hb (x := x) (.inl ⟨hlo, hhi⟩)
  have hjoin := joinPrev_addr_of_free (b := b) hpfree
  have hstop := joinPrev_stop hpb
  have hwhole : (b.absorb (ifFree p) (ifFree n) false).addr = (joinPrev p b).addr := rfl
  have hle : (joinPrev p b).stop ≤ (b.absorb (ifFree p) (ifFree n) false).stop := by
    simp only [joinPrev, Block.stop, Block.absorb, Option.elim_none]
    omega
  unfold Block.stop at hpb hstop hle
  rintro ((hx | ⟨-, hx⟩ | ⟨hx, -⟩) | ⟨-, hx⟩ | ⟨hx, -⟩)
  · exact hlinks hx
  · change x < (joinPrev p b).addr + 8 at hx
    omega
  · change (joinPrev p b).addr + (joinPrev p b).size - 8 ≤ x at hx
    omega
  · omega
  · omega

/-- An allocated block is not on the free list. -/
theorem not_listed_of_alloc (hS : Holds h S fl) (hb : b ∈ S) (halloc : b.alloc = true) :
    b.addr ∉ fl := by
  intro hmem
  obtain ⟨c, hc, hcb, hcfree, -⟩ := hS.listed _ hmem
  rcases hS.disjoint c hc b hb with rfl | hd
  · simp [halloc] at hcfree
  · have := c.addr_lt_stop
    have := b.addr_lt_stop
    unfold Separate at hd
    omega

theorem absorb_addr_le (hpb : p.stop = b.addr) (after : Option Block) (alloc : Bool) :
    (b.absorb (ifFree p) after alloc).addr ≤ b.addr := by
  cases hfree : p.alloc with
  | true => simp [Block.absorb, ifFree_of_alloc hfree]
  | false =>
      have := p.addr_lt_stop
      simp only [Block.absorb, ifFree_of_free hfree, Option.getD_some]
      omega

theorem stop_le_absorb_stop (hpb : p.stop = b.addr) (after : Option Block) (alloc : Bool) :
    b.stop ≤ (b.absorb (ifFree p) after alloc).stop := by
  cases hfree : p.alloc with
  | true =>
      simp only [Block.stop, Block.absorb, ifFree_of_alloc hfree, Option.getD_none,
        Option.elim_none]
      omega
  | false =>
      unfold Block.stop at hpb ⊢
      simp only [Block.absorb, ifFree_of_free hfree, Option.getD_some, Option.elim_some]
      omega

/-- `mm_free` on an allocated block. -/
theorem mmFree_run (hS : Holds h S fl) (hp : p ∈ S) (hb : b ∈ S) (hn : n ∈ S)
    (hpb : p.stop = b.addr) (hbn : b.stop = n.addr) (halloc : b.alloc = true)
    (hlarge : 32 ≤ b.size) (hpl : p.alloc = false → p.addr ∈ fl)
    (hnl : n.alloc = false → n.addr ∈ fl) :
    ∃ h', (mmFree (payload b.addr)).run h = .ok ((), h') ∧
      Holds h' (overwrite S (b.absorb (ifFree p) (ifFree n) false))
        ((b.absorb (ifFree p) (ifFree n) false).addr ::
          unlist (unlist fl (ifFree p)) (ifFree n)) ∧
      SameExcept h h' (freeBytesWritten fl (ifFree p) b (ifFree n)) ∧
      h'.word b.addr &&& 1#64 = 0 := by
  let b₀ : Block := { b with alloc := false }
  have ht := hS.tagged b hb
  have hbl : b.addr ∉ fl := not_listed_of_alloc hS hb halloc
  have hS₁ : Holds (setTags h b.addr b.size false) (overwrite S b₀) fl := by
    refine hS.retag b₀ ht.inHeap fun c hc hcfl => ?_
    exact (hS.disjoint c hc b hb).resolve_left fun heq => hbl (heq ▸ hcfl)
  have hmem : ∀ c ∈ S, Separate c b → c ∈ overwrite S b₀ := fun c hc hd =>
    mem_overwrite_of_disjoint hc hd
  obtain ⟨h₂, hinsert, hS₂, hsame₂⟩ := hS₁.insert (b := b₀) mem_overwrite_self rfl hlarge hbl
  have hpl₂ : p.alloc = false → p.addr ∈ b.addr :: fl := fun hfree =>
    List.mem_cons_of_mem _ (hpl hfree)
  have hnl₂ : n.alloc = false → n.addr ∈ b.addr :: fl := fun hfree =>
    List.mem_cons_of_mem _ (hnl hfree)
  obtain ⟨h₃, hcoalesce, hS₃, hsame₃⟩ := coalescing_run hS₂ (hmem p hp (.inl hpb.le))
    mem_overwrite_self (hmem n hn (.inr hbn.le)) hpb hbn rfl hlarge (by simp [b₀]) hpl₂ hnl₂
  have hmerge : mergeBytes (b.addr :: fl) (ifFree p) b₀ (ifFree n) =
      mergeBytes (b.addr :: fl) (ifFree p) b (ifFree n) := by
    simp only [mergeBytes, b₀, absorb_retag]
  have hpayload : payloadToBlock (payload b.addr) = b.addr := by
    unfold payloadToBlock payload
    omega
  have hne : payload b.addr ≠ null := by
    unfold payload null
    omega
  have hone : ¬ bit true = 0 := by decide
  have hread := ht.blockAllocated_run
  rw [halloc] at hread
  have hclear : (blockSetAllocated b.addr 0).run h = .ok ((), setTags h b.addr b.size false) :=
    ht.blockSetAllocated_run false
  refine ⟨h₃, ?_, ?_, ?_, ?_⟩
  · simp only [mmFree, if_neg hne, hpayload]
    rw [run_bind_of_ok hread, if_neg hone, run_bind_of_ok hclear, run_bind_of_ok hinsert]
    exact hcoalesce
  · have hb₀ : b₀.absorb (ifFree p) (ifFree n) false = b.absorb (ifFree p) (ifFree n) false :=
      absorb_retag _ _ _ _ _
    have hover : overwrite (overwrite S b₀) (b.absorb (ifFree p) (ifFree n) false) =
        overwrite S (b.absorb (ifFree p) (ifFree n) false) :=
      overwrite_overwrite (absorb_addr_le hpb _ _) (stop_le_absorb_stop hpb _ _)
    rwa [hb₀, hover, List.erase_cons_head] at hS₃
  · have hset := sameExcept_setTags (h := h) (b := b.addr) b.large false
    rw [hmerge] at hsame₃
    refine ((hset.trans hsame₂).trans hsame₃).mono (Set.union_subset ?_ Set.subset_union_right)
    refine Set.union_subset Set.subset_union_left ?_
    exact (linkBytes_subset_mergeBytes (List.Subset.refl _)).trans Set.subset_union_right
  · cases hpalloc : p.alloc with
    | true =>
        have haddr : (b₀.absorb (ifFree p) (ifFree n) false).addr = b.addr :=
          joinPrev_addr_of_alloc (b := b₀) hpalloc
        rw [← haddr]
        exact (hS₃.tagged _ mem_overwrite_self).header_bit
    | false =>
        have hplarge := hS.large_of_listed hp (hpl hpalloc)
        have hsame : h₃.word b.addr = h₂.word b.addr := hsame₃.word_eq fun x hlo hhi =>
          header_not_mem_mergeBytes hS₂ mem_overwrite_self hpb hpalloc hplarge hlarge hlo hhi
        rw [hsame]
        exact (hS₂.tagged b₀ mem_overwrite_self).header_bit

end Merge

end MallocLab.Coalescing
