import MallocLab.Representation

/-!
What an observer sees of the heap: the blocks met by following `block_next`
from `mem_heap_lo()` to the epilogue, and the ones met by following `flink`
from `flist_first` until it comes back.
-/

namespace MallocLab.Traversal

open MallocLab.Machine
open MallocLab.Mminline
open MallocLab.Tiling
open MallocLab.LinkRing
open MallocLab.WordBits
open MallocLab.HeapPrograms
open MallocLab.BoundaryTags
open MallocLab.FreeLists
open MallocLab.AbstractLayout
open MallocLab.HeapInvariant
open MallocLab.Representation

/-- A block as its header shows it. -/
structure Entry where
  addr : Nat
  size : Word
  allocated : Word
  deriving DecidableEq, Repr

def Entry.stop (e : Entry) : Nat := e.addr + e.size.toNat

def walkBlocks : Nat → Nat → HeapM (List Entry)
  | 0, _ => throw .diverges
  | fuel + 1, b => do
      let size ← blockSize b
      let allocated ← blockAllocated b
      if b = (← get).epilogue then
        return [⟨b, size, allocated⟩]
      else
        return ⟨b, size, allocated⟩ :: (← walkBlocks fuel (← blockNext b))

/-- All blocks of the heap, from the prologue to the epilogue. -/
def heapBlocks : HeapM (List Entry) := do
  let h ← get
  walkBlocks h.memHeapsize h.memHeapLo

/-- The blocks strictly between prologue and epilogue. -/
def innerBlocks (entries : List Entry) : List Entry := entries.tail.dropLast

/-- `e` is an allocated block between prologue and epilogue. -/
def IsAllocated (h : Heap) (e : Entry) : Prop :=
  ∃ entries, heapBlocks.run h = .ok (entries, h) ∧ e ∈ innerBlocks entries ∧ e.allocated ≠ 0

/-- The byte at `x` belongs to one of them. -/
def InUse (h : Heap) (x : Nat) : Prop := ∃ e, IsAllocated h e ∧ e.addr ≤ x ∧ x < e.stop

def walkFree : Nat → Nat → HeapM (List Nat)
  | 0, _ => throw .diverges
  | fuel + 1, b => do
      let next ← blockFlink b
      if next = (← getFlistFirst) then
        return [b]
      else
        return b :: (← walkFree fuel next)

/-- The free list from `flist_first` on. -/
def freeBlocks : HeapM (List Nat) := do
  let h ← get
  if h.flistFirst = null then
    return []
  else
    walkFree h.memHeapsize h.flistFirst

/-- The blocks and the free list that a traversal of `h` finds. -/
def Shows (h : Heap) (entries : List Entry) (freeList : List Nat) : Prop :=
  heapBlocks.run h = .ok (entries, h) ∧ freeBlocks.run h = .ok (freeList, h)

/-- The entry of a block. -/
def entry (b : Block) : Entry := ⟨b.addr, BitVec.ofNat 64 b.size, bit b.alloc⟩

section Blocks

variable {h : Heap} {L : Layout} {b : Block}

theorem toNat_size (hR : Represents h L) (hb : b ∈ L.all) :
    (BitVec.ofNat 64 b.size).toNat = b.size := by
  have hsmall := (hR.tagged hb).small
  exact toNat_ofNat_of_lt (by omega)

theorem stop_entry (hR : Represents h L) (hb : b ∈ L.all) : (entry b).stop = b.stop := by
  change b.addr + (BitVec.ofNat 64 b.size).toNat = b.addr + b.size
  rw [toNat_size hR hb]

theorem walkBlocks_run (hR : Represents h L) {s t : List Block}
    (hall : L.all = s ++ b :: t) {fuel : Nat} (hfuel : t.length < fuel) :
    (walkBlocks fuel b.addr).run h = .ok ((b :: t).map entry, h) := by
  have hL := hR.wellFormed
  induction t generalizing s b fuel with
  | nil =>
      obtain ⟨fuel, rfl⟩ := Nat.exists_eq_add_of_lt hfuel
      have hb : b ∈ L.all := by simp [hall]
      have hlast : b = L.epilogue := by
        have h₁ : L.all.getLast? = some b := by simp [hall]
        have h₂ : L.all.getLast? = some L.epilogue := List.getLast?_concat
        exact Option.some.inj (h₁.symm.trans h₂)
      have hepi : b.addr = h.epilogue := by
        rw [hR.epilogue, hlast]
        rfl
      have ht := hR.tagged hb
      rw [walkBlocks, run_bind_of_ok ht.blockSize_run, run_bind_of_ok ht.blockAllocated_run,
        run_bind_of_ok (run_get h), if_pos hepi]
      rfl
  | cons c t ih =>
      obtain ⟨fuel, rfl⟩ := Nat.exists_eq_add_of_lt (Nat.zero_lt_of_lt hfuel)
      have hb : b ∈ L.all := by simp [hall]
      have hstop := hL.stop_eq_addr hall
      have hne : b.addr ≠ h.epilogue := by
        intro heq
        rw [hR.epilogue] at heq
        have hlast := hL.eq_of_addr_eq (c := L.epilogue) hb
          (Layout.WellFormed.mem_all_iff.mpr (.inr (.inr rfl))) heq
        have hc : c ∈ L.all := by simp [hall]
        have hbounds := (hL.tiles.bounds Block.addr_lt_stop hc).2
        have hpos := c.addr_lt_stop
        have hbrk : b.stop = L.brk := by
          rw [hlast]
          rfl
        omega
      have ht := hR.tagged hb
      have hnext : (blockNext b.addr).run h = .ok (c.addr, h) := by
        rw [← hstop]
        exact ht.blockNext_run
      have hlt : t.length < fuel := by
        simp only [List.length_cons] at hfuel
        omega
      have hrest := ih (s := s ++ [b]) (b := c) (by simp [hall]) hlt
      rw [Nat.zero_add, walkBlocks, run_bind_of_ok ht.blockSize_run,
        run_bind_of_ok ht.blockAllocated_run, run_bind_of_ok (run_get h), if_neg hne,
        run_bind_of_ok hnext, run_bind_of_ok hrest]
      rfl

theorem heapBlocks_run (hR : Represents h L) : heapBlocks.run h = .ok (L.all.map entry, h) := by
  have hlen := hR.length_all_le
  have hall : L.all = [] ++ L.prologue :: (L.blocks ++ [L.epilogue]) := rfl
  have hlo : h.memHeapLo = L.prologue.addr := hR.base
  rw [heapBlocks, run_bind_of_ok (run_get h), hlo]
  refine walkBlocks_run hR hall ?_
  rw [hall, List.nil_append, List.length_cons] at hlen
  exact hlen

theorem innerBlocks_map_entry (L : Layout) : innerBlocks (L.all.map entry) = L.blocks.map entry := by
  rw [innerBlocks, Layout.all, List.map_append, List.map_cons, List.cons_append, List.tail_cons]
  exact List.dropLast_concat

theorem allocated_entry_iff : (entry b).allocated ≠ 0 ↔ b.alloc = true := by
  cases halloc : b.alloc with
  | true => simp [entry, halloc]
  | false => simp [entry, halloc]

theorem isAllocated_iff (hR : Represents h L) {e : Entry} :
    IsAllocated h e ↔ ∃ b ∈ L.allocated, entry b = e := by
  constructor
  · rintro ⟨entries, hrun, he, halloc⟩
    obtain rfl : L.all.map entry = entries :=
      congrArg Prod.fst (Except.ok.inj ((heapBlocks_run hR).symm.trans hrun))
    rw [innerBlocks_map_entry] at he
    obtain ⟨b, hb, rfl⟩ := List.mem_map.mp he
    exact ⟨b, ⟨hb, allocated_entry_iff.mp halloc⟩, rfl⟩
  · rintro ⟨b, hb, rfl⟩
    refine ⟨L.all.map entry, heapBlocks_run hR, ?_, allocated_entry_iff.mpr hb.2⟩
    rw [innerBlocks_map_entry]
    exact List.mem_map_of_mem hb.1

/-- The bytes in use are those of the allocated blocks of the layout. -/
theorem inUse_iff (hR : Represents h L) {x : Nat} :
    InUse h x ↔ ∃ b ∈ L.allocated, b.addr ≤ x ∧ x < b.stop := by
  constructor
  · rintro ⟨e, he, hlo, hhi⟩
    obtain ⟨b, hb, rfl⟩ := (isAllocated_iff hR).mp he
    rw [stop_entry hR (Layout.WellFormed.mem_all_of_mem hb.1)] at hhi
    exact ⟨b, hb, hlo, hhi⟩
  · rintro ⟨b, hb, hlo, hhi⟩
    refine ⟨entry b, (isAllocated_iff hR).mpr ⟨b, hb, rfl⟩, hlo, ?_⟩
    rwa [stop_entry hR (Layout.WellFormed.mem_all_of_mem hb.1)]

end Blocks

section Free

variable {h : Heap} {L : Layout}

theorem walkFree_run (hR : Represents h L) {s t : List Nat} {a : Nat}
    (hsplit : L.freeList = s ++ a :: t) {fuel : Nat} (hfuel : t.length < fuel) :
    (walkFree fuel a).run h = .ok (a :: t, h) := by
  have hlist := hR.holds.list
  have hnode := hlist.node
  rw [hsplit] at hlist
  induction t generalizing s a fuel with
  | nil =>
      obtain ⟨fuel, rfl⟩ := Nat.exists_eq_add_of_lt hfuel
      rw [walkFree, run_bind_of_ok (hnode a (by simp [hsplit])).blockFlink_run,
        run_bind_of_ok (run_getFlistFirst h), if_pos hlist.flink_last]
      rfl
  | cons b t ih =>
      obtain ⟨fuel, rfl⟩ := Nat.exists_eq_add_of_lt (Nat.zero_lt_of_lt hfuel)
      obtain ⟨hnext, hne⟩ := hlist.flink_inner
      have hlt : t.length < fuel := by
        simp only [List.length_cons] at hfuel
        omega
      have hrest := ih (s := s ++ [a]) (a := b) (by simp [hsplit]) hlt (by simpa using hlist)
      rw [Nat.zero_add, walkFree, run_bind_of_ok (hnode a (by simp [hsplit])).blockFlink_run,
        run_bind_of_ok (run_getFlistFirst h), hnext, if_neg hne, run_bind_of_ok hrest]
      rfl

theorem freeBlocks_run (hR : Represents h L) : freeBlocks.run h = .ok (L.freeList, h) := by
  have hlist := hR.holds.list
  have hlen := hR.length_freeList_lt
  rw [freeBlocks, run_bind_of_ok (run_get h)]
  rcases hfree : L.freeList with _ | ⟨a, t⟩
  · rw [if_pos (hlist.nil_iff.mpr hfree)]
    rfl
  · have hne : h.flistFirst ≠ null := by
      intro hnull
      rw [hlist.nil_iff.mp hnull] at hfree
      cases hfree
    have hfirst : h.flistFirst = a := by rw [hlist.first, hfree, List.headD_cons]
    rw [hfree] at hlen
    rw [if_neg hne, hfirst]
    exact walkFree_run (s := []) hR hfree (Nat.lt_of_succ_lt hlen)

theorem shows_layout (hR : Represents h L) : Shows h (L.all.map entry) L.freeList :=
  ⟨heapBlocks_run hR, freeBlocks_run hR⟩

theorem Shows.unique {entries entries' : List Entry} {freeList freeList' : List Nat}
    (hs : Shows h entries freeList) (hs' : Shows h entries' freeList') :
    entries = entries' ∧ freeList = freeList' := by
  constructor
  · exact congrArg Prod.fst (Except.ok.inj (hs.1.symm.trans hs'.1))
  · exact congrArg Prod.fst (Except.ok.inj (hs.2.symm.trans hs'.2))

end Free

end MallocLab.Traversal
