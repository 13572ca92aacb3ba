import MallocLab.Repl
import MallocLab.Traversal

/-!
What `print` shows of a sound heap: one line for each block, and no complaint.
-/

namespace MallocLab.ReplPrinting

open MallocLab.Machine
open MallocLab.Mminline
open MallocLab.WordBits
open MallocLab.HeapPrograms
open MallocLab.BoundaryTags
open MallocLab.FreeLists
open MallocLab.AbstractLayout
open MallocLab.AbstractLayout.Layout
open MallocLab.Representation
open MallocLab.Repl

variable {h : Heap} {L : Layout} {b : Block}

/-- The index that `print` shows for a block. -/
def shownIndex (blocks : Nat → ReplBlock) (b : Block) : Option Nat :=
  (findReplBlockFromBlock blocks b.addr numBlocks).map ReplBlock.index

/-- The line for a block. -/
def statusLine (h : Heap) (blocks : Nat → ReplBlock) (b : Block) : Printed :=
  if b.alloc then .allocated (shownIndex blocks b) b.addr (BitVec.ofNat 64 b.size)
  else .free b.addr (BitVec.ofNat 64 b.size) (flink h b.addr) (blink h b.addr)

theorem printStatus_run (blocks : Nat → ReplBlock) (hR : Represents h L) (hb : b ∈ L.all) :
    (printStatus (shownIndex blocks b) b.addr).run h = .ok (statusLine h blocks b, h) := by
  have ht := hR.tagged hb
  rw [printStatus, run_bind_of_ok ht.blockAllocated_run, statusLine]
  rcases halloc : b.alloc with _ | _
  · have hlisted : b.addr ∈ L.freeList := hR.wellFormed.mem_freeList hb halloc
    have hnode := hR.holds.list.node b.addr hlisted
    have hzero : ¬ bit false ≠ 0 := by decide
    rw [if_neg hzero, run_bind_of_ok ht.blockSize_run, run_bind_of_ok hnode.blockFlink_run,
      run_bind_of_ok hnode.blockBlink_run]
    rfl
  · have hone : bit true ≠ 0 := by decide
    rw [if_pos hone, run_bind_of_ok ht.blockSize_run]
    rfl

theorem blockEndSize_run (hR : Represents h L) (hb : b ∈ L.all) :
    (blockEndSize b.addr).run h = .ok (BitVec.ofNat 64 b.size, h) := by
  have ht := hR.tagged hb
  rw [blockEndSize, run_bind_of_ok (blockEndTag_run ht.aligned ht.large ht.small ht.inHeap_header
    ht.header), run_bind_of_ok (readWord_run ht.inHeap_endTag), ht.endTag,
    tagWord_and_neg_two ht.aligned ht.small]
  rfl

/-- A block of a sound heap gives no cause for complaint. -/
theorem printBlock_run (blocks : Nat → ReplBlock) (hR : Represents h L) (hb : b ∈ L.blocks) :
    (printBlock blocks L.top b.addr).run h = .ok ([statusLine h blocks b], h) := by
  have hall := WellFormed.mem_all_of_mem hb
  have ht := hR.tagged hall
  have hlarge := hR.wellFormed.large b hb
  have hstop := hR.wellFormed.stop_le_top_of_mem hb
  have hmin : minBlockSize.toInt = 32 := by decide
  have hsize : ¬ (BitVec.ofNat 64 b.size).toInt < minBlockSize.toInt := by
    rw [toInt_ofNat_of_lt ht.small, hmin]
    omega
  have hinside : ¬ b.addr + b.size > L.top + minBlockSize.toNat * 8 := by
    change b.addr + b.size ≤ L.top at hstop
    omega
  have hsame : ¬ BitVec.ofNat 64 b.size ≠ BitVec.ofNat 64 b.size := fun hne => hne rfl
  have hstatus := printStatus_run blocks hR hall
  rw [shownIndex] at hstatus
  rw [printBlock, run_bind_of_ok hstatus, run_bind_of_ok ht.blockSize_run,
    run_bind_of_ok (blockEndSize_run hR hall), run_bind_of_ok ht.blockNext_run, if_neg hsame,
    if_neg hsize, if_neg hinside]
  rfl

theorem printBlocks_run (blocks : Nat → ReplBlock) (hR : Represents h L) {s t : List Block}
    (hblocks : L.blocks = s ++ t)
    {fuel : Nat} (hfuel : t.length < fuel) :
    (printBlocks blocks L.top fuel (t.headD L.epilogue).addr).run h =
      .ok (t.map (statusLine h blocks), h) := by
  have hL := hR.wellFormed
  induction t generalizing s fuel with
  | nil =>
      obtain ⟨fuel, rfl⟩ := Nat.exists_eq_add_of_lt hfuel
      have hend : (([] : List Block).headD L.epilogue).addr = L.top := rfl
      rw [printBlocks, if_pos hend]
      rfl
  | cons b t ih =>
      obtain ⟨fuel, rfl⟩ := Nat.exists_eq_add_of_lt (Nat.zero_lt_of_lt hfuel)
      have hb : b ∈ L.blocks := by simp [hblocks]
      have ht := hR.tagged (WellFormed.mem_all_of_mem hb)
      have hbefore := hL.stop_le_top_of_mem hb
      have hne : ¬ b.addr = L.top := by
        have hpos := b.addr_lt_stop
        omega
      have hnext : b.addr + b.size = (t.headD L.epilogue).addr := by
        rcases t with _ | ⟨c, t⟩
        · have hall : L.all = (L.prologue :: s) ++ b :: L.epilogue :: [] := by
            simp [Layout.all, hblocks]
          exact hL.stop_eq_addr hall
        · have hall : L.all = (L.prologue :: s) ++ b :: c :: (t ++ [L.epilogue]) := by
            simp [Layout.all, hblocks]
          exact hL.stop_eq_addr hall
      have hlt : t.length < 0 + fuel := by
        simp only [List.length_cons] at hfuel
        omega
      have hrest := ih (s := s ++ [b]) (by simp [hblocks]) hlt
      have hnextrun := ht.blockNext_run
      rw [hnext] at hnextrun
      change (printBlocks blocks L.top (0 + fuel + 1) b.addr).run h = _
      rw [printBlocks, if_neg hne, run_bind_of_ok (printBlock_run blocks hR hb), run_bind_of_ok hnextrun,
        run_bind_of_ok hrest]
      rfl

theorem first_addr (hL : L.WellFormed) : L.start + 16 = (L.blocks.headD L.epilogue).addr := by
  rcases hblocks : L.blocks with _ | ⟨c, t⟩
  · have hall : L.all = [] ++ L.prologue :: L.epilogue :: [] := by simp [Layout.all, hblocks]
    exact hL.stop_eq_addr hall
  · have hall : L.all = [] ++ L.prologue :: c :: (t ++ [L.epilogue]) := by
      simp [Layout.all, hblocks]
    exact hL.stop_eq_addr hall

theorem first_le_top (hL : L.WellFormed) : L.start + 16 ≤ L.top := by
  have hfirst := first_addr hL
  rcases hblocks : L.blocks with _ | ⟨c, t⟩
  · rw [hblocks] at hfirst
    exact hfirst.le
  · have hstop := hL.stop_le_top_of_mem (c := c) (by simp [hblocks])
    rw [hblocks] at hfirst
    exact hfirst.le.trans (c.addr_lt_stop.le.trans hstop)

/-- All that `print` shows of a sound heap. -/
theorem mmPrintHeapRepl_run (blocks : Nat → ReplBlock) (hR : Represents h L) :
    (mmPrintHeapRepl blocks).run h =
      .ok ([.heapSize h.memHeapsize, .prologue L.start 16] ++ L.blocks.map (statusLine h blocks) ++
        [.epilogue L.top 16], h) := by
  have hlen := hR.length_all_le
  have hcount : L.all.length = L.blocks.length + 2 := by simp [Layout.all]
  have hprologue := hR.tagged (b := L.prologue) (WellFormed.mem_all_iff.mpr (.inl rfl))
  have hepilogue := hR.tagged (b := L.epilogue) (WellFormed.mem_all_iff.mpr (.inr (.inr rfl)))
  have hlo : h.memHeapLo = L.start := hR.base
  have htop : h.memHeapHi - tagsSize.toNat + 1 = L.top := by
    have hbrk := hR.memBrk_eq_top
    have htags : tagsSize.toNat = 16 := by decide
    have hle := first_le_top hR.wellFormed
    rw [Heap.memHeapHi, htags]
    omega
  have hfirst := first_addr hR.wellFormed
  have hnext := hprologue.blockNext_run
  change (blockNext L.start).run h = .ok (L.start + 16, h) at hnext
  rw [hfirst] at hnext
  have hsize : (blockSize L.start).run h = .ok (16, h) := hprologue.blockSize_run
  have hwalk := printBlocks_run (s := []) blocks hR rfl
    (show L.blocks.length < h.memHeapsize by omega)
  have hend : (blockSize L.top).run h = .ok (16, h) := hepilogue.blockSize_run
  rw [mmPrintHeapRepl, run_bind_of_ok (run_get h)]
  dsimp only
  rw [hlo, htop, run_bind_of_ok hsize, run_bind_of_ok hnext, run_bind_of_ok hwalk,
    run_bind_of_ok hend]
  rfl

end MallocLab.ReplPrinting
