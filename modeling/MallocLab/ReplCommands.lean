import MallocLab.ReplInvariant
import MallocLab.ReplPrinting

/-!
`free` and `print` keep the invariant of the REPL, and so does a `reset` with no valid index.
-/

namespace MallocLab.ReplCommands

open MallocLab.Machine
open MallocLab.HeapPrograms
open MallocLab.BoundaryTags
open MallocLab.AbstractLayout
open MallocLab.AbstractLayout.Layout
open MallocLab.HeapGrowth
open MallocLab.Runs
open MallocLab.Determinism
open MallocLab.MallocPackage
open MallocLab.Mdriver
open MallocLab.DriverPrograms
open MallocLab.Repl
open MallocLab.ReplHoldings
open MallocLab.ReplPrinting
open MallocLab.ReplInvariant

variable {d d' : Driver Heap ReplState} {index : Int} {i q : Nat} {s : Heap}

section Free

theorem freeCmd_run (hindex : indexInTable index = some i)
    (hvalid : (d.table.blocks i).isValid = true)
    (hcall : (mmPackage.exec (.free (d.table.blocks i).ptr)).run d.heap = .ok (q, s)) :
    ∃ d', (freeCmd mmPackage index).run d = .ok ([], d') ∧
      Leaves d' s (d.ranges.eraseP fun r => r.lo = (d.table.blocks i).ptr)
        (d.issued ++ [⟨i, .free (d.table.blocks i).ptr, q⟩])
        (Function.update d.table.blocks i { d.table.blocks i with isValid := false }) := by
  have hcall' := callMm_run (d := drop (counted d) (d.table.blocks i).ptr) i hcall
  rw [freeCmd, hindex]
  dsimp only
  rw [run_bind_of_ok (getReplBlock_run i d), if_neg (not_not.mpr hvalid),
    run_bind_of_ok (countOp_run d), run_bind_of_ok (removeRange_run _ _), run_bind_of_ok hcall',
    run_bind_of_ok (setReplBlock_run i _ _)]
  exact ⟨_, rfl, rfl, rfl, rfl, rfl⟩

/-- `free` keeps the invariant, whatever its index. -/
theorem keeping_free (hC : Inv d) : Keeping d (.free index) := by
  rcases hindex : indexInTable index with _ | i
  · apply keeping_of_same hC [.indexRange]
    rw [Command.handler, freeCmd, hindex]
    rfl
  have hi := indexInTable_lt hindex
  rcases hvalid : (d.table.blocks i).isValid with _ | _
  · apply keeping_of_same hC [.notInUse]
    have hnot : ¬ (d.table.blocks i).isValid = true := by simp [hvalid]
    rw [Command.handler, freeCmd, hindex]
    dsimp only
    rw [run_bind_of_ok (getReplBlock_run i d), if_pos hnot]
    rfl
  · have hlegal : (Call.free (d.table.blocks i).ptr).Legal ((holdings d.issued).map Prod.snd) :=
      .inr ⟨_, hC.live hi hvalid⟩
    obtain ⟨q, s, hcall, hmm, -, hkeeps⟩ := hC.call i hlegal trivial
    obtain ⟨d', hrun, hleaves⟩ := freeCmd_run hindex hvalid hcall
    have hlog := holdings_concat d.issued ⟨i, .free (d.table.blocks i).ptr, q⟩
    rw [hlog] at hmm
    refine keeping_of_call hrun (hleaves.inv ?_) hleaves.issued (.inr ⟨i, hi, hvalid, rfl⟩)
    rw [hlog]
    exact hC.release hi hvalid hmm hkeeps

end Free

section Print

/-- The block of a payload of the table is there to be printed. -/
theorem printCmd_block (hC : Inv d) (hindex : indexInTable index = some i)
    (hvalid : (d.table.blocks i).isValid = true) :
    ∃ size, (printCmd (some index)).run d =
      .ok ([.allocatedBlock i ((d.table.blocks i).ptr - 8) size], d) := by
  obtain ⟨⟨L, hL⟩, -⟩ := hC.mm
  obtain ⟨b, hb, haddr, -⟩ := hL.block_of_live (hC.live (indexInTable_lt hindex) hvalid)
  have ht := hL.represents.tagged (WellFormed.mem_all_of_mem hb.1)
  have hblock : (d.table.blocks i).ptr - 8 = b.addr := by
    rw [← haddr]
    exact Nat.add_sub_cancel b.addr 8
  have halloc := ht.blockAllocated_run
  have hsize := ht.blockSize_run
  have hone : bit b.alloc ≠ 0 := by
    rw [hb.2]
    decide
  refine ⟨BitVec.ofNat 64 b.size, ?_⟩
  rw [printCmd, hindex]
  dsimp only
  rw [run_bind_of_ok (getReplBlock_run i d), if_neg (not_not.mpr hvalid), hblock,
    run_bind_of_ok (onHeap_run halloc), if_pos hone, run_bind_of_ok (onHeap_run hsize)]
  rfl

/-- `print` leaves everything as it is. -/
theorem keeping_print (hC : Inv d) (block : Option Int) : Keeping d (.print block) := by
  rcases block with _ | index
  · obtain ⟨⟨L, hL⟩, -⟩ := hC.mm
    have hprint := mmPrintHeapRepl_run d.table.blocks hL.represents
    obtain ⟨out, hrun⟩ : ∃ out, (Command.handler (.print none)).run d = .ok (out, d) := by
      rw [Command.handler, printCmd, run_bind_of_ok (run_get d)]
      exact ⟨_, onHeap_run hprint⟩
    exact keeping_of_same hC out hrun
  · rcases hindex : indexInTable index with _ | i
    · apply keeping_of_same hC [.indexRange]
      rw [Command.handler, printCmd, hindex]
      rfl
    rcases hvalid : (d.table.blocks i).isValid with _ | _
    · apply keeping_of_same hC [.notAllocated i]
      have hnot : ¬ (d.table.blocks i).isValid = true := by simp [hvalid]
      rw [Command.handler, printCmd, hindex]
      dsimp only
      rw [run_bind_of_ok (getReplBlock_run i d), if_pos hnot]
      rfl
    · obtain ⟨size, hrun⟩ := printCmd_block hC hindex hvalid
      exact keeping_of_same hC _ hrun

end Print

section Reset

/-- A reset empties the heap and the records, and leaves the table. -/
theorem resetCmd_run (d : Driver Heap ReplState) :
    ∃ h' d', (resetCmd mmPackage).run d = .ok ([], d') ∧
      Invariant ⟨h', []⟩ (emptyLayout d.heap.arena.start) ∧ Leaves d' h' [] [] d.table.blocks := by
  obtain ⟨h', hrun, hI⟩ := restart_run d.heap
  obtain ⟨⟨⟩, h₁, hreset, hinit⟩ := run_bind_eq_ok hrun
  have hreset' : mmPackage.memResetBrk.run d.heap = .ok ((), h₁) := hreset
  have hinit' : (onHeap mmPackage.mmInit).run
      ({ d with heap := h₁, ranges := [], issued := [] } : Driver Heap ReplState) =
      .ok (0, { d with heap := h', ranges := [], issued := [] }) := onHeap_run hinit
  have hnot : ¬ (0 : Int) < 0 := by decide
  rw [resetCmd, run_bind_of_ok (resetBrk_run hreset'), run_bind_of_ok (clearRanges_run _),
    run_bind_of_ok hinit', if_neg hnot]
  exact ⟨h', _, rfl, hI, rfl, rfl, rfl, rfl⟩

/-- On an empty heap no index may be valid. -/
theorem inv_of_empty {h : Heap} {L : Layout} {blocks : Nat → ReplBlock}
    (hleaves : Leaves d' h [] [] blocks) (hI : Invariant ⟨h, []⟩ L)
    (hnone : ∀ i < numBlocks, (blocks i).isValid = false) : Inv d' := by
  apply hleaves.inv
  constructor
  · exact ⟨⟨L, hI⟩, by simp [holdings]⟩
  · intro i p n
    constructor
    · intro hmem
      cases hmem
    · rintro ⟨hi, hvalid, -, -⟩
      rw [hnone i hi] at hvalid
      cases hvalid
  · exact .nil
  · simp [holdings]
  · simp [holdings]

theorem keeping_reset (hnone : ∀ i < numBlocks, (d.table.blocks i).isValid = false) :
    Keeping d .reset := by
  obtain ⟨h', d', hrun, hI, hleaves⟩ := resetCmd_run d
  refine ⟨[], d', hrun, inv_of_empty hleaves hI hnone, ?_⟩
  rw [newCalls, hleaves.issued]
  simp

/-- The state in which the REPL asks for its first command. -/
theorem inv_start {arena : Arena} {stale : ByteMemory.Memory} {out : List Printed}
    (hrun : (resetCmd mmPackage).run (replStart arena stale) = .ok (out, d)) : Inv d := by
  obtain ⟨h', d', hrun', hI, hleaves⟩ := resetCmd_run (replStart arena stale)
  obtain ⟨-, rfl⟩ := Prod.mk.inj (Except.ok.inj (hrun'.symm.trans hrun))
  exact inv_of_empty hleaves hI fun i _ => rfl

end Reset

end MallocLab.ReplCommands
