import MallocLab.ReplPrinting
import MallocLab.AffordableTraces
import MallocLab.TraceReports

/-!
The utilization that `main` finds on a trace of 'a' and 'f' is at least what its peak is of the
room of a budget that the trace keeps to, wherever the free requests stand.
-/

namespace MallocLab.GuaranteedUtilization

open MallocLab.Machine
open MallocLab.HeapGrowth
open MallocLab.AbstractLayout
open MallocLab.MallocPackage
open MallocLab.Mdriver
open MallocLab.TraceSteps
open MallocLab.TraceVerdict
open MallocLab.MemoryBudget
open MallocLab.AffordableTraces
open MallocLab.TraceGrammar
open MallocLab.MdriverMain
open MallocLab.TraceReports

variable {B : Budget} {d : Driver Heap Payloads} {f : TraceFile} {before after : List TraceFile}
  {tb ta : List (List Line)} {ls : List Line} {start : Nat}

theorem replayOf_affordable (huses : UsesHeld ∅ (ls.map requestOfLine))
    (hafford : Affordable B noUsage (ls.map requestOfLine)) (hroom : B.room ≤ maxHeap)
    (start : Nat) :
    ∃ L, replayOf start ls = .ok L ∧ 32 ≤ L.brk - L.start ∧ L.brk - L.start ≤ B.room := by
  obtain ⟨L, live, hreplay, hspent⟩ := (accounts_start B start).replay hroom 0 huses hafford
  have htop := hspent.room
  have hlow := ReplPrinting.first_le_top hspent.wellFormed
  have hbrk : L.brk = L.top + 16 := rfl
  exact ⟨L, hreplay, by omega, by omega⟩

/-- Less room for the same peak is a higher utilization. -/
theorem peak_div_le {peak size room : Nat} (hpos : 0 < size) (hle : size ≤ room) :
    (peak : ℚ) / room ≤ (peak : ℚ) / size := by
  have hsize : (0 : ℚ) < size := Nat.cast_pos.mpr hpos
  have hcast : (size : ℚ) ≤ room := Nat.cast_le.mpr hle
  exact div_le_div_of_nonneg_left (Nat.cast_nonneg peak) hsize hcast

/-- In any session, a trace of 'a' and 'f' that keeps to a budget for which the arena has room is
found valid, with at least the part of the room that its peak is; so it passes if that is the
part that is asked of its name. -/
theorem affordable_utilization (hbefore : List.Forall₂ HoldsTrace before tb)
    (hafter : List.Forall₂ HoldsTrace after ta) (hd : d.errors = []) (hholds : HoldsTrace f ls)
    (hafford : Affordable B noUsage (ls.map requestOfLine)) (hroom : B.room ≤ maxHeap)
    (tracedir : String) :
    ∃ r d' util, (main mmPackage tracedir (before ++ f :: after)).run d = .ok (r, d') ∧
      r.stats[before.length]? = some ⟨f.name, BitVec.ofNat 32 ls.length, true, util, ""⟩ ∧
      (peakOf ls : ℚ) / (B.room : ℚ) ≤ util ∧
      ∀ minUtil, (f.name, minUtil) ∈ traceBaselineTable →
        minUtil * (B.room : ℚ) ≤ (peakOf ls : ℚ) →
          ⟨before.length, f.name, some (util * 100), true⟩ ∈ r.rows := by
  obtain ⟨d', hrun, -⟩ := main_run (List.rel_append hbefore (.cons hholds hafter)) hd tracedir
  obtain ⟨L, hreplay, hlow, hhigh⟩ :=
    replayOf_affordable hholds.uses hafford hroom d.heap.arena.start
  have hutil : (peakOf ls : ℚ) / (B.room : ℚ) ≤ (peakOf ls : ℚ) / ((L.brk - L.start : Nat) : ℚ) :=
    peak_div_le (by omega) hhigh
  have hlen := length_statsFrom hbefore.length_eq d.heap.arena.start 0
  have hstats : (statsFrom d.heap.arena.start 0 (before ++ f :: after)
      (tb ++ ls :: ta))[before.length]? = some ⟨f.name, BitVec.ofNat 32 ls.length, true,
        (peakOf ls : ℚ) / ((L.brk - L.start : Nat) : ℚ), ""⟩ := by
    rw [statsFrom_append hbefore.length_eq, List.getElem?_append_right hlen.le, hlen, Nat.sub_self,
      statsOf, hreplay]
    rfl
  refine ⟨_, d', _, hrun, hstats, hutil, fun minUtil hmem hbase => ?_⟩
  have hrow := printpassedRow_mem (i := 0) hstats hmem
  have hpos : (0 : ℚ) < (B.room : ℚ) := Nat.cast_pos.mpr (by omega)
  have hpassed : minUtil ≤ (peakOf ls : ℚ) / ((L.brk - L.start : Nat) : ℚ) :=
    ((le_div_iff₀ hpos).mpr hbase).trans hutil
  rw [Nat.zero_add, printpassedRow, if_pos rfl, decide_eq_true hpassed] at hrow
  exact hrow

section Sample

def roomyFile : TraceFile where
  name := "coalescing2-bal.rep"
  file := some "9000 3 5 1\na 0 4000\na 1 4000\nf 0\na 2 3000\nf 1\n".toList
  stale := ⟨7, 7, 7, 7⟩
  staleSize := 7
  stalePayloads := noPayloads

def roomyLines : List Line :=
  [.alloc 0 4000, .alloc 1 4000, .free 0, .alloc 2 3000, .free 1]

theorem roomy_holds : HoldsTrace roomyFile roomyLines := by
  refine ⟨⟨_, ⟨9000, 3, 5, 1⟩, rfl, ⟨?_, ?_, by decide⟩⟩, by decide, by decide⟩
  · exact ⟨_, _, _, _, _, rfl, ⟨rfl, rfl, rfl, rfl⟩,
      .alloc rfl rfl (.alloc rfl rfl (.free rfl (.alloc rfl rfl (.free rfl .nil)))), rfl⟩
  · exact ⟨by decide, by decide, by decide, .alloc 2 3000, by decide, rfl, rfl⟩

/-- Before a trace that fails. -/
theorem affordable_utilization_sample : ∃ r d' util,
    (main mmPackage "" ([] ++ roomyFile :: [sampleFiles[1]])).run sampleTraceDriver = .ok (r, d') ∧
      r.stats[0]? = some ⟨"coalescing2-bal.rep", 5, true, util, ""⟩ ∧ 8000 / 16128 ≤ util := by
  have hafford : Affordable ⟨2, 4016, 8032⟩ noUsage (roomyLines.map requestOfLine) := by decide
  cases sample_holds with
  | cons _ hrest =>
      obtain ⟨r, d', util, hrun, hstats, hutil, -⟩ :=
        affordable_utilization (d := sampleTraceDriver) .nil hrest rfl roomy_holds hafford (by decide) ""
      exact ⟨r, d', util, hrun, hstats, hutil⟩

end Sample

end MallocLab.GuaranteedUtilization
