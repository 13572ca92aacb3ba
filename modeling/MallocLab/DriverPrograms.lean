import MallocLab.Mdriver

/-!
Symbolic execution of the driver: what each of its helpers does, and what a run
of it that returned must have done.
-/

namespace MallocLab.DriverPrograms

open MallocLab.Machine
open MallocLab.HeapPrograms
open MallocLab.Runs
open MallocLab.MallocPackage
open MallocLab.Mdriver

variable {σ τ α : Type} {P : Package σ} {d d' : Driver σ τ} {s : σ}

section Heap

variable {x : StateT σ (Except Fault) α} {a : α}

theorem onHeap_run (hx : x.run d.heap = .ok (a, s)) :
    (onHeap x).run d = .ok (a, { d with heap := s }) := by
  rw [onHeap, run_bind_of_ok (run_get d), hx]
  rfl

theorem onHeap_eq_ok (hrun : (onHeap x).run d = .ok (a, d')) :
    ∃ s, x.run d.heap = .ok (a, s) ∧ d' = { d with heap := s } := by
  rw [onHeap, run_bind_of_ok (run_get d)] at hrun
  rcases hx : x.run d.heap with e | ⟨b, s⟩
  · rw [hx] at hrun
    cases hrun
  · rw [hx] at hrun
    cases hrun
    exact ⟨s, rfl, rfl⟩

variable {newp index q : Nat} {oldsize : Word} {size : BitVec 32} {b : Bool} {c : Call}

theorem checkData_run (hdata : compareData P d.heap newp index oldsize size = .ok b) :
    (checkData P newp index oldsize size).run d = .ok (b, d) := by
  rw [checkData, run_bind_of_ok (run_get d), hdata]
  rfl

theorem checkData_eq_ok (hrun : (checkData P newp index oldsize size).run d = .ok (b, d')) :
    compareData P d.heap newp index oldsize size = .ok b ∧ d' = d := by
  rw [checkData, run_bind_of_ok (run_get d)] at hrun
  rcases hdata : compareData P d.heap newp index oldsize size with e | b'
  · rw [hdata] at hrun
    cases hrun
  · rw [hdata] at hrun
    cases hrun
    exact ⟨rfl, rfl⟩

/-- The driver after a call that returned `q` and left `s`. -/
def issue (d : Driver σ τ) (s : σ) (index : Nat) (c : Call) (q : Nat) : Driver σ τ :=
  { d with heap := s, issued := d.issued ++ [⟨index, c, q⟩] }

theorem callMm_run (index : Nat) (hcall : (P.exec c).run d.heap = .ok (q, s)) :
    (callMm P index c).run d = .ok (q, issue d s index c q) := by
  rw [callMm, run_bind_of_ok (onHeap_run hcall)]
  rfl

theorem callMm_eq_ok (hrun : (callMm P index c).run d = .ok (q, d')) :
    ∃ s, (P.exec c).run d.heap = .ok (q, s) ∧ d' = issue d s index c q := by
  obtain ⟨q', d₁, hheap, hrest⟩ := run_bind_eq_ok hrun
  obtain ⟨s, hcall, rfl⟩ := onHeap_eq_ok hheap
  cases hrest
  exact ⟨s, hcall, rfl⟩

theorem fillRange_run
    (hfill : (P.memset q (fillByte index) (size.signExtend 64).toNat).run d.heap = .ok ((), s)) :
    (fillRange P q index size).run d = .ok ((), { d with heap := s }) := onHeap_run hfill

theorem fillRange_eq_ok (hrun : (fillRange P q index size).run d = .ok ((), d')) :
    ∃ s, (P.memset q (fillByte index) (size.signExtend 64).toNat).run d.heap = .ok ((), s) ∧
      d' = { d with heap := s } := onHeap_eq_ok hrun

theorem resetBrk_run (hreset : P.memResetBrk.run d.heap = .ok ((), s)) :
    (resetBrk P).run d = .ok ((), { d with heap := s, issued := [] }) := by
  rw [resetBrk, run_bind_of_ok (onHeap_run hreset)]
  rfl

end Heap

section Ranges

variable {lo tracenum opnum : Nat} {size : BitVec 32}

/-- The driver after a report. -/
def complain (d : Driver σ τ) (tracenum opnum : Nat) (c : Complaint) : Driver σ τ :=
  { d with errors := d.errors ++ [⟨tracenum, linenum opnum, c⟩] }

/-- The driver without the record that starts at `lo`. -/
def drop (d : Driver σ τ) (lo : Nat) : Driver σ τ :=
  { d with ranges := d.ranges.eraseP fun p => p.lo = lo }

@[simp] theorem removeRange_run (lo : Nat) (d : Driver σ τ) :
    (removeRange lo).run d = .ok ((), drop d lo) := rfl

@[simp] theorem clearRanges_run (d : Driver σ τ) :
    clearRanges.run d = .ok ((), { d with ranges := [] }) := rfl

/-- The record of a payload. -/
def payloadRange (lo : Nat) (size : BitVec 32) : Range := ⟨lo, lo + size.toNat - 1⟩

/-- What `add_range` finds wrong with a payload in the state `d`. -/
def payloadError (P : Package σ) (d : Driver σ τ) (lo : Nat) (size : BitVec 32) :
    Option Complaint :=
  rangeError (P.memHeapLo d.heap) (P.memHeapHi d.heap) d.ranges lo (lo + size.toNat - 1)

/-- The driver with the record of a payload in front of the others. -/
def record (d : Driver σ τ) (lo : Nat) (size : BitVec 32) : Driver σ τ :=
  { d with ranges := payloadRange lo size :: d.ranges }

theorem addRange_zero (d : Driver σ τ) :
    (addRange P lo 0 tracenum opnum).run d = .ok (true, d) := rfl

theorem ne_zero_of_toInt_pos (hpos : 0 < size.toInt) : size ≠ 0 := by
  rintro rfl
  exact absurd hpos (by decide)

theorem addRange_accepts (hpos : 0 < size.toInt) (hfine : payloadError P d lo size = none) :
    (addRange P lo size tracenum opnum).run d = .ok (true, record d lo size) := by
  rw [payloadError] at hfine
  rw [addRange, if_neg (ne_zero_of_toInt_pos hpos), if_pos hpos, run_bind_of_ok (run_get d)]
  simp only [hfine]
  rfl

theorem addRange_rejects {c : Complaint} (hpos : 0 < size.toInt)
    (hwrong : payloadError P d lo size = some c) :
    (addRange P lo size tracenum opnum).run d = .ok (false, complain d tracenum opnum c) := by
  rw [payloadError] at hwrong
  rw [addRange, if_neg (ne_zero_of_toInt_pos hpos), if_pos hpos, run_bind_of_ok (run_get d)]
  simp only [hwrong]
  rfl

theorem addRange_asserts (hneg : size.toInt < 0) :
    (addRange P lo size tracenum opnum).run d = .error .assertion := by
  have hsize : size ≠ 0 := by
    rintro rfl
    exact absurd hneg (by decide)
  rw [addRange, if_neg hsize, if_neg (by omega)]
  rfl

/-- All that `add_range` can do for a size other than zero. -/
theorem addRange_cases {b : Bool} (hsize : size ≠ 0)
    (hrun : (addRange P lo size tracenum opnum).run d = .ok (b, d')) :
    0 < size.toInt ∧
      ((payloadError P d lo size = none ∧ b = true ∧ d' = record d lo size) ∨
        ∃ c, payloadError P d lo size = some c ∧ b = false ∧
          d' = complain d tracenum opnum c) := by
  have hzero : size.toInt ≠ 0 := fun hzero => hsize (BitVec.eq_of_toInt_eq hzero)
  rcases lt_or_gt_of_ne hzero with hneg | hpos
  · rw [addRange_asserts hneg] at hrun
    cases hrun
  · refine ⟨hpos, ?_⟩
    rcases herror : payloadError P d lo size with _ | c
    · rw [addRange_accepts hpos herror] at hrun
      cases hrun
      exact .inl ⟨rfl, rfl, rfl⟩
    · rw [addRange_rejects hpos herror] at hrun
      cases hrun
      exact .inr ⟨c, rfl, rfl, rfl⟩

theorem toNat_pos (hpos : 0 < size.toInt) : 0 < size.toNat := by
  rw [BitVec.toInt_eq_toNat_cond] at hpos
  split at hpos
  · omega
  · omega

theorem overlapTest_iff {hi : Nat} {r : Range} :
    overlapTest lo hi r = true ↔ r.lo ≤ lo ∧ lo ≤ r.hi ∨ r.lo ≤ hi ∧ hi ≤ r.hi := by
  simp only [overlapTest, Bool.or_eq_true, Bool.and_eq_true, decide_eq_true_eq]

/-- A payload is fine if it is aligned, inside the heap, and has neither of its
ends in a record. -/
theorem payloadError_eq_none_iff (hpos : 0 < size.toInt) :
    payloadError P d lo size = none ↔
      isAligned lo ∧
        (P.memHeapLo d.heap ≤ lo ∧ lo + size.toNat - 1 ≤ P.memHeapHi d.heap) ∧
        ∀ r ∈ d.ranges, ¬ overlapTest lo (lo + size.toNat - 1) r := by
  have hnat := toNat_pos hpos
  rw [payloadError, rangeError]
  rcases Decidable.em (isAligned lo) with haligned | hnot
  · rw [if_neg (not_not.mpr haligned), and_iff_right haligned]
    split
    · refine iff_of_false (Option.some_ne_none _) ?_
      rintro ⟨⟨hlo, hhi⟩, -⟩
      omega
    · rw [Option.map_eq_none_iff, List.find?_eq_none, and_iff_right]
      omega
  · rw [if_pos hnot]
    refine iff_of_false (Option.some_ne_none _) ?_
    rintro ⟨haligned, -⟩
    exact hnot haligned

end Ranges

section Payloads

variable {d d' : Driver σ Payloads} {index p : Nat} {size : BitVec 32}

@[simp] theorem getBlock_run (index : Nat) (d : Driver σ Payloads) :
    (getBlock index).run d = .ok (d.table.blocks index, d) := rfl

@[simp] theorem getBlockSize_run (index : Nat) (d : Driver σ Payloads) :
    (getBlockSize index).run d = .ok (d.table.blockSizes index, d) := rfl

end Payloads

end MallocLab.DriverPrograms
