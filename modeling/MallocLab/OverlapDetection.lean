import Mathlib.Order.CompletePartialOrder
import MallocLab.DriverPrograms

/-!
The range list as an overlap detector.  `add_range` looks only at the two ends of
a new payload, so that it misses a record strictly inside.
-/

namespace MallocLab.OverlapDetection

open MallocLab.Machine
open MallocLab.Runs
open MallocLab.MallocPackage
open MallocLab.Mdriver
open MallocLab.DriverPrograms

def bytesOf (r : Range) : Set Nat := Set.Icc r.lo r.hi

/-- The records are non-empty and pairwise disjoint. -/
structure Separate (ranges : List Range) : Prop where
  nonempty : ∀ r ∈ ranges, r.lo ≤ r.hi
  disjoint : ranges.Pairwise fun r s => Disjoint (bytesOf r) (bytesOf s)

variable {σ τ : Type} {P : Package σ} {d d' : Driver σ τ} {lo : Nat} {size : BitVec 32}

/-- The payload may be recorded. -/
structure Recordable (P : Package σ) (d : Driver σ τ) (lo : Nat) (size : BitVec 32) : Prop where
  aligned : isAligned lo
  inside : P.memHeapLo d.heap ≤ lo ∧ lo + size.toNat - 1 ≤ P.memHeapHi d.heap
  fresh : ∀ r ∈ d.ranges, Disjoint (bytesOf (payloadRange lo size)) (bytesOf r)

/-- `add_range` records the payload if it may, and otherwise changes no record. -/
def DetectsExactly (P : Package σ) (d : Driver σ τ) (lo : Nat) (size : BitVec 32) : Prop :=
  ∀ tracenum opnum,
    (Recordable P d lo size →
      (addRange P lo size tracenum opnum).run d =
        .ok (true, { d with ranges := payloadRange lo size :: d.ranges })) ∧
    (¬ Recordable P d lo size →
      ∃ errors, (addRange P lo size tracenum opnum).run d =
        .ok (false, { d with errors := errors }))

/-- The payload is turned down for another reason, or it has an end in a record, or
no record lies strictly between its ends. -/
def EndsTell (P : Package σ) (d : Driver σ τ) (lo : Nat) (size : BitVec 32) : Prop :=
  ¬ isAligned lo ∨
  ¬ (P.memHeapLo d.heap ≤ lo ∧ lo + size.toNat - 1 ≤ P.memHeapHi d.heap) ∨
  (∃ r ∈ d.ranges, r.lo ≤ lo ∧ lo ≤ r.hi ∨
    r.lo ≤ lo + size.toNat - 1 ∧ lo + size.toNat - 1 ≤ r.hi) ∨
  ∀ r ∈ d.ranges, ¬ (lo < r.lo ∧ r.hi < lo + size.toNat - 1)

/-- Two intervals meet in an end of the first, or the first encloses the second. -/
theorem disjoint_iff {r s : Range} (hr : r.lo ≤ r.hi) (hs : s.lo ≤ s.hi) :
    Disjoint (bytesOf r) (bytesOf s) ↔
      ¬ overlapTest r.lo r.hi s ∧ ¬ (r.lo < s.lo ∧ s.hi < r.hi) := by
  rw [overlapTest_iff, Set.disjoint_left]
  constructor
  · intro hdisjoint
    have hends : ∀ x, r.lo ≤ x → x ≤ r.hi → ¬ (s.lo ≤ x ∧ x ≤ s.hi) :=
      fun x hlo hhi hx => hdisjoint ⟨hlo, hhi⟩ hx
    have hfirst := hends r.lo le_rfl hr
    have hlast := hends r.hi hr le_rfl
    refine ⟨by tauto, ?_⟩
    rintro ⟨hlo, hhi⟩
    exact hends s.lo hlo.le (by omega) ⟨le_rfl, hs⟩
  · rintro ⟨hends, hinside⟩ x ⟨hlo, hhi⟩ ⟨hlo', hhi'⟩
    omega

theorem payloadRange_nonempty (hpos : 0 < size.toInt) (lo : Nat) :
    (payloadRange lo size).lo ≤ (payloadRange lo size).hi := by
  have hnat := toNat_pos hpos
  change lo ≤ lo + size.toNat - 1
  omega

/-- Nothing is wrong with a payload that may be recorded. -/
theorem Recordable.payloadError (hfit : Recordable P d lo size)
    (hsep : Separate d.ranges) (hpos : 0 < size.toInt) : payloadError P d lo size = none := by
  rw [payloadError_eq_none_iff hpos]
  refine ⟨hfit.aligned, hfit.inside, fun r hr => ?_⟩
  have hdisjoint := hfit.fresh r hr
  rw [disjoint_iff (payloadRange_nonempty hpos lo) (hsep.nonempty r hr)] at hdisjoint
  exact hdisjoint.1

/-- A payload with nothing wrong may be recorded unless it encloses a record. -/
theorem recordable_of_none (hsep : Separate d.ranges) (hpos : 0 < size.toInt)
    (hfine : payloadError P d lo size = none)
    (hinside : ∀ r ∈ d.ranges, ¬ (lo < r.lo ∧ r.hi < lo + size.toNat - 1)) :
    Recordable P d lo size := by
  obtain ⟨haligned, hheap, hends⟩ := (payloadError_eq_none_iff hpos).mp hfine
  refine ⟨haligned, hheap, fun r hr => ?_⟩
  rw [disjoint_iff (payloadRange_nonempty hpos lo) (hsep.nonempty r hr)]
  exact ⟨hends r hr, hinside r hr⟩

theorem inside_of_endsTell (hpos : 0 < size.toInt) (htell : EndsTell P d lo size)
    (hfine : payloadError P d lo size = none) :
    ∀ r ∈ d.ranges, ¬ (lo < r.lo ∧ r.hi < lo + size.toNat - 1) := by
  obtain ⟨haligned, hheap, hends⟩ := (payloadError_eq_none_iff hpos).mp hfine
  rcases htell with hnot | hnot | ⟨r, hr, hmeet⟩ | hinside
  · exact absurd haligned hnot
  · exact absurd hheap hnot
  · exact absurd (overlapTest_iff.mpr hmeet) (hends r hr)
  · exact hinside

theorem detectsExactly_iff (hsep : Separate d.ranges) (hpos : 0 < size.toInt) :
    DetectsExactly P d lo size ↔ EndsTell P d lo size := by
  constructor
  · intro hexact
    rcases herror : payloadError P d lo size with _ | c
    · rcases Classical.em (Recordable P d lo size) with hfit | hnot
      · refine .inr (.inr (.inr fun r hr => ?_))
        have hdisjoint := hfit.fresh r hr
        rw [disjoint_iff (payloadRange_nonempty hpos lo) (hsep.nonempty r hr)] at hdisjoint
        exact hdisjoint.2
      · obtain ⟨errors, hrun⟩ := (hexact 0 0).2 hnot
        rw [addRange_accepts hpos herror] at hrun
        cases hrun
    · have hwrong : payloadError P d lo size ≠ none := herror ▸ Option.some_ne_none c
      have hnone := mt (payloadError_eq_none_iff hpos).mpr hwrong
      simp only [overlapTest_iff] at hnone
      by_contra htell
      simp only [EndsTell, not_or, not_not] at htell
      obtain ⟨haligned, hheap, hends, -⟩ := htell
      exact hnone ⟨haligned, hheap, fun r hr hmeet => hends ⟨r, hr, hmeet⟩⟩
  · intro htell tracenum opnum
    constructor
    · intro hfit
      exact addRange_accepts hpos (hfit.payloadError hsep hpos)
    · intro hnot
      rcases herror : payloadError P d lo size with _ | c
      · have hinside := inside_of_endsTell hpos htell herror
        exact absurd (recordable_of_none hsep hpos herror hinside) hnot
      · exact ⟨_, addRange_rejects hpos herror⟩

section Runs

/-- States that calls of `add_range` and `remove_range` lead to from an empty list;
the heap changes as it likes between the calls. -/
inductive RangeRun (P : Package σ) (admits : Driver σ τ → Nat → BitVec 32 → Prop) :
    Driver σ τ → Prop where
  | empty {d : Driver σ τ} (hempty : d.ranges = []) : RangeRun P admits d
  | add {d d' : Driver σ τ} {lo tracenum opnum : Nat} {size : BitVec 32} {b : Bool}
      (hrun : RangeRun P admits d) (hadmits : admits d lo size)
      (hstep : (addRange P lo size tracenum opnum).run d = .ok (b, d')) : RangeRun P admits d'
  | remove {d d' : Driver σ τ} {lo : Nat} (hrun : RangeRun P admits d)
      (hstep : (removeRange lo).run d = .ok ((), d')) : RangeRun P admits d'
  | heap {d : Driver σ τ} (s : σ) (hrun : RangeRun P admits d) :
      RangeRun P admits { d with heap := s }

theorem Separate.cons {ranges : List Range} {r : Range} (hsep : Separate ranges)
    (hr : r.lo ≤ r.hi) (hfresh : ∀ s ∈ ranges, Disjoint (bytesOf r) (bytesOf s)) :
    Separate (r :: ranges) where
  nonempty := List.forall_mem_cons.mpr ⟨hr, hsep.nonempty⟩
  disjoint := List.pairwise_cons.mpr ⟨hfresh, hsep.disjoint⟩

theorem Separate.sublist {ranges ranges' : List Range} (hsep : Separate ranges)
    (hsub : ranges'.Sublist ranges) : Separate ranges' where
  nonempty r hr := hsep.nonempty r (hsub.subset hr)
  disjoint := hsep.disjoint.sublist hsub

theorem RangeRun.separate
    (hrun : RangeRun P (fun d lo size => 0 < size.toInt → EndsTell P d lo size) d) :
    Separate d.ranges := by
  induction hrun with
  | empty hempty =>
      rw [hempty]
      exact ⟨by simp, .nil⟩
  | @add d d' lo tracenum opnum size b hrun htell hstep ih =>
      rcases Decidable.em (size = 0) with rfl | hsize
      · rw [addRange_zero] at hstep
        cases hstep
        exact ih
      · obtain ⟨hpos, hcases⟩ := addRange_cases hsize hstep
        rcases hcases with ⟨hfine, -, rfl⟩ | ⟨c, -, -, rfl⟩
        · have hinside := inside_of_endsTell hpos (htell hpos) hfine
          have hfit := recordable_of_none ih hpos hfine hinside
          exact ih.cons (payloadRange_nonempty hpos lo) hfit.fresh
        · exact ih
  | remove hrun hstep ih =>
      cases hstep
      exact ih.sublist List.eraseP_sublist
  | heap s hrun ih => exact ih

end Runs

/-- The detector is exact exactly where the ends of a payload tell, and runs in which
they always do keep the records disjoint. -/
theorem add_range_exact_iff (P : Package σ) :
    (∀ (d : Driver σ τ) (lo : Nat) (size : BitVec 32), Separate d.ranges → 0 < size.toInt →
      (DetectsExactly P d lo size ↔ EndsTell P d lo size)) ∧
    ∀ d : Driver σ τ,
      RangeRun P (fun d lo size => 0 < size.toInt → EndsTell P d lo size) d →
        Separate d.ranges :=
  ⟨fun _ _ _ hsep hpos => detectsExactly_iff hsep hpos, fun _ hrun => hrun.separate⟩

section Sample

/-- A heap of 128 bytes, and a list of records. -/
def sampleDriver (ranges : List Range) : Driver Heap Unit where
  heap := { memInit sampleArena (fun _ => 0) with memBrk := 4224 }
  ranges := ranges
  errors := []
  issued := []
  table := ()

theorem sample_separate : Separate (sampleDriver [⟨4128, 4135⟩]).ranges where
  nonempty := by decide
  disjoint := List.pairwise_singleton _ _

theorem add_range_exact_iff_sample : DetectsExactly mmPackage (sampleDriver [⟨4128, 4135⟩]) 4136 24 := by
  refine ((add_range_exact_iff mmPackage).1 _ 4136 24 sample_separate (by decide)).mpr ?_
  refine .inr (.inr (.inr fun r hr => ?_))
  obtain rfl := List.mem_singleton.mp hr
  decide

/-- A record strictly inside the new payload goes unnoticed. -/
theorem add_range_misses_enclosed :
    (addRange mmPackage 4128 8 0 0).run (sampleDriver []) =
        .ok (true, sampleDriver [⟨4128, 4135⟩]) ∧
      (addRange mmPackage 4120 24 0 1).run (sampleDriver [⟨4128, 4135⟩]) =
        .ok (true, sampleDriver [⟨4120, 4143⟩, ⟨4128, 4135⟩]) ∧
      ¬ DetectsExactly mmPackage (sampleDriver [⟨4128, 4135⟩]) 4120 24 ∧
      ¬ Separate (sampleDriver [⟨4120, 4143⟩, ⟨4128, 4135⟩]).ranges := by
  have hmeet : ¬ Disjoint (bytesOf ⟨4120, 4143⟩) (bytesOf ⟨4128, 4135⟩) := by
    rw [disjoint_iff (by decide) (by decide)]
    decide
  have hmissed : ∀ tracenum opnum,
      (addRange mmPackage 4120 24 tracenum opnum).run (sampleDriver [⟨4128, 4135⟩]) =
        .ok (true, sampleDriver [⟨4120, 4143⟩, ⟨4128, 4135⟩]) :=
    fun _ _ => addRange_accepts (by decide) (by decide)
  refine ⟨addRange_accepts (by decide) (by decide), hmissed 0 1, fun hexact => ?_, fun hsep => ?_⟩
  · have hnot : ¬ Recordable mmPackage (sampleDriver [⟨4128, 4135⟩]) 4120 24 :=
      fun hfit => hmeet (hfit.fresh _ List.mem_cons_self)
    obtain ⟨errors, hrun⟩ := (hexact 0 1).2 hnot
    rw [hmissed] at hrun
    cases hrun
  · exact hmeet ((List.pairwise_cons.mp hsep.disjoint).1 _ List.mem_cons_self)

end Sample

end MallocLab.OverlapDetection
