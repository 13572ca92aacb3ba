import MallocLab.LiveBlocks
import MallocLab.BalancedTraces

/-!
The heap after a balanced trace.  While `eval_mm_valid` runs a consistent trace, the allocated
blocks are those of the ids that are outstanding; when none is any more, the heap is one free
block again.
-/

namespace MallocLab.BalancedHeaps

open MallocLab.Machine
open MallocLab.HeapPrograms
open MallocLab.AbstractLayout
open MallocLab.Representation
open MallocLab.Traversal
open MallocLab.Runs
open MallocLab.LiveBlocks
open MallocLab.MallocPackage
open MallocLab.Mdriver
open MallocLab.DriverPrograms
open MallocLab.TraceSteps
open MallocLab.Replays
open MallocLab.TraceGrammar
open MallocLab.MdriverMain
open MallocLab.TraceReports
open MallocLab.BalancedTraces

section Layouts

variable {h s s' : Heap} {live : Live} {L : Layout} {c : Call} {q : Nat} {size : BitVec 32}

/-- The allocated blocks are those of the live pointers. -/
def ExactlyLive (h : Heap) (live : Live) : Prop :=
  ∃ L, Invariant ⟨h, live⟩ L ∧ NoOrphan L.allocated live

theorem ExactlyLive.call (hE : ExactlyLive h live) (hlegal : c.Legal live) (hint : c.IntSized)
    (hptr : ∀ size, c ≠ .realloc null size) (hcall : (mmPackage.exec c).run h = .ok (q, s)) :
    ExactlyLive s (liveAfter live c q) := by
  obtain ⟨L, hI, hN⟩ := hE
  obtain ⟨s', -, hS, rfl⟩ := (SameLayout.mk hI hI).call hlegal hint hcall
  exact ⟨_, hS.left, noOrphan_exec hI hlegal hN fun size heq => absurd heq (hptr size)⟩

theorem ExactlyLive.fill (hE : ExactlyLive s live) (hlive : (q, size.signExtend 64) ∈ live)
    (hpos : 0 < size.toInt) {b : BitVec 8}
    (hfill : (mmPackage.memset q b (size.signExtend 64).toNat).run s = .ok ((), s')) :
    ExactlyLive s' live := by
  obtain ⟨L, hI, hN⟩ := hE
  obtain ⟨s₂, -, hS⟩ := (SameLayout.mk hI hI).fill hlive hpos hfill
  exact ⟨L, hS.left, hN⟩

end Layouts

section Requests

variable {d d' : Driver Heap Payloads} {held : Finset Nat} {l : Line} {ls : List Line}
  {tracenum i : Nat}

/-- The live pointers are those of the ids that are outstanding. -/
structure Settles (d : Driver Heap Payloads) (held : Finset Nat) : Prop where
  exact : ExactlyLive d.heap (liveOf d.issued)
  remembers : Remembers d.table (liveOf d.issued) held
  names : ∀ e ∈ liveOf d.issued, ∃ i ∈ held, d.table.blocks i = e.1

theorem Settles.lockstep (hS : Settles d held) : Lockstep d d held := by
  obtain ⟨L, hI, -⟩ := hS.exact
  exact ⟨⟨L, hI, hI⟩, rfl, hS.remembers, fun i hi => rfl⟩

theorem Settles.after (hS : Settles d held) (hl : Allowed held l) (hasks : Asks l)
    (hdone : Processed mmPackage d (requestOfLine l) d')
    (hexact : ExactlyLive d'.heap (liveOf d'.issued))
    (hnames : ∀ e ∈ liveOf d'.issued, ∃ i ∈ outstandingAfter held l, d'.table.blocks i = e.1) :
    Settles d' (outstandingAfter held l) := by
  refine ⟨hexact, ?_, hnames⟩
  obtain ⟨L, hI, -⟩ := hexact
  rw [← holdingAfter_requestOfLine hasks]
  exact hS.lockstep.remembers_processed (uses_of_allowed hl) hdone hI.owned.nodup

variable {index : Nat} {size : BitVec 32}

theorem Settles.alloc (hS : Settles d held) (hindex : index ∉ held) (hne : size ≠ 0)
    (hdone : Processed mmPackage d (.alloc index size) d') :
    ExactlyLive d'.heap (liveOf d'.issued) ∧
      ∀ e ∈ liveOf d'.issued, ∃ i ∈ insert index held, d'.table.blocks i = e.1 := by
  cases hdone with
  | nothing hzero hcall => exact absurd hzero hne
  | @alloc _ q _ s s' hcall hq hpos hfine hfill =>
      have hlive : liveOf (issue d s index (.malloc (size.signExtend 64)) q).issued =
          (q, size.signExtend 64) :: liveOf d.issued := by
        rw [liveOf_issue, liveAfter, if_neg hq]
      have hcalled := hS.exact.call (c := .malloc (size.signExtend 64)) trivial
        (intSized_callOf d.table (.alloc index size)) (fun _ heq => Call.noConfusion heq) hcall
      rw [liveAfter, if_neg hq] at hcalled
      have hfilled := hcalled.fill List.mem_cons_self hpos hfill
      constructor
      · change ExactlyLive s' (liveOf (issue d s index (.malloc (size.signExtend 64)) q).issued)
        rw [hlive]
        exact hfilled
      · change ∀ e ∈ liveOf (issue d s index (.malloc (size.signExtend 64)) q).issued,
          ∃ i ∈ insert index held, Function.update d.table.blocks index q i = e.1
        rw [hlive]
        refine List.forall_mem_cons.mpr ⟨⟨index, Finset.mem_insert_self .., ?_⟩, fun e he => ?_⟩
        · exact Function.update_self ..
        · obtain ⟨i, hi, hblock⟩ := hS.names e he
          refine ⟨i, Finset.mem_insert_of_mem hi, ?_⟩
          rw [Function.update_of_ne (ne_of_mem_of_not_mem hi hindex), hblock]

theorem Settles.realloc (hS : Settles d held) (hindex : index ∈ held) (hne : size ≠ 0)
    (hdone : Processed mmPackage d (.realloc index size) d') :
    ExactlyLive d'.heap (liveOf d'.issued) ∧
      ∀ e ∈ liveOf d'.issued, ∃ i ∈ held, d'.table.blocks i = e.1 := by
  have hblock := hS.lockstep.block_ne_null hindex
  cases hdone with
  | nothing hzero hcall => exact absurd hzero hne
  | @realloc _ q _ s s' hcall hq hpos hfine hfill =>
      have hafter : liveAfter (liveOf d.issued)
          (.realloc (d.table.blocks index) (size.signExtend 64)) q =
            (q, size.signExtend 64) ::
              (liveOf d.issued).filter fun x => x.1 ≠ d.table.blocks index := by
        rw [liveAfter, if_neg hblock, if_neg (signExtend_ne_zero hpos), if_neg hq]
      have hlive : liveOf (issue d s index
          (.realloc (d.table.blocks index) (size.signExtend 64)) q).issued = _ :=
        (liveOf_issue ..).trans hafter
      have hlegal : (callOf d.table (.realloc index size)).Legal (liveOf d.issued) :=
        hS.remembers.legal hindex
      have hcalled := hS.exact.call hlegal (intSized_callOf d.table (.realloc index size))
        (fun _ heq => hblock (Call.realloc.inj heq).1) hcall
      rw [callOf, hafter] at hcalled
      have hfilled := hcalled.fill List.mem_cons_self hpos hfill
      constructor
      · change ExactlyLive s' (liveOf (issue d s index
          (.realloc (d.table.blocks index) (size.signExtend 64)) q).issued)
        rw [hlive]
        exact hfilled
      · change ∀ e ∈ liveOf (issue d s index
          (.realloc (d.table.blocks index) (size.signExtend 64)) q).issued,
            ∃ i ∈ held, Function.update d.table.blocks index q i = e.1
        rw [hlive]
        refine List.forall_mem_cons.mpr ⟨⟨index, hindex, Function.update_self ..⟩, fun e he => ?_⟩
        obtain ⟨he, hother⟩ := List.mem_filter.mp he
        obtain ⟨i, hi, heq⟩ := hS.names e he
        refine ⟨i, hi, ?_⟩
        have hne : i ≠ index := by
          rintro rfl
          exact of_decide_eq_true hother heq.symm
        rw [Function.update_of_ne hne, heq]

theorem Settles.free (hS : Settles d held) (hindex : index ∈ held)
    (hdone : Processed mmPackage d (.free index) d') :
    ExactlyLive d'.heap (liveOf d'.issued) ∧
      ∀ e ∈ liveOf d'.issued, ∃ i ∈ held.erase index, d'.table.blocks i = e.1 := by
  cases hdone with
  | nothing hzero hcall => exact hzero.elim
  | @free _ q s hcall =>
      have hlive : liveOf (issue (drop d (d.table.blocks index)) s index
          (.free (d.table.blocks index)) q).issued =
            (liveOf d.issued).filter fun x => x.1 ≠ d.table.blocks index := liveOf_issue ..
      have hlegal : (callOf d.table (.free index)).Legal (liveOf d.issued) :=
        hS.remembers.legal hindex
      constructor
      · rw [hlive]
        exact hS.exact.call hlegal trivial (fun _ heq => Call.noConfusion heq) hcall
      · rw [hlive]
        intro e he
        obtain ⟨he, hother⟩ := List.mem_filter.mp he
        obtain ⟨i, hi, heq⟩ := hS.names e he
        refine ⟨i, Finset.mem_erase.mpr ⟨?_, hi⟩, heq⟩
        rintro rfl
        exact of_decide_eq_true hother heq.symm

theorem Settles.processed (hS : Settles d held) (hl : Allowed held l) (hasks : Asks l)
    (hdone : Processed mmPackage d (requestOfLine l) d') :
    Settles d' (outstandingAfter held l) := by
  cases l with
  | alloc id bytes =>
      obtain ⟨hexact, hnames⟩ := hS.alloc hl hasks.not_zeroSized hdone
      exact hS.after hl hasks hdone hexact hnames
  | realloc id bytes =>
      obtain ⟨hexact, hnames⟩ := hS.realloc hl hasks.not_zeroSized hdone
      exact hS.after hl hasks hdone hexact hnames
  | free id =>
      obtain ⟨hexact, hnames⟩ := hS.free hl hdone
      exact hS.after hl hasks hdone hexact hnames

theorem Settles.requests (hS : Settles d held) (hls : Consistent held ls)
    (hasks : ∀ l ∈ ls, Asks l)
    (hrun : (validRequests mmPackage tracenum i (ls.map requestOfLine)).run d = .ok (true, d')) :
    Settles d' (outstanding held ls) := by
  induction ls generalizing d held i with
  | nil =>
      cases hrun
      exact hS
  | cons l ls ih =>
      obtain ⟨hl, hasks'⟩ := List.forall_mem_cons.mp hasks
      obtain ⟨b, d₁, hfirst, hrest⟩ := run_bind_eq_ok hrun
      rcases b with _ | _
      · cases hrest
      · exact ih (hS.processed hls.1 hl (validRequest_true hfirst)) hls.2 hasks' hrest

end Requests

section Balanced

variable {d d' : Driver Heap Payloads} {ls : List Line} {tracenum : Nat}

theorem settles_started (d : Driver Heap Payloads) {h : Heap} {start : Nat}
    (hI : Invariant ⟨h, []⟩ (HeapGrowth.emptyLayout start)) : Settles (started d h) ∅ where
  exact := ⟨_, hI, fun _ hb => absurd hb.1 List.not_mem_nil⟩
  remembers := Remembers.empty _
  names _ he := absurd he List.not_mem_nil

theorem live_of_balanced (hls : Consistent ∅ ls) (hasks : ∀ l ∈ ls, Asks l)
    (hnone : outstanding ∅ ls = ∅)
    (hrun : (evalMmValid mmPackage tracenum (ls.map requestOfLine)).run d = .ok (true, d')) :
    ExactlyLive d'.heap [] ∧ liveOf d'.issued = [] := by
  obtain ⟨h, hI, hvalid, -⟩ := mm_started d
  rw [hvalid] at hrun
  have hS := (settles_started d hI).requests hls hasks hrun
  rw [hnone] at hS
  have hlive : liveOf d'.issued = [] := by
    refine List.eq_nil_iff_forall_not_mem.mpr fun e he => ?_
    obtain ⟨i, hi, -⟩ := hS.names e he
    exact Finset.notMem_empty i hi
  exact ⟨hlive ▸ hS.exact, hlive⟩

theorem compact_of_exactlyLive {h : Heap} (hE : ExactlyLive h []) :
    ∃ entries, heapBlocks.run h = .ok (entries, h) ∧ Compact h entries := by
  obtain ⟨L, hI, hN⟩ := hE
  refine ⟨L.all.map entry, heapBlocks_run hI.represents, compact hI.represents fun b hb => ?_⟩
  cases halloc : b.alloc with
  | false => rfl
  | true =>
      obtain ⟨size, hmem⟩ := hN b ⟨hb, halloc⟩
      cases hmem

/-- When `eval_mm_valid` lets a consistent trace pass in which everything is freed in the end,
nothing is left allocated: between prologue and epilogue there is nothing, or one free block. -/
theorem balanced_heap_compact (hls : Consistent ∅ ls) (hasks : ∀ l ∈ ls, Asks l)
    (hnone : outstanding ∅ ls = ∅)
    (hrun : (evalMmValid mmPackage tracenum (ls.map requestOfLine)).run d = .ok (true, d')) :
    ∃ entries, heapBlocks.run d'.heap = .ok (entries, d'.heap) ∧ Compact d'.heap entries ∧
      liveOf d'.issued = [] := by
  obtain ⟨hE, hlive⟩ := live_of_balanced hls hasks hnone hrun
  obtain ⟨entries, hwalk, hcompact⟩ := compact_of_exactlyLive hE
  exact ⟨entries, hwalk, hcompact, hlive⟩

def sampleBalanced : List Line :=
  [.alloc 0 24, .alloc 3 300, .realloc 0 41, .free 3, .alloc 3 7, .free 0, .free 3]

/-- On a heap and tables that hold anything. -/
theorem balanced_heap_compact_sample : ∃ d' entries,
    (evalMmValid mmPackage 4 (sampleBalanced.map requestOfLine)).run sampleTraceDriver =
      .ok (true, d') ∧ heapBlocks.run d'.heap = .ok (entries, d'.heap) ∧
      Compact d'.heap entries := by
  obtain ⟨d', hrun, -⟩ := valid_run (d := sampleTraceDriver) ⟨rfl, rfl⟩
    (by decide : UsesHeld ∅ (sampleBalanced.map requestOfLine)) (by decide)
    (fun index => by simp [sampleBalanced, requestOfLine]) 4
  obtain ⟨entries, hwalk, hcompact, -⟩ := balanced_heap_compact (by decide) (by decide) (by decide) hrun
  exact ⟨d', entries, hrun, hwalk, hcompact⟩

end Balanced

end MallocLab.BalancedHeaps
