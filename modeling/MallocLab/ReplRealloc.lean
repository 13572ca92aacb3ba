import MallocLab.ReplCommands

/-!
`realloc` keeps the invariant of the REPL if its pointer is `NULL`, if `mm_realloc` has no room,
and if the payload of its own index passes the data check or keeps its size.
-/

namespace MallocLab.ReplRealloc

open MallocLab.Machine
open MallocLab.Mminline
open MallocLab.Mm
open MallocLab.HeapPrograms
open MallocLab.AbstractLayout
open MallocLab.AbstractLayout.Layout
open MallocLab.Representation
open MallocLab.Reallocation
open MallocLab.RequestArithmetic
open MallocLab.Runs
open MallocLab.Failure
open MallocLab.RequestSizes
open MallocLab.DataPreservation
open MallocLab.MallocPackage
open MallocLab.Mdriver
open MallocLab.DriverPrograms
open MallocLab.DataCheck
open MallocLab.AllocatorContract
open MallocLab.TraceSteps
open MallocLab.TraceBookkeeping
open MallocLab.Repl
open MallocLab.ReplHoldings
open MallocLab.ReplInvariant

section Outcomes

variable {h s : Heap} {live : Live} {L : Layout} {b : Block} {ptr q : Nat} {m size : Word}

theorem reallocBlock_eq_null_iff (hR : Represents h L) (hb : b ∈ L.allocated) :
    (L.reallocBlock b size).2 = null ↔ NoRoom h (payload b.addr) size := by
  rw [NoRoom]
  rcases Classical.em (FitsInPlace h (payload b.addr) size) with hplace | hnot
  · have hne := (WellFormed.reallocBlock_in_place ((fitsInPlace_iff hR hb).mp hplace)).1
    exact iff_of_false hne fun hroom => hroom.1 hplace
  · rw [and_iff_right hnot]
    rw [fitsInPlace_iff hR hb, not_or, Option.not_isSome_iff_eq_none] at hnot
    obtain ⟨hlarge, hgrow⟩ := hnot
    have hzero : align size + tagsSize ≠ 0 := by
      intro hzero
      rw [hzero] at hlarge
      exact hlarge (Int.natCast_nonneg _)
    rw [exhausted_iff hR hzero]
    simp only [Layout.reallocBlock, if_neg hlarge, hgrow]
    split
    · exact iff_of_true rfl ‹_›
    · rfl

/-- `mm_realloc` fails exactly where it has no room. -/
theorem realloc_eq_null_iff (hI : Invariant ⟨h, live⟩ L) (hlive : (ptr, m) ∈ live)
    (hint : IsInt size) (hsize : size ≠ 0) (hrun : (mmRealloc ptr size).run h = .ok (q, s)) :
    q = null ↔ NoRoom h ptr size := by
  obtain ⟨b, hb, rfl, -⟩ := hI.block_of_live hlive
  obtain ⟨h', hrun', -⟩ := mmRealloc_run hI.represents hb hsize (reallocServes_of_lt hint.2).1
  obtain rfl := (Prod.mk.inj (Except.ok.inj (hrun'.symm.trans hrun))).1
  exact reallocBlock_eq_null_iff hI.represents hb

/-- A payload that keeps its size stays where it is. -/
theorem realloc_in_place (hI : Invariant ⟨h, live⟩ L) (hlive : (ptr, size) ∈ live)
    (hint : IsInt size) (hsize : size ≠ 0) (hrun : (mmRealloc ptr size).run h = .ok (q, s)) :
    q = ptr ∧ s = h := by
  obtain ⟨b, hb, rfl, hlarge⟩ := hI.block_of_live hlive
  have hall := WellFormed.mem_all_of_mem hb.1
  have haligned := (hI.represents.tagged hall).aligned
  have hlt := hint.2
  have hfits : (align size + tagsSize).toInt ≤ b.size := by
    rw [toInt_align_add (by omega), rounded]
    omega
  have hstays := mmRealloc_run_fits hI.represents hall hsize hfits
  obtain ⟨rfl, rfl⟩ := Prod.mk.inj (Except.ok.inj (hstays.symm.trans hrun))
  exact ⟨rfl, rfl⟩

/-- The data of the old payload is at the start of the new one. -/
theorem realloc_carries_data (hI : Invariant ⟨h, live⟩ L) (hlive : (ptr, m) ∈ live)
    (hint : IsInt size) (hsize : size ≠ 0) (hrun : (mmRealloc ptr size).run h = .ok (q, s))
    (hq : q ≠ null) {k : Nat} (hk : (k : Int) < m.toInt) :
    s.memory (q + k) = h.memory (ptr + k) := by
  obtain ⟨b, hb, rfl, hlarge, L', u, -, -, rfl, hcarried⟩ :=
    mmRealloc_carries hI hlive hint hsize hrun hq
  apply hcarried.kept
  omega

end Outcomes

section Runs

variable {d : Driver Heap ReplState} {index : Int} {i ptr q : Nat} {size : BitVec 32}
  {s s' : Heap} {b : Bool}

theorem remallocCmd_nothing (hindex : indexInTable index = some i)
    (hptr : (d.table.blocks i).ptr = ptr)
    (hcall : (mmPackage.exec (.realloc ptr (size.signExtend 64))).run d.heap = .ok (null, s)) :
    ∃ d', (remallocCmd mmPackage index size).run d = .ok ([], d') ∧
      Leaves d' s d.ranges (d.issued ++ [⟨i, .realloc ptr (size.signExtend 64), null⟩])
        d.table.blocks := by
  obtain rfl := hptr
  have hcall' := callMm_run i hcall
  rw [remallocCmd, hindex]
  dsimp only
  rw [run_bind_of_ok (getReplBlock_run i d), run_bind_of_ok hcall']
  rcases Decidable.em (size = 0) with rfl | hsize
  · rw [if_neg (fun hfail => hfail.2 rfl), if_pos rfl]
    exact ⟨_, rfl, rfl, rfl, rfl, rfl⟩
  · rw [if_pos ⟨rfl, hsize⟩, run_bind_of_ok (replError_run _ _)]
    exact ⟨_, rfl, rfl, rfl, rfl, rfl⟩

/-- The driver after `mm_realloc` and the removal of the old record. -/
def moving (d : Driver Heap ReplState) (s : Heap) (i ptr : Nat) (size : BitVec 32) (q : Nat) :
    Driver Heap ReplState :=
  drop (issue d s i (.realloc ptr (size.signExtend 64)) q) ptr

/-- The new payload is recorded, and the rest depends on the data check. -/
theorem remallocCmd_checks (hindex : indexInTable index = some i)
    (hptr : (d.table.blocks i).ptr = ptr)
    (hcall : (mmPackage.exec (.realloc ptr (size.signExtend 64))).run d.heap = .ok (q, s))
    (hq : q ≠ null) (hpos : 0 < size.toInt)
    (hfine : payloadError mmPackage (moving d s i ptr size q) q size = none)
    (hdata : compareData mmPackage s q i (d.table.blocks i).size size = .ok b) :
    (remallocCmd mmPackage index size).run d =
      (if b then do
        fillRange mmPackage q i size
        setReplBlock i { d.table.blocks i with ptr := q, size := size.signExtend 64 }
        return []
      else do
        replError .notPreserved
        return [] : ReplM Heap (List Printed)).run (record (moving d s i ptr size q) q size) := by
  obtain rfl := hptr
  have hcall' := callMm_run i hcall
  have hcheck : (checkData mmPackage q i (d.table.blocks i).size size).run
      (record (moving d s i (d.table.blocks i).ptr size q) q size) = .ok (b, _) :=
    checkData_run hdata
  rw [remallocCmd, hindex]
  dsimp only
  rw [run_bind_of_ok (getReplBlock_run i d), run_bind_of_ok hcall', if_neg (fun hfail => hq hfail.1),
    if_neg (ne_zero_of_toInt_pos hpos), run_bind_of_ok (removeRange_run _ _)]
  change (addReplRange mmPackage q size >>= _).run (moving d s i (d.table.blocks i).ptr size q) = _
  rw [run_bind_of_ok (addReplRange_accepts hpos hfine), if_pos rfl, run_bind_of_ok hcheck]

theorem remallocCmd_stores (hindex : indexInTable index = some i)
    (hptr : (d.table.blocks i).ptr = ptr)
    (hcall : (mmPackage.exec (.realloc ptr (size.signExtend 64))).run d.heap = .ok (q, s))
    (hq : q ≠ null) (hpos : 0 < size.toInt)
    (hfine : payloadError mmPackage (moving d s i ptr size q) q size = none)
    (hdata : compareData mmPackage s q i (d.table.blocks i).size size = .ok true)
    (hfill : (mmPackage.memset q (fillByte i) (size.signExtend 64).toNat).run s = .ok ((), s')) :
    ∃ d', (remallocCmd mmPackage index size).run d = .ok ([], d') ∧
      Leaves d' s' (payloadRange q size :: d.ranges.eraseP fun r => r.lo = ptr)
        (d.issued ++ [⟨i, .realloc ptr (size.signExtend 64), q⟩])
        (Function.update d.table.blocks i
          { d.table.blocks i with ptr := q, size := size.signExtend 64 }) := by
  have hfill' := fillRange_run (d := record (moving d s i ptr size q) q size) hfill
  rw [remallocCmd_checks hindex hptr hcall hq hpos hfine hdata, if_pos rfl, run_bind_of_ok hfill',
    run_bind_of_ok (setReplBlock_run i _ _)]
  exact ⟨_, rfl, rfl, rfl, rfl, rfl⟩

theorem remallocCmd_stops (hindex : indexInTable index = some i)
    (hptr : (d.table.blocks i).ptr = ptr)
    (hcall : (mmPackage.exec (.realloc ptr (size.signExtend 64))).run d.heap = .ok (q, s))
    (hq : q ≠ null) (hpos : 0 < size.toInt)
    (hfine : payloadError mmPackage (moving d s i ptr size q) q size = none)
    (hdata : compareData mmPackage s q i (d.table.blocks i).size size = .ok false) :
    ∃ d', (remallocCmd mmPackage index size).run d = .ok ([], d') ∧
      Leaves d' s (payloadRange q size :: d.ranges.eraseP fun r => r.lo = ptr)
        (d.issued ++ [⟨i, .realloc ptr (size.signExtend 64), q⟩]) d.table.blocks := by
  rw [remallocCmd_checks hindex hptr hcall hq hpos hfine hdata, if_neg Bool.false_ne_true,
    run_bind_of_ok (replError_run _ _)]
  exact ⟨_, rfl, rfl, rfl, rfl, rfl⟩

end Runs

section Served

variable {d : Driver Heap ReplState} {index : Int} {i j ptr q : Nat} {size : BitVec 32} {s : Heap}

/-- What a call of `mm_realloc` for index `i` that moved the payload at `ptr` to `q` leaves for
the rest of the command. -/
structure Served (d : Driver Heap ReplState) (i ptr : Nat) (size : BitVec 32) (q : Nat)
    (s : Heap) : Prop where
  mm : MmInv s
    ((q, size.signExtend 64) :: (without (holdings d.issued) ptr).map Prod.snd)
  filled : ∀ x ∈ without (holdings d.issued) ptr, Filled s x
  ranges : (d.ranges.eraseP fun r => r.lo = ptr).Perm
    ((without (holdings d.issued) ptr).map fun x => rangeOf x.2)
  fine : payloadError mmPackage (moving d s i ptr size q) q size = none
  log : holdings (d.issued ++ [⟨i, .realloc ptr (size.signExtend 64), q⟩]) =
    (i, q, size.signExtend 64) :: without (holdings d.issued) ptr

theorem isInt_size (hsize : 0 ≤ size.toInt) : IsInt (size.signExtend 64) := by
  obtain ⟨hnonneg, hlt⟩ := nonNegative_size hsize
  exact ⟨le_trans (by decide) hnonneg, hlt⟩

/-- A call of `mm_realloc` with the pointer of a valid index. -/
theorem realloc_valid (hC : Inv d) (hj : j < numBlocks) (hvalid : (d.table.blocks j).isValid = true)
    (hptr : (d.table.blocks j).ptr = ptr) (hsize : 0 ≤ size.toInt) (hne : size ≠ 0) (i : Nat) :
    ∃ q s, (mmPackage.exec (.realloc ptr (size.signExtend 64))).run d.heap = .ok (q, s) ∧
      (q = null ↔ NoRoom d.heap ptr (size.signExtend 64)) ∧ (q = null → s = d.heap) ∧
      (q ≠ null → Served d i ptr size q s) := by
  subst hptr
  have hlive := hC.live hj hvalid
  have hlong : size.signExtend 64 ≠ 0 := mt signExtend_eq_zero_iff.mp hne
  have hnull := hC.ne_null hlive
  have hint := isInt_size hsize
  obtain ⟨q, s, hcall, hmm, -, hkeeps⟩ :=
    hC.call (c := .realloc (d.table.blocks j).ptr (size.signExtend 64)) i (.inr ⟨_, hlive⟩)
      (nonNegative_size hsize)
  obtain ⟨⟨L, hL⟩, -⟩ := hC.mm
  refine ⟨q, s, hcall, realloc_eq_null_iff hL hlive hint hlong hcall, ?_, fun hq => ?_⟩
  · rintro rfl
    exact realloc_null_same hL hlive hlong hcall
  · have hranges := ranges_without hC hj hvalid
    have hlog : holdings
        (d.issued ++ [⟨i, .realloc (d.table.blocks j).ptr (size.signExtend 64), q⟩]) =
        (i, q, size.signExtend 64) :: without (holdings d.issued) (d.table.blocks j).ptr := by
      rw [holdings_concat, holdingsAfter]
      simp only [if_neg hnull, if_neg hlong, if_neg hq]
    rw [hlog] at hmm
    have hmap : (d.ranges.eraseP fun r => r.lo = (d.table.blocks j).ptr).Perm
        (((without (holdings d.issued) (d.table.blocks j).ptr).map Prod.snd).map rangeOf) := by
      rw [List.map_map]
      exact hranges
    refine ⟨hmm, fun x hx => ?_, hranges, payload_fine mm_contract hmm hmap, hlog⟩
    obtain ⟨hmem, hother⟩ := mem_without.mp hx
    exact (hC.filled x hmem).keeps (hkeeps _ (List.mem_map_of_mem hmem) hother)

/-- The data check of a payload in its new place. -/
theorem compare_served (hC : Inv d) (hi : i < numBlocks)
    (hvalid : (d.table.blocks i).isValid = true) (hsize : 0 ≤ size.toInt)
    (hserved : Served d i ptr size q s) :
    ∃ oldsize : BitVec 32, (d.table.blocks i).size = oldsize.signExtend 64 ∧ 0 < oldsize.toInt ∧
      compareData mmPackage s q i (d.table.blocks i).size size =
        .ok (decide (∀ k < checkedBytes oldsize size, Passes i (s.memory (q + k)))) := by
  have hmem := hC.mem hi hvalid
  obtain ⟨oldsize, hold⟩ := hC.int _ hmem
  change (d.table.blocks i).size = oldsize.signExtend 64 at hold
  have hlarge := hC.mm.2 _ (hC.live hi hvalid)
  change 0 < (d.table.blocks i).size.toInt at hlarge
  rw [hold, BitVec.toInt_signExtend_of_le (by decide)] at hlarge
  have hextend : (size.signExtend 64).toInt = size.toInt :=
    BitVec.toInt_signExtend_of_le (by decide)
  have hle : (checkedBytes oldsize size : Int) ≤ (size.signExtend 64).toInt := by
    rw [hextend, checkedBytes]
    omega
  obtain ⟨⟨L, hL⟩, -⟩ := hserved.mm
  have hin := (payload_inHeap hL List.mem_cons_self hle).1
  refine ⟨oldsize, hold, hlarge, ?_⟩
  rw [hold, compareData_heap hin]

/-- The data of a filled payload passes the check if its byte is read back as it was written. -/
theorem check_passes (hC : Inv d) (hi : i < numBlocks)
    (hvalid : (d.table.blocks i).isValid = true) (hsize : 0 ≤ size.toInt) (hne : size ≠ 0)
    (hsmall : i &&& 0xFF < 128) (hserved : Served d i (d.table.blocks i).ptr size q s)
    (hcall : (mmPackage.exec (.realloc (d.table.blocks i).ptr (size.signExtend 64))).run d.heap =
      .ok (q, s)) (hq : q ≠ null) :
    compareData mmPackage s q i (d.table.blocks i).size size = .ok true := by
  have hmem := hC.mem hi hvalid
  have hlong : size.signExtend 64 ≠ 0 := mt signExtend_eq_zero_iff.mp hne
  obtain ⟨oldsize, hold, hpos, hdata⟩ := compare_served hC hi hvalid hsize hserved
  have hextend : (oldsize.signExtend 64).toInt = oldsize.toInt :=
    BitVec.toInt_signExtend_of_le (by decide)
  obtain ⟨⟨L, hL⟩, -⟩ := hC.mm
  have hall : ∀ k < checkedBytes oldsize size, Passes i (s.memory (q + k)) := by
    intro k hk
    have hlt : (k : Int) < (d.table.blocks i).size.toInt := by
      rw [hold, hextend]
      rw [checkedBytes] at hk
      omega
    have hbyte : d.heap.memory ((d.table.blocks i).ptr + k) = fillByte i := by
      apply hC.filled _ hmem
      constructor
      · exact Nat.le_add_right _ _
      · change (((d.table.blocks i).ptr + k : Nat) : Int) <
          (d.table.blocks i).ptr + (d.table.blocks i).size.toInt
        omega
    rw [passes_iff hsmall, realloc_carries_data hL (hC.live hi hvalid) (isInt_size hsize) hlong
      hcall hq hlt, hbyte]
  rw [hdata, decide_eq_true hall]

/-- A byte of 128 or more never passes it. -/
theorem check_fails (hC : Inv d) (hi : i < numBlocks)
    (hvalid : (d.table.blocks i).isValid = true) (hpos : 0 < size.toInt)
    (hlarge : ¬ i &&& 0xFF < 128) (hserved : Served d i ptr size q s) :
    compareData mmPackage s q i (d.table.blocks i).size size = .ok false := by
  obtain ⟨oldsize, -, holdpos, hdata⟩ := compare_served hC hi hvalid hpos.le hserved
  have hsome : 0 < checkedBytes oldsize size := by
    rw [checkedBytes]
    omega
  have hnot : ¬ ∀ k < checkedBytes oldsize size, Passes i (s.memory (q + k)) :=
    fun hall => not_passes (by omega) _ (hall 0 hsome)
  rw [hdata, decide_eq_false hnot]

end Served

section Keepings

variable {d : Driver Heap ReplState} {index : Int} {i q : Nat} {size : BitVec 32} {s : Heap}

/-- `mm_realloc(NULL, size)` returns `NULL`, and the command ends there. -/
theorem keeping_realloc_null (hC : Inv d) (hindex : indexInTable index = some i)
    (hsize : 0 ≤ size.toInt) (hnull : (d.table.blocks i).ptr = null) :
    Keeping d (.realloc index size) := by
  obtain ⟨q, s, hcall, hmm, -, hkeeps⟩ := hC.call (c := .realloc null (size.signExtend 64)) i
    (.inl rfl) (nonNegative_size hsize)
  obtain ⟨rfl, -⟩ := mmRealloc_null_eq_ok hcall
  obtain ⟨d', hrun, hleaves⟩ := remallocCmd_nothing hindex hnull hcall
  have hlog : holdings (d.issued ++ [⟨i, .realloc null (size.signExtend 64), null⟩]) =
      holdings d.issued := by
    rw [holdings_concat, holdingsAfter]
    simp only [if_pos]
  rw [hlog] at hmm
  refine keeping_of_call hrun (hleaves.inv ?_) hleaves.issued (.inl rfl)
  rw [hlog]
  exact hC.keep hmm fun r hr => hkeeps r hr (hC.ne_null hr)

/-- A call of `mm_realloc` that had no room. -/
theorem keeping_realloc_fails (hC : Inv d) (hindex : indexInTable index = some i)
    (hne : size ≠ 0) (hvalid : IsValidPtr d.table (d.table.blocks i).ptr)
    (hcall : (mmPackage.exec (.realloc (d.table.blocks i).ptr (size.signExtend 64))).run d.heap =
      .ok (null, d.heap)) : Keeping d (.realloc index size) := by
  obtain ⟨d', hrun, hleaves⟩ := remallocCmd_nothing hindex rfl hcall
  have hlong : size.signExtend 64 ≠ 0 := mt signExtend_eq_zero_iff.mp hne
  refine keeping_of_call hrun (hleaves.inv ?_) hleaves.issued (.inr hvalid)
  rw [holdings_concat, holdingsAfter]
  simp only [if_neg hlong, if_pos, ite_self]
  exact hC

/-- The payload is recorded, filled and stored under its index again. -/
theorem keeping_realloc_stores (hC : Inv d) (hindex : indexInTable index = some i)
    (hvalid : (d.table.blocks i).isValid = true) (hpos : 0 < size.toInt)
    (hserved : Served d i (d.table.blocks i).ptr size q s)
    (hcall : (mmPackage.exec (.realloc (d.table.blocks i).ptr (size.signExtend 64))).run d.heap =
      .ok (q, s)) (hq : q ≠ null)
    (hdata : compareData mmPackage s q i (d.table.blocks i).size size = .ok true) :
    Keeping d (.realloc index size) := by
  have hi := indexInTable_lt hindex
  obtain ⟨s', hfill, -⟩ :=
    mm_contract.memset _ _ hserved.mm (q, size.signExtend 64) List.mem_cons_self (fillByte i)
  obtain ⟨d', hrun, hleaves⟩ :=
    remallocCmd_stores hindex rfl hcall hq hpos hserved.fine hdata hfill
  refine keeping_of_call hrun (hleaves.inv ?_) hleaves.issued (.inr ⟨i, hi, hvalid, rfl⟩)
  rw [hserved.log]
  exact consistent_store hi (fun j p n => hC.mem_without_iff hi hvalid) hserved.ranges
    (fun x hx => hC.int x (mem_without.mp hx).1) hserved.filled hserved.mm hfill
    ⟨hi, hvalid, rfl, rfl⟩

/-- A payload that kept its size is reported, and nothing else changes. -/
theorem keeping_realloc_stops (hC : Inv d) (hindex : indexInTable index = some i)
    (hvalid : (d.table.blocks i).isValid = true) (hpos : 0 < size.toInt)
    (hsame : size.signExtend 64 = (d.table.blocks i).size)
    (hserved : Served d i (d.table.blocks i).ptr size (d.table.blocks i).ptr d.heap)
    (hcall : (mmPackage.exec (.realloc (d.table.blocks i).ptr (size.signExtend 64))).run d.heap =
      .ok ((d.table.blocks i).ptr, d.heap))
    (hdata : compareData mmPackage d.heap (d.table.blocks i).ptr i (d.table.blocks i).size size =
      .ok false) :
    Keeping d (.realloc index size) := by
  have hi := indexInTable_lt hindex
  have hmem := hC.mem hi hvalid
  have hnull := hC.ptr_ne_null hi hvalid
  obtain ⟨d', hrun, hleaves⟩ := remallocCmd_stops hindex rfl hcall hnull hpos hserved.fine hdata
  -- the payload is the only one at its address
  have hmembers : ∀ x, x ∈ (i, (d.table.blocks i).ptr, size.signExtend 64) ::
      without (holdings d.issued) (d.table.blocks i).ptr ↔ x ∈ holdings d.issued := by
    intro x
    rw [List.mem_cons, mem_without, hsame]
    constructor
    · rintro (rfl | ⟨hx, -⟩)
      · exact hmem
      · exact hx
    · intro hx
      rcases Decidable.em (x.2.1 = (d.table.blocks i).ptr) with heq | hne
      · exact .inl (hC.eq_of_ptr hx hmem heq)
      · exact .inr ⟨hx, hne⟩
  refine keeping_of_call hrun (hleaves.inv ?_) hleaves.issued (.inr ⟨i, hi, hvalid, rfl⟩)
  rw [hserved.log]
  constructor
  · exact hserved.mm
  · intro j p n
    rw [hmembers, hC.table]
  · rw [List.map_cons, rangeOf_signExtend hpos.le]
    exact hserved.ranges.cons _
  · exact fun x hx => hC.int x ((hmembers x).mp hx)
  · exact fun x hx => hC.filled x ((hmembers x).mp hx)

theorem keeping_realloc (hC : Inv d) (hsize : 0 ≤ size.toInt)
    (hcareful : ∀ i, indexInTable index = some i → CarefulRealloc d i (size.signExtend 64)) :
    Keeping d (.realloc index size) := by
  rcases hindex : indexInTable index with _ | i
  · apply keeping_of_same hC [.indexRange]
    rw [Command.handler, remallocCmd, hindex]
    rfl
  have hi := indexInTable_lt hindex
  rcases hcareful i hindex with hnull | ⟨hlong, hptr, hcase⟩
  · exact keeping_realloc_null hC hindex hsize hnull
  have hne : size ≠ 0 := mt signExtend_eq_zero_iff.mpr hlong
  have hpos := toInt_pos hsize hne
  obtain ⟨j, hj, hjvalid, hjptr⟩ := id hptr
  obtain ⟨q, s, hcall, hroom, hsame, hserved⟩ := realloc_valid hC hj hjvalid hjptr hsize hne i
  rcases Decidable.em (q = null) with rfl | hq
  · obtain rfl := hsame rfl
    exact keeping_realloc_fails hC hindex hne hptr hcall
  obtain ⟨hvalid, hpasses⟩ := hcase.resolve_left (mt hroom.mpr hq)
  obtain ⟨b, hdata⟩ := compareData_live mm_contract (hserved hq).mm i (d.table.blocks i).size
  rcases b with _ | _
  · rcases hpasses with hsmall | hkeeps
    · have htrue := check_passes hC hi hvalid hsize hne hsmall (hserved hq) hcall hq
      rw [hdata] at htrue
      cases htrue
    · obtain ⟨⟨L, hL⟩, -⟩ := hC.mm
      have hlive := hC.live hi hvalid
      rw [← hkeeps] at hlive
      obtain ⟨rfl, rfl⟩ := realloc_in_place hL hlive (isInt_size hsize) hlong hcall
      exact keeping_realloc_stops hC hindex hvalid hpos hkeeps (hserved hq) hcall hdata
  · exact keeping_realloc_stores hC hindex hvalid hpos (hserved hq) hcall hq hdata

end Keepings

end MallocLab.ReplRealloc
