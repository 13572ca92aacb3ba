import MallocLab.ReplHoldings
import MallocLab.RequestSizes

/-!
The invariant of the REPL, and the commands that keep it.
-/

namespace MallocLab.ReplInvariant

open MallocLab.Machine
open MallocLab.Mm
open MallocLab.HeapPrograms
open MallocLab.Traversal
open MallocLab.Runs
open MallocLab.Failure
open MallocLab.RequestSizes
open MallocLab.DataPreservation
open MallocLab.MallocPackage
open MallocLab.Mdriver
open MallocLab.DriverPrograms
open MallocLab.AllocatorContract
open MallocLab.TraceSteps
open MallocLab.TraceBookkeeping
open MallocLab.Repl
open MallocLab.ReplHoldings

section Statement

/-- Index `i` obtained `p`, and nothing released it since. -/
def Obtained (issued : List Issued) (i p : Nat) : Prop := ∃ n, (i, p, n) ∈ holdings issued

def validIndices (t : ReplState) : List Nat :=
  (List.range numBlocks).filter fun i => (t.blocks i).isValid

/-- One record for each valid index. -/
def validRanges (t : ReplState) : List Range :=
  (validIndices t).map fun i => rangeOf ((t.blocks i).ptr, (t.blocks i).size)

/-- The table, the records, the payloads obtained and the heap agree. -/
structure TableSound (d : Driver Heap ReplState) : Prop where
  valid_iff : ∀ i < numBlocks, (d.table.blocks i).isValid = true ↔
    Obtained d.issued i (d.table.blocks i).ptr ∧
      ∃ e, IsAllocated d.heap e ∧ e.addr + 8 = (d.table.blocks i).ptr
  distinct : ∀ i < numBlocks, ∀ j < numBlocks, (d.table.blocks i).isValid = true →
    (d.table.blocks j).isValid = true → (d.table.blocks i).ptr = (d.table.blocks j).ptr → i = j
  ranges : d.ranges.Perm (validRanges d.table)

/-- `p` is the pointer of a valid index. -/
def IsValidPtr (t : ReplState) (p : Nat) : Prop :=
  ∃ i < numBlocks, (t.blocks i).isValid = true ∧ (t.blocks i).ptr = p

/-- A call with `NULL` or the pointer of a valid index. -/
def PassesValid (t : ReplState) : Call → Prop
  | .malloc _ => True
  | .free ptr => ptr = null ∨ IsValidPtr t ptr
  | .realloc ptr _ => ptr = null ∨ IsValidPtr t ptr

/-- The calls made between two states. -/
def newCalls (d d' : Driver Heap ReplState) : List Issued := d'.issued.drop d.issued.length

/-- The command returns to a sound state, and passes only `NULL` and valid pointers. -/
def StepSound (d : Driver Heap ReplState) (cmd : Command) : Prop :=
  ∃ out d', cmd.handler.run d = .ok (out, d') ∧ TableSound d' ∧
    ∀ e ∈ newCalls d d', PassesValid d.table e.call

/-- No size is negative. -/
def InDomain : Command → Prop
  | .malloc _ size => 0 ≤ size.toInt
  | .realloc _ size => 0 ≤ size.toInt
  | .free _ => True
  | .reset => True
  | .print _ => True

/-- `mm_realloc` has no room for the request. -/
def NoRoom (h : Heap) (ptr : Nat) (size : Word) : Prop :=
  ¬ FitsInPlace h ptr size ∧ Exhausted h (align size + tagsSize)

/-- The pointer of index `i` is `NULL`; or it is a valid one, the size is not zero, and either
`mm_realloc` has no room, or the index is valid and its data or its size passes the check. -/
def CarefulRealloc (d : Driver Heap ReplState) (i : Nat) (size : Word) : Prop :=
  let b := d.table.blocks i
  b.ptr = null ∨ size ≠ 0 ∧ IsValidPtr d.table b.ptr ∧
    (NoRoom d.heap b.ptr size ∨ b.isValid = true ∧ (i &&& 0xFF < 128 ∨ size = b.size))

/-- A reset with no valid index, or another command whose 'realloc' is a careful one. -/
def Careful (d : Driver Heap ReplState) : Command → Prop
  | .malloc _ _ => True
  | .realloc index size => ∀ i, indexInTable index = some i → CarefulRealloc d i (size.signExtend 64)
  | .free _ => True
  | .reset => ∀ i < numBlocks, (d.table.blocks i).isValid = false
  | .print _ => True

/-- The states that `driver` reaches by careful commands. -/
inductive Reached : Driver Heap ReplState → Prop where
  | start {arena : Arena} {stale : ByteMemory.Memory} {out : List Printed}
      {d : Driver Heap ReplState}
      (hrun : (resetCmd mmPackage).run (replStart arena stale) = .ok (out, d)) : Reached d
  | step {d d' : Driver Heap ReplState} {cmd : Command} {out : List Printed}
      (hreach : Reached d) (hdomain : InDomain cmd) (hcareful : Careful d cmd)
      (hrun : cmd.handler.run d = .ok (out, d')) : Reached d'

end Statement

section Programs

variable {d : Driver Heap ReplState} {i : Nat}

theorem indexInTable_lt {index : Int} (hi : indexInTable index = some i) : i < numBlocks := by
  rw [indexInTable] at hi
  split at hi
  · cases hi
  · cases hi
    omega

/-- The driver with one more operation counted. -/
def counted (d : Driver Heap ReplState) : Driver Heap ReplState :=
  { d with table := { d.table with numOps := d.table.numOps + 1 } }

/-- The driver with an entry of its table replaced. -/
def stored (d : Driver Heap ReplState) (i : Nat) (b : ReplBlock) : Driver Heap ReplState :=
  { d with table := { d.table with blocks := Function.update d.table.blocks i b } }

@[simp] theorem getReplBlock_run (i : Nat) (d : Driver Heap ReplState) :
    (getReplBlock i).run d = .ok (d.table.blocks i, d) := rfl

@[simp] theorem countOp_run (d : Driver Heap ReplState) : countOp.run d = .ok ((), counted d) := rfl

@[simp] theorem setReplBlock_run (i : Nat) (b : ReplBlock) (d : Driver Heap ReplState) :
    (setReplBlock i b).run d = .ok ((), stored d i b) := rfl

@[simp] theorem replError_run (c : Complaint) (d : Driver Heap ReplState) :
    (replError c).run d = .ok ((), complain d d.table.tracenum d.table.numOps c) := rfl

theorem addReplRange_accepts {lo : Nat} {size : BitVec 32} (hpos : 0 < size.toInt)
    (hfine : payloadError mmPackage d lo size = none) :
    (addReplRange mmPackage lo size).run d = .ok (true, record d lo size) := by
  rw [addReplRange, run_bind_of_ok (run_get d)]
  exact addRange_accepts hpos hfine

theorem newCalls_append {d' : Driver Heap ReplState} {es : List Issued}
    (hissued : d'.issued = d.issued ++ es) : newCalls d d' = es := by
  rw [newCalls, hissued, List.drop_left]

end Programs

section Soundness

variable {h : Heap} {rs : List Range} {hs : Holdings} {blocks : Nat → ReplBlock}
  {d d' : Driver Heap ReplState}

/-- The invariant of a state of the REPL. -/
def Inv (d : Driver Heap ReplState) : Prop :=
  Consistent d.heap d.ranges (holdings d.issued) d.table.blocks

theorem Inv.allocated (hC : Inv d) {i : Nat} (hi : i < numBlocks)
    (hvalid : (d.table.blocks i).isValid = true) :
    ∃ e, IsAllocated d.heap e ∧ e.addr + 8 = (d.table.blocks i).ptr := by
  obtain ⟨⟨L, hL⟩, -⟩ := hC.mm
  obtain ⟨b, hb, haddr, -⟩ := hL.block_of_live (hC.live hi hvalid)
  exact ⟨entry b, (isAllocated_iff hL.represents).mpr ⟨b, hb, rfl⟩, haddr⟩

/-- The payloads obtained are those of the valid indices. -/
theorem Inv.perm_holdings (hC : Inv d) : (holdings d.issued).Perm
    ((validIndices d.table).map fun i =>
      (i, (d.table.blocks i).ptr, (d.table.blocks i).size)) := by
  have hnodup : (holdings d.issued).Nodup := by
    have hkeys := keys_nodup mm_contract hC.mm
    exact (hkeys.of_map Prod.fst).of_map Prod.snd
  have hvalid : ((validIndices d.table).map fun i =>
      (i, (d.table.blocks i).ptr, (d.table.blocks i).size)).Nodup := by
    apply (List.nodup_range.filter _).map
    intro i j heq
    exact congrArg Prod.fst heq
  apply (List.perm_ext_iff_of_nodup hnodup hvalid).mpr
  rintro ⟨i, p, n⟩
  rw [hC.table, List.mem_map]
  constructor
  · rintro ⟨hi, hvalid, rfl, rfl⟩
    exact ⟨i, List.mem_filter.mpr ⟨List.mem_range.mpr hi, hvalid⟩, rfl⟩
  · rintro ⟨j, hj, heq⟩
    cases heq
    obtain ⟨hj, hvalid⟩ := List.mem_filter.mp hj
    exact ⟨List.mem_range.mp hj, hvalid, rfl, rfl⟩

theorem Inv.tableSound (hC : Inv d) : TableSound d where
  valid_iff i hi := by
    constructor
    · intro hvalid
      exact ⟨⟨_, hC.mem hi hvalid⟩, hC.allocated hi hvalid⟩
    · rintro ⟨⟨n, hmem⟩, -⟩
      exact ((hC.table _ _ _).mp hmem).isValid
  distinct i hi j hj hivalid hjvalid heq := hC.eq_of_valid hi hj hivalid hjvalid heq
  ranges := by
    have hperm := hC.perm_holdings.map fun x => rangeOf x.2
    rw [List.map_map] at hperm
    exact hC.ranges.trans hperm

/-- The command keeps the invariant, and passes only `NULL` and valid pointers. -/
def Keeping (d : Driver Heap ReplState) (cmd : Command) : Prop :=
  ∃ out d', cmd.handler.run d = .ok (out, d') ∧ Inv d' ∧
    ∀ e ∈ newCalls d d', PassesValid d.table e.call

theorem Keeping.stepSound {cmd : Command} (hkeeping : Keeping d cmd) : StepSound d cmd := by
  obtain ⟨out, d', hrun, hC, hcalls⟩ := hkeeping
  exact ⟨out, d', hrun, hC.tableSound, hcalls⟩

/-- A command that only prints. -/
theorem keeping_of_same (hC : Inv d) {cmd : Command} (out : List Printed)
    (hrun : cmd.handler.run d = .ok (out, d)) : Keeping d cmd := by
  have hnone : newCalls d d = [] := newCalls_append (List.append_nil _).symm
  exact ⟨out, d, hrun, hC, by simp [hnone]⟩

/-- A command that makes one call. -/
theorem keeping_of_call {cmd : Command} {out : List Printed} {e : Issued}
    (hrun : cmd.handler.run d = .ok (out, d')) (hC' : Inv d') (hissued : d'.issued = d.issued ++ [e])
    (hpasses : PassesValid d.table e.call) : Keeping d cmd := by
  refine ⟨out, d', hrun, hC', ?_⟩
  rw [newCalls_append hissued]
  intro e' he'
  rwa [List.mem_singleton.mp he']

variable {c : Call}

/-- A legal call returns, whatever the index it is made for. -/
theorem Inv.call (hC : Inv d) (i : Nat) (hlegal : c.Legal ((holdings d.issued).map Prod.snd))
    (hnonneg : NonNegative c) :
    ∃ q s, (mmPackage.exec c).run d.heap = .ok (q, s) ∧
      MmInv s ((holdings (d.issued ++ [⟨i, c, q⟩])).map Prod.snd) ∧ (AsksNothing c → q = null) ∧
      ∀ r ∈ (holdings d.issued).map Prod.snd, r.1 ≠ argument c → Keeps d.heap s r := by
  obtain ⟨q, s, hcall, hmm, hnull⟩ := mm_contract.call _ _ c hC.mm hlegal hnonneg
  obtain ⟨⟨L, hL⟩, -⟩ := hC.mm
  refine ⟨q, s, hcall, ?_, hnull, fun r hr hne => ?_⟩
  · rw [holdings_concat, map_holdingsAfter]
    exact hmm
  · exact exec_keeps hL hlegal (intSized_of_nonNegative hnonneg) hcall hr hne

theorem Inv.ne_null (hC : Inv d) {r : Nat × Word} (hr : r ∈ (holdings d.issued).map Prod.snd) :
    r.1 ≠ null := (mm_placed hC.mm r hr).ne_null

theorem nonNegative_size {size : BitVec 32} (hsize : 0 ≤ size.toInt) :
    0 ≤ (size.signExtend 64).toInt ∧ (size.signExtend 64).toInt < 2 ^ 31 := by
  rw [BitVec.toInt_signExtend_of_le (by decide)]
  exact ⟨hsize, size.toInt_lt⟩

theorem toInt_pos {size : BitVec 32} (hsize : 0 ≤ size.toInt) (hne : size ≠ 0) :
    0 < size.toInt := by
  have hint : size.toInt ≠ 0 := fun hint => hne (BitVec.eq_of_toInt_eq hint)
  omega

end Soundness

section Malloc

variable {d : Driver Heap ReplState} {index : Int} {i q : Nat} {size : BitVec 32} {s s' : Heap}

/-- What a state is made of, its counters and reports aside. -/
structure Leaves (d' : Driver Heap ReplState) (h : Heap) (rs : List Range)
    (issued : List Issued) (blocks : Nat → ReplBlock) : Prop where
  heap : d'.heap = h
  ranges : d'.ranges = rs
  issued : d'.issued = issued
  blocks : d'.table.blocks = blocks

theorem Leaves.inv {d' : Driver Heap ReplState} {rs : List Range} {issued : List Issued}
    {blocks : Nat → ReplBlock} (hleaves : Leaves d' s rs issued blocks)
    (hC : Consistent s rs (holdings issued) blocks) : Inv d' := by
  obtain ⟨rfl, rfl, rfl, rfl⟩ := hleaves
  exact hC

theorem mallocCmd_nothing (hindex : indexInTable index = some i)
    (hfree : (d.table.blocks i).isValid = false)
    (hcall : (mmPackage.exec (.malloc (size.signExtend 64))).run d.heap = .ok (null, s)) :
    ∃ d', (mallocCmd mmPackage index size).run d = .ok ([], d') ∧
      Leaves d' s d.ranges (d.issued ++ [⟨i, .malloc (size.signExtend 64), null⟩])
        d.table.blocks := by
  have hcall' := callMm_run (d := counted d) i hcall
  rw [mallocCmd, hindex]
  dsimp only
  rw [run_bind_of_ok (getReplBlock_run i d), hfree, if_neg Bool.false_ne_true,
    run_bind_of_ok (countOp_run d), run_bind_of_ok hcall']
  rcases Decidable.em (size = 0) with rfl | hsize
  · rw [if_neg (fun hfail => hfail.2 rfl), if_pos rfl]
    exact ⟨_, rfl, rfl, rfl, rfl, rfl⟩
  · rw [if_pos ⟨rfl, hsize⟩, run_bind_of_ok (replError_run _ _)]
    exact ⟨_, rfl, rfl, rfl, rfl, rfl⟩

theorem mallocCmd_serves (hindex : indexInTable index = some i)
    (hfree : (d.table.blocks i).isValid = false)
    (hcall : (mmPackage.exec (.malloc (size.signExtend 64))).run d.heap = .ok (q, s))
    (hq : q ≠ null) (hpos : 0 < size.toInt)
    (hfine : payloadError mmPackage (issue (counted d) s i (.malloc (size.signExtend 64)) q) q size =
      none)
    (hfill : (mmPackage.memset q (fillByte i) (size.signExtend 64).toNat).run s = .ok ((), s')) :
    ∃ d', (mallocCmd mmPackage index size).run d = .ok ([], d') ∧
      Leaves d' s' (payloadRange q size :: d.ranges)
        (d.issued ++ [⟨i, .malloc (size.signExtend 64), q⟩])
        (Function.update d.table.blocks i
          { d.table.blocks i with isValid := true, ptr := q, size := size.signExtend 64 }) := by
  have hcall' := callMm_run (d := counted d) i hcall
  have hfill' := fillRange_run
    (d := record (issue (counted d) s i (.malloc (size.signExtend 64)) q) q size) hfill
  rw [mallocCmd, hindex]
  dsimp only
  rw [run_bind_of_ok (getReplBlock_run i d), hfree, if_neg Bool.false_ne_true,
    run_bind_of_ok (countOp_run d), run_bind_of_ok hcall', if_neg (fun hfail => hq hfail.1),
    if_neg (ne_zero_of_toInt_pos hpos), run_bind_of_ok (addReplRange_accepts hpos hfine), if_pos rfl,
    run_bind_of_ok hfill', run_bind_of_ok (setReplBlock_run i _ _)]
  exact ⟨_, rfl, rfl, rfl, rfl, rfl⟩

/-- The payload is recorded, filled and stored under an index that was free. -/
theorem malloc_stored (hC : Inv d) (hindex : indexInTable index = some i)
    (hfree : (d.table.blocks i).isValid = false) (hpos : 0 < size.toInt)
    (hcall : (mmPackage.exec (.malloc (size.signExtend 64))).run d.heap = .ok (q, s)) (hq : q ≠ null)
    (hmm : MmInv s
      ((holdings (d.issued ++ [⟨i, .malloc (size.signExtend 64), q⟩])).map Prod.snd))
    (hkeeps : ∀ r ∈ (holdings d.issued).map Prod.snd, Keeps d.heap s r) :
    ∃ d', (mallocCmd mmPackage index size).run d = .ok ([], d') ∧ Inv d' ∧
      d'.issued = d.issued ++ [⟨i, .malloc (size.signExtend 64), q⟩] ∧
      (d'.table.blocks i).isValid = true := by
  have hi := indexInTable_lt hindex
  have hlog : holdings (d.issued ++ [⟨i, .malloc (size.signExtend 64), q⟩]) =
      (i, q, size.signExtend 64) :: holdings d.issued := by
    rw [holdings_concat, holdingsAfter]
    exact if_neg hq
  rw [hlog] at hmm
  have hranges : d.ranges.Perm (((holdings d.issued).map Prod.snd).map rangeOf) := by
    rw [List.map_map]
    exact hC.ranges
  have hfine : payloadError mmPackage
      (issue (counted d) s i (.malloc (size.signExtend 64)) q) q size = none :=
    payload_fine mm_contract hmm hranges
  obtain ⟨s', hfill, -⟩ :=
    mm_contract.memset _ _ hmm (q, size.signExtend 64) List.mem_cons_self (fillByte i)
  obtain ⟨d', hrun, hleaves⟩ := mallocCmd_serves hindex hfree hcall hq hpos hfine hfill
  refine ⟨d', hrun, hleaves.inv ?_, hleaves.issued, ?_⟩
  · rw [hlog]
    refine consistent_store hi (fun j p n => ?_) hC.ranges hC.int
      (fun x hx => (hC.filled x hx).keeps (hkeeps _ (List.mem_map_of_mem hx))) hmm hfill
      ⟨hi, rfl, rfl, rfl⟩
    rw [hC.table]
    refine (and_iff_left_of_imp ?_).symm
    rintro hhas rfl
    rw [hhas.isValid] at hfree
    cases hfree
  · rw [hleaves.blocks, Function.update_self]

/-- `malloc` keeps the invariant, whatever its index and its size. -/
theorem keeping_malloc (hC : Inv d) (hsize : 0 ≤ size.toInt) :
    Keeping d (.malloc index size) := by
  rcases hindex : indexInTable index with _ | i
  · apply keeping_of_same hC [.indexRange]
    rw [Command.handler, mallocCmd, hindex]
    rfl
  rcases hvalid : (d.table.blocks i).isValid with _ | _
  · obtain ⟨q, s, hcall, hmm, hnull, hkeeps⟩ :=
      hC.call (c := .malloc (size.signExtend 64)) i trivial (nonNegative_size hsize)
    have hothers : ∀ r ∈ (holdings d.issued).map Prod.snd, Keeps d.heap s r :=
      fun r hr => hkeeps r hr (hC.ne_null hr)
    rcases Decidable.em (q = null) with rfl | hq
    · obtain ⟨d', hrun, hleaves⟩ := mallocCmd_nothing hindex hvalid hcall
      have hlog : holdings (d.issued ++ [⟨i, .malloc (size.signExtend 64), null⟩]) =
          holdings d.issued := by
        rw [holdings_concat, holdingsAfter]
        exact if_pos rfl
      rw [hlog] at hmm
      refine keeping_of_call hrun (hleaves.inv ?_) hleaves.issued trivial
      rw [hlog]
      exact hC.keep hmm hothers
    · have hne : size ≠ 0 := fun hzero => hq (hnull (signExtend_eq_zero_iff.mpr hzero))
      obtain ⟨d', hrun, hC', hissued, -⟩ :=
        malloc_stored hC hindex hvalid (toInt_pos hsize hne) hcall hq hmm hothers
      exact keeping_of_call hrun hC' hissued trivial
  · apply keeping_of_same hC [.inUse]
    rw [Command.handler, mallocCmd, hindex]
    dsimp only
    rw [run_bind_of_ok (getReplBlock_run i d), if_pos hvalid]
    rfl

end Malloc

end MallocLab.ReplInvariant
