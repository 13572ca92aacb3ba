import MallocLab.ReplSoundness

/-!
Requests for a negative number of bytes: which of them get as far as
`assert(size > 0)` of `add_range`.
-/

namespace MallocLab.NegativeSizes

open MallocLab.Machine
open MallocLab.Mm
open MallocLab.HeapPrograms
open MallocLab.AbstractLayout
open MallocLab.AbstractLayout.Layout
open MallocLab.Representation
open MallocLab.HeapGrowth
open MallocLab.Allocation
open MallocLab.Reallocation
open MallocLab.RequestArithmetic
open MallocLab.Runs
open MallocLab.MallocPackage
open MallocLab.Mdriver
open MallocLab.DriverPrograms
open MallocLab.TraceSteps
open MallocLab.Repl
open MallocLab.ReplInvariant
open MallocLab.ReplCommands
open MallocLab.ReplSoundness

section Assertions

variable {σ τ α β : Type} {P : Package σ} {size : BitVec 32}

/-- The program does not run into the assertion, from any state. -/
def NeverAsserts (x : DriverM σ τ α) : Prop := ∀ d, x.run d ≠ .error .assertion

theorem NeverAsserts.bind {x : DriverM σ τ α} {f : α → DriverM σ τ β} (hx : NeverAsserts x)
    (hf : ∀ a, NeverAsserts (f a)) : NeverAsserts (x >>= f) := by
  intro d hrun
  rcases hfirst : x.run d with e | ⟨a, d'⟩
  · rw [run_bind_of_error hfirst] at hrun
    cases hrun
    exact hx d hfirst
  · rw [run_bind_of_ok hfirst] at hrun
    exact hf a d' hrun

theorem NeverAsserts.ite {p : Prop} [Decidable p] {x y : DriverM σ τ α} (hx : NeverAsserts x)
    (hy : NeverAsserts y) : NeverAsserts (if p then x else y) := by
  split
  · exact hx
  · exact hy

theorem neverAsserts_of_ok {x : DriverM σ τ α} (hx : ∀ d, ∃ r, x.run d = .ok r) :
    NeverAsserts x := by
  intro d hrun
  obtain ⟨r, hok⟩ := hx d
  rw [hok] at hrun
  cases hrun

theorem neverAsserts_pure (a : α) : NeverAsserts (pure a : DriverM σ τ α) :=
  neverAsserts_of_ok fun _ => ⟨_, rfl⟩

theorem neverAsserts_modify (f : Driver σ τ → Driver σ τ) :
    NeverAsserts (modify f : DriverM σ τ Unit) := neverAsserts_of_ok fun _ => ⟨_, rfl⟩

theorem neverAsserts_get : NeverAsserts (get : DriverM σ τ (Driver σ τ)) :=
  neverAsserts_of_ok fun _ => ⟨_, rfl⟩

theorem neverAsserts_appError (msg : String) :
    NeverAsserts (throw (.appError msg) : DriverM σ τ α) := by
  intro d hrun
  cases hrun

/-- A fault of the package is not the assertion of the driver. -/
theorem neverAsserts_onHeap (x : StateT σ (Except Fault) α) :
    NeverAsserts (onHeap x : DriverM σ τ α) := by
  apply neverAsserts_get.bind
  intro d
  split
  · exact (neverAsserts_modify _).bind fun _ => neverAsserts_pure _
  · intro d' hrun
    cases hrun

theorem neverAsserts_callMm (index : Nat) (c : Call) :
    NeverAsserts (callMm P index c : DriverM σ τ Nat) :=
  (neverAsserts_onHeap _).bind fun _ => (neverAsserts_modify _).bind fun _ => neverAsserts_pure _

theorem neverAsserts_checkData (newp index : Nat) (oldsize : Word) :
    NeverAsserts (checkData P newp index oldsize size : DriverM σ τ Bool) := by
  apply neverAsserts_get.bind
  intro d
  split
  · exact neverAsserts_pure _
  · intro d' hrun
    cases hrun

theorem neverAsserts_fillRange (p index : Nat) :
    NeverAsserts (fillRange P p index size : DriverM σ τ Unit) := neverAsserts_onHeap _

theorem neverAsserts_mallocError (tracenum opnum : Nat) (c : Complaint) :
    NeverAsserts (mallocError tracenum opnum c : DriverM σ τ Unit) := neverAsserts_modify _

theorem neverAsserts_removeRange (lo : Nat) :
    NeverAsserts (removeRange lo : DriverM σ τ Unit) := neverAsserts_modify _

/-- What comes after a call that returned a payload: the assertion decides. -/
structure ChecksRange (size : BitVec 32) (x : DriverM σ τ α) : Prop where
  negative : size.toInt < 0 → ∀ d, x.run d = .error .assertion
  other : 0 ≤ size.toInt → NeverAsserts x

theorem neverAsserts_addRange (hsize : 0 ≤ size.toInt) (lo tracenum opnum : Nat) :
    NeverAsserts (addRange P lo size tracenum opnum : DriverM σ τ Bool) := by
  apply neverAsserts_of_ok
  intro d
  rcases Decidable.em (size = 0) with rfl | hne
  · exact ⟨_, addRange_zero d⟩
  · have hpos := toInt_pos hsize hne
    rcases herror : payloadError P d lo size with _ | c
    · exact ⟨_, addRange_accepts hpos herror⟩
    · exact ⟨_, addRange_rejects hpos herror⟩

theorem checksRange_addRange {f : Bool → DriverM σ τ α} (lo tracenum opnum : Nat)
    (hf : ∀ b, NeverAsserts (f b)) : ChecksRange size (addRange P lo size tracenum opnum >>= f) where
  negative hneg _ := run_bind_of_error (addRange_asserts hneg)
  other hsize := (neverAsserts_addRange hsize lo tracenum opnum).bind hf

/-- Steps that always succeed may come first. -/
theorem ChecksRange.after {x : DriverM σ τ β} {f : β → DriverM σ τ α}
    (hx : ∀ d, ∃ r, x.run d = .ok r) (hf : ∀ a, ChecksRange size (f a)) :
    ChecksRange size (x >>= f) where
  negative hneg d := by
    obtain ⟨⟨a, d'⟩, hok⟩ := hx d
    rw [run_bind_of_ok hok]
    exact (hf a).negative hneg d'
  other hsize := (neverAsserts_of_ok hx).bind fun a => (hf a).other hsize

/-- The call returns a payload. -/
def ReturnsPayload (P : Package σ) (s : σ) (c : Call) : Prop :=
  ∃ q s', (P.exec c).run s = .ok (q, s') ∧ q ≠ null

/-- The pattern that the four callers of `add_range` share. -/
theorem asserts_iff_returnsPayload {x y : DriverM σ τ α} {f : Nat → DriverM σ τ α}
    (hx : NeverAsserts x) (hy : NeverAsserts y) (hf : ∀ q, ChecksRange size (f q))
    (index : Nat) (c : Call) (d : Driver σ τ) :
    (callMm P index c >>= fun q =>
        if q = null ∧ size ≠ 0 then x else if size = 0 then y else f q).run d =
      .error .assertion ↔ size.toInt < 0 ∧ ReturnsPayload P d.heap c := by
  rcases lt_or_ge size.toInt 0 with hneg | hsize
  · have hne : size ≠ 0 := by
      rintro rfl
      exact absurd hneg (by decide)
    rw [and_iff_right hneg]
    constructor
    · intro hrun
      rcases hcall : (callMm P index c).run d with e | ⟨q, d'⟩
      · rw [run_bind_of_error hcall] at hrun
        cases hrun
        exact absurd hcall (neverAsserts_callMm index c d)
      · obtain ⟨s, hexec, rfl⟩ := callMm_eq_ok hcall
        refine ⟨q, s, hexec, fun hnull => ?_⟩
        rw [run_bind_of_ok hcall, if_pos ⟨hnull, hne⟩] at hrun
        exact hx _ hrun
    · rintro ⟨q, s, hexec, hq⟩
      rw [run_bind_of_ok (callMm_run index hexec), if_neg fun hfail => hq hfail.1, if_neg hne]
      exact (hf q).negative hneg _
  · refine iff_of_false ?_ fun hneg => absurd hneg.1 (not_lt.mpr hsize)
    refine (neverAsserts_callMm index c).bind (fun q => ?_) d
    exact .ite hx (.ite hy ((hf q).other hsize))

end Assertions

/-- The size of the call is negative. -/
def NegativeSized : Call → Prop
  | .malloc size => size.toInt < 0
  | .free _ => False
  | .realloc _ size => size.toInt < 0

section Traces

variable {σ : Type} {P : Package σ} {op : Request}

theorem signExtend_neg_iff {size : BitVec 32} : (size.signExtend 64).toInt < 0 ↔ size.toInt < 0 := by
  rw [BitVec.toInt_signExtend_of_le (by decide)]

theorem neverAsserts_getBlock (index : Nat) : NeverAsserts (getBlock index : TraceM σ Nat) :=
  neverAsserts_of_ok fun _ => ⟨_, rfl⟩

theorem neverAsserts_storePayload (P : Package σ) (p index : Nat) (size : BitVec 32) {α : Type}
    {x : TraceM σ α} (hx : NeverAsserts x) :
    NeverAsserts (fillRange P p index size >>= fun _ => setBlock index p >>= fun _ =>
      setBlockSize index size >>= fun _ => x) :=
  (neverAsserts_fillRange p index).bind fun _ => (neverAsserts_modify _).bind fun _ =>
    (neverAsserts_modify _).bind fun _ => hx

/-- A request of `eval_mm_valid` runs into the assertion exactly if its size is negative and the
call returns a payload. -/
theorem validRequest_asserts_iff (tracenum i : Nat) (d : Driver σ Payloads) :
    (validRequest P tracenum i op).run d = .error .assertion ↔
      NegativeSized (callOf d.table op) ∧ ReturnsPayload P d.heap (callOf d.table op) := by
  have hfails : ∀ c, NeverAsserts (do mallocError tracenum i c; return false : TraceM σ Bool) :=
    fun c => (neverAsserts_mallocError tracenum i c).bind fun _ => neverAsserts_pure _
  cases op with
  | alloc index size =>
      change _ ↔ (size.signExtend 64).toInt < 0 ∧ _
      rw [signExtend_neg_iff]
      refine asserts_iff_returnsPayload (hfails _) (neverAsserts_pure _) (fun q => ?_) index _ d
      apply checksRange_addRange
      intro b
      exact .ite (neverAsserts_storePayload P q index size (neverAsserts_pure _)) (neverAsserts_pure _)
  | realloc index size =>
      change _ ↔ (size.signExtend 64).toInt < 0 ∧ _
      rw [signExtend_neg_iff, validRequest, run_bind_of_ok (getBlock_run index d)]
      refine asserts_iff_returnsPayload (hfails _) (neverAsserts_pure _) (fun q => ?_) index _ d
      refine .after (fun d => ⟨_, removeRange_run _ d⟩) fun _ => checksRange_addRange _ _ _ ?_
      intro b
      refine .ite ?_ (neverAsserts_pure _)
      refine (neverAsserts_of_ok fun d => ⟨_, getBlockSize_run index d⟩).bind fun oldsize => ?_
      refine (neverAsserts_checkData q index oldsize).bind fun same => .ite ?_ (hfails _)
      exact neverAsserts_storePayload P q index size (neverAsserts_pure _)
  | free index =>
      refine iff_of_false ?_ fun hneg => hneg.1
      refine (neverAsserts_getBlock index).bind (fun p => ?_) d
      exact (neverAsserts_removeRange p).bind fun _ =>
        (neverAsserts_callMm index _).bind fun _ => neverAsserts_pure _

/-- The same of `eval_mm_util`. -/
theorem utilRequest_asserts_iff (tracenum i : Nat) (t : Totals) (d : Driver σ Payloads) :
    (utilRequest P tracenum i t op).run d = .error .assertion ↔
      NegativeSized (callOf d.table op) ∧ ReturnsPayload P d.heap (callOf d.table op) := by
  cases op with
  | alloc index size =>
      change _ ↔ (size.signExtend 64).toInt < 0 ∧ _
      rw [signExtend_neg_iff]
      refine asserts_iff_returnsPayload (neverAsserts_appError _) (neverAsserts_pure _)
        (fun q => ?_) index _ d
      apply checksRange_addRange
      intro b
      exact .ite (neverAsserts_storePayload P q index size (neverAsserts_pure _)) (neverAsserts_pure _)
  | realloc index size =>
      change _ ↔ (size.signExtend 64).toInt < 0 ∧ _
      rw [signExtend_neg_iff, utilRequest, run_bind_of_ok (getBlock_run index d)]
      refine asserts_iff_returnsPayload (neverAsserts_appError _) (neverAsserts_pure _)
        (fun q => ?_) index _ d
      refine .after (fun d => ⟨_, removeRange_run _ d⟩) fun _ => checksRange_addRange _ _ _ ?_
      intro b
      refine .ite ?_ (neverAsserts_pure _)
      refine (neverAsserts_fillRange q index).bind fun _ => ?_
      refine (neverAsserts_of_ok fun d => ⟨_, getBlockSize_run index d⟩).bind fun oldsize => ?_
      exact (neverAsserts_modify _).bind fun _ => (neverAsserts_modify _).bind fun _ =>
        neverAsserts_pure _
  | free index =>
      refine iff_of_false ?_ fun hneg => hneg.1
      refine (neverAsserts_of_ok fun d => ⟨_, getBlockSize_run index d⟩).bind (fun size => ?_) d
      exact (neverAsserts_getBlock index).bind fun p => (neverAsserts_removeRange p).bind fun _ =>
        (neverAsserts_callMm index _).bind fun _ => neverAsserts_pure _

end Traces

section Commands

variable {P : Package Heap} {index : Int} {size : BitVec 32}

/-- The call that a command makes before it comes to `add_range`, or to its end. -/
def commandCall (t : ReplState) : Command → Option Call
  | .malloc index size =>
      (indexInTable index).bind fun i =>
        if (t.blocks i).isValid then none else some (.malloc (size.signExtend 64))
  | .realloc index size =>
      (indexInTable index).map fun i => .realloc (t.blocks i).ptr (size.signExtend 64)
  | .free index =>
      (indexInTable index).bind fun i =>
        if (t.blocks i).isValid then some (.free (t.blocks i).ptr) else none
  | .reset => none
  | .print _ => none

/-- The command asks for a negative number of bytes and gets a payload. -/
def AsksNegative (P : Package Heap) (d : Driver Heap ReplState) (cmd : Command) : Prop :=
  ∃ c, commandCall d.table cmd = some c ∧ NegativeSized c ∧ ReturnsPayload P d.heap c

theorem checksRange_addReplRange {α : Type} {f : Bool → ReplM Heap α} (lo : Nat)
    (hf : ∀ b, NeverAsserts (f b)) : ChecksRange size (addReplRange P lo size >>= f) := by
  rw [addReplRange, bind_assoc]
  exact .after (fun d => ⟨_, run_get d⟩) fun d => checksRange_addRange lo _ _ hf

theorem neverAsserts_getReplBlock (i : Nat) : NeverAsserts (getReplBlock i : ReplM Heap ReplBlock) :=
  neverAsserts_of_ok fun d => ⟨_, getReplBlock_run i d⟩

theorem neverAsserts_replError (c : Complaint) (out : List Printed) :
    NeverAsserts (do replError c; return out : ReplM Heap (List Printed)) :=
  neverAsserts_of_ok fun _ => ⟨_, rfl⟩

theorem neverAsserts_setReplBlock (i : Nat) (b : ReplBlock) (out : List Printed) :
    NeverAsserts (do setReplBlock i b; return out : ReplM Heap (List Printed)) :=
  neverAsserts_of_ok fun _ => ⟨_, rfl⟩

theorem mallocCmd_asserts_iff (d : Driver Heap ReplState) :
    (mallocCmd P index size).run d = .error .assertion ↔ AsksNegative P d (.malloc index size) := by
  simp only [AsksNegative, commandCall]
  rw [mallocCmd]
  rcases indexInTable index with _ | i
  · refine iff_of_false (neverAsserts_pure _ d) ?_
    rintro ⟨c, hc, -⟩
    cases hc
  dsimp only [Option.bind_some]
  rw [run_bind_of_ok (getReplBlock_run i d)]
  rcases hvalid : (d.table.blocks i).isValid with _ | _
  · have hnot : ¬ (d.table.blocks i).isValid = true := by simp [hvalid]
    have hfalse : ¬ false = true := by decide
    rw [if_neg hfalse, run_bind_of_ok (countOp_run d)]
    simp only [if_neg hfalse, Option.some.injEq, exists_eq_left']
    change _ ↔ (size.signExtend 64).toInt < 0 ∧ _
    rw [signExtend_neg_iff]
    refine asserts_iff_returnsPayload (neverAsserts_replError _ _) (neverAsserts_pure _)
      (fun q => ?_) i _ (counted d)
    apply checksRange_addReplRange
    intro b
    refine .ite ?_ (neverAsserts_pure _)
    exact (neverAsserts_fillRange q i).bind fun _ => neverAsserts_setReplBlock i _ _
  · refine iff_of_false (neverAsserts_pure _ d) ?_
    rintro ⟨c, hc, -⟩
    cases hc

theorem remallocCmd_asserts_iff (d : Driver Heap ReplState) :
    (remallocCmd P index size).run d = .error .assertion ↔
      AsksNegative P d (.realloc index size) := by
  simp only [AsksNegative, commandCall]
  rw [remallocCmd]
  rcases indexInTable index with _ | i
  · refine iff_of_false (neverAsserts_pure _ d) ?_
    rintro ⟨c, hc, -⟩
    cases hc
  dsimp only [Option.map_some]
  rw [run_bind_of_ok (getReplBlock_run i d)]
  simp only [Option.some.injEq, exists_eq_left']
  change _ ↔ (size.signExtend 64).toInt < 0 ∧ _
  rw [signExtend_neg_iff]
  refine asserts_iff_returnsPayload (neverAsserts_replError _ _) (neverAsserts_pure _)
    (fun q => ?_) i _ d
  refine .after (fun d => ⟨_, removeRange_run _ d⟩) fun _ => checksRange_addReplRange _ ?_
  intro b
  refine .ite ?_ (neverAsserts_pure _)
  refine (neverAsserts_checkData q i _).bind fun same => .ite ?_ (neverAsserts_replError _ _)
  exact (neverAsserts_fillRange q i).bind fun _ => neverAsserts_setReplBlock i _ _

theorem neverAsserts_freeCmd (index : Int) : NeverAsserts (freeCmd P index) := by
  rw [freeCmd]
  rcases indexInTable index with _ | i
  · exact neverAsserts_pure _
  refine (neverAsserts_getReplBlock i).bind fun b => .ite (neverAsserts_pure _) ?_
  refine (neverAsserts_modify _).bind fun _ => (neverAsserts_removeRange b.ptr).bind fun _ => ?_
  exact (neverAsserts_callMm i _).bind fun _ => neverAsserts_setReplBlock i _ _

theorem neverAsserts_resetCmd : NeverAsserts (resetCmd P) := by
  refine ((neverAsserts_onHeap _).bind fun _ => neverAsserts_modify _).bind fun _ => ?_
  refine (neverAsserts_modify _).bind fun _ => (neverAsserts_onHeap _).bind fun r => .ite ?_ ?_
  · exact neverAsserts_get.bind fun d => (neverAsserts_mallocError _ _ _).bind fun _ =>
      neverAsserts_appError _
  · exact (neverAsserts_modify _).bind fun _ => neverAsserts_pure _

theorem neverAsserts_printCmd (block : Option Int) : NeverAsserts (printCmd block) := by
  cases block with
  | none => exact neverAsserts_get.bind fun d => neverAsserts_onHeap _
  | some index =>
      rw [printCmd]
      rcases indexInTable index with _ | i
      · exact neverAsserts_pure _
      refine (neverAsserts_getReplBlock i).bind fun b => .ite (neverAsserts_pure _) ?_
      refine (neverAsserts_onHeap _).bind fun bit => .ite ?_ (neverAsserts_pure _)
      exact (neverAsserts_onHeap _).bind fun size => neverAsserts_pure _

/-- A command of the REPL runs into the assertion exactly if it asks for a negative number of
bytes and gets a payload. -/
theorem handler_asserts_iff (cmd : Command) (d : Driver Heap ReplState) :
    cmd.handler.run d = .error .assertion ↔ AsksNegative mmPackage d cmd := by
  cases cmd with
  | malloc index size => exact mallocCmd_asserts_iff d
  | realloc index size => exact remallocCmd_asserts_iff d
  | free index =>
      refine iff_of_false (neverAsserts_freeCmd index d) ?_
      rintro ⟨c, hc, hneg, -⟩
      obtain ⟨i, -, hi⟩ := Option.bind_eq_some_iff.mp hc
      split at hi
      · cases hi
        exact hneg
      · cases hi
  | reset =>
      refine iff_of_false (neverAsserts_resetCmd d) ?_
      rintro ⟨c, hc, -⟩
      cases hc
  | print block =>
      refine iff_of_false (neverAsserts_printCmd block d) ?_
      rintro ⟨c, hc, -⟩
      cases hc

end Commands

section Allocator

variable {h s : Heap} {live : Live} {L : Layout} {size : Word} {ptr q : Nat} {c : Call}

/-- The free list is empty, and the arena has no room for a block. -/
def Full (h : Heap) : Prop :=
  h.flistFirst = null ∧ h.memMaxAddr < h.memBrk + minBlockSize.toNat

/-- The call has no negative size, or finds nothing to return. -/
def Harmless (h : Heap) : Call → Prop
  | .malloc size => 0 ≤ size.toInt ∨ Full h
  | .free _ => True
  | .realloc ptr size => 0 ≤ size.toInt ∨ ptr = null

theorem ne_zero_of_neg (hneg : size.toInt < 0) : size ≠ 0 := by
  rintro rfl
  exact absurd hneg (by decide)

/-- A negative size is rounded up to the smallest block. -/
theorem requestSize_of_neg (hneg : size.toInt < 0) : requestSize size = minBlockSize := by
  have hsum := toInt_align_add (show size.toInt + 23 < 2 ^ 63 by omega)
  have hmin : minBlockSize.toInt = 32 := by decide
  unfold rounded at hsum
  rw [requestSize]
  exact if_pos (by omega)

theorem memSbrk_full (hfull : h.memMaxAddr < h.memBrk + minBlockSize.toNat) :
    (memSbrk (minBlockSize.setWidth 32)).run h = .ok (sbrkFailed, h) := by
  have hint : (minBlockSize.setWidth 32).toInt = minBlockSize.toNat := by decide
  have hfails : (minBlockSize.setWidth 32).toInt < 0 ∨
      (h.memBrk : Int) + (minBlockSize.setWidth 32).toInt > h.memMaxAddr := by
    right
    omega
  rw [memSbrk, run_bind_of_ok (run_get h), if_pos hfails]
  rfl

theorem searchFreeList_null {bSize : Word} {fuel : Nat} {r : Option Nat}
    (hrun : (searchFreeList bSize fuel null).run h = .ok (r, s)) : r = none ∧ s = h := by
  cases fuel with
  | zero => cases hrun
  | succ fuel =>
      rw [searchFreeList, if_pos rfl] at hrun
      cases hrun
      exact ⟨rfl, rfl⟩

/-- `mm_malloc` in a full heap, whatever else is wrong with it. -/
theorem mmMalloc_full (hneg : size.toInt < 0) (hfull : Full h)
    (hrun : (mmMalloc size).run h = .ok (q, s)) : q = null := by
  obtain ⟨hempty, hroom⟩ := hfull
  rw [mmMalloc, if_neg (ne_zero_of_neg hneg), run_bind_of_ok (run_get h), hempty,
    requestSize_of_neg hneg] at hrun
  obtain ⟨r, h₁, hsearch, hrest⟩ := run_bind_eq_ok hrun
  obtain ⟨rfl, rfl⟩ := searchFreeList_null hsearch
  change (extendHeap minBlockSize).run h₁ = _ at hrest
  rw [extendHeap, run_bind_of_ok (memSbrk_full hroom), if_pos rfl] at hrest
  cases hrest
  rfl

/-- A harmless call with a negative size returns no payload, from any state. -/
theorem not_returnsPayload_of_harmless (hneg : NegativeSized c) (hharmless : Harmless h c) :
    ¬ ReturnsPayload mmPackage h c := by
  rintro ⟨q, s, hrun, hq⟩
  rw [exec_mmPackage] at hrun
  cases c with
  | malloc size =>
      have hsize : size.toInt < 0 := hneg
      exact hq (mmMalloc_full hsize (hharmless.resolve_left (not_le.mpr hsize)) hrun)
  | free ptr => exact hneg
  | realloc ptr size =>
      have hsize : size.toInt < 0 := hneg
      obtain rfl := hharmless.resolve_left (not_le.mpr hsize)
      exact hq (ReplHoldings.mmRealloc_null_eq_ok hrun).1

theorem firstFit_smallest (hL : L.WellFormed) {n : Need} (hn : n.bytes = 32) :
    L.firstFit n = none ↔ L.freeList = [] := by
  rw [hL.firstFit_none_iff, hn]
  constructor
  · intro hsmall
    apply List.eq_nil_iff_forall_not_mem.mpr
    intro a ha
    obtain ⟨b, hb, -, hfree, -⟩ := hL.listed_block ha
    exact absurd (hL.large b hb) (not_le.mpr (hsmall b hb hfree))
  · intro hempty b hb hfree
    have hmem := hL.mem_freeList (WellFormed.mem_all_of_mem hb) hfree
    rw [hempty] at hmem
    cases hmem

/-- In a sound heap a negative size is refused exactly if the heap is full. -/
theorem full_iff (hR : Represents h L) (hneg : size.toInt < 0) :
    Full h ↔ (L.malloc size).2 = null := by
  have hbytes : (need size).bytes = 32 := congrArg BitVec.toNat (requestSize_of_neg hneg)
  have hmin : minBlockSize.toNat = 32 := by decide
  have hmax := hR.memMaxAddr_eq
  rw [WellFormed.malloc_eq_null_iff, or_iff_right (ne_zero_of_neg hneg), hbytes,
    firstFit_smallest hR.wellFormed hbytes, Full, hR.holds.list.nil_iff, hmax, hmin, hR.memBrk]

/-- A live payload holds any negative number of bytes. -/
theorem mmRealloc_negative {m : Word} (hI : Invariant ⟨h, live⟩ L) (hlive : (ptr, m) ∈ live)
    (hneg : size.toInt < 0) : (mmRealloc ptr size).run h = .ok (ptr, h) ∧ ptr ≠ null := by
  obtain ⟨b, hb, rfl, -⟩ := hI.block_of_live hlive
  have hlarge := b.large
  have hfits : (align size + tagsSize).toInt ≤ b.size := by
    rw [toInt_align_add (by omega), rounded]
    omega
  exact ⟨mmRealloc_run_fits hI.represents (WellFormed.mem_all_of_mem hb.1) (ne_zero_of_neg hneg)
    hfits, Nat.succ_ne_zero _⟩

/-- With a legal pointer in a sound heap, the harmless calls are the only ones that return
no payload for a negative size. -/
theorem returnsPayload_iff (hI : Invariant ⟨h, live⟩ L) (hlegal : c.Legal live)
    (hint : c.IntSized) (hneg : NegativeSized c) :
    ReturnsPayload mmPackage h c ↔ ¬ Harmless h c := by
  constructor
  · intro hreturns hharmless
    exact not_returnsPayload_of_harmless hneg hharmless hreturns
  · intro hharmful
    rw [ReturnsPayload, exec_mmPackage]
    cases c with
    | malloc size =>
        have hsize : size.toInt < 0 := hneg
        obtain ⟨h', hrun, -⟩ := mmMalloc_run hI.represents (mallocServes_of_lt hint.2).1
        refine ⟨_, h', hrun, fun hnull => hharmful (.inr ?_)⟩
        exact (full_iff hI.represents hsize).mpr hnull
    | free ptr => exact hneg.elim
    | realloc ptr size =>
        have hsize : size.toInt < 0 := hneg
        rcases hlegal with rfl | ⟨m, hlive⟩
        · exact absurd (.inr rfl) hharmful
        · obtain ⟨hrun, hptr⟩ := mmRealloc_negative hI hlive hsize
          exact ⟨ptr, h, hrun, hptr⟩

end Allocator

section Runs

variable {ω κ τ α : Type}

/-- `cond` holds of every step of a run, in the state in which the step is taken; `next` says
how the run goes on after a step. -/
def AlongRun (cond : Driver Heap τ → ω → Prop)
    (next : Nat → κ → ω → Driver Heap τ → κ → Driver Heap τ → Prop) :
    Nat → κ → List ω → Driver Heap τ → Prop
  | _, _, [], _ => True
  | i, k, op :: ops, d =>
      cond d op ∧ ∀ k' d', next i k op d k' d' → AlongRun cond next (i + 1) k' ops d'

/-- A loop that can only run into the assertion in one of its steps. -/
theorem AlongRun.not_asserts {cond : Driver Heap τ → ω → Prop}
    {next : Nat → κ → ω → Driver Heap τ → κ → Driver Heap τ → Prop}
    (loop : Nat → κ → List ω → DriverM Heap τ α) (hnil : ∀ i k, NeverAsserts (loop i k []))
    (hcons : ∀ i k op ops d, cond d op → (loop i k (op :: ops)).run d = .error .assertion →
      ∃ k' d', next i k op d k' d' ∧ (loop (i + 1) k' ops).run d' = .error .assertion)
    {i : Nat} {k : κ} {ops : List ω} {d : Driver Heap τ} (hrun : AlongRun cond next i k ops d) :
    (loop i k ops).run d ≠ .error .assertion := by
  induction ops generalizing i k d with
  | nil => exact hnil i k d
  | cons op ops ih =>
      intro hasserts
      obtain ⟨hop, hrest⟩ := hrun
      obtain ⟨k', d', hnext, hlater⟩ := hcons i k op ops d hop hasserts
      exact ih (hrest k' d' hnext) hlater

/-- The request is harmless in the state in which it is met. -/
def HarmlessRequest (d : Driver Heap Payloads) (op : Request) : Prop :=
  Harmless d.heap (callOf d.table op)

def HarmlessCommand (d : Driver Heap ReplState) (cmd : Command) : Prop :=
  ∀ c, commandCall d.table cmd = some c → Harmless d.heap c

/-- All requests that `eval_mm_valid` comes to are harmless. -/
def HarmlessValid (tracenum : Nat) : List Request → Driver Heap Payloads → Prop :=
  AlongRun HarmlessRequest (fun i _ op d _ d' =>
    (validRequest mmPackage tracenum i op).run d = .ok (true, d')) 0 ()

def HarmlessUtil (tracenum : Nat) : List Request → Driver Heap Payloads → Prop :=
  AlongRun HarmlessRequest (fun i t op d t' d' =>
    (utilRequest mmPackage tracenum i t op).run d = .ok (some t', d')) 0 ⟨0, 0⟩

def HarmlessRepl : List Command → Driver Heap ReplState → Prop :=
  AlongRun HarmlessCommand (fun _ _ cmd d _ d' => ∃ out, cmd.handler.run d = .ok (out, d')) 0 ()

theorem validRequest_not_asserts {d : Driver Heap Payloads} {op : Request}
    (hop : HarmlessRequest d op) (tracenum i : Nat) :
    (validRequest mmPackage tracenum i op).run d ≠ .error .assertion := by
  rw [Ne, validRequest_asserts_iff]
  rintro ⟨hneg, hreturns⟩
  exact not_returnsPayload_of_harmless hneg hop hreturns

theorem utilRequest_not_asserts {d : Driver Heap Payloads} {op : Request}
    (hop : HarmlessRequest d op) (tracenum i : Nat) (t : Totals) :
    (utilRequest mmPackage tracenum i t op).run d ≠ .error .assertion := by
  rw [Ne, utilRequest_asserts_iff]
  rintro ⟨hneg, hreturns⟩
  exact not_returnsPayload_of_harmless hneg hop hreturns

theorem handler_not_asserts {d : Driver Heap ReplState} {cmd : Command}
    (hcmd : HarmlessCommand d cmd) : cmd.handler.run d ≠ .error .assertion := by
  rw [Ne, handler_asserts_iff]
  rintro ⟨c, hc, hneg, hreturns⟩
  exact not_returnsPayload_of_harmless hneg (hcmd c hc) hreturns

theorem validRequests_not_asserts {tracenum : Nat} {ops : List Request}
    {d : Driver Heap Payloads} (hops : HarmlessValid tracenum ops d) :
    (validRequests mmPackage tracenum 0 ops).run d ≠ .error .assertion := by
  refine AlongRun.not_asserts (fun i _ ops => validRequests mmPackage tracenum i ops)
    (fun _ _ => neverAsserts_pure true) ?_ hops
  intro i k op ops d hop hrun
  rcases hstep : (validRequest mmPackage tracenum i op).run d with e | ⟨b, d'⟩
  · rw [validRequests, run_bind_of_error hstep] at hrun
    cases hrun
    exact absurd hstep (validRequest_not_asserts hop tracenum i)
  · rw [validRequests, run_bind_of_ok hstep] at hrun
    rcases b with _ | _
    · cases hrun
    · exact ⟨(), d', rfl, hrun⟩

theorem utilRequests_not_asserts {tracenum : Nat} {ops : List Request}
    {d : Driver Heap Payloads} (hops : HarmlessUtil tracenum ops d) :
    (utilRequests mmPackage tracenum 0 ⟨0, 0⟩ ops).run d ≠ .error .assertion := by
  refine AlongRun.not_asserts (utilRequests mmPackage tracenum)
    (fun _ t => neverAsserts_pure (some t)) ?_ hops
  intro i t op ops d hop hrun
  rcases hstep : (utilRequest mmPackage tracenum i t op).run d with e | ⟨r, d'⟩
  · rw [utilRequests, run_bind_of_error hstep] at hrun
    cases hrun
    exact absurd hstep (utilRequest_not_asserts hop tracenum i t)
  · rw [utilRequests, run_bind_of_ok hstep] at hrun
    rcases r with _ | t'
    · cases hrun
    · exact ⟨t', d', rfl, hrun⟩

theorem driverLoop_not_asserts {cmds : List Command} {d : Driver Heap ReplState}
    (hcmds : HarmlessRepl cmds d) : (driverLoop cmds).run d ≠ .error .assertion := by
  refine AlongRun.not_asserts (fun _ _ cmds => driverLoop cmds)
    (fun _ _ => neverAsserts_pure ()) ?_ hcmds
  intro i k cmd cmds d hcmd hrun
  rcases hstep : cmd.handler.run d with e | ⟨out, d'⟩
  · rw [driverLoop, run_bind_of_error hstep] at hrun
    cases hrun
    exact absurd hstep (handler_not_asserts hcmd)
  · rw [driverLoop, run_bind_of_ok hstep] at hrun
    exact ⟨(), d', ⟨out, rfl⟩, hrun⟩

theorem evalMmValid_not_asserts {d d₀ : Driver Heap Payloads} {tracenum : Nat}
    {ops : List Request} (hstart : (evalMmValid mmPackage tracenum []).run d = .ok (true, d₀))
    (hops : HarmlessValid tracenum ops d₀) :
    (evalMmValid mmPackage tracenum ops).run d ≠ .error .assertion := by
  obtain ⟨h', -, hvalid, -⟩ := mm_started d
  rw [hvalid] at hstart ⊢
  cases hstart
  exact validRequests_not_asserts hops

theorem utilTotals_not_asserts {d d₀ : Driver Heap Payloads} {tracenum : Nat}
    {ops : List Request} {t : Option Totals}
    (hstart : (utilTotals mmPackage tracenum []).run d = .ok (t, d₀))
    (hops : HarmlessUtil tracenum ops d₀) :
    (utilTotals mmPackage tracenum ops).run d ≠ .error .assertion := by
  obtain ⟨h', -, -, hutil, -⟩ := mm_started d
  rw [hutil] at hstart ⊢
  cases hstart
  exact utilRequests_not_asserts hops

/-- The quotient at the end adds nothing to the run. -/
theorem evalMmUtil_not_asserts {d : Driver Heap Payloads} {tracenum : Nat} {ops : List Request}
    (htotals : (utilTotals mmPackage tracenum ops).run d ≠ .error .assertion) :
    (evalMmUtil mmPackage tracenum ops).run d ≠ .error .assertion := by
  intro hrun
  rcases hrest : (utilTotals mmPackage tracenum ops).run d with e | ⟨t, d'⟩
  · rw [evalMmUtil, run_bind_of_error hrest] at hrun
    cases hrun
    exact htotals hrest
  · rw [evalMmUtil, run_bind_of_ok hrest] at hrun
    rcases t with _ | t
    · cases hrun
    · cases hrun

theorem driver_not_asserts {d d₀ : Driver Heap ReplState} {cmds : List Command}
    (hstart : (driver []).run d = .ok ((), d₀)) (hcmds : HarmlessRepl cmds d₀) :
    (driver cmds).run d ≠ .error .assertion := by
  obtain ⟨out, d₁, hreset, hrest⟩ := run_bind_eq_ok hstart
  cases hrest
  rw [driver, run_bind_of_ok hreset]
  exact driverLoop_not_asserts hcmds

end Runs

section Steps

variable {cfg : Config}

theorem intSized_commandCall {t : ReplState} {cmd : Command} {c : Call}
    (hc : commandCall t cmd = some c) : c.IntSized := by
  cases cmd with
  | malloc index size =>
      obtain ⟨i, -, hi⟩ := Option.bind_eq_some_iff.mp hc
      split at hi
      · cases hi
      · cases hi
        exact isInt_signExtend size
  | realloc index size =>
      obtain ⟨i, -, rfl⟩ := Option.map_eq_some_iff.mp hc
      exact isInt_signExtend size
  | free index =>
      obtain ⟨i, -, hi⟩ := Option.bind_eq_some_iff.mp hc
      split at hi
      · cases hi
        trivial
      · cases hi
  | reset => cases hc
  | print block => cases hc

/-- A size that is not negative is harmless. -/
theorem negativeSized_of_harmful {h : Heap} {c : Call} (hharmful : ¬ Harmless h c) :
    NegativeSized c := by
  cases c with
  | malloc size => exact not_le.mp fun hsize => hharmful (.inl hsize)
  | free ptr => exact hharmful trivial
  | realloc ptr size => exact not_le.mp fun hsize => hharmful (.inl hsize)

/-- In a reachable heap the calls that run into the assertion are the harmful ones. -/
theorem negative_returns_iff (hreach : Reachable IntCalls cfg) {c : Call}
    (hlegal : c.Legal cfg.live) (hint : c.IntSized) :
    NegativeSized c ∧ ReturnsPayload mmPackage cfg.heap c ↔ ¬ Harmless cfg.heap c := by
  obtain ⟨L, hI⟩ := hreach.invariant served_intCalls
  constructor
  · rintro ⟨hneg, hreturns⟩
    exact (returnsPayload_iff hI hlegal hint hneg).mp hreturns
  · intro hharmful
    have hneg := negativeSized_of_harmful hharmful
    exact ⟨hneg, (returnsPayload_iff hI hlegal hint hneg).mpr hharmful⟩

/-- A driver on a reachable heap, with a legal pointer for the call of the request. -/
def OnReachable (cfg : Config) (d : Driver Heap Payloads) (op : Request) : Prop :=
  d.heap = cfg.heap ∧ (callOf d.table op).Legal cfg.live

def ReplOnReachable (cfg : Config) (d : Driver Heap ReplState) (cmd : Command) : Prop :=
  d.heap = cfg.heap ∧ ∀ c, commandCall d.table cmd = some c → c.Legal cfg.live

theorem validRequest_stopped_iff (hreach : Reachable IntCalls cfg) {d : Driver Heap Payloads}
    {op : Request} (hd : OnReachable cfg d op) (tracenum i : Nat) :
    (validRequest mmPackage tracenum i op).run d ≠ .error .assertion ↔ HarmlessRequest d op := by
  obtain ⟨hheap, hlegal⟩ := hd
  rw [Ne, validRequest_asserts_iff, HarmlessRequest, hheap,
    negative_returns_iff hreach hlegal (intSized_callOf _ op), not_not]

theorem utilRequest_stopped_iff (hreach : Reachable IntCalls cfg) {d : Driver Heap Payloads}
    {op : Request} (hd : OnReachable cfg d op) (tracenum i : Nat) (t : Totals) :
    (utilRequest mmPackage tracenum i t op).run d ≠ .error .assertion ↔ HarmlessRequest d op := by
  obtain ⟨hheap, hlegal⟩ := hd
  rw [Ne, utilRequest_asserts_iff, HarmlessRequest, hheap,
    negative_returns_iff hreach hlegal (intSized_callOf _ op), not_not]

theorem handler_stopped_iff (hreach : Reachable IntCalls cfg) {d : Driver Heap ReplState}
    {cmd : Command} (hd : ReplOnReachable cfg d cmd) :
    cmd.handler.run d ≠ .error .assertion ↔ HarmlessCommand d cmd := by
  obtain ⟨hheap, hlegal⟩ := hd
  rw [Ne, handler_asserts_iff, AsksNegative, HarmlessCommand, hheap]
  constructor
  · intro hnone c hc
    by_contra hharmful
    exact hnone ⟨c, hc, (negative_returns_iff hreach (hlegal c hc)
      (intSized_commandCall hc)).mpr hharmful⟩
  · rintro hharmless ⟨c, hc, hasks⟩
    exact (negative_returns_iff hreach (hlegal c hc) (intSized_commandCall hc)).mp hasks
      (hharmless c hc)

end Steps

/-- In every reachable heap the steps of the four callers that do not run into the assertion of
`add_range` are the harmless ones, and no run of harmless steps does. -/
theorem negative_size_stopped_iff {cfg : Config} (hreach : Reachable IntCalls cfg) :
    ((∀ (d : Driver Heap Payloads) (op : Request) (tracenum i : Nat), OnReachable cfg d op →
        ((validRequest mmPackage tracenum i op).run d ≠ .error .assertion ↔
          HarmlessRequest d op) ∧
        ∀ t, (utilRequest mmPackage tracenum i t op).run d ≠ .error .assertion ↔
          HarmlessRequest d op) ∧
      ∀ (d : Driver Heap ReplState) (cmd : Command), ReplOnReachable cfg d cmd →
        (cmd.handler.run d ≠ .error .assertion ↔ HarmlessCommand d cmd)) ∧
    (∀ (d d₀ : Driver Heap Payloads) (tracenum : Nat) (ops : List Request),
      ((evalMmValid mmPackage tracenum []).run d = .ok (true, d₀) →
        HarmlessValid tracenum ops d₀ →
        (evalMmValid mmPackage tracenum ops).run d ≠ .error .assertion) ∧
      ∀ t, (utilTotals mmPackage tracenum []).run d = .ok (t, d₀) →
        HarmlessUtil tracenum ops d₀ →
        (evalMmUtil mmPackage tracenum ops).run d ≠ .error .assertion) ∧
    ∀ (d d₀ : Driver Heap ReplState) (cmds : List Command), (driver []).run d = .ok ((), d₀) →
      HarmlessRepl cmds d₀ → (driver cmds).run d ≠ .error .assertion := by
  refine ⟨⟨?_, ?_⟩, ?_, ?_⟩
  · intro d op tracenum i hd
    exact ⟨validRequest_stopped_iff hreach hd tracenum i,
      fun t => utilRequest_stopped_iff hreach hd tracenum i t⟩
  · intro d cmd hd
    exact handler_stopped_iff hreach hd
  · intro d d₀ tracenum ops
    exact ⟨evalMmValid_not_asserts, fun t hstart hops =>
      evalMmUtil_not_asserts (utilTotals_not_asserts hstart hops)⟩
  · intro d d₀ cmds hstart hcmds
    exact driver_not_asserts hstart hcmds

section Sample

/-- A driver on the heap of the sample run. -/
def sampleDriver : Driver Heap Payloads := { sampleTraceDriver with heap := sampleHeap }

theorem negative_size_stopped_iff_sample :
    (validRequest mmPackage 0 0 (.alloc 0 8)).run sampleDriver ≠ .error .assertion ∧
      (utilRequest mmPackage 0 0 ⟨0, 0⟩ (.alloc 0 (-1))).run sampleDriver = .error .assertion := by
  have hsteps := (negative_size_stopped_iff sample_reachable_int).1.1
  obtain ⟨hpositive, -⟩ := hsteps sampleDriver (.alloc 0 8) 0 0 ⟨rfl, trivial⟩
  obtain ⟨-, hnegative⟩ := hsteps sampleDriver (.alloc 0 (-1)) 0 0 ⟨rfl, trivial⟩
  have hroom : ¬ Full sampleHeap := by
    rw [full_iff sample_run.2.represents (show (-1 : Word).toInt < 0 by decide)]
    decide
  constructor
  · rw [hpositive]
    exact .inl (by decide)
  · by_contra hnot
    have hsize : ¬ 0 ≤ ((-1 : BitVec 32).signExtend 64).toInt := by decide
    exact ((hnegative ⟨0, 0⟩).mp hnot).elim hsize hroom

variable {h : Heap}

/-- An empty heap serves `mm_malloc(-1)`. -/
theorem returnsPayload_empty {start : Nat} (hI : Invariant ⟨h, []⟩ (emptyLayout start))
    (hgranted : ((emptyLayout start).malloc (-1)).2 ≠ null) :
    ReturnsPayload mmPackage h (.malloc ((-1 : BitVec 32).signExtend 64)) := by
  obtain ⟨h', hrun, -⟩ := mmMalloc_run hI.represents
    (mallocServes_of_lt (show (-1 : Word).toInt < 2 ^ 31 by decide)).1
  have hsize : (-1 : BitVec 32).signExtend 64 = -1 := by decide
  rw [ReturnsPayload, hsize, exec_mmPackage]
  exact ⟨_, h', hrun, hgranted⟩

theorem granted_sample : ((emptyLayout sampleArena.start).malloc (-1)).2 ≠ null := by decide

end Sample

/-- A size of -1, from the REPL and from a trace (as 4294967295), ends in the assertion. -/
theorem negative_size_asserts :
    (driver [.malloc 0 (-1)]).run (replStart sampleArena fun _ => 255) = .error .assertion ∧
    (driver [.malloc 0 24, .realloc 0 (-1)]).run (replStart sampleArena fun _ => 255) =
      .error .assertion ∧
    (evalMmValid mmPackage 0 [.alloc 0 4294967295]).run sampleTraceDriver = .error .assertion ∧
    (evalMmUtil mmPackage 0 [.alloc 0 4294967295]).run sampleTraceDriver = .error .assertion := by
  have hneg : ((-1 : BitVec 32).signExtend 64).toInt < 0 := by decide
  refine ⟨?_, ?_, ?_⟩
  · obtain ⟨h', d₀, hreset, hI, hleaves⟩ := resetCmd_run (replStart sampleArena fun _ => 255)
    have hcall : commandCall d₀.table (.malloc 0 (-1)) =
        some (.malloc ((-1 : BitVec 32).signExtend 64)) := by
      have hblock : d₀.table.blocks 0 = ⟨false, null, 0, 0⟩ := congrFun hleaves.blocks 0
      have hindex : indexInTable 0 = some 0 := rfl
      simp only [commandCall, hindex, Option.bind_some, hblock]
      rfl
    have hasserts := (handler_asserts_iff (.malloc 0 (-1)) d₀).mpr
      ⟨_, hcall, hneg, hleaves.heap ▸ returnsPayload_empty hI granted_sample⟩
    rw [driver, run_bind_of_ok hreset, driverLoop, run_bind_of_error hasserts]
  · obtain ⟨d₀, d₁, hreset, hmalloc, -, hC, hvalid⟩ := sample_malloc
    have hzero : 0 < numBlocks := by decide
    obtain ⟨⟨L, hL⟩, -⟩ := hC.mm
    obtain ⟨hrun, hptr⟩ := mmRealloc_negative hL (hC.live hzero hvalid) hneg
    have hasserts := (handler_asserts_iff (.realloc 0 (-1)) d₁).mpr
      ⟨_, rfl, hneg, _, _, hrun, hptr⟩
    rw [driver, run_bind_of_ok hreset, driverLoop, run_bind_of_ok hmalloc, driverLoop,
      run_bind_of_error hasserts]
  · obtain ⟨h', hI, hvalid, hutil, -⟩ := mm_started sampleTraceDriver
    have hreturns := returnsPayload_empty hI granted_sample
    constructor
    · have hasserts : (validRequest mmPackage 0 0 (.alloc 0 4294967295)).run
          (started sampleTraceDriver h') = .error .assertion :=
        (validRequest_asserts_iff ..).mpr ⟨hneg, hreturns⟩
      rw [hvalid, validRequests, run_bind_of_error hasserts]
    · have hasserts : (utilRequest mmPackage 0 0 ⟨0, 0⟩ (.alloc 0 4294967295)).run
          (started sampleTraceDriver h') = .error .assertion :=
        (utilRequest_asserts_iff ..).mpr ⟨hneg, hreturns⟩
      rw [evalMmUtil, run_bind_of_error]
      rw [hutil, utilRequests, run_bind_of_error hasserts]

end MallocLab.NegativeSizes
