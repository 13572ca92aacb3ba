import MallocLab.PayloadStore
import MallocLab.Replays
import MallocLab.ReplInvariant

/-!
The verdict of `eval_mm_valid` on the package of `mm.c`, from the trace and the start of the
arena alone: the trace is replayed on layouts, and fails with the first request that returns
`NULL` for some bytes, or that moves data the comparison cannot read back.
-/

namespace MallocLab.TraceVerdict

open MallocLab.Machine
open MallocLab.Mm
open MallocLab.HeapPrograms
open MallocLab.HeapGrowth
open MallocLab.AbstractLayout
open MallocLab.AbstractLayout.Layout
open MallocLab.Representation
open MallocLab.Runs
open MallocLab.LiveBlocks
open MallocLab.DataPreservation
open MallocLab.MallocPackage
open MallocLab.Mdriver
open MallocLab.DriverPrograms
open MallocLab.DataCheck
open MallocLab.AllocatorContract
open MallocLab.TraceSteps
open MallocLab.TraceBookkeeping
open MallocLab.Replays
open MallocLab.ReplHoldings
open MallocLab.ReplInvariant
open MallocLab.PayloadStore

section Replay

/-- What is wrong with a request that returned `q`. -/
def complaintOf (q : Nat) : Request → Option Complaint
  | .alloc _ size => if q = null ∧ size ≠ 0 then some .mallocFailed else none
  | .realloc index size =>
      if q = null ∧ size ≠ 0 then some .reallocFailed
      else if 128 ≤ index &&& 0xFF then some .notPreserved
      else none
  | .free _ => none

/-- The tables after a request without complaint. -/
def tableAfter (t : Payloads) (q : Nat) : Request → Payloads
  | .alloc index size => if size = 0 then t else storePayload t index q (size.signExtend 64)
  | .realloc index size => storePayload t index q (size.signExtend 64)
  | .free _ => t

/-- A trace replayed on layouts: the last layout, or the request that fails. -/
def replay : Layout → Payloads → Nat → List Request → Except (Nat × Complaint) Layout
  | L, _, _, [] => .ok L
  | L, t, i, op :: ops =>
      match execLayout L (callOf t op) with
      | (L', q) =>
          match complaintOf q op with
          | some c => .error (i, c)
          | none => replay L' (tableAfter t q op) (i + 1) ops

def noPayloads : Payloads := ⟨fun _ => null, fun _ => 0⟩

/-- A trace replayed on an arena that starts there. -/
def replayFrom (start : Nat) (ops : List Request) : Except (Nat × Complaint) Layout :=
  replay (emptyLayout start) noPayloads 0 ops

end Replay

section Requests

variable {d d' : Driver Heap Payloads} {L : Layout} {t : Payloads} {held : Finset Nat}
  {op : Request} {ops : List Request} {tracenum i index q : Nat} {size : BitVec 32} {s : Heap}
  {L' : Layout} {live : Live}

/-- The driver between two requests, and the replay. -/
structure Follows (d : Driver Heap Payloads) (L : Layout) (t : Payloads) (held : Finset Nat) :
    Prop where
  books : Books MmInv d held
  layout : Invariant ⟨d.heap, liveOf d.issued⟩ L
  blocks : ∀ i ∈ held, d.table.blocks i = t.blocks i
  sizes : ∀ i ∈ held, ∃ size : BitVec 32, d.table.blockSizes i = size.signExtend 64
  filled : ∀ i ∈ held, Filled d.heap (i, d.table.blocks i, d.table.blockSizes i)

theorem Follows.callOf_eq (hF : Follows d L t held) (huses : Uses held op) :
    callOf d.table op = callOf t op := by
  cases op with
  | alloc index size => rfl
  | realloc index size => rw [callOf, callOf, hF.blocks index huses]
  | free index => rw [callOf, callOf, hF.blocks index huses]

/-- The call of a request does to the heap what the replay does to the layout. -/
theorem Follows.call (hF : Follows d L t held) (huses : Uses held op) :
    ∃ s, (mmPackage.exec (callOf d.table op)).run d.heap =
        .ok ((execLayout L (callOf t op)).2, s) ∧
      Invariant ⟨s, liveAfter (liveOf d.issued) (callOf d.table op) (execLayout L (callOf t op)).2⟩
        (execLayout L (callOf t op)).1 ∧
      ∀ r ∈ liveOf d.issued, r.1 ≠ argument (callOf d.table op) → Keeps d.heap s r := by
  have hlegal := hF.books.remembers.legal huses
  obtain ⟨s, hrun, hI⟩ := exec_run hF.layout hlegal (serves_of_int (intSized_callOf d.table op))
  rw [hF.callOf_eq huses] at hrun hI hlegal ⊢
  rw [exec_mmPackage]
  refine ⟨s, hrun, hI, fun r hr hne => ?_⟩
  exact exec_keeps hF.layout hlegal (intSized_callOf t op) (exec_mmPackage _ ▸ hrun) hr hne

/-- A payload is filled and stored for an id. -/
theorem follows_accept {d₁ : Driver Heap Payloads} {rest : Live} {s' : Heap} {t' : Payloads}
    (hlive : liveOf d₁.issued = (q, size.signExtend 64) :: rest)
    (hI : Invariant ⟨s, liveOf d₁.issued⟩ L) (hindex : index ∈ held)
    (hfill : (mmPackage.memset q (fillByte index) (size.signExtend 64).toNat).run s = .ok ((), s'))
    (hB : Books MmInv (accept d₁ s' index q size) held)
    (hblocks : ∀ i ∈ held, i ≠ index → d₁.table.blocks i = t'.blocks i)
    (hsizes : ∀ i ∈ held, i ≠ index → ∃ size : BitVec 32, d₁.table.blockSizes i = size.signExtend 64)
    (hfilled : ∀ i ∈ held, i ≠ index → Filled s (i, d₁.table.blocks i, d₁.table.blockSizes i)) :
    Follows (accept d₁ s' index q size) L (storePayload t' index q (size.signExtend 64)) held := by
  have hMm : MmInv s ((q, size.signExtend 64) :: rest) := by
    rw [← hlive]
    exact ⟨⟨L, hI⟩, hB.inv.2⟩
  obtain ⟨-, hnew, hkeeps⟩ := memset_filled hMm hfill
  have hmem : (q, size.signExtend 64) ∈ liveOf d₁.issued := by
    rw [hlive]
    exact List.mem_cons_self
  have hpos : 0 < (size.signExtend 64).toInt := hMm.2 _ List.mem_cons_self
  obtain ⟨hrun, hI'⟩ := memset_invariant hI hmem (toNat_le_of_pos hpos).le (fillByte index)
  obtain ⟨-, rfl⟩ := Prod.mk.inj (Except.ok.inj (hfill.symm.trans hrun))
  have hself : ∀ {α : Type} (f : Nat → α) (a : α), Function.update f index a index = a :=
    fun f a => Function.update_self ..
  have hother : ∀ {α : Type} (f : Nat → α) (a : α) {j : Nat}, j ≠ index →
      Function.update f index a j = f j := fun f a _ hne => Function.update_of_ne hne _ _
  refine ⟨hB, hI', fun j hj => ?_, fun j hj => ?_, fun j hj => ?_⟩
  · simp only [accept, storePayload]
    rcases Decidable.em (j = index) with rfl | hne
    · rw [hself, hself]
    · rw [hother _ _ hne, hother _ _ hne]
      exact hblocks j hj hne
  · simp only [accept, storePayload]
    rcases Decidable.em (j = index) with rfl | hne
    · exact ⟨size, hself _ _⟩
    · rw [hother _ _ hne]
      exact hsizes j hj hne
  · rcases Decidable.em (j = index) with rfl | hne
    · simp only [accept, storePayload, hself]
      exact hnew
    · have hpayload := hB.remembers.mem j hj
      have hinj := hB.remembers.inj j hj index hindex
      simp only [accept, storePayload, hself, hother _ _ hne] at hpayload hinj ⊢
      rw [hlive] at hpayload
      rcases List.mem_cons.mp hpayload with heq | hrest
      · exact absurd (hinj (congrArg Prod.fst heq)) hne
      · exact (hfilled j hj hne).keeps (hkeeps _ hrest)

theorem Follows.block_ne_null (hF : Follows d L t held) (hindex : index ∈ held) :
    d.table.blocks index ≠ null := hF.books.block_ne_null mm_contract hindex

/-- An 'a' for no bytes. -/
theorem Follows.nothing (hF : Follows d L t held) (tracenum i index : Nat) :
    ∃ d', (validRequest mmPackage tracenum i (.alloc index 0)).run d = .ok (true, d') ∧
      d'.errors = d.errors ∧ (execLayout L (callOf t (.alloc index 0))).2 = null ∧
      Follows d' (execLayout L (callOf t (.alloc index 0))).1 t held := by
  have huses : Uses held (.alloc index 0) := trivial
  have hzero : ZeroSized (.alloc index 0) := rfl
  have hnull : (execLayout L (callOf t (.alloc index 0))).2 = null :=
    WellFormed.malloc_eq_null_iff.mpr (.inl rfl)
  obtain ⟨s, hcall, hI, hkeeps⟩ := hF.call huses
  obtain ⟨d', hrun, hB, herrors⟩ := hF.books.nothing mm_contract tracenum i index
  rw [validRequest_nothing tracenum i hzero hcall] at hrun
  obtain ⟨-, rfl⟩ := Prod.mk.inj (Except.ok.inj hrun)
  refine ⟨_, validRequest_nothing tracenum i hzero hcall, herrors, hnull, hB, ?_, hF.blocks,
    hF.sizes, fun j hj => ?_⟩
  · rw [hnull] at hI ⊢
    change Invariant ⟨s, liveOf (issue d s index (.malloc 0) null).issued⟩ _
    rw [liveOf_issue]
    exact hI
  · have hne := hF.block_ne_null hj
    exact (hF.filled j hj).keeps (hkeeps _ (hF.books.remembers.mem j hj) hne)

theorem Follows.alloc (hF : Follows d L t held) (tracenum i index : Nat) (hpos : 0 < size.toInt)
    (hq : (execLayout L (callOf t (.alloc index size))).2 ≠ null) :
    ∃ d', (validRequest mmPackage tracenum i (.alloc index size)).run d = .ok (true, d') ∧
      d'.errors = d.errors ∧ Follows d' (execLayout L (callOf t (.alloc index size))).1
        (storePayload t index (execLayout L (callOf t (.alloc index size))).2 (size.signExtend 64))
        (insert index held) := by
  have huses : Uses held (.alloc index size) := trivial
  obtain ⟨s, hcall, hI, hkeeps⟩ := hF.call huses
  obtain ⟨b, d', hrun, -, -, hbooks, hfails⟩ := hF.books.alloc mm_contract tracenum i index hpos
  rcases b with _ | _
  · obtain ⟨s', hcall'⟩ := hfails rfl
    exact absurd (congrArg Prod.fst (Except.ok.inj (hcall.symm.trans hcall'))) hq
  · refine ⟨d', hrun, (validRequest_true hrun).errors, ?_⟩
    have hB := hbooks rfl
    cases validRequest_true hrun with
    | nothing hzero => exact absurd hzero (ne_zero_of_toInt_pos hpos)
    | alloc hcall' _ _ _ hfill =>
        obtain ⟨rfl, rfl⟩ := Prod.mk.inj (Except.ok.inj (hcall.symm.trans hcall'))
        have hmem : ∀ j ∈ insert index held, j ≠ index → j ∈ held := fun j hj hne =>
          (Finset.mem_insert.mp hj).resolve_left hne
        have hlive : liveOf (issue d s index (.malloc (size.signExtend 64)) _).issued =
            (_, size.signExtend 64) :: liveOf d.issued :=
          (liveOf_issue d s index _ _).trans (if_neg hq)
        refine follows_accept hlive ?_ (Finset.mem_insert_self index held) hfill hB
          (fun j hj hne => hF.blocks j (hmem j hj hne)) (fun j hj hne => hF.sizes j (hmem j hj hne))
          fun j hj hne => ?_
        · rw [liveOf_issue]
          exact hI
        · have hheld := hmem j hj hne
          have hnot := hF.block_ne_null hheld
          exact (hF.filled j hheld).keeps (hkeeps _ (hF.books.remembers.mem j hheld) hnot)

theorem Follows.free (hF : Follows d L t held) (tracenum i : Nat) (hindex : index ∈ held) :
    ∃ d', (validRequest mmPackage tracenum i (.free index)).run d = .ok (true, d') ∧
      d'.errors = d.errors ∧
      Follows d' (execLayout L (callOf t (.free index))).1 t (held.erase index) := by
  have huses : Uses held (.free index) := hindex
  obtain ⟨s, hcall, hI, hkeeps⟩ := hF.call huses
  obtain ⟨d', hrun, hB, herrors⟩ := hF.books.free mm_contract tracenum i hindex
  rw [validRequest_free hcall] at hrun
  obtain ⟨-, rfl⟩ := Prod.mk.inj (Except.ok.inj hrun)
  refine ⟨_, validRequest_free hcall, herrors, hB, ?_, fun j hj => ?_, fun j hj => ?_,
    fun j hj => ?_⟩
  · change Invariant ⟨s, liveOf (issue (drop d _) s index (.free _) _).issued⟩ _
    rw [liveOf_issue]
    exact hI
  · exact hF.blocks j (Finset.mem_of_mem_erase hj)
  · exact hF.sizes j (Finset.mem_of_mem_erase hj)
  · obtain ⟨hne, hheld⟩ := Finset.mem_erase.mp hj
    refine (hF.filled j hheld).keeps (hkeeps _ (hF.books.remembers.mem j hheld) fun heq => hne ?_)
    exact hF.books.remembers.inj j hheld index hindex heq

/-- The data that `mm_realloc` brought is what the driver filled in, and the comparison takes
it for that if the id has a low byte that a signed character can have. -/
theorem Follows.compare (hF : Follows d L t held) (hindex : index ∈ held) (hpos : 0 < size.toInt)
    (hcall : (mmPackage.exec (.realloc (d.table.blocks index) (size.signExtend 64))).run d.heap =
      .ok (q, s)) (hq : q ≠ null) (hI : Invariant ⟨s, (q, size.signExtend 64) :: live⟩ L') :
    compareData mmPackage s q index (d.table.blockSizes index) size =
      .ok (decide (index &&& 0xFF < 128)) := by
  obtain ⟨oldsize, hold⟩ := hF.sizes index hindex
  have hlive := hF.books.remembers.mem index hindex
  have hfilled := hF.filled index hindex
  rw [hold] at hlive hfilled ⊢
  have hint : IsInt (size.signExtend 64) := intSized_callOf d.table (.alloc index size)
  have hsize : size.signExtend 64 ≠ 0 := signExtend_ne_zero hpos
  have hoex : (oldsize.signExtend 64).toInt = oldsize.toInt :=
    BitVec.toInt_signExtend_of_le (by decide)
  have hex : (size.signExtend 64).toInt = size.toInt := BitVec.toInt_signExtend_of_le (by decide)
  have hopos : 0 < oldsize.toInt := hoex ▸ hF.books.inv.2 _ hlive
  have hbytes : ∀ k < checkedBytes oldsize size, s.memory (q + k) = fillByte index := by
    intro k hk
    have hk' : (k : Int) < min oldsize.toInt size.toInt := Int.lt_toNat.mp hk
    have hkold : k < extent (oldsize.signExtend 64) := lt_extent.mpr (by omega)
    have hknew : k < extent (size.signExtend 64) := lt_extent.mpr (by omega)
    rw [exec_mmPackage] at hcall
    have hmoved := realloc_moves hF.layout hlive hint hsize hcall hq hkold hknew
    exact hmoved.trans (hfilled _ (mem_requested (r := (_, _)) hkold))
  have hin : s.InHeap q (checkedBytes oldsize size) := by
    refine (payload_inHeap hI List.mem_cons_self ?_).1
    rw [hex, checkedBytes]
    omega
  rw [compareData_heap hin]
  congr 1
  apply decide_eq_decide.mpr
  constructor
  · intro hall
    apply Nat.lt_of_not_le
    intro hlarge
    exact not_passes hlarge _ (hall 0 (by unfold checkedBytes; omega))
  · intro hsmall k hk
    exact (passes_iff hsmall).mpr (hbytes k hk)

theorem Follows.realloc (hF : Follows d L t held) (tracenum i : Nat) (hindex : index ∈ held)
    (hpos : 0 < size.toInt) (hq : (execLayout L (callOf t (.realloc index size))).2 ≠ null) :
    ∃ d', (validRequest mmPackage tracenum i (.realloc index size)).run d =
        .ok (decide (index &&& 0xFF < 128), d') ∧
      (128 ≤ index &&& 0xFF → d'.errors = d.errors ++ [⟨tracenum, linenum i, .notPreserved⟩]) ∧
      (index &&& 0xFF < 128 → d'.errors = d.errors ∧
        Follows d' (execLayout L (callOf t (.realloc index size))).1
          (storePayload t index (execLayout L (callOf t (.realloc index size))).2
            (size.signExtend 64)) held) := by
  have huses : Uses held (.realloc index size) := hindex
  have hptr := hF.block_ne_null hindex
  have hsize : size.signExtend 64 ≠ 0 := signExtend_ne_zero hpos
  obtain ⟨s, hcall, hI, hkeeps⟩ := hF.call huses
  generalize execLayout L (callOf t (.realloc index size)) = r at *
  obtain ⟨L', q⟩ := r
  dsimp only at hcall hI hq ⊢
  have hafter : ∀ q ≠ null, liveAfter (liveOf d.issued) (callOf d.table (.realloc index size)) q =
      (q, size.signExtend 64) ::
        (liveOf d.issued).filter fun e => e.1 ≠ d.table.blocks index := by
    intro q hq
    rw [callOf, liveAfter, if_neg hptr, if_neg hsize, if_neg hq]
  obtain ⟨q', s', hcall', hinv, -⟩ := hF.books.call mm_contract (.realloc index size) huses hpos.le
  obtain ⟨rfl, rfl⟩ := Prod.mk.inj (Except.ok.inj (hcall.symm.trans hcall'))
  rw [hafter q hq] at hI hinv
  have hdata := hF.compare hindex hpos hcall hq hI
  have hfine : payloadError mmPackage (moved d s index (d.table.blocks index) q size) q size =
      none :=
    payload_fine mm_contract hinv (eraseP_release (keys_nodup mm_contract hF.books.inv)
      (hF.books.remembers.mem index hindex) hF.books.inStep.ranges)
  obtain ⟨s₁, hfill, -⟩ := mm_contract.memset _ _ hinv _ List.mem_cons_self (fillByte index)
  have hvalid : (validRequest mmPackage tracenum i (.realloc index size)).run d = _ :=
    validRequest_realloc hcall hq hpos hfine hdata hfill
  refine ⟨_, hvalid, fun hlarge => ?_, fun hsmall => ?_⟩
  · rw [if_neg (by simpa using hlarge)]
    rfl
  · obtain ⟨b, d', hrun, -, -, hbooks⟩ := hF.books.realloc mm_contract tracenum i hindex hpos
    obtain ⟨rfl, rfl⟩ := Prod.mk.inj (Except.ok.inj (hvalid.symm.trans hrun))
    have hB := hbooks (decide_eq_true hsmall)
    rw [if_pos (decide_eq_true hsmall)] at hB ⊢
    refine ⟨rfl, ?_⟩
    have hlive : liveOf (moved d s index (d.table.blocks index) q size).issued = _ :=
      (liveOf_issue d s index _ _).trans (hafter _ hq)
    refine follows_accept hlive (hlive ▸ hI) hindex hfill hB (fun j hj _ => hF.blocks j hj)
      (fun j hj _ => hF.sizes j hj) fun j hj hne => ?_
    refine (hF.filled j hj).keeps (hkeeps _ (hF.books.remembers.mem j hj) fun heq => hne ?_)
    exact hF.books.remembers.inj j hj index hindex heq

/-- What the replay says of a request is what `eval_mm_valid` does with it. -/
theorem Follows.request (hF : Follows d L t held) (tracenum i : Nat) (huses : Uses held op)
    (hsize : SizeNonneg op) (hnonzero : ∀ index, op ≠ .realloc index 0) {L' : Layout} {q : Nat}
    (hexec : execLayout L (callOf t op) = (L', q)) :
    ∃ d', (validRequest mmPackage tracenum i op).run d = .ok ((complaintOf q op).isNone, d') ∧
      d'.errors = d.errors ++ ((complaintOf q op).map fun c => ⟨tracenum, linenum i, c⟩).toList ∧
      (complaintOf q op = none → Follows d' L' (tableAfter t q op) (holdingAfter held op)) := by
  obtain ⟨s, hcall, -⟩ := hF.call huses
  rw [hexec] at hcall
  cases op with
  | alloc index size =>
      rcases Decidable.em (size = 0) with rfl | hne
      · obtain ⟨d', hrun, herrors, -, hF'⟩ := hF.nothing tracenum i index
        rw [hexec] at hF'
        have hfine : complaintOf q (.alloc index 0) = none := if_neg fun hfail => hfail.2 rfl
        rw [hfine]
        refine ⟨d', hrun, herrors.trans (List.append_nil _).symm, fun _ => ?_⟩
        rw [tableAfter, if_pos rfl, holdingAfter, if_pos rfl]
        exact hF'
      · have hpos := toInt_pos hsize hne
        rcases Decidable.em (q = null) with rfl | hq
        · have hfail : complaintOf null (.alloc index size) = some .mallocFailed := if_pos ⟨rfl, hne⟩
          rw [hfail]
          exact ⟨_, validRequest_alloc_fails hne hcall, rfl, fun hnone => by cases hnone⟩
        · obtain ⟨d', hrun, herrors, hF'⟩ := hF.alloc tracenum i index hpos (by rwa [hexec])
          rw [hexec] at hF'
          have hfine : complaintOf q (.alloc index size) = none := if_neg fun hfail => hq hfail.1
          rw [hfine]
          refine ⟨d', hrun, herrors.trans (List.append_nil _).symm, fun _ => ?_⟩
          rw [tableAfter, if_neg hne, holdingAfter, if_neg hne]
          exact hF'
  | realloc index size =>
      have hne : size ≠ 0 := by
        rintro rfl
        exact hnonzero index rfl
      have hpos := toInt_pos hsize hne
      rcases Decidable.em (q = null) with rfl | hq
      · have hfail : complaintOf null (.realloc index size) = some .reallocFailed :=
          if_pos ⟨rfl, hne⟩
        rw [hfail]
        exact ⟨_, validRequest_realloc_fails hne hcall, rfl, fun hnone => by cases hnone⟩
      · obtain ⟨d', hrun, hlarge, hsmall⟩ := hF.realloc tracenum i huses hpos (by rwa [hexec])
        rw [hexec] at hsmall
        have hserved : ¬ (q = null ∧ size ≠ 0) := fun hfail => hq hfail.1
        rw [complaintOf, if_neg hserved]
        rcases Nat.lt_or_ge (index &&& 0xFF) 128 with hlow | hhigh
        · obtain ⟨herrors, hF'⟩ := hsmall hlow
          rw [decide_eq_true hlow] at hrun
          rw [if_neg (Nat.not_le.mpr hlow)]
          refine ⟨d', hrun, herrors.trans (List.append_nil _).symm, fun _ => ?_⟩
          rw [tableAfter, holdingAfter, if_neg hne]
          exact hF'
        · rw [decide_eq_false (Nat.not_lt.mpr hhigh)] at hrun
          rw [if_pos hhigh]
          exact ⟨d', hrun, hlarge hhigh, fun hnone => by cases hnone⟩
  | free index =>
      obtain ⟨d', hrun, herrors, hF'⟩ := hF.free tracenum i huses
      rw [hexec] at hF'
      exact ⟨d', hrun, herrors.trans (List.append_nil _).symm, fun _ => hF'⟩

/-- A run of `eval_mm_valid` ends like the replay. -/
theorem Follows.requests (hF : Follows d L t held) (tracenum i : Nat) (huses : UsesHeld held ops)
    (hsizes : ∀ op ∈ ops, SizeNonneg op) (hnonzero : NoZeroRealloc ops) :
    ∃ d', (validRequests mmPackage tracenum i ops).run d = .ok ((replay L t i ops).isOk, d') ∧
      (∀ L', replay L t i ops = .ok L' →
        d'.errors = d.errors ∧ Invariant ⟨d'.heap, liveOf d'.issued⟩ L') ∧
      ∀ j c, replay L t i ops = .error (j, c) →
        d'.errors = d.errors ++ [⟨tracenum, linenum j, c⟩] := by
  induction ops generalizing d L t held i with
  | nil =>
      refine ⟨d, rfl, fun L' hL => ?_, fun j c herror => by cases herror⟩
      cases hL
      exact ⟨rfl, hF.layout⟩
  | cons op ops ih =>
      obtain ⟨hop, hops⟩ := List.forall_mem_cons.mp hsizes
      have hnz : ∀ index, op ≠ .realloc index 0 := by
        rintro index rfl
        exact hnonzero index List.mem_cons_self
      rcases hexec : execLayout L (callOf t op) with ⟨L', q⟩
      obtain ⟨d₁, hrun, herrors, hF'⟩ := hF.request tracenum i huses.1 hop hnz hexec
      rw [validRequests, run_bind_of_ok hrun, replay]
      simp only [hexec]
      rcases hcomplaint : complaintOf q op with _ | c
      · rw [hcomplaint] at herrors
        have hsame : d₁.errors = d.errors := herrors.trans (List.append_nil _)
        rw [← hsame]
        exact ih (hF' hcomplaint) (i + 1) huses.2 hops fun index hmem =>
          hnonzero index (List.mem_cons_of_mem _ hmem)
      · rw [hcomplaint] at herrors
        refine ⟨d₁, rfl, ?_, ?_⟩
        · rintro L'' ⟨⟩
        · rintro j c ⟨⟩
          exact herrors

theorem follows_started {h : Heap} {start : Nat} (hI : Invariant ⟨h, []⟩ (emptyLayout start))
    (d : Driver Heap Payloads) : Follows (started d h) (emptyLayout start) noPayloads ∅ := by
  refine ⟨⟨⟨.nil, fun before e after heq => ?_⟩, ⟨⟨_, hI⟩, ?_⟩, .empty _⟩, hI, ?_, ?_, ?_⟩
  · exact absurd heq (by simp [started])
  · exact fun e he => absurd he List.not_mem_nil
  · exact fun i hi => absurd hi (Finset.notMem_empty i)
  · exact fun i hi => absurd hi (Finset.notMem_empty i)
  · exact fun i hi => absurd hi (Finset.notMem_empty i)

end Requests

/-- For a trace in which every 'r' and 'f' is about an id that holds a payload and no 'r' has
size zero, `eval_mm_valid` returns 1 exactly if the replay on layouts gets to its end, with the
heap as long as the last layout; otherwise it reports the request that fails there, and nothing
else.  The bytes of the heap and of the tables have no part in it. -/
theorem verdict_of_replay {ops : List Request} (huses : UsesHeld ∅ ops)
    (hsizes : ∀ op ∈ ops, SizeNonneg op) (hnonzero : NoZeroRealloc ops) (tracenum : Nat)
    (d : Driver Heap Payloads) :
    ∃ d', (evalMmValid mmPackage tracenum ops).run d =
        .ok ((replayFrom d.heap.arena.start ops).isOk, d') ∧
      (∀ L, replayFrom d.heap.arena.start ops = .ok L →
        d'.errors = d.errors ∧ d'.heap.memHeapsize = L.brk - L.start) ∧
      ∀ i c, replayFrom d.heap.arena.start ops = .error (i, c) →
        d'.errors = d.errors ++ [⟨tracenum, linenum i, c⟩] := by
  obtain ⟨h, hI, hvalid, -⟩ := mm_started d
  obtain ⟨d', hrun, hok, herror⟩ :=
    (follows_started hI d).requests tracenum 0 huses hsizes hnonzero
  rw [hvalid]
  refine ⟨d', hrun, fun L hL => ?_, herror⟩
  obtain ⟨herrors, hI'⟩ := hok L hL
  refine ⟨herrors, ?_⟩
  rw [Heap.memHeapsize, hI'.represents.memBrk, hI'.represents.base]

/-- The second payload moves, but its id is one that the comparison cannot check. -/
theorem verdict_of_replay_sample : ∃ d',
    (evalMmValid mmPackage 0 [.alloc 0 24, .alloc 200 8, .realloc 0 60, .realloc 200 40, .free 0]).run
      sampleTraceDriver = .ok (false, d') ∧
    d'.errors = sampleTraceDriver.errors ++ [⟨0, 8, .notPreserved⟩] := by
  have hnonzero : NoZeroRealloc
      [.alloc 0 24, .alloc 200 8, .realloc 0 60, .realloc 200 40, .free 0] := by
    intro index hmem
    simp at hmem
  obtain ⟨d', hrun, -, herror⟩ :=
    verdict_of_replay (by decide) (by decide) hnonzero 0 sampleTraceDriver
  exact ⟨d', hrun, herror 3 .notPreserved rfl⟩

end MallocLab.TraceVerdict
