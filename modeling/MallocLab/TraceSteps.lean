import Mathlib.Data.Finset.Basic
import MallocLab.AllocatorContract

/-!
Requests of a trace: the ids that hold a payload, the calls made for them, and what
a request does that `eval_mm_valid` and `eval_mm_util` process without complaint.
-/

namespace MallocLab.TraceSteps

open MallocLab.WordBits
open MallocLab.Machine
open MallocLab.HeapPrograms
open MallocLab.HeapGrowth
open MallocLab.Runs
open MallocLab.Determinism
open MallocLab.MallocPackage
open MallocLab.Mdriver
open MallocLab.DriverPrograms
open MallocLab.AllocatorContract

section Discipline

variable {op : Request}

/-- The request asks for no bytes. -/
def ZeroSized : Request → Prop
  | .alloc _ size => size = 0
  | .realloc _ size => size = 0
  | .free _ => False

instance : DecidablePred ZeroSized := fun op =>
  match op with
  | .alloc _ size => inferInstanceAs (Decidable (size = 0))
  | .realloc _ size => inferInstanceAs (Decidable (size = 0))
  | .free _ => inferInstanceAs (Decidable False)

/-- The size of the request is not negative. -/
def SizeNonneg : Request → Prop
  | .alloc _ size => 0 ≤ size.toInt
  | .realloc _ size => 0 ≤ size.toInt
  | .free _ => True

instance : DecidablePred SizeNonneg := fun op =>
  match op with
  | .alloc _ size => inferInstanceAs (Decidable (0 ≤ size.toInt))
  | .realloc _ size => inferInstanceAs (Decidable (0 ≤ size.toInt))
  | .free _ => inferInstanceAs (Decidable True)

/-- The ids that hold a payload after the request, of those that do before it. -/
def holdingAfter (held : Finset Nat) : Request → Finset Nat
  | .alloc index size => if size = 0 then held else insert index held
  | .realloc index size => if size = 0 then held.erase index else held
  | .free index => held.erase index

/-- A payload that the request moves or frees is there. -/
def Uses (held : Finset Nat) : Request → Prop
  | .alloc _ _ => True
  | .realloc index _ => index ∈ held
  | .free index => index ∈ held

/-- Every 'r' and 'f' of the trace is about an id that holds a payload. -/
def UsesHeld : Finset Nat → List Request → Prop
  | _, [] => True
  | held, op :: ops => Uses held op ∧ UsesHeld (holdingAfter held op) ops

instance (held : Finset Nat) : DecidablePred (Uses held) := fun op =>
  match op with
  | .alloc _ _ => inferInstanceAs (Decidable True)
  | .realloc index _ => inferInstanceAs (Decidable (index ∈ held))
  | .free index => inferInstanceAs (Decidable (index ∈ held))

instance decidableUsesHeld :
    (held : Finset Nat) → (ops : List Request) → Decidable (UsesHeld held ops)
  | _, [] => inferInstanceAs (Decidable True)
  | held, op :: ops =>
      have := decidableUsesHeld (holdingAfter held op) ops
      inferInstanceAs (Decidable (_ ∧ _))

def indexOf : Request → Nat
  | .alloc index _ => index
  | .realloc index _ => index
  | .free index => index

/-- The call that the driver makes for a request. -/
def callOf (t : Payloads) : Request → Call
  | .alloc _ size => .malloc (size.signExtend 64)
  | .realloc index size => .realloc (t.blocks index) (size.signExtend 64)
  | .free index => .free (t.blocks index)

/-- The payloads that are live after the calls of the log. -/
def liveOf (issued : List Issued) : Live :=
  issued.foldl (fun live e => liveAfter live e.call e.result) []

theorem signExtend_eq_zero_iff {size : BitVec 32} : size.signExtend 64 = 0 ↔ size = 0 := by
  constructor
  · intro hzero
    have hnarrow := setWidth_signExtend (n := 32) (m := 64) (by decide) size
    rw [hzero] at hnarrow
    exact hnarrow.symm
  · rintro rfl
    rfl

theorem asksNothing_iff (t : Payloads) : AsksNothing (callOf t op) ↔ ZeroSized op := by
  cases op with
  | alloc index size => exact signExtend_eq_zero_iff
  | realloc index size => exact signExtend_eq_zero_iff
  | free index => exact Iff.rfl

theorem isInt_signExtend (size : BitVec 32) : IsInt (size.signExtend 64) := by
  rw [IsInt, BitVec.toInt_signExtend_of_le (by decide)]
  exact ⟨size.le_toInt, size.toInt_lt⟩

theorem intSized_callOf (t : Payloads) (op : Request) : (callOf t op).IntSized := by
  cases op with
  | alloc index size => exact isInt_signExtend size
  | realloc index size => exact isInt_signExtend size
  | free index => trivial

theorem nonNegative_callOf (t : Payloads) (hsize : SizeNonneg op) :
    NonNegative (callOf t op) := by
  have hint : ∀ size : BitVec 32, 0 ≤ size.toInt →
      0 ≤ (size.signExtend 64).toInt ∧ (size.signExtend 64).toInt < 2 ^ 31 := by
    intro size hsize
    refine ⟨?_, (isInt_signExtend size).2⟩
    rwa [BitVec.toInt_signExtend_of_le (by decide)]
  cases op with
  | alloc index size => exact hint size hsize
  | realloc index size => exact hint size hsize
  | free index => trivial

theorem liveOf_concat (issued : List Issued) (e : Issued) :
    liveOf (issued ++ [e]) = liveAfter (liveOf issued) e.call e.result := List.foldl_concat ..

theorem liveOf_issue {σ τ : Type} (d : Driver σ τ) (s : σ) (index q : Nat) (c : Call) :
    liveOf (issue d s index c q).issued = liveAfter (liveOf d.issued) c q := liveOf_concat ..

end Discipline

section Holding

variable {live : Live} {t : Payloads} {held : Finset Nat} {index q : Nat} {size : Word}

/-- The tables name the payload of every id that holds one. -/
structure Remembers (t : Payloads) (live : Live) (held : Finset Nat) : Prop where
  mem : ∀ i ∈ held, (t.blocks i, t.blockSizes i) ∈ live
  inj : ∀ i ∈ held, ∀ j ∈ held, t.blocks i = t.blocks j → i = j

/-- The tables after a payload is stored. -/
def storePayload (t : Payloads) (index p : Nat) (size : Word) : Payloads where
  blocks := Function.update t.blocks index p
  blockSizes := Function.update t.blockSizes index size

theorem Remembers.empty (t : Payloads) : Remembers t [] ∅ where
  mem i hi := absurd hi (Finset.notMem_empty i)
  inj i hi := absurd hi (Finset.notMem_empty i)

theorem Remembers.release (hR : Remembers t live held) (hindex : index ∈ held) :
    Remembers t (live.filter fun e => e.1 ≠ t.blocks index) (held.erase index) where
  mem i hi := by
    obtain ⟨hne, hi⟩ := Finset.mem_erase.mp hi
    refine List.mem_filter.mpr ⟨hR.mem i hi, decide_eq_true fun heq => ?_⟩
    exact hne (hR.inj i hi index hindex heq)
  inj i hi j hj := hR.inj i (Finset.mem_of_mem_erase hi) j (Finset.mem_of_mem_erase hj)

theorem Remembers.store (hR : Remembers t live held) (hfresh : q ∉ live.map Prod.fst) :
    Remembers (storePayload t index q size) ((q, size) :: live) (insert index held) := by
  have hblock : (storePayload t index q size).blocks index = q := Function.update_self ..
  have hsize : (storePayload t index q size).blockSizes index = size := Function.update_self ..
  have hother : ∀ i, i ≠ index → (storePayload t index q size).blocks i = t.blocks i ∧
      (storePayload t index q size).blockSizes i = t.blockSizes i :=
    fun i hne => ⟨Function.update_of_ne hne .., Function.update_of_ne hne ..⟩
  have hnew : ∀ i ∈ held, t.blocks i ≠ q := by
    rintro i hi rfl
    exact hfresh (List.mem_map.mpr ⟨_, hR.mem i hi, rfl⟩)
  have hheld : ∀ i ∈ insert index held, i ≠ index → i ∈ held :=
    fun i hi hne => (Finset.mem_insert.mp hi).resolve_left hne
  constructor
  · intro i hi
    rcases Decidable.em (i = index) with rfl | hne
    · rw [hblock, hsize]
      exact List.mem_cons_self
    · rw [(hother i hne).1, (hother i hne).2]
      exact List.mem_cons_of_mem _ (hR.mem i (hheld i hi hne))
  · intro i hi j hj heq
    rcases Decidable.em (i = index) with rfl | hine
    · rcases Decidable.em (j = i) with rfl | hjne
      · rfl
      · rw [hblock, (hother j hjne).1] at heq
        exact absurd heq.symm (hnew j (hheld j hj hjne))
    · rcases Decidable.em (j = index) with rfl | hjne
      · rw [hblock, (hother i hine).1] at heq
        exact absurd heq (hnew i (hheld i hi hine))
      · rw [(hother i hine).1, (hother j hjne).1] at heq
        exact hR.inj i (hheld i hi hine) j (hheld j hj hjne) heq

theorem Remembers.move (hR : Remembers t live held) (hindex : index ∈ held)
    (hfresh : q ∉ (live.filter fun e => e.1 ≠ t.blocks index).map Prod.fst) :
    Remembers (storePayload t index q size)
      ((q, size) :: live.filter fun e => e.1 ≠ t.blocks index) held := by
  have hmoved : Remembers (storePayload t index q size) _ (insert index (held.erase index)) :=
    (hR.release hindex).store hfresh
  rwa [Finset.insert_erase hindex] at hmoved

/-- The driver passes only pointers of live payloads. -/
theorem Remembers.legal (hR : Remembers t live held) {op : Request} (huses : Uses held op) :
    (callOf t op).Legal live := by
  cases op with
  | alloc index size => trivial
  | realloc index size => exact .inr ⟨_, hR.mem index huses⟩
  | free index => exact .inr ⟨_, hR.mem index huses⟩

end Holding

section Processing

variable {σ : Type} {P : Package σ} {d d' : Driver σ Payloads} {op : Request}
  {tracenum i : Nat} {t : Totals}

/-- The driver after it found nothing wrong with a payload, filled and stored it. -/
def accept (d : Driver σ Payloads) (s : σ) (index q : Nat) (size : BitVec 32) :
    Driver σ Payloads where
  heap := s
  ranges := payloadRange q size :: d.ranges
  errors := d.errors
  issued := d.issued
  table := storePayload d.table index q (size.signExtend 64)

/-- The driver after a payload moved from `p` to `q`, before the new payload is checked. -/
def moved (d : Driver σ Payloads) (s : σ) (index p q : Nat) (size : BitVec 32) :
    Driver σ Payloads :=
  drop (issue d s index (.realloc p (size.signExtend 64)) q) p

theorem removeRange_moved (d : Driver σ Payloads) (s : σ) (index p q : Nat) (size : BitVec 32) :
    (removeRange p).run (issue d s index (.realloc p (size.signExtend 64)) q) =
      .ok ((), moved d s index p q size) := rfl

/-- What a request does that is processed without complaint. -/
inductive Processed (P : Package σ) (d : Driver σ Payloads) :
    Request → Driver σ Payloads → Prop where
  | nothing {op : Request} {q : Nat} {s : σ} (hzero : ZeroSized op)
      (hcall : (P.exec (callOf d.table op)).run d.heap = .ok (q, s)) :
      Processed P d op (issue d s (indexOf op) (callOf d.table op) q)
  | alloc {index q : Nat} {size : BitVec 32} {s s' : σ}
      (hcall : (P.exec (.malloc (size.signExtend 64))).run d.heap = .ok (q, s))
      (hq : q ≠ null) (hpos : 0 < size.toInt)
      (hfine : payloadError P (issue d s index (.malloc (size.signExtend 64)) q) q size = none)
      (hfill : (P.memset q (fillByte index) (size.signExtend 64).toNat).run s = .ok ((), s')) :
      Processed P d (.alloc index size)
        (accept (issue d s index (.malloc (size.signExtend 64)) q) s' index q size)
  | realloc {index q : Nat} {size : BitVec 32} {s s' : σ}
      (hcall : (P.exec (.realloc (d.table.blocks index) (size.signExtend 64))).run d.heap =
        .ok (q, s))
      (hq : q ≠ null) (hpos : 0 < size.toInt)
      (hfine : payloadError P (moved d s index (d.table.blocks index) q size) q size = none)
      (hfill : (P.memset q (fillByte index) (size.signExtend 64).toNat).run s = .ok ((), s')) :
      Processed P d (.realloc index size)
        (accept (moved d s index (d.table.blocks index) q size) s' index q size)
  | free {index q : Nat} {s : σ}
      (hcall : (P.exec (.free (d.table.blocks index))).run d.heap = .ok (q, s)) :
      Processed P d (.free index)
        (issue (drop d (d.table.blocks index)) s index (.free (d.table.blocks index)) q)

theorem Processed.errors (hdone : Processed P d op d') : d'.errors = d.errors := by
  cases hdone with
  | nothing hzero hcall => rfl
  | alloc hcall hq hpos hfine hfill => rfl
  | realloc hcall hq hpos hfine hfill => rfl
  | free hcall => rfl

/-- What `eval_mm_valid` does with a request that it lets pass. -/
theorem validRequest_true (hrun : (validRequest P tracenum i op).run d = .ok (true, d')) :
    Processed P d op d' := by
  cases op with
  | alloc index size =>
      obtain ⟨q, d₁, hcall, hrest⟩ := run_bind_eq_ok hrun
      obtain ⟨s, hexec, rfl⟩ := callMm_eq_ok hcall
      rcases Decidable.em (size = 0) with rfl | hsize
      · rw [if_neg (fun hfail => hfail.2 rfl), if_pos rfl] at hrest
        cases hrest
        have hzero : ZeroSized (.alloc index 0) := rfl
        exact .nothing hzero hexec
      · rcases Decidable.em (q = null) with rfl | hq
        · rw [if_pos ⟨rfl, hsize⟩] at hrest
          cases hrest
        · rw [if_neg (fun hfail => hq hfail.1), if_neg hsize] at hrest
          obtain ⟨b, d₂, hadd, hrest⟩ := run_bind_eq_ok hrest
          obtain ⟨hpos, ⟨hfine, rfl, rfl⟩ | ⟨c, -, rfl, rfl⟩⟩ := addRange_cases hsize hadd
          · rw [if_pos rfl] at hrest
            obtain ⟨⟨⟩, d₃, hfill, hrest⟩ := run_bind_eq_ok hrest
            obtain ⟨s', hmemset, rfl⟩ := fillRange_eq_ok hfill
            cases hrest
            exact .alloc hexec hq hpos hfine hmemset
          · cases hrest
  | realloc index size =>
      rw [validRequest, run_bind_of_ok (getBlock_run index d)] at hrun
      obtain ⟨q, d₁, hcall, hrest⟩ := run_bind_eq_ok hrun
      obtain ⟨s, hexec, rfl⟩ := callMm_eq_ok hcall
      rcases Decidable.em (size = 0) with rfl | hsize
      · rw [if_neg (fun hfail => hfail.2 rfl), if_pos rfl] at hrest
        cases hrest
        have hzero : ZeroSized (.realloc index 0) := rfl
        exact .nothing hzero hexec
      · rcases Decidable.em (q = null) with rfl | hq
        · rw [if_pos ⟨rfl, hsize⟩] at hrest
          cases hrest
        · rw [if_neg (fun hfail => hq hfail.1), if_neg hsize,
            run_bind_of_ok (removeRange_run _ _)] at hrest
          obtain ⟨b, d₂, hadd, hrest⟩ := run_bind_eq_ok hrest
          obtain ⟨hpos, ⟨hfine, rfl, rfl⟩ | ⟨c, -, rfl, rfl⟩⟩ := addRange_cases hsize hadd
          · rw [if_pos rfl, run_bind_of_ok (getBlockSize_run index _)] at hrest
            obtain ⟨b, d₃, hcheck, hrest⟩ := run_bind_eq_ok hrest
            obtain ⟨-, rfl⟩ := checkData_eq_ok hcheck
            rcases b with _ | _
            · cases hrest
            · rw [if_pos rfl] at hrest
              obtain ⟨⟨⟩, d₄, hfill, hrest⟩ := run_bind_eq_ok hrest
              obtain ⟨s', hmemset, rfl⟩ := fillRange_eq_ok hfill
              cases hrest
              exact .realloc hexec hq hpos hfine hmemset
          · cases hrest
  | free index =>
      rw [validRequest, run_bind_of_ok (getBlock_run index d),
        run_bind_of_ok (removeRange_run _ _)] at hrun
      obtain ⟨q, d₁, hcall, hrest⟩ := run_bind_eq_ok hrun
      obtain ⟨s, hexec, rfl⟩ := callMm_eq_ok hcall
      cases hrest
      exact .free hexec

section Outcomes

variable {index q : Nat} {size : BitVec 32} {s s' : σ} {b : Bool}

theorem validRequest_nothing (tracenum i : Nat) (hzero : ZeroSized op)
    (hcall : (P.exec (callOf d.table op)).run d.heap = .ok (q, s)) :
    (validRequest P tracenum i op).run d =
      .ok (true, issue d s (indexOf op) (callOf d.table op) q) := by
  cases op with
  | alloc index size =>
      obtain rfl : size = 0 := hzero
      change (P.exec (.malloc _)).run d.heap = _ at hcall
      rw [validRequest, run_bind_of_ok (callMm_run index hcall), if_neg (fun hfail => hfail.2 rfl),
        if_pos rfl]
      rfl
  | realloc index size =>
      obtain rfl : size = 0 := hzero
      change (P.exec (.realloc _ _)).run d.heap = _ at hcall
      rw [validRequest, run_bind_of_ok (getBlock_run index d), run_bind_of_ok (callMm_run index hcall),
        if_neg (fun hfail => hfail.2 rfl), if_pos rfl]
      rfl
  | free index => exact hzero.elim

theorem validRequest_alloc_fails (hsize : size ≠ 0)
    (hcall : (P.exec (.malloc (size.signExtend 64))).run d.heap = .ok (null, s)) :
    (validRequest P tracenum i (.alloc index size)).run d =
      .ok (false, complain (issue d s index (.malloc (size.signExtend 64)) null) tracenum i
        .mallocFailed) := by
  rw [validRequest, run_bind_of_ok (callMm_run index hcall), if_pos ⟨rfl, hsize⟩]
  rfl

theorem validRequest_alloc
    (hcall : (P.exec (.malloc (size.signExtend 64))).run d.heap = .ok (q, s))
    (hq : q ≠ null) (hpos : 0 < size.toInt)
    (hfine : payloadError P (issue d s index (.malloc (size.signExtend 64)) q) q size = none)
    (hfill : (P.memset q (fillByte index) (size.signExtend 64).toNat).run s = .ok ((), s')) :
    (validRequest P tracenum i (.alloc index size)).run d =
      .ok (true, accept (issue d s index (.malloc (size.signExtend 64)) q) s' index q size) := by
  rw [validRequest, run_bind_of_ok (callMm_run index hcall), if_neg (fun hfail => hq hfail.1),
    if_neg (ne_zero_of_toInt_pos hpos), run_bind_of_ok (addRange_accepts hpos hfine), if_pos rfl,
    run_bind_of_ok (fillRange_run (d := record (issue _ s _ _ _) _ _) hfill)]
  rfl

theorem validRequest_realloc_fails (hsize : size ≠ 0)
    (hcall : (P.exec (.realloc (d.table.blocks index) (size.signExtend 64))).run d.heap =
      .ok (null, s)) :
    (validRequest P tracenum i (.realloc index size)).run d =
      .ok (false, complain
        (issue d s index (.realloc (d.table.blocks index) (size.signExtend 64)) null) tracenum i
        .reallocFailed) := by
  rw [validRequest, run_bind_of_ok (getBlock_run index d), run_bind_of_ok (callMm_run index hcall),
    if_pos ⟨rfl, hsize⟩]
  rfl

theorem validRequest_realloc
    (hcall : (P.exec (.realloc (d.table.blocks index) (size.signExtend 64))).run d.heap =
      .ok (q, s))
    (hq : q ≠ null) (hpos : 0 < size.toInt)
    (hfine : payloadError P (moved d s index (d.table.blocks index) q size) q size = none)
    (hdata : compareData P s q index (d.table.blockSizes index) size = .ok b)
    (hfill : (P.memset q (fillByte index) (size.signExtend 64).toNat).run s = .ok ((), s')) :
    (validRequest P tracenum i (.realloc index size)).run d =
      .ok (b, if b = true then
          accept (moved d s index (d.table.blocks index) q size) s' index q size
        else
          complain (record (moved d s index (d.table.blocks index) q size) q size) tracenum i
            .notPreserved) := by
  let d₁ := record (moved d s index (d.table.blocks index) q size) q size
  have hcheck : (checkData P q index (d₁.table.blockSizes index) size).run d₁ = .ok (b, d₁) :=
    checkData_run hdata
  rw [validRequest, run_bind_of_ok (getBlock_run index d), run_bind_of_ok (callMm_run index hcall),
    if_neg (fun hfail => hq hfail.1), if_neg (ne_zero_of_toInt_pos hpos),
    run_bind_of_ok (removeRange_moved ..), run_bind_of_ok (addRange_accepts hpos hfine), if_pos rfl,
    run_bind_of_ok (getBlockSize_run index _), run_bind_of_ok hcheck]
  rcases b with _ | _
  · rfl
  · rw [if_pos rfl, if_pos rfl,
      run_bind_of_ok (fillRange_run (d := record (moved _ s _ _ _ _) _ _) hfill)]
    rfl

theorem validRequest_free
    (hcall : (P.exec (.free (d.table.blocks index))).run d.heap = .ok (q, s)) :
    (validRequest P tracenum i (.free index)).run d =
      .ok (true, issue (drop d (d.table.blocks index)) s index (.free (d.table.blocks index)) q) := by
  rw [validRequest, run_bind_of_ok (getBlock_run index d), run_bind_of_ok (removeRange_run _ _),
    run_bind_of_ok (callMm_run (d := drop d _) index hcall)]
  rfl

end Outcomes

/-- The counters after a request, given the tables before it. -/
def totalsAfter (tables : Payloads) (t : Totals) : Request → Totals
  | .alloc _ size => if size = 0 then t else t.add size
  | .realloc index size =>
      if size = 0 then t else t.add (size - (tables.blockSizes index).setWidth 32)
  | .free index => { t with totalSize := t.totalSize - (tables.blockSizes index).setWidth 32 }

/-- `eval_mm_util` does the same, and counts. -/
theorem utilRequest_run (tracenum i : Nat) (t : Totals) (hdone : Processed P d op d') :
    (utilRequest P tracenum i t op).run d = .ok (some (totalsAfter d.table t op), d') := by
  cases hdone with
  | @nothing op q s hzero hcall =>
      cases op with
      | alloc index size =>
          obtain rfl : size = 0 := hzero
          change (P.exec (.malloc _)).run d.heap = _ at hcall
          rw [utilRequest, run_bind_of_ok (callMm_run index hcall), if_neg (fun hfail => hfail.2 rfl),
            if_pos rfl]
          rfl
      | realloc index size =>
          obtain rfl : size = 0 := hzero
          change (P.exec (.realloc _ _)).run d.heap = _ at hcall
          rw [utilRequest, run_bind_of_ok (getBlock_run index d),
            run_bind_of_ok (callMm_run index hcall), if_neg (fun hfail => hfail.2 rfl), if_pos rfl]
          rfl
      | free index => exact hzero.elim
  | @alloc index q size s s' hcall hq hpos hfine hfill =>
      have hsize := ne_zero_of_toInt_pos hpos
      rw [utilRequest, run_bind_of_ok (callMm_run index hcall), if_neg (fun hfail => hq hfail.1),
        if_neg hsize, run_bind_of_ok (addRange_accepts hpos hfine), if_pos rfl,
        run_bind_of_ok (fillRange_run (d := record (issue _ s _ _ _) _ _) hfill), totalsAfter,
        if_neg hsize]
      rfl
  | @realloc index q size s s' hcall hq hpos hfine hfill =>
      have hsize := ne_zero_of_toInt_pos hpos
      rw [utilRequest, run_bind_of_ok (getBlock_run index d), run_bind_of_ok (callMm_run index hcall),
        if_neg (fun hfail => hq hfail.1), if_neg hsize, run_bind_of_ok (removeRange_moved ..),
        run_bind_of_ok (addRange_accepts hpos hfine), if_pos rfl,
        run_bind_of_ok (fillRange_run (d := record (moved _ s _ _ _ _) _ _) hfill),
        totalsAfter, if_neg hsize]
      rfl
  | @free index q s hcall =>
      rw [utilRequest, run_bind_of_ok (getBlockSize_run index d),
        run_bind_of_ok (getBlock_run index d), run_bind_of_ok (removeRange_run _ _),
        run_bind_of_ok (callMm_run (d := drop d _) index hcall)]
      rfl

end Processing

section Starts

variable {d : Driver Heap Payloads}

/-- The driver after `mem_reset_brk`, `clear_ranges` and `mm_init`. -/
def started (d : Driver Heap Payloads) (h : Heap) : Driver Heap Payloads :=
  { d with heap := h, ranges := [], issued := [] }

/-- The three interpreters start on the same empty heap, whatever was there before. -/
theorem mm_started (d : Driver Heap Payloads) :
    ∃ h', Invariant ⟨h', []⟩ (emptyLayout d.heap.arena.start) ∧
      (∀ tracenum ops, (evalMmValid mmPackage tracenum ops).run d =
        (validRequests mmPackage tracenum 0 ops).run (started d h')) ∧
      (∀ tracenum ops, (utilTotals mmPackage tracenum ops).run d =
        (utilRequests mmPackage tracenum 0 ⟨0, 0⟩ ops).run (started d h')) ∧
      ∀ ops, (evalMmSpeed mmPackage ops).run d =
        (speedRequests mmPackage ops).run { d with heap := h', issued := [] } := by
  obtain ⟨h', hrun, hI⟩ := restart_run d.heap
  obtain ⟨⟨⟩, h₁, hreset, hinit⟩ := run_bind_eq_ok hrun
  have hreset' : mmPackage.memResetBrk.run d.heap = .ok ((), h₁) := hreset
  have hinit' : ∀ rs, (onHeap mmPackage.mmInit).run
      ({ d with heap := h₁, ranges := rs, issued := [] } : Driver Heap Payloads) =
      .ok (0, { d with heap := h', ranges := rs, issued := [] }) := fun rs => onHeap_run hinit
  have hnot : ¬ (0 : Int) < 0 := by decide
  refine ⟨h', hI, fun tracenum ops => ?_, fun tracenum ops => ?_, fun ops => ?_⟩
  · rw [evalMmValid, run_bind_of_ok (resetBrk_run hreset'), run_bind_of_ok (clearRanges_run _),
      run_bind_of_ok (hinit' []), if_neg hnot]
    rfl
  · rw [utilTotals, run_bind_of_ok (resetBrk_run hreset'), run_bind_of_ok (clearRanges_run _),
      run_bind_of_ok (hinit' []), if_neg hnot]
    rfl
  · rw [evalMmSpeed, run_bind_of_ok (resetBrk_run hreset'),
      run_bind_of_ok (hinit' d.ranges), if_neg hnot]

end Starts

section Sample

/-- A driver whose heap and tables hold anything. -/
def sampleTraceDriver : Driver Heap Payloads where
  heap := memInit sampleArena fun _ => 255
  ranges := []
  errors := []
  issued := []
  table := ⟨fun _ => 4099, fun _ => 7⟩

/-- A payload that grows while another one is there. -/
def sampleTrace : List Request := [.alloc 0 24, .alloc 1 8, .realloc 0 40, .free 1]

end Sample

end MallocLab.TraceSteps
