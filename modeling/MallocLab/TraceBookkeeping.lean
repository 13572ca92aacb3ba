import MallocLab.TraceSteps
import MallocLab.DataCheck

/-!
The bookkeeping of `eval_mm_valid` against the live payloads of a package that obeys
its contract.  It stays in step as long as no 'r' releases a payload and no id is used
whose 'a' was for zero bytes: the interpreter leaves the switch early for these.
-/

namespace MallocLab.TraceBookkeeping

open MallocLab.WordBits
open MallocLab.Machine
open MallocLab.HeapPrograms
open MallocLab.HeapGrowth
open MallocLab.Runs
open MallocLab.MallocPackage
open MallocLab.Mdriver
open MallocLab.DriverPrograms
open MallocLab.DataCheck
open MallocLab.AllocatorContract
open MallocLab.TraceSteps

section Discipline

/-- The ids that are introduced and not released after the request. -/
def introducedAfter (ids : Finset Nat) : Request → Finset Nat
  | .alloc index _ => insert index ids
  | .realloc _ _ => ids
  | .free index => ids.erase index

def WellUsed (ids : Finset Nat) : Request → Prop
  | .alloc index _ => index ∉ ids
  | .realloc index _ => index ∈ ids
  | .free index => index ∈ ids

/-- Every 'a' introduces an id, every 'r' and 'f' is about an introduced one, and no size
is negative. -/
def Disciplined : Finset Nat → List Request → Prop
  | _, [] => True
  | ids, op :: ops =>
      WellUsed ids op ∧ SizeNonneg op ∧ Disciplined (introducedAfter ids op) ops

instance (ids : Finset Nat) : DecidablePred (WellUsed ids) := fun op =>
  match op with
  | .alloc index _ => inferInstanceAs (Decidable (index ∉ ids))
  | .realloc index _ => inferInstanceAs (Decidable (index ∈ ids))
  | .free index => inferInstanceAs (Decidable (index ∈ ids))

instance decidableDisciplined :
    (ids : Finset Nat) → (ops : List Request) → Decidable (Disciplined ids ops)
  | _, [] => inferInstanceAs (Decidable True)
  | ids, op :: ops =>
      have := decidableDisciplined (introducedAfter ids op) ops
      inferInstanceAs (Decidable (_ ∧ _ ∧ _))

/-- No 'r' of the trace has size zero. -/
def NoZeroRealloc (ops : List Request) : Prop := ∀ index, .realloc index 0 ∉ ops

theorem usesHeld_take {held : Finset Nat} {ops : List Request} (huses : UsesHeld held ops)
    (k : Nat) : UsesHeld held (ops.take k) := by
  induction ops generalizing held k with
  | nil => rwa [List.take_nil]
  | cons op ops ih =>
      cases k with
      | zero => trivial
      | succ k => exact ⟨huses.1, ih huses.2 k⟩

theorem Disciplined.nonneg {ids : Finset Nat} {ops : List Request}
    (hdisc : Disciplined ids ops) : ∀ op ∈ ops, SizeNonneg op := by
  induction ops generalizing ids with
  | nil => simp
  | cons op ops ih => exact List.forall_mem_cons.mpr ⟨hdisc.2.1, ih hdisc.2.2⟩

end Discipline

section Records

variable {live : Live} {ranges : List Range} {p : Nat} {size : Word}

theorem perm_release (hnodup : (live.map Prod.fst).Nodup) (hlive : (p, size) ∈ live) :
    live.Perm ((p, size) :: live.filter fun e => e.1 ≠ p) := by
  have hperm := List.perm_cons_erase hlive
  have hkeys := ((hperm.map Prod.fst).nodup_iff.mp hnodup)
  rw [List.map_cons, List.nodup_cons] at hkeys
  have hrest : (live.erase (p, size)).filter (fun e => e.1 ≠ p) = live.erase (p, size) := by
    apply List.filter_eq_self.mpr
    intro e he
    apply decide_eq_true
    rintro rfl
    exact hkeys.1 (List.mem_map.mpr ⟨e, he, rfl⟩)
  have hfilter := hperm.filter fun e => e.1 ≠ p
  rw [List.filter_cons_of_neg (by simp), hrest] at hfilter
  exact hperm.trans (hfilter.symm.cons _)

/-- Removing the record of a live payload. -/
theorem eraseP_release (hnodup : (live.map Prod.fst).Nodup) (hlive : (p, size) ∈ live)
    (hranges : ranges.Perm (live.map rangeOf)) :
    (ranges.eraseP fun r => r.lo = p).Perm ((live.filter fun e => e.1 ≠ p).map rangeOf) := by
  have hperm := hranges.trans ((perm_release hnodup hlive).map rangeOf)
  have hnot : ∀ r ∈ (live.filter fun e => e.1 ≠ p).map rangeOf, r.lo ≠ p := by
    intro r hr
    obtain ⟨e, he, rfl⟩ := List.mem_map.mp hr
    exact of_decide_eq_true (List.mem_filter.mp he).2
  have hself : (rangeOf (p, size) :: (live.filter fun e => e.1 ≠ p).map rangeOf).eraseP
      (fun r => r.lo = p) = (live.filter fun e => e.1 ≠ p).map rangeOf :=
    List.eraseP_cons_of_pos (decide_eq_true rfl)
  rw [List.map_cons] at hperm
  rw [← hself]
  refine (hperm.symm.eraseP (fun r => r.lo = p) ?_).symm
  refine List.pairwise_cons.mpr ⟨fun r hr _ hlo => ?_, ?_⟩
  · exact hnot r hr (of_decide_eq_true hlo)
  · exact List.pairwise_of_forall_mem_list fun r hr s hs hlo _ =>
      hnot r hr (of_decide_eq_true hlo)

end Records

section Contracts

variable {σ τ : Type} {P : Package σ} {Inv : σ → Live → Prop} {s : σ} {live : Live}
  {d : Driver σ τ} {q : Nat} {size : BitVec 32}

theorem keys_nodup (hC : Contract P Inv) (hI : Inv s live) : (live.map Prod.fst).Nodup := by
  refine List.pairwise_map.mpr ((hC.disjoint s live hI).imp_of_mem fun {e f} he hf hapart => ?_)
  have hepos := toNat_le_of_pos (hC.placed s live hI e he).pos
  have hfpos := toNat_le_of_pos (hC.placed s live hI f hf).pos
  have hesize := (hC.placed s live hI e he).pos
  have hfsize := (hC.placed s live hI f hf).pos
  change e.1 + e.2.toNat - 1 < f.1 ∨ f.1 + f.2.toNat - 1 < e.1 at hapart
  intro heq
  omega

theorem rangeOf_signExtend (hpos : 0 ≤ size.toInt) :
    rangeOf (q, size.signExtend 64) = payloadRange q size := by
  rw [rangeOf, payloadRange, toNat_signExtend_of_nonneg (by decide) hpos]

/-- Nothing is wrong with a payload of a package that obeys its contract. -/
theorem payload_fine (hC : Contract P Inv) (hI : Inv d.heap ((q, size.signExtend 64) :: live))
    (hranges : d.ranges.Perm (live.map rangeOf)) : payloadError P d q size = none := by
  have hplaced := hC.placed _ _ hI _ List.mem_cons_self
  have hpos : 0 < size.toInt := by
    have hlong := hplaced.pos
    rwa [BitVec.toInt_signExtend_of_le (by decide)] at hlong
  have hlength := toNat_signExtend_of_nonneg (m := 64) (by decide) hpos.le
  have hnat := toNat_pos hpos
  have hsize := toNat_of_nonneg hpos.le
  have hinside := hplaced.inside
  have hapart := (List.pairwise_cons.mp (hC.disjoint _ _ hI)).1
  rw [hlength] at hinside
  rw [payloadError_eq_none_iff hpos]
  refine ⟨hplaced.aligned, hinside, fun r hr => ?_⟩
  obtain ⟨e, he, rfl⟩ := List.mem_map.mp (hranges.mem_iff.mp hr)
  have hdisjoint := hapart e he
  have hesize := toNat_le_of_pos (hC.placed _ _ hI e (List.mem_cons_of_mem _ he)).pos
  have hepos := (hC.placed _ _ hI e (List.mem_cons_of_mem _ he)).pos
  rw [rangeOf_signExtend hpos.le] at hdisjoint
  change q + size.toNat - 1 < e.1 ∨ e.1 + e.2.toNat - 1 < q at hdisjoint
  rw [overlapTest_iff]
  change ¬ (e.1 ≤ q ∧ q ≤ e.1 + e.2.toNat - 1 ∨
    e.1 ≤ q + size.toNat - 1 ∧ q + size.toNat - 1 ≤ e.1 + e.2.toNat - 1)
  omega

theorem compareBound_le (oldsize : Word) (size : BitVec 32) :
    (compareBound oldsize size).toInt ≤ size.toInt := by
  unfold compareBound
  split
  · exact le_rfl
  · omega

/-- The data of a live payload can be compared. -/
theorem compareData_live (hC : Contract P Inv) (hI : Inv s ((q, size.signExtend 64) :: live))
    (index : Nat) (oldsize : Word) : ∃ b, compareData P s q index oldsize size = .ok b := by
  have hplaced := hC.placed _ _ hI _ List.mem_cons_self
  have hlong := hplaced.pos
  rw [BitVec.toInt_signExtend_of_le (by decide)] at hlong
  have hlength := toNat_signExtend_of_nonneg (m := 64) (by decide) hlong.le
  have hnat := toNat_of_nonneg hlong.le
  have hbound := compareBound_le oldsize size
  have hread : ∀ k, 0 ≤ k → k < 0 + (compareBound oldsize size).toInt.toNat →
      P.readByte s (q + k) = .ok ((fun x => ((P.readByte s x).toOption).getD 0) (q + k)) := by
    intro k _ hk
    have hlt : k < (size.signExtend 64).toNat := by omega
    obtain ⟨c, hc⟩ := hC.readByte _ _ hI _ List.mem_cons_self k hlt
    change P.readByte s (q + k) = .ok c at hc
    simp only [hc]
    rfl
  exact ⟨_, compareLoop_run (m := fun x => ((P.readByte s x).toOption).getD 0) hread⟩

end Contracts

section Books

variable {σ : Type} {P : Package σ} {Inv : σ → Live → Prop} {d d' : Driver σ Payloads}
  {held : Finset Nat} {op : Request} {ops : List Request} {tracenum i : Nat}

/-- Every call was made with `NULL` or a live pointer. -/
def LegalCalls (issued : List Issued) : Prop :=
  ∀ before e after, issued = before ++ e :: after → e.call.Legal (liveOf before)

/-- There is one record for each live payload and no other, and the package was given
only pointers that were live. -/
structure InStep {τ : Type} (d : Driver σ τ) : Prop where
  ranges : d.ranges.Perm ((liveOf d.issued).map rangeOf)
  legal : LegalCalls d.issued

/-- No report says that a payload overlaps a recorded one. -/
def NoOverlapReport {τ : Type} (d d' : Driver σ τ) : Prop :=
  ∃ reports, d'.errors = d.errors ++ reports ∧
    ∀ r ∈ reports, ∀ lo hi plo phi, r.complaint ≠ .overlaps lo hi plo phi

/-- The state between two requests. -/
structure Books (Inv : σ → Live → Prop) (d : Driver σ Payloads) (held : Finset Nat) : Prop where
  inStep : InStep d
  inv : Inv d.heap (liveOf d.issued)
  remembers : Remembers d.table (liveOf d.issued) held

theorem NoOverlapReport.refl {τ : Type} (d : Driver σ τ) : NoOverlapReport d d :=
  ⟨[], (List.append_nil _).symm, by simp⟩

theorem NoOverlapReport.trans {τ : Type} {d d' d'' : Driver σ τ} (h₁ : NoOverlapReport d d')
    (h₂ : NoOverlapReport d' d'') : NoOverlapReport d d'' := by
  obtain ⟨rs, hrs, hall⟩ := h₁
  obtain ⟨rs', hrs', hall'⟩ := h₂
  refine ⟨rs ++ rs', by rw [hrs', hrs, List.append_assoc], fun r hr => ?_⟩
  rcases List.mem_append.mp hr with hr | hr
  · exact hall r hr
  · exact hall' r hr

theorem noOverlapReport_complain {τ : Type} {d d' : Driver σ τ} {c : Complaint}
    (herrors : d'.errors = d.errors) (hc : ∀ lo hi plo phi, c ≠ .overlaps lo hi plo phi) :
    NoOverlapReport d (complain d' tracenum i c) := by
  refine ⟨[⟨tracenum, linenum i, c⟩], ?_, ?_⟩
  · rw [complain, herrors]
  · intro r hr
    obtain rfl := List.mem_singleton.mp hr
    exact hc

theorem LegalCalls.concat {issued : List Issued} {e : Issued} (hlegal : LegalCalls issued)
    (he : e.call.Legal (liveOf issued)) : LegalCalls (issued ++ [e]) := by
  intro before e' after heq
  rcases List.eq_nil_or_concat after with rfl | ⟨after, x, rfl⟩
  · obtain ⟨rfl, hsame⟩ := List.append_inj' heq rfl
    obtain rfl := (List.cons.inj hsame).1
    exact he
  · rw [List.concat_eq_append, ← List.cons_append, ← List.append_assoc] at heq
    obtain ⟨rfl, -⟩ := List.append_inj' heq rfl
    exact hlegal before e' after rfl

/-- The call of a request is legal and returns. -/
theorem Books.call (hC : Contract P Inv) (hB : Books Inv d held) (op : Request)
    (huses : Uses held op)    (hsize : SizeNonneg op) :
    ∃ q s, (P.exec (callOf d.table op)).run d.heap = .ok (q, s) ∧
      Inv s (liveAfter (liveOf d.issued) (callOf d.table op) q) ∧
      (ZeroSized op → q = null) ∧
      LegalCalls (d.issued ++ [⟨indexOf op, callOf d.table op, q⟩]) := by
  have hlegal := hB.remembers.legal huses
  obtain ⟨q, s, hcall, hinv, hnull⟩ :=
    hC.call _ _ _ hB.inv hlegal (nonNegative_callOf d.table hsize)
  exact ⟨q, s, hcall, hinv, fun hzero => hnull ((asksNothing_iff d.table).mpr hzero),
    hB.inStep.legal.concat hlegal⟩

/-- A pointer that the tables name is not `NULL`. -/
theorem Books.block_ne_null (hC : Contract P Inv) (hB : Books Inv d held) {index : Nat}
    (hindex : index ∈ held) : d.table.blocks index ≠ null :=
  (hC.placed _ _ hB.inv _ (hB.remembers.mem index hindex)).ne_null

/-- An 'a' for no bytes changes nothing. -/
theorem Books.nothing (hC : Contract P Inv) (hB : Books Inv d held) (tracenum i index : Nat) :
    ∃ d', (validRequest P tracenum i (.alloc index 0)).run d = .ok (true, d') ∧
      Books Inv d' held ∧ d'.errors = d.errors := by
  obtain ⟨q, s, hcall, hinv, hnull, hlegal⟩ := hB.call hC (.alloc index 0) trivial le_rfl
  obtain rfl := hnull rfl
  have hsame : liveOf (issue d s index (.malloc 0) null).issued = liveOf d.issued := by
    rw [liveOf_issue, liveAfter, if_pos rfl]
  have hzero : ZeroSized (.alloc index 0) := rfl
  refine ⟨_, validRequest_nothing tracenum i hzero hcall, ⟨⟨?_, hlegal⟩, ?_, ?_⟩, rfl⟩
  · change d.ranges.Perm ((liveOf (issue d s index (.malloc 0) null).issued).map rangeOf)
    rw [hsame]
    exact hB.inStep.ranges
  · change Inv s (liveOf (issue d s index (.malloc 0) null).issued)
    rw [hsame]
    exact hinv
  · change Remembers d.table (liveOf (issue d s index (.malloc 0) null).issued) held
    rw [hsame]
    exact hB.remembers

/-- A new payload is recorded, filled and remembered. -/
theorem books_accept (hC : Contract P Inv) {rest : Live} {index q : Nat} {size : BitVec 32}
    {s' : σ} {held' : Finset Nat} (hlive : liveOf d.issued = (q, size.signExtend 64) :: rest)
    (hranges : d.ranges.Perm (rest.map rangeOf)) (hlegal : LegalCalls d.issued)
    (hinv : Inv s' (liveOf d.issued))
    (hremembers : Remembers (storePayload d.table index q (size.signExtend 64))
      ((q, size.signExtend 64) :: rest) held') :
    Books Inv (accept d s' index q size) held' := by
  have hpos := (hC.placed _ _ hinv (q, size.signExtend 64) (by simp [hlive])).pos
  rw [BitVec.toInt_signExtend_of_le (by decide)] at hpos
  refine ⟨⟨?_, hlegal⟩, hinv, ?_⟩
  · change (payloadRange q size :: d.ranges).Perm ((liveOf d.issued).map rangeOf)
    rw [hlive, List.map_cons, rangeOf_signExtend hpos.le]
    exact hranges.cons _
  · change Remembers (storePayload d.table index q (size.signExtend 64)) (liveOf d.issued) held'
    rw [hlive]
    exact hremembers

theorem Books.alloc (hC : Contract P Inv) (hB : Books Inv d held) (tracenum i index : Nat)
    {size : BitVec 32} (hpos : 0 < size.toInt) :
    ∃ b d', (validRequest P tracenum i (.alloc index size)).run d = .ok (b, d') ∧ InStep d' ∧
      NoOverlapReport d d' ∧ (b = true → Books Inv d' (insert index held)) ∧
      (b = false → ∃ s, (P.exec (.malloc (size.signExtend 64))).run d.heap = .ok (null, s)) := by
  obtain ⟨q, s, hcall, hinv, -, hlegal⟩ :=
    hB.call hC (.alloc index size) trivial hpos.le
  have hissued := liveOf_issue d s index q (.malloc (size.signExtend 64))
  rw [liveAfter] at hissued
  rcases Decidable.em (q = null) with rfl | hq
  · have hsame := hissued.trans (if_pos rfl)
    refine ⟨false, _, validRequest_alloc_fails (ne_zero_of_toInt_pos hpos) hcall, ⟨?_, hlegal⟩,
      noOverlapReport_complain rfl (by simp), (fun h => by cases h), fun _ => ⟨s, hcall⟩⟩
    change d.ranges.Perm ((liveOf (issue d s index (.malloc _) null).issued).map rangeOf)
    rw [hsame]
    exact hB.inStep.ranges
  · have hlive := hissued.trans (if_neg hq)
    change Inv s (liveAfter (liveOf d.issued) (.malloc (size.signExtend 64)) q) at hinv
    rw [liveAfter, if_neg hq] at hinv
    have hfine : payloadError P (issue d s index (.malloc (size.signExtend 64)) q) q size = none :=
      payload_fine hC hinv hB.inStep.ranges
    have hfresh := (List.nodup_cons.mp (keys_nodup hC hinv)).1
    obtain ⟨s', hfill, hinv'⟩ := hC.memset _ _ hinv _ List.mem_cons_self (fillByte index)
    have hB' : Books Inv (accept (issue d s index (.malloc (size.signExtend 64)) q) s' index q size)
        (insert index held) := by
      refine books_accept hC hlive hB.inStep.ranges hlegal ?_ (hB.remembers.store hfresh)
      rw [hlive]
      exact hinv'
    exact ⟨true, _, validRequest_alloc hcall hq hpos hfine hfill, hB'.inStep, .refl d,
      fun _ => hB', fun h => by cases h⟩

theorem Books.realloc (hC : Contract P Inv) (hB : Books Inv d held) (tracenum i : Nat)
    {index : Nat} {size : BitVec 32} (hindex : index ∈ held) (hpos : 0 < size.toInt) :
    ∃ b d', (validRequest P tracenum i (.realloc index size)).run d = .ok (b, d') ∧ InStep d' ∧
      NoOverlapReport d d' ∧ (b = true → Books Inv d' held) := by
  obtain ⟨q, s, hcall, hinv, -, hlegal⟩ :=
    hB.call hC (.realloc index size) hindex hpos.le
  have hptr := hB.block_ne_null hC hindex
  have hsize : size.signExtend 64 ≠ 0 := mt signExtend_eq_zero_iff.mp (ne_zero_of_toInt_pos hpos)
  have hissued := liveOf_issue d s index q (.realloc (d.table.blocks index) (size.signExtend 64))
  rw [liveAfter, if_neg hptr, if_neg hsize] at hissued
  rcases Decidable.em (q = null) with rfl | hq
  · have hsame := hissued.trans (if_pos rfl)
    refine ⟨false, _, validRequest_realloc_fails (ne_zero_of_toInt_pos hpos) hcall, ⟨?_, hlegal⟩,
      noOverlapReport_complain rfl (by simp), fun h => by cases h⟩
    change d.ranges.Perm ((liveOf (issue d s index (.realloc _ _) null).issued).map rangeOf)
    rw [hsame]
    exact hB.inStep.ranges
  · have hlive := hissued.trans (if_neg hq)
    change Inv s (liveAfter (liveOf d.issued)
      (.realloc (d.table.blocks index) (size.signExtend 64)) q) at hinv
    rw [liveAfter, if_neg hptr, if_neg hsize, if_neg hq] at hinv
    have hranges := eraseP_release (keys_nodup hC hB.inv) (hB.remembers.mem index hindex)
      hB.inStep.ranges
    have hfine : payloadError P (moved d s index (d.table.blocks index) q size) q size = none :=
      payload_fine hC hinv hranges
    have hfresh := (List.nodup_cons.mp (keys_nodup hC hinv)).1
    obtain ⟨b, hdata⟩ := compareData_live hC hinv index (d.table.blockSizes index)
    obtain ⟨s', hfill, hinv'⟩ := hC.memset _ _ hinv _ List.mem_cons_self (fillByte index)
    have hB' : Books Inv (accept (moved d s index (d.table.blocks index) q size) s' index q size)
        held := by
      refine books_accept hC hlive hranges hlegal ?_ (hB.remembers.move hindex hfresh)
      change Inv s' (liveOf (issue d s index (.realloc _ _) q).issued)
      rw [hlive]
      exact hinv'
    refine ⟨b, _, validRequest_realloc hcall hq hpos hfine hdata hfill, ?_⟩
    rcases b with _ | _
    · exact ⟨⟨hB'.inStep.ranges, hlegal⟩, noOverlapReport_complain rfl (by simp),
        fun h => by cases h⟩
    · exact ⟨hB'.inStep, .refl d, fun _ => hB'⟩

theorem Books.free (hC : Contract P Inv) (hB : Books Inv d held) (tracenum i : Nat) {index : Nat}
    (hindex : index ∈ held) :
    ∃ d', (validRequest P tracenum i (.free index)).run d = .ok (true, d') ∧
      Books Inv d' (held.erase index) ∧ d'.errors = d.errors := by
  obtain ⟨q, s, hcall, hinv, -, hlegal⟩ := hB.call hC (.free index) hindex trivial
  have hlive := liveOf_issue (drop d (d.table.blocks index)) s index q (.free (d.table.blocks index))
  refine ⟨_, validRequest_free hcall, ⟨⟨?_, hlegal⟩, ?_, ?_⟩, rfl⟩
  · change (d.ranges.eraseP fun r => r.lo = d.table.blocks index).Perm
      ((liveOf (issue (drop d _) s index (.free _) q).issued).map rangeOf)
    rw [hlive]
    exact eraseP_release (keys_nodup hC hB.inv) (hB.remembers.mem index hindex) hB.inStep.ranges
  · change Inv s (liveOf (issue (drop d _) s index (.free _) q).issued)
    rw [hlive]
    exact hinv
  · change Remembers d.table (liveOf (issue (drop d _) s index (.free _) q).issued) _
    rw [hlive]
    exact hB.remembers.release hindex

/-- One request keeps the books, or ends the run with the records in step. -/
theorem Books.request (hC : Contract P Inv) (hB : Books Inv d held) (tracenum i : Nat)
    (huses : Uses held op) (hsize : SizeNonneg op) (hnonzero : ∀ index, op ≠ .realloc index 0) :
    ∃ b d', (validRequest P tracenum i op).run d = .ok (b, d') ∧ InStep d' ∧
      NoOverlapReport d d' ∧ (b = true → Books Inv d' (holdingAfter held op)) := by
  have hlt : ∀ size : BitVec 32, size ≠ 0 → 0 ≤ size.toInt → 0 < size.toInt := by
    intro size hne hle
    have hint : size.toInt ≠ 0 := fun hint => hne (BitVec.eq_of_toInt_eq hint)
    omega
  cases op with
  | alloc index size =>
      rcases Decidable.em (size = 0) with rfl | hne
      · obtain ⟨d', hrun, hB', herrors⟩ := hB.nothing hC tracenum i index
        refine ⟨true, d', hrun, hB'.inStep, ?_, fun _ => hB'⟩
        exact ⟨[], herrors.trans (List.append_nil _).symm, by simp⟩
      · rw [holdingAfter, if_neg hne]
        obtain ⟨b, d', hrun, hstep, hreports, hbooks, -⟩ :=
          hB.alloc hC tracenum i index (hlt size hne hsize)
        exact ⟨b, d', hrun, hstep, hreports, hbooks⟩
  | realloc index size =>
      have hne : size ≠ 0 := by
        rintro rfl
        exact hnonzero index rfl
      rw [holdingAfter, if_neg hne]
      exact hB.realloc hC tracenum i huses (hlt size hne hsize)
  | free index =>
      obtain ⟨d', hrun, hB', herrors⟩ := hB.free hC tracenum i huses
      refine ⟨true, d', hrun, hB'.inStep, ?_, fun _ => hB'⟩
      exact ⟨[], herrors.trans (List.append_nil _).symm, by simp⟩

theorem Books.requests (hC : Contract P Inv) (hB : Books Inv d held) (tracenum i : Nat)
    (huses : UsesHeld held ops) (hsizes : ∀ op ∈ ops, SizeNonneg op) (hnonzero : NoZeroRealloc ops) :
    ∃ b d', (validRequests P tracenum i ops).run d = .ok (b, d') ∧ InStep d' ∧
      NoOverlapReport d d' ∧ (b = true → Books Inv d' (ops.foldl holdingAfter held)) := by
  induction ops generalizing d held i with
  | nil => exact ⟨true, d, rfl, hB.inStep, .refl d, fun _ => hB⟩
  | cons op ops ih =>
      obtain ⟨hop, hops⟩ := List.forall_mem_cons.mp hsizes
      have hnz : ∀ index, op ≠ .realloc index 0 := by
        rintro index rfl
        exact hnonzero index List.mem_cons_self
      obtain ⟨b, d₁, hrun, hstep, hreports, hbooks⟩ :=
        hB.request hC tracenum i huses.1 hop hnz
      rw [validRequests, run_bind_of_ok hrun]
      rcases b with _ | _
      · exact ⟨false, d₁, rfl, hstep, hreports, fun h => by cases h⟩
      · obtain ⟨b, d₂, hrun', hstep', hreports', hbooks'⟩ := ih (hbooks rfl) (i + 1) huses.2 hops
          fun index hmem => hnonzero index (List.mem_cons_of_mem _ hmem)
        rw [if_pos rfl]
        exact ⟨b, d₂, hrun', hstep', hreports.trans hreports', hbooks'⟩

/-- The start of `eval_mm_valid`: the run ends at once, or the books are empty. -/
theorem evalMmValid_start (hC : Contract P Inv) (tracenum : Nat) (d : Driver σ Payloads) :
    (∃ d', InStep d' ∧ NoOverlapReport d d' ∧
      ∀ ops, (evalMmValid P tracenum ops).run d = .ok (false, d')) ∨
    ∃ d₀, Books Inv d₀ ∅ ∧ NoOverlapReport d d₀ ∧
      ∀ ops, (evalMmValid P tracenum ops).run d = (validRequests P tracenum 0 ops).run d₀ := by
  obtain ⟨s₁, r, s₂, hreset, hinit, hinv⟩ := hC.init d.heap
  let d₁ : Driver σ Payloads := { d with heap := s₁, ranges := [], issued := [] }
  have hlegal : LegalCalls [] := by
    intro before e after heq
    cases before with
    | nil => cases heq
    | cons x xs => cases heq
  have hmm : (onHeap P.mmInit).run d₁ = .ok (r, { d₁ with heap := s₂ }) := onHeap_run hinit
  have hrun : ∀ ops, (evalMmValid P tracenum ops).run d = (if r < 0 then do
      mallocError tracenum 0 .initFailed
      return false
    else validRequests P tracenum 0 ops : TraceM σ Bool).run { d₁ with heap := s₂ } := by
    intro ops
    rw [evalMmValid, run_bind_of_ok (resetBrk_run hreset), run_bind_of_ok (clearRanges_run _),
      run_bind_of_ok hmm]
  rcases lt_or_ge r 0 with hfail | hok
  · left
    refine ⟨complain { d₁ with heap := s₂ } tracenum 0 .initFailed, ⟨.nil, hlegal⟩,
      noOverlapReport_complain rfl (by simp), fun ops => ?_⟩
    rw [hrun, if_pos hfail]
    rfl
  · right
    refine ⟨{ d₁ with heap := s₂ }, ⟨⟨.nil, hlegal⟩, hinv hok, .empty _⟩, .refl d, fun ops => ?_⟩
    rw [hrun, if_neg (by omega)]

/-- An 'r' that releases a payload leaves its record behind. -/
theorem Books.realloc_zero (hC : Contract P Inv) (hB : Books Inv d held) (tracenum i : Nat)
    {index : Nat}
    (hindex : index ∈ held) :
    ∃ d', (validRequest P tracenum i (.realloc index 0)).run d = .ok (true, d') ∧
      ¬ InStep d' := by
  obtain ⟨q, s, hcall, -, -, -⟩ := hB.call hC (.realloc index 0) hindex le_rfl
  have hzero : ZeroSized (.realloc index 0) := rfl
  refine ⟨_, validRequest_nothing tracenum i hzero hcall, fun hstep => ?_⟩
  have hptr := hB.block_ne_null hC hindex
  have hlive : liveOf (issue d s index (.realloc (d.table.blocks index) 0) q).issued =
      (liveOf d.issued).filter fun e => e.1 ≠ d.table.blocks index := by
    rw [liveOf_issue, liveAfter, if_neg hptr, if_pos rfl]
  have hlength : d.ranges.length = (liveOf d.issued).length :=
    hB.inStep.ranges.length_eq.trans (List.length_map _)
  have hlength' : d.ranges.length =
      ((liveOf d.issued).filter fun e => e.1 ≠ d.table.blocks index).length := by
    rw [← hlive]
    exact hstep.ranges.length_eq.trans (List.length_map _)
  have hshort : ((liveOf d.issued).filter fun e => e.1 ≠ d.table.blocks index).length <
      (liveOf d.issued).length :=
    List.length_filter_lt_length_iff_exists.mpr ⟨_, hB.remembers.mem index hindex, by simp⟩
  omega

theorem validRequests_concat {b : Bool} {d'' : Driver σ Payloads}
    (hrun : (validRequests P tracenum i ops).run d = .ok (true, d'))
    (hlast : (validRequest P tracenum (i + ops.length) op).run d' = .ok (b, d'')) :
    (validRequests P tracenum i (ops ++ [op])).run d = .ok (b, d'') := by
  induction ops generalizing d i with
  | nil =>
      cases hrun
      rw [List.length_nil, Nat.add_zero] at hlast
      rw [List.nil_append, validRequests, run_bind_of_ok hlast]
      rcases b with _ | _
      · rfl
      · rfl
  | cons op' ops ih =>
      obtain ⟨b', d₁, hfirst, hrest⟩ := run_bind_eq_ok hrun
      rw [List.cons_append, validRequests, run_bind_of_ok hfirst]
      rcases b' with _ | _
      · cases hrest
      · rw [if_pos rfl] at hrest ⊢
        refine ih hrest ?_
        rwa [List.length_cons, ← Nat.add_assoc, Nat.add_right_comm] at hlast

end Books

/-- The books of `eval_mm_valid` are in step with the live payloads after every request of
a trace in which no 'r' has size zero and every 'r' and 'f' is about an id that holds a
payload; an 'r' of size zero for such an id always breaks them. -/
theorem bookkeeping_in_step {σ : Type} {P : Package σ} {Inv : σ → Live → Prop}
    (hC : Contract P Inv) {ops : List Request} (hdisc : Disciplined ∅ ops)
    (huses : UsesHeld ∅ ops) (hnonzero : NoZeroRealloc ops) (tracenum : Nat)
    (d : Driver σ Payloads) :
    (∀ k, ∃ b d', (evalMmValid P tracenum (ops.take k)).run d = .ok (b, d') ∧ InStep d' ∧
      NoOverlapReport d d') ∧
    ∀ d₁, (evalMmValid P tracenum ops).run d = .ok (true, d₁) →
      ∀ index ∈ ops.foldl holdingAfter ∅,
        ∃ d₂, (evalMmValid P tracenum (ops ++ [.realloc index 0])).run d = .ok (true, d₂) ∧
          ¬ InStep d₂ := by
  have hsizes := hdisc.nonneg
  rcases evalMmValid_start hC tracenum d with ⟨d', hstep, hreports, hrun⟩ | ⟨d₀, hB, hstart, hrun⟩
  · refine ⟨fun k => ⟨false, d', hrun _, hstep, hreports⟩, fun d₁ htrue => ?_⟩
    rw [hrun] at htrue
    cases htrue
  · refine ⟨fun k => ?_, fun d₁ htrue index hindex => ?_⟩
    · obtain ⟨b, d', hrun', hstep, hreports, -⟩ := hB.requests hC tracenum 0
        (usesHeld_take huses k) (fun op hop => hsizes op (List.mem_of_mem_take hop))
        fun index hmem => hnonzero index (List.mem_of_mem_take hmem)
      rw [hrun]
      exact ⟨b, d', hrun', hstep, hstart.trans hreports⟩
    · rw [hrun] at htrue ⊢
      obtain ⟨b, d', hrun', -, -, hbooks⟩ :=
        hB.requests hC tracenum 0 huses hsizes hnonzero
      obtain ⟨rfl, rfl⟩ := Prod.mk.inj (Except.ok.inj (htrue.symm.trans hrun'))
      obtain ⟨d₂, hlast, hnot⟩ := (hbooks rfl).realloc_zero hC tracenum (0 + ops.length) hindex
      exact ⟨d₂, validRequests_concat htrue hlast, hnot⟩

theorem noZeroRealloc_sample : NoZeroRealloc sampleTrace := by
  intro index hmem
  simp [sampleTrace] at hmem

theorem bookkeeping_in_step_sample :
    ∃ b d', (evalMmValid mmPackage 0 (sampleTrace.take 3)).run sampleTraceDriver = .ok (b, d') ∧
      InStep d' ∧ NoOverlapReport sampleTraceDriver d' :=
  (bookkeeping_in_step mm_contract (by decide) (by decide) noZeroRealloc_sample 0
    sampleTraceDriver).1 3

/-- A payload of 24 bytes is granted on the empty heap, and the books are in step. -/
theorem sample_alloc : ∃ d₁, Books MmInv d₁ {0} ∧
    ∀ ops, (evalMmValid mmPackage 0 (.alloc 0 24 :: ops)).run sampleTraceDriver =
      (validRequests mmPackage 0 1 ops).run d₁ := by
  obtain ⟨h', hI, hvalid, -⟩ := mm_started sampleTraceDriver
  have hB : Books MmInv (started sampleTraceDriver h') ∅ := by
    refine ⟨⟨.nil, fun before e after heq => ?_⟩, ⟨⟨_, hI⟩, by simp [started, liveOf]⟩, .empty _⟩
    exact absurd heq (by simp [started])
  obtain ⟨b, d₁, hfirst, -, -, hbooks, hfails⟩ := hB.alloc mm_contract 0 0 0
    (show 0 < (24 : BitVec 32).toInt by decide)
  obtain ⟨h₁, hcall, -⟩ := exec_run hI (c := .malloc 24) trivial
    (serves_of_int ⟨by decide, by decide⟩)
  have hgranted : (execLayout (emptyLayout sampleArena.start) (.malloc 24)).2 ≠ null := by decide
  rcases b with _ | _
  · obtain ⟨s, hnull⟩ := hfails rfl
    exact absurd (congrArg Prod.fst (Except.ok.inj (hcall.symm.trans hnull))) hgranted
  · refine ⟨d₁, hbooks rfl, fun ops => ?_⟩
    rw [hvalid, validRequests, run_bind_of_ok hfirst, if_pos rfl]

theorem sample_alloc_free :
    ∃ d₁, (evalMmValid mmPackage 0 [.alloc 0 24, .free 0]).run sampleTraceDriver =
      .ok (true, d₁) := by
  obtain ⟨d₁, hB, hrun⟩ := sample_alloc
  have hindex : 0 ∈ ({0} : Finset Nat) := Finset.mem_singleton_self 0
  obtain ⟨d₂, hlast, -⟩ := hB.free mm_contract 0 1 hindex
  refine ⟨d₂, ?_⟩
  rw [hrun, validRequests, run_bind_of_ok hlast]
  rfl

theorem sample_realloc_zero :
    ∃ d₁, (evalMmValid mmPackage 0 [.alloc 0 24, .realloc 0 0]).run sampleTraceDriver =
      .ok (true, d₁) ∧ ¬ InStep d₁ := by
  obtain ⟨d₁, hB, hrun⟩ := sample_alloc
  have hindex : 0 ∈ ({0} : Finset Nat) := Finset.mem_singleton_self 0
  obtain ⟨d₂, hlast, hnot⟩ := hB.realloc_zero mm_contract 0 1 hindex
  refine ⟨d₂, ?_, hnot⟩
  rw [hrun, validRequests, run_bind_of_ok hlast]
  rfl

/-- The record of a payload that 'r' released stays in the list. -/
theorem realloc_zero_leaves_record :
    Contract mmPackage MmInv ∧ Disciplined ∅ [.alloc 0 24, .realloc 0 0] ∧
      ∃ d', (evalMmValid mmPackage 0 [.alloc 0 24, .realloc 0 0]).run sampleTraceDriver =
        .ok (true, d') ∧ ¬ InStep d' :=
  ⟨mm_contract, by decide, sample_realloc_zero⟩

end MallocLab.TraceBookkeeping
