import MallocLab.HeapExtents
import MallocLab.TraceSteps

/-!
Replays of one trace on the package of `mm.c`.  `eval_mm_util` and `eval_mm_speed` follow a
run of `eval_mm_valid` request by request, on heaps that hold other bytes but the same
blocks.
-/

namespace MallocLab.Replays

open MallocLab.Machine
open MallocLab.HeapPrograms
open MallocLab.AbstractLayout
open MallocLab.HeapGrowth
open MallocLab.Runs
open MallocLab.MallocPackage
open MallocLab.HeapExtents
open MallocLab.Mdriver
open MallocLab.DriverPrograms
open MallocLab.AllocatorContract
open MallocLab.TraceSteps

/-- Two heaps with the same layout, whose live payloads are the given ones. -/
structure SameLayout (h₁ h₂ : Heap) (live : Live) (L : Layout) : Prop where
  left : Invariant ⟨h₁, live⟩ L
  right : Invariant ⟨h₂, live⟩ L

/-- A replay `e` has made the calls of the run `d`, with the same results. -/
structure Lockstep (d e : Driver Heap Payloads) (held : Finset Nat) : Prop where
  layout : ∃ L, SameLayout d.heap e.heap (liveOf d.issued) L
  issued : e.issued = d.issued
  remembers : Remembers d.table (liveOf d.issued) held
  blocks : ∀ i ∈ held, e.table.blocks i = d.table.blocks i

/-- The replay keeps the records and the sizes as well. -/
structure FullLockstep (d e : Driver Heap Payloads) (held : Finset Nat) : Prop
    extends Lockstep d e held where
  ranges : e.ranges = d.ranges
  sizes : ∀ i ∈ held, e.table.blockSizes i = d.table.blockSizes i

section Layouts

variable {h₁ h₂ s₁ s₂ : Heap} {live : Live} {L : Layout} {c : Call} {q p : Nat} {size : BitVec 32}

/-- The same call on two heaps with the same layout. -/
theorem SameLayout.call (hS : SameLayout h₁ h₂ live L) (hlegal : c.Legal live)
    (hint : c.IntSized) (hrun : (mmPackage.exec c).run h₁ = .ok (q, s₁)) :
    ∃ s₂, (mmPackage.exec c).run h₂ = .ok (q, s₂) ∧
      SameLayout s₁ s₂ (liveAfter live c q) (execLayout L c).1 ∧ q = (execLayout L c).2 := by
  rw [exec_mmPackage] at hrun ⊢
  obtain ⟨s₁', hrun₁, hI₁⟩ := exec_run hS.left hlegal (serves_of_int hint)
  obtain ⟨s₂, hrun₂, hI₂⟩ := exec_run hS.right hlegal (serves_of_int hint)
  obtain ⟨rfl, rfl⟩ := Prod.mk.inj (Except.ok.inj (hrun₁.symm.trans hrun))
  exact ⟨s₂, hrun₂, ⟨hI₁, hI₂⟩, rfl⟩

/-- The same payload filled on two heaps with the same layout. -/
theorem SameLayout.fill (hS : SameLayout h₁ h₂ live L) (hlive : (p, size.signExtend 64) ∈ live)
    (hpos : 0 < size.toInt) {c : BitVec 8}
    (hrun : (mmPackage.memset p c (size.signExtend 64).toNat).run h₁ = .ok ((), s₁)) :
    ∃ s₂, (mmPackage.memset p c (size.signExtend 64).toNat).run h₂ = .ok ((), s₂) ∧
      SameLayout s₁ s₂ live L := by
  have hlong : 0 < (size.signExtend 64).toInt := by
    rwa [BitVec.toInt_signExtend_of_le (by decide)]
  obtain ⟨hrun₁, hI₁⟩ := memset_invariant hS.left hlive (toNat_le_of_pos hlong).le c
  obtain ⟨hrun₂, hI₂⟩ := memset_invariant hS.right hlive (toNat_le_of_pos hlong).le c
  obtain ⟨-, rfl⟩ := Prod.mk.inj (Except.ok.inj (hrun₁.symm.trans hrun))
  exact ⟨_, hrun₂, hI₁, hI₂⟩

theorem SameLayout.memHeapLo (hS : SameLayout h₁ h₂ live L) : h₂.memHeapLo = h₁.memHeapLo :=
  hS.right.represents.base.trans hS.left.represents.base.symm

theorem SameLayout.memBrk (hS : SameLayout h₁ h₂ live L) : h₂.memBrk = h₁.memBrk :=
  hS.right.represents.memBrk.trans hS.left.represents.memBrk.symm

theorem SameLayout.payloadError (hS : SameLayout h₁ h₂ live L) {d e : Driver Heap Payloads}
    (hd : d.heap = h₁) (he : e.heap = h₂) (hranges : e.ranges = d.ranges) :
    payloadError mmPackage e p size = payloadError mmPackage d p size := by
  subst hd he
  have hhi : e.heap.memHeapHi = d.heap.memHeapHi := congrArg (· - 1) hS.memBrk
  change rangeError e.heap.memHeapLo e.heap.memHeapHi e.ranges _ _ =
    rangeError d.heap.memHeapLo d.heap.memHeapHi d.ranges _ _
  rw [hS.memHeapLo, hhi, hranges]

theorem payload_ne_null {h : Heap} {size : Word} (hI : Invariant ⟨h, live⟩ L)
    (hlive : (p, size) ∈ live) : p ≠ null := by
  obtain ⟨b, -, rfl, -⟩ := hI.block_of_live hlive
  exact Nat.succ_ne_zero _

end Layouts

section Steps

/-- The driver after it filled a payload. -/
def refill (d : Driver Heap Payloads) (h : Heap) : Driver Heap Payloads := { d with heap := h }

/-- The driver after it stored a pointer without its size. -/
def setPointer (d : Driver Heap Payloads) (index p : Nat) : Driver Heap Payloads :=
  { d with table := { d.table with blocks := Function.update d.table.blocks index p } }

variable {d d' e : Driver Heap Payloads} {held : Finset Nat} {op : Request}

theorem Lockstep.callOf_eq (hL : Lockstep d e held) (huses : Uses held op) :
    callOf e.table op = callOf d.table op := by
  cases op with
  | alloc index size => rfl
  | realloc index size => rw [callOf, callOf, hL.blocks index huses]
  | free index => rw [callOf, callOf, hL.blocks index huses]

/-- The replay makes the call of the run. -/
theorem Lockstep.call (hL : Lockstep d e held) (huses : Uses held op) {q : Nat} {s : Heap}
    (hcall : (mmPackage.exec (callOf d.table op)).run d.heap = .ok (q, s)) :
    ∃ s', (mmPackage.exec (callOf d.table op)).run e.heap = .ok (q, s') ∧
      ∃ L, SameLayout s s' (liveAfter (liveOf d.issued) (callOf d.table op) q) L := by
  obtain ⟨L, hS⟩ := hL.layout
  obtain ⟨s', hcall', hS', -⟩ :=
    hS.call (hL.remembers.legal huses) (intSized_callOf d.table op) hcall
  exact ⟨s', hcall', _, hS'⟩

theorem Lockstep.block_ne_null (hL : Lockstep d e held) {index : Nat} (hindex : index ∈ held) :
    d.table.blocks index ≠ null := by
  obtain ⟨L, hS⟩ := hL.layout
  exact payload_ne_null hS.left (hL.remembers.mem index hindex)

theorem Lockstep.nothing_null (hzero : ZeroSized op) {q : Nat} {s : Heap}
    (hcall : (mmPackage.exec (callOf d.table op)).run d.heap = .ok (q, s)) : q = null := by
  rw [exec_mmPackage] at hcall
  exact null_of_asksNothing ((asksNothing_iff d.table).mpr hzero) hcall

/-- The tables of the run name the payloads of the ids after a request as well. -/
theorem Lockstep.remembers_processed (hL : Lockstep d e held) (huses : Uses held op)
    (hdone : Processed mmPackage d op d') (hnodup : ((liveOf d'.issued).map Prod.fst).Nodup) :
    Remembers d'.table (liveOf d'.issued) (holdingAfter held op) := by
  cases hdone with
  | @nothing op q s hzero hcall =>
      obtain rfl := nothing_null hzero hcall
      rw [liveOf_issue]
      cases op with
      | alloc index size =>
          obtain rfl : size = 0 := hzero
          rw [callOf, liveAfter, if_pos rfl, holdingAfter, if_pos rfl]
          exact hL.remembers
      | realloc index size =>
          obtain rfl : size = 0 := hzero
          rw [callOf, liveAfter, if_neg (hL.block_ne_null huses), if_pos rfl, holdingAfter,
            if_pos rfl]
          exact hL.remembers.release huses
      | free index => exact hzero.elim
  | @alloc index q size s s' hcall hq hpos hfine hfill =>
      change ((liveOf (issue d s index (.malloc _) q).issued).map Prod.fst).Nodup at hnodup
      change Remembers (storePayload d.table index q _) (liveOf (issue d s index (.malloc _) q).issued) _
      rw [liveOf_issue, liveAfter, if_neg hq] at hnodup ⊢
      rw [holdingAfter, if_neg (ne_zero_of_toInt_pos hpos)]
      exact hL.remembers.store (List.nodup_cons.mp hnodup).1
  | @realloc index q size s s' hcall hq hpos hfine hfill =>
      have hsize : size.signExtend 64 ≠ 0 :=
        mt signExtend_eq_zero_iff.mp (ne_zero_of_toInt_pos hpos)
      change ((liveOf (issue d s index (.realloc _ _) q).issued).map Prod.fst).Nodup at hnodup
      change Remembers (storePayload d.table index q _)
        (liveOf (issue d s index (.realloc _ _) q).issued) _
      rw [liveOf_issue, liveAfter, if_neg (hL.block_ne_null huses), if_neg hsize, if_neg hq]
        at hnodup ⊢
      rw [holdingAfter, if_neg (ne_zero_of_toInt_pos hpos)]
      exact hL.remembers.move huses (List.nodup_cons.mp hnodup).1
  | @free index q s hcall =>
      change Remembers d.table (liveOf (issue (drop d _) s index (.free _) q).issued) _
      rw [liveOf_issue, liveAfter, holdingAfter]
      exact hL.remembers.release huses

/-- The replay serves a payload that the run serves, and fills it. -/
theorem Lockstep.serve (hL : Lockstep d e held) (huses : Uses held op) {q : Nat} {s s₁ : Heap}
    {size : BitVec 32} {c : BitVec 8}
    (hcall : (mmPackage.exec (callOf d.table op)).run d.heap = .ok (q, s))
    (hlive : (q, size.signExtend 64) ∈ liveAfter (liveOf d.issued) (callOf d.table op) q)
    (hpos : 0 < size.toInt)
    (hfill : (mmPackage.memset q c (size.signExtend 64).toNat).run s = .ok ((), s₁)) :
    ∃ s' s₁', (mmPackage.exec (callOf d.table op)).run e.heap = .ok (q, s') ∧
      (mmPackage.memset q c (size.signExtend 64).toNat).run s' = .ok ((), s₁') ∧
      ∃ L, SameLayout s s' (liveAfter (liveOf d.issued) (callOf d.table op) q) L ∧
        SameLayout s₁ s₁' (liveAfter (liveOf d.issued) (callOf d.table op) q) L := by
  obtain ⟨s', hcall', L, hS⟩ := hL.call huses hcall
  obtain ⟨s₁', hfill', hS₁⟩ := hS.fill hlive hpos hfill
  exact ⟨s', s₁', hcall', hfill', L, hS, hS₁⟩

theorem mem_liveAfter_malloc {live : Live} {q : Nat} {size : Word} (hq : q ≠ null) :
    (q, size) ∈ liveAfter live (.malloc size) q := by
  rw [liveAfter, if_neg hq]
  exact List.mem_cons_self

theorem mem_liveAfter_realloc {live : Live} {p q : Nat} {size : Word} (hp : p ≠ null)
    (hsize : size ≠ 0) (hq : q ≠ null) : (q, size) ∈ liveAfter live (.realloc p size) q := by
  rw [liveAfter, if_neg hp, if_neg hsize, if_neg hq]
  exact List.mem_cons_self

theorem signExtend_ne_zero {size : BitVec 32} (hpos : 0 < size.toInt) :
    size.signExtend 64 ≠ 0 :=
  mt signExtend_eq_zero_iff.mp (ne_zero_of_toInt_pos hpos)

theorem update_congr {α : Type} {f g : Nat → α} {held held' : Finset Nat} {index : Nat} (a : α)
    (hsub : ∀ i ∈ held', i ≠ index → i ∈ held) (hfg : ∀ i ∈ held, f i = g i) :
    ∀ i ∈ held', Function.update f index a i = Function.update g index a i := by
  intro i hi
  rcases Decidable.em (i = index) with rfl | hne
  · rw [Function.update_self, Function.update_self]
  · rw [Function.update_of_ne hne, Function.update_of_ne hne]
    exact hfg i (hsub i hi hne)

theorem holdingAfter_subset {i : Nat} (hi : i ∈ holdingAfter held op) (hne : i ≠ indexOf op) :
    i ∈ held := by
  cases op with
  | alloc index size =>
      rw [holdingAfter] at hi
      split at hi
      · exact hi
      · exact (Finset.mem_insert.mp hi).resolve_left hne
  | realloc index size =>
      rw [holdingAfter] at hi
      split at hi
      · exact Finset.mem_of_mem_erase hi
      · exact hi
  | free index => exact Finset.mem_of_mem_erase hi

theorem holdingAfter_released {i : Nat} (hi : i ∈ holdingAfter held op)
    (hreleased : ZeroSized op ∨ ∃ index, op = .free index) : i ∈ held := by
  cases op with
  | alloc index size =>
      have hzero : size = 0 := hreleased.resolve_right (by simp)
      rwa [holdingAfter, if_pos hzero] at hi
  | realloc index size =>
      have hzero : size = 0 := hreleased.resolve_right (by simp)
      rw [holdingAfter, if_pos hzero] at hi
      exact Finset.mem_of_mem_erase hi
  | free index => exact Finset.mem_of_mem_erase hi

/-- The replay is in step after a request when its heap, log and pointers are. -/
theorem Lockstep.after (hL : Lockstep d e held) (huses : Uses held op)
    (hdone : Processed mmPackage d op d') {e' : Driver Heap Payloads} {L : Layout}
    (hS : SameLayout d'.heap e'.heap (liveOf d'.issued) L) (hissued : e'.issued = d'.issued)
    (hblocks : ∀ i ∈ holdingAfter held op, e'.table.blocks i = d'.table.blocks i) :
    Lockstep d' e' (holdingAfter held op) where
  layout := ⟨L, hS⟩
  issued := hissued
  remembers := hL.remembers_processed huses hdone hS.left.owned.nodup
  blocks := hblocks

variable {index q : Nat} {size : BitVec 32} {s s₁ : Heap}

theorem FullLockstep.nothing (hF : FullLockstep d e held) (huses : Uses held op)
    (hzero : ZeroSized op)
    (hcall : (mmPackage.exec (callOf d.table op)).run d.heap = .ok (q, s)) :
    ∃ e', Processed mmPackage e op e' ∧
      FullLockstep (issue d s (indexOf op) (callOf d.table op) q) e' (holdingAfter held op) := by
  have hL := hF.toLockstep
  have hsame := hL.callOf_eq huses
  obtain ⟨s', hcall', L, hS⟩ := hL.call huses hcall
  rw [← liveOf_issue d s (indexOf op)] at hS
  rw [← hsame] at hcall'
  refine ⟨_, .nothing hzero hcall', ⟨hL.after huses (.nothing hzero hcall) hS ?_ ?_, ?_, ?_⟩⟩
  · rw [issue, issue, hsame, hL.issued]
  · exact fun i hi => hL.blocks i (holdingAfter_released hi (.inl hzero))
  · exact hF.ranges
  · exact fun i hi => hF.sizes i (holdingAfter_released hi (.inl hzero))

theorem FullLockstep.alloc (hF : FullLockstep d e held)
    (hcall : (mmPackage.exec (.malloc (size.signExtend 64))).run d.heap = .ok (q, s))
    (hq : q ≠ null) (hpos : 0 < size.toInt)
    (hfine : payloadError mmPackage (issue d s index (.malloc (size.signExtend 64)) q) q size = none)
    (hfill : (mmPackage.memset q (fillByte index) (size.signExtend 64).toNat).run s =
      .ok ((), s₁)) :
    ∃ e', Processed mmPackage e (.alloc index size) e' ∧
      FullLockstep (accept (issue d s index (.malloc (size.signExtend 64)) q) s₁ index q size) e'
        (holdingAfter held (.alloc index size)) := by
  have hL := hF.toLockstep
  have huses : Uses held (.alloc index size) := trivial
  obtain ⟨s', s₁', hcall', hfill', L, hS, hS₁⟩ :=
    hL.serve huses hcall (mem_liveAfter_malloc hq) hpos hfill
  have hfine' : payloadError mmPackage
      (issue e s' index (.malloc (size.signExtend 64)) q) q size = none :=
    (hS.payloadError (d := issue d s _ _ _) (e := issue e s' _ _ _) rfl rfl hF.ranges).trans hfine
  rw [callOf, ← liveOf_issue d s index] at hS₁
  refine ⟨_, .alloc hcall' hq hpos hfine' hfill',
    ⟨hL.after huses (.alloc hcall hq hpos hfine hfill) hS₁ ?_ ?_, ?_, ?_⟩⟩
  · exact congrArg (· ++ _) hL.issued
  · exact update_congr q (fun i hi hne => holdingAfter_subset hi hne) hL.blocks
  · exact congrArg (payloadRange q size :: ·) hF.ranges
  · exact update_congr _ (fun i hi hne => holdingAfter_subset hi hne) hF.sizes

theorem FullLockstep.realloc (hF : FullLockstep d e held) (hindex : index ∈ held)
    (hcall : (mmPackage.exec (.realloc (d.table.blocks index) (size.signExtend 64))).run d.heap =
      .ok (q, s))
    (hq : q ≠ null) (hpos : 0 < size.toInt)
    (hfine : payloadError mmPackage (moved d s index (d.table.blocks index) q size) q size = none)
    (hfill : (mmPackage.memset q (fillByte index) (size.signExtend 64).toNat).run s =
      .ok ((), s₁)) :
    ∃ e', Processed mmPackage e (.realloc index size) e' ∧
      FullLockstep (accept (moved d s index (d.table.blocks index) q size) s₁ index q size) e'
        (holdingAfter held (.realloc index size)) := by
  have hL := hF.toLockstep
  have huses : Uses held (.realloc index size) := hindex
  have hblock := hL.blocks index hindex
  obtain ⟨s', s₁', hcall', hfill', L, hS, hS₁⟩ :=
    hL.serve huses hcall
      (mem_liveAfter_realloc (hL.block_ne_null hindex) (signExtend_ne_zero hpos) hq) hpos hfill
  have hranges : (moved e s' index (d.table.blocks index) q size).ranges =
      (moved d s index (d.table.blocks index) q size).ranges :=
    congrArg (List.eraseP _) hF.ranges
  have hfine' : payloadError mmPackage (moved e s' index (d.table.blocks index) q size) q size =
      none :=
    (hS.payloadError (d := moved d s _ _ _ _) (e := moved e s' _ _ _ _) rfl rfl hranges).trans hfine
  rw [callOf, ← liveOf_issue d s index] at hS₁
  rw [callOf, ← hblock] at hcall'
  rw [← hblock] at hfine'
  refine ⟨_, .realloc hcall' hq hpos hfine' hfill',
    ⟨hL.after huses (.realloc hcall hq hpos hfine hfill) hS₁ ?_ ?_, ?_, ?_⟩⟩
  · rw [hblock]
    exact congrArg (· ++ _) hL.issued
  · exact update_congr q (fun i hi hne => holdingAfter_subset hi hne) hL.blocks
  · rw [hblock]
    exact congrArg (payloadRange q size :: ·) hranges
  · exact update_congr _ (fun i hi hne => holdingAfter_subset hi hne) hF.sizes

theorem FullLockstep.free (hF : FullLockstep d e held) (hindex : index ∈ held)
    (hcall : (mmPackage.exec (.free (d.table.blocks index))).run d.heap = .ok (q, s)) :
    ∃ e', Processed mmPackage e (.free index) e' ∧
      FullLockstep
        (issue (drop d (d.table.blocks index)) s index (.free (d.table.blocks index)) q) e'
        (holdingAfter held (.free index)) := by
  have hL := hF.toLockstep
  have huses : Uses held (.free index) := hindex
  have hblock := hL.blocks index hindex
  have hlive : liveOf (issue (drop d (d.table.blocks index)) s index
      (.free (d.table.blocks index)) q).issued =
      liveAfter (liveOf d.issued) (callOf d.table (.free index)) q := liveOf_issue ..
  obtain ⟨s', hcall', L, hS⟩ := hL.call huses hcall
  rw [← hlive] at hS
  rw [callOf, ← hblock] at hcall'
  have hreleased : ∃ index', (Request.free index) = .free index' := ⟨index, rfl⟩
  refine ⟨_, .free hcall', ⟨hL.after huses (.free hcall) hS ?_ ?_, ?_, ?_⟩⟩
  · rw [hblock]
    exact congrArg (· ++ _) hL.issued
  · exact fun i hi => hL.blocks i (holdingAfter_released hi (.inr hreleased))
  · rw [hblock]
    exact congrArg (List.eraseP _) hF.ranges
  · exact fun i hi => hF.sizes i (holdingAfter_released hi (.inr hreleased))

/-- A replay that keeps the records processes what the run processes. -/
theorem FullLockstep.processed (hF : FullLockstep d e held) (huses : Uses held op)
    (hdone : Processed mmPackage d op d') :
    ∃ e', Processed mmPackage e op e' ∧ FullLockstep d' e' (holdingAfter held op) := by
  cases hdone with
  | nothing hzero hcall => exact hF.nothing huses hzero hcall
  | alloc hcall hq hpos hfine hfill => exact hF.alloc hcall hq hpos hfine hfill
  | realloc hcall hq hpos hfine hfill => exact hF.realloc huses hcall hq hpos hfine hfill
  | free hcall => exact hF.free huses hcall

theorem Lockstep.extends_of_call (hL : Lockstep d e held) (huses : Uses held op) {q : Nat} {s : Heap}
    (hcall : (mmPackage.exec (callOf d.table op)).run d.heap = .ok (q, s)) : Extends d.heap s := by
  obtain ⟨L, hS⟩ := hL.layout
  rw [exec_mmPackage] at hcall
  exact exec_extends hS.left (hL.remembers.legal huses)
    (serves_of_int (intSized_callOf d.table op)) hcall

/-- A request leaves the start of the heap where it is, and the heap as long as it was. -/
theorem Lockstep.extends (hL : Lockstep d e held) (huses : Uses held op)
    (hdone : Processed mmPackage d op d') : Extends d.heap d'.heap := by
  cases hdone with
  | nothing hzero hcall => exact hL.extends_of_call huses hcall
  | alloc hcall hq hpos hfine hfill =>
      exact (hL.extends_of_call huses hcall).trans (memset_extends hfill)
  | realloc hcall hq hpos hfine hfill =>
      exact (hL.extends_of_call huses hcall).trans (memset_extends hfill)
  | free hcall =>
      have hcall' : (mmPackage.exec (callOf d.table (.free _))).run d.heap = .ok (_, _) := hcall
      exact hL.extends_of_call huses hcall'

/-- `eval_mm_speed` makes the calls of the run, as long as they ask for something. -/
theorem Lockstep.speed (hL : Lockstep d e held) (huses : Uses held op)
    (hdone : Processed mmPackage d op d') (hnonzero : ¬ ZeroSized op) :
    ∃ e', (speedRequest mmPackage op).run e = .ok ((), e') ∧
      Lockstep d' e' (holdingAfter held op) := by
  have hblocks := hL.blocks
  cases hdone with
  | nothing hzero hcall => exact absurd hzero hnonzero
  | @alloc index q size s s₁ hcall hq hpos hfine hfill =>
      obtain ⟨s', s₁', hcall', hfill', L, -, hS⟩ :=
        hL.serve huses hcall (mem_liveAfter_malloc hq) hpos hfill
      rw [callOf, ← liveOf_issue d s index] at hS
      rw [callOf] at hcall'
      have hspeed : (speedRequest mmPackage (.alloc index size)).run e =
          .ok ((), setPointer (refill (issue e s' index (.malloc (size.signExtend 64)) q)
            s₁') index q) := by
        rw [speedRequest, run_bind_of_ok (callMm_run index hcall'), if_neg hq,
          run_bind_of_ok (fillRange_run (d := issue e s' _ _ _) hfill')]
        rfl
      refine ⟨_, hspeed, hL.after huses (.alloc hcall hq hpos hfine hfill) hS ?_ ?_⟩
      · exact congrArg (· ++ _) hL.issued
      · exact update_congr q (fun i hi hne => holdingAfter_subset hi hne) hblocks
  | @realloc index q size s s₁ hcall hq hpos hfine hfill =>
      obtain ⟨s', s₁', hcall', hfill', L, -, hS⟩ := hL.serve huses hcall
        (mem_liveAfter_realloc (hL.block_ne_null huses) (signExtend_ne_zero hpos) hq) hpos hfill
      rw [callOf, ← liveOf_issue d s index] at hS
      rw [callOf, ← hblocks index huses] at hcall'
      have hspeed : (speedRequest mmPackage (.realloc index size)).run e =
          .ok ((), setPointer (refill (issue e s' index
            (.realloc (e.table.blocks index) (size.signExtend 64)) q) s₁') index q) := by
        rw [speedRequest, run_bind_of_ok (getBlock_run index e), run_bind_of_ok (callMm_run index hcall'),
          if_neg hq, run_bind_of_ok (fillRange_run (d := issue e s' _ _ _) hfill')]
        rfl
      refine ⟨_, hspeed, hL.after huses (.realloc hcall hq hpos hfine hfill) hS ?_ ?_⟩
      · rw [hblocks index huses]
        exact congrArg (· ++ _) hL.issued
      · exact update_congr q (fun i hi hne => holdingAfter_subset hi hne) hblocks
  | @free index q s hcall =>
      obtain ⟨s', hcall', L, hS⟩ := hL.call huses hcall
      have hlive : liveOf (issue (drop d (d.table.blocks index)) s index
          (.free (d.table.blocks index)) q).issued =
          liveAfter (liveOf d.issued) (callOf d.table (.free index)) q := liveOf_issue ..
      rw [← hlive] at hS
      rw [callOf, ← hblocks index huses] at hcall'
      have hspeed : (speedRequest mmPackage (.free index)).run e =
          .ok ((), issue e s' index (.free (e.table.blocks index)) q) := by
        rw [speedRequest, run_bind_of_ok (getBlock_run index e), run_bind_of_ok (callMm_run index hcall')]
        rfl
      refine ⟨_, hspeed, hL.after huses (.free hcall) hS ?_ ?_⟩
      · rw [hblocks index huses]
        exact congrArg (· ++ _) hL.issued
      · exact fun i hi => hblocks i (holdingAfter_released hi (.inr ⟨index, rfl⟩))

end Steps

section Runs

variable {d d' e : Driver Heap Payloads} {held : Finset Nat} {ops : List Request}
  {tracenum i : Nat} {t : Totals}

/-- `eval_mm_util` follows a run that `eval_mm_valid` accepts. -/
theorem FullLockstep.util (hF : FullLockstep d e held) (huses : UsesHeld held ops)
    (hrun : (validRequests mmPackage tracenum i ops).run d = .ok (true, d')) :
    ∃ t' e', (utilRequests mmPackage tracenum i t ops).run e = .ok (some t', e') ∧
      FullLockstep d' e' (ops.foldl holdingAfter held) ∧ e'.errors = e.errors ∧
      Extends d.heap d'.heap := by
  induction ops generalizing d e held i t with
  | nil =>
      cases hrun
      exact ⟨t, e, rfl, hF, rfl, .refl _⟩
  | cons op ops ih =>
      obtain ⟨b, d₁, hfirst, hrest⟩ := run_bind_eq_ok hrun
      rcases b with _ | _
      · cases hrest
      · have hfirst' := validRequest_true hfirst
        obtain ⟨e₁, hdone, hF₁⟩ := hF.processed huses.1 hfirst'
        obtain ⟨t', e', hrun', hF', herrors, hext⟩ := ih hF₁ huses.2 hrest
        refine ⟨t', e', ?_, hF', herrors.trans hdone.errors,
          (hF.extends huses.1 hfirst').trans hext⟩
        rw [utilRequests, run_bind_of_ok (utilRequest_run _ _ _ hdone)]
        exact hrun'

/-- So does `eval_mm_speed`, if every request asks for something. -/
theorem Lockstep.speedRequests (hL : Lockstep d e held) (huses : UsesHeld held ops)
    (hnonzero : ∀ op ∈ ops, ¬ ZeroSized op)
    (hrun : (validRequests mmPackage tracenum i ops).run d = .ok (true, d')) :
    ∃ e', (speedRequests mmPackage ops).run e = .ok ((), e') ∧
      Lockstep d' e' (ops.foldl holdingAfter held) := by
  induction ops generalizing d e held i with
  | nil =>
      cases hrun
      exact ⟨e, rfl, hL⟩
  | cons op ops ih =>
      obtain ⟨hop, hops⟩ := List.forall_mem_cons.mp hnonzero
      obtain ⟨b, d₁, hfirst, hrest⟩ := run_bind_eq_ok hrun
      rcases b with _ | _
      · cases hrest
      · obtain ⟨e₁, hspeed, hL₁⟩ := hL.speed huses.1 (validRequest_true hfirst) hop
        obtain ⟨e', hrun', hL'⟩ := ih hL₁ huses.2 hops hrest
        refine ⟨e', ?_, hL'⟩
        rw [Mdriver.speedRequests, run_bind_of_ok hspeed]
        exact hrun'

/-- `eval_mm_speed` takes a `NULL` for a failure even where nothing was asked for. -/
theorem speedRequest_nothing {op : Request} (hzero : ZeroSized op) (e e' : Driver Heap Payloads) :
    (speedRequest mmPackage op).run e ≠ .ok ((), e') := by
  have hnull : ∀ {c : Call} {index q : Nat} {e₁ : Driver Heap Payloads}, AsksNothing c →
      (callMm mmPackage index c).run e = .ok (q, e₁) → q = null := by
    intro c index q e₁ hc hcall
    obtain ⟨s, hexec, -⟩ := callMm_eq_ok hcall
    rw [exec_mmPackage] at hexec
    exact null_of_asksNothing hc hexec
  intro hrun
  cases op with
  | alloc index size =>
      obtain ⟨q, e₁, hcall, hrest⟩ := run_bind_eq_ok hrun
      have hc : AsksNothing (.malloc (size.signExtend 64)) := signExtend_eq_zero_iff.mpr hzero
      rw [if_pos (hnull hc hcall)] at hrest
      cases hrest
  | realloc index size =>
      rw [speedRequest, run_bind_of_ok (getBlock_run index e)] at hrun
      obtain ⟨q, e₁, hcall, hrest⟩ := run_bind_eq_ok hrun
      have hc : AsksNothing (.realloc (e.table.blocks index) (size.signExtend 64)) :=
        signExtend_eq_zero_iff.mpr hzero
      rw [if_pos (hnull hc hcall)] at hrest
      cases hrest
  | free index => exact hzero

theorem speedRequests_nonzero (hrun : (speedRequests mmPackage ops).run e = .ok ((), d')) :
    ∀ op ∈ ops, ¬ ZeroSized op := by
  induction ops generalizing e with
  | nil => simp
  | cons op ops ih =>
      obtain ⟨⟨⟩, e₁, hfirst, hrest⟩ := run_bind_eq_ok hrun
      exact List.forall_mem_cons.mpr ⟨fun hzero => speedRequest_nothing hzero e e₁ hfirst, ih hrest⟩

end Runs

section Starts

variable {h h' : Heap} {start : Nat}

/-- Two runs on one arena start in step. -/
theorem lockstep_started (hI : Invariant ⟨h, []⟩ (emptyLayout start))
    (hI' : Invariant ⟨h', []⟩ (emptyLayout start)) (d e : Driver Heap Payloads)
    (hissued : e.issued = []) : Lockstep (started d h) { e with heap := h' } ∅ where
  layout := ⟨_, hI, hI'⟩
  issued := hissued
  remembers := .empty _
  blocks i hi := absurd hi (Finset.notMem_empty i)

theorem fullLockstep_started (hI : Invariant ⟨h, []⟩ (emptyLayout start))
    (hI' : Invariant ⟨h', []⟩ (emptyLayout start)) (d e : Driver Heap Payloads) :
    FullLockstep (started d h) (started e h') ∅ where
  toLockstep := lockstep_started hI hI' d (started e h') rfl
  ranges := rfl
  sizes i hi := absurd hi (Finset.notMem_empty i)

/-- The arena is where it was after a trace was accepted. -/
theorem arena_kept {d d' : Driver Heap Payloads} {ops : List Request} {tracenum : Nat}
    (hvalid : (evalMmValid mmPackage tracenum ops).run d = .ok (true, d'))
    (huses : UsesHeld ∅ ops) : d'.heap.arena.start = d.heap.arena.start := by
  obtain ⟨h, hI, hstart, -⟩ := mm_started d
  have hbase : h.memStartBrk = d.heap.arena.start := hI.represents.base
  rw [hstart] at hvalid
  obtain ⟨-, -, -, -, -, hext⟩ :=
    (fullLockstep_started hI hI d d).util (t := ⟨0, 0⟩) huses hvalid
  exact hext.start.trans hbase

end Starts

end MallocLab.Replays
