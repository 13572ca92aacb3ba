import MallocLab.Repl
import MallocLab.DataPreservation
import MallocLab.TraceBookkeeping

/-!
The payloads in the hands of the REPL, each with the index it was obtained through, and
the table of the REPL against them.
-/

namespace MallocLab.ReplHoldings

open MallocLab.ByteMemory
open MallocLab.Machine
open MallocLab.Mm
open MallocLab.HeapPrograms
open MallocLab.AbstractLayout
open MallocLab.Runs
open MallocLab.LiveBlocks
open MallocLab.Failure
open MallocLab.DataPreservation
open MallocLab.MallocPackage
open MallocLab.Mdriver
open MallocLab.DriverPrograms
open MallocLab.AllocatorContract
open MallocLab.TraceBookkeeping
open MallocLab.Repl

/-- Payloads with the index each was obtained through. -/
abbrev Holdings := List (Nat × Nat × Word)

section Log

variable {hs : Holdings} {issued : List Issued} {e : Issued}

def without (hs : Holdings) (ptr : Nat) : Holdings := hs.filter fun x => x.2.1 ≠ ptr

/-- The payloads after one more call. -/
def holdingsAfter (hs : Holdings) (e : Issued) : Holdings :=
  match e.call with
  | .malloc size => if e.result = null then hs else (e.index, e.result, size) :: hs
  | .free ptr => without hs ptr
  | .realloc ptr size =>
      if ptr = null then
        if e.result = null then hs else (e.index, e.result, size) :: hs
      else if size = 0 then without hs ptr
      else if e.result = null then hs
      else (e.index, e.result, size) :: without hs ptr

/-- The payloads that were obtained and not released since. -/
def holdings (issued : List Issued) : Holdings := issued.foldl holdingsAfter []

theorem holdings_concat (issued : List Issued) (e : Issued) :
    holdings (issued ++ [e]) = holdingsAfter (holdings issued) e := List.foldl_concat ..

theorem map_without (hs : Holdings) (ptr : Nat) :
    (without hs ptr).map Prod.snd = (hs.map Prod.snd).filter fun x => x.1 ≠ ptr := by
  rw [List.filter_map]
  rfl

/-- Without their indices they change like the live payloads. -/
theorem map_holdingsAfter (hs : Holdings) (e : Issued) :
    (holdingsAfter hs e).map Prod.snd = liveAfter (hs.map Prod.snd) e.call e.result := by
  obtain ⟨index, c, q⟩ := e
  cases c with
  | malloc size =>
      simp only [holdingsAfter, liveAfter]
      split
      · rfl
      · rfl
  | free ptr => exact map_without hs ptr
  | realloc ptr size =>
      simp only [holdingsAfter, liveAfter]
      split
      · split
        · rfl
        · rfl
      · split
        · exact map_without hs ptr
        · split
          · rfl
          · rw [List.map_cons, map_without]

theorem mem_without {ptr : Nat} {x : Nat × Nat × Word} :
    x ∈ without hs ptr ↔ x ∈ hs ∧ x.2.1 ≠ ptr := by
  rw [without, List.mem_filter, decide_eq_true_iff]

end Log

section Bytes

variable {h s : Heap} {live : Live} {L : Layout} {c : Call} {q : Nat} {r : Nat × Word}

/-- The pointer that a call may release. -/
def argument : Call → Nat
  | .malloc _ => null
  | .free ptr => ptr
  | .realloc ptr _ => ptr

/-- A failed `mm_realloc` of a live payload changes nothing. -/
theorem realloc_null_same (hI : Invariant ⟨h, live⟩ L) {ptr : Nat} {m size : Word}
    (hlive : (ptr, m) ∈ live) (hsize : size ≠ 0)
    (hrun : (mmRealloc ptr size).run h = .ok (null, s)) : s = h := by
  obtain ⟨b, hb, rfl, -⟩ := hI.block_of_live hlive
  exact mmRealloc_run_null hI.represents hb hsize hrun

theorem mmRealloc_null_eq_ok {size : Word} (hrun : (mmRealloc null size).run h = .ok (q, s)) :
    q = null ∧ ∃ q', (mmMalloc size).run h = .ok (q', s) := by
  rw [mmRealloc, if_pos rfl] at hrun
  obtain ⟨q', s', hmalloc, hrest⟩ := run_bind_eq_ok hrun
  cases hrest
  exact ⟨rfl, q', hmalloc⟩

/-- A call keeps the bytes of every other live payload. -/
theorem exec_keeps (hI : Invariant ⟨h, live⟩ L) (hlegal : c.Legal live) (hint : c.IntSized)
    (hrun : (mmPackage.exec c).run h = .ok (q, s)) (hr : r ∈ live) (hne : r.1 ≠ argument c) :
    Keeps h s r := by
  rw [exec_mmPackage] at hrun
  cases c with
  | malloc size => exact mmMalloc_keeps hI hint hrun hr
  | free ptr =>
      obtain ⟨⟨⟩, s', hfree, hrest⟩ := run_bind_eq_ok hrun
      cases hrest
      exact mmFree_keeps hI hlegal hfree hr hne
  | realloc ptr size =>
      change (mmRealloc ptr size).run h = .ok (q, s) at hrun
      rcases hlegal with rfl | ⟨m, hlive⟩
      · obtain ⟨-, q', hmalloc⟩ := mmRealloc_null_eq_ok hrun
        exact mmMalloc_keeps hI hint hmalloc hr
      · have hptr : ptr ≠ null := by
          obtain ⟨b, -, rfl, -⟩ := hI.block_of_live hlive
          exact Nat.succ_ne_zero _
        rcases Decidable.em (size = 0) with rfl | hsize
        · rw [mmRealloc, if_neg hptr, if_pos rfl] at hrun
          obtain ⟨⟨⟩, s', hfree, hrest⟩ := run_bind_eq_ok hrun
          cases hrest
          exact mmFree_keeps hI (.inr ⟨m, hlive⟩) hfree hr hne
        · rcases Decidable.em (q = null) with rfl | hq
          · obtain rfl := realloc_null_same hI hlive hsize hrun
            exact fun x _ => rfl
          · obtain ⟨b, hb, rfl, -, L', u, -, -, -, hcarried⟩ :=
              mmRealloc_carries hI hlive hint hsize hrun hq
            refine keeps_of_bytes hI hr fun c hc haddr => hcarried.others c hc ?_
            rintro rfl
            exact hne haddr.symm

/-- The bytes asked for of a payload hold what the driver fills them with. -/
def Filled (h : Heap) (x : Nat × Nat × Word) : Prop :=
  ∀ a ∈ requested x.2, h.memory a = fillByte x.1

theorem Filled.keeps {x : Nat × Nat × Word} (hx : Filled h x) (hkeeps : Keeps h s x.2) :
    Filled s x := fun a ha => (hkeeps a ha).trans (hx a ha)

variable {index : Nat} {size : Word}

theorem memset_filled {i : Nat} (hI : MmInv h ((q, size) :: live))
    (hfill : (mmPackage.memset q (fillByte i) size.toNat).run h = .ok ((), s)) :
    MmInv s ((q, size) :: live) ∧ Filled s (i, q, size) ∧ ∀ r ∈ live, Keeps h s r := by
  obtain ⟨⟨L, hL⟩, hpos⟩ := hI
  have hsize : 0 < size.toInt := hpos _ List.mem_cons_self
  have hnat := toNat_le_of_pos hsize
  obtain ⟨hrun, hL'⟩ := memset_invariant hL List.mem_cons_self hnat.le (fillByte i)
  obtain ⟨-, rfl⟩ := Prod.mk.inj (Except.ok.inj (hfill.symm.trans hrun))
  refine ⟨⟨⟨L, hL'⟩, hpos⟩, ?_, ?_⟩
  · rintro a ⟨hlo, hhi⟩
    apply fill_apply_of_mem
    change q ≤ a at hlo
    change (a : Int) < q + size.toInt at hhi
    omega
  · intro r hr a ha
    apply fill_apply_of_not_mem
    have hapart := (List.pairwise_cons.mp (mm_disjoint ⟨⟨L, hL⟩, hpos⟩)).1 r hr
    have hrpos : 0 < r.2.toInt := hpos r (List.mem_cons_of_mem _ hr)
    have hrnat := toNat_le_of_pos hrpos
    obtain ⟨hlo, hhi⟩ := ha
    change q + size.toNat - 1 < r.1 ∨ r.1 + r.2.toNat - 1 < q at hapart
    omega

end Bytes

section Tables

variable {h s s' : Heap} {rs : List Range} {hs : Holdings} {blocks : Nat → ReplBlock}
  {i j p q : Nat} {n m : Word}

/-- The table gives the payload at `p`, of `n` bytes, to index `i`. -/
structure Has (blocks : Nat → ReplBlock) (i p : Nat) (n : Word) : Prop where
  lt : i < numBlocks
  isValid : (blocks i).isValid = true
  ptr : (blocks i).ptr = p
  size : (blocks i).size = n

/-- What holds between two commands, of the heap, the records, the payloads obtained and the
table. -/
structure Consistent (h : Heap) (rs : List Range) (hs : Holdings) (blocks : Nat → ReplBlock) :
    Prop where
  mm : MmInv h (hs.map Prod.snd)
  table : ∀ i p n, (i, p, n) ∈ hs ↔ Has blocks i p n
  ranges : rs.Perm (hs.map fun x => rangeOf x.2)
  int : ∀ x ∈ hs, ∃ size : BitVec 32, x.2.2 = size.signExtend 64
  filled : ∀ x ∈ hs, Filled h x

theorem Consistent.mem (hC : Consistent h rs hs blocks) (hi : i < numBlocks)
    (hvalid : (blocks i).isValid = true) : (i, (blocks i).ptr, (blocks i).size) ∈ hs :=
  (hC.table i _ _).mpr ⟨hi, hvalid, rfl, rfl⟩

theorem Consistent.live (hC : Consistent h rs hs blocks) (hi : i < numBlocks)
    (hvalid : (blocks i).isValid = true) :
    ((blocks i).ptr, (blocks i).size) ∈ hs.map Prod.snd :=
  List.mem_map_of_mem (hC.mem hi hvalid)

/-- Different payloads have different pointers. -/
theorem Consistent.eq_of_ptr (hC : Consistent h rs hs blocks) {x y : Nat × Nat × Word}
    (hx : x ∈ hs) (hy : y ∈ hs) (heq : x.2.1 = y.2.1) : x = y := by
  have hnodup := keys_nodup mm_contract hC.mm
  rw [List.map_map] at hnodup
  exact List.inj_on_of_nodup_map hnodup hx hy heq

theorem Consistent.eq_of_valid (hC : Consistent h rs hs blocks) (hi : i < numBlocks)
    (hj : j < numBlocks) (hivalid : (blocks i).isValid = true)
    (hjvalid : (blocks j).isValid = true) (heq : (blocks i).ptr = (blocks j).ptr) : i = j :=
  congrArg Prod.fst (hC.eq_of_ptr (hC.mem hi hivalid) (hC.mem hj hjvalid) heq)

theorem Consistent.ptr_ne_null (hC : Consistent h rs hs blocks) (hi : i < numBlocks)
    (hvalid : (blocks i).isValid = true) : (blocks i).ptr ≠ null :=
  (mm_placed hC.mm _ (hC.live hi hvalid)).ne_null

/-- Releasing the payload of `i` leaves the payloads of the other indices. -/
theorem Consistent.mem_without_iff (hC : Consistent h rs hs blocks) (hi : i < numBlocks)
    (hvalid : (blocks i).isValid = true) :
    (j, p, n) ∈ without hs (blocks i).ptr ↔ Has blocks j p n ∧ j ≠ i := by
  rw [mem_without, hC.table]
  constructor
  · rintro ⟨hhas, hne⟩
    refine ⟨hhas, ?_⟩
    rintro rfl
    exact hne hhas.ptr.symm
  · rintro ⟨hhas, hne⟩
    refine ⟨hhas, fun heq => hne ?_⟩
    have hmem := (hC.table j p n).mpr hhas
    exact congrArg Prod.fst (hC.eq_of_ptr hmem (hC.mem hi hvalid) heq)

/-- A call that released nothing and obtained nothing. -/
theorem Consistent.keep (hC : Consistent h rs hs blocks) (hmm : MmInv s (hs.map Prod.snd))
    (hkeeps : ∀ r ∈ hs.map Prod.snd, Keeps h s r) : Consistent s rs hs blocks where
  mm := hmm
  table := hC.table
  ranges := hC.ranges
  int := hC.int
  filled x hx := (hC.filled x hx).keeps (hkeeps _ (List.mem_map_of_mem hx))

theorem ranges_without {rs : List Range} (hC : Consistent h rs hs blocks) (hi : i < numBlocks)
    (hvalid : (blocks i).isValid = true) :
    (rs.eraseP fun r => r.lo = (blocks i).ptr).Perm
      ((without hs (blocks i).ptr).map fun x => rangeOf x.2) := by
  have hranges : rs.Perm ((hs.map Prod.snd).map rangeOf) := by
    rw [List.map_map]
    exact hC.ranges
  have herased := eraseP_release (keys_nodup mm_contract hC.mm) (hC.live hi hvalid) hranges
  rw [← map_without, List.map_map] at herased
  exact herased

/-- The payload of `i` is released, and its index is not valid any more. -/
theorem Consistent.release (hC : Consistent h rs hs blocks) (hi : i < numBlocks)
    (hvalid : (blocks i).isValid = true)
    (hmm : MmInv s ((without hs (blocks i).ptr).map Prod.snd))
    (hkeeps : ∀ r ∈ hs.map Prod.snd, r.1 ≠ (blocks i).ptr → Keeps h s r) :
    Consistent s (rs.eraseP fun r => r.lo = (blocks i).ptr) (without hs (blocks i).ptr)
      (Function.update blocks i { blocks i with isValid := false }) where
  mm := hmm
  table j p n := by
    rw [hC.mem_without_iff hi hvalid]
    constructor
    · rintro ⟨⟨hlt, hjvalid, hptr, hsize⟩, hne⟩
      have hsame : Function.update blocks i { blocks i with isValid := false } j = blocks j :=
        Function.update_of_ne hne _ _
      exact ⟨hlt, hsame ▸ hjvalid, hsame ▸ hptr, hsame ▸ hsize⟩
    · rintro ⟨hlt, hjvalid, hptr, hsize⟩
      rcases Decidable.em (j = i) with rfl | hne
      · rw [Function.update_self] at hjvalid
        cases hjvalid
      · rw [Function.update_of_ne hne] at hjvalid hptr hsize
        exact ⟨⟨hlt, hjvalid, hptr, hsize⟩, hne⟩
  ranges := ranges_without hC hi hvalid
  int x hx := hC.int x (mem_without.mp hx).1
  filled x hx := by
    obtain ⟨hmem, hne⟩ := mem_without.mp hx
    exact (hC.filled x hmem).keeps (hkeeps _ (List.mem_map_of_mem hmem) hne)

/-- A payload is recorded, filled, and stored for index `i`, which had none. -/
theorem consistent_store {size : BitVec 32} {b : ReplBlock} (hi : i < numBlocks)
    (htable : ∀ j p n, (j, p, n) ∈ hs ↔ Has blocks j p n ∧ j ≠ i)
    (hranges : rs.Perm (hs.map fun x => rangeOf x.2))
    (hint : ∀ x ∈ hs, ∃ size : BitVec 32, x.2.2 = size.signExtend 64)
    (hfilled : ∀ x ∈ hs, Filled s x)
    (hI : MmInv s ((q, size.signExtend 64) :: hs.map Prod.snd))
    (hfill : (mmPackage.memset q (fillByte i) (size.signExtend 64).toNat).run s = .ok ((), s'))
    (hb : Has (fun _ => b) i q (size.signExtend 64)) :
    Consistent s' (payloadRange q size :: rs) ((i, q, size.signExtend 64) :: hs)
      (Function.update blocks i b) := by
  obtain ⟨hmm, hnew, hkeeps⟩ := memset_filled hI hfill
  have hpos : 0 < size.toInt := by
    have hlong : 0 < (size.signExtend 64).toInt :=
      hI.2 (q, size.signExtend 64) List.mem_cons_self
    rwa [BitVec.toInt_signExtend_of_le (by decide)] at hlong
  constructor
  · exact hmm
  · intro j p n
    rw [List.mem_cons, htable]
    rcases Decidable.em (j = i) with rfl | hne
    · have hself : Function.update blocks j b j = b := Function.update_self ..
      constructor
      · rintro (heq | ⟨-, hne⟩)
        · cases heq
          exact ⟨hi, (congrArg ReplBlock.isValid hself).trans hb.isValid,
            (congrArg ReplBlock.ptr hself).trans hb.ptr,
            (congrArg ReplBlock.size hself).trans hb.size⟩
        · exact absurd rfl hne
      · rintro ⟨-, -, hptr, hsize⟩
        rw [hself] at hptr hsize
        exact .inl (by rw [← hptr, ← hsize, ← hb.ptr, ← hb.size])
    · have hsame : Function.update blocks i b j = blocks j := Function.update_of_ne hne _ _
      constructor
      · rintro (heq | ⟨⟨hlt, hjvalid, hptr, hsize⟩, -⟩)
        · cases heq
          exact absurd rfl hne
        · exact ⟨hlt, hsame ▸ hjvalid, hsame ▸ hptr, hsame ▸ hsize⟩
      · rintro ⟨hlt, hjvalid, hptr, hsize⟩
        rw [hsame] at hjvalid hptr hsize
        exact .inr ⟨⟨hlt, hjvalid, hptr, hsize⟩, hne⟩
  · rw [List.map_cons, rangeOf_signExtend hpos.le]
    exact hranges.cons _
  · exact List.forall_mem_cons.mpr ⟨⟨size, rfl⟩, hint⟩
  · refine List.forall_mem_cons.mpr ⟨hnew, fun x hx => ?_⟩
    exact (hfilled x hx).keeps (hkeeps _ (List.mem_map_of_mem hx))

end Tables

end MallocLab.ReplHoldings
