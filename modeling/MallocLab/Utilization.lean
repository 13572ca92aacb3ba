import Mathlib.Algebra.Order.Ring.Rat
import Mathlib.Algebra.Order.Field.Basic
import MallocLab.Packing
import MallocLab.Replays
import MallocLab.TraceBookkeeping

/-!
The counters of `eval_mm_util` against the sizes of the live payloads.
-/

namespace MallocLab.Utilization

open MallocLab.Packing
open MallocLab.Machine
open MallocLab.HeapPrograms
open MallocLab.Runs
open MallocLab.MallocPackage
open MallocLab.HeapExtents
open MallocLab.Mdriver
open MallocLab.DriverPrograms
open MallocLab.AllocatorContract
open MallocLab.TraceSteps
open MallocLab.TraceBookkeeping
open MallocLab.Replays

section Sums

variable {live : Live} {h : Heap} {p : Nat} {size : Word}

/-- The sum of the sizes last requested for the live payloads. -/
def sizeSum (live : Live) : Int := (live.map fun e => e.2.toInt).sum

theorem sizeSum_cons (e : Nat × Word) (live : Live) :
    sizeSum (e :: live) = e.2.toInt + sizeSum live := rfl

theorem sizeSum_release (hnodup : (live.map Prod.fst).Nodup) (hlive : (p, size) ∈ live) :
    sizeSum live = size.toInt + sizeSum (live.filter fun e => e.1 ≠ p) :=
  ((perm_release hnodup hlive).map fun e : Nat × Word => e.2.toInt).sum_eq

theorem sum_toNat (hpos : ∀ e ∈ live, 0 < e.2.toInt) :
    (((live.map fun e => e.2.toNat).sum : Nat) : Int) = sizeSum live := by
  induction live with
  | nil => rfl
  | cons e live ih =>
      obtain ⟨he, hlive⟩ := List.forall_mem_cons.mp hpos
      rw [List.map_cons, List.sum_cons, Nat.cast_add, ih hlive, sizeSum_cons, toNat_le_of_pos he]

/-- The live payloads fit into the heap. -/
theorem sizeSum_le_heapsize (hI : MmInv h live) : sizeSum live ≤ h.memHeapsize := by
  have hend : ∀ e ∈ live, e.1 + e.2.toNat - 1 + 1 = e.1 + e.2.toNat := by
    intro e he
    have hne : e.1 ≠ 0 := (mm_placed hI e he).ne_null
    omega
  have haside : live.Pairwise (Aside Prod.fst fun e => e.2.toNat) := by
    refine (mm_disjoint hI).imp_of_mem fun {e f} he hf hapart => ?_
    rw [Aside, ← hend e he, ← hend f hf]
    exact hapart
  have hinside : ∀ e ∈ live, h.memStartBrk ≤ e.1 ∧ e.1 + e.2.toNat ≤ h.memBrk := by
    intro e he
    obtain ⟨hlo, hhi⟩ := (mm_placed hI e he).inside
    have hne : e.1 ≠ 0 := (mm_placed hI e he).ne_null
    have hsize := toNat_le_of_pos (mm_placed hI e he).pos
    have hpos := (mm_placed hI e he).pos
    change e.1 + e.2.toNat - 1 ≤ h.memBrk - 1 at hhi
    exact ⟨hlo, by omega⟩
  rw [← sum_toNat hI.2]
  exact_mod_cast sum_le_of_aside haside hinside

theorem heapsize_le (hI : MmInv h live) : h.memHeapsize ≤ maxHeap := by
  obtain ⟨⟨L, hL⟩, -⟩ := hI
  have hfits := hL.represents.holds.fits
  change h.memBrk ≤ h.memStartBrk + maxHeap at hfits
  rw [Heap.memHeapsize]
  omega

end Sums

section Peaks

variable {issued : List Issued} {e : Issued} {m : Int}

/-- The sums after the calls made so far. -/
def sumsSoFar (issued : List Issued) : Set Int :=
  {n | ∃ j, n = sizeSum (liveOf (issued.take j))}

theorem sizeSum_mem (issued : List Issued) : sizeSum (liveOf issued) ∈ sumsSoFar issued :=
  ⟨issued.length, by rw [List.take_length]⟩

theorem sumsSoFar_concat (issued : List Issued) (e : Issued) :
    sumsSoFar (issued ++ [e]) =
      insert (sizeSum (liveOf (issued ++ [e]))) (sumsSoFar issued) := by
  apply Set.ext
  intro n
  constructor
  · rintro ⟨j, rfl⟩
    rcases Nat.le_or_ge j issued.length with hle | hge
    · right
      exact ⟨j, by rw [List.take_append_of_le_length hle]⟩
    · rcases Nat.eq_or_lt_of_le hge with rfl | hlt
      · right
        exact ⟨issued.length, by rw [List.take_append_of_le_length le_rfl]⟩
      · left
        rw [List.take_of_length_le]
        rw [List.length_append, List.length_singleton]
        exact hlt
  · rintro (rfl | ⟨j, rfl⟩)
    · exact sizeSum_mem _
    · refine ⟨min j issued.length, ?_⟩
      rw [List.take_append_of_le_length (min_le_right _ _), List.take_eq_take_min]

end Peaks

section Words

variable {n : Int}

theorem setWidth_eq_ofInt (w : Word) : w.setWidth 32 = BitVec.ofInt 32 w.toInt := by
  apply BitVec.eq_of_toInt_eq
  rw [BitVec.toInt_setWidth, BitVec.toInt_ofInt, BitVec.toInt_eq_toNat_bmod]
  exact (Int.bmod_bmod_of_dvd (by decide)).symm

theorem ofInt_add_size (n : Int) (size : BitVec 32) :
    BitVec.ofInt 32 n + size = BitVec.ofInt 32 (n + (size.signExtend 64).toInt) := by
  rw [BitVec.ofInt_add, BitVec.toInt_signExtend_of_le (by decide), BitVec.ofInt_toInt]

theorem ofInt_sub_size (n : Int) (w : Word) :
    BitVec.ofInt 32 n - w.setWidth 32 = BitVec.ofInt 32 (n - w.toInt) := by
  rw [Int.sub_eq_add_neg, BitVec.ofInt_add, BitVec.ofInt_neg, BitVec.sub_eq_add_neg,
    setWidth_eq_ofInt]

theorem ofInt_resize (n : Int) (size : BitVec 32) (w : Word) :
    BitVec.ofInt 32 n + (size - w.setWidth 32) =
      BitVec.ofInt 32 (n - w.toInt + (size.signExtend 64).toInt) := by
  rw [← ofInt_add_size, ← ofInt_sub_size, BitVec.sub_eq_add_neg, BitVec.sub_eq_add_neg,
    BitVec.add_assoc, BitVec.add_comm size]

/-- The sum of the live sizes is an `int`. -/
theorem toInt_ofInt_sizeSum {h : Heap} {live : Live} (hI : MmInv h live) :
    (BitVec.ofInt 32 (sizeSum live)).toInt = sizeSum live := by
  have hnonneg : 0 ≤ sizeSum live := by
    rw [← sum_toNat hI.2]
    exact Int.natCast_nonneg _
  have hle := sizeSum_le_heapsize hI
  have hmax := heapsize_le hI
  rw [maxHeap] at hmax
  apply BitVec.toInt_ofInt_eq_self (by decide)
  · exact le_trans (by decide) hnonneg
  · omega

end Words

section Counters

variable {d d' e : Driver Heap Payloads} {held : Finset Nat} {op : Request} {ops : List Request}
  {tracenum i : Nat} {t t' : Totals}

/-- The counters are right, and the heap has held what they count. -/
structure Counts (t : Totals) (d : Driver Heap Payloads) : Prop where
  total : t.totalSize = BitVec.ofInt 32 (sizeSum (liveOf d.issued))
  peak : IsGreatest (sumsSoFar d.issued) t.maxTotalSize.toInt
  pos : ∀ e ∈ liveOf d.issued, 0 < e.2.toInt
  peak_le : t.maxTotalSize.toInt ≤ d.heap.memHeapsize

theorem Counts.mmInv (hC : Counts t d) (hF : FullLockstep d e held) :
    MmInv d.heap (liveOf d.issued) := by
  obtain ⟨L, hS⟩ := hF.layout
  exact ⟨⟨L, hS.left⟩, hC.pos⟩

theorem Counts.toInt_total (hC : Counts t d) (hI : MmInv d.heap (liveOf d.issued)) :
    t.totalSize.toInt = sizeSum (liveOf d.issued) := by
  rw [hC.total]
  exact toInt_ofInt_sizeSum hI

/-- The counters after one more call. -/
theorem Counts.next (hC : Counts t d) {c : Issued} (hI : MmInv d'.heap (liveOf d'.issued))
    (hext : Extends d.heap d'.heap) (hissued : d'.issued = d.issued ++ [c])
    (htotal : t'.totalSize = BitVec.ofInt 32 (sizeSum (liveOf d'.issued)))
    (hpeak : t'.maxTotalSize.toInt = max (sizeSum (liveOf d'.issued)) t.maxTotalSize.toInt) :
    Counts t' d' where
  total := htotal
  peak := by
    rw [hpeak, hissued, sumsSoFar_concat]
    exact hC.peak.insert _
  pos := hI.2
  peak_le := by
    have hgrown := hext.heapsize
    have hold := hC.peak_le
    rw [hpeak]
    apply max_le (sizeSum_le_heapsize hI)
    omega

/-- A sum that does not rise leaves the peak where it is. -/
theorem Counts.settle (hC : Counts t d) {c : Issued} (hI : MmInv d'.heap (liveOf d'.issued))
    (hext : Extends d.heap d'.heap) (hissued : d'.issued = d.issued ++ [c])
    (htotal : t'.totalSize = BitVec.ofInt 32 (sizeSum (liveOf d'.issued)))
    (hsame : t'.maxTotalSize = t.maxTotalSize)
    (hfalls : sizeSum (liveOf d'.issued) ≤ sizeSum (liveOf d.issued)) : Counts t' d' := by
  refine hC.next hI hext hissued htotal ?_
  rw [hsame, max_eq_right]
  exact hfalls.trans (hC.peak.2 (sizeSum_mem d.issued))

/-- What `total_size += n` and the comparison after it do. -/
theorem Counts.add (hC : Counts t d) {c : Issued} {n : BitVec 32}
    (hI : MmInv d'.heap (liveOf d'.issued)) (hext : Extends d.heap d'.heap)
    (hissued : d'.issued = d.issued ++ [c])
    (htotal : t.totalSize + n = BitVec.ofInt 32 (sizeSum (liveOf d'.issued))) :
    Counts (t.add n) d' := by
  refine hC.next hI hext hissued htotal ?_
  have hint : (t.totalSize + n).toInt = sizeSum (liveOf d'.issued) := by
    rw [htotal]
    exact toInt_ofInt_sizeSum hI
  rw [Totals.add, ← hint]
  dsimp only
  split
  · rw [max_eq_left]
    omega
  · rw [max_eq_right]
    omega

section Requests

variable {c : Issued} {p q : Nat} {w : Word} {size : BitVec 32}

theorem Counts.alloc (hC : Counts t d) (hI : MmInv d'.heap (liveOf d'.issued))
    (hext : Extends d.heap d'.heap) (hissued : d'.issued = d.issued ++ [c])
    (hlive : liveOf d'.issued = (q, size.signExtend 64) :: liveOf d.issued) :
    Counts (t.add size) d' := by
  refine hC.add hI hext hissued ?_
  rw [hlive, sizeSum_cons, hC.total, ofInt_add_size, Int.add_comm]

theorem Counts.realloc (hC : Counts t d) (hI₀ : MmInv d.heap (liveOf d.issued))
    (hI : MmInv d'.heap (liveOf d'.issued)) (hext : Extends d.heap d'.heap)
    (hissued : d'.issued = d.issued ++ [c]) (hmem : (p, w) ∈ liveOf d.issued)
    (hlive : liveOf d'.issued =
      (q, size.signExtend 64) :: (liveOf d.issued).filter fun x => x.1 ≠ p) :
    Counts (t.add (size - w.setWidth 32)) d' := by
  have hsum := sizeSum_release (keys_nodup mm_contract hI₀) hmem
  refine hC.add hI hext hissued ?_
  rw [hlive, sizeSum_cons, hC.total, ofInt_resize, hsum, add_sub_cancel_left]
  exact congrArg _ (Int.add_comm _ _)

theorem Counts.free (hC : Counts t d) (hI₀ : MmInv d.heap (liveOf d.issued))
    (hI : MmInv d'.heap (liveOf d'.issued)) (hext : Extends d.heap d'.heap)
    (hissued : d'.issued = d.issued ++ [c]) (hmem : (p, w) ∈ liveOf d.issued)
    (hlive : liveOf d'.issued = (liveOf d.issued).filter fun x => x.1 ≠ p) :
    Counts { t with totalSize := t.totalSize - w.setWidth 32 } d' := by
  have hsum := sizeSum_release (keys_nodup mm_contract hI₀) hmem
  have hpos : 0 < w.toInt := hC.pos _ hmem
  refine hC.settle hI hext hissued ?_ rfl ?_
  · rw [hlive, hC.total, ofInt_sub_size, hsum, add_sub_cancel_left]
  · rw [hlive, hsum]
    exact le_add_of_nonneg_left hpos.le

end Requests

/-- A request other than an 'r' of size zero keeps the counters right. -/
theorem Counts.processed (hC : Counts t d) (hF : FullLockstep d e held) (huses : Uses held op)
    (hdone : Processed mmPackage d op d') (hnonzero : ∀ index, op ≠ .realloc index 0) :
    Counts (totalsAfter d.table t op) d' := by
  obtain ⟨e', -, hF'⟩ := hF.processed huses hdone
  obtain ⟨L, hS⟩ := hF'.layout
  have hext := hF.extends huses hdone
  have hI₀ := hC.mmInv hF
  have hinv : (∀ x ∈ liveOf d'.issued, 0 < x.2.toInt) → MmInv d'.heap (liveOf d'.issued) :=
    fun hpos => ⟨⟨L, hS.left⟩, hpos⟩
  have hfilter : ∀ p, ∀ x ∈ (liveOf d.issued).filter (fun x => x.1 ≠ p), 0 < x.2.toInt :=
    fun p x hx => hC.pos x (List.mem_filter.mp hx).1
  have hlong : ∀ size : BitVec 32, 0 < size.toInt → 0 < (size.signExtend 64).toInt := by
    intro size hpos
    rwa [BitVec.toInt_signExtend_of_le (by decide)]
  cases hdone with
  | @nothing op q s hzero hcall =>
      obtain rfl := Lockstep.nothing_null hzero hcall
      cases op with
      | alloc index size =>
          obtain rfl : size = 0 := hzero
          have hlive : liveOf (issue d s index (.malloc 0) null).issued = liveOf d.issued := by
            rw [liveOf_issue, liveAfter, if_pos rfl]
          rw [totalsAfter, if_pos rfl]
          refine hC.settle (hinv ?_) hext rfl ?_ rfl ?_
          · exact hlive ▸ hC.pos
          · exact hlive ▸ hC.total
          · exact (congrArg sizeSum hlive).le
      | realloc index size =>
          obtain rfl : size = 0 := hzero
          exact absurd rfl (hnonzero index)
      | free index => exact hzero.elim
  | @alloc index q size s s' hcall hq hpos hfine hfill =>
      have hlive : liveOf (issue d s index (.malloc (size.signExtend 64)) q).issued =
          (q, size.signExtend 64) :: liveOf d.issued := by
        rw [liveOf_issue, liveAfter, if_neg hq]
      rw [totalsAfter, if_neg (ne_zero_of_toInt_pos hpos)]
      refine hC.alloc (hinv ?_) hext rfl hlive
      exact hlive ▸ List.forall_mem_cons.mpr ⟨hlong size hpos, hC.pos⟩
  | @realloc index q size s s' hcall hq hpos hfine hfill =>
      have hlive : liveOf (issue d s index
          (.realloc (d.table.blocks index) (size.signExtend 64)) q).issued =
          (q, size.signExtend 64) ::
            (liveOf d.issued).filter fun x => x.1 ≠ d.table.blocks index := by
        rw [liveOf_issue, liveAfter, if_neg (hF.block_ne_null huses),
          if_neg (signExtend_ne_zero hpos), if_neg hq]
      rw [totalsAfter, if_neg (ne_zero_of_toInt_pos hpos)]
      refine hC.realloc hI₀ (hinv ?_) hext rfl (hF.remembers.mem index huses) hlive
      exact hlive ▸ List.forall_mem_cons.mpr ⟨hlong size hpos, hfilter _⟩
  | @free index q s hcall =>
      have hlive : liveOf (issue (drop d (d.table.blocks index)) s index
          (.free (d.table.blocks index)) q).issued =
          (liveOf d.issued).filter fun x => x.1 ≠ d.table.blocks index := liveOf_issue ..
      rw [totalsAfter]
      refine hC.free hI₀ (hinv ?_) hext rfl (hF.remembers.mem index huses) hlive
      exact hlive ▸ hfilter _

theorem totalsAfter_eq (hF : FullLockstep d e held) (huses : Uses held op) (t : Totals) :
    totalsAfter e.table t op = totalsAfter d.table t op := by
  cases op with
  | alloc index size => rfl
  | realloc index size => rw [totalsAfter, totalsAfter, hF.sizes index huses]
  | free index => rw [totalsAfter, totalsAfter, hF.sizes index huses]

/-- `eval_mm_util` counts right up to the end of a trace without an 'r' of size zero. -/
theorem Counts.run (hC : Counts t d) (hF : FullLockstep d e held) (huses : UsesHeld held ops)
    (hnonzero : NoZeroRealloc ops)
    (hrun : (validRequests mmPackage tracenum i ops).run d = .ok (true, d')) :
    ∃ t' e', (utilRequests mmPackage tracenum i t ops).run e = .ok (some t', e') ∧
      Counts t' d' ∧ FullLockstep d' e' (ops.foldl holdingAfter held) := by
  induction ops generalizing d e held i t with
  | nil =>
      cases hrun
      exact ⟨t, e, rfl, hC, hF⟩
  | cons op ops ih =>
      obtain ⟨b, d₁, hfirst, hrest⟩ := run_bind_eq_ok hrun
      rcases b with _ | _
      · cases hrest
      · have hdone := validRequest_true hfirst
        have hop : ∀ index, op ≠ .realloc index 0 := by
          rintro index rfl
          exact hnonzero index List.mem_cons_self
        obtain ⟨e₁, hdone', hF₁⟩ := hF.processed huses.1 hdone
        have hC₁ := hC.processed hF huses.1 hdone hop
        obtain ⟨t', e', hrun', hC', hF'⟩ := ih hC₁ hF₁ huses.2
          (fun index hmem => hnonzero index (List.mem_cons_of_mem _ hmem)) hrest
        refine ⟨t', e', ?_, hC', hF'⟩
        rw [utilRequests, run_bind_of_ok (utilRequest_run tracenum i t hdone'), totalsAfter_eq hF huses.1]
        exact hrun'

/-- The size of a payload that an 'r' of size zero released is still counted. -/
theorem Counts.realloc_zero (hC : Counts t d) (hF : FullLockstep d e held) {index : Nat}
    (hindex : index ∈ held) (hdone : Processed mmPackage d (.realloc index 0) d') :
    t.totalSize.toInt ≠ sizeSum (liveOf d'.issued) := by
  have hI := hC.mmInv hF
  have hmem := hF.remembers.mem index hindex
  have hpos : 0 < (d.table.blockSizes index).toInt := hC.pos _ hmem
  have hsum := sizeSum_release (keys_nodup mm_contract hI) hmem
  rw [hC.toInt_total hI, hsum]
  cases hdone with
  | @nothing op q s hzero hcall =>
      have hlive : liveOf (issue d s index (.realloc (d.table.blocks index) 0) q).issued =
          (liveOf d.issued).filter fun x => x.1 ≠ d.table.blocks index := by
        rw [liveOf_issue, liveAfter, if_neg (hF.block_ne_null hindex), if_pos rfl]
      change _ ≠ sizeSum (liveOf (issue d s index (.realloc (d.table.blocks index) 0) q).issued)
      rw [hlive]
      omega
  | realloc hcall hq hlt hfine hfill => exact absurd hlt (by decide)

/-- `eval_mm_util` counts wrong somewhere in a trace with an 'r' of size zero. -/
theorem Counts.miscounts (hC : Counts t d) (hF : FullLockstep d e held) (huses : UsesHeld held ops)
    (hzero : ¬ NoZeroRealloc ops)
    (hrun : (validRequests mmPackage tracenum i ops).run d = .ok (true, d')) :
    ∃ k t' e', (utilRequests mmPackage tracenum i t (ops.take k)).run e = .ok (some t', e') ∧
      t'.totalSize.toInt ≠ sizeSum (liveOf e'.issued) := by
  induction ops generalizing d e held i t with
  | nil => exact absurd (fun index hmem => absurd hmem List.not_mem_nil) hzero
  | cons op ops ih =>
      obtain ⟨b, d₁, hfirst, hrest⟩ := run_bind_eq_ok hrun
      rcases b with _ | _
      · cases hrest
      · have hdone := validRequest_true hfirst
        obtain ⟨e₁, hdone', hF₁⟩ := hF.processed huses.1 hdone
        have hstep := utilRequest_run tracenum i t hdone'
        rcases Classical.em (∃ index, op = .realloc index 0) with ⟨index, rfl⟩ | hop
        · refine ⟨1, t, e₁, ?_, ?_⟩
          · rw [List.take_succ_cons, List.take_zero, utilRequests, run_bind_of_ok hstep]
            rfl
          · rw [hF₁.issued]
            exact hC.realloc_zero hF huses.1 hdone
        · have hC₁ := hC.processed hF huses.1 hdone fun index heq => hop ⟨index, heq⟩
          have hzero' : ¬ NoZeroRealloc ops := by
            intro hnone
            apply hzero
            intro index hmem
            rcases List.mem_cons.mp hmem with heq | hmem
            · exact hop ⟨index, heq.symm⟩
            · exact hnone index hmem
          obtain ⟨k, t', e', hrun', hne⟩ := ih hC₁ hF₁ huses.2 hzero' hrest
          refine ⟨k + 1, t', e', ?_, hne⟩
          rw [List.take_succ_cons, utilRequests, run_bind_of_ok hstep, totalsAfter_eq hF huses.1]
          exact hrun'

end Counters

section Statement

variable {d d₁ : Driver Heap Payloads} {ops : List Request} {tracenum i : Nat}

/-- After every request of the trace the counters of `eval_mm_util` are the sum of the sizes
last requested for the live payloads and the greatest such sum so far, and the ratio is at
most one. -/
structure HighWater (tracenum : Nat) (ops : List Request) (d₁ : Driver Heap Payloads) : Prop where
  counters : ∀ k, ∃ t e, (utilTotals mmPackage tracenum (ops.take k)).run d₁ = .ok (some t, e) ∧
    t.totalSize.toInt = sizeSum (liveOf e.issued) ∧
    IsGreatest (sumsSoFar e.issued) t.maxTotalSize.toInt
  ratio : ∃ u e, (evalMmUtil mmPackage tracenum ops).run d₁ = .ok (u, e) ∧ u ≤ 1

theorem validRequests_take {σ : Type} {P : Package σ} {d d' : Driver σ Payloads}
    (hrun : (validRequests P tracenum i ops).run d = .ok (true, d')) (k : Nat) :
    ∃ d'', (validRequests P tracenum i (ops.take k)).run d = .ok (true, d'') := by
  induction ops generalizing d i k with
  | nil => exact ⟨d', by rwa [List.take_nil]⟩
  | cons op ops ih =>
      obtain ⟨b, d₁, hfirst, hrest⟩ := run_bind_eq_ok hrun
      rcases b with _ | _
      · cases hrest
      · cases k with
        | zero => exact ⟨d, rfl⟩
        | succ k =>
            obtain ⟨d'', hrun'⟩ := ih hrest k
            refine ⟨d'', ?_⟩
            rw [List.take_succ_cons, validRequests, run_bind_of_ok hfirst]
            exact hrun'

theorem counts_started {h : Heap} (d : Driver Heap Payloads) : Counts ⟨0, 0⟩ (started d h) where
  total := rfl
  peak := by
    have hsums : sumsSoFar [] = {0} := by
      apply Set.ext
      intro n
      rw [Set.mem_singleton_iff]
      constructor
      · rintro ⟨j, rfl⟩
        rw [List.take_nil]
        rfl
      · rintro rfl
        exact sizeSum_mem []
    change IsGreatest (sumsSoFar []) 0
    rw [hsums]
    exact isGreatest_singleton
  pos := by simp [started, liveOf]
  peak_le := Int.natCast_nonneg _

/-- The two runs from a driver that `eval_mm_valid` accepted the trace on. -/
theorem util_start (hvalid : (evalMmValid mmPackage tracenum ops).run d = .ok (true, d₁))
    (huses : UsesHeld ∅ ops) :
    ∃ d₀ e₀, FullLockstep d₀ e₀ ∅ ∧ Counts ⟨0, 0⟩ d₀ ∧
      (validRequests mmPackage tracenum 0 ops).run d₀ = .ok (true, d₁) ∧
      ∀ ops', (utilTotals mmPackage tracenum ops').run d₁ =
        (utilRequests mmPackage tracenum 0 ⟨0, 0⟩ ops').run e₀ := by
  obtain ⟨h₀, hI₀, hstart₀, -⟩ := mm_started d
  obtain ⟨h₁, hI₁, -, hstart₁, -⟩ := mm_started d₁
  rw [arena_kept hvalid huses] at hI₁
  rw [hstart₀] at hvalid
  exact ⟨started d h₀, started d₁ h₁, fullLockstep_started hI₀ hI₁ d d₁, counts_started d, hvalid,
    hstart₁ tracenum⟩

theorem highWater_of_noZeroRealloc
    (hvalid : (evalMmValid mmPackage tracenum ops).run d = .ok (true, d₁))
    (huses : UsesHeld ∅ ops) (hnonzero : NoZeroRealloc ops) : HighWater tracenum ops d₁ := by
  obtain ⟨d₀, e₀, hF, hC, hrun, hstart⟩ := util_start hvalid huses
  constructor
  · intro k
    obtain ⟨d', hrun'⟩ := validRequests_take hrun k
    obtain ⟨t, e, hutil, hC', hF'⟩ := hC.run hF (usesHeld_take huses k)
      (fun index hmem => hnonzero index (List.mem_of_mem_take hmem)) hrun'
    refine ⟨t, e, (hstart _).trans hutil, ?_, ?_⟩
    · rw [hF'.issued]
      exact hC'.toInt_total (hC'.mmInv hF')
    · rw [hF'.issued]
      exact hC'.peak
  · obtain ⟨t, e, hutil, hC', hF'⟩ := hC.run hF huses hnonzero hrun
    obtain ⟨L, hS⟩ := hF'.layout
    have hsize : e.heap.memHeapsize = d₁.heap.memHeapsize := by
      have hlo : e.heap.memStartBrk = d₁.heap.memStartBrk := hS.memHeapLo
      rw [Heap.memHeapsize, Heap.memHeapsize, hS.memBrk, hlo]
    refine ⟨(t.maxTotalSize.toInt : ℚ) / (e.heap.memHeapsize : ℚ), e, ?_, ?_⟩
    · rw [evalMmUtil, run_bind_of_ok ((hstart ops).trans hutil)]
      rfl
    · rw [hsize]
      apply div_le_one_of_le₀
      · exact_mod_cast hC'.peak_le
      · exact Nat.cast_nonneg _

theorem not_highWater (hvalid : (evalMmValid mmPackage tracenum ops).run d = .ok (true, d₁))
    (huses : UsesHeld ∅ ops) (hzero : ¬ NoZeroRealloc ops) : ¬ HighWater tracenum ops d₁ := by
  intro hhigh
  obtain ⟨d₀, e₀, hF, hC, hrun, hstart⟩ := util_start hvalid huses
  obtain ⟨k, t, e, hutil, hne⟩ := hC.miscounts hF huses hzero hrun
  obtain ⟨t', e', hutil', htotal, -⟩ := hhigh.counters k
  rw [hstart, hutil] at hutil'
  cases hutil'
  exact hne htotal

/-- The high-water mark of `eval_mm_util` is the true one if and only if no 'r' of the trace
has size zero. -/
theorem high_water_iff (hvalid : (evalMmValid mmPackage tracenum ops).run d = .ok (true, d₁))
    (huses : UsesHeld ∅ ops) : HighWater tracenum ops d₁ ↔ NoZeroRealloc ops := by
  constructor
  · intro hhigh
    rcases Classical.em (NoZeroRealloc ops) with hnone | hzero
    · exact hnone
    · exact absurd hhigh (not_highWater hvalid huses hzero)
  · exact highWater_of_noZeroRealloc hvalid huses

theorem high_water_iff_sample :
    ∃ d₁, (evalMmValid mmPackage 0 [.alloc 0 24, .free 0]).run sampleTraceDriver =
      .ok (true, d₁) ∧ (HighWater 0 [.alloc 0 24, .free 0] d₁ ↔
        NoZeroRealloc [.alloc 0 24, .free 0]) := by
  obtain ⟨d₁, hvalid⟩ := sample_alloc_free
  exact ⟨d₁, hvalid, high_water_iff hvalid (by decide)⟩

/-- A payload that 'r' released is still counted. -/
theorem realloc_zero_still_counted :
    UsesHeld ∅ [.alloc 0 24, .realloc 0 0] ∧
      ∃ d₁, (evalMmValid mmPackage 0 [.alloc 0 24, .realloc 0 0]).run sampleTraceDriver =
        .ok (true, d₁) ∧ ¬ HighWater 0 [.alloc 0 24, .realloc 0 0] d₁ := by
  have huses : UsesHeld ∅ [.alloc 0 24, .realloc 0 0] := by decide
  have hzero : ¬ NoZeroRealloc [.alloc 0 24, .realloc 0 0] := by
    intro hnone
    exact hnone 0 (by decide)
  obtain ⟨d₁, hvalid, -⟩ := sample_realloc_zero
  exact ⟨huses, d₁, hvalid, not_highWater hvalid huses hzero⟩

end Statement

end MallocLab.Utilization
