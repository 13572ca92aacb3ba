import MallocLab.Utilization
import MallocLab.TraceVerdict
import MallocLab.WellFormedTraces
import MallocLab.MdriverMain

/-!
What `main` reports about the package of `mm.c`, from the lines of the trace files alone.
Each file is evaluated on the same empty heap, whatever the files before it left behind.
-/

namespace MallocLab.TraceReports

open MallocLab.Machine
open MallocLab.Mm
open MallocLab.HeapPrograms
open MallocLab.HeapGrowth
open MallocLab.AbstractLayout
open MallocLab.Representation
open MallocLab.Runs
open MallocLab.HeapExtents
open MallocLab.MallocPackage
open MallocLab.Mdriver
open MallocLab.DriverPrograms
open MallocLab.AllocatorContract
open MallocLab.TraceSteps
open MallocLab.TraceBookkeeping
open MallocLab.Replays
open MallocLab.Utilization
open MallocLab.TraceVerdict
open MallocLab.Scanf
open MallocLab.ReadTrace
open MallocLab.TraceText
open MallocLab.TraceReading
open MallocLab.TraceGrammar
open MallocLab.WellFormedTraces
open MallocLab.MdriverMain

section Reading

variable {t : List Char} {h : Header Int} {ls : List Line} {path : String}
  {stale : Header (BitVec 32)} {size : BitVec 32}

/-- A trace file with these lines that `read_trace` accepts. -/
structure Readable (t : List Char) (h : Header Int) (ls : List Line) : Prop where
  formatted : Formatted t h ls
  acceptable : Acceptable h ls
  fits : fitsInt h.suggHeapsize ∧ fitsInt h.numIds ∧ fitsInt h.numOps ∧ fitsInt h.weight

theorem Readable.bytes_le (hr : Readable t h ls) {l : Line} (hl : l ∈ ls) :
    l.bytes ≤ 2147483647 := hr.acceptable.sizes l hl

theorem Readable.numIds_le (hr : Readable t h ls) : h.numIds ≤ 2147483647 := by
  have hfits := hr.fits.2.1
  simp only [fitsInt, Bool.and_eq_true, decide_eq_true_eq] at hfits
  exact hfits.2

theorem Readable.id_lt (hr : Readable t h ls) {l : Line} (hl : l ∈ ls) : l.id < 2147483647 := by
  have hid := hr.acceptable.ids l hl
  have hle := hr.numIds_le
  omega

theorem Readable.line_fits (hr : Readable t h ls) {l : Line} (hl : l ∈ ls) : l.fits = true := by
  have hid := hr.id_lt hl
  have hbytes := hr.bytes_le hl
  cases l with
  | alloc id bytes =>
      change id < 2147483647 at hid
      change bytes ≤ 2147483647 at hbytes
      simp only [Line.fits, fitsUnsigned, Int.natAbs_natCast, Bool.and_eq_true, decide_eq_true_eq]
      omega
  | realloc id bytes =>
      change id < 2147483647 at hid
      change bytes ≤ 2147483647 at hbytes
      simp only [Line.fits, fitsUnsigned, Int.natAbs_natCast, Bool.and_eq_true, decide_eq_true_eq]
      omega
  | free id =>
      change id < 2147483647 at hid
      simp only [Line.fits, fitsUnsigned, Int.natAbs_natCast, decide_eq_true_eq]
      omega

/-- A number of the header that is an `int` is taken. -/
theorem nextNumber_int {w : List Char} {ws : List (List Char)} {v : Int} (ht : words t = w :: ws)
    (hv : numeralValue w = some v) (hfits : fitsInt v) :
    ∃ rest, words rest = ws ∧ nextNumber fitsInt t = some (whole v, rest) := by
  obtain ⟨rest, hrest, -, hnumber⟩ := nextNumber_of_words fitsInt ht hv
  rw [if_pos hfits] at hnumber
  exact ⟨rest, hrest, hnumber⟩

theorem Readable.header (hr : Readable t h ls) :
    ∃ rest, headerOf t = some (mapHeader whole h, rest) ∧ SpellLines (words rest) ls := by
  obtain ⟨w₁, w₂, w₃, w₄, ws, hwords, ⟨h₁, h₂, h₃, h₄⟩, hlines, -⟩ := hr.formatted
  obtain ⟨hf₁, hf₂, hf₃, hf₄⟩ := hr.fits
  obtain ⟨t₁, ht₁, hn₁⟩ := nextNumber_int hwords h₁ hf₁
  obtain ⟨t₂, ht₂, hn₂⟩ := nextNumber_int ht₁ h₂ hf₂
  obtain ⟨t₃, ht₃, hn₃⟩ := nextNumber_int ht₂ h₃ hf₃
  obtain ⟨t₄, ht₄, hn₄⟩ := nextNumber_int ht₃ h₄ hf₄
  refine ⟨t₄, ?_, ht₄.symm ▸ hlines⟩
  simp only [headerOf, hn₁, hn₂, hn₃, hn₄, Option.bind_eq_bind, Option.bind_some, mapHeader]
  rfl

/-- The trace that `read_trace` makes of the lines. -/
def traceOf (h : Header Int) (ls : List Line) : Trace :=
  ⟨mapHeader (BitVec.ofInt 32) h, ls.map lineOp⟩

theorem Readable.readTrace_eq (hr : Readable t h ls) (path : String) (stale : Header (BitVec 32))
    (size : BitVec 32) : Returns path stale size t (traceOf h ls) := by
  obtain ⟨rest, hheader, hlines⟩ := hr.header
  have hall : ls.all Line.fits = true := List.all_eq_true.mpr fun l hl => hr.line_fits hl
  have hentries : entries rest = (ls.map Line.entry, .eof) := by
    have hes := entriesFrom_of_spellLines (Nat.lt_succ_self rest.length) hlines
    rwa [if_pos hall] at hes
  have hint := toInt_fields stale hheader
  have hops : (fields stale (mapHeader whole h)).numOps.toInt = h.numOps :=
    congrArg Header.numOps hint
  have hcount : h.numOps = ls.length := by
    obtain ⟨w₁, w₂, w₃, w₄, ws, -, -, -, hcount⟩ := hr.formatted
    exact hcount
  have hroom : (ls.map Line.entry).length ≤
      (fields stale (mapHeader whole h)).numOps.toInt.toNat := by
    rw [List.length_map, hops, hcount]
    exact Int.toNat_natCast _ |>.ge
  obtain ⟨tr, htr⟩ : ∃ tr, Returns path stale size t tr :=
    returns_of_acceptable hheader hentries nofun hroom hr.formatted hr.acceptable
  obtain ⟨-, -, -, rfl⟩ := (returns_iff hheader hentries hroom).mp htr
  rw [ops_finish_lines] at htr
  exact htr

/-- The request of a line. -/
def requestOfLine : Line → Request
  | .alloc id bytes => .alloc id (BitVec.ofNat 32 bytes)
  | .realloc id bytes => .realloc id (BitVec.ofNat 32 bytes)
  | .free id => .free id

theorem Readable.requests (hr : Readable t h ls) :
    (traceOf h ls).ops.map requestOf = ls.map requestOfLine := by
  change (ls.map lineOp).map requestOf = _
  rw [List.map_map]
  apply List.map_congr_left
  intro l hl
  have hid : (BitVec.ofInt 32 (l.id : Int)).toNat = l.id :=
    toNat_ofInt (fitsUnsigned_id (hr.line_fits hl))
  cases l with
  | alloc id bytes => exact congrArg (Request.alloc · _) hid
  | realloc id bytes => exact congrArg (Request.realloc · _) hid
  | free id => exact congrArg Request.free hid

theorem Readable.inArrays (hr : Readable t h ls) :
    (traceOf h ls).ops.all (inArrays (traceOf h ls).header.numIds) = true := by
  apply List.all_eq_true.mpr
  intro op hop
  obtain ⟨l, hl, rfl⟩ := List.mem_map.mp hop
  have hid := hr.acceptable.ids l hl
  have hlt := hr.id_lt hl
  have hle := hr.numIds_le
  have hindex : (lineOp l).index.toInt = l.id := by
    rw [index_lineOp]
    exact toInt_ofInt_eq_iff.mpr hlt.le
  have hnum : (traceOf h ls).header.numIds.toInt = h.numIds :=
    BitVec.toInt_ofInt_eq_self (by decide) (by omega) (by omega)
  simp only [MdriverMain.inArrays, hindex, hnum, Bool.and_eq_true, decide_eq_true_eq]
  omega

end Reading

section Counting

/-- The sizes last asked for, by their ids, with their sum over the payloads held and the
greatest such sum so far. -/
structure Tally where
  sizes : Nat → Nat
  total : Nat
  peak : Nat

def noTally : Tally := ⟨fun _ => 0, 0, 0⟩

def Tally.after (u : Tally) : Line → Tally
  | .alloc id bytes =>
      ⟨Function.update u.sizes id bytes, u.total + bytes, max u.peak (u.total + bytes)⟩
  | .realloc id bytes =>
      ⟨Function.update u.sizes id bytes, u.total - u.sizes id + bytes,
        max u.peak (u.total - u.sizes id + bytes)⟩
  | .free id => ⟨u.sizes, u.total - u.sizes id, u.peak⟩

/-- The most that the lines ask for at a time. -/
def peakOf (ls : List Line) : Nat := (ls.foldl Tally.after noTally).peak

/-- An `int` size, and something is asked for. -/
def Asks (l : Line) : Prop := l.bytes ≤ 2147483647 ∧ (l.tracked = true → l.bytes ≠ 0)

instance : DecidablePred Asks := fun l =>
  inferInstanceAs (Decidable (l.bytes ≤ 2147483647 ∧ (l.tracked = true → l.bytes ≠ 0)))

variable {d d' e : Driver Heap Payloads} {held : Finset Nat} {l : Line} {ls : List Line}
  {tracenum i : Nat} {u : Tally} {t : Totals} {bytes : Nat}

theorem toInt_bytes (hle : bytes ≤ 2147483647) : (BitVec.ofNat 32 bytes).toInt = bytes := by
  rw [← BitVec.ofInt_natCast]
  exact toInt_ofInt_eq_iff.mpr hle

theorem toInt_long (hle : bytes ≤ 2147483647) :
    ((BitVec.ofNat 32 bytes).signExtend 64).toInt = bytes :=
  (BitVec.toInt_signExtend_of_le (by decide)).trans (toInt_bytes hle)

theorem Asks.nonneg (hl : Asks l) : SizeNonneg (requestOfLine l) := by
  cases l with
  | alloc id bytes => exact (Int.natCast_nonneg bytes).trans_eq (toInt_bytes hl.1).symm
  | realloc id bytes => exact (Int.natCast_nonneg bytes).trans_eq (toInt_bytes hl.1).symm
  | free id => trivial

theorem ofNat_ne_zero (hle : bytes ≤ 2147483647) (hne : bytes ≠ 0) :
    BitVec.ofNat 32 bytes ≠ 0 := by
  intro hzero
  have hint := toInt_bytes hle
  rw [hzero] at hint
  exact hne (Int.ofNat_eq_zero.mp hint.symm)

theorem Asks.not_zeroSized (hl : Asks l) : ¬ ZeroSized (requestOfLine l) := by
  cases l with
  | alloc id bytes => exact ofNat_ne_zero hl.1 (hl.2 rfl)
  | realloc id bytes => exact ofNat_ne_zero hl.1 (hl.2 rfl)
  | free id => exact not_false

/-- The tally is what the counters of `eval_mm_util` count. -/
structure Tallies (u : Tally) (t : Totals) (d : Driver Heap Payloads) (held : Finset Nat) :
    Prop where
  counts : Counts t d
  total : sizeSum (liveOf d.issued) = u.total
  peak : t.maxTotalSize.toInt = u.peak
  sizes : ∀ i ∈ held, (d.table.blockSizes i).toInt = u.sizes i

theorem tallies_started (d : Driver Heap Payloads) (h : Heap) :
    Tallies noTally ⟨0, 0⟩ (started d h) ∅ where
  counts := counts_started d
  total := rfl
  peak := rfl
  sizes i hi := absurd hi (Finset.notMem_empty i)

variable {index : Nat} {size : BitVec 32}

theorem processed_alloc (hdone : Processed mmPackage d (.alloc index size) d') (hne : size ≠ 0) :
    sizeSum (liveOf d'.issued) = sizeSum (liveOf d.issued) + (size.signExtend 64).toInt ∧
      d'.table.blockSizes = Function.update d.table.blockSizes index (size.signExtend 64) := by
  cases hdone with
  | nothing hzero hcall => exact absurd hzero hne
  | @alloc _ q _ s s' hcall hq hpos hfine hfill =>
      have hlive : liveOf (issue d s index (.malloc (size.signExtend 64)) q).issued =
          (q, size.signExtend 64) :: liveOf d.issued := by
        rw [liveOf_issue, liveAfter, if_neg hq]
      refine ⟨?_, rfl⟩
      change sizeSum (liveOf (issue d s index (.malloc (size.signExtend 64)) q).issued) = _
      rw [hlive, sizeSum_cons, add_comm]

theorem processed_realloc (hF : FullLockstep d e held) (hC : Counts t d) (hindex : index ∈ held)
    (hdone : Processed mmPackage d (.realloc index size) d') (hne : size ≠ 0) :
    sizeSum (liveOf d'.issued) = sizeSum (liveOf d.issued) - (d.table.blockSizes index).toInt +
        (size.signExtend 64).toInt ∧
      d'.table.blockSizes = Function.update d.table.blockSizes index (size.signExtend 64) := by
  have hsum := sizeSum_release (keys_nodup mm_contract (hC.mmInv hF)) (hF.remembers.mem index hindex)
  cases hdone with
  | nothing hzero hcall => exact absurd hzero hne
  | @realloc _ q _ s s' hcall hq hpos hfine hfill =>
      have hlive : liveOf (issue d s index
          (.realloc (d.table.blocks index) (size.signExtend 64)) q).issued =
          (q, size.signExtend 64) ::
            (liveOf d.issued).filter fun x => x.1 ≠ d.table.blocks index := by
        rw [liveOf_issue, liveAfter, if_neg (hF.block_ne_null hindex),
          if_neg (signExtend_ne_zero hpos), if_neg hq]
      refine ⟨?_, rfl⟩
      change sizeSum (liveOf (issue d s index (.realloc _ (size.signExtend 64)) q).issued) = _
      rw [hlive, sizeSum_cons, hsum, add_sub_cancel_left]
      exact add_comm _ _

theorem processed_free (hF : FullLockstep d e held) (hC : Counts t d) (hindex : index ∈ held)
    (hdone : Processed mmPackage d (.free index) d') :
    sizeSum (liveOf d'.issued) = sizeSum (liveOf d.issued) - (d.table.blockSizes index).toInt ∧
      d'.table.blockSizes = d.table.blockSizes := by
  have hsum := sizeSum_release (keys_nodup mm_contract (hC.mmInv hF)) (hF.remembers.mem index hindex)
  cases hdone with
  | nothing hzero hcall => exact hzero.elim
  | @free _ q s hcall =>
      have hlive : liveOf (issue (drop d (d.table.blocks index)) s index
          (.free (d.table.blocks index)) q).issued =
          (liveOf d.issued).filter fun x => x.1 ≠ d.table.blocks index := liveOf_issue ..
      refine ⟨?_, rfl⟩
      rw [hlive, hsum, add_sub_cancel_left]

/-- What `Totals.add` makes of the maximum, in numbers. -/
theorem toInt_peak {n : BitVec 32} {total peak : Nat} (htotal : (t.add n).totalSize.toInt = total)
    (hpeak : t.maxTotalSize.toInt = peak) :
    (t.add n).maxTotalSize.toInt = (max peak total : Nat) := by
  change (t.totalSize + n).toInt = total at htotal
  rw [Totals.add]
  dsimp only
  split
  · rw [htotal]
    omega
  · rw [hpeak]
    omega

/-- The sizes after one more was stored. -/
theorem sizes_update {f : Nat → Word} {g : Nat → Nat} {held' : Finset Nat} {id : Nat} {w : Word}
    (hw : w.toInt = bytes) (hsub : ∀ i ∈ held', i ≠ id → i ∈ held)
    (hfg : ∀ i ∈ held, (f i).toInt = g i) :
    ∀ i ∈ held', (Function.update f id w i).toInt = Function.update g id bytes i := by
  intro i hi
  rcases Decidable.em (i = id) with rfl | hid
  · rw [Function.update_self, Function.update_self, hw]
  · rw [Function.update_of_ne hid, Function.update_of_ne hid]
    exact hfg i (hsub i hi hid)

theorem Tallies.size_le (hT : Tallies u t d held) (hF : FullLockstep d e held)
    (hindex : index ∈ held) : u.sizes index ≤ u.total := by
  have hmem := hF.remembers.mem index hindex
  have hsum := sizeSum_release (keys_nodup mm_contract (hT.counts.mmInv hF)) hmem
  have hrest : 0 ≤ sizeSum ((liveOf d.issued).filter fun x => x.1 ≠ d.table.blocks index) := by
    rw [← sum_toNat fun x hx => hT.counts.pos x (List.mem_filter.mp hx).1]
    exact Int.natCast_nonneg _
  rw [hT.total, hT.sizes index hindex] at hsum
  omega

/-- A request keeps the tally right. -/
theorem Tallies.processed (hT : Tallies u t d held) (hF : FullLockstep d e held) (hl : Asks l)
    (huses : Uses held (requestOfLine l)) (hdone : Processed mmPackage d (requestOfLine l) d') :
    Tallies (u.after l) (totalsAfter d.table t (requestOfLine l)) d'
      (holdingAfter held (requestOfLine l)) := by
  have hnonzero : ∀ index, requestOfLine l ≠ .realloc index 0 := by
    intro index heq
    exact hl.not_zeroSized (heq ▸ rfl)
  have hC := hT.counts.processed hF huses hdone hnonzero
  obtain ⟨e', -, hF'⟩ := hF.processed huses hdone
  have htotal := hC.toInt_total (hC.mmInv hF')
  have hsub : ∀ i ∈ holdingAfter held (requestOfLine l), i ≠ indexOf (requestOfLine l) → i ∈ held :=
    fun i hi hne => holdingAfter_subset hi hne
  cases l with
  | alloc id bytes =>
      have hne : BitVec.ofNat 32 bytes ≠ 0 := hl.not_zeroSized
      have hlong : ((BitVec.ofNat 32 bytes).signExtend 64).toInt = bytes := toInt_long hl.1
      have hcounted : totalsAfter d.table t (.alloc id (BitVec.ofNat 32 bytes)) =
          t.add (BitVec.ofNat 32 bytes) := if_neg hne
      obtain ⟨hsum, hsizes⟩ := processed_alloc hdone hne
      have hsum' : sizeSum (liveOf d'.issued) = (u.total + bytes : Nat) := by
        rw [hsum, hlong, hT.total]
        rfl
      rw [requestOfLine, hcounted] at hC htotal ⊢
      refine ⟨hC, hsum', toInt_peak (htotal.trans hsum') hT.peak, ?_⟩
      rw [hsizes]
      exact sizes_update hlong hsub hT.sizes
  | realloc id bytes =>
      have hne : BitVec.ofNat 32 bytes ≠ 0 := hl.not_zeroSized
      have hlong : ((BitVec.ofNat 32 bytes).signExtend 64).toInt = bytes := toInt_long hl.1
      have hcounted : totalsAfter d.table t (.realloc id (BitVec.ofNat 32 bytes)) =
          t.add (BitVec.ofNat 32 bytes - (d.table.blockSizes id).setWidth 32) := if_neg hne
      obtain ⟨hsum, hsizes⟩ := processed_realloc hF hT.counts huses hdone hne
      have hsum' : sizeSum (liveOf d'.issued) = (u.total - u.sizes id + bytes : Nat) := by
        rw [hsum, hlong, hT.total, hT.sizes id huses]
        have hle := hT.size_le hF huses
        push_cast [hle]
        rfl
      rw [requestOfLine, hcounted] at hC htotal ⊢
      refine ⟨hC, hsum', toInt_peak (htotal.trans hsum') hT.peak, ?_⟩
      rw [hsizes]
      exact sizes_update hlong hsub hT.sizes
  | free id =>
      obtain ⟨hsum, hsizes⟩ := processed_free hF hT.counts huses hdone
      refine ⟨hC, ?_, hT.peak, ?_⟩
      · have hle := hT.size_le hF huses
        rw [hsum, hT.total, hT.sizes id huses, Tally.after]
        push_cast [hle]
        rfl
      · rw [hsizes]
        exact fun i hi => hT.sizes i (Finset.mem_of_mem_erase hi)

/-- `eval_mm_util` ends with the tally of the lines. -/
theorem Tallies.run (hT : Tallies u t d held) (hF : FullLockstep d e held) (hasks : ∀ l ∈ ls, Asks l)
    (huses : UsesHeld held (ls.map requestOfLine))
    (hrun : (validRequests mmPackage tracenum i (ls.map requestOfLine)).run d = .ok (true, d')) :
    ∃ t' e' held', (utilRequests mmPackage tracenum i t (ls.map requestOfLine)).run e =
        .ok (some t', e') ∧ t'.maxTotalSize.toInt = (ls.foldl Tally.after u).peak ∧
      FullLockstep d' e' held' ∧ e'.errors = e.errors := by
  induction ls generalizing d e held i u t with
  | nil =>
      cases hrun
      exact ⟨t, e, held, rfl, hT.peak, hF, rfl⟩
  | cons l ls ih =>
      obtain ⟨hl, hls⟩ := List.forall_mem_cons.mp hasks
      rw [List.map_cons] at hrun huses ⊢
      obtain ⟨b, d₁, hfirst, hrest⟩ := run_bind_eq_ok hrun
      rcases b with _ | _
      · cases hrest
      · have hdone := validRequest_true hfirst
        obtain ⟨e₁, hdone', hF₁⟩ := hF.processed huses.1 hdone
        have hT₁ := hT.processed hF hl huses.1 hdone
        obtain ⟨t', e', held', hrun', hpeak, hF', herrors⟩ := ih hT₁ hF₁ hls huses.2 hrest
        refine ⟨t', e', held', ?_, hpeak, hF', herrors.trans hdone'.errors⟩
        rw [utilRequests, run_bind_of_ok (utilRequest_run tracenum i t hdone'),
          totalsAfter_eq hF huses.1]
        exact hrun'

end Counting

section Stops

variable {σ : Type} {P : Package σ} {d d' : Driver σ Payloads} {op : Request}
  {tracenum i : Nat}

/-- A request that fails leaves the heap as its call did. -/
theorem validRequest_false (hrun : (validRequest P tracenum i op).run d = .ok (false, d')) :
    ∃ q, (P.exec (callOf d.table op)).run d.heap = .ok (q, d'.heap) := by
  cases op with
  | alloc index size =>
      obtain ⟨q, d₁, hcall, hrest⟩ := run_bind_eq_ok hrun
      obtain ⟨s, hexec, rfl⟩ := callMm_eq_ok hcall
      refine ⟨q, hexec.trans ?_⟩
      rcases Decidable.em (q = null ∧ size ≠ 0) with hfail | hserved
      · rw [if_pos hfail] at hrest
        cases hrest
        rfl
      · rw [if_neg hserved] at hrest
        rcases Decidable.em (size = 0) with hzero | hsize
        · rw [if_pos hzero] at hrest
          cases hrest
        · rw [if_neg hsize] at hrest
          obtain ⟨b, d₂, hadd, hrest⟩ := run_bind_eq_ok hrest
          obtain ⟨-, ⟨-, rfl, rfl⟩ | ⟨c, -, rfl, rfl⟩⟩ := addRange_cases hsize hadd
          · obtain ⟨⟨⟩, d₃, hfill, hrest⟩ := run_bind_eq_ok hrest
            cases hrest
          · cases hrest
            rfl
  | realloc index size =>
      rw [validRequest, run_bind_of_ok (getBlock_run index d)] at hrun
      obtain ⟨q, d₁, hcall, hrest⟩ := run_bind_eq_ok hrun
      obtain ⟨s, hexec, rfl⟩ := callMm_eq_ok hcall
      refine ⟨q, Eq.trans hexec ?_⟩
      rcases Decidable.em (q = null ∧ size ≠ 0) with hfail | hserved
      · rw [if_pos hfail] at hrest
        cases hrest
        rfl
      · rw [if_neg hserved] at hrest
        rcases Decidable.em (size = 0) with hzero | hsize
        · rw [if_pos hzero] at hrest
          cases hrest
        · rw [if_neg hsize, run_bind_of_ok (removeRange_run _ _)] at hrest
          obtain ⟨b, d₂, hadd, hrest⟩ := run_bind_eq_ok hrest
          obtain ⟨-, ⟨-, rfl, rfl⟩ | ⟨c, -, rfl, rfl⟩⟩ := addRange_cases hsize hadd
          · rw [if_pos rfl, run_bind_of_ok (getBlockSize_run index _)] at hrest
            obtain ⟨b, d₃, hcheck, hrest⟩ := run_bind_eq_ok hrest
            obtain ⟨-, rfl⟩ := checkData_eq_ok hcheck
            rcases b with _ | _
            · cases hrest
              rfl
            · obtain ⟨⟨⟩, d₄, hfill, hrest⟩ := run_bind_eq_ok hrest
              cases hrest
          · cases hrest
            rfl
  | free index =>
      obtain ⟨p, d₁, hblock, hrest⟩ := run_bind_eq_ok hrun
      obtain ⟨⟨⟩, d₂, hremove, hrest⟩ := run_bind_eq_ok hrest
      obtain ⟨q, d₃, hcall, hrest⟩ := run_bind_eq_ok hrest
      cases hrest

/-- `eval_mm_speed` reports nothing. -/
theorem speedRequest_errors (hrun : (speedRequest P op).run d = .ok ((), d')) :
    d'.errors = d.errors := by
  cases op with
  | alloc index size =>
      obtain ⟨q, d₁, hcall, hrest⟩ := run_bind_eq_ok hrun
      obtain ⟨s, -, rfl⟩ := callMm_eq_ok hcall
      rcases Decidable.em (q = null) with hq | hq
      · rw [if_pos hq] at hrest
        cases hrest
      · rw [if_neg hq] at hrest
        obtain ⟨⟨⟩, d₂, hfill, hrest⟩ := run_bind_eq_ok hrest
        obtain ⟨s', -, rfl⟩ := fillRange_eq_ok hfill
        cases hrest
        rfl
  | realloc index size =>
      rw [speedRequest, run_bind_of_ok (getBlock_run index d)] at hrun
      obtain ⟨q, d₁, hcall, hrest⟩ := run_bind_eq_ok hrun
      obtain ⟨s, -, rfl⟩ := callMm_eq_ok hcall
      rcases Decidable.em (q = null) with hq | hq
      · rw [if_pos hq] at hrest
        cases hrest
      · rw [if_neg hq] at hrest
        obtain ⟨⟨⟩, d₂, hfill, hrest⟩ := run_bind_eq_ok hrest
        obtain ⟨s', -, rfl⟩ := fillRange_eq_ok hfill
        cases hrest
        rfl
  | free index =>
      rw [speedRequest, run_bind_of_ok (getBlock_run index d)] at hrun
      obtain ⟨q, d₁, hcall, hrest⟩ := run_bind_eq_ok hrun
      obtain ⟨s, -, rfl⟩ := callMm_eq_ok hcall
      cases hrest
      rfl

theorem speedRequests_errors {ops : List Request}
    (hrun : (speedRequests P ops).run d = .ok ((), d')) : d'.errors = d.errors := by
  induction ops generalizing d with
  | nil =>
      cases hrun
      rfl
  | cons op ops ih =>
      obtain ⟨⟨⟩, d₁, hfirst, hrest⟩ := run_bind_eq_ok hrun
      exact (ih hrest).trans (speedRequest_errors hfirst)

end Stops

section Evaluation

variable {d d' d₁ e : Driver Heap Payloads} {L : Layout} {t : Payloads} {held : Finset Nat}
  {ops : List Request} {ls : List Line} {tracenum i : Nat}

theorem lockstep_of_follows (hF : Follows d L t held) : Lockstep d d held where
  layout := ⟨L, hF.layout, hF.layout⟩
  issued := rfl
  remembers := hF.books.remembers
  blocks _ _ := rfl

/-- The arena is where it was, however the run of a trace ends. -/
theorem start_kept (hF : Follows d L t held) (huses : UsesHeld held ops)
    (hsizes : ∀ op ∈ ops, SizeNonneg op) (hnonzero : NoZeroRealloc ops) {b : Bool}
    (hrun : (validRequests mmPackage tracenum i ops).run d = .ok (b, d')) :
    d'.heap.memStartBrk = d.heap.memStartBrk := by
  induction ops generalizing d L t held i with
  | nil =>
      cases hrun
      rfl
  | cons op ops ih =>
      obtain ⟨hop, hops⟩ := List.forall_mem_cons.mp hsizes
      have hnz : ∀ index, op ≠ .realloc index 0 := by
        rintro index rfl
        exact hnonzero index List.mem_cons_self
      rcases hexec : execLayout L (callOf t op) with ⟨L', q⟩
      obtain ⟨d₁, hfirst, -, hF'⟩ := hF.request tracenum i huses.1 hop hnz hexec
      rw [validRequests, run_bind_of_ok hfirst] at hrun
      rcases hcomplaint : complaintOf q op with _ | c
      · rw [hcomplaint] at hrun hfirst
        have hext := (lockstep_of_follows hF).extends huses.1 (validRequest_true hfirst)
        have hrest := ih (hF' hcomplaint) huses.2 hops
          (fun index hmem => hnonzero index (List.mem_cons_of_mem _ hmem)) hrun
        exact hrest.trans hext.start
      · rw [hcomplaint] at hrun hfirst
        obtain ⟨q', hcall⟩ := validRequest_false hfirst
        have hext := (lockstep_of_follows hF).extends_of_call huses.1 hcall
        cases hrun
        exact hext.start

/-- The report of a replay that fails. -/
def reportOf (tracenum : Nat) : Except (Nat × Complaint) Layout → List Report
  | .ok _ => []
  | .error (j, c) => [⟨tracenum, linenum j, c⟩]

/-- What holds before and after each part of an evaluation. -/
structure Between (start : Nat) (errors : List Report) (d : Driver Heap Payloads) : Prop where
  start : d.heap.arena.start = start
  errors : d.errors = errors

variable {start : Nat} {errors : List Report}

theorem valid_run (hB : Between start errors d) (huses : UsesHeld ∅ ops)
    (hsizes : ∀ op ∈ ops, SizeNonneg op) (hnonzero : NoZeroRealloc ops) (tracenum : Nat) :
    ∃ d', (evalMmValid mmPackage tracenum ops).run d = .ok ((replayFrom start ops).isOk, d') ∧
      Between start (errors ++ reportOf tracenum (replayFrom start ops)) d' ∧
      ∀ L, replayFrom start ops = .ok L → d'.heap.memHeapsize = L.brk - L.start := by
  obtain ⟨rfl, rfl⟩ := hB
  obtain ⟨h, hI, hvalid, -⟩ := mm_started d
  have hF := follows_started hI d
  obtain ⟨d', hrun, hok, herror⟩ := hF.requests tracenum 0 huses hsizes hnonzero
  have hstart := start_kept hF huses hsizes hnonzero hrun
  refine ⟨d', (hvalid tracenum ops).trans hrun, ⟨?_, ?_⟩, fun L hL => ?_⟩
  · exact hstart.trans hI.represents.base
  · rcases hreplay : replayFrom d.heap.arena.start ops with ⟨j, c⟩ | L
    · exact herror j c hreplay
    · exact (hok L hreplay).1.trans (List.append_nil _).symm
  · have hI' := (hok L hL).2
    rw [Heap.memHeapsize, hI'.represents.memBrk, hI'.represents.base]

/-- `eval_mm_util` after a trace that passed. -/
theorem util_run (hvalid : (evalMmValid mmPackage tracenum (ls.map requestOfLine)).run d =
      .ok (true, d₁))
    (huses : UsesHeld ∅ (ls.map requestOfLine)) (hasks : ∀ l ∈ ls, Asks l)
    (hB : Between start errors d₁) :
    ∃ d₂, (evalMmUtil mmPackage tracenum (ls.map requestOfLine)).run d₁ =
        .ok ((peakOf ls : ℚ) / (d₁.heap.memHeapsize : ℚ), d₂) ∧ Between start errors d₂ := by
  obtain ⟨h, hI, hstart, -⟩ := mm_started d
  obtain ⟨h₁, hI₁, -, hutil, -⟩ := mm_started d₁
  rw [arena_kept hvalid huses] at hI₁
  rw [hstart] at hvalid
  have hF := fullLockstep_started hI hI₁ d d₁
  obtain ⟨t, e, held, hrun, hpeak, hF', herrors⟩ :=
    (tallies_started d h).run hF hasks huses hvalid
  obtain ⟨L, hS⟩ := hF'.layout
  have hsize : mmPackage.memHeapsize e.heap = d₁.heap.memHeapsize := by
    change e.heap.memHeapsize = _
    rw [Heap.memHeapsize, Heap.memHeapsize, hS.memBrk]
    exact congrArg (_ - ·) hS.memHeapLo
  refine ⟨e, ?_, hS.memHeapLo.trans hB.start, herrors.trans hB.errors⟩
  have htotals : (utilTotals mmPackage tracenum (ls.map requestOfLine)).run d₁ = .ok (some t, e) :=
    (hutil tracenum _).trans hrun
  have hnum : (t.maxTotalSize.toInt : ℚ) = peakOf ls := by
    rw [hpeak]
    rfl
  rw [evalMmUtil, run_bind_of_ok htotals, ← hnum, ← hsize]
  rfl

/-- `eval_mm_speed` after a trace that passed, on any heap of the arena. -/
theorem speed_run (hvalid : (evalMmValid mmPackage tracenum (ls.map requestOfLine)).run d =
      .ok (true, d₁))
    (huses : UsesHeld ∅ (ls.map requestOfLine)) (hasks : ∀ l ∈ ls, Asks l)
    (hstart : d₁.heap.arena.start = start) (hB : Between start errors e) :
    ∃ e', (evalMmSpeed mmPackage (ls.map requestOfLine)).run e = .ok ((), e') ∧
      Between start errors e' := by
  obtain ⟨h, hI, hstart', -⟩ := mm_started d
  obtain ⟨h₁, hI₁, -, -, hspeed⟩ := mm_started e
  have hkept := arena_kept hvalid huses
  rw [hB.start.trans (hstart.symm.trans hkept)] at hI₁
  rw [hstart'] at hvalid
  have hnonzero : ∀ op ∈ ls.map requestOfLine, ¬ ZeroSized op := by
    intro op hop
    obtain ⟨l, hl, rfl⟩ := List.mem_map.mp hop
    exact (hasks l hl).not_zeroSized
  obtain ⟨e', hrun, hL⟩ :=
    (lockstep_started hI hI₁ d { e with issued := [] } rfl).speedRequests huses hnonzero hvalid
  obtain ⟨L, hS⟩ := hL.layout
  refine ⟨e', (hspeed _).trans hrun, hS.memHeapLo.trans hstart, ?_⟩
  exact (speedRequests_errors hrun).trans hB.errors

/-- What one run of `f` keeps, all runs keep. -/
theorem ftimerItimer_run {σ τ : Type} {f : DriverM σ τ Unit} {I : Driver σ τ → Prop}
    (hf : ∀ d, I d → ∃ d', f.run d = .ok ((), d') ∧ I d') (n : Nat) {d : Driver σ τ} (hd : I d) :
    ∃ d', (ftimerItimer f n).run d = .ok ((), d') ∧ I d' := by
  induction n generalizing d with
  | zero => exact ⟨d, rfl, hd⟩
  | succ n ih =>
      obtain ⟨d₁, hrun, hd₁⟩ := hf d hd
      obtain ⟨d', hrest, hd'⟩ := ih hd₁
      refine ⟨d', ?_, hd'⟩
      rw [ftimerItimer, run_bind_of_ok hrun]
      exact hrest

end Evaluation

section Reports

/-- The replay of the lines. -/
def replayOf (start : Nat) (ls : List Line) : Except (Nat × Complaint) Layout :=
  replayFrom start (ls.map requestOfLine)

/-- What is found out about a trace with these lines. -/
def statsOf (start tracenum : Nat) (name : String) (ls : List Line) : Stats :=
  match replayOf start ls with
  | .ok L =>
      ⟨name, BitVec.ofNat 32 ls.length, true, (peakOf ls : ℚ) / ((L.brk - L.start : Nat) : ℚ), ""⟩
  | .error (j, c) =>
      ⟨name, BitVec.ofNat 32 ls.length, false, 0, errorMsg [⟨tracenum, linenum j, c⟩] tracenum⟩

def statsFrom (start : Nat) : Nat → List TraceFile → List (List Line) → List Stats
  | i, f :: files, ls :: traces =>
      statsOf start i f.name ls :: statsFrom start (i + 1) files traces
  | _, _, _ => []

/-- A trace file with these lines.  Every 'r' and 'f' is about an id that holds a payload, and
every 'a' and 'r' asks for something. -/
structure HoldsTrace (f : TraceFile) (ls : List Line) : Prop where
  text : ∃ t h, f.file = some t ∧ Readable t h ls
  asks : ∀ l ∈ ls, Asks l
  uses : UsesHeld ∅ (ls.map requestOfLine)

variable {d : Driver Heap Payloads} {ls : List Line} {f : TraceFile} {files : List TraceFile}
  {traces : List (List Line)} {start : Nat} {errors : List Report} {i : Nat}

theorem evaluate_run {σ α : Type} {x : TraceM σ α} {d d' : Driver σ Payloads} {a : α}
    (hx : x.run d = .ok (a, d')) : (evaluate x).run d = .ok (a, d') := by
  change evaluate x d = _
  simp only [evaluate, hx]

theorem errorMsg_append (hold : ∀ r ∈ errors, r.tracenum ≠ i) (new : List Report) :
    errorMsg (errors ++ new) i = errorMsg new i := by
  have hnone : (errors.filter fun r => r.tracenum = i) = [] :=
    List.filter_eq_nil_iff.mpr fun r hr => by simpa using hold r hr
  rw [errorMsg, errorMsg, List.filter_append, hnone, List.nil_append]

theorem evalTrace_run (hf : HoldsTrace f ls) (hB : Between start errors d)
    (hold : ∀ r ∈ errors, r.tracenum ≠ i) (tracedir : String) :
    ∃ d', (evalTrace mmPackage tracedir i f).run d = .ok (statsOf start i f.name ls, d') ∧
      Between start (errors ++ reportOf i (replayOf start ls)) d' := by
  obtain ⟨t, h, htext, hr⟩ := hf.text
  obtain ⟨log, hread⟩ := hr.readTrace_eq (tracedir ++ f.name) f.stale f.staleSize
  have hfile : (readFile tracedir f).run d = .ok (traceOf h ls, d) := by
    change readFile tracedir f d = _
    simp only [readFile, htext, hread]
  have hnumOps : (traceOf h ls).header.numOps = BitVec.ofNat 32 ls.length := by
    obtain ⟨w₁, w₂, w₃, w₄, ws, -, -, -, hcount⟩ := hr.formatted
    change BitVec.ofInt 32 h.numOps = _
    rw [hcount, BitVec.ofInt_natCast]
  have hnonzero : NoZeroRealloc (ls.map requestOfLine) := by
    intro index hmem
    obtain ⟨l, hl, heq⟩ := List.mem_map.mp hmem
    exact (hf.asks l hl).not_zeroSized (heq ▸ rfl)
  have hsizes : ∀ op ∈ ls.map requestOfLine, SizeNonneg op := by
    intro op hop
    obtain ⟨l, hl, rfl⟩ := List.mem_map.mp hop
    exact (hf.asks l hl).nonneg
  have hB₀ : Between start errors { d with table := f.stalePayloads } := ⟨hB.start, hB.errors⟩
  obtain ⟨d₁, hvalid, hB₁, hsize⟩ : ∃ d₁, (evalMmValid mmPackage i (ls.map requestOfLine)).run
        { d with table := f.stalePayloads } = .ok ((replayOf start ls).isOk, d₁) ∧
      Between start (errors ++ reportOf i (replayOf start ls)) d₁ ∧
      ∀ L, replayOf start ls = .ok L → d₁.heap.memHeapsize = L.brk - L.start :=
    valid_run hB₀ hf.uses hsizes hnonzero i
  have hset : (modify fun d => { d with table := f.stalePayloads } : MainM Heap PUnit).run d =
      .ok (⟨⟩, { d with table := f.stalePayloads }) := rfl
  rw [evalTrace, run_bind_of_ok hfile, if_pos hr.inArrays, hr.requests, run_bind_of_ok hset,
    run_bind_of_ok (evaluate_run hvalid)]
  rcases hreplay : replayOf start ls with ⟨j, c⟩ | L
  · have hstats : statsOf start i f.name ls = ⟨f.name, BitVec.ofNat 32 ls.length, false, 0,
        errorMsg [⟨i, linenum j, c⟩] i⟩ := by rw [statsOf, hreplay]
    rw [hreplay] at hB₁
    rw [hstats]
    refine ⟨d₁, ?_, hB₁⟩
    change Except.ok ((⟨f.name, (traceOf h ls).header.numOps, false, 0, errorMsg d₁.errors i⟩ :
      Stats), d₁) = _
    rw [hB₁.errors, hnumOps, errorMsg_append hold]
    rfl
  · have hstats : statsOf start i f.name ls = ⟨f.name, BitVec.ofNat 32 ls.length, true,
        (peakOf ls : ℚ) / ((L.brk - L.start : Nat) : ℚ), ""⟩ := by rw [statsOf, hreplay]
    rw [hreplay] at hB₁ hvalid
    have hsame : errors ++ reportOf i (.ok L) = errors := List.append_nil _
    rw [hsame] at hB₁ ⊢
    rw [hstats]
    obtain ⟨d₂, hutil, hB₂⟩ := util_run hvalid hf.uses hf.asks hB₁
    obtain ⟨d₃, hspeed, hB₃⟩ := ftimerItimer_run
      (fun e he => speed_run hvalid hf.uses hf.asks hB₁.start he) 10 hB₂
    have hfsecs : (fsecs (evalMmSpeed mmPackage (ls.map requestOfLine))).run d₂ = .ok ((), d₃) :=
      hspeed
    rw [hsize L hreplay] at hutil
    refine ⟨d₃, ?_, hB₃⟩
    have hok : (Except.ok L : Except (Nat × Complaint) Layout).isOk = true := rfl
    rw [if_pos hok, run_bind_of_ok (evaluate_run hutil), run_bind_of_ok (evaluate_run hfsecs)]
    change Except.ok ((⟨f.name, (traceOf h ls).header.numOps, true, _, errorMsg d₃.errors i⟩ :
      Stats), d₃) = _
    rw [hB₃.errors, hnumOps, ← List.append_nil errors, errorMsg_append hold]
    rfl

/-- The reports, in the order of the traces. -/
def reportsFrom (start : Nat) : Nat → List (List Line) → List Report
  | _, [] => []
  | i, ls :: traces => reportOf i (replayOf start ls) ++ reportsFrom start (i + 1) traces

theorem tracenum_of_mem {j : Nat} {r : Except (Nat × Complaint) Layout} {e : Report}
    (he : e ∈ reportOf j r) : e.tracenum = j := by
  rcases r with ⟨k, c⟩ | L
  · obtain rfl := List.mem_singleton.mp he
    rfl
  · cases he

theorem evalTraces_run (hfiles : List.Forall₂ HoldsTrace files traces) (hB : Between start errors d)
    (hold : ∀ r ∈ errors, r.tracenum < i) (tracedir : String) :
    ∃ d', (evalTraces mmPackage tracedir i files).run d =
        .ok (statsFrom start i files traces, d') ∧
      Between start (errors ++ reportsFrom start i traces) d' := by
  induction hfiles generalizing d errors i with
  | nil => exact ⟨d, rfl, hB.start, hB.errors.trans (List.append_nil _).symm⟩
  | @cons f ls files traces hf hfiles ih =>
      obtain ⟨d₁, hrun, hB₁⟩ := evalTrace_run hf hB (fun r hr => (hold r hr).ne) tracedir
      have hold₁ : ∀ r ∈ errors ++ reportOf i (replayOf start ls), r.tracenum < i + 1 := by
        intro r hr
        rcases List.mem_append.mp hr with hr | hr
        · exact (hold r hr).trans (Nat.lt_succ_self i)
        · exact (tracenum_of_mem hr).trans_lt (Nat.lt_succ_self i)
      obtain ⟨d', hrest, hB'⟩ := ih hB₁ hold₁
      refine ⟨d', ?_, hB'.start, hB'.errors.trans (List.append_assoc ..)⟩
      rw [evalTraces, run_bind_of_ok hrun, run_bind_of_ok hrest]
      rfl

theorem length_reportsFrom (start i : Nat) (traces : List (List Line)) :
    (reportsFrom start i traces).length = traces.countP fun ls => !(replayOf start ls).isOk := by
  induction traces generalizing i with
  | nil => rfl
  | cons ls traces ih =>
      rw [reportsFrom, List.length_append, ih, List.countP_cons, add_comm]
      rcases replayOf start ls with ⟨j, c⟩ | L
      · rfl
      · rfl

theorem length_correct (hlen : files.length = traces.length) (start i : Nat) :
    ((statsFrom start i files traces).filter Stats.valid).length =
      traces.countP fun ls => (replayOf start ls).isOk := by
  induction files generalizing traces i with
  | nil =>
      obtain rfl := List.length_eq_zero_iff.mp hlen.symm
      rfl
  | cons f files ih =>
      rcases traces with _ | ⟨ls, traces⟩
      · cases hlen
      · rw [statsFrom, List.filter_cons, List.countP_cons, ← ih (Nat.succ.inj hlen) (i + 1)]
        rcases hreplay : replayOf start ls with ⟨j, c⟩ | L
        · simp [statsOf, hreplay, Except.isOk, Except.toBool]
        · simp [statsOf, hreplay, Except.isOk, Except.toBool]

theorem getElem?_statsFrom {k : Nat} {s : Stats}
    (hs : (statsFrom start i files traces)[k]? = some s) :
    ∃ f ls, files[k]? = some f ∧ traces[k]? = some ls ∧ s = statsOf start (i + k) f.name ls := by
  induction files generalizing traces i k with
  | nil => simp [statsFrom] at hs
  | cons f files ih =>
      rcases traces with _ | ⟨ls, traces⟩
      · simp [statsFrom] at hs
      · rcases k with _ | k
        · obtain rfl := Option.some.inj hs
          exact ⟨f, ls, rfl, rfl, rfl⟩
        · obtain ⟨f', ls', hf', hls', rfl⟩ := ih hs
          exact ⟨f', ls', hf', hls', by rw [Nat.add_right_comm, Nat.add_assoc]⟩

theorem mem_printpassed {stats : List Stats} {row : Row} (hrow : row ∈ printpassed i stats) :
    ∃ k s minUtil, stats[k]? = some s ∧ (s.traceName, minUtil) ∈ traceBaselineTable ∧
      row = printpassedRow (i + k) s minUtil := by
  induction stats generalizing i with
  | nil => cases hrow
  | cons s stats ih =>
      rcases List.mem_append.mp hrow with hrow | hrow
      · obtain ⟨⟨name, minUtil⟩, hb, rfl⟩ := List.mem_map.mp hrow
        obtain ⟨hmem, hname⟩ := List.mem_filter.mp hb
        obtain rfl : s.traceName = name := of_decide_eq_true hname
        exact ⟨0, s, minUtil, rfl, hmem, rfl⟩
      · obtain ⟨k, s', minUtil, hs', hmem, rfl⟩ := ih hrow
        exact ⟨k + 1, s', minUtil, hs', hmem, by rw [Nat.add_right_comm, Nat.add_assoc]⟩

theorem statsFrom_append {before after : List TraceFile} {tb ta : List (List Line)}
    (hlen : before.length = tb.length) :
    statsFrom start i (before ++ f :: after) (tb ++ ls :: ta) =
      statsFrom start i before tb ++ statsOf start (i + before.length) f.name ls ::
        statsFrom start (i + before.length + 1) after ta := by
  induction before generalizing tb i with
  | nil =>
      obtain rfl := List.length_eq_zero_iff.mp hlen.symm
      rfl
  | cons g before ih =>
      rcases tb with _ | ⟨ls', tb⟩
      · cases hlen
      · have hrest := ih (i := i + 1) (Nat.succ.inj hlen)
        rw [Nat.add_right_comm] at hrest
        exact congrArg (_ :: ·) hrest

theorem length_statsFrom (hlen : files.length = traces.length) (start i : Nat) :
    (statsFrom start i files traces).length = files.length := by
  induction files generalizing traces i with
  | nil => rfl
  | cons f files ih =>
      rcases traces with _ | ⟨ls, traces⟩
      · cases hlen
      · exact congrArg (· + 1) (ih (Nat.succ.inj hlen) (i + 1))

theorem printpassedRow_mem {stats : List Stats} {k : Nat} {s : Stats} {minUtil : ℚ}
    (hs : stats[k]? = some s) (hmem : (s.traceName, minUtil) ∈ traceBaselineTable) :
    printpassedRow (i + k) s minUtil ∈ printpassed i stats := by
  induction stats generalizing i k with
  | nil => simp at hs
  | cons s' stats ih =>
      rcases k with _ | k
      · obtain rfl := Option.some.inj hs
        refine List.mem_append_left _ (List.mem_map.mpr ⟨(s'.traceName, minUtil), ?_, rfl⟩)
        exact List.mem_filter.mpr ⟨hmem, decide_eq_true rfl⟩
      · have hrow := ih (i := i + 1) (k := k) hs
        rw [Nat.add_right_comm, Nat.add_assoc] at hrow
        exact List.mem_append_right _ hrow

theorem main_run (hfiles : List.Forall₂ HoldsTrace files traces) (hd : d.errors = [])
    (tracedir : String) :
    ∃ d', (main mmPackage tracedir files).run d =
        .ok (⟨statsFrom d.heap.arena.start 0 files traces,
          printpassed 0 (statsFrom d.heap.arena.start 0 files traces),
          ((statsFrom d.heap.arena.start 0 files traces).filter Stats.valid).length,
          d'.errors.length⟩, d') ∧
      d'.errors = reportsFrom d.heap.arena.start 0 traces := by
  have hB : Between d.heap.arena.start [] d := ⟨rfl, hd⟩
  obtain ⟨d', hrun, hB'⟩ := evalTraces_run (i := 0) hfiles hB (by simp) tracedir
  refine ⟨d', ?_, hB'.errors⟩
  rw [main, run_bind_of_ok hrun]
  rfl

/-- `main` gets to its end on any set of readable trace files in which every 'r' and 'f' is
about an id that holds a payload and nothing of size zero is asked for: each is evaluated as
if it were alone, the errors are those of the traces that fail, one for each, and a trace
is marked as passed if its replay ends with the utilization that is asked of its name. -/
theorem main_reports (hfiles : List.Forall₂ HoldsTrace files traces) (hd : d.errors = [])
    (tracedir : String) :
    ∃ r d', (main mmPackage tracedir files).run d = .ok (r, d') ∧
      r.stats = statsFrom d.heap.arena.start 0 files traces ∧
      d'.errors = reportsFrom d.heap.arena.start 0 traces ∧ r.errors = d'.errors.length ∧
      r.numcorrect + r.errors = files.length ∧
      ∀ row ∈ r.rows, ∃ ls minUtil, traces[row.tracenum]? = some ls ∧
        (row.traceName, minUtil) ∈ traceBaselineTable ∧
        (row.passed = true ↔ ∃ L, replayOf d.heap.arena.start ls = .ok L ∧
          minUtil ≤ (peakOf ls : ℚ) / ((L.brk - L.start : Nat) : ℚ)) := by
  obtain ⟨d', hmain, hreports⟩ := main_run hfiles hd tracedir
  refine ⟨_, d', hmain, rfl, hreports, rfl, ?_, fun row hrow => ?_⟩
  · have herrors : d'.errors.length = traces.countP fun ls => !(replayOf d.heap.arena.start ls).isOk :=
      hreports ▸ length_reportsFrom _ 0 traces
    have hlen := hfiles.length_eq
    change ((statsFrom d.heap.arena.start 0 files traces).filter Stats.valid).length +
      d'.errors.length = files.length
    rw [herrors, length_correct hlen, hlen]
    have hsum := List.length_eq_countP_add_countP (l := traces)
      fun ls => (replayOf d.heap.arena.start ls).isOk
    simpa using hsum.symm
  · obtain ⟨k, s, minUtil, hs, hmem, rfl⟩ := mem_printpassed hrow
    obtain ⟨f, ls, -, hls, rfl⟩ := getElem?_statsFrom hs
    refine ⟨ls, minUtil, ?_, ?_, ?_⟩
    · rw [tracenum_printpassedRow, Nat.zero_add]
      exact hls
    · rw [traceName_printpassedRow]
      exact hmem
    · rw [passed_printpassedRow_iff]
      rcases hreplay : replayOf d.heap.arena.start ls with ⟨j, c⟩ | L
      · simp [statsOf, hreplay]
      · simp [statsOf, hreplay]

end Reports

section Sample

def sampleFiles : List TraceFile :=
  [⟨"amptjp-bal.rep", some "40 2 4 1\na 0 24\na 1 8\nr 0 40\nf 1\n".toList, ⟨0, 9, 9, 0⟩, 1,
      ⟨fun _ => 7, fun _ => 4096⟩⟩,
    ⟨"other.rep", some "9 201 3 1\na 0 16\na 200 8\nr 200 90".toList, ⟨0, 0, 1, 2⟩, 3,
      ⟨fun i => i, fun _ => 1⟩⟩]

def sampleLines : List (List Line) :=
  [[.alloc 0 24, .alloc 1 8, .realloc 0 40, .free 1], [.alloc 0 16, .alloc 200 8, .realloc 200 90]]

theorem sample_holds : List.Forall₂ HoldsTrace sampleFiles sampleLines := by
  refine .cons ⟨⟨_, ⟨40, 2, 4, 1⟩, rfl, ⟨?_, ?_, by decide⟩⟩, by decide, by decide⟩
    (.cons ⟨⟨_, ⟨9, 201, 3, 1⟩, rfl, ⟨?_, ?_, by decide⟩⟩, by decide, by decide⟩ .nil)
  · exact ⟨_, _, _, _, _, rfl, ⟨rfl, rfl, rfl, rfl⟩,
      .alloc rfl rfl (.alloc rfl rfl (.realloc rfl rfl (.free rfl .nil))), rfl⟩
  · exact ⟨by decide, by decide, by decide, .alloc 1 8, by decide, rfl, rfl⟩
  · exact ⟨_, _, _, _, _, rfl, ⟨rfl, rfl, rfl, rfl⟩,
      .alloc rfl rfl (.alloc rfl rfl (.realloc rfl rfl .nil)), rfl⟩
  · exact ⟨by decide, by decide, by decide, .alloc 200 8, by decide, rfl, rfl⟩

/-- The second trace fails, and the first one is right all the same. -/
theorem main_reports_sample : ∃ r d',
    (main mmPackage "./traces/" sampleFiles).run sampleTraceDriver = .ok (r, d') ∧
      r.numcorrect = 1 ∧ d'.errors = [⟨1, 7, .notPreserved⟩] := by
  obtain ⟨r, d', hrun, -, herrors, hcount, hsum, -⟩ :=
    main_reports sample_holds (d := sampleTraceDriver) rfl "./traces/"
  have hreports : reportsFrom sampleTraceDriver.heap.arena.start 0 sampleLines =
      [⟨1, 7, .notPreserved⟩] := rfl
  rw [hreports] at herrors
  rw [herrors] at hcount
  refine ⟨r, d', hrun, ?_, herrors⟩
  rw [hcount] at hsum
  exact Nat.succ.inj hsum

end Sample

end MallocLab.TraceReports
