import MallocLab.BalancedHeaps
import MallocLab.ReplSoundness

/-!
What `print` shows in a session.  As long as no block is lost to a `realloc` without a pointer,
every payload of the table is shown once, under its own index, and every other line is a free
block.
-/

namespace MallocLab.ReplDisplay

open MallocLab.Machine
open MallocLab.HeapPrograms
open MallocLab.HeapGrowth
open MallocLab.AbstractLayout
open MallocLab.AbstractLayout.Layout
open MallocLab.Representation
open MallocLab.Runs
open MallocLab.MallocPackage
open MallocLab.Mdriver
open MallocLab.DriverPrograms
open MallocLab.AllocatorContract
open MallocLab.Replays
open MallocLab.BalancedHeaps
open MallocLab.Repl
open MallocLab.ReplHoldings
open MallocLab.ReplInvariant
open MallocLab.ReplPrinting
open MallocLab.ReplCommands
open MallocLab.ReplRealloc
open MallocLab.ReplSoundness

section Effects

variable {α : Type} {d d' d₁ : Driver Heap ReplState} {cmd : Command} {index : Int} {i q lo : Nat}
  {size : BitVec 32} {s : Heap} {c : Call} {b : Bool} {out : List Printed}

/-- The call that a command makes for the pointer of its index. -/
def Asked (d : Driver Heap ReplState) : Command → Call → Prop
  | .malloc _ size, c => c = .malloc (size.signExtend 64)
  | .realloc index size, c => ∃ i, indexInTable index = some i ∧
      c = .realloc (d.table.blocks i).ptr (size.signExtend 64)
  | .free index, c => ∃ i, indexInTable index = some i ∧ (d.table.blocks i).isValid = true ∧
      c = .free (d.table.blocks i).ptr
  | .reset, _ => False
  | .print _, _ => False

/-- What a command does to the heap: nothing, a call, or a call whose payload it fills. -/
inductive Touches (d d' : Driver Heap ReplState) (cmd : Command) : Prop where
  | same (hheap : d'.heap = d.heap) (hissued : d'.issued = d.issued)
  | called {i q : Nat} {c : Call} (hasked : Asked d cmd c)
      (hcall : (mmPackage.exec c).run d.heap = .ok (q, d'.heap))
      (hissued : d'.issued = d.issued ++ [⟨i, c, q⟩])
  | filled {i q : Nat} {c : Call} {s : Heap} {size : BitVec 32} (hasked : Asked d cmd c)
      (hsize : c = .malloc (size.signExtend 64) ∨ ∃ ptr, c = .realloc ptr (size.signExtend 64))
      (hcall : (mmPackage.exec c).run d.heap = .ok (q, s)) (hq : q ≠ null) (hpos : 0 < size.toInt)
      (hfill : (mmPackage.memset q (fillByte i) (size.signExtend 64).toNat).run s =
        .ok ((), d'.heap))
      (hissued : d'.issued = d.issued ++ [⟨i, c, q⟩])

/-- The numbers that `make_repl_state` gives the blocks. -/
def SameNumbers (d d' : Driver Heap ReplState) : Prop :=
  ∀ j, (d'.table.blocks j).index = (d.table.blocks j).index

theorem sameNumbers_of_blocks (hblocks : d'.table.blocks = d.table.blocks) : SameNumbers d d' :=
  fun j => by rw [hblocks]

/-- An entry of the table is replaced by one of the same number. -/
theorem sameNumbers_stored (hblocks : d₁.table.blocks = d.table.blocks) (i : Nat) {b : ReplBlock}
    (hb : b.index = (d.table.blocks i).index) : SameNumbers d (stored d₁ i b) := by
  intro j
  change (Function.update d₁.table.blocks i b j).index = _
  rw [hblocks]
  rcases Decidable.em (j = i) with rfl | hne
  · rw [Function.update_self, hb]
  · rw [Function.update_of_ne hne]

theorem addReplRange_cases (hsize : size ≠ 0)
    (hrun : (addReplRange mmPackage lo size).run d = .ok (b, d')) :
    0 < size.toInt ∧ d'.heap = d.heap ∧ d'.issued = d.issued ∧ d'.table = d.table := by
  rw [addReplRange, run_bind_of_ok (run_get d)] at hrun
  obtain ⟨hpos, ⟨-, -, rfl⟩ | ⟨c, -, -, rfl⟩⟩ := addRange_cases hsize hrun
  · exact ⟨hpos, rfl, rfl, rfl⟩
  · exact ⟨hpos, rfl, rfl, rfl⟩

theorem mallocCmd_touches (hrun : (mallocCmd mmPackage index size).run d = .ok (out, d')) :
    Touches d d' (.malloc index size) ∧ SameNumbers d d' := by
  rw [mallocCmd] at hrun
  split at hrun
  · cases hrun
    exact ⟨.same rfl rfl, sameNumbers_of_blocks rfl⟩
  · rename_i i hindex
    rw [run_bind_of_ok (getReplBlock_run i d)] at hrun
    split at hrun
    · cases hrun
      exact ⟨.same rfl rfl, sameNumbers_of_blocks rfl⟩
    · rw [run_bind_of_ok (countOp_run d)] at hrun
      obtain ⟨q, d₁, hfirst, hrun⟩ := run_bind_eq_ok hrun
      obtain ⟨s, hcall, rfl⟩ := callMm_eq_ok hfirst
      split at hrun
      · cases hrun
        exact ⟨.called rfl hcall rfl, sameNumbers_of_blocks rfl⟩
      · split at hrun
        · cases hrun
          exact ⟨.called rfl hcall rfl, sameNumbers_of_blocks rfl⟩
        · rename_i hserved hne
          have hq : q ≠ null := fun hnull => hserved ⟨hnull, hne⟩
          obtain ⟨b, d₂, hadd, hrun⟩ := run_bind_eq_ok hrun
          obtain ⟨hpos, hheap, hissued, htable⟩ := addReplRange_cases hne hadd
          have hblocks : d₂.table.blocks = d.table.blocks := by
            rw [htable]
            rfl
          cases b with
          | false =>
              cases hrun
              exact ⟨.called rfl (hheap ▸ hcall) hissued, sameNumbers_of_blocks hblocks⟩
          | true =>
              obtain ⟨⟨⟩, d₃, hfilled, hrun⟩ := run_bind_eq_ok hrun
              obtain ⟨s', hfill, rfl⟩ := fillRange_eq_ok hfilled
              cases hrun
              rw [hheap] at hfill
              exact ⟨.filled rfl (.inl rfl) hcall hq hpos hfill hissued,
                sameNumbers_stored hblocks i rfl⟩

theorem freeCmd_touches (hrun : (freeCmd mmPackage index).run d = .ok (out, d')) :
    Touches d d' (.free index) ∧ SameNumbers d d' := by
  rw [freeCmd] at hrun
  split at hrun
  · cases hrun
    exact ⟨.same rfl rfl, sameNumbers_of_blocks rfl⟩
  · rename_i i hindex
    rw [run_bind_of_ok (getReplBlock_run i d)] at hrun
    split at hrun
    · cases hrun
      exact ⟨.same rfl rfl, sameNumbers_of_blocks rfl⟩
    · rename_i hvalid
      rw [run_bind_of_ok (countOp_run d), run_bind_of_ok (removeRange_run _ _)] at hrun
      obtain ⟨q, d₁, hfirst, hrun⟩ := run_bind_eq_ok hrun
      obtain ⟨s, hcall, rfl⟩ := callMm_eq_ok hfirst
      cases hrun
      exact ⟨.called ⟨i, hindex, not_not.mp hvalid, rfl⟩ hcall rfl, sameNumbers_stored rfl i rfl⟩

theorem remallocCmd_touches (hrun : (remallocCmd mmPackage index size).run d = .ok (out, d')) :
    Touches d d' (.realloc index size) ∧ SameNumbers d d' := by
  rw [remallocCmd] at hrun
  split at hrun
  · cases hrun
    exact ⟨.same rfl rfl, sameNumbers_of_blocks rfl⟩
  · rename_i i hindex
    rw [run_bind_of_ok (getReplBlock_run i d)] at hrun
    obtain ⟨q, d₁, hfirst, hrun⟩ := run_bind_eq_ok hrun
    obtain ⟨s, hcall, rfl⟩ := callMm_eq_ok hfirst
    have hasked : Asked d (.realloc index size)
        (.realloc (d.table.blocks i).ptr (size.signExtend 64)) := ⟨i, hindex, rfl⟩
    split at hrun
    · cases hrun
      exact ⟨.called hasked hcall rfl, sameNumbers_of_blocks rfl⟩
    · split at hrun
      · cases hrun
        exact ⟨.called hasked hcall rfl, sameNumbers_of_blocks rfl⟩
      · rename_i hserved hne
        have hq : q ≠ null := fun hnull => hserved ⟨hnull, hne⟩
        rw [run_bind_of_ok (removeRange_run _ _)] at hrun
        obtain ⟨b, d₂, hadd, hrun⟩ := run_bind_eq_ok hrun
        obtain ⟨hpos, hheap, hissued, htable⟩ := addReplRange_cases hne hadd
        have hblocks : d₂.table.blocks = d.table.blocks := congrArg ReplState.blocks htable
        cases b with
        | false =>
            cases hrun
            exact ⟨.called hasked (hheap ▸ hcall) hissued, sameNumbers_of_blocks hblocks⟩
        | true =>
            obtain ⟨b, d₃, hchecked, hrun⟩ := run_bind_eq_ok hrun
            obtain ⟨-, rfl⟩ := checkData_eq_ok hchecked
            cases b with
            | false =>
                cases hrun
                exact ⟨.called hasked (hheap ▸ hcall) hissued, sameNumbers_of_blocks hblocks⟩
            | true =>
                obtain ⟨⟨⟩, d₄, hfilled, hrun⟩ := run_bind_eq_ok hrun
                obtain ⟨s', hfill, rfl⟩ := fillRange_eq_ok hfilled
                cases hrun
                rw [hheap] at hfill
                exact ⟨.filled hasked (.inr ⟨_, rfl⟩) hcall hq hpos hfill hissued,
                  sameNumbers_stored hblocks i rfl⟩

end Effects

section Sessions

variable {d d' : Driver Heap ReplState} {cmd : Command} {index : Int} {i q : Nat}
  {size : BitVec 32} {s : Heap} {c : Call} {out : List Printed}

/-- No `realloc` without a pointer, which loses the block that it allocates. -/
def Tidy (d : Driver Heap ReplState) : Command → Prop
  | .realloc index _ => ∀ i, indexInTable index = some i → (d.table.blocks i).ptr ≠ null
  | _ => True

/-- The states that `driver` reaches by careful commands that lose no block. -/
inductive Tidied : Driver Heap ReplState → Prop where
  | start {arena : Arena} {stale : ByteMemory.Memory} {out : List Printed}
      {d : Driver Heap ReplState}
      (hrun : (resetCmd mmPackage).run (replStart arena stale) = .ok (out, d)) : Tidied d
  | step {d d' : Driver Heap ReplState} {cmd : Command} {out : List Printed}
      (htidied : Tidied d) (hdomain : InDomain cmd) (hcareful : Careful d cmd)
      (htidy : Tidy d cmd) (hrun : cmd.handler.run d = .ok (out, d')) : Tidied d'

theorem Tidied.reached (htidied : Tidied d) : Reached d := by
  induction htidied with
  | start hrun => exact .start hrun
  | step _ hdomain hcareful _ hrun ih => exact .step ih hdomain hcareful hrun

theorem Tidied.inv (htidied : Tidied d) : Inv d := Reached.inv htidied.reached

/-- The payloads obtained, without their indices. -/
def livePayloads (issued : List Issued) : Live := (holdings issued).map Prod.snd

/-- What a tidy session keeps besides the invariant. -/
structure Shown (d : Driver Heap ReplState) : Prop where
  exact : ExactlyLive d.heap (livePayloads d.issued)
  numbered : ∀ j, (d.table.blocks j).index = j

theorem legal_of_asked (hC : Inv d) (hdomain : InDomain cmd) (hcareful : Careful d cmd)
    (htidy : Tidy d cmd) (hasked : Asked d cmd c) :
    c.Legal (livePayloads d.issued) ∧ c.IntSized ∧ ∀ size, c ≠ .realloc null size := by
  cases cmd with
  | malloc index size =>
      obtain rfl := hasked
      exact ⟨trivial, isInt_size hdomain, fun _ heq => Call.noConfusion heq⟩
  | free index =>
      obtain ⟨i, hindex, hvalid, rfl⟩ := hasked
      have hlive := hC.live (indexInTable_lt hindex) hvalid
      exact ⟨.inr ⟨_, hlive⟩, trivial, fun _ heq => Call.noConfusion heq⟩
  | realloc index size =>
      obtain ⟨i, hindex, rfl⟩ := hasked
      have hne := htidy i hindex
      have hptr := (hcareful i hindex).resolve_left hne
      obtain ⟨j, hj, hvalid, hblock⟩ := hptr.2.1
      have hlive := hC.live hj hvalid
      rw [hblock] at hlive
      exact ⟨.inr ⟨_, hlive⟩, isInt_size hdomain, fun _ heq => hne (Call.realloc.inj heq).1⟩
  | reset => exact hasked.elim
  | print block => exact hasked.elim

theorem livePayloads_concat (issued : List Issued) (i : Nat) (c : Call) (q : Nat) :
    livePayloads (issued ++ [⟨i, c, q⟩]) = liveAfter (livePayloads issued) c q := by
  rw [livePayloads, holdings_concat, map_holdingsAfter]
  rfl

theorem exactlyLive_of_touches (hC : Inv d) (hexact : ExactlyLive d.heap (livePayloads d.issued))
    (hdomain : InDomain cmd) (hcareful : Careful d cmd) (htidy : Tidy d cmd)
    (htouches : Touches d d' cmd) : ExactlyLive d'.heap (livePayloads d'.issued) := by
  cases htouches with
  | same hheap hissued =>
      rw [hheap, hissued]
      exact hexact
  | called hasked hcall hissued =>
      obtain ⟨hlegal, hint, hptr⟩ := legal_of_asked hC hdomain hcareful htidy hasked
      rw [hissued, livePayloads_concat]
      exact hexact.call hlegal hint hptr hcall
  | @filled i q c s size hasked hsize hcall hq hpos hfill hissued =>
      obtain ⟨hlegal, hint, hptr⟩ := legal_of_asked hC hdomain hcareful htidy hasked
      have hcalled := hexact.call hlegal hint hptr hcall
      have hmem : (q, size.signExtend 64) ∈ liveAfter (livePayloads d.issued) c q := by
        rcases hsize with rfl | ⟨ptr, rfl⟩
        · rw [liveAfter, if_neg hq]
          exact List.mem_cons_self
        · have hne : ptr ≠ null := by
            rintro rfl
            exact hptr _ rfl
          rw [liveAfter, if_neg hne, if_neg (signExtend_ne_zero hpos), if_neg hq]
          exact List.mem_cons_self
      rw [hissued, livePayloads_concat]
      exact hcalled.fill hmem hpos hfill

theorem printCmd_same (hC : Inv d) (block : Option Int) :
    ∃ out, (printCmd block).run d = .ok (out, d) := by
  cases block with
  | none =>
      obtain ⟨⟨L, hL⟩, -⟩ := hC.mm
      rw [printCmd, run_bind_of_ok (run_get d)]
      exact ⟨_, onHeap_run (mmPrintHeapRepl_run d.table.blocks hL.represents)⟩
  | some index =>
      cases hindex : indexInTable index with
      | none =>
          rw [printCmd, hindex]
          exact ⟨_, rfl⟩
      | some i =>
          cases hvalid : (d.table.blocks i).isValid with
          | false =>
              have hnot : ¬ (d.table.blocks i).isValid = true := by simp [hvalid]
              rw [printCmd, hindex]
              dsimp only
              rw [run_bind_of_ok (getReplBlock_run i d), if_pos hnot]
              exact ⟨_, rfl⟩
          | true =>
              obtain ⟨size, hrun⟩ := printCmd_block hC hindex hvalid
              exact ⟨_, hrun⟩

/-- A reset leaves an empty heap, and the numbers of the table. -/
theorem shown_of_reset (hnumbers : ∀ j, (d.table.blocks j).index = j)
    (hrun : (resetCmd mmPackage).run d = .ok (out, d')) : Shown d' := by
  obtain ⟨h', d₁, hreset, hI, hleaves⟩ := resetCmd_run d
  obtain ⟨-, rfl⟩ := Prod.mk.inj (Except.ok.inj (hreset.symm.trans hrun))
  constructor
  · rw [hleaves.heap, hleaves.issued]
    exact ⟨_, hI, fun _ hb => absurd hb.1 List.not_mem_nil⟩
  · rw [hleaves.blocks]
    exact hnumbers

theorem Tidied.shown (htidied : Tidied d) : Shown d := by
  induction htidied with
  | start hrun => exact shown_of_reset (fun _ => rfl) hrun
  | @step d d' cmd out htidied hdomain hcareful htidy hrun ih =>
      have hC := htidied.inv
      have hkeeps : Touches d d' cmd → SameNumbers d d' → Shown d' := by
        intro htouches hsame
        exact ⟨exactlyLive_of_touches hC ih.exact hdomain hcareful htidy htouches,
          fun j => (hsame j).trans (ih.numbered j)⟩
      cases cmd with
      | malloc index size =>
          obtain ⟨htouches, hsame⟩ := mallocCmd_touches hrun
          exact hkeeps htouches hsame
      | realloc index size =>
          obtain ⟨htouches, hsame⟩ := remallocCmd_touches hrun
          exact hkeeps htouches hsame
      | free index =>
          obtain ⟨htouches, hsame⟩ := freeCmd_touches hrun
          exact hkeeps htouches hsame
      | reset => exact shown_of_reset ih.numbered hrun
      | print block =>
          obtain ⟨out', hprint⟩ := printCmd_same hC block
          obtain ⟨-, rfl⟩ := Prod.mk.inj (Except.ok.inj (hprint.symm.trans hrun))
          exact ih

end Sessions

section Lookup

variable {blocks : Nat → ReplBlock} {a i j n : Nat} {o : Option ReplBlock}

/-- The one valid entry of a block is found, whatever stale entries come before it. -/
theorem findReplBlock_eq (hlt : i ≤ j) (hbound : j < i + n) (hptr : (blocks j).ptr - 8 = a)
    (hvalid : (blocks j).isValid = true)
    (honly : ∀ k, (blocks k).ptr - 8 = a → (blocks k).isValid = true → k < i + n → k = j) :
    findReplBlock blocks a i n o = some (blocks j) := by
  induction n generalizing i o with
  | zero => exact absurd hbound (Nat.not_lt.mpr hlt)
  | succ n ih =>
      have hnext : i + 1 + n = i + (n + 1) := by omega
      rw [findReplBlock]
      rcases Decidable.em (j = i) with rfl | hne
      · rw [if_pos hptr, if_pos hvalid]
      · have hrest : ∀ o, findReplBlock blocks a (i + 1) n o = some (blocks j) := by
          intro o
          refine ih (by omega) (by omega) ?_
          intro k hk hkvalid hklt
          exact honly k hk hkvalid (hnext ▸ hklt)
        split
        · rename_i hi
          rw [if_neg, hrest]
          intro hivalid
          exact hne (honly i hi hivalid (by omega)).symm
        · exact hrest o

end Lookup

section Lines

variable {d : Driver Heap ReplState} {L : Layout} {b : Block} {i : Nat}

/-- The index of an allocated block of a listing. -/
def lineIndex : Printed → Option Nat
  | .allocated index _ _ => index
  | _ => none

def isFreeLine : Printed → Bool
  | .free _ _ _ _ => true
  | _ => false

/-- The line of a payload of the table: its block, with room for the size asked for. -/
def IsPayloadLine (t : ReplState) (l : Printed) : Prop :=
  ∃ i < numBlocks, (t.blocks i).isValid = true ∧ ∃ size : Nat,
    l = .allocated (some i) ((t.blocks i).ptr - 8) (BitVec.ofNat 64 size) ∧
      (t.blocks i).size.toInt + 16 ≤ size ∧ size < 2 ^ 63

/-- A block of the heap, and the valid index that owns its payload. -/
structure Owns (t : ReplState) (i : Nat) (b : Block) : Prop where
  lt : i < numBlocks
  isValid : (t.blocks i).isValid = true
  ptr : (t.blocks i).ptr = b.addr + 8
  room : (t.blocks i).size.toInt + 16 ≤ b.size

theorem owns_of_allocated (hC : Inv d) (hI : Invariant ⟨d.heap, livePayloads d.issued⟩ L)
    (hN : NoOrphan L.allocated (livePayloads d.issued)) (hb : b ∈ L.allocated) :
    ∃ i, Owns d.table i b := by
  obtain ⟨size, hlive⟩ := hN b hb
  obtain ⟨⟨i, ptr, n⟩, hmem, hpair⟩ := List.mem_map.mp hlive
  obtain ⟨rfl, rfl⟩ := Prod.mk.inj hpair
  have hhas := (hC.table i (b.addr + 8) n).mp hmem
  obtain ⟨c, hc, haddr, hroom⟩ := hI.block_of_live hlive
  have hsame : c = b := hI.represents.wellFormed.eq_of_addr_eq (WellFormed.mem_all_of_mem hc.1)
    (WellFormed.mem_all_of_mem hb.1) (Nat.add_right_cancel haddr)
  rw [hsame] at hroom
  exact ⟨i, hhas.lt, hhas.isValid, hhas.ptr, hhas.size ▸ hroom⟩

theorem block_of_valid (hC : Inv d) (hI : Invariant ⟨d.heap, livePayloads d.issued⟩ L)
    (hi : i < numBlocks) (hvalid : (d.table.blocks i).isValid = true) :
    ∃ b ∈ L.allocated, Owns d.table i b := by
  obtain ⟨b, hb, haddr, hroom⟩ := hI.block_of_live (hC.live hi hvalid)
  exact ⟨b, hb, hi, hvalid, haddr.symm, hroom⟩

theorem Owns.eq_of_index (hL : L.WellFormed) {c : Block} (hb : b ∈ L.blocks) (hc : c ∈ L.blocks)
    (howns : Owns d.table i b) (howns' : Owns d.table i c) : b = c := by
  have haddr : b.addr + 8 = c.addr + 8 := howns.ptr.symm.trans howns'.ptr
  exact hL.eq_of_addr_eq (WellFormed.mem_all_of_mem hb) (WellFormed.mem_all_of_mem hc)
    (Nat.add_right_cancel haddr)

theorem shownIndex_of_owns (hC : Inv d) (hS : Shown d)
    (hI : Invariant ⟨d.heap, livePayloads d.issued⟩ L) (howns : Owns d.table i b) :
    shownIndex d.table.blocks b = some i := by
  have hptr : (d.table.blocks i).ptr - 8 = b.addr := by
    rw [howns.ptr]
    exact Nat.add_sub_cancel ..
  have hfound : findReplBlockFromBlock d.table.blocks b.addr numBlocks =
      some (d.table.blocks i) := by
    refine findReplBlock_eq (Nat.zero_le i) (by simpa using howns.lt) hptr howns.isValid ?_
    intro k hk hvalid hlt
    rw [Nat.zero_add] at hlt
    obtain ⟨c, -, hc⟩ := block_of_valid hC hI hlt hvalid
    have haddr : c.addr = b.addr := by
      rw [hc.ptr] at hk
      exact (Nat.add_sub_cancel ..).symm.trans hk
    refine hC.eq_of_valid hlt howns.lt hvalid howns.isValid ?_
    rw [hc.ptr, howns.ptr, haddr]
  rw [shownIndex, hfound]
  exact congrArg some (hS.numbered i)

theorem statusLine_of_owns (hC : Inv d) (hS : Shown d)
    (hI : Invariant ⟨d.heap, livePayloads d.issued⟩ L) (halloc : b.alloc = true)
    (howns : Owns d.table i b) :
    statusLine d.heap d.table.blocks b = .allocated (some i) b.addr (BitVec.ofNat 64 b.size) := by
  rw [statusLine, if_pos halloc, shownIndex_of_owns hC hS hI howns]

theorem alloc_of_lineIndex (hline : lineIndex (statusLine d.heap d.table.blocks b) = some i) :
    b.alloc = true := by
  rw [statusLine] at hline
  split at hline
  · assumption
  · cases hline

theorem owns_of_lineIndex (hC : Inv d) (hS : Shown d)
    (hI : Invariant ⟨d.heap, livePayloads d.issued⟩ L)
    (hN : NoOrphan L.allocated (livePayloads d.issued)) (hb : b ∈ L.blocks)
    (hline : lineIndex (statusLine d.heap d.table.blocks b) = some i) : Owns d.table i b := by
  have halloc := alloc_of_lineIndex hline
  obtain ⟨j, howns⟩ := owns_of_allocated hC hI hN ⟨hb, halloc⟩
  rw [statusLine_of_owns hC hS hI halloc howns] at hline
  obtain rfl : j = i := Option.some.inj hline
  exact howns

/-- One line for each valid index. -/
theorem lines_perm (hC : Inv d) (hS : Shown d)
    (hI : Invariant ⟨d.heap, livePayloads d.issued⟩ L)
    (hN : NoOrphan L.allocated (livePayloads d.issued)) :
    ((L.blocks.map (statusLine d.heap d.table.blocks)).filterMap lineIndex).Perm
      (validIndices d.table) := by
  have hL := hI.represents.wellFormed
  have hblocks : L.blocks.Nodup := by
    have hall := hL.nodup_all
    rw [Layout.all, List.cons_append, List.nodup_cons] at hall
    exact (List.nodup_append.mp hall.2).1
  rw [List.filterMap_map]
  refine (List.perm_ext_iff_of_nodup ?_ (List.nodup_range.filter _)).mpr fun i => ?_
  · refine List.pairwise_filterMap.mpr (hblocks.imp_of_mem ?_)
    rintro b c hb hc hne i hline i' hline' rfl
    exact hne ((owns_of_lineIndex hC hS hI hN hb hline).eq_of_index hL hb hc
      (owns_of_lineIndex hC hS hI hN hc hline'))
  · rw [List.mem_filterMap, List.mem_filter, List.mem_range]
    constructor
    · rintro ⟨b, hb, hline⟩
      have howns := owns_of_lineIndex hC hS hI hN hb hline
      exact ⟨howns.lt, howns.isValid⟩
    · rintro ⟨hi, hvalid⟩
      obtain ⟨b, hb, howns⟩ := block_of_valid hC hI hi hvalid
      exact ⟨b, hb.1, congrArg lineIndex (statusLine_of_owns hC hS hI hb.2 howns)⟩

theorem lines_chain (hL : L.WellFormed) :
    (L.blocks.map (statusLine d.heap d.table.blocks)).IsChain fun l l' =>
      ¬ (isFreeLine l = true ∧ isFreeLine l' = true) := by
  have hall : (L.prologue :: L.blocks ++ [L.epilogue]).IsChain Apart := hL.coalesced
  refine List.isChain_map_of_isChain _ ?_ hall.left_of_append.tail
  rintro b c hapart ⟨hb, hc⟩
  have hnot : ∀ b : Block, isFreeLine (statusLine d.heap d.table.blocks b) = true →
      b.alloc ≠ true := by
    intro b hfree halloc
    rw [statusLine, if_pos halloc] at hfree
    cases hfree
  rcases hapart with halloc | halloc
  · exact hnot b hb halloc
  · exact hnot c hc halloc

end Lines

/-- In a session that loses no block, 'print' shows the payload of every valid index once, with
the room it has; all other lines are free blocks, never two in a row. -/
theorem print_shows_table {d : Driver Heap ReplState} (htidied : Tidied d) : ∃ lines,
    (Command.handler (.print none)).run d =
      .ok ([.heapSize d.heap.memHeapsize, .prologue d.heap.prologue 16] ++ lines ++
        [.epilogue d.heap.epilogue 16], d) ∧
      (∀ l ∈ lines, IsPayloadLine d.table l ∨ isFreeLine l = true) ∧
      (lines.filterMap lineIndex).Perm (validIndices d.table) ∧
      lines.IsChain fun l l' => ¬ (isFreeLine l = true ∧ isFreeLine l' = true) := by
  have hC := htidied.inv
  have hS := htidied.shown
  obtain ⟨L, hI, hN⟩ := hS.exact
  have hR := hI.represents
  refine ⟨L.blocks.map (statusLine d.heap d.table.blocks), ?_, ?_, lines_perm hC hS hI hN,
    lines_chain hR.wellFormed⟩
  · rw [Command.handler, printCmd, run_bind_of_ok (run_get d), hR.prologue, hR.epilogue]
    exact onHeap_run (mmPrintHeapRepl_run d.table.blocks hR)
  · intro l hl
    obtain ⟨b, hb, rfl⟩ := List.mem_map.mp hl
    cases halloc : b.alloc with
    | false =>
        right
        rw [statusLine, halloc]
        rfl
    | true =>
        obtain ⟨i, howns⟩ := owns_of_allocated hC hI hN ⟨hb, halloc⟩
        have htagged := hR.tagged (WellFormed.mem_all_of_mem hb)
        refine .inl ⟨i, howns.lt, howns.isValid, b.size, ?_, howns.room, htagged.small⟩
        rw [statusLine_of_owns hC hS hI halloc howns, howns.ptr]
        rfl

/-- After `malloc 0 24` index 0 is shown. -/
theorem print_shows_table_sample : ∃ d lines,
    (Command.handler (.print none)).run d =
      .ok ([.heapSize d.heap.memHeapsize, .prologue d.heap.prologue 16] ++ lines ++
        [.epilogue d.heap.epilogue 16], d) ∧ 0 ∈ lines.filterMap lineIndex := by
  obtain ⟨d₀, d, hreset, hmalloc, -, -, hvalid⟩ := sample_malloc
  have hdomain : InDomain (.malloc 0 24) := show 0 ≤ (24 : BitVec 32).toInt by decide
  have htidied : Tidied d := .step (.start hreset) hdomain trivial trivial hmalloc
  obtain ⟨lines, hrun, -, hperm, -⟩ := print_shows_table htidied
  have hmem : 0 ∈ validIndices d.table := by
    rw [validIndices, List.mem_filter]
    exact ⟨List.mem_range.mpr (by decide), hvalid⟩
  exact ⟨d, lines, hrun, hperm.mem_iff.mpr hmem⟩

end MallocLab.ReplDisplay
