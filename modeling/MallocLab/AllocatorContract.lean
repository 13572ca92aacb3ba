import Mathlib.Order.CompletePartialOrder
import MallocLab.DriverPrograms
import MallocLab.Determinism
import MallocLab.LiveBlocks

/-!
What the driver may expect of a malloc package, and that the one of `mm.c` lives up
to it.
-/

namespace MallocLab.AllocatorContract

open MallocLab.ByteMemory
open MallocLab.WordBits
open MallocLab.Machine
open MallocLab.Mm
open MallocLab.HeapPrograms
open MallocLab.AbstractLayout
open MallocLab.AbstractLayout.Layout
open MallocLab.Runs
open MallocLab.LiveBlocks
open MallocLab.Determinism
open MallocLab.MallocPackage
open MallocLab.Mdriver

/-- The first and last byte of a live payload. -/
def rangeOf (e : Nat × Word) : Range := ⟨e.1, e.1 + e.2.toNat - 1⟩

/-- The size asked for is a non-negative `int`. -/
def NonNegative : Call → Prop
  | .malloc size => 0 ≤ size.toInt ∧ size.toInt < 2 ^ 31
  | .free _ => True
  | .realloc _ size => 0 ≤ size.toInt ∧ size.toInt < 2 ^ 31

/-- A request for no bytes at all. -/
def AsksNothing : Call → Prop
  | .malloc size => size = 0
  | .free _ => False
  | .realloc _ size => size = 0

/-- A live payload is an aligned piece of the heap. -/
structure Placed (P : Package σ) (s : σ) (e : Nat × Word) : Prop where
  pos : 0 < e.2.toInt
  ne_null : e.1 ≠ null
  aligned : isAligned e.1
  inside : P.memHeapLo s ≤ e.1 ∧ e.1 + e.2.toNat - 1 ≤ P.memHeapHi s

/-- The contract of `malloc`, `free` and `realloc`.  `Inv` relates the state of the
package to the live payloads, which no two share a byte. -/
structure Contract {σ : Type} (P : Package σ) (Inv : σ → Live → Prop) : Prop where
  init : ∀ s, ∃ s₁ r s₂, P.memResetBrk.run s = .ok ((), s₁) ∧
    P.mmInit.run s₁ = .ok (r, s₂) ∧ (0 ≤ r → Inv s₂ [])
  call : ∀ s live c, Inv s live → c.Legal live → NonNegative c →
    ∃ q s', (P.exec c).run s = .ok (q, s') ∧ Inv s' (liveAfter live c q) ∧
      (AsksNothing c → q = null)
  placed : ∀ s live, Inv s live → ∀ e ∈ live, Placed P s e
  disjoint : ∀ s live, Inv s live →
    live.Pairwise fun e f => (rangeOf e).hi < f.1 ∨ (rangeOf f).hi < e.1
  memset : ∀ s live, Inv s live → ∀ e ∈ live, ∀ c,
    ∃ s', (P.memset e.1 c e.2.toNat).run s = .ok ((), s') ∧ Inv s' live
  readByte : ∀ s live, Inv s live → ∀ e ∈ live, ∀ k < e.2.toNat,
    ∃ c, P.readByte s (e.1 + k) = .ok c

section Payloads

variable {h : Heap} {live : Live} {L : Layout} {p n : Nat} {size : Word}

/-- The bytes of a live payload are in the heap, inside one allocated block. -/
theorem payload_inHeap (hI : Invariant ⟨h, live⟩ L) (hlive : (p, size) ∈ live)
    (hn : (n : Int) ≤ size.toInt) :
    h.InHeap p n ∧ ∃ b ∈ L.allocated, b.addr + 8 = p ∧ p + n ≤ b.stop - 8 := by
  obtain ⟨b, hb, rfl, hlarge⟩ := hI.block_of_live hlive
  obtain ⟨hlo, hhi⟩ := hI.represents.inHeap_of_mem hb.1
  have hstop : b.stop = b.addr + b.size := rfl
  refine ⟨⟨?_, ?_⟩, b, hb, rfl, ?_⟩
  · exact le_trans hlo (Nat.le_add_right _ _)
  · change b.stop + 16 ≤ h.memBrk at hhi
    omega
  · omega

/-- Filling a live payload. -/
theorem memset_invariant (hI : Invariant ⟨h, live⟩ L) (hlive : (p, size) ∈ live)
    (hn : (n : Int) ≤ size.toInt) (c : BitVec 8) :
    (memset p c n).run h = .ok ((), { h with memory := fill h.memory p c n }) ∧
      Invariant ⟨{ h with memory := fill h.memory p c n }, live⟩ L := by
  obtain ⟨hin, b, hb, haddr, hstop⟩ := payload_inHeap hI hlive hn
  refine ⟨memset_run hin c, ?_, hI.owned⟩
  refine hI.represents.write hb ⟨rfl, rfl, rfl, rfl⟩ rfl fun x hx => ?_
  apply fill_apply_of_not_mem
  rw [Set.mem_Ico] at hx
  omega

end Payloads

section Mm

/-- What `mm.c` maintains. -/
def MmInv (h : Heap) (live : Live) : Prop :=
  (∃ L, Invariant ⟨h, live⟩ L) ∧ ∀ e ∈ live, 0 < e.2.toInt

variable {h h' : Heap} {live : Live} {c : Call} {q : Nat}

theorem intSized_of_nonNegative (hc : NonNegative c) : c.IntSized := by
  cases c with
  | malloc size => exact ⟨le_trans (by decide) hc.1, hc.2⟩
  | free ptr => trivial
  | realloc ptr size => exact ⟨le_trans (by decide) hc.1, hc.2⟩

theorem null_of_asksNothing (hzero : AsksNothing c) (hrun : c.exec.run h = .ok (q, h')) :
    q = null := by
  cases c with
  | malloc size =>
      obtain rfl : size = 0 := hzero
      cases hrun
      rfl
  | free ptr => exact hzero.elim
  | realloc ptr size =>
      obtain rfl : size = 0 := hzero
      change (mmRealloc ptr 0).run h = .ok (q, h') at hrun
      rw [mmRealloc] at hrun
      split at hrun
      · cases hrun
        rfl
      · obtain ⟨-, h'', -, hreturn⟩ := run_bind_eq_ok hrun
        cases hreturn
        rfl

/-- Sizes stay positive, since a request for nothing returns `NULL`. -/
theorem liveAfter_pos (hpos : ∀ e ∈ live, 0 < e.2.toInt) (hc : NonNegative c)
    (hnull : AsksNothing c → q = null) : ∀ e ∈ liveAfter live c q, 0 < e.2.toInt := by
  have hfilter : ∀ ptr, ∀ e ∈ live.filter (fun e => e.1 ≠ ptr), 0 < e.2.toInt :=
    fun ptr e he => hpos e (List.mem_filter.mp he).1
  have hcons : ∀ {size : Word} {rest : Live}, 0 ≤ size.toInt → size ≠ 0 →
      (∀ e ∈ rest, 0 < e.2.toInt) → ∀ e ∈ (q, size) :: rest, 0 < e.2.toInt := by
    intro size rest hsize hne hrest
    have hint : size.toInt ≠ 0 := fun hint => hne (BitVec.eq_of_toInt_eq hint)
    have hlt : 0 < size.toInt := by omega
    exact List.forall_mem_cons.mpr ⟨hlt, hrest⟩
  cases c with
  | malloc size =>
      rcases Decidable.em (q = null) with hq | hq
      · rw [liveAfter, if_pos hq]
        exact hpos
      · rw [liveAfter, if_neg hq]
        exact hcons hc.1 (fun hzero => hq (hnull hzero)) hpos
  | free ptr => exact hfilter ptr
  | realloc ptr size =>
      have hne : q ≠ null → size ≠ 0 := fun hq hzero => hq (hnull hzero)
      simp only [liveAfter]
      split
      · split
        · exact hpos
        · exact hcons hc.1 (hne ‹_›) hpos
      · split
        · exact hfilter ptr
        · split
          · exact hpos
          · exact hcons hc.1 (hne ‹_›) (hfilter ptr)

theorem toNat_le_of_pos {size : Word} (hpos : 0 < size.toInt) : (size.toNat : Int) = size.toInt :=
  toNat_of_nonneg hpos.le

theorem mm_placed (hI : MmInv h live) : ∀ e ∈ live, Placed mmPackage h e := by
  rintro ⟨p, size⟩ hlive
  obtain ⟨⟨L, hL⟩, hpos⟩ := hI
  have hsize : 0 < size.toInt := hpos _ hlive
  have hnat := toNat_le_of_pos hsize
  obtain ⟨⟨hlo, hhi⟩, b, hb, haddr, -⟩ := payload_inHeap hL hlive hnat.le
  have haligned := addr_aligned hL.represents (WellFormed.mem_all_of_mem hb.1)
  refine ⟨hsize, ?_, ?_, hlo, ?_⟩
  · change p ≠ 0
    omega
  · change p % 8 = 0
    omega
  · change p + size.toNat ≤ h.memBrk at hhi
    change p + size.toNat - 1 ≤ h.memBrk - 1
    omega

theorem mm_disjoint (hI : MmInv h live) :
    live.Pairwise fun e f => (rangeOf e).hi < f.1 ∨ (rangeOf f).hi < e.1 := by
  obtain ⟨⟨L, hL⟩, hpos⟩ := hI
  have hnodup := List.pairwise_map.mp hL.owned.nodup
  refine hnodup.imp_of_mem ?_
  rintro ⟨p, m⟩ ⟨q, n⟩ hp hq hne
  have hmpos : 0 < m.toInt := hpos _ hp
  have hnpos : 0 < n.toInt := hpos _ hq
  have hm := toNat_le_of_pos hmpos
  have hn := toNat_le_of_pos hnpos
  obtain ⟨b, hb, hbaddr, hblarge⟩ := hL.block_of_live hp
  obtain ⟨c, hc, hcaddr, hclarge⟩ := hL.block_of_live hq
  have hbc : b ≠ c := by
    rintro rfl
    exact hne (hbaddr.symm.trans hcaddr)
  have hbstop : b.stop = b.addr + b.size := rfl
  have hcstop : c.stop = c.addr + c.size := rfl
  change p + m.toNat - 1 < q ∨ q + n.toNat - 1 < p
  have htiles := hL.represents.wellFormed.tiles
  rcases htiles.eq_or_disjoint Block.addr_lt_stop (WellFormed.mem_all_of_mem hb.1)
    (WellFormed.mem_all_of_mem hc.1) with heq | hapart | hapart
  · exact absurd heq hbc
  · left
    omega
  · right
    omega

theorem mm_contract : Contract mmPackage MmInv where
  init s := by
    obtain ⟨h', hrun, hI⟩ := restart_run s
    obtain ⟨⟨⟩, h₁, hreset, hinit⟩ := run_bind_eq_ok hrun
    exact ⟨h₁, 0, h', hreset, hinit, fun _ => ⟨⟨_, hI⟩, by simp⟩⟩
  call s live c hI hlegal hc := by
    obtain ⟨⟨L, hL⟩, hpos⟩ := hI
    obtain ⟨h', hrun, hL'⟩ := exec_run hL hlegal (serves_of_int (intSized_of_nonNegative hc))
    have hnull : AsksNothing c → (execLayout L c).2 = null :=
      fun hzero => null_of_asksNothing hzero hrun
    refine ⟨_, h', ?_, ⟨⟨_, hL'⟩, liveAfter_pos hpos hc hnull⟩, hnull⟩
    rw [exec_mmPackage]
    exact hrun
  placed _ _ := mm_placed
  disjoint _ _ := mm_disjoint
  memset s live hI e he c := by
    obtain ⟨⟨L, hL⟩, hpos⟩ := hI
    obtain ⟨hrun, hL'⟩ := memset_invariant hL he (toNat_le_of_pos (hpos e he)).le c
    exact ⟨_, hrun, ⟨L, hL'⟩, hpos⟩
  readByte s live hI e he k hk := by
    obtain ⟨⟨L, hL⟩, hpos⟩ := hI
    obtain ⟨⟨hlo, hhi⟩, -⟩ := payload_inHeap hL he (toNat_le_of_pos (hpos e he)).le
    exact ⟨_, readByte_of_inHeap ⟨by omega, by omega⟩⟩

end Mm

end MallocLab.AllocatorContract
