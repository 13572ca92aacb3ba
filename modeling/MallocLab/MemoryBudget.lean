import Mathlib.Algebra.Order.BigOperators.Group.List
import Mathlib.Algebra.Order.Ring.Nat
import MallocLab.Failure
import MallocLab.HeapExtents

/-!
How far the heap grows.  For a client of `mm_malloc` and `mm_free` no block is much larger
than its request, free blocks are never neighbours, and the heap grows only when all of them
are too small: so a client that keeps to a budget keeps the heap within a bound, and
`mm_malloc` never fails it.
-/

namespace MallocLab.MemoryBudget

open MallocLab.Machine
open MallocLab.Mm
open MallocLab.Tiling
open MallocLab.AbstractLayout
open MallocLab.AbstractLayout.Layout
open MallocLab.Representation
open MallocLab.HeapGrowth
open MallocLab.Traversal
open MallocLab.Runs
open MallocLab.HeapExtents
open MallocLab.Failure

section Slack

variable {L : Layout} {b u x : Block} {live : Live} {n : Need} {size : Word} {A : Set Block}

/-- Every allocated block belongs to a live pointer, and has at most 24 bytes more than the
request needs. -/
def Snug (A : Set Block) (live : Live) : Prop :=
  ∀ b ∈ A, ∃ size, (b.addr + 8, size) ∈ live ∧
    (need size).bytes ≤ b.size ∧ b.size ≤ (need size).bytes + 24

/-- What is left of a free block that is not split is too small for a block. -/
theorem exists_placed (hL : L.WellFormed) (hx : x ∈ L.blocks) :
    ∃ u ∈ (L.place x n).blocks, u.addr = x.addr ∧ u.size ≤ n.bytes + 24 := by
  obtain ⟨pre, post, hpre, hpost, hall⟩ := WellFormed.exists_around hx
  have hmem : ∀ {new : List Block} {c : Block}, c ∈ new → c ∈ L.replace x new := fun hc =>
    (hL.mem_replace_iff _ hall hpre hpost (by simp) ⟨rfl, rfl⟩).mpr (.inl hc)
  have hx8 := x.aligned
  have hn8 := n.aligned
  by_cases hsplit : 32 ≤ x.size - n.bytes
  · rw [Layout.place, dif_pos hsplit]
    exact ⟨_, hmem List.mem_cons_self, rfl, Nat.le_add_right _ _⟩
  · rw [Layout.place, dif_neg hsplit]
    refine ⟨{ x with alloc := true }, hmem List.mem_cons_self, rfl, ?_⟩
    change x.size ≤ n.bytes + 24
    omega

/-- The block that `mm_malloc` hands out. -/
theorem malloc_snug (hL : L.WellFormed) (hne : (L.malloc size).2 ≠ null) :
    ∃ u, u.addr + 8 = (L.malloc size).2 ∧ (L.malloc size).1.allocated = insert u L.allocated ∧
      (need size).bytes ≤ u.size ∧ u.size ≤ (need size).bytes + 24 := by
  obtain ⟨u, haddr, hL', hu⟩ := hL.malloc_granted hne
  have hmem : u ∈ (L.malloc size).1.allocated := hu.allocated ▸ Set.mem_insert u _
  refine ⟨u, haddr, hu.allocated, hu.large, ?_⟩
  have hsize : size ≠ 0 := fun hzero => hne (WellFormed.malloc_eq_null_iff.mpr (.inl hzero))
  rw [Layout.malloc, if_neg hsize] at haddr hL' hmem hne
  rcases hfit : L.firstFit (need size) with _ | x
  · simp only [hfit] at haddr hL' hmem hne
    split at hne
    · rename_i hroom
      simp only [if_pos hroom] at haddr hL' hmem
      have hnew : ⟨L.top, (need size).bytes, true, (need size).aligned, (need size).sixteen_le⟩ ∈
          (L.extend (need size)).blocks := by simp [Layout.extend]
      have heq := hL'.eq_of_addr_eq (WellFormed.mem_all_of_mem hmem.1)
        (WellFormed.mem_all_of_mem hnew) (Nat.add_right_cancel haddr)
      rw [heq]
      exact Nat.le_add_right _ _
    · exact absurd rfl hne
  · simp only [hfit] at haddr hL' hmem
    obtain ⟨hx, hfree, hle⟩ := hL.firstFit_some hfit
    obtain ⟨v, hv, hvaddr, hvsize⟩ := exists_placed hL hx
    have heq := hL'.eq_of_addr_eq (WellFormed.mem_all_of_mem hmem.1)
      (WellFormed.mem_all_of_mem hv) ((Nat.add_right_cancel haddr).trans hvaddr.symm)
    rw [heq]
    exact hvsize

theorem Snug.insert (hS : Snug A live) (hlarge : (need size).bytes ≤ u.size)
    (hsmall : u.size ≤ (need size).bytes + 24) :
    Snug (insert u A) ((u.addr + 8, size) :: live) := by
  rintro b (rfl | hb)
  · exact ⟨size, List.mem_cons_self, hlarge, hsmall⟩
  · obtain ⟨m, hmem, hm⟩ := hS b hb
    exact ⟨m, List.mem_cons_of_mem _ hmem, hm⟩

theorem snug_malloc (hL : L.WellFormed) (hS : Snug L.allocated live) :
    Snug (L.malloc size).1.allocated (liveAfter live (.malloc size) (L.malloc size).2) := by
  rcases Decidable.em ((L.malloc size).2 = null) with hnull | hne
  · rw [liveAfter, if_pos hnull, hL.malloc_of_null hnull]
    exact hS
  · obtain ⟨u, haddr, halloc, hlarge, hsmall⟩ := malloc_snug hL hne
    rw [liveAfter, if_neg hne, halloc, ← haddr]
    exact hS.insert hlarge hsmall

theorem snug_release (hL : L.WellFormed) (hb : b ∈ L.allocated) (hS : Snug L.allocated live) :
    Snug (L.release b).allocated (live.filter fun e => e.1 ≠ b.addr + 8) := by
  rw [hL.allocated_release hb.1]
  rintro c ⟨hc, hne⟩
  obtain ⟨m, hmem, hm⟩ := hS c hc
  refine ⟨m, List.mem_filter.mpr ⟨hmem, decide_eq_true fun haddr => hne ?_⟩, hm⟩
  exact hL.eq_of_addr_eq (WellFormed.mem_all_of_mem hc.1) (WellFormed.mem_all_of_mem hb.1)
    (Nat.add_right_cancel haddr)

/-- `NULL` is nobody's pointer. -/
theorem snug_null (hS : Snug A live) : Snug A (live.filter fun e => e.1 ≠ null) := by
  intro b hb
  obtain ⟨m, hmem, hm⟩ := hS b hb
  exact ⟨m, List.mem_filter.mpr ⟨hmem, decide_eq_true (Nat.succ_ne_zero _)⟩, hm⟩

end Slack

section Space

variable {L : Layout} {live : Live} {n : Need}

/-- The bytes that the live pointers need, tags and rounding included. -/
def demand (live : Live) : Nat := (live.map fun e => (need e.2).bytes).sum

theorem demand_cons (e : Nat × Word) (live : Live) :
    demand (e :: live) = (need e.2).bytes + demand live := rfl

theorem demand_filter_le (q : Nat × Word → Bool) (live : Live) :
    demand (live.filter q) ≤ demand live :=
  (List.filter_sublist.map _).sum_le_sum fun _ _ => Nat.zero_le _

/-- The allocated blocks are no more than the live pointers, and not much larger than they
need. -/
theorem allocated_le (hL : L.WellFormed) (hS : Snug L.allocated live) :
    (L.blocks.filter fun b => b.alloc).length ≤ live.length ∧
      ((L.blocks.filter fun b => b.alloc).map Block.size).sum ≤ demand live + 24 * live.length := by
  have howner : ∀ b : Block, ∃ e : Nat × Word, b ∈ L.allocated →
      e ∈ live ∧ e.1 = b.addr + 8 ∧ b.size ≤ (need e.2).bytes + 24 := by
    intro b
    by_cases hb : b ∈ L.allocated
    · obtain ⟨size, hmem, -, hsmall⟩ := hS b hb
      exact ⟨(b.addr + 8, size), fun _ => ⟨hmem, rfl, hsmall⟩⟩
    · exact ⟨(0, 0), fun hmem => absurd hmem hb⟩
  choose owner howner using howner
  have hmem : ∀ b ∈ L.blocks.filter fun b => b.alloc, b ∈ L.allocated := fun b hb =>
    List.mem_filter.mp hb
  have hnodup : ((L.blocks.filter fun b => b.alloc).map owner).Nodup := by
    have hblocks : L.blocks.Nodup := (List.nodup_append.mp (List.nodup_cons.mp hL.nodup_all).2).1
    refine List.Nodup.map_on ?_ (hblocks.filter _)
    intro b hb c hc heq
    refine hL.eq_of_addr_eq (WellFormed.mem_all_of_mem (hmem b hb).1)
      (WellFormed.mem_all_of_mem (hmem c hc).1) (Nat.add_right_cancel (m := 8) ?_)
    rw [← (howner b (hmem b hb)).2.1, heq, (howner c (hmem c hc)).2.1]
  have hsub : ((L.blocks.filter fun b => b.alloc).map owner).Subperm live := by
    refine List.subperm_of_subset hnodup fun e he => ?_
    obtain ⟨b, hb, rfl⟩ := List.mem_map.mp he
    exact (howner b (hmem b hb)).1
  obtain ⟨owners, hperm, hsublist⟩ := hsub
  have hlen : (L.blocks.filter fun b => b.alloc).length ≤ live.length := by
    have hle := hsublist.length_le
    rwa [hperm.length_eq, List.length_map] at hle
  refine ⟨hlen, ?_⟩
  have hsum : ((L.blocks.filter fun b => b.alloc).map Block.size).sum ≤
      (((L.blocks.filter fun b => b.alloc).map owner).map fun e => (need e.2).bytes + 24).sum := by
    rw [List.map_map]
    exact List.sum_le_sum fun b hb => (howner b (hmem b hb)).2.2
  have hlive : (live.map fun e => (need e.2).bytes + 24).sum = demand live + 24 * live.length := by
    rw [demand, List.sum_map_add, List.map_const', List.sum_replicate_nat,
      Nat.mul_comm]
  rw [← hlive]
  refine hsum.trans ?_
  rw [← (hperm.map _).sum_eq]
  exact (hsublist.map _).sum_le_sum fun _ _ => Nat.zero_le _

/-- A heap without a free block of the size needed: every free block is smaller, and there
is at most one more of them than allocated blocks. -/
theorem top_le_of_noFit (hL : L.WellFormed) (hS : Snug L.allocated live)
    (hnone : L.firstFit n = none) :
    L.top ≤ L.start + 16 + demand live + 24 * live.length + (live.length + 1) * (n.bytes - 8) := by
  obtain ⟨hlen, hsum⟩ := allocated_le hL hS
  have hchain : L.blocks.IsChain Apart := hL.coalesced.tail.left_of_append
  have htiles : Tiles Block.addr Block.stop (L.start + 16) L.blocks L.top := by
    obtain ⟨m, hmid, hlast⟩ := tiles_append.mp hL.tiles.2
    obtain rfl : L.top = m := hlast.1
    exact hmid
  have hstretch := htiles.sum_length Block.addr_lt_stop
  have hsizes : (L.blocks.map fun b => b.stop - b.addr) = L.blocks.map Block.size :=
    List.map_congr_left fun b _ => Nat.add_sub_cancel_left _ _
  have hshort : ∀ b ∈ L.blocks, ¬ b.alloc = true → b.size ≤ n.bytes - 8 := by
    intro b hb hfree
    have hlt := hL.firstFit_none_iff.mp hnone b hb (Bool.not_eq_true _ ▸ hfree)
    have hb8 := b.aligned
    have hn8 := n.aligned
    omega
  have hbound := sum_le_of_isChain hchain hshort
  have hmul : ((L.blocks.filter fun b => b.alloc).length + 1) * (n.bytes - 8) ≤
      (live.length + 1) * (n.bytes - 8) := Nat.mul_le_mul_right _ (Nat.succ_le_succ hlen)
  simp only [Bool.decide_eq_true] at hbound
  rw [hsizes] at hstretch
  omega

end Space

/-- What a client may have at a time: so many live pointers, so many bytes needed for one of
them, and so many for all. -/
structure Budget where
  count : Nat
  each : Nat
  total : Nat

/-- The heap that a client within the budget can fill. -/
def Budget.room (B : Budget) : Nat := 32 + B.total + B.count * (B.each + 16)

/-- Calls of `mm_malloc` and `mm_free` with sizes of type `int`. -/
def PlainCalls (_ : Config) : Call → Prop
  | .malloc size => IsInt size
  | .free _ => True
  | .realloc _ _ => False

/-- Such calls that keep the client within its budget. -/
def Fits (B : Budget) (live : Live) : Call → Prop
  | .malloc size => IsInt size ∧ (size ≠ 0 → live.length + 1 ≤ B.count ∧
      (need size).bytes ≤ B.each ∧ demand live + (need size).bytes ≤ B.total)
  | .free _ => True
  | .realloc _ _ => False

def Within (B : Budget) (cfg : Config) (c : Call) : Prop := Fits B cfg.live c

section Layouts

variable {B : Budget} {L : Layout} {live : Live} {c : Call} {size : Word}

/-- Plain calls leave no block that is much larger than its request. -/
theorem snug_exec (hL : L.WellFormed) (hO : Owned L.allocated live) (hlegal : c.Legal live)
    (hplain : ∀ ptr size, c ≠ .realloc ptr size) (hS : Snug L.allocated live) :
    Snug (execLayout L c).1.allocated (liveAfter live c (execLayout L c).2) := by
  cases c with
  | malloc size => exact snug_malloc hL hS
  | free ptr =>
      rcases hlegal with rfl | ⟨size, hlive⟩
      · exact snug_null hS
      · obtain ⟨b, hb, rfl, -⟩ := hO.block _ hlive
        have hptr : b.addr + 8 ≠ null := Nat.succ_ne_zero _
        simp only [execLayout, if_neg hptr, hL.free_addr hb]
        exact snug_release hL hb hS
  | realloc ptr size => exact absurd rfl (hplain ptr size)

/-- What a client within its budget has used of it. -/
structure Spent (B : Budget) (L : Layout) (live : Live) : Prop where
  wellFormed : L.WellFormed
  owned : Owned L.allocated live
  snug : Snug L.allocated live
  count : live.length ≤ B.count
  total : demand live ≤ B.total
  room : L.top + 16 ≤ L.start + B.room

theorem spent_empty (B : Budget) (start : Nat) : Spent B (emptyLayout start) [] where
  wellFormed := emptyLayout_wellFormed start
  owned := ⟨List.nodup_nil, fun e he => absurd he List.not_mem_nil⟩
  snug b hb := absurd hb.1 List.not_mem_nil
  count := Nat.zero_le _
  total := Nat.zero_le _
  room := by
    change start + 16 + 16 ≤ start + B.room
    unfold Budget.room
    omega

/-- There is room for a block that the free list does not have. -/
theorem Spent.extend_le (hS : Spent B L live) (hfits : Fits B live (.malloc size))
    (hsize : size ≠ 0) (hnone : L.firstFit (need size) = none) :
    L.top + (need size).bytes + 16 ≤ L.start + B.room := by
  obtain ⟨hcount, heach, htotal⟩ := hfits.2 hsize
  have htop := top_le_of_noFit hS.wellFormed hS.snug hnone
  have hlarge := (need size).large
  have hfree : (live.length + 1) * ((need size).bytes - 8) ≤ B.count * (B.each - 8) :=
    Nat.mul_le_mul hcount (by omega)
  have hsplit : B.count * (B.each + 16) = B.count * (B.each - 8) + B.count * 24 := by
    rw [← Nat.mul_add]
    congr 1
    omega
  unfold Budget.room
  omega

theorem Spent.malloc_ne_null (hS : Spent B L live) (hroom : B.room ≤ maxHeap)
    (hfits : Fits B live (.malloc size)) (hsize : size ≠ 0) : (L.malloc size).2 ≠ null := by
  intro hnull
  obtain ⟨hnone, hfull⟩ := (WellFormed.malloc_eq_null_iff.mp hnull).resolve_left hsize
  have hext := hS.extend_le hfits hsize hnone
  unfold Layout.maxAddr Layout.brk at hfull
  omega

theorem Spent.malloc_room (hS : Spent B L live) (hfits : Fits B live (.malloc size)) :
    (L.malloc size).1.top + 16 ≤ (L.malloc size).1.start + B.room := by
  rw [Layout.malloc]
  split
  · exact hS.room
  · rename_i hsize
    rcases hfit : L.firstFit (need size) with _ | x
    · dsimp only
      split
      · exact hS.extend_le hfits hsize hfit
      · exact hS.room
    · dsimp only
      rw [Layout.place_top, Layout.place_start]
      exact hS.room

theorem Spent.malloc (hS : Spent B L live) (hfits : Fits B live (.malloc size)) :
    Spent B (L.malloc size).1 (liveAfter live (.malloc size) (L.malloc size).2) := by
  have hL := hS.wellFormed
  have hint : size.toInt < 2 ^ 31 := hfits.1.2
  have howned := owned_malloc hL hS.owned (mallocServes_of_lt hint).2
  have hsnug : Snug (L.malloc size).1.allocated _ := snug_malloc hL hS.snug
  have hroom := hS.malloc_room hfits
  rcases Decidable.em ((L.malloc size).2 = null) with hnull | hne
  · rw [liveAfter, if_pos hnull] at howned hsnug ⊢
    have hsame := hL.malloc_of_null hnull
    exact ⟨hsame.symm ▸ hL, howned, hsnug, hS.count, hS.total, hroom⟩
  · have hsize : size ≠ 0 := fun hzero => hne (WellFormed.malloc_eq_null_iff.mpr (.inl hzero))
    obtain ⟨hcount, -, htotal⟩ := hfits.2 hsize
    obtain ⟨-, -, hL', -⟩ := hL.malloc_granted hne
    rw [liveAfter, if_neg hne] at howned hsnug ⊢
    refine ⟨hL', howned, hsnug, hcount, ?_, hroom⟩
    rw [demand_cons, Nat.add_comm]
    exact htotal

theorem Spent.free (hS : Spent B L live) {ptr : Nat} (hlegal : (Call.free ptr).Legal live) :
    Spent B (execLayout L (.free ptr)).1 (live.filter fun e => e.1 ≠ ptr) := by
  have hsnug := snug_exec hS.wellFormed hS.owned hlegal (by simp) hS.snug
  have hcount := (List.length_filter_le (fun e => e.1 ≠ ptr) _).trans hS.count
  have htotal := (demand_filter_le (fun e => e.1 ≠ ptr) _).trans hS.total
  rcases hlegal with rfl | ⟨size, hlive⟩
  · exact ⟨hS.wellFormed, hS.owned.filter _, hsnug, hcount, htotal, hS.room⟩
  · obtain ⟨b, hb, rfl, -⟩ := hS.owned.block _ hlive
    have hptr : b.addr + 8 ≠ null := Nat.succ_ne_zero _
    simp only [execLayout, if_neg hptr, hS.wellFormed.free_addr hb] at hsnug ⊢
    exact ⟨hS.wellFormed.release hb.1 hb.2, owned_release hS.wellFormed hb hS.owned, hsnug, hcount,
      htotal, hS.room⟩

theorem Spent.exec (hS : Spent B L live) (hlegal : c.Legal live) (hfits : Fits B live c) :
    Spent B (execLayout L c).1 (liveAfter live c (execLayout L c).2) := by
  cases c with
  | malloc size => exact hS.malloc hfits
  | free ptr => exact hS.free hlegal
  | realloc ptr size => exact hfits.elim

end Layouts

section Runs

variable {B : Budget} {cfg cfg' : Config} {L : Layout} {c : Call} {q : Nat} {h' : Heap}
  {size : Word}

theorem plainCalls_of_within (hwithin : Within B cfg c) : PlainCalls cfg c := by
  cases c with
  | malloc size => exact hwithin.1
  | free ptr => trivial
  | realloc ptr size => exact hwithin

theorem intSized_of_plain (hplain : PlainCalls cfg c) : c.IntSized := by
  cases c with
  | malloc size => exact hplain
  | free ptr => trivial
  | realloc ptr size => exact hplain.elim

/-- A plain call does to the layout what it does to the heap. -/
theorem exec_plain (hI : Invariant cfg L) (hlegal : c.Legal cfg.live) (hplain : PlainCalls cfg c)
    (hrun : c.exec.run cfg.heap = .ok (q, h')) :
    q = (execLayout L c).2 ∧ Invariant ⟨h', liveAfter cfg.live c q⟩ (execLayout L c).1 := by
  obtain ⟨h'', hrun', hI'⟩ := exec_run hI hlegal (serves_of_int (intSized_of_plain hplain))
  rw [hrun] at hrun'
  obtain ⟨rfl, rfl⟩ := Prod.mk.inj (Except.ok.inj hrun')
  exact ⟨rfl, hI'⟩

theorem spent_of_reachable (hreach : Reachable (Within B) cfg) :
    ∃ L, Invariant cfg L ∧ Spent B L cfg.live := by
  induction hreach with
  | init hfresh hrun => exact ⟨_, init_invariant hfresh hrun, spent_empty B _⟩
  | step hreach hstep ih =>
      obtain ⟨L, hI, hS⟩ := ih
      cases hstep with
      | call hlegal hwithin hrun =>
          obtain ⟨rfl, hI'⟩ := exec_plain hI hlegal (plainCalls_of_within hwithin) hrun
          exact ⟨_, hI', hS.exec hlegal hwithin⟩
      | write v hx => exact ⟨L, write_invariant hI hx v, hS⟩

theorem snug_of_reachable (hreach : Reachable PlainCalls cfg) :
    ∃ L, Invariant cfg L ∧ Snug L.allocated cfg.live := by
  induction hreach with
  | init hfresh hrun =>
      exact ⟨_, init_invariant hfresh hrun, fun b hb => absurd hb.1 List.not_mem_nil⟩
  | step hreach hstep ih =>
      obtain ⟨L, hI, hS⟩ := ih
      cases hstep with
      | call hlegal hplain hrun =>
          obtain ⟨rfl, hI'⟩ := exec_plain hI hlegal hplain hrun
          refine ⟨_, hI', snug_exec hI.represents.wellFormed hI.owned hlegal ?_ hS⟩
          rintro ptr size rfl
          exact hplain
      | write v hx => exact ⟨L, write_invariant hI hx v, hS⟩

end Runs

section Sample

/-- A second payload of 24 bytes is within the budget. -/
theorem sample_fits {live : Live} (hlive : live = [] ∨ live = [(4120, 24)]) :
    Fits ⟨2, 40, 80⟩ live (.malloc 24) := by
  refine ⟨⟨by decide, by decide⟩, fun _ => ?_⟩
  rcases hlive with rfl | rfl
  · decide
  · decide

/-- One live pointer of the two that the budget allows. -/
theorem sample_within : ∃ h, Reachable (Within ⟨2, 40, 80⟩) ⟨h, [(4120, 24)]⟩ := by
  obtain ⟨h₁, hinit, -⟩ := mmInit_run (h := memInit sampleArena fun _ => 255) rfl
  have hI₁ := init_invariant (.memInit _ _) hinit
  have hint : (Call.malloc 24).IntSized := ⟨by decide, by decide⟩
  obtain ⟨h₂, hrun₂, -⟩ := exec_run hI₁ (c := .malloc 24) trivial (serves_of_int hint)
  have hreach₁ : Reachable (Within ⟨2, 40, 80⟩) ⟨h₁, []⟩ := .init (.memInit _ _) hinit
  exact ⟨h₂, hreach₁.step (.call (c := .malloc 24) trivial (sample_fits (.inl rfl)) hrun₂)⟩

end Sample

/-- In a run of `mm_malloc` and `mm_free` every allocated block is the one of a live pointer,
and exceeds `max(MINBLOCKSIZE, align(size) + TAGS_SIZE)` by at most 24 bytes. -/
theorem slack_bounded {cfg : Config} (hreach : Reachable PlainCalls cfg) {e : Entry}
    (halloc : IsAllocated cfg.heap e) :
    ∃ size, (e.addr + 8, size) ∈ cfg.live ∧
      neededBytes size ≤ e.size.toNat ∧ e.size.toNat ≤ neededBytes size + 24 := by
  obtain ⟨L, hI, hS⟩ := snug_of_reachable hreach
  obtain ⟨b, hb, rfl⟩ := (isAllocated_iff hI.represents).mp halloc
  obtain ⟨size, hlive, hlarge, hsmall⟩ := hS b hb
  have hsize : (entry b).size.toNat = b.size :=
    toNat_size hI.represents (WellFormed.mem_all_of_mem hb.1)
  refine ⟨size, hlive, ?_⟩
  rw [hsize, neededBytes_eq]
  omega

theorem slack_bounded_sample : ∃ h, ∀ e, IsAllocated h e →
    ∃ size, (e.addr + 8, size) ∈ [(4120, (24 : Word))] ∧
      neededBytes size ≤ e.size.toNat ∧ e.size.toNat ≤ neededBytes size + 24 := by
  obtain ⟨h, hreach⟩ := sample_within
  exact ⟨h, fun e he => slack_bounded (hreach.mono fun _ _ => plainCalls_of_within) he⟩

/-- A client that never has more than `count` live pointers, never asks for more than `each`
bytes and never needs more than `total` bytes at a time keeps the heap within
`32 + total + count * (each + 16)` bytes, however long it runs. -/
theorem heap_bounded {B : Budget} {cfg : Config} (hreach : Reachable (Within B) cfg) :
    cfg.heap.memHeapsize ≤ B.room := by
  obtain ⟨L, hI, hS⟩ := spent_of_reachable hreach
  have hR := hI.represents
  have hroom := hS.room
  rw [Heap.memHeapsize, hR.base, hR.memBrk_eq_top]
  omega

theorem heap_bounded_sample :
    ∃ h, Reachable (Within ⟨2, 40, 80⟩) ⟨h, [(4120, 24)]⟩ ∧ h.memHeapsize ≤ 224 := by
  obtain ⟨h, hreach⟩ := sample_within
  exact ⟨h, hreach, heap_bounded hreach⟩

/-- If the arena has that many bytes, `mm_malloc` serves every request within the budget. -/
theorem malloc_succeeds {B : Budget} {cfg : Config} (hreach : Reachable (Within B) cfg)
    (hroom : B.room ≤ maxHeap) {size : Word} (hsize : size ≠ 0)
    (hwithin : Within B cfg (.malloc size)) :
    ∃ p h', (mmMalloc size).run cfg.heap = .ok (p, h') ∧ p ≠ null := by
  obtain ⟨L, hI, hS⟩ := spent_of_reachable hreach
  have hint : (Call.malloc size).IntSized := hwithin.1
  obtain ⟨h', hrun, -⟩ := exec_run hI (c := .malloc size) trivial (serves_of_int hint)
  exact ⟨_, h', hrun, hS.malloc_ne_null hroom hwithin hsize⟩

theorem malloc_succeeds_sample : ∃ h p h', (mmMalloc 24).run h = .ok (p, h') ∧ p ≠ null := by
  obtain ⟨h, hreach⟩ := sample_within
  exact ⟨h, malloc_succeeds hreach (by decide) (by decide) (sample_fits (.inr rfl))⟩

end MallocLab.MemoryBudget
