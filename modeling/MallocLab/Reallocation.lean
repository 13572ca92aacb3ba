import MallocLab.Allocation

/-!
`mm_realloc` on an allocated block: it stays, grows into free neighbours, or
moves to a block that `mm_malloc` found.
-/

namespace MallocLab.Reallocation

open MallocLab.ByteMemory
open MallocLab.Machine
open MallocLab.Mminline
open MallocLab.Mm
open MallocLab.Tiling
open MallocLab.WordBits
open MallocLab.HeapPrograms
open MallocLab.BoundaryTags
open MallocLab.FreeLists
open MallocLab.AbstractLayout
open MallocLab.AbstractLayout.Layout
open MallocLab.HeapInvariant
open MallocLab.Coalescing
open MallocLab.Representation
open MallocLab.HeapGrowth
open MallocLab.Allocation

/-- The data of `b` is now in `u`, no other allocated block has changed, and
`memmove` wrote between the tags of `u` only. -/
structure Carried (h h' : Heap) (L : Layout) (b u : Block) : Prop where
  arena : h'.arena = h.arena
  kept : ∀ i < b.size - 16, h'.memory (u.addr + 8 + i) = h.memory (b.addr + 8 + i)
  others : ∀ c ∈ L.allocated, c ≠ b → ∀ x ∈ bytes c, h'.memory x = h.memory x
  moves : ∃ ms, h'.moves = h.moves ++ ms ∧ ∀ mv ∈ ms,
    u.addr + 8 ≤ mv.dst ∧ mv.dst + mv.count + 8 ≤ u.stop ∧ mv.count = b.size

theorem Carried.refl (h : Heap) (L : Layout) (b : Block) : Carried h h L b b :=
  ⟨rfl, fun _ _ => rfl, fun _ _ _ _ _ => rfl, [], by simp, by simp⟩

section Grow

variable {h h' : Heap} {L : Layout} {S : Set Block} {fl : List Nat} {b m : Block}
  {before after : Option Block}

/-- Tags of the joined block `m` written, and the old block moved to its front. -/
def moveBack (h : Heap) (m b : Block) : Heap :=
  (setTags h m.addr m.size m.alloc).move (payload m.addr) (payload b.addr) b.size

theorem moveBack_run (hS : Holds h S fl) (halloc : m.alloc = true)
    (hin : h.InHeap m.addr m.size) (hlo : m.addr ≤ b.addr)
    (hroom : m.addr + 16 + b.size ≤ m.stop) (hsrc : b.stop + 8 ≤ h.memBrk) :
    (do
        blockSetSizeAndAllocated m.addr (BitVec.ofNat 64 m.size) 1
        memmove (payload m.addr) (payload b.addr) (BitVec.ofNat 64 b.size) : HeapM Unit).run h =
      .ok ((), moveBack h m b) := by
  have hfits := hS.fits
  obtain ⟨hstart, hend⟩ := hin
  have hsmall : m.size < 2 ^ 63 := by
    unfold Heap.memStartBrk at hstart
    unfold Heap.memMaxAddr maxHeap at hfits
    omega
  have hset : (blockSetSizeAndAllocated m.addr (BitVec.ofNat 64 m.size) 1).run h =
      .ok ((), setTags h m.addr m.size m.alloc) := by
    rw [halloc]
    exact blockSetSizeAndAllocated_run m.aligned m.large hsmall ⟨hstart, hend⟩ true
  have hsize : (BitVec.ofNat 64 b.size).toNat = b.size := by
    unfold Block.stop at hroom
    exact toNat_ofNat_of_lt (by omega)
  have hmove := memmove_run (h := setTags h m.addr m.size m.alloc) (payload m.addr)
    (payload b.addr) (BitVec.ofNat 64 b.size)
    (by
      rw [hsize]
      constructor
      · exact hstart.trans (hlo.trans (Nat.le_add_right _ _))
      · change b.addr + 8 + b.size ≤ h.memBrk
        unfold Block.stop at hsrc
        omega)
    (by
      rw [hsize]
      constructor
      · exact hstart.trans (Nat.le_add_right _ _)
      · change m.addr + 8 + b.size ≤ h.memBrk
        unfold Block.stop at hroom
        omega)
  rw [run_bind_of_ok hset, hmove, hsize]
  rfl

theorem moveBack_holds (hS : Holds h S fl) (halloc : m.alloc = true)
    (hin : h.InHeap m.addr m.size) (hroom : m.addr + 16 + b.size ≤ m.stop)
    (hout : ∀ c ∈ S, c.addr ∈ fl → Separate c m) :
    Holds (moveBack h m b) (overwrite S m) fl := by
  have hS' := hS.retag m hin hout
  refine hS'.write mem_overwrite_self halloc rfl rfl rfl fun x hx => ?_
  apply copy_apply_of_not_mem
  rw [Set.mem_Ico] at hx
  unfold payload
  omega

theorem moveBack_kept (hbm : m.addr + 16 ≤ b.addr) (hstop : b.stop ≤ m.stop) {i : Nat}
    (hi : i < b.size - 16) :
    (moveBack h m b).memory (m.addr + 8 + i) = h.memory (b.addr + 8 + i) := by
  have hcopy : (moveBack h m b).memory (m.addr + 8 + i) =
      (setTags h m.addr m.size m.alloc).memory (b.addr + 8 + i) := by
    refine (copy_apply_of_mem _ ?_).trans ?_
    · unfold payload
      omega
    · congr 1
      unfold payload
      omega
  refine hcopy.trans ((sameExcept_setTags m.large m.alloc).memory _ ?_)
  unfold Block.stop at hstop
  rintro (⟨hlo, hhi⟩ | ⟨hlo, hhi⟩) <;> omega

theorem moveBack_others (hroom : m.addr + 16 + b.size ≤ m.stop) {x : Nat} (hx : x ∉ bytes m) :
    (moveBack h m b).memory x = h.memory x := by
  unfold bytes at hx
  rw [Set.mem_Ico] at hx
  have hcopy : (moveBack h m b).memory x = (setTags h m.addr m.size m.alloc).memory x := by
    apply copy_apply_of_not_mem
    unfold payload
    omega
  refine hcopy.trans ((sameExcept_setTags m.large m.alloc).memory _ ?_)
  have hlarge := m.large
  unfold Block.stop at hx
  rintro (⟨hlo, hhi⟩ | ⟨hlo, hhi⟩) <;> omega

theorem represents_grow (hR : Represents h L) (hb : b ∈ L.allocated)
    (hbefore : before = none ∨ before = L.freeBefore b)
    (hafter : after = none ∨ after = L.freeAfter b)
    (hS : Holds h' (overwrite (blockSet L) (b.absorb before after true))
      (unlist (unlist L.freeList after) before))
    (hbounds : SameBounds h h') : Represents h' (L.grow before b after) := by
  have hL := hR.wellFormed
  obtain ⟨pre, post, hpre, hpost, hall, -, -⟩ :=
    hL.neighbourhood hb.1 before after hbefore hafter
  obtain ⟨s, e, hmid⟩ := hL.tiles_middle hall
  have hjoined := WellFormed.tiles_absorb true hmid
  rw [overwrite_blockSet hL hall (by simp) hjoined] at hS
  exact hR.replace hall hpre hpost (by simp) hjoined hS hbounds
    (hL.grow hb.1 hb.2 hbefore hafter)

/-- What is still listed once the neighbours are pulled is clear of the joined block. -/
theorem separate_joined {c : Block} (hL : L.WellFormed) (hb : b ∈ L.allocated)
    (hbefore : before = none ∨ before = L.freeBefore b)
    (hafter : after = none ∨ after = L.freeAfter b) (hc : c ∈ blockSet L)
    (hlisted : c.addr ∈ unlist (unlist L.freeList after) before) :
    Separate c (b.absorb before after true) := by
  obtain ⟨pre, post, -, -, hall, -, -⟩ := hL.neighbourhood hb.1 before after hbefore hafter
  obtain ⟨s, e, hmid⟩ := hL.tiles_middle hall
  have hiff := separate_iff (c := c) hL hall (by simp)
    (WellFormed.tiles_absorb true hmid)
  rw [WellFormed.mem_unlist (WellFormed.nodup_unlist after hL.nodup),
    WellFormed.mem_unlist hL.nodup] at hlisted
  obtain ⟨⟨hfree, hnafter⟩, hnbefore⟩ := hlisted
  have hmem : c ∈ pre ++ (before.toList ++ b :: after.toList) ++ post := hall ▸ hc
  simp only [List.mem_append, List.mem_cons, Option.mem_toList] at hmem
  rcases hmem with (hc | hc | rfl | hc) | hc
  · exact (hiff.mpr (.inl hc)).2
  · exact absurd rfl (hnbefore c hc)
  · exact absurd hfree (hL.not_mem_freeList hb.1 hb.2)
  · exact absurd rfl (hnafter c hc)
  · exact (hiff.mpr (.inr hc)).2

theorem inHeap_joined (hR : Represents h L) (hb : b ∈ L.allocated)
    (hbefore : before = none ∨ before = L.freeBefore b)
    (hafter : after = none ∨ after = L.freeAfter b) :
    h.InHeap (b.absorb before after true).addr (b.absorb before after true).size := by
  have hL := hR.wellFormed
  have hgrown := hL.grow hb.1 hb.2 hbefore hafter
  have hmem : b.absorb before after true ∈ (L.grow before b after).allocated :=
    hL.allocated_grow hb.1 hbefore hafter ▸ Set.mem_insert _ _
  have hbounds := hgrown.tiles.bounds Block.addr_lt_stop (WellFormed.mem_all_of_mem hmem.1)
  unfold Heap.InHeap
  rw [hR.base, hR.memBrk]
  exact hbounds

/-- The end of both branches of `mm_realloc` that grow into the previous block. -/
theorem moveBack_carried {h₁ : Heap} {p : Block} (hR : Represents h L) (hb : b ∈ L.allocated)
    (hp : L.freeBefore b = some p) (hafter : after = none ∨ after = L.freeAfter b)
    (hS : Holds h₁ (blockSet L) (unlist (unlist L.freeList after) (some p)))
    (hsame : SameExcept h h₁ (rims (freeOf (blockSet L))))
    (hm : m = b.absorb (some p) after true) :
    (do
        blockSetSizeAndAllocated m.addr (BitVec.ofNat 64 m.size) 1
        memmove (payload m.addr) (payload b.addr) (BitVec.ofNat 64 b.size) : HeapM Unit).run h₁ =
      .ok ((), moveBack h₁ m b) ∧
      Represents (moveBack h₁ m b) (L.grow (some p) b after) ∧
      Carried h (moveBack h₁ m b) L b m := by
  have hL := hR.wellFormed
  have hbefore : some p = none ∨ some p = L.freeBefore b := .inr hp.symm
  have halloc : m.alloc = true := by rw [hm, Block.absorb]
  have hin : h₁.InHeap m.addr m.size := by
    rw [hsame.inHeap_iff, hm]
    exact inHeap_joined hR hb hbefore hafter
  have hout : ∀ c ∈ blockSet L, c.addr ∈ unlist (unlist L.freeList after) (some p) →
      Separate c m := by
    intro c hc hlisted
    rw [hm]
    exact separate_joined hL hb hbefore hafter hc hlisted
  have hpb := (free_of_freeBefore hp).2
  have hlarge := p.large
  have haddr : m.addr = p.addr := by rw [hm]; rfl
  have hsize : p.size + b.size ≤ m.size := by
    rw [hm]
    exact Nat.le_add_right _ _
  have hbm : m.addr + 16 ≤ b.addr := by
    unfold Block.stop at hpb
    omega
  have hroom : m.addr + 16 + b.size ≤ m.stop := by
    unfold Block.stop
    omega
  have hcover : b.stop ≤ m.stop := by
    unfold Block.stop at hpb ⊢
    omega
  have hsrc : b.stop + 8 ≤ h₁.memBrk := by
    have htop := hL.stop_le_top_of_mem hb.1
    rw [hsame.memBrk, hR.memBrk, Layout.brk]
    omega
  have hball := WellFormed.mem_all_of_mem hb.1
  refine ⟨moveBack_run hS halloc hin (by omega) hroom hsrc, ?_, ?_⟩
  · refine represents_grow hR hb hbefore hafter ?_ ?_
    · rw [← hm]
      exact moveBack_holds hS halloc hin hroom hout
    · exact (SameBounds.of_sameExcept hsame).trans ⟨rfl, rfl, rfl, rfl⟩
  · constructor
    · exact hsame.arena
    · intro i hi
      rw [moveBack_kept hbm hcover hi]
      apply hsame.memory
      refine not_mem_rims hL hball hb.2 ⟨by omega, ?_⟩
      unfold Block.stop
      omega
    · intro c hc hne x hx
      rw [moveBack_others hroom]
      · exact hsame.memory x (not_mem_rims hL (WellFormed.mem_all_of_mem hc.1) hc.2 hx)
      · have hd := hL.separate_absorb hb hc hne hbefore hafter
        rw [← hm] at hd
        obtain ⟨h₁, h₂⟩ := hx
        rintro ⟨h₃, h₄⟩
        omega
    · refine ⟨[⟨payload m.addr, payload b.addr, b.size⟩], ?_, ?_⟩
      · exact congrArg (· ++ _) hsame.moves
      · intro mv hmv
        obtain rfl := List.mem_singleton.mp hmv
        unfold payload
        refine ⟨le_rfl, ?_, rfl⟩
        change m.addr + 8 + b.size + 8 ≤ m.stop
        omega

end Grow

section Branches

variable {h : Heap} {L : Layout} {b p n : Block}

theorem freeBefore_mem (hp : L.freeBefore b = some p) : p ∈ L.all :=
  WellFormed.mem_all_of_mem (List.mem_of_find?_eq_some hp)

theorem freeAfter_mem (hn : L.freeAfter b = some n) : n ∈ L.all :=
  WellFormed.mem_all_of_mem (List.mem_of_find?_eq_some hn)

/-- The previous block alone is large enough. -/
theorem growBefore_run (hR : Represents h L) (hb : b ∈ L.allocated) (hp : L.freeBefore b = some p) :
    ∃ h', (do
        pullFreeBlock p.addr
        blockSetSizeAndAllocated p.addr (BitVec.ofNat 64 b.size + (← blockSize p.addr)) 1
        memmove (payload p.addr) (payload b.addr) (BitVec.ofNat 64 b.size)
        return payload p.addr : HeapM Nat).run h = .ok (payload p.addr, h') ∧
      Represents h' (L.grow (some p) b none) ∧
      Carried h h' L b (b.absorb (some p) none true) := by
  have hpfree := (free_of_freeBefore hp).1
  obtain ⟨h₁, hpull, hS₁, hsame₁⟩ :=
    hR.holds.pull (hR.wellFormed.mem_freeList (freeBefore_mem hp) hpfree)
  let m := b.absorb (some p) none true
  have hlinks := hR.holds.linkBytes_subset_rims
  obtain ⟨hrun, hR', hcarried⟩ :=
    moveBack_carried (m := m) hR hb hp (.inl rfl) hS₁ (hsame₁.mono hlinks) rfl
  have hsize : BitVec.ofNat 64 b.size + BitVec.ofNat 64 p.size = BitVec.ofNat 64 m.size := by
    have hsum : m.size = b.size + p.size := Nat.add_comm p.size b.size
    rw [hsum, BitVec.ofNat_add]
  refine ⟨moveBack h₁ m b, ?_, hR', hcarried⟩
  rw [run_bind_of_ok hpull, run_bind_of_ok (hS₁.tagged p (freeBefore_mem hp)).blockSize_run, hsize,
    ← bind_assoc]
  exact run_bind_of_ok hrun

/-- The next block alone is large enough; nothing is moved. -/
theorem growAfter_run (hR : Represents h L) (hb : b ∈ L.allocated) (hn : L.freeAfter b = some n) :
    ∃ h', (do
        let next ← blockNext b.addr
        pullFreeBlock next
        blockSetSizeAndAllocated b.addr (BitVec.ofNat 64 b.size + (← blockSize next)) 1
        return payload b.addr : HeapM Nat).run h = .ok (payload b.addr, h') ∧
      Represents h' (L.grow none b (some n)) ∧
      Carried h h' L b (b.absorb none (some n) true) := by
  have hL := hR.wellFormed
  have hball := WellFormed.mem_all_of_mem hb.1
  obtain ⟨hnfree, hbn⟩ := free_of_freeAfter hn
  obtain ⟨h₁, hpull, hS₁, hlinks₁⟩ := hR.holds.pull (hL.mem_freeList (freeAfter_mem hn) hnfree)
  have hsame₁ := hlinks₁.mono hR.holds.linkBytes_subset_rims
  let m := b.absorb none (some n) true
  have hsum : m.size = b.size + n.size := by simp [m, Block.absorb]
  have hafter : some n = none ∨ some n = L.freeAfter b := .inr hn.symm
  have hin : h₁.InHeap m.addr m.size :=
    (hsame₁.inHeap_iff _ _).mpr (inHeap_joined hR hb (.inl rfl) hafter)
  have hsmall : m.size < 2 ^ 63 := by
    obtain ⟨hlo, hhi⟩ := hin
    have hfits := hS₁.fits
    unfold Heap.memStartBrk at hlo
    unfold Heap.memMaxAddr maxHeap at hfits
    omega
  have hset : (blockSetSizeAndAllocated b.addr (BitVec.ofNat 64 m.size) 1).run h₁ =
      .ok ((), setTags h₁ m.addr m.size m.alloc) :=
    blockSetSizeAndAllocated_run m.aligned m.large hsmall hin true
  have hS₂ : Holds (setTags h₁ m.addr m.size m.alloc) (overwrite (blockSet L) m)
      (unlist (unlist L.freeList (some n)) none) :=
    hS₁.retag m hin fun c hc hlisted => separate_joined hL hb (.inl rfl) hafter hc hlisted
  have hsame := hsame₁.trans (sameExcept_setTags (h := h₁) (b := m.addr) m.large m.alloc)
  have htag : ∀ x, x ∉ bytes m → x ∉ tagBytes m.addr m.size :=
    fun x hx hmem => hx (tagBytes_subset_bytes m hmem)
  have hnext : (blockNext b.addr).run h = .ok (n.addr, h) := by
    rw [← hbn]
    exact (hR.tagged hball).blockNext_run
  refine ⟨_, ?_, represents_grow hR hb (.inl rfl) hafter hS₂ (.of_sameExcept hsame), ?_⟩
  · rw [run_bind_of_ok hnext, run_bind_of_ok hpull,
      run_bind_of_ok (hS₁.tagged n (freeAfter_mem hn)).blockSize_run, ← BitVec.ofNat_add, ← hsum]
    exact run_bind_of_ok hset
  · constructor
    · exact hsame.arena
    · intro i hi
      refine hsame.memory _ ?_
      rintro (hx | ⟨hlo, hhi⟩ | ⟨hlo, hhi⟩)
      · refine not_mem_rims hL hball hb.2 (x := b.addr + 8 + i) ⟨by omega, ?_⟩ hx
        unfold Block.stop
        omega
      · change b.addr + 8 + i < b.addr + 8 at hhi
        omega
      · change b.addr + m.size - 8 ≤ b.addr + 8 + i at hlo
        omega
    · intro c hc hne x hx
      refine hsame.memory x ?_
      rintro (hmem | hmem)
      · exact not_mem_rims hL (WellFormed.mem_all_of_mem hc.1) hc.2 hx hmem
      · have hd := hL.separate_absorb hb hc hne (.inl rfl) hafter
        refine htag x ?_ hmem
        obtain ⟨h₁, h₂⟩ := hx
        rintro ⟨h₃, h₄⟩
        change c.stop ≤ m.addr ∨ m.stop ≤ c.addr at hd
        omega
    · exact ⟨[], by rw [hsame.moves, List.append_nil], by simp⟩

/-- Both neighbours are needed. -/
theorem growBoth_run (hR : Represents h L) (hb : b ∈ L.allocated) (hp : L.freeBefore b = some p)
    (hn : L.freeAfter b = some n) :
    ∃ h', (do
        pullFreeBlock n.addr
        pullFreeBlock p.addr
        blockSetSizeAndAllocated p.addr
          (BitVec.ofNat 64 b.size + (← blockSize n.addr) + (← blockSize p.addr)) 1
        memmove (payload p.addr) (payload b.addr) (BitVec.ofNat 64 b.size)
        return payload p.addr : HeapM Nat).run h = .ok (payload p.addr, h') ∧
      Represents h' (L.grow (some p) b (some n)) ∧
      Carried h h' L b (b.absorb (some p) (some n) true) := by
  have hL := hR.wellFormed
  obtain ⟨hpfree, hpb⟩ := free_of_freeBefore hp
  obtain ⟨hnfree, hbn⟩ := free_of_freeAfter hn
  have hpn : p.addr ≠ n.addr := by
    have hppos := p.addr_lt_stop
    have hbpos := b.addr_lt_stop
    omega
  obtain ⟨h₁, hpull₁, hS₁, hsame₁⟩ := hR.holds.pull (hL.mem_freeList (freeAfter_mem hn) hnfree)
  obtain ⟨h₂, hpull₂, hS₂, hsame₂⟩ := hS₁.pull
    ((List.mem_erase_of_ne hpn).mpr (hL.mem_freeList (freeBefore_mem hp) hpfree))
  have hsame := (hsame₁.trans hsame₂).mono
    (Set.union_subset hR.holds.linkBytes_subset_rims hS₁.linkBytes_subset_rims)
  let m := b.absorb (some p) (some n) true
  obtain ⟨hrun, hR', hcarried⟩ :=
    moveBack_carried (m := m) hR hb hp (.inr hn.symm) hS₂ hsame rfl
  have hsize : BitVec.ofNat 64 b.size + BitVec.ofNat 64 n.size + BitVec.ofNat 64 p.size =
      BitVec.ofNat 64 m.size := by
    have hsum : m.size = b.size + n.size + p.size := by
      change p.size + b.size + n.size = _
      omega
    rw [hsum, BitVec.ofNat_add, BitVec.ofNat_add]
  refine ⟨moveBack h₂ m b, ?_, hR', hcarried⟩
  rw [run_bind_of_ok hpull₁, run_bind_of_ok hpull₂,
    run_bind_of_ok (hS₂.tagged n (freeAfter_mem hn)).blockSize_run,
    run_bind_of_ok (hS₂.tagged p (freeBefore_mem hp)).blockSize_run, hsize, ← bind_assoc]
  exact run_bind_of_ok hrun

/-- The end of `mm_realloc` when `mm_malloc` has turned `L₀` into `L`. -/
theorem moveToNew_run {L₀ : Layout} {u : Block} (hR : Represents h L) (hb : b ∈ L.allocated)
    (hu : u ∈ L.allocated) (hne : u ≠ b) (hroom : b.size + 16 ≤ u.size)
    (hold : ∀ c ∈ L₀.allocated, c ∈ L.allocated ∧ c ≠ u) :
    ∃ h', (moveToNew (payload u.addr) (payload b.addr) (BitVec.ofNat 64 b.size)).run h =
        .ok ((), h') ∧ Represents h' (L.release b) ∧ Carried h h' L₀ b u := by
  have hL := hR.wellFormed
  have hsep := (hL.eq_or_disjoint (WellFormed.mem_all_of_mem hu.1)
    (WellFormed.mem_all_of_mem hb.1)).resolve_left hne
  obtain ⟨hblo, hbhi⟩ := hR.inHeap_of_mem hb.1
  obtain ⟨hulo, huhi⟩ := hR.inHeap_of_mem hu.1
  have hsize : (BitVec.ofNat 64 b.size).toNat = b.size := by
    have hsmall := (hR.tagged (WellFormed.mem_all_of_mem hb.1)).small
    exact toNat_ofNat_of_lt (by omega)
  unfold Block.stop at hbhi huhi
  let h₁ := h.move (payload u.addr) (payload b.addr) b.size
  have hmove : (memmove (payload u.addr) (payload b.addr) (BitVec.ofNat 64 b.size)).run h =
      .ok ((), h₁) := by
    have hrun := memmove_run (h := h) (payload u.addr) (payload b.addr) (BitVec.ofNat 64 b.size)
      (by rw [hsize]; unfold payload Heap.InHeap; omega)
      (by rw [hsize]; unfold payload Heap.InHeap; omega)
    rw [hrun, hsize]
  have hcopy : ∀ x, x ∉ Set.Ico (u.addr + 8) (u.addr + 8 + b.size) → h₁.memory x = h.memory x := by
    intro x hx
    apply copy_apply_of_not_mem
    rw [Set.mem_Ico] at hx
    unfold payload
    omega
  have hR₁ : Represents h₁ L := by
    refine hR.write hu ⟨rfl, rfl, rfl, rfl⟩ rfl fun x hx => hcopy x fun hmem => hx ⟨hmem.1, ?_⟩
    have hhi := hmem.2
    unfold Block.stop
    omega
  obtain ⟨h₂, hfree, hR₂, hsame, -⟩ := hR₁.mmFree hb.1 hb.2
  have hspares : ∀ c ∈ L.allocated, c ≠ b → ∀ x ∈ bytes c, h₂.memory x = h₁.memory x := by
    intro c hc hcb x hx
    exact hsame.memory x
      (hR₁.mmFree_spares hb.1 (WellFormed.mem_all_of_mem hc.1) hc.2 hcb hx)
  refine ⟨h₂, ?_, hR₂, ?_⟩
  · have hptr : payload u.addr ≠ null := Nat.succ_ne_zero _
    unfold moveToNew
    rw [if_pos hptr, run_bind_of_ok hmove]
    exact hfree
  · constructor
    · exact hsame.arena
    · intro i hi
      rw [hspares u hu hne]
      · refine (copy_apply_of_mem _ ?_).trans ?_
        · unfold payload
          omega
        · congr 1
          unfold payload
          omega
      · unfold bytes Block.stop
        constructor <;> omega
    · intro c hc₀ hcb x hx
      obtain ⟨hc, hcu⟩ := hold c hc₀
      rw [hspares c hc hcb x hx]
      apply hcopy
      rintro ⟨hlo, hhi⟩
      obtain ⟨h₃, h₄⟩ := hx
      have hd := (hL.eq_or_disjoint (WellFormed.mem_all_of_mem hc.1)
        (WellFormed.mem_all_of_mem hu.1)).resolve_left hcu
      unfold Block.stop at hd h₄
      omega
    · refine ⟨[⟨payload u.addr, payload b.addr, b.size⟩], hsame.moves, ?_⟩
      intro mv hmv
      obtain rfl := List.mem_singleton.mp hmv
      unfold payload Block.stop
      refine ⟨le_rfl, ?_, rfl⟩
      change u.addr + 8 + b.size + 8 ≤ u.addr + u.size
      omega

/-- `mm_realloc` through `mm_malloc`. -/
theorem fallback_run {bSize : Word} (hR : Represents h L) (hb : b ∈ L.allocated)
    (hsafe : MallocSafe L bSize)
    (hroom : (L.malloc bSize).2 = null ∨ b.size + 16 ≤ (need bSize).bytes) :
    ∃ h', (do
        let newptr ← mmMalloc bSize
        moveToNew newptr (payload b.addr) (BitVec.ofNat 64 b.size)
        return newptr : HeapM Nat).run h = .ok ((L.malloc bSize).2, h') ∧
      ((L.malloc bSize).2 = null → h' = h) ∧
      ((L.malloc bSize).2 ≠ null → Represents h' ((L.malloc bSize).1.release b) ∧
        ∃ u ∈ (L.malloc bSize).1.allocated, u ≠ b ∧ u.addr + 8 = (L.malloc bSize).2 ∧
          Carried h h' L b u) := by
  have hL := hR.wellFormed
  obtain ⟨h₁, hmalloc, hR₁, harena, hmoves, hmem, hnull⟩ := mmMalloc_run hR hsafe
  rcases Decidable.em ((L.malloc bSize).2 = null) with hq | hq
  · refine ⟨h, ?_, fun _ => rfl, fun hne => absurd hq hne⟩
    rw [run_bind_of_ok hmalloc, hnull hq, hq]
    rfl
  · obtain ⟨u, haddr, -, hu⟩ := hL.malloc_granted hq
    have hold : ∀ c ∈ L.allocated, c ∈ (L.malloc bSize).1.allocated ∧ c ≠ u := by
      intro c hc
      refine ⟨hu.allocated ▸ Set.mem_insert_of_mem u hc, ?_⟩
      rintro rfl
      have hpos := c.addr_lt_stop
      have hself := hu.fresh c hc
      omega
    have hu' : u ∈ (L.malloc bSize).1.allocated := hu.allocated ▸ Set.mem_insert u _
    have hne : u ≠ b := (hold b hb).2.symm
    obtain ⟨h₂, hmove, hR₂, hcarried⟩ := moveToNew_run hR₁ (hold b hb).1 hu' hne
      ((hroom.resolve_left hq).trans hu.large) hold
    refine ⟨h₂, ?_, fun heq => absurd heq hq, fun _ => ⟨hR₂, u, hu', hne, haddr, ?_⟩⟩
    · rw [run_bind_of_ok hmalloc, ← haddr]
      exact run_bind_of_ok hmove
    · constructor
      · exact hcarried.arena.trans harena
      · intro i hi
        rw [hcarried.kept i hi]
        refine hmem b hb.1 hb.2 _ ⟨by omega, ?_⟩
        unfold Block.stop
        omega
      · intro c hc hcb x hx
        exact (hcarried.others c hc hcb x hx).trans (hmem c hc.1 hc.2 x hx)
      · obtain ⟨ms, hms, hdst⟩ := hcarried.moves
        exact ⟨ms, by rw [hms, hmoves], hdst⟩

end Branches

section Tests

variable {h : Heap} {L : Layout} {b p n : Block} {k : Int}

theorem isFree_run {a bytes : Nat} {alloc : Bool} (ht : Tagged h a bytes alloc) :
    (isFree a).run h = .ok (!alloc, h) := by
  unfold isFree
  rw [run_bind_of_ok ht.blockAllocated_run]
  cases alloc <;> rfl

theorem andM_run {x y : HeapM Bool} {c : Bool} (hx : x.run h = .ok (c, h)) :
    (x <&&> y).run h = if c then y.run h else .ok (false, h) := by
  refine (run_bind_of_ok hx).trans ?_
  cases c <;> rfl

theorem size_le_maxHeap (hR : Represents h L) (hb : b ∈ L.all) : b.size ≤ maxHeap := by
  obtain ⟨hlo, hhi⟩ := (hR.tagged hb).inHeap
  have hfits := hR.holds.fits
  unfold Heap.memStartBrk at hlo
  unfold Heap.memMaxAddr at hfits
  omega

theorem toInt_sum (hR : Represents h L) (hb : b ∈ L.all) (hp : p ∈ L.all) :
    (BitVec.ofNat 64 b.size + BitVec.ofNat 64 p.size).toInt = (b.size + p.size : Nat) := by
  have hbsize := size_le_maxHeap hR hb
  have hpsize := size_le_maxHeap hR hp
  unfold maxHeap at hbsize hpsize
  rw [← BitVec.ofNat_add, toInt_ofNat_of_lt (by omega)]

/-- The three tests of `mm_realloc`, as `growth` makes them. -/
theorem prevTest_run (hR : Represents h L) (hb : b ∈ L.all) (hp : p ∈ L.all)
    (hbefore : L.freeBefore b = ifFree p) :
    (isFree p.addr <&&> do
        return decide ((BitVec.ofNat 64 b.size + (← blockSize p.addr)).toInt ≥ k)).run h =
      .ok (decide ((L.freeBefore b).isSome ∧
        k ≤ (b.absorb (L.freeBefore b) none true).size), h) := by
  have ht := hR.tagged hp
  rw [andM_run (isFree_run ht), hbefore]
  cases halloc : p.alloc with
  | true => simp [ifFree_of_alloc halloc]
  | false =>
      have hsize : (b.absorb (some p) none true).size = b.size + p.size := by
        simp [Block.absorb, Nat.add_comm]
      rw [ifFree_of_free halloc, hsize, ← toInt_sum hR hb hp, Bool.not_false, if_pos rfl,
        run_bind_of_ok ht.blockSize_run]
      simp

theorem nextTest_run (hR : Represents h L) (hb : b ∈ L.all) (hn : n ∈ L.all)
    (hafter : L.freeAfter b = ifFree n) :
    (isFree n.addr <&&> do
        return decide ((BitVec.ofNat 64 b.size + (← blockSize n.addr)).toInt ≥ k)).run h =
      .ok (decide ((L.freeAfter b).isSome ∧
        k ≤ (b.absorb none (L.freeAfter b) true).size), h) := by
  have ht := hR.tagged hn
  rw [andM_run (isFree_run ht), hafter]
  cases halloc : n.alloc with
  | true => simp [ifFree_of_alloc halloc]
  | false =>
      have hsize : (b.absorb none (some n) true).size = b.size + n.size := by simp [Block.absorb]
      rw [ifFree_of_free halloc, hsize, ← toInt_sum hR hb hn, Bool.not_false, if_pos rfl,
        run_bind_of_ok ht.blockSize_run]
      simp

theorem bothTest_run (hR : Represents h L) (hb : b ∈ L.all) (hp : p ∈ L.all) (hn : n ∈ L.all)
    (hbefore : L.freeBefore b = ifFree p) (hafter : L.freeAfter b = ifFree n) :
    (isFree p.addr <&&> isFree n.addr <&&> do
        return decide ((BitVec.ofNat 64 b.size + (← blockSize p.addr) +
          (← blockSize n.addr)).toInt ≥ k)).run h =
      .ok (decide ((L.freeBefore b).isSome ∧ (L.freeAfter b).isSome ∧
        k ≤ (b.absorb (L.freeBefore b) (L.freeAfter b) true).size), h) := by
  have htp := hR.tagged hp
  have htn := hR.tagged hn
  rw [andM_run (isFree_run htp), andM_run (isFree_run htn), hbefore, hafter]
  cases hpalloc : p.alloc with
  | true => simp [ifFree_of_alloc hpalloc]
  | false =>
      cases hnalloc : n.alloc with
      | true => simp [ifFree_of_alloc hnalloc]
      | false =>
          have hbsize := size_le_maxHeap hR hb
          have hpsize := size_le_maxHeap hR hp
          have hnsize := size_le_maxHeap hR hn
          unfold maxHeap at hbsize hpsize hnsize
          have hsize : ((b.absorb (some p) (some n) true).size : Int) = (BitVec.ofNat 64 b.size +
              BitVec.ofNat 64 p.size + BitVec.ofNat 64 n.size).toInt := by
            have hsum : (b.absorb (some p) (some n) true).size = b.size + p.size + n.size := by
              change p.size + b.size + n.size = _
              omega
            rw [← BitVec.ofNat_add, ← BitVec.ofNat_add, toInt_ofNat_of_lt (by omega), hsum]
          rw [ifFree_of_free hpalloc, ifFree_of_free hnalloc, hsize, Bool.not_false, if_pos rfl,
            if_pos rfl, run_bind_of_ok htp.blockSize_run,
            run_bind_of_ok htn.blockSize_run]
          simp

end Tests

section Realloc

variable {h : Heap} {L : Layout} {b p n : Block} {size : Word}

theorem payloadToBlock_payload (a : Nat) : payloadToBlock (payload a) = a := Nat.add_sub_cancel a 8

theorem mmRealloc_run_fits (hR : Represents h L) (hb : b ∈ L.all) (hsize : size ≠ 0)
    (hfits : (align size + tagsSize).toInt ≤ b.size) :
    (mmRealloc (payload b.addr) size).run h = .ok (payload b.addr, h) := by
  have ht := hR.tagged hb
  have htest : (BitVec.ofNat 64 b.size).toInt ≥ (align size + tagsSize).toInt := by
    rw [toInt_ofNat_of_lt ht.small]
    exact hfits
  have hptr : payload b.addr ≠ null := Nat.succ_ne_zero _
  rw [mmRealloc, if_neg hptr, if_neg hsize, payloadToBlock_payload,
    run_bind_of_ok ht.blockSize_run, if_pos htest]
  rfl

theorem mmRealloc_run_large (hR : Represents h L) (hb : b ∈ L.all) (hp : p ∈ L.all)
    (hpb : p.stop = b.addr) (hbn : b.stop = n.addr) (hsize : size ≠ 0)
    (hlarge : ¬ (align size + tagsSize).toInt ≤ b.size) :
    (mmRealloc (payload b.addr) size).run h = (do
      let bSize := align size + tagsSize
      let oldSize := BitVec.ofNat 64 b.size
      if ← (isFree p.addr <&&> do
          return decide ((oldSize + (← blockSize p.addr)).toInt ≥ bSize.toInt)) then
        pullFreeBlock p.addr
        blockSetSizeAndAllocated p.addr (oldSize + (← blockSize p.addr)) 1
        memmove (payload p.addr) (payload b.addr) oldSize
        return payload p.addr
      else if ← (isFree n.addr <&&> do
          return decide ((oldSize + (← blockSize n.addr)).toInt ≥ bSize.toInt)) then
        let next ← blockNext b.addr
        pullFreeBlock next
        blockSetSizeAndAllocated b.addr (oldSize + (← blockSize next)) 1
        return payload b.addr
      else if ← (isFree p.addr <&&> isFree n.addr <&&> do
          return decide ((oldSize + (← blockSize p.addr) + (← blockSize n.addr)).toInt ≥
            bSize.toInt)) then
        pullFreeBlock n.addr
        pullFreeBlock p.addr
        blockSetSizeAndAllocated p.addr
          (oldSize + (← blockSize n.addr) + (← blockSize p.addr)) 1
        memmove (payload p.addr) (payload b.addr) oldSize
        return payload p.addr
      else
        let newptr ← mmMalloc bSize
        moveToNew newptr (payload b.addr) oldSize
        return newptr : HeapM Nat).run h := by
  have ht := hR.tagged hb
  have htest : ¬ (BitVec.ofNat 64 b.size).toInt ≥ (align size + tagsSize).toInt := by
    rw [toInt_ofNat_of_lt ht.small]
    exact hlarge
  have hptr : payload b.addr ≠ null := Nat.succ_ne_zero _
  have hnext : (blockNext b.addr).run h = .ok (n.addr, h) := by
    rw [← hbn]
    exact ht.blockNext_run
  have hprev : (blockPrev b.addr).run h = .ok (p.addr, h) := by
    rw [← hpb]
    exact (hR.tagged hp).blockPrev_run
  rw [mmRealloc, if_neg hptr, if_neg hsize, payloadToBlock_payload,
    run_bind_of_ok ht.blockSize_run, if_neg htest, run_bind_of_ok hnext, run_bind_of_ok hprev]

theorem mmRealloc_run_growth (hR : Represents h L) (hb : b ∈ L.allocated) (hsize : size ≠ 0)
    (hlarge : ¬ (align size + tagsSize).toInt ≤ b.size) {before after : Option Block}
    (hgrow : L.growth b (align size + tagsSize).toInt = some (before, after)) :
    ∃ h', (mmRealloc (payload b.addr) size).run h =
        .ok (payload (b.absorb before after true).addr, h') ∧
      Represents h' (L.grow before b after) ∧ Carried h h' L b (b.absorb before after true) := by
  have hball := WellFormed.mem_all_of_mem hb.1
  obtain ⟨p, hp, n, hn, hpb, hbn, hbefore, hafter⟩ := hR.neighbours hb.1
  have hfree : ∀ c : Block, (ifFree c).isSome → ifFree c = some c := by
    intro c hc
    cases halloc : c.alloc with
    | true => simp [ifFree_of_alloc halloc] at hc
    | false => exact ifFree_of_free halloc
  rw [mmRealloc_run_large hR hball hp hpb hbn hsize hlarge]
  rw [WellFormed.growth_eq] at hgrow
  rw [run_bind_of_ok (prevTest_run hR hball hp hbefore)]
  split at hgrow
  · rename_i htest
    have hp' : L.freeBefore b = some p := by
      rw [hbefore] at htest ⊢
      exact hfree p htest.1
    cases hgrow
    rw [if_pos (decide_eq_true htest)]
    have hrun := growBefore_run hR hb hp'
    rw [hp']
    exact hrun
  · rename_i htest₁
    rw [if_neg (by simpa using htest₁), run_bind_of_ok (nextTest_run hR hball hn hafter)]
    split at hgrow
    · rename_i htest
      have hn' : L.freeAfter b = some n := by
        rw [hafter] at htest ⊢
        exact hfree n htest.1
      cases hgrow
      rw [if_pos (decide_eq_true htest)]
      have hrun := growAfter_run hR hb hn'
      rw [hn']
      exact hrun
    · rename_i htest₂
      rw [if_neg (by simpa using htest₂),
        run_bind_of_ok (bothTest_run hR hball hp hn hbefore hafter)]
      split at hgrow
      · rename_i htest
        have hp' : L.freeBefore b = some p := by
          rw [hbefore] at htest ⊢
          exact hfree p htest.1
        have hn' : L.freeAfter b = some n := by
          rw [hafter] at htest ⊢
          exact hfree n htest.2.1
        cases hgrow
        rw [if_pos (decide_eq_true htest)]
        have hrun := growBoth_run hR hb hp' hn'
        rw [hp', hn']
        exact hrun
      · cases hgrow

theorem mmRealloc_run_none (hR : Represents h L) (hb : b ∈ L.allocated) (hsize : size ≠ 0)
    (hlarge : ¬ (align size + tagsSize).toInt ≤ b.size)
    (hgrow : L.growth b (align size + tagsSize).toInt = none) :
    (mmRealloc (payload b.addr) size).run h = (do
      let newptr ← mmMalloc (align size + tagsSize)
      moveToNew newptr (payload b.addr) (BitVec.ofNat 64 b.size)
      return newptr : HeapM Nat).run h := by
  have hball := WellFormed.mem_all_of_mem hb.1
  obtain ⟨p, hp, n, hn, hpb, hbn, hbefore, hafter⟩ := hR.neighbours hb.1
  rw [mmRealloc_run_large hR hball hp hpb hbn hsize hlarge]
  rw [WellFormed.growth_eq] at hgrow
  split at hgrow
  · cases hgrow
  · rename_i htest₁
    split at hgrow
    · cases hgrow
    · rename_i htest₂
      split at hgrow
      · cases hgrow
      · rename_i htest₃
        rw [run_bind_of_ok (prevTest_run hR hball hp hbefore), if_neg (by simpa using htest₁),
          run_bind_of_ok (nextTest_run hR hball hn hafter), if_neg (by simpa using htest₂),
          run_bind_of_ok (bothTest_run hR hball hp hn hbefore hafter),
          if_neg (by simpa using htest₃)]

/-- `mm_realloc` of a block of `b.size` bytes stays inside the heap. -/
def ReallocSafe (L : Layout) (b : Block) (size : Word) : Prop :=
  let bSize := align size + tagsSize
  bSize.toInt ≤ b.size ∨ (L.growth b bSize.toInt).isSome ∨
    MallocSafe L bSize ∧ ((L.malloc bSize).2 = null ∨ b.size + 16 ≤ (need bSize).bytes)

/-- What `mm_realloc` does on a represented heap. -/
theorem mmRealloc_run (hR : Represents h L) (hb : b ∈ L.allocated) (hsize : size ≠ 0)
    (hsafe : ReallocSafe L b size) :
    ∃ h', (mmRealloc (payload b.addr) size).run h = .ok ((L.reallocBlock b size).2, h') ∧
      Represents h' (L.reallocBlock b size).1 ∧
      ((L.reallocBlock b size).2 = null → h' = h) ∧
      ((L.reallocBlock b size).2 ≠ null → ∃ u ∈ (L.reallocBlock b size).1.allocated,
        u.addr + 8 = (L.reallocBlock b size).2 ∧ Carried h h' L b u) := by
  rw [Layout.reallocBlock]
  rcases Decidable.em ((align size + tagsSize).toInt ≤ b.size) with hfits | hlarge
  · simp only [if_pos hfits]
    have hrun := mmRealloc_run_fits hR (WellFormed.mem_all_of_mem hb.1) hsize hfits
    exact ⟨h, hrun, hR, fun _ => rfl, fun _ => ⟨b, hb, rfl, .refl h L b⟩⟩
  · simp only [if_neg hlarge]
    rcases hgrow : L.growth b (align size + tagsSize).toInt with _ | ⟨before, after⟩
    · have hsafe' := (hsafe.resolve_left hlarge).resolve_left fun hsome => by
        rw [hgrow] at hsome
        cases hsome
      obtain ⟨h', hrun, hnull, hnew⟩ := fallback_run hR hb hsafe'.1 hsafe'.2
      rw [← mmRealloc_run_none hR hb hsize hlarge hgrow] at hrun
      rcases hmalloc : L.malloc (align size + tagsSize) with ⟨L', q⟩
      rw [hmalloc] at hrun hnull hnew
      rcases Decidable.em (q = null) with hq | hq
      · simp only [if_pos hq]
        refine ⟨h', by rw [hrun, hq], ?_, fun _ => hnull hq, fun hne => absurd rfl hne⟩
        rw [hnull hq]
        exact hR
      · simp only [if_neg hq]
        obtain ⟨hR', u, hu, hub, haddr, hcarried⟩ := hnew hq
        have hne : (L.malloc (align size + tagsSize)).2 ≠ null := by rwa [hmalloc]
        have hgranted := hR.wellFormed.malloc_granted hne
        rw [hmalloc] at hgranted
        obtain ⟨v, -, hL', hv⟩ := hgranted
        have hb' : b ∈ L'.allocated := hv.allocated ▸ Set.mem_insert_of_mem v hb
        rw [hL'.free_addr hb']
        refine ⟨h', hrun, hR', fun heq => absurd heq hq, fun _ => ⟨u, ?_, haddr, hcarried⟩⟩
        rw [hL'.allocated_release hb'.1]
        exact ⟨hu, hub⟩
    · obtain ⟨h', hrun, hR', hcarried⟩ := mmRealloc_run_growth hR hb hsize hlarge hgrow
      obtain ⟨hbefore, hafter, -⟩ := WellFormed.growth_some hgrow
      refine ⟨h', hrun, hR', fun heq => absurd heq (Nat.succ_ne_zero _), fun _ => ?_⟩
      refine ⟨b.absorb before after true, ?_, rfl, hcarried⟩
      rw [hR.wellFormed.allocated_grow hb.1 hbefore hafter]
      exact Set.mem_insert _ _

end Realloc

end MallocLab.Reallocation
