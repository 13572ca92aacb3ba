import MallocLab.Representation

/-!
The break moves: `mem_sbrk`, `mm_init` on any stale arena, and the end of
`mm_malloc` that puts a new block over the old epilogue.
-/

namespace MallocLab.HeapGrowth

open MallocLab.Machine
open MallocLab.Mminline
open MallocLab.Mm
open MallocLab.Tiling
open MallocLab.WordBits
open MallocLab.HeapPrograms
open MallocLab.BoundaryTags
open MallocLab.FreeLists
open MallocLab.AbstractLayout
open MallocLab.HeapInvariant
open MallocLab.Representation

/-- What is left of a number of bytes in the `int` parameter of `mem_sbrk`. -/
def sbrkArgument (bytes : Nat) : Int := (BitVec.ofNat 32 bytes).toInt

theorem sbrkArgument_of_lt {bytes : Nat} (hlt : bytes < 2 ^ 31) : sbrkArgument bytes = bytes := by
  unfold sbrkArgument
  rw [BitVec.toInt_eq_toNat_of_lt] <;> rw [BitVec.toNat_ofNat] <;> omega

theorem setWidth_ofNat (bytes : Nat) :
    (BitVec.ofNat 64 bytes).setWidth 32 = BitVec.ofNat 32 bytes := by
  apply BitVec.eq_of_toNat_eq
  rw [BitVec.toNat_setWidth, BitVec.toNat_ofNat, BitVec.toNat_ofNat]
  omega

section Sbrk

variable {h : Heap} {bytes : Nat}

theorem memSbrk_run_ok (hpos : 0 ≤ sbrkArgument bytes)
    (hroom : h.memBrk + sbrkArgument bytes ≤ h.memMaxAddr) :
    (memSbrk (BitVec.ofNat 32 bytes)).run h =
      .ok (h.memBrk, { h with memBrk := h.memBrk + (sbrkArgument bytes).toNat }) := by
  have haccept : ¬ ((BitVec.ofNat 32 bytes).toInt < 0 ∨
      (h.memBrk : Int) + (BitVec.ofNat 32 bytes).toInt > h.memMaxAddr) := by
    unfold sbrkArgument at hpos hroom
    omega
  have hnat : (BitVec.ofNat 32 bytes).toNat = (sbrkArgument bytes).toNat := by
    unfold sbrkArgument at hpos ⊢
    rw [BitVec.toInt_eq_toNat_cond] at hpos ⊢
    have := (BitVec.ofNat 32 bytes).isLt
    split at hpos <;> split <;> omega
  unfold memSbrk
  rw [StateT.run_bind, StateT.run_get, pure_eq_ok, ok_bind]
  dsimp only
  rw [if_neg haccept, hnat]
  rfl

theorem memSbrk_run_failed
    (hfull : sbrkArgument bytes < 0 ∨ (h.memMaxAddr : Int) < h.memBrk + sbrkArgument bytes) :
    (memSbrk (BitVec.ofNat 32 bytes)).run h = .ok (sbrkFailed, h) := by
  have hreject : (BitVec.ofNat 32 bytes).toInt < 0 ∨
      (h.memBrk : Int) + (BitVec.ofNat 32 bytes).toInt > h.memMaxAddr := hfull
  unfold memSbrk
  rw [StateT.run_bind, StateT.run_get, pure_eq_ok, ok_bind]
  dsimp only
  rw [if_pos hreject]
  rfl

theorem memSbrk_run_exact (bytes : Nat) (hstart : h.memStartBrk ≤ h.memBrk)
    (hroom : h.memBrk + bytes ≤ h.memMaxAddr) :
    (memSbrk (BitVec.ofNat 32 bytes)).run h =
      .ok (h.memBrk, { h with memBrk := h.memBrk + bytes }) := by
  have hlt : bytes < 2 ^ 31 := by
    unfold Heap.memStartBrk at hstart
    unfold Heap.memMaxAddr maxHeap at hroom
    omega
  have harg := sbrkArgument_of_lt hlt
  have hrun := memSbrk_run_ok (h := h) (show 0 ≤ sbrkArgument bytes by omega) (by omega)
  rwa [harg, Int.toNat_natCast] at hrun

theorem memBrk_ne_sbrkFailed (hfits : h.memBrk ≤ h.memMaxAddr) : h.memBrk ≠ sbrkFailed := by
  have harena := h.arena.fits
  have haligned := h.arena.aligned
  unfold maxHeap at harena
  unfold Heap.memMaxAddr maxHeap at hfits
  unfold sbrkFailed
  omega

end Sbrk

/-- The layout `mm_init` leaves. -/
def emptyLayout (start : Nat) : Layout where
  start := start
  top := start + 16
  blocks := []
  freeList := []

theorem emptyLayout_wellFormed (start : Nat) : (emptyLayout start).WellFormed where
  tiles := ⟨rfl, rfl, rfl⟩
  large := by simp [emptyLayout]
  mem_free := by simp [emptyLayout, Layout.all, Layout.prologue, Layout.epilogue]
  nodup := List.nodup_nil
  coalesced := by simp [emptyLayout, Layout.all, Apart, Layout.prologue]
  fits := by
    change start + 16 + 16 ≤ start + maxHeap
    unfold maxHeap
    omega

theorem holds_empty {h : Heap} (hfits : h.memBrk ≤ h.memMaxAddr) (hfirst : h.flistFirst = null) :
    Holds h ∅ [] where
  fits := hfits
  tagged := by simp
  disjoint := by simp
  listed := by simp
  list := ⟨hfirst, LinkRing.ring_nil, List.nodup_nil, by simp, by simp⟩

/-- `mm_init` on a reset heap, whatever bytes and statics were left behind. -/
theorem mmInit_run {h : Heap} (hreset : h.memBrk = h.memStartBrk) :
    ∃ h', mmInit.run h = .ok (0, h') ∧ Represents h' (emptyLayout h.memStartBrk) ∧
      h'.arena = h.arena ∧ h'.moves = h.moves := by
  obtain ⟨arena, memory, memBrk, first, prologue, epilogue, moves⟩ := h
  change memBrk = arena.start at hreset
  subst hreset
  let L := emptyLayout arena.start
  let h₀ : Heap := ⟨arena, memory, arena.start, null, prologue, epilogue, moves⟩
  let h₁ : Heap := { h₀ with memBrk := arena.start + 16, prologue := arena.start }
  let h₂ : Heap := { h₁ with memBrk := arena.start + 16 + 16, epilogue := arena.start + 16 }
  let h₃ := setTags h₂ arena.start 16 true
  let h₄ := setTags h₃ (arena.start + 16) 16 true
  have hroom : arena.start + 16 + 16 ≤ arena.start + maxHeap := by
    unfold maxHeap
    omega
  have hsbrk₁ : (memSbrk (tagsSize.setWidth 32)).run h₀ =
      .ok (arena.start, { h₀ with memBrk := arena.start + 16 }) :=
    memSbrk_run_exact (h := h₀) 16 le_rfl ((Nat.le_add_right _ _).trans hroom)
  have hsbrk₂ : (memSbrk (tagsSize.setWidth 32)).run h₁ =
      .ok (arena.start + 16, { h₁ with memBrk := arena.start + 16 + 16 }) :=
    memSbrk_run_exact (h := h₁) 16 (Nat.le_add_right _ _) hroom
  have hne₁ : arena.start ≠ sbrkFailed :=
    memBrk_ne_sbrkFailed (h := h₀) (Nat.le_add_right arena.start maxHeap)
  have hne₂ : arena.start + 16 ≠ sbrkFailed :=
    memBrk_ne_sbrkFailed (h := h₁) ((Nat.le_add_right _ _).trans hroom)
  have hin₁ : h₂.InHeap arena.start 16 := ⟨le_rfl, Nat.le_add_right _ _⟩
  have hin₂ : h₃.InHeap (arena.start + 16) 16 := ⟨Nat.le_add_right _ _, le_rfl⟩
  have hset₁ : (blockSetSizeAndAllocated arena.start tagsSize 1).run h₂ = .ok ((), h₃) :=
    blockSetSizeAndAllocated_run rfl le_rfl (by decide) hin₁ true
  have hset₂ : (blockSetSizeAndAllocated (arena.start + 16) tagsSize 1).run h₃ = .ok ((), h₄) :=
    blockSetSizeAndAllocated_run rfl le_rfl (by decide) hin₂ true
  have hS₂ : Holds h₂ ∅ [] := holds_empty hroom rfl
  have hS₃ : Holds h₃ (overwrite ∅ L.prologue) [] := hS₂.retag L.prologue hin₁ (by simp)
  have hS₄ : Holds h₄ (overwrite (overwrite ∅ L.prologue) L.epilogue) [] :=
    hS₃.retag L.epilogue hin₂ (by simp)
  have hset : overwrite (overwrite ∅ L.prologue) L.epilogue = blockSet L := by
    have hapart : Separate L.prologue L.epilogue := .inl le_rfl
    ext c
    simp only [overwrite, blockSet, Layout.WellFormed.mem_all_iff, Set.mem_ofPred_eq]
    constructor
    · rintro (rfl | ⟨rfl | ⟨hmem, -⟩, -⟩)
      · exact .inr (.inr rfl)
      · exact .inl rfl
      · exact hmem.elim
    · rintro (rfl | hmem | rfl)
      · exact .inr ⟨.inl rfl, hapart⟩
      · exact absurd hmem List.not_mem_nil
      · exact .inl rfl
  refine ⟨h₄, ?_, ?_, rfl, rfl⟩
  · unfold mmInit
    rw [run_bind_of_ok (run_setFlistFirst null _), run_bind_of_ok hsbrk₁]
    change StateT.run (if arena.start = sbrkFailed then _ else _) h₁ = _
    rw [if_neg hne₁, run_bind_of_ok hsbrk₂]
    change StateT.run (if arena.start + 16 = sbrkFailed then _ else _) h₂ = _
    rw [if_neg hne₂, run_bind_of_ok (run_get h₂)]
    refine (run_bind_of_ok hset₁).trans ?_
    rw [run_bind_of_ok (run_get h₃)]
    refine (run_bind_of_ok hset₂).trans ?_
    rfl
  · exact {
      holds := hset ▸ hS₄
      wellFormed := emptyLayout_wellFormed arena.start
      base := rfl
      memBrk := rfl
      prologue := rfl
      epilogue := rfl }

section Extend

variable {h : Heap} {L : Layout} {c : Block}

theorem stop_le_top_of_listed (hL : L.WellFormed) (hc : c ∈ L.all) (hlisted : c.addr ∈ L.freeList) :
    c.stop ≤ L.top := by
  obtain ⟨d, hd, hdc, hdfree⟩ := (hL.mem_free _).mp hlisted
  obtain rfl := hL.eq_of_addr_eq hd hc hdc
  refine hL.stop_le_top hd ?_
  rintro rfl
  simp [Layout.epilogue] at hdfree

theorem start_le_top (hL : L.WellFormed) : L.start ≤ L.top := by
  have hmem : L.epilogue ∈ L.all := Layout.WellFormed.mem_all_iff.mpr (.inr (.inr rfl))
  exact (hL.tiles.bounds Block.addr_lt_stop hmem).1

/-- The block and the epilogue written by the end of `mm_malloc`, as sets. -/
theorem overwrite_extend (hL : L.WellFormed) (n : Need) {m : Block} (haddr : m.addr = L.top)
    (hsize : m.size = n.bytes) (halloc : m.alloc = true) :
    overwrite (overwrite (blockSet L) m) (L.extend n).epilogue = blockSet (L.extend n) := by
  have hm : m = ⟨L.top, n.bytes, true, n.aligned, n.sixteen_le⟩ :=
    Block.ext haddr hsize halloc
  have hbefore : ∀ d, d ∈ L.prologue :: L.blocks → d ∈ L.all ∧ d.stop ≤ L.top := by
    intro d hd
    have hmem : d ∈ L.all := List.mem_append_left _ hd
    refine ⟨hmem, ?_⟩
    obtain ⟨e, hleft, htop, -⟩ := tiles_append.mp hL.tiles
    exact (hleft.bounds Block.addr_lt_stop hd).2.trans (le_of_eq htop.symm)
  have hnext : m.stop = (L.extend n).epilogue.addr := by
    rw [Block.stop, haddr, hsize]
    rfl
  ext d
  change _ ↔ d ∈ (L.extend n).all
  rw [Layout.WellFormed.extend_all]
  constructor
  · rintro (rfl | ⟨rfl | ⟨hd, hdm⟩, -⟩)
    · simp [Layout.epilogue, Layout.extend]
    · simp [hm]
    · rcases List.mem_append.mp hd with hd | hd
      · exact List.mem_append_left _ hd
      · obtain rfl := List.mem_singleton.mp hd
        have hpos := m.addr_lt_stop
        have hpos' := L.epilogue.addr_lt_stop
        have htop : L.epilogue.addr = L.top := rfl
        unfold Separate at hdm
        omega
  · intro hd
    rcases List.mem_append.mp hd with hd | hd
    · obtain ⟨hmem, hle⟩ := hbefore d hd
      refine .inr ⟨.inr ⟨hmem, .inl (hle.trans (le_of_eq haddr.symm))⟩, .inl ?_⟩
      exact hle.trans (Nat.le_add_right _ _)
    · simp only [List.mem_cons, List.not_mem_nil, or_false] at hd
      rcases hd with rfl | rfl
      · exact .inr ⟨.inl hm.symm, .inl (hm ▸ hnext.le)⟩
      · exact .inl rfl

/-- The block put over the epilogue. -/
def topBlock (L : Layout) (n : Need) : Block :=
  ⟨L.top, n.bytes, true, n.aligned, n.sixteen_le⟩

/-- The heap once the break is raised and the tags of the new block are written. -/
def topTagged (h : Heap) (L : Layout) (n : Need) : Heap :=
  setTags { h with memBrk := h.memBrk + n.bytes } L.top n.bytes true

/-- The heap that the end of `mm_malloc` leaves. -/
def extended (h : Heap) (L : Layout) (n : Need) : Heap :=
  setTags { topTagged h L n with epilogue := L.top + n.bytes } (L.top + n.bytes) 16 true

theorem fits_raised (hR : Represents h L) {n : Need} (hroom : L.brk + n.bytes ≤ L.maxAddr) :
    h.memBrk + n.bytes ≤ h.memMaxAddr := by
  have hbrk := hR.memBrk
  have hLbrk : L.brk = L.top + 16 := rfl
  rw [hR.memMaxAddr_eq]
  omega

theorem topBlock_inHeap (hR : Represents h L) (n : Need) :
    ({ h with memBrk := h.memBrk + n.bytes } : Heap).InHeap L.top n.bytes := by
  have hbrk := hR.memBrk_eq_top
  constructor
  · exact hR.base.le.trans (start_le_top hR.wellFormed)
  · change L.top + n.bytes ≤ h.memBrk + n.bytes
    omega

theorem newEpilogue_inHeap (hR : Represents h L) (n : Need) :
    ({ topTagged h L n with epilogue := L.top + n.bytes } : Heap).InHeap (L.top + n.bytes) 16 := by
  have hbrk := hR.memBrk_eq_top
  constructor
  · exact hR.base.le.trans ((start_le_top hR.wellFormed).trans (Nat.le_add_right _ _))
  · change L.top + n.bytes + 16 ≤ h.memBrk + n.bytes
    omega

theorem holds_topTagged (hR : Represents h L) (n : Need) (hroom : L.brk + n.bytes ≤ L.maxAddr) :
    Holds (topTagged h L n) (overwrite (blockSet L) (topBlock L n)) L.freeList := by
  have hraised : Holds { h with memBrk := h.memBrk + n.bytes } (blockSet L) L.freeList :=
    hR.holds.congr rfl (Nat.le_add_right _ _) (fits_raised hR hroom) rfl (fun _ _ _ _ => rfl)
      fun _ _ _ _ => rfl
  exact hraised.retag (topBlock L n) (topBlock_inHeap hR n) fun c hc hlisted =>
    .inl (stop_le_top_of_listed hR.wellFormed hc hlisted)

theorem holds_extended (hR : Represents h L) (n : Need) (hroom : L.brk + n.bytes ≤ L.maxAddr) :
    Holds (extended h L n) (overwrite (overwrite (blockSet L) (topBlock L n))
      (L.extend n).epilogue) L.freeList := by
  have hmoved : Holds { topTagged h L n with epilogue := L.top + n.bytes }
      (overwrite (blockSet L) (topBlock L n)) L.freeList :=
    (holds_topTagged hR n hroom).congr rfl le_rfl (fits_raised hR hroom) rfl
      (fun _ _ _ _ => rfl) fun _ _ _ _ => rfl
  refine hmoved.retag (L.extend n).epilogue (newEpilogue_inHeap hR n) ?_
  rintro c (rfl | ⟨hc, -⟩) hlisted
  · exact .inl le_rfl
  · have hle := stop_le_top_of_listed hR.wellFormed hc hlisted
    exact .inl (hle.trans (Nat.le_add_right _ _))

theorem represents_extended (hR : Represents h L) (n : Need)
    (hroom : L.brk + n.bytes ≤ L.maxAddr) : Represents (extended h L n) (L.extend n) where
  holds := overwrite_extend hR.wellFormed n (m := topBlock L n) rfl rfl rfl ▸
    holds_extended hR n hroom
  wellFormed := hR.wellFormed.extend n hroom
  base := hR.base
  memBrk := by
    have hbrk := hR.memBrk_eq_top
    change h.memBrk + n.bytes = L.top + n.bytes + 16
    omega
  prologue := hR.prologue
  epilogue := rfl

/-- Only bytes from the old epilogue on are written. -/
theorem memory_extended (n : Need) {x : Nat} (hx : x < L.top) :
    (extended h L n).memory x = h.memory x := by
  have hlarge := n.large
  have hlast := (sameExcept_setTags (h := { topTagged h L n with epilogue := L.top + n.bytes })
    (b := L.top + n.bytes) (le_refl 16) true).memory x
  have hfirst := (sameExcept_setTags (h := { h with memBrk := h.memBrk + n.bytes })
    (b := L.top) (topBlock L n).large true).memory x
  refine (hlast ?_).trans (hfirst ?_)
  · rintro (⟨hlo, -⟩ | ⟨hlo, -⟩) <;> omega
  · rintro (⟨hlo, -⟩ | ⟨hlo, -⟩)
    · omega
    · change L.top + n.bytes - 8 ≤ x at hlo
      omega

theorem extendHeap_run (hR : Represents h L) (n : Need) (hroom : L.brk + n.bytes ≤ L.maxAddr) :
    ∃ h', (extendHeap (BitVec.ofNat 64 n.bytes)).run h = .ok (L.top + 8, h') ∧
      Represents h' (L.extend n) ∧ h'.arena = h.arena ∧ h'.moves = h.moves ∧
      ∀ x < L.top, h'.memory x = h.memory x := by
  have hfits := fits_raised hR hroom
  have hstart : h.memStartBrk ≤ h.memBrk := by
    rw [hR.memBrk_eq_top]
    exact hR.base.le.trans ((start_le_top hR.wellFormed).trans (Nat.le_add_right _ _))
  let h₁ : Heap := { h with memBrk := h.memBrk + n.bytes }
  let h₂ := topTagged h L n
  let h₃ : Heap := { h₂ with epilogue := L.top + n.bytes }
  have hsbrk : (memSbrk ((BitVec.ofNat 64 n.bytes).setWidth 32)).run h = .ok (h.memBrk, h₁) := by
    rw [setWidth_ofNat]
    exact memSbrk_run_exact n.bytes hstart hfits
  have hne : h.memBrk ≠ sbrkFailed := memBrk_ne_sbrkFailed hR.holds.fits
  have hset₁ : (blockSetSizeAndAllocated h₁.epilogue (BitVec.ofNat 64 n.bytes) 1).run h₁ =
      .ok ((), h₂) := by
    change (blockSetSizeAndAllocated h.epilogue _ _).run _ = _
    rw [hR.epilogue]
    exact blockSetSizeAndAllocated_run n.aligned (topBlock L n).large n.small
      (topBlock_inHeap hR n) true
  have hnext : (blockNext h₁.epilogue).run h₂ = .ok (L.top + n.bytes, h₂) := by
    change (blockNext h.epilogue).run _ = _
    rw [hR.epilogue]
    exact ((holds_topTagged hR n hroom).tagged (topBlock L n) mem_overwrite_self).blockNext_run
  have hset₂ : (blockSetSizeAndAllocated (L.top + n.bytes) tagsSize 1).run h₃ =
      .ok ((), extended h L n) :=
    blockSetSizeAndAllocated_run rfl le_rfl (by decide) (newEpilogue_inHeap hR n) true
  have hmove : (modify fun h => { h with epilogue := L.top + n.bytes } : HeapM Unit).run h₂ =
      .ok ((), h₃) := rfl
  refine ⟨extended h L n, ?_, represents_extended hR n hroom, rfl, rfl, fun x hx =>
    memory_extended n hx⟩
  unfold extendHeap
  rw [run_bind_of_ok hsbrk, if_neg hne, run_bind_of_ok (run_get h₁)]
  refine (run_bind_of_ok hset₁).trans ?_
  rw [run_bind_of_ok hnext]
  refine (run_bind_of_ok hmove).trans ?_
  rw [run_bind_of_ok hset₂]
  change Except.ok (payload h.epilogue, extended h L n) = _
  rw [hR.epilogue]
  rfl

theorem extendHeap_run_full (hR : Represents h L) (n : Need)
    (hfull : sbrkArgument n.bytes < 0 ∨ (L.maxAddr : Int) < L.brk + sbrkArgument n.bytes) :
    (extendHeap (BitVec.ofNat 64 n.bytes)).run h = .ok (null, h) := by
  have hmax := hR.memMaxAddr_eq
  have hsbrk : (memSbrk ((BitVec.ofNat 64 n.bytes).setWidth 32)).run h = .ok (sbrkFailed, h) := by
    rw [setWidth_ofNat]
    apply memSbrk_run_failed
    rw [hmax, hR.memBrk]
    exact hfull
  unfold extendHeap
  rw [run_bind_of_ok hsbrk, if_pos rfl]
  rfl

/-- `mem_sbrk` granted what was left of the request after the conversion to
`int`, and the tags are written for the request itself. -/
theorem extendHeap_run_narrowed (hR : Represents h L) (n : Need)
    (hlarge : L.maxAddr < L.brk + n.bytes) (hpos : 0 ≤ sbrkArgument n.bytes)
    (hroom : L.brk + sbrkArgument n.bytes ≤ L.maxAddr) :
    (extendHeap (BitVec.ofNat 64 n.bytes)).run h = .error (.outOfHeap (L.top + n.bytes - 8)) := by
  have hL := hR.wellFormed
  have hbrk := hR.memBrk
  have hLbrk : L.brk = L.top + 16 := rfl
  have hmax := hR.memMaxAddr_eq
  -- the conversion lost at least one multiple of `2 ^ 32`
  have hlost : sbrkArgument n.bytes + 2 ^ 32 ≤ n.bytes := by
    have hcases : sbrkArgument n.bytes = ((n.bytes % 2 ^ 32 : Nat) : Int) := by
      unfold sbrkArgument at hpos ⊢
      rw [BitVec.toInt_eq_toNat_cond, BitVec.toNat_ofNat] at hpos ⊢
      split at hpos
      · rw [if_pos ‹_›]
      · omega
    omega
  let h₁ : Heap := { h with memBrk := h.memBrk + (sbrkArgument n.bytes).toNat }
  have hsbrk : (memSbrk ((BitVec.ofNat 64 n.bytes).setWidth 32)).run h = .ok (h.memBrk, h₁) := by
    rw [setWidth_ofNat]
    apply memSbrk_run_ok hpos
    rw [hmax, hbrk]
    exact hroom
  have hne : h.memBrk ≠ sbrkFailed := memBrk_ne_sbrkFailed hR.holds.fits
  have hin : h₁.InHeap L.top 8 := by
    constructor
    · exact hR.base.le.trans (start_le_top hL)
    · change L.top + 8 ≤ h.memBrk + (sbrkArgument n.bytes).toNat
      omega
  have hset := blockSetSizeAndAllocated_run_outOfHeap n.aligned n.sixteen_le
    n.small hin (by change h.memBrk + (sbrkArgument n.bytes).toNat < _; omega) 1
  unfold extendHeap
  rw [run_bind_of_ok hsbrk, if_neg hne, run_bind_of_ok (run_get h₁)]
  apply run_bind_of_error
  rw [← hset]
  change (blockSetSizeAndAllocated h.epilogue _ _).run _ = _
  rw [hR.epilogue]

end Extend

end MallocLab.HeapGrowth
