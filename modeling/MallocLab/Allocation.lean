import MallocLab.HeapGrowth

/-!
`mm_malloc` acts on the layout as `Layout.malloc`: the search loop finds the
first fit of the free list, the block found is split or taken whole, and
without one the heap is extended.
-/

namespace MallocLab.Allocation

open MallocLab.Machine
open MallocLab.Mminline
open MallocLab.Mm
open MallocLab.Tiling
open MallocLab.WordBits
open MallocLab.HeapPrograms
open MallocLab.BoundaryTags
open MallocLab.FreeLists
open MallocLab.AbstractLayout
open MallocLab.AbstractLayout.Layout
open MallocLab.HeapInvariant
open MallocLab.Coalescing
open MallocLab.Representation
open MallocLab.HeapGrowth

/-- The bytes of the free blocks. -/
def freeBytes (L : Layout) : Set Nat := {x | ∃ b ∈ L.blocks, b.alloc = false ∧ x ∈ bytes b}

theorem rims_subset_freeBytes {L : Layout} (hL : L.WellFormed) :
    rims (freeOf (blockSet L)) ⊆ freeBytes L := by
  rintro x ⟨b, ⟨hb, hfree⟩, hx⟩
  have hmem := WellFormed.mem_blocks_of_free hb hfree
  exact ⟨b, hmem, hfree, rim_subset_bytes (hL.large b hmem) hx⟩

theorem not_mem_freeBytes {L : Layout} {c : Block} (hL : L.WellFormed) (hc : c ∈ L.all)
    (halloc : c.alloc = true) {x : Nat} (hx : x ∈ bytes c) : x ∉ freeBytes L := by
  rintro ⟨b, hb, hfree, hxb⟩
  refine not_mem_bytes hL hc (WellFormed.mem_all_of_mem hb) ?_ hx hxb
  rintro rfl
  simp [halloc] at hfree

/-- A block written over in two parts. -/
theorem overwrite_split {S : Set Block} {x u r : Block} (haddr : u.addr = x.addr)
    (hmid : u.stop = r.addr) (hstop : r.stop = x.stop) :
    overwrite (overwrite S u) r = {c | c = u ∨ c = r ∨ c ∈ S ∧ Separate c x} := by
  have hu := u.addr_lt_stop
  have hr := r.addr_lt_stop
  ext c
  have hc := c.addr_lt_stop
  constructor
  · rintro (rfl | ⟨rfl | ⟨hmem, hcu⟩, hcr⟩)
    · exact .inr (.inl rfl)
    · exact .inl rfl
    · refine .inr (.inr ⟨hmem, ?_⟩)
      exact disjoint_join hmid haddr.symm hstop.symm hcu hcr
  · rintro (rfl | rfl | ⟨hmem, hcx⟩)
    · exact .inr ⟨.inl rfl, .inl hmid.le⟩
    · exact .inl rfl
    · unfold Separate at hcx
      refine .inr ⟨.inr ⟨hmem, ?_⟩, ?_⟩ <;> unfold Separate <;> omega

section Place

variable {h : Heap} {L : Layout} {x : Block}

theorem freeSize_eq {n : Need} (hfit : n.bytes ≤ x.size) :
    BitVec.ofNat 64 x.size - BitVec.ofNat 64 n.bytes = BitVec.ofNat 64 (x.size - n.bytes) := by
  have := n.small
  exact BitVec.ofNat_sub_ofNat_of_le x.size n.bytes (by omega) hfit

theorem splits_iff {n : Need} (hsmall : x.size < 2 ^ 63) :
    (BitVec.ofNat 64 (x.size - n.bytes)).toInt ≥ minBlockSize.toInt ↔
      32 ≤ x.size - n.bytes := by
  have hmin : minBlockSize.toInt = 32 := by decide
  rw [hmin, toInt_ofNat_of_lt (by omega)]
  omega

/-- Listed blocks other than `x` are clear of `x`. -/
theorem separate_of_listed {S : Set Block} {fl : List Nat} {c : Block} (hS : Holds h S fl)
    (hx : x ∈ S) (hgone : x.addr ∉ fl) (hc : c ∈ S) (hlisted : c.addr ∈ fl) : Separate c x := by
  refine (hS.disjoint c hc x hx).resolve_left ?_
  rintro rfl
  exact hgone hlisted

theorem bytes_subset_freeBytes {c : Block} (hx : x ∈ L.blocks) (hfree : x.alloc = false)
    (hlo : x.addr ≤ c.addr) (hhi : c.stop ≤ x.stop) : bytes c ⊆ freeBytes L := by
  rintro y ⟨hylo, hyhi⟩
  exact ⟨x, hx, hfree, hlo.trans hylo, hyhi.trans_le hhi⟩

section Parts

variable {S : Set Block} {fl : List Nat} {u r : Block}

/-- The first part of an unlisted block is tagged. -/
theorem holds_first_part (hS : Holds h S fl) (hx : x ∈ S) (hgone : x.addr ∉ fl)
    (haddr : u.addr = x.addr) (hstop : u.stop ≤ x.stop) :
    Holds (setTags h u.addr u.size u.alloc) (overwrite S u) fl := by
  obtain ⟨hlo, hhi⟩ := (hS.tagged x hx).inHeap
  refine hS.retag u ⟨hlo.trans_eq haddr.symm, hstop.trans hhi⟩ fun c hc hlisted => ?_
  have hd := separate_of_listed hS hx hgone hc hlisted
  unfold Separate at hd ⊢
  omega

/-- Then the second part, up to the end of the block. -/
theorem holds_parts (hS : Holds h S fl) (hx : x ∈ S) (hgone : x.addr ∉ fl)
    (haddr : u.addr = x.addr) (hmid : u.stop = r.addr) (hstop : r.stop = x.stop) :
    Holds (setTags (setTags h u.addr u.size u.alloc) r.addr r.size r.alloc)
      (overwrite (overwrite S u) r) fl := by
  have hu := u.addr_lt_stop
  have hr := r.addr_lt_stop
  have hS₂ := holds_first_part hS hx hgone haddr (by omega)
  obtain ⟨hlo, hhi⟩ := (hS.tagged x hx).inHeap
  have hin : (setTags h u.addr u.size u.alloc).InHeap r.addr r.size :=
    ⟨hlo.trans (by omega), hstop.le.trans hhi⟩
  refine hS₂.retag r hin ?_
  rintro c (rfl | ⟨hc, -⟩) hlisted
  · exact absurd (haddr ▸ hlisted) hgone
  · have hd := separate_of_listed hS hx hgone hc hlisted
    unfold Separate at hd ⊢
    omega

theorem second_part_not_listed (hS : Holds h S fl) (hx : x ∈ S) (hgone : x.addr ∉ fl)
    (hlo : x.addr < r.addr) (hstop : r.stop = x.stop) : r.addr ∉ fl := by
  intro hlisted
  obtain ⟨c, hc, hcr, -⟩ := hS.listed _ hlisted
  have hd := separate_of_listed hS hx hgone hc (hcr ▸ hlisted)
  have hpos := c.addr_lt_stop
  have hr := r.addr_lt_stop
  unfold Separate at hd
  omega

/-- The free blocks are the former ones and the second part. -/
theorem rims_parts_subset (hL : L.WellFormed) (halloc : u.alloc = true) (hlarge : 32 ≤ r.size)
    (hr : bytes r ⊆ freeBytes L) :
    rims (freeOf (overwrite (overwrite (blockSet L) u) r)) ⊆ freeBytes L := by
  rintro y ⟨c, ⟨hc, hcfree⟩, hy⟩
  rcases hc with rfl | ⟨rfl | ⟨hc, -⟩, -⟩
  · exact hr (rim_subset_bytes hlarge hy)
  · simp [halloc] at hcfree
  · exact rims_subset_freeBytes hL ⟨c, ⟨hc, hcfree⟩, hy⟩

end Parts

/-- A block that is large enough to be split. -/
theorem placeBlock_run_split (hR : Represents h L) (hx : x ∈ L.blocks) (hfree : x.alloc = false)
    (n : Need) (hfit : n.bytes ≤ x.size) (hsplit : 32 ≤ x.size - n.bytes) :
    ∃ h', (placeBlock x.addr (BitVec.ofNat 64 n.bytes)).run h = .ok (payload x.addr, h') ∧
      Represents h' (L.place x n) ∧ SameExcept h h' (freeBytes L) := by
  have hL := hR.wellFormed
  have hxall : x ∈ L.all := WellFormed.mem_all_of_mem hx
  have hxtag := hR.tagged hxall
  obtain ⟨pre, post, hpre, hpost, hall⟩ := WellFormed.exists_around hx
  have hmid : Tiles Block.addr Block.stop x.addr [x] x.stop := ⟨rfl, rfl⟩
  obtain ⟨h₁, hpull, hS₁, hsame₁⟩ := hR.holds.pull (hL.mem_freeList hxall hfree)
  have hgone : x.addr ∉ L.freeList.erase x.addr := hL.nodup.not_mem_erase
  have hread := (hS₁.tagged x hxall).blockSize_run
  let u : Block := ⟨x.addr, n.bytes, true, n.aligned, n.sixteen_le⟩
  let r : Block := ⟨x.addr + n.bytes, x.size - n.bytes, false,
    by have := x.aligned; have := n.aligned; omega, by omega⟩
  have hur : u.stop = r.addr := rfl
  have hstop : r.stop = x.stop := by
    change x.addr + n.bytes + (x.size - n.bytes) = x.addr + x.size
    omega
  have hupos := u.addr_lt_stop
  have hrpos := r.addr_lt_stop
  have hustop : u.stop ≤ x.stop := hur.trans_le (hrpos.le.trans_eq hstop)
  have hxr : x.addr < r.addr := hupos.trans_eq hur
  let h₂ := setTags h₁ u.addr u.size u.alloc
  let h₃ := setTags h₂ r.addr r.size r.alloc
  have hS₂ : Holds h₂ (overwrite (blockSet L) u) (L.freeList.erase x.addr) :=
    holds_first_part hS₁ hxall hgone rfl hustop
  have hS₃ : Holds h₃ (overwrite (overwrite (blockSet L) u) r) (L.freeList.erase x.addr) :=
    holds_parts hS₁ hxall hgone rfl hur hstop
  have hu₃ : u ∈ overwrite (overwrite (blockSet L) u) r :=
    mem_overwrite_of_disjoint mem_overwrite_self (.inl hur.le)
  have hrnew := second_part_not_listed hS₁ hxall hgone hxr hstop
  obtain ⟨h₄, hinsert, hS₄, hsame₄⟩ := hS₃.insert mem_overwrite_self rfl hsplit hrnew
  have hset : overwrite (overwrite (blockSet L) u) r = {c | c ∈ pre ++ [u, r] ++ post} := by
    rw [overwrite_split (x := x) (u := u) rfl hur hstop]
    ext c
    have hiff := separate_iff (c := c) hL hall (by simp) hmid
    simp only [blockSet, Set.mem_ofPred_eq, hiff, List.mem_append, List.mem_cons,
      List.not_mem_nil, or_false]
    grind
  have hsame : SameExcept h h₄ (freeBytes L) := by
    have hu : bytes u ⊆ freeBytes L := bytes_subset_freeBytes hx hfree le_rfl hustop
    have hr : bytes r ⊆ freeBytes L := bytes_subset_freeBytes hx hfree hxr.le hstop.le
    have h₂₁ := sameExcept_setTags (h := h₁) (b := u.addr) u.large u.alloc
    have h₃₂ := sameExcept_setTags (h := h₂) (b := r.addr) r.large r.alloc
    have hlinks := hR.holds.linkBytes_subset_rims.trans (rims_subset_freeBytes hL)
    have hlinks₄ := hS₄.linkBytes_subset_rims.trans (rims_parts_subset hL rfl hsplit hr)
    have hfirst := (hsame₁.mono hlinks).trans (h₂₁.mono ((tagBytes_subset_bytes u).trans hu))
    have hsecond := (h₃₂.mono ((tagBytes_subset_bytes r).trans hr)).trans (hsame₄.mono hlinks₄)
    simpa using hfirst.trans hsecond
  refine ⟨h₄, ?_, ?_, hsame⟩
  · have hset₁ : (blockSetSizeAndAllocated x.addr (BitVec.ofNat 64 n.bytes) 1).run h₁ =
        .ok ((), h₂) :=
      blockSetSizeAndAllocated_run (h := h₁) u.aligned u.large n.small
        (hS₂.tagged u mem_overwrite_self).inHeap true
    have hset₂ : (blockSetSizeAndAllocated (x.addr + n.bytes) (BitVec.ofNat 64 (x.size - n.bytes))
        0).run h₂ = .ok ((), h₃) :=
      blockSetSizeAndAllocated_run (h := h₂) r.aligned r.large
        ((Nat.sub_le _ _).trans_lt hxtag.small) (hS₃.tagged r mem_overwrite_self).inHeap false
    have hnext₂ : (blockNext x.addr).run h₂ = .ok (x.addr + n.bytes, h₂) :=
      (hS₂.tagged u mem_overwrite_self).blockNext_run
    have hnext₃ : (blockNext x.addr).run h₃ = .ok (x.addr + n.bytes, h₃) :=
      (hS₃.tagged u hu₃).blockNext_run
    simp only [placeBlock, StateT.run_bind, hpull, ok_bind, hread, freeSize_eq hfit,
      if_pos ((splits_iff (n := n) hxtag.small).mpr hsplit), hset₁, hnext₂, hset₂, hnext₃]
    exact (congrArg (· >>= _) hinsert).trans rfl
  · have heq : L.place x n = { L with
        blocks := L.replace x [u, r]
        freeList := r.addr :: L.freeList.erase x.addr } := dif_pos hsplit
    have hplace := hL.place hx hfree n hfit
    rw [heq] at hplace ⊢
    exact hR.replace hall hpre hpost (by simp) hmid (hset ▸ hS₄) (.of_sameExcept hsame) hplace

/-- A block whose rest would be too small. -/
theorem placeBlock_run_whole (hR : Represents h L) (hx : x ∈ L.blocks) (hfree : x.alloc = false)
    (n : Need) (hfit : n.bytes ≤ x.size) (hsplit : ¬ 32 ≤ x.size - n.bytes) :
    ∃ h', (placeBlock x.addr (BitVec.ofNat 64 n.bytes)).run h = .ok (payload x.addr, h') ∧
      Represents h' (L.place x n) ∧ SameExcept h h' (freeBytes L) := by
  have hL := hR.wellFormed
  have hxall : x ∈ L.all := WellFormed.mem_all_of_mem hx
  obtain ⟨pre, post, hpre, hpost, hall⟩ := WellFormed.exists_around hx
  obtain ⟨h₁, hpull, hS₁, hsame₁⟩ := hR.holds.pull (hL.mem_freeList hxall hfree)
  have hxtag := hS₁.tagged x hxall
  let u : Block := { x with alloc := true }
  let h₂ := setTags h₁ u.addr u.size u.alloc
  have hS₂ : Holds h₂ (overwrite (blockSet L) u) (L.freeList.erase x.addr) :=
    hS₁.retag u hxtag.inHeap fun c hc hlisted =>
      separate_of_listed (x := x) hS₁ hxall hL.nodup.not_mem_erase hc hlisted
  have hset : overwrite (blockSet L) u = {c | c ∈ pre ++ [u] ++ post} :=
    overwrite_blockSet (m := u) hL hall (by simp) ⟨rfl, rfl⟩
  have hsame : SameExcept h h₂ (freeBytes L) := by
    have hlinks := hR.holds.linkBytes_subset_rims
    refine ((hsame₁.mono hlinks).trans (sameExcept_setTags u.large u.alloc)).mono ?_
    have hu : tagBytes u.addr u.size ⊆ bytes x := tagBytes_subset_bytes u
    refine Set.union_subset (rims_subset_freeBytes hL) ?_
    exact hu.trans fun y hy => ⟨x, hx, hfree, hy⟩
  refine ⟨h₂, ?_, ?_, hsame⟩
  · have hset₁ : (blockSetAllocated x.addr 1).run h₁ = .ok ((), h₂) :=
      hxtag.blockSetAllocated_run true
    simp only [placeBlock, StateT.run_bind, hpull, ok_bind, hxtag.blockSize_run, freeSize_eq hfit,
      if_neg (mt (splits_iff (n := n) hxtag.small).mp hsplit), hset₁]
    rfl
  · have heq : L.place x n = { L with
        blocks := L.replace x [u]
        freeList := L.freeList.erase x.addr } := dif_neg hsplit
    have hplace := hL.place hx hfree n hfit
    rw [heq] at hplace ⊢
    exact hR.replace hall hpre hpost (by simp) ⟨rfl, rfl⟩ (hset ▸ hS₂) (.of_sameExcept hsame)
      hplace

theorem placeBlock_run (hR : Represents h L) (hx : x ∈ L.blocks) (hfree : x.alloc = false)
    (n : Need) (hfit : n.bytes ≤ x.size) :
    ∃ h', (placeBlock x.addr (BitVec.ofNat 64 n.bytes)).run h = .ok (payload x.addr, h') ∧
      Represents h' (L.place x n) ∧ SameExcept h h' (freeBytes L) := by
  by_cases hsplit : 32 ≤ x.size - n.bytes
  · exact placeBlock_run_split hR hx hfree n hfit hsplit
  · exact placeBlock_run_whole hR hx hfree n hfit hsplit

end Place

section Search

variable {h : Heap} {L : Layout} {n : Need}

/-- One round of the search loop at a listed block. -/
theorem searchFreeList_succ_run (hR : Represents h L) {a : Nat} (ha : a ∈ L.freeList)
    (fuel : Nat) : (searchFreeList (BitVec.ofNat 64 n.bytes) (fuel + 1) a).run h =
      match fits L n a with
      | some x => (some <$> placeBlock x.addr (BitVec.ofNat 64 n.bytes)).run h
      | none =>
          if flink h a = h.flistFirst then .ok (none, h)
          else (searchFreeList (BitVec.ofNat 64 n.bytes) fuel (flink h a)).run h := by
  obtain ⟨b, hb, rfl, hfree, hat⟩ := hR.wellFormed.listed_block ha
  have htag := hR.tagged (WellFormed.mem_all_of_mem hb)
  have hnode := hR.holds.list.node b.addr ha
  have htest : (BitVec.ofNat 64 b.size).toInt ≥ (BitVec.ofNat 64 n.bytes).toInt ↔
      n.bytes ≤ b.size := by
    rw [toInt_ofNat_of_lt htag.small, toInt_ofNat_of_lt n.small]
    omega
  rw [searchFreeList, fits, if_neg hnode.ne_null, run_bind_of_ok htag.blockSize_run, hat]
  by_cases hle : n.bytes ≤ b.size
  · rw [if_pos (htest.mpr hle), Option.filter_some_pos (by simpa using hle)]
    rfl
  · rw [if_neg (mt htest.mp hle), Option.filter_some_neg (by simpa using hle),
      run_bind_of_ok hnode.blockFlink_run, run_bind_of_ok (run_getFlistFirst h)]
    split <;> rfl

/-- The walk from a listed block on, in terms of the rest of the list. -/
theorem searchFreeList_run (hR : Represents h L) {s t : List Nat} {a : Nat}
    (hsplit : L.freeList = s ++ a :: t) {fuel : Nat} (hfuel : t.length < fuel) :
    (searchFreeList (BitVec.ofNat 64 n.bytes) fuel a).run h =
      match (a :: t).findSome? (fits L n) with
      | none => .ok (none, h)
      | some x => (some <$> placeBlock x.addr (BitVec.ofNat 64 n.bytes)).run h := by
  have hlist := hR.holds.list
  rw [hsplit] at hlist
  induction t generalizing s a fuel with
  | nil =>
      obtain ⟨fuel, rfl⟩ := Nat.exists_eq_add_of_lt hfuel
      rw [searchFreeList_succ_run hR (by simp [hsplit]) _, List.findSome?_cons]
      rcases hfit : fits L n a with _ | x
      · exact if_pos hlist.flink_last
      · rfl
  | cons b t ih =>
      obtain ⟨fuel, rfl⟩ := Nat.exists_eq_add_of_lt (Nat.zero_lt_of_lt hfuel)
      obtain ⟨hnext, hne⟩ := hlist.flink_inner
      have hlt : t.length < fuel := by
        simp only [List.length_cons] at hfuel
        omega
      have hrest := ih (s := s ++ [a]) (a := b) (by simp [hsplit]) hlt (by simpa using hlist)
      rw [Nat.zero_add, searchFreeList_succ_run hR (by simp [hsplit]) _, List.findSome?_cons]
      rcases hfit : fits L n a with _ | x
      · rw [hnext]
        exact (if_neg hne).trans hrest
      · rfl

theorem searchFreeList_run_first (hR : Represents h L) :
    (searchFreeList (BitVec.ofNat 64 n.bytes) h.memHeapsize h.flistFirst).run h =
      match L.firstFit n with
      | none => .ok (none, h)
      | some x => (some <$> placeBlock x.addr (BitVec.ofNat 64 n.bytes)).run h := by
  have hfuel := hR.length_freeList_lt
  rw [hR.holds.list.first]
  change _ = match L.freeList.findSome? (fits L n) with
    | none => _
    | some x => _
  rcases hlist : L.freeList with _ | ⟨a, t⟩
  · obtain ⟨fuel, hsize⟩ := Nat.exists_eq_add_of_lt (Nat.zero_lt_of_lt hfuel)
    rw [hsize, Nat.zero_add]
    rfl
  · rw [hlist] at hfuel
    exact searchFreeList_run hR (s := []) hlist (Nat.lt_of_succ_lt hfuel)

end Search

section Malloc

variable {h : Heap} {L : Layout}

/-- `mem_sbrk` does not take what the conversion to `int` leaves of a request
for the request itself. -/
def SbrkExact (L : Layout) (n : Need) : Prop :=
  L.brk + n.bytes ≤ L.maxAddr ∨ sbrkArgument n.bytes < 0 ∨
    (L.maxAddr : Int) < L.brk + sbrkArgument n.bytes

/-- `mm_malloc(size)` stays inside the heap. -/
def MallocSafe (L : Layout) (size : Word) : Prop :=
  size = 0 ∨ (L.firstFit (need size)).isSome ∨ SbrkExact L (need size)

/-- What `mm_malloc` does on a represented heap. -/
theorem mmMalloc_run (hR : Represents h L) {size : Word} (hsafe : MallocSafe L size) :
    ∃ h', (mmMalloc size).run h = .ok ((L.malloc size).2, h') ∧
      Represents h' (L.malloc size).1 ∧ h'.arena = h.arena ∧ h'.moves = h.moves ∧
      (∀ c ∈ L.blocks, c.alloc = true → ∀ x ∈ bytes c, h'.memory x = h.memory x) ∧
      ((L.malloc size).2 = null → h' = h) := by
  have hL := hR.wellFormed
  by_cases hzero : size = 0
  · refine ⟨h, ?_, ?_, rfl, rfl, fun _ _ _ _ _ => rfl, fun _ => rfl⟩
    · rw [mmMalloc, if_pos hzero, Layout.malloc, if_pos hzero]
      rfl
    · rw [Layout.malloc, if_pos hzero]
      exact hR
  have hsearch := searchFreeList_run_first (n := need size) hR
  rw [Layout.malloc, if_neg hzero, mmMalloc, if_neg hzero, requestSize_eq,
    run_bind_of_ok (run_get h)]
  rcases hfit : L.firstFit (need size) with _ | x
  · rw [hfit] at hsearch
    rw [run_bind_of_ok hsearch]
    by_cases hroom : L.brk + (need size).bytes ≤ L.maxAddr
    · obtain ⟨h', hrun, hR', harena, hmoves, hmem⟩ := extendHeap_run hR (need size) hroom
      refine ⟨h', ?_, ?_, harena, hmoves, ?_, ?_⟩
      · simp only [if_pos hroom]
        exact hrun
      · simp only [if_pos hroom]
        exact hR'
      · intro c hc halloc x hx
        exact hmem x (hx.2.trans_le (hL.stop_le_top_of_mem hc))
      · simp only [if_pos hroom]
        intro hnull
        simp [null] at hnull
    · have hexact : SbrkExact L (need size) := by
        rcases hsafe with hsafe | hsafe | hsafe
        · exact absurd hsafe hzero
        · simp [hfit] at hsafe
        · exact hsafe
      refine ⟨h, ?_, ?_, rfl, rfl, fun _ _ _ _ _ => rfl, fun _ => rfl⟩
      · simp only [if_neg hroom]
        exact extendHeap_run_full hR (need size) (hexact.resolve_left hroom)
      · simp only [if_neg hroom]
        exact hR
  · obtain ⟨hx, hfree, hle⟩ := hL.firstFit_some hfit
    obtain ⟨h', hrun, hR', hsame⟩ := placeBlock_run hR hx hfree (need size) hle
    rw [hfit] at hsearch
    refine ⟨h', ?_, hR', hsame.arena, hsame.moves, ?_, ?_⟩
    · have hsome : (some <$> placeBlock x.addr (BitVec.ofNat 64 (need size).bytes)).run h =
          .ok (some (payload x.addr), h') := by
        rw [StateT.run_map, hrun]
        rfl
      rw [run_bind_of_ok (hsearch.trans hsome)]
      rfl
    · intro c hc halloc y hy
      exact hsame.memory y (not_mem_freeBytes hL (WellFormed.mem_all_of_mem hc) halloc hy)
    · intro hnull
      simp [null] at hnull

/-- The request was cut by the conversion to `int`, and the call does not return. -/
theorem mmMalloc_run_narrowed (hR : Represents h L) {size : Word} (hnot : ¬ MallocSafe L size) :
    (mmMalloc size).run h = .error (.outOfHeap (L.top + (need size).bytes - 8)) := by
  simp only [MallocSafe, SbrkExact, not_or, not_le, not_lt] at hnot
  obtain ⟨hzero, hfit, hroom, hpos, haccept⟩ := hnot
  have hnone : L.firstFit (need size) = none := by simpa using hfit
  have hsearch := searchFreeList_run_first (n := need size) hR
  rw [hnone] at hsearch
  rw [mmMalloc, if_neg hzero, requestSize_eq, run_bind_of_ok (run_get h), run_bind_of_ok hsearch]
  exact extendHeap_run_narrowed hR (need size) hroom hpos haccept

end Malloc

end MallocLab.Allocation
