import MallocLab.Failure

/-!
`mm_malloc` takes the first block of the free list that is large enough, splits
off what is left of it, and extends the heap only if there is none.
-/

namespace MallocLab.FirstFit

open MallocLab.Machine
open MallocLab.Mminline
open MallocLab.Mm
open MallocLab.AbstractLayout
open MallocLab.AbstractLayout.Layout
open MallocLab.Representation
open MallocLab.Allocation
open MallocLab.Traversal
open MallocLab.Runs
open MallocLab.Failure

/-- `x` is the first block on the free list that has at least `n` bytes. -/
def IsFirstFit (entries : List Entry) (freeList : List Nat) (n : Nat) (x : Entry) : Prop :=
  x ∈ entries ∧ n ≤ x.size.toNat ∧ ∃ before after, freeList = before ++ x.addr :: after ∧
    ∀ e ∈ entries, e.addr ∈ before → e.size.toNat < n

/-- No block on the free list has `n` bytes. -/
def NoFit (entries : List Entry) (freeList : List Nat) (n : Nat) : Prop :=
  ∀ e ∈ entries, e.addr ∈ freeList → e.size.toNat < n

/-- The free block `x` now is a block of `n` bytes and a free rest, or as a whole
allocated if the rest is too small. -/
def Placed (h' : Heap) (entries : List Entry) (freeList : List Nat) (n : Nat) (x : Entry) : Prop :=
  ∃ pre post, entries = pre ++ [x] ++ post ∧
    (n + 32 ≤ x.size.toNat ∧
        Shows h' (pre ++ [⟨x.addr, BitVec.ofNat 64 n, 1⟩,
            ⟨x.addr + n, BitVec.ofNat 64 (x.size.toNat - n), 0⟩] ++ post)
          ((x.addr + n) :: freeList.erase x.addr) ∨
      x.size.toNat < n + 32 ∧
        Shows h' (pre ++ [⟨x.addr, x.size, 1⟩] ++ post) (freeList.erase x.addr))

/-- A new block of `n` bytes stands where the epilogue was. -/
structure Extended (h h' : Heap) (entries : List Entry) (freeList : List Nat) (n : Nat) :
    Prop where
  memBrk : h'.memBrk = h.memBrk + n
  epilogue : h'.epilogue = h.epilogue + n
  shows : ∃ pre, entries = pre ++ [⟨h.epilogue, tagsSize, 1⟩] ∧
    Shows h' (pre ++ [⟨h.epilogue, BitVec.ofNat 64 n, 1⟩, ⟨h.epilogue + n, tagsSize, 1⟩]) freeList

section Layouts

variable {L : Layout} {b x : Block} {n : Need}

theorem place_all (hL : L.WellFormed) (hx : x ∈ L.blocks) (hfit : n.bytes ≤ x.size) :
    ∃ pre post, L.all = pre ++ [x] ++ post ∧
      ((n.bytes + 32 ≤ x.size ∧ ∃ u r : Block, u.addr = x.addr ∧ u.size = n.bytes ∧
          u.alloc = true ∧ r.addr = x.addr + n.bytes ∧ r.size = x.size - n.bytes ∧
          r.alloc = false ∧ (L.place x n).all = pre ++ [u, r] ++ post ∧
          (L.place x n).freeList = (x.addr + n.bytes) :: L.freeList.erase x.addr) ∨
        x.size < n.bytes + 32 ∧ (L.place x n).all = pre ++ [{ x with alloc := true }] ++ post ∧
          (L.place x n).freeList = L.freeList.erase x.addr) := by
  obtain ⟨pre, post, hpre, hpost, hall⟩ := WellFormed.exists_around hx
  have hmid : Tiling.Tiles Block.addr Block.stop x.addr [x] x.stop := ⟨rfl, rfl⟩
  refine ⟨pre, post, hall, ?_⟩
  unfold Layout.place
  split
  · rename_i hsplit
    let u : Block := ⟨x.addr, n.bytes, true, n.aligned, n.sixteen_le⟩
    let r : Block := ⟨x.addr + n.bytes, x.size - n.bytes, false,
      by have := x.aligned; have := n.aligned; omega, by omega⟩
    refine .inl ⟨by omega, u, r, rfl, rfl, rfl, rfl, rfl, rfl, ?_, rfl⟩
    exact hL.replace_all _ hall hpre hpost (by simp) hmid _
  · rename_i hsmall
    refine .inr ⟨by omega, ?_, rfl⟩
    exact hL.replace_all _ hall hpre hpost (by simp) hmid _

theorem fits_eq_some (hL : L.WellFormed) (hb : b ∈ L.blocks) (hfit : n.bytes ≤ b.size) :
    fits L n b.addr = some b := by
  rw [fits, hL.blockAt_addr hb]
  exact Option.filter_some_pos (by simpa using hfit)

theorem fits_eq_none (hL : L.WellFormed) (hb : b ∈ L.blocks) (hsmall : b.size < n.bytes) :
    fits L n b.addr = none := by
  rw [fits, hL.blockAt_addr hb]
  exact Option.filter_some_neg (by simpa using hsmall)

theorem firstFit_of_split (hL : L.WellFormed) (hx : x ∈ L.blocks) (hfit : n.bytes ≤ x.size)
    {before after : List Nat} (hsplit : L.freeList = before ++ x.addr :: after)
    (hbefore : ∀ b ∈ L.blocks, b.addr ∈ before → b.size < n.bytes) :
    L.firstFit n = some x := by
  have hnone : before.findSome? (fits L n) = none := by
    apply List.findSome?_eq_none_iff.mpr
    intro a ha
    have hlisted : a ∈ L.freeList := hsplit ▸ List.mem_append_left _ ha
    obtain ⟨b, hb, rfl, -, -⟩ := hL.listed_block hlisted
    exact fits_eq_none hL hb (hbefore b hb ha)
  change L.freeList.findSome? (fits L n) = some x
  rw [hsplit, List.findSome?_append, hnone, List.findSome?_cons, fits_eq_some hL hx hfit]
  rfl

end Layouts

section Represented

variable {h h' : Heap} {L L' : Layout} {b : Block} {size : Word} {n : Need} {e : Entry}

/-- A listed entry belongs to a free block between prologue and epilogue. -/
theorem listed_entry (hR : Represents h L) (he : e ∈ L.all.map entry) (hlisted : e.addr ∈ L.freeList) :
    ∃ b ∈ L.blocks, entry b = e ∧ b.alloc = false ∧ e.size.toNat = b.size := by
  have hL := hR.wellFormed
  obtain ⟨b, hb, rfl⟩ := List.mem_map.mp he
  obtain ⟨c, hc, haddr, hfree, -⟩ := hL.listed_block hlisted
  obtain rfl : c = b := hL.eq_of_addr_eq (WellFormed.mem_all_of_mem hc) hb haddr
  exact ⟨c, hc, rfl, hfree, toNat_size hR hb⟩

theorem firstFit_of_isFirstFit (hR : Represents h L)
    (hfirst : IsFirstFit (L.all.map entry) L.freeList n.bytes e) :
    ∃ x ∈ L.blocks, entry x = e ∧ x.alloc = false ∧ n.bytes ≤ x.size ∧ L.firstFit n = some x := by
  obtain ⟨he, hfit, before, after, hsplit, hbefore⟩ := hfirst
  have hlisted : e.addr ∈ L.freeList := by
    rw [hsplit]
    simp
  obtain ⟨x, hx, rfl, hfree, hsize⟩ := listed_entry hR he hlisted
  rw [hsize] at hfit
  refine ⟨x, hx, rfl, hfree, hfit, firstFit_of_split hR.wellFormed hx hfit hsplit ?_⟩
  intro b hb ha
  have hball := WellFormed.mem_all_of_mem hb
  have hsmall := hbefore (entry b) (List.mem_map_of_mem hball) ha
  exact (toNat_size hR hball).symm.trans_lt hsmall

theorem noFit_iff (hR : Represents h L) :
    NoFit (L.all.map entry) L.freeList n.bytes ↔ L.firstFit n = none := by
  have hL := hR.wellFormed
  rw [hL.firstFit_none_iff]
  constructor
  · intro hnone b hb hfree
    have hball := WellFormed.mem_all_of_mem hb
    have hsmall := hnone (entry b) (List.mem_map_of_mem hball) (hL.mem_freeList hball hfree)
    exact (toNat_size hR hball).symm.trans_lt hsmall
  · intro hsmall e he hlisted
    obtain ⟨b, hb, rfl, hfree, hsize⟩ := listed_entry hR he hlisted
    rw [hsize]
    exact hsmall b hb hfree

/-- The walk over the free list needs no more rounds than the list has blocks. -/
theorem searchFreeList_terminates (hR : Represents h L) {fuel : Nat} (hpos : 0 < fuel)
    (hfuel : L.freeList.length ≤ fuel) :
    ∃ r, (searchFreeList (BitVec.ofNat 64 n.bytes) fuel h.flistFirst).run h = .ok r := by
  have hL := hR.wellFormed
  rw [hR.holds.list.first]
  rcases hlist : L.freeList with _ | ⟨a, t⟩
  · obtain ⟨fuel, rfl⟩ := Nat.exists_eq_add_of_lt hpos
    rw [Nat.zero_add]
    exact ⟨_, rfl⟩
  · rw [hlist] at hfuel
    rw [List.headD_cons, searchFreeList_run hR (s := []) hlist hfuel]
    rw [← hlist]
    rcases hfit : L.freeList.findSome? (fits L n) with _ | x
    · exact ⟨_, rfl⟩
    · obtain ⟨hx, hfree, hle⟩ := hL.firstFit_some hfit
      obtain ⟨h', hrun, -⟩ := placeBlock_run hR hx hfree n hle
      refine ⟨(some (payload x.addr), h'), ?_⟩
      show (some <$> placeBlock x.addr (BitVec.ofNat 64 n.bytes)).run h = _
      rw [StateT.run_map, hrun]
      rfl

theorem placed_of_represents {x : Block} (hR : Represents h L) (hx : x ∈ L.blocks)
    (hfit : n.bytes ≤ x.size) (hR' : Represents h' (L.place x n)) :
    Placed h' (L.all.map entry) L.freeList n.bytes (entry x) := by
  obtain ⟨pre, post, hall, hcases⟩ := place_all hR.wellFormed hx hfit
  have hsize : (entry x).size.toNat = x.size := toNat_size hR (WellFormed.mem_all_of_mem hx)
  have hshows := shows_layout hR'
  refine ⟨pre.map entry, post.map entry, by simp [hall], ?_⟩
  rw [hsize]
  rcases hcases with ⟨hroom, u, r, hu, husize, hualloc, hr, hrsize, hralloc, hall', hfree⟩ |
    ⟨hsmall, hall', hfree⟩
  · left
    have hused : entry u = ⟨x.addr, BitVec.ofNat 64 n.bytes, 1⟩ := by
      rw [entry, hu, husize, hualloc]
      rfl
    have hrest : entry r = ⟨x.addr + n.bytes, BitVec.ofNat 64 (x.size - n.bytes), 0⟩ := by
      rw [entry, hr, hrsize, hralloc]
      rfl
    rw [hall', hfree] at hshows
    simp only [List.map_append, List.map_cons, List.map_nil, hused, hrest] at hshows
    exact ⟨hroom, hshows⟩
  · right
    rw [hall', hfree] at hshows
    simp only [List.map_append, List.map_cons, List.map_nil] at hshows
    exact ⟨hsmall, hshows⟩

theorem extended_of_represents (hR : Represents h L) (hR' : Represents h' (L.extend n)) :
    Extended h h' (L.all.map entry) L.freeList n.bytes := by
  have hshows := shows_layout hR'
  rw [WellFormed.extend_all] at hshows
  constructor
  · rw [hR'.memBrk, hR.memBrk]
    change L.top + n.bytes + 16 = L.top + 16 + n.bytes
    omega
  · rw [hR'.epilogue, hR.epilogue]
    rfl
  · refine ⟨(L.prologue :: L.blocks).map entry, ?_, ?_⟩
    · rw [hR.epilogue, Layout.all, List.map_append]
      rfl
    · rw [hR.epilogue]
      simp only [List.map_append] at hshows
      exact hshows

end Represented

/-- `mm_malloc` is first fit over the free list. -/
theorem malloc_first_fit {cfg : Config} (hreach : Reachable IntCalls cfg) {size : Word}
    (hpos : 0 < size.toInt) (hint : size.toInt ≤ 2 ^ 31 - 1) :
    ∃ (n : Nat) (entries : List Entry) (freeList : List Nat), (n : Int) = neededBytes size ∧
      Shows cfg.heap entries freeList ∧
      (∀ fuel, 0 < fuel → freeList.length ≤ fuel →
        ∃ r, (searchFreeList (requestSize size) fuel cfg.heap.flistFirst).run cfg.heap = .ok r) ∧
      (∀ x, IsFirstFit entries freeList n x →
        ∃ h', (mmMalloc size).run cfg.heap = .ok (x.addr + 8, h') ∧
          h'.memBrk = cfg.heap.memBrk ∧ h'.epilogue = cfg.heap.epilogue ∧
          Placed h' entries freeList n x) ∧
      (NoFit entries freeList n → cfg.heap.memBrk + n ≤ cfg.heap.memMaxAddr →
        ∃ h', (mmMalloc size).run cfg.heap = .ok (cfg.heap.epilogue + 8, h') ∧
          Extended cfg.heap h' entries freeList n) := by
  obtain ⟨L, hI⟩ := hreach.invariant served_intCalls
  have hR := hI.represents
  have hzero : size ≠ 0 := by
    rintro rfl
    exact absurd hpos (by decide)
  have hlt : size.toInt < 2 ^ 31 := by omega
  obtain ⟨h', hrun, hR', -⟩ := mmMalloc_run hR (mallocServes_of_lt hlt).1
  refine ⟨(need size).bytes, L.all.map entry, L.freeList, (neededBytes_eq size).symm,
    shows_layout hR, ?_, ?_, ?_⟩
  · intro fuel hfuel hlen
    rw [requestSize_eq]
    exact searchFreeList_terminates hR hfuel hlen
  · intro e he
    obtain ⟨x, hx, rfl, hfree, hfit, hfirst⟩ := firstFit_of_isFirstFit hR he
    have hmalloc : L.malloc size = (L.place x (need size), x.addr + 8) := by
      rw [Layout.malloc, if_neg hzero, hfirst]
    have htop := L.place_top x (need size)
    rw [hmalloc] at hrun hR'
    refine ⟨h', hrun, ?_, ?_, placed_of_represents hR hx hfit hR'⟩
    · rw [hR'.memBrk, hR.memBrk, Layout.brk, htop]
      rfl
    · rw [hR'.epilogue, hR.epilogue, htop]
  · intro hnofit hroom
    have hmax := hR.memMaxAddr_eq
    have hmalloc : L.malloc size = (L.extend (need size), L.top + 8) := by
      rw [Layout.malloc, if_neg hzero, (noFit_iff hR).mp hnofit]
      refine if_pos ?_
      rw [← hR.memBrk, ← hmax]
      exact hroom
    rw [hmalloc] at hrun hR'
    rw [hR.epilogue]
    exact ⟨h', hrun, extended_of_represents hR hR'⟩

/-- The free block of 40 bytes is taken whole for 20 bytes, and a request for 40
extends the heap. -/
theorem malloc_first_fit_sample :
    (∃ h', (mmMalloc 20).run sampleHeap = .ok (4120, h') ∧ h'.memBrk = sampleHeap.memBrk) ∧
    ∃ h', (mmMalloc 40).run sampleHeap = .ok (4248, h') ∧
      h'.memBrk = sampleHeap.memBrk + 56 := by
  have hR := sample_run.2.represents
  constructor
  · obtain ⟨n, entries, freeList, hn, hshows, -, hfit, -⟩ := malloc_first_fit
      sample_reachable_int (show 0 < (20 : Word).toInt by decide) (by decide)
    obtain ⟨rfl, rfl⟩ := hshows.unique (shows_layout hR)
    obtain rfl : n = 40 := Nat.cast_injective (R := Int) (hn.trans (by decide))
    have hfirst : IsFirstFit (sampleLayout.all.map entry) sampleLayout.freeList 40
        ⟨4112, 40, 0⟩ := by
      refine ⟨by decide, by decide, [], [], by decide, ?_⟩
      intro e _ hbefore
      cases hbefore
    obtain ⟨h', hrun, hbrk, -⟩ := hfit _ hfirst
    exact ⟨h', hrun, hbrk⟩
  · obtain ⟨n, entries, freeList, hn, hshows, -, -, hextend⟩ := malloc_first_fit
      sample_reachable_int (show 0 < (40 : Word).toInt by decide) (by decide)
    obtain ⟨rfl, rfl⟩ := hshows.unique (shows_layout hR)
    obtain rfl : n = 56 := Nat.cast_injective (R := Int) (hn.trans (by decide))
    have hroom : sampleHeap.memBrk + 56 ≤ sampleHeap.memMaxAddr := by
      have hmax : sampleHeap.memMaxAddr = sampleLayout.maxAddr := congrArg (· + maxHeap) hR.base
      rw [hmax, hR.memBrk]
      decide
    obtain ⟨h', hrun, hextended⟩ := hextend (by unfold NoFit; decide) hroom
    rw [hR.epilogue] at hrun
    exact ⟨h', hrun, hextended.memBrk⟩

end MallocLab.FirstFit
