import MallocLab.FirstFit
import MallocLab.RepeatedFrees

/-!
`mm_free` merges a block with its free neighbours and with nothing else, so that
it takes back exactly what `mm_malloc` took from the free list.
-/

namespace MallocLab.MergedFrees

open MallocLab.Machine
open MallocLab.Mm
open MallocLab.HeapPrograms
open MallocLab.AbstractLayout
open MallocLab.AbstractLayout.Layout
open MallocLab.Representation
open MallocLab.Allocation
open MallocLab.Traversal
open MallocLab.Runs
open MallocLab.FirstFit
open MallocLab.RepeatedFrees

/-- `run` is the block of `p` with the free blocks next to it. -/
structure FreeRun (pre run post : List Entry) (p : Nat) : Prop where
  block : ∃ before b after, run = before ++ [b] ++ after ∧ b.addr + 8 = p ∧
    before.length ≤ 1 ∧ after.length ≤ 1 ∧ ∀ e ∈ before ++ after, e.allocated = 0
  maximal : (∀ e ∈ pre.getLast?, e.allocated ≠ 0) ∧ ∀ e ∈ post.head?, e.allocated ≠ 0

/-- The entries of `run` have become the free block `m`. -/
structure Merged (h' : Heap) (run : List Entry) (m : Entry) : Prop where
  free : m.allocated = 0
  addr : ∀ e ∈ run.head?, m.addr = e.addr
  size : m.size.toNat = (run.map fun e => e.size.toNat).sum
  tags : h'.word m.addr = h'.word (m.stop - 8)

/-- The payload of `e` is the same in both heaps, except for links. -/
def KeepsPayload (h h' : Heap) (e : Entry) : Prop :=
  ∀ x, e.addr + 8 ≤ x → x < e.stop - 8 → (e.allocated = 0 → e.addr + 24 ≤ x) →
    h'.memory x = h.memory x

section Layouts

variable {L : Layout} {b x : Block} {n : Need}

theorem unlist_eq_filter {free : List Nat} (hnodup : free.Nodup) (o : Option Block) :
    unlist free o = free.filter fun a => a ∉ (o.toList.map Block.addr) := by
  cases o with
  | none => simp [unlist]
  | some c =>
      rw [unlist, hnodup.erase_eq_filter]
      refine List.filter_congr fun a _ => ?_
      rw [bne, beq_eq_decide]
      simp

theorem release_freeList (hL : L.WellFormed) (hb : b ∈ L.allocated) :
    (L.release b).freeList = (b.absorb (L.freeBefore b) (L.freeAfter b) false).addr ::
      L.freeList.filter fun a =>
        a ∉ ((L.freeBefore b).toList ++ b :: (L.freeAfter b).toList).map Block.addr := by
  have hbefore := unlist_eq_filter hL.nodup (L.freeBefore b)
  have hafter := unlist_eq_filter (hL.nodup.filter fun a =>
    a ∉ ((L.freeBefore b).toList.map Block.addr)) (L.freeAfter b)
  change _ :: unlist (unlist L.freeList (L.freeBefore b)) (L.freeAfter b) = _
  rw [hbefore, hafter, List.filter_filter]
  congr 1
  refine List.filter_congr fun a ha => ?_
  -- an allocated block is not on the free list
  have hne : a ≠ b.addr := by
    rintro rfl
    exact hL.not_mem_freeList hb.1 hb.2 ha
  simp only [List.map_append, List.map_cons, List.mem_append, List.mem_cons]
  grind

/-- The released block is the free block it was a part of. -/
theorem absorb_eq (hL : L.WellFormed) (hx : x ∈ L.all) {u : Block} {before after : Option Block}
    (hbefore : ∀ p ∈ before, p.stop = u.addr) (haddr : u.addr = x.addr)
    (hmem : u.absorb before after false ∈ L.all) :
    before = none ∧ u.size + after.elim 0 Block.size = x.size := by
  have hxpos := x.addr_lt_stop
  have hupos := u.large
  have hw : (u.absorb before after false).addr ≤ u.addr ∧
      u.addr < (u.absorb before after false).stop := by
    unfold Block.stop
    rcases before with _ | p
    · change u.addr ≤ u.addr ∧ u.addr < u.addr + (0 + u.size + _)
      omega
    · have hstop := hbefore p rfl
      unfold Block.stop at hstop
      change p.addr ≤ u.addr ∧ u.addr < p.addr + (p.size + u.size + _)
      omega
  have heq : u.absorb before after false = x := by
    rcases hL.eq_or_disjoint hmem hx with heq | hd | hd
    · exact heq
    · omega
    · omega
  rcases before with _ | p
  · refine ⟨rfl, ?_⟩
    have hsize := congrArg Block.size heq
    change 0 + u.size + _ = x.size at hsize
    omega
  · have hstop := hbefore p rfl
    have hpos := p.addr_lt_stop
    have hstart := congrArg Block.addr heq
    change p.addr = x.addr at hstart
    omega

/-- The block that is allocated for a request is the one that a release merges
back to the free block it was taken from. -/
theorem release_place (hL : L.WellFormed) (hx : x ∈ L.blocks) (hfree : x.alloc = false)
    (hfit : n.bytes ≤ x.size) : ∃ u ∈ (L.place x n).allocated, u.addr = x.addr ∧
      ((L.place x n).release u).all = L.all ∧
      ((L.place x n).release u).freeList = x.addr :: L.freeList.erase x.addr := by
  have hL' := hL.place hx hfree n hfit
  obtain ⟨u, haddr, hu⟩ := hL.granted_place hx hfree hfit
  have hmem : u ∈ (L.place x n).allocated := hu.allocated ▸ Set.mem_insert u _
  have hrelease := hL'.release hmem.1 hmem.2
  have hnew : u ∉ L.allocated := by
    intro hold
    have hpos := u.addr_lt_stop
    have hsep := hu.fresh u hold
    omega
  have hset : ((L.place x n).release u).allocated = L.allocated := by
    rw [hL'.allocated_release hmem.1, hu.allocated, Set.insert_sdiff_self_of_notMem hnew]
  have hall := all_eq hrelease hL (L.place_start x n) (L.place_top x n) hset
  refine ⟨u, hmem, haddr, hall, ?_⟩
  have hw : u.absorb ((L.place x n).freeBefore u) ((L.place x n).freeAfter u) false ∈ L.all :=
    hall ▸ WellFormed.mem_all_of_mem ((mem_release_iff hL' hmem.1).mpr (.inl rfl))
  obtain ⟨hbefore, hsize⟩ := absorb_eq hL (WellFormed.mem_all_of_mem hx)
    (fun p hp => (free_of_freeBefore hp).2) haddr hw
  have hlist : ((L.place x n).release u).freeList =
      u.addr :: unlist (L.place x n).freeList ((L.place x n).freeAfter u) := by
    simp only [Layout.release, hbefore, Block.absorb, unlist, Option.getD_none]
  rw [hlist, haddr]
  congr 1
  obtain ⟨pre, post, -, hcases⟩ := place_all hL hx hfit
  have hsame : ∀ v ∈ (L.place x n).all, v.addr = x.addr → v = u := fun v hv hva =>
    hL'.eq_of_addr_eq hv (WellFormed.mem_all_of_mem hmem.1) (hva.trans haddr.symm)
  rcases hcases with ⟨hroom, v, r, hv, hvsize, -, -, -, -, hall', hfreeList⟩ |
    ⟨hsmall, hall', hfreeList⟩
  · obtain rfl : v = u := hsame v (by simp [hall']) hv
    rcases hafter : (L.place x n).freeAfter v with _ | r'
    · rw [hafter, Option.elim_none] at hsize
      have hlarge := n.large
      omega
    · have hstop := (free_of_freeAfter hafter).2
      unfold Block.stop at hstop
      rw [unlist, hfreeList, ← hstop, haddr, hvsize, List.erase_cons_head]
  · obtain rfl : { x with alloc := true } = u := hsame _ (by simp [hall']) rfl
    rcases hafter : (L.place x n).freeAfter { x with alloc := true } with _ | r'
    · rw [unlist, hfreeList]
    · rw [hafter, Option.elim_some] at hsize
      have hlarge := r'.large
      change x.size + r'.size = x.size at hsize
      omega

end Layouts

section Represented

variable {h h' : Heap} {L : Layout} {b c : Block} {before after : Option Block}
  {pre post : List Block}

theorem sum_size (hR : Represents h L) {l : List Block} (hl : ∀ c ∈ l, c ∈ L.all) :
    (((l.map entry).map fun e => e.size.toNat).sum) = (l.map Block.size).sum := by
  rw [List.map_map]
  congr 1
  apply List.map_congr_left
  intro c hc
  exact toNat_size hR (hl c hc)

theorem word_eq_endTag (hR : Represents h L) (hb : b ∈ L.all) :
    h.word (entry b).addr = h.word ((entry b).stop - 8) := by
  have ht := hR.tagged hb
  rw [stop_entry hR hb]
  exact ht.header.trans ht.endTag.symm

/-- Links, the freed block and the tags of the joined one are all that changes. -/
theorem keepsPayload (hR : Represents h L) (hb : b ∈ L.allocated)
    (hR' : Represents h' (L.release b)) (hsame : SameExcept h h' (writtenByFree L b))
    (hc : c ∈ L.all) (hc' : c ∈ (L.release b).all) (hne : c ≠ b)
    (hnew : c ≠ b.absorb (L.freeBefore b) (L.freeAfter b) false) :
    KeepsPayload h h' (entry c) := by
  have hL := hR.wellFormed
  intro x hlo hhi hlinks
  rw [stop_entry hR hc] at hhi
  change c.addr + 8 ≤ x at hlo
  change _ → c.addr + 24 ≤ x at hlinks
  have hxc : x ∈ bytes c := ⟨by omega, by omega⟩
  refine hsame.memory x fun hx => ?_
  rcases writtenByFree_cases hL hb.1 hx with ⟨a, hlisted, halo, hahi⟩ | hxb | hxw
  · obtain ⟨d, hd, rfl, hfree, -⟩ := hL.listed_block hlisted
    rcases Decidable.em (c = d) with rfl | hcd
    · have hbound := hlinks (by rw [entry, hfree]; rfl)
      omega
    · have hlarge := hL.large d hd
      refine not_mem_bytes hL hc (WellFormed.mem_all_of_mem hd) hcd hxc ⟨by omega, ?_⟩
      unfold Block.stop
      omega
  · exact not_mem_bytes hL hc (WellFormed.mem_all_of_mem hb.1) hne hxc hxb
  · have hw := WellFormed.mem_all_of_mem ((mem_release_iff hL hb.1).mpr (.inl rfl))
    exact not_mem_bytes hR'.wellFormed hc' hw hnew hxc (tagBytes_subset_bytes _ hxw)

theorem freeRun (hall : L.all = pre ++ (before.toList ++ b :: after.toList) ++ post)
    (hbefore : ∀ p ∈ before, p.alloc = false) (hafter : ∀ n ∈ after, n.alloc = false)
    (hpre : ∀ p ∈ pre.getLast?, p.alloc = true) (hpost : ∀ n ∈ post.head?, n.alloc = true) :
    FreeRun (pre.map entry) ((before.toList ++ b :: after.toList).map entry) (post.map entry)
      (b.addr + 8) := by
  constructor
  · refine ⟨before.toList.map entry, entry b, after.toList.map entry, by simp, rfl, ?_, ?_, ?_⟩
    · cases before <;> simp
    · cases after <;> simp
    · intro e he
      rw [← List.map_append] at he
      obtain ⟨c, hc, rfl⟩ := List.mem_map.mp he
      have hfree : c.alloc = false := by
        rcases List.mem_append.mp hc with hc | hc
        · exact hbefore c (Option.mem_toList.mp hc)
        · exact hafter c (Option.mem_toList.mp hc)
      rw [entry, hfree]
      rfl
  · constructor
    · intro e he
      rw [List.getLast?_map] at he
      obtain ⟨p, hp, rfl⟩ := Option.map_eq_some_iff.mp he
      exact allocated_entry_iff.mpr (hpre p hp)
    · intro e he
      rw [List.head?_map] at he
      obtain ⟨n, hn, rfl⟩ := Option.map_eq_some_iff.mp he
      exact allocated_entry_iff.mpr (hpost n hn)

theorem merged (hR : Represents h L) (hR' : Represents h' (L.release b))
    (hm : b.absorb before after false ∈ (L.release b).all)
    (hrun : ∀ c ∈ before.toList ++ b :: after.toList, c ∈ L.all) :
    Merged h' ((before.toList ++ b :: after.toList).map entry)
      (entry (b.absorb before after false)) := by
  constructor
  · rfl
  · intro e he
    rw [List.head?_map] at he
    obtain ⟨c, hc, rfl⟩ := Option.map_eq_some_iff.mp he
    rcases before with _ | p
    · obtain rfl := Option.some.inj hc
      rfl
    · obtain rfl := Option.some.inj hc
      rfl
  · rw [sum_size hR hrun]
    refine (toNat_size hR' hm).trans ?_
    rcases before with _ | p <;> rcases after with _ | n <;> simp [Block.absorb, add_assoc]
  · exact word_eq_endTag hR' hm

end Represented

/-- `mm_free` joins the block of `p` with its free neighbours to one free block,
which becomes the head of the free list, and leaves all others alone. -/
theorem free_merges {cfg : Config} (hreach : Reachable IntCalls cfg) {p : Nat} {size : Word}
    (hlive : (p, size) ∈ cfg.live) :
    ∃ h' pre run post m freeList, (mmFree p).run cfg.heap = .ok ((), h') ∧
      Shows cfg.heap (pre ++ run ++ post) freeList ∧ FreeRun pre run post p ∧ Merged h' run m ∧
      Shows h' (pre ++ [m] ++ post)
        (m.addr :: freeList.filter fun a => a ∉ run.map Entry.addr) ∧
      (∀ e ∈ pre ++ post, KeepsPayload cfg.heap h' e) ∧ SameBounds cfg.heap h' := by
  obtain ⟨L, hI⟩ := hreach.invariant served_intCalls
  have hR := hI.represents
  have hL := hR.wellFormed
  obtain ⟨b, hb, rfl, -⟩ := hI.block_of_live hlive
  obtain ⟨h', hfree, hR', hsame, -⟩ := hR.mmFree hb.1 hb.2
  obtain ⟨pre, post, hpre, hpost, hall, hlast, hhead⟩ := hL.neighbourhood hb.1
    (L.freeBefore b) (L.freeAfter b) (.inr rfl) (.inr rfl)
  obtain ⟨s, e, hmid⟩ := hL.tiles_middle hall
  have hjoined := WellFormed.tiles_absorb false hmid
  have hall' : (L.release b).all =
      pre ++ [b.absorb (L.freeBefore b) (L.freeAfter b) false] ++ post :=
    hL.replace_all _ hall hpre hpost (by simp) hjoined _
  have hm : b.absorb (L.freeBefore b) (L.freeAfter b) false ∈ (L.release b).all := by
    simp [hall']
  have hrun : ∀ c ∈ (L.freeBefore b).toList ++ b :: (L.freeAfter b).toList, c ∈ L.all := by
    intro c hc
    rw [hall]
    exact List.mem_append_left _ (List.mem_append_right _ hc)
  have haddrs : ∀ l : List Block, (l.map entry).map Entry.addr = l.map Block.addr := by
    intro l
    rw [List.map_map]
    rfl
  have hmap : ∀ l : List Block, (pre ++ l ++ post).map entry =
      pre.map entry ++ l.map entry ++ post.map entry := by
    intro l
    rw [List.map_append, List.map_append]
  have hbefore := shows_layout hR
  have hafter := shows_layout hR'
  rw [hall, hmap] at hbefore
  rw [hall', release_freeList hL hb, hmap, ← haddrs] at hafter
  refine ⟨h', pre.map entry, _, post.map entry, _, L.freeList, hfree, hbefore,
    freeRun hall (fun p hp => (free_of_freeBefore hp).1) (fun n hn => (free_of_freeAfter hn).1)
      (hlast rfl) (hhead rfl),
    merged hR hR' hm hrun, hafter, ?_, .of_sameExcept hsame⟩
  intro e he
  rw [← List.map_append] at he
  obtain ⟨c, hc, rfl⟩ := List.mem_map.mp he
  have hc' := List.mem_append.mp hc
  have hnodup := hL.nodup_all
  have hnodup' := hR'.wellFormed.nodup_all
  rw [hall] at hnodup
  rw [hall'] at hnodup'
  refine keepsPayload hR hb hR' hsame ?_ ?_ ?_ ?_
  · rw [hall]
    simp only [List.mem_append]
    tauto
  · rw [hall']
    simp only [List.mem_append]
    tauto
  · rintro rfl
    grind
  · rintro rfl
    grind

/-- The block at 4152 is merged with the free block before it. -/
theorem free_merges_sample : ∃ h' pre run post m freeList,
    (mmFree 4160).run sampleHeap = .ok ((), h') ∧ Shows sampleHeap (pre ++ run ++ post) freeList ∧
      FreeRun pre run post 4160 ∧ Merged h' run m ∧
      Shows h' (pre ++ [m] ++ post)
        (m.addr :: freeList.filter fun a => a ∉ run.map Entry.addr) := by
  have hlive : ((4160, 40) : Nat × Word) ∈ (⟨sampleHeap, sampleLive⟩ : Config).live := by decide
  obtain ⟨h', pre, run, post, m, freeList, hfree, hshows, hrun, hmerged, hshows', -⟩ :=
    free_merges sample_reachable_int hlive
  exact ⟨h', pre, run, post, m, freeList, hfree, hshows, hrun, hmerged, hshows'⟩

/-- What `mm_malloc` took from the free list goes back to it: the blocks and
their tags are the same as before, and only the order of the list is new. -/
theorem malloc_free_identity {cfg : Config} (hreach : Reachable IntCalls cfg) {size : Word}
    (hpos : 0 < size.toInt) (hint : size.toInt ≤ 2 ^ 31 - 1) {q : Nat} {h₁ : Heap}
    (hrun : (mmMalloc size).run cfg.heap = .ok (q, h₁)) (hne : q ≠ null)
    (hbrk : h₁.memBrk = cfg.heap.memBrk) :
    ∃ h₂ entries freeList x, (mmFree q).run h₁ = .ok ((), h₂) ∧ x ∈ freeList ∧ q = x + 8 ∧
      Shows cfg.heap entries freeList ∧ Shows h₂ entries (x :: freeList.erase x) ∧
      ∀ e ∈ entries, h₂.word e.addr = cfg.heap.word e.addr ∧
        h₂.word (e.stop - 8) = cfg.heap.word (e.stop - 8) := by
  obtain ⟨L, hI⟩ := hreach.invariant served_intCalls
  have hR := hI.represents
  have hL := hR.wellFormed
  have hzero : size ≠ 0 := by
    rintro rfl
    exact absurd hpos (by decide)
  have hlt : size.toInt < 2 ^ 31 := by omega
  obtain ⟨h₁', hrun', hR₁, -⟩ := mmMalloc_run hR (mallocServes_of_lt hlt).1
  obtain ⟨rfl, rfl⟩ := Prod.mk.inj (Except.ok.inj (hrun'.symm.trans hrun))
  rcases hfirst : L.firstFit (need size) with _ | x
  · -- the block would be new, and the break would have moved
    rcases Decidable.em (L.brk + (need size).bytes ≤ L.maxAddr) with hroom | hfull
    · have hmalloc : L.malloc size = (L.extend (need size), L.top + 8) := by
        rw [Layout.malloc, if_neg hzero, hfirst]
        exact if_pos hroom
      rw [hmalloc] at hR₁
      rw [hR₁.memBrk, hR.memBrk] at hbrk
      change L.top + (need size).bytes + 16 = L.top + 16 at hbrk
      have hlarge := (need size).large
      omega
    · have hmalloc : L.malloc size = (L, null) := by
        rw [Layout.malloc, if_neg hzero, hfirst]
        exact if_neg hfull
      rw [hmalloc] at hne
      exact absurd rfl hne
  · obtain ⟨hx, hfree, hfit⟩ := hL.firstFit_some hfirst
    have hmalloc : L.malloc size = (L.place x (need size), x.addr + 8) := by
      rw [Layout.malloc, if_neg hzero, hfirst]
    rw [hmalloc] at hR₁ ⊢
    obtain ⟨u, hu, haddr, hall, hlist⟩ := release_place hL hx hfree hfit
    obtain ⟨h₂, hrun₂, hR₂, -⟩ := hR₁.mmFree hu.1 hu.2
    have hshows := shows_layout hR₂
    rw [hall, hlist] at hshows
    rw [haddr] at hrun₂
    refine ⟨h₂, _, _, x.addr, hrun₂, hL.mem_freeList (WellFormed.mem_all_of_mem hx) hfree, rfl,
      shows_layout hR, hshows, ?_⟩
    intro e he
    obtain ⟨b, hb, rfl⟩ := List.mem_map.mp he
    have ht := hR.tagged hb
    have ht₂ := hR₂.tagged (hall.symm ▸ hb)
    rw [stop_entry hR hb]
    exact ⟨ht₂.header.trans ht.header.symm, ht₂.endTag.trans ht.endTag.symm⟩

theorem malloc_free_identity_sample : ∃ h₁ h₂ entries freeList x,
    (mmMalloc 20).run sampleHeap = .ok (4120, h₁) ∧ (mmFree 4120).run h₁ = .ok ((), h₂) ∧
      Shows sampleHeap entries freeList ∧ Shows h₂ entries (x :: freeList.erase x) := by
  have hR := sample_run.2.represents
  have hlt : (20 : Word).toInt < 2 ^ 31 := by decide
  obtain ⟨h₁, hrun, hR₁, -⟩ := mmMalloc_run hR (mallocServes_of_lt hlt).1
  have hbrk : h₁.memBrk = sampleHeap.memBrk := hR₁.memBrk.trans hR.memBrk.symm
  obtain ⟨h₂, entries, freeList, x, hrun₂, -, -, hshows, hshows₂, -⟩ := malloc_free_identity
    sample_reachable_int (show 0 < (20 : Word).toInt by decide) (by decide) hrun
    (Nat.succ_ne_zero _) hbrk
  exact ⟨h₁, h₂, entries, freeList, x, hrun, hrun₂, hshows, hshows₂⟩

end MallocLab.MergedFrees
