import MallocLab.LayoutInvariant

/-!
What each request does to the allocated blocks of a layout.
-/

namespace MallocLab.AbstractLayout

open MallocLab.Machine
open MallocLab.Mm
open MallocLab.Tiling

namespace Layout

/-- The block at `a`, if it is large enough. -/
def fits (L : Layout) (n : Need) (a : Nat) : Option Block :=
  (L.blockAt a).filter fun b => n.bytes ≤ b.size

/-- The blocks in the hands of the client. -/
def allocated (L : Layout) : Set Block := {b | b ∈ L.blocks ∧ b.alloc = true}

/-- A block the program hands out: at least `bytes` long, and new. -/
structure Granted (L L' : Layout) (u : Block) (bytes : Nat) : Prop where
  alloc : u.alloc = true
  large : bytes ≤ u.size
  allocated : L'.allocated = insert u L.allocated
  fresh : ∀ c ∈ L.allocated, c.stop ≤ u.addr ∨ u.stop ≤ c.addr

theorem free_of_freeBefore {L : Layout} {b p : Block} (h : L.freeBefore b = some p) :
    p.alloc = false ∧ p.stop = b.addr := by
  have htest := List.find?_some h
  simpa using htest

theorem free_of_freeAfter {L : Layout} {b n : Block} (h : L.freeAfter b = some n) :
    n.alloc = false ∧ b.stop = n.addr := by
  have htest := List.find?_some h
  simp only [Bool.and_eq_true, Bool.not_eq_true', decide_eq_true_eq] at htest
  exact ⟨htest.1, htest.2.symm⟩

theorem place_start (L : Layout) (x : Block) (n : Need) : (L.place x n).start = L.start := by
  unfold Layout.place
  split <;> rfl

theorem place_top (L : Layout) (x : Block) (n : Need) : (L.place x n).top = L.top := by
  unfold Layout.place
  split <;> rfl

theorem free_top (L : Layout) (ptr : Nat) : (L.free ptr).top = L.top := by
  unfold Layout.free
  split
  · split <;> rfl
  · rfl

namespace WellFormed

variable {L : Layout} {b c m x : Block} {pre mid post new : List Block} {n : Need}

section FirstFit

theorem listed_block (hL : L.WellFormed) {a : Nat} (ha : a ∈ L.freeList) :
    ∃ b ∈ L.blocks, b.addr = a ∧ b.alloc = false ∧ L.blockAt a = some b := by
  obtain ⟨b, hb, rfl, hfree⟩ := (hL.mem_free a).mp ha
  have hmem := mem_blocks_of_free hb hfree
  exact ⟨b, hmem, rfl, hfree, hL.blockAt_addr hmem⟩

theorem firstFit_some (hL : L.WellFormed) (hfound : L.firstFit n = some x) :
    x ∈ L.blocks ∧ x.alloc = false ∧ n.bytes ≤ x.size := by
  obtain ⟨a, ha, hfit⟩ := List.exists_of_findSome?_eq_some hfound
  obtain ⟨b, hb, -, hfree, hat⟩ := hL.listed_block ha
  rw [hat, Option.filter_eq_some_iff] at hfit
  obtain ⟨heq, hle⟩ := hfit
  obtain rfl := Option.some.inj heq
  exact ⟨hb, hfree, by simpa using hle⟩

theorem firstFit_none_iff (hL : L.WellFormed) :
    L.firstFit n = none ↔ ∀ b ∈ L.blocks, b.alloc = false → b.size < n.bytes := by
  unfold Layout.firstFit
  rw [List.findSome?_eq_none_iff]
  constructor
  · intro hnone b hb hfree
    have hfit := hnone b.addr (hL.mem_freeList (mem_all_of_mem hb) hfree)
    rw [hL.blockAt_addr hb] at hfit
    simpa using hfit
  · intro hsmall a ha
    obtain ⟨b, hb, -, hfree, hat⟩ := hL.listed_block ha
    rw [hat]
    simpa using hsmall b hb hfree

end FirstFit

section Allocated

theorem nodup_all (hL : L.WellFormed) : L.all.Nodup := by
  refine (hL.tiles.pairwise Block.addr_lt_stop).imp ?_
  rintro c d hle rfl
  exact absurd c.addr_lt_stop (Nat.not_lt.mpr hle)

theorem mem_replace_iff (hL : L.WellFormed) (new : List Block)
    (hall : L.all = pre ++ mid ++ post) (hpre : pre ≠ []) (hpost : post ≠ []) (hne : mid ≠ [])
    (hmid : Tiles Block.addr Block.stop m.addr mid m.stop) :
    c ∈ L.replace m new ↔ c ∈ new ∨ c ∈ L.blocks ∧ c ∉ mid := by
  obtain ⟨s, t, -, -, hblocks⟩ := exists_inner hall hpre hpost
  have hnodup : L.blocks.Nodup := by
    have h := hL.nodup_all
    rw [Layout.all, List.cons_append, List.nodup_cons] at h
    exact h.2.of_append_left
  rw [hblocks, List.append_assoc] at hnodup
  obtain ⟨-, hrest, hst⟩ := List.nodup_append.mp hnodup
  obtain ⟨-, -, hmt⟩ := List.nodup_append.mp hrest
  rw [hL.replace_eq new hblocks hne hmid, hblocks]
  simp only [List.mem_append]
  constructor
  · rintro ((hc | hc) | hc)
    · refine .inr ⟨.inl (.inl hc), fun hcm => ?_⟩
      exact hst c hc c (List.mem_append_left _ hcm) rfl
    · exact .inl hc
    · exact .inr ⟨.inr hc, fun hcm => hmt c hcm c hc rfl⟩
  · rintro (hc | ⟨(hc | hc) | hc, hcm⟩)
    · exact .inl (.inr hc)
    · exact .inl (.inl hc)
    · exact absurd hc hcm
    · exact .inr hc

variable {before after : Option Block}

/-- Joining an allocated block with free neighbours changes no other allocated
block. -/
theorem mem_replace_absorb_iff (hL : L.WellFormed) (hb : b ∈ L.blocks)
    (hbefore : before = none ∨ before = L.freeBefore b)
    (hafter : after = none ∨ after = L.freeAfter b) {alloc : Bool} (hc : c.alloc = true) :
    c ∈ L.replace (b.absorb before after alloc) [b.absorb before after alloc] ↔
      c = b.absorb before after alloc ∨ c ∈ L.blocks ∧ c ≠ b := by
  obtain ⟨pre, post, hpre, hpost, hall, -, -⟩ := hL.neighbourhood hb before after hbefore hafter
  obtain ⟨s, e, hmid⟩ := hL.tiles_middle hall
  rw [hL.mem_replace_iff _ hall hpre hpost (by simp) (tiles_absorb _ hmid), List.mem_singleton]
  have hbef : c ∉ before.toList := by
    rcases hbefore with rfl | rfl
    · simp
    · intro hmem
      rw [Option.mem_toList] at hmem
      simp [(free_of_freeBefore hmem).1] at hc
  have haft : c ∉ after.toList := by
    rcases hafter with rfl | rfl
    · simp
    · intro hmem
      rw [Option.mem_toList] at hmem
      simp [(free_of_freeAfter hmem).1] at hc
  simp [hbef, haft]

theorem allocated_release (hL : L.WellFormed) (hb : b ∈ L.blocks) :
    (L.release b).allocated = L.allocated \ {b} := by
  ext c
  constructor
  · rintro ⟨hc, halloc⟩
    rcases (hL.mem_replace_absorb_iff hb (.inr rfl) (.inr rfl) halloc).mp hc with rfl | ⟨hmem, hne⟩
    · simp [Block.absorb] at halloc
    · exact ⟨⟨hmem, halloc⟩, hne⟩
  · rintro ⟨⟨hmem, halloc⟩, hne⟩
    exact ⟨(hL.mem_replace_absorb_iff hb (.inr rfl) (.inr rfl) halloc).mpr (.inr ⟨hmem, hne⟩),
      halloc⟩

theorem allocated_grow (hL : L.WellFormed) (hb : b ∈ L.blocks)
    (hbefore : before = none ∨ before = L.freeBefore b)
    (hafter : after = none ∨ after = L.freeAfter b) :
    (L.grow before b after).allocated =
      insert (b.absorb before after true) (L.allocated \ {b}) := by
  ext c
  constructor
  · rintro ⟨hc, halloc⟩
    rcases (hL.mem_replace_absorb_iff hb hbefore hafter halloc).mp hc with heq | ⟨hmem, hne⟩
    · exact .inl heq
    · exact .inr ⟨⟨hmem, halloc⟩, hne⟩
  · rintro (rfl | ⟨⟨hmem, halloc⟩, hne⟩)
    · exact ⟨(hL.mem_replace_absorb_iff hb hbefore hafter rfl).mpr (.inl rfl), rfl⟩
    · exact ⟨(hL.mem_replace_absorb_iff hb hbefore hafter halloc).mpr (.inr ⟨hmem, hne⟩), halloc⟩

theorem granted_place (hL : L.WellFormed) (hx : x ∈ L.blocks) (hfree : x.alloc = false)
    (hfit : n.bytes ≤ x.size) : ∃ u, u.addr = x.addr ∧ Granted L (L.place x n) u n.bytes := by
  obtain ⟨pre, post, hpre, hpost, hall⟩ := exists_around hx
  have hmem : ∀ {new : List Block} {c : Block}, c ∈ L.replace x new ↔
      c ∈ new ∨ c ∈ L.blocks ∧ c ∉ [x] := fun {new c} =>
    hL.mem_replace_iff new hall hpre hpost (by simp) ⟨rfl, rfl⟩
  have hne : ∀ c : Block, c.alloc = true → c ∉ [x] := by
    rintro c halloc hc
    obtain rfl := List.mem_singleton.mp hc
    simp [hfree] at halloc
  have hsep : ∀ c ∈ L.allocated, c.stop ≤ x.addr ∨ x.stop ≤ c.addr := by
    rintro c ⟨hc, halloc⟩
    refine (hL.eq_or_disjoint (mem_all_of_mem hc) (mem_all_of_mem hx)).resolve_left ?_
    rintro rfl
    simp [hfree] at halloc
  by_cases hsplit : 32 ≤ x.size - n.bytes
  · let u : Block := ⟨x.addr, n.bytes, true, n.aligned, n.sixteen_le⟩
    refine ⟨u, rfl, rfl, le_rfl, ?_, fun c hc => ?_⟩
    · rw [Layout.place, dif_pos hsplit]
      ext c
      constructor
      · rintro ⟨hc, halloc⟩
        rcases hmem.mp hc with hc | ⟨hc, -⟩
        · simp only [List.mem_cons, List.not_mem_nil, or_false] at hc
          rcases hc with rfl | rfl
          · exact .inl rfl
          · simp at halloc
        · exact .inr ⟨hc, halloc⟩
      · rintro (rfl | ⟨hc, halloc⟩)
        · exact ⟨hmem.mpr (.inl (by simp [u])), rfl⟩
        · exact ⟨hmem.mpr (.inr ⟨hc, hne c halloc⟩), halloc⟩
    · refine (hsep c hc).imp id fun hle => ?_
      exact (Nat.add_le_add_left hfit x.addr).trans hle
  · refine ⟨{ x with alloc := true }, rfl, rfl, hfit, ?_, hsep⟩
    rw [Layout.place, dif_neg hsplit]
    ext c
    constructor
    · rintro ⟨hc, halloc⟩
      rcases hmem.mp hc with hc | ⟨hc, -⟩
      · exact .inl (List.mem_singleton.mp hc)
      · exact .inr ⟨hc, halloc⟩
    · rintro (rfl | ⟨hc, halloc⟩)
      · exact ⟨hmem.mpr (.inl (by simp)), rfl⟩
      · exact ⟨hmem.mpr (.inr ⟨hc, hne c halloc⟩), halloc⟩

/-- Only the epilogue reaches beyond `top`. -/
theorem stop_le_top (hL : L.WellFormed) (hc : c ∈ L.all) (hne : c ≠ L.epilogue) :
    c.stop ≤ L.top := by
  have hbounds := hL.tiles.bounds Block.addr_lt_stop hc
  have hpos := c.addr_lt_stop
  rcases hL.eq_or_disjoint hc (mem_all_iff.mpr (.inr (.inr rfl))) with heq | hd | hd
  · exact absurd heq hne
  · exact hd
  · change L.brk ≤ c.addr at hd
    omega

theorem stop_le_top_of_mem (hL : L.WellFormed) (hc : c ∈ L.blocks) : c.stop ≤ L.top := by
  refine hL.stop_le_top (mem_all_of_mem hc) ?_
  rintro rfl
  have hlarge := hL.large _ hc
  change 32 ≤ 16 at hlarge
  omega

theorem granted_extend (hL : L.WellFormed) :
    ∃ u, u.addr = L.top ∧ Granted L (L.extend n) u n.bytes := by
  refine ⟨⟨L.top, n.bytes, true, n.aligned, n.sixteen_le⟩, rfl, rfl, le_rfl,
    ?_, fun c hc => .inl (hL.stop_le_top_of_mem hc.1)⟩
  ext c
  constructor
  · rintro ⟨hc, halloc⟩
    rcases List.mem_append.mp hc with hc | hc
    · exact .inr ⟨hc, halloc⟩
    · exact .inl (List.mem_singleton.mp hc)
  · rintro (rfl | ⟨hc, halloc⟩)
    · exact ⟨List.mem_append_right _ (List.mem_singleton_self _), rfl⟩
    · exact ⟨List.mem_append_left _ hc, halloc⟩

end Allocated

section Malloc

variable {size : Word}

theorem malloc_eq_null_iff : (L.malloc size).2 = null ↔
    size = 0 ∨ L.firstFit (need size) = none ∧ L.maxAddr < L.brk + (need size).bytes := by
  rw [Layout.malloc]
  by_cases hzero : size = 0
  · rw [if_pos hzero]
    exact iff_of_true rfl (.inl hzero)
  · rw [if_neg hzero, or_iff_right hzero]
    rcases hfit : L.firstFit (need size) with _ | x
    · by_cases hroom : L.brk + (need size).bytes ≤ L.maxAddr
      · simp [hroom, null]
      · simp [hroom, Nat.lt_of_not_le hroom]
    · simp [null]

/-- The layout after `mm_malloc`, and the pointer returned. -/
theorem malloc_cases (hL : L.WellFormed) (size : Word) :
    ((L.malloc size).1 = L ∧ (L.malloc size).2 = null) ∨
      ∃ u, u.addr + 8 = (L.malloc size).2 ∧ (L.malloc size).1.WellFormed ∧
        Granted L (L.malloc size).1 u (need size).bytes := by
  rw [Layout.malloc]
  by_cases hzero : size = 0
  · rw [if_pos hzero]
    exact .inl ⟨rfl, rfl⟩
  · rw [if_neg hzero]
    rcases hfit : L.firstFit (need size) with _ | x
    · by_cases hroom : L.brk + (need size).bytes ≤ L.maxAddr
      · obtain ⟨u, haddr, hu⟩ := hL.granted_extend (n := need size)
        simp only [if_pos hroom]
        exact .inr ⟨u, congrArg (· + 8) haddr, hL.extend (need size) hroom, hu⟩
      · simp only [if_neg hroom, and_self, true_or]
    · obtain ⟨hx, hfree, hle⟩ := hL.firstFit_some hfit
      obtain ⟨u, haddr, hu⟩ := hL.granted_place hx hfree hle
      have hplaced := hL.place hx hfree (need size) hle
      dsimp only
      exact .inr ⟨u, congrArg (· + 8) haddr, hplaced, hu⟩

theorem malloc_granted (hL : L.WellFormed) (hne : (L.malloc size).2 ≠ null) :
    ∃ u, u.addr + 8 = (L.malloc size).2 ∧ (L.malloc size).1.WellFormed ∧
      Granted L (L.malloc size).1 u (need size).bytes := by
  rcases hL.malloc_cases size with ⟨-, hnull⟩ | hu
  · exact absurd hnull hne
  · exact hu

theorem malloc_of_null (hL : L.WellFormed) (hnull : (L.malloc size).2 = null) :
    (L.malloc size).1 = L := by
  rcases hL.malloc_cases size with ⟨heq, -⟩ | ⟨u, haddr, -⟩
  · exact heq
  · rw [hnull] at haddr
    simp [null] at haddr

end Malloc

section Realloc

variable {size : Word} {before after : Option Block}

theorem free_addr (hL : L.WellFormed) (hb : b ∈ L.allocated) :
    L.free (b.addr + 8) = L.release b := by
  have hat : L.blockAt (b.addr + 8 - 8) = some b := by
    rw [Nat.add_sub_cancel]
    exact hL.blockAt_addr hb.1
  rw [Layout.free, hat]
  exact if_pos hb.2

/-- `growth` as the three tests of `mm_realloc`. -/
theorem growth_eq (L : Layout) (b : Block) (k : Int) : L.growth b k =
    if (L.freeBefore b).isSome ∧ k ≤ (b.absorb (L.freeBefore b) none true).size then
      some (L.freeBefore b, none)
    else if (L.freeAfter b).isSome ∧ k ≤ (b.absorb none (L.freeAfter b) true).size then
      some (none, L.freeAfter b)
    else if (L.freeBefore b).isSome ∧ (L.freeAfter b).isSome ∧
        k ≤ (b.absorb (L.freeBefore b) (L.freeAfter b) true).size then
      some (L.freeBefore b, L.freeAfter b)
    else none := by
  unfold Layout.growth
  rcases L.freeBefore b with _ | p <;> rcases L.freeAfter b with _ | n <;> simp

/-- The neighbours that a block grows into are free, and suffice. -/
theorem growth_some {k : Int} (hgrow : L.growth b k = some (before, after)) :
    (before = none ∨ before = L.freeBefore b) ∧ (after = none ∨ after = L.freeAfter b) ∧
      k ≤ (b.absorb before after true).size := by
  rw [growth_eq] at hgrow
  split at hgrow
  · rename_i htest
    cases hgrow
    exact ⟨.inr rfl, .inl rfl, htest.2⟩
  · split at hgrow
    · rename_i htest
      cases hgrow
      exact ⟨.inl rfl, .inr rfl, htest.2⟩
    · split at hgrow
      · rename_i htest
        cases hgrow
        exact ⟨.inr rfl, .inr rfl, htest.2.2⟩
      · cases hgrow

/-- A joined block is clear of the allocated blocks that are not part of it. -/
theorem separate_absorb (hL : L.WellFormed) (hb : b ∈ L.allocated) (hc : c ∈ L.allocated)
    (hne : c ≠ b) (hbefore : before = none ∨ before = L.freeBefore b)
    (hafter : after = none ∨ after = L.freeAfter b) :
    c.stop ≤ (b.absorb before after true).addr ∨ (b.absorb before after true).stop ≤ c.addr := by
  have hgrown := hL.grow hb.1 hb.2 hbefore hafter
  have hset := hL.allocated_grow hb.1 hbefore hafter
  have hm : b.absorb before after true ∈ (L.grow before b after).allocated :=
    hset ▸ Set.mem_insert _ _
  have hc' : c ∈ (L.grow before b after).allocated :=
    hset ▸ Set.mem_insert_of_mem _ ⟨hc, hne⟩
  refine (hgrown.eq_or_disjoint (mem_all_of_mem hc'.1) (mem_all_of_mem hm.1)).resolve_left ?_
  rintro rfl
  -- the joined block contains `b`
  obtain ⟨pre, post, -, -, hall, -, -⟩ := hL.neighbourhood hb.1 before after hbefore hafter
  obtain ⟨s, e, hmid⟩ := hL.tiles_middle hall
  have hinside := (tiles_absorb true hmid).bounds Block.addr_lt_stop (x := b) (by simp)
  have hpos := b.addr_lt_stop
  rcases hL.eq_or_disjoint (mem_all_of_mem hc.1) (mem_all_of_mem hb.1) with heq | hd | hd
  · exact hne heq
  · omega
  · omega

/-- A request that is met in place is granted, and leaves the end of the heap where it is. -/
theorem reallocBlock_in_place (hplace : (align size + tagsSize).toInt ≤ b.size ∨
    (L.growth b (align size + tagsSize).toInt).isSome) :
    (L.reallocBlock b size).2 ≠ null ∧ (L.reallocBlock b size).1.top = L.top := by
  rcases Decidable.em ((align size + tagsSize).toInt ≤ b.size) with hfits | hlarge
  · simp only [Layout.reallocBlock, if_pos hfits]
    exact ⟨Nat.succ_ne_zero _, trivial⟩
  · obtain ⟨⟨before, after⟩, hgrow⟩ := Option.isSome_iff_exists.mp (hplace.resolve_left hlarge)
    simp only [Layout.reallocBlock, if_neg hlarge, hgrow]
    exact ⟨Nat.succ_ne_zero _, rfl⟩

theorem reallocBlock_of_null (hnull : (L.reallocBlock b size).2 = null) :
    (L.reallocBlock b size).1 = L := by
  revert hnull
  simp only [Layout.reallocBlock]
  split
  · intro _
    rfl
  · split
    · intro hnull
      simp [null] at hnull
    · split
      · intro _
        rfl
      · intro hnull
        contradiction

/-- The block that holds the data after a successful `mm_realloc`. -/
theorem reallocBlock_granted (hL : L.WellFormed) (hb : b ∈ L.allocated)
    (hne : (L.reallocBlock b size).2 ≠ null) :
    ∃ u, u.addr + 8 = (L.reallocBlock b size).2 ∧ u.alloc = true ∧
      (L.reallocBlock b size).1.WellFormed ∧
      (L.reallocBlock b size).1.allocated = insert u (L.allocated \ {b}) ∧
      ((align size + tagsSize).toInt ≤ u.size ∨
        ¬ (align size + tagsSize).toInt ≤ b.size ∧ L.growth b (align size + tagsSize).toInt = none ∧
          (L.malloc (align size + tagsSize)).2 ≠ null ∧
          (need (align size + tagsSize)).bytes ≤ u.size) ∧
      ∀ c ∈ L.allocated, c ≠ b → c.stop ≤ u.addr ∨ u.stop ≤ c.addr := by
  revert hne
  rw [Layout.reallocBlock]
  by_cases hfits : (align size + tagsSize).toInt ≤ b.size
  · simp only [if_pos hfits]
    intro _
    refine ⟨b, rfl, hb.2, hL, ?_, Or.inl hfits, fun c hc hne => ?_⟩
    · rw [Set.insert_sdiff_singleton, Set.insert_eq_of_mem hb]
    · exact (hL.eq_or_disjoint (mem_all_of_mem hc.1) (mem_all_of_mem hb.1)).resolve_left hne
  · simp only [if_neg hfits]
    rcases hgrow : L.growth b (align size + tagsSize).toInt with _ | ⟨before, after⟩
    · rcases hmalloc : L.malloc (align size + tagsSize) with ⟨L', q⟩
      by_cases hq : q = null
      · simp [hq]
      · have hne : (L.malloc (align size + tagsSize)).2 ≠ null := by rwa [hmalloc]
        obtain ⟨u, haddr, hL', hu⟩ := hL.malloc_granted hne
        rw [hmalloc] at haddr hL' hu
        simp only [if_neg hq]
        intro _
        have hb' : b ∈ L'.allocated := hu.allocated ▸ Set.mem_insert_of_mem u hb
        have hfree := hL'.free_addr hb'
        refine ⟨u, haddr, hu.alloc, ?_, ?_, .inr ⟨hfits, trivial, hq, hu.large⟩, fun c hc _ => ?_⟩
        · rw [hfree]
          exact hL'.release hb'.1 hb'.2
        · have hub : u ≠ b := by
            rintro rfl
            have hpos := u.addr_lt_stop
            have hself := hu.fresh u hb
            omega
          rw [hfree, hL'.allocated_release hb'.1, hu.allocated]
          exact (Set.insert_sdiff_singleton_comm hub _).symm
        · exact hu.fresh c hc
    · obtain ⟨hbefore, hafter, hsuffices⟩ := growth_some hgrow
      intro _
      refine ⟨b.absorb before after true, rfl, rfl, hL.grow hb.1 hb.2 hbefore hafter,
        hL.allocated_grow hb.1 hbefore hafter, Or.inl hsuffices, ?_⟩
      exact fun c hc hne => hL.separate_absorb hb hc hne hbefore hafter

end Realloc

end WellFormed

end Layout

end MallocLab.AbstractLayout
