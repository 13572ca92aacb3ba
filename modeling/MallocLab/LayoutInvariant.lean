import Mathlib.Data.List.Chain
import MallocLab.AbstractLayout

/-!
Well-formedness of layouts is kept by every replacement the abstract allocator
makes.
-/

namespace MallocLab.AbstractLayout

open MallocLab.Machine
open MallocLab.Mm
open MallocLab.Tiling

theorem find?_eq_some_of_unique {α : Type*} {l : List α} {q : α → Bool} {x : α} (hx : x ∈ l)
    (hq : q x = true) (hunique : ∀ y ∈ l, q y = true → y = x) : l.find? q = some x := by
  rcases hfind : l.find? q with _ | y
  · exact absurd hq (List.find?_eq_none.mp hfind x hx)
  · rw [hunique y (List.mem_of_find?_eq_some hfind) (List.find?_some hfind)]

namespace Layout.WellFormed

variable {L : Layout} {b p n c : Block} {pre mid post new : List Block}

theorem mem_all_iff : c ∈ L.all ↔ c = L.prologue ∨ c ∈ L.blocks ∨ c = L.epilogue := by
  simp [Layout.all]

theorem mem_all_of_mem (hb : b ∈ L.blocks) : b ∈ L.all :=
  mem_all_iff.mpr (.inr (.inl hb))

theorem mem_blocks_of_free (hc : c ∈ L.all) (hfree : c.alloc = false) : c ∈ L.blocks := by
  rcases mem_all_iff.mp hc with rfl | hmem | rfl
  · simp [Layout.prologue] at hfree
  · exact hmem
  · simp [Layout.epilogue] at hfree

theorem eq_of_addr_eq (hL : L.WellFormed) (hb : b ∈ L.all) (hc : c ∈ L.all)
    (h : b.addr = c.addr) : b = c :=
  hL.tiles.eq_of_lo_eq Block.addr_lt_stop hb hc h

theorem eq_of_stop_eq (hL : L.WellFormed) (hb : b ∈ L.all) (hc : c ∈ L.all)
    (h : b.stop = c.stop) : b = c :=
  hL.tiles.eq_of_hi_eq Block.addr_lt_stop hb hc h

theorem eq_or_disjoint (hL : L.WellFormed) (hb : b ∈ L.all) (hc : c ∈ L.all) :
    b = c ∨ b.stop ≤ c.addr ∨ c.stop ≤ b.addr :=
  hL.tiles.eq_or_disjoint Block.addr_lt_stop hb hc

theorem stop_eq_addr (hL : L.WellFormed) (hall : L.all = pre ++ b :: c :: post) :
    b.stop = c.addr := by
  have htiles := hL.tiles
  rw [hall] at htiles
  obtain ⟨m, -, h⟩ := tiles_append.mp htiles
  exact h.2.1.symm

theorem tiles_middle (hL : L.WellFormed) (hall : L.all = pre ++ mid ++ post) :
    ∃ s e, Tiles Block.addr Block.stop s mid e := by
  have htiles := hL.tiles
  rw [hall] at htiles
  obtain ⟨e, hleft, -⟩ := tiles_append.mp htiles
  obtain ⟨s, -, hmid⟩ := tiles_append.mp hleft
  exact ⟨s, e, hmid⟩

/-- Every block has a neighbour on both sides. -/
theorem window (hb : b ∈ L.blocks) :
    ∃ pre p n post, L.all = pre ++ p :: b :: n :: post := by
  obtain ⟨s, t, hst⟩ := List.append_of_mem hb
  rcases (L.prologue :: s).eq_nil_or_concat with hnil | ⟨pre, p, hpre⟩
  · simp at hnil
  · rcases htail : t ++ [L.epilogue] with _ | ⟨n, post⟩
    · simp at htail
    · refine ⟨pre, p, n, post, ?_⟩
      calc
        L.all = (L.prologue :: s) ++ b :: (t ++ [L.epilogue]) := by simp [Layout.all, hst]
        _ = pre ++ p :: b :: n :: post := by rw [hpre, htail]; simp

theorem blockAt_addr (hL : L.WellFormed) (hb : b ∈ L.blocks) : L.blockAt b.addr = some b := by
  refine find?_eq_some_of_unique hb (by simp) fun c hc hcb => ?_
  exact hL.eq_of_addr_eq (mem_all_of_mem hc) (mem_all_of_mem hb) (by simpa using hcb)

theorem freeBefore_eq (hL : L.WellFormed) (hall : L.all = pre ++ p :: b :: post) :
    L.freeBefore b = if p.alloc then none else some p := by
  have hp : p ∈ L.all := by simp [hall]
  have hstop := hL.stop_eq_addr hall
  have hunique : ∀ c ∈ L.blocks, (!c.alloc && c.stop = b.addr) = true → c = p := by
    intro c hc hq
    simp only [Bool.and_eq_true, decide_eq_true_eq] at hq
    exact hL.eq_of_stop_eq (mem_all_of_mem hc) hp (hq.2.trans hstop.symm)
  cases halloc : p.alloc with
  | true =>
      refine List.find?_eq_none.mpr fun c hc hq => ?_
      obtain rfl := hunique c hc hq
      simp [halloc] at hq
  | false =>
      exact find?_eq_some_of_unique (mem_blocks_of_free hp halloc) (by simp [halloc, hstop]) hunique

theorem freeAfter_eq (hL : L.WellFormed) (hall : L.all = pre ++ b :: n :: post) :
    L.freeAfter b = if n.alloc then none else some n := by
  have hn : n ∈ L.all := by simp [hall]
  have hstop := hL.stop_eq_addr hall
  have hunique : ∀ c ∈ L.blocks, (!c.alloc && c.addr = b.stop) = true → c = n := by
    intro c hc hq
    simp only [Bool.and_eq_true, decide_eq_true_eq] at hq
    exact hL.eq_of_addr_eq (mem_all_of_mem hc) hn (hq.2.trans hstop)
  cases halloc : n.alloc with
  | true =>
      refine List.find?_eq_none.mpr fun c hc hq => ?_
      obtain rfl := hunique c hc hq
      simp [halloc] at hq
  | false =>
      exact find?_eq_some_of_unique (mem_blocks_of_free hn halloc) (by simp [halloc, hstop]) hunique

/-- A part of the heap away from both ends is a part of the blocks between
prologue and epilogue. -/
theorem exists_inner (hall : L.all = pre ++ mid ++ post) (hpre : pre ≠ []) (hpost : post ≠ []) :
    ∃ s t, pre = L.prologue :: s ∧ post = t ++ [L.epilogue] ∧ L.blocks = s ++ mid ++ t := by
  obtain ⟨x, s, rfl⟩ := List.exists_cons_of_ne_nil hpre
  rcases post.eq_nil_or_concat with hnil | ⟨t, y, rfl⟩
  · exact absurd hnil hpost
  · have hall' : L.prologue :: (L.blocks ++ [L.epilogue]) = x :: (s ++ mid ++ t ++ [y]) := by
      simpa [Layout.all] using hall
    obtain ⟨rfl, htail⟩ := List.cons.inj hall'
    obtain ⟨hblocks, hlast⟩ := List.append_inj' htail rfl
    obtain rfl : L.epilogue = y := by simpa using hlast
    exact ⟨s, t, rfl, by simp, hblocks⟩

variable {m : Block}

theorem replace_eq (hL : L.WellFormed) (new : List Block) {s t : List Block} (hblocks : L.blocks = s ++ mid ++ t)
    (hne : mid ≠ []) (hmid : Tiles Block.addr Block.stop m.addr mid m.stop) :
    L.replace m new = s ++ new ++ t := by
  have h := hL.tiles
  rw [Layout.all, List.cons_append, hblocks] at h
  obtain ⟨e, htiles, -⟩ := tiles_append.mp h.2
  rw [Layout.replace, hblocks]
  exact htiles.splice_eq Block.addr_lt_stop new hmid hne

theorem replace_all (hL : L.WellFormed) (new : List Block) (hall : L.all = pre ++ mid ++ post)
    (hpre : pre ≠ []) (hpost : post ≠ []) (hne : mid ≠ [])
    (hmid : Tiles Block.addr Block.stop m.addr mid m.stop) (free : List Nat) :
    Layout.all { L with blocks := L.replace m new, freeList := free } = pre ++ new ++ post := by
  obtain ⟨s, t, rfl, rfl, hblocks⟩ := exists_inner hall hpre hpost
  have hreplace := hL.replace_eq new hblocks hne hmid
  calc
    Layout.all { L with blocks := L.replace m new, freeList := free } =
        L.prologue :: L.replace m new ++ [L.epilogue] := rfl
    _ = L.prologue :: s ++ new ++ (t ++ [L.epilogue]) := by rw [hreplace]; simp

/-- The one rule behind all operations inside the heap: replace the part `mid`
by blocks that tile the same bytes and leave no two free neighbours, and keep
the free list in step. -/
theorem rebuild (hL : L.WellFormed) (hall : L.all = pre ++ mid ++ post)
    (hpre : pre ≠ []) (hpost : post ≠ []) (hne : mid ≠ [])
    (hmid : Tiles Block.addr Block.stop m.addr mid m.stop)
    (hnew : Tiles Block.addr Block.stop m.addr new m.stop)
    (hlarge : ∀ b ∈ new, 32 ≤ b.size)
    (hchain : (pre ++ new ++ post).IsChain Apart)
    {free : List Nat} (hnodup : free.Nodup)
    (hfree : ∀ a, a ∈ free ↔ (a ∈ L.freeList ∧ ∀ c ∈ mid, c.addr ≠ a) ∨
      ∃ c ∈ new, c.addr = a ∧ c.alloc = false) :
    Layout.WellFormed { L with blocks := L.replace m new, freeList := free } := by
  have hall' := hL.replace_all new hall hpre hpost hne hmid free
  obtain ⟨s, t, rfl, rfl, hblocks⟩ := exists_inner hall hpre hpost
  have hinner := hL.replace_eq new hblocks hne hmid
  have hpair := hL.tiles.pairwise Block.addr_lt_stop
  rw [hall, List.append_assoc] at hpair
  have hfresh : ∀ c ∈ mid, ∀ d, d ∈ L.prologue :: s ∨ d ∈ t ++ [L.epilogue] → c.addr ≠ d.addr := by
    intro c hc d hd heq
    have hlt := c.addr_lt_stop
    have hlt' := d.addr_lt_stop
    rcases hd with hd | hd
    · have := (List.pairwise_append.mp hpair).2.2 d hd c (List.mem_append_left _ hc)
      omega
    · have := (List.pairwise_append.mp (List.pairwise_append.mp hpair).2.1).2.2 c hc d hd
      omega
  refine ⟨?_, ?_, ?_, hnodup, ?_, hL.fits⟩
  · have htiles := hL.tiles
    rw [hall] at htiles
    rw [hall']
    exact htiles.replace hmid hne hnew
  · intro b hb
    change b ∈ L.replace m new at hb
    rw [hinner, List.mem_append, List.mem_append] at hb
    rcases hb with (hb | hb) | hb
    · exact hL.large b (by simp [hblocks, hb])
    · exact hlarge b hb
    · exact hL.large b (by simp [hblocks, hb])
  · intro a
    change a ∈ free ↔ _
    rw [hfree a, hL.mem_free a, hall, hall']
    constructor
    · rintro (⟨⟨c, hc, rfl, hcfree⟩, hout⟩ | ⟨c, hc, rfl, hcfree⟩)
      · refine ⟨c, ?_, rfl, hcfree⟩
        rcases List.mem_append.mp hc with hc | hc
        · rcases List.mem_append.mp hc with hc | hc
          · exact List.mem_append_left _ (List.mem_append_left _ hc)
          · exact absurd rfl (hout c hc)
        · exact List.mem_append_right _ hc
      · exact ⟨c, List.mem_append_left _ (List.mem_append_right _ hc), rfl, hcfree⟩
    · rintro ⟨c, hc, rfl, hcfree⟩
      rcases List.mem_append.mp hc with hc | hc
      · rcases List.mem_append.mp hc with hc | hc
        · refine .inl ⟨⟨c, ?_, rfl, hcfree⟩, fun d hd => hfresh d hd c (.inl hc)⟩
          exact List.mem_append_left _ (List.mem_append_left _ hc)
        · exact .inr ⟨c, hc, rfl, hcfree⟩
      · refine .inl ⟨⟨c, ?_, rfl, hcfree⟩, fun d hd => hfresh d hd c (.inr hc)⟩
        exact List.mem_append_right _ hc
  · rw [hall']
    exact hchain

variable {before after : Option Block}

theorem mem_unlist {free : List Nat} {o : Option Block} {a : Nat} (hnodup : free.Nodup) :
    a ∈ Layout.unlist free o ↔ a ∈ free ∧ ∀ c ∈ o, c.addr ≠ a := by
  cases o with
  | none => simp [Layout.unlist]
  | some c => simp [Layout.unlist, hnodup.mem_erase_iff, and_comm, eq_comm]

theorem nodup_unlist {free : List Nat} (o : Option Block) (hnodup : free.Nodup) :
    (Layout.unlist free o).Nodup := by
  cases o with
  | none => exact hnodup
  | some c => exact hnodup.erase _

/-- The joined block covers exactly the blocks it was made of. -/
theorem tiles_absorb {s e : Nat} (alloc : Bool)
    (h : Tiles Block.addr Block.stop s (before.toList ++ b :: after.toList) e) :
    Tiles Block.addr Block.stop (b.absorb before after alloc).addr
      (before.toList ++ b :: after.toList) (b.absorb before after alloc).stop := by
  rcases before with _ | p <;> rcases after with _ | n <;>
    simp [Block.absorb, Block.stop] at h ⊢ <;> omega

theorem neighbourhood (hL : L.WellFormed) (hb : b ∈ L.blocks) (before after : Option Block)
    (hbefore : before = none ∨ before = L.freeBefore b)
    (hafter : after = none ∨ after = L.freeAfter b) :
    ∃ pre post, pre ≠ [] ∧ post ≠ [] ∧
      L.all = pre ++ (before.toList ++ b :: after.toList) ++ post ∧
      (before = L.freeBefore b → ∀ p ∈ pre.getLast?, p.alloc = true) ∧
      (after = L.freeAfter b → ∀ n ∈ post.head?, n.alloc = true) := by
  obtain ⟨pre, p, n, post, hall⟩ := window hb
  have hfb := hL.freeBefore_eq hall
  have hall' : L.all = (pre ++ [p]) ++ b :: n :: post := by simp [hall]
  have hfa := hL.freeAfter_eq hall'
  have hchain := hL.coalesced
  rw [hall] at hchain
  -- the blocks before `b`, split where the joined block begins
  have hleft : ∃ pre', pre' ≠ [] ∧ pre ++ [p] = pre' ++ before.toList ∧
      (before = L.freeBefore b → ∀ q ∈ pre'.getLast?, q.alloc = true) := by
    rcases Bool.eq_false_or_eq_true p.alloc with halloc | halloc
    · have hnone : before = none := by
        rw [hfb, halloc] at hbefore
        simpa using hbefore
      subst hnone
      refine ⟨pre ++ [p], by simp, by simp, fun _ q hq => ?_⟩
      obtain rfl : p = q := by simpa using hq
      exact halloc
    · rw [halloc] at hfb
      rcases hbefore with rfl | heq
      · refine ⟨pre ++ [p], by simp, by simp, fun h => ?_⟩
        rw [hfb] at h
        simp at h
      · obtain rfl : before = some p := by simpa [hfb] using heq
        have hne : pre ≠ [] := by
          rintro rfl
          obtain ⟨rfl, -⟩ := List.cons.inj (hall.symm.trans rfl : p :: _ = L.prologue :: _)
          simp [Layout.prologue] at halloc
        refine ⟨pre, hne, rfl, fun _ q hq => ?_⟩
        have hapart := (List.isChain_append.mp hchain).2.2 q hq p rfl
        simpa [Apart, halloc] using hapart
  have hright : ∃ post', post' ≠ [] ∧ n :: post = after.toList ++ post' ∧
      (after = L.freeAfter b → ∀ q ∈ post'.head?, q.alloc = true) := by
    rcases Bool.eq_false_or_eq_true n.alloc with halloc | halloc
    · have hnone : after = none := by
        rw [hfa, halloc] at hafter
        simpa using hafter
      subst hnone
      refine ⟨n :: post, by simp, by simp, fun _ q hq => ?_⟩
      obtain rfl : n = q := by simpa using hq
      exact halloc
    · rw [halloc] at hfa
      rcases hafter with rfl | heq
      · refine ⟨n :: post, by simp, by simp, fun h => ?_⟩
        rw [hfa] at h
        simp at h
      · obtain rfl : after = some n := by simpa [hfa] using heq
        have hne : post ≠ [] := by
          rintro rfl
          have hlast : L.all.getLast? = some n := by simp [hall]
          have hlast' : L.all.getLast? = some L.epilogue := List.getLast?_concat
          obtain rfl : n = L.epilogue := by simpa [hlast] using hlast'
          simp [Layout.epilogue] at halloc
        refine ⟨post, hne, rfl, fun _ q hq => ?_⟩
        obtain ⟨y, ys, rfl⟩ := List.exists_cons_of_ne_nil hne
        obtain rfl : y = q := by simpa using hq
        have hapart : Apart n y := by
          have := (List.isChain_split.mp hchain).2
          simp only [List.isChain_cons_cons] at this
          exact this.2.2.1
        simpa [Apart, halloc] using hapart
  obtain ⟨pre', hpre', hpreEq, hpreLast⟩ := hleft
  obtain ⟨post', hpost', hpostEq, hpostHead⟩ := hright
  refine ⟨pre', post', hpre', hpost', ?_, hpreLast, hpostHead⟩
  calc
    L.all = (pre ++ [p]) ++ b :: (n :: post) := by simp [hall]
    _ = pre' ++ (before.toList ++ b :: after.toList) ++ post' := by
      rw [hpreEq, hpostEq]
      simp

/-- Joining a block with free neighbours, seen in the whole heap. -/
theorem fuse (hL : L.WellFormed) {alloc : Bool} {free : List Nat}
    (hall : L.all = pre ++ (before.toList ++ b :: after.toList) ++ post)
    (hpre : pre ≠ []) (hpost : post ≠ [])
    (hlast : alloc = true ∨ ∀ p ∈ pre.getLast?, p.alloc = true)
    (hhead : alloc = true ∨ ∀ n ∈ post.head?, n.alloc = true)
    (hb : b ∈ L.blocks) (hnodup : free.Nodup)
    (hfree : ∀ a, a ∈ free ↔
      (a ∈ L.freeList ∧ ∀ c ∈ before.toList ++ b :: after.toList, c.addr ≠ a) ∨
        (b.absorb before after alloc).addr = a ∧ alloc = false) :
    Layout.WellFormed
      { L with
        blocks := L.replace (b.absorb before after alloc) [b.absorb before after alloc]
        freeList := free } := by
  obtain ⟨s, e, hmid⟩ := hL.tiles_middle hall
  have hnew : Tiles Block.addr Block.stop (b.absorb before after alloc).addr
      [b.absorb before after alloc] (b.absorb before after alloc).stop := ⟨rfl, rfl⟩
  refine hL.rebuild hall hpre hpost (by simp) (tiles_absorb alloc hmid) hnew ?_ ?_ hnodup ?_
  · intro c hc
    obtain rfl : c = b.absorb before after alloc := by simpa using hc
    have hlarge := hL.large b hb
    change 32 ≤ _ + b.size + _
    omega
  · have hchain := hL.coalesced
    rw [hall] at hchain
    have hprechain := hchain.left_of_append.left_of_append
    refine ((hprechain.append (List.isChain_singleton _) ?_).append
      hchain.right_of_append ?_)
    · rintro p hp m hm
      obtain rfl : b.absorb before after alloc = m := by simpa using hm
      exact hlast.elim (fun h => .inr h) fun h => .inl (h p hp)
    · rintro m hm n hn
      obtain rfl : b.absorb before after alloc = m := by simpa using hm
      exact hhead.elim (fun h => .inl h) fun h => .inr (h n hn)
  · intro a
    rw [hfree a]
    simp [Block.absorb]

theorem not_mem_freeList (hL : L.WellFormed) (hb : b ∈ L.blocks) (halloc : b.alloc = true) :
    b.addr ∉ L.freeList := by
  intro hmem
  obtain ⟨c, hc, hcb, hcfree⟩ := (hL.mem_free _).mp hmem
  obtain rfl := hL.eq_of_addr_eq hc (mem_all_of_mem hb) hcb
  simp [halloc] at hcfree

theorem grow (hL : L.WellFormed) (hb : b ∈ L.blocks) (halloc : b.alloc = true)
    (hbefore : before = none ∨ before = L.freeBefore b)
    (hafter : after = none ∨ after = L.freeAfter b) : (L.grow before b after).WellFormed := by
  obtain ⟨pre, post, hpre, hpost, hall, -, -⟩ := hL.neighbourhood hb before after hbefore hafter
  have hnodup := nodup_unlist after hL.nodup
  refine hL.fuse hall hpre hpost (.inl rfl) (.inl rfl) hb (nodup_unlist before hnodup) fun a => ?_
  have hne : a ∈ L.freeList → b.addr ≠ a := by
    rintro ha rfl
    exact hL.not_mem_freeList hb halloc ha
  rw [mem_unlist hnodup, mem_unlist hL.nodup]
  simp only [List.mem_append, List.mem_cons, Option.mem_toList, Bool.true_eq_false, and_false,
    or_false]
  constructor
  · rintro ⟨⟨ha, haft⟩, hbef⟩
    refine ⟨ha, ?_⟩
    rintro c (hc | rfl | hc)
    · exact hbef c hc
    · exact hne ha
    · exact haft c hc
  · rintro ⟨ha, hall⟩
    exact ⟨⟨ha, fun c hc => hall c (.inr (.inr hc))⟩, fun c hc => hall c (.inl hc)⟩

theorem release (hL : L.WellFormed) (hb : b ∈ L.blocks) (halloc : b.alloc = true) :
    (L.release b).WellFormed := by
  obtain ⟨pre, post, hpre, hpost, hall, hlast, hhead⟩ := hL.neighbourhood hb
    (L.freeBefore b) (L.freeAfter b) (.inr rfl) (.inr rfl)
  have hnodup := nodup_unlist (L.freeBefore b) hL.nodup
  have hmem : ∀ a, a ∈ Layout.unlist (Layout.unlist L.freeList (L.freeBefore b)) (L.freeAfter b) ↔
      a ∈ L.freeList ∧
        ∀ c ∈ (L.freeBefore b).toList ++ b :: (L.freeAfter b).toList, c.addr ≠ a := by
    intro a
    have hne : a ∈ L.freeList → b.addr ≠ a := by
      rintro ha rfl
      exact hL.not_mem_freeList hb halloc ha
    rw [mem_unlist hnodup, mem_unlist hL.nodup]
    simp only [List.mem_append, List.mem_cons, Option.mem_toList]
    constructor
    · rintro ⟨⟨ha, hbef⟩, haft⟩
      refine ⟨ha, ?_⟩
      rintro c (hc | rfl | hc)
      · exact hbef c hc
      · exact hne ha
      · exact haft c hc
    · rintro ⟨ha, hall⟩
      exact ⟨⟨ha, fun c hc => hall c (.inl hc)⟩, fun c hc => hall c (.inr (.inr hc))⟩
  refine hL.fuse hall hpre hpost (.inr (hlast rfl)) (.inr (hhead rfl)) hb ?_ fun a => ?_
  · refine List.nodup_cons.mpr ⟨?_, nodup_unlist _ hnodup⟩
    intro hin
    have hout := ((hmem _).mp hin).2
    rcases hp : L.freeBefore b with _ | p
    · exact hout b (by simp) (by simp [Block.absorb, hp])
    · exact hout p (by simp [hp]) (by simp [Block.absorb, hp])
  · rw [List.mem_cons, hmem a]
    simp only [and_true]
    rw [or_comm, eq_comm]

theorem mem_freeList (hL : L.WellFormed) (hb : b ∈ L.all) (hfree : b.alloc = false) :
    b.addr ∈ L.freeList :=
  (hL.mem_free _).mpr ⟨b, hb, rfl, hfree⟩

theorem exists_around (hb : b ∈ L.blocks) :
    ∃ pre post, pre ≠ [] ∧ post ≠ [] ∧ L.all = pre ++ [b] ++ post := by
  obtain ⟨pre, p, n, post, hall⟩ := window hb
  exact ⟨pre ++ [p], n :: post, by simp, by simp, by simp [hall]⟩

theorem mem_erase_free_iff (hL : L.WellFormed) {a : Nat} :
    a ∈ L.freeList.erase b.addr ↔ a ∈ L.freeList ∧ ∀ c ∈ [b], c.addr ≠ a := by
  rw [hL.nodup.mem_erase_iff]
  simp [and_comm, eq_comm]

theorem place (hL : L.WellFormed) (hb : b ∈ L.blocks) (hfree : b.alloc = false) (k : Need)
    (hfit : k.bytes ≤ b.size) : (L.place b k).WellFormed := by
  obtain ⟨pre, post, hpre, hpost, hall⟩ := exists_around hb
  have hchain := hL.coalesced
  rw [hall] at hchain
  have hb' : Tiles Block.addr Block.stop b.addr [b] b.stop := ⟨rfl, rfl⟩
  -- both neighbours of a free block are allocated
  have hlast : ∀ p ∈ pre.getLast?, p.alloc = true := by
    intro p hp
    have h := (List.isChain_append.mp hchain.left_of_append).2.2 p hp b rfl
    simpa [Apart, hfree] using h
  have hhead : ∀ n ∈ post.head?, n.alloc = true := by
    intro n hn
    have h := (List.isChain_append.mp hchain).2.2 b (by simp) n hn
    simpa [Apart, hfree] using h
  unfold Layout.place
  split
  · refine hL.rebuild hall hpre hpost (by simp) hb' ?_ ?_ ?_ ?_ ?_
    · refine ⟨rfl, rfl, ?_⟩
      change b.addr + k.bytes + (b.size - k.bytes) = b.addr + b.size
      omega
    · have := k.large
      intro c hc
      simp only [List.mem_cons, List.not_mem_nil, or_false] at hc
      rcases hc with rfl | rfl <;> assumption
    · refine ((hchain.left_of_append.left_of_append.append ?_ ?_).append
        hchain.right_of_append ?_)
      · exact List.isChain_cons_cons.mpr ⟨.inl rfl, List.isChain_singleton _⟩
      · intro p hp c hc
        exact .inl (hlast p hp)
      · intro c hc n hn
        exact .inr (hhead n hn)
    · refine List.nodup_cons.mpr ⟨?_, hL.nodup.erase _⟩
      intro hin
      obtain ⟨c, hc, hca, -⟩ := (hL.mem_free _).mp (List.mem_of_mem_erase hin)
      -- no block starts in the middle of `b`
      have hpos := k.large
      rcases hL.eq_or_disjoint (mem_all_of_mem hb) hc with rfl | hle | hle
      · change b.addr = b.addr + k.bytes at hca
        omega
      · change b.addr + b.size ≤ c.addr at hle
        change c.addr = b.addr + k.bytes at hca
        omega
      · have := c.addr_lt_stop
        change c.addr = b.addr + k.bytes at hca
        omega
    · intro a
      rw [List.mem_cons, hL.mem_erase_free_iff, or_comm, eq_comm]
      simp only [List.mem_cons, List.not_mem_nil, or_false, exists_eq_or_imp, exists_eq_left,
        Bool.true_eq_false, and_false, false_or, and_true]
  · have hnew : Tiles Block.addr Block.stop b.addr [{ b with alloc := true }] b.stop := ⟨rfl, rfl⟩
    refine hL.rebuild hall hpre hpost (by simp) hb' hnew ?_ ?_ (hL.nodup.erase _) ?_
    · intro c hc
      obtain rfl : c = { b with alloc := true } := by simpa using hc
      exact hL.large b hb
    · refine ((hchain.left_of_append.left_of_append.append (List.isChain_singleton _) ?_).append
        hchain.right_of_append ?_)
      · intro p hp c hc
        exact .inl (hlast p hp)
      · intro c hc n hn
        exact .inr (hhead n hn)
    · intro a
      rw [hL.mem_erase_free_iff]
      simp

theorem extend_all (k : Need) : (L.extend k).all =
    L.prologue :: L.blocks ++ [⟨L.top, k.bytes, true, k.aligned, (by decide : 16 ≤ 32).trans k.large⟩,
      ⟨L.top + k.bytes, 16, true, rfl, le_rfl⟩] := by
  simp [Layout.all, Layout.extend, Layout.prologue, Layout.epilogue]

theorem extend (hL : L.WellFormed) (k : Need) (hroom : L.brk + k.bytes ≤ L.maxAddr) :
    (L.extend k).WellFormed := by
  obtain ⟨e, hleft, htop, -⟩ := tiles_append.mp hL.tiles
  refine ⟨?_, ?_, ?_, hL.nodup, ?_, ?_⟩
  · rw [extend_all]
    refine tiles_append.mpr ⟨e, hleft, htop, rfl, ?_⟩
    change L.top + k.bytes + 16 = L.top + k.bytes + 16
    rfl
  · intro c hc
    rcases List.mem_append.mp hc with hc | hc
    · exact hL.large c hc
    · obtain rfl := List.mem_singleton.mp hc
      exact k.large
  · intro a
    change a ∈ L.freeList ↔ _
    rw [hL.mem_free a, extend_all]
    constructor
    · rintro ⟨c, hc, hca, hcfree⟩
      exact ⟨c, by simp [mem_blocks_of_free hc hcfree], hca, hcfree⟩
    · rintro ⟨c, hc, hca, hcfree⟩
      rcases List.mem_append.mp hc with hc | hc
      · exact ⟨c, List.mem_append_left _ hc, hca, hcfree⟩
      · simp only [List.mem_cons, List.not_mem_nil, or_false] at hc
        rcases hc with rfl | rfl <;> simp at hcfree
  · rw [extend_all]
    have hchain := hL.coalesced
    refine hchain.left_of_append.append (List.isChain_cons_cons.mpr
      ⟨.inl rfl, List.isChain_singleton _⟩) ?_
    intro p hp c hc
    obtain rfl := by simpa using hc
    exact .inr rfl
  · change L.top + k.bytes + 16 ≤ L.start + maxHeap
    change L.top + 16 + k.bytes ≤ L.start + maxHeap at hroom
    omega

end Layout.WellFormed

end MallocLab.AbstractLayout
