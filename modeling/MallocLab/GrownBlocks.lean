import Mathlib.Data.List.Find
import MallocLab.HeapSoundness
import MallocLab.MergedFrees
import MallocLab.Determinism

/-!
Where `mm_realloc` puts a payload.  The block joins free neighbours in a fixed order of
preference, all of them as a whole; where no choice of neighbours suffices, the payload moves
to a block of `mm_malloc` and the old block is freed.
-/

namespace MallocLab.GrownBlocks

open MallocLab.Machine
open MallocLab.Mminline
open MallocLab.Mm
open MallocLab.Tiling
open MallocLab.BoundaryTags
open MallocLab.HeapPrograms
open MallocLab.HeapGrowth
open MallocLab.AbstractLayout
open MallocLab.AbstractLayout.Layout
open MallocLab.Representation
open MallocLab.Allocation
open MallocLab.Reallocation
open MallocLab.RequestArithmetic
open MallocLab.Traversal
open MallocLab.Runs
open MallocLab.HeapSoundness
open MallocLab.Determinism
open MallocLab.MergedFrees

/-- The free neighbours of a block, parted into those it joins and those it leaves. -/
structure Joining (α : Type) where
  left : List α
  before : List α
  after : List α
  right : List α

def Joining.map {α β : Type} (f : α → β) (c : Joining α) : Joining β :=
  ⟨c.left.map f, c.before.map f, c.after.map f, c.right.map f⟩

/-- The blocks that become one. -/
def Joining.run {α : Type} (c : Joining α) (b : α) : List α := c.before ++ b :: c.after

/-- In the order in which `mm_realloc` tries them. -/
def joinings {α : Type} (before after : List α) : List (Joining α) :=
  [⟨before, [], [], after⟩, ⟨[], before, [], after⟩, ⟨before, [], after, []⟩, ⟨[], before, after, []⟩]

def total (l : List Entry) : Nat := (l.map fun e => e.size.toNat).sum

/-- The first joining that reaches the size. -/
def chosen (before : List Entry) (b : Entry) (after : List Entry) (size : Word) :
    Option (Joining Entry) :=
  (joinings before after).find? fun c => (align size + tagsSize).toInt ≤ total (c.run b)

/-- `b` is the block of `p`, and `before` and `after` are its free neighbours. -/
structure Neighbours (pre before : List Entry) (b : Entry) (after post : List Entry) (p : Nat) :
    Prop where
  addr : b.addr + 8 = p
  single : before.length ≤ 1 ∧ after.length ≤ 1
  free : ∀ e ∈ before ++ after, e.allocated = 0
  maximal : (∀ e ∈ pre.getLast?, e.allocated ≠ 0) ∧ ∀ e ∈ post.head?, e.allocated ≠ 0

/-- The blocks of the joining have become the one allocated block of `q`, which has the data of
`b`. -/
structure Grown (h h' : Heap) (pre : List Entry) (c : Joining Entry) (b : Entry)
    (post : List Entry) (freeList : List Nat) (q : Nat) : Prop where
  block : ∃ m : Entry, m.allocated ≠ 0 ∧ m.addr + 8 = q ∧ (∀ e ∈ (c.run b).head?, m.addr = e.addr) ∧
    m.size.toNat = total (c.run b) ∧
    Shows h' (pre ++ c.left ++ [m] ++ c.right ++ post)
      (freeList.filter fun a => a ∉ (c.before ++ c.after).map Entry.addr)
  data : ∀ i < b.size.toNat - 16, h'.memory (q + i) = h.memory (b.addr + 8 + i)
  memBrk : h'.memBrk = h.memBrk

/-- The payload went to a block that `mm_malloc` found for the size of a block, and the old one
was freed; or there was none, and nothing happened. -/
structure Moved (h h' : Heap) (b : Entry) (p q : Nat) (size : Word) : Prop where
  malloc : ∃ h₁, (mmMalloc (align size + tagsSize)).run h = .ok (q, h₁) ∧ (q ≠ null →
    ∃ h₂, (mmFree p).run h₁ = .ok ((), h₂) ∧ SamePlacement h' h₂)
  failed : q = null → h' = h
  data : q ≠ null → ∀ i < b.size.toNat - 16, h'.memory (q + i) = h.memory (p + i)

section Layouts

variable {L : Layout} {b : Block} {k : Int} {before after : Option Block}

theorem joinings_map {α β : Type} (f : α → β) (before after : List α) :
    joinings (before.map f) (after.map f) = (joinings before after).map (Joining.map f) := rfl

/-- What `growth` finds is the first joining that is large enough. -/
theorem growth_eq_find (hlarge : ¬ k ≤ b.size) :
    (joinings (L.freeBefore b).toList (L.freeAfter b).toList).find?
        (fun c => k ≤ ((c.run b).map Block.size).sum) =
      (L.growth b k).map fun o =>
        ⟨if o.1 = none then (L.freeBefore b).toList else [], o.1.toList, o.2.toList,
          if o.2 = none then (L.freeAfter b).toList else []⟩ := by
  have hsize : ∀ before after : Option Block,
      (((⟨[], before.toList, after.toList, []⟩ : Joining Block).run b).map Block.size).sum =
        (b.absorb before after true).size := by
    intro before after
    rcases before with _ | p
    · rcases after with _ | n
      · simp [Joining.run, Block.absorb]
      · simp [Joining.run, Block.absorb]
    · rcases after with _ | n
      · simp [Joining.run, Block.absorb]
      · simp [Joining.run, Block.absorb, add_assoc]
  have hrun : ∀ (l r : List Block) (before after : List Block),
      (⟨l, before, after, r⟩ : Joining Block).run b =
        (⟨[], before, after, []⟩ : Joining Block).run b := fun _ _ _ _ => rfl
  have hnone := hsize none none
  have hbefore := hsize (L.freeBefore b) none
  have hafter := hsize none (L.freeAfter b)
  have hboth := hsize (L.freeBefore b) (L.freeAfter b)
  have hself : (b.absorb none none true).size = b.size := by simp [Block.absorb]
  simp only [Option.toList_none] at hnone hbefore hafter
  rw [WellFormed.growth_eq, joinings]
  simp only [List.find?_cons, hrun, hnone, hbefore, hafter, hboth, hself, decide_eq_false hlarge]
  generalize L.freeBefore b = before
  generalize L.freeAfter b = after
  rcases before with _ | p
  · rcases after with _ | n
    · simp [hself, hlarge]
    · by_cases hn : k ≤ (b.absorb none (some n) true).size
      · simp [hself, hlarge, hn]
      · simp [hself, hlarge, hn]
  · rcases after with _ | n
    · by_cases hp : k ≤ (b.absorb (some p) none true).size
      · simp [hp]
      · simp [hself, hlarge, hp]
    · by_cases hp : k ≤ (b.absorb (some p) none true).size
      · simp [hp]
      · by_cases hn : k ≤ (b.absorb none (some n) true).size
        · simp [hp, hn]
        · by_cases hpn : k ≤ (b.absorb (some p) (some n) true).size
          · simp [hp, hn, hpn]
          · simp [hp, hn, hpn]

/-- The blocks that are joined and those that are left are the free neighbours. -/
theorem rest_append {o before : Option Block} (hbefore : before = none ∨ before = o) :
    (if before = none then o.toList else []) ++ before.toList = o.toList := by
  rcases hbefore with rfl | rfl
  · simp
  · rcases before with _ | p
    · rfl
    · rfl

theorem append_rest {o after : Option Block} (hafter : after = none ∨ after = o) :
    after.toList ++ (if after = none then o.toList else []) = o.toList := by
  rcases hafter with rfl | rfl
  · simp
  · rcases after with _ | n
    · rfl
    · rfl

theorem grow_all {pre post : List Block} (hL : L.WellFormed)
    (hbefore : before = none ∨ before = L.freeBefore b)
    (hafter : after = none ∨ after = L.freeAfter b) (hpre : pre ≠ []) (hpost : post ≠ [])
    (hall : L.all = pre ++ ((L.freeBefore b).toList ++ b :: (L.freeAfter b).toList) ++ post) :
    (L.grow before b after).all = pre ++ (if before = none then (L.freeBefore b).toList else []) ++
      [b.absorb before after true] ++
      (if after = none then (L.freeAfter b).toList else []) ++ post := by
  have hall' : L.all = (pre ++ if before = none then (L.freeBefore b).toList else []) ++
      (before.toList ++ b :: after.toList) ++
      ((if after = none then (L.freeAfter b).toList else []) ++ post) := by
    have hleft := rest_append hbefore
    have hright := append_rest hafter
    generalize (if before = none then (L.freeBefore b).toList else []) = left at hleft ⊢
    generalize (if after = none then (L.freeAfter b).toList else []) = right at hright ⊢
    rw [hall, ← hleft, ← hright]
    simp only [List.append_assoc, List.cons_append]
  obtain ⟨s, e, hmid⟩ := hL.tiles_middle hall'
  have hjoined := WellFormed.tiles_absorb true hmid
  refine (hL.replace_all _ hall' (by simp [hpre]) (by simp [hpost]) (by simp) hjoined _).trans ?_
  simp only [List.append_assoc]

theorem grow_freeList (hL : L.WellFormed) (before after : Option Block) :
    (L.grow before b after).freeList =
      L.freeList.filter fun a => a ∉ (before.toList ++ after.toList).map Block.addr := by
  change unlist (unlist L.freeList after) before = _
  have hnodup : (unlist L.freeList after).Nodup := WellFormed.nodup_unlist after hL.nodup
  rw [unlist_eq_filter hnodup, unlist_eq_filter hL.nodup, List.filter_filter]
  apply List.filter_congr
  intro a _
  simp

end Layouts

section Represented

variable {h h' : Heap} {L : Layout} {b : Block} {before after : Option Block}
  {pre post : List Block} {size : Word} {q : Nat}

theorem total_map (hR : Represents h L) {l : List Block} (hl : ∀ c ∈ l, c ∈ L.all) :
    total (l.map entry) = (l.map Block.size).sum := sum_size hR hl

theorem run_map (c : Joining Block) (b : Block) :
    (c.map entry).run (entry b) = (c.run b).map entry := by
  simp [Joining.run, Joining.map]

/-- The block has grown into some of its free neighbours. -/
theorem grown (hR : Represents h L) (hb : b ∈ L.allocated)
    (hbefore : before = none ∨ before = L.freeBefore b)
    (hafter : after = none ∨ after = L.freeAfter b) (hpre : pre ≠ []) (hpost : post ≠ [])
    (hall : L.all = pre ++ ((L.freeBefore b).toList ++ b :: (L.freeAfter b).toList) ++ post)
    (hR' : Represents h' (L.grow before b after))
    (hcarried : Carried h h' L b (b.absorb before after true)) :
    Grown h h' (pre.map entry)
      (Joining.map entry ⟨if before = none then (L.freeBefore b).toList else [], before.toList,
        after.toList, if after = none then (L.freeAfter b).toList else []⟩)
      (entry b) (post.map entry) L.freeList ((b.absorb before after true).addr + 8) := by
  have hL := hR.wellFormed
  have hgrow := grow_all hL hbefore hafter hpre hpost hall
  have hshows := shows_layout hR'
  have hm : b.absorb before after true ∈ (L.grow before b after).all := by simp [hgrow]
  rw [hgrow, grow_freeList hL] at hshows
  have hrun : ∀ c ∈ before.toList ++ b :: after.toList, c ∈ L.all := by
    intro c hc
    rw [hall, ← rest_append hbefore, ← append_rest hafter]
    simp only [List.mem_append, List.mem_cons] at hc ⊢
    tauto
  constructor
  · refine ⟨entry (b.absorb before after true), ?_, rfl, ?_, ?_, ?_⟩
    · exact allocated_entry_iff.mpr rfl
    · intro e he
      rw [run_map, List.head?_map] at he
      obtain ⟨c, hc, rfl⟩ := Option.map_eq_some_iff.mp he
      rcases before with _ | p
      · obtain rfl := Option.some.inj hc
        rfl
      · obtain rfl := Option.some.inj hc
        rfl
    · rw [run_map]
      refine (toNat_size hR' hm).trans ?_
      refine Eq.trans ?_ (total_map hR hrun).symm
      rcases before with _ | p
      · rcases after with _ | n
        · simp [Block.absorb]
        · simp [Block.absorb]
      · rcases after with _ | n
        · simp [Block.absorb]
        · simp [Block.absorb, add_assoc]
    · have haddrs : (before.toList.map entry ++ after.toList.map entry).map Entry.addr =
          (before.toList ++ after.toList).map Block.addr := by
        rw [← List.map_append, List.map_map]
        rfl
      have hmap : ∀ left right : List Block,
          (pre ++ left ++ [b.absorb before after true] ++ right ++ post).map entry =
            pre.map entry ++ left.map entry ++ [entry (b.absorb before after true)] ++
              right.map entry ++ post.map entry := by
        intro left right
        simp only [List.map_append, List.map_cons, List.map_nil]
      rw [hmap, ← haddrs] at hshows
      exact hshows
  · intro i hi
    have hsize : (entry b).size.toNat = b.size := toNat_size hR (WellFormed.mem_all_of_mem hb.1)
    rw [hsize] at hi
    exact hcarried.kept i hi
  · rw [hR'.memBrk, hR.memBrk]
    rfl

/-- The block is large enough as it is. -/
theorem stays (hR : Represents h L) (hb : b ∈ L.allocated)
    (hall : L.all = pre ++ ((L.freeBefore b).toList ++ b :: (L.freeAfter b).toList) ++ post) :
    Grown h h (pre.map entry)
      (Joining.map entry ⟨(L.freeBefore b).toList, [], [], (L.freeAfter b).toList⟩)
      (entry b) (post.map entry) L.freeList (b.addr + 8) where
  block := by
    have hshows := shows_layout hR
    have hlist : L.freeList.filter (fun a => a ∉ ([] : List Entry).map Entry.addr) = L.freeList :=
      List.filter_eq_self.mpr (by simp)
    refine ⟨entry b, allocated_entry_iff.mpr hb.2, rfl, ?_, ?_, ?_⟩
    · intro e he
      obtain rfl := Option.some.inj he
      rfl
    · exact (Nat.add_zero _).symm
    · change Shows h _ (L.freeList.filter fun a => a ∉ ([] : List Entry).map Entry.addr)
      rw [hlist]
      rw [hall] at hshows
      simpa [Joining.map] using hshows
  data i _ := rfl
  memBrk := rfl

/-- The joining that `mm_realloc` chooses, among blocks. -/
theorem chosen_entry (hR : Represents h L)
    (hall : L.all = pre ++ ((L.freeBefore b).toList ++ b :: (L.freeAfter b).toList) ++ post)
    (size : Word) :
    chosen ((L.freeBefore b).toList.map entry) (entry b) ((L.freeAfter b).toList.map entry) size =
      ((joinings (L.freeBefore b).toList (L.freeAfter b).toList).find? fun c =>
        (align size + tagsSize).toInt ≤ ((c.run b).map Block.size).sum).map (Joining.map entry) := by
  have hsum : ∀ c ∈ joinings (L.freeBefore b).toList (L.freeAfter b).toList,
      total ((c.map entry).run (entry b)) = ((c.run b).map Block.size).sum := by
    intro c hc
    rw [run_map]
    refine total_map hR fun x hx => ?_
    rw [hall]
    simp only [joinings, List.mem_cons, List.not_mem_nil, or_false] at hc
    simp only [List.mem_append, List.mem_cons]
    rcases hc with rfl | rfl | rfl | rfl
    · simp [Joining.run] at hx
      tauto
    · simp [Joining.run] at hx ⊢
      tauto
    · simp [Joining.run] at hx ⊢
      tauto
    · simp [Joining.run] at hx ⊢
      tauto
  rw [chosen, joinings_map, List.find?_map]
  congr 1
  refine List.find?_congr fun c hc => ?_
  simp only [Function.comp_apply, hsum c hc]

/-- The payload moves, or there is nowhere to move it. -/
theorem moved_run (hR : Represents h L) (hb : b ∈ L.allocated) (hsize : size ≠ 0)
    (hint : IsInt size) (hlarge : ¬ (align size + tagsSize).toInt ≤ b.size)
    (hgrow : L.growth b (align size + tagsSize).toInt = none) :
    ∃ q h', (mmRealloc (payload b.addr) size).run h = .ok (q, h') ∧
      Moved h h' (entry b) (payload b.addr) q size := by
  have hL := hR.wellFormed
  have hserves : ReallocServes L b size := reallocServes_of_lt hint.2
  obtain ⟨h', hrun, hR', hnull, hmoved⟩ := mmRealloc_run hR hb hsize hserves.1
  have hsafe : MallocSafe L (align size + tagsSize) := by
    rcases hserves.1 with hfits | hin | hsafe
    · exact absurd hfits hlarge
    · rw [hgrow] at hin
      cases hin
    · exact hsafe.1
  obtain ⟨h₁, hmalloc, hR₁, -⟩ := mmMalloc_run hR hsafe
  have hresult : (L.reallocBlock b size).2 = (L.malloc (align size + tagsSize)).2 := by
    simp only [Layout.reallocBlock, if_neg hlarge, hgrow]
    split
    · rename_i hq
      exact hq.symm
    · rfl
  refine ⟨_, h', hrun, ⟨h₁, hresult ▸ hmalloc, fun hq => ?_⟩, hnull, fun hq i hi => ?_⟩
  · have hb₁ := allocated_malloc_mono hL (align size + tagsSize) hb
    obtain ⟨h₂, hfree, hR₂, -⟩ := hR₁.mmFree hb₁.1 hb₁.2
    refine ⟨h₂, hfree, samePlacement hR' ?_⟩
    have hlayout : (L.reallocBlock b size).1 = (L.malloc (align size + tagsSize)).1.release b := by
      rw [hresult] at hq
      simp only [Layout.reallocBlock, if_neg hlarge, hgrow, if_neg hq]
      exact hR₁.wellFormed.free_addr hb₁
    rw [hlayout]
    exact hR₂
  · obtain ⟨u, -, haddr, hcarried⟩ := hmoved hq
    have hbsize : (entry b).size.toNat = b.size := toNat_size hR (WellFormed.mem_all_of_mem hb.1)
    rw [hbsize] at hi
    rw [← haddr]
    exact hcarried.kept i hi

end Represented

/-- `mm_realloc` of a live pointer: its block becomes one with the first choice of free
neighbours that reaches the size, and leaves all other blocks where they are; without such a
choice the payload goes where `mm_malloc` puts a block of that size. -/
theorem realloc_places {cfg : Config} (hreach : Reachable IntCalls cfg) {p : Nat} {old size : Word}
    (hlive : (p, old) ∈ cfg.live) (hint : IsInt size) (hsize : size ≠ 0) :
    ∃ pre before b after post freeList q h',
      Shows cfg.heap (pre ++ (before ++ b :: after) ++ post) freeList ∧
      Neighbours pre before b after post p ∧
      (mmRealloc p size).run cfg.heap = .ok (q, h') ∧
      match chosen before b after size with
      | some c => Grown cfg.heap h' pre c b post freeList q
      | none => Moved cfg.heap h' b p q size := by
  obtain ⟨L, hI⟩ := hreach.invariant served_intCalls
  have hR := hI.represents
  have hL := hR.wellFormed
  obtain ⟨b, hb, rfl, -⟩ := hI.block_of_live hlive
  obtain ⟨pre, post, hpre, hpost, hall, hlast, hhead⟩ := hL.neighbourhood hb.1
    (L.freeBefore b) (L.freeAfter b) (.inr rfl) (.inr rfl)
  have hshows := shows_layout hR
  rw [hall, List.map_append, List.map_append, List.map_append, List.map_cons] at hshows
  have hneighbours : Neighbours (pre.map entry) ((L.freeBefore b).toList.map entry) (entry b)
      ((L.freeAfter b).toList.map entry) (post.map entry) (b.addr + 8) := by
    have hrun := freeRun hall (fun p hp => (free_of_freeBefore hp).1)
      (fun n hn => (free_of_freeAfter hn).1) (hlast rfl) (hhead rfl)
    refine ⟨rfl, ⟨?_, ?_⟩, fun e he => ?_, hrun.maximal⟩
    · cases L.freeBefore b <;> simp
    · cases L.freeAfter b <;> simp
    · rw [← List.map_append] at he
      obtain ⟨c, hc, rfl⟩ := List.mem_map.mp he
      apply entry_allocated_eq_zero_iff.mpr
      rcases List.mem_append.mp hc with hc | hc
      · exact (free_of_freeBefore (Option.mem_toList.mp hc)).1
      · exact (free_of_freeAfter (Option.mem_toList.mp hc)).1
  have hchosen := chosen_entry hR hall size
  suffices hout : ∃ q h', (mmRealloc (b.addr + 8) size).run cfg.heap = .ok (q, h') ∧
      match chosen ((L.freeBefore b).toList.map entry) (entry b) ((L.freeAfter b).toList.map entry)
        size with
      | some c => Grown cfg.heap h' (pre.map entry) c (entry b) (post.map entry) L.freeList q
      | none => Moved cfg.heap h' (entry b) (b.addr + 8) q size by
    obtain ⟨q, h', hrun, hplaces⟩ := hout
    exact ⟨_, _, _, _, _, _, q, h', hshows, hneighbours, hrun, hplaces⟩
  rw [hchosen]
  rcases Decidable.em ((align size + tagsSize).toInt ≤ b.size) with hfits | hlarge
  · have hfirst : ((joinings (L.freeBefore b).toList (L.freeAfter b).toList).find? fun c =>
        (align size + tagsSize).toInt ≤ ((c.run b).map Block.size).sum) =
        some ⟨(L.freeBefore b).toList, [], [], (L.freeAfter b).toList⟩ := by
      rw [joinings]
      exact List.find?_cons_of_pos (by simpa [Joining.run] using hfits)
    rw [hfirst]
    have hstays := mmRealloc_run_fits hR (WellFormed.mem_all_of_mem hb.1) hsize hfits
    exact ⟨_, cfg.heap, hstays, stays hR hb hall⟩
  · rw [growth_eq_find hlarge]
    rcases hgrow : L.growth b (align size + tagsSize).toInt with _ | ⟨before, after⟩
    · obtain ⟨q, h', hrun, hmoved⟩ := moved_run hR hb hsize hint hlarge hgrow
      exact ⟨q, h', hrun, hmoved⟩
    · obtain ⟨h', hrun, hR', hcarried⟩ := mmRealloc_run_growth hR hb hsize hlarge hgrow
      obtain ⟨hbefore, hafter, -⟩ := WellFormed.growth_some hgrow
      exact ⟨_, h', hrun, grown hR hb hbefore hafter hpre hpost hall hR' hcarried⟩

/-- The free block of 40 bytes before it suffices. -/
theorem realloc_places_sample : ∃ pre before b after post freeList h',
    Shows sampleHeap (pre ++ (before ++ b :: after) ++ post) freeList ∧
    Neighbours pre before b after post 4160 ∧ (mmRealloc 4160 60).run sampleHeap = .ok (4120, h') ∧
    match chosen before b after 60 with
    | some c => Grown sampleHeap h' pre c b post freeList 4120
    | none => Moved sampleHeap h' b 4160 4120 60 := by
  have hint : IsInt 60 := ⟨by decide, by decide⟩
  have hlive : (4160, 40) ∈ sampleLive := by decide
  obtain ⟨h₁, hrun₁, -⟩ := exec_run sample_run.2 (c := .realloc 4160 60) (.inr ⟨40, hlive⟩)
    (serves_of_int hint)
  obtain ⟨pre, before, b, after, post, freeList, q, h', hshows, hneighbours, hrun, hplaces⟩ :=
    realloc_places sample_reachable_int hlive hint (by decide)
  have hresult : (4120, h₁) = (q, h') := Except.ok.inj (hrun₁.symm.trans hrun)
  obtain ⟨rfl, rfl⟩ := Prod.mk.inj hresult
  exact ⟨pre, before, b, after, post, freeList, h₁, hshows, hneighbours, hrun, hplaces⟩

end MallocLab.GrownBlocks
