import MallocLab.AbstractLayout
import MallocLab.FreeLists

/-!
The part of the heap invariant that holds in the middle of a call: a set of
blocks with sound tags that do not overlap, and a sound free list of some of
them.  The lemmas say how one list operation or one retagging acts on it.
-/

namespace MallocLab.HeapInvariant

open MallocLab.ByteMemory
open MallocLab.Machine
open MallocLab.Mminline
open MallocLab.HeapPrograms
open MallocLab.BoundaryTags
open MallocLab.FreeLists
open MallocLab.AbstractLayout

/-- `c` and `m` share no byte. -/
def Separate (c m : Block) : Prop := c.stop ≤ m.addr ∨ m.stop ≤ c.addr

structure Holds (h : Heap) (S : Set Block) (fl : List Nat) : Prop where
  fits : h.memBrk ≤ h.memMaxAddr
  tagged : ∀ b ∈ S, Tagged h b.addr b.size b.alloc
  disjoint : ∀ b ∈ S, ∀ c ∈ S, b = c ∨ Separate b c
  listed : ∀ a ∈ fl, ∃ b ∈ S, b.addr = a ∧ b.alloc = false ∧ 32 ≤ b.size
  list : FreeList h fl

/-- The blocks after `m` was written over whatever overlapped it. -/
def overwrite (S : Set Block) (m : Block) : Set Block :=
  {c | c = m ∨ c ∈ S ∧ Separate c m}

/-- The bytes at both ends of a block that its tags and links may use. -/
def rim (b : Block) : Set Nat := Set.Ico b.addr (b.addr + 24) ∪ Set.Ico (b.stop - 8) b.stop

def rims (S : Set Block) : Set Nat := {x | ∃ b ∈ S, x ∈ rim b}

def freeOf (S : Set Block) : Set Block := {b | b ∈ S ∧ b.alloc = false}

theorem Separate.symm {c m : Block} (h : Separate c m) : Separate m c := Or.symm h

theorem tagBytes_subset_rim (b : Block) : tagBytes b.addr b.size ⊆ rim b := by
  have := b.large
  rintro x (⟨hlo, hhi⟩ | ⟨hlo, hhi⟩)
  · exact .inl ⟨hlo, by omega⟩
  · exact .inr ⟨hlo, hhi⟩

section Overwrite

variable {S : Set Block} {b m : Block}

theorem mem_overwrite_self : m ∈ overwrite S m := .inl rfl

theorem mem_overwrite_of_disjoint (hb : b ∈ S) (h : Separate b m) : b ∈ overwrite S m :=
  .inr ⟨hb, h⟩

theorem overwrite_self (hdisjoint : ∀ b ∈ S, ∀ c ∈ S, b = c ∨ Separate b c) (hm : m ∈ S) :
    overwrite S m = S := by
  ext c
  constructor
  · rintro (rfl | ⟨hc, -⟩)
    · exact hm
    · exact hc
  · intro hc
    exact (hdisjoint c hc m hm).imp id fun h => ⟨hc, h⟩

/-- Only the last of two nested blocks written over each other remains. -/
theorem overwrite_overwrite (hlo : m.addr ≤ b.addr) (hhi : b.stop ≤ m.stop) :
    overwrite (overwrite S b) m = overwrite S m := by
  have hb := b.addr_lt_stop
  ext c
  constructor
  · rintro (rfl | ⟨rfl | ⟨hc, -⟩, hcm⟩)
    · exact mem_overwrite_self
    · unfold Separate at hcm
      omega
    · exact .inr ⟨hc, hcm⟩
  · rintro (rfl | ⟨hc, hcm⟩)
    · exact mem_overwrite_self
    · refine .inr ⟨.inr ⟨hc, ?_⟩, hcm⟩
      unfold Separate at *
      omega

end Overwrite

namespace Holds

variable {h h' : Heap} {S : Set Block} {fl : List Nat} {b c m : Block} {a : Nat}

theorem freeNode (hS : Holds h S fl) (hb : b ∈ S) (hfree : b.alloc = false)
    (hlarge : 32 ≤ b.size) : FreeNode h b.addr where
  inHeap := by
    have hin := (hS.tagged b hb).inHeap
    unfold Heap.InHeap at *
    omega
  free := by
    have hbit := (hS.tagged b hb).header_bit
    rwa [hfree] at hbit
  small := by
    have hin := (hS.tagged b hb).inHeap.2
    have hfits := hS.fits
    have harena := h.arena.fits
    unfold Heap.memMaxAddr at hfits
    omega

theorem large_of_listed (hS : Holds h S fl) (hb : b ∈ S) (hbl : b.addr ∈ fl) : 32 ≤ b.size := by
  obtain ⟨c, hc, hcb, -, hlarge⟩ := hS.listed _ hbl
  rcases hS.disjoint c hc b hb with rfl | hd
  · exact hlarge
  · have hcpos := c.addr_lt_stop
    have hbpos := b.addr_lt_stop
    unfold Separate at hd
    omega

theorem clear (hS : Holds h S fl) (hb : b ∈ S) (hc : c ∈ S) (hlarge : 32 ≤ b.size)
    (hlarge' : 32 ≤ c.size) : Clear b.addr c.addr := by
  rcases hS.disjoint b hb c hc with rfl | hd
  · exact .refl _
  · unfold Separate Block.stop at hd
    unfold Clear
    omega

/-- The link words of listed blocks are no tag of any block. -/
theorem tagBytes_not_mem_linkBytes (hS : Holds h S fl) (hb : b ∈ S) {x : Nat}
    (hx : x ∈ tagBytes b.addr b.size) : x ∉ linkBytes fl := by
  rintro ⟨a, ha, hlo, hhi⟩
  obtain ⟨c, hc, rfl, -, hlarge⟩ := hS.listed a ha
  have hblarge := b.large
  rcases hS.disjoint b hb c hc with rfl | hd
  · rcases hx with ⟨h₁, h₂⟩ | ⟨h₁, h₂⟩ <;> omega
  · unfold Separate Block.stop at hd
    rcases hx with ⟨h₁, h₂⟩ | ⟨h₁, h₂⟩ <;> omega

theorem linkBytes_subset_rims (hS : Holds h S fl) : linkBytes fl ⊆ rims (freeOf S) := by
  rintro x ⟨a, ha, hlo, hhi⟩
  obtain ⟨c, hc, rfl, hfree, -⟩ := hS.listed a ha
  exact ⟨c, ⟨hc, hfree⟩, .inl ⟨by omega, hhi⟩⟩

theorem fits_congr {A : Set Nat} (hfits : h.memBrk ≤ h.memMaxAddr) (hsame : SameExcept h h' A) :
    h'.memBrk ≤ h'.memMaxAddr := by
  rw [hsame.memBrk, hsame.memMaxAddr]
  exact hfits

theorem pull (hS : Holds h S fl) (ha : a ∈ fl) :
    ∃ h', (pullFreeBlock a).run h = .ok ((), h') ∧ Holds h' S (fl.erase a) ∧
      SameExcept h h' (linkBytes fl) := by
  obtain ⟨h', hrun, hlist, hsame⟩ := hS.list.pull ha
  refine ⟨h', hrun, ?_, hsame⟩
  refine ⟨fits_congr hS.fits hsame, fun b hb => ?_, hS.disjoint, fun a ha => ?_, hlist⟩
  · exact (hS.tagged b hb).congr hsame fun x hx => hS.tagBytes_not_mem_linkBytes hb hx
  · exact hS.listed a (List.mem_of_mem_erase ha)

theorem insert (hS : Holds h S fl) (hb : b ∈ S) (hfree : b.alloc = false) (hlarge : 32 ≤ b.size)
    (hnew : b.addr ∉ fl) :
    ∃ h', (insertFreeBlock b.addr).run h = .ok ((), h') ∧ Holds h' S (b.addr :: fl) ∧
      SameExcept h h' (linkBytes (b.addr :: fl)) := by
  have hclear : ∀ a ∈ fl, Clear b.addr a := by
    intro a ha
    obtain ⟨c, hc, rfl, -, hclarge⟩ := hS.listed a ha
    exact hS.clear hb hc hlarge hclarge
  obtain ⟨h', hrun, hlist, hsame⟩ :=
    hS.list.insert (hS.freeNode hb hfree hlarge) hnew hclear
  have hlisted : ∀ a ∈ b.addr :: fl, ∃ c ∈ S, c.addr = a ∧ c.alloc = false ∧ 32 ≤ c.size := by
    intro a ha
    rcases List.mem_cons.mp ha with rfl | ha
    · exact ⟨b, hb, rfl, hfree, hlarge⟩
    · exact hS.listed a ha
  refine ⟨h', hrun, ?_, hsame⟩
  refine ⟨fits_congr hS.fits hsame, fun c hc => ?_, hS.disjoint, hlisted, hlist⟩
  refine (hS.tagged c hc).congr hsame fun x hx => ?_
  rintro ⟨a, ha, hlo, hhi⟩
  rcases List.mem_cons.mp ha with rfl | ha
  · have hclarge := c.large
    rcases hS.disjoint c hc b hb with rfl | hd
    · rcases hx with ⟨h₁, h₂⟩ | ⟨h₁, h₂⟩ <;> omega
    · unfold Separate Block.stop at hd
      rcases hx with ⟨h₁, h₂⟩ | ⟨h₁, h₂⟩ <;> omega
  · exact hS.tagBytes_not_mem_linkBytes hc hx ⟨a, ha, hlo, hhi⟩

/-- Writing the tags of a block over blocks that are not listed. -/
theorem retag (hS : Holds h S fl) (m : Block) (hin : h.InHeap m.addr m.size)
    (hout : ∀ c ∈ S, c.addr ∈ fl → Separate c m) :
    Holds (setTags h m.addr m.size m.alloc) (overwrite S m) fl := by
  have hsame := sameExcept_setTags (h := h) (b := m.addr) m.large m.alloc
  have hmlarge := m.large
  have hsmall : m.size < 2 ^ 63 := by
    have hfits := hS.fits
    unfold Heap.InHeap Heap.memStartBrk at hin
    unfold Heap.memMaxAddr maxHeap at hfits
    omega
  have hlistOut : ∀ a ∈ fl, a + 32 ≤ m.addr ∨ m.stop ≤ a := by
    intro a ha
    obtain ⟨c, hc, rfl, -, hclarge⟩ := hS.listed a ha
    have hd := hout c hc ha
    unfold Separate at hd
    change c.addr + c.size ≤ _ ∨ _ at hd
    omega
  have hword : ∀ a ∈ fl, ∀ i < 3,
      (setTags h m.addr m.size m.alloc).word (a + 8 * i) = h.word (a + 8 * i) := by
    intro a ha i hi
    refine hsame.word_eq fun x hlo hhi hx => ?_
    have hd := hlistOut a ha
    unfold Block.stop at hd
    rcases hx with ⟨h₁, h₂⟩ | ⟨h₁, h₂⟩ <;> omega
  refine ⟨fits_congr hS.fits hsame, ?_, ?_, ?_, ?_⟩
  · rintro c (rfl | ⟨hc, hd⟩)
    · exact tagged_setTags c.aligned c.large hsmall hin c.alloc
    · refine (hS.tagged c hc).congr hsame fun x hx hxm => ?_
      have hclarge := c.large
      unfold Separate Block.stop at hd
      rcases hx with ⟨h₁, h₂⟩ | ⟨h₁, h₂⟩ <;> rcases hxm with ⟨h₃, h₄⟩ | ⟨h₃, h₄⟩ <;> omega
  · rintro c (rfl | ⟨hc, hd⟩) e (rfl | ⟨he, hd'⟩)
    · exact .inl rfl
    · exact .inr hd'.symm
    · exact .inr hd
    · exact hS.disjoint c hc e he
  · intro a ha
    obtain ⟨c, hc, rfl, hrest⟩ := hS.listed a ha
    exact ⟨c, .inr ⟨hc, hout c hc ha⟩, rfl, hrest⟩
  · refine ⟨hS.list.first, ?_, hS.list.nodup, fun a ha => ?_, hS.list.clear⟩
    · refine hS.list.ring.congr (fun a ha => ?_) fun a ha => ?_
      · exact congrArg BitVec.toNat (hword a ha 1 (by omega))
      · exact congrArg BitVec.toNat (hword a ha 2 (by omega))
    · have hnode := hS.list.node a ha
      exact ⟨hnode.inHeap, (congrArg (· &&& 1#64) (hword a ha 0 (by omega))).trans hnode.free,
        hnode.small⟩

/-- Nothing is lost when the break rises or when bytes change that are neither
tags nor words of listed blocks. -/
theorem congr (hS : Holds h S fl) (harena : h'.arena = h.arena) (hbrk : h.memBrk ≤ h'.memBrk)
    (hfits : h'.memBrk ≤ h'.memMaxAddr) (hfirst : h'.flistFirst = h.flistFirst)
    (htags : ∀ b ∈ S, ∀ x ∈ tagBytes b.addr b.size, h'.memory x = h.memory x)
    (hlinks : ∀ a ∈ fl, ∀ x ∈ Set.Ico a (a + 24), h'.memory x = h.memory x) :
    Holds h' S fl := by
  have hin : ∀ a k, h.InHeap a k → h'.InHeap a k := by
    rintro a k ⟨hlo, hhi⟩
    refine ⟨?_, hhi.trans hbrk⟩
    rw [Heap.memStartBrk, harena]
    exact hlo
  have hword : ∀ a ∈ fl, ∀ i < 3, h'.word (a + 8 * i) = h.word (a + 8 * i) := by
    intro a ha i hi
    exact load_congr fun x hlo hhi => hlinks a ha x ⟨by omega, by omega⟩
  refine ⟨hfits, fun b hb => ?_, hS.disjoint, hS.listed, ?_⟩
  · have ht := hS.tagged b hb
    have hlarge := ht.large
    refine ⟨ht.aligned, ht.large, ht.small, hin _ _ ht.inHeap, ?_, ?_⟩
    · rw [← ht.header]
      exact load_congr fun x hlo hhi => htags b hb x (.inl ⟨hlo, hhi⟩)
    · rw [← ht.endTag]
      exact load_congr fun x hlo hhi => htags b hb x (.inr ⟨hlo, by omega⟩)
  · refine ⟨hfirst.trans hS.list.first, ?_, hS.list.nodup, fun a ha => ?_, hS.list.clear⟩
    · refine hS.list.ring.congr (fun a ha => ?_) fun a ha => ?_
      · exact congrArg BitVec.toNat (hword a ha 1 (by omega))
      · exact congrArg BitVec.toNat (hword a ha 2 (by omega))
    · have hnode := hS.list.node a ha
      exact ⟨hin _ _ hnode.inHeap,
        (congrArg (· &&& 1#64) (hword a ha 0 (by omega))).trans hnode.free, hnode.small⟩

/-- The bytes between the tags of an allocated block are nobody else's. -/
theorem write (hS : Holds h S fl) (hm : m ∈ S) (halloc : m.alloc = true)
    (harena : h'.arena = h.arena) (hbrk : h'.memBrk = h.memBrk)
    (hfirst : h'.flistFirst = h.flistFirst)
    (hmem : ∀ x, x ∉ Set.Ico (m.addr + 8) (m.stop - 8) → h'.memory x = h.memory x) :
    Holds h' S fl := by
  have hfits : h'.memBrk ≤ h'.memMaxAddr := by
    rw [hbrk, Heap.memMaxAddr, harena]
    exact hS.fits
  have hmpos := m.addr_lt_stop
  refine hS.congr harena hbrk.ge hfits hfirst (fun c hc x hx => ?_) fun a ha x hx => ?_
  · have hcx : x ∈ Set.Ico c.addr c.stop := by
      have hlarge := c.large
      unfold Block.stop
      rcases hx with ⟨hlo, hhi⟩ | ⟨hlo, hhi⟩ <;> constructor <;> omega
    apply hmem
    rintro ⟨hlo, hhi⟩
    rcases hS.disjoint c hc m hm with rfl | hd
    · rcases hx with ⟨-, h₂⟩ | ⟨h₁, -⟩
      · omega
      · unfold Block.stop at hhi
        omega
    · obtain ⟨h₁, h₂⟩ := hcx
      unfold Separate at hd
      omega
  · obtain ⟨c, hc, rfl, hcfree, hclarge⟩ := hS.listed a ha
    apply hmem
    rintro ⟨hlo, hhi⟩
    obtain ⟨h₁, h₂⟩ := hx
    rcases hS.disjoint c hc m hm with rfl | hd
    · simp [halloc] at hcfree
    · unfold Separate Block.stop at hd
      unfold Block.stop at hhi
      omega

end Holds

end MallocLab.HeapInvariant
