import MallocLab.FreeLists

/-!
The circular free list against a plain list: what `insert_free_block` and
`pull_free_block` do to the sequence, to its head and to the words of memory.
-/

namespace MallocLab.ListRefinement

open MallocLab.ByteMemory
open MallocLab.Machine
open MallocLab.Mminline
open MallocLab.HeapPrograms
open MallocLab.LinkRing
open MallocLab.FreeLists

variable {h h' h'' : Heap} {fb : Nat} {L : List Nat}

/-- `flist_first` and the link words of the blocks of `L` are in `h'` what they are in `h`. -/
structure SameLinks (h h' : Heap) (L : List Nat) : Prop where
  first : h'.flistFirst = h.flistFirst
  flink : ∀ a ∈ L, h'.word (a + 8) = h.word (a + 8)
  blink : ∀ a ∈ L, h'.word (a + 16) = h.word (a + 16)

/-- A sequence of blocks leaves no choice for `flist_first` and the links. -/
theorem sameLinks_of_freeList (hL : FreeList h L) (hL' : FreeList h' L) : SameLinks h h' L where
  first := hL'.first.trans hL.first.symm
  flink _ ha := BitVec.eq_of_toNat_eq (hL.ring.links_unique hL'.ring ha).1
  blink _ ha := BitVec.eq_of_toNat_eq (hL.ring.links_unique hL'.ring ha).2

/-- What `flist_first` is after `fb` was pulled. -/
def headAfterPull (h : Heap) (L : List Nat) (fb : Nat) : Nat :=
  if h.flistFirst = fb then
    if L = [fb] then null else flink h fb
  else
    h.flistFirst

theorem flistFirst_pull (hL : FreeList h L) (hfb : fb ∈ L) (hL' : FreeList h' (L.erase fb)) :
    h'.flistFirst = headAfterPull h L fb := by
  rw [hL'.first, headAfterPull]
  cases L with
  | nil => cases hfb
  | cons a L =>
      rw [hL.first, List.headD_cons]
      rcases Decidable.em (a = fb) with rfl | hne
      · rw [if_pos rfl, List.erase_cons_head]
        have hnext : flink h a = (L ++ []).headD a := hL.ring.next_eq (s := [])
        cases L with
        | nil => rw [if_pos rfl, List.headD_nil]
        | cons b L =>
            have hlong : a :: b :: L ≠ [a] := by simp
            rw [if_neg hlong, hnext]
            rfl
      · have hbeq : ¬ (a == fb) = true := fun heq => hne (eq_of_beq heq)
        rw [if_neg hne, List.erase_cons_tail hbeq]
        rfl

/-- For every sequence of free blocks that share no word, inserting conses, pulling erases at
any position, and pulling what was just inserted gives the links back. -/
theorem list_refinement (hL : FreeList h L) :
    (∀ fb, FreeNode h fb → fb ∉ L → (∀ a ∈ L, Clear fb a) →
      ∃ h', (insertFreeBlock fb).run h = .ok ((), h') ∧ FreeList h' (fb :: L) ∧
        SameExcept h h' (linkBytes (fb :: L)) ∧
        ∃ h'', (pullFreeBlock fb).run h' = .ok ((), h'') ∧ FreeList h'' L ∧ SameLinks h h'' L) ∧
    ∀ fb ∈ L, ∃ h', (pullFreeBlock fb).run h = .ok ((), h') ∧ FreeList h' (L.erase fb) ∧
      SameExcept h h' (linkBytes L) ∧ h'.flistFirst = headAfterPull h L fb := by
  constructor
  · intro fb hfb hnew hclear
    obtain ⟨h', hrun, hlist, hsame⟩ := hL.insert hfb hnew hclear
    obtain ⟨h'', hrun', hlist', -⟩ := hlist.pull List.mem_cons_self
    rw [List.erase_cons_head] at hlist'
    exact ⟨h', hrun, hlist, hsame, h'', hrun', hlist', sameLinks_of_freeList hL hlist'⟩
  · intro fb hfb
    obtain ⟨h', hrun, hlist, hsame⟩ := hL.pull hfb
    exact ⟨h', hrun, hlist, hsame, flistFirst_pull hL hfb hlist⟩

section Sample

/-- Zeroed memory; every block in it is free. -/
def zeroed : Heap :=
  { memInit ⟨8192, rfl, by decide, by decide⟩ (fun _ => 0) with memBrk := 8288 }

theorem freeNode_zeroed {a : Nat} (hlo : 8192 ≤ a) (hhi : a + 24 ≤ 8288) :
    FreeNode zeroed a where
  inHeap := ⟨hlo, hhi⟩
  free := by
    have hword : zeroed.word a = 0 := by simp [zeroed, memInit, Heap.word, load]
    rw [hword]
    rfl
  small := by omega

theorem freeList_zeroed : FreeList zeroed [] :=
  ⟨rfl, ring_nil, List.nodup_nil, fun _ ha => absurd ha List.not_mem_nil,
    fun _ ha => absurd ha List.not_mem_nil⟩

/-- The second of two listed blocks is pulled, and the head stays. -/
theorem list_refinement_sample : ∃ h h', FreeList h [8224, 8192] ∧
    (pullFreeBlock 8192).run h = .ok ((), h') ∧ FreeList h' [8224] ∧ h'.flistFirst = 8224 := by
  obtain ⟨h₁, -, hL₁, hsame, -⟩ := (list_refinement freeList_zeroed).1 8192
    (freeNode_zeroed (by omega) (by omega)) List.not_mem_nil (fun _ ha => absurd ha List.not_mem_nil)
  have hapart : Clear 8192 8224 := .inr (.inl (by omega))
  have hnode : FreeNode h₁ 8224 := by
    apply (freeNode_zeroed (a := 8224) (by omega) (by omega)).congr hsame
    intro a ha
    obtain rfl : a = 8192 := List.mem_singleton.mp ha
    exact hapart
  obtain ⟨h₂, -, hL₂, -⟩ := (list_refinement hL₁).1 8224 hnode (by decide) fun a ha => by
    obtain rfl : a = 8192 := List.mem_singleton.mp ha
    exact hapart.symm
  obtain ⟨h₃, hrun, hL₃, -, hfirst⟩ := (list_refinement hL₂).2 8192 (by decide)
  exact ⟨h₂, h₃, hL₂, hrun, hL₃, hL₃.first⟩

end Sample

end MallocLab.ListRefinement
