import MallocLab.MallocPackage

/-!
The ends of the heap: no call moves its start, and none moves its end down.
-/

namespace MallocLab.HeapExtents

open MallocLab.Machine
open MallocLab.Mm
open MallocLab.HeapPrograms
open MallocLab.AbstractLayout
open MallocLab.AbstractLayout.Layout
open MallocLab.Representation
open MallocLab.Runs
open MallocLab.MallocPackage

section Layouts

variable {L L' L'' : Layout}

structure Grows (L L' : Layout) : Prop where
  start : L'.start = L.start
  top : L.top ≤ L'.top

theorem Grows.refl (L : Layout) : Grows L L := ⟨rfl, le_rfl⟩

theorem Grows.trans (h : Grows L L') (h' : Grows L' L'') : Grows L L'' :=
  ⟨h'.start.trans h.start, h.top.trans h'.top⟩

theorem grows_place (L : Layout) (x : Block) (n : Need) : Grows L (L.place x n) :=
  ⟨place_start L x n, (place_top L x n).ge⟩

theorem grows_extend (L : Layout) (n : Need) : Grows L (L.extend n) :=
  ⟨rfl, Nat.le_add_right _ _⟩

theorem grows_malloc (L : Layout) (size : Word) : Grows L (L.malloc size).1 := by
  rw [Layout.malloc]
  split
  · exact .refl L
  · split
    · exact grows_place L _ _
    · split
      · exact grows_extend L _
      · exact .refl L

theorem free_start (L : Layout) (ptr : Nat) : (L.free ptr).start = L.start := by
  rw [Layout.free]
  split
  · split
    · rfl
    · rfl
  · rfl

theorem grows_free (L : Layout) (ptr : Nat) : Grows L (L.free ptr) :=
  ⟨free_start L ptr, (free_top L ptr).ge⟩

theorem grows_reallocBlock (L : Layout) (b : Block) (size : Word) :
    Grows L (L.reallocBlock b size).1 := by
  rw [Layout.reallocBlock]
  split
  · exact .refl L
  · split
    · exact ⟨rfl, le_rfl⟩
    · have hmalloc := grows_malloc L (align size + tagsSize)
      dsimp only
      split
      · exact .refl L
      · exact hmalloc.trans (grows_free _ _)

theorem grows_execLayout (L : Layout) (c : Call) : Grows L (execLayout L c).1 := by
  cases c with
  | malloc size => exact grows_malloc L size
  | free ptr =>
      rw [execLayout]
      split
      · exact .refl L
      · exact grows_free L ptr
  | realloc ptr size =>
      rw [execLayout, Layout.realloc]
      split
      · exact grows_malloc L size
      · split
        · exact grows_free L ptr
        · split
          · exact grows_reallocBlock L _ size
          · exact .refl L

end Layouts

section Heaps

variable {h h' h'' : Heap} {cfg : Config} {L L' : Layout} {c : Call} {q a n : Nat}

/-- `h'` has the start of `h`, and all of its bytes. -/
structure Extends (h h' : Heap) : Prop where
  start : h'.memStartBrk = h.memStartBrk
  brk : h.memBrk ≤ h'.memBrk

theorem Extends.refl (h : Heap) : Extends h h := ⟨rfl, le_rfl⟩

theorem Extends.trans (h₁ : Extends h h') (h₂ : Extends h' h'') : Extends h h'' :=
  ⟨h₂.start.trans h₁.start, h₁.brk.trans h₂.brk⟩

theorem Extends.heapsize (hext : Extends h h') : h.memHeapsize ≤ h'.memHeapsize := by
  have hbrk := hext.brk
  rw [Heap.memHeapsize, Heap.memHeapsize, hext.start]
  exact Nat.sub_le_sub_right hbrk _

theorem extends_of_grows (hR : Represents h L) (hR' : Represents h' L') (hgrows : Grows L L') :
    Extends h h' where
  start := hR'.base.trans (hgrows.start.trans hR.base.symm)
  brk := by
    rw [hR.memBrk, hR'.memBrk]
    exact Nat.add_le_add_right hgrows.top 16

theorem exec_extends (hI : Invariant cfg L) (hlegal : c.Legal cfg.live) (hserves : Serves L c)
    (hrun : c.exec.run cfg.heap = .ok (q, h')) : Extends cfg.heap h' := by
  obtain ⟨h'', hrun', hI'⟩ := exec_run hI hlegal hserves
  obtain ⟨rfl, rfl⟩ := Prod.mk.inj (Except.ok.inj (hrun.symm.trans hrun'))
  exact extends_of_grows hI.represents hI'.represents (grows_execLayout L c)

theorem memset_extends {v : BitVec 8} (hrun : (memset a v n).run h = .ok ((), h')) :
    Extends h h' := by
  rw [memset, run_bind_of_ok (run_get h)] at hrun
  split at hrun
  · cases hrun
    exact ⟨rfl, le_rfl⟩
  · cases hrun

end Heaps

end MallocLab.HeapExtents
