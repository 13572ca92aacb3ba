import MallocLab.HeapPrograms

/-!
`mm_free` never moves the break, not even on a heap that is out of shape.  The
end of `mm_realloc` needs this where the copy overruns the new block.
-/

namespace MallocLab.BreakFrame

open MallocLab.Machine
open MallocLab.Mminline
open MallocLab.Mm
open MallocLab.HeapPrograms

variable {α β : Type}

def KeepsBreak (x : HeapM α) : Prop :=
  ∀ h a h', x.run h = .ok (a, h') → h'.memBrk = h.memBrk ∧ h'.arena = h.arena

section Primitives

theorem keepsBreak_pure (a : α) : KeepsBreak (pure a : HeapM α) := by
  intro h b h' hrun
  cases hrun
  exact ⟨rfl, rfl⟩

theorem keepsBreak_throw (e : Fault) : KeepsBreak (throw e : HeapM α) := by
  intro h b h' hrun
  cases hrun

theorem KeepsBreak.bind {x : HeapM α} {f : α → HeapM β} (hx : KeepsBreak x)
    (hf : ∀ a, KeepsBreak (f a)) : KeepsBreak (x >>= f) := by
  intro h b h'' hrun
  obtain ⟨a, h', hxrun, hfrun⟩ := run_bind_eq_ok hrun
  obtain ⟨hbrk, harena⟩ := hx h a h' hxrun
  obtain ⟨hbrk', harena'⟩ := hf a h' b h'' hfrun
  exact ⟨hbrk'.trans hbrk, harena'.trans harena⟩

theorem KeepsBreak.ite {p : Prop} [Decidable p] {x y : HeapM α} (hx : KeepsBreak x)
    (hy : KeepsBreak y) : KeepsBreak (if p then x else y) := by
  split
  · exact hx
  · exact hy

theorem keepsBreak_get : KeepsBreak (get : HeapM Heap) := by
  intro h a h' hrun
  cases hrun
  exact ⟨rfl, rfl⟩

theorem keepsBreak_assertThat (p : Prop) [Decidable p] : KeepsBreak (assertThat p) :=
  .ite (keepsBreak_pure _) (keepsBreak_throw _)

theorem keepsBreak_readWord (a : Nat) : KeepsBreak (readWord a) :=
  .bind keepsBreak_get fun _ => .ite (keepsBreak_pure _) (keepsBreak_throw _)

theorem keepsBreak_writeWord (a : Nat) (w : Word) : KeepsBreak (writeWord a w) := by
  intro h b h' hrun
  rw [writeWord, run_bind_of_ok (run_get h)] at hrun
  split at hrun
  · cases hrun
    exact ⟨rfl, rfl⟩
  · cases hrun

theorem keepsBreak_memmove (dst src : Nat) (n : Word) : KeepsBreak (memmove dst src n) := by
  intro h b h' hrun
  rw [memmove, run_bind_of_ok (run_get h)] at hrun
  split at hrun
  · split at hrun
    · cases hrun
      exact ⟨rfl, rfl⟩
    · cases hrun
  · cases hrun

theorem keepsBreak_getFlistFirst : KeepsBreak getFlistFirst :=
  .bind keepsBreak_get fun _ => keepsBreak_pure _

theorem keepsBreak_setFlistFirst (p : Nat) : KeepsBreak (setFlistFirst p) := by
  intro h a h' hrun
  cases hrun
  exact ⟨rfl, rfl⟩

end Primitives

section Header

theorem keepsBreak_blockAllocated (b : Nat) : KeepsBreak (blockAllocated b) :=
  .bind (keepsBreak_readWord b) fun _ => keepsBreak_pure _

theorem keepsBreak_blockSize (b : Nat) : KeepsBreak (blockSize b) :=
  .bind (keepsBreak_readWord b) fun _ => keepsBreak_pure _

theorem keepsBreak_blockEndTag (b : Nat) : KeepsBreak (blockEndTag b) :=
  .bind (keepsBreak_readWord b) fun _ => .bind (keepsBreak_assertThat _) fun _ => keepsBreak_pure _

theorem keepsBreak_blockNext (b : Nat) : KeepsBreak (blockNext b) :=
  .bind (keepsBreak_blockSize b) fun _ => keepsBreak_pure _

theorem keepsBreak_blockPrev (b : Nat) : KeepsBreak (blockPrev b) :=
  .bind (.bind (keepsBreak_readWord _) fun _ => keepsBreak_pure _) fun _ => keepsBreak_pure _

/-- Reading a word and writing it back changed. -/
theorem keepsBreak_modifyWord (a : Nat) (f : Word → Word) :
    KeepsBreak (do writeWord a (f (← readWord a))) :=
  .bind (keepsBreak_readWord a) fun _ => keepsBreak_writeWord a _

theorem keepsBreak_blockSetAllocated (b : Nat) (allocated : Word) :
    KeepsBreak (blockSetAllocated b allocated) := by
  have hboth : ∀ f : Word → Word, KeepsBreak (do
      writeWord b (f (← readWord b))
      let tag ← blockEndTag b
      writeWord tag (f (← readWord tag))) := by
    intro f
    refine .bind (keepsBreak_readWord b) fun _ => .bind (keepsBreak_writeWord b _) fun _ => ?_
    exact .bind (keepsBreak_blockEndTag b) fun tag => keepsBreak_modifyWord tag f
  exact .bind (keepsBreak_assertThat _) fun _ => .ite (hboth (· ||| 1#64)) (hboth (· &&& -2#64))

theorem keepsBreak_blockSetSize (b : Nat) (size : Word) : KeepsBreak (blockSetSize b size) := by
  refine .bind (keepsBreak_assertThat _) fun _ => .bind (keepsBreak_blockAllocated b) fun _ => ?_
  refine .bind (keepsBreak_writeWord b _) fun _ => ?_
  exact .bind (keepsBreak_blockEndTag b) fun tag => keepsBreak_writeWord tag _

theorem keepsBreak_blockSetSizeAndAllocated (b : Nat) (size allocated : Word) :
    KeepsBreak (blockSetSizeAndAllocated b size allocated) :=
  .bind (keepsBreak_blockSetSize b size) fun _ => keepsBreak_blockSetAllocated b allocated

end Header

section Links

/-- Reading a link of a free block. -/
theorem keepsBreak_link (b a : Nat) : KeepsBreak (do
    assertThat ((← blockAllocated b) = 0)
    return (← readWord a).toNat) := by
  refine .bind (keepsBreak_blockAllocated b) fun _ => .bind (keepsBreak_assertThat _) fun _ => ?_
  exact .bind (keepsBreak_readWord a) fun _ => keepsBreak_pure _

theorem keepsBreak_blockFlink (b : Nat) : KeepsBreak (blockFlink b) := keepsBreak_link b _

theorem keepsBreak_blockBlink (b : Nat) : KeepsBreak (blockBlink b) := keepsBreak_link b _

theorem keepsBreak_assertBothFree (b c : Nat) : KeepsBreak (assertBothFree b c) := by
  refine .bind (keepsBreak_blockAllocated b) fun _ => .bind (keepsBreak_assertThat _) fun _ => ?_
  exact .bind (keepsBreak_blockAllocated c) fun _ => keepsBreak_assertThat _

theorem keepsBreak_blockSetFlink (b c : Nat) : KeepsBreak (blockSetFlink b c) :=
  .bind (keepsBreak_assertBothFree b c) fun _ => keepsBreak_writeWord _ _

theorem keepsBreak_blockSetBlink (b c : Nat) : KeepsBreak (blockSetBlink b c) :=
  .bind (keepsBreak_assertBothFree b c) fun _ => keepsBreak_writeWord _ _

theorem keepsBreak_insertFreeBlock (fb : Nat) : KeepsBreak (insertFreeBlock fb) := by
  refine .bind (keepsBreak_blockAllocated fb) fun _ => .bind (keepsBreak_assertThat _) fun _ => ?_
  refine .bind keepsBreak_getFlistFirst fun first => .ite ?_ ?_
  · refine .bind (keepsBreak_blockBlink first) fun last => ?_
    refine .bind (keepsBreak_blockSetFlink fb first) fun _ => ?_
    refine .bind (keepsBreak_blockSetBlink fb last) fun _ => ?_
    refine .bind (keepsBreak_blockSetFlink last fb) fun _ => ?_
    exact .bind (keepsBreak_blockSetBlink first fb) fun _ => keepsBreak_setFlistFirst fb
  · refine .bind (keepsBreak_blockSetFlink fb fb) fun _ => ?_
    exact .bind (keepsBreak_blockSetBlink fb fb) fun _ => keepsBreak_setFlistFirst fb

theorem keepsBreak_relinkNeighbours (fb : Nat) : KeepsBreak (relinkNeighbours fb) := by
  refine .bind (keepsBreak_blockBlink fb) fun _ => .bind (keepsBreak_blockFlink fb) fun _ => ?_
  refine .bind (keepsBreak_blockSetFlink _ _) fun _ => ?_
  refine .bind (keepsBreak_blockFlink fb) fun _ => .bind (keepsBreak_blockBlink fb) fun _ => ?_
  exact keepsBreak_blockSetBlink _ _

theorem keepsBreak_pullFreeBlock (fb : Nat) : KeepsBreak (pullFreeBlock fb) := by
  refine .bind (keepsBreak_blockAllocated fb) fun _ => .bind (keepsBreak_assertThat _) fun _ => ?_
  refine .bind keepsBreak_getFlistFirst fun _ => .ite ?_ (keepsBreak_relinkNeighbours fb)
  refine .bind (keepsBreak_blockFlink fb) fun _ => .bind (keepsBreak_setFlistFirst _) fun _ => ?_
  exact .bind keepsBreak_getFlistFirst fun _ =>
    .ite (keepsBreak_setFlistFirst null) (keepsBreak_relinkNeighbours fb)

end Links

section Free

/-- The statements of `coalescing` that join two blocks, and what follows them. -/
theorem keepsBreak_join (pulled b c : Nat) {rest : HeapM Unit} (hrest : KeepsBreak rest) :
    KeepsBreak (do
      pullFreeBlock pulled
      let newSize := (← blockSize pulled) + (← blockSize b)
      blockSetSizeAndAllocated c newSize 0
      rest) := by
  refine .bind (keepsBreak_pullFreeBlock pulled) fun _ => ?_
  refine .bind (keepsBreak_blockSize pulled) fun _ => .bind (keepsBreak_blockSize b) fun _ => ?_
  exact .bind (keepsBreak_blockSetSizeAndAllocated _ _ _) fun _ => hrest

theorem keepsBreak_coalescePrev (prev b : Nat) : KeepsBreak (coalescePrev prev b) := by
  refine .bind (keepsBreak_blockAllocated prev) fun _ => .ite ?_ (keepsBreak_pure _)
  refine .bind (keepsBreak_pullFreeBlock prev) fun _ => ?_
  refine .bind (keepsBreak_blockSize prev) fun _ => .bind (keepsBreak_blockSize b) fun _ => ?_
  exact keepsBreak_blockSetSizeAndAllocated prev _ 0

theorem keepsBreak_coalescing (b : Nat) : KeepsBreak (coalescing b) := by
  refine .bind (keepsBreak_blockNext b) fun next => .bind (keepsBreak_blockPrev b) fun prev => ?_
  refine .bind (keepsBreak_pullFreeBlock b) fun _ => ?_
  refine .bind (keepsBreak_coalescePrev prev b) fun _ => ?_
  refine .bind (keepsBreak_blockAllocated next) fun _ => .ite ?_ ?_
  · refine .bind (keepsBreak_blockAllocated prev) fun _ => .ite ?_ ?_
    · exact keepsBreak_join next prev prev (keepsBreak_insertFreeBlock prev)
    · exact keepsBreak_join next b b (keepsBreak_insertFreeBlock b)
  · refine .bind (keepsBreak_blockAllocated prev) fun _ => .ite ?_ ?_
    · exact keepsBreak_insertFreeBlock prev
    · exact keepsBreak_insertFreeBlock b

theorem keepsBreak_mmFree (ptr : Nat) : KeepsBreak (mmFree ptr) := by
  refine .ite (keepsBreak_pure _) ?_
  refine .bind (keepsBreak_blockAllocated _) fun _ => .ite (keepsBreak_pure _) ?_
  refine .bind (keepsBreak_blockSetAllocated _ 0) fun _ => ?_
  exact .bind (keepsBreak_insertFreeBlock _) fun _ => keepsBreak_coalescing _

theorem keepsBreak_moveToNew (newptr ptr : Nat) (oldSize : Word) :
    KeepsBreak (moveToNew newptr ptr oldSize) := by
  refine .ite ?_ (keepsBreak_pure _)
  exact .bind (keepsBreak_memmove newptr ptr oldSize) fun _ => keepsBreak_mmFree ptr

end Free

end MallocLab.BreakFrame
