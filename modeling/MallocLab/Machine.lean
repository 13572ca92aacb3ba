import MallocLab.ByteMemory

/-!
The machine the allocator runs on: 64-bit words over a byte-addressed arena,
the static variables of `memlib.c`, `mm.c` and `mminline.h`, and the memory
system model of `memlib.c`.

Every access goes through `readWord`, `writeWord` or `memmove`, which fault
when it leaves `[mem_heap_lo, mem_brk)`; a failing `assert` faults as well.
-/

namespace MallocLab.Machine

open MallocLab.ByteMemory

/-- The 64-bit types `long` and `size_t`. -/
abbrev Word := BitVec 64

/-- `NULL`.  Pointers are natural numbers throughout: the address they hold. -/
abbrev null : Nat := 0

/-- `(void *)-1`, the failure value of `mem_sbrk`. -/
def sbrkFailed : Nat := 2 ^ 64 - 1

def alignment : Word := 8

def wordSize : Word := 8

def tagsSize : Word := 2 * wordSize

def minBlockSize : Word := 4 * wordSize

def maxHeap : Nat := 20 * 2 ^ 20

/-- The storage `mem_init` obtains from libc: `MAX_HEAP` bytes at an aligned
address, inside the address space. -/
structure Arena where
  start : Nat
  aligned : start % 8 = 0
  pos : 0 < start
  fits : start + maxHeap < 2 ^ 64

structure Move where
  dst : Nat
  src : Nat
  count : Nat
  deriving DecidableEq, Repr

/-- Contents of memory and of the static variables.  `moves` records the
`memmove` calls executed so far, and no function reads it. -/
structure Heap where
  arena : Arena
  memory : Memory
  memBrk : Nat
  flistFirst : Nat
  prologue : Nat
  epilogue : Nat
  moves : List Move

namespace Heap

def memStartBrk (h : Heap) : Nat := h.arena.start

def memMaxAddr (h : Heap) : Nat := h.arena.start + maxHeap

def memHeapLo (h : Heap) : Nat := h.memStartBrk

def memHeapHi (h : Heap) : Nat := h.memBrk - 1

def memHeapsize (h : Heap) : Nat := h.memBrk - h.memStartBrk

/-- The bytes `[a, a + n)` lie in the heap of the moment. -/
def InHeap (h : Heap) (a n : Nat) : Prop :=
  h.memStartBrk ≤ a ∧ a + n ≤ h.memBrk

instance (h : Heap) (a n : Nat) : Decidable (h.InHeap a n) :=
  inferInstanceAs (Decidable (_ ∧ _))

def word (h : Heap) (a : Nat) : Word := load h.memory a 8

def setWord (h : Heap) (a : Nat) (w : Word) : Heap :=
  { h with memory := store (n := 8) h.memory a w }

def move (h : Heap) (dst src : Nat) (n : Nat) : Heap :=
  { h with
    memory := copy h.memory dst src n
    moves := h.moves ++ [⟨dst, src, n⟩] }

end Heap

/-- The ways a call can go wrong: a failed `assert`, an access outside the
heap, or a loop that never ends. -/
inductive Fault where
  | assertion
  | outOfHeap (a : Nat)
  | diverges
  deriving DecidableEq, Repr

abbrev HeapM := StateT Heap (Except Fault)

def assertThat (p : Prop) [Decidable p] : HeapM Unit :=
  if p then pure () else throw .assertion

def readWord (a : Nat) : HeapM Word := do
  let h ← get
  if h.InHeap a 8 then pure (h.word a) else throw (.outOfHeap a)

def writeWord (a : Nat) (w : Word) : HeapM Unit := do
  let h ← get
  if h.InHeap a 8 then set (h.setWord a w) else throw (.outOfHeap a)

def memmove (dst src : Nat) (n : Word) : HeapM Unit := do
  let h ← get
  if h.InHeap src n.toNat then
    if h.InHeap dst n.toNat then set (h.move dst src n.toNat)
    else throw (.outOfHeap dst)
  else throw (.outOfHeap src)

def getFlistFirst : HeapM Nat := return (← get).flistFirst

def setFlistFirst (p : Nat) : HeapM Unit :=
  modify fun h => { h with flistFirst := p }

/-- `mem_init`, given the storage and the stale bytes libc returned. -/
def memInit (arena : Arena) (stale : Memory) : Heap where
  arena := arena
  memory := stale
  memBrk := arena.start
  flistFirst := null
  prologue := null
  epilogue := null
  moves := []

def memResetBrk : HeapM Unit :=
  modify fun h => { h with memBrk := h.memStartBrk }

/-- `mem_sbrk`; its argument is a 32-bit `int`. -/
def memSbrk (incr : BitVec 32) : HeapM Nat := do
  let h ← get
  if incr.toInt < 0 ∨ (h.memBrk : Int) + incr.toInt > h.memMaxAddr then
    return sbrkFailed
  else
    set { h with memBrk := h.memBrk + incr.toNat }
    return h.memBrk

end MallocLab.Machine
