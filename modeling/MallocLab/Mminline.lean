import MallocLab.Machine

/-!
The inline functions of `mminline.h`, in the order of the header.
-/

namespace MallocLab.Mminline

open MallocLab.Machine

/-- `&b->payload[i]`; the payload starts one word behind the header. -/
def payloadAt (b : Nat) (i : Int) : Nat :=
  ((b : Int) + 8 + 8 * i).toNat

def payload (b : Nat) : Nat := b + 8

/-- The `int` result is kept as a word; it is zero or one. -/
def blockAllocated (b : Nat) : HeapM Word :=
  return (← readWord b) &&& 1#64

def blockEndTag (b : Nat) : HeapM Nat := do
  let size ← readWord b
  assertThat (size.toInt ≥ (wordSize * 2).toInt)
  return payloadAt b (size.toInt.tdiv 8 - 2)

def blockEndAllocated (b : Nat) : HeapM Word := do
  return (← readWord (← blockEndTag b)) &&& 1#64

def blockSetSize (b : Nat) (size : Word) : HeapM Unit := do
  assertThat (size &&& (alignment - 1) = 0)
  let size := size ||| (← blockAllocated b)
  writeWord b size
  writeWord (← blockEndTag b) size

def blockSize (b : Nat) : HeapM Word :=
  return (← readWord b) &&& -2#64

def blockSetAllocated (b : Nat) (allocated : Word) : HeapM Unit := do
  assertThat (allocated = 0 ∨ allocated = 1)
  if allocated ≠ 0 then
    writeWord b ((← readWord b) ||| 1#64)
    let tag ← blockEndTag b
    writeWord tag ((← readWord tag) ||| 1#64)
  else
    writeWord b ((← readWord b) &&& -2#64)
    let tag ← blockEndTag b
    writeWord tag ((← readWord tag) &&& -2#64)

def blockSetSizeAndAllocated (b : Nat) (size : Word) (allocated : Word) : HeapM Unit := do
  blockSetSize b size
  blockSetAllocated b allocated

def blockEndSize (b : Nat) : HeapM Word := do
  return (← readWord (← blockEndTag b)) &&& -2#64

def blockPrevSize (b : Nat) : HeapM Word :=
  return (← readWord (payloadAt b (-2))) &&& -2#64

def blockPrev (b : Nat) : HeapM Nat :=
  return ((b : Int) - (← blockPrevSize b).toInt).toNat

def blockNext (b : Nat) : HeapM Nat :=
  return ((b : Int) + (← blockSize b).toInt).toNat

def payloadToBlock (p : Nat) : Nat := p - 8

def blockBlink (b : Nat) : HeapM Nat := do
  assertThat ((← blockAllocated b) = 0)
  return (← readWord (payloadAt b 1)).toNat

/-- `assert(!block_allocated(b) && !block_allocated(c))`, from left to right. -/
def assertBothFree (b c : Nat) : HeapM Unit := do
  assertThat ((← blockAllocated b) = 0)
  assertThat ((← blockAllocated c) = 0)

def blockSetBlink (b newBlink : Nat) : HeapM Unit := do
  assertBothFree b newBlink
  writeWord (payloadAt b 1) (BitVec.ofNat 64 newBlink)

def blockFlink (b : Nat) : HeapM Nat := do
  assertThat ((← blockAllocated b) = 0)
  return (← readWord (payloadAt b 0)).toNat

def blockSetFlink (b newFlink : Nat) : HeapM Unit := do
  assertBothFree b newFlink
  writeWord (payloadAt b 0) (BitVec.ofNat 64 newFlink)

def insertFreeBlock (fb : Nat) : HeapM Unit := do
  assertThat ((← blockAllocated fb) = 0)
  let first ← getFlistFirst
  if first ≠ null then
    let last ← blockBlink first
    blockSetFlink fb first
    blockSetBlink fb last
    blockSetFlink last fb
    blockSetBlink first fb
  else
    blockSetFlink fb fb
    blockSetBlink fb fb
  setFlistFirst fb

/-- The last two statements of `pull_free_block`: the neighbours of `fb` in
the list are linked to each other. -/
def relinkNeighbours (fb : Nat) : HeapM Unit := do
  blockSetFlink (← blockBlink fb) (← blockFlink fb)
  blockSetBlink (← blockFlink fb) (← blockBlink fb)

def pullFreeBlock (fb : Nat) : HeapM Unit := do
  assertThat ((← blockAllocated fb) = 0)
  if (← getFlistFirst) = fb then
    setFlistFirst (← blockFlink fb)
    if (← getFlistFirst) = fb then
      setFlistFirst null
    else
      relinkNeighbours fb
  else
    relinkNeighbours fb

end MallocLab.Mminline
